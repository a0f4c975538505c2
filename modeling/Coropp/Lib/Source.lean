import Coropp.Lib.Loop

/-!
# Calls that take symbols from a source

A source holds a list of symbols that are still to come.  A call hands some of them over in
pieces, and either returns or throws.  A call with a cut takes what the cut says, whatever else
the state holds; a sequence of such calls cannot tell two sources of the same symbols apart.
-/

open Loops

/-- How a call ends: what it returns or throws, the pieces that have reached its caller, and the
    state it leaves. -/
structure Ended (α ε S ρ : Type*) where
  ret : Except ε ρ
  pieces : List (List α)
  left : S

class Source (α : outParam Type*) (S : Type*) where
  /-- The symbols still to come. -/
  rest : S → List α
  /-- Nothing throws any more. -/
  Calm : S → Prop

/-- What a call returns, and where it cuts the symbols to come. -/
structure Cut (α ρ : Type*) where
  ret : ρ
  taken : List α
  rem : List α

/-- The cut of a call that has taken `pre` before. -/
def Cut.after {α ρ : Type*} (pre : List α) (cut : Cut α ρ) : Cut α ρ :=
  ⟨cut.ret, pre ++ cut.taken, cut.rem⟩

theorem Cut.after_append {α ρ : Type*} (xs ys : List α) (cut : Cut α ρ) :
    cut.after (xs ++ ys) = (cut.after ys).after xs := by
  unfold Cut.after
  rw [List.append_assoc]

def Cut.map {α ρ τ : Type*} (f : ρ → τ) (cut : Cut α ρ) : Cut α τ :=
  ⟨f cut.ret, cut.taken, cut.rem⟩

namespace Ended

variable {α ε S T ρ τ : Type*}

def bytes (r : Ended α ε S ρ) : List α := r.pieces.flatten

/-- The same end, for a caller that received `pieces` before and keeps the state in its own. -/
def after (pieces : List (List α)) (f : S → T) (r : Ended α ε S ρ) : Ended α ε T ρ :=
  ⟨r.ret, pieces ++ r.pieces, f r.left⟩

def map (f : ρ → τ) (r : Ended α ε S ρ) : Ended α ε S τ := ⟨r.ret.map f, r.pieces, r.left⟩

end Ended

namespace Source

variable {α ε S T ρ τ κ : Type*} [Source α S] [Source α T]

/-- A call from `s` ends with what `cut` says, unless it throws. -/
structure Meets (s : S) (r : Ended α ε S ρ) (cut : Cut α ρ) : Prop where
  calm : Calm s → Calm r.left ∧ r.ret = .ok cut.ret
  ok : ∀ v, r.ret = .ok v → v = cut.ret ∧ r.bytes = cut.taken ∧ rest r.left = cut.rem

theorem Meets.returned {s s' : S} {v : ρ} {pieces : List (List α)} {cut : Cut α ρ}
    (hcalm : Calm s → Calm s') (hret : v = cut.ret) (htaken : pieces.flatten = cut.taken)
    (hrem : rest s' = cut.rem) : Meets s (⟨.ok v, pieces, s'⟩ : Ended α ε S ρ) cut where
  calm hs := ⟨hcalm hs, by rw [hret]⟩
  ok v' hv := by
    obtain rfl := Except.ok.inj hv
    exact ⟨hret, htaken, hrem⟩

theorem Meets.threw {s s' : S} {e : ε} {pieces : List (List α)} {cut : Cut α ρ}
    (hs : ¬ Calm s) : Meets s (⟨.error e, pieces, s'⟩ : Ended α ε S ρ) cut where
  calm h := absurd h hs
  ok _ hv := nomatch hv

-- An end counts for an earlier state too.
theorem Meets.back {s s' : S} {r : Ended α ε S ρ} {cut : Cut α ρ} (h : Meets s' r cut)
    (hcalm : Calm s → Calm s') : Meets s r cut where
  calm hs := h.calm (hcalm hs)
  ok := h.ok

theorem Meets.map {s : S} {r : Ended α ε S ρ} {cut : Cut α ρ} (h : Meets s r cut) (f : ρ → τ) :
    Meets s (r.map f) (cut.map f) where
  calm hs := by
    rcases h.calm hs with ⟨hleft, hret⟩
    exact ⟨hleft, by rw [Ended.map, hret]; rfl⟩
  ok v hv := by
    rcases r with ⟨ret, pieces, left⟩
    cases ret with
    | error e => cases hv
    | ok v' =>
      obtain rfl := Except.ok.inj hv
      rcases h.ok v' rfl with ⟨hret, htaken, hrem⟩
      exact ⟨congrArg f hret, htaken, hrem⟩

-- After `pieces`, a caller goes on with an inner source that holds the rest.
theorem Meets.after {s : S} {t : T} {r : Ended α ε T ρ} {cut : Cut α ρ} {f : T → S}
    (h : Meets t r cut) (hcalm : Calm s → Calm t) (hf : ∀ t, rest (f t) = rest t)
    (hfcalm : ∀ t, Calm t → Calm (f t)) (pieces : List (List α)) :
    Meets s (r.after pieces f) (cut.after pieces.flatten) where
  calm hs := by
    rcases h.calm (hcalm hs) with ⟨hleft, hret⟩
    exact ⟨hfcalm _ hleft, hret⟩
  ok v hv := by
    rcases h.ok v hv with ⟨hret, htaken, hrem⟩
    refine ⟨hret, ?_, (hf r.left).trans hrem⟩
    rw [Cut.after, ← htaken]
    exact List.flatten_append

/-- With enough fuel the call ends, and with what `cut` says. -/
def Ends (call : Nat → S → Option (Ended α ε S ρ)) (s : S) (cut : Cut α ρ) : Prop :=
  ∃ r, Yields (call · s) r ∧ Meets s r cut

theorem Ends.map {call : Nat → S → Option (Ended α ε S ρ)} {s : S} {cut : Cut α ρ}
    (h : Ends call s cut) (f : ρ → τ) :
    Ends (fun fuel s => (call fuel s).map (Ended.map f)) s (cut.map f) := by
  rcases h with ⟨r, hy, hmeets⟩
  exact ⟨_, hy.map _, hmeets.map f⟩

/-! ## Sequences of calls -/

/-- Make the calls `ks` in a row.  Each gives what it returned or threw, with the symbols it
    handed over. -/
def answers (call : κ → Nat → S → Option (Ended α ε S ρ)) (fuel : Nat) :
    List κ → S → Option (List (Except ε ρ × List α))
  | [], _ => some []
  | k :: ks, s =>
    (call k fuel s).bind fun r => (answers call fuel ks r.left).map ((r.ret, r.bytes) :: ·)

/-- The answers of calls with the cuts `cut`, over the symbols `xs`. -/
def expected (cut : κ → List α → Cut α ρ) : List κ → List α → List (Except ε ρ × List α)
  | [], _ => []
  | k :: ks, xs => (.ok (cut k xs).ret, (cut k xs).taken) :: expected cut ks (cut k xs).rem

-- The answers of a calm source depend on the symbols to come alone.
theorem answers_expected {call : κ → Nat → S → Option (Ended α ε S ρ)}
    {cut : κ → List α → Cut α ρ} {ks : List κ}
    (hcall : ∀ k ∈ ks, ∀ s, Ends (call k) s (cut k (rest s))) {s : S} (hs : Calm s) :
    Yields (answers call · ks s) (expected cut ks (rest s)) := by
  induction ks generalizing s with
  | nil => exact yields_const []
  | cons k ks ih =>
    rcases hcall k (.head _) s with ⟨r, hy, hmeets⟩
    rcases hmeets.calm hs with ⟨hleft, hret⟩
    rcases hmeets.ok _ hret with ⟨-, htaken, hrem⟩
    have htail : Yields (answers call · ks r.left) (expected cut ks (cut k (rest s)).rem) := by
      rw [← hrem]
      exact ih (fun k hk => hcall k (.tail _ hk)) hleft
    have hall := hy.bind
      (fun r fuel => (answers call fuel ks r.left).map ((r.ret, r.bytes) :: ·)) (htail.map _)
    rw [hret, htaken] at hall
    exact hall

end Source
