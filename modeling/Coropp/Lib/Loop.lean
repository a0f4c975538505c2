import Mathlib.Data.Nat.Init

/-!
# Loops with fuel

A loop body either goes round again or leaves with a result.  `run` makes at most `fuel` rounds;
`Yields` says what comes out once there is enough fuel, and `ends_of_variant` is the rule that
proves it: an invariant, a variant, and a result that carries over from round to round.
-/

namespace Loops

variable {σ ρ τ : Type*}

/-- `f` gives `r` for every fuel from some point on. -/
def Yields (f : Nat → Option ρ) (r : ρ) : Prop := ∃ n, ∀ m, n ≤ m → f m = some r

def run (body : σ → σ ⊕ ρ) : Nat → σ → Option ρ
  | 0, _ => none
  | fuel + 1, s =>
    match body s with
    | .inl s' => run body fuel s'
    | .inr r => some r

theorem Yields.unique {f : Nat → Option ρ} {r r' : ρ} (h : Yields f r) (h' : Yields f r') :
    r = r' := by
  rcases h with ⟨n, hn⟩
  rcases h' with ⟨n', hn'⟩
  have hr := hn (max n n') (Nat.le_max_left n n')
  have hr' := hn' (max n n') (Nat.le_max_right n n')
  exact Option.some.inj (hr.symm.trans hr')

theorem not_yields {f : Nat → Option ρ} (h : ∀ fuel, f fuel = none) (r : ρ) : ¬Yields f r := by
  rintro ⟨n, hn⟩
  cases (h n).symm.trans (hn n (Nat.le_refl n))

theorem yields_const (r : ρ) : Yields (fun _ => some r) r :=
  ⟨0, fun _ _ => rfl⟩

theorem Yields.map {f : Nat → Option ρ} {r : ρ} (h : Yields f r) (g : ρ → τ) :
    Yields (fun fuel => (f fuel).map g) (g r) := by
  rcases h with ⟨n, hn⟩
  refine ⟨n, fun m hm => ?_⟩
  change (f m).map g = some (g r)
  rw [hn m hm, Option.map_some]

theorem Yields.bind {f : Nat → Option ρ} (g : ρ → Nat → Option τ) {r : ρ} {t : τ}
    (h : Yields f r) (hg : Yields (g r) t) : Yields (fun fuel => (f fuel).bind (g · fuel)) t := by
  rcases h with ⟨n, hn⟩
  rcases hg with ⟨k, hk⟩
  refine ⟨max n k, fun m hm => ?_⟩
  change ((f m).bind (g · m)) = some t
  rw [hn m (by omega), Option.bind_some, hk m (by omega)]

/-! ## Rounds -/

theorem run_succ_inl {body : σ → σ ⊕ ρ} {s s' : σ} (h : body s = .inl s') (fuel : Nat) :
    run body (fuel + 1) s = run body fuel s' := by
  rw [run, h]

theorem run_succ_inr {body : σ → σ ⊕ ρ} {s : σ} {r : ρ} (h : body s = .inr r) (fuel : Nat) :
    run body (fuel + 1) s = some r := by
  rw [run, h]

theorem yields_last {body : σ → σ ⊕ ρ} {s : σ} {r : ρ} (h : body s = .inr r) :
    Yields (run body · s) r := by
  refine ⟨1, fun m hm => ?_⟩
  cases m with
  | zero => omega
  | succ fuel => exact run_succ_inr h fuel

theorem yields_round {body : σ → σ ⊕ ρ} {s s' : σ} {r : ρ} (h : body s = .inl s')
    (hs' : Yields (run body · s') r) : Yields (run body · s) r := by
  rcases hs' with ⟨n, hn⟩
  refine ⟨n + 1, fun m hm => ?_⟩
  cases m with
  | zero => omega
  | succ fuel =>
    change run body (fuel + 1) s = some r
    rw [run_succ_inl h]
    exact hn fuel (by omega)

theorem yields_of_run {body : σ → σ ⊕ ρ} {fuel : Nat} {s : σ} {r : ρ}
    (h : run body fuel s = some r) : Yields (run body · s) r := by
  induction fuel generalizing s with
  | zero => cases h
  | succ fuel ih =>
    cases hb : body s with
    | inl s' =>
      rw [run_succ_inl hb] at h
      exact yields_round hb (ih h)
    | inr r' =>
      rw [run_succ_inr hb] at h
      obtain rfl := Option.some.inj h
      exact yields_last hb

-- Where the loop ends, its result satisfies `P`: every round keeps `I` or leaves with such a result.
theorem run_keeps {body : σ → σ ⊕ ρ} {I : σ → Prop} {P : ρ → Prop}
    (hround : ∀ s, I s → Sum.elim I P (body s)) {fuel : Nat} {s : σ} {r : ρ} (hs : I s)
    (h : run body fuel s = some r) : P r := by
  induction fuel generalizing s with
  | zero => cases h
  | succ fuel ih =>
    have hnext := hround s hs
    cases hb : body s with
    | inl s' =>
      rw [hb] at hnext
      rw [run_succ_inl hb] at h
      exact ih hnext h
    | inr r' =>
      rw [hb] at hnext
      rw [run_succ_inr hb] at h
      rw [← Option.some.inj h]
      exact hnext

-- A loop that goes round again from every state in `I` never ends.
theorem run_forever {body : σ → σ ⊕ ρ} {I : σ → Prop}
    (hround : ∀ s, I s → ∃ s', body s = .inl s' ∧ I s') {s : σ} (hs : I s) (fuel : Nat) :
    run body fuel s = none := by
  induction fuel generalizing s with
  | zero => rfl
  | succ fuel ih =>
    rcases hround s hs with ⟨s', hb, hs'⟩
    rw [run_succ_inl hb]
    exact ih hs'

-- The loop ends, and its result satisfies `P`: every round from a state in `I` either leaves
-- with such a result, or keeps `I`, decreases `μ` and passes results back.
theorem ends_of_variant {body : σ → σ ⊕ ρ} {I : σ → Prop} {P : σ → ρ → Prop} (μ : σ → Nat)
    (hround : ∀ s, I s → (∃ r, body s = .inr r ∧ P s r) ∨
      ∃ s', body s = .inl s' ∧ I s' ∧ μ s' < μ s ∧ ∀ r, P s' r → P s r)
    {s : σ} (hs : I s) : ∃ r, Yields (run body · s) r ∧ P s r := by
  induction hk : μ s using Nat.strongRecOn generalizing s with
  | ind k ih =>
    rcases hround s hs with ⟨r, hb, hr⟩ | ⟨s', hb, hs', hlt, hback⟩
    · exact ⟨r, yields_last hb, hr⟩
    · rcases ih (μ s') (hk ▸ hlt) hs' rfl with ⟨r, hy, hr⟩
      exact ⟨r, yields_round hb hy, hback r hr⟩

/-! ## Loops whose rounds have loops of their own -/

/-- The body gets what fuel there is left. -/
def runNested (body : Nat → σ → Option (σ ⊕ ρ)) : Nat → σ → Option ρ
  | 0, _ => none
  | fuel + 1, s =>
    match body fuel s with
    | none => none
    | some (.inl s') => runNested body fuel s'
    | some (.inr r) => some r

theorem nested_succ_inl {body : Nat → σ → Option (σ ⊕ ρ)} {s s' : σ} {fuel : Nat}
    (h : body fuel s = some (.inl s')) : runNested body (fuel + 1) s = runNested body fuel s' := by
  rw [runNested, h]

theorem nested_succ_inr {body : Nat → σ → Option (σ ⊕ ρ)} {s : σ} {r : ρ} {fuel : Nat}
    (h : body fuel s = some (.inr r)) : runNested body (fuel + 1) s = some r := by
  rw [runNested, h]

theorem nested_last {body : Nat → σ → Option (σ ⊕ ρ)} {s : σ} {r : ρ}
    (h : Yields (body · s) (.inr r)) : Yields (runNested body · s) r := by
  rcases h with ⟨n, hn⟩
  refine ⟨n + 1, fun m hm => ?_⟩
  cases m with
  | zero => omega
  | succ fuel => exact nested_succ_inr (hn fuel (by omega))

theorem nested_round {body : Nat → σ → Option (σ ⊕ ρ)} {s s' : σ} {r : ρ}
    (h : Yields (body · s) (.inl s')) (hs' : Yields (runNested body · s') r) :
    Yields (runNested body · s) r := by
  rcases h with ⟨n, hn⟩
  rcases hs' with ⟨k, hk⟩
  refine ⟨max n k + 1, fun m hm => ?_⟩
  cases m with
  | zero => omega
  | succ fuel =>
    change runNested body (fuel + 1) s = some r
    rw [nested_succ_inl (hn fuel (by omega))]
    exact hk fuel (by omega)

-- And back: the rest of the loop has the same result.
theorem nested_rest {body : Nat → σ → Option (σ ⊕ ρ)} {s s' : σ} {r : ρ}
    (h : Yields (body · s) (.inl s')) (hs : Yields (runNested body · s) r) :
    Yields (runNested body · s') r := by
  rcases h with ⟨n, hn⟩
  rcases hs with ⟨k, hk⟩
  refine ⟨max n k, fun m hm => ?_⟩
  have hloop : runNested body (m + 1) s = some r := hk (m + 1) (by omega)
  rw [nested_succ_inl (hn m (by omega))] at hloop
  exact hloop

-- Where the loop ends, its result satisfies `P`: every round keeps `I` or leaves with such a result.
theorem nested_keeps {body : Nat → σ → Option (σ ⊕ ρ)} {I : σ → Prop} {P : ρ → Prop}
    (hround : ∀ fuel s t, I s → body fuel s = some t → Sum.elim I P t) {fuel : Nat} {s : σ} {r : ρ}
    (hs : I s) (h : runNested body fuel s = some r) : P r := by
  induction fuel generalizing s with
  | zero => cases h
  | succ fuel ih =>
    cases hb : body fuel s with
    | none =>
      rw [runNested, hb] at h
      cases h
    | some t =>
      have hnext := hround fuel s t hs hb
      cases t with
      | inl s' =>
        rw [nested_succ_inl hb] at h
        exact ih hnext h
      | inr r' =>
        rw [nested_succ_inr hb] at h
        rw [← Option.some.inj h]
        exact hnext

-- A loop that goes round again from every state in `I`, or does not get round, never ends.
theorem nested_forever {body : Nat → σ → Option (σ ⊕ ρ)} {I : σ → Prop}
    (hround : ∀ fuel s t, I s → body fuel s = some t → ∃ s', t = .inl s' ∧ I s') {s : σ} (hs : I s)
    (fuel : Nat) : runNested body fuel s = none := by
  induction fuel generalizing s with
  | zero => rfl
  | succ fuel ih =>
    cases hb : body fuel s with
    | none => rw [runNested, hb]
    | some t =>
      rcases hround fuel s t hs hb with ⟨s', rfl, hs'⟩
      rw [nested_succ_inl hb]
      exact ih hs'

end Loops
