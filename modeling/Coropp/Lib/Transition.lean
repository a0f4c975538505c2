import Mathlib.Data.List.Forall2
import Mathlib.Data.List.Induction

/-!
# Labelled steps and their runs

Runs of a labelled step relation, the rules for what every run preserves, and the lifting of a
step-by-step simulation to whole runs.  Nothing here depends on what the steps do.
-/

namespace Transition

variable {σ τ ℓ κ : Type*}

/-- `Run step s ls t`: the steps labelled `ls`, in that order, lead from `s` to `t`.  Runs grow at
    the end, so that an invariant may speak about the whole history `ls`. -/
inductive Run (step : σ → ℓ → σ → Prop) (s : σ) : List ℓ → σ → Prop
  | nil : Run step s [] s
  | snoc {ls : List ℓ} {t u : σ} {l : ℓ} (run : Run step s ls t) (h : step t l u) :
      Run step s (ls ++ [l]) u

/-- The step relation of a partial step function. -/
def ofFun (f : σ → ℓ → Option σ) (s : σ) (l : ℓ) (t : σ) : Prop := f s l = some t

/-- Take the steps labelled `ls`, where all of them are possible. -/
def exec (f : σ → ℓ → Option σ) : σ → List ℓ → Option σ
  | s, [] => some s
  | s, l :: ls => (f s l).bind fun t => exec f t ls

-- A state property that every step keeps holds after every run.
theorem Run.invariant {step : σ → ℓ → σ → Prop} {I : σ → Prop}
    (hstep : ∀ t l u, I t → step t l u → I u) {s t : σ} {ls : List ℓ}
    (run : Run step s ls t) (hs : I s) : I t := by
  induction run with
  | nil => exact hs
  | snoc _ h ih => exact hstep _ _ _ ih h

-- The same for runs whose labels all satisfy `Q`.
theorem Run.invariant_of_labels {step : σ → ℓ → σ → Prop} {I : σ → Prop} {Q : ℓ → Prop}
    (hstep : ∀ t l u, I t → Q l → step t l u → I u) {s t : σ} {ls : List ℓ}
    (run : Run step s ls t) (hls : ∀ l ∈ ls, Q l) (hs : I s) : I t := by
  induction run with
  | nil => exact hs
  | snoc _ h ih =>
    have hprev := ih fun l hl => hls l (List.mem_append_left _ hl)
    exact hstep _ _ _ hprev (hls _ (List.mem_append_right _ (.head _))) h

theorem Run.trans {step : σ → ℓ → σ → Prop} {s t u : σ} {ls ms : List ℓ}
    (first : Run step s ls t) (second : Run step t ms u) : Run step s (ls ++ ms) u := by
  induction second with
  | nil => simpa using first
  | snoc _ h ih =>
    rw [← List.append_assoc]
    exact ih.snoc h

theorem Run.single {step : σ → ℓ → σ → Prop} {s t : σ} {l : ℓ} (h : step s l t) :
    Run step s [l] t :=
  Run.nil.snoc h

theorem run_of_exec {f : σ → ℓ → Option σ} {s t : σ} {ls : List ℓ} (h : exec f s ls = some t) :
    Run (ofFun f) s ls t := by
  induction ls generalizing s with
  | nil =>
    obtain rfl := Option.some.inj h
    exact .nil
  | cons l ls ih =>
    rcases Option.bind_eq_some_iff.mp h with ⟨u, hu, hrest⟩
    have hfirst : Run (ofFun f) s [l] u := Run.single hu
    exact hfirst.trans (ih hrest)

-- Every prefix of a run is a run.
theorem Run.split {step : σ → ℓ → σ → Prop} {s u : σ} {ls ms : List ℓ}
    (run : Run step s (ls ++ ms) u) : ∃ t, Run step s ls t ∧ Run step t ms u := by
  induction ms using List.reverseRecOn generalizing u with
  | nil => exact ⟨u, by simpa using run, .nil⟩
  | append_singleton ms m ih =>
    rw [← List.append_assoc] at run
    generalize hw : ls ++ ms ++ [m] = w at run
    cases run with
    | nil => simp at hw
    | snoc run' h =>
      rcases List.append_inj' hw rfl with ⟨hpre, hlast⟩
      obtain rfl : m = _ := by simpa using hlast
      subst hpre
      rcases ih run' with ⟨t, hl, hm⟩
      exact ⟨t, hl, hm.snoc h⟩

-- An invariant that the steps in `G` keep holds as long as every step is one of them.
theorem Run.invariant_of_steps {step : σ → ℓ → σ → Prop} {I : σ → Prop} {G : σ → ℓ → Prop}
    (hgood : ∀ t l u, I t → step t l u → G t l → I u) {s : σ} (hs : I s) {ls : List ℓ}
    (hsteps : ∀ pre l t u, pre ++ [l] <+: ls → Run step s pre t → I t → step t l u → G t l)
    {pre : List ℓ} {t : σ} (hpre : pre <+: ls) (run : Run step s pre t) : I t := by
  induction run with
  | nil => exact hs
  | @snoc pre t u l run h ih =>
    have ht := ih ((List.prefix_append _ _).trans hpre)
    exact hgood t l u ht h (hsteps pre l t u hpre run ht h)

-- What holds in all states of a run, and what of all its steps: where steps in `Good` keep the
-- invariant `I`, and other steps break `P` at once, `P` holds throughout if and only if every step
-- is in `Good`.
theorem Run.always_iff {step : σ → ℓ → σ → Prop} {I P : σ → Prop} {Good : σ → ℓ → Prop}
    (hP : ∀ t, I t → P t) (hgood : ∀ t l u, I t → step t l u → Good t l → I u)
    (hbad : ∀ t l u, I t → step t l u → ¬Good t l → ¬P u) {s : σ} (hs : I s) (ls : List ℓ) :
    (∀ pre t, pre <+: ls → Run step s pre t → P t) ↔
      ∀ pre l t u, pre ++ [l] <+: ls → Run step s pre t → step t l u → Good t l := by
  constructor
  · intro hall
    have hsteps : ∀ pre l t u, pre ++ [l] <+: ls → Run step s pre t → I t → step t l u →
        Good t l := by
      intro pre l t u hpre run ht h
      by_contra hnot
      exact hbad t l u ht h hnot (hall _ u hpre (run.snoc h))
    intro pre l t u hpre run h
    have hfirst : pre <+: ls := (List.prefix_append _ _).trans hpre
    exact hsteps pre l t u hpre run (Run.invariant_of_steps hgood hs hsteps hfirst run) h
  · intro hsteps pre t hpre run
    apply hP t
    exact Run.invariant_of_steps hgood hs (fun pre l t u hpre run _ => hsteps pre l t u hpre run) hpre run

theorem Run.mono {step step' : σ → ℓ → σ → Prop} (hstep : ∀ s l t, step s l t → step' s l t)
    {s t : σ} {ls : List ℓ} (run : Run step s ls t) : Run step' s ls t := by
  induction run with
  | nil => exact .nil
  | snoc _ h ih => exact ih.snoc (hstep _ _ _ h)

-- Where every step adds to a measure, its bound is one for the length of runs.
theorem Run.length_le {step : σ → ℓ → σ → Prop} {I : σ → Prop} {f : σ → Nat} {b : Nat}
    (hstep : ∀ t l u, I t → step t l u → I u ∧ f t < f u) (hbound : ∀ t, I t → f t ≤ b) {s t : σ}
    {ls : List ℓ} (run : Run step s ls t) (hs : I s) : ls.length ≤ b := by
  have hgrown : I t ∧ f s + ls.length ≤ f t := by
    induction run with
    | nil => exact ⟨hs, Nat.le_refl _⟩
    | snoc _ h ih =>
      rcases hstep _ _ _ ih.1 h with ⟨hnext, hlt⟩
      have hle := ih.2
      refine ⟨hnext, ?_⟩
      rw [List.length_append, List.length_singleton]
      omega
  have hle := hbound t hgrown.1
  omega

-- Where something comes from that the start does not have: the last step that brought it, and the
-- run after that step, all of it in states that satisfy `Q`.
theorem Run.origin {step : σ → ℓ → σ → Prop} {I M Q : σ → Prop} {C : σ → ℓ → Prop}
    (hstep : ∀ t l u, I t → step t l u → I u)
    (hfrom : ∀ t l u, I t → step t l u → M u → M t ∧ Q t ∨ C t l) {s t : σ} {ls : List ℓ}
    (run : Run step s ls t) (hs : I s) (hnot : ¬M s) (hM : M t) :
    ∃ pre l post t₁ t₂, ls = pre ++ l :: post ∧ Run step s pre t₁ ∧ step t₁ l t₂ ∧ C t₁ l ∧
      Run (fun t l u => Q t ∧ step t l u) t₂ post t := by
  induction run with
  | nil => exact absurd hM hnot
  | @snoc ls t u l run h ih =>
    rcases hfrom t l u (run.invariant hstep hs) h hM with ⟨hMt, hQ⟩ | hC
    · rcases ih hMt with ⟨pre, l₁, post, t₁, t₂, rfl, hpre, hstep₁, hC, hpost⟩
      refine ⟨pre, l₁, post ++ [l], t₁, t₂, ?_, hpre, hstep₁, hC, hpost.snoc ⟨hQ, h⟩⟩
      rw [List.append_assoc, List.cons_append]
    · exact ⟨ls, l, [], t, u, rfl, run, h, hC, .nil⟩

-- Forward simulation with equal labels: related starts give related ends.
theorem Run.simulate {step : σ → ℓ → σ → Prop} {step' : τ → ℓ → τ → Prop} {R : σ → τ → Prop}
    (hstep : ∀ s t l s', R s t → step s l s' → ∃ t', step' t l t' ∧ R s' t')
    {s s' : σ} {t : τ} {ls : List ℓ} (run : Run step s ls s') (h : R s t) :
    ∃ t', Run step' t ls t' ∧ R s' t' := by
  induction run with
  | nil => exact ⟨t, .nil, h⟩
  | snoc _ hlast ih =>
    rcases ih with ⟨t₁, hrun, hrel⟩
    rcases hstep _ _ _ _ hrel hlast with ⟨t₂, hnext, hrel'⟩
    exact ⟨t₂, hrun.snoc hnext, hrel'⟩

-- The same where the labels are related too, and the relation may speak about the run so far.  What
-- is asked of a run, `Q`, holds of its beginnings when it holds of the whole.
theorem Run.simulate_labels {step : σ → ℓ → σ → Prop} {step' : τ → κ → τ → Prop} {L : ℓ → κ → Prop}
    {R : List ℓ → σ → τ → Prop} {Q : List ℓ → σ → Prop}
    {s₀ : σ} {t₀ : τ}
    (hback : ∀ ls s l s', Run step s₀ ls s → step s l s' → Q (ls ++ [l]) s' → Q ls s)
    (hstep : ∀ ls s t l s', R ls s t → step s l s' → Q (ls ++ [l]) s' →
      ∃ m t', L l m ∧ step' t m t' ∧ R (ls ++ [l]) s' t')
    {s : σ} {ls : List ℓ} (run : Run step s₀ ls s) (hq : Q ls s) (h : R [] s₀ t₀) :
    ∃ ms t, List.Forall₂ L ls ms ∧ Run step' t₀ ms t ∧ R ls s t := by
  induction run with
  | nil => exact ⟨[], t₀, .nil, .nil, h⟩
  | snoc run hlast ih =>
    rcases ih (hback _ _ _ _ run hlast hq) with ⟨ms, t₁, hlabels, hrun, hrel⟩
    rcases hstep _ _ _ _ _ hrel hlast hq with ⟨m, t₂, hl, hnext, hrel'⟩
    have hlabels' := List.rel_append hlabels (.cons hl .nil)
    exact ⟨ms ++ [m], t₂, hlabels', hrun.snoc hnext, hrel'⟩

end Transition
