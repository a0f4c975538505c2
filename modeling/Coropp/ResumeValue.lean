import Coropp.Sched
import Coropp.Lib.Transition

/-!
# What `resume` returns

`yield` stores its argument in the object it is called on, and `resume` returns what is stored in
`_main`.  The main context may resume any coroutine at any time, and any coroutine may yield on any
object; the C function `yield` yields on the one resumed last.
-/

namespace Coropp

open Transition

/-- The object that `yield` is called on. -/
inductive Receiver where
  | main
  | coro (co : CoroId)
deriving DecidableEq, Repr

/-- A resume that has come back: the argument of the `yield` that suspended the coroutine, and what
    `resume` has returned. -/
structure Handed where
  co : CoroId
  arg : Arg
  returned : Arg
deriving DecidableEq, Repr

/-- `mainValue` is `_main->_value`, and `control` the coroutine in control, if it is not the main
    context.  `handed` is a history variable. -/
structure ValueWorld where
  sched : Sched := {}
  mainValue : Arg := 0
  control : Option CoroId := none
  handed : List Handed := []

inductive ValueAct where
  /-- `co->resume (arg)`. -/
  | resume (co : CoroId) (arg : Arg)
  /-- `r->yield (arg)`. -/
  | yield (r : Receiver) (arg : Arg)
  /-- The C function `yield (arg)`. -/
  | cYield (arg : Arg)
  /-- The function of the coroutine ends. -/
  | finish
deriving DecidableEq, Repr

namespace ValueWorld

/-- `_value = arg` in the object that `yield` is called on. -/
def store (w : ValueWorld) (r : Receiver) (arg : Arg) : ValueWorld :=
  match r with
  | .main => { w with mainValue := arg }
  | .coro co => { w with sched := w.sched.yield co arg }

/-- `return _main->_value` of the resume of `co`, which `yield (arg)` has suspended. -/
def comeBack (w : ValueWorld) (co : CoroId) (arg : Arg) : ValueWorld :=
  { w with control := none, handed := w.handed ++ [⟨co, arg, w.mainValue⟩] }

def step (w : ValueWorld) : ValueAct → Option ValueWorld
  | .resume co arg =>
    match w.control, w.sched.resume co arg with
    | none, .returned s => some { w with sched := s, control := some co }
    | none, .deadCoro _ s => some { w with sched := s }
    | some _, _ => none
  | .yield r arg => w.control.map fun co => (w.store r arg).comeBack co arg
  | .cYield arg =>
    match w.control, w.sched.current with
    | some co, some cur => some ((w.store (.coro cur) arg).comeBack co arg)
    | _, _ => none
  | .finish => w.control.map fun co => { w with sched := w.sched.finish co }.comeBack co 0

def Runs (acts : List ValueAct) (w : ValueWorld) : Prop := Run (ofFun step) ({} : ValueWorld) acts w

/-- Every resume so far has returned the argument of the yield that answered it. -/
def Hands (w : ValueWorld) : Prop := ∀ h ∈ w.handed, h.returned = h.arg

end ValueWorld

/-- The argument of the last call `_main->yield`, or 0, with which `_main->_value` begins. -/
def lastMainYield (acts : List ValueAct) : Arg :=
  acts.foldl (fun value a =>
    match a with
    | .yield .main arg => arg
    | _ => value) 0

/-- Where `_main->_value` is `value`, a yield passes that value or is made on `_main`. -/
def ValueAct.Passes (value : Arg) : ValueAct → Prop
  | .resume _ _ | .yield .main _ => True
  | .yield (.coro _) arg | .cYield arg => arg = value
  -- _wrap0 calls yield (0)
  | .finish => value = 0

namespace ValueWorld

variable {w w' : ValueWorld} {a : ValueAct}

theorem step_resume {co : CoroId} {arg : Arg} (hstep : w.step (.resume co arg) = some w') :
    w'.mainValue = w.mainValue ∧ w'.handed = w.handed := by
  simp only [step] at hstep
  split at hstep
  · obtain rfl := Option.some.inj hstep
    exact ⟨rfl, rfl⟩
  · obtain rfl := Option.some.inj hstep
    exact ⟨rfl, rfl⟩
  · cases hstep

theorem step_cYield {arg : Arg} (hstep : w.step (.cYield arg) = some w') :
    ∃ co cur, w' = (w.store (.coro cur) arg).comeBack co arg := by
  simp only [step] at hstep
  split at hstep
  next co cur _ _ => exact ⟨co, cur, (Option.some.inj hstep).symm⟩
  next => cases hstep

-- A step that is a resume returns nothing; any other one returns `_main->_value`.
theorem step_handed (hstep : w.step a = some w') :
    (∃ co arg, a = .resume co arg ∧ w'.handed = w.handed) ∨
      ∃ h, w'.handed = w.handed ++ [h] ∧ (h.returned = h.arg ↔ a.Passes w.mainValue) := by
  cases a with
  | resume co arg => exact .inl ⟨co, arg, rfl, (step_resume hstep).2⟩
  | yield r arg =>
    rcases Option.map_eq_some_iff.mp hstep with ⟨co, -, rfl⟩
    cases r with
    | main => exact .inr ⟨⟨co, arg, arg⟩, rfl, iff_of_true rfl trivial⟩
    | coro c => exact .inr ⟨⟨co, arg, w.mainValue⟩, rfl, eq_comm⟩
  | cYield arg =>
    rcases step_cYield hstep with ⟨co, cur, rfl⟩
    exact .inr ⟨⟨co, arg, w.mainValue⟩, rfl, eq_comm⟩
  | finish =>
    rcases Option.map_eq_some_iff.mp hstep with ⟨co, -, rfl⟩
    exact .inr ⟨⟨co, 0, w.mainValue⟩, rfl, Iff.rfl⟩

theorem step_mainValue (hstep : w.step a = some w') {acts : List ValueAct}
    (h : w.mainValue = lastMainYield acts) : w'.mainValue = lastMainYield (acts ++ [a]) := by
  unfold lastMainYield
  rw [List.foldl_append, List.foldl_cons, List.foldl_nil]
  cases a with
  | resume co arg => exact (step_resume hstep).1.trans h
  | yield r arg =>
    rcases Option.map_eq_some_iff.mp hstep with ⟨co, -, rfl⟩
    cases r with
    | main => rfl
    | coro c => exact h
  | cYield arg =>
    rcases step_cYield hstep with ⟨co, cur, rfl⟩
    exact h
  | finish =>
    rcases Option.map_eq_some_iff.mp hstep with ⟨co, -, rfl⟩
    exact h

theorem runs_mainValue {acts : List ValueAct} (run : Runs acts w) :
    w.mainValue = lastMainYield acts := by
  induction run with
  | nil => rfl
  | snoc _ hstep ih => exact step_mainValue hstep ih

theorem Hands.step (h : Hands w) (hstep : w.step a = some w') (ha : a.Passes w.mainValue) :
    Hands w' := by
  rcases step_handed hstep with ⟨co, arg, -, heq⟩ | ⟨r, heq, hiff⟩
  · unfold Hands
    rw [heq]
    exact h
  · unfold Hands
    rw [heq]
    intro r' hr'
    rcases List.mem_append.mp hr' with hr' | hr'
    · exact h r' hr'
    · obtain rfl := List.mem_singleton.mp hr'
      exact hiff.mpr ha

theorem not_hands (hstep : w.step a = some w') (ha : ¬a.Passes w.mainValue) : ¬Hands w' := by
  rcases step_handed hstep with ⟨co, arg, rfl, -⟩ | ⟨r, heq, hiff⟩
  · exact absurd trivial ha
  · intro h
    have hmem : r ∈ w'.handed := by
      rw [heq]
      exact List.mem_append_right _ (.head _)
    exact ha (hiff.mp (h r hmem))

/-- In a run, every resume returns the argument of the yield that suspended its coroutine if and
    only if every yield is made on `_main` or passes the argument of the last yield on `_main`: the
    null pointer where there is none. -/
theorem hands_iff (acts : List ValueAct) :
    (∀ pre w, pre <+: acts → Runs pre w → Hands w) ↔
      ∀ pre a w w', pre ++ [a] <+: acts → Runs pre w → w.step a = some w' →
        a.Passes (lastMainYield pre) := by
  have hiff : (∀ pre w, pre <+: acts → Runs pre w → Hands w) ↔
      ∀ pre a w w', pre ++ [a] <+: acts → Runs pre w → w.step a = some w' →
        a.Passes w.mainValue := by
    apply Run.always_iff (I := Hands) (fun _ h => h) ?_ ?_ ?_ acts
    · exact fun _ _ _ h hstep ha => h.step hstep ha
    · exact fun _ _ _ _ hstep ha => not_hands hstep ha
    · exact fun _ hr => absurd hr List.not_mem_nil
  rw [hiff]
  constructor
  · intro h pre a w w' hpre run hstep
    rw [← runs_mainValue run]
    exact h pre a w w' hpre run hstep
  · intro h pre a w w' hpre run hstep
    rw [runs_mainValue run]
    exact h pre a w w' hpre run hstep

/-- Coroutine 1 answers its resume with 5; the main context gets 0. -/
theorem hands_broken :
    ∃ w, Runs [.resume 1 7, .yield (.coro 1) 5] w ∧ w.handed = [⟨1, 5, 0⟩] ∧ ¬Hands w := by
  refine ⟨_, run_of_exec rfl, rfl, fun h => ?_⟩
  exact absurd (h ⟨1, 5, 0⟩ (.head _)) (by decide)

end ValueWorld

end Coropp
