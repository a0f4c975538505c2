import Coropp.Sched
import Coropp.Lib.Transition

/-!
# `condition_variable`, `latch` and `fifo`

The operations up to the `yield` of a wait.  The loop of `wake_all` returns from its body, so it
releases one waiter at most.
-/

namespace Coropp

structure CondVar where
  waiting : List CoroId := []
deriving DecidableEq, Repr

structure Latch where
  cv : CondVar := {}
  done : Bool := false
deriving DecidableEq, Repr

structure Fifo (T : Type) where
  cv : CondVar := {}
  q : List T := []

namespace CondVar

/-- `wait` up to its `yield`; in the main context it throws and changes nothing. -/
def wait (cv : CondVar) (s : Sched) : Option (CondVar × Sched) :=
  match s.current with
  | some me => some (⟨cv.waiting ++ [me]⟩, s.yield me 0)
  | none => none

def wakeAll (cv : CondVar) (s : Sched) (arg : Arg) : Outcome (Bool × CondVar × Sched) :=
  match cv.waiting with
  -- `return true` in the body of the loop
  | co :: rest => (s.schedule co arg).map fun s => (true, ⟨rest⟩, s)
  | [] => .returned (false, cv, s)

def wakeOne (cv : CondVar) (s : Sched) (arg : Arg) : Outcome (Bool × CondVar × Sched) :=
  match cv.waiting with
  | co :: rest => (s.schedule co arg).map fun s => (true, ⟨rest⟩, s)
  | [] => .returned (false, cv, s)

theorem wakeAll_eq_wakeOne (cv : CondVar) (s : Sched) (arg : Arg) :
    cv.wakeAll s arg = cv.wakeOne s arg := rfl

theorem wait_current {cv : CondVar} {s : Sched} {me : CoroId} (h : s.current = some me) :
    cv.wait s = some (⟨cv.waiting ++ [me]⟩, s.yield me 0) := by
  rw [wait, h]

-- Waking live waiters moves the first one, if there is one, to the end of `_pending`.
theorem wakeOne_alive {cv : CondVar} {s : Sched}
    (h : ∀ co ∈ cv.waiting, (s.coros co).dead = false) (arg : Arg) :
    ∃ ret, cv.wakeOne s arg =
      .returned (ret, ⟨cv.waiting.tail⟩, s.push ((cv.waiting.take 1).map fun co => (co, arg))) := by
  unfold wakeOne
  cases hw : cv.waiting with
  | nil =>
    have hcv : cv = {} := congrArg CondVar.mk hw
    exact ⟨false, by simp [hcv]⟩
  | cons co rest =>
    rw [hw] at h
    dsimp only
    rw [Sched.schedule_alive (h co (.head _)), Outcome.map_returned]
    exact ⟨true, rfl⟩

/-- Everyone is scheduled with `arg`, in the order of the queue, and nobody is left. -/
def ReleasesAll (cv : CondVar) (s : Sched) (arg : Arg) : Prop :=
  ∃ ret, cv.wakeAll s arg = .returned (ret, {}, s.push (cv.waiting.map fun co => (co, arg)))

/-- One coroutine at most is queued, and it is not dead. -/
def AtMostOne (cv : CondVar) (s : Sched) : Prop :=
  cv.waiting.length ≤ 1 ∧ ∀ co ∈ cv.waiting, (s.coros co).dead = false

theorem wakeAll_nil {cv : CondVar} (h : cv.waiting = []) (s : Sched) (arg : Arg) :
    cv.wakeAll s arg = .returned (false, cv, s) := by
  rw [wakeAll, h]

theorem wakeAll_cons {cv : CondVar} {co : CoroId} {rest : List CoroId}
    (h : cv.waiting = co :: rest) (s : Sched) (arg : Arg) :
    cv.wakeAll s arg = (s.schedule co arg).map fun s => (true, ⟨rest⟩, s) := by
  rw [wakeAll, h]

theorem releasesAll_iff (cv : CondVar) (s : Sched) (arg : Arg) :
    cv.ReleasesAll s arg ↔ cv.AtMostOne s := by
  unfold ReleasesAll AtMostOne
  cases h : cv.waiting with
  | nil =>
    rw [wakeAll_nil h]
    have hcv : cv = {} := congrArg CondVar.mk h
    simp [hcv]
  | cons co rest =>
    rw [wakeAll_cons h]
    cases hd : (s.coros co).dead with
    | true =>
      rw [Sched.schedule_dead hd]
      simp [Sched.raise, Outcome.map, hd]
    | false =>
      rw [Sched.schedule_alive hd, Outcome.map_returned]
      cases rest with
      | nil => simp [hd]
      | cons c rest => simp

-- A call takes the first one off the queue, also when that one is dead.
theorem wakeAll_waiting (cv : CondVar) (s : Sched) (arg : Arg) :
    (cv.wakeAll s arg).state.2.1.waiting = cv.waiting.tail := by
  cases h : cv.waiting with
  | nil =>
    rw [wakeAll_nil h]
    exact h
  | cons co rest =>
    rw [wakeAll_cons h, Outcome.state_map]
    rfl

end CondVar

namespace Latch

/-- `wait` up to its `yield`, which a latch that is done does not reach. -/
def wait (l : Latch) (s : Sched) : Option (Latch × Sched) :=
  if l.done then some (l, s) else (l.cv.wait s).map fun r => ({ l with cv := r.1 }, r.2)

def wakeAll (l : Latch) (s : Sched) : Outcome (Latch × Sched) :=
  (l.cv.wakeAll s 0).map fun r => (⟨r.2.1, true⟩, r.2.2)

end Latch

namespace Fifo

variable {T : Type}

def push (f : Fifo T) (s : Sched) (x : T) : Outcome (Fifo T × Sched) :=
  (f.cv.wakeOne s 0).map fun r => (⟨r.2.1, f.q ++ [x]⟩, r.2.2)

/-- The loop of `pop` tests the queue: with an item in it `pop` returns, else it waits. -/
def test (f : Fifo T) : Option (T × Fifo T) :=
  match f.q with
  | x :: rest => some (x, { f with q := rest })
  | [] => none

theorem test_some {f f' : Fifo T} {x : T} (h : f.test = some (x, f')) :
    f.q = x :: f'.q ∧ f'.cv = f.cv := by
  unfold test at h
  split at h
  next y rest hq =>
    rcases Prod.mk.inj (Option.some.inj h) with ⟨rfl, rfl⟩
    exact ⟨hq, rfl⟩
  next => cases h

theorem test_none {f : Fifo T} (h : f.test = none) : f.q = [] := by
  unfold test at h
  split at h
  next => cases h
  next hq => exact hq

end Fifo

/-! ## Any use of a condition variable and a latch -/

structure SyncWorld where
  sched : Sched
  cv : CondVar := {}
  latch : Latch := {}

inductive SyncOp where
  | wait
  | wakeOne (arg : Arg)
  | wakeAll (arg : Arg)
  | latchWait
  | latchWakeAll
  -- the rest of the program
  | others (s : Sched)

namespace SyncWorld

-- A call that throws leaves what it has changed.
def step (w : SyncWorld) : SyncOp → Option SyncWorld
  | .wait =>
    match w.cv.wait w.sched with
    | some (cv, s) => some { w with cv := cv, sched := s }
    | none => some w
  | .wakeOne arg =>
    let st := (w.cv.wakeOne w.sched arg).state
    some { w with cv := st.2.1, sched := st.2.2 }
  | .wakeAll arg =>
    let st := (w.cv.wakeAll w.sched arg).state
    some { w with cv := st.2.1, sched := st.2.2 }
  | .latchWait =>
    match w.latch.wait w.sched with
    | some (l, s) => some { w with latch := l, sched := s }
    | none => some w
  | .latchWakeAll =>
    let st := (w.latch.wakeAll w.sched).state
    some { w with latch := st.1, sched := st.2 }
  | .others s => some { w with sched := s }

def Runs (s : Sched) : List SyncOp → SyncWorld → Prop :=
  Transition.Run (Transition.ofFun step) { sched := s }

-- A step that is no `latch::wake_all` keeps an open latch open and its queue empty.
theorem step_latch {w w' : SyncWorld} {op : SyncOp} (hop : op ≠ .latchWakeAll)
    (h : w.latch.done = true → w.latch.cv.waiting = []) (hstep : w.step op = some w') :
    w'.latch.done = true → w'.latch.cv.waiting = [] := by
  cases op with
  | wait =>
    unfold step at hstep
    dsimp only at hstep
    split at hstep <;> (obtain rfl := Option.some.inj hstep; exact h)
  | wakeOne arg =>
    obtain rfl := Option.some.inj hstep
    exact h
  | wakeAll arg =>
    obtain rfl := Option.some.inj hstep
    exact h
  | latchWait =>
    unfold step Latch.wait at hstep
    cases hd : w.latch.done with
    | true =>
      rw [hd] at hstep
      obtain rfl := Option.some.inj hstep
      exact h
    | false =>
      rw [hd] at hstep
      intro hdone
      -- a latch that waits is not done
      have hnot : w'.latch.done = false := by
        cases hwait : w.latch.cv.wait w.sched with
        | none =>
          rw [hwait] at hstep
          obtain rfl := Option.some.inj hstep
          exact hd
        | some r =>
          rw [hwait] at hstep
          obtain rfl := Option.some.inj hstep
          rfl
      rw [hnot] at hdone
      cases hdone
  | latchWakeAll => exact absurd rfl hop
  | others s =>
    obtain rfl := Option.some.inj hstep
    exact h

-- A latch whose `wake_all` calls find one waiter at most is empty once it is done.
theorem runs_latch {s : Sched} {ops pre : List SyncOp} {v : SyncWorld}
    (hfew : ∀ pre v, pre ++ [.latchWakeAll] <+: ops → Runs s pre v →
      v.latch.cv.waiting.length ≤ 1)
    (run : Runs s pre v) (hpre : pre <+: ops) :
    v.latch.done = true → v.latch.cv.waiting = [] := by
  induction run with
  | nil => exact fun hdone => by cases hdone
  | @snoc pre t u op run hstep ih =>
    have ht := ih ((List.prefix_append _ _).trans hpre)
    by_cases hop : op = .latchWakeAll
    · subst hop
      obtain rfl := Option.some.inj hstep
      intro _
      have hlen := hfew _ _ hpre run
      have htail : ((t.latch.wakeAll t.sched).state).1.cv.waiting = t.latch.cv.waiting.tail := by
        rw [Latch.wakeAll, Outcome.state_map]
        exact CondVar.wakeAll_waiting _ _ _
      change ((t.latch.wakeAll t.sched).state).1.cv.waiting = []
      rw [htail]
      apply List.eq_nil_of_length_eq_zero
      rw [List.length_tail]
      omega
    · exact step_latch hop ht hstep

/-- In a run, every `wake_all` releases everyone and the latch stays open if and only if every
    `wake_all` finds one waiter at most, and that one alive. -/
theorem wakeAll_releases_iff (s : Sched) (ops : List SyncOp) :
    (∀ pre v, pre <+: ops → Runs s pre v →
        (∀ arg, pre ++ [.wakeAll arg] <+: ops → v.cv.ReleasesAll v.sched arg) ∧
        (pre ++ [.latchWakeAll] <+: ops → v.latch.cv.ReleasesAll v.sched 0) ∧
        (v.latch.done = true → v.latch.cv.waiting = [])) ↔
      ∀ pre v, pre <+: ops → Runs s pre v →
        (∀ arg, pre ++ [.wakeAll arg] <+: ops → v.cv.AtMostOne v.sched) ∧
        (pre ++ [.latchWakeAll] <+: ops → v.latch.cv.AtMostOne v.sched) := by
  simp only [CondVar.releasesAll_iff]
  constructor
  · intro hall pre v hpre run
    exact ⟨(hall pre v hpre run).1, (hall pre v hpre run).2.1⟩
  · intro hall pre v hpre run
    refine ⟨(hall pre v hpre run).1, (hall pre v hpre run).2, runs_latch ?_ run hpre⟩
    intro pre' v' hpre' run'
    exact ((hall pre' v' ((List.prefix_append _ _).trans hpre') run').2 hpre').1

/-- Coroutines 1 and 2 wait, one after the other. -/
def twoWaiters (op : SyncOp) : List SyncOp :=
  [.others (({} : Sched).switchTo 1 0), op, .others (({} : Sched).switchTo 2 0), op]

/-- `wake_all` releases only the first of two waiters, and the second one of a latch stays queued
    although the latch is done. -/
theorem wakeAll_leaves_second_waiter :
    (∃ v, Runs {} (twoWaiters .wait) v ∧ v.cv.waiting = [1, 2] ∧
      ¬v.cv.ReleasesAll v.sched 5) ∧
    ∃ v, Runs {} (twoWaiters .latchWait ++ [.latchWakeAll]) v ∧
      v.latch.done = true ∧ v.latch.cv.waiting = [2] := by
  constructor
  · refine ⟨_, Transition.run_of_exec rfl, rfl, ?_⟩
    rw [CondVar.releasesAll_iff]
    exact fun h => absurd h.1 (by decide)
  · exact ⟨_, Transition.run_of_exec rfl, rfl, rfl⟩

end SyncWorld

end Coropp
