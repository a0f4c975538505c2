import Coropp.EventLoop
import Coropp.Lib.Maps
import Coropp.Sync

/-!
# A fifo delivers in order, exactly once

Fifos in any program: coroutines and the main program may schedule whomever they like, set timers,
yield, end and call `exit` between their pushes and pops, and a `push` whose `wake_one` throws has
still queued its item.  `pop` is cut at the test of its loop and before the read of the front, so
that what may happen between the two has to be shown.
-/

namespace Coropp

/-- A fifo with its history: the items pushed, and what each `pop` found at the front, which is
    `none` for a read from an empty queue. -/
structure LoggedFifo (T : Type) extends Fifo T where
  pushed : List T := []
  popped : List (Option T) := []

/-- Who has control. -/
inductive Party where
  | main
  | coro (co : CoroId)
deriving DecidableEq, Repr

/-- Where a party is in `fifo::pop`. -/
inductive PopStage where
  /-- Not in `pop`. -/
  | idle
  /-- `while (_q.size() == 0)`. -/
  | testing (k : Nat)
  /-- In the `yield` of `_cv.wait()`. -/
  | waiting (k : Nat)
  /-- Behind the loop, before `_q.front()`. -/
  | taking (k : Nat)
deriving DecidableEq, Repr

structure FifoWorld (T : Type) extends Machine where
  fifos : List (LoggedFifo T) := []
  stage : Party → PopStage := fun _ => .idle

inductive FifoAct (T : Type) where
  | newFifo
  | push (k : Nat) (x : T)
  /-- `pop` is called. -/
  | pop (k : Nat)
  /-- `pop` goes on by one step. -/
  | popStep
  /-- Anything else: the scheduler, the poller, and the calls that are not about fifos. -/
  | others (a : Act)

/-- The main program or the coroutine that has control, when the scheduler and the poller have not. -/
def Machine.holder (m : Machine) : Option Party :=
  match m.pc with
  | .outside => some .main
  | .inside _ => m.running.map .coro
  | _ => none

namespace LoggedFifo

variable {T : Type}

-- What has been popped, then what is queued, is what has been pushed.
def Ordered (f : LoggedFifo T) : Prop := f.popped ++ f.q.map some = f.pushed.map some

/-- `_q.front()` and `_q.pop()`. -/
def take (f : LoggedFifo T) : LoggedFifo T :=
  { f with q := f.q.tail, popped := f.popped ++ [f.q.head?] }

theorem Ordered.take {f : LoggedFifo T} (h : f.Ordered) (hq : f.q ≠ []) : f.take.Ordered := by
  unfold Ordered LoggedFifo.take at *
  cases hcons : f.q with
  | nil => exact absurd hcons hq
  | cons x rest =>
    rw [hcons] at h
    simpa using h

end LoggedFifo

namespace FifoWorld

variable {T : Type}

def setStage (w : FifoWorld T) (p : Party) (st : PopStage) : FifoWorld T :=
  { w with stage := Function.update w.stage p st }

/-- Someone has control and is not inside `pop`. -/
def free (w : FifoWorld T) : Bool :=
  match w.holder with
  | some p => w.stage p = .idle
  | none => false

/-- The party with control is not inside `pop`, or the scheduler or the poller has control. -/
def mayGoOn (w : FifoWorld T) : Bool :=
  match w.holder with
  | some p => w.stage p = .idle
  | none => true

/-- A coroutine that is resumed in the `yield` of a `pop` comes back to the test of its loop. -/
def back (w : FifoWorld T) : FifoWorld T :=
  match w.holder with
  | some p =>
    match w.stage p with
    | .waiting k => w.setStage p (.testing k)
    | _ => w
  | none => w

/-- `_cv.wait()` of a `pop`.  In the main program it throws as long as no coroutine has run; what
    it does there later on is left out. -/
def popWait (w : FifoWorld T) (p : Party) (k : Nat) (f : LoggedFifo T) : Option (FifoWorld T) :=
  match p, w.pc, f.cv.wait w.sched with
  | .coro _, .inside i, some (cv, s) =>
    some
      { w with
        sched := s
        pc := .staging (i + 1)
        fifos := w.fifos.set k { f with cv := cv }
        stage := Function.update w.stage p (.waiting k) }
  | .main, .outside, none => some (w.setStage p .idle)
  | _, _, _ => none

/-- One step of the `pop` that the party `p` is in. -/
def popStep (w : FifoWorld T) (p : Party) : Option (FifoWorld T) :=
  match w.stage p with
  | .testing k =>
    (w.fifos[k]?).bind fun f =>
      if f.q.length = 0 then w.popWait p k f else some (w.setStage p (.taking k))
  | .taking k =>
    (w.fifos[k]?).map fun f => { w.setStage p .idle with fifos := w.fifos.set k f.take }
  | _ => none

def step (w : FifoWorld T) : FifoAct T → Option (FifoWorld T)
  | .newFifo => if w.free then some { w with fifos := w.fifos ++ [{}] } else none
  | .push k x =>
    if w.free then
      (w.fifos[k]?).map fun f =>
        let st := (f.push w.sched x).state
        { w with
          sched := st.2
          fifos := w.fifos.set k { f with toFifo := st.1, pushed := f.pushed ++ [x] } }
    else none
  | .pop k =>
    if w.free then
      if k < w.fifos.length then w.holder.map fun p => w.setStage p (.testing k) else none
    else none
  | .popStep => w.holder.bind w.popStep
  | .others a =>
    if w.mayGoOn then (w.toMachine.step a).map fun m => { w with toMachine := m }.back else none

def Runs (acts : List (FifoAct T)) (w : FifoWorld T) : Prop :=
  Transition.Run (Transition.ofFun step) ({} : FifoWorld T) acts w

/-! ## The invariant -/

/-- Every fifo is in order, and a party that has left the loop of `pop` still has control and finds
    the queue as the test found it. -/
structure Delivers (w : FifoWorld T) : Prop where
  ordered : ∀ f ∈ w.fifos, f.Ordered
  taking : ∀ p k, w.stage p = .taking k →
    w.holder = some p ∧ ∃ f, w.fifos[k]? = some f ∧ f.q ≠ []

section Steps

variable {w w' : FifoWorld T}

theorem free_holder (h : w.free = true) : ∃ p, w.holder = some p ∧ w.stage p = .idle := by
  unfold free at h
  split at h
  next p hp => exact ⟨p, hp, by simpa using h⟩
  next => cases h

-- As long as the party with control is not inside pop, nobody is behind the loop.
theorem Delivers.nobody (h : Delivers w) (hidle : w.mayGoOn = true) (p : Party) (k : Nat) :
    w.stage p ≠ .taking k := by
  intro hst
  have hp := (h.taking p k hst).1
  unfold mayGoOn at hidle
  rw [hp] at hidle
  dsimp only at hidle
  rw [hst] at hidle
  cases hidle

theorem free_mayGoOn (h : w.free = true) : w.mayGoOn = true := by
  rcases free_holder h with ⟨p, hp, hst⟩
  unfold mayGoOn
  rw [hp]
  simpa using hst

theorem Delivers.newFifo (h : Delivers w) (hfree : w.free = true) :
    Delivers { w with fifos := w.fifos ++ [{}] } where
  ordered := by
    intro f hf
    rcases List.mem_append.mp hf with hold | hnew
    · exact h.ordered f hold
    · rw [List.mem_singleton.mp hnew]
      rfl
  taking := fun p k hst => absurd hst (h.nobody (free_mayGoOn hfree) p k)

-- The item is queued also when wake_one throws.
theorem push_q (f : Fifo T) (s : Sched) (x : T) : (f.push s x).state.1.q = f.q ++ [x] := by
  rw [Fifo.push, Outcome.state_map]

theorem Delivers.push (h : Delivers w) (hfree : w.free = true) {k : Nat} {x : T}
    {f : LoggedFifo T} (hk : w.fifos[k]? = some f) :
    Delivers
      { w with
        sched := (f.push w.sched x).state.2
        fifos := w.fifos.set k
          { f with toFifo := (f.push w.sched x).state.1, pushed := f.pushed ++ [x] } } where
  ordered := by
    apply Maps.forall_mem_set h.ordered
    have hf : f.Ordered := h.ordered f (List.mem_of_getElem? hk)
    unfold LoggedFifo.Ordered at hf ⊢
    rw [push_q, List.map_append, List.map_append, ← List.append_assoc, hf]
  taking := fun p k hst => absurd hst (h.nobody (free_mayGoOn hfree) p k)

-- A party that is in no `pop` enters one, or one that is goes back to its test.
theorem Delivers.setStage (h : Delivers w) {p : Party} {st : PopStage}
    (hst : ∀ k, st ≠ .taking k) : Delivers (w.setStage p st) where
  ordered := h.ordered
  taking := by
    intro q k hq
    rcases Maps.update_eq hq with ⟨-, htaking⟩ | ⟨-, hold⟩
    · exact absurd htaking (hst k)
    · exact h.taking q k hold

-- The test has found an item.
theorem Delivers.leaveLoop (h : Delivers w) {p : Party} {k : Nat} {f : LoggedFifo T}
    (hp : w.holder = some p) (hk : w.fifos[k]? = some f) (hq : f.q.length ≠ 0) :
    Delivers (w.setStage p (.taking k)) where
  ordered := h.ordered
  taking := by
    intro q j hst
    rcases Maps.update_eq hst with ⟨rfl, htaking⟩ | ⟨-, hold⟩
    · obtain rfl := PopStage.taking.inj htaking
      refine ⟨hp, f, hk, ?_⟩
      intro hnil
      exact hq (by rw [hnil]; rfl)
    · exact h.taking q j hold

-- Only the party that reads the front was behind the loop.
theorem Delivers.take (h : Delivers w) {p : Party} {k : Nat} {f : LoggedFifo T}
    (hst : w.stage p = .taking k) (hk : w.fifos[k]? = some f) :
    Delivers { w.setStage p .idle with fifos := w.fifos.set k f.take } where
  ordered := by
    apply Maps.forall_mem_set h.ordered
    rcases (h.taking p k hst).2 with ⟨g, hg, hne⟩
    obtain rfl : f = g := Option.some.inj (hk.symm.trans hg)
    exact (h.ordered f (List.mem_of_getElem? hk)).take hne
  taking := by
    intro q j hq
    rcases Maps.update_eq hq with ⟨-, htaking⟩ | ⟨hqp, hold⟩
    · cases htaking
    · have hholder := (h.taking q j hold).1
      rw [(h.taking p k hst).1] at hholder
      exact absurd (Option.some.inj hholder).symm hqp

theorem Delivers.popWait (h : Delivers w) {p : Party} {k : Nat} {f : LoggedFifo T}
    (hp : w.holder = some p) (hst : w.stage p = .testing k) (hk : w.fifos[k]? = some f)
    (hstep : w.popWait p k f = some w') : Delivers w' := by
  unfold FifoWorld.popWait at hstep
  split at hstep
  next co i cv s hpc hwait =>
    obtain rfl := Option.some.inj hstep
    constructor
    · apply Maps.forall_mem_set h.ordered
      exact h.ordered f (List.mem_of_getElem? hk)
    · -- the holder is the one that waits, so nobody is behind the loop
      intro q j hq
      rcases Maps.update_eq hq with ⟨-, htaking⟩ | ⟨hqp, hold⟩
      · cases htaking
      · have hholder := (h.taking q j hold).1
        rw [hp] at hholder
        exact absurd (Option.some.inj hholder).symm hqp
  next =>
    obtain rfl := Option.some.inj hstep
    exact h.setStage (by simp)
  next => cases hstep

theorem Delivers.popStep (h : Delivers w) {p : Party} (hp : w.holder = some p)
    (hstep : w.popStep p = some w') : Delivers w' := by
  unfold FifoWorld.popStep at hstep
  split at hstep
  next k hst =>
    rcases Option.bind_eq_some_iff.mp hstep with ⟨f, hk, hrest⟩
    split at hrest
    next => exact h.popWait hp hst hk hrest
    next hq =>
      obtain rfl := Option.some.inj hrest
      exact h.leaveLoop hp hk hq
  next k hst =>
    rcases Option.map_eq_some_iff.mp hstep with ⟨f, hk, rfl⟩
    exact h.take hst hk
  next => cases hstep

theorem Delivers.back (h : Delivers w) : Delivers w.back := by
  unfold FifoWorld.back
  split
  · split
    · exact h.setStage (by simp)
    · exact h
  · exact h

-- The step lemma.
theorem Delivers.step (h : Delivers w) {a : FifoAct T} (hstep : w.step a = some w') :
    Delivers w' := by
  cases a with
  | newFifo =>
    simp only [FifoWorld.step, Option.ite_none_right_eq_some] at hstep
    obtain rfl := Option.some.inj hstep.2
    exact h.newFifo hstep.1
  | push k x =>
    simp only [FifoWorld.step, Option.ite_none_right_eq_some] at hstep
    rcases Option.map_eq_some_iff.mp hstep.2 with ⟨f, hk, rfl⟩
    exact h.push hstep.1 hk
  | pop k =>
    simp only [FifoWorld.step, Option.ite_none_right_eq_some] at hstep
    rcases Option.map_eq_some_iff.mp hstep.2.2 with ⟨p, -, rfl⟩
    exact h.setStage (by simp)
  | popStep =>
    rcases Option.bind_eq_some_iff.mp hstep with ⟨p, hp, hrest⟩
    exact h.popStep hp hrest
  | others a =>
    simp only [FifoWorld.step, Option.ite_none_right_eq_some] at hstep
    rcases Option.map_eq_some_iff.mp hstep.2 with ⟨m, -, rfl⟩
    apply Delivers.back
    exact ⟨h.ordered, fun p k hst => absurd hst (h.nobody hstep.1 p k)⟩

end Steps

theorem runs_deliver {acts : List (FifoAct T)} {w : FifoWorld T} (run : Runs acts w) :
    Delivers w :=
  run.invariant (fun _ _ _ h hstep => h.step hstep)
    ⟨fun _ hf => absurd hf List.not_mem_nil, fun _ _ hst => nomatch hst⟩

/-- In every run of any number of producers and consumers, no `pop` has read the front of an empty
    queue: each has returned a value.  These values, in the order in which the pops took them, are
    a prefix of the pushed ones, and with the queued ones behind them they are all of the pushed
    ones. -/
theorem fifo_in_order {acts : List (FifoAct T)} {w : FifoWorld T} (run : Runs acts w) :
    ∀ f ∈ w.fifos, ∃ values : List T,
      f.popped = values.map some ∧ values <+: f.pushed ∧ values ++ f.q = f.pushed := by
  intro f hf
  have hord : f.popped ++ f.q.map some = f.pushed.map some := (runs_deliver run).ordered f hf
  have hpre : f.popped <+: f.pushed.map some := ⟨_, hord⟩
  rcases List.prefix_map_iff.mp hpre with ⟨values, hvalues, hpopped⟩
  refine ⟨values, hpopped, hvalues, ?_⟩
  rw [hpopped, ← List.map_append] at hord
  exact List.map_injective_iff.mpr (fun _ _ => Option.some.inj) hord

/-- Two consumers wait.  A push wakes the first one, and the second one is scheduled for no reason:
    it finds the queue empty again and waits again, until the next push. -/
def twoConsumers : List (FifoAct String) :=
  let tv : Timeval := ⟨0, 0⟩
  let schedule (co : CoroId) : FifoAct String := .others (.call (.schedule co 0))
  let round : List (FifoAct String) := [.others (.enter .first tv), .others .test]
  let next : FifoAct String := .others (.next .first tv)
  [.newFifo, schedule 1, schedule 2] ++ round ++
    [next, .pop 0, .popStep, next, .pop 0, .popStep, next, .others .test, .others .pollThrow] ++
    [.push 0 "a", schedule 2] ++ round ++
    [next, .popStep, .popStep, .others .finish, next, .popStep, next, .others .test,
      .others .pollThrow] ++
    [.push 0 "b", .push 0 "c"] ++ round ++ [next, .popStep, .popStep]

theorem fifo_in_order_two_consumers :
    ∃ w f, Runs twoConsumers w ∧ f ∈ w.fifos ∧ f.popped = [some "a", some "b"] ∧
      f.pushed = ["a", "b", "c"] ∧
      ∃ values : List String,
        f.popped = values.map some ∧ values <+: f.pushed ∧ values ++ f.q = f.pushed := by
  have hrun : Runs twoConsumers _ := Transition.run_of_exec rfl
  exact ⟨_, _, hrun, .head _, rfl, rfl, fifo_in_order hrun _ (.head _)⟩

end FifoWorld

end Coropp
