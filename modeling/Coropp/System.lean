import Coropp.EventLoop
import Coropp.EventPoll
import Coropp.Sync

/-!
# A whole program

The scheduler, a `poll_poller`, and the program's condition variables, latches and fifos.  The
program starts each of its coroutines with one call of `schedule`; from then on a coroutine gives up
control by `sleep`, by waiting for a descriptor or in one of the `sync.h` classes, or by ending.

A coroutine runs undisturbed from one of these calls to the next, so a step is one call.  In
particular a coroutine that is resumed inside `fifo::pop` tests the queue in the same step.

A poll with more waits than the poller has slots writes outside its array.  It is no step, so that a
run ends there at the latest.
-/

namespace Coropp

/-- `popping` is where a coroutine's stack is, as far as the library is concerned: in the loop of
    `pop` of that fifo.  `launched`, `pushes` and `pops` are history variables. -/
structure System (T : Type) extends Machine where
  poller : PollPoller
  cvs : List CondVar := []
  latches : List Latch := []
  fifos : List (Fifo T) := []
  popping : CoroId → Option Nat := fun _ => none
  launched : CoroId → Bool := fun _ => false
  pushes : List (Nat × T) := []
  pops : List (Nat × T) := []

/-- The calls that do not block, by the running coroutine or by the main program.  `launch` is the
    one call of `schedule` that starts a coroutine. -/
inductive UserCall (T : Type) where
  | newCondVar
  | newLatch
  | newFifo
  | launch (co : CoroId) (arg : Arg)
  | exit
  | wakeOne (k : Nat) (arg : Arg)
  | wakeAll (k : Nat) (arg : Arg)
  | latchWakeAll (k : Nat)
  | push (k : Nat) (x : T)

/-- The calls of the running coroutine that may block it. -/
inductive WaitCall where
  | sleep (now : Timeval) (msec : Int)
  | waitFor (dir : Direction) (fd : Fd)
  | cvWait (k : Nat)
  | latchWait (k : Nat)
  | pop (k : Nat)

inductive SysAct (T : Type) where
  | enter (rule : TopRule) (tv : Timeval)
  | test
  | next (rule : TopRule) (tv : Timeval)
  | finish
  | pollReturn (rule : TopRule) (tv : Timeval) (r : PollResponse)
  | call (c : UserCall T)
  | block (c : WaitCall)

/-- The deadline that `sleep (msec)` computes from the clock reading `now`. -/
def sleepDeadline (now : Timeval) (msec : Int) : Timeval :=
  timeradd now ⟨msec.tdiv 1000, msec.tmod 1000 * 1000⟩

namespace System

variable {T : Type}

def withMachine (sys : System T) (m : Machine) : System T := { sys with toMachine := m }

def withSched (sys : System T) (s : Sched) : System T := { sys with sched := s }

/-- The coroutine that entry `i` resumed has called `yield`. -/
def yielded (sys : System T) (s : Sched) (i : Nat) : System T :=
  { sys with sched := s, pc := .staging (i + 1) }

/-- `pop` of fifo `k`, called by the coroutine `co` or gone on with after its `yield`. -/
def popTest (sys : System T) (co : CoroId) (k i : Nat) : System T :=
  match sys.fifos[k]? with
  | some f =>
    match f.test with
    | some (x, f') =>
      { sys with
        fifos := sys.fifos.set k f'
        popping := Function.update sys.popping co none
        pops := sys.pops ++ [(k, x)] }
    | none =>
      match f.cv.wait sys.sched with
      | some (cv, s) =>
        { sys.yielded s i with
          fifos := sys.fifos.set k { f with cv := cv }
          popping := Function.update sys.popping co (some k) }
      | none => sys
  | none => sys

/-- A resumed coroutine goes on where it yielded. -/
def goOn (sys : System T) (i : Nat) : System T :=
  match sys.running with
  | some co =>
    match sys.popping co with
    | some k => sys.popTest co k i
    | none => sys
  | none => sys

/-- `poll`, and the head of `event_loop`; an exception leaves `event_loop`. -/
def pollReturn (sys : System T) (rule : TopRule) (tv : Timeval) (r : PollResponse) :
    Option (System T) :=
  match sys.poller.poll sys.sched r with
  | some (.returned (p, s)) =>
    some { sys with toMachine := Machine.loopHead rule tv s, poller := p }
  | some (.deadCoro _ (p, s)) => some { sys with sched := s, pc := .outside, poller := p }
  | none => none

/-- The calls that do not block.  What they throw goes to the caller. -/
def call (sys : System T) : UserCall T → Option (System T)
  | .newCondVar => some { sys with cvs := sys.cvs ++ [{}] }
  | .newLatch => some { sys with latches := sys.latches ++ [{}] }
  | .newFifo => some { sys with fifos := sys.fifos ++ [{}] }
  | .launch co arg =>
    if sys.launched co then none
    else
      some { sys.withSched (sys.sched.schedule co arg).state with
        launched := Function.update sys.launched co true }
  | .exit => some (sys.withSched { sys.sched with exit := true })
  | .wakeOne k arg =>
    (sys.cvs[k]?).map fun cv =>
      let st := (cv.wakeOne sys.sched arg).state
      { sys.withSched st.2.2 with cvs := sys.cvs.set k st.2.1 }
  | .wakeAll k arg =>
    (sys.cvs[k]?).map fun cv =>
      let st := (cv.wakeAll sys.sched arg).state
      { sys.withSched st.2.2 with cvs := sys.cvs.set k st.2.1 }
  | .latchWakeAll k =>
    (sys.latches[k]?).map fun l =>
      let st := (l.wakeAll sys.sched).state
      { sys.withSched st.2 with latches := sys.latches.set k st.1 }
  | .push k x =>
    (sys.fifos[k]?).map fun f =>
      let st := (f.push sys.sched x).state
      { sys.withSched st.2 with
        fifos := sys.fifos.set k st.1
        pushes := sys.pushes ++ [(k, x)] }

/-- The calls of the coroutine `co`, resumed by entry `i`, that may block it. -/
def block (sys : System T) (co : CoroId) (i : Nat) : WaitCall → Option (System T)
  | .sleep now msec =>
    (sys.sched.current).map fun me =>
      sys.yielded ((sys.sched.insertEvent (sleepDeadline now msec) me 0).yield me 0) i
  | .waitFor dir fd =>
    (sys.sched.current).map fun me =>
      { sys.yielded (sys.sched.yield me 0) i with
        poller := { sys.poller with toWaitSets := sys.poller.setWaitFor dir fd me } }
  | .cvWait k =>
    (sys.cvs[k]?).bind fun cv =>
      (cv.wait sys.sched).map fun r => { sys.yielded r.2 i with cvs := sys.cvs.set k r.1 }
  | .latchWait k =>
    (sys.latches[k]?).bind fun l =>
      if l.done then some sys
      else
        (l.wait sys.sched).map fun r => { sys.yielded r.2 i with latches := sys.latches.set k r.1 }
  | .pop k => some (sys.popTest co k i)

def step (sys : System T) : SysAct T → Option (System T)
  | .enter rule tv => (sys.toMachine.step (.enter rule tv)).map sys.withMachine
  | .test => (sys.toMachine.step .test).map sys.withMachine
  | .next rule tv =>
    match sys.pc with
    | .staging i => some ((sys.withMachine (sys.nextEntry rule tv i)).goOn i)
    | _ => none
  | .finish => (sys.toMachine.step .finish).map sys.withMachine
  | .pollReturn rule tv r => if sys.pc = .polling then sys.pollReturn rule tv r else none
  | .call c =>
    match sys.pc with
    | .outside | .inside _ => sys.call c
    | _ => none
  | .block c =>
    match sys.pc, sys.running with
    | .inside i, some co => sys.block co i c
    | _, _ => none

/-! ## What each step does -/

section Steps

variable {sys sys' : System T}

theorem step_enter {rule : TopRule} {tv : Timeval} (h : sys.step (.enter rule tv) = some sys') :
    sys.pc = .outside ∧ sys' = sys.withMachine (Machine.loopHead rule tv sys.sched) := by
  rcases Option.map_eq_some_iff.mp h with ⟨m, hm, rfl⟩
  rcases Machine.step_enter hm with ⟨hpc, rfl⟩
  exact ⟨hpc, rfl⟩

theorem step_test (h : sys.step .test = some sys') :
    ∃ m, sys.toMachine.step .test = some m ∧ sys' = sys.withMachine m := by
  rcases Option.map_eq_some_iff.mp h with ⟨m, hm, rfl⟩
  exact ⟨m, hm, rfl⟩

theorem step_next {rule : TopRule} {tv : Timeval} (h : sys.step (.next rule tv) = some sys') :
    ∃ i, sys.pc = .staging i ∧ sys' = (sys.withMachine (sys.nextEntry rule tv i)).goOn i := by
  simp only [step] at h
  split at h
  next i hpc => exact ⟨i, hpc, (Option.some.inj h).symm⟩
  next => cases h

theorem step_finish (h : sys.step .finish = some sys') :
    ∃ i co, sys.pc = .inside i ∧ sys.running = some co ∧
      sys' = sys.withMachine ⟨sys.sched.finish co, .staging (i + 1)⟩ := by
  rcases Option.map_eq_some_iff.mp h with ⟨m, hm, rfl⟩
  rcases Machine.step_finish hm with ⟨i, co, hpc, hr, rfl⟩
  exact ⟨i, co, hpc, hr, rfl⟩

theorem step_pollReturn {rule : TopRule} {tv : Timeval} {r : PollResponse}
    (h : sys.step (.pollReturn rule tv r) = some sys') :
    sys.pc = .polling ∧ sys.pollReturn rule tv r = some sys' := by
  simp only [step] at h
  split at h
  next hpc => exact ⟨hpc, h⟩
  next => cases h

theorem step_call {c : UserCall T} (h : sys.step (.call c) = some sys') :
    (sys.pc = .outside ∨ ∃ i, sys.pc = .inside i) ∧ sys.call c = some sys' := by
  simp only [step] at h
  split at h
  next hpc => exact ⟨.inl hpc, h⟩
  next i hpc => exact ⟨.inr ⟨i, hpc⟩, h⟩
  next => cases h

theorem step_block {c : WaitCall} (h : sys.step (.block c) = some sys') :
    ∃ i co, sys.pc = .inside i ∧ sys.running = some co ∧ sys.block co i c = some sys' := by
  simp only [step] at h
  split at h
  next i co hpc hr => exact ⟨i, co, hpc, hr, h⟩
  next => cases h

end Steps

/-- A program before it has done anything. -/
def init (pollSet : Nat → Pollfd) (size : Nat) : System T where
  poller := { pollSet := pollSet, size := size }

def Runs (pollSet : Nat → Pollfd) (size : Nat) (acts : List (SysAct T)) (sys : System T) : Prop :=
  Transition.Run (Transition.ofFun step) (init pollSet size) acts sys

end System

end Coropp
