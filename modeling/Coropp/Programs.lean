import Coropp.EventLoop
import Coropp.EventPoll
import Coropp.EventSelect
import Coropp.EventKqueue

/-!
# Programs over any poller

The event loop with one of the three pollers installed, and coroutines that wait on descriptors.
Each use of an index into one of the pollers' fixed tables is recorded.
-/

namespace Coropp

open Transition

/-- The poller that `coro::set_poller` has installed, `kqueue_poller` with its kernel queue. -/
inductive AnyPoller where
  | pollPoller (p : PollPoller)
  | selectPoller (p : SelectPoller)
  | kqueuePoller (p : KqueuePoller) (kernel : Knotes)

/-- The constructors: `_poll_set` is a new array with whatever is in it, and `kqueue ()` a new
    queue. -/
inductive PollerArgs where
  | pollPoller (size : Nat) (pollSet : Nat → Pollfd)
  | selectPoller
  | kqueuePoller (outputMax : Nat)

/-- What `::poll`, `select` or `kevent` answers. -/
inductive PollAnswer where
  | poll (r : PollResponse)
  | select (r : SelectResponse) (turns : Nat)
  | kevent (a : KeventAnswer)

/-- An index used with a table of `size` entries. -/
structure Access where
  index : Int
  size : Int
deriving DecidableEq, Repr

def Access.Inside (a : Access) : Prop := 0 ≤ a.index ∧ a.index < a.size

instance (a : Access) : Decidable a.Inside := inferInstanceAs (Decidable (_ ∧ _))

/-- How `poll` ends.  After `undefined` nothing is known. -/
inductive PollEnd where
  | returned
  | threw
  | undefined
deriving DecidableEq, Repr

/-- The slots that the filling loops of `poll_poller::poll` write, one after the other. -/
def PollPoller.slotIndices (p : PollPoller) : List Nat :=
  ((p.readSet.keys ++ p.writeSet.keys).foldl
    (fun (st : Nat × List Nat) _ => (st.1 - 1, st.2 ++ [st.1 - 1])) (p.count, [])).2

namespace AnyPoller

def create : PollerArgs → AnyPoller
  | .pollPoller size pollSet => pollPoller { pollSet := pollSet, size := size }
  | .selectPoller => selectPoller {}
  | .kqueuePoller outputMax => kqueuePoller { outputMax := outputMax } fun _ => none

/-- `wait_for_read` or `wait_for_write` up to its `yield`. -/
def setWaitFor (p : AnyPoller) (dir : Direction) (fd : Fd) (c : CoroId) : Option AnyPoller :=
  match p, dir with
  | pollPoller p, .read => some (pollPoller (p.setWaitForRead fd c))
  | pollPoller p, .write => some (pollPoller (p.setWaitForWrite fd c))
  | selectPoller p, .read => some (selectPoller (p.setWaitForRead fd c))
  | selectPoller p, .write => some (selectPoller (p.setWaitForWrite fd c))
  | kqueuePoller p k, .read => (p.setWaitForRead fd c).map (kqueuePoller · k)
  | kqueuePoller p k, .write => (p.setWaitForWrite fd c).map (kqueuePoller · k)

/-- The entry of `_change_list` that a registration writes; the maps of the others have no bound. -/
def changeAccesses : AnyPoller → List Access
  | kqueuePoller p _ => [⟨p.changeIndex, p.outputMax⟩]
  | _ => []

/-- The slots of `_poll_set`, and the bits that `FD_SET` sets. -/
def pollAccesses : AnyPoller → List Access
  | pollPoller p => p.slotIndices.map fun (j : Nat) => ⟨j, p.size⟩
  | selectPoller p =>
    ((p.call 0).readfds ++ (p.call 0).writefds).map fun fd => ⟨fd, SelectPoller.fdSetsize⟩
  | kqueuePoller _ _ => []

/-- `poll (timeout_usec)`, when the kernel answers `a`. -/
def poll (p : AnyPoller) (s : Sched) (timeoutUsec : Int) (a : PollAnswer) :
    Option (AnyPoller × Sched × PollEnd) :=
  match p, a with
  | pollPoller p, .poll r =>
    (p.poll s r).map fun out =>
      (pollPoller out.state.1, out.state.2, if out.isReturned then .returned else .threw)
  | selectPoller p, .select r turns =>
    (p.poll s timeoutUsec r turns).map fun e =>
      (selectPoller ⟨e.state.1⟩, e.state.2,
        match e with
        | .ended out => if out.isReturned then .returned else .threw
        | .erasedIterator _ _ => .undefined)
  | kqueuePoller p k, .kevent a =>
    (p.poll k s timeoutUsec a).map fun r =>
      (kqueuePoller r.poller r.kernel, r.ending.state,
        match r.ending with
        | .ended out => if out.isReturned then .returned else .threw
        | .osError _ _ => .threw
        | .misread _ => .undefined)
  | _, _ => none

-- A registration goes into a wait set, or is one more entry of the change list.
theorem setWaitFor_cases {p p' : AnyPoller} {dir : Direction} {fd : Fd} {c : CoroId}
    (h : p.setWaitFor dir fd c = some p') :
    (∃ q, p = pollPoller q ∧ p' = pollPoller { q with toWaitSets := q.setWaitFor dir fd c }) ∨
      (∃ q, p = selectPoller q ∧ p' = selectPoller ⟨q.setWaitFor dir fd c⟩) ∨
      ∃ q k ke q', p = kqueuePoller q k ∧ q.change ke = some q' ∧ p' = kqueuePoller q' k := by
  cases p with
  | pollPoller q =>
    have hp : p' = pollPoller { q with toWaitSets := q.setWaitFor dir fd c } := by
      cases dir <;> exact (Option.some.inj h).symm
    exact .inl ⟨q, rfl, hp⟩
  | selectPoller q =>
    have hp : p' = selectPoller ⟨q.setWaitFor dir fd c⟩ := by
      cases dir <;> exact (Option.some.inj h).symm
    exact .inr (.inl ⟨q, rfl, hp⟩)
  | kqueuePoller q k =>
    apply Or.inr
    apply Or.inr
    cases dir with
    | read =>
      rcases Option.map_eq_some_iff.mp h with ⟨q', hq, rfl⟩
      exact ⟨q, k, _, q', rfl, hq, rfl⟩
    | write =>
      rcases Option.map_eq_some_iff.mp h with ⟨q', hq, rfl⟩
      exact ⟨q, k, _, q', rfl, hq, rfl⟩

-- A poll is that of the poller installed, which the kernel answers.
theorem poll_cases {p p' : AnyPoller} {s s' : Sched} {timeoutUsec : Int} {a : PollAnswer}
    {e : PollEnd} (h : p.poll s timeoutUsec a = some (p', s', e)) :
    (∃ q r out, p = pollPoller q ∧ a = .poll r ∧ q.poll s r = some out ∧
        p' = pollPoller out.state.1) ∨
      (∃ q r turns out, p = selectPoller q ∧ a = .select r turns ∧
        q.poll s timeoutUsec r turns = some out ∧ p' = selectPoller ⟨out.state.1⟩) ∨
      ∃ q k b out, p = kqueuePoller q k ∧ a = .kevent b ∧ q.poll k s timeoutUsec b = some out ∧
        p' = kqueuePoller out.poller out.kernel := by
  unfold AnyPoller.poll at h
  split at h
  · rename_i q r
    rcases Option.map_eq_some_iff.mp h with ⟨out, hout, heq⟩
    exact .inl ⟨q, r, out, rfl, rfl, hout, (congrArg Prod.fst heq).symm⟩
  · rename_i q r turns
    rcases Option.map_eq_some_iff.mp h with ⟨out, hout, heq⟩
    exact .inr (.inl ⟨q, r, turns, out, rfl, rfl, hout, (congrArg Prod.fst heq).symm⟩)
  · rename_i q k b
    rcases Option.map_eq_some_iff.mp h with ⟨out, hout, heq⟩
    exact .inr (.inr ⟨q, k, b, out, rfl, rfl, hout, (congrArg Prod.fst heq).symm⟩)
  · cases h

end AnyPoller

/-- `accesses` is a history variable. -/
structure PollProgram extends Machine where
  poller : AnyPoller
  accesses : List Access := []
  defined : Bool := true

inductive PollAct where
  /-- A step of the scheduler, or of a coroutine or the main program that calls into it. -/
  | machine (a : Act)
  /-- The running coroutine calls `wait_for_read` or `wait_for_write`. -/
  | waitFor (dir : Direction) (fd : Fd)
  | setSignalHandler (signum : Int) (f : HandlerId)
  /-- The installed poller polls, and `event_loop` goes on at the clock reading `tv`. -/
  | poll (rule : TopRule) (tv : Timeval) (timeoutUsec : Int) (a : PollAnswer)

namespace PollProgram

def withMachine (w : PollProgram) (m : Machine) : PollProgram := { w with toMachine := m }

/-- A registration; a poller without room for it has written outside its table. -/
def register (w : PollProgram) (p : Option AnyPoller) : PollProgram :=
  { w with
    poller := p.getD w.poller
    accesses := w.accesses ++ w.poller.changeAccesses
    defined := p.isSome }

/-- `poll` and the head of `event_loop`; an exception leaves `event_loop`. -/
def pollStep (w : PollProgram) (rule : TopRule) (tv : Timeval) (timeoutUsec : Int) (a : PollAnswer) :
    Option PollProgram :=
  let w' := { w with accesses := w.accesses ++ w.poller.pollAccesses }
  if w.poller.pollAccesses.all fun x => decide x.Inside then
    (w.poller.poll w.sched timeoutUsec a).map fun r =>
      match r with
      | (p, s, .returned) => { w' with toMachine := Machine.loopHead rule tv s, poller := p }
      | (p, s, .threw) => { w' with toMachine := ⟨s, .outside⟩, poller := p }
      | (p, s, .undefined) => { w' with sched := s, poller := p, defined := false }
  else some { w' with defined := false }

def step (w : PollProgram) (a : PollAct) : Option PollProgram :=
  if w.defined then
    match a with
    | .machine a => if w.pc = .polling then none else (w.toMachine.step a).map w.withMachine
    | .waitFor dir fd =>
      match w.pc, w.sched.current with
      | .inside i, some me =>
        some ((w.register (w.poller.setWaitFor dir fd me)).withMachine
          ⟨w.sched.yield me 0, .staging (i + 1)⟩)
      | _, _ => none
    | .setSignalHandler signum f =>
      match w.pc, w.poller with
      | .outside, .kqueuePoller p k | .inside _, .kqueuePoller p k =>
        some (w.register ((p.setSignalHandler signum f).map (.kqueuePoller · k)))
      | _, _ => none
    | .poll rule tv timeoutUsec a =>
      if w.pc = .polling then w.pollStep rule tv timeoutUsec a else none
  else none

def Runs (args : PollerArgs) (acts : List PollAct) (w : PollProgram) : Prop :=
  Run (ofFun step) { poller := .create args } acts w

/-! ## What each step does -/

variable {w w' : PollProgram}

theorem step_defined {a : PollAct} (h : w.step a = some w') : w.defined = true := by
  unfold step at h
  split at h
  · assumption
  · cases h

theorem step_machine {a : Act} (h : w.step (.machine a) = some w') :
    w.pc ≠ .polling ∧ ∃ m, w.toMachine.step a = some m ∧ w' = w.withMachine m := by
  have hdef := step_defined h
  simp only [step, if_pos hdef] at h
  split at h
  · cases h
  · rename_i hpc
    rcases Option.map_eq_some_iff.mp h with ⟨m, hm, rfl⟩
    exact ⟨hpc, m, hm, rfl⟩

theorem step_waitFor {dir : Direction} {fd : Fd} (h : w.step (.waitFor dir fd) = some w') :
    ∃ i me, w.pc = .inside i ∧ w.sched.current = some me ∧
      w' = (w.register (w.poller.setWaitFor dir fd me)).withMachine
        ⟨w.sched.yield me 0, .staging (i + 1)⟩ := by
  have hdef := step_defined h
  simp only [step, if_pos hdef] at h
  split at h
  next i me hpc hcur => exact ⟨i, me, hpc, hcur, (Option.some.inj h).symm⟩
  next => cases h

theorem step_setSignalHandler {signum : Int} {f : HandlerId}
    (h : w.step (.setSignalHandler signum f) = some w') :
    ∃ p k, w.poller = .kqueuePoller p k ∧
      w' = w.register ((p.setSignalHandler signum f).map (.kqueuePoller · k)) := by
  have hdef := step_defined h
  simp only [step, if_pos hdef] at h
  split at h
  next p k _ hp => exact ⟨p, k, hp, (Option.some.inj h).symm⟩
  next i p k _ hp => exact ⟨p, k, hp, (Option.some.inj h).symm⟩
  next => cases h

-- A poll stops at an access outside a table, or else does what the poller does.
theorem step_poll {rule : TopRule} {tv : Timeval} {timeoutUsec : Int} {a : PollAnswer}
    (h : w.step (.poll rule tv timeoutUsec a) = some w') :
    w.pc = .polling ∧ w'.accesses = w.accesses ++ w.poller.pollAccesses ∧
      ((∃ x ∈ w.poller.pollAccesses, ¬x.Inside) ∧ w'.defined = false ∧ w'.poller = w.poller ∨
        (∀ x ∈ w.poller.pollAccesses, x.Inside) ∧
          ∃ p s e, w.poller.poll w.sched timeoutUsec a = some (p, s, e) ∧ w'.poller = p ∧
            match e with
            | .returned => w'.toMachine = Machine.loopHead rule tv s ∧ w'.defined = true
            | .threw => w'.toMachine = ⟨s, .outside⟩ ∧ w'.defined = true
            | .undefined => w'.defined = false) := by
  have hdef := step_defined h
  simp only [step, if_pos hdef] at h
  split at h
  · rename_i hpc
    unfold pollStep at h
    dsimp only at h
    split at h
    · rename_i hall
      have hin : ∀ x ∈ w.poller.pollAccesses, x.Inside := by simpa using hall
      rcases Option.map_eq_some_iff.mp h with ⟨⟨p, s, e⟩, hpoll, rfl⟩
      cases e with
      | returned => exact ⟨hpc, rfl, .inr ⟨hin, p, s, _, hpoll, rfl, rfl, hdef⟩⟩
      | threw => exact ⟨hpc, rfl, .inr ⟨hin, p, s, _, hpoll, rfl, rfl, hdef⟩⟩
      | undefined => exact ⟨hpc, rfl, .inr ⟨hin, p, s, _, hpoll, rfl, rfl⟩⟩
    · rename_i hall
      have hout : ∃ x ∈ w.poller.pollAccesses, ¬x.Inside := by simpa using hall
      obtain rfl := Option.some.inj h
      exact ⟨hpc, rfl, .inl ⟨hout, rfl, rfl⟩⟩
  · cases h

end PollProgram

end Coropp
