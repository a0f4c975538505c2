import Coropp.EventSelect
import Coropp.PollHistory

/-!
# No waiter is lost

What becomes of the registrations in any history of a map-based poller.  Each map holds one
coroutine for a descriptor, so a second registration on it takes the place of the first.
-/

namespace Coropp

/-! ## `poll_poller` -/

namespace PollWorld

theorem step_balanced {w w' : PollWorld} {op : PollOp}
    (h : w.ledger.Balanced w.poller.toWaitSets) (hstep : w.step op = some w') :
    w'.ledger.Balanced w'.poller.toWaitSets := by
  cases op with
  | setWaitForRead fd c =>
    obtain rfl := Option.some.inj hstep
    exact h.register .read fd c
  | setWaitForWrite fd c =>
    obtain rfl := Option.some.inj hstep
    exact h.register .write fd c
  | poll timeoutUsec r =>
    rcases Option.map_eq_some_iff.mp hstep with ⟨out, hpoll, rfl⟩
    rcases PollPoller.poll_moves hpoll with ⟨woken, left, hmoves⟩
    have hleft := hmoves.left
    have haccepted := hmoves.accepted
    rw [Outcome.state_map] at hleft haccepted
    have hperm := hmoves.1
    rw [← hleft] at hperm
    exact h.round hperm haccepted
  | others s =>
    obtain rfl := Option.some.inj hstep
    exact h

end PollWorld

/-! ## `select_poller` -/

/-- `defined` turns false where the code advances the iterator of an erased entry; nothing is known
    of what happens after that. -/
structure SelectWorld where
  poller : SelectPoller := {}
  sched : Sched
  defined : Bool := true
  ledger : Ledger := {}

inductive SelectOp where
  | setWaitForRead (fd : Fd) (c : CoroId)
  | setWaitForWrite (fd : Fd) (c : CoroId)
  | poll (timeoutUsec : Int) (r : SelectResponse) (turns : Nat)
  -- the rest of the program
  | others (s : Sched)

namespace SelectWorld

def afterPoll (w : SelectWorld) (e : SelectEnd) : SelectWorld where
  poller := ⟨e.state.1⟩
  sched := e.state.2
  defined :=
    match e with
    | .ended _ => true
    | .erasedIterator _ _ => false
  ledger := w.ledger.round w.poller.toWaitSets e.state.1 w.sched e.state.2

def step (w : SelectWorld) (op : SelectOp) : Option SelectWorld :=
  if w.defined then
    match op with
    | .setWaitForRead fd c =>
      some { w with
        poller := w.poller.setWaitForRead fd c
        ledger := w.ledger.register w.poller.toWaitSets ⟨.read, fd, c⟩ }
    | .setWaitForWrite fd c =>
      some { w with
        poller := w.poller.setWaitForWrite fd c
        ledger := w.ledger.register w.poller.toWaitSets ⟨.write, fd, c⟩ }
    | .poll timeoutUsec r turns => (w.poller.poll w.sched timeoutUsec r turns).map w.afterPoll
    | .others s => some { w with sched := s }
  else none

def Runs (s : Sched) : List SelectOp → SelectWorld → Prop :=
  Transition.Run (Transition.ofFun step) { sched := s }

theorem step_balanced {w w' : SelectWorld} {op : SelectOp}
    (h : w.ledger.Balanced w.poller.toWaitSets) (hstep : w.step op = some w') :
    w'.ledger.Balanced w'.poller.toWaitSets := by
  unfold step at hstep
  split at hstep
  · cases op with
    | setWaitForRead fd c =>
      obtain rfl := Option.some.inj hstep
      exact h.register .read fd c
    | setWaitForWrite fd c =>
      obtain rfl := Option.some.inj hstep
      exact h.register .write fd c
    | poll timeoutUsec r turns =>
      rcases Option.map_eq_some_iff.mp hstep with ⟨e, hpoll, rfl⟩
      rcases SelectPoller.poll_moves hpoll with ⟨woken, hperm, haccepted⟩
      exact h.round hperm haccepted
    | others s =>
      obtain rfl := Option.some.inj hstep
      exact h
  · cases hstep

end SelectWorld

/-! ## Both -/

/-- In every history of registrations and polls, the registrations made are those still present,
    those scheduled, each once, and those replaced by a later one for the same descriptor and
    direction; for `poll_poller` up to a poll with more waits than slots, and for `select_poller` up to
    the first erase of its dispatch loop. -/
theorem registrations_accounted :
    (∀ size s ops w, PollWorld.Runs size s ops w → w.ledger.Balanced w.poller.toWaitSets) ∧
      ∀ s ops w, SelectWorld.Runs s ops w → w.ledger.Balanced w.poller.toWaitSets := by
  constructor
  · intro size s ops w run
    exact run.invariant (fun _ _ _ h hstep => PollWorld.step_balanced h hstep)
      Ledger.balanced_init
  · intro s ops w run
    exact run.invariant (fun _ _ _ h hstep => SelectWorld.step_balanced h hstep)
      Ledger.balanced_init

/-- Coroutine 1 reads from descriptor 3 and is served; 2 and 3 both write to descriptor 4. -/
theorem registrations_accounted_two_writers :
    (∃ w, PollWorld.Runs 8 {} [.setWaitForRead 3 1, .poll 0 ⟨1, fun _ => pollin⟩,
        .setWaitForWrite 4 2, .setWaitForWrite 4 3] w ∧
      w.ledger.scheduled = [⟨.read, 3, 1⟩] ∧ w.ledger.replaced = [⟨.write, 4, 2⟩] ∧
      w.ledger.Balanced w.poller.toWaitSets) ∧
    ∃ w, SelectWorld.Runs {} [.setWaitForRead 3 1,
        .poll 0 ⟨1, fun fd => fd = 3, fun _ => false⟩ 1] w ∧
      w.ledger.scheduled = [⟨.read, 3, 1⟩] ∧ w.defined = false ∧
      w.ledger.Balanced w.poller.toWaitSets := by
  constructor
  · have hrun : PollWorld.Runs 8 {} [.setWaitForRead 3 1, .poll 0 ⟨1, fun _ => pollin⟩,
        .setWaitForWrite 4 2, .setWaitForWrite 4 3] _ := Transition.run_of_exec rfl
    exact ⟨_, hrun, by decide, by decide, registrations_accounted.1 _ _ _ _ hrun⟩
  · have hrun : SelectWorld.Runs {} [.setWaitForRead 3 1,
        .poll 0 ⟨1, fun fd => fd = 3, fun _ => false⟩ 1] _ := Transition.run_of_exec rfl
    exact ⟨_, hrun, by decide, rfl, registrations_accounted.2 _ _ _ hrun⟩

/-- Two coroutines wait to read from descriptor 3: the first one is neither present any more nor
    has it been scheduled, with either poller. -/
theorem first_reader_lost :
    (∃ w, PollWorld.Runs 8 {} [.setWaitForRead 3 1, .setWaitForRead 3 2] w ∧
      ⟨.read, 3, 1⟩ ∈ w.ledger.registered ∧ ¬w.poller.Registered ⟨.read, 3, 1⟩ ∧
      w.ledger.scheduled = [] ∧ w.sched.pending = []) ∧
    ∃ w, SelectWorld.Runs {} [.setWaitForRead 3 1, .setWaitForRead 3 2] w ∧
      ⟨.read, 3, 1⟩ ∈ w.ledger.registered ∧ ¬w.poller.Registered ⟨.read, 3, 1⟩ ∧
      w.ledger.scheduled = [] ∧ w.sched.pending = [] := by
  constructor
  · exact ⟨_, Transition.run_of_exec rfl, by decide, by decide, rfl, rfl⟩
  · exact ⟨_, Transition.run_of_exec rfl, by decide, by decide, rfl, rfl⟩

end Coropp
