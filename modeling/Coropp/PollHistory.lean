import Coropp.EventPoll
import Coropp.WaitLedger
import Mathlib.Data.List.Pairwise

/-!
# Histories of a `poll_poller`

A poller in use: coroutines register, the event loop polls, and the rest of the program does what
it likes with the scheduler.  The slot array is reused by every poll.  A history ends where a poll has
more waits than slots, and writes outside the array.
-/

namespace Coropp

open Words

/-- One call of `::poll`, with the wait sets at that moment. -/
structure Submission where
  call : PollCall
  sets : WaitSets

/-- `submissions` and `ledger` are history variables. -/
structure PollWorld where
  poller : PollPoller
  sched : Sched
  submissions : List Submission := []
  ledger : Ledger := {}

inductive PollOp where
  | setWaitForRead (fd : Fd) (c : CoroId)
  | setWaitForWrite (fd : Fd) (c : CoroId)
  | poll (timeoutUsec : Int) (r : PollResponse)
  -- the rest of the program
  | others (s : Sched)

namespace PollWorld

def afterPoll (w : PollWorld) (timeoutUsec : Int) (st : PollPoller × Sched) : PollWorld where
  poller := st.1
  sched := st.2
  submissions := w.submissions ++ [⟨w.poller.call timeoutUsec, w.poller.toWaitSets⟩]
  ledger := w.ledger.round w.poller.toWaitSets st.1.toWaitSets w.sched st.2

def step (w : PollWorld) : PollOp → Option PollWorld
  | .setWaitForRead fd c =>
    some { w with
      poller := w.poller.setWaitForRead fd c
      ledger := w.ledger.register w.poller.toWaitSets ⟨.read, fd, c⟩ }
  | .setWaitForWrite fd c =>
    some { w with
      poller := w.poller.setWaitForWrite fd c
      ledger := w.ledger.register w.poller.toWaitSets ⟨.write, fd, c⟩ }
  | .poll timeoutUsec r =>
    (w.poller.poll w.sched r).map fun out => w.afterPoll timeoutUsec out.state
  | .others s => some { w with sched := s }

/-- The poller as constructed, on an array of zeros. -/
def init (size : Nat) (s : Sched) : PollWorld where
  poller := { pollSet := fun _ => ⟨0, 0, 0⟩, size := size }
  sched := s

def Runs (size : Nat) (s : Sched) : List PollOp → PollWorld → Prop :=
  Transition.Run (Transition.ofFun step) (init size s)

end PollWorld

/-! ## What is submitted -/

namespace Submission

/-- The slots describe the wait sets and nothing else. -/
def Exact (c : Submission) : Prop :=
  (c.call.fds.map fun slot => (slot.fd, slot.events)).Perm
    (c.sets.readSet.keys.map (fun fd => (fd, pollin)) ++
      c.sets.writeSet.keys.map fun fd => (fd, pollout))

instance (c : Submission) : Decidable c.Exact := inferInstanceAs (Decidable (List.Perm _ _))

/-- The registrations in the order of their slots. -/
def waits (c : Submission) : List Wait := c.sets.registrations.reverse

/-- The bit that this poll stores in slot `i`. -/
def bitAt (c : Submission) (i : Nat) : BitVec 16 :=
  match c.waits[i]? with
  | some w => w.dir.bit
  | none => 0

/-- No slot is used for reading in one poll and for writing in the other: the slots of the writes
    come first. -/
def Compatible (a b : Submission) : Prop :=
  (a.sets.writeSet.size < b.sets.writeSet.size → a.sets.readSet.size = 0) ∧
    (b.sets.writeSet.size < a.sets.writeSet.size → b.sets.readSet.size = 0)

instance (a b : Submission) : Decidable (a.Compatible b) := inferInstanceAs (Decidable (_ ∧ _))

/-- The bits that the polls `cs` have stored in slot `i`. -/
def used (cs : List Submission) (i : Nat) : BitVec 16 :=
  cs.foldl (fun bits c => bits ||| c.bitAt i) 0

instance : Std.Symm Compatible where
  symm _ _ h := ⟨h.2, h.1⟩

theorem Compatible.refl (a : Submission) : a.Compatible a := by
  constructor <;> intro h <;> omega

theorem used_append (cs : List Submission) (c : Submission) (i : Nat) :
    used (cs ++ [c]) i = used cs i ||| c.bitAt i := by
  rw [used, used, List.foldl_append, List.foldl_cons, List.foldl_nil]

-- The first slots are for the writes.
theorem bitAt_eq (c : Submission) (i : Nat) :
    c.bitAt i =
      if i < c.sets.writeSet.size then pollout
      else if i < c.sets.writeSet.size + c.sets.readSet.size then pollin
      else 0 := by
  have hwaits : c.waits = (c.sets.writeSet.toList.map (Wait.ofEntry .write)).reverse ++
      (c.sets.readSet.toList.map (Wait.ofEntry .read)).reverse := by
    rw [waits, WaitSets.registrations, List.reverse_append]
  have hdir : ∀ (l : List (Fd × CoroId)) (d : Direction) (j : Nat),
      ((l.map (Wait.ofEntry d)).reverse[j]?).map (fun w => w.dir.bit) =
        if j < l.length then some d.bit else none := by
    intro l d j
    rw [← List.map_reverse, List.getElem?_map, Option.map_map]
    by_cases hj : j < l.length
    · rw [if_pos hj, List.getElem?_eq_getElem (by simpa using hj)]
      rfl
    · rw [if_neg hj, List.getElem?_eq_none (by simpa using hj), Option.map_none]
  have hbit : c.bitAt i = ((c.waits[i]?).map fun w => w.dir.bit).getD 0 := by
    unfold bitAt
    cases c.waits[i]? <;> rfl
  rw [hbit, hwaits, ← Std.TreeMap.length_toList, ← Std.TreeMap.length_toList]
  by_cases hi : i < c.sets.writeSet.toList.length
  · rw [List.getElem?_append_left (by simpa using hi), hdir, if_pos hi, if_pos hi]
    rfl
  · rw [List.getElem?_append_right (by simpa using hi), hdir, if_neg hi]
    simp only [List.length_reverse, List.length_map]
    by_cases hr : i - c.sets.writeSet.toList.length < c.sets.readSet.toList.length
    · rw [if_pos hr, if_pos (by omega)]
      rfl
    · rw [if_neg hr, if_neg (by omega)]
      rfl

/-- `x` has no bit that `b` lacks. -/
def Within (x b : BitVec 16) : Prop := x ||| b = b

instance (x b : BitVec 16) : Decidable (Within x b) := inferInstanceAs (Decidable (_ = _))

theorem Within.of_or {x y b : BitVec 16} (h : Within (x ||| y) b) : Within x b :=
  calc
    x ||| b = x ||| (x ||| y ||| b) := by rw [show x ||| y ||| b = b from h]
    _ = x ||| y ||| b := by rw [← BitVec.or_assoc, ← BitVec.or_assoc, BitVec.or_self]
    _ = b := h

theorem within_or {x y b : BitVec 16} : Within (x ||| y) b ↔ Within x b ∧ Within y b := by
  constructor
  · intro h
    have h' : Within (y ||| x) b := by
      rw [BitVec.or_comm]
      exact h
    exact ⟨h.of_or, h'.of_or⟩
  · rintro ⟨hx, hy⟩
    unfold Within at *
    rw [BitVec.or_assoc, hy, hx]

theorem within_used {cs : List Submission} {i : Nat} {b : BitVec 16} :
    Within (used cs i) b ↔ ∀ a ∈ cs, Within (a.bitAt i) b := by
  induction cs using List.reverseRecOn with
  | nil =>
    have hzero : Within (used [] i) b := BitVec.zero_or
    simp [hzero]
  | append_singleton cs c ih =>
    rw [used_append, within_or, ih]
    simp only [List.mem_append, List.mem_singleton]
    constructor
    · rintro ⟨hall, hc⟩ a (ha | rfl)
      · exact hall a ha
      · exact hc
    · intro hall
      exact ⟨fun a ha => hall a (.inl ha), hall c (.inr rfl)⟩

-- Two polls are compatible when each slot of the second one was used by the first, if at all,
-- for the same direction.
theorem compatible_iff (a c : Submission) :
    a.Compatible c ↔ ∀ i < c.waits.length, Within (a.bitAt i) (c.bitAt i) := by
  have hlen : c.waits.length = c.sets.writeSet.size + c.sets.readSet.size := by
    simp [waits, WaitSets.registrations]
  unfold Compatible
  constructor
  · rintro ⟨hac, hca⟩ i hi
    rw [bitAt_eq, bitAt_eq]
    have hsplit : i < a.sets.writeSet.size ∧ i < c.sets.writeSet.size ∨
        a.sets.writeSet.size ≤ i ∧ i < a.sets.writeSet.size + a.sets.readSet.size ∧
          c.sets.writeSet.size ≤ i ∨
        a.sets.writeSet.size + a.sets.readSet.size ≤ i := by omega
    rcases hsplit with ⟨ha, hc⟩ | ⟨ha, ha', hc⟩ | ha
    · rw [if_pos ha, if_pos hc]
      decide
    · rw [if_neg (show ¬i < a.sets.writeSet.size by omega), if_pos ha',
        if_neg (show ¬i < c.sets.writeSet.size by omega), if_pos (by omega)]
      decide
    · rw [if_neg (show ¬i < a.sets.writeSet.size by omega), if_neg (by omega)]
      exact BitVec.zero_or
  · intro hall
    constructor
    · intro hlt
      by_contra hread
      have hslot := hall a.sets.writeSet.size (by omega)
      rw [bitAt_eq, bitAt_eq, if_neg (by omega), if_pos (by omega), if_pos hlt] at hslot
      exact absurd hslot (by decide)
    · intro hlt
      by_contra hread
      have hslot := hall c.sets.writeSet.size (by omega)
      rw [bitAt_eq, bitAt_eq, if_pos hlt, if_neg (by omega), if_pos (by omega)] at hslot
      exact absurd hslot (by decide)

end Submission

namespace PollPoller

variable {p : PollPoller}

-- A slot that asks for one direction's bit alone asks for its own one.
theorem within_of_or_bit {x : BitVec 16} {d e : Direction} (h : x ||| d.bit = e.bit) :
    Submission.Within x d.bit := by
  have hde : e = d := by
    have hlow := congrArg (fun v => v.getLsbD 0) h
    have hhigh := congrArg (fun v => v.getLsbD 2) h
    cases d <;> cases e <;> simp [Direction.bit, pollin, pollout] at hlow hhigh ⊢
  rw [hde] at h
  exact h

theorem call_fds (p : PollPoller) (timeoutUsec : Int) :
    ((p.call timeoutUsec).fds.map fun slot => (slot.fd, slot.events)) =
      p.waits.zipIdx.map fun q => (q.1.fd, (p.pollSet q.2).events ||| q.1.dir.bit) := by
  apply List.ext_getElem?
  intro i
  rw [call, window, List.map_map, List.getElem?_map, List.getElem?_map, List.getElem?_zipIdx,
    ← p.length_waits]
  by_cases hi : i < p.waits.length
  · rw [List.getElem?_range' hi, List.getElem?_eq_getElem hi]
    simp only [Option.map_some, Nat.one_mul, Nat.zero_add, Function.comp_apply, fillSlots_get,
      List.getElem?_eq_getElem hi]
    rfl
  · rw [List.getElem?_eq_none (by simpa using hi), List.getElem?_eq_none (by simpa using hi)]
    rfl

theorem registrations_bits (sets : WaitSets) :
    sets.registrations.map (fun w => (w.fd, w.dir.bit)) =
      sets.readSet.keys.map (fun fd => (fd, pollin)) ++
        sets.writeSet.keys.map fun fd => (fd, pollout) := by
  simp only [WaitSets.registrations, ← Std.TreeMap.map_fst_toList_eq_keys, List.map_append,
    List.map_map]
  rfl

-- The slots are exact when no slot holds a bit of another direction.
theorem exact_iff (p : PollPoller) (timeoutUsec : Int) :
    Submission.Exact ⟨p.call timeoutUsec, p.toWaitSets⟩ ↔
      ∀ i w, p.waits[i]? = some w → Submission.Within (p.pollSet i).events w.dir.bit := by
  unfold Submission.Exact
  rw [call_fds, ← registrations_bits]
  constructor
  · intro hperm i w hw
    have hslot : (w.fd, (p.pollSet i).events ||| w.dir.bit) ∈
        p.waits.zipIdx.map fun q => (q.1.fd, (p.pollSet q.2).events ||| q.1.dir.bit) :=
      List.mem_map.mpr ⟨(w, i), List.mem_zipIdx_iff_getElem?.mpr hw, rfl⟩
    rcases List.mem_map.mp (hperm.mem_iff.mp hslot) with ⟨v, -, hv⟩
    exact within_of_or_bit (Prod.mk.inj hv).2.symm
  · intro hall
    have hplain : (p.waits.zipIdx.map fun q => (q.1.fd, (p.pollSet q.2).events ||| q.1.dir.bit)) =
        p.waits.map fun w => (w.fd, w.dir.bit) := by
      apply List.ext_getElem?
      intro i
      rw [List.getElem?_map, List.getElem?_map, List.getElem?_zipIdx, Option.map_map]
      cases hw : p.waits[i]? with
      | none => rfl
      | some w =>
        have hbits : (p.pollSet i).events ||| w.dir.bit = w.dir.bit := hall i w hw
        simp only [Option.map_some, Function.comp_apply, Nat.zero_add, hbits]
    rw [hplain]
    exact (List.reverse_perm p.registrations).map _

-- Neither the answer nor the dispatch touches the `events` of the slots.
theorem poll_events {s : Sched} {r : PollResponse} {out : Outcome (PollPoller × Sched)}
    (h : p.poll s r = some out) (i : Nat) :
    (out.state.1.pollSet i).events = (p.fillSlots.pollSet i).events := by
  unfold poll at h
  split at h
  · cases h
  · dsimp only at h
    split at h
    · obtain rfl := Option.some.inj h
      rfl
    · obtain rfl := Option.some.inj h
      rw [Outcome.state_map]
      change (if i < p.fillSlots.count then _ else p.fillSlots.pollSet i).events = _
      split <;> rfl

end PollPoller

namespace PollWorld

open Submission

/-- The slots hold the bits of all polls so far, and these were exact as far as they were
    compatible with one another. -/
structure Reused (w : PollWorld) : Prop where
  events : ∀ i, (w.poller.pollSet i).events = used w.submissions i
  exact_iff : (∀ c ∈ w.submissions, c.Exact) ↔ w.submissions.Pairwise Compatible

theorem Reused.poll {w : PollWorld} (h : w.Reused) {timeoutUsec : Int} {r : PollResponse}
    {out : Outcome (PollPoller × Sched)} (hpoll : w.poller.poll w.sched r = some out) :
    (w.afterPoll timeoutUsec out.state).Reused where
  events := by
    intro i
    change (out.state.1.pollSet i).events = used (w.submissions ++ [_]) i
    rw [PollPoller.poll_events hpoll, PollPoller.fillSlots_get, used_append, ← h.events]
    change _ = _ ||| (match w.poller.waits[i]? with
      | some v => v.dir.bit
      | none => 0)
    cases w.poller.waits[i]? with
    | none => exact BitVec.or_zero.symm
    | some v => rfl
  exact_iff := by
    change (∀ c ∈ w.submissions ++ [_], c.Exact) ↔ (w.submissions ++ [_]).Pairwise _
    rw [List.forall_mem_append, List.forall_mem_singleton, List.pairwise_append, h.exact_iff,
      PollPoller.exact_iff]
    have hcompat : (∀ i v, w.poller.waits[i]? = some v →
        Within (w.poller.pollSet i).events v.dir.bit) ↔
          ∀ a ∈ w.submissions, a.Compatible ⟨w.poller.call timeoutUsec, w.poller.toWaitSets⟩ := by
      simp only [h.events, within_used, compatible_iff]
      constructor
      · intro hall a ha i hi
        have hget := List.getElem?_eq_getElem hi
        have hbit : Submission.bitAt ⟨w.poller.call timeoutUsec, w.poller.toWaitSets⟩ i =
            (Submission.waits ⟨w.poller.call timeoutUsec, w.poller.toWaitSets⟩)[i].dir.bit := by
          unfold Submission.bitAt
          rw [hget]
        rw [hbit]
        exact hall i _ hget a ha
      · intro hall i v hv a ha
        have hlt := (List.getElem?_eq_some_iff.mp hv).1
        have hslot := hall a ha i hlt
        have hbit : Submission.bitAt ⟨w.poller.call timeoutUsec, w.poller.toWaitSets⟩ i =
            v.dir.bit := by
          unfold Submission.bitAt
          rw [show Submission.waits _ = w.poller.waits from rfl, hv]
        rwa [hbit] at hslot
    rw [hcompat]
    simp only [List.pairwise_singleton, List.mem_singleton, forall_eq, true_and]

theorem Reused.step {w w' : PollWorld} {op : PollOp} (h : w.Reused) (hstep : w.step op = some w') :
    w'.Reused := by
  cases op with
  | setWaitForRead fd c =>
    obtain rfl := Option.some.inj hstep
    exact ⟨h.events, h.exact_iff⟩
  | setWaitForWrite fd c =>
    obtain rfl := Option.some.inj hstep
    exact ⟨h.events, h.exact_iff⟩
  | poll timeoutUsec r =>
    rcases Option.map_eq_some_iff.mp hstep with ⟨out, hpoll, rfl⟩
    exact h.poll hpoll
  | others s =>
    obtain rfl := Option.some.inj hstep
    exact ⟨h.events, h.exact_iff⟩

theorem runs_reused {size : Nat} {s : Sched} {ops : List PollOp} {w : PollWorld}
    (run : Runs size s ops w) : w.Reused := by
  apply run.invariant fun _ _ _ h hstep => Reused.step h hstep
  exact ⟨fun _ => rfl, by simp [init]⟩

/-- Every poll of a history asked for exactly what was waited for if and only if no position of the
    array was used for reading in one poll and for writing in another. -/
theorem submissions_exact_iff {size : Nat} {s : Sched} {ops : List PollOp} {w : PollWorld}
    (run : Runs size s ops w) :
    (∀ c ∈ w.submissions, c.Exact) ↔
      ∀ a ∈ w.submissions, ∀ b ∈ w.submissions,
        a.sets.writeSet.size < b.sets.writeSet.size → a.sets.readSet.size = 0 := by
  rw [(runs_reused run).exact_iff]
  constructor
  · intro hpair a ha b hb
    exact (hpair.forall_of_forall (fun c _ => Compatible.refl c) ha hb).1
  · intro hall
    apply List.pairwise_of_forall_mem_list
    intro a ha b hb
    exact ⟨hall a ha b hb, hall b hb a ha⟩

/-- One reader is served, and then another one waits. -/
def readerAfterReader : List PollOp :=
  [.setWaitForRead 3 1, .poll 0 ⟨1, fun _ => pollin⟩, .setWaitForRead 4 2, .poll 0 ⟨0, fun _ => 0⟩]

theorem submissions_exact_readers :
    ∃ w, Runs 8 {} readerAfterReader w ∧ w.submissions.length = 2 ∧
      ∀ c ∈ w.submissions, c.Exact := by
  have hrun : Runs 8 {} readerAfterReader _ := Transition.run_of_exec rfl
  refine ⟨_, hrun, rfl, (submissions_exact_iff hrun).mpr ?_⟩
  decide

/-- One reader is served, and then a writer waits in the same slot. -/
def writerAfterReader : List PollOp :=
  [.setWaitForRead 3 1, .poll 0 ⟨1, fun _ => pollin⟩, .setWaitForWrite 4 2, .poll 0 ⟨0, fun _ => 0⟩]

theorem submissions_stale_bit :
    ∃ w, Runs 8 {} writerAfterReader w ∧
      w.submissions.map (fun c => c.call.fds.map fun slot => (slot.fd, slot.events)) =
        [[(3, pollin)], [(4, pollin ||| pollout)]] ∧
      ¬∀ c ∈ w.submissions, c.Exact := by
  have hrun : Runs 8 {} writerAfterReader _ := Transition.run_of_exec rfl
  refine ⟨_, hrun, by decide, ?_⟩
  decide

end PollWorld

end Coropp
