import Coropp.Tables

/-!
# Errors reported by `::poll`

`::poll` may set POLLERR, POLLHUP or POLLNVAL in a slot that asked for neither.  The dispatch of
`poll_poller` tests POLLIN and POLLOUT only, so such a waiter is woken when one of these two bits
happens to be there as well.
-/

namespace Coropp

open Transition Words

def pollerr : BitVec 16 := 0x08

def pollhup : BitVec 16 := 0x10

def pollnval : BitVec 16 := 0x20

/-- One of the bits that are reported without having been asked for. -/
def Failed (revents : BitVec 16) : Prop := revents &&& (pollerr ||| pollhup ||| pollnval) ≠ 0

instance (revents : BitVec 16) : Decidable (Failed revents) := inferInstanceAs (Decidable (_ ≠ _))

namespace PollPoller

/-! ## What the dispatch loop takes out -/

/-- The wait set that the dispatch of a slot looks into. -/
def direction (revents : BitVec 16) : Option Direction :=
  if revents &&& pollin ≠ 0 then some .read
  else if revents &&& pollout ≠ 0 then some .write
  else none

/-- The dispatch of a slot for `fd` with these `revents` looks for the wait `v`. -/
def Asks (slot : Fd × BitVec 16) (v : Wait) : Prop :=
  slot.1 = v.fd ∧ direction slot.2 = some v.dir

/-- One of the slots looks for `v`, and neither it nor one before it looks for a wait of a dead
    coroutine. -/
def Served (slots : List (Fd × BitVec 16)) (w : WaitSets) (s : Sched) (v : Wait) : Prop :=
  ∃ front slot back, slots = front ++ slot :: back ∧ Asks slot v ∧
    ∀ x ∈ front ++ [slot], ∀ u, w.Registered u → Asks x u → (s.coros u.co).dead = false

variable {w : WaitSets} {s : Sched} {v : Wait}

theorem served_nil : ¬Served [] w s v := by
  rintro ⟨front, slot, back, heq, -⟩
  simp at heq

theorem served_cons {slot : Fd × BitVec 16} {slots : List (Fd × BitVec 16)} :
    Served (slot :: slots) w s v ↔
      (∀ u, w.Registered u → Asks slot u → (s.coros u.co).dead = false) ∧
        (Asks slot v ∨ Served slots w s v) := by
  constructor
  · rintro ⟨front, x, back, heq, hasks, halive⟩
    cases front with
    | nil =>
      rcases List.cons.inj heq with ⟨rfl, rfl⟩
      exact ⟨halive slot (.head _), .inl hasks⟩
    | cons y front =>
      rcases List.cons.inj heq with ⟨rfl, rfl⟩
      exact ⟨halive slot (.head _),
        .inr ⟨front, x, back, rfl, hasks, fun z hz => halive z (.tail _ hz)⟩⟩
  · rintro ⟨hslot, hasks | ⟨front, x, back, rfl, hasks, halive⟩⟩
    · exact ⟨[], slot, slots, rfl, hasks, fun x hx => List.mem_singleton.mp hx ▸ hslot⟩
    · exact ⟨slot :: front, x, back, rfl, hasks, List.forall_mem_cons.mpr ⟨hslot, halive⟩⟩

-- Only the waits of dead coroutines matter, besides `v`.
theorem served_congr {w' : WaitSets} {s' : Sched} {slots : List (Fd × BitVec 16)}
    (h : ∀ u, (w.Registered u ∧ (s.coros u.co).dead = true) ↔
      (w'.Registered u ∧ (s'.coros u.co).dead = true)) :
    Served slots w s v ↔ Served slots w' s' v := by
  have halive : ∀ x : Fd × BitVec 16,
      (∀ u, w.Registered u → Asks x u → (s.coros u.co).dead = false) ↔
        ∀ u, w'.Registered u → Asks x u → (s'.coros u.co).dead = false := by
    intro x
    constructor
    · intro hall u hu hasks
      by_contra hdead
      have hw := (h u).mpr ⟨hu, by simpa using hdead⟩
      rw [hall u hw.1 hasks] at hw
      cases hw.2
    · intro hall u hu hasks
      by_contra hdead
      have hw := (h u).mp ⟨hu, by simpa using hdead⟩
      rw [hall u hw.1 hasks] at hw
      cases hw.2
  unfold Served
  simp only [halive]

theorem dispatchSlot_eq (slot : Pollfd) (w : WaitSets) (s : Sched) :
    dispatchSlot slot w s =
      match direction slot.revents with
      | some dir => w.wake s dir slot.fd
      | none => .returned (w, s) := by
  unfold dispatchSlot direction
  split
  · rfl
  · split <;> rfl

-- A dispatch registers nobody.
theorem dispatch_registered {slots : List Pollfd} {n : Nat}
    (h : (dispatch slots n (w, s)).state.1.Registered v) : w.Registered v := by
  rcases dispatch_moves slots n w s with ⟨woken, w', hmoves⟩
  rw [hmoves.left, ← WaitSets.mem_registrations] at h
  rw [← WaitSets.mem_registrations]
  exact hmoves.1.mem_iff.mpr (List.mem_append_right _ h)

-- A slot looks for one registration at most.
theorem Asks.unique {slot : Fd × BitVec 16} {u u' : Wait} (h : Asks slot u) (h' : Asks slot u')
    (hu : w.Registered u) (hu' : w.Registered u') : u = u' := by
  have hdir : u.dir = u'.dir := Option.some.inj (h.2.symm.trans h'.2)
  have hfd : u.fd = u'.fd := h.1.symm.trans h'.1
  exact hu.eq_of_key hu' hdir hfd

theorem dispatchSlot_unasked {slot : Pollfd}
    (hnot : ∀ u, w.Registered u → ¬Asks (slot.fd, slot.revents) u) (s : Sched) :
    dispatchSlot slot w s = .returned (w, s) := by
  rw [dispatchSlot_eq]
  cases hdir : direction slot.revents with
  | none => rfl
  | some dir =>
    dsimp only
    cases hreg : (w.waitSet dir)[slot.fd]? with
    | none => simp only [WaitSets.wake, hreg]
    | some co => exact absurd ⟨rfl, hdir⟩ (hnot ⟨dir, slot.fd, co⟩ hreg)

theorem dispatchSlot_asked {slot : Pollfd} {u : Wait} (h : Asks (slot.fd, slot.revents) u)
    (w : WaitSets) (s : Sched) : dispatchSlot slot w s = w.wake s u.dir u.fd := by
  have hfd : slot.fd = u.fd := h.1
  have hdir : direction slot.revents = some u.dir := h.2
  rw [dispatchSlot_eq, hdir, hfd]

theorem served_unasked {slot : Fd × BitVec 16} {slots : List (Fd × BitVec 16)}
    (hnot : ∀ u, w.Registered u → ¬Asks slot u) (hv : w.Registered v) :
    Served (slot :: slots) w s v ↔ Served slots w s v := by
  rw [served_cons, or_iff_right (hnot v hv)]
  exact and_iff_right fun u hu hasks => absurd hasks (hnot u hu)

theorem served_asked {slot : Fd × BitVec 16} {slots : List (Fd × BitVec 16)} {u : Wait}
    (hu : w.Registered u) (hasks : Asks slot u) :
    Served (slot :: slots) w s v ↔
      (s.coros u.co).dead = false ∧ (Asks slot v ∨ Served slots w s v) := by
  rw [served_cons]
  apply and_congr_left
  intro _
  constructor
  · exact fun hall => hall u hu hasks
  · intro halive u' hu' hasks'
    rw [hasks'.unique hasks hu' hu]
    exact halive

-- A wait under another key is served after the wake-up of `u` as before it.
theorem served_woken {slots : List (Fd × BitVec 16)} {u : Wait} (hu : w.Registered u)
    (halive : (s.coros u.co).dead = false) (entries : List PendingEntry) :
    Served slots (w.erase u.dir u.fd) (s.push entries) v ↔ Served slots w s v := by
  apply served_congr
  intro x
  rw [WaitSets.registered_erase]
  constructor
  · exact fun h => ⟨h.1.1, h.2⟩
  · rintro ⟨hx, hdead⟩
    refine ⟨⟨hx, fun hkey => ?_⟩, hdead⟩
    rw [hx.eq_of_key hu hkey.1 hkey.2, halive] at hdead
    cases hdead

/-- What the loop takes out: a registered wait is gone if and only if one of the slots looked at has
    served it. -/
theorem dispatch_removes {slots : List Pollfd} {n : Nat} (hv : w.Registered v) :
    ¬(dispatch slots n (w, s)).state.1.Registered v ↔
      Served ((slots.take n).map fun slot => (slot.fd, slot.revents)) w s v := by
  induction slots generalizing n w s with
  | nil =>
    rw [List.take_nil]
    exact iff_of_false (not_not_intro hv) served_nil
  | cons slot slots ih =>
    cases n with
    | zero => exact iff_of_false (not_not_intro hv) served_nil
    | succ n =>
      rw [dispatch, List.take_succ_cons, List.map_cons]
      by_cases hasked : ∃ u, w.Registered u ∧ Asks (slot.fd, slot.revents) u
      · rcases hasked with ⟨u, hu, hasks⟩
        rw [dispatchSlot_asked hasks, served_asked hu hasks]
        cases hd : (s.coros u.co).dead with
        | true =>
          have hraise : w.wake s u.dir u.fd = .deadCoro u.co (w, (s.raise u.co).state) := by
            have hreg : (w.waitSet u.dir)[u.fd]? = some u.co := hu
            simp only [WaitSets.wake, hreg, Sched.schedule_dead hd, Sched.raise,
              Outcome.state_deadCoro]
          rw [hraise, Outcome.bind_deadCoro]
          exact iff_of_false (not_not_intro hv) (by simp)
        | false =>
          rw [WaitSets.wake_alive hu hd, Outcome.bind_returned, eq_self, true_and]
          by_cases hkey : v.dir = u.dir ∧ v.fd = u.fd
          · rw [hv.eq_of_key hu hkey.1 hkey.2]
            refine iff_of_true (fun hleft => ?_) (.inl hasks)
            exact (WaitSets.registered_erase.mp (dispatch_registered hleft)).2 ⟨rfl, rfl⟩
          · have hother : ¬Asks (slot.fd, slot.revents) v := by
              intro hasks'
              obtain rfl := hasks'.unique hasks hv hu
              exact hkey ⟨rfl, rfl⟩
            rw [ih (WaitSets.registered_erase.mpr ⟨hv, hkey⟩), or_iff_right hother]
            exact served_woken hu hd _
      · have hnot : ∀ u, w.Registered u → ¬Asks (slot.fd, slot.revents) u :=
          fun u hu hasks => hasked ⟨u, hu, hasks⟩
        rw [dispatchSlot_unasked hnot, Outcome.bind_returned, ih hv, served_unasked hnot hv]

/-! ## One call of `poll` -/

/-- The slots as the loop finds them: their descriptors and `revents`. -/
def answers (p : PollPoller) (r : PollResponse) : List (Fd × BitVec 16) :=
  p.waits.zipIdx.map fun q => (q.1.fd, r.revents q.2)

/-- The waits whose slots report an error. -/
def failed (p : PollPoller) (r : PollResponse) : List Wait :=
  if r.result < 0 then [] else (p.waits.zipIdx.filter fun q => Failed (r.revents q.2)).map Prod.fst

/-- In one call of `poll`, every wait that failed is taken out and scheduled. -/
def WakesFailed (p : PollPoller) (s : Sched) (r : PollResponse) : Prop :=
  ∃ out, p.poll s r = some out ∧ (∀ v ∈ p.failed r, ¬out.state.1.Registered v) ∧
    ((p.failed r).map Wait.entry).Subperm
      (out.state.2.hist.accepted.drop s.hist.accepted.length)

variable {p : PollPoller} {r : PollResponse}

theorem failed_sublist (p : PollPoller) (r : PollResponse) : (p.failed r).Sublist p.waits := by
  unfold failed
  split
  · exact List.nil_sublist _
  · have h := (List.filter_sublist (p := fun q : Wait × Nat => decide (Failed (r.revents q.2)))
      (l := p.waits.zipIdx)).map Prod.fst
    rwa [List.zipIdx_map_fst] at h

theorem failed_registered (h : v ∈ p.failed r) : p.Registered v :=
  mem_waits.mp ((p.failed_sublist r).subset h)

theorem failed_nodup (p : PollPoller) (r : PollResponse) : (p.failed r).Nodup := by
  apply (p.waits_keys_ne.sublist (p.failed_sublist r)).imp
  rintro a b hne rfl
  exact hne ⟨rfl, rfl⟩

-- What is taken out is scheduled, so that only the taking out counts.
theorem subperm_of_removed {out : Outcome (PollPoller × Sched)} (h : p.poll s r = some out)
    (hout : ∀ v ∈ p.failed r, ¬out.state.1.Registered v) :
    ((p.failed r).map Wait.entry).Subperm
      (out.state.2.hist.accepted.drop s.hist.accepted.length) := by
  rcases poll_moves h with ⟨woken, w', hmoves⟩
  have hleft := hmoves.left
  have haccepted := hmoves.accepted
  rw [Outcome.state_map] at hleft haccepted
  rw [haccepted, List.drop_left]
  have hsub : p.failed r ⊆ woken := by
    intro v hv
    have hreg := WaitSets.mem_registrations.mpr (failed_registered hv)
    rcases List.mem_append.mp (hmoves.1.mem_iff.mp hreg) with hin | hin
    · exact hin
    · rw [← hleft] at hin
      exact absurd (WaitSets.mem_registrations.mp hin) (hout v hv)
  rcases List.subperm_of_subset (p.failed_nodup r) hsub with ⟨l, hperm, hl⟩
  exact ⟨l.map Wait.entry, hperm.map _, hl.map _⟩

theorem answers_eq (p : PollPoller) (r : PollResponse) :
    (window (p.fillSlots.respond r).pollSet 0 (p.fillSlots.respond r).count).map
      (fun slot => (slot.fd, slot.revents)) = p.answers r := by
  rw [window_respond, List.map_map]
  rfl

-- Where `::poll` succeeds, a wait is taken out exactly when it is served.
theorem poll_removes (hsize : p.count ≤ p.size) (hres : ¬r.result < 0) (s : Sched) :
    ∃ out, p.poll s r = some out ∧ ∀ v, p.Registered v →
      (¬out.state.1.Registered v ↔
        Served ((p.answers r).take r.result.toNat) p.toWaitSets s v) := by
  rw [poll, if_neg (by omega)]
  dsimp only
  rw [if_neg hres]
  refine ⟨_, rfl, fun v hv => ?_⟩
  rw [Outcome.state_map, ← answers_eq, ← List.map_take]
  exact dispatch_removes hv

/-- One call of `poll` wakes the waits that failed if and only if the array has room for all waits,
    and the loop serves each of them while it looks at the first slots. -/
theorem wakesFailed_iff (p : PollPoller) (s : Sched) (r : PollResponse) :
    p.WakesFailed s r ↔ p.count ≤ p.size ∧
      ∀ v ∈ p.failed r, Served ((p.answers r).take r.result.toNat) p.toWaitSets s v := by
  unfold WakesFailed
  by_cases hsize : p.count ≤ p.size
  · rw [and_iff_right hsize]
    by_cases hres : r.result < 0
    · -- "poll() failed"
      have hfailed : p.failed r = [] := if_pos hres
      have hpoll : p.poll s r = some (.returned (p.fillSlots, s)) := by
        rw [poll, if_neg (by omega)]
        exact if_pos hres
      rw [hfailed, hpoll]
      simp
    · rcases poll_removes hsize hres s with ⟨out, hpoll, hout⟩
      constructor
      · rintro ⟨out', hout', hremoved, -⟩ v hv
        obtain rfl := Option.some.inj (hpoll.symm.trans hout')
        exact (hout v (failed_registered hv)).mp (hremoved v hv)
      · intro hall
        have hremoved : ∀ v ∈ p.failed r, ¬out.state.1.Registered v :=
          fun v hv => (hout v (failed_registered hv)).mpr (hall v hv)
        exact ⟨out, hpoll, hremoved, subperm_of_removed hpoll hremoved⟩
  · have hnone : p.poll s r = none := by
      rw [poll, if_pos (by omega)]
    rw [hnone]
    refine iff_of_false ?_ fun h => hsize h.1
    rintro ⟨out, hout, -⟩
    cases hout

end PollPoller

/-! ## Runs -/

namespace PollProgram

variable {w w' : PollProgram}

/-- The wait `v` is not polled for again until somebody waits on its descriptor again. -/
def NotPolledAgain (w : PollProgram) (v : Wait) : Prop :=
  ∀ acts w', Run (ofFun step) w acts w' → .waitFor v.dir v.fd ∉ acts →
    ∀ p co, w'.poller = .pollPoller p → ¬p.Registered ⟨v.dir, v.fd, co⟩

/-- The act is no poll of a `poll_poller`, or wakes every wait that failed. -/
def WakesFailed (w : PollProgram) (a : PollAct) (w' : PollProgram) : Prop :=
  match w.poller, a with
  | .pollPoller p, .poll _ _ _ (.poll r) =>
    p.WakesFailed w.sched r ∧ ∀ v ∈ p.failed r, w'.NotPolledAgain v
  | _, _ => True

/-- The act is no poll of a `poll_poller`, or the dispatch loop serves every wait that failed. -/
def ServesFailed (w : PollProgram) (a : PollAct) : Prop :=
  match w.poller, a with
  | .pollPoller p, .poll _ _ _ (.poll r) =>
    p.count ≤ p.size ∧
      ∀ v ∈ p.failed r, PollPoller.Served ((p.answers r).take r.result.toNat) p.toWaitSets w.sched v
  | _, _ => True

/-- Nobody waits under the key of `v`. -/
def Absent (p : AnyPoller) (v : Wait) : Prop :=
  match p with
  | .pollPoller p => ∀ co, ¬p.Registered ⟨v.dir, v.fd, co⟩
  | _ => True

theorem absent_setWaitFor {p : AnyPoller} {v : Wait} (h : Absent p v) {dir : Direction} {fd : Fd}
    (hkey : ¬(v.dir = dir ∧ v.fd = fd)) (c : CoroId) :
    Absent ((p.setWaitFor dir fd c).getD p) v := by
  cases hset : p.setWaitFor dir fd c with
  | none => exact h
  | some p' =>
    change Absent p' v
    rcases AnyPoller.setWaitFor_cases hset with ⟨q, rfl, rfl⟩ | ⟨q, -, rfl⟩ | ⟨q, k, ke, q', -, -, rfl⟩
    · intro co hco
      change (q.setWaitFor dir fd c).Registered _ at hco
      rw [WaitSets.registered_setWaitFor, if_neg hkey] at hco
      exact h co hco
    · trivial
    · trivial

-- A poll registers nobody.
theorem absent_poll {p p' : AnyPoller} {v : Wait} (h : Absent p v) {s s' : Sched}
    {timeoutUsec : Int} {a : PollAnswer} {e : PollEnd}
    (hpoll : p.poll s timeoutUsec a = some (p', s', e)) : Absent p' v := by
  rcases AnyPoller.poll_cases hpoll with ⟨q, r, out, rfl, rfl, hout, rfl⟩ |
    ⟨q, r, turns, out, -, -, -, rfl⟩ | ⟨q, k, b, out, -, -, -, rfl⟩
  · exact fun co hco => h co (PollPoller.poll_registered hout hco)
  · trivial
  · trivial

-- Only a wait on its descriptor brings a key back.
theorem absent_step {v : Wait} {a : PollAct} (h : Absent w.poller v) (hstep : w.step a = some w')
    (ha : a ≠ .waitFor v.dir v.fd) : Absent w'.poller v := by
  cases a with
  | machine a =>
    rcases step_machine hstep with ⟨-, m, -, rfl⟩
    exact h
  | waitFor dir fd =>
    rcases step_waitFor hstep with ⟨i, me, -, -, rfl⟩
    apply absent_setWaitFor h
    rintro ⟨rfl, rfl⟩
    exact ha rfl
  | setSignalHandler signum f =>
    rcases step_setSignalHandler hstep with ⟨p, k, hp, rfl⟩
    change Absent (Option.getD _ w.poller) v
    cases hset : p.setSignalHandler signum f with
    | none => exact h
    | some q => trivial
  | poll rule tv timeoutUsec a =>
    rcases step_poll hstep with ⟨-, -, ⟨-, -, heq⟩ | ⟨-, p, s, e, hpoll, rfl, -⟩⟩
    · rw [heq]
      exact h
    · exact absent_poll h hpoll

theorem notPolledAgain_of_absent {v : Wait} (h : Absent w.poller v) : w.NotPolledAgain v := by
  intro acts w' run hacts p co hp
  have hend : Absent w'.poller v := by
    apply run.invariant_of_labels (Q := fun a => a ≠ .waitFor v.dir v.fd) ?_ ?_ h
    · exact fun _ _ _ h ha hstep => absent_step h hstep ha
    · rintro a ha rfl
      exact hacts ha
  rw [hp] at hend
  exact hend co

-- A wait that a poll has taken out has left its key to nobody.
theorem absent_of_removed {p : PollPoller} {s : Sched} {r : PollResponse}
    {out : Outcome (PollPoller × Sched)} (h : p.poll s r = some out) {v : Wait}
    (hv : p.Registered v) (hout : ¬out.state.1.Registered v) :
    Absent (.pollPoller out.state.1) v := by
  intro co hco
  have hreg := PollPoller.poll_registered h hco
  rw [hreg.eq_of_key hv rfl rfl] at hco
  exact hout hco

theorem step_wakesFailed {a : PollAct} (hstep : w.step a = some w') :
    w.WakesFailed a w' ↔ w.ServesFailed a := by
  unfold WakesFailed ServesFailed
  cases hp : w.poller with
  | selectPoller p => exact Iff.rfl
  | kqueuePoller p k => exact Iff.rfl
  | pollPoller p =>
    cases a with
    | machine a => exact Iff.rfl
    | waitFor dir fd => exact Iff.rfl
    | setSignalHandler signum f => exact Iff.rfl
    | poll rule tv timeoutUsec a =>
      cases a with
      | select r turns => exact Iff.rfl
      | kevent a => exact Iff.rfl
      | poll r =>
        dsimp only
        rw [← PollPoller.wakesFailed_iff]
        refine and_iff_left_of_imp fun hwakes v hv => ?_
        rcases hwakes with ⟨out, hout, hremoved, -⟩
        rcases step_poll hstep with ⟨-, -, ⟨⟨x, hx, hnot⟩, -, -⟩ | ⟨-, q, s, e, hpoll, hq, -⟩⟩
        · -- a poll that returns has room for all waits
          have hroom : p.registrations.length ≤ p.size := by
            rw [p.length_registrations]
            by_contra hlt
            rw [PollPoller.poll, if_pos (by omega)] at hout
            cases hout
          rw [hp] at hx
          exact absurd (p.slots_inside_iff.mpr hroom x hx) hnot
        · apply notPolledAgain_of_absent
          rw [hq]
          rw [hp] at hpoll
          rcases Option.map_eq_some_iff.mp hpoll with ⟨out', hout', heq⟩
          obtain rfl : AnyPoller.pollPoller out'.state.1 = q := congrArg Prod.fst heq
          obtain rfl := Option.some.inj (hout.symm.trans hout')
          exact absent_of_removed hout (PollPoller.failed_registered hv) (hremoved v hv)

/-- In every run, each poll of a `poll_poller` wakes every wait that failed, and no such wait is
    polled for again as it was, if and only if each poll finds room for all waits and serves every
    wait that failed while it looks at the first slots. -/
theorem failed_woken_iff (args : PollerArgs) (acts : List PollAct) :
    (∀ pre a w w', pre ++ [a] <+: acts → Runs args pre w → w.step a = some w' →
        w.WakesFailed a w') ↔
      ∀ pre a w w', pre ++ [a] <+: acts → Runs args pre w → w.step a = some w' →
        w.ServesFailed a := by
  constructor
  · intro hall pre a w w' hpre run hstep
    exact (step_wakesFailed hstep).mp (hall pre a w w' hpre run hstep)
  · intro hall pre a w w' hpre run hstep
    exact (step_wakesFailed hstep).mpr (hall pre a w w' hpre run hstep)

/-- Coroutine 1 waits to read from descriptor 3, which is closed by then. -/
def waitsOnClosed : List PollAct :=
  let tv : Timeval := ⟨0, 0⟩
  [.machine (.call (.schedule 1 0)), .machine (.enter .first tv), .machine .test,
    .machine (.next .first tv), .waitFor .read 3, .machine (.next .first tv), .machine .test]

/-- `::poll` reports POLLNVAL, nobody is scheduled, and `event_loop` polls for the same again. -/
theorem pollnval_ignored :
    ∃ w w' w'',
      Runs (.pollPoller 8 fun _ => ⟨0, 0, 0⟩) waitsOnClosed w ∧
      w.step (.poll .first ⟨0, 0⟩ 0 (.poll ⟨1, fun _ => pollnval⟩)) = some w' ∧
      w'.step (.machine .test) = some w'' ∧ w''.pc = .polling ∧ w''.sched.pending = [] ∧
      ¬w.WakesFailed (.poll .first ⟨0, 0⟩ 0 (.poll ⟨1, fun _ => pollnval⟩)) w' := by
  refine ⟨_, _, _, run_of_exec rfl, rfl, rfl, rfl, rfl, ?_⟩
  rintro ⟨-, hagain⟩
  have hfailed : (⟨.read, 3, 1⟩ : Wait) ∈
      ((({ pollSet := fun _ => ⟨0, 0, 0⟩, size := 8 } : PollPoller).setWaitForRead 3 1).failed
        ⟨1, fun _ => pollnval⟩) := by decide
  exact hagain _ hfailed [] _ .nil List.not_mem_nil _ 1 rfl rfl

end PollProgram

end Coropp
