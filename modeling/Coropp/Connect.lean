import Coropp.PollErrors
import Coropp.Write

/-!
# `coro_socket::connect`

A connection that is not made at once is waited for: the descriptor can be written when the attempt
is over, whichever way it has gone.  `connect` does not ask which; only `kqueue_poller` brings an error
back, as the value that its waiter is scheduled with.
-/

namespace Coropp

open Transition

/-- `EINPROGRESS`. -/
def einprogress : Errno := 115

/-- How `::connect` ends: with 0, or with -1 and an `errno`. -/
inductive ConnectAnswer where
  | success
  | failed (errno : Errno)
deriving DecidableEq, Repr

/-- How the connection attempt stands. -/
inductive Attempt where
  | inProgress
  | established
  | failed (errno : Errno)
deriving DecidableEq, Repr

/-- Where a call of `connect` is: at `::connect`, in `wait_for_write`, or over. -/
inductive ConnectPc where
  | connecting
  | waiting
  | returned
  | threw (e : OSError)
deriving DecidableEq, Repr

/-- A call of `connect`.  `attempt` is the kernel's; `since` is the number of reports that the poller
    had got when the call began to wait. -/
structure ConnectCall where
  fd : Fd
  pc : ConnectPc := .connecting
  attempt : Attempt := .inProgress
  since : Nat := 0
deriving DecidableEq, Repr

/-- `int error = (uintptr_t) c->yield ()`. -/
def waitError (value : Arg) : Int := (BitVec.ofNat 32 value).toInt

namespace ConnectCall

def underWay (c : ConnectCall) : Bool := c.pc = .connecting ∨ c.pc = .waiting

/-- `::connect (_fd, addr, length_ptr)` ends with `a`. -/
def answered (c : ConnectCall) (since : Nat) (a : ConnectAnswer) : ConnectCall :=
  match a with
  | .success => { c with pc := .returned, attempt := .established }
  | .failed errno =>
    if errno = ewouldblock then { c with pc := .waiting, since := since }
    else if errno = einprogress then { c with pc := .waiting, since := since }
    else { c with pc := .threw ⟨"connect", errno⟩, attempt := .failed errno }

/-- The `yield` of the wait returns `value`, which only `kqueue_poller` looks at. -/
def woken (c : ConnectCall) (isKqueue : Bool) (value : Arg) : ConnectCall :=
  if isKqueue then
    if waitError value ≠ 0 then { c with pc := .threw ⟨"wait_for_write", waitError value⟩ }
    else { c with pc := .returned }
  else { c with pc := .returned }

/-- The call returns normally only if the connection has been established; otherwise it ends with an
    `OS_Error`. -/
def Reports (c : ConnectCall) : Prop := c.pc = .returned → c.attempt = .established

instance (c : ConnectCall) : Decidable c.Reports := inferInstanceAs (Decidable (_ → _))

end ConnectCall

/-- What an answer says of descriptors that are waited for: that they can be written, or that they
    have failed, each with the value that its waiter is to be scheduled with. -/
def AnyPoller.writeReports (p : AnyPoller) (a : PollAnswer) : List (Fd × Arg) :=
  match p, a with
  | pollPoller p, .poll r =>
    if r.result < 0 then []
    else
      ((p.answers r).filter fun x => x.2 &&& (pollout ||| pollerr ||| pollhup) ≠ 0).map
        fun x => (x.1, 0)
  | selectPoller p, .select r _ =>
    if r.result < 0 then [] else (p.writeSet.keys.filter r.writefds).map fun fd => (fd, 0)
  | kqueuePoller _ _, .kevent (.events ns) =>
    (ns.filter fun n => n.filter = .write).map fun n =>
      (n.ident, KqueuePoller.waiterArg ⟨n.ident, n.filter, n.flags, n.fflags, n.data, .coro 0⟩)
  | _, _ => []

/-- A descriptor is reported once the attempt is over.  A failure is then found pending on it, and
    `kevent` passes it on: `EV_EOF`, with the error in `fflags`. -/
def Attempt.Agrees (isKqueue : Bool) (value : Arg) : Attempt → Prop
  | inProgress => False
  | established => True
  | failed _ => isKqueue = true → value ≠ 0

instance (isKqueue : Bool) (value : Arg) : (a : Attempt) → Decidable (a.Agrees isKqueue value)
  | .inProgress => .isFalse id
  | .established => .isTrue trivial
  | .failed _ => inferInstanceAs (Decidable (_ → _))

/-! ## The program -/

/-- Each coroutine with the last call of `connect` it has made.  `heard` is a history variable: what
    the answers have said of the descriptors. -/
structure ConnectProgram extends PollProgram where
  calls : Std.TreeMap CoroId ConnectCall := {}
  heard : List (Fd × Arg) := []

inductive ConnectAct where
  /-- Everything else: other coroutines, the event loop, and what a coroutine does between two
      calls of `connect`. -/
  | program (a : PollAct)
  /-- The running coroutine calls `connect`. -/
  | connect (fd : Fd)
  /-- Its `::connect` answers. -/
  | answer (a : ConnectAnswer)
  /-- The attempt that the call of `me` waits for comes to its end. -/
  | settle (me : CoroId) (attempt : Attempt)
  /-- The running coroutine is back in `wait_for_write`. -/
  | wakeUp

namespace ConnectProgram

/-- The call that the running coroutine is in. -/
def active (w : ConnectProgram) : Option (CoroId × ConnectCall) :=
  match w.pc, w.sched.current with
  | .inside _, some me =>
    match w.calls[me]? with
    | some c => if c.underWay then some (me, c) else none
    | none => none
  | _, _ => none

def setCall (w : ConnectProgram) (me : CoroId) (c : ConnectCall) : ConnectProgram :=
  { w with calls := w.calls.insert me c }

def withProgram (w : ConnectProgram) (p : PollProgram) : ConnectProgram :=
  { w with toPollProgram := p }

/-- What the poller hears in a step. -/
def reports (w : ConnectProgram) : PollAct → List (Fd × Arg)
  | .poll _ _ _ a => w.poller.writeReports a
  | _ => []

/-- What is said of the descriptor of a call that waits agrees with its attempt. -/
def Truthful (w : ConnectProgram) (reports : List (Fd × Arg)) : Prop :=
  ∀ x ∈ reports, ∀ y ∈ w.calls.toList, y.2.pc = .waiting → y.2.fd = x.1 →
    y.2.attempt.Agrees w.poller.isKqueue x.2

instance (w : ConnectProgram) (reports : List (Fd × Arg)) : Decidable (w.Truthful reports) :=
  inferInstanceAs (Decidable (∀ x ∈ reports, ∀ y ∈ w.calls.toList, _ → _ → _))

def step (w : ConnectProgram) : ConnectAct → Option ConnectProgram
  | .program a =>
    if w.active.isSome then none
    else if w.Truthful (w.reports a) then
      (w.toPollProgram.step a).map fun p =>
        { w with toPollProgram := p, heard := w.heard ++ w.reports a }
    else none
  | .connect fd =>
    match w.pc, w.sched.current with
    | .inside _, some me => if w.active.isSome then none else some (w.setCall me { fd := fd })
    | _, _ => none
  | .answer a =>
    match w.active with
    | some (me, c) =>
      if c.pc = .connecting then
        let w' := w.setCall me (c.answered w.heard.length a)
        if (c.answered w.heard.length a).pc = .waiting then
          (w.toPollProgram.step (.waitFor .write c.fd)).map w'.withProgram
        else some w'
      else none
    | none => none
  | .settle me attempt =>
    match w.calls[me]? with
    | some c =>
      if c.pc = .waiting ∧ c.attempt = .inProgress ∧ attempt ≠ .inProgress then
        some (w.setCall me { c with attempt := attempt })
      else none
    | none => none
  | .wakeUp =>
    match w.active with
    | some (me, c) =>
      if c.pc = .waiting then
        some (w.setCall me (c.woken w.poller.isKqueue w.sched.yieldResult))
      else none
    | none => none

def Runs (args : PollerArgs) (acts : List ConnectAct) (w : ConnectProgram) : Prop :=
  Run (ofFun step) { poller := .create args } acts w

/-- Since the call waits, the poller has heard of its descriptor, with this value for the waiter. -/
def Told (w : ConnectProgram) (c : ConnectCall) (value : Arg) : Prop :=
  (c.fd, value) ∈ w.heard.drop c.since

instance (w : ConnectProgram) (c : ConnectCall) (value : Arg) : Decidable (w.Told c value) :=
  inferInstanceAs (Decidable (_ ∈ _))

def Reports (w : ConnectProgram) : Prop :=
  ∀ (me : CoroId) (c : ConnectCall), w.calls[me]? = some c → c.Reports

/-- A call that waits goes on with what the poller has heard of its descriptor, and then the attempt
    has not failed unless a `kqueue_poller` is installed; or something else has scheduled its
    coroutine, and then the connection is established all the same, or a `kqueue_poller` takes the
    value for an error. -/
def Plain (w : ConnectProgram) : ConnectAct → Prop
  | .wakeUp =>
    ∀ me c, w.active = some (me, c) →
      if w.Told c w.sched.yieldResult then
        ∀ errno, c.attempt = .failed errno → w.poller.isKqueue = true
      else c.attempt = .established ∨ w.poller.isKqueue = true ∧ waitError w.sched.yieldResult ≠ 0
  | _ => True

end ConnectProgram

/-! ## One call -/

theorem waitError_ne_zero {value : Arg} (hpos : value ≠ 0) (hlt : value < 0x100000000) :
    waitError value ≠ 0 := by
  intro hzero
  have hbits : BitVec.ofNat 32 value = 0 := BitVec.eq_of_toInt_eq (hzero.trans (by decide))
  have hnat := congrArg BitVec.toNat hbits
  rw [BitVec.toNat_ofNat, Nat.mod_eq_of_lt hlt] at hnat
  exact hpos hnat

-- Every value reported fits into the `int`.
theorem AnyPoller.writeReports_lt {p : AnyPoller} {a : PollAnswer} {x : Fd × Arg}
    (h : x ∈ p.writeReports a) : x.2 < 0x100000000 := by
  unfold writeReports at h
  split at h
  · split at h
    · cases h
    · rcases List.mem_map.mp h with ⟨y, -, rfl⟩
      exact Nat.zero_lt_succ _
  · split at h
    · cases h
    · rcases List.mem_map.mp h with ⟨fd, -, rfl⟩
      exact Nat.zero_lt_succ _
  · rcases List.mem_map.mp h with ⟨n, -, rfl⟩
    unfold KqueuePoller.waiterArg
    dsimp only
    split
    · exact n.fflags.isLt
    · decide
  · cases h

namespace ConnectCall

variable {c : ConnectCall}

theorem answered_reports (since : Nat) (a : ConnectAnswer) : (c.answered since a).Reports := by
  intro hpc
  unfold answered at hpc ⊢
  cases a with
  | success => rfl
  | failed errno =>
    dsimp only at hpc
    split at hpc
    · cases hpc
    · split at hpc <;> cases hpc

-- A call that begins to wait is otherwise as it was.
theorem answered_waits {since : Nat} {a : ConnectAnswer} (hpc : (c.answered since a).pc = .waiting) :
    c.answered since a = { c with pc := .waiting, since := since } := by
  unfold answered at hpc ⊢
  cases a with
  | success => cases hpc
  | failed errno =>
    dsimp only at hpc ⊢
    split
    · rfl
    · rename_i hblock
      rw [if_neg hblock] at hpc
      split
      · rfl
      · rename_i hprogress
        rw [if_neg hprogress] at hpc
        cases hpc

theorem answered_moves (since : Nat) (a : ConnectAnswer) : (c.answered since a).pc ≠ .connecting := by
  intro hpc
  unfold answered at hpc
  cases a with
  | success => cases hpc
  | failed errno =>
    dsimp only at hpc
    split at hpc
    · cases hpc
    · split at hpc <;> cases hpc

theorem woken_moves (isKqueue : Bool) (value : Arg) : (c.woken isKqueue value).pc ≠ .connecting := by
  intro hpc
  unfold woken at hpc
  split at hpc
  · split at hpc <;> cases hpc
  · cases hpc

theorem woken_over (isKqueue : Bool) (value : Arg) : (c.woken isKqueue value).pc ≠ .waiting := by
  intro hpc
  unfold woken at hpc
  split at hpc
  · split at hpc <;> cases hpc
  · cases hpc

theorem woken_pc_returned {isKqueue : Bool} {value : Arg} :
    (c.woken isKqueue value).pc = .returned ↔ ¬(isKqueue = true ∧ waitError value ≠ 0) := by
  unfold woken
  split
  · rename_i hk
    split
    · rename_i hne
      exact iff_of_false (fun hpc => nomatch hpc) fun hnot => hnot ⟨hk, hne⟩
    · rename_i hzero
      exact iff_of_true rfl fun h => hzero h.2
  · rename_i hk
    exact iff_of_true rfl fun h => hk h.1

theorem woken_attempt (isKqueue : Bool) (value : Arg) :
    (c.woken isKqueue value).attempt = c.attempt := by
  unfold woken
  split
  · split <;> rfl
  · rfl

theorem woken_reports_iff {isKqueue : Bool} {value : Arg} :
    (c.woken isKqueue value).Reports ↔
      c.attempt = .established ∨ isKqueue = true ∧ waitError value ≠ 0 := by
  unfold Reports
  rw [woken_pc_returned, woken_attempt]
  constructor
  · intro h
    by_cases herror : isKqueue = true ∧ waitError value ≠ 0
    · exact .inr herror
    · exact .inl (h herror)
  · rintro (hest | herror)
    · exact fun _ => hest
    · exact fun hnot => absurd herror hnot

end ConnectCall

/-! ## Runs -/

namespace ConnectProgram

variable {w w' : ConnectProgram} {a : ConnectAct}

theorem active_spec {me : CoroId} {c : ConnectCall} (h : w.active = some (me, c)) :
    (∃ i, w.pc = .inside i) ∧ w.sched.current = some me ∧ w.calls[me]? = some c := by
  unfold active at h
  split at h
  · rename_i i co hpc hcur
    split at h
    · rename_i hc
      split at h
      · obtain ⟨rfl, rfl⟩ := Prod.mk.inj (Option.some.inj h)
        exact ⟨⟨i, hpc⟩, hcur, hc⟩
      · cases h
    · cases h
  · cases h

theorem step_program {b : PollAct} (h : w.step (.program b) = some w') :
    w.active = none ∧ w.Truthful (w.reports b) ∧ w.toPollProgram.step b = some w'.toPollProgram ∧
      w'.calls = w.calls ∧ w'.heard = w.heard ++ w.reports b := by
  simp only [step] at h
  split at h
  · cases h
  · rename_i hidle
    split at h
    · rename_i htruthful
      rcases Option.map_eq_some_iff.mp h with ⟨p, hp, rfl⟩
      exact ⟨Option.not_isSome_iff_eq_none.mp hidle, htruthful, hp, rfl, rfl⟩
    · cases h

/-- How a step moves the call of one coroutine on, or starts it. -/
inductive Moves (w : ConnectProgram) (me : CoroId) : ConnectAct → ConnectCall → Prop
  | start (fd : Fd) : Moves w me (.connect fd) { fd := fd }
  | answered {c : ConnectCall} (hactive : w.active = some (me, c)) (hpc : c.pc = .connecting)
      (a : ConnectAnswer) : Moves w me (.answer a) (c.answered w.heard.length a)
  | settled {c : ConnectCall} (hc : w.calls[me]? = some c) (hpc : c.pc = .waiting)
      (hprogress : c.attempt = .inProgress) (attempt : Attempt) :
      Moves w me (.settle me attempt) { c with attempt := attempt }
  | woken {c : ConnectCall} (hactive : w.active = some (me, c)) (hpc : c.pc = .waiting) :
      Moves w me .wakeUp (c.woken w.poller.isKqueue w.sched.yieldResult)

-- A step leaves the calls alone and hears what agrees with them, or moves one of them on.
theorem step_calls (h : w.step a = some w') :
    w'.poller.isKqueue = w.poller.isKqueue ∧
      ((∃ b, a = .program b ∧ w'.calls = w.calls ∧ w'.heard = w.heard ++ w.reports b ∧
          w.Truthful (w.reports b)) ∨
        ∃ me c, Moves w me a c ∧ w'.calls = w.calls.insert me c ∧ w'.heard = w.heard) := by
  cases a with
  | program b =>
    rcases step_program h with ⟨-, htruthful, hp, hcalls, hheard⟩
    exact ⟨PollProgram.step_isKqueue hp, .inl ⟨b, rfl, hcalls, hheard, htruthful⟩⟩
  | connect fd =>
    simp only [step] at h
    split at h
    · rename_i me _ _
      split at h
      · cases h
      · obtain rfl := Option.some.inj h
        exact ⟨rfl, .inr ⟨me, _, .start fd, rfl, rfl⟩⟩
    · cases h
  | answer a =>
    simp only [step] at h
    split at h
    · rename_i me c hactive
      split at h
      · rename_i hpc
        split at h
        · rcases Option.map_eq_some_iff.mp h with ⟨p, hp, rfl⟩
          exact ⟨PollProgram.step_isKqueue hp, .inr ⟨me, _, .answered hactive hpc a, rfl, rfl⟩⟩
        · obtain rfl := Option.some.inj h
          exact ⟨rfl, .inr ⟨me, _, .answered hactive hpc a, rfl, rfl⟩⟩
      · cases h
    · cases h
  | settle me attempt =>
    simp only [step] at h
    split at h
    · rename_i c hc
      split at h
      · rename_i hwaits
        obtain rfl := Option.some.inj h
        exact ⟨rfl, .inr ⟨me, _, .settled hc hwaits.1 hwaits.2.1 attempt, rfl, rfl⟩⟩
      · cases h
    · cases h
  | wakeUp =>
    simp only [step] at h
    split at h
    · rename_i me c hactive
      split at h
      · rename_i hpc
        obtain rfl := Option.some.inj h
        exact ⟨rfl, .inr ⟨me, _, .woken hactive hpc, rfl, rfl⟩⟩
      · cases h
    · cases h

/-- What the poller has heard while a call waits agrees with its attempt. -/
structure Kept (w : ConnectProgram) : Prop where
  reports : w.Reports
  since : ∀ (me : CoroId) (c : ConnectCall), w.calls[me]? = some c → c.pc = .waiting →
    c.since ≤ w.heard.length
  told : ∀ (me : CoroId) (c : ConnectCall), w.calls[me]? = some c → c.pc = .waiting →
    ∀ v, w.Told c v → c.attempt.Agrees w.poller.isKqueue v
  small : ∀ x ∈ w.heard, x.2 < 0x100000000

theorem told_append {c : ConnectCall} {v : Arg} {reports : List (Fd × Arg)}
    (hsince : c.since ≤ w.heard.length) (hheard : w'.heard = w.heard ++ reports) :
    w'.Told c v ↔ w.Told c v ∨ (c.fd, v) ∈ reports := by
  unfold Told
  rw [hheard, List.drop_append_of_le_length hsince, List.mem_append]

theorem told_congr {c : ConnectCall} {v : Arg} (hheard : w'.heard = w.heard) :
    w'.Told c v ↔ w.Told c v := by
  unfold Told
  rw [hheard]

theorem Kept.hear (h : w.Kept) {b : PollAct} (htruthful : w.Truthful (w.reports b))
    (hkind : w'.poller.isKqueue = w.poller.isKqueue) (hcalls : w'.calls = w.calls)
    (hheard : w'.heard = w.heard ++ w.reports b) : w'.Kept where
  reports me c hc := h.reports me c (hcalls ▸ hc)
  since me c hc hpc := by
    have hle := h.since me c (hcalls ▸ hc) hpc
    rw [hheard, List.length_append]
    omega
  told me c hc hpc v hv := by
    rw [hcalls] at hc
    rw [hkind]
    rcases (told_append (h.since me c hc hpc) hheard).mp hv with hold | hnew
    · exact h.told me c hc hpc v hold
    · exact htruthful _ hnew (me, c) (Maps.mem_toList.mpr hc) hpc rfl
  small x hx := by
    rw [hheard] at hx
    rcases List.mem_append.mp hx with hold | hnew
    · exact h.small x hold
    · cases b with
      | poll rule tv timeoutUsec ans => exact AnyPoller.writeReports_lt hnew
      | _ => cases hnew

-- The call that has moved needs to be looked at alone.
theorem Kept.move (h : w.Kept) {me : CoroId} {c : ConnectCall} (hcalls : w'.calls = w.calls.insert me c)
    (hheard : w'.heard = w.heard) (hkind : w'.poller.isKqueue = w.poller.isKqueue)
    (hreports : c.Reports)
    (hwaits : c.pc = .waiting → c.since ≤ w.heard.length ∧
      ∀ v, w.Told c v → c.attempt.Agrees w.poller.isKqueue v) : w'.Kept := by
  have hcall : ∀ (co : CoroId) (c' : ConnectCall), w'.calls[co]? = some c' →
      c' = c ∨ w.calls[co]? = some c' := by
    intro co c' hc'
    rw [hcalls, Maps.getElem?_insert_eq] at hc'
    split at hc'
    · exact .inl (Option.some.inj hc').symm
    · exact .inr hc'
  refine ⟨fun co c' hc' => ?_, fun co c' hc' hpc => ?_, fun co c' hc' hpc v hv => ?_, ?_⟩
  · rcases hcall co c' hc' with rfl | hold
    · exact hreports
    · exact h.reports co c' hold
  · rw [hheard]
    rcases hcall co c' hc' with rfl | hold
    · exact (hwaits hpc).1
    · exact h.since co c' hold hpc
  · rw [told_congr hheard] at hv
    rw [hkind]
    rcases hcall co c' hc' with rfl | hold
    · exact (hwaits hpc).2 v hv
    · exact h.told co c' hold hpc v hv
  · rw [hheard]
    exact h.small

-- A wake-up that is plain: what the poller has heard of a failure is an error for the waiter.
theorem woken_reports_of_plain (h : w.Kept) {me : CoroId} {c : ConnectCall}
    (hactive : w.active = some (me, c)) (hpc : c.pc = .waiting) :
    (c.woken w.poller.isKqueue w.sched.yieldResult).Reports ↔ w.Plain .wakeUp := by
  have hplain : w.Plain .wakeUp ↔
      if w.Told c w.sched.yieldResult then
        ∀ errno, c.attempt = .failed errno → w.poller.isKqueue = true
      else c.attempt = .established ∨
        w.poller.isKqueue = true ∧ waitError w.sched.yieldResult ≠ 0 := by
    constructor
    · exact fun hall => hall me c hactive
    · intro hone me' c' hactive'
      obtain ⟨rfl, rfl⟩ := Prod.mk.inj (Option.some.inj (hactive.symm.trans hactive'))
      exact hone
  rw [ConnectCall.woken_reports_iff, hplain]
  split
  · rename_i htold
    have hagrees := h.told me c (active_spec hactive).2.2 hpc _ htold
    have hsmall := h.small _ (List.mem_of_mem_drop htold)
    cases hattempt : c.attempt with
    | inProgress =>
      rw [hattempt] at hagrees
      exact hagrees.elim
    | established => exact iff_of_true (.inl rfl) fun errno he => nomatch he
    | failed errno =>
      rw [hattempt] at hagrees
      constructor
      · rintro (hest | herror)
        · cases hest
        · exact fun _ _ => herror.1
      · intro hkqueue
        have hk := hkqueue errno rfl
        exact .inr ⟨hk, waitError_ne_zero (hagrees hk) hsmall⟩
  · exact Iff.rfl

theorem step_kept (h : w.Kept) (hstep : w.step a = some w') (hplain : w.Plain a) : w'.Kept := by
  rcases step_calls hstep with ⟨hkind, ⟨b, -, hcalls, hheard, htruthful⟩ |
    ⟨me, c, hmoves, hcalls, hheard⟩⟩
  · exact h.hear htruthful hkind hcalls hheard
  · cases hmoves with
    | start fd => exact h.move hcalls hheard hkind nofun nofun
    | @answered c hactive hpc ans =>
      refine h.move hcalls hheard hkind (ConnectCall.answered_reports _ _) fun hwaits => ?_
      rw [ConnectCall.answered_waits hwaits]
      refine ⟨Nat.le_refl _, fun v hv => ?_⟩
      unfold Told at hv
      rw [List.drop_length] at hv
      exact absurd hv List.not_mem_nil
    | @settled c hc hpc hprogress attempt =>
      refine h.move hcalls hheard hkind (fun hret => ?_) fun _ => ⟨h.since me c hc hpc, fun v hv => ?_⟩
      · cases hpc.symm.trans hret
      · -- nothing has been heard of an attempt in progress
        have hagrees := h.told me c hc hpc v hv
        rw [hprogress] at hagrees
        exact hagrees.elim
    | @woken c hactive hpc =>
      apply h.move hcalls hheard hkind ((woken_reports_of_plain h hactive hpc).mpr hplain)
      exact fun hwaits => absurd hwaits (ConnectCall.woken_over _ _)

theorem step_misled (h : w.Kept) (hstep : w.step a = some w') (hmisled : ¬w.Plain a) :
    ¬w'.Reports := by
  intro hreports
  rcases step_calls hstep with ⟨-, ⟨b, rfl, -⟩ | ⟨me, c, hmoves, hcalls, -⟩⟩
  · exact hmisled trivial
  · cases hmoves with
    | woken hactive hpc =>
      apply hmisled
      rw [← woken_reports_of_plain h hactive hpc]
      apply hreports me
      rw [hcalls, Maps.getElem?_insert_eq, if_pos rfl]
    | _ => exact hmisled trivial

theorem kept_init (args : PollerArgs) : Kept { poller := .create args } where
  reports me c hc := by simp at hc
  since me c hc := by simp at hc
  told me c hc := by simp at hc
  small _ hx := absurd hx List.not_mem_nil

-- The condition on what a call that waits goes on with decides which calls return.
theorem reports_always_iff (args : PollerArgs) (acts : List ConnectAct) :
    (∀ pre w, pre <+: acts → Runs args pre w → w.Reports) ↔
      ∀ pre a w w', pre ++ [a] <+: acts → Runs args pre w → w.step a = some w' → w.Plain a := by
  apply Run.always_iff (I := Kept) (fun _ h => h.reports) ?_ ?_ (kept_init args) acts
  · exact fun _ _ _ h hstep hplain => step_kept h hstep hplain
  · exact fun _ _ _ h hstep hmisled => step_misled h hstep hmisled

end ConnectProgram

end Coropp
