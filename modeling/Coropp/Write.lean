import Coropp.File
import Coropp.Programs

/-!
# `coro_file::write`

The write loop of a coroutine, in a program whose other coroutines run while it waits.  The wait is
a virtual function of the poller, and that of `kqueue_poller` throws.
-/

namespace Coropp

open Transition

/-- How `::write` ends: with a count, or with -1 and an `errno`. -/
inductive WriteAnswer where
  | accepted (n : Nat) (pos : 0 < n)
  | failed (errno : Errno)

/-- `OS_Error (fun, errno)`. -/
structure OSError where
  fn : String
  errno : Errno
deriving DecidableEq, Repr

/-- Where a call of `write` is: at `::write`, in `wait_for_write`, or over. -/
inductive WritePc where
  | writing
  | waiting
  | returned
  | threw (e : OSError)
deriving DecidableEq, Repr

/-- The arguments and locals of a call; `p` is how far the pointer is into the buffer.  `accepted`,
    `answers` and `errors` are history variables: the bytes that the kernel has taken, what the
    calls of `::write` have answered, and what `kqueue_poller` got from the `yield` of its waits. -/
structure WriteCall where
  fd : Fd
  buffer : Bytes
  length : Nat
  p : Nat := 0
  pc : WritePc := .writing
  accepted : Bytes := []
  answers : List WriteAnswer := []
  errors : List Int := []

namespace WriteCall

/-- `while (length)`. -/
def test (c : WriteCall) : WriteCall :=
  { c with pc := if c.length = 0 then .returned else .writing }

def start (fd : Fd) (buffer : Bytes) : WriteCall :=
  test { fd := fd, buffer := buffer, length := buffer.length }

/-- The kernel answers no more than it was asked for, nor more than an `int` holds. -/
def Possible (c : WriteCall) : WriteAnswer → Prop
  | .accepted n _ => n ≤ c.length ∧ n < 0x80000000
  | .failed _ => True

instance (c : WriteCall) : (a : WriteAnswer) → Decidable (c.Possible a)
  | .accepted n _ => inferInstanceAs (Decidable (n ≤ c.length ∧ n < 0x80000000))
  | .failed _ => .isTrue trivial

/-- `::write (_fd, p, length)` answers `a`. -/
def answered (c : WriteCall) (a : WriteAnswer) : WriteCall :=
  match a with
  | .accepted n _ =>
    test { c with
      length := sizeSub c.length n
      p := c.p + n
      accepted := c.accepted ++ (c.buffer.drop c.p).take n
      answers := c.answers ++ [a] }
  | .failed errno =>
    if errno = ewouldblock then { c with pc := .waiting, answers := c.answers ++ [a] }
    else { c with pc := .threw ⟨"write", errno⟩, answers := c.answers ++ [a] }

/-- The `yield` of the wait returns `value`, which only `kqueue_poller` looks at. -/
def woken (c : WriteCall) (isKqueue : Bool) (value : Arg) : WriteCall :=
  if isKqueue then
    -- int error = (uintptr_t) c->yield ()
    let error := (BitVec.ofNat 32 value).toInt
    let c := { c with errors := c.errors ++ [error] }
    if error ≠ 0 then { c with pc := .threw ⟨"wait_for_write", error⟩ } else c.test
  else c.test

def underWay (c : WriteCall) : Bool := c.pc = .writing ∨ c.pc = .waiting

/-- Some `::write` failed and would not just block, or a wait ended with an error. -/
def Failed (c : WriteCall) : Prop :=
  (∃ errno, .failed errno ∈ c.answers ∧ errno ≠ ewouldblock) ∨ ∃ error ∈ c.errors, error ≠ 0

/-- The kernel has taken a first part of the buffer, and the call ends when it has taken all of it
    or when something has failed. -/
structure Exact (c : WriteCall) : Prop where
  sent : c.accepted <+: c.buffer
  returned : c.pc = .returned ↔ c.accepted = c.buffer
  threw : (∃ e, c.pc = .threw e) ↔ c.Failed

end WriteCall

def AnyPoller.isKqueue : AnyPoller → Bool
  | kqueuePoller _ _ => true
  | pollPoller _ | selectPoller _ => false

def PollerArgs.isKqueue : PollerArgs → Bool
  | kqueuePoller _ => true
  | pollPoller _ _ | selectPoller => false

/-- Each coroutine with the last call of `write` it has made. -/
structure WriteProgram extends PollProgram where
  calls : CoroId → Option WriteCall := fun _ => none

inductive WriteAct where
  /-- Everything else: other coroutines, the event loop, and what a coroutine does between two
      calls of `write`. -/
  | program (a : PollAct)
  /-- The running coroutine calls `write`. -/
  | write (fd : Fd) (buffer : Bytes)
  /-- Its `::write` answers. -/
  | answer (a : WriteAnswer)
  /-- It is back in `wait_for_write`. -/
  | wakeUp

namespace WriteProgram

/-- The call that the running coroutine is in. -/
def active (w : WriteProgram) : Option (CoroId × WriteCall) :=
  match w.pc, w.sched.current with
  | .inside _, some me =>
    match w.calls me with
    | some c => if c.underWay then some (me, c) else none
    | none => none
  | _, _ => none

def setCall (w : WriteProgram) (me : CoroId) (c : WriteCall) : WriteProgram :=
  { w with calls := Function.update w.calls me (some c) }

def withProgram (w : WriteProgram) (p : PollProgram) : WriteProgram := { w with toPollProgram := p }

def step (w : WriteProgram) : WriteAct → Option WriteProgram
  | .program a => if w.active.isSome then none else (w.toPollProgram.step a).map w.withProgram
  | .write fd buffer =>
    match w.pc, w.sched.current with
    | .inside _, some me => if w.active.isSome then none else some (w.setCall me (.start fd buffer))
    | _, _ => none
  | .answer a =>
    match w.active with
    | some (me, c) =>
      if c.pc = .writing ∧ c.Possible a then
        let w' := w.setCall me (c.answered a)
        if (c.answered a).pc = .waiting then
          (w.toPollProgram.step (.waitFor .write c.fd)).map w'.withProgram
        else some w'
      else none
    | none => none
  | .wakeUp =>
    match w.active with
    | some (me, c) =>
      if c.pc = .waiting then
        some (w.setCall me (c.woken w.poller.isKqueue w.sched.yieldResult))
      else none
    | none => none

def Runs (args : PollerArgs) (acts : List WriteAct) (w : WriteProgram) : Prop :=
  Run (ofFun step) { poller := .create args } acts w

end WriteProgram

/-! ## One call -/

namespace WriteCall

variable {c : WriteCall}

/-- The pointer and the remaining length stay in step. -/
structure Kept (c : WriteCall) : Prop where
  sent : c.accepted = c.buffer.take c.p
  left : c.p + c.length = c.buffer.length
  returned : c.pc = .returned ↔ c.length = 0
  threw : (∃ e, c.pc = .threw e) ↔ c.Failed

theorem Kept.exact (h : c.Kept) : c.Exact where
  sent := by
    rw [h.sent]
    exact List.take_prefix _ _
  returned := by
    have hleft := h.left
    rw [h.returned, h.sent]
    constructor
    · intro hzero
      exact List.take_of_length_le (by omega)
    · intro hall
      have hlen := congrArg List.length hall
      rw [List.length_take] at hlen
      omega
  threw := h.threw

theorem test_kept (hsent : c.accepted = c.buffer.take c.p) (hleft : c.p + c.length = c.buffer.length)
    (hnot : ¬c.Failed) : c.test.Kept where
  sent := hsent
  left := hleft
  returned := by
    unfold test
    dsimp only
    split <;> simp_all
  threw := by
    apply iff_of_false ?_ hnot
    rintro ⟨e, he⟩
    unfold test at he
    dsimp only at he
    split at he <;> cases he

theorem start_kept (fd : Fd) (buffer : Bytes) : (start fd buffer).Kept := by
  apply test_kept rfl (Nat.zero_add _)
  rintro (⟨errno, hmem, -⟩ | ⟨error, hmem, -⟩)
  · cases hmem
  · cases hmem

theorem Kept.not_failed (h : c.Kept) (hpc : c.underWay) : ¬c.Failed := by
  intro hfailed
  obtain ⟨e, he⟩ := h.threw.mpr hfailed
  rw [underWay, he] at hpc
  simp at hpc

theorem failed_answers {errno : Errno} :
    ({ c with answers := c.answers ++ [.failed errno] } : WriteCall).Failed ↔
      c.Failed ∨ errno ≠ ewouldblock := by
  simp only [Failed, List.mem_append, List.mem_singleton, WriteAnswer.failed.injEq]
  constructor
  · rintro (⟨e, hmem | rfl, he⟩ | herrors)
    · exact .inl (.inl ⟨e, hmem, he⟩)
    · exact .inr he
    · exact .inl (.inr herrors)
  · rintro ((⟨e, hmem, he⟩ | herrors) | hne)
    · exact .inl ⟨e, .inl hmem, he⟩
    · exact .inr herrors
    · exact .inl ⟨errno, .inr rfl, hne⟩

theorem answered_kept (h : c.Kept) (hpc : c.pc = .writing) {a : WriteAnswer} (ha : c.Possible a) :
    (c.answered a).Kept := by
  have hnot : ¬c.Failed := h.not_failed (by simp [underWay, hpc])
  cases a with
  | accepted n pos =>
    have hle : n ≤ c.length := ha.1
    apply test_kept
    · show c.accepted ++ (c.buffer.drop c.p).take n = c.buffer.take (c.p + n)
      rw [h.sent, List.take_add]
    · show c.p + n + sizeSub c.length n = c.buffer.length
      rw [sizeSub_of_le hle, ← h.left]
      omega
    · rintro (⟨errno, hmem, hne⟩ | herrors)
      · rcases List.mem_append.mp hmem with hold | hnew
        · exact hnot (.inl ⟨errno, hold, hne⟩)
        · cases List.mem_singleton.mp hnew
      · exact hnot (.inr herrors)
  | failed errno =>
    have hlength : c.length ≠ 0 := by
      intro hzero
      cases hpc.symm.trans (h.returned.mpr hzero)
    unfold answered
    dsimp only
    split
    · rename_i hblock
      refine ⟨h.sent, h.left, iff_of_false (fun hp => by cases hp) hlength, ?_⟩
      apply iff_of_false (fun ⟨e, he⟩ => by cases he)
      intro hfailed
      rcases failed_answers.mp hfailed with hold | hne
      · exact hnot hold
      · exact hne hblock
    · rename_i hne
      refine ⟨h.sent, h.left, iff_of_false (fun hp => by cases hp) hlength, ?_⟩
      exact iff_of_true ⟨_, rfl⟩ (failed_answers.mpr (.inr hne))

theorem woken_kept (h : c.Kept) (hpc : c.pc = .waiting) (isKqueue : Bool) (value : Arg) :
    (c.woken isKqueue value).Kept := by
  have hnot : ¬c.Failed := h.not_failed (by simp [underWay, hpc])
  unfold woken
  split
  · dsimp only
    split
    · rename_i hne
      have hlength : c.length ≠ 0 := by
        intro hzero
        cases hpc.symm.trans (h.returned.mpr hzero)
      refine ⟨h.sent, h.left, iff_of_false (fun hp => by cases hp) hlength, ?_⟩
      exact iff_of_true ⟨_, rfl⟩ (.inr ⟨_, List.mem_append_right _ (.head _), hne⟩)
    · rename_i hzero
      refine test_kept (c := { c with errors := _ }) h.sent h.left ?_
      rintro (hanswers | ⟨error, hmem, hne⟩)
      · exact hnot (.inl hanswers)
      · rcases List.mem_append.mp hmem with hold | hnew
        · exact hnot (.inr ⟨error, hold, hne⟩)
        · rw [List.mem_singleton.mp hnew] at hne
          exact hzero hne
  · exact test_kept h.sent h.left hnot

-- A `::write` that takes something ends the call, or leaves something to write.
theorem accepted_cases (h : c.Kept) (hpc : c.pc = .writing) {n : Nat} {pos : 0 < n}
    (hn : c.Possible (.accepted n pos)) :
    ((c.answered (.accepted n pos)).pc = .returned ∧ c.p + n = c.buffer.length) ∨
      (c.answered (.accepted n pos)).Kept ∧ (c.answered (.accepted n pos)).pc = .writing ∧
        c.p + n < c.buffer.length := by
  have hkept := answered_kept h hpc hn
  have hleft : c.p + n + (c.answered (.accepted n pos)).length = c.buffer.length := hkept.left
  by_cases hzero : (c.answered (.accepted n pos)).length = 0
  · rw [hzero] at hleft
    exact .inl ⟨hkept.returned.mpr hzero, hleft⟩
  · have hwriting : (c.answered (.accepted n pos)).pc = .writing := by
      show (if sizeSub c.length n = 0 then WritePc.returned else .writing) = .writing
      exact if_neg hzero
    exact .inr ⟨hkept, hwriting, by omega⟩

theorem test_errors (c : WriteCall) : c.test.errors = c.errors := rfl

theorem answered_errors (c : WriteCall) (a : WriteAnswer) : (c.answered a).errors = c.errors := by
  unfold answered
  split
  · rfl
  · split <;> rfl

end WriteCall

/-! ## The program -/

theorem AnyPoller.setWaitFor_isKqueue {p p' : AnyPoller} {dir : Direction} {fd : Fd} {c : CoroId}
    (h : p.setWaitFor dir fd c = some p') : p'.isKqueue = p.isKqueue := by
  rcases setWaitFor_cases h with ⟨q, rfl, rfl⟩ | ⟨q, rfl, rfl⟩ | ⟨q, k, ke, q', rfl, -, rfl⟩
  · rfl
  · rfl
  · rfl

theorem AnyPoller.poll_isKqueue {p p' : AnyPoller} {s s' : Sched} {timeoutUsec : Int}
    {a : PollAnswer} {e : PollEnd} (h : p.poll s timeoutUsec a = some (p', s', e)) :
    p'.isKqueue = p.isKqueue := by
  rcases poll_cases h with ⟨q, r, out, rfl, -, -, rfl⟩ | ⟨q, r, turns, out, rfl, -, -, rfl⟩ |
    ⟨q, k, b, out, rfl, -, -, rfl⟩
  · rfl
  · rfl
  · rfl

theorem PollProgram.register_isKqueue {w : PollProgram} {p : Option AnyPoller}
    (h : ∀ q, p = some q → q.isKqueue = w.poller.isKqueue) :
    (w.register p).poller.isKqueue = w.poller.isKqueue := by
  cases p with
  | none => rfl
  | some q => exact h q rfl

theorem PollProgram.step_isKqueue {w w' : PollProgram} {a : PollAct} (h : w.step a = some w') :
    w'.poller.isKqueue = w.poller.isKqueue := by
  cases a with
  | machine a =>
    rcases step_machine h with ⟨-, m, -, rfl⟩
    rfl
  | waitFor dir fd =>
    rcases step_waitFor h with ⟨i, me, -, -, rfl⟩
    exact register_isKqueue fun q hq => AnyPoller.setWaitFor_isKqueue hq
  | setSignalHandler signum f =>
    rcases step_setSignalHandler h with ⟨p, k, hp, rfl⟩
    apply register_isKqueue
    intro q hq
    rcases Option.map_eq_some_iff.mp hq with ⟨p', -, rfl⟩
    rw [hp]
    rfl
  | poll rule tv timeoutUsec a =>
    rcases step_poll h with ⟨-, -, ⟨-, -, hsame⟩ | ⟨-, p, s, e, hpoll, rfl, -⟩⟩
    · rw [hsame]
    · exact AnyPoller.poll_isKqueue hpoll

namespace WriteProgram

variable {w w' : WriteProgram} {args : PollerArgs}

theorem active_calls {me : CoroId} {c : WriteCall} (h : w.active = some (me, c)) :
    w.calls me = some c := by
  unfold active at h
  split at h
  · split at h
    · rename_i hc
      split at h
      · obtain ⟨rfl, rfl⟩ := Prod.mk.inj (Option.some.inj h)
        exact hc
      · cases h
    · cases h
  · cases h

/-- How a step moves the call of one coroutine on, or starts it. -/
inductive Moves (w : WriteProgram) (me : CoroId) : WriteCall → Prop
  | start (fd : Fd) (buffer : Bytes) : Moves w me (.start fd buffer)
  | answered {c : WriteCall} {a : WriteAnswer} (hc : w.calls me = some c) (hpc : c.pc = .writing)
      (ha : c.Possible a) : Moves w me (c.answered a)
  | woken {c : WriteCall} (hc : w.calls me = some c) (hpc : c.pc = .waiting) (value : Arg) :
      Moves w me (c.woken w.poller.isKqueue value)

-- A step leaves the calls alone, or moves one of them on.
theorem step_calls {a : WriteAct} (h : w.step a = some w') :
    w'.poller.isKqueue = w.poller.isKqueue ∧
      (w'.calls = w.calls ∨
        ∃ me c, Moves w me c ∧ w'.calls = Function.update w.calls me (some c)) := by
  cases a with
  | program a =>
    simp only [step] at h
    split at h
    · cases h
    · rcases Option.map_eq_some_iff.mp h with ⟨p, hp, rfl⟩
      exact ⟨PollProgram.step_isKqueue hp, .inl rfl⟩
  | write fd buffer =>
    simp only [step] at h
    split at h
    · rename_i me _ _
      split at h
      · cases h
      · obtain rfl := Option.some.inj h
        exact ⟨rfl, .inr ⟨me, _, .start fd buffer, rfl⟩⟩
    · cases h
  | answer a =>
    simp only [step] at h
    split at h
    · rename_i me c hactive
      have hc := active_calls hactive
      split at h
      · rename_i hpossible
        have hmoves : Moves w me (c.answered a) := .answered hc hpossible.1 hpossible.2
        split at h
        · rcases Option.map_eq_some_iff.mp h with ⟨p, hp, rfl⟩
          exact ⟨PollProgram.step_isKqueue hp, .inr ⟨me, _, hmoves, rfl⟩⟩
        · obtain rfl := Option.some.inj h
          exact ⟨rfl, .inr ⟨me, _, hmoves, rfl⟩⟩
      · cases h
    · cases h
  | wakeUp =>
    simp only [step] at h
    split at h
    · rename_i me c hactive
      split at h
      · rename_i hpc
        obtain rfl := Option.some.inj h
        exact ⟨rfl, .inr ⟨me, _, .woken (active_calls hactive) hpc _, rfl⟩⟩
      · cases h
    · cases h

/-- What holds of every call in a run. -/
structure AllKept (args : PollerArgs) (w : WriteProgram) : Prop where
  poller : w.poller.isKqueue = args.isKqueue
  calls : ∀ me c, w.calls me = some c → c.Kept ∧ (args.isKqueue = false → c.errors = [])

theorem AllKept.moves (h : w.AllKept args) {me : CoroId} {c : WriteCall} (hmoves : Moves w me c) :
    c.Kept ∧ (args.isKqueue = false → c.errors = []) := by
  cases hmoves with
  | start fd buffer => exact ⟨WriteCall.start_kept fd buffer, fun _ => rfl⟩
  | answered hc hpc ha =>
    rcases h.calls me _ hc with ⟨hkept, herrors⟩
    refine ⟨WriteCall.answered_kept hkept hpc ha, fun hother => ?_⟩
    rw [WriteCall.answered_errors]
    exact herrors hother
  | woken hc hpc value =>
    rcases h.calls me _ hc with ⟨hkept, herrors⟩
    refine ⟨WriteCall.woken_kept hkept hpc _ value, fun hother => ?_⟩
    rw [h.poller, hother, WriteCall.woken, if_neg (by decide), WriteCall.test_errors]
    exact herrors hother

theorem step_allKept {a : WriteAct} (h : w.AllKept args) (hstep : w.step a = some w') :
    w'.AllKept args := by
  rcases step_calls hstep with ⟨hkind, hcalls⟩
  refine ⟨hkind.trans h.poller, fun co c hc => ?_⟩
  rcases hcalls with hsame | ⟨me, c', hmoves, hnext⟩
  · rw [hsame] at hc
    exact h.calls co c hc
  · rw [hnext] at hc
    by_cases hco : co = me
    · rw [hco, Function.update_self] at hc
      obtain rfl := Option.some.inj hc
      exact h.moves hmoves
    · rw [Function.update_of_ne hco] at hc
      exact h.calls co c hc

theorem create_isKqueue (args : PollerArgs) : (AnyPoller.create args).isKqueue = args.isKqueue := by
  cases args <;> rfl

theorem runs_allKept {acts : List WriteAct} (run : Runs args acts w) : w.AllKept args := by
  apply Run.invariant (I := AllKept args) (fun _ _ _ h hstep => step_allKept h hstep) run
  refine ⟨create_isKqueue args, fun me c hc => ?_⟩
  cases hc

/-- In every run the bytes taken from each call of `write` are a first part of its buffer; the call
    returns when they are all of it, and throws `OS_Error` when a `::write` has failed or, with a
    `kqueue_poller`, a wait has. -/
theorem write_exact {acts : List WriteAct} (run : Runs args acts w) {me : CoroId} {c : WriteCall}
    (hc : w.calls me = some c) : c.Exact ∧ (args.isKqueue = false → c.errors = []) := by
  rcases (runs_allKept run).calls me c hc with ⟨hkept, herrors⟩
  exact ⟨hkept.exact, herrors⟩

/-- Coroutine 1 runs, and writes three bytes to descriptor 5: one is taken, and it waits. -/
def writesThree : List WriteAct :=
  let tv : Timeval := ⟨0, 0⟩
  [.program (.machine (.call (.schedule 1 0))), .program (.machine (.enter .first tv)),
    .program (.machine .test), .program (.machine (.next .first tv)), .write 5 [97, 98, 99],
    .answer (.accepted 1 (by decide)), .answer (.failed ewouldblock),
    .program (.machine (.next .first tv)), .program (.machine .test)]

/-- The poller wakes coroutine 1 up. -/
def wakes (a : PollAnswer) : List WriteAct :=
  let tv : Timeval := ⟨0, 0⟩
  [.program (.poll .first tv 0 a), .program (.machine .test), .program (.machine (.next .first tv)),
    .wakeUp]

/-- The descriptor is found ready, and the other two bytes go out. -/
theorem write_exact_three :
    ∃ w c, Runs (.kqueuePoller 8) (writesThree ++ wakes (.kevent (.events [⟨5, .write, 0, 0, 0⟩])) ++
        [.answer (.accepted 2 (by decide))]) w ∧
      w.calls 1 = some c ∧ c.pc = .returned ∧ c.Exact := by
  have run : ∃ w, Runs (.kqueuePoller 8)
      (writesThree ++ wakes (.kevent (.events [⟨5, .write, 0, 0, 0⟩])) ++
        [.answer (.accepted 2 (by decide))]) w ∧ ∃ c, w.calls 1 = some c ∧ c.pc = .returned :=
    ⟨_, run_of_exec rfl, _, rfl, rfl⟩
  rcases run with ⟨w, hrun, c, hc, hpc⟩
  exact ⟨w, c, hrun, hc, hpc, (write_exact hrun hc).1⟩

/-- `kevent` reports an error with the end of file: `write` throws, and no `::write` has failed. -/
theorem wait_throws :
    ∃ w c, Runs (.kqueuePoller 8)
        (writesThree ++ wakes (.kevent (.events [⟨5, .write, evEof, 54, 0⟩]))) w ∧
      w.calls 1 = some c ∧ c.pc = .threw ⟨"wait_for_write", 54⟩ ∧
      ∀ errno, .failed errno ∈ c.answers → errno = ewouldblock := by
  refine ⟨_, _, run_of_exec rfl, rfl, rfl, fun errno hmem => ?_⟩
  rcases List.mem_cons.mp hmem with h | h
  · cases h
  · exact WriteAnswer.failed.inj (List.mem_singleton.mp h)

end WriteProgram

end Coropp
