import Coropp.S2nRead

/-!
# `coro_s2n::write`

The send loop goes on from `p + nbytes` for as long as `blocked` says that `s2n_send` would block, and
ends with the first call that does not, whatever it has counted by then.
-/

namespace Coropp

open Transition

/-! ## The loop that `read` and `write` share -/

/-- What `_wait_on_event (blocked)` makes of a round. -/
def BlockedStatus.reaction (blocked : BlockedStatus) : Reaction :=
  match waitOnEvent blocked with
  | some dir => .waits dir
  | none => .breaks

/-- What `nbytes += _check (fun, r)` adds, and what the round comes to. -/
def transferRound (errno : Errno) (fn : String) (r : Int) (blocked : BlockedStatus) :
    Nat × Reaction :=
  match check errno fn r with
  | .error e => (0, .raises e)
  | .ok r => (r.toNat, blocked.reaction)

example (errno : Errno) (o : RecvOutcome) :
    recvRound errno o = transferRound (o.errnoAfter errno) "s2n_recv" o.result o.blocked := rfl

/-- How a call of `s2n_send` ends: it has taken the first `n` of the bytes, would block, or fails.  As
    with `s2n_negotiate` a failure may leave `errno` alone, and does not set it to `EWOULDBLOCK`. -/
inductive SendOutcome where
  | taken (n : Nat) (blocked : BlockedStatus)
  | wouldBlock (blocked : BlockedStatus)
  | failure (blocked : BlockedStatus) (errno : Option { e : Errno // e ≠ ewouldblock })
deriving DecidableEq

namespace SendOutcome

def count : SendOutcome → Nat
  | taken n _ => n
  | wouldBlock _ | failure _ _ => 0

/-- The `int` that `_check` gets for an `ssize_t`. -/
def result : SendOutcome → Int
  | taken n _ => (BitVec.ofNat 32 n).toInt
  | wouldBlock _ | failure _ _ => -1

def blocked : SendOutcome → BlockedStatus
  | taken _ blocked => blocked
  | wouldBlock blocked => blocked
  | failure blocked _ => blocked

def errnoAfter (errno : Errno) : SendOutcome → Errno
  | taken _ _ => errno
  | wouldBlock _ => ewouldblock
  | failure _ none => errno
  | failure _ (some e) => e

def isFailure : SendOutcome → Bool
  | failure _ _ => true
  | taken _ _ | wouldBlock _ => false

end SendOutcome

/-- One round of the loop of `write`. -/
def sendRound (errno : Errno) (o : SendOutcome) : Nat × Reaction :=
  transferRound (o.errnoAfter errno) "s2n_send" o.result o.blocked

/-! ## A call of `write` -/

/-- Where a call of `write` is.  `passedOn` is an exception of `_check_negotiate` or of a wait. -/
inductive SendPc where
  | negotiating
  | sending
  | waiting (dir : Direction)
  | returned
  | raised (e : S2nError)
  | passedOn
deriving DecidableEq, Repr

/-- The arguments and locals of a call.  `taken` and `failed` are history variables: the bytes that
    `s2n_send` has taken, and whether a call of it has failed. -/
structure SendCall where
  buffer : Bytes
  nbytes : Nat := 0
  pc : SendPc := .negotiating
  taken : Bytes := []
  failed : Bool := false

/-- `errno` is what the thread has left when `s2n_send` is called. -/
inductive SendAct where
  | checkNegotiate (throws : Bool)
  | send (errno : Errno) (o : SendOutcome)
  /-- `wait_for_read` or `wait_for_write` returns, or throws. -/
  | wait (throws : Bool)

namespace SendCall

/-- `length - nbytes`. -/
def wanted (c : SendCall) : Nat := sizeSub c.buffer.length c.nbytes

/-- `s2n_send (_conn, p + nbytes, length - nbytes, &blocked)` ends with `o`, in a round that comes to
    `round`. -/
def send (c : SendCall) (o : SendOutcome) (round : Nat × Reaction) : SendCall :=
  { c with
    nbytes := c.nbytes + round.1
    pc :=
      match round.2 with
      | .raises e => .raised e
      | .waits dir => .waiting dir
      | .breaks => .returned
    taken := c.taken ++ (c.buffer.drop c.nbytes).take o.count
    failed := c.failed || o.isFailure }

def step (c : SendCall) : SendAct → Option SendCall
  | .checkNegotiate throws =>
    if c.pc = .negotiating then some { c with pc := if throws then .passedOn else .sending }
    else none
  | .send errno o =>
    -- a count is at most the length asked for
    if c.pc = .sending ∧ o.count ≤ c.wanted then some (c.send o (sendRound errno o)) else none
  | .wait throws =>
    match c.pc with
    | .waiting _ => some { c with pc := if throws then .passedOn else .sending }
    | _ => none

def Runs (buffer : Bytes) (acts : List SendAct) (c : SendCall) : Prop :=
  Run (ofFun step) { buffer := buffer } acts c

/-- The bytes that have been taken are the first of the buffer, each of them once; all of them where
    `write` returns.  It throws where `s2n_send` has failed, and nowhere else. -/
structure Sound (c : SendCall) : Prop where
  counts : c.nbytes = c.taken.length
  sent : c.taken <+: c.buffer
  returned : c.pc = .returned → c.taken = c.buffer
  raised : (∃ e, c.pc = .raised e) ↔ c.failed = true

/-- The ways a call can mislead the loop are left out: it takes more than an `int` holds, or stores
    `S2N_NOT_BLOCKED` with bytes left, or fails with `EWOULDBLOCK` still in `errno`. -/
def Plain (c : SendCall) : SendAct → Prop
  | .send _ (.taken n blocked) => n < 0x80000000 ∧ (blocked = .notBlocked → n = c.wanted)
  | .send _ (.wouldBlock blocked) => blocked = .notBlocked → c.wanted = 0
  | .send errno (.failure _ none) => errno ≠ ewouldblock
  | _ => True

end SendCall

/-! ## One round -/

section

variable {errno : Errno} {fn : String} {r : Int} {blocked : BlockedStatus}

theorem transferRound_ok {n : Int} (h : check errno fn r = .ok n) :
    transferRound errno fn r blocked = (n.toNat, blocked.reaction) := by
  rw [transferRound, h]

theorem transferRound_error {e : S2nError} (h : check errno fn r = .error e) :
    transferRound errno fn r blocked = (0, .raises e) := by
  rw [transferRound, h]

-- `_check` takes it for a call that would block.
theorem transferRound_would_block (hneg : r < 0) (h : errno = ewouldblock) :
    transferRound errno fn r blocked = (0, blocked.reaction) :=
  transferRound_ok ((check_negative hneg).trans (if_pos h))

theorem transferRound_failure (hneg : r < 0) (h : errno ≠ ewouldblock) :
    transferRound errno fn r blocked = (0, .raises ⟨fn⟩) :=
  transferRound_error ((check_negative hneg).trans (if_neg h))

theorem transferRound_count {n : Nat} (h : n < 0x80000000) :
    transferRound errno fn (BitVec.ofNat 32 n).toInt blocked = (n, blocked.reaction) := by
  have hint : (BitVec.ofNat 32 n).toInt = n := by
    rw [BitVec.toInt_ofNat']
    exact Int.bmod_eq_of_le (by omega) (by omega)
  have hpos : ¬(n : Int) < 0 := by omega
  rw [hint]
  exact transferRound_ok (if_neg hpos)

-- An `int` counts fewer bytes.
theorem transferRound_lt (h : r < 0x80000000) :
    (transferRound errno fn r blocked).1 < 0x80000000 := by
  by_cases hneg : r < 0
  · by_cases hstale : errno = ewouldblock
    · rw [transferRound_would_block hneg hstale]
      exact Nat.zero_lt_succ _
    · rw [transferRound_failure hneg hstale]
      exact Nat.zero_lt_succ _
  · rw [transferRound_ok (if_neg hneg)]
    dsimp only
    omega

end

namespace SendCall

variable {c c' : SendCall} {o : SendOutcome} {errno : Errno} {a : SendAct}

/-- A round that counts what has been taken, ends the loop with the last byte alone, and throws if
    and only if the call has failed. -/
structure Fits (c : SendCall) (o : SendOutcome) (round : Nat × Reaction) : Prop where
  counts : round.1 = o.count
  breaks : round.2 = .breaks → o.count = c.wanted
  raises : (∃ e, round.2 = .raises e) ↔ o.isFailure = true

theorem reaction_breaks_iff {blocked : BlockedStatus} :
    blocked.reaction = .breaks ↔ blocked = .notBlocked := by
  cases blocked <;> simp [BlockedStatus.reaction, waitOnEvent]

theorem reaction_not_raises (blocked : BlockedStatus) : ¬∃ e, blocked.reaction = .raises e := by
  rintro ⟨e, he⟩
  cases blocked <;> cases he

theorem fits_transfer (hfailure : o.isFailure = false) (blocked : BlockedStatus) :
    c.Fits o (o.count, blocked.reaction) ↔ (blocked = .notBlocked → o.count = c.wanted) := by
  rw [← reaction_breaks_iff]
  refine ⟨fun h => h.breaks, fun h => ⟨rfl, h, iff_of_false (reaction_not_raises blocked) ?_⟩⟩
  rw [hfailure]
  exact Bool.false_ne_true

theorem fits_failure (hcount : o.count = 0) (hfailure : o.isFailure = true) (e : S2nError) :
    c.Fits o (0, .raises e) :=
  ⟨hcount.symm, nofun, iff_of_true ⟨e, rfl⟩ hfailure⟩

theorem round_fits_iff : c.Fits o (sendRound errno o) ↔ c.Plain (.send errno o) := by
  cases o with
  | taken n blocked =>
    by_cases hn : n < 0x80000000
    · have hround : sendRound errno (.taken n blocked) = (n, blocked.reaction) :=
        transferRound_count hn
      rw [hround]
      exact (fits_transfer rfl blocked).trans (and_iff_right hn).symm
    · refine iff_of_false (fun h => ?_) fun h => hn h.1
      have hlt : (sendRound errno (.taken n blocked)).1 < 0x80000000 :=
        transferRound_lt (BitVec.toInt_lt (x := BitVec.ofNat 32 n))
      rw [h.counts] at hlt
      exact hn hlt
  | wouldBlock blocked =>
    have hround : sendRound errno (.wouldBlock blocked) = (0, blocked.reaction) :=
      transferRound_would_block (Int.negSucc_lt_zero 0) rfl
    rw [hround]
    exact (fits_transfer rfl blocked).trans (forall_congr' fun _ => eq_comm)
  | failure blocked e =>
    cases e with
    | none =>
      by_cases hstale : errno = ewouldblock
      · have hround : sendRound errno (.failure blocked none) = (0, blocked.reaction) :=
          transferRound_would_block (Int.negSucc_lt_zero 0) hstale
        rw [hround]
        exact iff_of_false (fun h => reaction_not_raises blocked (h.raises.mpr rfl)) fun h => h hstale
      · have hround : sendRound errno (.failure blocked none) = (0, .raises ⟨"s2n_send"⟩) :=
          transferRound_failure (Int.negSucc_lt_zero 0) hstale
        rw [hround]
        exact iff_of_true (fits_failure rfl rfl _) hstale
    | some e =>
      have hround : sendRound errno (.failure blocked (some e)) = (0, .raises ⟨"s2n_send"⟩) :=
        transferRound_failure (Int.negSucc_lt_zero 0) e.property
      rw [hround]
      exact iff_of_true (fits_failure rfl rfl _) trivial

/-! ## Runs -/

namespace Sound

end Sound

-- A call that goes on elsewhere, or passes an exception on.
theorem Sound.move (h : c.Sound) (hway : ∀ e, c.pc ≠ .raised e) {pc : SendPc}
    (hpc : pc = .sending ∨ pc = .passedOn) : ({ c with pc := pc } : SendCall).Sound where
  counts := h.counts
  sent := h.sent
  returned hreturned := by rcases hpc with rfl | rfl <;> cases hreturned
  raised := by
    refine iff_of_false ?_ fun hfailed => ?_
    · rintro ⟨e, rfl⟩
      rcases hpc with hpc | hpc <;> cases hpc
    · rcases h.raised.mpr hfailed with ⟨e, he⟩
      exact hway e he

/-- How a step moves the call on. -/
theorem step_cases (hstep : c.step a = some c') :
    (∃ errno o, a = .send errno o ∧ c.pc = .sending ∧ o.count ≤ c.wanted ∧
      c' = c.send o (sendRound errno o)) ∨
      (c.Plain a ∧ (∀ e, c.pc ≠ .raised e) ∧
        ∃ pc, (pc = .sending ∨ pc = .passedOn) ∧ c' = { c with pc := pc }) := by
  cases a with
  | checkNegotiate throws =>
    simp only [step] at hstep
    split at hstep
    · rename_i hpc
      refine .inr ⟨trivial, fun e he => (by cases hpc.symm.trans he), _, ?_,
        (Option.some.inj hstep).symm⟩
      cases throws
      · exact .inl rfl
      · exact .inr rfl
    · cases hstep
  | send errno o =>
    simp only [step] at hstep
    split at hstep
    · rename_i hsend
      exact .inl ⟨errno, o, rfl, hsend.1, hsend.2, (Option.some.inj hstep).symm⟩
    · cases hstep
  | wait throws =>
    simp only [step] at hstep
    split at hstep
    · rename_i dir hpc
      refine .inr ⟨trivial, fun e he => (by cases hpc.symm.trans he), _, ?_,
        (Option.some.inj hstep).symm⟩
      cases throws
      · exact .inl rfl
      · exact .inr rfl
    · cases hstep

-- Two of three bytes are taken with `S2N_NOT_BLOCKED`, and `write` returns.
example : ∃ c, Runs [1, 2, 3] [.checkNegotiate false, .send 0 (.taken 2 .notBlocked)] c ∧
    c.pc = .returned ∧ c.taken = [1, 2] := ⟨_, run_of_exec rfl, rfl, rfl⟩

end SendCall

end Coropp
