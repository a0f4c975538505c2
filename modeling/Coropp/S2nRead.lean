import Coropp.S2n
import Coropp.Lib.Words

/-!
# `coro_s2n::read`

The receive loop goes on for as long as `blocked` says that `s2n_recv` would block, also when it has
put bytes into the buffer.
-/

namespace Coropp

open Transition Words

/-- How a call of `s2n_recv` ends: with bytes in the buffer, none at the end of the stream, or with
    -1 and `EWOULDBLOCK`.  Either way it stores something in `blocked`. -/
inductive RecvOutcome where
  | received (data : Bytes) (blocked : BlockedStatus)
  | wouldBlock (blocked : BlockedStatus)
deriving DecidableEq, Repr

namespace RecvOutcome

def data : RecvOutcome → Bytes
  | received data _ => data
  | wouldBlock _ => []

/-- The `int` that `_check` gets for an `ssize_t`. -/
def result : RecvOutcome → Int
  | received data _ => (BitVec.ofNat 32 data.length).toInt
  | wouldBlock _ => -1

def blocked : RecvOutcome → BlockedStatus
  | received _ blocked => blocked
  | wouldBlock blocked => blocked

def errnoAfter (errno : Errno) : RecvOutcome → Errno
  | received _ _ => errno
  | wouldBlock _ => ewouldblock

end RecvOutcome

/-- One round of the loop of `read`: what it adds to `nbytes`, and what it comes to. -/
def recvRound (errno : Errno) (o : RecvOutcome) : Nat × Reaction :=
  match check (o.errnoAfter errno) "s2n_recv" o.result with
  | .error e => (0, .raises e)
  | .ok r =>
    (r.toNat,
      match waitOnEvent o.blocked with
      | some dir => .waits dir
      | none => .breaks)

/-- Where a call of `read` is.  `passedOn` is an exception of `_check_negotiate` or of a wait. -/
inductive ReadPc where
  | negotiating
  | receiving
  | waiting (dir : Direction)
  | returned (n : Nat)
  | raised (e : S2nError)
  | passedOn
deriving DecidableEq, Repr

/-- The arguments and locals of a call; `buffer` is the memory from `p` on.  `outcomes` is a history
    variable: the lengths that `s2n_recv` has been called with, and how it has ended. -/
structure ReadCall where
  length : Nat
  buffer : Nat → UInt8
  nbytes : Nat := 0
  pc : ReadPc
  outcomes : List (Nat × RecvOutcome) := []

namespace ReadCall

def underWay (c : ReadCall) : Bool :=
  match c.pc with
  | .negotiating | .receiving | .waiting _ => true
  | .returned _ | .raised _ | .passedOn => false

/-- `length - nbytes`. -/
def wanted (c : ReadCall) : Nat := sizeSub c.length c.nbytes

/-- `s2n_recv (_conn, p + nbytes, length - nbytes, &blocked)` ends with `o`, in a round that comes
    to `round`. -/
def recv (c : ReadCall) (o : RecvOutcome) (round : Nat × Reaction) : ReadCall :=
  { c with
    buffer := blit c.buffer c.nbytes o.data
    nbytes := c.nbytes + round.1
    pc :=
      match round.2 with
      | .raises e => .raised e
      | .waits dir => .waiting dir
      | .breaks => .returned (c.nbytes + round.1)
    outcomes := c.outcomes ++ [(c.wanted, o)] }

/-- After a step of the session, `read` goes on where `_check_negotiate` returns. -/
def negotiated (c : ReadCall) (session : S2nSession) : ReadCall :=
  if c.pc = .negotiating ∧ session.pc = .outside then
    { c with pc := if session.negotiated then .receiving else .passedOn }
  else c

/-- All the bytes that the call has got. -/
def received (c : ReadCall) : Bytes := c.outcomes.flatMap fun x => x.2.data

/-- The last `s2n_recv` has found the end of the stream. -/
def AtEnd (c : ReadCall) : Prop :=
  ∃ earlier wanted blocked, c.outcomes = earlier ++ [(wanted, .received [] blocked)]

/-- What `read` promises. -/
structure Sound (c : ReadCall) : Prop where
  waits : ∀ dir, c.pc = .waiting dir → c.received = []
  asks : c.length ≠ 0 → ∀ x ∈ c.outcomes, x.1 ≠ 0
  returns : ∀ n, c.pc = .returned n →
    n = c.received.length ∧ window c.buffer 0 n = c.received ∧ (n = 0 → c.length = 0 ∨ c.AtEnd)
  throws : ∀ e, c.pc = .raised e → c.received = []

/-- The two ways an `s2n_recv` can mislead the loop are left out: bytes come with another status than
    `S2N_NOT_BLOCKED`, or more of them than an `int` holds; and a call that would block stores
    `S2N_NOT_BLOCKED`. -/
def Plain (c : ReadCall) : RecvOutcome → Prop
  | .received data blocked => data = [] ∨ blocked = .notBlocked ∧ data.length < 0x80000000
  | .wouldBlock blocked => c.length = 0 ∨ blocked ≠ .notBlocked

end ReadCall

/-! ## The connection -/

/-- A session, and the `read` that has been called last. -/
structure S2nReader extends S2nSession where
  call : Option ReadCall := none

inductive S2nReadAct where
  /-- A step of `_check_negotiate`, or `errno` is left by something else. -/
  | session (a : S2nAct)
  | read (length : Nat) (buffer : Nat → UInt8)
  | recv (o : RecvOutcome)
  /-- `wait_for_read` or `wait_for_write` returns. -/
  | wakeUp
  /-- The same throws. -/
  | waitThrows

/-- What the session may do while a call of `read` is there. -/
def ReadPc.admits : ReadPc → S2nAct → Bool
  | .receiving, _ => false
  | .waiting _, .setErrno _ => true
  | .waiting _, _ => false
  | _, _ => true

namespace S2nReader

def underWay (w : S2nReader) : Bool := w.call.any ReadCall.underWay

def step (w : S2nReader) : S2nReadAct → Option S2nReader
  | .session a =>
    if w.call.all fun c => c.pc.admits a then
      (w.toS2nSession.step a).map fun s => ⟨s, w.call.map fun c => c.negotiated s⟩
    else none
  | .read length buffer =>
    if w.underWay then none
    else
      (w.toS2nSession.step .checkNegotiate).map fun s =>
        ⟨s, some { length, buffer, pc := if s.negotiated then .receiving else .negotiating }⟩
  | .recv o =>
    match w.call with
    | some c =>
      -- a count is at most the length asked for
      if c.pc = .receiving ∧ o.data.length ≤ c.wanted then
        some ⟨{ w.toS2nSession with errno := o.errnoAfter w.errno },
          some (c.recv o (recvRound w.errno o))⟩
      else none
    | none => none
  | .wakeUp =>
    match w.call with
    | some c =>
      match c.pc with
      | .waiting _ => some { w with call := some { c with pc := .receiving } }
      | _ => none
    | none => none
  | .waitThrows =>
    match w.call with
    | some c =>
      match c.pc with
      | .waiting _ => some { w with call := some { c with pc := .passedOn } }
      | _ => none
    | none => none

def Runs (acts : List S2nReadAct) (w : S2nReader) : Prop := Run (ofFun step) ({} : S2nReader) acts w

def Sound (w : S2nReader) : Prop := ∀ c, w.call = some c → c.Sound

/-- No `s2n_recv` misleads the loop. -/
def Plain (w : S2nReader) : S2nReadAct → Prop
  | .recv o => ∀ c, w.call = some c → c.Plain o
  | _ => True

end S2nReader

/-! ## One round -/

theorem recv_result_small {data : Bytes} (h : data.length < 0x80000000) (blocked : BlockedStatus) :
    (RecvOutcome.received data blocked).result = data.length := by
  show (BitVec.ofNat 32 data.length).toInt = data.length
  rw [BitVec.toInt_ofNat']
  exact Int.bmod_eq_of_le (by omega) (by omega)

theorem recv_result_lt (o : RecvOutcome) : o.result < 0x80000000 := by
  cases o with
  | received data blocked => exact BitVec.toInt_lt
  | wouldBlock blocked =>
    show (-1 : Int) < 0x80000000
    decide

theorem recvRound_ok {errno : Errno} {o : RecvOutcome} {r : Int}
    (h : check (o.errnoAfter errno) "s2n_recv" o.result = .ok r) :
    recvRound errno o = (r.toNat, match waitOnEvent o.blocked with
      | some dir => .waits dir
      | none => .breaks) := by
  rw [recvRound, h]

theorem recvRound_would_block (errno : Errno) (blocked : BlockedStatus) :
    recvRound errno (.wouldBlock blocked) = (0, match waitOnEvent blocked with
      | some dir => .waits dir
      | none => .breaks) := by
  have hneg : (RecvOutcome.wouldBlock blocked).result < 0 := by
    show (-1 : Int) < 0
    decide
  exact recvRound_ok ((check_negative hneg).trans (if_pos rfl))

theorem recvRound_received {data : Bytes} (h : data.length < 0x80000000) (errno : Errno)
    (blocked : BlockedStatus) :
    recvRound errno (.received data blocked) = (data.length, match waitOnEvent blocked with
      | some dir => .waits dir
      | none => .breaks) := by
  have hpos : ¬(data.length : Int) < 0 := by omega
  have hcheck : check errno "s2n_recv" (RecvOutcome.received data blocked).result =
      .ok (data.length : Int) := by
    rw [recv_result_small h]
    exact if_neg hpos
  exact recvRound_ok hcheck

-- An `int` counts fewer bytes.
theorem recvRound_lt (errno : Errno) (o : RecvOutcome) : (recvRound errno o).1 < 0x80000000 := by
  have hresult := recv_result_lt o
  cases hcheck : check (o.errnoAfter errno) "s2n_recv" o.result with
  | error e =>
    rw [recvRound, hcheck]
    exact Nat.zero_lt_succ _
  | ok r =>
    rw [recvRound_ok hcheck]
    unfold check at hcheck
    dsimp only
    split at hcheck
    · split at hcheck
      · obtain rfl := Except.ok.inj hcheck
        decide
      · cases hcheck
    · obtain rfl := Except.ok.inj hcheck
      omega

-- Only `S2N_NOT_BLOCKED` ends the loop.
theorem recvRound_breaks {errno : Errno} {o : RecvOutcome} (h : (recvRound errno o).2 = .breaks) :
    o.blocked = .notBlocked := by
  cases hcheck : check (o.errnoAfter errno) "s2n_recv" o.result with
  | error e =>
    rw [recvRound, hcheck] at h
    cases h
  | ok r =>
    rw [recvRound_ok hcheck] at h
    cases hb : o.blocked with
    | notBlocked => rfl
    | blockedOnRead =>
      rw [hb] at h
      cases h
    | blockedOnWrite =>
      rw [hb] at h
      cases h

/-! ## One call -/

namespace ReadCall

variable {c : ReadCall} {o : RecvOutcome}

/-- A call that is under way has got nothing yet. -/
structure Kept (c : ReadCall) : Prop extends Sound c where
  nothing : c.underWay → c.received = [] ∧ c.nbytes = 0

theorem received_recv (c : ReadCall) (o : RecvOutcome) (round : Nat × Reaction) :
    (c.recv o round).received = c.received ++ o.data := by
  show (c.outcomes ++ [(c.wanted, o)]).flatMap _ = _
  rw [List.flatMap_append, List.flatMap_singleton]
  rfl

-- Where the round leaves the call.
theorem recv_pc (c : ReadCall) (o : RecvOutcome) {round : Nat × Reaction} {reaction : Reaction} :
    round.2 = reaction → (c.recv o round).pc =
      match reaction with
      | .raises e => .raised e
      | .waits dir => .waiting dir
      | .breaks => .returned (c.nbytes + round.1) := by
  rintro rfl
  rfl

theorem underWay_of_pc {pc : ReadPc} (h : c.pc = pc)
    (hpc : pc = .receiving ∨ ∃ dir, pc = .waiting dir) : c.underWay := by
  unfold underWay
  rw [h]
  rcases hpc with rfl | ⟨dir, rfl⟩
  · rfl
  · rfl

theorem recv_wanted (h : c.Kept) (hpc : c.pc = .receiving) : c.wanted = c.length := by
  rw [wanted, (h.nothing (underWay_of_pc hpc (.inl rfl))).2]
  exact sizeSub_of_le (Nat.zero_le _)

theorem recv_received (h : c.Kept) (hpc : c.pc = .receiving) (round : Nat × Reaction) :
    (c.recv o round).received = o.data := by
  rw [received_recv, (h.nothing (underWay_of_pc hpc (.inl rfl))).1, List.nil_append]

theorem recv_asks (h : c.Kept) (hpc : c.pc = .receiving) (round : Nat × Reaction) :
    c.length ≠ 0 → ∀ x ∈ (c.recv o round).outcomes, x.1 ≠ 0 := by
  intro hne x hx
  rcases List.mem_append.mp hx with hold | hnew
  · exact h.asks hne x hold
  · rw [List.mem_singleton.mp hnew, recv_wanted h hpc]
    exact hne

-- Nothing has come, and the call waits.
theorem kept_of_waits (h : c.Kept) (hpc : c.pc = .receiving) (hdata : o.data = []) (dir : Direction) :
    (c.recv o (0, .waits dir)).Kept := by
  have hnone : (c.recv o (0, .waits dir)).received = [] := by
    rw [recv_received h hpc, hdata]
  refine ⟨⟨fun _ _ => hnone, recv_asks h hpc _, (fun n hn => nomatch hn),
    (fun e he => nomatch he)⟩, ?_⟩
  exact fun _ => ⟨hnone, (h.nothing (underWay_of_pc hpc (.inl rfl))).2⟩

-- The call returns what has come.
theorem kept_of_breaks (h : c.Kept) (hpc : c.pc = .receiving)
    (hend : o.data = [] → c.length = 0 ∨ ∃ blocked, o = .received [] blocked) :
    (c.recv o (o.data.length, .breaks)).Kept := by
  have hzero := (h.nothing (underWay_of_pc hpc (.inl rfl))).2
  have hreceived := recv_received (o := o) h hpc (o.data.length, .breaks)
  refine ⟨⟨(fun dir hdir => nomatch hdir), recv_asks h hpc _, fun n hn => ?_,
    (fun e he => nomatch he)⟩, (fun hway => nomatch hway)⟩
  obtain rfl := ReadPc.returned.inj hn
  rw [hreceived, hzero, Nat.zero_add]
  refine ⟨rfl, ?_, fun hnone => ?_⟩
  · show window (blit c.buffer c.nbytes o.data) 0 o.data.length = o.data
    rw [hzero]
    exact window_blit c.buffer 0 o.data
  · rcases hend (List.eq_nil_of_length_eq_zero hnone) with hlength | ⟨blocked, rfl⟩
    · exact .inl hlength
    · exact .inr ⟨c.outcomes, c.wanted, blocked, rfl⟩

-- What the loop makes of an outcome that does not mislead it.
theorem plain_round (h : c.Plain o) (errno : Errno) :
    (o.data = [] ∧ ∃ dir, recvRound errno o = (0, .waits dir)) ∨
      (recvRound errno o = (o.data.length, .breaks) ∧
        (o.data = [] → c.length = 0 ∨ ∃ blocked, o = .received [] blocked)) := by
  cases o with
  | received data blocked =>
    rcases h with rfl | ⟨rfl, hsmall⟩
    · rw [recvRound_received (by decide)]
      cases blocked with
      | notBlocked => exact .inr ⟨rfl, fun _ => .inr ⟨_, rfl⟩⟩
      | blockedOnRead => exact .inl ⟨rfl, _, rfl⟩
      | blockedOnWrite => exact .inl ⟨rfl, _, rfl⟩
    · refine .inr ⟨recvRound_received hsmall _ _, fun hnone => .inr ⟨.notBlocked, ?_⟩⟩
      rw [show data = [] from hnone]
  | wouldBlock blocked =>
    rw [recvRound_would_block]
    cases blocked with
    | notBlocked => exact .inr ⟨rfl, fun _ => .inl (h.resolve_right fun hne => hne rfl)⟩
    | blockedOnRead => exact .inl ⟨rfl, _, rfl⟩
    | blockedOnWrite => exact .inl ⟨rfl, _, rfl⟩

theorem recv_kept (h : c.Kept) (hpc : c.pc = .receiving) (hplain : c.Plain o) (errno : Errno) :
    (c.recv o (recvRound errno o)).Kept := by
  rcases plain_round hplain errno with ⟨hdata, dir, hround⟩ | ⟨hround, hend⟩
  · rw [hround]
    exact kept_of_waits h hpc hdata dir
  · rw [hround]
    exact kept_of_breaks h hpc hend

-- With bytes in the buffer, the loop waits or throws, or it ends with a wrong count.
theorem not_sound_of_received (h : c.Kept) (hpc : c.pc = .receiving) (hdata : o.data ≠ [])
    (hmisled : o.blocked = .notBlocked → 0x80000000 ≤ o.data.length) (errno : Errno) :
    ¬(c.recv o (recvRound errno o)).Sound := by
  intro hsound
  have hreceived := recv_received (o := o) h hpc (recvRound errno o)
  cases hround : (recvRound errno o).2 with
  | raises e =>
    have hthrew : (c.recv o (recvRound errno o)).pc = .raised e := recv_pc c o hround
    exact hdata (hreceived.symm.trans (hsound.throws e hthrew))
  | waits dir =>
    have hwaits : (c.recv o (recvRound errno o)).pc = .waiting dir := recv_pc c o hround
    exact hdata (hreceived.symm.trans (hsound.waits dir hwaits))
  | breaks =>
    have hreturns : (c.recv o (recvRound errno o)).pc =
        .returned (c.nbytes + (recvRound errno o).1) := recv_pc c o hround
    have hcount := (hsound.returns _ hreturns).1
    rw [hreceived, (h.nothing (underWay_of_pc hpc (.inl rfl))).2] at hcount
    have hlarge := hmisled (recvRound_breaks hround)
    have hlt := recvRound_lt errno o
    omega

theorem recv_misled (h : c.Kept) (hpc : c.pc = .receiving) (hmisled : ¬c.Plain o) (errno : Errno) :
    ¬(c.recv o (recvRound errno o)).Sound := by
  cases o with
  | received data blocked =>
    have hnot : ¬(data = [] ∨ blocked = .notBlocked ∧ data.length < 0x80000000) := hmisled
    apply not_sound_of_received h hpc
    · exact fun hdata => hnot (.inl hdata)
    · intro hblocked
      by_contra hsmall
      exact hnot (.inr ⟨hblocked, Nat.lt_of_not_le hsmall⟩)
  | wouldBlock blocked =>
    -- it returns 0, and this is not the end of the stream
    have hnot : ¬(c.length = 0 ∨ blocked ≠ .notBlocked) := hmisled
    obtain rfl : blocked = .notBlocked := by
      by_contra hne
      exact hnot (.inr hne)
    intro hsound
    have hreturns : (c.recv (.wouldBlock .notBlocked)
        (recvRound errno (.wouldBlock .notBlocked))).pc = .returned 0 := by
      rw [recvRound_would_block]
      show ReadPc.returned (c.nbytes + 0) = .returned 0
      rw [(h.nothing (underWay_of_pc hpc (.inl rfl))).2]
    rcases (hsound.returns 0 hreturns).2.2 rfl with hlength | ⟨earlier, wanted, blocked, hlast⟩
    · exact hnot (.inl hlength)
    · have hsame := (List.append_inj' hlast rfl).2
      cases hsame

theorem start_kept (length : Nat) (buffer : Nat → UInt8) {pc : ReadPc}
    (hpc : pc = .receiving ∨ pc = .negotiating) :
    ReadCall.Kept { length, buffer, pc } where
  waits _ _ := rfl
  asks _ _ hx := absurd hx List.not_mem_nil
  returns n hn := by rcases hpc with rfl | rfl <;> cases hn
  throws e he := by rcases hpc with rfl | rfl <;> cases he
  nothing _ := ⟨rfl, rfl⟩

-- A call that goes on elsewhere, or is over with an exception passed on.
theorem Kept.move (h : c.Kept) (hway : c.underWay) {pc : ReadPc}
    (hpc : pc = .receiving ∨ pc = .passedOn) : ({ c with pc := pc } : ReadCall).Kept where
  waits _ _ := (h.nothing hway).1
  asks := h.asks
  returns n hn := by rcases hpc with rfl | rfl <;> cases hn
  throws e he := by rcases hpc with rfl | rfl <;> cases he
  nothing _ := h.nothing hway

theorem Kept.negotiated (h : c.Kept) (session : S2nSession) : (c.negotiated session).Kept := by
  unfold ReadCall.negotiated
  split
  · rename_i hpc
    apply h.move
    · unfold underWay
      rw [hpc.1]
    · split
      · exact .inl rfl
      · exact .inr rfl
  · exact h

end ReadCall

/-! ## Runs -/

namespace S2nReader

variable {w w' : S2nReader} {a : S2nReadAct}

/-- How a step moves the call of `read` on, or starts one. -/
inductive Moves (w : S2nReader) : S2nReadAct → Option ReadCall → Prop
  | session (a : S2nAct) (s : S2nSession) {call : Option ReadCall}
      (hcall : call = w.call.map fun c => c.negotiated s) : Moves w (.session a) call
  | read (length : Nat) (buffer : Nat → UInt8) {pc : ReadPc}
      (hpc : pc = .receiving ∨ pc = .negotiating) :
      Moves w (.read length buffer) (some { length, buffer, pc })
  | recv {c : ReadCall} (hc : w.call = some c) (hpc : c.pc = .receiving) (o : RecvOutcome) :
      Moves w (.recv o) (some (c.recv o (recvRound w.errno o)))
  | wait {c : ReadCall} (hc : w.call = some c) (hway : c.underWay) {a : S2nReadAct} {pc : ReadPc}
      (hpc : pc = .receiving ∨ pc = .passedOn) (ha : w.Plain a) :
      Moves w a (some { c with pc := pc })

theorem step_moves (h : w.step a = some w') : Moves w a w'.call := by
  cases a with
  | session a =>
    simp only [step] at h
    split at h
    · rcases Option.map_eq_some_iff.mp h with ⟨s, -, rfl⟩
      exact .session a s rfl
    · cases h
  | read length buffer =>
    simp only [step] at h
    split at h
    · cases h
    · rcases Option.map_eq_some_iff.mp h with ⟨s, -, rfl⟩
      apply Moves.read
      split
      · exact .inl rfl
      · exact .inr rfl
  | recv o =>
    simp only [step] at h
    split at h
    · rename_i c hc
      split at h
      · rename_i hpc
        obtain rfl := Option.some.inj h
        exact .recv hc hpc.1 o
      · cases h
    · cases h
  | wakeUp =>
    simp only [step] at h
    split at h
    · rename_i c hc
      split at h
      · rename_i dir hpc
        obtain rfl := Option.some.inj h
        exact .wait hc (ReadCall.underWay_of_pc hpc (.inr ⟨dir, rfl⟩)) (.inl rfl) trivial
      · cases h
    · cases h
  | waitThrows =>
    simp only [step] at h
    split at h
    · rename_i c hc
      split at h
      · rename_i dir hpc
        obtain rfl := Option.some.inj h
        exact .wait hc (ReadCall.underWay_of_pc hpc (.inr ⟨dir, rfl⟩)) (.inr rfl) trivial
      · cases h
    · cases h

/-- The invariant of the calls of `read`. -/
def Kept (w : S2nReader) : Prop := ∀ c, w.call = some c → c.Kept

theorem step_kept (h : w.Kept) (hstep : w.step a = some w') (hplain : w.Plain a) : w'.Kept := by
  intro c' hc'
  have hmoves := step_moves hstep
  rw [hc'] at hmoves
  cases hmoves with
  | session a s hcall =>
    rcases Option.map_eq_some_iff.mp hcall.symm with ⟨c, hc, rfl⟩
    exact (h c hc).negotiated s
  | read length buffer hpc => exact ReadCall.start_kept length buffer hpc
  | recv hc hpc o => exact ReadCall.recv_kept (h _ hc) hpc (hplain _ hc) w.errno
  | wait hc hway hpc ha => exact (h _ hc).move hway hpc

theorem step_misled (h : w.Kept) (hstep : w.step a = some w') (hmisled : ¬w.Plain a) :
    ¬w'.Sound := by
  intro hsound
  have hmoves := step_moves hstep
  generalize hcall : w'.call = call at hmoves
  cases hmoves with
  | session a s _ => exact hmisled trivial
  | read length buffer _ => exact hmisled trivial
  | recv hc hpc o =>
    refine ReadCall.recv_misled (h _ hc) hpc (fun hplain => hmisled ?_) w.errno (hsound _ hcall)
    intro c' hc'
    obtain rfl := Option.some.inj (hc.symm.trans hc')
    exact hplain
  | wait _ _ _ ha => exact hmisled ha

/-- In every run every `read` keeps its promises if and only if bytes come with `S2N_NOT_BLOCKED`, no
    more of them than an `int` holds, and a call that would block stores another status. -/
theorem read_sound_iff (acts : List S2nReadAct) :
    (∀ pre w, pre <+: acts → Runs pre w → w.Sound) ↔
      ∀ pre a w w', pre ++ [a] <+: acts → Runs pre w → w.step a = some w' → w.Plain a := by
  apply Run.always_iff (I := Kept) (fun _ h c hc => (h c hc).toSound) ?_ ?_ ?_ acts
  · exact fun _ _ _ h hstep hplain => step_kept h hstep hplain
  · exact fun _ _ _ h hstep hmisled => step_misled h hstep hmisled
  · exact fun c hc => nomatch hc

/-- A session that has been negotiated reads into 8 bytes: 2 come, and then nothing more for now. -/
def readsTwo : List S2nReadAct :=
  [.session .checkNegotiate, .session (.negotiate .success), .read 8 fun _ => 0,
    .recv (.received [104, 105] .blockedOnRead)]

theorem read_waits_holding :
    ∃ w c, Runs readsTwo w ∧ w.call = some c ∧ c.pc = .waiting .read ∧
      c.received = [104, 105] ∧ ¬w.Sound := by
  refine ⟨_, _, run_of_exec rfl, rfl, rfl, rfl, fun h => ?_⟩
  exact absurd ((h _ rfl).waits .read rfl) (by decide)

end S2nReader

end Coropp
