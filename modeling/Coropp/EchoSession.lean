import Coropp.Lines
import Coropp.Write

/-!
# `echo_session`

A session of the echo server: it gets a line, and writes it back, or does what a line with a '!' in
front asks for.  What arrives on its socket, and in how many reads, is up to the peer and the kernel;
what it sends depends on the bytes alone.
-/

namespace Coropp

open Transition Loops Source Pieces

/-- What a line asks for, by `line[0]` and `line[1]`. -/
inductive EchoCommand where
  | echo
  | quit
  | shutdown
  | bench
  /-- Any other byte after the '!'. -/
  | other
deriving DecidableEq, Repr

def EchoCommand.ofLine (l : Bytes) : EchoCommand :=
  if l[0]? = some 33 then
    if l[1]? = some 113 then .quit
    else if l[1]? = some 115 then .shutdown
    else if l[1]? = some 98 then .bench
    else .other
  else .echo

/-- How `echo_session` ends.  After `shutdown` it has called `coro::exit ()`. -/
inductive EchoEnd where
  | closed
  | quit
  | shutdown
  /-- `catch (...)` gets `none`: what is no `OS_Error`, as the `std::length_error` of a read. -/
  | threw (e : Option OSError)
deriving DecidableEq, Repr

/-- Where a session is: in `buf.get (line)`, in `s->write`, at `s->shutdown ()` after a line that is
    a `!s` if `exits`, or over. -/
inductive EchoPc where
  | getting
  | writing (c : WriteCall)
  | shutting (exits : Bool)
  | ended (e : EchoEnd)

/-- The socket is the file of the buffer in `get`; its data are the bytes that have arrived and have
    not been read.  `arrived`, `lines`, `outs` and `sent` are history variables: all that has arrived,
    the lines that `get` has returned, what has been handed to `write` for each of them, and what the
    kernel has taken. -/
structure EchoSession where
  fd : Fd
  get : CoroBuffer.Getting File crlf.val.length := ⟨Delim.start crlf, [], .create ⟨[], []⟩⟩
  pc : EchoPc := .getting
  hungUp : Bool := false
  arrived : Bytes := []
  lines : List Bytes := []
  outs : List Bytes := []
  sent : Bytes := []

/-- What `the_bench.diff ().dump (diff)` makes; it has the names of the figures at least. -/
abbrev Figures := {diff : Bytes // diff ≠ []}

inductive EchoAct where
  | arrive (data : Bytes)
  /-- The peer sends no more. -/
  | hangUp
  /-- `get` goes on over what is left over; `diff` is what a `!b` line would be answered with. -/
  | scan (diff : Figures)
  /-- The read of `get` returns at most `n` bytes. -/
  | read (n : Nat) (pos : 0 < n) (diff : Figures)
  | readEof
  | readFails (errno : Errno)
  /-- `::write` takes `n` bytes. -/
  | write (n : Nat) (pos : 0 < n)
  /-- `::write` fails, or the wait for it. -/
  | writeFails (e : OSError)
  | shutdown
  | shutdownFails (errno : Errno)

/-- Steps of a session that are not the doing of its peer. -/
def EchoAct.own : EchoAct → Bool
  | .arrive _ | .hangUp => false
  | _ => true

namespace EchoSession

/-- `s->write (data)`, up to its first `::write`. -/
def startWrite (s : EchoSession) (data : Bytes) : EchoSession :=
  let c := WriteCall.start s.fd data
  { s with
    pc := if c.pc = .returned then .getting else .writing c
    outs := s.outs ++ [data] }

/-- `get` has returned `line`. -/
def gotLine (s : EchoSession) (line diff : Bytes) : EchoSession :=
  let s := { s with lines := s.lines ++ [line] }
  match EchoCommand.ofLine line with
  | .quit => { s with pc := .shutting false, outs := s.outs ++ [[]] }
  | .shutdown => { s with pc := .shutting true, outs := s.outs ++ [[]] }
  | .bench => s.startWrite diff
  | .other => { s with outs := s.outs ++ [[]] }
  | .echo => s.startWrite line

/-- A round of `get`, with what its read answers. -/
def getRound (s : EchoSession) (script : List Answer) (diff : Bytes) : EchoSession :=
  let b := { s.get.b with file := { s.get.b.file with script := script } }
  match CoroBuffer.getBody crlf.val { s.get with b := b } with
  | .inl st => { s with get := st }
  | .inr r =>
    let s := { s with get := ⟨Delim.start crlf, [], r.left⟩ }
    match r.ret with
    -- s->close ()
    | .ok true => { s with pc := .ended .closed }
    | .ok false => s.gotLine (stringJoin [] r.pieces) diff
    | .error (.osError errno) => { s with pc := .ended (.threw (some ⟨"read", errno⟩)) }
    | .error .lengthError => { s with pc := .ended (.threw none) }

/-- What has arrived and has not been read. -/
def unread (s : EchoSession) : Bytes := s.get.b.file.data

def isGetting (s : EchoSession) : Bool :=
  match s.pc with
  | .getting => true
  | _ => false

/-- `get` has scanned all it has got, and is at its read. -/
def AtRead (s : EchoSession) : Prop := s.isGetting = true ∧ s.get.b.buffer = []

instance (s : EchoSession) : Decidable s.AtRead := inferInstanceAs (Decidable (_ ∧ _))

def step (s : EchoSession) : EchoAct → Option EchoSession
  | .arrive data =>
    if s.hungUp then none
    else
      let file := { s.get.b.file with data := s.get.b.file.data ++ data }
      some { s with
        get := { s.get with b := { s.get.b with file := file } }
        arrived := s.arrived ++ data }
  | .hangUp => some { s with hungUp := true }
  | .scan diff =>
    if s.isGetting = true ∧ s.get.b.buffer ≠ [] then some (s.getRound [] diff.val) else none
  | .read n pos diff =>
    if s.AtRead ∧ s.unread ≠ [] then some (s.getRound [.chunk n pos] diff.val) else none
  | .readEof =>
    if s.AtRead ∧ s.unread = [] ∧ s.hungUp = true then some (s.getRound [] []) else none
  | .readFails errno => if s.AtRead then some (s.getRound [.error errno] []) else none
  | .write n pos =>
    match s.pc with
    | .writing c =>
      if c.Possible (.accepted n pos) then
        let c' := c.answered (.accepted n pos)
        some { s with
          pc := if c'.pc = .returned then .getting else .writing c'
          sent := s.sent ++ (c.buffer.drop c.p).take n }
      else none
    | _ => none
  | .writeFails e =>
    match s.pc with
    | .writing _ => some { s with pc := .ended (.threw (some e)) }
    | _ => none
  | .shutdown =>
    match s.pc with
    | .shutting exits => some { s with pc := .ended (if exits then .shutdown else .quit) }
    | _ => none
  | .shutdownFails errno =>
    match s.pc with
    | .shutting _ => some { s with pc := .ended (.threw (some ⟨"shutdown", errno⟩)) }
    | _ => none

def Runs (fd : Fd) (acts : List EchoAct) (s : EchoSession) : Prop :=
  Run (ofFun step) { fd := fd } acts s

/-- What a line is answered with: itself, nothing, or the figures of a `!b`. -/
def Answers (line out : Bytes) : Prop :=
  match EchoCommand.ofLine line with
  | .echo => out = line
  | .bench => out ≠ []
  | .quit | .shutdown | .other => out = []

/-- It waits for more, and has not been sent any. -/
def Idle (s : EchoSession) : Prop := s.AtRead ∧ s.unread = []

/-- The command that a session leaves on: `some true` for a `!s`. -/
def leaving (s : EchoSession) : Option Bool :=
  match s.pc with
  | .shutting exits => some exits
  | .ended .quit => some false
  | .ended .shutdown => some true
  | _ => none

end EchoSession

/-! ## What each step does -/

namespace EchoSession

variable {s s' : EchoSession}

/-- How many bytes there are to scan or to read. -/
def held (s : EchoSession) : Nat := s.get.b.buffer.length + s.unread.length

/-- The bytes of a write that the kernel has not taken. -/
def owes (s : EchoSession) : Bytes :=
  match s.pc with
  | .writing c => c.buffer.drop c.p
  | _ => []

/-- A round of `get` that gets bytes: it scans `xs`, the leftover or what its read returns. -/
inductive Round (s : EchoSession) (diff : Bytes) : EchoSession → Prop
  | goesOn {xs : Bytes} {file : File} {matched : Fin crlf.val.length} (hne : xs ≠ [])
      (hbytes : xs ++ file.data = s.get.b.buffer ++ s.unread)
      (hscan : scan crlf.val s.get.matched 0 xs = .passed matched) :
      Round s diff { s with get := ⟨matched, s.get.sl ++ [xs], ⟨file, []⟩⟩ }
  | line {xs : Bytes} {file : File} {i : Nat}
      (hbytes : xs ++ file.data = s.get.b.buffer ++ s.unread)
      (hscan : scan crlf.val s.get.matched 0 xs = .found i) :
      Round s diff (gotLine { s with get := ⟨Delim.start crlf, [], ⟨file, xs.drop (i + 1)⟩⟩ }
        (s.get.sl.flatten ++ xs.take (i + 1)) diff)

/-- How a step moves a session on. -/
inductive Moves (s : EchoSession) : EchoAct → EchoSession → Prop
  | arrive (data : Bytes) (hup : s.hungUp = false) {b : CoroBuffer File}
      (hbuffer : b.buffer = s.get.b.buffer) (hdata : b.file.data = s.unread ++ data) :
      Moves s (.arrive data) { s with get := { s.get with b := b }, arrived := s.arrived ++ data }
  | hangUp : Moves s .hangUp { s with hungUp := true }
  | round {a : EchoAct} {diff : Figures} (ha : a = .scan diff ∨ ∃ n pos, a = .read n pos diff)
      (hpc : s.pc = .getting) {s' : EchoSession} (h : Round s diff.val s') : Moves s a s'
  | closed (hpc : s.pc = .getting) (hidle : s.Idle) (hup : s.hungUp = true) {b : CoroBuffer File}
      (hb : b.buffer.length + b.file.data.length = s.held) :
      Moves s .readEof { s with get := ⟨Delim.start crlf, [], b⟩, pc := .ended .closed }
  | readFails (errno : Errno) (hpc : s.pc = .getting) {b : CoroBuffer File}
      (hb : b.buffer.length + b.file.data.length = s.held) :
      Moves s (.readFails errno)
        { s with get := ⟨Delim.start crlf, [], b⟩, pc := .ended (.threw (some ⟨"read", errno⟩)) }
  | write {c : WriteCall} {n : Nat} {pos : 0 < n} (hpc : s.pc = .writing c)
      (hn : c.Possible (.accepted n pos)) :
      Moves s (.write n pos)
        { s with
          pc := if (c.answered (.accepted n pos)).pc = .returned then .getting
            else .writing (c.answered (.accepted n pos))
          sent := s.sent ++ (c.buffer.drop c.p).take n }
  | fails {a : EchoAct} {e : OSError} (ha : a = .writeFails e ∨ ∃ errno, a = .shutdownFails errno)
      (hpc : ∀ e, s.pc ≠ .ended e) : Moves s a { s with pc := .ended (.threw (some e)) }
  | shutdown {exits : Bool} (hpc : s.pc = .shutting exits) :
      Moves s .shutdown { s with pc := .ended (if exits then .shutdown else .quit) }

theorem isGetting_iff : s.isGetting = true ↔ s.pc = .getting := by
  unfold isGetting
  split
  · rename_i hpc
    exact iff_of_true rfl hpc
  · rename_i hpc
    exact iff_of_false (fun h => nomatch h) hpc

-- With its leftover filled, `get` scans it.
theorem round_of_fill {script : List Answer} {b : CoroBuffer File}
    (hfill : ({ s.get.b with file := { s.get.b.file with script := script } } :
      CoroBuffer File).fill = (.ok false, b))
    (hne : b.buffer ≠ []) (hbytes : b.buffer ++ b.file.data = s.get.b.buffer ++ s.unread)
    (diff : Bytes) : Round s diff (s.getRound script diff) := by
  unfold getRound CoroBuffer.getBody
  dsimp only
  rw [hfill]
  dsimp only
  cases hscan : scan crlf.val s.get.matched 0 b.buffer with
  | passed matched => exact .goesOn hne hbytes hscan
  | found i =>
    dsimp only
    rw [stringJoin_eq, List.nil_append, List.flatten_append, List.flatten_singleton]
    exact .line hbytes hscan

theorem round_scan (h : s.get.b.buffer ≠ []) (diff : Bytes) : Round s diff (s.getRound [] diff) := by
  refine round_of_fill (b := { s.get.b with file := { s.get.b.file with script := [] } }) ?_ h rfl diff
  unfold CoroBuffer.fill
  rw [if_neg]
  exact fun hlen => h (List.eq_nil_of_length_eq_zero hlen)

theorem round_read (hbuffer : s.get.b.buffer = []) (hdata : s.unread ≠ []) {n : Nat} (pos : 0 < n)
    (diff : Bytes) : Round s diff (s.getRound [.chunk n pos] diff) := by
  have hpos := List.length_pos_of_ne_nil hdata
  have hne : s.unread.take (min n (min 8192 maxRw)) ≠ [] := by
    apply List.ne_nil_of_length_pos
    rw [List.length_take]
    unfold maxRw
    omega
  refine round_of_fill (b := ⟨⟨s.unread.drop (min n (min 8192 maxRw)), []⟩,
    s.unread.take (min n (min 8192 maxRw))⟩) ?_ hne ?_ diff
  · unfold CoroBuffer.fill
    dsimp only
    rw [hbuffer, if_pos List.length_nil]
    have hread : CoroFile.readString (⟨s.get.b.file.data, [.chunk n pos]⟩ : File) 8192 =
        (.ok (s.unread.take (min n (min 8192 maxRw))),
          ⟨s.unread.drop (min n (min 8192 maxRw)), []⟩) := rfl
    rw [hread]
    dsimp only
    rw [decide_eq_false fun hlen => hne (List.eq_nil_of_length_eq_zero hlen)]
  · rw [hbuffer]
    exact List.take_append_drop _ _

theorem step_moves {a : EchoAct} (h : s.step a = some s') : Moves s a s' := by
  cases a with
  | arrive data =>
    simp only [step] at h
    split at h
    · cases h
    · rename_i hup
      obtain rfl := Option.some.inj h
      exact .arrive data (Bool.eq_false_iff.mpr hup) rfl rfl
  | hangUp =>
    obtain rfl := Option.some.inj h
    exact .hangUp
  | scan diff =>
    simp only [step, Option.ite_none_right_eq_some] at h
    rcases h with ⟨⟨hget, hne⟩, h⟩
    obtain rfl := Option.some.inj h
    exact .round (.inl rfl) (isGetting_iff.mp hget) (round_scan hne _)
  | read n pos diff =>
    simp only [step, Option.ite_none_right_eq_some] at h
    rcases h with ⟨⟨⟨hget, hempty⟩, hdata⟩, h⟩
    obtain rfl := Option.some.inj h
    exact .round (.inr ⟨n, pos, rfl⟩) (isGetting_iff.mp hget) (round_read hempty hdata pos _)
  | readEof =>
    simp only [step, Option.ite_none_right_eq_some] at h
    rcases h with ⟨⟨hread, hdata, hup⟩, h⟩
    obtain rfl := Option.some.inj h
    have hend : ∃ b : CoroBuffer File, b.buffer.length + b.file.data.length = s.held ∧
        s.getRound [] [] = { s with get := ⟨Delim.start crlf, [], b⟩, pc := .ended .closed } := by
      unfold getRound CoroBuffer.getBody CoroBuffer.fill
      dsimp only
      rw [hread.2, if_pos List.length_nil]
      have hfile : CoroFile.readString (⟨s.get.b.file.data, []⟩ : File) 8192 =
          (.ok [], ⟨[], []⟩) := by
        rw [show s.get.b.file.data = [] from hdata]
        rfl
      rw [hfile]
      refine ⟨⟨⟨[], []⟩, []⟩, ?_, rfl⟩
      rw [held, hread.2, hdata]
    rcases hend with ⟨b, hb, hend⟩
    rw [hend]
    exact .closed (isGetting_iff.mp hread.1) ⟨hread, hdata⟩ hup hb
  | readFails errno =>
    simp only [step, Option.ite_none_right_eq_some] at h
    rcases h with ⟨hread, h⟩
    obtain rfl := Option.some.inj h
    have hend : ∃ b : CoroBuffer File, b.buffer.length + b.file.data.length = s.held ∧
        s.getRound [.error errno] [] =
          { s with get := ⟨Delim.start crlf, [], b⟩, pc := .ended (.threw (some ⟨"read", errno⟩)) } := by
      unfold getRound CoroBuffer.getBody CoroBuffer.fill
      dsimp only
      rw [hread.2, if_pos List.length_nil]
      refine ⟨⟨⟨s.unread, []⟩, []⟩, ?_, rfl⟩
      rw [held, hread.2]
    rcases hend with ⟨b, hb, hend⟩
    rw [hend]
    exact .readFails errno (isGetting_iff.mp hread.1) hb
  | write n pos =>
    simp only [step] at h
    split at h
    · rename_i c hpc
      split at h
      · rename_i hn
        obtain rfl := Option.some.inj h
        exact .write hpc hn
      · cases h
    · cases h
  | writeFails e =>
    simp only [step] at h
    split at h
    · rename_i c hpc
      obtain rfl := Option.some.inj h
      refine .fails (.inl rfl) ?_
      intro e he
      cases hpc.symm.trans he
    · cases h
  | shutdown =>
    simp only [step] at h
    split at h
    · rename_i exits hpc
      obtain rfl := Option.some.inj h
      exact .shutdown hpc
    · cases h
  | shutdownFails errno =>
    simp only [step] at h
    split at h
    · rename_i exits hpc
      obtain rfl := Option.some.inj h
      refine .fails (.inr ⟨errno, rfl⟩) ?_
      intro e he
      cases hpc.symm.trans he
    · cases h

/-! ## What has been received and sent -/

/-- It is in its loop. -/
def Serving (s : EchoSession) : Prop := s.pc = .getting ∨ ∃ c, s.pc = .writing c

def Leaves (line : Bytes) : Prop :=
  EchoCommand.ofLine line = .quit ∨ EchoCommand.ofLine line = .shutdown

/-- The lines are the pieces of what has arrived; `get` has the rest in its list, in the leftover or
    in the socket, and no delimiter among what it has scanned. -/
structure Received (s : EchoSession) : Prop where
  lines : ∀ line ∈ s.lines, IsPiece crlf.cutter line
  taken : s.lines.flatten <+: s.arrived
  live : (∀ e, s.pc ≠ .ended e) →
    s.lines.flatten ++ (s.get.sl.flatten ++ (s.get.b.buffer ++ s.unread)) = s.arrived
  scanned : scan crlf.val (Delim.start crlf) 0 s.get.sl.flatten = .passed s.get.matched
  closed : s.pc = .ended .closed →
    s.hungUp = true ∧ ∃ r, Splits crlf.cutter s.arrived s.lines r

/-- Each line has been answered, and the answers have been sent as far as `write` has got. -/
structure Replied (s : EchoSession) : Prop where
  answers : List.Forall₂ Answers s.lines s.outs
  sent : s.sent ++ s.owes <+: s.outs.flatten
  all : (∀ e, s.pc ≠ .ended (.threw e)) → s.sent ++ s.owes = s.outs.flatten
  writing : ∀ c, s.pc = .writing c → c.Kept ∧ c.pc = .writing
  left : ∀ exits, s.leaving = some exits →
    ∃ line ∈ s.lines, EchoCommand.ofLine line = if exits then .shutdown else .quit
  stays : s.Serving → ∀ line ∈ s.lines, ¬Leaves line

theorem Received.scanned_cut (h : s.Received) : crlf.cutter.cut s.get.sl.flatten = none :=
  Delim.cut_passed h.scanned

-- What a new line is answered with, and where the session goes on.
theorem gotLine_cases (hpc : s.pc = .getting) {line diff : Bytes} (hline : line ≠ [])
    (hdiff : diff ≠ []) :
    ∃ out pc, s.gotLine line diff =
        { s with pc := pc, lines := s.lines ++ [line], outs := s.outs ++ [out] } ∧
      Answers line out ∧
      ((pc = .getting ∧ out = [] ∧ ¬Leaves line) ∨
        (pc = .writing (.start s.fd out) ∧ out ≠ [] ∧ ¬Leaves line) ∨
        ∃ exits, pc = .shutting exits ∧ out = [] ∧
          EchoCommand.ofLine line = if exits then .shutdown else .quit) := by
  have hstart : ∀ out : Bytes, out ≠ [] → (WriteCall.start s.fd out).pc = .writing := by
    intro out hout
    show (if out.length = 0 then WritePc.returned else .writing) = .writing
    rw [if_neg]
    exact fun hlen => hout (List.eq_nil_of_length_eq_zero hlen)
  unfold gotLine Answers Leaves startWrite
  cases hcmd : EchoCommand.ofLine line with
  | quit => exact ⟨[], .shutting false, rfl, rfl, .inr (.inr ⟨false, rfl, rfl, rfl⟩)⟩
  | shutdown => exact ⟨[], .shutting true, rfl, rfl, .inr (.inr ⟨true, rfl, rfl, rfl⟩)⟩
  | other => exact ⟨[], .getting, by rw [hpc], rfl, .inl ⟨rfl, rfl, by decide⟩⟩
  | bench =>
    refine ⟨diff, _, ?_, hdiff, .inr (.inl ⟨rfl, hdiff, by decide⟩)⟩
    dsimp only
    rw [hstart diff hdiff]
    rfl
  | echo =>
    refine ⟨line, _, ?_, rfl, .inr (.inl ⟨rfl, hline, by decide⟩)⟩
    dsimp only
    rw [hstart line hline]
    rfl

-- Nothing has been read meanwhile.
theorem Received.keep (h : s.Received) (hget : s'.get = s.get) (hlines : s'.lines = s.lines)
    (harrived : s'.arrived = s.arrived) (hlive : ∀ e, s.pc ≠ .ended e)
    (hpc : s'.pc ≠ .ended .closed) : s'.Received where
  lines := by
    rw [hlines]
    exact h.lines
  taken := by
    rw [hlines, harrived]
    exact h.taken
  live _ := by
    unfold unread
    rw [hlines, hget, harrived]
    exact h.live hlive
  scanned := by
    rw [hget]
    exact h.scanned
  closed hclosed := absurd hclosed hpc

theorem Received.arrive (h : s.Received) {data : Bytes} (hup : s.hungUp = false)
    {b : CoroBuffer File} (hbuffer : b.buffer = s.get.b.buffer)
    (hdata : b.file.data = s.unread ++ data) :
    Received { s with get := { s.get with b := b }, arrived := s.arrived ++ data } where
  lines := h.lines
  taken := h.taken.trans (List.prefix_append _ _)
  live hlive := by
    show s.lines.flatten ++ (s.get.sl.flatten ++ (b.buffer ++ b.file.data)) = s.arrived ++ data
    rw [← h.live hlive, hbuffer, hdata]
    simp only [List.append_assoc]
  scanned := h.scanned
  closed hclosed := by
    have hnot := (h.closed hclosed).1
    rw [hup] at hnot
    cases hnot

theorem Received.round (h : s.Received) (hpc : s.pc = .getting) {diff : Bytes} (hdiff : diff ≠ [])
    (hround : Round s diff s') : s'.Received := by
  have hbytes := h.live fun e he => nomatch hpc.symm.trans he
  cases hround with
  | @goesOn xs file matched hne hxs hscan =>
    refine ⟨h.lines, h.taken, fun _ => ?_, ?_, fun hclosed => nomatch hpc.symm.trans hclosed⟩
    · show s.lines.flatten ++ ((s.get.sl ++ [xs]).flatten ++ ([] ++ file.data)) = s.arrived
      rw [← hbytes, ← hxs]
      simp only [List.flatten_append, List.flatten_singleton, List.append_assoc, List.nil_append]
    · show scan crlf.val (Delim.start crlf) 0 (s.get.sl ++ [xs]).flatten = .passed matched
      have hshift := scan_shift crlf.val s.get.matched 0 s.get.sl.flatten.length xs
      rw [hscan, Scan.shift] at hshift
      rw [List.flatten_append, List.flatten_singleton, scan_append, h.scanned]
      exact hshift
  | @line xs file i hxs hscan =>
    have hpiece := Delim.isPiece_append h.scanned hscan
    have hne : s.get.sl.flatten ++ xs.take (i + 1) ≠ [] := crlf.cutter.nonempty hpiece
    have hall : s.lines.flatten ++ ((s.get.sl.flatten ++ xs.take (i + 1)) ++
        (xs.drop (i + 1) ++ file.data)) = s.arrived := by
      rw [← hbytes, ← hxs, List.append_assoc, ← List.append_assoc (xs.take (i + 1)),
        List.take_append_drop]
    rcases gotLine_cases (s := { s with
      get := ⟨Delim.start crlf, [], ⟨file, xs.drop (i + 1)⟩⟩ }) hpc hne hdiff with
      ⟨out, pc, hgot, -, hcase⟩
    rw [hgot]
    have hflat : (s.lines ++ [s.get.sl.flatten ++ xs.take (i + 1)]).flatten =
        s.lines.flatten ++ (s.get.sl.flatten ++ xs.take (i + 1)) := by
      rw [List.flatten_append, List.flatten_singleton]
    refine ⟨?_, ?_, fun _ => ?_, rfl, fun hclosed => ?_⟩
    · intro l hl
      rcases List.mem_append.mp hl with hold | hnew
      · exact h.lines l hold
      · rw [List.mem_singleton.mp hnew]
        exact hpiece
    · show (s.lines ++ [s.get.sl.flatten ++ xs.take (i + 1)]).flatten <+: s.arrived
      rw [hflat, ← hall]
      exact (List.prefix_append_right_inj _).mpr (List.prefix_append _ _)
    · show (s.lines ++ [s.get.sl.flatten ++ xs.take (i + 1)]).flatten ++
        ([] ++ (xs.drop (i + 1) ++ file.data)) = s.arrived
      rw [hflat, ← hall, List.nil_append, List.append_assoc]
    · have hnot : pc = .ended .closed := hclosed
      rcases hcase with ⟨rfl, -⟩ | ⟨rfl, -⟩ | ⟨exits, rfl, -⟩ <;> cases hnot

-- At the end of the stream all its lines have been got.
theorem Received.close (h : s.Received) (hpc : s.pc = .getting) (hidle : s.Idle) :
    Splits crlf.cutter s.arrived s.lines s.get.sl.flatten := by
  have hbytes := h.live fun e he => nomatch hpc.symm.trans he
  rw [hidle.1.2, hidle.2, List.append_nil, List.append_nil] at hbytes
  rw [← hbytes]
  exact splits_of_pieces h.lines h.scanned_cut

theorem Moves.received {a : EchoAct} (hmoves : Moves s a s') (h : s.Received) : s'.Received := by
  cases hmoves with
  | arrive data hup hbuffer hdata => exact h.arrive hup hbuffer hdata
  | hangUp =>
    refine ⟨h.lines, h.taken, h.live, h.scanned, fun hclosed => ⟨rfl, (h.closed hclosed).2⟩⟩
  | @round a diff ha hpc s' hround => exact h.round hpc diff.property hround
  | closed hpc hidle hup hb =>
    refine ⟨h.lines, h.taken, fun hlive => absurd rfl (hlive .closed), rfl, fun _ => ?_⟩
    exact ⟨hup, _, h.close hpc hidle⟩
  | readFails errno hpc hb =>
    exact ⟨h.lines, h.taken, fun hlive => absurd rfl (hlive _), rfl, fun hclosed => nomatch hclosed⟩
  | @write c n pos hpc hn =>
    refine h.keep rfl rfl rfl (fun e he => nomatch hpc.symm.trans he) ?_
    dsimp only
    split
    · exact fun hclosed => nomatch hclosed
    · exact fun hclosed => nomatch hclosed
  | fails ha hpc => exact h.keep rfl rfl rfl hpc fun hclosed => nomatch hclosed
  | @shutdown exits hpc =>
    refine h.keep rfl rfl rfl (fun e he => nomatch hpc.symm.trans he) ?_
    cases exits
    · exact fun hclosed => nomatch hclosed
    · exact fun hclosed => nomatch hclosed

theorem owes_eq_nil (h : ∀ c, s.pc ≠ .writing c) : s.owes = [] := by
  unfold owes
  split
  · rename_i c hpc
    exact absurd hpc (h c)
  · rfl

theorem owes_writing {c : WriteCall} (hpc : s.pc = .writing c) : s.owes = c.buffer.drop c.p := by
  unfold owes
  rw [hpc]

theorem Serving.not_ended (h : s.Serving) (e : EchoEnd) : s.pc ≠ .ended e := by
  intro he
  rcases h with hpc | ⟨c, hpc⟩
  · cases hpc.symm.trans he
  · cases hpc.symm.trans he

-- Only the pc is elsewhere.
theorem Replied.keep (h : s.Replied) (hlines : s'.lines = s.lines) (houts : s'.outs = s.outs)
    (hsent : s'.sent = s.sent) (hpc : s'.pc = s.pc) : s'.Replied := by
  have howes : s'.owes = s.owes := by
    unfold owes
    rw [hpc]
  have hleaving : s'.leaving = s.leaving := by
    unfold leaving
    rw [hpc]
  constructor
  · rw [hlines, houts]
    exact h.answers
  · rw [hsent, howes, houts]
    exact h.sent
  · rw [hsent, howes, houts, hpc]
    exact h.all
  · rw [hpc]
    exact h.writing
  · rw [hlines, hleaving]
    exact h.left
  · unfold Serving
    rw [hlines, hpc]
    exact h.stays

theorem Replied.line (h : s.Replied) (hpc : s.pc = .getting) {line diff : Bytes} (hline : line ≠ [])
    (hdiff : diff ≠ []) : (s.gotLine line diff).Replied := by
  have hall : s.sent = s.outs.flatten := by
    have hall := h.all fun e he => nomatch hpc.symm.trans he
    rw [owes_eq_nil (fun c hc => nomatch hpc.symm.trans hc), List.append_nil] at hall
    exact hall
  have hstays := h.stays (.inl hpc)
  rcases gotLine_cases hpc hline hdiff with ⟨out, pc, hgot, hanswers, hcase⟩
  rw [hgot]
  have hflat : (s.outs ++ [out]).flatten = s.sent ++ out := by
    rw [List.flatten_append, List.flatten_singleton, hall]
  have howes : owes { s with pc := pc, lines := s.lines ++ [line], outs := s.outs ++ [out] } = out := by
    unfold owes
    rcases hcase with ⟨rfl, rfl, -⟩ | ⟨rfl, -⟩ | ⟨exits, rfl, rfl, -⟩
    · rfl
    · exact List.drop_zero
    · rfl
  have hsent : s.sent ++ owes { s with
      pc := pc, lines := s.lines ++ [line], outs := s.outs ++ [out] } = (s.outs ++ [out]).flatten := by
    rw [howes, hflat]
  refine ⟨?_, ?_, fun _ => hsent, fun c hc => ?_, fun exits hexits => ?_, fun hserving l hl => ?_⟩
  · exact List.rel_append h.answers (.cons hanswers .nil)
  · exact hsent ▸ List.prefix_rfl
  · rcases hcase with ⟨rfl, -⟩ | ⟨rfl, hout, -⟩ | ⟨exits, rfl, -⟩
    · cases hc
    · obtain rfl := EchoPc.writing.inj hc
      refine ⟨WriteCall.start_kept s.fd out, if_neg ?_⟩
      exact fun hlen => hout (List.eq_nil_of_length_eq_zero hlen)
    · cases hc
  · rcases hcase with ⟨rfl, -⟩ | ⟨rfl, -⟩ | ⟨exits', rfl, -, hcmd⟩
    · cases hexits
    · cases hexits
    · obtain rfl := Option.some.inj hexits
      exact ⟨line, List.mem_append_right _ (.head _), hcmd⟩
  · rcases List.mem_append.mp hl with hold | hnew
    · exact hstays l hold
    · rw [List.mem_singleton.mp hnew]
      rcases hcase with ⟨-, -, hgo⟩ | ⟨-, -, hgo⟩ | ⟨exits, rfl, -⟩
      · exact hgo
      · exact hgo
      · rcases hserving with hget | ⟨c, hwrite⟩
        · cases hget
        · cases hwrite

theorem Replied.write (h : s.Replied) {c : WriteCall} (hpc : s.pc = .writing c) {n : Nat} {pos : 0 < n}
    (hn : c.Possible (.accepted n pos)) :
    Replied { s with
      pc := if (c.answered (.accepted n pos)).pc = .returned then .getting
        else .writing (c.answered (.accepted n pos))
      sent := s.sent ++ (c.buffer.drop c.p).take n } := by
  rcases h.writing c hpc with ⟨hkept, hwriting⟩
  have hall := h.all fun e he => nomatch hpc.symm.trans he
  rw [owes_writing hpc] at hall
  have hleft : (c.buffer.drop c.p).take n ++ c.buffer.drop (c.p + n) = c.buffer.drop c.p := by
    rw [← List.drop_drop, List.take_append_drop]
  have hgoes : (s.sent ++ (c.buffer.drop c.p).take n) ++ c.buffer.drop (c.p + n) =
      s.outs.flatten := by
    rw [List.append_assoc, hleft, hall]
  have hstays := h.stays (.inr ⟨c, hpc⟩)
  rcases WriteCall.accepted_cases hkept hwriting hn with ⟨hret, hlen⟩ | ⟨hkept', hwriting', -⟩
  · -- all of it has been taken
    rw [if_pos hret]
    rw [List.drop_eq_nil_of_le hlen.ge] at hgoes
    refine ⟨h.answers, ?_, fun _ => hgoes, (fun c' hc' => nomatch hc'), (fun e he => nomatch he),
      fun _ => hstays⟩
    exact hgoes ▸ List.prefix_rfl
  · have hne : (c.answered (.accepted n pos)).pc ≠ .returned := by
      rw [hwriting']
      exact WritePc.noConfusion
    rw [if_neg hne]
    refine ⟨h.answers, ?_, fun _ => hgoes, fun c' hc' => ?_, (fun e he => nomatch he),
      fun _ => hstays⟩
    · exact hgoes ▸ List.prefix_rfl
    · obtain rfl := EchoPc.writing.inj hc'
      exact ⟨hkept', hwriting'⟩

-- A session that ends has nothing left to write, or throws.
theorem Replied.finish (h : s.Replied) {e : EchoEnd} (hpc : ∀ e, s.pc ≠ .ended e)
    (howes : s.owes = [] ∨ ∃ err, e = .threw err)
    (hleft : leaving { s with pc := .ended e } = none ∨
      leaving { s with pc := .ended e } = s.leaving) {get : CoroBuffer.Getting File crlf.val.length} :
    Replied { s with get := get, pc := .ended e } where
  answers := h.answers
  sent := by
    show s.sent ++ [] <+: s.outs.flatten
    rw [List.append_nil]
    exact (List.prefix_append _ _).trans h.sent
  all hnot := by
    show s.sent ++ [] = s.outs.flatten
    rcases howes with hnil | ⟨err, rfl⟩
    · rw [← hnil]
      exact h.all fun err herr => hpc _ herr
    · exact absurd rfl (hnot err)
  writing c hc := nomatch hc
  left exits hexits := by
    rcases hleft with hnone | hsame
    · cases hnone.symm.trans hexits
    · exact h.left exits (hsame.symm.trans hexits)
  stays hserving := absurd rfl (hserving.not_ended e)

theorem Moves.replied {a : EchoAct} (hmoves : Moves s a s') (h : s.Replied) (hrec : s.Received) :
    s'.Replied := by
  cases hmoves with
  | arrive data hup hbuffer hdata => exact h.keep rfl rfl rfl rfl
  | hangUp => exact h.keep rfl rfl rfl rfl
  | @round a diff ha hpc s' hround =>
    cases hround with
    | goesOn hne hxs hscan => exact h.keep rfl rfl rfl rfl
    | @line xs file i hxs hscan =>
      have hline := crlf.cutter.nonempty (Delim.isPiece_append hrec.scanned hscan)
      have hnext : Replied { s with get := ⟨Delim.start crlf, [], ⟨file, xs.drop (i + 1)⟩⟩ } :=
        h.keep rfl rfl rfl rfl
      exact hnext.line hpc hline diff.property
  | closed hpc hidle hup hb =>
    apply h.finish (fun e he => nomatch hpc.symm.trans he) (.inl ?_) (.inl rfl)
    exact owes_eq_nil fun c hc => nomatch hpc.symm.trans hc
  | readFails errno hpc hb =>
    exact h.finish (fun e he => nomatch hpc.symm.trans he) (.inr ⟨_, rfl⟩) (.inl rfl)
  | write hpc hn => exact h.write hpc hn
  | fails ha hpc => exact h.finish hpc (.inr ⟨_, rfl⟩) (.inl rfl)
  | @shutdown exits hpc =>
    apply h.finish (fun e he => nomatch hpc.symm.trans he) (.inl ?_) (.inr ?_)
    · exact owes_eq_nil fun c hc => nomatch hpc.symm.trans hc
    · unfold leaving
      rw [hpc]
      cases exits <;> rfl

/-- The invariant of a session. -/
structure Kept (s : EchoSession) : Prop extends Received s, Replied s

theorem Kept.step (h : s.Kept) {a : EchoAct} (hstep : s.step a = some s') : s'.Kept :=
  ⟨(step_moves hstep).received h.toReceived, (step_moves hstep).replied h.toReplied h.toReceived⟩

theorem kept_init (fd : Fd) : Kept { fd := fd } where
  lines _ hl := absurd hl List.not_mem_nil
  taken := List.nil_prefix
  live _ := rfl
  scanned := rfl
  closed hclosed := nomatch hclosed
  answers := .nil
  sent := List.prefix_rfl
  all _ := rfl
  writing _ hc := nomatch hc
  left _ he := nomatch he
  stays _ _ hl := absurd hl List.not_mem_nil

theorem runs_kept {fd : Fd} {acts : List EchoAct} (run : Runs fd acts s) : s.Kept :=
  Run.invariant (I := Kept) (fun _ _ _ h hstep => h.step hstep) run (kept_init fd)

-- With nothing to read, or at the end of the stream, all lines have been got and answered.
theorem Kept.all_answered (h : s.Kept) (hend : s.Idle ∨ s.pc = .ended .closed) :
    (∃ r, Splits crlf.cutter s.arrived s.lines r) ∧ s.sent = s.outs.flatten := by
  have hpc : s.pc = .getting ∨ s.pc = .ended .closed :=
    hend.imp (fun hidle => isGetting_iff.mp hidle.1.1) id
  refine ⟨?_, ?_⟩
  · rcases hend with hidle | hclosed
    · exact ⟨_, h.close (isGetting_iff.mp hidle.1.1) hidle⟩
    · exact (h.closed hclosed).2
  · have hthrew : ∀ e, s.pc ≠ .ended (.threw e) := by
      intro e he
      rcases hpc with hpc | hpc <;> cases hpc.symm.trans he
    have hnone : s.owes = [] := by
      apply owes_eq_nil
      intro c hc
      rcases hpc with hpc | hpc <;> cases hpc.symm.trans hc
    have hall := h.all hthrew
    rw [hnone, List.append_nil] at hall
    exact hall

/-- However its input arrives, a session answers the complete lines that `get` finds in it one after the
    other: it has sent a first part of the answers to the lines it has got, and of nothing else; and
    when it waits with nothing to read, or has come to the end of the stream, it has answered all of
    them.  In `"a\r\r\n"` the scan finds no line. -/
theorem session_answers {fd : Fd} {acts : List EchoAct} (run : Runs fd acts s) :
    ∃ lines r, Splits crlf.cutter s.arrived lines r ∧ s.lines <+: lines ∧
      List.Forall₂ Answers s.lines s.outs ∧ s.sent <+: s.outs.flatten ∧
      (s.Idle ∨ s.pc = .ended .closed → s.lines = lines ∧ s.sent = s.outs.flatten) := by
  have h := runs_kept run
  rcases exists_splits crlf.cutter s.arrived with ⟨lines, r, hsplits⟩
  refine ⟨lines, r, hsplits, ?_, h.answers, (List.prefix_append _ _).trans h.sent, fun hend => ?_⟩
  · have hown : Splits crlf.cutter (s.lines.flatten ++ []) s.lines [] := splits_of_pieces h.lines rfl
    rw [List.append_nil] at hown
    exact hown.prefix hsplits h.taken
  · rcases h.all_answered hend with ⟨⟨r', hown⟩, hsent⟩
    exact ⟨(hown.unique hsplits).1, hsent⟩

/-- `"0"`. -/
def noFigures : Figures := ⟨[48], List.cons_ne_nil _ _⟩

/-- `"hi\r\n"` comes in two parts and is sent back in two. -/
def echoesHi : List EchoAct :=
  [.arrive [104, 105, 13], .read 8 (Nat.succ_pos _) noFigures, .arrive [10], .read 8 (Nat.succ_pos _) noFigures,
    .write 1 (Nat.succ_pos _), .write 3 (Nat.succ_pos _)]

theorem session_answers_hi :
    ∃ s, Runs 5 echoesHi s ∧ s.Idle ∧ s.sent = [104, 105, 13, 10] ∧
      ∃ lines r, Splits crlf.cutter s.arrived lines r ∧ s.lines <+: lines ∧
        List.Forall₂ Answers s.lines s.outs ∧ s.sent <+: s.outs.flatten ∧
        (s.Idle ∨ s.pc = .ended .closed → s.lines = lines ∧ s.sent = s.outs.flatten) := by
  have run : ∃ s, Runs 5 echoesHi s ∧ s.Idle ∧ s.sent = [104, 105, 13, 10] :=
    ⟨_, run_of_exec rfl, ⟨⟨rfl, rfl⟩, rfl⟩, rfl⟩
  rcases run with ⟨s, hrun, hidle, hsent⟩
  exact ⟨s, hrun, hidle, hsent, session_answers hrun⟩

end EchoSession

end Coropp
