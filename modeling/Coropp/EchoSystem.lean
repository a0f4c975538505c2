import Coropp.EchoExchange
import Coropp.Lib.Maps

/-!
# The echo server and its clients

All the clients of one run of the client program, each with its connection and the session at the
other end.  A step is a system call of one of them that moves bytes or ends a stage, with what the
kernel makes of it; a call that would block is none, and neither are the event loops' own.  The two
event loops are left out: anyone who can go on may be next, also where a real poller would miss him, a
blocking `read` of another session would hold him up, or the client program has called `exit`.
-/

namespace Coropp

open Transition

/-- A client, its session with what has arrived there, and the bytes on their way to the client. -/
structure EchoConn where
  client : EchoClient
  session : EchoSession
  connected : Bool := false
  accepted : Bool := false
  toClient : Bytes := []

/-- `counter` and `clientExit` belong to the client program, `serverExit` to the server; `serverUp` is
    false once the server's event loop has come to its end, and its descriptors are closed. -/
structure EchoSystem where
  conns : List EchoConn
  counter : Int
  clientExit : Bool := false
  serverExit : Bool := false
  serverUp : Bool := true

inductive ClientAct where
  | connect
  | connectFails (e : OSError)
  | write (n : Nat) (pos : 0 < n)
  | writeFails (e : OSError)
  | read (n : Nat) (pos : 0 < n)
  | readEof
  | readFails (e : OSError)

inductive EchoStep where
  | client (k : Nat) (a : ClientAct)
  /-- The server accepts the connection of client `k`. -/
  | accept (k : Nat)
  /-- The session of client `k` makes a step of its own. -/
  | session (k : Nat) (a : EchoAct)
  /-- The event loop of the server ends. -/
  | serverStops

namespace EchoConn

/-- The session's socket is closed. -/
def serverClosed (c : EchoConn) : Bool :=
  match c.session.pc with
  | .ended _ => true
  | _ => false

/-- The client goes on as `cl`; the peer of one that closes its descriptor gets to know. -/
def setClient (c : EchoConn) (cl : EchoClient) : EchoConn :=
  { c with
    client := cl
    session := { c.session with hungUp := c.session.hungUp || cl.isClosed } }

/-- A connection has room for so much more. -/
def roomFor (args : EchoArgs) (c : EchoConn) : EchoAct → Bool
  | .write n _ => c.toClient.length + n ≤ args.roomDown
  | .scan diff | .read _ _ diff => diff.val.length ≤ args.figures
  | _ => true

/-- The session makes a step; what it has written is on its way. -/
def sessionStep (args : EchoArgs) (c : EchoConn) (a : EchoAct) : Option EchoConn :=
  if c.accepted ∧ a.own ∧ c.roomFor args a then
    (c.session.step a).map fun s =>
      { c with session := s, toClient := c.toClient ++ s.sent.drop c.session.sent.length }
  else none

/-- The client makes a step, with the counter of its program. -/
def clientStep (args : EchoArgs) (c : EchoConn) (counter : Int) (serverUp : Bool) :
    ClientAct → Option (EchoConn × Int)
  | .connect =>
    match c.client.pc with
    | .connecting =>
      let r := c.client.nextPacket args counter
      some ({ c with connected := true }.setClient r.1, r.2)
    | _ => none
  | .connectFails e =>
    match c.client.pc with
    | .connecting => some (c.setClient { c.client with pc := .threw e }, counter)
    | _ => none
  | .write n pos =>
    match c.client.pc with
    | .writing stage call =>
      if call.Possible (.accepted n pos) ∧ c.session.unread.length + n ≤ args.roomUp then
        (c.session.step (.arrive ((call.buffer.drop call.p).take n))).map fun s =>
          ({ c with session := s, client := c.client.wrote args stage call n pos }, counter)
      else none
    | _ => none
  | .writeFails e =>
    match c.client.pc with
    | .writing _ _ => some (c.setClient { c.client with pc := .threw e }, counter)
    | _ => none
  | .read n pos =>
    match c.client.pc with
    | .reading stage count =>
      if c.toClient = [] then none
      else
        match File.readLoop count c.toClient [.chunk n pos] with
        | (.ok data, f) =>
          let r := c.client.gotData args stage count data counter
          some ({ c with toClient := f.data }.setClient r.1, r.2)
        | _ => none
    | _ => none
  | .readEof =>
    match c.client.pc with
    | .reading stage _ =>
      if c.toClient = [] ∧ (c.serverClosed ∨ serverUp = false) then
        some (c.setClient (c.client.gotEof stage), counter)
      else none
    | _ => none
  | .readFails e =>
    match c.client.pc with
    | .reading _ _ => some (c.setClient { c.client with pc := .threw e }, counter)
    | _ => none

/-- The end of `client`: `if (last) coro::exit ()`. -/
def exits (c : EchoConn) : Bool :=
  match c.client.pc with
  | .returned => c.client.last
  | _ => false

/-- The session has called `coro::exit ()`. -/
def stopsServer (c : EchoConn) : Bool :=
  match c.session.pc with
  | .ended .shutdown => true
  | _ => false

end EchoConn

namespace EchoSystem

/-- `main` has made `nc` clients, and counted them. -/
def start (args : EchoArgs) (fd : Nat → Fd) : EchoSystem where
  conns := (List.range args.nc).map fun k => { client := { fd := fd k }, session := { fd := fd k } }
  counter := args.nc

def step (args : EchoArgs) (w : EchoSystem) : EchoStep → Option EchoSystem
  | .client k a =>
    (w.conns[k]?).bind fun c =>
      (c.clientStep args w.counter w.serverUp a).map fun r =>
        { w with
          conns := w.conns.set k r.1
          counter := r.2
          clientExit := w.clientExit || r.1.exits }
  | .accept k =>
    (w.conns[k]?).bind fun c =>
      if w.serverUp ∧ c.connected ∧ c.accepted = false then
        some { w with conns := w.conns.set k { c with accepted := true } }
      else none
  | .session k a =>
    if w.serverUp then
      (w.conns[k]?).bind fun c =>
        (c.sessionStep args a).map fun c' =>
          { w with conns := w.conns.set k c', serverExit := w.serverExit || c'.stopsServer }
    else none
  | .serverStops => if w.serverUp ∧ w.serverExit then some { w with serverUp := false } else none

def Runs (args : EchoArgs) (fd : Nat → Fd) (acts : List EchoStep) (w : EchoSystem) : Prop :=
  Run (ofFun (step args)) (start args fd) acts w

end EchoSystem

/-! ## One connection -/

namespace EchoConn

variable {args : EchoArgs} {c c' : EchoConn} {counter counter' : Int} {up : Bool}

/-- How a step of the client moves its connection on. -/
inductive Moves (args : EchoArgs) (c : EchoConn) (counter : Int) (up : Bool) :
    ClientAct → EchoConn → Int → Prop
  | connect (hpc : c.client.pc = .connecting) :
      Moves args c counter up .connect
        ({ c with connected := true }.setClient (c.client.nextPacket args counter).1)
        (c.client.nextPacket args counter).2
  | fails {a : ClientAct} {e : OSError} (ha : a = .connectFails e ∨ a = .writeFails e ∨ a = .readFails e)
      (hopen : c.client.isClosed = false) (hnot : ∀ e, c.client.pc ≠ .threw e) :
      Moves args c counter up a (c.setClient { c.client with pc := .threw e }) counter
  | write {n : Nat} {pos : 0 < n} {stage : ClientStage} {call : WriteCall} {s : EchoSession}
      (hpc : c.client.pc = .writing stage call) (hn : call.Possible (.accepted n pos))
      (hroom : c.session.unread.length + n ≤ args.roomUp)
      (hs : c.session.step (.arrive ((call.buffer.drop call.p).take n)) = some s) :
      Moves args c counter up (.write n pos)
        { c with session := s, client := c.client.wrote args stage call n pos } counter
  | read {n : Nat} {pos : 0 < n} {stage : ClientStage} {count : Nat} {data rest : Bytes}
      (hpc : c.client.pc = .reading stage count) (hdata : data ++ rest = c.toClient)
      (hlen : data.length ≤ count) (hsome : 0 < count → data ≠ []) :
      Moves args c counter up (.read n pos)
        ({ c with toClient := rest }.setClient (c.client.gotData args stage count data counter).1)
        (c.client.gotData args stage count data counter).2
  | readEof {stage : ClientStage} {count : Nat} (hpc : c.client.pc = .reading stage count)
      (hempty : c.toClient = []) (hend : c.serverClosed = true ∨ up = false) :
      Moves args c counter up .readEof (c.setClient (c.client.gotEof stage)) counter

theorem clientStep_moves {a : ClientAct}
    (h : c.clientStep args counter up a = some (c', counter')) :
    Moves args c counter up a c' counter' := by
  unfold clientStep at h
  cases a with
  | connect =>
    dsimp only at h
    split at h
    · rename_i hpc
      obtain ⟨rfl, rfl⟩ := Prod.mk.inj (Option.some.inj h)
      exact .connect hpc
    · cases h
  | connectFails e =>
    dsimp only at h
    split at h
    · rename_i hpc
      obtain ⟨rfl, rfl⟩ := Prod.mk.inj (Option.some.inj h)
      refine .fails (.inl rfl) ?_ ?_
      · rw [EchoClient.isClosed, hpc]
      · intro e he
        cases hpc.symm.trans he
    · cases h
  | write n pos =>
    dsimp only at h
    split at h
    · rename_i stage call hpc
      split at h
      · rename_i hcan
        rcases Option.map_eq_some_iff.mp h with ⟨s, hs, h⟩
        obtain ⟨rfl, rfl⟩ := Prod.mk.inj h
        exact .write hpc hcan.1 hcan.2 hs
      · cases h
    · cases h
  | writeFails e =>
    dsimp only at h
    split at h
    · rename_i stage call hpc
      obtain ⟨rfl, rfl⟩ := Prod.mk.inj (Option.some.inj h)
      refine .fails (.inr (.inl rfl)) ?_ ?_
      · rw [EchoClient.isClosed, hpc]
      · intro e he
        cases hpc.symm.trans he
    · cases h
  | read n pos =>
    dsimp only at h
    split at h
    · rename_i stage count hpc
      split at h
      · cases h
      · rename_i hne
        unfold File.readLoop at h
        dsimp only at h
        obtain ⟨rfl, rfl⟩ := Prod.mk.inj (Option.some.inj h)
        refine .read hpc (List.take_append_drop _ _) ?_ fun hpos => ?_
        · rw [List.length_take]
          omega
        · have htoClient := List.length_pos_of_ne_nil hne
          apply List.ne_nil_of_length_pos
          rw [List.length_take]
          unfold maxRw
          omega
    · cases h
  | readEof =>
    dsimp only at h
    split at h
    · rename_i stage count hpc
      split at h
      · rename_i hend
        obtain ⟨rfl, rfl⟩ := Prod.mk.inj (Option.some.inj h)
        exact .readEof hpc hend.1 hend.2
      · cases h
    · cases h
  | readFails e =>
    dsimp only at h
    split at h
    · rename_i stage count hpc
      obtain ⟨rfl, rfl⟩ := Prod.mk.inj (Option.some.inj h)
      refine .fails (.inr (.inr rfl)) ?_ ?_
      · rw [EchoClient.isClosed, hpc]
      · intro e he
        cases hpc.symm.trans he
    · cases h

/-- The invariant of a connection. -/
structure Kept (args : EchoArgs) (c : EchoConn) : Prop where
  session : c.session.Kept
  /-- Nothing is lost on the way back. -/
  pipe : c.client.heard ++ c.toClient = c.session.sent
  placed : EchoClient.Placed args c.client c.session.arrived
  hungUp : c.session.hungUp = c.client.isClosed

-- What the client has heard, or can hear, is some of its messages, as long as it has sent no others.
theorem Kept.back (h : c.Kept args) {k : Nat} (hk : c.session.arrived = args.packets k) {data rest : Bytes}
    (hdata : data ++ rest = c.toClient) : c.client.heard ++ data <+: args.packets k := by
  have hpre : c.session.arrived <+: args.packets k := hk ▸ List.prefix_rfl
  rcases h.session.sent_packets hpre with ⟨j, hj, -, houts⟩
  have hsent : c.session.sent <+: args.packets j := by
    have hsent := (List.prefix_append _ _).trans h.session.sent
    rw [houts] at hsent
    exact hsent
  rw [← h.pipe, ← hdata, ← List.append_assoc] at hsent
  exact ((List.prefix_append _ _).trans hsent).trans (args.packets_mono hj)

-- The peer of a client that hangs up does nothing else.
theorem Kept.setClient (h : c.Kept args) {cl : EchoClient} {toClient : Bytes} {connected : Bool}
    (hpipe : cl.heard ++ toClient = c.session.sent)
    (hplaced : EchoClient.Placed args cl c.session.arrived) (hopen : c.client.isClosed = false) :
    Kept args ({ c with toClient := toClient, connected := connected }.setClient cl) where
  session := by
    show EchoSession.Kept { c.session with hungUp := c.session.hungUp || cl.isClosed }
    rw [h.hungUp, hopen, Bool.false_or]
    cases hclosed : cl.isClosed with
    | true => exact h.session.step (a := .hangUp) rfl
    | false =>
      have hsame : c.session.hungUp = false := h.hungUp.trans hopen
      rw [← hsame]
      exact h.session
  pipe := hpipe
  placed := hplaced
  hungUp := by
    show (c.session.hungUp || cl.isClosed) = cl.isClosed
    rw [h.hungUp, hopen, Bool.false_or]

theorem Moves.kept {a : ClientAct} (hmoves : Moves args c counter up a c' counter')
    (h : c.Kept args) : c'.Kept args := by
  have hclosed : ∀ pc, c.client.pc = pc →
      EchoClient.isClosed { c.client with pc := pc } = c.client.isClosed := by
    rintro pc rfl
    rfl
  cases hmoves with
  | connect hpc =>
    have hplaced := h.placed
    unfold EchoClient.Placed at hplaced
    rw [hpc] at hplaced
    rcases hplaced with ⟨hfin, hlast, hi, harrived, hheard⟩
    have hsame : (c.client.nextPacket args counter).1.heard = c.client.heard :=
      EchoClient.nextPacket_heard _ _ _
    refine h.setClient ?_ ?_ (hclosed _ hpc).symm
    · rw [hsame]
      exact h.pipe
    · apply EchoClient.placed_nextPacket (hi ▸ Nat.zero_le _) hfin hlast
      · rw [hi, harrived]
        rfl
      · rw [hi, hheard]
        rfl
  | fails ha hopen hnot => exact h.setClient h.pipe (h.placed.threw _) hopen
  | @write n pos stage call s hpc hn hroom hs =>
    rcases EchoSession.step_arrive hs with ⟨hup, harrived, hup', hsent, -⟩
    refine ⟨h.session.step hs, ?_, ?_, ?_⟩
    · show c.client.heard ++ c.toClient = s.sent
      rw [hsent]
      exact h.pipe
    · show EchoClient.Placed args _ s.arrived
      rw [harrived]
      exact h.placed.wrote hpc hn
    · show s.hungUp = EchoClient.isClosed _
      rw [hup', hup]
      unfold EchoClient.wrote EchoClient.isClosed
      dsimp only
      split
      · rename_i heq
        split at heq <;> cases heq
      · rename_i heq
        split at heq <;> cases heq
      · rfl
  | @read n pos stage count data rest hpc hdata hlen hsome =>
    refine h.setClient ?_ ?_ (hclosed _ hpc).symm
    · rw [EchoClient.gotData_heard, List.append_assoc, hdata]
      exact h.pipe
    · exact h.placed.gotData hpc hlen (fun k hk => h.back hk hdata) counter
  | @readEof stage count hpc hempty hend =>
    refine h.setClient ?_ (h.placed.gotEof hpc) (hclosed _ hpc).symm
    rw [EchoClient.gotEof_heard]
    exact h.pipe

theorem sessionStep_moves {a : EchoAct} (h : c.sessionStep args a = some c') :
    ∃ s, c.session.step a = some s ∧ c.accepted = true ∧ a.own = true ∧ c.roomFor args a = true ∧
      c' = { c with session := s, toClient := c.toClient ++ s.sent.drop c.session.sent.length } := by
  unfold sessionStep at h
  split at h
  · rename_i hcan
    rcases Option.map_eq_some_iff.mp h with ⟨s, hs, rfl⟩
    exact ⟨s, hs, hcan.1, hcan.2.1, hcan.2.2, rfl⟩
  · cases h

theorem Kept.sessionStep (h : c.Kept args) {a : EchoAct} (hstep : c.sessionStep args a = some c') :
    c'.Kept args := by
  rcases sessionStep_moves hstep with ⟨s, hs, -, hown, -, rfl⟩
  rcases (EchoSession.step_moves hs).frame hown with ⟨harrived, hup, hsent⟩
  refine ⟨h.session.step hs, ?_, ?_, hup.trans h.hungUp⟩
  · show c.client.heard ++ (c.toClient ++ s.sent.drop c.session.sent.length) = s.sent
    rw [← List.append_assoc, h.pipe]
    rcases hsent with ⟨more, hmore⟩
    rw [← hmore, List.drop_left]
  · show EchoClient.Placed args c.client s.arrived
    rw [harrived]
    exact h.placed

theorem Moves.isOpen {a : ClientAct} (hmoves : Moves args c counter up a c' counter') :
    c.client.isClosed = false := by
  unfold EchoClient.isClosed
  cases hmoves with
  | connect hpc => rw [hpc]
  | fails ha hopen hnot => exact hopen
  | write hpc hn hroom hs => rw [hpc]
  | read hpc hdata hlen hsome => rw [hpc]
  | readEof hpc hempty hend => rw [hpc]

theorem Moves.session_pc {a : ClientAct} (hmoves : Moves args c counter up a c' counter') :
    c'.session.pc = c.session.pc := by
  cases hmoves with
  | write hpc hn hroom hs => exact (EchoSession.step_arrive hs).2.2.2.2
  | connect | fails | read | readEof => rfl

-- A client counts itself down once.
theorem Moves.counts {a : ClientAct} (hmoves : Moves args c counter up a c' counter')
    (h : c.Kept args) :
    c'.client.finished = c.client.finished ∧ c'.client.last = c.client.last ∧ counter' = counter ∨
      c.client.finished = false ∧ c.client.last = false ∧ c'.client.finished = true ∧
        counter' = counter - 1 ∧ c'.client.last = decide (counter' = 0) := by
  have hnext : ∀ cl : EchoClient, cl.finished = false → cl.last = false →
      (cl.nextPacket args counter).1.finished = false ∧ (cl.nextPacket args counter).1.last = false ∧
          (cl.nextPacket args counter).2 = counter ∨
        (cl.nextPacket args counter).1.finished = true ∧
          (cl.nextPacket args counter).2 = counter - 1 ∧
          (cl.nextPacket args counter).1.last = decide ((cl.nextPacket args counter).2 = 0) := by
    intro cl hfin hlast
    unfold EchoClient.nextPacket
    dsimp only
    split
    · exact .inl ⟨hfin, hlast, rfl⟩
    · right
      split <;> exact ⟨rfl, rfl, rfl⟩
  have hplaced := h.placed
  unfold EchoClient.Placed at hplaced
  cases hmoves with
  | connect hpc =>
    rw [hpc] at hplaced
    rcases hplaced with ⟨hfin, hlast, -⟩
    rcases hnext c.client hfin hlast with ⟨hfin', hlast', hcounter⟩ | hcounted
    · exact .inl ⟨hfin'.trans hfin.symm, hlast'.trans hlast.symm, hcounter⟩
    · exact .inr ⟨hfin, hlast, hcounted⟩
  | fails | write => exact .inl ⟨rfl, rfl, rfl⟩
  | @read n pos stage count data rest hpc hdata hlen hsome =>
    rw [hpc] at hplaced
    cases stage with
    | packet =>
      have hfin := hplaced.1.finished
      have hlast := hplaced.1.last
      show ((c.client.gotData args .packet count data counter).1.finished = c.client.finished ∧
          (c.client.gotData args .packet count data counter).1.last = c.client.last ∧ _) ∨
        (_ ∧ _ ∧ (c.client.gotData args .packet count data counter).1.finished = true ∧ _ ∧
          (c.client.gotData args .packet count data counter).1.last = _)
      unfold EchoClient.gotData
      dsimp only
      split
      · have hstart := hnext { c.client with heard := c.client.heard ++ data, i := c.client.i + 1 }
          hfin hlast
        rcases hstart with ⟨hfin', hlast', hcounter⟩ | hcounted
        · exact .inl ⟨hfin'.trans hfin.symm, hlast'.trans hlast.symm, hcounter⟩
        · exact .inr ⟨hfin, hlast, hcounted⟩
      · exact .inl ⟨rfl, rfl, rfl⟩
    | bench | bye => exact .inl ⟨rfl, rfl, rfl⟩
  | @readEof stage count hpc =>
    cases stage <;> exact .inl ⟨rfl, rfl, rfl⟩

/-- A session stops the server only for the client that was the last to finish. -/
theorem Kept.stopsServer (h : c.Kept args) (hstops : c.stopsServer = true) : c.client.last = true := by
  have hleaving : c.session.leaving = some true := by
    unfold EchoConn.stopsServer at hstops
    split at hstops
    · rename_i hpc
      rw [EchoSession.leaving, hpc]
    · cases hstops
  rcases h.session.left true hleaving with ⟨line, hline, hcmd⟩
  have hplan := (h.session.lines_plan h.placed.said).subset hline
  rcases List.mem_append.mp hplan with hmessage | hbye
  · rw [(List.mem_replicate.mp hmessage).2, args.message_echo] at hcmd
    cases hcmd
  · cases hlast : c.client.last with
    | true => rfl
    | false =>
      rw [hlast] at hbye
      rw [List.mem_singleton.mp hbye] at hcmd
      cases hcmd

end EchoConn

/-! ## All of them -/

namespace EchoSystem

variable {args : EchoArgs} {fd : Nat → Fd} {w w' : EchoSystem}

/-- How many clients have counted themselves down. -/
def finished (w : EchoSystem) : Nat := w.conns.countP (·.client.finished)

/-- How many are to stop the server. -/
def lasts (w : EchoSystem) : Nat := w.conns.countP (·.client.last)

/-- The invariant of the whole. -/
structure Kept (args : EchoArgs) (w : EchoSystem) : Prop where
  conns : ∀ c ∈ w.conns, c.Kept args
  length : w.conns.length = args.nc
  counter : w.counter + w.finished = args.nc
  lasts : w.lasts = if w.counter = 0 ∧ 0 < args.nc then 1 else 0
  clientExit : w.clientExit = true ↔ ∃ c ∈ w.conns, c.exits = true
  serverExit : w.serverExit = true → ∃ c ∈ w.conns, c.stopsServer = true
  serverUp : w.serverUp = false → w.serverExit = true

theorem kept_start (args : EchoArgs) (fd : Nat → Fd) : Kept args (start args fd) where
  conns c hc := by
    rcases List.mem_map.mp hc with ⟨k, -, rfl⟩
    exact ⟨EchoSession.kept_init _, rfl, ⟨rfl, rfl, rfl, rfl, rfl⟩, rfl⟩
  length := by
    show ((List.range args.nc).map _).length = args.nc
    rw [List.length_map, List.length_range]
  counter := by
    have hnone : finished (start args fd) = 0 := by
      apply List.countP_eq_zero.mpr
      intro c hc
      rcases List.mem_map.mp hc with ⟨k, -, rfl⟩
      exact Bool.false_ne_true
    rw [hnone]
    rfl
  lasts := by
    have hnone : lasts (start args fd) = 0 := by
      apply List.countP_eq_zero.mpr
      intro c hc
      rcases List.mem_map.mp hc with ⟨k, -, rfl⟩
      exact Bool.false_ne_true
    rw [hnone, if_neg]
    rintro ⟨hzero, hpos⟩
    have hcounter : ((args.nc : Nat) : Int) = 0 := hzero
    omega
  clientExit := by
    refine iff_of_false (fun h => nomatch h) ?_
    rintro ⟨c, hc, hexits⟩
    rcases List.mem_map.mp hc with ⟨k, -, rfl⟩
    cases hexits
  serverExit h := nomatch h
  serverUp h := nomatch h

-- A connection goes on whose client stays as it is.
theorem Kept.sameClient (h : w.Kept args) {k : Nat} {c c' : EchoConn} (hc : w.conns[k]? = some c)
    (hkept : c'.Kept args) (hclient : c'.client = c.client)
    (hstops : c.stopsServer = true → c'.stopsServer = true) {exit : Bool}
    (hold : w.serverExit = true → exit = true)
    (hnew : exit = true → w.serverExit = true ∨ c'.stopsServer = true) :
    Kept args { w with conns := w.conns.set k c', serverExit := exit } where
  conns := Maps.forall_mem_set h.conns hkept
  length := List.length_set.trans h.length
  counter := by
    have hsum := Maps.countP_set hc c' (·.client.finished)
    rw [hclient] at hsum
    have hsame : finished { w with conns := w.conns.set k c' } = w.finished := Nat.add_right_cancel hsum
    show w.counter + (finished { w with conns := w.conns.set k c' } : Int) = args.nc
    rw [hsame]
    exact h.counter
  lasts := by
    have hsum := Maps.countP_set hc c' (·.client.last)
    rw [hclient] at hsum
    exact (Nat.add_right_cancel hsum).trans h.lasts
  clientExit := by
    have hexits : c'.exits = c.exits := by
      unfold EchoConn.exits
      rw [hclient]
    have hmem : c ∈ w.conns := List.mem_of_getElem? hc
    show w.clientExit = true ↔ ∃ x ∈ w.conns.set k c', x.exits = true
    rw [Maps.exists_mem_set hc fun hc => hexits.trans hc, h.clientExit]
    exact ⟨.inl, fun hor => hor.elim id fun hc' => ⟨c, hmem, hexits.symm.trans hc'⟩⟩
  serverExit hexit := by
    rw [Maps.exists_mem_set hc hstops]
    exact (hnew hexit).imp h.serverExit id
  serverUp hdown := hold (h.serverUp hdown)

theorem Kept.clientStep (h : w.Kept args) {k : Nat} {c c' : EchoConn} {a : ClientAct}
    {counter' : Int} (hc : w.conns[k]? = some c)
    (hmoves : EchoConn.Moves args c w.counter w.serverUp a c' counter') :
    Kept args { w with
      conns := w.conns.set k c'
      counter := counter'
      clientExit := w.clientExit || c'.exits } := by
  have hmem : c ∈ w.conns := List.mem_of_getElem? hc
  have hfinished := Maps.countP_set hc c' (·.client.finished)
  have hlasts := Maps.countP_set hc c' (·.client.last)
  have hle : (w.conns.set k c').countP (·.client.finished) ≤ args.nc := by
    rw [← h.length, ← List.length_set]
    exact List.countP_le_length
  have hcounter := h.counter
  have hlast : w.conns.countP (·.client.last) = if w.counter = 0 ∧ 0 < args.nc then 1 else 0 := h.lasts
  unfold finished at hcounter
  refine ⟨Maps.forall_mem_set h.conns (hmoves.kept (h.conns c hmem)),
    List.length_set.trans h.length, ?_, ?_, ?_, ?_, h.serverUp⟩
  · show counter' + ((w.conns.set k c').countP (·.client.finished) : Int) = args.nc
    rcases hmoves.counts (h.conns c hmem) with ⟨hfin, -, rfl⟩ | ⟨hfin, -, hfin', rfl, -⟩
    · rw [hfin] at hfinished
      omega
    · rw [hfin, hfin', Bool.toNat_false, Bool.toNat_true] at hfinished
      omega
  · show (w.conns.set k c').countP (·.client.last) = if counter' = 0 ∧ 0 < args.nc then 1 else 0
    rcases hmoves.counts (h.conns c hmem) with ⟨-, hsame, rfl⟩ | ⟨hfin, hnot, hfin', rfl, hiff⟩
    · rw [hsame] at hlasts
      exact (Nat.add_right_cancel hlasts).trans hlast
    · -- it has not been counted, so the counter was not 0
      rw [hfin, hfin', Bool.toNat_false, Bool.toNat_true] at hfinished
      rw [if_neg (by omega)] at hlast
      rw [hnot, Bool.toNat_false, hlast, hiff] at hlasts
      by_cases hzero : w.counter - 1 = 0
      · rw [if_pos ⟨hzero, by omega⟩]
        rw [decide_eq_true hzero] at hlasts
        exact hlasts.trans (Nat.zero_add _)
      · rw [if_neg fun hand => hzero hand.1]
        rw [decide_eq_false hzero] at hlasts
        exact hlasts
  · have hexits : c.exits = false := by
      have hopen := hmoves.isOpen
      unfold EchoClient.isClosed at hopen
      unfold EchoConn.exits
      split
      · rename_i hpc
        rw [hpc] at hopen
        cases hopen
      · rfl
    show (w.clientExit || c'.exits) = true ↔ ∃ x ∈ w.conns.set k c', x.exits = true
    rw [Maps.exists_mem_set hc (fun hc => nomatch hexits.symm.trans hc), Bool.or_eq_true, h.clientExit]
  · intro hexit
    rw [Maps.exists_mem_set hc ?_]
    · exact .inl (h.serverExit hexit)
    · unfold EchoConn.stopsServer
      rw [hmoves.session_pc]
      exact id

/-- How a step moves the whole on. -/
inductive Moves (args : EchoArgs) (w : EchoSystem) : EchoStep → EchoSystem → Prop
  | client {k : Nat} {a : ClientAct} {c c' : EchoConn} {counter' : Int} (hc : w.conns[k]? = some c)
      (hclient : c.clientStep args w.counter w.serverUp a = some (c', counter')) :
      Moves args w (.client k a)
        { w with
          conns := w.conns.set k c'
          counter := counter'
          clientExit := w.clientExit || c'.exits }
  | accept {k : Nat} {c : EchoConn} (hc : w.conns[k]? = some c) (hup : w.serverUp = true)
      (hnew : c.accepted = false) :
      Moves args w (.accept k) { w with conns := w.conns.set k { c with accepted := true } }
  | session {k : Nat} {a : EchoAct} {c c' : EchoConn} (hc : w.conns[k]? = some c)
      (hup : w.serverUp = true) (hsession : c.sessionStep args a = some c') :
      Moves args w (.session k a)
        { w with conns := w.conns.set k c', serverExit := w.serverExit || c'.stopsServer }
  | serverStops (hup : w.serverUp = true) (hexit : w.serverExit = true) :
      Moves args w .serverStops { w with serverUp := false }

theorem step_moves {a : EchoStep} (hstep : step args w a = some w') : Moves args w a w' := by
  cases a with
  | client k a =>
    rcases Option.bind_eq_some_iff.mp hstep with ⟨c, hc, hmap⟩
    rcases Option.map_eq_some_iff.mp hmap with ⟨⟨c', counter'⟩, hclient, rfl⟩
    exact .client hc hclient
  | accept k =>
    rcases Option.bind_eq_some_iff.mp hstep with ⟨c, hc, hite⟩
    rw [Option.ite_none_right_eq_some] at hite
    obtain rfl := Option.some.inj hite.2
    exact .accept hc hite.1.1 hite.1.2.2
  | session k a =>
    simp only [EchoSystem.step, Option.ite_none_right_eq_some] at hstep
    rcases Option.bind_eq_some_iff.mp hstep.2 with ⟨c, hc, hmap⟩
    rcases Option.map_eq_some_iff.mp hmap with ⟨c', hsession, rfl⟩
    exact .session hc hstep.1 hsession
  | serverStops =>
    simp only [EchoSystem.step, Option.ite_none_right_eq_some] at hstep
    obtain rfl := Option.some.inj hstep.2
    exact .serverStops hstep.1.1 hstep.1.2

theorem Kept.step (h : w.Kept args) {a : EchoStep} (hstep : step args w a = some w') :
    w'.Kept args := by
  cases step_moves hstep with
  | client hc hclient => exact h.clientStep hc (EchoConn.clientStep_moves hclient)
  | @accept k c hc hup hnew =>
    have hold := h.conns c (List.mem_of_getElem? hc)
    have hkept : EchoConn.Kept args { c with accepted := true } :=
      ⟨hold.session, hold.pipe, hold.placed, hold.hungUp⟩
    exact h.sameClient hc hkept rfl id id .inl
  | @session k a c c' hc hup hsession =>
    have hkept := (h.conns c (List.mem_of_getElem? hc)).sessionStep hsession
    rcases EchoConn.sessionStep_moves hsession with ⟨s, hs, -, hown, -, rfl⟩
    apply h.sameClient hc hkept rfl ?_ (fun hexit => by rw [hexit]; rfl) (Bool.or_eq_true _ _).mp
    intro hstops
    unfold EchoConn.stopsServer at hstops
    split at hstops
    · rename_i hpc
      exact absurd hpc ((EchoSession.step_moves hs).not_ended hown _)
    · cases hstops
  | serverStops hup hexit =>
    exact ⟨h.conns, h.length, h.counter, h.lasts, h.clientExit, h.serverExit, fun _ => hexit⟩

variable {acts : List EchoStep}

theorem runs_kept (run : Runs args fd acts w) : w.Kept args :=
  Run.invariant (I := Kept args) (fun _ _ _ h hstep => h.step hstep) run (kept_start args fd)

/-- Two clients, which send `"a\r\n"` once. -/
def twoClients : EchoArgs where
  nc := 2
  ntrans := 1
  packetSize := 3
  message := [97, 13, 10]
  isInt := by decide
  made := by decide
  roomUp := 16
  roomDown := 16
  figures := 16

/-- Client 0 is the last, and stops the server before client 1 has said `quit`. -/
theorem runs_two : ∃ acts w, Runs twoClients (· + 5) acts w ∧
    (w.clientExit = true ∧ w.serverUp = false) ∧ acts ≠ [] ∧ ∃ c ∈ w.conns, c.exits = false :=
  ⟨[.client 0 .connect, .accept 0, .client 1 .connect, .accept 1,
    .client 0 (.write 3 (Nat.succ_pos _)), .session 0 (.read 64 (Nat.succ_pos _) EchoSession.noFigures),
    .client 1 (.write 3 (Nat.succ_pos _)), .session 1 (.read 64 (Nat.succ_pos _) EchoSession.noFigures),
    .session 1 (.write 3 (Nat.succ_pos _)), .client 1 (.read 3 (Nat.succ_pos _)),
    .session 0 (.write 3 (Nat.succ_pos _)), .client 0 (.read 3 (Nat.succ_pos _)),
    .client 0 (.write 8 (Nat.succ_pos _)), .session 0 (.read 64 (Nat.succ_pos _) EchoSession.noFigures),
    .session 0 (.write 1 (Nat.succ_pos _)), .client 0 (.read 1 (Nat.succ_pos _)),
    .client 0 (.write 11 (Nat.succ_pos _)), .session 0 (.read 64 (Nat.succ_pos _) EchoSession.noFigures),
    .session 0 .shutdown, .client 0 .readEof, .serverStops],
    _, run_of_exec rfl, ⟨rfl, rfl⟩, List.cons_ne_nil _ _, _, .tail _ (.head _), rfl⟩

/-- Whatever fails, a client hears back what it has sent, in order: the message once for each
    transaction it has made, and before it has counted itself down no more than the next one. -/
theorem round_trip (run : Runs args fd acts w) {c : EchoConn} (hc : c ∈ w.conns) :
    c.client.i ≤ args.ntrans ∧ args.packets c.client.i <+: c.client.heard ∧
      (c.client.finished = true → c.client.i = args.ntrans) ∧
      (c.client.finished = false → c.client.heard <+: args.packets (c.client.i + 1)) := by
  have h := ((runs_kept run).conns c hc).placed.hears
  exact ⟨h.i, h.before, h.done, h.below⟩

theorem round_trip_two : ∃ acts w, Runs twoClients (· + 5) acts w ∧ ∃ c ∈ w.conns,
    c.exits = false ∧ c.client.i ≤ twoClients.ntrans ∧
      twoClients.packets c.client.i <+: c.client.heard ∧
      (c.client.finished = true → c.client.i = twoClients.ntrans) ∧
      (c.client.finished = false → c.client.heard <+: twoClients.packets (c.client.i + 1)) := by
  rcases runs_two with ⟨acts, w, run, -, -, c, hc, hexits⟩
  exact ⟨acts, w, run, c, hc, hexits, round_trip run hc⟩

-- Both programs exit for the sake of a client that was the last to finish.
theorem Kept.exit_last (h : w.Kept args) (hexit : w.clientExit = true ∨ w.serverExit = true) :
    ∃ c ∈ w.conns, c.client.last = true := by
  rcases hexit with hexit | hexit
  · rcases h.clientExit.mp hexit with ⟨c, hc, hexits⟩
    unfold EchoConn.exits at hexits
    split at hexits
    · exact ⟨c, hc, hexits⟩
    · cases hexits
  · rcases h.serverExit hexit with ⟨c, hc, hstops⟩
    exact ⟨c, hc, (h.conns c hc).stopsServer hstops⟩

theorem Kept.lasts_le (h : w.Kept args) : w.lasts ≤ 1 := by
  rw [h.lasts]
  split <;> omega

theorem Kept.all_finished (h : w.Kept args) (hlast : ∃ c ∈ w.conns, c.client.last = true) :
    ∀ c ∈ w.conns, c.client.finished = true := by
  have hzero : w.counter = 0 := by
    have hpos : 0 < w.lasts := List.countP_pos_iff.mpr hlast
    rw [h.lasts] at hpos
    split at hpos
    · rename_i hand
      exact hand.1
    · omega
  have hcounter := h.counter
  apply List.countP_eq_length.mp
  show w.finished = w.conns.length
  rw [h.length]
  omega

/-- No two clients are the last one, and neither program is told to exit before all the clients have
    made all their transactions; so a client that fails before that keeps both from it. -/
theorem exits_when_done (run : Runs args fd acts w) :
    w.lasts ≤ 1 ∧ (w.clientExit = true ∨ w.serverExit = true →
      ∀ c ∈ w.conns, c.client.finished = true ∧ args.packets args.ntrans <+: c.client.heard) := by
  have h := runs_kept run
  refine ⟨h.lasts_le, fun hexit c hc => ?_⟩
  have hfin := h.all_finished (h.exit_last hexit) c hc
  have hhears := (h.conns c hc).placed.hears
  have hbefore := hhears.before
  rw [hhears.done hfin] at hbefore
  exact ⟨hfin, hbefore⟩

theorem exits_when_done_two : ∃ acts w, Runs twoClients (· + 5) acts w ∧ w.clientExit = true ∧
    w.lasts ≤ 1 ∧ (w.clientExit = true ∨ w.serverExit = true →
      ∀ c ∈ w.conns, c.client.finished = true ∧
        twoClients.packets twoClients.ntrans <+: c.client.heard) := by
  rcases runs_two with ⟨acts, w, run, ⟨hexit, -⟩, -⟩
  exact ⟨acts, w, run, hexit, exits_when_done run⟩

end EchoSystem

end Coropp
