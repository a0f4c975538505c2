import Coropp.EchoProgress

/-!
# All clients get through

As long as nothing fails that need not, the end of the steps is that all the clients are through: no
client and its session ever wait for each other, however little room a connection has.
-/

namespace Coropp

open Transition Pieces

/-! ## Runs in which nothing fails -/

def ClientAct.fails : ClientAct → Bool
  | .connectFails _ | .writeFails _ | .readFails _ => true
  | _ => false

def EchoAct.fails : EchoAct → Bool
  | .readFails _ | .writeFails _ | .shutdownFails _ => true
  | _ => false

/-- Nothing fails, but for a session whose client has closed its end. -/
def EchoStep.clean (w : EchoSystem) : EchoStep → Bool
  | .client _ a => !a.fails
  | .session k a => !a.fails || (w.conns[k]?).any (·.client.isClosed)
  | .accept _ | .serverStops => true

namespace EchoSystem

def cleanStep (args : EchoArgs) (w : EchoSystem) (a : EchoStep) : Option EchoSystem :=
  if a.clean w then step args w a else none

end EchoSystem

namespace EchoSession

variable {s s' : EchoSession}

theorem gotLine_not_ended (hpc : s.pc = .getting) (line diff : Bytes) (e : EchoEnd) :
    (s.gotLine line diff).pc ≠ .ended e := by
  intro he
  unfold gotLine startWrite at he
  dsimp only at he
  split at he
  · cases he
  · cases he
  · split at he <;> cases he
  · cases hpc.symm.trans he
  · split at he <;> cases he

theorem Moves.threw_fails {a : EchoAct} (h : Moves s a s') (hown : a.own = true) {e : Option OSError}
    (hpc : s'.pc = .ended (.threw e)) : a.fails = true := by
  have hnot := h.not_ended hown (.threw e)
  cases h with
  | arrive | hangUp => cases hown
  | round _ hget hround =>
    cases hround with
    | goesOn => cases hget.symm.trans hpc
    | line =>
      refine absurd hpc (gotLine_not_ended ?_ _ _ _)
      exact hget
  | closed => cases hpc
  | readFails => rfl
  | write =>
    dsimp only at hpc
    split at hpc <;> cases hpc
  | fails ha => rcases ha with rfl | ⟨errno, rfl⟩ <;> rfl
  | @shutdown exits => cases exits <;> cases hpc

end EchoSession

/-! ## How much has been answered -/

namespace EchoClient

variable {args : EchoArgs} {cl : EchoClient} {arrived : Bytes}

theorem Writes.length_lt {call : WriteCall} {line before : Bytes}
    (h : Writes call line before arrived) :
    call.p < line.length ∧ arrived.length = before.length + call.p := by
  have hleft := h.kept.left
  have hlen : call.length ≠ 0 := by
    intro hzero
    have hret := h.kept.returned.mpr hzero
    rw [h.pc] at hret
    cases hret
  rw [h.buffer] at hleft
  refine ⟨by omega, ?_⟩
  rw [h.arrived, List.length_append, List.length_take, Nat.min_eq_left (by omega)]

theorem plan_length : (plan args cl.last).flatten.length =
    args.ntrans * args.packetSize + cl.lastLine.length + cl.byeLine.length := by
  rw [plan_flatten, List.length_append, List.length_append, args.packets_length]

/-- It has not failed, and the figures come before its last line. -/
def Up (args : EchoArgs) (cl : EchoClient) : Prop :=
  match cl.pc with
  | .gaveUp | .threw _ => False
  | .writing .bye _ => cl.last = true → args.ntrans * args.packetSize < cl.heard.length
  | _ => True

theorem nextPacket_up (args : EchoArgs) (cl : EchoClient) (counter : Int) :
    (cl.nextPacket args counter).1.Up args := by
  unfold nextPacket
  dsimp only
  split
  · trivial
  · split
    · trivial
    · rename_i hnot
      exact fun hlast => absurd hlast hnot

/-- All its lines but the last. -/
def beforeBye (args : EchoArgs) (last : Bool) : List Bytes :=
  List.replicate args.ntrans args.message ++ if last then [benchLine] else []

theorem plan_eq (args : EchoArgs) (last : Bool) :
    plan args last = beforeBye args last ++ [if last then shutdownLine else quitLine] := by
  unfold plan beforeBye
  cases last
  · exact congrArg (· ++ [quitLine]) (List.append_nil _).symm
  · exact (List.append_assoc _ [benchLine] [shutdownLine]).symm

theorem stays_before_bye {last : Bool} {line : Bytes} (h : line ∈ beforeBye args last) :
    ¬EchoSession.Leaves line := by
  unfold EchoSession.Leaves
  rcases List.mem_append.mp h with hmessage | hbench
  · rw [(List.mem_replicate.mp hmessage).2, args.message_echo]
    decide
  · cases last
    · exact absurd hbench List.not_mem_nil
    · rw [List.mem_singleton.mp hbench]
      decide

/-- As long as a client waits for an answer to one of its other lines, it has not sent the last. -/
theorem Placed.unsaid (h : Placed args cl arrived)
    (hpc : (∃ stage call, cl.pc = .writing stage call) ∨
      ∃ stage count, cl.pc = .reading stage count ∧ stage ≠ .bye) :
    arrived.length < (plan args cl.last).flatten.length := by
  rw [plan_length]
  have hbye : 0 < cl.byeLine.length := by
    unfold byeLine
    split <;> decide
  have hpackets := args.packets_length args.ntrans
  have hbusy : ∀ n, cl.i < args.ntrans → n ≤ (cl.i + 1) * args.packetSize →
      n < args.ntrans * args.packetSize + cl.lastLine.length + cl.byeLine.length := by
    intro n hi hn
    have hmul := Nat.mul_le_mul_right args.packetSize (Nat.succ_le_of_lt hi)
    rw [Nat.succ_eq_add_one] at hmul
    omega
  have hbench : cl.last = true → cl.lastLine = benchLine := fun hlast => if_pos hlast
  unfold Placed at h
  rcases hpc with ⟨stage, call, hpc⟩ | ⟨stage, count, hpc, hstage⟩
  · rw [hpc] at h
    cases stage with
    | packet =>
      rcases h with ⟨hb, hw, -⟩
      have hlt := hw.length_lt
      rw [args.message_length, args.packets_length] at hlt
      apply hbusy _ hb.i
      rw [Nat.succ_mul]
      omega
    | bench =>
      rcases h with ⟨-, hlast, hw, -⟩
      have hlt := hw.length_lt
      rw [hbench hlast]
      omega
    | bye =>
      have hlt := h.2.1.length_lt
      rw [List.length_append] at hlt
      omega
  · rw [hpc] at h
    cases stage with
    | packet =>
      rcases h with ⟨hb, -, -, rfl, -⟩
      apply hbusy _ hb.i
      rw [args.packets_length]
    | bench =>
      rcases h with ⟨-, hlast, -, rfl, -⟩
      rw [hbench hlast, List.length_append]
      omega
    | bye => exact absurd rfl hstage

end EchoClient

namespace EchoConn

variable {args : EchoArgs} {c c' : EchoConn} {counter counter' : Int} {up : Bool}

-- A session that has got no other lines than messages has sent no more than these.
theorem Kept.sent_le (h : c.Kept args) (hfew : c.session.lines.length ≤ args.ntrans) :
    c.session.sent.length ≤ c.session.lines.length * args.packetSize := by
  have hplan := h.session.lines_plan h.placed.said
  have hlines : c.session.lines = List.replicate c.session.lines.length args.message := by
    rw [List.prefix_iff_eq_take] at hplan
    rw [EchoClient.plan, List.take_append_of_le_length (by rw [List.length_replicate]; exact hfew),
      List.take_replicate, Nat.min_eq_left hfew] at hplan
    exact hplan
  have hanswers := h.session.answers
  rw [hlines, ← List.append_nil (List.replicate _ _)] at hanswers
  rcases EchoSession.outs_of_packets hanswers with ⟨more, houts, hmore⟩
  rw [List.forall₂_nil_left_iff.mp hmore, List.append_nil] at houts
  have hsent := ((List.prefix_append _ _).trans h.session.sent).length_le
  rw [houts] at hsent
  exact hsent.trans (args.packets_length _).le

theorem Kept.heard_le (h : c.Kept args) : c.client.heard.length ≤ c.session.sent.length := by
  rw [← h.pipe, List.length_append]
  exact Nat.le_add_right _ _

-- So the length of what the client has heard says how many lines the session has got.
theorem Kept.lines_of_heard (h : c.Kept args) {k : Nat} (hk : k ≤ args.ntrans)
    (hheard : k * args.packetSize ≤ c.client.heard.length) : k ≤ c.session.lines.length := by
  by_contra hfew
  have hsent := h.sent_le (by omega)
  have hle := h.heard_le
  have hsize := args.message_eq.1
  have hmul := Nat.mul_le_mul_right args.packetSize (by omega : c.session.lines.length + 1 ≤ k)
  rw [Nat.add_mul, Nat.one_mul] at hmul
  omega

theorem Kept.lines_of_more (h : c.Kept args)
    (hheard : args.ntrans * args.packetSize < c.client.heard.length) :
    args.ntrans + 1 ≤ c.session.lines.length := by
  by_contra hfew
  have hsent := h.sent_le (by omega)
  have hle := h.heard_le
  have hmul := Nat.mul_le_mul_right args.packetSize
    (by omega : c.session.lines.length ≤ args.ntrans)
  omega

/-- What a session holds has come after the lines it has got. -/
theorem Kept.held_le (h : c.Kept args) {k : Nat} (hk : k ≤ c.session.lines.length) :
    (∀ e, c.session.pc ≠ .ended e) →
      c.session.held + ((EchoClient.plan args c.client.last).take k).flatten.length ≤
        c.session.arrived.length := by
  intro hlive
  have hplan := h.session.lines_plan h.placed.said
  have htake : (EchoClient.plan args c.client.last).take k <+: c.session.lines := by
    rw [List.prefix_iff_eq_take.mp hplan]
    exact List.take_prefix_take_left hk
  rcases htake with ⟨more, hmore⟩
  have hlines := congrArg (List.length ∘ List.flatten) hmore
  rw [Function.comp_apply, Function.comp_apply, List.flatten_append, List.length_append] at hlines
  have hbytes := congrArg List.length (h.session.live hlive)
  rw [List.length_append, List.length_append, List.length_append] at hbytes
  unfold EchoSession.held
  omega

/-! ## Who can go on -/

/-- What no failure brings about. -/
structure Clean (args : EchoArgs) (c : EchoConn) : Prop where
  up : c.client.Up args
  connected : c.connected = false → c.client.pc = .connecting
  served : ∀ e, c.session.pc = .ended (.threw e) → c.client.isClosed = true

-- A session that leaves has got all that its client is to send.
theorem Kept.left (h : c.Kept args) {exits : Bool} (hleaving : c.session.leaving = some exits) :
    c.session.arrived.length = (EchoClient.plan args c.client.last).flatten.length := by
  have hsaid := h.placed.said
  have htaken := h.session.taken.length_le
  rcases h.session.left exits hleaving with ⟨line, hline, hcmd⟩
  have hplan := h.session.lines_plan hsaid
  rw [EchoClient.plan_eq, List.prefix_concat_iff, ← EchoClient.plan_eq] at hplan
  rcases hplan with hall | hfew
  · rw [hall] at htaken
    exact Nat.le_antisymm hsaid.length_le htaken
  · have hstays := EchoClient.stays_before_bye (hfew.subset hline)
    apply absurd _ hstays
    unfold EchoSession.Leaves
    rw [hcmd]
    cases exits
    · exact .inl rfl
    · exact .inr rfl

-- It does not end before that, unless it is left alone.
theorem Kept.served (h : c.Kept args) (hclean : c.Clean args) (hopen : c.client.isClosed = false)
    {e : EchoEnd} (hpc : c.session.pc = .ended e) :
    c.session.arrived.length = (EchoClient.plan args c.client.last).flatten.length := by
  cases e with
  | closed =>
    have hup := (h.session.closed hpc).1
    rw [h.hungUp, hopen] at hup
    cases hup
  | threw err => cases hopen.symm.trans (hclean.served err hpc)
  | quit =>
    have hleaving : c.session.leaving = some false := by rw [EchoSession.leaving, hpc]
    exact h.left hleaving
  | shutdown =>
    have hleaving : c.session.leaving = some true := by rw [EchoSession.leaving, hpc]
    exact h.left hleaving

-- A client that waits with nothing on the way has a session with something to do.
theorem Kept.not_idle (h : c.Kept args) {stage : ClientStage} {count : Nat}
    (hpc : c.client.pc = .reading stage count) (hempty : c.toClient = []) : ¬c.session.Idle := by
  intro hidle
  rcases h.session.all_answered (.inl hidle) with ⟨⟨r, hsplits⟩, hsent⟩
  have hpipe := h.pipe
  rw [hempty, List.append_nil, hsent] at hpipe
  have hanswers := h.session.answers
  have hplaced := h.placed
  unfold EchoClient.Placed at hplaced
  rw [hpc] at hplaced
  cases stage with
  | packet =>
    rcases hplaced with ⟨hbusy, hpos, hle, harrived, hheard⟩
    have hall := args.splits_packets (c.client.i + 1) (r := []) rfl
    rw [List.append_nil, ← harrived] at hall
    rw [(hsplits.unique hall).1, ← List.append_nil (List.replicate _ _)] at hanswers
    rcases EchoSession.outs_of_packets hanswers with ⟨more, houts, hmore⟩
    rw [List.forall₂_nil_left_iff.mp hmore, List.append_nil] at houts
    have hlen := congrArg List.length hpipe
    rw [hheard, houts] at hlen
    change _ = (args.packets (c.client.i + 1)).length at hlen
    rw [args.packets_succ, List.length_append, List.length_append, List.length_take,
      args.message_length] at hlen
    omega
  | bench =>
    rcases hplaced with ⟨hdone, hlast, -, harrived, hheard⟩
    have hpieces : ∀ line ∈ List.replicate args.ntrans args.message ++ [benchLine],
        IsPiece crlf.cutter line := by
      intro line hline
      have hplan : line ∈ EchoClient.plan args true := by
        rw [EchoClient.plan_eq]
        exact List.mem_append_left _ hline
      exact EchoClient.plan_pieces args true line hplan
    have hall := splits_of_pieces hpieces (r := []) rfl
    rw [List.flatten_append, List.flatten_singleton, List.append_nil] at hall
    change Splits crlf.cutter (args.packets args.ntrans ++ benchLine) _ [] at hall
    rw [← harrived] at hall
    rw [(hsplits.unique hall).1] at hanswers
    rcases EchoSession.outs_of_packets hanswers with ⟨more, houts, hmore⟩
    rcases List.forall₂_cons_left_iff.mp hmore with ⟨out, rest, hout, hrest, rfl⟩
    have hpos := List.length_pos_of_ne_nil (show out ≠ [] from hout)
    have hlen := congrArg List.length hpipe
    rw [hheard, houts, List.flatten_append, List.length_append, List.flatten_cons,
      List.length_append] at hlen
    change (args.packets args.ntrans).length = (args.packets args.ntrans).length + _ at hlen
    omega
  | bye =>
    rcases hplaced with ⟨hdone, hpos, harrived⟩
    have hall := splits_of_pieces (EchoClient.plan_pieces args c.client.last) (r := []) rfl
    rw [List.append_nil, EchoClient.plan_flatten, ← harrived] at hall
    have hlines := (hsplits.unique hall).1
    have hbye : c.client.byeLine ∈ c.session.lines := by
      rw [hlines, EchoClient.plan_eq]
      exact List.mem_append_right _ (.head _)
    apply h.session.stays (.inl (EchoSession.isGetting_iff.mp hidle.1.1)) _ hbye
    unfold EchoSession.Leaves EchoClient.byeLine
    split
    · exact .inr rfl
    · exact .inl rfl

/-- A session that has something to do, and room for it, can do it. -/
theorem Kept.session_moves (h : c.Kept args) (haccepted : c.accepted = true) (hfigures : 0 < args.figures)
    (hlive : ∀ e, c.session.pc ≠ .ended e) (hidle : ¬c.session.Idle)
    (hroom : ∀ call, c.session.pc = .writing call → c.toClient.length < args.roomDown) :
    ∃ a c', c.sessionStep args a = some c' ∧ a.fails = false := by
  have hgo : ∀ a : EchoAct, a.own = true → c.roomFor args a = true →
      (c.session.step a).isSome = true → a.fails = false →
      ∃ a c', c.sessionStep args a = some c' ∧ a.fails = false := by
    intro a hown hroom hcan hfails
    rcases Option.isSome_iff_exists.mp hcan with ⟨s, hs⟩
    refine ⟨a, { c with session := s, toClient := c.toClient ++ s.sent.drop c.session.sent.length },
      ?_, hfails⟩
    unfold EchoConn.sessionStep
    rw [if_pos ⟨haccepted, hown, hroom⟩, hs]
    rfl
  let diff : Figures := ⟨[48], List.cons_ne_nil _ _⟩
  cases hpc : c.session.pc with
  | getting =>
    have hget : c.session.isGetting = true := EchoSession.isGetting_iff.mpr hpc
    by_cases hbuffer : c.session.get.b.buffer = []
    · have hdata : c.session.unread ≠ [] := fun hnone => hidle ⟨⟨hget, hbuffer⟩, hnone⟩
      exact hgo (.read 1 Nat.one_pos diff) rfl (decide_eq_true hfigures)
        (Option.isSome_iff_exists.mpr ⟨_, if_pos ⟨⟨hget, hbuffer⟩, hdata⟩⟩) rfl
    · exact hgo (.scan diff) rfl (decide_eq_true hfigures)
        (Option.isSome_iff_exists.mpr ⟨_, if_pos ⟨hget, hbuffer⟩⟩) rfl
  | writing call =>
    have hkept := h.session.writing call hpc
    have hlen : call.length ≠ 0 := by
      intro hzero
      cases (hkept.1.returned.mpr hzero).symm.trans hkept.2
    have hcan : call.Possible (.accepted 1 Nat.one_pos) := ⟨Nat.one_le_iff_ne_zero.mpr hlen, by decide⟩
    apply hgo (.write 1 Nat.one_pos) rfl (decide_eq_true (hroom call hpc)) ?_ rfl
    unfold EchoSession.step
    rw [hpc]
    dsimp only
    rw [if_pos hcan]
    rfl
  | shutting exits =>
    apply hgo .shutdown rfl rfl ?_ rfl
    unfold EchoSession.step
    rw [hpc]
    rfl
  | ended e => exact absurd hpc (hlive e)

/-! ### Room -/

-- All lines before the last have been answered and read; what is unread is of the last one.
theorem Kept.unread_lt (h : c.Kept args) (hclean : c.Clean args) {stage : ClientStage}
    {call : WriteCall} (hpc : c.client.pc = .writing stage call) (hstage : stage ≠ .packet) :
    c.session.unread.length < shutdownLine.length := by
  have hopen : c.client.isClosed = false := by rw [EchoClient.isClosed, hpc]
  have hless := h.placed.unsaid (.inl ⟨stage, call, hpc⟩)
  have hlive : ∀ e, c.session.pc ≠ .ended e := by
    intro e he
    have hall := h.served hclean hopen he
    omega
  have hplaced := h.placed
  have hup := hclean.up
  unfold EchoClient.Placed at hplaced
  unfold EchoClient.Up at hup
  rw [hpc] at hplaced hup
  have hpackets := args.packets_length args.ntrans
  have hheld : c.session.unread.length ≤ c.session.held := Nat.le_add_left _ _
  cases stage with
  | packet => exact absurd rfl hstage
  | bench =>
    rcases hplaced with ⟨-, -, hw, hheard⟩
    have hlt := hw.length_lt
    have hlines := h.lines_of_heard (Nat.le_refl _) (by rw [hheard, hpackets])
    have hle := h.held_le hlines hlive
    have htake : (EchoClient.plan args c.client.last).take args.ntrans =
        List.replicate args.ntrans args.message :=
      List.take_left' List.length_replicate
    rw [htake] at hle
    change c.session.held + (args.packets args.ntrans).length ≤ c.session.arrived.length at hle
    have hbench : benchLine.length < shutdownLine.length := by decide
    omega
  | bye =>
    rcases hplaced with ⟨-, hw, hheard⟩
    have hlt := hw.length_lt
    have hbefore : (EchoClient.beforeBye args c.client.last).length ≤ c.session.lines.length := by
      rw [EchoClient.beforeBye, List.length_append, List.length_replicate]
      cases hlast : c.client.last with
      | true => exact h.lines_of_more (hup hlast)
      | false =>
        have hlines := h.lines_of_heard (Nat.le_refl args.ntrans) (by rw [hheard hlast, hpackets])
        exact hlines
    have hle := h.held_le hbefore hlive
    rw [EchoClient.plan_eq, List.take_left'] at hle
    · have hflat : (EchoClient.beforeBye args c.client.last).flatten =
          args.packets args.ntrans ++ c.client.lastLine := by
        unfold EchoClient.beforeBye EchoClient.lastLine
        rw [List.flatten_append]
        cases c.client.last <;> rfl
      rw [hflat] at hle
      have hbye : c.client.byeLine.length ≤ shutdownLine.length := by
        unfold EchoClient.byeLine
        split <;> decide
      omega
    · rfl

/-- A client that has not been answered has a session that does not wait for it. -/
theorem Kept.not_writing (h : c.Kept args) {call : WriteCall}
    (hpc : c.client.pc = .writing .packet call) : ∀ call, c.session.pc ≠ .writing call := by
  intro answer hwriting
  have hplaced := h.placed
  unfold EchoClient.Placed at hplaced
  rw [hpc] at hplaced
  rcases hplaced with ⟨hbusy, hw, hheard⟩
  have hlt := hw.length_lt
  have hpre := hw.prefix
  rw [← args.packets_succ] at hpre
  rcases h.session.sent_packets hpre with ⟨j, -, hlines, houts⟩
  have hle := h.heard_le
  have htaken := h.session.taken.length_le
  rw [hheard, args.packets_length] at hle
  rw [hlines] at htaken
  change (args.packets j).length ≤ c.session.arrived.length at htaken
  rw [args.packets_length, hlt.2, args.packets_length] at htaken
  -- it has got the lines of the earlier transactions only
  have hj : j ≤ c.client.i := by
    by_contra hmore
    have hmul := Nat.mul_le_mul_right args.packetSize (by omega : c.client.i + 1 ≤ j)
    have hsize := args.message_length
    rw [Nat.add_mul, Nat.one_mul] at hmul
    omega
  have hmul := Nat.mul_le_mul_right args.packetSize hj
  have hall := congrArg List.length (h.session.all fun e he => nomatch hwriting.symm.trans he)
  rw [houts] at hall
  change _ = (args.packets j).length at hall
  rw [List.length_append, args.packets_length, EchoSession.owes_writing hwriting,
    List.length_drop] at hall
  -- but it has something left to write
  have hkept := h.session.writing answer hwriting
  have hleft := hkept.1.left
  have hmore : answer.length ≠ 0 := by
    intro hzero
    cases (hkept.1.returned.mpr hzero).symm.trans hkept.2
  omega

theorem Kept.write_can (h : c.Kept args) {stage : ClientStage} {call : WriteCall}
    (hpc : c.client.pc = .writing stage call) (hroom : c.session.unread.length + 1 ≤ args.roomUp)
    (counter : Int) (up : Bool) :
    ∃ a r, c.clientStep args counter up a = some r ∧ a.fails = false := by
  have hopen : c.session.hungUp = false := by rw [h.hungUp, EchoClient.isClosed, hpc]
  have hplaced := h.placed
  unfold EchoClient.Placed at hplaced
  rw [hpc] at hplaced
  have hkept : call.Kept ∧ call.pc = .writing := by
    cases stage with
    | packet => exact ⟨hplaced.2.1.kept, hplaced.2.1.pc⟩
    | bench => exact ⟨hplaced.2.2.1.kept, hplaced.2.2.1.pc⟩
    | bye => exact ⟨hplaced.2.1.kept, hplaced.2.1.pc⟩
  have hlen : call.length ≠ 0 := by
    intro hzero
    cases (hkept.1.returned.mpr hzero).symm.trans hkept.2
  have hcan : call.Possible (.accepted 1 Nat.one_pos) := ⟨Nat.one_le_iff_ne_zero.mpr hlen, by decide⟩
  have hstep : (c.clientStep args counter up (.write 1 Nat.one_pos)).isSome = true := by
    unfold EchoConn.clientStep
    rw [hpc]
    dsimp only
    rw [if_pos ⟨hcan, hroom⟩]
    unfold EchoSession.step
    dsimp only
    rw [hopen]
    rfl
  rcases Option.isSome_iff_exists.mp hstep with ⟨r, hr⟩
  exact ⟨_, r, hr, rfl⟩

theorem read_can {stage : ClientStage} {count : Nat} (hpc : c.client.pc = .reading stage count)
    (hcan : c.toClient ≠ [] ∨ c.serverClosed = true ∨ up = false) (counter : Int) :
    ∃ a r, c.clientStep args counter up a = some r ∧ a.fails = false := by
  by_cases hempty : c.toClient = []
  · have hend : c.serverClosed = true ∨ up = false := hcan.resolve_left fun hne => hne hempty
    refine ⟨.readEof, (c.setClient (c.client.gotEof stage), counter), ?_, rfl⟩
    unfold EchoConn.clientStep
    rw [hpc]
    dsimp only
    rw [if_pos ⟨hempty, hend⟩]
  · have hstep : (c.clientStep args counter up (.read 1 Nat.one_pos)).isSome = true := by
      unfold EchoConn.clientStep
      rw [hpc]
      dsimp only
      rw [if_neg hempty]
      rfl
    rcases Option.isSome_iff_exists.mp hstep with ⟨r, hr⟩
    exact ⟨_, r, hr, rfl⟩

/-- As long as a client is not through, it can go on, or it can be accepted, or its session can. -/
theorem Kept.goes_on (h : c.Kept args) (hclean : c.Clean args)
    (hroomUp : shutdownLine.length ≤ args.roomUp) (hroomDown : 0 < args.roomDown)
    (hfigures : 0 < args.figures) (hnot : c.client.pc ≠ .returned)
    (hdown : up = false → c.client.finished = true) (counter : Int) :
    (∃ a r, c.clientStep args counter up a = some r ∧ a.fails = false) ∨
      up = true ∧ (c.connected = true ∧ c.accepted = false ∨
        ∃ a c', c.sessionStep args a = some c' ∧ a.fails = false) := by
  have hup := hclean.up
  unfold EchoClient.Up at hup
  have hserves : up = true → c.client.pc ≠ .connecting →
      (∀ e, c.session.pc ≠ .ended e) → ¬c.session.Idle →
      (∀ call, c.session.pc = .writing call → c.toClient.length < args.roomDown) →
      up = true ∧ (c.connected = true ∧ c.accepted = false ∨
        ∃ a c', c.sessionStep args a = some c' ∧ a.fails = false) := by
    intro hup hnot hlive hidle hroom
    refine ⟨hup, ?_⟩
    cases haccepted : c.accepted with
    | true => exact .inr (h.session_moves haccepted hfigures hlive hidle hroom)
    | false =>
      cases hconn : c.connected with
      | true => exact .inl ⟨rfl, rfl⟩
      | false => exact absurd (hclean.connected hconn) hnot
  cases hpc : c.client.pc with
  | connecting =>
    left
    refine ⟨.connect, ({ c with connected := true }.setClient (c.client.nextPacket args counter).1,
      (c.client.nextPacket args counter).2), ?_, rfl⟩
    unfold EchoConn.clientStep
    rw [hpc]
  | writing stage call =>
    by_cases hroom : c.session.unread.length + 1 ≤ args.roomUp
    · exact .inl (h.write_can hpc hroom counter up)
    · right
      have hstage : stage = .packet := by
        by_contra hstage
        have hlt := h.unread_lt hclean hpc hstage
        omega
      subst hstage
      have hbusy := h.placed
      unfold EchoClient.Placed at hbusy
      rw [hpc] at hbusy
      have hlive : up = true := by
        cases hup : up with
        | true => rfl
        | false => cases hbusy.1.finished.symm.trans (hdown hup)
      apply hserves hlive
      · rw [hpc]
        exact ClientPc.noConfusion
      · intro e he
        have hopen : c.client.isClosed = false := by rw [EchoClient.isClosed, hpc]
        have hless := h.placed.unsaid (.inl ⟨_, call, hpc⟩)
        have hall := h.served hclean hopen he
        omega
      · intro hidle
        rw [hidle.2, List.length_nil] at hroom
        have hpos : 0 < shutdownLine.length := by decide
        omega
      · exact fun answer hwriting => absurd hwriting (h.not_writing hpc answer)
  | reading stage count =>
    by_cases hcan : c.toClient ≠ [] ∨ c.serverClosed = true ∨ up = false
    · exact .inl (read_can hpc hcan counter)
    · right
      push Not at hcan
      rcases hcan with ⟨hempty, hopen, hlive⟩
      apply hserves (Bool.eq_true_of_not_eq_false hlive)
      · rw [hpc]
        exact ClientPc.noConfusion
      · intro e he
        apply hopen
        rw [serverClosed, he]
      · exact h.not_idle hpc hempty
      · intro call hwriting
        rw [hempty]
        exact hroomDown
  | returned => exact absurd hpc hnot
  | gaveUp =>
    rw [hpc] at hup
    exact hup.elim
  | threw e =>
    rw [hpc] at hup
    exact hup.elim

/-! ## What stays without failures -/

-- A client has nothing to wait for in vain before its last line.
theorem Kept.not_left (h : c.Kept args) (hclean : c.Clean args) {stage : ClientStage} {count : Nat}
    (hpc : c.client.pc = .reading stage count) (hstage : stage ≠ .bye) : c.serverClosed = false := by
  have hopen : c.client.isClosed = false := by rw [EchoClient.isClosed, hpc]
  have hless := h.placed.unsaid (.inr ⟨stage, count, hpc, hstage⟩)
  unfold serverClosed
  split
  · rename_i e he
    have hall := h.served hclean hopen he
    omega
  · rfl

theorem Moves.clean {a : ClientAct} (hmoves : Moves args c counter up a c' counter') (h : c.Kept args)
    (hclean : c.Clean args) (hfails : a.fails = false)
    (hdown : up = false → c.client.finished = true ∧
      (c.client.last = true → c.serverClosed = true)) : c'.Clean args := by
  have hserved : ∀ e, c'.session.pc ≠ .ended (.threw e) := by
    intro e he
    rw [hmoves.session_pc] at he
    cases hmoves.isOpen.symm.trans (hclean.served e he)
  have hplaced := h.placed
  unfold EchoClient.Placed at hplaced
  have hconnected : c.client.pc ≠ .connecting → c.connected = true := by
    intro hne
    cases hconn : c.connected with
    | true => rfl
    | false => exact absurd (hclean.connected hconn) hne
  have hgoes : c'.client.Up args → c'.connected = true → c'.Clean args := by
    intro hup hconn
    exact ⟨hup, (fun hno => nomatch hconn.symm.trans hno), fun e he => absurd he (hserved e)⟩
  cases hmoves with
  | connect hpc => exact hgoes (EchoClient.nextPacket_up _ _ _) rfl
  | fails ha => rcases ha with rfl | rfl | rfl <;> cases hfails
  | @write n pos stage call s hpc hn hroom hs =>
    refine hgoes ?_ (hconnected (by rw [hpc]; exact ClientPc.noConfusion))
    have hup := hclean.up
    unfold EchoClient.Up at hup
    rw [hpc] at hup
    unfold EchoClient.Up EchoClient.wrote
    dsimp only
    by_cases hret : (call.answered (.accepted n pos)).pc = .returned
    · rw [if_pos hret]
      trivial
    · rw [if_neg hret]
      cases stage with
      | packet | bench => trivial
      | bye => exact hup
  | @read n pos stage count data rest hpc hdata hlen hsome =>
    refine hgoes ?_ (hconnected (by rw [hpc]; exact ClientPc.noConfusion))
    rw [hpc] at hplaced
    cases stage with
    | packet =>
      show EchoClient.Up args (c.client.gotData args .packet count data counter).1
      unfold EchoClient.gotData
      dsimp only
      split
      · exact EchoClient.nextPacket_up _ _ _
      · trivial
    | bench =>
      rcases hplaced with ⟨hdone, hlast, hpos, -, hheard⟩
      have hmore := List.length_pos_of_ne_nil (hsome hpos)
      intro _
      show _ < (c.client.heard ++ data).length
      rw [hheard, List.length_append, args.packets_length]
      omega
    | bye => trivial
  | @readEof stage count hpc hempty hend =>
    have hconn := hconnected (by rw [hpc]; exact ClientPc.noConfusion)
    rw [hpc] at hplaced
    cases stage with
    | packet =>
      rcases hend with hclosed | hdead
      · cases (h.not_left hclean hpc (by decide)).symm.trans hclosed
      · cases hplaced.1.finished.symm.trans (hdown hdead).1
    | bench =>
      have hlast := hplaced.2.1
      have hclosed : c.serverClosed = true := hend.elim id fun hdead => (hdown hdead).2 hlast
      cases (h.not_left hclean hpc (by decide)).symm.trans hclosed
    | bye => exact hgoes trivial hconn

theorem Clean.sessionStep (hclean : c.Clean args) {a : EchoAct}
    (hstep : c.sessionStep args a = some c') (hfails : a.fails = true → c.client.isClosed = true) :
    c'.Clean args := by
  rcases sessionStep_moves hstep with ⟨s, hs, -, hown, -, rfl⟩
  refine ⟨hclean.up, hclean.connected, fun e he => ?_⟩
  exact hfails ((EchoSession.step_moves hs).threw_fails hown he)

end EchoConn

namespace EchoSystem

variable {args : EchoArgs} {fd : Nat → Fd} {w w' : EchoSystem} {acts : List EchoStep}

-- Once the server has gone, all clients have made their transactions, and the last has its answer.
theorem Kept.down (h : w.Kept args) (hdown : w.serverUp = false) {c : EchoConn} (hc : c ∈ w.conns) :
    c.client.finished = true ∧ (c.client.last = true → c.serverClosed = true) := by
  have hexit := h.serverUp hdown
  refine ⟨h.all_finished (h.exit_last (.inr hexit)) c hc, fun hlast => ?_⟩
  rcases h.serverExit hexit with ⟨d, hd, hstops⟩
  have hlast' := (h.conns d hd).stopsServer hstops
  obtain rfl := Maps.eq_of_countP_le h.lasts_le ⟨hc, hlast⟩ ⟨hd, hlast'⟩
  unfold EchoConn.stopsServer at hstops
  unfold EchoConn.serverClosed
  split at hstops
  · rename_i hpc
    rw [hpc]
  · cases hstops

/-- The invariant of runs in which nothing fails. -/
structure Clean (args : EchoArgs) (w : EchoSystem) : Prop extends Kept args w where
  clean : ∀ c ∈ w.conns, c.Clean args

theorem Clean.step (h : w.Clean args) {a : EchoStep} (hstep : cleanStep args w a = some w') :
    w'.Clean args := by
  rw [cleanStep, Option.ite_none_right_eq_some] at hstep
  rcases hstep with ⟨hclean, hstep⟩
  refine ⟨h.toKept.step hstep, ?_⟩
  cases step_moves hstep with
  | @client k a c c' counter' hc hclient =>
    have hmem := List.mem_of_getElem? hc
    have hmoves := EchoConn.clientStep_moves hclient
    have hfails : a.fails = false := (Bool.not_eq_true' _).mp hclean
    apply Maps.forall_mem_set h.clean
    exact hmoves.clean (h.conns c hmem) (h.clean c hmem) hfails fun hdown => h.down hdown hmem
  | @accept k c hc hup hnew =>
    have hold := h.clean c (List.mem_of_getElem? hc)
    exact Maps.forall_mem_set h.clean ⟨hold.up, hold.connected, hold.served⟩
  | @session k a c c' hc hup hsession =>
    apply Maps.forall_mem_set h.clean
    refine (h.clean c (List.mem_of_getElem? hc)).sessionStep hsession fun hfails => ?_
    change (!a.fails || (w.conns[k]?).any _) = true at hclean
    rw [hfails, hc] at hclean
    exact hclean
  | serverStops hup hexit => exact h.clean

end EchoSystem

end Coropp
