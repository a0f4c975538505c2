import Coropp.EchoClient
import Coropp.EchoSession

/-!
# What a client and its session say to each other

The client alternates: it sends a line, and waits for what comes back.  So all that has arrived at the
session, and most of what has come back, is known from where the client is.
-/

namespace Coropp

open Pieces

namespace EchoArgs

variable (args : EchoArgs)

/-- The message `i` times. -/
def packets (i : Nat) : Bytes := (List.replicate i args.message).flatten

theorem packets_succ (i : Nat) : args.packets (i + 1) = args.packets i ++ args.message := by
  rw [packets, List.replicate_succ', List.flatten_append, List.flatten_singleton]
  rfl

theorem packets_length (i : Nat) : (args.packets i).length = i * args.packetSize := by
  induction i with
  | zero => rw [Nat.zero_mul]; rfl
  | succ i ih => rw [packets_succ, List.length_append, ih, message_length, Nat.succ_mul]

theorem packets_mono {i j : Nat} (h : i ≤ j) : args.packets i <+: args.packets j := by
  induction h with
  | refl => exact List.prefix_rfl
  | step _ ih =>
    rw [Nat.succ_eq_add_one, packets_succ]
    exact ih.trans (List.prefix_append _ _)

theorem splits_packets (i : Nat) {r : Bytes} (hr : crlf.cutter.cut r = none) :
    Splits crlf.cutter (args.packets i ++ r) (List.replicate i args.message) r := by
  apply splits_of_pieces ?_ hr
  intro p hp
  rw [(List.mem_replicate.mp hp).2]
  exact args.message_piece

theorem message_echo : EchoCommand.ofLine args.message = .echo := if_neg args.message_first

end EchoArgs

-- Messages are answered with themselves.
theorem EchoSession.outs_of_packets {args : EchoArgs} {i : Nat} {lines outs : List Bytes}
    (h : List.Forall₂ EchoSession.Answers (List.replicate i args.message ++ lines) outs) :
    ∃ more, outs = List.replicate i args.message ++ more ∧
      List.Forall₂ EchoSession.Answers lines more := by
  induction i generalizing outs with
  | zero => exact ⟨outs, rfl, h⟩
  | succ i ih =>
    rw [List.replicate_succ, List.cons_append] at h
    cases h with
    | @cons _ out _ outs hfirst hrest =>
      have hout : out = args.message := by
        unfold EchoSession.Answers at hfirst
        rw [args.message_echo] at hfirst
        exact hfirst
      rcases ih hrest with ⟨more, rfl, hmore⟩
      exact ⟨more, by rw [hout, List.replicate_succ, List.cons_append], hmore⟩

-- Over messages alone, a session sends what it has been sent.
theorem EchoSession.Kept.sent_packets {args : EchoArgs} {s : EchoSession} (h : s.Kept) {k : Nat}
    (hpre : s.arrived <+: args.packets k) :
    ∃ j ≤ k, s.lines = List.replicate j args.message ∧ s.outs = List.replicate j args.message := by
  have hown : Splits crlf.cutter (s.lines.flatten ++ []) s.lines [] := splits_of_pieces h.lines rfl
  have hall := args.splits_packets k (r := []) rfl
  rw [List.append_nil] at hown hall
  have hlines := hown.prefix hall (h.taken.trans hpre)
  have hrep : s.lines = List.replicate s.lines.length args.message := by
    apply List.eq_replicate_of_mem
    intro p hp
    exact (List.mem_replicate.mp (hlines.subset hp)).2
  refine ⟨s.lines.length, ?_, hrep, ?_⟩
  · have hlen := hlines.length_le
    rw [List.length_replicate] at hlen
    exact hlen
  · have hanswers := h.answers
    rw [hrep, ← List.append_nil (List.replicate _ _)] at hanswers
    rcases outs_of_packets hanswers with ⟨more, houts, hmore⟩
    rw [houts, List.forall₂_nil_left_iff.mp hmore, List.append_nil]

namespace EchoClient

variable {args : EchoArgs} {cl : EchoClient} {arrived : Bytes}

/-- The line that a client leaves with, and the one before it. -/
def byeLine (cl : EchoClient) : Bytes := if cl.last then shutdownLine else quitLine

def lastLine (cl : EchoClient) : Bytes := if cl.last then benchLine else []

/-- All the lines that a client sends, if it gets that far. -/
def plan (args : EchoArgs) (last : Bool) : List Bytes :=
  List.replicate args.ntrans args.message ++ if last then [benchLine, shutdownLine] else [quitLine]

/-- The call of `write` under way, and what it has written so far. -/
structure Writes (call : WriteCall) (line before arrived : Bytes) : Prop where
  kept : call.Kept
  pc : call.pc = .writing
  buffer : call.buffer = line
  arrived : arrived = before ++ line.take call.p

/-- It has been through its transactions. -/
structure Done (args : EchoArgs) (cl : EchoClient) : Prop where
  finished : cl.finished = true
  i : cl.i = args.ntrans
  heard : args.packets args.ntrans <+: cl.heard

/-- It is in a transaction. -/
structure Busy (args : EchoArgs) (cl : EchoClient) : Prop where
  finished : cl.finished = false
  last : cl.last = false
  i : cl.i < args.ntrans

/-- What it has heard, whether it is through or not. -/
structure Hears (args : EchoArgs) (cl : EchoClient) : Prop where
  i : cl.i ≤ args.ntrans
  done : cl.finished = true → cl.i = args.ntrans
  before : args.packets cl.i <+: cl.heard
  below : cl.finished = false → cl.heard <+: args.packets (cl.i + 1)

/-- What has come to the server, and what back, wherever the client is. -/
def Placed (args : EchoArgs) (cl : EchoClient) (arrived : Bytes) : Prop :=
  match cl.pc with
  | .connecting =>
    cl.finished = false ∧ cl.last = false ∧ cl.i = 0 ∧ arrived = [] ∧ cl.heard = []
  | .writing .packet call =>
    Busy args cl ∧ Writes call args.message (args.packets cl.i) arrived ∧
      cl.heard = args.packets cl.i
  | .reading .packet count =>
    Busy args cl ∧ 0 < count ∧ count ≤ args.packetSize ∧ arrived = args.packets (cl.i + 1) ∧
      cl.heard = args.packets cl.i ++ args.message.take (args.packetSize - count)
  | .writing .bench call =>
    Done args cl ∧ cl.last = true ∧ Writes call benchLine (args.packets args.ntrans) arrived ∧
      cl.heard = args.packets args.ntrans
  | .reading .bench count =>
    Done args cl ∧ cl.last = true ∧ 0 < count ∧ arrived = args.packets args.ntrans ++ benchLine ∧
      cl.heard = args.packets args.ntrans
  | .writing .bye call =>
    Done args cl ∧ Writes call cl.byeLine (args.packets args.ntrans ++ cl.lastLine) arrived ∧
      (cl.last = false → cl.heard = args.packets args.ntrans)
  | .reading .bye count =>
    Done args cl ∧ 0 < count ∧ arrived = args.packets args.ntrans ++ cl.lastLine ++ cl.byeLine
  | .returned => Done args cl ∧ arrived <+: (plan args cl.last).flatten
  | .gaveUp =>
    Busy args cl ∧ args.packets cl.i <+: cl.heard ∧ cl.heard <+: args.packets (cl.i + 1) ∧
      arrived <+: (plan args cl.last).flatten
  | .threw _ => Hears args cl ∧ arrived <+: (plan args cl.last).flatten

theorem plan_pieces (args : EchoArgs) (last : Bool) :
    ∀ line ∈ plan args last, IsPiece crlf.cutter line := by
  intro line hline
  rcases List.mem_append.mp hline with hline | hline
  · rw [(List.mem_replicate.mp hline).2]
    exact args.message_piece
  · have hends : ∀ line ∈ [benchLine, shutdownLine, quitLine], IsPiece crlf.cutter line := by
      unfold IsPiece
      decide
    apply hends
    cases last with
    | true => exact List.mem_append_left [quitLine] hline
    | false => exact List.mem_append_right [benchLine, shutdownLine] hline

theorem plan_flatten : (plan args cl.last).flatten =
    args.packets args.ntrans ++ cl.lastLine ++ cl.byeLine := by
  rw [plan, List.flatten_append, List.append_assoc]
  unfold lastLine byeLine
  cases cl.last <;> rfl

theorem packets_prefix_plan {i : Nat} (hi : i ≤ args.ntrans) :
    args.packets i <+: (plan args cl.last).flatten := by
  rw [plan_flatten, List.append_assoc]
  exact (args.packets_mono hi).trans (List.prefix_append _ _)

theorem Writes.prefix {call : WriteCall} {line before : Bytes} (h : Writes call line before arrived) :
    arrived <+: before ++ line := by
  rw [h.arrived]
  exact (List.prefix_append_right_inj _).mpr (List.take_prefix _ _)

/-- What has come to the server is a first part of what the client is to send. -/
theorem Placed.said (h : Placed args cl arrived) : arrived <+: (plan args cl.last).flatten := by
  unfold Placed at h
  split at h
  · rcases h with ⟨-, -, -, rfl, -⟩
    exact List.nil_prefix
  · rcases h with ⟨hbusy, hw, -⟩
    have hpre := hw.prefix
    rw [← args.packets_succ] at hpre
    exact hpre.trans (packets_prefix_plan hbusy.i)
  · rcases h with ⟨hbusy, -, -, rfl, -⟩
    exact packets_prefix_plan hbusy.i
  · rcases h with ⟨-, hlast, hw, -⟩
    apply hw.prefix.trans
    rw [plan_flatten]
    unfold lastLine
    rw [hlast]
    exact List.prefix_append _ _
  · rcases h with ⟨-, hlast, -, rfl, -⟩
    rw [plan_flatten]
    unfold lastLine
    rw [hlast]
    exact List.prefix_append _ _
  · rcases h with ⟨-, hw, -⟩
    rw [plan_flatten]
    exact hw.prefix
  · rcases h with ⟨-, -, rfl⟩
    exact ⟨[], (List.append_nil _).trans plan_flatten.symm⟩
  · exact h.2
  · exact h.2.2.2
  · exact h.2

-- Between two transactions.
theorem placed_nextPacket (hi : cl.i ≤ args.ntrans) (hfin : cl.finished = false)
    (hlast : cl.last = false) (harrived : arrived = args.packets cl.i)
    (hheard : cl.heard = args.packets cl.i) (counter : Int) :
    Placed args (cl.nextPacket args counter).1 arrived := by
  have hstart : ∀ line before : Bytes, line ≠ [] → before = arrived →
      Writes (.start cl.fd line) line before arrived := by
    intro line before hne hbefore
    refine ⟨WriteCall.start_kept _ _, ?_, rfl, ?_⟩
    · exact if_neg fun hlen => hne (List.eq_nil_of_length_eq_zero hlen)
    · show arrived = before ++ line.take 0
      rw [List.take_zero, List.append_nil, hbefore]
  unfold nextPacket
  split
  · rename_i hlt
    exact ⟨⟨hfin, hlast, hlt⟩, hstart _ _ args.message_ne_nil harrived.symm, hheard⟩
  · rename_i hge
    have hall : cl.i = args.ntrans := by omega
    rw [hall] at harrived hheard
    dsimp only
    have hpre : args.packets args.ntrans <+: cl.heard := hheard ▸ List.prefix_rfl
    by_cases hzero : counter - 1 = 0
    · simp only [hzero, decide_true, if_true]
      exact ⟨⟨rfl, hall, hpre⟩, rfl, hstart _ _ (by decide) harrived.symm, hheard⟩
    · simp only [hzero, decide_false, Bool.false_eq_true, if_false]
      refine ⟨⟨rfl, hall, hpre⟩, ?_, fun _ => hheard⟩
      apply hstart quitLine _ (by decide)
      show args.packets args.ntrans ++ [] = arrived
      rw [List.append_nil, harrived]

theorem Done.keep {cl' : EchoClient} (h : Done args cl) (hfinished : cl'.finished = cl.finished)
    (hi : cl'.i = cl.i) (hheard : cl.heard <+: cl'.heard) : Done args cl' :=
  ⟨hfinished.trans h.finished, hi.trans h.i, h.heard.trans hheard⟩

theorem Done.hears (h : Done args cl) : Hears args cl where
  i := h.i.le
  done _ := h.i
  before := by
    rw [h.i]
    exact h.heard
  below hfin := nomatch h.finished.symm.trans hfin

theorem Busy.hears (h : Busy args cl) (hbefore : args.packets cl.i <+: cl.heard)
    (hbelow : cl.heard <+: args.packets (cl.i + 1)) : Hears args cl where
  i := h.i.le
  done hfin := nomatch h.finished.symm.trans hfin
  before := hbefore
  below _ := hbelow

theorem Placed.hears (h : Placed args cl arrived) : Hears args cl := by
  unfold Placed at h
  split at h
  · rcases h with ⟨hfin, -, hi, -, hheard⟩
    refine ⟨hi ▸ Nat.zero_le _, (fun hyes => nomatch hfin.symm.trans hyes), ?_, fun _ => ?_⟩
    · rw [hi, hheard]
      exact List.prefix_rfl
    · rw [hheard]
      exact List.nil_prefix
  · rcases h with ⟨hbusy, -, hheard⟩
    refine hbusy.hears (hheard ▸ List.prefix_rfl) ?_
    rw [hheard]
    exact args.packets_mono (Nat.le_succ _)
  · rcases h with ⟨hbusy, -, -, -, hheard⟩
    refine hbusy.hears ?_ ?_
    · rw [hheard]
      exact List.prefix_append _ _
    · rw [hheard, args.packets_succ]
      exact (List.prefix_append_right_inj _).mpr (List.take_prefix _ _)
  · exact h.1.hears
  · exact h.1.hears
  · exact h.1.hears
  · exact h.1.hears
  · exact h.1.hears
  · exact h.1.hears h.2.1 h.2.2.1
  · exact h.1

-- However it ends, what it has heard stays.
theorem Placed.threw (h : Placed args cl arrived) (e : OSError) :
    Placed args { cl with pc := .threw e } arrived :=
  ⟨⟨h.hears.i, h.hears.done, h.hears.before, h.hears.below⟩, h.said⟩

/-! ### Writing -/

-- What a `::write` takes comes to the server.
theorem Writes.accept {call : WriteCall} {line before : Bytes} (h : Writes call line before arrived)
    {n : Nat} {pos : 0 < n} (hn : call.Possible (.accepted n pos)) :
    (call.answered (.accepted n pos)).pc = .returned ∧
        arrived ++ (call.buffer.drop call.p).take n = before ++ line ∨
      (call.answered (.accepted n pos)).pc = .writing ∧
        Writes (call.answered (.accepted n pos)) line before
          (arrived ++ (call.buffer.drop call.p).take n) := by
  have htook : arrived ++ (call.buffer.drop call.p).take n = before ++ line.take (call.p + n) := by
    rw [h.arrived, h.buffer, List.append_assoc, List.take_add]
  rcases WriteCall.accepted_cases h.kept h.pc hn with ⟨hret, hlen⟩ | ⟨hkept, hpc, -⟩
  · left
    rw [h.buffer] at hlen
    rw [htook, hlen, List.take_length]
    exact ⟨hret, rfl⟩
  · exact .inr ⟨hpc, hkept, hpc, h.buffer, htook⟩

theorem Placed.wrote {stage : ClientStage} {call : WriteCall} (h : Placed args cl arrived)
    (hpc : cl.pc = .writing stage call) {n : Nat} {pos : 0 < n}
    (hn : call.Possible (.accepted n pos)) :
    Placed args (cl.wrote args stage call n pos) (arrived ++ (call.buffer.drop call.p).take n) := by
  have hsize : 0 < args.packetSize := by
    have htwo := args.message_eq.1
    omega
  unfold Placed at h
  rw [hpc] at h
  unfold EchoClient.wrote
  dsimp only
  cases stage with
  | packet =>
    rcases h with ⟨hbusy, hw, hheard⟩
    rcases hw.accept hn with ⟨hret, hall⟩ | ⟨hstill, hw'⟩
    · rw [if_pos hret, hall, ← args.packets_succ]
      refine ⟨⟨hbusy.finished, hbusy.last, hbusy.i⟩, hsize, Nat.le_refl _, rfl, ?_⟩
      show cl.heard = args.packets cl.i ++ args.message.take (args.packetSize - args.packetSize)
      rw [Nat.sub_self, List.take_zero, List.append_nil, hheard]
    · rw [if_neg (by rw [hstill]; exact WritePc.noConfusion)]
      exact ⟨⟨hbusy.finished, hbusy.last, hbusy.i⟩, hw', hheard⟩
  | bench =>
    rcases h with ⟨hdone, hlast, hw, hheard⟩
    rcases hw.accept hn with ⟨hret, hall⟩ | ⟨hstill, hw'⟩
    · rw [if_pos hret, hall]
      exact ⟨hdone.keep rfl rfl List.prefix_rfl, hlast, Nat.succ_pos _, rfl, hheard⟩
    · rw [if_neg (by rw [hstill]; exact WritePc.noConfusion)]
      exact ⟨hdone.keep rfl rfl List.prefix_rfl, hlast, hw', hheard⟩
  | bye =>
    rcases h with ⟨hdone, hw, hheard⟩
    rcases hw.accept hn with ⟨hret, hall⟩ | ⟨hstill, hw'⟩
    · rw [if_pos hret, hall]
      exact ⟨hdone.keep rfl rfl List.prefix_rfl, lt_max_of_lt_left hsize, rfl⟩
    · rw [if_neg (by rw [hstill]; exact WritePc.noConfusion)]
      exact ⟨hdone.keep rfl rfl List.prefix_rfl, hw', hheard⟩

/-! ### Reading -/

-- The last line of a client.
theorem placed_sayBye (hdone : Done args cl)
    (harrived : arrived = args.packets args.ntrans ++ cl.lastLine)
    (hheard : cl.last = false → cl.heard = args.packets args.ntrans) :
    Placed args cl.sayBye arrived := by
  refine ⟨hdone.keep rfl rfl List.prefix_rfl, ⟨WriteCall.start_kept _ _, ?_, rfl, ?_⟩, hheard⟩
  · refine if_neg fun hlen => ?_
    have hnil := List.eq_nil_of_length_eq_zero hlen
    split at hnil
    · exact List.cons_ne_nil _ _ hnil
    · exact List.cons_ne_nil _ _ hnil
  · show arrived = (args.packets args.ntrans ++ cl.lastLine) ++ List.take 0 _
    rw [List.take_zero, List.append_nil, harrived]

/-- In a transaction, what the client reads is the next of its own bytes. -/
theorem Placed.gotPacket {count : Nat} (h : Placed args cl arrived)
    (hpc : cl.pc = .reading .packet count) {data : Bytes} (hlen : data.length ≤ count)
    (hback : cl.heard ++ data <+: args.packets (cl.i + 1)) (counter : Int) :
    Placed args (cl.gotData args .packet count data counter).1 arrived := by
  unfold Placed at h
  rw [hpc] at h
  rcases h with ⟨hbusy, hpos, hle, harrived, hheard⟩
  have hheard' : cl.heard ++ data =
      args.packets cl.i ++ args.message.take (args.packetSize - (count - data.length)) := by
    have htotal : (cl.heard ++ data).length =
        (args.packets cl.i).length + (args.packetSize - (count - data.length)) := by
      rw [hheard, List.length_append, List.length_append, List.length_take, args.message_length]
      omega
    have htake := List.prefix_iff_eq_take.mp hback
    rw [htotal, args.packets_succ, List.take_length_add_append] at htake
    exact htake
  unfold gotData
  dsimp only
  split
  · rename_i hzero
    rw [hzero, Nat.sub_zero, ← args.message_length, List.take_length, ← args.packets_succ] at hheard'
    have hnext : ({ cl with heard := cl.heard ++ data, i := cl.i + 1 } : EchoClient).i ≤ args.ntrans :=
      hbusy.i
    exact placed_nextPacket hnext hbusy.finished hbusy.last harrived hheard' counter
  · rename_i hmore
    refine ⟨⟨hbusy.finished, hbusy.last, hbusy.i⟩, Nat.pos_of_ne_zero hmore, ?_, harrived, hheard'⟩
    omega

theorem Placed.gotData {stage : ClientStage} {count : Nat} (h : Placed args cl arrived)
    (hpc : cl.pc = .reading stage count) {data : Bytes} (hlen : data.length ≤ count)
    (hback : ∀ k, arrived = args.packets k → cl.heard ++ data <+: args.packets k) (counter : Int) :
    Placed args (cl.gotData args stage count data counter).1 arrived := by
  have hsaid := h.said
  cases stage with
  | packet =>
    apply h.gotPacket hpc hlen
    unfold Placed at h
    rw [hpc] at h
    exact hback _ h.2.2.2.1
  | bench =>
    unfold Placed at h
    rw [hpc] at h
    rcases h with ⟨hdone, hlast, -, harrived, -⟩
    refine placed_sayBye (hdone.keep rfl rfl (List.prefix_append _ _)) ?_ ?_
    · rw [harrived]
      unfold lastLine
      rw [hlast]
      rfl
    · exact fun hno => nomatch hlast.symm.trans hno
  | bye =>
    unfold Placed at h
    rw [hpc] at h
    exact ⟨h.1.keep rfl rfl (List.prefix_append _ _), hsaid⟩

theorem Placed.gotEof {stage : ClientStage} {count : Nat} (h : Placed args cl arrived)
    (hpc : cl.pc = .reading stage count) : Placed args (cl.gotEof stage) arrived := by
  have hsaid := h.said
  unfold Placed at h
  rw [hpc] at h
  cases stage with
  | packet =>
    rcases h with ⟨hbusy, -, -, -, hheard⟩
    refine ⟨⟨hbusy.finished, hbusy.last, hbusy.i⟩, ?_, ?_, hsaid⟩
    · show args.packets cl.i <+: cl.heard
      rw [hheard]
      exact List.prefix_append _ _
    · show cl.heard <+: args.packets (cl.i + 1)
      rw [hheard, args.packets_succ]
      exact (List.prefix_append_right_inj _).mpr (List.take_prefix _ _)
  | bench =>
    rcases h with ⟨hdone, hlast, -, harrived, hheard⟩
    refine placed_sayBye hdone ?_ fun _ => hheard
    rw [harrived]
    unfold lastLine
    rw [hlast]
    rfl
  | bye => exact ⟨h.1.keep rfl rfl List.prefix_rfl, hsaid⟩

theorem nextPacket_heard (args : EchoArgs) (cl : EchoClient) (counter : Int) :
    (cl.nextPacket args counter).1.heard = cl.heard := by
  unfold nextPacket
  dsimp only
  split
  · rfl
  · split <;> rfl

theorem gotData_heard (args : EchoArgs) (cl : EchoClient) (stage : ClientStage) (count : Nat)
    (data : Bytes) (counter : Int) :
    (cl.gotData args stage count data counter).1.heard = cl.heard ++ data := by
  unfold gotData
  cases stage with
  | packet =>
    dsimp only
    split
    · exact nextPacket_heard _ _ _
    · rfl
  | bench | bye => rfl

theorem gotEof_heard (cl : EchoClient) (stage : ClientStage) : (cl.gotEof stage).heard = cl.heard := by
  cases stage <;> rfl

end EchoClient

namespace EchoSession

variable {s s' : EchoSession}

theorem gotLine_frame (s : EchoSession) (line diff : Bytes) :
    (s.gotLine line diff).arrived = s.arrived ∧ (s.gotLine line diff).hungUp = s.hungUp ∧
      (s.gotLine line diff).sent = s.sent ∧ (s.gotLine line diff).get = s.get := by
  unfold gotLine
  dsimp only
  split <;> exact ⟨rfl, rfl, rfl, rfl⟩

-- What a session does itself changes nothing that has arrived, and takes back nothing it has sent.
theorem Moves.frame {a : EchoAct} (h : Moves s a s') (ha : a.own = true) :
    s'.arrived = s.arrived ∧ s'.hungUp = s.hungUp ∧ s.sent <+: s'.sent := by
  cases h with
  | arrive | hangUp => cases ha
  | round _ _ hround =>
    cases hround with
    | goesOn => exact ⟨rfl, rfl, List.prefix_rfl⟩
    | line _ _ =>
      rcases gotLine_frame _ _ _ with ⟨harrived, hup, hsent, -⟩
      exact ⟨harrived, hup, [], (List.append_nil _).trans hsent.symm⟩
  | closed => exact ⟨rfl, rfl, List.prefix_rfl⟩
  | readFails => exact ⟨rfl, rfl, List.prefix_rfl⟩
  | write => exact ⟨rfl, rfl, List.prefix_append _ _⟩
  | fails => exact ⟨rfl, rfl, List.prefix_rfl⟩
  | shutdown => exact ⟨rfl, rfl, List.prefix_rfl⟩

theorem Moves.not_ended {a : EchoAct} (h : Moves s a s') (ha : a.own = true) (e : EchoEnd) :
    s.pc ≠ .ended e := by
  intro he
  cases h with
  | arrive | hangUp => cases ha
  | round _ hpc | closed hpc | readFails _ hpc | write hpc | shutdown hpc => cases hpc.symm.trans he
  | fails _ hpc => exact hpc e he

theorem step_arrive {data : Bytes} (h : s.step (.arrive data) = some s') :
    s.hungUp = false ∧ s'.arrived = s.arrived ++ data ∧ s'.hungUp = s.hungUp ∧ s'.sent = s.sent ∧
      s'.pc = s.pc := by
  cases step_moves h with
  | arrive _ hup _ _ => exact ⟨hup, rfl, rfl, rfl, rfl⟩
  | round ha => rcases ha with ha | ⟨n, pos, ha⟩ <;> cases ha
  | fails ha => rcases ha with ha | ⟨errno, ha⟩ <;> cases ha

-- The lines of a session are the first of those that the client is to send.
theorem Kept.lines_plan (h : s.Kept) {args : EchoArgs} {last : Bool}
    (hpre : s.arrived <+: (EchoClient.plan args last).flatten) :
    s.lines <+: EchoClient.plan args last := by
  have hown : Splits crlf.cutter (s.lines.flatten ++ []) s.lines [] := splits_of_pieces h.lines rfl
  have hall : Splits crlf.cutter ((EchoClient.plan args last).flatten ++ []) _ [] :=
    splits_of_pieces (EchoClient.plan_pieces args last) rfl
  rw [List.append_nil] at hown hall
  exact hown.prefix hall (h.taken.trans hpre)

end EchoSession

end Coropp
