import Coropp.EchoSystem

/-!
# The echo system comes to its end

Every step moves some bytes on, or a client or a session to its next stage, so that there is an end to
them.  As long as nothing fails that need not, the end is that all the clients are through.
-/

namespace Coropp

open Transition Pieces

/-! ## Every step counts -/

def ClientStage.rank : ClientStage → Nat
  | .packet => 1
  | .bench => 2
  | .bye => 3

def EchoClient.rank (cl : EchoClient) : Nat :=
  match cl.pc with
  | .connecting => 0
  | .writing stage _ | .reading stage _ => stage.rank
  | .returned | .gaveUp | .threw _ => 4

def EchoSession.rank (s : EchoSession) : Nat :=
  match s.pc with
  | .getting | .writing _ => 0
  | .shutting _ => 1
  | .ended _ => 2

namespace EchoSession

variable {s s' : EchoSession}

theorem gotLine_outs (s : EchoSession) (line diff : Bytes) :
    ∃ out, (s.gotLine line diff).outs = s.outs ++ [out] ∧
      (s.gotLine line diff).lines = s.lines ++ [line] ∧ out.length ≤ line.length + diff.length := by
  unfold gotLine
  dsimp only
  split
  · exact ⟨[], rfl, rfl, Nat.zero_le _⟩
  · exact ⟨[], rfl, rfl, Nat.zero_le _⟩
  · exact ⟨diff, rfl, rfl, Nat.le_add_left _ _⟩
  · exact ⟨[], rfl, rfl, Nat.zero_le _⟩
  · exact ⟨line, rfl, rfl, Nat.le_add_right _ _⟩

/-- What a session holds has arrived, and what it answers with is not longer than it may be. -/
structure Bounded (figures : Nat) (s : EchoSession) : Prop where
  held : s.held ≤ s.arrived.length
  outs : s.outs.flatten.length ≤ s.lines.flatten.length + s.lines.length * figures

theorem Bounded.keep {figures : Nat} (h : s.Bounded figures) (hheld : s'.held ≤ s.held)
    (harrived : s'.arrived = s.arrived) (hlines : s'.lines = s.lines) (houts : s'.outs = s.outs) :
    s'.Bounded figures where
  held := by
    rw [harrived]
    exact hheld.trans h.held
  outs := by
    rw [houts, hlines]
    exact h.outs

theorem held_arrive {data : Bytes} (h : s.step (.arrive data) = some s') :
    s'.held = s.held + data.length := by
  cases step_moves h with
  | @arrive _ hup b hbuffer hdata =>
    show b.buffer.length + b.file.data.length = s.held + data.length
    rw [hbuffer, hdata, List.length_append, ← Nat.add_assoc]
    rfl
  | round ha => rcases ha with ha | ⟨n, pos, ha⟩ <;> cases ha
  | fails ha => rcases ha with ha | ⟨errno, ha⟩ <;> cases ha

/-- A step of its own uses up some of what it holds, sends something, or is one towards the end. -/
structure Grows (s s' : EchoSession) : Prop where
  held : s'.held ≤ s.held
  sent : s.sent.length ≤ s'.sent.length
  rank : s.rank ≤ s'.rank
  more : s'.held < s.held ∨ s.sent.length < s'.sent.length ∨ s.rank < s'.rank

theorem Round.grows {diff : Bytes} (h : Round s diff s') (hpc : s.pc = .getting) : Grows s s' := by
  have hrank : s.rank = 0 := by rw [rank, hpc]
  cases h with
  | @goesOn xs file matched hne hxs hscan =>
    have hlen := congrArg List.length hxs
    have hpos := List.length_pos_of_ne_nil hne
    rw [List.length_append, List.length_append] at hlen
    have hlt : ([] : Bytes).length + file.data.length < s.held := by
      unfold held
      rw [List.length_nil]
      omega
    exact ⟨hlt.le, Nat.le_refl _, Nat.le_refl _, .inl hlt⟩
  | @line xs file i hxs hscan =>
    have hlen := congrArg List.length hxs
    have hi := (scan_take_found hscan).1
    rw [List.length_append, List.length_append] at hlen
    rcases gotLine_frame { s with get := ⟨Delim.start crlf, [], ⟨file, xs.drop (i + 1)⟩⟩ }
      (s.get.sl.flatten ++ xs.take (i + 1)) diff with ⟨-, -, hsent, hget⟩
    have hlt : held (gotLine { s with get := ⟨Delim.start crlf, [], ⟨file, xs.drop (i + 1)⟩⟩ }
        (s.get.sl.flatten ++ xs.take (i + 1)) diff) < s.held := by
      unfold held unread
      rw [hget]
      show (xs.drop (i + 1)).length + file.data.length < _
      rw [List.length_drop]
      change xs.length + file.data.length = s.get.b.buffer.length + s.get.b.file.data.length at hlen
      omega
    refine ⟨hlt.le, ?_, ?_, .inl hlt⟩
    · rw [hsent]
    · rw [hrank]
      exact Nat.zero_le _

theorem Moves.grows {a : EchoAct} (h : Moves s a s') (hkept : s.Kept) (hown : a.own = true) :
    Grows s s' := by
  cases h with
  | arrive | hangUp => cases hown
  | round _ hpc hround => exact hround.grows hpc
  | closed hpc _ _ hb | readFails _ hpc hb =>
    have hrank : s.rank = 0 := by rw [rank, hpc]
    have hlt : s.rank < 2 := by omega
    exact ⟨hb.le, Nat.le_refl _, hlt.le, .inr (.inr hlt)⟩
  | @write c n pos hpc hn =>
    have hleft := (hkept.writing c hpc).1.left
    have hle : n ≤ c.length := hn.1
    have hlt : s.sent.length < (s.sent ++ (c.buffer.drop c.p).take n).length := by
      rw [List.length_append, List.length_take, List.length_drop]
      omega
    refine ⟨Nat.le_refl _, hlt.le, ?_, .inr (.inl hlt)⟩
    rw [rank, hpc]
    exact Nat.zero_le _
  | @fails a e ha hpc =>
    have hlt : s.rank < 2 := by
      unfold rank
      split
      · decide
      · decide
      · decide
      · exact absurd ‹_› (hpc _)
    exact ⟨Nat.le_refl _, Nat.le_refl _, hlt.le, .inr (.inr hlt)⟩
  | @shutdown exits hpc =>
    have hlt : s.rank < 2 := by
      rw [rank, hpc]
      exact Nat.one_lt_two
    exact ⟨Nat.le_refl _, Nat.le_refl _, hlt.le, .inr (.inr hlt)⟩

/-- The figures of a step are not longer than it may be. -/
def Within (figures : Nat) : EchoAct → Prop
  | .scan diff | .read _ _ diff => diff.val.length ≤ figures
  | _ => True

theorem outs_append {figures : Nat} {lines outs : List Bytes} {line out : Bytes}
    (h : outs.flatten.length ≤ lines.flatten.length + lines.length * figures)
    (hout : out.length ≤ line.length + figures) :
    (outs ++ [out]).flatten.length ≤
      (lines ++ [line]).flatten.length + (lines ++ [line]).length * figures := by
  simp only [List.flatten_append, List.flatten_singleton, List.length_append, List.length_singleton,
    Nat.add_mul, Nat.one_mul]
  omega

theorem Moves.bounded {a : EchoAct} (h : Moves s a s') {figures : Nat}
    (hwithin : Within figures a) (hs : s.Bounded figures) : s'.Bounded figures := by
  cases h with
  | arrive data hup hbuffer hdata =>
    refine ⟨?_, hs.outs⟩
    have hheld := hs.held
    unfold held unread at hheld ⊢
    dsimp only
    rw [hbuffer, hdata, List.length_append, List.length_append]
    unfold unread
    omega
  | hangUp => exact hs.keep (Nat.le_refl _) rfl rfl rfl
  | @round a diff ha hpc s' hround =>
    have hgrows := hround.grows hpc
    have hdiff : diff.val.length ≤ figures := by
      rcases ha with rfl | ⟨n, pos, rfl⟩ <;> exact hwithin
    cases hround with
    | goesOn => exact hs.keep hgrows.held rfl rfl rfl
    | @line xs file i hxs hscan =>
      have hframe := gotLine_frame { s with get := ⟨Delim.start crlf, [], ⟨file, xs.drop (i + 1)⟩⟩ }
        (s.get.sl.flatten ++ xs.take (i + 1)) diff.val
      rcases gotLine_outs { s with get := ⟨Delim.start crlf, [], ⟨file, xs.drop (i + 1)⟩⟩ }
        (s.get.sl.flatten ++ xs.take (i + 1)) diff.val with ⟨out, houts, hlines, hout⟩
      refine ⟨?_, ?_⟩
      · rw [hframe.1]
        exact hgrows.held.trans hs.held
      · rw [houts, hlines]
        exact outs_append hs.outs (by omega)
  | closed _ _ _ hb | readFails _ _ hb => exact hs.keep hb.le rfl rfl rfl
  | write | fails | shutdown => exact hs.keep (Nat.le_refl _) rfl rfl rfl

end EchoSession

namespace EchoClient

variable {args : EchoArgs} {cl : EchoClient}

theorem nextPacket_rank (args : EchoArgs) (cl : EchoClient) (counter : Int) :
    1 ≤ (cl.nextPacket args counter).1.rank := by
  unfold nextPacket
  dsimp only
  split
  · exact Nat.le_refl _
  · split
    · exact (by decide : 1 ≤ 2)
    · exact (by decide : 1 ≤ 3)

theorem gotData_rank (args : EchoArgs) (cl : EchoClient) (stage : ClientStage) (count : Nat)
    (data : Bytes) (counter : Int) :
    stage.rank ≤ (cl.gotData args stage count data counter).1.rank := by
  unfold gotData
  cases stage with
  | packet =>
    dsimp only
    split
    · exact nextPacket_rank _ _ _
    · exact Nat.le_refl _
  | bench => exact (by decide : 2 ≤ 3)
  | bye => exact (by decide : 3 ≤ 4)

theorem gotEof_rank (cl : EchoClient) (stage : ClientStage) : stage.rank < (cl.gotEof stage).rank := by
  cases stage with
  | packet => exact (by decide : 1 < 4)
  | bench => exact (by decide : 2 < 3)
  | bye => exact (by decide : 3 < 4)

theorem wrote_rank (args : EchoArgs) (cl : EchoClient) (stage : ClientStage) (call : WriteCall) {n : Nat}
    (pos : 0 < n) : (cl.wrote args stage call n pos).rank = stage.rank := by
  unfold wrote rank
  dsimp only
  by_cases hret : (call.answered (.accepted n pos)).pc = .returned
  · rw [if_pos hret]
  · rw [if_neg hret]

end EchoClient

namespace EchoConn

variable {args : EchoArgs} {c c' : EchoConn} {counter counter' : Int} {up : Bool}

/-- How far a connection has got. -/
def progress (c : EchoConn) : Nat :=
  c.session.arrived.length + (c.session.arrived.length - c.session.held) + c.session.sent.length +
    c.client.heard.length + c.client.rank + c.session.rank + c.accepted.toNat

theorem Moves.progress {a : ClientAct} (hmoves : Moves args c counter up a c' counter')
    (h : c.Kept args) : c.progress < c'.progress := by
  unfold EchoConn.progress
  have hplaced := h.placed
  unfold EchoClient.Placed at hplaced
  cases hmoves with
  | connect hpc =>
    have hrank : c.client.rank = 0 := by rw [EchoClient.rank, hpc]
    have hnext := EchoClient.nextPacket_rank args c.client counter
    have hheard := congrArg List.length (EchoClient.nextPacket_heard args c.client counter)
    change _ < c.session.arrived.length + (c.session.arrived.length - c.session.held) +
      c.session.sent.length + (c.client.nextPacket args counter).1.heard.length +
      (c.client.nextPacket args counter).1.rank + c.session.rank + c.accepted.toNat
    omega
  | @fails a e ha hopen hnot =>
    have hrank : c.client.rank < 4 := by
      unfold EchoClient.rank
      unfold EchoClient.isClosed at hopen
      split
      · decide
      · cases ‹ClientStage› <;> decide
      · cases ‹ClientStage› <;> decide
      · rename_i hpc
        rw [hpc] at hopen
        cases hopen
      · rename_i hpc
        rw [hpc] at hopen
        cases hopen
      · exact absurd ‹_› (hnot _)
    change _ < c.session.arrived.length + (c.session.arrived.length - c.session.held) +
      c.session.sent.length + c.client.heard.length + 4 + c.session.rank + c.accepted.toNat
    omega
  | @write n pos stage call s hpc hn hroom hs =>
    have hkept : call.Kept := by
      rw [hpc] at hplaced
      cases stage with
      | packet => exact hplaced.2.1.kept
      | bench => exact hplaced.2.2.1.kept
      | bye => exact hplaced.2.1.kept
    have hleft := hkept.left
    have hle : n ≤ call.length := hn.1
    have hlen : ((call.buffer.drop call.p).take n).length = n := by
      rw [List.length_take, List.length_drop]
      omega
    rcases EchoSession.step_arrive hs with ⟨-, harrived, -, hsent, hsame⟩
    have hheld := EchoSession.held_arrive hs
    have hrank : s.rank = c.session.rank := by rw [EchoSession.rank, hsame, EchoSession.rank]
    have hclient : c.client.rank = stage.rank := by rw [EchoClient.rank, hpc]
    have hwrote := EchoClient.wrote_rank args c.client stage call pos
    change _ < s.arrived.length + (s.arrived.length - s.held) + s.sent.length +
      c.client.heard.length + (c.client.wrote args stage call n pos).rank + s.rank + c.accepted.toNat
    rw [harrived, List.length_append, hheld, hlen, hsent, hrank, hclient, hwrote]
    omega
  | @read n pos stage count data rest hpc hdata hlen hsome =>
    have hpos : 0 < count := by
      rw [hpc] at hplaced
      cases stage with
      | packet => exact hplaced.2.1
      | bench => exact hplaced.2.2.1
      | bye => exact hplaced.2.1
    have hrank : c.client.rank = stage.rank := by rw [EchoClient.rank, hpc]
    have hnext := EchoClient.gotData_rank args c.client stage count data counter
    have hheard := congrArg List.length (EchoClient.gotData_heard args c.client stage count data counter)
    have hmore := List.length_pos_of_ne_nil (hsome hpos)
    rw [List.length_append] at hheard
    change _ < c.session.arrived.length + (c.session.arrived.length - c.session.held) +
      c.session.sent.length + (c.client.gotData args stage count data counter).1.heard.length +
      (c.client.gotData args stage count data counter).1.rank + c.session.rank + c.accepted.toNat
    omega
  | @readEof stage count hpc hempty hend =>
    have hrank : c.client.rank = stage.rank := by rw [EchoClient.rank, hpc]
    have hnext := EchoClient.gotEof_rank c.client stage
    have hheard := congrArg List.length (EchoClient.gotEof_heard c.client stage)
    change _ < c.session.arrived.length + (c.session.arrived.length - c.session.held) +
      c.session.sent.length + (c.client.gotEof stage).heard.length +
      (c.client.gotEof stage).rank + c.session.rank + c.accepted.toNat
    omega

theorem sessionStep_progress {a : EchoAct} (h : c.Kept args) (hbounded : c.session.Bounded args.figures)
    (hstep : c.sessionStep args a = some c') : c.progress < c'.progress := by
  rcases sessionStep_moves hstep with ⟨s, hs, -, hown, -, rfl⟩
  have hmoves := EchoSession.step_moves hs
  have hgrows := hmoves.grows h.session hown
  have harrived := congrArg List.length (hmoves.frame hown).1
  have hheld := hbounded.held
  have hless := hgrows.held
  have hmore := hgrows.more
  have hsent := hgrows.sent
  have hrank := hgrows.rank
  unfold EchoConn.progress
  dsimp only
  omega

theorem Moves.bounded {a : ClientAct} (hmoves : Moves args c counter up a c' counter')
    (hbounded : c.session.Bounded args.figures) : c'.session.Bounded args.figures := by
  cases hmoves with
  | connect | fails | read | readEof => exact hbounded.keep (Nat.le_refl _) rfl rfl rfl
  | write hpc hn hroom hs => exact (EchoSession.step_moves hs).bounded trivial hbounded

theorem sessionStep_bounded {a : EchoAct} (hbounded : c.session.Bounded args.figures)
    (hstep : c.sessionStep args a = some c') : c'.session.Bounded args.figures := by
  rcases sessionStep_moves hstep with ⟨s, hs, -, -, hroom, rfl⟩
  refine (EchoSession.step_moves hs).bounded ?_ hbounded
  cases a with
  | scan diff | read _ _ diff =>
    show diff.val.length ≤ args.figures
    exact of_decide_eq_true hroom
  | _ => trivial

end EchoConn

namespace EchoArgs

variable (args : EchoArgs)

/-- The most that a client sends. -/
def said : Nat := args.ntrans * args.packetSize + (benchLine ++ shutdownLine).length

/-- The most that it is answered. -/
def answered : Nat := args.said + (args.ntrans + 2) * args.figures

/-- The most steps that there can be: for each connection what is sent, received and processed, and
    the stages of the client and of the session. -/
def mostSteps : Nat := args.nc * (2 * args.said + 2 * args.answered + 7) + 1

theorem plan_said (last : Bool) : (EchoClient.plan args last).flatten.length ≤ args.said := by
  have hlen := args.packets_length args.ntrans
  rw [EchoClient.plan, List.flatten_append, List.length_append]
  change (args.packets args.ntrans).length + _ ≤ _
  rw [hlen, said]
  cases last
  · exact Nat.add_le_add_left (by decide) _
  · exact Nat.le_refl _

theorem plan_lines (last : Bool) : (EchoClient.plan args last).length ≤ args.ntrans + 2 := by
  rw [EchoClient.plan, List.length_append, List.length_replicate]
  cases last
  · exact Nat.le_succ _
  · exact Nat.le_refl _

end EchoArgs

theorem EchoConn.progress_le {args : EchoArgs} {c : EchoConn} (h : c.Kept args)
    (hbounded : c.session.Bounded args.figures) :
    c.progress ≤ 2 * args.said + 2 * args.answered + 7 := by
  have harrived := h.placed.said.length_le.trans (args.plan_said _)
  have hlines := (h.session.lines_plan h.placed.said).length_le.trans (args.plan_lines _)
  have htaken := h.session.taken.length_le
  have hsent := ((List.prefix_append _ _).trans h.session.sent).length_le
  have houts := hbounded.outs
  have hfigures := Nat.mul_le_mul_right args.figures hlines
  have hheard := congrArg List.length h.pipe
  rw [List.length_append] at hheard
  have hclient : c.client.rank ≤ 4 := by
    unfold EchoClient.rank
    split
    · decide
    · cases ‹ClientStage› <;> decide
    · cases ‹ClientStage› <;> decide
    · decide
    · decide
    · decide
  have hsession : c.session.rank ≤ 2 := by
    unfold EchoSession.rank
    split <;> decide
  have haccepted := Bool.toNat_le c.accepted
  unfold EchoConn.progress EchoArgs.answered
  omega

namespace EchoSystem

variable {args : EchoArgs} {fd : Nat → Fd} {w w' : EchoSystem}

def progress (w : EchoSystem) : Nat := (w.conns.map EchoConn.progress).sum + (!w.serverUp).toNat

/-- The invariant, with the bounds. -/
structure Bounded (args : EchoArgs) (w : EchoSystem) : Prop extends Kept args w where
  bounded : ∀ c ∈ w.conns, c.session.Bounded args.figures

theorem progress_set {k : Nat} {c c' : EchoConn} (hc : w.conns[k]? = some c)
    (hlt : c.progress < c'.progress) :
    (w.conns.map EchoConn.progress).sum < ((w.conns.set k c').map EchoConn.progress).sum := by
  have hsum := Maps.sum_set hc c' EchoConn.progress
  omega

theorem Bounded.step (h : w.Bounded args) {a : EchoStep} (hstep : step args w a = some w') :
    w'.Bounded args ∧ w.progress < w'.progress := by
  have hkept := h.toKept.step hstep
  cases step_moves hstep with
  | @client k a c c' counter' hc hclient =>
    have hmem := List.mem_of_getElem? hc
    have hmoves := EchoConn.clientStep_moves hclient
    refine ⟨⟨hkept, Maps.forall_mem_set h.bounded (hmoves.bounded (h.bounded c hmem))⟩, ?_⟩
    exact Nat.add_lt_add_right (progress_set hc (hmoves.progress (h.conns c hmem))) _
  | @accept k c hc hup hnew =>
    have hlt : c.progress < { c with accepted := true }.progress := by
      unfold EchoConn.progress
      dsimp only
      rw [hnew]
      exact Nat.lt_succ_self _
    have hsame : { c with accepted := true }.session.Bounded args.figures :=
      h.bounded c (List.mem_of_getElem? hc)
    refine ⟨⟨hkept, Maps.forall_mem_set h.bounded hsame⟩, ?_⟩
    exact Nat.add_lt_add_right (progress_set hc hlt) _
  | @session k a c c' hc hup hsession =>
    have hmem := List.mem_of_getElem? hc
    have hbounded := EchoConn.sessionStep_bounded (h.bounded c hmem) hsession
    have hlt := EchoConn.sessionStep_progress (h.conns c hmem) (h.bounded c hmem) hsession
    refine ⟨⟨hkept, Maps.forall_mem_set h.bounded hbounded⟩, ?_⟩
    exact Nat.add_lt_add_right (progress_set hc hlt) _
  | serverStops hup hexit =>
    refine ⟨⟨hkept, h.bounded⟩, ?_⟩
    unfold progress
    dsimp only
    rw [hup]
    exact Nat.lt_succ_self _

theorem bounded_start (args : EchoArgs) (fd : Nat → Fd) : Bounded args (start args fd) where
  toKept := kept_start args fd
  bounded c hc := by
    rcases List.mem_map.mp hc with ⟨k, -, rfl⟩
    exact ⟨Nat.le_refl _, Nat.zero_le _⟩

theorem Bounded.progress_le (h : w.Bounded args) : w.progress ≤ args.mostSteps := by
  have hsum : ∀ l : List EchoConn, (∀ c ∈ l, c ∈ w.conns) →
      (l.map EchoConn.progress).sum ≤ l.length * (2 * args.said + 2 * args.answered + 7) := by
    intro l hl
    induction l with
    | nil => exact Nat.zero_le _
    | cons c l ih =>
      rcases List.forall_mem_cons.mp hl with ⟨hc, hl⟩
      have hhead := EchoConn.progress_le (h.conns c hc) (h.bounded c hc)
      have hrest := ih hl
      rw [List.map_cons, List.sum_cons, List.length_cons, Nat.succ_mul]
      omega
  have hall := hsum w.conns fun c hc => hc
  have hdown := Bool.toNat_le (!w.serverUp)
  rw [h.length] at hall
  unfold progress EchoArgs.mostSteps
  omega

/-- There is an end to the steps that move bytes or end a stage, whatever fails and whoever goes
    first. -/
theorem runs_length_le {acts : List EchoStep} (run : Runs args fd acts w) :
    acts.length ≤ args.mostSteps :=
  Run.length_le (I := Bounded args) (fun _ _ _ h hstep => h.step hstep)
    (fun _ h => h.progress_le) run (bounded_start args fd)

theorem runs_length_le_two : ∃ acts w, Runs twoClients (· + 5) acts w ∧ acts ≠ [] ∧
    acts.length ≤ twoClients.mostSteps := by
  rcases runs_two with ⟨acts, w, run, -, hne, -⟩
  exact ⟨acts, w, run, hne, runs_length_le run⟩

end EchoSystem

end Coropp
