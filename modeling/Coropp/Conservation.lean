import Coropp.BufferCuts
import Coropp.Lib.Transition

/-!
# `coro_buffer` neither loses nor repeats bytes

Runs of all the operations in any order.  What they hand over, then the leftover, then the unread
data are the stream.
-/

namespace Coropp

open Loops Source Transition

inductive BufferOp where
  | getList (delim : Delim)
  | get (delim : Delim)
  | flush
  | consumeBuffer
  | readExact (nbytes : Nat)
  | readExactString (nbytes : Nat)
  | readToEof (block_size : Nat)
deriving DecidableEq, Repr

/-- What the operations return. -/
inductive Ret where
  | closed (closed : Bool)
  | size (bsize : Nat)
  | unit
deriving DecidableEq, Repr

/-- An operation that has returned: with what, and the bytes its caller got from it. -/
structure BufferCall where
  op : BufferOp
  ret : Ret
  bytes : Bytes
deriving DecidableEq, Repr

/-- The two promises about single calls. -/
def BufferCall.Honoured (call : BufferCall) : Prop :=
  match call.op with
  | .getList delim => call.ret = .closed false → delim.val <:+ call.bytes
  | .get delim => call.ret = .closed false → delim.val <:+ call.bytes
  | .readExact nbytes => call.bytes.length = nbytes
  | .readExactString nbytes => call.bytes.length = nbytes
  | _ => True

namespace BufferOp

variable {F : Type}

def exec [CoroFile F] (op : BufferOp) (fuel : Nat) (b : CoroBuffer F) :
    Option (Ended UInt8 ReadError (CoroBuffer F) Ret) :=
  match op with
  | .getList delim => (b.getList delim fuel).map (Ended.map .closed)
  | .get delim => (b.get delim fuel).map (Ended.map .closed)
  | .flush =>
    match b.flush with
    | (result, b) => some ⟨.ok .unit, [result], b⟩
  | .consumeBuffer =>
    match b.consumeBuffer with
    | (bsize, pieces, b) => some ⟨.ok (.size bsize), pieces, b⟩
  | .readExact nbytes => (b.readExact nbytes fuel).map (Ended.map fun _ => .unit)
  | .readExactString nbytes => (b.readExactString nbytes fuel).map (Ended.map fun _ => .unit)
  | .readToEof block_size => (b.readToEof block_size fuel).map (Ended.map fun _ => .unit)

/-- `read_exact` asks for no more than there is. -/
def Admitted [StreamFile F] (op : BufferOp) (b : CoroBuffer F) : Prop :=
  match op with
  | .readExact nbytes => nbytes ≤ (rest b).length
  | .readExactString nbytes => nbytes ≤ (rest b).length
  | _ => True

/-- A read of it asks for more than a vector holds. -/
def Oversized (op : BufferOp) (b : CoroBuffer F) : Prop :=
  match op with
  | .readExactString nbytes => maxSize + b.buffer.length < nbytes
  | .readToEof block_size => maxSize < block_size
  | _ => False

/-- An admitted operation that returns. -/
def step [StreamFile F] (b : CoroBuffer F) (call : BufferCall) (b' : CoroBuffer F) : Prop :=
  call.op.Admitted b ∧ ∃ r, Yields (call.op.exec · b) r ∧
    r.ret = .ok call.ret ∧ r.bytes = call.bytes ∧ r.left = b'

def delivered (calls : List BufferCall) : Bytes := (calls.map BufferCall.bytes).flatten

section Steps

variable [StreamFile F]

-- An oversized operation throws at its first read.
theorem exec_throws {op : BufferOp} {b : CoroBuffer F} (h : op.Oversized b) :
    ∃ r, Yields (op.exec · b) r ∧ r.ret = .error .lengthError := by
  cases op with
  | readExactString nbytes => exact ⟨_, (CoroBuffer.readExactString_throws h).map _, rfl⟩
  | readToEof block_size =>
    rcases CoroBuffer.readToEof_throws h b with ⟨pieces, -, hy⟩
    exact ⟨_, hy.map _, rfl⟩
  | getList delim => cases h
  | get delim => cases h
  | flush => cases h
  | consumeBuffer => cases h
  | readExact nbytes => cases h

-- Every other admitted operation ends, and cuts the bytes to come in two.
theorem exec_ends {op : BufferOp} {b : CoroBuffer F} (h : op.Admitted b) (hfits : ¬op.Oversized b) :
    ∃ cut, Ends op.exec b cut ∧ cut.taken ++ cut.rem = rest b ∧
      BufferCall.Honoured ⟨op, cut.ret, cut.taken⟩ := by
  cases op with
  | getList delim =>
    have hends := (CoroBuffer.getList_ends delim b).map Ret.closed
    exact ⟨_, hends, getCut_whole _ _ _, fun hret => getCut_delim (Ret.closed.inj hret)⟩
  | get delim =>
    have hends := (CoroBuffer.get_ends delim b).map Ret.closed
    exact ⟨_, hends, getCut_whole _ _ _, fun hret => getCut_delim (Ret.closed.inj hret)⟩
  | flush =>
    refine ⟨⟨.unit, b.buffer, rest b.file⟩, ⟨_, yields_const _, ?_⟩, rfl, trivial⟩
    exact .returned (fun hcalm => hcalm) rfl List.flatten_singleton rfl
  | consumeBuffer =>
    rcases b.consumeBuffer_eq with ⟨pieces, hconsume, hpieces⟩
    refine ⟨⟨.size b.buffer.length, b.buffer, rest b.file⟩, ?_, rfl, trivial⟩
    unfold Ends exec
    rw [hconsume]
    exact ⟨_, yields_const _, .returned (fun hcalm => hcalm) rfl hpieces rfl⟩
  | readExact nbytes =>
    have hends := (CoroBuffer.readExact_ends h).map fun _ => Ret.unit
    exact ⟨_, hends, List.take_append_drop _ _, List.length_take_of_le h⟩
  | readExactString nbytes =>
    have hends := (CoroBuffer.readExactString_ends (Nat.le_of_not_lt hfits)).map fun _ => Ret.unit
    exact ⟨_, hends, List.take_append_drop _ _, List.length_take_of_le h⟩
  | readToEof block_size =>
    have hends := (CoroBuffer.readToEof_ends (Nat.le_of_not_lt hfits) b).map fun _ => Ret.unit
    exact ⟨_, hends, CoroBuffer.toEofCut_whole _ _ _, trivial⟩

-- An admitted operation ends by returning or by throwing, the latter only where the file is not calm
-- or the operation is oversized.
theorem exec_returns {op : BufferOp} {b : CoroBuffer F} (h : op.Admitted b) :
    ∃ r, Yields (op.exec · b) r ∧
      ((∃ ret, r.ret = .ok ret ∧ step b ⟨op, ret, r.bytes⟩ r.left) ∨
        ((∃ e, r.ret = .error e) ∧ ¬ Calm b) ∨
        (r.ret = .error .lengthError ∧ op.Oversized b)) := by
  by_cases hsize : op.Oversized b
  · rcases exec_throws hsize with ⟨r, hy, hret⟩
    exact ⟨r, hy, .inr (.inr ⟨hret, hsize⟩)⟩
  · rcases exec_ends h hsize with ⟨cut, ⟨r, hy, hmeets⟩, -⟩
    refine ⟨r, hy, ?_⟩
    cases hret : r.ret with
    | ok ret => exact .inl ⟨ret, rfl, h, r, hy, hret, rfl, rfl⟩
    | error e =>
      refine .inr (.inl ⟨⟨e, rfl⟩, fun hcalm => ?_⟩)
      have hok := (hmeets.calm hcalm).2
      rw [hret] at hok
      cases hok

theorem step_cut {b b' : CoroBuffer F} {call : BufferCall} (h : step b call b') :
    call.bytes ++ rest b' = rest b ∧ call.Honoured := by
  rcases h with ⟨hadm, r, hy, hret, hbytes, hleft⟩
  have hsize : ¬call.op.Oversized b := by
    intro hsize
    rcases exec_throws hsize with ⟨r', hy', hret'⟩
    obtain rfl := hy.unique hy'
    cases hret.symm.trans hret'
  rcases exec_ends hadm hsize with ⟨cut, ⟨r', hy', hmeets⟩, hwhole, hhonoured⟩
  obtain rfl := hy.unique hy'
  rcases hmeets.ok call.ret hret with ⟨hret', htaken, hrem⟩
  rw [← hret', ← htaken, hbytes] at hhonoured
  rw [← htaken, ← hrem, hbytes, hleft] at hwhole
  exact ⟨hwhole, hhonoured⟩

-- Whatever the run, the bytes delivered and the bytes to come are those there were.
theorem runs_conserve {b₀ b : CoroBuffer F} {calls : List BufferCall}
    (run : Run step b₀ calls b) :
    delivered calls ++ rest b = rest b₀ ∧ ∀ call ∈ calls, call.Honoured := by
  induction run with
  | nil => exact ⟨rfl, fun call hcall => nomatch hcall⟩
  | snoc _ hstep ih =>
    rcases step_cut hstep with ⟨hcut, hlast⟩
    rcases ih with ⟨hdelivered, hcalls⟩
    constructor
    · rw [← hdelivered, ← hcut]
      unfold delivered
      rw [List.map_append, List.flatten_append, List.map_singleton, List.flatten_singleton,
        List.append_assoc]
    · intro call hcall
      rcases List.mem_append.mp hcall with hin | hin
      · exact hcalls call hin
      · rw [List.mem_singleton.mp hin]
        exact hlast

end Steps

/-- After every operation of a run, the bytes delivered, the leftover and the unread data are the
    stream; each call has kept its promise, and each admitted operation ends, without throwing
    unless a read throws or asks for more than a vector holds. -/
theorem bytes_conserved {stream : Bytes} {script : List Answer} {calls : List BufferCall}
    {b : CoroBuffer File} (run : Run step (.create (File.mk stream script)) calls b) :
    delivered calls ++ b.buffer ++ b.file.data = stream ∧
      (∀ call ∈ calls, call.Honoured) ∧
      ∀ op : BufferOp, op.Admitted b → ∃ r, Yields (op.exec · b) r ∧
        ((∃ ret, r.ret = .ok ret ∧ step b ⟨op, ret, r.bytes⟩ r.left) ∨
          ((∃ e, r.ret = .error e) ∧ ∃ e, .error e ∈ b.file.script) ∨
          (r.ret = .error .lengthError ∧ op.Oversized b)) := by
  rcases runs_conserve run with ⟨hdelivered, hcalls⟩
  refine ⟨?_, hcalls, fun op hop => ?_⟩
  · rw [List.append_assoc]
    exact hdelivered
  · rcases exec_returns hop with ⟨r, hy, hr⟩
    refine ⟨r, hy, hr.imp_right (Or.imp_left fun hthrew => ⟨hthrew.1, ?_⟩)⟩
    exact Classical.not_forall_not.mp hthrew.2

/-- `"a\r\nbcd"` through a `get`, a `flush` of the leftover and a `read_exact` in two reads. -/
theorem bytes_conserved_three_calls :
    ∃ b : CoroBuffer File,
      Run step
        (.create (File.mk [97, 13, 10, 98, 99, 100] [.chunk 4 (by decide), .chunk 1 (by decide)]))
        [⟨.get ⟨[13, 10], by decide⟩, .closed false, [97, 13, 10]⟩, ⟨.flush, .unit, [98]⟩,
          ⟨.readExact 2, .unit, [99, 100]⟩] b ∧
      delivered
        [⟨.get ⟨[13, 10], by decide⟩, .closed false, [97, 13, 10]⟩, ⟨.flush, .unit, [98]⟩,
          ⟨.readExact 2, .unit, [99, 100]⟩] ++ b.buffer ++ b.file.data =
        [97, 13, 10, 98, 99, 100] := by
  have hget : step
      (.create (File.mk [97, 13, 10, 98, 99, 100] [.chunk 4 (by decide), .chunk 1 (by decide)]))
      ⟨.get ⟨[13, 10], by decide⟩, .closed false, [97, 13, 10]⟩
      ⟨File.mk [99, 100] [.chunk 1 (by decide)], [98]⟩ :=
    ⟨trivial, ⟨.ok (.closed false), [[97, 13, 10]], _⟩, ⟨1, fun | k + 1, _ => rfl⟩, rfl, rfl, rfl⟩
  have hflush : step (⟨File.mk [99, 100] [.chunk 1 (by decide)], [98]⟩ : CoroBuffer File)
      ⟨.flush, .unit, [98]⟩ ⟨File.mk [99, 100] [.chunk 1 (by decide)], []⟩ :=
    ⟨trivial, ⟨.ok .unit, [[98]], _⟩, yields_const _, rfl, rfl, rfl⟩
  have hread : step (⟨File.mk [99, 100] [.chunk 1 (by decide)], []⟩ : CoroBuffer File)
      ⟨.readExact 2, .unit, [99, 100]⟩ ⟨File.mk [] [], []⟩ :=
    ⟨Nat.le_refl 2, ⟨.ok .unit, [[99], [100]], _⟩, ⟨3, fun | k + 3, _ => rfl⟩, rfl, rfl, rfl⟩
  have hrun := ((Run.nil.snoc hget).snoc hflush).snoc hread
  exact ⟨_, hrun, (bytes_conserved hrun).1⟩

end BufferOp

end Coropp
