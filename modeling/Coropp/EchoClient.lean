import Coropp.Lines
import Coropp.Write
import Mathlib.Data.List.GetD

/-!
# The client of the echo server

A client sends the same message `ntrans` times, and waits each time until as many bytes have come
back.  The last one to get there asks the server for its figures and shuts it down, and then exits.
-/

namespace Coropp

open Pieces

/-! ## The message -/

/-- `chars`: the letters and the digits. -/
def junkChars : Bytes :=
  (List.range 26).map (fun k => UInt8.ofNat (97 + k)) ++ (List.range 10).map fun k => UInt8.ofNat (48 + k)

/-- A store into an array; one outside it is undefined. -/
def store (buffer : Bytes) (i : Nat) (x : UInt8) : Option Bytes :=
  if i < buffer.length then some (buffer.set i x) else none

/-- `n` turns of a loop that stores, from index `i` on. -/
def storeLoop (x : Nat → UInt8) : Nat → Nat → Bytes → Option Bytes
  | 0, _, buffer => some buffer
  | n + 1, i, buffer => (store buffer i (x i)).bind (storeLoop x n (i + 1))

/-- `junkify_buffer (buffer, length)` on a new array of `length` bytes.  `length` and `length - l` are
    of type `size_t`; `main` passes `packet_size`, an `int`, so that the `unsigned int i` does not wrap
    where the loop stays inside the array. -/
def junkifyBuffer (length : Nat) : Option Bytes :=
  (storeLoop (fun i => junkChars.getD (i % junkChars.length) 0) (sizeSub length 2) 0
      (List.replicate length 0)).bind
    (storeLoop (fun i => [13, 10].getD (i - sizeSub length 2) 0) 2 (sizeSub length 2))

theorem storeLoop_eq {x : Nat → UInt8} {n i : Nat} {buffer : Bytes} (h : i + n ≤ buffer.length) :
    storeLoop x n i buffer =
      some (buffer.take i ++ (List.range n).map (fun k => x (i + k)) ++ buffer.drop (i + n)) := by
  induction n generalizing i buffer with
  | zero =>
    rw [List.range_zero, List.map_nil, List.append_nil, Nat.add_zero, List.take_append_drop]
    rfl
  | succ n ih =>
    have hi : i < buffer.length := by omega
    have hstore : store buffer i (x i) = some (buffer.set i (x i)) := if_pos hi
    have hlen : i + 1 + n ≤ (buffer.set i (x i)).length := by
      rw [List.length_set]
      omega
    have htake : (buffer.set i (x i)).take (i + 1) = buffer.take i ++ [x i] := by
      rw [List.set_eq_take_append_cons_drop, if_pos hi, List.take_append, List.take_take,
        Nat.min_eq_right (Nat.le_succ i), List.length_take, Nat.min_eq_left (by omega),
        Nat.add_sub_cancel_left, List.take_succ_cons, List.take_zero]
    have hdrop : (buffer.set i (x i)).drop (i + 1 + n) = buffer.drop (i + (n + 1)) := by
      rw [List.drop_set_of_lt (by omega), Nat.add_right_comm i 1 n, Nat.add_assoc]
    rw [storeLoop, hstore, Option.bind_some, ih hlen, htake, hdrop, List.range_succ_eq_map,
      List.map_cons, List.map_map, List.append_assoc (buffer.take i)]
    simp only [List.singleton_append, Nat.add_zero, Function.comp_def, Nat.add_right_comm i 1,
      Nat.add_assoc, Nat.succ_eq_add_one]

theorem storeLoop_outside {x : Nat → UInt8} {n i : Nat} {buffer : Bytes} (hi : i ≤ buffer.length)
    (h : buffer.length < i + n) : storeLoop x n i buffer = none := by
  induction n generalizing i buffer with
  | zero => omega
  | succ n ih =>
    rw [storeLoop]
    unfold store
    split
    · rw [Option.bind_some]
      apply ih
      · rw [List.length_set]
        omega
      · rw [List.length_set]
        omega
    · rfl

/-- The bytes before the CRLF. -/
def junk (length : Nat) : Bytes :=
  (List.range (length - 2)).map fun i => junkChars.getD (i % junkChars.length) 0

/-- For a length that is an `int`, as `packet_size` is, `junkify_buffer` stays inside its buffer if and
    only if this has room for a CRLF, and then makes one line of letters and digits. -/
theorem junkifyBuffer_eq {length : Nat} (hint : length < 0x80000000) :
    junkifyBuffer length = if 2 ≤ length then some (junk length ++ [13, 10]) else none := by
  unfold junkifyBuffer
  split
  · rename_i htwo
    have hfirst : 0 + (length - 2) ≤ (List.replicate length (0 : UInt8)).length := by
      rw [List.length_replicate]
      omega
    rw [sizeSub_of_le htwo, storeLoop_eq hfirst, Option.bind_some, List.take_zero, List.nil_append,
      List.drop_replicate, Nat.zero_add, Nat.sub_sub_self htwo]
    simp only [Nat.zero_add]
    have hlen : ((List.range (length - 2)).map fun k =>
        junkChars.getD (k % junkChars.length) 0).length = length - 2 := by
      rw [List.length_map, List.length_range]
    have hsecond : ((List.range (length - 2)).map (fun k =>
        junkChars.getD (k % junkChars.length) 0) ++ List.replicate 2 (0 : UInt8)).length =
          length - 2 + 2 := by
      rw [List.length_append, hlen, List.length_replicate]
    rw [storeLoop_eq hsecond.ge, List.take_left' hlen, List.drop_of_length_le hsecond.le,
      List.append_nil]
    have hend : (List.range 2).map (fun k => ([13, 10] : Bytes).getD (length - 2 + k - (length - 2)) 0) =
        [13, 10] := by
      simp only [Nat.add_sub_cancel_left]
      rfl
    rw [hend]
    rfl
  · rename_i hshort
    rw [storeLoop_outside (Nat.zero_le _) (by rw [List.length_replicate, sizeSub]; split <;> omega)]
    rfl

theorem junkifyBuffer_eq_three :
    junkifyBuffer 3 = if 2 ≤ 3 then some (junk 3 ++ [13, 10]) else none :=
  junkifyBuffer_eq (by decide)

-- It has no CR before its end, and no '!' in front.
theorem junk_mem {length : Nat} {x : UInt8} (h : x ∈ junk length) : x ≠ 13 ∧ x ≠ 33 := by
  have hchars : ∀ y ∈ junkChars, y ≠ 13 ∧ y ≠ 33 := by decide +kernel
  rcases List.mem_map.mp h with ⟨i, -, rfl⟩
  have hlt : i % junkChars.length < junkChars.length := Nat.mod_lt _ (by decide)
  rw [List.getD_eq_getElem _ 0 hlt]
  exact hchars _ (List.getElem_mem hlt)

/-! ## `client` -/

/-- What the client is started with, and the message that it has made.  The rest is up to the kernel
    and the server: the room of a connection in either direction, and the longest text of figures. -/
structure EchoArgs where
  nc : Nat
  ntrans : Nat
  packetSize : Nat
  message : Bytes
  isInt : packetSize < 0x80000000
  made : junkifyBuffer packetSize = some message
  roomUp : Nat
  roomDown : Nat
  figures : Nat

/-- `"!bench\r\n"`. -/
def benchLine : Bytes := [33, 98, 101, 110, 99, 104, 13, 10]

/-- `"!shutdown\r\n"`. -/
def shutdownLine : Bytes := [33, 115, 104, 117, 116, 100, 111, 119, 110, 13, 10]

/-- `"!quit\r\n"`. -/
def quitLine : Bytes := [33, 113, 117, 105, 116, 13, 10]

/-- What a client is about: its transactions, the figures, or its last line. -/
inductive ClientStage where
  | packet
  | bench
  | bye
deriving DecidableEq, Repr

/-- Where a client is: in `connect`, `write` or a `read` of at most `count` bytes; or it is over, having
    returned, caught "client closed unexpectedly", or been left by an `OS_Error`. -/
inductive ClientPc where
  | connecting
  | writing (stage : ClientStage) (c : WriteCall)
  | reading (stage : ClientStage) (count : Nat)
  | returned
  | gaveUp
  | threw (e : OSError)

/-- `finished` and `heard` are history variables: whether it has counted itself down, and all that it
    has read. -/
structure EchoClient where
  fd : Fd
  pc : ClientPc := .connecting
  i : Nat := 0
  last : Bool := false
  finished : Bool := false
  heard : Bytes := []

namespace EchoClient

def startWrite (cl : EchoClient) (stage : ClientStage) (data : Bytes) : EchoClient :=
  { cl with pc := .writing stage (.start cl.fd data) }

def sayBye (cl : EchoClient) : EchoClient :=
  cl.startWrite .bye (if cl.last then shutdownLine else quitLine)

/-- The head of the loop, and after it the line on which the client counts itself down. -/
def nextPacket (args : EchoArgs) (cl : EchoClient) (counter : Int) : EchoClient × Int :=
  if cl.i < args.ntrans then (cl.startWrite .packet args.message, counter)
  else
    -- counter--; if (counter) last = 0; else last = 1;
    let counter := counter - 1
    let cl := { cl with finished := true, last := counter = 0 }
    (if cl.last then cl.startWrite .bench benchLine else cl.sayBye, counter)

/-- How much the `read` of each stage asks for. -/
def readSize (args : EchoArgs) : ClientStage → Nat
  | .packet => args.packetSize
  | .bench => 1024
  | .bye => max args.packetSize 4096

/-- `::write` takes `n` bytes. -/
def wrote (args : EchoArgs) (cl : EchoClient) (stage : ClientStage) (c : WriteCall) (n : Nat)
    (pos : 0 < n) : EchoClient :=
  let c' := c.answered (.accepted n pos)
  { cl with
    pc := if c'.pc = .returned then .reading stage (readSize args stage) else .writing stage c' }

/-- `read` returns `data`. -/
def gotData (args : EchoArgs) (cl : EchoClient) (stage : ClientStage) (count : Nat) (data : Bytes)
    (counter : Int) : EchoClient × Int :=
  let cl := { cl with heard := cl.heard ++ data }
  match stage with
  | .packet =>
    let count := count - data.length
    if count = 0 then nextPacket args { cl with i := cl.i + 1 } counter
    else ({ cl with pc := .reading .packet count }, counter)
  | .bench => (cl.sayBye, counter)
  | .bye => ({ cl with pc := .returned }, counter)

/-- `read` returns 0. -/
def gotEof (cl : EchoClient) : ClientStage → EchoClient
  | .packet => { cl with pc := .gaveUp }
  | .bench => cl.sayBye
  | .bye => { cl with pc := .returned }

/-- It has closed its descriptor; an `OS_Error` passes by the `delete s`. -/
def isClosed (cl : EchoClient) : Bool :=
  match cl.pc with
  | .returned | .gaveUp => true
  | _ => false

end EchoClient

/-! ## What the message is -/

namespace EchoArgs

variable (args : EchoArgs)

theorem message_eq : 2 ≤ args.packetSize ∧ args.message = junk args.packetSize ++ [13, 10] := by
  have hmade := args.made
  rw [junkifyBuffer_eq args.isInt] at hmade
  split at hmade
  · rename_i htwo
    exact ⟨htwo, (Option.some.inj hmade).symm⟩
  · cases hmade

theorem message_length : args.message.length = args.packetSize := by
  rcases args.message_eq with ⟨htwo, hmessage⟩
  rw [hmessage, List.length_append, junk, List.length_map, List.length_range]
  show args.packetSize - 2 + 2 = args.packetSize
  omega

theorem message_ne_nil : args.message ≠ [] := by
  rw [args.message_eq.2]
  exact List.append_ne_nil_of_right_ne_nil _ (List.cons_ne_nil _ _)

/-- One line, and one that is echoed. -/
theorem message_piece : IsPiece crlf.cutter args.message := by
  rw [args.message_eq.2]
  exact isPiece_line fun hmem => (junk_mem hmem).1 rfl

theorem message_first : args.message[0]? ≠ some 33 := by
  rw [args.message_eq.2]
  cases hjunk : junk args.packetSize with
  | nil => decide
  | cons x xs =>
    have hx : x ∈ junk args.packetSize := hjunk ▸ .head _
    intro hfirst
    exact (junk_mem hx).2 (Option.some.inj hfirst)

end EchoArgs

end Coropp
