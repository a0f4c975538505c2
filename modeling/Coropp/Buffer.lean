import Coropp.File

/-!
# `coro_buffer`

The leftover of earlier reads in front of a file.  Each operation below is given with the pieces it
hands to its caller, and cuts what is left over and still to be read.
-/

namespace Coropp

open Loops Source

/-- A delimiter; an empty one is not a delimiter, `get` would index past its end. -/
abbrev Delim := {delim : Bytes // 0 < delim.length}

/-- `matched = 0`. -/
def Delim.start (delim : Delim) : Fin delim.val.length := ⟨0, delim.property⟩

def stringJoin (result : Bytes) (sl : List Bytes) : Bytes := sl.foldl (· ++ ·) result

structure CoroBuffer (F : Type) where
  file : F
  buffer : Bytes := []
deriving DecidableEq, Repr

/-- How the scan of `_buffer` ends: the delimiter complete at index `i`, or the number of its bytes
    matched at the end. -/
inductive Scan (size : Nat) where
  | found (i : Nat)
  | passed (matched : Fin size)
deriving DecidableEq, Repr

/-- The `for` loop of `get` from index `i` on. -/
def scan (delim : Bytes) (matched : Fin delim.length) (i : Nat) : Bytes → Scan delim.length
  | [] => .passed matched
  | x :: buffer =>
    if x = delim[matched] then
      if h : matched + 1 < delim.length then scan delim ⟨matched + 1, h⟩ (i + 1) buffer
      else .found i
    else scan delim ⟨0, matched.pos⟩ (i + 1) buffer

namespace CoroBuffer

variable {F : Type}

/-- The constructor. -/
def create (f : F) : CoroBuffer F := { file := f }

section Operations

variable [CoroFile F]

/-- `(_buffer.size() == 0) && (_f->read (_buffer) == 0)`. -/
def fill (b : CoroBuffer F) : Except ReadError Bool × CoroBuffer F :=
  if b.buffer.length = 0 then
    match CoroFile.readString b.file 8192 with
    | (.error e, f) => (.error e, { b with file := f })
    | (.ok s, f) => (.ok (s.length = 0), ⟨f, s⟩)
  else (.ok false, b)

/-- The locals of `get`. -/
structure Getting (F : Type) (size : Nat) where
  matched : Fin size
  sl : List Bytes
  b : CoroBuffer F

def getBody (delim : Bytes) (st : Getting F delim.length) :
    Getting F delim.length ⊕ Ended UInt8 ReadError (CoroBuffer F) Bool :=
  match st.b.fill with
  | (.error e, b) => .inr ⟨.error e, st.sl, b⟩
  | (.ok true, b) => .inr ⟨.ok true, st.sl, b⟩
  | (.ok false, b) =>
    match scan delim st.matched 0 b.buffer with
    | .found i =>
      .inr ⟨.ok false, st.sl ++ [b.buffer.take (i + 1)], { b with buffer := b.buffer.drop (i + 1) }⟩
    | .passed matched => .inl ⟨matched, st.sl ++ [b.buffer], { b with buffer := [] }⟩

/-- `get (string_list &, delim)`: the pieces are what it appends to `sl`. -/
def getList (delim : Delim) (fuel : Nat) (b : CoroBuffer F) :
    Option (Ended UInt8 ReadError (CoroBuffer F) Bool) :=
  run (getBody delim.val) fuel ⟨Delim.start delim, [], b⟩

/-- `get (std::string &, delim)`: the pieces join into `s`.  Where a read throws they are lost with
    the local list. -/
def get (delim : Delim) (fuel : Nat) (b : CoroBuffer F) :
    Option (Ended UInt8 ReadError (CoroBuffer F) Bool) :=
  (b.getList delim fuel).map fun r =>
    match r.ret with
    | .ok closed => ⟨.ok closed, [stringJoin [] r.pieces], r.left⟩
    | .error e => ⟨.error e, [], r.left⟩

def flush (b : CoroBuffer F) : Bytes × CoroBuffer F :=
  (b.buffer, { b with buffer := [] })

/-- `consume_buffer`: the count it returns, and what the consumer is called with. -/
def consumeBuffer (b : CoroBuffer F) : Nat × List Bytes × CoroBuffer F :=
  let bsize := b.buffer.length
  if bsize > 0 then (bsize, [b.buffer], { b with buffer := [] })
  else (bsize, [], b)

/-- `read_exact` with a consumer. -/
def readExact (nbytes fuel : Nat) (b : CoroBuffer F) :
    Option (Ended UInt8 ReadError (CoroBuffer F) Unit) :=
  let bsize := b.buffer.length
  if bsize > nbytes then
    some ⟨.ok (), [b.buffer.take nbytes], { b with buffer := b.buffer.drop nbytes }⟩
  else if bsize = nbytes then some ⟨.ok (), [b.buffer], { b with buffer := [] }⟩
  else
    match b.consumeBuffer with
    | (n, pieces, b) =>
      (CoroFile.readExact fuel (sizeSub nbytes n) 8000 b.file).map
        (Ended.after pieces fun f => { b with file := f })

/-- `read_exact` into a string: the pieces are what it appends to `s`. -/
def readExactString (nbytes fuel : Nat) (b : CoroBuffer F) :
    Option (Ended UInt8 ReadError (CoroBuffer F) Unit) :=
  let bsize := b.buffer.length
  if bsize > nbytes then
    some ⟨.ok (), [b.buffer.take nbytes], { b with buffer := b.buffer.drop nbytes }⟩
  else if bsize = nbytes then some ⟨.ok (), [b.buffer], { b with buffer := [] }⟩
  else
    (CoroFile.readExactString fuel (sizeSub nbytes bsize) b.file).map
      (Ended.after [b.buffer] fun f => { b with file := f, buffer := [] })

/-- `while (_f->read (block, block_size) > 0) c (block);` -/
def readToEofBody (block_size : Nat) (st : List Bytes × F) :
    (List Bytes × F) ⊕ Ended UInt8 ReadError F Unit :=
  match CoroFile.readString st.2 block_size with
  | (.error e, f) => .inr ⟨.error e, st.1, f⟩
  | (.ok block, f) =>
    if block.length > 0 then .inl (st.1 ++ [block], f)
    else .inr ⟨.ok (), st.1, f⟩

def readToEof (block_size fuel : Nat) (b : CoroBuffer F) :
    Option (Ended UInt8 ReadError (CoroBuffer F) Unit) :=
  match b.consumeBuffer with
  | (_, pieces, b) =>
    (run (readToEofBody block_size) fuel ([], b.file)).map
      (Ended.after pieces fun f => { b with file := f })

end Operations

end CoroBuffer

/-! ## The scan -/

def Scan.shift {size : Nat} (k : Nat) : Scan size → Scan size
  | .found i => .found (i + k)
  | .passed matched => .passed matched

theorem scan_cons (delim : Bytes) (matched : Fin delim.length) (i : Nat) (x : UInt8) (xs : Bytes) :
    scan delim matched i (x :: xs) =
      if x = delim[matched] then
        if h : matched + 1 < delim.length then scan delim ⟨matched + 1, h⟩ (i + 1) xs
        else .found i
      else scan delim ⟨0, matched.pos⟩ (i + 1) xs := rfl

theorem scan_shift (delim : Bytes) (matched : Fin delim.length) (i k : Nat) (xs : Bytes) :
    scan delim matched (i + k) xs = (scan delim matched i xs).shift k := by
  induction xs generalizing matched i with
  | nil => rfl
  | cons x xs ih =>
    have hnext : i + k + 1 = i + 1 + k := by omega
    rw [scan_cons, scan_cons, hnext]
    split
    · split
      · exact ih _ (i + 1)
      · rfl
    · exact ih _ (i + 1)

/-- Go on where the delimiter has not been found. -/
def Scan.goOn {size : Nat} (next : Fin size → Scan size) : Scan size → Scan size
  | .found i => .found i
  | .passed matched => next matched

-- A scan can be interrupted anywhere: it goes on with the count it has.
theorem scan_append (delim : Bytes) (matched : Fin delim.length) (i : Nat) (xs ys : Bytes) :
    scan delim matched i (xs ++ ys) =
      (scan delim matched i xs).goOn fun matched => scan delim matched (i + xs.length) ys := by
  induction xs generalizing matched i with
  | nil => rfl
  | cons x xs ih =>
    have hlen : i + (x :: xs).length = i + 1 + xs.length := by
      rw [List.length_cons]
      omega
    rw [hlen, List.cons_append, scan_cons, scan_cons]
    split
    · split
      · exact ih _ (i + 1)
      · rfl
    · exact ih _ (i + 1)

/-! ## Attempts -/

/-- Bytes over which a scan makes nothing but failed attempts: each takes in a first part of the
    delimiter and the byte that does not continue it, and leaves no byte for another attempt. -/
inductive Attempts (delim : Bytes) : Bytes → Prop
  | nil : Attempts delim []
  | fail {k : Fin delim.length} {x : UInt8} {xs : Bytes} (hx : x ≠ delim[k])
      (h : Attempts delim xs) : Attempts delim (delim.take k ++ x :: xs)

theorem scan_match {delim : Bytes} {m : Nat} (hmore : m + 1 < delim.length) (i : Nat) (xs : Bytes) :
    scan delim ⟨m, by omega⟩ i (delim[m] :: xs) = scan delim ⟨m + 1, hmore⟩ (i + 1) xs := by
  rw [scan_cons, if_pos (by rfl), dif_pos hmore]

-- The next `n` bytes are those of the delimiter, and not yet its last one.
theorem scan_continue {delim : Bytes} (n : Nat) {m : Nat} (hlt : m + n < delim.length) (i : Nat)
    (ys : Bytes) :
    scan delim ⟨m, by omega⟩ i ((delim.drop m).take n ++ ys) = scan delim ⟨m + n, hlt⟩ (i + n) ys := by
  induction n generalizing m i with
  | zero => rfl
  | succ n ih =>
    have hmore : m + 1 < delim.length := by omega
    have hnext : m + 1 + n = m + (n + 1) := by omega
    have hindex : i + 1 + n = i + (n + 1) := by omega
    rw [List.drop_eq_getElem_cons (by omega : m < delim.length), List.take_succ_cons,
      List.cons_append, scan_match hmore, ih (by omega) (i + 1)]
    simp only [hnext, hindex]

theorem scan_take {delim : Bytes} (k : Fin delim.length) (i : Nat) (ys : Bytes) :
    scan delim ⟨0, k.pos⟩ i (delim.take k ++ ys) = scan delim k (i + k) ys := by
  have hk : 0 + k.val < delim.length := by omega
  have h := scan_continue k.val hk i ys
  rw [List.drop_zero] at h
  rw [h]
  congr 1
  exact Fin.ext (Nat.zero_add _)

theorem scan_attempts {delim front : Bytes} (h : Attempts delim front) (hpos : 0 < delim.length)
    (i : Nat) (ys : Bytes) :
    scan delim ⟨0, hpos⟩ i (front ++ ys) = scan delim ⟨0, hpos⟩ (i + front.length) ys := by
  induction h generalizing i with
  | nil => rfl
  | @fail k x xs hx h ih =>
    have hlen : i + (delim.take k ++ x :: xs).length = i + k + 1 + xs.length := by
      rw [List.length_append, List.length_take, List.length_cons]
      omega
    rw [List.append_assoc, scan_take, List.cons_append, scan_cons, if_neg hx, ih, hlen]

theorem scan_delim {delim : Bytes} (hpos : 0 < delim.length) (i : Nat) (ys : Bytes) :
    scan delim ⟨0, hpos⟩ i (delim ++ ys) = .found (i + (delim.length - 1)) := by
  have hlt : delim.length - 1 < delim.length := by omega
  have hlast : delim = delim.take (delim.length - 1) ++ [delim[delim.length - 1]] := by
    rw [← List.take_succ_eq_append_getElem hlt, List.take_of_length_le (by omega)]
  have hscan := scan_take ⟨delim.length - 1, hlt⟩ i (delim[delim.length - 1] :: ys)
  rw [← List.singleton_append, ← List.append_assoc, ← hlast] at hscan
  rw [hscan, List.singleton_append, scan_cons, if_pos (by rfl), dif_neg (by dsimp only; omega)]

-- What a scan finds comes after failed attempts, the first of which may have begun before.
theorem attempts_of_found {delim xs : Bytes} {matched : Fin delim.length} {i j : Nat}
    (h : scan delim matched i xs = .found j) :
    ∃ k front, j = i + k ∧ k < xs.length ∧ Attempts delim front ∧
      delim.take matched ++ xs.take (k + 1) = front ++ delim := by
  induction xs generalizing matched i with
  | nil => cases h
  | cons x xs ih =>
    rw [scan_cons] at h
    split at h
    · rename_i hx
      have hmore : delim.take matched ++ [x] = delim.take (matched + 1) := by
        rw [hx, List.take_succ_eq_append_getElem matched.isLt]
        rfl
      split at h
      · rename_i hm
        rcases ih h with ⟨k, front, hj, hk, hfront, hends⟩
        refine ⟨k + 1, front, by omega, by simpa using hk, hfront, ?_⟩
        rw [List.take_succ_cons, ← List.singleton_append, ← List.append_assoc, hmore]
        exact hends
      · rename_i hm
        obtain rfl := Scan.found.inj h
        refine ⟨0, [], rfl, by simp, .nil, ?_⟩
        rw [List.take_succ_cons, List.take_zero, hmore, List.nil_append]
        exact List.take_of_length_le (by omega)
    · rename_i hx
      rcases ih h with ⟨k, front, hj, hk, hfront, hends⟩
      refine ⟨k + 1, _, by omega, by simpa using hk, .fail hx hfront, ?_⟩
      rw [List.append_assoc, List.cons_append, ← hends]
      rfl

-- A delimiter is found at an index of the scanned bytes, and ends there: `pre` ends with the part
-- of it that has been matched before.
theorem scan_found {delim xs pre : Bytes} {matched : Fin delim.length} {i j : Nat}
    (h : scan delim matched i xs = .found j) (hpre : delim.take matched <:+ pre) :
    ∃ k, j = i + k ∧ k < xs.length ∧ delim <:+ pre ++ xs.take (k + 1) := by
  rcases attempts_of_found h with ⟨k, front, hj, hk, -, hends⟩
  rcases hpre with ⟨before, hbefore⟩
  refine ⟨k, hj, hk, before ++ front, ?_⟩
  rw [← hbefore, List.append_assoc, List.append_assoc, hends]

end Coropp
