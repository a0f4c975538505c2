import Coropp.Lib.Source

/-!
# `coro_file`: reading

The reads of a descriptor, and the `read_exact` overloads on top of the virtual `read`.  A script
says how `::read` cuts the stream and when it fails.
-/

namespace Coropp

open Loops Source

abbrev Bytes := List UInt8

abbrev Errno := Int

/-- `EWOULDBLOCK`. -/
def ewouldblock : Errno := 11

/-- What a call of `::read` answers; of a chunk it takes what was asked for and is there. -/
inductive Answer where
  | chunk (n : Nat) (pos : 0 < n)
  | wouldBlock
  | error (e : Errno)
deriving DecidableEq, Repr

/-- A descriptor: the bytes not yet read, and the answers to come.  After the last of them a read
    gets all it asks for. -/
structure File where
  data : Bytes
  script : List Answer := []
deriving DecidableEq, Repr

/-- The virtual `read (void *, size_t)` of the file classes; it throws `OS_Error ("read", errno)`. -/
class CoroFile (F : Type) where
  read : F → Nat → Except Errno Bytes × F

/-- No vector and no string is longer; memory for all the others is taken to be there. -/
def maxSize : Nat := 0x7fffffffffffffff

/-- What a read into a string throws. -/
inductive ReadError where
  | osError (e : Errno)
  /-- `std::length_error`. -/
  | lengthError
deriving DecidableEq, Repr

/-- The kernel hands out no more than this at once. -/
def maxRw : Nat := 0x7ffff000

/-- `a -= b` on `size_t`. -/
def sizeSub (a b : Nat) : Nat := if b ≤ a then a - b else a + 0x10000000000000000 - b

theorem sizeSub_of_le {a b : Nat} (h : b ≤ a) : sizeSub a b = a - b := by
  rw [sizeSub, if_pos h]

namespace File

/-- The loop of `read`, one answer a round. -/
def readLoop (length : Nat) (data : Bytes) : List Answer → Except Errno Bytes × File
  | [] => (.ok (data.take (min length maxRw)), ⟨data.drop (min length maxRw), []⟩)
  | .chunk n _ :: script =>
    (.ok (data.take (min n (min length maxRw))), ⟨data.drop (min n (min length maxRw)), script⟩)
  -- `wait_for_read`, and around again
  | .wouldBlock :: script => readLoop length data script
  | .error e :: script => (.error e, ⟨data, script⟩)

instance : CoroFile File where
  read f length := readLoop length f.data f.script

end File

/-! ## The overloads -/

namespace CoroFile

variable {F : Type} [CoroFile F]

/-- `read (std::string &)`: `s` and the count `n`, which is its size. -/
def readString (f : F) (length : Nat) : Except ReadError Bytes × F :=
  -- buffer.resize (length)
  if maxSize < length then (.error .lengthError, f)
  else
    match read f length with
    | (.error e, f) => (.error (.osError e), f)
    | (.ok s, f) => (.ok s, f)

/-- The locals of a `read_exact` loop, with what has been handed over. -/
structure Exact (F : Type) where
  nbytes : Nat
  pieces : List Bytes
  file : F

/-- `while (nbytes) { nbytes -= read (s, std::min (nbytes, block_size)); c (s); }` -/
def readExactBody (block_size : UInt32) (st : Exact F) :
    Exact F ⊕ Ended UInt8 ReadError F Unit :=
  if st.nbytes = 0 then .inr ⟨.ok (), st.pieces, st.file⟩
  else
    match readString st.file (min st.nbytes block_size.toNat) with
    | (.error e, f) => .inr ⟨.error e, st.pieces, f⟩
    | (.ok s, f) => .inl ⟨sizeSub st.nbytes s.length, st.pieces ++ [s], f⟩

/-- The consumer form. -/
def readExact (fuel nbytes : Nat) (block_size : UInt32) (f : F) :
    Option (Ended UInt8 ReadError F Unit) :=
  run (readExactBody block_size) fuel ⟨nbytes, [], f⟩

/-- The list form: `dst.push_back (s)` stands where the other one has `c (s)`. -/
def readExactList (fuel nbytes : Nat) (block_size : UInt32) (f : F) :
    Option (Ended UInt8 ReadError F Unit) :=
  readExact fuel nbytes block_size f

def readExactStringBody (st : Exact F) : Exact F ⊕ Ended UInt8 ReadError F Unit :=
  if st.nbytes = 0 then .inr ⟨.ok (), st.pieces, st.file⟩
  else
    match readString st.file st.nbytes with
    | (.error e, f) => .inr ⟨.error e, st.pieces, f⟩
    | (.ok buf, f) =>
      if buf.length = 0 then .inr ⟨.ok (), st.pieces, f⟩
      else .inl ⟨sizeSub st.nbytes buf.length, st.pieces ++ [buf], f⟩

/-- The string form: the pieces are what it appends to `dst`. -/
def readExactString (fuel nbytes : Nat) (f : F) : Option (Ended UInt8 ReadError F Unit) :=
  run readExactStringBody fuel ⟨nbytes, [], f⟩

section

variable {f f' : F} {length : Nat}

theorem readString_of_gt (h : maxSize < length) : readString f length = (.error .lengthError, f) :=
  if_pos h

-- What a read into a string returns has been read.
theorem read_of_readString {s : Bytes} (h : readString f length = (.ok s, f')) :
    read f length = (.ok s, f') := by
  unfold readString at h
  split at h
  · cases (Prod.mk.inj h).1
  · split at h
    · cases (Prod.mk.inj h).1
    · rename_i s' f'' hread
      obtain ⟨hs, rfl⟩ := Prod.mk.inj h
      rw [hread, Except.ok.inj hs]

-- Where a vector holds what is asked for, it throws only with the read.
theorem read_of_readString_error {e : ReadError} (hle : length ≤ maxSize)
    (h : readString f length = (.error e, f')) :
    ∃ errno, e = .osError errno ∧ read f length = (.error errno, f') := by
  unfold readString at h
  rw [if_neg (Nat.not_lt.mpr hle)] at h
  split at h
  · rename_i errno f'' hread
    obtain ⟨he, rfl⟩ := Prod.mk.inj h
    exact ⟨errno, (Except.error.inj he).symm, hread⟩
  · cases (Prod.mk.inj h).1

theorem block_size_le (nbytes : Nat) (block_size : UInt32) :
    min nbytes block_size.toNat ≤ maxSize := by
  have hlt := block_size.toNat_lt
  unfold maxSize
  omega

end

end CoroFile

/-! ## Files that cut a stream -/

/-- Reads take bytes off the front of the stream, at most as many as asked for, and none only
    where none are asked for or left; a read that throws takes none. -/
class StreamFile (F : Type) extends CoroFile F, Source UInt8 F where
  read_ok : ∀ {f f' : F} {n : Nat} {s : Bytes}, CoroFile.read f n = (.ok s, f') →
    rest f = s ++ rest f' ∧ s.length ≤ n ∧ (s = [] → n = 0 ∨ rest f = []) ∧ (Calm f → Calm f')
  read_error : ∀ {f f' : F} {n : Nat} {e : Errno}, CoroFile.read f n = (.error e, f') →
    rest f' = rest f ∧ ¬ Calm f

namespace CoroFile

variable {F : Type} [StreamFile F]

theorem readString_ok {f f' : F} {n : Nat} {s : Bytes} (h : readString f n = (.ok s, f')) :
    rest f = s ++ rest f' ∧ s.length ≤ n ∧ (s = [] → n = 0 ∨ rest f = []) ∧ (Calm f → Calm f') :=
  StreamFile.read_ok (read_of_readString h)

theorem readString_error {f f' : F} {n : Nat} {e : ReadError} (hle : n ≤ maxSize)
    (h : readString f n = (.error e, f')) : rest f' = rest f ∧ ¬ Calm f := by
  rcases read_of_readString_error hle h with ⟨errno, -, hread⟩
  exact StreamFile.read_error hread

/-- What is left to do takes the next `nbytes` of the stream, or all there are. -/
def Exact.cut (st : Exact F) : Cut UInt8 Unit :=
  ⟨(), st.pieces.flatten ++ (rest st.file).take st.nbytes, (rest st.file).drop st.nbytes⟩

-- One read moves bytes from what is left to do to what is done.
theorem Exact.cut_read {st : Exact F} {m : Nat} {s : Bytes} {f : F}
    (h : readString st.file m = (.ok s, f)) (hm : m ≤ st.nbytes) :
    Exact.cut ⟨sizeSub st.nbytes s.length, st.pieces ++ [s], f⟩ = st.cut := by
  rcases readString_ok h with ⟨hrest, hlen, -, -⟩
  have hle : s.length ≤ st.nbytes := by omega
  unfold Exact.cut
  rw [hrest, sizeSub_of_le hle, List.take_append, List.drop_append, List.take_of_length_le hle,
    List.drop_of_length_le hle, List.flatten_append, List.flatten_singleton, List.append_assoc,
    List.nil_append]

theorem Exact.meets_zero {st : Exact F} (h : st.nbytes = 0) :
    Meets st.file (⟨.ok (), st.pieces, st.file⟩ : Ended UInt8 ReadError F Unit) st.cut := by
  refine Meets.returned id rfl ?_ ?_
  · rw [Exact.cut, h, List.take_zero, List.append_nil]
  · rw [Exact.cut, h, List.drop_zero]

-- The string form takes the next `nbytes`, or what is left of the stream.
theorem readExactString_ends {nbytes : Nat} (hle : nbytes ≤ maxSize) (f : F) :
    Ends (readExactString · nbytes) f ⟨(), (rest f).take nbytes, (rest f).drop nbytes⟩ := by
  refine ends_of_variant (I := fun st : Exact F => st.nbytes ≤ maxSize)
    (P := fun (st : Exact F) r => Meets st.file r st.cut) (fun st => st.nbytes) (fun st hst => ?_) hle
  unfold readExactStringBody
  by_cases hzero : st.nbytes = 0
  · rw [if_pos hzero]
    exact .inl ⟨_, rfl, Exact.meets_zero hzero⟩
  · rw [if_neg hzero]
    cases hread : readString st.file st.nbytes with
    | mk ret f' =>
      cases ret with
      | error e => exact .inl ⟨_, rfl, .threw (readString_error hst hread).2⟩
      | ok buf =>
        rcases readString_ok hread with ⟨hrest, hlen, hempty, hcalm⟩
        have hcut := Exact.cut_read hread (Nat.le_refl _)
        dsimp only
        by_cases heof : buf.length = 0
        · -- at end of file nothing is left to take
          rw [if_pos heof]
          have hbuf : buf = [] := List.eq_nil_of_length_eq_zero heof
          have hnil : rest st.file = [] := (hempty hbuf).resolve_left hzero
          have hnil' : rest f' = [] := by
            rw [hnil, hbuf] at hrest
            exact hrest.symm
          refine .inl ⟨_, rfl, .returned hcalm rfl ?_ ?_⟩
          · rw [Exact.cut, hnil, List.take_nil, List.append_nil]
          · rw [Exact.cut, hnil, hnil', List.drop_nil]
        · rw [if_neg heof]
          have hnext : sizeSub st.nbytes buf.length = st.nbytes - buf.length := sizeSub_of_le hlen
          refine .inr ⟨_, rfl, ?_, ?_, fun r hr => ?_⟩
          · dsimp only
            omega
          · dsimp only
            omega
          · rw [hcut] at hr
            exact hr.back hcalm

-- A read of more than a vector holds throws before any byte is read.
theorem readExactString_throws {nbytes : Nat} (hgt : maxSize < nbytes) (f : F) :
    Yields (readExactString · nbytes f) ⟨.error .lengthError, [], f⟩ := by
  have hpos : ¬nbytes = 0 := by omega
  have hbody : readExactStringBody ⟨nbytes, [], f⟩ = .inr ⟨.error .lengthError, [], f⟩ := by
    unfold readExactStringBody
    rw [if_neg hpos, readString_of_gt hgt]
  exact yields_of_run (run_succ_inr hbody 0)

-- The consumer form does so too where the stream holds as much.
theorem readExact_ends {nbytes : Nat} {block_size : UInt32} {f : F} (hblock : 0 < block_size)
    (hle : nbytes ≤ (rest f).length) :
    Ends (readExact · nbytes block_size) f ⟨(), (rest f).take nbytes, (rest f).drop nbytes⟩ := by
  refine ends_of_variant (I := fun st : Exact F => st.nbytes ≤ (rest st.file).length)
    (P := fun (st : Exact F) r => Meets st.file r st.cut) (fun st => st.nbytes) (fun st hst => ?_) hle
  unfold readExactBody
  by_cases hzero : st.nbytes = 0
  · rw [if_pos hzero]
    exact .inl ⟨_, rfl, Exact.meets_zero hzero⟩
  · rw [if_neg hzero]
    cases hread : readString st.file (min st.nbytes block_size.toNat) with
    | mk ret f' =>
      cases ret with
      | error e => exact .inl ⟨_, rfl, .threw (readString_error (block_size_le _ _) hread).2⟩
      | ok s =>
        rcases readString_ok hread with ⟨hrest, hlen, hempty, hcalm⟩
        have hcut := Exact.cut_read hread (Nat.min_le_left _ _)
        have hpos : s.length ≠ 0 := by
          intro hs
          rcases hempty (List.eq_nil_of_length_eq_zero hs) with hmin | hnil
          · have hpos : 0 < block_size.toNat := hblock
            omega
          · rw [hnil, List.length_nil] at hst
            omega
        have htotal := congrArg List.length hrest
        rw [List.length_append] at htotal
        have hnext : sizeSub st.nbytes s.length = st.nbytes - s.length :=
          sizeSub_of_le (by omega)
        refine .inr ⟨_, rfl, ?_, ?_, fun r hr => ?_⟩
        · dsimp only
          omega
        · dsimp only
          omega
        · rw [hcut] at hr
          exact hr.back hcalm

end CoroFile

namespace File

instance : Source UInt8 File where
  rest f := f.data
  Calm f := ∀ e, .error e ∉ f.script

theorem rest_eq (f : File) : rest f = f.data := rfl

-- A successful answer is a first part of the data, of no more than the kernel's bound, and the
-- answers left are some of those there were.
theorem readLoop_ok {length : Nat} {data s : Bytes} {script : List Answer} {f : File}
    (h : readLoop length data script = (.ok s, f)) :
    ∃ k, k ≤ min length maxRw ∧ s = data.take k ∧ f.data = data.drop k ∧ (k = 0 → length = 0) ∧
      f.script ⊆ script := by
  induction script with
  | nil =>
    rcases Prod.mk.inj h with ⟨hs, rfl⟩
    obtain rfl := Except.ok.inj hs
    refine ⟨min length maxRw, Nat.le_refl _, rfl, rfl, fun hk => ?_, List.Subset.refl _⟩
    unfold maxRw at hk
    omega
  | cons a script ih =>
    cases a with
    | chunk n pos =>
      rcases Prod.mk.inj h with ⟨hs, rfl⟩
      obtain rfl := Except.ok.inj hs
      refine ⟨min n (min length maxRw), Nat.min_le_right _ _, rfl, rfl, fun hk => ?_,
        List.subset_cons_self _ _⟩
      unfold maxRw at hk
      omega
    | wouldBlock =>
      rcases ih h with ⟨k, hk, hs, hdata, hzero, hsub⟩
      exact ⟨k, hk, hs, hdata, hzero, List.subset_cons_of_subset _ hsub⟩
    | error e => cases (Prod.mk.inj h).1

theorem readLoop_error {length : Nat} {data : Bytes} {script : List Answer} {f : File} {e : Errno}
    (h : readLoop length data script = (.error e, f)) : f.data = data ∧ .error e ∈ script := by
  induction script with
  | nil => cases (Prod.mk.inj h).1
  | cons a script ih =>
    cases a with
    | chunk n pos => cases (Prod.mk.inj h).1
    | wouldBlock =>
      rcases ih h with ⟨hdata, hmem⟩
      exact ⟨hdata, List.mem_cons_of_mem _ hmem⟩
    | error e' =>
      rcases Prod.mk.inj h with ⟨he, rfl⟩
      obtain rfl := Except.error.inj he
      exact ⟨rfl, List.mem_cons_self⟩

instance : StreamFile File where
  read_ok {f f' n s} h := by
    rcases readLoop_ok h with ⟨k, hk, hs, hdata, hzero, hsub⟩
    have hlen : s.length ≤ k := by
      rw [hs]
      exact List.length_take_le _ _
    refine ⟨?_, by omega, fun hnil => ?_, fun hcalm e hmem => hcalm e (hsub hmem)⟩
    · rw [rest_eq, rest_eq, hs, hdata, List.take_append_drop]
    · rw [hs, List.take_eq_nil_iff] at hnil
      exact hnil.imp hzero id
  read_error {f f' n e} h := by
    rcases readLoop_error h with ⟨hdata, hmem⟩
    exact ⟨hdata, fun hcalm => hcalm e hmem⟩

-- `int n` holds the count of every read.
theorem read_length_lt {f f' : File} {n : Nat} {s : Bytes}
    (h : CoroFile.readString f n = (.ok s, f')) : s.length < 0x80000000 := by
  rcases readLoop_ok (CoroFile.read_of_readString h) with ⟨k, hk, hs, -⟩
  have hlen : s.length ≤ k := by
    rw [hs]
    exact List.length_take_le _ _
  unfold maxRw at hk
  omega

end File

end Coropp
