import Coropp.Buffer

/-!
# What the operations of `coro_buffer` take

Over any file that cuts a stream: an operation takes bytes off the front of the leftover followed by
the stream, and where it stops depends on these bytes alone.
-/

namespace Coropp

open Loops Source

/-- What `get` makes of the bytes to come, with `matched` bytes of the delimiter seen. -/
def getCut (delim : Bytes) (matched : Fin delim.length) (xs : Bytes) : Cut UInt8 Bool :=
  match scan delim matched 0 xs with
  | .found i => ⟨false, xs.take (i + 1), xs.drop (i + 1)⟩
  | .passed _ => ⟨true, xs, []⟩

theorem getCut_found {delim xs : Bytes} {matched : Fin delim.length} {i : Nat}
    (h : scan delim matched 0 xs = .found i) :
    getCut delim matched xs = ⟨false, xs.take (i + 1), xs.drop (i + 1)⟩ := by
  rw [getCut, h]

theorem getCut_passed {delim xs : Bytes} {matched matched' : Fin delim.length}
    (h : scan delim matched 0 xs = .passed matched') :
    getCut delim matched xs = ⟨true, xs, []⟩ := by
  rw [getCut, h]

theorem getCut_append_found {delim xs : Bytes} {matched : Fin delim.length} {i : Nat}
    (h : scan delim matched 0 xs = .found i) (ys : Bytes) :
    getCut delim matched (xs ++ ys) = ⟨false, xs.take (i + 1), xs.drop (i + 1) ++ ys⟩ := by
  rcases scan_found h List.suffix_rfl with ⟨k, hi, hk, -⟩
  have hle : i + 1 ≤ xs.length := by omega
  have hscan : scan delim matched 0 (xs ++ ys) = .found i := by
    rw [scan_append, h, Scan.goOn]
  rw [getCut_found hscan, List.take_append_of_le_length hle, List.drop_append_of_le_length hle]

theorem getCut_append_passed {delim xs : Bytes} {matched matched' : Fin delim.length}
    (h : scan delim matched 0 xs = .passed matched') (ys : Bytes) :
    getCut delim matched (xs ++ ys) = (getCut delim matched' ys).after xs := by
  have hscan : scan delim matched 0 (xs ++ ys) = (scan delim matched' 0 ys).shift xs.length := by
    rw [scan_append, h, Scan.goOn, scan_shift]
  cases hys : scan delim matched' 0 ys with
  | found k =>
    rw [hys, Scan.shift] at hscan
    have hnext : k + xs.length + 1 = xs.length + (k + 1) := by omega
    rw [getCut_found hscan, getCut_found hys, hnext, List.take_length_add_append,
      List.drop_length_add_append]
    rfl
  | passed m =>
    rw [hys, Scan.shift] at hscan
    rw [getCut_passed hscan, getCut_passed hys]
    rfl

-- A `get` that has not come to the end of the stream takes bytes that end with the delimiter.
theorem getCut_delim {delim : Delim} {xs : Bytes}
    (h : (getCut delim.val (Delim.start delim) xs).ret = false) :
    delim.val <:+ (getCut delim.val (Delim.start delim) xs).taken := by
  cases hscan : scan delim.val (Delim.start delim) 0 xs with
  | found i =>
    rcases scan_found hscan (List.nil_suffix : [] <:+ []) with ⟨k, hi, -, hend⟩
    rw [getCut_found hscan]
    have hik : i = k := by omega
    rw [hik]
    exact hend
  | passed m =>
    rw [getCut_passed hscan] at h
    cases h

theorem getCut_whole (delim : Bytes) (matched : Fin delim.length) (xs : Bytes) :
    (getCut delim matched xs).taken ++ (getCut delim matched xs).rem = xs := by
  unfold getCut
  split
  · exact List.take_append_drop _ xs
  · exact List.append_nil xs

theorem stringJoin_eq (result : Bytes) (sl : List Bytes) :
    stringJoin result sl = result ++ sl.flatten := by
  induction sl generalizing result with
  | nil => exact (List.append_nil result).symm
  | cons s sl ih =>
    rw [List.flatten_cons, ← List.append_assoc]
    exact ih (result ++ s)

namespace CoroBuffer

variable {F : Type} [StreamFile F]

instance : Source UInt8 (CoroBuffer F) where
  rest b := b.buffer ++ rest b.file
  Calm b := Calm b.file

theorem rest_eq (b : CoroBuffer F) : rest b = b.buffer ++ rest b.file := rfl

/-! ## `get` -/

-- Filling the leftover changes nothing for what is to come; only at its end it stays empty.
theorem fill_ok {b b' : CoroBuffer F} {closed : Bool} (h : b.fill = (.ok closed, b')) :
    rest b' = rest b ∧ (Calm b → Calm b') ∧
      if closed then rest b = [] else b'.buffer ≠ [] := by
  unfold fill at h
  split at h
  · rename_i hempty
    have hnil : b.buffer = [] := List.eq_nil_of_length_eq_zero hempty
    split at h
    · cases (Prod.mk.inj h).1
    · rename_i s f hread
      rcases Prod.mk.inj h with ⟨hclosed, rfl⟩
      rcases CoroFile.readString_ok hread with ⟨hrest, -, hzero, hcalm⟩
      have hto : rest b = s ++ rest f := by rw [rest_eq, hnil, List.nil_append, hrest]
      refine ⟨hto.symm, hcalm, ?_⟩
      obtain rfl := Except.ok.inj hclosed
      split
      · rename_i hs
        have hs' : s = [] := List.eq_nil_of_length_eq_zero (of_decide_eq_true hs)
        rw [rest_eq, hnil, List.nil_append]
        exact (hzero hs').resolve_left (by decide)
      · rename_i hs
        intro hs'
        apply hs
        rw [show s = [] from hs']
        rfl
  · rename_i hfull
    rcases Prod.mk.inj h with ⟨hclosed, rfl⟩
    obtain rfl := Except.ok.inj hclosed
    refine ⟨rfl, id, ?_⟩
    intro hnil
    apply hfull
    rw [show b.buffer = [] from hnil]
    rfl

theorem fill_error {b b' : CoroBuffer F} {e : ReadError} (h : b.fill = (.error e, b')) : ¬ Calm b := by
  unfold fill at h
  split at h
  · split at h
    · rename_i hread
      exact (CoroFile.readString_error (by decide) hread).2
    · cases (Prod.mk.inj h).1
  · cases (Prod.mk.inj h).1

/-- The cut of a `get` under way. -/
def Getting.cut {delim : Bytes} (st : Getting F delim.length) : Cut UInt8 Bool :=
  (getCut delim st.matched (rest st.b)).after st.sl.flatten

theorem getList_ends (delim : Delim) (b : CoroBuffer F) :
    Ends (getList delim) b (getCut delim.val (Delim.start delim) (rest b)) := by
  refine ends_of_variant (I := fun _ : Getting F delim.val.length => True)
    (P := fun (st : Getting F delim.val.length) r => Meets st.b r st.cut)
    (fun st => (rest st.b).length) (fun st _ => ?_) trivial
  unfold getBody
  cases hfill : st.b.fill with
  | mk ret b' =>
    cases ret with
    | error e => exact .inl ⟨_, rfl, .threw (fill_error hfill)⟩
    | ok closed =>
      rcases fill_ok hfill with ⟨hrest, hcalm, hclosed⟩
      cases closed with
      | true =>
        have hnil : rest st.b = [] := hclosed
        refine .inl ⟨_, rfl, .returned hcalm ?_ ?_ ?_⟩
        · rw [Getting.cut, hnil]
          rfl
        · rw [Getting.cut, hnil]
          exact (List.append_nil _).symm
        · rw [hrest, Getting.cut, hnil]
          rfl
      | false =>
        have hbuf : rest st.b = b'.buffer ++ rest b'.file := hrest.symm
        dsimp only
        cases hscan : scan delim.val st.matched 0 b'.buffer with
        | found i =>
          have hcut := getCut_append_found hscan (rest b'.file)
          refine .inl ⟨_, rfl, .returned hcalm ?_ ?_ ?_⟩
          · rw [Getting.cut, hbuf, hcut]
            rfl
          · rw [Getting.cut, hbuf, hcut, List.flatten_append, List.flatten_singleton]
            rfl
          · rw [Getting.cut, hbuf, hcut]
            rfl
        | passed m =>
          have hcut := getCut_append_passed hscan (rest b'.file)
          have hpos : 0 < b'.buffer.length := List.length_pos_iff.mpr hclosed
          refine .inr ⟨_, rfl, trivial, ?_, fun r hr => ?_⟩
          · rw [hbuf, List.length_append]
            change (rest b'.file).length < _
            omega
          · have hnext : Getting.cut (⟨m, st.sl ++ [b'.buffer], { b' with buffer := [] }⟩ :
                Getting F delim.val.length) = st.cut := by
              rw [Getting.cut, Getting.cut, hbuf, hcut, List.flatten_append,
                List.flatten_singleton, Cut.after_append]
              rfl
            rw [hnext] at hr
            exact hr.back hcalm

theorem get_ends (delim : Delim) (b : CoroBuffer F) :
    Ends (get delim) b (getCut delim.val (Delim.start delim) (rest b)) := by
  rcases getList_ends delim b with ⟨r, hy, hmeets⟩
  refine ⟨_, hy.map _, ?_⟩
  rcases r with ⟨ret, pieces, left⟩
  cases ret with
  | error e =>
    apply Meets.threw
    intro hcalm
    cases (hmeets.calm hcalm).2
  | ok closed =>
    rcases hmeets.ok closed rfl with ⟨hret, htaken, hrem⟩
    refine .returned (fun hcalm => (hmeets.calm hcalm).1) hret ?_ hrem
    rw [List.flatten_singleton, stringJoin_eq, List.nil_append]
    exact htaken

-- Where the calls end at all, they end so.
theorem getList_meets {delim : Delim} {fuel : Nat} {b : CoroBuffer F}
    {r : Ended UInt8 ReadError (CoroBuffer F) Bool} (h : b.getList delim fuel = some r) :
    Meets b r (getCut delim.val (Delim.start delim) (rest b)) := by
  rcases getList_ends delim b with ⟨r', hy, hmeets⟩
  obtain rfl := hy.unique (yields_of_run h)
  exact hmeets

theorem yields_of_get {delim : Delim} {fuel : Nat} {b : CoroBuffer F}
    {r : Ended UInt8 ReadError (CoroBuffer F) Bool} (h : b.get delim fuel = some r) :
    Yields (get delim · b) r := by
  rcases Option.map_eq_some_iff.mp h with ⟨r₀, hlist, -⟩
  rcases yields_of_run hlist with ⟨n, hn⟩
  refine ⟨n, fun m hm => ?_⟩
  have hmore : b.getList delim m = some r₀ := hn m hm
  change b.get delim m = some r
  rw [← h]
  unfold get
  rw [hlist, hmore]

theorem get_meets {delim : Delim} {fuel : Nat} {b : CoroBuffer F}
    {r : Ended UInt8 ReadError (CoroBuffer F) Bool} (h : b.get delim fuel = some r) :
    Meets b r (getCut delim.val (Delim.start delim) (rest b)) := by
  rcases get_ends delim b with ⟨r', hy', hmeets⟩
  obtain rfl := hy'.unique (yields_of_get h)
  exact hmeets

/-! ## The other operations -/

theorem meets_split {b : CoroBuffer F} {nbytes : Nat} (h : nbytes ≤ b.buffer.length) :
    Meets b (⟨.ok (), [b.buffer.take nbytes], { b with buffer := b.buffer.drop nbytes }⟩ :
      Ended UInt8 ReadError (CoroBuffer F) Unit) ⟨(), (rest b).take nbytes, (rest b).drop nbytes⟩ := by
  refine .returned id rfl ?_ ?_
  · rw [List.flatten_singleton, rest_eq, List.take_append_of_le_length h]
  · rw [rest_eq b, List.drop_append_of_le_length h]
    rfl

theorem meets_all {b : CoroBuffer F} {nbytes : Nat} (h : b.buffer.length = nbytes) :
    Meets b (⟨.ok (), [b.buffer], { b with buffer := [] }⟩ :
      Ended UInt8 ReadError (CoroBuffer F) Unit) ⟨(), (rest b).take nbytes, (rest b).drop nbytes⟩ := by
  have hsplit := meets_split (Nat.le_of_eq h.symm)
  rw [List.take_of_length_le (Nat.le_of_eq h), List.drop_of_length_le (Nat.le_of_eq h)] at hsplit
  exact hsplit

-- With the leftover handed over, what the file does is what the buffer does.
theorem meets_file {b : CoroBuffer F} {r : Ended UInt8 ReadError F Unit} {cut : Cut UInt8 Unit}
    (h : Meets b.file r cut) (pieces : List Bytes) :
    Meets b (r.after pieces fun f => (⟨f, []⟩ : CoroBuffer F)) (cut.after pieces.flatten) :=
  h.after (s := b) (fun hcalm => hcalm) (fun _ => rfl) (fun _ hcalm => hcalm) pieces

-- The leftover and then `nbytes` less its size of the file are `nbytes` in all.
theorem after_take_drop {b : CoroBuffer F} {nbytes : Nat} (h : b.buffer.length ≤ nbytes) :
    Cut.after b.buffer (⟨(), (rest b.file).take (sizeSub nbytes b.buffer.length),
      (rest b.file).drop (sizeSub nbytes b.buffer.length)⟩ : Cut UInt8 Unit) =
      ⟨(), (rest b).take nbytes, (rest b).drop nbytes⟩ := by
  rw [Cut.after, sizeSub_of_le h, rest_eq, List.take_append,
    List.drop_append, List.take_of_length_le h, List.drop_of_length_le h, List.nil_append]

omit [StreamFile F] in
theorem consumeBuffer_eq (b : CoroBuffer F) : ∃ pieces,
    b.consumeBuffer = (b.buffer.length, pieces, { b with buffer := [] }) ∧
      pieces.flatten = b.buffer := by
  unfold consumeBuffer
  dsimp only
  split
  · exact ⟨[b.buffer], rfl, List.flatten_singleton⟩
  · rename_i hempty
    have hnil : b.buffer = [] := List.eq_nil_of_length_eq_zero (by omega)
    refine ⟨[], ?_, hnil.symm⟩
    rw [← hnil]

-- Both forms of `read_exact` go to the file only for more than the leftover.
theorem ends_leftover {nbytes : Nat} {b : CoroBuffer F}
    {more : Nat → Option (Ended UInt8 ReadError (CoroBuffer F) Unit)}
    (hmore : b.buffer.length < nbytes →
      ∃ r, Yields more r ∧ Meets b r ⟨(), (rest b).take nbytes, (rest b).drop nbytes⟩) :
    ∃ r, Yields (fun fuel =>
        if b.buffer.length > nbytes then
          some ⟨.ok (), [b.buffer.take nbytes], { b with buffer := b.buffer.drop nbytes }⟩
        else if b.buffer.length = nbytes then some ⟨.ok (), [b.buffer], { b with buffer := [] }⟩
        else more fuel) r ∧
      Meets b r ⟨(), (rest b).take nbytes, (rest b).drop nbytes⟩ := by
  by_cases hgt : b.buffer.length > nbytes
  · simp only [hgt, if_true]
    exact ⟨_, yields_const _, meets_split (Nat.le_of_lt hgt)⟩
  · simp only [hgt, if_false]
    by_cases heq : b.buffer.length = nbytes
    · simp only [heq, if_true]
      exact ⟨_, yields_const _, meets_all heq⟩
    · simp only [heq, if_false]
      exact hmore (by omega)

theorem readExactString_ends {nbytes : Nat} {b : CoroBuffer F}
    (hle : nbytes ≤ maxSize + b.buffer.length) :
    Ends (readExactString nbytes) b ⟨(), (rest b).take nbytes, (rest b).drop nbytes⟩ := by
  apply ends_leftover
  intro hlt
  have hfile : sizeSub nbytes b.buffer.length ≤ maxSize := by
    rw [sizeSub_of_le (Nat.le_of_lt hlt)]
    omega
  rcases CoroFile.readExactString_ends hfile b.file with ⟨r, hy, hmeets⟩
  refine ⟨_, hy.map _, ?_⟩
  have hall := meets_file hmeets [b.buffer]
  rw [List.flatten_singleton, after_take_drop (Nat.le_of_lt hlt)] at hall
  exact hall

-- Asked for more than a vector holds beyond the leftover, it throws with the leftover appended.
theorem readExactString_throws {nbytes : Nat} {b : CoroBuffer F}
    (hgt : maxSize + b.buffer.length < nbytes) :
    Yields (readExactString nbytes · b) ⟨.error .lengthError, [b.buffer], ⟨b.file, []⟩⟩ := by
  have hle : b.buffer.length ≤ nbytes := by omega
  have hmore : maxSize < sizeSub nbytes b.buffer.length := by
    rw [sizeSub_of_le hle]
    omega
  have hfile := (CoroFile.readExactString_throws hmore b.file).map
    (Ended.after [b.buffer] fun f => (⟨f, []⟩ : CoroBuffer F))
  have hnot : ¬b.buffer.length > nbytes := by omega
  have hne : ¬b.buffer.length = nbytes := by omega
  unfold readExactString
  simp only [hnot, hne, if_false]
  exact hfile

theorem readExact_ends {nbytes : Nat} {b : CoroBuffer F} (hle : nbytes ≤ (rest b).length) :
    Ends (readExact nbytes) b ⟨(), (rest b).take nbytes, (rest b).drop nbytes⟩ := by
  apply ends_leftover
  intro hlt
  rcases b.consumeBuffer_eq with ⟨pieces, hconsume, hpieces⟩
  rw [hconsume]
  have hfile : sizeSub nbytes b.buffer.length ≤ (rest b.file).length := by
    rw [rest_eq, List.length_append] at hle
    rw [sizeSub_of_le (Nat.le_of_lt hlt)]
    omega
  rcases CoroFile.readExact_ends (by decide : (0 : UInt32) < 8000) hfile with ⟨r, hy, hmeets⟩
  refine ⟨_, hy.map _, ?_⟩
  have hall := meets_file hmeets pieces
  rw [hpieces, after_take_drop (Nat.le_of_lt hlt)] at hall
  exact hall

/-- Where `read_to_eof` stops; with blocks of size 0 it takes no read for the end. -/
def toEofCut (block_size : Nat) (buffer xs : Bytes) : Cut UInt8 Unit :=
  if block_size = 0 then ⟨(), buffer, xs⟩ else ⟨(), buffer ++ xs, []⟩

theorem toEofCut_after (block_size : Nat) (buffer xs : Bytes) :
    (toEofCut block_size [] xs).after buffer = toEofCut block_size buffer xs := by
  unfold toEofCut
  split
  · exact congrArg (Cut.mk () · xs) (List.append_nil buffer)
  · rfl

theorem toEofCut_whole (block_size : Nat) (buffer xs : Bytes) :
    (toEofCut block_size buffer xs).taken ++ (toEofCut block_size buffer xs).rem =
      buffer ++ xs := by
  unfold toEofCut
  split
  · rfl
  · exact List.append_nil _

theorem readToEof_ends {block_size : Nat} (hle : block_size ≤ maxSize) (b : CoroBuffer F) :
    Ends (readToEof block_size) b (toEofCut block_size b.buffer (rest b.file)) := by
  unfold Ends readToEof
  rcases b.consumeBuffer_eq with ⟨pieces, hconsume, hpieces⟩
  rw [hconsume]
  have hloop : ∃ r, Yields (run (readToEofBody block_size) · ([], b.file)) r ∧
      Meets b.file r (toEofCut block_size [] (rest b.file)) := by
    refine ends_of_variant (I := fun _ : List Bytes × F => True)
      (P := fun (st : List Bytes × F) r =>
        Meets st.2 r (toEofCut block_size st.1.flatten (rest st.2)))
      (fun st => (rest st.2).length) (fun st _ => ?_) trivial
    unfold readToEofBody
    cases hread : CoroFile.readString st.2 block_size with
    | mk ret f =>
      cases ret with
      | error e => exact .inl ⟨_, rfl, .threw (CoroFile.readString_error hle hread).2⟩
      | ok block =>
        rcases CoroFile.readString_ok hread with ⟨hrest, hlen, hempty, hcalm⟩
        dsimp only
        by_cases hpos : block.length > 0
        · rw [if_pos hpos]
          refine .inr ⟨_, rfl, trivial, ?_, fun r hr => ?_⟩
          · rw [hrest, List.length_append]
            change (rest f).length < _
            omega
          · have hblock : ¬ block_size = 0 := by omega
            dsimp only at hr
            unfold toEofCut at hr ⊢
            rw [if_neg hblock] at hr ⊢
            rw [List.flatten_append, List.flatten_singleton, List.append_assoc, ← hrest] at hr
            exact hr.back hcalm
        · rw [if_neg hpos]
          have hnil : block = [] := List.eq_nil_of_length_eq_zero (by omega)
          have hsame : rest f = rest st.2 := by rw [hrest, hnil, List.nil_append]
          unfold toEofCut
          refine .inl ⟨_, rfl, ?_⟩
          rcases hempty hnil with hzero | heof
          · rw [if_pos hzero]
            exact .returned hcalm rfl rfl hsame
          · split
            · exact .returned hcalm rfl rfl hsame
            · refine .returned hcalm rfl ?_ (hsame.trans heof)
              rw [heof, List.append_nil]
  rcases hloop with ⟨r, hy, hmeets⟩
  refine ⟨_, hy.map _, ?_⟩
  have hall := meets_file hmeets pieces
  rw [hpieces, toEofCut_after] at hall
  exact hall

-- And `read_to_eof` throws before its first read.
theorem readToEof_throws {block_size : Nat} (hgt : maxSize < block_size) (b : CoroBuffer F) :
    ∃ pieces, pieces.flatten = b.buffer ∧
      Yields (readToEof block_size · b) ⟨.error .lengthError, pieces, ⟨b.file, []⟩⟩ := by
  rcases b.consumeBuffer_eq with ⟨pieces, hconsume, hpieces⟩
  have hbody : readToEofBody block_size (([], b.file) : List Bytes × F) =
      .inr ⟨.error .lengthError, [], b.file⟩ := by
    unfold readToEofBody
    rw [CoroFile.readString_of_gt hgt]
  have hall := (yields_of_run (run_succ_inr hbody 0)).map
    (Ended.after pieces fun f => (⟨f, []⟩ : CoroBuffer F))
  rw [Ended.after, List.append_nil] at hall
  refine ⟨pieces, hpieces, ?_⟩
  unfold readToEof
  rw [hconsume]
  exact hall

end CoroBuffer

end Coropp
