import Coropp.BufferCuts

/-!
# `get` when a read throws

The list form of `get` has appended to its caller's list what it has read by then.  The string form
has it in a local list, which is lost with the exception.
-/

namespace Coropp

open Loops Source

/-- What was left over, and what the call has taken from the stream, is with the caller or left over
    again. -/
def Keeps {F : Type} [StreamFile F] {ρ : Type} (b : CoroBuffer F)
    (r : Ended UInt8 ReadError (CoroBuffer F) ρ) : Prop :=
  ∃ taken, rest b.file = taken ++ rest r.left.file ∧
    r.bytes ++ r.left.buffer = b.buffer ++ taken

/-- The first read fails, after waiting any number of times. -/
def FailsFirst : List Answer → Prop
  | .wouldBlock :: script => FailsFirst script
  | .error _ :: _ => True
  | _ => False

namespace CoroBuffer

variable {F : Type} [StreamFile F] {b b' : CoroBuffer F} {delim : Delim}

-- Nothing of what is kept is lost, as the caller finds the stream continued.
theorem continues_of_keeps {ρ : Type} {r : Ended UInt8 ReadError (CoroBuffer F) ρ} (h : Keeps b r) :
    r.bytes ++ rest r.left = rest b := by
  rcases h with ⟨taken, htaken, hbytes⟩
  rw [rest_eq, rest_eq, htaken, ← List.append_assoc, ← List.append_assoc, hbytes]

-- A fill moves bytes from the stream to the leftover.
theorem fill_taken {closed : Bool} (h : b.fill = (.ok closed, b')) :
    ∃ taken, rest b.file = taken ++ rest b'.file ∧ b'.buffer = b.buffer ++ taken := by
  unfold fill at h
  split at h
  · rename_i hempty
    have hnil : b.buffer = [] := List.eq_nil_of_length_eq_zero hempty
    split at h
    · cases (Prod.mk.inj h).1
    · rename_i s f hread
      obtain rfl := (Prod.mk.inj h).2
      refine ⟨s, (CoroFile.readString_ok hread).1, ?_⟩
      rw [hnil, List.nil_append]
  · obtain rfl := (Prod.mk.inj h).2
    exact ⟨[], rfl, (List.append_nil _).symm⟩

-- It throws only where nothing is left over.
theorem fill_threw {e : ReadError} (h : b.fill = (.error e, b')) :
    b.buffer = [] ∧ b'.buffer = [] ∧ rest b'.file = rest b.file ∧
      ∃ f, CoroFile.readString b.file 8192 = (.error e, f) := by
  unfold fill at h
  split at h
  · rename_i hempty
    have hnil : b.buffer = [] := List.eq_nil_of_length_eq_zero hempty
    split at h
    · rename_i e' f hread
      obtain ⟨he, rfl⟩ := Prod.mk.inj h
      obtain rfl := Except.error.inj he
      exact ⟨hnil, hnil, (CoroFile.readString_error (by decide) hread).1, f, hread⟩
    · cases (Prod.mk.inj h).1
  · cases (Prod.mk.inj h).1

theorem fill_of_threw {e : ReadError} {f : F} (hempty : b.buffer = [])
    (hread : CoroFile.readString b.file 8192 = (.error e, f)) :
    b.fill = (.error e, { b with file := f }) := by
  unfold fill
  rw [hempty, hread]
  rfl

/-- A `get` under way has all it has taken in `sl` or in `_buffer`. -/
def Getting.Gathers (b : CoroBuffer F) (st : Getting F delim.val.length) : Prop :=
  ∃ taken, rest b.file = taken ++ rest st.b.file ∧
    st.sl.flatten ++ st.b.buffer = b.buffer ++ taken

-- One round gathers more, or ends with all there is in its pieces and the leftover; where it
-- throws, nothing is left over.
theorem getBody_gathers {st : Getting F delim.val.length} (h : st.Gathers b) :
    Sum.elim (Getting.Gathers b)
      (fun r => Keeps b r ∧ ∀ e, r.ret = .error e → r.left.buffer = []) (getBody delim.val st) := by
  rcases h with ⟨taken, htaken, hsl⟩
  unfold getBody
  cases hfill : st.b.fill with
  | mk ret b' =>
    cases ret with
    | error e =>
      rcases fill_threw hfill with ⟨hempty, hempty', hsame, -⟩
      refine ⟨⟨taken, ?_, ?_⟩, fun _ _ => hempty'⟩
      · rw [htaken, hsame]
      · rw [← hsl, hempty, hempty']
        rfl
    | ok closed =>
      rcases fill_taken hfill with ⟨more, hmore, hbuffer⟩
      have hall : rest b.file = (taken ++ more) ++ rest b'.file := by
        rw [htaken, hmore, List.append_assoc]
      have hgathered : st.sl.flatten ++ b'.buffer = b.buffer ++ (taken ++ more) := by
        rw [hbuffer, ← List.append_assoc, hsl, List.append_assoc]
      cases closed with
      | true => exact ⟨⟨taken ++ more, hall, hgathered⟩, fun _ he => nomatch he⟩
      | false =>
        dsimp only
        cases hscan : scan delim.val st.matched 0 b'.buffer with
        | found i =>
          refine ⟨⟨taken ++ more, hall, ?_⟩, fun _ he => nomatch he⟩
          rw [← hgathered, Ended.bytes, List.flatten_append, List.flatten_singleton,
            List.append_assoc, List.take_append_drop]
        | passed matched =>
          refine ⟨taken ++ more, hall, ?_⟩
          rw [← hgathered, List.flatten_append, List.flatten_singleton, List.append_nil]

/-- The list form keeps what it has taken, however it ends. -/
theorem getList_keeps {fuel : Nat} {r : Ended UInt8 ReadError (CoroBuffer F) Bool}
    (h : b.getList delim fuel = some r) :
    Keeps b r ∧ ∀ e, r.ret = .error e → r.left.buffer = [] := by
  apply run_keeps (I := Getting.Gathers b) (fun _ hst => getBody_gathers hst) ?_ h
  exact ⟨[], rfl, (List.append_nil _).symm⟩

-- A round that goes on has put something on the list.
theorem getBody_goesOn {st st' : Getting F delim.val.length}
    (h : getBody delim.val st = .inl st') : st'.sl.flatten ≠ [] := by
  unfold getBody at h
  split at h
  · cases h
  · cases h
  · rename_i b' hfill
    have hpos : b'.buffer ≠ [] := (fill_ok hfill).2.2
    split at h
    · cases h
    · obtain rfl := Sum.inl.inj h
      rw [List.flatten_append, List.flatten_singleton]
      exact fun hnil => hpos (List.append_eq_nil_iff.mp hnil).2

-- A round that throws leaves the list as it is.
theorem getBody_threw {st : Getting F delim.val.length}
    {r : Ended UInt8 ReadError (CoroBuffer F) Bool} {e : ReadError} (h : getBody delim.val st = .inr r)
    (he : r.ret = .error e) : r.pieces = st.sl ∧ st.b.fill = (.error e, r.left) := by
  unfold getBody at h
  split at h
  · rename_i e' b' hfill
    obtain rfl := Sum.inr.inj h
    obtain rfl := Except.error.inj he
    exact ⟨rfl, hfill⟩
  · obtain rfl := Sum.inr.inj h
    cases he
  · split at h
    · obtain rfl := Sum.inr.inj h
      cases he
    · cases h

theorem run_gathered {fuel : Nat} {st : Getting F delim.val.length}
    {r : Ended UInt8 ReadError (CoroBuffer F) Bool} {e : ReadError} (hst : st.sl.flatten ≠ [])
    (h : run (getBody delim.val) fuel st = some r) (he : r.ret = .error e) : r.bytes ≠ [] := by
  apply run_keeps (I := fun st => st.sl.flatten ≠ [])
    (P := fun r => ∀ e, r.ret = .error e → r.bytes ≠ []) (fun st hst => ?_) hst h e he
  cases hbody : getBody delim.val st with
  | inl st' => exact getBody_goesOn hbody
  | inr r =>
    intro e he
    rw [Ended.bytes, (getBody_threw hbody he).1]
    exact hst

-- Where the list form throws, it has nothing on its list if and only if the first read has thrown.
theorem getList_threw_iff {fuel : Nat} {r : Ended UInt8 ReadError (CoroBuffer F) Bool} {e : ReadError}
    (h : b.getList delim fuel = some r) (he : r.ret = .error e) :
    r.bytes = [] ↔ b.buffer = [] ∧ ∃ e f, CoroFile.readString b.file 8192 = (.error e, f) := by
  unfold getList at h
  cases fuel with
  | zero => cases h
  | succ fuel =>
    cases hbody : getBody delim.val ⟨Delim.start delim, [], b⟩ with
    | inl st =>
      rw [run_succ_inl hbody] at h
      apply iff_of_false (run_gathered (getBody_goesOn hbody) h he)
      rintro ⟨hempty, e', f, hread⟩
      unfold getBody at hbody
      rw [fill_of_threw hempty hread] at hbody
      cases hbody
    | inr r' =>
      rw [run_succ_inr hbody] at h
      obtain rfl := Option.some.inj h
      rcases getBody_threw hbody he with ⟨hpieces, hfill⟩
      rcases fill_threw hfill with ⟨hempty, -, -, f, hread⟩
      apply iff_of_true ?_ ⟨hempty, e, f, hread⟩
      rw [Ended.bytes, hpieces]
      rfl

-- The string form loses what the list form has on its list.
theorem get_threw {fuel : Nat} {r : Ended UInt8 ReadError (CoroBuffer F) Bool} {e : ReadError}
    (h : b.get delim fuel = some r) (he : r.ret = .error e) :
    ∃ r', b.getList delim fuel = some r' ∧ r'.ret = .error e ∧ r = ⟨.error e, [], r'.left⟩ := by
  rcases Option.map_eq_some_iff.mp h with ⟨r', hlist, rfl⟩
  rcases r' with ⟨ret, pieces, left⟩
  cases ret with
  | ok closed => cases he
  | error e' =>
    obtain rfl := Except.error.inj he
    exact ⟨_, hlist, rfl, rfl⟩

-- So it keeps what it has taken only where that is nothing.
theorem get_threw_keeps_iff {fuel : Nat} {r : Ended UInt8 ReadError (CoroBuffer F) Bool} {e : ReadError}
    (h : b.get delim fuel = some r) (he : r.ret = .error e) :
    Keeps b r ↔ b.buffer = [] ∧ ∃ e f, CoroFile.readString b.file 8192 = (.error e, f) := by
  rcases get_threw h he with ⟨r', hlist, he', rfl⟩
  rcases getList_keeps hlist with ⟨⟨taken, htaken, hbytes⟩, hleft⟩
  rw [← getList_threw_iff hlist he']
  rw [hleft e he', List.append_nil] at hbytes
  constructor
  · rintro ⟨taken', htaken', hbytes'⟩
    have hsame : taken' = taken := List.append_cancel_right (htaken'.symm.trans htaken)
    have hnone : ([] : Bytes) ++ r'.left.buffer = b.buffer ++ taken' := hbytes'
    rw [hleft e he', hsame] at hnone
    exact hbytes.trans hnone.symm
  · intro hnone
    refine ⟨taken, htaken, ?_⟩
    show [] ++ r'.left.buffer = b.buffer ++ taken
    rw [hleft e he', ← hbytes, hnone]
    rfl

end CoroBuffer

theorem readLoop_threw_iff (length : Nat) (data : Bytes) (script : List Answer) :
    (∃ e f, File.readLoop length data script = (.error e, f)) ↔ FailsFirst script := by
  induction script with
  | nil => exact iff_of_false (fun ⟨e, f, h⟩ => nomatch (Prod.mk.inj h).1) id
  | cons a script ih =>
    cases a with
    | chunk n pos => exact iff_of_false (fun ⟨e, f, h⟩ => nomatch (Prod.mk.inj h).1) id
    | wouldBlock => exact ih
    | error e => exact iff_of_true ⟨e, _, rfl⟩ trivial

theorem readString_threw_iff {length : Nat} (hle : length ≤ maxSize) (f : File) :
    (∃ e f', CoroFile.readString f length = (.error e, f')) ↔ FailsFirst f.script := by
  rw [← readLoop_threw_iff length f.data f.script]
  constructor
  · rintro ⟨e, f', h⟩
    rcases CoroFile.read_of_readString_error hle h with ⟨errno, -, hread⟩
    exact ⟨errno, f', hread⟩
  · rintro ⟨errno, f', hread⟩
    have hread' : CoroFile.read f length = (.error errno, f') := hread
    refine ⟨.osError errno, f', ?_⟩
    unfold CoroFile.readString
    rw [if_neg (Nat.not_lt.mpr hle), hread']

/-- Where a read throws, `get` has kept what was left over and what it has taken from the stream if
    and only if nothing was left over and it was the first read that threw. -/
theorem get_keeps_iff (delim : Delim) (buffer stream : Bytes) (script : List Answer) {e : ReadError}
    {r : Ended UInt8 ReadError (CoroBuffer File) Bool}
    (h : Yields (CoroBuffer.get delim · (⟨⟨stream, script⟩, buffer⟩ : CoroBuffer File)) r)
    (he : r.ret = .error e) :
    Keeps (⟨⟨stream, script⟩, buffer⟩ : CoroBuffer File) r ↔ buffer = [] ∧ FailsFirst script := by
  rcases h with ⟨fuel, hfuel⟩
  have hget := hfuel fuel (Nat.le_refl fuel)
  rw [CoroBuffer.get_threw_keeps_iff hget he, readString_threw_iff (by decide)]

/-- A read fails at once. -/
theorem get_keeps_first :
    let delim : Delim := ⟨[13, 10], by decide⟩
    let b : CoroBuffer File := ⟨⟨[97, 98], [.wouldBlock, .error 104]⟩, []⟩
    ∃ r, Yields (CoroBuffer.get delim · b) r ∧ r.ret = .error (.osError 104) ∧ Keeps b r := by
  dsimp only
  have hy : Yields (CoroBuffer.get ⟨[13, 10], by decide⟩ ·
      (⟨⟨[97, 98], [.wouldBlock, .error 104]⟩, []⟩ : CoroBuffer File))
      ⟨.error (.osError 104), [], ⟨⟨[97, 98], []⟩, []⟩⟩ :=
    CoroBuffer.yields_of_get (rfl : CoroBuffer.get _ 1 _ = _)
  exact ⟨_, hy, rfl, (get_keeps_iff _ _ _ _ hy rfl).mpr ⟨rfl, trivial⟩⟩

/-- The first byte of `"ab"` has been read when the next read fails. -/
theorem get_loses_chunk :
    let delim : Delim := ⟨[13, 10], by decide⟩
    let b : CoroBuffer File := ⟨⟨[97, 98], [.chunk 1 (by decide), .error 104]⟩, []⟩
    ∃ r, Yields (CoroBuffer.get delim · b) r ∧ r.ret = .error (.osError 104) ∧ r.left.file.data = [98] ∧
      ¬Keeps b r := by
  dsimp only
  have hy : Yields (CoroBuffer.get ⟨[13, 10], by decide⟩ ·
      (⟨⟨[97, 98], [.chunk 1 (by decide), .error 104]⟩, []⟩ : CoroBuffer File))
      ⟨.error (.osError 104), [], ⟨⟨[98], []⟩, []⟩⟩ :=
    CoroBuffer.yields_of_get (rfl : CoroBuffer.get _ 2 _ = _)
  refine ⟨_, hy, rfl, rfl, fun hkeeps => ?_⟩
  exact absurd (CoroBuffer.continues_of_keeps hkeeps) (by decide)

end Coropp
