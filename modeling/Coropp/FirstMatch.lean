import Coropp.BufferCuts
import Mathlib.Data.Nat.Find

/-!
# Which delimiter `get` finds

A byte that does not continue an attempt is dropped with it (`matched = 0`), so `get` passes over a
delimiter that begins inside a failed attempt.
-/

namespace Coropp

open Loops Source

/-- `s` is the shortest prefix of `xs` that ends with the delimiter. -/
structure FirstMatch (delim xs s : Bytes) : Prop where
  taken : s <+: xs
  ends : delim <:+ s
  first : ∀ k < s.length, ¬delim <:+ xs.take k

instance (delim xs s : Bytes) : Decidable (FirstMatch delim xs s) :=
  decidable_of_iff (s <+: xs ∧ delim <:+ s ∧ ∀ k < s.length, ¬delim <:+ xs.take k)
    ⟨fun ⟨h₁, h₂, h₃⟩ => ⟨h₁, h₂, h₃⟩, fun ⟨h₁, h₂, h₃⟩ => ⟨h₁, h₂, h₃⟩⟩

/-- What `get` has to do with the bytes `xs` to come. -/
structure Finds {S : Type} [Source UInt8 S] (delim xs : Bytes) (r : Ended UInt8 ReadError S Bool) :
    Prop where
  found : delim <:+: xs →
    r.ret = .ok false ∧ FirstMatch delim xs r.bytes ∧ xs = r.bytes ++ rest r.left
  absent : ¬delim <:+: xs → r.ret = .ok true ∧ r.bytes = xs ∧ rest r.left = []

/-- The call ends, and does so. -/
def FindsFirst {S : Type} [Source UInt8 S] (call : Nat → S → Option (Ended UInt8 ReadError S Bool))
    (delim : Bytes) (s : S) : Prop :=
  ∃ r, Yields (call · s) r ∧ Finds delim (rest s) r

/-- The bytes before the first delimiter are failed attempts. -/
def Reached (delim xs : Bytes) : Prop :=
  ∀ front, FirstMatch delim xs (front ++ delim) → Attempts delim front

section

variable {delim xs s s' : Bytes}

theorem FirstMatch.eq_take (h : FirstMatch delim xs s) : s = xs.take s.length :=
  List.prefix_iff_eq_take.mp h.taken

theorem FirstMatch.length_le (h : FirstMatch delim xs s) (h' : FirstMatch delim xs s') :
    s.length ≤ s'.length := by
  by_contra hlt
  apply h.first s'.length (by omega)
  rw [← h'.eq_take]
  exact h'.ends

theorem FirstMatch.unique (h : FirstMatch delim xs s) (h' : FirstMatch delim xs s') : s = s' := by
  have hlen : s.length = s'.length := Nat.le_antisymm (h.length_le h') (h'.length_le h)
  rw [h.eq_take, h'.eq_take, hlen]

theorem FirstMatch.infix (h : FirstMatch delim xs s) : delim <:+: xs :=
  h.ends.isInfix.trans h.taken.isInfix

theorem exists_firstMatch (h : delim <:+: xs) : ∃ front, FirstMatch delim xs (front ++ delim) := by
  have hsome : ∃ k, delim <:+ xs.take k := by
    rcases h with ⟨front, back, hxs⟩
    refine ⟨(front ++ delim).length, front, ?_⟩
    rw [← hxs, List.take_left]
  rcases Nat.find_spec hsome with ⟨front, hfront⟩
  have hle : (front ++ delim).length ≤ Nat.find hsome := by
    rw [hfront]
    exact List.length_take_le _ _
  refine ⟨front, ⟨?_, List.suffix_append _ _, fun k hk => ?_⟩⟩
  · rw [hfront]
    exact List.take_prefix _ _
  · exact Nat.find_min hsome (by omega)

end

/-! ## The cut of `get` -/

variable {xs : Bytes}

-- Failed attempts and then the delimiter are what `get` takes.
theorem getCut_attempts (delim : Delim) {front : Bytes} (h : Attempts delim.val front) (ys : Bytes) :
    getCut delim.val (Delim.start delim) (front ++ delim.val ++ ys) =
      ⟨false, front ++ delim.val, ys⟩ := by
  have hscan : scan delim.val (Delim.start delim) 0 (front ++ delim.val ++ ys) =
      .found (front.length + (delim.val.length - 1)) := by
    rw [List.append_assoc, Delim.start, scan_attempts h delim.property, scan_delim, Nat.zero_add]
  have hlen : front.length + (delim.val.length - 1) + 1 = (front ++ delim.val).length := by
    have hpos := delim.property
    rw [List.length_append]
    omega
  rw [getCut_found hscan, hlen, List.take_left, List.drop_left]

-- And it takes nothing else before it comes to the end of the stream.
theorem attempts_of_getCut {delim : Delim}
    (h : (getCut delim.val (Delim.start delim) xs).ret = false) :
    ∃ front, Attempts delim.val front ∧
      (getCut delim.val (Delim.start delim) xs).taken = front ++ delim.val := by
  cases hscan : scan delim.val (Delim.start delim) 0 xs with
  | found i =>
    rcases attempts_of_found hscan with ⟨k, front, hi, -, hfront, hends⟩
    obtain rfl : i = k := by omega
    rw [getCut_found hscan]
    exact ⟨front, hfront, hends⟩
  | passed m =>
    rw [getCut_passed hscan] at h
    cases h

theorem getCut_absent {delim : Delim} (h : ¬delim.val <:+: xs) :
    getCut delim.val (Delim.start delim) xs = ⟨true, xs, []⟩ := by
  cases hscan : scan delim.val (Delim.start delim) 0 xs with
  | found i =>
    exfalso
    have hret : (getCut delim.val (Delim.start delim) xs).ret = false := by
      rw [getCut_found hscan]
    have hends := getCut_delim hret
    have hpre : (getCut delim.val (Delim.start delim) xs).taken <+: xs :=
      ⟨_, getCut_whole _ _ xs⟩
    exact h (hends.isInfix.trans hpre.isInfix)
  | passed m => exact getCut_passed hscan

/-! ## The calls -/

theorem findsFirst_iff {S : Type} [Source UInt8 S] {delim : Delim}
    {call : Nat → S → Option (Ended UInt8 ReadError S Bool)} {s : S} (hcalm : Calm s)
    (hcall : Ends call s (getCut delim.val (Delim.start delim) (rest s))) :
    FindsFirst call delim.val s ↔ Reached delim.val (rest s) := by
  rcases hcall with ⟨r, hy, hmeets⟩
  rcases hmeets.calm hcalm with ⟨-, hret⟩
  rcases hmeets.ok _ hret with ⟨-, htaken, hrem⟩
  constructor
  · rintro ⟨r', hy', hfinds⟩ front hfirst
    obtain rfl := hy.unique hy'
    rcases hfinds.found hfirst.infix with ⟨hfalse, hmatch, -⟩
    have hcut : (getCut delim.val (Delim.start delim) (rest s)).ret = false :=
      Except.ok.inj (hret.symm.trans hfalse)
    rcases attempts_of_getCut hcut with ⟨front', hfront', hends⟩
    have heq : front ++ delim.val = front' ++ delim.val := by
      rw [← hends, ← htaken]
      exact hfirst.unique hmatch
    rw [List.append_cancel_right heq]
    exact hfront'
  · intro hreached
    refine ⟨r, hy, ?_, fun habsent => ?_⟩
    · intro hoccurs
      rcases exists_firstMatch hoccurs with ⟨front, hfirst⟩
      rcases hfirst.taken with ⟨ys, hys⟩
      have hcut := getCut_attempts delim (hreached front hfirst) ys
      rw [hys] at hcut
      rw [hcut] at hret htaken hrem
      refine ⟨hret, ?_, ?_⟩
      · rw [htaken]
        exact hfirst
      · rw [htaken, hrem]
        exact hys.symm
    · rw [getCut_absent habsent] at hret htaken hrem
      exact ⟨hret, htaken, hrem⟩

/-- Over any reads of a stream, both forms of `get` find the first delimiter if and only if the bytes
    before it are failed attempts. -/
theorem get_findsFirst_iff (delim : Delim) (buffer stream : Bytes) {script : List Answer}
    (h : ∀ e, .error e ∉ script) :
    (FindsFirst (CoroBuffer.getList delim) delim.val
        (⟨⟨stream, script⟩, buffer⟩ : CoroBuffer File) ↔ Reached delim.val (buffer ++ stream)) ∧
      (FindsFirst (CoroBuffer.get delim) delim.val
        (⟨⟨stream, script⟩, buffer⟩ : CoroBuffer File) ↔ Reached delim.val (buffer ++ stream)) :=
  ⟨findsFirst_iff h (CoroBuffer.getList_ends delim _), findsFirst_iff h (CoroBuffer.get_ends delim _)⟩

def crlf : Delim := ⟨[13, 10], by decide⟩

/-- `"hi\r\n"`, half of it left over and the rest in two reads. -/
theorem get_findsFirst_hi :
    (FindsFirst (CoroBuffer.get crlf) crlf.val (⟨⟨[105, 13, 10], [.chunk 2 (by decide), .wouldBlock]⟩,
      [104]⟩ : CoroBuffer File) ↔ Reached crlf.val [104, 105, 13, 10]) ∧
      Reached crlf.val [104, 105, 13, 10] := by
  refine ⟨(get_findsFirst_iff crlf [104] [105, 13, 10] (fun e => by simp)).2, fun front hfirst => ?_⟩
  have hhi : FirstMatch crlf.val [104, 105, 13, 10] ([104, 105] ++ crlf.val) := by decide
  rw [List.append_cancel_right (hfirst.unique hhi)]
  have hone : ∀ x xs, x ≠ 13 → Attempts crlf.val xs → Attempts crlf.val (x :: xs) :=
    fun x xs hx hxs => .fail (k := ⟨0, by decide⟩) hx hxs
  exact hone _ _ (by decide) (hone _ _ (by decide) .nil)

/-- `"a\r\r\n"`: the second CR ends the attempt of the first one and begins none. -/
theorem get_misses_crlf :
    ¬FindsFirst (CoroBuffer.get crlf) crlf.val (⟨⟨[97, 13, 13, 10], []⟩, []⟩ : CoroBuffer File) := by
  rintro ⟨r, hy, hfinds⟩
  rcases CoroBuffer.get_ends crlf (⟨⟨[97, 13, 13, 10], []⟩, []⟩ : CoroBuffer File) with
    ⟨r', hy', hmeets⟩
  obtain rfl := hy.unique hy'
  have hcalm : Calm (⟨⟨[97, 13, 13, 10], []⟩, []⟩ : CoroBuffer File) := fun e => List.not_mem_nil
  have hfalse := (hfinds.found (by decide)).1
  have htrue := (hmeets.calm hcalm).2
  cases htrue.symm.trans hfalse

-- A message that ends with a blank line: "x\r\n\r\n.\r\n".
example : (getCut [13, 10, 46, 13, 10] ⟨0, by decide⟩ [120, 13, 10, 13, 10, 46, 13, 10]).ret = true :=
  rfl

end Coropp
