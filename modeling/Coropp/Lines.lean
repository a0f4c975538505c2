import Coropp.FirstMatch
import Coropp.Lib.Pieces

/-!
# The lines of a stream

The pieces that one `get` after the other takes, however the stream is read.
-/

namespace Coropp

open Pieces

-- The scan of a stream up to the end of its first delimiter.
theorem scan_take_found {delim xs : Bytes} {matched : Fin delim.length} {i : Nat}
    (h : scan delim matched 0 xs = .found i) :
    i < xs.length ∧ scan delim matched 0 (xs.take (i + 1)) = .found i := by
  rcases scan_found h List.suffix_rfl with ⟨k, hik, hk, -⟩
  obtain rfl : i = k := by omega
  refine ⟨hk, ?_⟩
  have hlen : (xs.take (i + 1)).length = i + 1 := by
    rw [List.length_take]
    omega
  have hsplit := scan_append delim matched 0 (xs.take (i + 1)) (xs.drop (i + 1))
  rw [List.take_append_drop, h] at hsplit
  cases hscan : scan delim matched 0 (xs.take (i + 1)) with
  | found j =>
    rw [hscan] at hsplit
    exact hsplit.symm
  | passed m =>
    rw [hscan, Scan.goOn, hlen] at hsplit
    rcases scan_found hsplit.symm List.suffix_rfl with ⟨k, hik, -, -⟩
    omega

/-- The pieces of a stream that `get` takes. -/
def Delim.cutter (delim : Delim) : Cutter UInt8 where
  cut xs :=
    match scan delim.val (Delim.start delim) 0 xs with
    | .found i => some (xs.take (i + 1), xs.drop (i + 1))
    | .passed _ => none
  whole {xs p r} h := by
    split at h
    · obtain ⟨rfl, rfl⟩ := Prod.mk.inj (Option.some.inj h)
      exact List.take_append_drop _ xs
    · cases h
  nonempty {xs p r} h := by
    split at h
    · rename_i i hscan
      obtain ⟨rfl, rfl⟩ := Prod.mk.inj (Option.some.inj h)
      have hlt := (scan_take_found hscan).1
      apply List.ne_nil_of_length_pos
      rw [List.length_take]
      omega
    · cases h
  early {xs p r} h := by
    split at h
    · rename_i i hscan
      obtain ⟨rfl, rfl⟩ := Prod.mk.inj (Option.some.inj h)
      rw [(scan_take_found hscan).2]
      dsimp only
      rw [List.take_take, Nat.min_self, List.drop_eq_nil_of_le (List.length_take_le _ _)]
    · cases h
  more {xs p r} ys h := by
    split at h
    · rename_i i hscan
      obtain ⟨rfl, rfl⟩ := Prod.mk.inj (Option.some.inj h)
      have hlt := (scan_take_found hscan).1
      rw [scan_append, hscan]
      dsimp only [Scan.goOn]
      rw [List.take_append_of_le_length (by omega), List.drop_append_of_le_length (by omega)]
    · cases h

theorem Delim.cut_found {delim : Delim} {xs : Bytes} {i : Nat}
    (h : scan delim.val (Delim.start delim) 0 xs = .found i) :
    delim.cutter.cut xs = some (xs.take (i + 1), xs.drop (i + 1)) := by
  show (match scan delim.val (Delim.start delim) 0 xs with | .found i => _ | .passed _ => _) = _
  rw [h]

theorem Delim.cut_passed {delim : Delim} {xs : Bytes} {matched : Fin delim.val.length}
    (h : scan delim.val (Delim.start delim) 0 xs = .passed matched) :
    delim.cutter.cut xs = none := by
  show (match scan delim.val (Delim.start delim) 0 xs with | .found i => _ | .passed _ => _) = _
  rw [h]

-- A piece comes after bytes without one, where a scan goes on over them.
theorem Delim.isPiece_append {delim : Delim} {xs ys : Bytes} {matched : Fin delim.val.length}
    {i : Nat} (hxs : scan delim.val (Delim.start delim) 0 xs = .passed matched)
    (hys : scan delim.val matched 0 ys = .found i) :
    IsPiece delim.cutter (xs ++ ys.take (i + 1)) := by
  have hshift := scan_shift delim.val matched 0 xs.length (ys.take (i + 1))
  rw [(scan_take_found hys).2, Nat.zero_add, Scan.shift] at hshift
  have hscan := scan_append delim.val (Delim.start delim) 0 xs (ys.take (i + 1))
  rw [hxs, Scan.goOn, Nat.zero_add, hshift] at hscan
  have hlen : (xs ++ ys.take (i + 1)).length = i + xs.length + 1 := by
    have hlt := (scan_take_found hys).1
    rw [List.length_append, List.length_take]
    omega
  rw [IsPiece, Delim.cut_found hscan, ← hlen, List.take_length, List.drop_length]

/-! ## Lines without a CR before the last -/

-- Bytes none of which begins a delimiter.
theorem attempts_of_not_mem {delim body : Bytes} (hpos : 0 < delim.length)
    (h : delim[0] ∉ body) : Attempts delim body := by
  induction body with
  | nil => exact .nil
  | cons x body ih =>
    have hx : x ≠ delim[0] := fun hx => h (hx ▸ .head _)
    exact .fail (k := ⟨0, hpos⟩) hx (ih fun hmem => h (.tail _ hmem))

theorem isPiece_line {body : Bytes} (h : 13 ∉ body) : IsPiece crlf.cutter (body ++ [13, 10]) := by
  have hscan : scan crlf.val (Delim.start crlf) 0 (body ++ [13, 10]) =
      .found (0 + body.length + 1) :=
    (scan_attempts (attempts_of_not_mem crlf.property h) crlf.property 0 [13, 10]).trans rfl
  have hlen : (body ++ [13, 10]).length = 0 + body.length + 1 + 1 := by
    rw [List.length_append, Nat.zero_add]
    rfl
  rw [IsPiece, Delim.cut_found hscan, ← hlen, List.take_length, List.drop_length]

end Coropp
