import Mathlib.Data.List.Basic
import Mathlib.Logic.Function.Basic

/-!
# Windows of a word memory

Reading and writing runs of consecutive words of a memory `Nat → W`.
-/

namespace Words

variable {W : Type*}

/-- The `n` words from address `a` on. -/
def window (mem : Nat → W) (a n : Nat) : List W := (List.range' a n).map mem

/-- Write the words `ws` from address `a` on (`memcpy`). -/
def blit (mem : Nat → W) (a : Nat) (ws : List W) : Nat → W :=
  fun i => if a ≤ i then (ws[i - a]?).getD (mem i) else mem i

@[simp] theorem window_length (mem : Nat → W) (a n : Nat) : (window mem a n).length = n := by
  rw [window, List.length_map, List.length_range']

theorem window_succ (mem : Nat → W) (a n : Nat) :
    window mem a (n + 1) = mem a :: window mem (a + 1) n := by
  rw [window, List.range'_succ, List.map_cons, window]

theorem window_add (mem : Nat → W) (a m n : Nat) :
    window mem a (m + n) = window mem a m ++ window mem (a + m) n := by
  rw [window, window, window, ← List.map_append, List.range'_append_1]

theorem window_congr {mem mem' : Nat → W} {a n : Nat}
    (h : ∀ i, a ≤ i → i < a + n → mem i = mem' i) : window mem a n = window mem' a n := by
  apply List.map_congr_left
  intro i hi
  have hrange := List.mem_range'_1.mp hi
  exact h i hrange.1 hrange.2

theorem window_update_outside {mem : Nat → W} {a n i : Nat} {w : W} (h : i < a ∨ a + n ≤ i) :
    window (Function.update mem i w) a n = window mem a n := by
  apply window_congr
  intro j hlo hhi
  exact Function.update_of_ne (by omega) _ _

theorem blit_of_lt {mem : Nat → W} {a i : Nat} {ws : List W} (h : i < a) :
    blit mem a ws i = mem i := by
  rw [blit, if_neg (by omega)]

theorem blit_cons (mem : Nat → W) (a : Nat) (w : W) (ws : List W) :
    blit mem a (w :: ws) = Function.update (blit mem (a + 1) ws) a w := by
  funext i
  by_cases hi : i = a
  · subst hi
    rw [Function.update_self, blit, if_pos (Nat.le_refl i), Nat.sub_self]
    rfl
  · rw [Function.update_of_ne hi]
    by_cases hle : a ≤ i
    · have hsub : i - a = i - (a + 1) + 1 := by omega
      rw [blit, blit, if_pos hle, if_pos (by omega), hsub, List.getElem?_cons_succ]
    · rw [blit, blit, if_neg hle, if_neg (by omega)]

-- What was written can be read back.
theorem window_blit (mem : Nat → W) (a : Nat) (ws : List W) :
    window (blit mem a ws) a ws.length = ws := by
  induction ws generalizing a with
  | nil => rfl
  | cons w ws ih =>
    rw [List.length_cons, window_succ, blit_cons, Function.update_self]
    rw [window_update_outside (.inl (Nat.lt_succ_self a)), ih (a + 1)]

theorem window_blit_below {mem : Nat → W} {a b n : Nat} {ws : List W} (h : a + n ≤ b) :
    window (blit mem b ws) a n = window mem a n := by
  apply window_congr
  intro i _ hhi
  exact blit_of_lt (by omega)

end Words
