import Mathlib.Data.List.Induction

/-!
# Items with a length in front

A list of items as one list of symbols: each item comes after a symbol that says how long it is.
How a length is put into one symbol and read back is a parameter; nothing says that every length
fits.
-/

namespace Framing

variable {α : Type*}

/-- A length as one symbol. -/
structure Header (α : Type*) where
  put : Nat → α
  get : α → Nat

namespace Header

variable (h : Header α)

/-- The symbol put in front of this item is read back as its length. -/
def Fits (item : List α) : Prop := h.get (h.put item.length) = item.length

def frame (item : List α) : List α := h.put item.length :: item

def encode (items : List (List α)) : List α := items.flatMap h.frame

/-- Take a length and as many symbols, for as long as there are any.  `none` where the symbols end
    inside an item. -/
def decode : List α → Option (List (List α))
  | [] => some []
  | x :: xs =>
    if h.get x ≤ xs.length then
      (decode (xs.drop (h.get x))).map (xs.take (h.get x) :: ·)
    else none
termination_by xs => xs.length
decreasing_by
  rw [List.length_drop, List.length_cons]
  omega

@[simp] theorem encode_nil : h.encode [] = [] := rfl

theorem encode_cons (item : List α) (items : List (List α)) :
    h.encode (item :: items) = h.put item.length :: (item ++ h.encode items) := rfl

theorem encode_append (items more : List (List α)) :
    h.encode (items ++ more) = h.encode items ++ h.encode more :=
  List.flatMap_append

@[simp] theorem decode_nil : h.decode [] = some [] := by
  rw [decode]

theorem decode_cons_some {x : α} {xs : List α} {items : List (List α)}
    (hd : h.decode (x :: xs) = some items) :
    ∃ rest, items = xs.take (h.get x) :: rest ∧ h.get x ≤ xs.length := by
  rw [decode] at hd
  split at hd
  · rename_i hle
    rcases Option.map_eq_some_iff.mp hd with ⟨rest, -, rfl⟩
    exact ⟨rest, rfl, hle⟩
  · cases hd

variable {h}

theorem decode_frame {item : List α} (hfits : h.Fits item) (xs : List α) :
    h.decode (h.frame item ++ xs) = (h.decode xs).map (item :: ·) := by
  have hlen : h.get (h.put item.length) = item.length := hfits
  show h.decode (h.put item.length :: (item ++ xs)) = _
  rw [decode, hlen, List.length_append, if_pos (Nat.le_add_right _ _), List.drop_left,
    List.take_left]

-- An item whose length does not fit comes out with another length.
theorem decode_frame_unfit {item : List α} (hunfit : ¬h.Fits item) (xs : List α)
    (items : List (List α)) : h.decode (h.frame item ++ xs) ≠ some (item :: items) := by
  intro hd
  rcases h.decode_cons_some hd with ⟨rest, hitems, hle⟩
  have hlen := congrArg List.length (List.cons.inj hitems).1
  rw [List.length_take, Nat.min_eq_left hle] at hlen
  exact hunfit hlen.symm

/-- Decoding gives the items back if and only if the length of each of them fits. -/
theorem decode_encode_iff (items : List (List α)) :
    h.decode (h.encode items) = some items ↔ ∀ item ∈ items, h.Fits item := by
  induction items with
  | nil => exact iff_of_true h.decode_nil fun _ hmem => absurd hmem List.not_mem_nil
  | cons item items ih =>
    rw [List.forall_mem_cons, ← ih]
    show h.decode (h.frame item ++ h.encode items) = some (item :: items) ↔ _
    by_cases hfits : h.Fits item
    · rw [decode_frame hfits, and_iff_right hfits, Option.map_eq_some_iff]
      constructor
      · rintro ⟨rest, hrest, heq⟩
        rw [hrest, (List.cons.inj heq).2]
      · intro hd
        exact ⟨items, hd, rfl⟩
    · exact iff_of_false (decode_frame_unfit hfits _ items) fun hboth => hfits hboth.1

end Header

end Framing
