import Mathlib.Data.List.Basic

/-!
# Streams that are cut into pieces

A cutter takes the first piece off the symbols that have come, once it is complete.  What comes
after a piece does not change it, so however a stream arrives, its pieces are the same.
-/

namespace Pieces

variable {α : Type*}

structure Cutter (α : Type*) where
  /-- The first piece and what comes after it; `none` as long as it is not complete. -/
  cut : List α → Option (List α × List α)
  whole : ∀ {xs p r : List α}, cut xs = some (p, r) → p ++ r = xs
  nonempty : ∀ {xs p r : List α}, cut xs = some (p, r) → p ≠ []
  /-- A piece is complete as soon as its last symbol has come. -/
  early : ∀ {xs p r : List α}, cut xs = some (p, r) → cut p = some (p, [])
  more : ∀ {xs p r : List α} (ys : List α), cut xs = some (p, r) → cut (xs ++ ys) = some (p, r ++ ys)

variable (c : Cutter α)

/-- `xs` are the pieces `ps`, and then `r`, which holds no complete piece. -/
inductive Splits : List α → List (List α) → List α → Prop
  | done {xs : List α} (h : c.cut xs = none) : Splits xs [] xs
  | piece {xs p r rest : List α} {ps : List (List α)} (h : c.cut xs = some (p, r))
      (hr : Splits r ps rest) : Splits xs (p :: ps) rest

/-- One complete piece. -/
def IsPiece (p : List α) : Prop := c.cut p = some (p, [])

variable {c} {xs ys p r r' : List α} {ps qs : List (List α)}

theorem IsPiece.cut_append (h : IsPiece c p) (ys : List α) : c.cut (p ++ ys) = some (p, ys) :=
  c.more ys h

-- A part of a piece is not yet one.
theorem IsPiece.unfinished (h : IsPiece c p) (hpre : xs <+: p) (hne : xs ≠ p) : c.cut xs = none := by
  rcases hpre with ⟨ys, rfl⟩
  cases hcut : c.cut xs with
  | none => rfl
  | some pr =>
    rcases pr with ⟨q, r⟩
    have hrest := (Prod.mk.inj (Option.some.inj ((c.more ys hcut).symm.trans h))).2
    have hys : ys = [] := (List.append_eq_nil_iff.mp hrest).2
    rw [hys, List.append_nil] at hne
    exact absurd rfl hne

theorem Splits.flatten (h : Splits c xs ps r) : ps.flatten ++ r = xs := by
  induction h with
  | done _ => rfl
  | @piece xs p r rest ps h hr ih =>
    rw [List.flatten_cons, List.append_assoc, ih]
    exact c.whole h

theorem Splits.pieces (h : Splits c xs ps r) : ∀ p ∈ ps, IsPiece c p := by
  induction h with
  | done _ => exact fun _ hp => absurd hp List.not_mem_nil
  | piece h hr ih => exact List.forall_mem_cons.mpr ⟨c.early h, ih⟩

theorem Splits.unfinished (h : Splits c xs ps r) : c.cut r = none := by
  induction h with
  | done h => exact h
  | piece h hr ih => exact ih

-- There is one way to split.
theorem Splits.unique (h : Splits c xs ps r) (h' : Splits c xs qs r') : ps = qs ∧ r = r' := by
  induction h generalizing qs with
  | done hnone =>
    cases h' with
    | done _ => exact ⟨rfl, rfl⟩
    | piece hsome _ => cases hnone.symm.trans hsome
  | piece hsome hr ih =>
    cases h' with
    | done hnone => cases hnone.symm.trans hsome
    | piece hsome' hr' =>
      obtain ⟨rfl, rfl⟩ := Prod.mk.inj (Option.some.inj (hsome.symm.trans hsome'))
      rcases ih hr' with ⟨rfl, rfl⟩
      exact ⟨rfl, rfl⟩

-- Complete pieces before a split are its first pieces.
theorem Splits.append_left (hps : ∀ p ∈ ps, IsPiece c p) (h : Splits c ys qs r) :
    Splits c (ps.flatten ++ ys) (ps ++ qs) r := by
  induction ps with
  | nil => exact h
  | cons p ps ih =>
    rcases List.forall_mem_cons.mp hps with ⟨hp, hps⟩
    rw [List.flatten_cons, List.append_assoc, List.cons_append]
    exact .piece (hp.cut_append _) (ih hps)

theorem splits_of_pieces (hps : ∀ p ∈ ps, IsPiece c p) (hr : c.cut r = none) :
    Splits c (ps.flatten ++ r) ps r := by
  have h := Splits.append_left hps (.done hr)
  rw [List.append_nil] at h
  exact h

-- What comes later adds pieces, and takes none away.
theorem Splits.more (h : Splits c xs ps r) (h' : Splits c (r ++ ys) qs r') :
    Splits c (xs ++ ys) (ps ++ qs) r' := by
  rw [← h.flatten, List.append_assoc]
  exact h'.append_left h.pieces

theorem exists_splits (c : Cutter α) (xs : List α) : ∃ ps r, Splits c xs ps r := by
  induction hn : xs.length using Nat.strongRecOn generalizing xs with
  | ind n ih =>
    cases hcut : c.cut xs with
    | none => exact ⟨[], xs, .done hcut⟩
    | some pr =>
      rcases pr with ⟨p, r⟩
      have hlen := congrArg List.length (c.whole hcut)
      have hpos := List.length_pos_of_ne_nil (c.nonempty hcut)
      rw [List.length_append] at hlen
      rcases ih r.length (by omega) r rfl with ⟨ps, rest, hr⟩
      exact ⟨p :: ps, rest, .piece hcut hr⟩

-- The pieces of a first part of a stream are the first of its pieces.
theorem Splits.prefix (h : Splits c xs ps r) (h' : Splits c ys qs r') (hpre : xs <+: ys) :
    ps <+: qs := by
  rcases hpre with ⟨zs, rfl⟩
  rcases exists_splits c (r ++ zs) with ⟨more, rest, hmore⟩
  rcases (h.more hmore).unique h' with ⟨rfl, -⟩
  exact List.prefix_append _ _

end Pieces
