import Mathlib.Tactic.Linarith
import Mathlib.Logic.Function.Basic

/-!
# Maps

What inserting and erasing do to the entries of an ordered map, up to their order, and how an entry
of an updated function or list came there.
-/

namespace Maps

theorem update_eq {α β : Type*} [DecidableEq α] {f : α → β} {a b : α} {v w : β}
    (h : Function.update f a v b = w) : b = a ∧ v = w ∨ b ≠ a ∧ f b = w := by
  by_cases hb : b = a
  · subst hb
    rw [Function.update_self] at h
    exact .inl ⟨rfl, h⟩
  · rw [Function.update_of_ne hb] at h
    exact .inr ⟨hb, h⟩

theorem set_eq {α : Type*} {l : List α} {j k : Nat} {a b : α} (h : (l.set k a)[j]? = some b) :
    j = k ∧ a = b ∨ j ≠ k ∧ l[j]? = some b := by
  by_cases hjk : j = k
  · subst hjk
    have hlen := (List.getElem?_eq_some_iff.mp h).1
    rw [List.length_set] at hlen
    rw [List.getElem?_set_self hlen] at h
    exact .inl ⟨rfl, Option.some.inj h⟩
  · rw [List.getElem?_set_ne (Ne.symm hjk)] at h
    exact .inr ⟨hjk, h⟩

-- What replacing an item does to a sum over a list.
theorem sum_set {α : Type*} {l : List α} {k : Nat} {a : α} (h : l[k]? = some a) (b : α)
    (f : α → Nat) : ((l.set k b).map f).sum + f a = (l.map f).sum + f b := by
  induction l generalizing k with
  | nil => cases h
  | cons x l ih =>
    cases k with
    | zero =>
      obtain rfl := Option.some.inj h
      simp only [List.set_cons_zero, List.map_cons, List.sum_cons]
      omega
    | succ k =>
      have hsum := ih h
      simp only [List.set_cons_succ, List.map_cons, List.sum_cons]
      omega

theorem countP_set {α : Type*} {l : List α} {k : Nat} {a : α} (h : l[k]? = some a) (b : α)
    (p : α → Bool) : (l.set k b).countP p + (p a).toNat = l.countP p + (p b).toNat := by
  have hsum := sum_set h b fun x => (p x).toNat
  have hcount : ∀ l : List α, l.countP p = (l.map fun x => (p x).toNat).sum := by
    intro l
    induction l with
    | nil => rfl
    | cons x l ih =>
      rw [List.countP_cons, List.map_cons, List.sum_cons, ih, Nat.add_comm]
      cases p x <;> rfl
  rw [hcount, hcount]
  exact hsum

theorem eq_of_countP_le {α : Type*} {l : List α} {p : α → Bool} (h : l.countP p ≤ 1) {a b : α}
    (ha : a ∈ l ∧ p a = true) (hb : b ∈ l ∧ p b = true) : a = b := by
  rw [List.countP_eq_length_filter] at h
  rw [← List.mem_filter] at ha hb
  generalize l.filter p = found at h ha hb
  match found, h with
  | [x], _ => rw [List.mem_singleton.mp ha, List.mem_singleton.mp hb]

theorem forall_mem_set {α : Type*} {p : α → Prop} {l : List α} {k : Nat} {y : α}
    (hall : ∀ x ∈ l, p x) (hy : p y) : ∀ x ∈ l.set k y, p x := by
  intro x hx
  rcases List.mem_or_eq_of_mem_set hx with hold | rfl
  · exact hall x hold
  · exact hy

theorem exists_mem_set {α : Type*} {l : List α} {k : Nat} {a b : α} {p : α → Prop}
    (h : l[k]? = some a) (hab : p a → p b) :
    (∃ x ∈ l.set k b, p x) ↔ (∃ x ∈ l, p x) ∨ p b := by
  have hk := (List.getElem?_eq_some_iff.mp h).1
  constructor
  · rintro ⟨x, hx, hp⟩
    rcases List.mem_or_eq_of_mem_set hx with hold | rfl
    · exact .inl ⟨x, hold, hp⟩
    · exact .inr hp
  · have hnew : b ∈ l.set k b := List.mem_set hk b
    rintro (⟨x, hx, hp⟩ | hp)
    · rcases List.mem_iff_getElem?.mp hx with ⟨j, hj⟩
      by_cases hjk : j = k
      · rw [hjk, h] at hj
        obtain rfl := Option.some.inj hj
        exact ⟨b, hnew, hab hp⟩
      · refine ⟨x, ?_, hp⟩
        apply List.mem_of_getElem?
        rw [List.getElem?_set_ne (Ne.symm hjk)]
        exact hj
    · exact ⟨b, hnew, hp⟩

/-! ## Ordered maps as lists of entries -/

variable {α β : Type*} [Ord α] [Std.TransOrd α] [Std.LawfulEqOrd α]

theorem getElem?_insert_eq [DecidableEq α] (m : Std.TreeMap α β) (k a : α) (v : β) :
    (m.insert k v)[a]? = if a = k then some v else m[a]? := by
  rw [Std.TreeMap.getElem?_insert]
  simp only [Std.LawfulEqOrd.compare_eq_iff_eq, eq_comm (a := a)]

theorem getElem?_erase_eq [DecidableEq α] (m : Std.TreeMap α β) (k a : α) :
    (m.erase k)[a]? = if a = k then none else m[a]? := by
  rw [Std.TreeMap.getElem?_erase]
  simp only [Std.LawfulEqOrd.compare_eq_iff_eq, eq_comm (a := a)]

theorem mem_toList {m : Std.TreeMap α β} {k : α} {v : β} :
    (k, v) ∈ m.toList ↔ m[k]? = some v :=
  Std.TreeMap.mem_toList_iff_getElem?_eq_some

-- No two entries share a key.
theorem toList_keys_ne (m : Std.TreeMap α β) :
    m.toList.Pairwise fun a b => a.1 ≠ b.1 := by
  apply m.distinct_keys_toList.imp
  intro a b hne heq
  exact hne (Std.LawfulEqOrd.compare_eq_iff_eq.mpr heq)

theorem toList_nodup (m : Std.TreeMap α β) : m.toList.Nodup := by
  apply (toList_keys_ne m).imp
  intro a b hne heq
  exact hne (congrArg Prod.fst heq)

-- Erasing a key takes away its entry.
theorem toList_perm_erase {m : Std.TreeMap α β} {k : α} {v : β} (h : m[k]? = some v) :
    m.toList.Perm ((k, v) :: (m.erase k).toList) := by
  classical
  have hnot : (k, v) ∉ (m.erase k).toList := by
    rw [mem_toList, getElem?_erase_eq, if_pos rfl]
    simp
  apply (List.perm_ext_iff_of_nodup (toList_nodup m)
    (List.nodup_cons.mpr ⟨hnot, toList_nodup _⟩)).mpr
  rintro ⟨a, b⟩
  rw [List.mem_cons, mem_toList, mem_toList, getElem?_erase_eq]
  by_cases ha : a = k
  · rw [ha, h, if_pos rfl]
    simp [eq_comm]
  · rw [if_neg ha]
    simp [ha]

-- Inserting a new key adds its entry.
theorem toList_perm_insert_new {m : Std.TreeMap α β} {k : α} (v : β) (h : m[k]? = none) :
    (m.insert k v).toList.Perm ((k, v) :: m.toList) := by
  classical
  have hnot : (k, v) ∉ m.toList := by
    rw [mem_toList, h]
    simp
  apply (List.perm_ext_iff_of_nodup (toList_nodup _)
    (List.nodup_cons.mpr ⟨hnot, toList_nodup m⟩)).mpr
  rintro ⟨a, b⟩
  rw [List.mem_cons, mem_toList, mem_toList, getElem?_insert_eq]
  by_cases ha : a = k
  · rw [ha, h, if_pos rfl]
    simp [eq_comm]
  · rw [if_neg ha]
    simp [ha]

-- Inserting a key that is there replaces its entry.
theorem toList_perm_insert_old {m : Std.TreeMap α β} {k : α} {old : β} (v : β)
    (h : m[k]? = some old) :
    ∃ rest, m.toList.Perm ((k, old) :: rest) ∧ (m.insert k v).toList.Perm ((k, v) :: rest) := by
  classical
  refine ⟨(m.erase k).toList, toList_perm_erase h, ?_⟩
  have hself : (m.insert k v)[k]? = some v := by
    rw [getElem?_insert_eq, if_pos rfl]
  apply (toList_perm_erase hself).trans
  apply List.Perm.cons
  apply (List.perm_ext_iff_of_nodup (toList_nodup _) (toList_nodup _)).mpr
  rintro ⟨a, b⟩
  rw [mem_toList, mem_toList, getElem?_erase_eq, getElem?_erase_eq, getElem?_insert_eq]
  by_cases ha : a = k
  · rw [if_pos ha, if_pos ha]
  · rw [if_neg ha, if_neg ha, if_neg ha]

end Maps
