import Coropp.SmtpEnvelope

/-!
# `find_email_addr`

The address of a command line is what stands between its first '<' and its last '>'.  The function
takes the position of the '>' for a length, and returns one less than the address has characters.
-/

namespace Coropp

/-- `addr` stands between the first '<' of the line and its last '>'. -/
def Bracketed (line addr : Bytes) : Prop :=
  ∃ pre post, line = pre ++ 60 :: (addr ++ 62 :: post) ∧ 60 ∉ pre ∧ 62 ∉ post

/-- The subtractions of `find_email_addr`, on `size_type`. -/
def emailSubtractions (line : Bytes) : List (Nat × Nat) :=
  match findFirstOf [60] line, findLastOf [62] line with
  | some i, some j => [(j, 1), (j, i), (sizeSub j i, 2)]
  | _, _ => []

/-- What `find_email_addr (result, line)` is there for: the address and its length, or nothing. -/
structure Extracts (result line : Bytes) : Prop where
  found : ∀ addr, Bracketed line addr → findEmailAddr result line = (addr, addr.length)
  missing : (∀ addr, ¬Bracketed line addr) → findEmailAddr result line = (result, 0)
  noWrap : ∀ x ∈ emailSubtractions line, x.2 ≤ x.1

section

variable {chars s : Bytes}

theorem findFirstOf_none_iff : findFirstOf chars s = none ↔ ∀ x ∈ s, x ∉ chars := by
  induction s with
  | nil => simp [findFirstOf]
  | cons x s ih =>
    rw [findFirstOf, List.forall_mem_cons, ← ih]
    split
    · rename_i hx
      exact iff_of_false (Option.some_ne_none 0) fun hnot => hnot.1 hx
    · rename_i hx
      rw [Option.map_eq_none_iff, and_iff_right hx]

theorem exists_of_findFirstOf {i : Nat} (h : findFirstOf chars s = some i) :
    ∃ pre x post, s = pre ++ x :: post ∧ pre.length = i ∧ x ∈ chars ∧ ∀ y ∈ pre, y ∉ chars := by
  induction s generalizing i with
  | nil => cases h
  | cons x s ih =>
    rw [findFirstOf] at h
    split at h
    · rename_i hx
      obtain rfl := Option.some.inj h
      exact ⟨[], x, s, rfl, rfl, hx, fun _ hy => absurd hy List.not_mem_nil⟩
    · rename_i hx
      rcases Option.map_eq_some_iff.mp h with ⟨k, hk, rfl⟩
      rcases ih hk with ⟨pre, y, post, rfl, hlen, hy, hpre⟩
      exact ⟨x :: pre, y, post, rfl, congrArg (· + 1) hlen, hy, List.forall_mem_cons.mpr ⟨hx, hpre⟩⟩

end

variable {line addr : Bytes}

theorem Bracketed.mem (h : Bracketed line addr) : 60 ∈ line ∧ 62 ∈ line := by
  rcases h with ⟨pre, post, rfl, -, -⟩
  simp

-- A first '<' before a last '>' has an address after it.
theorem bracketed_of_lt {i j : Nat} (hfirst : findFirstOf [60] line = some i)
    (hlast : findLastOf [62] line = some j) (hlt : i < j) :
    ∃ addr, Bracketed line addr ∧ addr.length = j - i - 1 := by
  rcases exists_of_findFirstOf hfirst with ⟨pre, x, rest, rfl, rfl, hx, hpre⟩
  rcases exists_of_findLastOf hlast with ⟨front, y, post, hline, rfl, hy, hpost⟩
  obtain rfl := List.mem_singleton.mp hx
  obtain rfl := List.mem_singleton.mp hy
  rcases List.append_eq_append_iff.mp hline with ⟨mid, rfl, hmid⟩ | ⟨mid, rfl, -⟩
  · cases mid with
    | nil =>
      rw [List.append_nil] at hlt
      omega
    | cons z addr =>
      obtain ⟨rfl, rfl⟩ := List.cons.inj hmid
      refine ⟨addr, ⟨pre, post, rfl, ?_, ?_⟩, ?_⟩
      · exact fun hmem => hpre 60 hmem (.head _)
      · exact fun hmem => hpost 62 hmem (.head _)
      · rw [List.length_append, List.length_cons]
        omega
  · rw [List.length_append] at hlt
    omega

-- The number returned is never the length of the address.
theorem not_extracts {result : Bytes} {i j : Nat} (hfirst : findFirstOf [60] line = some i)
    (hlast : findLastOf [62] line = some j) : ¬Extracts result line := by
  intro h
  have hsubs : emailSubtractions line = [(j, 1), (j, i), (sizeSub j i, 2)] := by
    rw [emailSubtractions, hfirst, hlast]
  have hle : i ≤ j := h.noWrap (j, i) (by simp [hsubs])
  have htwo : 2 ≤ sizeSub j i := h.noWrap (sizeSub j i, 2) (by simp [hsubs])
  rw [sizeSub_of_le hle] at htwo
  rcases bracketed_of_lt hfirst hlast (by omega) with ⟨addr, hbracketed, hlen⟩
  have hcount := congrArg Prod.snd (h.found addr hbracketed)
  rw [findEmailAddr_found result hfirst hlast] at hcount
  dsimp only at hcount
  rw [sizeSub_of_le hle, sizeSub_of_le htwo] at hcount
  omega

-- Without one of the brackets there is nothing to extract.
theorem extracts_of_missing {result : Bytes} (hmiss : ¬(60 ∈ line ∧ 62 ∈ line))
    (hfind : findFirstOf [60] line = none ∨ findLastOf [62] line = none) :
    Extracts result line where
  found _ h := absurd h.mem hmiss
  missing _ := by
    unfold findEmailAddr
    rcases hfind with hnone | hnone
    · rw [hnone]
    · rw [hnone]
      cases findFirstOf [60] line <;> rfl
  noWrap := by
    unfold emailSubtractions
    rcases hfind with hnone | hnone
    · rw [hnone]
      exact fun _ hx => absurd hx List.not_mem_nil
    · rw [hnone]
      cases findFirstOf [60] line <;> exact fun _ hx => absurd hx List.not_mem_nil

/-- `find_email_addr` does what it is there for if and only if one of the brackets is missing. -/
theorem findEmailAddr_extracts_iff (result line : Bytes) :
    Extracts result line ↔ 60 ∉ line ∨ 62 ∉ line := by
  cases hfirst : findFirstOf [60] line with
  | none =>
    have hnot : 60 ∉ line := fun hmem => findFirstOf_none_iff.mp hfirst 60 hmem (.head _)
    exact iff_of_true (extracts_of_missing (fun h => hnot h.1) (.inl hfirst)) (.inl hnot)
  | some i =>
    cases hlast : findLastOf [62] line with
    | none =>
      have hnot : 62 ∉ line := fun hmem => findLastOf_none_iff.mp hlast 62 hmem (.head _)
      exact iff_of_true (extracts_of_missing (fun h => hnot h.2) (.inr hlast)) (.inr hnot)
    | some j =>
      apply iff_of_false (not_extracts hfirst hlast)
      rcases exists_of_findFirstOf hfirst with ⟨pre, x, rest, hline, -, hx, -⟩
      rcases exists_of_findLastOf hlast with ⟨front, y, post, hline', -, hy, -⟩
      rintro (hnot | hnot)
      · rw [hline, List.mem_singleton.mp hx] at hnot
        exact hnot (List.mem_append_right _ (.head _))
      · rw [hline', List.mem_singleton.mp hy] at hnot
        exact hnot (List.mem_append_right _ (.head _))

/-- `RCPT TO:<bob>`, with its CR and LF: what comes out is `bob>` with the CR and LF, and 2. -/
theorem findEmailAddr_overlong :
    let line : Bytes := [82, 67, 80, 84, 32, 84, 79, 58, 60, 98, 111, 98, 62, 13, 10]
    Bracketed line [98, 111, 98] ∧
      findEmailAddr [] line = ([98, 111, 98, 62, 13, 10], 2) ∧ ¬Extracts [] line := by
  refine ⟨⟨[82, 67, 80, 84, 32, 84, 79, 58], [13, 10], rfl, by decide, by decide⟩, by decide, ?_⟩
  exact not_extracts (i := 8) (j := 12) (by decide) (by decide)

end Coropp
