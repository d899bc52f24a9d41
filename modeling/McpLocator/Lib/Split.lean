import Mathlib.Data.List.Basic

namespace McpLocator.Split

/-!
# Splitting at separators

What `List.splitOnP` cuts a list into, putting pieces together again, and counting them.
-/

variable {α : Type} {isSep : α → Bool} {xs : List α}

/-- A part has no separator in it. -/
theorem not_isSep_of_mem_splitOnP {part : List α} (h : part ∈ xs.splitOnP isSep) :
    ∀ c ∈ part, isSep c = false := by
  induction xs generalizing part with
  | nil =>
    rw [List.splitOnP_nil, List.mem_singleton] at h
    exact h ▸ nofun
  | cons c xs ih =>
    rw [List.splitOnP_cons_eq_if_modifyHead] at h
    split at h
    · rcases List.mem_cons.mp h with rfl | h
      · nofun
      · exact ih h
    · rename_i hc
      cases hs : xs.splitOnP isSep with
      | nil => exact absurd hs (List.splitOnP_ne_nil _ xs)
      | cons first rest =>
        rw [hs] at h
        rcases List.mem_cons.mp h with rfl | h
        · exact List.forall_mem_cons.mpr ⟨by simpa using hc, ih (by simp [hs])⟩
        · exact ih (by simp [hs, h])

/-- Whatever is no separator is in a part. -/
theorem exists_mem_splitOnP {u : α} (hu : u ∈ xs) (hne : isSep u = false) :
    ∃ part ∈ xs.splitOnP isSep, u ∈ part := by
  induction xs with
  | nil => exact absurd hu List.not_mem_nil
  | cons c xs ih =>
    rw [List.splitOnP_cons_eq_if_modifyHead]
    split
    · rename_i hc
      rcases List.mem_cons.mp hu with rfl | hu
      · rw [hne] at hc
        exact absurd hc nofun
      · obtain ⟨part, hpart, hmem⟩ := ih hu
        exact ⟨part, List.mem_cons_of_mem _ hpart, hmem⟩
    · cases hs : xs.splitOnP isSep with
      | nil => exact absurd hs (List.splitOnP_ne_nil _ xs)
      | cons first rest =>
        rcases List.mem_cons.mp hu with rfl | hu
        · exact ⟨u :: first, List.mem_cons_self, List.mem_cons_self⟩
        · obtain ⟨part, hpart, hmem⟩ := ih hu
          rw [hs] at hpart
          rcases List.mem_cons.mp hpart with rfl | hpart
          · exact ⟨c :: part, List.mem_cons_self, List.mem_cons_of_mem _ hmem⟩
          · exact ⟨part, List.mem_cons_of_mem _ hpart, hmem⟩

/-- What stands before a list without a separator goes into its first part. -/
theorem splitOn_append_of_not_mem [BEq α] [LawfulBEq α] {sep : α} {front : List α} (h : sep ∉ front)
    (xs : List α) : (front ++ xs).splitOn sep = (xs.splitOn sep).modifyHead (front ++ ·) := by
  induction front with
  | nil =>
    rw [List.nil_append]
    cases xs.splitOn sep <;> rfl
  | cons c front ih =>
    rw [List.mem_cons, not_or] at h
    have hne : (c == sep) = false := beq_eq_false_iff_ne.mpr (Ne.symm h.1)
    rw [List.cons_append, List.splitOn_cons_eq_if_modifyHead, hne, ih h.2, List.modifyHead_modifyHead]
    rfl

/-- Parts that were put together with a separator are found again. -/
theorem splitOnP_intercalate {sep : α} (hsep : isSep sep = true) {parts : List (List α)}
    (hne : parts ≠ []) (h : ∀ part ∈ parts, ∀ c ∈ part, isSep c = false) :
    ([sep].intercalate parts).splitOnP isSep = parts := by
  induction parts with
  | nil => exact absurd rfl hne
  | cons part parts ih =>
    rw [List.forall_mem_cons] at h
    cases parts with
    | nil =>
      rw [List.intercalate_singleton]
      exact List.splitOnP_eq_singleton h.1
    | cons next parts =>
      rw [List.intercalate_cons_cons, List.append_assoc, List.singleton_append,
        List.splitOnP_append_cons_of_forall_mem h.1 _ hsep, ih (by simp) h.2]

/-- A character that only the glue has, and once, is there between any two parts. -/
theorem count_intercalate [BEq α] [LawfulBEq α] {glue : List α} {c : α} (hglue : glue.count c = 1)
    {parts : List (List α)} (h : ∀ part ∈ parts, c ∉ part) :
    (glue.intercalate parts).count c = parts.length - 1 := by
  induction parts with
  | nil => simp
  | cons part parts ih =>
    rw [List.forall_mem_cons] at h
    cases parts with
    | nil =>
      rw [List.intercalate_singleton]
      exact List.count_eq_zero.mpr h.1
    | cons next parts =>
      rw [List.intercalate_cons_cons, List.count_append, List.count_append, hglue,
        List.count_eq_zero.mpr h.1, ih h.2]
      simp only [List.length_cons]
      omega

end McpLocator.Split
