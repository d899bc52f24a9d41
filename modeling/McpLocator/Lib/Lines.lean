import Mathlib.Data.List.Basic

namespace McpLocator.Lines

/-!
# Lines

* `drain` — the complete lines of a text; `drain_append` says that they may be cut off part by part.
* `asLines` — texts, a line each; `drain_asLines`.
-/

/-- The complete lines at the front of a buffer, and what is left. -/
def drain (buffer : List Char) : List (List Char) × List Char :=
  let index := buffer.idxOf '\n'
  if index < buffer.length then
    let (lines, rest) := drain (buffer.drop (index + 1))
    (buffer.take index :: lines, rest)
  else ([], buffer)
termination_by buffer.length
decreasing_by
  rw [List.length_drop]
  omega

theorem drain_of_not_mem {buffer : List Char} (h : '\n' ∉ buffer) : drain buffer = ([], buffer) := by
  rw [drain, List.idxOf_eq_length h]
  exact if_neg (Nat.lt_irrefl _)

theorem drain_line {line : List Char} (h : '\n' ∉ line) (rest : List Char) :
    drain (line ++ '\n' :: rest) = (line :: (drain rest).1, (drain rest).2) := by
  have hindex : (line ++ '\n' :: rest).idxOf '\n' = line.length := by
    rw [List.idxOf_append, if_neg h, List.idxOf_cons_self, Nat.zero_add]
  have htake : (line ++ '\n' :: rest).take line.length = line := List.take_left
  have hdrop : (line ++ '\n' :: rest).drop (line.length + 1) = rest := by
    rw [← List.drop_drop, List.drop_left]
    rfl
  rw [drain]
  simp only [hindex, htake, hdrop]
  exact if_pos (by simp)

/-- **Cutting lines off part by part.** -/
theorem drain_append (a b : List Char) : drain (a ++ b) =
    ((drain a).1 ++ (drain ((drain a).2 ++ b)).1, (drain ((drain a).2 ++ b)).2) := by
  -- the lines of the first part come off one by one
  induction hn : a.length using Nat.strongRecOn generalizing a with
  | _ n ih =>
    by_cases h : '\n' ∈ a
    · obtain ⟨line, rest, rfl, hline⟩ := List.eq_append_cons_of_mem h
      have hlt : rest.length < n := by
        rw [← hn, List.length_append, List.length_cons]
        omega
      rw [List.append_assoc, List.cons_append, drain_line hline, drain_line hline,
        ih rest.length hlt rest rfl]
      rfl
    · rw [drain_of_not_mem h]
      rfl

theorem newline_not_mem_rest (buffer : List Char) : '\n' ∉ (drain buffer).2 := by
  induction hn : buffer.length using Nat.strongRecOn generalizing buffer with
  | _ n ih =>
    by_cases h : '\n' ∈ buffer
    · obtain ⟨line, rest, rfl, hline⟩ := List.eq_append_cons_of_mem h
      rw [drain_line hline]
      refine ih rest.length ?_ rest rfl
      rw [← hn, List.length_append, List.length_cons]
      omega
    · rw [drain_of_not_mem h]
      exact h

/-- Texts, a line each. -/
def asLines (texts : List (List Char)) : List Char := texts.flatMap (· ++ ['\n'])

theorem drain_asLines {texts : List (List Char)} (h : ∀ t ∈ texts, '\n' ∉ t) :
    drain (asLines texts) = (texts, []) := by
  induction texts with
  | nil => exact drain_of_not_mem List.not_mem_nil
  | cons t texts ih =>
    rw [List.forall_mem_cons] at h
    have hcons : asLines (t :: texts) = t ++ '\n' :: asLines texts := by
      rw [asLines, List.flatMap_cons, List.append_assoc]
      rfl
    rw [hcons, drain_line h.1, ih h.2]

end McpLocator.Lines
