import Mathlib.Data.List.DropRight
import Mathlib.Data.List.Induction

namespace McpLocator.Words

/-!
# White space at the end of a text, word by word

A text is split into words at a separator that counts as white space.

* `trimWords` — words of white space at the end are dropped, and white space at the end of the word
  that is then the last.
* `rdropWhile_eq_iff` — two texts are equal up to white space at the end exactly if their words are.
-/

variable {α : Type} (isSpace : α → Bool)

/-- Drop the white space at the end. -/
def trimWords (words : List (List α)) : List (List α) :=
  match words.reverse.dropWhile (·.all isSpace) with
  | [] => []
  | last :: rest => (last.rdropWhile isSpace :: rest).reverse

variable {isSpace} {words : List (List α)} {w : List α} {sep : α} {xs ys : List α}

theorem trimWords_concat_of_all (h : w.all isSpace = true) :
    trimWords isSpace (words ++ [w]) = trimWords isSpace words := by
  have hdrop : (words ++ [w]).reverse.dropWhile (·.all isSpace) =
      words.reverse.dropWhile (·.all isSpace) := by
    rw [List.reverse_concat, List.dropWhile_cons, if_pos h]
  rw [trimWords, hdrop]
  rfl

theorem trimWords_concat_of_not (h : ¬ w.all isSpace = true) :
    trimWords isSpace (words ++ [w]) = words ++ [w.rdropWhile isSpace] := by
  have hdrop : (words ++ [w]).reverse.dropWhile (·.all isSpace) = w :: words.reverse := by
    rw [List.reverse_concat, List.dropWhile_cons, if_neg h]
  simp only [trimWords, hdrop, List.reverse_cons, List.reverse_reverse]

variable [BEq α] [LawfulBEq α]

/-- A separator at the end is an empty word more. -/
theorem splitOn_concat_self (xs : List α) : (xs ++ [sep]).splitOn sep = xs.splitOn sep ++ [[]] := by
  rw [List.splitOn_append_cons_self, List.splitOn_nil]

/-- Anything else at the end goes into the last word. -/
theorem splitOn_concat_of_ne {c : α} (h : c ≠ sep) (xs : List α) :
    ∃ words w, xs.splitOn sep = words ++ [w] ∧ (xs ++ [c]).splitOn sep = words ++ [w ++ [c]] := by
  have hne : (c == sep) = false := beq_eq_false_iff_ne.mpr h
  induction xs with
  | nil =>
    refine ⟨[], [], by simp, ?_⟩
    rw [List.nil_append, List.splitOn_cons_eq_if_modifyHead, hne, List.splitOn_nil]
    rfl
  | cons x xs ih =>
    obtain ⟨words, w, hxs, hconcat⟩ := ih
    rw [List.cons_append, List.splitOn_cons_eq_if_modifyHead, List.splitOn_cons_eq_if_modifyHead, hxs,
      hconcat]
    split
    · exact ⟨[] :: words, w, rfl, rfl⟩
    · cases words with
      | nil => exact ⟨[], x :: w, rfl, rfl⟩
      | cons first words => exact ⟨(x :: first) :: words, w, rfl, rfl⟩

/-- **White space at the end of a text is white space at the end of its words.** -/
theorem trimWords_splitOn_rdropWhile (sep : α) (xs : List α) :
    trimWords isSpace ((xs.rdropWhile isSpace).splitOn sep) = trimWords isSpace (xs.splitOn sep) := by
  induction xs using List.reverseRecOn with
  | nil => rfl
  | append_singleton xs c ih =>
    by_cases hc : isSpace c = true
    · rw [List.rdropWhile_concat_pos _ _ _ hc, ih]
      by_cases hcsep : c = sep
      · rw [hcsep, splitOn_concat_self, trimWords_concat_of_all (by simp)]
      · obtain ⟨words, w, hxs, hconcat⟩ := splitOn_concat_of_ne hcsep xs
        rw [hxs, hconcat]
        by_cases hw : w.all isSpace = true
        · rw [trimWords_concat_of_all hw, trimWords_concat_of_all (by simpa [hc] using hw)]
        · rw [trimWords_concat_of_not hw, trimWords_concat_of_not (by simpa [hc] using hw),
            List.rdropWhile_concat_pos _ _ _ hc]
    · rw [List.rdropWhile_concat_neg _ _ _ hc]

/-- A text without white space at the end is its words. -/
theorem trimWords_splitOn_of_last {c : α} (hsep : isSpace sep = true) (hc : ¬ isSpace c = true) :
    trimWords isSpace ((xs ++ [c]).splitOn sep) = (xs ++ [c]).splitOn sep := by
  have hne : c ≠ sep := by
    rintro rfl
    exact hc hsep
  obtain ⟨words, w, -, hconcat⟩ := splitOn_concat_of_ne hne xs
  rw [hconcat, trimWords_concat_of_not (by simp [hc]), List.rdropWhile_concat_neg _ _ _ hc]

/-- **Texts agree up to white space at the end exactly if their words do.** -/
theorem rdropWhile_eq_iff (hsep : isSpace sep = true) : xs.rdropWhile isSpace = ys.rdropWhile isSpace ↔
    trimWords isSpace (xs.splitOn sep) = trimWords isSpace (ys.splitOn sep) := by
  rw [← trimWords_splitOn_rdropWhile sep xs, ← trimWords_splitOn_rdropWhile sep ys]
  refine ⟨fun h => by rw [h], fun h => ?_⟩
  -- what is left of a text is empty or ends with something else than white space
  have hends : ∀ zs : List α, zs.rdropWhile isSpace = [] ∨
      ∃ front c, zs.rdropWhile isSpace = front ++ [c] ∧ ¬ isSpace c = true := by
    intro zs
    by_cases hnil : zs.rdropWhile isSpace = []
    · exact .inl hnil
    · exact .inr ⟨_, _, (List.dropLast_append_getLast hnil).symm, List.rdropWhile_last_not _ _ hnil⟩
  have hempty : trimWords isSpace (([] : List α).splitOn sep) = [] := by
    rw [List.splitOn_nil]
    rfl
  rcases hends xs with hxs | ⟨front, c, hxs, hc⟩
  · rcases hends ys with hys | ⟨front', c', hys, hc'⟩
    · rw [hxs, hys]
    · rw [hxs, hys, hempty, trimWords_splitOn_of_last hsep hc'] at h
      exact absurd h.symm (List.splitOn_ne_nil _ _)
  · rcases hends ys with hys | ⟨front', c', hys, hc'⟩
    · rw [hxs, hys, hempty, trimWords_splitOn_of_last hsep hc] at h
      exact absurd h (List.splitOn_ne_nil _ _)
    · rw [hxs, hys, trimWords_splitOn_of_last hsep hc, trimWords_splitOn_of_last hsep hc'] at h
      have hback : [sep].intercalate ((front ++ [c]).splitOn sep) = front ++ [c] :=
        List.intercalate_splitOn sep
      rw [hxs, hys, ← hback, h, List.intercalate_splitOn]

/-- The words of texts put together with separators are the words of the texts. -/
theorem splitOn_intercalate {parts : List (List α)} (h : parts ≠ []) :
    ([sep].intercalate parts).splitOn sep = parts.flatMap (·.splitOn sep) := by
  induction parts with
  | nil => exact absurd rfl h
  | cons part parts ih =>
    cases parts with
    | nil => simp
    | cons next parts =>
      rw [List.intercalate_cons_cons, List.append_assoc, List.singleton_append,
        List.splitOn_append_cons_self, ih (by simp)]
      rfl

end McpLocator.Words
