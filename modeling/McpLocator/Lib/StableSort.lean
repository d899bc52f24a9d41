import Mathlib.Data.List.Sort

namespace McpLocator.StableSort

/-!
# Stable sorting by a key

An insertion sort by a key, greatest key first, lists the elements of one key after those of another,
each in the order they had (`insertionSort_eq_flatMap`).
-/

variable {α κ : Type} [LinearOrder κ]

/-- An element goes right after those that go before it. -/
theorem orderedInsert_append {r : α → α → Prop} [DecidableRel r] {x : α} {before after : List α}
    (hbefore : ∀ y ∈ before, ¬r x y) (hafter : ∀ y ∈ after, r x y) :
    List.orderedInsert r x (before ++ after) = before ++ x :: after := by
  induction before with
  | nil =>
    cases after with
    | nil => rfl
    | cons y after => exact if_pos (hafter y List.mem_cons_self)
  | cons y before ih =>
    rw [List.cons_append, List.orderedInsert, if_neg (hbefore y List.mem_cons_self),
      ih fun z hz => hbefore z (List.mem_cons_of_mem _ hz)]
    rfl

/-- A further element joins those of its key. -/
theorem flatMap_filter_cons {key : α → κ} {keys : List κ} {x : α} (l : List α)
    (h : key x ∉ keys) : (keys.flatMap fun k => (x :: l).filter (key · = k)) =
      keys.flatMap fun k => l.filter (key · = k) := by
  refine List.flatMap_congr fun k hk => ?_
  have hne : key x ≠ k := by
    rintro rfl
    exact h hk
  exact List.filter_cons_of_neg (by simpa using hne)

/-- **A sort by a key, class by class.** -/
theorem insertionSort_eq_flatMap {key : α → κ} {keys : List κ} (hkeys : keys.Pairwise (· > ·))
    (l : List α) (hl : ∀ x ∈ l, key x ∈ keys) :
    (l.insertionSort fun a b => key b ≤ key a) = keys.flatMap fun k => l.filter (key · = k) := by
  induction l with
  | nil => simp
  | cons x l ih =>
    show List.orderedInsert _ x (l.insertionSort _) = _
    rw [ih fun y hy => hl y (List.mem_cons_of_mem _ hy)]
    -- the classes before that of `x`, and those after it
    obtain ⟨greater, less, rfl⟩ := List.append_of_mem (hl x List.mem_cons_self)
    obtain ⟨-, hrest, hgreater⟩ := List.pairwise_append.mp hkeys
    obtain ⟨hless, -⟩ := List.pairwise_cons.mp hrest
    have hmem : ∀ {ks : List κ} {y : α}, (y ∈ ks.flatMap fun k => l.filter (key · = k)) →
        key y ∈ ks := by
      intro ks y hy
      obtain ⟨k, hk, hy⟩ := List.mem_flatMap.mp hy
      have hkey : key y = k := by simpa using (List.mem_filter.mp hy).2
      exact hkey ▸ hk
    have hx : key x ∉ greater := fun h => lt_irrefl _ (hgreater _ h _ List.mem_cons_self)
    have hx' : key x ∉ less := fun h => lt_irrefl _ (hless _ h)
    rw [List.flatMap_append, List.flatMap_append, orderedInsert_append, flatMap_filter_cons l hx,
      List.flatMap_cons, List.flatMap_cons, flatMap_filter_cons l hx', List.filter_cons_of_pos (by simp)]
    · rfl
    · exact fun y hy => not_le.mpr (hgreater _ (hmem hy) _ List.mem_cons_self)
    · intro y hy
      rcases List.mem_cons.mp (hmem hy) with heq | hlt
      · exact heq.le
      · exact (hless _ hlt).le

end McpLocator.StableSort
