import Mathlib.Data.List.Basic
import Mathlib.Data.List.Nodup
import Std.Data.ExtTreeMap

namespace McpLocator.TreeMap

open Std

/-!
# Finite maps as lists of pairs

What the pairs of an extensional tree map are after an insertion or a removal, and how many of them
satisfy a predicate.

* `ofList_toList` — a map is rebuilt from its pairs.
* `getElem?_ofList` — of several pairs with one key, a map built from a list keeps the last.
* `toList_insert_perm`, `toList_erase_perm` — a new key adds its pair, a removal takes it away.
* `count`, with `count_insert` and `count_erase`.
-/

variable {α β : Type} [Ord α] [TransOrd α] [LawfulEqOrd α]

theorem nodup_toList (m : ExtTreeMap α β) : m.toList.Nodup := by
  refine m.distinct_keys_toList.imp ?_
  rintro a b h rfl
  exact h ReflCmp.compare_self

/-- A map is rebuilt from its pairs. -/
theorem ofList_toList [BEq α] [LawfulBEq α] (m : ExtTreeMap α β) :
    ExtTreeMap.ofList m.toList = m := by
  refine ExtTreeMap.ext_getElem? fun k => ?_
  cases h : m[k]? with
  | some v =>
    exact ExtTreeMap.getElem?_ofList_of_mem ReflCmp.compare_self m.distinct_keys_toList
      (ExtTreeMap.mem_toList_iff_getElem?_eq_some.mpr h)
  | none =>
    refine ExtTreeMap.getElem?_ofList_of_contains_eq_false ?_
    rw [List.contains_eq_mem, decide_eq_false_iff_not, List.mem_map]
    rintro ⟨⟨k', v⟩, hm, rfl⟩
    rw [ExtTreeMap.mem_toList_iff_getElem?_eq_some.mp hm] at h
    simp at h

/-- Of several pairs with one key, the map keeps the last. -/
theorem getElem?_ofList [BEq α] [LawfulBEq α] (l : List (α × β)) (k : α) :
    (ExtTreeMap.ofList l)[k]? = l.reverse.lookup k := by
  rw [ExtTreeMap.ofList_eq_foldl, ← List.foldr_reverse]
  -- the last pair is the one that is inserted last
  induction l.reverse with
  | nil => simp
  | cons p ps ih =>
    obtain ⟨k', v⟩ := p
    rw [List.foldr_cons, ExtTreeMap.getElem?_insert, ih, List.lookup_cons]
    by_cases h : k = k'
    · subst h
      simp
    · simp [beq_eq_false_iff_ne.mpr h, Ne.symm h]

/-- A new key adds its pair. -/
theorem toList_insert_perm {m : ExtTreeMap α β} {k : α} (v : β) (h : m[k]? = none) :
    (m.insert k v).toList.Perm ((k, v) :: m.toList) := by
  have hnotMem : (k, v) ∉ m.toList := by
    rw [ExtTreeMap.mem_toList_iff_getElem?_eq_some, h]
    simp
  refine (List.perm_ext_iff_of_nodup (nodup_toList _)
    (List.nodup_cons.mpr ⟨hnotMem, nodup_toList m⟩)).mpr ?_
  rintro ⟨k', v'⟩
  rw [List.mem_cons, ExtTreeMap.mem_toList_iff_getElem?_eq_some,
    ExtTreeMap.mem_toList_iff_getElem?_eq_some, ExtTreeMap.getElem?_insert]
  by_cases hk : k = k'
  · subst hk
    simp [h, eq_comm]
  · simp [hk, Ne.symm hk]

/-- A removal takes the pair away. -/
theorem toList_erase_perm {m : ExtTreeMap α β} {k : α} {v : β} (h : m[k]? = some v) :
    m.toList.Perm ((k, v) :: (m.erase k).toList) := by
  have hnotMem : (k, v) ∉ (m.erase k).toList := by
    rw [ExtTreeMap.mem_toList_iff_getElem?_eq_some]
    simp
  refine (List.perm_ext_iff_of_nodup (nodup_toList _)
    (List.nodup_cons.mpr ⟨hnotMem, nodup_toList _⟩)).mpr ?_
  rintro ⟨k', v'⟩
  rw [List.mem_cons, ExtTreeMap.mem_toList_iff_getElem?_eq_some,
    ExtTreeMap.mem_toList_iff_getElem?_eq_some, ExtTreeMap.getElem?_erase]
  by_cases hk : k = k'
  · subst hk
    simp [h, eq_comm]
  · simp [hk, Ne.symm hk]

/-- How many pairs satisfy `p`. -/
def count (p : α × β → Bool) (m : ExtTreeMap α β) : Nat := m.toList.countP p

@[simp] theorem count_empty (p : α × β → Bool) : count p (∅ : ExtTreeMap α β) = 0 := by
  simp [count]

theorem count_insert {m : ExtTreeMap α β} {k : α} (p : α × β → Bool) (v : β)
    (h : m[k]? = none) :
    count p (m.insert k v) = count p m + if p (k, v) then 1 else 0 := by
  rw [count, (toList_insert_perm v h).countP_eq, List.countP_cons]
  rfl

theorem count_erase {m : ExtTreeMap α β} {k : α} {v : β} (p : α × β → Bool)
    (h : m[k]? = some v) :
    count p m = count p (m.erase k) + if p (k, v) then 1 else 0 := by
  rw [count, (toList_erase_perm h).countP_eq, List.countP_cons]
  rfl

theorem count_pos_iff {m : ExtTreeMap α β} (p : α × β → Bool) :
    0 < count p m ↔ ∃ k v, m[k]? = some v ∧ p (k, v) = true := by
  rw [count, List.countP_pos_iff]
  simp [ExtTreeMap.mem_toList_iff_getElem?_eq_some]

end McpLocator.TreeMap
