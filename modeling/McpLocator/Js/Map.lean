import McpLocator.Json.Value

namespace McpLocator.Js

/-!
# JavaScript maps

`Map` keeps its entries in the order in which their keys were first set.

* `JsMap` — entries with distinct keys; `get`, `set`, `delete`.
* `mem_set`, `mem_delete`, `get_eq_some` — the entries after each operation.
-/

/-- A `Map`. -/
structure JsMap (K V : Type) where
  entries : List (K × V)
  nodup : (entries.map Prod.fst).Nodup
deriving DecidableEq

namespace JsMap

variable {K V : Type} {m : JsMap K V} {k k' : K} {v v' : V}

def empty : JsMap K V := ⟨[], List.nodup_nil⟩

def values (m : JsMap K V) : List V := m.entries.map Prod.snd

theorem mem_values : v ∈ m.values ↔ ∃ k, (k, v) ∈ m.entries := by
  simp [values]

variable [DecidableEq K]

def get (m : JsMap K V) (k : K) : Option V := m.entries.lookup k

def has (m : JsMap K V) (k : K) : Bool := (m.get k).isSome

/-- A key that is there keeps its place. -/
def setEntries (entries : List (K × V)) (k : K) (v : V) : List (K × V) :=
  if k ∈ entries.map Prod.fst then entries.map fun e => if e.1 = k then (k, v) else e
  else entries ++ [(k, v)]

theorem nodup_setEntries {entries : List (K × V)} (h : (entries.map Prod.fst).Nodup) :
    ((setEntries entries k v).map Prod.fst).Nodup := by
  unfold setEntries
  split
  · have hkeys : (entries.map fun e => if e.1 = k then (k, v) else e).map Prod.fst =
        entries.map Prod.fst := by
      rw [List.map_map]
      refine List.map_congr_left fun e _ => ?_
      show (if e.1 = k then (k, v) else e).1 = e.1
      split
      · rename_i he
        exact he.symm
      · rfl
    rwa [hkeys]
  · rename_i hk
    rw [List.map_append]
    refine List.nodup_append.mpr ⟨h, List.nodup_singleton k, fun a ha b hb => ?_⟩
    rintro rfl
    obtain rfl := List.mem_singleton.mp hb
    exact hk ha

def set (m : JsMap K V) (k : K) (v : V) : JsMap K V :=
  ⟨setEntries m.entries k v, nodup_setEntries m.nodup⟩

def delete (m : JsMap K V) (k : K) : JsMap K V :=
  ⟨m.entries.filter fun e => e.1 ≠ k, m.nodup.sublist (List.filter_sublist.map _)⟩

theorem get_eq_some : m.get k = some v ↔ (k, v) ∈ m.entries :=
  ⟨Json.Value.mem_of_lookup, Json.Value.lookup_of_mem m.nodup⟩

theorem get_eq_none : m.get k = none ↔ ∀ v, (k, v) ∉ m.entries := by
  rw [Option.eq_none_iff_forall_not_mem]
  exact forall_congr' fun v => not_congr get_eq_some

theorem eq_of_mem (h : (k, v) ∈ m.entries) (h' : (k, v') ∈ m.entries) : v = v' :=
  Option.some.inj ((get_eq_some.mpr h).symm.trans (get_eq_some.mpr h'))

@[simp] theorem mem_delete : (k, v) ∈ (m.delete k').entries ↔ k ≠ k' ∧ (k, v) ∈ m.entries := by
  simp [delete, and_comm]

/-- After `set` a key has the new value, every other key the one it had. -/
@[simp] theorem mem_set : (k, v) ∈ (m.set k' v').entries ↔
    (k = k' ∧ v = v') ∨ (k ≠ k' ∧ (k, v) ∈ m.entries) := by
  show (k, v) ∈ setEntries m.entries k' v' ↔ _
  unfold setEntries
  split
  · rename_i hk
    rw [List.mem_map]
    constructor
    · rintro ⟨e, he, heq⟩
      split at heq
      · cases heq
        exact .inl ⟨rfl, rfl⟩
      · rename_i hne
        subst heq
        exact .inr ⟨hne, he⟩
    · rintro (⟨rfl, rfl⟩ | ⟨hne, hmem⟩)
      · obtain ⟨e, he, rfl⟩ := List.mem_map.mp hk
        exact ⟨e, he, if_pos rfl⟩
      · exact ⟨(k, v), hmem, if_neg hne⟩
  · rename_i hk
    rw [List.mem_append, List.mem_singleton, Prod.mk.injEq, or_comm]
    refine or_congr_right (iff_and_self.mpr ?_)
    rintro hmem rfl
    exact hk (List.mem_map_of_mem (f := Prod.fst) hmem)

theorem mem_set_self : (k, v) ∈ (m.set k v).entries := mem_set.mpr (.inl ⟨rfl, rfl⟩)

theorem mem_set_of_ne (hne : k ≠ k') (h : (k, v) ∈ m.entries) : (k, v) ∈ (m.set k' v').entries :=
  mem_set.mpr (.inr ⟨hne, h⟩)

end JsMap

end McpLocator.Js
