import McpLocator.Json.Value

namespace McpLocator.Json

/-!
# Strings of a value by their paths

* `mapStrings` — every string in a value rewritten, each by a function of where it is.
* `modifyBy` — every member of an object rewritten, each by a function of its key; `modify` is one.
* `mapStrings_eq_modifyBy` — rewriting strings below an object's members only.
-/

/-- From a value to a value in it. -/
inductive Place where
  | member (key : String)
  | item (i : Nat)
deriving DecidableEq, Repr

namespace Value

mutual
/-- Rewrite every string by a function of its path. -/
def mapStrings (f : List Place → String → String) : Value → Value
  | string s => string (f [] s)
  | array items => array (mapStringsItems f 0 items)
  | object members => object (mapStringsMembers f members)
  | v => v

/-- `mapStrings` in the items from number `i` on. -/
def mapStringsItems (f : List Place → String → String) (i : Nat) : List Value → List Value
  | [] => []
  | x :: xs => x.mapStrings (fun p => f (.item i :: p)) :: mapStringsItems f (i + 1) xs

/-- `mapStrings` in the members. -/
def mapStringsMembers (f : List Place → String → String) :
    List (String × Value) → List (String × Value)
  | [] => []
  | (k, x) :: ms => (k, x.mapStrings fun p => f (.member k :: p)) :: mapStringsMembers f ms
end

/-- Rewrite every member by a function of its key. -/
def modifyBy (g : String → Value → Value) : Value → Value
  | object members => object (members.map fun m => (m.1, g m.1 m.2))
  | v => v

section Paths

variable {f : List Place → String → String} {v : Value}

theorem mapStrings_object (members : List (String × Value)) : (object members).mapStrings f =
    object (members.map fun m => (m.1, m.2.mapStrings fun p => f (.member m.1 :: p))) := by
  rw [mapStrings]
  congr 1
  induction members with
  | nil => rfl
  | cons m ms ih => rw [mapStringsMembers, ih, List.map_cons]

theorem mapStringsItems_eq (i : Nat) (items : List Value) : mapStringsItems f i items =
    items.mapIdx fun j x => x.mapStrings fun p => f (.item (i + j) :: p) := by
  induction items generalizing i with
  | nil => rfl
  | cons x xs ih =>
    rw [mapStringsItems, ih, List.mapIdx_cons]
    simp only [Nat.add_zero, Nat.add_assoc, Nat.add_comm 1]

theorem mapStrings_array (items : List Value) : (array items).mapStrings f =
    array (items.mapIdx fun j x => x.mapStrings fun p => f (.item j :: p)) := by
  rw [mapStrings, mapStringsItems_eq]
  simp only [Nat.zero_add]

/-- A rewriting that changes no string changes nothing. -/
theorem mapStrings_id (h : ∀ p s, f p s = s) : v.mapStrings f = v := by
  induction v generalizing f with
  | null => rfl
  | bool b => rfl
  | number n => rfl
  | string s => rw [mapStrings, h]
  | array items ih =>
    rw [mapStrings_array]
    congr 1
    refine List.ext_getElem (by simp) fun i h₁ h₂ => ?_
    rw [List.getElem_mapIdx]
    exact ih _ (List.getElem_mem _) fun p s => h (.item i :: p) s
  | object members ih =>
    rw [mapStrings_object]
    congr 1
    refine List.map_congr_left (fun m hm => ?_) |>.trans (List.map_id _)
    rw [ih m hm fun p s => h (.member m.1 :: p) s, id_eq]

/-- A rewriting of strings below the members of an object. -/
theorem mapStrings_eq_modifyBy {g : String → Value → Value} (hroot : ∀ s, f [] s = s)
    (hitem : ∀ i p s, f (.item i :: p) s = s)
    (hmember : ∀ k x, x.mapStrings (fun p => f (.member k :: p)) = g k x) :
    v.mapStrings f = v.modifyBy g := by
  cases v with
  | string s =>
    rw [mapStrings, hroot]
    rfl
  | array items =>
    rw [mapStrings_array]
    show array _ = array items
    congr 1
    refine List.ext_getElem (by simp) fun i h₁ h₂ => ?_
    rw [List.getElem_mapIdx]
    exact mapStrings_id fun p s => hitem i p s
  | object members =>
    rw [mapStrings_object, modifyBy]
    simp only [hmember]
  | _ => rfl

theorem modify_eq_modifyBy (key : String) (h : Value → Value) :
    v.modify key h = v.modifyBy fun k => if k = key then h else id := by
  cases v with
  | object members =>
    rw [modify_object, modifyBy]
    congr 1
    refine List.map_congr_left fun m _ => ?_
    split <;> rfl
  | _ => rfl

theorem mapMembers_eq_modifyBy (h : Value → Value) : v.mapMembers h = v.modifyBy fun _ => h := by
  cases v <;> rfl

@[simp] theorem modifyBy_modifyBy (g h : String → Value → Value) :
    (v.modifyBy h).modifyBy g = v.modifyBy fun k x => g k (h k x) := by
  cases v with
  | object members =>
    simp only [modifyBy, List.map_map]
    rfl
  | _ => rfl

end Paths

end Value

end McpLocator.Json
