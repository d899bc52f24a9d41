import McpLocator.Json.Canonical

namespace McpLocator.Json.Serde

/-!
# Derived deserialization of JSON values

What `#[derive(Deserialize)]` makes of a JSON value, as combinators returning `Option`.

* A struct with named fields reads from an object by field name, ignoring members it does not
  know, and also from an array that holds the fields in declaration order (`Fields`).
* A field marked `default` may be missing in either form; an `Option` field that is not marked may
  be missing from an object only.
* A field given twice is refused by a reader of text (`textFields`).
* An `Option` reads `null` as absent.
* A unit variant of an enum is its name, or an object whose only member is `name: null`.
* `u64` reads unsigned integers only: a float is refused even when it is integral.

`ofFields` is the serializing direction: a struct whose absent fields are skipped.
-/

variable {α : Type}

/-! ### Scalars -/

/-- `String`. -/
def string : Value → Option String
  | .string s => some s
  | _ => none

/-- `bool`. -/
def bool : Value → Option Bool
  | .bool b => some b
  | _ => none

/-- `u64`. -/
def u64 : Value → Option UInt64
  | .number (.posInt n) => some n
  | _ => none

/-- `Value` itself. -/
def value (v : Value) : Option Value := some v

/-- `Option<T>`. -/
def option (read : Value → Option α) : Value → Option (Option α)
  | .null => some none
  | v => (read v).map some

/-- `Vec<T>`. -/
def vec (read : Value → Option α) : Value → Option (List α)
  | .array items => items.mapM read
  | _ => none

/-- An enum of unit variants. -/
def unitEnum (variants : List (String × α)) : Value → Option α
  | .string s => variants.lookup s
  | .object [(s, .null)] => variants.lookup s
  | _ => none

/-! ### Structs -/

/-- The fields of a struct as they are found in a value: by name, or in declaration order. -/
inductive Fields where
  | named (members : List (String × Value))
  | inOrder (items : List Value)

/-- The fields of a struct with `n` of them; a longer array is refused. -/
def fields (n : Nat) : Value → Option Fields
  | .object members => some (.named members)
  | .array items => if items.length ≤ n then some (.inOrder items) else none
  | _ => none

/-- Some of the names occurs twice among the members of an object. -/
def repeated (names : List String) : Value → Bool
  | .object members => names.any fun name => decide (1 < (members.map Prod.fst).count name)
  | _ => false

/-- The fields of a struct that is read from text, where an object may give one twice; that is
    refused.  (A value that was parsed before has one member for a name.) -/
def textFields (names : List String) (v : Value) : Option Fields :=
  if repeated names v then none else fields names.length v

namespace Fields

/-- The value given for the `i`-th field, named `name`. -/
def find (i : Nat) (name : String) : Fields → Option Value
  | named members => members.lookup name
  | inOrder items => items[i]?

/-- A field that must be present. -/
def required (i : Nat) (name : String) (read : Value → Option α) (fs : Fields) : Option α :=
  (fs.find i name).bind read

/-- An `Option` field marked `default`. -/
def defaulted (i : Nat) (name : String) (read : Value → Option α) (fs : Fields) :
    Option (Option α) :=
  match fs.find i name with
  | none => some none
  | some v => option read v

/-- An `Option` field without a default: only an object may leave it out. -/
def optional (i : Nat) (name : String) (read : Value → Option α) (fs : Fields) :
    Option (Option α) :=
  match fs, fs.find i name with
  | _, some v => option read v
  | named _, none => some none
  | inOrder _, none => none

end Fields

/-! ### Serialization -/

/-- A struct as a JSON object; absent fields are left out. -/
def ofFields (fs : List (String × Option Value)) : Value :=
  .object (sortMembers id (fs.filterMap fun f => f.2.map fun v => (f.1, v)))

/-- `json!({..})`: an object with the given members. -/
def ofMembers (ms : List (String × Value)) : Value := .object (sortMembers id ms)

/-- `Option<T>` without `skip_serializing_if`: absent is `null`. -/
def ofOption (write : α → Value) : Option α → Value
  | none => .null
  | some a => write a

/-! ### Reading facts -/

@[simp] theorem string_string (s : String) : string (.string s) = some s := rfl

@[simp] theorem option_null (read : Value → Option α) : option read .null = some none := rfl

theorem mapM_isSome {β : Type} {f : β → Option α} {items : List β} :
    (items.mapM f).isSome = true ↔ ∀ x ∈ items, (f x).isSome = true := by
  induction items with
  | nil => simp
  | cons x xs ih =>
    rw [List.mapM_cons]
    cases hx : f x with
    | none => simp [hx]
    | some a =>
      simp only [Option.bind_eq_bind, Option.bind_some, List.mem_cons, forall_eq_or_imp, hx,
        Option.isSome_some, true_and, ← ih]
      cases xs.mapM f <;> simp

theorem vec_isSome {read : Value → Option α} {v : Value} : (vec read v).isSome = true ↔
    ∃ items, v = .array items ∧ ∀ x ∈ items, (read x).isSome = true := by
  cases v with
  | array items => simpa [vec] using mapM_isSome
  | _ => simp [vec]

/-- An enum reads a variant's name, or the object form of it. -/
theorem unitEnum_isSome {variants : List (String × α)} {v : Value} :
    (unitEnum variants v).isSome = true ↔
      ∃ s, (variants.lookup s).isSome = true ∧ (v = .string s ∨ v = .object [(s, .null)]) := by
  constructor
  · intro h
    unfold unitEnum at h
    split at h
    · exact ⟨_, h, .inl rfl⟩
    · exact ⟨_, h, .inr rfl⟩
    · simp at h
  · rintro ⟨s, h, rfl | rfl⟩ <;> exact h

/-! ### Writing facts -/

/-- The names of the fields that are present are distinct if all names are. -/
theorem nodup_present {fs : List (String × Option Value)} (hd : (fs.map Prod.fst).Nodup) :
    ((fs.filterMap fun f => f.2.map fun v => (f.1, v)).map Prod.fst).Nodup := by
  refine List.Nodup.sublist ?_ hd
  clear hd
  induction fs with
  | nil => exact List.Sublist.slnil
  | cons f fs ih =>
    obtain ⟨name, v⟩ := f
    cases v with
    | none => exact ih.cons _
    | some x => exact ih.cons_cons _

/-- Distinct names are no field given twice. -/
theorem repeated_eq_false {ms : List (String × Value)} (hd : (ms.map Prod.fst).Nodup)
    (names : List String) : repeated names (.object ms) = false := by
  rw [repeated, List.any_eq_false]
  intro name _
  simpa using List.nodup_iff_count_le_one.mp hd name

/-- What a struct is written as gives no field twice. -/
theorem nodup_ofFields {fs : List (String × Option Value)} (hd : (fs.map Prod.fst).Nodup) :
    ((sortMembers id (fs.filterMap fun f => f.2.map fun v => (f.1, v))).map Prod.fst).Nodup :=
  ((sortMembers_perm id _).map Prod.fst).nodup_iff.mpr (nodup_present hd)

/-- Each field that is present is found under its name. -/
theorem get_ofFields {fs : List (String × Option Value)} (hd : (fs.map Prod.fst).Nodup)
    (k : String) : (ofFields fs).get k = (fs.lookup k).join := by
  have key : ∀ gs : List (String × Option Value), (gs.map Prod.fst).Nodup →
      (gs.filterMap fun f => f.2.map fun v => (f.1, v)).lookup k = (gs.lookup k).join := by
    intro gs
    induction gs with
    | nil => intro _; rfl
    | cons g gs ih =>
      obtain ⟨name, v⟩ := g
      intro hgs
      rw [List.map_cons, List.nodup_cons] at hgs
      rw [List.lookup_cons]
      cases v with
      | none =>
        rw [List.filterMap_cons_none rfl, ih hgs.2]
        -- an absent field must not be found further on
        by_cases h : k = name
        · subst h
          have : gs.lookup k = none := by
            rw [List.lookup_eq_none_iff]
            rintro ⟨k', v'⟩ hm
            refine bne_iff_ne.mpr ?_
            rintro rfl
            exact hgs.1 (List.mem_map.mpr ⟨_, hm, rfl⟩)
          simp [this]
        · rw [beq_eq_false_iff_ne.mpr h]
      | some x =>
        simp only [List.filterMap_cons, Option.map_some, List.lookup_cons, ih hgs.2]
        by_cases h : k = name
        · simp [h]
        · rw [beq_eq_false_iff_ne.mpr h]
  rw [ofFields, Value.get_object, lookup_sortMembers_self id, key fs hd]
  exact nodup_present hd

/-! ### What a struct is given -/

/-- A value other than `null`. -/
def present : Value → Option Value
  | .null => none
  | v => some v

theorem present_eq_some {v x : Value} : present v = some x ↔ v = x ∧ x ≠ .null := by
  cases v with
  | null => simpa [present] using fun h : Value.null = x => h.symm
  | _ =>
    simp only [present, Option.some.injEq, iff_self_and]
    rintro rfl
    simp

/-- The value a struct of `n` fields is given for field `i`, named `name`; `null` counts as
    leaving it out. -/
def given (n i : Nat) (name : String) (v : Value) : Option Value :=
  ((fields n v).bind (·.find i name)).bind present

theorem given_eq_some {n i : Nat} {name : String} {fs : Fields} {v x : Value}
    (hf : fields n v = some fs) :
    given n i name v = some x ↔ fs.find i name = some x ∧ x ≠ .null := by
  simp only [given, hf, Option.bind_some, Option.bind_eq_some_iff, present_eq_some]
  constructor
  · rintro ⟨y, hy, rfl, hne⟩
    exact ⟨hy, hne⟩
  · rintro ⟨hx, hne⟩
    exact ⟨x, hx, rfl, hne⟩

theorem given_object {n i : Nat} {name : String} {ms : List (String × Value)} {x : Value} :
    given n i name (.object ms) = some x ↔ ms.lookup name = some x ∧ x ≠ .null := by
  have hf : fields n (.object ms) = some (.named ms) := rfl
  exact given_eq_some hf

/-- A required field is read from what the struct is given. -/
theorem required_eq {read : Value → Option α} (hnull : read .null = none) {n i : Nat}
    {name : String} {fs : Fields} {v : Value} (hf : fields n v = some fs) :
    fs.required i name read = (given n i name v).bind read := by
  simp only [given, hf, Fields.required, Option.bind_some]
  cases fs.find i name with
  | none => rfl
  | some y => cases y <;> simp [present, hnull]

/-- A field with a default is read from what the struct is given, if anything. -/
theorem defaulted_eq {read : Value → Option α} {n i : Nat} {name : String} {fs : Fields}
    {v : Value} (hf : fields n v = some fs) : fs.defaulted i name read =
      match given n i name v with
      | none => some none
      | some x => (read x).map some := by
  simp only [given, hf, Fields.defaulted, Option.bind_some]
  cases fs.find i name with
  | none => rfl
  | some y => cases y <;> rfl

/-- Whether a required field can be read. -/
theorem required_isSome {read : Value → Option α} (hnull : read .null = none) {n i : Nat}
    {name : String} {fs : Fields} {v : Value} (hf : fields n v = some fs) :
    (fs.required i name read).isSome = true ↔
      ∃ x, given n i name v = some x ∧ (read x).isSome = true := by
  rw [required_eq hnull hf]
  cases given n i name v <;> simp

/-- Whether a field with a default can be read. -/
theorem defaulted_isSome {read : Value → Option α} {n i : Nat} {name : String} {fs : Fields}
    {v : Value} (hf : fields n v = some fs) : (fs.defaulted i name read).isSome = true ↔
      ∀ x, given n i name v = some x → (read x).isSome = true := by
  rw [defaulted_eq hf]
  cases given n i name v <;> simp

/-- The value of a field with a default, once the struct has been read. -/
theorem defaulted_value {read : Value → Option α} {n i : Nat} {name : String} {fs : Fields}
    {v : Value} (hf : fields n v = some fs) {o : Option α}
    (h : fs.defaulted i name read = some o) : o = (given n i name v).bind read := by
  rw [defaulted_eq hf] at h
  cases hg : given n i name v with
  | none => simpa [hg] using h.symm
  | some x =>
    rw [hg] at h
    obtain ⟨a, ha, rfl⟩ := Option.map_eq_some_iff.mp h
    exact ha.symm

/-- One more read of a struct. -/
theorem isSome_bind_iff {β : Type} {o : Option α} {f : α → Option β} {p : Prop}
    (h : ∀ a, (f a).isSome = true ↔ p) : (o.bind f).isSome = true ↔ o.isSome = true ∧ p := by
  cases o with
  | none => simp
  | some a => simp [h a]

/-- The last read of a struct. -/
theorem isSome_bind_some {β : Type} {o : Option α} {f : α → β} :
    (o.bind fun a => some (f a)).isSome = true ↔ o.isSome = true := by
  cases o <;> simp

end McpLocator.Json.Serde
