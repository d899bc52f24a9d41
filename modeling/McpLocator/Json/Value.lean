import Mathlib.Data.List.Sort
import Mathlib.Data.String.Basic
import Std.Data.ExtTreeMap

namespace McpLocator.Json

/-!
# JSON values

The value domain shared by every reader and writer of the development: `null`, Booleans,
numbers, strings, arrays and objects.  An object is a list of members; `Value.wf` says that the
keys of every object increase strictly, which is how a `BTreeMap`-backed object looks, so two
well-formed values are equal as JSON values exactly when they are equal.  `JsonValue` bundles the two.

* `Number` — the three number variants of a 64-bit JSON library: `u64`, negative `i64`, and a
  finite `f64`, which is kept as its serialized text (`FloatText`).
* `Value.get` — member lookup by key; on anything but an object there is none.
* `Value.wf` — every object in the value has strictly increasing keys.
-/

/-! ### Numbers -/

/-- The characters a JSON number may consist of. -/
def isNumberChar (c : Char) : Bool :=
  c.isDigit || c == '-' || c == '+' || c == '.' || c == 'e' || c == 'E'

/-- The value of a run of decimal digits. -/
def digitsValue (cs : List Char) : Nat :=
  cs.foldl (fun n c => 10 * n + (c.toNat - '0'.toNat)) 0

/-- A decimal literal `±mantissa · 10 ^ exponent`. -/
structure Decimal where
  negative : Bool
  mantissa : Nat
  exponent : Int
deriving DecidableEq, Repr

/-- Read the exponent part `e[-+]digits` (or nothing) after the fraction. -/
def exponentOf : List Char → Option Int
  | [] => some 0
  | 'e' :: '-' :: ds => if ds ≠ [] ∧ ds.all Char.isDigit then some (-(digitsValue ds : Int)) else none
  | 'e' :: '+' :: ds => if ds ≠ [] ∧ ds.all Char.isDigit then some (digitsValue ds : Int) else none
  | 'e' :: ds => if ds ≠ [] ∧ ds.all Char.isDigit then some (digitsValue ds : Int) else none
  | _ => none

/-- Read a decimal literal `-?digits(.digits)?(e[-+]?digits)?`. -/
def decimalOf (cs : List Char) : Option Decimal :=
  let (negative, cs) := match cs with
    | '-' :: rest => (true, rest)
    | _ => (false, cs)
  let whole := cs.takeWhile Char.isDigit
  let (fraction, rest) := match cs.dropWhile Char.isDigit with
    | '.' :: rest => (rest.takeWhile Char.isDigit, rest.dropWhile Char.isDigit)
    | rest => ([], rest)
  if whole = [] then none
  else (exponentOf rest).map fun e =>
    { negative, mantissa := digitsValue (whole ++ fraction), exponent := e - fraction.length }

/-- Whether the literal denotes an integer: its fractional part vanishes. -/
def Decimal.isInteger (d : Decimal) : Bool :=
  decide (0 ≤ d.exponent) || d.mantissa % 10 ^ d.exponent.natAbs == 0

/-- Whether a text has the shape a float is printed in: a decimal literal with a fraction or an
    exponent (`1.0`, `1e21`), so it never reads as an integer. -/
def isFloatText (s : String) : Bool :=
  s.toList.all isNumberChar && (s.toList.contains '.' || s.toList.contains 'e') &&
    (s.toList.head?.any fun c => c == '-' || c.isDigit) && (decimalOf s.toList).isSome

/-- A finite `f64`, identified with the text it is serialized as: printing is injective on finite
    floats, so nothing is lost, and the text is all that any writer shows of it. -/
structure FloatText where
  text : String
  isFloat : isFloatText text = true
deriving DecidableEq

/-- A JSON number: `u64`, negative `i64` (`negInt m` is `-(m + 1)`) or finite `f64`. -/
inductive Number where
  | posInt (n : UInt64)
  | negInt (m : Fin (2 ^ 63))
  | float (f : FloatText)
deriving DecidableEq

/-- The text a number is printed as. -/
def Number.text : Number → List Char
  | .posInt n => (Nat.repr n.toNat).toList
  | .negInt m => '-' :: (Nat.repr (m.val + 1)).toList
  | .float f => f.text.toList

/-- The number as a decimal literal. -/
def Number.decimal : Number → Decimal
  | .posInt n => { negative := false, mantissa := n.toNat, exponent := 0 }
  | .negInt m => { negative := true, mantissa := m.val + 1, exponent := 0 }
  | .float f => (decimalOf f.text.toList).getD { negative := false, mantissa := 0, exponent := 0 }

/-! ### Values -/

/-- A JSON value; the members of an object are kept as a list. -/
inductive Value where
  | null
  | bool (b : Bool)
  | number (n : Number)
  | string (s : String)
  | array (items : List Value)
  | object (members : List (String × Value))

namespace Value

/-- Induction over values: arrays and objects may assume the claim of every value in them. -/
@[elab_as_elim, induction_eliminator]
theorem induction {P : Value → Prop} (null : P null) (bool : ∀ b, P (bool b))
    (number : ∀ n, P (number n)) (string : ∀ s, P (string s))
    (array : ∀ items, (∀ x ∈ items, P x) → P (array items))
    (object : ∀ members, (∀ m ∈ members, P m.2) → P (object members)) (v : Value) : P v :=
  Value.rec (motive_1 := P) (motive_2 := fun items => ∀ x ∈ items, P x)
    (motive_3 := fun members => ∀ m ∈ members, P m.2) (motive_4 := fun m => P m.2)
    null bool number string array object (by simp)
    (fun x xs hx hxs => by simpa using ⟨hx, hxs⟩) (by simp)
    (fun m ms hm hms => by simpa using ⟨hm, fun a b h => hms (a, b) h⟩) (fun _ _ h => h) v

/-- Member lookup by key: only an object has members. -/
def get (key : String) : Value → Option Value
  | object members => members.lookup key
  | _ => none

@[simp] theorem get_object (key : String) (members : List (String × Value)) :
    (object members).get key = members.lookup key := rfl

@[simp] theorem get_array (key : String) (items : List Value) : (array items).get key = none := rfl

/-- The text of a JSON string. -/
def asStr : Value → Option String
  | string s => some s
  | _ => none

/-- Rewrite the member `key` in place, if there is one. -/
def modify (key : String) (f : Value → Value) : Value → Value
  | object members => object (members.map fun m => if m.1 = key then (m.1, f m.2) else m)
  | v => v

/-- Rewrite every member's value in place. -/
def mapMembers (f : Value → Value) : Value → Value
  | object members => object (members.map fun m => (m.1, f m.2))
  | v => v

/-- Rewrite every item of an array in place. -/
def mapItems (f : Value → Value) : Value → Value
  | array items => array (items.map f)
  | v => v

/-- A lookup that is absent counts as `null`. -/
def orNull (v : Option Value) : Value := v.getD null

/-! ### Well-formedness -/

mutual
/-- Every object in the value has strictly increasing keys. -/
def wf : Value → Bool
  | array items => wfAll items
  | object members => decide ((members.map Prod.fst).Pairwise (· < ·)) && wfMembers members
  | _ => true

/-- `wf` of every item. -/
def wfAll : List Value → Bool
  | [] => true
  | x :: xs => x.wf && wfAll xs

/-- `wf` of every member's value. -/
def wfMembers : List (String × Value) → Bool
  | [] => true
  | (_, x) :: ms => x.wf && wfMembers ms
end

@[simp] theorem wfAll_iff (items : List Value) : wfAll items = true ↔ ∀ x ∈ items, x.wf = true := by
  induction items with
  | nil => simp [wfAll]
  | cons x xs ih => simp [wfAll, ih]

@[simp] theorem wfMembers_iff (members : List (String × Value)) :
    wfMembers members = true ↔ ∀ m ∈ members, m.2.wf = true := by
  induction members with
  | nil => simp [wfMembers]
  | cons m ms ih =>
    obtain ⟨k, x⟩ := m
    simp [wfMembers, ih]

theorem wf_array {items : List Value} : (array items).wf = true ↔ ∀ x ∈ items, x.wf = true := by
  simp [wf]

theorem wf_object {members : List (String × Value)} : (object members).wf = true ↔
    (members.map Prod.fst).Pairwise (· < ·) ∧ ∀ m ∈ members, m.2.wf = true := by
  simp [wf]

/-- A looked-up member of a list of pairs is one of its pairs. -/
theorem mem_of_lookup {K β : Type} [BEq K] [LawfulBEq K] {key : K} {b : β} {members : List (K × β)}
    (h : members.lookup key = some b) : (key, b) ∈ members := by
  induction members with
  | nil => simp at h
  | cons m ms ih =>
    obtain ⟨k, x⟩ := m
    rw [List.lookup_cons] at h
    split at h
    · rename_i hk
      simp_all
    · exact List.mem_cons_of_mem _ (ih h)

/-- With distinct keys, lookup finds every pair. -/
theorem lookup_of_mem {K β : Type} [BEq K] [LawfulBEq K] {key : K} {b : β} {members : List (K × β)}
    (hd : (members.map Prod.fst).Nodup) (h : (key, b) ∈ members) :
    members.lookup key = some b := by
  induction members with
  | nil => simp at h
  | cons m ms ih =>
    obtain ⟨k, x⟩ := m
    rw [List.map_cons, List.nodup_cons] at hd
    rw [List.lookup_cons]
    rcases List.mem_cons.mp h with heq | hmem
    · simp_all
    · have hne : (key == k) = false := by
        refine beq_eq_false_iff_ne.mpr ?_
        rintro rfl
        exact hd.1 (List.mem_map.mpr ⟨_, hmem, rfl⟩)
      rw [hne]
      exact ih hd.2 hmem

/-- A member of a well-formed value is well formed. -/
theorem wf_of_get {key : String} {v x : Value} (hv : v.wf = true) (h : v.get key = some x) :
    x.wf = true := by
  cases v with
  | object members => exact (wf_object.mp hv).2 _ (mem_of_lookup h)
  | _ => simp [get] at h

/-! ### Rewriting in place -/

theorem lookup_map_snd {β γ : Type} (f : String → β → γ) (key : String) (ms : List (String × β)) :
    (ms.map fun m => (m.1, f m.1 m.2)).lookup key = (ms.lookup key).map (f key) := by
  induction ms with
  | nil => rfl
  | cons m ms ih =>
    obtain ⟨k, x⟩ := m
    rw [List.map_cons, List.lookup_cons, List.lookup_cons]
    by_cases h : key = k
    · subst h
      simp
    · rw [beq_eq_false_iff_ne.mpr h]
      exact ih

/-- `modify` rewrites the values under `key` only. -/
theorem modify_object (key : String) (f : Value → Value) (ms : List (String × Value)) :
    (object ms).modify key f = object (ms.map fun m => (m.1, if m.1 = key then f m.2 else m.2)) := by
  simp only [modify]
  congr 1
  refine List.map_congr_left fun m _ => ?_
  split <;> rfl

theorem get_modify_self (key : String) (f : Value → Value) (v : Value) :
    (v.modify key f).get key = (v.get key).map f := by
  cases v with
  | object ms =>
    rw [modify_object, get_object, get_object,
      lookup_map_snd (fun k x => if k = key then f x else x) key ms]
    simp
  | _ => rfl

theorem get_modify_of_ne {key key' : String} (h : key' ≠ key) (f : Value → Value) (v : Value) :
    (v.modify key f).get key' = v.get key' := by
  cases v with
  | object ms =>
    rw [modify_object, get_object, get_object,
      lookup_map_snd (fun k x => if k = key then f x else x) key' ms]
    simp [h]
  | _ => rfl

theorem map_fst_map_snd {β : Type} (f : String × β → β) (ms : List (String × β)) :
    (ms.map fun m => (m.1, f m)).map Prod.fst = ms.map Prod.fst := by
  rw [List.map_map]
  rfl

theorem wf_modify {key : String} {f : Value → Value} (hf : ∀ x, x.wf = true → (f x).wf = true)
    {v : Value} (hv : v.wf = true) : (v.modify key f).wf = true := by
  cases v with
  | object ms =>
    obtain ⟨hkeys, hall⟩ := wf_object.mp hv
    rw [modify_object, wf_object, map_fst_map_snd fun m => if m.1 = key then f m.2 else m.2]
    refine ⟨hkeys, fun m hm => ?_⟩
    obtain ⟨a, ha, rfl⟩ := List.mem_map.mp hm
    show (if a.1 = key then f a.2 else a.2).wf = true
    split
    · exact hf _ (hall a ha)
    · exact hall a ha
  | _ => exact hv

theorem wf_mapMembers {f : Value → Value} (hf : ∀ x, x.wf = true → (f x).wf = true) {v : Value}
    (hv : v.wf = true) : (v.mapMembers f).wf = true := by
  cases v with
  | object ms =>
    obtain ⟨hkeys, hall⟩ := wf_object.mp hv
    rw [mapMembers, wf_object, map_fst_map_snd fun m => f m.2]
    refine ⟨hkeys, fun m hm => ?_⟩
    obtain ⟨a, ha, rfl⟩ := List.mem_map.mp hm
    exact hf _ (hall a ha)
  | _ => exact hv

theorem wf_mapItems {f : Value → Value} (hf : ∀ x, x.wf = true → (f x).wf = true) {v : Value}
    (hv : v.wf = true) : (v.mapItems f).wf = true := by
  cases v with
  | array items =>
    rw [mapItems, wf_array]
    intro x hx
    obtain ⟨a, ha, rfl⟩ := List.mem_map.mp hx
    exact hf _ (wf_array.mp hv a ha)
  | _ => exact hv

theorem wf_orNull {v : Option Value} (h : ∀ x, v = some x → x.wf = true) :
    (orNull v).wf = true := by
  cases v with
  | none => rfl
  | some x => exact h x rfl

end Value

/-- A well-formed JSON value. -/
abbrev JsonValue := { v : Value // v.wf = true }

end McpLocator.Json
