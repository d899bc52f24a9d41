import McpLocator.Json.Serde
import McpLocator.Json.Text

namespace McpLocator.Json

open Std (ExtTreeMap)

/-!
# Reading and writing values as text in the broker

What `serde_json` makes of a document that the grammar accepts, and what it writes.

* `textOf` — the characters of a literal; a surrogate that is not paired is refused.
* `Number.ofLiteral` — `u64`, negative `i64`, or a float.  `float` stands for the rounding of a literal
  to a finite double.
* `Document.value` — `Value`, which may be nested so and so deep.
* `textMembers` — the members of a struct: a field given twice is refused.
* `Value.document` — the way back.
-/

/-! ### Strings -/

/-- The characters of a literal: the escapes of two surrogates are one character, and no other
    surrogate is accepted. -/
def textOf : List Point → Option (List Char)
  | [] => some []
  | .char c :: s => (textOf s).map (c :: ·)
  | .high i :: .low j :: s => (textOf s).map (pair i j :: ·)
  | _ => none

/-- `String` -/
def Document.text : Document (List Point) → Option String
  | .string s => (textOf s).map String.ofList
  | _ => none

/-- The literal of a text. -/
def pointsOf (s : String) : List Point := s.toList.map .char

theorem pointsOf_injective : Function.Injective pointsOf := fun _ _ h =>
  String.toList_injective (List.map_injective_iff.mpr (fun _ _ => Point.char.inj) h)

/-- Two names as keys. -/
theorem pointsOf_beq (s t : String) : (pointsOf s == pointsOf t) = (s == t) := by
  rw [Bool.eq_iff_iff, beq_iff_eq, beq_iff_eq]
  exact pointsOf_injective.eq_iff

theorem textOf_map_char (cs : List Char) : textOf (cs.map .char) = some cs := by
  induction cs with
  | nil => rfl
  | cons c cs ih => rw [List.map_cons, textOf, ih, Option.map_some]

theorem textOf_pointsOf (s : String) : textOf (pointsOf s) = some s.toList := textOf_map_char _

theorem text_string_pointsOf (s : String) : Document.text (.string (pointsOf s)) = some s := by
  rw [Document.text, textOf_pointsOf, Option.map_some, String.ofList_toList]

/-! ### Numbers -/

section Numbers

variable (float : Literal → Option FloatText)

/-- The bound of a negative number. -/
theorem magnitude_lt {n : Nat} (hpos : 0 < n) (hle : n ≤ 2 ^ 63) : n - 1 < 2 ^ 63 := by omega

/-- The number of a literal, unless it is out of range.  `-0` is a float. -/
def Number.ofLiteral (l : Literal) : Option Number :=
  match l.text with
  | '-' :: ds =>
    if h : ds.all Char.isDigit ∧ 0 < digitsValue ds ∧ digitsValue ds ≤ 2 ^ 63 then
      some (.negInt ⟨digitsValue ds - 1, magnitude_lt h.2.1 h.2.2⟩)
    else (float l).map .float
  | ds =>
    if ds.all Char.isDigit ∧ digitsValue ds < 2 ^ 64 then
      some (.posInt (UInt64.ofNat (digitsValue ds)))
    else (float l).map .float

theorem Number.ofLiteral_ofNat {n : Nat} (h : n < 2 ^ 64) :
    Number.ofLiteral float (.ofNat n) = some (.posInt (UInt64.ofNat n)) := by
  have hdigits := Literal.all_isDigit_ofNat n
  have hvalue := Literal.digitsValue_ofNat n
  unfold Number.ofLiteral
  split
  · rename_i ds htext
    -- a digit is no sign
    rw [htext] at hdigits
    exact absurd (List.all_eq_true.mp hdigits '-' List.mem_cons_self) (by decide)
  · rw [hvalue, if_pos ⟨hdigits, h⟩]

end Numbers

/-! ### Values -/

namespace JsonValue

theorem wf_null : Value.null.wf = true := rfl

theorem wf_bool (b : Bool) : (Value.bool b).wf = true := rfl

theorem wf_number (n : Number) : (Value.number n).wf = true := rfl

theorem wf_string (s : String) : (Value.string s).wf = true := rfl

def ofItems (items : List JsonValue) : JsonValue :=
  ⟨.array (items.map Subtype.val),
    Value.wf_array.mpr (List.forall_mem_map.mpr fun v _ => v.2)⟩

/-- The object of a list of members: a `BTreeMap` keeps the last value that a key was given. -/
def ofMembers (members : List (String × JsonValue)) : JsonValue :=
  ⟨.object ((ExtTreeMap.ofList members compare).toList.map fun m => (m.1, m.2.1)), by
    rw [Value.wf_object, List.map_map]
    refine ⟨List.pairwise_map.mpr ?_, List.forall_mem_map.mpr fun m _ => m.2.2⟩
    exact ExtTreeMap.ordered_keys_toList.imp fun h => compare_lt_iff_lt.mp h⟩

end JsonValue

section Values

variable (float : Literal → Option FloatText)

/-- `Value`, where `depth` counts the levels that are left, this one included. -/
def valueAlg : Alg (List Point) (Nat → Option JsonValue) where
  null _ := some ⟨.null, JsonValue.wf_null⟩
  bool b _ := some ⟨.bool b, JsonValue.wf_bool b⟩
  number l _ := (Number.ofLiteral float l).map fun n => ⟨.number n, JsonValue.wf_number n⟩
  string s _ := (textOf s).map fun s => ⟨.string (String.ofList s), JsonValue.wf_string _⟩
  array items depth :=
    if depth ≤ 1 then none else (items.mapM fun (x : Nat → Option JsonValue) => x (depth - 1)).map .ofItems
  object members depth :=
    if depth ≤ 1 then none
    else (members.mapM fun m =>
      (textOf m.1).bind fun k => (m.2 (depth - 1)).map fun v => (String.ofList k, v)).map .ofMembers

def Document.value : Document (List Point) → Nat → Option JsonValue := Document.fold (valueAlg float)

theorem value_object (members : List (List Point × Document (List Point))) (depth : Nat) :
    Document.value float (.object members) depth = if depth ≤ 1 then none
      else (members.mapM fun m => (textOf m.1).bind fun k =>
        (m.2.value float (depth - 1)).map fun v => (String.ofList k, v)).map .ofMembers := by
  have h : Document.value float (.object members) depth = if depth ≤ 1 then none
      else ((members.map fun m => (m.1, m.2.value float)).mapM fun m => (textOf m.1).bind fun k =>
        (m.2 (depth - 1)).map fun v => (String.ofList k, v)).map .ofMembers :=
    congrFun (Document.fold_object _ members) depth
  rw [h, List.mapM_map]
  rfl

theorem value_number (l : Literal) (depth : Nat) : Document.value float (.number l) depth =
    (Number.ofLiteral float l).map fun n => ⟨.number n, JsonValue.wf_number n⟩ := rfl

end Values

/-! ### Structs -/

/-- The members of a struct that is read from text: every key is text, and no field is given twice.
    What is given for a name that is no field is not looked at. -/
def textMembers (names : List String) (members : List (List Point × Document (List Point))) :
    Option (List (String × Document (List Point))) :=
  (members.mapM fun m => (textOf m.1).map fun k => (String.ofList k, m.2)).bind fun members =>
    if names.any fun name => decide (1 < (members.map Prod.fst).count name) then none
    else some members

/-! ### Writing -/

/-- The literal that a float is printed as; a float's text is one. -/
def FloatText.literal (f : FloatText) : Literal :=
  if h : isLiteral f.text.toList = true then ⟨f.text.toList, h⟩ else .ofNat 0

def Number.literal : Number → Literal
  | .posInt n => .ofNat n.toNat
  | .negInt m => .ofInt (.negSucc m.val)
  | .float f => f.literal

namespace Value

mutual
/-- What is written for a value. -/
def document : Value → Document (List Point)
  | null => .null
  | bool b => .bool b
  | number n => .number n.literal
  | string s => .string (pointsOf s)
  | array items => .array (documentAll items)
  | object members => .object (documentMembers members)

def documentAll : List Value → List (Document (List Point))
  | [] => []
  | x :: xs => x.document :: documentAll xs

def documentMembers : List (String × Value) → List (List Point × Document (List Point))
  | [] => []
  | (k, x) :: ms => (pointsOf k, x.document) :: documentMembers ms
end

theorem documentAll_eq (items : List Value) : documentAll items = items.map document := by
  induction items with
  | nil => rfl
  | cons x xs ih => rw [documentAll, ih, List.map_cons]

theorem documentMembers_eq (members : List (String × Value)) :
    documentMembers members = members.map fun m => (pointsOf m.1, m.2.document) := by
  induction members with
  | nil => rfl
  | cons m ms ih =>
    obtain ⟨k, x⟩ := m
    rw [documentMembers, ih, List.map_cons]

end Value

end McpLocator.Json
