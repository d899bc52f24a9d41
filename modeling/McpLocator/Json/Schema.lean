import Mathlib.Computability.RegularExpressions
import McpLocator.Json.Value

namespace McpLocator.Json

/-!
# JSON Schema

The keywords of JSON Schema 2020-12 that constrain types, strings, numbers, arrays and objects,
as a syntax with an evaluator.  A schema object is `all` of its keywords.  Keywords say nothing
about values of another type, as the specification has it: `required` is satisfied by an array.

* `additionalProperties` depends on its sibling `properties`, so the two are one constructor;
  `never` there closes the object.
* `enum` and `const` list strings.
* `pattern` is anchored at both ends, hence a regular expression for the whole string.
-/

/-- The type names of JSON Schema. -/
inductive JsonType where
  | null | boolean | integer | string | array | object
deriving DecidableEq

/-- Whether a value has the type; an integer is a number without a fractional part. -/
def JsonType.admits : JsonType → Value → Bool
  | .null, .null => true
  | .boolean, .bool _ => true
  | .integer, .number n => n.decimal.isInteger
  | .string, .string _ => true
  | .array, .array _ => true
  | .object, .object _ => true
  | _, _ => false

/-- A schema: one keyword, or `all` of several. -/
inductive Schema where
  | never
  | type (ts : List JsonType)
  | enum (ss : List String)
  | pattern (r : RegularExpression Char)
  | minLength (n : Nat)
  | maxLength (n : Nat)
  | nonNegative
  | minItems (n : Nat)
  | items (s : Schema)
  | properties (ps : List (String × Schema)) (additional : Schema)
  | required (ks : List String)
  | all (ss : List Schema)
  | anyOf (ss : List Schema)
  | ifThen (i t : Schema)

namespace Schema

/-- The schema that everything satisfies. -/
abbrev always : Schema := all []

mutual
/-- Whether a value satisfies a schema. -/
def valid : Schema → Value → Bool
  | never, _ => false
  | type ts, v => ts.any (·.admits v)
  | enum ss, v => match v with
    | .string s => ss.contains s
    | _ => false
  | pattern r, v => match v with
    | .string s => r.rmatch s.toList
    | _ => true
  | minLength n, v => match v with
    | .string s => decide (n ≤ s.length)
    | _ => true
  | maxLength n, v => match v with
    | .string s => decide (s.length ≤ n)
    | _ => true
  | nonNegative, v => match v with
    | .number n => !n.decimal.negative || n.decimal.mantissa == 0
    | _ => true
  | minItems n, v => match v with
    | .array xs => decide (n ≤ xs.length)
    | _ => true
  | items s, v => match v with
    | .array xs => xs.all (valid s)
    | _ => true
  | properties ps additional, v => match v with
    | .object ms => validProperties ps ms &&
        ms.all fun m => (ps.map Prod.fst).contains m.1 || valid additional m.2
    | _ => true
  | required ks, v => match v with
    | .object ms => ks.all fun k => (ms.lookup k).isSome
    | _ => true
  | all ss, v => validAll ss v
  | anyOf ss, v => validAny ss v
  | ifThen i t, v => !valid i v || valid t v

/-- Every declared property that is present satisfies its schema. -/
def validProperties : List (String × Schema) → List (String × Value) → Bool
  | [], _ => true
  | (k, s) :: ps, ms => (match ms.lookup k with
      | none => true
      | some x => valid s x) && validProperties ps ms

/-- Every schema of the list is satisfied. -/
def validAll : List Schema → Value → Bool
  | [], _ => true
  | s :: ss, v => valid s v && validAll ss v

/-- Some schema of the list is satisfied. -/
def validAny : List Schema → Value → Bool
  | [], _ => false
  | s :: ss, v => valid s v || validAny ss v
end

/-- `p` holds of the member `k`, if there is one. -/
def OnMember (k : String) (p : Value → Prop) (ms : List (String × Value)) : Prop :=
  ∀ x, ms.lookup k = some x → p x

theorem validProperties_nil (ms : List (String × Value)) : validProperties [] ms = true := rfl

theorem validProperties_cons (k : String) (s : Schema) (ps : List (String × Schema))
    (ms : List (String × Value)) : validProperties ((k, s) :: ps) ms = true ↔
      OnMember k (fun x => s.valid x = true) ms ∧ validProperties ps ms = true := by
  rw [validProperties, Bool.and_eq_true]
  refine and_congr_left fun _ => ?_
  cases h : ms.lookup k <;> simp [OnMember, h]

theorem onMember_of_valid {ps : List (String × Schema)} {ms : List (String × Value)}
    (h : validProperties ps ms = true) {p : String × Schema} (hp : p ∈ ps) :
    OnMember p.1 (fun x => p.2.valid x = true) ms := by
  induction ps with
  | nil => simp at hp
  | cons q ps ih =>
    obtain ⟨k, s⟩ := q
    obtain ⟨hk, hrest⟩ := (validProperties_cons k s ps ms).mp h
    rcases List.mem_cons.mp hp with rfl | hp
    · exact hk
    · exact ih hrest hp

/-- Only members named in `ks`. -/
def Closed (ks : List String) (ms : List (String × Value)) : Prop := ∀ m ∈ ms, m.1 ∈ ks

/-- A closed object: the declared properties that are present are valid, and there is no other. -/
theorem valid_closed (ps : List (String × Schema)) (ms : List (String × Value)) :
    (properties ps never).valid (.object ms) = true ↔
      validProperties ps ms = true ∧ Closed (ps.map Prod.fst) ms := by
  simp [valid, Closed]

/-- An object without declared properties. -/
theorem valid_each (s : Schema) (ms : List (String × Value)) :
    (properties [] s).valid (.object ms) = true ↔ ∀ m ∈ ms, s.valid m.2 = true := by
  simp [valid, validProperties]

end Schema

end McpLocator.Json
