import McpLocator.Client.CardSchema
import McpLocator.Client.Expand
import McpLocator.Proto.Hash

namespace McpLocator.Client

open McpLocator.Json McpLocator.Proto

/-!
# The launch hash of the client library

* `expandCard` — expansion of the parsed card; each optional member only if it is truthy.
* `canonicalize` — JCS over the parsed object; the text of a number is a parameter (`String(value)`
  of a double), as no stanza that the schema accepts contains one.

`JSON.parse` keeps the members of an object in an order of its own, so a card is here any value with
distinct keys, a `ParsedValue`; the broker's reading of the same text is its well-formed arrangement.
-/

/-- A value that `JSON.parse` may return: an object has one member for a key. -/
abbrev ParsedValue := { v : Value // v.distinct = true }

/-- The same value with the members in the order that the broker keeps them in. -/
def ParsedValue.arranged (v : ParsedValue) : JsonValue := ⟨v.1.norm, Value.wf_norm v.2⟩

/-! ### Expansion -/

/-- Whether a value passes an `if`. -/
def truthy : Value → Bool
  | .null => false
  | .bool b => b
  | .number n => n.decimal.mantissa != 0
  | .string s => s != ""
  | .array _ => true
  | .object _ => true

/-- Rewrite a value that passes an `if`. -/
def whenTruthy (f : Value → Value) (v : Value) : Value := if truthy v then f v else v

/-- `expandEnv` of a member; the schema has made sure that it is a string. -/
def expandField (env : String → Option String) : Value → Value
  | .string s => .string (expandEnv s env)
  | v => v

/-- The launch block: `command`, each of `args`, `cwd`, each value of `env`. -/
def expandLaunch (env : String → Option String) (launch : Value) : Value :=
  let field := expandField env
  (((launch.modify "command" field).modify "args" (whenTruthy (Value.mapItems field))).modify "cwd"
    (whenTruthy field)).modify "env" (whenTruthy (Value.mapMembers field))

/-- The local block: `launch`, the endpoint's `address`, the liveness `pidFile`. -/
def expandLocal (env : String → Option String) (v : Value) : Value :=
  let field := expandField env
  ((v.modify "launch" (whenTruthy (expandLaunch env))).modify "endpoint"
    (whenTruthy (Value.modify "address" field))).modify "liveness"
      (whenTruthy (Value.modify "pidFile" (whenTruthy field)))

/-- `expandCard`. -/
def expandCard (card : Value) (env : String → Option String) : Value :=
  card.modify "local" (whenTruthy (expandLocal env))

/-! ### Hashing -/

mutual
/-- `canonicalize`. -/
def canonicalize (numberText : Number → List Char) : Value → List Char
  | .null => "null".toList
  | .bool b => if b then "true".toList else "false".toList
  | .number n => numberText n
  | .string s => quote s
  | .array items => '[' :: commaSep (canonicalizeAll numberText items) ++ [']']
  | .object members =>
    '{' :: commaSep ((sortMembers utf16 (canonicalizeMembers numberText members)).map fun m =>
      quote m.1 ++ ':' :: m.2) ++ ['}']

/-- `value.map(canonicalize)`. -/
def canonicalizeAll (numberText : Number → List Char) : List Value → List (List Char)
  | [] => []
  | x :: xs => canonicalize numberText x :: canonicalizeAll numberText xs

/-- The entries of an object with their values' texts. -/
def canonicalizeMembers (numberText : Number → List Char) :
    List (String × Value) → List (String × List Char)
  | [] => []
  | (k, x) :: ms => (k, canonicalize numberText x) :: canonicalizeMembers numberText ms
end

/-- `card.local?.[key] ?? null`. -/
def localMember (card : Value) (key : String) : Value :=
  Value.orNull ((card.get "local").bind (·.get key))

/-- The value that is hashed. -/
def launchSubject (card : Value) : Value :=
  .object [("launch", localMember card "launch"), ("endpoint", localMember card "endpoint")]

/-- `launchHash`. -/
def launchHash (numberText : Number → List Char) (sha256 : List Char → String) (card : Value) :
    String :=
  "sha256:" ++ sha256 (canonicalize numberText (launchSubject card))

/-! ### Values without numbers -/

mutual
/-- There is no number in the value. -/
def numberFree : Value → Bool
  | .number _ => false
  | .array items => numberFreeAll items
  | .object members => numberFreeMembers members
  | _ => true

/-- `numberFree` of every item. -/
def numberFreeAll : List Value → Bool
  | [] => true
  | x :: xs => numberFree x && numberFreeAll xs

/-- `numberFree` of every member's value. -/
def numberFreeMembers : List (String × Value) → Bool
  | [] => true
  | (_, x) :: ms => numberFree x && numberFreeMembers ms
end

@[simp] theorem numberFreeAll_iff (items : List Value) :
    numberFreeAll items = true ↔ ∀ x ∈ items, numberFree x = true := by
  induction items with
  | nil => simp [numberFreeAll]
  | cons x xs ih => simp [numberFreeAll, ih]

@[simp] theorem numberFreeMembers_iff (members : List (String × Value)) :
    numberFreeMembers members = true ↔ ∀ m ∈ members, numberFree m.2 = true := by
  induction members with
  | nil => simp [numberFreeMembers]
  | cons m ms ih =>
    obtain ⟨k, x⟩ := m
    simp [numberFreeMembers, ih]

theorem canonicalizeAll_eq (numberText : Number → List Char) (items : List Value) :
    canonicalizeAll numberText items = items.map (canonicalize numberText) := by
  induction items with
  | nil => rfl
  | cons x xs ih => simp [canonicalizeAll, ih]

theorem canonicalizeMembers_eq (numberText : Number → List Char)
    (members : List (String × Value)) : canonicalizeMembers numberText members =
      members.map fun m => (m.1, canonicalize numberText m.2) := by
  induction members with
  | nil => rfl
  | cons m ms ih =>
    obtain ⟨k, x⟩ := m
    simp [canonicalizeMembers, ih]

/-- Without numbers the text is the canonical one. -/
theorem canonicalize_eq_canonical (numberText : Number → List Char) {v : Value}
    (h : numberFree v = true) : canonicalize numberText v = canonical v := by
  induction v with
  | null => simp [canonicalize, canonical]
  | bool b => simp [canonicalize, canonical]
  | number n => simp [numberFree] at h
  | string s => simp [canonicalize, canonical]
  | array xs ih =>
    simp only [numberFree, numberFreeAll_iff] at h
    simp only [canonicalize, canonical, canonicalizeAll_eq, canonicalAll_eq]
    rw [List.map_congr_left fun x hx => ih x hx (h x hx)]
  | object ms ih =>
    simp only [numberFree, numberFreeMembers_iff] at h
    have htexts : ms.map (fun m => (m.1, canonicalize numberText m.2)) =
        ms.map fun m => (m.1, canonical m.2) :=
      List.map_congr_left fun m hm => by rw [ih m hm (h m hm)]
    simp only [canonicalize, canonical, canonicalizeMembers_eq, canonicalMembers_eq, htexts]
    rfl

end McpLocator.Client
