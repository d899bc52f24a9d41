import McpLocator.Lib.Scan
import McpLocator.Json.Value

namespace McpLocator.Proto

open McpLocator.Json

/-!
# Environment expansion

* `expandEnv` — the index loop over the characters of a string; a `none` on the way stands for an
  index out of range or for running out of fuel, and neither happens.
* `expandCard` — `expandEnv` in every field that resolves to a location.
-/

/-! ### The loop -/

/-- A character a variable name may start with. -/
def isVarStart (c : Char) : Bool := c.isAlpha || c == '_'

/-- A character a variable name may go on with. -/
def isVarChar (c : Char) : Bool := c.isAlphanum || c == '_'

/-- `is_var_name`. -/
def isVarName (name : List Char) : Bool :=
  !name.isEmpty && name.head?.any isVarStart && name.all isVarChar

/-- `find_var`: the characters from `start` to the next closer, and where that is. -/
def findVar (chars : List Char) (start : Nat) (closer : Char) : Option (List Char × Nat) :=
  ((chars.drop start).findIdx? (· == closer)).map fun n => ((chars.drop start).take n, n + start)

/-- The closer of the reference that may start here, and how many characters open it. -/
def opening (c : Char) (next : Option Char) : Option (Char × Nat) :=
  if c = '%' then some ('%', 1)
  else if c = '$' ∧ next = some '{' then some ('}', 2)
  else none

/-- One round of the loop: what is pushed, and the next index. -/
def expandStep (lookup : String → Option String) (chars : List Char) (i : Nat) :
    Option (List Char × Nat) :=
  match chars[i]? with
  | none => none
  | some c =>
    match opening c chars[i + 1]? with
    | none => some ([c], i + 1)
    | some (closer, skip) =>
      -- slicing past the end would panic
      if chars.length < i + skip then none
      else match findVar chars (i + skip) closer with
        | some (name, stop) =>
          if isVarName name then
            match lookup (String.ofList name) with
            | some value => some (value.toList, stop + 1)
            | none => some ((chars.take (stop + 1)).drop i, stop + 1)
          else some ([c], i + 1)
        | none => some ([c], i + 1)

/-- `while i < chars.len()`. -/
def expandLoop (lookup : String → Option String) (chars : List Char) :
    Nat → Nat → List Char → Option (List Char)
  | 0, i, out => if i < chars.length then none else some out
  | fuel + 1, i, out =>
    if i < chars.length then
      match expandStep lookup chars i with
      | none => none
      | some (pushed, j) => expandLoop lookup chars fuel j (out ++ pushed)
    else some out

/-- `expand_env`. -/
def expandEnv (input : String) (lookup : String → Option String) : String :=
  String.ofList ((expandLoop lookup input.toList input.toList.length 0 []).getD [])

/-! ### Cards -/

/-- `expand_string_field`. -/
def expandStringField (lookup : String → Option String) : Value → Value
  | .string s => .string (expandEnv s lookup)
  | v => v

/-- The launch block: `command`, `cwd`, each of `args`, each value of `env`. -/
def expandLaunch (lookup : String → Option String) (launch : Value) : Value :=
  let field := expandStringField lookup
  (((launch.modify "command" field).modify "cwd" field).modify "args" (Value.mapItems field)).modify
    "env" (Value.mapMembers field)

/-- The local block: `launch`, the endpoint's `address`, the liveness `pidFile`. -/
def expandLocal (lookup : String → Option String) (v : Value) : Value :=
  let field := expandStringField lookup
  ((v.modify "launch" (expandLaunch lookup)).modify "endpoint" (Value.modify "address" field)).modify
    "liveness" (Value.modify "pidFile" field)

/-- `expand_card`. -/
def expandCard (v : Value) (lookup : String → Option String) : Value :=
  v.modify "local" (expandLocal lookup)

theorem wf_expandStringField {lookup : String → Option String} {v : Value} (h : v.wf = true) :
    (expandStringField lookup v).wf = true := by
  cases v <;> exact h

theorem wf_expandCard {lookup : String → Option String} {v : Value} (h : v.wf = true) :
    (expandCard v lookup).wf = true := by
  have field : ∀ x : Value, x.wf = true → (expandStringField lookup x).wf = true :=
    fun _ => wf_expandStringField
  refine Value.wf_modify (fun b hb => ?_) h
  refine Value.wf_modify (fun _ => Value.wf_modify field) ?_
  refine Value.wf_modify (fun _ => Value.wf_modify field) ?_
  refine Value.wf_modify (fun l hl => ?_) hb
  refine Value.wf_modify (fun _ => Value.wf_mapMembers field) ?_
  refine Value.wf_modify (fun _ => Value.wf_mapItems field) ?_
  exact Value.wf_modify field (Value.wf_modify field hl)

end McpLocator.Proto
