import McpLocator.Json.FromStr
import McpLocator.Proto.Rpc

namespace McpLocator.Proto

open McpLocator.Json

/-!
# Messages on the wire (rpc.rs)

* `Request.fromStr` — `serde_json::from_str::<Request>`.
* `Response.encode` — `serde_json::to_string` of a response.
* `IsAnswer` — what every answer says when it is parsed: its id, and either a result or an error.
-/

/-! ### Reading requests -/

namespace Request

/-- The fields in the order of their declaration. -/
def fieldNames : List String := ["jsonrpc", "id", "method", "params"]

section Reading

variable (float : Literal → Option FloatText)

/-- A request from what is given for its fields.  The limit of 128 levels counts the request itself. -/
def ofFields (find : Nat → String → Option (Document (List Point))) : Option Request := do
  let jsonrpc ← (find 0 "jsonrpc").bind Document.text
  let id ← (find 1 "id").bind fun t => t.value float 127
  let method ← (find 2 "method").bind Document.text
  let params ← match find 3 "params" with
    | none | some .null => some none
    | some t => (t.value float 127).map some
  some { jsonrpc, id, method, params }

/-- A struct is read from an object, or from an array of its fields. -/
def ofDocument : Document (List Point) → Option Request
  | .object members =>
    (textMembers fieldNames members).bind fun members => ofFields float fun _ name => members.lookup name
  | .array items =>
    if items.length ≤ fieldNames.length then ofFields float fun i _ => items[i]? else none
  | _ => none

def fromStr (line : List Char) : Option Request := (parse line).bind (ofDocument float)

variable {float}

/-- A request all of whose fields are given. -/
theorem ofFields_of_find {find : Nat → String → Option (Document (List Point))} {jsonrpc : String}
    {id method params : Document (List Point)}
    (hjsonrpc : find 0 "jsonrpc" = some (.string (pointsOf jsonrpc))) (hid : find 1 "id" = some id)
    (hmethod : find 2 "method" = some method) (hparams : find 3 "params" = some params)
    (hne : params ≠ .null) : ofFields float find =
      (id.value float 127).bind fun id => method.text.bind fun method =>
        (params.value float 127).map fun params => { jsonrpc, id, method, params := some params } := by
  rw [ofFields, hjsonrpc, hid, hmethod, hparams, Option.bind_some, text_string_pointsOf]
  cases params with
  | null => exact absurd rfl hne
  | _ =>
    simp only [Option.bind_eq_bind, Option.bind_some, Option.map_eq_bind, Option.bind_assoc]
    rfl

/-- An object that gives each field once. -/
theorem ofDocument_object {jsonrpc : String} {id method params : Document (List Point)}
    (hne : params ≠ .null) :
    ofDocument float (.object [(pointsOf "jsonrpc", .string (pointsOf jsonrpc)), (pointsOf "id", id),
      (pointsOf "method", method), (pointsOf "params", params)]) =
      (id.value float 127).bind fun id => method.text.bind fun method =>
        (params.value float 127).map fun params => { jsonrpc, id, method, params := some params } := by
  have hmembers : textMembers fieldNames
      [(pointsOf "jsonrpc", .string (pointsOf jsonrpc)), (pointsOf "id", id),
        (pointsOf "method", method), (pointsOf "params", params)] =
      some [("jsonrpc", .string (pointsOf jsonrpc)), ("id", id), ("method", method),
        ("params", params)] := by
    simp [textMembers, textOf_pointsOf, fieldNames]
  rw [ofDocument, hmembers, Option.bind_some]
  exact ofFields_of_find rfl rfl rfl rfl hne

end Reading

end Request

/-! ### Writing responses -/

def RpcError.document (e : RpcError) : Document (List Point) :=
  .object [(pointsOf "code", .number (.ofInt e.code)), (pointsOf "message", .string (pointsOf e.message))]

namespace Response

/-- There is a result or an error, and not both. -/
def Exclusive (r : Response) : Prop := r.result.isSome = r.error.isNone

/-- An absent member is left out. -/
def document (r : Response) : Document (List Point) :=
  .object ([(pointsOf "jsonrpc", .string (pointsOf r.jsonrpc)), (pointsOf "id", r.id.1.document)] ++
    (r.result.map fun v => (pointsOf "result", v.document)).toList ++
    (r.error.map fun e => (pointsOf "error", e.document)).toList)

def encode (r : Response) : List Char := render r.document

/-- What a line says that answers a request: the id, and either a result or an error. -/
structure IsAnswer (r : Response) (line : List Char) : Prop where
  oneLine : '\n' ∉ line
  object : ∃ members, parse line = some (.object members) ∧
    members.lookup (pointsOf "id") = some r.id.1.document ∧
    (members.lookup (pointsOf "result")).isSome = (members.lookup (pointsOf "error")).isNone

/-- **What is written says so.** -/
theorem isAnswer_encode {r : Response} (h : r.Exclusive) : IsAnswer r r.encode := by
  refine ⟨newline_not_mem_render _, _, parse_render _, ?_, ?_⟩
  · rw [List.cons_append, List.cons_append, List.cons_append, List.lookup_cons, pointsOf_beq]
    exact List.lookup_cons_self
  · obtain ⟨jsonrpc, id, result, error⟩ := r
    have hone : result.isSome = error.isNone := h
    cases result <;> cases error <;>
      simp_all [List.lookup_cons, pointsOf_beq]

end Response

end McpLocator.Proto
