import McpLocator.Client.Calls
import McpLocator.Gateway.Gateway

namespace McpLocator.Gateway

open Js
open McpLocator.Json (Value Literal)
open McpLocator.Client (received isTruthy assign_fields assign_text property_fields)
open McpLocator.Broker (Entry ConsentRecord ConsentState Engine)

/-!
# `list_servers`

* `listRow`, `listRows` — what the gateway makes of the servers that the broker lists; `none` stands for
  a property of something that has none, which throws.
* `listServers` — the answer to the tool call.
* `received_property` — an object that the broker writes is received member by member.
* `listRow_received` — the row of an entry of the catalog.
-/

/-! ### The tool -/

/-- `BROKER_CARD` -/
def brokerCard : JsString := ofString "io.mcplocator.broker"

structure Row where
  name : Option JsValue
  title : Option JsValue
  description : Option JsValue
  version : Option JsValue
  trust : Option JsValue
  state : Option JsValue
  consent : Option JsValue
  activated : Bool
  activatable : Bool

/-- A property; `undefined` and `null` have none. -/
def read (v : Option JsValue) (key : String) : Option (Option JsValue) :=
  match v with
  | none => none
  | some .null => none
  | some v => some (v.property key)

/-- `v === s` -/
def isText (v : Option JsValue) (s : JsString) : Bool :=
  match v with
  | some (.string t) => t == s
  | _ => false

/-- `this.#active.has(v)`; the keys are strings. -/
def hasActive (active : JsMap JsString ActiveServer) : Option JsValue → Bool
  | some (.string name) => active.has name
  | _ => false

section Rows

variable (rounded : Literal → Option Nat) (active : JsMap JsString ActiveServer)

/-- The row of one server. -/
def listRow (server : JsValue) : Option Row := do
  let name ← read (some server) "name"
  let title ← read (some server) "title"
  let description ← read (some server) "description"
  let version ← read (some server) "version"
  let trust ← read (some server) "tier"
  let state ← read (some server) "state"
  let consent ← read (← read (some server) "consent") "state"
  let orphaned ← read (some server) "orphaned"
  return { name, title, description, version, trust, state, consent, activated := hasActive active name,
           activatable := isText consent (ofString "granted") && !orphaned.any (isTruthy rounded) &&
             !hasActive active name }

/-- The rows of the servers other than the broker itself. -/
def listRows : List JsValue → Option (List Row)
  | [] => some []
  | server :: servers => do
    let name ← read (some server) "name"
    if isText name brokerCard then listRows servers
    else
      let row ← listRow rounded active server
      let rows ← listRows servers
      return row :: rows

/-- What the user still has to approve. -/
def hint (rows : List Row) : JsString :=
  let unapproved := (rows.filter fun r => !isText r.consent (ofString "granted")).length
  if unapproved = 0 then []
  else ofString "\n\n" ++ decimal unapproved ++ ofString (" server(s) need the user's approval before " ++
    "they can be activated; the user grants that outside this conversation.")

/-- The rows reported for what `broker.list` was answered with. -/
def reported (result : Option JsValue) : Option (List Row) := do
  match ← read result "servers" with
  | some (.array servers) => listRows rounded active servers
  | _ => none

/-- `#listServers`; `pretty` is `JSON.stringify(rows, null, 2)`. -/
def listServers (pretty : List Row → JsString) (result : Option JsValue) : Option ToolResult := do
  let rows ← reported rounded active result
  return textResult (pretty rows ++ hint rows)

end Rows

/-! ### What is received -/

/-- **An object is received member by member.** -/
theorem received_property {ms : List (String × Value)} (h : (ms.map Prod.fst).Nodup) (key : String) :
    (received (.object ms)).property key = (ms.lookup key).map received := by
  have hfields : (ms.map fun m => (m.1, m.2.document)).map Prod.fst = ms.map Prod.fst := by
    rw [List.map_map]
    rfl
  have hobject : received (.object ms) = .object ((ms.map fun m => (m.1, m.2.document)).map fun m =>
      (ofString m.1, assign (m.2.map units))) := by
    rw [← assign_fields _ (hfields ▸ h), received, Value.document, Value.documentMembers_eq, List.map_map]
    rfl
  rw [hobject, property_fields, Value.lookup_map_snd (fun _ x => x.document) key ms, Option.map_map]
  rfl

theorem received_object_ne_null (ms : List (String × Value)) : received (.object ms) ≠ .null := by
  rw [received, Value.document, Json.Document.map_object, assign_object]
  exact nofun

theorem read_received {ms : List (String × Value)} (h : (ms.map Prod.fst).Nodup) (key : String) :
    read (some (received (.object ms))) key = some ((ms.lookup key).map received) := by
  rw [← received_property h, read]
  exact received_object_ne_null ms

theorem received_string (s : String) : received (.string s) = .string (ofString s) := assign_text s

theorem received_array (items : List Value) : received (.array items) = .array (items.map received) := by
  rw [received, Value.document, Value.documentAll_eq, Json.Document.map_array, assign_array, List.map_map,
    List.map_map]
  rfl

theorem read_ofMembers {ms : List (String × Value)} (h : (ms.map Prod.fst).Nodup) (key : String) :
    read (some (received (Json.Serde.ofMembers ms))) key = some ((ms.lookup key).map received) := by
  have hsorted : ((Json.sortMembers id ms).map Prod.fst).Nodup :=
    ((Json.sortMembers_perm id ms).map Prod.fst).nodup_iff.mpr h
  rw [Json.Serde.ofMembers, read_received hsorted, Json.lookup_sortMembers_self id h]

/-- The state of a consent record. -/
theorem read_serialize_state (r : ConsentRecord) :
    read (some (received r.serialize)) "state" = some (some (.string (ofString r.state.name))) := by
  have hget : (Value.object (Json.sortMembers id (r.members.filterMap fun f =>
      f.2.map fun v => (f.1, v)))).get "state" = some (.string r.state.name) :=
    Json.Serde.get_ofFields (ConsentRecord.nodup_members r) "state"
  rw [ConsentRecord.serialize, Json.Serde.ofFields,
    read_received (Json.Serde.nodup_ofFields (ConsentRecord.nodup_members r)), ← Value.get_object, hget,
    Option.map_some, received_string]

/-! ### The rows of a catalog -/

section Catalog

variable (rounded : Literal → Option Nat) (active : JsMap JsString ActiveServer)

/-- The row of an entry. -/
def entryRow (engine : Engine) (entry : Entry) (consent : ConsentRecord) : Row :=
  { name := some (.string (ofString entry.name))
    title := some (received (Json.Serde.ofOption .string entry.card.title))
    description := some (.string (ofString entry.card.description))
    version := some (.string (ofString entry.version))
    trust := some (.string (ofString entry.tier.name))
    state := some (.string (ofString (Broker.stateOf entry.orphaned (engine.isRunning entry.name)
      (engine.grantCount entry.name)).name))
    consent := some (.string (ofString consent.state.name))
    activated := active.has (ofString entry.name)
    activatable := decide (consent.state = .granted) && !entry.orphaned && !active.has (ofString entry.name) }

theorem isText_state (state : ConsentState) :
    isText (some (.string (ofString state.name))) (ofString "granted") = decide (state = .granted) := by
  rw [isText, Client.ofString_beq]
  cases state <;> decide

/-- The members of a row of the broker. -/
def listedMembers (engine : Engine) (entry : Entry) (consent : ConsentRecord) : List (String × Value) :=
  [("name", .string entry.name), ("version", .string entry.version),
    ("title", Json.Serde.ofOption .string entry.card.title),
    ("description", .string entry.card.description), ("tier", .string entry.tier.name),
    ("path", .string entry.path), ("orphaned", .bool entry.orphaned),
    ("launchHash", .string entry.launchHash),
    ("state", .string (Broker.stateOf entry.orphaned (engine.isRunning entry.name)
      (engine.grantCount entry.name)).name),
    ("consent", consent.serialize), ("grants", Proto.natValue (engine.grantCount entry.name)),
    ("shadowed", .array (entry.shadowed.map Broker.ShadowedBy.serialize))]

theorem read_listedServer (engine : Engine) (entry : Entry) (consent : ConsentRecord) (key : String)
    {v : Value} (h : (listedMembers engine entry consent).lookup key = some v) :
    read (some (received (Broker.listedServer engine entry consent))) key = some (some (received v)) := by
  have hnodup : ((listedMembers engine entry consent).map Prod.fst).Nodup := by
    show ["name", "version", "title", "description", "tier", "path", "orphaned", "launchHash", "state",
      "consent", "grants", "shadowed"].Nodup
    decide
  have hread := read_ofMembers hnodup key
  rwa [h] at hread

/-- **What the gateway makes of a row of the broker.** -/
theorem listRow_received (engine : Engine) (entry : Entry) (consent : ConsentRecord) :
    listRow rounded active (received (Broker.listedServer engine entry consent)) =
      some (entryRow active engine entry consent) := by
  have hread := read_listedServer engine entry consent
  have hbool : received (.bool entry.orphaned) = .bool entry.orphaned := rfl
  simp only [listRow, hread "name" rfl, hread "title" rfl, hread "description" rfl, hread "version" rfl,
    hread "tier" rfl, hread "state" rfl, hread "consent" rfl, hread "orphaned" rfl, Option.bind_eq_bind,
    Option.bind_some, read_serialize_state, received_string, hbool, isText_state, hasActive,
    Option.any_some, isTruthy]
  rfl

end Catalog

end McpLocator.Gateway
