import McpLocator.Json.Serde
import McpLocator.Lib.TreeMap

namespace McpLocator.Broker

open McpLocator.Json McpLocator.Json.Serde

/-!
# The contents of `consent.json`

* `ConsentRecord` — one decision, with the reader and the writer of its JSON form.
* `Records` — the whole store, a map from server names to records.
* `decode`, `encode` — the file's text to records and back; `decode_encode` is the round trip.
-/

/-! ### Records -/

inductive ConsentState where
  | granted | denied | notAsked | stale
deriving DecidableEq, Repr

inductive ConsentScope where
  | user | client
deriving DecidableEq, Repr

structure ConsentRecord where
  state : ConsentState
  grantedAt : Option String
  launchHash : Option String
  launchCommand : Option String
  scope : Option ConsentScope
deriving DecidableEq, Repr

def ConsentRecord.notAsked : ConsentRecord :=
  { state := .notAsked, grantedAt := none, launchHash := none, launchCommand := none, scope := none }

/-- The serialized name of a state. -/
def ConsentState.name : ConsentState → String
  | .granted => "granted"
  | .denied => "denied"
  | .notAsked => "not-asked"
  | .stale => "stale"

/-- The state as `{:?}` prints it. -/
def ConsentState.debug : ConsentState → String
  | .granted => "Granted"
  | .denied => "Denied"
  | .notAsked => "NotAsked"
  | .stale => "Stale"

def ConsentState.variants : List (String × ConsentState) :=
  [("granted", .granted), ("denied", .denied), ("not-asked", .notAsked), ("stale", .stale)]

/-- The serialized name of a scope. -/
def ConsentScope.name : ConsentScope → String
  | .user => "user"
  | .client => "client"

def ConsentScope.variants : List (String × ConsentScope) := [("user", .user), ("client", .client)]

def ConsentRecord.fieldNames : List String :=
  ["state", "grantedAt", "launchHash", "launchCommand", "scope"]

def ConsentRecord.deserialize (v : Value) : Option ConsentRecord := do
  let fs ← textFields fieldNames v
  let state ← fs.required 0 "state" (unitEnum ConsentState.variants)
  let grantedAt ← fs.optional 1 "grantedAt" string
  let launchHash ← fs.optional 2 "launchHash" string
  let launchCommand ← fs.optional 3 "launchCommand" string
  let scope ← fs.optional 4 "scope" (unitEnum ConsentScope.variants)
  return { state, grantedAt, launchHash, launchCommand, scope }

/-- The members of a record's JSON form. -/
def ConsentRecord.members (r : ConsentRecord) : List (String × Option Value) :=
  [("state", some (.string r.state.name)), ("grantedAt", r.grantedAt.map .string),
    ("launchHash", r.launchHash.map .string), ("launchCommand", r.launchCommand.map .string),
    ("scope", r.scope.map fun s => .string s.name)]

/-- The JSON form of a record; what is absent is skipped. -/
def ConsentRecord.serialize (r : ConsentRecord) : Value := ofFields r.members

/-! ### The file -/

/-- `BTreeMap<String, ConsentRecord>`. -/
abbrev Records := Std.ExtTreeMap String ConsentRecord

/-- What a text file holds: a JSON value, its objects possibly with several members of one name, or
    something that is not JSON. -/
inductive FileText where
  | json (v : Value)
  | other

/-- Read the records of a JSON value: all or nothing, the last of several for one server. -/
def readRecords : Value → Option Records
  | .object ms =>
    (ms.mapM fun m => (ConsentRecord.deserialize m.2).map fun r => (m.1, r)).map
      fun rs => Std.ExtTreeMap.ofList rs
  | _ => none

/-- `serde_json::from_str`. -/
def decode : FileText → Option Records
  | .json v => readRecords v
  | .other => none

/-- The records as a JSON object. -/
def recordsValue (records : Records) : Value :=
  .object (records.toList.map fun p => (p.1, p.2.serialize))

/-! ### Round trip -/

theorem ConsentState.lookup_name (s : ConsentState) :
    ConsentState.variants.lookup s.name = some s := by
  cases s <;> rfl

theorem ConsentScope.lookup_name (s : ConsentScope) :
    ConsentScope.variants.lookup s.name = some s := by
  cases s <;> rfl

theorem ConsentRecord.nodup_members (r : ConsentRecord) : (r.members.map Prod.fst).Nodup := by
  show ["state", "grantedAt", "launchHash", "launchCommand", "scope"].Nodup
  decide

/-- An optional string field reads back as it was written. -/
theorem optional_string {ms : List (String × Value)} {i : Nat} {name : String} {o : Option String}
    (h : ms.lookup name = o.map .string) : (Fields.named ms).optional i name string = some o := by
  unfold Fields.optional
  simp only [Fields.find, h]
  cases o <;> rfl

/-- An object that gives no field twice, and each field as the record has it, is read as the
    record. -/
theorem ConsentRecord.deserialize_of_lookup {ms : List (String × Value)} {r : ConsentRecord}
    (honce : repeated fieldNames (.object ms) = false)
    (h : ∀ name, ms.lookup name = (r.members.lookup name).join) :
    ConsentRecord.deserialize (.object ms) = some r := by
  have hgranted : ms.lookup "grantedAt" = r.grantedAt.map .string := by
    simp [h, members, List.lookup_cons]
  have hhash : ms.lookup "launchHash" = r.launchHash.map .string := by
    simp [h, members, List.lookup_cons]
  have hcommand : ms.lookup "launchCommand" = r.launchCommand.map .string := by
    simp [h, members, List.lookup_cons]
  have hstate : (Fields.named ms).required 0 "state" (unitEnum ConsentState.variants) =
      some r.state := by
    have hfound : ms.lookup "state" = some (.string r.state.name) := by simp [h, members]
    simp [Fields.required, Fields.find, hfound, unitEnum, ConsentState.lookup_name]
  have hscope : (Fields.named ms).optional 4 "scope" (unitEnum ConsentScope.variants) =
      some r.scope := by
    have hfound : ms.lookup "scope" = r.scope.map fun s => .string s.name := by
      simp [h, members, List.lookup_cons]
    unfold Fields.optional
    simp only [Fields.find, hfound]
    cases r.scope with
    | none => rfl
    | some s => simp [option, unitEnum, ConsentScope.lookup_name]
  have hfields : textFields fieldNames (.object ms) = some (.named ms) := by
    rw [textFields, honce]
    rfl
  rw [ConsentRecord.deserialize, hfields, Option.bind_eq_bind, Option.bind_some, hstate,
    optional_string hgranted, optional_string hhash, optional_string hcommand, hscope]
  rfl

/-- **A record reads back as it was written.** -/
theorem ConsentRecord.deserialize_serialize (r : ConsentRecord) :
    ConsentRecord.deserialize r.serialize = some r := by
  have hget := get_ofFields r.nodup_members
  exact deserialize_of_lookup (repeated_eq_false (nodup_ofFields r.nodup_members) _) hget

/-- `serde_json::to_string_pretty` of the records. -/
def encode (records : Records) : FileText := .json (recordsValue records)

/-- **The store reads back as it was written.** -/
theorem decode_encode (records : Records) : decode (encode records) = some records := by
  have hmap : ∀ ps : List (String × ConsentRecord),
      (ps.map fun p => (p.1, p.2.serialize)).mapM (fun m =>
        (ConsentRecord.deserialize m.2).map fun r => (m.1, r)) = some ps := by
    intro ps
    induction ps with
    | nil => rfl
    | cons p ps ih => simp [ConsentRecord.deserialize_serialize, ih]
  show readRecords (recordsValue records) = some records
  rw [recordsValue, readRecords, hmap, Option.map_some, TreeMap.ofList_toList]

/-! ### What is read of a file -/

/-- The records of a file that the broker can read. -/
theorem readRecords_of_readable {ms : List (String × Value)}
    (h : ∀ m ∈ ms, (ConsentRecord.deserialize m.2).isSome = true) :
    readRecords (.object ms) = some (Std.ExtTreeMap.ofList
      (ms.map fun m => (m.1, (ConsentRecord.deserialize m.2).getD .notAsked))) := by
  have key : ms.mapM (fun m => (ConsentRecord.deserialize m.2).map fun r => (m.1, r)) =
      some (ms.map fun m => (m.1, (ConsentRecord.deserialize m.2).getD .notAsked)) := by
    induction ms with
    | nil => rfl
    | cons m ms ih =>
      obtain ⟨r, hr⟩ := Option.isSome_iff_exists.mp (h m List.mem_cons_self)
      simp [hr, ih fun m hm => h m (List.mem_cons_of_mem _ hm)]
  rw [readRecords, key, Option.map_some]

/-- One record that the broker cannot read, and it reads none. -/
theorem readRecords_of_not_readable {ms : List (String × Value)}
    (h : ¬∀ m ∈ ms, (ConsentRecord.deserialize m.2).isSome = true) :
    readRecords (.object ms) = none := by
  have key : ms.mapM (fun m => (ConsentRecord.deserialize m.2).map fun r => (m.1, r)) = none := by
    induction ms with
    | nil => simp at h
    | cons m ms ih =>
      rw [List.forall_mem_cons, not_and_or] at h
      cases hr : ConsentRecord.deserialize m.2 with
      | none => simp [hr]
      | some r =>
        have hms := h.resolve_left fun hm => hm (by rw [hr]; rfl)
        simp [hr, ih hms]
  rw [readRecords, key, Option.map_none]

end McpLocator.Broker
