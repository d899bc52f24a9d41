import McpLocator.Json.Serde

namespace McpLocator.Proto

open McpLocator.Json McpLocator.Json.Serde

/-!
# Cards and their validation

* `Launch`, `Endpoint`, `Liveness`, `Lifetime`, `Consent`, `LocalBlock`, `Card` — the typed card,
  each with what its derived `Deserialize` reads.
* `validate` — the hand-written rules; a refusal is an `Invalid` with its `message`.
* `isReverseDns` — the shape of a server name.
-/

/-! ### The typed card -/

inductive LaunchType where
  | stdio | executable
deriving DecidableEq, Repr

inductive EndpointType where
  | pipe | unixSocket | streamableHttp
deriving DecidableEq, Repr

structure Launch where
  launchType : LaunchType
  command : String
  args : Option (List String)
  cwd : Option String
  shared : Option Bool
deriving DecidableEq, Repr

structure Endpoint where
  endpointType : EndpointType
  address : String
deriving DecidableEq, Repr

structure Liveness where
  pidFile : Option String
  probe : Option Bool
deriving DecidableEq, Repr

structure Lifetime where
  idleTimeoutSeconds : Option UInt64
deriving DecidableEq, Repr

structure Consent where
  summary : Option String
deriving DecidableEq, Repr

structure LocalBlock where
  launch : Option Launch
  endpoint : Option Endpoint
  liveness : Option Liveness
  lifetime : Option Lifetime
  consent : Option Consent
deriving DecidableEq, Repr

structure Card where
  name : String
  version : String
  description : String
  title : Option String
  localBlock : Option LocalBlock
  remotes : Option (List Value)

/-- Why a card file did not yield a catalog entry. -/
inductive DiagnosticCode where
  | malformedJson | schemaInvalid | filenameMismatch | unreadable | shadowed
deriving DecidableEq, Repr

/-- The serialized name of a diagnostic code. -/
def DiagnosticCode.name : DiagnosticCode → String
  | .malformedJson => "malformed-json"
  | .schemaInvalid => "schema-invalid"
  | .filenameMismatch => "filename-mismatch"
  | .unreadable => "unreadable"
  | .shadowed => "shadowed"

/-! ### Deserialization -/

/-- The serialized names of `LaunchType`. -/
def LaunchType.variants : List (String × LaunchType) :=
  [("stdio", .stdio), ("executable", .executable)]

/-- The serialized names of `EndpointType`. -/
def EndpointType.variants : List (String × EndpointType) :=
  [("pipe", .pipe), ("unix-socket", .unixSocket), ("streamable-http", .streamableHttp)]

def Launch.deserialize (v : Value) : Option Launch := do
  let fs ← fields 5 v
  let launchType ← fs.required 0 "type" (unitEnum LaunchType.variants)
  let command ← fs.required 1 "command" string
  let args ← fs.defaulted 2 "args" (vec string)
  let cwd ← fs.defaulted 3 "cwd" string
  let shared ← fs.defaulted 4 "shared" bool
  return { launchType, command, args, cwd, shared }

def Endpoint.deserialize (v : Value) : Option Endpoint := do
  let fs ← fields 2 v
  let endpointType ← fs.required 0 "type" (unitEnum EndpointType.variants)
  let address ← fs.required 1 "address" string
  return { endpointType, address }

def Liveness.deserialize (v : Value) : Option Liveness := do
  let fs ← fields 2 v
  let pidFile ← fs.defaulted 0 "pidFile" string
  let probe ← fs.defaulted 1 "probe" bool
  return { pidFile, probe }

def Lifetime.deserialize (v : Value) : Option Lifetime := do
  let fs ← fields 1 v
  let idleTimeoutSeconds ← fs.defaulted 0 "idleTimeoutSeconds" u64
  return { idleTimeoutSeconds }

def Consent.deserialize (v : Value) : Option Consent := do
  let fs ← fields 1 v
  let summary ← fs.defaulted 0 "summary" string
  return { summary }

def LocalBlock.deserialize (v : Value) : Option LocalBlock := do
  let fs ← fields 5 v
  let launch ← fs.defaulted 0 "launch" Launch.deserialize
  let endpoint ← fs.defaulted 1 "endpoint" Endpoint.deserialize
  let liveness ← fs.defaulted 2 "liveness" Liveness.deserialize
  let lifetime ← fs.defaulted 3 "lifetime" Lifetime.deserialize
  let consent ← fs.defaulted 4 "consent" Consent.deserialize
  return { launch, endpoint, liveness, lifetime, consent }

def Card.deserialize (v : Value) : Option Card := do
  let fs ← fields 6 v
  let name ← fs.required 0 "name" string
  let version ← fs.required 1 "version" string
  let description ← fs.required 2 "description" string
  let title ← fs.defaulted 3 "title" string
  let localBlock ← fs.defaulted 4 "local" LocalBlock.deserialize
  let remotes ← fs.defaulted 5 "remotes" (vec value)
  return { name, version, description, title, localBlock, remotes }

/-! ### Names -/

/-- `is_ascii_lowercase`, `is_ascii_digit` or a hyphen. -/
def isLabelChar (c : Char) : Bool :=
  (decide ('a' ≤ c) && decide (c ≤ 'z')) || (decide ('0' ≤ c) && decide (c ≤ '9')) || c == '-'

/-- One dot-separated label of a name. -/
def isLabel (label : List Char) : Bool :=
  !label.isEmpty && label.all isLabelChar && label.head? != some '-' && label.getLast? != some '-'

/-- `is_reverse_dns`: at least two labels, at most 200 bytes. -/
def isReverseDns (name : String) : Bool :=
  let labels := name.toList.splitOn '.'
  if labels.length < 2 || name.utf8ByteSize > 200 then false
  else labels.all isLabel

/-! ### Validation -/

/-- Why a card is invalid. -/
inductive Invalid where
  | notAnObject
  | missingField (field : String)
  | nameNotAString
  | notReverseDns (name : String)
  | notDeserializable
  | nothingDeclared
  | executableWithoutEndpoint
deriving DecidableEq, Repr

/-- The reason as `validate` words it; `serde` is the deserializer's own error text. -/
def Invalid.message (serde : String) : Invalid → String
  | notAnObject => "card must be a JSON object"
  | missingField field => s!"missing required field `{field}`"
  | nameNotAString => "`name` must be a string"
  | notReverseDns name => s!"`name` is not a reverse-DNS identifier: {name}"
  | notDeserializable => serde
  | nothingDeclared => "card declares no launch, endpoint, or remotes"
  | executableWithoutEndpoint => "`executable` launch requires `local.endpoint`"

/-- The launch stanza of a card. -/
def Card.launch (card : Card) : Option Launch := card.localBlock.bind (·.launch)

/-- The endpoint stanza of a card. -/
def Card.endpoint (card : Card) : Option Endpoint := card.localBlock.bind (·.endpoint)

/-- The checks after deserialization: something to connect to, and an endpoint to serve on. -/
def checkDeclared (card : Card) : Except Invalid Card :=
  let hasLaunch := card.launch.isSome
  let hasEndpoint := card.endpoint.isSome
  let hasRemotes := card.remotes.any fun r => !r.isEmpty
  if !hasLaunch && !hasEndpoint && !hasRemotes then .error .nothingDeclared
  else match card.launch with
    | some launch =>
      if launch.launchType = .executable ∧ hasEndpoint = false then
        .error .executableWithoutEndpoint
      else .ok card
    | none => .ok card

/-- `validate`. -/
def validate (v : Value) : Except Invalid Card :=
  match v with
  | .object obj =>
    match ["name", "version", "description"].find? fun f => (obj.lookup f).isNone with
    | some field => .error (.missingField field)
    | none =>
      match (obj.lookup "name").bind Value.asStr with
      | none => .error .nameNotAString
      | some name =>
        if isReverseDns name = false then .error (.notReverseDns name)
        else match Card.deserialize v with
          | none => .error .notDeserializable
          | some card => checkDeclared card
  | _ => .error .notAnObject

end McpLocator.Proto
