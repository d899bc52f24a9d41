import McpLocator.Broker.Activation
import McpLocator.Proto.Rpc
import Mathlib.Data.List.DropRight

namespace McpLocator.Broker

open McpLocator.Json McpLocator.Proto

/-!
# The broker's connections

* `dispatch` — what a request comes to before it needs a lock: an answer, or a task.
* `Task` — where a connection is between two locks; `Broker` — the engine, the prompt lock and the
  tasks.
* `Event`, `Broker.step` — one connection reads a line, takes the lock its task waits for and does
  what it does under it, or ends; and what happens around the broker.

The engine lock is taken for one event at a time, so the interleavings of the events are those of the
tasks at the granularity of the two locks.
-/

set_option linter.dupNamespace false

/-! ### Codes -/

def consentRequired : Int := -32000
def activationFailed : Int := -32001
def inUse : Int := -32002

def brokerVersion : String := "0.1.0"

/-! ### Asking the user -/

/-- What comes back from the dialog; it is `unanswered` when it is dismissed or times out, when it
    cannot be shown, and when the client runs in a sandbox. -/
inductive Decision where
  | allow | deny | unanswered
deriving DecidableEq, Repr

/-- `Prompter::should_ask`. -/
def shouldAsk : ConsentState → Bool
  | .notAsked | .stale => true
  | .granted | .denied => false

/-- The Unicode property `White_Space`. -/
def isWhiteSpace (c : Char) : Bool :=
  (9 ≤ c.toNat && c.toNat ≤ 13) || (0x2000 ≤ c.toNat && c.toNat ≤ 0x200A) ||
    [0x20, 0x85, 0xA0, 0x1680, 0x2028, 0x2029, 0x202F, 0x205F, 0x3000].contains c.toNat

/-- `trim_end`. -/
def trimEnd (s : String) : String := String.ofList (s.toList.rdropWhile isWhiteSpace)

/-- The command line as the user would see it. -/
def launchSummary (entry : Entry) : String :=
  match entry.card.launch with
  | some launch =>
    let args := (launch.args.map (String.intercalate " ")).getD ""
    trimEnd s!"{launch.command} {args}"
  | none => (entry.card.endpoint.map (·.address)).getD "(no launch stanza)"

namespace Engine

/-- Consult the consent store. -/
def evaluate (engine : Engine) (name launchHash : String) : ConsentRecord × Engine :=
  let (record, consent) := engine.consent.evaluate engine.disk name launchHash
  (record, { engine with consent })

/-- Record the answer to a prompt, and tell the state that consent is in afterwards.  A grant that
    could not be written is not honoured. -/
def recordAnswer (engine : Engine) (entry : Entry) (record : ConsentRecord) (now : String)
    (outcome : WriteOutcome) : Decision → ConsentState × Engine
  | .allow =>
    let (result, disk, consent) := engine.consent.grant outcome engine.disk now entry.name
      entry.launchHash (launchSummary entry) .user
    (match result with
      | .error _ => .notAsked
      | .ok () => .granted,
      { engine with disk, consent })
  | .deny =>
    let (_, disk, consent) := engine.consent.deny outcome engine.disk now entry.name
    (.denied, { engine with disk, consent })
  | .unanswered => (record.state, engine)

end Engine

/-! ### What is shown of a server -/

/-- The serialized name of a tier. -/
def Tier.name : Tier → String
  | .package => "package"
  | .system => "system"
  | .user => "user"
  | .low => "low"

def Diagnostic.serialize (d : Diagnostic) : Value :=
  Serde.ofFields [("code", some (.string (d.code.name))), ("path", some (.string d.path)),
    ("message", some (.string d.message)), ("name", d.name.map .string)]

def ShadowedBy.serialize (s : ShadowedBy) : Value :=
  Serde.ofMembers [("path", .string s.path), ("tier", .string s.tier.name)]

def ActivateResult.serialize (r : ActivateResult) : Value :=
  Serde.ofMembers [("grantId", .string r.grantId),
    ("connection", Serde.ofMembers
      [("type", .string r.connection.transport), ("address", .string r.connection.address)])]

def stateOf (orphaned running : Bool) (grants : Nat) : ServerState :=
  match orphaned, running, grants with
  | true, _, _ => .orphaned
  | _, true, 0 => .idle
  | _, true, _ => .running
  | _, _, _ => .registered

/-- The row of `locator/list` for one entry. -/
def listedServer (engine : Engine) (entry : Entry) (consent : ConsentRecord) : Value :=
  let grants := engine.grantCount entry.name
  Serde.ofMembers [
    ("name", .string entry.name),
    ("version", .string entry.version),
    ("title", Serde.ofOption .string entry.card.title),
    ("description", .string entry.card.description),
    ("tier", .string entry.tier.name),
    ("path", .string entry.path),
    ("orphaned", .bool entry.orphaned),
    ("launchHash", .string entry.launchHash),
    ("state", .string (stateOf entry.orphaned (engine.isRunning entry.name) grants).name),
    ("consent", consent.serialize),
    ("grants", natValue grants),
    ("shadowed", .array (entry.shadowed.map ShadowedBy.serialize))]

/-- The rows of `locator/list`; consent is consulted for each. -/
def listServers (engine : Engine) : List Entry → List Value × Engine
  | [] => ([], engine)
  | entry :: entries =>
    let (consent, engine) := engine.evaluate entry.name entry.launchHash
    let row := listedServer engine entry consent
    let (rows, engine) := listServers engine entries
    (row :: rows, engine)

/-! ### Requests -/

/-- The card files and the environment that the catalog is derived from. -/
structure Registry where
  host : Host
  roots : List Root
  lookup : Lookup

/-- Where a connection is between two locks.  A task holds the id of the request it will answer. -/
inductive Task where
  /-- Waiting for a line. -/
  | idle
  | list (id : JsonValue) (catalog : Catalog)
  | status (id : JsonValue) (name : String) (entry : Entry)
  | query (id : JsonValue) (name : String) (entry : Entry)
  /-- An activation, before consent is looked at. -/
  | consult (id : JsonValue) (entry : Entry)
  /-- An activation waiting for the prompt lock. -/
  | queue (id : JsonValue) (entry : Entry)
  /-- An activation that holds the prompt lock, before consent is looked at again. -/
  | reread (id : JsonValue) (entry : Entry)
  /-- The dialog is open; `record` is what consent was when it opened. -/
  | prompt (id : JsonValue) (entry : Entry) (record : ConsentRecord)
  /-- An activation about to take its grant. -/
  | activate (id : JsonValue) (entry : Entry)
  | release (id : JsonValue) (grantId : String)
  | deactivate (id : JsonValue) (name : String) (force : Bool)
  /-- The connection has ended; its grants are still there. -/
  | closing
  | closed

section Dispatch

variable (sha256 : List Char → String)

/-- The catalog as the registry stands. -/
def currentCatalog (registry : Registry) (includeOrphaned : Bool) : Catalog :=
  enumerate registry.host sha256
    { roots := registry.roots, lookup := registry.lookup, includeOrphaned }

def findEntry (registry : Registry) (name : String) : Option Entry :=
  (currentCatalog sha256 registry true).entries.find? (·.name == name)

/-- A request about a server that must be in the catalog. -/
def withEntry (registry : Registry) (request : Request) (task : String → Entry → Task) :
    Response ⊕ Task :=
  match request.paramStr "name" with
  | none => .inl (.err request.id invalidParams "`name` is required")
  | some name =>
    match findEntry sha256 registry name with
    | none => .inl (.err request.id invalidParams s!"unknown server: {name}")
    | some entry => .inr (task name entry)

/-- Handle one request, up to the first lock. -/
def dispatch (registry : Registry) (request : Request) : Response ⊕ Task :=
  let id := request.id
  if request.jsonrpc ≠ "2.0" then .inl (.err id invalidRequest "jsonrpc must be \"2.0\"")
  else
    match request.method with
    | "locator/handshake" =>
      .inl (.ok id (HandshakeResult.serialize { brokerVersion, brokerProtocol }))
    | "locator/list" =>
      .inr (.list id (currentCatalog sha256 registry (request.paramBool "includeOrphaned")))
    | "locator/status" => withEntry sha256 registry request (.status id)
    | "locator/consent/query" => withEntry sha256 registry request (.query id)
    | "locator/activate" => withEntry sha256 registry request fun _ entry => .consult id entry
    | "locator/release" =>
      match request.paramStr "grantId" with
      | none => .inl (.err id invalidParams "`grantId` is required")
      | some grantId => .inr (.release id grantId)
    | "locator/deactivate" =>
      match request.paramStr "name" with
      | none => .inl (.err id invalidParams "`name` is required")
      | some name => .inr (.deactivate id name (request.paramBool "force"))
    | other => .inl (.err id methodNotFound s!"unknown method: {other}")

/-- `null`, the id of an answer to a line that is not a request. -/
def nullId : JsonValue := ⟨.null, rfl⟩

/-- What a line read comes to. -/
def serve (registry : Registry) : Except String Request → Response ⊕ Task
  | .ok request => dispatch sha256 registry request
  | .error message => .inl (.err nullId parseError message)

end Dispatch

/-! ### The broker -/

/-- The broker, with what it has answered, oldest first.  `available` is whether the prompter has its
    helper; `clientPid` is what the system says of the other end of a connection. -/
structure Broker where
  engine : Engine
  available : Bool
  promptLock : Option Nat
  clientPid : Nat → Option Nat
  tasks : Nat → Task
  written : List (Nat × Response)

inductive Event where
  /-- A line is read from a connection and dispatched; the registry is as it is at that moment. -/
  | receive (c : Nat) (line : Except String Request) (registry : Registry)
  /-- A task takes the engine lock; `order` and `outcome` are what the machine makes of it. -/
  | proceed (c : Nat) (order : IterationOrder) (outcome : StartOutcome)
  /-- A task takes the prompt lock. -/
  | lockPrompt (c : Nat)
  /-- The dialog closes, and the engine lock is taken to record the answer. -/
  | answer (c : Nat) (decision : Decision) (now : String) (outcome : WriteOutcome)
  /-- The connection ends, or breaks while it is written to. -/
  | hangUp (c : Nat)
  /-- A tick of the idle reaper. -/
  | reap (order : IterationOrder)
  | elapse (milliseconds : Nat)
  | expire (name : String)
  | exit (process : Nat)
  | outOfBand (now name : String) (action : ConsentAction) (outcome : WriteOutcome)

namespace Broker

/-- A broker that has just started. -/
def new (disk : Disk) (now brokerPid nextGrant : Nat) (available : Bool)
    (clientPid : Nat → Option Nat) : Broker :=
  { engine := .new disk now brokerPid nextGrant, available, promptLock := none, clientPid,
    tasks := fun _ => .idle, written := [] }

/-- The connection goes on with another task. -/
def setTask (broker : Broker) (c : Nat) (task : Task) : Broker :=
  { broker with tasks := Function.update broker.tasks c task }

/-- The connection answers its request and waits for the next line. -/
def respond (broker : Broker) (c : Nat) (response : Response) : Broker :=
  { broker.setTask c .idle with written := broker.written ++ [(c, response)] }

def withEngine (broker : Broker) (engine : Engine) : Broker := { broker with engine }

/-- What a task does once it has the engine lock. -/
def proceed (broker : Broker) (c : Nat) (order : IterationOrder) (outcome : StartOutcome) :
    Task → Option Broker
  | .list id catalog =>
    let (servers, engine) := listServers broker.engine catalog.entries
    some ((broker.withEngine engine).respond c (.ok id (Serde.ofMembers
      [("servers", .array servers),
        ("diagnostics", .array (catalog.diagnostics.map Diagnostic.serialize))])))
  | .status id name entry =>
    let grants := broker.engine.grantCount name
    let running := broker.engine.isRunning name
    let (consent, engine) := broker.engine.evaluate name entry.launchHash
    some ((broker.withEngine engine).respond c (.ok id (Serde.ofMembers
      [("name", .string name),
        ("state", .string (stateOf entry.orphaned running grants).name),
        ("grants", natValue grants),
        ("holders", .array ((engine.holders order name).map (Serde.ofOption natValue))),
        ("consent", consent.serialize)])))
  | .query id name entry =>
    let (consent, engine) := broker.engine.evaluate name entry.launchHash
    some ((broker.withEngine engine).respond c (.ok id consent.serialize))
  | .consult id entry =>
    let (consent, engine) := broker.engine.evaluate entry.name entry.launchHash
    some ((broker.withEngine engine).setTask c
      (if shouldAsk consent.state && broker.available then .queue id entry else .activate id entry))
  | .reread id entry =>
    let (consent, engine) := broker.engine.evaluate entry.name entry.launchHash
    if shouldAsk consent.state then
      some ((broker.withEngine engine).setTask c (.prompt id entry consent))
    else
      -- another connection has asked the same question in the meantime
      some { (broker.withEngine engine).setTask c (.activate id entry) with promptLock := none }
  | .activate id entry =>
    let (result, engine) := broker.engine.activate entry c (broker.clientPid c) outcome
    some ((broker.withEngine engine).respond c (match result with
      | .ok result => .ok id result.serialize
      | .error e => match e with
        | .consentRequired _ _ => .err id consentRequired e.message
        | _ => .err id activationFailed e.message))
  | .release id grantId =>
    let (released, engine) := broker.engine.release grantId
    some ((broker.withEngine engine).respond c
      (if released then .ok id (Serde.ofMembers [("released", .string grantId)])
        else .err id invalidParams s!"unknown grant: {grantId}"))
  | .deactivate id name force =>
    let (result, engine) := broker.engine.deactivate order name force
    some ((broker.withEngine engine).respond c (match result with
      | .ok count => .ok id (Serde.ofMembers
          [("name", .string name), ("grantsReleased", natValue count)])
      | .error holders =>
        let names := String.intercalate ", " holders
        .err id inUse s!"{name} is in use by {names}; pass force to stop it anyway"))
  | .closing =>
    some ((broker.withEngine (broker.engine.releaseConnection order c)).setTask c .closed)
  -- these do not wait for the engine lock
  | .idle | .queue _ _ | .prompt _ _ _ | .closed => none

/-- One event; `none` if it cannot happen now. -/
def step (sha256 : List Char → String) (broker : Broker) : Event → Option Broker
  | .receive c line registry =>
    match broker.tasks c with
    | .idle =>
      match serve sha256 registry line with
      | .inl response => some (broker.respond c response)
      | .inr task => some (broker.setTask c task)
    | _ => none
  | .proceed c order outcome => broker.proceed c order outcome (broker.tasks c)
  | .lockPrompt c =>
    match broker.tasks c, broker.promptLock with
    | .queue id entry, none => some { broker.setTask c (.reread id entry) with promptLock := some c }
    | _, _ => none
  | .answer c decision now outcome =>
    match broker.tasks c with
    | .prompt id entry record =>
      let (_, engine) := broker.engine.recordAnswer entry record now outcome decision
      some { (broker.withEngine engine).setTask c (.activate id entry) with promptLock := none }
    | _ => none
  | .hangUp c =>
    match broker.tasks c with
    | .idle => some (broker.setTask c .closing)
    | _ => none
  | .reap order => some (broker.withEngine (broker.engine.reapIdle order))
  | .elapse milliseconds =>
    some (broker.withEngine { broker.engine with now := broker.engine.now + milliseconds })
  | .expire name => some (broker.withEngine (broker.engine.expire name))
  | .exit process => some (broker.withEngine (broker.engine.shutdown ⟨process⟩))
  | .outOfBand now name action outcome =>
    -- a process of its own: it loads the store, writes and is gone
    let disk := broker.engine.disk
    some (broker.withEngine { broker.engine with
      disk := ((ConsentStore.load disk).perform outcome disk now name action).2.1 })

end Broker

end McpLocator.Broker
