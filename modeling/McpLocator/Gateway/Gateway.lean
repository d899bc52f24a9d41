import McpLocator.Gateway.Alias
import McpLocator.Js.Map

namespace McpLocator.Gateway

open Js

/-!
# The gateway (gateway.ts)

One `Gateway` and the tool calls it is handling.  A call runs from one `await` to the next without
interruption; what it awaits is its `Phase`.

* `activateCall`, `deactivateCall` — a tool call up to its first `await`.
* `advance` — a call goes on with what it awaited.
* `exportedTools`, `dispatch`, `forwardCall` — the tools of the active servers, and calls to them.
-/

structure Tool where
  name : JsString
  description : Option JsString
deriving DecidableEq

/-- What the broker returns for an activation: the id of the grant and the address of its relay. -/
structure Grant where
  grantId : JsString
  address : JsString
deriving DecidableEq

/-- An MCP client: the call that made it, and the address that its transport connects to. -/
structure Client where
  call : Nat
  address : JsString
deriving DecidableEq

/-- `shortName` is the field `alias`, the short name used to namespace the tools of the server. -/
structure ActiveServer where
  name : JsString
  grantId : JsString
  client : Client
  tools : List Tool
  shortName : JsString
deriving DecidableEq

structure ToolResult where
  text : JsString
  isError : Bool
deriving DecidableEq

def textResult (text : JsString) : ToolResult := ⟨text, false⟩

def errorResult (text : JsString) : ToolResult := ⟨text, true⟩

/-- What `broker.activate` throws; only a `BrokerError` has a code. -/
structure ActivateError where
  code : Option Int
  message : JsString
deriving DecidableEq

/-- `e instanceof BrokerError && e.isConsentRequired`. -/
def ActivateError.isConsentRequired (e : ActivateError) : Bool := e.code == some (-32000)

/-- How a call ended. -/
inductive Outcome where
  | returned (result : ToolResult)
  | threw (message : JsString)
deriving DecidableEq

/-- What a call awaits.  `broker` is the connection that the call goes on with. -/
inductive Phase where
  /-- `connectBroker` in `#brokerClient`. -/
  | connecting (name : JsString)
  /-- The promise of `#brokerClient`, which holds the connection. -/
  | resuming (name : JsString) (broker : Nat)
  | activating (name : JsString) (broker : Nat)
  | connectingClient (name : JsString) (broker : Nat) (grant : Grant)
  | listing (name : JsString) (broker : Nat) (grant : Grant)
  /-- `sendToolListChanged`, after the entry was set. -/
  | notifying (name : JsString) (broker : Nat) (grant : Grant) (tools : List Tool)
      (shortName : JsString)
  /-- `client.close` after an error, whose message is kept. -/
  | closing (name : JsString) (broker : Nat) (grant : Grant) (message : JsString)
  | releasing (name : JsString) (broker : Nat) (grant : Grant) (message : JsString)
  | deactivateClosing (active : ActiveServer)
  | deactivateConnecting (active : ActiveServer)
  | deactivateResuming (active : ActiveServer) (broker : Nat)
  | deactivateReleasing (active : ActiveServer) (broker : Nat)
  | deactivateNotifying (active : ActiveServer)
  | finished (outcome : Outcome)
deriving DecidableEq

/-- `broker` and `active` are the fields of the gateway, `calls` the tool calls it has been given.
    The rest says what has happened: the grants that `broker.activate` has returned to calls, the
    ids that `broker.release` has released, and the clients that `close` was called on. -/
structure State where
  broker : Option Nat
  active : JsMap JsString ActiveServer
  calls : List Phase
  issued : List (Nat × Grant)
  released : List JsString
  closed : List Nat
deriving DecidableEq

inductive Request where
  | activate (name : JsString)
  | deactivate (name : JsString)

/-- What an awaited promise settles with. -/
inductive Reply where
  | connected (result : Except JsString Nat)
  | resumed
  | activated (result : Except ActivateError Grant)
  | listed (result : Except JsString (List Tool))
  | settled (result : Except JsString Unit)

inductive Event where
  | request (r : Request)
  | reply (call : Nat) (r : Reply)

/-! ### Texts -/

def alreadyActive (name : JsString) : ToolResult := textResult (name ++ ofString " is already active.")

def nameRequired : ToolResult := errorResult (ofString "activate requires a server name")

def ActivateError.result (name : JsString) (e : ActivateError) : ToolResult :=
  if e.isConsentRequired then
    errorResult (name ++ ofString (" has not been approved by the user, so it cannot be started. " ++
      "Ask the user to approve it; you cannot approve it yourself."))
  else errorResult (ofString "could not activate " ++ name ++ ofString ": " ++ e.message)

def activatedResult (name shortName : JsString) (tools : List Tool) : ToolResult :=
  textResult (ofString "Activated " ++ name ++ ofString ". " ++ decimal tools.length ++
    ofString " tool(s) now available as " ++ shortName ++ [namespaceSeparator] ++ ofString "*: " ++
    (ofString ", ").intercalate (tools.map Tool.name))

def notMcp (name message : JsString) : ToolResult :=
  errorResult (name ++ ofString " started but did not speak MCP: " ++ message)

def notActive (name : JsString) : ToolResult := errorResult (name ++ ofString " is not active")

def deactivatedResult (name : JsString) : ToolResult :=
  textResult (ofString "Deactivated " ++ name ++ ofString ". Its tools are no longer available.")

/-! ### Steps -/

namespace State

def init : State := ⟨none, .empty, [], [], [], []⟩

/-- A further call, up to its first `await`. -/
def begin (s : State) (phase : Phase) : State := { s with calls := s.calls ++ [phase] }

/-- A call goes on to its next `await`. -/
def move (s : State) (call : Nat) (phase : Phase) : State :=
  { s with calls := s.calls.set call phase }

/-- The aliases in use. -/
def aliases (s : State) : List JsString := s.active.values.map ActiveServer.shortName

def activateCall (s : State) (name : JsString) : State :=
  if name.isEmpty then s.begin (.finished (.returned nameRequired))
  else if s.active.has name then s.begin (.finished (.returned (alreadyActive name)))
  else match s.broker with
    | none => s.begin (.connecting name)
    | some broker => s.begin (.resuming name broker)

def deactivateCall (s : State) (name : JsString) : State :=
  match s.active.get name with
  | none => s.begin (.finished (.returned (notActive name)))
  | some active =>
    { s with active := s.active.delete name, closed := active.client.call :: s.closed }.begin
      (.deactivateClosing active)

/-- Set the entry of a server whose tools have been listed. -/
def record (s : State) (call : Nat) (name : JsString) (grant : Grant) (tools : List Tool)
    (shortName : JsString) : State :=
  let entry := { name, grantId := grant.grantId, client := ⟨call, grant.address⟩, tools, shortName }
  { s with active := s.active.set name entry }

/-- An error after the grant was issued: the client is closed first. -/
def fail (s : State) (call : Nat) (name : JsString) (broker : Nat) (grant : Grant)
    (message : JsString) : State :=
  { s with closed := call :: s.closed }.move call (.closing name broker grant message)

/-- What `broker.release` has settled with; a failure is caught and ignored. -/
def release (s : State) (grantId : JsString) : Except JsString Unit → State
  | .ok _ => { s with released := grantId :: s.released }
  | .error _ => s

@[simp] theorem release_active (s : State) (grantId : JsString) (result : Except JsString Unit) :
    (s.release grantId result).active = s.active := by cases result <;> rfl

@[simp] theorem release_calls (s : State) (grantId : JsString) (result : Except JsString Unit) :
    (s.release grantId result).calls = s.calls := by cases result <;> rfl

@[simp] theorem release_issued (s : State) (grantId : JsString) (result : Except JsString Unit) :
    (s.release grantId result).issued = s.issued := by cases result <;> rfl

@[simp] theorem release_closed (s : State) (grantId : JsString) (result : Except JsString Unit) :
    (s.release grantId result).closed = s.closed := by cases result <;> rfl

@[simp] theorem release_broker (s : State) (grantId : JsString) (result : Except JsString Unit) :
    (s.release grantId result).broker = s.broker := by cases result <;> rfl

/-- A call in phase `phase` goes on with what it awaited. -/
def advance (s : State) (call : Nat) : Phase → Reply → Option State
  | .connecting name, .connected (.ok broker) =>
    some ({ s with broker := some broker }.move call (.resuming name broker))
  | .connecting _, .connected (.error message) => some (s.move call (.finished (.threw message)))
  | .resuming name broker, .resumed => some (s.move call (.activating name broker))
  | .activating name broker, .activated (.ok grant) =>
    some ({ s with issued := s.issued ++ [(call, grant)] }.move call
      (.connectingClient name broker grant))
  | .activating name _, .activated (.error e) =>
    some (s.move call (.finished (.returned (e.result name))))
  | .connectingClient name broker grant, .settled (.ok _) =>
    some (s.move call (.listing name broker grant))
  | .connectingClient name broker grant, .settled (.error message) =>
    some (s.fail call name broker grant message)
  | .listing name broker grant, .listed (.ok tools) =>
    let shortName := aliasFor name s.aliases
    some ((s.record call name grant tools shortName).move call
      (.notifying name broker grant tools shortName))
  | .listing name broker grant, .listed (.error message) =>
    some (s.fail call name broker grant message)
  | .notifying name _ _ tools shortName, .settled (.ok _) =>
    some (s.move call (.finished (.returned (activatedResult name shortName tools))))
  | .notifying name broker grant _ _, .settled (.error message) =>
    some (s.fail call name broker grant message)
  -- a failure to close is caught and ignored
  | .closing name broker grant message, .settled _ =>
    some (s.move call (.releasing name broker grant message))
  | .releasing name _ grant message, .settled result =>
    some ((s.release grant.grantId result).move call (.finished (.returned (notMcp name message))))
  | .deactivateClosing active, .settled _ =>
    some (match s.broker with
      | none => s.move call (.deactivateConnecting active)
      | some broker => s.move call (.deactivateResuming active broker))
  | .deactivateConnecting active, .connected (.ok broker) =>
    some ({ s with broker := some broker }.move call (.deactivateResuming active broker))
  | .deactivateConnecting _, .connected (.error message) =>
    some (s.move call (.finished (.threw message)))
  | .deactivateResuming active broker, .resumed =>
    some (s.move call (.deactivateReleasing active broker))
  | .deactivateReleasing active _, .settled result =>
    some ((s.release active.grantId result).move call (.deactivateNotifying active))
  | .deactivateNotifying active, .settled (.ok _) =>
    some (s.move call (.finished (.returned (deactivatedResult active.name))))
  | .deactivateNotifying _, .settled (.error message) =>
    some (s.move call (.finished (.threw message)))
  | _, _ => none

def step (s : State) : Event → Option State
  | .request (.activate name) => some (s.activateCall name)
  | .request (.deactivate name) => some (s.deactivateCall name)
  | .reply call r => (s.calls[call]?).bind fun phase => s.advance call phase r

end State

/-! ### The exported tools -/

/-- `META_TOOLS`. -/
def metaTools : List Tool :=
  [{ name := ofString "list_servers",
     description := ofString ("List the MCP servers registered on this machine, with their state and " ++
      "whether the user has approved them. Call this first to discover what is available.") },
   { name := ofString "activate",
     description := ofString ("Start a registered MCP server and expose its tools. The server's tools " ++
      "become callable as \x60<alias>.<tool>\x60 immediately after this returns. Requires that the " ++
      "user has already approved the server.") },
   { name := ofString "deactivate",
     description := ofString ("Stop using a server activated earlier and remove its tools. The server " ++
      "shuts down once no other client is using it.") }]

def exportedName (server : ActiveServer) (tool : Tool) : JsString :=
  server.shortName ++ namespaceSeparator :: tool.name

def exportedTool (server : ActiveServer) (tool : Tool) : Tool where
  name := exportedName server tool
  description := trim (ofString "[" ++ server.name ++ ofString "] " ++ tool.description.getD [])

def State.exportedTools (s : State) : List Tool :=
  s.active.values.flatMap fun server => server.tools.map (exportedTool server)

/-- `tools/list`. -/
def State.listTools (s : State) : List Tool := metaTools ++ s.exportedTools

/-- Which method a `tools/call` goes to. -/
inductive Dispatch where
  | listServers | activate | deactivate | forward
deriving DecidableEq

def dispatch (name : JsString) : Dispatch :=
  if name = ofString "list_servers" then .listServers
  else if name = ofString "activate" then .activate
  else if name = ofString "deactivate" then .deactivate
  else .forward

def unknownTool (namespaced : JsString) : ToolResult :=
  errorResult (ofString "unknown tool: " ++ namespaced ++
    ofString (". Activate the server that provides it first, or call list_servers to see what is " ++
      "available."))

/-- Split at the first separator, unless the name starts with it. -/
def splitName (namespaced : JsString) : JsString × JsString :=
  let separator := namespaced.idxOf namespaceSeparator
  if 0 < separator ∧ separator < namespaced.length then
    (namespaced.take separator, namespaced.drop (separator + 1))
  else ([], namespaced)

/-- The server whose client is called, and the tool that it is called for. -/
def State.forward (s : State) (namespaced : JsString) :
    Except ToolResult (ActiveServer × JsString) :=
  let (shortName, toolName) := splitName namespaced
  match s.active.values.find? fun server => server.shortName = shortName with
  | none => .error (unknownTool namespaced)
  | some server => .ok (server, toolName)

/-- What `#forward` returns for what the client's `callTool` has settled with. -/
def forwarded {α : Type} (server : ActiveServer) (toolName : JsString) :
    Except JsString α → Except ToolResult α
  | .ok result => .ok result
  | .error message => .error (errorResult (server.name ++ ofString " failed to run " ++ toolName ++
      ofString ": " ++ message))

/-- `#forward`; `callTool` is what the client of a server settles with. -/
def State.forwardCall {α : Type} (s : State) (callTool : ActiveServer → JsString → Except JsString α)
    (namespaced : JsString) : Except ToolResult α :=
  match s.forward namespaced with
  | .error result => .error result
  | .ok (server, toolName) => forwarded server toolName (callTool server toolName)

end McpLocator.Gateway
