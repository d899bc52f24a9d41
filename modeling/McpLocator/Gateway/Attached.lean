import McpLocator.Client.Calls
import McpLocator.Gateway.Grants

namespace McpLocator.Gateway

open Js Json Transition

/-!
# A gateway attached to its broker

The gateway (gateway.ts), its connections (broker.ts) and the broker (server.rs), each as it is
modelled by itself, with the lines that are on their way between them.

* `Phase.call` — the call to the broker that a tool call is waiting for.
* `Link` — a connection of the gateway: the client's side of it, and what the broker has not read yet.
* `Attached.step` — any of the parties goes on; other clients may do anything to the broker meanwhile.

No connection is lost.  The broker releases what a lost one holds by itself.
-/

/-! ### Calls to the broker -/

def handshakeCall : Client.Call where
  method := ofString "locator/handshake"
  params := [(ofString "libVersion", .string (ofString "0.1.0")),
    (ofString "brokerProtocol", .number 1)]
  nodup := by decide

def listCall (includeOrphaned : Bool) : Client.Call where
  method := ofString "locator/list"
  params := [(ofString "includeOrphaned", .bool includeOrphaned)]
  nodup := List.nodup_singleton _

def activateCall (name : JsString) : Client.Call where
  method := ofString "locator/activate"
  params := [(ofString "name", .string name)]
  nodup := List.nodup_singleton _

def releaseCall (grantId : JsString) : Client.Call where
  method := ofString "locator/release"
  params := [(ofString "grantId", .string grantId)]
  nodup := List.nodup_singleton _

/-- The call that is made on entering a phase, and its connection. -/
def Phase.call : Phase → Option (Nat × Client.Call)
  | activating name broker => some (broker, activateCall name)
  | releasing _ broker grant _ => some (broker, releaseCall grant.grantId)
  | deactivateReleasing active broker => some (broker, releaseCall active.grantId)
  | _ => none

/-- The grant in the result of an activation. -/
def grantOf (result : JsValue) : Option Grant :=
  match result.property "grantId", (result.property "connection").bind (JsValue.property "address") with
  | some (.string grantId), some (.string address) => some ⟨grantId, address⟩
  | _, _ => none

def codeOf : JsValue → Option Int
  | .number l => (String.ofList l.text).toInt?
  | _ => none

def messageText : Option JsValue → JsString
  | some (.string s) => s
  | _ => []

/-- What the promise of a call settles with. -/
def Phase.settle : Phase → Client.Outcome → Option Reply
  | activating _ _, .resolved result => (result.bind grantOf).map fun g => .activated (.ok g)
  | activating _ _, .rejected code message =>
    some (.activated (.error ⟨code.bind codeOf, messageText message⟩))
  | releasing .., .resolved _ | deactivateReleasing .., .resolved _ => some (.settled (.ok ()))
  | releasing .., .rejected _ message | deactivateReleasing .., .rejected _ message =>
    some (.settled (.error (messageText message)))
  | _, _ => none

/-! ### Connections -/

/-- A call on a connection: the tool call that waits for it, if one does, and its id. -/
structure Asked where
  owner : Option Nat
  id : Nat
  call : Client.Call

/-- A connection.  `heard` is how many of its answers have come to the client. -/
structure Link where
  client : Client.BrokerClient
  asked : List Asked
  unread : List Char
  read : List (List Char)
  heard : Nat

namespace Link

/-- The connection as it stands with a broker. -/
def session (link : Link) (broker : Broker.Broker) : Client.Session :=
  { client := link.client, calls := link.asked.map fun a => (a.id, a.call),
    conn := { unread := link.unread, ended := false, read := link.read, broker },
    heard := link.heard }

def start : Link :=
  { client := { nextId := 1, pending := .empty, settled := [] }, asked := [], unread := [], read := [],
    heard := 0 }

/-- A call is written to the connection. -/
def send (link : Link) (owner : Option Nat) (call : Client.Call) : Link :=
  let (client, line) := link.client.call link.asked.length call
  { link with client, asked := link.asked ++ [⟨owner, link.client.nextId, call⟩],
              unread := link.unread ++ line }

end Link

/-! ### The parties together -/

structure Attached where
  gateway : State
  broker : Broker.Broker
  links : Nat → Option Link

inductive Move where
  /-- A tool call is made. -/
  | request (r : Request)
  /-- What a tool call awaits settles, if it is not a call to the broker. -/
  | reply (call : Nat) (r : Reply)
  /-- A connection is made, and the handshake is sent. -/
  | dial (c : Nat)
  /-- A connection whose handshake was answered is given to the tool call that asked for it. -/
  | connect (call c : Nat)
  /-- The call of `list_servers`; where it has connected by itself, that is a `dial`. -/
  | list (c : Nat) (includeOrphaned : Bool)
  /-- An answer comes to the client. -/
  | hear (c : Nat)
  /-- The broker's loop for a connection asks for its next line. -/
  | serve (c : Nat) (registry : Broker.Registry)
  /-- Anything else that happens to the broker. -/
  | broker (event : Broker.Event)

/-- The connection that an event reads from. -/
def reader : Broker.Event → Option Nat
  | .receive c _ _ | .hangUp c => some c
  | _ => none

namespace Attached

/-- A gateway and a broker that have nothing to do with each other yet. -/
def start (broker : Broker.Broker) : Attached := { gateway := .init, broker, links := fun _ => none }

def setLink (s : Attached) (c : Nat) (link : Link) : Attached :=
  { s with links := Function.update s.links c (some link) }

/-- A tool call has entered its phase: the call to the broker, if there is one, is written. -/
def push (s : Attached) (call : Nat) : Attached :=
  match (s.gateway.calls[call]?).bind Phase.call with
  | none => s
  | some (c, request) =>
    match s.links c with
    | none => s
    | some link => s.setLink c (link.send (some call) request)

/-- A tool call goes on. -/
def goOn (s : Attached) (call : Nat) (r : Reply) : Option Attached :=
  (s.gateway.step (.reply call r)).map fun gateway => { s with gateway }.push call

/-- The promise of a call on a connection has settled. -/
def settle (s : Attached) (owner : Option Nat) (outcome : Client.Outcome) : Option Attached :=
  match owner with
  | none => some s
  | some call => ((s.gateway.calls[call]?).bind fun p => p.settle outcome).bind (s.goOn call)

section Step

variable (sha256 : List Char → String) (float : Literal → Option FloatText)
  (describe : List Char → String) (rounded : Literal → Option Nat)

/-- One move; `none` if it cannot happen now. -/
def step (s : Attached) : Move → Option Attached
  | .request r => (s.gateway.step (.request r)).map fun gateway => { s with gateway }
  | .reply call r =>
    match r with
    | .activated _ | .connected (.ok _) => none
    | r => if ((s.gateway.calls[call]?).bind Phase.call).isSome then none else s.goOn call r
  | .dial c =>
    match s.links c, s.broker.tasks c with
    | none, .idle =>
      if s.broker.answers c = [] then some (s.setLink c (Link.start.send none handshakeCall)) else none
    | _, _ => none
  | .connect call c =>
    (s.links c).bind fun link =>
      if link.heard = 0 then none else s.goOn call (.connected (.ok c))
  | .list c includeOrphaned =>
    (s.links c).map fun link => s.setLink c (link.send none (listCall includeOrphaned))
  | .hear c =>
    (s.links c).bind fun link =>
      ((link.session s.broker).step sha256 float describe rounded c .hear).bind fun session =>
        let after := s.setLink c { link with client := session.client, heard := session.heard }
        match session.client.settled.drop link.client.settled.length with
        | [(promise, outcome)] => after.settle ((link.asked[promise]?).bind Asked.owner) outcome
        | _ => some after
  | .serve c registry =>
    (s.links c).bind fun link =>
      ((link.session s.broker).conn.step sha256 float describe c (.next registry)).map fun conn =>
        { s with broker := conn.broker }.setLink c
          { link with unread := conn.unread, read := conn.read }
  | .broker event =>
    if ((reader event).bind s.links).isSome then none
    else (s.broker.step sha256 event).map fun broker => { s with broker }

end Step

/-- All calls could be written, each under an id of its own. -/
def Legible (s : Attached) : Prop :=
  ∀ c link, s.links c = some link →
    link.asked.length ≤ 2 ^ 53 ∧ ∀ a ∈ link.asked, a.call.isWellFormed = true

/-- No tool call sets its entry under a name that has one. -/
def Respects (s : Attached) : Move → Prop
  | .reply call r => NotOverwriting s.gateway (.reply call r)
  | _ => True

end Attached

end McpLocator.Gateway
