import McpLocator.Json.Serde

namespace McpLocator.Proto

open McpLocator.Json

/-!
# JSON-RPC messages

* `Request`, `Response` and the error codes of the broker's pipe protocol.
* `Request.paramStr`, `Request.paramBool` — a member of the parameters, if it has the right type.
-/

/-- The protocol version spoken over the pipe. -/
def brokerProtocol : Nat := 1

structure Request where
  jsonrpc : String
  id : JsonValue
  method : String
  params : Option JsonValue

structure RpcError where
  code : Int
  message : String
deriving DecidableEq, Repr

structure Response where
  jsonrpc : String
  id : JsonValue
  result : Option Value
  error : Option RpcError

def Response.ok (id : JsonValue) (result : Value) : Response :=
  { jsonrpc := "2.0", id, result := some result, error := none }

def Response.err (id : JsonValue) (code : Int) (message : String) : Response :=
  { jsonrpc := "2.0", id, result := none, error := some { code, message } }

/-! ### Error codes -/

def parseError : Int := -32700
def invalidRequest : Int := -32600
def methodNotFound : Int := -32601
def invalidParams : Int := -32602

/-! ### Results -/

structure HandshakeResult where
  brokerVersion : String
  brokerProtocol : Nat

/-- An integer as a JSON number. -/
def natValue (n : Nat) : Value := .number (.posInt (UInt64.ofNat n))

def HandshakeResult.serialize (r : HandshakeResult) : Value :=
  Serde.ofMembers
    [("brokerVersion", .string r.brokerVersion), ("brokerProtocol", natValue r.brokerProtocol)]

inductive ServerState where
  | registered | launching | running | idle | stopping | orphaned
deriving DecidableEq, Repr

/-- The serialized name of a server state. -/
def ServerState.name : ServerState → String
  | .registered => "registered"
  | .launching => "launching"
  | .running => "running"
  | .idle => "idle"
  | .stopping => "stopping"
  | .orphaned => "orphaned"

/-! ### Parameters -/

namespace Request

/-- A string among the parameters. -/
def paramStr (request : Request) (key : String) : Option String :=
  (request.params.bind (·.1.get key)).bind Value.asStr

/-- A flag among the parameters; anything but a Boolean is `false`. -/
def paramBool (request : Request) (key : String) : Bool :=
  ((request.params.bind (·.1.get key)).bind Serde.bool).getD false

end Request

end McpLocator.Proto
