import McpLocator.Broker.Catalog
import McpLocator.Broker.ConsentFile

namespace McpLocator.Broker

open McpLocator.Json McpLocator.Proto

/-!
# What an entry executes and hands out

* `spawnCommand` — the process an entry starts: program, arguments, working directory and the
  environment pairs, which come from the raw expanded card.
* `sharedConnection` — the endpoint an `executable` entry hands out.
-/

structure ConnectionInfo where
  transport : String
  address : String
deriving DecidableEq, Repr

inductive ActivateError where
  | unknownServer (name : String)
  | consentRequired (name : String) (state : ConsentState)
  | orphaned (name : String)
  | notActivatable (name : String)
  | io (message : String)
deriving DecidableEq, Repr

/-- The error as it is displayed. -/
def ActivateError.message : ActivateError → String
  | unknownServer name => s!"unknown server: {name}"
  | consentRequired name state =>
    s!"consent required for {name} (currently {state.debug}); grant it interactively before activating"
  | orphaned name => s!"{name} is orphaned: its launch command is missing"
  | notActivatable name => s!"{name} declares no launch command, so it cannot be started"
  | io message => message

/-- A process about to be started. -/
structure Command where
  program : String
  args : List String
  currentDir : Option String
  env : List (String × String)
  piped : Bool
deriving DecidableEq, Repr

/-- The string members of a JSON object, in order. -/
def stringMembers : Value → List (String × String)
  | .object ms => ms.filterMap fun m => m.2.asStr.map fun s => (m.1, s)
  | _ => []

/-- The environment of the launch stanza, looked up in the raw card. -/
def launchEnv (card : Value) : List (String × String) :=
  ((((card.get "local").bind (·.get "launch")).bind (·.get "env")).map stringMembers).getD []

/-- `spawn_command`, up to the spawn itself. -/
def spawnCommand (entry : Entry) (piped : Bool) : Except ActivateError Command :=
  match entry.card.launch with
  | none => .error (.notActivatable entry.name)
  | some launch =>
    .ok { program := launch.command, args := launch.args.getD [], currentDir := launch.cwd,
          env := launchEnv entry.expanded.1, piped }

/-- `{:?}` of an endpoint type, in lower case. -/
def transport : EndpointType → String
  | .pipe => "pipe"
  | .unixSocket => "unixsocket"
  | .streamableHttp => "streamablehttp"

/-- The connection `attach_shared` answers with. -/
def sharedConnection (entry : Entry) : Except ActivateError ConnectionInfo :=
  match entry.card.endpoint with
  | none => .error (.notActivatable entry.name)
  | some endpoint => .ok { transport := transport endpoint.endpointType, address := endpoint.address }

end McpLocator.Broker
