import McpLocator.Broker.Consent
import McpLocator.Broker.Spawn

namespace McpLocator.Broker

open Std (ExtTreeMap)
open McpLocator.Proto

/-!
# The activation engine

* `Grant`, `SharedServer`, `Engine` — the tables of the engine, and what its methods reach outside
  it: the consent file, the clock, the counter of grant ids and the processes started.
* `activate` with `startStdio` and `attachShared`; `release`, `releaseConnection`, `deactivate`,
  `retire`, `reapIdle`.
* `Operation`, `Engine.perform` — what can happen to an engine between two moments at which its lock
  is free, the passing of time and other processes' decisions included.

A hash table is iterated in an order of its own: operations that iterate take it as a parameter.
-/

/-! ### State -/

/-- A child process, by its place among the processes the broker has started. -/
structure Child where
  process : Nat
deriving DecidableEq, Repr

/-- A process that was started: the entry `spawn_command` was called with, what it built, and whether
    the process has not been stopped. -/
structure Process where
  entry : Entry
  command : Command
  running : Bool

/-- The task that sleeps through an idle window; `due` is in milliseconds. -/
structure IdleTimer where
  due : Nat
  finished : Bool
deriving DecidableEq, Repr

inductive GrantKind where
  | stdio (child : Child)
  | endpoint
deriving DecidableEq, Repr

/-- One client's claim on one server. -/
structure Grant where
  name : String
  connection : Nat
  clientPid : Option Nat
  kind : GrantKind
deriving DecidableEq, Repr

/-- A refcounted `executable` server, shared across grants. -/
structure SharedServer where
  child : Option Child
  refcount : Nat
  idleTimer : Option IdleTimer
deriving DecidableEq, Repr

/-- The entry that `or_insert` puts into the table. -/
def SharedServer.absent : SharedServer := { child := none, refcount := 0, idleTimer := none }

/-- `DEFAULT_IDLE_TIMEOUT`, in milliseconds. -/
def defaultIdleTimeout : Nat := 300000

/-- A share is let go of.  The last claim released starts the idle timer rather than stopping the
    server at once, so that a client reconnecting within the window reuses it. -/
def SharedServer.released (server : SharedServer) (now : Nat) : SharedServer :=
  let refcount := server.refcount - 1
  { server with
    refcount,
    idleTimer := if 0 < refcount then server.idleTimer
      else some { due := now + defaultIdleTimeout, finished := false } }

/-- The engine, with what its methods reach outside it.  `nextGrant` is a 64-bit counter that no
    broker lives to exhaust. -/
structure Engine where
  consent : ConsentStore
  grants : ExtTreeMap String Grant
  shared : ExtTreeMap String SharedServer
  disk : Disk
  now : Nat
  brokerPid : Nat
  nextGrant : Nat
  processes : List Process

structure ActivateResult where
  grantId : String
  connection : ConnectionInfo
deriving DecidableEq, Repr

/-- The order in which a hash table happens to be iterated. -/
abbrev IterationOrder := { f : List String → List String // ∀ keys, (f keys).Perm keys }

/-- What the system does for one activation: the relay's connection or the error of creating it,
    whether the process could be started, and which of its pipes could be taken. -/
structure StartOutcome where
  listener : Except String ConnectionInfo
  spawned : Except String Unit
  stdin : Bool
  stdout : Bool

namespace Engine

/-- `Engine::new`: nothing granted, nothing started. -/
def new (disk : Disk) (now brokerPid nextGrant : Nat) : Engine :=
  { consent := .load disk, grants := ∅, shared := ∅, disk, now, brokerPid, nextGrant,
    processes := [] }

/-- The row of a server, as `or_insert` would find or make it. -/
def server (engine : Engine) (name : String) : SharedServer :=
  engine.shared[name]?.getD .absent

def setServer (engine : Engine) (name : String) (server : SharedServer) : Engine :=
  { engine with shared := engine.shared.insert name server }

/-! ### Processes -/

/-- Start a process. -/
def spawn (engine : Engine) (entry : Entry) (piped : Bool) (spawned : Except String Unit) :
    Except ActivateError Child × Engine :=
  match spawnCommand entry piped with
  | .error e => (.error e, engine)
  | .ok command =>
    match spawned with
    | .error message => (.error (.io message), engine)
    | .ok () =>
      (.ok ⟨engine.processes.length⟩,
        { engine with processes := engine.processes ++ [{ entry, command, running := true }] })

/-- `shutdown`: the process exits on its own or is killed. -/
def shutdown (engine : Engine) (child : Child) : Engine :=
  { engine with
    processes := engine.processes.modify child.process fun p => { p with running := false } }

/-- Shut down the child there may be. -/
def shutdownAny (engine : Engine) : Option Child → Engine
  | some child => engine.shutdown child
  | none => engine

/-! ### Activation -/

/-- Spawn a child dedicated to one grant.  A child whose pipes cannot be taken is dropped, which kills
    it. -/
def startStdio (engine : Engine) (entry : Entry) (outcome : StartOutcome) :
    Except ActivateError (GrantKind × ConnectionInfo) × Engine :=
  match outcome.listener with
  | .error message => (.error (.io message), engine)
  | .ok info =>
    match engine.spawn entry true outcome.spawned with
    | (.error e, engine) => (.error e, engine)
    | (.ok child, engine) =>
      if outcome.stdin = false then
        (.error (.io "child stdin was not piped"), engine.shutdown child)
      else if outcome.stdout = false then
        (.error (.io "child stdout was not piped"), engine.shutdown child)
      else (.ok (.stdio child, info), engine)

/-- Join (or start) the shared child behind a declared endpoint. -/
def attachShared (engine : Engine) (entry : Entry) (outcome : StartOutcome) :
    Except ActivateError (GrantKind × ConnectionInfo) × Engine :=
  match sharedConnection entry with
  | .error e => (.error e, engine)
  | .ok connection =>
    -- a grant that arrives during the idle window cancels the pending shutdown
    let server := { engine.server entry.name with idleTimer := none }
    let engine := engine.setServer entry.name server
    match server.child with
    | some _ =>
      (.ok (.endpoint, connection),
        engine.setServer entry.name { server with refcount := server.refcount + 1 })
    | none =>
      match engine.spawn entry false outcome.spawned with
      | (.error e, engine) => (.error e, engine)
      | (.ok child, engine) =>
        (.ok (.endpoint, connection),
          engine.setServer entry.name
            { server with child := some child, refcount := server.refcount + 1 })

/-- The id of the `n`-th grant of a broker process. -/
def grantId (brokerPid n : Nat) : String := s!"g{brokerPid}-{n}"

/-- The engine with a grant more. -/
def addGrant (engine : Engine) (id : String) (grant : Grant) : Engine :=
  { engine with grants := engine.grants.insert id grant }

/-- Enter the grant for a server that could be started. -/
def enter (started : Except ActivateError (GrantKind × ConnectionInfo) × Engine) (id name : String)
    (connection : Nat) (clientPid : Option Nat) : Except ActivateError ActivateResult × Engine :=
  match started with
  | (.error e, engine) => (.error e, engine)
  | (.ok (kind, info), engine) =>
    (.ok { grantId := id, connection := info },
      engine.addGrant id { name, connection, clientPid, kind })

/-- Take a grant, starting the server if it is not already running. -/
def activate (engine : Engine) (entry : Entry) (connection : Nat) (clientPid : Option Nat)
    (outcome : StartOutcome) : Except ActivateError ActivateResult × Engine :=
  if entry.orphaned = true then (.error (.orphaned entry.name), engine)
  else
    let (consent, store) := engine.consent.evaluate engine.disk entry.name entry.launchHash
    let engine := { engine with consent := store }
    if consent.state ≠ .granted then (.error (.consentRequired entry.name consent.state), engine)
    else
      match entry.card.launch with
      | none => (.error (.notActivatable entry.name), engine)
      | some launch =>
        let id := grantId engine.brokerPid engine.nextGrant
        let engine := { engine with nextGrant := engine.nextGrant + 1 }
        let started := match launch.launchType with
          | .stdio => engine.startStdio entry outcome
          | .executable => engine.attachShared entry outcome
        enter started id entry.name connection clientPid

/-! ### Release -/

/-- A grant that is no longer in the table lets go of its server. -/
def retire (engine : Engine) (grant : Grant) : Engine :=
  match grant.kind with
  | .stdio child => engine.shutdown child
  | .endpoint =>
    match engine.shared[grant.name]? with
    | none => engine
    | some server => engine.setServer grant.name (server.released engine.now)

/-- Release one grant; whether there was one. -/
def release (engine : Engine) (id : String) : Bool × Engine :=
  match engine.grants[id]? with
  | none => (false, engine)
  | some grant => (true, { engine with grants := engine.grants.erase id }.retire grant)

/-- Release grants one after the other. -/
def releaseAll (engine : Engine) (ids : List String) : Engine :=
  ids.foldl (fun engine id => (engine.release id).2) engine

/-- The ids of the grants that satisfy `p`. -/
def grantsWhere (engine : Engine) (p : Grant → Bool) : List String :=
  (engine.grants.toList.filter fun g => p g.2).map Prod.fst

/-- Release every grant held by a connection. -/
def releaseConnection (engine : Engine) (order : IterationOrder) (connection : Nat) : Engine :=
  engine.releaseAll (order.1 (engine.grantsWhere fun g => g.connection == connection))

/-- How a refused client is told who holds a grant. -/
def holderText (grant : Grant) : String :=
  match grant.clientPid with
  | some pid => s!"pid {pid}"
  | none => "unknown client"

/-- Stop the shared child of a row, and its timer. -/
def stopShared (engine : Engine) (name : String) (server : SharedServer) : Engine :=
  (engine.shutdownAny server.child).setServer name { server with child := none, idleTimer := none }

/-- Stop a server outright; without `force` this refuses while there are grants on it, and names the
    holders. -/
def deactivate (engine : Engine) (order : IterationOrder) (name : String) (force : Bool) :
    Except (List String) Nat × Engine :=
  let ids := order.1 (engine.grantsWhere fun g => g.name == name)
  let holders := ids.filterMap fun id => engine.grants[id]?.map holderText
  if holders ≠ [] ∧ force = false then (.error holders, engine)
  else
    let engine := engine.releaseAll ids
    match engine.shared[name]? with
    | none => (.ok ids.length, engine)
    | some server => (.ok ids.length, engine.stopShared name { server with refcount := 0 })

/-- Stop one server whose idle window has elapsed. -/
def reap (engine : Engine) (name : String) : Engine :=
  match engine.shared[name]? with
  | none => engine
  | some server => engine.stopShared name server

/-- The servers without grants whose timer has finished. -/
def expired (engine : Engine) : List String :=
  (engine.shared.toList.filter fun s =>
    s.2.refcount == 0 && s.2.idleTimer.any (·.finished)).map Prod.fst

/-- Idle windows that have elapsed with no new grant: stop those servers. -/
def reapIdle (engine : Engine) (order : IterationOrder) : Engine :=
  (order.1 engine.expired).foldl reap engine

/-! ### Queries -/

def grantCount (engine : Engine) (name : String) : Nat :=
  TreeMap.count (fun g => g.2.name == name) engine.grants

/-- Whether a server has a process, with or without grants. -/
def isRunning (engine : Engine) (name : String) : Bool :=
  decide (0 < engine.grantCount name) || (engine.server name).child.isSome

def holders (engine : Engine) (order : IterationOrder) (name : String) : List (Option Nat) :=
  (order.1 (engine.grantsWhere fun g => g.name == name)).filterMap fun id =>
    engine.grants[id]?.map (·.clientPid)

end Engine

/-! ### Operations -/

/-- What can happen to an engine between two moments at which its lock is free. -/
inductive Operation where
  | activate (entry : Entry) (connection : Nat) (clientPid : Option Nat) (outcome : StartOutcome)
  | release (id : String)
  | releaseConnection (order : IterationOrder) (connection : Nat)
  | deactivate (order : IterationOrder) (name : String) (force : Bool)
  | reapIdle (order : IterationOrder)
  /-- The consent store is consulted. -/
  | evaluate (name launchHash : String)
  /-- An answer to a prompt is written down. -/
  | decide (now name : String) (action : ConsentAction) (outcome : WriteOutcome)
  /-- Time passes. -/
  | elapse (milliseconds : Nat)
  /-- The idle timer of a server runs out. -/
  | expire (name : String)
  /-- A process exits on its own. -/
  | exit (process : Nat)
  /-- Another process loads the consent store and acts on it. -/
  | outOfBand (now name : String) (action : ConsentAction) (outcome : WriteOutcome)

namespace Engine

/-- The sleeping task of a timer that is due comes to its end. -/
def expire (engine : Engine) (name : String) : Engine :=
  match engine.shared[name]? with
  | none => engine
  | some server =>
    engine.setServer name
      { server with idleTimer := server.idleTimer.map fun t =>
          { t with finished := t.finished || decide (t.due ≤ engine.now) } }

def perform (engine : Engine) : Operation → Engine
  | .activate entry connection clientPid outcome =>
    (engine.activate entry connection clientPid outcome).2
  | .release id => (engine.release id).2
  | .releaseConnection order connection => engine.releaseConnection order connection
  | .deactivate order name force => (engine.deactivate order name force).2
  | .reapIdle order => engine.reapIdle order
  | .evaluate name launchHash =>
    { engine with consent := (engine.consent.evaluate engine.disk name launchHash).2 }
  | .decide now name action outcome =>
    let (_, disk, consent) := engine.consent.perform outcome engine.disk now name action
    { engine with disk, consent }
  | .elapse milliseconds => { engine with now := engine.now + milliseconds }
  | .expire name => engine.expire name
  | .exit process => engine.shutdown ⟨process⟩
  | .outOfBand now name action outcome =>
    { engine with
      disk := ((ConsentStore.load engine.disk).perform outcome engine.disk now name action).2.1 }

end Engine

end McpLocator.Broker
