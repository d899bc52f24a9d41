import McpLocator.Broker.Backing
import McpLocator.Broker.Steps

namespace McpLocator.Broker

open McpLocator.Json McpLocator.Proto

/-!
# Runs of the broker

* `Broker.operations` — the operations of the engine that an event amounts to; `step_engine`.
* `Broker.Goes` — what the task of a connection can become; `tasks_of_step`.
* `Recorded` — a broker with the operations its engine has performed so far.
* `engine_run` — a run of the broker is a run of its engine, so that what holds of every engine
  reached (`Bookkeeping`, `Owned`, `Backed`) holds of the broker's.
-/

set_option linter.dupNamespace false

/-! ### What is read -/

/-- The tasks that a request can come to. -/
def Task.isRequest : Task → Bool
  | .list _ _ | .status _ _ _ | .query _ _ _ | .consult _ _ | .release _ _ | .deactivate _ _ _ => true
  | _ => false

section Dispatch

variable {sha256 : List Char → String} {registry : Registry} {task : Task}

theorem withEntry_isRequest {request : Request} {f : String → Entry → Task}
    (hf : ∀ name entry, (f name entry).isRequest = true)
    (h : withEntry sha256 registry request f = .inr task) : task.isRequest = true := by
  unfold withEntry at h
  split at h
  · simp at h
  · split at h
    · simp at h
    · rw [← Sum.inr.inj h]
      exact hf _ _

theorem serve_isRequest {line : Except String Request} (h : serve sha256 registry line = .inr task) :
    task.isRequest = true := by
  unfold serve at h
  split at h
  · -- one case for each method
    unfold dispatch at h
    dsimp only at h
    split at h
    · simp at h
    · split at h
      · simp at h
      · rw [← Sum.inr.inj h]
        rfl
      · exact withEntry_isRequest (fun _ _ => rfl) h
      · exact withEntry_isRequest (fun _ _ => rfl) h
      · exact withEntry_isRequest (fun _ _ => rfl) h
      · split at h
        · simp at h
        · rw [← Sum.inr.inj h]
          rfl
      · split at h
        · simp at h
        · rw [← Sum.inr.inj h]
          rfl
      · simp at h
  · simp at h

end Dispatch

namespace Broker

variable {sha256 : List Char → String} {broker broker' : Broker} {event : Event}

/-! ### What an event does to the engine -/

/-- What a task does to the engine once it has its lock. -/
def taskOperations (broker : Broker) (c : Nat) (order : IterationOrder) (outcome : StartOutcome) :
    Task → List Operation
  | .list _ catalog => catalog.entries.map fun e => .evaluate e.name e.launchHash
  | .status _ name entry | .query _ name entry => [.evaluate name entry.launchHash]
  | .consult _ entry | .reread _ entry => [.evaluate entry.name entry.launchHash]
  | .activate _ entry => [.activate entry c (broker.clientPid c) outcome]
  | .release _ grantId => [.release grantId]
  | .deactivate _ name force => [.deactivate order name force]
  | .closing => [.releaseConnection order c]
  | .idle | .queue _ _ | .prompt _ _ _ | .closed => []

/-- What recording an answer does to the engine. -/
def answerOperations (entry : Entry) (now : String) (outcome : WriteOutcome) :
    Decision → List Operation
  | .allow =>
    [.decide now entry.name (.grant entry.launchHash (launchSummary entry) .user) outcome]
  | .deny => [.decide now entry.name .deny outcome]
  | .unanswered => []

/-- What an event does to the engine. -/
def operations (broker : Broker) : Event → List Operation
  | .proceed c order outcome => broker.taskOperations c order outcome (broker.tasks c)
  | .answer c decision now outcome =>
    match broker.tasks c with
    | .prompt _ entry _ => answerOperations entry now outcome decision
    | _ => []
  | .reap order => [.reapIdle order]
  | .elapse milliseconds => [.elapse milliseconds]
  | .expire name => [.expire name]
  | .exit process => [.exit process]
  | .outOfBand now name action outcome => [.outOfBand now name action outcome]
  | .receive _ _ _ | .lockPrompt _ | .hangUp _ => []

theorem listServers_engine (engine : Engine) (entries : List Entry) :
    (listServers engine entries).2 =
      (entries.map fun e => Operation.evaluate e.name e.launchHash).foldl Engine.perform engine := by
  induction entries generalizing engine with
  | nil => rfl
  | cons entry entries ih => exact ih _

theorem recordAnswer_engine (engine : Engine) (entry : Entry) (record : ConsentRecord) (now : String)
    (outcome : WriteOutcome) (decision : Decision) :
    (engine.recordAnswer entry record now outcome decision).2 =
      (answerOperations entry now outcome decision).foldl Engine.perform engine := by
  cases decision <;> rfl

theorem proceed_engine {c : Nat} {order : IterationOrder} {outcome : StartOutcome} {task : Task}
    (h : broker.proceed c order outcome task = some broker') :
    broker'.engine =
      (broker.taskOperations c order outcome task).foldl Engine.perform broker.engine := by
  cases task with
  | list id catalog =>
    obtain rfl := Option.some.inj h
    exact listServers_engine broker.engine catalog.entries
  | reread id entry =>
    -- whether the prompt is still needed or not, consent was looked up once
    unfold proceed at h
    dsimp only at h
    split at h <;> obtain rfl := Option.some.inj h <;> rfl
  | idle | queue | prompt | closed => exact absurd h (by simp [proceed])
  | status | query | consult | activate | release | deactivate | closing =>
    obtain rfl := Option.some.inj h
    rfl

/-- **An event does to the engine what its operations do.** -/
theorem step_engine (h : broker.step sha256 event = some broker') :
    broker'.engine = (broker.operations event).foldl Engine.perform broker.engine := by
  cases event with
  | receive c line registry =>
    -- reading a request, well-formed or not, leaves the engine alone
    simp only [step] at h
    split at h
    · split at h <;> obtain rfl := Option.some.inj h <;> rfl
    · exact absurd h (by simp)
  | proceed c order outcome => exact proceed_engine h
  | lockPrompt c =>
    simp only [step] at h
    split at h
    · obtain rfl := Option.some.inj h
      rfl
    · exact absurd h (by simp)
  | answer c decision now outcome =>
    simp only [step] at h
    split at h
    · rename_i id entry record htask
      obtain rfl := Option.some.inj h
      show (broker.engine.recordAnswer entry record now outcome decision).2 = _
      rw [recordAnswer_engine]
      simp [operations, htask]
    · exact absurd h (by simp)
  | hangUp c =>
    simp only [step] at h
    split at h
    · obtain rfl := Option.some.inj h
      rfl
    · exact absurd h (by simp)
  | reap | elapse | expire | exit | outOfBand =>
    obtain rfl := Option.some.inj h
    rfl

/-- Reading a line does nothing to the engine. -/
theorem engine_of_receive {c : Nat} {line : Except String Request} {registry : Registry}
    (h : broker.step sha256 (.receive c line registry) = some broker') :
    broker'.engine = broker.engine :=
  step_engine h

/-! ### Where the tasks go -/

/-- What a connection's next task can be: only one that is closing is closed, and a dialog only opens
    when the question is due. -/
structure Goes (broker : Broker) (event : Event) (c : Nat) (next : Task) : Prop where
  served : broker.tasks c ≠ .closed
  closed : next = .closed → broker.tasks c = .closing ∧
    ∃ order outcome, event = .proceed c order outcome
  prompt : ∀ id entry record, next = .prompt id entry record →
    shouldAsk (broker.engine.consentFor entry).state = true

/-- **An event moves the task of one connection at most.** -/
theorem tasks_of_step (hs : broker.step sha256 event = some broker') :
    broker'.tasks = broker.tasks ∨
      ∃ c next, broker.Goes event c next ∧ broker'.tasks = (broker.setTask c next).tasks := by
  cases stepped_of_step hs with
  | refused htask => exact .inr ⟨_, .idle, ⟨by simp [htask], by simp, by simp⟩, rfl⟩
  | @begun c line registry next htask hserved =>
    have hrequest := serve_isRequest hserved
    refine .inr ⟨c, next, ⟨by simp [htask], ?_, ?_⟩, rfl⟩
    · rintro rfl
      exact absurd hrequest (by simp [Task.isRequest])
    · rintro id entry record rfl
      exact absurd hrequest (by simp [Task.isRequest])
  | @answered c order outcome engine response hdue =>
    refine .inr ⟨c, .idle, ⟨fun hclosed => ?_, by simp, by simp⟩, rfl⟩
    rw [hclosed] at hdue
    exact absurd hdue (by simp [Task.isDue])
  | consulted htask hgoes =>
    refine .inr ⟨_, _, ⟨by simp [htask], ?_, ?_⟩, rfl⟩
    · rintro rfl
      simp at hgoes
    · rintro id entry record rfl
      simp at hgoes
  | opened htask hdue =>
    refine .inr ⟨_, _, ⟨by simp [htask], by simp, fun _ _ _ h => ?_⟩, rfl⟩
    obtain ⟨-, rfl, -⟩ := Task.prompt.inj h
    exact hdue
  | closed htask => exact .inr ⟨_, _, ⟨by simp [htask], fun _ => ⟨htask, _, _, rfl⟩, by simp⟩, rfl⟩
  | settled htask => exact .inr ⟨_, _, ⟨by simp [htask], by simp, by simp⟩, rfl⟩
  | locked htask => exact .inr ⟨_, _, ⟨by simp [htask], by simp, by simp⟩, rfl⟩
  | told htask => exact .inr ⟨_, _, ⟨by simp [htask], by simp, by simp⟩, rfl⟩
  | hungUp htask => exact .inr ⟨_, _, ⟨by simp [htask], by simp, by simp⟩, rfl⟩
  | quiet => exact .inl rfl

end Broker

/-! ### Runs -/

/-- A broker with the operations that its engine has performed, oldest first. -/
structure Recorded where
  broker : Broker
  operations : List Operation

namespace Recorded

/-- A broker that has just started. -/
def new (disk : Disk) (now brokerPid nextGrant : Nat) (available : Bool)
    (clientPid : Nat → Option Nat) : Recorded :=
  { broker := .new disk now brokerPid nextGrant available clientPid, operations := [] }

def step (sha256 : List Char → String) (r : Recorded) (event : Event) : Option Recorded :=
  (r.broker.step sha256 event).map fun broker =>
    { broker, operations := r.operations ++ r.broker.operations event }

/-- The states that a broker can reach. -/
def Reached (sha256 : List Char → String) (init : Recorded) (events : List Event) (r : Recorded) :
    Prop :=
  Transition.Run (fun r event r' => r.step sha256 event = some r') init events r

variable {sha256 : List Char → String} {r r' : Recorded} {event : Event}

theorem step_eq_some : r.step sha256 event = some r' ↔
    ∃ broker, r.broker.step sha256 event = some broker ∧
      r' = { broker, operations := r.operations ++ r.broker.operations event } := by
  simp [step, eq_comm]

/-- A run adds to the operations. -/
theorem operations_of_reached {events : List Event} (h : Reached sha256 r events r') :
    ∃ more, r'.operations = r.operations ++ more := by
  refine h.invariant (P := fun r' => ∃ more, r'.operations = r.operations ++ more)
    ⟨[], (List.append_nil _).symm⟩ ?_
  rintro r₁ event r₂ ⟨more, hmore⟩ hs
  obtain ⟨broker, -, rfl⟩ := step_eq_some.mp hs
  exact ⟨more ++ r₁.broker.operations event, by simp [hmore]⟩

/-- Several operations continue a run of the engine. -/
theorem run_append {init engine : Engine} {operations : List Operation}
    (h : Transition.Run Engine.Step init operations engine) (more : List Operation) :
    Transition.Run Engine.Step init (operations ++ more) (more.foldl Engine.perform engine) := by
  induction more generalizing operations engine with
  | nil =>
    rw [List.append_nil]
    exact h
  | cons operation more ih =>
    rw [← List.singleton_append, ← List.append_assoc]
    exact ih (.snoc h rfl)

/-- **A run of the broker is a run of its engine.** -/
theorem engine_run {disk : Disk} {now brokerPid nextGrant : Nat} {available : Bool}
    {clientPid : Nat → Option Nat} {events : List Event}
    (h : Reached sha256 (new disk now brokerPid nextGrant available clientPid) events r) :
    Transition.Run Engine.Step (Engine.new disk now brokerPid nextGrant) r.operations
      r.broker.engine := by
  refine h.invariant (P := fun r => Transition.Run Engine.Step
    (Engine.new disk now brokerPid nextGrant) r.operations r.broker.engine) .start ?_
  intro r event r' hr hs
  obtain ⟨broker, hstep, rfl⟩ := step_eq_some.mp hs
  rw [Broker.step_engine hstep]
  exact run_append hr _

/-- Every engine reached keeps the books, and every child has one owner. -/
theorem sound_of_reached {disk : Disk} {now brokerPid nextGrant : Nat} {available : Bool}
    {clientPid : Nat → Option Nat} {events : List Event}
    (h : Reached sha256 (new disk now brokerPid nextGrant available clientPid) events r) :
    r.broker.engine.Bookkeeping ∧ r.broker.engine.Owned := by
  have hrun := engine_run h
  exact ⟨Engine.bookkeeping_of_run hrun, Engine.owned_of_run hrun⟩

end Recorded

/-! ### A session -/

/-- A machine with one card file, the viewer's. -/
def viewerRegistry (program : String) : Registry :=
  { host :=
      { windows := false, readDir := fun _ => ["com.example.viewer.card.json"], fileName := some,
        join := fun dir file => dir ++ "/" ++ file, pathExists := fun _ => true,
        readToString := fun _ => .ok "", fromStr := fun _ => .ok (viewerCard program),
        serdeError := fun _ => "" }
    roots := [⟨.user, "/home/user/servers"⟩], lookup := fun _ => none }

/-- A request whose parameters are one string. -/
def requestWith (method key value : String) : Request :=
  { jsonrpc := "2.0", id := ⟨.string "1", rfl⟩, method,
    params := some ⟨.object [(key, .string value)], by simp [Value.wf]⟩ }

/-- The order in which the table lists its keys. -/
def tableOrder : IterationOrder := ⟨id, fun _ => .refl _⟩

/-- A client activates the viewer, and the user allows it. -/
def viewerSession : List Event :=
  [.receive 1 (.ok (requestWith "locator/activate" "name" "com.example.viewer"))
      (viewerRegistry "/usr/bin/viewer"),
    .proceed 1 tableOrder working, .lockPrompt 1, .proceed 1 tableOrder working,
    .answer 1 .allow "2026-01-01T00:00:00Z" (.written ⟨1, 200⟩ true)]

/-- The broker that has just started on a machine without a consent file. -/
def freshBroker : Recorded := .new ⟨none, none⟩ 0 100 1 true fun _ => none

/-- The broker after the session. -/
def viewerAllowed : Recorded :=
  (Transition.replay (Recorded.step String.ofList) freshBroker viewerSession).get
    (by decide +kernel)

theorem reached_viewerAllowed :
    Recorded.Reached String.ofList freshBroker viewerSession viewerAllowed :=
  Transition.run_of_replay .start (Option.some_get _).symm

/-- The broker once the task has gone on. -/
def viewerStarted : Recorded :=
  (viewerAllowed.step String.ofList (.proceed 1 tableOrder working)).get (by decide +kernel)

theorem step_viewerStarted :
    viewerAllowed.step String.ofList (.proceed 1 tableOrder working) = some viewerStarted :=
  (Option.some_get _).symm

end McpLocator.Broker
