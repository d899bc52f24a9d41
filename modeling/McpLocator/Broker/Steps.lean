import McpLocator.Broker.EngineSpec
import McpLocator.Broker.Server
import McpLocator.Proto.Wire

namespace McpLocator.Broker

open McpLocator.Json McpLocator.Proto

/-!
# What a step of the broker does

* `Task.request`, `Task.holdsPrompt` — the request that a task will answer, and whether the task
  holds the prompt lock.
* `Broker.Stepped` — all that an event can do to the tasks, the answers and the prompt lock;
  `stepped_of_step`.  What it does to the engine is another matter.
-/

set_option linter.dupNamespace false

/-- The request that a task will answer. -/
def Task.request : Task → Option JsonValue
  | .list id _ | .status id _ _ | .query id _ _ | .consult id _ | .queue id _ | .reread id _
  | .prompt id _ _ | .activate id _ | .release id _ | .deactivate id _ _ => some id
  | .idle | .closing | .closed => none

/-- The task holds the prompt lock. -/
def Task.holdsPrompt : Task → Bool
  | .reread _ _ | .prompt _ _ _ => true
  | _ => false

/-- The task answers once it has the engine lock. -/
def Task.isDue : Task → Bool
  | .list _ _ | .status _ _ _ | .query _ _ _ | .activate _ _ | .release _ _ | .deactivate _ _ _ => true
  | _ => false

theorem Task.holdsPrompt_of_isDue {task : Task} (h : task.isDue = true) :
    task.holdsPrompt = false := by
  cases task <;> simp_all [isDue, holdsPrompt]

/-- The event is about the engine alone. -/
def Event.isQuiet : Event → Bool
  | .reap _ | .elapse _ | .expire _ | .exit _ | .outOfBand _ _ _ _ => true
  | _ => false

namespace Broker

variable {sha256 : List Char → String} {broker broker' : Broker} {event : Event}

@[simp] theorem tasks_setTask_self (broker : Broker) (c : Nat) (task : Task) :
    (broker.setTask c task).tasks c = task := by
  simp [setTask]

theorem tasks_setTask_of_ne {c c' : Nat} (h : c' ≠ c) (broker : Broker) (task : Task) :
    (broker.setTask c task).tasks c' = broker.tasks c' := by
  simp [setTask, h]

/-- All that an event can do besides its work on the engine. -/
inductive Stepped (sha256 : List Char → String) (broker : Broker) : Event → Broker → Prop where
  | refused {c : Nat} {line : Except String Request} {registry : Registry} {response : Response}
      (task : broker.tasks c = .idle) (served : serve sha256 registry line = .inl response) :
    Stepped sha256 broker (.receive c line registry) (broker.respond c response)
  | begun {c : Nat} {line : Except String Request} {registry : Registry} {next : Task}
      (task : broker.tasks c = .idle) (served : serve sha256 registry line = .inr next) :
    Stepped sha256 broker (.receive c line registry) (broker.setTask c next)
  | answered {c : Nat} {order : IterationOrder} {outcome : StartOutcome} {engine : Engine}
      {response : Response} (due : (broker.tasks c).isDue = true)
      (request : (broker.tasks c).request = some response.id) (exclusive : response.Exclusive) :
    Stepped sha256 broker (.proceed c order outcome) ((broker.withEngine engine).respond c response)
  | consulted {c : Nat} {order : IterationOrder} {outcome : StartOutcome} {engine : Engine}
      {id : JsonValue} {entry : Entry} {next : Task} (task : broker.tasks c = .consult id entry)
      (goes : next = .queue id entry ∨ next = .activate id entry) :
    Stepped sha256 broker (.proceed c order outcome) ((broker.withEngine engine).setTask c next)
  | opened {c : Nat} {order : IterationOrder} {outcome : StartOutcome} {engine : Engine}
      {id : JsonValue} {entry : Entry} {record : ConsentRecord}
      (task : broker.tasks c = .reread id entry)
      (due : shouldAsk (broker.engine.consentFor entry).state = true) :
    Stepped sha256 broker (.proceed c order outcome)
      ((broker.withEngine engine).setTask c (.prompt id entry record))
  | settled {c : Nat} {order : IterationOrder} {outcome : StartOutcome} {engine : Engine}
      {id : JsonValue} {entry : Entry} (task : broker.tasks c = .reread id entry) :
    Stepped sha256 broker (.proceed c order outcome)
      { (broker.withEngine engine).setTask c (.activate id entry) with promptLock := none }
  | closed {c : Nat} {order : IterationOrder} {outcome : StartOutcome} {engine : Engine}
      (task : broker.tasks c = .closing) :
    Stepped sha256 broker (.proceed c order outcome) ((broker.withEngine engine).setTask c .closed)
  | locked {c : Nat} {id : JsonValue} {entry : Entry} (task : broker.tasks c = .queue id entry)
      (free : broker.promptLock = none) :
    Stepped sha256 broker (.lockPrompt c)
      { broker.setTask c (.reread id entry) with promptLock := some c }
  | told {c : Nat} {decision : Decision} {now : String} {outcome : WriteOutcome} {engine : Engine}
      {id : JsonValue} {entry : Entry} {record : ConsentRecord}
      (task : broker.tasks c = .prompt id entry record) :
    Stepped sha256 broker (.answer c decision now outcome)
      { (broker.withEngine engine).setTask c (.activate id entry) with promptLock := none }
  | hungUp {c : Nat} (task : broker.tasks c = .idle) :
    Stepped sha256 broker (.hangUp c) (broker.setTask c .closing)
  | quiet {event : Event} {engine : Engine} (h : event.isQuiet = true) :
    Stepped sha256 broker event (broker.withEngine engine)

/-- The answer of a task that was due. -/
theorem stepped_of_respond {c : Nat} {order : IterationOrder} {outcome : StartOutcome}
    {task : Task} {engine : Engine} {response : Response} (htask : broker.tasks c = task)
    (hdue : task.isDue = true) (hrequest : task.request = some response.id)
    (hone : response.Exclusive)
    (hs : some ((broker.withEngine engine).respond c response) = some broker') :
    Stepped sha256 broker (.proceed c order outcome) broker' := by
  obtain rfl := Option.some.inj hs
  subst htask
  exact .answered hdue hrequest hone

theorem stepped_of_proceed {c : Nat} {order : IterationOrder} {outcome : StartOutcome}
    (hs : broker.proceed c order outcome (broker.tasks c) = some broker') :
    Stepped sha256 broker (.proceed c order outcome) broker' := by
  cases htask : broker.tasks c with
  | idle | queue | prompt | closed =>
    rw [htask] at hs
    exact absurd hs (by simp [proceed])
  | list | status | query =>
    rw [htask] at hs
    refine stepped_of_respond htask rfl rfl ?_ hs
    rfl
  | activate id entry =>
    rw [htask] at hs
    refine stepped_of_respond htask rfl ?_ ?_ hs
    · split
      · rfl
      · split <;> rfl
    · split
      · rfl
      · split <;> rfl
  | release id grantId =>
    rw [htask] at hs
    refine stepped_of_respond htask rfl ?_ ?_ hs
    · split <;> rfl
    · split <;> rfl
  | deactivate id name force =>
    rw [htask] at hs
    refine stepped_of_respond htask rfl ?_ ?_ hs
    · split <;> rfl
    · split <;> rfl
  | consult id entry =>
    rw [htask] at hs
    obtain rfl := Option.some.inj hs
    exact .consulted htask (ite_eq_or_eq _ _ _)
  | reread id entry =>
    rw [htask] at hs
    unfold proceed at hs
    dsimp only at hs
    split at hs
    · rename_i hask
      obtain rfl := Option.some.inj hs
      exact .opened htask hask
    · obtain rfl := Option.some.inj hs
      exact .settled htask
  | closing =>
    rw [htask] at hs
    obtain rfl := Option.some.inj hs
    exact .closed htask

/-- **An event does one of these things.** -/
theorem stepped_of_step (hs : broker.step sha256 event = some broker') :
    Stepped sha256 broker event broker' := by
  cases event with
  | receive c line registry =>
    simp only [step] at hs
    split at hs
    · rename_i htask
      split at hs
      · rename_i hserved
        obtain rfl := Option.some.inj hs
        exact .refused htask hserved
      · rename_i hserved
        obtain rfl := Option.some.inj hs
        exact .begun htask hserved
    · exact absurd hs (by simp)
  | proceed c order outcome => exact stepped_of_proceed hs
  | lockPrompt c =>
    simp only [step] at hs
    split at hs
    · rename_i htask hfree
      obtain rfl := Option.some.inj hs
      exact .locked htask hfree
    · exact absurd hs (by simp)
  | answer c decision now outcome =>
    simp only [step] at hs
    split at hs
    · rename_i htask
      obtain rfl := Option.some.inj hs
      exact .told htask
    · exact absurd hs (by simp)
  | hangUp c =>
    simp only [step] at hs
    split at hs
    · rename_i htask
      obtain rfl := Option.some.inj hs
      exact .hungUp htask
    · exact absurd hs (by simp)
  | reap | elapse | expire | exit | outOfBand =>
    obtain rfl := Option.some.inj hs
    exact .quiet rfl

end Broker

end McpLocator.Broker
