import McpLocator.Broker.Runs

namespace McpLocator.Broker

open McpLocator.Json McpLocator.Proto

/-!
# One answer for each request

* `Broker.answers` — what has been written to a connection, oldest first.
* `Handles` — what an event does to the two: it leaves them alone, or answers the request with the id
  of the request.  `handles_of_step` says that this is all an event does, and `takes_of_receive`
  that reading a line takes its id up.
-/

set_option linter.dupNamespace false

/-- The id that the answer to a line has. -/
def lineId : Except String Request → JsonValue
  | .ok request => request.id
  | .error _ => nullId

/-- The task is about what runs, and who holds it. -/
def Task.touches : Task → Bool
  | .consult _ _ | .queue _ _ | .reread _ _ | .prompt _ _ _ | .activate _ _ | .release _ _
  | .deactivate _ _ _ => true
  | _ => false

/-- The line is a request that comes to the arm of a method about what runs. -/
def reachesArm : Except String Request → Bool
  | .ok request => request.jsonrpc == "2.0" &&
    ["locator/activate", "locator/release", "locator/deactivate"].contains request.method
  | .error _ => false

/-- The event reads a line from the connection, or ends it. -/
def Event.reads (c : Nat) : Event → Bool
  | .receive c' _ _ | .hangUp c' => c' == c
  | _ => false

namespace Broker

variable {sha256 : List Char → String} {broker broker' : Broker} {event : Event} {c c' : Nat}

/-- What has been written to a connection. -/
def answers (broker : Broker) (c : Nat) : List Response :=
  (broker.written.filter (·.1 == c)).map Prod.snd

theorem answers_respond_self (broker : Broker) (c : Nat) (response : Response) :
    (broker.respond c response).answers c = broker.answers c ++ [response] := by
  simp [answers, respond]

theorem answers_respond_of_ne (h : c' ≠ c) (broker : Broker) (response : Response) :
    (broker.respond c' response).answers c = broker.answers c := by
  simp [answers, respond, h]

theorem tasks_respond_of_ne (h : c' ≠ c) (broker : Broker) (response : Response) :
    (broker.respond c' response).tasks c = broker.tasks c :=
  tasks_setTask_of_ne h.symm broker .idle

/-- What an event that reads nothing does to a connection. -/
inductive Handles (broker broker' : Broker) (c : Nat) : Prop where
  | goes (request : (broker'.tasks c).request = (broker.tasks c).request)
      (idle : broker.tasks c = .idle → broker'.tasks c = .idle)
      (touches : (broker'.tasks c).touches = true → (broker.tasks c).touches = true)
      (answers : broker'.answers c = broker.answers c)
  | answers (response : Response) (request : (broker.tasks c).request = some response.id)
      (exclusive : response.Exclusive) (idle : broker'.tasks c = .idle)
      (answers : broker'.answers c = broker.answers c ++ [response])

/-- Nothing happens to a connection whose task stays. -/
theorem handles_of_eq (htasks : broker'.tasks c = broker.tasks c)
    (hanswers : broker'.answers c = broker.answers c) : Handles broker broker' c :=
  .goes (by rw [htasks]) (fun h => by rw [htasks, h]) (fun h => by rwa [← htasks]) hanswers

/-- Another task for a connection. -/
theorem handles_of_setTask {task : Task} (htasks : broker'.tasks = (broker.setTask c' task).tasks)
    (hwritten : broker'.written = broker.written)
    (h : c' = c → task.request = (broker.tasks c).request ∧ broker.tasks c ≠ .idle ∧
      (task.touches = true → (broker.tasks c).touches = true)) :
    Handles broker broker' c := by
  have hanswers : broker'.answers c = broker.answers c := by
    rw [answers, hwritten]
    rfl
  by_cases hc : c' = c
  · obtain ⟨hrequest, hidle, htouches⟩ := h hc
    subst hc
    rw [← tasks_setTask_self broker c' task, ← htasks] at hrequest htouches
    exact .goes hrequest (fun h => absurd h hidle) htouches hanswers
  · have hsame : broker'.tasks c = broker.tasks c := by
      rw [htasks, tasks_setTask_of_ne (Ne.symm hc)]
    exact handles_of_eq hsame hanswers

/-- An answer to a connection. -/
theorem handles_of_respond {engine : Engine} {response : Response}
    (h : (broker.tasks c').request = some response.id) (hone : response.Exclusive) :
    Handles broker ((broker.withEngine engine).respond c' response) c := by
  by_cases hc : c' = c
  · subst hc
    exact .answers response h hone (tasks_setTask_self ..) (answers_respond_self ..)
  · exact handles_of_eq (tasks_respond_of_ne hc (broker.withEngine engine) response)
      (answers_respond_of_ne hc ..)

/-- **An event that reads nothing from a connection leaves it alone or answers its request.** -/
theorem handles_of_step (hs : broker.step sha256 event = some broker')
    (hreads : event.reads c = false) : Handles broker broker' c := by
  cases stepped_of_step hs with
  | @refused c' =>
    have hne : c' ≠ c := by simpa [Event.reads] using hreads
    exact handles_of_eq (tasks_respond_of_ne hne ..) (answers_respond_of_ne hne ..)
  | @begun c' =>
    have hne : c' ≠ c := by simpa [Event.reads] using hreads
    exact handles_of_setTask rfl rfl fun hc => absurd hc hne
  | answered _ hrequest hone => exact handles_of_respond hrequest hone
  | consulted htask hgoes =>
    refine handles_of_setTask rfl rfl ?_
    rintro rfl
    rw [htask]
    rcases hgoes with rfl | rfl
    · exact ⟨rfl, by simp, fun _ => rfl⟩
    · exact ⟨rfl, by simp, fun _ => rfl⟩
  | opened htask | settled htask | locked htask | told htask =>
    refine handles_of_setTask rfl rfl ?_
    rintro rfl
    rw [htask]
    exact ⟨rfl, by simp, fun _ => rfl⟩
  | closed htask =>
    refine handles_of_setTask rfl rfl ?_
    rintro rfl
    rw [htask]
    exact ⟨rfl, by simp, by simp [Task.touches]⟩
  | @hungUp c' =>
    have hne : c' ≠ c := by simpa [Event.reads] using hreads
    exact handles_of_setTask rfl rfl fun hc => absurd hc hne
  | quiet => exact handles_of_eq rfl rfl

end Broker

/-! ### What is read -/

/-- What a line comes to, as far as its connection can tell. -/
def Serves (line : Except String Request) : Response ⊕ Task → Prop
  | .inl response => response.id = lineId line ∧ response.Exclusive
  | .inr task => task.request = some (lineId line) ∧ (task.touches = true → reachesArm line = true)

section Dispatch

variable {sha256 : List Char → String} {registry : Registry} {request : Request}

theorem serves_withEntry {f : String → Entry → Task}
    (hf : ∀ name entry, Serves (.ok request) (.inr (f name entry))) :
    Serves (.ok request) (withEntry sha256 registry request f) := by
  unfold withEntry
  split
  · exact ⟨rfl, rfl⟩
  · split
    · exact ⟨rfl, rfl⟩
    · exact hf _ _

/-- **What a line comes to keeps its id.** -/
theorem serves_serve (line : Except String Request) : Serves line (serve sha256 registry line) := by
  cases line with
  | error => exact ⟨rfl, rfl⟩
  | ok request =>
    show Serves (.ok request) (dispatch sha256 registry request)
    unfold dispatch
    dsimp only
    split
    · exact ⟨rfl, rfl⟩
    · rename_i hversion
      have harm : ["locator/activate", "locator/release", "locator/deactivate"].contains
          request.method = true → reachesArm (.ok request) = true := by
        intro h
        rw [reachesArm, Decidable.not_not.mp hversion, h]
        rfl
      -- one case for each method
      split
      · exact ⟨rfl, rfl⟩
      · exact ⟨rfl, by simp [Task.touches]⟩
      · exact serves_withEntry fun _ _ => ⟨rfl, by simp [Task.touches]⟩
      · exact serves_withEntry fun _ _ => ⟨rfl, by simp [Task.touches]⟩
      · rename_i hmethod
        exact serves_withEntry fun _ _ => ⟨rfl, fun _ => harm (by rw [hmethod]; decide)⟩
      · rename_i hmethod
        split
        · exact ⟨rfl, rfl⟩
        · exact ⟨rfl, fun _ => harm (by rw [hmethod]; decide)⟩
      · rename_i hmethod
        split
        · exact ⟨rfl, rfl⟩
        · exact ⟨rfl, fun _ => harm (by rw [hmethod]; decide)⟩
      · exact ⟨rfl, rfl⟩

end Dispatch

namespace Broker

variable {sha256 : List Char → String} {broker broker' : Broker} {c : Nat}

/-- What reading a line does to its connection. -/
inductive Takes (broker broker' : Broker) (c : Nat) (line : Except String Request) : Prop where
  | works (request : (broker'.tasks c).request = some (lineId line))
      (touches : (broker'.tasks c).touches = true → reachesArm line = true)
      (answers : broker'.answers c = broker.answers c)
  | answers (response : Response) (id : response.id = lineId line) (exclusive : response.Exclusive)
      (idle : broker'.tasks c = .idle) (answers : broker'.answers c = broker.answers c ++ [response])

/-- **A line that is read is answered, or is what its connection works on.** -/
theorem takes_of_receive {line : Except String Request} {registry : Registry}
    (hs : broker.step sha256 (.receive c line registry) = some broker') :
    broker.tasks c = .idle ∧ Takes broker broker' c line := by
  have hserves : Serves line (serve sha256 registry line) := serves_serve line
  cases stepped_of_step hs with
  | refused htask hserve =>
    rw [hserve] at hserves
    exact ⟨htask,
      .answers _ hserves.1 hserves.2 (tasks_setTask_self ..) (answers_respond_self ..)⟩
  | @begun _ _ _ task htask hserve =>
    rw [hserve, ← tasks_setTask_self broker c task] at hserves
    exact ⟨htask, .works hserves.1 hserves.2 rfl⟩
  | quiet h => exact absurd h (by simp [Event.isQuiet])

end Broker

end McpLocator.Broker
