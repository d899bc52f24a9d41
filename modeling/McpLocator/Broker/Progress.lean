import McpLocator.Broker.Answers
import McpLocator.Broker.Dialogs

namespace McpLocator.Broker

open McpLocator.Json McpLocator.Proto

/-!
# Requests can be answered

* `LockHeld` — the prompt lock is held by a task that will give it back.
* `Awaits` — a run in which nothing is read from a connection.
* `exists_answered` — from wherever a request is, such a run answers it.
-/

set_option linter.dupNamespace false

namespace Broker

variable {sha256 : List Char → String} {broker broker' : Broker} {event : Event} {c : Nat}

/-! ### The holder of the lock -/

/-- Whoever has the prompt lock is re-reading consent or has the dialog open. -/
def LockHeld (broker : Broker) : Prop :=
  ∀ c, broker.promptLock = some c → (broker.tasks c).holdsPrompt = true

theorem LockHeld.withEngine (h : broker.LockHeld) (engine : Engine) :
    (broker.withEngine engine).LockHeld := h

/-- Another task goes on. -/
theorem LockHeld.setTask (h : broker.LockHeld) {task : Task}
    (hc : (broker.tasks c).holdsPrompt = false) : (broker.setTask c task).LockHeld := by
  intro c' hc'
  have hholds := h c' hc'
  have hne : c' ≠ c := by
    rintro rfl
    rw [hc] at hholds
    exact absurd hholds (by simp)
  rw [tasks_setTask_of_ne hne]
  exact hholds

/-- The holder goes on, and keeps the lock. -/
theorem LockHeld.keep (h : broker.LockHeld) {task : Task} (htask : task.holdsPrompt = true) :
    (broker.setTask c task).LockHeld := by
  intro c' hc'
  by_cases hne : c' = c
  · rw [hne, tasks_setTask_self]
    exact htask
  · rw [tasks_setTask_of_ne hne]
    exact h c' hc'

theorem LockHeld.respond (h : broker.LockHeld) (hc : (broker.tasks c).holdsPrompt = false)
    (response : Response) : (broker.respond c response).LockHeld :=
  @LockHeld.setTask broker c h .idle hc

theorem lockHeld_of_none (h : broker.promptLock = none) : broker.LockHeld := by
  intro c hc
  rw [h] at hc
  exact absurd hc (by simp)

/-- **Every event leaves the lock with a task that holds it.** -/
theorem LockHeld.step (h : broker.LockHeld) (hs : broker.step sha256 event = some broker') :
    broker'.LockHeld := by
  -- a task of another kind does not hold the lock
  have free : ∀ {c : Nat} {task : Task}, broker.tasks c = task → task.holdsPrompt = false →
      (broker.tasks c).holdsPrompt = false := by
    intro c task htask hfree
    rw [htask, hfree]
  cases stepped_of_step hs with
  | refused htask => exact h.respond (free htask rfl) _
  | begun htask => exact h.setTask (free htask rfl)
  | @answered c _ _ engine response hdue =>
    exact (h.withEngine engine).respond (Task.holdsPrompt_of_isDue hdue) response
  | consulted htask => exact LockHeld.setTask (h.withEngine _) (free htask rfl)
  | closed htask => exact LockHeld.setTask (h.withEngine _) (free htask rfl)
  | hungUp htask => exact h.setTask (free htask rfl)
  | opened => exact (h.withEngine _).keep rfl
  | settled => exact lockHeld_of_none rfl
  | told => exact lockHeld_of_none rfl
  | @locked c =>
    intro c' hc'
    obtain rfl := Option.some.inj hc'
    show ((broker.setTask c _).tasks c).holdsPrompt = true
    rw [tasks_setTask_self]
    rfl
  | quiet => exact h

/-! ### Ways to an answer -/

/-- Nothing is read from the connection. -/
def Awaits (sha256 : List Char → String) (c : Nat) : Broker → List Event → Broker → Prop :=
  Transition.Run fun broker event broker' =>
    broker.step sha256 event = some broker' ∧ event.reads c = false

/-- Some such run ends with the connection waiting for its next line. -/
def Answerable (sha256 : List Char → String) (c : Nat) (broker : Broker) : Prop :=
  ∃ events broker', Awaits sha256 c broker events broker' ∧ broker'.tasks c = .idle

theorem answerable_of_idle (h : broker.tasks c = .idle) : Answerable sha256 c broker :=
  ⟨[], broker, .start, h⟩

theorem answerable_of_step (hs : broker.step sha256 event = some broker')
    (hreads : event.reads c = false) (h : Answerable sha256 c broker') :
    Answerable sha256 c broker := by
  obtain ⟨events, last, hrun, hidle⟩ := h
  exact ⟨[event] ++ events, last, Transition.Run.append (.snoc .start ⟨hs, hreads⟩) hrun, hidle⟩

/-- Any order, any outcome and any registry will do. -/
def someOrder : IterationOrder := ⟨id, fun ids => List.Perm.refl ids⟩

def someOutcome : StartOutcome :=
  { listener := .error "", spawned := .error "", stdin := false, stdout := false }

def someRegistry : Registry :=
  { host := { windows := false, readDir := fun _ => [], fileName := fun _ => none,
              join := fun _ _ => "", pathExists := fun _ => false, readToString := fun _ => .error "",
              fromStr := fun _ => .error "", serdeError := fun _ => "" }
    roots := [], lookup := fun _ => none }

theorem answerable_of_proceed {task : Task} (htask : broker.tasks c = task)
    (h : broker.proceed c someOrder someOutcome task = some broker')
    (h' : Answerable sha256 c broker') : Answerable sha256 c broker := by
  subst htask
  have hs : broker.step sha256 (.proceed c someOrder someOutcome) = some broker' := h
  exact answerable_of_step hs rfl h'

theorem answerable_of_activate {id : JsonValue} {entry : Entry}
    (h : broker.tasks c = .activate id entry) : Answerable sha256 c broker :=
  answerable_of_proceed h rfl (answerable_of_idle (tasks_setTask_self ..))

theorem answerable_of_prompt {id : JsonValue} {entry : Entry} {record : ConsentRecord}
    (h : broker.tasks c = .prompt id entry record) : Answerable sha256 c broker := by
  have hs : ∃ broker', broker.step sha256 (.answer c .unanswered "" (.failed .createDir)) = some broker' ∧
      broker'.tasks c = .activate id entry := by
    simp only [Broker.step, h]
    exact ⟨_, rfl, tasks_setTask_self ..⟩
  obtain ⟨broker', hs, htask⟩ := hs
  exact answerable_of_step hs rfl (answerable_of_activate htask)

/-- What looking at consent comes to. -/
theorem proceed_consult (broker : Broker) (c : Nat) (id : JsonValue) (entry : Entry) : ∃ broker' task,
    broker.proceed c someOrder someOutcome (.consult id entry) = some broker' ∧
      broker'.tasks = (broker.setTask c task).tasks ∧
      (task = .queue id entry ∨ task = .activate id entry) := by
  refine ⟨_, if shouldAsk (broker.engine.evaluate entry.name entry.launchHash).1.state &&
    broker.available then .queue id entry else .activate id entry, rfl, rfl, ?_⟩
  split
  · exact .inl rfl
  · exact .inr rfl

/-- What re-reading consent comes to. -/
theorem proceed_reread (broker : Broker) (c : Nat) (id : JsonValue) (entry : Entry) : ∃ broker',
    broker.proceed c someOrder someOutcome (.reread id entry) = some broker' ∧
      ((∃ record, broker'.tasks = (broker.setTask c (.prompt id entry record)).tasks ∧
          broker'.promptLock = broker.promptLock) ∨
        broker'.tasks = (broker.setTask c (.activate id entry)).tasks ∧
          broker'.promptLock = none) := by
  unfold proceed
  dsimp only
  split
  · exact ⟨_, rfl, .inl ⟨_, rfl, rfl⟩⟩
  · exact ⟨_, rfl, .inr ⟨rfl, rfl⟩⟩

theorem answerable_of_reread {id : JsonValue} {entry : Entry}
    (h : broker.tasks c = .reread id entry) : Answerable sha256 c broker := by
  obtain ⟨broker', hs, ⟨record, htasks, -⟩ | ⟨htasks, -⟩⟩ := proceed_reread broker c id entry
  · have htask : broker'.tasks c = .prompt id entry record := by rw [htasks, tasks_setTask_self]
    exact answerable_of_proceed h hs (answerable_of_prompt htask)
  · have htask : broker'.tasks c = .activate id entry := by rw [htasks, tasks_setTask_self]
    exact answerable_of_proceed h hs (answerable_of_activate htask)

theorem answerable_of_free {id : JsonValue} {entry : Entry} (h : broker.tasks c = .queue id entry)
    (hlock : broker.promptLock = none) : Answerable sha256 c broker := by
  have hs : broker.step sha256 (.lockPrompt c) =
      some { broker.setTask c (.reread id entry) with promptLock := some c } := by
    simp only [Broker.step, h, hlock]
  exact answerable_of_step hs rfl (answerable_of_reread (tasks_setTask_self ..))

/-- The holder's dialog can be closed. -/
theorem answerable_of_asked {c' : Nat} {id id' : JsonValue} {entry entry' : Entry}
    {record : ConsentRecord} (h : broker.tasks c = .queue id entry)
    (h' : broker.tasks c' = .prompt id' entry' record) : Answerable sha256 c broker := by
  have hne : c ≠ c' := by
    rintro rfl
    rw [h] at h'
    exact absurd h' (by simp)
  have hs : ∃ broker', broker.step sha256 (.answer c' .unanswered "" (.failed .createDir)) = some broker' ∧
      broker'.tasks c = .queue id entry ∧ broker'.promptLock = none := by
    simp only [Broker.step, h']
    exact ⟨_, rfl, (tasks_setTask_of_ne hne ..).trans h, rfl⟩
  obtain ⟨broker', hs, htask, hlock⟩ := hs
  exact answerable_of_step hs rfl (answerable_of_free htask hlock)

theorem answerable_of_queue (hheld : broker.LockHeld) {id : JsonValue} {entry : Entry}
    (h : broker.tasks c = .queue id entry) : Answerable sha256 c broker := by
  cases hlock : broker.promptLock with
  | none => exact answerable_of_free h hlock
  | some c' =>
    have hne : c ≠ c' := by
      rintro rfl
      have := hheld c hlock
      rw [h] at this
      exact absurd this (by simp [Task.holdsPrompt])
    -- the holder goes on first
    have hholds := hheld c' hlock
    cases htask : broker.tasks c' with
    | prompt id' entry' record => exact answerable_of_asked h htask
    | reread id' entry' =>
      obtain ⟨broker', hs, hafter⟩ := proceed_reread broker c' id' entry'
      rw [← htask] at hs
      have hs : broker.step sha256 (.proceed c' someOrder someOutcome) = some broker' := hs
      refine answerable_of_step hs rfl ?_
      obtain ⟨record, htasks, -⟩ | ⟨htasks, hfree⟩ := hafter
      · have hqueue : broker'.tasks c = .queue id entry := by
          rw [htasks, tasks_setTask_of_ne hne, h]
        have hasks : broker'.tasks c' = .prompt id' entry' record := by
          rw [htasks, tasks_setTask_self]
        exact answerable_of_asked hqueue hasks
      · have hqueue : broker'.tasks c = .queue id entry := by
          rw [htasks, tasks_setTask_of_ne hne, h]
        exact answerable_of_free hqueue hfree
    | _ =>
      rw [htask] at hholds
      exact absurd hholds (by simp [Task.holdsPrompt])

/-- **A request can be answered, wherever it is.** -/
theorem exists_answered (hheld : broker.LockHeld) (h : (broker.tasks c).request.isSome = true) :
    Answerable sha256 c broker := by
  cases htask : broker.tasks c with
  | list | status | query | release | deactivate =>
    exact answerable_of_proceed htask rfl (answerable_of_idle (tasks_setTask_self ..))
  | activate => exact answerable_of_activate htask
  | prompt => exact answerable_of_prompt htask
  | reread => exact answerable_of_reread htask
  | queue => exact answerable_of_queue hheld htask
  | consult id entry =>
    obtain ⟨broker', task, hs, htasks, hnext⟩ := proceed_consult broker c id entry
    refine answerable_of_proceed htask hs ?_
    have htask' : broker'.tasks c = task := by rw [htasks, tasks_setTask_self]
    rcases hnext with rfl | rfl
    · rw [← htask] at hs
      have hs : broker.step sha256 (.proceed c someOrder someOutcome) = some broker' := hs
      exact answerable_of_queue (hheld.step hs) htask'
    · exact answerable_of_activate htask'
  | idle | closing | closed =>
    rw [htask] at h
    exact absurd h (by simp [Task.request])

end Broker

end McpLocator.Broker
