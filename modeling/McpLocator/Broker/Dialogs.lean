import McpLocator.Broker.Approval

namespace McpLocator.Broker

open McpLocator.Json McpLocator.Proto

/-!
# One dialog at a time, and no question twice

* `PromptOwned` — a task that re-reads consent or has its dialog open holds the prompt lock, so at
  most one dialog is open.
* `Event.faultless` — the store's I/O succeeds and no other process edits the store; `Told` — in runs
  of such events the broker sees the decisions taken, and each was an answer to a dialog.
* `Opens` — a dialog opens; `opens_cases` — the last decision about its server, if there is one, was
  a grant for another launch hash.
* `asked_once` — what has been answered is not asked again, unless the server was approved with
  another launch stanza in between.
-/

set_option linter.dupNamespace false

/-! ### The prompt lock -/

/-- A line read never comes to a task that holds the lock. -/
theorem serve_holdsPrompt {sha256 : List Char → String} {registry : Registry}
    {line : Except String Request} {task : Task} (h : serve sha256 registry line = .inr task) :
    task.holdsPrompt = false := by
  have hrequest := serve_isRequest h
  cases task <;> simp_all [Task.isRequest, Task.holdsPrompt]

namespace Broker

variable {sha256 : List Char → String} {broker broker' : Broker} {event : Event}

/-- The prompt lock is held by the task that says so. -/
def PromptOwned (broker : Broker) : Prop :=
  ∀ c, (broker.tasks c).holdsPrompt = true → broker.promptLock = some c

/-- A task that goes on without the lock. -/
theorem PromptOwned.setTask (h : broker.PromptOwned) {c : Nat} {task : Task}
    (htask : task.holdsPrompt = false) : (broker.setTask c task).PromptOwned := by
  intro c' hc'
  by_cases hc : c' = c
  · rw [hc, tasks_setTask_self, htask] at hc'
    exact absurd hc' (by simp)
  · rw [tasks_setTask_of_ne hc] at hc'
    exact h c' hc'

/-- The engine has no part in it. -/
theorem PromptOwned.withEngine (h : broker.PromptOwned) (engine : Engine) :
    (broker.withEngine engine).PromptOwned := h

theorem PromptOwned.respond (h : broker.PromptOwned) (c : Nat) (response : Response) :
    (broker.respond c response).PromptOwned :=
  PromptOwned.setTask h (c := c) (show Task.idle.holdsPrompt = false from rfl)

/-- The owner lets go of the lock. -/
theorem PromptOwned.release (h : broker.PromptOwned) {c : Nat}
    (hholds : (broker.tasks c).holdsPrompt = true) {task : Task}
    (htask : task.holdsPrompt = false) :
    PromptOwned { broker.setTask c task with promptLock := none } := by
  intro c' hc'
  have hne : c' ≠ c := by
    rintro rfl
    have : ((broker.setTask c' task).tasks c').holdsPrompt = true := hc'
    rw [tasks_setTask_self, htask] at this
    exact absurd this (by simp)
  have hc'' : ((broker.setTask c task).tasks c').holdsPrompt = true := hc'
  rw [tasks_setTask_of_ne hne] at hc''
  -- two owners of one lock
  exact absurd (Option.some.inj ((h c' hc'').symm.trans (h c hholds))) hne

/-- The owner goes on with the lock. -/
theorem PromptOwned.keep (h : broker.PromptOwned) {c : Nat} (hlock : broker.promptLock = some c)
    (task : Task) : (broker.setTask c task).PromptOwned := by
  intro c' hc'
  by_cases hc : c' = c
  · rw [hc]
    exact hlock
  · rw [tasks_setTask_of_ne hc] at hc'
    exact h c' hc'

/-- **Every event keeps the lock with its owner.** -/
theorem PromptOwned.step (h : broker.PromptOwned) (hs : broker.step sha256 event = some broker') :
    broker'.PromptOwned := by
  cases stepped_of_step hs with
  | refused => exact h.respond _ _
  | begun _ hserved => exact h.setTask (serve_holdsPrompt hserved)
  | answered => exact (h.withEngine _).respond _ _
  | consulted _ hgoes =>
    refine (h.withEngine _).setTask ?_
    rcases hgoes with rfl | rfl
    · rfl
    · rfl
  | @opened c _ _ _ _ _ _ htask =>
    have hholds : (broker.tasks c).holdsPrompt = true := by
      rw [htask]
      rfl
    exact (h.withEngine _).keep (h c hholds) _
  | @settled c _ _ _ _ _ htask =>
    have hholds : (broker.tasks c).holdsPrompt = true := by
      rw [htask]
      rfl
    exact (h.withEngine _).release hholds rfl
  | @told c _ _ _ _ _ _ _ htask =>
    have hholds : (broker.tasks c).holdsPrompt = true := by
      rw [htask]
      rfl
    exact (h.withEngine _).release hholds rfl
  | closed => exact (h.withEngine _).setTask rfl
  | hungUp => exact h.setTask rfl
  | @locked c _ _ _ hfree =>
    intro c' hc'
    by_cases hc : c' = c
    · rw [hc]
    · -- nobody held the lock before
      have hc'' : ((broker.setTask c _).tasks c').holdsPrompt = true := hc'
      rw [tasks_setTask_of_ne hc] at hc''
      exact absurd ((h c' hc'').symm.trans hfree) (by simp)
  | quiet => exact h

/-- A dialog about `entry` is open on behalf of a connection. -/
def Asks (broker : Broker) (c : Nat) (entry : Entry) : Prop :=
  ∃ id record, broker.tasks c = .prompt id entry record

theorem PromptOwned.asks_unique (h : broker.PromptOwned) {c c' : Nat} {entry entry' : Entry}
    (hc : broker.Asks c entry) (hc' : broker.Asks c' entry') : c = c' := by
  obtain ⟨_, _, htask⟩ := hc
  obtain ⟨_, _, htask'⟩ := hc'
  have hlock := h c (by rw [htask]; rfl)
  have hlock' := h c' (by rw [htask']; rfl)
  exact Option.some.inj (hlock.symm.trans hlock')

end Broker

/-! ### The decisions the broker knows of -/

/-- A decision that was an answer to a dialog and could be written down, or nothing that writes. -/
def Operation.Answered : Operation → Prop
  | .decide _ _ action (.written _ _) => action ≠ .forget
  | .decide _ _ _ (.failed _) | .outOfBand _ _ _ _ => False
  | _ => True

theorem Operation.answered_of_write {operation : Operation} (h : operation.write = none) :
    operation.Answered := by
  cases operation with
  | decide | outOfBand => exact absurd h (by simp [Operation.write])
  | _ => trivial

namespace Engine

variable {disk : Disk} {operations : List Operation} {operation : Operation} {engine : Engine}

/-- The file is what the answers made of it, and the cache is coherent with it. -/
structure Told (disk : Disk) (operations : List Operation) (engine : Engine) : Prop where
  records : engine.disk.records = settle disk.records (decisions operations)
  coherent : ConsentStore.Coherent engine.disk engine.consent
  answers : ∀ d ∈ decisions operations, d.action ≠ .forget

theorem told_new (disk : Disk) (now brokerPid nextGrant : Nat) :
    Told disk [] (Engine.new disk now brokerPid nextGrant) :=
  ⟨rfl, ConsentStore.coherent_load disk, by simp [decisions, writes]⟩

theorem Told.of_undisturbed {engine' : Engine} (h : Told disk operations engine)
    (hwrite : operation.write = none) (hu : Undisturbed engine engine') :
    Told disk (operations ++ [operation]) engine' := by
  obtain ⟨hdecisions, -⟩ := of_write_none disk operations hwrite
  obtain ⟨hdisk, hconsent⟩ := hu
  refine ⟨?_, ?_, ?_⟩
  · rw [hdisk, hdecisions, h.records]
  · rw [hdisk]
    rcases hconsent with heq | hrefresh
    · rw [heq]
      exact h.coherent
    · rw [hrefresh]
      exact h.coherent.refresh
  · rw [hdecisions]
    exact h.answers

/-- **What the broker does itself it knows of**, whatever the identities that the file is given. -/
theorem Told.perform (h : Told disk operations engine) (ha : operation.Answered) :
    Told disk (operations ++ [operation]) (engine.perform operation) := by
  cases operation with
  | decide now name action outcome =>
    cases outcome with
    | failed step => exact absurd ha id
    | written identity readBack =>
      have hperform := ConsentStore.perform_written engine.disk engine.consent ⟨now, name, action⟩
        identity readBack
      rw [h.coherent.refresh_records, h.records] at hperform
      have hengine : engine.perform (.decide now name action (.written identity readBack)) =
          { engine with
            disk := (engine.consent.perform (.written identity readBack) engine.disk now name
              action).2.1
            consent := (engine.consent.perform (.written identity readBack) engine.disk now name
              action).2.2 } := rfl
      rw [hperform] at hengine
      have hwrite : (Operation.decide now name action (.written identity readBack)).write =
          some (⟨now, name, action⟩, .written identity readBack) := rfl
      obtain ⟨hdecisions, -⟩ := of_write_some disk operations hwrite
      rw [hengine]
      refine ⟨?_, fun _ _ => (ConsentStore.records_written identity _).symm, fun d hd => ?_⟩
      · rw [hdecisions, settle_append]
        exact ConsentStore.records_written identity _
      · rw [hdecisions] at hd
        rcases List.mem_append.mp hd with hd | hd
        · exact h.answers d hd
        · obtain rfl := List.mem_singleton.mp hd
          exact ha
  | outOfBand => exact absurd ha id
  | activate | release | releaseConnection | deactivate | reapIdle | evaluate | elapse | expire
    | exit => exact h.of_undisturbed rfl (undisturbed_perform rfl)

theorem Told.foldl_perform {more : List Operation} (h : Told disk operations engine)
    (ha : ∀ operation ∈ more, operation.Answered) :
    Told disk (operations ++ more) (more.foldl Engine.perform engine) := by
  induction more generalizing operations engine with
  | nil =>
    rw [List.append_nil]
    exact h
  | cons operation more ih =>
    rw [← List.singleton_append, ← List.append_assoc]
    exact ih (h.perform (ha operation List.mem_cons_self))
      fun o ho => ha o (List.mem_cons_of_mem _ ho)

/-- **There is only a question about a server whose last decision, if there is one, was a grant for
    another launch hash.** -/
theorem Told.last_of_shouldAsk (h : Told disk operations engine) {entry : Entry}
    (hask : shouldAsk (engine.consentFor entry).state = true) {d : Decided}
    (hlast : lastDecision (decisions operations) entry.name = some d) :
    ∃ launchHash launchCommand scope, d.action = .grant launchHash launchCommand scope ∧
      launchHash ≠ entry.launchHash := by
  have hrecord : engine.consentFor entry =
      (d.record.getD .notAsked).judge entry.launchHash := by
    have hrecords := getElem?_settle disk.records (decisions operations) entry.name
    rw [hlast] at hrecords
    dsimp only at hrecords
    rw [consentFor, ConsentStore.evaluate_eq, recordOf, h.coherent.refresh_records, h.records,
      hrecords]
    cases d.record <;> rfl
  rw [hrecord] at hask
  unfold Decided.record at hask
  cases haction : d.action with
  | grant launchHash launchCommand scope =>
    refine ⟨launchHash, launchCommand, scope, rfl, ?_⟩
    rintro rfl
    -- the record is granted for this very hash
    simp [haction, ConsentAction.record, ConsentStore.granted, ConsentRecord.judge, shouldAsk]
      at hask
  | deny =>
    simp [haction, ConsentAction.record, ConsentStore.denied, ConsentRecord.judge, shouldAsk]
      at hask
  | forget => exact absurd haction (h.answers d (mem_of_lastDecision hlast))

end Engine

/-! ### Undisturbed runs -/

/-- The store's I/O succeeds, and no other process edits the store. -/
def Event.faultless : Event → Bool
  | .answer _ _ _ (.failed _) | .outOfBand _ _ _ _ => false
  | _ => true

namespace Broker

variable {sha256 : List Char → String} {broker broker' : Broker} {event : Event}

theorem write_taskOperations {c : Nat} {order : IterationOrder} {outcome : StartOutcome} {task : Task}
    {operation : Operation} (h : operation ∈ broker.taskOperations c order outcome task) :
    operation.write = none := by
  cases task with
  | list id catalog =>
    obtain ⟨e, -, rfl⟩ := List.mem_map.mp h
    rfl
  | idle | queue | prompt | closed => exact absurd h (by simp [taskOperations])
  | status | query | consult | reread | activate | release | deactivate | closing =>
    obtain rfl := List.mem_singleton.mp h
    rfl

/-- Only an answer to a dialog that is open writes. -/
theorem operations_cases (h : event.faultless = true) {operation : Operation}
    (hmem : operation ∈ broker.operations event) : operation.write = none ∨
      ∃ c decision now identity readBack entry action,
        event = .answer c decision now (.written identity readBack) ∧ broker.Asks c entry ∧
        action ≠ .forget ∧ operation = .decide now entry.name action (.written identity readBack) := by
  cases event with
  | proceed => exact .inl (write_taskOperations hmem)
  | answer c decision now outcome =>
    cases outcome with
    | failed => exact absurd h (by simp [Event.faultless])
    | written identity readBack =>
      simp only [operations] at hmem
      split at hmem
      · rename_i id entry record htask
        right
        cases decision with
        | allow =>
          obtain rfl := List.mem_singleton.mp hmem
          exact ⟨c, .allow, now, identity, readBack, entry, _, rfl, ⟨id, record, htask⟩, by simp, rfl⟩
        | deny =>
          obtain rfl := List.mem_singleton.mp hmem
          exact ⟨c, .deny, now, identity, readBack, entry, _, rfl, ⟨id, record, htask⟩, by simp, rfl⟩
        | unanswered => exact absurd hmem (by simp [answerOperations])
      · exact absurd hmem (by simp)
  | outOfBand => exact absurd h (by simp [Event.faultless])
  | reap | elapse | expire | exit =>
    obtain rfl := List.mem_singleton.mp hmem
    exact .inl rfl
  | receive | lockPrompt | hangUp => exact absurd hmem (by simp [operations])

theorem answered_operations (broker : Broker) (h : event.faultless = true) :
    ∀ operation ∈ broker.operations event, operation.Answered := by
  intro operation hmem
  rcases operations_cases h hmem with hwrite | ⟨_, _, _, _, _, _, _, -, -, haction, rfl⟩
  · exact Operation.answered_of_write hwrite
  · exact haction

/-- Where a decision comes from. -/
theorem asks_of_decided (h : event.faultless = true) {d : Decided}
    (hd : d ∈ decisions (broker.operations event)) : ∃ c entry decision now outcome,
      event = .answer c decision now outcome ∧ broker.Asks c entry ∧ d.name = entry.name := by
  obtain ⟨⟨d', outcome⟩, hwrite, hidentity⟩ := List.mem_filterMap.mp hd
  obtain ⟨operation, hmem, hoperation⟩ := List.mem_filterMap.mp hwrite
  obtain ⟨_, -, rfl⟩ := Option.map_eq_some_iff.mp hidentity
  rcases operations_cases h hmem with hnone | ⟨c, decision, now, _, _, entry, _, hevent, hasks, -, rfl⟩
  · rw [hnone] at hoperation
    exact absurd hoperation (by simp)
  · obtain ⟨rfl, -⟩ := Prod.mk.inj (Option.some.inj hoperation)
    exact ⟨c, entry, decision, now, _, hevent, hasks, rfl⟩

/-- A dialog about `entry` opens on behalf of a connection. -/
def Opens (broker : Broker) (c : Nat) (entry : Entry) (broker' : Broker) : Prop :=
  (∀ entry', ¬broker.Asks c entry') ∧ broker'.Asks c entry

/-- A dialog that is open after an event was open before, or the question is due. -/
theorem asks_of_step {c : Nat} {entry : Entry} (hs : broker.step sha256 event = some broker')
    (hasks : broker'.Asks c entry) :
    broker.Asks c entry ∨ shouldAsk (broker.engine.consentFor entry).state = true := by
  obtain ⟨id, record, hprompt⟩ := hasks
  rcases tasks_of_step hs with htasks | ⟨c', next, hgoes, htasks⟩
  · rw [htasks] at hprompt
    exact .inl ⟨id, record, hprompt⟩
  · rw [htasks] at hprompt
    by_cases hc : c = c'
    · rw [hc, tasks_setTask_self] at hprompt
      exact .inr (hgoes.prompt id entry record hprompt)
    · rw [tasks_setTask_of_ne hc] at hprompt
      exact .inl ⟨id, record, hprompt⟩

end Broker

namespace Recorded

variable {sha256 : List Char → String} {disk : Disk} {r r' : Recorded} {event : Event}

/-- An event in a run whose store I/O succeeds and whose store no other process edits. -/
def QuietStep (sha256 : List Char → String) (r : Recorded) (event : Event) (r' : Recorded) : Prop :=
  r.step sha256 event = some r' ∧ event.faultless = true

/-- The prompt lock is with its owner, and the broker knows of every decision. -/
structure Told (disk : Disk) (r : Recorded) : Prop where
  owned : r.broker.PromptOwned
  told : r.broker.engine.Told disk r.operations

theorem told_new (disk : Disk) (now brokerPid nextGrant : Nat) (available : Bool)
    (clientPid : Nat → Option Nat) :
    Told disk (new disk now brokerPid nextGrant available clientPid) :=
  ⟨fun _ h => absurd h (by simp [new, Broker.new, Task.holdsPrompt]), Engine.told_new _ _ _ _⟩

theorem Told.step (h : Told disk r) (hs : r.QuietStep sha256 event r') : Told disk r' := by
  obtain ⟨broker, hstep, rfl⟩ := step_eq_some.mp hs.1
  refine ⟨h.owned.step hstep, ?_⟩
  show Engine.Told disk (r.operations ++ r.broker.operations event) broker.engine
  rw [Broker.step_engine hstep]
  exact h.told.foldl_perform (r.broker.answered_operations hs.2)

theorem Told.run {events : List Event} (h : Told disk r)
    (hrun : Transition.Run (QuietStep sha256) r events r') : Told disk r' :=
  hrun.invariant h fun _ _ _ h hs => h.step hs

/-- **A dialog that opens asks about a server whose last decision was for another launch hash.** -/
theorem Told.last_of_opens (h : Told disk r) (hs : r.QuietStep sha256 event r') {c : Nat}
    {entry : Entry} (hopens : r.broker.Opens c entry r'.broker) {d : Decided}
    (hlast : lastDecision (decisions r.operations) entry.name = some d) :
    ∃ launchHash launchCommand scope, d.action = .grant launchHash launchCommand scope ∧
      launchHash ≠ entry.launchHash := by
  obtain ⟨broker, hstep, rfl⟩ := step_eq_some.mp hs.1
  rcases Broker.asks_of_step hstep hopens.2 with hasks | hshould
  · exact absurd hasks (hopens.1 entry)
  · exact h.told.last_of_shouldAsk hshould hlast

/-- The decision that an answer is, if it is one. -/
def answerDecisions (entry : Entry) (now : String) : Decision → List Decided
  | .allow => [⟨now, entry.name, .grant entry.launchHash (launchSummary entry) .user⟩]
  | .deny => [⟨now, entry.name, .deny⟩]
  | .unanswered => []

/-- An answer to an open dialog is recorded. -/
theorem decisions_of_answer {c : Nat} {entry : Entry} {decision : Decision} {now : String}
    {identity : Identity} {readBack : Bool} (hasks : r.broker.Asks c entry)
    (hs : r.step sha256 (.answer c decision now (.written identity readBack)) = some r') :
    decisions r'.operations = decisions r.operations ++ answerDecisions entry now decision := by
  obtain ⟨id, record, htask⟩ := hasks
  obtain ⟨broker, -, rfl⟩ := step_eq_some.mp hs
  have hoperations : r.broker.operations (.answer c decision now (.written identity readBack)) =
      Broker.answerOperations entry now (.written identity readBack) decision := by
    simp [Broker.operations, htask]
  show decisions (r.operations ++ _) = _
  rw [decisions_append, hoperations]
  cases decision <;> rfl

/-- The server was refused, and nobody asks about it. -/
structure Refused (disk : Disk) (name : String) (r : Recorded) : Prop where
  told : Told disk r
  denied : ∃ d, lastDecision (decisions r.operations) name = some d ∧ d.action = .deny
  unasked : ∀ c entry, r.broker.Asks c entry → entry.name ≠ name

/-- A server that was refused stays refused. -/
theorem Refused.step {name : String} (h : Refused disk name r) (hs : r.QuietStep sha256 event r') :
    Refused disk name r' := by
  have htold := h.told.step hs
  obtain ⟨d, hlast, hdeny⟩ := h.denied
  obtain ⟨broker, hstep, rfl⟩ := step_eq_some.mp hs.1
  refine ⟨htold, ⟨d, ?_, hdeny⟩, fun c entry hasks => ?_⟩
  · -- a later decision about the server would be the answer to a dialog about it
    show lastDecision (decisions (r.operations ++ r.broker.operations event)) name = some d
    rw [decisions_append, lastDecision_append]
    cases hmore : lastDecision (decisions (r.broker.operations event)) name with
    | none => exact hlast
    | some d' =>
      obtain ⟨c, entry, -, -, -, -, hasks, hname⟩ :=
        Broker.asks_of_decided hs.2 (mem_of_lastDecision hmore)
      exact absurd (hname.symm.trans (name_of_lastDecision hmore)) (h.unasked c entry hasks)
  · rintro rfl
    rcases Broker.asks_of_step hstep hasks with hbefore | hshould
    · exact h.unasked c entry hbefore rfl
    · obtain ⟨_, _, _, hgrant, -⟩ := h.told.told.last_of_shouldAsk hshould hlast
      rw [hdeny] at hgrant
      exact absurd hgrant (by simp)

/-- Only a dialog that is open is answered. -/
theorem asks_of_answer {c : Nat} {decision : Decision} {now : String} {outcome : WriteOutcome}
    (hs : r.step sha256 (.answer c decision now outcome) = some r') :
    ∃ entry, r.broker.Asks c entry := by
  obtain ⟨broker, hstep, rfl⟩ := step_eq_some.mp hs
  cases Broker.stepped_of_step hstep with
  | @told _ _ _ _ _ id entry record htask => exact ⟨entry, id, record, htask⟩
  | quiet h => exact absurd h (by simp [Event.isQuiet])

/-- Once a dialog has been answered, no other one is open. -/
theorem Told.not_asks_of_answer (h : Told disk r) {c c' : Nat} {entry entry' : Entry}
    {decision : Decision} {now : String} {outcome : WriteOutcome}
    (hs : r.step sha256 (.answer c decision now outcome) = some r')
    (hasks : r.broker.Asks c entry) : ¬r'.broker.Asks c' entry' := by
  obtain ⟨id, record, htask⟩ := hasks
  obtain ⟨broker, hstep, rfl⟩ := step_eq_some.mp hs
  simp only [Broker.step, htask] at hstep
  obtain rfl := Option.some.inj hstep
  rintro ⟨id', record', hprompt⟩
  have hprompt' : (r.broker.setTask c (.activate id entry)).tasks c' = .prompt id' entry' record' :=
    hprompt
  by_cases hc : c' = c
  · -- the connection itself has gone on to its activation
    rw [hc, Broker.tasks_setTask_self] at hprompt'
    simp at hprompt'
  · rw [Broker.tasks_setTask_of_ne hc] at hprompt'
    exact hc (h.owned.asks_unique ⟨id', record', hprompt'⟩ ⟨id, record, htask⟩)

/-- An unanswered dialog leaves the store as it was. -/
theorem store_of_unanswered {c : Nat} {now : String} {outcome : WriteOutcome}
    (hs : r.step sha256 (.answer c .unanswered now outcome) = some r') :
    r'.broker.engine.disk = r.broker.engine.disk ∧
      r'.broker.engine.consent = r.broker.engine.consent := by
  obtain ⟨broker, hstep, rfl⟩ := step_eq_some.mp hs
  simp only [Broker.step] at hstep
  split at hstep
  · obtain rfl := Option.some.inj hstep
    exact ⟨rfl, rfl⟩
  · exact absurd hstep (by simp)

/-- After a refusal nobody asks about the server. -/
theorem Told.refused (h : Told disk r) {c : Nat} {entry : Entry} {now : String}
    {outcome : WriteOutcome} (hasks : r.broker.Asks c entry)
    (hs : r.QuietStep sha256 (.answer c .deny now outcome) r') :
    Refused disk entry.name r' := by
  refine ⟨h.step hs, ?_, fun c' entry' hasks' => absurd hasks' (h.not_asks_of_answer hs.1 hasks)⟩
  cases outcome with
  | failed => exact absurd hs.2 (by simp [Event.faultless])
  | written identity readBack =>
    refine ⟨⟨now, entry.name, .deny⟩, ?_, rfl⟩
    rw [decisions_of_answer hasks hs.1]
    exact (lastDecision_append_singleton _ _ _).trans (if_pos rfl)

/-- After an approval, a question about the same launch hash means that the server was approved with
    another one in the meantime. -/
theorem Told.granted_since (h : Told disk r) {c : Nat} {entry : Entry} {now : String}
    {outcome : WriteOutcome} {r₁ r₂ : Recorded} (hasks : r.broker.Asks c entry)
    (hs : r.QuietStep sha256 (.answer c .allow now outcome) r₁) {later : List Event}
    (hrun : Transition.Run (QuietStep sha256) r₁ later r₂)
    (hs₂ : r₂.QuietStep sha256 event r') {c' : Nat} {entry' : Entry}
    (hopens : r₂.broker.Opens c' entry' r'.broker) (hname : entry'.name = entry.name)
    (hhash : entry'.launchHash = entry.launchHash) :
    ∃ more, r₂.operations = r₁.operations ++ more ∧ ∃ d ∈ decisions more, d.name = entry.name ∧
      ∃ launchHash launchCommand scope, d.action = .grant launchHash launchCommand scope ∧
        launchHash ≠ entry.launchHash := by
  obtain ⟨more, hmore⟩ := operations_of_reached (hrun.mono fun _ _ _ hs => hs.1)
  refine ⟨more, hmore, ?_⟩
  have hallow : lastDecision (decisions r₁.operations) entry.name =
      some ⟨now, entry.name, .grant entry.launchHash (launchSummary entry) .user⟩ := by
    cases outcome with
    | failed => exact absurd hs.2 (by simp [Event.faultless])
    | written identity readBack =>
      rw [decisions_of_answer hasks hs.1]
      exact (lastDecision_append_singleton _ _ _).trans (if_pos rfl)
  have hlast := fun d => ((h.step hs).run hrun).last_of_opens (d := d) hs₂ hopens
  rw [hname, hhash, hmore, decisions_append, lastDecision_append, hallow] at hlast
  cases hsince : lastDecision (decisions more) entry.name with
  | some d =>
    rw [hsince] at hlast
    exact ⟨d, mem_of_lastDecision hsince, name_of_lastDecision hsince, hlast d rfl⟩
  | none =>
    -- the approval itself would be the last decision, and it is for this hash
    rw [hsince] at hlast
    obtain ⟨_, _, _, hgrant, hne⟩ := hlast _ rfl
    obtain ⟨rfl, -⟩ := ConsentAction.grant.inj hgrant
    exact absurd rfl hne

end Recorded

/-- **One question, asked once.** -/
theorem asked_once {sha256 : List Char → String} {disk : Disk} {now brokerPid nextGrant : Nat}
    {available : Bool} {clientPid : Nat → Option Nat} {events : List Event} {r : Recorded}
    (h : Transition.Run (Recorded.QuietStep sha256)
      (.new disk now brokerPid nextGrant available clientPid) events r) :
    (∀ c c' entry entry', r.broker.Asks c entry → r.broker.Asks c' entry' → c = c') ∧
    ∀ c entry decision now outcome r₁, r.broker.Asks c entry →
      r.QuietStep sha256 (.answer c decision now outcome) r₁ →
      (decision = .unanswered → r₁.broker.engine.disk = r.broker.engine.disk ∧
        r₁.broker.engine.consent = r.broker.engine.consent) ∧
      ∀ later r₂ event r₃ c' entry', Transition.Run (Recorded.QuietStep sha256) r₁ later r₂ →
        r₂.QuietStep sha256 event r₃ → r₂.broker.Opens c' entry' r₃.broker →
        entry'.name = entry.name →
        decision ≠ .deny ∧
        (decision = .allow → entry'.launchHash = entry.launchHash →
          ∃ more, r₂.operations = r₁.operations ++ more ∧ ∃ d ∈ decisions more,
            d.name = entry.name ∧ ∃ launchHash launchCommand scope,
              d.action = .grant launchHash launchCommand scope ∧
                launchHash ≠ entry.launchHash) := by
  have htold : Recorded.Told disk r := (Recorded.told_new _ _ _ _ _ _).run h
  refine ⟨fun c c' entry entry' hc hc' => htold.owned.asks_unique hc hc', ?_⟩
  intro c entry decision now outcome r₁ hasks hs
  refine ⟨?_, fun later r₂ event r₃ c' entry' hrun hs₂ hopens hname => ⟨?_, ?_⟩⟩
  · rintro rfl
    exact Recorded.store_of_unanswered hs.1
  · rintro rfl
    -- the dialog that opens would be about a server that was refused
    have hrefused : Recorded.Refused disk entry.name r₂ :=
      hrun.invariant (htold.refused hasks hs) fun _ _ _ h hs => h.step hs
    exact (hrefused.step hs₂).unasked c' entry' hopens.2 hname
  · rintro rfl hhash
    exact htold.granted_since hasks hs hrun hs₂ hopens hname hhash

/-- The broker with the dialog open. -/
def viewerAsked : Recorded :=
  (Transition.replay (Recorded.step String.ofList) freshBroker (viewerSession.take 4)).get
    (by decide +kernel)

theorem run_viewerAsked :
    Transition.Run (Recorded.QuietStep String.ofList) freshBroker (viewerSession.take 4)
      viewerAsked := by
  have hstart : Transition.Run (Recorded.QuietStep String.ofList) freshBroker [] freshBroker := .start
  refine hstart.extend (P := fun _ => True) trivial (fun _ event _ _ hmem _ => ⟨?_, trivial⟩)
    (Option.some_get (by decide +kernel)).symm
  have hall : ∀ event ∈ viewerSession.take 4, event.faultless = true := by
    simp [viewerSession, Event.faultless]
  exact hall event hmem

theorem quietStep_viewerAsked : viewerAsked.QuietStep String.ofList
    (.answer 1 .allow "2026-01-01T00:00:00Z" (.written ⟨1, 200⟩ true)) viewerAllowed := by
  have hreplay : Transition.replay (Recorded.step String.ofList) freshBroker viewerSession =
      some viewerAllowed := (Option.some_get _).symm
  rw [← List.take_append_drop 4 viewerSession, Transition.replay_append] at hreplay
  obtain ⟨r, hasked, hanswer⟩ := Option.bind_eq_some_iff.mp hreplay
  have hr : viewerAsked = r := Option.get_of_eq_some _ hasked
  obtain ⟨r', hstep, hr'⟩ := Option.bind_eq_some_iff.mp hanswer
  obtain rfl := Option.some.inj hr'
  exact ⟨hr ▸ hstep, rfl⟩

/-- The viewer, once allowed, is not asked about again before it is approved as something else. -/
theorem asked_once_viewer : ∃ entry, viewerAsked.broker.Asks 1 entry ∧
    ∀ later r₂ event r₃ c' entry',
      Transition.Run (Recorded.QuietStep String.ofList) viewerAllowed later r₂ →
      r₂.QuietStep String.ofList event r₃ → r₂.broker.Opens c' entry' r₃.broker →
      entry'.name = entry.name → entry'.launchHash = entry.launchHash →
      ∃ more, r₂.operations = viewerAllowed.operations ++ more ∧ decisions more ≠ [] := by
  obtain ⟨entry, hasks⟩ := Recorded.asks_of_answer quietStep_viewerAsked.1
  refine ⟨entry, hasks, fun later r₂ event r₃ c' entry' hrun hs₂ hopens hname hhash => ?_⟩
  obtain ⟨-, hlater⟩ := (asked_once run_viewerAsked).2 1 entry _ _ _ _ hasks quietStep_viewerAsked
  obtain ⟨more, hmore, d, hd, -⟩ :=
    (hlater later r₂ event r₃ c' entry' hrun hs₂ hopens hname).2 rfl hhash
  exact ⟨more, hmore, List.ne_nil_of_mem hd⟩

end McpLocator.Broker
