import McpLocator.Broker.Decisions
import McpLocator.Broker.Runs

namespace McpLocator.Broker

open McpLocator.Json McpLocator.Proto

/-!
# Nothing launches without a current approval

* `writes`, `decisions`, `identities` — what the operations of a run write to the consent file.
* `FreshWrites` — every write succeeds and gives the file an identity that it never had before.
* `Tracked` — the file is what the decisions made of it, and the cache does not mistake another file
  for it; every operation keeps it.
* `approved_launch` — a process is only started from an entry whose hash is approved.
-/

set_option linter.dupNamespace false

/-! ### What a run writes -/

/-- The identity that a write gives the file. -/
def WriteOutcome.identity : WriteOutcome → Option Identity
  | .written identity _ => some identity
  | .failed _ => none

/-- The write to the consent file that an operation is, if it is one. -/
def Operation.write : Operation → Option (Decided × WriteOutcome)
  | .decide now name action outcome | .outOfBand now name action outcome =>
    some (⟨now, name, action⟩, outcome)
  | _ => none

def writes (operations : List Operation) : List (Decided × WriteOutcome) :=
  operations.filterMap Operation.write

/-- The decisions that were completed, the prompt's and those of other processes, oldest first. -/
def decisions (operations : List Operation) : List Decided :=
  (writes operations).filterMap fun w => w.2.identity.map fun _ => w.1

/-- The identities that the writes gave the file. -/
def identities (operations : List Operation) : List Identity :=
  (writes operations).filterMap fun w => w.2.identity

/-- Every identity the file has had. -/
def knownIdentities (disk : Disk) (operations : List Operation) : List Identity :=
  disk.metadata.toList ++ identities operations

/-- Every write succeeds and gives the file an identity that it never had before. -/
structure FreshWrites (disk : Disk) (operations : List Operation) : Prop where
  succeed : ∀ w ∈ writes operations, w.2.identity.isSome = true
  fresh : (knownIdentities disk operations).Nodup

instance (disk : Disk) (operations : List Operation) : Decidable (FreshWrites disk operations) :=
  decidable_of_iff ((∀ w ∈ writes operations, w.2.identity.isSome = true) ∧
    (knownIdentities disk operations).Nodup) ⟨fun h => ⟨h.1, h.2⟩, fun h => ⟨h.succeed, h.fresh⟩⟩

section Append

variable {disk : Disk} {operations : List Operation} {operation : Operation}

theorem decisions_append (operations more : List Operation) :
    decisions (operations ++ more) = decisions operations ++ decisions more := by
  simp [decisions, writes]

theorem writes_snoc (operations : List Operation) (operation : Operation) :
    writes (operations ++ [operation]) = writes operations ++ operation.write.toList := by
  rw [writes, List.filterMap_append]
  cases h : operation.write <;> simp [h, writes]

/-- An operation that writes nothing changes nothing here. -/
theorem of_write_none (disk : Disk) (operations : List Operation) (h : operation.write = none) :
    decisions (operations ++ [operation]) = decisions operations ∧
      knownIdentities disk (operations ++ [operation]) = knownIdentities disk operations := by
  simp [decisions, knownIdentities, identities, writes_snoc, h]

/-- A completed write adds its decision and its identity. -/
theorem of_write_some (disk : Disk) (operations : List Operation) {d : Decided}
    {identity : Identity} {readBack : Bool}
    (h : operation.write = some (d, .written identity readBack)) :
    decisions (operations ++ [operation]) = decisions operations ++ [d] ∧
      knownIdentities disk (operations ++ [operation]) =
        knownIdentities disk operations ++ [identity] := by
  simp [decisions, knownIdentities, identities, writes_snoc, h, WriteOutcome.identity]

/-- Fresh writes so far, and what that says of the last one. -/
theorem FreshWrites.of_snoc (h : FreshWrites disk (operations ++ [operation])) :
    FreshWrites disk operations ∧ ∀ d outcome, operation.write = some (d, outcome) →
      ∃ identity readBack, outcome = .written identity readBack ∧
        identity ∉ knownIdentities disk operations := by
  have hsucceed := h.succeed
  have hfresh := h.fresh
  rw [writes_snoc] at hsucceed
  refine ⟨⟨fun w hw => hsucceed w (List.mem_append_left _ hw), ?_⟩, fun d outcome hwrite => ?_⟩
  · -- the identities so far are a part of all of them
    have hsub : (knownIdentities disk operations).Sublist
        (knownIdentities disk (operations ++ [operation])) := by
      simp [knownIdentities, identities, writes_snoc]
    exact hfresh.sublist hsub
  · have hsome := hsucceed (d, outcome) (List.mem_append_right _ (by simp [hwrite]))
    cases outcome with
    | failed step => simp [WriteOutcome.identity] at hsome
    | written identity readBack =>
      -- the new identity stands last, so the ones before it differ from it
      refine ⟨identity, readBack, rfl, ?_⟩
      rw [(of_write_some disk operations hwrite).2] at hfresh
      intro hmem
      exact (List.nodup_append.mp hfresh).2.2 identity hmem identity (by simp) rfl

end Append

namespace Engine

variable {engine : Engine}

/-! ### Operations that write nothing -/

/-- The file is untouched; the cache, too, or it is refreshed. -/
def Undisturbed (engine engine' : Engine) : Prop :=
  engine'.disk = engine.disk ∧
    (engine'.consent = engine.consent ∨ engine'.consent = engine.consent.refresh engine.disk)

theorem undisturbed_release (engine : Engine) (id : String) :
    (engine.release id).2.disk = engine.disk ∧ (engine.release id).2.consent = engine.consent := by
  rw [release_frame]
  exact ⟨rfl, rfl⟩

theorem undisturbed_releaseAll (engine : Engine) (ids : List String) :
    (engine.releaseAll ids).disk = engine.disk ∧
      (engine.releaseAll ids).consent = engine.consent := by
  refine releaseAll_induction (P := fun e => e.disk = engine.disk ∧ e.consent = engine.consent)
    ⟨rfl, rfl⟩ (fun e id he => ?_) ids
  obtain ⟨hdisk, hconsent⟩ := undisturbed_release e id
  exact ⟨hdisk.trans he.1, hconsent.trans he.2⟩

theorem undisturbed_stopShared (engine : Engine) (name : String) (server : SharedServer) :
    (engine.stopShared name server).disk = engine.disk ∧
      (engine.stopShared name server).consent = engine.consent := by
  unfold stopShared
  cases server.child <;> exact ⟨rfl, rfl⟩

theorem undisturbed_deactivate (engine : Engine) (order : IterationOrder) (name : String)
    (force : Bool) : (engine.deactivate order name force).2.disk = engine.disk ∧
      (engine.deactivate order name force).2.consent = engine.consent := by
  unfold deactivate
  dsimp only
  split
  · exact ⟨rfl, rfl⟩
  · have hall := undisturbed_releaseAll engine
      (order.1 (engine.grantsWhere fun g => g.name == name))
    split
    · exact hall
    · obtain ⟨hdisk, hconsent⟩ := undisturbed_stopShared (engine.releaseAll
        (order.1 (engine.grantsWhere fun g => g.name == name))) name _
      exact ⟨hdisk.trans hall.1, hconsent.trans hall.2⟩

theorem undisturbed_reapIdle (engine : Engine) (order : IterationOrder) :
    (engine.reapIdle order).disk = engine.disk ∧
      (engine.reapIdle order).consent = engine.consent := by
  unfold reapIdle
  generalize order.1 engine.expired = names
  induction names generalizing engine with
  | nil => exact ⟨rfl, rfl⟩
  | cons name names ih =>
    have hreap : (engine.reap name).disk = engine.disk ∧
        (engine.reap name).consent = engine.consent := by
      unfold reap
      split
      · exact ⟨rfl, rfl⟩
      · exact undisturbed_stopShared engine name _
    obtain ⟨hdisk, hconsent⟩ := ih (engine.reap name)
    exact ⟨hdisk.trans hreap.1, hconsent.trans hreap.2⟩

theorem consulted_consent (engine : Engine) (entry : Entry) :
    (engine.consulted entry).consent = engine.consent.refresh engine.disk := by
  rw [consulted, ConsentStore.evaluate_eq]

theorem undisturbed_activated {entry : Entry} {connection : Nat} {clientPid : Option Nat}
    {result : Except ActivateError ActivateResult} {engine' : Engine}
    (h : Activated engine entry connection clientPid result engine') :
    Undisturbed engine engine' := by
  have hconsulted : Undisturbed engine (engine.consulted entry) :=
    ⟨rfl, .inr (consulted_consent engine entry)⟩
  cases h with
  | orphaned => exact ⟨rfl, .inl rfl⟩
  | refused => exact hconsulted
  | notStarted _ _ _ hs => cases hs <;> exact hconsulted
  | granted _ _ _ _ _ hs => cases hs <;> exact hconsulted

/-- **An operation that writes nothing at most refreshes the cache.** -/
theorem undisturbed_perform {operation : Operation} (h : operation.write = none) :
    Undisturbed engine (engine.perform operation) := by
  have of_eq : ∀ {engine' : Engine},
      engine'.disk = engine.disk ∧ engine'.consent = engine.consent → Undisturbed engine engine' :=
    fun h => ⟨h.1, .inl h.2⟩
  -- only asking for consent touches the cache, and it can only refresh it
  cases operation with
  | activate entry connection clientPid outcome =>
    exact undisturbed_activated (activate_activated engine entry connection clientPid outcome)
  | release id => exact of_eq (undisturbed_release engine id)
  | releaseConnection order connection => exact of_eq (undisturbed_releaseAll engine _)
  | deactivate order name force => exact of_eq (undisturbed_deactivate engine order name force)
  | reapIdle order => exact of_eq (undisturbed_reapIdle engine order)
  | evaluate name launchHash =>
    refine ⟨rfl, .inr ?_⟩
    show (engine.consent.evaluate engine.disk name launchHash).2 = _
    rw [ConsentStore.evaluate_eq]
  | expire name =>
    refine of_eq ?_
    show (engine.expire name).disk = _ ∧ (engine.expire name).consent = _
    unfold expire
    split <;> exact ⟨rfl, rfl⟩
  | elapse | exit => exact of_eq ⟨rfl, rfl⟩
  | decide | outOfBand => exact absurd h (by simp [Operation.write])

/-! ### The file and the cache -/

/-- The file is what the decisions made of it.  The cache is coherent with it, and neither has an
    identity that a later write could give the file again. -/
structure Tracked (disk : Disk) (operations : List Operation) (engine : Engine) : Prop where
  records : engine.disk.records = settle disk.records (decisions operations)
  coherent : ConsentStore.Coherent engine.disk engine.consent
  seen : ∀ identity ∈ engine.consent.seen, identity ∈ knownIdentities disk operations
  metadata : ∀ identity ∈ engine.disk.metadata, identity ∈ knownIdentities disk operations

theorem tracked_new (disk : Disk) (now brokerPid nextGrant : Nat) :
    Tracked disk [] (Engine.new disk now brokerPid nextGrant) := by
  have hmetadata : ∀ identity ∈ disk.metadata, identity ∈ knownIdentities disk [] := by
    intro identity hi
    exact List.mem_append_left _ (Option.mem_toList.mpr hi)
  refine ⟨rfl, ConsentStore.coherent_load disk, fun identity hi => ?_, hmetadata⟩
  have hseen : (ConsentStore.load disk).seen = disk.metadata := ConsentStore.refresh_seen disk _
  exact hmetadata identity (hseen ▸ hi)

variable {disk : Disk} {operations : List Operation} {operation : Operation}

theorem Tracked.of_undisturbed {engine' : Engine} (h : Tracked disk operations engine)
    (hwrite : operation.write = none) (hu : Undisturbed engine engine') :
    Tracked disk (operations ++ [operation]) engine' := by
  obtain ⟨hdecisions, hknown⟩ := of_write_none disk operations hwrite
  obtain ⟨hdisk, hconsent⟩ := hu
  refine ⟨?_, ?_, ?_, ?_⟩
  -- the records: the file is the one it was, and no decision was added
  · rw [hdisk, hdecisions, h.records]
  · rw [hdisk]
    rcases hconsent with heq | hrefresh
    · rw [heq]
      exact h.coherent
    · rw [hrefresh]
      exact h.coherent.refresh
  · rw [hknown]
    rcases hconsent with heq | hrefresh
    · rw [heq]
      exact h.seen
    · -- the cache has seen the file
      rw [hrefresh, ConsentStore.refresh_seen]
      exact h.metadata
  · rw [hdisk, hknown]
    exact h.metadata

/-- A completed write settles its decision in the file. -/
theorem Tracked.of_written {engine' : Engine} {d : Decided} {identity : Identity} {readBack : Bool}
    (hwrite : operation.write = some (d, .written identity readBack))
    (hdisk : engine'.disk = { metadata := some identity, content := some (encode
      (d.apply (settle disk.records (decisions operations)))) })
    (hcoherent : ConsentStore.Coherent engine'.disk engine'.consent)
    (hseen : ∀ i ∈ engine'.consent.seen, i ∈ knownIdentities disk operations ++ [identity]) :
    Tracked disk (operations ++ [operation]) engine' := by
  obtain ⟨hdecisions, hknown⟩ := of_write_some disk operations hwrite
  refine ⟨?_, hcoherent, ?_, ?_⟩
  · rw [hdecisions, settle_append, hdisk]
    exact ConsentStore.records_written identity _
  · rw [hknown]
    exact hseen
  · rw [hknown, hdisk]
    intro i hi
    obtain rfl := Option.some.inj hi
    simp

/-- **Every operation whose write is fresh keeps track.** -/
theorem Tracked.perform (h : Tracked disk operations engine)
    (hfresh : FreshWrites disk (operations ++ [operation])) :
    Tracked disk (operations ++ [operation]) (engine.perform operation) := by
  obtain ⟨-, hlast⟩ := hfresh.of_snoc
  cases operation with
  | decide now name action outcome =>
    obtain ⟨identity, readBack, rfl, hnew⟩ := hlast ⟨now, name, action⟩ outcome rfl
    have hperform := ConsentStore.perform_written engine.disk engine.consent ⟨now, name, action⟩
      identity readBack
    rw [h.coherent.refresh_records, h.records] at hperform
    have hengine : engine.perform (.decide now name action (.written identity readBack)) =
        { engine with
          disk := (engine.consent.perform (.written identity readBack) engine.disk now name
            action).2.1
          consent := (engine.consent.perform (.written identity readBack) engine.disk now name
            action).2.2 } := rfl
    rw [hperform] at hengine
    rw [hengine]
    refine Tracked.of_written rfl rfl ?_ fun i hi => ?_
    · -- the cache holds what was just written
      intro _ _
      exact (ConsentStore.records_written identity _).symm
    · cases readBack with
      | false => simp at hi
      | true =>
        obtain rfl := Option.some.inj hi
        simp
  | outOfBand now name action outcome =>
    obtain ⟨identity, readBack, rfl, hnew⟩ := hlast ⟨now, name, action⟩ outcome rfl
    have hperform := ConsentStore.perform_written engine.disk (.load engine.disk) ⟨now, name, action⟩ identity
      readBack
    rw [(ConsentStore.coherent_load engine.disk).refresh_records, h.records] at hperform
    have hengine : engine.perform (.outOfBand now name action (.written identity readBack)) =
        { engine with
          disk := ((ConsentStore.load engine.disk).perform (.written identity readBack) engine.disk
            now name action).2.1 } := rfl
    rw [hperform] at hengine
    rw [hengine]
    refine Tracked.of_written rfl rfl ?_ fun i hi => List.mem_append_left _ (h.seen i hi)
    -- the cache is of a file that was there before, so it does not take the new one for it
    intro _ heq
    exact absurd (h.seen identity heq.symm) hnew
  | activate | release | releaseConnection | deactivate | reapIdle | evaluate | elapse | expire
    | exit => exact h.of_undisturbed rfl (undisturbed_perform rfl)

theorem tracked_of_run {now brokerPid nextGrant : Nat}
    (h : Transition.Run Step (Engine.new disk now brokerPid nextGrant) operations engine)
    (hfresh : FreshWrites disk operations) : Tracked disk operations engine := by
  induction h with
  | start => exact tracked_new disk now brokerPid nextGrant
  | snoc _ hs ih =>
    obtain rfl := hs
    exact (ih hfresh.of_snoc.1).perform hfresh

/-- What the file says when `evaluate` answers that the user has agreed. -/
theorem Tracked.approved (h : Tracked disk operations engine) {entry : Entry}
    (hgranted : (engine.consentFor entry).state = .granted) :
    ∃ record, engine.disk.records[entry.name]? = some record ∧ record.state = .granted ∧
      record.launchHash = some entry.launchHash := by
  rw [consentFor, ConsentStore.evaluate_eq, h.coherent.refresh_records] at hgranted
  unfold recordOf at hgranted
  cases hrecord : engine.disk.records[entry.name]? with
  | none =>
    -- without a record the answer is that nobody asked
    rw [hrecord] at hgranted
    simp [ConsentRecord.notAsked, ConsentRecord.judge] at hgranted
  | some record =>
    rw [hrecord] at hgranted
    refine ⟨record, rfl, ?_⟩
    dsimp only [ConsentRecord.judge] at hgranted
    split at hgranted
    · -- a record that is not a grant is answered as it stands
      rename_i hnot
      exact absurd hgranted hnot
    · rename_i hstate
      split at hgranted
      · rename_i hhash
        exact ⟨not_not.mp hstate, hhash⟩
      · -- a grant for another hash is answered as stale
        exact absurd hgranted (by simp)

/-- Only an activation starts a process. -/
theorem origins_foldl {operations : List Operation} (h : ∀ operation ∈ operations,
    ∀ entry connection clientPid outcome,
      operation ≠ .activate entry connection clientPid outcome) (engine : Engine) :
    (operations.foldl Engine.perform engine).origins = engine.origins := by
  induction operations generalizing engine with
  | nil => rfl
  | cons operation operations ih =>
    have hrest := ih (fun o ho => h o (List.mem_cons_of_mem _ ho)) (engine.perform operation)
    rcases perform_cases engine operation with hq | ⟨entry, c, clientPid, outcome, heq, -⟩
    · exact hrest.trans hq.1
    · exact absurd heq (h operation List.mem_cons_self entry c clientPid outcome)

end Engine

/-! ### Launches -/

namespace Broker

variable {sha256 : List Char → String} {broker broker' : Broker} {event : Event}

/-- Activations are what tasks at that point do. -/
theorem mem_operations_activate {entry : Entry} {connection : Nat} {clientPid : Option Nat}
    {outcome : StartOutcome}
    (h : Operation.activate entry connection clientPid outcome ∈ broker.operations event) :
    ∃ order id, event = .proceed connection order outcome ∧
      broker.tasks connection = .activate id entry ∧
      broker.operations event = [.activate entry connection clientPid outcome] := by
  -- of all events only a task that proceeds can activate, and only from one state
  cases event with
  | proceed c order outcome' =>
    have hmem : Operation.activate entry connection clientPid outcome ∈
        broker.taskOperations c order outcome' (broker.tasks c) := h
    cases htask : broker.tasks c with
    | activate id entry' =>
      rw [htask] at hmem
      have heq := List.mem_singleton.mp hmem
      simp only [Operation.activate.injEq] at heq
      obtain ⟨rfl, rfl, rfl, rfl⟩ := heq
      refine ⟨order, id, rfl, htask, ?_⟩
      rw [operations, htask]
      rfl
    | list | status | query | consult | reread | release | deactivate | closing | idle | queue
      | prompt | closed =>
      rw [htask] at hmem
      simp [taskOperations] at hmem
  | answer c decision now outcome' =>
    -- an answer to the prompt writes a decision at most
    unfold operations at h
    dsimp only at h
    split at h
    · cases decision <;> simp [answerOperations] at h
    · simp at h
  | receive | lockPrompt | hangUp | reap | elapse | expire | exit | outOfBand =>
    simp [operations] at h

/-- A process is started by a task that takes its grant, when `evaluate` says that the user has
    agreed. -/
theorem launch_event (h : broker.step sha256 event = some broker') {i : Nat} {entry : Entry}
    {command : Command} (hnew : broker.engine.origins.length ≤ i)
    (hi : broker'.engine.origins[i]? = some (entry, command)) :
    (∃ c order outcome id, event = .proceed c order outcome ∧
      broker.tasks c = .activate id entry) ∧
      (broker.engine.consentFor entry).state = .granted := by
  rw [step_engine h] at hi
  by_cases hmem : ∃ e connection clientPid outcome,
      Operation.activate e connection clientPid outcome ∈ broker.operations event
  · obtain ⟨e, c, clientPid, outcome, hmem⟩ := hmem
    obtain ⟨order, id, hevent, htask, hoperations⟩ := mem_operations_activate hmem
    rw [hoperations] at hi
    rcases Engine.perform_cases broker.engine (.activate e c clientPid outcome) with
      hq | ⟨_, _, _, _, heq, hl⟩
    · -- no process was started after all, so there is none at `i`
      have hlength := (List.getElem?_eq_some_iff.mp hi).1
      rw [List.foldl_cons, List.foldl_nil, hq.1] at hlength
      omega
    · -- the process at `i` is the one that the activation added
      obtain ⟨rfl, -, -, -⟩ := Operation.activate.inj heq
      obtain ⟨-, command', -, horigins, -⟩ := hl.origins_eq
      rw [List.foldl_cons, List.foldl_nil, horigins, List.getElem?_append_right hnew] at hi
      have hentry := List.mem_of_getElem? hi
      rw [List.mem_singleton] at hentry
      obtain ⟨rfl, -⟩ := Prod.mk.inj hentry
      exact ⟨⟨c, order, outcome, id, hevent, htask⟩, hl.granted⟩
  · -- an event without an activation leaves the processes as they were
    have hlength := (List.getElem?_eq_some_iff.mp hi).1
    rw [Engine.origins_foldl] at hlength
    · omega
    · intro operation ho e connection clientPid outcome heq
      exact hmem ⟨e, connection, clientPid, outcome, heq ▸ ho⟩

end Broker

/-- **Nothing launches without a current approval.**  Whenever an event of a run starts a process
    from an entry, a task was about to take its grant on it; the consent file at that moment granted
    the entry's launch hash; and the last decision about the server, if the run has one, was a grant
    for that hash — if it has none, the file held the approval from the start. -/
theorem approved_launch {sha256 : List Char → String} {disk : Disk} {now brokerPid nextGrant : Nat}
    {available : Bool} {clientPid : Nat → Option Nat} {events : List Event} {r r' : Recorded}
    {event : Event}
    (h : Recorded.Reached sha256 (.new disk now brokerPid nextGrant available clientPid) events r)
    (hfresh : FreshWrites disk r.operations) (hstep : r.step sha256 event = some r') {i : Nat}
    {entry : Entry} {command : Command} (hnew : r.broker.engine.origins.length ≤ i)
    (hi : r'.broker.engine.origins[i]? = some (entry, command)) :
    (∃ c order outcome id, event = .proceed c order outcome ∧
      r.broker.tasks c = .activate id entry) ∧
    (∃ record, r.broker.engine.disk.records[entry.name]? = some record ∧
      record.state = .granted ∧ record.launchHash = some entry.launchHash) ∧
    match lastDecision (decisions r.operations) entry.name with
    | some d => d.name = entry.name ∧ ∃ launchCommand scope,
        d.action = .grant entry.launchHash launchCommand scope
    | none => ∃ record, disk.records[entry.name]? = some record ∧ record.state = .granted ∧
        record.launchHash = some entry.launchHash := by
  obtain ⟨broker, hbroker, rfl⟩ := Recorded.step_eq_some.mp hstep
  obtain ⟨hevent, hgranted⟩ := Broker.launch_event hbroker hnew hi
  have htracked := Engine.tracked_of_run (Recorded.engine_run h) hfresh
  obtain ⟨record, hrecord, hstate, hhash⟩ := htracked.approved hgranted
  refine ⟨hevent, ⟨record, hrecord, hstate, hhash⟩, ?_⟩
  -- what the file says of a server is what the last decision about it made of it
  rw [htracked.records, getElem?_settle] at hrecord
  cases hlast : lastDecision (decisions r.operations) entry.name with
  | none =>
    rw [hlast] at hrecord
    exact ⟨record, hrecord, hstate, hhash⟩
  | some d =>
    rw [hlast] at hrecord
    obtain ⟨launchHash, launchCommand, scope, haction, hhash'⟩ := d.grant_of_record hrecord hstate
    obtain rfl := Option.some.inj (hhash'.symm.trans hhash)
    exact ⟨name_of_lastDecision hlast, launchCommand, scope, haction⟩

theorem approved_launch_viewer : ∃ entry command,
    viewerStarted.broker.engine.origins[0]? = some (entry, command) ∧
    ∃ record, viewerAllowed.broker.engine.disk.records[entry.name]? = some record ∧
      record.state = .granted ∧ record.launchHash = some entry.launchHash := by
  have hlength : 0 < viewerStarted.broker.engine.origins.length := by decide +kernel
  have hnone : viewerAllowed.broker.engine.origins.length ≤ 0 := by decide +kernel
  have hfresh : FreshWrites ⟨none, none⟩ viewerAllowed.operations := by decide +kernel
  obtain ⟨⟨entry, command⟩, hi⟩ : ∃ origin, viewerStarted.broker.engine.origins[0]? = some origin :=
    ⟨_, List.getElem?_eq_getElem hlength⟩
  exact ⟨entry, command, hi,
    (approved_launch reached_viewerAllowed hfresh step_viewerStarted hnone hi).2.1⟩

end McpLocator.Broker
