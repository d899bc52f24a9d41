import McpLocator.Broker.Answers
import McpLocator.Broker.Departure

namespace McpLocator.Broker

open Std (ExtTreeMap)
open McpLocator.Json McpLocator.Proto

/-!
# Announced grants

* `announced` — the grant that an answer tells its client of.
* `Tells` — what an event writes, and what it does to the grants; `tells_of_step`.
* `Accounts` — every grant in the table was announced to its connection, and no id is announced twice;
  `Accounts.step`.
-/

set_option linter.dupNamespace false

/-- The grant that an answer tells of: its id, and the address of its connection. -/
def announced (r : Response) : Option (String × String) := do
  let result ← r.result
  let grantId ← (result.get "grantId").bind Value.asStr
  let address ← ((result.get "connection").bind (Value.get "address")).bind Value.asStr
  return (grantId, address)

theorem get_ofMembers {members : List (String × Value)} (h : (members.map Prod.fst).Nodup)
    (key : String) : (Serde.ofMembers members).get key = members.lookup key :=
  lookup_sortMembers_self id h key

theorem announced_of_get {id : JsonValue} {result : Value} (h : result.get "grantId" = none) :
    announced (.ok id result) = none := by
  simp [announced, Response.ok, h]

/-- An answer whose members do not name a grant. -/
theorem announced_ofMembers {id : JsonValue} {members : List (String × Value)}
    (h : (members.map Prod.fst).Nodup) (hnone : members.lookup "grantId" = none) :
    announced (.ok id (Serde.ofMembers members)) = none :=
  announced_of_get ((get_ofMembers h "grantId").trans hnone)

@[simp] theorem announced_err (id : JsonValue) (code : Int) (message : String) :
    announced (.err id code message) = none := rfl

@[simp] theorem announced_activated (id : JsonValue) (result : ActivateResult) :
    announced (.ok id result.serialize) = some (result.grantId, result.connection.address) := by
  simp [announced, Response.ok, ActivateResult.serialize, get_ofMembers, Value.asStr, List.lookup_cons]

theorem get_consent (record : ConsentRecord) : record.serialize.get "grantId" = none := by
  have hfields : (record.members.map Prod.fst).Nodup := by simp [ConsentRecord.members]
  rw [ConsentRecord.serialize, Serde.get_ofFields hfields]
  simp [ConsentRecord.members, List.lookup_cons]

/-- A line that is answered at once is told of no grant. -/
theorem announced_of_serve {sha256 : List Char → String} {registry : Registry}
    {line : Except String Request} {response : Response}
    (h : serve sha256 registry line = .inl response) : announced response = none := by
  have of_withEntry : ∀ {request : Request} {f : String → Entry → Task},
      withEntry sha256 registry request f = .inl response → announced response = none := by
    intro request f h
    unfold withEntry at h
    split at h
    · rw [← Sum.inl.inj h]
      rfl
    · split at h
      · rw [← Sum.inl.inj h]
        rfl
      · simp at h
  cases line with
  | error message =>
    rw [← Sum.inl.inj h]
    rfl
  | ok request =>
    change dispatch sha256 registry request = _ at h
    unfold dispatch at h
    dsimp only at h
    split at h
    · rw [← Sum.inl.inj h]
      rfl
    · split at h
      · rw [← Sum.inl.inj h]
        exact announced_ofMembers (by simp) rfl
      · simp at h
      · exact of_withEntry h
      · exact of_withEntry h
      · exact of_withEntry h
      · split at h
        · rw [← Sum.inl.inj h]
          rfl
        · simp at h
      · split at h
        · rw [← Sum.inl.inj h]
          rfl
        · simp at h
      · rw [← Sum.inl.inj h]
        rfl

/-- An event reads from one connection. -/
theorem Event.reads_of_ne {event : Event} {c c' : Nat} (h : event.reads c = true) (hne : c' ≠ c) :
    event.reads c' = false := by
  cases event with
  | receive c'' line registry =>
    obtain rfl := beq_iff_eq.mp h
    exact beq_eq_false_iff_ne.mpr hne.symm
  | hangUp c'' =>
    obtain rfl := beq_iff_eq.mp h
    exact beq_eq_false_iff_ne.mpr hne.symm
  | lockPrompt | answer | proceed | reap | elapse | expire | exit | outOfBand => exact absurd h nofun

/-! ### What an event does to the grants -/

namespace Engine

/-- No grant is new, and the ids that were taken remain taken. -/
structure Keeps (engine engine' : Engine) : Prop where
  grants : ∀ (id : String) (grant : Grant),
    engine'.grants[id]? = some grant → engine.grants[id]? = some grant
  pid : engine'.brokerPid = engine.brokerPid
  next : engine.nextGrant ≤ engine'.nextGrant

theorem Keeps.refl (engine : Engine) : engine.Keeps engine := ⟨fun _ _ => id, rfl, Nat.le_refl _⟩

theorem Keeps.trans {e₁ e₂ e₃ : Engine} (h : e₁.Keeps e₂) (h' : e₂.Keeps e₃) : e₁.Keeps e₃ :=
  ⟨fun id grant hg => h.grants id grant (h'.grants id grant hg), h'.pid.trans h.pid,
    h.next.trans h'.next⟩

/-- Only an activation makes a grant. -/
theorem keeps_perform {engine : Engine} {operation : Operation}
    (h : ∀ entry connection clientPid outcome,
      operation ≠ .activate entry connection clientPid outcome) :
    engine.Keeps (engine.perform operation) := by
  rcases engine.perform_grants operation with ⟨hgrants, hpid, hnext⟩ | ⟨entry, c, pid, outcome, rfl, -⟩
  · obtain ⟨hpid', hnext'⟩ := releaseAll_counter engine (engine.releasedIds operation)
    refine ⟨fun id grant hg => ?_, hpid.trans hpid', by omega⟩
    rw [hgrants, releaseAll_getElem?] at hg
    split at hg
    · exact absurd hg (by simp)
    · exact hg
  · exact absurd rfl (h entry c pid outcome)

theorem keeps_foldl {engine : Engine} {operations : List Operation}
    (h : ∀ entry connection clientPid outcome,
      Operation.activate entry connection clientPid outcome ∉ operations) :
    engine.Keeps (operations.foldl perform engine) := by
  induction operations generalizing engine with
  | nil => exact .refl engine
  | cons operation operations ih =>
    have hfirst : engine.Keeps (engine.perform operation) := by
      refine keeps_perform fun entry c pid outcome heq => ?_
      exact h entry c pid outcome (heq ▸ List.mem_cons_self)
    exact hfirst.trans (ih fun entry c pid outcome hmem =>
      h entry c pid outcome (List.mem_cons_of_mem _ hmem))

/-- An activation that fails makes no grant, and one that succeeds makes the one it tells of. -/
theorem Activated.made {engine engine' : Engine} {entry : Entry} {connection : Nat}
    {clientPid : Option Nat} {result : Except ActivateError ActivateResult}
    (h : Activated engine entry connection clientPid result engine') :
    (∃ e, result = .error e ∧ engine.Keeps engine') ∨ ∃ info kind,
      result = .ok ⟨grantId engine.brokerPid engine.nextGrant, info⟩ ∧
      engine'.grants = engine.grants.insert (grantId engine.brokerPid engine.nextGrant)
        { name := entry.name, connection, clientPid, kind } ∧
      engine'.brokerPid = engine.brokerPid ∧ engine.nextGrant < engine'.nextGrant := by
  have of_same : ∀ {engine' : Engine}, SameGrants engine engine' → engine.Keeps engine' :=
    fun h => ⟨fun id grant hg => h.1 ▸ hg, h.2.1, h.2.2⟩
  cases h with
  | orphaned => exact .inl ⟨_, rfl, .refl engine⟩
  | refused e => exact .inl ⟨e, rfl, of_same (.refl engine)⟩
  | notStarted e _ _ hs => exact .inl ⟨e, rfl, of_same (by cases hs <;> exact ⟨rfl, rfl, Nat.le_succ _⟩)⟩
  | granted kind info started _ _ hs =>
    refine .inr ⟨info, kind, rfl, ?_⟩
    cases hs <;> exact ⟨rfl, rfl, Nat.lt_succ_self _⟩

end Engine

namespace Broker

variable {sha256 : List Char → String} {broker broker' : Broker} {event : Event}

/-- What an event writes, and what it does to the grants. -/
inductive Tells (sha256 : List Char → String) (broker : Broker) (event : Event) (broker' : Broker) :
    Prop where
  /-- Nothing is written. -/
  | nothing (answers : ∀ c, broker'.answers c = broker.answers c)
      (keeps : broker.engine.Keeps broker'.engine)
  /-- An answer that tells of no grant. -/
  | other {c : Nat} {response : Response}
      (answers : broker'.answers = Function.update broker.answers c (broker.answers c ++ [response]))
      (silent : announced response = none) (keeps : broker.engine.Keeps broker'.engine)
      (due : broker.tasks c = .idle ∨ (broker.tasks c).isDue = true)
      (atOnce : broker.tasks c = .idle → ∃ line registry, event = .receive c line registry ∧
        serve sha256 registry line = .inl response)
      (released : ∀ id grantId, broker.tasks c = .release id grantId →
        broker'.engine.grants[grantId]? = none)
      (refused : ∀ id entry, broker.tasks c = .activate id entry → response.error.isSome = true)
  /-- A grant is made and announced. -/
  | grant {c : Nat} {id : JsonValue} {entry : Entry} {info : ConnectionInfo}
      {clientPid : Option Nat} {kind : GrantKind} (task : broker.tasks c = .activate id entry)
      (answers : broker'.answers = Function.update broker.answers c (broker.answers c ++
        [.ok id (ActivateResult.serialize
          ⟨Engine.grantId broker.engine.brokerPid broker.engine.nextGrant, info⟩)]))
      (grants : broker'.engine.grants = broker.engine.grants.insert
        (Engine.grantId broker.engine.brokerPid broker.engine.nextGrant)
        { name := entry.name, connection := c, clientPid, kind })
      (pid : broker'.engine.brokerPid = broker.engine.brokerPid)
      (next : broker.engine.nextGrant < broker'.engine.nextGrant)

theorem answers_respond (broker : Broker) (c : Nat) (response : Response) :
    (broker.respond c response).answers =
      Function.update broker.answers c (broker.answers c ++ [response]) := by
  funext c'
  by_cases hc : c' = c
  · subst hc
    rw [answers_respond_self, Function.update_self]
  · rw [answers_respond_of_ne (Ne.symm hc), Function.update_of_ne hc]

/-- An event that does not activate makes no grant. -/
theorem keeps_of_step (hs : broker.step sha256 event = some broker')
    (h : ∀ entry connection clientPid outcome,
      Operation.activate entry connection clientPid outcome ∉ broker.operations event) :
    broker.engine.Keeps broker'.engine := by
  rw [step_engine hs]
  exact Engine.keeps_foldl h

/-- A task other than an activation does not activate. -/
theorem not_mem_taskOperations {c : Nat} {order : IterationOrder} {outcome : StartOutcome}
    {task : Task} (h : ∀ id entry, task ≠ .activate id entry) (entry : Entry) (connection : Nat)
    (clientPid : Option Nat) (outcome' : StartOutcome) :
    Operation.activate entry connection clientPid outcome' ∉
      broker.taskOperations c order outcome task := by
  cases task with
  | activate id entry => exact absurd rfl (h id entry)
  | list | status | query | consult | reread | release | deactivate | closing | idle | queue | prompt
    | closed => simp [taskOperations]

/-- What a task that is not an activation tells. -/
theorem tells_of_proceed {c : Nat} {order : IterationOrder} {outcome : StartOutcome}
    (hs : broker.step sha256 (.proceed c order outcome) = some broker')
    (hno : ∀ id entry, broker.tasks c ≠ .activate id entry) :
    Tells sha256 broker (.proceed c order outcome) broker' := by
  have hkeeps := keeps_of_step hs fun entry connection clientPid outcome' =>
    not_mem_taskOperations hno entry connection clientPid outcome'
  have of_respond : ∀ {engine : Engine} {response : Response},
      broker' = (broker.withEngine engine).respond c response → announced response = none →
      (broker.tasks c).isDue = true →
      (∀ id grantId, broker.tasks c = .release id grantId → engine.grants[grantId]? = none) →
      Tells sha256 broker (.proceed c order outcome) broker' := by
    rintro engine response rfl hsilent hdue hreleased
    refine .other (answers_respond (broker.withEngine engine) c response) hsilent hkeeps (.inr hdue)
      (fun hidle => ?_) hreleased fun id entry htask => absurd htask (hno id entry)
    rw [hidle] at hdue
    exact absurd hdue nofun
  change broker.proceed c order outcome (broker.tasks c) = some broker' at hs
  cases htask : broker.tasks c with
  | idle | queue | prompt | closed =>
    rw [htask] at hs
    exact absurd hs (by simp [proceed])
  | activate id entry => exact absurd htask (hno id entry)
  | list | status | query =>
    rw [htask] at hs
    refine of_respond (Option.some.inj hs).symm ?_ (by rw [htask]; rfl)
      fun _ _ heq => absurd (htask.symm.trans heq) (by simp)
    first
      | exact announced_ofMembers (by simp) rfl
      | exact announced_of_get (get_consent _)
  | release id gid =>
    rw [htask] at hs
    have hbroker : broker' = (broker.withEngine (broker.engine.release gid).2).respond c
        (if (broker.engine.release gid).1 then .ok id (Serde.ofMembers [("released", .string gid)])
          else .err id invalidParams s!"unknown grant: {gid}") := (Option.some.inj hs).symm
    refine of_respond hbroker ?_ (by rw [htask]; rfl) ?_
    · split
      · exact announced_ofMembers (by simp) rfl
      · rfl
    · intro id' gid' heq
      obtain ⟨-, rfl⟩ := Task.release.inj (htask.symm.trans heq)
      rw [Engine.release_frame]
      exact ExtTreeMap.getElem?_erase_self
  | deactivate id name force =>
    rw [htask] at hs
    refine of_respond (Option.some.inj hs).symm ?_ (by rw [htask]; rfl)
      fun _ _ heq => absurd (htask.symm.trans heq) (by simp)
    split
    · exact announced_ofMembers (by simp) rfl
    · rfl
  | consult | closing =>
    rw [htask] at hs
    obtain rfl := Option.some.inj hs
    exact .nothing (fun _ => rfl) hkeeps
  | reread id entry =>
    rw [htask] at hs
    unfold proceed at hs
    dsimp only at hs
    split at hs
    · obtain rfl := Option.some.inj hs
      exact .nothing (fun _ => rfl) hkeeps
    · obtain rfl := Option.some.inj hs
      exact .nothing (fun _ => rfl) hkeeps

/-- What an activation tells. -/
theorem tells_of_activate {c : Nat} {order : IterationOrder} {outcome : StartOutcome}
    {id : JsonValue} {entry : Entry} (htask : broker.tasks c = .activate id entry)
    (hs : broker.step sha256 (.proceed c order outcome) = some broker') :
    Tells sha256 broker (.proceed c order outcome) broker' := by
  change broker.proceed c order outcome (broker.tasks c) = some broker' at hs
  rw [htask] at hs
  have hactivated := broker.engine.activate_activated entry c (broker.clientPid c) outcome
  unfold proceed at hs
  dsimp only at hs
  generalize broker.engine.activate entry c (broker.clientPid c) outcome = activation at hs hactivated
  obtain ⟨result, engine⟩ := activation
  have hanswers := answers_respond (broker.withEngine engine) c
  rcases hactivated.made with ⟨e, rfl, hkeeps⟩ | ⟨info, kind, rfl, hgrants, hpid, hnext⟩
  · obtain rfl := Option.some.inj hs
    refine .other (hanswers _) ?_ hkeeps (.inr (by rw [htask]; rfl)) (by simp [htask])
      (by simp [htask]) fun _ _ _ => ?_
    · cases e <;> rfl
    · cases e <;> rfl
  · obtain rfl := Option.some.inj hs
    exact .grant htask (hanswers _) hgrants hpid hnext

/-- **What an event tells is what it does to the grants.** -/
theorem tells_of_step (hs : broker.step sha256 event = some broker') : Tells sha256 broker event broker' := by
  have of_nothing : (∀ c, broker'.answers c = broker.answers c) →
      (∀ entry connection clientPid outcome,
        Operation.activate entry connection clientPid outcome ∉ broker.operations event) →
      Tells sha256 broker event broker' :=
    fun hanswers hno => .nothing hanswers (keeps_of_step hs hno)
  cases event with
  | proceed c order outcome =>
    by_cases hactivate : ∃ id entry, broker.tasks c = .activate id entry
    · obtain ⟨id, entry, htask⟩ := hactivate
      exact tells_of_activate htask hs
    · exact tells_of_proceed hs fun id entry htask => hactivate ⟨id, entry, htask⟩
  | receive c line registry =>
    have hkeeps := keeps_of_step hs (by simp [operations])
    cases stepped_of_step hs with
    | refused htask hserve =>
      exact .other (answers_respond broker c _) (announced_of_serve hserve) hkeeps (.inl htask)
        (fun _ => ⟨line, registry, rfl, hserve⟩) (by simp [htask]) (by simp [htask])
    | begun => exact .nothing (fun _ => rfl) hkeeps
    | quiet hquiet => exact absurd hquiet (by simp [Event.isQuiet])
  | answer c decision now outcome =>
    refine of_nothing (fun c => ?_) fun entry connection clientPid outcome' hmem => ?_
    · cases stepped_of_step hs <;> rfl
    · unfold operations at hmem
      dsimp only at hmem
      split at hmem
      · cases decision <;> simp [answerOperations] at hmem
      · simp at hmem
  | lockPrompt | hangUp | reap | elapse | expire | exit | outOfBand =>
    refine of_nothing (fun c => ?_) (by simp [operations])
    cases stepped_of_step hs <;> rfl

/-- The id is one that the counter has given. -/
def Taken (broker : Broker) (id : String) : Prop :=
  ∃ n < broker.engine.nextGrant, id = Engine.grantId broker.engine.brokerPid n

theorem Taken.keeps {id : String} (h : broker.Taken id)
    (hkeeps : broker.engine.Keeps broker'.engine) : broker'.Taken id := by
  obtain ⟨n, hn, rfl⟩ := h
  exact ⟨n, hn.trans_le hkeeps.next, by rw [hkeeps.pid]⟩

theorem Taken.step {id : String} (h : broker.Taken id)
    (hs : broker.step sha256 event = some broker') : broker'.Taken id := by
  cases tells_of_step hs with
  | nothing _ hkeeps | other _ _ hkeeps => exact h.keeps hkeeps
  | grant _ _ _ hpid hnext =>
    obtain ⟨n, hn, rfl⟩ := h
    exact ⟨n, hn.trans hnext, by rw [hpid]⟩

/-- The id was given to a grant that is not there any more. -/
def Gone (broker : Broker) (id : String) : Prop :=
  broker.engine.grants[id]? = none ∧ broker.Taken id

/-- **What is gone does not come back.** -/
theorem Gone.step {id : String} (h : broker.Gone id) (hs : broker.step sha256 event = some broker') :
    broker'.Gone id := by
  refine ⟨?_, h.2.step hs⟩
  obtain ⟨hgone, n, hn, rfl⟩ := h
  have of_keeps : broker.engine.Keeps broker'.engine →
      broker'.engine.grants[Engine.grantId broker.engine.brokerPid n]? = none := by
    intro hkeeps
    refine Option.eq_none_iff_forall_not_mem.mpr fun grant hg => ?_
    exact absurd (hgone.symm.trans (hkeeps.grants _ grant hg)) nofun
  cases tells_of_step hs with
  | nothing _ hkeeps | other _ _ hkeeps => exact of_keeps hkeeps
  | grant htask hanswers hgrants =>
    rw [hgrants, ExtTreeMap.getElem?_insert, if_neg, hgone]
    intro heq
    have := Engine.grantId_injective _ (Std.compare_eq_iff_eq.mp heq)
    omega

/-- One answer at a time. -/
theorem length_answers_step (hs : broker.step sha256 event = some broker') (c : Nat) :
    (broker'.answers c).length ≤ (broker.answers c).length + 1 := by
  have of_update : ∀ {c' : Nat} {response : Response},
      broker'.answers = Function.update broker.answers c' (broker.answers c' ++ [response]) →
      (broker'.answers c).length ≤ (broker.answers c).length + 1 := by
    intro c' response hanswers
    by_cases hc : c = c'
    · subst hc
      simp [hanswers]
    · simp [hanswers, hc]
  cases tells_of_step hs with
  | nothing hanswers => simp [hanswers c]
  | other hanswers => exact of_update hanswers
  | grant _ hanswers => exact of_update hanswers

/-! ### The grants in the table -/

/-- The answer at `i` of a connection announces the grant `id`. -/
def Announces (broker : Broker) (c i : Nat) (id : String) : Prop :=
  ∃ request connection,
    (broker.answers c)[i]? = some (.ok request (ActivateResult.serialize ⟨id, connection⟩))

/-- The answers account for the grants. -/
structure Accounts (broker : Broker) : Prop where
  /-- Announced ids are ids of the counter. -/
  taken : ∀ c i id, broker.Announces c i id → broker.Taken id
  /-- No id is announced twice. -/
  once : ∀ c i c' i' id, broker.Announces c i id → broker.Announces c' i' id → c = c' ∧ i = i'
  /-- What is in the table was announced to its connection. -/
  table : ∀ (id : String) (grant : Grant), broker.engine.grants[id]? = some grant →
    ∃ i, broker.Announces grant.connection i id

theorem Accounts.start (disk : Disk) (now brokerPid nextGrant : Nat) (available : Bool)
    (clientPid : Nat → Option Nat) :
    (Broker.new disk now brokerPid nextGrant available clientPid).Accounts := by
  have hnone : ∀ c i id,
      ¬(Broker.new disk now brokerPid nextGrant available clientPid).Announces c i id := by
    rintro c i id ⟨request, connection, hr⟩
    simp [answers, Broker.new] at hr
  refine ⟨fun c i id h => absurd h (hnone c i id), fun c i c' i' id h => absurd h (hnone c i id),
    fun id grant h => ?_⟩
  simp [Broker.new, Engine.new] at h

/-- An answer among the old ones and a new one. -/
theorem getElem?_update {answers : Nat → List Response} {c c' i : Nat} {response r : Response} :
    (Function.update answers c (answers c ++ [response]) c')[i]? = some r ↔
      (answers c')[i]? = some r ∨ (c' = c ∧ i = (answers c).length ∧ r = response) := by
  by_cases hc : c' = c
  · subst hc
    rw [Function.update_self, List.getElem?_append, List.getElem?_singleton]
    split
    · exact ⟨.inl, fun h => h.elim id fun ⟨_, hi, _⟩ => by omega⟩
    · rename_i hge
      rw [List.getElem?_eq_none (by omega)]
      split
      · exact ⟨fun h => .inr ⟨rfl, by omega, (Option.some.inj h).symm⟩, by
          rintro (h | ⟨-, -, rfl⟩)
          · exact absurd h nofun
          · rfl⟩
      · exact ⟨nofun, by
          rintro (h | ⟨-, hi, -⟩)
          · exact absurd h nofun
          · omega⟩
  · rw [Function.update_of_ne hc]
    exact ⟨.inl, fun h => h.elim id fun ⟨heq, _⟩ => absurd heq hc⟩

/-- What has been answered stays answered. -/
theorem getElem?_answers_step (hs : broker.step sha256 event = some broker') {c i : Nat}
    {r : Response} (h : (broker.answers c)[i]? = some r) : (broker'.answers c)[i]? = some r := by
  cases tells_of_step hs with
  | nothing hanswers => rw [hanswers c, h]
  | other hanswers | grant _ hanswers =>
    rw [hanswers]
    exact getElem?_update.mpr (.inl h)

/-- What is announced once an answer has been written. -/
theorem announces_update {c : Nat} {response : Response}
    (h : broker'.answers = Function.update broker.answers c (broker.answers c ++ [response]))
    {c' i : Nat} {id : String} : broker'.Announces c' i id ↔ broker.Announces c' i id ∨
      (c' = c ∧ i = (broker.answers c).length ∧ ∃ request connection,
        response = .ok request (ActivateResult.serialize ⟨id, connection⟩)) := by
  unfold Announces
  rw [h]
  constructor
  · rintro ⟨request, connection, hr⟩
    rcases getElem?_update.mp hr with hr | ⟨hc, hi, heq⟩
    · exact .inl ⟨request, connection, hr⟩
    · exact .inr ⟨hc, hi, request, connection, heq.symm⟩
  · rintro (⟨request, connection, hr⟩ | ⟨hc, hi, request, connection, heq⟩)
    · exact ⟨request, connection, getElem?_update.mpr (.inl hr)⟩
    · exact ⟨request, connection, getElem?_update.mpr (.inr ⟨hc, hi, heq.symm⟩)⟩

/-- An answer that tells of no grant announces none. -/
theorem announces_of_silent {c : Nat} {response : Response}
    (h : broker'.answers = Function.update broker.answers c (broker.answers c ++ [response]))
    (hsilent : announced response = none) {c' i : Nat} {id : String} :
    broker'.Announces c' i id ↔ broker.Announces c' i id := by
  rw [announces_update h]
  refine ⟨fun h => h.elim (·) fun ⟨_, _, request, connection, heq⟩ => ?_, .inl⟩
  rw [heq, announced_activated] at hsilent
  exact absurd hsilent nofun

/-- An answer that tells of a grant announces it. -/
theorem announces_of_activated {c : Nat} {request : JsonValue} {result : ActivateResult}
    (h : broker'.answers = Function.update broker.answers c
      (broker.answers c ++ [.ok request result.serialize])) {c' i : Nat} {id : String} :
    broker'.Announces c' i id ↔ broker.Announces c' i id ∨
      (c' = c ∧ i = (broker.answers c).length ∧ id = result.grantId) := by
  rw [announces_update h]
  refine or_congr_right (and_congr_right fun _ => and_congr_right fun _ => ⟨?_, ?_⟩)
  · rintro ⟨request', connection, heq⟩
    have hsame := congrArg announced heq
    rw [announced_activated, announced_activated] at hsame
    exact (Prod.mk.inj (Option.some.inj hsame)).1.symm
  · rintro rfl
    exact ⟨request, result.connection, rfl⟩

/-- What is not new is accounted for. -/
theorem Accounts.of_keeps (h : broker.Accounts) (hkeeps : broker.engine.Keeps broker'.engine)
    (hsame : ∀ c i id, broker'.Announces c i id ↔ broker.Announces c i id) : broker'.Accounts where
  taken c i id ha := (h.taken c i id ((hsame c i id).mp ha)).keeps hkeeps
  once c i c' i' id ha ha' := h.once c i c' i' id ((hsame c i id).mp ha) ((hsame c' i' id).mp ha')
  table id grant hgrant := by
    obtain ⟨i, ha⟩ := h.table id grant (hkeeps.grants id grant hgrant)
    exact ⟨i, (hsame _ i id).mpr ha⟩

/-- The next id has not been announced. -/
theorem Accounts.fresh (h : broker.Accounts) {c i : Nat} :
    ¬broker.Announces c i (Engine.grantId broker.engine.brokerPid broker.engine.nextGrant) := by
  intro ha
  obtain ⟨n, hn, hid⟩ := h.taken c i _ ha
  have := Engine.grantId_injective _ hid
  omega

/-- **Every event keeps the accounts.** -/
theorem Accounts.step (h : broker.Accounts) (hs : broker.step sha256 event = some broker') :
    broker'.Accounts := by
  cases tells_of_step hs with
  | nothing hanswers hkeeps =>
    refine h.of_keeps hkeeps fun c i id => ?_
    unfold Announces
    rw [hanswers c]
  | other hanswers hsilent hkeeps =>
    exact h.of_keeps hkeeps fun c i id => announces_of_silent hanswers hsilent
  | @grant c rid entry info clientPid kind htask hanswers hgrants hpid hnext =>
    have hsame : ∀ c' i id, broker'.Announces c' i id ↔ broker.Announces c' i id ∨
        (c' = c ∧ i = (broker.answers c).length ∧
          id = Engine.grantId broker.engine.brokerPid broker.engine.nextGrant) :=
      fun c' i id => announces_of_activated hanswers
    refine ⟨fun c' i id ha => ?_, fun c' i c'' i' id ha ha' => ?_, fun id grant hgrant => ?_⟩
    · rcases (hsame c' i id).mp ha with ha | ⟨-, -, rfl⟩
      · exact (h.taken c' i id ha).step hs
      · exact ⟨_, hnext, by rw [hpid]⟩
    · rcases (hsame c' i id).mp ha with ha | ⟨rfl, rfl, rfl⟩
      · rcases (hsame c'' i' id).mp ha' with ha' | ⟨-, -, rfl⟩
        · exact h.once c' i c'' i' id ha ha'
        · exact absurd ha h.fresh
      · rcases (hsame c'' i' _).mp ha' with ha' | ⟨rfl, rfl, -⟩
        · exact absurd ha' h.fresh
        · exact ⟨rfl, rfl⟩
    · rw [hgrants, ExtTreeMap.getElem?_insert] at hgrant
      split at hgrant
      · rename_i hid
        obtain rfl := Std.compare_eq_iff_eq.mp hid
        obtain rfl := Option.some.inj hgrant
        exact ⟨_, (hsame c _ _).mpr (.inr ⟨rfl, rfl, rfl⟩)⟩
      · obtain ⟨i, ha⟩ := h.table id grant hgrant
        exact ⟨i, (hsame _ i id).mpr (.inl ha)⟩

end Broker

end McpLocator.Broker
