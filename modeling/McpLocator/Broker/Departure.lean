import McpLocator.Broker.Crashes
import McpLocator.Broker.Isolation

namespace McpLocator.Broker

open Std (ExtTreeMap)
open McpLocator.Json McpLocator.Proto

/-!
# A gone client holds nothing

* `Retirement`, `retired` — the calls to `retire` in a run, each with the engine that it is made in.
* `Accounted` — a grant that was ever issued is in the table and has not been retired, or it is gone
  and has been retired once; every operation keeps it (`Accounted.perform`).
* `Departed` — a connection that has ended has no grants in the table.
* `departed_connection` — what a connection held when it ended was retired exactly once.
-/

set_option linter.dupNamespace false

/-- A call to `retire`: the engine that the grant is taken from, and the grant. -/
structure Retirement where
  engine : Engine
  id : String
  grant : Grant

namespace Engine

variable {engine : Engine} {operation : Operation} {id : String} {grant : Grant}

/-! ### Which grants an operation retires -/

/-- The ids that an operation releases, in order. -/
def releasedIds (engine : Engine) : Operation → List String
  | .release id => [id]
  | .releaseConnection order connection =>
    order.1 (engine.grantsWhere fun g => g.connection == connection)
  | .deactivate order name force =>
    let ids := order.1 (engine.grantsWhere fun g => g.name == name)
    let holders := ids.filterMap fun id => engine.grants[id]?.map holderText
    if holders ≠ [] ∧ force = false then [] else ids
  | _ => []

/-- The calls to `retire` when grants are released one after the other. -/
def retirements (engine : Engine) : List String → List Retirement
  | [] => []
  | id :: ids =>
    (engine.grants[id]?.map (Retirement.mk engine id)).toList ++ (engine.release id).2.retirements ids

/-- The calls to `retire` in a run. -/
def retired (engine : Engine) : List Operation → List Retirement
  | [] => []
  | operation :: operations =>
    engine.retirements (engine.releasedIds operation) ++ (engine.perform operation).retired operations

theorem retired_append (engine : Engine) (operations more : List Operation) :
    engine.retired (operations ++ more) =
      engine.retired operations ++ (operations.foldl perform engine).retired more := by
  induction operations generalizing engine with
  | nil => rfl
  | cons operation operations ih =>
    show _ ++ (engine.perform operation).retired (operations ++ more) = _
    rw [ih, ← List.append_assoc]
    rfl

theorem retired_snoc (engine : Engine) (operations : List Operation) (operation : Operation) :
    engine.retired (operations ++ [operation]) = engine.retired operations ++
      (operations.foldl perform engine).retirements
        ((operations.foldl perform engine).releasedIds operation) := by
  rw [retired_append]
  exact congrArg _ (List.append_nil _)

/-! ### What an operation does to the table of grants -/

/-- The table of grants is the same, and the ids that were taken remain taken. -/
def SameGrants (engine engine' : Engine) : Prop :=
  engine'.grants = engine.grants ∧ engine'.brokerPid = engine.brokerPid ∧
    engine.nextGrant ≤ engine'.nextGrant

/-- A grant of the connection is added under the next id. -/
def Issues (engine : Engine) (connection : Nat) (engine' : Engine) : Prop :=
  ∃ grant, grant.connection = connection ∧ engine'.brokerPid = engine.brokerPid ∧
    engine.nextGrant < engine'.nextGrant ∧
    engine'.grants = engine.grants.insert (grantId engine.brokerPid engine.nextGrant) grant

theorem SameGrants.refl (engine : Engine) : SameGrants engine engine := ⟨rfl, rfl, Nat.le_refl _⟩

theorem SameGrants.trans {e₁ e₂ e₃ : Engine} (h : SameGrants e₁ e₂) (h' : SameGrants e₂ e₃) :
    SameGrants e₁ e₃ :=
  ⟨h'.1.trans h.1, h'.2.1.trans h.2.1, h.2.2.trans h'.2.2⟩

theorem sameGrants_stopShared (engine : Engine) (name : String) (server : SharedServer) :
    SameGrants engine (engine.stopShared name server) := by
  unfold stopShared
  cases server.child <;> exact .refl _

theorem sameGrants_reapIdle (engine : Engine) (order : IterationOrder) :
    SameGrants engine (engine.reapIdle order) := by
  unfold reapIdle
  generalize order.1 engine.expired = names
  induction names generalizing engine with
  | nil => exact .refl engine
  | cons name names ih =>
    have hreap : SameGrants engine (engine.reap name) := by
      unfold reap
      split
      · exact .refl engine
      · exact sameGrants_stopShared engine name _
    exact hreap.trans (ih (engine.reap name))

theorem sameGrants_deactivate (engine : Engine) (order : IterationOrder) (name : String)
    (force : Bool) : SameGrants (engine.releaseAll (engine.releasedIds (.deactivate order name force)))
      (engine.deactivate order name force).2 := by
  unfold releasedIds deactivate
  dsimp only
  split
  · exact .refl _
  · split
    · exact .refl _
    · exact sameGrants_stopShared _ name _

theorem Activated.grants_cases {entry : Entry} {connection : Nat} {clientPid : Option Nat}
    {result : Except ActivateError ActivateResult} {engine' : Engine}
    (h : Activated engine entry connection clientPid result engine') :
    SameGrants engine engine' ∨ Issues engine connection engine' := by
  cases h with
  | orphaned | refused => exact .inl (.refl _)
  | notStarted _ _ _ hs => cases hs <;> exact .inl ⟨rfl, rfl, Nat.le_succ _⟩
  | granted kind info started _ _ hs =>
    cases hs <;> exact .inr ⟨_, rfl, rfl, Nat.lt_succ_self _, rfl⟩

/-- **An operation releases grants, or it is an activation that adds one.** -/
theorem perform_grants (engine : Engine) (operation : Operation) :
    SameGrants (engine.releaseAll (engine.releasedIds operation)) (engine.perform operation) ∨
      ∃ entry connection clientPid outcome,
        operation = .activate entry connection clientPid outcome ∧
        Issues engine connection (engine.perform operation) := by
  cases operation with
  | activate entry connection clientPid outcome =>
    rcases (activate_activated engine entry connection clientPid outcome).grants_cases with
      hsame | hissues
    · exact .inl hsame
    · exact .inr ⟨entry, connection, clientPid, outcome, rfl, hissues⟩
  | release id => exact .inl (.refl _)
  | releaseConnection order connection => exact .inl (.refl _)
  | deactivate order name force => exact .inl (sameGrants_deactivate engine order name force)
  | reapIdle order => exact .inl (sameGrants_reapIdle engine order)
  | expire name =>
    left
    show SameGrants engine (engine.expire name)
    unfold expire
    split <;> exact .refl engine
  | evaluate | decide | elapse | exit | outOfBand => exact .inl (.refl engine)

/-! ### Every grant is accounted for -/

/-- The grant was in the table at some moment of the run. -/
def Held (init : Engine) (operations : List Operation) (id : String) (grant : Grant) : Prop :=
  ∃ before, before <+: operations ∧ (before.foldl perform init).grants[id]? = some grant

theorem held_snoc {init : Engine} {operations : List Operation} :
    Held init (operations ++ [operation]) id grant ↔ Held init operations id grant ∨
      ((operations.foldl perform init).perform operation).grants[id]? = some grant := by
  unfold Held
  simp only [List.prefix_concat_iff, or_and_right, exists_or, exists_eq_left, List.foldl_append,
    List.foldl_cons, List.foldl_nil]
  exact or_comm

/-- The grant is in the table and has not been retired, or it is gone and has been retired once. -/
def Settled (retirements : List Retirement) (engine : Engine) (id : String) (grant : Grant) : Prop :=
  (engine.grants[id]? = some grant ∧ retirements.filter (·.id == id) = []) ∨
    (engine.grants[id]? = none ∧
      ∃ before, retirements.filter (·.id == id) = [⟨before, id, grant⟩])

/-- Releasing grants settles the ones it retires. -/
theorem Settled.releaseAll {retirements : List Retirement} (h : Settled retirements engine id grant)
    (ids : List String) :
    Settled (retirements ++ engine.retirements ids) (engine.releaseAll ids) id grant := by
  induction ids generalizing engine retirements with
  | nil =>
    show Settled (retirements ++ []) engine id grant
    rw [List.append_nil]
    exact h
  | cons key ids ih =>
    show Settled (retirements ++ (_ ++ _)) ((engine.release key).2.releaseAll ids) id grant
    rw [← List.append_assoc]
    refine ih ?_
    unfold Settled
    rw [List.filter_append, release_frame]
    dsimp only
    rw [ExtTreeMap.getElem?_erase]
    by_cases hkey : key = id
    · subst hkey
      rw [if_pos Std.compare_self]
      rcases h with ⟨hheld, hnone⟩ | ⟨hgone, before, honce⟩
      · -- this is its retirement
        right
        refine ⟨rfl, engine, ?_⟩
        rw [hnone, hheld]
        simp
      · right
        refine ⟨rfl, before, ?_⟩
        rw [honce, hgone]
        rfl
    · rw [if_neg (by simpa using hkey)]
      have hother : ((engine.grants[key]?.map (Retirement.mk engine key)).toList.filter
          (·.id == id)) = [] := by
        cases engine.grants[key]? with
        | none => rfl
        | some g => simp [hkey]
      rw [hother, List.append_nil]
      exact h

/-- Releases take no ids. -/
theorem releaseAll_counter (engine : Engine) (ids : List String) :
    (engine.releaseAll ids).brokerPid = engine.brokerPid ∧
      (engine.releaseAll ids).nextGrant = engine.nextGrant := by
  refine releaseAll_induction (P := fun e => e.brokerPid = engine.brokerPid ∧
    e.nextGrant = engine.nextGrant) ⟨rfl, rfl⟩ (fun e id he => ?_) ids
  rw [release_frame]
  exact he

/-- A retirement among releases: the books were in order, and the grant was there all along. -/
theorem mem_retirements {ids : List String} {t : Retirement} (hbooks : engine.Bookkeeping)
    (howned : engine.Owned) (ht : t ∈ engine.retirements ids) :
    t.engine.Bookkeeping ∧ t.engine.Owned ∧ t.engine.grants[t.id]? = some t.grant ∧
      engine.grants[t.id]? = some t.grant := by
  induction ids generalizing engine with
  | nil => exact absurd ht List.not_mem_nil
  | cons key ids ih =>
    rcases List.mem_append.mp ht with ht | ht
    · obtain ⟨grant, hgrant, rfl⟩ := Option.map_eq_some_iff.mp (Option.mem_toList.mp ht)
      exact ⟨hbooks, howned, hgrant, hgrant⟩
    · obtain ⟨hb, ho, hthere, hafter⟩ :=
        ih (hbooks.release key) (howned.quiet (quiet_release engine key)) ht
      refine ⟨hb, ho, hthere, ?_⟩
      rw [release_frame, ExtTreeMap.getElem?_erase] at hafter
      split at hafter
      · simp at hafter
      · exact hafter

/-- Every grant that was ever in the table is settled and has an id of the counter, and what was
    retired was in the table of an engine whose books were in order. -/
structure Accounted (init : Engine) (operations : List Operation) : Prop where
  settled : ∀ id grant, Held init operations id grant →
    Settled (init.retired operations) (operations.foldl perform init) id grant
  taken : ∀ id grant, Held init operations id grant →
    ∃ n < (operations.foldl perform init).nextGrant,
      id = grantId (operations.foldl perform init).brokerPid n
  sound : ∀ t ∈ init.retired operations, t.engine.Bookkeeping ∧ t.engine.Owned ∧
    t.engine.grants[t.id]? = some t.grant ∧ Held init operations t.id t.grant

theorem accounted_new (disk : Disk) (now brokerPid nextGrant : Nat) :
    Accounted (Engine.new disk now brokerPid nextGrant) [] := by
  have hnone : ∀ id grant, ¬Held (Engine.new disk now brokerPid nextGrant) [] id grant := by
    rintro id grant ⟨before, hbefore, hgrant⟩
    rw [List.prefix_nil.mp hbefore] at hgrant
    simp [Engine.new] at hgrant
  exact ⟨fun id grant h => absurd h (hnone id grant), fun id grant h => absurd h (hnone id grant),
    fun t ht => absurd ht List.not_mem_nil⟩

theorem Held.append {init : Engine} {operations : List Operation} (h : Held init operations id grant)
    (more : List Operation) : Held init (operations ++ more) id grant := by
  obtain ⟨before, hbefore, hgrant⟩ := h
  exact ⟨before, hbefore.trans (List.prefix_append _ _), hgrant⟩

variable {init : Engine} {operations : List Operation}

theorem held_of_getElem? (h : (operations.foldl perform init).grants[id]? = some grant) :
    Held init operations id grant := ⟨operations, List.prefix_rfl, h⟩

/-- An operation that only releases. -/
theorem Accounted.of_released (h : Accounted init operations)
    (hbooks : (operations.foldl perform init).Bookkeeping)
    (howned : (operations.foldl perform init).Owned)
    (hsame : SameGrants ((operations.foldl perform init).releaseAll
      ((operations.foldl perform init).releasedIds operation))
      ((operations.foldl perform init).perform operation)) :
    Accounted init (operations ++ [operation]) := by
  have hfold : (operations ++ [operation]).foldl perform init =
      (operations.foldl perform init).perform operation := List.foldl_append
  obtain ⟨hgrants, hpid, hnext⟩ := hsame
  obtain ⟨hpid', hnext'⟩ := releaseAll_counter (operations.foldl perform init)
    ((operations.foldl perform init).releasedIds operation)
  -- no grant is new
  have hheld : ∀ id grant, Held init (operations ++ [operation]) id grant →
      Held init operations id grant := by
    intro id grant hheld
    rcases held_snoc.mp hheld with hbefore | hafter
    · exact hbefore
    · rw [hgrants, releaseAll_getElem?] at hafter
      split at hafter
      · simp at hafter
      · exact held_of_getElem? hafter
  refine ⟨fun id grant hg => ?_, fun id grant hg => ?_, fun t ht => ?_⟩
  · rw [retired_snoc, hfold]
    have hsettled := (h.settled id grant (hheld id grant hg)).releaseAll
      ((operations.foldl perform init).releasedIds operation)
    unfold Settled at hsettled ⊢
    rw [hgrants]
    exact hsettled
  · obtain ⟨n, hn, hid⟩ := h.taken id grant (hheld id grant hg)
    rw [hfold]
    exact ⟨n, by omega, by rw [hpid, hpid']; exact hid⟩
  · rw [retired_snoc] at ht
    rcases List.mem_append.mp ht with ht | ht
    · obtain ⟨hb, ho, hthere, hheld⟩ := h.sound t ht
      exact ⟨hb, ho, hthere, hheld.append _⟩
    · obtain ⟨hb, ho, hthere, hheld⟩ := mem_retirements hbooks howned ht
      exact ⟨hb, ho, hthere, (held_of_getElem? hheld).append _⟩

/-- An activation that adds a grant. -/
theorem Accounted.of_issued (h : Accounted init operations) {entry : Entry} {connection : Nat}
    {clientPid : Option Nat} {outcome : StartOutcome}
    (hissues : Issues (operations.foldl perform init) connection
      ((operations.foldl perform init).perform (.activate entry connection clientPid outcome))) :
    Accounted init (operations ++ [.activate entry connection clientPid outcome]) := by
  have hfold : (operations ++ [Operation.activate entry connection clientPid outcome]).foldl
      perform init =
      (operations.foldl perform init).perform (.activate entry connection clientPid outcome) :=
    List.foldl_append
  have hretired : init.retired (operations ++ [.activate entry connection clientPid outcome]) =
      init.retired operations := by
    rw [retired_snoc]
    exact List.append_nil _
  obtain ⟨new, -, hpid, hnext, hgrants⟩ := hissues
  -- the id was not in use before, and it has not been retired
  have hfresh : ∀ id grant, Held init operations id grant →
      id ≠ grantId (operations.foldl perform init).brokerPid
        (operations.foldl perform init).nextGrant := by
    rintro id grant hheld rfl
    obtain ⟨n, hn, hid⟩ := h.taken _ grant hheld
    have := grantId_injective _ hid
    omega
  have hcases : ∀ id grant,
      Held init (operations ++ [.activate entry connection clientPid outcome]) id grant →
      Held init operations id grant ∨ grant = new ∧
        id = grantId (operations.foldl perform init).brokerPid
          (operations.foldl perform init).nextGrant := by
    intro id grant hheld
    rcases held_snoc.mp hheld with hbefore | hafter
    · exact .inl hbefore
    · rw [hgrants, ExtTreeMap.getElem?_insert] at hafter
      split at hafter
      · rename_i hid
        exact .inr ⟨(Option.some.inj hafter).symm, (Std.compare_eq_iff_eq.mp hid).symm⟩
      · exact .inl (held_of_getElem? hafter)
  refine ⟨fun id grant hg => ?_, fun id grant hg => ?_, fun t ht => ?_⟩
  · rw [hretired, hfold]
    unfold Settled
    rw [hgrants, ExtTreeMap.getElem?_insert]
    rcases hcases id grant hg with hbefore | ⟨rfl, rfl⟩
    · rw [if_neg (by simpa using (hfresh id grant hbefore).symm)]
      exact h.settled id grant hbefore
    · rw [if_pos Std.compare_self]
      refine .inl ⟨rfl, List.filter_eq_nil_iff.mpr fun t ht hid => ?_⟩
      exact hfresh t.id t.grant (h.sound t ht).2.2.2 (by simpa using hid)
  · rw [hfold, hpid]
    rcases hcases id grant hg with hbefore | ⟨-, hid⟩
    · obtain ⟨n, hn, hid⟩ := h.taken id grant hbefore
      exact ⟨n, by omega, hid⟩
    · exact ⟨_, hnext, hid⟩
  · rw [hretired] at ht
    obtain ⟨hb, ho, hthere, hheld⟩ := h.sound t ht
    exact ⟨hb, ho, hthere, hheld.append _⟩

/-- **In every run of the engine every grant is accounted for.** -/
theorem accounted_of_run {disk : Disk} {now brokerPid nextGrant : Nat}
    (h : Transition.Run Step (Engine.new disk now brokerPid nextGrant) operations engine) :
    Accounted (Engine.new disk now brokerPid nextGrant) operations ∧ engine.Owned := by
  induction h with
  | start => exact ⟨accounted_new disk now brokerPid nextGrant, owned_new disk now brokerPid nextGrant⟩
  | @snoc operations e e' operation run hs ih =>
    obtain ⟨haccounted, howned⟩ := ih
    obtain rfl := hs
    refine ⟨?_, howned.perform operation⟩
    have hbooks := bookkeeping_of_run run
    rw [eq_foldl_of_run run] at hbooks howned
    rcases perform_grants (operations.foldl perform (Engine.new disk now brokerPid nextGrant))
        operation with hsame | ⟨entry, connection, clientPid, outcome, rfl, hissues⟩
    · exact haccounted.of_released hbooks howned hsame
    · exact haccounted.of_issued hissues

end Engine

/-! ### What a retirement does -/

/-- The child of the grant is stopped, or its share of the server is given back. -/
def Retirement.Effective (t : Retirement) : Prop :=
  match t.grant.kind with
  | .stdio child => child.process < t.engine.processes.length ∧
      (t.engine.release t.id).2.alive child = false
  | .endpoint => ((t.engine.release t.id).2.server t.grant.name).refcount + 1 =
      (t.engine.server t.grant.name).refcount

theorem Retirement.effective {t : Retirement} (hbooks : t.engine.Bookkeeping)
    (howned : t.engine.Owned) (hgrant : t.engine.grants[t.id]? = some t.grant) : t.Effective := by
  unfold Effective
  rw [Engine.release_of_some hgrant]
  cases hkind : t.grant.kind with
  | stdio child =>
    have hchild : t.engine.childOf (.grant t.id) = some child := by
      rw [Engine.childOf, hgrant, Option.bind_some, hkind]
      rfl
    refine ⟨by simpa [Engine.origins] using howned.started _ child hchild, ?_⟩
    unfold Engine.retire
    rw [hkind]
    simp only [Engine.alive, Engine.shutdown, List.getElem?_modify_eq]
    cases t.engine.processes[child.process]? <;> rfl
  | endpoint =>
    have hpos := hbooks.refcount_pos hgrant hkind
    have hretire : (Engine.retire { t.engine with grants := t.engine.grants.erase t.id }
        t.grant).server t.grant.name = (t.engine.server t.grant.name).released t.engine.now :=
      Engine.retire_server_self hkind hpos
    dsimp only
    rw [hretire]
    show (t.engine.server t.grant.name).refcount - 1 + 1 = _
    exact Nat.sub_add_cancel hpos

namespace Broker

variable {sha256 : List Char → String} {broker broker' : Broker} {event : Event}

/-! ### Connections that have ended -/

/-- A closed connection stays closed. -/
theorem closed_of_step (hs : broker.step sha256 event = some broker') {c : Nat}
    (hclosed : broker.tasks c = .closed) : broker'.tasks c = .closed := by
  rcases tasks_of_step hs with htasks | ⟨c', next, hgoes, htasks⟩
  · rw [htasks, hclosed]
  · have hne : c ≠ c' := by
      rintro rfl
      exact hgoes.served hclosed
    rw [htasks, tasks_setTask_of_ne hne, hclosed]

/-- A connection that has ended has no grants in the table. -/
def Departed (broker : Broker) : Prop :=
  ∀ c, broker.tasks c = .closed →
    ∀ (id : String) (grant : Grant), broker.engine.grants[id]? = some grant → grant.connection ≠ c

/-- Where a grant in the table comes from. -/
theorem grants_of_foldl {engine : Engine} {operations : List Operation} {id : String} {grant : Grant}
    (h : (operations.foldl Engine.perform engine).grants[id]? = some grant) :
    engine.grants[id]? = some grant ∨ ∃ entry clientPid outcome,
      .activate entry grant.connection clientPid outcome ∈ operations := by
  induction operations generalizing engine with
  | nil => exact .inl h
  | cons operation operations ih =>
    rcases ih h with hgrant | ⟨entry, clientPid, outcome, hmem⟩
    · rcases engine.perform_grants operation with
        hsame | ⟨entry, connection, clientPid, outcome, rfl, new, rfl, -, -, hgrants⟩
      · rw [hsame.1, Engine.releaseAll_getElem?] at hgrant
        split at hgrant
        · simp at hgrant
        · exact .inl hgrant
      · rw [hgrants, ExtTreeMap.getElem?_insert] at hgrant
        split at hgrant
        · obtain rfl := Option.some.inj hgrant
          exact .inr ⟨entry, clientPid, outcome, List.mem_cons_self⟩
        · exact .inl hgrant
    · exact .inr ⟨entry, clientPid, outcome, List.mem_cons_of_mem _ hmem⟩

/-- An event that activates does so for a connection that is there. -/
theorem tasks_of_activate {entry : Entry} {connection : Nat} {clientPid : Option Nat}
    {outcome : StartOutcome}
    (h : .activate entry connection clientPid outcome ∈ broker.operations event) :
    ∃ order outcome' id, event = .proceed connection order outcome' ∧
      broker.tasks connection = .activate id entry := by
  cases event with
  | proceed c order outcome' =>
    have hmem : Operation.activate entry connection clientPid outcome ∈
      broker.taskOperations c order outcome' (broker.tasks c) := h
    cases htask : broker.tasks c with
    | activate id entry' =>
      rw [htask] at hmem
      obtain ⟨rfl, rfl, -⟩ := Operation.activate.inj (List.mem_singleton.mp hmem)
      exact ⟨order, outcome', id, rfl, htask⟩
    | _ =>
      rw [htask] at hmem
      simp [taskOperations] at hmem
  | answer c decision now outcome' =>
    simp only [operations] at h
    split at h
    · cases decision <;> simp [answerOperations] at h
    · simp at h
  | reap | elapse | expire | exit | outOfBand => simp [operations] at h
  | receive | lockPrompt | hangUp => simp [operations] at h

/-- The end of a connection takes its grants from the table. -/
theorem releaseConnection_grants (engine : Engine) (order : IterationOrder) (c : Nat) {id : String}
    {grant : Grant} (h : (engine.releaseConnection order c).grants[id]? = some grant) :
    grant.connection ≠ c := by
  rw [Engine.releaseConnection, Engine.releaseAll_getElem?] at h
  split at h
  · simp at h
  · rename_i hmem
    intro hc
    exact hmem ((order.2 _).mem_iff.mpr (Engine.mem_grantsWhere.mpr ⟨grant, h, by simpa using hc⟩))

theorem Departed.step (h : broker.Departed) (hs : broker.step sha256 event = some broker') :
    broker'.Departed := by
  intro c hclosed id grant hgrant
  rw [step_engine hs] at hgrant
  by_cases hbefore : broker.tasks c = .closed
  · rcases grants_of_foldl hgrant with hthere | ⟨entry, clientPid, outcome, hmem⟩
    · exact h c hbefore id grant hthere
    · -- a connection that activates is not closed
      obtain ⟨_, _, _, -, htask⟩ := tasks_of_activate hmem
      rintro rfl
      rw [hbefore] at htask
      simp at htask
  · rcases tasks_of_step hs with htasks | ⟨c', next, hgoes, htasks⟩
    · rw [htasks] at hclosed
      exact absurd hclosed hbefore
    · -- this is the event that closes the connection
      by_cases hc : c = c'
      · subst hc
        rw [htasks, tasks_setTask_self] at hclosed
        obtain ⟨htask, order, outcome, rfl⟩ := hgoes.closed hclosed
        simp only [operations, htask, taskOperations, List.foldl_cons, List.foldl_nil] at hgrant
        exact releaseConnection_grants broker.engine order c hgrant
      · rw [htasks, tasks_setTask_of_ne hc] at hclosed
        exact absurd hclosed hbefore

end Broker

/-- **A gone client holds nothing, and what it held was retired exactly once.** -/
theorem departed_connection {sha256 : List Char → String} {disk : Disk}
    {now brokerPid nextGrant : Nat} {available : Bool} {clientPid : Nat → Option Nat}
    {events : List Event} {r : Recorded}
    (h : Recorded.Reached sha256 (.new disk now brokerPid nextGrant available clientPid) events r)
    {c : Nat} (hclosed : r.broker.tasks c = .closed) {later : List Event} {r' : Recorded}
    (hlater : Recorded.Reached sha256 r later r') :
    (∀ (id : String) (grant : Grant), r'.broker.engine.grants[id]? = some grant →
      grant.connection ≠ c) ∧
    ∀ id grant, Engine.Held (.new disk now brokerPid nextGrant) r'.operations id grant →
      grant.connection = c → ∃ t : Retirement, t.id = id ∧ t.grant = grant ∧ t.Effective ∧
        ((Engine.new disk now brokerPid nextGrant).retired r'.operations).filter (·.id == id) =
          [t] := by
  have hdeparted : r'.broker.Departed ∧ r'.broker.tasks c = .closed := by
    have hr : r.broker.Departed := h.invariant (P := fun r => r.broker.Departed)
      (fun c hc => absurd hc (by simp [Recorded.new, Broker.new])) fun r event r' hr hs => by
        obtain ⟨broker, hstep, rfl⟩ := Recorded.step_eq_some.mp hs
        exact hr.step hstep
    refine hlater.invariant (P := fun r => r.broker.Departed ∧ r.broker.tasks c = .closed)
      ⟨hr, hclosed⟩ fun r event r' hr hs => ?_
    obtain ⟨broker, hstep, rfl⟩ := Recorded.step_eq_some.mp hs
    exact ⟨hr.1.step hstep, Broker.closed_of_step hstep hr.2⟩
  have hgone := hdeparted.1 c hdeparted.2
  have hrun := Recorded.engine_run (h.append hlater)
  obtain ⟨haccounted, -⟩ := Engine.accounted_of_run hrun
  refine ⟨hgone, fun id grant hheld hc => ?_⟩
  have hsettled := haccounted.settled id grant hheld
  rw [← Engine.eq_foldl_of_run hrun] at hsettled
  rcases hsettled with ⟨hthere, -⟩ | ⟨-, before, honce⟩
  · exact absurd hc (hgone id grant hthere)
  · have hmem : (⟨before, id, grant⟩ : Retirement) ∈
        (Engine.new disk now brokerPid nextGrant).retired r'.operations :=
      List.mem_of_mem_filter (by rw [honce]; exact List.mem_singleton_self _)
    obtain ⟨hbooks, howned, hgrant, -⟩ := haccounted.sound _ hmem
    exact ⟨⟨before, id, grant⟩, rfl, rfl, Retirement.effective hbooks howned hgrant, honce⟩

/-- A connection that hangs up and gets the engine lock is closed. -/
theorem closed_of_departure {sha256 : List Char → String} {r r' : Recorded} {c : Nat}
    {order : IterationOrder} {outcome : StartOutcome}
    (h : Transition.replay (Recorded.step sha256) r [.hangUp c, .proceed c order outcome] = some r') :
    r'.broker.tasks c = .closed := by
  obtain ⟨r₁, hhangUp, hrest⟩ := Option.bind_eq_some_iff.mp h
  obtain ⟨r₂, hproceed, hdone⟩ := Option.bind_eq_some_iff.mp hrest
  obtain rfl := Option.some.inj hdone
  obtain ⟨broker₁, hstep₁, rfl⟩ := Recorded.step_eq_some.mp hhangUp
  obtain ⟨broker₂, hstep₂, rfl⟩ := Recorded.step_eq_some.mp hproceed
  simp only [Broker.step] at hstep₁
  split at hstep₁
  · obtain rfl := Option.some.inj hstep₁
    rw [Broker.step, Broker.tasks_setTask_self] at hstep₂
    obtain rfl := Option.some.inj hstep₂
    exact Broker.tasks_setTask_self _ _ _
  · exact absurd hstep₁ (by simp)

/-! ### The viewer's client goes away -/

/-- The broker when the connection has ended. -/
def viewerGone : Recorded :=
  (Transition.replay (Recorded.step String.ofList) viewerStarted
    [.hangUp 1, .proceed 1 tableOrder working]).get (by decide +kernel)

theorem replay_viewerGone : Transition.replay (Recorded.step String.ofList) viewerStarted
    [.hangUp 1, .proceed 1 tableOrder working] = some viewerGone := (Option.some_get _).symm

theorem reached_viewerGone : Recorded.Reached String.ofList freshBroker
    (viewerSession ++ [.proceed 1 tableOrder working] ++ [.hangUp 1, .proceed 1 tableOrder working])
    viewerGone :=
  Transition.run_of_replay reached_viewerStarted replay_viewerGone

theorem departed_connection_viewer :
    (viewerStarted.broker.engine.grants["g100-1"]?.map (·.connection)) = some 1 ∧
    ∃ t : Retirement, t.id = "g100-1" ∧ t.Effective ∧
      ((Engine.new ⟨none, none⟩ 0 100 1).retired viewerGone.operations).filter
        (·.id == "g100-1") = [t] := by
  have hgrant : viewerStarted.broker.engine.grants["g100-1"]? =
      some ⟨"com.example.viewer", 1, none, .endpoint⟩ := by decide +kernel
  -- the grant was there before the connection ended
  have hheld : Engine.Held (Engine.new ⟨none, none⟩ 0 100 1) viewerStarted.operations "g100-1"
      ⟨"com.example.viewer", 1, none, .endpoint⟩ := by
    refine Engine.held_of_getElem? ?_
    rw [← Engine.eq_foldl_of_run (Recorded.engine_run reached_viewerStarted)]
    exact hgrant
  have hlater : Recorded.Reached String.ofList viewerStarted
      ([] ++ [.hangUp 1, .proceed 1 tableOrder working]) viewerGone :=
    Transition.run_of_replay .start replay_viewerGone
  obtain ⟨more, hmore⟩ := Recorded.operations_of_reached hlater
  obtain ⟨t, hid, -, heffective, honce⟩ := (departed_connection reached_viewerGone
    (closed_of_departure replay_viewerGone) .start).2 "g100-1" _
    (hmore ▸ hheld.append more) rfl
  exact ⟨by rw [hgrant]; rfl, t, hid, heffective, honce⟩

end McpLocator.Broker
