import McpLocator.Broker.Runs

namespace McpLocator.Broker

open Std (ExtTreeMap)
open McpLocator.Json McpLocator.Proto

/-!
# Grants and the connections that took them

* `Kept` — a grant stays in the table, and the process behind it is left alone; what each operation
  keeps.
* `Isolated` — the grants of the other connections are kept.
* `isolated_iff` — everything a connection can do short of a forced deactivation keeps them, but for
  releasing them by their ids: a release does not ask who took the grant.
-/

set_option linter.dupNamespace false

/-- What the process behind a grant belongs to. -/
def Grant.owner (id : String) (grant : Grant) : Owner :=
  match grant.kind with
  | .stdio _ => .grant id
  | .endpoint => .row grant.name

namespace Engine

/-- A grant is still there, unchanged, and so is the process behind it. -/
structure Kept (engine engine' : Engine) (id : String) (grant : Grant) : Prop where
  held : engine'.grants[id]? = some grant
  child_eq : engine'.childOf (grant.owner id) = engine.childOf (grant.owner id)
  spared : ∀ child, engine.childOf (grant.owner id) = some child →
    engine'.processes[child.process]? = engine.processes[child.process]?

variable {engine engine' : Engine} {id : String} {grant : Grant}

namespace Kept

theorem refl (h : engine.grants[id]? = some grant) : Kept engine engine id grant :=
  ⟨h, rfl, fun _ _ => rfl⟩

theorem trans {e₁ e₂ e₃ : Engine} (h : Kept e₁ e₂ id grant) (h' : Kept e₂ e₃ id grant) :
    Kept e₁ e₃ id grant := by
  refine ⟨h'.held, h'.child_eq.trans h.child_eq, fun child hchild => ?_⟩
  rw [h'.spared child (h.child_eq.trans hchild)]
  exact h.spared child hchild

/-- Neither the tables nor the processes change. -/
theorem of_eq (h : engine.grants[id]? = some grant) (hgrants : engine'.grants = engine.grants)
    (hshared : engine'.shared = engine.shared) (hprocesses : engine'.processes = engine.processes) :
    Kept engine engine' id grant := by
  refine ⟨hgrants ▸ h, ?_, fun _ _ => by rw [hprocesses]⟩
  cases grant.owner id with
  | grant key => rw [childOf, childOf, hgrants]
  | row name => rw [childOf, childOf, Engine.child, Engine.child, server, server, hshared]

end Kept

/-- Stopping a process leaves the others alone. -/
theorem shutdownAny_processes (child : Option Child) {other : Child} (h : child ≠ some other) :
    (engine.shutdownAny child).processes[other.process]? = engine.processes[other.process]? := by
  cases child with
  | none => rfl
  | some child =>
    have hne : child.process ≠ other.process := by
      rintro heq
      exact h (congrArg some (by cases child; cases other; simpa using heq))
    show (engine.processes.modify child.process _)[other.process]? = _
    rw [List.getElem?_modify]
    simp [hne]

/-- Stopping the child of one owner keeps the grants with another. -/
theorem kept_shutdownAny (howned : engine.Owned) (h : engine.grants[id]? = some grant)
    {owner : Owner} (hne : grant.owner id ≠ owner) :
    Kept engine (engine.shutdownAny (engine.childOf owner)) id grant := by
  refine ⟨?_, shutdownAny_childOf engine _ _, fun child hchild => ?_⟩
  · rw [shutdownAny_grants]
    exact h
  · refine shutdownAny_processes _ fun heq => ?_
    exact hne (howned.unique _ _ child hchild heq)

/-- Writing a row keeps the grants that do not rest on its child, and the others if the child
    stays. -/
theorem kept_setServer (h : engine.grants[id]? = some grant) {name : String} {server : SharedServer}
    (hrow : grant.owner id = .row name → server.child = engine.child name) :
    Kept engine (engine.setServer name server) id grant := by
  refine ⟨h, ?_, fun _ _ => rfl⟩
  by_cases howner : grant.owner id = .row name
  · rw [howner, childOf_setServer_self]
    exact hrow howner
  · exact childOf_setServer_of_ne howner server

/-- More processes, nothing else. -/
theorem kept_launched (howned : engine.Owned) (h : engine.grants[id]? = some grant) (entry : Entry)
    (command : Command) (running : Bool) :
    Kept engine (engine.launched entry command running) id grant := by
  refine ⟨h, ?_, fun child hchild => ?_⟩
  · cases grant.owner id <;> rfl
  · have hlt := howned.started _ child hchild
    rw [origins, List.length_map] at hlt
    exact List.getElem?_append_left hlt

/-- A grant more. -/
theorem kept_addGrant (h : engine.grants[id]? = some grant) {key : String} (other : Grant)
    (hfresh : engine.grants[key]? = none) : Kept engine (engine.addGrant key other) id grant := by
  have hne : id ≠ key := by
    rintro rfl
    rw [h] at hfresh
    simp at hfresh
  refine ⟨?_, ?_, fun _ _ => rfl⟩
  · show (engine.grants.insert key other)[id]? = some grant
    rw [ExtTreeMap.getElem?_insert, if_neg, h]
    simpa using hne.symm
  · rw [childOf_addGrant, if_neg]
    intro howner
    unfold Grant.owner at howner
    cases hkind : grant.kind <;> rw [hkind] at howner <;> simp at howner
    exact hne howner

/-! ### Releases -/

/-- The child that a stdio grant has to itself. -/
theorem childOf_grant (h : engine.grants[id]? = some grant) :
    engine.childOf (.grant id) = grant.kind.child := by
  rw [childOf, h]
  rfl

/-- Letting go of one grant keeps the others. -/
theorem kept_release (howned : engine.Owned) (h : engine.grants[id]? = some grant) {key : String}
    (hne : id ≠ key) : Kept engine (engine.release key).2 id grant := by
  cases hkey : engine.grants[key]? with
  | none =>
    rw [release_of_none hkey]
    exact .refl h
  | some other =>
    rw [release_of_some hkey]
    have herased : Kept engine { engine with grants := engine.grants.erase key } id grant := by
      refine ⟨?_, ?_, fun _ _ => rfl⟩
      · show (engine.grants.erase key)[id]? = some grant
        rw [ExtTreeMap.getElem?_erase, if_neg, h]
        simpa using hne.symm
      · unfold Grant.owner
        cases grant.kind with
        | endpoint => rfl
        | stdio child =>
          show (engine.grants.erase key)[id]?.bind _ = engine.grants[id]?.bind _
          rw [ExtTreeMap.getElem?_erase, if_neg]
          simpa using hne.symm
    unfold retire
    cases hkind : other.kind with
    | stdio child =>
      -- the child stopped belongs to the grant released
      refine ⟨herased.held, herased.child_eq, fun mine hmine => ?_⟩
      refine shutdownAny_processes (some child) fun heq => ?_
      have hother : engine.childOf (.grant key) = some mine := by
        rw [childOf_grant hkey, hkind]
        exact heq
      have howner := howned.unique _ _ mine hmine hother
      unfold Grant.owner at howner
      cases hk : grant.kind <;> rw [hk] at howner <;> simp at howner
      exact hne howner
    | endpoint =>
      dsimp only
      cases hrow : engine.shared[other.name]? with
      | none => exact herased
      | some server =>
        refine herased.trans (kept_setServer herased.held fun _ => ?_)
        have hserver : engine.server other.name = server := server_of_getElem? hrow
        show server.child = (engine.server other.name).child
        rw [hserver]

theorem kept_releaseAll (howned : engine.Owned) (h : engine.grants[id]? = some grant)
    {ids : List String} (hids : id ∉ ids) : Kept engine (engine.releaseAll ids) id grant := by
  induction ids generalizing engine with
  | nil => exact .refl h
  | cons key ids ih =>
    have hkey := kept_release howned h (List.ne_of_not_mem_cons hids)
    exact hkey.trans (ih (howned.quiet (quiet_release engine key)) hkey.held
      (List.not_mem_of_not_mem_cons hids))

/-- A grant released is gone. -/
theorem release_gone (engine : Engine) (id : String) : (engine.release id).2.grants[id]? = none := by
  rw [release_frame]
  exact ExtTreeMap.getElem?_erase_self

/-- The end of a connection keeps the grants of the others. -/
theorem kept_releaseConnection (howned : engine.Owned) (h : engine.grants[id]? = some grant)
    (order : IterationOrder) {connection : Nat} (hne : grant.connection ≠ connection) :
    Kept engine (engine.releaseConnection order connection) id grant := by
  refine kept_releaseAll howned h fun hmem => ?_
  obtain ⟨other, hother, hconnection⟩ := mem_grantsWhere.mp ((order.2 _).mem_iff.mp hmem)
  obtain rfl := Option.some.inj (h.symm.trans hother)
  exact hne (by simpa using hconnection)

/-- Unless it is forced, a deactivation touches no grant: there must be none on the server. -/
theorem kept_deactivate (howned : engine.Owned) (h : engine.grants[id]? = some grant)
    (order : IterationOrder) (name : String) :
    Kept engine (engine.deactivate order name false).2 id grant := by
  unfold deactivate
  dsimp only
  split
  · exact .refl h
  · rename_i hholders
    have hnone : order.1 (engine.grantsWhere fun g => g.name == name) = [] := by
      refine List.eq_nil_iff_forall_not_mem.mpr fun key hmem => hholders ⟨?_, rfl⟩
      obtain ⟨other, hother, -⟩ := mem_grantsWhere.mp ((order.2 _).mem_iff.mp hmem)
      intro hempty
      have hholder : holderText other ∈ (order.1 (engine.grantsWhere fun g =>
          g.name == name)).filterMap fun key => engine.grants[key]?.map holderText :=
        List.mem_filterMap.mpr ⟨key, hmem, by rw [hother]; rfl⟩
      rw [hempty] at hholder
      simp at hholder
    rw [hnone]
    have hname : grant.name ≠ name := by
      rintro rfl
      have hmem : id ∈ order.1 (engine.grantsWhere fun g => g.name == grant.name) :=
        (order.2 _).mem_iff.mpr (mem_grantsWhere.mpr ⟨grant, h, by simp⟩)
      rw [hnone] at hmem
      simp at hmem
    have howner : grant.owner id ≠ .row name := by
      unfold Grant.owner
      cases grant.kind <;> simp [hname]
    have hreleased : engine.releaseAll [] = engine := rfl
    rw [hreleased]
    cases hrow : engine.shared[name]? with
    | none => exact .refl h
    | some server =>
      -- an idle server may be stopped: nobody holds a grant on it
      have hchild : engine.childOf (.row name) = server.child := by
        rw [childOf, Engine.child, server_of_getElem? hrow]
      have hstopped := kept_shutdownAny howned h howner
      rw [hchild] at hstopped
      refine hstopped.trans (kept_setServer hstopped.held fun hrow' => absurd hrow' howner)

/-! ### Activations -/

/-- A share of a server whose row has no child cannot be held. -/
theorem Bookkeeping.owner_ne (hbooks : engine.Bookkeeping) (h : engine.grants[id]? = some grant)
    {name : String} (hchildless : (engine.server name).child = none) :
    grant.owner id ≠ .row name := by
  unfold Grant.owner
  cases hkind : grant.kind with
  | stdio child => simp
  | endpoint =>
    intro howner
    obtain rfl := Owner.row.inj howner
    have hserving := ((hbooks.steady grant.name).serving (hbooks.refcount_pos h hkind)).1
    rw [hchildless] at hserving
    exact Bool.false_ne_true hserving

/-- An activation keeps every grant. -/
theorem kept_activated (hbooks : engine.Bookkeeping) (howned : engine.Owned)
    (h : engine.grants[id]? = some grant) {entry : Entry} {connection : Nat}
    {clientPid : Option Nat} {result : Except ActivateError ActivateResult}
    (ha : Activated engine entry connection clientPid result engine') :
    Kept engine engine' id grant := by
  have hready : Kept engine (engine.ready entry) id grant := .of_eq h rfl rfl rfl
  have hstart : ∀ {result} {started : Engine}, Started (engine.ready entry) entry result started →
      Kept engine started id grant ∧ started.grants = engine.grants := by
    intro result started hs
    have howned' : (engine.ready entry).Owned := howned.quiet (.refl engine)
    -- every way to start writes the row of the entry at most, and no child of a held grant is there
    cases hs with
    | failed => exact ⟨hready, rfl⟩
    | killed _ command =>
      exact ⟨hready.trans (kept_launched howned' h entry command false), rfl⟩
    | unspawned _ hchildless =>
      exact ⟨hready.trans (kept_setServer hready.held fun _ => hchildless.symm), rfl⟩
    | stdio command => exact ⟨hready.trans (kept_launched howned' h entry command true), rfl⟩
    | joined child _ _ hpresent =>
      exact ⟨hready.trans (kept_setServer hready.held fun _ => hpresent.symm), rfl⟩
    | spawned command _ _ _ hchildless =>
      have hlaunched := hready.trans (kept_launched howned' h entry command true)
      refine ⟨hlaunched.trans (kept_setServer hlaunched.held fun howner => ?_), rfl⟩
      exact absurd howner (hbooks.owner_ne h hchildless)
  cases ha with
  | orphaned => exact .refl h
  | refused => exact .of_eq h rfl rfl rfl
  | notStarted _ _ _ hs => exact (hstart hs).1
  | granted kind info started _ _ hs =>
    obtain ⟨hkept, hgrants⟩ := hstart hs
    -- the new grant has an id that was not in use
    refine hkept.trans (kept_addGrant hkept.held _ ?_)
    rw [hgrants]
    exact hbooks.fresh

/-- The grants of the other connections are kept. -/
def Isolated (connection : Nat) (engine engine' : Engine) : Prop :=
  ∀ id grant, engine.grants[id]? = some grant → grant.connection ≠ connection →
    Kept engine engine' id grant

/-- Consulting consent, and deciding about it, touch no grant. -/
theorem kept_foldl_consent (h : engine.grants[id]? = some grant) {operations : List Operation}
    (hconsent : ∀ operation ∈ operations,
      (∃ name launchHash, operation = .evaluate name launchHash) ∨
        ∃ now name action outcome, operation = .decide now name action outcome) :
    Kept engine (operations.foldl Engine.perform engine) id grant := by
  induction operations generalizing engine with
  | nil => exact .refl h
  | cons operation operations ih =>
    have hone : Kept engine (engine.perform operation) id grant := by
      rcases hconsent operation List.mem_cons_self with ⟨_, _, rfl⟩ | ⟨_, _, _, _, rfl⟩
      · exact .of_eq h rfl rfl rfl
      · exact .of_eq h rfl rfl rfl
    exact hone.trans (ih hone.held fun o ho => hconsent o (List.mem_cons_of_mem _ ho))

end Engine

/-! ### What a connection does -/

/-- The connection on whose behalf an event happens. -/
def Event.caller : Event → Option Nat
  | .receive c _ _ | .proceed c _ _ | .lockPrompt c | .answer c _ _ _ | .hangUp c => some c
  | .reap _ | .elapse _ | .expire _ | .exit _ | .outOfBand _ _ _ _ => none

namespace Broker

/-- The event is a forced deactivation. -/
def forces (broker : Broker) : Event → Bool
  | .proceed c _ _ =>
    match broker.tasks c with
    | .deactivate _ _ force => force
    | _ => false
  | _ => false

/-- The event releases a grant by the id of one that another connection holds. -/
def releasesForeign (broker : Broker) : Event → Bool
  | .proceed c _ _ =>
    match broker.tasks c with
    | .release _ grantId => broker.engine.grants[grantId]?.any fun grant => grant.connection != c
    | _ => false
  | _ => false

/-- The requests that look an entry up come to tasks of their own. -/
theorem withEntry_ne {sha256 : List Char → String} {registry : Registry} {request : Request}
    (task : String → Entry → Task) {other : Task} (h : ∀ name entry, task name entry ≠ other) :
    withEntry sha256 registry request task ≠ .inr other := by
  unfold withEntry
  split
  · simp
  · split
    · simp
    · simpa using h _ _

variable {sha256 : List Char → String} {broker broker' : Broker} {event : Event} {c : Nat}

/-- Every task but these two keeps the grants of the other connections. -/
theorem isolated_proceed (hbooks : broker.engine.Bookkeeping) (howned : broker.engine.Owned)
    {order : IterationOrder} {outcome : StartOutcome}
    (hforce : broker.forces (.proceed c order outcome) = false)
    (hrelease : broker.releasesForeign (.proceed c order outcome) = false) :
    Engine.Isolated c broker.engine
      ((broker.operations (.proceed c order outcome)).foldl Engine.perform broker.engine) := by
  intro id grant hgrant hother
  unfold operations
  dsimp only
  cases htask : broker.tasks c with
  | list _ catalog =>
    refine Engine.kept_foldl_consent hgrant fun operation ho => ?_
    obtain ⟨entry, -, rfl⟩ := List.mem_map.mp ho
    exact .inl ⟨_, _, rfl⟩
  | status | query | consult | reread =>
    refine Engine.kept_foldl_consent hgrant fun operation ho => ?_
    exact .inl ⟨_, _, List.mem_singleton.mp ho⟩
  | activate _ entry =>
    exact Engine.kept_activated hbooks howned hgrant
      (Engine.activate_activated broker.engine entry c (broker.clientPid c) outcome)
  | release _ grantId =>
    -- the id is not the one of somebody else's grant
    simp only [releasesForeign, htask] at hrelease
    refine Engine.kept_release howned hgrant ?_
    rintro rfl
    rw [hgrant] at hrelease
    simp [hother] at hrelease
  | deactivate _ name force =>
    simp only [forces, htask] at hforce
    subst hforce
    exact Engine.kept_deactivate howned hgrant order name
  | closing => exact Engine.kept_releaseConnection howned hgrant order hother
  | idle | queue | prompt | closed => exact .refl hgrant

/-- **What a connection does to the grants of the others.**  In every state that the broker reaches,
    an event on behalf of a connection that is not a forced deactivation keeps the grants that other
    connections took, and the processes behind them, exactly if it does not release one of them by
    its id. -/
theorem isolated_iff {disk : Disk} {now brokerPid nextGrant : Nat} {available : Bool}
    {clientPid : Nat → Option Nat} {events : List Event} {r r' : Recorded}
    (h : Recorded.Reached sha256 (.new disk now brokerPid nextGrant available clientPid) events r)
    (hstep : r.step sha256 event = some r') (hcaller : event.caller = some c)
    (hforce : r.broker.forces event = false) :
    Engine.Isolated c r.broker.engine r'.broker.engine ↔ r.broker.releasesForeign event = false := by
  obtain ⟨hbooks, howned⟩ := Recorded.sound_of_reached h
  obtain ⟨broker, hbroker, rfl⟩ := Recorded.step_eq_some.mp hstep
  rw [step_engine hbroker]
  cases event with
  | proceed c' order outcome =>
    obtain rfl := Option.some.inj hcaller
    refine ⟨fun hisolated => ?_, isolated_proceed hbooks howned hforce⟩
    -- the grant that a foreign release names is not in the table afterwards
    by_contra hforeign
    rw [Bool.not_eq_false] at hforeign
    unfold releasesForeign at hforeign
    dsimp only at hforeign
    split at hforeign
    · rename_i rid grantId htask
      cases hgrant : r.broker.engine.grants[grantId]? with
      | none => simp [hgrant] at hforeign
      | some grant =>
        rw [hgrant] at hforeign
        have hheld := (hisolated grantId grant hgrant (by simpa using hforeign)).held
        have hgone := Engine.release_gone r.broker.engine grantId
        simp only [operations, htask, taskOperations, List.foldl_cons, List.foldl_nil] at hheld
        exact absurd (hheld.symm.trans hgone) (by simp)
    · exact Bool.false_ne_true hforeign
  | answer c' decision now outcome =>
    refine ⟨fun _ => rfl, fun _ id grant hgrant _ => Engine.kept_foldl_consent hgrant ?_⟩
    -- an answer decides about consent, if it does anything
    intro operation ho
    unfold operations at ho
    dsimp only at ho
    split at ho
    · cases decision with
      | allow => exact .inr ⟨_, _, _, _, List.mem_singleton.mp ho⟩
      | deny => exact .inr ⟨_, _, _, _, List.mem_singleton.mp ho⟩
      | unanswered => simp [answerOperations] at ho
    · simp at ho
  | receive | lockPrompt | hangUp =>
    exact ⟨fun _ => rfl, fun _ _ _ hgrant _ => .refl hgrant⟩
  -- no connection is behind the others
  | reap | elapse | expire | exit | outOfBand => simp [Event.caller] at hcaller

end Broker

/-! ### Another client joins -/

theorem reached_viewerStarted : Recorded.Reached String.ofList freshBroker
    (viewerSession ++ [.proceed 1 tableOrder working]) viewerStarted :=
  .snoc reached_viewerAllowed step_viewerStarted

/-- A second connection asks for the viewer, which has been approved. -/
def joinAsked : List Event :=
  [.receive 2 (.ok (requestWith "locator/activate" "name" "com.example.viewer"))
      (viewerRegistry "/usr/bin/viewer"),
    .proceed 2 tableOrder working]

/-- The broker before and after it takes its grant. -/
def viewerJoining : Recorded :=
  (Transition.replay (Recorded.step String.ofList) viewerStarted joinAsked).get (by decide +kernel)

def viewerJoined : Recorded :=
  (viewerJoining.step String.ofList (.proceed 2 tableOrder working)).get (by decide +kernel)

/-- The grant that the second connection takes leaves the first one's alone. -/
theorem isolated_viewer :
    (viewerJoining.broker.engine.grants["g100-1"]?.map (·.connection)) = some 1 ∧
      (viewerJoined.broker.engine.grants["g100-2"]?.map (·.connection)) = some 2 ∧
        Engine.Isolated 2 viewerJoining.broker.engine viewerJoined.broker.engine := by
  have hreached := Transition.run_of_replay reached_viewerStarted
    (show Transition.replay (Recorded.step String.ofList) viewerStarted joinAsked =
      some viewerJoining from (Option.some_get _).symm)
  have hstep : viewerJoining.step String.ofList (.proceed 2 tableOrder working) = some viewerJoined :=
    (Option.some_get _).symm
  have hforce : viewerJoining.broker.forces (.proceed 2 tableOrder working) = false := by decide +kernel
  have hrelease : viewerJoining.broker.releasesForeign (.proceed 2 tableOrder working) = false := by
    decide +kernel
  exact ⟨by decide +kernel, by decide +kernel,
    (Broker.isolated_iff hreached hstep rfl hforce).mpr hrelease⟩

/-! ### Another client releases the viewer -/

/-- A second connection asks for the release of the first one's grant. -/
def releaseAsked : Event :=
  .receive 2 (.ok (requestWith "locator/release" "grantId" "g100-1")) (viewerRegistry "/usr/bin/viewer")

/-- The broker when the request has been read, and when it has been processed. -/
def viewerContested : Recorded :=
  (viewerStarted.step String.ofList releaseAsked).get (by decide +kernel)

def viewerReleased : Recorded :=
  (viewerContested.step String.ofList (.proceed 2 tableOrder working)).get (by decide +kernel)

theorem step_viewerContested :
    viewerStarted.step String.ofList releaseAsked = some viewerContested := (Option.some_get _).symm

theorem step_viewerReleased :
    viewerContested.step String.ofList (.proceed 2 tableOrder working) = some viewerReleased :=
  (Option.some_get _).symm

theorem reached_viewerContested : Recorded.Reached String.ofList freshBroker
    (viewerSession ++ [.proceed 1 tableOrder working] ++ [releaseAsked]) viewerContested :=
  .snoc reached_viewerStarted step_viewerContested

/-- Processing the request takes the grant away. -/
theorem not_isolated_release :
    Recorded.Reached String.ofList freshBroker
        (viewerSession ++ [.proceed 1 tableOrder working] ++ [releaseAsked]) viewerContested ∧
      viewerContested.step String.ofList (.proceed 2 tableOrder working) = some viewerReleased ∧
      viewerContested.broker.forces (.proceed 2 tableOrder working) = false ∧
      ¬ Engine.Isolated 2 viewerContested.broker.engine viewerReleased.broker.engine := by
  refine ⟨reached_viewerContested, step_viewerReleased, by decide +kernel, fun h => ?_⟩
  have hheld : viewerContested.broker.engine.grants["g100-1"]? =
      some ⟨"com.example.viewer", 1, none, .endpoint⟩ := by decide +kernel
  have hkept := (h "g100-1" _ hheld (by decide)).held
  have hgone : viewerReleased.broker.engine.grants["g100-1"]? = none := by decide +kernel
  rw [hgone] at hkept
  simp at hkept

end McpLocator.Broker
