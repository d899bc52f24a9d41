import McpLocator.Broker.Bookkeeping

namespace McpLocator.Broker

open Std (ExtTreeMap)

/-!
# The process behind a shared server

Shared children are kept by server name: an activation starts a child only where there is none, and
otherwise joins the one that is there, whatever version of the card it was started from.

* `Owner`, `childOf` — a child belongs to a grant or to the row of a server.
* `perform_cases` — what an operation does to the processes and to their owners.
* `Owned` — every child has one owner; `Backed` — the child of a row is a process that was started
  from an entry of that name.
* `StartedIn` — every process was started by an activation that the user had agreed to.
* `activate_backing` — what is behind the grant that an activation returns.
-/

/-- What a process was started from. -/
def Process.origin (p : Process) : Entry × Command := (p.entry, p.command)

/-- What a child can belong to. -/
inductive Owner where
  | grant (id : String)
  | row (name : String)
deriving DecidableEq, Repr

/-- The child of a grant that has one of its own. -/
def GrantKind.child : GrantKind → Option Child
  | .stdio child => some child
  | .endpoint => none

namespace Engine

variable {engine : Engine}

/-- What the processes were started from. -/
def origins (engine : Engine) : List (Entry × Command) := engine.processes.map Process.origin

/-- The child of a server's row. -/
def child (engine : Engine) (name : String) : Option Child := (engine.server name).child

/-- The child that belongs to a grant alone, or to the row of a server. -/
def childOf (engine : Engine) : Owner → Option Child
  | .grant id => engine.grants[id]?.bind fun g => g.kind.child
  | .row name => engine.child name

/-! ### What one operation does -/

/-- Stopping a process does not change what it was started from. -/
theorem shutdown_origins (engine : Engine) (child : Child) :
    (engine.shutdown child).origins = engine.origins := by
  refine List.ext_getElem? fun i => ?_
  show ((engine.processes.modify child.process _).map Process.origin)[i]? =
    (engine.processes.map Process.origin)[i]?
  rw [List.getElem?_map, List.getElem?_map, List.getElem?_modify]
  split
  · cases engine.processes[i]? <;> rfl
  · simp

theorem shutdownAny_origins (engine : Engine) (child : Option Child) :
    (engine.shutdownAny child).origins = engine.origins := by
  cases child with
  | none => rfl
  | some child => exact shutdown_origins engine child

/-- The engine starts no process and nothing gains a child. -/
def Quiet (engine engine' : Engine) : Prop :=
  engine'.origins = engine.origins ∧
    ∀ owner, engine'.childOf owner = engine.childOf owner ∨ engine'.childOf owner = none

theorem Quiet.refl (engine : Engine) : Quiet engine engine := ⟨rfl, fun _ => .inl rfl⟩

theorem Quiet.trans {e₁ e₂ e₃ : Engine} (h : Quiet e₁ e₂) (h' : Quiet e₂ e₃) : Quiet e₁ e₃ := by
  refine ⟨h'.1.trans h.1, fun owner => ?_⟩
  rcases h'.2 owner with heq | hnone
  · rw [heq]
    exact h.2 owner
  · exact .inr hnone

theorem shutdownAny_childOf (engine : Engine) (child : Option Child) (owner : Owner) :
    (engine.shutdownAny child).childOf owner = engine.childOf owner := by
  cases child <;> cases owner <;> rfl

theorem quiet_shutdownAny (engine : Engine) (child : Option Child) :
    Quiet engine (engine.shutdownAny child) :=
  ⟨shutdownAny_origins engine child, fun owner => .inl (shutdownAny_childOf engine child owner)⟩

theorem childOf_setServer_self (engine : Engine) (name : String) (server : SharedServer) :
    (engine.setServer name server).childOf (.row name) = server.child := by
  rw [childOf, Engine.child, server_setServer_self]

/-- Writing a row concerns no other owner. -/
theorem childOf_setServer_of_ne {name : String} {owner : Owner} (h : owner ≠ .row name)
    (server : SharedServer) :
    (engine.setServer name server).childOf owner = engine.childOf owner := by
  cases owner with
  | grant id => rfl
  | row other =>
    have hother : other ≠ name := fun heq => h (heq ▸ rfl)
    rw [childOf, Engine.child, server_setServer_of_ne hother, childOf, Engine.child]

theorem quiet_setServer {name : String} {server : SharedServer}
    (h : server.child = engine.child name ∨ server.child = none) :
    Quiet engine (engine.setServer name server) := by
  refine ⟨rfl, fun owner => ?_⟩
  by_cases howner : owner = .row name
  · rw [howner, childOf_setServer_self]
    exact h
  · exact .inl (childOf_setServer_of_ne howner server)

theorem quiet_retire (engine : Engine) (grant : Grant) : Quiet engine (engine.retire grant) := by
  unfold retire
  cases grant.kind with
  | stdio child => exact quiet_shutdownAny engine (some child)
  | endpoint =>
    cases hrow : engine.shared[grant.name]? with
    | none => exact .refl engine
    | some server =>
      refine quiet_setServer (.inl ?_)
      rw [Engine.child, server_of_getElem? hrow]
      rfl

/-- Removing a grant from the table. -/
theorem quiet_erase (engine : Engine) (id : String) :
    Quiet engine { engine with grants := engine.grants.erase id } := by
  refine ⟨rfl, fun owner => ?_⟩
  cases owner with
  | row name => exact .inl rfl
  | grant key =>
    show (engine.grants.erase id)[key]?.bind _ = _ ∨ (engine.grants.erase id)[key]?.bind _ = none
    rw [ExtTreeMap.getElem?_erase]
    split
    · exact .inr rfl
    · exact .inl rfl

theorem quiet_release (engine : Engine) (id : String) : Quiet engine (engine.release id).2 := by
  cases hg : engine.grants[id]? with
  | none =>
    rw [release_of_none hg]
    exact .refl engine
  | some grant =>
    rw [release_of_some hg]
    exact (quiet_erase engine id).trans (quiet_retire _ grant)

theorem quiet_releaseAll (engine : Engine) (ids : List String) :
    Quiet engine (engine.releaseAll ids) :=
  releaseAll_induction (.refl engine) (fun e id h => h.trans (quiet_release e id)) ids

theorem quiet_stopShared (engine : Engine) (name : String) (server : SharedServer) :
    Quiet engine (engine.stopShared name server) :=
  (quiet_shutdownAny engine server.child).trans (quiet_setServer (.inr rfl))

theorem quiet_reap (engine : Engine) (name : String) : Quiet engine (engine.reap name) := by
  unfold reap
  split
  · exact .refl engine
  · exact quiet_stopShared engine name _

theorem quiet_deactivate (engine : Engine) (order : IterationOrder) (name : String) (force : Bool) :
    Quiet engine (engine.deactivate order name force).2 := by
  unfold deactivate
  dsimp only
  split
  · exact .refl engine
  · split
    · exact quiet_releaseAll engine _
    · exact (quiet_releaseAll engine _).trans (quiet_stopShared _ _ _)

theorem quiet_expire (engine : Engine) (name : String) : Quiet engine (engine.expire name) := by
  unfold expire
  cases hrow : engine.shared[name]? with
  | none => exact .refl engine
  | some server =>
    refine quiet_setServer (.inl ?_)
    rw [Engine.child, server_of_getElem? hrow]

/-- An activation started a process from its entry, which the user had agreed to.  A process of its
    own belongs to the grant, a shared one to the row of the server, which had no child. -/
structure Launches (engine : Engine) (entry : Entry) (engine' : Engine) : Prop where
  granted : (engine.consentFor entry).state = .granted
  origins_eq : ∃ piped command, spawnCommand entry piped = .ok command ∧
    engine'.origins = engine.origins ++ [(entry, command)] ∧ ∃ new,
      ((piped = true ∧ ∃ id, new = .grant id) ∨
        piped = false ∧ new = .row entry.name ∧ engine.childOf new = none) ∧
      ∀ owner, engine'.childOf owner = engine.childOf owner ∨ engine'.childOf owner = none ∨
        owner = new ∧ engine'.childOf owner = some engine.nextChild

theorem launched_origins (engine : Engine) (entry : Entry) (command : Command) (running : Bool) :
    (engine.launched entry command running).origins = engine.origins ++ [(entry, command)] := by
  simp [launched, origins, Process.origin]

/-- The owners when a grant has been entered. -/
theorem childOf_addGrant (engine : Engine) (id : String) (grant : Grant) (owner : Owner) :
    (engine.addGrant id grant).childOf owner =
      if owner = .grant id then grant.kind.child else engine.childOf owner := by
  cases owner with
  | row name => rfl
  | grant key =>
    show (engine.grants.insert id grant)[key]?.bind _ = _
    rw [ExtTreeMap.getElem?_insert]
    by_cases hkey : id = key
    · simp [hkey]
    · simp [hkey, Ne.symm hkey, childOf]

/-- Activating a server starts at most one process. -/
theorem Activated.quiet_or_launches {entry : Entry} {connection : Nat} {clientPid : Option Nat}
    {result : Except ActivateError ActivateResult} {engine' : Engine}
    (h : Activated engine entry connection clientPid result engine') :
    Quiet engine engine' ∨ Launches engine entry engine' := by
  cases h with
  | orphaned => exact .inl (.refl engine)
  | refused => exact .inl (.refl engine)
  | notStarted _ _ hgranted hs =>
    cases hs with
    | failed => exact .inl (.refl engine)
    | unspawned => exact .inl (quiet_setServer (.inr rfl))
    | killed _ command hbuilt =>
      -- the process was started for a grant that is not made
      exact .inr ⟨hgranted, true, command, hbuilt, launched_origins _ entry command false,
        .grant "", .inl ⟨rfl, _, rfl⟩, fun _ => .inl rfl⟩
  | granted kind info started hgranted _ hs =>
    cases hs with
    | stdio command _ hbuilt =>
      refine .inr ⟨hgranted, true, command, hbuilt, launched_origins _ entry command true,
        .grant (grantId engine.brokerPid engine.nextGrant), .inl ⟨rfl, _, rfl⟩, fun owner => ?_⟩
      rw [childOf_addGrant]
      split
      · rename_i howner
        exact .inr (.inr ⟨howner, rfl⟩)
      · exact .inl rfl
    | joined child _ _ hpresent =>
      refine .inl ⟨rfl, fun owner => ?_⟩
      rw [childOf_addGrant]
      split
      · exact .inr rfl
      · exact (quiet_setServer (.inl hpresent.symm)).2 owner
    | spawned command _ _ hbuilt hchildless =>
      refine .inr ⟨hgranted, false, command, hbuilt, launched_origins _ entry command true,
        .row entry.name, .inr ⟨rfl, rfl, hchildless⟩, fun owner => ?_⟩
      rw [childOf_addGrant]
      split
      · exact .inr (.inl rfl)
      · by_cases howner : owner = .row entry.name
        · rw [howner, childOf_setServer_self]
          exact .inr (.inr ⟨rfl, rfl⟩)
        · rw [childOf_setServer_of_ne howner]
          exact .inl rfl

/-- **All that an operation does to the processes and their owners.** -/
theorem perform_cases (engine : Engine) (operation : Operation) :
    Quiet engine (engine.perform operation) ∨ ∃ entry connection clientPid outcome,
      operation = .activate entry connection clientPid outcome ∧
        Launches engine entry (engine.perform operation) := by
  cases operation with
  | activate entry connection clientPid outcome =>
    rcases (activate_activated engine entry connection clientPid outcome).quiet_or_launches with h | h
    · exact .inl h
    · exact .inr ⟨entry, connection, clientPid, outcome, rfl, h⟩
  | release id => exact .inl (quiet_release engine id)
  | releaseConnection order connection => exact .inl (quiet_releaseAll engine _)
  | deactivate order name force => exact .inl (quiet_deactivate engine order name force)
  | reapIdle order =>
    -- one row after the other
    refine .inl ?_
    show Quiet engine ((order.1 engine.expired).foldl reap engine)
    generalize order.1 engine.expired = names
    induction names generalizing engine with
    | nil => exact .refl engine
    | cons name names ih => exact (quiet_reap engine name).trans (ih _)
  | exit process => exact .inl (quiet_shutdownAny engine (some ⟨process⟩))
  | expire name => exact .inl (quiet_expire engine name)
  | evaluate | decide | elapse | outOfBand => exact .inl (.refl engine)

/-! ### Every child has one owner -/

/-- A child belongs to one grant or to one row. -/
structure Owned (engine : Engine) : Prop where
  started : ∀ owner child, engine.childOf owner = some child → child.process < engine.origins.length
  unique : ∀ owner owner' child, engine.childOf owner = some child →
    engine.childOf owner' = some child → owner = owner'

theorem Owned.quiet {engine' : Engine} (h : engine.Owned) (hq : Quiet engine engine') :
    engine'.Owned := by
  have hsub : ∀ owner child, engine'.childOf owner = some child →
      engine.childOf owner = some child := by
    intro owner child hchild
    rcases hq.2 owner with heq | hnone
    · rw [← heq, hchild]
    · rw [hnone] at hchild
      simp at hchild
  refine ⟨fun owner child hchild => ?_, fun owner owner' child hchild hchild' => ?_⟩
  · rw [hq.1]
    exact h.started owner child (hsub owner child hchild)
  · exact h.unique owner owner' child (hsub owner child hchild) (hsub owner' child hchild')

theorem nextChild_process (engine : Engine) : engine.nextChild.process = engine.origins.length := by
  simp [nextChild, origins]

theorem Owned.launches {engine' : Engine} {entry : Entry} (h : engine.Owned)
    (hl : Launches engine entry engine') : engine'.Owned := by
  obtain ⟨_, command, -, horigins, new, -, hchildren⟩ := hl.origins_eq
  have hlength : engine'.origins.length = engine.origins.length + 1 := by simp [horigins]
  -- a child is an old one of the same owner, or the new one
  have hsub : ∀ owner child, engine'.childOf owner = some child →
      engine.childOf owner = some child ∧ child.process < engine.origins.length ∨
        owner = new ∧ child.process = engine.origins.length := by
    intro owner child hchild
    rcases hchildren owner with heq | hnone | ⟨howner, hnew⟩
    · have hold := heq.symm.trans hchild
      exact .inl ⟨hold, h.started owner child hold⟩
    · rw [hnone] at hchild
      simp at hchild
    · obtain rfl := Option.some.inj (hnew.symm.trans hchild)
      exact .inr ⟨howner, nextChild_process engine⟩
  refine ⟨fun owner child hchild => ?_, fun owner owner' child hchild hchild' => ?_⟩
  · rcases hsub owner child hchild with ⟨-, hlt⟩ | ⟨-, heq⟩ <;> omega
  · -- an old child and the new one are different processes
    rcases hsub owner child hchild with ⟨hold, hlt⟩ | ⟨hnew, heq⟩
    · rcases hsub owner' child hchild' with ⟨hold', -⟩ | ⟨-, heq'⟩
      · exact h.unique owner owner' child hold hold'
      · omega
    · rcases hsub owner' child hchild' with ⟨-, hlt'⟩ | ⟨hnew', -⟩
      · omega
      · rw [hnew, hnew']

/-- **Every operation keeps it so.** -/
theorem Owned.perform (h : engine.Owned) (operation : Operation) :
    (engine.perform operation).Owned := by
  rcases perform_cases engine operation with hq | ⟨_, _, _, _, _, hl⟩
  · exact h.quiet hq
  · exact h.launches hl

theorem childOf_new (disk : Disk) (now brokerPid nextGrant : Nat) (owner : Owner) :
    (Engine.new disk now brokerPid nextGrant).childOf owner = none := by
  cases owner with
  | grant id => simp [childOf, Engine.new]
  | row name =>
    have habsent : (Engine.new disk now brokerPid nextGrant).server name = .absent :=
      server_of_none (by simp [Engine.new])
    rw [childOf, Engine.child, habsent]
    rfl

theorem owned_new (disk : Disk) (now brokerPid nextGrant : Nat) :
    (Engine.new disk now brokerPid nextGrant).Owned := by
  refine ⟨fun owner child h => ?_, fun owner _ child h _ => ?_⟩ <;> simp [childOf_new] at h

/-- In every state that the engine reaches, every child has one owner. -/
theorem owned_of_run {disk : Disk} {now brokerPid nextGrant : Nat} {operations : List Operation}
    (h : Transition.Run Step (Engine.new disk now brokerPid nextGrant) operations engine) :
    engine.Owned := by
  refine h.invariant (owned_new disk now brokerPid nextGrant) ?_
  rintro e operation _ he rfl
  exact he.perform operation

/-! ### The child of a row -/

/-- The child of a row is a process that was started from an entry of that name. -/
def Backed (engine : Engine) : Prop :=
  ∀ name child, engine.child name = some child → ∃ entry command,
    engine.origins[child.process]? = some (entry, command) ∧ entry.name = name ∧
      spawnCommand entry false = .ok command

theorem Backed.quiet {engine' : Engine} (h : engine.Backed) (hq : Quiet engine engine') :
    engine'.Backed := by
  intro name child hchild
  rw [hq.1]
  rcases hq.2 (.row name) with heq | hnone
  · exact h name child (heq.symm.trans hchild)
  · exact absurd (hnone.symm.trans hchild) (by simp)

theorem Backed.launches {engine' : Engine} {entry : Entry} (h : engine.Backed)
    (hl : Launches engine entry engine') : engine'.Backed := by
  obtain ⟨piped, command, hbuilt, horigins, new, hnew, hchildren⟩ := hl.origins_eq
  intro name child hchild
  rw [horigins]
  rcases hchildren (.row name) with heq | hnone | ⟨howner, hchild'⟩
  · -- a process keeps the index it has
    obtain ⟨e, c, hget, he⟩ := h name child (heq.symm.trans hchild)
    exact ⟨e, c, by rw [List.getElem?_append_left (List.getElem?_eq_some_iff.mp hget).1, hget], he⟩
  · exact absurd (hnone.symm.trans hchild) (by simp)
  · -- the row gained the process, so it was started for sharing
    rcases hnew with ⟨-, id, hid⟩ | ⟨hpiped, hrow, -⟩
    · exact absurd (howner.trans hid) (by simp)
    · subst hpiped
      obtain rfl := Option.some.inj (hchild'.symm.trans hchild)
      obtain rfl : name = entry.name := Owner.row.inj (howner.trans hrow)
      refine ⟨entry, command, ?_, rfl, hbuilt⟩
      rw [nextChild_process, List.getElem?_append_right (Nat.le_refl _)]
      simp

theorem Backed.perform (h : engine.Backed) (operation : Operation) :
    (engine.perform operation).Backed := by
  rcases perform_cases engine operation with hq | ⟨entry, _, _, _, _, hl⟩
  · exact h.quiet hq
  · exact h.launches hl

theorem backed_new (disk : Disk) (now brokerPid nextGrant : Nat) :
    (Engine.new disk now brokerPid nextGrant).Backed := by
  intro name child hchild
  exact absurd ((childOf_new disk now brokerPid nextGrant (.row name)).symm.trans hchild) (by simp)

theorem backed_of_run {disk : Disk} {now brokerPid nextGrant : Nat} {operations : List Operation}
    (h : Transition.Run Step (Engine.new disk now brokerPid nextGrant) operations engine) :
    engine.Backed := by
  refine h.invariant (backed_new disk now brokerPid nextGrant) ?_
  rintro engine operation _ hbacked rfl
  exact hbacked.perform operation

/-! ### Where processes come from -/

/-- The `i`-th process was started in the run by an activation of `entry`, and at that moment
    `evaluate` said that the user had agreed to what the entry launches. -/
def StartedIn (init : Engine) (operations : List Operation) (i : Nat) (entry : Entry) : Prop :=
  ∃ before connection clientPid outcome after,
    operations = before ++ .activate entry connection clientPid outcome :: after ∧
      ((before.foldl Engine.perform init).consentFor entry).state = .granted ∧
        (before.foldl Engine.perform init).origins.length = i

theorem StartedIn.snoc {init : Engine} {operations : List Operation} {i : Nat} {entry : Entry}
    (h : StartedIn init operations i entry) (operation : Operation) :
    StartedIn init (operations ++ [operation]) i entry := by
  obtain ⟨before, connection, clientPid, outcome, after, rfl, h⟩ := h
  exact ⟨before, connection, clientPid, outcome, after ++ [operation], by simp, h⟩

/-- A run is determined by its operations. -/
theorem eq_foldl_of_run {init : Engine} {operations : List Operation}
    (h : Transition.Run Step init operations engine) :
    engine = operations.foldl Engine.perform init := by
  induction h with
  | start => rfl
  | snoc _ hs ih =>
    rw [List.foldl_append, ← ih]
    exact hs

/-- **Every process of a run was started by an activation that the user had agreed to.** -/
theorem startedIn_of_run {init : Engine} (hinit : init.origins = []) {operations : List Operation}
    (h : Transition.Run Step init operations engine) {i : Nat} {entry : Entry} {command : Command}
    (hi : engine.origins[i]? = some (entry, command)) : StartedIn init operations i entry := by
  induction h with
  | start => simp [hinit] at hi
  | @snoc operations e e' operation run hs ih =>
    obtain rfl := hs
    rcases perform_cases e operation with hq | ⟨entry', connection, clientPid, outcome, rfl, hl⟩
    · rw [hq.1] at hi
      exact (ih hi).snoc operation
    · obtain ⟨-, command', -, horigins, -⟩ := hl.origins_eq
      rw [horigins] at hi
      by_cases hlt : i < e.origins.length
      · -- one of the processes before it
        rw [List.getElem?_append_left hlt] at hi
        exact (ih hi).snoc _
      · -- the process that this very activation started
        have hlen := (List.getElem?_eq_some_iff.mp hi).1
        rw [List.length_append, List.length_singleton] at hlen
        have heq : i = e.origins.length := by omega
        rw [heq, List.getElem?_concat_length] at hi
        obtain ⟨rfl, -⟩ := Prod.mk.inj (Option.some.inj hi)
        refine ⟨operations, connection, clientPid, outcome, [], rfl, ?_, ?_⟩
        · rw [← eq_foldl_of_run run]
          exact hl.granted
        · rw [← eq_foldl_of_run run, heq]

/-- The child that an activation with an `executable` launch is given a share of. -/
theorem Activated.child_of_shared {entry : Entry} {connection : Nat} {clientPid : Option Nat}
    {result : ActivateResult} {engine' : Engine} {launch : Proto.Launch}
    (h : Activated engine entry connection clientPid (.ok result) engine')
    (hlaunch : entry.card.launch = some launch) (htype : launch.launchType = .executable) :
    engine'.grants[result.grantId]? = some ⟨entry.name, connection, clientPid, .endpoint⟩ ∧
      sharedConnection entry = .ok result.connection ∧
      ((∃ child, engine.child entry.name = some child ∧ engine'.child entry.name = some child) ∨
        engine.child entry.name = none ∧ engine'.child entry.name = some engine.nextChild ∧
          ∃ command, spawnCommand entry false = .ok command ∧
            engine'.origins = engine.origins ++ [(entry, command)]) := by
  cases h with
  | granted kind info started _ hkind hs =>
    -- an `executable` launch makes a grant of kind `endpoint`, so a stdio start is excluded
    obtain ⟨_, hlaunch', hkind⟩ := hkind
    obtain rfl := Option.some.inj (hlaunch.symm.trans hlaunch')
    obtain rfl := hkind.mpr htype
    refine ⟨ExtTreeMap.getElem?_insert_self, ?_⟩
    -- the row after the grant is the row that starting the server left
    have hrow : ∀ id grant, (started.addGrant id grant).child entry.name = started.child entry.name :=
      fun _ _ => rfl
    rw [hrow]
    cases hs with
    | joined child _ hshown hpresent =>
      refine ⟨hshown, .inl ⟨child, hpresent, ?_⟩⟩
      rw [Engine.child, server_setServer_self]
    | spawned command _ hshown hbuilt hchildless =>
      refine ⟨hshown, .inr ⟨hchildless, ?_, command, hbuilt, launched_origins _ entry command true⟩⟩
      rw [Engine.child, server_setServer_self]
      rfl

/-- **What is behind the grant of a shared server.**  An activation of an entry with an `executable`
    launch that succeeds returns the address that this entry declares, and a share of the child of
    its name.  If there was no child, it was started from this very entry; if there was one, it is
    that one, which an earlier activation of the run had started from an entry of the same name, when
    the user had agreed to what that entry launched. -/
theorem activate_backing {disk : Disk} {now brokerPid nextGrant : Nat} {operations : List Operation}
    (h : Transition.Run Step (Engine.new disk now brokerPid nextGrant) operations engine)
    {entry : Entry} {launch : Proto.Launch} (hlaunch : entry.card.launch = some launch)
    (htype : launch.launchType = .executable) {connection : Nat} {clientPid : Option Nat}
    {outcome : StartOutcome} {result : ActivateResult}
    (hok : (engine.activate entry connection clientPid outcome).1 = .ok result) :
    let engine' := (engine.activate entry connection clientPid outcome).2
    engine'.grants[result.grantId]? = some ⟨entry.name, connection, clientPid, .endpoint⟩ ∧
    sharedConnection entry = .ok result.connection ∧
    ∃ child origin command, engine'.child entry.name = some child ∧
      engine'.origins[child.process]? = some (origin, command) ∧
      spawnCommand origin false = .ok command ∧ origin.name = entry.name ∧
      StartedIn (Engine.new disk now brokerPid nextGrant)
        (operations ++ [.activate entry connection clientPid outcome]) child.process origin ∧
      (engine.child entry.name = none → origin = entry) ∧
      ∀ present, engine.child entry.name = some present → child = present := by
  intro engine'
  have hactivated := activate_activated engine entry connection clientPid outcome
  rw [hok] at hactivated
  have hrun : Transition.Run Step (Engine.new disk now brokerPid nextGrant)
      (operations ++ [.activate entry connection clientPid outcome]) engine' := .snoc h rfl
  obtain ⟨hgrant, hshown, hchild⟩ := hactivated.child_of_shared hlaunch htype
  refine ⟨hgrant, hshown, ?_⟩
  rcases hchild with ⟨child, hbefore, hafter⟩ | ⟨hbefore, hafter, command, hbuilt, horigins⟩
  · -- a share of the child that was there
    obtain ⟨origin, command, horigin, hname, hbuilt⟩ := backed_of_run hrun entry.name child hafter
    refine ⟨child, origin, command, hafter, horigin, hbuilt, hname,
      startedIn_of_run rfl hrun horigin, fun hnone => ?_, fun present hpresent => ?_⟩
    · rw [hbefore] at hnone
      simp at hnone
    · exact Option.some.inj (hbefore.symm.trans hpresent)
  · -- a child of its own making
    have horigin : engine'.origins[engine.nextChild.process]? = some (entry, command) := by
      rw [horigins, nextChild_process, List.getElem?_append_right (Nat.le_refl _)]
      simp
    refine ⟨engine.nextChild, entry, command, hafter, horigin, hbuilt, rfl,
      startedIn_of_run rfl hrun horigin, fun _ => rfl, fun present hpresent => ?_⟩
    rw [hbefore] at hpresent
    simp at hpresent

end Engine

theorem activate_backing_viewer : ∃ child origin command,
    (viewerEngine.activate (viewerEntry "viewer") 2 none working).2.child "com.example.viewer" =
      some child ∧
    (viewerEngine.activate (viewerEntry "viewer") 2 none working).2.origins[child.process]? =
      some (origin, command) ∧ origin.name = "com.example.viewer" := by
  have hrun : Transition.Run Engine.Step (Engine.new ⟨none, none⟩ 0 100 1)
      (approveAndActivate "viewer" 1) viewerEngine := .snoc (.snoc .start rfl) rfl
  have hok : (viewerEngine.activate (viewerEntry "viewer") 2 none working).1 =
      .ok ⟨"g100-2", ⟨"pipe", "viewer"⟩⟩ := by decide +kernel
  obtain ⟨launch, hlaunch, htype⟩ : ∃ launch, (viewerEntry "viewer").card.launch = some launch ∧
      launch.launchType = .executable := ⟨_, rfl, rfl⟩
  obtain ⟨-, -, child, origin, command, hchild, horigin, -, hname, -⟩ :=
    Engine.activate_backing hrun hlaunch htype hok
  exact ⟨child, origin, command, hchild, horigin, hname⟩

/-- The card of the running viewer comes to name another program, which is approved in its turn. -/
def reapproved : List Operation :=
  approveAndActivate "viewer" 1 ++
    [.decide "2026-01-02T00:00:00Z" "com.example.viewer"
      (.grant (viewerEntry "viewer2").launchHash "viewer2" .user) (.written ⟨2, 200⟩ true)]

/-- The client that then activates the entry is given a share of the process started from the first
    version of the card. -/
theorem activate_joins_old_child :
    let engine := reapproved.foldl Engine.perform (Engine.new ⟨none, none⟩ 0 100 1)
    let activated := engine.activate (viewerEntry "viewer2") 1 none working
    Transition.Run Engine.Step (Engine.new ⟨none, none⟩ 0 100 1) reapproved engine ∧
      activated.1 = .ok ⟨"g100-2", ⟨"pipe", "viewer"⟩⟩ ∧
      (viewerEntry "viewer").launchHash ≠ (viewerEntry "viewer2").launchHash ∧
      ∃ child, activated.2.child "com.example.viewer" = some child ∧
        (activated.2.origins.map fun o => o.1.launchHash)[child.process]? =
          some (viewerEntry "viewer").launchHash := by
  have hrun : Transition.Run Engine.Step (Engine.new ⟨none, none⟩ 0 100 1) reapproved
      (reapproved.foldl Engine.perform (Engine.new ⟨none, none⟩ 0 100 1)) :=
    .snoc (.snoc (.snoc .start rfl) rfl) rfl
  exact ⟨hrun, by decide +kernel, by decide +kernel, ⟨0⟩, by decide +kernel, by decide +kernel⟩

end McpLocator.Broker
