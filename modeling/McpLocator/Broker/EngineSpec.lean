import McpLocator.Broker.Activation

namespace McpLocator.Broker

open Std (ExtTreeMap)
open McpLocator.Proto

/-!
# What the engine's operations do

One lemma for each operation, from which the invariants of the engine are derived.

* `Started`, `Activated` — all that starting a server, and activating one, can do to the engine
  (`startStdio_started`, `attachShared_started`, `activate_activated`).
* `release_frame`, `retire_server_self` — a release removes the grant; what becomes of its server.
* `releaseAll_induction` — what releasing one grant preserves, releasing many does.
-/

namespace Engine

variable {engine : Engine}

/-! ### Rows and processes -/

@[simp] theorem server_setServer_self (engine : Engine) (name : String) (server : SharedServer) :
    (engine.setServer name server).server name = server := by
  simp [Engine.server, setServer]

theorem server_setServer_of_ne {name other : String} (h : other ≠ name) (server : SharedServer) :
    (engine.setServer name server).server other = engine.server other := by
  simp [Engine.server, setServer, ExtTreeMap.getElem?_insert, h.symm]

theorem setServer_setServer (engine : Engine) (name : String) (a b : SharedServer) :
    (engine.setServer name a).setServer name b = engine.setServer name b := by
  unfold setServer
  congr 1
  refine ExtTreeMap.ext_getElem? fun key => ?_
  rw [ExtTreeMap.getElem?_insert, ExtTreeMap.getElem?_insert, ExtTreeMap.getElem?_insert]
  split <;> rfl

@[simp] theorem shutdownAny_grants (engine : Engine) (child : Option Child) :
    (engine.shutdownAny child).grants = engine.grants := by
  cases child <;> rfl

@[simp] theorem shutdownAny_server (engine : Engine) (child : Option Child) (name : String) :
    (engine.shutdownAny child).server name = engine.server name := by
  cases child <;> rfl

/-- A row that is in the table is the server's row. -/
theorem server_of_getElem? {name : String} {server : SharedServer}
    (h : engine.shared[name]? = some server) : engine.server name = server := by
  simp [Engine.server, h]

theorem server_of_none {name : String} (h : engine.shared[name]? = none) :
    engine.server name = .absent := by
  simp [Engine.server, h]

/-- Rewriting the last element of a list. -/
theorem modify_length_append {α : Type} (l : List α) (x : α) (f : α → α) :
    (l ++ [x]).modify l.length f = l ++ [f x] := by
  induction l with
  | nil => rfl
  | cons y ys ih => simpa using ih

/-- Stopping a process that was just started. -/
theorem shutdown_last (engine : Engine) (p : Process) :
    ({ engine with processes := engine.processes ++ [p] } : Engine).shutdown
        ⟨engine.processes.length⟩ =
      { engine with processes := engine.processes ++ [{ p with running := false }] } := by
  unfold shutdown
  congr 1
  exact modify_length_append _ _ _

/-! ### Starting a server -/

/-- The engine with a process more. -/
def launched (engine : Engine) (entry : Entry) (command : Command) (running : Bool) : Engine :=
  { engine with processes := engine.processes ++ [{ entry, command, running }] }

/-- The child that the next process started becomes. -/
def nextChild (engine : Engine) : Child := ⟨engine.processes.length⟩

/-- What starting a server can come to. -/
inductive Started (engine : Engine) (entry : Entry) :
    Except ActivateError (GrantKind × ConnectionInfo) → Engine → Prop where
  /-- Nothing was done. -/
  | failed (e : ActivateError) : Started engine entry (.error e) engine
  /-- A process was started, but its pipes were missing and it was killed. -/
  | killed (e : ActivateError) (command : Command) (built : spawnCommand entry true = .ok command) :
      Started engine entry (.error e) (engine.launched entry command false)
  /-- The idle timer was cancelled, and then there was no child and none could be started. -/
  | unspawned (e : ActivateError) (childless : (engine.server entry.name).child = none) :
      Started engine entry (.error e)
        (engine.setServer entry.name
          { child := none, refcount := (engine.server entry.name).refcount, idleTimer := none })
  /-- A process for this grant alone. -/
  | stdio (command : Command) (info : ConnectionInfo) (built : spawnCommand entry true = .ok command) :
      Started engine entry (.ok (.stdio engine.nextChild, info)) (engine.launched entry command true)
  /-- A share of the child that is there. -/
  | joined (child : Child) (info : ConnectionInfo) (shown : sharedConnection entry = .ok info)
      (present : (engine.server entry.name).child = some child) :
      Started engine entry (.ok (.endpoint, info))
        (engine.setServer entry.name
          { child := some child, refcount := (engine.server entry.name).refcount + 1,
            idleTimer := none })
  /-- A share of a new child. -/
  | spawned (command : Command) (info : ConnectionInfo) (shown : sharedConnection entry = .ok info)
      (built : spawnCommand entry false = .ok command)
      (childless : (engine.server entry.name).child = none) :
      Started engine entry (.ok (.endpoint, info))
        ((engine.launched entry command true).setServer entry.name
          { child := some engine.nextChild, refcount := (engine.server entry.name).refcount + 1,
            idleTimer := none })

/-- What a spawn can come to. -/
theorem spawn_cases (engine : Engine) (entry : Entry) (piped : Bool) (spawned : Except String Unit) :
    (∃ e, engine.spawn entry piped spawned = (.error e, engine)) ∨
      ∃ command, spawnCommand entry piped = .ok command ∧
        engine.spawn entry piped spawned =
          (.ok engine.nextChild, engine.launched entry command true) := by
  unfold spawn
  cases hc : spawnCommand entry piped with
  | error e => exact .inl ⟨e, rfl⟩
  | ok command =>
    cases spawned with
    | error message => exact .inl ⟨_, rfl⟩
    | ok _ => exact .inr ⟨command, rfl, rfl⟩

theorem startStdio_started (engine : Engine) (entry : Entry) (outcome : StartOutcome) :
    Started engine entry (engine.startStdio entry outcome).1 (engine.startStdio entry outcome).2 := by
  unfold startStdio
  cases outcome.listener with
  | error message => exact .failed _
  | ok info =>
    rcases spawn_cases engine entry true outcome.spawned with ⟨e, hs⟩ | ⟨command, hbuilt, hs⟩
    · rw [hs]
      exact .failed e
    · -- a child without pipes is dropped, and dropping it kills it
      have hkilled : (engine.launched entry command true).shutdown engine.nextChild =
          engine.launched entry command false :=
        shutdown_last engine { entry, command, running := true }
      rw [hs]
      dsimp only
      rw [hkilled]
      by_cases hin : outcome.stdin = false
      · rw [if_pos hin]
        exact .killed _ command hbuilt
      · rw [if_neg hin]
        by_cases hout : outcome.stdout = false
        · rw [if_pos hout]
          exact .killed _ command hbuilt
        · rw [if_neg hout]
          exact .stdio command info hbuilt

theorem attachShared_started (engine : Engine) (entry : Entry) (outcome : StartOutcome) :
    Started engine entry (engine.attachShared entry outcome).1
      (engine.attachShared entry outcome).2 := by
  unfold attachShared
  cases hshown : sharedConnection entry with
  | error e => exact .failed e
  | ok info =>
    dsimp only
    cases hchild : (engine.server entry.name).child with
    | some child =>
      rw [setServer_setServer]
      exact .joined child info hshown hchild
    | none =>
      -- the row was entered, without its timer, before the spawn was tried
      rcases spawn_cases (engine.setServer entry.name
          { child := none, refcount := (engine.server entry.name).refcount, idleTimer := none })
          entry false outcome.spawned with ⟨e, hs⟩ | ⟨command, hbuilt, hs⟩
      · dsimp only
        rw [hs]
        exact .unspawned e hchild
      · -- the row is written twice, and the second write is all that is left of it
        have hrow : ((engine.setServer entry.name
            { child := none, refcount := (engine.server entry.name).refcount,
              idleTimer := none }).launched entry command true).setServer entry.name
                { child := some engine.nextChild,
                  refcount := (engine.server entry.name).refcount + 1, idleTimer := none } =
            (engine.launched entry command true).setServer entry.name
              { child := some engine.nextChild,
                refcount := (engine.server entry.name).refcount + 1, idleTimer := none } :=
          setServer_setServer (engine.launched entry command true) _ _ _
        dsimp only
        rw [hs]
        have hspawned : Started engine entry _ _ := .spawned command info hshown hbuilt hchild
        rw [← hrow] at hspawned
        exact hspawned

/-! ### Activation -/

/-- The engine once `evaluate` has been asked about an entry. -/
def consulted (engine : Engine) (entry : Entry) : Engine :=
  { engine with consent := (engine.consent.evaluate engine.disk entry.name entry.launchHash).2 }

/-- What `evaluate` answers about an entry. -/
def consentFor (engine : Engine) (entry : Entry) : ConsentRecord :=
  (engine.consent.evaluate engine.disk entry.name entry.launchHash).1

/-- The engine when it is about to start a server: consulted, and a grant id taken. -/
def ready (engine : Engine) (entry : Entry) : Engine :=
  { engine.consulted entry with nextGrant := engine.nextGrant + 1 }

/-- What an activation can come to. -/
inductive Activated (engine : Engine) (entry : Entry) (connection : Nat) (clientPid : Option Nat) :
    Except ActivateError ActivateResult → Engine → Prop where
  /-- Orphaned. -/
  | orphaned : entry.orphaned = true →
      Activated engine entry connection clientPid (.error (.orphaned entry.name)) engine
  /-- The user has not agreed, or the card has no launch stanza. -/
  | refused (e : ActivateError) :
      Activated engine entry connection clientPid (.error e) (engine.consulted entry)
  /-- The server could not be started. -/
  | notStarted (e : ActivateError) (engine' : Engine)
      (granted : (engine.consentFor entry).state = .granted)
      (started : Started (engine.ready entry) entry (.error e) engine') :
      Activated engine entry connection clientPid (.error e) engine'
  /-- The grant is made. -/
  | granted (kind : GrantKind) (info : ConnectionInfo) (engine' : Engine)
      (granted : (engine.consentFor entry).state = .granted)
      (kind_eq : ∃ launch, entry.card.launch = some launch ∧
        (kind = .endpoint ↔ launch.launchType = .executable))
      (started : Started (engine.ready entry) entry (.ok (kind, info)) engine') :
      Activated engine entry connection clientPid
        (.ok { grantId := grantId engine.brokerPid engine.nextGrant, connection := info })
        (engine'.addGrant (grantId engine.brokerPid engine.nextGrant)
          { name := entry.name, connection, clientPid, kind })

/-- A stdio launch never shares a child, an executable one always does. -/
theorem startStdio_kind {entry : Entry} {outcome : StartOutcome} {kind : GrantKind}
    {info : ConnectionInfo} (h : (engine.startStdio entry outcome).1 = .ok (kind, info)) :
    kind ≠ .endpoint := by
  unfold startStdio at h
  cases hl : outcome.listener with
  | error message => simp [hl] at h
  | ok address =>
    rw [hl] at h
    dsimp only at h
    rcases spawn_cases engine entry true outcome.spawned with ⟨e, hs⟩ | ⟨command, -, hs⟩
    · simp [hs] at h
    · rw [hs] at h
      dsimp only at h
      by_cases hin : outcome.stdin = false
      · simp [hin] at h
      · by_cases hout : outcome.stdout = false
        · simp [hin, hout] at h
        · rw [if_neg hin, if_neg hout] at h
          obtain ⟨rfl, -⟩ := Prod.mk.inj (Except.ok.inj h)
          simp

theorem attachShared_kind {entry : Entry} {outcome : StartOutcome} {kind : GrantKind}
    {info : ConnectionInfo} (h : (engine.attachShared entry outcome).1 = .ok (kind, info)) :
    kind = .endpoint := by
  unfold attachShared at h
  cases hshown : sharedConnection entry with
  | error e => simp [hshown] at h
  | ok address =>
    rw [hshown] at h
    dsimp only at h
    cases hchild : (engine.server entry.name).child with
    | some child =>
      simp only [hchild, Except.ok.injEq, Prod.mk.injEq] at h
      exact h.1.symm
    | none =>
      rw [hchild] at h
      dsimp only at h
      split at h
      · simp at h
      · simp only [Except.ok.injEq, Prod.mk.injEq] at h
        exact h.1.symm

/-- Whichever way a server was started, a grant is entered for it. -/
theorem enter_activated {entry : Entry} {connection : Nat} {clientPid : Option Nat} {launch : Launch}
    {started : Except ActivateError (GrantKind × ConnectionInfo) × Engine}
    (hgranted : (engine.consentFor entry).state = .granted)
    (hlaunch : entry.card.launch = some launch)
    (hkind : ∀ kind info, started.1 = .ok (kind, info) →
      (kind = .endpoint ↔ launch.launchType = .executable))
    (hs : Started (engine.ready entry) entry started.1 started.2) :
    Activated engine entry connection clientPid
      (enter started (grantId engine.brokerPid engine.nextGrant) entry.name connection clientPid).1
      (enter started (grantId engine.brokerPid engine.nextGrant) entry.name connection
        clientPid).2 := by
  obtain ⟨result, engine'⟩ := started
  cases result with
  | error e => exact .notStarted e engine' hgranted hs
  | ok shared =>
    obtain ⟨kind, info⟩ := shared
    exact .granted kind info engine' hgranted ⟨launch, hlaunch, hkind kind info rfl⟩ hs

theorem activate_activated (engine : Engine) (entry : Entry) (connection : Nat)
    (clientPid : Option Nat) (outcome : StartOutcome) :
    Activated engine entry connection clientPid
      (engine.activate entry connection clientPid outcome).1
      (engine.activate entry connection clientPid outcome).2 := by
  unfold activate
  by_cases horphaned : entry.orphaned = true
  · rw [if_pos horphaned]
    exact .orphaned horphaned
  · rw [if_neg horphaned]
    -- the answer of `evaluate`, under its name
    show Activated engine entry connection clientPid
      (if (engine.consentFor entry).state ≠ .granted then _ else _ : _ × Engine).1
      (if (engine.consentFor entry).state ≠ .granted then _ else _ : _ × Engine).2
    by_cases hgranted : (engine.consentFor entry).state = .granted
    · rw [if_neg (not_not.mpr hgranted)]
      cases hlaunch : entry.card.launch with
      | none => exact .refused _
      | some launch =>
        refine enter_activated hgranted hlaunch ?_ ?_
        -- the kind of the grant is the kind of the launch
        · intro kind info h
          cases htype : launch.launchType with
          | stdio =>
            rw [htype] at h
            simp [startStdio_kind h]
          | executable =>
            rw [htype] at h
            simp [attachShared_kind h]
        -- and the server was started in the way of that kind
        · cases launch.launchType with
          | stdio => exact startStdio_started (engine.ready entry) entry outcome
          | executable => exact attachShared_started (engine.ready entry) entry outcome
    · rw [if_pos hgranted]
      exact .refused _

/-! ### Release -/

theorem release_of_none {id : String} (h : engine.grants[id]? = none) :
    engine.release id = (false, engine) := by
  simp [release, h]

theorem release_of_some {id : String} {grant : Grant} (h : engine.grants[id]? = some grant) :
    engine.release id =
      (true, ({ engine with grants := engine.grants.erase id } : Engine).retire grant) := by
  simp [release, h]

/-- Letting go of a child of its own leaves every row alone. -/
theorem retire_server_stdio {grant : Grant} {child : Child} (h : grant.kind = .stdio child)
    (name : String) : (engine.retire grant).server name = engine.server name := by
  unfold retire
  rw [h]
  rfl

/-- Letting go of a share leaves the rows of other servers alone. -/
theorem retire_server_of_ne {grant : Grant} {name : String} (hne : name ≠ grant.name) :
    (engine.retire grant).server name = engine.server name := by
  unfold retire
  split
  · rfl
  · split
    · rfl
    · exact server_setServer_of_ne hne _

/-- A share that is counted is taken off the count. -/
theorem retire_server_self {grant : Grant} (h : grant.kind = .endpoint)
    (hcount : 0 < (engine.server grant.name).refcount) :
    (engine.retire grant).server grant.name =
      (engine.server grant.name).released engine.now := by
  unfold retire
  rw [h]
  cases hrow : engine.shared[grant.name]? with
  | none =>
    rw [server_of_none hrow] at hcount
    exact absurd hcount (by decide)
  | some server =>
    dsimp only
    rw [server_setServer_self, server_of_getElem? hrow]

/-- Only the rows, the processes and nothing else change when a grant is let go of. -/
theorem retire_frame (engine : Engine) (grant : Grant) :
    engine.retire grant = { engine with
      shared := (engine.retire grant).shared, processes := (engine.retire grant).processes } := by
  unfold retire
  split
  · rfl
  · split <;> rfl

theorem release_frame (engine : Engine) (id : String) :
    (engine.release id).2 = { engine with
      grants := engine.grants.erase id, shared := (engine.release id).2.shared,
      processes := (engine.release id).2.processes } := by
  cases h : engine.grants[id]? with
  | none =>
    -- erasing what is not there changes nothing
    have herase : engine.grants.erase id = engine.grants := by
      refine ExtTreeMap.ext_getElem? fun key => ?_
      rw [ExtTreeMap.getElem?_erase]
      split
      · rename_i heq
        rw [← Std.compare_eq_iff_eq.mp heq, h]
      · rfl
    rw [release_of_none h, herase]
  | some grant =>
    rw [release_of_some h, retire_frame]

/-- What releasing one grant preserves, releasing many does. -/
theorem releaseAll_induction {P : Engine → Prop} (h : P engine)
    (hrelease : ∀ (e : Engine) (id : String), P e → P (e.release id).2) (ids : List String) :
    P (engine.releaseAll ids) := by
  induction ids generalizing engine with
  | nil => exact h
  | cons id ids ih => exact ih (hrelease engine id h)

/-- After the releases the grants named are gone, and no others. -/
theorem releaseAll_getElem? (engine : Engine) (ids : List String) (key : String) :
    (engine.releaseAll ids).grants[key]? = if key ∈ ids then none else engine.grants[key]? := by
  induction ids generalizing engine with
  | nil => rfl
  | cons id ids ih =>
    show ((engine.release id).2.releaseAll ids).grants[key]? = _
    rw [ih, release_frame]
    dsimp only
    rw [ExtTreeMap.getElem?_erase]
    by_cases hmem : key ∈ ids
    · simp [hmem]
    · by_cases hid : id = key
      · simp [hid]
      · simp [hmem, hid, Ne.symm hid]

/-- The ids of the grants that satisfy `p`. -/
theorem mem_grantsWhere {p : Grant → Bool} {id : String} :
    id ∈ engine.grantsWhere p ↔ ∃ grant, engine.grants[id]? = some grant ∧ p grant = true := by
  simp only [grantsWhere, List.mem_map, List.mem_filter, Prod.exists, exists_and_right,
    exists_eq_right, ExtTreeMap.mem_toList_iff_getElem?_eq_some]

end Engine

end McpLocator.Broker
