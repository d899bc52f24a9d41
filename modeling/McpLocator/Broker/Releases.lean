import McpLocator.Broker.Crashes
import McpLocator.Broker.Isolation

namespace McpLocator.Broker

open Std (ExtTreeMap)

/-!
# Releasing many grants

Grants are released one after the other, in the order in which a hash table yields their ids.

* `SharedServer.releasedTimes` — a row after several releases.
* `releaseAll_shared`, `releaseAll_processes` — what becomes of the rows and of the processes; only
  how many grants there are on a server counts, so the order does not matter (`releaseAll_perm`).
* `ConnectionReleased`, `release_connection_exact` — what the end of a connection comes to.
-/

/-! ### A row -/

/-- The row after `n` releases. -/
def SharedServer.releasedTimes (server : SharedServer) (now : Nat) : Nat → SharedServer
  | 0 => server
  | n + 1 => (server.released now).releasedTimes now n

/-- **Each release takes one reference, and the last one starts the timer.** -/
theorem SharedServer.releasedTimes_eq (server : SharedServer) (now n : Nat) :
    server.releasedTimes now n =
      { child := server.child
        refcount := server.refcount - n
        idleTimer := if n = 0 ∨ n < server.refcount then server.idleTimer
          else some { due := now + defaultIdleTimeout, finished := false } } := by
  induction n generalizing server with
  | zero => rfl
  | succ n ih =>
    rw [releasedTimes, ih]
    have hcount : (server.released now).refcount = server.refcount - 1 := rfl
    have htimer : (server.released now).idleTimer = if 0 < server.refcount - 1 then server.idleTimer
        else some { due := now + defaultIdleTimeout, finished := false } := rfl
    rw [hcount, htimer]
    congr 1
    · omega
    · by_cases hlast : n + 1 < server.refcount
      · rw [if_pos (by omega), if_pos (by omega), if_pos (by omega)]
      · by_cases hn : n = 0
        · rw [if_pos (by omega), if_neg (by omega), if_neg (by omega)]
        · rw [if_neg (by omega), if_neg (by omega)]

namespace Engine

variable {engine : Engine} {id name : String} {ids : List String}

/-! ### One release -/

/-- Whether the grant with an id is a share of a server. -/
def sharesOn (engine : Engine) (name id : String) : Bool :=
  engine.grants[id]?.any fun g => isShare name (id, g)

theorem release_shared (engine : Engine) (id name : String) : (engine.release id).2.shared[name]? =
    if engine.sharesOn name id then engine.shared[name]?.map (·.released engine.now)
    else engine.shared[name]? := by
  cases hg : engine.grants[id]? with
  | none => simp [release_of_none hg, sharesOn, hg]
  | some grant =>
    rw [release_of_some hg, retire, sharesOn, hg, Option.any_some]
    cases hkind : grant.kind with
    | stdio child => simp [isShare, hkind, shutdown]
    | endpoint =>
      have hshare : isShare name (id, grant) = decide (grant.name = name) := by
        simp [isShare, hkind, Bool.beq_eq_decide_eq]
      dsimp only
      rw [hshare]
      by_cases hname : grant.name = name
      · subst hname
        cases hrow : engine.shared[grant.name]? with
        | none => simp [hrow]
        | some server => simp [setServer]
      · cases hrow : engine.shared[grant.name]? with
        | none => simp [hname]
        | some server => simp [setServer, ExtTreeMap.getElem?_insert, hname]

theorem release_processes (engine : Engine) (id : String) :
    (engine.release id).2.processes = (engine.shutdownAny (engine.childOf (.grant id))).processes := by
  cases hg : engine.grants[id]? with
  | none =>
    rw [release_of_none hg, childOf, hg]
    rfl
  | some grant =>
    rw [release_of_some hg, retire, childOf_grant hg]
    cases grant.kind with
    | stdio child => rfl
    | endpoint =>
      dsimp only
      split <;> rfl

/-- A release concerns no other grant. -/
theorem release_grants_of_ne {key : String} (hne : key ≠ id) :
    (engine.release id).2.grants[key]? = engine.grants[key]? := by
  rw [release_frame]
  dsimp only
  rw [ExtTreeMap.getElem?_erase, if_neg]
  simpa using hne.symm

/-! ### Many releases -/

/-- Only the tables and the processes change. -/
theorem releaseAll_frame (engine : Engine) (ids : List String) : engine.releaseAll ids = { engine with
    grants := (engine.releaseAll ids).grants, shared := (engine.releaseAll ids).shared,
    processes := (engine.releaseAll ids).processes } := by
  induction ids generalizing engine with
  | nil => rfl
  | cons id ids ih =>
    refine (ih (engine.release id).2).trans ?_
    congr 1 <;> rw [release_frame]

/-- **A row loses a reference for each share of its server among the grants released.** -/
theorem releaseAll_shared (engine : Engine) (hnd : ids.Nodup) (name : String) :
    (engine.releaseAll ids).shared[name]? = engine.shared[name]?.map
      (·.releasedTimes engine.now (ids.countP (engine.sharesOn name))) := by
  induction ids generalizing engine with
  | nil => simp [releaseAll, SharedServer.releasedTimes]
  | cons id ids ih =>
    obtain ⟨hid, hnd⟩ := List.nodup_cons.mp hnd
    have hcount : ids.countP ((engine.release id).2.sharesOn name) =
        ids.countP (engine.sharesOn name) := by
      refine List.countP_congr fun key hkey => ?_
      have hne : key ≠ id := fun heq => hid (heq ▸ hkey)
      rw [sharesOn, sharesOn, release_grants_of_ne hne]
    have hnow : (engine.release id).2.now = engine.now := by rw [release_frame]
    show ((engine.release id).2.releaseAll ids).shared[name]? = _
    rw [ih _ hnd, hcount, hnow, release_shared, List.countP_cons]
    split
    · rw [Option.map_map]
      rfl
    · rfl

/-- A release leaves the children of the other grants. -/
theorem release_childOf_of_ne {key : String} (hne : key ≠ id) :
    (engine.release id).2.childOf (.grant key) = engine.childOf (.grant key) := by
  rw [childOf, childOf, release_grants_of_ne hne]

/-- Stopping a process. -/
theorem shutdownAny_getElem? (engine : Engine) (child : Option Child) (i : Nat) :
    (engine.shutdownAny child).processes[i]? = engine.processes[i]?.map fun p =>
      { p with running := p.running && !decide (child = some ⟨i⟩) } := by
  cases child with
  | none => simp [shutdownAny]
  | some child =>
    obtain ⟨k⟩ := child
    show (engine.processes.modify k _)[i]? = _
    rw [List.getElem?_modify]
    by_cases hk : k = i
    · simp [hk]
    · simp [hk]

/-- **The processes of the grants released are stopped.** -/
theorem releaseAll_processes (engine : Engine) (hnd : ids.Nodup) (i : Nat) :
    (engine.releaseAll ids).processes[i]? = engine.processes[i]?.map fun p =>
      { p with running := p.running &&
        !ids.any fun id => decide (engine.childOf (.grant id) = some ⟨i⟩) } := by
  induction ids generalizing engine with
  | nil => simp [releaseAll]
  | cons id ids ih =>
    obtain ⟨hid, hnd⟩ := List.nodup_cons.mp hnd
    have hany : (ids.any fun key => decide ((engine.release id).2.childOf (.grant key) = some ⟨i⟩)) =
        ids.any fun key => decide (engine.childOf (.grant key) = some ⟨i⟩) := by
      rw [Bool.eq_iff_iff, List.any_eq_true, List.any_eq_true]
      refine exists_congr fun key => and_congr_right fun hkey => ?_
      have hne : key ≠ id := fun heq => hid (heq ▸ hkey)
      rw [release_childOf_of_ne hne]
    show ((engine.release id).2.releaseAll ids).processes[i]? = _
    rw [ih _ hnd, hany, release_processes, shutdownAny_getElem?, Option.map_map]
    simp only [Function.comp_def, List.any_cons, Bool.not_or, Bool.and_assoc]

/-! ### The order of the releases -/

/-- Every grant has an id of its own. -/
theorem nodup_grantsWhere (engine : Engine) (p : Grant → Bool) : (engine.grantsWhere p).Nodup := by
  have hkeys : (engine.grants.toList.map Prod.fst).Nodup := by
    rw [ExtTreeMap.map_fst_toList_eq_keys]
    exact ExtTreeMap.nodup_keys
  exact hkeys.sublist (List.filter_sublist.map _)

/-- **The order in which grants are released does not matter.** -/
theorem releaseAll_perm (engine : Engine) {ids ids' : List String} (hnd : ids.Nodup)
    (hperm : ids.Perm ids') : engine.releaseAll ids = engine.releaseAll ids' := by
  have hnd' := hperm.nodup_iff.mp hnd
  have hgrants : (engine.releaseAll ids).grants = (engine.releaseAll ids').grants := by
    refine ExtTreeMap.ext_getElem? fun key => ?_
    simp only [releaseAll_getElem?, hperm.mem_iff]
  have hshared : (engine.releaseAll ids).shared = (engine.releaseAll ids').shared := by
    refine ExtTreeMap.ext_getElem? fun name => ?_
    rw [releaseAll_shared engine hnd, releaseAll_shared engine hnd', hperm.countP_eq]
  have hprocesses : (engine.releaseAll ids).processes = (engine.releaseAll ids').processes := by
    refine List.ext_getElem? fun i => ?_
    rw [releaseAll_processes engine hnd, releaseAll_processes engine hnd', hperm.any_eq]
  rw [releaseAll_frame engine ids, releaseAll_frame engine ids', hgrants, hshared, hprocesses]

/-- A process that belongs to none of the grants released is left alone. -/
theorem releaseAll_spared (howned : engine.Owned) (hnd : ids.Nodup) {owner : Owner}
    (hne : ∀ id ∈ ids, owner ≠ .grant id) {child : Child} (hchild : engine.childOf owner = some child) :
    (engine.releaseAll ids).processes[child.process]? = engine.processes[child.process]? := by
  have hnone : (ids.any fun id => decide (engine.childOf (.grant id) = some ⟨child.process⟩)) =
      false := by
    refine List.any_eq_false.mpr fun id hid heq => ?_
    exact hne id hid (howned.unique _ _ child hchild (of_decide_eq_true heq))
  rw [releaseAll_processes engine hnd, hnone]
  simp

/-- The process of a grant released is stopped. -/
theorem releaseAll_not_alive (hnd : ids.Nodup) {id : String} (hid : id ∈ ids) {child : Child}
    (hchild : engine.childOf (.grant id) = some child) :
    (engine.releaseAll ids).alive child = false := by
  have hany : (ids.any fun id => decide (engine.childOf (.grant id) = some ⟨child.process⟩)) =
      true := List.any_eq_true.mpr ⟨id, hid, decide_eq_true hchild⟩
  rw [alive, releaseAll_processes engine hnd, hany]
  cases engine.processes[child.process]? <;> simp

/-! ### The end of a connection -/

/-- How many shares of a server a connection holds. -/
def heldShares (engine : Engine) (connection : Nat) (name : String) : Nat :=
  TreeMap.count (fun g => isShare name g && g.2.connection == connection) engine.grants

theorem heldShares_le (engine : Engine) (connection : Nat) (name : String) :
    engine.heldShares connection name ≤ engine.shareCount name := by
  refine List.countP_mono_left fun g _ hg => ?_
  exact (Bool.and_eq_true_iff.mp hg).1

/-- The shares among some grants. -/
theorem countP_grantsWhere (engine : Engine) (p : Grant → Bool) (name : String) :
    (engine.grantsWhere p).countP (engine.sharesOn name) =
      TreeMap.count (fun g => isShare name g && p g.2) engine.grants := by
  rw [grantsWhere, List.countP_map, List.countP_filter, TreeMap.count]
  refine List.countP_congr fun g hg => ?_
  have hfound := ExtTreeMap.mem_toList_iff_getElem?_eq_some.mp hg
  simp [sharesOn, hfound]

theorem nodup_order (engine : Engine) (order : IterationOrder) (p : Grant → Bool) :
    (order.1 (engine.grantsWhere p)).Nodup :=
  (order.2 _).nodup_iff.mpr (nodup_grantsWhere engine p)

/-- The row of a server loses the references of the connection. -/
theorem Bookkeeping.releaseConnection_server (h : engine.Bookkeeping) (order : IterationOrder)
    (connection : Nat) (name : String) : (engine.releaseConnection order connection).server name =
      (engine.server name).releasedTimes engine.now (engine.heldShares connection name) := by
  have hcount : (order.1 (engine.grantsWhere fun g => g.connection == connection)).countP
      (engine.sharesOn name) = engine.heldShares connection name := by
    rw [(order.2 _).countP_eq, countP_grantsWhere]
    rfl
  rw [Engine.server, releaseConnection, releaseAll_shared engine (nodup_order engine order _), hcount]
  cases hrow : engine.shared[name]? with
  | some server =>
    rw [server_of_getElem? hrow]
    rfl
  | none =>
    -- where there is no row there is no share
    have hheld : engine.heldShares connection name = 0 := by
      have hle := engine.heldShares_le connection name
      rw [← h.refcount_eq, server_of_none hrow] at hle
      exact Nat.le_zero.mp hle
    rw [server_of_none hrow, hheld]
    rfl

/-- What is left of an engine when a connection has ended. -/
structure ConnectionReleased (engine : Engine) (connection : Nat) (engine' : Engine) : Prop where
  /-- The grants of the connection are gone, and no others. -/
  grants_eq : ∀ id : String,
    engine'.grants[id]? = engine.grants[id]?.filter (·.connection != connection)
  /-- Their processes are stopped. -/
  stopped : ∀ (id : String) (grant : Grant) (child : Child), engine.grants[id]? = some grant →
    grant.connection = connection → grant.kind = .stdio child → engine'.alive child = false
  /-- The processes of the other grants are not. -/
  isolated : Isolated connection engine engine'
  /-- Neither are those of the shared servers. -/
  serving : ∀ name child, engine.child name = some child →
    engine'.child name = some child ∧
      engine'.processes[child.process]? = engine.processes[child.process]?
  /-- A shared server loses the references that the connection held. -/
  refcount_eq : ∀ name, (engine'.server name).refcount + engine.heldShares connection name =
    (engine.server name).refcount
  /-- It gets a timer exactly if these were the last. -/
  idleTimer_eq : ∀ name, (engine'.server name).idleTimer =
    if 0 < engine.heldShares connection name ∧ (engine'.server name).refcount = 0 then
      some { due := engine.now + defaultIdleTimeout, finished := false }
    else (engine.server name).idleTimer

theorem Bookkeeping.connectionReleased (h : engine.Bookkeeping) (howned : engine.Owned)
    (order : IterationOrder) (connection : Nat) :
    ConnectionReleased engine connection (engine.releaseConnection order connection) := by
  have hnd := nodup_order engine order fun g => g.connection == connection
  have hmem : ∀ id, id ∈ order.1 (engine.grantsWhere fun g => g.connection == connection) ↔
      ∃ grant, engine.grants[id]? = some grant ∧ grant.connection = connection := by
    intro id
    rw [(order.2 _).mem_iff, mem_grantsWhere]
    simp
  have hrow := h.releaseConnection_server order connection
  have hheld : ∀ name, engine.heldShares connection name ≤ (engine.server name).refcount := by
    intro name
    rw [h.refcount_eq]
    exact engine.heldShares_le connection name
  constructor
  case grants_eq =>
    intro id
    rw [releaseConnection, releaseAll_getElem?]
    cases hg : engine.grants[id]? with
    | none => simp
    | some grant =>
      by_cases hc : grant.connection = connection
      · simp [hmem, hg, hc, Option.filter]
      · simp [hmem, hg, hc, Option.filter]
  case stopped =>
    intro id grant child hg hc hkind
    have hchild : engine.childOf (.grant id) = some child := by
      rw [childOf_grant hg, hkind]
      rfl
    exact releaseAll_not_alive hnd ((hmem id).mpr ⟨grant, hg, hc⟩) hchild
  case isolated =>
    intro id grant hg hc
    exact kept_releaseConnection howned hg order hc
  case serving =>
    intro name child hchild
    have hne : ∀ id ∈ order.1 (engine.grantsWhere fun g => g.connection == connection),
        Owner.row name ≠ .grant id := by simp
    refine ⟨?_, releaseAll_spared howned hnd hne hchild⟩
    rw [Engine.child, hrow, SharedServer.releasedTimes_eq]
    exact hchild
  case refcount_eq =>
    intro name
    rw [hrow, SharedServer.releasedTimes_eq]
    exact Nat.sub_add_cancel (hheld name)
  case idleTimer_eq =>
    intro name
    have := hheld name
    rw [hrow, SharedServer.releasedTimes_eq]
    dsimp only
    by_cases hlast : engine.heldShares connection name = 0 ∨
        engine.heldShares connection name < (engine.server name).refcount
    · rw [if_pos hlast, if_neg (by omega)]
    · rw [if_neg hlast, if_pos (by omega)]

/-- A connection without grants has nothing to release. -/
theorem releaseConnection_of_none {connection : Nat}
    (h : ∀ (id : String) (grant : Grant), engine.grants[id]? = some grant →
      grant.connection ≠ connection)
    (order : IterationOrder) : engine.releaseConnection order connection = engine := by
  have hnone : engine.grantsWhere (fun g => g.connection == connection) = [] := by
    refine List.eq_nil_iff_forall_not_mem.mpr fun id hid => ?_
    obtain ⟨grant, hg, hc⟩ := mem_grantsWhere.mp hid
    exact h id grant hg (by simpa using hc)
  have hperm := order.2 (engine.grantsWhere fun g => g.connection == connection)
  rw [releaseConnection, hnone] at *
  rw [hperm.eq_nil]
  rfl

/-- **The end of a connection.**  In every state that the engine reaches, it takes exactly the grants
    of the connection, stops the processes that were theirs alone, and takes from each shared server
    the references that the connection held; in whatever order, and once. -/
theorem release_connection_exact {disk : Disk} {now brokerPid nextGrant : Nat}
    {operations : List Operation}
    (h : Transition.Run Step (Engine.new disk now brokerPid nextGrant) operations engine)
    (order order' : IterationOrder) (connection : Nat) :
    ConnectionReleased engine connection (engine.releaseConnection order connection) ∧
      engine.releaseConnection order' connection = engine.releaseConnection order connection ∧
      (engine.releaseConnection order connection).releaseConnection order' connection =
        engine.releaseConnection order connection := by
  have hreleased := (bookkeeping_of_run h).connectionReleased (owned_of_run h) order connection
  refine ⟨hreleased, ?_, releaseConnection_of_none (fun id grant hg => ?_) order'⟩
  · exact releaseAll_perm engine (nodup_order engine order' _) ((order'.2 _).trans (order.2 _).symm)
  · rw [hreleased.grants_eq, Option.filter_eq_some_iff] at hg
    simpa using hg.2

end Engine

/-- The one connection of the viewer ends: nobody is left, and the timer starts. -/
theorem release_connection_viewer :
    (viewerEngine.releaseConnection tableOrder 1).grants["g100-1"]? = none ∧
      ((viewerEngine.releaseConnection tableOrder 1).server "com.example.viewer").idleTimer =
        some { due := defaultIdleTimeout, finished := false } := by
  have hrun : Transition.Run Engine.Step (Engine.new ⟨none, none⟩ 0 100 1)
      (approveAndActivate "viewer" 1) viewerEngine := .snoc (.snoc .start rfl) rfl
  obtain ⟨hreleased, -, -⟩ := Engine.release_connection_exact hrun tableOrder tableOrder 1
  have hheld : viewerEngine.heldShares 1 "com.example.viewer" = 1 := by decide
  have hcount : (viewerEngine.server "com.example.viewer").refcount = 1 := by decide
  have hnow : viewerEngine.now = 0 := by decide
  refine ⟨?_, ?_⟩
  · rw [hreleased.grants_eq]
    decide
  · have hzero := hreleased.refcount_eq "com.example.viewer"
    rw [hreleased.idleTimer_eq, if_pos ⟨by omega, by omega⟩, hnow, Nat.zero_add]

end McpLocator.Broker
