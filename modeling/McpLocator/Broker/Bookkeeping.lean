import McpLocator.Broker.EngineSpec
import McpLocator.Lib.Run

namespace McpLocator.Broker

open Std (ExtTreeMap)
open McpLocator.Json

/-!
# Bookkeeping of shared servers

* `SharedServer.Steady` — a row with grants has a child and no timer; a child without grants has a
  timer; a timer has a child.
* `Bookkeeping` — every row is steady and counts the live shares of its server; grant ids in use were
  all taken from the counter.
* `Bookkeeping.perform` — every operation keeps it; `bookkeeping_of_run`.
-/

/-- The row of a server is settled between operations. -/
structure SharedServer.Steady (server : SharedServer) : Prop where
  serving : 0 < server.refcount → server.child.isSome = true ∧ server.idleTimer = none
  idle : server.child.isSome = true → server.refcount = 0 → server.idleTimer.isSome = true
  timed : server.idleTimer.isSome = true → server.child.isSome = true

theorem SharedServer.steady_absent : SharedServer.absent.Steady :=
  ⟨by simp [absent], by simp [absent], by simp [absent]⟩

/-- A row without child, grants or timer. -/
theorem SharedServer.steady_empty : SharedServer.Steady ⟨none, 0, none⟩ := steady_absent

/-- A grant arriving leaves a steady row. -/
theorem SharedServer.steady_joined (child : Child) (n : Nat) :
    SharedServer.Steady ⟨some child, n + 1, none⟩ :=
  ⟨fun _ => ⟨rfl, rfl⟩, fun _ h => absurd h (Nat.succ_ne_zero n), by simp⟩

/-- A grant leaving, too. -/
theorem SharedServer.Steady.released {server : SharedServer} (h : server.Steady)
    (hcount : 0 < server.refcount) (now : Nat) : (server.released now).Steady := by
  obtain ⟨hchild, htimer⟩ := h.serving hcount
  by_cases hrest : 0 < server.refcount - 1
  · -- others still hold a grant
    refine ⟨fun _ => ⟨hchild, ?_⟩, fun _ hzero => ?_, fun _ => hchild⟩
    · show (if 0 < server.refcount - 1 then server.idleTimer else _) = none
      rw [if_pos hrest]
      exact htimer
    · have : server.refcount - 1 = 0 := hzero
      omega
  · refine ⟨fun hpos => absurd hpos hrest, fun _ _ => ?_, fun _ => hchild⟩
    show (if 0 < server.refcount - 1 then server.idleTimer else some _).isSome = true
    rw [if_neg hrest]
    rfl

namespace Engine

/-- A grant on a share of `name`. -/
def isShare (name : String) (g : String × Grant) : Bool :=
  g.2.name == name && decide (g.2.kind = .endpoint)

/-- The number of live shares of a server. -/
def shareCount (engine : Engine) (name : String) : Nat :=
  TreeMap.count (isShare name) engine.grants

/-- Every row is steady and counts the live shares of its server, and every grant id in use was taken
    from the counter. -/
structure Bookkeeping (engine : Engine) : Prop where
  refcount_eq : ∀ name, (engine.server name).refcount = engine.shareCount name
  steady : ∀ name, (engine.server name).Steady
  taken : ∀ id grant, engine.grants[id]? = some grant →
    ∃ n < engine.nextGrant, id = grantId engine.brokerPid n

variable {engine : Engine}

/-- A live share is counted. -/
theorem Bookkeeping.refcount_pos (h : engine.Bookkeeping) {id : String} {grant : Grant}
    (hgrant : engine.grants[id]? = some grant) (hkind : grant.kind = .endpoint) :
    0 < (engine.server grant.name).refcount := by
  rw [h.refcount_eq, shareCount, TreeMap.count_pos_iff]
  exact ⟨id, grant, hgrant, by simp [isShare, hkind]⟩

/-! ### Operations that leave the tables alone -/

/-- The bookkeeping only looks at the tables and at the counter. -/
theorem Bookkeeping.of_tables {engine' : Engine} (h : engine.Bookkeeping)
    (hgrants : engine'.grants = engine.grants) (hshared : engine'.shared = engine.shared)
    (hpid : engine'.brokerPid = engine.brokerPid) (hnext : engine.nextGrant ≤ engine'.nextGrant) :
    engine'.Bookkeeping := by
  have hserver : ∀ name, engine'.server name = engine.server name := by
    intro name
    rw [Engine.server, Engine.server, hshared]
  refine ⟨fun name => ?_, fun name => ?_, fun id grant hg => ?_⟩
  · rw [hserver, h.refcount_eq, shareCount, shareCount, hgrants]
  · rw [hserver]
    exact h.steady name
  · rw [hgrants] at hg
    obtain ⟨n, hn, hid⟩ := h.taken id grant hg
    exact ⟨n, by omega, hpid ▸ hid⟩

/-- A row may be exchanged for a steady one with the same count. -/
theorem Bookkeeping.setServer (h : engine.Bookkeeping) {name : String} {server : SharedServer}
    (hcount : server.refcount = (engine.server name).refcount) (hsteady : server.Steady) :
    (engine.setServer name server).Bookkeeping := by
  refine ⟨fun other => ?_, fun other => ?_, h.taken⟩
  · show _ = engine.shareCount other
    by_cases hname : other = name
    · rw [hname, server_setServer_self, hcount, h.refcount_eq]
    · rw [server_setServer_of_ne hname, h.refcount_eq]
  · by_cases hname : other = name
    · rw [hname, server_setServer_self]
      exact hsteady
    · rw [server_setServer_of_ne hname]
      exact h.steady other

/-! ### Activation -/

theorem grantId_injective (pid : Nat) : Function.Injective (grantId pid) := by
  intro m n h
  have htail : ∀ k, grantId pid k = ("g" ++ toString pid ++ "-") ++ Nat.repr k := fun _ => rfl
  rw [htail, htail] at h
  exact Nat.repr_injective ((String.append_right_inj _).mp h)

/-- The id that the counter gives next is not in use. -/
theorem Bookkeeping.fresh (h : engine.Bookkeeping) :
    engine.grants[grantId engine.brokerPid engine.nextGrant]? = none := by
  by_contra hsome
  obtain ⟨grant, hg⟩ := Option.ne_none_iff_exists'.mp hsome
  obtain ⟨n, hn, hid⟩ := h.taken _ grant hg
  have := grantId_injective _ hid
  omega

/-- A grant of its own process does not concern the rows. -/
theorem shareCount_addGrant {id : String} {grant : Grant} (hfresh : engine.grants[id]? = none)
    (name : String) : (engine.addGrant id grant).shareCount name =
      engine.shareCount name + if isShare name (id, grant) then 1 else 0 :=
  TreeMap.count_insert _ _ hfresh

theorem Bookkeeping.consulted (h : engine.Bookkeeping) (entry : Entry) :
    (engine.consulted entry).Bookkeeping :=
  h.of_tables rfl rfl rfl (Nat.le_refl _)

theorem Bookkeeping.ready (h : engine.Bookkeeping) (entry : Entry) :
    (engine.ready entry).Bookkeeping :=
  h.of_tables rfl rfl rfl (Nat.le_succ _)

theorem Bookkeeping.launched (h : engine.Bookkeeping) (entry : Entry) (command : Command)
    (running : Bool) : (engine.launched entry command running).Bookkeeping :=
  h.of_tables rfl rfl rfl (Nat.le_refl _)

/-- A failed start keeps the books: a timer is cancelled only where there was no child. -/
theorem Bookkeeping.of_notStarted (h : engine.Bookkeeping) {entry : Entry} {e : ActivateError}
    {engine' : Engine} (hs : Started engine entry (.error e) engine') : engine'.Bookkeeping := by
  cases hs with
  | failed => exact h
  | killed _ command => exact h.launched entry command false
  | unspawned _ hchild =>
    -- without a child nothing holds a grant
    have hzero : (engine.server entry.name).refcount = 0 := by
      by_contra hpos
      have := ((h.steady entry.name).serving (Nat.pos_of_ne_zero hpos)).1
      rw [hchild] at this
      exact Bool.false_ne_true this
    refine h.setServer rfl ?_
    rw [hzero]
    exact SharedServer.steady_empty

/-- The ids in use are ids of the counter, with the new grant's among them. -/
theorem Bookkeeping.taken_insert (h : engine.Bookkeeping) {id : String} {grant : Grant}
    (htaken : ∃ n < engine.nextGrant, id = grantId engine.brokerPid n) {key : String} {g : Grant}
    (hg : (engine.grants.insert id grant)[key]? = some g) :
    ∃ n < engine.nextGrant, key = grantId engine.brokerPid n := by
  rw [ExtTreeMap.getElem?_insert] at hg
  split at hg
  · rename_i heq
    rw [← Std.compare_eq_iff_eq.mp heq]
    exact htaken
  · exact h.taken key g hg

/-- A row that gains a grant, together with the grant. -/
theorem Bookkeeping.addShare (h : engine.Bookkeeping) {id name : String} {grant : Grant}
    {child : Child} (hname : grant.name = name) (hkind : grant.kind = .endpoint)
    (hfresh : engine.grants[id]? = none)
    (htaken : ∃ n < engine.nextGrant, id = grantId engine.brokerPid n) :
    ((engine.setServer name ⟨some child, (engine.server name).refcount + 1, none⟩).addGrant id
      grant).Bookkeeping := by
  refine ⟨fun other => ?_, fun other => ?_, fun key g hg => ?_⟩
  -- the count: one more on the row, one more grant on it, nothing elsewhere
  · show (Engine.server (engine.setServer name _) other).refcount =
      (engine.addGrant id grant).shareCount other
    rw [shareCount_addGrant hfresh]
    by_cases hother : other = name
    · have hshare : isShare name (id, grant) = true := by simp [isShare, hname, hkind]
      rw [hother, server_setServer_self, ← h.refcount_eq, hshare]
      rfl
    · have hshare : isShare other (id, grant) = false := by
        simp [isShare, hname, Ne.symm hother]
      rw [server_setServer_of_ne hother, h.refcount_eq, hshare]
      rfl
  -- the row: a child, a positive count and no timer
  · show (Engine.server (engine.setServer name _) other).Steady
    by_cases hother : other = name
    · rw [hother, server_setServer_self]
      exact SharedServer.steady_joined _ _
    · rw [server_setServer_of_ne hother]
      exact h.steady other
  · exact h.taken_insert htaken hg

/-- A grant with a process of its own. -/
theorem Bookkeeping.addStdio (h : engine.Bookkeeping) {id : String} {grant : Grant}
    (hkind : grant.kind ≠ .endpoint) (hfresh : engine.grants[id]? = none)
    (htaken : ∃ n < engine.nextGrant, id = grantId engine.brokerPid n) :
    (engine.addGrant id grant).Bookkeeping := by
  refine ⟨fun name => ?_, h.steady, fun key g hg => ?_⟩
  · have hshare : isShare name (id, grant) = false := by simp [isShare, hkind]
    rw [shareCount_addGrant hfresh, hshare]
    exact h.refcount_eq name
  · exact h.taken_insert htaken hg

/-- Activating keeps the books. -/
theorem Bookkeeping.activated (h : engine.Bookkeeping) {entry : Entry} {connection : Nat}
    {clientPid : Option Nat} {result : Except ActivateError ActivateResult} {engine' : Engine}
    (ha : Activated engine entry connection clientPid result engine') : engine'.Bookkeeping := by
  cases ha with
  | orphaned => exact h
  | refused => exact h.consulted entry
  | notStarted _ _ _ hs => exact (h.ready entry).of_notStarted hs
  | granted kind info started _ _ hs =>
    have hfresh : (engine.ready entry).grants[grantId engine.brokerPid engine.nextGrant]? = none :=
      h.fresh
    have htaken : ∃ n < (engine.ready entry).nextGrant,
        grantId engine.brokerPid engine.nextGrant = grantId engine.brokerPid n :=
      ⟨engine.nextGrant, Nat.lt_succ_self _, rfl⟩
    cases hs with
    | stdio command =>
      exact ((h.ready entry).launched entry command true).addStdio (by simp) hfresh htaken
    | joined child => exact (h.ready entry).addShare rfl rfl hfresh htaken
    | spawned command =>
      exact ((h.ready entry).launched entry command true).addShare rfl rfl hfresh htaken

/-! ### Release -/

/-- Without a grant nothing can be counted. -/
theorem shareCount_erase {id : String} {grant : Grant} (hg : engine.grants[id]? = some grant)
    (name : String) : engine.shareCount name =
      TreeMap.count (isShare name) (engine.grants.erase id) +
        if isShare name (id, grant) then 1 else 0 :=
  TreeMap.count_erase _ hg

/-- What a release does to a row: the share of the grant, if it is one, goes from the row.  The grant
    is still in the table when `retire` looks, so the count is positive there. -/
theorem Bookkeeping.release_server (h : engine.Bookkeeping) {id : String} {grant : Grant}
    (hg : engine.grants[id]? = some grant) (name : String) :
    if isShare name (id, grant) then
      (engine.release id).2.server name = (engine.server name).released engine.now ∧
        0 < (engine.server name).refcount
    else (engine.release id).2.server name = engine.server name := by
  have hserver : (engine.release id).2.server name =
      (({ engine with grants := engine.grants.erase id } : Engine).retire grant).server name := by
    rw [release_of_some hg]
  rw [hserver]
  by_cases hkind : grant.kind = .endpoint
  · by_cases hname : name = grant.name
    · subst hname
      have hpos := h.refcount_pos hg hkind
      have hshare : isShare grant.name (id, grant) = true := by simp [isShare, hkind]
      rw [if_pos hshare]
      exact ⟨retire_server_self hkind hpos, hpos⟩
    · have hshare : isShare name (id, grant) = false := by simp [isShare, Ne.symm hname]
      rw [hshare]
      exact retire_server_of_ne hname
  · have hshare : isShare name (id, grant) = false := by simp [isShare, hkind]
    rw [hshare]
    cases hk : grant.kind with
    | stdio child => exact retire_server_stdio hk name
    | endpoint => exact absurd hk hkind

/-- Releasing a grant keeps the books. -/
theorem Bookkeeping.release (h : engine.Bookkeeping) (id : String) :
    (engine.release id).2.Bookkeeping := by
  cases hg : engine.grants[id]? with
  | none =>
    rw [release_of_none hg]
    exact h
  | some grant =>
    have hgrants : (engine.release id).2.grants = engine.grants.erase id := by
      rw [release_frame]
    have htaken : ∀ key g, (engine.release id).2.grants[key]? = some g →
        ∃ n < (engine.release id).2.nextGrant, key = grantId (engine.release id).2.brokerPid n := by
      intro key g hkey
      rw [hgrants, ExtTreeMap.getElem?_erase] at hkey
      rw [release_frame]
      split at hkey
      · simp at hkey
      · exact h.taken key g hkey
    -- the share goes from the count and from the row
    refine ⟨fun name => ?_, fun name => ?_, htaken⟩
    · have hcount := shareCount_erase hg name
      have hname := h.release_server hg name
      rw [shareCount, hgrants]
      split at hname
      · rename_i hshare
        rw [if_pos hshare] at hcount
        rw [hname.1]
        -- the subtraction does not saturate: the count includes the grant
        show (engine.server name).refcount - 1 = _
        rw [h.refcount_eq, hcount]
        omega
      · rename_i hshare
        rw [if_neg hshare] at hcount
        rw [hname, h.refcount_eq, hcount]
        rfl
    · have hname := h.release_server hg name
      split at hname
      · rw [hname.1]
        exact (h.steady name).released hname.2 _
      · rw [hname]
        exact h.steady name

theorem Bookkeeping.releaseAll (h : engine.Bookkeeping) (ids : List String) :
    (engine.releaseAll ids).Bookkeeping :=
  releaseAll_induction h (fun _ id he => he.release id) ids

/-! ### Stopping servers -/

theorem Bookkeeping.shutdownAny (h : engine.Bookkeeping) (child : Option Child) :
    (engine.shutdownAny child).Bookkeeping := by
  cases child with
  | none => exact h
  | some child => exact h.of_tables rfl rfl rfl (Nat.le_refl _)

/-- A server without grants may be stopped. -/
theorem Bookkeeping.stopShared (h : engine.Bookkeeping) {name : String} {server : SharedServer}
    (hrow : (engine.server name).refcount = 0) (hzero : server.refcount = 0) :
    (engine.stopShared name server).Bookkeeping := by
  refine (h.shutdownAny server.child).setServer ?_ ?_
  · rw [shutdownAny_server, hrow]
    exact hzero
  · rw [hzero]
    exact SharedServer.steady_empty

/-- Once the grants on a server are released its row counts none. -/
theorem Bookkeeping.refcount_released (h : engine.Bookkeeping) {name : String} {ids : List String}
    (hids : ∀ id, id ∈ ids ↔ id ∈ engine.grantsWhere fun g => g.name == name) :
    ((engine.releaseAll ids).server name).refcount = 0 := by
  by_contra hne
  rw [(h.releaseAll ids).refcount_eq, shareCount] at hne
  -- a positive count has a grant behind it, but every grant on the server is gone
  obtain ⟨id, grant, hg, hshare⟩ := (TreeMap.count_pos_iff _).mp (Nat.pos_of_ne_zero hne)
  simp only [isShare, Bool.and_eq_true] at hshare
  rw [releaseAll_getElem?] at hg
  split at hg
  · simp at hg
  · rename_i hmem
    exact hmem ((hids id).mpr (mem_grantsWhere.mpr ⟨grant, hg, hshare.1⟩))

theorem Bookkeeping.deactivate (h : engine.Bookkeeping) (order : IterationOrder) (name : String)
    (force : Bool) : (engine.deactivate order name force).2.Bookkeeping := by
  have hids : ∀ id, id ∈ order.1 (engine.grantsWhere fun g => g.name == name) ↔
      id ∈ engine.grantsWhere fun g => g.name == name := fun id => (order.2 _).mem_iff
  unfold Engine.deactivate
  dsimp only
  generalize order.1 (engine.grantsWhere fun g => g.name == name) = ids at hids
  split
  · exact h
  · cases hrow : (engine.releaseAll ids).shared[name]? with
    | none => exact h.releaseAll ids
    | some server => exact (h.releaseAll ids).stopShared (h.refcount_released hids) rfl

/-- Reaping a server without grants keeps the books and every count. -/
theorem Bookkeeping.reap (h : engine.Bookkeeping) {name : String}
    (hzero : (engine.server name).refcount = 0) : (engine.reap name).Bookkeeping ∧
      ∀ other, ((engine.reap name).server other).refcount = (engine.server other).refcount := by
  unfold Engine.reap
  cases hrow : engine.shared[name]? with
  | none => exact ⟨h, fun _ => rfl⟩
  | some server =>
    have hserver := server_of_getElem? hrow
    rw [hserver] at hzero
    refine ⟨h.stopShared (hserver ▸ hzero) hzero, fun other => ?_⟩
    dsimp only
    unfold Engine.stopShared
    by_cases hother : other = name
    · rw [hother, server_setServer_self, hserver]
    · rw [server_setServer_of_ne hother, shutdownAny_server]

theorem Bookkeeping.reapIdle (h : engine.Bookkeeping) (order : IterationOrder) :
    (engine.reapIdle order).Bookkeeping := by
  have hzero : ∀ name ∈ order.1 engine.expired, (engine.server name).refcount = 0 := by
    intro name hname
    rw [(order.2 _).mem_iff, expired, List.mem_map] at hname
    obtain ⟨⟨key, server⟩, hs, rfl⟩ := hname
    obtain ⟨hmem, hp⟩ := List.mem_filter.mp hs
    rw [server_of_getElem? (ExtTreeMap.mem_toList_iff_getElem?_eq_some.mp hmem)]
    simp only [Bool.and_eq_true, beq_iff_eq] at hp
    exact hp.1
  unfold Engine.reapIdle
  -- reaping one row leaves the counts of the others, so they stay at zero
  generalize order.1 engine.expired = names at hzero
  induction names generalizing engine with
  | nil => exact h
  | cons name names ih =>
    obtain ⟨hreap, hcounts⟩ := h.reap (hzero name List.mem_cons_self)
    refine ih hreap fun other hother => ?_
    rw [hcounts]
    exact hzero other (List.mem_cons_of_mem _ hother)

/-- A timer that runs out is still a timer. -/
theorem Bookkeeping.expire (h : engine.Bookkeeping) (name : String) :
    (engine.expire name).Bookkeeping := by
  unfold Engine.expire
  cases hrow : engine.shared[name]? with
  | none => exact h
  | some server =>
    have hserver := server_of_getElem? hrow
    have hsteady := h.steady name
    rw [hserver] at hsteady
    refine h.setServer (by rw [hserver]) ⟨fun hpos => ?_, fun hchild hzero => ?_, fun htimer => ?_⟩
    · obtain ⟨hchild, hnone⟩ := hsteady.serving hpos
      exact ⟨hchild, by simp [hnone]⟩
    · simpa using hsteady.idle hchild hzero
    · exact hsteady.timed (by simpa using htimer)

/-! ### Runs -/

/-- **Every operation keeps the books.** -/
theorem Bookkeeping.perform (h : engine.Bookkeeping) (operation : Operation) :
    (engine.perform operation).Bookkeeping := by
  cases operation with
  | activate entry connection clientPid outcome =>
    exact h.activated (activate_activated engine entry connection clientPid outcome)
  | release id => exact h.release id
  | releaseConnection order connection => exact h.releaseAll _
  | deactivate order name force => exact h.deactivate order name force
  | reapIdle order => exact h.reapIdle order
  | expire name => exact h.expire name
  | evaluate | decide | elapse | exit | outOfBand => exact h.of_tables rfl rfl rfl (Nat.le_refl _)

theorem bookkeeping_new (disk : Disk) (now brokerPid nextGrant : Nat) :
    (Engine.new disk now brokerPid nextGrant).Bookkeeping := by
  have hserver : ∀ name, (Engine.new disk now brokerPid nextGrant).server name = .absent := by
    intro name
    exact server_of_none (by simp [Engine.new])
  refine ⟨fun name => ?_, fun name => ?_, fun id grant hg => ?_⟩
  · rw [hserver]
    exact (TreeMap.count_empty _).symm
  · rw [hserver]
    exact SharedServer.steady_absent
  · simp [Engine.new] at hg

/-- One operation of the engine. -/
def Step (engine : Engine) (operation : Operation) (engine' : Engine) : Prop :=
  engine' = engine.perform operation

/-- Every state that the engine reaches keeps the books. -/
theorem bookkeeping_of_run {disk : Disk} {now brokerPid nextGrant : Nat}
    {operations : List Operation}
    (h : Transition.Run Step (Engine.new disk now brokerPid nextGrant) operations engine) :
    engine.Bookkeeping := by
  refine h.invariant (bookkeeping_new disk now brokerPid nextGrant) ?_
  rintro e operation _ he rfl
  exact he.perform operation

/-- **In every state that the engine reaches, the row of a server counts its live shares, so that
    none is released below zero; a row with shares has a child and no timer; an idle child has a
    timer; and a timer has a child.** -/
theorem shared_accounts {disk : Disk} {now brokerPid nextGrant : Nat} {operations : List Operation}
    (h : Transition.Run Step (Engine.new disk now brokerPid nextGrant) operations engine)
    (name : String) :
    let server := engine.server name
    (server.refcount = engine.shareCount name ∧
      ∀ (id : String) (grant : Grant), engine.grants[id]? = some grant → grant.kind = .endpoint →
        0 < (engine.server grant.name).refcount) ∧
    (0 < server.refcount → server.child.isSome = true ∧ server.idleTimer = none) ∧
    (server.child.isSome = true → server.refcount = 0 → server.idleTimer.isSome = true) ∧
    (server.idleTimer.isSome = true → server.child.isSome = true) := by
  have hbooks := bookkeeping_of_run h
  have hsteady := hbooks.steady name
  exact ⟨⟨hbooks.refcount_eq name, fun _ _ => hbooks.refcount_pos⟩, hsteady.serving, hsteady.idle,
    hsteady.timed⟩

end Engine

/-! ### A shared server -/

/-- The expanded card of a viewer that serves a pipe. -/
def viewerCard (program : String) : JsonValue :=
  ⟨.object [("description", .string "Viewer"),
    ("local", .object [
      ("endpoint", .object [("address", .string "viewer"), ("type", .string "pipe")]),
      ("launch", .object [("command", .string program), ("type", .string "executable")])]),
    ("name", .string "com.example.viewer"), ("version", .string "1.0.0")], by
      have houter : ["description", "local", "name", "version"].Pairwise (· < ·) := by decide
      have hlocal : ["endpoint", "launch"].Pairwise (· < ·) := by decide
      have hendpoint : ["address", "type"].Pairwise (· < ·) := by decide
      have hlaunch : ["command", "type"].Pairwise (· < ·) := by decide
      simp only [Value.wf_object, List.map_cons, List.map_nil, houter, hlocal, hendpoint, hlaunch,
        List.forall_mem_cons, true_and]
      simp [Value.wf]⟩

/-- Its catalog entry. -/
def viewerEntry (program : String) : Entry :=
  { name := "com.example.viewer"
    card := { name := "com.example.viewer", version := "1.0.0", description := "Viewer",
              title := none,
              localBlock := some { launch := some { launchType := .executable, command := program,
                                                    args := none, cwd := none, shared := none },
                                   endpoint := some { endpointType := .pipe, address := "viewer" },
                                   liveness := none, lifetime := none, consent := none },
              remotes := none }
    expanded := viewerCard program, version := "1.0.0", tier := .user,
    path := "com.example.viewer.card.json", orphaned := false, shadowed := [],
    launchHash := Proto.launchHash String.ofList (viewerCard program).1 }

/-- A machine on which every process can be started. -/
def working : StartOutcome :=
  { listener := .ok { transport := "pipe", address := "relay" }, spawned := .ok (), stdin := true,
    stdout := true }

/-- The user agrees to a program, which a client then activates. -/
def approveAndActivate (program : String) (modified : Nat) : List Operation :=
  [.decide "2026-01-01T00:00:00Z" "com.example.viewer"
      (.grant (viewerEntry program).launchHash program .user) (.written ⟨modified, 200⟩ true),
    .activate (viewerEntry program) 1 none working]

/-- The engine afterwards. -/
def viewerEngine : Engine :=
  (approveAndActivate "viewer" 1).foldl Engine.perform (Engine.new ⟨none, none⟩ 0 100 1)

theorem shared_accounts_viewer : 0 < (viewerEngine.server "com.example.viewer").refcount ∧
    (viewerEngine.server "com.example.viewer").child.isSome = true ∧
      (viewerEngine.server "com.example.viewer").idleTimer = none := by
  have hrun : Transition.Run Engine.Step (Engine.new ⟨none, none⟩ 0 100 1)
      (approveAndActivate "viewer" 1) viewerEngine := .snoc (.snoc .start rfl) rfl
  have hpos : 0 < (viewerEngine.server "com.example.viewer").refcount := by decide
  exact ⟨hpos, (Engine.shared_accounts hrun "com.example.viewer").2.1 hpos⟩

end McpLocator.Broker
