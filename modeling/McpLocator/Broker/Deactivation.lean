import McpLocator.Broker.Processes
import McpLocator.Broker.Releases

namespace McpLocator.Broker

open Std (ExtTreeMap)

/-!
# Stopping one server

* `Deactivated` — what is left of an engine when a server has been stopped outright.
* `deactivate_exact` — a deactivation that goes through stops exactly one server; one that is refused
  names a holder for each grant, and changes nothing.
-/

namespace Engine

variable {engine : Engine} {name : String}

/-- The grants on a server. -/
theorem mem_grantsOn (order : IterationOrder) {id : String} :
    id ∈ order.1 (engine.grantsWhere fun g => g.name == name) ↔
      ∃ grant, engine.grants[id]? = some grant ∧ grant.name = name := by
  rw [(order.2 _).mem_iff, mem_grantsWhere]
  simp

theorem length_grantsOn (engine : Engine) (order : IterationOrder) (name : String) :
    (order.1 (engine.grantsWhere fun g => g.name == name)).length = engine.grantCount name := by
  rw [(order.2 _).length_eq, grantsWhere, List.length_map, ← List.countP_eq_length_filter]
  rfl

/-- The texts of the holders, in the order in which the table is iterated. -/
theorem holderTexts_eq (engine : Engine) (order : IterationOrder) (p : Grant → Bool) :
    ((order.1 (engine.grantsWhere p)).filterMap fun id => engine.grants[id]?.map holderText).Perm
      ((engine.grants.toList.filter fun g => p g.2).map fun g => holderText g.2) := by
  refine ((order.2 _).filterMap _).trans ?_
  rw [grantsWhere, List.filterMap_map, ← List.filterMap_eq_map]
  refine .of_eq (List.filterMap_congr fun g hg => ?_)
  have hfound := ExtTreeMap.mem_toList_iff_getElem?_eq_some.mp (List.mem_filter.mp hg).1
  simp [hfound]

/-- The refusal names a holder for each grant. -/
theorem length_holders (engine : Engine) (order : IterationOrder) (name : String) :
    ((order.1 (engine.grantsWhere fun g => g.name == name)).filterMap fun id =>
      engine.grants[id]?.map holderText).length = engine.grantCount name := by
  rw [(holderTexts_eq engine order _).length_eq, List.length_map, ← List.countP_eq_length_filter]
  rfl

/-- A server has been stopped, and no other one. -/
structure Deactivated (engine : Engine) (name : String) (engine' : Engine) : Prop where
  /-- The grants on the server are gone, and no others. -/
  grants_eq : ∀ id : String, engine'.grants[id]? = engine.grants[id]?.filter (·.name != name)
  /-- Its row counts no reference, and has no child and no timer. -/
  row_eq : engine'.server name = .absent
  /-- No process that was started for the server runs. -/
  stopped : ∀ p ∈ engine'.processes, p.entry.name = name → p.running = false
  /-- The other rows are as they were. -/
  shared_eq : ∀ other : String, other ≠ name → engine'.shared[other]? = engine.shared[other]?
  /-- So are the processes of the other servers. -/
  spared : ∀ (i : Nat) (p : Process), engine.processes[i]? = some p → p.entry.name ≠ name →
    engine'.processes[i]? = some p

/-- A deactivation that is not refused releases the grants on the server, and clears the row if there
    is one. -/
theorem deactivate_cases (order : IterationOrder) {force : Bool}
    (h : force = true ∨ engine.grantCount name = 0) :
    let released := engine.releaseAll (order.1 (engine.grantsWhere fun g => g.name == name))
    (released.shared[name]? = none ∧
        engine.deactivate order name force = (.ok (engine.grantCount name), released)) ∨
      ∃ server, released.shared[name]? = some server ∧
        engine.deactivate order name force =
          (.ok (engine.grantCount name), released.stopShared name { server with refcount := 0 }) := by
  have hlength := length_holders engine order name
  unfold deactivate
  dsimp only
  rw [if_neg, length_grantsOn]
  · split
    · rename_i hrow
      exact .inl ⟨hrow, rfl⟩
    · rename_i server hrow
      exact .inr ⟨server, hrow, rfl⟩
  · rintro ⟨hholders, rfl⟩
    have hzero := h.resolve_left Bool.false_ne_true
    exact hholders (List.length_eq_zero_iff.mp (hlength.trans hzero))

/-- A share of one server is none of another. -/
theorem sharesOn_grantsOn (order : IterationOrder) {other : String} (hne : other ≠ name) :
    (order.1 (engine.grantsWhere fun g => g.name == name)).countP (engine.sharesOn other) = 0 := by
  refine List.countP_eq_zero.mpr fun id hid hshare => ?_
  obtain ⟨grant, hg, hname⟩ := (mem_grantsOn order).mp hid
  rw [sharesOn, hg, Option.any_some, isShare, Bool.and_eq_true] at hshare
  exact hne ((beq_iff_eq.mp hshare.1).symm.trans hname)

/-- The releases leave the processes of other servers alone. -/
theorem Supervised.spared_of_releases (h : engine.Supervised) (order : IterationOrder) {i : Nat}
    {p : Process} (hp : engine.processes[i]? = some p) (hne : p.entry.name ≠ name) :
    (engine.releaseAll (order.1 (engine.grantsWhere fun g => g.name == name))).processes[i]? =
      some p := by
  have hnone : ((order.1 (engine.grantsWhere fun g => g.name == name)).any fun id =>
      decide (engine.childOf (.grant id) = some ⟨i⟩)) = false := by
    refine List.any_eq_false.mpr fun id hid hchild => ?_
    obtain ⟨grant, hg, hname⟩ := (mem_grantsOn order).mp hid
    -- the process of a grant was started for the server that the grant is on
    have hserves := h.serves_eq (of_decide_eq_true hchild) hp
    rw [serves, hg] at hserves
    exact hne ((Option.some.inj hserves).symm.trans hname)
  rw [releaseAll_processes engine (nodup_order engine order _), hnone, hp]
  simp

/-- The releases leave a row without references, or none. -/
theorem deactivate_row (order : IterationOrder) {force : Bool}
    (h : force = true ∨ engine.grantCount name = 0) :
    (engine.deactivate order name force).2.server name = .absent := by
  rcases deactivate_cases order h with ⟨hrow, heq⟩ | ⟨server, -, heq⟩
  · rw [heq]
    exact server_of_none hrow
  · rw [heq, stopShared, server_setServer_self]
    rfl

theorem deactivate_grants (order : IterationOrder) {force : Bool}
    (h : force = true ∨ engine.grantCount name = 0) (id : String) :
    (engine.deactivate order name force).2.grants[id]? =
      engine.grants[id]?.filter (·.name != name) := by
  have hgrants : (engine.deactivate order name force).2.grants =
      (engine.releaseAll (order.1 (engine.grantsWhere fun g => g.name == name))).grants := by
    rcases deactivate_cases order h with ⟨-, heq⟩ | ⟨server, -, heq⟩
    · rw [heq]
    · rw [heq]
      exact shutdownAny_grants _ _
  rw [hgrants, releaseAll_getElem?]
  cases hg : engine.grants[id]? with
  | none => simp
  | some grant =>
    by_cases hname : grant.name = name
    · simp [mem_grantsOn, hg, hname, Option.filter]
    · simp [mem_grantsOn, hg, hname, Option.filter]

theorem deactivate_shared (order : IterationOrder) {force : Bool}
    (h : force = true ∨ engine.grantCount name = 0) {other : String} (hne : other ≠ name) :
    (engine.deactivate order name force).2.shared[other]? = engine.shared[other]? := by
  have hreleased :
      (engine.releaseAll (order.1 (engine.grantsWhere fun g => g.name == name))).shared[other]? =
        engine.shared[other]? := by
    rw [releaseAll_shared engine (nodup_order engine order _), sharesOn_grantsOn order hne]
    simp [SharedServer.releasedTimes]
  rcases deactivate_cases order h with ⟨-, heq⟩ | ⟨server, -, heq⟩
  · rw [heq]
    exact hreleased
  · rw [heq, ← hreleased]
    -- the row that is cleared is another one
    show (ExtTreeMap.insert _ _ _)[other]? = _
    rw [ExtTreeMap.getElem?_insert, if_neg (by simpa using hne.symm)]
    cases server.child <;> rfl

theorem Supervised.spared_of_deactivate (h : engine.Supervised) (order : IterationOrder) {force : Bool}
    (hforce : force = true ∨ engine.grantCount name = 0) {i : Nat} {p : Process}
    (hp : engine.processes[i]? = some p) (hne : p.entry.name ≠ name) :
    (engine.deactivate order name force).2.processes[i]? = some p := by
  have hreleased := h.spared_of_releases order hp hne
  rcases deactivate_cases order hforce with ⟨-, heq⟩ | ⟨server, hrow, heq⟩
  · rw [heq]
    exact hreleased
  · rw [heq]
    show (Engine.shutdownAny _ server.child).processes[i]? = some p
    -- the child of the row was started for the server of the row
    have hchild : server.child ≠ some ⟨i⟩ := by
      intro hchild
      have hrow' : (engine.releaseAll
          (order.1 (engine.grantsWhere fun g => g.name == name))).childOf (.row name) = some ⟨i⟩ := by
        rw [childOf, Engine.child, server_of_getElem? hrow, hchild]
      have hserves := h.serves_eq ((quiet_releaseAll engine _).childOf_eq hrow') hp
      exact hne (Option.some.inj hserves).symm
    exact (shutdownAny_processes server.child hchild).trans hreleased

/-- **A deactivation that is not refused stops one server.** -/
theorem Supervised.deactivated (h : engine.Supervised) (order : IterationOrder) {force : Bool}
    (hforce : force = true ∨ engine.grantCount name = 0) :
    Deactivated engine name (engine.deactivate order name force).2 := by
  have hafter := h.settles (settles_deactivate engine order name force)
  refine ⟨deactivate_grants order hforce, deactivate_row order hforce, fun p hp hname => ?_,
    fun _ => deactivate_shared order hforce, fun _ _ => h.spared_of_deactivate order hforce⟩
  -- a process that runs has an owner, and nothing is left that could own one for this server
  by_contra hrunning
  obtain ⟨i, hp⟩ := List.mem_iff_getElem?.mp hp
  obtain ⟨owner, howner⟩ := hafter.owned i p hp (Bool.not_eq_false _ ▸ hrunning)
  have hserves := hafter.serves_eq howner hp
  cases owner with
  | row other =>
    obtain rfl : other = name := (Option.some.inj hserves).trans hname
    rw [childOf, Engine.child, deactivate_row order hforce] at howner
    simp [SharedServer.absent] at howner
  | grant id =>
    rw [serves, deactivate_grants order hforce] at hserves
    obtain ⟨grant, hg, hgrant⟩ := Option.map_eq_some_iff.mp hserves
    obtain ⟨-, hother⟩ := Option.filter_eq_some_iff.mp hg
    simp [hgrant, hname] at hother

/-- A deactivation that is refused changes nothing. -/
theorem deactivate_refused (order : IterationOrder) (h : 0 < engine.grantCount name) :
    ∃ holders, engine.deactivate order name false = (.error holders, engine) ∧
      holders.Perm ((engine.grants.toList.filter fun g => g.2.name == name).map fun g =>
        holderText g.2) := by
  refine ⟨_, ?_, holderTexts_eq engine order fun g => g.name == name⟩
  unfold deactivate
  dsimp only
  rw [if_pos]
  refine ⟨fun hnone => ?_, rfl⟩
  have hlength := length_holders engine order name
  rw [hnone] at hlength
  exact absurd h (by rw [← hlength]; simp)

/-- **Stopping a server.**  In every state that the engine reaches, a deactivation that is forced, or
    finds no grant, counts the grants on the server and stops it and no other; one that is not forced
    and finds grants names one holder for each, and leaves the engine as it was. -/
theorem deactivate_exact {disk : Disk} {now brokerPid nextGrant : Nat} {operations : List Operation}
    (h : Transition.Run Step (Engine.new disk now brokerPid nextGrant) operations engine)
    (order : IterationOrder) (name : String) (force : Bool) :
    (force = true ∨ engine.grantCount name = 0 →
      (engine.deactivate order name force).1 = .ok (engine.grantCount name) ∧
        Deactivated engine name (engine.deactivate order name force).2) ∧
    (force = false → 0 < engine.grantCount name →
      ∃ holders, engine.deactivate order name force = (.error holders, engine) ∧
        holders.Perm ((engine.grants.toList.filter fun g => g.2.name == name).map fun g =>
          holderText g.2)) := by
  refine ⟨fun hforce => ⟨?_, (supervised_of_run h).deactivated order hforce⟩, ?_⟩
  · rcases deactivate_cases order hforce with ⟨-, heq⟩ | ⟨_, -, heq⟩
    · rw [heq]
    · rw [heq]
  · rintro rfl hpos
    exact deactivate_refused order hpos

end Engine

/-- The viewer, on which there is one grant, is stopped outright. -/
theorem deactivate_viewer :
    (viewerEngine.deactivate tableOrder "com.example.viewer" true).1 = .ok 1 ∧
      (viewerEngine.deactivate tableOrder "com.example.viewer" true).2.server
        "com.example.viewer" = .absent := by
  have hrun : Transition.Run Engine.Step (Engine.new ⟨none, none⟩ 0 100 1)
      (approveAndActivate "viewer" 1) viewerEngine := .snoc (.snoc .start rfl) rfl
  obtain ⟨hforced, -⟩ := Engine.deactivate_exact hrun tableOrder "com.example.viewer" true
  obtain ⟨hcount, hstopped⟩ := hforced (.inl rfl)
  have hone : viewerEngine.grantCount "com.example.viewer" = 1 := by decide
  exact ⟨hone ▸ hcount, hstopped.row_eq⟩

end McpLocator.Broker
