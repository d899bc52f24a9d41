import McpLocator.Broker.Crashes

namespace McpLocator.Broker

open Std (ExtTreeMap)

/-!
# Running processes and the servers they serve

* `serves` — the server that an owner of a process belongs to.
* `Supervised` — a process that runs has an owner, and the process of an owner was started from an
  entry of the server it belongs to.
* `Settles` — what the operations that start no process do: an owner that loses its process has
  stopped it.
* `Supervised.perform` — every operation keeps this; `supervised_of_run`.
-/

namespace Engine

variable {engine engine' : Engine} {id name : String}

/-- The server that an owner belongs to. -/
def serves (engine : Engine) : Owner → Option String
  | .grant id => engine.grants[id]?.map (·.name)
  | .row name => some name

/-- No process runs without an owner, and none is kept for another server than its own. -/
structure Supervised (engine : Engine) : Prop where
  owned : ∀ (i : Nat) (p : Process), engine.processes[i]? = some p → p.running = true →
    ∃ owner, engine.childOf owner = some ⟨i⟩
  served : ∀ owner child, engine.childOf owner = some child →
    ∃ p, engine.processes[child.process]? = some p ∧ engine.serves owner = some p.entry.name

/-- A process that has an owner belongs to the server it was started for. -/
theorem Supervised.serves_eq (h : engine.Supervised) {owner : Owner} {i : Nat} {p : Process}
    (hchild : engine.childOf owner = some ⟨i⟩) (hp : engine.processes[i]? = some p) :
    engine.serves owner = some p.entry.name := by
  obtain ⟨q, hq, hserves⟩ := h.served owner ⟨i⟩ hchild
  obtain rfl := Option.some.inj (hp.symm.trans hq)
  exact hserves

/-! ### Operations that start no process -/

/-- No process is started, and an owner that loses its process has stopped it. -/
structure Settles (engine engine' : Engine) : Prop where
  quiet : Quiet engine engine'
  running : ∀ (i : Nat) (p : Process), engine'.processes[i]? = some p → p.running = true →
    engine.processes[i]? = some p
  kept : ∀ (owner : Owner) (i : Nat) (p : Process), engine.childOf owner = some ⟨i⟩ →
    engine'.processes[i]? = some p → p.running = true → engine'.childOf owner = some ⟨i⟩
  serves_eq : ∀ owner child, engine'.childOf owner = some child →
    engine'.serves owner = engine.serves owner

/-- An operation that starts no process gives nobody a child. -/
theorem Quiet.childOf_eq (h : Quiet engine engine') {owner : Owner} {child : Child}
    (hchild : engine'.childOf owner = some child) : engine.childOf owner = some child := by
  rcases h.2 owner with heq | hnone
  · exact heq.symm.trans hchild
  · exact absurd (hnone.symm.trans hchild) (by simp)

theorem Settles.refl (engine : Engine) : Settles engine engine :=
  ⟨.refl engine, fun _ _ hp _ => hp, fun _ _ _ hchild _ _ => hchild, fun _ _ _ => rfl⟩

theorem Settles.trans {e₁ e₂ e₃ : Engine} (h : Settles e₁ e₂) (h' : Settles e₂ e₃) :
    Settles e₁ e₃ := by
  refine ⟨h.quiet.trans h'.quiet, fun i p hp hrunning => ?_, fun owner i p hchild hp hrunning => ?_,
    fun owner child hchild => ?_⟩
  · exact h.running i p (h'.running i p hp hrunning) hrunning
  · exact h'.kept owner i p (h.kept owner i p hchild (h'.running i p hp hrunning) hrunning) hp
      hrunning
  · rw [h'.serves_eq owner child hchild]
    exact h.serves_eq owner child (h'.quiet.childOf_eq hchild)

/-- **Operations that settle keep all processes supervised.** -/
theorem Supervised.settles (h : engine.Supervised) (hs : Settles engine engine') :
    engine'.Supervised := by
  refine ⟨fun i p hp hrunning => ?_, fun owner child hchild => ?_⟩
  · obtain ⟨owner, howner⟩ := h.owned i p (hs.running i p hp hrunning) hrunning
    exact ⟨owner, hs.kept owner i p howner hp hrunning⟩
  · obtain ⟨p, hp, hserves⟩ := h.served owner child (hs.quiet.childOf_eq hchild)
    -- the process may have been stopped, but it was started from the same entry
    have horigin : engine'.processes[child.process]?.map Process.origin = some p.origin := by
      rw [← List.getElem?_map]
      show engine'.origins[child.process]? = _
      rw [hs.quiet.1, origins, List.getElem?_map, hp]
      rfl
    obtain ⟨q, hq, horigin⟩ := Option.map_eq_some_iff.mp horigin
    refine ⟨q, hq, ?_⟩
    rw [hs.serves_eq owner child hchild, hserves]
    exact congrArg (fun o => some o.1.name) horigin.symm

/-- A process that is stopped does not run. -/
theorem shutdown_stops {i : Nat} {p : Process} (hp : (engine.shutdown ⟨i⟩).processes[i]? = some p) :
    p.running = false := by
  rw [shutdown, List.getElem?_modify] at hp
  obtain ⟨q, -, rfl⟩ := Option.map_eq_some_iff.mp hp
  simp

/-- Stopping a process. -/
theorem settles_shutdownAny (engine : Engine) (child : Option Child) :
    Settles engine (engine.shutdownAny child) := by
  refine ⟨quiet_shutdownAny engine child, fun i p hp hrunning => ?_, fun owner i p hchild _ _ => ?_,
    fun owner _ _ => ?_⟩
  · cases child with
    | none => exact hp
    | some child =>
      replace hp : (engine.processes.modify child.process _)[i]? = some p := hp
      rw [List.getElem?_modify] at hp
      obtain ⟨q, hq, rfl⟩ := Option.map_eq_some_iff.mp hp
      by_cases hi : child.process = i
      · simp [hi] at hrunning
      · simpa [hi] using hq
  · rw [shutdownAny_childOf]
    exact hchild
  · cases owner with
    | grant id => rw [serves, serves, shutdownAny_grants]
    | row name => rfl

/-- Writing a row that keeps its child. -/
theorem settles_setServer {server : SharedServer} (h : server.child = engine.child name) :
    Settles engine (engine.setServer name server) := by
  refine ⟨quiet_setServer (.inl h), fun _ _ hp _ => hp, fun owner i _ hchild _ _ => ?_,
    fun owner _ _ => ?_⟩
  · by_cases howner : owner = .row name
    · rw [howner, childOf_setServer_self, h]
      rw [howner] at hchild
      exact hchild
    · rw [childOf_setServer_of_ne howner]
      exact hchild
  · cases owner <;> rfl

/-- Stopping the child of a row. -/
theorem settles_stopShared {server : SharedServer} (h : server.child = engine.child name) :
    Settles engine (engine.stopShared name server) := by
  have hstop := settles_shutdownAny engine server.child
  refine ⟨quiet_stopShared engine name server, hstop.running, fun owner i p hchild hp hrunning => ?_,
    fun owner child hchild => ?_⟩
  · by_cases howner : owner = .row name
    · -- the process of the row does not run
      subst howner
      have hserver : server.child = some ⟨i⟩ := h.trans hchild
      replace hp : (engine.shutdownAny server.child).processes[i]? = some p := hp
      rw [hserver] at hp
      exact absurd hrunning (by simp [shutdown_stops hp])
    · rw [stopShared, childOf_setServer_of_ne howner]
      exact hstop.kept owner i p hchild hp hrunning
  · have howner : owner ≠ .row name := by
      rintro rfl
      rw [stopShared, childOf_setServer_self] at hchild
      simp at hchild
    rw [stopShared, childOf_setServer_of_ne howner] at hchild
    rw [← hstop.serves_eq owner child hchild]
    cases owner <;> rfl

/-- Removing a grant whose process does not run. -/
theorem settles_erase (h : ∀ (i : Nat) (p : Process), engine.childOf (.grant id) = some ⟨i⟩ →
      engine.processes[i]? = some p → p.running = false) :
    Settles engine { engine with grants := engine.grants.erase id } := by
  refine ⟨quiet_erase engine id, fun _ _ hp _ => hp, fun owner i p hchild hp hrunning => ?_,
    fun owner child hchild => ?_⟩
  · cases owner with
    | row other => exact hchild
    | grant key =>
      have hne : key ≠ id := by
        rintro rfl
        exact Bool.false_ne_true ((h i p hchild hp).symm.trans hrunning)
      show (engine.grants.erase id)[key]?.bind _ = _
      rw [ExtTreeMap.getElem?_erase, if_neg (by simpa using hne.symm)]
      exact hchild
  · cases owner with
    | row other => rfl
    | grant key =>
      show (engine.grants.erase id)[key]?.map _ = engine.grants[key]?.map _
      have hne : key ≠ id := by
        rintro rfl
        have hnone : (engine.grants.erase key)[key]? = none := ExtTreeMap.getElem?_erase_self
        replace hchild : (engine.grants.erase key)[key]?.bind _ = some child := hchild
        rw [hnone] at hchild
        simp at hchild
      rw [ExtTreeMap.getElem?_erase, if_neg (by simpa using hne.symm)]

theorem settles_release (engine : Engine) (id : String) : Settles engine (engine.release id).2 := by
  cases hg : engine.grants[id]? with
  | none =>
    rw [release_of_none hg]
    exact .refl engine
  | some grant =>
    have hchild : engine.childOf (.grant id) = grant.kind.child := by
      rw [childOf, hg]
      rfl
    rw [release_of_some hg, retire]
    cases hkind : grant.kind with
    | stdio child =>
      rw [hkind] at hchild
      -- the process is stopped, and then nobody needs the grant to find it
      refine (settles_shutdownAny engine (some child)).trans (settles_erase fun i p hi hp => ?_)
      rw [shutdownAny_childOf, hchild] at hi
      obtain rfl : child = ⟨i⟩ := Option.some.inj hi
      exact shutdown_stops hp
    | endpoint =>
      rw [hkind] at hchild
      have herase : Settles engine { engine with grants := engine.grants.erase id } := by
        refine settles_erase fun i p hi _ => ?_
        rw [hchild] at hi
        simp [GrantKind.child] at hi
      dsimp only
      cases hrow : engine.shared[grant.name]? with
      | none => exact herase
      | some server =>
        refine herase.trans (settles_setServer ?_)
        show server.child = (engine.server grant.name).child
        rw [server_of_getElem? hrow]

theorem settles_releaseAll (engine : Engine) (ids : List String) :
    Settles engine (engine.releaseAll ids) :=
  releaseAll_induction (.refl engine) (fun e id h => h.trans (settles_release e id)) ids

theorem settles_reap (engine : Engine) (name : String) : Settles engine (engine.reap name) := by
  unfold reap
  cases hrow : engine.shared[name]? with
  | none => exact .refl engine
  | some server => exact settles_stopShared (by rw [Engine.child, server_of_getElem? hrow])

theorem settles_deactivate (engine : Engine) (order : IterationOrder) (name : String)
    (force : Bool) : Settles engine (engine.deactivate order name force).2 := by
  unfold deactivate
  dsimp only
  generalize order.1 (engine.grantsWhere fun g => g.name == name) = ids
  split
  · exact .refl engine
  · cases hrow : (engine.releaseAll ids).shared[name]? with
    | none => exact settles_releaseAll engine ids
    | some server =>
      refine (settles_releaseAll engine ids).trans (settles_stopShared ?_)
      rw [Engine.child, server_of_getElem? hrow]

theorem settles_expire (engine : Engine) (name : String) : Settles engine (engine.expire name) := by
  unfold expire
  cases hrow : engine.shared[name]? with
  | none => exact .refl engine
  | some server => exact settles_setServer (by rw [Engine.child, server_of_getElem? hrow])

/-! ### Activations -/

/-- One process more, which runs only if its owner is there. -/
theorem Supervised.launched (h : engine.Supervised) {entry : Entry} {command : Command}
    (running : Bool) {new : Owner}
    (hprocesses : engine'.processes = engine.processes ++ [⟨entry, command, running⟩])
    (hnone : engine.childOf new = none)
    (hnew : engine'.childOf new = if running = true then some engine.nextChild else none)
    (hserves : running = true → engine'.serves new = some entry.name)
    (hothers : ∀ owner child, owner ≠ new → engine.childOf owner = some child →
      engine'.serves owner = engine.serves owner)
    (hsame : ∀ owner, owner ≠ new → engine'.childOf owner = engine.childOf owner) :
    engine'.Supervised := by
  refine ⟨fun i p hp hrunning => ?_, fun owner child hchild => ?_⟩
  · rw [hprocesses] at hp
    by_cases hi : i < engine.processes.length
    · -- an old process has an old owner
      rw [List.getElem?_append_left hi] at hp
      obtain ⟨owner, howner⟩ := h.owned i p hp hrunning
      have hne : owner ≠ new := by
        rintro rfl
        rw [hnone] at howner
        simp at howner
      exact ⟨owner, (hsame owner hne).trans howner⟩
    · have hlast : i = engine.processes.length := by
        have := (List.getElem?_eq_some_iff.mp hp).1
        rw [List.length_append, List.length_singleton] at this
        omega
      subst hlast
      rw [List.getElem?_concat_length] at hp
      obtain rfl := Option.some.inj hp
      rw [if_pos hrunning] at hnew
      exact ⟨new, hnew⟩
  · by_cases howner : owner = new
    · subst howner
      rw [hnew] at hchild
      split at hchild
      · rename_i hrunning
        obtain rfl := Option.some.inj hchild
        refine ⟨⟨entry, command, running⟩, ?_, hserves hrunning⟩
        rw [hprocesses]
        exact List.getElem?_concat_length
      · simp at hchild
    · have hold := (hsame owner howner).symm.trans hchild
      obtain ⟨p, hp, hp'⟩ := h.served owner child hold
      refine ⟨p, ?_, (hothers owner child howner hold).trans hp'⟩
      rw [hprocesses, List.getElem?_append_left (List.getElem?_eq_some_iff.mp hp).1, hp]

/-- A grant more, under an id that was not in use. -/
theorem serves_addGrant {grant : Grant} {owner : Owner} (hne : owner ≠ .grant id) :
    (engine.addGrant id grant).serves owner = engine.serves owner := by
  cases owner with
  | row other => rfl
  | grant key =>
    have hkey : key ≠ id := fun heq => hne (heq ▸ rfl)
    show (engine.grants.insert id grant)[key]?.map _ = _
    rw [ExtTreeMap.getElem?_insert, if_neg (by simpa using hkey.symm)]
    rfl

/-- A grant that shares a process owns none. -/
theorem settles_addShare {grant : Grant} (hfresh : engine.grants[id]? = none)
    (hkind : grant.kind = .endpoint) : Settles engine (engine.addGrant id grant) := by
  have hnone : engine.childOf (.grant id) = none := by
    rw [childOf, hfresh]
    rfl
  have hchildOf : ∀ owner, (engine.addGrant id grant).childOf owner = engine.childOf owner := by
    intro owner
    rw [childOf_addGrant]
    split
    · rename_i howner
      rw [howner, hnone, hkind]
      rfl
    · rfl
  refine ⟨⟨rfl, fun owner => .inl (hchildOf owner)⟩, fun _ _ hp _ => hp, fun owner i _ hchild _ _ => ?_,
    fun owner child hchild => serves_addGrant ?_⟩
  · rw [hchildOf]
    exact hchild
  · rintro rfl
    rw [hchildOf, hnone] at hchild
    simp at hchild

/-- **An activation keeps all processes supervised.** -/
theorem Supervised.activated (h : engine.Supervised) (hbooks : engine.Bookkeeping) {entry : Entry}
    {connection : Nat} {clientPid : Option Nat} {result : Except ActivateError ActivateResult}
    (ha : Activated engine entry connection clientPid result engine') : engine'.Supervised := by
  have hready : (engine.ready entry).Supervised := ⟨h.owned, h.served⟩
  have hfresh := hbooks.fresh
  have hnone : (engine.ready entry).childOf (.grant (grantId engine.brokerPid engine.nextGrant)) =
      none := by
    show engine.grants[_]?.bind _ = none
    rw [hfresh]
    rfl
  cases ha with
  | orphaned => exact h
  | refused => exact ⟨h.owned, h.served⟩
  | notStarted _ _ _ hs =>
    cases hs with
    | failed => exact hready
    | unspawned _ hchildless => exact hready.settles (settles_setServer hchildless.symm)
    | killed _ command =>
      -- nobody owns the process, but it does not run
      refine hready.launched false rfl hnone ?_ (by simp) (fun _ _ _ _ => rfl)
        (fun owner _ => ?_)
      · rw [if_neg Bool.false_ne_true]
        exact hnone
      · cases owner <;> rfl
  | granted kind info started _ _ hs =>
    cases hs with
    | stdio command =>
      refine hready.launched true rfl hnone ?_ (fun _ => ?_)
        (fun owner _ hne _ => serves_addGrant hne) (fun owner hne => ?_)
      · rw [childOf_addGrant, if_pos rfl]
        rfl
      · show (ExtTreeMap.insert _ _ _)[_]?.map _ = _
        rw [ExtTreeMap.getElem?_insert_self]
        rfl
      · rw [childOf_addGrant, if_neg hne]
        cases owner <;> rfl
    | joined child _ _ hpresent =>
      exact (hready.settles (settles_setServer hpresent.symm)).settles (settles_addShare hfresh rfl)
    | spawned command _ _ _ hchildless =>
      refine Supervised.settles ?_ (settles_addShare hfresh rfl)
      have hrow : (engine.ready entry).childOf (.row entry.name) = none := hchildless
      refine hready.launched true rfl hrow ?_ (fun _ => rfl)
        (fun owner _ _ _ => ?_) (fun owner hne => childOf_setServer_of_ne hne _)
      · exact childOf_setServer_self _ _ _
      · cases owner <;> rfl

/-! ### Runs -/

/-- **Every operation keeps all processes supervised.** -/
theorem Supervised.perform (h : engine.Supervised) (hbooks : engine.Bookkeeping)
    (operation : Operation) : (engine.perform operation).Supervised := by
  cases operation with
  | activate entry connection clientPid outcome =>
    exact h.activated hbooks (activate_activated engine entry connection clientPid outcome)
  | release id => exact h.settles (settles_release engine id)
  | releaseConnection order connection => exact h.settles (settles_releaseAll engine _)
  | deactivate order name force => exact h.settles (settles_deactivate engine order name force)
  | reapIdle order =>
    show ((order.1 engine.expired).foldl reap engine).Supervised
    generalize order.1 engine.expired = names
    clear hbooks
    -- one row after the other
    induction names generalizing engine with
    | nil => exact h
    | cons name names ih => exact ih (h.settles (settles_reap engine name))
  | exit process => exact h.settles (settles_shutdownAny engine (some ⟨process⟩))
  | expire name => exact h.settles (settles_expire engine name)
  | evaluate | decide | elapse | outOfBand => exact ⟨h.owned, h.served⟩

/-- In every state that the engine reaches the processes are supervised. -/
theorem supervised_of_run {disk : Disk} {now brokerPid nextGrant : Nat}
    {operations : List Operation}
    (h : Transition.Run Step (Engine.new disk now brokerPid nextGrant) operations engine) :
    engine.Supervised := by
  have hboth : engine.Bookkeeping ∧ engine.Supervised := by
    refine h.invariant (P := fun e => e.Bookkeeping ∧ e.Supervised)
      ⟨bookkeeping_new disk now brokerPid nextGrant, ?_⟩ ?_
    · refine ⟨fun i p hp => ?_, fun owner child hchild => ?_⟩
      · simp [Engine.new] at hp
      · rw [childOf_new] at hchild
        simp at hchild
    · rintro e operation _ ⟨hbooks, hsupervised⟩ rfl
      exact ⟨hbooks.perform operation, hsupervised.perform hbooks operation⟩
  exact hboth.2

end Engine

end McpLocator.Broker
