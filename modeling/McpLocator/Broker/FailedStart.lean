import McpLocator.Broker.Bookkeeping

namespace McpLocator.Broker

open Std (ExtTreeMap)

/-!
# Activations that fail

An activation enters the row of its server, and cancels the timer of the row, before it tries to
start a process.  The process may fail to start, and one that was started may lack a pipe.

* `Intact` — an engine that nobody can tell from the one before, but for the processes that were
  started and have been stopped.
* `Bookkeeping.intact` — a start that fails: a timer has a child, so where there is no child
  there was no timer to cancel.
* `activate_failed` — an activation that fails.
-/

/-- The tables say of every grant and server what they said before, and of the processes started in
    between none is running. -/
structure Engine.Intact (engine engine' : Engine) : Prop where
  grants_eq : engine'.grants = engine.grants
  server_eq : ∀ name, engine'.server name = engine.server name
  /-- At most a row has been added, one without references, child and timer. -/
  row : ∀ name : String, engine'.shared[name]? = engine.shared[name]? ∨
    engine.shared[name]? = none ∧ engine'.shared[name]? = some .absent
  stopped : ∃ started, engine'.processes = engine.processes ++ started ∧
    ∀ p ∈ started, p.running = false

namespace Engine

variable {engine engine' : Engine}

/-- Neither the tables nor the processes change. -/
theorem Intact.of_eq (hgrants : engine'.grants = engine.grants)
    (hshared : engine'.shared = engine.shared) (hprocesses : engine'.processes = engine.processes) :
    Intact engine engine' := by
  refine ⟨hgrants, fun name => ?_, fun name => .inl (by rw [hshared]), [], ?_, by simp⟩
  · rw [Engine.server, Engine.server, hshared]
  · rw [hprocesses, List.append_nil]

/-- A process was started and killed. -/
theorem intact_launched (engine : Engine) (entry : Entry) (command : Command) :
    Intact engine (engine.launched entry command false) :=
  ⟨rfl, fun _ => rfl, fun _ => .inl rfl, _, rfl, by simp⟩

/-- The row of a server is written as it was. -/
theorem intact_setServer (engine : Engine) (name : String) :
    Intact engine (engine.setServer name (engine.server name)) := by
  refine ⟨rfl, fun other => ?_, fun other => ?_, [], (List.append_nil _).symm, by simp⟩
  · by_cases hother : other = name
    · rw [hother, server_setServer_self]
    · exact server_setServer_of_ne hother _
  · by_cases hother : other = name
    · subst hother
      cases hrow : engine.shared[other]? with
      | none => exact .inr ⟨rfl, by simp [setServer, server_of_none hrow]⟩
      | some server => exact .inl (by simp [setServer, server_of_getElem? hrow])
    · exact .inl (by simp [setServer, ExtTreeMap.getElem?_insert, Ne.symm hother])

/-- Without a child a row has no timer. -/
theorem Bookkeeping.row_of_childless (h : engine.Bookkeeping) {name : String}
    (hchildless : (engine.server name).child = none) :
    engine.server name =
      { child := none, refcount := (engine.server name).refcount, idleTimer := none } := by
  have htimer : (engine.server name).idleTimer = none := by
    by_contra hsome
    have := (h.steady name).timed (Option.isSome_iff_ne_none.mpr hsome)
    rw [hchildless] at this
    exact Bool.false_ne_true this
  rw [← hchildless, ← htimer]

/-- **A start that fails disturbs nothing.** -/
theorem Bookkeeping.intact (h : engine.Bookkeeping) {entry : Entry} {e : ActivateError}
    (hs : Started engine entry (.error e) engine') : Intact engine engine' := by
  cases hs with
  | failed => exact .of_eq rfl rfl rfl
  | killed _ command => exact intact_launched engine entry command
  | unspawned _ hchildless =>
    -- the timer was cancelled before the spawn was tried, but there was none
    rw [← h.row_of_childless hchildless]
    exact intact_setServer engine entry.name

/-- **An activation that fails leaves the engine as it was.**  In every state that the engine reaches,
    whatever the reason it is refused or fails for. -/
theorem activate_failed {disk : Disk} {now brokerPid nextGrant : Nat}
    {operations : List Operation}
    (h : Transition.Run Step (Engine.new disk now brokerPid nextGrant) operations engine)
    (entry : Entry) (connection : Nat) (clientPid : Option Nat) (outcome : StartOutcome)
    {e : ActivateError}
    (hfails : (engine.activate entry connection clientPid outcome).1 = .error e) :
    Intact engine (engine.activate entry connection clientPid outcome).2 := by
  have hbooks := bookkeeping_of_run h
  have hactivated := activate_activated engine entry connection clientPid outcome
  rw [hfails] at hactivated
  generalize (engine.activate entry connection clientPid outcome).2 = engine' at hactivated
  cases hactivated with
  | orphaned => exact .of_eq rfl rfl rfl
  | refused => exact .of_eq rfl rfl rfl
  | notStarted _ _ _ hs =>
    -- consulting the consent file and taking a grant id concern neither the tables nor the processes
    have hready := (hbooks.ready entry).intact hs
    exact ⟨hready.grants_eq, hready.server_eq, hready.row, hready.stopped⟩

end Engine

/-! ### A viewer that cannot be started -/

/-- A machine that starts no process. -/
def failing : StartOutcome :=
  { working with spawned := .error "No such file or directory" }

/-- The engine once the user has agreed to the viewer. -/
def viewerApproved : Engine :=
  ((approveAndActivate "viewer" 1).take 1).foldl Engine.perform (Engine.new ⟨none, none⟩ 0 100 1)

theorem activate_failed_viewer :
    (viewerApproved.activate (viewerEntry "viewer") 1 none failing).1 =
        .error (.io "No such file or directory") ∧
      viewerApproved.Intact
        (viewerApproved.activate (viewerEntry "viewer") 1 none failing).2 := by
  have hrun : Transition.Run Engine.Step (Engine.new ⟨none, none⟩ 0 100 1)
      ((approveAndActivate "viewer" 1).take 1) viewerApproved := .snoc .start rfl
  have hfails : (viewerApproved.activate (viewerEntry "viewer") 1 none failing).1 =
      .error (.io "No such file or directory") := by decide
  exact ⟨hfails, Engine.activate_failed hrun _ 1 none failing hfails⟩

end McpLocator.Broker
