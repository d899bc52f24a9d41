import McpLocator.Broker.Backing

namespace McpLocator.Broker

open Std (ExtTreeMap)

/-!
# Shared servers that exit on their own

A process of the broker's may exit at any moment (`Operation.exit`), and nothing is told of it: the
row of its server keeps the child, which `attach_shared` joins like any other.

* `alive` — the process of a child has not exited.
* `ServedAt` — a point of a run at which an activation with an `executable` launch returns `Ok`.
* `served_alive_iff` — the servers handed out in a run are alive exactly if no activation finds a
  child that has exited in its row.
-/

namespace Engine

variable {engine : Engine}

/-- The process of a child has not exited. -/
def alive (engine : Engine) (child : Child) : Bool :=
  engine.processes[child.process]?.any (·.running)

/-- A process that was just started. -/
theorem alive_nextChild (engine : Engine) (entry : Entry) (command : Command) :
    (engine.launched entry command true).alive engine.nextChild = true := by
  simp [alive, launched, nextChild]

/-- **A successful activation hands out a live server exactly if the row it finds has no child that
    has exited.** -/
theorem Activated.alive_iff {entry : Entry} {connection : Nat} {clientPid : Option Nat}
    {result : ActivateResult} {engine' : Engine} {launch : Proto.Launch}
    (h : Activated engine entry connection clientPid (.ok result) engine')
    (hlaunch : entry.card.launch = some launch) (htype : launch.launchType = .executable) :
    (∃ child, engine'.child entry.name = some child ∧ engine'.alive child = true) ↔
      ∀ child, engine.child entry.name = some child → engine.alive child = true := by
  cases h with
  | granted kind info started _ hkind hs =>
    -- an `executable` launch is never started for one grant alone
    obtain ⟨_, hlaunch', hkind⟩ := hkind
    obtain rfl := Option.some.inj (hlaunch.symm.trans hlaunch')
    obtain rfl := hkind.mpr htype
    cases hs with
    | joined child _ _ hpresent =>
      -- the row keeps the child that it had, and no process is touched
      have hafter : ∀ id grant, (addGrant ((engine.ready entry).setServer entry.name
          { child := some child, refcount := ((engine.ready entry).server entry.name).refcount + 1,
            idleTimer := none }) id grant).child entry.name = some child := by
        intro id grant
        show (setServer _ _ _).child entry.name = _
        rw [Engine.child, server_setServer_self]
      have hbefore : engine.child entry.name = some child := hpresent
      rw [hafter, hbefore]
      simp only [Option.some.injEq, exists_eq_left', forall_eq']
      rfl
    | spawned command _ _ _ hchildless =>
      -- without a child a process is started, and it is alive
      have hbefore : engine.child entry.name = none := hchildless
      rw [hbefore]
      refine iff_of_true ⟨engine.nextChild, ?_, alive_nextChild engine entry command⟩ (by simp)
      show (setServer _ _ _).child entry.name = _
      rw [Engine.child, server_setServer_self]
      rfl

/-- Right after `before`, a run activates a server with an `executable` launch; the activation
    returns `Ok` and leaves the engine `started`. -/
def ServedAt (init : Engine) (operations before : List Operation) (entry : Entry)
    (started : Engine) : Prop :=
  ∃ connection clientPid outcome after launch result,
    operations = before ++ .activate entry connection clientPid outcome :: after ∧
    entry.card.launch = some launch ∧ launch.launchType = .executable ∧
    (before.foldl Engine.perform init).activate entry connection clientPid outcome =
      (.ok result, started)

/-- **Every server that a run hands out is alive exactly if no activation of the run finds a child
    that has exited in its row.**  The processes of the run may exit between any two operations. -/
theorem served_alive_iff (disk : Disk) (now brokerPid nextGrant : Nat)
    (operations : List Operation) :
    (∀ before entry started,
      ServedAt (Engine.new disk now brokerPid nextGrant) operations before entry started →
      ∃ child, started.child entry.name = some child ∧ started.alive child = true) ↔
    ∀ before entry started,
      ServedAt (Engine.new disk now brokerPid nextGrant) operations before entry started →
      ∀ child, (before.foldl Engine.perform (Engine.new disk now brokerPid nextGrant)).child
          entry.name = some child →
        (before.foldl Engine.perform (Engine.new disk now brokerPid nextGrant)).alive child =
          true := by
  refine forall_congr' fun before => forall_congr' fun entry => forall_congr' fun started => ?_
  refine forall_congr' fun hserved => ?_
  obtain ⟨connection, clientPid, outcome, _, launch, result, -, hlaunch, htype, hactivate⟩ := hserved
  have hactivated := activate_activated (before.foldl Engine.perform
    (Engine.new disk now brokerPid nextGrant)) entry connection clientPid outcome
  rw [hactivate] at hactivated
  exact hactivated.alive_iff hlaunch htype

end Engine

/-- The viewer is activated, and crashes. -/
def crashed : List Operation := approveAndActivate "viewer" 1 ++ [.exit 0]

def crashedEngine : Engine := crashed.foldl Engine.perform (Engine.new ⟨none, none⟩ 0 100 1)

/-- The second activation returns `Ok`, and the process behind its grant is the one that has
    exited. -/
theorem served_crashed_child : ∃ started,
    Engine.ServedAt (Engine.new ⟨none, none⟩ 0 100 1)
      (crashed ++ [.activate (viewerEntry "viewer") 2 none working]) crashed
      (viewerEntry "viewer") started ∧
    started.child "com.example.viewer" = some ⟨0⟩ ∧ started.alive ⟨0⟩ = false := by
  have hok : (crashedEngine.activate (viewerEntry "viewer") 2 none working).1 =
      .ok ⟨"g100-2", ⟨"pipe", "viewer"⟩⟩ := by decide +kernel
  have hactivate : crashedEngine.activate (viewerEntry "viewer") 2 none working =
      (.ok ⟨"g100-2", ⟨"pipe", "viewer"⟩⟩,
        (crashedEngine.activate (viewerEntry "viewer") 2 none working).2) := by
    rw [← hok]
  obtain ⟨launch, hlaunch, htype⟩ : ∃ launch, (viewerEntry "viewer").card.launch = some launch ∧
      launch.launchType = .executable := ⟨_, rfl, rfl⟩
  refine ⟨(crashedEngine.activate (viewerEntry "viewer") 2 none working).2, ?_, ?_, ?_⟩
  · exact ⟨2, none, working, [], launch, _, rfl, hlaunch, htype, hactivate⟩
  · decide +kernel
  · decide +kernel

end McpLocator.Broker
