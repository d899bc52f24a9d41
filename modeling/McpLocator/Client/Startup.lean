import Mathlib.Logic.Function.Basic
import McpLocator.Client.Bootstrap
import McpLocator.Lib.Run
import McpLocator.Proto.Rpc

namespace McpLocator.Client

/-!
# Clients that start the broker (broker.ts, server.rs)

Any number of clients call `connect` at any time, and a client that finds nobody listening starts a
broker.  The brokers race for the address that `listen` takes.

* `Stage`, `BrokerStage` — how far a call of `connect` and a call of `listen` have come.
* `Startup`, `Startup.step` — clients, brokers and the address.
* `Startup.Orderly`, `Startup.orderly` — who is started and by whom, and whom the clients reach.
* `Startup.exists_two_brokers` — with socket files, two brokers can listen at once.
-/

/-- `BROKER_PROTOCOL` of the client. -/
def brokerProtocol : Nat := 1

/-- How far a call of `connect` has come. -/
inductive Stage where
  /-- The first attempt of `#open`. -/
  | opening
  | starting
  /-- `#open(20)`, after some attempts. -/
  | reopening (attempts : Nat)
  /-- The handshake was sent. -/
  | greeting (server : Nat)
  | connected (server : Nat)
  /-- `connect` has thrown, or the connection is closed. -/
  | ended
deriving DecidableEq

/-- The broker that a client has reached. -/
def Stage.server : Stage → Option Nat
  | greeting server | connected server => some server
  | opening | starting | reopening _ | ended => none

/-- It is in `#open`. -/
def Stage.isOpening : Stage → Bool
  | opening | reopening _ => true
  | starting | greeting _ | connected _ | ended => false

/-- How far a call of `listen` has come. -/
inductive BrokerStage where
  | starting
  /-- A socket file in the way was removed. -/
  | cleared
  /-- It takes clients; whether one can connect right now. -/
  | listening (free : Bool)
  | exited
deriving DecidableEq

structure BrokerProcess where
  spawned : Spawned
  /-- The client that started it, and what it found on the machine. -/
  parent : Nat
  machine : Machine
  stage : BrokerStage

/-- The address of the broker. -/
inductive Endpoint where
  | absent
  /-- A socket file of a broker of old. -/
  | stale
  | bound (server : Nat)
deriving DecidableEq

structure Startup where
  windows : Bool
  /-- The options of the clients. -/
  autostart : Nat → Bool
  clients : Nat → Stage
  brokers : List BrokerProcess
  endpoint : Endpoint

inductive StartupEvent where
  /-- An attempt to connect, and the broker that it has reached. -/
  | attempt (client : Nat) (server : Option Nat)
  | start (client : Nat) (machine : Machine)
  /-- The first instance of the pipe. -/
  | createFirst (server : Nat)
  /-- The next instance of the pipe. -/
  | createNext (server : Nat)
  | removeFile (server : Nat)
  | bind (server : Nat)
  | exit (server : Nat)
  /-- The handshake is answered. -/
  | answer (client : Nat)
  /-- The connection of a client is closed. -/
  | lost (client : Nat)

namespace Startup

def new (windows stale : Bool) (autostart : Nat → Bool) : Startup where
  windows
  autostart
  clients _ := .opening
  brokers := []
  endpoint := if windows = false ∧ stale = true then .stale else .absent

def stageOf (s : Startup) (server : Nat) : Option BrokerStage := s.brokers[server]?.map (·.stage)

def setClient (s : Startup) (client : Nat) (stage : Stage) : Startup :=
  { s with clients := Function.update s.clients client stage }

def setBroker (s : Startup) (server : Nat) (stage : BrokerStage) : Startup :=
  { s with brokers := s.brokers.modify server fun p => { p with stage } }

/-- A process is spawned. -/
def addBroker (s : Startup) (process : BrokerProcess) : Startup :=
  { s with brokers := s.brokers ++ [process] }

/-- An attempt of `#open` that has failed. -/
def refuse (s : Startup) (client : Nat) : Option Startup :=
  match s.clients client with
  | .opening => some (s.setClient client (if s.autostart client then .starting else .ended))
  | .reopening attempts =>
    some (s.setClient client (if attempts + 1 < 20 then .reopening (attempts + 1) else .ended))
  | _ => none

/-- An attempt that has succeeded.  A pipe has no instance left for the next client. -/
def reach (s : Startup) (client server : Nat) : Startup :=
  (s.setBroker server (.listening (!s.windows))).setClient client (.greeting server)

/-- One thing happens; a process may be gone at any time. -/
def step (s : Startup) : StartupEvent → Option Startup
  | .attempt client none => s.refuse client
  | .attempt client (some server) =>
    if (s.clients client).isOpening = true ∧ s.endpoint = .bound server ∧
        s.stageOf server = some (.listening true) then some (s.reach client server) else none
  | .start client machine =>
    if s.clients client = .starting then
      match machine.startBroker with
      | .error _ => some (s.setClient client .ended)
      | .ok spawned =>
        some ((s.setClient client (.reopening 0)).addBroker ⟨spawned, client, machine, .starting⟩)
    else none
  -- refused where there is an instance of the pipe
  | .createFirst server =>
    if s.windows = true ∧ s.stageOf server = some .starting then
      some (if s.endpoint = .absent then
        { s.setBroker server (.listening true) with endpoint := .bound server }
        else s.setBroker server .exited)
    else none
  | .createNext server =>
    if s.windows = true ∧ s.stageOf server = some (.listening false) then
      some (s.setBroker server (.listening true))
    else none
  -- the file may be that of a broker that listens: nothing takes the mutex that the source speaks of
  | .removeFile server =>
    if s.windows = false ∧ s.stageOf server = some .starting then
      some { s.setBroker server .cleared with endpoint := .absent }
    else none
  | .bind server =>
    if s.windows = false ∧ s.stageOf server = some .cleared then
      some (if s.endpoint = .absent then
        { s.setBroker server (.listening true) with endpoint := .bound server }
        else s.setBroker server .exited)
    else none
  -- a pipe goes with its broker, a socket file stays
  | .exit server =>
    some { s.setBroker server .exited with
      endpoint := if s.windows = true ∧ s.endpoint = .bound server then .absent else s.endpoint }
  | .answer client =>
    match s.clients client with
    | .greeting server => some (s.setClient client
        (if Proto.brokerProtocol = brokerProtocol then .connected server else .ended))
    | _ => none
  | .lost client =>
    if (s.clients client).server.isSome then some (s.setClient client .ended) else none

/-- A run from the time when nobody has called `connect`. -/
abbrev Run (windows stale : Bool) (autostart : Nat → Bool) : List StartupEvent → Startup → Prop :=
  Transition.Run (fun s event s' => s.step event = some s') (new windows stale autostart)

/-! ### The invariant -/

/-- It can take clients, or it is gone. -/
def Served : BrokerStage → Prop
  | .listening _ | .exited => True
  | .starting | .cleared => False

structure Orderly (s : Startup) : Prop where
  /-- A client starts one broker at most. -/
  once : (s.brokers.map (·.parent)).Nodup
  /-- It is a client that may, and its first attempt is over. -/
  parents : ∀ p ∈ s.brokers, s.autostart p.parent = true ∧
    s.clients p.parent ≠ .opening ∧ s.clients p.parent ≠ .starting
  wanted : ∀ c, s.clients c = .starting → s.autostart c = true
  /-- Every broker comes from a card in the system tier. -/
  vetted : ∀ p ∈ s.brokers, ∃ f, p.machine.Launches p.spawned.command p.spawned.args
    p.spawned.warning.isSome f
  reached : ∀ c b, (s.clients c).server = some b → ∃ stage, s.stageOf b = some stage ∧ Served stage
  /-- A pipe has one owner. -/
  alone : s.windows = true → ∀ b free, s.stageOf b = some (.listening free) → s.endpoint = .bound b

variable {s s' : Startup}

theorem stageOf_setBroker (s : Startup) (server b : Nat) (stage : BrokerStage) :
    (s.setBroker server stage).stageOf b =
      if server = b then (s.stageOf b).map fun _ => stage else s.stageOf b := by
  rw [stageOf, setBroker, List.getElem?_modify, stageOf]
  split <;> cases s.brokers[b]? <;> rfl

/-- What a broker was started from does not change. -/
theorem exists_of_mem_setBroker {server : Nat} {stage : BrokerStage} {p : BrokerProcess}
    (h : p ∈ (s.setBroker server stage).brokers) :
    ∃ q ∈ s.brokers, q.parent = p.parent ∧ q.machine = p.machine ∧ q.spawned = p.spawned := by
  obtain ⟨i, hi⟩ := List.mem_iff_getElem?.mp h
  rw [setBroker, List.getElem?_modify] at hi
  obtain ⟨q, hq, hp⟩ := Option.map_eq_some_iff.mp hi
  refine ⟨q, List.mem_of_getElem? hq, ?_⟩
  rw [← hp]
  split <;> exact ⟨rfl, rfl, rfl⟩

theorem parents_setBroker (s : Startup) (server : Nat) (stage : BrokerStage) :
    (s.setBroker server stage).brokers.map (·.parent) = s.brokers.map (·.parent) := by
  refine List.ext_getElem? fun i => ?_
  rw [List.getElem?_map, List.getElem?_map, setBroker, List.getElem?_modify, Option.map_eq_map, Option.map_map]
  refine congrArg (Option.map · _) (funext fun p => ?_)
  rw [Function.comp_apply]
  split <;> rfl

/-- Only a client goes on. -/
theorem Orderly.setClient (h : s.Orderly) {client : Nat} {stage : Stage}
    (hwanted : stage = .starting → s.autostart client = true)
    (hlater : (∀ p ∈ s.brokers, p.parent ≠ client) ∨ stage ≠ .opening ∧ stage ≠ .starting)
    (hreached : ∀ b, stage.server = some b → ∃ stage, s.stageOf b = some stage ∧ Served stage) :
    (s.setClient client stage).Orderly := by
  have hself : (s.setClient client stage).clients client = stage := Function.update_self ..
  have hother : ∀ {c}, c ≠ client → (s.setClient client stage).clients c = s.clients c := fun hc =>
    Function.update_of_ne hc ..
  refine ⟨h.once, fun p hp => ?_, fun c hc => ?_, h.vetted, fun c b hb => ?_, h.alone⟩
  · obtain ⟨hmay, hrefused⟩ := h.parents p hp
    by_cases hparent : p.parent = client
    · rw [hparent, hself]
      exact ⟨hparent ▸ hmay, hlater.resolve_left fun hnone => hnone p hp hparent⟩
    · rw [hother hparent]
      exact ⟨hmay, hrefused⟩
  · by_cases hclient : c = client
    · subst hclient
      exact hwanted (hself.symm.trans hc)
    · exact h.wanted c ((hother hclient).symm.trans hc)
  · by_cases hclient : c = client
    · subst hclient
      rw [hself] at hb
      exact hreached b hb
    · rw [hother hclient] at hb
      exact h.reached c b hb

/-- Only a broker goes on. -/
theorem Orderly.setBroker (h : s.Orderly) {server : Nat} {stage : BrokerStage} {endpoint : Endpoint}
    (hserved : Served stage ∨ ∀ old, s.stageOf server = some old → ¬Served old)
    (halone : s.windows = true → (∀ free, stage = .listening free → endpoint = .bound server) ∧
      ∀ b free, b ≠ server → s.stageOf b = some (.listening free) → endpoint = .bound b) :
    ({ s.setBroker server stage with endpoint } : Startup).Orderly := by
  have hstage : ∀ b, ({ s.setBroker server stage with endpoint } : Startup).stageOf b =
      if server = b then (s.stageOf b).map fun _ => stage else s.stageOf b :=
    fun b => stageOf_setBroker s server b stage
  refine ⟨?_, fun p hp => ?_, h.wanted, fun p hp => ?_, fun c b hb => ?_, fun hwindows b free hb => ?_⟩
  · rw [parents_setBroker]
    exact h.once
  · obtain ⟨q, hq, hparent, -, -⟩ := exists_of_mem_setBroker hp
    rw [← hparent]
    exact h.parents q hq
  · obtain ⟨q, hq, -, hmachine, hspawned⟩ := exists_of_mem_setBroker hp
    rw [← hmachine, ← hspawned]
    exact h.vetted q hq
  · obtain ⟨old, hold, hsold⟩ := h.reached c b hb
    rw [hstage]
    by_cases hserver : server = b
    · subst hserver
      rw [if_pos rfl, hold]
      exact ⟨stage, rfl, hserved.resolve_right fun hnot => hnot old hold hsold⟩
    · rw [if_neg hserver]
      exact ⟨old, hold, hsold⟩
  · rw [hstage] at hb
    by_cases hserver : server = b
    · subst hserver
      rw [if_pos rfl] at hb
      obtain ⟨old, -, heq⟩ := Option.map_eq_some_iff.mp hb
      exact (halone hwindows).1 free heq
    · rw [if_neg hserver] at hb
      exact (halone hwindows).2 b free (Ne.symm hserver) hb

/-- Socket files have no owner. -/
theorem Orderly.setBroker_unix (h : s.Orderly) (hunix : s.windows = false) {server : Nat}
    {stage : BrokerStage} {endpoint : Endpoint}
    (hserved : Served stage ∨ ∀ old, s.stageOf server = some old → ¬Served old) :
    ({ s.setBroker server stage with endpoint } : Startup).Orderly :=
  h.setBroker hserved fun hwindows => absurd (hunix.symm.trans hwindows) (by simp)

/-- A broker has been started. -/
theorem Orderly.addBroker (h : s.Orderly) {p : BrokerProcess} (hstage : p.stage = .starting)
    (hnew : ∀ q ∈ s.brokers, q.parent ≠ p.parent)
    (hparent : s.autostart p.parent = true ∧ s.clients p.parent ≠ .opening ∧
      s.clients p.parent ≠ .starting)
    (hvetted : ∃ f, p.machine.Launches p.spawned.command p.spawned.args p.spawned.warning.isSome f) :
    (s.addBroker p).Orderly := by
  have hold : ∀ b stage, s.stageOf b = some stage →
      (s.addBroker p).stageOf b = some stage := by
    intro b stage hb
    obtain ⟨q, hq, rfl⟩ := Option.map_eq_some_iff.mp hb
    rw [stageOf, Startup.addBroker, List.getElem?_append_left (List.getElem?_eq_some_iff.mp hq).1, hq]
    rfl
  have hlistens : ∀ b free,
      (s.addBroker p).stageOf b = some (.listening free) →
        s.stageOf b = some (.listening free) := by
    intro b free hb
    obtain ⟨q, hq, hlistening⟩ := Option.map_eq_some_iff.mp hb
    rw [Startup.addBroker, List.getElem?_append] at hq
    split at hq
    · rw [stageOf, hq]
      exact congrArg some hlistening
    · -- the new one does not listen yet
      obtain rfl := List.mem_singleton.mp (List.mem_of_getElem? hq)
      rw [hstage] at hlistening
      exact BrokerStage.noConfusion hlistening
  refine ⟨?_, fun q hq => ?_, h.wanted, fun q hq => ?_, fun c b hb => ?_, fun hwindows b free hb => ?_⟩
  · rw [Startup.addBroker, List.map_append, List.nodup_append]
    refine ⟨h.once, List.nodup_singleton _, fun a ha b hb => ?_⟩
    obtain ⟨q, hq, rfl⟩ := List.mem_map.mp ha
    obtain rfl := List.mem_singleton.mp hb
    exact hnew q hq
  · rcases List.mem_append.mp hq with hq | hq
    · exact h.parents q hq
    · obtain rfl := List.mem_singleton.mp hq
      exact hparent
  · rcases List.mem_append.mp hq with hq | hq
    · exact h.vetted q hq
    · obtain rfl := List.mem_singleton.mp hq
      exact hvetted
  · obtain ⟨stage, hstage, hserved⟩ := h.reached c b hb
    exact ⟨stage, hold b stage hstage, hserved⟩
  · exact h.alone hwindows b free (hlistens b free hb)

/-- An attempt fails. -/
theorem Orderly.refuse (h : s.Orderly) {client : Nat} (hs : s.refuse client = some s') : s'.Orderly := by
  unfold Startup.refuse at hs
  split at hs
  · rename_i hopening
    obtain rfl := Option.some.inj hs
    refine h.setClient (fun heq => ?_) (.inl fun p hp hparent => ?_) fun b hb => ?_
    · by_contra hnot
      rw [if_neg hnot] at heq
      exact Stage.noConfusion heq
    · exact (h.parents p hp).2.1 (hparent ▸ hopening)
    · split at hb <;> simp [Stage.server] at hb
  · obtain rfl := Option.some.inj hs
    refine h.setClient (fun heq => ?_) (.inr ?_) fun b hb => ?_
    · split at heq <;> exact Stage.noConfusion heq
    · split <;> simp
    · split at hb <;> simp [Stage.server] at hb
  · simp at hs

/-- A client starts a broker, or `connect` throws. -/
theorem Orderly.start (h : s.Orderly) {client : Nat} {machine : Machine}
    (hs : s.step (.start client machine) = some s') : s'.Orderly := by
  rw [Startup.step, Option.ite_none_right_eq_some] at hs
  obtain ⟨hstarting, hmatch⟩ := hs
  cases hstart : machine.startBroker with
  | error message =>
    rw [hstart] at hmatch
    obtain rfl := Option.some.inj hmatch
    exact h.setClient (fun heq => Stage.noConfusion heq) (.inr (by simp)) fun b hb =>
      absurd hb (by simp [Stage.server])
  | ok spawned =>
    rw [hstart] at hmatch
    obtain rfl := Option.some.inj hmatch
    have hclient : (s.setClient client (.reopening 0)).Orderly :=
      h.setClient (fun heq => Stage.noConfusion heq) (.inr (by simp)) fun b hb =>
        absurd hb (by simp [Stage.server])
    refine hclient.addBroker (p := ⟨spawned, client, machine, .starting⟩) rfl
      (fun q hq hparent => ?_) ⟨h.wanted client hstarting, ?_⟩
      (Machine.launches_of_startBroker hstart)
    · exact (h.parents q hq).2.2 (by rw [hparent]; exact hstarting)
    · rw [show (s.setClient client (.reopening 0)).clients client = .reopening 0 from
        Function.update_self ..]
      simp

/-- The handshake is over. -/
theorem Orderly.answer (h : s.Orderly) {client : Nat} (hs : s.step (.answer client) = some s') :
    s'.Orderly := by
  rw [Startup.step] at hs
  split at hs
  · rename_i server hgreeting
    obtain rfl := Option.some.inj hs
    refine h.setClient (fun heq => ?_) (.inr ?_) fun b hb => ?_
    · split at heq <;> exact Stage.noConfusion heq
    · split <;> simp
    · refine h.reached client b ?_
      rw [hgreeting]
      split at hb
      · exact hb
      · simp [Stage.server] at hb
  · simp at hs

/-- **Every step keeps the invariant.** -/
theorem Orderly.step (h : s.Orderly) {event : StartupEvent} (hs : s.step event = some s') :
    s'.Orderly := by
  -- where nobody else comes to listen and nobody takes the address
  have hrest : ∀ server, s.windows = true → ∀ b free, b ≠ server →
      s.stageOf b = some (.listening free) → s.endpoint = .bound b :=
    fun _ hwindows b free _ hb => h.alone hwindows b free hb
  cases event with
  | attempt client server =>
    cases server with
    | none => exact h.refuse hs
    | some server =>
      rw [Startup.step, Option.ite_none_right_eq_some] at hs
      obtain ⟨⟨-, hbound, hfree⟩, heq⟩ := hs
      obtain rfl := Option.some.inj heq
      have hbroker : (s.setBroker server (.listening (!s.windows))).Orderly :=
        h.setBroker (.inl trivial) fun hwindows => ⟨fun _ _ => hbound, hrest server hwindows⟩
      refine hbroker.setClient (fun heq => Stage.noConfusion heq) (.inr (by simp)) fun b hb => ?_
      obtain rfl := Option.some.inj hb
      exact ⟨.listening (!s.windows), by rw [stageOf_setBroker, if_pos rfl, hfree]; rfl, trivial⟩
  | start client machine => exact h.start hs
  | createFirst server =>
    rw [Startup.step, Option.ite_none_right_eq_some] at hs
    obtain ⟨⟨hwindows, -⟩, heq⟩ := hs
    obtain rfl := Option.some.inj heq
    by_cases habsent : s.endpoint = .absent
    · rw [if_pos habsent]
      refine h.setBroker (.inl trivial) fun _ => ⟨fun _ _ => rfl, fun b free _ hb => ?_⟩
      exact absurd ((h.alone hwindows b free hb).symm.trans habsent) (by simp)
    · rw [if_neg habsent]
      exact h.setBroker (.inl trivial) fun hwindows => ⟨by simp, hrest server hwindows⟩
  | createNext server =>
    rw [Startup.step, Option.ite_none_right_eq_some] at hs
    obtain ⟨⟨hwindows, hbusy⟩, heq⟩ := hs
    obtain rfl := Option.some.inj heq
    exact h.setBroker (.inl trivial) fun hwindows =>
      ⟨fun _ _ => h.alone hwindows server _ hbusy, hrest server hwindows⟩
  | removeFile server =>
    rw [Startup.step, Option.ite_none_right_eq_some] at hs
    obtain ⟨⟨hunix, hstage⟩, heq⟩ := hs
    obtain rfl := Option.some.inj heq
    refine h.setBroker_unix hunix (.inr fun old hold => ?_)
    obtain rfl := Option.some.inj (hstage.symm.trans hold)
    exact id
  | bind server =>
    rw [Startup.step, Option.ite_none_right_eq_some] at hs
    obtain ⟨⟨hunix, -⟩, heq⟩ := hs
    obtain rfl := Option.some.inj heq
    by_cases habsent : s.endpoint = .absent
    · rw [if_pos habsent]
      exact h.setBroker_unix hunix (.inl trivial)
    · rw [if_neg habsent]
      exact h.setBroker_unix hunix (.inl trivial)
  | exit server =>
    obtain rfl := Option.some.inj hs
    refine h.setBroker (.inl trivial) fun hwindows => ⟨by simp, fun b free hne hb => ?_⟩
    have hbound := h.alone hwindows b free hb
    rw [if_neg fun hown => hne (Endpoint.bound.inj (hbound.symm.trans hown.2))]
    exact hbound
  | answer client => exact h.answer hs
  | lost client =>
    rw [Startup.step, Option.ite_none_right_eq_some] at hs
    obtain rfl := Option.some.inj hs.2
    exact h.setClient (fun heq => Stage.noConfusion heq) (.inr (by simp)) fun b hb =>
      absurd hb (by simp [Stage.server])

theorem orderly_new (windows stale : Bool) (autostart : Nat → Bool) :
    (new windows stale autostart).Orderly where
  once := List.nodup_nil
  parents _ hp := absurd hp List.not_mem_nil
  wanted _ hc := Stage.noConfusion hc
  vetted _ hp := absurd hp List.not_mem_nil
  reached _ _ hb := absurd hb (by simp [new, Stage.server])
  alone _ _ _ hb := absurd hb (by simp [new, stageOf])

/-- **In whatever order clients and brokers go on**, a client starts one broker at most, and none before
    its first attempt is over; every broker comes from the system tier; a client has reached a broker
    that listens or is gone; and of brokers with a pipe at most one listens. -/
theorem orderly {windows stale : Bool} {autostart : Nat → Bool} {events : List StartupEvent}
    (h : Run windows stale autostart events s) : s.Orderly :=
  Transition.Run.invariant (P := Orderly) h (orderly_new windows stale autostart)
    fun _ _ _ hs hstep => hs.step hstep

/-! ### Two brokers -/

theorem step_start {machine : Machine} {spawned : Spawned} (h : machine.startBroker = .ok spawned)
    (client : Nat) (hs : s.clients client = .starting) : s.step (.start client machine) =
      some ((s.setClient client (.reopening 0)).addBroker ⟨spawned, client, machine, .starting⟩) := by
  rw [step, if_pos hs, h]

/-- With socket files, the second broker takes the address from the first one; each has its client. -/
theorem exists_two_brokers {machine : Machine} {spawned : Spawned}
    (h : machine.startBroker = .ok spawned) :
    ∃ events s, Run false false (fun _ => true) events s ∧
      s.clients 0 = .connected 0 ∧ s.clients 1 = .connected 1 ∧
      s.stageOf 0 = some (.listening true) ∧ s.stageOf 1 = some (.listening true) := by
  have hrefused : Run false false (fun _ => true) [.attempt 0 none, .attempt 1 none] _ :=
    .snoc (.snoc .start rfl) rfl
  have hstarted := Transition.Run.snoc (.snoc hrefused (step_start h 0 rfl))
    (step_start h 1 rfl)
  have hfirst := Transition.Run.snoc (.snoc (.snoc (.snoc hstarted (a := .removeFile 0) rfl)
    (a := .bind 0) rfl) (a := .attempt 0 (some 0)) rfl) (a := .answer 0) rfl
  have hsecond := Transition.Run.snoc (.snoc (.snoc (.snoc hfirst (a := .removeFile 1) rfl)
    (a := .bind 1) rfl) (a := .attempt 1 (some 1)) rfl) (a := .answer 1) rfl
  exact ⟨_, _, hsecond, rfl, rfl, rfl, rfl⟩

/-- With a pipe, the second broker is refused, and both clients come to the first one. -/
theorem exists_one_broker {machine : Machine} {spawned : Spawned}
    (h : machine.startBroker = .ok spawned) :
    ∃ events s, Run true false (fun _ => true) events s ∧ s.windows = true ∧ s.endpoint = .bound 0 ∧
      s.clients 0 = .connected 0 ∧ s.clients 1 = .connected 0 ∧ s.stageOf 1 = some .exited := by
  have hrefused : Run true false (fun _ => true) [.attempt 0 none, .attempt 1 none] _ :=
    .snoc (.snoc .start rfl) rfl
  have hstarted := Transition.Run.snoc (.snoc hrefused (step_start h 0 rfl))
    (step_start h 1 rfl)
  have hfirst := Transition.Run.snoc (.snoc (.snoc (.snoc hstarted (a := .createFirst 0) rfl)
    (a := .createFirst 1) rfl) (a := .attempt 0 (some 0)) rfl) (a := .answer 0) rfl
  have hsecond := Transition.Run.snoc (.snoc (.snoc hfirst (a := .createNext 0) rfl)
    (a := .attempt 1 (some 0)) rfl) (a := .answer 1) rfl
  exact ⟨_, _, hsecond, rfl, rfl, rfl, rfl, rfl⟩

theorem orderly_two_brokers :
    (∃ s : Startup, s.Orderly ∧
      s.clients 0 = .connected 0 ∧ s.clients 1 = .connected 1 ∧
      s.stageOf 0 = some (.listening true) ∧ s.stageOf 1 = some (.listening true)) ∧
    ∃ s : Startup, s.Orderly ∧
      s.clients 0 = .connected 0 ∧ s.clients 1 = .connected 0 ∧ s.stageOf 1 = some .exited ∧
      ∀ b free, s.stageOf b = some (.listening free) → b = 0 := by
  obtain ⟨spawned, hstart⟩ := Machine.exists_startBroker_installed
  obtain ⟨events, s, hrun, hstages⟩ := exists_two_brokers hstart
  obtain ⟨events', s', hrun', hwindows, hbound, hfirst, hsecond, hexited⟩ := exists_one_broker hstart
  refine ⟨⟨s, orderly hrun, hstages⟩, s', orderly hrun', hfirst, hsecond, hexited, fun b free hb => ?_⟩
  exact (Endpoint.bound.inj (hbound.symm.trans ((orderly hrun').alone hwindows b free hb))).symm

end Startup

end McpLocator.Client
