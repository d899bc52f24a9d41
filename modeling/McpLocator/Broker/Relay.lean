import Mathlib.Logic.Function.Basic
import McpLocator.Lib.Queue
import McpLocator.Lib.Run

namespace McpLocator.Broker

/-!
# The relay of a grant (activation.rs)

`relay` runs two copies, from the client to the child and from the child to the client, until one of
them returns.

* `Flow` — one direction of it: three queues in series, and what has been read of the last.
* `Relay`, `Relay.step` — the task with both directions, and the two parties at its ends.
* `Run.finished` — a copy that has returned has handed over everything (`Flow.Finished.handed_eq`).
-/

/-! ### One direction -/

/-- The bytes on their way through one copy. -/
structure Flow where
  /-- Written by the one party, for the relay to read. -/
  source : Queue UInt8
  /-- The buffer of `tokio::io::copy`. -/
  buffer : Queue UInt8
  /-- Written by the relay, for the other party to read. -/
  sink : Queue UInt8
  /-- The party that writes has closed its end. -/
  closed : Bool
  /-- The copy has met the end of the stream. -/
  readDone : Bool
  /-- What the other party has read, read by read. -/
  reads : List (List UInt8)
  filled : source.Feeds buffer
  drained : buffer.Feeds sink
  arrived : reads.flatten = sink.taken
  atEnd : readDone = true → closed = true ∧ source.waiting = []

namespace Flow

def new : Flow where
  source := .empty
  buffer := .empty
  sink := .empty
  closed := false
  readDone := false
  reads := []
  filled := .empty
  drained := .empty
  arrived := rfl
  atEnd := fun h => absurd h (by simp)

/-- All that the one party has written. -/
def written (flow : Flow) : List UInt8 := flow.source.entered

/-- All that the relay has written to the other one. -/
def handed (flow : Flow) : List UInt8 := flow.sink.entered

/-- All that the other one has read. -/
def received (flow : Flow) : List UInt8 := flow.reads.flatten

/-- The party writes. -/
def write (flow : Flow) (chunk : List UInt8) : Option Flow :=
  if hclosed : flow.closed = false then some
    { flow with
      source := flow.source.put chunk
      filled := flow.filled.put chunk
      atEnd := fun h => absurd ((flow.atEnd h).1.symm.trans hclosed) (by simp) }
  else none

/-- The party closes its end. -/
def close (flow : Flow) : Flow :=
  { flow with closed := true, atEnd := fun h => ⟨rfl, (flow.atEnd h).2⟩ }

/-- The copy reads `n` bytes. -/
def fill (flow : Flow) (n : Nat) : Option Flow :=
  if 0 < n ∧ n ≤ flow.source.waiting.length then some
    { flow with
      source := flow.source.take n
      buffer := flow.buffer.put (flow.source.front n)
      filled := flow.filled.pass n
      drained := flow.drained.put _
      atEnd := fun h => ⟨(flow.atEnd h).1, by
        rw [Queue.waiting_take, (flow.atEnd h).2, List.drop_nil]⟩ }
  else none

/-- The copy reads nothing, since nothing more will come. -/
def eof (flow : Flow) : Option Flow :=
  if hend : flow.closed = true ∧ flow.source.waiting = [] then some
    { flow with readDone := true, atEnd := fun _ => hend }
  else none

/-- The copy writes `n` bytes. -/
def drain (flow : Flow) (n : Nat) : Option Flow :=
  if 0 < n ∧ n ≤ flow.buffer.waiting.length then some
    { flow with
      buffer := flow.buffer.take n
      sink := flow.sink.put (flow.buffer.front n)
      filled := flow.filled.take n
      drained := flow.drained.pass n
      arrived := flow.arrived }
  else none

/-- The other party reads `n` bytes. -/
def take (flow : Flow) (n : Nat) : Option Flow :=
  if 0 < n ∧ n ≤ flow.sink.waiting.length then some
    { flow with
      sink := flow.sink.take n
      reads := flow.reads ++ [flow.sink.front n]
      drained := flow.drained.take n
      arrived := by rw [List.flatten_append, flow.arrived, List.flatten_singleton, Queue.taken_take] }
  else none

/-- The copy has nothing left to do. -/
def Finished (flow : Flow) : Prop := flow.readDone = true ∧ flow.buffer.waiting = []

instance (flow : Flow) : Decidable flow.Finished := inferInstanceAs (Decidable (_ ∧ _))

/-- What has been handed over comes first in what was written. -/
theorem handed_isPrefix (flow : Flow) : flow.handed <+: flow.written := by
  have hbuffer := flow.filled.isPrefix_entered
  rw [flow.drained] at hbuffer
  exact hbuffer

theorem received_isPrefix (flow : Flow) : flow.received <+: flow.handed := by
  rw [received, flow.arrived]
  exact flow.sink.taken_isPrefix

/-- **A finished copy has handed over everything.** -/
theorem Finished.handed_eq {flow : Flow} (h : flow.Finished) : flow.handed = flow.written := by
  have hsource := Queue.taken_eq_entered (flow.atEnd h.1).2
  have hbuffer := Queue.taken_eq_entered h.2
  calc flow.sink.entered
    _ = flow.buffer.taken := flow.drained.symm
    _ = flow.buffer.entered := hbuffer
    _ = flow.source.taken := flow.filled.symm
    _ = flow.source.entered := hsource

theorem written_of_write {flow flow' : Flow} {chunk : List UInt8} (h : flow.write chunk = some flow') :
    flow'.written = flow.written ++ chunk := by
  rw [write, Option.dite_none_right_eq_some] at h
  obtain ⟨hclosed, heq⟩ := h
  obtain rfl := Option.some.inj heq
  exact flow.source.entered_put chunk

theorem written_of_fill {flow flow' : Flow} {n : Nat} (h : flow.fill n = some flow') :
    flow'.written = flow.written := by
  rw [fill, Option.ite_none_right_eq_some] at h
  obtain rfl := Option.some.inj h.2
  exact flow.source.entered_take n

theorem written_of_eof {flow flow' : Flow} (h : flow.eof = some flow') :
    flow'.written = flow.written := by
  rw [eof, Option.dite_none_right_eq_some] at h
  obtain ⟨hend, heq⟩ := h
  obtain rfl := Option.some.inj heq
  rfl

theorem written_of_drain {flow flow' : Flow} {n : Nat} (h : flow.drain n = some flow') :
    flow'.written = flow.written := by
  rw [drain, Option.ite_none_right_eq_some] at h
  obtain rfl := Option.some.inj h.2
  rfl

theorem written_of_take {flow flow' : Flow} {n : Nat} (h : flow.take n = some flow') :
    flow'.written = flow.written := by
  rw [take, Option.ite_none_right_eq_some] at h
  obtain rfl := Option.some.inj h.2
  rfl

/-- Nothing passes: no more is handed over, and what was finished is finished. -/
structure Kept (flow flow' : Flow) : Prop where
  handed : flow'.handed = flow.handed
  finished : flow.Finished → flow'.Finished

theorem Kept.refl (flow : Flow) : Kept flow flow := ⟨rfl, id⟩

theorem Kept.trans {flow₁ flow₂ flow₃ : Flow} (h : Kept flow₁ flow₂) (h' : Kept flow₂ flow₃) :
    Kept flow₁ flow₃ :=
  ⟨h'.handed.trans h.handed, fun hfinished => h'.finished (h.finished hfinished)⟩

theorem kept_close (flow : Flow) : Kept flow flow.close := ⟨rfl, id⟩

theorem kept_take {flow flow' : Flow} {n : Nat} (h : flow.take n = some flow') : Kept flow flow' := by
  rw [take, Option.ite_none_right_eq_some] at h
  obtain rfl := Option.some.inj h.2
  exact ⟨flow.sink.entered_take n, id⟩

end Flow

/-! ### The relay -/

inductive Direction where
  | toChild | toClient
deriving DecidableEq

/-- Where the task stands. -/
inductive RelayPhase where
  | accepting
  | pumping
  /-- A copy has returned. -/
  | ended (direction : Direction)
  /-- Nobody could be accepted, or a copy has returned an error. -/
  | failed
  /-- The grant was released. -/
  | aborted
deriving DecidableEq

/-- The task holds its ends of the streams. -/
def RelayPhase.isOpen : RelayPhase → Bool
  | accepting | pumping => true
  | ended _ | failed | aborted => false

structure Relay where
  phase : RelayPhase
  flow : Direction → Flow

/-- What can happen, in any order. -/
inductive RelayEvent where
  /-- A party writes to the stream that leads in the direction. -/
  | write (direction : Direction) (chunk : List UInt8)
  | close (direction : Direction)
  | accept
  | acceptFailed
  | fill (direction : Direction) (n : Nat)
  | eof (direction : Direction)
  | drain (direction : Direction) (n : Nat)
  | returns (direction : Direction)
  | returnsError (direction : Direction)
  /-- A party reads from the stream that leads in the direction. -/
  | take (direction : Direction) (n : Nat)
  | abort

namespace Relay

/-- The task is spawned. -/
def new : Relay := ⟨.accepting, fun _ => .new⟩

def setFlow (relay : Relay) (direction : Direction) (flow : Flow) : Relay :=
  { relay with flow := Function.update relay.flow direction flow }

/-- One thing happens.  The streams are closed when the task is over: what is still in its hands is
    lost, what it has written can be read. -/
def step (relay : Relay) : RelayEvent → Option Relay
  | .write d chunk =>
    if relay.phase.isOpen then ((relay.flow d).write chunk).map (relay.setFlow d) else none
  | .close d => some (relay.setFlow d (relay.flow d).close)
  | .accept => if relay.phase = .accepting then some { relay with phase := .pumping } else none
  | .acceptFailed => if relay.phase = .accepting then some { relay with phase := .failed } else none
  | .fill d n =>
    if relay.phase = .pumping then ((relay.flow d).fill n).map (relay.setFlow d) else none
  | .eof d => if relay.phase = .pumping then (relay.flow d).eof.map (relay.setFlow d) else none
  | .drain d n =>
    if relay.phase = .pumping then ((relay.flow d).drain n).map (relay.setFlow d) else none
  | .returns d =>
    if relay.phase = .pumping ∧ (relay.flow d).Finished then some { relay with phase := .ended d }
    else none
  | .returnsError _ => if relay.phase = .pumping then some { relay with phase := .failed } else none
  | .take d n => ((relay.flow d).take n).map (relay.setFlow d)
  -- a task that is over is not aborted any more
  | .abort => some (if relay.phase.isOpen then { relay with phase := .aborted } else relay)

/-- A run of the relay. -/
abbrev Run : Relay → List RelayEvent → Relay → Prop :=
  Transition.Run fun relay event relay' => relay.step event = some relay'

variable {relay relay' : Relay} {event : RelayEvent} {d : Direction}

@[simp] theorem flow_setFlow_self (relay : Relay) (d : Direction) (flow : Flow) :
    (relay.setFlow d flow).flow d = flow :=
  Function.update_self ..

theorem flow_setFlow_of_ne (relay : Relay) {d d' : Direction} (flow : Flow) (h : d' ≠ d) :
    (relay.setFlow d flow).flow d' = relay.flow d' :=
  Function.update_of_ne h ..

/-! ### What is written -/

/-- A step of one direction that writes nothing. -/
theorem written_setFlow {flow : Flow} (h : flow.written = (relay.flow d).written) (d' : Direction) :
    ((relay.setFlow d flow).flow d').written = (relay.flow d').written := by
  by_cases hd : d' = d
  · subst hd
    rw [flow_setFlow_self, h]
  · rw [flow_setFlow_of_ne relay flow hd]

theorem written_of_step_write {chunk : List UInt8} (h : relay.step (.write d chunk) = some relay') :
    (relay'.flow d).written = (relay.flow d).written ++ chunk := by
  rw [step, Option.ite_none_right_eq_some] at h
  obtain ⟨flow, hwrite, rfl⟩ := Option.map_eq_some_iff.mp h.2
  rw [flow_setFlow_self, Flow.written_of_write hwrite]

/-- Nobody else writes. -/
theorem written_of_step (hne : ∀ chunk, event ≠ .write d chunk) (h : relay.step event = some relay') :
    (relay'.flow d).written = (relay.flow d).written := by
  cases event with
  | write d' chunk =>
    rw [step, Option.ite_none_right_eq_some] at h
    obtain ⟨flow, -, rfl⟩ := Option.map_eq_some_iff.mp h.2
    have hd : d ≠ d' := fun heq => hne chunk (heq ▸ rfl)
    rw [flow_setFlow_of_ne relay flow hd]
  | fill d' n =>
    rw [step, Option.ite_none_right_eq_some] at h
    obtain ⟨flow, hfill, rfl⟩ := Option.map_eq_some_iff.mp h.2
    exact written_setFlow (Flow.written_of_fill hfill) d
  | eof d' =>
    rw [step, Option.ite_none_right_eq_some] at h
    obtain ⟨flow, heof, rfl⟩ := Option.map_eq_some_iff.mp h.2
    exact written_setFlow (Flow.written_of_eof heof) d
  | drain d' n =>
    rw [step, Option.ite_none_right_eq_some] at h
    obtain ⟨flow, hdrain, rfl⟩ := Option.map_eq_some_iff.mp h.2
    exact written_setFlow (Flow.written_of_drain hdrain) d
  | take d' n =>
    obtain ⟨flow, htake, rfl⟩ := Option.map_eq_some_iff.mp h
    exact written_setFlow (Flow.written_of_take htake) d
  | close d' =>
    obtain rfl := Option.some.inj h
    exact @written_setFlow relay d' (relay.flow d').close rfl d
  | accept | acceptFailed | returns _ | returnsError _ =>
    rw [step, Option.ite_none_right_eq_some] at h
    obtain rfl := Option.some.inj h.2
    rfl
  | abort =>
    obtain rfl := Option.some.inj h
    split <;> rfl

/-! ### The end -/

/-- A step of one direction that lets nothing pass. -/
theorem kept_setFlow {flow : Flow} (h : Flow.Kept (relay.flow d) flow) (d' : Direction) :
    Flow.Kept (relay.flow d') ((relay.setFlow d flow).flow d') := by
  by_cases hd : d' = d
  · subst hd
    rw [flow_setFlow_self]
    exact h
  · rw [flow_setFlow_of_ne relay flow hd]
    exact .refl _

/-- The task moves bytes, or it ends; where it is over, only the parties do something: they close their
    ends and read what was written for them. -/
theorem step_cases (h : relay.step event = some relay') :
    (relay.phase.isOpen = true ∧ ∀ d, relay'.phase = .ended d → (relay'.flow d).Finished) ∨
      (relay'.phase = relay.phase ∧ ∀ d, Flow.Kept (relay.flow d) (relay'.flow d)) := by
  -- a step of an open task that leaves the phase as it is
  have hmoved : ∀ {d flow}, relay.phase.isOpen = true → relay' = relay.setFlow d flow →
      relay.phase.isOpen = true ∧ ∀ d, relay'.phase = .ended d → (relay'.flow d).Finished := by
    rintro d flow hopen rfl
    refine ⟨hopen, fun d' hended => ?_⟩
    rw [show (relay.setFlow d flow).phase = relay.phase from rfl] at hended
    rw [hended] at hopen
    exact absurd hopen (by simp [RelayPhase.isOpen])
  have hpumping : relay.phase = .pumping → relay.phase.isOpen = true := fun heq => by rw [heq]; rfl
  have haccepting : relay.phase = .accepting → relay.phase.isOpen = true := fun heq => by rw [heq]; rfl
  cases event with
  | write d chunk =>
    rw [step, Option.ite_none_right_eq_some] at h
    obtain ⟨hopen, hmap⟩ := h
    obtain ⟨flow, -, hflow⟩ := Option.map_eq_some_iff.mp hmap
    exact .inl (hmoved hopen hflow.symm)
  | fill d n | drain d n | eof d =>
    rw [step, Option.ite_none_right_eq_some] at h
    obtain ⟨hphase, hmap⟩ := h
    obtain ⟨flow, -, hflow⟩ := Option.map_eq_some_iff.mp hmap
    exact .inl (hmoved (hpumping hphase) hflow.symm)
  | accept | acceptFailed =>
    rw [step, Option.ite_none_right_eq_some] at h
    obtain ⟨hphase, heq⟩ := h
    obtain rfl := Option.some.inj heq
    exact .inl ⟨haccepting hphase, by simp⟩
  | returns d =>
    rw [step, Option.ite_none_right_eq_some] at h
    obtain ⟨⟨hphase, hfinished⟩, heq⟩ := h
    obtain rfl := Option.some.inj heq
    refine .inl ⟨hpumping hphase, fun d' hd' => ?_⟩
    obtain rfl := RelayPhase.ended.inj hd'
    exact hfinished
  | returnsError d =>
    rw [step, Option.ite_none_right_eq_some] at h
    obtain ⟨hphase, heq⟩ := h
    obtain rfl := Option.some.inj heq
    exact .inl ⟨hpumping hphase, by simp⟩
  | close d =>
    obtain rfl := Option.some.inj h
    exact .inr ⟨rfl, kept_setFlow (relay.flow d).kept_close⟩
  | take d n =>
    obtain ⟨flow, htake, rfl⟩ := Option.map_eq_some_iff.mp h
    exact .inr ⟨rfl, kept_setFlow (Flow.kept_take htake)⟩
  | abort =>
    obtain rfl := Option.some.inj h
    by_cases hopen : relay.phase.isOpen = true
    · rw [if_pos hopen]
      exact .inl ⟨hopen, by simp⟩
    · rw [if_neg hopen]
      exact .inr ⟨rfl, fun d => .refl _⟩

/-- A copy that has returned is finished. -/
theorem Run.finished {events : List RelayEvent} (h : Run .new events relay)
    (hended : relay.phase = .ended d) : (relay.flow d).Finished := by
  have hall := Transition.Run.invariant (P := fun r => ∀ d, r.phase = .ended d →
    (r.flow d).Finished) h (fun d hd => absurd hd (by simp [new])) fun r event r' hr hs d hd => by
      rcases step_cases hs with ⟨-, hfinished⟩ | ⟨hsame, hkept⟩
      · exact hfinished d hd
      · exact (hkept d).finished (hr d (hsame.symm.trans hd))
  exact hall d hended

end Relay

end McpLocator.Broker
