import McpLocator.Broker.Approval
import McpLocator.Broker.Departure
import McpLocator.Json.FromStr
import McpLocator.Lib.Lines

namespace McpLocator.Broker

open Std (ExtTreeMap)
open McpLocator.Json McpLocator.Proto

/-!
# The audit log (audit.rs)

* `Note` — what `record` is called with; `Broker.notes` — the calls that an event makes.
* `Note.line`, `Journal.text` — the lines of the file; `Journal.readLog_text`: the lines read back are
  those of earlier brokers and the notes that were written, so that nothing in a note can forge another.
* `holdings` — who holds which grant, by the notes alone; `holdings_eq`: this is the engine's table in
  every state reached.
* `verdicts` — what the user decided, by the notes alone; `approved_by_log`: a line tells of an
  activation only where the last verdict on the server was a grant.
-/

set_option linter.dupNamespace false

/-! ### What is recorded -/

/-- The arguments of a call to `record`. -/
structure Note where
  event : String
  server : String
  clientPid : Option Nat
  detail : String
deriving DecidableEq, Repr

namespace Engine

def releaseNotes (engine : Engine) (id : String) : List Note :=
  match engine.grants[id]? with
  | none => []
  | some grant => [⟨"release", grant.name, grant.clientPid, id⟩]

/-- The notes of grants released one after the other. -/
def releaseAllNotes (engine : Engine) : List String → List Note
  | [] => []
  | id :: ids => engine.releaseNotes id ++ (engine.release id).2.releaseAllNotes ids

/-- An activation is noted if it is refused for want of consent, or if it succeeds. -/
def activateNotes (entry : Entry) (clientPid : Option Nat) :
    Except ActivateError ActivateResult → List Note
  | .error (.consentRequired name state) => [⟨"activate-refused", name, clientPid, state.debug⟩]
  | .error _ => []
  | .ok result => [⟨"activate", entry.name, clientPid, result.grantId⟩]

def deactivateNotes (engine : Engine) (order : IterationOrder) (name : String) (force : Bool) :
    List Note :=
  match (engine.deactivate order name force).1 with
  | .error _ => []
  | .ok _ =>
    engine.releaseAllNotes (order.1 (engine.grantsWhere fun g => g.name == name)) ++
      [⟨"deactivate", name, none, s!"force={force}"⟩]

/-- The notes of servers stopped one after the other. -/
def reapNotes (engine : Engine) : List String → List Note
  | [] => []
  | name :: names =>
    (if (engine.server name).child.isSome then [⟨"idle-shutdown", name, none, ""⟩] else []) ++
      (engine.reap name).reapNotes names

/-- What an operation of the engine records. -/
def notes (engine : Engine) : Operation → List Note
  | .activate entry connection clientPid outcome =>
    activateNotes entry clientPid (engine.activate entry connection clientPid outcome).1
  | .release id => engine.releaseNotes id
  | .releaseConnection order connection =>
    engine.releaseAllNotes (order.1 (engine.grantsWhere fun g => g.connection == connection))
  | .deactivate order name force => engine.deactivateNotes order name force
  | .reapIdle order => engine.reapNotes (order.1 engine.expired)
  | .evaluate _ _ | .decide _ _ _ _ | .elapse _ | .expire _ | .exit _ | .outOfBand _ _ _ _ => []

/-- What operations record, one after the other. -/
def allNotes (engine : Engine) : List Operation → List Note
  | [] => []
  | operation :: operations => engine.notes operation ++ (engine.perform operation).allNotes operations

/-- What recording an answer to a prompt notes: a grant that could not be written is not noted. -/
def answerNotes (engine : Engine) (entry : Entry) (clientPid : Option Nat) (now : String)
    (outcome : WriteOutcome) : Decision → List Note
  | .allow =>
    match (engine.consent.grant outcome engine.disk now entry.name entry.launchHash
      (launchSummary entry) .user).1 with
    | .error _ => []
    | .ok () => [⟨"consent-granted", entry.name, clientPid, "prompt"⟩]
  | .deny => [⟨"consent-denied", entry.name, clientPid, "prompt"⟩]
  | .unanswered => [⟨"consent-unanswered", entry.name, clientPid, "prompt"⟩]

end Engine

/-- What an event of the broker records. -/
def Broker.notes (broker : Broker) (event : Event) : List Note :=
  match event with
  | .answer c decision now outcome =>
    match broker.tasks c with
    | .prompt _ entry _ => broker.engine.answerNotes entry (broker.clientPid c) now outcome decision
    | _ => []
  | event => broker.engine.allNotes (broker.operations event)

/-- A broker with the operations it has performed and what it has recorded. -/
structure Journal where
  recorded : Recorded
  /-- What was in `audit.log` when the broker was started: the lines of earlier brokers. -/
  before : List Char
  /-- The calls to `record`, oldest first. -/
  notes : List Note

namespace Journal

def new (disk : Disk) (now brokerPid nextGrant : Nat) (available : Bool)
    (clientPid : Nat → Option Nat) (before : List Char) : Journal :=
  { recorded := .new disk now brokerPid nextGrant available clientPid, before, notes := [] }

def step (sha256 : List Char → String) (j : Journal) (event : Event) : Option Journal :=
  (j.recorded.step sha256 event).map fun recorded =>
    { j with recorded, notes := j.notes ++ j.recorded.broker.notes event }

def Reached (sha256 : List Char → String) (init : Journal) (events : List Event) (j : Journal) :
    Prop :=
  Transition.Run (fun j event j' => j.step sha256 event = some j') init events j

variable {sha256 : List Char → String} {init j j' : Journal} {event : Event} {events : List Event}

theorem step_eq_some : j.step sha256 event = some j' ↔
    ∃ recorded, j.recorded.step sha256 event = some recorded ∧
      j' = { j with recorded, notes := j.notes ++ j.recorded.broker.notes event } := by
  simp [step, eq_comm]

/-- Recording does not change what the broker does. -/
theorem Reached.recorded (h : Reached sha256 init events j) :
    Recorded.Reached sha256 init.recorded events j.recorded := by
  induction h with
  | start => exact .start
  | snoc _ hs ih =>
    obtain ⟨recorded, hrecorded, rfl⟩ := step_eq_some.mp hs
    exact .snoc ih hrecorded

/-- Lines are only added. -/
theorem Reached.before_eq (h : Reached sha256 init events j) : j.before = init.before := by
  induction h with
  | start => rfl
  | snoc _ hs ih =>
    obtain ⟨recorded, -, rfl⟩ := step_eq_some.mp hs
    exact ih

end Journal

/-! ### What a note can be -/

namespace Engine

variable {engine : Engine}

theorem mem_releaseAllNotes {ids : List String} {note : Note} (h : note ∈ engine.releaseAllNotes ids) :
    ∃ id grant, engine.grants[id]? = some grant ∧
      note = ⟨"release", grant.name, grant.clientPid, id⟩ := by
  induction ids generalizing engine with
  | nil => exact absurd h List.not_mem_nil
  | cons id ids ih =>
    rcases List.mem_append.mp h with h | h
    · unfold releaseNotes at h
      split at h
      · exact absurd h List.not_mem_nil
      · rename_i grant hgrant
        exact ⟨id, grant, hgrant, List.mem_singleton.mp h⟩
    · -- what is there after a release was there before
      obtain ⟨id', grant, hgrant, rfl⟩ := ih h
      rw [release_frame] at hgrant
      dsimp only at hgrant
      rw [ExtTreeMap.getElem?_erase] at hgrant
      split at hgrant
      · exact absurd hgrant (by simp)
      · exact ⟨id', grant, hgrant, rfl⟩

theorem mem_reapNotes {names : List String} {note : Note} (h : note ∈ engine.reapNotes names) :
    ∃ name, note = ⟨"idle-shutdown", name, none, ""⟩ := by
  induction names generalizing engine with
  | nil => exact absurd h List.not_mem_nil
  | cons name names ih =>
    rcases List.mem_append.mp h with h | h
    · split at h
      · exact ⟨name, List.mem_singleton.mp h⟩
      · exact absurd h List.not_mem_nil
    · exact ih h

/-- All that an operation can note. -/
inductive Noted (engine : Engine) : Operation → Note → Prop where
  | refused (entry : Entry) (connection : Nat) (clientPid : Option Nat) (outcome : StartOutcome)
      (server detail : String) :
    Noted engine (.activate entry connection clientPid outcome)
      ⟨"activate-refused", server, clientPid, detail⟩
  | activated (entry : Entry) (connection : Nat) (clientPid : Option Nat) (outcome : StartOutcome)
      (detail : String) (granted : (engine.consentFor entry).state = .granted) :
    Noted engine (.activate entry connection clientPid outcome)
      ⟨"activate", entry.name, clientPid, detail⟩
  | released (operation : Operation) (id : String) (grant : Grant)
      (held : engine.grants[id]? = some grant) :
    Noted engine operation ⟨"release", grant.name, grant.clientPid, id⟩
  | deactivated (order : IterationOrder) (name : String) (force : Bool) :
    Noted engine (.deactivate order name force) ⟨"deactivate", name, none, s!"force={force}"⟩
  | reaped (order : IterationOrder) (name : String) :
    Noted engine (.reapIdle order) ⟨"idle-shutdown", name, none, ""⟩

theorem noted_of_releaseAll {ids : List String} {note : Note} (operation : Operation)
    (h : note ∈ engine.releaseAllNotes ids) : Noted engine operation note := by
  obtain ⟨id, grant, hgrant, rfl⟩ := mem_releaseAllNotes h
  exact .released operation id grant hgrant

theorem noted_of_activate {entry : Entry} {connection : Nat} {clientPid : Option Nat}
    {outcome : StartOutcome} {result : Except ActivateError ActivateResult} {engine' : Engine}
    {note : Note} (ha : Activated engine entry connection clientPid result engine')
    (h : note ∈ activateNotes entry clientPid result) :
    Noted engine (.activate entry connection clientPid outcome) note := by
  have of_error : ∀ e : ActivateError, note ∈ activateNotes entry clientPid (.error e) →
      Noted engine (.activate entry connection clientPid outcome) note := by
    intro e h
    cases e with
    | consentRequired name state =>
      rw [List.mem_singleton.mp h]
      exact .refused entry connection clientPid outcome name _
    | _ => exact absurd h List.not_mem_nil
  cases ha with
  | orphaned => exact of_error _ h
  | refused e => exact of_error e h
  | notStarted e => exact of_error e h
  | granted kind info started hgranted =>
    rw [List.mem_singleton.mp h]
    exact .activated entry connection clientPid outcome _ hgranted

theorem noted_of_mem {operation : Operation} {note : Note} (h : note ∈ engine.notes operation) :
    Noted engine operation note := by
  cases operation with
  | activate entry connection clientPid outcome =>
    exact noted_of_activate (engine.activate_activated entry connection clientPid outcome) h
  | release id =>
    have hall : note ∈ engine.releaseAllNotes [id] := List.mem_append_left [] h
    exact noted_of_releaseAll _ hall
  | releaseConnection order connection => exact noted_of_releaseAll _ h
  | deactivate order name force =>
    unfold notes deactivateNotes at h
    dsimp only at h
    split at h
    · exact absurd h List.not_mem_nil
    · rcases List.mem_append.mp h with h | h
      · exact noted_of_releaseAll _ h
      · rw [List.mem_singleton.mp h]
        exact .deactivated order name force
  | reapIdle order =>
    obtain ⟨name, rfl⟩ := mem_reapNotes h
    exact .reaped order name
  | evaluate | decide | elapse | expire | exit | outOfBand => exact absurd h List.not_mem_nil

end Engine

/-! ### Who holds what -/

/-- A grant as the log tells it: the server, and the client. -/
abbrev Holdings := ExtTreeMap String (String × Option Nat)

/-- What a note says of the grants. -/
def Note.hold (held : Holdings) (note : Note) : Holdings :=
  if note.event = "activate" then held.insert note.detail (note.server, note.clientPid)
  else if note.event = "release" then held.erase note.detail
  else held

/-- Who holds which grant, by the notes alone. -/
def holdings (notes : List Note) : Holdings := notes.foldl Note.hold ∅

/-- The grants of an engine, as far as the log tells of them. -/
def Engine.Holds (engine : Engine) (held : Holdings) : Prop :=
  ∀ id : String, held[id]? = (engine.grants[id]?).map fun g : Grant => (g.name, g.clientPid)

section Holdings

variable {engine : Engine} {held : Holdings}

theorem holds_releaseNotes (h : engine.Holds held) (id : String) :
    (engine.release id).2.Holds ((engine.releaseNotes id).foldl Note.hold held) := by
  intro key
  unfold Engine.releaseNotes
  rw [Engine.release_frame]
  dsimp only
  rw [ExtTreeMap.getElem?_erase]
  cases hgrant : engine.grants[id]? with
  | none =>
    rw [List.foldl_nil, h key]
    split
    · rename_i heq
      rw [← compare_eq_iff_eq.mp heq, hgrant]
    · rfl
  | some grant =>
    show (held.erase id)[key]? = _
    rw [ExtTreeMap.getElem?_erase]
    split
    · rfl
    · exact h key

theorem holds_releaseAllNotes (h : engine.Holds held) (ids : List String) :
    (engine.releaseAll ids).Holds ((engine.releaseAllNotes ids).foldl Note.hold held) := by
  induction ids generalizing engine held with
  | nil => exact h
  | cons id ids ih =>
    rw [Engine.releaseAllNotes, List.foldl_append]
    exact ih (holds_releaseNotes h id)

theorem Engine.Holds.of_grants {engine' : Engine} (h : engine.Holds held)
    (hgrants : engine'.grants = engine.grants) : engine'.Holds held := by
  intro id
  rw [hgrants]
  exact h id

/-- Notes that are neither of an activation nor of a release say nothing of the grants. -/
theorem foldl_hold_of_other {notes : List Note} (held : Holdings)
    (h : ∀ note ∈ notes, note.event ≠ "activate" ∧ note.event ≠ "release") :
    notes.foldl Note.hold held = held := by
  induction notes with
  | nil => rfl
  | cons note notes ih =>
    obtain ⟨ha, hr⟩ := h note List.mem_cons_self
    rw [List.foldl_cons, Note.hold, if_neg ha, if_neg hr]
    exact ih fun n hn => h n (List.mem_cons_of_mem _ hn)

theorem hold_activateNotes_error (held : Holdings) (entry : Entry) (clientPid : Option Nat)
    (e : ActivateError) :
    (Engine.activateNotes entry clientPid (.error e)).foldl Note.hold held = held := by
  refine foldl_hold_of_other held fun note hnote => ?_
  cases e with
  | consentRequired name state =>
    rw [List.mem_singleton.mp hnote]
    simp
  | _ => exact absurd hnote List.not_mem_nil

theorem holds_activated (h : engine.Holds held) {entry : Entry} {connection : Nat}
    {clientPid : Option Nat} {result : Except ActivateError ActivateResult} {engine' : Engine}
    (ha : Engine.Activated engine entry connection clientPid result engine') :
    engine'.Holds ((Engine.activateNotes entry clientPid result).foldl Note.hold held) := by
  cases ha with
  | orphaned => exact h
  | refused e =>
    rw [hold_activateNotes_error]
    exact h.of_grants rfl
  | notStarted e _ _ hs =>
    rw [hold_activateNotes_error]
    refine h.of_grants ?_
    cases hs <;> rfl
  | granted kind info started _ _ hs =>
    intro id
    have hgrants : started.grants = engine.grants := by cases hs <;> rfl
    show (held.insert (Engine.grantId engine.brokerPid engine.nextGrant) (entry.name, clientPid))[id]? =
      ((started.grants.insert (Engine.grantId engine.brokerPid engine.nextGrant) _)[id]?).map _
    rw [ExtTreeMap.getElem?_insert, ExtTreeMap.getElem?_insert, hgrants]
    split
    · rfl
    · exact h id

/-- A deactivation is refused, or it leaves the table as releasing the grants of the server does. -/
theorem deactivate_outcome (engine : Engine) (order : IterationOrder) (name : String) (force : Bool) :
    (∃ holders, engine.deactivate order name force = (.error holders, engine)) ∨
      ∃ n engine', engine.deactivate order name force = (.ok n, engine') ∧ engine'.grants =
        (engine.releaseAll (order.1 (engine.grantsWhere fun g => g.name == name))).grants := by
  unfold Engine.deactivate
  dsimp only
  split
  · exact .inl ⟨_, rfl⟩
  · split
    · exact .inr ⟨_, _, rfl, rfl⟩
    · exact .inr ⟨_, _, rfl, Engine.shutdownAny_grants _ _⟩

/-- **What an operation records accounts for what it does to the grants.** -/
theorem holds_notes (h : engine.Holds held) (operation : Operation) :
    (engine.perform operation).Holds ((engine.notes operation).foldl Note.hold held) := by
  cases operation with
  | activate entry connection clientPid outcome =>
    exact holds_activated h (engine.activate_activated entry connection clientPid outcome)
  | release id => exact holds_releaseNotes h id
  | releaseConnection order connection => exact holds_releaseAllNotes h _
  | deactivate order name force =>
    show (engine.deactivate order name force).2.Holds
      ((engine.deactivateNotes order name force).foldl Note.hold held)
    unfold Engine.deactivateNotes
    rcases deactivate_outcome engine order name force with ⟨holders, heq⟩ | ⟨n, engine', heq, hgrants⟩
    · rw [heq]
      exact h
    · rw [heq]
      dsimp only
      rw [List.foldl_append]
      exact (holds_releaseAllNotes h _).of_grants hgrants
  | reapIdle order =>
    have hother : (engine.reapNotes (order.1 engine.expired)).foldl Note.hold held = held := by
      refine foldl_hold_of_other held fun note hnote => ?_
      obtain ⟨name, rfl⟩ := Engine.mem_reapNotes hnote
      simp
    show (engine.reapIdle order).Holds ((engine.reapNotes (order.1 engine.expired)).foldl Note.hold held)
    rw [hother]
    exact h.of_grants (Engine.sameGrants_reapIdle engine order).1
  | expire name =>
    refine h.of_grants ?_
    show (engine.expire name).grants = _
    unfold Engine.expire
    split <;> rfl
  | evaluate | decide | elapse | exit | outOfBand => exact h.of_grants rfl

theorem holds_allNotes (h : engine.Holds held) (operations : List Operation) :
    (operations.foldl Engine.perform engine).Holds
      ((engine.allNotes operations).foldl Note.hold held) := by
  induction operations generalizing engine held with
  | nil => exact h
  | cons operation operations ih =>
    rw [Engine.allNotes, List.foldl_append]
    exact ih (holds_notes h operation)

theorem event_of_mem_answerNotes {entry : Entry} {clientPid : Option Nat} {now : String}
    {outcome : WriteOutcome} {decision : Decision} {note : Note}
    (h : note ∈ engine.answerNotes entry clientPid now outcome decision) :
    note.event = "consent-granted" ∨ note.event = "consent-denied" ∨
      note.event = "consent-unanswered" := by
  cases decision with
  | allow =>
    unfold Engine.answerNotes at h
    dsimp only at h
    split at h
    · simp at h
    · exact .inl (List.mem_singleton.mp h ▸ rfl)
  | deny => exact .inr (.inl (List.mem_singleton.mp h ▸ rfl))
  | unanswered => exact .inr (.inr (List.mem_singleton.mp h ▸ rfl))

/-- An event of the broker. -/
theorem holds_event {sha256 : List Char → String} {broker broker' : Broker} {event : Event}
    (h : broker.engine.Holds held) (hs : broker.step sha256 event = some broker') :
    broker'.engine.Holds ((broker.notes event).foldl Note.hold held) := by
  rw [Broker.step_engine hs]
  cases event with
  | answer c decision now outcome =>
    have hother : (broker.notes (.answer c decision now outcome)).foldl Note.hold held = held := by
      refine foldl_hold_of_other held fun note hnote => ?_
      unfold Broker.notes at hnote
      dsimp only at hnote
      split at hnote
      · rcases event_of_mem_answerNotes hnote with he | he | he <;> rw [he] <;> simp
      · simp at hnote
    rw [hother]
    refine h.of_grants ?_
    unfold Broker.operations
    dsimp only
    split
    · cases decision <;> rfl
    · rfl
  | receive | proceed | lockPrompt | hangUp | reap | elapse | expire | exit | outOfBand =>
    exact holds_allNotes h _

end Holdings

/-- **The log accounts for the grants**: in every state reached, who holds which grant can be told
    from what was recorded. -/
theorem holdings_eq {sha256 : List Char → String} {disk : Disk} {now brokerPid nextGrant : Nat}
    {available : Bool} {clientPid : Nat → Option Nat} {before : List Char} {events : List Event}
    {j : Journal}
    (h : Journal.Reached sha256 (.new disk now brokerPid nextGrant available clientPid before) events j) :
    j.recorded.broker.engine.Holds (holdings j.notes) := by
  refine h.invariant (P := fun j => j.recorded.broker.engine.Holds (holdings j.notes)) ?_ ?_
  · intro id
    simp [Journal.new, Recorded.new, Broker.new, Engine.new, holdings]
  · intro j event j' hj hs
    obtain ⟨recorded, hrecorded, rfl⟩ := Journal.step_eq_some.mp hs
    obtain ⟨broker, hbroker, rfl⟩ := Recorded.step_eq_some.mp hrecorded
    rw [holdings, List.foldl_append]
    exact holds_event hj hbroker

/-! ### The file -/

/-- The object that is written for a note. -/
def Note.value (note : Note) (stamp : String) : Value :=
  Serde.ofMembers [("at", .string stamp), ("event", .string note.event),
    ("server", .string note.server), ("clientPid", Serde.ofOption natValue note.clientPid),
    ("detail", .string note.detail)]

def Note.line (note : Note) (stamp : String) : List Char := render (note.value stamp).document

/-- The notes whose line could be appended, with what the clock said; a write that fails is reported
    and forgotten. -/
def appended (stamp : Nat → String) (succeeds : Nat → Bool) (notes : List Note) :
    List (String × Note) :=
  (notes.zipIdx.filter fun n => succeeds n.2).map fun n => (stamp n.2, n.1)

/-- What is appended to `audit.log` for notes. -/
def logText (stamp : Nat → String) (succeeds : Nat → Bool) (notes : List Note) : List Char :=
  Lines.asLines ((appended stamp succeeds notes).map fun r => r.2.line r.1)

/-- The text of `audit.log`. -/
def Journal.text (stamp : Nat → String) (succeeds : Nat → Bool) (j : Journal) : List Char :=
  j.before ++ logText stamp succeeds j.notes

/-! ### Reading it back -/

def readPid : Document (List Point) → Option (Option Nat)
  | .null => some none
  | .number l => some (some (digitsValue l.text))
  | _ => none

/-- The note that a line tells of. -/
def readNote (line : List Char) : Option (String × Note) :=
  match parse line with
  | some (.object members) => do
    let field (key : String) := (members.lookup (pointsOf key)).bind Document.text
    let stamp ← field "at"
    let event ← field "event"
    let server ← field "server"
    let clientPid ← (members.lookup (pointsOf "clientPid")).bind readPid
    let detail ← field "detail"
    return (stamp, { event, server, clientPid, detail })
  | _ => none

/-- The notes in a log, line by line. -/
def readLog (text : List Char) : List (Option (String × Note)) := (Lines.drain text).1.map readNote

theorem lookup_document (members : List (String × Value)) (key : String) :
    (members.map fun m => (pointsOf m.1, m.2.document)).lookup (pointsOf key) =
      (members.lookup key).map Value.document := by
  induction members with
  | nil => rfl
  | cons m members ih =>
    rw [List.map_cons, List.lookup_cons, List.lookup_cons, pointsOf_beq, ih]
    cases key == m.1 <;> rfl

theorem readPid_document {clientPid : Option Nat} (h : ∀ pid ∈ clientPid, pid < 2 ^ 32) :
    readPid (Serde.ofOption natValue clientPid).document = some clientPid := by
  cases clientPid with
  | none => rfl
  | some pid =>
    have hpid := h pid rfl
    have hlt : pid < 2 ^ 64 := by omega
    show some (some (digitsValue (Literal.ofNat (UInt64.ofNat pid).toNat).text)) = _
    rw [Literal.digitsValue_ofNat, UInt64.toNat_ofNat_of_lt' hlt]

/-- **A line tells of its note, whatever the strings in it.** -/
theorem readNote_line {note : Note} (stamp : String) (h : ∀ pid ∈ note.clientPid, pid < 2 ^ 32) :
    readNote (note.line stamp) = some (stamp, note) := by
  let members : List (String × Value) := [("at", .string stamp), ("event", .string note.event),
    ("server", .string note.server), ("clientPid", Serde.ofOption natValue note.clientPid),
    ("detail", .string note.detail)]
  have hd : (members.map Prod.fst).Nodup := by simp [members]
  have hdocument : (note.value stamp).document =
      .object ((sortMembers id members).map fun m => (pointsOf m.1, m.2.document)) := by
    rw [← Value.documentMembers_eq]
    rfl
  have hlookup : ∀ key, ((sortMembers id members).map fun m => (pointsOf m.1, m.2.document)).lookup
      (pointsOf key) = (members.lookup key).map Value.document := by
    intro key
    rw [lookup_document, lookup_sortMembers_self id hd]
  have htext : ∀ s : String, Document.text (Value.string s).document = some s := text_string_pointsOf
  have hat : members.lookup "at" = some (.string stamp) := rfl
  have hevent : members.lookup "event" = some (.string note.event) := rfl
  have hserver : members.lookup "server" = some (.string note.server) := rfl
  have hpid : members.lookup "clientPid" = some (Serde.ofOption natValue note.clientPid) := rfl
  have hdetail : members.lookup "detail" = some (.string note.detail) := rfl
  unfold readNote Note.line
  rw [parse_render, hdocument]
  simp [hlookup, hat, hevent, hserver, hpid, hdetail, htext, readPid_document h]

theorem newline_not_mem_line (note : Note) (stamp : String) : '\n' ∉ note.line stamp :=
  newline_not_mem_render _

theorem newline_not_mem_appended (stamp : Nat → String) (succeeds : Nat → Bool) (notes : List Note) :
    ∀ line ∈ (appended stamp succeeds notes).map (fun r => r.2.line r.1), '\n' ∉ line := by
  intro line hline
  obtain ⟨r, -, rfl⟩ := List.mem_map.mp hline
  exact newline_not_mem_line r.2 r.1

/-- What a broker appends ends with a line. -/
theorem whole_logText (stamp : Nat → String) (succeeds : Nat → Bool) (notes : List Note) :
    (Lines.drain (logText stamp succeeds notes)).2 = [] := by
  rw [logText, Lines.drain_asLines (newline_not_mem_appended stamp succeeds notes)]

/-- **What is appended reads back as the notes.** -/
theorem readLog_logText (stamp : Nat → String) (succeeds : Nat → Bool) {notes : List Note}
    (h : ∀ note ∈ notes, ∀ pid ∈ note.clientPid, pid < 2 ^ 32) :
    readLog (logText stamp succeeds notes) = (appended stamp succeeds notes).map some := by
  rw [readLog, logText, Lines.drain_asLines (newline_not_mem_appended stamp succeeds notes),
    List.map_map]
  refine List.map_congr_left fun r hr => readNote_line r.1 (h r.2 ?_)
  obtain ⟨n, hn, rfl⟩ := List.mem_map.mp hr
  exact List.mem_zipIdx' (List.mem_filter.mp hn).1 |>.2 ▸ List.getElem_mem _

/-- **The log reads back as the lines of earlier brokers and the notes of this one**, if the last of
    those lines is whole. -/
theorem Journal.readLog_text (stamp : Nat → String) (succeeds : Nat → Bool) {j : Journal}
    (hwhole : (Lines.drain j.before).2 = [])
    (h : ∀ note ∈ j.notes, ∀ pid ∈ note.clientPid, pid < 2 ^ 32) :
    readLog (j.text stamp succeeds) =
      readLog j.before ++ (appended stamp succeeds j.notes).map some := by
  rw [← readLog_logText stamp succeeds h, readLog, text, Lines.drain_append, hwhole, List.nil_append,
    List.map_append]
  rfl

/-! ### Clients -/

section Clients

variable {P : Option Nat → Prop} {engine : Engine}

/-- The clients of all grants are of a kind. -/
def Engine.ClientsSatisfy (P : Option Nat → Prop) (engine : Engine) : Prop :=
  ∀ (id : String) (grant : Grant), engine.grants[id]? = some grant → P grant.clientPid

/-- The client of an activation is. -/
def Operation.ClientSatisfies (P : Option Nat → Prop) (operation : Operation) : Prop :=
  ∀ entry connection clientPid outcome,
    operation = .activate entry connection clientPid outcome → P clientPid

theorem clientsSatisfy_releaseAll (h : engine.ClientsSatisfy P) (ids : List String) :
    (engine.releaseAll ids).ClientsSatisfy P := by
  intro id grant hgrant
  rw [Engine.releaseAll_getElem?] at hgrant
  split at hgrant
  · simp at hgrant
  · exact h id grant hgrant

theorem clientsSatisfy_perform (h : engine.ClientsSatisfy P) {operation : Operation}
    (ho : operation.ClientSatisfies P) : (engine.perform operation).ClientsSatisfy P := by
  rcases engine.perform_grants operation with hsame | ⟨entry, connection, clientPid, outcome, rfl, -⟩
  · intro id grant hgrant
    rw [hsame.1] at hgrant
    exact clientsSatisfy_releaseAll h _ id grant hgrant
  · have hpid := ho entry connection clientPid outcome rfl
    have hactivated := engine.activate_activated entry connection clientPid outcome
    intro id grant hgrant
    change (engine.activate entry connection clientPid outcome).2.grants[id]? = some grant at hgrant
    generalize (engine.activate entry connection clientPid outcome).2 = engine' at hactivated hgrant
    generalize (engine.activate entry connection clientPid outcome).1 = result at hactivated
    cases hactivated with
    | orphaned | refused => exact h id grant hgrant
    | notStarted _ _ _ hs => cases hs <;> exact h id grant hgrant
    | granted kind info started _ _ hs =>
      have hgrants : started.grants = engine.grants := by cases hs <;> rfl
      change (started.grants.insert _ _)[id]? = some grant at hgrant
      rw [ExtTreeMap.getElem?_insert, hgrants] at hgrant
      split at hgrant
      · rw [← Option.some.inj hgrant]
        exact hpid
      · exact h id grant hgrant

theorem client_of_mem_notes (hnone : P none) (h : engine.ClientsSatisfy P) {operation : Operation}
    (ho : operation.ClientSatisfies P) {note : Note} (hn : note ∈ engine.notes operation) :
    P note.clientPid := by
  cases Engine.noted_of_mem hn with
  | refused entry connection clientPid outcome => exact ho entry connection clientPid outcome rfl
  | activated entry connection clientPid outcome => exact ho entry connection clientPid outcome rfl
  | released _ id grant hgrant => exact h id grant hgrant
  | deactivated | reaped => exact hnone

theorem clients_of_allNotes (hnone : P none) {operations : List Operation}
    (ho : ∀ operation ∈ operations, operation.ClientSatisfies P) (h : engine.ClientsSatisfy P) :
    (operations.foldl Engine.perform engine).ClientsSatisfy P ∧
      ∀ note ∈ engine.allNotes operations, P note.clientPid := by
  induction operations generalizing engine with
  | nil => exact ⟨h, fun note hn => absurd hn List.not_mem_nil⟩
  | cons operation operations ih =>
    have hfirst := ho operation List.mem_cons_self
    obtain ⟨hlast, hnotes⟩ := ih (fun o hm => ho o (List.mem_cons_of_mem _ hm))
      (clientsSatisfy_perform h hfirst)
    refine ⟨hlast, fun note hn => ?_⟩
    rcases List.mem_append.mp hn with hn | hn
    · exact client_of_mem_notes hnone h hfirst hn
    · exact hnotes note hn

end Clients

/-- The activations of an event are for the client of a connection. -/
theorem clientSatisfies_operations {P : Option Nat → Prop} {broker : Broker} (event : Event)
    (hclient : ∀ c, P (broker.clientPid c)) :
    ∀ operation ∈ broker.operations event, operation.ClientSatisfies P := by
  rintro operation hmem entry c clientPid outcome rfl
  obtain ⟨order, id, rfl, htask, hoperations⟩ := Broker.mem_operations_activate hmem
  have hactivate : broker.operations (.proceed c order outcome) =
      [.activate entry c (broker.clientPid c) outcome] := by
    rw [Broker.operations, htask]
    rfl
  obtain ⟨-, -, hpid, -⟩ := Operation.activate.inj (List.cons.inj (hoperations.symm.trans hactivate)).1
  exact hpid ▸ hclient c

theorem clientPid_of_step {sha256 : List Char → String} {broker broker' : Broker} {event : Event}
    (hs : broker.step sha256 event = some broker') : broker'.clientPid = broker.clientPid := by
  cases Broker.stepped_of_step hs <;> rfl

/-- The client of an answer's note. -/
theorem client_of_mem_answerNotes {engine : Engine} {entry : Entry} {clientPid : Option Nat}
    {now : String} {outcome : WriteOutcome} {decision : Decision} {note : Note}
    (h : note ∈ engine.answerNotes entry clientPid now outcome decision) :
    note.clientPid = clientPid := by
  cases decision with
  | allow =>
    unfold Engine.answerNotes at h
    dsimp only at h
    split at h
    · exact absurd h List.not_mem_nil
    · rw [List.mem_singleton.mp h]
  | deny | unanswered => rw [List.mem_singleton.mp h]

theorem client_of_mem_event {P : Option Nat → Prop} {broker : Broker} (event : Event)
    (hnone : P none) (hclient : ∀ c, P (broker.clientPid c)) (h : broker.engine.ClientsSatisfy P) :
    ∀ note ∈ broker.notes event, P note.clientPid := by
  have hall := (clients_of_allNotes hnone (clientSatisfies_operations event hclient) h).2
  cases event with
  | answer c decision now outcome =>
    intro note hn
    unfold Broker.notes at hn
    dsimp only at hn
    split at hn
    · rw [client_of_mem_answerNotes hn]
      exact hclient c
    · exact absurd hn List.not_mem_nil
  | receive | proceed | lockPrompt | hangUp | reap | elapse | expire | exit | outOfBand => exact hall

/-- The clients that are recorded are those of the connections. -/
theorem client_of_reached {P : Option Nat → Prop} {sha256 : List Char → String} {disk : Disk}
    {now brokerPid nextGrant : Nat} {available : Bool} {clientPid : Nat → Option Nat}
    {before : List Char} {events : List Event} {j : Journal} (hnone : P none) (hclient : ∀ c, P (clientPid c))
    (h : Journal.Reached sha256 (.new disk now brokerPid nextGrant available clientPid before) events j) :
    ∀ note ∈ j.notes, P note.clientPid := by
  have hall : j.recorded.broker.clientPid = clientPid ∧
      j.recorded.broker.engine.ClientsSatisfy P ∧ ∀ note ∈ j.notes, P note.clientPid := by
    refine h.invariant (P := fun j => j.recorded.broker.clientPid = clientPid ∧
      j.recorded.broker.engine.ClientsSatisfy P ∧ ∀ note ∈ j.notes, P note.clientPid) ?_ ?_
    · refine ⟨rfl, fun id grant hgrant => ?_, fun note hn => absurd hn List.not_mem_nil⟩
      simp [Journal.new, Recorded.new, Broker.new, Engine.new] at hgrant
    · rintro j event j' ⟨hpids, hclients, hnotes⟩ hs
      obtain ⟨recorded, hrecorded, rfl⟩ := Journal.step_eq_some.mp hs
      obtain ⟨broker, hbroker, rfl⟩ := Recorded.step_eq_some.mp hrecorded
      have hcurrent : ∀ c, P (j.recorded.broker.clientPid c) := by
        rw [hpids]
        exact hclient
      refine ⟨(clientPid_of_step hbroker).trans hpids, ?_, fun note hn => ?_⟩
      · show broker.engine.ClientsSatisfy P
        rw [Broker.step_engine hbroker]
        exact (clients_of_allNotes hnone (clientSatisfies_operations event hcurrent) hclients).1
      · rcases List.mem_append.mp hn with hn | hn
        · exact hnotes note hn
        · exact client_of_mem_event event hnone hcurrent hclients note hn
  exact hall.2.2

theorem appended_all (stamp : Nat → String) (notes : List Note) :
    (appended stamp (fun _ => true) notes).map Prod.snd = notes := by
  simp [appended, Function.comp_def, List.zipIdx_map_fst]

/-- The lines of this broker, where none was lost. -/
theorem readLog_of_reached {sha256 : List Char → String} {disk : Disk} {now brokerPid nextGrant : Nat}
    {available : Bool} {clientPid : Nat → Option Nat} {before : List Char} {events : List Event}
    {j : Journal} (stamp : Nat → String) (hwhole : (Lines.drain before).2 = [])
    (hpid : ∀ c pid, clientPid c = some pid → pid < 2 ^ 32)
    (h : Journal.Reached sha256 (.new disk now brokerPid nextGrant available clientPid before) events j) :
    readLog (j.text stamp fun _ => true) =
      readLog before ++ (appended stamp (fun _ => true) j.notes).map some := by
  have hbefore : j.before = before := h.before_eq
  have hpids : ∀ note ∈ j.notes, ∀ pid ∈ note.clientPid, pid < 2 ^ 32 :=
    client_of_reached (P := fun p => ∀ pid ∈ p, pid < 2 ^ 32) (by simp) hpid h
  rw [Journal.readLog_text stamp _ (hbefore ▸ hwhole) hpids, hbefore]

/-- **The file accounts for the grants.**  Where no write failed and the file did not end within a line,
    the lines that the broker has added to `audit.log` tell which grants there are, on which servers,
    and who holds them. -/
theorem log_accounts {sha256 : List Char → String} {disk : Disk} {now brokerPid nextGrant : Nat}
    {available : Bool} {clientPid : Nat → Option Nat} {before : List Char} {events : List Event}
    {j : Journal} (stamp : Nat → String) (hwhole : (Lines.drain before).2 = [])
    (hpid : ∀ c pid, clientPid c = some pid → pid < 2 ^ 32)
    (h : Journal.Reached sha256 (.new disk now brokerPid nextGrant available clientPid before) events j) :
    ∃ notes : List (String × Note),
      readLog (j.text stamp fun _ => true) = readLog before ++ notes.map some ∧
        j.recorded.broker.engine.Holds (holdings (notes.map Prod.snd)) := by
  refine ⟨appended stamp (fun _ => true) j.notes, readLog_of_reached stamp hwhole hpid h, ?_⟩
  rw [appended_all]
  exact holdings_eq h

/-- The log of a broker that was killed: a grant was never released. -/
def killedLog : List Char :=
  logText (fun _ => "2026-01-02T03:04:05Z") (fun _ => true)
    [⟨"activate", "com.example.notes", some 7, "g7-1"⟩]

def freshJournal : Journal := .new ⟨none, none⟩ 0 100 1 true (fun _ => none) killedLog

/-- The user allows the viewer, and it is started. -/
def viewerLaunch : List Event := viewerSession ++ [.proceed 1 tableOrder working]

def viewerJournal : Journal :=
  (Transition.replay (Journal.step String.ofList) freshJournal viewerLaunch).get (by decide +kernel)

theorem reached_viewerJournal :
    Journal.Reached String.ofList freshJournal viewerLaunch viewerJournal := by
  have hreplay : Transition.replay (Journal.step String.ofList) freshJournal viewerLaunch =
      some viewerJournal := (Option.some_get _).symm
  have hrun := Transition.run_of_replay .start hreplay
  exact hrun

theorem log_accounts_viewer : ∃ notes : List (String × Note),
    readLog (viewerJournal.text (fun _ => "") fun _ => true) = readLog killedLog ++ notes.map some ∧
      viewerJournal.recorded.broker.engine.Holds (holdings (notes.map Prod.snd)) :=
  log_accounts (fun _ => "") (whole_logText _ _ _) (by simp) reached_viewerJournal

/-! ### Who approved it -/

/-- What a note says the user decided: about which server, and whether it was a grant. -/
def Note.decision (note : Note) : Option (String × Bool) :=
  if note.event = "consent-granted" then some (note.server, true)
  else if note.event = "consent-denied" then some (note.server, false)
  else none

/-- The decisions in the log, oldest first. -/
def verdicts (notes : List Note) : List (String × Bool) := notes.filterMap Note.decision

/-- The last decision about a server. -/
def lastVerdict (notes : List Note) (server : String) : Option Bool :=
  ((verdicts notes).reverse.find? (·.1 == server)).map (·.2)

def Operation.isOutOfBand : Operation → Bool
  | .outOfBand _ _ _ _ => true
  | _ => false

/-- No other process wrote to the consent file. -/
def Alone (operations : List Operation) : Prop :=
  ∀ operation ∈ operations, operation.isOutOfBand = false

instance (operations : List Operation) : Decidable (Alone operations) :=
  inferInstanceAs (Decidable (∀ operation ∈ operations, operation.isOutOfBand = false))

/-- The log tells of the user's approval; a server that it says nothing of was approved before. -/
def Vouched (disk : Disk) (notes : List Note) (server : String) : Prop :=
  match lastVerdict notes server with
  | some granted => granted = true
  | none => ∃ record, disk.records[server]? = some record ∧ record.state = .granted

/-- Whether a decision is a grant. -/
def Decided.isGrant (d : Decided) : Bool :=
  match d.action with
  | .grant _ _ _ => true
  | .deny | .forget => false

section Verdicts

variable {engine : Engine}

theorem verdicts_append (notes more : List Note) :
    verdicts (notes ++ more) = verdicts notes ++ verdicts more := List.filterMap_append

/-- An operation of the engine notes no decision. -/
theorem decision_of_mem_notes {operation : Operation} {note : Note}
    (h : note ∈ engine.notes operation) : note.decision = none := by
  cases Engine.noted_of_mem h <;> rfl

theorem verdicts_allNotes (operations : List Operation) :
    verdicts (engine.allNotes operations) = [] := by
  induction operations generalizing engine with
  | nil => rfl
  | cons operation operations ih =>
    rw [Engine.allNotes, verdicts_append, ih, List.append_nil]
    exact List.filterMap_eq_nil_iff.mpr fun note hn => decision_of_mem_notes hn

/-- An answer notes the decision that it writes, where the write succeeds. -/
theorem verdicts_answerNotes {entry : Entry} {clientPid : Option Nat} {now : String}
    {outcome : WriteOutcome} {decision : Decision}
    (h : ∀ w ∈ writes (Broker.answerOperations entry now outcome decision), w.2.identity.isSome = true) :
    verdicts (engine.answerNotes entry clientPid now outcome decision) =
      (decisions (Broker.answerOperations entry now outcome decision)).map fun d => (d.name, d.isGrant) := by
  cases decision with
  | unanswered => rfl
  | allow =>
    cases outcome with
    | failed step => simp [Broker.answerOperations, writes, Operation.write, WriteOutcome.identity] at h
    | written identity readBack =>
      have hok := congrArg Prod.fst (ConsentStore.perform_written engine.disk engine.consent
        ⟨now, entry.name, .grant entry.launchHash (launchSummary entry) .user⟩ identity readBack)
      change (engine.consent.grant _ _ _ _ _ _ _).1 = _ at hok
      unfold Engine.answerNotes
      dsimp only
      rw [hok]
      rfl
  | deny =>
    cases outcome with
    | failed step => simp [Broker.answerOperations, writes, Operation.write, WriteOutcome.identity] at h
    | written identity readBack => rfl

/-- Of the operations of an event other than an answer, none decides. -/
theorem decisions_eq_nil {operations : List Operation} (halone : Alone operations)
    (h : ∀ now name action outcome, Operation.decide now name action outcome ∉ operations) :
    decisions operations = [] := by
  have hwrites : writes operations = [] := by
    refine List.filterMap_eq_nil_iff.mpr fun operation hmem => ?_
    cases operation with
    | decide now name action outcome => exact absurd hmem (h now name action outcome)
    | outOfBand now name action outcome => exact absurd (halone _ hmem) (by simp [Operation.isOutOfBand])
    | activate | release | releaseConnection | deactivate | reapIdle | evaluate | elapse | expire
      | exit => rfl
  rw [decisions, hwrites]
  rfl

/-- Only an answer decides. -/
theorem decide_not_mem_operations {broker : Broker} {event : Event}
    (h : ∀ c decision now outcome, event ≠ .answer c decision now outcome) (now name : String)
    (action : ConsentAction) (outcome : WriteOutcome) :
    Operation.decide now name action outcome ∉ broker.operations event := by
  cases event with
  | answer c decision now outcome => exact absurd rfl (h c decision now outcome)
  | proceed c order outcome' =>
    show _ ∉ broker.taskOperations c order outcome' (broker.tasks c)
    cases broker.tasks c <;> simp [Broker.taskOperations]
  | receive | lockPrompt | hangUp | reap | elapse | expire | exit | outOfBand =>
    simp [Broker.operations]

/-- **The decisions noted at an event are those written.** -/
theorem verdicts_event {broker : Broker} (event : Event) (halone : Alone (broker.operations event))
    (h : ∀ w ∈ writes (broker.operations event), w.2.identity.isSome = true) :
    verdicts (broker.notes event) =
      (decisions (broker.operations event)).map fun d => (d.name, d.isGrant) := by
  cases event with
  | answer c decision now outcome =>
    unfold Broker.notes
    unfold Broker.operations at h ⊢
    dsimp only at h ⊢
    cases htask : broker.tasks c with
    | prompt id entry record =>
      rw [htask] at h
      exact verdicts_answerNotes h
    | idle | list | status | query | consult | queue | reread | activate | release | deactivate
      | closing | closed => rfl
  | receive | proceed | lockPrompt | hangUp | reap | elapse | expire | exit | outOfBand =>
    rw [decisions_eq_nil halone (decide_not_mem_operations (by simp))]
    exact verdicts_allNotes _

end Verdicts

/-- The writes of a part of a run are fresh, too. -/
theorem FreshWrites.of_append {disk : Disk} {operations more : List Operation}
    (h : FreshWrites disk (operations ++ more)) : FreshWrites disk operations := by
  have hsub : (knownIdentities disk operations).Sublist (knownIdentities disk (operations ++ more)) := by
    simp [knownIdentities, identities, writes]
  refine ⟨fun w hw => h.succeed w ?_, h.fresh.sublist hsub⟩
  rw [writes, List.filterMap_append]
  exact List.mem_append_left _ hw

theorem Alone.of_append {operations more : List Operation} (h : Alone (operations ++ more)) :
    Alone operations ∧ Alone more :=
  ⟨fun operation hmem => h operation (List.mem_append_left _ hmem),
    fun operation hmem => h operation (List.mem_append_right _ hmem)⟩

/-- **The decisions in the log are those in the consent file.** -/
theorem verdicts_eq {sha256 : List Char → String} {disk : Disk} {now brokerPid nextGrant : Nat}
    {available : Bool} {clientPid : Nat → Option Nat} {before : List Char} {events : List Event}
    {j : Journal}
    (h : Journal.Reached sha256 (.new disk now brokerPid nextGrant available clientPid before) events j)
    (halone : Alone j.recorded.operations)
    (hsucceed : ∀ w ∈ writes j.recorded.operations, w.2.identity.isSome = true) :
    verdicts j.notes = (decisions j.recorded.operations).map fun d => (d.name, d.isGrant) := by
  induction h with
  | start => rfl
  | @snoc events j j' event _ hs ih =>
    obtain ⟨recorded, hrecorded, rfl⟩ := Journal.step_eq_some.mp hs
    obtain ⟨broker, hbroker, rfl⟩ := Recorded.step_eq_some.mp hrecorded
    obtain ⟨hbefore, hthen⟩ := halone.of_append
    have hwrites : ∀ w ∈ writes j.recorded.operations ++ writes (j.recorded.broker.operations event),
        w.2.identity.isSome = true := by
      rw [writes, writes, ← List.filterMap_append]
      exact hsucceed
    show verdicts (j.notes ++ j.recorded.broker.notes event) =
      (decisions (j.recorded.operations ++ j.recorded.broker.operations event)).map _
    rw [verdicts_append, decisions_append, List.map_append,
      ih hbefore fun w hw => hwrites w (List.mem_append_left _ hw),
      verdicts_event event hthen fun w hw => hwrites w (List.mem_append_right _ hw)]

theorem lastVerdict_eq {notes : List Note} {decisions : List Decided}
    (h : verdicts notes = decisions.map fun d => (d.name, d.isGrant)) (server : String) :
    lastVerdict notes server = (lastDecision decisions server).map Decided.isGrant := by
  rw [lastVerdict, h, ← List.map_reverse, List.find?_map, Option.map_map]
  rfl

theorem mem_allNotes {engine : Engine} {operations : List Operation} {note : Note}
    (h : note ∈ engine.allNotes operations) :
    ∃ operation ∈ operations, ∃ engine : Engine, engine.Noted operation note := by
  induction operations generalizing engine with
  | nil => exact absurd h List.not_mem_nil
  | cons operation operations ih =>
    rcases List.mem_append.mp h with h | h
    · exact ⟨operation, List.mem_cons_self, engine, Engine.noted_of_mem h⟩
    · obtain ⟨o, ho, hnoted⟩ := ih h
      exact ⟨o, List.mem_cons_of_mem _ ho, hnoted⟩

theorem Engine.Noted.activate {engine : Engine} {operation : Operation} {note : Note}
    (h : engine.Noted operation note) (he : note.event = "activate") :
    ∃ entry connection clientPid outcome, operation = .activate entry connection clientPid outcome ∧
      note.server = entry.name ∧ (engine.consentFor entry).state = .granted := by
  cases h with
  | refused | released | deactivated | reaped => simp at he
  | activated entry connection clientPid outcome detail hgranted =>
    exact ⟨entry, connection, clientPid, outcome, rfl, rfl, hgranted⟩

/-- An activation notes one thing at most. -/
theorem activateNotes_eq_of_mem {entry : Entry} {clientPid : Option Nat}
    {result : Except ActivateError ActivateResult} {note : Note}
    (h : note ∈ Engine.activateNotes entry clientPid result) :
    Engine.activateNotes entry clientPid result = [note] := by
  unfold Engine.activateNotes at h ⊢
  split at h
  · rw [List.mem_singleton.mp h]
  · exact absurd h List.not_mem_nil
  · rw [List.mem_singleton.mp h]

/-- An activation is noted alone, and where consent is granted. -/
theorem activation_noted {broker : Broker} {event : Event} {note : Note}
    (h : note ∈ broker.notes event) (he : note.event = "activate") :
    broker.notes event = [note] ∧ ∃ entry : Entry, note.server = entry.name ∧
      (broker.engine.consentFor entry).state = .granted := by
  have hall : note ∈ broker.engine.allNotes (broker.operations event) := by
    cases event with
    | answer c decision now outcome =>
      unfold Broker.notes at h
      dsimp only at h
      split at h
      · rcases event_of_mem_answerNotes h with hc | hc | hc <;> simp [he] at hc
      · exact absurd h List.not_mem_nil
    | receive | proceed | lockPrompt | hangUp | reap | elapse | expire | exit | outOfBand => exact h
  obtain ⟨operation, hmem, engine, hnoted⟩ := mem_allNotes hall
  obtain ⟨entry, c, clientPid, outcome, rfl, -⟩ := hnoted.activate he
  obtain ⟨order, id, rfl, -, hoperations⟩ := Broker.mem_operations_activate hmem
  -- the event performs the activation and nothing else
  have hnotes : broker.notes (.proceed c order outcome) =
      broker.engine.notes (.activate entry c clientPid outcome) := by
    show broker.engine.allNotes (broker.operations _) = _
    rw [hoperations]
    exact List.append_nil _
  rw [hnotes] at h ⊢
  obtain ⟨entry', _, _, _, hoperation, hserver, hgranted⟩ := (Engine.noted_of_mem h).activate he
  exact ⟨activateNotes_eq_of_mem h, entry', hserver, hgranted⟩

/-- A server to which consent is granted is vouched for. -/
theorem vouched_of_granted {disk : Disk} {operations : List Operation} {engine : Engine}
    (h : engine.Tracked disk operations) {notes : List Note}
    (hverdicts : verdicts notes = (decisions operations).map fun d => (d.name, d.isGrant))
    {entry : Entry} (hgranted : (engine.consentFor entry).state = .granted) :
    Vouched disk notes entry.name := by
  obtain ⟨record, hrecord, hstate, -⟩ := h.approved hgranted
  rw [h.records, getElem?_settle] at hrecord
  rw [Vouched, lastVerdict_eq hverdicts]
  cases hlast : lastDecision (decisions operations) entry.name with
  | none =>
    rw [hlast] at hrecord
    exact ⟨record, hrecord, hstate⟩
  | some d =>
    rw [hlast] at hrecord
    obtain ⟨launchHash, launchCommand, scope, haction, -⟩ := d.grant_of_record hrecord hstate
    show d.isGrant = true
    rw [Decided.isGrant, haction]

/-- Whenever an activation is recorded, the last decision recorded about the server is a grant; a server
    that no decision was recorded about was approved in the file that the broker started with. -/
theorem vouched_of_noted {sha256 : List Char → String} {disk : Disk} {now brokerPid nextGrant : Nat}
    {available : Bool} {clientPid : Nat → Option Nat} {before : List Char} {events : List Event}
    {j : Journal}
    (h : Journal.Reached sha256 (.new disk now brokerPid nextGrant available clientPid before) events j)
    (halone : Alone j.recorded.operations) (hfresh : FreshWrites disk j.recorded.operations)
    {earlier later : List Note} {note : Note} (hnotes : j.notes = earlier ++ note :: later)
    (hevent : note.event = "activate") : Vouched disk earlier note.server := by
  induction h generalizing later with
  | start => exact absurd hnotes (by simp [Journal.new])
  | @snoc events j j' event hrun hs ih =>
    obtain ⟨recorded, hrecorded, rfl⟩ := Journal.step_eq_some.mp hs
    obtain ⟨broker, hbroker, rfl⟩ := Recorded.step_eq_some.mp hrecorded
    obtain ⟨hbefore, -⟩ := halone.of_append
    have of_event : note ∈ j.recorded.broker.notes event → Vouched disk j.notes note.server := by
      intro hmem
      obtain ⟨-, entry, hserver, hgranted⟩ := activation_noted hmem hevent
      have htracked := Engine.tracked_of_run (Recorded.engine_run (Journal.Reached.recorded hrun)) hfresh.of_append
      rw [hserver]
      exact vouched_of_granted htracked (verdicts_eq hrun hbefore hfresh.of_append.succeed) hgranted
    rcases List.append_eq_append_iff.mp hnotes with ⟨new, hearlier, hnew⟩ | ⟨old, hold, hrest⟩
    · -- noted at this event, which notes nothing else
      have hmem : note ∈ j.recorded.broker.notes event := hnew ▸ by simp
      rw [(activation_noted hmem hevent).1] at hnew
      have hnil : new = [] := by
        have hlength := congrArg List.length hnew
        simp at hlength
        exact List.eq_nil_of_length_eq_zero (by omega)
      rw [hearlier, hnil, List.append_nil]
      exact of_event hmem
    · cases old with
      | nil =>
        rw [List.append_nil] at hold
        rw [← hold]
        exact of_event (by rw [← List.nil_append (j.recorded.broker.notes event), ← hrest]; simp)
      | cons first old =>
        -- noted before this event
        obtain ⟨rfl, -⟩ := List.cons.inj hrest
        exact ih hbefore hfresh.of_append hold

/-- **What ran was approved.**  As long as nobody else writes to the consent file, every decision is
    written and every line appended: whenever a line of this broker in the log tells of an activation,
    the last line before it that tells of a decision about the server tells of a grant; a server that
    no line of this broker decides about was approved in the file that it started with. -/
theorem approved_by_log {sha256 : List Char → String} {disk : Disk} {now brokerPid nextGrant : Nat}
    {available : Bool} {clientPid : Nat → Option Nat} {before : List Char} {events : List Event}
    {j : Journal} (stamp : Nat → String) (hwhole : (Lines.drain before).2 = [])
    (hpid : ∀ c pid, clientPid c = some pid → pid < 2 ^ 32)
    (h : Journal.Reached sha256 (.new disk now brokerPid nextGrant available clientPid before) events j)
    (halone : Alone j.recorded.operations) (hfresh : FreshWrites disk j.recorded.operations)
    {earlier later : List (String × Note)} {line : String × Note}
    (hlog : readLog (j.text stamp fun _ => true) =
      readLog before ++ (earlier ++ line :: later).map some)
    (hevent : line.2.event = "activate") : Vouched disk (earlier.map Prod.snd) line.2.server := by
  rw [readLog_of_reached stamp hwhole hpid h] at hlog
  have hlines : appended stamp (fun _ => true) j.notes = earlier ++ line :: later :=
    List.map_injective_iff.mpr (Option.some_injective _) (List.append_cancel_left hlog)
  have hnotes : j.notes = earlier.map Prod.snd ++ line.2 :: later.map Prod.snd := by
    rw [← appended_all stamp j.notes, hlines, List.map_append, List.map_cons]
  exact vouched_of_noted h halone hfresh hnotes hevent

theorem approved_by_log_viewer : ∃ earlier line,
    readLog (viewerJournal.text (fun _ => "") fun _ => true) =
      readLog killedLog ++ (earlier ++ [line]).map some ∧
    line.2.event = "activate" ∧ Vouched ⟨none, none⟩ (earlier.map Prod.snd) line.2.server := by
  have halone : Alone viewerJournal.recorded.operations := by decide +kernel
  have hfresh : FreshWrites ⟨none, none⟩ viewerJournal.recorded.operations := by decide +kernel
  have hlines : appended (fun _ => "") (fun _ => true) viewerJournal.notes =
      [("", ⟨"consent-granted", "com.example.viewer", none, "prompt"⟩)] ++
        [("", ⟨"activate", "com.example.viewer", none, "g100-1"⟩)] := by decide +kernel
  have hlog := readLog_of_reached (fun _ => "") (whole_logText _ _ _) (by simp) reached_viewerJournal
  rw [hlines] at hlog
  exact ⟨_, _, hlog, rfl, approved_by_log (fun _ => "") (whole_logText _ _ _) (by simp)
    reached_viewerJournal halone hfresh hlog rfl⟩

end McpLocator.Broker
