import McpLocator.Broker.Progress
import McpLocator.Lib.Lines

namespace McpLocator.Broker

open McpLocator.Json McpLocator.Proto Lines

/-!
# The request loop (server.rs serve_connection)

* `nextLine` — `Lines::next_line`; `requestLines` are the lines of a stream that are not blank.
* `Connection.step` — the loop of one connection reads on, or something else happens to the broker.
* `Loop` — what has been written is one answer for each line read, in the order of the lines.
* `one_response_per_line` — so it is for the whole stream, and every answer is a line of its own.
-/

set_option linter.dupNamespace false

/-! ### Lines -/

/-- A line ends with its newline, or with a carriage return before it. -/
def dropCarriage (line : List Char) : List Char :=
  if line.getLast? = some '\r' then line.dropLast else line

/-- The next line of what is left to read, and what is left after it.  What follows the last newline is
    a line too once the stream has ended. -/
def nextLine (ended : Bool) (unread : List Char) : Option (List Char × List Char) :=
  let index := unread.idxOf '\n'
  if index < unread.length then some (dropCarriage (unread.take index), unread.drop (index + 1))
  else if ended && !unread.isEmpty then some (unread, [])
  else none

/-- `line.trim().is_empty()` -/
def isBlankLine (line : List Char) : Bool := line.all isWhiteSpace

/-- The lines of a stream. -/
def allLines (ended : Bool) (unread : List Char) : List (List Char) :=
  (drain unread).1.map dropCarriage ++
    if ended && !(drain unread).2.isEmpty then [(drain unread).2] else []

/-- The lines that are not skipped. -/
def requestLines (ended : Bool) (unread : List Char) : List (List Char) :=
  (allLines ended unread).filter fun line => !isBlankLine line

theorem nextLine_line (ended : Bool) {line : List Char} (h : '\n' ∉ line) (rest : List Char) :
    nextLine ended (line ++ '\n' :: rest) = some (dropCarriage line, rest) := by
  have hindex : (line ++ '\n' :: rest).idxOf '\n' = line.length := by
    rw [List.idxOf_append, if_neg h, List.idxOf_cons_self, Nat.zero_add]
  have hdrop : (line ++ '\n' :: rest).drop (line.length + 1) = rest := by
    rw [← List.drop_drop, List.drop_left]
    rfl
  rw [nextLine]
  simp only [hindex, List.take_left, hdrop]
  exact if_pos (by simp)

theorem nextLine_of_not_mem (ended : Bool) {unread : List Char} (h : '\n' ∉ unread) :
    nextLine ended unread = if ended && !unread.isEmpty then some (unread, []) else none := by
  rw [nextLine, List.idxOf_eq_length h]
  exact if_neg (Nat.lt_irrefl _)

theorem allLines_line (ended : Bool) {line : List Char} (h : '\n' ∉ line) (rest : List Char) :
    allLines ended (line ++ '\n' :: rest) = dropCarriage line :: allLines ended rest := by
  rw [allLines, drain_line h]
  rfl

theorem allLines_of_not_mem (ended : Bool) {unread : List Char} (h : '\n' ∉ unread) :
    allLines ended unread = if ended && !unread.isEmpty then [unread] else [] := by
  rw [allLines, drain_of_not_mem h]
  rfl

/-- **The lines of a stream are read one by one.** -/
theorem allLines_of_nextLine {ended : Bool} {unread line rest : List Char}
    (h : nextLine ended unread = some (line, rest)) :
    allLines ended unread = line :: allLines ended rest := by
  by_cases hmem : '\n' ∈ unread
  · obtain ⟨first, others, rfl, hfirst⟩ := List.eq_append_cons_of_mem hmem
    rw [nextLine_line ended hfirst] at h
    cases h
    exact allLines_line ended hfirst rest
  · rw [nextLine_of_not_mem ended hmem] at h
    rw [allLines_of_not_mem ended hmem]
    split at h
    · rename_i hlast
      cases h
      rw [if_pos hlast, allLines_of_not_mem ended List.not_mem_nil, if_neg (by simp)]
    · exact absurd h (by simp)

theorem allLines_of_nextLine_eq_none {ended : Bool} {unread : List Char}
    (h : nextLine ended unread = none) : allLines ended unread = [] := by
  by_cases hmem : '\n' ∈ unread
  · obtain ⟨first, others, rfl, hfirst⟩ := List.eq_append_cons_of_mem hmem
    rw [nextLine_line ended hfirst] at h
    exact absurd h (by simp)
  · rw [nextLine_of_not_mem ended hmem] at h
    rw [allLines_of_not_mem ended hmem]
    split at h
    · exact absurd h (by simp)
    · rename_i hlast
      exact if_neg hlast

/-- Whether the unread part ends with a line does not change as lines are read. -/
theorem drain_of_nextLine {unread line rest : List Char}
    (h : nextLine false unread = some (line, rest)) : (drain rest).2 = (drain unread).2 := by
  by_cases hmem : '\n' ∈ unread
  · obtain ⟨first, others, rfl, hfirst⟩ := List.eq_append_cons_of_mem hmem
    rw [nextLine_line false hfirst] at h
    cases h
    rw [drain_line hfirst]
  · rw [nextLine_of_not_mem false hmem] at h
    exact absurd h (by simp)

/-! ### The loop -/

/-- One connection of the broker, with the lines it has taken up, oldest first. -/
structure Connection where
  unread : List Char
  ended : Bool
  read : List (List Char)
  broker : Broker

inductive Turn where
  /-- The loop asks for its next line; the registry is as it is at that moment. -/
  | next (registry : Registry)
  /-- Anything else that happens to the broker. -/
  | other (event : Event)

/-- The lines that are left. -/
def Connection.requests (conn : Connection) : List (List Char) :=
  requestLines conn.ended conn.unread

section Loop

variable (sha256 : List Char → String) (float : Literal → Option FloatText)
  (describe : List Char → String) (c : Nat)

/-- `serde_json::from_str::<Request>`; `describe` is what the error says. -/
def readLine (line : List Char) : Except String Request :=
  match Request.fromStr float line with
  | some request => .ok request
  | none => .error (describe line)

namespace Connection

/-- One turn; `none` if it cannot happen now. -/
def step (conn : Connection) : Turn → Option Connection
  | .next registry =>
    match conn.broker.tasks c, nextLine conn.ended conn.unread with
    | .idle, some (line, rest) =>
      if isBlankLine line then some { conn with unread := rest }
      else (conn.broker.step sha256 (.receive c (readLine float describe line) registry)).map
        fun broker => { conn with unread := rest, read := conn.read ++ [line], broker }
    | .idle, none =>
      if conn.ended then
        (conn.broker.step sha256 (.hangUp c)).map fun broker => { conn with broker }
      else none
    | _, _ => none
  | .other event =>
    if event.reads c then none
    else (conn.broker.step sha256 event).map fun broker => { conn with broker }

end Connection

/-- What has become of the `input` lines: those that were read are answered, one after the other, and
    the last one may still be worked on. -/
structure Loop (before : List Response) (input : List (List Char)) (conn : Connection) : Prop where
  lines : conn.read ++ conn.requests = input
  held : conn.broker.LockHeld
  working : conn.broker.tasks c = .idle ∨ (conn.broker.tasks c).request.isSome = true ∨
    conn.ended = true ∧ conn.requests = []
  answered : ∃ responses, conn.broker.answers c = before ++ responses ∧
    responses.map (·.id) ++ (conn.broker.tasks c).request.toList =
      conn.read.map (fun line => lineId (readLine float describe line)) ∧
    ∀ response ∈ responses, response.Exclusive
  touches : (conn.broker.tasks c).touches = true →
    ∃ line ∈ conn.read.getLast?, reachesArm (readLine float describe line) = true

variable {sha256 float describe c} {before : List Response} {input : List (List Char)}
  {conn conn' : Connection}

theorem requestLines_of_nextLine {ended : Bool} {unread line rest : List Char}
    (h : nextLine ended unread = some (line, rest)) : requestLines ended unread =
      if isBlankLine line then requestLines ended rest else line :: requestLines ended rest := by
  rw [requestLines, allLines_of_nextLine h, List.filter_cons]
  cases isBlankLine line <;> rfl

namespace Loop

/-- What happens beside the loop. -/
theorem other (h : Loop float describe c before input conn) {event : Event} {broker : Broker}
    (hs : conn.broker.step sha256 event = some broker) (hreads : event.reads c = false) :
    Loop float describe c before input { conn with broker } := by
  obtain ⟨responses, hanswers, hids, hone⟩ := h.answered
  cases Broker.handles_of_step hs hreads with
  | goes request idle touches answers =>
    refine ⟨h.lines, h.held.step hs, ?_, ⟨responses, answers.trans hanswers, ?_, hone⟩,
      fun ht => h.touches (touches ht)⟩
    · rcases h.working with hidle | hworks | hdone
      · exact .inl (idle hidle)
      · exact .inr (.inl (by rw [request]; exact hworks))
      · exact .inr (.inr hdone)
    · rw [request]
      exact hids
  | answers response request exclusive idle answers =>
    refine ⟨h.lines, h.held.step hs, .inl idle, ⟨responses ++ [response], ?_, ?_, ?_⟩, ?_⟩
    · rw [answers, hanswers, List.append_assoc]
    · rw [request] at hids
      rw [idle, List.map_append]
      exact (List.append_nil _).trans hids
    · intro r hr
      rcases List.mem_append.mp hr with hr | hr
      · exact hone r hr
      · exact List.mem_singleton.mp hr ▸ exclusive
    · rw [idle]
      simp [Task.touches]

/-- A blank line is skipped. -/
theorem blank (h : Loop float describe c before input conn) {line rest : List Char}
    (hnext : nextLine conn.ended conn.unread = some (line, rest)) (hblank : isBlankLine line = true) :
    Loop float describe c before input { conn with unread := rest } := by
  have hrequests : conn.requests = requestLines conn.ended rest := by
    rw [Connection.requests, requestLines_of_nextLine hnext, if_pos hblank]
  obtain ⟨hlines, hheld, hworking, hanswered, htouches⟩ := h
  rw [hrequests] at hlines hworking
  exact ⟨hlines, hheld, hworking, hanswered, htouches⟩

/-- A line is read. -/
theorem line (h : Loop float describe c before input conn) {line rest : List Char}
    {registry : Registry} {broker : Broker}
    (hnext : nextLine conn.ended conn.unread = some (line, rest)) (hblank : isBlankLine line = false)
    (hs : conn.broker.step sha256 (.receive c (readLine float describe line) registry) =
      some broker) :
    Loop float describe c before input
      { conn with unread := rest, read := conn.read ++ [line], broker } := by
  obtain ⟨responses, hanswers, hids, hone⟩ := h.answered
  have hlines : conn.read ++ [line] ++ requestLines conn.ended rest = input := by
    rw [← h.lines, Connection.requests, requestLines_of_nextLine hnext, hblank, List.append_assoc]
    rfl
  have hlast : (conn.read ++ [line]).getLast? = some line := List.getLast?_concat
  obtain ⟨hidle, htakes⟩ := Broker.takes_of_receive hs
  -- nothing was being worked on
  rw [hidle] at hids
  have hids : responses.map (·.id) =
      conn.read.map (fun line => lineId (readLine float describe line)) :=
    (List.append_nil _).symm.trans hids
  cases htakes with
  | works request touches answers =>
    refine ⟨hlines, h.held.step hs, .inr (.inl (by rw [request]; rfl)),
      ⟨responses, answers.trans hanswers, ?_, hone⟩, fun ht => ⟨line, hlast, touches ht⟩⟩
    rw [request, hids, List.map_append]
    rfl
  | answers response id exclusive idle answers =>
    refine ⟨hlines, h.held.step hs, .inl idle, ⟨responses ++ [response], ?_, ?_, ?_⟩, ?_⟩
    · rw [answers, hanswers, List.append_assoc]
    · rw [idle, List.map_append, List.map_append, hids, List.map_singleton, id]
      exact List.append_nil _
    · intro r hr
      rcases List.mem_append.mp hr with hr | hr
      · exact hone r hr
      · exact List.mem_singleton.mp hr ▸ exclusive
    · rw [idle]
      simp [Task.touches]

/-- The stream has ended. -/
theorem hangUp (h : Loop float describe c before input conn) {broker : Broker}
    (hended : conn.ended = true) (hnext : nextLine conn.ended conn.unread = none)
    (hs : conn.broker.step sha256 (.hangUp c) = some broker) :
    Loop float describe c before input { conn with broker } := by
  obtain ⟨responses, hanswers, hids, hone⟩ := h.answered
  have hheld := h.held.step hs
  have hdone : conn.requests = [] := by
    rw [Connection.requests, requestLines, allLines_of_nextLine_eq_none hnext]
    rfl
  cases Broker.stepped_of_step hs with
  | hungUp hidle =>
    rw [hidle] at hids
    refine ⟨h.lines, hheld, .inr (.inr ⟨hended, hdone⟩), ⟨responses, hanswers, ?_, hone⟩, ?_⟩
    · rw [Broker.tasks_setTask_self]
      exact hids
    · rw [Broker.tasks_setTask_self]
      simp [Task.touches]
  | quiet hquiet => exact absurd hquiet (by simp [Event.isQuiet])

/-- **Every turn keeps the answers in step with the lines.** -/
theorem step (h : Loop float describe c before input conn) {turn : Turn}
    (hs : conn.step sha256 float describe c turn = some conn') :
    Loop float describe c before input conn' := by
  cases turn with
  | next registry =>
    simp only [Connection.step] at hs
    split at hs
    · rename_i rest hidle hnext
      split at hs
      · rename_i hblank
        obtain rfl := Option.some.inj hs
        exact h.blank hnext hblank
      · rename_i hblank
        obtain ⟨broker, hbroker, rfl⟩ := Option.map_eq_some_iff.mp hs
        exact h.line hnext (by simpa using hblank) hbroker
    · rename_i hidle hnext
      split at hs
      · rename_i hended
        obtain ⟨broker, hbroker, rfl⟩ := Option.map_eq_some_iff.mp hs
        exact h.hangUp hended hnext hbroker
      · exact absurd hs (by simp)
    · exact absurd hs (by simp)
  | other event =>
    simp only [Connection.step] at hs
    split at hs
    · exact absurd hs (by simp)
    · rename_i hreads
      obtain ⟨broker, hbroker, rfl⟩ := Option.map_eq_some_iff.mp hs
      exact h.other hbroker (by simpa using hreads)

end Loop

/-- What is left to read is as it was, or without its next line. -/
theorem unread_of_step {turn : Turn} (hs : conn.step sha256 float describe c turn = some conn') :
    conn'.ended = conn.ended ∧ (conn'.unread = conn.unread ∨
      ∃ line, nextLine conn.ended conn.unread = some (line, conn'.unread)) := by
  cases turn with
  | next registry =>
    simp only [Connection.step] at hs
    split at hs
    · rename_i hnext
      split at hs
      · obtain rfl := Option.some.inj hs
        exact ⟨rfl, .inr ⟨_, hnext⟩⟩
      · obtain ⟨broker, -, rfl⟩ := Option.map_eq_some_iff.mp hs
        exact ⟨rfl, .inr ⟨_, hnext⟩⟩
    · split at hs
      · obtain ⟨broker, -, rfl⟩ := Option.map_eq_some_iff.mp hs
        exact ⟨rfl, .inl rfl⟩
      · exact absurd hs (by simp)
    · exact absurd hs (by simp)
  | other event =>
    simp only [Connection.step] at hs
    split at hs
    · exact absurd hs (by simp)
    · obtain ⟨broker, -, rfl⟩ := Option.map_eq_some_iff.mp hs
      exact ⟨rfl, .inl rfl⟩

/-- Nothing that was written is taken back. -/
theorem answers_of_step {turn : Turn} (hs : conn.step sha256 float describe c turn = some conn') :
    ∃ more, conn'.broker.answers c = conn.broker.answers c ++ more := by
  cases turn with
  | next registry =>
    simp only [Connection.step] at hs
    split at hs
    · split at hs
      · obtain rfl := Option.some.inj hs
        exact ⟨[], (List.append_nil _).symm⟩
      · obtain ⟨broker, hbroker, rfl⟩ := Option.map_eq_some_iff.mp hs
        cases (Broker.takes_of_receive hbroker).2 with
        | works request touches answers => exact ⟨[], answers.trans (List.append_nil _).symm⟩
        | answers response id exclusive idle answers => exact ⟨_, answers⟩
    · split at hs
      · obtain ⟨broker, hbroker, rfl⟩ := Option.map_eq_some_iff.mp hs
        cases Broker.stepped_of_step hbroker with
        | hungUp => exact ⟨[], (List.append_nil _).symm⟩
        | quiet => exact ⟨[], (List.append_nil _).symm⟩
      · exact absurd hs (by simp)
    · exact absurd hs (by simp)
  | other event =>
    simp only [Connection.step] at hs
    split at hs
    · exact absurd hs (by simp)
    · rename_i hreads
      obtain ⟨broker, hbroker, rfl⟩ := Option.map_eq_some_iff.mp hs
      cases Broker.handles_of_step hbroker (by simpa using hreads) with
      | goes request idle touches answers => exact ⟨[], answers.trans (List.append_nil _).symm⟩
      | answers response request exclusive idle answers => exact ⟨_, answers⟩

/-! ### Runs -/

section Runs

variable (sha256 float describe c)

/-- The loop and everything beside it, in any order. -/
def Connection.Runs : Connection → List Turn → Connection → Prop :=
  Transition.Run fun conn turn conn' => conn.step sha256 float describe c turn = some conn'

end Runs

/-- Every line has been read and answered. -/
def Connection.Done (c : Nat) (conn : Connection) : Prop :=
  conn.requests = [] ∧ (conn.broker.tasks c).request = none

namespace Loop

/-- A connection whose stream begins. -/
theorem start {broker : Broker} (hheld : broker.LockHeld) (hidle : broker.tasks c = .idle)
    (unread : List Char) (ended : Bool) : Loop float describe c (broker.answers c)
      (requestLines ended unread) { unread, ended, read := [], broker } where
  lines := rfl
  held := hheld
  working := .inl hidle
  answered := ⟨[], (List.append_nil _).symm, by rw [hidle]; rfl, by simp⟩
  touches := by
    rw [hidle]
    simp [Task.touches]

theorem run (h : Loop float describe c before input conn) {turns : List Turn}
    (hrun : Connection.Runs sha256 float describe c conn turns conn') :
    Loop float describe c before input conn' :=
  hrun.invariant h fun _ _ _ h hs => h.step hs

/-- What happens to the broker happens beside the loop. -/
theorem runs_of_awaits {broker : Broker} {events : List Event}
    (h : Broker.Awaits sha256 c conn.broker events broker) :
    Connection.Runs sha256 float describe c conn (events.map .other) { conn with broker } := by
  induction h with
  | start => exact .start
  | snoc _ hs ih =>
    rw [List.map_append]
    refine .snoc ih ?_
    simp only [Connection.step, hs.2, hs.1]
    rfl

/-- A request that is worked on gets its answer. -/
theorem exists_idle (h : Loop float describe c before input conn)
    (hworks : (conn.broker.tasks c).request.isSome = true) : ∃ turns broker,
      Connection.Runs sha256 float describe c conn turns { conn with broker } ∧
      broker.tasks c = .idle := by
  obtain ⟨events, broker, hawaits, hidle⟩ := Broker.exists_answered h.held hworks
  exact ⟨_, broker, runs_of_awaits hawaits, hidle⟩

/-- One line less is left. -/
theorem exists_next (hidle : conn.broker.tasks c = .idle) {line rest : List Char}
    (hnext : nextLine conn.ended conn.unread = some (line, rest)) :
    ∃ conn', conn.step sha256 float describe c (.next Broker.someRegistry) = some conn' ∧
      conn'.ended = conn.ended ∧ conn'.unread = rest := by
  simp only [Connection.step, hidle, hnext]
  split
  · exact ⟨_, rfl, rfl, rfl⟩
  · simp only [Broker.step, hidle]
    split <;> exact ⟨_, rfl, rfl, rfl⟩

/-- **Whatever has happened so far, all lines can still be read and answered.** -/
theorem exists_done (h : Loop float describe c before input conn) :
    ∃ turns conn', Connection.Runs sha256 float describe c conn turns conn' ∧ conn'.Done c := by
  induction hn : (allLines conn.ended conn.unread).length using Nat.strongRecOn generalizing conn with
  | _ n ih =>
    -- from a moment at which the loop waits for its next line
    have hidle : ∀ conn₁ : Connection, Loop float describe c before input conn₁ →
        (allLines conn₁.ended conn₁.unread).length = n → conn₁.broker.tasks c = .idle →
        ∃ turns conn', Connection.Runs sha256 float describe c conn₁ turns conn' ∧ conn'.Done c := by
      intro conn₁ h₁ hn₁ hidle
      cases hnext : nextLine conn₁.ended conn₁.unread with
      | none =>
        refine ⟨[], conn₁, .start, ?_, by rw [hidle]; rfl⟩
        rw [Connection.requests, requestLines, allLines_of_nextLine_eq_none hnext]
        rfl
      | some next =>
        obtain ⟨line, rest⟩ := next
        obtain ⟨conn₂, hs, hended, hrest⟩ := exists_next hidle hnext
        have hlt : (allLines conn₂.ended conn₂.unread).length < n := by
          rw [← hn₁, allLines_of_nextLine hnext, hended, hrest, List.length_cons]
          omega
        obtain ⟨turns, conn', hrun, hdone⟩ := ih _ hlt (h₁.step hs) rfl
        exact ⟨[.next Broker.someRegistry] ++ turns, conn',
          Transition.Run.append (.snoc .start hs) hrun, hdone⟩
    cases hrequest : (conn.broker.tasks c).request with
    | some id =>
      obtain ⟨turns, broker, hrun, hafter⟩ := h.exists_idle (by rw [hrequest]; rfl)
      obtain ⟨more, conn', hmore, hdone⟩ := hidle _ (h.run hrun) hn hafter
      exact ⟨turns ++ more, conn', hrun.append hmore, hdone⟩
    | none =>
      rcases h.working with hwaits | hworks | ⟨-, hdone⟩
      · exact hidle conn h hn hwaits
      · rw [hrequest] at hworks
        exact absurd hworks (by simp)
      · exact ⟨[], conn, .start, hdone, hrequest⟩

end Loop

/-! ### What a request leaves alone -/

/-- What runs, and for whom, is the same. -/
structure SameServers (engine engine' : Engine) : Prop where
  grants : engine'.grants = engine.grants
  shared : engine'.shared = engine.shared
  processes : engine'.processes = engine.processes

theorem sameServers_of_evaluates {operations : List Operation}
    (h : ∀ o ∈ operations, ∃ name launchHash, o = .evaluate name launchHash) (engine : Engine) :
    SameServers engine (operations.foldl Engine.perform engine) := by
  induction operations generalizing engine with
  | nil => exact ⟨rfl, rfl, rfl⟩
  | cons o operations ih =>
    obtain ⟨⟨name, launchHash, rfl⟩, hrest⟩ := List.forall_mem_cons.mp h
    obtain ⟨hgrants, hshared, hprocesses⟩ := ih hrest (engine.perform (.evaluate name launchHash))
    exact ⟨hgrants, hshared, hprocesses⟩

/-- A task that is not about what runs only looks at consent. -/
theorem evaluates_of_task {broker : Broker} {order : IterationOrder} {outcome : StartOutcome}
    {task : Task} (htouches : task.touches = false) (hopen : task ≠ .closing) :
    ∀ o ∈ broker.taskOperations c order outcome task,
      ∃ name launchHash, o = .evaluate name launchHash := by
  cases task with
  | list => exact List.forall_mem_map.mpr fun e _ => ⟨e.name, e.launchHash, rfl⟩
  | status | query => exact List.forall_mem_singleton.mpr ⟨_, _, rfl⟩
  | closing => exact absurd rfl hopen
  | idle | closed =>
    intro o ho
    exact absurd ho List.not_mem_nil
  | consult | queue | reread | prompt | activate | release | deactivate =>
    exact absurd htouches (by simp [Task.touches])

/-- The turn is the connection's own. -/
def Turn.Own (c : Nat) : Turn → Prop
  | .next _ => True
  | .other (.proceed c' _ _) | .other (.lockPrompt c') | .other (.answer c' _ _ _) => c' = c
  | .other _ => False

/-- **A request that comes to no arm about what runs leaves it alone.** -/
theorem Loop.sameServers (h : Loop float describe c before input conn) {turn : Turn}
    (hs : conn.step sha256 float describe c turn = some conn') (hown : turn.Own c)
    (hopen : conn.broker.tasks c ≠ .closing)
    (harm : ∀ line ∈ conn'.read.getLast?, reachesArm (readLine float describe line) = false) :
    SameServers conn.broker.engine conn'.broker.engine := by
  have hsame : conn'.broker.engine = conn.broker.engine →
      SameServers conn.broker.engine conn'.broker.engine := fun h => by
    rw [h]
    exact ⟨rfl, rfl, rfl⟩
  cases turn with
  | next registry =>
    -- reading leaves the engine alone, whatever is read
    simp only [Connection.step] at hs
    split at hs
    · split at hs
      · obtain rfl := Option.some.inj hs
        exact hsame rfl
      · obtain ⟨broker, hbroker, rfl⟩ := Option.map_eq_some_iff.mp hs
        exact hsame (Broker.step_engine hbroker)
    · split at hs
      · obtain ⟨broker, hbroker, rfl⟩ := Option.map_eq_some_iff.mp hs
        exact hsame (Broker.step_engine hbroker)
      · exact absurd hs (by simp)
    · exact absurd hs (by simp)
  | other event =>
    simp only [Connection.step] at hs
    split at hs
    · exact absurd hs (by simp)
    · obtain ⟨broker, hbroker, rfl⟩ := Option.map_eq_some_iff.mp hs
      have hquiet : (conn.broker.tasks c).touches = false := by
        refine Bool.eq_false_iff.mpr fun htouches => ?_
        obtain ⟨line, hline, hreaches⟩ := h.touches htouches
        exact absurd hreaches (by simp [harm line hline])
      cases event with
      | proceed c' order outcome =>
        obtain rfl : c' = c := hown
        show SameServers conn.broker.engine broker.engine
        rw [Broker.step_engine hbroker]
        exact sameServers_of_evaluates (evaluates_of_task hquiet hopen) _
      | lockPrompt c' => exact hsame (Broker.step_engine hbroker)
      | answer c' decision now outcome =>
        obtain rfl : c' = c := hown
        cases Broker.stepped_of_step hbroker with
        | told htask =>
          rw [htask] at hquiet
          exact absurd hquiet (by simp [Task.touches])
        | quiet h => exact absurd h (by simp [Event.isQuiet])
      | _ => exact absurd hown (by simp [Turn.Own])

/-! ### The whole stream -/

/-- A lock nobody has taken yet is where it should be. -/
theorem lockHeld_of_reached {disk : Disk} {now brokerPid nextGrant : Nat} {available : Bool}
    {clientPid : Nat → Option Nat} {events : List Event} {r : Recorded}
    (h : Recorded.Reached sha256 (.new disk now brokerPid nextGrant available clientPid) events r) :
    r.broker.LockHeld := by
  refine h.invariant (P := fun r => r.broker.LockHeld) (Broker.lockHeld_of_none rfl) ?_
  intro r event r' hheld hs
  obtain ⟨broker, hbroker, rfl⟩ := Recorded.step_eq_some.mp hs
  exact hheld.step hbroker

/-- **One response for each request line, in order.** -/
theorem one_response_per_line (disk : Disk) (now brokerPid nextGrant : Nat) (available : Bool)
    (clientPid : Nat → Option Nat) (events : List Event) (r : Recorded)
    (hreached : Recorded.Reached sha256 (.new disk now brokerPid nextGrant available clientPid)
      events r)
    (hidle : r.broker.tasks c = .idle) (stream : List Char) (turns : List Turn)
    (hrun : Connection.Runs sha256 float describe c
      { unread := stream, ended := true, read := [], broker := r.broker } turns conn) :
    (∃ responses, conn.broker.answers c = r.broker.answers c ++ responses ∧
      responses.map (·.id) <+:
        (requestLines true stream).map (fun line => lineId (readLine float describe line)) ∧
      (conn.Done c → responses.map (·.id) =
        (requestLines true stream).map (fun line => lineId (readLine float describe line))) ∧
      ∀ response ∈ responses, response.IsAnswer response.encode) ∧
    (∃ more conn', Connection.Runs sha256 float describe c conn more conn' ∧ conn'.Done c) ∧
    ∀ turn conn', conn.step sha256 float describe c turn = some conn' → turn.Own c →
      conn.broker.tasks c ≠ .closing →
      (∀ line ∈ conn'.read.getLast?, reachesArm (readLine float describe line) = false) →
      SameServers conn.broker.engine conn'.broker.engine := by
  have hloop : Loop float describe c (r.broker.answers c) (requestLines true stream) conn :=
    (Loop.start (lockHeld_of_reached hreached) hidle stream true).run hrun
  refine ⟨?_, hloop.exists_done, fun turn conn' hs hown hopen harm =>
    hloop.sameServers hs hown hopen harm⟩
  obtain ⟨responses, hanswers, hids, hone⟩ := hloop.answered
  refine ⟨responses, hanswers, ?_, ?_, fun response hr => Response.isAnswer_encode (hone response hr)⟩
  · rw [← hloop.lines, List.map_append, ← hids, List.append_assoc]
    exact List.prefix_append _ _
  · intro hdone
    rw [hdone.2, Option.toList_none, List.append_nil] at hids
    rw [← hloop.lines, hdone.1, List.append_nil, hids]

end Loop

/-- A request for the list of the servers. -/
def listLine : List Char :=
  ['\x7b'] ++ "\"jsonrpc\":\"2.0\",\"id\":\"7\",\"method\":\"locator/list\"".toList ++ ['\x7d']

/-- It is followed by a line that is no request, a blank one and another one that is none. -/
def mixedStream : List Char := listLine ++ ['\n', 'x', '\n', '\r', '\n', '[', ']']

theorem requestLines_mixedStream : requestLines true mixedStream = [listLine, ['x'], ['[', ']']] := by
  have hall : allLines true mixedStream = [listLine, ['x'], [], ['[', ']']] := by
    have hfirst := allLines_line true (show '\n' ∉ listLine by decide +kernel)
      ['x', '\n', '\r', '\n', '[', ']']
    have hsecond := allLines_line true (show '\n' ∉ ['x'] by decide) ['\r', '\n', '[', ']']
    have hthird := allLines_line true (show '\n' ∉ ['\r'] by decide) ['[', ']']
    have hlast := allLines_of_not_mem true (show '\n' ∉ ['[', ']'] by decide)
    have hcarriage : dropCarriage listLine = listLine := by decide +kernel
    rw [mixedStream, hfirst, hcarriage]
    exact congrArg _ (hsecond.trans (congrArg _ (hthird.trans (congrArg _ hlast))))
  rw [requestLines, hall]
  decide +kernel

/-- Each of the three is answered, in order. -/
theorem one_response_per_line_started : ∃ turns, ∃ conn : Connection,
    Connection.Runs (fun _ => "") (fun _ => none) (fun _ => "") 0
      { unread := mixedStream, ended := true, read := [],
        broker := (Recorded.new ⟨none, none⟩ 0 0 0 false fun _ => none).broker } turns conn ∧
    conn.Done 0 ∧ (conn.broker.answers 0).map (·.id.1.asStr) = [some "7", none, none] := by
  -- there is a run to the end, and at its end there is an answer for every line
  obtain ⟨-, ⟨turns, conn, hrun, hdone⟩, -⟩ := @one_response_per_line (fun _ => "") (fun _ => none)
    (fun _ => "") 0 _ ⟨none, none⟩ 0 0 0 false (fun _ => none) [] _ .start rfl mixedStream [] .start
  obtain ⟨⟨responses, hanswers, -, hall, -⟩, -⟩ := @one_response_per_line (fun _ => "") (fun _ => none)
    (fun _ => "") 0 _ ⟨none, none⟩ 0 0 0 false (fun _ => none) [] _ .start rfl mixedStream turns hrun
  have hids := congrArg (List.map (·.1.asStr)) (hall hdone)
  rw [requestLines_mixedStream, List.map_map] at hids
  refine ⟨turns, conn, hrun, hdone, ?_⟩
  rw [hanswers]
  exact hids.trans (by decide +kernel)

end McpLocator.Broker
