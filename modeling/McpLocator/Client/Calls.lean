import McpLocator.Broker.Stream
import McpLocator.Client.Framing
import McpLocator.Js.WellFormed

namespace McpLocator.Client

open Json Js Lines Broker Proto

/-!
# Calls (broker.ts, against the request loop of server.rs)

* `Call` — a method and its parameters; `Call.message` is what is sent for it.
* `BrokerClient` — the promises that are pending; `call` and `handle`.
* `readLine_message` — the broker reads a call under its id if all its strings are well formed.  An
  unpaired surrogate is written as an escape that the broker refuses.
* `Session` — a client, its connection and the answers it has heard; `Settling` is what holds in every
  run, and `every_call_settled` the outcome.
-/

/-! ### Messages -/

/-- A member of the parameters; the handshake gives its protocol version as a number. -/
inductive Scalar where
  | string (s : JsString)
  | bool (b : Bool)
  | number (n : Fin (2 ^ 53))

def Scalar.value : Scalar → JsValue
  | .string s => .string s
  | .bool b => .bool b
  | .number n => .number (.ofNat n.val)

/-- A call; the parameters are an object, which has each key once. -/
structure Call where
  method : JsString
  params : List (JsString × Scalar)
  nodup : (params.map Prod.fst).Nodup

namespace Call

def paramsValue (call : Call) : JsValue := .object (call.params.map fun m => (m.1, m.2.value))

/-- The strings of a call. -/
def strings (call : Call) : List JsString := call.method :: call.paramsValue.strings

/-- No string of the call has an unpaired surrogate. -/
def isWellFormed (call : Call) : Bool := call.strings.all Js.isWellFormed

/-- `{ jsonrpc: '2.0', id, method, params }` -/
def message (call : Call) (id : Nat) : JsValue :=
  .object [(ofString "jsonrpc", .string (ofString "2.0")), (ofString "id", .number (.ofNat id)),
    (ofString "method", .string call.method), (ofString "params", call.paramsValue)]

end Call

/-! ### What the broker reads -/

section Reading

variable {float : Literal → Option FloatText} {describe : List Char → String}

/-- The id of a call, as the broker has it. -/
def idValue (id : Nat) : JsonValue := ⟨natValue id, rfl⟩

theorem value_scalar_isSome (float : Literal → Option FloatText) (v : Scalar) (depth : Nat) :
    ((v.value.map points).value float depth).isSome =
      v.value.strings.all Js.isWellFormed := by
  cases v with
  | string s =>
    show ((textOf (points s)).map _).isSome = (Js.isWellFormed s && true)
    rw [Option.isSome_map, textOf_points, Bool.and_true]
  | bool b => rfl
  | number n =>
    show ((Number.ofLiteral float (.ofNat n.val)).map _).isSome = true
    rw [Option.isSome_map, Number.ofLiteral_ofNat float (by omega)]
    rfl

theorem value_params_isSome (float : Literal → Option FloatText) (call : Call) :
    ((call.paramsValue.map points).value float 127).isSome =
      call.paramsValue.strings.all Js.isWellFormed := by
  rw [Call.paramsValue, Document.map_object, value_object, if_neg (by decide), Option.isSome_map,
    Bool.eq_iff_iff, Serde.mapM_isSome, Document.strings_object, List.all_eq_true]
  simp only [List.forall_mem_map, List.forall_mem_flatMap, List.forall_mem_cons]
  refine forall_congr' fun m => imp_congr_right fun _ => ?_
  rw [← textOf_points m.1, ← List.all_eq_true, ← value_scalar_isSome float m.2 126]
  cases textOf (points m.1) with
  | none => simp
  | some k =>
    rw [Option.bind_some, Option.isSome_map]
    exact (and_iff_right rfl).symm

/-- What the text of a call is read as. -/
theorem fromStr_message (call : Call) {id : Nat} (h : id ≤ 2 ^ 53) :
    Request.fromStr float (JSON.stringify (call.message id)) =
      (textOf (points call.method)).bind fun method =>
        ((call.paramsValue.map points).value float 127).map fun params =>
          { jsonrpc := "2.0", id := idValue id, method := String.ofList method,
            params := some params } := by
  have hmessage : (call.message id).map points =
      .object [(pointsOf "jsonrpc", .string (pointsOf "2.0")), (pointsOf "id", .number (.ofNat id)),
        (pointsOf "method", .string (points call.method)),
        (pointsOf "params", call.paramsValue.map points)] := by
    rw [Call.message, Document.map_object]
    simp only [List.map_cons, List.map_nil, points_ofString]
    rw [← points_ofString "2.0"]
    rfl
  have hnumber : Document.value float (.number (.ofNat id)) 127 = some (idValue id) := by
    rw [value_number, Number.ofLiteral_ofNat float (by omega)]
    rfl
  have hparams : call.paramsValue.map points ≠ .null := by
    rw [Call.paramsValue, Document.map_object]
    simp
  rw [Request.fromStr, JSON.stringify, parse_render, Option.bind_some, hmessage,
    Request.ofDocument_object hparams, hnumber, Option.bind_some, Document.text, Option.bind_map]
  rfl

/-- **The broker reads a call exactly if no surrogate is unpaired.** -/
theorem readLine_message (float : Literal → Option FloatText) (describe : List Char → String)
    (call : Call) {id : Nat} (h : id ≤ 2 ^ 53) :
    if call.isWellFormed then ∃ request,
      readLine float describe (JSON.stringify (call.message id)) = .ok request ∧
        request.id = idValue id
    else readLine float describe (JSON.stringify (call.message id)) =
      .error (describe (JSON.stringify (call.message id))) := by
  have hwell : call.isWellFormed =
      (Js.isWellFormed call.method && call.paramsValue.strings.all Js.isWellFormed) := rfl
  rw [readLine, fromStr_message call h, hwell, ← textOf_points, ← value_params_isSome float]
  cases textOf (points call.method) with
  | none => rfl
  | some method =>
    cases (call.paramsValue.map points).value float 127 with
    | none => rfl
    | some params => exact ⟨_, rfl, rfl⟩

theorem lineId_message {call : Call} (hwell : call.isWellFormed = true) {id : Nat}
    (h : id ≤ 2 ^ 53) :
    lineId (readLine float describe (JSON.stringify (call.message id))) = idValue id := by
  have hread := readLine_message float describe call h
  rw [if_pos hwell] at hread
  obtain ⟨request, hrequest, hid⟩ := hread
  rw [hrequest]
  exact hid

end Reading

/-! ### The client -/

/-- What a promise comes to. -/
inductive Outcome where
  | resolved (result : Option JsValue)
  | rejected (code message : Option JsValue)

/-- `nextId++`; from `2 ** 53` on adding one rounds back. -/
def increment (n : Nat) : Nat := if n < 2 ^ 53 then n + 1 else n

/-- The client's side of a connection.  A promise is the number of calls that were made before its
    own; `settled` is which promises `#handle` has settled, oldest first. -/
structure BrokerClient where
  nextId : Nat
  pending : JsMap Nat Nat
  settled : List (Nat × Outcome)

section Client

variable (rounded : Literal → Option Nat)

/-- The natural number up to `2 ** 53` that the double of a literal is, if it is one.  Digits are
    exact up to there; `rounded` is what becomes of any other literal. -/
def natural (l : Literal) : Option Nat :=
  if l.text.all Char.isDigit ∧ digitsValue l.text ≤ 2 ^ 53 then some (digitsValue l.text)
  else rounded l

def isTruthy : JsValue → Bool
  | .null => false
  | .bool b => b
  | .number l => natural rounded l != some 0
  | .string s => !s.isEmpty
  | .array _ | .object _ => true

/-- `if (message.error) pending.reject(..) else pending.resolve(..)` -/
def outcomeOf (message : JsValue) : Outcome :=
  match message.property "error" with
  | none => .resolved (message.property "result")
  | some error =>
    if isTruthy rounded error then .rejected (error.property "code") (error.property "message")
    else .resolved (message.property "result")

namespace BrokerClient

/-- The client after a call, and the line it has written. -/
def call (client : BrokerClient) (promise : Nat) (call : Call) : BrokerClient × List Char :=
  let id := client.nextId
  ({ client with nextId := increment id, pending := client.pending.set id promise },
    JSON.stringify (call.message id) ++ ['\n'])

/-- `#handle`; `none` where it throws. -/
def handle (client : BrokerClient) (line : List Char) : Option BrokerClient :=
  match JSON.parse line with
  -- a malformed frame is dropped
  | none => some client
  | some .null => none
  | some message =>
    match message.property "id" with
    | some (.number l) =>
      match natural rounded l with
      | none => some client
      | some id =>
        match client.pending.get id with
        | none => some client
        | some promise =>
          some { client with pending := client.pending.delete id,
                             settled := client.settled ++ [(promise, outcomeOf rounded message)] }
    | _ => some client

end BrokerClient

end Client

/-! ### Answers -/

/-- What the client has of a value that the broker writes. -/
def received (v : Value) : JsValue := assign (v.document.map units)

def receivedError (e : RpcError) : JsValue :=
  .object [(ofString "code", .number (.ofInt e.code)),
    (ofString "message", .string (ofString e.message))]

/-- The outcome that a response stands for. -/
def responseOutcome (r : Response) : Outcome :=
  match r.error with
  | some e => .rejected (some (.number (.ofInt e.code))) (some (.string (ofString e.message)))
  | none => .resolved (r.result.map received)

theorem ofString_beq (s t : String) : (ofString s == ofString t) = (s == t) := by
  rw [Bool.eq_iff_iff, beq_iff_eq, beq_iff_eq]
  exact ofString_injective.eq_iff

/-- An object whose keys are distinct texts is received as it is. -/
theorem assign_fields (fields : List (String × Document (List Point)))
    (h : (fields.map Prod.fst).Nodup) :
    assign ((Document.object (fields.map fun m => (pointsOf m.1, m.2))).map units) =
      .object (fields.map fun m => (ofString m.1, assign (m.2.map units))) := by
  have hfields : ((fields.map fun m => (pointsOf m.1, m.2)).map fun m => (units m.1, m.2.map units)).map
      (fun m => (m.1, assign m.2)) = fields.map fun m => (ofString m.1, assign (m.2.map units)) := by
    rw [List.map_map, List.map_map]
    exact List.map_congr_left fun m _ => congrArg (·, _) (units_pointsOf m.1)
  have hkeys : ((fields.map fun m => (ofString m.1, assign (m.2.map units))).map Prod.fst).Nodup := by
    rw [List.map_map]
    have := h.map ofString_injective
    rwa [List.map_map] at this
  rw [Document.map_object, assign_object, hfields, setAll_of_nodup hkeys]

theorem assign_text (s : String) :
    assign (Document.map units (.string (pointsOf s))) = .string (ofString s) := by
  show Document.string (units (pointsOf s)) = _
  rw [units_pointsOf]

theorem assign_error (e : RpcError) : assign (e.document.map units) = receivedError e := by
  rw [receivedError, ← assign_text]
  exact assign_fields [("code", .number (.ofInt e.code)), ("message", .string (pointsOf e.message))]
    (show ["code", "message"].Nodup by decide)

/-- The members of a response. -/
def responseFields (r : Response) : List (String × Document (List Point)) :=
  [("jsonrpc", .string (pointsOf r.jsonrpc)), ("id", r.id.1.document)] ++
    (r.result.map fun v => ("result", v.document)).toList ++
    (r.error.map fun e => ("error", e.document)).toList

theorem document_eq_fields (r : Response) :
    r.document = .object ((responseFields r).map fun m => (pointsOf m.1, m.2)) := by
  obtain ⟨jsonrpc, id, result, error⟩ := r
  cases result <;> cases error <;> rfl

/-- **What `JSON.parse` makes of a response.** -/
theorem parse_encode (r : Response) : JSON.parse r.encode =
    some (.object ((responseFields r).map fun m => (ofString m.1, assign (m.2.map units)))) := by
  have hnodup : ((responseFields r).map Prod.fst).Nodup := by
    obtain ⟨jsonrpc, id, result, error⟩ := r
    cases result <;> cases error <;> simp [responseFields]
  rw [Response.encode, JSON.parse_render, document_eq_fields, assign_fields _ hnodup]

theorem property_fields (fields : List (String × Document (List Point))) (key : String) :
    JsValue.property key (.object (fields.map fun m => (ofString m.1, assign (m.2.map units)))) =
      (fields.lookup key).map fun t => assign (t.map units) := by
  rw [JsValue.property]
  induction fields with
  | nil => rfl
  | cons m fields ih =>
    rw [List.map_cons, List.lookup_cons, List.lookup_cons, ofString_beq, ih]
    cases key == m.1 <;> rfl

theorem lookup_id (r : Response) : (responseFields r).lookup "id" = some r.id.1.document := rfl

theorem lookup_result (r : Response) :
    (responseFields r).lookup "result" = r.result.map Value.document := by
  obtain ⟨jsonrpc, id, result, error⟩ := r
  cases result <;> cases error <;> rfl

theorem lookup_error (r : Response) :
    (responseFields r).lookup "error" = r.error.map RpcError.document := by
  obtain ⟨jsonrpc, id, result, error⟩ := r
  cases result <;> cases error <;> rfl

/-- **A promise comes to what its response stands for.** -/
theorem outcomeOf_fields (rounded : Literal → Option Nat) (r : Response) :
    outcomeOf rounded (.object ((responseFields r).map fun m =>
      (ofString m.1, assign (m.2.map units)))) = responseOutcome r := by
  rw [outcomeOf, property_fields, property_fields, lookup_error, lookup_result, responseOutcome]
  cases r.error with
  | none => exact congrArg Outcome.resolved (Option.map_map ..)
  | some e =>
    rw [Option.map_some, Option.map_some, assign_error]
    show Outcome.rejected _ _ = _
    have hcode : (receivedError e).property "code" = some (.number (.ofInt e.code)) := by
      rw [receivedError, JsValue.property, List.lookup_cons_self]
    have hmessage : (receivedError e).property "message" = some (.string (ofString e.message)) := by
      simp [receivedError, JsValue.property, List.lookup_cons, ofString_beq]
    rw [hcode, hmessage]

theorem natural_ofNat (rounded : Literal → Option Nat) {n : Nat} (h : n ≤ 2 ^ 53) :
    natural rounded (.ofNat n) = some n := by
  rw [natural, Literal.digitsValue_ofNat, if_pos ⟨Literal.all_isDigit_ofNat n, h⟩]

/-- **A response settles the promise that its id names.** -/
theorem handle_encode {rounded : Literal → Option Nat} {client : BrokerClient} {r : Response}
    {id promise : Nat} (hid : r.id = idValue id) (hle : id ≤ 2 ^ 53)
    (hpending : client.pending.get id = some promise) :
    client.handle rounded r.encode =
      some { client with pending := client.pending.delete id,
                         settled := client.settled ++ [(promise, responseOutcome r)] } := by
  have hproperty : JsValue.property "id" (.object ((responseFields r).map fun m =>
      (ofString m.1, assign (m.2.map units)))) = some (.number (.ofNat id)) := by
    rw [property_fields, lookup_id, hid]
    show some (Document.number (.ofNat (UInt64.ofNat id).toNat)) = _
    rw [UInt64.toNat_ofNat_of_lt' (by show id < 2 ^ 64; omega)]
  rw [BrokerClient.handle, parse_encode]
  simp only [hproperty, natural_ofNat rounded hle, hpending, outcomeOf_fields]

/-- An answer without an id is dropped. -/
theorem handle_encode_null {rounded : Literal → Option Nat} {client : BrokerClient} {r : Response}
    (hid : r.id = nullId) : client.handle rounded r.encode = some client := by
  have hproperty : JsValue.property "id" (.object ((responseFields r).map fun m =>
      (ofString m.1, assign (m.2.map units)))) = some .null := by
    rw [property_fields, lookup_id, hid]
    rfl
  rw [BrokerClient.handle, parse_encode]
  simp only [hproperty]

/-! ### Lines of calls -/

theorem isBlankLine_render (t : Document (List Point)) : isBlankLine (render t) = false := by
  obtain ⟨c, u, hu, hplain, hne, -⟩ := render_head t
  have hspace : ∀ n : Fin 128, 0x20 < n.val → isWhiteSpace (Char.ofNat n.val) = false := by decide
  have hcode : c.toNat ≠ 0x20 := fun h => hne (Char.toNat_inj.mp h)
  have hlow := hplain.1
  have hc := hspace ⟨c.toNat, hplain.2⟩ (by show 0x20 < c.toNat; omega)
  rw [Char.ofNat_toNat] at hc
  rw [isBlankLine, hu, List.all_cons, hc]
  rfl

theorem dropCarriage_render (t : Document (List Point)) : dropCarriage (render t) = render t := by
  refine if_neg fun h => ?_
  have hmem : '\r' ∈ render t := List.mem_of_getLast? h
  exact absurd (printable_render t _ hmem) (by decide)

/-- A text that is written is one more line to read. -/
theorem requestLines_render {unread : List Char} (h : (drain unread).2 = [])
    (t : Document (List Point)) :
    requestLines false (unread ++ (render t ++ ['\n'])) = requestLines false unread ++ [render t] ∧
      (drain (unread ++ (render t ++ ['\n']))).2 = [] := by
  have hline : drain (render t ++ ['\n']) = ([render t], []) := by
    rw [drain_line (newline_not_mem_render t), drain_of_not_mem List.not_mem_nil]
  have hdrain : drain (unread ++ (render t ++ ['\n'])) = ((drain unread).1 ++ [render t], []) := by
    rw [drain_append, h, List.nil_append, hline]
  refine ⟨?_, by rw [hdrain]⟩
  rw [requestLines, requestLines, allLines, allLines, hdrain]
  simp [dropCarriage_render, isBlankLine_render]

/-! ### Sessions -/

/-- A client and its connection.  `calls` is what has been called, with the ids, and `heard` how many
    of the connection's answers have come to `#handle`. -/
structure Session where
  client : BrokerClient
  calls : List (Nat × Call)
  conn : Connection
  heard : Nat

inductive Happening where
  | call (call : Call)
  /-- Something happens at the broker. -/
  | turn (turn : Turn)
  /-- The next answer arrives. -/
  | hear

/-- The stream goes on. -/
def arrive (conn : Connection) (more : List Char) : Connection :=
  { conn with unread := conn.unread ++ more }

namespace Session

section Step

variable (sha256 : List Char → String) (float : Literal → Option FloatText)
  (describe : List Char → String) (rounded : Literal → Option Nat) (c : Nat)

/-- A client that has just connected. -/
def start (broker : Broker) : Session :=
  { client := { nextId := 1, pending := .empty, settled := [] }, calls := [],
    conn := { unread := [], ended := false, read := [], broker }, heard := 0 }

/-- One happening; `none` if it cannot happen now. -/
def step (s : Session) : Happening → Option Session
  | .call call =>
    let (client, line) := s.client.call s.calls.length call
    some { s with client, calls := s.calls ++ [(s.client.nextId, call)], conn := arrive s.conn line }
  | .turn turn => (s.conn.step sha256 float describe c turn).map fun conn => { s with conn }
  | .hear =>
    match (s.conn.broker.answers c)[s.heard]? with
    | none => none
    | some response =>
      (s.client.handle rounded response.encode).map fun client =>
        { s with client, heard := s.heard + 1 }

end Step

/-- A call that the broker can read, under an id that is not in use. -/
def Sends (s : Session) : Happening → Prop
  | .call call => call.isWellFormed = true ∧ s.client.pending.get s.client.nextId = none
  | _ => True

end Session

section Sessions

variable {sha256 : List Char → String} {float : Literal → Option FloatText}
  {describe : List Char → String} {rounded : Literal → Option Nat} {c : Nat} {s s' : Session}

/-- The answers that have been heard are the outcomes of the first calls, one each; the other calls are
    pending. -/
structure Settling (float : Literal → Option FloatText) (describe : List Char → String) (c : Nat)
    (s : Session) : Prop where
  loop : Loop float describe c [] (s.calls.map fun m => JSON.stringify (m.2.message m.1)) s.conn
  ended : s.conn.ended = false
  whole : (drain s.conn.unread).2 = []
  nextId : s.client.nextId = min (s.calls.length + 1) (2 ^ 53)
  ids : ∀ i m, s.calls[i]? = some m → m.1 = min (i + 1) (2 ^ 53)
  wellFormed : ∀ m ∈ s.calls, m.2.isWellFormed = true
  heard : s.heard ≤ (s.conn.broker.answers c).length
  settled : s.client.settled =
    ((s.conn.broker.answers c).take s.heard).mapIdx fun i r => (i, responseOutcome r)
  pending : ∀ id promise, (id, promise) ∈ s.client.pending.entries ↔
    s.heard ≤ promise ∧ (s.calls[promise]?).map Prod.fst = some id

namespace Settling

theorem start {broker : Broker} (hheld : broker.LockHeld) (hidle : broker.tasks c = .idle)
    (hfresh : broker.answers c = []) : Settling float describe c (Session.start broker) where
  loop := by
    have hnone : requestLines false [] = [] := by
      rw [requestLines, allLines_of_not_mem false List.not_mem_nil]
      rfl
    have hloop : Loop float describe c _ _ _ := Loop.start hheld hidle [] false
    rw [hfresh, hnone] at hloop
    exact hloop
  ended := rfl
  whole := by
    rw [show (Session.start broker).conn.unread = [] from rfl, drain_of_not_mem List.not_mem_nil]
  nextId := rfl
  ids i m h := absurd h (by simp [Session.start])
  wellFormed := by simp [Session.start]
  heard := Nat.zero_le _
  settled := rfl
  pending := by
    intro id promise
    constructor
    · intro h
      exact absurd h List.not_mem_nil
    · intro h
      exact absurd h.2 (by simp [Session.start])

theorem ids_le (h : Settling float describe c s) {m : Nat × Call} (hm : m ∈ s.calls) :
    m.1 ≤ 2 ^ 53 := by
  obtain ⟨i, hi⟩ := List.mem_iff_getElem?.mp hm
  rw [h.ids i m hi]
  exact Nat.min_le_right ..

/-- **The answers have the ids of the calls, in the order of the calls.** -/
theorem ids_prefix (h : Settling float describe c s) :
    (s.conn.broker.answers c).map (·.id) <+: s.calls.map fun m => idValue m.1 := by
  obtain ⟨responses, hanswers, hids, -⟩ := h.loop.answered
  have hlines : s.conn.read.map (fun line => lineId (readLine float describe line)) <+:
      s.calls.map fun m => idValue m.1 := by
    have hcalls : (s.calls.map fun m => idValue m.1) = (s.conn.read ++ s.conn.requests).map
        fun line => lineId (readLine float describe line) := by
      rw [h.loop.lines, List.map_map]
      refine List.map_congr_left fun m hm => ?_
      show _ = lineId (readLine float describe (JSON.stringify (m.2.message m.1)))
      rw [lineId_message (h.wellFormed m hm) (h.ids_le hm)]
    rw [hcalls, List.map_append]
    exact List.prefix_append _ _
  rw [hanswers, List.nil_append]
  rw [← hids] at hlines
  exact (List.prefix_append _ _).trans hlines

/-- A call is one more line to read. -/
theorem loop_arrive (h : Settling float describe c s) (id : Nat) (call : Call) :
    Loop float describe c []
      ((s.calls ++ [(id, call)]).map fun m => JSON.stringify (m.2.message m.1))
      (arrive s.conn (JSON.stringify (call.message id) ++ ['\n'])) ∧
    (drain (arrive s.conn (JSON.stringify (call.message id) ++ ['\n'])).unread).2 = [] := by
  obtain ⟨hlines, hwhole⟩ := requestLines_render h.whole ((call.message id).map points)
  have hrequests : (arrive s.conn (JSON.stringify (call.message id) ++ ['\n'])).requests =
      s.conn.requests ++ [JSON.stringify (call.message id)] := by
    rw [Connection.requests, Connection.requests, h.ended]
    show requestLines s.conn.ended _ = _
    rw [h.ended]
    exact hlines
  refine ⟨⟨?_, h.loop.held, ?_, h.loop.answered, h.loop.touches⟩, hwhole⟩
  · show s.conn.read ++ _ = _
    rw [hrequests, ← List.append_assoc, h.loop.lines, List.map_append]
    rfl
  · rcases h.loop.working with hidle | hworks | ⟨hended, -⟩
    · exact .inl hidle
    · exact .inr (.inl hworks)
    · rw [h.ended] at hended
      exact absurd hended (by simp)

theorem heard_le_calls (h : Settling float describe c s) : s.heard ≤ s.calls.length := by
  have hprefix := h.ids_prefix.length_le
  rw [List.length_map, List.length_map] at hprefix
  exact h.heard.trans hprefix

/-- A further call has the next id. -/
theorem ids_call (h : Settling float describe c s) (call : Call) {i : Nat} {m : Nat × Call}
    (hm : (s.calls ++ [(s.client.nextId, call)])[i]? = some m) : m.1 = min (i + 1) (2 ^ 53) := by
  rcases Nat.lt_or_ge i s.calls.length with hlt | hge
  · rw [List.getElem?_append_left hlt] at hm
    exact h.ids i m hm
  · rw [List.getElem?_append_right hge, List.getElem?_singleton] at hm
    split at hm
    · obtain rfl := Option.some.inj hm
      rw [show i = s.calls.length by omega]
      exact h.nextId
    · exact absurd hm (by simp)

/-- A further call is pending under an id that no other one has. -/
theorem pending_call (h : Settling float describe c s)
    (hfree : s.client.pending.get s.client.nextId = none) (call : Call) (id promise : Nat) :
    (id, promise) ∈ (s.client.pending.set s.client.nextId s.calls.length).entries ↔
      s.heard ≤ promise ∧
        ((s.calls ++ [(s.client.nextId, call)])[promise]?).map Prod.fst = some id := by
  have hheard := h.heard_le_calls
  have hnew : ∀ promise, s.heard ≤ promise ∧ (s.calls[promise]?).map Prod.fst = some id →
      id ≠ s.client.nextId := by
    rintro promise hmem rfl
    exact JsMap.get_eq_none.mp hfree promise ((h.pending _ promise).mpr hmem)
  rw [JsMap.mem_set, h.pending]
  rcases Nat.lt_trichotomy promise s.calls.length with hlt | rfl | hgt
  · -- an earlier call
    rw [List.getElem?_append_left hlt]
    constructor
    · rintro (⟨-, rfl⟩ | ⟨-, hmem⟩)
      · omega
      · exact hmem
    · exact fun hmem => .inr ⟨hnew promise hmem, hmem⟩
  · -- the call that was made
    rw [List.getElem?_concat_length]
    constructor
    · rintro (⟨rfl, -⟩ | ⟨-, -, hmem⟩)
      · exact ⟨hheard, rfl⟩
      · rw [List.getElem?_eq_none le_rfl] at hmem
        exact absurd hmem (by simp)
    · rintro ⟨-, hid⟩
      exact .inl ⟨(Option.some.inj hid).symm, rfl⟩
  · -- there is no later one
    have hlen : (s.calls ++ [(s.client.nextId, call)]).length ≤ promise := by
      rw [List.length_append, List.length_singleton]
      omega
    rw [List.getElem?_eq_none hlen, List.getElem?_eq_none hgt.le]
    constructor
    · rintro (⟨-, rfl⟩ | ⟨-, -, hmem⟩)
      · omega
      · exact absurd hmem (by simp)
    · exact fun hmem => absurd hmem.2 (by simp)

/-- A call is made. -/
theorem call (h : Settling float describe c s) {call : Call}
    (hs : s.step sha256 float describe rounded c (.call call) = some s')
    (hsends : s.Sends (.call call)) : Settling float describe c s' := by
  obtain ⟨hwell, hfree⟩ := hsends
  obtain rfl := Option.some.inj hs
  obtain ⟨hloop, hwhole⟩ := h.loop_arrive s.client.nextId call
  constructor
  case loop => exact hloop
  case ended => exact h.ended
  case whole => exact hwhole
  case nextId =>
    show increment s.client.nextId = min ((s.calls ++ [(s.client.nextId, call)]).length + 1) (2 ^ 53)
    rw [increment, h.nextId, List.length_append, List.length_singleton]
    split <;> omega
  case ids => exact fun i m hm => h.ids_call call hm
  case wellFormed =>
    intro m hm
    rcases List.mem_append.mp hm with hm | hm
    · exact h.wellFormed m hm
    · rw [List.mem_singleton.mp hm]
      exact hwell
  case heard => exact h.heard
  case settled => exact h.settled
  case pending => exact h.pending_call hfree call

/-- Something happens at the broker. -/
theorem turn (h : Settling float describe c s) {turn : Turn}
    (hs : s.step sha256 float describe rounded c (.turn turn) = some s') :
    Settling float describe c s' := by
  obtain ⟨conn, hconn, rfl⟩ := Option.map_eq_some_iff.mp hs
  obtain ⟨more, hmore⟩ := answers_of_step hconn
  obtain ⟨hended, hunread⟩ := unread_of_step hconn
  refine ⟨h.loop.step hconn, hended.trans h.ended, ?_, h.nextId, h.ids, h.wellFormed, ?_, ?_, h.pending⟩
  · rcases hunread with hunread | ⟨line, hnext⟩
    · show (drain conn.unread).2 = []
      rw [hunread]
      exact h.whole
    · rw [h.ended] at hnext
      exact (drain_of_nextLine hnext).trans h.whole
  · show s.heard ≤ (conn.broker.answers c).length
    rw [hmore, List.length_append]
    exact h.heard.trans (Nat.le_add_right ..)
  · show s.client.settled = ((conn.broker.answers c).take s.heard).mapIdx _
    rw [hmore, List.take_append_of_le_length h.heard]
    exact h.settled

/-- An answer is heard. -/
theorem hear (h : Settling float describe c s) (rounded : Literal → Option Nat) {response : Response}
    (hresponse : (s.conn.broker.answers c)[s.heard]? = some response) :
    ∃ client, s.client.handle rounded response.encode = some client ∧
      Settling float describe c { s with client, heard := s.heard + 1 } := by
  obtain ⟨hlt, -⟩ := List.getElem?_eq_some_iff.mp hresponse
  -- the answer is to the first call that is pending
  obtain ⟨m, hm, hid⟩ : ∃ m, s.calls[s.heard]? = some m ∧ idValue m.1 = response.id := by
    obtain ⟨rest, hrest⟩ := h.ids_prefix
    have hat : (s.calls.map fun m => idValue m.1)[s.heard]? = some response.id := by
      rw [← hrest, List.getElem?_append_left (by rw [List.length_map]; exact hlt), List.getElem?_map,
        hresponse, Option.map_some]
    rw [List.getElem?_map] at hat
    exact Option.map_eq_some_iff.mp hat
  have hpending : (m.1, s.heard) ∈ s.client.pending.entries :=
    (h.pending _ _).mpr ⟨le_rfl, by rw [hm]; rfl⟩
  refine ⟨_, handle_encode hid.symm (h.ids_le (List.mem_of_getElem? hm))
    (JsMap.get_eq_some.mpr hpending), h.loop, h.ended, h.whole, h.nextId, h.ids, h.wellFormed, hlt,
    ?_, ?_⟩
  · show s.client.settled ++ [(s.heard, responseOutcome response)] = _
    rw [List.take_add_one, hresponse, Option.toList_some, List.mapIdx_concat, ← h.settled,
      List.length_take, Nat.min_eq_left h.heard]
  · intro id promise
    show (id, promise) ∈ (s.client.pending.delete m.1).entries ↔
      s.heard + 1 ≤ promise ∧ (s.calls[promise]?).map Prod.fst = some id
    rw [JsMap.mem_delete, h.pending]
    constructor
    · rintro ⟨hne, hle, hcall⟩
      refine ⟨Nat.lt_of_le_of_ne hle ?_, hcall⟩
      rintro rfl
      rw [hm] at hcall
      exact hne (Option.some.inj hcall).symm
    · rintro ⟨hle, hcall⟩
      refine ⟨?_, Nat.le_of_succ_le hle, hcall⟩
      rintro rfl
      have hmem : (m.1, promise) ∈ s.client.pending.entries :=
        (h.pending _ _).mpr ⟨Nat.le_of_succ_le hle, hcall⟩
      have := JsMap.eq_of_mem hmem hpending
      omega

/-- **Every happening keeps the promises in step with the answers.** -/
theorem step (h : Settling float describe c s) {happening : Happening}
    (hs : s.step sha256 float describe rounded c happening = some s') (hsends : s.Sends happening) :
    Settling float describe c s' := by
  cases happening with
  | call call => exact h.call hs hsends
  | turn turn => exact h.turn hs
  | hear =>
    simp only [Session.step] at hs
    split at hs
    · exact absurd hs (by simp)
    · rename_i response hresponse
      obtain ⟨client, hclient, hafter⟩ := h.hear rounded hresponse
      rw [hclient] at hs
      obtain rfl := Option.some.inj hs
      exact hafter

/-- The first `2 ^ 53` calls have ids of their own. -/
theorem get_nextId (h : Settling float describe c s) (hlt : s.calls.length < 2 ^ 53) :
    s.client.pending.get s.client.nextId = none := by
  refine JsMap.get_eq_none.mpr fun promise hmem => ?_
  obtain ⟨-, hcall⟩ := (h.pending _ _).mp hmem
  obtain ⟨m, hm, hid⟩ := Option.map_eq_some_iff.mp hcall
  have hindex := (List.getElem?_eq_some_iff.mp hm).1
  have hnext := h.nextId
  have := h.ids promise m hm
  omega

/-- Once all lines are answered and all answers heard, nothing is pending. -/
theorem pending_of_done (h : Settling float describe c s) (hdone : s.conn.Done c) :
    (s.conn.broker.answers c).length = s.calls.length ∧
      (s.heard = s.calls.length → s.client.pending.entries = []) := by
  obtain ⟨responses, hanswers, hids, -⟩ := h.loop.answered
  have hread := h.loop.lines
  rw [hdone.1, List.append_nil] at hread
  rw [hdone.2, Option.toList_none, List.append_nil, hread, List.map_map] at hids
  refine ⟨?_, fun hheard => List.eq_nil_iff_forall_not_mem.mpr ?_⟩
  · have hlength := congrArg List.length hids
    rw [List.length_map, List.length_map] at hlength
    rw [hanswers, List.nil_append, hlength]
  · rintro ⟨id, promise⟩ hmem
    obtain ⟨hle, hcall⟩ := (h.pending id promise).mp hmem
    rw [List.getElem?_eq_none (hheard ▸ hle)] at hcall
    exact absurd hcall (by simp)

end Settling

/-! ### Runs -/

section Runs

variable (sha256 float describe rounded c)

/-- The calls, the broker's work and the arrival of the answers, in any order. -/
def Session.Runs : Session → List Happening → Session → Prop :=
  Transition.Run fun s happening s' =>
    s.step sha256 float describe rounded c happening = some s' ∧ s.Sends happening

end Runs

namespace Settling

theorem run (h : Settling float describe c s) {happenings : List Happening}
    (hrun : Session.Runs sha256 float describe rounded c s happenings s') :
    Settling float describe c s' :=
  hrun.invariant h fun _ _ _ h hs => h.step hs.1 hs.2

/-- What happens at the broker happens in the session. -/
theorem runs_of_turns {conn : Connection} {turns : List Turn}
    (h : Connection.Runs sha256 float describe c s.conn turns conn) :
    Session.Runs sha256 float describe rounded c s (turns.map .turn) { s with conn } := by
  induction h with
  | start => exact .start
  | snoc _ hs ih =>
    rw [List.map_append]
    refine .snoc ih ⟨?_, trivial⟩
    show Option.map _ _ = _
    rw [hs]
    rfl

/-- All answers can be heard. -/
theorem exists_heard (h : Settling float describe c s) : ∃ happenings client,
    Session.Runs sha256 float describe rounded c s happenings
      { s with client, heard := (s.conn.broker.answers c).length } := by
  induction hn : (s.conn.broker.answers c).length - s.heard generalizing s with
  | zero =>
    have hheard : s.heard = (s.conn.broker.answers c).length := Nat.le_antisymm h.heard (by omega)
    refine ⟨[], s.client, ?_⟩
    rw [← hheard]
    exact .start
  | succ n ih =>
    have hlt : s.heard < (s.conn.broker.answers c).length := by omega
    have hresponse := List.getElem?_eq_getElem hlt
    obtain ⟨client, hclient, hafter⟩ := h.hear rounded hresponse
    have hs : s.step sha256 float describe rounded c .hear =
        some { s with client, heard := s.heard + 1 } := by
      simp only [Session.step, hresponse, hclient]
      rfl
    obtain ⟨happenings, client', hrun⟩ := ih hafter
      (by show (s.conn.broker.answers c).length - (s.heard + 1) = n; omega)
    have hsends : s.Sends .hear := trivial
    exact ⟨[.hear] ++ happenings, client',
      Transition.Run.append (.snoc .start ⟨hs, hsends⟩) hrun⟩

/-- **Whatever has happened so far, the calls made can all be settled.** -/
theorem exists_settled (h : Settling float describe c s) : ∃ happenings s',
    Session.Runs sha256 float describe rounded c s happenings s' ∧ s'.calls = s.calls ∧
      s'.client.pending.entries = [] := by
  obtain ⟨turns, conn, hturns, hdone⟩ : ∃ turns conn,
      Connection.Runs sha256 float describe c s.conn turns conn ∧ conn.Done c := h.loop.exists_done
  have hrun₁ : Session.Runs sha256 float describe rounded c s _ _ := runs_of_turns hturns
  have h₁ := h.run hrun₁
  obtain ⟨happenings, client, hrun₂⟩ := @exists_heard sha256 float describe rounded c _ h₁
  have h₂ := h₁.run hrun₂
  obtain ⟨hlength, hpending⟩ := h₂.pending_of_done hdone
  exact ⟨_, _, hrun₁.append hrun₂, rfl, hpending hlength⟩

end Settling

/-- **Every call is settled, exactly once and with its own response.** -/
theorem every_call_settled (disk : Disk) (now brokerPid nextGrant : Nat) (available : Bool)
    (clientPid : Nat → Option Nat) (events : List Event) (r : Recorded)
    (hreached : Recorded.Reached sha256 (.new disk now brokerPid nextGrant available clientPid)
      events r)
    (hidle : r.broker.tasks c = .idle) (hfresh : r.broker.answers c = [])
    (happenings : List Happening) (s : Session)
    (hrun : Session.Runs sha256 float describe rounded c (.start r.broker) happenings s) :
    (s.conn.broker.answers c).map (·.id) <+: s.calls.map (fun m => idValue m.1) ∧
    s.client.settled =
      ((s.conn.broker.answers c).take s.heard).mapIdx (fun i r => (i, responseOutcome r)) ∧
    (∀ id promise, s.client.pending.get id = some promise ↔
      s.heard ≤ promise ∧ (s.calls[promise]?).map Prod.fst = some id) ∧
    (s.conn.Done c → (s.conn.broker.answers c).length = s.calls.length ∧
      (s.heard = s.calls.length → s.client.pending.entries = [])) ∧
    ∃ more s', Session.Runs sha256 float describe rounded c s more s' ∧ s'.calls = s.calls ∧
      s'.client.pending.entries = [] := by
  have h : Settling float describe c s :=
    (Settling.start (lockHeld_of_reached hreached) hidle hfresh).run hrun
  refine ⟨h.ids_prefix, h.settled, fun id promise => ?_, h.pending_of_done, h.exists_settled⟩
  rw [JsMap.get_eq_some]
  exact h.pending id promise

/-- **A call with an unpaired surrogate is answered without its id, and stays pending.** -/
theorem unpaired_pending {broker : Broker} (hidle : broker.tasks c = .idle)
    (hfresh : broker.answers c = []) {call : Call} (hcall : call.isWellFormed = false) :
    ∃ s, Transition.Run (fun s happening s' =>
        s.step sha256 float describe rounded c happening = some s') (Session.start broker)
        [.call call, .turn (.next Broker.someRegistry), .hear] s ∧
      s.conn.Done c ∧ (s.conn.broker.answers c).map (·.id) = [nullId] ∧
      s.heard = (s.conn.broker.answers c).length ∧ s.client.pending.get 1 = some 0 := by
  have hread := readLine_message float describe call (show 1 ≤ 2 ^ 53 by omega)
  rw [hcall, if_neg (by simp)] at hread
  -- the line is read and refused
  have hnext : nextLine false ([] ++ (JSON.stringify (call.message 1) ++ ['\n'])) =
      some (JSON.stringify (call.message 1), []) := by
    rw [List.nil_append, JSON.stringify, nextLine_line false (newline_not_mem_render _),
      dropCarriage_render]
  have hblank : isBlankLine (JSON.stringify (call.message 1)) = false := isBlankLine_render _
  let response : Response :=
    .err nullId parseError (describe (JSON.stringify (call.message 1)))
  have hreceive : broker.step sha256
      (.receive c (readLine float describe (JSON.stringify (call.message 1))) Broker.someRegistry) =
        some (broker.respond c response) := by
    rw [hread]
    simp only [Broker.step, hidle]
    rfl
  have hanswers : (broker.respond c response).answers c = [response] := by
    rw [Broker.answers_respond_self, hfresh, List.nil_append]
  let called : Session :=
    { client := ((Session.start broker).client.call 0 call).1, calls := [(1, call)],
      conn := arrive (Session.start broker).conn (JSON.stringify (call.message 1) ++ ['\n']), heard := 0 }
  let refused : Session := { called with
    conn := { unread := [], ended := false, read := [JSON.stringify (call.message 1)],
              broker := broker.respond c response } }
  have hcalled : (Session.start broker).step sha256 float describe rounded c (.call call) =
      some called := rfl
  have hrefused : called.step sha256 float describe rounded c (.turn (.next Broker.someRegistry)) =
      some refused := by
    have hstep : called.conn.step sha256 float describe c (.next Broker.someRegistry) =
        some refused.conn := by
      have hconn : called.conn = { unread := [] ++ (JSON.stringify (call.message 1) ++ ['\n']),
                                   ended := false, read := [], broker } := rfl
      simp only [hconn, Connection.step, hidle, hnext, hblank, hreceive]
      rfl
    show Option.map _ _ = _
    rw [hstep]
    rfl
  have hheard : refused.step sha256 float describe rounded c .hear =
      some { refused with heard := 1 } := by
    have hfirst : (refused.conn.broker.answers c)[refused.heard]? = some response := by
      show ((broker.respond c response).answers c)[0]? = _
      rw [hanswers]
      rfl
    simp only [Session.step, hfirst, handle_encode_null (show response.id = nullId from rfl)]
    rfl
  refine ⟨_, .snoc (.snoc (.snoc .start hcalled) hrefused) hheard, ⟨?_, ?_⟩, ?_, ?_, rfl⟩
  · show requestLines false [] = []
    rw [requestLines, allLines_of_not_mem false List.not_mem_nil]
    rfl
  · show ((broker.respond c response).tasks c).request = none
    rw [Broker.respond]
    exact congrArg Task.request (Broker.tasks_setTask_self ..)
  · show ((broker.respond c response).answers c).map (·.id) = _
    rw [hanswers]
    rfl
  · show 1 = ((broker.respond c response).answers c).length
    rw [hanswers]
    rfl

end Sessions

/-- A call with a character outside ASCII. -/
def accentedCall : Call := ⟨ofChars ['x'], [(ofChars ['n'], .string (ofChars ['é']))], by decide⟩

/-- Another one, with a flag. -/
def flaggedCall : Call := ⟨ofChars ['y'], [(ofChars ['n'], .bool true)], by decide⟩

/-- They are made without waiting, and both are settled. -/
theorem every_call_settled_accented : ∃ happenings s,
    Session.Runs (fun _ => "") (fun _ => none) (fun _ => "") (fun _ => none) 0
      (.start (Recorded.new ⟨none, none⟩ 0 0 0 false fun _ => none).broker) happenings s ∧
    s.calls = [(1, accentedCall), (2, flaggedCall)] ∧ s.client.pending.entries = [] := by
  have hrun : Session.Runs (fun _ => "") (fun _ => none) (fun _ => "") (fun _ => none) 0
      (.start (Recorded.new ⟨none, none⟩ 0 0 0 false fun _ => none).broker)
      ([] ++ [.call accentedCall] ++ [.call flaggedCall]) _ :=
    .snoc (.snoc .start ⟨rfl, by decide, rfl⟩) ⟨rfl, by decide, rfl⟩
  obtain ⟨-, -, -, -, more, s', hmore, hcalls, hpending⟩ := every_call_settled ⟨none, none⟩ 0 0 0
    false (fun _ => none) [] _ .start rfl rfl _ _ hrun
  exact ⟨_, s', hrun.append hmore, hcalls, hpending⟩

/-- A call with the string `"\ud800"`. -/
def unpairedCall : Call := ⟨ofChars ['x'], [(ofChars ['n'], .string [0xD800])], by decide⟩

/-- The broker has answered all lines and all answers have been heard, and its promise is pending. -/
theorem call_never_settled : ∃ s,
    Transition.Run (fun s happening s' =>
        s.step (fun _ => "") (fun _ => none) (fun _ => "") (fun _ => none) 0 happening = some s')
      (Session.start (Recorded.new ⟨none, none⟩ 0 0 0 false fun _ => none).broker)
      [.call unpairedCall, .turn (.next Broker.someRegistry), .hear] s ∧
    s.conn.Done 0 ∧ (s.conn.broker.answers 0).map (·.id) = [nullId] ∧
    s.heard = (s.conn.broker.answers 0).length ∧ s.client.pending.get 1 = some 0 :=
  unpaired_pending rfl rfl (by decide)

end McpLocator.Client
