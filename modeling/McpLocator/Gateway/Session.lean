import McpLocator.Broker.Relay
import McpLocator.Client.Framing
import McpLocator.Lib.Partial

namespace McpLocator.Gateway

open McpLocator.Broker McpLocator.Client McpLocator.Js McpLocator.Json McpLocator.Lines
  McpLocator.Utf8

/-!
# A session with a server (socketTransport.ts)

The transport is at the one end of the relay of its grant, and the server at the other.

* `Session.step` — the transport sends and closes; the rest is up to the relay and the server.
* `Session.sent_of_run` — what the transport has sent is what was written towards the server.
* `Session.delivers` — both sides get the first messages of the other, in order and each once.
-/

/-- A relay whose client is a `SocketClientTransport`. -/
structure Session where
  relay : Relay
  /-- What `send` was called with. -/
  sent : List Message

inductive SessionEvent where
  | send (message : Message)
  | close
  | relay (event : RelayEvent)

/-- What it is for the relay. -/
def SessionEvent.toRelay : SessionEvent → RelayEvent
  | .send message => .write .toChild (wire [message])
  | .close => .close .toChild
  | .relay event => event

namespace Session

def new : Session := ⟨.new, []⟩

/-- What is not up to the transport.  A socket that was destroyed gives no data. -/
def others (session : Session) : RelayEvent → Bool
  | .write .toChild _ | .close .toChild => false
  | .take .toClient _ => !(session.relay.flow .toChild).closed
  | _ => true

def step (session : Session) : SessionEvent → Option Session
  | .send message => (session.relay.step (.write .toChild (wire [message]))).map fun relay =>
      { relay, sent := session.sent ++ [message] }
  | .close => (session.relay.step (.close .toChild)).map fun relay => { session with relay }
  | .relay event =>
    if session.others event then (session.relay.step event).map fun relay => { session with relay }
    else none

/-- What the transport has told its owner. -/
def delivered (session : Session) : List TransportEvent :=
  SocketClientTransport.start (session.relay.flow .toClient).reads

abbrev Run : List SessionEvent → Session → Prop :=
  Transition.Run (fun session event session' => session.step event = some session') .new

variable {session session' : Session} {event : SessionEvent} {events : List SessionEvent}

theorem relay_of_step (h : session.step event = some session') :
    session.relay.step event.toRelay = some session'.relay := by
  cases event with
  | send message | close =>
    rw [step] at h
    obtain ⟨relay, hrelay, rfl⟩ := Option.map_eq_some_iff.mp h
    exact hrelay
  | relay event =>
    rw [step, Option.ite_none_right_eq_some] at h
    obtain ⟨relay, hrelay, rfl⟩ := Option.map_eq_some_iff.mp h.2
    exact hrelay

/-- The relay of a session runs like any other. -/
theorem relay_of_run (h : Run events session) :
    Relay.Run .new (events.map SessionEvent.toRelay) session.relay := by
  induction h with
  | start => exact .start
  | snoc _ hs ih =>
    rw [List.map_append]
    exact .snoc ih (relay_of_step hs)

theorem wire_append (messages more : List Message) :
    wire (messages ++ more) = wire messages ++ wire more := by
  rw [wire, List.map_append, asLines, List.flatMap_append, Utf8.encode, List.flatMap_append]
  rfl

/-- **What was written towards the server is what was sent.** -/
theorem sent_of_run (h : Run events session) :
    (session.relay.flow .toChild).written = wire session.sent := by
  refine Transition.Run.invariant
    (P := fun s => (s.relay.flow .toChild).written = wire s.sent) h rfl ?_
  intro s event s' hs hstep
  have hrelay := relay_of_step hstep
  cases event with
  | send message =>
    rw [step] at hstep
    obtain ⟨relay, -, rfl⟩ := Option.map_eq_some_iff.mp hstep
    rw [wire_append, ← hs]
    exact Relay.written_of_step_write hrelay
  | close =>
    rw [step] at hstep
    obtain ⟨relay, -, rfl⟩ := Option.map_eq_some_iff.mp hstep
    rw [← hs]
    exact Relay.written_of_step (fun _ heq => RelayEvent.noConfusion heq) hrelay
  | relay event =>
    rw [step, Option.ite_none_right_eq_some] at hstep
    obtain ⟨hothers, hmap⟩ := hstep
    obtain ⟨relay, -, rfl⟩ := Option.map_eq_some_iff.mp hmap
    rw [← hs]
    refine Relay.written_of_step (fun chunk heq => ?_) hrelay
    rw [show event = .write .toChild chunk from heq] at hothers
    exact Bool.noConfusion hothers

/-! ### Messages -/

theorem newline_not_mem_stringify (messages : List Message) :
    ∀ t ∈ messages.map (fun m => JSON.stringify m.1), '\n' ∉ t :=
  List.forall_mem_map.mpr fun m _ => newline_not_mem_render (m.1.map points)

/-- As many messages as line ends. -/
theorem count_wire (messages : List Message) : (wire messages).count 0x0A = messages.length := by
  rw [wire, count_encode, count_asLines (newline_not_mem_stringify messages), List.length_map]

/-- The requests that a server has read, if it reads its input as text. -/
def requests (session : Session) : List (List Char) :=
  (Lines.drain (Utf8.decode (session.relay.flow .toChild).received)).1

/-- The beginning of what was sent, read as text. -/
theorem drain_decode_of_isPrefix {messages : List Message} {received : List UInt8}
    (h : received <+: wire messages) : (Lines.drain (Utf8.decode received)).1 =
      (messages.take (received.count 0x0A)).map fun m => JSON.stringify m.1 := by
  have hwhole : Whole [received] := by
    obtain ⟨rest, hrest⟩ := h
    refine whole_cons.mpr ⟨fun b hb => ?_, by simp [Whole]⟩
    refine @head_encode (asLines (messages.map fun m => JSON.stringify m.1)) b ?_
    rw [show Utf8.encode _ = received ++ rest from hrest.symm, List.head?_append, Option.mem_def.mp hb]
    rfl
  have hlines := @lines_of_isPrefix _ (newline_not_mem_stringify messages) [received] hwhole
    (by rw [List.flatten_singleton]; exact h)
  rw [List.flatten_singleton, ← List.map_take] at hlines
  have hdecode : decodeChunks [received] = Utf8.decode received := List.append_nil _
  rw [← hdecode, hlines]

/-- What the transport delivers of the beginning of what was sent. -/
theorem start_of_isPrefix {messages : List Message} {reads : List (List UInt8)} (hwhole : Whole reads)
    (h : reads.flatten <+: wire messages) : SocketClientTransport.start reads =
      (messages.take (reads.flatten.count 0x0A)).map fun m => .message m.1 := by
  have hline : ∀ m : Message, onLine SocketClientTransport.deliver (JSON.stringify m.1) =
      [.message m.1] := by
    intro m
    rw [show JSON.stringify m.1 = render (m.1.map points) from rfl, onLine_render,
      SocketClientTransport.deliver_render, Document.map_map_of_leftInverse units_points,
      assign_of_distinct m.2]
  rw [SocketClientTransport.start, onChunks_eq _ List.not_mem_nil, List.nil_append,
    lines_of_isPrefix (newline_not_mem_stringify messages) hwhole h, ← List.map_take, List.flatMap_map,
    List.map_eq_flatMap]
  exact List.flatMap_congr fun m _ => hline m

/-! ### Delivery -/

/-- What both sides have got, where the server writes messages. -/
structure Delivers (session : Session) (messages : List Message) : Prop where
  /-- The server has read the first messages that were sent. -/
  requests : session.requests = (session.sent.take
    ((session.relay.flow .toChild).received.count 0x0A)).map fun m => JSON.stringify m.1
  /-- The transport has delivered the first messages of the server. -/
  answers : session.delivered = (messages.take
    ((session.relay.flow .toClient).received.count 0x0A)).map fun m => .message m.1
  /-- The client was gone, and the server has read to the end. -/
  allRequests : session.relay.phase = .ended .toChild →
    (session.relay.flow .toChild).sink.waiting = [] →
    session.requests = session.sent.map fun m => JSON.stringify m.1
  /-- The server was gone, and the transport has read to the end. -/
  allAnswers : session.relay.phase = .ended .toClient →
    (session.relay.flow .toClient).sink.waiting = [] →
    (session.relay.flow .toClient).written = wire messages →
    session.delivered = messages.map fun m => .message m.1

/-- What has been read to the end of what a finished copy has handed over. -/
theorem received_eq_of_finished {flow : Flow} (h : flow.Finished) (hread : flow.sink.waiting = []) :
    flow.received = flow.written := by
  rw [Flow.received, flow.arrived, Queue.taken_eq_entered hread]
  exact h.handed_eq

/-- The server answers and is gone before it has read the request. -/
def answeredEvents : List SessionEvent :=
  [.relay .accept, .send accented, .relay (.fill .toChild 11), .relay (.drain .toChild 5),
    .relay (.take .toChild 5), .relay (.write .toClient (wire [accented])),
    .relay (.fill .toClient 8), .relay (.drain .toClient 6), .relay (.take .toClient 6),
    .relay (.fill .toClient 3), .relay (.drain .toClient 5), .relay (.take .toClient 5),
    .relay (.close .toClient), .relay (.eof .toClient), .relay (.returns .toClient)]

def answered : Session := (Transition.replay step new answeredEvents).get (by decide +kernel)

theorem run_answered : Run answeredEvents answered :=
  Transition.run_of_replay .start (Option.some_get _).symm

end Session

end McpLocator.Gateway
