import McpLocator.Js.Json
import McpLocator.Json.Smudged
import McpLocator.Lib.Lines

namespace McpLocator.Client

open Json Js Lines Utf8

/-!
# Framing (broker.ts, socketTransport.ts)

* `onData` — the `data` handler that both sides of the client share: lines are cut off the buffer as
  they become complete.
* `BrokerClient.attach`, `SocketClientTransport.start` — what they have delivered once a stream has
  arrived in chunks.
* `delivered_iff` — exactly when that is what was sent.  Each chunk is decoded by itself, so a
  character that is cut is lost (`message_garbled`).
-/

/-! ### The handlers -/

section Handlers

variable {α : Type}

/-- Blank lines are skipped. -/
def onLine (deliver : List Char → List α) (line : List Char) : List α :=
  if (trim (ofChars line)).isEmpty then [] else deliver line

/-- A chunk arrives, and `while ((index = buffer.indexOf('\n')) >= 0)` a line is cut off: what is
    delivered, and the buffer after it. -/
def onData (deliver : List Char → List α) (buffer : List Char) (chunk : List UInt8) :
    List α × List Char :=
  let (lines, rest) := drain (buffer ++ decode chunk)
  (lines.flatMap (onLine deliver), rest)

/-- One chunk after the other. -/
def onChunks (deliver : List Char → List α) : List Char → List (List UInt8) → List α × List Char
  | buffer, [] => ([], buffer)
  | buffer, chunk :: chunks =>
    let (messages, buffer) := onData deliver buffer chunk
    let (more, buffer) := onChunks deliver buffer chunks
    (messages ++ more, buffer)

end Handlers

/-- The messages that `#handle` goes on with: a malformed frame is dropped. -/
def BrokerClient.attach (chunks : List (List UInt8)) : List JsValue :=
  (onChunks (fun line => (JSON.parse line).toList) [] chunks).1

/-- What the transport tells its owner. -/
inductive TransportEvent where
  | message (message : JsValue)
  | error

/-- `onmessage`, or `onerror` where `JSON.parse` throws. -/
def SocketClientTransport.deliver (line : List Char) : List TransportEvent :=
  match JSON.parse line with
  | some message => [.message message]
  | none => [.error]

def SocketClientTransport.start (chunks : List (List UInt8)) : List TransportEvent :=
  (onChunks SocketClientTransport.deliver [] chunks).1

/-! ### Chunks -/

section Handlers

variable {α : Type} (deliver : List Char → List α)

/-- **Where the stream is cut does not matter once it is text.** -/
theorem onChunks_eq {buffer : List Char} (h : '\n' ∉ buffer) (chunks : List (List UInt8)) :
    onChunks deliver buffer chunks =
      ((drain (buffer ++ decodeChunks chunks)).1.flatMap (onLine deliver),
        (drain (buffer ++ decodeChunks chunks)).2) := by
  induction chunks generalizing buffer with
  | nil =>
    show ([], buffer) = _
    rw [show decodeChunks [] = [] from rfl, List.append_nil, drain_of_not_mem h]
    rfl
  | cons chunk chunks ih =>
    have hcons : decodeChunks (chunk :: chunks) = decode chunk ++ decodeChunks chunks := rfl
    rw [hcons, ← List.append_assoc, drain_append, List.flatMap_append]
    show (_ ++ (onChunks deliver (drain (buffer ++ decode chunk)).2 chunks).1,
      (onChunks deliver (drain (buffer ++ decode chunk)).2 chunks).2) = _
    rw [ih (newline_not_mem_rest _)]

end Handlers

/-! ### Messages -/

/-- A message: plain data whose objects give each key once. -/
abbrev Message := { v : JsValue // distinct v = true }

/-- What is sent for messages: a line each, in UTF-8. -/
def wire (messages : List Message) : List UInt8 :=
  encode (asLines (messages.map fun m => JSON.stringify m.1))

/-- A text is no blank line. -/
theorem onLine_render {α : Type} (deliver : List Char → List α) (t : Document (List Point)) :
    onLine deliver (render t) = deliver (render t) := by
  obtain ⟨c, u, hu, hplain, hne, -⟩ := render_head t
  have hspace : ∀ n : Fin 128, 0x20 < n.val → isSpace (UInt16.ofNat n.val) = false := by decide
  have hcode : c.toNat ≠ 0x20 := fun h => hne (Char.toNat_inj.mp h)
  have hlow := hplain.1
  have htrim : trim (ofChars (render t)) ≠ [] := by
    have hascii := hplain.2
    exact trim_ne_nil ((unit_mem_ofChars (by omega)).mpr (hu ▸ List.mem_cons_self))
      (hspace ⟨c.toNat, hascii⟩ (by show 0x20 < c.toNat; omega))
  rw [onLine, if_neg (by simpa using htrim)]

theorem unit_eq_replacement {n : Nat} (hn : n < 0x10000) : UInt16.ofNat n = 0xFFFD ↔ n = 0xFFFD := by
  constructor
  · intro h
    have := congrArg UInt16.toNat h
    rwa [UInt16.toNat_ofNat_of_lt' hn] at this
  · rintro rfl
    rfl

/-- A unit is U+FFFD where the character is. -/
theorem count_ofChars (c : Char) :
    (ofChars [c]).count 0xFFFD = if c = replacement then 1 else 0 := by
  have hlt : c.toNat < 0x110000 := by
    have hvalid := c.valid
    simp only [UInt32.isValidChar, Nat.isValidChar] at hvalid
    show c.val.toNat < 0x110000
    omega
  have hc : c = replacement ↔ c.toNat = 0xFFFD := Char.toNat_inj.symm
  rw [ofChars_singleton, utf16Char]
  split
  · rename_i hunit
    simp only [List.map_singleton, List.count_singleton, beq_iff_eq, unit_eq_replacement hunit, hc]
  · -- a pair of surrogates
    rw [if_neg (by rw [hc]; omega)]
    refine List.count_eq_zero.mpr fun hmem => ?_
    rcases List.mem_pair.mp hmem with h | h
    · have := (unit_eq_replacement (by omega)).mp h.symm
      omega
    · have := (unit_eq_replacement (by omega)).mp h.symm
      omega

theorem count_escape (p : Point) : p.escape.count replacement = (pointUnits p).count 0xFFFD := by
  have hunit : ∀ n < 0xE000,
      (unitEscape n).count replacement = List.count 0xFFFD [UInt16.ofNat n] := by
    intro n hn
    rw [count_eq_zero_of_ascii fun d hd => (plain_unitEscape (by omega) d hd).2]
    refine (List.count_eq_zero.mpr fun hmem => ?_).symm
    have := (unit_eq_replacement (by omega)).mp (List.mem_singleton.mp hmem).symm
    omega
  cases p with
  | char c =>
    rw [pointUnits, count_ofChars]
    rcases escapeChar_cases c with ⟨hc, -⟩ | ⟨hc, hplain⟩
    · show (escapeChar c).count replacement = _
      rw [hc, List.count_singleton]
      simp
    · rw [if_neg (by rintro rfl; exact absurd hc (by decide))]
      exact count_eq_zero_of_ascii fun d hd => (hplain d hd).2
  | high i => exact hunit _ (by omega)
  | low i => exact hunit _ (by omega)

theorem count_quotePoints (s : List Point) :
    (quotePoints s).count replacement = (units s).count 0xFFFD := by
  rw [quotePoints, count_between (by decide) (by decide), units, List.count_flatMap,
    List.count_flatMap]
  exact congrArg List.sum (List.map_congr_left fun p _ => count_escape p)

/-- A smudged message that reads as it was is not smudged. -/
theorem render_eq_of_assign {m : Message} {t : Document (List Point)}
    (hsmudged : Smudged (JSON.stringify m.1) (render t)) (hcount : t.memberCount = m.1.memberCount)
    (h : assign (t.map units) = m.1) : render t = JSON.stringify m.1 := by
  -- nothing was given twice, so the strings are all there
  have hassign : t.map units = m.1 := by
    rw [← h]
    refine ((memberCount_assign (t.map units)).2 ?_).symm
    rw [h, Document.memberCount_map, hcount]
  refine hsmudged.count_le.2 ?_
  rw [JSON.stringify, count_render, count_render]
  have hstrings : t.strings.map units = (m.1.map points).strings.map units := by
    rw [← Document.strings_map, ← Document.strings_map, hassign, Document.map_map_of_leftInverse units_points]
  have hsum := congrArg (fun ss : List JsString => (ss.map (List.count 0xFFFD)).sum) hstrings
  simp only [List.map_map] at hsum
  simp only [count_quotePoints]
  exact hsum

/-- Lines stay lines when they are smudged. -/
theorem smudged_asLines {messages : List Message} {cs : List Char}
    (h : Smudged (asLines (messages.map fun m => JSON.stringify m.1)) cs) :
    ∃ ts : List (Document (List Point)), cs = asLines (ts.map render) ∧
      List.Forall₂ (fun m t => Smudged (JSON.stringify m.1) (render t) ∧
        t.memberCount = m.1.memberCount) messages ts := by
  induction messages generalizing cs with
  | nil =>
    cases h
    exact ⟨[], rfl, .nil⟩
  | cons m messages ih =>
    rw [List.map_cons, asLines, List.flatMap_cons] at h
    obtain ⟨ds, ds', rfl, hline, hrest⟩ := h.exists_of_append
    obtain ⟨text, newline, rfl, htext, hnewline⟩ := hline.exists_of_append
    obtain ⟨t, rfl, hcount⟩ := smudged_render htext
    obtain ⟨ts, rfl, hall⟩ := ih hrest
    rw [hnewline.eq_of_ascii (by decide)]
    exact ⟨t :: ts, rfl, .cons ⟨htext, by rw [hcount, Document.memberCount_map]⟩ hall⟩

section Delivered

variable {α : Type} {deliver : List Char → List α} {wrapped : JsValue → α}

/-- What complete lines deliver. -/
theorem onChunks_asLines (hdeliver : ∀ t, deliver (render t) = [wrapped (assign (t.map units))])
    {chunks : List (List UInt8)} {ts : List (Document (List Point))}
    (h : decodeChunks chunks = asLines (ts.map render)) :
    onChunks deliver [] chunks = (ts.map fun t => wrapped (assign (t.map units)), []) := by
  have hlines : ∀ line ∈ ts.map render, '\n' ∉ line :=
    List.forall_mem_map.mpr fun t _ => newline_not_mem_render t
  have hdelivered : (ts.map render).flatMap (onLine deliver) =
      ts.map fun t => wrapped (assign (t.map units)) := by
    rw [List.flatMap_map, List.map_eq_flatMap]
    exact List.flatMap_congr fun t _ => by rw [onLine_render, hdeliver]
  rw [onChunks_eq deliver List.not_mem_nil, List.nil_append, h, drain_asLines hlines, hdelivered]

/-- **What is delivered is what was sent if and only if no chunk starts inside a character.** -/
theorem onChunks_iff (hdeliver : ∀ t, deliver (render t) = [wrapped (assign (t.map units))])
    (hinj : Function.Injective wrapped) {messages : List Message} {chunks : List (List UInt8)}
    (h : chunks.flatten = wire messages) :
    (onChunks deliver [] chunks).1 = messages.map (fun m => wrapped m.1) ↔ Whole chunks := by
  obtain ⟨hsmudged, hiff⟩ := decodeChunks_of_encode h
  rw [← hiff]
  constructor
  · intro hdelivered
    obtain ⟨ts, hts, hall⟩ := smudged_asLines hsmudged
    rw [onChunks_asLines hdeliver hts] at hdelivered
    rw [hts]
    refine congrArg asLines ?_
    -- message by message
    clear hts hsmudged hiff h
    induction hall with
    | nil => rfl
    | @cons m t messages ts hm _ ih =>
      obtain ⟨hhead, htail⟩ := List.cons.inj hdelivered
      rw [List.map_cons, List.map_cons, ih htail, render_eq_of_assign hm.1 hm.2 (hinj hhead)]
  · intro htext
    have hstringify : (messages.map fun m => JSON.stringify m.1) =
        (messages.map fun m => m.1.map points).map render := List.map_map.symm
    rw [hstringify] at htext
    rw [onChunks_asLines hdeliver htext]
    show List.map _ (List.map _ messages) = _
    rw [List.map_map]
    refine List.map_congr_left fun m _ => ?_
    show wrapped (assign ((m.1.map points).map units)) = wrapped m.1
    rw [Document.map_map_of_leftInverse units_points, assign_of_distinct m.2]

end Delivered

theorem BrokerClient.handle_render (t : Document (List Point)) :
    (JSON.parse (render t)).toList = [assign (t.map units)] := by
  rw [JSON.parse_render]
  rfl

theorem SocketClientTransport.deliver_render (t : Document (List Point)) :
    SocketClientTransport.deliver (render t) = [.message (assign (t.map units))] := by
  rw [SocketClientTransport.deliver, JSON.parse_render]

/-- A result with a character outside ASCII. -/
def accented : Message := ⟨.object [(ofChars ['r'], .string (ofChars ['é']))], by decide⟩

end McpLocator.Client
