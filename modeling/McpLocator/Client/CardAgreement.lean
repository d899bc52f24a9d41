import McpLocator.Client.CardSchema

namespace McpLocator.Client

open McpLocator.Json McpLocator.Proto

/-!
# Where the broker and the client library accept the same cards

Each side accepts `CardRules` and rules of its own: the broker `TimeoutIsUnsigned`, the schema
`SchemaRules`.  `agree_iff` says that the two verdicts on a card coincide exactly when the card
already breaks a common rule, or keeps both sides' own rules, or breaks both.
-/

/-- The verdicts of the broker and of the schema on a card coincide. -/
def Agree (v : Value) : Prop :=
  (∃ card, validate v = .ok card) ↔ localServerCardV1.valid v = true

/-- **The two parsers agree on a card that keeps the common rules exactly when it keeps both
    sides' own rules or neither's.** -/
theorem agree_iff (v : JsonValue) :
    Agree v.1 ↔ (CardRules v.1 → (TimeoutIsUnsigned v.1 ↔ SchemaRules v.1)) := by
  rw [Agree, validate_isOk_iff_rules, valid_card_iff]
  constructor
  · intro h hrules
    constructor
    · exact fun ht => (h.mp ⟨hrules, ht⟩).2
    · exact fun hs => (h.mpr ⟨hrules, hs⟩).2
  · intro h
    constructor
    · exact fun ⟨hrules, ht⟩ => ⟨hrules, (h hrules).mp ht⟩
    · exact fun ⟨hrules, hs⟩ => ⟨hrules, (h hrules).mpr hs⟩

/-- A card whose launch stanza has a member that the schema does not list. -/
def cardWithUnknownMember : JsonValue :=
  ⟨.object [("description", .string "Notes"),
    ("local", .object [("launch", .object [("command", .string "notes"), ("type", .string "stdio"),
      ("user", .string "me")])]),
    ("name", .string "com.example.notes"), ("version", .string "1.0.0")], by decide⟩

/-- A card whose idle timeout is spelled `300.0`. -/
def cardWithFractionalTimeout : JsonValue :=
  ⟨.object [("description", .string "Notes"),
    ("local", .object [("launch", .object [("command", .string "notes"), ("type", .string "stdio")]),
      ("lifetime", .object [("idleTimeoutSeconds",
        .number (.float ⟨"300.0", by decide⟩))])]),
    ("name", .string "com.example.notes"), ("version", .string "1.0.0")], by decide⟩

/-- The broker accepts the first card and the schema refuses it; on the second it is the other way
    round. -/
theorem not_agree : ¬Agree cardWithUnknownMember.1 ∧ ¬Agree cardWithFractionalTimeout.1 := by
  constructor
  · intro h
    have hschema : localServerCardV1.valid cardWithUnknownMember.1 = false := by decide
    have := h.mp ⟨_, rfl⟩
    rw [hschema] at this
    exact Bool.false_ne_true this
  · intro h
    have hschema : localServerCardV1.valid cardWithFractionalTimeout.1 = true := by decide
    have hrefused : validate cardWithFractionalTimeout.1 = .error .notDeserializable := rfl
    obtain ⟨card, hcard⟩ := h.mpr hschema
    rw [hrefused] at hcard
    simp at hcard

end McpLocator.Client
