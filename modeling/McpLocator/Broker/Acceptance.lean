import McpLocator.Broker.Catalog
import McpLocator.Proto.ExpandFrame

namespace McpLocator.Broker

open McpLocator.Json McpLocator.Proto

/-!
# Acceptance does not depend on the environment

`parse_card_file` validates a card twice, before and after expansion.

* `parseCardFile_ok_of_valid` — the second validation never refuses.
* `parseCardFile_error_of_error` — what is refused is refused under every environment, with the same
  diagnostic.
* `expansion_keeps_cards` — expansion never invalidates a card.
-/

section Parse

variable {host : Host} {file : String} {lookup lookup' : Lookup}

/-- **A file that is read, is a card and is called after it is accepted.** -/
theorem parseCardFile_ok_of_valid {text : String} {value : JsonValue} {card : Card}
    (hread : host.readToString file = .ok text)
    (hjson : host.fromStr (stripBom text.toList) = .ok value) (hvalid : validate value.1 = .ok card)
    (hname : (host.fileName file).getD "" = card.name ++ cardSuffix) :
    ∃ card', parseCardFile host file lookup = .ok (card', expand value lookup) := by
  obtain ⟨card', hvalid', -⟩ : ∃ card', validate (expand value lookup).1 = .ok card' ∧
      card'.name = card.name := validate_expandCard hvalid
  refine ⟨card', ?_⟩
  simp only [parseCardFile, hread, hjson, validateFile, hvalid, hname, hvalid', Except.mapError, bind,
    Except.bind, ne_eq, not_true_eq_false, if_false]
  rfl

theorem parseCardFile_error_of_error {d : Diagnostic} (h : parseCardFile host file lookup = .error d) :
    parseCardFile host file lookup' = .error d := by
  -- the environment is first asked after the last check that can fail
  by_cases hvalid : ∃ text value card, host.readToString file = .ok text ∧
      host.fromStr (stripBom text.toList) = .ok value ∧ validate value.1 = .ok card ∧
        (host.fileName file).getD "" = card.name ++ cardSuffix
  · obtain ⟨text, value, card, hread, hjson, hvalid, hname⟩ := hvalid
    obtain ⟨card', hok⟩ : ∃ card', parseCardFile host file lookup = .ok (card', expand value lookup) :=
      parseCardFile_ok_of_valid hread hjson hvalid hname
    rw [hok] at h
    exact absurd h (by simp)
  · rw [← h]
    unfold parseCardFile
    cases hread : host.readToString file with
    | error message => simp only [Except.mapError, bind, Except.bind]
    | ok text =>
      simp only [Except.mapError, bind, Except.bind]
      cases hjson : host.fromStr (stripBom text.toList) with
      | error message => simp only
      | ok value =>
        simp only [validateFile]
        cases hcard : validate value.1 with
        | error e => simp only [Except.mapError]
        | ok card =>
          have hname : (host.fileName file).getD "" ≠ card.name ++ cardSuffix :=
            fun hname => hvalid ⟨text, value, card, hread, hjson, hcard, hname⟩
          simp only [Except.mapError, if_pos hname]

end Parse

/-- **Expansion never invalidates a card.**  It rewrites the strings at the locations of a valid card
    and nothing else, and the result is valid with the same name, version and types; so a card file
    that passes the first validation is accepted, and whether and why one is refused is the same in
    every environment. -/
theorem expansion_keeps_cards :
    (∀ (v : Value) (lookup : Lookup) (card : Card), validate v = .ok card →
      expandCard v lookup = v.mapStrings (expandAt isLocation lookup) ∧
      ∃ card', validate (expandCard v lookup) = .ok card' ∧ card'.name = card.name ∧
        card'.version = card.version ∧
        card'.launch.map (·.launchType) = card.launch.map (·.launchType) ∧
        card'.endpoint.map (·.endpointType) = card.endpoint.map (·.endpointType)) ∧
    (∀ (host : Host) (file text : String) (value : JsonValue) (card : Card) (lookup : Lookup),
      host.readToString file = .ok text → host.fromStr (stripBom text.toList) = .ok value →
        validate value.1 = .ok card → (host.fileName file).getD "" = card.name ++ cardSuffix →
          ∃ card', parseCardFile host file lookup = .ok (card', expand value lookup)) ∧
    ∀ (host : Host) (file : String) (lookup lookup' : Lookup),
      (∀ d, parseCardFile host file lookup = .error d ↔ parseCardFile host file lookup' = .error d) ∧
      ((∃ r, parseCardFile host file lookup = .ok r) ↔ ∃ r, parseCardFile host file lookup' = .ok r) := by
  refine ⟨fun v lookup card h => ⟨expandCard_eq_mapStrings, ?_⟩,
    fun host file text value card lookup hread hjson hvalid hname =>
      parseCardFile_ok_of_valid hread hjson hvalid hname, fun host file lookup lookup' => ?_⟩
  · obtain ⟨card', hvalid, hname⟩ : ∃ card', validate (expandCard v lookup) = .ok card' ∧
        card'.name = card.name := validate_expandCard h
    exact ⟨card', hvalid, hname, kept_of_expandCard h hvalid⟩
  · have herror : ∀ d, parseCardFile host file lookup = .error d ↔
        parseCardFile host file lookup' = .error d :=
      fun d => ⟨parseCardFile_error_of_error, parseCardFile_error_of_error⟩
    refine ⟨herror, ?_⟩
    cases h : parseCardFile host file lookup with
    | error d =>
      rw [(herror d).mp h]
    | ok r =>
      cases h' : parseCardFile host file lookup' with
      | error d =>
        rw [(herror d).mpr h'] at h
        exact absurd h (by simp)
      | ok r' => simp

/-- A card that names its program by a variable. -/
def homeCard : JsonValue :=
  ⟨.object [("description", .string "Notes"),
    ("local", .object [("launch", .object [("command", .string "$\x7bHOME\x7d/notes"),
      ("type", .string "stdio")])]),
    ("name", .string "com.example.notes"), ("version", .string "1.0.0")], by
      have houter : ["description", "local", "name", "version"].Pairwise (· < ·) := by decide
      have hinner : ["command", "type"].Pairwise (· < ·) := by decide
      simp only [Value.wf_object, List.map_cons, List.map_nil, houter, hinner, List.forall_mem_cons,
        true_and]
      simp [Value.wf]⟩

/-- A machine with its file. -/
def homeHost : Host where
  windows := false
  readDir _ := ["com.example.notes.card.json"]
  fileName := some
  join dir file := dir ++ "/" ++ file
  pathExists _ := true
  readToString _ := .ok ""
  fromStr _ := .ok homeCard
  serdeError _ := ""

/-- The file is accepted, and so it is where the variable is not set. -/
theorem expansion_keeps_homeCard :
    (∃ card', validate (expandCard homeCard.1 fun _ => some "/root") = .ok card' ∧
      card'.name = "com.example.notes" ∧ card'.version = "1.0.0") ∧
    (∃ card', parseCardFile homeHost "com.example.notes.card.json" (fun _ => some "/root") =
      .ok (card', expand homeCard fun _ => some "/root")) ∧
    ∃ r, parseCardFile homeHost "com.example.notes.card.json" (fun _ => none) = .ok r := by
  obtain ⟨-, card', hvalid, hname, hversion, -⟩ :=
    expansion_keeps_cards.1 homeCard.1 (fun _ => some "/root") _ rfl
  have hfile := expansion_keeps_cards.2.1 homeHost "com.example.notes.card.json" "" homeCard _
    (fun _ => some "/root") rfl rfl rfl (by decide)
  obtain ⟨r, hr⟩ := hfile
  have hunset := (expansion_keeps_cards.2.2 homeHost "com.example.notes.card.json"
    (fun _ => some "/root") fun _ => none).2
  exact ⟨⟨card', hvalid, hname, hversion⟩, ⟨r, hr⟩, hunset.mp ⟨_, hr⟩⟩

end McpLocator.Broker
