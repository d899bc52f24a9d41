import McpLocator.Broker.Spawn
import McpLocator.Proto.Rules

namespace McpLocator.Broker

open McpLocator.Json McpLocator.Json.Serde McpLocator.Proto

/-!
# What a launch hash binds

The hash is taken over what `pick` finds by key in the `local` block, the process is built from the
typed card.  The two look at the same stanza when `local` is an object.  When it is an array, the
typed card reads it by position and `pick` finds nothing: such cards all have one hash.

* `Shown` — the hash of the card sees a launch or an endpoint.
* `positional` — what a card reads from an array in the place of its `local` block.
* `sameExecution_iff` — when two entries with one hash execute the same.
-/

/-! ### What is compared -/

/-- Two entries start the same process and hand out the same endpoint. -/
def SameExecution (e₁ e₂ : Entry) : Prop :=
  (∀ piped, (spawnCommand e₁ piped).toOption = (spawnCommand e₂ piped).toOption) ∧
    (sharedConnection e₁).toOption = (sharedConnection e₂).toOption

/-- The `local` block is an object in which the hash sees a launch or an endpoint. -/
def Shown (card : Value) : Prop :=
  ∃ ms x, card.get "local" = some (.object ms) ∧
    (ms.lookup "launch" = some x ∨ ms.lookup "endpoint" = some x) ∧ x ≠ .null

/-- What a card has at a position of an array in the place of its `local` block. -/
def atPosition (i : Nat) (card : Value) : Option Value :=
  match card.get "local" with
  | some (.array items) => items[i]?
  | _ => none

/-- The launch a card gives by position. -/
def positionalLaunch (card : Value) : Option Launch := (atPosition 0 card).bind Launch.deserialize

/-- The endpoint a card gives by position. -/
def positionalEndpoint (card : Value) : Option Endpoint :=
  (atPosition 1 card).bind Endpoint.deserialize

/-- Two cards give by position the same program, arguments and directory, and the same endpoint. -/
def SamePositional (v w : Value) : Prop :=
  (positionalLaunch v).map (fun l => (l.command, l.args.getD [], l.cwd)) =
      (positionalLaunch w).map (fun l => (l.command, l.args.getD [], l.cwd)) ∧
    positionalEndpoint v = positionalEndpoint w

/-! ### What the hash sees -/

theorem pick_ne_null_iff {card : Value} {key : String} : pick card key ≠ .null ↔
    ∃ ms x, card.get "local" = some (.object ms) ∧ ms.lookup key = some x ∧ x ≠ .null := by
  unfold pick
  constructor
  · intro h
    cases hl : card.get "local" with
    | none => simp [hl] at h
    | some b =>
      cases b with
      | object ms =>
        cases hk : ms.lookup key with
        | none => simp [hl, hk] at h
        | some x => exact ⟨ms, x, rfl, hk, by simpa [hl, hk] using h⟩
      | _ =>
        -- a string key finds nothing in a block that is no object
        rw [hl] at h
        exact absurd rfl h
  · rintro ⟨ms, x, hl, hk, hx⟩
    simpa [hl, hk] using hx

theorem shown_iff {card : Value} :
    Shown card ↔ pick card "launch" ≠ .null ∨ pick card "endpoint" ≠ .null := by
  rw [pick_ne_null_iff, pick_ne_null_iff]
  constructor
  · rintro ⟨ms, x, hl, hk | hk, hx⟩
    · exact .inl ⟨ms, x, hl, hk, hx⟩
    · exact .inr ⟨ms, x, hl, hk, hx⟩
  · rintro (⟨ms, x, hl, hk, hx⟩ | ⟨ms, x, hl, hk, hx⟩)
    · exact ⟨ms, x, hl, .inl hk, hx⟩
    · exact ⟨ms, x, hl, .inr hk, hx⟩

theorem deserialize_present {v : Value} :
    (present v).bind Launch.deserialize = Launch.deserialize v := by
  cases v <;> rfl

theorem deserialize_present' {v : Value} :
    (present v).bind Endpoint.deserialize = Endpoint.deserialize v := by
  cases v <;> rfl

/-- A block that is an object: the typed stanzas are read from what the hash sees. -/
theorem stanzas_of_object {card : Value} {ms : List (String × Value)}
    (hobject : ∃ cs, card = .object cs) (h : card.get "local" = some (.object ms)) :
    (launchOf card).bind Launch.deserialize = Launch.deserialize (pick card "launch") ∧
      (endpointOf card).bind Endpoint.deserialize = Endpoint.deserialize (pick card "endpoint") := by
  obtain ⟨cs, rfl⟩ := hobject
  rw [Value.get_object] at h
  have hlocal : localOf (.object cs) = some (.object ms) := given_object.mpr ⟨h, by simp⟩
  unfold launchOf endpointOf pick
  rw [hlocal]
  simp only [Value.get_object, h, Option.bind_some, given, fields, Fields.find]
  constructor
  · cases ms.lookup "launch" with
    | none => rfl
    | some x => exact deserialize_present
  · cases ms.lookup "endpoint" with
    | none => rfl
    | some x => exact deserialize_present'

/-- A block that is an array: the typed stanzas are read by position. -/
theorem stanzas_of_array {card : Value} {items : List Value} (hobject : ∃ cs, card = .object cs)
    (h : card.get "local" = some (.array items)) (hlen : items.length ≤ 5) :
    (launchOf card).bind Launch.deserialize = positionalLaunch card ∧
      (endpointOf card).bind Endpoint.deserialize = positionalEndpoint card := by
  obtain ⟨cs, rfl⟩ := hobject
  unfold positionalLaunch positionalEndpoint atPosition
  rw [h]
  rw [Value.get_object] at h
  have hlocal : localOf (.object cs) = some (.array items) := given_object.mpr ⟨h, by simp⟩
  unfold launchOf endpointOf
  rw [hlocal]
  simp only [Option.bind_some, given, fields, if_pos hlen, Fields.find]
  constructor
  · cases items[0]? with
    | none => rfl
    | some x => exact deserialize_present
  · cases items[1]? with
    | none => rfl
    | some x => exact deserialize_present'

/-! ### Entries -/

section Entries

variable {sha256 : List Char → String} {e : Entry}

/-- A card without a `local` block, or with a `null` one, executes nothing. -/
theorem nothing_of_no_local {v : Value} (hobject : ∃ cs, v = .object cs)
    (hl : v.get "local" = none ∨ v.get "local" = some .null) :
    launchOf v = none ∧ endpointOf v = none ∧ positionalLaunch v = none ∧
      positionalEndpoint v = none ∧ launchEnv v = [] := by
  obtain ⟨cs, rfl⟩ := hobject
  have hlocal : localOf (.object cs) = none := by
    simp only [localOf, Option.eq_none_iff_forall_ne_some, ne_eq, given_object, not_and, not_not]
    intro x hx
    rw [Value.get_object, hx] at hl
    simpa using hl
  unfold launchOf endpointOf positionalLaunch positionalEndpoint atPosition launchEnv
  rw [hlocal]
  rcases hl with hl | hl <;> rw [hl] <;> exact ⟨rfl, rfl, rfl, rfl, rfl⟩

theorem Entry.Parsed.object (h : e.Parsed sha256) : ∃ ms, e.expanded.1 = .object ms :=
  ((validate_isOk_iff_rules _).mp ⟨_, h.valid⟩).1.object

theorem Entry.Parsed.stanzas (h : e.Parsed sha256) :
    e.card.launch = (launchOf e.expanded.1).bind Launch.deserialize ∧
      e.card.endpoint = (endpointOf e.expanded.1).bind Endpoint.deserialize :=
  Card.stanzas_eq (deserialize_of_validate h.valid)

/-- The `local` block of a parsed entry is missing, `null`, an object or a short array. -/
theorem Entry.Parsed.local_cases (h : e.Parsed sha256) :
    e.expanded.1.get "local" = none ∨ e.expanded.1.get "local" = some .null ∨
      (∃ ms, e.expanded.1.get "local" = some (.object ms)) ∨
        ∃ items, e.expanded.1.get "local" = some (.array items) ∧ items.length ≤ 5 := by
  have hrules := ((validate_isOk_iff_rules _).mp ⟨_, h.valid⟩).1.localBlock
  obtain ⟨cs, hcs⟩ := h.object
  rw [hcs] at hrules ⊢
  rw [Value.get_object]
  cases hl : cs.lookup "local" with
  | none => exact .inl rfl
  | some b =>
    by_cases hb : b = .null
    · exact .inr (.inl (by rw [hb]))
    · rcases (hrules b (given_object.mpr ⟨hl, hb⟩)).1 with ⟨ms, rfl⟩ | ⟨items, rfl, hlen⟩
      · exact .inr (.inr (.inl ⟨ms, rfl⟩))
      · exact .inr (.inr (.inr ⟨items, rfl, hlen⟩))

/-- An entry whose stanzas the hash sees executes what the hash sees. -/
theorem Entry.Parsed.of_shown (h : e.Parsed sha256) (hs : Shown e.expanded.1) :
    e.card.launch = Launch.deserialize (pick e.expanded.1 "launch") ∧
      e.card.endpoint = Endpoint.deserialize (pick e.expanded.1 "endpoint") ∧
        launchEnv e.expanded.1 =
          (((pick e.expanded.1 "launch").get "env").map stringMembers).getD [] := by
  obtain ⟨ms, x, hl, -, -⟩ := hs
  obtain ⟨hlaunch, hendpoint⟩ := stanzas_of_object h.object hl
  rw [h.stanzas.1, h.stanzas.2, hlaunch, hendpoint]
  refine ⟨rfl, rfl, ?_⟩
  unfold launchEnv pick
  rw [hl, Option.bind_some, Value.get_object]
  cases ms.lookup "launch" <;> rfl

/-- An entry without a `local` block executes nothing, and its card gives nothing by position. -/
theorem Entry.Parsed.of_no_local (h : e.Parsed sha256)
    (hl : e.expanded.1.get "local" = none ∨ e.expanded.1.get "local" = some .null) :
    e.card.launch = positionalLaunch e.expanded.1 ∧
      e.card.endpoint = positionalEndpoint e.expanded.1 ∧ launchEnv e.expanded.1 = [] := by
  obtain ⟨hlaunch, hendpoint, hpl, hpe, henv⟩ := nothing_of_no_local h.object hl
  rw [h.stanzas.1, h.stanzas.2, hlaunch, hendpoint, hpl, hpe, henv]
  exact ⟨rfl, rfl, rfl⟩

/-- An entry whose stanzas the hash does not see executes what its card gives by position. -/
theorem Entry.Parsed.of_not_shown (h : e.Parsed sha256) (hs : ¬Shown e.expanded.1) :
    e.card.launch = positionalLaunch e.expanded.1 ∧
      e.card.endpoint = positionalEndpoint e.expanded.1 ∧ launchEnv e.expanded.1 = [] := by
  rw [shown_iff, not_or, not_not, not_not] at hs
  rcases h.local_cases with hl | hl | ⟨ms, hl⟩ | ⟨items, hl, hlen⟩
  · exact h.of_no_local (.inl hl)
  · exact h.of_no_local (.inr hl)
  · -- an object without the stanzas: the typed card has none, and an object has no positions
    obtain ⟨hlaunch, hendpoint⟩ := stanzas_of_object h.object hl
    rw [h.stanzas.1, h.stanzas.2, hlaunch, hendpoint, hs.1, hs.2]
    refine ⟨?_, ?_, ?_⟩
    · simp [positionalLaunch, atPosition, hl, Launch.deserialize, fields]
    · simp [positionalEndpoint, atPosition, hl, Endpoint.deserialize, fields]
    · have hpick := hs.1
      unfold pick at hpick
      rw [hl, Option.bind_some, Value.get_object] at hpick
      unfold launchEnv
      rw [hl, Option.bind_some, Value.get_object]
      cases hk : ms.lookup "launch" with
      | none => rfl
      | some x =>
        obtain rfl : x = .null := by simpa [hk] using hpick
        rfl
  · -- an array, whose environment is looked up by key and so never found
    obtain ⟨hlaunch, hendpoint⟩ := stanzas_of_array h.object hl hlen
    rw [h.stanzas.1, h.stanzas.2, hlaunch, hendpoint]
    exact ⟨rfl, rfl, by simp [launchEnv, hl]⟩

end Entries

/-! ### Two entries with one hash -/

theorem spawnCommand_toOption (e : Entry) (piped : Bool) : (spawnCommand e piped).toOption =
    e.card.launch.map fun l => Command.mk l.command (l.args.getD []) l.cwd
      (launchEnv e.expanded.1) piped := by
  unfold spawnCommand
  cases e.card.launch <;> rfl

theorem sharedConnection_toOption (e : Entry) : (sharedConnection e).toOption =
    e.card.endpoint.map fun p => ConnectionInfo.mk (transport p.endpointType) p.address := by
  unfold sharedConnection
  cases e.card.endpoint <;> rfl

theorem connection_injective : Function.Injective fun p : Endpoint =>
    ConnectionInfo.mk (transport p.endpointType) p.address := by
  rintro ⟨t, a⟩ ⟨t', a'⟩ h
  simp only [ConnectionInfo.mk.injEq] at h
  obtain ⟨ht, rfl⟩ := h
  cases t <;> cases t' <;> first | rfl | exact absurd ht (by decide)

/-- **Entries with the same hash execute the same exactly when the hash sees a stanza, or when what
    their cards give by position is the same.** -/
theorem sameExecution_iff {sha256 : List Char → String} (hinj : Function.Injective sha256)
    {host₁ host₂ : Host} {options₁ options₂ : EnumerateOptions} {e₁ e₂ : Entry}
    (h₁ : e₁ ∈ (enumerate host₁ sha256 options₁).entries)
    (h₂ : e₂ ∈ (enumerate host₂ sha256 options₂).entries)
    (hhash : e₁.launchHash = e₂.launchHash) :
    SameExecution e₁ e₂ ↔
      Shown e₁.expanded.1 ∨ SamePositional e₁.expanded.1 e₂.expanded.1 := by
  have hp₁ := parsed_of_mem_enumerate h₁
  have hp₂ := parsed_of_mem_enumerate h₂
  rw [hp₁.hash_eq, hp₂.hash_eq, launchHash_eq_iff hinj e₁.expanded.2 e₂.expanded.2] at hhash
  -- the hash is a function of the two picked stanzas, so it sees one in both cards or in neither
  have hshown : Shown e₁.expanded.1 ↔ Shown e₂.expanded.1 := by
    rw [shown_iff, shown_iff, hhash.1, hhash.2]
  unfold SameExecution
  simp only [spawnCommand_toOption, sharedConnection_toOption]
  by_cases hs : Shown e₁.expanded.1
  · obtain ⟨hl₁, he₁, henv₁⟩ := hp₁.of_shown hs
    obtain ⟨hl₂, he₂, henv₂⟩ := hp₂.of_shown (hshown.mp hs)
    rw [hl₁, he₁, henv₁, hl₂, he₂, henv₂, hhash.1, hhash.2]
    simp [hs]
  · obtain ⟨hl₁, he₁, henv₁⟩ := hp₁.of_not_shown hs
    obtain ⟨hl₂, he₂, henv₂⟩ := hp₂.of_not_shown (mt hshown.mpr hs)
    rw [hl₁, he₁, henv₁, hl₂, he₂, henv₂]
    simp only [hs, false_or, SamePositional]
    refine and_congr ?_ (Option.map_injective connection_injective).eq_iff
    cases positionalLaunch e₁.expanded.1 <;> cases positionalLaunch e₂.expanded.1 <;> simp

/-! ### Two cards that share a hash -/

/-- A card whose `local` block is an array. -/
def positionalCard (program : String) : JsonValue :=
  ⟨.object [("description", .string "Notes"),
    ("local", .array [.object [("command", .string program), ("type", .string "stdio")]]),
    ("name", .string "com.example.notes"), ("version", .string "1.0.0")], by
      have houter : ["description", "local", "name", "version"].Pairwise (· < ·) := by decide
      have hinner : ["command", "type"].Pairwise (· < ·) := by decide
      simp only [Value.wf_object, Value.wf_array, List.map_cons, List.map_nil, houter, hinner,
        List.forall_mem_cons, true_and]
      simp [Value.wf]⟩

/-- A machine whose only card file holds `card`. -/
def hostWith (card : JsonValue) : Host :=
  { windows := false, readDir := fun _ => ["com.example.notes.card.json"], fileName := some,
    join := fun dir name => dir ++ "/" ++ name, pathExists := fun _ => true,
    readToString := fun _ => .ok (String.ofList (canonical card.1)),
    fromStr := fun text =>
      if text = canonical card.1 then .ok card else .error "expected value at line 1 column 1",
    serdeError := fun _ => "invalid type" }

/-- One user directory and a `PATH`. -/
def oneRoot : EnumerateOptions :=
  { roots := [⟨.user, "servers"⟩],
    lookup := fun name => if name = "PATH" then some "/usr/bin" else none,
    includeOrphaned := true }

def catalogWith (card : JsonValue) : Catalog := enumerate (hostWith card) String.ofList oneRoot

/-- The catalog entry of such a card. -/
def positionalEntry (program : String) : Entry :=
  { name := "com.example.notes"
    card := { name := "com.example.notes", version := "1.0.0", description := "Notes", title := none,
              localBlock := some { launch := some { launchType := .stdio, command := program,
                                                    args := none, cwd := none, shared := none },
                                   endpoint := none, liveness := none, lifetime := none,
                                   consent := none },
              remotes := none }
    expanded := positionalCard program, version := "1.0.0", tier := .user,
    path := "com.example.notes.card.json", orphaned := false, shadowed := [],
    launchHash := launchHash String.ofList (positionalCard program).1 }

/-- The card file of such a machine is accepted. -/
theorem parse_hostWith {card : JsonValue} {typed typed' : Card} (lookup : Lookup)
    (hvalid : validate card.1 = .ok typed) (hname : typed.name = "com.example.notes")
    (hexpanded : validate (expand card lookup).1 = .ok typed') :
    parseCardFile (hostWith card) "com.example.notes.card.json" lookup =
      .ok (typed', expand card lookup) := by
  -- the text of the file starts with a brace, not with a byte order mark
  have hread : (hostWith card).fromStr (stripBom (String.ofList (canonical card.1)).toList) =
      .ok card := by
    obtain ⟨⟨ms, hms⟩, -⟩ := (validate_isOk_iff _).mp ⟨typed, hvalid⟩
    have hbom : stripBom (canonical card.1) = canonical card.1 := by
      rw [hms, canonical_object]
      rfl
    rw [String.toList_ofList, hbom]
    exact if_pos rfl
  have hfileName : ((hostWith card).fileName "com.example.notes.card.json").getD "" =
      typed.name ++ cardSuffix := by
    rw [hname]
    show "com.example.notes.card.json" = "com.example.notes" ++ ".card.json"
    decide
  have hfile : (hostWith card).readToString "com.example.notes.card.json" =
      .ok (String.ofList (canonical card.1)) := rfl
  simp only [parseCardFile, hfile, Except.mapError, bind, Except.bind, hread, validateFile, hvalid,
    hfileName, hexpanded, ne_eq, not_true_eq_false, if_false]
  rfl

theorem orderedFiles_hostWith (card : JsonValue) : orderedFiles (hostWith card) oneRoot.roots =
    [(⟨.user, "servers"⟩, "com.example.notes.card.json")] := rfl

/-- A program of any name is found on the path of such a machine. -/
theorem resolveCommand_hostWith (card : JsonValue) (program : String) :
    (resolveCommand (hostWith card) program oneRoot.lookup).isNone = false := by
  have hpath : nonEmptyParts ':' "/usr/bin" = ["/usr/bin"] := by decide
  unfold resolveCommand
  simp [hostWith, oneRoot, hpath]
  split <;> rfl

/-- The card is in the catalog of its machine. -/
theorem mem_catalogWith (program : String) :
    positionalEntry program ∈ (catalogWith (positionalCard program)).entries := by
  have hvalid : validate (positionalCard program).1 = .ok (positionalEntry program).card := rfl
  have horphaned : isOrphaned (hostWith (positionalCard program)) (positionalEntry program).card
      oneRoot.lookup = false := resolveCommand_hostWith _ program
  rw [catalogWith, entries_of_single (orderedFiles_hostWith _)
    (parse_hostWith oneRoot.lookup hvalid rfl hvalid) rfl, horphaned]
  exact List.mem_singleton.mpr rfl

/-- Two cards with different commands, one hash and an injective digest. -/
theorem not_sameExecution : ¬ ∀ (sha256 : List Char → String) (host₁ host₂ : Host)
    (options₁ options₂ : EnumerateOptions) (e₁ e₂ : Entry), Function.Injective sha256 →
      e₁ ∈ (enumerate host₁ sha256 options₁).entries →
        e₂ ∈ (enumerate host₂ sha256 options₂).entries →
          e₁.launchHash = e₂.launchHash → SameExecution e₁ e₂ := by
  intro h
  have hsame := h String.ofList _ _ _ _ (positionalEntry "notes") (positionalEntry "cmd.exe")
    (fun _ _ => String.ofList_injective) (mem_catalogWith "notes") (mem_catalogWith "cmd.exe") rfl
  have hprogram := hsame.1 true
  revert hprogram
  decide

/-! ### Two cards with one launch stanza -/

/-- A card whose launch stanza is seen. -/
def shownCard (description : String) : JsonValue :=
  ⟨.object [("description", .string description),
    ("local", .object [("launch", .object [("command", .string "notes"), ("type", .string "stdio")])]),
    ("name", .string "com.example.notes"), ("version", .string "1.0.0")], by
      have houter : ["description", "local", "name", "version"].Pairwise (· < ·) := by decide
      have hinner : ["command", "type"].Pairwise (· < ·) := by decide
      simp only [Value.wf_object, List.map_cons, List.map_nil, houter, hinner, List.forall_mem_cons,
        true_and]
      simp [Value.wf]⟩

/-- Its entry. -/
def shownEntry (description : String) : Entry :=
  { name := "com.example.notes"
    card := { name := "com.example.notes", version := "1.0.0", description, title := none,
              localBlock := some { launch := some { launchType := .stdio, command := "notes",
                                                    args := none, cwd := none, shared := none },
                                   endpoint := none, liveness := none, lifetime := none,
                                   consent := none },
              remotes := none }
    expanded := shownCard description, version := "1.0.0", tier := .user,
    path := "com.example.notes.card.json", orphaned := false, shadowed := [],
    launchHash := launchHash String.ofList (shownCard description).1 }

theorem mem_shownEntry (description : String)
    (hvalid : validate (shownCard description).1 = .ok (shownEntry description).card) :
    shownEntry description ∈ (catalogWith (shownCard description)).entries := by
  have hexpand : expand (shownCard description) oneRoot.lookup = shownCard description := rfl
  have hexpanded : validate (expand (shownCard description) oneRoot.lookup).1 =
      .ok (shownEntry description).card := by
    rw [hexpand, hvalid]
  have horphaned : isOrphaned (hostWith (shownCard description)) (shownEntry description).card
      oneRoot.lookup = false := resolveCommand_hostWith (shownCard description) "notes"
  rw [catalogWith, entries_of_single (orderedFiles_hostWith _)
    (parse_hostWith oneRoot.lookup hvalid rfl hexpanded) rfl, horphaned, hexpand]
  exact List.mem_singleton.mpr rfl

/-- Cards that differ elsewhere. -/
theorem sameExecution_iff_notes : shownEntry "Notes" ≠ shownEntry "More notes" ∧
    SameExecution (shownEntry "Notes") (shownEntry "More notes") := by
  refine ⟨fun h => absurd (congrArg (·.card.description) h) (by decide), ?_⟩
  have hshown : Shown (shownCard "Notes").1 := ⟨_, _, rfl, .inl rfl, by simp⟩
  exact (sameExecution_iff (fun _ _ => String.ofList_injective) (mem_shownEntry "Notes" rfl)
    (mem_shownEntry "More notes" rfl) rfl).mpr (.inl hshown)

end McpLocator.Broker
