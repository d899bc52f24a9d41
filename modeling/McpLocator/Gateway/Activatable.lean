import McpLocator.Broker.LaunchBinding
import McpLocator.Broker.Refusals
import McpLocator.Gateway.Listing

namespace McpLocator.Gateway

open Js
open McpLocator.Json (Value JsonValue Literal)
open McpLocator.Client (received)
open McpLocator.Broker hiding ActivateError listServers

/-!
# What is called activatable

The gateway predicts from a row of the broker's list whether the broker would start the server.

* `reported_listServers` — the rows that the gateway makes of a list.
* `activatable_iff` — a server that is called activatable is not refused exactly if its card has a
  launch stanza.
-/

/-! ### The rows of a list -/

section Rows

variable (rounded : Literal → Option Nat) (active : JsMap JsString ActiveServer)

/-- The rows of entries, the broker's own left out. -/
def rowsOf (engine : Engine) (entries : List Entry) : List Row :=
  (entries.filter (·.name ≠ "io.mcplocator.broker")).map fun entry =>
    entryRow active engine entry (engine.evaluate entry.name entry.launchHash).1

theorem rowsOf_cons_broker (engine : Engine) {entry : Entry} (entries : List Entry)
    (hname : entry.name = "io.mcplocator.broker") :
    rowsOf active engine (entry :: entries) = rowsOf active engine entries := by
  simp [rowsOf, hname]

theorem rowsOf_cons (engine : Engine) {entry : Entry} (entries : List Entry)
    (hname : entry.name ≠ "io.mcplocator.broker") : rowsOf active engine (entry :: entries) =
      entryRow active engine entry (engine.evaluate entry.name entry.launchHash).1 ::
        rowsOf active engine entries := by
  simp [rowsOf, hname]

theorem entryRow_evaluate (engine : Engine) (name launchHash : String) (entry : Entry)
    (consent : ConsentRecord) : entryRow active (engine.evaluate name launchHash).2 entry consent =
      entryRow active engine entry consent := by
  rw [evaluate_eq]
  rfl

/-- Reading consent does not change the rows. -/
theorem rowsOf_evaluate (engine : Engine) (name launchHash : String) (entries : List Entry) :
    rowsOf active (engine.evaluate name launchHash).2 entries = rowsOf active engine entries := by
  unfold rowsOf
  refine List.map_congr_left fun entry _ => ?_
  rw [sameConsent_evaluate engine name launchHash, entryRow_evaluate]

theorem read_name (engine : Engine) (entry : Entry) (consent : ConsentRecord) :
    read (some (received (listedServer engine entry consent))) "name" =
      some (some (.string (ofString entry.name))) := by
  rw [read_listedServer engine entry consent "name" rfl, received_string]

/-- Every row of the broker becomes the row of its entry. -/
theorem listRows_listServers (engine : Engine) (entries : List Entry) :
    listRows rounded active ((Broker.listServers engine entries).1.map received) =
      some (rowsOf active engine entries) := by
  induction entries generalizing engine with
  | nil => rfl
  | cons entry entries ih =>
    have htail := ih (engine.evaluate entry.name entry.launchHash).2
    rw [rowsOf_evaluate] at htail
    have hbroker : isText (some (.string (ofString entry.name))) brokerCard =
        (entry.name == "io.mcplocator.broker") := by
      rw [isText, brokerCard, Client.ofString_beq]
    simp only [Broker.listServers, List.map_cons, listRows, read_name, Option.bind_eq_bind, Option.bind_some,
      hbroker, htail]
    by_cases hname : entry.name = "io.mcplocator.broker"
    · -- the broker's own card is not offered
      rw [if_pos (by simpa using hname), rowsOf_cons_broker active engine entries hname]
    · rw [if_neg (by simpa using hname), listRow_received, entryRow_evaluate,
        rowsOf_cons active engine entries hname]
      rfl

/-- **The rows that the gateway makes of a list.** -/
theorem reported_listServers (engine : Engine) (entries : List Entry) (diagnostics : List Diagnostic) :
    reported rounded active (some (received (Json.Serde.ofMembers
      [("servers", .array (Broker.listServers engine entries).1),
        ("diagnostics", .array (diagnostics.map Diagnostic.serialize))]))) =
      some (rowsOf active engine entries) := by
  have hnodup : ([("servers", Value.array (Broker.listServers engine entries).1),
      ("diagnostics", .array (diagnostics.map Diagnostic.serialize))].map Prod.fst).Nodup := by
    show ["servers", "diagnostics"].Nodup
    decide
  have hread := read_ofMembers hnodup "servers"
  have hlookup : List.lookup "servers" [("servers", Value.array (Broker.listServers engine entries).1),
      ("diagnostics", .array (diagnostics.map Diagnostic.serialize))] =
        some (.array (Broker.listServers engine entries).1) := rfl
  rw [hlookup, Option.map_some, received_array] at hread
  simp only [reported, hread, Option.bind_eq_bind, Option.bind_some]
  exact listRows_listServers rounded active engine entries

end Rows

/-! ### What is behind a row -/

section Activatable

variable {sha256 : List Char → String} {registry : Registry} {broker : Broker} {name : String}

/-- The entry behind a row that is called activatable. -/
theorem entry_of_activatable {rounded : Literal → Option Nat} {active : JsMap JsString ActiveServer}
    {result : Value} {rows : List Row} {row : Row} (hlisted : Listed sha256 registry result broker)
    (hrows : reported rounded active (some (received result)) = some rows) (hrow : row ∈ rows)
    (hname : row.name = some (.string (ofString name))) (hactivatable : row.activatable = true) :
    ∃ entry, findEntry sha256 registry name = some entry ∧ entry.orphaned = false ∧
      (broker.engine.evaluate entry.name entry.launchHash).1.state = .granted := by
  obtain ⟨-, includeOrphaned, engine, hsame, rfl⟩ := answer_of_listed hlisted
  rw [listAnswer, reported_listServers] at hrows
  rw [← Option.some.inj hrows] at hrow
  obtain ⟨entry, hentry, rfl⟩ := List.mem_map.mp hrow
  have hmem := (List.mem_filter.mp hentry).1
  have hentryName : entry.name = name := by
    have hjs : ofString entry.name = ofString name := by simpa [entryRow] using hname
    exact ofString_injective hjs
  simp only [entryRow, Bool.and_eq_true, decide_eq_true_eq, Bool.not_eq_true'] at hactivatable
  refine ⟨entry, ?_, hactivatable.1.2, ?_⟩
  · rw [← hentryName]
    exact findEntry_of_mem hmem
  · rw [hsame]
    exact hactivatable.1.1

/-- **What is called activatable is not refused exactly if its card has a launch stanza.** -/
theorem activatable_iff {rounded : Literal → Option Nat} {active : JsMap JsString ActiveServer}
    {result : Value} {rows : List Row} {row : Row} (hlisted : Listed sha256 registry result broker)
    (hrows : reported rounded active (some (received result)) = some rows) (hrow : row ∈ rows)
    (hname : row.name = some (.string (ofString name))) (hactivatable : row.activatable = true) :
    NotRefused sha256 registry broker name ↔
      ∀ entry, findEntry sha256 registry name = some entry → entry.card.launch.isSome = true := by
  obtain ⟨entry, hfind, hpresent, hgranted⟩ :=
    entry_of_activatable hlisted hrows hrow hname hactivatable
  rw [notRefused_iff hfind hpresent hgranted (answer_of_listed hlisted).1]
  simp [hfind]

end Activatable

/-! ### A server that would be refused -/

/-- The machine of a card. -/
def registryWith (card : JsonValue) : Registry :=
  { host := hostWith card, roots := oneRoot.roots, lookup := oneRoot.lookup }

/-- The consent file after an approval of an entry. -/
def approvedDisk (entry : Entry) : Disk :=
  { metadata := some ⟨0, 0⟩
    content := some (encode ((∅ : Records).insert entry.name
      (ConsentStore.granted "2026-01-01T00:00:00Z" entry.launchHash (launchSummary entry) .user))) }

/-- A broker that has just started where an entry is approved. -/
def approvedBroker (entry : Entry) : Broker := .new (approvedDisk entry) 0 1 0 false fun _ => none

/-- The broker once it has listed its servers. -/
def listedBroker (sha256 : List Char → String) (registry : Registry) (broker : Broker) : Broker :=
  let catalog := currentCatalog sha256 registry true
  (broker.withEngine (Broker.listServers broker.engine catalog.entries).2).respond 0
    (.ok nullId (listAnswer broker.engine catalog))

/-- A request for the list of all servers. -/
def listRequest : Proto.Request :=
  { jsonrpc := "2.0", id := nullId, method := "locator/list",
    params := some ⟨.object [("includeOrphaned", .bool true)], by simp [Value.wf]⟩ }

theorem listed_listedBroker {sha256 : List Char → String} {registry : Registry} {broker : Broker}
    (hidle : broker.tasks 0 = .idle) :
    Listed sha256 registry (listAnswer broker.engine (currentCatalog sha256 registry true))
      (listedBroker sha256 registry broker) := by
  have hflag : listRequest.paramBool "includeOrphaned" = true := by
    simp [listRequest, Proto.Request.paramBool, Json.Serde.bool]
  have hdispatch : Broker.dispatch sha256 registry listRequest =
      .inr (.list nullId (currentCatalog sha256 registry true)) := by
    rw [← hflag]
    rfl
  refine ⟨0, listRequest, broker, broker.setTask 0 (.list nullId (currentCatalog sha256 registry true)), _,
    ⟨id, fun _ => .rfl⟩, ⟨.error "", .error "", false, false⟩, rfl, rfl, ?_, rfl, ?_, rfl⟩
  · simp [Broker.step, hidle, serve, hdispatch]
  · simp [Broker.step, Broker.setTask, Broker.proceed, Broker.respond, Broker.withEngine, listedBroker,
      listAnswer]

theorem evaluate_approved (entry : Entry) :
    ((approvedBroker entry).engine.evaluate entry.name entry.launchHash).1.state = .granted := by
  have hrecords : ((approvedBroker entry).engine.consent.refresh (approvedDisk entry)).records =
      (∅ : Records).insert entry.name
        (ConsentStore.granted "2026-01-01T00:00:00Z" entry.launchHash (launchSummary entry) .user) := by
    have hcoherent : ConsentStore.Coherent (approvedDisk entry) (approvedBroker entry).engine.consent :=
      ConsentStore.coherent_load _
    rw [hcoherent.refresh_records]
    exact ConsentStore.records_written _ _
  have hdisk : (approvedBroker entry).engine.disk = approvedDisk entry := rfl
  rw [evaluate_eq, hdisk, hrecords]
  simp [recordOf, ConsentRecord.judge, ConsentStore.granted]

theorem evaluate_listed (sha256 : List Char → String) (registry : Registry) (entry : Entry) :
    ((listedBroker sha256 registry (approvedBroker entry)).engine.evaluate entry.name
      entry.launchHash).1.state = .granted := by
  have hsame : SameConsent (approvedBroker entry).engine
      (listedBroker sha256 registry (approvedBroker entry)).engine := sameConsent_listServers _ _
  rw [hsame]
  exact evaluate_approved entry

/-- An approved entry that is there is called activatable. -/
theorem row_of_approved {sha256 : List Char → String} {registry : Registry} {entry : Entry}
    (rounded : Literal → Option Nat) (hentry : entry ∈ (currentCatalog sha256 registry true).entries)
    (hname : entry.name ≠ "io.mcplocator.broker") (hpresent : entry.orphaned = false) :
    ∃ rows row, reported rounded .empty (some (received (listAnswer (approvedBroker entry).engine
        (currentCatalog sha256 registry true)))) = some rows ∧ row ∈ rows ∧
      row.name = some (.string (ofString entry.name)) ∧ row.activatable = true := by
  refine ⟨_, _, reported_listServers rounded .empty _ _ _,
    List.mem_map_of_mem (List.mem_filter.mpr ⟨hentry, by simpa using hname⟩), rfl, ?_⟩
  simp [entryRow, evaluate_approved, hpresent, JsMap.has, JsMap.get, JsMap.empty]

/-- A card whose server is started by someone else. -/
def endpointCard : JsonValue :=
  ⟨.object [("description", .string "Notes"),
    ("local", .object [("endpoint", .object [("address", .string "notes"), ("type", .string "pipe")])]),
    ("name", .string "com.example.notes"), ("version", .string "1.0.0")], by
      have houter : ["description", "local", "name", "version"].Pairwise (· < ·) := by decide
      have hinner : ["address", "type"].Pairwise (· < ·) := by decide
      simp only [Value.wf_object, List.map_cons, List.map_nil, houter, hinner, List.forall_mem_cons,
        true_and]
      simp [Value.wf]⟩

/-- Its entry. -/
def endpointEntry : Entry :=
  { name := "com.example.notes"
    card := { name := "com.example.notes", version := "1.0.0", description := "Notes", title := none,
              localBlock := some { launch := none,
                                   endpoint := some { endpointType := .pipe, address := "notes" },
                                   liveness := none, lifetime := none, consent := none },
              remotes := none }
    expanded := endpointCard, version := "1.0.0", tier := .user, path := "com.example.notes.card.json",
    orphaned := false, shadowed := [], launchHash := Proto.launchHash String.ofList endpointCard.1 }

theorem mem_endpointEntry :
    endpointEntry ∈ (currentCatalog String.ofList (registryWith endpointCard) true).entries := by
  have hvalid : Proto.validate endpointCard.1 = .ok endpointEntry.card := rfl
  show endpointEntry ∈ (enumerate (hostWith endpointCard) String.ofList oneRoot).entries
  rw [entries_of_single (orderedFiles_hostWith _)
    (parse_hostWith oneRoot.lookup hvalid rfl hvalid) rfl]
  exact List.mem_singleton.mpr rfl

theorem not_notRefused : ¬ ∀ (sha256 : List Char → String) (registry : Registry) (broker : Broker)
    (name : String) (rounded : Literal → Option Nat) (active : JsMap JsString ActiveServer)
    (result : Value) (rows : List Row) (row : Row), Listed sha256 registry result broker →
      reported rounded active (some (received result)) = some rows → row ∈ rows →
        row.name = some (.string (ofString name)) → row.activatable = true →
          NotRefused sha256 registry broker name := by
  intro h
  obtain ⟨rows, row, hrows, hrow, hname, hactivatable⟩ :=
    row_of_approved (fun _ => none) mem_endpointEntry (by decide) rfl
  have hlisted : Listed String.ofList (registryWith endpointCard) _
      (listedBroker String.ofList (registryWith endpointCard) (approvedBroker endpointEntry)) :=
    listed_listedBroker rfl
  have hnot := h _ _ _ _ _ _ _ rows row hlisted hrows hrow hname hactivatable
  have hfind : findEntry String.ofList (registryWith endpointCard) endpointEntry.name =
      some endpointEntry := findEntry_of_mem mem_endpointEntry
  -- the card has no launch stanza
  have hlaunch := (notRefused_iff hfind rfl (evaluate_listed _ _ _) (answer_of_listed hlisted).1).mp hnot
  exact absurd hlaunch (by decide)

theorem activatable_iff_notes : NotRefused String.ofList (registryWith (shownCard "Notes"))
    (listedBroker String.ofList (registryWith (shownCard "Notes")) (approvedBroker (shownEntry "Notes")))
    "com.example.notes" := by
  have hmem : shownEntry "Notes" ∈
      (currentCatalog String.ofList (registryWith (shownCard "Notes")) true).entries :=
    mem_shownEntry "Notes" rfl
  have hbroker : (shownEntry "Notes").name ≠ "io.mcplocator.broker" := by simp [shownEntry]
  obtain ⟨rows, row, hrows, hrow, hname, hactivatable⟩ :=
    row_of_approved (fun _ => none) hmem hbroker rfl
  refine (activatable_iff (listed_listedBroker rfl) hrows hrow hname hactivatable).mpr ?_
  -- its entry has a launch stanza
  intro entry hentry
  obtain rfl := Option.some.inj ((findEntry_of_mem hmem).symm.trans hentry)
  rfl

end McpLocator.Gateway
