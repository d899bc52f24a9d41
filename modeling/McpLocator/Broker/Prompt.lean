import McpLocator.Broker.LaunchBinding
import McpLocator.Broker.Server
import McpLocator.ConsentUi.Request
import McpLocator.Proto.ExpandRules

namespace McpLocator.Broker

open McpLocator.Json McpLocator.Proto
open McpLocator.ConsentUi.Request (args setField parseFlags parseFlags_pairs)

/-!
# Asking the user

* `publisherOf`, `consentSummary` — what the broker says of the program, and what the card does.
* `askArgs` — the argument list `Prompter::ask` starts the dialog with.
* `Prompter.ask` — when there is a dialog, and what its end means.
* `parse_askArgs` — the dialog reads back exactly what the broker supplied.
-/

/-! ### What is shown -/

/-- `publisher_of`; `describe` is what the signature of a file is said to be. -/
def publisherOf (host : Host) (lookup : Lookup) (describe : String → String) (entry : Entry) : String :=
  match entry.card.launch with
  | none => ""
  | some launch =>
    match resolveCommand host launch.command lookup with
    | some path => describe path
    | none => "the program could not be found"

/-- `consent_summary`: the card's own description. -/
def consentSummary (entry : Entry) : Option String :=
  (entry.card.localBlock.bind (·.consent)).bind (·.summary)

/-! ### The argument list -/

/-- A flag that is left out with its value. -/
def optional (flag : String) (value : Option String) : List String :=
  match value with
  | some value => [flag, value]
  | none => []

/-- The arguments of the dialog. -/
def askArgs (entry : Entry) (record : ConsentRecord) (publisher : String) (client : Option String) :
    List String :=
  ["--name", entry.name] ++ ["--title", entry.card.title.getD entry.name] ++
  ["--tier", entry.tier.name] ++ ["--card", entry.path] ++ ["--hash", entry.launchHash] ++
  optional "--summary" (consentSummary entry) ++ ["--command", launchSummary entry] ++
  ["--publisher", publisher] ++ optional "--client" client ++
  if record.state = .stale then "--stale" :: optional "--previous" record.launchCommand else []

/-! ### The dialog -/

/-- How the dialog's process comes to its end. -/
inductive DialogEnd where
  | notSpawned | timedOut
  | exited (code : Option Int)
deriving DecidableEq, Repr

def allowCode : Int := 10
def denyCode : Int := 20

/-- The decision of a dialog that has ended. -/
def DialogEnd.decision : DialogEnd → Decision
  | .exited (some code) => if code = allowCode then .allow else if code = denyCode then .deny else .unanswered
  | _ => .unanswered

/-- The dialog's executable, if it lies beside the broker. -/
structure Prompter where
  helper : Option String

def Prompter.available (prompter : Prompter) : Bool := prompter.helper.isSome

/-- `Prompter::ask`.  `run` is the machine starting a program, `lowIntegrity` and `describeClient` what
    the system says of a process. -/
def Prompter.ask (prompter : Prompter) (lowIntegrity : Nat → Bool) (describeClient : Nat → Option String)
    (run : String → List String → DialogEnd) (publisher : String) (entry : Entry)
    (record : ConsentRecord) (clientPid : Option Nat) : Decision :=
  match prompter.helper with
  | none => .unanswered
  | some helper =>
    if clientPid.any lowIntegrity then .unanswered
    else (run helper (askArgs entry record publisher (clientPid.bind describeClient))).decision

/-- An approval is the exit code of the helper, run with these arguments. -/
theorem Prompter.ask_eq_allow {prompter : Prompter} {lowIntegrity : Nat → Bool}
    {describeClient : Nat → Option String} {run : String → List String → DialogEnd}
    {publisher : String} {entry : Entry} {record : ConsentRecord} {clientPid : Option Nat}
    (h : prompter.ask lowIntegrity describeClient run publisher entry record clientPid = .allow) :
    ∃ helper, prompter.helper = some helper ∧ (∀ pid, clientPid = some pid → lowIntegrity pid = false) ∧
      run helper (askArgs entry record publisher (clientPid.bind describeClient)) =
        .exited (some allowCode) := by
  unfold ask at h
  split at h
  · exact absurd h (by decide)
  · rename_i helper hhelper
    split at h
    · exact absurd h (by decide)
    · rename_i hlow
      refine ⟨helper, hhelper, ?_, ?_⟩
      · rintro pid rfl
        simpa using hlow
      · unfold DialogEnd.decision at h
        split at h
        · rename_i code hrun
          split at h
          · rename_i hcode
            rw [hrun, hcode]
          · split at h <;> exact absurd h (by decide)
        · exact absurd h (by decide)

/-! ### The round trip -/

/-- The request that is asked. -/
def asked (entry : Entry) (record : ConsentRecord) (publisher : String) (client : Option String) :
    ConsentUi.Request :=
  let title := entry.card.title.getD ""
  { name := entry.name, title := if title = "" then entry.name else title,
    summary := (consentSummary entry).getD "", command := launchSummary entry, tier := entry.tier.name,
    publisher, client := client.getD "", card := entry.path, hash := entry.launchHash,
    stale := decide (record.state = .stale),
    previous := if record.state = .stale then record.launchCommand.getD "" else "" }

/-- The flags with a value before `--stale`. -/
def askPairs (entry : Entry) (publisher : String) (client : Option String) : List (String × String) :=
  [("--name", entry.name), ("--title", entry.card.title.getD entry.name), ("--tier", entry.tier.name),
    ("--card", entry.path), ("--hash", entry.launchHash)] ++
  (consentSummary entry).toList.map (("--summary", ·)) ++
  [("--command", launchSummary entry), ("--publisher", publisher)] ++ client.toList.map (("--client", ·))

section RoundTrip

variable {entry : Entry} {record : ConsentRecord} {publisher : String} {client : Option String}

theorem args_optional (flag : String) (value : Option String) :
    optional flag value = args (value.toList.map ((flag, ·))) := by
  cases value <;> rfl

theorem askArgs_eq : askArgs entry record publisher client =
    args (askPairs entry publisher client) ++
      if record.state = .stale then "--stale" :: args (record.launchCommand.toList.map (("--previous", ·)))
      else [] := by
  rw [askArgs, args_optional, args_optional, args_optional]
  simp only [askPairs, args, List.flatMap_append, List.flatMap_cons, List.append_assoc,
    List.cons_append, List.nil_append]

/-- What the flags before `--stale` set. -/
theorem setField_askPairs (entry : Entry) (record : ConsentRecord) (publisher : String)
    (client : Option String) :
    (askPairs entry publisher client).foldlM (fun req p => setField req p.2 p.1) ConsentUi.Request.default =
      some { asked entry record publisher client with
        title := entry.card.title.getD entry.name, stale := false, previous := "" } := by
  unfold askPairs asked
  cases consentSummary entry <;> cases client <;> rfl

/-- What all flags set. -/
theorem parseFlags_askArgs (entry : Entry) (record : ConsentRecord) (publisher : String)
    (client : Option String) :
    parseFlags ConsentUi.Request.default (askArgs entry record publisher client) =
      .ok { asked entry record publisher client with title := entry.card.title.getD entry.name } := by
  have hpairs := parseFlags_pairs (if record.state = .stale then
    "--stale" :: args (record.launchCommand.toList.map (("--previous", ·))) else [])
    (setField_askPairs entry record publisher client)
  rw [askArgs_eq, hpairs]
  by_cases hstale : record.state = .stale
  · rw [if_pos hstale]
    cases hprevious : record.launchCommand with
    | none => simp [parseFlags, args, asked, hstale, hprevious]
    | some previous => simp [parseFlags, args, asked, hstale, hprevious, setField]
  · rw [if_neg hstale]
    simp [parseFlags, asked, hstale]

/-- **The dialog reads back what the broker supplied**, if the name is not empty. -/
theorem parse_askArgs_of_ne (h : entry.name ≠ "") :
    ConsentUi.Request.parse (askArgs entry record publisher client) =
      .ok (asked entry record publisher client) := by
  have hflags := parseFlags_askArgs entry record publisher client
  simp only [ConsentUi.Request.parse, hflags, bind, Except.bind]
  rw [if_neg (show (asked entry record publisher client).name ≠ "" from h)]
  unfold asked
  cases htitle : entry.card.title with
  | none => simp [h, pure, Except.pure]
  | some title =>
    by_cases hempty : title = ""
    · simp [hempty, pure, Except.pure]
    · simp [hempty, pure, Except.pure]

/-- An entry of the catalog has a name. -/
theorem name_ne_of_mem_enumerate {host : Host} {sha256 : List Char → String}
    {options : EnumerateOptions} {e : Entry} (he : e ∈ (enumerate host sha256 options).entries) :
    e.name ≠ "" := by
  have hparsed := parsed_of_mem_enumerate he
  obtain ⟨hrules, -⟩ := (validate_isOk_iff_rules _).mp ⟨_, hparsed.valid⟩
  obtain ⟨s, hname, hdns⟩ := hrules.name
  rw [name_of_validate hparsed.valid, ← hparsed.name_eq] at hname
  rintro hempty
  rw [hempty] at hname
  obtain rfl : "" = s := by simpa using hname
  exact absurd hdns (by decide)

end RoundTrip

/-- **What the broker says to the dialog is what the dialog reads**: every field is the one that was
    supplied, empty if its flag was left out, and the title is the name where the card has none. -/
theorem parse_askArgs (host : Host) (sha256 : List Char → String) (options : EnumerateOptions)
    (entry : Entry) (h : entry ∈ (enumerate host sha256 options).entries) (record : ConsentRecord)
    (publisher : String) (client : Option String) :
    ConsentUi.Request.parse (askArgs entry record publisher client) = .ok
      { name := entry.name
        title := if entry.card.title.getD "" = "" then entry.name else entry.card.title.getD ""
        summary := (consentSummary entry).getD ""
        command := launchSummary entry
        tier := entry.tier.name
        publisher := publisher
        client := client.getD ""
        card := entry.path
        hash := entry.launchHash
        stale := decide (record.state = .stale)
        previous := if record.state = .stale then record.launchCommand.getD "" else "" } :=
  parse_askArgs_of_ne (name_ne_of_mem_enumerate h)

/-- A card whose texts look like flags. -/
def flagCard : JsonValue :=
  ⟨.object [("description", .string "Notes"),
    ("local", .object [("consent", .object [("summary", .string "--publisher")]),
      ("launch", .object [("command", .string "--client"), ("type", .string "stdio")])]),
    ("name", .string "com.example.notes"), ("title", .string "--stale"), ("version", .string "1.0.0")],
    by decide +kernel⟩

def flagTyped : Card :=
  { name := "com.example.notes", version := "1.0.0", description := "Notes", title := some "--stale",
    localBlock := some { launch := some { launchType := .stdio, command := "--client", args := none,
                                          cwd := none, shared := none },
                         endpoint := none, liveness := none, lifetime := none,
                         consent := some { summary := some "--publisher" } },
    remotes := none }

/-- Its entry, on a machine where every file exists. -/
def flagEntry : Entry :=
  { name := "com.example.notes", card := flagTyped, expanded := flagCard, version := "1.0.0",
    tier := .user, path := "com.example.notes.card.json",
    orphaned := isOrphaned (hostWith flagCard) flagTyped oneRoot.lookup, shadowed := [],
    launchHash := launchHash String.ofList flagCard.1 }

theorem mem_flagEntry : flagEntry ∈ (enumerate (hostWith flagCard) String.ofList oneRoot).entries := by
  have hvalid : validate flagCard.1 = .ok flagTyped := rfl
  rw [entries_of_single (orderedFiles_hostWith _) (parse_hostWith oneRoot.lookup hvalid rfl
    hvalid) rfl]
  exact List.mem_singleton.mpr rfl

/-- What was approved before looks like a flag, too. -/
def staleRecord : ConsentRecord :=
  { ConsentStore.granted "2026-01-01T00:00:00Z" "sha256:0" "--hash --card" .user with state := .stale }

/-- No text of the card, of the record or of the client is taken for a flag. -/
theorem parse_askArgs_flagEntry :
    (ConsentUi.Request.parse (askArgs flagEntry staleRecord "unsigned" (some "--tier"))).toOption.map
      (fun req => ((req.title, req.summary, req.command, req.publisher), req.client, req.stale,
        req.previous)) =
      some (("--stale", "--publisher", "--client", "unsigned"), "--tier", true, "--hash --card") := by
  rw [parse_askArgs (hostWith flagCard) String.ofList oneRoot flagEntry mem_flagEntry staleRecord
    "unsigned" (some "--tier")]
  decide +kernel

end McpLocator.Broker
