import McpLocator.Broker.Prompt
import McpLocator.Lib.Words

namespace McpLocator.Broker

open McpLocator.Json McpLocator.Proto McpLocator.Words

/-!
# What a stale prompt shows

The hash covers everything in the launch stanza and the endpoint; the dialog shows one line for the old
program and one for the new.

* `visibleWords` — the words of a command line, white space at its end aside.
* `launchSummary_eq_iff` — two summaries are equal exactly if the words are.
* `changeShown_iff` — a stale prompt shows a change exactly if it is one of the words.
-/

/-! ### The words of a command line -/

/-- The words of the command and of the arguments, between spaces. -/
def commandWords (launch : Launch) : List (List Char) :=
  (launch.command :: launch.args.getD []).flatMap fun s => s.toList.splitOn ' '

/-- White space at the end aside. -/
def visibleWords (launch : Launch) : List (List Char) := trimWords isWhiteSpace (commandWords launch)

/-- The command line before it is trimmed. -/
theorem trimWords_commandLine (launch : Launch) : trimWords isWhiteSpace
    ((launch.command ++ " " ++ (launch.args.map (String.intercalate " ")).getD "").toList.splitOn ' ') =
      visibleWords launch := by
  have hline : ∀ args : String, (launch.command ++ " " ++ args).toList.splitOn ' ' =
      launch.command.toList.splitOn ' ' ++ args.toList.splitOn ' ' := by
    intro args
    have htext : (launch.command ++ " " ++ args).toList = launch.command.toList ++ ' ' :: args.toList := by
      simp
    rw [htext, List.splitOn_append_cons_self]
  rw [hline, visibleWords, commandWords, List.flatMap_cons]
  -- without arguments there is still the space, and an empty word after it
  have hnone : trimWords isWhiteSpace (launch.command.toList.splitOn ' ' ++ "".toList.splitOn ' ') =
      trimWords isWhiteSpace (launch.command.toList.splitOn ' ') := trimWords_concat_of_all rfl
  cases launch.args with
  | none => simpa using hnone
  | some args =>
    cases args with
    | nil => simpa using hnone
    | cons first rest =>
      have hjoin : (String.intercalate " " (first :: rest)).toList =
          [' '].intercalate ((first :: rest).map String.toList) := by
        rw [String.toList_intercalate]
        rfl
      rw [Option.map_some, Option.getD_some, Option.getD_some, hjoin, splitOn_intercalate (by simp),
        List.flatMap_map]

/-- **Two summaries are equal exactly if the words are.** -/
theorem launchSummary_eq_iff {e₁ e₂ : Entry} {l₁ l₂ : Launch} (h₁ : e₁.card.launch = some l₁)
    (h₂ : e₂.card.launch = some l₂) :
    launchSummary e₁ = launchSummary e₂ ↔ visibleWords l₁ = visibleWords l₂ := by
  have hspace : isWhiteSpace ' ' = true := by decide
  rw [← trimWords_commandLine l₁, ← trimWords_commandLine l₂, ← rdropWhile_eq_iff hspace, launchSummary,
    launchSummary, h₁, h₂]
  exact ⟨fun h => String.ofList_injective h, fun h => congrArg String.ofList h⟩

/-! ### The prompt -/

/-- An entry before and after a change of what its hash is taken over. -/
structure Changed (e₁ e₂ : Entry) : Prop where
  name_eq : e₁.name = e₂.name
  differ : pick e₁.expanded.1 "launch" ≠ pick e₂.expanded.1 "launch" ∨
    pick e₁.expanded.1 "endpoint" ≠ pick e₂.expanded.1 "endpoint"

/-- The change can be seen: the hash is another one, and so are the summaries, and what stands after
    `Was:` and after `Now:` when the approval of the first has gone stale. -/
structure ChangeShown (e₁ e₂ : Entry) : Prop where
  hash : e₁.launchHash ≠ e₂.launchHash
  summary : launchSummary e₁ ≠ launchSummary e₂
  dialog : ∀ (now publisher : String) (scope : ConsentScope) (client : Option String)
    (record : ConsentRecord) (req : ConsentUi.Request),
    record = (ConsentStore.granted now e₁.launchHash (launchSummary e₁) scope).judge e₂.launchHash →
      record.state = .stale → ConsentUi.Request.parse (askArgs e₂ record publisher client) = .ok req →
        req.previous ≠ req.command

/-- A judged approval still holds the command line that was approved. -/
theorem launchCommand_judge (record : ConsentRecord) (launchHash : String) :
    (record.judge launchHash).launchCommand = record.launchCommand := by
  unfold ConsentRecord.judge
  split
  · rfl
  · split <;> rfl

/-- The two lines of a stale prompt are the two summaries. -/
theorem lines_of_stale {e₁ e₂ : Entry} {now publisher launchHash : String} {scope : ConsentScope}
    {client : Option String} {record : ConsentRecord} {req : ConsentUi.Request} (hname : e₂.name ≠ "")
    (hrecord : record = (ConsentStore.granted now launchHash (launchSummary e₁) scope).judge e₂.launchHash)
    (hstale : record.state = .stale)
    (hreq : ConsentUi.Request.parse (askArgs e₂ record publisher client) = .ok req) :
    req.previous = launchSummary e₁ ∧ req.command = launchSummary e₂ := by
  rw [parse_askArgs_of_ne hname] at hreq
  obtain rfl := Except.ok.inj hreq
  refine ⟨?_, rfl⟩
  show (if record.state = .stale then record.launchCommand.getD "" else "") = launchSummary e₁
  rw [if_pos hstale, hrecord, launchCommand_judge]
  rfl

/-- A change of the launch or of the endpoint is a change of the hash. -/
theorem Changed.launchHash_ne {sha256 : List Char → String} (hinj : Function.Injective sha256)
    {e₁ e₂ : Entry} (h₁ : e₁.Parsed sha256) (h₂ : e₂.Parsed sha256) (h : Changed e₁ e₂) :
    e₁.launchHash ≠ e₂.launchHash := by
  rw [h₁.hash_eq, h₂.hash_eq, ne_eq, launchHash_eq_iff hinj e₁.expanded.2 e₂.expanded.2]
  rintro ⟨hlaunch, hendpoint⟩
  exact h.differ.elim (fun hne => hne hlaunch) fun hne => hne hendpoint

/-- **A stale prompt shows the change exactly if the words of the command line have changed.** -/
theorem changeShown_iff {sha256 : List Char → String} (hinj : Function.Injective sha256) {host₁ host₂ : Host}
    {options₁ options₂ : EnumerateOptions} {e₁ e₂ : Entry} {l₁ l₂ : Launch}
    (h₁ : e₁ ∈ (enumerate host₁ sha256 options₁).entries)
    (h₂ : e₂ ∈ (enumerate host₂ sha256 options₂).entries) (hl₁ : e₁.card.launch = some l₁)
    (hl₂ : e₂.card.launch = some l₂) (hchanged : Changed e₁ e₂) :
    ChangeShown e₁ e₂ ↔ visibleWords l₁ ≠ visibleWords l₂ := by
  have hsummary := launchSummary_eq_iff hl₁ hl₂
  have hhash := hchanged.launchHash_ne hinj (parsed_of_mem_enumerate h₁) (parsed_of_mem_enumerate h₂)
  refine ⟨fun h => mt hsummary.mpr h.summary, fun hwords => ⟨hhash, mt hsummary.mp hwords, ?_⟩⟩
  intro now publisher scope client record req hrecord hstale hreq
  obtain ⟨hprevious, hcommand⟩ :=
    lines_of_stale (name_ne_of_mem_enumerate h₂) hrecord hstale hreq
  rw [hprevious, hcommand]
  exact mt hsummary.mp hwords

/-! ### A change that is not shown -/

/-- A program that is told by its environment what to load. -/
def preloadCard (program library : String) : JsonValue :=
  ⟨.object [("description", .string "Notes"),
    ("local", .object [("launch", .object [("command", .string program),
      ("env", .object [("LD_PRELOAD", .string library)]), ("type", .string "stdio")])]),
    ("name", .string "com.example.notes"), ("version", .string "1.0.0")], by
      have houter : ["description", "local", "name", "version"].Pairwise (· < ·) := by decide
      have hinner : ["command", "env", "type"].Pairwise (· < ·) := by decide
      simp only [Value.wf_object, List.map_cons, List.map_nil, houter, hinner, List.forall_mem_cons,
        true_and]
      simp [Value.wf]⟩

/-- What every such card is read as. -/
def preloadTyped (program : String) : Card :=
  { name := "com.example.notes", version := "1.0.0", description := "Notes", title := none,
    localBlock := some { launch := some { launchType := .stdio, command := program, args := none,
                                          cwd := none, shared := none },
                         endpoint := none, liveness := none, lifetime := none, consent := none },
    remotes := none }

def preloadEntry (program library : String) : Entry :=
  { name := "com.example.notes", card := preloadTyped program, expanded := preloadCard program library,
    version := "1.0.0", tier := .user, path := "com.example.notes.card.json",
    orphaned := isOrphaned (hostWith (preloadCard program library)) (preloadTyped program) oneRoot.lookup,
    shadowed := [], launchHash := launchHash String.ofList (preloadCard program library).1 }

theorem mem_preloadEntry (program library : String)
    (hexpand : expand (preloadCard program library) oneRoot.lookup = preloadCard program library) :
    preloadEntry program library ∈
      (enumerate (hostWith (preloadCard program library)) String.ofList oneRoot).entries := by
  have hvalid : validate (preloadCard program library).1 = .ok (preloadTyped program) := rfl
  have hexpanded : validate (expand (preloadCard program library) oneRoot.lookup).1 =
      .ok (preloadTyped program) := by
    rw [hexpand, hvalid]
  rw [entries_of_single (orderedFiles_hostWith _) (parse_hostWith _ hvalid rfl hexpanded) rfl, hexpand]
  exact List.mem_singleton.mpr rfl

theorem changed_preloadEntry :
    Changed (preloadEntry "notes" "notes.so") (preloadEntry "notes" "evil.so") := by
  refine ⟨rfl, .inl fun h => ?_⟩
  have hlibrary := congrArg
    (fun v => ((v.get "env").bind (·.get "LD_PRELOAD")).bind Value.asStr) h
  exact absurd hlibrary (by decide +kernel)

theorem not_changeShown : ¬ ∀ (sha256 : List Char → String) (host₁ host₂ : Host)
    (options₁ options₂ : EnumerateOptions) (e₁ e₂ : Entry), Function.Injective sha256 →
      e₁ ∈ (enumerate host₁ sha256 options₁).entries →
        e₂ ∈ (enumerate host₂ sha256 options₂).entries → e₁.card.launch.isSome = true →
          e₂.card.launch.isSome = true → Changed e₁ e₂ → ChangeShown e₁ e₂ := by
  intro h
  have hshown := h String.ofList _ _ _ _ (preloadEntry "notes" "notes.so") (preloadEntry "notes" "evil.so")
    (fun _ _ => String.ofList_injective) (mem_preloadEntry "notes" "notes.so" rfl)
    (mem_preloadEntry "notes" "evil.so" rfl) rfl rfl changed_preloadEntry
  exact hshown.summary rfl

/-- Another program is seen. -/
theorem changeShown_preloadEntry :
    ChangeShown (preloadEntry "notes" "notes.so") (preloadEntry "evil" "notes.so") := by
  have hchanged : Changed (preloadEntry "notes" "notes.so") (preloadEntry "evil" "notes.so") := by
    refine ⟨rfl, .inl fun h => ?_⟩
    exact absurd (congrArg (fun v => (v.get "command").bind Value.asStr) h) (by decide +kernel)
  exact (changeShown_iff (fun _ _ => String.ofList_injective) (mem_preloadEntry "notes" "notes.so" rfl)
    (mem_preloadEntry "evil" "notes.so" rfl) rfl rfl hchanged).mpr (by decide +kernel)

end McpLocator.Broker
