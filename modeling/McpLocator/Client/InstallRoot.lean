import McpLocator.Broker.Dirs
import McpLocator.Js.LowerCase
import McpLocator.Lib.PathWalk

namespace McpLocator.Client

open Js LexicalPath Broker

/-!
# The install root of the broker (broker.ts)

The client starts the broker only from an install root.  Whether a command lies in one is told from
the text that it begins with.

* `withinInstallRoot`, `startBroker` — the test, and the launch that relies on it.
* `Resembles` — the command begins with the text of an install root; `withinInstallRoot_iff` says
  that nothing else is tested.
* `IsInside`, `LeadsInside` — the place that the command names is below an install root; the
  segments of the command lead there.
* `contained_iff` — of the commands that resemble an install root, those that lead inside are where
  the test is right; `not_contained` is a directory beside one.
-/

/-! ### The test -/

/-- `process.env` -/
abbrev ProcessEnv := String → Option JsString

def installRoots (platform : Platform) (env : ProcessEnv) : List JsString :=
  match platform with
  | .windows =>
    [(env "ProgramFiles").getD (ofString "C:\\Program Files") ++ ofString "\\mcp-locator"]
  | _ => [ofString "/usr/local/lib/mcp-locator", ofString "/usr/lib/mcp-locator",
      ofString "/opt/mcp-locator"]

/-- `s.replace(/\//g, '\\')` -/
def backslashes (s : JsString) : JsString := s.map fun u => if u = unit '/' then unit '\\' else u

def withinInstallRoot (table : CaseTable) (platform : Platform) (env : ProcessEnv)
    (command : JsString) : Bool :=
  let normalized := toLowerCase table (backslashes command)
  (installRoots platform env).any fun root =>
    (toLowerCase table (backslashes root)).isPrefixOf normalized

/-! ### The launch -/

inductive TrustState where
  | signed | unsigned | invalid | unknown
deriving DecidableEq

def TrustState.text : TrustState → String
  | signed => "signed"
  | unsigned => "unsigned"
  | invalid => "invalid"
  | unknown => "unknown"

structure Trust where
  state : TrustState
  detail : JsString

/-- `card.local.launch` -/
structure LaunchStanza where
  command : JsString
  args : Option (List JsString)

structure CatalogEntry where
  name : JsString
  launch : Option LaunchStanza

/-- What the client finds on the machine: the system tier, with the cards in it, and the files. -/
structure Installation where
  systemRoots : List JsString
  entries : List CatalogEntry
  existsSync : JsString → Bool
  verifySignature : JsString → Trust

/-- The process that was started, and the line that warns of it. -/
structure Spawned where
  command : JsString
  args : List JsString
  warning : Option JsString

def brokerCard : JsString := ofString "io.mcplocator.broker"

def allowUnsigned (env : ProcessEnv) : Bool :=
  env "MCP_LOCATOR_ALLOW_UNSIGNED_BROKER" == some (ofString "1")

def Trust.text (trust : Trust) : JsString :=
  ofString "(" ++ ofString trust.state.text ++ ofString ": " ++ trust.detail ++ ofString ")"

def startBroker (table : CaseTable) (machine : Installation) (platform : Platform)
    (env : ProcessEnv) : Except JsString Spawned :=
  match machine.entries.find? fun e => e.name == brokerCard with
  | none => .error (ofString "no broker registered in the system tier (looked for " ++ brokerCard ++
      ofString " in " ++ (ofString ", ").intercalate machine.systemRoots ++ ofString ")")
  | some entry =>
    match entry.launch with
    | none => .error (ofString "broker card names a command that does not exist: undefined")
    | some launch =>
      let command := launch.command
      if command.isEmpty || !machine.existsSync command then
        .error (ofString "broker card names a command that does not exist: " ++ command)
      else if !withinInstallRoot table platform env command then
        .error (ofString "refusing to launch a broker outside its install root: " ++ command)
      else
        let trust := machine.verifySignature command
        if trust.state ≠ .signed && !allowUnsigned env then
          .error (ofString "refusing to launch an unverified broker " ++ trust.text ++
            ofString ": " ++ command ++ ofString (". Set MCP_LOCATOR_ALLOW_UNSIGNED_BROKER=1 to " ++
              "allow this for a development build."))
        else .ok
          { command
            args := launch.args.getD []
            warning := if trust.state = .signed then none else some (ofString
              "mcp-locator: launching an unverified broker " ++ trust.text ++
              ofString " because MCP_LOCATOR_ALLOW_UNSIGNED_BROKER=1\n") }

/-- What is started has passed the test. -/
theorem within_of_startBroker {table : CaseTable} {machine : Installation} {platform : Platform}
    {env : ProcessEnv} {spawned : Spawned}
    (h : startBroker table machine platform env = .ok spawned) :
    withinInstallRoot table platform env spawned.command = true := by
  unfold startBroker at h
  split at h
  · cases h
  split at h
  · cases h
  dsimp only at h
  split at h
  · cases h
  split at h
  · cases h
  rename_i hwithin
  split at h
  · cases h
  · cases h
    simpa using hwithin

/-- What passes it is started, if it is there and trusted. -/
theorem exists_startBroker {table : CaseTable} {machine : Installation} {platform : Platform}
    {env : ProcessEnv} {entry : CatalogEntry} {launch : LaunchStanza}
    (hentry : machine.entries.find? (fun e => e.name == brokerCard) = some entry)
    (hlaunch : entry.launch = some launch)
    (hexists : launch.command ≠ [] ∧ machine.existsSync launch.command = true)
    (hwithin : withinInstallRoot table platform env launch.command = true)
    (htrust : (machine.verifySignature launch.command).state = .signed ∨ allowUnsigned env = true) :
    ∃ spawned, startBroker table machine platform env = .ok spawned ∧
      spawned.command = launch.command := by
  have hmissing : ¬(launch.command.isEmpty || !machine.existsSync launch.command) = true := by
    simp [hexists]
  have hrefused : ¬(decide ((machine.verifySignature launch.command).state ≠ .signed) &&
      !allowUnsigned env) = true := by
    rcases htrust with htrust | htrust <;> simp [htrust]
  rw [startBroker, hentry]
  dsimp only
  rw [hlaunch]
  dsimp only
  rw [if_neg hmissing, hwithin, if_neg (by decide), if_neg hrefused]
  exact ⟨_, rfl, rfl⟩

/-! ### What is tested -/

/-- The command begins with the text of an install root, but for letter case and for which of the two
    separators is written. -/
def Resembles (table : CaseTable) (platform : Platform) (env : ProcessEnv)
    (command : JsString) : Prop :=
  ∃ root ∈ installRoots platform env, ∃ start rest, command = start ++ rest ∧
    toLowerCase table (backslashes start) = toLowerCase table (backslashes root)

section Test

variable {table : CaseTable} {platform : Platform} {env : ProcessEnv} {command : JsString}

theorem backslashes_append (s t : JsString) :
    backslashes (s ++ t) = backslashes s ++ backslashes t :=
  List.map_append

/-- Every install root ends in the same name. -/
theorem exists_of_mem_installRoots {root : JsString} (h : root ∈ installRoots platform env) :
    ∃ base, root = base ++ ofString "mcp-locator" := by
  have hposix : root ∈ [ofString "/usr/local/lib/mcp-locator", ofString "/usr/lib/mcp-locator",
      ofString "/opt/mcp-locator"] → ∃ base, root = base ++ ofString "mcp-locator" := by
    intro h
    simp only [List.mem_cons, List.not_mem_nil, or_false] at h
    rcases h with rfl | rfl | rfl
    · exact ⟨ofString "/usr/local/lib/", by decide⟩
    · exact ⟨ofString "/usr/lib/", by decide⟩
    · exact ⟨ofString "/opt/", by decide⟩
  cases platform with
  | windows =>
    rw [List.mem_singleton.mp h]
    refine ⟨(env "ProgramFiles").getD (ofString "C:\\Program Files") ++ ofString "\\", ?_⟩
    rw [List.append_assoc]
    rfl
  | macos | linux => exact hposix h

theorem exists_toLowerCase_root {root : JsString} (h : root ∈ installRoots platform env) :
    ∃ x, toLowerCase table (backslashes root) = x ++ [unit 'r'] := by
  obtain ⟨base, rfl⟩ := exists_of_mem_installRoots h
  have hend : backslashes (ofString "mcp-locator") =
      backslashes (ofString "mcp-locato") ++ [unit 'r'] := by
    decide
  rw [backslashes_append, hend, ← List.append_assoc]
  exact exists_toLowerCase_concat rfl _

/-- **The test looks at nothing but what the command begins with.** -/
theorem withinInstallRoot_iff :
    withinInstallRoot table platform env command = true ↔ Resembles table platform env command := by
  rw [withinInstallRoot, List.any_eq_true]
  refine exists_congr fun root => and_congr_right fun hroot => ?_
  obtain ⟨x, hx⟩ := @exists_toLowerCase_root table platform env root hroot
  rw [List.isPrefixOf_iff_prefix]
  constructor
  · rintro ⟨y, hy⟩
    rw [hx, List.append_assoc, List.singleton_append] at hy
    obtain ⟨start, rest, hcommand, hstart⟩ :=
      exists_prefix_toLowerCase rfl (by decide) hy.symm
    obtain ⟨start', rest', rfl, rfl, rfl⟩ := List.map_eq_append_iff.mp hcommand
    exact ⟨start', rest', rfl, hstart.trans hx.symm⟩
  · rintro ⟨start, rest, rfl, hstart⟩
    rw [← hstart, backslashes_append]
    exact toLowerCase_append rfl (by decide) (hstart.trans hx) _

/-- Whatever follows the text of an install root is accepted. -/
theorem withinInstallRoot_append {root : JsString} (h : root ∈ installRoots platform env)
    (rest : JsString) : withinInstallRoot table platform env (root ++ rest) = true :=
  withinInstallRoot_iff.mpr ⟨root, h, root, rest, rfl, rfl⟩

/-- So is what leads out of it again, and on POSIX a relative path of one segment. -/
example : withinInstallRoot asciiTable .windows (fun _ => none)
      (ofString "C:/Program Files/mcp-locator/../../Users/Public/broker.exe") = true ∧
    withinInstallRoot asciiTable .macos (fun _ => none) (ofString "\\OPT\\mcp-locator") = true := by
  decide

end Test

/-! ### Where the command leads -/

/-- What the system is given for a path: a surrogate without its other half is replaced. -/
def pathChars (s : JsString) : List Char :=
  (points s).map fun
    | .char c => c
    | _ => '\uFFFD'

/-- The segments of a path as they are written. -/
def parts : Platform → List Char → Lexical
  | .windows, p => WindowsPath.parts p
  | _, p => PosixPath.parts p

theorem lexical_eq_resolved (platform : Platform) (p : List Char) :
    lexical platform p = (parts platform p).resolved := by
  cases platform with
  | windows => exact WindowsPath.lexical_eq_resolved p
  | macos | linux => exact PosixPath.read_eq_resolved p

/-- After normalization the command is a path of an install root and further names.  Letters that
    `fold` takes for the same are the same for the platform. -/
def IsInside (fold : Char → Char) (platform : Platform) (env : ProcessEnv) (command : JsString) :
    Prop :=
  ∃ root ∈ installRoots platform env,
    (lexical platform (pathChars root)).IsBelow fold (lexical platform (pathChars command))

/-- As the command is written, it leads to an install root, and from then on stays below it. -/
def LeadsInside (fold : Char → Char) (platform : Platform) (env : ProcessEnv) (command : JsString) :
    Prop :=
  ∃ root ∈ installRoots platform env,
    (lexical platform (pathChars root)).LeadsBelow fold (parts platform (pathChars command))

/-- If the command passes the test, it is inside; if the broker is started from it, it is too. -/
def Contained (table : CaseTable) (fold : Char → Char) (platform : Platform) (env : ProcessEnv)
    (command : JsString) : Prop :=
  (withinInstallRoot table platform env command = true → IsInside fold platform env command) ∧
  ∀ machine spawned, startBroker table machine platform env = .ok spawned →
    spawned.command = command → IsInside fold platform env command

theorem isInside_iff {fold : Char → Char} {platform : Platform} {env : ProcessEnv}
    {command : JsString} :
    IsInside fold platform env command ↔ LeadsInside fold platform env command := by
  refine exists_congr fun root => and_congr_right fun _ => ?_
  rw [lexical_eq_resolved platform (pathChars command)]
  exact Lexical.isBelow_resolved_iff

/-- **When the test keeps the broker inside its install root.** -/
theorem contained_iff (table : CaseTable) (fold : Char → Char) (platform : Platform)
    (env : ProcessEnv) (command : JsString) : Contained table fold platform env command ↔
      (Resembles table platform env command → LeadsInside fold platform env command) := by
  rw [← withinInstallRoot_iff, ← isInside_iff, Contained]
  refine and_iff_left_of_imp fun htest machine spawned hstart hcommand => ?_
  exact htest (hcommand ▸ within_of_startBroker hstart)

/-- A directory beside an install root. -/
def siblingCommand : JsString := ofString "/opt/mcp-locator-evil/broker"

/-- A machine whose system tier names it, and where unsigned brokers are allowed. -/
def siblingMachine : Installation where
  systemRoots := [ofString "/usr/local/share/mcp-locator/servers"]
  entries := [⟨brokerCard, some ⟨siblingCommand, none⟩⟩]
  existsSync _ := true
  verifySignature _ := ⟨.unknown, ofString "no signature verification on this platform yet"⟩

def developerEnv (name : String) : Option JsString :=
  if name = "MCP_LOCATOR_ALLOW_UNSIGNED_BROKER" then some (ofString "1") else none

/-- The broker is started from there. -/
theorem not_contained :
    (∀ table, withinInstallRoot table .linux developerEnv siblingCommand = true ∧
      ∃ spawned, startBroker table siblingMachine .linux developerEnv = .ok spawned ∧
        spawned.command = siblingCommand) ∧
    ∀ fold, ¬IsInside fold .linux developerEnv siblingCommand := by
  have hroot : ofString "/opt/mcp-locator" ∈ installRoots .linux developerEnv := by decide
  have hcommand : siblingCommand = ofString "/opt/mcp-locator" ++ ofString "-evil/broker" := by
    decide
  constructor
  · intro table
    have hwithin : withinInstallRoot table .linux developerEnv siblingCommand = true := by
      rw [hcommand]
      exact withinInstallRoot_append hroot _
    have hexists : siblingCommand ≠ [] ∧ siblingMachine.existsSync siblingCommand = true :=
      ⟨by decide, rfl⟩
    exact ⟨hwithin, @exists_startBroker table siblingMachine .linux developerEnv _
      ⟨siblingCommand, none⟩ rfl rfl hexists hwithin (.inr rfl)⟩
  · rintro fold ⟨root, hmem, hbelow⟩
    obtain ⟨more, -, hlengths⟩ := hbelow.lengths
    have hroots : ∀ root ∈ installRoots .linux developerEnv,
        ¬(lexical .linux (pathChars root)).segments.map List.length <+:
          (lexical .linux (pathChars siblingCommand)).segments.map List.length := by
      decide
    exact hroots root hmem ⟨more, hlengths.symm⟩

end McpLocator.Client
