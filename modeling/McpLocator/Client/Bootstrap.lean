import McpLocator.Client.Conformance
import McpLocator.Client.Dirs
import McpLocator.Client.InstallRoot

namespace McpLocator.Client

open Js
open McpLocator.Json (Value Serde.vec)
open McpLocator.Broker (Lookup Platform Root)

/-!
# Starting the broker (broker.ts)

`startBroker` on the machine as it is: the directories of the system tier, the cards in them, and the
signature of the program.

* `Registry.card_find_iff` — an entry is made from the first valid card of its name.
* `Machine`, `Machine.startBroker` — what `startBroker` finds for itself.
* `Machine.startBroker_iff` — the program that is started, and where it comes from.
-/

/-! ### The first card of a name -/

namespace Registry

variable {node : Node} {roots : List Root} {env : Lookup}

/-- The catalog has the row of a name, wherever the order puts it. -/
theorem find_eq_row (name : String) : find node roots env name = FirstWins.row (entryRows node env) name
    ((registryMerge node env).items (orderedFiles node roots)) := by
  have hperm : (enumerate node roots env true).entries.Perm (FirstWins.collect (entryRows node env)
      ((registryMerge node env).items (orderedFiles node roots))) := by
    rw [entries_enumerate]
    exact FirstWins.sorted_perm _ _
  have hnodup : ((enumerate node roots env true).entries.map (entryRows node env).key).Nodup :=
    (hperm.map _).nodup_iff.mpr (FirstWins.nodup_collect _ _)
  refine Option.ext fun e => ?_
  refine (FirstWins.find?_key_eq_some (entryRows node env) hnodup).trans ?_
  rw [hperm.mem_iff, FirstWins.mem_collect]
  constructor
  · rintro ⟨hrow, rfl⟩
    exact hrow
  · intro hrow
    have hkey : e.name = name := FirstWins.key_rowOf hrow
    exact ⟨by rw [show (entryRows node env).key e = name from hkey]; exact hrow, hkey⟩

/-- What is shadowed does not change the card. -/
theorem card_foldl_more (files : List ValidFile) (e : CatalogEntry) :
    (files.foldl (entryRows node env).more e).card = e.card := by
  induction files generalizing e with
  | nil => rfl
  | cons f files ih => exact ih _

/-- **An entry is made from the first valid card of its name.** -/
theorem card_find_iff {name : String} {expanded : Value} :
    (∃ e, find node roots env name = some e ∧ e.card = expanded) ↔
      ∃ before f after card, orderedFiles node roots = before ++ f :: after ∧
        parseCardFile node f.2 env = .ok (card, expanded) ∧ nameOf card = name ∧
        ∀ g ∈ before, ∀ r, parseCardFile node g.2 env = .ok r → nameOf r.1 ≠ name := by
  have hread : ∀ f item, (registryMerge node env).read f = .ok item ↔
      ∃ r, parseCardFile node f.2 env = .ok r ∧ (nameOf r.1, (⟨f.1, f.2, r.1, r.2⟩ : ValidFile)) = item := by
    intro f item
    cases hparse : parseCardFile node f.2 env <;> simp [registryMerge, hparse, Except.map]
  have hfirst : ∀ g, (∀ item, (registryMerge node env).read g = .ok item → item.1 ≠ name) ↔
      ∀ r, parseCardFile node g.2 env = .ok r → nameOf r.1 ≠ name := by
    intro g
    simp only [hread]
    constructor
    · exact fun h r hr => h _ ⟨r, hr, rfl⟩
    · rintro h item ⟨r, hr, rfl⟩
      exact h r hr
  have hhead : (∃ e, find node roots env name = some e ∧ e.card = expanded) ↔ ∃ first : ValidFile,
      (FirstWins.valuesOf name ((registryMerge node env).items (orderedFiles node roots))).head? =
        some first ∧ first.expanded = expanded := by
    rw [find_eq_row, FirstWins.row]
    cases FirstWins.valuesOf name ((registryMerge node env).items (orderedFiles node roots)) with
    | nil => simp [FirstWins.rowOf]
    | cons first rest =>
      simp only [FirstWins.rowOf, Option.some_inj, exists_eq_left', List.head?_cons]
      rw [card_foldl_more]
      rfl
  rw [hhead]
  simp only [FirstWins.Merge.head?_valuesOf_items, hfirst]
  simp only [hread]
  constructor
  · rintro ⟨first, ⟨before, f, after, hsplit, ⟨r, hparse, hitem⟩, hbefore⟩, rfl⟩
    obtain ⟨hname, rfl⟩ := Prod.mk.inj hitem
    exact ⟨before, f, after, r.1, hsplit, hparse, hname, hbefore⟩
  · rintro ⟨before, f, after, card, hsplit, hparse, rfl, hbefore⟩
    exact ⟨⟨f.1, f.2, card, expanded⟩, ⟨before, f, after, hsplit, ⟨_, hparse, rfl⟩, hbefore⟩, rfl⟩

end Registry

/-! ### The tests of `startBroker` -/

/-- A command that is started; with a warning, if the signature is not good and the environment
    waives it. -/
structure Admits (table : CaseTable) (machine : Installation) (platform : Platform) (env : ProcessEnv)
    (command : JsString) (warned : Bool) : Prop where
  there : command ≠ [] ∧ machine.existsSync command = true
  within : withinInstallRoot table platform env command = true
  trusted : (machine.verifySignature command).state = .signed ∧ warned = false ∨
    (machine.verifySignature command).state ≠ .signed ∧ allowUnsigned env = true ∧ warned = true

theorem startBroker_iff_admits {table : CaseTable} {machine : Installation} {platform : Platform}
    {env : ProcessEnv} {command : JsString} {args : List JsString} {warned : Bool} :
    (∃ warning, startBroker table machine platform env = .ok ⟨command, args, warning⟩ ∧
        warning.isSome = warned) ↔
      ∃ entry launch, machine.entries.find? (fun e => e.name == brokerCard) = some entry ∧
        entry.launch = some launch ∧ launch.command = command ∧ launch.args.getD [] = args ∧
        Admits table machine platform env command warned := by
  constructor
  · rintro ⟨warning, h, hwarned⟩
    have hwithin := within_of_startBroker h
    unfold startBroker at h
    split at h
    · cases h
    rename_i entry hentry
    split at h
    · cases h
    rename_i launch hlaunch
    dsimp only at h
    split at h
    · cases h
    rename_i hmissing
    split at h
    · cases h
    split at h
    · cases h
    rename_i hrefused
    cases h
    have hthere : launch.command ≠ [] ∧ machine.existsSync launch.command = true := by
      simpa using hmissing
    refine ⟨entry, launch, hentry, hlaunch, rfl, rfl, hthere, hwithin, ?_⟩
    by_cases hsigned : (machine.verifySignature launch.command).state = .signed
    · exact .inl ⟨hsigned, by rw [← hwarned, if_pos hsigned]; rfl⟩
    · refine .inr ⟨hsigned, ?_, by rw [← hwarned, if_neg hsigned]; rfl⟩
      simpa [hsigned] using hrefused
  · rintro ⟨entry, launch, hentry, hlaunch, rfl, rfl, hadmits⟩
    have hmissing : ¬(launch.command.isEmpty || !machine.existsSync launch.command) = true := by
      simp [hadmits.there]
    have hrefused : ¬(decide ((machine.verifySignature launch.command).state ≠ .signed) &&
        !allowUnsigned env) = true := by
      rcases hadmits.trusted with ⟨hsigned, -⟩ | ⟨-, hallowed, -⟩
      · simp [hsigned]
      · simp [hallowed]
    rw [startBroker, hentry]
    dsimp only
    rw [hlaunch]
    dsimp only
    rw [if_neg hmissing, hadmits.within, if_neg (by decide), if_neg hrefused]
    refine ⟨_, rfl, ?_⟩
    rcases hadmits.trusted with ⟨hsigned, rfl⟩ | ⟨hsigned, -, rfl⟩
    · rw [if_pos hsigned]
      rfl
    · rw [if_neg hsigned]
      rfl

/-! ### The machine -/

/-- `card.local?.launch` of a valid card; the schema has made sure that `command` is a string and `args`
    an array of strings. -/
def stanzaOf (card : Value) : Option LaunchStanza :=
  ((card.get "local").bind (·.get "launch")).map fun launch =>
    { command := ofString (((launch.get "command").bind Value.asStr).getD "")
      args := (launch.get "args").map fun v => ((Serde.vec Value.asStr v).getD []).map ofString }

/-- The machine that `startBroker` runs on. -/
structure Machine where
  table : CaseTable
  platform : Platform
  env : Lookup
  /-- `os.homedir()` -/
  homedir : String
  node : Registry.Node
  existsSync : JsString → Bool
  verifySignature : JsString → Trust

namespace Machine

/-- `resolveRoots(env, platform).filter((r) => r.tier === 'system')` -/
def systemRoots (machine : Machine) : List Root :=
  (resolveRoots machine.platform machine.env machine.homedir).filter (·.tier = .system)

/-- `process.env` -/
def processEnv (machine : Machine) : ProcessEnv := fun name => (machine.env name).map ofString

/-- What there is in the system tier. -/
def installation (machine : Machine) : Installation where
  systemRoots := machine.systemRoots.map fun root => ofString root.path
  entries := (Registry.enumerate machine.node machine.systemRoots machine.env true).entries.map
    fun e => { name := ofString e.name, launch := stanzaOf e.card }
  existsSync := machine.existsSync
  verifySignature := machine.verifySignature

def startBroker (machine : Machine) : Except JsString Spawned :=
  Client.startBroker machine.table machine.installation machine.platform machine.processEnv

variable {machine : Machine} {command : JsString} {args : List JsString} {warned : Bool}

/-- The entry of the broker is that of the catalog. -/
theorem find_entries : machine.installation.entries.find? (fun e => e.name == brokerCard) =
    (Registry.find machine.node machine.systemRoots machine.env "io.mcplocator.broker").map
      fun e => { name := ofString e.name, launch := stanzaOf e.card } := by
  have hname : (fun e : Registry.CatalogEntry => ofString e.name == brokerCard) =
      fun e => e.name == "io.mcplocator.broker" := by
    funext e
    rw [Bool.eq_iff_iff, beq_iff_eq, beq_iff_eq, brokerCard]
    exact ofString_injective.eq_iff
  rw [installation, List.find?_map]
  exact congrArg (fun p => Option.map _ (List.find? p _)) hname

/-- Where a program that is started comes from. -/
structure Launches (machine : Machine) (command : JsString) (args : List JsString) (warned : Bool)
    (f : Root × String) : Prop where
  /-- A card file of the system tier. -/
  system : f.1 ∈ machine.systemRoots ∧ f.2 ∈ Registry.cardFilesIn machine.node f.1.path
  /-- It is a valid card with the name of the broker, and gives the command. -/
  card : ∃ card expanded launch,
    Registry.parseCardFile machine.node f.2 machine.env = .ok (card, expanded) ∧
    Registry.nameOf card = "io.mcplocator.broker" ∧ stanzaOf expanded = some launch ∧
    launch.command = command ∧ launch.args.getD [] = args
  /-- No valid card before it has the name. -/
  first : ∃ before after,
    Registry.orderedFiles machine.node machine.systemRoots = before ++ f :: after ∧
    ∀ g ∈ before, ∀ r, Registry.parseCardFile machine.node g.2 machine.env = .ok r →
      Registry.nameOf r.1 ≠ "io.mcplocator.broker"
  admits : Admits machine.table machine.installation machine.platform machine.processEnv command warned

theorem launches_of_startBroker {spawned : Spawned} (h : machine.startBroker = .ok spawned) :
    ∃ f, machine.Launches spawned.command spawned.args spawned.warning.isSome f := by
  obtain ⟨entry, launch, hentry, hlaunch, hcommand, hargs, hadmits⟩ :=
    startBroker_iff_admits.mp ⟨spawned.warning, h, rfl⟩
  rw [find_entries] at hentry
  obtain ⟨e, hfind, rfl⟩ := Option.map_eq_some_iff.mp hentry
  obtain ⟨before, f, after, card, hsplit, hparse, hname, hbefore⟩ :=
    Registry.card_find_iff.mp ⟨e, hfind, rfl⟩
  have hf : f ∈ Registry.orderedFiles machine.node machine.systemRoots := by
    rw [hsplit]
    exact List.mem_append_right _ List.mem_cons_self
  exact ⟨f, Registry.mem_orderedFiles.mp hf,
    ⟨card, e.card, launch, hparse, hname, hlaunch, hcommand, hargs⟩,
    ⟨before, after, hsplit, hbefore⟩, hadmits⟩

theorem Launches.exists_startBroker {f : Root × String} (h : machine.Launches command args warned f) :
    ∃ warning, machine.startBroker = .ok ⟨command, args, warning⟩ ∧ warning.isSome = warned := by
  obtain ⟨card, expanded, launch, hparse, hname, hlaunch, hcommand, hargs⟩ := h.card
  obtain ⟨before, after, hsplit, hbefore⟩ := h.first
  obtain ⟨e, hfind, rfl⟩ := Registry.card_find_iff.mpr ⟨before, f, after, card, hsplit, hparse, hname,
    hbefore⟩
  have hentry := @find_entries machine
  rw [hfind, Option.map_some] at hentry
  exact startBroker_iff_admits.mpr ⟨_, launch, hentry, hlaunch, hcommand, hargs, h.admits⟩

def installedCard : ParsedValue :=
  ⟨.object [("name", .string "io.mcplocator.broker"), ("version", .string "0.1.0"),
    ("description", .string "Broker"),
    ("local", .object [("launch", .object [("type", .string "stdio"),
      ("command", .string "/opt/mcp-locator/broker"), ("args", .array [.string "serve"])])])], by decide⟩

/-- The broker is installed in one of the two directories of the system tier. -/
def installed : Machine where
  table := asciiTable
  platform := .linux
  env _ := none
  homedir := "/home/me"
  node :=
    { windows := false
      readdirSync := fun dir =>
        if dir = "/usr/share/mcp-locator/servers" then some ["io.mcplocator.broker.card.json"] else none
      join := fun dir name => dir ++ "/" ++ name
      basename := fun _ => "io.mcplocator.broker.card.json"
      existsSync := fun _ => true
      readFileSync := fun _ => .ok ""
      jsonParse := fun _ => .ok installedCard
      schemaErrors := fun _ => "" }
  existsSync command := command == ofString "/opt/mcp-locator/broker"
  verifySignature _ := { state := .signed, detail := [] }

theorem exists_startBroker_installed : ∃ spawned, installed.startBroker = .ok spawned := by
  have hok : installed.startBroker.toOption.isSome = true := by decide +kernel
  cases hstart : installed.startBroker with
  | error message => simp [hstart, Except.toOption] at hok
  | ok spawned => exact ⟨spawned, rfl⟩

end Machine

end McpLocator.Client
