import McpLocator.Proto.Card
import McpLocator.Proto.Expand
import McpLocator.Proto.Hash

namespace McpLocator.Broker

open McpLocator.Json McpLocator.Proto

/-!
# The derived catalog

* `Host` — what the catalog reads from the machine: directories, files, the JSON parser.
* `parseCardFile` — read, validate, check the file name, expand, validate again.
* `enumerate` — every registry tier merged into one catalog, higher tiers first.

`parsed_of_mem_enumerate` is what every later result uses of an entry: it comes from one card file,
its typed card is the validated expansion, and its hash is taken over that expansion.
-/

/-! ### The host -/

inductive Tier where
  | low | user | system | package
deriving DecidableEq, Repr

/-- Higher rank shadows lower when the same `name` appears in multiple tiers. -/
def Tier.rank : Tier → Nat
  | .package => 3
  | .system => 2
  | .user => 1
  | .low => 0

/-- The tier as `{:?}` prints it. -/
def Tier.debug : Tier → String
  | .package => "Package"
  | .system => "System"
  | .user => "User"
  | .low => "Low"

structure Root where
  tier : Tier
  path : String
deriving DecidableEq, Repr

/-- The machine as the catalog sees it.  Paths are strings; `fromStr` is the JSON parser and
    `serdeError` the text of the error a card that cannot be read gives. -/
structure Host where
  windows : Bool
  readDir : String → List String
  fileName : String → Option String
  join : String → String → String
  pathExists : String → Bool
  readToString : String → Except String String
  fromStr : List Char → Except String JsonValue
  serdeError : Value → String

/-- Variable names to values. -/
abbrev Lookup := String → Option String

/-! ### Entries -/

def cardSuffix : String := ".card.json"

structure Diagnostic where
  code : DiagnosticCode
  path : String
  message : String
  name : Option String
deriving DecidableEq, Repr

structure ShadowedBy where
  path : String
  tier : Tier
deriving DecidableEq, Repr

structure Entry where
  name : String
  card : Card
  expanded : JsonValue
  version : String
  tier : Tier
  path : String
  orphaned : Bool
  shadowed : List ShadowedBy
  launchHash : String

structure Catalog where
  entries : List Entry
  diagnostics : List Diagnostic

structure EnumerateOptions where
  roots : List Root
  lookup : Lookup
  includeOrphaned : Bool

/-! ### Launch commands -/

/-- The parts of a string between separators, empty ones left out. -/
def nonEmptyParts (separator : Char) (s : String) : List String :=
  ((s.toList.splitOn separator).map String.ofList).filter (· ≠ "")

/-- `resolve_command`: a command with a separator is a path, anything else is looked up. -/
def resolveCommand (host : Host) (command : String) (lookup : Lookup) : Option String :=
  let hasSeparator := command.toList.contains '/' || (host.windows && command.toList.contains '\\')
  if hasSeparator then
    if host.pathExists command then some command else none
  else
    let extensions :=
      if host.windows then
        "" :: nonEmptyParts ';' ((lookup "PATHEXT").getD ".COM;.EXE;.BAT;.CMD")
      else [""]
    let separator := if host.windows then ';' else ':'
    let path := ((lookup "PATH").orElse fun _ => lookup "Path").getD ""
    (nonEmptyParts separator path).findSome? fun dir =>
      extensions.findSome? fun extension =>
        let candidate := host.join dir (command ++ extension)
        if host.pathExists candidate then some candidate else none

/-- A card whose launch binary has vanished. -/
def isOrphaned (host : Host) (card : Card) (lookup : Lookup) : Bool :=
  match card.launch with
  | some launch => (resolveCommand host launch.command lookup).isNone
  | none => false

/-! ### One card file -/

/-- `strip_prefix('\u{feff}')`. -/
def stripBom : List Char → List Char
  | '\uFEFF' :: text => text
  | text => text

/-- `expand_card` on a well-formed value. -/
def expand (value : JsonValue) (lookup : Lookup) : JsonValue :=
  ⟨expandCard value.1 lookup, wf_expandCard value.2⟩

/-- `validate`, its refusal made a diagnostic of the file. -/
def validateFile (host : Host) (path : String) (name : Option String) (value : Value) :
    Except Diagnostic Card :=
  (validate value).mapError fun e =>
    { code := .schemaInvalid, path, message := e.message (host.serdeError value), name }

/-- Read and validate one card file. -/
def parseCardFile (host : Host) (path : String) (lookup : Lookup) :
    Except Diagnostic (Card × JsonValue) := do
  let text ← (host.readToString path).mapError fun message =>
    { code := .unreadable, path, message, name := none }
  let value ← (host.fromStr (stripBom text.toList)).mapError fun message =>
    { code := .malformedJson, path, message, name := none }
  let card ← validateFile host path ((value.1.get "name").bind Value.asStr) value.1
  let expected := card.name ++ cardSuffix
  let actual := (host.fileName path).getD ""
  if actual ≠ expected then
    .error { code := .filenameMismatch, path, name := some card.name,
             message := s!"expected {expected}, found {actual}" }
  else
    let expanded := expand value lookup
    let expandedCard ← validateFile host path (some card.name) expanded.1
    return (expandedCard, expanded)

/-- The card files of a registry directory, in path order. -/
def cardFilesIn (host : Host) (dir : String) : List String :=
  ((host.readDir dir).filter fun path =>
    (host.fileName path).any fun n => cardSuffix.toList.isSuffixOf n.toList).insertionSort (· ≤ ·)

/-! ### The merge -/

/-- Rewrite the first element that satisfies `p`. -/
def modifyFirst {α : Type} (p : α → Bool) (f : α → α) : List α → List α
  | [] => []
  | x :: xs => if p x then f x :: xs else x :: modifyFirst p f xs

/-- One card file on top of what has been merged so far. -/
def addFile (host : Host) (sha256 : List Char → String) (lookup : Lookup) (root : Root)
    (catalog : Catalog) (file : String) : Catalog :=
  match parseCardFile host file lookup with
  | .error diagnostic => { catalog with diagnostics := catalog.diagnostics ++ [diagnostic] }
  | .ok (card, expanded) =>
    match catalog.entries.find? (·.name == card.name) with
    | some existing =>
      -- same name in a lower tier: the shadowing is recorded, nothing is merged
      { entries := modifyFirst (·.name == card.name)
          (fun e => { e with shadowed := e.shadowed ++ [⟨file, root.tier⟩] }) catalog.entries,
        diagnostics := catalog.diagnostics ++
          [{ code := .shadowed, path := file, name := some card.name,
             message := s!"shadowed by {existing.tier.debug} tier card at {existing.path}" }] }
    | none =>
      { catalog with entries := catalog.entries ++
          [{ name := card.name, card, expanded, version := card.version, tier := root.tier,
             path := file, orphaned := isOrphaned host card lookup, shadowed := [],
             launchHash := launchHash sha256 expanded.1 }] }

/-- The card files of every root, in the order they are merged. -/
def orderedFiles (host : Host) (roots : List Root) : List (Root × String) :=
  (roots.insertionSort fun a b => b.tier.rank ≤ a.tier.rank).flatMap fun root =>
    (cardFilesIn host root.path).map fun file => (root, file)

/-- Merge every registry tier into one catalog. -/
def enumerate (host : Host) (sha256 : List Char → String) (options : EnumerateOptions) : Catalog :=
  let catalog := (orderedFiles host options.roots).foldl
    (fun catalog f => addFile host sha256 options.lookup f.1 catalog f.2) ⟨[], []⟩
  let entries := catalog.entries.insertionSort (·.name ≤ ·.name)
  { catalog with
    entries := if options.includeOrphaned then entries else entries.filter (!·.orphaned) }

/-! ### Where entries come from -/

/-- The entry is what a card file parses to: its name is its card's, and its hash is taken over the
    expansion that the card was read from. -/
structure Entry.Parsed (sha256 : List Char → String) (e : Entry) : Prop where
  valid : validate e.expanded.1 = .ok e.card
  name_eq : e.name = e.card.name
  hash_eq : e.launchHash = Proto.launchHash sha256 e.expanded.1

/-- A computation that succeeds succeeds step by step. -/
theorem ok_of_bind {ε α β : Type} {x : Except ε α} {f : α → Except ε β} {b : β}
    (h : x >>= f = .ok b) : ∃ a, x = .ok a ∧ f a = .ok b := by
  cases x with
  | error e => exact absurd h (by simp [bind, Except.bind])
  | ok a => exact ⟨a, rfl, h⟩

theorem validateFile_eq_ok {host : Host} {path : String} {name : Option String} {v : Value}
    {card : Card} (h : validateFile host path name v = .ok card) : validate v = .ok card := by
  unfold validateFile at h
  cases hv : validate v with
  | ok c => simpa [hv, Except.mapError] using h
  | error e => simp [hv, Except.mapError] at h

/-- A parsed card file yields a validated expansion. -/
theorem valid_of_parseCardFile {host : Host} {path : String} {lookup : Lookup} {card : Card}
    {expanded : JsonValue} (h : parseCardFile host path lookup = .ok (card, expanded)) :
    validate expanded.1 = .ok card := by
  unfold parseCardFile at h
  obtain ⟨_, _, h⟩ := ok_of_bind h
  obtain ⟨_, _, h⟩ := ok_of_bind h
  obtain ⟨_, _, h⟩ := ok_of_bind h
  dsimp only at h
  split at h
  · exact absurd h (by simp)
  · obtain ⟨_, hcard, h⟩ := ok_of_bind h
    obtain ⟨rfl, rfl⟩ := Prod.mk.inj (Except.ok.inj h)
    exact validateFile_eq_ok hcard

theorem mem_modifyFirst {α : Type} {p : α → Bool} {f : α → α} {xs : List α} {y : α}
    (h : y ∈ modifyFirst p f xs) : y ∈ xs ∨ ∃ x ∈ xs, y = f x := by
  induction xs with
  | nil => simp [modifyFirst] at h
  | cons x xs ih =>
    rw [modifyFirst] at h
    split at h
    · rcases List.mem_cons.mp h with rfl | h
      · exact .inr ⟨x, List.mem_cons_self, rfl⟩
      · exact .inl (List.mem_cons_of_mem _ h)
    · rcases List.mem_cons.mp h with rfl | h
      · exact .inl List.mem_cons_self
      · rcases ih h with h | ⟨z, hz, rfl⟩
        · exact .inl (List.mem_cons_of_mem _ h)
        · exact .inr ⟨z, List.mem_cons_of_mem _ hz, rfl⟩

section Induction

variable {host : Host} {sha256 : List Char → String} {options : EnumerateOptions} {P : Entry → Prop}

/-- What holds of every new entry and does not depend on the notes of shadowing is kept as a card file
    is added. -/
theorem addFile_induction
    (hnew : ∀ (root : Root) (file : String) (card : Card) (expanded : JsonValue),
      parseCardFile host file options.lookup = .ok (card, expanded) →
        P { name := card.name, card, expanded, version := card.version, tier := root.tier, path := file,
            orphaned := isOrphaned host card options.lookup, shadowed := [],
            launchHash := launchHash sha256 expanded.1 })
    (hshadowed : ∀ (e : Entry) (shadowed : List ShadowedBy), P e → P { e with shadowed })
    {root : Root} {catalog : Catalog} (h : ∀ e ∈ catalog.entries, P e) (file : String) :
    ∀ e ∈ (addFile host sha256 options.lookup root catalog file).entries, P e := by
  intro e he
  unfold addFile at he
  split at he
  · exact h e he
  · rename_i card expanded hparse
    split at he
    · rcases mem_modifyFirst he with he | ⟨x, hx, rfl⟩
      · exact h e he
      · exact hshadowed x _ (h x hx)
    · rcases List.mem_append.mp he with he | he
      · exact h e he
      · rw [List.mem_singleton.mp he]
        exact hnew root file card expanded hparse

/-- The same of every entry of the catalog. -/
theorem enumerate_induction
    (hnew : ∀ (root : Root) (file : String) (card : Card) (expanded : JsonValue),
      parseCardFile host file options.lookup = .ok (card, expanded) →
        P { name := card.name, card, expanded, version := card.version, tier := root.tier, path := file,
            orphaned := isOrphaned host card options.lookup, shadowed := [],
            launchHash := launchHash sha256 expanded.1 })
    (hshadowed : ∀ (e : Entry) (shadowed : List ShadowedBy), P e → P { e with shadowed })
    {e : Entry} (he : e ∈ (enumerate host sha256 options).entries) : P e := by
  have hfold : ∀ (files : List (Root × String)) (catalog : Catalog),
      (∀ x ∈ catalog.entries, P x) → ∀ x ∈ (files.foldl (fun catalog f =>
        addFile host sha256 options.lookup f.1 catalog f.2) catalog).entries, P x := by
    intro files
    induction files with
    | nil => exact fun _ h => h
    | cons f files ih => exact fun catalog h => ih _ (addFile_induction hnew hshadowed h f.2)
  have hmem : e ∈ ((orderedFiles host options.roots).foldl (fun catalog f =>
      addFile host sha256 options.lookup f.1 catalog f.2) ⟨[], []⟩).entries := by
    unfold enumerate at he
    dsimp only at he
    split at he
    · exact (List.mem_insertionSort _).mp he
    · exact (List.mem_insertionSort _).mp (List.mem_filter.mp he).1
  exact hfold _ ⟨[], []⟩ (by simp) e hmem

end Induction

/-- **Every entry of the catalog is parsed from a card file.** -/
theorem parsed_of_mem_enumerate {host : Host} {sha256 : List Char → String}
    {options : EnumerateOptions} {e : Entry} (he : e ∈ (enumerate host sha256 options).entries) :
    e.Parsed sha256 :=
  enumerate_induction (fun _ _ _ _ hparse => ⟨valid_of_parseCardFile hparse, rfl, rfl⟩)
    (fun _ _ h => ⟨h.valid, h.name_eq, h.hash_eq⟩) he

/-- The catalog of a single card file that is accepted. -/
theorem entries_of_single {host : Host} {sha256 : List Char → String} {options : EnumerateOptions}
    {root : Root} {file : String} {card : Card} {expanded : JsonValue}
    (hfiles : orderedFiles host options.roots = [(root, file)])
    (hparse : parseCardFile host file options.lookup = .ok (card, expanded))
    (hall : options.includeOrphaned = true) : (enumerate host sha256 options).entries =
      [{ name := card.name, card, expanded, version := card.version, tier := root.tier, path := file,
         orphaned := isOrphaned host card options.lookup, shadowed := [],
         launchHash := launchHash sha256 expanded.1 }] := by
  simp only [enumerate, hfiles, List.foldl_cons, List.foldl_nil, addFile, hparse, List.find?_nil,
    List.nil_append, hall, if_true]
  rfl

end McpLocator.Broker
