import McpLocator.Broker.Catalog
import McpLocator.Client.CardSchema
import McpLocator.Client.LaunchHash
import McpLocator.Js.Map
import McpLocator.Lib.FirstWins

namespace McpLocator.Client.Registry

open Json Js
open Broker (Tier Root ShadowedBy Lookup nonEmptyParts stripBom cardSuffix)
open Proto (DiagnosticCode)

/-!
# The client's catalog (catalog.ts, parse.ts, command.ts)

The client library derives the catalog itself, from the same card files as the broker.

* `Node` — what the library asks of the machine.
* `parseCardFile`, `resolveCommand` — one card file, and the program it launches.
* `enumerate` — every registry tier merged into one catalog; a `Map` from names keeps the entries.
* `holds_foldl` — the loop of `enumerate` is the merge of the valid card files by name.
-/

/-! ### The machine -/

/-- The machine as the library sees it.  `jsonParse` is `JSON.parse` and `schemaErrors` the text that
    the schema's errors are joined to. -/
structure Node where
  windows : Bool
  /-- `None` if it is no directory or cannot be listed. -/
  readdirSync : String → Option (List String)
  join : String → String → String
  basename : String → String
  existsSync : String → Bool
  readFileSync : String → Except String String
  jsonParse : List Char → Except String ParsedValue
  schemaErrors : Value → String

/-- The tier as it is spelled in the source. -/
def tierText : Tier → String
  | .package => "package"
  | .system => "system"
  | .user => "user"
  | .low => "low"

/-- The name in a diagnostic is whatever the card has there. -/
structure Diagnostic where
  code : DiagnosticCode
  path : String
  message : String
  name : Option Value

structure CatalogEntry where
  name : String
  card : Value
  raw : Value
  path : String
  tier : Tier
  orphaned : Bool
  shadowed : List ShadowedBy

structure Catalog where
  entries : List CatalogEntry
  diagnostics : List Diagnostic

/-! ### Launch commands -/

def resolveCommand (node : Node) (command : String) (env : Lookup) : Option String :=
  let separators := if node.windows then ['\\', '/'] else ['/']
  if separators.any fun s => command.toList.contains s then
    if node.existsSync command then some command else none
  else
    let extensions :=
      if node.windows then
        "" :: nonEmptyParts ';' ((env "PATHEXT").getD ".COM;.EXE;.BAT;.CMD")
      else [""]
    let delimiter := if node.windows then ';' else ':'
    (nonEmptyParts delimiter (((env "PATH").or (env "Path")).getD "")).findSome? fun dir =>
      extensions.findSome? fun extension =>
        let candidate := node.join dir (command ++ extension)
        if node.existsSync candidate then some candidate else none

/-- `card.local?.launch?.command`; the schema has made sure that it is a string. -/
def commandOf (card : Value) : Option String :=
  (((card.get "local").bind (·.get "launch")).bind (·.get "command")).bind Value.asStr

def isOrphaned (node : Node) (card : Value) (env : Lookup) : Bool :=
  match commandOf card with
  | none => false
  | some command => if command = "" then false else (resolveCommand node command env).isNone

/-! ### One card file -/

/-- `card.name`; the schema has made sure that it is a string. -/
def nameOf (card : Value) : String := ((card.get "name").bind Value.asStr).getD ""

/-- Read and validate one card file: the card, and the card expanded. -/
def parseCardFile (node : Node) (path : String) (env : Lookup) : Except Diagnostic (Value × Value) :=
  match node.readFileSync path with
  | .error message => .error { code := .unreadable, path, message, name := none }
  | .ok text =>
    match node.jsonParse (stripBom text.toList) with
    | .error message => .error { code := .malformedJson, path, message, name := none }
    | .ok card =>
      if localServerCardV1.valid card.1 = false then
        .error { code := .schemaInvalid, path, message := node.schemaErrors card.1,
                 name := card.1.get "name" }
      else
        let expectedFile := nameOf card.1 ++ cardSuffix
        if node.basename path ≠ expectedFile then
          .error { code := .filenameMismatch, path, name := some (.string (nameOf card.1)),
                   message := s!"expected {expectedFile}, found {node.basename path}" }
        else .ok (card.1, expandCard card.1 env)

/-- The card files of a registry directory; `sort` compares code units. -/
def cardFilesIn (node : Node) (dir : String) : List String :=
  ((((node.readdirSync dir).getD []).filter fun n => cardSuffix.toList.isSuffixOf n.toList).insertionSort
    (utf16 · ≤ utf16 ·)).map (node.join dir)

/-! ### The merge -/

/-- The catalog while it is merged. -/
structure Merging where
  byName : JsMap String CatalogEntry
  diagnostics : List Diagnostic

/-- One card file on top of what has been merged so far. -/
def addFile (node : Node) (env : Lookup) (merging : Merging) (f : Root × String) : Merging :=
  match parseCardFile node f.2 env with
  | .error diagnostic => { merging with diagnostics := merging.diagnostics ++ [diagnostic] }
  | .ok (card, expanded) =>
    let name := nameOf card
    match merging.byName.get name with
    | some existing =>
      -- same name in a lower tier: the shadowing is recorded, nothing is merged
      { byName := merging.byName.set name
          { existing with shadowed := existing.shadowed ++ [⟨f.2, f.1.tier⟩] },
        diagnostics := merging.diagnostics ++
          [{ code := .shadowed, path := f.2, name := some (.string name),
             message := s!"shadowed by {tierText existing.tier} tier card at {existing.path}" }] }
    | none =>
      { byName := merging.byName.set name
          { name, card := expanded, raw := card, path := f.2, tier := f.1.tier,
            orphaned := isOrphaned node expanded env, shadowed := [] },
        diagnostics := merging.diagnostics }

/-- The card files of every root, in the order they are merged. -/
def orderedFiles (node : Node) (roots : List Root) : List (Root × String) :=
  (roots.insertionSort fun a b => b.tier.rank ≤ a.tier.rank).flatMap fun root =>
    (cardFilesIn node root.path).map fun file => (root, file)

theorem mem_orderedFiles {node : Node} {roots : List Root} {f : Root × String} :
    f ∈ orderedFiles node roots ↔ f.1 ∈ roots ∧ f.2 ∈ cardFilesIn node f.1.path := by
  rw [orderedFiles, List.mem_flatMap]
  constructor
  · rintro ⟨root, hroot, hmem⟩
    obtain ⟨file, hfile, rfl⟩ := List.mem_map.mp hmem
    exact ⟨(List.mem_insertionSort _).mp hroot, hfile⟩
  · rintro ⟨hroot, hfile⟩
    exact ⟨f.1, (List.mem_insertionSort _).mpr hroot, List.mem_map.mpr ⟨f.2, hfile, rfl⟩⟩

/-- Merge every registry tier into one catalog. -/
def enumerate (node : Node) (roots : List Root) (env : Lookup) (includeOrphaned : Bool) : Catalog :=
  let merging := (orderedFiles node roots).foldl (addFile node env) ⟨.empty, []⟩
  let entries := merging.byName.values.insertionSort (utf16 ·.name ≤ utf16 ·.name)
  { entries := if includeOrphaned then entries else entries.filter (!·.orphaned)
    diagnostics := merging.diagnostics }

/-- `find`: absent or shadowed out is `none`. -/
def find (node : Node) (roots : List Root) (env : Lookup) (name : String) : Option CatalogEntry :=
  (enumerate node roots env true).entries.find? (·.name == name)

/-! ### The merge as a table -/

/-- A card file that became, or could have become, an entry. -/
structure ValidFile where
  root : Root
  file : String
  card : Value
  expanded : Value

/-- The first file of a name makes the entry, the later ones are shadowed. -/
def entryRows (node : Node) (env : Lookup) : FirstWins.Rows String ValidFile CatalogEntry where
  key := (·.name)
  start name f :=
    { name, card := f.expanded, raw := f.card, path := f.file, tier := f.root.tier,
      orphaned := isOrphaned node f.expanded env, shadowed := [] }
  more e f := { e with shadowed := e.shadowed ++ [⟨f.file, f.root.tier⟩] }
  key_start _ _ := rfl
  key_more _ _ := rfl

/-- The merge as a whole: what a card file comes to, and how a shadowed one is reported. -/
def registryMerge (node : Node) (env : Lookup) :
    FirstWins.Merge (Root × String) String ValidFile CatalogEntry Diagnostic where
  toRows := entryRows node env
  read f := (parseCardFile node f.2 env).map fun r => (nameOf r.1, ⟨f.1, f.2, r.1, r.2⟩)
  note existing item :=
    { code := .shadowed, path := item.2.file, name := some (.string item.1),
      message := s!"shadowed by {tierText existing.tier} tier card at {existing.path}" }

section Merging

variable {node : Node} {env : Lookup}

theorem code_of_parseCardFile {path : String} {d : Diagnostic}
    (h : parseCardFile node path env = .error d) : d.code ≠ .shadowed := by
  unfold parseCardFile at h
  split at h
  · cases h; simp
  split at h
  · cases h; simp
  split at h
  · cases h; simp
  dsimp only at h
  split at h
  · cases h; simp
  · cases h

/-- The map holds a table of entries under their names. -/
def Holds (m : JsMap String CatalogEntry) (table : List CatalogEntry) : Prop :=
  m.entries = table.map fun e => (e.name, e)

variable {m : JsMap String CatalogEntry} {table : List CatalogEntry} {e : CatalogEntry}
  {name : String}

/-- The map after an entry is put in it. -/
theorem Holds.set (hm : Holds m table) (he : e.name = name) : Holds (m.set name e)
    (if name ∈ table.map (·.name) then table.map fun b => if b.name = name then e else b
      else table ++ [e]) := by
  have hkeys : m.entries.map Prod.fst = table.map (·.name) := by
    rw [hm, List.map_map]
    rfl
  show JsMap.setEntries m.entries name e = _
  unfold JsMap.setEntries
  rw [hkeys]
  split
  · rw [hm, List.map_map, List.map_map]
    refine List.map_congr_left fun b _ => ?_
    show (if b.name = name then (name, e) else (b.name, b)) =
      ((if b.name = name then e else b).name, if b.name = name then e else b)
    split
    · rw [he]
    · rfl
  · rw [hm, List.map_append, List.map_cons, List.map_nil, he]

theorem Holds.get_eq_some (hm : Holds m table) : m.get name = some e ↔ e ∈ table ∧ e.name = name := by
  rw [JsMap.get_eq_some, hm, List.mem_map]
  constructor
  · rintro ⟨e', he', heq⟩
    obtain ⟨rfl, rfl⟩ := Prod.mk.inj heq
    exact ⟨he', rfl⟩
  · rintro ⟨he, rfl⟩
    exact ⟨e, he, rfl⟩

/-- One file in the loop of `enumerate` is one file in the merge. -/
theorem holds_addFile {merging : Merging} {state : List CatalogEntry × List Diagnostic}
    (hholds : Holds merging.byName state.1) (hlog : merging.diagnostics = state.2)
    (hnodup : (state.1.map (·.name)).Nodup) (f : Root × String) :
    Holds (addFile node env merging f).byName ((registryMerge node env).step state f).1 ∧
      (addFile node env merging f).diagnostics = ((registryMerge node env).step state f).2 := by
  unfold addFile FirstWins.Merge.step
  cases hparse : parseCardFile node f.2 env with
  | error d =>
    have hread : (registryMerge node env).read f = .error d := by
      simp [registryMerge, hparse, Except.map]
    rw [hread]
    exact ⟨hholds, by rw [← hlog]⟩
  | ok r =>
    have hread : (registryMerge node env).read f = .ok (nameOf r.1, ⟨f.1, f.2, r.1, r.2⟩) := by
      simp [registryMerge, hparse, Except.map]
    rw [hread]
    dsimp only
    have hfind : ∀ e, state.1.find? ((registryMerge node env).key · = nameOf r.1) = some e ↔
        merging.byName.get (nameOf r.1) = some e :=
      fun e => (FirstWins.find?_key_eq_some _ hnodup).trans hholds.get_eq_some.symm
    cases hget : merging.byName.get (nameOf r.1) with
    | some existing =>
      have hexisting := hholds.get_eq_some.mp hget
      have hmem := List.mem_map.mpr ⟨existing, hexisting⟩
      have hset := hholds.set (e := { existing with shadowed := existing.shadowed ++ [⟨f.2, f.1.tier⟩] })
        hexisting.2
      rw [if_pos hmem] at hset
      rw [(hfind existing).mpr hget]
      refine ⟨hset.trans ?_, by rw [← hlog]; rfl⟩
      rw [FirstWins.add]
      refine .trans ?_ (congrArg _ (if_pos hmem).symm)
      congr 1
      refine List.map_congr_left fun b hb => ?_
      show (if b.name = nameOf r.1 then _ else b) = if b.name = nameOf r.1 then _ else b
      split
      · -- the names are distinct, so it is the entry that was found
        rename_i hb'
        obtain rfl := List.inj_on_of_nodup_map hnodup hb hexisting.1 (hb'.trans hexisting.2.symm)
        rfl
      · rfl
    | none =>
      have hnone : state.1.find? ((registryMerge node env).key · = nameOf r.1) = none := by
        rw [Option.eq_none_iff_forall_ne_some]
        intro e he
        rw [(hfind e).mp he] at hget
        cases hget
      have hmem : nameOf r.1 ∉ state.1.map (·.name) := by
        intro hmem
        obtain ⟨e, he⟩ := List.mem_map.mp hmem
        rw [hholds.get_eq_some.mpr he] at hget
        cases hget
      have hstart : ((entryRows node env).start (nameOf r.1) ⟨f.1, f.2, r.1, r.2⟩).name = nameOf r.1 := rfl
      have hset := hholds.set hstart
      rw [if_neg hmem] at hset
      rw [hnone]
      refine ⟨hset.trans ?_, hlog⟩
      rw [FirstWins.add]
      exact congrArg _ (if_neg hmem).symm

/-- **The loop of `enumerate` is the merge of the card files.** -/
theorem holds_foldl (node : Node) (env : Lookup) (files : List (Root × String)) :
    Holds (files.foldl (addFile node env) ⟨.empty, []⟩).byName ((registryMerge node env).run files).1 ∧
      (files.foldl (addFile node env) ⟨.empty, []⟩).diagnostics =
        ((registryMerge node env).run files).2 := by
  induction files using List.reverseRecOn with
  | nil => exact ⟨rfl, rfl⟩
  | append_singleton files f ih =>
    rw [List.foldl_append, FirstWins.Merge.run_snoc]
    exact holds_addFile ih.1 ih.2 ((registryMerge node env).nodup_run files) f

end Merging

end McpLocator.Client.Registry
