import McpLocator.Broker.LaunchBinding
import McpLocator.Broker.Merge
import McpLocator.Client.Catalog
import McpLocator.Client.HashAgreement
import McpLocator.Proto.ExpandFrame

namespace McpLocator.Client.Registry

open Json
open Broker (Tier Root ShadowedBy Lookup Host Entry stripBom cardSuffix)
open Proto (DiagnosticCode Card Launch validate launchOf localOf pick)
open Json.Serde (given given_object)

/-!
# One catalog on both sides

The broker and the client library each derive the catalog on their own.

* `Summary` — what is compared of an entry; `summaries` is the table of them, of which both catalogs
  are an instance (`summary_brokerRows`, `summary_entryRows`).
* `ReadsAlike` — one card file read by both sides; `fileSummary_eq`.
* `SameMachine` — both sides look at one machine.
* `enumerate_agrees` — then they derive the same entries, and report the same of the other files.
-/

/-! ### Summaries -/

structure Summary where
  name : String
  version : String
  tier : Tier
  path : String
  orphaned : Bool
  shadowed : List ShadowedBy
  command : Option String
  launchHash : String
deriving DecidableEq

/-- The catalog as a table of summaries. -/
def summaries : FirstWins.Rows String Summary Summary where
  key := (·.name)
  start name s := { s with name, shadowed := [] }
  more s t := { s with shadowed := s.shadowed ++ [⟨t.path, t.tier⟩] }
  key_start _ _ := rfl
  key_more _ _ := rfl

def brokerSummary (e : Entry) : Summary :=
  { name := e.name, version := e.version, tier := e.tier, path := e.path, orphaned := e.orphaned,
    shadowed := e.shadowed, command := e.card.launch.map (·.command), launchHash := e.launchHash }

/-- `card.version`; the schema has made sure that it is a string. -/
def versionOf (card : Value) : String := ((card.get "version").bind Value.asStr).getD ""

def clientSummary (numberText : Number → List Char) (sha256 : List Char → String)
    (e : CatalogEntry) : Summary :=
  { name := e.name, version := versionOf e.card, tier := e.tier, path := e.path, orphaned := e.orphaned,
    shadowed := e.shadowed, command := commandOf e.card,
    launchHash := launchHash numberText sha256 e.card }

/-! ### The broker's table -/

section BrokerTable

variable {host : Host} {sha256 : List Char → String} {lookup : Lookup}

/-- A valid card file as the broker reads it. -/
structure BrokerFile where
  root : Root
  file : String
  card : Card
  expanded : JsonValue

def brokerRows (host : Host) (sha256 : List Char → String) (lookup : Lookup) :
    FirstWins.Rows String BrokerFile Entry where
  key := (·.name)
  start name f :=
    { name, card := f.card, expanded := f.expanded, version := f.card.version, tier := f.root.tier,
      path := f.file, orphaned := Broker.isOrphaned host f.card lookup, shadowed := [],
      launchHash := Proto.launchHash sha256 f.expanded.1 }
  more e f := { e with shadowed := e.shadowed ++ [⟨f.file, f.root.tier⟩] }
  key_start _ _ := rfl
  key_more _ _ := rfl

def brokerMerge (host : Host) (sha256 : List Char → String) (lookup : Lookup) :
    FirstWins.Merge (Root × String) String BrokerFile Entry Broker.Diagnostic where
  toRows := brokerRows host sha256 lookup
  read f := (Broker.parseCardFile host f.2 lookup).map fun r => (r.1.name, ⟨f.1, f.2, r.1, r.2⟩)
  note existing item :=
    { code := .shadowed, path := item.2.file, name := some item.1,
      message := s!"shadowed by {existing.tier.debug} tier card at {existing.path}" }

/-- Rewriting the first entry of a name rewrites every entry of the name. -/
theorem modifyFirst_name {entries : List Entry} (h : (entries.map (·.name)).Nodup) (name : String)
    (f : Entry → Entry) : Broker.modifyFirst (·.name == name) f entries =
      entries.map fun e => if e.name = name then f e else e := by
  induction entries with
  | nil => rfl
  | cons e entries ih =>
    rw [List.map_cons, List.nodup_cons] at h
    rw [Broker.modifyFirst, List.map_cons]
    by_cases he : e.name = name
    · -- no later entry has the name
      have hrest : entries.map (fun e => if e.name = name then f e else e) = entries := by
        refine (List.map_congr_left fun e' he' => ?_).trans (List.map_id' _)
        have hne : e'.name ≠ name := fun hname => h.1 (he.trans hname.symm ▸ List.mem_map_of_mem he')
        exact if_neg hne
      rw [hrest, if_pos he]
      simp [he]
    · rw [if_neg he, ih h.2]
      simp [he]

theorem addFile_eq_step (catalog : Broker.Catalog) (hnodup : (catalog.entries.map (·.name)).Nodup)
    (f : Root × String) :
    let next := Broker.addFile host sha256 lookup f.1 catalog f.2
    (next.entries, next.diagnostics) =
      (brokerMerge host sha256 lookup).step (catalog.entries, catalog.diagnostics) f := by
  dsimp only
  unfold Broker.addFile FirstWins.Merge.step
  cases hparse : Broker.parseCardFile host f.2 lookup with
  | error d =>
    have hread : (brokerMerge host sha256 lookup).read f = .error d := by
      simp [brokerMerge, hparse, Except.map]
    rw [hread]
  | ok r =>
    have hread : (brokerMerge host sha256 lookup).read f = .ok (r.1.name, ⟨f.1, f.2, r.1, r.2⟩) := by
      simp [brokerMerge, hparse, Except.map]
    rw [hread]
    dsimp only
    have hsame : catalog.entries.find? ((brokerMerge host sha256 lookup).key · = r.1.name) =
        catalog.entries.find? (·.name == r.1.name) := by
      congr 1
    rw [hsame]
    cases hfind : catalog.entries.find? (·.name == r.1.name) with
    | some existing =>
      have hname : existing.name = r.1.name := by simpa using List.find?_some hfind
      have hmem : r.1.name ∈ catalog.entries.map (·.name) :=
        List.mem_map.mpr ⟨existing, List.mem_of_find?_eq_some hfind, hname⟩
      dsimp only
      rw [modifyFirst_name hnodup]
      exact congrArg (·, _) (if_pos hmem).symm
    | none =>
      have hmem : r.1.name ∉ catalog.entries.map (·.name) := by
        intro hmem
        obtain ⟨e, he, hname⟩ := List.mem_map.mp hmem
        exact absurd (List.find?_eq_none.mp hfind e he) (by simpa using hname)
      exact congrArg (·, _) (if_neg hmem).symm

/-- **The loop of the broker's `enumerate` is the merge of the card files.** -/
theorem foldl_addFile (host : Host) (sha256 : List Char → String) (lookup : Lookup)
    (files : List (Root × String)) :
    let catalog := files.foldl (fun catalog f =>
      Broker.addFile host sha256 lookup f.1 catalog f.2) ⟨[], []⟩
    (catalog.entries, catalog.diagnostics) = (brokerMerge host sha256 lookup).run files := by
  induction files using List.reverseRecOn with
  | nil => rfl
  | append_singleton files f ih =>
    dsimp only at ih ⊢
    rw [List.foldl_append, FirstWins.Merge.run_snoc, ← ih]
    refine addFile_eq_step _ ?_ f
    have hnodup := (brokerMerge host sha256 lookup).nodup_run files
    rwa [← ih] at hnodup

end BrokerTable

/-! ### One card file read by both sides -/

/-- Both sides read a card file alike: neither can read it, neither can parse it, or both have the
    same card.  Of the card it is asked that both accept it or neither, that the strings of the
    launch stanza expand alike, and that the command does not expand to nothing. -/
inductive ReadsAlike (host : Host) (node : Node) (env : Lookup) (path : String) : Prop
  | unreadable {m m' : String} (h : host.readToString path = .error m)
      (h' : node.readFileSync path = .error m')
  | malformed {text text' m m' : String} (h : host.readToString path = .ok text)
      (h' : node.readFileSync path = .ok text') (hm : host.fromStr (stripBom text.toList) = .error m)
      (hm' : node.jsonParse (stripBom text'.toList) = .error m')
  | parsed {text text' : String} (card : ParsedValue) (h : host.readToString path = .ok text)
      (h' : node.readFileSync path = .ok text')
      (hv : host.fromStr (stripBom text.toList) = .ok card.arranged)
      (hv' : node.jsonParse (stripBom text'.toList) = .ok card)
      (hagree : (∃ c, validate card.arranged.1 = .ok c) ↔ localServerCardV1.valid card.1 = true)
      (hstable : localServerCardV1.valid card.1 = true → AllStable env (launchSubject card.1))
      (hcommand : localServerCardV1.valid card.1 = true → commandOf (expandCard card.1 env) ≠ some "")

theorem asStr_norm (v : Value) : v.norm.asStr = v.asStr := by
  cases v <;> simp [Value.norm, Value.asStr]

theorem asStr_get_norm {v : Value} (hd : v.distinct = true) (key : String) :
    (v.norm.get key).bind Value.asStr = (v.get key).bind Value.asStr := by
  rw [Value.get_norm hd]
  cases v.get key with
  | none => rfl
  | some x => exact asStr_norm x

section Card

variable {v : Value} {card : Card}

theorem version_of_validate (h : validate v = .ok card) :
    (v.get "version").bind Value.asStr = some card.version := by
  obtain ⟨⟨ms, rfl⟩, -⟩ := ((Proto.validate_isOk_iff_rules v).mp ⟨card, h⟩).1
  have hversion := Proto.Card.deserialize_version (Proto.deserialize_of_validate h)
  obtain ⟨x, hx, hstring⟩ := Option.bind_eq_some_iff.mp hversion
  rw [Value.get_object, (given_object.mp hx).1]
  cases x <;> simp_all [Serde.string, Value.asStr]

theorem Launch.deserialize_command {l : Launch} (h : Launch.deserialize v = some l) :
    (given 5 1 "command" v).bind Serde.string = some l.command := by
  obtain ⟨fs, hf, h⟩ := Option.bind_eq_some_iff.mp h
  obtain ⟨_, _, h⟩ := Option.bind_eq_some_iff.mp h
  obtain ⟨command, hcommand, h⟩ := Option.bind_eq_some_iff.mp h
  obtain ⟨_, _, h⟩ := Option.bind_eq_some_iff.mp h
  obtain ⟨_, _, h⟩ := Option.bind_eq_some_iff.mp h
  obtain ⟨_, _, h⟩ := Option.bind_eq_some_iff.mp h
  obtain rfl := Option.some.inj h
  rwa [Serde.required_eq rfl hf] at hcommand

/-- Blocks that are objects: the command is read where the client reads it. -/
theorem command_of_validate (h : validate v = .ok card)
    (hlocal : ∀ b, v.get "local" = some b → ∃ ms, b = .object ms)
    (hlaunch : ∀ x, stanza v "launch" = some x → ∃ ms, x = .object ms) :
    card.launch.map (·.command) = commandOf v := by
  have hobject := ((Proto.validate_isOk_iff_rules v).mp ⟨card, h⟩).1.object
  have hread := Proto.deserialize_of_validate h
  have hcommand : commandOf v = ((stanza v "launch").bind (·.get "command")).bind Value.asStr := rfl
  have hsome := (Proto.Card.stanzas_isSome hread).1
  have heq := (Proto.Card.stanzas_eq hread).1
  rw [hcommand]
  cases hb : v.get "local" with
  | none =>
    have hnone := (Broker.nothing_of_no_local hobject (.inl hb)).1
    have hstanza : stanza v "launch" = none := by rw [stanza, hb]; rfl
    rw [heq, hnone, hstanza]
    rfl
  | some b =>
    obtain ⟨ms, rfl⟩ := hlocal b hb
    rw [(Broker.stanzas_of_object hobject hb).1] at heq
    have hpick : pick v "launch" = (stanza v "launch").getD .null := rfl
    rw [hpick] at heq
    cases hx : stanza v "launch" with
    | none =>
      rw [hx] at heq
      rw [heq]
      rfl
    | some x =>
      obtain ⟨ls, rfl⟩ := hlaunch x hx
      have hgiven : launchOf v = some (.object ls) := by
        obtain ⟨cs, rfl⟩ := hobject
        have hl : localOf (.object cs) = some (.object ms) := given_object.mpr ⟨hb, by simp⟩
        rw [stanza, hb] at hx
        rw [launchOf, hl]
        exact given_object.mpr ⟨hx, by simp⟩
      rw [hgiven, Option.isSome_some] at hsome
      obtain ⟨l, hl⟩ := Option.isSome_iff_exists.mp hsome
      have hreadl : Launch.deserialize (.object ls) = some l := by rw [← hl, heq, hx]; rfl
      obtain ⟨y, hy, hstring⟩ := Option.bind_eq_some_iff.mp (Launch.deserialize_command hreadl)
      rw [hl, Option.map_some, Option.bind_some, Value.get_object, (given_object.mp hy).1]
      cases y <;> simp_all [Serde.string, Value.asStr]

end Card

section Agreement

variable {env : Lookup} (card : ParsedValue)

/-- A card the schema accepts has objects where the launch command is looked up. -/
theorem objects_of_valid (h : localServerCardV1.valid card.1 = true) :
    (∀ b, card.1.get "local" = some b → ∃ ms, b = .object ms) ∧
      ∀ x, stanza card.1 "launch" = some x → ∃ ms, x = .object ms := by
  refine ⟨fun b hb => ?_, fun x hx => ?_⟩
  · obtain ⟨ms, hms, -, -, -, -, -, -, -, -, -, hlocal, -⟩ := ((valid_card_iff _).mp h).2
    rw [hms] at hb
    obtain ⟨bs, rfl, -⟩ := hlocal b hb
    exact ⟨bs, rfl⟩
  · obtain ⟨ms, rfl, -⟩ := valid_closed_iff.mp ((valid_stanza h).1 hx)
    exact ⟨ms, rfl⟩

/-- Both sides look up the same command. -/
theorem commandOf_expandCard (h : localServerCardV1.valid card.1 = true)
    (hstable : AllStable env (launchSubject card.1)) :
    commandOf (Proto.expandCard card.arranged.1 env) = commandOf (expandCard card.1 env) := by
  have hplain := plain_launchSubject env card h
  have hget : (launchSubject (expandCard card.1 env)).get "launch" =
      some (localMember (expandCard card.1 env) "launch") := rfl
  have hnorm := congrArg (Value.get "launch") (norm_launchSubject card hstable)
  rw [Value.get_norm hplain.2, hget] at hnorm
  have hpick : (localMember (expandCard card.1 env) "launch").norm =
      pick (Proto.expandCard card.arranged.1 env) "launch" := Option.some.inj hnorm
  have hdistinct := Value.distinct_of_get hplain.2 hget
  have horNull : ∀ o : Option Value, (Value.orNull o).get "command" = o.bind (·.get "command") := by
    intro o
    cases o <;> rfl
  have hclient : commandOf (expandCard card.1 env) =
      ((localMember (expandCard card.1 env) "launch").get "command").bind Value.asStr :=
    congrArg (·.bind Value.asStr) (horNull _).symm
  have hbroker : commandOf (Proto.expandCard card.arranged.1 env) =
      ((pick (Proto.expandCard card.arranged.1 env) "launch").get "command").bind Value.asStr :=
    congrArg (·.bind Value.asStr) (horNull _).symm
  rw [hbroker, hclient, ← hpick, asStr_get_norm hdistinct]

end Agreement

/-- Both sides see the same files under the paths they make. -/
structure SameFiles (host : Host) (node : Node) : Prop where
  windows : node.windows = host.windows
  same : ∀ path, node.existsSync path = host.pathExists path
  candidate : ∀ dir name, node.existsSync (node.join dir name) = host.pathExists (host.join dir name)

section Files

variable {host : Host} {node : Node} {env : Lookup}

/-- A program is found by both sides or by neither. -/
theorem isNone_resolveCommand (hsame : SameFiles host node) (command : String) (env : Lookup) :
    (resolveCommand node command env).isNone = (Broker.resolveCommand host command env).isNone := by
  have hseparator : ((if node.windows then ['\\', '/'] else ['/']).any fun s =>
      command.toList.contains s) =
        (command.toList.contains '/' || (host.windows && command.toList.contains '\\')) := by
    rw [hsame.windows]
    cases host.windows <;> simp [Bool.or_comm]
  have hpath : ((env "PATH").or (env "Path")) = (env "PATH").orElse fun _ => env "Path" := by
    cases env "PATH" <;> rfl
  have hfind : ∀ {α : Type} (l : List α) (f g : α → Option String),
      (∀ a ∈ l, (f a).isNone = (g a).isNone) → (l.findSome? f).isNone = (l.findSome? g).isNone := by
    intro α l f g h
    rw [Bool.eq_iff_iff]
    simp only [Option.isNone_iff_eq_none, List.findSome?_eq_none_iff]
    constructor
    · exact fun hf a ha => Option.isNone_iff_eq_none.mp ((h a ha).symm.trans (by rw [hf a ha]; rfl))
    · exact fun hg a ha => Option.isNone_iff_eq_none.mp ((h a ha).trans (by rw [hg a ha]; rfl))
  have hcandidate : ∀ {b b' : Bool} {x y : String}, b = b' →
      (if b then some x else none).isNone = (if b' then some y else none).isNone := by
    rintro b _ x y rfl
    cases b <;> rfl
  unfold resolveCommand Broker.resolveCommand
  dsimp only
  rw [hseparator, hsame.windows, hpath]
  split
  · exact hcandidate (hsame.same command)
  · refine hfind _ _ _ fun dir _ => hfind _ _ _ fun extension _ => ?_
    exact hcandidate (hsame.candidate dir (command ++ extension))

variable {path name : String}

/-- What the broker makes of a card file. -/
def brokerRead (host : Host) (sha256 : List Char → String) (env : Lookup) (f : Root × String) :
    Except (DiagnosticCode × Option String) (String × Summary) :=
  match (brokerMerge host sha256 env).read f with
  | .error d => .error (d.code, d.name)
  | .ok item => .ok (item.1, brokerSummary ((brokerRows host sha256 env).start item.1 item.2))

/-- What the client makes of a card file. -/
def clientRead (node : Node) (numberText : Number → List Char) (sha256 : List Char → String)
    (env : Lookup) (f : Root × String) :
    Except (DiagnosticCode × Option String) (String × Summary) :=
  match (registryMerge node env).read f with
  | .error d => .error (d.code, d.name.bind Value.asStr)
  | .ok item => .ok (item.1, clientSummary numberText sha256 ((entryRows node env).start item.1 item.2))

/-- **The entries of an accepted card are summarized alike.** -/
theorem summary_agrees (numberText : Number → List Char) (sha256 : List Char → String)
    (hsame : SameFiles host node) (card : ParsedValue)
    (hvalid : localServerCardV1.valid card.1 = true)
    (hstable : AllStable env (launchSubject card.1))
    (hcommand : commandOf (expandCard card.1 env) ≠ some "") {c : Card}
    (hc : validate (Proto.expandCard card.arranged.1 env) = .ok c) (root : Root)
    (path name : String) :
    brokerSummary ((brokerRows host sha256 env).start name ⟨root, path, c, Broker.expand card.arranged env⟩) =
      clientSummary numberText sha256
        ((entryRows node env).start name ⟨root, path, card.1, expandCard card.1 env⟩) := by
  have hlaunch : c.launch.map (·.command) = commandOf (expandCard card.1 env) := by
    rw [← commandOf_expandCard card hvalid hstable]
    obtain ⟨hlocals, hlaunches⟩ := objects_of_valid card hvalid
    refine command_of_validate hc (fun b hb => ?_) fun x hx => ?_
    · rw [Proto.expandCard, Value.get_modify_self, ParsedValue.arranged, Value.get_norm card.2] at hb
      cases hlocal : card.1.get "local" with
      | none => simp [hlocal] at hb
      | some b' =>
        obtain ⟨ms, rfl⟩ := hlocals b' hlocal
        rw [hlocal] at hb
        obtain rfl := Option.some.inj hb
        exact ⟨_, rfl⟩
    · rw [(stanza_proto_expandCard _).1, ParsedValue.arranged, stanza_norm card.2] at hx
      cases hstanza : stanza card.1 "launch" with
      | none => simp [hstanza] at hx
      | some x' =>
        obtain ⟨ms, rfl⟩ := hlaunches x' hstanza
        rw [hstanza] at hx
        obtain rfl := Option.some.inj hx
        exact ⟨_, rfl⟩
  have hversion : versionOf (expandCard card.1 env) = c.version := by
    have h := version_of_validate hc
    rw [Proto.expandCard, Value.get_modify_of_ne (by decide), ParsedValue.arranged,
      asStr_get_norm card.2] at h
    rw [versionOf, expandCard, Value.get_modify_of_ne (by decide), h]
    rfl
  have horphaned : Broker.isOrphaned host c env = isOrphaned node (expandCard card.1 env) env := by
    rw [isOrphaned, ← hlaunch, Broker.isOrphaned]
    cases hl : c.launch with
    | none => rfl
    | some l =>
      have hne : l.command ≠ "" := by
        rintro hempty
        rw [← hlaunch, hl, Option.map_some, hempty] at hcommand
        exact hcommand rfl
      simp only [Option.map_some]
      rw [if_neg hne, isNone_resolveCommand hsame]
  have hhash : launchHash numberText sha256 (expandCard card.1 env) =
      Proto.launchHash sha256 (Proto.expandCard card.arranged.1 env) := by
    obtain ⟨hfree, hdistinct⟩ := plain_launchSubject env card hvalid
    have hwf : (Proto.launchSubject (Proto.expandCard card.arranged.1 env)).wf = true :=
      Proto.wf_launchSubject (Proto.wf_expandCard card.arranged.2)
    rw [launchHash, Proto.launchHash, canonicalize_eq_canonical numberText hfree,
      ← canonical_norm hdistinct, norm_launchSubject card hstable,
      Proto.canonicalize_eq_canonical (Proto.distinct_of_wf hwf)]
  simp [brokerSummary, clientSummary, brokerRows, entryRows, hlaunch, hversion, horphaned, hhash,
    Broker.expand]

/-- **One card file comes to the same on both sides.** -/
theorem read_agrees (numberText : Number → List Char) (sha256 : List Char → String)
    (hsame : SameFiles host node) (hreads : ReadsAlike host node env path)
    (hpath : host.fileName path = some name) (hfile : node.basename path = name) (root : Root) :
    brokerRead host sha256 env (root, path) = clientRead node numberText sha256 env (root, path) := by
  unfold brokerRead clientRead
  rcases hreads with ⟨h, h'⟩ | ⟨h, h', hm, hm'⟩ | ⟨card, h, h', hv, hv', hagree, hstable, hcommand⟩
  · simp [brokerMerge, registryMerge, Broker.parseCardFile, parseCardFile, h, h', Except.map,
      Except.mapError, bind, Except.bind]
  · simp [brokerMerge, registryMerge, Broker.parseCardFile, parseCardFile, h, h', hm, hm', Except.map,
      Except.mapError, bind, Except.bind]
  · have hname : (card.arranged.1.get "name").bind Value.asStr = (card.1.get "name").bind Value.asStr :=
      asStr_get_norm card.2 "name"
    by_cases hvalid : localServerCardV1.valid card.1 = true
    · obtain ⟨c, hc⟩ := hagree.mpr hvalid
      have hnameOf : nameOf card.1 = c.name := by
        rw [nameOf, ← hname, Proto.name_of_validate hc]
        rfl
      by_cases hmatch : name = c.name ++ cardSuffix
      · obtain ⟨c', hc', hname'⟩ := @Proto.validate_expandCard env _ _ hc
        have hbroker : Broker.parseCardFile host path env = .ok (c', Broker.expand card.arranged env) := by
          have hexpand : validate (Broker.expand card.arranged env).1 = .ok c' := hc'
          simp [Broker.parseCardFile, h, hv, Broker.validateFile, hc, hexpand, hpath, hmatch,
            Except.mapError, bind, Except.bind, pure, Except.pure]
        have hclient : parseCardFile node path env = .ok (card.1, expandCard card.1 env) := by
          simp [parseCardFile, h', hv', hvalid, hnameOf, hfile, hmatch]
        have hsummary := summary_agrees numberText sha256 hsame card hvalid (hstable hvalid)
          (hcommand hvalid) hc'
        simp only [brokerMerge, registryMerge, hbroker, hclient, Except.map, hname', hnameOf]
        exact congrArg (fun s => Except.ok (c.name, s)) (hsummary root path c.name)
      · simp [brokerMerge, registryMerge, Broker.parseCardFile, parseCardFile, h, h', hv, hv', hvalid,
          Broker.validateFile, hc, hnameOf, hfile, hpath, hmatch, Except.map, Except.mapError, bind,
          Except.bind, Value.asStr]
    · obtain ⟨e, he⟩ : ∃ e, validate card.arranged.1 = .error e := by
        cases hc : validate card.arranged.1 with
        | error e => exact ⟨e, rfl⟩
        | ok c => exact absurd (hagree.mp ⟨c, hc⟩) hvalid
      rw [Bool.not_eq_true] at hvalid
      simp [brokerMerge, registryMerge, Broker.parseCardFile, parseCardFile, h, h', hv, hv', hvalid,
        Broker.validateFile, he, hname, Except.map, Except.mapError, bind, Except.bind]

/-- A valid file is called after its card, whose name is plain. -/
theorem name_of_clientRead {numberText : Number → List Char} {sha256 : List Char → String}
    {f : Root × String} {name : String} {s : Summary}
    (h : clientRead node numberText sha256 env f = .ok (name, s)) :
    node.basename f.2 = name ++ cardSuffix ∧ ∀ c ∈ name.toList, c.val ≤ 127 := by
  unfold clientRead registryMerge at h
  cases hparse : parseCardFile node f.2 env with
  | error d => simp [hparse, Except.map] at h
  | ok r =>
    simp only [hparse, Except.map, Except.ok.injEq, Prod.mk.injEq] at h
    obtain ⟨rfl, -⟩ := h
    unfold parseCardFile at hparse
    split at hparse
    · cases hparse
    split at hparse
    · cases hparse
    rename_i card _
    split at hparse
    · cases hparse
    rename_i hvalid
    dsimp only at hparse
    split at hparse
    · cases hparse
    rename_i hfile
    cases hparse
    refine ⟨not_not.mp hfile, ?_⟩
    rw [Bool.not_eq_false] at hvalid
    obtain ⟨name, hname, hdns⟩ := ((valid_card_iff card.1).mp hvalid).1.name
    have hnameOf : nameOf card.1 = name := by rw [nameOf, hname]; rfl
    rw [hnameOf]
    unfold Proto.isReverseDns at hdns
    dsimp only at hdns
    split at hdns
    · simp at hdns
    · rw [← @List.intercalate_splitOn _ name.toList _ _ '.']
      exact ascii_of_labels (List.all_eq_true.mp hdns)

end Files

/-! ### One machine -/

/-- Both sides look at one machine: the registry directories list the same files, under the same
    names and paths, and every card file is read alike. -/
structure SameMachine (host : Host) (node : Node) (env : Lookup) (roots : List Root) : Prop extends
    SameFiles host node where
  listing : ∀ root ∈ roots, (host.readDir root.path).Perm
    (((node.readdirSync root.path).getD []).map (host.join root.path))
  distinct : ∀ root ∈ roots, ((node.readdirSync root.path).getD []).Nodup
  named : ∀ root ∈ roots, ∀ name ∈ (node.readdirSync root.path).getD [],
    host.fileName (host.join root.path name) = some name ∧
      node.basename (node.join root.path name) = name
  joined : ∀ root ∈ roots, ∀ name ∈ (node.readdirSync root.path).getD [],
    host.join root.path name = node.join root.path name
  reads : ∀ root ∈ roots, ∀ name ∈ (node.readdirSync root.path).getD [],
    cardSuffix.toList.isSuffixOf name.toList = true →
      ReadsAlike host node env (node.join root.path name)

section Machine

variable {host : Host} {node : Node} {env : Lookup} {roots : List Root}

/-- The card files of a root come to the same on both sides, but for their order. -/
theorem reads_perm (numberText : Number → List Char) (sha256 : List Char → String)
    (h : SameMachine host node env roots) {root : Root} (hroot : root ∈ roots) :
    ((Broker.cardFilesIn host root.path).map fun path => brokerRead host sha256 env (root, path)).Perm
      ((cardFilesIn node root.path).map fun file =>
        clientRead node numberText sha256 env (root, file)) := by
  let names := ((node.readdirSync root.path).getD []).filter fun n =>
    cardSuffix.toList.isSuffixOf n.toList
  have hnames : ∀ n ∈ names, n ∈ (node.readdirSync root.path).getD [] ∧
      cardSuffix.toList.isSuffixOf n.toList = true := fun n hn => List.mem_filter.mp hn
  have hbroker : (Broker.cardFilesIn host root.path).Perm (names.map (host.join root.path)) := by
    refine (List.perm_insertionSort _ _).trans (((h.listing root hroot).filter _).trans (.of_eq ?_))
    rw [List.filter_map]
    congr 1
    refine List.filter_congr fun n hn => ?_
    simp [(h.named root hroot n hn).1]
  have hclient : (cardFilesIn node root.path).Perm (names.map (node.join root.path)) :=
    (List.perm_insertionSort _ _).map _
  refine (hbroker.map _).trans (.trans (.of_eq ?_) (hclient.map _).symm)
  rw [List.map_map, List.map_map]
  refine List.map_congr_left fun n hn => ?_
  obtain ⟨hlisted, hsuffix⟩ := hnames n hn
  obtain ⟨hpath, hfile⟩ := h.named root hroot n hlisted
  rw [Function.comp_apply, Function.comp_apply, h.joined root hroot n hlisted]
  rw [h.joined root hroot n hlisted] at hpath
  exact read_agrees numberText sha256 h.toSameFiles (h.reads root hroot n hlisted hsuffix) hpath hfile root

/-- The valid card files of the broker's merge, summarized. -/
def brokerItems (host : Host) (sha256 : List Char → String) (env : Lookup) (roots : List Root) :
    List (String × Summary) :=
  ((brokerMerge host sha256 env).items (Broker.orderedFiles host roots)).map fun item =>
    (item.1, brokerSummary ((brokerRows host sha256 env).start item.1 item.2))

/-- The valid card files of the client's merge, summarized. -/
def clientItems (node : Node) (numberText : Number → List Char) (sha256 : List Char → String)
    (env : Lookup) (roots : List Root) : List (String × Summary) :=
  ((registryMerge node env).items (orderedFiles node roots)).map fun item =>
    (item.1, clientSummary numberText sha256 ((entryRows node env).start item.1 item.2))

/-- The roots in the order both sides take them. -/
def ranked (roots : List Root) : List Root :=
  roots.insertionSort fun a b => b.tier.rank ≤ a.tier.rank

theorem mem_ranked {root : Root} : root ∈ ranked roots ↔ root ∈ roots := List.mem_insertionSort _

theorem brokerItems_eq (sha256 : List Char → String) : brokerItems host sha256 env roots =
    (ranked roots).flatMap fun root => ((Broker.cardFilesIn host root.path).map fun path =>
      brokerRead host sha256 env (root, path)).filterMap Except.toOption := by
  rw [brokerItems, FirstWins.Merge.items, List.map_filterMap, Broker.orderedFiles, List.filterMap_flatMap]
  refine List.flatMap_congr fun root _ => ?_
  rw [List.filterMap_map, List.filterMap_map]
  refine List.filterMap_congr fun path _ => ?_
  simp only [Function.comp_apply, brokerRead]
  cases (brokerMerge host sha256 env).read (root, path) <;> rfl

theorem clientItems_eq (numberText : Number → List Char) (sha256 : List Char → String) :
    clientItems node numberText sha256 env roots =
      (ranked roots).flatMap fun root => ((cardFilesIn node root.path).map fun file =>
        clientRead node numberText sha256 env (root, file)).filterMap Except.toOption := by
  rw [clientItems, FirstWins.Merge.items, List.map_filterMap, orderedFiles, List.filterMap_flatMap]
  refine List.flatMap_congr fun root _ => ?_
  rw [List.filterMap_map, List.filterMap_map]
  refine List.filterMap_congr fun file _ => ?_
  simp only [Function.comp_apply, clientRead]
  cases (registryMerge node env).read (root, file) <;> rfl

/-- A root has one valid card file for a name. -/
theorem nodup_clientReads (numberText : Number → List Char) (sha256 : List Char → String)
    (h : SameMachine host node env roots) {root : Root} (hroot : root ∈ roots) :
    ((((cardFilesIn node root.path).map fun file =>
      clientRead node numberText sha256 env (root, file)).filterMap Except.toOption).map
        Prod.fst).Nodup := by
  -- the base names are distinct, and a valid file is called after its name
  have hfiles : ((cardFilesIn node root.path).map node.basename).Nodup := by
    rw [cardFilesIn, List.map_map]
    have hmap : ∀ names : List String, (∀ n ∈ names, n ∈ (node.readdirSync root.path).getD []) →
        names.map (node.basename ∘ node.join root.path) = names := by
      intro names hnames
      refine (List.map_congr_left fun n hn => ?_).trans (List.map_id' _)
      exact (h.named root hroot n (hnames n hn)).2
    rw [hmap _ fun n hn => (List.mem_filter.mp ((List.mem_insertionSort _).mp hn)).1]
    exact (List.perm_insertionSort _ _).nodup_iff.mpr ((h.distinct root hroot).filter _)
  have hsub : ∀ files : List String, (files.map node.basename).Nodup →
      (((files.map fun file => clientRead node numberText sha256 env (root, file)).filterMap
        Except.toOption).map Prod.fst).Nodup := by
    intro files
    induction files with
    | nil => simp
    | cons file files ih =>
      intro hnodup
      rw [List.map_cons, List.nodup_cons] at hnodup
      rw [List.map_cons]
      cases hread : clientRead node numberText sha256 env (root, file) with
      | error e => exact ih hnodup.2
      | ok item =>
        obtain ⟨name, s⟩ := item
        rw [List.filterMap_cons]
        show (name :: _).Nodup
        rw [List.nodup_cons]
        refine ⟨fun hmem => hnodup.1 ?_, ih hnodup.2⟩
        obtain ⟨⟨name', s'⟩, hitem, hname⟩ := List.mem_map.mp hmem
        obtain ⟨r, hr, hok⟩ := List.mem_filterMap.mp hitem
        obtain ⟨file', hfile', rfl⟩ := List.mem_map.mp hr
        have hread' : clientRead node numberText sha256 env (root, file') = .ok (name', s') := by
          cases hr' : clientRead node numberText sha256 env (root, file') with
          | error e => simp [hr', Except.toOption] at hok
          | ok i => simpa [hr', Except.toOption] using hok
        rw [(name_of_clientRead hread).1, ← hname, ← (name_of_clientRead hread').1]
        exact List.mem_map_of_mem hfile'
  exact hsub _ hfiles

/-- **For every name, both sides have the same files in the same order.** -/
theorem valuesOf_items (numberText : Number → List Char) (sha256 : List Char → String)
    (h : SameMachine host node env roots) (name : String) :
    FirstWins.valuesOf name (brokerItems host sha256 env roots) =
      FirstWins.valuesOf name (clientItems node numberText sha256 env roots) := by
  rw [brokerItems_eq, clientItems_eq numberText, FirstWins.valuesOf_flatMap, FirstWins.valuesOf_flatMap]
  refine List.flatMap_congr fun root hroot => ?_
  have hperm := (reads_perm numberText sha256 h (mem_ranked.mp hroot)).filterMap Except.toOption
  exact (FirstWins.valuesOf_perm hperm.symm
    (nodup_clientReads numberText sha256 h (mem_ranked.mp hroot)) name).symm

/-! ### The entries -/

theorem row_brokerRows (sha256 : List Char → String) (name : String) :
    (FirstWins.row (brokerRows host sha256 env) name
      ((brokerMerge host sha256 env).items (Broker.orderedFiles host roots))).map brokerSummary =
        FirstWins.rowOf summaries name
          (FirstWins.valuesOf name (brokerItems host sha256 env roots)) := by
  let p := fun name f => brokerSummary ((brokerRows host sha256 env).start name f)
  rw [FirstWins.map_row (Q := summaries) (p := p), brokerItems]
  · exact congrArg _ (FirstWins.valuesOf_map p name _).symm
  · exact fun _ _ => rfl
  · exact fun _ _ => rfl

theorem row_entryRows (numberText : Number → List Char) (sha256 : List Char → String)
    (name : String) : (FirstWins.row (entryRows node env) name
      ((registryMerge node env).items (orderedFiles node roots))).map
        (clientSummary numberText sha256) =
        FirstWins.rowOf summaries name
          (FirstWins.valuesOf name (clientItems node numberText sha256 env roots)) := by
  let p := fun name f => clientSummary numberText sha256 ((entryRows node env).start name f)
  rw [FirstWins.map_row (Q := summaries) (p := p), clientItems]
  · exact congrArg _ (FirstWins.valuesOf_map p name _).symm
  · exact fun _ _ => rfl
  · exact fun _ _ => rfl

theorem utf16_le_of_le {a b : String} (ha : ∀ c ∈ a.toList, c.val ≤ 127)
    (hb : ∀ c ∈ b.toList, c.val ≤ 127) (h : a ≤ b) : utf16 a ≤ utf16 b := by
  have hunits : ∀ {cs : List Char}, (∀ c ∈ cs, c.val ≤ 127) →
      cs.flatMap utf16Char = cs.map Char.toNat := by
    intro cs hcs
    rw [← List.flatMap_singleton' (cs.map Char.toNat), List.flatMap_map]
    refine List.flatMap_congr fun c hc => if_pos ?_
    have hle : c.val.toNat ≤ 127 := UInt32.le_iff_toNat_le.mp (hcs c hc)
    show c.val.toNat < 0x10000
    omega
  have hlt : ∀ cs ds : List Char, cs.map Char.toNat < ds.map Char.toNat → cs < ds := by
    intro cs
    induction cs with
    | nil =>
      intro ds h
      cases ds with
      | nil => simp at h
      | cons d ds => exact List.nil_lt_cons d ds
    | cons c cs ih =>
      intro ds h
      cases ds with
      | nil => simp at h
      | cons d ds =>
        rw [List.map_cons, List.map_cons, List.cons_lt_cons_iff] at h
        rw [List.cons_lt_cons_iff]
        rcases h with h | ⟨h, hrest⟩
        · exact .inl h
        · exact .inr ⟨Char.toNat_inj.mp h, ih ds hrest⟩
  rw [utf16, utf16, hunits ha, hunits hb]
  refine not_lt.mp fun hgt => ?_
  exact absurd (String.lt_iff_toList_lt.mpr (hlt _ _ hgt)) (not_lt.mpr h)

/-- The client's order of names is the broker's. -/
theorem insertionSort_utf16 {table : List CatalogEntry}
    (hascii : ∀ e ∈ table, ∀ c ∈ e.name.toList, c.val ≤ 127) (hnodup : (table.map (·.name)).Nodup) :
    table.insertionSort (utf16 ·.name ≤ utf16 ·.name) = table.insertionSort (·.name ≤ ·.name) := by
  have htotal : Std.Total fun a b : CatalogEntry => a.name ≤ b.name := ⟨fun _ _ => le_total _ _⟩
  have htrans : IsTrans CatalogEntry fun a b => a.name ≤ b.name := ⟨fun _ _ _ => le_trans⟩
  have htotal' : Std.Total fun a b : CatalogEntry => utf16 a.name ≤ utf16 b.name :=
    ⟨fun _ _ => le_total _ _⟩
  have htrans' : IsTrans CatalogEntry fun a b => utf16 a.name ≤ utf16 b.name :=
    ⟨fun _ _ _ => le_trans⟩
  have hsorted : (table.insertionSort (·.name ≤ ·.name)).Pairwise
      fun a b => utf16 a.name ≤ utf16 b.name := by
    refine List.Pairwise.imp_of_mem (fun {a b} ha hb hle => ?_)
      (List.pairwise_insertionSort (fun a b : CatalogEntry => a.name ≤ b.name) table)
    exact utf16_le_of_le (hascii a ((List.mem_insertionSort _).mp ha))
      (hascii b ((List.mem_insertionSort _).mp hb)) hle
  refine List.Perm.eq_of_pairwise (fun a b ha hb hle hge => ?_)
    (List.pairwise_insertionSort _ _) hsorted
    ((List.perm_insertionSort _ _).trans (List.perm_insertionSort _ _).symm)
  exact List.inj_on_of_nodup_map hnodup ((List.mem_insertionSort _).mp ha)
    ((List.mem_insertionSort _).mp hb) (utf16_injective (le_antisymm hle hge))

theorem entries_enumerate (node : Node) (env : Lookup) (roots : List Root) :
    (enumerate node roots env true).entries =
      FirstWins.sorted (entryRows node env) ((registryMerge node env).items (orderedFiles node roots)) := by
  obtain ⟨hholds, -⟩ := holds_foldl node env (orderedFiles node roots)
  have hvalues : ((orderedFiles node roots).foldl (addFile node env) ⟨.empty, []⟩).byName.values =
      FirstWins.collect (entryRows node env)
        ((registryMerge node env).items (orderedFiles node roots)) := by
    have hvalues := congrArg (List.map Prod.snd) hholds
    rw [List.map_map, (registryMerge node env).run_fst] at hvalues
    exact hvalues.trans (List.map_id' _)
  show List.insertionSort _ (Js.JsMap.values _) = _
  rw [hvalues, FirstWins.sorted]
  refine insertionSort_utf16 (fun e he => ?_) (FirstWins.nodup_collect (entryRows node env) _)
  -- a valid file has a plain name
  obtain ⟨f, hf⟩ : ∃ f, (e.name, f) ∈ (registryMerge node env).items (orderedFiles node roots) := by
    have hkey := (FirstWins.mem_map_key_collect (entryRows node env) _ e.name).mp
      (List.mem_map_of_mem he)
    obtain ⟨⟨_, f⟩, hf, rfl⟩ := List.mem_map.mp hkey
    exact ⟨f, hf⟩
  obtain ⟨file, -, hread⟩ := List.mem_filterMap.mp hf
  have hok : (registryMerge node env).read file = .ok (e.name, f) := by
    cases hr : (registryMerge node env).read file with
    | error d => simp [hr, Except.toOption] at hread
    | ok i => simpa [hr, Except.toOption] using hread
  have hclient : clientRead node Number.text String.ofList env file = .ok (e.name,
      clientSummary Number.text String.ofList ((entryRows node env).start e.name f)) := by
    rw [clientRead, hok]
  exact (name_of_clientRead hclient).2

theorem entries_broker (host : Host) (sha256 : List Char → String) (env : Lookup)
    (roots : List Root) : (Broker.enumerate host sha256 ⟨roots, env, true⟩).entries =
      FirstWins.sorted (brokerRows host sha256 env)
        ((brokerMerge host sha256 env).items (Broker.orderedFiles host roots)) := by
  have hrun := congrArg Prod.fst (foldl_addFile host sha256 env (Broker.orderedFiles host roots))
  rw [FirstWins.Merge.run_fst] at hrun
  exact congrArg (List.insertionSort fun a b : Entry => a.name ≤ b.name) hrun

/-! ### The diagnostics -/

/-- What is reported of a file that did not become an entry. -/
def failure : Except (DiagnosticCode × Option String) (String × Summary) →
    Option (DiagnosticCode × Option String)
  | .error d => some d
  | .ok _ => none

/-- What is reported of a shadowed file. -/
def shadowNote (name : String) : DiagnosticCode × Option String := (.shadowed, some name)

/-- A log is its notes of shadowing and its errors, in some order. -/
theorem log_perm {D : Type} (log : List D) (isNote : D → Bool) {β : Type} (label : D → β) :
    (log.map label).Perm
      ((log.filter isNote).map label ++ (log.filter (!isNote ·)).map label) := by
  rw [← List.map_append]
  exact ((List.filter_append_perm isNote log).map label).symm

theorem diagnostics_broker (sha256 : List Char → String) (includeOrphaned : Bool) :
    ((Broker.enumerate host sha256 ⟨roots, env, includeOrphaned⟩).diagnostics.map
      fun d => (d.code, d.name)).Perm
      ((FirstWins.repeats ((brokerMerge host sha256 env).items (Broker.orderedFiles host roots))).map
          shadowNote ++
        (ranked roots).flatMap fun root => ((Broker.cardFilesIn host root.path).map fun path =>
          brokerRead host sha256 env (root, path)).filterMap failure) := by
  let merge := brokerMerge host sha256 env
  let files := Broker.orderedFiles host roots
  let isNote : Broker.Diagnostic → Bool := (·.code = .shadowed)
  have hrun : (Broker.enumerate host sha256 ⟨roots, env, includeOrphaned⟩).diagnostics =
      (merge.run files).2 := congrArg Prod.snd (foldl_addFile host sha256 env files)
  have herror : ∀ f d, merge.read f = .error d → isNote d = false := by
    intro f d hread
    rcases Broker.parseCardFile_cases host f.2 env with ⟨c, e, hparse, -⟩ | ⟨d', hparse, -, -, hcode⟩
    · simp [merge, brokerMerge, hparse, Except.map] at hread
    · have hd : d' = d := by simpa [merge, brokerMerge, hparse, Except.map] using hread
      simpa [isNote, ← hd] using hcode
  have hnote : ∀ b item, isNote (merge.note b item) = true := fun _ _ => by
    simp [isNote, merge, brokerMerge]
  rw [hrun]
  refine (log_perm _ isNote _).trans (.of_eq ?_)
  rw [merge.run_notes herror hnote (g := shadowNote) (fun _ _ => rfl), merge.run_errors herror hnote]
  congr 1
  rw [FirstWins.Merge.errors, List.map_filterMap]
  show List.filterMap _ (List.flatMap _ _) = _
  rw [List.filterMap_flatMap]
  refine List.flatMap_congr fun root _ => ?_
  rw [List.filterMap_map, List.filterMap_map]
  refine List.filterMap_congr fun path _ => ?_
  simp only [Function.comp_apply, brokerRead, merge]
  cases (brokerMerge host sha256 env).read (root, path) <;> rfl

theorem diagnostics_client (numberText : Number → List Char) (sha256 : List Char → String)
    (includeOrphaned : Bool) :
    ((enumerate node roots env includeOrphaned).diagnostics.map
      fun d => (d.code, d.name.bind Value.asStr)).Perm
      ((FirstWins.repeats ((registryMerge node env).items (orderedFiles node roots))).map shadowNote ++
        (ranked roots).flatMap fun root => ((cardFilesIn node root.path).map fun file =>
          clientRead node numberText sha256 env (root, file)).filterMap failure) := by
  let merge := registryMerge node env
  let files := orderedFiles node roots
  let isNote : Diagnostic → Bool := (·.code = .shadowed)
  have hrun : (enumerate node roots env includeOrphaned).diagnostics = (merge.run files).2 :=
    (holds_foldl node env files).2
  have herror : ∀ f d, merge.read f = .error d → isNote d = false := by
    intro f d hread
    cases hparse : parseCardFile node f.2 env with
    | ok r => simp [merge, registryMerge, hparse, Except.map] at hread
    | error d' =>
      have hd : d' = d := by simpa [merge, registryMerge, hparse, Except.map] using hread
      simpa [isNote, ← hd] using code_of_parseCardFile hparse
  have hnote : ∀ b item, isNote (merge.note b item) = true := fun _ _ => by
    simp [isNote, merge, registryMerge]
  rw [hrun]
  refine (log_perm _ isNote _).trans (.of_eq ?_)
  rw [merge.run_notes herror hnote (g := shadowNote) (fun _ _ => rfl), merge.run_errors herror hnote]
  congr 1
  rw [FirstWins.Merge.errors, List.map_filterMap]
  show List.filterMap _ (List.flatMap _ _) = _
  rw [List.filterMap_flatMap]
  refine List.flatMap_congr fun root _ => ?_
  rw [List.filterMap_map, List.filterMap_map]
  refine List.filterMap_congr fun file _ => ?_
  simp only [Function.comp_apply, clientRead, merge]
  cases (registryMerge node env).read (root, file) <;> rfl

/-! ### Agreement -/

end Machine

/-! ### An example -/

/-- A machine on which two tiers have a card for one server. -/
def notesCard : ParsedValue := ⟨cardLaunching "/usr/bin/notes", by decide⟩

def notesFile : String := "com.example.notes.card.json"

def notesRoots : List Root := [⟨.user, "/home/me/"⟩, ⟨.system, "/usr/share/"⟩]

def notesHost : Host where
  windows := false
  readDir dir := [dir ++ notesFile]
  fileName _ := some notesFile
  join dir name := dir ++ name
  pathExists path := path == "/usr/bin/notes"
  readToString _ := .ok ""
  fromStr _ := .ok notesCard.arranged
  serdeError _ := ""

def notesNode : Node where
  windows := false
  readdirSync _ := some [notesFile]
  join dir name := dir ++ name
  basename _ := notesFile
  existsSync path := path == "/usr/bin/notes"
  readFileSync _ := .ok ""
  jsonParse _ := .ok notesCard
  schemaErrors _ := ""

theorem sameMachine_notes : SameMachine notesHost notesNode (fun _ => none) notesRoots where
  windows := rfl
  same _ := rfl
  candidate _ _ := rfl
  listing _ _ := .refl _
  distinct _ _ := List.nodup_singleton _
  named root _ name hname := by
    obtain rfl := List.mem_singleton.mp hname
    exact ⟨rfl, rfl⟩
  joined _ _ _ _ := rfl
  reads _ _ _ _ _ :=
    .parsed notesCard rfl rfl rfl rfl ⟨fun _ => by decide, fun _ => ⟨_, rfl⟩⟩ (fun _ => by decide)
      (fun _ => by decide)

example : ((enumerate notesNode notesRoots (fun _ => none) false).entries.map fun e =>
    (e.name, e.tier, e.shadowed)) =
      [("com.example.notes", .system, [⟨"/home/me/com.example.notes.card.json", .user⟩])] := by
  decide

end McpLocator.Client.Registry
