import McpLocator.Broker.Catalog
import McpLocator.Lib.StableSort
import McpLocator.Proto.ExpandRules
import Mathlib.Data.List.Induction

namespace McpLocator.Broker

open McpLocator.Json McpLocator.Proto

/-!
# The merged catalog

* `validName` — the name of a card file that can be read, parses, validates and is called after its
  name; `parseCardFile_ok`, `parseCardFile_error` — those are the files that become entries.
* `precedence` — the roots in order of rank; `orderedFiles_eq`.
* `Merged` — what a catalog says about the files merged so far; every file keeps it
  (`Merged.addFile`).
* `Entry.ReadFrom` — an entry is what its card file holds.
* `catalog_accounts` — every card file is an entry, a shadowed file with its diagnostic, or an error.
-/

/-! ### Valid card files -/

/-- The name of a valid card file: it can be read, it is JSON, it is a card, and the file is called
    after the card. -/
def validName (host : Host) (file : String) : Option String :=
  match host.readToString file with
  | .error _ => none
  | .ok text =>
    match host.fromStr (stripBom text.toList) with
    | .error _ => none
    | .ok value =>
      match validate value.1 with
      | .error _ => none
      | .ok card => if host.fileName file = some (card.name ++ cardSuffix) then some card.name else none

section Parse

variable {host : Host} {file : String} {lookup : Lookup}

theorem fileName_getD {o : Option String} {name : String} :
    o.getD "" = name ++ cardSuffix ↔ o = some (name ++ cardSuffix) := by
  cases o with
  | some s => simp
  | none =>
    have hne : "" ≠ name ++ cardSuffix := by
      intro h
      have hlen := congrArg String.length h
      have hsuffix : cardSuffix.length = 10 := rfl
      have hempty : "".length = 0 := rfl
      rw [String.length_append] at hlen
      omega
    simp [hne]

/-- What reading a card file comes to, and what is said of it. -/
theorem parseCardFile_cases (host : Host) (file : String) (lookup : Lookup) :
    (∃ card expanded, parseCardFile host file lookup = .ok (card, expanded) ∧
      validName host file = some card.name) ∨
    ∃ d : Diagnostic, parseCardFile host file lookup = .error d ∧ validName host file = none ∧
      d.path = file ∧ d.code ≠ .shadowed := by
  unfold parseCardFile validName
  cases host.readToString file with
  | error message => exact .inr ⟨_, rfl, rfl, rfl, by simp⟩
  | ok text =>
    simp only [Except.mapError, bind, Except.bind]
    cases host.fromStr (stripBom text.toList) with
    | error message => exact .inr ⟨_, rfl, rfl, rfl, by simp⟩
    | ok value =>
      dsimp only
      unfold validateFile
      cases hvalid : validate value.1 with
      | error e => exact .inr ⟨_, rfl, rfl, rfl, by simp⟩
      | ok card =>
        simp only [Except.mapError]
        by_cases hname : host.fileName file = some (card.name ++ cardSuffix)
        · rw [if_neg (not_not.mpr (fileName_getD.mpr hname)), if_pos hname]
          -- the second validation cannot fail
          obtain ⟨card', hexpanded, hname'⟩ : ∃ card',
              validate (expandCard value.1 lookup) = .ok card' ∧ card'.name = card.name :=
            validate_expandCard hvalid
          left
          refine ⟨card', expand value lookup, ?_, by rw [hname']⟩
          have hvalid' : validate (expand value lookup).1 = .ok card' := hexpanded
          rw [hvalid']
          rfl
        · rw [if_pos fun h => hname (fileName_getD.mp h), if_neg hname]
          exact .inr ⟨_, rfl, rfl, rfl, by simp⟩

end Parse

/-! ### The order of the roots -/

/-- The roots, highest tier first, and in the order they were given within a tier. -/
def precedence (roots : List Root) : List Root :=
  [Tier.package, .system, .user, .low].flatMap fun tier => roots.filter (·.tier = tier)

/-- The stable sort by rank. -/
theorem insertionSort_roots (roots : List Root) :
    (roots.insertionSort fun a b => b.tier.rank ≤ a.tier.rank) = precedence roots := by
  have hranks : ∀ root ∈ roots, root.tier.rank ∈ [3, 2, 1, 0] := by
    intro root _
    cases root.tier <;> decide
  have hclass : ∀ tier : Tier, roots.filter (fun root => decide (root.tier.rank = tier.rank)) =
      roots.filter fun root => decide (root.tier = tier) := by
    intro tier
    refine List.filter_congr fun root _ => decide_eq_decide.mpr ?_
    cases root.tier <;> cases tier <;> decide
  rw [StableSort.insertionSort_eq_flatMap (by decide) roots hranks]
  simp only [precedence, List.flatMap_cons, List.flatMap_nil]
  rw [← hclass .package, ← hclass .system, ← hclass .user, ← hclass .low]
  rfl

/-- The card files of every root: by tier, by root, by path. -/
theorem orderedFiles_eq (host : Host) (roots : List Root) : orderedFiles host roots =
    (precedence roots).flatMap fun root => (cardFilesIn host root.path).map fun file => (root, file) := by
  rw [orderedFiles, insertionSort_roots]

/-! ### Rewriting the first entry of a name -/

section ModifyFirst

variable {α β : Type} {p : α → Bool} {f : α → α}

theorem map_modifyFirst {g : α → β} (hg : ∀ x, g (f x) = g x) (xs : List α) :
    (modifyFirst p f xs).map g = xs.map g := by
  induction xs with
  | nil => rfl
  | cons x xs ih =>
    rw [modifyFirst]
    split
    · rw [List.map_cons, List.map_cons, hg]
    · rw [List.map_cons, List.map_cons, ih]

/-- Where there is something to rewrite, it is rewritten and the rest is kept. -/
theorem modifyFirst_of_find? {xs : List α} {x : α} (h : xs.find? p = some x) :
    ∃ before after, xs = before ++ x :: after ∧ (∀ y ∈ before, p y = false) ∧ p x = true ∧
      modifyFirst p f xs = before ++ f x :: after := by
  induction xs with
  | nil => simp at h
  | cons y xs ih =>
    rw [List.find?_cons] at h
    cases hy : p y with
    | true =>
      rw [hy] at h
      obtain rfl := Option.some.inj h
      exact ⟨[], xs, rfl, by simp, hy, by simp [modifyFirst, hy]⟩
    | false =>
      rw [hy] at h
      obtain ⟨before, after, rfl, hbefore, hx, hmodify⟩ := ih h
      refine ⟨y :: before, after, rfl, ?_, hx, by simp [modifyFirst, hy, hmodify]⟩
      intro z hz
      rcases List.mem_cons.mp hz with rfl | hz
      · exact hy
      · exact hbefore z hz

/-- What is rewritten gains one more item. -/
theorem flatMap_modifyFirst_perm {g : α → List β} {xs : List α} {x : α} {y : β}
    (h : xs.find? p = some x) (hg : g (f x) = g x ++ [y]) :
    ((modifyFirst p f xs).flatMap g).Perm (xs.flatMap g ++ [y]) := by
  obtain ⟨before, after, rfl, -, -, hmodify⟩ := modifyFirst_of_find? (f := f) h
  rw [hmodify]
  simp only [List.flatMap_append, List.flatMap_cons, hg, List.append_assoc]
  exact .append_left _ (.append_left _ List.perm_append_comm)

end ModifyFirst

/-! ### What has been merged so far -/

/-- A card file as an entry or a note of shadowing mentions it. -/
def mention (f : Root × String) : ShadowedBy := ⟨f.2, f.1.tier⟩

/-- The valid card files of a name, in the order they are merged. -/
def filesNamed (host : Host) (files : List (Root × String)) (name : String) : List ShadowedBy :=
  (files.filter fun f => decide (validName host f.2 = some name)).map mention

/-- The error of a card file that does not become an entry. -/
def errorOf (host : Host) (lookup : Lookup) (f : Root × String) : Option Diagnostic :=
  match parseCardFile host f.2 lookup with
  | .error d => some d
  | .ok _ => none

/-- The card files that an entry stands for. -/
def Entry.files (e : Entry) : List ShadowedBy := ⟨e.path, e.tier⟩ :: e.shadowed

/-- What a catalog says about the card files merged so far. -/
structure Merged (host : Host) (lookup : Lookup) (files : List (Root × String)) (catalog : Catalog) :
    Prop where
  names : (catalog.entries.map (·.name)).Nodup
  entries : ∀ e ∈ catalog.entries, e.files = filesNamed host files e.name
  covers : ∀ name, filesNamed host files name ≠ [] → name ∈ catalog.entries.map (·.name)
  errors : catalog.diagnostics.filter (·.code ≠ .shadowed) = files.filterMap (errorOf host lookup)
  shadowed : ((catalog.diagnostics.filter (·.code = .shadowed)).map fun d => (d.path, d.name)).Perm
    (catalog.entries.flatMap fun e => e.shadowed.map fun s => (s.path, some e.name))
  valid : ((files.filter fun f => (validName host f.2).isSome).map mention).Perm
    (catalog.entries.flatMap Entry.files)

variable {host : Host} {lookup : Lookup} {files : List (Root × String)} {catalog : Catalog}

theorem merged_nil (host : Host) (lookup : Lookup) : Merged host lookup [] ⟨[], []⟩ :=
  ⟨List.nodup_nil, by simp, fun name h => absurd rfl h, rfl, .nil, .nil⟩

theorem filesNamed_snoc (f : Root × String) (name : String) :
    filesNamed host (files ++ [f]) name =
      filesNamed host files name ++ if validName host f.2 = some name then [mention f] else [] := by
  rw [filesNamed, List.filter_append, List.map_append]
  by_cases h : validName host f.2 = some name
  · simp [filesNamed, h]
  · simp [filesNamed, h]

/-- A card file that is an error. -/
theorem Merged.error (h : Merged host lookup files catalog) {f : Root × String} {d : Diagnostic}
    (hparse : parseCardFile host f.2 lookup = .error d) (hname : validName host f.2 = none)
    (hcode : d.code ≠ .shadowed) :
    Merged host lookup (files ++ [f]) { catalog with diagnostics := catalog.diagnostics ++ [d] } := by
  have hfiles : ∀ name, filesNamed host (files ++ [f]) name = filesNamed host files name := by
    intro name
    rw [filesNamed_snoc, hname]
    simp
  refine ⟨h.names, fun e he => ?_, fun name hn => ?_, ?_, ?_, ?_⟩
  · rw [hfiles]
    exact h.entries e he
  · rw [hfiles] at hn
    exact h.covers name hn
  · simpa [errorOf, hparse, hcode] using h.errors
  · simpa [List.filter_append, hcode] using h.shadowed
  · simpa [List.filter_append, hname] using h.valid

/-- A card file of a new name. -/
theorem Merged.entry (h : Merged host lookup files catalog) {f : Root × String} {e : Entry}
    {r : Card × JsonValue} (hparse : parseCardFile host f.2 lookup = .ok r)
    (hname : validName host f.2 = some e.name) (hnew : ∀ e' ∈ catalog.entries, e'.name ≠ e.name)
    (hfiles : e.files = [mention f]) :
    Merged host lookup (files ++ [f]) { catalog with entries := catalog.entries ++ [e] } := by
  have hshadowed : e.shadowed = [] := (List.cons.inj hfiles).2
  -- no file of the name has been merged before
  have hfirst : filesNamed host files e.name = [] := by
    by_contra hne
    obtain ⟨e', he', heq⟩ := List.mem_map.mp (h.covers e.name hne)
    exact hnew e' he' heq
  refine ⟨?_, fun e' he' => ?_, fun name hn => ?_, ?_, ?_, ?_⟩
  · rw [List.map_append, List.nodup_append]
    refine ⟨h.names, by simp, ?_⟩
    rintro a ha b hb rfl
    obtain ⟨e', he', rfl⟩ := List.mem_map.mp ha
    exact hnew e' he' (by simpa using hb)
  · rw [filesNamed_snoc, hname]
    rcases List.mem_append.mp he' with he' | he'
    · rw [if_neg fun heq => hnew e' he' (Option.some.inj heq).symm, List.append_nil]
      exact h.entries e' he'
    · obtain rfl := List.mem_singleton.mp he'
      rw [hfirst, if_pos rfl, hfiles]
      rfl
  · rw [filesNamed_snoc, hname] at hn
    rw [List.map_append]
    by_cases heq : e.name = name
    · exact List.mem_append_right _ (by simp [heq])
    · rw [if_neg fun h => heq (Option.some.inj h), List.append_nil] at hn
      exact List.mem_append_left _ (h.covers name hn)
  · simpa [errorOf, hparse] using h.errors
  · simpa [hshadowed] using h.shadowed
  · simpa [List.filter_append, hname, hfiles] using h.valid.append_right [mention f]

/-- An entry that shadows one more file. -/
def Entry.shadow (e : Entry) (s : ShadowedBy) : Entry := { e with shadowed := e.shadowed ++ [s] }

theorem Entry.files_shadow (e : Entry) (s : ShadowedBy) : (e.shadow s).files = e.files ++ [s] := rfl

/-- A card file of a name that has an entry. -/
theorem Merged.shadow (h : Merged host lookup files catalog) {f : Root × String} {name : String}
    {r : Card × JsonValue} (hparse : parseCardFile host f.2 lookup = .ok r)
    (hname : validName host f.2 = some name) {existing : Entry}
    (hexisting : catalog.entries.find? (·.name == name) = some existing) {d : Diagnostic}
    (hcode : d.code = .shadowed) (hpath : d.path = f.2) (hd : d.name = some name) :
    Merged host lookup (files ++ [f])
      { entries := modifyFirst (·.name == name) (·.shadow (mention f)) catalog.entries,
        diagnostics := catalog.diagnostics ++ [d] } := by
  have hnames : (modifyFirst (·.name == name) (·.shadow (mention f)) catalog.entries).map (·.name) =
      catalog.entries.map (·.name) := map_modifyFirst (f := fun e : Entry => e.shadow (mention f)) (fun _ => rfl) _
  obtain ⟨before, after, hsplit, -, heq, hmodify⟩ :=
    modifyFirst_of_find? (f := fun e : Entry => e.shadow (mention f)) hexisting
  have heq : existing.name = name := by simpa using heq
  -- the other entries have other names
  have hother : ∀ e ∈ before ++ after, e.name ≠ name := by
    intro e he hn
    have hnodup := h.names
    rw [hsplit, List.map_append, List.map_cons, List.nodup_middle, ← List.map_append] at hnodup
    exact (List.nodup_cons.mp hnodup).1 (List.mem_map.mpr ⟨e, he, hn.trans heq.symm⟩)
  refine ⟨hnames ▸ h.names, fun e he => ?_, fun n hn => ?_, ?_, ?_, ?_⟩
  · rw [filesNamed_snoc, hname]
    have hkept : ∀ e ∈ before ++ after, e.files = filesNamed host files e.name ++
        if some name = some e.name then [mention f] else [] := by
      intro e he
      rw [if_neg fun hn => hother e he (Option.some.inj hn).symm, List.append_nil]
      refine h.entries e ?_
      rw [hsplit]
      rcases List.mem_append.mp he with he | he
      · exact List.mem_append_left _ he
      · exact List.mem_append_right _ (List.mem_cons_of_mem _ he)
    dsimp only at he
    rw [hmodify] at he
    rcases List.mem_append.mp he with he | he
    · exact hkept e (List.mem_append_left _ he)
    · rcases List.mem_cons.mp he with rfl | he
      · -- the entry that the file is added to
        have hfiles := h.entries existing (by rw [hsplit]; simp)
        rw [Entry.files_shadow, hfiles]
        show _ = filesNamed host files existing.name ++
          if some name = some existing.name then [mention f] else []
        rw [if_pos (by rw [heq])]
      · exact hkept e (List.mem_append_right _ he)
  · rw [hnames]
    by_cases hn' : name = n
    · rw [hsplit]
      simp [heq, hn']
    · rw [filesNamed_snoc, hname, if_neg fun h => hn' (Option.some.inj h), List.append_nil] at hn
      exact h.covers n hn
  · simpa [errorOf, hparse, hcode] using h.errors
  · have hnote : (existing.shadow (mention f)).shadowed.map (fun s => (s.path, some existing.name)) =
        existing.shadowed.map (fun s => (s.path, some existing.name)) ++ [(f.2, some name)] := by
      simp [Entry.shadow, mention, heq]
    refine .trans ?_ (flatMap_modifyFirst_perm hexisting hnote).symm
    simpa [List.filter_append, hcode, hpath, hd] using h.shadowed.append_right [(f.2, some name)]
  · refine .trans ?_ (flatMap_modifyFirst_perm hexisting (Entry.files_shadow existing _)).symm
    simpa [List.filter_append, hname] using h.valid.append_right [mention f]

/-- **Every card file is accounted for.** -/
theorem Merged.addFile (h : Merged host lookup files catalog) (sha256 : List Char → String)
    (f : Root × String) :
    Merged host lookup (files ++ [f]) (Broker.addFile host sha256 lookup f.1 catalog f.2) := by
  rcases parseCardFile_cases host f.2 lookup with
    ⟨card, expanded, hparse, hname⟩ | ⟨d, hparse, hname, -, hcode⟩
  · unfold Broker.addFile
    rw [hparse]
    dsimp only
    cases hfind : catalog.entries.find? (·.name == card.name) with
    | some existing => exact h.shadow hparse hname hfind rfl rfl rfl
    | none =>
      refine h.entry hparse hname (fun e he heq => ?_) rfl
      exact absurd (List.find?_eq_none.mp hfind e he) (by simpa using heq)
  · unfold Broker.addFile
    rw [hparse]
    exact h.error hparse hname hcode

theorem merged_foldl (host : Host) (sha256 : List Char → String) (lookup : Lookup)
    (files : List (Root × String)) : Merged host lookup files
      (files.foldl (fun catalog f => Broker.addFile host sha256 lookup f.1 catalog f.2) ⟨[], []⟩) := by
  induction files using List.reverseRecOn with
  | nil => exact merged_nil host lookup
  | append_singleton files f ih =>
    rw [List.foldl_append]
    exact ih.addFile sha256 f

/-- The order of the entries does not matter. -/
theorem Merged.perm (h : Merged host lookup files catalog) {entries : List Entry}
    (hperm : entries.Perm catalog.entries) :
    Merged host lookup files { catalog with entries } := by
  have hnames := hperm.map (·.name)
  refine ⟨hnames.nodup_iff.mpr h.names, fun e he => h.entries e (hperm.mem_iff.mp he), fun name hn => ?_,
    h.errors, h.shadowed.trans (hperm.symm.flatMap_right _), h.valid.trans (hperm.symm.flatMap_right _)⟩
  exact hnames.mem_iff.mpr (h.covers name hn)

/-- The whole catalog. -/
theorem merged_enumerate (host : Host) (sha256 : List Char → String) (roots : List Root)
    (lookup : Lookup) : Merged host lookup (orderedFiles host roots)
      (enumerate host sha256 { roots, lookup, includeOrphaned := true }) := by
  have hperm := List.perm_insertionSort (fun a b : Entry => a.name ≤ b.name)
    ((orderedFiles host roots).foldl (fun catalog f =>
      addFile host sha256 lookup f.1 catalog f.2) ⟨[], []⟩).entries
  exact (merged_foldl host sha256 lookup (orderedFiles host roots)).perm hperm

theorem find?_name {entries : List Entry} (h : (entries.map (·.name)).Nodup) {entry : Entry}
    (hmem : entry ∈ entries) : entries.find? (·.name == entry.name) = some entry := by
  induction entries with
  | nil => simp at hmem
  | cons e entries ih =>
    rw [List.map_cons, List.nodup_cons] at h
    rcases List.mem_cons.mp hmem with rfl | hmem
    · rw [List.find?_cons, beq_self_eq_true]
    · have hne : e.name ≠ entry.name := by
        intro heq
        exact h.1 (heq ▸ List.mem_map_of_mem hmem)
      rw [List.find?_cons, beq_eq_false_iff_ne.mpr hne]
      exact ih h.2 hmem

/-- An entry of a catalog is the one that is found under its name. -/
theorem find_entry {host : Host} {sha256 : List Char → String} {roots : List Root} {lookup : Lookup}
    {includeOrphaned : Bool} {entry : Entry}
    (h : entry ∈ (enumerate host sha256 { roots, lookup, includeOrphaned }).entries) :
    (enumerate host sha256 { roots, lookup, includeOrphaned := true }).entries.find?
      (·.name == entry.name) = some entry := by
  have hmem : entry ∈ (enumerate host sha256 { roots, lookup, includeOrphaned := true }).entries := by
    unfold enumerate at h ⊢
    dsimp only at h ⊢
    split at h
    · exact h
    · exact (List.mem_filter.mp h).1
  exact find?_name (merged_enumerate host sha256 roots lookup).names hmem

theorem map_path_errors (host : Host) (lookup : Lookup) (files : List (Root × String)) :
    (files.filterMap (errorOf host lookup)).map (·.path) =
      (files.filter fun f => (validName host f.2).isNone).map Prod.snd := by
  induction files with
  | nil => rfl
  | cons f files ih =>
    rcases parseCardFile_cases host f.2 lookup with
      ⟨card, expanded, hparse, hname⟩ | ⟨d, hparse, hname, hpath, -⟩
    · simp [errorOf, hparse, hname, ih]
    · simp [errorOf, hparse, hname, hpath, ih]

/-- The entry is what its card file holds: the card, what is copied from it, and what follows from it. -/
structure Entry.ReadFrom (host : Host) (sha256 : List Char → String) (lookup : Lookup) (e : Entry) :
    Prop where
  parsed : parseCardFile host e.path lookup = .ok (e.card, e.expanded)
  name : e.name = e.card.name
  version : e.version = e.card.version
  orphaned : e.orphaned = isOrphaned host e.card lookup
  launchHash : e.launchHash = Proto.launchHash sha256 e.expanded.1

theorem readFrom_of_mem_enumerate {sha256 : List Char → String} {options : EnumerateOptions} {e : Entry}
    (he : e ∈ (enumerate host sha256 options).entries) : e.ReadFrom host sha256 options.lookup :=
  enumerate_induction (P := Entry.ReadFrom host sha256 options.lookup)
    (fun _ _ _ _ hparse => ⟨hparse, rfl, rfl, rfl, rfl⟩)
    (fun _ _ h => ⟨h.parsed, h.name, h.version, h.orphaned, h.launchHash⟩) he

/-- **The merged catalog accounts for every card file and picks the right winner.** -/
theorem catalog_accounts (host : Host) (sha256 : List Char → String) (roots : List Root)
    (lookup : Lookup) :
    let files := (precedence roots).flatMap fun root =>
      (cardFilesIn host root.path).map fun file => (root, file)
    let catalog := enumerate host sha256 { roots, lookup, includeOrphaned := true }
    -- the entries are sorted, with no name twice
    catalog.entries.Pairwise (·.name < ·.name) ∧
    -- an entry is the first valid file of its name, and it shadows the others
    (∀ e ∈ catalog.entries, (⟨e.path, e.tier⟩ :: e.shadowed : List ShadowedBy) =
      filesNamed host files e.name) ∧
    (∀ name, filesNamed host files name ≠ [] → ∃ e ∈ catalog.entries, e.name = name) ∧
    -- it is what that file holds
    (∀ e ∈ catalog.entries, e.ReadFrom host sha256 lookup) ∧
    -- a valid file is an entry or is shadowed, a shadowed one with its diagnostic
    ((files.filter fun f => (validName host f.2).isSome).map mention).Perm
      (catalog.entries.flatMap fun e => ⟨e.path, e.tier⟩ :: e.shadowed) ∧
    ((catalog.diagnostics.filter (·.code = .shadowed)).map fun d => (d.path, d.name)).Perm
      (catalog.entries.flatMap fun e => e.shadowed.map fun s => (s.path, some e.name)) ∧
    -- any other file is an error
    (catalog.diagnostics.filter (·.code ≠ .shadowed)).map (·.path) =
      (files.filter fun f => (validName host f.2).isNone).map Prod.snd ∧
    enumerate host sha256 { roots, lookup, includeOrphaned := false } =
      { catalog with entries := catalog.entries.filter (!·.orphaned) } := by
  intro files catalog
  have hfiles : orderedFiles host roots = files := orderedFiles_eq host roots
  have hmerged : Merged host lookup files catalog := by
    rw [← hfiles]
    exact merged_enumerate host sha256 roots lookup
  have hsorted : catalog.entries.Pairwise (·.name ≤ ·.name) := by
    have htotal : Std.Total fun a b : Entry => a.name ≤ b.name := ⟨fun a b => le_total _ _⟩
    have htrans : IsTrans Entry fun a b => a.name ≤ b.name := ⟨fun _ _ _ => le_trans⟩
    exact List.pairwise_insertionSort _ _
  refine ⟨?_, hmerged.entries, fun name hn => ?_, fun e he => readFrom_of_mem_enumerate he, hmerged.valid,
    hmerged.shadowed, ?_, rfl⟩
  · -- the names are sorted and distinct
    have hdistinct := List.pairwise_map.mp hmerged.names
    exact (hsorted.and hdistinct).imp fun h => lt_of_le_of_ne h.1 h.2
  · obtain ⟨e, he, heq⟩ := List.mem_map.mp (hmerged.covers name hn)
    exact ⟨e, he, heq⟩
  · rw [hmerged.errors]
    exact map_path_errors host lookup files

end McpLocator.Broker
