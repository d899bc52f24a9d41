import McpLocator.Client.Catalog
import McpLocator.Client.Dirs
import McpLocator.Lib.Debounce

namespace McpLocator.Client.Registry

open Broker (Root Lookup Platform)

/-!
# Watching the catalog (watch.ts)

* `WatchOptions`, `watchCatalog`, `CatalogWatcher.step` — the watchers of the registry directories, and
  the timer that they set.
* `SameRegistry` — what leaves the catalog as it is (`enumerate_congr`).
* `watchCatalog_follows` — the reports follow the catalog.
-/

/-! ### The watcher -/

/-- The delay of `setTimeout`: what is too short or too long becomes one millisecond. -/
def timerDelay (delay : Int) : Nat := if 1 ≤ delay ∧ delay ≤ 2147483647 then delay.toNat else 1

structure WatchOptions where
  roots : Option (List Root)
  env : Lookup
  platform : Platform
  /-- `os.homedir()` -/
  homedir : String
  includeOrphaned : Bool
  debounceMs : Option Int

namespace WatchOptions

def watchedRoots (options : WatchOptions) : List Root :=
  options.roots.getD (resolveRoots options.platform options.env options.homedir)

def period (options : WatchOptions) : Nat := timerDelay (options.debounceMs.getD 150)

/-- What a report is about. -/
def catalog (options : WatchOptions) (node : Node) : Catalog :=
  enumerate node options.watchedRoots options.env options.includeOrphaned

end WatchOptions

/-- The watchers that work, and what they have set off.  Every report is a call of `onChange`. -/
structure CatalogWatcher where
  watchers : List Root
  calls : Debounce Node Catalog

/-- A directory that does not exist yet cannot be watched. -/
def watchCatalog (options : WatchOptions) (watchable : String → Bool) (node : Node) :
    CatalogWatcher where
  watchers := options.watchedRoots.filter fun root => watchable root.path
  calls := .new node

inductive WatchEvent where
  /-- Something changes in the directory of a root. -/
  | change (root : Root) (node : Node)
  /-- Something changes elsewhere. -/
  | elsewhere (node : Node)
  /-- The callback of a watcher. -/
  | fire (root : Root)
  /-- The `error` handler of a watcher: the directory was removed. -/
  | lost (root : Root)
  | elapse (time : Nat)
  /-- The callback of the timer. -/
  | timeout
  | close

namespace CatalogWatcher

/-- What an event does to the timer and the reports. -/
def advance (options : WatchOptions) (watcher : CatalogWatcher) :
    WatchEvent → Option (Debounce Node Catalog)
  | .change root node => watcher.calls.step options.catalog options.period
      (.change (decide (root ∈ watcher.watchers)) node)
  | .elsewhere node => watcher.calls.step options.catalog options.period (.change false node)
  | .fire root =>
    if root ∈ watcher.watchers then watcher.calls.step options.catalog options.period .signal
    else none
  -- the other roots keep working
  | .lost _ => some watcher.calls
  | .elapse time => watcher.calls.step options.catalog options.period (.elapse time)
  | .timeout => watcher.calls.step options.catalog options.period .timeout
  | .close => watcher.calls.step options.catalog options.period .close

/-- The watchers that work after an event. -/
def watchersAfter (watcher : CatalogWatcher) : WatchEvent → List Root
  | .lost root => watcher.watchers.erase root
  | .close => []
  | _ => watcher.watchers

def step (options : WatchOptions) (watcher : CatalogWatcher) (event : WatchEvent) :
    Option CatalogWatcher :=
  (watcher.advance options event).map fun calls =>
    { watchers := watcher.watchersAfter event, calls }

end CatalogWatcher

/-! ### What the catalog depends on -/

/-- The card files of the roots are the same, and so are the commands there are. -/
structure SameRegistry (roots : List Root) (node node' : Node) : Prop where
  machine : node' = { node with
    readdirSync := node'.readdirSync, readFileSync := node'.readFileSync }
  listed : ∀ root ∈ roots, node'.readdirSync root.path = node.readdirSync root.path
  read : ∀ root ∈ roots, ∀ file ∈ cardFilesIn node root.path,
    node'.readFileSync file = node.readFileSync file

section Registry

variable {roots : List Root} {node node' : Node}

theorem SameRegistry.cardFilesIn_eq (h : SameRegistry roots node node') {root : Root}
    (hroot : root ∈ roots) : cardFilesIn node' root.path = cardFilesIn node root.path := by
  have hjoin : node'.join = node.join := by rw [h.machine]
  rw [cardFilesIn, cardFilesIn, h.listed root hroot, hjoin]

theorem SameRegistry.orderedFiles_eq (h : SameRegistry roots node node') :
    orderedFiles node' roots = orderedFiles node roots :=
  List.flatMap_congr fun root hroot => by
    rw [h.cardFilesIn_eq ((List.mem_insertionSort _).mp hroot)]

theorem SameRegistry.parseCardFile_eq (h : SameRegistry roots node node') (env : Lookup)
    {f : Root × String} (hf : f ∈ orderedFiles node roots) :
    parseCardFile node' f.2 env = parseCardFile node f.2 env := by
  obtain ⟨hroot, hfile⟩ := mem_orderedFiles.mp hf
  have hread := h.read f.1 hroot f.2 hfile
  have hjson : node'.jsonParse = node.jsonParse := by rw [h.machine]
  have hbase : node'.basename = node.basename := by rw [h.machine]
  have herrors : node'.schemaErrors = node.schemaErrors := by rw [h.machine]
  simp only [parseCardFile, hread, hjson, hbase, herrors]

/-- **The catalog depends on nothing else.** -/
theorem enumerate_congr (h : SameRegistry roots node node') (env : Lookup) (includeOrphaned : Bool) :
    enumerate node' roots env includeOrphaned = enumerate node roots env includeOrphaned := by
  have horphaned : isOrphaned node' = isOrphaned node := by
    rw [h.machine]
    rfl
  have hadd : ∀ merging, ∀ f ∈ orderedFiles node roots,
      addFile node' env merging f = addFile node env merging f := by
    intro merging f hf
    simp only [addFile, h.parseCardFile_eq env hf, horphaned]
  rw [enumerate, enumerate, h.orderedFiles_eq, List.foldl_ext _ _ _ hadd]

end Registry

/-! ### Reports -/

namespace CatalogWatcher

/-- As long as the watcher is there, what changes in the registry changes in a directory that is
    watched; the timer is on time. -/
def Followed (options : WatchOptions) (watcher : CatalogWatcher) : WatchEvent → Prop
  | .change root node => watcher.calls.closed = false → root ∉ watcher.watchers →
      SameRegistry options.watchedRoots watcher.calls.state node
  | .elsewhere node => watcher.calls.closed = false →
      SameRegistry options.watchedRoots watcher.calls.state node
  | .elapse time => watcher.calls.Punctual (.elapse time)
  | _ => True

/-- A run of a watcher. -/
abbrev Run (options : WatchOptions) (watchable : String → Bool) (init : Node) :
    List WatchEvent → CatalogWatcher → Prop :=
  Transition.Run (fun watcher event watcher' =>
    watcher.step options event = some watcher' ∧ watcher.Followed options event)
    (watchCatalog options watchable init)

variable {options : WatchOptions} {watchable : String → Bool} {init : Node}
  {watcher watcher' : CatalogWatcher} {event : WatchEvent} {events : List WatchEvent}

theorem sound_step (h : watcher.calls.Sound options.catalog options.period init)
    (hs : watcher.step options event = some watcher') (hfollowed : watcher.Followed options event) :
    watcher'.calls.Sound options.catalog options.period init := by
  obtain ⟨calls, hcalls, rfl⟩ := Option.map_eq_some_iff.mp hs
  show calls.Sound options.catalog options.period init
  unfold advance at hcalls
  cases event with
  | change root node =>
    refine h.step hcalls (fun hopen hunwatched => ?_) trivial
    exact enumerate_congr (hfollowed hopen (of_decide_eq_false hunwatched)) _ _
  | elsewhere node =>
    exact h.step hcalls (fun hopen _ => enumerate_congr (hfollowed hopen) _ _) trivial
  | fire root =>
    rw [Option.ite_none_right_eq_some] at hcalls
    exact h.step hcalls.2 trivial trivial
  | lost root =>
    obtain rfl := Option.some.inj hcalls
    exact h
  | elapse time => exact h.step hcalls trivial hfollowed
  | timeout | close => exact h.step hcalls trivial trivial

/-- What a consumer of the reports can rely on. -/
structure Follows (options : WatchOptions) (init : Node) (watcher : CatalogWatcher) : Prop where
  /-- A report comes one period after a change was signalled, with no signal in between. -/
  spaced : ∀ report ∈ watcher.calls.reports, ∃ s ∈ watcher.calls.signals,
    report.1 = s + options.period ∧ ∀ s' ∈ watcher.calls.signals, s' ≤ s ∨ report.1 ≤ s'
  /-- There are no more reports than signals. -/
  few : watcher.calls.reports.length ≤ watcher.calls.signals.length
  /-- When it has been quiet for longer than the period, the catalog that was reported last, or the
      one to begin with, is the catalog that there is. -/
  settled : watcher.calls.closed = false → watcher.calls.unseen = false →
    (∀ s ∈ watcher.calls.signals, s + options.period < watcher.calls.now) →
    watcher.calls.last options.catalog init = options.catalog watcher.calls.state

/-- **The reports follow the catalog.** -/
theorem follows (h : Run options watchable init events watcher) : watcher.Follows options init := by
  have hsound := Transition.Run.invariant
    (P := fun w => w.calls.Sound options.catalog options.period init) h
    (Debounce.sound_new _ _ _) fun _ _ _ hw hs => sound_step hw hs.1 hs.2
  refine ⟨fun report hreport => (hsound.quiet report hreport).2, ?_, hsound.settled⟩
  exact Nat.le_trans (Nat.le_add_right _ _) hsound.count

/-- **Nothing is reported after `close`.** -/
theorem silent (hclosed : watcher.calls.closed = true)
    (hs : watcher.step options event = some watcher') :
    watcher'.calls.closed = true ∧ watcher'.calls.reports = watcher.calls.reports := by
  obtain ⟨calls, hcalls, rfl⟩ := Option.map_eq_some_iff.mp hs
  unfold advance at hcalls
  cases event with
  | fire root =>
    rw [Option.ite_none_right_eq_some] at hcalls
    exact Debounce.reports_of_closed hclosed hcalls.2
  | lost root =>
    obtain rfl := Option.some.inj hcalls
    exact ⟨hclosed, rfl⟩
  | change | elsewhere | elapse | timeout | close => exact Debounce.reports_of_closed hclosed hcalls

/-! ### One change -/

/-- A user's registry, still empty. -/
def emptyNode : Node where
  windows := false
  readdirSync _ := some []
  join dir file := dir ++ "/" ++ file
  basename path := path
  existsSync _ := false
  readFileSync _ := .error "ENOENT"
  jsonParse _ := .error "unexpected end of JSON input"
  schemaErrors _ := ""

/-- An installer has begun to write a card. -/
def writtenNode : Node :=
  { emptyNode with
    readdirSync := fun _ => some ["com.example.notes.card.json"], readFileSync := fun _ => .ok "" }

def userRoot : Root := ⟨.user, "/home/me/.local/share/mcp-locator/servers"⟩

def userOptions : WatchOptions where
  roots := some [userRoot]
  env _ := none
  platform := .linux
  homedir := "/home/me"
  includeOrphaned := false
  debounceMs := none

/-- The change was signalled. -/
def armed : CatalogWatcher where
  watchers := [userRoot]
  calls := { state := writtenNode, now := 0, timer := some 150, closed := false, unseen := false,
             signals := [0], reports := [] }

/-- It was reported 150 milliseconds later. -/
def reported : CatalogWatcher where
  watchers := [userRoot]
  calls := { state := writtenNode, now := 150, timer := none, closed := false, unseen := false,
             signals := [0], reports := [(150, userOptions.catalog writtenNode)] }

theorem run_armed : Run userOptions (fun _ => true) emptyNode
    [.change userRoot writtenNode, .fire userRoot] armed := by
  have hwatched : userRoot ∈ (watchCatalog userOptions (fun _ => true) emptyNode).watchers := by decide
  exact .snoc (.snoc .start ⟨rfl, fun _ h => absurd hwatched h⟩) ⟨rfl, trivial⟩

theorem run_reported : Run userOptions (fun _ => true) emptyNode
    [.change userRoot writtenNode, .fire userRoot, .elapse 150, .timeout, .elapse 1]
    { reported with calls := { reported.calls with now := 151 } } := by
  have hdue : armed.Followed userOptions (.elapse 150) := fun due h => by
    obtain rfl := Option.some.inj h
    decide
  have hquiet : reported.Followed userOptions (.elapse 1) := fun due h => absurd h (by simp [reported])
  have hrun : Run userOptions (fun _ => true) emptyNode
      [.change userRoot writtenNode, .fire userRoot, .elapse 150, .timeout] reported :=
    .snoc (.snoc run_armed ⟨rfl, hdue⟩) ⟨rfl, trivial⟩
  exact .snoc hrun ⟨rfl, hquiet⟩

theorem follows_reported :
    reported.calls.last userOptions.catalog emptyNode = userOptions.catalog writtenNode :=
  (follows run_reported).settled rfl rfl (by decide)

end CatalogWatcher

end McpLocator.Client.Registry
