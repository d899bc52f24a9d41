import McpLocator.Gateway.Steps

namespace McpLocator.Gateway

open Js Transition

/-!
# Exported tool names route back

* `Routes` — the aliases are well formed and no two entries share one.  An alias is chosen and its
  entry set between two awaits, so no other call comes in between (`routes_step`).
* `splitName_exported` — the first separator of an exported name ends the alias, whatever the name of
  the tool.
* `exported_route` — in every reachable state an exported name leads back to its server and tool.
* `listed_called` — every name that is listed can be called.
-/

/-- The broker grants only names that satisfy `is_reverse_dns`. -/
def GrantsNames (s : State) : Event → Prop
  | .reply call (.activated (.ok _)) =>
    ∀ name broker, s.calls[call]? = some (.activating name broker) → IsReverseDns name
  | _ => True

/-- A step of the gateway with such a broker. -/
def NamedStep (s : State) (event : Event) (s' : State) : Prop :=
  s.step event = some s' ∧ GrantsNames s event

/-- What the aliases satisfy between steps. -/
structure Routes (s : State) : Prop where
  granted : ∀ p ∈ s.calls, ∀ name, p.granted = some name → labelsOf name ≠ []
  wellFormed : ∀ name e, (name, e) ∈ s.active.entries → IsAlias e.shortName
  distinct : ∀ name e name' e', (name, e) ∈ s.active.entries → (name', e') ∈ s.active.entries →
    e.shortName = e'.shortName → name = name'

namespace Routes

variable {s s' : State}

theorem init : Routes State.init := ⟨nofun, nofun, nofun⟩

/-- Entries that are only deleted, and calls with no new server in their hands. -/
theorem mono (h : Routes s)
    (hactive : ∀ name e, (name, e) ∈ s'.active.entries → (name, e) ∈ s.active.entries)
    (hcalls : ∀ p ∈ s'.calls, ∀ name, p.granted = some name → labelsOf name ≠ []) : Routes s' where
  granted := hcalls
  wellFormed name e he := h.wellFormed name e (hactive name e he)
  distinct name e name' e' he he' := h.distinct name e name' e' (hactive _ _ he) (hactive _ _ he')

theorem granted_begin (h : Routes s) {p : Phase} (hp : p.granted = none) :
    ∀ q ∈ s.calls ++ [p], ∀ name, q.granted = some name → labelsOf name ≠ [] := by
  intro q hq name hname
  rcases List.mem_append.mp hq with hq | hq
  · exact h.granted q hq name hname
  · rw [List.mem_singleton.mp hq, hp] at hname
    exact absurd hname nofun

theorem granted_move (h : Routes s) {call : Nat} {p : Phase}
    (hp : ∀ name, p.granted = some name → labelsOf name ≠ []) :
    ∀ q ∈ s.calls.set call p, ∀ name, q.granted = some name → labelsOf name ≠ [] := by
  intro q hq
  rcases List.mem_or_eq_of_mem_set hq with hq | rfl
  · exact h.granted q hq
  · exact hp

/-- The new alias is not among the others. -/
theorem record (h : Routes s) {name : JsString} (hname : labelsOf name ≠ []) (call : Nat)
    (grant : Grant) (tools : List Tool) :
    Routes (s.record call name grant tools (aliasFor name s.aliases)) where
  granted := h.granted
  wellFormed n e he := by
    rcases JsMap.mem_set.mp he with ⟨rfl, rfl⟩ | ⟨-, he⟩
    · exact aliasFor_wellFormed hname _
    · exact h.wellFormed n e he
  distinct n e n' e' he he' heq := by
    have hfree : ∀ m f, (m, f) ∈ s.active.entries → f.shortName ≠ aliasFor name s.aliases := by
      intro m f hf hshort
      refine aliasFor_notMem name s.aliases (hshort ▸ List.mem_map_of_mem ?_)
      exact JsMap.mem_values.mpr ⟨m, hf⟩
    rcases JsMap.mem_set.mp he with ⟨hn, hentry⟩ | ⟨-, hold⟩
    · rcases JsMap.mem_set.mp he' with ⟨hn', -⟩ | ⟨-, hold'⟩
      · rw [hn, hn']
      · rw [hentry] at heq
        exact absurd heq.symm (hfree n' e' hold')
    · rcases JsMap.mem_set.mp he' with ⟨-, hentry'⟩ | ⟨-, hold'⟩
      · rw [hentry'] at heq
        exact absurd heq (hfree n e hold)
      · exact h.distinct n e n' e' hold hold' heq

end Routes

theorem routes_step {s s' : State} {event : Event} (h : Routes s) (hs : Change s event s')
    (hnames : GrantsNames s event) : Routes s' := by
  cases hs with
  | @begun r p hearly hbroker =>
    refine h.mono (fun _ _ => id) (h.granted_begin ?_)
    cases p <;> simp at hearly ⊢
  | retired name he =>
    exact h.mono (fun _ _ hmem => (JsMap.mem_delete.mp hmem).2) (h.granted_begin rfl)
  | moved call r broker hp keeps _ _ =>
    refine h.mono (fun _ _ => id) (h.granted_move fun name hname => ?_)
    exact h.granted _ (List.mem_of_getElem? hp) name (keeps.granted name hname)
  | issued call hp =>
    refine h.mono (fun _ _ => id) (h.granted_move fun name hname => ?_)
    obtain rfl := Option.some.inj hname
    exact labelsOf_of_isReverseDns (hnames _ _ hp)
  | @recorded call tools name broker g hp =>
    have hname := h.granted _ (List.mem_of_getElem? hp) name rfl
    have hr := h.record hname call g tools
    exact hr.mono (fun _ _ => id) (hr.granted_move nofun)
  | failed call r hp _ _ => exact h.mono (fun _ _ => id) (h.granted_move nofun)
  | @released call result p p' grantId hp _ _ _ _ _ hholds =>
    have hactive : (s.release grantId result).active = s.active := State.release_active ..
    have hcalls : (s.release grantId result).calls = s.calls := State.release_calls ..
    refine h.mono (fun n e hmem => hactive ▸ hmem) ?_
    show ∀ q ∈ (s.release grantId result).calls.set call p', _
    rw [hcalls]
    refine h.granted_move fun name hname => ?_
    rw [Phase.granted_eq_none hholds] at hname
    exact absurd hname nofun
  | abandoned call r hp => exact h.mono (fun _ _ => id) (h.granted_move nofun)

/-- **The invariant holds of every reachable state.** -/
theorem routes_of_reached {events : List Event} {s : State} (h : Run NamedStep .init events s) :
    Routes s :=
  h.invariant .init fun _ _ _ hr hs => routes_step hr (State.step_change hs.1) hs.2

/-! ### The way back -/

/-- **The first separator of an exported name ends the alias.** -/
theorem splitName_exported {shortName : JsString} (h : IsAlias shortName) (tool : JsString) :
    splitName (shortName ++ namespaceSeparator :: tool) = (shortName, tool) := by
  have hidx : (shortName ++ namespaceSeparator :: tool).idxOf namespaceSeparator =
      shortName.length := by
    rw [List.idxOf_append_of_notMem h.noSeparator, List.idxOf_cons_self, Nat.add_zero]
  have hpos : 0 < shortName.length := List.length_pos_of_ne_nil h.nonempty
  unfold splitName
  rw [hidx]
  dsimp only
  rw [if_pos ⟨hpos, by simp⟩, List.take_left, List.drop_append]
  simp

/-- No meta tool has a separator in its name. -/
theorem separator_notMem_metaTools : ∀ tool ∈ metaTools, namespaceSeparator ∉ tool.name := by
  decide +kernel

theorem exportedName_ne_meta (server : ActiveServer) (tool : Tool) :
    exportedName server tool ∉ metaTools.map Tool.name := by
  intro hmem
  obtain ⟨metaTool, hmeta, hname⟩ := List.mem_map.mp hmem
  refine separator_notMem_metaTools metaTool hmeta ?_
  rw [hname]
  exact List.mem_append_right _ List.mem_cons_self

theorem dispatch_of_notMem {name : JsString} (h : name ∉ metaTools.map Tool.name) :
    dispatch name = .forward := by
  simp only [metaTools, List.map_cons, List.map_nil, List.mem_cons, List.not_mem_nil, or_false,
    not_or] at h
  obtain ⟨hlist, hactivate, hdeactivate⟩ := h
  rw [dispatch, if_neg hlist, if_neg hactivate, if_neg hdeactivate]

namespace Routes

variable {s : State}

theorem nodup_aliases (h : Routes s) : s.aliases.Nodup := by
  have hentries : s.active.entries.Nodup := List.Nodup.of_map Prod.fst s.active.nodup
  have : s.aliases = s.active.entries.map fun m => m.2.shortName := by
    simp [State.aliases, JsMap.values]
  rw [this]
  refine List.Nodup.map_on ?_ hentries
  intro m hm m' hm' heq
  have hname := h.distinct _ _ _ _ hm hm' heq
  exact List.inj_on_of_nodup_map s.active.nodup hm hm' hname

theorem eq_of_shortName (h : Routes s) {server server' : ActiveServer}
    (hs : server ∈ s.active.values) (hs' : server' ∈ s.active.values)
    (heq : server.shortName = server'.shortName) : server = server' :=
  List.inj_on_of_nodup_map h.nodup_aliases hs hs' heq

/-- An exported name is forwarded to its own server and tool. -/
theorem forward_exported (h : Routes s) {server : ActiveServer} (hs : server ∈ s.active.values)
    (tool : Tool) : s.forward (exportedName server tool) = .ok (server, tool.name) := by
  obtain ⟨name, hmem⟩ := JsMap.mem_values.mp hs
  have hwf := h.wellFormed name server hmem
  have hfind : s.active.values.find? (fun other => other.shortName = server.shortName) =
      some server := by
    cases hf : s.active.values.find? (fun other => other.shortName = server.shortName) with
    | none =>
      have := List.find?_eq_none.mp hf server hs
      simp at this
    | some found =>
      have heq : found.shortName = server.shortName := by simpa using List.find?_some hf
      rw [h.eq_of_shortName (List.mem_of_find?_eq_some hf) hs heq]
  unfold State.forward exportedName
  rw [splitName_exported hwf]
  dsimp only
  rw [hfind]

end Routes

/-- **Exported tool names route back to their server.** -/
theorem exported_route {events : List Event} {s : State} (h : Run NamedStep .init events s) :
    s.aliases.Nodup ∧ (∀ shortName ∈ s.aliases, shortName ≠ [] ∧ namespaceSeparator ∉ shortName) ∧
    ∀ server ∈ s.active.values, ∀ tool ∈ server.tools,
      exportedTool server tool ∈ s.exportedTools ∧
      (exportedTool server tool).name ∉ metaTools.map Tool.name ∧
      dispatch (exportedTool server tool).name = .forward ∧
      s.forward (exportedTool server tool).name = .ok (server, tool.name) := by
  have hr := routes_of_reached h
  refine ⟨hr.nodup_aliases, fun shortName hmem => ?_, fun server hs tool ht => ?_⟩
  · obtain ⟨server, hs, rfl⟩ := List.mem_map.mp hmem
    obtain ⟨name, hentry⟩ := JsMap.mem_values.mp hs
    have hwf := hr.wellFormed name server hentry
    exact ⟨hwf.nonempty, hwf.noSeparator⟩
  · have hmeta := exportedName_ne_meta server tool
    have hexported : exportedTool server tool ∈ s.exportedTools :=
      List.mem_flatMap.mpr ⟨server, hs, List.mem_map_of_mem ht⟩
    exact ⟨hexported, hmeta, dispatch_of_notMem hmeta, hr.forward_exported hs tool⟩

/-- **Whatever `tools/list` lists is known to `tools/call`**: it is a meta tool, or it leads to the
    client of an active server, which is called for one of its tools by the tool's own name. -/
theorem listed_called {events : List Event} {s : State} (h : Run NamedStep .init events s) {α : Type}
    (callTool : ActiveServer → JsString → Except JsString α) {tool : Tool} (ht : tool ∈ s.listTools) :
    (tool ∈ metaTools ∧ dispatch tool.name ≠ .forward) ∨
      ∃ server ∈ s.active.values, ∃ own ∈ server.tools, tool = exportedTool server own ∧
        dispatch tool.name = .forward ∧ s.forwardCall callTool tool.name =
          forwarded server own.name (callTool server own.name) := by
  rcases List.mem_append.mp ht with hmeta | hexported
  · have hknown : ∀ tool ∈ metaTools, dispatch tool.name ≠ .forward := by decide +kernel
    exact .inl ⟨hmeta, hknown tool hmeta⟩
  · obtain ⟨server, hs, hmem⟩ := List.mem_flatMap.mp hexported
    obtain ⟨own, hown, rfl⟩ := List.mem_map.mp hmem
    have hforward : s.forward (exportedTool server own).name = .ok (server, own.name) :=
      (routes_of_reached h).forward_exported hs own
    refine .inr ⟨server, hs, own, hown, rfl, dispatch_of_notMem (exportedName_ne_meta server own), ?_⟩
    rw [State.forwardCall, hforward]

/-! ### A server with a dotted tool name -/

def notes : JsString := ofString "com.example.notes"

def notesGrant : Grant := ⟨ofString "grant-1", ofString "/run/relay-1.sock"⟩

def notesTools : List Tool := [⟨ofString "search.all", none⟩]

/-- The replies to the first call, an activation that succeeds. -/
def notesEvents : List Event :=
  [.request (.activate notes), .reply 0 (.connected (.ok 0)), .reply 0 .resumed,
   .reply 0 (.activated (.ok notesGrant)), .reply 0 (.settled (.ok ())),
   .reply 0 (.listed (.ok notesTools)), .reply 0 (.settled (.ok ()))]

def notesServer : ActiveServer :=
  ⟨notes, notesGrant.grantId, ⟨0, notesGrant.address⟩, notesTools, ofString "notes"⟩

def notesActive : State where
  broker := some 0
  active := JsMap.empty.set notes notesServer
  calls := [.finished (.returned (activatedResult notes (ofString "notes") notesTools))]
  issued := [(0, notesGrant)]
  released := []
  closed := []

theorem isReverseDns_notes : IsReverseDns notes := ⟨"com.example.notes", by decide +kernel, rfl⟩

/-- The broker grants nothing but `notes`. -/
def onlyNotes (s : State) : Event → Bool
  | .reply call (.activated (.ok _)) => s.calls[call]? == some (.activating notes 0)
  | _ => true

theorem grantsNames_of_onlyNotes {s : State} {event : Event} (h : onlyNotes s event = true) :
    GrantsNames s event := by
  unfold GrantsNames
  split
  · rename_i call g
    intro name broker hp
    have : s.calls[call]? = some (.activating notes 0) := by simpa [onlyNotes] using h
    rw [hp, Option.some.injEq, Phase.activating.injEq] at this
    exact this.1 ▸ isReverseDns_notes
  · trivial

theorem notesRun : Run NamedStep .init notesEvents notesActive := by
  have hrun : Run (fun s event s' => s.step event = some s' ∧ onlyNotes s event = true) .init
      notesEvents notesActive := run_of_checked (by decide +kernel)
  exact hrun.mono fun _ _ _ hs => ⟨hs.1, grantsNames_of_onlyNotes hs.2⟩

theorem exported_route_notes : notesActive.forward (ofString "notes.search.all") =
    .ok (notesServer, ofString "search.all") :=
  ((exported_route notesRun).2.2 notesServer (by decide +kernel) ⟨ofString "search.all", none⟩
    (by decide +kernel)).2.2.2

end McpLocator.Gateway
