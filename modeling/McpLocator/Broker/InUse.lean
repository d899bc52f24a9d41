import McpLocator.Broker.Deactivation
import McpLocator.Json.UniqueReading
import McpLocator.Lib.Split

namespace McpLocator.Broker

open Std (ExtTreeMap)
open McpLocator.Json McpLocator.Proto

/-!
# On whose account a deactivation is refused

`Engine::deactivate` is to refuse, without `force`, while other clients hold grants.  It is not told
which connection asks.

* `dispatch_deactivate_iff` — how a connection comes to deactivate a server.
* `RefusedForOthers` — the request is refused exactly if other connections hold grants on the server,
  and the message names them; otherwise it releases what the connection itself holds.
* `refusedForOthers_iff` — so it is for a connection that holds no grant on the server, and for no
  other.
-/

set_option linter.dupNamespace false

/-! ### The request and the refusal -/

/-- A connection comes to deactivate a server by sending `locator/deactivate` with its name. -/
theorem dispatch_deactivate_iff {sha256 : List Char → String} {registry : Registry}
    {request : Request} {id : JsonValue} {name : String} {force : Bool} :
    dispatch sha256 registry request = .inr (.deactivate id name force) ↔
      request.jsonrpc = "2.0" ∧ request.method = "locator/deactivate" ∧
        request.paramStr "name" = some name ∧ request.paramBool "force" = force ∧
          request.id = id := by
  unfold dispatch
  dsimp only
  by_cases hversion : request.jsonrpc = "2.0"
  · rw [if_neg (not_not.mpr hversion)]
    -- one case for each method, and one for an unknown one
    split
    · rename_i hm
      simp [hm]
    · rename_i hm
      simp [hm]
    · rename_i hm
      simp [hm, Broker.withEntry_ne (.status request.id)]
    · rename_i hm
      simp [hm, Broker.withEntry_ne (.query request.id)]
    · rename_i hm
      simp [hm, Broker.withEntry_ne fun _ entry => .consult request.id entry]
    · rename_i hm
      cases request.paramStr "grantId" <;> simp [hm]
    · rename_i hm
      cases hparam : request.paramStr "name" with
      | none => simp [hm]
      | some name' =>
        simp only [Sum.inr.injEq, Task.deactivate.injEq, hversion, hm, Option.some.injEq, true_and]
        tauto
    · rename_i hm
      exact ⟨fun h => absurd h (by simp), fun h => (hm h.2.1).elim⟩
  · simp [hversion]

/-- The refusal that names some holders. -/
def inUseBy (id : JsonValue) (name : String) (holders : List String) : Response :=
  let names := String.intercalate ", " holders
  .err id inUse s!"{name} is in use by {names}; pass force to stop it anyway"

/-- The text of a holder has no comma. -/
theorem comma_not_mem_holderText (grant : Grant) : ',' ∉ (Engine.holderText grant).toList := by
  unfold Engine.holderText
  cases grant.clientPid with
  | none => decide
  | some pid =>
    show ',' ∉ ("pid " ++ Nat.repr pid).toList
    rw [String.toList_append, List.mem_append]
    rintro (hpid | hdigit)
    · exact absurd hpid (by decide)
    · exact absurd (isDigit_of_mem_repr hdigit) (by decide)

/-- Refusals that name different numbers of holders are different. -/
theorem length_of_inUseBy_eq {id : JsonValue} {name : String} {holders holders' : List String}
    (hcomma : ∀ text ∈ holders, ',' ∉ text.toList) (hcomma' : ∀ text ∈ holders', ',' ∉ text.toList)
    (hne : holders ≠ []) (hne' : holders' ≠ [])
    (h : inUseBy id name holders = inUseBy id name holders') : holders.length = holders'.length := by
  have hnames : String.intercalate ", " holders = String.intercalate ", " holders' := by
    have herror := congrArg (fun response => response.error.map RpcError.message) h
    have hmessage := Option.some.inj herror
    exact (String.append_right_inj _).mp ((String.append_left_inj _).mp hmessage)
  have hcount : ∀ texts : List String, (∀ text ∈ texts, ',' ∉ text.toList) →
      (String.intercalate ", " texts).toList.count ',' = texts.length - 1 := by
    intro texts htexts
    rw [String.toList_intercalate, Split.count_intercalate (by decide), List.length_map]
    simpa using htexts
  have hlength := hcount holders hcomma
  rw [hnames, hcount holders' hcomma'] at hlength
  have := List.length_pos_iff.mpr hne
  have := List.length_pos_iff.mpr hne'
  omega

/-! ### The rule -/

/-- The grants on a server. -/
def Engine.grantsOn (engine : Engine) (name : String) : List Grant :=
  (engine.grants.toList.filter fun g => g.2.name == name).map Prod.snd

/-- Those of them that other connections hold. -/
def Engine.othersOn (engine : Engine) (name : String) (c : Nat) : List Grant :=
  (engine.grantsOn name).filter fun grant => grant.connection != c

theorem Engine.mem_grantsOn_iff {engine : Engine} {name : String} {grant : Grant} :
    grant ∈ engine.grantsOn name ↔
      ∃ id : String, engine.grants[id]? = some grant ∧ grant.name = name := by
  simp [grantsOn, ExtTreeMap.mem_toList_iff_getElem?_eq_some]

/-- A connection asked for a deactivation without force, which is refused exactly if others hold grants
    on the server.  The refusal names one holder for each of these; otherwise the grants on the server
    are released. -/
structure RefusedForOthers (broker : Broker) (c : Nat) (id : JsonValue) (name : String)
    (broker' : Broker) : Prop where
  refused_iff : (∃ response, broker'.written = broker.written ++ [(c, response)] ∧
    response.error.map RpcError.code = some inUse) ↔ broker.engine.othersOn name c ≠ []
  named : broker.engine.othersOn name c ≠ [] → ∃ holders,
    holders.Perm ((broker.engine.othersOn name c).map Engine.holderText) ∧
      broker'.written = broker.written ++ [(c, inUseBy id name holders)]
  released : broker.engine.othersOn name c = [] →
    (∃ result, broker'.written = broker.written ++ [(c, .ok id result)]) ∧
      broker'.engine.grantsOn name = []

variable {sha256 : List Char → String} {broker broker' : Broker} {c : Nat} {id : JsonValue}
  {name : String} {order : IterationOrder} {outcome : StartOutcome}

/-- The answer to a deactivation that goes through, and to one that is refused. -/
theorem proceed_deactivate_ok {force : Bool} {count : Nat} {engine : Engine}
    (h : broker.engine.deactivate order name force = (.ok count, engine)) :
    broker.proceed c order outcome (.deactivate id name force) =
      some ((broker.withEngine engine).respond c (.ok id (Serde.ofMembers
        [("name", .string name), ("grantsReleased", natValue count)]))) := by
  unfold Broker.proceed
  dsimp only
  rw [h]

theorem proceed_deactivate_error {force : Bool} {holders : List String} {engine : Engine}
    (h : broker.engine.deactivate order name force = (.error holders, engine)) :
    broker.proceed c order outcome (.deactivate id name force) =
      some ((broker.withEngine engine).respond c (inUseBy id name holders)) := by
  unfold Broker.proceed
  dsimp only
  rw [h]
  rfl

theorem length_grantsOn_eq (engine : Engine) (name : String) :
    (engine.grantsOn name).length = engine.grantCount name := by
  rw [Engine.grantsOn, List.length_map, ← List.countP_eq_length_filter]
  rfl

/-- Without grants on the server the deactivation goes through. -/
theorem proceed_deactivate_of_none (h : broker.engine.grantsOn name = [])
    (hstep : broker.proceed c order outcome (.deactivate id name false) = some broker') :
    (∃ result, broker'.written = broker.written ++ [(c, .ok id result)]) ∧
      broker'.engine.grantsOn name = [] := by
  have hcount : broker.engine.grantCount name = 0 := by rw [← length_grantsOn_eq, h, List.length_nil]
  have hgone : (broker.engine.deactivate order name false).2.grantsOn name = [] := by
    refine List.eq_nil_iff_forall_not_mem.mpr fun grant hgrant => ?_
    obtain ⟨key, hkey, hname⟩ := Engine.mem_grantsOn_iff.mp hgrant
    rw [Engine.deactivate_grants order (.inr hcount)] at hkey
    obtain ⟨-, hother⟩ := Option.filter_eq_some_iff.mp hkey
    simp [hname] at hother
  obtain ⟨engine, heq⟩ : ∃ engine, broker.engine.deactivate order name false =
      (.ok (broker.engine.grantCount name), engine) := by
    rcases Engine.deactivate_cases order (.inr hcount) with ⟨-, heq⟩ | ⟨_, -, heq⟩
    · exact ⟨_, heq⟩
    · exact ⟨_, heq⟩
  rw [proceed_deactivate_ok heq] at hstep
  rw [heq] at hgone
  obtain rfl := Option.some.inj hstep
  exact ⟨⟨_, rfl⟩, hgone⟩

/-- With grants on the server it is refused, whoever asks. -/
theorem proceed_deactivate_of_some (h : broker.engine.grantsOn name ≠ [])
    (hstep : broker.proceed c order outcome (.deactivate id name false) = some broker') :
    ∃ holders, holders.Perm ((broker.engine.grantsOn name).map Engine.holderText) ∧
      broker'.written = broker.written ++ [(c, inUseBy id name holders)] := by
  have hcount : 0 < broker.engine.grantCount name := by
    rw [← length_grantsOn_eq]
    exact List.length_pos_iff.mpr h
  obtain ⟨holders, heq, hperm⟩ := Engine.deactivate_refused order hcount
  rw [proceed_deactivate_error heq] at hstep
  obtain rfl := Option.some.inj hstep
  refine ⟨holders, ?_, rfl⟩
  rw [Engine.grantsOn, List.map_map]
  exact hperm

/-- What has been written tells what was written last. -/
theorem written_inj {response response' : Response}
    (h : broker'.written = broker.written ++ [(c, response)])
    (h' : broker'.written = broker.written ++ [(c, response')]) : response = response' := by
  rw [h] at h'
  simpa using h'

/-- A connection without a grant on the server is refused on account of the others. -/
theorem refusedForOthers_of_not_held
    (hstep : broker.proceed c order outcome (.deactivate id name false) = some broker')
    (hheld : ∀ grant ∈ broker.engine.grantsOn name, grant.connection ≠ c) :
    RefusedForOthers broker c id name broker' := by
  have hothers : broker.engine.othersOn name c = broker.engine.grantsOn name := by
    refine List.filter_eq_self.mpr fun grant hgrant => ?_
    simpa using hheld grant hgrant
  constructor
  case refused_iff =>
    rw [hothers]
    refine ⟨fun ⟨response, hwritten, hcode⟩ hnone => ?_, fun hsome => ?_⟩
    · obtain ⟨⟨result, hok⟩, -⟩ := proceed_deactivate_of_none hnone hstep
      rw [written_inj hwritten hok] at hcode
      simp [Response.ok] at hcode
    · obtain ⟨holders, -, hwritten⟩ := proceed_deactivate_of_some hsome hstep
      exact ⟨_, hwritten, rfl⟩
  case named =>
    rw [hothers]
    exact fun hsome => proceed_deactivate_of_some hsome hstep
  case released =>
    rw [hothers]
    exact fun hnone => proceed_deactivate_of_none hnone hstep

/-- A connection with a grant on the server is refused on its own account, too. -/
theorem not_refusedForOthers_of_held
    (hstep : broker.proceed c order outcome (.deactivate id name false) = some broker')
    {grant : Grant} (hgrant : grant ∈ broker.engine.grantsOn name) (hheld : grant.connection = c) :
    ¬ RefusedForOthers broker c id name broker' := by
  intro hrefused
  have hsome : broker.engine.grantsOn name ≠ [] := List.ne_nil_of_mem hgrant
  obtain ⟨holders, hperm, hwritten⟩ := proceed_deactivate_of_some hsome hstep
  by_cases hothers : broker.engine.othersOn name c = []
  · -- nobody else holds one, but the request did not succeed
    obtain ⟨⟨result, hok⟩, -⟩ := hrefused.released hothers
    have hresponse := congrArg (·.error) (written_inj hwritten hok)
    simp [inUseBy, Response.err, Response.ok] at hresponse
  · -- the message names a holder too many
    obtain ⟨holders', hperm', hwritten'⟩ := hrefused.named hothers
    have hcomma : ∀ {texts : List String} {grants : List Grant},
        texts.Perm (grants.map Engine.holderText) → ∀ text ∈ texts, ',' ∉ text.toList := by
      intro texts grants htexts text htext
      obtain ⟨g, -, rfl⟩ := List.mem_map.mp (htexts.mem_iff.mp htext)
      exact comma_not_mem_holderText g
    have hne : holders ≠ [] := by
      rintro rfl
      exact hsome (List.map_eq_nil_iff.mp hperm.nil_eq.symm)
    have hne' : holders' ≠ [] := by
      rintro rfl
      exact hothers (List.map_eq_nil_iff.mp hperm'.nil_eq.symm)
    have hlength := length_of_inUseBy_eq (hcomma hperm) (hcomma hperm') hne hne'
      (written_inj hwritten hwritten')
    rw [hperm.length_eq, hperm'.length_eq, List.length_map, List.length_map] at hlength
    have hfewer : (broker.engine.othersOn name c).length < (broker.engine.grantsOn name).length :=
      List.length_filter_lt_length_iff_exists.mpr ⟨grant, hgrant, by simp [hheld]⟩
    omega

/-- **On whose account a deactivation is refused.**  Whatever the broker has done before, a connection
    that asks for the deactivation of a server without force is refused on account of other connections
    only, and told of these, exactly if it holds no grant on the server itself. -/
theorem refusedForOthers_iff (htask : broker.tasks c = .deactivate id name false)
    (hstep : broker.step sha256 (.proceed c order outcome) = some broker') :
    RefusedForOthers broker c id name broker' ↔
      ∀ (key : String) (grant : Grant), broker.engine.grants[key]? = some grant →
        grant.name = name → grant.connection ≠ c := by
  have hproceed : broker.proceed c order outcome (.deactivate id name false) = some broker' := by
    rw [← htask]
    exact hstep
  refine ⟨fun hrefused key grant hgrant hname hheld => ?_, fun hheld => ?_⟩
  · exact not_refusedForOthers_of_held hproceed
      (Engine.mem_grantsOn_iff.mpr ⟨key, hgrant, hname⟩) hheld hrefused
  · refine refusedForOthers_of_not_held hproceed fun grant hgrant => ?_
    obtain ⟨key, hkey, hname⟩ := Engine.mem_grantsOn_iff.mp hgrant
    exact hheld key grant hkey hname

/-- A request that has been read is the task of its connection. -/
theorem tasks_of_receive {request : Request} {registry : Registry} {task : Task}
    (hdispatch : dispatch sha256 registry request = .inr task)
    (hstep : broker.step sha256 (.receive c (.ok request) registry) = some broker') :
    broker'.tasks c = task := by
  have hserve : serve sha256 registry (.ok request) = .inr task := hdispatch
  unfold Broker.step at hstep
  dsimp only at hstep
  split at hstep
  · rw [hserve] at hstep
    obtain rfl := Option.some.inj hstep
    exact Function.update_self ..
  · exact absurd hstep (by simp)

/-! ### Who asks for the viewer to be stopped -/

/-- The request to stop the viewer, from a connection; the first one holds a grant on it. -/
def stopRequest : Request := requestWith "locator/deactivate" "name" "com.example.viewer"

def stopAsked (c : Nat) : Event :=
  .receive c (.ok stopRequest) (viewerRegistry "/usr/bin/viewer")

/-- The broker when a connection has asked, and when it has been answered. -/
def viewerStopAsked (c : Nat) : Option Recorded := viewerStarted.step String.ofList (stopAsked c)

def viewerStopAnswered (c : Nat) : Option Recorded :=
  (viewerStopAsked c).bind fun r => r.step String.ofList (.proceed c tableOrder working)

theorem dispatch_stopRequest (registry : Registry) : dispatch String.ofList registry stopRequest =
    .inr (.deactivate stopRequest.id "com.example.viewer" false) :=
  dispatch_deactivate_iff.mpr ⟨rfl, rfl, by decide +kernel, by decide +kernel, rfl⟩

/-- The one grant there is. -/
theorem grant_viewerStarted {key : String} {grant : Grant}
    (h : viewerStarted.broker.engine.grants[key]? = some grant) : grant.connection = 1 := by
  have hall : (viewerStarted.broker.engine.grants.toList.all fun g => g.2.connection == 1) = true :=
    by decide +kernel
  have hmem := ExtTreeMap.mem_toList_iff_getElem?_eq_some.mpr h
  simpa using List.all_eq_true.mp hall _ hmem

/-- The second connection is refused on account of the first. -/
theorem refusedForOthers_viewer : ∃ r r', viewerStopAsked 2 = some r ∧
    viewerStopAnswered 2 = some r' ∧
      RefusedForOthers r.broker 2 stopRequest.id "com.example.viewer" r'.broker := by
  have hanswered : (viewerStopAnswered 2).isSome = true := by decide +kernel
  obtain ⟨r', hr'⟩ := Option.isSome_iff_exists.mp hanswered
  obtain ⟨r, hr, hstep⟩ := Option.bind_eq_some_iff.mp hr'
  obtain ⟨asked, hasked, rfl⟩ := Recorded.step_eq_some.mp hr
  obtain ⟨answered, hanswered, rfl⟩ := Recorded.step_eq_some.mp hstep
  refine ⟨_, _, hr, hr', ?_⟩
  refine (refusedForOthers_iff (tasks_of_receive (dispatch_stopRequest _) hasked) hanswered).mpr ?_
  intro key grant hgrant _ hconnection
  replace hgrant : asked.engine.grants[key]? = some grant := hgrant
  rw [Broker.engine_of_receive hasked] at hgrant
  have hone := grant_viewerStarted hgrant
  omega

/-- The first connection is refused, too, though nobody else holds a grant. -/
theorem not_refusedForOthers : ∃ r r' : Recorded,
    Recorded.Reached String.ofList freshBroker
        (viewerSession ++ [.proceed 1 tableOrder working] ++ [stopAsked 1]) r ∧
      r.broker.tasks 1 = .deactivate stopRequest.id "com.example.viewer" false ∧
      r.step String.ofList (.proceed 1 tableOrder working) = some r' ∧
      ¬ RefusedForOthers r.broker 1 stopRequest.id "com.example.viewer" r'.broker := by
  have hanswered : (viewerStopAnswered 1).isSome = true := by decide +kernel
  obtain ⟨r', hr'⟩ := Option.isSome_iff_exists.mp hanswered
  obtain ⟨r, hr, hstep⟩ := Option.bind_eq_some_iff.mp hr'
  obtain ⟨asked, hasked, heq⟩ := Recorded.step_eq_some.mp hr
  have htask : r.broker.tasks 1 = .deactivate stopRequest.id "com.example.viewer" false := by
    rw [heq]
    exact tasks_of_receive (dispatch_stopRequest _) hasked
  refine ⟨r, r', .snoc reached_viewerStarted hr, htask, hstep, ?_⟩
  obtain ⟨answered, hanswered, rfl⟩ := Recorded.step_eq_some.mp hstep
  have hproceed : r.broker.proceed 1 tableOrder working
      (.deactivate stopRequest.id "com.example.viewer" false) = some answered := by
    rw [← htask]
    exact hanswered
  -- reading the request has left the grant alone
  have hheld : r.broker.engine.grants["g100-1"]? =
      some ⟨"com.example.viewer", 1, none, .endpoint⟩ := by
    rw [heq]
    show asked.engine.grants["g100-1"]? = _
    rw [Broker.engine_of_receive hasked]
    decide +kernel
  exact not_refusedForOthers_of_held hproceed
    (Engine.mem_grantsOn_iff.mpr ⟨"g100-1", hheld, rfl⟩) rfl

end McpLocator.Broker
