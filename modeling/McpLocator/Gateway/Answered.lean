import McpLocator.Broker.Announced
import McpLocator.Client.Canonical
import McpLocator.Gateway.Attached

namespace McpLocator.Gateway

open Js Json Proto Transition

/-!
# What the broker makes of the gateway's calls

* `Made` — the calls there are; `Works` — what the broker works on for one.
* `Wired` — what the lines and the answers say of the broker's grants: an announced grant was asked for
  under the name that it has in the table, and what an answered call released is not in the table.
* `Wired.other`, `Wired.serve` — the broker goes on; `Wired.send`, `Wired.hear` — the gateway does.
-/

/-! ### Reading a call -/

section Reading

variable {sha256 : List Char → String} {float : Literal → Option FloatText}
  {describe : List Char → String} {registry : Broker.Registry}

/-- The call with one text as its parameter. -/
def textCall (method key value : String) : Client.Call where
  method := ofString method
  params := [(ofString key, .string (ofString value))]
  nodup := List.nodup_singleton _

theorem get_single (key : String) (v : JsonValue) :
    (JsonValue.ofMembers [(key, v)]).1.get key = some v.1 := by
  have hkeys := (Value.wf_object.mp (JsonValue.ofMembers [(key, v)]).2).1
  refine Value.lookup_of_mem (hkeys.imp fun h => ne_of_lt h) (List.mem_map.mpr ⟨(key, v), ?_, rfl⟩)
  rw [Std.ExtTreeMap.mem_toList_iff_getElem?_eq_some, Std.ExtTreeMap.ofList_singleton]
  exact Std.ExtTreeMap.getElem?_insert_self

/-- What the broker reads of such a call. -/
theorem readLine_textCall (method key value : String) {id : Nat} (h : id ≤ 2 ^ 53) :
    ∃ request, Broker.readLine float describe
        (JSON.stringify ((textCall method key value).message id)) = .ok request ∧
      request.jsonrpc = "2.0" ∧ request.method = method ∧ request.paramStr key = some value := by
  have hvalue : Document.value float (.string (pointsOf value)) 126 = some ⟨.string value, rfl⟩ := by
    show (textOf (pointsOf value)).map _ = _
    rw [textOf_pointsOf, Option.map_some]
    simp only [String.ofList_toList]
  have hparams : (((textCall method key value).paramsValue.map points).value float 127) =
      some (.ofMembers [(key, ⟨.string value, rfl⟩)]) := by
    have hmap : (textCall method key value).paramsValue.map points =
        .object [(pointsOf key, .string (pointsOf value))] := by
      rw [Client.Call.paramsValue, Document.map_object]
      simp only [textCall, List.map_cons, List.map_nil, points_ofString]
      rw [← points_ofString value]
      rfl
    rw [hmap, value_object, if_neg (by decide)]
    simp [textOf_pointsOf, hvalue]
  have hmethod : textOf (points (textCall method key value).method) = some method.toList := by
    show textOf (points (ofString method)) = _
    rw [points_ofString, textOf_pointsOf]
  rw [Broker.readLine, Client.fromStr_message _ h, hparams, hmethod, Option.bind_some, Option.map_some]
  refine ⟨_, rfl, rfl, String.ofList_toList, ?_⟩
  simp only [Request.paramStr, Option.bind_some, get_single]
  rfl

/-- What is read of a call has its method. -/
theorem method_of_readLine {call : Client.Call} (method : String)
    (hmethod : call.method = ofString method) {id : Nat} (h : id ≤ 2 ^ 53) {request : Proto.Request}
    (hread : Broker.readLine float describe (JSON.stringify (call.message id)) = .ok request) :
    request.jsonrpc = "2.0" ∧ request.method = method := by
  rw [Broker.readLine, Client.fromStr_message call h, hmethod, points_ofString, textOf_pointsOf,
    Option.bind_some] at hread
  cases hparams : (call.paramsValue.map points).value float 127 with
  | none =>
    rw [hparams] at hread
    exact absurd hread (by simp)
  | some params =>
    rw [hparams, Option.map_some] at hread
    obtain rfl := Except.ok.inj hread
    exact ⟨rfl, String.ofList_toList⟩

end Reading

/-! ### The calls there are -/

/-- A call that the gateway makes. -/
inductive Made : Asked → Prop where
  | handshake (id : Nat) : Made ⟨none, id, handshakeCall⟩
  | list (id : Nat) (includeOrphaned : Bool) : Made ⟨none, id, listCall includeOrphaned⟩
  | activate (call id : Nat) (name : JsString) : Made ⟨some call, id, activateCall name⟩
  | release (call id : Nat) (grantId : JsString) : Made ⟨some call, id, releaseCall grantId⟩

/-- A task that the broker can have for a call. -/
def Works (call : Client.Call) : Broker.Task → Prop
  | .consult _ entry | .queue _ entry | .reread _ entry | .prompt _ entry _ | .activate _ entry =>
    call = activateCall (ofString entry.name)
  | .release _ grantId => call = releaseCall (ofString grantId)
  | .list _ _ => ∃ includeOrphaned, call = listCall includeOrphaned
  | .idle => True
  | .status _ _ _ | .query _ _ _ | .deactivate _ _ _ | .closing | .closed => False

section Serving

variable {sha256 : List Char → String} {float : Literal → Option FloatText}
  {describe : List Char → String} {registry : Broker.Registry}

/-- The text that is the parameter of a call. -/
theorem exists_text {method key : String} {value : JsString} {hnodup : _}
    (h : (Client.Call.mk (ofString method) [(ofString key, .string value)] hnodup).isWellFormed = true) :
    ∃ t, ofString t = value := by
  have hall := List.all_eq_true.mp h
  refine Client.exists_ofString (hall value ?_)
  simp only [Client.Call.strings, Client.Call.paramsValue, Client.Scalar.value,
    Document.strings_object, List.map_cons, List.map_nil, List.flatMap_cons, List.flatMap_nil,
    List.mem_cons, List.mem_append]
  exact .inr (.inl (.inr List.mem_cons_self))

/-- A release is taken up. -/
theorem serve_releaseCall (grantId : String) {id : Nat} (h : id ≤ 2 ^ 53) :
    ∃ rid, Broker.serve sha256 registry (Broker.readLine float describe
      (JSON.stringify ((releaseCall (ofString grantId)).message id))) = .inr (.release rid grantId) := by
  obtain ⟨request, hread, hversion, hmethod, hgrantId⟩ :=
    @readLine_textCall float describe "locator/release" "grantId" grantId id h
  refine ⟨request.id, ?_⟩
  change Broker.serve sha256 registry (Broker.readLine float describe
    (JSON.stringify ((textCall "locator/release" "grantId" grantId).message id))) = _
  rw [hread]
  show Broker.dispatch sha256 registry request = _
  unfold Broker.dispatch
  dsimp only
  rw [if_neg (not_not.mpr hversion), hmethod]
  simp only [hgrantId]

/-- An activation that is answered at once is refused. -/
theorem error_of_serve_activateCall {name : String} {id : Nat} (h : id ≤ 2 ^ 53)
    {response : Proto.Response} (hserve : Broker.serve sha256 registry (Broker.readLine float describe
      (JSON.stringify ((activateCall (ofString name)).message id))) = .inl response) :
    response.error.isSome = true := by
  obtain ⟨request, hread, hversion, hmethod, hname⟩ :=
    @readLine_textCall float describe "locator/activate" "name" name id h
  change Broker.serve sha256 registry (Broker.readLine float describe
    (JSON.stringify ((textCall "locator/activate" "name" name).message id))) = _ at hserve
  rw [hread] at hserve
  change Broker.dispatch sha256 registry request = _ at hserve
  unfold Broker.dispatch at hserve
  dsimp only at hserve
  rw [if_neg (not_not.mpr hversion), hmethod] at hserve
  simp only [Broker.withEntry, hname] at hserve
  split at hserve
  · rw [← Sum.inl.inj hserve]
    rfl
  · exact absurd hserve nofun

/-- **What the broker works on is what was asked for.** -/
theorem works_of_serve {a : Asked} (hmade : Made a) (hwell : a.call.isWellFormed = true)
    (hid : a.id ≤ 2 ^ 53) {task : Broker.Task}
    (h : Broker.serve sha256 registry
      (Broker.readLine float describe (JSON.stringify (a.call.message a.id))) = .inr task) :
    Works a.call task := by
  cases hread : Broker.readLine float describe (JSON.stringify (a.call.message a.id)) with
  | error message =>
    rw [hread] at h
    exact absurd h nofun
  | ok request =>
    rw [hread] at h
    change Broker.dispatch sha256 registry request = .inr task at h
    unfold Broker.dispatch at h
    dsimp only at h
    cases hmade with
    | handshake id =>
      obtain ⟨hversion, hmethod⟩ := method_of_readLine "locator/handshake" rfl hid hread
      rw [if_neg (not_not.mpr hversion), hmethod] at h
      exact absurd h nofun
    | list id includeOrphaned =>
      obtain ⟨hversion, hmethod⟩ := method_of_readLine "locator/list" rfl hid hread
      rw [if_neg (not_not.mpr hversion), hmethod] at h
      obtain rfl := Sum.inr.inj h
      exact ⟨includeOrphaned, rfl⟩
    | activate call id name =>
      obtain ⟨t, rfl⟩ := exists_text hwell
      obtain ⟨request', hread', hversion, hmethod, hname⟩ :=
        @readLine_textCall float describe "locator/activate" "name" t id hid
      obtain rfl := Except.ok.inj (hread.symm.trans hread')
      rw [if_neg (not_not.mpr hversion), hmethod] at h
      simp only [Broker.withEntry, hname] at h
      split at h
      · exact absurd h nofun
      · rename_i entry hentry
        obtain rfl := Sum.inr.inj h
        have hfound := List.find?_some (p := fun e : Broker.Entry => e.name == t) hentry
        show activateCall (ofString t) = activateCall (ofString entry.name)
        rw [beq_iff_eq.mp hfound]
    | release call id grantId =>
      obtain ⟨t, rfl⟩ := exists_text hwell
      obtain ⟨rid, hserve⟩ := @serve_releaseCall sha256 float describe registry t id hid
      rw [hread] at hserve
      obtain rfl := Sum.inr.inj (h.symm.trans hserve)
      rfl

/-- A task that goes on is still for its call, unless it has been answered. -/
theorem works_of_step {broker broker' : Broker.Broker} {event : Broker.Event} {c : Nat}
    {call : Client.Call} (hs : broker.step sha256 event = some broker')
    (hreads : event.reads c = false) (h : Works call (broker.tasks c)) :
    Works call (broker'.tasks c) := by
  have of_setTask : ∀ {c' : Nat} {task task' : Broker.Task}, broker.tasks c' = task →
      broker'.tasks = (broker.setTask c' task').tasks → (Works call task → Works call task') →
      Works call (broker'.tasks c) := by
    intro c' task task' htask htasks himp
    rw [htasks]
    by_cases hc : c = c'
    · subst hc
      rw [Broker.Broker.tasks_setTask_self]
      exact himp (htask ▸ h)
    · rwa [Broker.Broker.tasks_setTask_of_ne hc]
  have of_other : ∀ {c' : Nat} {task' : Broker.Task}, (c' == c) = false →
      broker'.tasks = (broker.setTask c' task').tasks → Works call (broker'.tasks c) := by
    intro c' task' hc htasks
    rw [htasks, Broker.Broker.tasks_setTask_of_ne fun heq => by simp [heq] at hc]
    exact h
  cases Broker.Broker.stepped_of_step hs with
  | refused => exact of_other hreads rfl
  | begun => exact of_other hreads rfl
  | answered hdue => exact of_setTask rfl rfl fun _ => trivial
  | consulted htask hgoes =>
    refine of_setTask htask rfl fun hworks => ?_
    rcases hgoes with rfl | rfl
    · exact hworks
    · exact hworks
  | opened htask | settled htask | locked htask | told htask => exact of_setTask htask rfl id
  | closed htask => exact of_setTask htask rfl False.elim
  | hungUp => exact of_other hreads rfl
  | quiet => exact h

end Serving

/-! ### The wire -/

section Wire

variable {sha256 : List Char → String} {float : Literal → Option FloatText}
  {describe : List Char → String} {rounded : Literal → Option Nat}

/-- What holds of a connection and its broker. -/
structure Wired (float : Literal → Option FloatText) (describe : List Char → String)
    (broker : Broker.Broker) (c : Nat) (link : Link) : Prop where
  settling : Client.Settling float describe c (link.session broker)
  made : ∀ a ∈ link.asked, Made a
  /-- What the broker works on is the first call that it has not answered. -/
  works : broker.tasks c = .idle ∨
    ∃ a, link.asked[(broker.answers c).length]? = some a ∧ Works a.call (broker.tasks c)
  /-- A grant that was announced has the name that it was asked for under. -/
  announced : ∀ i id, broker.Announces c i id → ∃ call aid name,
    link.asked[i]? = some ⟨some call, aid, activateCall name⟩ ∧
    ∀ grant : Broker.Grant, broker.engine.grants[id]? = some grant → ofString grant.name = name
  /-- An activation that was answered was refused, or its grant was announced. -/
  answered : ∀ i a r name, link.asked[i]? = some a → (broker.answers c)[i]? = some r →
    a.call = activateCall name → r.error.isSome = true ∨ ∃ id, broker.Announces c i id
  /-- Only grants that were made are released, -/
  releasable : ∀ a ∈ link.asked, ∀ grantId, a.call = releaseCall grantId →
    ∃ id, broker.Taken id ∧ grantId = ofString id
  /-- and what was released is not there any more. -/
  released : ∀ i a id, link.asked[i]? = some a → i < (broker.answers c).length →
    a.call = releaseCall (ofString id) → broker.engine.grants[id]? = none

theorem activateCall_injective : Function.Injective activateCall := by
  intro name name' h
  have hparams := congrArg Client.Call.params h
  simpa [activateCall] using hparams

theorem releaseCall_injective : Function.Injective releaseCall := by
  intro grantId grantId' h
  have hparams := congrArg Client.Call.params h
  simpa [releaseCall] using hparams

/-- Calls of different methods differ. -/
theorem ne_of_method {call call' : Client.Call} (method method' : String)
    (h : call.method = ofString method) (h' : call'.method = ofString method')
    (hne : method ≠ method') : call ≠ call' := by
  rintro rfl
  exact hne (ofString_injective (h.symm.trans h'))

theorem activateCall_ne_releaseCall (name grantId : JsString) :
    activateCall name ≠ releaseCall grantId :=
  ne_of_method "locator/activate" "locator/release" rfl rfl (by decide)

theorem listCall_ne_releaseCall (includeOrphaned : Bool) (grantId : JsString) :
    listCall includeOrphaned ≠ releaseCall grantId :=
  ne_of_method "locator/list" "locator/release" rfl rfl (by decide)

/-- A tool call waits for an activation. -/
theorem Made.activation {a : Asked} (h : Made a) {name : JsString} (hcall : a.call = activateCall name) :
    ∃ call aid, a = ⟨some call, aid, activateCall name⟩ := by
  cases h with
  | handshake id =>
    exact absurd hcall (ne_of_method "locator/handshake" "locator/activate" rfl rfl (by decide))
  | list id includeOrphaned =>
    exact absurd hcall (ne_of_method "locator/list" "locator/activate" rfl rfl (by decide))
  | activate call id name' => exact ⟨call, id, by rw [← hcall]⟩
  | release call id grantId => exact absurd hcall.symm (activateCall_ne_releaseCall _ _)

/-- A line that is answered at once is neither a release, nor an activation unless that is refused. -/
def AtOnce (sha256 : List Char → String) (c : Nat) (event : Broker.Event) (call : Client.Call) :
    Prop :=
  ∀ line registry response, event = .receive c line registry →
    Broker.serve sha256 registry line = .inl response →
    (∀ grantId, call ≠ releaseCall grantId) ∧
    ∀ name, call = activateCall name → response.error.isSome = true

namespace Wired

variable {broker broker' : Broker.Broker} {c : Nat} {link link' : Link} {event : Broker.Event}

/-- What was announced, after a step of the broker. -/
theorem announced_step (h : Wired float describe broker c link) (haccounts : broker.Accounts)
    (hs : broker.step sha256 event = some broker') {i : Nat} {id : String}
    (ha : broker'.Announces c i id) : ∃ call aid name,
      link.asked[i]? = some ⟨some call, aid, activateCall name⟩ ∧
      ∀ grant : Broker.Grant, broker'.engine.grants[id]? = some grant → ofString grant.name = name := by
  have of_old : broker.Announces c i id → broker.engine.Keeps broker'.engine → ∃ call aid name,
      link.asked[i]? = some ⟨some call, aid, activateCall name⟩ ∧
      ∀ grant : Broker.Grant,
        broker'.engine.grants[id]? = some grant → ofString grant.name = name := by
    intro ha hkeeps
    obtain ⟨call, aid, name, hat, hname⟩ := h.announced i id ha
    exact ⟨call, aid, name, hat, fun grant hg => hname grant (hkeeps.grants id grant hg)⟩
  cases Broker.Broker.tells_of_step hs with
  | nothing hanswers hkeeps =>
    refine of_old ?_ hkeeps
    unfold Broker.Broker.Announces at ha ⊢
    rwa [hanswers c] at ha
  | other hanswers hsilent hkeeps =>
    exact of_old ((Broker.Broker.announces_of_silent hanswers hsilent).mp ha) hkeeps
  | @grant c' rid entry info clientPid kind htask hanswers hgrants =>
    rw [hgrants]
    rcases (Broker.Broker.announces_of_activated hanswers).mp ha with ha | ⟨rfl, rfl, rfl⟩
    · -- an older grant, so its id is not the one that is taken now
      obtain ⟨call, aid, name, hat, hname⟩ := h.announced i id ha
      refine ⟨call, aid, name, hat, fun grant hg => hname grant ?_⟩
      rw [Std.ExtTreeMap.getElem?_insert] at hg
      split at hg
      · rename_i hid
        exact absurd (Std.compare_eq_iff_eq.mp hid ▸ ha) haccounts.fresh
      · exact hg
    · -- the grant that is made now
      rcases h.works with hidle | ⟨a, hat, hworks⟩
      · exact absurd (htask.symm.trans hidle) nofun
      · rw [htask] at hworks
        obtain ⟨call, aid, rfl⟩ := (h.made a (List.mem_of_getElem? hat)).activation hworks
        refine ⟨call, aid, _, hat, fun grant hg => ?_⟩
        rw [Std.ExtTreeMap.getElem?_insert_self] at hg
        obtain rfl := Option.some.inj hg
        rfl

/-- What is released by the answer that is given now. -/
theorem gone_now (h : Wired float describe broker c link)
    (hs : broker.step sha256 event = some broker')
    {a : Asked} (ha : link.asked[(broker.answers c).length]? = some a)
    (hread : AtOnce sha256 c event a.call) {id : String}
    (hcall : a.call = releaseCall (ofString id))
    (hnew : (broker.answers c).length < (broker'.answers c).length) :
    broker'.engine.grants[id]? = none := by
  have length_of_ne : ∀ {c' : Nat} {response : Proto.Response}, c ≠ c' →
      broker'.answers = Function.update broker.answers c' (broker.answers c' ++ [response]) → False := by
    intro c' response hne hanswers
    rw [hanswers, Function.update_of_ne hne] at hnew
    exact Nat.lt_irrefl _ hnew
  cases Broker.Broker.tells_of_step hs with
  | nothing hanswers =>
    rw [hanswers c] at hnew
    exact absurd hnew (Nat.lt_irrefl _)
  | @other c' response hanswers hsilent hkeeps hdue hatOnce hreleased hrefused =>
    by_cases hc : c = c'
    · subst hc
      rcases h.works with hidle | ⟨a', ha', hworks⟩
      · obtain ⟨line, registry, rfl, hserve⟩ := hatOnce hidle
        exact absurd hcall ((hread line registry response rfl hserve).1 _)
      · obtain rfl := Option.some.inj (ha.symm.trans ha')
        cases htask : broker.tasks c with
        | release rid grantId =>
          rw [htask] at hworks
          have hid : ofString id = ofString grantId := releaseCall_injective (hcall.symm.trans hworks)
          rw [ofString_injective hid]
          exact hreleased rid grantId htask
        | idle =>
          obtain ⟨line, registry, rfl, hserve⟩ := hatOnce htask
          exact absurd hcall ((hread line registry response rfl hserve).1 _)
        | list id catalog =>
          rw [htask] at hworks
          obtain ⟨includeOrphaned, heq⟩ := hworks
          exact absurd (heq.symm.trans hcall) (listCall_ne_releaseCall _ _)
        | consult | queue | reread | prompt | activate =>
          rw [htask] at hworks
          exact absurd (hworks.symm.trans hcall) (activateCall_ne_releaseCall _ _)
        | status | query | deactivate | closing | closed =>
          rw [htask] at hworks
          exact hworks.elim
    · exact (length_of_ne hc hanswers).elim
  | @grant c' rid entry info clientPid kind htask hanswers =>
    by_cases hc : c = c'
    · subst hc
      rcases h.works with hidle | ⟨a', ha', hworks⟩
      · exact absurd (htask.symm.trans hidle) nofun
      · obtain rfl := Option.some.inj (ha.symm.trans ha')
        rw [htask] at hworks
        exact absurd (hworks.symm.trans hcall) (activateCall_ne_releaseCall _ _)
    · exact (length_of_ne hc hanswers).elim

/-- What was answered, after a step of the broker. -/
theorem answered_step (h : Wired float describe broker c link)
    (hs : broker.step sha256 event = some broker')
    (hread : ∀ a, link.asked[(broker.answers c).length]? = some a → AtOnce sha256 c event a.call)
    {i : Nat} {a : Asked} {r : Proto.Response} {name : JsString} (ha : link.asked[i]? = some a)
    (hr : (broker'.answers c)[i]? = some r) (hcall : a.call = activateCall name) :
    r.error.isSome = true ∨ ∃ id, broker'.Announces c i id := by
  cases Broker.Broker.tells_of_step hs with
  | nothing hanswers =>
    rw [hanswers c] at hr
    unfold Broker.Broker.Announces
    rw [hanswers c]
    exact h.answered i a r name ha hr hcall
  | @other c' response hanswers hsilent hkeeps hdue hatOnce hreleased hrefused =>
    rw [hanswers] at hr
    rcases Broker.Broker.getElem?_update.mp hr with hr | ⟨rfl, rfl, rfl⟩
    · refine (h.answered i a r name ha hr hcall).imp id fun ⟨id, hid⟩ => ⟨id, ?_⟩
      exact (Broker.Broker.announces_of_silent hanswers hsilent).mpr hid
    · left
      rcases hdue with hidle | hdue
      · obtain ⟨line, registry, heq, hserve⟩ := hatOnce hidle
        exact (hread a ha line registry r heq hserve).2 name hcall
      · rcases h.works with hidle | ⟨a', ha', hworks⟩
        · rw [hidle] at hdue
          exact absurd hdue nofun
        · obtain rfl := Option.some.inj (ha.symm.trans ha')
          cases htask : broker.tasks c with
          | activate rid entry => exact hrefused rid entry htask
          | release rid grantId =>
            rw [htask] at hworks
            exact absurd (hcall.symm.trans hworks) (activateCall_ne_releaseCall _ _)
          | list rid catalog =>
            rw [htask] at hworks
            obtain ⟨includeOrphaned, heq⟩ := hworks
            exact absurd (heq.symm.trans hcall)
              (ne_of_method "locator/list" "locator/activate" rfl rfl (by decide))
          | idle | consult | queue | reread | prompt | closing | closed =>
            rw [htask] at hdue
            exact absurd hdue nofun
          | status | query | deactivate =>
            rw [htask] at hworks
            exact hworks.elim
  | @grant c' rid entry info clientPid kind htask hanswers hgrants =>
    rw [hanswers] at hr
    rcases Broker.Broker.getElem?_update.mp hr with hr | ⟨rfl, rfl, rfl⟩
    · refine (h.answered i a r name ha hr hcall).imp id fun ⟨id, hid⟩ => ⟨id, ?_⟩
      exact (Broker.Broker.announces_of_activated hanswers).mpr (.inl hid)
    · exact .inr ⟨_, (Broker.Broker.announces_of_activated hanswers).mpr (.inr ⟨rfl, rfl, rfl⟩)⟩

/-- **A step of the broker keeps what the wire says**, if it keeps promises and answers in step. -/
theorem stepped (h : Wired float describe broker c link) (haccounts : broker.Accounts)
    (hs : broker.step sha256 event = some broker')
    (hsettling : Client.Settling float describe c (link'.session broker'))
    (hasked : link'.asked = link.asked)
    (hworks : broker'.tasks c = .idle ∨ ∃ a, link.asked[(broker'.answers c).length]? = some a ∧
      Works a.call (broker'.tasks c))
    (hread : ∀ a, link.asked[(broker.answers c).length]? = some a → AtOnce sha256 c event a.call) :
    Wired float describe broker' c link' := by
  refine ⟨hsettling, hasked ▸ h.made, hasked ▸ hworks, ?_, ?_, ?_, ?_⟩
  · rw [hasked]
    exact fun i id ha => h.announced_step haccounts hs ha
  · rw [hasked]
    exact fun i a r name ha hr hcall => h.answered_step hs hread ha hr hcall
  · rw [hasked]
    intro a ha grantId hcall
    obtain ⟨id, htaken, hgrantId⟩ := h.releasable a ha grantId hcall
    exact ⟨id, htaken.step hs, hgrantId⟩
  · rw [hasked]
    intro i a id ha hi hcall
    rcases Nat.lt_trichotomy i (broker.answers c).length with hlt | rfl | hgt
    · obtain ⟨id', htaken, hid⟩ := h.releasable a (List.mem_of_getElem? ha) _ hcall
      obtain rfl := ofString_injective hid
      exact (Broker.Broker.Gone.step ⟨h.released i a id ha hlt hcall, htaken⟩ hs).1
    · exact h.gone_now hs ha (hread a ha) hcall hi
    · have := Broker.Broker.length_answers_step hs c
      omega

/-- Something happens at the broker that does not read from the connection. -/
theorem other (h : Wired float describe broker c link) (haccounts : broker.Accounts)
    (hs : broker.step sha256 event = some broker') (hreads : event.reads c = false) :
    Wired float describe broker' c link := by
  have hturn : (link.session broker).step sha256 float describe (fun _ => none) c
      (.turn (.other event)) = some (link.session broker') := by
    simp only [Client.Session.step, Broker.Connection.step, Link.session, hreads, hs]
    rfl
  refine h.stepped haccounts hs (h.settling.turn hturn) rfl ?_ fun a ha line registry response heq => ?_
  · rcases h.works with hidle | ⟨a, ha, hworks⟩
    · left
      cases Broker.Broker.handles_of_step hs hreads with
      | goes _ idle => exact idle hidle
      | answers _ _ _ idle => exact idle
    · cases Broker.Broker.handles_of_step hs hreads with
      | goes _ _ _ hanswers =>
        rw [hanswers]
        exact .inr ⟨a, ha, works_of_step hs hreads hworks⟩
      | answers _ _ _ idle => exact .inl idle
  · subst heq
    simp [Broker.Event.reads] at hreads

/-- What has been read when nothing is worked on. -/
theorem read_length (h : Wired float describe broker c link) (hidle : broker.tasks c = .idle) :
    link.read.length = (broker.answers c).length := by
  obtain ⟨responses, hanswers, hids, -⟩ := h.settling.loop.answered
  change broker.answers c = [] ++ responses at hanswers
  change responses.map (·.id) ++ (broker.tasks c).request.toList = link.read.map _ at hids
  rw [hidle] at hids
  have hlength := congrArg List.length hids
  rw [hanswers]
  simpa [Broker.Task.request] using hlength.symm

/-- The next line is the first call that has not been answered. -/
theorem next_line (h : Wired float describe broker c link) (hidle : broker.tasks c = .idle)
    {line rest : List Char} (hnext : Broker.nextLine false link.unread = some (line, rest))
    (hblank : Broker.isBlankLine line = false) :
    ∃ a, link.asked[(broker.answers c).length]? = some a ∧
      line = JSON.stringify (a.call.message a.id) := by
  have hlines := h.settling.loop.lines
  change link.read ++ Broker.requestLines false link.unread =
    (link.asked.map fun a => (a.id, a.call)).map _ at hlines
  rw [Broker.requestLines_of_nextLine hnext, hblank, List.map_map] at hlines
  have hat := congrArg (fun lines => lines[link.read.length]?) hlines
  simp only [if_neg Bool.false_ne_true] at hat
  rw [List.getElem?_append_right le_rfl, Nat.sub_self, List.getElem?_map] at hat
  obtain ⟨a, ha, hline⟩ := Option.map_eq_some_iff.mp hat.symm
  rw [h.read_length hidle] at ha
  exact ⟨a, ha, hline.symm⟩

/-- What is answered at once. -/
theorem at_once (h : Wired float describe broker c link) {a : Asked} (ha : a ∈ link.asked)
    (registry : Broker.Registry) : AtOnce sha256 c
      (.receive c (Broker.readLine float describe (JSON.stringify (a.call.message a.id))) registry)
      a.call := by
  intro line registry' response heq hserve
  obtain ⟨-, rfl, rfl⟩ := Broker.Event.receive.inj heq
  have hwell := h.settling.wellFormed (a.id, a.call) (List.mem_map_of_mem ha)
  have hid := h.settling.ids_le (m := (a.id, a.call)) (List.mem_map_of_mem ha)
  refine ⟨fun grantId hcall => ?_, fun name hcall => ?_⟩
  · rw [hcall] at hserve hwell
    obtain ⟨t, rfl⟩ := exists_text hwell
    obtain ⟨rid, htaken⟩ := @serve_releaseCall sha256 float describe registry t a.id hid
    exact absurd (hserve.symm.trans htaken) nofun
  · rw [hcall] at hserve hwell
    obtain ⟨t, rfl⟩ := exists_text hwell
    exact error_of_serve_activateCall hid hserve

/-- The broker's loop for the connection asks for its next line. -/
theorem serve (h : Wired float describe broker c link) (haccounts : broker.Accounts)
    {registry : Broker.Registry} {conn : Broker.Connection}
    (hs : (link.session broker).conn.step sha256 float describe c (.next registry) = some conn) :
    Wired float describe conn.broker c { link with unread := conn.unread, read := conn.read } ∧
      (conn.broker = broker ∨ ∃ event, event.reads c = true ∧
        broker.step sha256 event = some conn.broker) := by
  have hended : conn.ended = false := (Broker.unread_of_step hs).1
  have hsettling : Client.Settling float describe c
      (({ link with unread := conn.unread, read := conn.read } : Link).session conn.broker) := by
    have hturn : (link.session broker).step sha256 float describe (fun _ => none) c
        (.turn (.next registry)) = some { link.session broker with conn } := by
      show Option.map _ _ = _
      rw [hs]
      rfl
    have hafter := h.settling.turn hturn
    obtain ⟨unread, ended, read, broker'⟩ := conn
    subst hended
    exact hafter
  simp only [Broker.Connection.step] at hs
  split at hs
  · rename_i line rest hidle hnext
    split at hs
    · rename_i hblank
      obtain rfl := Option.some.inj hs
      exact ⟨⟨hsettling, h.made, h.works, h.announced, h.answered, h.releasable, h.released⟩, .inl rfl⟩
    · rename_i hblank
      obtain ⟨broker', hbroker, rfl⟩ := Option.map_eq_some_iff.mp hs
      have hreads : (Broker.Event.receive c (Broker.readLine float describe line) registry).reads c =
          true := beq_self_eq_true c
      obtain ⟨a, ha, rfl⟩ := h.next_line hidle hnext (by simpa using hblank)
      have hmem := List.mem_of_getElem? ha
      refine ⟨h.stepped haccounts hbroker hsettling rfl ?_ ?_, .inr ⟨_, hreads, hbroker⟩⟩
      · cases Broker.Broker.stepped_of_step hbroker with
        | refused => exact .inl (Broker.Broker.tasks_setTask_self ..)
        | begun htask hserve =>
          refine .inr ⟨a, ha, ?_⟩
          rw [Broker.Broker.tasks_setTask_self]
          exact works_of_serve (h.made a hmem)
            (h.settling.wellFormed (a.id, a.call) (List.mem_map_of_mem hmem))
            (h.settling.ids_le (List.mem_map_of_mem hmem)) hserve
        | quiet hquiet => exact absurd hquiet (by simp [Broker.Event.isQuiet])
      · intro a' ha'
        obtain rfl := Option.some.inj (ha.symm.trans ha')
        exact h.at_once hmem registry
  · rename_i hidle hnext
    rw [if_neg (by simp [Link.session])] at hs
    exact absurd hs (by simp)
  · exact absurd hs (by simp)

/-! What the gateway does to the connection. -/

theorem answers_le (h : Wired float describe broker c link) :
    (broker.answers c).length ≤ link.asked.length := by
  have hlength := h.settling.ids_prefix.length_le
  simpa [Link.session] using hlength

/-- The client's side of the connection changes. -/
theorem of_client (h : Wired float describe broker c link)
    (hsettling : Client.Settling float describe c (link'.session broker))
    (hasked : link'.asked = link.asked) : Wired float describe broker c link' :=
  ⟨hsettling, hasked ▸ h.made, hasked ▸ h.works, hasked ▸ h.announced, hasked ▸ h.answered,
    hasked ▸ h.releasable, hasked ▸ h.released⟩

/-- A call is written. -/
theorem send (h : Wired float describe broker c link) {owner : Option Nat} {call : Client.Call}
    (hmade : Made ⟨owner, link.client.nextId, call⟩) (hwell : call.isWellFormed = true)
    (hroom : link.asked.length < 2 ^ 53)
    (hreleasable : ∀ grantId, call = releaseCall grantId →
      ∃ id, broker.Taken id ∧ grantId = ofString id) :
    Wired float describe broker c (link.send owner call) := by
  have hcall : (link.session broker).step (fun _ => "") float describe (fun _ => none) c (.call call) =
      some ((link.send owner call).session broker) := by
    simp [Client.Session.step, Link.session, Link.send, Client.arrive]
  have hfree := h.settling.get_nextId (by simpa [Link.session] using hroom)
  have hold : ∀ {i : Nat} {a : Asked}, link.asked[i]? = some a →
      (link.send owner call).asked[i]? = some a := by
    intro i a ha
    show (link.asked ++ _)[i]? = some a
    rw [List.getElem?_append_left (List.getElem?_eq_some_iff.mp ha).1, ha]
  have hof : ∀ {i : Nat} {a : Asked}, (link.send owner call).asked[i]? = some a →
      i < (broker.answers c).length → link.asked[i]? = some a := by
    intro i a ha hi
    rwa [show (link.send owner call).asked = link.asked ++ _ from rfl,
      List.getElem?_append_left (hi.trans_le h.answers_le)] at ha
  refine ⟨h.settling.call hcall ⟨hwell, hfree⟩, fun a ha => ?_, ?_, fun i id ha => ?_,
    fun i a r name ha hr => ?_, fun a ha grantId heq => ?_, fun i a id ha hi => ?_⟩
  · rcases List.mem_append.mp ha with ha | ha
    · exact h.made a ha
    · rw [List.mem_singleton.mp ha]
      exact hmade
  · rcases h.works with hidle | ⟨a, ha, hworks⟩
    · exact .inl hidle
    · exact .inr ⟨a, hold ha, hworks⟩
  · obtain ⟨k, aid, name, hat, hname⟩ := h.announced i id ha
    exact ⟨k, aid, name, hold hat, hname⟩
  · exact h.answered i a r name (hof ha (List.getElem?_eq_some_iff.mp hr).1) hr
  · rcases List.mem_append.mp ha with ha | ha
    · exact h.releasable a ha grantId heq
    · rw [List.mem_singleton.mp ha] at heq
      exact hreleasable grantId heq
  · -- the new call has not been answered
    exact h.released i a id (hof ha hi) hi

/-- The next answer comes to the client. -/
theorem hear (h : Wired float describe broker c link) {session : Client.Session}
    (hs : (link.session broker).step sha256 float describe rounded c .hear = some session) :
    ∃ response, (broker.answers c)[link.heard]? = some response ∧
      session.heard = link.heard + 1 ∧
      session.client.settled.drop link.client.settled.length =
        [(link.heard, Client.responseOutcome response)] ∧
      Wired float describe broker c { link with client := session.client, heard := session.heard } := by
  simp only [Client.Session.step] at hs
  split at hs
  · exact absurd hs (by simp)
  · rename_i response hresponse
    change (broker.answers c)[link.heard]? = some response at hresponse
    obtain ⟨client, hclient, hafter⟩ := h.settling.hear rounded hresponse
    rw [hclient] at hs
    obtain rfl := Option.some.inj hs
    have hbefore : link.client.settled = ((broker.answers c).take link.heard).mapIdx _ :=
      h.settling.settled
    have hsettled : client.settled = ((broker.answers c).take (link.heard + 1)).mapIdx _ :=
      hafter.settled
    have hlength : link.heard ≤ (broker.answers c).length := h.settling.heard
    rw [List.take_add_one, hresponse, Option.toList_some, List.mapIdx_concat, ← hbefore,
      List.length_take, Nat.min_eq_left hlength] at hsettled
    refine ⟨response, hresponse, rfl, ?_, h.of_client hafter rfl⟩
    show client.settled.drop _ = _
    rw [hsettled, List.drop_left]

/-- What has been heard does not change. -/
theorem announces_of_step (h : Wired float describe broker c link)
    (hs : broker.step sha256 event = some broker') {i : Nat} {id : String} (hi : i < link.heard)
    (ha : broker'.Announces c i id) : broker.Announces c i id := by
  obtain ⟨request, connection, hanswered⟩ := ha
  have hlt : i < (broker.answers c).length := hi.trans_le h.settling.heard
  have hold := Broker.Broker.getElem?_answers_step hs (List.getElem?_eq_getElem hlt)
  exact ⟨request, connection, (List.getElem?_eq_getElem hlt).trans (hold.symm.trans hanswered)⟩

/-- A connection that is new to the broker. -/
theorem start (hheld : broker.LockHeld) (hidle : broker.tasks c = .idle)
    (hfresh : broker.answers c = []) : Wired float describe broker c .start := by
  refine ⟨Client.Settling.start hheld hidle hfresh, fun a ha => absurd ha List.not_mem_nil, .inl hidle,
    ?_, fun i a r name ha => absurd ha nofun, fun a ha => absurd ha List.not_mem_nil,
    fun i a id ha => absurd ha nofun⟩
  rintro i id ⟨request, connection, hr⟩
  rw [hfresh] at hr
  exact absurd hr nofun

end Wired

end Wire

end McpLocator.Gateway
