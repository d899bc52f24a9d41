import McpLocator.Broker.Merge
import McpLocator.Broker.Server
import McpLocator.Proto.Rules

namespace McpLocator.Broker

open McpLocator.Json McpLocator.Proto

/-!
# What the engine refuses

* `SameConsent` — consent reads the same; `sameConsent_evaluate`, reading it does not change it.
* `io_of_activate`, `activate_of_no_launch` — an approved entry that is there is refused exactly if it
  has no launch stanza.
-/

/-! ### Consent that does not change -/

/-- Consent reads the same for every card. -/
def SameConsent (engine engine' : Engine) : Prop :=
  ∀ name launchHash, (engine'.evaluate name launchHash).1 = (engine.evaluate name launchHash).1

theorem evaluate_eq (engine : Engine) (name launchHash : String) : engine.evaluate name launchHash =
    ((recordOf (engine.consent.refresh engine.disk).records name).judge launchHash,
      { engine with consent := engine.consent.refresh engine.disk }) := by
  unfold Engine.evaluate
  rw [ConsentStore.evaluate_eq]

theorem sameConsent_refresh (engine : Engine) :
    SameConsent engine { engine with consent := engine.consent.refresh engine.disk } := by
  intro name launchHash
  rw [evaluate_eq, evaluate_eq]
  dsimp only
  rw [ConsentStore.refresh_refresh]

/-- Reading consent does not change it. -/
theorem sameConsent_evaluate (engine : Engine) (name launchHash : String) :
    SameConsent engine (engine.evaluate name launchHash).2 := by
  rw [evaluate_eq]
  exact sameConsent_refresh engine

theorem SameConsent.trans {e₁ e₂ e₃ : Engine} (h : SameConsent e₁ e₂) (h' : SameConsent e₂ e₃) :
    SameConsent e₁ e₃ := fun name launchHash => (h' name launchHash).trans (h name launchHash)

theorem sameConsent_listServers (engine : Engine) (entries : List Entry) :
    SameConsent engine (listServers engine entries).2 := by
  induction entries generalizing engine with
  | nil => exact fun _ _ => rfl
  | cons entry entries ih => exact (sameConsent_evaluate engine entry.name entry.launchHash).trans (ih _)

/-! ### Activation -/

section Engine

variable {engine : Engine} {entry : Entry} {connection : Nat} {clientPid : Option Nat}
  {outcome : StartOutcome}

/-- A card with an `executable` launch declares its endpoint. -/
theorem endpoint_isSome {sha256 : List Char → String} (h : entry.Parsed sha256) {launch : Launch}
    (hlaunch : entry.card.launch = some launch) (htype : launch.launchType = .executable) :
    entry.card.endpoint.isSome = true := by
  obtain ⟨-, -, -, -, card, hcard, hdeclared⟩ := (validate_isOk_iff _).mp ⟨_, h.valid⟩
  obtain rfl : card = entry.card := Option.some.inj (hcard.symm.trans (deserialize_of_validate h.valid))
  exact ((checkDeclared_isOk_iff _).mp hdeclared).2 launch hlaunch htype

/-- A process is not started only if the machine does not start it. -/
theorem io_of_spawn {piped : Bool} {spawned : Except String Unit} {e : ActivateError}
    (hlaunch : entry.card.launch.isSome = true) (h : (engine.spawn entry piped spawned).1 = .error e) :
    ∃ message, e = .io message := by
  obtain ⟨launch, hlaunch⟩ := Option.isSome_iff_exists.mp hlaunch
  cases spawned with
  | ok _ => simp [Engine.spawn, spawnCommand, hlaunch] at h
  | error message =>
    have he : ActivateError.io message = e := by
      simpa [Engine.spawn, spawnCommand, hlaunch] using h
    exact ⟨message, he.symm⟩

theorem io_of_startStdio {e : ActivateError} (hlaunch : entry.card.launch.isSome = true)
    (h : (engine.startStdio entry outcome).1 = .error e) : ∃ message, e = .io message := by
  unfold Engine.startStdio at h
  cases hlistener : outcome.listener with
  | error message =>
    rw [hlistener] at h
    exact ⟨message, (Except.error.inj h).symm⟩
  | ok info =>
    rw [hlistener] at h
    dsimp only at h
    rcases hs : engine.spawn entry true outcome.spawned with ⟨e' | child, engine'⟩
    · rw [hs] at h
      obtain rfl : e' = e := Except.error.inj h
      exact io_of_spawn hlaunch (congrArg Prod.fst hs)
    · rw [hs] at h
      dsimp only at h
      split at h
      · exact ⟨_, (Except.error.inj h).symm⟩
      · split at h
        · exact ⟨_, (Except.error.inj h).symm⟩
        · simp at h

theorem io_of_attachShared {e : ActivateError} (hlaunch : entry.card.launch.isSome = true)
    (hendpoint : entry.card.endpoint.isSome = true)
    (h : (engine.attachShared entry outcome).1 = .error e) : ∃ message, e = .io message := by
  obtain ⟨endpoint, hendpoint⟩ := Option.isSome_iff_exists.mp hendpoint
  unfold Engine.attachShared sharedConnection at h
  rw [hendpoint] at h
  dsimp only at h
  split at h
  · simp at h
  · split at h
    · rename_i e' _ hs
      obtain rfl : e' = e := Except.error.inj h
      exact io_of_spawn hlaunch (congrArg Prod.fst hs)
    · simp at h

/-- **An approved entry with a launch stanza is not refused.** -/
theorem io_of_activate {sha256 : List Char → String} (hparsed : entry.Parsed sha256)
    (hlaunch : entry.card.launch.isSome = true) (hpresent : entry.orphaned = false)
    (hgranted : (engine.evaluate entry.name entry.launchHash).1.state = .granted) {e : ActivateError}
    (h : (engine.activate entry connection clientPid outcome).1 = .error e) :
    ∃ message, e = .io message := by
  obtain ⟨launch, hstanza⟩ := Option.isSome_iff_exists.mp hlaunch
  have hconsent : (engine.consent.evaluate engine.disk entry.name entry.launchHash).1.state = .granted :=
    hgranted
  -- an error of the start is the error of the activation
  have henter : ∀ started : Except ActivateError (GrantKind × ConnectionInfo) × Engine,
      (Engine.enter started (Engine.grantId engine.brokerPid engine.nextGrant) entry.name connection
        clientPid).1 = .error e → started.1 = .error e := by
    rintro ⟨started | ⟨kind, info⟩, engine'⟩ hs
    · exact congrArg Except.error (Except.error.inj hs)
    · simp [Engine.enter] at hs
  simp only [Engine.activate, hpresent, hconsent, hstanza, Bool.false_eq_true, if_false, ne_eq,
    not_true_eq_false] at h
  cases htype : launch.launchType with
  | stdio =>
    rw [htype] at h
    exact io_of_startStdio hlaunch (henter _ h)
  | executable =>
    rw [htype] at h
    exact io_of_attachShared hlaunch (endpoint_isSome hparsed hstanza htype) (henter _ h)

/-- An approved entry without one is. -/
theorem activate_of_no_launch (hlaunch : entry.card.launch = none) (hpresent : entry.orphaned = false)
    (hgranted : (engine.evaluate entry.name entry.launchHash).1.state = .granted) :
    (engine.activate entry connection clientPid outcome).1 = .error (.notActivatable entry.name) := by
  have hconsent : (engine.consent.evaluate engine.disk entry.name entry.launchHash).1.state = .granted :=
    hgranted
  simp only [Engine.activate, hpresent, hconsent, hlaunch, Bool.false_eq_true, if_false, ne_eq,
    not_true_eq_false]

end Engine

/-! ### Listing and activating -/

/-- What `locator/list` is answered with. -/
def listAnswer (engine : Engine) (catalog : Catalog) : Value :=
  Serde.ofMembers [("servers", .array (listServers engine catalog.entries).1),
    ("diagnostics", .array (catalog.diagnostics.map Diagnostic.serialize))]

section Requests

variable (sha256 : List Char → String) (registry : Registry)

/-- The servers have just been listed: the catalog was read when the request was dispatched, and what is
    said of its entries when the engine was free. -/
def Listed (result : Value) (broker : Broker) : Prop :=
  ∃ (c : Nat) (request : Request) (b₀ b₁ b₂ : Broker) (order : IterationOrder) (outcome : StartOutcome),
    request.jsonrpc = "2.0" ∧ request.method = "locator/list" ∧
      b₀.step sha256 (.receive c (.ok request) registry) = some b₁ ∧ b₂.tasks c = b₁.tasks c ∧
        b₂.step sha256 (.proceed c order outcome) = some broker ∧
          broker.written = b₂.written ++ [(c, .ok request.id result)]

/-- An activation of the server is not refused: the server is known, the user is not asked, and only the
    machine can make the engine fail.  Other connections may do anything in between that leaves consent
    as it is. -/
def NotRefused (broker : Broker) (name : String) : Prop :=
  ∀ (c : Nat) (request : Request) (b₀ : Broker), request.jsonrpc = "2.0" →
    request.method = "locator/activate" → request.paramStr "name" = some name →
      SameConsent broker.engine b₀.engine → b₀.tasks c = .idle →
        ∃ entry b₁, b₀.step sha256 (.receive c (.ok request) registry) = some b₁ ∧
          b₁.tasks c = .consult request.id entry ∧
            ∀ (b₂ : Broker) (order : IterationOrder) (outcome : StartOutcome),
              SameConsent broker.engine b₂.engine → b₂.tasks c = .consult request.id entry →
                ∃ b₃, b₂.step sha256 (.proceed c order outcome) = some b₃ ∧
                  b₃.tasks c = .activate request.id entry ∧
                    ∀ (b₄ : Broker) (outcome : StartOutcome), SameConsent broker.engine b₄.engine →
                      ∀ e, (b₄.engine.activate entry c (b₄.clientPid c) outcome).1 = .error e →
                        ∃ message, e = .io message

end Requests

section Listed

variable {sha256 : List Char → String} {registry : Registry} {broker : Broker}

/-- A list is answered with the rows of a catalog of the registry, and its connection is idle again. -/
theorem answer_of_listed {result : Value} (h : Listed sha256 registry result broker) :
    (∃ c, broker.tasks c = .idle) ∧
      ∃ (includeOrphaned : Bool) (engine : Engine), SameConsent engine broker.engine ∧
        result = listAnswer engine (currentCatalog sha256 registry includeOrphaned) := by
  obtain ⟨c, request, b₀, b₁, b₂, order, outcome, hversion, hmethod, hreceive, htask, hproceed, hwritten⟩ := h
  have hdispatch : dispatch sha256 registry request = .inr (.list request.id
      (currentCatalog sha256 registry (request.paramBool "includeOrphaned"))) := by
    simp [dispatch, hversion, hmethod]
  have hlist : b₂.tasks c = .list request.id
      (currentCatalog sha256 registry (request.paramBool "includeOrphaned")) := by
    rw [htask]
    simp only [Broker.step, serve, hdispatch] at hreceive
    split at hreceive
    · rw [← Option.some.inj hreceive]
      simp [Broker.setTask]
    · simp at hreceive
  rw [Broker.step, hlist] at hproceed
  obtain rfl := Option.some.inj hproceed
  have hanswer := (Prod.mk.inj (List.cons.inj (List.append_cancel_left hwritten)).1).2
  simp only [Response.ok, Response.mk.injEq, Option.some.injEq, true_and, and_true] at hanswer
  refine ⟨⟨c, ?_⟩, _, b₂.engine, sameConsent_listServers _ _, hanswer.symm⟩
  simp [Broker.respond, Broker.setTask]

/-- A request to activate a server. -/
def activateRequest (name : String) : Request :=
  { jsonrpc := "2.0", id := nullId, method := "locator/activate",
    params := some ⟨.object [("name", .string name)], by simp [Value.wf]⟩ }

section Activate

variable {name : String} {entry : Entry}

/-- An entry of any catalog of the registry is found. -/
theorem findEntry_of_mem {includeOrphaned : Bool}
    (h : entry ∈ (currentCatalog sha256 registry includeOrphaned).entries) :
    findEntry sha256 registry entry.name = some entry := by
  unfold currentCatalog at h
  unfold findEntry currentCatalog
  exact find_entry h

/-- An activation of a server that is known consults its entry. -/
theorem step_receive_activate {c : Nat} {request : Request} {b₀ : Broker}
    (hversion : request.jsonrpc = "2.0") (hmethod : request.method = "locator/activate")
    (hparam : request.paramStr "name" = some name) (hfind : findEntry sha256 registry name = some entry)
    (hidle : b₀.tasks c = .idle) : b₀.step sha256 (.receive c (.ok request) registry) =
      some (b₀.setTask c (.consult request.id entry)) := by
  simp [Broker.step, hidle, serve, dispatch, hversion, hmethod, withEntry, hparam, hfind]

/-- An approved activation goes on without the user. -/
theorem step_consult {c : Nat} {id : JsonValue} {b₂ : Broker} {order : IterationOrder}
    {outcome : StartOutcome} (hconsult : b₂.tasks c = .consult id entry)
    (hgranted : (b₂.engine.evaluate entry.name entry.launchHash).1.state = .granted) :
    b₂.step sha256 (.proceed c order outcome) =
      some ((b₂.withEngine (b₂.engine.evaluate entry.name entry.launchHash).2).setTask c
        (.activate id entry)) := by
  simp [Broker.step, hconsult, Broker.proceed, hgranted, shouldAsk]

/-- **An approved entry is not refused exactly if it has a launch stanza.** -/
theorem notRefused_iff (hfind : findEntry sha256 registry name = some entry) (hpresent : entry.orphaned = false)
    (hgranted : (broker.engine.evaluate entry.name entry.launchHash).1.state = .granted)
    (hidle : ∃ c, broker.tasks c = .idle) :
    NotRefused sha256 registry broker name ↔ entry.card.launch.isSome = true := by
  constructor
  · intro h
    obtain ⟨c, hidle⟩ := hidle
    have hparam : (activateRequest name).paramStr "name" = some name := by
      simp [activateRequest, Request.paramStr, Value.asStr]
    obtain ⟨entry', b₁, hreceive, htask, h⟩ :=
      h c (activateRequest name) broker rfl rfl hparam (fun _ _ => rfl) hidle
    rw [step_receive_activate rfl rfl hparam hfind hidle] at hreceive
    obtain rfl := Option.some.inj hreceive
    have hentry : entry = entry' := by simpa [Broker.setTask] using htask
    subst hentry
    obtain ⟨outcome⟩ : Nonempty StartOutcome := ⟨⟨.error "", .error "", false, false⟩⟩
    obtain ⟨b₂, -, -, h⟩ := h (broker.setTask c (.consult (activateRequest name).id entry))
      ⟨id, fun _ => .rfl⟩ outcome (fun _ _ => rfl) htask
    -- without a launch stanza the engine gives an error of its own
    by_contra hlaunch
    have hrefused : (broker.engine.activate entry c (broker.clientPid c) outcome).1 =
        .error (.notActivatable entry.name) :=
      activate_of_no_launch (by simpa using hlaunch) hpresent hgranted
    obtain ⟨message, hio⟩ := h broker outcome (fun _ _ => rfl) _ hrefused
    simp at hio
  · intro hlaunch c request b₀ hversion hmethod hparam _ hidle
    refine ⟨entry, _, step_receive_activate hversion hmethod hparam hfind hidle,
      by simp [Broker.setTask], fun b₂ order outcome hsame hconsult => ?_⟩
    refine ⟨_, step_consult hconsult (by rw [hsame, hgranted]), by simp [Broker.setTask],
      fun b₄ outcome hsame e => ?_⟩
    have hparsed : entry.Parsed sha256 := parsed_of_mem_enumerate (List.mem_of_find?_eq_some hfind)
    exact io_of_activate hparsed hlaunch hpresent (by rw [hsame, hgranted])

end Activate

end Listed

end McpLocator.Broker
