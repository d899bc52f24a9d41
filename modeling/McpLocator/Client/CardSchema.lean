import McpLocator.Client.NamePattern
import McpLocator.Proto.Rules

namespace McpLocator.Client

open McpLocator.Json McpLocator.Json.Serde McpLocator.Json.Schema McpLocator.Proto

/-!
# The published card schema

`local-server-card.schema.json` as a `Schema`, block by block, and what each block asks for.

* `localServerCardV1` — the schema that the client library compiles.
* `LaunchStrict`, `EndpointStrict`, … — what a block of the schema asks for on top of the shape the
  broker reads (`valid_launchSchema`, …).
* `SchemaRules` — the same for a whole card; `valid_card_iff`.
-/

/-! ### The schema -/

def typed (t : JsonType) : Schema := .type [t]

/-- A closed object with the given properties. -/
def closed (ps : List (String × Schema)) (required : List String) : Schema :=
  .all [typed .object, .properties ps .never, .required required]

def launchSchema : Schema :=
  closed
    [("type", .enum ["stdio", "executable"]),
      ("command", .all [typed .string, .minLength 1]),
      ("args", .all [typed .array, .items (typed .string)]),
      ("cwd", .type [.string, .null]),
      ("env", .all [typed .object, .properties [] (typed .string)]),
      ("shared", typed .boolean)]
    ["type", "command"]

def endpointSchema : Schema :=
  closed
    [("type", .enum ["pipe", "unix-socket", "streamable-http"]),
      ("address", .all [typed .string, .minLength 1])]
    ["type", "address"]

def livenessSchema : Schema := closed [("pidFile", typed .string), ("probe", typed .boolean)] []

def lifetimeSchema : Schema :=
  closed
    [("idleTimeoutSeconds", .all [typed .integer, .nonNegative]),
      ("shutdown", .enum ["graceful", "kill"])]
    []

def consentSchema : Schema := closed [("summary", .all [typed .string, .maxLength 500])] []

/-- `if` the launch type is `executable`, `then` an endpoint is required. -/
def endpointIfExecutable : Schema :=
  .ifThen
    (.all [.properties
        [("launch", .all [.properties [("type", .enum ["executable"])] always, .required ["type"]])]
        always,
      .required ["launch"]])
    (.required ["endpoint"])

def localSchema : Schema :=
  .all [closed
      [("launch", launchSchema), ("endpoint", endpointSchema), ("liveness", livenessSchema),
        ("lifetime", lifetimeSchema), ("consent", consentSchema)]
      [],
    endpointIfExecutable]

def iconSchema : Schema :=
  closed
    [("src", typed .string), ("mimeType", typed .string), ("sizes", typed .string),
      ("theme", .enum ["light", "dark"])]
    ["src"]

def repositorySchema : Schema :=
  .all [typed .object, .properties
    [("url", typed .string), ("source", typed .string), ("subfolder", typed .string)] always]

def remoteSchema : Schema :=
  .all [typed .object,
    .properties [("type", .enum ["streamable-http", "sse"]), ("url", typed .string)] always,
    .required ["type", "url"]]

/-- The properties a card may have. -/
def cardProperties : List (String × Schema) :=
  [("$schema", typed .string),
    ("name", .all [typed .string, .pattern namePattern, .maxLength 200]),
    ("version", .all [typed .string, .minLength 1, .maxLength 100]),
    ("description", .all [typed .string, .minLength 1, .maxLength 500]),
    ("title", .all [typed .string, .maxLength 100]),
    ("websiteUrl", typed .string),
    ("icons", .all [typed .array, .items iconSchema]),
    ("repository", repositorySchema),
    ("remotes", .all [typed .array, .items remoteSchema]),
    ("local", localSchema),
    ("_meta", typed .object)]

/-- A `local` block that declares `stanza`. -/
def declares (stanza : String) : Schema :=
  .all [.properties [("local", .required [stanza])] always, .required ["local"]]

/-- At least one of a launch, an endpoint and a nonempty list of remotes. -/
def declaresSomething : Schema :=
  .anyOf [declares "launch", declares "endpoint",
    .all [.properties [("remotes", .all [typed .array, .minItems 1])] always, .required ["remotes"]]]

/-- `local-server-card.schema.json`, version 1. -/
def localServerCardV1 : Schema :=
  .all [closed cardProperties ["name", "version", "description"], declaresSomething]

/-! ### What the schema asks for beyond the broker's readers -/

/-- An object. -/
def IsObject (v : Value) : Prop := ∃ ms, v = .object ms

/-- A string of between `lo` and `hi` characters. -/
def Sized (lo hi : Nat) (v : Value) : Prop := ∀ s, v = .string s → lo ≤ s.length ∧ s.length ≤ hi

/-- Not the empty string. -/
def NonEmpty (v : Value) : Prop := ∀ s, v = .string s → 1 ≤ s.length

/-- The block is an object with members named in `ks` only, which satisfy `p`. -/
def Strict (ks : List String) (p : List (String × Value) → Prop) (v : Value) : Prop :=
  ∃ ms, v = .object ms ∧ Closed ks ms ∧ p ms

/-- Enums are spelled as strings, a given command is not empty, an option is not `null`, and the
    environment holds strings. -/
def LaunchStrict : Value → Prop :=
  Strict ["type", "command", "args", "cwd", "env", "shared"] fun ms =>
    OnMember "type" IsString ms ∧ OnMember "command" NonEmpty ms ∧ OnMember "args" (· ≠ .null) ms ∧
      OnMember "env" (fun e => ∃ es, e = .object es ∧ ∀ m ∈ es, IsString m.2) ms ∧
        OnMember "shared" (· ≠ .null) ms

def EndpointStrict : Value → Prop :=
  Strict ["type", "address"] fun ms => OnMember "type" IsString ms ∧ OnMember "address" NonEmpty ms

def LivenessStrict : Value → Prop :=
  Strict ["pidFile", "probe"] fun ms =>
    OnMember "pidFile" (· ≠ .null) ms ∧ OnMember "probe" (· ≠ .null) ms

def LifetimeStrict : Value → Prop :=
  Strict ["idleTimeoutSeconds", "shutdown"] fun ms =>
    OnMember "idleTimeoutSeconds" (· ≠ .null) ms ∧
      OnMember "shutdown" (fun x => x = .string "graceful" ∨ x = .string "kill") ms

def ConsentStrict : Value → Prop :=
  Strict ["summary"] (OnMember "summary" fun x => x ≠ .null ∧ Sized 0 500 x)

def LocalStrict : Value → Prop :=
  Strict ["launch", "endpoint", "liveness", "lifetime", "consent"] fun ms =>
    OnMember "launch" LaunchStrict ms ∧ OnMember "endpoint" EndpointStrict ms ∧
      OnMember "liveness" LivenessStrict ms ∧ OnMember "lifetime" LifetimeStrict ms ∧
        OnMember "consent" ConsentStrict ms

/-- A name `isReverseDns` accepts. -/
def IsName (v : Value) : Prop := ∃ s, v = .string s ∧ isReverseDns s = true

def IsIcon : Value → Prop :=
  Strict ["src", "mimeType", "sizes", "theme"] fun ms =>
    (ms.lookup "src").isSome = true ∧ OnMember "src" IsString ms ∧
      OnMember "mimeType" IsString ms ∧ OnMember "sizes" IsString ms ∧
        OnMember "theme" (fun x => x = .string "light" ∨ x = .string "dark") ms

def IsRepository (v : Value) : Prop := ∃ ms, v = .object ms ∧
  OnMember "url" IsString ms ∧ OnMember "source" IsString ms ∧ OnMember "subfolder" IsString ms

def IsRemote (v : Value) : Prop := ∃ ms, v = .object ms ∧
  ((ms.lookup "type").isSome = true ∧ (ms.lookup "url").isSome = true) ∧
    OnMember "type" (fun x => x = .string "streamable-http" ∨ x = .string "sse") ms ∧
      OnMember "url" IsString ms

/-- What the schema asks of a card beyond `CardRules`: no member it does not know, nothing `null`
    but `cwd`, the length limits, and the members the broker does not read. -/
def SchemaRules : Value → Prop :=
  Strict (cardProperties.map Prod.fst) fun ms =>
    OnMember "$schema" IsString ms ∧ OnMember "version" (Sized 1 100) ms ∧
      OnMember "description" (Sized 1 500) ms ∧
        OnMember "title" (fun x => x ≠ .null ∧ Sized 0 100 x) ms ∧
          OnMember "websiteUrl" IsString ms ∧ OnMember "icons" (IsArrayOf IsIcon) ms ∧
            OnMember "repository" IsRepository ms ∧ OnMember "remotes" (IsArrayOf IsRemote) ms ∧
              OnMember "local" LocalStrict ms ∧ OnMember "_meta" IsObject ms

/-! ### Keywords -/

theorem valid_typed_string {v : Value} : (typed .string).valid v = true ↔ IsString v := by
  cases v <;> simp [typed, valid, JsonType.admits, IsString]

theorem valid_typed_boolean {v : Value} : (typed .boolean).valid v = true ↔ IsBool v := by
  cases v <;> simp [typed, valid, JsonType.admits, IsBool]

theorem valid_typed_object {v : Value} : (typed .object).valid v = true ↔ IsObject v := by
  cases v <;> simp [typed, valid, JsonType.admits, IsObject]

theorem valid_array {s : Schema} {v : Value} :
    (Schema.all [typed .array, .items s]).valid v = true ↔
      IsArrayOf (fun x => s.valid x = true) v := by
  cases v <;> simp [typed, valid, validAll, JsonType.admits, IsArrayOf]

theorem valid_enum {ss : List String} {v : Value} :
    (Schema.enum ss).valid v = true ↔ IsVariant ss v ∧ IsString v := by
  cases v <;> simp [valid, IsVariant, IsString]

theorem valid_enum_pair {a b : String} {v : Value} :
    (Schema.enum [a, b]).valid v = true ↔ v = .string a ∨ v = .string b := by
  cases v <;> simp [valid]

theorem valid_atMost {hi : Nat} {v : Value} :
    (Schema.all [typed .string, .maxLength hi]).valid v = true ↔ IsString v ∧ Sized 0 hi v := by
  cases v <;> simp [typed, valid, validAll, JsonType.admits, IsString, Sized]

theorem valid_sized {lo hi : Nat} {v : Value} :
    (Schema.all [typed .string, .minLength lo, .maxLength hi]).valid v = true ↔
      IsString v ∧ Sized lo hi v := by
  cases v <;> simp [typed, valid, validAll, JsonType.admits, IsString, Sized]

theorem valid_nonEmpty {v : Value} :
    (Schema.all [typed .string, .minLength 1]).valid v = true ↔ IsString v ∧ NonEmpty v := by
  cases v <;> simp [typed, valid, validAll, JsonType.admits, IsString, NonEmpty]

theorem valid_natural {v : Value} :
    (Schema.all [typed .integer, .nonNegative]).valid v = true ↔ IsNatural v := by
  cases v <;> simp [typed, valid, validAll, JsonType.admits, IsNatural]

theorem valid_closed_iff {ps : List (String × Schema)} {required : List String} {v : Value} :
    (closed ps required).valid v = true ↔ Strict (ps.map Prod.fst) (fun ms =>
      validProperties ps ms = true ∧ ∀ k ∈ required, (ms.lookup k).isSome = true) v := by
  cases v with
  | object ms =>
    have hclosed := valid_closed ps ms
    have hall : (closed ps required).valid (.object ms) = true ↔
        (Schema.properties ps .never).valid (.object ms) = true ∧
          ∀ k ∈ required, (ms.lookup k).isSome = true := by
      simp only [closed, valid, validAll, typed, JsonType.admits]
      simp
    rw [hall, hclosed]
    constructor
    · rintro ⟨⟨hps, hc⟩, hreq⟩
      exact ⟨ms, rfl, hc, hps, hreq⟩
    · rintro ⟨_, hms, hc, hps, hreq⟩
      obtain rfl := Value.object.inj hms
      exact ⟨⟨hps, hc⟩, hreq⟩
  | _ => simp [closed, valid, validAll, typed, JsonType.admits, Strict]

/-! ### Members -/

variable {p q : Value → Prop} {ms : List (String × Value)} {k : String}

theorem onMember_and : OnMember k (fun x => p x ∧ q x) ms ↔ OnMember k p ms ∧ OnMember k q ms :=
  ⟨fun h => ⟨fun x hx => (h x hx).1, fun x hx => (h x hx).2⟩, fun h x hx => ⟨h.1 x hx, h.2 x hx⟩⟩

theorem has_object (n i : Nat) (hp : ¬p .null) : Has n i k p (.object ms) ↔
    (ms.lookup k).isSome = true ∧ OnMember k p ms := by
  simp only [Has, given_object, OnMember]
  constructor
  · rintro ⟨x, ⟨hx, -⟩, hpx⟩
    refine ⟨by rw [hx]; rfl, fun y hy => ?_⟩
    obtain rfl := Option.some.inj (hx.symm.trans hy)
    exact hpx
  · rintro ⟨hsome, hall⟩
    obtain ⟨x, hx⟩ := Option.isSome_iff_exists.mp hsome
    refine ⟨x, ⟨hx, ?_⟩, hall x hx⟩
    rintro rfl
    exact hp (hall _ hx)

/-- What the schema says of an optional member is what the broker's reader says, and that the
    member is not `null`. -/
theorem onMember_optional (n i : Nat) (hp : ¬p .null) : OnMember k p ms ↔
    May n i k p (.object ms) ∧ OnMember k (· ≠ .null) ms := by
  simp only [May, given_object, OnMember]
  constructor
  · intro h
    refine ⟨fun x hx => h x hx.1, fun x hx => ?_⟩
    rintro rfl
    exact hp (h _ hx)
  · exact fun h x hx => h.1 x ⟨hx, h.2 x hx⟩

theorem onMember_nullable (n i : Nat) :
    OnMember k (fun x => x = .null ∨ p x) ms ↔ May n i k p (.object ms) := by
  simp only [May, given_object, OnMember]
  constructor
  · exact fun h x hx => (h x hx.1).resolve_left hx.2
  · intro h x hx
    by_cases hnull : x = .null
    · exact .inl hnull
    · exact .inr (h x ⟨hx, hnull⟩)

/-- A member the broker reads by `p` and the schema restricts by `q`. -/
theorem onMember_strict (n i : Nat) (hq : ¬q .null) : OnMember k (fun x => p x ∧ q x) ms ↔
    May n i k p (.object ms) ∧ OnMember k q ms := by
  simp only [May, given_object, OnMember]
  constructor
  · exact fun h => ⟨fun x hx => (h x hx.1).1, fun x hx => (h x hx).2⟩
  · intro h x hx
    refine ⟨h.1 x ⟨hx, ?_⟩, h.2 x hx⟩
    rintro rfl
    exact hq (h.2 _ hx)

/-- Two descriptions of objects agree if they agree on the members. -/
theorem strict_iff {ks : List String} {r r' : List (String × Value) → Prop} {v : Value}
    (h : ∀ ms, v = .object ms → Closed ks ms → (r ms ↔ p v ∧ r' ms)) :
    Strict ks r v ↔ p v ∧ Strict ks r' v := by
  constructor
  · rintro ⟨ms, rfl, hc, hr⟩
    obtain ⟨hp, hr'⟩ := (h ms rfl hc).mp hr
    exact ⟨hp, ms, rfl, hc, hr'⟩
  · rintro ⟨hp, ms, rfl, hc, hr'⟩
    exact ⟨ms, rfl, hc, (h ms rfl hc).mpr ⟨hp, hr'⟩⟩

theorem strict_congr {ks : List String} {r r' : List (String × Value) → Prop} {v : Value}
    (h : ∀ ms, r ms ↔ r' ms) : Strict ks r v ↔ Strict ks r' v := by
  simp only [Strict, h]

theorem isVariant_ne_null {names : List String} : ¬IsVariant names .null := by simp [IsVariant]

theorem isString_ne_null : ¬IsString .null := by simp [IsString]

theorem isBool_ne_null : ¬IsBool .null := by simp [IsBool]

theorem isArrayOf_ne_null : ¬IsArrayOf p .null := by simp [IsArrayOf]

theorem isNatural_ne_null : ¬IsNatural .null := by simp [IsNatural]

theorem isStruct_object {n : Nat} : IsStruct n (.object ms) := .inl ⟨ms, rfl⟩

/-! ### Blocks -/

theorem valid_environment {v : Value} :
    (Schema.all [typed .object, .properties [] (typed .string)]).valid v = true ↔
      ∃ es, v = .object es ∧ ∀ m ∈ es, IsString m.2 := by
  cases v with
  | object es =>
    have h := valid_each (typed .string) es
    simp only [valid_typed_string] at h
    simp only [valid, validAll, typed, JsonType.admits] at h ⊢
    simpa using h
  | _ => simp [valid, validAll, typed, JsonType.admits]

theorem valid_nullable_string {v : Value} :
    (Schema.type [.string, .null]).valid v = true ↔ v = .null ∨ IsString v := by
  cases v <;> simp [valid, JsonType.admits, IsString]

theorem valid_launchSchema (v : Value) :
    launchSchema.valid v = true ↔ LaunchShape v ∧ LaunchStrict v := by
  rw [launchSchema, valid_closed_iff]
  refine strict_iff fun ms hv _ => ?_
  subst hv
  simp only [validProperties_cons, validProperties_nil, valid_enum, valid_nonEmpty, valid_array,
    valid_nullable_string, valid_environment, valid_typed_string, valid_typed_boolean,
    onMember_and, and_true, List.forall_mem_cons, LaunchShape, isStruct_object, true_and]
  rw [onMember_optional 5 2 isArrayOf_ne_null, onMember_nullable 5 3,
    onMember_optional 5 4 isBool_ne_null, has_object 5 0 isVariant_ne_null,
    has_object 5 1 isString_ne_null]
  constructor
  · rintro ⟨⟨⟨ht, ht'⟩, ⟨hc, hc'⟩, ⟨ha, ha'⟩, hcwd, he, ⟨hs, hs'⟩⟩, htype, hcommand, -⟩
    exact ⟨⟨⟨htype, ht⟩, ⟨hcommand, hc⟩, ha, hcwd, hs⟩, ht', hc', ha', he, hs'⟩
  · rintro ⟨⟨⟨htype, ht⟩, ⟨hcommand, hc⟩, ha, hcwd, hs⟩, ht', hc', ha', he, hs'⟩
    exact ⟨⟨⟨ht, ht'⟩, ⟨hc, hc'⟩, ⟨ha, ha'⟩, hcwd, he, ⟨hs, hs'⟩⟩, htype, hcommand, by simp⟩

theorem valid_endpointSchema (v : Value) :
    endpointSchema.valid v = true ↔ EndpointShape v ∧ EndpointStrict v := by
  rw [endpointSchema, valid_closed_iff]
  refine strict_iff fun ms hv _ => ?_
  subst hv
  simp only [validProperties_cons, validProperties_nil, valid_enum, valid_nonEmpty, onMember_and,
    and_true, List.forall_mem_cons, EndpointShape, isStruct_object, true_and]
  rw [has_object 2 0 isVariant_ne_null, has_object 2 1 isString_ne_null]
  constructor
  · rintro ⟨⟨⟨ht, ht'⟩, ha, ha'⟩, htype, haddress, -⟩
    exact ⟨⟨⟨htype, ht⟩, haddress, ha⟩, ht', ha'⟩
  · rintro ⟨⟨⟨htype, ht⟩, haddress, ha⟩, ht', ha'⟩
    exact ⟨⟨⟨ht, ht'⟩, ha, ha'⟩, htype, haddress, by simp⟩

theorem valid_livenessSchema (v : Value) :
    livenessSchema.valid v = true ↔ LivenessShape v ∧ LivenessStrict v := by
  rw [livenessSchema, valid_closed_iff]
  refine strict_iff fun ms hv _ => ?_
  subst hv
  simp only [validProperties_cons, validProperties_nil, valid_typed_string, valid_typed_boolean,
    and_true, List.not_mem_nil, IsEmpty.forall_iff, implies_true, LivenessShape, isStruct_object, true_and]
  rw [onMember_optional 2 0 isString_ne_null, onMember_optional 2 1 isBool_ne_null]
  exact and_and_and_comm

theorem valid_lifetimeSchema (v : Value) :
    lifetimeSchema.valid v = true ↔ LifetimeShape IsNatural v ∧ LifetimeStrict v := by
  rw [lifetimeSchema, valid_closed_iff]
  refine strict_iff fun ms hv _ => ?_
  subst hv
  simp only [validProperties_cons, validProperties_nil, valid_natural, valid_enum_pair, and_true,
    List.not_mem_nil, IsEmpty.forall_iff, implies_true, LifetimeShape, isStruct_object, true_and]
  rw [onMember_optional 1 0 isNatural_ne_null, and_assoc]

theorem valid_consentSchema (v : Value) :
    consentSchema.valid v = true ↔ ConsentShape v ∧ ConsentStrict v := by
  rw [consentSchema, valid_closed_iff]
  refine strict_iff fun ms hv _ => ?_
  subst hv
  simp only [validProperties_cons, validProperties_nil, valid_atMost, onMember_and, and_true,
    List.not_mem_nil, IsEmpty.forall_iff, implies_true, ConsentShape, isStruct_object, true_and]
  rw [onMember_optional 1 0 isString_ne_null, and_assoc]

/-- The conditional of the `local` block: an `executable` launch needs an endpoint. -/
theorem valid_endpointIfExecutable (ms : List (String × Value))
    (hlaunch : OnMember "launch" (fun x => ∃ ls, x = .object ls) ms) :
    endpointIfExecutable.valid (.object ms) = true ↔
      (OnMember "launch" (fun x => x.get "type" ≠ some (.string "executable")) ms ∨
        (ms.lookup "endpoint").isSome = true) := by
  simp only [endpointIfExecutable, valid, validAll, validProperties, List.all_cons, List.all_nil,
    Bool.and_true]
  cases hl : ms.lookup "launch" with
  | none => simp [OnMember, hl]
  | some l =>
    obtain ⟨ls, rfl⟩ := hlaunch l hl
    cases ht : ls.lookup "type" with
    | none => simp [OnMember, hl, ht]
    | some t =>
      cases t <;> simp [OnMember, hl, ht]

theorem strict_ne_null {ks : List String} {r : List (String × Value) → Prop} :
    ¬Strict ks r .null := by simp [Strict]

/-- An `executable` launch comes with an endpoint to serve on. -/
def Serves (b : Value) : Prop :=
  Has 5 0 "launch" (Has 5 0 "type" (IsVariant ["executable"])) b →
    (given 5 1 "endpoint" b).isSome = true

/-- A member of a strict block is present exactly when it is given. -/
theorem given_isSome_iff (n i : Nat) (hp : ¬p .null) (h : OnMember k p ms) :
    (given n i k (.object ms)).isSome = true ↔ (ms.lookup k).isSome = true := by
  simp only [Option.isSome_iff_exists, given_object]
  constructor
  · rintro ⟨x, hx, -⟩
    exact ⟨x, hx⟩
  · rintro ⟨x, hx⟩
    refine ⟨x, hx, ?_⟩
    rintro rfl
    exact hp (h _ hx)

theorem serves_object_iff (hlaunch : OnMember "launch" LaunchStrict ms)
    (hendpoint : OnMember "endpoint" EndpointStrict ms) : Serves (.object ms) ↔
      (OnMember "launch" (fun x => x.get "type" ≠ some (.string "executable")) ms ∨
        (ms.lookup "endpoint").isSome = true) := by
  have htype : Has 5 0 "launch" (Has 5 0 "type" (IsVariant ["executable"])) (.object ms) ↔
      ∃ x, ms.lookup "launch" = some x ∧ x.get "type" = some (.string "executable") := by
    simp only [Has, given_object]
    -- a strict launch stanza is an object whose type is a string, so both ways of reading agree
    constructor
    · rintro ⟨l, ⟨hl, -⟩, t, ht, s, hs, hts⟩
      obtain ⟨ls, rfl, -, hstring, -⟩ := hlaunch l hl
      obtain ⟨ht, -⟩ := given_object.mp ht
      refine ⟨_, hl, ?_⟩
      obtain ⟨u, rfl⟩ := hstring t ht
      rw [Value.get_object, ht]
      rcases hts with hts | hts
      · rw [hts, List.mem_singleton.mp hs]
      · exact absurd hts (by simp)
    · rintro ⟨l, hl, ht⟩
      obtain ⟨ls, rfl, -⟩ := hlaunch l hl
      exact ⟨_, ⟨hl, by simp⟩, _, given_object.mpr ⟨ht, by simp⟩, "executable", by simp, .inl rfl⟩
  rw [Serves, htype, given_isSome_iff 5 1 strict_ne_null hendpoint]
  by_cases hno : OnMember "launch" (fun x => x.get "type" ≠ some (.string "executable")) ms
  · simp only [hno, true_or, iff_true]
    rintro ⟨x, hx, ht⟩
    exact absurd ht (hno x hx)
  · simp only [hno, false_or]
    simp only [OnMember, not_forall, not_not, exists_prop] at hno
    simp only [hno, forall_const]

theorem valid_localSchema (v : Value) : localSchema.valid v = true ↔
    LocalShape IsNatural v ∧ LocalStrict v ∧ Serves v := by
  have hblocks : (closed [("launch", launchSchema), ("endpoint", endpointSchema),
      ("liveness", livenessSchema), ("lifetime", lifetimeSchema), ("consent", consentSchema)]
        []).valid v = true ↔ LocalShape IsNatural v ∧ LocalStrict v := by
    rw [valid_closed_iff]
    refine strict_iff fun ms hv _ => ?_
    subst hv
    simp only [validProperties_cons, validProperties_nil, valid_launchSchema, valid_endpointSchema,
      valid_livenessSchema, valid_lifetimeSchema, valid_consentSchema, and_true, List.not_mem_nil,
      IsEmpty.forall_iff, implies_true, LocalShape, isStruct_object, true_and]
    have hlaunch : ¬LaunchStrict .null := strict_ne_null
    have hendpoint : ¬EndpointStrict .null := strict_ne_null
    have hliveness : ¬LivenessStrict .null := strict_ne_null
    have hlifetime : ¬LifetimeStrict .null := strict_ne_null
    have hconsent : ¬ConsentStrict .null := strict_ne_null
    rw [onMember_strict 5 0 hlaunch, onMember_strict 5 1 hendpoint, onMember_strict 5 2 hliveness,
      onMember_strict 5 3 hlifetime, onMember_strict 5 4 hconsent]
    constructor
    · rintro ⟨⟨hl, hl'⟩, ⟨he, he'⟩, ⟨hv, hv'⟩, ⟨ht, ht'⟩, hc, hc'⟩
      exact ⟨⟨hl, he, hv, ht, hc⟩, hl', he', hv', ht', hc'⟩
    · rintro ⟨⟨hl, he, hv, ht, hc⟩, hl', he', hv', ht', hc'⟩
      exact ⟨⟨hl, hl'⟩, ⟨he, he'⟩, ⟨hv, hv'⟩, ⟨ht, ht'⟩, hc, hc'⟩
  have hall : localSchema.valid v = true ↔
      (LocalShape IsNatural v ∧ LocalStrict v) ∧ endpointIfExecutable.valid v = true := by
    rw [← hblocks]
    simp [localSchema, valid, validAll]
  -- the conditional part is only looked at where the blocks are what they should be
  rw [hall, and_assoc]
  refine and_congr_right fun _ => and_congr_right fun hstrict => ?_
  obtain ⟨ms, rfl, -, hlaunch, hendpoint, -⟩ := hstrict
  rw [serves_object_iff hlaunch hendpoint]
  refine valid_endpointIfExecutable ms fun x hx => ?_
  obtain ⟨ls, hls, -⟩ := hlaunch x hx
  exact ⟨ls, hls⟩

/-! ### Cards -/

theorem valid_name {v : Value} :
    (Schema.all [typed .string, .pattern namePattern, .maxLength 200]).valid v = true ↔
      IsName v := by
  cases v with
  | string s =>
    have h := namePattern_iff s
    simp only [typed, valid, validAll, JsonType.admits, IsName, Value.string.injEq]
    simpa using h
  | _ => simp [typed, valid, validAll, JsonType.admits, IsName]

theorem valid_iconSchema (v : Value) : iconSchema.valid v = true ↔ IsIcon v := by
  rw [iconSchema, valid_closed_iff]
  refine strict_congr fun ms => ?_
  simp only [validProperties_cons, validProperties_nil, valid_typed_string, valid_enum_pair,
    and_true, List.mem_singleton, forall_eq]
  exact and_comm

/-- An open object, its required members listed. -/
theorem valid_open_iff (ps : List (String × Schema)) (v : Value) :
    (Schema.all [typed .object, .properties ps always]).valid v = true ↔
      ∃ ms, v = .object ms ∧ validProperties ps ms = true := by
  cases v <;> simp [typed, valid, validAll, JsonType.admits]

theorem valid_repositorySchema (v : Value) :
    repositorySchema.valid v = true ↔ IsRepository v := by
  rw [repositorySchema, valid_open_iff]
  simp only [validProperties_cons, validProperties_nil, valid_typed_string, and_true]
  rfl

theorem valid_remoteSchema (v : Value) : remoteSchema.valid v = true ↔ IsRemote v := by
  have hopen := valid_open_iff [("type", .enum ["streamable-http", "sse"]),
    ("url", typed .string)] v
  have hall : remoteSchema.valid v = true ↔
      (Schema.all [typed .object, .properties [("type", .enum ["streamable-http", "sse"]),
        ("url", typed .string)] always]).valid v = true ∧
      (Schema.required ["type", "url"]).valid v = true := by
    simp [remoteSchema, valid, validAll, and_assoc]
  rw [hall, hopen]
  simp only [validProperties_cons, validProperties_nil, valid_typed_string, valid_enum_pair,
    and_true]
  constructor
  · rintro ⟨⟨ms, rfl, hps⟩, hreq⟩
    exact ⟨ms, rfl, by simpa [valid] using hreq, hps⟩
  · rintro ⟨ms, rfl, hreq, hps⟩
    exact ⟨⟨ms, rfl, hps⟩, by simpa [valid] using hreq⟩

/-- A block of `local` counts as declared for the schema when the broker is given it. -/
theorem valid_declares_iff (i : Nat) (hq : ¬q .null)
    (hlocal : OnMember "local" (fun b => ∃ bs, b = .object bs ∧ OnMember k q bs) ms) :
    (declares k).valid (.object ms) = true ↔
      ((localOf (.object ms)).bind (given 5 i k)).isSome = true := by
  simp only [declares, valid, validAll, validProperties, List.all_cons, List.all_nil,
    Bool.and_true, localOf]
  cases hl : ms.lookup "local" with
  | none =>
    have hg : given 6 4 "local" (.object ms) = none := by
      simp [Option.eq_none_iff_forall_ne_some, given_object, hl]
    simp [hg]
  | some b =>
    obtain ⟨bs, rfl, hk⟩ := hlocal b hl
    have hg : given 6 4 "local" (.object ms) = some (.object bs) :=
      given_object.mpr ⟨hl, by simp⟩
    rw [hg, Option.bind_some, given_isSome_iff 5 i hq hk]
    simp

theorem valid_declaresSomething (hlocal : OnMember "local" LocalStrict ms)
    (hremotes : OnMember "remotes" (IsArrayOf IsRemote) ms) :
    declaresSomething.valid (.object ms) = true ↔
      (launchOf (.object ms)).isSome = true ∨ (endpointOf (.object ms)).isSome = true ∨
        Has 6 5 "remotes" (· ≠ .array []) (.object ms) := by
  have hlaunch := valid_declares_iff 0 (k := "launch") (q := LaunchStrict) strict_ne_null
    fun b hb => let ⟨bs, hbs, _, hl, _⟩ := hlocal b hb; ⟨bs, hbs, hl⟩
  have hendpoint := valid_declares_iff 1 (k := "endpoint") (q := EndpointStrict) strict_ne_null
    fun b hb => let ⟨bs, hbs, _, _, he, _⟩ := hlocal b hb; ⟨bs, hbs, he⟩
  have hrem : (Schema.all [.properties [("remotes", .all [typed .array, .minItems 1])] always,
      .required ["remotes"]]).valid (.object ms) = true ↔
        Has 6 5 "remotes" (· ≠ .array []) (.object ms) := by
    simp only [valid, validAll, validProperties, List.all_cons, List.all_nil, Bool.and_true, Has,
      given_object]
    cases hr : ms.lookup "remotes" with
    | none => simp
    | some r =>
      obtain ⟨items, rfl, -⟩ := hremotes r hr
      -- an empty list of remotes declares nothing
      cases items <;> simp [typed, valid, JsonType.admits]
  rw [launchOf, endpointOf, ← hlaunch, ← hendpoint, ← hrem]
  simp [declaresSomething, valid, validAny]

/-- **The schema asks for the broker's rules and its own.** -/
theorem valid_card_iff (v : Value) :
    localServerCardV1.valid v = true ↔ CardRules v ∧ SchemaRules v := by
  have hall : localServerCardV1.valid v = true ↔
      (closed cardProperties ["name", "version", "description"]).valid v = true ∧
        declaresSomething.valid v = true := by
    simp [localServerCardV1, valid, validAll]
  have hlocal : ¬LocalStrict .null := strict_ne_null
  rw [hall, valid_closed_iff]
  constructor
  · rintro ⟨⟨ms, rfl, hclosed, hps, hreq⟩, hdeclares⟩
    simp only [cardProperties, validProperties_cons, validProperties_nil, valid_typed_string,
      valid_name, valid_sized, valid_atMost, valid_array, valid_iconSchema,
      valid_repositorySchema, valid_remoteSchema, valid_localSchema, valid_typed_object, and_true,
      onMember_and] at hps
    obtain ⟨hschema, hname, ⟨hv, hv'⟩, ⟨hd, hd'⟩, ⟨ht, ht'⟩, hw, hi, hrep, hrem, ⟨hl, hl', hs⟩,
      hmeta⟩ := hps
    simp only [List.forall_mem_cons] at hreq
    obtain ⟨hreqn, hreqv, hreqd, -⟩ := hreq
    -- the broker reads `null` as a missing title, the schema does not
    obtain ⟨ht, htnull⟩ := (onMember_optional 6 3 isString_ne_null).mp ht
    refine ⟨⟨⟨ms, rfl⟩, ?_, ?_, ?_, ht, ?_, ?_, ?_, ?_⟩, ?_⟩
    · obtain ⟨x, hx⟩ := Option.isSome_iff_exists.mp hreqn
      obtain ⟨s, rfl, hs⟩ := hname x hx
      exact ⟨s, hx, hs⟩
    · exact (has_object 6 1 isString_ne_null).mpr ⟨hreqv, hv⟩
    · exact (has_object 6 2 isString_ne_null).mpr ⟨hreqd, hd⟩
    · exact fun x hx => hl x (given_object.mp hx).1
    · intro x hx
      obtain ⟨items, rfl, -⟩ := hrem x (given_object.mp hx).1
      exact ⟨items, rfl, fun _ _ => trivial⟩
    · exact (valid_declaresSomething hl' hrem).mp hdeclares
    · rintro ⟨b, hb, hexec⟩
      show ((localOf (.object ms)).bind (given 5 1 "endpoint")).isSome = true
      rw [localOf, hb]
      exact hs b (given_object.mp hb).1 hexec
    · exact ⟨ms, rfl, hclosed, hschema, hv', hd', onMember_and.mpr ⟨htnull, ht'⟩, hw, hi, hrep,
        hrem, hl', hmeta⟩
  · rintro ⟨hrules, ms, rfl, hclosed, hschema, hv', hd', ht', hw, hi, hrep, hrem, hl', hmeta⟩
    obtain ⟨htnull, ht'⟩ := onMember_and.mp ht'
    obtain ⟨s, hget, hs⟩ := hrules.name
    obtain ⟨hreqv, hv⟩ := (has_object 6 1 isString_ne_null).mp hrules.version
    obtain ⟨hreqd, hd⟩ := (has_object 6 2 isString_ne_null).mp hrules.description
    -- a strict `local` is no `null`, so the broker is given it
    have hgiven : ∀ b, ms.lookup "local" = some b → given 6 4 "local" (.object ms) = some b := by
      intro b hb
      refine given_object.mpr ⟨hb, ?_⟩
      rintro rfl
      exact hlocal (hl' _ hb)
    refine ⟨⟨ms, rfl, hclosed, ?_, ?_⟩, (valid_declaresSomething hl' hrem).mpr hrules.declared⟩
    · simp only [cardProperties, validProperties_cons, validProperties_nil, valid_typed_string,
        valid_name, valid_sized, valid_atMost, valid_array, valid_iconSchema,
        valid_repositorySchema, valid_remoteSchema, valid_localSchema, valid_typed_object,
        and_true, onMember_and]
      refine ⟨hschema, ?_, ⟨hv, hv'⟩, ⟨hd, hd'⟩, ⟨?_, ht'⟩, hw, hi, hrep, hrem, ⟨?_, hl', ?_⟩, hmeta⟩
      · intro x hx
        obtain rfl := Option.some.inj (hget.symm.trans hx)
        exact ⟨s, rfl, hs⟩
      · exact (onMember_optional 6 3 isString_ne_null).mpr ⟨hrules.title, htnull⟩
      · exact fun b hb => hrules.localBlock b (hgiven b hb)
      · intro b hb hexec
        have := hrules.serves ⟨b, hgiven b hb, hexec⟩
        rwa [endpointOf, localOf, hgiven b hb] at this
    · rw [Value.get_object] at hget
      simp only [List.forall_mem_cons]
      exact ⟨by rw [hget]; rfl, hreqv, hreqd, by simp⟩

end McpLocator.Client
