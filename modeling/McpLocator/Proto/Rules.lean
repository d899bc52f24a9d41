import McpLocator.Proto.Card

namespace McpLocator.Proto

open McpLocator.Json McpLocator.Json.Serde

/-!
# What `validate` accepts

The rules of `validate` and of the derived readers below it, as conditions on the JSON value.

* `LaunchShape`, `EndpointShape`, … — what each reader accepts (`Launch.isSome_iff`, …).
* `CardRules` — everything but the range of the idle timeout, which is `TimeoutIsUnsigned`.
* `validate_ok_iff` — `validate` accepts exactly the cards that satisfy the two.
-/

/-! ### Shapes -/

/-- A JSON string. -/
def IsString (v : Value) : Prop := ∃ s, v = .string s

/-- A JSON Boolean. -/
def IsBool (v : Value) : Prop := ∃ b, v = .bool b

/-- An array whose items satisfy `p`. -/
def IsArrayOf (p : Value → Prop) (v : Value) : Prop := ∃ items, v = .array items ∧ ∀ x ∈ items, p x

/-- One of the names of an enum, on its own or as the only key of an object. -/
def IsVariant (names : List String) (v : Value) : Prop :=
  ∃ s ∈ names, v = .string s ∨ v = .object [(s, .null)]

/-- An object, or an array of at most `n` items. -/
def IsStruct (n : Nat) (v : Value) : Prop :=
  (∃ ms, v = .object ms) ∨ ∃ items, v = .array items ∧ items.length ≤ n

/-- A number that is integral and not negative. -/
def IsNatural (v : Value) : Prop := ∃ n : Number, v = .number n ∧ n.decimal.isInteger = true ∧
  (n.decimal.negative = false ∨ n.decimal.mantissa = 0)

/-- An unsigned 64-bit integer. -/
def IsUnsigned (v : Value) : Prop := ∃ n, v = .number (.posInt n)

/-- The struct is given the field, and it satisfies `p`. -/
def Has (n i : Nat) (name : String) (p : Value → Prop) (v : Value) : Prop :=
  ∃ x, given n i name v = some x ∧ p x

/-- The field satisfies `p` if the struct is given it. -/
def May (n i : Nat) (name : String) (p : Value → Prop) (v : Value) : Prop :=
  ∀ x, given n i name v = some x → p x

def LaunchShape (v : Value) : Prop :=
  IsStruct 5 v ∧ Has 5 0 "type" (IsVariant ["stdio", "executable"]) v ∧
    Has 5 1 "command" IsString v ∧ May 5 2 "args" (IsArrayOf IsString) v ∧
      May 5 3 "cwd" IsString v ∧ May 5 4 "shared" IsBool v

def EndpointShape (v : Value) : Prop :=
  IsStruct 2 v ∧ Has 2 0 "type" (IsVariant ["pipe", "unix-socket", "streamable-http"]) v ∧
    Has 2 1 "address" IsString v

def LivenessShape (v : Value) : Prop :=
  IsStruct 2 v ∧ May 2 0 "pidFile" IsString v ∧ May 2 1 "probe" IsBool v

/-- A lifetime block, its timeout satisfying `timeout`. -/
def LifetimeShape (timeout : Value → Prop) (v : Value) : Prop :=
  IsStruct 1 v ∧ May 1 0 "idleTimeoutSeconds" timeout v

def ConsentShape (v : Value) : Prop := IsStruct 1 v ∧ May 1 0 "summary" IsString v

def LocalShape (timeout : Value → Prop) (v : Value) : Prop :=
  IsStruct 5 v ∧ May 5 0 "launch" LaunchShape v ∧ May 5 1 "endpoint" EndpointShape v ∧
    May 5 2 "liveness" LivenessShape v ∧ May 5 3 "lifetime" (LifetimeShape timeout) v ∧
      May 5 4 "consent" ConsentShape v

/-! ### The readers -/

theorem isSome_fields_iff {n : Nat} {v : Value} : (fields n v).isSome = true ↔ IsStruct n v := by
  cases v <;> simp [fields, IsStruct]

theorem string_isSome {v : Value} : (string v).isSome = true ↔ IsString v := by
  cases v <;> simp [string, IsString]

theorem bool_isSome {v : Value} : (Serde.bool v).isSome = true ↔ IsBool v := by
  cases v <;> simp [Serde.bool, IsBool]

theorem u64_isSome {v : Value} : (u64 v).isSome = true ↔ IsUnsigned v := by
  cases v with
  | number n => cases n <;> simp [u64, IsUnsigned]
  | _ => simp [u64, IsUnsigned]

theorem strings_isSome {v : Value} : (vec string v).isSome = true ↔ IsArrayOf IsString v := by
  simp only [vec_isSome, string_isSome]
  rfl

theorem variant_isSome {α : Type} {variants : List (String × α)} {v : Value} :
    (unitEnum variants v).isSome = true ↔ IsVariant (variants.map Prod.fst) v := by
  have key : ∀ s, (variants.lookup s).isSome = true ↔ s ∈ variants.map Prod.fst := by
    intro s
    induction variants with
    | nil => simp
    | cons p ps ih =>
      obtain ⟨k, a⟩ := p
      rw [List.lookup_cons, List.map_cons, List.mem_cons, ← ih]
      by_cases h : s = k
      · simp [h]
      · simp [h, beq_eq_false_iff_ne.mpr h]
  rw [unitEnum_isSome]
  simp only [key]
  rfl

/-- A struct can be read when its fields can. -/
theorem isSome_struct {α : Type} {n : Nat} {v : Value} {read : Fields → Option α} {p : Prop}
    (h : ∀ fs, fields n v = some fs → ((read fs).isSome = true ↔ p)) :
    ((fields n v).bind read).isSome = true ↔ IsStruct n v ∧ p := by
  rw [← isSome_fields_iff]
  cases hf : fields n v with
  | none => simp
  | some fs => simp [h fs hf]

theorem Launch.isSome_iff (v : Value) : (Launch.deserialize v).isSome = true ↔ LaunchShape v := by
  refine isSome_struct fun fs hf => ?_
  refine (isSome_bind_iff fun _ => isSome_bind_iff fun _ => isSome_bind_iff fun _ =>
    isSome_bind_iff fun _ => isSome_bind_some).trans ?_
  rw [required_isSome rfl hf, required_isSome rfl hf, defaulted_isSome hf, defaulted_isSome hf,
    defaulted_isSome hf]
  simp only [variant_isSome, string_isSome, strings_isSome, bool_isSome]
  rfl

theorem Endpoint.isSome_iff (v : Value) :
    (Endpoint.deserialize v).isSome = true ↔ EndpointShape v := by
  refine isSome_struct fun fs hf => ?_
  refine (isSome_bind_iff fun _ => isSome_bind_some).trans ?_
  rw [required_isSome rfl hf, required_isSome rfl hf]
  simp only [variant_isSome, string_isSome]
  rfl

theorem Liveness.isSome_iff (v : Value) :
    (Liveness.deserialize v).isSome = true ↔ LivenessShape v := by
  refine isSome_struct fun fs hf => ?_
  refine (isSome_bind_iff fun _ => isSome_bind_some).trans ?_
  rw [defaulted_isSome hf, defaulted_isSome hf]
  simp only [string_isSome, bool_isSome]
  rfl

theorem Lifetime.isSome_iff (v : Value) :
    (Lifetime.deserialize v).isSome = true ↔ LifetimeShape IsUnsigned v := by
  refine isSome_struct fun fs hf => ?_
  refine isSome_bind_some.trans ?_
  rw [defaulted_isSome hf]
  simp only [u64_isSome]
  rfl

theorem Consent.isSome_iff (v : Value) :
    (Consent.deserialize v).isSome = true ↔ ConsentShape v := by
  refine isSome_struct fun fs hf => ?_
  refine isSome_bind_some.trans ?_
  rw [defaulted_isSome hf]
  simp only [string_isSome]
  rfl

theorem LocalBlock.isSome_iff (v : Value) :
    (LocalBlock.deserialize v).isSome = true ↔ LocalShape IsUnsigned v := by
  refine isSome_struct fun fs hf => ?_
  refine (isSome_bind_iff fun _ => isSome_bind_iff fun _ => isSome_bind_iff fun _ =>
    isSome_bind_iff fun _ => isSome_bind_some).trans ?_
  simp only [defaulted_isSome hf, Launch.isSome_iff, Endpoint.isSome_iff, Liveness.isSome_iff,
    Lifetime.isSome_iff, Consent.isSome_iff]
  rfl

/-- What a struct reads for a field with a default comes from what it is given. -/
theorem read_defaulted {α β : Type} {n i : Nat} {name : String} {v : Value} {fs : Fields}
    {read : Value → Option α} {k : Option α → Option β} {b : β} (hf : fields n v = some fs)
    (h : (fs.defaulted i name read).bind k = some b) :
    k ((given n i name v).bind read) = some b := by
  obtain ⟨o, ho, hk⟩ := Option.bind_eq_some_iff.mp h
  rwa [← defaulted_value hf ho]

theorem LocalBlock.deserialize_eq_some {v : Value} {l : LocalBlock}
    (h : LocalBlock.deserialize v = some l) :
    l.launch = (given 5 0 "launch" v).bind Launch.deserialize ∧
      l.endpoint = (given 5 1 "endpoint" v).bind Endpoint.deserialize := by
  obtain ⟨fs, hf, h⟩ := Option.bind_eq_some_iff.mp h
  have h := read_defaulted hf (read_defaulted hf h)
  obtain ⟨_, _, h⟩ := Option.bind_eq_some_iff.mp h
  obtain ⟨_, _, h⟩ := Option.bind_eq_some_iff.mp h
  obtain ⟨_, _, h⟩ := Option.bind_eq_some_iff.mp h
  obtain rfl := Option.some.inj h
  exact ⟨rfl, rfl⟩

theorem Card.deserialize_eq_some {v : Value} {card : Card} (h : Card.deserialize v = some card) :
    card.localBlock = (given 6 4 "local" v).bind LocalBlock.deserialize ∧
      card.remotes = (given 6 5 "remotes" v).bind (vec value) := by
  obtain ⟨fs, hf, h⟩ := Option.bind_eq_some_iff.mp h
  obtain ⟨_, _, h⟩ := Option.bind_eq_some_iff.mp h
  obtain ⟨_, _, h⟩ := Option.bind_eq_some_iff.mp h
  obtain ⟨_, _, h⟩ := Option.bind_eq_some_iff.mp h
  obtain ⟨_, _, h⟩ := Option.bind_eq_some_iff.mp h
  have h := read_defaulted hf (read_defaulted hf h)
  obtain rfl := Option.some.inj h
  exact ⟨rfl, rfl⟩

theorem Launch.deserialize_type {v : Value} {l : Launch} (h : Launch.deserialize v = some l) :
    (given 5 0 "type" v).bind (unitEnum LaunchType.variants) = some l.launchType := by
  obtain ⟨fs, hf, h⟩ := Option.bind_eq_some_iff.mp h
  obtain ⟨t, ht, h⟩ := Option.bind_eq_some_iff.mp h
  obtain ⟨_, _, h⟩ := Option.bind_eq_some_iff.mp h
  obtain ⟨_, _, h⟩ := Option.bind_eq_some_iff.mp h
  obtain ⟨_, _, h⟩ := Option.bind_eq_some_iff.mp h
  obtain ⟨_, _, h⟩ := Option.bind_eq_some_iff.mp h
  obtain rfl := Option.some.inj h
  rwa [required_eq rfl hf] at ht

/-! ### The rules of a card -/

/-- The `local` block a card is given. -/
def localOf (v : Value) : Option Value := given 6 4 "local" v

/-- The launch stanza a card is given. -/
def launchOf (v : Value) : Option Value := (localOf v).bind (given 5 0 "launch")

/-- The endpoint a card is given. -/
def endpointOf (v : Value) : Option Value := (localOf v).bind (given 5 1 "endpoint")

/-- The idle timeout a card is given. -/
def timeoutOf (v : Value) : Option Value :=
  ((localOf v).bind (given 5 3 "lifetime")).bind (given 1 0 "idleTimeoutSeconds")

/-- Every rule of `validate`, the range of the idle timeout left open. -/
structure CardRules (v : Value) : Prop where
  object : ∃ ms, v = .object ms
  name : ∃ s, v.get "name" = some (.string s) ∧ isReverseDns s = true
  version : Has 6 1 "version" IsString v
  description : Has 6 2 "description" IsString v
  title : May 6 3 "title" IsString v
  localBlock : May 6 4 "local" (LocalShape IsNatural) v
  remotes : May 6 5 "remotes" (IsArrayOf fun _ => True) v
  /-- There is something to connect to. -/
  declared : (launchOf v).isSome = true ∨ (endpointOf v).isSome = true ∨
    Has 6 5 "remotes" (· ≠ .array []) v
  /-- What an `executable` launch starts serves on a declared endpoint. -/
  serves : Has 6 4 "local" (Has 5 0 "launch" (Has 5 0 "type" (IsVariant ["executable"]))) v →
    (endpointOf v).isSome = true

/-- The broker's own rule for the idle timeout. -/
def TimeoutIsUnsigned (v : Value) : Prop := ∀ t, timeoutOf v = some t → IsUnsigned t

theorem IsUnsigned.isNatural {v : Value} (h : IsUnsigned v) : IsNatural v := by
  obtain ⟨n, rfl⟩ := h
  exact ⟨_, rfl, by simp [Decimal.isInteger, Number.decimal], .inl rfl⟩

theorem LocalShape.isUnsigned_iff {b : Value} : LocalShape IsUnsigned b ↔ LocalShape IsNatural b ∧
    ∀ t, (given 5 3 "lifetime" b).bind (given 1 0 "idleTimeoutSeconds") = some t →
      IsUnsigned t := by
  -- only the lifetime reads the timeout; the other members pass through
  constructor
  · rintro ⟨hstruct, hlaunch, hendpoint, hliveness, hlifetime, hconsent⟩
    refine ⟨⟨hstruct, hlaunch, hendpoint, hliveness, fun x hx => ?_, hconsent⟩, fun t ht => ?_⟩
    · obtain ⟨hs, ht⟩ := hlifetime x hx
      exact ⟨hs, fun t h => (ht t h).isNatural⟩
    · obtain ⟨x, hx, ht⟩ := Option.bind_eq_some_iff.mp ht
      exact (hlifetime x hx).2 t ht
  · rintro ⟨⟨hstruct, hlaunch, hendpoint, hliveness, hlifetime, hconsent⟩, htimeout⟩
    refine ⟨hstruct, hlaunch, hendpoint, hliveness, fun x hx => ⟨(hlifetime x hx).1, ?_⟩, hconsent⟩
    exact fun t ht => htimeout t (Option.bind_eq_some_iff.mpr ⟨x, hx, ht⟩)

theorem Card.isSome_iff (v : Value) : (Card.deserialize v).isSome = true ↔
    IsStruct 6 v ∧ Has 6 0 "name" IsString v ∧ Has 6 1 "version" IsString v ∧
      Has 6 2 "description" IsString v ∧ May 6 3 "title" IsString v ∧
        May 6 4 "local" (LocalShape IsUnsigned) v ∧
          May 6 5 "remotes" (IsArrayOf fun _ => True) v := by
  refine isSome_struct fun fs hf => ?_
  refine (isSome_bind_iff fun _ => isSome_bind_iff fun _ => isSome_bind_iff fun _ =>
    isSome_bind_iff fun _ => isSome_bind_iff fun _ => isSome_bind_some).trans ?_
  have hstring : ∀ i name, (fs.required i name string).isSome = true ↔
      ∃ x, given 6 i name v = some x ∧ (string x).isSome = true :=
    fun _ _ => required_isSome rfl hf
  simp only [hstring, defaulted_isSome hf, string_isSome, LocalBlock.isSome_iff, vec_isSome]
  simp [Has, May, IsArrayOf, value]

/-! ### Acceptance -/

theorem eq_of_checkDeclared {c card : Card} (h : checkDeclared c = .ok card) : c = card := by
  unfold checkDeclared at h
  dsimp only at h
  split at h
  · simp at h
  · split at h
    · split at h
      · simp at h
      · exact Except.ok.inj h
    · exact Except.ok.inj h

/-- The card `validate` returns is the one that was read. -/
theorem deserialize_of_validate {v : Value} {card : Card} (h : validate v = .ok card) :
    Card.deserialize v = some card := by
  unfold validate at h
  -- object, missing field, name, pattern, shape: each failure contradicts `h`
  split at h
  · split at h
    · simp at h
    · split at h
      · simp at h
      · split at h
        · simp at h
        · split at h
          · simp at h
          · rename_i c hc
            rw [hc, eq_of_checkDeclared h]
  · simp at h

/-- A given struct member reads as itself, or not at all. -/
theorem isSome_bind_of_may {α : Type} {o : Option Value} {read : Value → Option α}
    (h : ∀ x, o = some x → (read x).isSome = true) : (o.bind read).isSome = o.isSome := by
  cases o with
  | none => rfl
  | some x => exact h x rfl

theorem checkDeclared_isOk_iff (card : Card) : (∃ c, checkDeclared card = .ok c) ↔
    (card.launch.isSome = true ∨ card.endpoint.isSome = true ∨
        card.remotes.any (fun r => !r.isEmpty) = true) ∧
      (∀ l, card.launch = some l → l.launchType = .executable → card.endpoint.isSome = true) := by
  unfold checkDeclared
  cases hl : card.launch with
  | none =>
    cases card.endpoint <;> cases card.remotes.any fun r => !r.isEmpty <;> simp
  | some l =>
    by_cases ht : l.launchType = .executable
    · cases card.endpoint <;> simp [ht]
    · simp [ht]

/-- `validate` is its checks in order. -/
theorem validate_isOk_iff (v : Value) : (∃ card, validate v = .ok card) ↔
    (∃ ms, v = .object ms) ∧ (∃ s, v.get "name" = some (.string s) ∧ isReverseDns s = true) ∧
      (v.get "version").isSome = true ∧ (v.get "description").isSome = true ∧
        ∃ card, Card.deserialize v = some card ∧ ∃ c, checkDeclared card = .ok c := by
  cases v with
  | object ms =>
    -- the first of the three required names that is missing is the one reported
    simp only [validate, List.find?_cons, List.find?_nil, Value.get_object, Value.object.injEq,
      exists_eq', true_and]
    cases hname : ms.lookup "name" with
    | none => simp
    | some name =>
      cases hversion : ms.lookup "version" with
      | none => simp
      | some version =>
        cases hdescription : ms.lookup "description" with
        | none => simp
        | some description =>
          simp only [Option.isNone_some, Option.bind_some, Option.isSome_some, true_and,
            Option.some.injEq]
          cases name with
          | string s =>
            by_cases hs : isReverseDns s = true
            · cases Card.deserialize (.object ms) <;> simp [Value.asStr, hs]
            · simp [Value.asStr, hs]
          | _ => simp [Value.asStr]
  | _ => simp [validate]

/-- The launch and the endpoint of a typed card are read from the stanzas it is given. -/
theorem Card.stanzas_eq {v : Value} {card : Card} (h : Card.deserialize v = some card) :
    card.launch = (launchOf v).bind Launch.deserialize ∧
      card.endpoint = (endpointOf v).bind Endpoint.deserialize := by
  have hlocal := (Card.deserialize_eq_some h).1
  have hread := ((Card.isSome_iff v).mp (by rw [h]; rfl)).2.2.2.2.2.1
  unfold Card.launch Card.endpoint launchOf endpointOf localOf
  cases hb : given 6 4 "local" v with
  | none =>
    rw [hb] at hlocal
    simp [hlocal]
  | some b =>
    rw [hb, Option.bind_some] at hlocal
    obtain ⟨l, hl⟩ := Option.isSome_iff_exists.mp ((LocalBlock.isSome_iff b).mpr (hread b hb))
    rw [hl] at hlocal
    rw [hlocal]
    exact LocalBlock.deserialize_eq_some hl

/-- The stanzas of a card that can be read can be read. -/
theorem Card.stanzas_isSome {v : Value} {card : Card} (h : Card.deserialize v = some card) :
    card.launch.isSome = (launchOf v).isSome ∧ card.endpoint.isSome = (endpointOf v).isSome := by
  have hread := ((Card.isSome_iff v).mp (by rw [h]; rfl)).2.2.2.2.2.1
  obtain ⟨hlaunch, hendpoint⟩ := Card.stanzas_eq h
  rw [hlaunch, hendpoint]
  constructor
  · refine isSome_bind_of_may fun x hx => ?_
    obtain ⟨b, hb, hx⟩ := Option.bind_eq_some_iff.mp hx
    exact (Launch.isSome_iff x).mpr ((hread b hb).2.1 x hx)
  · refine isSome_bind_of_may fun x hx => ?_
    obtain ⟨b, hb, hx⟩ := Option.bind_eq_some_iff.mp hx
    exact (Endpoint.isSome_iff x).mpr ((hread b hb).2.2.1 x hx)

theorem remotes_any_iff {v : Value} {card : Card} (h : Card.deserialize v = some card) :
    card.remotes.any (fun r => !r.isEmpty) = true ↔ Has 6 5 "remotes" (· ≠ .array []) v := by
  have hread := ((Card.isSome_iff v).mp (by rw [h]; rfl)).2.2.2.2.2.2
  rw [(Card.deserialize_eq_some h).2, Has]
  cases hg : given 6 5 "remotes" v with
  | none => simp
  | some r =>
    obtain ⟨items, rfl, -⟩ := hread r hg
    have hvalues : ∀ xs : List Value, xs.mapM value = some xs := by
      intro xs
      induction xs with
      | nil => rfl
      | cons x xs ih => simp [value, ih]
    cases items <;> simp [vec, hvalues]

theorem executable_iff {v : Value} {card : Card} (h : Card.deserialize v = some card) :
    (∃ l, card.launch = some l ∧ l.launchType = .executable) ↔
      Has 6 4 "local" (Has 5 0 "launch" (Has 5 0 "type" (IsVariant ["executable"]))) v := by
  -- a variant is spelled as its name, or as an object with that one key
  have hvariant : ∀ t, unitEnum LaunchType.variants t = some .executable ↔
      IsVariant ["executable"] t := by
    intro t
    constructor
    · intro ht
      have hlookup : ∀ s, LaunchType.variants.lookup s = some .executable → s = "executable" := by
        intro s hs
        have := Value.mem_of_lookup hs
        simpa [LaunchType.variants] using this
      unfold unitEnum at ht
      split at ht
      · exact ⟨_, List.mem_singleton.mpr (hlookup _ ht), .inl rfl⟩
      · exact ⟨_, List.mem_singleton.mpr (hlookup _ ht), .inr rfl⟩
      · simp at ht
    · rintro ⟨s, hs, rfl | rfl⟩ <;>
      · rw [List.mem_singleton.mp hs]
        rfl
  have hlaunch := (Card.stanzas_eq h).1
  have hread := ((Card.isSome_iff v).mp (by rw [h]; rfl)).2.2.2.2.2.1
  constructor
  · rintro ⟨l, hl, ht⟩
    rw [hlaunch] at hl
    obtain ⟨x, hx, hl⟩ := Option.bind_eq_some_iff.mp hl
    obtain ⟨b, hb, hx⟩ := Option.bind_eq_some_iff.mp hx
    obtain ⟨t, htype, hread⟩ := Option.bind_eq_some_iff.mp (Launch.deserialize_type hl)
    rw [ht] at hread
    exact ⟨b, hb, x, hx, t, htype, (hvariant t).mp hread⟩
  · rintro ⟨b, hb, x, hx, t, htype, ht⟩
    obtain ⟨l, hl⟩ := Option.isSome_iff_exists.mp
      ((Launch.isSome_iff x).mpr ((hread b hb).2.1 x hx))
    refine ⟨l, ?_, ?_⟩
    · rw [hlaunch, launchOf, localOf, hb, Option.bind_some, hx, Option.bind_some, hl]
    · have := Launch.deserialize_type hl
      rw [htype, Option.bind_some, (hvariant t).mpr ht] at this
      exact (Option.some.inj this).symm

/-- **`validate` accepts a card exactly when it keeps the rules**, the timeout's included. -/
theorem validate_isOk_iff_rules (v : Value) :
    (∃ card, validate v = .ok card) ↔ CardRules v ∧ TimeoutIsUnsigned v := by
  have hlocal : May 6 4 "local" (LocalShape IsUnsigned) v ↔
      May 6 4 "local" (LocalShape IsNatural) v ∧ TimeoutIsUnsigned v := by
    simp only [May, LocalShape.isUnsigned_iff, TimeoutIsUnsigned, timeoutOf, localOf]
    cases given 6 4 "local" v <;> simp
  have hserves : ∀ card, Card.deserialize v = some card →
      ((∀ l, card.launch = some l → l.launchType = .executable → card.endpoint.isSome = true) ↔
        (Has 6 4 "local" (Has 5 0 "launch" (Has 5 0 "type" (IsVariant ["executable"]))) v →
          (endpointOf v).isSome = true)) := by
    intro card hcard
    rw [← executable_iff hcard, (Card.stanzas_isSome hcard).2]
    exact ⟨fun h ⟨l, hl, ht⟩ => h l hl ht, fun h l hl ht => h ⟨l, hl, ht⟩⟩
  rw [validate_isOk_iff]
  constructor
  · rintro ⟨hobject, hname, hversion, hdescription, card, hcard, hc⟩
    obtain ⟨-, -, hv, hd, ht, hl, hr⟩ := (Card.isSome_iff v).mp (by rw [hcard]; rfl)
    obtain ⟨hdeclared, hs⟩ := (checkDeclared_isOk_iff card).mp hc
    rw [(Card.stanzas_isSome hcard).1, (Card.stanzas_isSome hcard).2,
      remotes_any_iff hcard] at hdeclared
    obtain ⟨hl, htimeout⟩ := hlocal.mp hl
    exact ⟨⟨hobject, hname, hv, hd, ht, hl, hr, hdeclared, (hserves card hcard).mp hs⟩, htimeout⟩
  · rintro ⟨⟨⟨ms, rfl⟩, ⟨s, hget, hs⟩, hv, hd, ht, hl, hr, hdeclared, hserve⟩, htimeout⟩
    have hname : Has 6 0 "name" IsString (.object ms) :=
      ⟨_, given_object.mpr ⟨hget, by simp⟩, s, rfl⟩
    -- a card that keeps the rules can be read, and then passes the checks on what was read
    have hread := (Card.isSome_iff (.object ms)).mpr
      ⟨.inl ⟨ms, rfl⟩, hname, hv, hd, ht, hlocal.mpr ⟨hl, htimeout⟩, hr⟩
    obtain ⟨card, hcard⟩ := Option.isSome_iff_exists.mp hread
    have present : ∀ i name, Has 6 i name IsString (.object ms) →
        ((Value.object ms).get name).isSome = true := by
      rintro i name ⟨x, hx, -⟩
      rw [Value.get_object, (given_object.mp hx).1]
      rfl
    refine ⟨⟨ms, rfl⟩, ⟨s, hget, hs⟩, present 1 _ hv, present 2 _ hd, card, hcard, ?_⟩
    rw [checkDeclared_isOk_iff, (Card.stanzas_isSome hcard).1, remotes_any_iff hcard]
    exact ⟨(Card.stanzas_isSome hcard).2 ▸ hdeclared, (hserves card hcard).mpr hserve⟩

end McpLocator.Proto
