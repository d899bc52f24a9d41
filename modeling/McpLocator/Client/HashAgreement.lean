import McpLocator.Client.LaunchHash

namespace McpLocator.Client

open McpLocator.Json McpLocator.Proto

/-!
# Where the two launch hashes are the same

* `norm_launchSubject` — if the strings of the stanza are `Stable`, both sides hash one value, up to
  the order of members.
* `numberFree_launchSubject` — in a card that the schema accepts, that value contains no number.
* `launchHash_agrees` — hence one hash.
-/

/-! ### The strings of a value -/

mutual
/-- The strings in a value; keys are not counted. -/
def strings : Value → List String
  | .string s => [s]
  | .array xs => stringsAll xs
  | .object ms => stringsMembers ms
  | _ => []

/-- `strings` of every item. -/
def stringsAll : List Value → List String
  | [] => []
  | x :: xs => strings x ++ stringsAll xs

/-- `strings` of every member's value. -/
def stringsMembers : List (String × Value) → List String
  | [] => []
  | (_, x) :: ms => strings x ++ stringsMembers ms
end

theorem mem_strings_array {s : String} {xs : List Value} :
    s ∈ strings (.array xs) ↔ ∃ x ∈ xs, s ∈ strings x := by
  rw [strings]
  induction xs with
  | nil => simp [stringsAll]
  | cons x xs ih => simp [stringsAll, ih]

theorem mem_strings_object {s : String} {ms : List (String × Value)} :
    s ∈ strings (.object ms) ↔ ∃ m ∈ ms, s ∈ strings m.2 := by
  rw [strings]
  induction ms with
  | nil => simp [stringsMembers]
  | cons m ms ih =>
    obtain ⟨k, x⟩ := m
    simp [stringsMembers, ih]

theorem strings_of_get {key s : String} {v x : Value} (h : v.get key = some x) (hs : s ∈ strings x) :
    s ∈ strings v := by
  cases v with
  | object ms => exact mem_strings_object.mpr ⟨_, Value.mem_of_lookup h, hs⟩
  | _ => simp [Value.get] at h

/-- Every string in the value is stable. -/
def AllStable (env : String → Option String) (v : Value) : Prop := ∀ s ∈ strings v, Stable env s

instance (env : String → Option String) (v : Value) : Decidable (AllStable env v) :=
  inferInstanceAs (Decidable (∀ s ∈ strings v, Stable env s))

theorem AllStable.of_get {env : String → Option String} {key : String} {v x : Value}
    (h : AllStable env v) (hx : v.get key = some x) : AllStable env x :=
  fun _ hs => h _ (strings_of_get hx hs)

/-! ### Expansion, block by block -/

variable {env : String → Option String}

/-- Arranging the expanded value is expanding the arranged one the broker's way. -/
def Expands (env : String → Option String) (f g : Value → Value) : Prop :=
  ∀ x, AllStable env x → (f x).norm = g x.norm

theorem expands_id : Expands env id id := fun _ _ => rfl

theorem expands_field : Expands env (expandField env) (expandStringField env) := by
  intro x hx
  cases x with
  | string s =>
    have hs : Stable env s := hx s (by simp [strings])
    simp only [expandField, Value.norm, expandStringField, expandEnv_eq hs]
  | _ => rfl

theorem expands_mapItems {f g : Value → Value} (h : Expands env f g) :
    Expands env (Value.mapItems f) (Value.mapItems g) := by
  intro x hx
  cases x with
  | array xs =>
    simp only [Value.mapItems, Value.norm, Value.normAll_eq, List.map_map]
    congr 1
    exact List.map_congr_left fun y hy =>
      h y fun s hs => hx s (mem_strings_array.mpr ⟨y, hy, hs⟩)
  | _ => rfl

theorem expands_mapMembers {f g : Value → Value} (h : Expands env f g) :
    Expands env (Value.mapMembers f) (Value.mapMembers g) := by
  intro x hx
  cases x with
  | object ms =>
    rw [Value.mapMembers, Value.norm_map_members (G := fun m => g m.2)]
    · simp [Value.norm, Value.mapMembers]
    · exact fun m hm => h m.2 fun s hs => hx s (mem_strings_object.mpr ⟨m, hm, hs⟩)
  | _ => rfl

/-- An object with some members rewritten, each by its own function. -/
def rewrite (fs : List (String × (Value → Value))) : Value → Value
  | .object ms => .object (ms.map fun m => (m.1, (fs.lookup m.1).getD id m.2))
  | v => v

theorem rewrite_nil : rewrite [] = id := by
  funext v
  cases v <;> simp [rewrite]

/-- Rewriting one more member. -/
theorem modify_rewrite {key : String} {fs : List (String × (Value → Value))}
    (h : fs.lookup key = none) (f : Value → Value) (v : Value) :
    (rewrite fs v).modify key f = rewrite ((key, f) :: fs) v := by
  cases v with
  | object ms =>
    rw [rewrite, Value.modify_object, List.map_map, rewrite]
    congr 1
    refine List.map_congr_left fun m _ => ?_
    by_cases hm : m.1 = key
    · subst hm
      simp [h]
    · simp [hm, List.lookup_cons, beq_eq_false_iff_ne.mpr hm]
  | _ => rfl

theorem expands_rewrite {fs gs : List (String × (Value → Value))}
    (h : ∀ key, Expands env ((fs.lookup key).getD id) ((gs.lookup key).getD id)) :
    Expands env (rewrite fs) (rewrite gs) := by
  intro x hx
  cases x with
  | object ms =>
    rw [rewrite, Value.norm_map_members (G := fun m => (gs.lookup m.1).getD id m.2)]
    · simp [Value.norm, rewrite]
    · exact fun m hm => h m.1 m.2 fun s hs => hx s (mem_strings_object.mpr ⟨m, hm, hs⟩)
  | _ => rfl

theorem expands_modify {key : String} {f g : Value → Value} (h : Expands env f g) :
    Expands env (Value.modify key f) (Value.modify key g) := by
  have hone : ∀ f : Value → Value, Value.modify key f = rewrite [(key, f)] := by
    intro f
    funext v
    rw [← modify_rewrite rfl, rewrite_nil]
    rfl
  rw [hone, hone]
  refine expands_rewrite fun k => ?_
  by_cases hk : k = key
  · simpa [hk] using h
  · simpa [List.lookup_cons, beq_eq_false_iff_ne.mpr hk] using expands_id

/-- A test for truth changes nothing where what is skipped would have been left alone. -/
theorem expands_whenTruthy {f g : Value → Value} (h : Expands env f g)
    (hfalsy : ∀ x, truthy x = false → g x = x) : Expands env (whenTruthy f) g := by
  intro x hx
  rw [whenTruthy]
  split
  · exact h x hx
  · rename_i hx
    rw [Bool.not_eq_true] at hx
    have hnorm : x.norm = x := by cases x <;> simp_all [truthy, Value.norm]
    rw [hnorm, hfalsy x hx]

theorem proto_expandEnv_empty : Proto.expandEnv "" env = "" := by
  rw [← String.toList_inj, expandEnv_eq_replaceAll]
  rfl

/-- The launch block: the two sides rewrite the same members, in another order. -/
theorem expands_launch : Expands env (expandLaunch env) (Proto.expandLaunch env) := by
  have hclient : expandLaunch env = rewrite [("env", whenTruthy (Value.mapMembers (expandField env))),
      ("cwd", whenTruthy (expandField env)),
      ("args", whenTruthy (Value.mapItems (expandField env))), ("command", expandField env)] := by
    funext v
    rw [← modify_rewrite rfl, ← modify_rewrite rfl, ← modify_rewrite rfl, ← modify_rewrite rfl,
      rewrite_nil]
    rfl
  have hbroker : Proto.expandLaunch env = rewrite [("env", Value.mapMembers (expandStringField env)),
      ("args", Value.mapItems (expandStringField env)), ("cwd", expandStringField env),
      ("command", expandStringField env)] := by
    funext v
    rw [← modify_rewrite rfl, ← modify_rewrite rfl, ← modify_rewrite rfl, ← modify_rewrite rfl,
      rewrite_nil]
    rfl
  -- the client skips what is falsy, and the broker leaves it alone
  have hcwd : Expands env (whenTruthy (expandField env)) (expandStringField env) := by
    refine expands_whenTruthy expands_field fun x hx => ?_
    cases x <;> simp_all [truthy, expandStringField, proto_expandEnv_empty]
  have hargs : Expands env (whenTruthy (Value.mapItems (expandField env)))
      (Value.mapItems (expandStringField env)) := by
    refine expands_whenTruthy (expands_mapItems expands_field) fun x hx => ?_
    cases x <;> simp_all [truthy, Value.mapItems]
  have henv : Expands env (whenTruthy (Value.mapMembers (expandField env)))
      (Value.mapMembers (expandStringField env)) := by
    refine expands_whenTruthy (expands_mapMembers expands_field) fun x hx => ?_
    cases x <;> simp_all [truthy, Value.mapMembers]
  -- the order of the rewritings does not matter: every member has one of its own
  rw [hclient, hbroker]
  refine expands_rewrite fun key => ?_
  simp only [List.lookup_cons, List.lookup_nil]
  by_cases h₁ : key = "env"
  · simpa [h₁] using henv
  by_cases h₂ : key = "cwd"
  · simpa [h₂] using hcwd
  by_cases h₃ : key = "args"
  · simpa [h₃] using hargs
  by_cases h₄ : key = "command"
  · simpa [h₄] using expands_field
  simpa [beq_eq_false_iff_ne.mpr h₁, beq_eq_false_iff_ne.mpr h₂, beq_eq_false_iff_ne.mpr h₃,
    beq_eq_false_iff_ne.mpr h₄] using expands_id

/-! ### The value that is hashed -/

/-- A member of the `local` block, if the card has one. -/
def stanza (card : Value) (key : String) : Option Value := (card.get "local").bind (·.get key)

theorem get_eq_none_of_falsy {key : String} {v : Value} (h : truthy v = false) :
    v.get key = none := by
  cases v <;> simp_all [truthy, Value.get]

/-- Members of the `local` block are rewritten independently of each other. -/
theorem stanza_expandCard (card : Value) :
    stanza (expandCard card env) "launch" =
        (stanza card "launch").map (whenTruthy (expandLaunch env)) ∧
      stanza (expandCard card env) "endpoint" =
        (stanza card "endpoint").map
          (whenTruthy (Value.modify "address" (expandField env))) := by
  have hlocal : (expandCard card env).get "local" =
      (card.get "local").map (whenTruthy (expandLocal env)) := Value.get_modify_self _ _ _
  rw [stanza, stanza, stanza, stanza, hlocal]
  cases card.get "local" with
  | none => exact ⟨rfl, rfl⟩
  | some b =>
    simp only [Option.map_some, Option.bind_some]
    by_cases ht : truthy b = true
    · rw [whenTruthy, if_pos ht, expandLocal]
      constructor
      · rw [Value.get_modify_of_ne (by decide), Value.get_modify_of_ne (by decide),
          Value.get_modify_self]
      · rw [Value.get_modify_of_ne (by decide), Value.get_modify_self,
          Value.get_modify_of_ne (by decide)]
    · -- a falsy block has no members, expanded or not
      rw [whenTruthy, if_neg ht]
      rw [Bool.not_eq_true] at ht
      simp [get_eq_none_of_falsy ht]

theorem stanza_proto_expandCard (card : Value) :
    stanza (Proto.expandCard card env) "launch" =
        (stanza card "launch").map (Proto.expandLaunch env) ∧
      stanza (Proto.expandCard card env) "endpoint" =
        (stanza card "endpoint").map (Value.modify "address" (expandStringField env)) := by
  have hlocal : (Proto.expandCard card env).get "local" =
      (card.get "local").map (Proto.expandLocal env) := Value.get_modify_self _ _ _
  rw [stanza, stanza, stanza, stanza, hlocal]
  cases card.get "local" with
  | none => exact ⟨rfl, rfl⟩
  | some b =>
    simp only [Option.map_some, Option.bind_some, Proto.expandLocal]
    constructor
    · rw [Value.get_modify_of_ne (by decide), Value.get_modify_of_ne (by decide),
        Value.get_modify_self]
    · rw [Value.get_modify_of_ne (by decide), Value.get_modify_self,
        Value.get_modify_of_ne (by decide)]

theorem stanza_norm {card : Value} (hd : card.distinct = true) (key : String) :
    stanza card.norm key = (stanza card key).map Value.norm := by
  rw [stanza, stanza, Value.get_norm hd]
  cases hb : card.get "local" with
  | none => rfl
  | some b => exact Value.get_norm (Value.distinct_of_get hd hb) key

/-- The strings that are hashed are those of the launch stanza and of the endpoint. -/
theorem AllStable.of_stanza {card : Value} (h : AllStable env (launchSubject card)) {x : Value} :
    stanza card "launch" = some x ∨ stanza card "endpoint" = some x → AllStable env x := by
  have hmember : ∀ key, stanza card key = some x → localMember card key = x := by
    intro key hx
    show Value.orNull (stanza card key) = x
    rw [hx]
    rfl
  rintro (hx | hx)
  · have hget : (launchSubject card).get "launch" = some x := by rw [← hmember _ hx]; rfl
    exact h.of_get hget
  · have hget : (launchSubject card).get "endpoint" = some x := by rw [← hmember _ hx]; rfl
    exact h.of_get hget

/-- A missing stanza is `null` on both sides. -/
theorem norm_orNull {f g : Value → Value} (h : Expands env f g) {o : Option Value}
    (ho : ∀ x, o = some x → AllStable env x) :
    (Value.orNull (o.map f)).norm = Value.orNull ((o.map Value.norm).map g) := by
  cases o with
  | none => rfl
  | some x => exact h x (ho x rfl)

/-- **Both sides hash one value**, up to the order of its members. -/
theorem norm_launchSubject (card : ParsedValue) (h : AllStable env (launchSubject card.1)) :
    (launchSubject (expandCard card.1 env)).norm =
      Proto.launchSubject (Proto.expandCard card.arranged.1 env) := by
  have hlaunch : (localMember (expandCard card.1 env) "launch").norm =
      pick (Proto.expandCard card.arranged.1 env) "launch" := by
    show (Value.orNull (stanza _ _)).norm = Value.orNull (stanza _ _)
    rw [(stanza_expandCard card.1).1, (stanza_proto_expandCard _).1, ParsedValue.arranged,
      stanza_norm card.2]
    refine norm_orNull (expands_whenTruthy expands_launch fun x hx => ?_) fun x hx =>
      h.of_stanza (.inl hx)
    cases x <;> simp_all [truthy, Proto.expandLaunch, Value.modify]
  have hendpoint : (localMember (expandCard card.1 env) "endpoint").norm =
      pick (Proto.expandCard card.arranged.1 env) "endpoint" := by
    show (Value.orNull (stanza _ _)).norm = Value.orNull (stanza _ _)
    rw [(stanza_expandCard card.1).2, (stanza_proto_expandCard _).2, ParsedValue.arranged,
      stanza_norm card.2]
    refine norm_orNull (expands_whenTruthy (expands_modify expands_field) fun x hx => ?_) fun x hx =>
      h.of_stanza (.inr hx)
    cases x <;> simp_all [truthy, Value.modify]
  -- the two members, in the order of the broker's map
  have hsort : ∀ l e : Value, sortMembers id [("launch", l), ("endpoint", e)] =
      [("endpoint", e), ("launch", l)] := by
    intro l e
    simp [sortMembers]
  rw [launchSubject, Value.norm, Value.normMembers_eq, List.map_cons, List.map_cons, List.map_nil,
    hlaunch, hendpoint, hsort]
  rfl

/-! ### What is hashed contains no number -/

/-- No number in the value, and distinct keys in every object. -/
def Plain (v : Value) : Prop := numberFree v = true ∧ v.distinct = true

theorem plain_string (s : String) : Plain (.string s) := ⟨rfl, rfl⟩

theorem plain_array {xs : List Value} : Plain (.array xs) ↔ ∀ x ∈ xs, Plain x := by
  simp only [Plain, numberFree, numberFreeAll_iff, Value.distinct, Value.distinctAll_iff,
    forall_and]

theorem plain_object {ms : List (String × Value)} :
    Plain (.object ms) ↔ (ms.map Prod.fst).Nodup ∧ ∀ m ∈ ms, Plain m.2 := by
  simp only [Plain, numberFree, numberFreeMembers_iff, Value.distinct_object, forall_and]
  exact and_left_comm

/-- `f` makes no number and no second member of a name. -/
def KeepsPlain (f : Value → Value) : Prop := ∀ x, Plain x → Plain (f x)

theorem keepsPlain_field : KeepsPlain (expandField env) := by
  intro x hx
  cases x with
  | string s => exact plain_string _
  | _ => exact hx

theorem keepsPlain_whenTruthy {f : Value → Value} (h : KeepsPlain f) :
    KeepsPlain (whenTruthy f) := by
  intro x hx
  rw [whenTruthy]
  split
  · exact h x hx
  · exact hx

theorem keepsPlain_mapItems {f : Value → Value} (h : KeepsPlain f) :
    KeepsPlain (Value.mapItems f) := by
  intro x hx
  cases x with
  | array xs =>
    rw [Value.mapItems, plain_array]
    intro y hy
    obtain ⟨a, ha, rfl⟩ := List.mem_map.mp hy
    exact h a (plain_array.mp hx a ha)
  | _ => exact hx

theorem keepsPlain_mapMembers {f : Value → Value} (h : KeepsPlain f) :
    KeepsPlain (Value.mapMembers f) := by
  intro x hx
  cases x with
  | object ms =>
    obtain ⟨hnd, hall⟩ := plain_object.mp hx
    rw [Value.mapMembers, plain_object, Value.map_fst_map_snd fun m => f m.2]
    refine ⟨hnd, fun m hm => ?_⟩
    obtain ⟨a, ha, rfl⟩ := List.mem_map.mp hm
    exact h a.2 (hall a ha)
  | _ => exact hx

theorem keepsPlain_modify {key : String} {f : Value → Value} (h : KeepsPlain f) :
    KeepsPlain (Value.modify key f) := by
  intro x hx
  cases x with
  | object ms =>
    obtain ⟨hnd, hall⟩ := plain_object.mp hx
    rw [Value.modify_object, plain_object,
      Value.map_fst_map_snd fun m => if m.1 = key then f m.2 else m.2]
    refine ⟨hnd, fun m hm => ?_⟩
    obtain ⟨a, ha, rfl⟩ := List.mem_map.mp hm
    dsimp only
    split
    · exact h a.2 (hall a ha)
    · exact hall a ha
  | _ => exact hx

theorem keepsPlain_launch : KeepsPlain (expandLaunch env) := by
  intro x hx
  refine keepsPlain_modify (keepsPlain_whenTruthy (keepsPlain_mapMembers keepsPlain_field)) _ ?_
  refine keepsPlain_modify (keepsPlain_whenTruthy keepsPlain_field) _ ?_
  refine keepsPlain_modify (keepsPlain_whenTruthy (keepsPlain_mapItems keepsPlain_field)) _ ?_
  exact keepsPlain_modify keepsPlain_field _ hx

/-- A closed object whose properties contain no numbers contains none. -/
theorem numberFree_of_closed {ps : List (String × Schema)} {required : List String} {v : Value}
    (hd : v.distinct = true) (hps : ∀ p ∈ ps, ∀ x, p.2.valid x = true → numberFree x = true)
    (h : (closed ps required).valid v = true) : numberFree v = true := by
  obtain ⟨ms, rfl, hclosed, hvalid, -⟩ := valid_closed_iff.mp h
  rw [numberFree, numberFreeMembers_iff]
  intro m hm
  obtain ⟨p, hp, hpm⟩ := List.mem_map.mp (hclosed m hm)
  refine hps p hp m.2 (Schema.onMember_of_valid hvalid hp m.2 ?_)
  rw [hpm]
  exact Value.lookup_of_mem (Value.distinct_object.mp hd).1 hm

theorem numberFree_of_isString {v : Value} (h : IsString v) : numberFree v = true := by
  obtain ⟨s, rfl⟩ := h
  rfl

theorem numberFree_launchSchema {v : Value} (hd : v.distinct = true)
    (h : launchSchema.valid v = true) : numberFree v = true := by
  refine numberFree_of_closed hd ?_ h
  simp only [List.forall_mem_cons, List.not_mem_nil, false_implies, implies_true, and_true]
  refine ⟨fun x hx => ?_, fun x hx => ?_, fun x hx => ?_, fun x hx => ?_, fun x hx => ?_,
    fun x hx => ?_⟩
  -- `type`, `command`, `args`, `cwd`, `env` and `shared`
  · exact numberFree_of_isString (valid_enum.mp hx).2
  · exact numberFree_of_isString (valid_nonEmpty.mp hx).1
  · obtain ⟨xs, rfl, hxs⟩ := valid_array.mp hx
    rw [numberFree, numberFreeAll_iff]
    exact fun y hy => numberFree_of_isString (valid_typed_string.mp (hxs y hy))
  · rcases valid_nullable_string.mp hx with rfl | hx
    · rfl
    · exact numberFree_of_isString hx
  · obtain ⟨es, rfl, hes⟩ := valid_environment.mp hx
    rw [numberFree, numberFreeMembers_iff]
    exact fun m hm => numberFree_of_isString (hes m hm)
  · obtain ⟨b, rfl⟩ := valid_typed_boolean.mp hx
    rfl

theorem numberFree_endpointSchema {v : Value} (hd : v.distinct = true)
    (h : endpointSchema.valid v = true) : numberFree v = true := by
  refine numberFree_of_closed hd ?_ h
  simp only [List.forall_mem_cons, List.not_mem_nil, false_implies, implies_true, and_true]
  exact ⟨fun x hx => numberFree_of_isString (valid_enum.mp hx).2,
    fun x hx => numberFree_of_isString (valid_nonEmpty.mp hx).1⟩

/-- The members of a valid card's `local` block are valid. -/
theorem valid_stanza {card x : Value} (h : localServerCardV1.valid card = true) :
    (stanza card "launch" = some x → launchSchema.valid x = true) ∧
      (stanza card "endpoint" = some x → endpointSchema.valid x = true) := by
  have hcard : (closed cardProperties ["name", "version", "description"]).valid card = true := by
    simp only [localServerCardV1, Schema.valid, Schema.validAll, Bool.and_eq_true] at h
    exact h.1
  obtain ⟨ms, rfl, -, hvalid, -⟩ := valid_closed_iff.mp hcard
  have hlocal : ∀ b, ms.lookup "local" = some b → localSchema.valid b = true :=
    Schema.onMember_of_valid hvalid (p := ("local", localSchema)) (by simp [cardProperties])
  -- each member of the block is checked against the schema under its name
  have hmember : ∀ key s, (key, s) ∈ [("launch", launchSchema), ("endpoint", endpointSchema),
      ("liveness", livenessSchema), ("lifetime", lifetimeSchema), ("consent", consentSchema)] →
      stanza (.object ms) key = some x → s.valid x = true := by
    intro key s hs hx
    obtain ⟨b, hb, hx⟩ := Option.bind_eq_some_iff.mp hx
    have hblock := hlocal b hb
    simp only [localSchema, Schema.valid, Schema.validAll, Bool.and_eq_true] at hblock
    obtain ⟨bs, rfl, -, hbs, -⟩ := valid_closed_iff.mp hblock.1
    exact Schema.onMember_of_valid hbs hs x hx
  exact ⟨hmember _ _ (by simp), hmember _ _ (by simp)⟩

/-- What is hashed of a valid card contains no number, before and after expansion. -/
theorem plain_launchSubject (env : String → Option String) (card : ParsedValue)
    (h : localServerCardV1.valid card.1 = true) :
    Plain (launchSubject (expandCard card.1 env)) := by
  have horNull : ∀ {f : Value → Value} {o : Option Value}, KeepsPlain f →
      (∀ x, o = some x → Plain x) → Plain (Value.orNull (o.map f)) := by
    intro f o hf ho
    cases o with
    | none => exact ⟨rfl, rfl⟩
    | some x => exact hf x (ho x rfl)
  have hdistinct : ∀ {key x}, stanza card.1 key = some x → x.distinct = true := by
    intro key x hx
    obtain ⟨b, hb, hx⟩ := Option.bind_eq_some_iff.mp hx
    exact Value.distinct_of_get (Value.distinct_of_get card.2 hb) hx
  have hlaunch : Plain (localMember (expandCard card.1 env) "launch") := by
    show Plain (Value.orNull (stanza _ _))
    rw [(stanza_expandCard card.1).1]
    refine horNull (keepsPlain_whenTruthy keepsPlain_launch) fun x hx => ?_
    exact ⟨numberFree_launchSchema (hdistinct hx) ((valid_stanza h).1 hx), hdistinct hx⟩
  have hendpoint : Plain (localMember (expandCard card.1 env) "endpoint") := by
    show Plain (Value.orNull (stanza _ _))
    rw [(stanza_expandCard card.1).2]
    refine horNull (keepsPlain_whenTruthy (keepsPlain_modify keepsPlain_field)) fun x hx => ?_
    exact ⟨numberFree_endpointSchema (hdistinct hx) ((valid_stanza h).2 hx), hdistinct hx⟩
  rw [launchSubject, plain_object]
  simp [hlaunch, hendpoint]

/-! ### The launch hash -/

/-- **On a card the schema accepts, with every string of the stanza stable, the client library
    computes the broker's launch hash.** -/
theorem launchHash_agrees (numberText : Number → List Char) (sha256 : List Char → String)
    (card : ParsedValue) (hvalid : localServerCardV1.valid card.1 = true)
    (hstable : AllStable env (launchSubject card.1)) :
    launchHash numberText sha256 (expandCard card.1 env) =
      Proto.launchHash sha256 (Proto.expandCard card.arranged.1 env) := by
  obtain ⟨hfree, hdistinct⟩ := plain_launchSubject env card hvalid
  have hwf : (Proto.launchSubject (Proto.expandCard card.arranged.1 env)).wf = true :=
    wf_launchSubject (wf_expandCard card.arranged.2)
  -- without numbers both canonicalizers write the canonical text, whatever the order of members
  rw [launchHash, Proto.launchHash, canonicalize_eq_canonical numberText hfree,
    ← canonical_norm hdistinct, norm_launchSubject card hstable,
    Proto.canonicalize_eq_canonical (distinct_of_wf hwf)]

/-- A card that launches `command`. -/
def cardLaunching (command : String) : Value :=
  .object [("name", .string "com.example.notes"), ("version", .string "1.0.0"),
    ("description", .string "Notes"),
    ("local", .object [("launch", .object [("type", .string "stdio"),
      ("command", .string command)])])]

/-- An environment of two variables, the value of one spelling a reference to the other. -/
def nestedEnv (name : String) : Option String :=
  if name = "NOTES" then some "$\x7bHOME\x7d/notes" else if name = "HOME" then some "/home/me" else none

theorem launchHash_agrees_home :
    launchHash Number.text String.ofList
        (expandCard (cardLaunching "$\x7bHOME\x7d/notes") nestedEnv) =
      Proto.launchHash String.ofList
        (Proto.expandCard (cardLaunching "$\x7bHOME\x7d/notes").norm nestedEnv) :=
  launchHash_agrees Number.text String.ofList
    ⟨cardLaunching "$\x7bHOME\x7d/notes", by decide⟩ (by decide) (by decide)

/-- Both sides accept a card that launches `%NOTES%`; the client library goes on to expand what the
    variable stands for, so that the two hash different texts. -/
theorem launchHash_disagrees :
    (∃ card, validate (cardLaunching "%NOTES%").norm = .ok card) ∧
      localServerCardV1.valid (cardLaunching "%NOTES%") = true ∧
        ∀ (numberText : Number → List Char),
          canonicalize numberText (launchSubject (expandCard (cardLaunching "%NOTES%") nestedEnv)) ≠
              Proto.canonicalize
                (Proto.launchSubject (Proto.expandCard (cardLaunching "%NOTES%").norm nestedEnv)) ∧
            ∀ sha256 : List Char → String, Function.Injective sha256 →
              launchHash numberText sha256 (expandCard (cardLaunching "%NOTES%") nestedEnv) ≠
                Proto.launchHash sha256
                  (Proto.expandCard (cardLaunching "%NOTES%").norm nestedEnv) := by
  refine ⟨⟨_, rfl⟩, by decide, fun numberText => ?_⟩
  have htext : canonicalize numberText
      (launchSubject (expandCard (cardLaunching "%NOTES%") nestedEnv)) ≠
        Proto.canonicalize
          (Proto.launchSubject (Proto.expandCard (cardLaunching "%NOTES%").norm nestedEnv)) := by
    rw [canonicalize_eq_canonical numberText (by decide)]
    decide
  -- an injective digest keeps the difference
  exact ⟨htext, fun sha256 hinj h => htext (hinj (String.append_right_inj _ |>.mp h))⟩

end McpLocator.Client
