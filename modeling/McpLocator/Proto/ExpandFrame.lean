import McpLocator.Json.Paths
import McpLocator.Proto.ExpandRules

namespace McpLocator.Proto

open McpLocator.Json McpLocator.Json.Serde

/-!
# What expansion changes

* `isLocation` — the places of a card whose strings name a file or an endpoint.
* `expandCard_eq_mapStrings` — expansion rewrites the strings in these places and nothing else.
* `kept_of_expandCard` — what the typed card keeps.
-/

/-! ### The places -/

/-- In the launch stanza. -/
def isLaunchLocation : List Place → Bool
  | [.member "command"] => true
  | [.member "cwd"] => true
  | [.member "args", .item _] => true
  | [.member "env", .member _] => true
  | _ => false

/-- In the local block. -/
def isLocalLocation : List Place → Bool
  | .member "launch" :: p => isLaunchLocation p
  | [.member "endpoint", .member "address"] => true
  | [.member "liveness", .member "pidFile"] => true
  | _ => false

/-- In the card. -/
def isLocation : List Place → Bool
  | .member "local" :: p => isLocalLocation p
  | _ => false

/-- The string at a path, expanded if the path is one of the locations. -/
def expandAt (location : List Place → Bool) (lookup : String → Option String) (p : List Place)
    (s : String) : String :=
  if location p then expandEnv s lookup else s

section Frame

variable {location : List Place → Bool} {lookup : String → Option String} {v : Value}

theorem expandAt_of_false {p : List Place} {s : String} (h : location p = false) :
    expandAt location lookup p s = s := by
  rw [expandAt, h]
  rfl

/-- Nothing is expanded where there is no location. -/
theorem mapStrings_of_none (h : ∀ p, location p = false) : v.mapStrings (expandAt location lookup) = v :=
  Value.mapStrings_id fun p _ => expandAt_of_false (h p)

/-- A string field. -/
theorem mapStrings_field (hroot : location [] = true) (hbelow : ∀ q p, location (q :: p) = false) :
    v.mapStrings (expandAt location lookup) = expandStringField lookup v := by
  cases v with
  | string s =>
    rw [Value.mapStrings, expandAt, hroot]
    rfl
  | array items =>
    rw [Value.mapStrings_array]
    show Value.array _ = .array items
    congr 1
    refine List.ext_getElem (by simp) fun i h₁ h₂ => ?_
    rw [List.getElem_mapIdx]
    exact mapStrings_of_none (hbelow (.item i))
  | object members =>
    rw [Value.mapStrings_object]
    show Value.object _ = .object members
    congr 1
    refine (List.map_congr_left fun m _ => ?_).trans (List.map_id _)
    rw [id_eq]
    exact Prod.ext rfl (mapStrings_of_none (hbelow (.member m.1)))
  | _ => rfl

/-- The items of an array of strings. -/
theorem mapStrings_items (hroot : location [] = false) (hitem : ∀ i, location [.item i] = true)
    (hbelow : ∀ i q p, location (.item i :: q :: p) = false)
    (hmember : ∀ k p, location (.member k :: p) = false) :
    v.mapStrings (expandAt location lookup) = v.mapItems (expandStringField lookup) := by
  cases v with
  | string s =>
    rw [Value.mapStrings, expandAt_of_false hroot]
    rfl
  | array items =>
    rw [Value.mapStrings_array, Value.mapItems]
    congr 1
    refine List.ext_getElem (by simp) fun i h₁ h₂ => ?_
    rw [List.getElem_mapIdx, List.getElem_map]
    exact mapStrings_field (hitem i) (hbelow i)
  | object members =>
    rw [Value.mapStrings_object]
    show Value.object _ = .object members
    congr 1
    refine (List.map_congr_left fun m _ => ?_).trans (List.map_id _)
    rw [id_eq]
    exact Prod.ext rfl (mapStrings_of_none (hmember m.1))
  | _ => rfl

/-- The members of a block, each rewritten below its own key. -/
theorem mapStrings_members {g : String → Value → Value} (hroot : location [] = false)
    (hitem : ∀ i p, location (.item i :: p) = false)
    (hmember : ∀ k x, x.mapStrings (expandAt (fun p => location (.member k :: p)) lookup) = g k x) :
    v.mapStrings (expandAt location lookup) = v.modifyBy g :=
  Value.mapStrings_eq_modifyBy (fun _ => expandAt_of_false hroot)
    (fun i p _ => expandAt_of_false (hitem i p)) hmember

end Frame

/-! ### Block by block -/

section Blocks

variable {lookup : String → Option String} {v : Value}

/-- **Expansion of a launch stanza**: `command`, `cwd`, each of `args`, each value of `env`. -/
theorem expandLaunch_eq_mapStrings :
    expandLaunch lookup v = v.mapStrings (expandAt isLaunchLocation lookup) := by
  unfold expandLaunch
  simp only [Value.modify_eq_modifyBy, Value.modifyBy_modifyBy]
  refine (mapStrings_members rfl (fun _ _ => rfl) fun k x => ?_).symm
  by_cases hcommand : k = "command"
  · subst hcommand
    simpa using mapStrings_field rfl fun q p => rfl
  by_cases hcwd : k = "cwd"
  · subst hcwd
    simpa using mapStrings_field rfl fun q p => rfl
  by_cases hargs : k = "args"
  · subst hargs
    simpa using mapStrings_items rfl (fun i => rfl) (fun i q p => rfl) fun k p => rfl
  by_cases henv : k = "env"
  · subst henv
    simp only [String.reduceEq, if_false, if_true, id_eq, Value.mapMembers_eq_modifyBy]
    exact mapStrings_members rfl (fun i p => rfl) fun k x => mapStrings_field rfl fun q p => rfl
  · simp only [hcommand, hcwd, hargs, henv, if_false, id_eq]
    refine mapStrings_of_none fun p => ?_
    unfold isLaunchLocation
    split <;> simp_all

/-- A block with one string field that is expanded. -/
theorem modify_eq_mapStrings {location : List Place → Bool} {key : String}
    (hlocation : ∀ p, location p = decide (p = [.member key])) :
    v.modify key (expandStringField lookup) = v.mapStrings (expandAt location lookup) := by
  rw [Value.modify_eq_modifyBy]
  refine (mapStrings_members (by simp [hlocation]) (by simp [hlocation]) fun k x => ?_).symm
  by_cases hk : k = key
  · subst hk
    rw [if_pos rfl]
    exact mapStrings_field (by simp [hlocation]) (by simp [hlocation])
  · rw [if_neg hk]
    exact mapStrings_of_none (by simp [hlocation, hk])

theorem expandLocal_eq_mapStrings :
    expandLocal lookup v = v.mapStrings (expandAt isLocalLocation lookup) := by
  unfold expandLocal
  simp only [Value.modify_eq_modifyBy, Value.modifyBy_modifyBy]
  refine (mapStrings_members rfl (fun _ _ => rfl) fun k x => ?_).symm
  by_cases hlaunch : k = "launch"
  · subst hlaunch
    simp only [String.reduceEq, if_false, if_true, id_eq]
    exact expandLaunch_eq_mapStrings.symm
  by_cases hendpoint : k = "endpoint"
  · subst hendpoint
    simp only [String.reduceEq, if_false, if_true, id_eq]
    refine (modify_eq_mapStrings fun p => ?_).symm
    unfold isLocalLocation
    split <;> simp_all
  by_cases hliveness : k = "liveness"
  · subst hliveness
    simp only [String.reduceEq, if_false, if_true, id_eq]
    refine (modify_eq_mapStrings fun p => ?_).symm
    unfold isLocalLocation
    split <;> simp_all
  · simp only [hlaunch, hendpoint, hliveness, if_false, id_eq]
    refine mapStrings_of_none fun p => ?_
    unfold isLocalLocation
    split <;> simp_all

/-- **Expansion rewrites the strings at the locations and nothing else.** -/
theorem expandCard_eq_mapStrings :
    expandCard v lookup = v.mapStrings (expandAt isLocation lookup) := by
  rw [expandCard, Value.modify_eq_modifyBy]
  refine (mapStrings_members rfl (fun _ _ => rfl) fun k x => ?_).symm
  by_cases hlocal : k = "local"
  · subst hlocal
    exact expandLocal_eq_mapStrings.symm
  · rw [if_neg hlocal]
    refine mapStrings_of_none fun p => ?_
    unfold isLocation
    split <;> simp_all

end Blocks

/-! ### What the typed card keeps -/

section Typed

variable {lookup : String → Option String} {v : Value} {card card' : Card}

/-- The version of a card is read from the member `version`. -/
theorem Card.deserialize_version (h : Card.deserialize v = some card) :
    (given 6 1 "version" v).bind string = some card.version := by
  obtain ⟨fs, hf, h⟩ := Option.bind_eq_some_iff.mp h
  obtain ⟨_, _, h⟩ := Option.bind_eq_some_iff.mp h
  obtain ⟨version, hversion, h⟩ := Option.bind_eq_some_iff.mp h
  obtain ⟨_, _, h⟩ := Option.bind_eq_some_iff.mp h
  obtain ⟨_, _, h⟩ := Option.bind_eq_some_iff.mp h
  obtain ⟨_, _, h⟩ := Option.bind_eq_some_iff.mp h
  obtain ⟨_, _, h⟩ := Option.bind_eq_some_iff.mp h
  obtain rfl := Option.some.inj h
  rwa [required_eq rfl hf] at hversion

theorem Endpoint.deserialize_type {e : Endpoint} (h : Endpoint.deserialize v = some e) :
    (given 2 0 "type" v).bind (unitEnum EndpointType.variants) = some e.endpointType := by
  obtain ⟨fs, hf, h⟩ := Option.bind_eq_some_iff.mp h
  obtain ⟨t, ht, h⟩ := Option.bind_eq_some_iff.mp h
  obtain ⟨_, _, h⟩ := Option.bind_eq_some_iff.mp h
  obtain rfl := Option.some.inj h
  rwa [required_eq rfl hf] at ht

theorem version_expandCard (h : validate v = .ok card)
    (h' : validate (expandCard v lookup) = .ok card') : card'.version = card.version := by
  have hversion := Card.deserialize_version (deserialize_of_validate h)
  have hversion' := Card.deserialize_version (deserialize_of_validate h')
  rw [expandCard, given_modify_of_ne (by decide), hversion] at hversion'
  exact (Option.some.inj hversion').symm

/-- A field of a stanza, read from what the card is given. -/
theorem map_bind_eq {α β : Type} {o : Option Value} {read : Value → Option α} {field : α → β}
    {readField : Value → Option β} (hsome : (o.bind read).isSome = o.isSome)
    (hfield : ∀ x a, read x = some a → readField x = some (field a)) :
    (o.bind read).map field = o.bind readField := by
  cases o with
  | none => rfl
  | some x =>
    rw [Option.bind_some, Option.isSome_some] at hsome
    obtain ⟨a, ha⟩ := Option.isSome_iff_exists.mp hsome
    rw [Option.bind_some, Option.bind_some, ha, hfield x a ha, Option.map_some]

/-- The type in a launch stanza. -/
def launchTypeOf (l : Value) : Option LaunchType :=
  (given 5 0 "type" l).bind (unitEnum LaunchType.variants)

/-- The type in an endpoint stanza. -/
def endpointTypeOf (e : Value) : Option EndpointType :=
  (given 2 0 "type" e).bind (unitEnum EndpointType.variants)

theorem types_of_validate (h : validate v = .ok card) :
    card.launch.map (·.launchType) = (launchOf v).bind launchTypeOf ∧
      card.endpoint.map (·.endpointType) = (endpointOf v).bind endpointTypeOf := by
  have hread := deserialize_of_validate h
  obtain ⟨hlaunch, hendpoint⟩ := Card.stanzas_eq hread
  obtain ⟨hsome, hsome'⟩ := Card.stanzas_isSome hread
  rw [hlaunch] at hsome ⊢
  rw [hendpoint] at hsome' ⊢
  exact ⟨map_bind_eq hsome fun _ _ => Launch.deserialize_type,
    map_bind_eq hsome' fun _ _ => Endpoint.deserialize_type⟩

/-- A member of the local block is what the rewriting of that member makes of it. -/
theorem bind_given_expand {α : Type} {n i : Nat} {key : String} {f : Value → Value}
    {read : Value → Option α} (hf : KeepsNull f) (hread : ∀ x, read (f x) = read x) (b : Value) :
    (given n i key (b.modify key f)).bind read = (given n i key b).bind read := by
  obtain hmap | hsame : given n i key (b.modify key f) = (given n i key b).map f ∨ b.modify key f = b :=
    given_modify_self hf b
  · rw [hmap]
    cases given n i key b with
    | none => rfl
    | some x => exact hread x
  · rw [hsame]

theorem launchTypeOf_expandCard :
    (launchOf (expandCard v lookup)).bind launchTypeOf = (launchOf v).bind launchTypeOf := by
  rcases localOf_expandCard lookup v with hmap | hsame
  · unfold launchOf
    rw [hmap]
    cases localOf v with
    | none => rfl
    | some b =>
      rw [Option.map_some, Option.bind_some, Option.bind_some, expandLocal,
        given_modify_of_ne (by decide), given_modify_of_ne (by decide)]
      exact bind_given_expand keepsNull_expandLaunch
        (fun l => congrArg (Option.bind · _) (type_expandLaunch l)) b
  · rw [hsame]

theorem endpointTypeOf_expandCard :
    (endpointOf (expandCard v lookup)).bind endpointTypeOf = (endpointOf v).bind endpointTypeOf := by
  rcases localOf_expandCard lookup v with hmap | hsame
  · unfold endpointOf
    rw [hmap]
    cases localOf v with
    | none => rfl
    | some b =>
      rw [Option.map_some, Option.bind_some, Option.bind_some, expandLocal,
        given_modify_of_ne (by decide), bind_given_expand keepsNull_modify fun e => ?_,
        given_modify_of_ne (by decide)]
      exact congrArg (Option.bind · _) (given_modify_of_ne (by decide))
  · rw [hsame]

/-- **The version and both types are no locations.** -/
theorem kept_of_expandCard (h : validate v = .ok card)
    (h' : validate (expandCard v lookup) = .ok card') : card'.version = card.version ∧
      card'.launch.map (·.launchType) = card.launch.map (·.launchType) ∧
        card'.endpoint.map (·.endpointType) = card.endpoint.map (·.endpointType) := by
  obtain ⟨hlaunch, hendpoint⟩ := types_of_validate h
  obtain ⟨hlaunch', hendpoint'⟩ := types_of_validate h'
  refine ⟨version_expandCard h h', ?_, ?_⟩
  · rw [hlaunch, hlaunch', launchTypeOf_expandCard]
  · rw [hendpoint, hendpoint', endpointTypeOf_expandCard]

end Typed

end McpLocator.Proto
