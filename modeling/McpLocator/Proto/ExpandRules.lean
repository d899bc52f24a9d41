import McpLocator.Proto.Expand
import McpLocator.Proto.Rules

namespace McpLocator.Proto

open McpLocator.Json McpLocator.Json.Serde

/-!
# Expansion keeps a card valid

Environment references are expanded inside strings, so every member keeps its shape.

* `given_modify_self`, `given_modify_of_ne` — what a struct is given once a member is rewritten.
* `LaunchShape.expand`, `LocalShape.expand` — the shapes of the blocks that are expanded.
* `validate_expandCard` — a card that was accepted is accepted again, under the same name.
-/

/-! ### Rewriting a member -/

/-- A rewriting that neither makes nor removes a `null`. -/
def KeepsNull (f : Value → Value) : Prop := ∀ x, f x = .null ↔ x = .null

section Modify

variable {n i : Nat} {name key : String} {f : Value → Value} {p : Value → Prop} {v : Value}

theorem keepsNull_modify : KeepsNull (Value.modify key f) := by
  intro x
  cases x <;> simp [Value.modify]

theorem keepsNull_mapItems : KeepsNull (Value.mapItems f) := by
  intro x
  cases x <;> simp [Value.mapItems]

theorem keepsNull_mapMembers : KeepsNull (Value.mapMembers f) := by
  intro x
  cases x <;> simp [Value.mapMembers]

theorem KeepsNull.present (hf : KeepsNull f) (x : Value) :
    Serde.present (f x) = (Serde.present x).map f := by
  by_cases hx : x = .null
  · rw [hx, (hf .null).mpr rfl]
    rfl
  · rw [present_eq_some.mpr ⟨rfl, hx⟩, present_eq_some.mpr ⟨rfl, fun h => hx ((hf x).mp h)⟩]
    rfl

theorem given_object_eq (ms : List (String × Value)) :
    given n i name (.object ms) = ((Value.object ms).get name).bind Serde.present := rfl

theorem given_modify_of_ne (h : name ≠ key) :
    given n i name (v.modify key f) = given n i name v := by
  cases v with
  | object ms =>
    rw [Value.modify_object, given_object_eq, ← Value.modify_object, Value.get_modify_of_ne h,
      given_object_eq]
  | _ => rfl

/-- A struct given by position is not looked into. -/
theorem given_modify_self (hf : KeepsNull f) (v : Value) :
    given n i key (v.modify key f) = (given n i key v).map f ∨ v.modify key f = v := by
  cases v with
  | object ms =>
    left
    rw [Value.modify_object, given_object_eq, ← Value.modify_object, Value.get_modify_self,
      given_object_eq]
    cases (Value.object ms).get key with
    | none => rfl
    | some x => exact hf.present x
  | _ => exact .inr rfl

/-- Whether a member is given does not change. -/
theorem given_modify_isSome (hf : KeepsNull f) (v : Value) :
    (given n i name (v.modify key f)).isSome = (given n i name v).isSome := by
  by_cases h : name = key
  · rcases given_modify_self (n := n) (i := i) hf v with hmap | hsame
    · rw [h, hmap, Option.isSome_map]
    · rw [hsame]
  · rw [given_modify_of_ne h]

theorem IsStruct.modify (h : IsStruct n v) : IsStruct n (v.modify key f) := by
  rcases h with ⟨ms, rfl⟩ | ⟨items, rfl, hlen⟩
  · exact .inl ⟨_, Value.modify_object key f ms⟩
  · exact .inr ⟨items, rfl, hlen⟩

/-- A member that is required keeps its shape. -/
theorem Has.modify (h : Has n i name p v) (hf : KeepsNull f)
    (hp : name = key → ∀ x, p x → p (f x)) : Has n i name p (v.modify key f) := by
  obtain ⟨x, hx, hpx⟩ := h
  by_cases hname : name = key
  · rcases given_modify_self (n := n) (i := i) hf v with hmap | hsame
    · exact ⟨f x, by rw [hname, hmap, ← hname, hx]; rfl, hp hname x hpx⟩
    · exact ⟨x, by rw [hsame, hx], hpx⟩
  · exact ⟨x, by rw [given_modify_of_ne hname, hx], hpx⟩

/-- A member that may be left out, too. -/
theorem May.modify (h : May n i name p v) (hf : KeepsNull f)
    (hp : name = key → ∀ x, p x → p (f x)) : May n i name p (v.modify key f) := by
  intro y hy
  by_cases hname : name = key
  · rcases given_modify_self (n := n) (i := i) hf v with hmap | hsame
    · rw [hname, hmap] at hy
      obtain ⟨x, hx, rfl⟩ := Option.map_eq_some_iff.mp hy
      exact hp hname x (h x (hname ▸ hx))
    · rw [hsame] at hy
      exact h y hy
  · rw [given_modify_of_ne hname] at hy
    exact h y hy

end Modify

/-! ### The blocks that are expanded -/

section Blocks

variable {lookup : String → Option String} {v : Value} {timeout : Value → Prop}

theorem keepsNull_expandStringField : KeepsNull (expandStringField lookup) := by
  intro x
  cases x <;> simp [expandStringField]

theorem IsString.expand {x : Value} (h : IsString x) : IsString (expandStringField lookup x) := by
  obtain ⟨s, rfl⟩ := h
  exact ⟨expandEnv s lookup, rfl⟩

theorem IsArrayOf.expand {x : Value} (h : IsArrayOf IsString x) :
    IsArrayOf IsString (x.mapItems (expandStringField lookup)) := by
  obtain ⟨items, rfl, hall⟩ := h
  refine ⟨_, rfl, fun y hy => ?_⟩
  obtain ⟨x, hx, rfl⟩ := List.mem_map.mp hy
  exact (hall x hx).expand

/-- Rewriting a member of a launch stanza. -/
theorem LaunchShape.modify {key : String} {f : Value → Value} (h : LaunchShape v)
    (hf : KeepsNull f) (htype : "type" ≠ key) (hshared : "shared" ≠ key)
    (hstring : "command" = key ∨ "cwd" = key → ∀ x, IsString x → IsString (f x))
    (hargs : "args" = key → ∀ x, IsArrayOf IsString x → IsArrayOf IsString (f x)) :
    LaunchShape (v.modify key f) := by
  obtain ⟨hstruct, ht, hcommand, ha, hcwd, hs⟩ := h
  refine ⟨hstruct.modify, ht.modify hf ?_, hcommand.modify hf ?_, ha.modify hf hargs,
    hcwd.modify hf ?_, hs.modify hf ?_⟩
  · exact fun h => absurd h htype
  · exact fun h => hstring (.inl h)
  · exact fun h => hstring (.inr h)
  · exact fun h => absurd h hshared

/-- An expanded launch stanza is one. -/
theorem LaunchShape.expand (h : LaunchShape v) : LaunchShape (expandLaunch lookup v) := by
  let field := expandStringField lookup
  have hfield : KeepsNull field := keepsNull_expandStringField
  have hstring : ∀ x, IsString x → IsString (field x) := fun _ => IsString.expand
  have hcommand : LaunchShape (v.modify "command" field) :=
    h.modify hfield (by decide) (by decide) (fun _ => hstring) (by simp)
  have hcwd : LaunchShape ((v.modify "command" field).modify "cwd" field) :=
    hcommand.modify hfield (by decide) (by decide) (fun _ => hstring) (by simp)
  have hargs : LaunchShape (((v.modify "command" field).modify "cwd" field).modify "args"
      (Value.mapItems field)) :=
    hcwd.modify keepsNull_mapItems (by decide) (by decide) (by simp) fun _ _ => IsArrayOf.expand
  exact hargs.modify keepsNull_mapMembers (by decide) (by decide) (by simp) (by simp)

theorem keepsNull_expandLaunch : KeepsNull (expandLaunch lookup) := by
  intro x
  unfold expandLaunch
  dsimp only
  rw [keepsNull_modify, keepsNull_modify, keepsNull_modify, keepsNull_modify]

/-- An expanded local block is one. -/
theorem LocalShape.expand (h : LocalShape timeout v) : LocalShape timeout (expandLocal lookup v) := by
  obtain ⟨hstruct, hlaunch, hendpoint, hliveness, hlifetime, hconsent⟩ := h
  have hfield : KeepsNull (expandStringField lookup) := keepsNull_expandStringField
  have haddress : ∀ x, EndpointShape x →
      EndpointShape (x.modify "address" (expandStringField lookup)) := by
    rintro x ⟨hs, ht, ha⟩
    exact ⟨hs.modify, ht.modify hfield (by simp), ha.modify hfield fun _ _ => IsString.expand⟩
  have hpidFile : ∀ x, LivenessShape x →
      LivenessShape (x.modify "pidFile" (expandStringField lookup)) := by
    rintro x ⟨hs, hp, hb⟩
    exact ⟨hs.modify, hp.modify hfield fun _ _ => IsString.expand, hb.modify hfield (by simp)⟩
  -- each of the three rewritings touches its own member
  have hl : KeepsNull (expandLaunch lookup) := keepsNull_expandLaunch
  have ha : KeepsNull (Value.modify "address" (expandStringField lookup)) := keepsNull_modify
  have hp : KeepsNull (Value.modify "pidFile" (expandStringField lookup)) := keepsNull_modify
  refine ⟨hstruct.modify.modify.modify, ?_, ?_, ?_, ?_, ?_⟩
  · exact ((hlaunch.modify hl fun _ _ => LaunchShape.expand).modify ha (by simp)).modify hp (by simp)
  · exact ((hendpoint.modify hl (by simp)).modify ha fun _ => haddress).modify hp (by simp)
  · exact ((hliveness.modify hl (by simp)).modify ha (by simp)).modify hp fun _ => hpidFile
  · exact ((hlifetime.modify hl (by simp)).modify ha (by simp)).modify hp (by simp)
  · exact ((hconsent.modify hl (by simp)).modify ha (by simp)).modify hp (by simp)

theorem keepsNull_expandLocal : KeepsNull (expandLocal lookup) := by
  intro x
  unfold expandLocal
  dsimp only
  rw [keepsNull_modify, keepsNull_modify, keepsNull_modify]

/-! ### Cards -/

/-- The local block of an expanded card is the expanded block, or the card as it was. -/
theorem localOf_expandCard (lookup : String → Option String) (v : Value) :
    localOf (expandCard v lookup) =
    (localOf v).map (expandLocal lookup) ∨ expandCard v lookup = v :=
  given_modify_self keepsNull_expandLocal v

/-- A stanza is there after expansion exactly if it was before. -/
theorem stanza_isSome (name : String) (i : Nat) (b : Value) :
    (given 5 i name (expandLocal lookup b)).isSome = (given 5 i name b).isSome := by
  unfold expandLocal
  dsimp only
  rw [given_modify_isSome keepsNull_modify, given_modify_isSome keepsNull_modify,
    given_modify_isSome keepsNull_expandLaunch]

theorem launchOf_expandCard (v : Value) :
    (launchOf (expandCard v lookup)).isSome = (launchOf v).isSome := by
  rcases localOf_expandCard lookup v with hmap | hsame
  · unfold launchOf
    rw [hmap]
    cases localOf v with
    | none => rfl
    | some b => exact stanza_isSome "launch" 0 b
  · rw [hsame]

theorem endpointOf_expandCard (v : Value) :
    (endpointOf (expandCard v lookup)).isSome = (endpointOf v).isSome := by
  rcases localOf_expandCard lookup v with hmap | hsame
  · unfold endpointOf
    rw [hmap]
    cases localOf v with
    | none => rfl
    | some b => exact stanza_isSome "endpoint" 1 b
  · rw [hsame]

theorem timeoutOf_expandCard (v : Value) : timeoutOf (expandCard v lookup) = timeoutOf v := by
  rcases localOf_expandCard lookup v with hmap | hsame
  · unfold timeoutOf
    rw [hmap]
    cases localOf v with
    | none => rfl
    | some b =>
      rw [Option.map_some, Option.bind_some, expandLocal, given_modify_of_ne (by decide),
        given_modify_of_ne (by decide), given_modify_of_ne (by decide)]
      rfl
  · rw [hsame]

/-- The type of a launch stanza is not expanded. -/
theorem type_expandLaunch (l : Value) :
    given 5 0 "type" (expandLaunch lookup l) = given 5 0 "type" l := by
  unfold expandLaunch
  dsimp only
  rw [given_modify_of_ne (by decide), given_modify_of_ne (by decide), given_modify_of_ne (by decide),
    given_modify_of_ne (by decide)]

theorem executable_of_expandCard {p : Value → Prop}
    (h : Has 6 4 "local" (Has 5 0 "launch" (Has 5 0 "type" p)) (expandCard v lookup)) :
    Has 6 4 "local" (Has 5 0 "launch" (Has 5 0 "type" p)) v := by
  rcases localOf_expandCard lookup v with hmap | hsame
  · obtain ⟨b', hb', l', hl', t, ht, hp⟩ := h
    obtain ⟨b, hb, rfl⟩ := Option.map_eq_some_iff.mp (hmap.symm.trans hb')
    refine ⟨b, hb, ?_⟩
    rw [expandLocal, given_modify_of_ne (by decide), given_modify_of_ne (by decide)] at hl'
    have hcases : given 5 0 "launch" (b.modify "launch" (expandLaunch lookup)) =
        (given 5 0 "launch" b).map (expandLaunch lookup) ∨
          b.modify "launch" (expandLaunch lookup) = b := given_modify_self keepsNull_expandLaunch b
    rcases hcases with hlaunch | hsame
    · obtain ⟨l, hl, rfl⟩ := Option.map_eq_some_iff.mp (hlaunch.symm.trans hl')
      exact ⟨l, hl, t, type_expandLaunch l ▸ ht, hp⟩
    · exact ⟨l', hsame ▸ hl', t, ht, hp⟩
  · exact hsame ▸ h

/-- **A card that keeps the rules keeps them when it is expanded.** -/
theorem CardRules.expand (h : CardRules v) : CardRules (expandCard v lookup) := by
  have hl : KeepsNull (expandLocal lookup) := keepsNull_expandLocal
  obtain ⟨⟨ms, rfl⟩, ⟨s, hname, hdns⟩, hv, hd, ht, hlocal, hremotes, hdeclared, hserves⟩ := h
  refine ⟨⟨_, Value.modify_object _ _ _⟩, ⟨s, ?_, hdns⟩, hv.modify hl (by simp),
    hd.modify hl (by simp), ht.modify hl (by simp), hlocal.modify hl fun _ _ => LocalShape.expand,
    hremotes.modify hl (by simp), ?_, fun hexecutable => ?_⟩
  · exact (Value.get_modify_of_ne (by decide) _ _).trans hname
  · rw [launchOf_expandCard, endpointOf_expandCard]
    rcases hdeclared with hlaunch | hendpoint | hremotes
    · exact .inl hlaunch
    · exact .inr (.inl hendpoint)
    · exact .inr (.inr (hremotes.modify hl (by simp)))
  · rw [endpointOf_expandCard]
    exact hserves (executable_of_expandCard hexecutable)

/-- The name of a card that was accepted is the string under `name`. -/
theorem name_of_validate {card : Card} (h : validate v = .ok card) :
    v.get "name" = some (.string card.name) := by
  obtain ⟨⟨⟨ms, rfl⟩, ⟨s, hname, -⟩, -⟩, -⟩ := (validate_isOk_iff_rules v).mp ⟨card, h⟩
  obtain ⟨fs, hf, hread⟩ := Option.bind_eq_some_iff.mp (deserialize_of_validate h)
  obtain ⟨name, hrequired, hread⟩ := Option.bind_eq_some_iff.mp hread
  obtain ⟨_, _, hread⟩ := Option.bind_eq_some_iff.mp hread
  obtain ⟨_, _, hread⟩ := Option.bind_eq_some_iff.mp hread
  obtain ⟨_, _, hread⟩ := Option.bind_eq_some_iff.mp hread
  obtain ⟨_, _, hread⟩ := Option.bind_eq_some_iff.mp hread
  obtain ⟨_, _, hread⟩ := Option.bind_eq_some_iff.mp hread
  obtain rfl := Option.some.inj hread
  -- the reader looks up the same member
  obtain rfl := Option.some.inj hf
  have hstring : ((Value.object ms).get "name").bind string = some name := hrequired
  rw [hname, Option.bind_some, string_string] at hstring
  rw [hname, Option.some.inj hstring]

/-- **A card that was accepted is accepted again when it is expanded, and under the same name.** -/
theorem validate_expandCard {card : Card} (h : validate v = .ok card) :
    ∃ card', validate (expandCard v lookup) = .ok card' ∧ card'.name = card.name := by
  obtain ⟨hrules, htimeout⟩ := (validate_isOk_iff_rules v).mp ⟨card, h⟩
  have hexpanded : CardRules (expandCard v lookup) ∧ TimeoutIsUnsigned (expandCard v lookup) := by
    refine ⟨hrules.expand, fun t ht => htimeout t ?_⟩
    rw [← ht, timeoutOf_expandCard]
  obtain ⟨card', hcard'⟩ := (validate_isOk_iff_rules _).mpr hexpanded
  refine ⟨card', hcard', ?_⟩
  have hname := name_of_validate hcard'
  rw [expandCard, Value.get_modify_of_ne (by decide), name_of_validate h] at hname
  simpa using hname.symm

end Blocks

end McpLocator.Proto
