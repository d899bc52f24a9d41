import McpLocator.Proto.ExpandSpec

namespace McpLocator.Client

open McpLocator.Scan McpLocator.Proto

/-!
# Environment expansion in the client library

* `expandEnv` — two global replacements, first of `%NAME%` and then of `${NAME}`.
* `Stable` — the strings on which the second replacement sees what was there before the first.
* `expandEnv_eq` — on those the two passes compute what the broker's single pass computes.
-/

/-! ### `expandEnv` -/

/-- The properties that every JavaScript object inherits, as text. -/
def objectPrototype : List (String × String) :=
  [("constructor", "function Object() \x7b [native code] \x7d"),
    ("__defineGetter__", "function __defineGetter__() \x7b [native code] \x7d"),
    ("__defineSetter__", "function __defineSetter__() \x7b [native code] \x7d"),
    ("hasOwnProperty", "function hasOwnProperty() \x7b [native code] \x7d"),
    ("__lookupGetter__", "function __lookupGetter__() \x7b [native code] \x7d"),
    ("__lookupSetter__", "function __lookupSetter__() \x7b [native code] \x7d"),
    ("isPrototypeOf", "function isPrototypeOf() \x7b [native code] \x7d"),
    ("propertyIsEnumerable", "function propertyIsEnumerable() \x7b [native code] \x7d"),
    ("toString", "function toString() \x7b [native code] \x7d"),
    ("valueOf", "function valueOf() \x7b [native code] \x7d"),
    ("toLocaleString", "function toLocaleString() \x7b [native code] \x7d"),
    ("__proto__", "[object Object]")]

/-- `env[name]`: a variable that is set, else what the object inherits under that name. -/
def property (env : String → Option String) (name : String) : Option String :=
  (env name).orElse fun _ => objectPrototype.lookup name

/-- `/%([A-Za-z_][A-Za-z0-9_]*)%/`. -/
def percentPattern : Quoted :=
  { opener := ['%'], closer := '%', word := isVarChar, ok := fun name => name.head?.any isVarStart }

/-- `/\$\{([A-Za-z_][A-Za-z0-9_]*)\}/`. -/
def dollarPattern : Quoted :=
  { opener := ['$', '{'], closer := '}', word := isVarChar,
    ok := fun name => name.head?.any isVarStart }

/-- `expandEnv`: `(whole, name) => env[name] ?? whole`, over the text twice. -/
def expandEnv (value : String) (env : String → Option String) : String :=
  let once := replaceAll percentPattern.read (substitute (property env)) value.toList
  String.ofList (replaceAll dollarPattern.read (substitute (property env)) once)

/-! ### The patterns -/

theorem isVarName_iff (name : List Char) : isVarName name = true ↔
    name.head?.any isVarStart = true ∧ ∀ c ∈ name, isVarChar c = true := by
  cases name with
  | nil => simp [isVarName]
  | cons c cs => simp [isVarName]

theorem percentRef_read : percentRef.read = percentPattern.read :=
  Quoted.read_narrow rfl (by decide) isVarName_iff

theorem dollarRef_read : dollarRef.read = dollarPattern.read :=
  Quoted.read_narrow rfl (by decide) isVarName_iff

/-- A variable name contains none of the delimiters. -/
theorem isVarChar_ne {c : Char} (h : isVarChar c = true) : c ≠ '%' ∧ c ≠ '$' ∧ c ≠ '{' ∧ c ≠ '}' := by
  refine ⟨?_, ?_, ?_, ?_⟩ <;>
  · rintro rfl
    exact absurd h (by decide)

/-- The characters of a `${NAME}` reference after its first. -/
theorem tail_of_dollarRef {c : Char} {cs name : List Char} {n : Nat}
    (h : dollarRef.read (c :: cs) = some (name, n)) :
    c = '$' ∧ ∀ d ∈ cs.take n, d ≠ '%' ∧ d ≠ '$' := by
  obtain ⟨-, hok, -, htext, -⟩ := Quoted.read_eq_some h
  have hname := ((isVarName_iff name).mp hok).2
  have hspelled : dollarRef.text name = '$' :: '{' :: (name ++ ['}']) := rfl
  rw [List.take_succ_cons, hspelled] at htext
  obtain ⟨hc, htail⟩ := List.cons.inj htext
  refine ⟨hc, fun d hd => ?_⟩
  rw [htail, List.mem_cons, List.mem_append, List.mem_singleton] at hd
  rcases hd with rfl | hd | rfl
  · decide
  · exact ⟨(isVarChar_ne (hname d hd)).1, (isVarChar_ne (hname d hd)).2.1⟩
  · decide

theorem head_of_percentRef {cs name : List Char} {n : Nat}
    (h : percentRef.read cs = some (name, n)) : (cs.take (n + 1)).head? = some '%' := by
  obtain ⟨-, -, -, htext, -⟩ := Quoted.read_eq_some h
  rw [htext]
  rfl

/-! ### Strings on which the two passes do not interfere -/

/-- The text once the `%NAME%` references to set variables are substituted. -/
def firstText (env : String → Option String) (s : List Char) : List Char :=
  replaceAll eitherRef (fun name text =>
    if text.head? = some '$' then text else substitute env name text) s

/-- The references that the second pass replaces. -/
def seen (env : String → Option String) : Matcher (List Char) :=
  Matcher.only (fun name => (property env (String.ofList name)).isSome) dollarRef.read

/-- The tokens of that text if substituting made and broke no reference: the `${NAME}` references
    to set variables that were there, everything else literal. -/
def kept (env : String → Option String) (s : List Char) : List (Token (List Char)) :=
  (tokens eitherRef s).flatMap fun
    | .lit c => [.lit c]
    | .ref name text =>
      if text.head? = some '$' then
        if (env (String.ofList name)).isSome then [.ref name text] else text.map .lit
      else (substitute env name text).map .lit

/-- A reference to a variable that is set, or under whose name objects have no property. -/
def inheritsNothing (env : String → Option String) : Token (List Char) → Bool
  | .lit _ => true
  | .ref name _ =>
    (env (String.ofList name)).isSome || (objectPrototype.lookup (String.ofList name)).isNone

/-- Substituting the `%NAME%` references of `s` leaves its `${NAME}` references as they are. -/
structure Stable (env : String → Option String) (s : String) : Prop where
  /-- No reference names a variable that is not set but that every object has a property for. -/
  noInherited : ∀ token ∈ tokens eitherRef s.toList, inheritsNothing env token = true
  /-- The second pass replaces the references to set variables that were in `s`, and no other. -/
  sameReferences : tokens (seen env) (firstText env s.toList) = kept env s.toList

instance (env : String → Option String) (s : String) : Decidable (Stable env s) :=
  decidable_of_iff ((∀ token ∈ tokens eitherRef s.toList, inheritsNothing env token = true) ∧
    tokens (seen env) (firstText env s.toList) = kept env s.toList)
    ⟨fun h => ⟨h.1, h.2⟩, fun h => ⟨h.noInherited, h.sameReferences⟩⟩

/-! ### The two passes -/

/-- The first pass, as a rewriting of the references in either syntax. -/
theorem replaceAll_percent (f : List Char → List Char → List Char) (s : List Char) :
    replaceAll percentRef.read f s =
      replaceAll eitherRef (fun name text => if text.head? = some '$' then text else f name text)
        s := by
  refine replaceAll_eq_of_refines (fun c cs h => ?_) (fun c cs name n h => ?_) s
  -- where neither syntax matches, `%NAME%` does not
  · unfold eitherRef at h
    cases hp : percentRef.read (c :: cs) with
    | none => rfl
    | some r => simp [hp] at h
  -- where one does, it is the same match, or a `${NAME}` without a `%` in it
  · unfold eitherRef at h
    cases hp : percentRef.read (c :: cs) with
    | some r =>
      rw [hp] at h
      obtain rfl := Option.some.inj h
      refine .inl ⟨rfl, ?_⟩
      rw [if_neg]
      rw [head_of_percentRef hp]
      decide
    | none =>
      rw [hp] at h
      obtain ⟨rfl, htail⟩ := tail_of_dollarRef h
      refine .inr ⟨rfl, Quoted.inert_of_ne rfl fun d hd => (htail d hd).1, ?_⟩
      exact if_pos rfl

/-- The second pass only depends on the references to variables that have a value. -/
theorem replaceAll_dollar (env : String → Option String) (s : List Char) :
    replaceAll dollarRef.read (substitute (property env)) s =
      replaceAll (seen env) (substitute (property env)) s := by
  refine (replaceAll_eq_of_refines (fun c cs h => ?_) (fun c cs name n h => ?_) s).symm
  · simp [seen, Matcher.only, h]
  · by_cases hset : (property env (String.ofList name)).isSome = true
    · exact .inl ⟨by simp [seen, Matcher.only, h, hset], rfl⟩
    · -- a reference without a value is put back, and no other starts inside it
      rw [Option.not_isSome_iff_eq_none] at hset
      refine .inr ⟨by simp [seen, Matcher.only, h, hset], ?_, ?_⟩
      · obtain ⟨-, htail⟩ := tail_of_dollarRef h
        intro d hd rest
        have : dollarRef.read (d :: rest) = none :=
          Quoted.inert_of_ne rfl (fun d hd => (htail d hd).2) d hd rest
        simp [seen, Matcher.only, this]
      · simp [substitute, hset]

theorem property_of_set {env : String → Option String} {name : String}
    (h : (env name).isSome = true) : property env name = env name := by
  obtain ⟨value, hv⟩ := Option.isSome_iff_exists.mp h
  simp [property, hv]

/-- **On a stable string the two passes compute the single pass.** -/
theorem expandEnv_eq {env : String → Option String} {s : String} (h : Stable env s) :
    expandEnv s env = Proto.expandEnv s env := by
  rw [← String.toList_inj, expandEnv_eq_replaceAll, expandEnv, String.toList_ofList,
    ← percentRef_read, ← dollarRef_read, replaceAll_percent, replaceAll_dollar]
  -- the first pass looks up nothing that is inherited
  have hfirst : replaceAll eitherRef (fun name text =>
      if text.head? = some '$' then text else substitute (property env) name text) s.toList =
        firstText env s.toList := by
    refine List.flatMap_congr fun token htoken => ?_
    cases token with
    | lit c => rfl
    | ref name text =>
      have hproperty : property env (String.ofList name) = env (String.ofList name) := by
        cases hset : env (String.ofList name) with
        | none =>
          have := h.noInherited _ htoken
          simp only [inheritsNothing, hset, Option.isSome_none, Bool.false_or,
            Option.isNone_iff_eq_none] at this
          simp [property, hset, this]
        | some value => simp [property, hset]
      simp only [Token.render, substitute, hproperty]
  rw [hfirst, replaceAll, h.sameReferences, kept, List.flatMap_assoc]
  -- token by token, both sides now look up the same references of `s`
  refine List.flatMap_congr fun token _ => ?_
  cases token with
  | lit c => rfl
  | ref name text =>
    dsimp only
    split
    · split
      · rename_i hset
        simp [Token.render, substitute, property_of_set hset]
      · rename_i hset
        rw [flatMap_render_lit]
        rw [Option.not_isSome_iff_eq_none] at hset
        simp [Token.render, substitute, hset]
    · rw [flatMap_render_lit]
      rfl

end McpLocator.Client
