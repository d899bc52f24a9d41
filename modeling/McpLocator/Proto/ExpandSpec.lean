import McpLocator.Proto.Expand

namespace McpLocator.Proto

open McpLocator.Scan

/-!
# What environment expansion computes

* `percentRef`, `dollarRef` — the references `%NAME%` and `${NAME}`; `eitherRef` matches both.
* `substitute lookup` — a reference becomes its variable's value, or stays as written.
* `expandEnv_eq_replaceAll` — the index loop is one leftmost pass over the text.
* `Reference` — the grammar of references; `expandEnv_eq_scan` is that the loop divides the text by it,
  once and whatever the variables are, and substitutes.
-/

/-! ### References -/

/-- `%NAME%`: the name is what stands before the next `%`. -/
def percentRef : Quoted := { opener := ['%'], closer := '%', word := (· != '%'), ok := isVarName }

/-- `${NAME}`: the name is what stands before the next `}`. -/
def dollarRef : Quoted := { opener := ['$', '{'], closer := '}', word := (· != '}'), ok := isVarName }

/-- A reference in either syntax. -/
def eitherRef : Matcher (List Char) := fun cs => (percentRef.read cs).orElse fun _ => dollarRef.read cs

/-- A reference becomes its variable's value, or stays as written. -/
def substitute (lookup : String → Option String) (name text : List Char) : List Char :=
  match lookup (String.ofList name) with
  | some value => value.toList
  | none => text

/-! ### One round of the loop -/

theorem findIdx?_eq (x : Char) (cs : List Char) : cs.findIdx? (· == x) =
    if (cs.dropWhile (· != x)).head? = some x then some (cs.takeWhile (· != x)).length else none := by
  induction cs with
  | nil => rfl
  | cons c cs ih =>
    rw [List.findIdx?_cons, ih, List.dropWhile_cons, List.takeWhile_cons]
    by_cases h : c = x
    · simp [h]
    · simp only [beq_eq_false_iff_ne.mpr h, bne_iff_ne.mpr h, Bool.false_eq_true, if_false, if_true]
      split <;> rfl

theorem take_length_takeWhile (p : Char → Bool) (cs : List Char) :
    cs.take (cs.takeWhile p).length = cs.takeWhile p := by
  induction cs with
  | nil => rfl
  | cons c cs ih =>
    rw [List.takeWhile_cons]
    split
    · rw [List.length_cons, List.take_succ_cons, ih]
    · rfl

/-- `find_var` reads the characters before the closer. -/
theorem findVar_eq (chars : List Char) (start : Nat) (closer : Char) :
    findVar chars start closer =
      if ((chars.drop start).dropWhile (· != closer)).head? = some closer then
        some ((chars.drop start).takeWhile (· != closer),
          ((chars.drop start).takeWhile (· != closer)).length + start)
      else none := by
  rw [findVar, findIdx?_eq]
  split
  · rw [Option.map_some, take_length_takeWhile]
  · rfl

/-- What a round does with a match: the reference is pushed, substituted, and skipped. -/
def pushed (lookup : String → Option String) (cs : List Char) :
    Option (List Char × Nat) → List Char × Nat
  | some (name, n) => (substitute lookup name (cs.take (n + 1)), n + 1)
  | none => (cs.take 1, 1)

/-- Where an opener stands, the round reads the reference that it opens. -/
theorem expandStep_of_opener {lookup : String → Option String} {chars : List Char} {i : Nat}
    {q : Quoted} {c : Char} {cs rest : List Char} (hword : q.word = (· != q.closer))
    (hok : q.ok = isVarName) (hchars : chars.drop i = c :: cs) (hpre : c :: cs = q.opener ++ rest)
    (hopening : opening c cs.head? = some (q.closer, q.opener.length)) :
    expandStep lookup chars i = some ((pushed lookup (c :: cs) (q.read (c :: cs))).1,
      i + (pushed lookup (c :: cs) (q.read (c :: cs))).2) := by
  -- the code works with indices into the whole text, the scan with what is left of it
  have hget : chars[i]? = some c := by
    have := congrArg List.head? hchars
    rwa [List.head?_drop] at this
  have hnext : chars[i + 1]? = cs.head? := by
    have := congrArg (fun l => l.tail.head?) hchars
    simpa using this
  have hdrop : chars.drop (i + q.opener.length) = rest := by
    rw [← List.drop_drop, hchars, hpre, List.drop_left]
  have hlen : ¬chars.length < i + q.opener.length := by
    have h1 := congrArg List.length hchars
    have h2 := congrArg List.length hpre
    rw [List.length_drop] at h1
    rw [List.length_append] at h2
    simp only [List.length_cons] at h1 h2
    omega
  have hprefix : q.opener.isPrefixOf (c :: cs) = true :=
    List.isPrefixOf_iff_prefix.mpr ⟨rest, hpre.symm⟩
  have hbody : (c :: cs).drop q.opener.length = rest := by rw [hpre, List.drop_left]
  have htake : ∀ stop, (chars.take (stop + 1)).drop i = (c :: cs).take (stop + 1 - i) := by
    intro stop
    rw [List.drop_take, hchars]
  simp only [expandStep, hget, hnext, hopening, hlen, if_false, findVar_eq, hdrop, Quoted.read,
    hprefix, if_true, hbody, hword, hok]
  -- a reference needs its closer and a name that a variable can have; otherwise it stays text
  by_cases hclose : (rest.dropWhile (· != q.closer)).head? = some q.closer
  · by_cases hname : isVarName (rest.takeWhile (· != q.closer)) = true
    · simp only [hclose, hname, if_true, and_self, pushed, substitute, htake]
      have hstop : (rest.takeWhile (· != q.closer)).length + (i + q.opener.length) + 1 =
          i + (q.opener.length + (rest.takeWhile (· != q.closer)).length + 1) := by omega
      cases lookup (String.ofList (rest.takeWhile (· != q.closer))) with
      | none => simp only [hstop, Nat.add_sub_cancel_left]
      | some value => simp only [hstop]
    · simp [hclose, hname, pushed]
  · simp [hclose, pushed]

theorem read_eq_none_of_ne {q : Quoted} {c : Char} {cs : List Char}
    (h : q.opener.isPrefixOf (c :: cs) = false) : q.read (c :: cs) = none := by
  simp [Quoted.read, h]

theorem dollarRef_read_eq_none {c : Char} {cs : List Char} (h : ¬ (c = '$' ∧ cs.head? = some '{')) :
    dollarRef.read (c :: cs) = none := by
  refine read_eq_none_of_ne ?_
  cases cs with
  | nil => simp [dollarRef, List.isPrefixOf]
  | cons d rest =>
    simp only [List.head?_cons, Option.some.injEq] at h
    simp only [dollarRef, List.isPrefixOf, Bool.and_true, Bool.and_eq_false_iff, beq_eq_false_iff_ne,
      ne_eq]
    by_contra hboth
    simp only [not_or, not_not] at hboth
    exact h ⟨hboth.1.symm, hboth.2.symm⟩

/-- One round takes one token off the text. -/
theorem expandStep_eq {lookup : String → Option String} {chars : List Char} {i : Nat} {c : Char}
    {cs : List Char} (hchars : chars.drop i = c :: cs) :
    expandStep lookup chars i = some ((pushed lookup (c :: cs) (eitherRef (c :: cs))).1,
      i + (pushed lookup (c :: cs) (eitherRef (c :: cs))).2) := by
  by_cases hpercent : c = '%'
  · subst hpercent
    have hdollar : dollarRef.read ('%' :: cs) = none := read_eq_none_of_ne rfl
    have heither : eitherRef ('%' :: cs) = percentRef.read ('%' :: cs) := by
      simp [eitherRef, hdollar]
    rw [heither]
    exact expandStep_of_opener rfl rfl hchars rfl rfl
  · have hpercentRef : percentRef.read (c :: cs) = none := by
      refine read_eq_none_of_ne ?_
      simp [percentRef, List.isPrefixOf, Ne.symm hpercent]
    have heither : eitherRef (c :: cs) = dollarRef.read (c :: cs) := by
      simp [eitherRef, hpercentRef]
    rw [heither]
    by_cases hdollar : c = '$' ∧ cs.head? = some '{'
    · obtain ⟨rfl, hhead⟩ := hdollar
      obtain ⟨rest, rfl⟩ : ∃ rest, cs = '{' :: rest := by
        cases cs with
        | nil => simp at hhead
        | cons d rest => exact ⟨rest, by rw [Option.some.inj hhead]⟩
      exact expandStep_of_opener rfl rfl hchars rfl rfl
    · -- neither opener stands here: one character is copied
      have hnone := dollarRef_read_eq_none hdollar
      have hget : chars[i]? = some c := by
        have := congrArg List.head? hchars
        rwa [List.head?_drop] at this
      have hnext : chars[i + 1]? = cs.head? := by
        have := congrArg (fun l => l.tail.head?) hchars
        simpa using this
      rw [hnone]
      simp only [expandStep, hget, hnext, opening, hpercent, hdollar, if_false]
      rfl

/-! ### The loop -/

/-- What one round pushes and what the rounds after it compute make up the whole. -/
theorem replaceAll_eq_pushed (lookup : String → Option String) (c : Char) (cs : List Char) :
    replaceAll eitherRef (substitute lookup) (c :: cs) =
      (pushed lookup (c :: cs) (eitherRef (c :: cs))).1 ++
        replaceAll eitherRef (substitute lookup)
          ((c :: cs).drop (pushed lookup (c :: cs) (eitherRef (c :: cs))).2) := by
  unfold replaceAll
  cases h : eitherRef (c :: cs) with
  | none => rw [tokens_cons_none h]; rfl
  | some r =>
    obtain ⟨name, n⟩ := r
    rw [tokens_cons_some h]
    rfl

theorem pushed_pos (lookup : String → Option String) (cs : List Char)
    (r : Option (List Char × Nat)) : 0 < (pushed lookup cs r).2 := by
  cases r <;> simp [pushed]

/-- From index `i` with enough fuel the loop appends the scan of what is left. -/
theorem expandLoop_eq (lookup : String → Option String) (chars : List Char) :
    ∀ (fuel i : Nat) (out : List Char), chars.length ≤ i + fuel →
      expandLoop lookup chars fuel i out =
        some (out ++ replaceAll eitherRef (substitute lookup) (chars.drop i)) := by
  intro fuel
  induction fuel with
  | zero =>
    intro i out hfuel
    rw [expandLoop, if_neg (by omega), List.drop_eq_nil_of_le (by omega)]
    simp [replaceAll]
  | succ fuel ih =>
    intro i out hfuel
    by_cases hi : i < chars.length
    · have hchars : chars.drop i = chars[i] :: chars.drop (i + 1) := List.drop_eq_getElem_cons hi
      -- a round always moves on, so the fuel left is enough for the text left
      have hpos := pushed_pos lookup (chars.drop i) (eitherRef (chars.drop i))
      rw [expandLoop, if_pos hi, expandStep_eq hchars, ← hchars]
      dsimp only
      rw [ih _ _ (by omega), List.append_assoc, ← List.drop_drop]
      congr 2
      rw [hchars]
      exact (replaceAll_eq_pushed lookup _ _).symm
    · rw [expandLoop, if_neg hi, List.drop_eq_nil_of_le (by omega)]
      simp [replaceAll]

/-- **`expand_env` is one leftmost pass that substitutes references in either syntax.** -/
theorem expandEnv_eq_replaceAll (input : String) (lookup : String → Option String) :
    (expandEnv input lookup).toList = replaceAll eitherRef (substitute lookup) input.toList := by
  rw [expandEnv, expandLoop_eq lookup input.toList _ 0 [] (by omega)]
  simp

/-! ### The reference scan -/

/-- `[A-Za-z_][A-Za-z0-9_]*`. -/
def IsName : List Char → Prop
  | [] => False
  | c :: cs => isVarStart c = true ∧ ∀ d ∈ cs, isVarChar d = true

/-- `%NAME%` and `${NAME}`. -/
inductive Reference : List Char → List Char → Prop where
  | percent {name : List Char} (h : IsName name) : Reference name ('%' :: (name ++ ['%']))
  | dollar {name : List Char} (h : IsName name) : Reference name ('$' :: '{' :: (name ++ ['}']))

theorem isVarChar_of_isVarStart {c : Char} (h : isVarStart c = true) : isVarChar c = true := by
  rw [isVarStart, Bool.or_eq_true] at h
  rw [isVarChar, Char.isAlphanum, Bool.or_eq_true, Bool.or_eq_true]
  exact h.imp_left .inl

theorem isName_iff (name : List Char) : IsName name ↔ isVarName name = true := by
  cases name with
  | nil => simp [IsName, isVarName]
  | cons c cs =>
    simp only [IsName, isVarName, List.isEmpty_cons, Bool.not_false, List.head?_cons, Option.any_some,
      List.all_cons, Bool.true_and, Bool.and_eq_true, List.all_eq_true]
    exact ⟨fun h => ⟨h.1, isVarChar_of_isVarStart h.1, h.2⟩, fun h => ⟨h.1, h.2.2⟩⟩

/-- A name has no character that closes a reference. -/
theorem ne_closer_of_isVarName {name : List Char} (h : isVarName name = true) :
    ∀ c ∈ name, (c != '%') = true ∧ (c != '}') = true := by
  intro c hc
  rw [isVarName, Bool.and_eq_true, List.all_eq_true] at h
  have hchar := h.2 c hc
  constructor <;>
  · refine bne_iff_ne.mpr ?_
    rintro rfl
    exact absurd hchar (by decide)

/-- **The matcher of the loop finds exactly the references.** -/
theorem eitherRef_decides : eitherRef.Decides Reference := by
  constructor
  case nonempty => rintro name text ⟨⟩ <;> simp
  case iff =>
    intro cs name n
    constructor
    · intro h
      rw [eitherRef, Option.orElse_eq_or, Option.or_eq_some_iff] at h
      rcases h with h | ⟨-, h⟩
      · obtain ⟨hn, hok, -, -, hcs⟩ := Quoted.read_eq_some h
        refine ⟨_, .percent ((isName_iff name).mpr hok), ⟨_, hcs.symm⟩, ?_⟩
        simp [hn, percentRef]
        omega
      · obtain ⟨hn, hok, -, -, hcs⟩ := Quoted.read_eq_some h
        refine ⟨_, .dollar ((isName_iff name).mpr hok), ⟨_, hcs.symm⟩, ?_⟩
        simp [hn, dollarRef]
        omega
    · rintro ⟨text, href, ⟨rest, rfl⟩, hn⟩
      cases href with
      | percent h =>
        have hok := (isName_iff name).mp h
        have hread : percentRef.read (percentRef.text name ++ rest) = some (name, 1 + name.length) :=
          Quoted.read_text hok (fun c hc => (ne_closer_of_isVarName hok c hc).1) rfl rest
        have hlen : n = 1 + name.length := by
          simp at hn
          omega
        rw [eitherRef, hlen]
        show (percentRef.read (percentRef.text name ++ rest)).orElse _ = _
        rw [hread]
        rfl
      | dollar h =>
        have hok := (isName_iff name).mp h
        have hread : dollarRef.read (dollarRef.text name ++ rest) = some (name, 2 + name.length) :=
          Quoted.read_text hok (fun c hc => (ne_closer_of_isVarName hok c hc).2) rfl rest
        have hpercent : percentRef.read (dollarRef.text name ++ rest) = none := read_eq_none_of_ne rfl
        have hlen : n = 2 + name.length := by
          simp at hn
          omega
        rw [eitherRef, hlen]
        show (percentRef.read (dollarRef.text name ++ rest)).orElse
          (fun _ => dollarRef.read (dollarRef.text name ++ rest)) = _
        rw [hpercent, hread]
        rfl

/-- Where no referenced variable is defined, nothing is substituted. -/
theorem flatMap_substitute_of_none {lookup : String → Option String} {ts : List (Token (List Char))}
    (h : ∀ name text, Token.ref name text ∈ ts → lookup (String.ofList name) = none) :
    ts.flatMap (Token.render (substitute lookup)) =
      ts.flatMap (Token.render fun _ text => text) := by
  refine List.flatMap_congr fun t ht => ?_
  cases t with
  | lit c => rfl
  | ref name text =>
    show substitute lookup name text = text
    rw [substitute, h name text ht]

/-- **`expand_env` is the reference scan.**  A text has one division into characters and references,
    the same for all variables; the loop runs to its end on it, within the text, and puts each
    variable's value in place of its references. -/
theorem expandEnv_eq_scan (input : String) : ∃ ts : List (Token (List Char)),
    (∀ other, Divides Reference input.toList other ↔ other = ts) ∧
    ∀ lookup : String → Option String,
      expandLoop lookup input.toList input.toList.length 0 [] =
        some (ts.flatMap (Token.render (substitute lookup))) ∧
      (expandEnv input lookup).toList = ts.flatMap (Token.render (substitute lookup)) ∧
      ((∀ name text, Token.ref name text ∈ ts → lookup (String.ofList name) = none) →
        expandEnv input lookup = input) := by
  refine ⟨tokens eitherRef input.toList, fun other => divides_iff eitherRef_decides, fun lookup => ?_⟩
  have hloop : expandLoop lookup input.toList input.toList.length 0 [] =
      some (replaceAll eitherRef (substitute lookup) input.toList) := by
    rw [expandLoop_eq lookup input.toList _ 0 [] (by omega), List.nil_append, List.drop_zero]
  have hscan := expandEnv_eq_replaceAll input lookup
  refine ⟨hloop, hscan, fun hnone => ?_⟩
  have htext := (divides_tokens eitherRef_decides input.toList).text_eq
  rw [← String.toList_inj, hscan, replaceAll, flatMap_substitute_of_none hnone, htext]

end McpLocator.Proto
