import McpLocator.Js.WellFormed

namespace McpLocator.Js

open Json

/-!
# Lower case

`String.prototype.toLowerCase` converts by the tables of the Unicode version that the engine has.

* `CaseTable` — what the conversion takes from them.
* `toLowerCase` — character by character, except that a sigma at the end of a word has a form of its
  own.
* `toLowerCase_prefix` — after a letter of ASCII the rest of the string does not matter.
* `exists_prefix_toLowerCase` — a beginning of the lower case that ends in such a letter is the
  lower case of a beginning.
-/

/-- `isCased` and `isCaseIgnorable` tell where a word ends.  The letters of ASCII that another
    character has in its lower case are the i of `İ` and the k of the Kelvin sign. -/
structure CaseTable where
  lower : Char → List Char
  isCased : Char → Bool
  isCaseIgnorable : Char → Bool
  lower_ne_nil : ∀ c : Char, lower c ≠ []
  lower_ascii : ∀ c : Char, c.toNat < 0x80 → lower c = [c.toLower]
  ascii_of_mem_lower : ∀ c d : Char, 0x80 ≤ c.toNat → d ∈ lower c → d.toNat < 0x80 →
    d = 'i' ∨ d = 'k'
  isCaseIgnorable_letter : ∀ c : Char, c.isAlpha = true → isCaseIgnorable c = false

namespace CaseTable

variable (table : CaseTable)

/-- There is a cased letter, with nothing before it but characters that do not count. -/
def casedAhead : List Point → Bool
  | .char c :: rest => table.isCased c || table.isCaseIgnorable c && casedAhead rest
  | _ => false

/-- One character.  `before` are the ones in front of it, the nearest first. -/
def lowerPoint (before : List Point) (p : Point) (after : List Point) : List Point :=
  match p with
  | .char 'Σ' =>
    if table.casedAhead before && !table.casedAhead after then [.char 'ς'] else [.char 'σ']
  | .char c => (table.lower c).map .char
  | p => [p]

def lowerFrom (before : List Point) : List Point → List Point
  | [] => []
  | p :: after => table.lowerPoint before p after ++ lowerFrom (p :: before) after

end CaseTable

def toLowerCase (table : CaseTable) (s : JsString) : JsString :=
  units (table.lowerFrom [] (points s))

/-! ### Letters of ASCII -/

theorem isUpper_iff {c : Char} : c.isUpper = true ↔ 65 ≤ c.toNat ∧ c.toNat ≤ 90 :=
  decide_eq_true_iff

theorem isLower_iff {c : Char} : c.isLower = true ↔ 97 ≤ c.toNat ∧ c.toNat ≤ 122 := by
  show (decide (97 ≤ c.toNat) && decide (c.toNat ≤ 122)) = true ↔ _
  rw [Bool.and_eq_true, decide_eq_true_iff, decide_eq_true_iff]

theorem isAlpha_iff {c : Char} : c.isAlpha = true ↔ c.isUpper = true ∨ c.isLower = true :=
  Bool.or_eq_true _ _ ▸ Iff.rfl

theorem toNat_lt_of_isAlpha {c : Char} (hc : c.isAlpha = true) : c.toNat < 0x80 := by
  rw [isAlpha_iff, isUpper_iff, isLower_iff] at hc
  omega

/-- Only capitals have another lower case. -/
theorem toLower_eq {c : Char} (h : ¬c.isUpper = true) : c.toLower = c := dif_neg (isUpper_iff.not.mp h)

theorem toLower_of_isLower {c : Char} (h : c.isLower = true) : c.toLower = c := by
  apply toLower_eq
  rw [isUpper_iff]
  rw [isLower_iff] at h
  omega

theorem isAlpha_of_toLower {c : Char} (h : c.toLower.isLower = true) : c.isAlpha = true := by
  by_cases hupper : c.isUpper = true
  · exact isAlpha_iff.mpr (.inl hupper)
  · rw [toLower_eq hupper] at h
    exact isAlpha_iff.mpr (.inr h)

theorem toNat_lt_of_toLower {c : Char} (h : c.toLower.toNat < 0x80) : c.toNat < 0x80 := by
  by_cases hupper : c.isUpper = true
  · exact toNat_lt_of_isAlpha (isAlpha_iff.mpr (.inl hupper))
  · rwa [toLower_eq hupper] at h

/-- A table of the letters of ASCII only. -/
def asciiTable : CaseTable where
  lower c := [c.toLower]
  isCased := Char.isAlpha
  isCaseIgnorable _ := false
  lower_ne_nil _ := List.cons_ne_nil _ _
  lower_ascii _ _ := rfl
  ascii_of_mem_lower c d := by
    intro hc hd hlt
    rw [List.mem_singleton.mp hd] at hlt
    have := toNat_lt_of_toLower hlt
    omega
  isCaseIgnorable_letter _ _ := rfl

example : toLowerCase asciiTable (ofString "C:\\Program Files") = ofString "c:\\program files" := by
  decide

/-! ### After a letter -/

section Letter

variable {table : CaseTable} {c : Char} (hc : c.isAlpha = true)

include hc

theorem casedAhead_letter (xs rest : List Point) :
    table.casedAhead (xs ++ .char c :: rest) = table.casedAhead (xs ++ [.char c]) := by
  induction xs with
  | nil => simp [CaseTable.casedAhead, table.isCaseIgnorable_letter c hc]
  | cons x xs ih =>
    cases x with
    | char d => simp only [List.cons_append, CaseTable.casedAhead, ih]
    | high | low => rfl

/-- Only a sigma looks at what surrounds it. -/
theorem lowerPoint_letter (before after : List Point) :
    table.lowerPoint before (.char c) after = (table.lower c).map .char := by
  unfold CaseTable.lowerPoint
  split
  · rename_i heq
    cases heq
    exact absurd hc (by decide)
  · rename_i heq
    cases heq
    rfl
  · rename_i hne
    exact absurd rfl (hne c)

/-- What stands before a letter does not see what is after it. -/
theorem lowerPoint_ahead (before : List Point) (x : Point) (xs rest : List Point) :
    table.lowerPoint before x (xs ++ [.char c]) =
      table.lowerPoint before x (xs ++ .char c :: rest) := by
  unfold CaseTable.lowerPoint
  rw [casedAhead_letter hc xs rest]

theorem lowerFrom_letter (before xs rest : List Point) :
    table.lowerFrom before (xs ++ .char c :: rest) = table.lowerFrom before (xs ++ [.char c]) ++
      table.lowerFrom (.char c :: (xs.reverse ++ before)) rest := by
  induction xs generalizing before with
  | nil =>
    simp only [List.nil_append, CaseTable.lowerFrom, lowerPoint_letter hc, List.append_nil,
      List.reverse_nil]
  | cons x xs ih =>
    simp only [List.cons_append, CaseTable.lowerFrom, lowerPoint_ahead hc before x xs rest, ih,
      List.reverse_cons, List.append_assoc, List.nil_append]

theorem points_append_letter (s rest : JsString) :
    points (s ++ unit c :: rest) = points s ++ .char c :: points rest := by
  have hlt := toNat_lt_of_isAlpha hc
  have hunit : (unit c).toNat = c.toNat := unit_toNat (by omega)
  have hhigh : isHigh (unit c) = false := by
    simp only [isHigh, hunit, Bool.and_eq_false_iff, decide_eq_false_iff_not]
    omega
  have hlow : isLow (unit c) = false := by
    simp only [isLow, hunit, Bool.and_eq_false_iff, decide_eq_false_iff_not]
    omega
  have hpoint : Point.ofUnit (unit c).toNat = .char c := by
    rw [ofUnit_of_scalar hhigh hlow, hunit, Char.ofNat_toNat]
  fun_induction points s with
  | case1 => rw [List.nil_append, points_cons hhigh, hpoint, List.nil_append]
  | case2 u =>
    show points (u :: unit c :: rest) = Point.ofUnit u.toNat :: .char c :: points rest
    rw [points]
    split
    · rename_i hl
      rw [hpoint] at hl
      cases hl
    · rw [points_cons hhigh, hpoint]
  | case3 u v s i j hv hu ih =>
    rw [List.cons_append, List.cons_append, points, hu, hv, ih]
    rfl
  | case4 u v s hne ih =>
    show points (u :: v :: (s ++ unit c :: rest)) = _
    rw [points]
    split
    · rename_i hu hv
      exact absurd hv (hne _ _ hu)
    · exact congrArg (Point.ofUnit u.toNat :: ·) ih

/-- **The rest of a string does not change the lower case of what a letter ends.** -/
theorem toLowerCase_prefix (s rest : JsString) :
    toLowerCase table (s ++ [unit c]) <+: toLowerCase table (s ++ unit c :: rest) := by
  have hnil : points (s ++ [unit c]) = points s ++ [.char c] := points_append_letter hc s []
  rw [toLowerCase, toLowerCase, hnil, points_append_letter hc s rest,
    lowerFrom_letter hc [] (points s) (points rest), units, units, List.flatMap_append]
  exact List.prefix_append _ _

end Letter

/-! ### Back from the lower case -/

section Back

variable {table : CaseTable} {l : Char}

theorem units_map_char (cs : List Char) : units (cs.map .char) = ofChars cs := by
  rw [← points_ofChars, units_points]

theorem units_char {c : Char} (hc : c.toNat < 0x10000) : units [.char c] = [unit c] := by
  rw [units, List.flatMap_singleton, pointUnits, ofChars_singleton, utf16Char, if_pos hc]
  rfl

/-- A letter of the lower case, other than i and k, is one that was there. -/
theorem exists_of_mem_lowerPoint (hl : l.isLower = true) (hik : l ≠ 'i' ∧ l ≠ 'k')
    {before after : List Point} {p : Point}
    (h : unit l ∈ units (table.lowerPoint before p after)) :
    ∃ c, p = .char c ∧ c.isAlpha = true ∧ c.toLower = l := by
  have hlt : l.toNat < 0x80 := toNat_lt_of_isAlpha (isAlpha_iff.mpr (.inr hl))
  have hunit : (unit l).toNat = l.toNat := unit_toNat (by omega)
  have hmem : ∀ cs : List Char, unit l ∈ units (cs.map .char) → l ∈ cs := fun cs h =>
    (unit_mem_ofChars (by omega)).mp (by rwa [units_map_char] at h)
  unfold CaseTable.lowerPoint at h
  split at h
  · -- a sigma
    exfalso
    split at h
    · have := List.mem_singleton.mp (hmem ['ς'] h)
      subst this
      exact absurd hlt (by decide)
    · have := List.mem_singleton.mp (hmem ['σ'] h)
      subst this
      exact absurd hlt (by decide)
  · rename_i c _
    have hc := hmem _ h
    have hascii : c.toNat < 0x80 := by
      by_contra hge
      rcases table.ascii_of_mem_lower c l (by omega) hc hlt with hi | hk
      · exact hik.1 hi
      · exact hik.2 hk
    rw [table.lower_ascii c hascii, List.mem_singleton] at hc
    exact ⟨c, rfl, isAlpha_of_toLower (hc ▸ hl), hc.symm⟩
  · -- a surrogate
    rename_i hne
    exfalso
    rw [units, List.flatMap_singleton] at h
    cases p with
    | char c => exact hne c rfl
    | high i | low i =>
      have := congrArg UInt16.toNat (List.mem_singleton.mp h)
      rw [hunit, UInt16.toNat_ofNat_of_lt' (by show _ < 65536; omega)] at this
      omega

/-- Such a letter is all that it is converted to. -/
theorem units_lowerPoint (hl : l.isLower = true) {c : Char} (hc : c.isAlpha = true)
    (hlower : c.toLower = l) (before after : List Point) :
    units (table.lowerPoint before (.char c) after) = [unit l] := by
  have hlt : l.toNat < 0x80 := toNat_lt_of_isAlpha (isAlpha_iff.mpr (.inr hl))
  rw [lowerPoint_letter hc, table.lower_ascii c (toNat_lt_of_isAlpha hc), hlower]
  exact units_char (by omega)

theorem units_append (xs ys : List Point) : units (xs ++ ys) = units xs ++ units ys :=
  List.flatMap_append

/-- The letter is after the first character. -/
theorem exists_letter_cons {x y : JsString}
    {before ps : List Point} {p : Point}
    (ih : ∀ {x : JsString} {before : List Point},
      units (table.lowerFrom before ps) = x ++ unit l :: y → ∃ qs c rest,
        ps = qs ++ .char c :: rest ∧ c.isAlpha = true ∧
        units (table.lowerFrom before (qs ++ [.char c])) = x ++ [unit l])
    (h : units (table.lowerFrom (p :: before) ps) = x ++ unit l :: y) : ∃ qs c rest,
      p :: ps = qs ++ .char c :: rest ∧ c.isAlpha = true ∧
      units (table.lowerFrom before (qs ++ [.char c])) =
        units (table.lowerPoint before p ps) ++ x ++ [unit l] := by
  obtain ⟨qs, c, rest, rfl, hc, hunits⟩ := ih h
  refine ⟨p :: qs, c, rest, rfl, hc, ?_⟩
  rw [List.cons_append, CaseTable.lowerFrom, units_append, lowerPoint_ahead hc before p qs rest,
    hunits, List.append_assoc]

theorem exists_letter (hl : l.isLower = true) (hik : l ≠ 'i' ∧ l ≠ 'k') {x y : JsString}
    {before ps : List Point} (h : units (table.lowerFrom before ps) = x ++ unit l :: y) :
    ∃ qs c rest, ps = qs ++ .char c :: rest ∧ c.isAlpha = true ∧
      units (table.lowerFrom before (qs ++ [.char c])) = x ++ [unit l] := by
  induction ps generalizing before x with
  | nil => simp [CaseTable.lowerFrom, units] at h
  | cons p ps ih =>
    rw [CaseTable.lowerFrom, units_append] at h
    rcases List.append_eq_append_iff.mp h with ⟨x', rfl, hrest⟩ | ⟨z, hpoint, hz⟩
    · exact exists_letter_cons ih hrest
    -- the letter is the first character, or right after it
    cases z with
    | nil =>
      rw [List.append_nil] at hpoint
      rw [← hpoint, ← List.append_nil (units _)]
      exact exists_letter_cons ih hz.symm
    | cons u z =>
      obtain ⟨rfl, -⟩ := List.cons.inj hz
      obtain ⟨c, rfl, hc, hlower⟩ := exists_of_mem_lowerPoint hl hik (p := p) (by
        rw [hpoint]
        exact List.mem_append_right _ List.mem_cons_self)
      rw [units_lowerPoint hl hc hlower] at hpoint
      have hx : x = [] := by
        cases x with
        | nil => rfl
        | cons a x => simp at hpoint
      refine ⟨[], c, ps, rfl, hc, ?_⟩
      rw [hx, List.nil_append, List.nil_append, CaseTable.lowerFrom, units_append,
        units_lowerPoint hl hc hlower]
      rfl

theorem units_cons_ne_nil (p : Point) (ps : List Point) : units (p :: ps) ≠ [] := by
  have hp : pointUnits p ≠ [] := by
    cases p with
    | char c =>
      rw [pointUnits, ofChars_singleton]
      exact fun h => utf16Char_ne_nil c (List.map_eq_nil_iff.mp h)
    | high i | low i => exact List.cons_ne_nil _ _
  rw [units, List.flatMap_cons]
  exact List.append_ne_nil_of_left_ne_nil hp _

/-- The literal of a beginning of a string, if no pair is cut. -/
theorem points_units_of_append {s : JsString} {qs rest : List Point}
    (h : points s = qs ++ rest) : points (units qs) = qs := by
  fun_induction points s generalizing qs with
  | case1 =>
    cases qs with
    | nil => rfl
    | cons q qs => cases h
  | case2 u =>
    cases qs with
    | nil => rfl
    | cons q qs =>
      obtain ⟨rfl, hqs⟩ := List.cons.inj h
      obtain ⟨rfl, -⟩ := List.append_eq_nil_iff.mp hqs.symm
      rw [units, List.flatMap_singleton, pointUnits_ofUnit, points]
  | case3 u v s i j hv hu ih =>
    cases qs with
    | nil => rfl
    | cons q qs =>
      obtain ⟨rfl, hqs⟩ := List.cons.inj h
      have hu' := hu ▸ pointUnits_ofUnit u
      have hv' := hv ▸ pointUnits_ofUnit v
      rw [units, List.flatMap_cons, pointUnits_pair, hu', hv']
      show points (u :: v :: units qs) = _
      rw [points, hu, hv, ih hqs]
  | case4 u v s hne ih =>
    cases qs with
    | nil => rfl
    | cons q qs =>
      obtain ⟨rfl, hqs⟩ := List.cons.inj h
      have htail := ih hqs
      rw [units, List.flatMap_cons, pointUnits_ofUnit]
      show points (u :: units qs) = _
      cases qs with
      | nil => rfl
      | cons q qs =>
        -- the unit after `u` is still `v`
        have hunits : v :: s = units (q :: qs) ++ units rest := by
          rw [← units_points (v :: s), hqs]
          exact units_append (q :: qs) rest
        obtain ⟨w, t, hw⟩ := List.exists_cons_of_ne_nil (units_cons_ne_nil q qs)
        rw [hw] at hunits htail ⊢
        obtain ⟨rfl, -⟩ := List.cons.inj hunits
        rw [points]
        split
        · rename_i hu hv
          exact absurd hv (hne _ _ hu)
        · rw [htail]

theorem lowerPoint_ne_nil (before : List Point) (p : Point) (after : List Point) :
    table.lowerPoint before p after ≠ [] := by
  unfold CaseTable.lowerPoint
  split
  · split <;> exact List.cons_ne_nil _ _
  · exact fun h => table.lower_ne_nil _ (List.map_eq_nil_iff.mp h)
  · exact List.cons_ne_nil _ _

/-- A small letter is still there. -/
theorem exists_toLowerCase_concat (hl : l.isLower = true) (s : JsString) :
    ∃ x, toLowerCase table (s ++ [unit l]) = x ++ [unit l] := by
  have hc := isAlpha_iff.mpr (.inr hl)
  have hlower := toLower_of_isLower hl
  have key : ∀ before ps, ∃ x, units (table.lowerFrom before (ps ++ [.char l])) = x ++ [unit l] := by
    intro before ps
    induction ps generalizing before with
    | nil =>
      rw [List.nil_append, CaseTable.lowerFrom, units_append, units_lowerPoint hl hc hlower]
      exact ⟨[], rfl⟩
    | cons p ps ih =>
      obtain ⟨x, hx⟩ := ih (p :: before)
      rw [List.cons_append, CaseTable.lowerFrom, units_append, hx, ← List.append_assoc]
      exact ⟨_, rfl⟩
  have hpoints : points (s ++ [unit l]) = points s ++ [.char l] := points_append_letter hc s []
  rw [toLowerCase, hpoints]
  exact key [] (points s)

/-- **Back to a beginning of the string.** -/
theorem exists_prefix_toLowerCase (hl : l.isLower = true) (hik : l ≠ 'i' ∧ l ≠ 'k')
    {s x y : JsString} (h : toLowerCase table s = x ++ unit l :: y) :
    ∃ start rest, s = start ++ rest ∧ toLowerCase table start = x ++ [unit l] := by
  obtain ⟨qs, c, rest, hpoints, hc, hunits⟩ := exists_letter hl hik h
  refine ⟨units (qs ++ [.char c]), units rest, ?_, ?_⟩
  · rw [← units_append, List.append_assoc, List.singleton_append, ← hpoints, units_points]
  · have hstart : points s = (qs ++ [.char c]) ++ rest := by
      rw [hpoints, List.append_assoc]
      rfl
    rw [toLowerCase, points_units_of_append hstart, hunits]

/-- What has this lower case ends in the letter. -/
theorem toLowerCase_append (hl : l.isLower = true) (hik : l ≠ 'i' ∧ l ≠ 'k') {s x : JsString}
    (h : toLowerCase table s = x ++ [unit l]) (rest : JsString) :
    toLowerCase table s <+: toLowerCase table (s ++ rest) := by
  obtain ⟨qs, c, after, hpoints, hc, hunits⟩ := exists_letter hl hik h
  have hafter : after = [] := by
    rw [toLowerCase, hpoints, lowerFrom_letter hc, units_append, hunits] at h
    cases after with
    | nil => rfl
    | cons p after =>
      rw [CaseTable.lowerFrom] at h
      obtain ⟨q, qs, hq⟩ := List.exists_cons_of_ne_nil
        (@lowerPoint_ne_nil table (.char c :: (qs.reverse ++ [])) p after)
      rw [hq] at h
      exact absurd (List.append_right_eq_self.mp h) (units_cons_ne_nil q _)
  have hs : s = units qs ++ [unit c] := by
    have hlt := toNat_lt_of_isAlpha hc
    rw [← units_points s, hpoints, hafter, units_append, units_char (by omega)]
  rw [hs, List.append_assoc]
  exact toLowerCase_prefix hc _ _

end Back

end McpLocator.Js
