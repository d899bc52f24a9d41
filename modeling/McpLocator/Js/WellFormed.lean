import McpLocator.Js.Json
import McpLocator.Json.FromStr

namespace McpLocator.Js

open Json

/-!
# Strings that are texts

* `isWellFormed` — `String.prototype.isWellFormed`: no surrogate is unpaired.
* `textOf_points` — such a string is what the other side reads of its literal; `points_ofChars` and
  `textOf_points_eq_some` say which text it is.
-/

def isHigh (u : UInt16) : Bool := 0xD800 ≤ u.toNat && u.toNat < 0xDC00

def isLow (u : UInt16) : Bool := 0xDC00 ≤ u.toNat && u.toNat < 0xE000

def isWellFormed : JsString → Bool
  | [] => true
  | [u] => !isHigh u && !isLow u
  | u :: v :: s =>
    if isHigh u then isLow v && isWellFormed s else !isLow u && isWellFormed (v :: s)

theorem ofUnit_of_isHigh {u : UInt16} (h : isHigh u = true) :
    ∃ i, Point.ofUnit u.toNat = .high i := by
  simp only [isHigh, Bool.and_eq_true, decide_eq_true_eq] at h
  exact ⟨_, if_pos h⟩

theorem ofUnit_of_isLow {u : UInt16} (h : isLow u = true) : ∃ i, Point.ofUnit u.toNat = .low i := by
  simp only [isLow, Bool.and_eq_true, decide_eq_true_eq] at h
  exact ⟨_, (if_neg (by omega)).trans (if_pos h)⟩

theorem ofUnit_of_scalar {u : UInt16} (h : isHigh u = false) (h' : isLow u = false) :
    Point.ofUnit u.toNat = .char (Char.ofNat u.toNat) := by
  simp only [isHigh, isLow, Bool.and_eq_false_iff, decide_eq_false_iff_not] at h h'
  exact (if_neg (by omega)).trans (if_neg (by omega))

/-- A unit that starts no pair is a character of its own. -/
theorem points_cons {u : UInt16} (h : isHigh u = false) (s : JsString) :
    points (u :: s) = Point.ofUnit u.toNat :: points s := by
  cases s with
  | nil => rfl
  | cons v s =>
    rw [points]
    split
    · rename_i hi _
      cases hl : isLow u with
      | true =>
        obtain ⟨j, hj⟩ := ofUnit_of_isLow hl
        exact absurd (hj.symm.trans hi) (by simp)
      | false => exact absurd ((ofUnit_of_scalar h hl).symm.trans hi) (by simp)
    · rfl

theorem points_ne_low {v : UInt16} (h : isLow v = false) (s : JsString) (j : Fin 1024)
    (t : List Point) : points (v :: s) ≠ .low j :: t := by
  have hhead : Point.ofUnit v.toNat ≠ .low j := by
    cases hh : isHigh v with
    | true =>
      obtain ⟨i, hi⟩ := ofUnit_of_isHigh hh
      rw [hi]
      simp
    | false =>
      rw [ofUnit_of_scalar hh h]
      simp
  cases s with
  | nil => exact fun heq => hhead (List.cons.inj heq).1
  | cons w s =>
    rw [points]
    split
    · simp
    · exact fun heq => hhead (List.cons.inj heq).1

theorem textOf_high {i : Fin 1024} {s : List Point} (h : ∀ j t, s ≠ .low j :: t) :
    textOf (.high i :: s) = none := by
  cases s with
  | nil => rfl
  | cons p t =>
    cases p with
    | low j => exact absurd rfl (h j t)
    | char | high => rfl

/-- **A string is read from its literal exactly if it is well formed.** -/
theorem textOf_points (s : JsString) : (textOf (points s)).isSome = isWellFormed s := by
  fun_induction isWellFormed s with
  | case1 => rfl
  | case2 u =>
    rw [points]
    cases hh : isHigh u with
    | true =>
      obtain ⟨i, hi⟩ := ofUnit_of_isHigh hh
      rw [hi]
      rfl
    | false =>
      cases hl : isLow u with
      | true =>
        obtain ⟨i, hi⟩ := ofUnit_of_isLow hl
        rw [hi]
        rfl
      | false =>
        rw [ofUnit_of_scalar hh hl]
        rfl
  | case3 u v s hu ih =>
    obtain ⟨i, hi⟩ := ofUnit_of_isHigh hu
    cases hv : isLow v with
    | true =>
      obtain ⟨j, hj⟩ := ofUnit_of_isLow hv
      rw [points, hi, hj, textOf, Option.isSome_map, ih, Bool.true_and]
    | false =>
      have hpoints : points (u :: v :: s) = .high i :: points (v :: s) := by
        rw [points, hi]
        split
        · rename_i j _ hj
          exact absurd (congrArg (· :: []) hj) (points_ne_low hv [] j [])
        · rfl
      rw [hpoints, textOf_high (points_ne_low hv s)]
      rfl
  | case4 u v s hu ih =>
    have hh : isHigh u = false := by simpa using hu
    cases hl : isLow u with
    | true =>
      obtain ⟨i, hi⟩ := ofUnit_of_isLow hl
      rw [points_cons hh, hi]
      rfl
    | false =>
      rw [points_cons hh, ofUnit_of_scalar hh hl, textOf, Option.isSome_map, ih]
      rfl

/-! ### Texts -/

/-- Reading a literal and keeping its code units agree. -/
theorem units_of_textOf {s : List Point} {cs : List Char} (h : textOf s = some cs) :
    units s = ofChars cs := by
  fun_induction textOf s generalizing cs with
  | case1 =>
    cases h
    rfl
  | case2 c s ih =>
    obtain ⟨ds, hds, rfl⟩ := Option.map_eq_some_iff.mp h
    rw [units, List.flatMap_cons, ofChars_cons]
    exact congrArg₂ _ (ofChars_singleton c) (ih hds)
  | case3 i j s ih =>
    obtain ⟨ds, hds, rfl⟩ := Option.map_eq_some_iff.mp h
    have hpair : units (.high i :: .low j :: s) = pointUnits (.char (pair i j)) ++ units s := by
      rw [pointUnits_pair, List.append_assoc]
      rfl
    rw [hpair, ofChars_cons]
    exact congrArg₂ _ (ofChars_singleton _) (ih hds)
  | case4 => exact absurd h (by simp)

theorem units_pointsOf (s : String) : units (pointsOf s) = ofString s :=
  units_of_textOf (textOf_pointsOf s)

/-- A string whose literal is read is the string of that text. -/
theorem eq_ofChars_of_textOf {s : JsString} {cs : List Char} (h : textOf (points s) = some cs) :
    s = ofChars cs := by
  rw [← units_of_textOf h, units_points]

/-- The units of a character, and the character of the units. -/
theorem points_append_char (c : Char) (s : JsString) :
    points ((utf16Char c).map UInt16.ofNat ++ s) = .char c :: points s := by
  have hvalid : c.toNat < 0xD800 ∨ 0xDFFF < c.toNat ∧ c.toNat < 0x110000 := c.valid
  rw [utf16Char]
  split
  · rename_i hbmp
    have hu : (UInt16.ofNat c.toNat).toNat = c.toNat := UInt16.toNat_ofNat_of_lt' hbmp
    have hhigh : isHigh (UInt16.ofNat c.toNat) = false := by
      simp only [isHigh, hu, Bool.and_eq_false_iff, decide_eq_false_iff_not]
      omega
    have hlow : isLow (UInt16.ofNat c.toNat) = false := by
      simp only [isLow, hu, Bool.and_eq_false_iff, decide_eq_false_iff_not]
      omega
    show points (UInt16.ofNat c.toNat :: s) = _
    rw [points_cons hhigh, ofUnit_of_scalar hhigh hlow, hu, Char.ofNat_toNat]
  · rename_i hastral
    have hhigh : (UInt16.ofNat (0xD800 + (c.toNat - 0x10000) / 0x400)).toNat =
        0xD800 + (c.toNat - 0x10000) / 0x400 :=
      UInt16.toNat_ofNat_of_lt' (by show _ < 65536; omega)
    have hlow : (UInt16.ofNat (0xDC00 + (c.toNat - 0x10000) % 0x400)).toNat =
        0xDC00 + (c.toNat - 0x10000) % 0x400 :=
      UInt16.toNat_ofNat_of_lt' (by show _ < 65536; omega)
    have hi : Point.ofUnit (0xD800 + (c.toNat - 0x10000) / 0x400) =
        .high (Fin.ofNat 1024 (0xD800 + (c.toNat - 0x10000) / 0x400)) := if_pos (by omega)
    have hj : Point.ofUnit (0xDC00 + (c.toNat - 0x10000) % 0x400) =
        .low (Fin.ofNat 1024 (0xDC00 + (c.toNat - 0x10000) % 0x400)) :=
      (if_neg (by omega)).trans (if_pos (by omega))
    show points (UInt16.ofNat _ :: UInt16.ofNat _ :: s) = _
    rw [points, hhigh, hlow, hi, hj]
    show Point.char (pair _ _) :: points s = _
    -- the two halves give the code point back
    have hpair : pair (Fin.ofNat 1024 (0xD800 + (c.toNat - 0x10000) / 0x400))
        (Fin.ofNat 1024 (0xDC00 + (c.toNat - 0x10000) % 0x400)) = c := by
      rw [pair, Fin.val_ofNat, Fin.val_ofNat, show 0x10000 +
        1024 * ((0xD800 + (c.toNat - 0x10000) / 0x400) % 1024) +
        (0xDC00 + (c.toNat - 0x10000) % 0x400) % 1024 = c.toNat by omega, Char.ofNat_toNat]
    rw [hpair]

/-- **The literal of a text.** -/
theorem points_ofChars (cs : List Char) : points (ofChars cs) = cs.map .char := by
  induction cs with
  | nil => rfl
  | cons c cs ih => rw [ofChars_cons, points_append_char, ih, List.map_cons]

theorem points_ofString (s : String) : points (ofString s) = pointsOf s := points_ofChars s.toList

end McpLocator.Js
