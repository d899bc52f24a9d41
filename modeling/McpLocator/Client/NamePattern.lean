import McpLocator.Json.Schema
import McpLocator.Proto.Card

namespace McpLocator.Client

open McpLocator.Json McpLocator.Proto
open Computability

/-!
# The name pattern

The published schema constrains a server name by a regular expression and a length limit, the
broker by a hand-written loop over the dot-separated labels.  `namePattern_iff` is that the two
accept the same names.

* `namePattern` — the pattern `label(\.label){1,}`, where a label starts and ends with a
  letter or digit and has hyphens in between.
* `mem_labelPattern`, `mem_namePattern` — the languages of a label and of a whole name.
-/

/-! ### The pattern -/

/-- The characters from `lo` to `hi`. -/
def charRange (lo hi : Char) : List Char :=
  (List.range (hi.toNat + 1 - lo.toNat)).map fun i => Char.ofNat (lo.toNat + i)

/-- `[…]`: one character out of a list. -/
def oneOf : List Char → RegularExpression Char
  | [] => 0
  | c :: cs => .char c + oneOf cs

/-- `a-z0-9`. -/
def alphanumerics : List Char := charRange 'a' 'z' ++ charRange '0' '9'

/-- `[a-z0-9]([a-z0-9-]*[a-z0-9])?`. -/
def labelPattern : RegularExpression Char :=
  oneOf alphanumerics * ((oneOf (alphanumerics ++ ['-'])).star * oneOf alphanumerics + 1)

/-- `^label(\.label){1,}$`. -/
def namePattern : RegularExpression Char :=
  labelPattern * ((.char '.' * labelPattern) * (.char '.' * labelPattern).star)

/-! ### Character classes -/

theorem mem_charRange {lo hi : Char} (h : hi.toNat < 0xD800) (c : Char) :
    c ∈ charRange lo hi ↔ lo ≤ c ∧ c ≤ hi := by
  have hle : ∀ a b : Char, a ≤ b ↔ a.toNat ≤ b.toNat := fun _ _ => Iff.rfl
  rw [charRange, List.mem_map, hle, hle]
  constructor
  · rintro ⟨i, hi', rfl⟩
    rw [List.mem_range] at hi'
    have hvalid : (lo.toNat + i).isValidChar := .inl (by omega)
    have hnat : (Char.ofNat (lo.toNat + i)).toNat = lo.toNat + i := by
      rw [Char.ofNat, dif_pos hvalid]
      rfl
    omega
  · rintro ⟨hlo, hhi⟩
    refine ⟨c.toNat - lo.toNat, List.mem_range.mpr (by omega), ?_⟩
    rw [Nat.add_sub_cancel' hlo, Char.ofNat_toNat]

theorem mem_matches_oneOf (cs w : List Char) : w ∈ (oneOf cs).matches' ↔ ∃ c ∈ cs, w = [c] := by
  induction cs with
  | nil => simp [oneOf, Language.notMem_zero]
  | cons c cs ih =>
    have hchar : w ∈ (RegularExpression.char c).matches' ↔ w = [c] := Iff.rfl
    rw [oneOf, RegularExpression.matches'_add, Language.mem_add, ih, hchar]
    simp

theorem mem_matches_star_oneOf (cs w : List Char) :
    w ∈ (oneOf cs).star.matches' ↔ ∀ c ∈ w, c ∈ cs := by
  rw [RegularExpression.matches'_star, Language.mem_kstar]
  constructor
  · rintro ⟨parts, rfl, hparts⟩ c hc
    obtain ⟨part, hpart, hcp⟩ := List.mem_flatten.mp hc
    obtain ⟨d, hd, rfl⟩ := (mem_matches_oneOf cs part).mp (hparts part hpart)
    rwa [List.mem_singleton.mp hcp]
  · intro h
    refine ⟨w.map fun c => [c], ?_, fun part hpart => ?_⟩
    · rw [← List.flatMap_def, List.flatMap_singleton']
    · obtain ⟨c, hc, rfl⟩ := List.mem_map.mp hpart
      exact (mem_matches_oneOf cs _).mpr ⟨c, h c hc, rfl⟩

theorem mem_alphanumerics (c : Char) :
    c ∈ alphanumerics ↔ isLabelChar c = true ∧ c ≠ '-' := by
  rw [alphanumerics, List.mem_append, mem_charRange (by decide), mem_charRange (by decide)]
  by_cases h : c = '-'
  · subst h
    simp
  · simp [isLabelChar, h]

theorem mem_alphanumerics_or_hyphen (c : Char) :
    c ∈ alphanumerics ++ ['-'] ↔ isLabelChar c = true := by
  rw [List.mem_append, mem_alphanumerics, List.mem_singleton]
  by_cases h : c = '-'
  · subst h
    simp [isLabelChar]
  · simp [h]

/-! ### Labels -/

/-- The pattern's labels are the labels of `is_reverse_dns`. -/
theorem mem_labelPattern (w : List Char) : w ∈ labelPattern.matches' ↔ isLabel w = true := by
  rw [labelPattern, RegularExpression.matches'_mul, RegularExpression.matches'_add,
    RegularExpression.matches'_mul, Language.mem_mul]
  constructor
  · rintro ⟨a, ha, b, hb, rfl⟩
    obtain ⟨c, hc, rfl⟩ := (mem_matches_oneOf _ _).mp ha
    rw [mem_alphanumerics] at hc
    rcases (Language.mem_add _ _ _).mp hb with hb | hb
    · obtain ⟨m, hm, e, he, rfl⟩ := Language.mem_mul.mp hb
      obtain ⟨d, hd, rfl⟩ := (mem_matches_oneOf _ _).mp he
      rw [mem_alphanumerics] at hd
      rw [mem_matches_star_oneOf] at hm
      have hmid : ∀ x ∈ m, isLabelChar x = true := fun x hx =>
        (mem_alphanumerics_or_hyphen x).mp (hm x hx)
      simp [isLabel, hc, hd, List.getLast?_cons]
      exact hmid
    · -- the optional part is missing: a single alphanumeric
      obtain rfl : b = [] := hb
      simp [isLabel, hc]
  · intro h
    simp only [isLabel, Bool.and_eq_true, List.all_eq_true, bne_iff_ne, ne_eq] at h
    obtain ⟨⟨⟨hne, hall⟩, hfirst⟩, hlast⟩ := h
    cases w with
    | nil => simp at hne
    | cons c rest =>
      have hc : c ∈ alphanumerics :=
        (mem_alphanumerics c).mpr ⟨hall c List.mem_cons_self, by simpa using hfirst⟩
      -- the last character, if there is another one, is what the optional part ends in
      refine ⟨[c], (mem_matches_oneOf _ _).mpr ⟨c, hc, rfl⟩, rest, ?_, rfl⟩
      rcases List.eq_nil_or_concat rest with rfl | ⟨m, d, rfl⟩
      · exact (Language.mem_add _ _ _).mpr (.inr rfl)
      · refine (Language.mem_add _ _ _).mpr (.inl ?_)
        rw [List.concat_eq_append] at hall hlast ⊢
        have hd : d ∈ alphanumerics :=
          (mem_alphanumerics d).mpr ⟨hall d (by simp), by simpa [List.getLast?_cons] using hlast⟩
        refine Language.mem_mul.mpr ⟨m, ?_, [d], (mem_matches_oneOf _ _).mpr ⟨d, hd, rfl⟩, rfl⟩
        rw [mem_matches_star_oneOf]
        intro x hx
        exact (mem_alphanumerics_or_hyphen x).mpr (hall x (by simp [hx]))

theorem isLabelChar_of_isLabel {label : List Char} (h : isLabel label = true) {c : Char}
    (hc : c ∈ label) : isLabelChar c = true := by
  simp only [isLabel, Bool.and_eq_true, List.all_eq_true] at h
  exact h.1.1.2 c hc

/-- A label contains no dot. -/
theorem dot_notMem_of_isLabel {label : List Char} (h : isLabel label = true) : '.' ∉ label := by
  intro hdot
  have := isLabelChar_of_isLabel h hdot
  revert this
  decide

/-! ### Names -/

/-- A name in the pattern's language is two or more labels with dots in between. -/
theorem mem_namePattern (w : List Char) : w ∈ namePattern.matches' ↔
    ∃ first second : List Char, ∃ rest : List (List Char),
      (∀ label ∈ first :: second :: rest, isLabel label = true) ∧
        w = ['.'].intercalate (first :: second :: rest) := by
  -- the pattern puts the dot before a label, `intercalate` between two
  have hdotted : ∀ x : List Char, x ∈ (RegularExpression.char '.' * labelPattern).matches' ↔
      ∃ label, isLabel label = true ∧ x = '.' :: label := by
    intro x
    rw [RegularExpression.matches'_mul, Language.mem_mul]
    constructor
    · rintro ⟨a, ha, b, hb, rfl⟩
      obtain rfl : a = ['.'] := ha
      exact ⟨b, (mem_labelPattern b).mp hb, rfl⟩
    · rintro ⟨label, hl, rfl⟩
      exact ⟨['.'], rfl, label, (mem_labelPattern label).mpr hl, rfl⟩
  have htail : ∀ labels : List (List Char), ∀ first : List Char,
      ['.'].intercalate (first :: labels) = first ++ (labels.map ('.' :: ·)).flatten := by
    intro labels
    induction labels with
    | nil => intro first; simp [List.intercalate]
    | cons l ls ih =>
      intro first
      have := ih l
      simp only [List.intercalate, List.intersperse_cons_cons, List.flatten_cons,
        List.map_cons] at this ⊢
      rw [this]
      simp
  rw [namePattern, RegularExpression.matches'_mul, Language.mem_mul]
  constructor
  · rintro ⟨first, hfirst, more, hmore, rfl⟩
    rw [RegularExpression.matches'_mul, Language.mem_mul] at hmore
    obtain ⟨x, hx, y, hy, rfl⟩ := hmore
    obtain ⟨second, hsecond, rfl⟩ := (hdotted x).mp hx
    rw [RegularExpression.matches'_star, Language.mem_kstar] at hy
    obtain ⟨parts, rfl, hparts⟩ := hy
    -- every part that the star repeats is a dot and a label
    have hrest : ∃ rest : List (List Char), (∀ label ∈ rest, isLabel label = true) ∧
        parts = rest.map ('.' :: ·) := by
      induction parts with
      | nil => exact ⟨[], by simp, rfl⟩
      | cons p ps ih =>
        obtain ⟨label, hl, rfl⟩ := (hdotted p).mp (hparts p List.mem_cons_self)
        obtain ⟨rest, hr, rfl⟩ := ih fun q hq => hparts q (List.mem_cons_of_mem _ hq)
        exact ⟨label :: rest, by simpa [hl] using hr, rfl⟩
    obtain ⟨rest, hr, rfl⟩ := hrest
    refine ⟨first, second, rest, ?_, ?_⟩
    · simpa [(mem_labelPattern first).mp hfirst, hsecond] using hr
    · rw [htail]
      simp
  · rintro ⟨first, second, rest, hall, rfl⟩
    simp only [List.mem_cons, forall_eq_or_imp] at hall
    obtain ⟨hfirst, hsecond, hrest⟩ := hall
    refine ⟨first, (mem_labelPattern first).mpr hfirst,
      ('.' :: second) ++ (rest.map ('.' :: ·)).flatten, ?_, by rw [htail]; simp⟩
    rw [RegularExpression.matches'_mul, Language.mem_mul]
    refine ⟨_, (hdotted _).mpr ⟨second, hsecond, rfl⟩, _, ?_, rfl⟩
    rw [RegularExpression.matches'_star, Language.mem_kstar]
    refine ⟨rest.map ('.' :: ·), rfl, fun p hp => ?_⟩
    obtain ⟨label, hl, rfl⟩ := List.mem_map.mp hp
    exact (hdotted _).mpr ⟨label, hrest label hl, rfl⟩

/-- A string of ASCII characters has as many bytes as characters. -/
theorem utf8ByteSize_eq_length {s : String} (h : ∀ c ∈ s.toList, c.val ≤ 127) :
    s.utf8ByteSize = s.length := by
  have key : ∀ cs : List Char, (∀ c ∈ cs, c.val ≤ 127) → String.utf8Len cs = cs.length := by
    intro cs
    induction cs with
    | nil => simp
    | cons c cs ih =>
      intro hcs
      rw [String.utf8Len_cons, ih fun d hd => hcs d (List.mem_cons_of_mem _ hd),
        Char.utf8Size_eq_one_iff.mpr (hcs c List.mem_cons_self)]
      rfl
  have := key s.toList h
  rwa [← String.utf8ByteSize_ofList, String.ofList_toList, String.length_toList] at this

theorem isLabelChar_ascii {c : Char} (h : isLabelChar c = true) : c.val ≤ 127 := by
  have hle : ∀ a b : Char, a ≤ b ↔ a.val ≤ b.val := fun _ _ => Iff.rfl
  simp only [isLabelChar, Bool.or_eq_true, Bool.and_eq_true, decide_eq_true_eq, beq_iff_eq,
    hle] at h
  rcases h with (⟨-, h⟩ | ⟨-, h⟩) | rfl
  · exact UInt32.le_trans h (by decide)
  · exact UInt32.le_trans h (by decide)
  · decide

/-- Every character of dotted labels is ASCII. -/
theorem ascii_of_labels {labels : List (List Char)}
    (h : ∀ label ∈ labels, isLabel label = true) :
    ∀ c ∈ ['.'].intercalate labels, c.val ≤ 127 := by
  induction labels with
  | nil => simp
  | cons l ls ih =>
    have hl : ∀ c ∈ l, c.val ≤ 127 := fun c hc =>
      isLabelChar_ascii (isLabelChar_of_isLabel (h l List.mem_cons_self) hc)
    have hdot : '.'.val ≤ 127 := by decide
    have ih := ih fun label hm => h label (List.mem_cons_of_mem _ hm)
    match ls with
    | [] => simpa using hl
    | l' :: ls =>
      intro c hc
      rw [List.intercalate_cons_cons, List.mem_append, List.mem_append,
        List.mem_singleton] at hc
      rcases hc with (hc | rfl) | hc
      · exact hl c hc
      · exact hdot
      · exact ih c hc

/-- **Both sides accept the same names.** -/
theorem namePattern_iff (s : String) :
    namePattern.rmatch s.toList = true ∧ s.length ≤ 200 ↔ isReverseDns s = true := by
  rw [RegularExpression.rmatch_iff_matches', mem_namePattern]
  have hsplit : ∀ labels : List (List Char), labels ≠ [] →
      (∀ label ∈ labels, isLabel label = true) → (['.'].intercalate labels).splitOn '.' = labels :=
    fun labels hne hall => List.splitOn_intercalate '.'
      (fun l hl => dot_notMem_of_isLabel (hall l hl)) hne
  constructor
  · rintro ⟨⟨first, second, rest, hall, hs⟩, hlen⟩
    -- characters and bytes are counted alike on ASCII, and every label is ASCII
    have hascii := ascii_of_labels hall
    rw [← hs] at hascii
    have hparts := hsplit _ (by simp) hall
    rw [← hs] at hparts
    simp only [isReverseDns, hparts, utf8ByteSize_eq_length hascii]
    rw [if_neg (by simp; omega), List.all_eq_true]
    exact hall
  · intro h
    unfold isReverseDns at h
    dsimp only at h
    split at h
    · simp at h
    · rename_i hsize
      rw [List.all_eq_true] at h
      have hs : s.toList = ['.'].intercalate (s.toList.splitOn '.') :=
        (List.intercalate_splitOn '.').symm
      have hascii := ascii_of_labels h
      rw [← hs] at hascii
      simp only [Bool.or_eq_true, decide_eq_true_eq, not_or, not_lt,
        utf8ByteSize_eq_length hascii] at hsize
      obtain ⟨htwo, hlen⟩ := hsize
      refine ⟨?_, hlen⟩
      match hl : s.toList.splitOn '.' with
      | [] => simp [hl] at htwo
      | [_] => simp [hl] at htwo
      | first :: second :: rest =>
        rw [hl] at h hs
        exact ⟨first, second, rest, h, hs⟩

/-- **The two definitions of a server name coincide**: the broker's labels and bytes, the schema's
    pattern and code points. -/
theorem isReverseDns_iff_pattern (s : String) :
    isReverseDns s = true ↔ s.toList ∈ namePattern.matches' ∧ s.toList.length ≤ 200 := by
  rw [← namePattern_iff, RegularExpression.rmatch_iff_matches', String.length_toList]

end McpLocator.Client
