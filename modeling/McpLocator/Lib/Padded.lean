import Mathlib.Algebra.Ring.Nat
import Mathlib.Data.List.Lex

namespace McpLocator.Padded

/-!
# Numbers padded with zeros

Numbers written with a fixed number of decimal digits, and texts put together from such fields.

* `pad` — a number with zeros in front; `value_pad` reads it back.
* `pad_lt_pad_iff` — padded numbers are ordered as texts like the numbers.
* `append_lt_append_iff` — texts whose first parts are of one length are ordered by these, then by the
  rest.
* `write` — several padded fields, each with a character after it; `read_write` and `write_lt_write_iff`
  carry both facts over.
-/

/-- `{:0w}` of a natural number. -/
def pad (w n : Nat) : List Char := (Nat.toDigits 10 n).leftpad w '0'

/-- The number that digits stand for. -/
def value (cs : List Char) : Nat := Nat.ofDigitChars 10 cs 0

section Pad

variable {w n m : Nat}

theorem length_pad (hw : 0 < w) (h : n < 10 ^ w) : (pad w n).length = w := by
  rw [pad, List.length_leftpad]
  exact Nat.max_eq_left ((Nat.length_toDigits_le_iff (by omega) hw).mpr h)

@[simp] theorem value_pad (w n : Nat) : value (pad w n) = n := by
  rw [value, pad, List.leftpad, Nat.ofDigitChars_append, Nat.ofDigitChars_replicate_zero,
    Nat.mul_zero, Nat.ofDigitChars_toDigits (by omega) (Nat.le_refl 10)]

theorem isDigit_of_mem_pad {c : Char} (h : c ∈ pad w n) : c.isDigit = true := by
  rw [pad, List.leftpad, List.mem_append] at h
  rcases h with h | h
  · rw [List.eq_of_mem_replicate h]
    rfl
  · exact Nat.isDigit_of_mem_toDigits (by omega) (Nat.le_refl 10) h

end Pad

/-! ### The order of texts -/

theorem append_lt_append_iff {a a' b b' : List Char} (h : a.length = a'.length) :
    a ++ b < a' ++ b' ↔ a < a' ∨ a = a' ∧ b < b' := by
  induction a generalizing a' with
  | nil =>
    obtain rfl := List.eq_nil_of_length_eq_zero h.symm
    simp
  | cons c a ih =>
    obtain ⟨c', a', rfl⟩ := List.exists_cons_of_length_eq_add_one h.symm
    have hlength : a.length = a'.length := by simpa using h
    simp only [List.cons_append, List.cons_lt_cons_iff, List.cons.injEq, ih hlength]
    tauto

/-- The value of a digit. -/
theorem value_cons (c : Char) (cs : List Char) :
    value (c :: cs) = 10 ^ cs.length * (c.toNat - '0'.toNat) + value cs := by
  rw [value, Nat.ofDigitChars_cons, Nat.mul_zero, Nat.zero_add, Nat.ofDigitChars_eq_ofDigitChars_zero]
  rfl

theorem digit_range {c : Char} (h : c.isDigit = true) : '0'.toNat ≤ c.toNat ∧ c.toNat ≤ '0'.toNat + 9 := by
  simp only [Char.isDigit, Bool.and_eq_true, decide_eq_true_eq] at h
  exact ⟨h.1, h.2⟩

theorem value_lt {cs : List Char} (h : ∀ c ∈ cs, c.isDigit = true) : value cs < 10 ^ cs.length := by
  induction cs with
  | nil => decide
  | cons c cs ih =>
    have hrest := ih fun d hd => h d (List.mem_cons_of_mem _ hd)
    obtain ⟨-, hc⟩ := digit_range (h c List.mem_cons_self)
    have hle : 10 ^ cs.length * (c.toNat - '0'.toNat) ≤ 10 ^ cs.length * 9 :=
      Nat.mul_le_mul_left _ (by omega)
    rw [value_cons, List.length_cons, Nat.pow_succ]
    omega

/-- Digits of one number are ordered like the numbers. -/
theorem lt_iff_value_lt {cs ds : List Char} (hlength : cs.length = ds.length)
    (hcs : ∀ c ∈ cs, c.isDigit = true) (hds : ∀ d ∈ ds, d.isDigit = true) :
    cs < ds ↔ value cs < value ds := by
  induction cs generalizing ds with
  | nil =>
    obtain rfl := List.eq_nil_of_length_eq_zero hlength.symm
    simp
  | cons c cs ih =>
    obtain ⟨d, ds, rfl⟩ := List.exists_cons_of_length_eq_add_one hlength.symm
    have hlen : cs.length = ds.length := by simpa using hlength
    have hcs' := fun x hx => hcs x (List.mem_cons_of_mem _ hx)
    have hds' := fun x hx => hds x (List.mem_cons_of_mem _ hx)
    have hc := digit_range (hcs c List.mem_cons_self)
    have hd := digit_range (hds d List.mem_cons_self)
    have hvc := value_lt hcs'
    have hvd := value_lt hds'
    rw [List.cons_lt_cons_iff, ih hlen hcs' hds', value_cons, value_cons, hlen]
    rw [hlen] at hvc
    -- one more in the first digit is more than all digits after it
    have hstep : ∀ {x y : Char}, '0'.toNat ≤ x.toNat → x.toNat < y.toNat →
        10 ^ ds.length * (x.toNat - '0'.toNat) + 10 ^ ds.length ≤
          10 ^ ds.length * (y.toNat - '0'.toNat) := by
      intro x y hx hxy
      rw [← Nat.mul_succ]
      exact Nat.mul_le_mul_left _ (by omega)
    rcases Nat.lt_trichotomy c.toNat d.toNat with hlt | heq | hgt
    · have := hstep hc.1 hlt
      exact iff_of_true (.inl hlt) (by omega)
    · obtain rfl : c = d := Char.toNat_inj.mp heq
      simp
    · have := hstep hd.1 hgt
      refine iff_of_false ?_ (by omega)
      rintro (hlt | ⟨rfl, -⟩)
      · exact absurd hlt (Nat.lt_asymm hgt)
      · exact absurd hgt (Nat.lt_irrefl _)

theorem pad_injective (w : Nat) : Function.Injective (pad w) := by
  intro n m h
  rw [← value_pad w n, h, value_pad]

/-- **Padded numbers are ordered like the numbers.** -/
theorem pad_lt_pad_iff {w n m : Nat} (hw : 0 < w) (hn : n < 10 ^ w) (hm : m < 10 ^ w) :
    pad w n < pad w m ↔ n < m := by
  rw [lt_iff_value_lt (by rw [length_pad hw hn, length_pad hw hm]) (fun _ => isDigit_of_mem_pad)
    (fun _ => isDigit_of_mem_pad), value_pad, value_pad]

/-! ### Several fields -/

/-- Fields given by their widths and by the characters after them. -/
def write : List (Nat × Char) → List Nat → List Char
  | (w, c) :: layout, n :: ns => pad w n ++ c :: write layout ns
  | _, _ => []

def read : List (Nat × Char) → List Char → Option (List Nat)
  | [], [] => some []
  | [], _ :: _ => none
  | (w, c) :: layout, cs =>
    if (cs.take w).length = w ∧ (cs.take w).all (·.isDigit) = true ∧ cs[w]? = some c then
      (read layout (cs.drop (w + 1))).map (value (cs.take w) :: ·)
    else none

/-- Each number has a field that is wide enough for it. -/
def Fits : List (Nat × Char) → List Nat → Prop := List.Forall₂ fun field n => 0 < field.1 ∧ n < 10 ^ field.1

variable {layout : List (Nat × Char)} {ns ms : List Nat}

theorem length_write (h : Fits layout ns) :
    (write layout ns).length = (layout.map fun field => field.1 + 1).sum := by
  induction h with
  | nil => rfl
  | cons hfield _ ih =>
    simp only [write, List.length_append, List.length_cons, length_pad hfield.1 hfield.2, ih,
      List.map_cons, List.sum_cons]
    omega

theorem read_write (h : Fits layout ns) : read layout (write layout ns) = some ns := by
  induction h with
  | nil => rfl
  | @cons field n layout ns hfield _ ih =>
    obtain ⟨w, c⟩ := field
    have hlength : (pad w n).length = w := length_pad hfield.1 hfield.2
    have htake : (pad w n ++ c :: write layout ns).take w = pad w n := by
      rw [List.take_append_of_le_length hlength.ge, List.take_of_length_le hlength.le]
    have hnext : (pad w n ++ c :: write layout ns)[w]? = some c := by
      rw [List.getElem?_append_right hlength.le, hlength, Nat.sub_self]
      rfl
    have hdrop : (pad w n ++ c :: write layout ns).drop (w + 1) = write layout ns := by
      rw [List.drop_append, List.drop_eq_nil_of_le (by omega), hlength, Nat.add_sub_cancel_left]
      rfl
    rw [write, read, htake, hnext, hdrop, if_pos ⟨hlength, List.all_eq_true.mpr fun _ => isDigit_of_mem_pad, rfl⟩, ih,
      value_pad]
    rfl

/-- **Fields are ordered as texts like the numbers in them, the first field first.** -/
theorem write_lt_write_iff (hn : Fits layout ns) (hm : Fits layout ms) :
    write layout ns < write layout ms ↔ ns < ms := by
  induction hn generalizing ms with
  | nil =>
    cases hm
    simp [write]
  | @cons field n layout ns hfield _ ih =>
    obtain ⟨w, c⟩ := field
    cases hm with
    | @cons _ m _ ms hfield' hrest =>
      have hlength : (pad w n).length = (pad w m).length := by
        rw [length_pad hfield.1 hfield.2, length_pad hfield'.1 hfield'.2]
      rw [write, write, append_lt_append_iff hlength, pad_lt_pad_iff hfield.1 hfield.2 hfield'.2,
        List.cons_lt_cons_iff, List.cons_lt_cons_iff, ih hrest, (pad_injective w).eq_iff]
      simp

end McpLocator.Padded
