import Std.Data.String.ToNat
import McpLocator.Json.Canonical

namespace McpLocator.Json

/-!
# The canonical text identifies the value

`canonical_injective`: two well-formed values with the same canonical text are equal.

The proof reads a value off the front of a text.  `Reads enc x` says that the encoding of `x` can
be split off the front of any text in only one way, provided what follows does not continue a
number (`Stops`).  `commaSep_inj` lifts `Reads` to comma-separated lists up to a closing bracket,
once for arrays and once for objects, and `canonical_reads` closes the induction over values.
-/

/-! ### What may follow a value -/

/-- What follows a value does not continue a number. -/
def Stops (r : List Char) : Prop := ∀ c ∈ r.head?, isNumberChar c = false

theorem stops_nil : Stops [] := by simp [Stops]

theorem stops_cons {c : Char} (h : isNumberChar c = false) (r : List Char) : Stops (c :: r) := by
  simpa [Stops] using h

/-- `x` is the only element that reads at the front of a text starting with its encoding; `Q` is
    what is known of the other element. -/
def Reads {α : Type} (enc : α → List Char) (Q : α → Prop) (x : α) : Prop :=
  ∀ (y : α) (r r' : List Char), Q y → Stops r → Stops r' → enc x ++ r = enc y ++ r' →
    x = y ∧ r = r'

/-! ### Numbers -/

theorem isNumberChar_of_isDigit {c : Char} (h : c.isDigit = true) : isNumberChar c = true := by
  simp [isNumberChar, h]

theorem isDigit_of_mem_repr {n : Nat} {c : Char} (h : c ∈ (Nat.repr n).toList) :
    c.isDigit = true := by
  rw [Nat.toList_repr] at h
  exact Nat.isDigit_of_mem_toDigits (by decide) (by decide) h

theorem repr_ne_nil (n : Nat) : (Nat.repr n).toList ≠ [] := by
  rw [Nat.toList_repr]
  exact Nat.toDigits_ne_nil

namespace Number

/-- The parts of `isFloatText`. -/
theorem floatText_spec (f : FloatText) : (∀ c ∈ f.text.toList, isNumberChar c = true) ∧
    ('.' ∈ f.text.toList ∨ 'e' ∈ f.text.toList) ∧
    ∃ c t, f.text.toList = c :: t ∧ (c = '-' ∨ c.isDigit = true) := by
  have h := f.isFloat
  simp only [isFloatText, Bool.and_eq_true, Bool.or_eq_true, List.all_eq_true,
    List.contains_iff_mem, Option.any_eq_true_iff_get] at h
  obtain ⟨⟨⟨hall, hmark⟩, hs, hhead⟩, -⟩ := h
  refine ⟨hall, hmark, ?_⟩
  cases hcs : f.text.toList with
  | nil => simp [hcs] at hs
  | cons c t =>
    refine ⟨c, t, rfl, ?_⟩
    simpa [hcs] using hhead

theorem isNumberChar_text (n : Number) : ∀ c ∈ n.text, isNumberChar c = true := by
  intro c hc
  cases n with
  | posInt n => exact isNumberChar_of_isDigit (isDigit_of_mem_repr hc)
  | negInt m =>
    rcases List.mem_cons.mp hc with rfl | h
    · decide
    · exact isNumberChar_of_isDigit (isDigit_of_mem_repr h)
  | float f => exact (floatText_spec f).1 c hc

theorem text_head (n : Number) : ∃ c t, n.text = c :: t ∧ (c = '-' ∨ c.isDigit = true) := by
  cases n with
  | posInt n =>
    cases h : (Nat.repr n.toNat).toList with
    | nil => exact absurd h (repr_ne_nil _)
    | cons c t => exact ⟨c, t, h, .inr (isDigit_of_mem_repr (h ▸ List.mem_cons_self))⟩
  | negInt m => exact ⟨'-', _, rfl, .inl rfl⟩
  | float f => exact (floatText_spec f).2.2

/-- An integer's text has no fraction and no exponent. -/
theorem not_float_of_digits {cs : List Char} (hcs : ∀ c ∈ cs, c = '-' ∨ c.isDigit = true)
    (f : FloatText) : cs ≠ f.text.toList := by
  rintro rfl
  rcases (floatText_spec f).2.1 with h | h
  · exact absurd (hcs _ h) (by decide)
  · exact absurd (hcs _ h) (by decide)

/-- The text of an integer starts with `-` exactly when it is negative. -/
theorem posInt_text_ne_negInt (n : UInt64) (m : Fin (2 ^ 63)) :
    (posInt n).text ≠ (negInt m).text := by
  intro h
  have hmem : '-' ∈ (Nat.repr n.toNat).toList := by
    have : (Nat.repr n.toNat).toList = '-' :: (Nat.repr (m.val + 1)).toList := h
    rw [this]
    exact List.mem_cons_self
  exact absurd (isDigit_of_mem_repr hmem) (by decide)

theorem text_injective : Function.Injective text := by
  -- a float shows a `.` or an `e`, an integer shows digits only
  have hpos : ∀ (n : UInt64) (f : FloatText), (posInt n).text ≠ (float f).text := fun n f =>
    not_float_of_digits (fun c hc => .inr (isDigit_of_mem_repr hc)) f
  have hneg : ∀ (m : Fin (2 ^ 63)) (f : FloatText), (negInt m).text ≠ (float f).text := by
    intro m f
    refine not_float_of_digits (fun c hc => ?_) f
    rcases List.mem_cons.mp hc with h | h
    · exact .inl h
    · exact .inr (isDigit_of_mem_repr h)
  intro a b h
  cases a with
  | posInt n =>
    cases b with
    | posInt n' =>
      have := Nat.repr_injective (String.toList_injective h)
      rw [UInt64.toNat_inj.mp this]
    | negInt m => exact absurd h (posInt_text_ne_negInt n m)
    | float f => exact absurd h (hpos n f)
  | negInt m =>
    cases b with
    | posInt n => exact absurd h.symm (posInt_text_ne_negInt n m)
    | negInt m' =>
      have := Nat.repr_injective (String.toList_injective (List.cons.inj h).2)
      rw [Fin.ext (Nat.succ_injective this)]
    | float f => exact absurd h (hneg m f)
  | float f =>
    cases b with
    | posInt n => exact absurd h.symm (hpos n f)
    | negInt m => exact absurd h.symm (hneg m f)
    | float f' =>
      obtain ⟨t, ht⟩ := f
      obtain ⟨t', ht'⟩ := f'
      have : t = t' := String.toList_injective h
      subst this
      rfl

end Number

/-- A run of characters satisfying `p` up to the first that does not is read in one way. -/
theorem append_inj_of_run {p : Char → Bool} {a b r r' : List Char} (ha : ∀ c ∈ a, p c = true)
    (hb : ∀ c ∈ b, p c = true) (hr : ∀ c ∈ r.head?, p c = false) (hr' : ∀ c ∈ r'.head?, p c = false)
    (h : a ++ r = b ++ r') : a = b ∧ r = r' := by
  have run : ∀ {a r : List Char}, (∀ c ∈ a, p c = true) → (∀ c ∈ r.head?, p c = false) →
      (a ++ r).takeWhile p = a := by
    intro a r ha hr
    rw [List.takeWhile_append_of_pos ha]
    cases r with
    | nil => simp
    | cons c t => simp [hr c (by simp)]
  have hab : a = b := by
    rw [← run ha hr, h, run hb hr']
  subst hab
  exact ⟨rfl, List.append_cancel_left h⟩

/-! ### Comma-separated lists -/

section CommaSep

variable {α : Type} {enc : α → List Char} {Q : α → Prop} {close : Char}

/-- What follows an element of a list: a comma or the closing bracket. -/
theorem stops_commaTail (hclose : isNumberChar close = false) (ts : List (List Char))
    (r : List Char) : Stops (commaTail ts ++ close :: r) := by
  cases ts with
  | nil => exact stops_cons hclose r
  | cons t ts => exact stops_cons (by decide) _

theorem commaTail_inj (hclose : isNumberChar close = false) (hcomma : close ≠ ',') :
    ∀ (xs ys : List α) (r r' : List Char), (∀ x ∈ xs, Reads enc Q x) → (∀ y ∈ ys, Q y) →
      commaTail (xs.map enc) ++ close :: r = commaTail (ys.map enc) ++ close :: r' →
      xs = ys ∧ r = r'
  | [], [], _, _, _, _, h => by simpa [commaTail] using h
  | [], y :: ys, _, _, _, _, h => by simp [commaTail, hcomma] at h
  | x :: xs, [], _, _, _, _, h => by simp [commaTail, hcomma.symm] at h
  | x :: xs, y :: ys, r, r', hx, hy, h => by
    simp only [commaTail, List.map_cons, List.flatMap_cons, List.cons_append, List.append_assoc,
      List.cons.injEq, true_and] at h
    obtain ⟨rfl, h'⟩ := hx x List.mem_cons_self y _ _ (hy y List.mem_cons_self)
      (stops_commaTail hclose _ r) (stops_commaTail hclose _ r') h
    obtain ⟨rfl, rfl⟩ := commaTail_inj hclose hcomma xs ys r r'
      (fun a ha => hx a (List.mem_cons_of_mem _ ha)) (fun a ha => hy a (List.mem_cons_of_mem _ ha)) h'
    exact ⟨rfl, rfl⟩

/-- A comma-separated list up to its closing bracket is read in one way. -/
theorem commaSep_inj (hclose : isNumberChar close = false) (hcomma : close ≠ ',')
    (hhead : ∀ x, ∃ c t, enc x = c :: t ∧ c ≠ close) {xs ys : List α} {r r' : List Char}
    (hx : ∀ x ∈ xs, Reads enc Q x) (hy : ∀ y ∈ ys, Q y)
    (h : commaSep (xs.map enc) ++ close :: r = commaSep (ys.map enc) ++ close :: r') :
    xs = ys ∧ r = r' := by
  cases xs with
  | nil =>
    cases ys with
    | nil => simpa [commaSep] using h
    | cons y ys =>
      -- the empty list is closed at once, where an element would have started
      obtain ⟨c, t, hc, hne⟩ := hhead y
      simp only [commaSep, List.map_nil, List.map_cons, hc, List.nil_append, List.cons_append,
        List.cons.injEq] at h
      exact absurd h.1.symm hne
  | cons x xs =>
    cases ys with
    | nil =>
      obtain ⟨c, t, hc, hne⟩ := hhead x
      simp only [commaSep, List.map_nil, List.map_cons, hc, List.nil_append, List.cons_append,
        List.cons.injEq] at h
      exact absurd h.1 hne
    | cons y ys =>
      -- the first elements are read off, then the tails
      simp only [commaSep, List.map_cons, List.append_assoc] at h
      obtain ⟨rfl, h'⟩ := hx x List.mem_cons_self y _ _ (hy y List.mem_cons_self)
        (stops_commaTail hclose _ r) (stops_commaTail hclose _ r') h
      obtain ⟨rfl, rfl⟩ := commaTail_inj hclose hcomma xs ys r r'
        (fun a ha => hx a (List.mem_cons_of_mem _ ha))
        (fun a ha => hy a (List.mem_cons_of_mem _ ha)) h'
      exact ⟨rfl, rfl⟩

end CommaSep

/-! ### Values -/

/-- The variant of a value, told by the first character of its text. -/
inductive Kind where
  | null | true | false | number | string | array | object | other
deriving DecidableEq

/-- The variant a text starting with `c` belongs to. -/
def kindOfHead (c : Char) : Kind :=
  if c = 'n' then .null else if c = 't' then .true else if c = 'f' then .false
  else if c = '"' then .string else if c = '[' then .array else if c = '{' then .object
  else if c = '-' ∨ c.isDigit = true then .number else .other

/-- The variant of a value. -/
def kind : Value → Kind
  | .null => .null
  | .bool b => if b then .true else .false
  | .number _ => .number
  | .string _ => .string
  | .array _ => .array
  | .object _ => .object

theorem kindOfHead_number {c : Char} (h : c = '-' ∨ c.isDigit = true) :
    kindOfHead c = .number := by
  have hne : c ≠ 'n' ∧ c ≠ 't' ∧ c ≠ 'f' ∧ c ≠ '"' ∧ c ≠ '[' ∧ c ≠ '{' := by
    refine ⟨?_, ?_, ?_, ?_, ?_, ?_⟩ <;> (rintro rfl; exact absurd h (by decide))
  simp [kindOfHead, hne, h]

/-- The first character of a text tells the variant. -/
theorem canonical_head (v : Value) : ∃ c t, canonical v = c :: t ∧ kindOfHead c = kind v := by
  cases v with
  | null => exact ⟨'n', "ull".toList, rfl, rfl⟩
  | bool b =>
    cases b with
    | false => exact ⟨'f', "alse".toList, rfl, rfl⟩
    | true => exact ⟨'t', "rue".toList, rfl, rfl⟩
  | number n =>
    obtain ⟨c, t, ht, hc⟩ := n.text_head
    exact ⟨c, t, by rw [canonical, ht], kindOfHead_number hc⟩
  | string s => exact ⟨'"', _, rfl, rfl⟩
  | array items => exact ⟨'[', _, rfl, rfl⟩
  | object members => exact ⟨'{', _, rfl, rfl⟩

theorem kind_eq_of_append_eq {v w : Value} {r r' : List Char}
    (h : canonical v ++ r = canonical w ++ r') : kind v = kind w := by
  obtain ⟨c, t, hv, hk⟩ := canonical_head v
  obtain ⟨d, u, hw, hk'⟩ := canonical_head w
  rw [hv, hw] at h
  rw [← hk, ← hk', (List.cons.inj h).1]

/-- A member is read in one way when its value is. -/
theorem memberText_reads {m : String × Value} (h : Reads canonical (fun w => w.wf = true) m.2) :
    Reads (fun m : String × Value => memberText (m.1, canonical m.2)) (fun w => w.2.wf = true)
      m := by
  intro y r r' hy hr hr' heq
  simp only [memberText, List.append_assoc, List.cons_append] at heq
  obtain ⟨hk, heq⟩ := quote_append_inj heq
  obtain ⟨hv, hrest⟩ := h y.2 r r' hy hr hr' (List.cons.inj heq).2
  exact ⟨Prod.ext hk hv, hrest⟩

/-- Well-formed members are determined by their arrangement in UTF-16 order. -/
theorem members_eq_of_sort_eq {ms ms' : List (String × Value)}
    (h : (ms.map Prod.fst).Pairwise (· < ·)) (h' : (ms'.map Prod.fst).Pairwise (· < ·))
    (heq : sortMembers utf16 ms = sortMembers utf16 ms') : ms = ms' := by
  have hperm : ms.Perm ms' :=
    (sortMembers_perm utf16 ms).symm.trans (heq ▸ sortMembers_perm utf16 ms')
  refine List.Perm.eq_of_pairwise ?_ (List.pairwise_map.mp h) (List.pairwise_map.mp h') hperm
  intro a b _ _ hab hba
  exact absurd hab (lt_asymm hba)

/-- **A value is read off the front of a text in one way.** -/
theorem canonical_reads (v : Value) (hv : v.wf = true) :
    Reads canonical (fun w => w.wf = true) v := by
  -- the first character tells which kind of value it is; arrays and objects read their parts
  induction v with
  | null =>
    intro w r r' _ _ _ h
    have hk := kind_eq_of_append_eq h
    cases w with
    | null => exact ⟨rfl, List.append_cancel_left h⟩
    | bool b => cases b <;> simp [kind] at hk
    | _ => simp [kind] at hk
  | bool b =>
    intro w r r' _ _ _ h
    have hk := kind_eq_of_append_eq h
    cases w with
    | bool b' =>
      have hb : b = b' := by cases b <;> cases b' <;> simp [kind] at hk ⊢
      subst hb
      exact ⟨rfl, List.append_cancel_left h⟩
    | _ => cases b <;> simp [kind] at hk
  | number n =>
    intro w r r' _ hr hr' h
    have hk := kind_eq_of_append_eq h
    cases w with
    | number n' =>
      -- a number ends where something follows that no number contains
      obtain ⟨htext, hrest⟩ := append_inj_of_run (Number.isNumberChar_text n)
        (Number.isNumberChar_text n') hr hr' h
      exact ⟨by rw [Number.text_injective htext], hrest⟩
    | bool b => cases b <;> simp [kind] at hk
    | _ => simp [kind] at hk
  | string s =>
    intro w r r' _ _ _ h
    have hk := kind_eq_of_append_eq h
    cases w with
    | string t =>
      obtain ⟨rfl, hrest⟩ := quote_append_inj h
      exact ⟨rfl, hrest⟩
    | bool b => cases b <;> simp [kind] at hk
    | _ => simp [kind] at hk
  | array items ih =>
    intro w r r' hw _ _ h
    have hk := kind_eq_of_append_eq h
    cases w with
    | array items' =>
      simp only [canonical, canonicalAll_eq, List.cons_append, List.append_assoc, List.nil_append,
        List.cons.injEq, true_and] at h
      obtain ⟨rfl, hrest⟩ := commaSep_inj (by decide) (by decide) head_ne_bracket
        (fun x hx => ih x hx (Value.wf_array.mp hv x hx)) (Value.wf_array.mp hw) h
      exact ⟨rfl, hrest⟩
    | bool b => cases b <;> simp [kind] at hk
    | _ => simp [kind] at hk
  | object members ih =>
    intro w r r' hw _ _ h
    have hk := kind_eq_of_append_eq h
    cases w with
    | object members' =>
      -- the members are written in another order than they are kept in
      obtain ⟨hkeys, hall⟩ := Value.wf_object.mp hv
      obtain ⟨hkeys', hall'⟩ := Value.wf_object.mp hw
      simp only [canonical_object, List.cons_append, List.append_assoc, List.nil_append,
        List.cons.injEq, true_and] at h
      obtain ⟨hsort, hrest⟩ := commaSep_inj
        (by decide) (by decide)
        (fun m => ⟨'"', _, rfl, by decide⟩)
        (fun m hm => memberText_reads (ih m (mem_sortMembers.mp hm) (hall m (mem_sortMembers.mp hm))))
        (fun m hm => hall' m (mem_sortMembers.mp hm)) h
      exact ⟨by rw [members_eq_of_sort_eq hkeys hkeys' hsort], hrest⟩
    | bool b => cases b <;> simp [kind] at hk
    | _ => simp [kind] at hk
where
  head_ne_bracket (x : Value) : ∃ c t, canonical x = c :: t ∧ c ≠ ']' := by
    obtain ⟨c, t, ht, hk⟩ := canonical_head x
    refine ⟨c, t, ht, ?_⟩
    rintro rfl
    have : kind x = .other := hk ▸ by decide
    cases x with
    | bool b => cases b <;> simp [kind] at this
    | _ => simp [kind] at this

/-- **The canonical text identifies the value.** -/
theorem canonical_injective {v w : Value} (hv : v.wf = true) (hw : w.wf = true)
    (h : canonical v = canonical w) : v = w :=
  (canonical_reads v hv w [] [] hw stops_nil stops_nil (by simpa using h)).1

end McpLocator.Json
