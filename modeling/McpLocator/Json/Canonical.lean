import Mathlib.Data.List.Sort
import Mathlib.Data.List.Lex
import Mathlib.Order.Basic
import McpLocator.Json.Value

namespace McpLocator.Json

/-!
# The canonical form (RFC 8785)

* `sortMembers key ms` — members ordered by a key of their name; on distinct names the result
  does not depend on the order they came in (`sortMembers_eq_of_perm`).
* `utf16` — the UTF-16 code units of a string, the order JCS sorts members by.
* `canonical` — the canonical text of a value.
* `Value.norm` — the well-formed arrangement of a value; `canonical_norm` says that arranging the
  members of a value differently leaves its canonical text alone.
-/

/-! ### Sorting members -/

section SortMembers

variable {K : Type} [LinearOrder K] {β γ : Type}

/-- Members ordered by `key` of their name. -/
def sortMembers (key : String → K) (ms : List (String × β)) : List (String × β) :=
  ms.insertionSort fun a b => key a.1 ≤ key b.1

theorem sortMembers_perm (key : String → K) (ms : List (String × β)) :
    (sortMembers key ms).Perm ms :=
  List.perm_insertionSort _ ms

@[simp] theorem mem_sortMembers {key : String → K} {ms : List (String × β)} {m : String × β} :
    m ∈ sortMembers key ms ↔ m ∈ ms :=
  (sortMembers_perm key ms).mem_iff

theorem sortMembers_pairwise (key : String → K) (ms : List (String × β)) :
    (sortMembers key ms).Pairwise fun a b => key a.1 ≤ key b.1 := by
  have : Std.Total fun a b : String × β => key a.1 ≤ key b.1 := ⟨fun _ _ => le_total _ _⟩
  have : IsTrans (String × β) fun a b => key a.1 ≤ key b.1 := ⟨fun _ _ _ => le_trans⟩
  exact List.pairwise_insertionSort _ ms

/-- Two members of a list with distinct names and one name are the same member. -/
theorem eq_of_name_eq {ms : List (String × β)} (hd : (ms.map Prod.fst).Nodup) {a b : String × β}
    (ha : a ∈ ms) (hb : b ∈ ms) (h : a.1 = b.1) : a = b :=
  List.inj_on_of_nodup_map hd ha hb h

/-- On distinct names the sorted list is determined by which members there are. -/
theorem sortMembers_eq_of_perm {key : String → K} (hkey : Function.Injective key)
    {ms ms' : List (String × β)} (hd : (ms.map Prod.fst).Nodup) (h : ms.Perm ms') :
    sortMembers key ms = sortMembers key ms' := by
  refine List.Perm.eq_of_pairwise ?_ (sortMembers_pairwise key ms) (sortMembers_pairwise key ms')
    (((sortMembers_perm key ms).trans h).trans (sortMembers_perm key ms').symm)
  intro a b ha hb hab hba
  rw [mem_sortMembers] at ha hb
  exact eq_of_name_eq hd ha (h.mem_iff.mpr hb) (hkey (le_antisymm hab hba))

/-- Sorting commutes with rewriting the values. -/
theorem sortMembers_map (key : String → K) (f : String × β → γ) (ms : List (String × β)) :
    sortMembers key (ms.map fun m => (m.1, f m)) = (sortMembers key ms).map fun m => (m.1, f m) :=
  (List.map_insertionSort (fun a b : String × β => key a.1 ≤ key b.1)
    (fun a b : String × γ => key a.1 ≤ key b.1) (fun m : String × β => (m.1, f m)) ms
    fun _ _ _ _ => Iff.rfl).symm

/-- The names of the sorted members are the sorted names. -/
theorem map_fst_sortMembers (key : String → K) (ms : List (String × β)) :
    (sortMembers key ms).map Prod.fst = (ms.map Prod.fst).insertionSort fun a b => key a ≤ key b :=
  List.map_insertionSort _ _ _ _ fun _ _ _ _ => Iff.rfl

/-- Sorting distinct names leaves what is found under each. -/
theorem lookup_sortMembers_self (key : String → K) {ms : List (String × β)}
    (hd : (ms.map Prod.fst).Nodup) (k : String) : (sortMembers key ms).lookup k = ms.lookup k := by
  have hnd : ((sortMembers key ms).map Prod.fst).Nodup :=
    ((sortMembers_perm key ms).map Prod.fst).nodup_iff.mpr hd
  cases h : ms.lookup k with
  | none =>
    rw [List.lookup_eq_none_iff]
    exact fun m hm => List.lookup_eq_none_iff.mp h m (mem_sortMembers.mp hm)
  | some x => exact Value.lookup_of_mem hnd (mem_sortMembers.mpr (Value.mem_of_lookup h))

/-- Distinct names sorted by themselves increase strictly. -/
theorem pairwise_lt_sortMembers {ms : List (String × β)} (hd : (ms.map Prod.fst).Nodup) :
    ((sortMembers id ms).map Prod.fst).Pairwise (· < ·) := by
  have hnd : ((sortMembers id ms).map Prod.fst).Nodup :=
    ((sortMembers_perm id ms).map Prod.fst).nodup_iff.mpr hd
  have hle := (List.pairwise_map (f := Prod.fst)).mpr (sortMembers_pairwise id ms)
  exact (hle.and hnd).imp fun h => lt_of_le_of_ne h.1 h.2

end SortMembers

/-! ### UTF-16 order -/

/-- The UTF-16 code units of a scalar value. -/
def utf16Char (c : Char) : List Nat :=
  if c.toNat < 0x10000 then [c.toNat]
  else [0xD800 + (c.toNat - 0x10000) / 0x400, 0xDC00 + (c.toNat - 0x10000) % 0x400]

/-- The UTF-16 code units of a string. -/
def utf16 (s : String) : List Nat := s.toList.flatMap utf16Char

/-- No scalar value is a surrogate. -/
theorem not_surrogate (c : Char) : c.toNat < 0xD800 ∨ 0xDFFF < c.toNat := by
  have h := c.valid
  simp only [UInt32.isValidChar, Nat.isValidChar] at h
  simp only [Char.toNat]
  omega

/-- The code units of a scalar value can be read off the front of any text. -/
theorem utf16Char_append_inj {c d : Char} {r r' : List Nat}
    (h : utf16Char c ++ r = utf16Char d ++ r') : c = d ∧ r = r' := by
  have hc := not_surrogate c
  have hd := not_surrogate d
  have hlt : ∀ x : Char, x.toNat < 0x110000 := fun x => by
    have := x.valid
    simp only [UInt32.isValidChar, Nat.isValidChar] at this
    simp only [Char.toNat]
    omega
  have hc' := hlt c
  have hd' := hlt d
  -- one unit against two is impossible: a leading surrogate is no scalar value
  have key : c.toNat = d.toNat ∧ r = r' := by
    unfold utf16Char at h
    split at h <;> split at h <;>
      simp only [List.cons_append, List.nil_append, List.cons.injEq] at h
    · exact h
    · omega
    · omega
    · obtain ⟨h1, h2, h3⟩ := h
      exact ⟨by omega, h3⟩
  exact ⟨Char.toNat_inj.mp key.1, key.2⟩

theorem utf16Char_ne_nil (c : Char) : utf16Char c ≠ [] := by
  unfold utf16Char
  split <;> simp

theorem flatMap_utf16Char_injective : ∀ cs ds : List Char,
    cs.flatMap utf16Char = ds.flatMap utf16Char → cs = ds
  | [], [], _ => rfl
  | [], d :: _, h => by simp [utf16Char_ne_nil d] at h
  | c :: _, [], h => by simp [utf16Char_ne_nil c] at h
  | c :: cs, d :: ds, h => by
    simp only [List.flatMap_cons] at h
    obtain ⟨rfl, h'⟩ := utf16Char_append_inj h
    rw [flatMap_utf16Char_injective cs ds h']

theorem utf16_injective : Function.Injective utf16 := fun _ _ h =>
  String.toList_injective (flatMap_utf16Char_injective _ _ h)

/-! ### Strings -/

/-- The lowercase hexadecimal digit of a number below 16. -/
def hexDigit (n : Nat) : Char :=
  if n < 10 then Char.ofNat ('0'.toNat + n) else Char.ofNat ('a'.toNat + n - 10)

/-- JSON string escaping: the short escapes where they exist, `\u00xx` for the other control
    characters, everything else raw. -/
def escapeChar (c : Char) : List Char :=
  if c = '"' then ['\\', '"']
  else if c = '\\' then ['\\', '\\']
  else if c = '\x08' then ['\\', 'b']
  else if c = '\x0c' then ['\\', 'f']
  else if c = '\n' then ['\\', 'n']
  else if c = '\r' then ['\\', 'r']
  else if c = '\t' then ['\\', 't']
  else if c.toNat < 0x20 then ['\\', 'u', '0', '0', hexDigit (c.toNat / 16), hexDigit (c.toNat % 16)]
  else [c]

/-- A quoted JSON string. -/
def quote (s : String) : List Char := '"' :: s.toList.flatMap escapeChar ++ ['"']

/-- The number a lowercase hexadecimal digit stands for. -/
def hexValue (c : Char) : Nat := if c.isDigit then c.toNat - '0'.toNat else c.toNat - 'a'.toNat + 10

/-- Read one character of a JSON string and what follows it; `none` at the closing quote. -/
def unescape : List Char → Option (Char × List Char)
  | '\\' :: 'u' :: '0' :: '0' :: h :: l :: r => some (Char.ofNat (16 * hexValue h + hexValue l), r)
  | '\\' :: 'b' :: r => some ('\x08', r)
  | '\\' :: 'f' :: r => some ('\x0c', r)
  | '\\' :: 'n' :: r => some ('\n', r)
  | '\\' :: 'r' :: r => some ('\r', r)
  | '\\' :: 't' :: r => some ('\t', r)
  | '\\' :: c :: r => some (c, r)
  | '"' :: _ => none
  | c :: r => some (c, r)
  | [] => none

/-- The control characters read back from their hexadecimal escape. -/
theorem unescape_hex : ∀ n : Fin 32, ∀ r : List Char,
    unescape ('\\' :: 'u' :: '0' :: '0' :: hexDigit (n.val / 16) :: hexDigit (n.val % 16) :: r) =
      some (Char.ofNat n.val, r) := by
  intro n r
  have h : Char.ofNat (16 * hexValue (hexDigit (n.val / 16)) + hexValue (hexDigit (n.val % 16))) =
      Char.ofNat n.val := by
    revert n
    decide
  simp only [unescape, h]

/-- **Escapes read back.** -/
theorem unescape_escapeChar (c : Char) (r : List Char) :
    unescape (escapeChar c ++ r) = some (c, r) := by
  unfold escapeChar
  split_ifs with h1 h2 h3 h4 h5 h6 h7 h8
  · subst h1; rfl
  · subst h2; rfl
  · subst h3; rfl
  · subst h4; rfl
  · subst h5; rfl
  · subst h6; rfl
  · subst h7; rfl
  · have := unescape_hex ⟨c.toNat, h8⟩ r
    simpa using this
  · simp only [List.cons_append, List.nil_append]
    rw [unescape.eq_def]
    split <;> simp_all

/-- A string body followed by a quote can be read off the front of any text. -/
theorem escape_append_inj : ∀ (cs ds : List Char) (r r' : List Char),
    cs.flatMap escapeChar ++ '"' :: r = ds.flatMap escapeChar ++ '"' :: r' → cs = ds ∧ r = r'
  | [], [], _, _, h => by simpa using h
  -- a bare quote closes the string; an escaped character never starts with one
  | [], d :: ds, r, r', h => by
    have := congrArg unescape h
    simp only [List.flatMap_nil, List.nil_append, List.flatMap_cons, List.append_assoc,
      unescape_escapeChar] at this
    simp [unescape] at this
  | c :: cs, [], r, r', h => by
    have := congrArg unescape h
    simp only [List.flatMap_nil, List.nil_append, List.flatMap_cons, List.append_assoc,
      unescape_escapeChar] at this
    simp [unescape] at this
  -- both sides unescape to their first character and the rest
  | c :: cs, d :: ds, r, r', h => by
    have := congrArg unescape h
    simp only [List.flatMap_cons, List.append_assoc, unescape_escapeChar, Option.some.injEq,
      Prod.mk.injEq] at this
    obtain ⟨rfl, h'⟩ := this
    obtain ⟨rfl, rfl⟩ := escape_append_inj cs ds r r' h'
    exact ⟨rfl, rfl⟩

theorem quote_append_inj {s t : String} {r r' : List Char} (h : quote s ++ r = quote t ++ r') :
    s = t ∧ r = r' := by
  simp only [quote, List.cons_append, List.append_assoc, List.nil_append, List.cons.injEq,
    true_and] at h
  obtain ⟨h1, h2⟩ := escape_append_inj _ _ _ _ h
  exact ⟨String.toList_injective h1, h2⟩

/-! ### The canonical text -/

/-- Every element after the first, each behind a comma. -/
def commaTail (ts : List (List Char)) : List Char := ts.flatMap fun t => ',' :: t

/-- Elements joined by commas. -/
def commaSep : List (List Char) → List Char
  | [] => []
  | t :: ts => t ++ commaTail ts

/-- One member of an object: the quoted name, a colon, the value's text. -/
def memberText (m : String × List Char) : List Char := quote m.1 ++ ':' :: m.2

mutual
/-- The RFC 8785 text of a value. -/
def canonical : Value → List Char
  | .null => "null".toList
  | .bool b => if b then "true".toList else "false".toList
  | .number n => n.text
  | .string s => quote s
  | .array items => '[' :: commaSep (canonicalAll items) ++ [']']
  | .object members =>
    '{' :: commaSep ((sortMembers utf16 (canonicalMembers members)).map memberText) ++ ['}']

/-- The texts of a list of values. -/
def canonicalAll : List Value → List (List Char)
  | [] => []
  | x :: xs => canonical x :: canonicalAll xs

/-- The members of an object with their values' texts. -/
def canonicalMembers : List (String × Value) → List (String × List Char)
  | [] => []
  | (k, x) :: ms => (k, canonical x) :: canonicalMembers ms
end

@[simp] theorem canonicalAll_eq (items : List Value) :
    canonicalAll items = items.map canonical := by
  induction items with
  | nil => rfl
  | cons x xs ih => simp [canonicalAll, ih]

@[simp] theorem canonicalMembers_eq (members : List (String × Value)) :
    canonicalMembers members = members.map fun m => (m.1, canonical m.2) := by
  induction members with
  | nil => rfl
  | cons m ms ih =>
    obtain ⟨k, x⟩ := m
    simp [canonicalMembers, ih]

theorem canonical_object (members : List (String × Value)) : canonical (.object members) =
    '{' :: commaSep ((sortMembers utf16 members).map fun m =>
      memberText (m.1, canonical m.2)) ++ ['}'] := by
  rw [canonical, canonicalMembers_eq, sortMembers_map utf16 (fun m => canonical m.2), List.map_map]
  rfl

/-! ### Arranging the members differently -/

namespace Value

mutual
/-- The value with the members of every object in increasing key order. -/
def norm : Value → Value
  | array items => array (normAll items)
  | object members => object (sortMembers id (normMembers members))
  | v => v

/-- `norm` of every item. -/
def normAll : List Value → List Value
  | [] => []
  | x :: xs => x.norm :: normAll xs

/-- `norm` of every member's value. -/
def normMembers : List (String × Value) → List (String × Value)
  | [] => []
  | (k, x) :: ms => (k, x.norm) :: normMembers ms
end

@[simp] theorem normAll_eq (items : List Value) : normAll items = items.map norm := by
  induction items with
  | nil => rfl
  | cons x xs ih => simp [normAll, ih]

@[simp] theorem normMembers_eq (members : List (String × Value)) :
    normMembers members = members.map fun m => (m.1, m.2.norm) := by
  induction members with
  | nil => rfl
  | cons m ms ih =>
    obtain ⟨k, x⟩ := m
    simp [normMembers, ih]

mutual
/-- Every object in the value has distinct keys. -/
def distinct : Value → Bool
  | array items => distinctAll items
  | object members => decide (members.map Prod.fst).Nodup && distinctMembers members
  | _ => true

/-- `distinct` of every item. -/
def distinctAll : List Value → Bool
  | [] => true
  | x :: xs => x.distinct && distinctAll xs

/-- `distinct` of every member's value. -/
def distinctMembers : List (String × Value) → Bool
  | [] => true
  | (_, x) :: ms => x.distinct && distinctMembers ms
end

@[simp] theorem distinctAll_iff (items : List Value) :
    distinctAll items = true ↔ ∀ x ∈ items, x.distinct = true := by
  induction items with
  | nil => simp [distinctAll]
  | cons x xs ih => simp [distinctAll, ih]

@[simp] theorem distinctMembers_iff (members : List (String × Value)) :
    distinctMembers members = true ↔ ∀ m ∈ members, m.2.distinct = true := by
  induction members with
  | nil => simp [distinctMembers]
  | cons m ms ih =>
    obtain ⟨k, x⟩ := m
    simp [distinctMembers, ih]

theorem distinct_object {members : List (String × Value)} : (object members).distinct = true ↔
    (members.map Prod.fst).Nodup ∧ ∀ m ∈ members, m.2.distinct = true := by
  simp [distinct]

/-- Looking a key up in the arranged members finds the arranged value. -/
theorem lookup_sortMembers {members : List (String × Value)} (hd : (members.map Prod.fst).Nodup)
    (key : String) :
    (sortMembers id (members.map fun m => (m.1, m.2.norm))).lookup key =
      (members.lookup key).map norm := by
  have hfst : (members.map fun m => (m.1, m.2.norm)).map Prod.fst = members.map Prod.fst := by
    simp
  rw [lookup_sortMembers_self id (hfst ▸ hd)]
  exact lookup_map_snd (fun _ => norm) key members

theorem get_norm {v : Value} (hd : v.distinct = true) (key : String) :
    v.norm.get key = (v.get key).map norm := by
  cases v with
  | object members =>
    simpa [norm] using lookup_sortMembers (distinct_object.mp hd).1 key
  | _ => simp [norm, get]

/-- Arranging rewritten members is rewriting the arranged ones. -/
theorem norm_map_members {members : List (String × Value)} {F G : String × Value → Value}
    (h : ∀ m ∈ members, (F m).norm = G (m.1, m.2.norm)) :
    (object (members.map fun m => (m.1, F m))).norm =
      object ((sortMembers id (members.map fun m => (m.1, m.2.norm))).map fun m => (m.1, G m)) := by
  rw [norm, normMembers_eq, ← sortMembers_map id G, List.map_map, List.map_map]
  congr 2
  refine List.map_congr_left fun m hm => ?_
  show (m.1, (F m).norm) = (m.1, G (m.1, m.2.norm))
  rw [h m hm]

theorem distinct_of_get {key : String} {v x : Value} (hv : v.distinct = true)
    (h : v.get key = some x) : x.distinct = true := by
  cases v with
  | object members => exact (distinct_object.mp hv).2 _ (mem_of_lookup h)
  | _ => simp [get] at h

/-- The arrangement is well formed. -/
theorem wf_norm {v : Value} (hd : v.distinct = true) : v.norm.wf = true := by
  induction v with
  | array items ih =>
    simp only [distinct, distinctAll_iff] at hd
    simp only [norm, normAll_eq, wf_array, List.mem_map]
    rintro _ ⟨x, hx, rfl⟩
    exact ih x hx (hd x hx)
  | object members ih =>
    obtain ⟨hnd, hall⟩ := distinct_object.mp hd
    simp only [norm, normMembers_eq, wf_object]
    refine ⟨?_, ?_⟩
    · have hfst : (members.map fun m => (m.1, m.2.norm)).map Prod.fst = members.map Prod.fst := by
        simp
      exact pairwise_lt_sortMembers (hfst ▸ hnd)
    · intro m hm
      rw [mem_sortMembers, List.mem_map] at hm
      obtain ⟨a, ha, rfl⟩ := hm
      exact ih a ha (hall a ha)
  | _ => rfl

end Value

/-- **Arranging members differently leaves the canonical text alone.** -/
theorem canonical_norm {v : Value} (hd : v.distinct = true) : canonical v.norm = canonical v := by
  induction v with
  | array items ih =>
    simp only [Value.distinct, Value.distinctAll_iff] at hd
    have htexts : (items.map Value.norm).map canonical = items.map canonical := by
      rw [List.map_map]
      exact List.map_congr_left fun x hx => ih x hx (hd x hx)
    simp only [Value.norm, Value.normAll_eq, canonical, canonicalAll_eq, htexts]
  | object members ih =>
    obtain ⟨hnd, hall⟩ := Value.distinct_object.mp hd
    have htexts : (members.map fun m => (m.1, m.2.norm)).map (fun m => (m.1, canonical m.2)) =
        members.map fun m => (m.1, canonical m.2) := by
      rw [List.map_map]
      exact List.map_congr_left fun m hm => by simp [ih m hm (hall m hm)]
    -- sorting by UTF-16 code units forgets how the members were arranged before
    have hsort : sortMembers utf16 ((sortMembers id (members.map fun m => (m.1, m.2.norm))).map
        fun m => (m.1, canonical m.2)) =
        sortMembers utf16 (members.map fun m => (m.1, canonical m.2)) := by
      refine sortMembers_eq_of_perm utf16_injective ?_ ?_
      · rw [List.map_map]
        refine ((sortMembers_perm id _).map Prod.fst).nodup_iff.mpr ?_
        rw [List.map_map]
        exact hnd
      · rw [← htexts]
        exact (sortMembers_perm id _).map _
    simp only [Value.norm, Value.normMembers_eq, canonical, canonicalMembers_eq, hsort]
  | _ => rfl

end McpLocator.Json
