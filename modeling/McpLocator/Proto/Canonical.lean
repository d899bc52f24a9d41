import McpLocator.Json.UniqueReading

namespace McpLocator.Proto

open McpLocator.Json

/-!
# `canonicalize`

The broker's canonicalizer.  A `String` is built from its scalar values, so the output is a list
of characters; `map[key]` reads the text of the member found under `key`.

`canonicalize_eq_canonical`: on values with distinct keys this is the RFC 8785 text, hence
`canonicalize_injective`.
-/

/-- `format!("{:04x}", n)` for a number below `0x10000`. -/
def hex4 (n : Nat) : List Char :=
  [hexDigit (n / 0x1000 % 16), hexDigit (n / 0x100 % 16), hexDigit (n / 16 % 16), hexDigit (n % 16)]

/-- One character of `write_string`. -/
def writeChar (c : Char) : List Char :=
  match c with
  | '"' => ['\\', '"']
  | '\\' => ['\\', '\\']
  | '\x08' => ['\\', 'b']
  | '\x0c' => ['\\', 'f']
  | '\n' => ['\\', 'n']
  | '\r' => ['\\', 'r']
  | '\t' => ['\\', 't']
  | c => if c.toNat < 0x20 then '\\' :: 'u' :: hex4 c.toNat else [c]

/-- `write_string`. -/
def writeString (s : String) : List Char := '"' :: s.toList.flatMap writeChar ++ ['"']

/-- The loop that pushes the texts of a list with commas between them; `i` is the index. -/
def pushAll : Nat → List (List Char) → List Char
  | _, [] => []
  | i, t :: ts => (if i > 0 then [','] else []) ++ t ++ pushAll (i + 1) ts

/-- `keys.sort_by(utf16_cmp)`. -/
def sortedKeys (keys : List String) : List String :=
  keys.insertionSort fun a b => utf16 a ≤ utf16 b

mutual
/-- `write_value`. -/
def canonicalize : Value → List Char
  | .null => "null".toList
  | .bool b => if b then "true".toList else "false".toList
  | .number n => n.text
  | .string s => writeString s
  | .array items => '[' :: pushAll 0 (canonicalizeAll items) ++ [']']
  | .object map =>
    let texts := canonicalizeMembers map
    '{' :: pushAll 0 ((sortedKeys (texts.map Prod.fst)).map fun key =>
      writeString key ++ ':' :: (texts.lookup key).getD []) ++ ['}']

/-- The items of an array. -/
def canonicalizeAll : List Value → List (List Char)
  | [] => []
  | x :: xs => canonicalize x :: canonicalizeAll xs

/-- The members of a map, each with the text of its value. -/
def canonicalizeMembers : List (String × Value) → List (String × List Char)
  | [] => []
  | (k, x) :: ms => (k, canonicalize x) :: canonicalizeMembers ms
end

/-! ### Agreement with RFC 8785 -/

/-- A control character's four hexadecimal digits start with two zeros. -/
theorem hex4_of_lt {n : Nat} (h : n < 0x20) :
    hex4 n = ['0', '0', hexDigit (n / 16), hexDigit (n % 16)] := by
  have h3 : n / 0x1000 % 16 = 0 := by omega
  have h2 : n / 0x100 % 16 = 0 := by omega
  have h1 : n / 16 % 16 = n / 16 := by omega
  rw [hex4, h3, h2, h1]
  rfl

theorem writeChar_eq (c : Char) : writeChar c = escapeChar c := by
  unfold writeChar
  split
  · rfl
  · rfl
  · rfl
  · rfl
  · rfl
  · rfl
  · rfl
  · rename_i h1 h2 h3 h4 h5 h6 h7
    rw [escapeChar, if_neg h1, if_neg h2, if_neg h3, if_neg h4, if_neg h5, if_neg h6, if_neg h7]
    split
    · rename_i hlt
      rw [hex4_of_lt hlt]
    · rfl

theorem writeString_eq (s : String) : writeString s = quote s := by
  simp [writeString, quote, funext writeChar_eq]

theorem pushAll_succ (i : Nat) (ts : List (List Char)) : pushAll (i + 1) ts = commaTail ts := by
  induction ts generalizing i with
  | nil => rfl
  | cons t ts ih => simp [pushAll, commaTail, ih]

theorem pushAll_zero (ts : List (List Char)) : pushAll 0 ts = commaSep ts := by
  cases ts with
  | nil => rfl
  | cons t ts => simp [pushAll, commaSep, pushAll_succ]

@[simp] theorem canonicalizeAll_eq (items : List Value) :
    canonicalizeAll items = items.map canonicalize := by
  induction items with
  | nil => rfl
  | cons x xs ih => simp [canonicalizeAll, ih]

@[simp] theorem canonicalizeMembers_eq (ms : List (String × Value)) :
    canonicalizeMembers ms = ms.map fun m => (m.1, canonicalize m.2) := by
  induction ms with
  | nil => rfl
  | cons m ms ih =>
    obtain ⟨k, x⟩ := m
    simp [canonicalizeMembers, ih]

/-- Visiting the sorted keys and looking each up is visiting the sorted members. -/
theorem map_sortedKeys {β γ : Type} {ms : List (String × β)} (hd : (ms.map Prod.fst).Nodup)
    (f : String → Option β → γ) :
    (sortedKeys (ms.map Prod.fst)).map (fun key => f key (ms.lookup key)) =
      (sortMembers utf16 ms).map fun m => f m.1 (some m.2) := by
  rw [sortedKeys, ← map_fst_sortMembers, List.map_map]
  refine List.map_congr_left fun m hm => ?_
  rw [Function.comp_apply, Value.lookup_of_mem hd (mem_sortMembers.mp hm)]

/-- **The broker's canonicalizer computes the RFC 8785 text.** -/
theorem canonicalize_eq_canonical {v : Value} (hd : v.distinct = true) :
    canonicalize v = canonical v := by
  induction v with
  | string s => simp [canonicalize, canonical, writeString_eq]
  | array items ih =>
    simp only [Value.distinct, Value.distinctAll_iff] at hd
    simp only [canonicalize, canonicalizeAll_eq, pushAll_zero, canonical, canonicalAll_eq]
    rw [List.map_congr_left fun x hx => ih x hx (hd x hx)]
  | object members ih =>
    obtain ⟨hnd, hall⟩ := Value.distinct_object.mp hd
    have htexts : members.map (fun m => (m.1, canonicalize m.2)) =
        members.map fun m => (m.1, canonical m.2) :=
      List.map_congr_left fun m hm => by rw [ih m hm (hall m hm)]
    -- with distinct names, looking each sorted key up gives the sorted members
    have hnd' : ((members.map fun m => (m.1, canonical m.2)).map Prod.fst).Nodup := by
      rw [List.map_map]
      exact hnd
    simp only [canonicalize, canonicalizeMembers_eq, htexts, pushAll_zero, canonical,
      canonicalMembers_eq]
    rw [map_sortedKeys hnd' fun key t => writeString key ++ ':' :: t.getD []]
    simp only [writeString_eq, Option.getD_some]
    rfl
  | _ => rfl

theorem distinct_of_wf {v : Value} (h : v.wf = true) : v.distinct = true := by
  induction v with
  | array items ih =>
    simp only [Value.distinct, Value.distinctAll_iff]
    exact fun x hx => ih x hx (Value.wf_array.mp h x hx)
  | object members ih =>
    obtain ⟨hkeys, hall⟩ := Value.wf_object.mp h
    exact Value.distinct_object.mpr ⟨hkeys.imp fun h => ne_of_lt h, fun m hm => ih m hm (hall m hm)⟩
  | _ => rfl

theorem canonicalize_injective {v w : Value} (hv : v.wf = true) (hw : w.wf = true)
    (h : canonicalize v = canonicalize w) : v = w := by
  rw [canonicalize_eq_canonical (distinct_of_wf hv), canonicalize_eq_canonical (distinct_of_wf hw)]
    at h
  exact canonical_injective hv hw h

end McpLocator.Proto
