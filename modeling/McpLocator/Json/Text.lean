import McpLocator.Json.Document

namespace McpLocator.Json

/-!
# Writing and reading JSON texts

* `Point` — a character of a string literal: a scalar value, or a surrogate that was written as an
  escape.  What a surrogate means is left to the reader.
* `render` — a document as a text without white space; `JSON.stringify` and `serde_json::to_string`
  both write this text.
* `parse` — the grammar of RFC 8259, which `JSON.parse` and `serde_json::from_str` share.
* `parse_render` — what is written reads back.
* `Plain`, `printable_render` — an escape is printable ASCII, and a text has no control characters.
-/

/-! ### String literals -/

/-- A character of a string literal; the `i`-th leading or trailing surrogate stands alone. -/
inductive Point where
  | char (c : Char)
  | high (i : Fin 1024)
  | low (i : Fin 1024)
deriving DecidableEq, Repr

/-- The character of two surrogates. -/
def pair (i j : Fin 1024) : Char := Char.ofNat (0x10000 + 1024 * i.val + j.val)

/-- The escape of a code unit. -/
def unitEscape (n : Nat) : List Char :=
  ['\\', 'u', hexDigit (n / 4096), hexDigit (n / 256 % 16), hexDigit (n / 16 % 16), hexDigit (n % 16)]

def Point.escape : Point → List Char
  | .char c => escapeChar c
  | .high i => unitEscape (0xD800 + i.val)
  | .low i => unitEscape (0xDC00 + i.val)

def quotePoints (s : List Point) : List Char := '"' :: s.flatMap Point.escape ++ ['"']

/-- The value of a hexadecimal digit of either case. -/
def hexDigitValue (c : Char) : Option Nat :=
  if c.isDigit then some (c.toNat - '0'.toNat)
  else if 'a' ≤ c ∧ c ≤ 'f' then some (c.toNat - 'a'.toNat + 10)
  else if 'A' ≤ c ∧ c ≤ 'F' then some (c.toNat - 'A'.toNat + 10)
  else none

/-- What the escape of a code unit stands for. -/
def Point.ofUnit (n : Nat) : Point :=
  if 0xD800 ≤ n ∧ n < 0xDC00 then .high (Fin.ofNat 1024 n)
  else if 0xDC00 ≤ n ∧ n < 0xE000 then .low (Fin.ofNat 1024 n)
  else .char (Char.ofNat n)

/-- Four hexadecimal digits. -/
def readUnit (a b c d : Char) : Option Point := do
  let a ← hexDigitValue a
  let b ← hexDigitValue b
  let c ← hexDigitValue c
  let d ← hexDigitValue d
  some (.ofUnit (4096 * a + 256 * b + 16 * c + d))

/-- An escape of one letter. -/
def readShort : Char → Option Char
  | '"' => some '"'
  | '\\' => some '\\'
  | '/' => some '/'
  | 'b' => some '\x08'
  | 'f' => some '\x0c'
  | 'n' => some '\n'
  | 'r' => some '\r'
  | 't' => some '\t'
  | _ => none

/-- A string literal after its opening quote. -/
def readString : List Char → Option (List Point × List Char)
  | '"' :: r => some ([], r)
  | '\\' :: 'u' :: a :: b :: c :: d :: r =>
    (readUnit a b c d).bind fun p => (readString r).map fun s => (p :: s.1, s.2)
  | '\\' :: e :: r => (readShort e).bind fun c => (readString r).map fun s => (.char c :: s.1, s.2)
  | c :: r => if c.toNat < 0x20 then none else (readString r).map fun s => (.char c :: s.1, s.2)
  | [] => none

theorem hexDigitValue_hexDigit {n : Nat} (h : n < 16) : hexDigitValue (hexDigit n) = some n := by
  have key : ∀ m : Fin 16, hexDigitValue (hexDigit m.val) = some m.val := by decide
  exact key ⟨n, h⟩

/-- The escape of a code unit reads as that unit. -/
theorem readString_unitEscape {n : Nat} (h : n < 0x10000) (r : List Char) :
    readString (unitEscape n ++ r) =
      (readString r).map fun s => (Point.ofUnit n :: s.1, s.2) := by
  have hunit : readUnit (hexDigit (n / 4096)) (hexDigit (n / 256 % 16)) (hexDigit (n / 16 % 16))
      (hexDigit (n % 16)) = some (.ofUnit n) := by
    simp only [readUnit, hexDigitValue_hexDigit (show n / 4096 < 16 by omega),
      hexDigitValue_hexDigit (show n / 256 % 16 < 16 by omega),
      hexDigitValue_hexDigit (show n / 16 % 16 < 16 by omega),
      hexDigitValue_hexDigit (show n % 16 < 16 by omega), Option.bind_eq_bind, Option.bind_some]
    rw [show 4096 * (n / 4096) + 256 * (n / 256 % 16) + 16 * (n / 16 % 16) + n % 16 = n by omega]
  rw [unitEscape]
  simp only [List.cons_append, List.nil_append, readString, hunit, Option.bind_some]

theorem readString_escapeChar (c : Char) (r : List Char) :
    readString (escapeChar c ++ r) = (readString r).map fun s => (.char c :: s.1, s.2) := by
  unfold escapeChar
  split_ifs with h1 h2 h3 h4 h5 h6 h7 h8
  · subst h1; rfl
  · subst h2; rfl
  · subst h3; rfl
  · subst h4; rfl
  · subst h5; rfl
  · subst h6; rfl
  · subst h7; rfl
  · -- the digits of a control character's escape start with two zeros
    have hescape := readString_unitEscape (show c.toNat < 0x10000 by omega) r
    rw [unitEscape, show c.toNat / 4096 = 0 by omega, show c.toNat / 256 % 16 = 0 by omega,
      show c.toNat / 16 % 16 = c.toNat / 16 by omega, Point.ofUnit, if_neg (by omega),
      if_neg (by omega), Char.ofNat_toNat] at hescape
    exact hescape
  · rw [List.singleton_append, readString.eq_def]
    split <;> simp_all

theorem readString_escape (p : Point) (r : List Char) :
    readString (p.escape ++ r) = (readString r).map fun s => (p :: s.1, s.2) := by
  cases p with
  | char c => exact readString_escapeChar c r
  | high i =>
    have hunit : Point.ofUnit (0xD800 + i.val) = .high i := by
      rw [Point.ofUnit, if_pos (by omega)]
      exact congrArg Point.high (Fin.ext (by simp; omega))
    rw [Point.escape, readString_unitEscape (by omega), hunit]
  | low i =>
    have hunit : Point.ofUnit (0xDC00 + i.val) = .low i := by
      rw [Point.ofUnit, if_neg (by omega), if_pos (by omega)]
      exact congrArg Point.low (Fin.ext (by simp; omega))
    rw [Point.escape, readString_unitEscape (by omega), hunit]

/-- **String literals read back.** -/
theorem readString_quotePoints (s : List Point) (r : List Char) :
    readString (s.flatMap Point.escape ++ '"' :: r) = some (s, r) := by
  induction s with
  | nil => rfl
  | cons p s ih =>
    rw [List.flatMap_cons, List.append_assoc, readString_escape, ih]
    rfl

/-! ### Writing -/

/-- A member of an object, given the text of its value. -/
def memberOf (m : List Point × List Char) : List Char := quotePoints m.1 ++ ':' :: m.2

/-- The text of a document. -/
def render : Document (List Point) → List Char :=
  Document.fold ⟨"null".toList, fun b => if b then "true".toList else "false".toList, Literal.text,
    quotePoints, fun ts => '[' :: commaSep ts ++ [']'],
    fun ms => '{' :: commaSep (ms.map memberOf) ++ ['}']⟩

theorem render_array (items : List (Document (List Point))) :
    render (.array items) = '[' :: commaSep (items.map render) ++ [']'] :=
  Document.fold_array _ items

theorem render_object (members : List (List Point × Document (List Point))) :
    render (.object members) =
      '{' :: commaSep (members.map fun m => memberOf (m.1, render m.2)) ++ ['}'] := by
  have hmap : (members.map fun m => (m.1, render m.2)).map memberOf =
      members.map fun m => memberOf (m.1, render m.2) := List.map_map
  rw [← hmap]
  exact Document.fold_object _ members

/-! ### The characters of a text -/

/-- ASCII, and no control character. -/
def Plain (c : Char) : Prop := 0x20 ≤ c.toNat ∧ c.toNat < 0x80

instance (c : Char) : Decidable (Plain c) := inferInstanceAs (Decidable (_ ∧ _))

/-- The list is searched, not the type of characters. -/
instance (priority := 2000) decidableForallChar (P : Char → Prop) [DecidablePred P]
    (cs : List Char) : Decidable (∀ c ∈ cs, P c) := List.decidableBAll P cs

theorem plain_of_isNumberChar {c : Char} (h : isNumberChar c = true) : Plain c := by
  simp only [isNumberChar, Char.isDigit, Bool.or_eq_true, Bool.and_eq_true, decide_eq_true_eq,
    beq_iff_eq] at h
  rcases h with ((((h | rfl) | rfl) | rfl) | rfl) | rfl
  · have hlow : 48 ≤ c.toNat := UInt32.le_iff_toNat_le.mp h.1
    have hhigh : c.toNat ≤ 57 := UInt32.le_iff_toNat_le.mp h.2
    exact ⟨by omega, by omega⟩
  all_goals decide

theorem plain_hexDigit {n : Nat} (h : n < 16) : Plain (hexDigit n) := by
  have key : ∀ m : Fin 16, Plain (hexDigit m.val) := by decide
  exact key ⟨n, h⟩

theorem plain_unitEscape {n : Nat} (h : n < 0x10000) : ∀ c ∈ unitEscape n, Plain c := by
  simp only [unitEscape, List.forall_mem_cons]
  exact ⟨by decide, by decide, plain_hexDigit (by omega), plain_hexDigit (by omega),
    plain_hexDigit (by omega), plain_hexDigit (by omega), nofun⟩

/-- What is escaped is plain, and what is not stands for itself. -/
theorem escapeChar_cases (c : Char) : escapeChar c = [c] ∧ 0x20 ≤ c.toNat ∨
    c.toNat < 0x80 ∧ ∀ d ∈ escapeChar c, Plain d := by
  unfold escapeChar
  split_ifs with h1 h2 h3 h4 h5 h6 h7 h8
  · subst h1; exact .inr (by decide)
  · subst h2; exact .inr (by decide)
  · subst h3; exact .inr (by decide)
  · subst h4; exact .inr (by decide)
  · subst h5; exact .inr (by decide)
  · subst h6; exact .inr (by decide)
  · subst h7; exact .inr (by decide)
  · refine .inr ⟨by omega, ?_⟩
    simp only [List.forall_mem_cons]
    exact ⟨by decide, by decide, by decide, by decide, plain_hexDigit (by omega),
      plain_hexDigit (by omega), nofun⟩
  · exact .inl ⟨rfl, Nat.le_of_not_lt h8⟩

theorem escape_cases (p : Point) : (∃ c, p = .char c ∧ p.escape = [c] ∧ 0x20 ≤ c.toNat) ∨
    ∀ c ∈ p.escape, Plain c := by
  cases p with
  | char c =>
    rcases escapeChar_cases c with h | ⟨-, h⟩
    · exact .inl ⟨c, rfl, h⟩
    · exact .inr h
  | high i => exact .inr (plain_unitEscape (by omega))
  | low i => exact .inr (plain_unitEscape (by omega))

/-- No control character is in a literal as it is. -/
theorem printable_escape (p : Point) : ∀ d ∈ p.escape, 0x20 ≤ d.toNat := by
  rcases escape_cases p with ⟨c, -, hc, hle⟩ | hplain
  · rw [hc]
    exact List.forall_mem_singleton.mpr hle
  · exact fun d hd => (hplain d hd).1

theorem printable_quotePoints (s : List Point) : ∀ d ∈ quotePoints s, 0x20 ≤ d.toNat := by
  simp only [quotePoints, List.cons_append, List.forall_mem_cons, List.forall_mem_append]
  refine ⟨by decide, fun d hd => ?_, by decide⟩
  obtain ⟨p, -, hp⟩ := List.mem_flatMap.mp hd
  exact printable_escape p d hp

theorem printable_commaSep {ts : List (List Char)} (h : ∀ t ∈ ts, ∀ d ∈ t, 0x20 ≤ d.toNat) :
    ∀ d ∈ commaSep ts, 0x20 ≤ d.toNat := by
  have htail : ∀ ts : List (List Char), (∀ t ∈ ts, ∀ d ∈ t, 0x20 ≤ d.toNat) →
      ∀ d ∈ commaTail ts, 0x20 ≤ d.toNat := by
    intro ts h d hd
    obtain ⟨t, ht, hd⟩ := List.mem_flatMap.mp hd
    rcases List.mem_cons.mp hd with rfl | hd
    · decide
    · exact h t ht d hd
  cases ts with
  | nil => nofun
  | cons t ts =>
    rw [List.forall_mem_cons] at h
    exact List.forall_mem_append.mpr ⟨h.1, htail ts h.2⟩

/-- **A text has no control characters in it**, so it is one line. -/
theorem printable_render (t : Document (List Point)) : ∀ d ∈ render t, 0x20 ≤ d.toNat := by
  induction t with
  | null => decide
  | bool b => cases b <;> decide
  | number l => exact fun d hd => (plain_of_isNumberChar (l.isNumberChar_text d hd)).1
  | string s => exact printable_quotePoints s
  | array items ih =>
    have hitems : ∀ d ∈ commaSep (items.map render), 0x20 ≤ d.toNat :=
      printable_commaSep (List.forall_mem_map.mpr ih)
    rw [render_array]
    simp only [List.cons_append, List.forall_mem_cons, List.forall_mem_append]
    exact ⟨by decide, hitems, by decide⟩
  | object members ih =>
    have hmembers : ∀ d ∈ commaSep (members.map fun m => memberOf (m.1, render m.2)),
        0x20 ≤ d.toNat := by
      refine printable_commaSep (List.forall_mem_map.mpr fun m hm => ?_)
      simp only [memberOf, List.forall_mem_append, List.forall_mem_cons]
      exact ⟨printable_quotePoints m.1, by decide, ih m hm⟩
    rw [render_object]
    simp only [List.cons_append, List.forall_mem_cons, List.forall_mem_append]
    exact ⟨by decide, hmembers, by decide⟩

theorem newline_not_mem_render (t : Document (List Point)) : '\n' ∉ render t := fun h =>
  absurd (printable_render t _ h) (by decide)

/-! ### Reading -/

/-- White space between tokens. -/
def isBlank (c : Char) : Bool := c == ' ' || c == '\t' || c == '\n' || c == '\r'

def skipBlanks (cs : List Char) : List Char := cs.dropWhile isBlank

/-- The rest of a keyword. -/
def expect : List Char → List Char → Option (List Char)
  | [], r => some r
  | c :: word, d :: r => if c = d then expect word r else none
  | _ :: _, [] => none

/-- A number, as far as number characters go. -/
def readNumber (cs : List Char) : Option (Literal × List Char) :=
  if h : isLiteral (cs.takeWhile isNumberChar) = true then
    some (⟨cs.takeWhile isNumberChar, h⟩, cs.dropWhile isNumberChar)
  else none

section Lists

variable {α : Type} (read : List Char → Option (α × List Char)) (close : Char)

/-- Elements up to a closing bracket, one at least; `n` bounds how many. -/
def readElements : Nat → List Char → Option (List α × List Char)
  | 0, _ => none
  | n + 1, cs =>
    match read cs with
    | none => none
    | some (x, r) =>
      match skipBlanks r with
      | [] => none
      | c :: r =>
        if c = ',' then (readElements n r).map fun xs => (x :: xs.1, xs.2)
        else if c = close then some ([x], r)
        else none

/-- Elements up to a closing bracket. -/
def readList (n : Nat) (cs : List Char) : Option (List α × List Char) :=
  match skipBlanks cs with
  | [] => none
  | c :: r => if c = close then some ([], r) else readElements read close n (c :: r)

/-- A member of an object. -/
def readMember (cs : List Char) : Option ((List Point × α) × List Char) :=
  match skipBlanks cs with
  | '"' :: r =>
    (readString r).bind fun k =>
      match skipBlanks k.2 with
      | ':' :: r => (read r).map fun x => ((k.1, x.1), x.2)
      | _ => none
  | _ => none

end Lists

/-- What starts with `c` and goes on with `r`, given what kind of value `c` starts. -/
def readKind (read : List Char → Option (Document (List Point) × List Char)) (n : Nat) (c : Char)
    (r : List Char) : Kind → Option (Document (List Point) × List Char)
  | .null => (expect ['u', 'l', 'l'] r).map fun r => (.null, r)
  | .true => (expect ['r', 'u', 'e'] r).map fun r => (.bool true, r)
  | .false => (expect ['a', 'l', 's', 'e'] r).map fun r => (.bool false, r)
  | .number => (readNumber (c :: r)).map fun n => (.number n.1, n.2)
  | .string => (readString r).map fun s => (.string s.1, s.2)
  | .array => (readList read ']' n r).map fun items => (.array items.1, items.2)
  | .object => (readList (readMember read) '}' n r).map fun members => (.object members.1, members.2)
  | .other => none

/-- A value at the front of a text; `n` bounds how deep it is nested and how long its lists are. -/
def readValue : Nat → List Char → Option (Document (List Point) × List Char)
  | 0, _ => none
  | n + 1, cs =>
    match skipBlanks cs with
    | [] => none
    | c :: r => readKind (readValue n) n c r (kindOfHead c)

/-- The document of a text.  No text nests deeper, or has a longer list, than it has characters. -/
def parse (cs : List Char) : Option (Document (List Point)) :=
  match readValue (cs.length + 1) cs with
  | some (t, r) => if skipBlanks r = [] then some t else none
  | none => none

/-! ### What is written reads back -/

theorem skipBlanks_of_not {c : Char} (h : isBlank c = false) (r : List Char) :
    skipBlanks (c :: r) = c :: r := by
  rw [skipBlanks, List.dropWhile_cons_of_neg (by simp [h])]

theorem expect_append (word r : List Char) : expect word (word ++ r) = some r := by
  induction word with
  | nil => cases r <;> rfl
  | cons c word ih => rw [List.cons_append, expect, if_pos rfl, ih]

theorem readNumber_text (l : Literal) {r : List Char} (hr : Stops r) :
    readNumber (l.text ++ r) = some (l, r) := by
  have hrun : (l.text ++ r).takeWhile isNumberChar = l.text := by
    rw [List.takeWhile_append_of_pos l.isNumberChar_text]
    cases r with
    | nil => simp
    | cons c r => simp [hr c (by simp)]
  have hrest : (l.text ++ r).dropWhile isNumberChar = r := by
    rw [List.dropWhile_append_of_pos l.isNumberChar_text]
    cases r with
    | nil => rfl
    | cons c r => rw [List.dropWhile_cons_of_neg (by simp [hr c (by simp)])]
  unfold readNumber
  simp only [hrun, hrest, l.valid, dite_true]

section Lists

variable {α : Type} {read : List Char → Option (α × List Char)} {close : Char}
  {enc : α → List Char} {xs : List α}

/-- The text of elements, the first one taken off. -/
theorem commaSep_cons (t : List Char) (ts : List (List Char)) (r : List Char) :
    commaSep (t :: ts) ++ r = t ++ (commaTail ts ++ r) :=
  List.append_assoc ..

theorem commaTail_cons (t : List Char) (ts : List (List Char)) (r : List Char) :
    commaTail (t :: ts) ++ r = ',' :: (commaSep (t :: ts) ++ r) := by
  simp [commaTail, commaSep]

theorem readElements_succ {n : Nat} {cs r r' : List Char} {x : α} {c : Char}
    (hx : read cs = some (x, r)) (hr : skipBlanks r = c :: r') :
    readElements read close (n + 1) cs =
      if c = ',' then (readElements read close n r').map fun xs => (x :: xs.1, xs.2)
      else if c = close then some ([x], r')
      else none := by
  simp only [readElements, hx, hr]

theorem readList_of_skip {n : Nat} {cs r : List Char} {c : Char} (h : skipBlanks cs = c :: r) :
    readList read close n cs =
      if c = close then some ([], r) else readElements read close n (c :: r) := by
  simp only [readList, h]

variable (hcomma : close ≠ ',') (hblank : isBlank close = false)
  (hnumber : isNumberChar close = false)
  (hread : ∀ x ∈ xs, ∀ r, Stops r → read (enc x ++ r) = some (x, r))

include hcomma hblank hnumber hread

theorem readElements_commaSep (hne : xs ≠ []) {n : Nat} (hn : xs.length ≤ n) (r : List Char) :
    readElements read close n (commaSep (xs.map enc) ++ close :: r) = some (xs, r) := by
  induction xs generalizing n with
  | nil => exact absurd rfl hne
  | cons x xs ih =>
    obtain _ | n := n
    · exact absurd hn (by simp)
    rw [List.length_cons, Nat.add_le_add_iff_right] at hn
    rw [List.forall_mem_cons] at hread
    rw [List.map_cons, commaSep_cons]
    have hx := hread.1 _ (stops_commaTail hnumber (xs.map enc) r)
    cases xs with
    | nil => rw [readElements_succ hx (skipBlanks_of_not hblank r), if_neg hcomma, if_pos rfl]
    | cons y ys =>
      -- the text goes on with a comma and the elements after the first
      rw [List.map_cons, commaTail_cons] at hx ⊢
      rw [readElements_succ hx (skipBlanks_of_not (by decide) _), if_pos rfl, ← List.map_cons,
        ih hread.2 (by simp) hn]
      rfl

/-- **Lists read back.** -/
theorem readList_commaSep (hhead : ∀ x, ∃ c t, enc x = c :: t ∧ isBlank c = false ∧ c ≠ close)
    {n : Nat} (hn : xs.length ≤ n) (r : List Char) :
    readList read close n (commaSep (xs.map enc) ++ close :: r) = some (xs, r) := by
  cases xs with
  | nil =>
    rw [List.map_nil, commaSep, List.nil_append, readList_of_skip (skipBlanks_of_not hblank r),
      if_pos rfl]
  | cons x xs =>
    have helements := readElements_commaSep hcomma hblank hnumber hread (by simp) hn r
    obtain ⟨c, t, hc, hnotblank, hclose⟩ := hhead x
    rw [List.map_cons, commaSep_cons, hc, List.cons_append] at helements ⊢
    rw [readList_of_skip (skipBlanks_of_not hnotblank _), if_neg hclose, helements]

end Lists

/-- How much `readValue` needs for a document. -/
def Document.extent {σ : Type} : Document σ → Nat :=
  fold ⟨1, fun _ => 1, fun _ => 1, fun _ => 1, fun ns => (ns.map (· + 1)).sum + 1,
    fun ms => (ms.map fun m => m.2 + 1).sum + 1⟩

theorem Document.extent_array {σ : Type} (items : List (Document σ)) :
    (array items).extent = (items.map fun x => x.extent + 1).sum + 1 :=
  (Document.fold_array _ items).trans (congrArg (·.sum + 1) List.map_map)

theorem Document.extent_object {σ : Type} (members : List (σ × Document σ)) :
    (object members).extent = (members.map fun m => m.2.extent + 1).sum + 1 :=
  (Document.fold_object _ members).trans (congrArg (·.sum + 1) List.map_map)

theorem Document.extent_pos {σ : Type} (t : Document σ) : 0 < t.extent := by
  cases t with
  | null | bool | number | string => exact Nat.one_pos
  | array items => rw [extent_array]; omega
  | object members => rw [extent_object]; omega

theorem le_sum_map {α : Type} (f : α → Nat) {xs : List α} {x : α} (h : x ∈ xs) :
    f x ≤ (xs.map f).sum :=
  List.le_sum_of_mem (List.mem_map_of_mem h)

theorem length_le_sum_succ {α : Type} (f : α → Nat) (xs : List α) :
    xs.length ≤ (xs.map fun x => f x + 1).sum := by
  induction xs with
  | nil => simp
  | cons x xs ih =>
    rw [List.map_cons, List.sum_cons, List.length_cons]
    omega

theorem isBlank_of_plain {c : Char} (h : Plain c) (hne : c ≠ ' ') : isBlank c = false := by
  rw [Bool.eq_false_iff]
  intro hblank
  simp only [isBlank, Bool.or_eq_true, beq_iff_eq] at hblank
  rcases hblank with ((rfl | rfl) | rfl) | rfl
  · exact hne rfl
  all_goals exact absurd h (by decide)

/-- No text starts with white space or a closing bracket. -/
theorem render_head (t : Document (List Point)) :
    ∃ c u, render t = c :: u ∧ Plain c ∧ c ≠ ' ' ∧ c ≠ ']' := by
  cases t with
  | null => exact ⟨'n', _, rfl, by decide⟩
  | bool b =>
    cases b with
    | false => exact ⟨'f', _, rfl, by decide⟩
    | true => exact ⟨'t', _, rfl, by decide⟩
  | number l =>
    obtain ⟨c, u, hu, hc⟩ := l.text_head
    have hplain := plain_of_isNumberChar (l.isNumberChar_text c (hu ▸ List.mem_cons_self))
    exact ⟨c, u, hu, hplain, by rintro rfl; exact absurd hc (by decide),
      by rintro rfl; exact absurd hc (by decide)⟩
  | string s => exact ⟨'"', _, rfl, by decide⟩
  | array items => exact ⟨'[', _, render_array items, by decide⟩
  | object members => exact ⟨'{', _, render_object members, by decide⟩

/-- A member reads back if its value does. -/
theorem readMember_memberOf {read : List Char → Option (Document (List Point) × List Char)}
    {m : List Point × Document (List Point)} {r : List Char}
    (h : read (render m.2 ++ r) = some (m.2, r)) :
    readMember read (memberOf (m.1, render m.2) ++ r) = some (m, r) := by
  have hkey : readString (m.1.flatMap Point.escape ++ '"' :: ':' :: (render m.2 ++ r)) =
      some (m.1, ':' :: (render m.2 ++ r)) :=
    readString_quotePoints _ _
  have htext : memberOf (m.1, render m.2) ++ r =
      '"' :: (m.1.flatMap Point.escape ++ '"' :: ':' :: (render m.2 ++ r)) := by
    simp [memberOf, quotePoints]
  rw [htext, readMember, skipBlanks_of_not (by decide)]
  simp only [hkey, Option.bind_some, skipBlanks_of_not (show isBlank ':' = false by decide), h,
    Option.map_some]

theorem readValue_cons {n : Nat} {c : Char} {k : Kind} (hc : isBlank c = false)
    (hk : kindOfHead c = k) (r : List Char) :
    readValue (n + 1) (c :: r) = readKind (readValue n) n c r k := by
  rw [← hk, readValue, skipBlanks_of_not hc]

/-- **A document reads back from the front of any text that does not continue a number.** -/
theorem readValue_render (t : Document (List Point)) {n : Nat} (hn : t.extent ≤ n) {r : List Char}
    (hr : Stops r) : readValue n (render t ++ r) = some (t, r) := by
  -- arrays and objects read their parts with less fuel
  induction t generalizing n r with
  | null =>
    obtain _ | n := n
    · exact absurd hn (Nat.not_le_of_lt (Document.extent_pos _))
    show readValue (n + 1) ('n' :: (['u', 'l', 'l'] ++ r)) = _
    rw [readValue_cons (by decide) (show kindOfHead 'n' = .null by decide), readKind, expect_append,
      Option.map_some]
  | bool b =>
    obtain _ | n := n
    · exact absurd hn (Nat.not_le_of_lt (Document.extent_pos _))
    cases b with
    | false =>
      show readValue (n + 1) ('f' :: (['a', 'l', 's', 'e'] ++ r)) = _
      rw [readValue_cons (by decide) (show kindOfHead 'f' = .false by decide), readKind,
        expect_append, Option.map_some]
    | true =>
      show readValue (n + 1) ('t' :: (['r', 'u', 'e'] ++ r)) = _
      rw [readValue_cons (by decide) (show kindOfHead 't' = .true by decide), readKind,
        expect_append, Option.map_some]
  | number l =>
    obtain _ | n := n
    · exact absurd hn (Nat.not_le_of_lt (Document.extent_pos _))
    have hread := readNumber_text l hr
    obtain ⟨c, u, hu, hplain, hne, -⟩ := render_head (.number l)
    obtain ⟨c', u', hu', hc'⟩ := l.text_head
    have htext : render (.number l) = l.text := rfl
    obtain ⟨rfl, rfl⟩ := List.cons.inj (hu.symm.trans (htext.trans hu'))
    rw [hu', List.cons_append] at hread
    rw [hu, List.cons_append, readValue_cons (isBlank_of_plain hplain hne) (kindOfHead_number hc'), readKind, hread,
      Option.map_some]
  | string s =>
    obtain _ | n := n
    · exact absurd hn (Nat.not_le_of_lt (Document.extent_pos _))
    have htext : render (.string s) ++ r = '"' :: (s.flatMap Point.escape ++ '"' :: r) := by
      show quotePoints s ++ r = _
      simp [quotePoints]
    rw [htext, readValue_cons (by decide) (show kindOfHead '"' = .string by decide), readKind,
      readString_quotePoints, Option.map_some]
  | array items ih =>
    obtain _ | n := n
    · exact absurd hn (Nat.not_le_of_lt (Document.extent_pos _))
    rw [Document.extent_array] at hn
    have hlength := length_le_sum_succ Document.extent items
    have hitems : readList (readValue n) ']' n (commaSep (items.map render) ++ ']' :: r) =
        some (items, r) := by
      refine readList_commaSep (by decide) (by decide) (by decide) (fun x hx r hr => ?_)
        (fun x => ?_) (by omega) r
      · have := le_sum_map (fun x : Document (List Point) => x.extent + 1) hx
        exact ih x hx (by omega) hr
      · obtain ⟨c, u, hu, hplain, hne, hclose⟩ := render_head x
        exact ⟨c, u, hu, isBlank_of_plain hplain hne, hclose⟩
    have htext : render (.array items) ++ r = '[' :: (commaSep (items.map render) ++ ']' :: r) := by
      rw [render_array]
      simp
    rw [htext, readValue_cons (by decide) (show kindOfHead '[' = .array by decide), readKind, hitems,
      Option.map_some]
  | object members ih =>
    obtain _ | n := n
    · exact absurd hn (Nat.not_le_of_lt (Document.extent_pos _))
    rw [Document.extent_object] at hn
    have hlength := length_le_sum_succ (fun m : List Point × Document (List Point) => m.2.extent) members
    have hmembers : readList (readMember (readValue n)) '}' n
        (commaSep (members.map fun m => memberOf (m.1, render m.2)) ++ '}' :: r) =
        some (members, r) := by
      refine readList_commaSep (by decide) (by decide) (by decide) ?_
        (fun m => ⟨'"', _, rfl, by decide⟩) (by omega) r
      intro m hm r hr
      have := le_sum_map (fun m : List Point × Document (List Point) => m.2.extent + 1) hm
      exact readMember_memberOf (ih m hm (by omega) hr)
    have htext : render (.object members) ++ r =
        '{' :: (commaSep (members.map fun m => memberOf (m.1, render m.2)) ++ '}' :: r) := by
      rw [render_object]
      simp
    rw [htext, readValue_cons (by decide) (show kindOfHead '{' = .object by decide), readKind,
      hmembers, Option.map_some]

theorem sum_le_length_commaSep {α : Type} {f : α → Nat} {enc : α → List Char} {xs : List α}
    (h : ∀ x ∈ xs, f x ≤ (enc x).length) :
    (xs.map fun x => f x + 1).sum ≤ (commaSep (xs.map enc)).length + 1 := by
  have htail : ∀ ts : List (List Char), (commaTail ts).length = (ts.map fun t => t.length + 1).sum :=
    fun ts => by simp [commaTail, List.length_flatMap]
  have hsum : (xs.map fun x => f x + 1).sum ≤ (xs.map fun x => (enc x).length + 1).sum :=
    List.sum_le_sum fun x hx => Nat.succ_le_succ (h x hx)
  cases xs with
  | nil => simp
  | cons x xs =>
    have hrest := htail (xs.map enc)
    rw [List.map_map] at hrest
    simp only [List.map_cons, List.sum_cons, commaSep, List.length_append] at hsum ⊢
    rw [hrest]
    simp only [Function.comp_def]
    omega

/-- A text has the characters that reading it needs. -/
theorem extent_le_length (t : Document (List Point)) : t.extent ≤ (render t).length := by
  induction t with
  | null | bool | number | string =>
    obtain ⟨c, u, hu, -⟩ := render_head _
    rw [hu]
    exact Nat.succ_le_succ (Nat.zero_le _)
  | array items ih =>
    have hitems := sum_le_length_commaSep ih
    rw [Document.extent_array, render_array]
    simp only [List.length_append, List.length_cons, List.length_nil]
    omega
  | object members ih =>
    have hmembers : (members.map fun m => m.2.extent + 1).sum ≤
        (commaSep (members.map fun m => memberOf (m.1, render m.2))).length + 1 := by
      refine sum_le_length_commaSep fun m hm => (ih m hm).trans ?_
      simp only [memberOf, List.length_append, List.length_cons]
      omega
    rw [Document.extent_object, render_object]
    simp only [List.length_append, List.length_cons, List.length_nil]
    omega

/-- **What is written reads back.** -/
theorem parse_render (t : Document (List Point)) : parse (render t) = some t := by
  have h := readValue_render t (Nat.le_succ_of_le (extent_le_length t)) stops_nil
  rw [List.append_nil] at h
  rw [parse, h]
  exact if_pos rfl

end McpLocator.Json
