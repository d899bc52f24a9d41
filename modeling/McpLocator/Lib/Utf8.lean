import Mathlib.Data.List.Basic

namespace McpLocator.Utf8

/-!
# Decoding UTF-8 in chunks

`Buffer.toString()` decodes what it is given on its own and writes U+FFFD for what is ill-formed.

* `decode` — a machine that reads a byte at a time; a byte that cannot go on with the sequence begun
  ends it with one U+FFFD.
* `decode_encodeChar` — an encoded character reads back.
* `Smudged` — a text with some of its characters outside ASCII replaced by several U+FFFD each.
* `decodeChunks_of_encode` — decoding an encoded text in chunks smudges it, and leaves it as it is
  exactly when no chunk starts with a continuation byte.
-/

/-! ### The decoder -/

/-- U+FFFD. -/
def replacement : Char := '\uFFFD'

/-- A sequence begun: how many bytes are missing, the bounds of the next one, and the bits so far. -/
structure Begun where
  missing : Nat
  lower : Nat
  upper : Nat
  bits : Nat

/-- A byte between sequences: what is written, and the sequence begun. -/
def start (b : Nat) : List Char × Option Begun :=
  if b ≤ 0x7F then ([Char.ofNat b], none)
  else if 0xC2 ≤ b ∧ b ≤ 0xDF then ([], some ⟨1, 0x80, 0xBF, b - 0xC0⟩)
  else if 0xE0 ≤ b ∧ b ≤ 0xEF then
    ([], some ⟨2, if b = 0xE0 then 0xA0 else 0x80, if b = 0xED then 0x9F else 0xBF, b - 0xE0⟩)
  else if 0xF0 ≤ b ∧ b ≤ 0xF4 then
    ([], some ⟨3, if b = 0xF0 then 0x90 else 0x80, if b = 0xF4 then 0x8F else 0xBF, b - 0xF0⟩)
  else ([replacement], none)

/-- The next byte: what is written, and the sequence begun after it. -/
def step : Option Begun → Nat → List Char × Option Begun
  | none, b => start b
  | some s, b =>
    if s.lower ≤ b ∧ b ≤ s.upper then
      if s.missing = 1 then ([Char.ofNat (0x40 * s.bits + (b - 0x80))], none)
      else ([], some ⟨s.missing - 1, 0x80, 0xBF, 0x40 * s.bits + (b - 0x80)⟩)
    else (replacement :: (start b).1, (start b).2)

def decodeFrom : Option Begun → List UInt8 → List Char
  | s, [] => if s.isSome then [replacement] else []
  | s, b :: bs => (step s b.toNat).1 ++ decodeFrom (step s b.toNat).2 bs

/-- `Buffer.toString()` -/
def decode (bs : List UInt8) : List Char := decodeFrom none bs

/-- A text as UTF-8. -/
def encode (cs : List Char) : List UInt8 := cs.flatMap String.utf8EncodeChar

/-- `10xxxxxx` -/
def isContinuation (b : UInt8) : Bool := 0x80 ≤ b.toNat && b.toNat ≤ 0xBF

/-! ### Encoded characters -/

theorem decodeFrom_cons (s : Option Begun) (b : UInt8) (bs : List UInt8) :
    decodeFrom s (b :: bs) = (step s b.toNat).1 ++ decodeFrom (step s b.toNat).2 bs := rfl

theorem toNat_byte {n : Nat} (h : n < 256) : (UInt8.ofNat n).toNat = n :=
  UInt8.toNat_ofNat_of_lt' h

theorem isContinuation_byte {n : Nat} (h : n < 64) :
    isContinuation (UInt8.ofNat (n + 0x80)) = true := by
  rw [isContinuation, toNat_byte (by omega), Bool.and_eq_true, decide_eq_true_eq, decide_eq_true_eq]
  omega

/-- A byte within the bounds goes on with the sequence. -/
theorem step_within {s : Begun} {b : Nat} (h : s.lower ≤ b ∧ b ≤ s.upper) (hm : s.missing ≠ 1) :
    step (some s) b = ([], some ⟨s.missing - 1, 0x80, 0xBF, 0x40 * s.bits + (b - 0x80)⟩) := by
  rw [step, if_pos h, if_neg hm]

theorem step_last {s : Begun} {b : Nat} (h : s.lower ≤ b ∧ b ≤ s.upper) (hm : s.missing = 1) :
    step (some s) b = ([Char.ofNat (0x40 * s.bits + (b - 0x80))], none) := by
  rw [step, if_pos h, if_pos hm]

/-- The bytes of a character: all but the last write nothing, all but the first are continuation
    bytes. -/
inductive Spells : Option Begun → List UInt8 → Char → Prop where
  | last {s : Option Begun} {b : UInt8} {c : Char} (h : step s b.toNat = ([c], none)) :
      Spells s [b] c
  | more {s : Option Begun} {s' : Begun} {b : UInt8} {bs : List UInt8} {c : Char}
      (h : step s b.toNat = ([], some s')) (hcont : ∀ b' ∈ bs, isContinuation b' = true)
      (hbs : Spells (some s') bs c) : Spells s (b :: bs) c

theorem spells_one {c : Char} (h : c.toNat ≤ 0x7F) : Spells none [UInt8.ofNat c.toNat] c := by
  refine .last ?_
  rw [toNat_byte (by omega), step, start, if_pos h, Char.ofNat_toNat]

/-- The last byte of a sequence whose bits are those of the character. -/
theorem spells_last {c : Char} {bits lower upper : Nat} {b : Nat} (hb : b < 64)
    (hl : lower ≤ b + 0x80) (hu : b + 0x80 ≤ upper) (hc : 0x40 * bits + b = c.toNat) :
    Spells (some ⟨1, lower, upper, bits⟩) [UInt8.ofNat (b + 0x80)] c := by
  refine .last ?_
  rw [toNat_byte (by omega), step_last ⟨hl, hu⟩ rfl, Nat.add_sub_cancel, hc, Char.ofNat_toNat]

/-- One more byte of a sequence. -/
theorem spells_more {c : Char} {missing bits lower upper : Nat} {b : Nat} {bs : List UInt8}
    (hb : b < 64) (hl : lower ≤ b + 0x80) (hu : b + 0x80 ≤ upper) (hm : missing ≠ 0)
    (hcont : ∀ b' ∈ bs, isContinuation b' = true)
    (h : Spells (some ⟨missing, 0x80, 0xBF, 0x40 * bits + b⟩) bs c) :
    Spells (some ⟨missing + 1, lower, upper, bits⟩) (UInt8.ofNat (b + 0x80) :: bs) c := by
  refine .more ?_ hcont h
  rw [toNat_byte (by omega), step_within ⟨hl, hu⟩ (show missing + 1 ≠ 1 by omega),
    Nat.add_sub_cancel, Nat.add_sub_cancel]

theorem start_two {n : Nat} (h : 2 ≤ n) (hn : n < 32) :
    start (n + 0xC0) = ([], some ⟨1, 0x80, 0xBF, n⟩) := by
  rw [start, if_neg (by omega), if_pos (by omega), Nat.add_sub_cancel]

theorem start_three {n : Nat} (h : n < 16) : start (n + 0xE0) =
    ([], some ⟨2, if n = 0 then 0xA0 else 0x80, if n = 13 then 0x9F else 0xBF, n⟩) := by
  rw [start, if_neg (by omega), if_neg (by omega), if_pos (by omega), Nat.add_sub_cancel]
  simp

theorem start_four {n : Nat} (h : n < 5) : start (n + 0xF0) =
    ([], some ⟨3, if n = 0 then 0x90 else 0x80, if n = 4 then 0x8F else 0xBF, n⟩) := by
  rw [start, if_neg (by omega), if_neg (by omega), if_neg (by omega), if_pos (by omega),
    Nat.add_sub_cancel]
  simp

theorem spells_encodeChar (c : Char) : Spells none (String.utf8EncodeChar c) c := by
  have hvalid := c.valid
  simp only [UInt32.isValidChar, Nat.isValidChar] at hvalid
  have hval : c.val.toNat = c.toNat := rfl
  rw [hval] at hvalid
  have hcont : ∀ n, isContinuation (UInt8.ofNat (n % 0x40 + 0x80)) = true := fun n =>
    isContinuation_byte (Nat.mod_lt _ (by decide))
  have hone : ∀ n, ∀ b ∈ [UInt8.ofNat (n % 0x40 + 0x80)], isContinuation b = true := fun n =>
    List.forall_mem_singleton.mpr (hcont n)
  have htwo : ∀ m n, ∀ b ∈ [UInt8.ofNat (m % 0x40 + 0x80), UInt8.ofNat (n % 0x40 + 0x80)],
      isContinuation b = true := fun m n => List.forall_mem_cons.mpr ⟨hcont m, hone n⟩
  unfold String.utf8EncodeChar
  simp only [hval]
  split
  · rename_i h
    exact spells_one h
  split
  · refine .more ?_ (hone _)
      (spells_last (by omega) (show 0x80 ≤ _ by omega) (show _ ≤ 0xBF by omega)
        (show 0x40 * (c.toNat / 64) + _ = _ by omega))
    rw [toNat_byte (by omega), Nat.mod_eq_of_lt (by omega)]
    exact start_two (by omega) (by omega)
  split
  · have hlast : Spells (some ⟨1, 0x80, 0xBF, 0x40 * (c.toNat / 4096) + c.toNat / 64 % 0x40⟩)
        [UInt8.ofNat (c.toNat % 0x40 + 0x80)] c :=
      spells_last (by omega) (by omega) (by omega) (by omega)
    refine .more ?_ (htwo _ _) (spells_more (by omega)
      (show (if c.toNat / 4096 = 0 then 0xA0 else 0x80) ≤ _ by split <;> omega)
      (show _ ≤ (if c.toNat / 4096 = 13 then 0x9F else 0xBF) by split <;> omega) (by decide)
      (hone _) hlast)
    rw [toNat_byte (by omega), Nat.mod_eq_of_lt (by omega)]
    exact start_three (by omega)
  · have hlast : Spells (some ⟨1, 0x80, 0xBF,
        0x40 * (0x40 * (c.toNat / 262144) + c.toNat / 4096 % 0x40) + c.toNat / 64 % 0x40⟩)
        [UInt8.ofNat (c.toNat % 0x40 + 0x80)] c :=
      spells_last (by omega) (by omega) (by omega) (by omega)
    have hmore : Spells (some ⟨2, 0x80, 0xBF, 0x40 * (c.toNat / 262144) + c.toNat / 4096 % 0x40⟩)
        [UInt8.ofNat (c.toNat / 64 % 0x40 + 0x80), UInt8.ofNat (c.toNat % 0x40 + 0x80)] c :=
      spells_more (by omega) (by omega) (by omega) (by decide) (hone _) hlast
    refine .more ?_ (List.forall_mem_cons.mpr ⟨hcont _, htwo _ _⟩) (spells_more (by omega)
      (show (if c.toNat / 262144 = 0 then 0x90 else 0x80) ≤ _ by split <;> omega)
      (show _ ≤ (if c.toNat / 262144 = 4 then 0x8F else 0xBF) by split <;> omega) (by decide)
      (htwo _ _) hmore)
    rw [toNat_byte (by omega), Nat.mod_eq_of_lt (by omega)]
    exact start_four (by omega)

/-- What spells a character reads as that character. -/
theorem decodeFrom_append {s : Option Begun} {bs : List UInt8} {c : Char} (h : Spells s bs c)
    (r : List UInt8) : decodeFrom s (bs ++ r) = c :: decode r := by
  induction h with
  | last h =>
    rw [List.singleton_append, decodeFrom_cons, h]
    rfl
  | more h _ _ ih => rw [List.cons_append, decodeFrom_cons, h, ih, List.nil_append]

/-- **An encoded character reads back.** -/
theorem decode_encodeChar (c : Char) (r : List UInt8) :
    decode (String.utf8EncodeChar c ++ r) = c :: decode r :=
  decodeFrom_append (spells_encodeChar c) r

/-- Cut short, it reads as one U+FFFD, and what is cut off are continuation bytes. -/
theorem decodeFrom_of_cut {s : Option Begun} {p q : List UInt8} {c : Char} (h : Spells s (p ++ q) c)
    (hp : p ≠ []) (hq : q ≠ []) :
    decodeFrom s p = [replacement] ∧ ∀ b ∈ q, isContinuation b = true := by
  generalize hbs : p ++ q = bs at h
  induction h generalizing p with
  | last h =>
    have hlength := congrArg List.length hbs
    have hp := List.length_pos_iff.mpr hp
    have hq := List.length_pos_iff.mpr hq
    simp only [List.length_append, List.length_cons, List.length_nil] at hlength
    omega
  | more h hcont hbs' ih =>
    obtain _ | ⟨b, p⟩ := p
    · exact absurd rfl hp
    obtain ⟨rfl, rfl⟩ := List.cons.inj hbs
    rw [decodeFrom_cons, h, List.nil_append]
    refine ⟨?_, fun b hb => hcont b (List.mem_append_right p hb)⟩
    obtain _ | ⟨b', p⟩ := p
    · rfl
    · exact (ih (by simp) rfl).1

/-- A continuation byte between sequences is ill-formed by itself. -/
theorem step_continuation {b : UInt8} (h : isContinuation b = true) :
    step none b.toNat = ([replacement], none) := by
  rw [isContinuation, Bool.and_eq_true, decide_eq_true_eq, decide_eq_true_eq] at h
  rw [step, start, if_neg (by omega), if_neg (by omega), if_neg (by omega), if_neg (by omega)]

theorem decode_continuation {b : UInt8} (h : isContinuation b = true) (r : List UInt8) :
    decode (b :: r) = replacement :: decode r := by
  rw [decode, decodeFrom_cons, step_continuation h]
  rfl

/-- No character is spelled with a continuation byte first. -/
theorem head_encodeChar (c : Char) :
    ∃ b bs, String.utf8EncodeChar c = b :: bs ∧ isContinuation b = false := by
  obtain ⟨b, bs, hbs⟩ := List.exists_cons_of_ne_nil (String.utf8EncodeChar_ne_nil (c := c))
  refine ⟨b, bs, hbs, ?_⟩
  by_contra hb
  rw [Bool.not_eq_false] at hb
  have hspells := spells_encodeChar c
  rw [hbs] at hspells
  cases hspells with
  | last h =>
    -- only U+FFFD could be written for it, and that takes three bytes
    rw [step_continuation hb] at h
    obtain rfl : replacement = c := (List.cons.inj (Prod.mk.inj h).1).1
    have hlength : (String.utf8EncodeChar replacement).length = 3 := by decide
    rw [hbs] at hlength
    exact absurd hlength (by simp)
  | more h =>
    rw [step_continuation hb] at h
    exact absurd (Prod.mk.inj h).1 (by simp)

/-- Only a character outside ASCII takes more than one byte. -/
theorem length_encodeChar {c : Char} (h : c.toNat < 0x80) :
    (String.utf8EncodeChar c).length = 1 := by
  have hle : c.toNat ≤ 0x7F := Nat.le_of_lt_succ h
  simp [String.utf8EncodeChar, hle]

/-! ### Smudged texts -/

/-- Some characters outside ASCII are replaced, each by two U+FFFD or more. -/
inductive Smudged : List Char → List Char → Prop where
  | nil : Smudged [] []
  | keep (c : Char) {cs ds : List Char} (h : Smudged cs ds) : Smudged (c :: cs) (c :: ds)
  | blur {c : Char} (hc : 0x80 ≤ c.toNat) (n : Nat) {cs ds : List Char} (h : Smudged cs ds) :
      Smudged (c :: cs) (List.replicate (n + 2) replacement ++ ds)

namespace Smudged

variable {cs ds : List Char}

theorem length_le (h : Smudged cs ds) : cs.length ≤ ds.length := by
  induction h with
  | nil => exact Nat.le_refl 0
  | keep c _ ih => exact Nat.succ_le_succ ih
  | blur _ n _ ih =>
    rw [List.length_append, List.length_replicate, List.length_cons]
    omega

/-- A text that is smudged at all has more U+FFFD in it. -/
theorem count_le (h : Smudged cs ds) :
    cs.count replacement ≤ ds.count replacement ∧
      (ds.count replacement = cs.count replacement → ds = cs) := by
  induction h with
  | nil => exact ⟨Nat.le_refl _, fun _ => rfl⟩
  | keep c h ih =>
    rw [List.count_cons, List.count_cons]
    exact ⟨Nat.add_le_add_right ih.1 _, fun heq => by rw [ih.2 (Nat.add_right_cancel heq)]⟩
  | @blur c _ n cs ds h ih =>
    have hcons := List.count_cons (a := replacement) (b := c) (l := cs)
    rw [List.count_append, List.count_replicate_self, hcons]
    split <;> exact ⟨by omega, fun heq => by omega⟩

/-- Nothing happens to ASCII. -/
theorem eq_of_ascii (h : Smudged cs ds) (hcs : ∀ c ∈ cs, c.toNat < 0x80) : ds = cs := by
  induction h with
  | nil => rfl
  | keep c _ ih => rw [ih fun d hd => hcs d (List.mem_cons_of_mem c hd)]
  | blur hc => exact absurd (hcs _ List.mem_cons_self) (Nat.not_lt_of_le hc)

/-- Parts of a text are smudged one by one. -/
theorem exists_of_append {cs cs' es : List Char} (h : Smudged (cs ++ cs') es) :
    ∃ ds ds', es = ds ++ ds' ∧ Smudged cs ds ∧ Smudged cs' ds' := by
  induction cs generalizing es with
  | nil => exact ⟨[], es, rfl, .nil, h⟩
  | cons c cs ih =>
    rw [List.cons_append] at h
    cases h with
    | keep _ h =>
      obtain ⟨ds, ds', rfl, hcs, hcs'⟩ := ih h
      exact ⟨c :: ds, ds', rfl, .keep c hcs, hcs'⟩
    | blur hc n h =>
      obtain ⟨ds, ds', rfl, hcs, hcs'⟩ := ih h
      exact ⟨_ ++ ds, ds', (List.append_assoc ..).symm, .blur hc n hcs, hcs'⟩

end Smudged

/-! ### Chunks -/

/-- What is read of a stream that arrives in chunks, each decoded on its own. -/
def decodeChunks (chunks : List (List UInt8)) : List Char := chunks.flatMap decode

/-- No chunk starts inside a character. -/
def Whole (chunks : List (List UInt8)) : Prop :=
  ∀ chunk ∈ chunks, ∀ b ∈ chunk.head?, isContinuation b = false

instance (chunks : List (List UInt8)) : Decidable (Whole chunks) :=
  decidable_of_iff (chunks.all fun chunk => chunk.head?.all fun b => !isContinuation b) (by
    simp only [Whole, List.all_eq_true, Option.all_eq_true, Bool.not_eq_true', Option.mem_def])

/-- Continuation bytes at the front of a stream are ill-formed one by one, wherever it is cut. -/
theorem decodeChunks_continuation {q r : List UInt8} {chunks : List (List UInt8)}
    (hq : ∀ b ∈ q, isContinuation b = true) (h : chunks.flatten = q ++ r) :
    ∃ rest : List (List UInt8), rest.flatten = r ∧
      decodeChunks chunks = List.replicate q.length replacement ++ decodeChunks rest ∧
      (q ≠ [] → ¬Whole chunks) := by
  induction q generalizing chunks with
  | nil => exact ⟨chunks, h, rfl, nofun⟩
  | cons b q ih =>
    rw [List.forall_mem_cons] at hq
    induction chunks with
    | nil => exact absurd h (by simp)
    | cons chunk chunks ihc =>
      cases chunk with
      | nil =>
        obtain ⟨rest, hr, hdecode, hwhole⟩ := ihc h
        refine ⟨rest, hr, hdecode, fun hne hall => hwhole hne fun c hc => ?_⟩
        exact hall c (List.mem_cons_of_mem _ hc)
      | cons b' chunk =>
        obtain ⟨rfl, htail⟩ :=
          List.cons.inj (show b' :: (chunk ++ chunks.flatten) = b :: (q ++ r) from h)
        obtain ⟨rest, hr, hdecode, -⟩ := @ih (chunk :: chunks) hq.2 htail
        refine ⟨rest, hr, ?_, fun _ hall => ?_⟩
        · show decode (b' :: chunk) ++ decodeChunks chunks = _
          rw [decode_continuation hq.1, List.length_cons, List.replicate_succ, List.cons_append,
            List.cons_append, ← hdecode]
          rfl
        · have := hall _ List.mem_cons_self b' rfl
          rw [hq.1] at this
          exact absurd this (by simp)

theorem whole_cons {chunk : List UInt8} {chunks : List (List UInt8)} :
    Whole (chunk :: chunks) ↔ (∀ b ∈ chunk.head?, isContinuation b = false) ∧ Whole chunks :=
  List.forall_mem_cons

/-- An encoded text does not start with a continuation byte. -/
theorem head_encode {cs : List Char} {b : UInt8} (h : b ∈ (encode cs).head?) :
    isContinuation b = false := by
  cases cs with
  | nil => exact absurd h nofun
  | cons c cs =>
    obtain ⟨b', bs, hbs, hcont⟩ := head_encodeChar c
    rw [encode, List.flatMap_cons, hbs, List.cons_append, List.head?_cons,
      Option.mem_some_iff] at h
    exact h ▸ hcont

/-- One character of a stream: it is all in one chunk, or it is cut. -/
theorem decodeChunks_char {c : Char} {cs : List Char} {chunks : List (List UInt8)}
    (h : chunks.flatten = String.utf8EncodeChar c ++ encode cs) :
    ∃ rest : List (List UInt8), rest.flatten = encode cs ∧
      (decodeChunks chunks = c :: decodeChunks rest ∧ (Whole chunks ↔ Whole rest) ∨
        0x80 ≤ c.toNat ∧ ¬Whole chunks ∧
          ∃ n, decodeChunks chunks = List.replicate (n + 2) replacement ++ decodeChunks rest) := by
  -- nothing of the stream before the first chunk with a byte in it
  induction chunks with
  | nil => exact absurd (List.append_eq_nil_iff.mp h.symm).1 String.utf8EncodeChar_ne_nil
  | cons chunk chunks ih =>
    by_cases hne : chunk = []
    · subst hne
      obtain ⟨rest, hr, hcases⟩ := ih h
      have hwhole : Whole ([] :: chunks) ↔ Whole chunks := by simp [whole_cons]
      refine ⟨rest, hr, ?_⟩
      rw [hwhole]
      exact hcases
    have hall : ∀ r, chunk = String.utf8EncodeChar c ++ r → encode cs = r ++ chunks.flatten →
        decodeChunks (chunk :: chunks) = c :: decodeChunks (r :: chunks) ∧
          (Whole (chunk :: chunks) ↔ Whole (r :: chunks)) := by
      rintro r rfl hcs
      constructor
      · show decode _ ++ decodeChunks chunks = c :: (decode r ++ decodeChunks chunks)
        rw [decode_encodeChar, List.cons_append]
      · obtain ⟨b, bs, hbs, hcont⟩ := head_encodeChar c
        rw [whole_cons, whole_cons]
        refine and_congr_left fun _ => iff_of_true (by simpa [hbs] using hcont) fun b' hb' => ?_
        refine @head_encode cs _ ?_
        rw [hcs, List.head?_append]
        simp [Option.mem_def.mp hb']
    obtain ⟨q, hq, hflat⟩ | ⟨r, hr, hcs⟩ := List.append_eq_append_iff.mp h
    · by_cases hq' : q = []
      · subst hq'
        rw [List.append_nil] at hq
        exact ⟨[] :: chunks, hflat,
          .inl (hall [] (by rw [List.append_nil, hq]) hflat.symm)⟩
      · -- the character is cut: its first bytes end the chunk
        have hspells := spells_encodeChar c
        have hlength := congrArg List.length hq
        rw [hq] at hspells
        obtain ⟨hcut, hcont⟩ := decodeFrom_of_cut hspells hne hq'
        obtain ⟨rest, hrest, hdecode, hwhole⟩ := decodeChunks_continuation hcont hflat
        refine ⟨rest, hrest, .inr ⟨?_, fun hall => hwhole hq' (whole_cons.mp hall).2,
          q.length - 1, ?_⟩⟩
        · by_contra hascii
          rw [length_encodeChar (Nat.lt_of_not_le hascii), List.length_append] at hlength
          have := List.length_pos_iff.mpr hne
          have := List.length_pos_iff.mpr hq'
          omega
        · have hpos := List.length_pos_iff.mpr hq'
          show decodeFrom none chunk ++ decodeChunks chunks = _
          rw [hcut, hdecode, show q.length - 1 + 2 = q.length + 1 by omega, List.replicate_succ]
          rfl
    · exact ⟨r :: chunks, hcs.symm, .inl (hall r hr hcs)⟩

/-- **What arrives is the text, smudged, and it is the text itself if and only if no chunk starts inside
    a character.** -/
theorem decodeChunks_of_encode {cs : List Char} {chunks : List (List UInt8)}
    (h : chunks.flatten = encode cs) :
    Smudged cs (decodeChunks chunks) ∧ (decodeChunks chunks = cs ↔ Whole chunks) := by
  induction cs generalizing chunks with
  | nil =>
    -- only empty chunks are left
    have hempty : ∀ chunk ∈ chunks, chunk = [] := List.flatten_eq_nil_iff.mp h
    have hnothing : decodeChunks chunks = [] :=
      List.flatMap_eq_nil_iff.mpr fun chunk hchunk => by rw [hempty chunk hchunk]; rfl
    rw [hnothing]
    exact ⟨.nil, iff_of_true rfl fun chunk hchunk => by simp [hempty chunk hchunk]⟩
  | cons c cs ih =>
    obtain ⟨rest, hrest, ⟨hdecode, hwhole⟩ | ⟨hc, hwhole, n, hdecode⟩⟩ := decodeChunks_char h
    · obtain ⟨hsmudged, hiff⟩ := ih hrest
      rw [hdecode, hwhole, ← hiff]
      exact ⟨.keep c hsmudged, by simp⟩
    · have hsmudged := (ih hrest).1
      rw [hdecode]
      refine ⟨.blur hc n hsmudged, iff_of_false (fun heq => ?_) hwhole⟩
      have hlength := congrArg List.length heq
      have hle := hsmudged.length_le
      rw [List.length_append, List.length_replicate, List.length_cons] at hlength
      omega

end McpLocator.Utf8
