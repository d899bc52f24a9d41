import McpLocator.Lib.Lines
import McpLocator.Lib.Utf8

namespace McpLocator.Utf8

open Lines

/-!
# Streams that have been read in part

* `decodeChunks_of_isPrefix` — decoding the beginning of an encoded text, in chunks that do not start
  inside a character: the text as far as it is there, and U+FFFD for a character that is not all there.
* `drain_of_isPrefix` — the complete lines of the beginning of a text.
* `lines_of_isPrefix` — the lines that have been read so far, as many as line ends have arrived.
-/

/-! ### Characters -/

/-- The first character of a stream is in the first chunk that is not empty. -/
theorem decodeChunks_whole_char {c : Char} {r : List UInt8} {chunks : List (List UInt8)}
    (hwhole : Whole chunks) (hr : ∀ b ∈ r.head?, isContinuation b = false)
    (h : chunks.flatten = String.utf8EncodeChar c ++ r) :
    ∃ rest : List (List UInt8), rest.flatten = r ∧ Whole rest ∧
      decodeChunks chunks = c :: decodeChunks rest := by
  induction chunks with
  | nil => exact absurd (List.append_eq_nil_iff.mp h.symm).1 String.utf8EncodeChar_ne_nil
  | cons chunk chunks ih =>
    have htail := (whole_cons.mp hwhole).2
    by_cases hne : chunk = []
    · subst hne
      exact ih htail h
    obtain ⟨q, hq, hflat⟩ | ⟨s, rfl, hs⟩ := List.append_eq_append_iff.mp h
    · by_cases hq' : q = []
      · subst hq'
        rw [List.append_nil] at hq
        refine ⟨chunks, hflat, htail, ?_⟩
        show decode chunk ++ decodeChunks chunks = _
        have hchar := decode_encodeChar c []
        rw [List.append_nil] at hchar
        rw [← hq, hchar]
        rfl
      · -- the next chunk would start inside the character
        have hspells := spells_encodeChar c
        rw [hq] at hspells
        obtain ⟨-, hcont⟩ := decodeFrom_of_cut hspells hne hq'
        obtain ⟨-, -, -, hcut⟩ := decodeChunks_continuation hcont hflat
        exact absurd htail (hcut hq')
    · refine ⟨s :: chunks, hs.symm, whole_cons.mpr ⟨fun b hb => hr b ?_, htail⟩, ?_⟩
      · rw [hs, List.head?_append, Option.mem_def.mp hb]
        rfl
      · show decode _ ++ decodeChunks chunks = _
        rw [decode_encodeChar]
        rfl

/-- A character that is not all there. -/
theorem decodeChunks_cut_char {c : Char} {q : List UInt8} {chunks : List (List UInt8)}
    (hwhole : Whole chunks) (h : String.utf8EncodeChar c = chunks.flatten ++ q) (hq : q ≠ [])
    (hne : chunks.flatten ≠ []) : decodeChunks chunks = [replacement] := by
  induction chunks with
  | nil => exact absurd rfl hne
  | cons chunk chunks ih =>
    have htail := (whole_cons.mp hwhole).2
    by_cases hchunk : chunk = []
    · subst hchunk
      exact ih htail h hne
    rw [List.flatten_cons, List.append_assoc] at h
    have hspells := spells_encodeChar c
    rw [h] at hspells
    obtain ⟨hcut, hcont⟩ := decodeFrom_of_cut hspells hchunk (by simp [hq])
    -- the chunk has all the bytes of it that are there
    have hrest : chunks.flatten = [] := by
      by_contra hflat
      have hall : ∀ b ∈ chunks.flatten, isContinuation b = true := fun b hb =>
        hcont b (List.mem_append_left _ hb)
      obtain ⟨-, -, -, hbad⟩ := decodeChunks_continuation hall (List.append_nil _).symm
      exact hbad hflat htail
    have hnothing : decodeChunks chunks = [] :=
      List.flatMap_eq_nil_iff.mpr fun x hx => by rw [List.flatten_eq_nil_iff.mp hrest x hx]; rfl
    show decodeFrom none chunk ++ decodeChunks chunks = _
    rw [hcut, hnothing]
    rfl

/-- A character of ASCII is a byte, and no other character has such a byte. -/
theorem bytes_encodeChar (c : Char) :
    c.toNat < 0x80 ∧ String.utf8EncodeChar c = [UInt8.ofNat c.toNat] ∨
      0x80 ≤ c.toNat ∧ ∀ b ∈ String.utf8EncodeChar c, 0x80 ≤ b.toNat := by
  by_cases hc : c.toNat < 0x80
  · refine .inl ⟨hc, ?_⟩
    have hle : c.val.toNat ≤ 0x7F := Nat.le_of_lt_succ hc
    rw [String.utf8EncodeChar]
    exact if_pos hle
  refine .inr ⟨by omega, ?_⟩
  have hcontinuation : ∀ b, isContinuation b = true → 0x80 ≤ b.toNat := by
    intro b hb
    rw [isContinuation, Bool.and_eq_true, decide_eq_true_eq] at hb
    exact hb.1
  obtain ⟨b, bs, hbs, -⟩ := head_encodeChar c
  have hspells := spells_encodeChar c
  rw [hbs] at hspells ⊢
  by_cases hb : b.toNat < 0x80
  · -- a byte of ASCII stands by itself
    have hstart : step none b.toNat = ([Char.ofNat b.toNat], none) := by
      rw [step, start, if_pos (by omega)]
    cases hspells with
    | last h =>
      rw [hstart] at h
      obtain rfl := (List.cons.inj (Prod.mk.inj h).1).1
      refine absurd ?_ hc
      rw [Char.ofNat, dif_pos (Or.inl (by omega))]
      exact hb
    | more h =>
      rw [hstart] at h
      exact absurd (Prod.mk.inj h).1 (by simp)
  · refine List.forall_mem_cons.mpr ⟨by omega, ?_⟩
    cases hspells with
    | last => exact fun _ h => absurd h List.not_mem_nil
    | more _ hcont => exact fun b' hb' => hcontinuation b' (hcont b' hb')

/-- The line ends are where they were. -/
theorem count_encode (cs : List Char) : (encode cs).count 0x0A = cs.count '\n' := by
  induction cs with
  | nil => rfl
  | cons c cs ih =>
    have hcons : encode (c :: cs) = String.utf8EncodeChar c ++ encode cs := rfl
    rw [hcons, List.count_append, ih, List.count_cons, Nat.add_comm]
    congr 1
    obtain ⟨hc, hbytes⟩ | ⟨hc, hbytes⟩ := bytes_encodeChar c
    · have hiff : UInt8.ofNat c.toNat = 0x0A ↔ c = '\n' := by
        rw [← UInt8.toNat_inj, toNat_byte (by omega)]
        exact @Char.toNat_inj c '\n'
      simp only [hbytes, List.count_singleton, beq_iff_eq, hiff]
    · have hne : (c == '\n') = false := by
        rw [beq_eq_false_iff_ne]
        rintro rfl
        exact absurd hc (by decide)
      rw [hne, List.count_eq_zero.mpr fun h => absurd (hbytes _ h) (by decide)]
      rfl

/-- **What is read of a text that has arrived in part.** -/
theorem decodeChunks_of_isPrefix {cs : List Char} {chunks : List (List UInt8)} {rest : List UInt8}
    (hwhole : Whole chunks) (h : chunks.flatten ++ rest = encode cs) :
    ∃ ds es cut bytes, cs = ds ++ es ∧ chunks.flatten = encode ds ++ bytes ∧
      decodeChunks chunks = ds ++ cut ∧ (∀ c ∈ cut, c = replacement) ∧
      (∀ b ∈ bytes, 0x80 ≤ b.toNat) := by
  have hnothing : ∀ chunks : List (List UInt8), chunks.flatten = [] → decodeChunks chunks = [] :=
    fun chunks hempty => List.flatMap_eq_nil_iff.mpr fun x hx => by
      rw [List.flatten_eq_nil_iff.mp hempty x hx]
      rfl
  induction cs generalizing chunks rest with
  | nil =>
    have hempty := (List.append_eq_nil_iff.mp h).1
    exact ⟨[], [], [], [], rfl, hempty, hnothing _ hempty, by simp, by simp⟩
  | cons c cs ih =>
    -- the first character is there
    have hthere : ∀ r rest', chunks.flatten = String.utf8EncodeChar c ++ r →
        r ++ rest' = encode cs → ∃ ds es cut bytes, c :: cs = ds ++ es ∧
          chunks.flatten = encode ds ++ bytes ∧ decodeChunks chunks = ds ++ cut ∧
          (∀ c ∈ cut, c = replacement) ∧ (∀ b ∈ bytes, 0x80 ≤ b.toNat) := by
      intro r rest' hflat hr
      have hhead : ∀ b ∈ r.head?, isContinuation b = false := fun b hb =>
        @head_encode cs b (by rw [← hr, List.head?_append, Option.mem_def.mp hb]; rfl)
      obtain ⟨chunks', rfl, hwhole', hdecode⟩ := decodeChunks_whole_char hwhole hhead hflat
      obtain ⟨ds, es, cut, bytes, rfl, hds, hcut, hreplacement, hbytes⟩ := ih hwhole' hr
      refine ⟨c :: ds, es, cut, bytes, rfl, ?_, ?_, hreplacement, hbytes⟩
      · rw [hflat, hds, ← List.append_assoc]
        rfl
      · rw [hdecode, hcut]
        rfl
    obtain ⟨q, hq, hrest⟩ | ⟨r, hr, hcs⟩ := List.append_eq_append_iff.mp h
    · by_cases hempty : chunks.flatten = []
      · exact ⟨[], c :: cs, [], [], rfl, hempty, hnothing _ hempty, by simp, by simp⟩
      by_cases hall : q = []
      · subst hall
        exact hthere [] (encode cs) (by rw [hq, List.append_nil, List.append_nil]) rfl
      · refine ⟨[], c :: cs, [replacement], chunks.flatten, rfl, rfl,
          decodeChunks_cut_char hwhole hq hall hempty, by simp, fun b hb => ?_⟩
        obtain ⟨-, hone⟩ | ⟨-, hbytes⟩ := bytes_encodeChar c
        · have hlength := congrArg List.length (hone.symm.trans hq)
          rw [List.length_append, List.length_singleton] at hlength
          have := List.length_pos_iff.mpr hempty
          have := List.length_pos_iff.mpr hall
          omega
        · exact hbytes b (hq ▸ List.mem_append_left _ hb)
    · exact hthere r rest hr hcs.symm

/-! ### Lines -/

/-- The complete lines of the beginning of a text. -/
theorem drain_of_isPrefix {texts : List (List Char)} (h : ∀ t ∈ texts, '\n' ∉ t) {ds es : List Char}
    (hds : ds ++ es = asLines texts) : (drain ds).1 = texts.take (ds.count '\n') := by
  induction texts generalizing ds es with
  | nil =>
    obtain rfl := (List.append_eq_nil_iff.mp hds).1
    rw [drain_of_not_mem List.not_mem_nil]
    rfl
  | cons t texts ih =>
    rw [List.forall_mem_cons] at h
    have hzero : t.count '\n' = 0 := List.count_eq_zero.mpr h.1
    -- the first line is there
    have hthere : ∀ r es', ds = t ++ '\n' :: r → r ++ es' = asLines texts →
        (drain ds).1 = (t :: texts).take (ds.count '\n') := by
      rintro r es' rfl hr
      rw [drain_line h.1, List.count_append, hzero, Nat.zero_add, List.count_cons_self,
        List.take_succ_cons, ih h.2 hr]
    have hcons : ds ++ es = (t ++ ['\n']) ++ asLines texts := hds
    obtain ⟨q, hq, hes⟩ | ⟨r, hr, hrest⟩ := List.append_eq_append_iff.mp hcons
    · rcases List.eq_nil_or_concat q with rfl | ⟨q, c, rfl⟩
      · exact hthere [] (asLines texts) (by rw [List.append_nil] at hq; exact hq.symm) rfl
      · -- the line has not ended
        rw [List.concat_eq_append, ← List.append_assoc] at hq
        have ht : t = ds ++ q := (List.append_inj' hq rfl).1
        have hds' : '\n' ∉ ds := fun hmem => h.1 (ht ▸ List.mem_append_left _ hmem)
        rw [drain_of_not_mem hds', List.count_eq_zero.mpr hds']
        rfl
    · refine hthere r es ?_ hrest.symm
      rw [hr, List.append_assoc]
      rfl

theorem count_asLines {texts : List (List Char)} (h : ∀ t ∈ texts, '\n' ∉ t) :
    (asLines texts).count '\n' = texts.length := by
  induction texts with
  | nil => rfl
  | cons t texts ih =>
    rw [List.forall_mem_cons] at h
    have hcons : asLines (t :: texts) = t ++ '\n' :: asLines texts := by
      rw [asLines, List.flatMap_cons, List.append_assoc]
      rfl
    rw [hcons, List.count_append, List.count_eq_zero.mpr h.1, List.count_cons_self, ih h.2,
      List.length_cons, Nat.zero_add]

/-- **The lines that have been read so far**, of texts that were sent a line each. -/
theorem lines_of_isPrefix {texts : List (List Char)} (h : ∀ t ∈ texts, '\n' ∉ t)
    {chunks : List (List UInt8)} (hwhole : Whole chunks)
    (hstart : chunks.flatten <+: encode (asLines texts)) :
    (drain (decodeChunks chunks)).1 = texts.take (chunks.flatten.count 0x0A) := by
  obtain ⟨rest, hrest⟩ := hstart
  obtain ⟨ds, es, cut, bytes, hds, hflat, hdecode, hcut, hbytes⟩ := decodeChunks_of_isPrefix hwhole hrest
  have hnone : '\n' ∉ (drain ds).2 ++ cut := by
    intro hmem
    rcases List.mem_append.mp hmem with hbuffer | hreplacement
    · exact newline_not_mem_rest ds hbuffer
    · exact absurd (hcut _ hreplacement) (by decide)
  have hzero : bytes.count 0x0A = 0 :=
    List.count_eq_zero.mpr fun hmem => absurd (hbytes _ hmem) (by decide)
  rw [hdecode, drain_append, drain_of_not_mem hnone, List.append_nil, drain_of_isPrefix h hds.symm,
    hflat, List.count_append, count_encode, hzero, Nat.add_zero]

end McpLocator.Utf8
