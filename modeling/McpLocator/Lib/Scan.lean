import Mathlib.Data.List.TakeWhile

namespace McpLocator.Scan

/-!
# Leftmost, single-pass scanning

A *matcher* says whether a reference starts at the front of a text, and if so what it denotes and
how many characters follow its first one.  `tokens` cuts a text into literal characters and
references, leftmost first and without overlap; `replaceAll` is the text with each reference
rewritten.

* `tokens_append_literal` — characters at which nothing matches stay literal.
* `replaceAll_eq_of_refines` — rewriting by a matcher that takes only some of the references.
* `Divides` — the tokens of a text by a grammar of references; `divides_iff` is that there is one
  division, which a matcher for the grammar finds.
* `Quoted` — references written `opener name closer`; `read_narrow` is that a name may be read up to
  the closer or up to the first character that no name has.
-/

/-- Whether a reference starts at the front of the text: what it denotes, and how many characters
    it has after the first. -/
abbrev Matcher (ρ : Type) := List Char → Option (ρ × Nat)

/-- A literal character, or a reference with its text. -/
inductive Token (ρ : Type) where
  | lit (c : Char)
  | ref (r : ρ) (text : List Char)
deriving DecidableEq

variable {ρ σ : Type}

/-- The tokens of a text whose first `skip` characters belong to a reference already taken. -/
def tokensFrom (m : Matcher ρ) : Nat → List Char → List (Token ρ)
  | _, [] => []
  | skip + 1, _ :: cs => tokensFrom m skip cs
  | 0, c :: cs =>
    match m (c :: cs) with
    | some (r, n) => .ref r ((c :: cs).take (n + 1)) :: tokensFrom m n cs
    | none => .lit c :: tokensFrom m 0 cs

/-- The tokens of a text. -/
abbrev tokens (m : Matcher ρ) (cs : List Char) : List (Token ρ) := tokensFrom m 0 cs

/-- The text of a token, references rewritten by `f`. -/
def Token.render (f : ρ → List Char → List Char) : Token ρ → List Char
  | lit c => [c]
  | ref r text => f r text

/-- The text with every reference rewritten by `f`. -/
def replaceAll (m : Matcher ρ) (f : ρ → List Char → List Char) (cs : List Char) : List Char :=
  (tokens m cs).flatMap (Token.render f)

/-- The matcher that takes only the references in `keep`. -/
def Matcher.only (keep : ρ → Bool) (m : Matcher ρ) : Matcher ρ := fun cs =>
  (m cs).filter fun r => keep r.1

/-! ### One step of the scan -/

@[simp] theorem tokensFrom_nil (m : Matcher ρ) (skip : Nat) : tokensFrom m skip [] = [] := by
  cases skip <;> rfl

/-- Skipping characters is scanning what is left of them. -/
theorem tokensFrom_eq_drop (m : Matcher ρ) (skip : Nat) (cs : List Char) :
    tokensFrom m skip cs = tokens m (cs.drop skip) := by
  induction skip generalizing cs with
  | zero => rfl
  | succ skip ih =>
    cases cs with
    | nil => rfl
    | cons c cs => exact ih cs

theorem tokens_cons_none {m : Matcher ρ} {c : Char} {cs : List Char} (h : m (c :: cs) = none) :
    tokens m (c :: cs) = .lit c :: tokens m cs := by
  simp [tokens, tokensFrom, h]

theorem tokens_cons_some {m : Matcher ρ} {c : Char} {cs : List Char} {r : ρ} {n : Nat}
    (h : m (c :: cs) = some (r, n)) :
    tokens m (c :: cs) = .ref r ((c :: cs).take (n + 1)) :: tokens m (cs.drop n) := by
  simp only [tokens, tokensFrom, h]
  rw [tokensFrom_eq_drop]

/-- Nothing matches at a character in `text`, whatever comes after it. -/
def Inert (m : Matcher ρ) (text : List Char) : Prop := ∀ c ∈ text, ∀ rest, m (c :: rest) = none

/-- Inert text stays literal. -/
theorem tokens_append_literal {m : Matcher ρ} {text : List Char} (h : Inert m text)
    (rest : List Char) : tokens m (text ++ rest) = text.map .lit ++ tokens m rest := by
  induction text with
  | nil => rfl
  | cons c cs ih =>
    rw [List.cons_append, tokens_cons_none (h c List.mem_cons_self _),
      ih fun d hd => h d (List.mem_cons_of_mem _ hd)]
    rfl

@[simp] theorem flatMap_render_lit (f : ρ → List Char → List Char) (text : List Char) :
    (text.map Token.lit).flatMap (Token.render f) = text := by
  induction text with
  | nil => rfl
  | cons c cs ih => simp [Token.render, ih]

theorem replaceAll_cons_none {m : Matcher ρ} {f : ρ → List Char → List Char} {c : Char}
    {cs : List Char} (h : m (c :: cs) = none) :
    replaceAll m f (c :: cs) = c :: replaceAll m f cs := by
  rw [replaceAll, tokens_cons_none h]
  rfl

theorem replaceAll_cons_some {m : Matcher ρ} {f : ρ → List Char → List Char} {c : Char}
    {cs : List Char} {r : ρ} {n : Nat} (h : m (c :: cs) = some (r, n)) :
    replaceAll m f (c :: cs) = f r ((c :: cs).take (n + 1)) ++ replaceAll m f (cs.drop n) := by
  rw [replaceAll, tokens_cons_some h]
  rfl

/-- **A matcher that takes some of the references of another and leaves the rest as text** rewrites
    like the other one that maps the rest to themselves. -/
theorem replaceAll_eq_of_refines {p m : Matcher ρ} {f g : ρ → List Char → List Char}
    (hnone : ∀ c cs, m (c :: cs) = none → p (c :: cs) = none)
    (hsome : ∀ c cs r n, m (c :: cs) = some (r, n) →
      p (c :: cs) = some (r, n) ∧ f r ((c :: cs).take (n + 1)) = g r ((c :: cs).take (n + 1)) ∨
        p (c :: cs) = none ∧ Inert p (cs.take n) ∧
          g r ((c :: cs).take (n + 1)) = (c :: cs).take (n + 1)) (cs : List Char) :
    replaceAll p f cs = replaceAll m g cs := by
  -- a match skips several characters at once, so the induction is on the length
  induction hlen : cs.length using Nat.strong_induction_on generalizing cs with
  | _ len ih =>
    subst hlen
    cases cs with
    | nil => simp [replaceAll]
    | cons c cs =>
      have hrest : ∀ n, replaceAll p f (cs.drop n) = replaceAll m g (cs.drop n) := by
        intro n
        refine ih _ ?_ _ rfl
        rw [List.length_drop, List.length_cons]
        omega
      cases hm : m (c :: cs) with
      | none =>
        rw [replaceAll_cons_none hm, replaceAll_cons_none (hnone c cs hm)]
        exact congrArg _ (hrest 0)
      | some r =>
        obtain ⟨r, n⟩ := r
        rw [replaceAll_cons_some hm]
        rcases hsome c cs r n hm with ⟨hp, hfg⟩ | ⟨hp, hinert, hg⟩
        · rw [replaceAll_cons_some hp, hfg, hrest]
        · -- the reference stays text: its first character, then characters nothing matches at
          have htail : replaceAll p f cs = cs.take n ++ replaceAll p f (cs.drop n) := by
            have := tokens_append_literal hinert (cs.drop n)
            rw [List.take_append_drop] at this
            simp only [replaceAll, this, List.flatMap_append, flatMap_render_lit]
          rw [replaceAll_cons_none hp, htail, hg, hrest]
          rfl

/-! ### References of a grammar -/

/-- The text cut into tokens from the left, where `refs r text` says that `text` is a reference to
    `r`: a reference is taken where one starts, and a character where none does. -/
inductive Divides (refs : ρ → List Char → Prop) : List Char → List (Token ρ) → Prop where
  | nil : Divides refs [] []
  | ref {r : ρ} {text rest : List Char} {ts : List (Token ρ)} (h : refs r text)
      (next : Divides refs rest ts) : Divides refs (text ++ rest) (.ref r text :: ts)
  | lit {c : Char} {rest : List Char} {ts : List (Token ρ)}
      (h : ∀ r text, refs r text → ¬text <+: c :: rest) (next : Divides refs rest ts) :
      Divides refs (c :: rest) (.lit c :: ts)

/-- The matcher finds exactly the references of the grammar, none of which is empty. -/
structure Matcher.Decides (m : Matcher ρ) (refs : ρ → List Char → Prop) : Prop where
  nonempty : ∀ r text, refs r text → text ≠ []
  iff : ∀ cs r n, m cs = some (r, n) ↔ ∃ text, refs r text ∧ text <+: cs ∧ text.length = n + 1

section Grammar

variable {m : Matcher ρ} {refs : ρ → List Char → Prop} {cs : List Char} {ts : List (Token ρ)}

/-- The tokens make up the text. -/
theorem Divides.text_eq (h : Divides refs cs ts) :
    ts.flatMap (Token.render fun _ text => text) = cs := by
  induction h with
  | nil => rfl
  | ref _ _ ih =>
    rw [List.flatMap_cons, ih]
    rfl
  | lit _ _ ih =>
    rw [List.flatMap_cons, ih]
    rfl

/-- A reference at the front is found. -/
theorem Matcher.Decides.eq_some (hm : m.Decides refs) {r : ρ} {text : List Char} (h : refs r text)
    (htext : text <+: cs) : ∃ n, m cs = some (r, n) ∧ text = cs.take (n + 1) := by
  have hpos := List.length_pos_iff.mpr (hm.nonempty r text h)
  have hlen : text.length = text.length - 1 + 1 := by omega
  refine ⟨text.length - 1, (hm.iff cs r _).mpr ⟨text, h, htext, hlen⟩, ?_⟩
  rw [← hlen]
  exact List.prefix_iff_eq_take.mp htext

/-- The scan divides the text. -/
theorem divides_tokens (hm : m.Decides refs) (cs : List Char) : Divides refs cs (tokens m cs) := by
  -- a reference is taken off the text as a whole, so the induction is on the length
  induction hlen : cs.length using Nat.strong_induction_on generalizing cs with
  | _ len ih =>
    subst hlen
    cases cs with
    | nil => exact .nil
    | cons c cs =>
      cases h : m (c :: cs) with
      | none =>
        rw [tokens_cons_none h]
        refine .lit (fun r text href htext => ?_) (ih _ (by simp) _ rfl)
        obtain ⟨n, hn, -⟩ := hm.eq_some href htext
        rw [hn] at h
        exact absurd h nofun
      | some found =>
        obtain ⟨r, n⟩ := found
        obtain ⟨text, href, htext, hn⟩ := (hm.iff _ _ _).mp h
        have htake : text = (c :: cs).take (n + 1) := hn ▸ List.prefix_iff_eq_take.mp htext
        have hnext := ih (cs.drop n).length
          (Nat.lt_succ_of_le (List.length_drop ▸ Nat.sub_le _ _)) _ rfl
        rw [tokens_cons_some h, ← htake]
        have hsplit : text ++ cs.drop n = c :: cs := by
          rw [htake, ← List.drop_succ_cons, List.take_append_drop]
        exact hsplit ▸ .ref href hnext

/-- **A text has one division, which the scan finds.** -/
theorem divides_iff (hm : m.Decides refs) : Divides refs cs ts ↔ ts = tokens m cs := by
  constructor
  · intro h
    induction h with
    | nil => rfl
    | @ref r text rest ts h _ ih =>
      obtain ⟨n, hn, htake⟩ := hm.eq_some h (List.prefix_append text rest)
      obtain ⟨c, cs, rfl⟩ := List.exists_cons_of_ne_nil (hm.nonempty r text h)
      rw [List.cons_append] at hn htake ⊢
      have hrest : (cs ++ rest).drop n = rest := by
        have hlen := congrArg List.length htake
        have htext : (c :: (cs ++ rest)).take (n + 1) ++ (cs ++ rest).drop n = c :: cs ++ rest := by
          rw [← List.drop_succ_cons, List.take_append_drop]
          rfl
        rw [← htake] at htext
        exact List.append_cancel_left htext
      rw [tokens_cons_some hn, ← htake, hrest, ih]
    | @lit c rest ts h _ ih =>
      have hnone : m (c :: rest) = none := by
        rw [Option.eq_none_iff_forall_not_mem]
        rintro ⟨r, n⟩ hn
        obtain ⟨text, href, htext, -⟩ := (hm.iff _ _ _).mp hn
        exact h r text href htext
      rw [tokens_cons_none hnone, ih]
  · rintro rfl
    exact divides_tokens hm cs

end Grammar

/-! ### References between delimiters -/

/-- A reference written `opener name closer`, the name made of the characters `word` up to the
    first other one and accepted by `ok`. -/
structure Quoted where
  opener : List Char
  closer : Char
  word : Char → Bool
  ok : List Char → Bool

/-- The matcher of a quoted reference; it denotes its name. -/
def Quoted.read (q : Quoted) : Matcher (List Char) := fun cs =>
  if q.opener.isPrefixOf cs then
    let body := cs.drop q.opener.length
    let name := body.takeWhile q.word
    if (body.dropWhile q.word).head? = some q.closer ∧ q.ok name = true then
      some (name, q.opener.length + name.length)
    else none
  else none

/-- A quoted reference spelled out. -/
def Quoted.text (q : Quoted) (name : List Char) : List Char := q.opener ++ name ++ [q.closer]

/-- Where the characters of a kind are followed by `x`, a text is made of both and a rest. -/
theorem exists_append_of_head?_dropWhile {p : Char → Bool} {x : Char} {l : List Char}
    (h : (l.dropWhile p).head? = some x) : ∃ rest, l = l.takeWhile p ++ x :: rest := by
  refine ⟨(l.dropWhile p).tail, ?_⟩
  cases hd : l.dropWhile p with
  | nil => simp [hd] at h
  | cons d rest =>
    rw [hd] at h
    rw [List.tail_cons, ← Option.some.inj h, ← hd, List.takeWhile_append_dropWhile]

/-- What a match says about the text. -/
theorem Quoted.read_eq_some {q : Quoted} {cs name : List Char} {n : Nat}
    (h : q.read cs = some (name, n)) :
    n = q.opener.length + name.length ∧ q.ok name = true ∧ (∀ c ∈ name, q.word c = true) ∧
      cs.take (n + 1) = q.text name ∧ cs = q.text name ++ cs.drop (n + 1) := by
  unfold Quoted.read at h
  split at h
  · rename_i hpre
    dsimp only at h
    split at h
    · rename_i hc
      simp only [Option.some.injEq, Prod.mk.injEq] at h
      obtain ⟨hname, hn⟩ := h
      rw [hname] at hc hn
      obtain ⟨t, ht⟩ := List.isPrefixOf_iff_prefix.mp hpre
      subst ht
      rw [List.drop_left] at hc hname
      obtain ⟨hhead, hok⟩ := hc
      -- what is read is the opener, the name and the closer, in this order
      obtain ⟨u, hsplit⟩ := exists_append_of_head?_dropWhile hhead
      rw [hname] at hsplit
      have htext : q.opener ++ t = q.text name ++ u := by
        rw [hsplit, Quoted.text]
        simp
      have hlen : (q.text name).length = n + 1 := by
        simp [Quoted.text, ← hn]
        omega
      refine ⟨hn.symm, hok, ?_, ?_, ?_⟩
      · rw [← hname]
        exact fun c hc => List.mem_takeWhile_imp hc
      · rw [htext, ← hlen, List.take_left]
      · rw [htext, ← hlen, List.drop_left]
    · simp at h
  · simp at h

/-- Characters up to one that fails `p`. -/
theorem takeWhile_dropWhile_of_append {p : Char → Bool} {name : List Char} {x : Char}
    (hname : ∀ c ∈ name, p c = true) (hx : p x = false) (rest : List Char) :
    (name ++ x :: rest).takeWhile p = name ∧ (name ++ x :: rest).dropWhile p = x :: rest := by
  induction name with
  | nil => simp [hx]
  | cons c cs ih =>
    obtain ⟨htake, hdrop⟩ := ih fun d hd => hname d (List.mem_cons_of_mem _ hd)
    rw [List.cons_append, List.takeWhile_cons_of_pos (hname c List.mem_cons_self),
      List.dropWhile_cons_of_pos (hname c List.mem_cons_self), htake, hdrop]
    exact ⟨rfl, rfl⟩

/-- A reference spelled out is read, whatever comes after it. -/
theorem Quoted.read_text {q : Quoted} {name : List Char} (hok : q.ok name = true)
    (hword : ∀ c ∈ name, q.word c = true) (hcloser : q.word q.closer = false) (rest : List Char) :
    q.read (q.text name ++ rest) = some (name, q.opener.length + name.length) := by
  have hsplit : q.text name ++ rest = q.opener ++ (name ++ q.closer :: rest) := by
    simp [Quoted.text]
  obtain ⟨htake, hdrop⟩ := takeWhile_dropWhile_of_append hword hcloser rest
  have htext : q.opener.isPrefixOf (q.opener ++ (name ++ q.closer :: rest)) = true :=
    List.isPrefixOf_iff_prefix.mpr (List.prefix_append _ _)
  rw [hsplit, Quoted.read, if_pos htext, List.drop_left]
  dsimp only
  rw [htake, hdrop, if_pos ⟨rfl, hok⟩]

/-- Nothing is read at a character that does not open a reference. -/
theorem Quoted.inert_of_ne {q : Quoted} {x : Char} {opener text : List Char}
    (hq : q.opener = x :: opener) (h : ∀ c ∈ text, c ≠ x) : Inert q.read text := by
  intro c hc rest
  have hne : (x == c) = false := beq_eq_false_iff_ne.mpr (h c hc).symm
  have hpre : q.opener.isPrefixOf (c :: rest) = false := by
    simp [hq, List.isPrefixOf, hne]
  simp [Quoted.read, hpre]

/-- Reading a name up to the closer and then checking its characters is reading it up to the first
    character that no name has. -/
theorem Quoted.read_narrow {q : Quoted} {word : Char → Bool} {ok : List Char → Bool}
    (hq : q.word = (· != q.closer)) (hcloser : word q.closer = false)
    (hok : ∀ name, q.ok name = true ↔ ok name = true ∧ ∀ c ∈ name, word c = true) :
    q.read = { q with word, ok }.read := by
  funext cs
  unfold Quoted.read
  dsimp only
  split
  · generalize cs.drop q.opener.length = body
    rw [hq]
    by_cases h₁ : (body.dropWhile (· != q.closer)).head? = some q.closer ∧
        q.ok (body.takeWhile (· != q.closer)) = true
    · -- the name is all word characters, so reading by them stops at the closer too
      obtain ⟨rest, hbody⟩ := exists_append_of_head?_dropWhile h₁.1
      obtain ⟨hok', hall⟩ := (hok _).mp h₁.2
      generalize body.takeWhile (· != q.closer) = name at *
      obtain ⟨htake, hdrop⟩ := takeWhile_dropWhile_of_append hall hcloser rest
      rw [if_pos h₁, hbody, htake, hdrop, if_pos ⟨rfl, hok'⟩]
    · -- and where it stops at the closer, reading up to the closer would have stopped there
      rw [if_neg h₁, if_neg]
      rintro ⟨hhead, hok'⟩
      obtain ⟨rest, hbody⟩ := exists_append_of_head?_dropWhile hhead
      have hall : ∀ c ∈ body.takeWhile word, word c = true := fun c hc => List.mem_takeWhile_imp hc
      generalize body.takeWhile word = name at *
      have hne : ∀ c ∈ name, (c != q.closer) = true := by
        intro c hc
        refine bne_iff_ne.mpr ?_
        rintro rfl
        rw [hall _ hc] at hcloser
        exact Bool.noConfusion hcloser
      obtain ⟨htake, hdrop⟩ := takeWhile_dropWhile_of_append hne
        (bne_self_eq_false q.closer) rest
      refine h₁ ?_
      rw [hbody, htake, hdrop]
      exact ⟨rfl, (hok _).mpr ⟨hok', hall⟩⟩
  · rfl

end McpLocator.Scan
