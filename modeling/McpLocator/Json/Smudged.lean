import McpLocator.Json.Text
import McpLocator.Lib.Utf8

namespace McpLocator.Json

open Utf8

/-!
# Smudged JSON texts

Only string literals have characters outside ASCII in them, so a text that was written is still a
text when it is smudged: its strings change and nothing else does.

* `smudged_render` — what it is a text of.
* `count_render` — U+FFFD in a text is in its strings.
-/

/-! ### Smudging -/

theorem smudged_escape {p : Point} {cs : List Char} (h : Smudged p.escape cs) :
    ∃ s : List Point, cs = s.flatMap Point.escape := by
  rcases escape_cases p with ⟨c, rfl, hc, -⟩ | hplain
  · rw [hc] at h
    cases h with
    | keep _ h =>
      cases h
      exact ⟨[.char c], by rw [List.flatMap_singleton, hc]⟩
    | blur _ n h =>
      cases h
      refine ⟨List.replicate (n + 2) (.char replacement), ?_⟩
      have hescape : Point.escape (.char replacement) = [replacement] := by decide
      simp [List.flatMap_replicate, hescape]
  · exact ⟨[p], by rw [List.flatMap_singleton, h.eq_of_ascii fun c hc => (hplain c hc).2]⟩

/-- Brackets and quotes stay. -/
theorem smudged_between {a b : Char} {cs ds : List Char} (ha : a.toNat < 0x80) (hb : b.toNat < 0x80)
    (h : Smudged (a :: cs ++ [b]) ds) : ∃ ds', ds = a :: ds' ++ [b] ∧ Smudged cs ds' := by
  have happend : a :: cs ++ [b] = [a] ++ (cs ++ [b]) := rfl
  rw [happend] at h
  obtain ⟨ds₁, ds₂, rfl, h₁, h₂⟩ := h.exists_of_append
  obtain ⟨ds₃, ds₄, rfl, h₃, h₄⟩ := h₂.exists_of_append
  rw [h₁.eq_of_ascii (List.forall_mem_singleton.mpr ha),
    h₄.eq_of_ascii (List.forall_mem_singleton.mpr hb)]
  exact ⟨ds₃, rfl, h₃⟩

theorem smudged_flatMap_escape {s : List Point} {cs : List Char}
    (h : Smudged (s.flatMap Point.escape) cs) : ∃ s' : List Point, cs = s'.flatMap Point.escape := by
  induction s generalizing cs with
  | nil =>
    cases h
    exact ⟨[], rfl⟩
  | cons p s ih =>
    rw [List.flatMap_cons] at h
    obtain ⟨ds, ds', rfl, hp, hs⟩ := h.exists_of_append
    obtain ⟨s₁, rfl⟩ := smudged_escape hp
    obtain ⟨s₂, rfl⟩ := ih hs
    exact ⟨s₁ ++ s₂, by rw [List.flatMap_append]⟩

/-- A smudged literal is a literal. -/
theorem smudged_quotePoints {s : List Point} {cs : List Char} (h : Smudged (quotePoints s) cs) :
    ∃ s', cs = quotePoints s' := by
  obtain ⟨ds, rfl, hbody⟩ := smudged_between (by decide) (by decide) h
  obtain ⟨s', rfl⟩ := smudged_flatMap_escape hbody
  exact ⟨s', rfl⟩

section Lists

variable {α : Type} {enc : α → List Char} {Q : α → α → Prop}

/-- Commas stay. -/
theorem smudged_commaTail {xs : List α} {cs : List Char}
    (hx : ∀ x ∈ xs, ∀ cs, Smudged (enc x) cs → ∃ y, cs = enc y ∧ Q x y)
    (h : Smudged (commaTail (xs.map enc)) cs) :
    ∃ ys, cs = commaTail (ys.map enc) ∧ List.Forall₂ Q xs ys := by
  induction xs generalizing cs with
  | nil =>
    cases h
    exact ⟨[], rfl, .nil⟩
  | cons x xs ih =>
    rw [List.forall_mem_cons] at hx
    have happend : commaTail ((x :: xs).map enc) = [','] ++ (enc x ++ commaTail (xs.map enc)) := rfl
    rw [happend] at h
    obtain ⟨ds₁, ds₂, rfl, h₁, h₂⟩ := h.exists_of_append
    obtain ⟨ds₃, ds₄, rfl, h₃, h₄⟩ := h₂.exists_of_append
    obtain ⟨y, rfl, hy⟩ := hx.1 _ h₃
    obtain ⟨ys, rfl, hys⟩ := ih hx.2 h₄
    rw [h₁.eq_of_ascii (by decide)]
    exact ⟨y :: ys, rfl, .cons hy hys⟩

theorem smudged_commaSep {xs : List α} {cs : List Char}
    (hx : ∀ x ∈ xs, ∀ cs, Smudged (enc x) cs → ∃ y, cs = enc y ∧ Q x y)
    (h : Smudged (commaSep (xs.map enc)) cs) :
    ∃ ys, cs = commaSep (ys.map enc) ∧ List.Forall₂ Q xs ys := by
  cases xs with
  | nil =>
    cases h
    exact ⟨[], rfl, .nil⟩
  | cons x xs =>
    rw [List.forall_mem_cons] at hx
    obtain ⟨ds, ds', rfl, h₁, h₂⟩ := Smudged.exists_of_append h
    obtain ⟨y, rfl, hy⟩ := hx.1 _ h₁
    obtain ⟨ys, rfl, hys⟩ := smudged_commaTail hx.2 h₂
    exact ⟨y :: ys, rfl, .cons hy hys⟩

theorem sum_eq_of_forall₂ {f : α → Nat} {xs ys : List α}
    (h : List.Forall₂ (fun x y => f y = f x) xs ys) : (ys.map f).sum = (xs.map f).sum := by
  induction h with
  | nil => rfl
  | cons hxy _ ih => rw [List.map_cons, List.map_cons, List.sum_cons, List.sum_cons, hxy, ih]

end Lists

/-- **A smudged text is a text**, with as many members. -/
theorem smudged_render {t : Document (List Point)} {cs : List Char} (h : Smudged (render t) cs) :
    ∃ t', cs = render t' ∧ t'.memberCount = t.memberCount := by
  induction t generalizing cs with
  | null => exact ⟨.null, h.eq_of_ascii (by decide), rfl⟩
  | bool b =>
    refine ⟨.bool b, h.eq_of_ascii ?_, rfl⟩
    cases b <;> decide
  | number l =>
    have hascii : ∀ c ∈ l.text, c.toNat < 0x80 := fun c hc =>
      (plain_of_isNumberChar (l.isNumberChar_text c hc)).2
    exact ⟨.number l, h.eq_of_ascii hascii, rfl⟩
  | string s =>
    obtain ⟨s', rfl⟩ := smudged_quotePoints h
    exact ⟨.string s', rfl, rfl⟩
  | array items ih =>
    rw [render_array] at h
    obtain ⟨ds, rfl, hitems⟩ := smudged_between (by decide) (by decide) h
    obtain ⟨items', rfl, hcounts⟩ := smudged_commaSep (fun x hx cs hcs => ih x hx hcs) hitems
    refine ⟨.array items', (render_array items').symm, ?_⟩
    rw [Document.memberCount_array, Document.memberCount_array, sum_eq_of_forall₂ hcounts]
  | object members ih =>
    rw [render_object] at h
    obtain ⟨ds, rfl, hmembers⟩ := smudged_between (by decide) (by decide) h
    have hmember : ∀ m ∈ members, ∀ cs, Smudged (memberOf (m.1, render m.2)) cs →
        ∃ m' : List Point × Document (List Point), cs = memberOf (m'.1, render m'.2) ∧
          m'.2.memberCount + 1 = m.2.memberCount + 1 := by
      intro m hm cs hcs
      have happend : memberOf (m.1, render m.2) = quotePoints m.1 ++ ([':'] ++ render m.2) := rfl
      rw [happend] at hcs
      obtain ⟨ds₁, ds₂, rfl, h₁, h₂⟩ := hcs.exists_of_append
      obtain ⟨ds₃, ds₄, rfl, h₃, h₄⟩ := h₂.exists_of_append
      obtain ⟨k, rfl⟩ := smudged_quotePoints h₁
      obtain ⟨x, rfl, hx⟩ := ih m hm h₄
      rw [h₃.eq_of_ascii (by decide)]
      exact ⟨(k, x), rfl, congrArg _ hx⟩
    obtain ⟨members', rfl, hcounts⟩ := smudged_commaSep hmember hmembers
    refine ⟨.object members', (render_object members').symm, ?_⟩
    rw [Document.memberCount_object, Document.memberCount_object, sum_eq_of_forall₂ hcounts]

/-! ### Counting U+FFFD -/

theorem count_eq_zero_of_ascii {cs : List Char} (h : ∀ c ∈ cs, c.toNat < 0x80) :
    cs.count replacement = 0 := by
  refine List.count_eq_zero.mpr fun hmem => ?_
  exact absurd (h _ hmem) (by decide)

theorem count_commaSep (ts : List (List Char)) :
    (commaSep ts).count replacement = (ts.map (List.count replacement)).sum := by
  have htail : ∀ ts : List (List Char),
      (commaTail ts).count replacement = (ts.map (List.count replacement)).sum := by
    intro ts
    induction ts with
    | nil => rfl
    | cons t ts ih =>
      have happend : commaTail (t :: ts) = ',' :: (t ++ commaTail ts) := rfl
      rw [happend, List.count_cons_of_ne (by decide), List.count_append, ih, List.map_cons,
        List.sum_cons]
  cases ts with
  | nil => rfl
  | cons t ts => rw [commaSep, List.count_append, htail, List.map_cons, List.sum_cons]

/-- What is between brackets or quotes. -/
theorem count_between {a b : Char} (ha : a ≠ replacement) (hb : b ≠ replacement) (cs : List Char) :
    (a :: cs ++ [b]).count replacement = cs.count replacement := by
  rw [List.count_append, List.count_cons_of_ne ha, List.count_singleton, beq_false_of_ne hb]
  rfl

theorem sum_flatMap {α β : Type} (f : β → Nat) (g : α → List β) (xs : List α) :
    ((xs.flatMap g).map f).sum = (xs.map fun x => ((g x).map f).sum).sum := by
  induction xs with
  | nil => rfl
  | cons x xs ih => rw [List.flatMap_cons, List.map_append, List.sum_append, ih, List.map_cons,
      List.sum_cons]

/-- **U+FFFD in a text is in its strings.** -/
theorem count_render (t : Document (List Point)) : (render t).count replacement =
    (t.strings.map fun s => (quotePoints s).count replacement).sum := by
  induction t with
  | null => exact count_eq_zero_of_ascii (by decide)
  | bool b =>
    refine count_eq_zero_of_ascii ?_
    cases b <;> decide
  | number l =>
    exact count_eq_zero_of_ascii fun c hc => (plain_of_isNumberChar (l.isNumberChar_text c hc)).2
  | string s => exact (Nat.add_zero _).symm
  | array items ih =>
    rw [render_array, count_between (by decide) (by decide), count_commaSep, Document.strings_array,
      sum_flatMap, List.map_map]
    exact congrArg List.sum (List.map_congr_left ih)
  | object members ih =>
    rw [render_object, count_between (by decide) (by decide), count_commaSep, Document.strings_object,
      sum_flatMap, List.map_map]
    refine congrArg List.sum (List.map_congr_left fun m hm => ?_)
    have happend : memberOf (m.1, render m.2) = quotePoints m.1 ++ ':' :: render m.2 := rfl
    show (memberOf (m.1, render m.2)).count replacement = _
    rw [happend, List.count_append, List.count_cons_of_ne (by decide), ih m hm, List.map_cons,
      List.sum_cons]

end McpLocator.Json
