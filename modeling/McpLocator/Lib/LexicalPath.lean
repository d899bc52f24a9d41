import McpLocator.Lib.Split

namespace McpLocator.LexicalPath

/-!
# Lexical normal forms of paths

What a path names as far as its text alone can tell: a root and the segments below it, with `.`
dropped and `..` cancelled against the segment before it.

* `resolve` — the segments that are left; `resolve_resolve_append` lets a path be resolved piece by
  piece.
* `components` — the segments of a text; `resolve_apart` and `resolve_onto` say which segments there
  are after names were appended to it.
* `Lexical`, `Lexical.append` — a normal form, and a name below it; `Lexical.resolved` makes one.
-/

abbrev Segment := List Char

/-- A segment that `resolve` keeps whatever surrounds it. -/
def IsName (seg : Segment) : Prop := seg ≠ [] ∧ seg ≠ ['.'] ∧ seg ≠ ['.', '.']

instance (seg : Segment) : Decidable (IsName seg) := inferInstanceAs (Decidable (_ ∧ _ ∧ _))

/-! ### Resolving segments -/

/-- `..` on the stack of the segments before it.  Above the root there is only the root. -/
def parent (rooted : Bool) : List Segment → List Segment
  | [] => if rooted then [] else [['.', '.']]
  | top :: below => if top = ['.', '.'] then ['.', '.'] :: top :: below else below

/-- A further segment on the stack of those before it. -/
def pushSegment (rooted : Bool) (stack : List Segment) (seg : Segment) : List Segment :=
  if seg = [] ∨ seg = ['.'] then stack
  else if seg = ['.', '.'] then parent rooted stack
  else seg :: stack

def resolve (rooted : Bool) (segs : List Segment) : List Segment :=
  (segs.foldl (pushSegment rooted) []).reverse

theorem pushSegment_name {rooted : Bool} {stack : List Segment} {seg : Segment} (h : IsName seg) :
    pushSegment rooted stack seg = seg :: stack := by
  rw [pushSegment, if_neg (not_or.mpr ⟨h.1, h.2.1⟩), if_neg h.2.2]

@[simp] theorem pushSegment_nil (rooted : Bool) (stack : List Segment) :
    pushSegment rooted stack [] = stack := if_pos (.inl rfl)

/-- A stack that resolving its own segments gives back. -/
structure Settled (rooted : Bool) (stack : List Segment) : Prop where
  kept : ∀ seg ∈ stack, seg ≠ [] ∧ seg ≠ ['.']
  again : stack.reverse.foldl (pushSegment rooted) [] = stack

theorem Settled.cons {rooted : Bool} {stack : List Segment} (h : Settled rooted stack)
    {seg : Segment} (hseg : seg ≠ [] ∧ seg ≠ ['.'])
    (hpush : pushSegment rooted stack seg = seg :: stack) : Settled rooted (seg :: stack) where
  kept := List.forall_mem_cons.mpr ⟨hseg, h.kept⟩
  again := by
    rw [List.reverse_cons, List.foldl_append, h.again]
    exact hpush

/-- The segment below a name was settled before the name came. -/
theorem Settled.below {rooted : Bool} {top : Segment} {stack : List Segment}
    (h : Settled rooted (top :: stack)) (htop : top ≠ ['.', '.']) : Settled rooted stack where
  kept := (List.forall_mem_cons.mp h.kept).2
  again := by
    have hname : IsName top := ⟨(h.kept top List.mem_cons_self).1, (h.kept top List.mem_cons_self).2,
      htop⟩
    have := h.again
    rw [List.reverse_cons, List.foldl_append, List.foldl_cons, List.foldl_nil,
      pushSegment_name hname] at this
    exact (List.cons.inj this).2

theorem Settled.parent {rooted : Bool} {stack : List Segment} (h : Settled rooted stack) :
    Settled rooted (parent rooted stack) := by
  have hup : (['.', '.'] : Segment) ≠ [] ∧ (['.', '.'] : Segment) ≠ ['.'] := by decide
  cases stack with
  | nil =>
    cases rooted with
    | true => exact h
    | false => exact h.cons hup rfl
  | cons top below =>
    by_cases htop : top = ['.', '.']
    · rw [LexicalPath.parent, if_pos htop]
      exact h.cons hup (by simp [pushSegment, LexicalPath.parent, htop])
    · rw [LexicalPath.parent, if_neg htop]
      exact h.below htop

theorem Settled.push {rooted : Bool} {stack : List Segment} (h : Settled rooted stack)
    (seg : Segment) : Settled rooted (pushSegment rooted stack seg) := by
  by_cases hdot : seg = [] ∨ seg = ['.']
  · rw [pushSegment, if_pos hdot]
    exact h
  by_cases hup : seg = ['.', '.']
  · rw [pushSegment, if_neg hdot, if_pos hup]
    exact h.parent
  · have hseg := not_or.mp hdot
    have hpush : pushSegment rooted stack seg = seg :: stack :=
      pushSegment_name ⟨hseg.1, hseg.2, hup⟩
    rw [hpush]
    exact h.cons hseg hpush

theorem settled_foldl {rooted : Bool} {stack : List Segment} (h : Settled rooted stack)
    (segs : List Segment) : Settled rooted (segs.foldl (pushSegment rooted) stack) := by
  induction segs generalizing stack with
  | nil => exact h
  | cons seg segs ih => exact ih (h.push seg)

theorem settled_nil (rooted : Bool) : Settled rooted [] :=
  ⟨fun _ h => absurd h List.not_mem_nil, rfl⟩

/-- What is left has no empty segments and no `.` in it. -/
theorem ne_of_mem_resolve {rooted : Bool} {segs : List Segment} {seg : Segment}
    (h : seg ∈ resolve rooted segs) : seg ≠ [] ∧ seg ≠ ['.'] :=
  (settled_foldl (settled_nil rooted) segs).kept seg (List.mem_reverse.mp h)

/-- **A path may be resolved piece by piece.** -/
theorem resolve_resolve_append (rooted : Bool) (segs more : List Segment) :
    resolve rooted (resolve rooted segs ++ more) = resolve rooted (segs ++ more) := by
  have h := settled_foldl (settled_nil rooted) segs
  show (List.foldl _ [] ((segs.foldl (pushSegment rooted) []).reverse ++ more)).reverse =
    (List.foldl _ [] (segs ++ more)).reverse
  rw [List.foldl_append, h.again, List.foldl_append]

theorem resolve_resolve (rooted : Bool) (segs : List Segment) :
    resolve rooted (resolve rooted segs) = resolve rooted segs := by
  have := resolve_resolve_append rooted segs []
  rwa [List.append_nil, List.append_nil] at this

/-- Names are below whatever comes before them. -/
theorem resolve_append_names (rooted : Bool) (segs : List Segment) {names : List Segment}
    (h : ∀ seg ∈ names, IsName seg) :
    resolve rooted (segs ++ names) = resolve rooted segs ++ names := by
  show (List.foldl _ [] (segs ++ names)).reverse = _
  rw [List.foldl_append, resolve]
  generalize segs.foldl (pushSegment rooted) [] = stack
  induction names generalizing stack with
  | nil => simp
  | cons seg names ih =>
    rw [List.forall_mem_cons] at h
    rw [List.foldl_cons, pushSegment_name h.1, ih h.2, List.reverse_cons, List.append_assoc,
      List.singleton_append]

/-- An empty segment is dropped wherever it stands. -/
theorem resolve_append_nil_cons (rooted : Bool) (segs more : List Segment) :
    resolve rooted (segs ++ [] :: more) = resolve rooted (segs ++ more) := by
  simp only [resolve, List.foldl_append, List.foldl_cons, pushSegment_nil]

theorem mem_parent {rooted : Bool} {stack : List Segment} {seg : Segment}
    (h : seg ∈ parent rooted stack) : seg ∈ stack ∨ seg = ['.', '.'] := by
  unfold parent at h
  split at h
  · split at h
    · exact absurd h List.not_mem_nil
    · exact .inr (List.mem_singleton.mp h)
  · split at h
    · exact (List.mem_cons.mp h).symm
    · exact .inl (List.mem_cons_of_mem _ h)

theorem mem_of_mem_foldl {rooted : Bool} {stack segs : List Segment} {seg : Segment}
    (h : seg ∈ segs.foldl (pushSegment rooted) stack) : seg ∈ stack ∨ seg ∈ segs := by
  induction segs generalizing stack with
  | nil => exact .inl h
  | cons x segs ih =>
    have hpush : ∀ y ∈ pushSegment rooted stack x, y ∈ stack ∨ y = x := by
      intro y hy
      unfold pushSegment at hy
      split at hy
      · exact .inl hy
      · split at hy
        · rename_i hx
          exact hx ▸ mem_parent hy
        · exact (List.mem_cons.mp hy).symm
    rcases ih h with hs | hs
    · rcases hpush seg hs with hs | rfl
      · exact .inl hs
      · exact .inr List.mem_cons_self
    · exact .inr (List.mem_cons_of_mem _ hs)

/-- Resolving makes up no segments. -/
theorem mem_of_mem_resolve {rooted : Bool} {segs : List Segment} {seg : Segment}
    (h : seg ∈ resolve rooted segs) : seg ∈ segs :=
  (mem_of_mem_foldl (List.mem_reverse.mp h)).resolve_left List.not_mem_nil

/-! ### Segments of a text -/

/-- A text of segments. -/
def joinWith (sep : Char) (segs : List Segment) : List Char := [sep].intercalate segs

theorem joinWith_cons (sep : Char) (seg : Segment) {segs : List Segment} (h : segs ≠ []) :
    joinWith sep (seg :: segs) = seg ++ sep :: joinWith sep segs := by
  cases segs with
  | nil => exact absurd rfl h
  | cons next segs => simp [joinWith, List.intercalate_cons_cons]

/-- The text starts with the first segment. -/
theorem joinWith_head (sep c : Char) (seg : Segment) (segs : List Segment) :
    ∃ q, joinWith sep ((c :: seg) :: segs) = c :: q := by
  cases segs with
  | nil => exact ⟨seg, by simp [joinWith]⟩
  | cons next segs => exact ⟨_, joinWith_cons sep (c :: seg) (by simp)⟩

section Components

variable (isSep : Char → Bool)

/-- The segments between separators. -/
def components (p : List Char) : List Segment := p.splitOnP isSep

def endsInSep (p : List Char) : Bool := p.getLast?.any isSep

/-- Names that one may append: no separator in them, and nothing for `resolve` to do. -/
def IsNames (names : List Segment) : Prop :=
  names ≠ [] ∧ ∀ seg ∈ names, IsName seg ∧ ∀ c ∈ seg, isSep c = false

instance (names : List Segment) : Decidable (IsNames isSep names) :=
  -- the segment is searched, not the type of characters
  let _ (seg : Segment) : Decidable (∀ c ∈ seg, isSep c = false) := List.decidableBAll _ _
  inferInstanceAs (Decidable (_ ∧ ∀ _ ∈ _, _ ∧ _))

variable {isSep} {sep : Char} (hsep : isSep sep = true) {p q : List Char} {names segs : List Segment}

include hsep

theorem components_append (p q : List Char) :
    components isSep (p ++ sep :: q) = components isSep p ++ components isSep q :=
  List.splitOnP_append_cons p q hsep

/-- A separator in front adds no segment. -/
theorem resolve_sep_cons (rooted : Bool) (p : List Char) :
    resolve rooted (components isSep (sep :: p)) = resolve rooted (components isSep p) := by
  show resolve rooted (components isSep ([] ++ sep :: p)) = _
  rw [components_append hsep]
  exact resolve_append_nil_cons rooted [] _

/-- The segments of a joined text, whether a separator follows it or not. -/
theorem resolve_joinWith (rooted : Bool) (h : ∀ seg ∈ segs, ∀ c ∈ seg, isSep c = false)
    {trailing : List Char} (ht : trailing = [] ∨ trailing = [sep]) :
    resolve rooted (components isSep (joinWith sep segs ++ trailing)) = resolve rooted segs := by
  have hjoin : resolve rooted (components isSep (joinWith sep segs)) = resolve rooted segs := by
    by_cases hne : segs = []
    · subst hne
      simp [joinWith, components, List.splitOnP_nil, resolve]
    · rw [components, joinWith, Split.splitOnP_intercalate hsep hne h]
  rcases ht with rfl | rfl
  · rwa [List.append_nil]
  · rw [components_append hsep]
    show resolve rooted (components isSep (joinWith sep segs) ++ [] :: []) = _
    rw [resolve_append_nil_cons, List.append_nil, hjoin]

theorem components_names (h : IsNames isSep names) :
    components isSep (joinWith sep names) = names :=
  Split.splitOnP_intercalate hsep h.1 fun seg hseg => (h.2 seg hseg).2

/-- Names after a separator are below what comes before it. -/
theorem resolve_apart (rooted : Bool) (h : IsNames isSep names) (p : List Char) :
    resolve rooted (components isSep (p ++ sep :: joinWith sep names)) =
      resolve rooted (components isSep p) ++ names := by
  rw [components_append hsep, components_names hsep h,
    resolve_append_names _ _ fun seg hseg => (h.2 seg hseg).1]

/-- So are names after a text that ends in one. -/
theorem resolve_onto (rooted : Bool) (h : IsNames isSep names)
    (hp : p = [] ∨ endsInSep isSep p = true) :
    resolve rooted (components isSep (p ++ joinWith sep names)) =
      resolve rooted (components isSep p) ++ names := by
  have hnames : ∀ segs, resolve rooted (segs ++ names) = resolve rooted segs ++ names := fun segs =>
    resolve_append_names _ _ fun seg hseg => (h.2 seg hseg).1
  rcases List.eq_nil_or_concat p with rfl | ⟨p', s, rfl⟩
  · rw [List.nil_append, components_names hsep h]
    exact hnames []
  · rw [List.concat_eq_append] at hp ⊢
    have hs : isSep s = true := by simpa [endsInSep] using hp
    have hend : components isSep (p' ++ [s]) = components isSep p' ++ [[]] :=
      components_append hs p' []
    rw [List.append_assoc, List.singleton_append, components_append hs, components_names hsep h,
      hend, hnames, resolve_append_nil_cons, List.append_nil]

omit hsep in
/-- The text of names starts with the first of them. -/
theorem head?_names (sep : Char) (h : IsNames isSep names) :
    ∃ c q, joinWith sep names = c :: q ∧ isSep c = false := by
  obtain ⟨hne, hall⟩ := h
  cases names with
  | nil => exact absurd rfl hne
  | cons seg names =>
    obtain ⟨hname, hword⟩ := hall seg List.mem_cons_self
    cases seg with
    | nil => exact absurd rfl hname.1
    | cons c seg =>
      obtain ⟨q, hq⟩ := joinWith_head sep c seg names
      exact ⟨c, q, hq, hword c List.mem_cons_self⟩

end Components

/-! ### Normal forms -/

/-- What a path starts from; `unc` is `\\\\server\\share`. -/
inductive Anchor where
  | none
  | drive (letter : Char)
  | unc (server share : List Char)
deriving DecidableEq

/-- Where a path leads as far as its text can tell.  One that is not rooted is relative to the current
    directory, of the drive if there is one. -/
structure Lexical where
  root : Anchor
  rooted : Bool
  segments : List Segment
deriving DecidableEq

namespace Lexical

/-- The normal form of a path that is only cut into segments yet. -/
def resolved (l : Lexical) : Lexical := { l with segments := resolve l.rooted l.segments }

/-- The names below a path. -/
def append (l : Lexical) (names : List Segment) : Lexical :=
  { l with segments := l.segments ++ names }

@[simp] theorem append_segments (l : Lexical) (names : List Segment) :
    (l.append names).segments = l.segments ++ names := rfl

@[simp] theorem append_append (l : Lexical) (names more : List Segment) :
    (l.append names).append more = l.append (names ++ more) := by
  simp [append]

theorem append_right_cancel {l l' : Lexical} {names : List Segment} :
    l.append names = l'.append names ↔ l = l' := by
  constructor
  · intro h
    obtain ⟨root, rooted, segments⟩ := l
    obtain ⟨root', rooted', segments'⟩ := l'
    simp only [append, Lexical.mk.injEq, List.append_cancel_right_eq] at h
    rw [h.1, h.2.1, h.2.2]
  · rintro rfl
    rfl

end Lexical

end McpLocator.LexicalPath
