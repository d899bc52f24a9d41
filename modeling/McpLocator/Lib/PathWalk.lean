import Mathlib.Data.List.Induction
import McpLocator.Lib.LexicalPath

namespace McpLocator.LexicalPath

/-!
# Paths as walks

Where the segments of a path lead, told by counting how many of them go down and how many up.

* `height`, `StaysUp` — how far below its start a walk ends; it never goes above it.
* `Spells` — segments that name one directory after another, with detours in between.
* `resolve_eq_iff` — these are the segments that resolve to those names.
* `resolve_below_iff` — what resolves to something below a place passes the place a last time.
-/

abbrev up : Segment := ['.', '.']

/-- How far a segment goes down. -/
def rise (seg : Segment) : Int :=
  if seg = [] ∨ seg = ['.'] then 0 else if seg = up then -1 else 1

def height : List Segment → Int
  | [] => 0
  | seg :: segs => rise seg + height segs

/-- A walk that never goes above its start. -/
def StaysUp (segs : List Segment) : Prop := ∀ init, init <+: segs → 0 ≤ height init

/-- Segments that lead to the directory of these names.  Those in front take back all that they
    name, and go up further if there is no root; each name is followed by a detour. -/
inductive Spells (rooted : Bool) : List Segment → List Segment → Prop where
  | top {segs : List Segment} (h : ∀ tail, tail <:+ segs → height tail ≤ 0) :
    Spells rooted segs (if rooted then [] else List.replicate (-height segs).toNat up)
  | down {segs names detour : List Segment} {name : Segment} (h : Spells rooted segs names)
    (hname : IsName name) (hstays : StaysUp detour) (hback : height detour = 0) :
    Spells rooted (segs ++ name :: detour) (names ++ [name])

/-! ### One segment -/

section Step

variable {rooted : Bool} {stack more : List Segment} {seg : Segment}

@[simp] theorem height_nil : height [] = 0 := rfl

@[simp] theorem height_cons (seg : Segment) (segs : List Segment) :
    height (seg :: segs) = rise seg + height segs := rfl

@[simp] theorem height_append (segs segs' : List Segment) :
    height (segs ++ segs') = height segs + height segs' := by
  induction segs with
  | nil => simp
  | cons seg segs ih =>
    rw [List.cons_append, height_cons, height_cons, ih]
    omega

theorem rise_name (h : IsName seg) : rise seg = 1 := by
  rw [rise, if_neg (not_or.mpr ⟨h.1, h.2.1⟩), if_neg h.2.2]

theorem rise_up : rise up = -1 := rfl

/-- A segment is dropped, goes up, or names something. -/
theorem segment_cases (rooted : Bool) (stack : List Segment) (seg : Segment) :
    (rise seg = 0 ∧ pushSegment rooted stack seg = stack) ∨
    (seg = up ∧ pushSegment rooted stack seg = parent rooted stack) ∨
    (IsName seg ∧ pushSegment rooted stack seg = seg :: stack) := by
  by_cases hdot : seg = [] ∨ seg = ['.']
  · exact .inl ⟨if_pos hdot, if_pos hdot⟩
  by_cases hup : seg = up
  · exact .inr (.inl ⟨hup, by rw [pushSegment, if_neg hdot, if_pos hup]⟩)
  · have hname : IsName seg := ⟨(not_or.mp hdot).1, (not_or.mp hdot).2, hup⟩
    exact .inr (.inr ⟨hname, pushSegment_name hname⟩)

theorem parent_cons (h : seg ≠ up) : parent rooted (seg :: stack) = stack := if_neg h

/-- The names on a stack and the steps above its start. -/
def nameCount (stack : List Segment) : Nat := stack.countP (· ≠ up)

def upCount (stack : List Segment) : Nat := stack.count up

@[simp] theorem nameCount_replicate (k : Nat) : nameCount (List.replicate k up) = 0 := by
  simp [nameCount]

@[simp] theorem upCount_replicate (k : Nat) : upCount (List.replicate k up) = k :=
  List.count_replicate_self

theorem nameCount_up (stack : List Segment) : nameCount (up :: stack) = nameCount stack :=
  List.countP_cons_of_neg (by simp)

theorem nameCount_cons_le (seg : Segment) (stack : List Segment) :
    nameCount (seg :: stack) ≤ nameCount stack + 1 := by
  unfold nameCount
  rw [List.countP_cons]
  split <;> omega

theorem nameCount_push (rooted : Bool) (stack : List Segment) (seg : Segment) :
    (nameCount stack : Int) + rise seg ≤ nameCount (pushSegment rooted stack seg) := by
  rcases segment_cases rooted stack seg with ⟨hrise, hpush⟩ | ⟨rfl, hpush⟩ | ⟨hname, hpush⟩
  · rw [hpush, hrise]
    omega
  · rw [hpush, rise_up]
    unfold parent
    split
    · simp [nameCount]
    · rename_i top below
      have htop := nameCount_cons_le top below
      split
      · rw [nameCount_up]
        omega
      · omega
  · rw [hpush, rise_name hname]
    simp [nameCount, hname.2.2]

theorem balance_push (stack : List Segment) (seg : Segment) :
    (nameCount (pushSegment false stack seg) : Int) - upCount (pushSegment false stack seg) =
      nameCount stack - upCount stack + rise seg := by
  rcases segment_cases false stack seg with ⟨hrise, hpush⟩ | ⟨rfl, hpush⟩ | ⟨hname, hpush⟩
  · rw [hpush, hrise]
    omega
  · rw [hpush, rise_up]
    unfold parent
    split
    · simp [nameCount, upCount]
    · split <;> simp_all [nameCount, upCount] <;> omega
  · rw [hpush, rise_name hname]
    simp [nameCount, upCount, hname.2.2]
    omega

end Step

/-! ### Whole walks -/

section Walk

variable {rooted : Bool} {stack more segs segs' names : List Segment} {seg : Segment}

theorem StaysUp.init (h : StaysUp (segs ++ segs')) : StaysUp segs := fun init hinit =>
  h init (hinit.trans (List.prefix_append segs segs'))

theorem StaysUp.height_nonneg (h : StaysUp segs) : 0 ≤ height segs := h segs List.prefix_rfl

theorem staysUp_nil : StaysUp [] := by
  intro init h
  rw [List.prefix_nil.mp h]
  exact Int.le_refl 0

/-- One segment more, if that does not end above the start. -/
theorem StaysUp.concat (h : StaysUp segs) (hend : 0 ≤ height (segs ++ [seg])) :
    StaysUp (segs ++ [seg]) := by
  intro init hinit
  rcases List.prefix_concat_iff.mp hinit with rfl | hinit
  · exact hend
  · exact h init hinit

theorem StaysUp.cons (hname : IsName seg) (h : StaysUp segs) : StaysUp (seg :: segs) := by
  intro init hinit
  cases init with
  | nil => exact Int.le_refl 0
  | cons first init =>
    obtain ⟨rfl, htail⟩ := List.cons_prefix_cons.mp hinit
    have := h init htail
    rw [height_cons, rise_name hname]
    omega

/-- **A walk that stays below its start leaves names on the stack.** -/
theorem foldl_of_staysUp (rooted : Bool) (stack : List Segment) (h : StaysUp segs) :
    ∃ more, segs.foldl (pushSegment rooted) stack = more ++ stack ∧ more.length = height segs ∧
      ∀ seg ∈ more, seg ≠ up := by
  induction segs using List.reverseRecOn with
  | nil => exact ⟨[], rfl, rfl, nofun⟩
  | append_singleton segs seg ih =>
    obtain ⟨more, hfold, hlength, hmore⟩ := ih h.init
    have hend := h.height_nonneg
    rw [height_append, height_cons, height_nil] at hend ⊢
    rw [List.foldl_append, hfold, List.foldl_cons, List.foldl_nil]
    rcases segment_cases rooted (more ++ stack) seg with
      ⟨hrise, hpush⟩ | ⟨rfl, hpush⟩ | ⟨hname, hpush⟩
    · exact ⟨more, hpush, by omega, hmore⟩
    · -- what is taken back was named in this walk
      rw [rise_up] at hend ⊢
      cases more with
      | nil =>
        rw [List.length_nil] at hlength
        omega
      | cons top more =>
        rw [List.forall_mem_cons] at hmore
        refine ⟨more, hpush.trans (parent_cons hmore.1), ?_, hmore.2⟩
        rw [List.length_cons] at hlength
        omega
    · rw [rise_name hname]
      refine ⟨seg :: more, hpush, ?_, List.forall_mem_cons.mpr ⟨hname.2.2, hmore⟩⟩
      rw [List.length_cons]
      omega

/-- **The last time that a name was pushed.**  What came after it stays below it. -/
theorem exists_last_push (h : segs.foldl (pushSegment rooted) [] = more ++ seg :: stack)
    (hseg : seg ≠ up) (hmore : ∀ x ∈ more, x ≠ up) : ∃ before after, segs = before ++ seg :: after ∧
      before.foldl (pushSegment rooted) [] = stack ∧ IsName seg ∧ StaysUp after ∧
      height after = more.length := by
  induction segs using List.reverseRecOn generalizing more with
  | nil => simp at h
  | append_singleton segs x ih =>
    rw [List.foldl_append, List.foldl_cons, List.foldl_nil] at h
    -- a segment at the end of the part after `seg`
    have extend : ∀ {more' : List Segment},
        segs.foldl (pushSegment rooted) [] = more' ++ seg :: stack → (∀ x ∈ more', x ≠ up) →
        (more'.length : Int) + rise x = more.length → ∃ before after,
          segs ++ [x] = before ++ seg :: after ∧ before.foldl (pushSegment rooted) [] = stack ∧
          IsName seg ∧ StaysUp after ∧ height after = more.length := by
      intro more' hfold hmore' hlength
      obtain ⟨before, after, rfl, hbefore, hname, hstays, hheight⟩ := ih hfold hmore'
      have hend : height (after ++ [x]) = more.length := by
        rw [height_append, height_cons, height_nil, hheight]
        omega
      exact ⟨before, after ++ [x], by simp, hbefore, hname, hstays.concat (by omega), hend⟩
    rcases segment_cases rooted (segs.foldl (pushSegment rooted) []) x with
      ⟨hrise, hpush⟩ | ⟨rfl, hpush⟩ | ⟨hname, hpush⟩
    · exact extend (hpush.symm.trans h) hmore (by omega)
    · rw [hpush] at h
      cases hstack : segs.foldl (pushSegment rooted) [] with
      | nil =>
        -- at the top there is nothing to go up from
        exfalso
        rw [hstack, parent] at h
        cases rooted with
        | true => simp at h
        | false => cases more <;> simp_all
      | cons top below =>
        rw [hstack] at h
        by_cases htop : top = up
        · exfalso
          rw [parent, if_pos htop] at h
          cases more <;> simp_all
        · rw [parent_cons htop] at h
          have hfold : segs.foldl (pushSegment rooted) [] = (top :: more) ++ seg :: stack := by
            rw [hstack, h]
            rfl
          refine extend hfold (List.forall_mem_cons.mpr ⟨htop, hmore⟩) ?_
          rw [List.length_cons, rise_up]
          omega
    · rw [hpush] at h
      cases more with
      | nil =>
        obtain ⟨rfl, hstack⟩ := List.cons.inj h
        exact ⟨segs, [], rfl, hstack, hname, staysUp_nil, rfl⟩
      | cons top more =>
        obtain ⟨rfl, hstack⟩ := List.cons.inj h
        rw [List.forall_mem_cons] at hmore
        refine extend hstack hmore.2 ?_
        rw [rise_name hname, List.length_cons]
        omega

theorem nameCount_foldl (rooted : Bool) (stack segs : List Segment) : (nameCount stack : Int) +
    height segs ≤ nameCount (segs.foldl (pushSegment rooted) stack) := by
  induction segs generalizing stack with
  | nil => simp
  | cons seg segs ih =>
    have hpush := nameCount_push rooted stack seg
    have hrest := ih (pushSegment rooted stack seg)
    rw [height_cons, List.foldl_cons]
    omega

theorem balance_foldl (stack segs : List Segment) :
    (nameCount (segs.foldl (pushSegment false) stack) : Int) -
      upCount (segs.foldl (pushSegment false) stack) =
      nameCount stack - upCount stack + height segs := by
  induction segs generalizing stack with
  | nil => simp
  | cons seg segs ih =>
    have hpush := balance_push stack seg
    rw [List.foldl_cons, ih, height_cons]
    omega

/-- Steps above the start are below all names, and there are none of them from the root. -/
structure Shaped (rooted : Bool) (stack names : List Segment) (k : Nat) : Prop where
  eq : stack = names ++ List.replicate k up
  names : ∀ name ∈ names, name ≠ up
  rooted : rooted = true → k = 0

theorem Shaped.push {k : Nat} (h : Shaped rooted stack names k) (seg : Segment) :
    ∃ names k, Shaped rooted (pushSegment rooted stack seg) names k := by
  rcases segment_cases rooted stack seg with ⟨-, hpush⟩ | ⟨-, hpush⟩ | ⟨hname, hpush⟩
  · rw [hpush]
    exact ⟨names, k, h⟩
  · rw [hpush, h.eq]
    cases names with
    | cons top names =>
      have hnames := List.forall_mem_cons.mp h.names
      exact ⟨names, k, parent_cons hnames.1, hnames.2, h.rooted⟩
    | nil =>
      cases k with
      | zero =>
        cases rooted with
        | true => exact ⟨[], 0, rfl, nofun, fun _ => rfl⟩
        | false => exact ⟨[], 1, rfl, nofun, nofun⟩
      | succ k =>
        have hrooted : rooted ≠ true := fun hr => absurd (h.rooted hr) (by omega)
        rw [List.nil_append, List.replicate_succ, parent, if_pos rfl]
        exact ⟨[], k + 2, rfl, nofun, fun hr => absurd hr hrooted⟩
  · exact ⟨seg :: names, k, by rw [hpush, h.eq]; rfl, List.forall_mem_cons.mpr ⟨hname.2.2, h.names⟩,
      h.rooted⟩

theorem exists_shaped (rooted : Bool) (segs : List Segment) :
    ∃ names k, Shaped rooted (segs.foldl (pushSegment rooted) []) names k := by
  induction segs using List.reverseRecOn with
  | nil => exact ⟨[], 0, rfl, nofun, fun _ => rfl⟩
  | append_singleton segs seg ih =>
    obtain ⟨names, k, h⟩ := ih
    rw [List.foldl_append]
    exact h.push seg

/-- How far up a walk leads that leaves no names. -/
theorem Shaped.replicate_eq {k : Nat}
    (h : Shaped rooted (segs.foldl (pushSegment rooted) []) [] k) :
    List.replicate k up = if rooted then [] else List.replicate (-height segs).toNat up := by
  cases rooted with
  | true => rw [h.rooted rfl, List.replicate_zero, if_pos rfl]
  | false =>
    have hbalance := balance_foldl [] segs
    rw [h.eq, List.nil_append, nameCount_replicate, upCount_replicate] at hbalance
    have hk : k = (-height segs).toNat := by
      simp [nameCount, upCount] at hbalance
      omega
    rw [if_neg (by simp), ← hk]

/-- What leads to these names spells them. -/
theorem Spells.foldl (h : Spells rooted segs names) :
    segs.foldl (pushSegment rooted) [] = names.reverse := by
  induction h with
  | @top segs htail =>
    obtain ⟨left, k, hshaped⟩ := exists_shaped rooted segs
    cases left with
    | nil =>
      rw [hshaped.eq, List.nil_append, hshaped.replicate_eq]
      split <;> simp
    | cons name left =>
      -- from the last name on the walk ends below its start
      obtain ⟨before, after, rfl, -, hname, -, hheight⟩ := exists_last_push
        (hshaped.eq.trans (List.nil_append _).symm) (hshaped.names name List.mem_cons_self) nofun
      have := htail (name :: after) (List.suffix_append before _)
      rw [height_cons, rise_name hname, hheight] at this
      simp at this
  | down _ hname hstays hback ih =>
    rw [List.foldl_append, ih, List.foldl_cons, pushSegment_name hname]
    obtain ⟨more, hfold, hlength, -⟩ := foldl_of_staysUp rooted _ hstays
    rw [hback] at hlength
    have hmore : more = [] := List.eq_nil_of_length_eq_zero (by omega)
    rw [hfold, hmore, List.nil_append, List.reverse_append]
    rfl

theorem Shaped.spells {k : Nat}
    (h : Shaped rooted (segs.foldl (pushSegment rooted) []) names k) :
    Spells rooted segs (names ++ List.replicate k up).reverse := by
  induction names generalizing segs with
  | nil =>
    rw [List.nil_append, h.replicate_eq]
    have htop : ∀ tail, tail <:+ segs → height tail ≤ 0 := by
      rintro tail ⟨front, rfl⟩
      have hcount := nameCount_foldl rooted (front.foldl (pushSegment rooted) []) tail
      rw [← List.foldl_append, h.eq, List.nil_append, nameCount_replicate] at hcount
      omega
    have hspells : Spells rooted segs _ := .top htop
    cases rooted with
    | true => exact hspells
    | false =>
      rw [if_neg (by decide), List.reverse_replicate]
      exact hspells
  | cons name names ih =>
    have hnames := List.forall_mem_cons.mp h.names
    obtain ⟨before, after, rfl, hbefore, hname, hstays, hheight⟩ :=
      exists_last_push (h.eq.trans (List.nil_append _).symm) hnames.1 nofun
    rw [List.cons_append, List.reverse_cons]
    exact .down (ih ⟨hbefore, hnames.2, h.rooted⟩) hname hstays hheight

/-- **Where a path leads, told by counting.** -/
theorem resolve_eq_iff : resolve rooted segs = names ↔ Spells rooted segs names := by
  rw [resolve, List.reverse_eq_iff]
  constructor
  · intro h
    obtain ⟨left, k, hshaped⟩ := exists_shaped rooted segs
    have := hshaped.spells
    rwa [← hshaped.eq, h, List.reverse_reverse] at this
  · exact Spells.foldl

end Walk

/-- **A path leads below a place if it leads there and stays below it from then on.** -/
theorem resolve_below_iff {rooted : Bool} {segs above : List Segment} :
    (∃ names, names ≠ [] ∧ (∀ name ∈ names, name ≠ up) ∧ resolve rooted segs = above ++ names) ↔
      ∃ before after, segs = before ++ after ∧ Spells rooted before above ∧ StaysUp after ∧
        0 < height after := by
  constructor
  · rintro ⟨names, hne, hnames, h⟩
    cases names with
    | nil => exact absurd rfl hne
    | cons name names =>
      rw [List.forall_mem_cons] at hnames
      rw [resolve, List.reverse_eq_iff, List.reverse_append, List.reverse_cons, List.append_assoc,
        List.singleton_append] at h
      obtain ⟨before, after, rfl, hbefore, hname, hstays, hheight⟩ :=
        exists_last_push h hnames.1 fun x hx => hnames.2 x (List.mem_reverse.mp hx)
      refine ⟨before, name :: after, rfl, resolve_eq_iff.mp ?_, hstays.cons hname, ?_⟩
      · rw [resolve, hbefore, List.reverse_reverse]
      · rw [height_cons, rise_name hname]
        omega
  · rintro ⟨before, after, rfl, hspells, hstays, hheight⟩
    obtain ⟨more, hfold, hlength, hmore⟩ := foldl_of_staysUp rooted above.reverse hstays
    refine ⟨more.reverse, ?_, fun x hx => hmore x (List.mem_reverse.mp hx), ?_⟩
    · rintro hnil
      rw [List.reverse_eq_nil_iff] at hnil
      subst hnil
      rw [List.length_nil] at hlength
      omega
    · rw [resolve, List.foldl_append, hspells.foldl, hfold, List.reverse_append,
        List.reverse_reverse]

/-! ### Below a place -/

def Anchor.fold (fold : Char → Char) : Anchor → Anchor
  | .none => .none
  | .drive letter => .drive (fold letter)
  | .unc server share => .unc (server.map fold) (share.map fold)

namespace Lexical

/-- The path with its letters as `fold` has them. -/
def fold (fold : Char → Char) (l : Lexical) : Lexical :=
  { root := l.root.fold fold, rooted := l.rooted, segments := l.segments.map (List.map fold) }

/-- `l` is a path of `place` and further names; letters that `fold` takes for the same are the
    same. -/
def IsBelow (fold : Char → Char) (place l : Lexical) : Prop :=
  ∃ above names, l.segments = above ++ names ∧ names ≠ [] ∧ (∀ name ∈ names, name ≠ up) ∧
    { l with segments := above }.fold fold = place.fold fold

/-- The segments of `l` lead to `place`, and the rest of them stays below it. -/
def LeadsBelow (fold : Char → Char) (place l : Lexical) : Prop :=
  ∃ before after above, l.segments = before ++ after ∧ Spells l.rooted before above ∧
    { l with segments := above }.fold fold = place.fold fold ∧ StaysUp after ∧ 0 < height after

variable {fold : Char → Char} {place l : Lexical}

/-- **What a path resolves to is below a place exactly if its segments lead there.** -/
theorem isBelow_resolved_iff : IsBelow fold place l.resolved ↔ LeadsBelow fold place l := by
  constructor
  · rintro ⟨above, names, hsegs, hne, hnames, hfold⟩
    obtain ⟨before, after, hl, hspells, hstays, hheight⟩ :=
      resolve_below_iff.mp ⟨names, hne, hnames, hsegs⟩
    exact ⟨before, after, above, hl, hspells, hfold, hstays, hheight⟩
  · rintro ⟨before, after, above, hl, hspells, hfold, hstays, hheight⟩
    obtain ⟨names, hne, hnames, hsegs⟩ :=
      resolve_below_iff.mpr ⟨before, after, hl, hspells, hstays, hheight⟩
    exact ⟨above, names, hsegs, hne, hnames, hfold⟩

/-- A path below a place has as many segments as the place, each as long as its own, and more. -/
theorem IsBelow.lengths (h : IsBelow fold place l) : ∃ more, more ≠ [] ∧
    l.segments.map List.length = place.segments.map List.length ++ more := by
  obtain ⟨above, names, hsegs, hne, -, hfold⟩ := h
  have hsegments := congrArg (fun l => l.segments.map List.length) hfold
  simp only [Lexical.fold, List.map_map, Function.comp_def, List.length_map] at hsegments
  refine ⟨names.map List.length, by simpa using hne, ?_⟩
  rw [hsegs, List.map_append, ← hsegments]

end Lexical

end McpLocator.LexicalPath
