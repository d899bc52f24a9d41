import McpLocator.Lib.WindowsPath

namespace McpLocator.WindowsPath

open LexicalPath

/-!
# Joined Windows paths

* `joinBase` — what `path.win32.join` makes of its first part.  It differs from what `PathBuf::push`
  makes of it for a bare drive and for two separators.
* `read_normalize` — normalizing changes nothing that `read` can tell.
* `read_join` — joined names are below the first part.
-/

variable {p q : List Char} {names : List Segment}

/-! ### The first part -/

/-- What `join` makes of its first part: two separators are one, and a bare drive is its root. -/
def joinBase : List Char → Base
  | [c, d] =>
    if isSep c && isSep d then .path ⟨.none, true, []⟩
    else if c.isAlpha && d == ':' then .path ⟨.drive c, true, []⟩
    else read [c, d]
  | p => read p

theorem resolve_trailing (rooted : Bool) (p : List Char) :
    resolve rooted (components isSep (p ++ ['\\'])) = resolve rooted (components isSep p) := by
  rw [components_append rfl]
  show resolve rooted (components isSep p ++ [] :: []) = _
  rw [resolve_append_nil_cons, List.append_nil]

theorem resolve_dropWhile (rooted : Bool) (p : List Char) :
    resolve rooted (components isSep (p.dropWhile isSep)) =
      resolve rooted (components isSep p) := by
  induction p with
  | nil => rfl
  | cons c p ih =>
    by_cases hc : isSep c = true
    · rw [List.dropWhile_cons_of_pos hc, ih, resolve_sep_cons hc]
    · rw [List.dropWhile_cons_of_neg hc]

theorem breaks_append_sep {x : List Char} (h : Breaks x) : Breaks (x ++ ['\\']) := by
  cases x with
  | nil => simp [Breaks, isSep]
  | cons c x => exact h

theorem readUnc_trailing (hw : word p ≠ []) : readUnc (p ++ ['\\']) = readUnc p := by
  have hp : p ++ ['\\'] = word p ++ (afterWord p ++ ['\\']) := by
    rw [← List.append_assoc, word_append_afterWord]
  have hp' : readUnc p = readUnc (word p ++ afterWord p) := by rw [word_append_afterWord]
  have hdrop : (afterWord p ++ ['\\']).dropWhile isSep =
      if ((afterWord p).dropWhile isSep).isEmpty then [] else (afterWord p).dropWhile isSep ++ ['\\'] :=
    List.dropWhile_append
  rw [hp, hp', readUnc_word hw not_isSep_of_mem_word (breaks_append_sep (breaks_afterWord p)),
    readUnc_word hw not_isSep_of_mem_word (breaks_afterWord p), hdrop]
  by_cases hafter : (afterWord p).dropWhile isSep = []
  · simp [hafter]
  · have hsplit : (afterWord p).dropWhile isSep ++ ['\\'] =
        word ((afterWord p).dropWhile isSep) ++ (afterWord ((afterWord p).dropWhile isSep) ++
          ['\\']) := by
      rw [← List.append_assoc, word_append_afterWord]
    have hbreaks := breaks_append_sep (breaks_afterWord ((afterWord p).dropWhile isSep))
    have hne : ¬((afterWord p).dropWhile isSep).isEmpty = true := by simpa using hafter
    rw [if_neg hne, if_neg hne, if_neg (by simp), hsplit, word_append not_isSep_of_mem_word hbreaks,
      afterWord_append not_isSep_of_mem_word hbreaks, resolve_trailing]

theorem readPlain_trailing (hp : p ≠ []) : readPlain (p ++ ['\\']) = readPlain p := by
  obtain ⟨c, p, rfl⟩ := List.exists_cons_of_ne_nil hp
  simp only [readPlain, resolve_trailing]
  rfl

/-- Separators in front count as one. -/
theorem read_sep_dropWhile (p : List Char) : read ('\\' :: p.dropWhile isSep) =
    .path ⟨.none, true, resolve true (components isSep p)⟩ := by
  have hplain : read ('\\' :: p.dropWhile isSep) = readPlain ('\\' :: p.dropWhile isSep) := by
    by_cases hnil : p.dropWhile isSep = []
    · rw [hnil]
      rfl
    · obtain ⟨d, q, hq, hd⟩ := exists_cons_dropWhile hnil
      rw [hq]
      exact read_cons_cons (by simp [hd]) (by simp) q
  rw [hplain]
  show Base.path ⟨.none, true, resolve true (components isSep ('\\' :: p.dropWhile isSep))⟩ = _
  rw [resolve_sep_cons rfl, resolve_dropWhile]

theorem collapse_of_le {first p : List Char} (h : startsUnc first = false)
    (hp : 2 ≤ (p.takeWhile isSep).length) : collapse first p = '\\' :: p.dropWhile isSep := by
  rw [collapse, if_neg (by simp [h]), if_pos hp]

theorem collapse_of_lt {first p : List Char} (h : startsUnc first = true ∨
    (p.takeWhile isSep).length < 2) : collapse first p = p := by
  unfold collapse
  split
  · rfl
  · rename_i hunc
    rw [if_neg (by
      have := h.resolve_left hunc
      omega)]

/-- Two separators in front are one, unless a server follows them. -/
theorem read_collapse_unc {c d : Char} (hc : isSep c = true) (hd : isSep d = true)
    (rest : List Char) :
    read (collapse (c :: d :: rest) (c :: d :: rest ++ ['\\'])) = joinBase (c :: d :: rest) := by
  have hboth : (isSep c && isSep d) = true := by simp only [hc, hd, Bool.and_self]
  have htwo : ∀ q, 2 ≤ ((c :: d :: q).takeWhile isSep).length := fun q => by
    rw [List.takeWhile_cons_of_pos hc, List.takeWhile_cons_of_pos hd]
    simp
  have hskip : ∀ q, resolve true (components isSep (c :: d :: q)) =
      resolve true (components isSep q) := fun q => by
    rw [resolve_sep_cons hc, resolve_sep_cons hd]
  cases rest with
  | nil =>
    have hstart : startsUnc [c, d] = false := rfl
    show read (collapse [c, d] (c :: d :: ['\\'])) = _
    rw [collapse_of_le hstart (htwo _), read_sep_dropWhile]
    show Base.path ⟨.none, true, resolve true (components isSep (c :: d :: ['\\']))⟩ = _
    rw [hskip, joinBase, if_pos hboth]
    rfl
  | cons e rest =>
    show _ = read (c :: d :: e :: rest)
    rw [read, if_pos hboth]
    by_cases he : isSep e = true
    · have hstart : startsUnc (c :: d :: e :: rest) = false := by simp only [startsUnc, he]; simp
      have hunc : readUnc (e :: rest) =
          .path ⟨.none, true, resolve true (components isSep (e :: rest))⟩ := by
        rw [readUnc, if_neg (by simp), if_pos (by simp [word, he])]
      show read (collapse _ (c :: d :: (e :: rest ++ ['\\']))) = _
      rw [collapse_of_le hstart (htwo _), read_sep_dropWhile, hskip, resolve_trailing, hunc]
    · rw [Bool.not_eq_true] at he
      have hstart : startsUnc (c :: d :: e :: rest) = true := by simp only [startsUnc, hc, hd, he]; rfl
      have hword : word (e :: rest) ≠ [] := by
        rw [word, List.takeWhile_cons_of_pos (by simp [he])]
        simp
      rw [collapse_of_lt (.inl hstart)]
      show read (c :: d :: (e :: rest ++ ['\\'])) = _
      rw [read, if_pos hboth, readUnc_trailing hword]

/-- Without two separators in front there is nothing to collapse. -/
theorem length_takeWhile_lt {c d : Char} (h : ¬(isSep c && isSep d) = true) (q : List Char) :
    ((c :: d :: q).takeWhile isSep).length < 2 := by
  by_cases hc : isSep c = true
  · have hd : ¬isSep d = true := fun hd => h (by simp [hc, hd])
    rw [List.takeWhile_cons_of_pos hc, List.takeWhile_cons_of_neg hd]
    exact Nat.one_lt_two
  · rw [List.takeWhile_cons_of_neg hc]
    exact Nat.two_pos

theorem read_collapse_one (c : Char) : read (collapse [c] [c, '\\']) = joinBase [c] := by
  by_cases hc : isSep c = true
  · have hstart : startsUnc [c] = false := rfl
    have hle : 2 ≤ ([c, '\\'].takeWhile isSep).length := by
      rw [List.takeWhile_cons_of_pos hc]
      show 2 ≤ 1 + 1
      omega
    rw [collapse_of_le hstart hle, read_sep_dropWhile]
    show Base.path ⟨.none, true, resolve true (components isSep ([c] ++ ['\\']))⟩ = _
    rw [resolve_trailing]
    simp only [joinBase, read, readPlain, List.head?_cons, Option.any_some, hc]
  · have hone : ¬(isSep c && isSep '\\') = true := by simp [hc]
    rw [collapse_of_lt (.inr (length_takeWhile_lt hone []))]
    show read [c, '\\'] = readPlain [c]
    rw [read_cons_cons (by simp [hc]) (by simp)]
    exact readPlain_trailing (List.cons_ne_nil c [])

theorem read_collapse (hp : p ≠ []) : read (collapse p (p ++ ['\\'])) = joinBase p := by
  match p with
  | [c] => exact read_collapse_one c
  | c :: d :: rest =>
    by_cases hunc : (isSep c && isSep d) = true
    · rw [Bool.and_eq_true] at hunc
      exact read_collapse_unc hunc.1 hunc.2 rest
    · show read (collapse (c :: d :: rest) (c :: d :: (rest ++ ['\\']))) = _
      rw [collapse_of_lt (.inr (length_takeWhile_lt hunc _))]
      by_cases hdrive : (c.isAlpha && d == ':') = true
      · rw [read, if_neg hunc, if_pos hdrive]
        cases rest with
        | nil =>
          rw [joinBase, if_neg hunc, if_pos hdrive]
          rfl
        | cons e rest =>
          show _ = read (c :: d :: e :: rest)
          rw [read, if_neg hunc, if_pos hdrive]
          simp only [readDrive, resolve_trailing]
          rfl
      · have hbase : joinBase (c :: d :: rest) = readPlain (c :: d :: rest) := by
          cases rest with
          | nil => rw [joinBase, if_neg hunc, if_neg hdrive, read_cons_cons hunc hdrive]
          | cons e rest => exact read_cons_cons hunc hdrive _
        rw [read_cons_cons hunc hdrive, hbase]
        exact readPlain_trailing (p := c :: d :: rest) (by simp)

/-! ### Reading what was normalized -/

/-- A non-empty text without separators. -/
def IsWord (w : List Char) : Prop := w ≠ [] ∧ ∀ c ∈ w, isSep c = false

/-- A normal form that some path reads as. -/
structure Sound (l : Lexical) : Prop where
  resolved : resolve l.rooted l.segments = l.segments
  words : ∀ seg ∈ l.segments, ∀ c ∈ seg, isSep c = false
  drive : ∀ letter, l.root = .drive letter → letter.isAlpha = true
  unc : ∀ server share, l.root = .unc server share → l.rooted = true ∧ IsWord server ∧ IsWord share

theorem sound_resolve {root : Anchor} {rooted : Bool} (p : List Char)
    (hdrive : ∀ letter, root = .drive letter → letter.isAlpha = true)
    (hunc : ∀ server share, root = .unc server share → rooted = true ∧ IsWord server ∧ IsWord share) :
    Sound ⟨root, rooted, resolve rooted (components isSep p)⟩ where
  resolved := resolve_resolve _ _
  words _ hseg := Split.not_isSep_of_mem_splitOnP (mem_of_mem_resolve hseg)
  drive := hdrive
  unc := hunc

theorem sound_readUnc (p : List Char) : Sound (readUnc p).close := by
  unfold readUnc
  split
  · exact sound_resolve [] nofun nofun
  · split
    · exact sound_resolve p nofun nofun
    · rename_i hne hw
      have hword : IsWord (word p) := ⟨by simpa using hw, not_isSep_of_mem_word⟩
      dsimp only
      split
      · have hcomp : components isSep (word p) = [word p] :=
          List.splitOnP_eq_singleton not_isSep_of_mem_word
        have hsound : Sound ⟨.none, true, resolve true (components isSep (word p))⟩ :=
          sound_resolve (word p) nofun nofun
        rwa [hcomp] at hsound
      · rename_i hafter
        refine sound_resolve _ nofun fun server share heq => ?_
        obtain ⟨rfl, rfl⟩ := Anchor.unc.inj heq
        exact ⟨rfl, hword, word_dropWhile_ne_nil (by simpa using hafter), not_isSep_of_mem_word⟩

theorem sound_lexical (p : List Char) : Sound (lexical p) := by
  unfold lexical read
  split
  · split
    · exact sound_readUnc _
    · split
      · rename_i hdrive
        refine sound_resolve _ (fun letter heq => ?_) nofun
        obtain rfl := Anchor.drive.inj heq
        rw [Bool.and_eq_true] at hdrive
        exact hdrive.1
      · exact sound_resolve _ nofun nofun
  · exact sound_resolve _ nofun nofun

section Render

variable {l : Lexical} (h : Sound l) (trailing : Bool)

include h

theorem ne_nil_of_sound {seg : Segment} (hseg : seg ∈ l.segments) : seg ≠ [] := by
  rw [← h.resolved] at hseg
  exact (ne_of_mem_resolve hseg).1

/-- The text of the segments is read as the segments. -/
theorem resolve_tailText : resolve l.rooted (components isSep (tailText l trailing)) = l.segments := by
  unfold tailText
  split
  · rename_i hnil
    rw [List.isEmpty_iff.mp hnil]
    cases l.rooted <;> cases trailing <;> rfl
  · rw [resolve_joinWith rfl _ h.words (by cases trailing <;> simp), h.resolved]

theorem head?_tailText : (tailText l trailing).head?.any isSep = false := by
  unfold tailText
  split
  · cases l.rooted <;> rfl
  · rename_i hne
    obtain ⟨seg, segs, hsegs⟩ := List.exists_cons_of_ne_nil (by simpa using hne)
    have hseg : seg ∈ l.segments := hsegs ▸ List.mem_cons_self
    obtain ⟨c, w, rfl⟩ := List.exists_cons_of_ne_nil (ne_nil_of_sound h hseg)
    obtain ⟨q, hq⟩ := joinWith_head '\\' c w segs
    rw [hsegs, hq]
    exact h.words _ hseg c List.mem_cons_self

/-- A relative path is written so that it does not read as one on a drive. -/
theorem read_relative (hroot : l.root = .none) (hrooted : l.rooted = false) :
    read (rootText l ++ tailText l trailing) = .path l := by
  obtain ⟨root, rooted, segs⟩ := l
  obtain rfl : root = .none := hroot
  obtain rfl : rooted = false := hrooted
  have hres := resolve_tailText h trailing
  have hhead := head?_tailText h trailing
  cases segs with
  | nil => cases trailing <;> rfl
  | cons seg segs =>
    obtain ⟨c, w, rfl⟩ := List.exists_cons_of_ne_nil (ne_nil_of_sound h List.mem_cons_self)
    by_cases hlooks : (c.isAlpha && w.head? == some ':') = true
    · have hroot : rootText ⟨.none, false, (c :: w) :: segs⟩ = ['.', '\\'] := by
        simp only [rootText, Bool.false_eq_true, if_false, List.head?_cons, Option.any_some,
          List.getElem?_cons_succ, ← List.head?_eq_getElem?, if_pos hlooks]
      rw [hroot]
      generalize tailText ⟨.none, false, (c :: w) :: segs⟩ trailing = text at hres hhead ⊢
      show read ('.' :: '\\' :: text) = _
      rw [read_cons_cons (by decide) (by decide)]
      show Base.path ⟨.none, false, resolve false (components isSep (['.'] ++ '\\' :: text))⟩ = _
      rw [components_append rfl]
      show Base.path ⟨.none, false, resolve false (components isSep text)⟩ = _
      rw [hres]
    · have hroot : rootText ⟨.none, false, (c :: w) :: segs⟩ = [] := by
        simp only [rootText, Bool.false_eq_true, if_false, List.head?_cons, Option.any_some,
          List.getElem?_cons_succ, ← List.head?_eq_getElem?, if_neg hlooks]
      -- the second character is the next one of the segment, or a separator
      obtain ⟨q, hq, hcolon⟩ : ∃ q, tailText ⟨.none, false, (c :: w) :: segs⟩ trailing = c :: q ∧
          (q.head? = some ':' → w.head? = some ':') := by
        obtain ⟨r, hr, hcolon⟩ : ∃ r, tailText ⟨.none, false, (c :: w) :: segs⟩ trailing =
            c :: (w ++ r) ∧ r.head? ≠ some ':' := by
          cases segs with
          | nil =>
            refine ⟨if trailing then ['\\'] else [], by simp [tailText, joinWith], ?_⟩
            cases trailing <;> simp
          | cons next segs =>
            exact ⟨_, by simp [tailText, joinWith_cons, List.append_assoc]; rfl, by simp⟩
        refine ⟨w ++ r, hr, fun hq => ?_⟩
        cases w with
        | nil => exact absurd hq hcolon
        | cons e w => exact hq
      rw [hroot, hq]
      rw [hq] at hres hhead
      have hc : isSep c = false := hhead
      show read (c :: q) = _
      have hplain : read (c :: q) = readPlain (c :: q) := by
        cases q with
        | nil => rfl
        | cons d q =>
          refine read_cons_cons (by simp [hc]) (fun hdrive => hlooks ?_) q
          rw [Bool.and_eq_true, beq_iff_eq] at hdrive ⊢
          exact ⟨hdrive.1, hcolon (by rw [hdrive.2]; rfl)⟩
      rw [hplain]
      simp only [readPlain, List.head?_cons, Option.any_some, hc]
      rw [hres]

theorem read_rooted (hroot : l.root = .none) (hrooted : l.rooted = true) :
    read (rootText l ++ tailText l trailing) = .path l := by
  obtain ⟨root, rooted, segs⟩ := l
  obtain rfl : root = .none := hroot
  obtain rfl : rooted = true := hrooted
  have hres := resolve_tailText h trailing
  have hhead := head?_tailText h trailing
  have hdrop : (tailText ⟨.none, true, segs⟩ trailing).dropWhile isSep =
      tailText ⟨.none, true, segs⟩ trailing := by
    cases ht : tailText ⟨.none, true, segs⟩ trailing with
    | nil => rfl
    | cons c q =>
      rw [ht] at hhead
      exact List.dropWhile_cons_of_neg (by simpa using hhead)
  have hread := read_sep_dropWhile (tailText ⟨.none, true, segs⟩ trailing)
  rw [hdrop, hres] at hread
  exact hread

theorem read_drive {letter : Char} (hroot : l.root = .drive letter) :
    read (rootText l ++ tailText l trailing) = .path l := by
  have hletter := h.drive letter hroot
  obtain ⟨root, rooted, segs⟩ := l
  obtain rfl : root = .drive letter := hroot
  have hres := resolve_tailText h trailing
  have hhead := head?_tailText h trailing
  have hsep : isSep letter = false := by
    by_contra hsep
    rw [not_isAlpha_of_isSep (by simpa using hsep)] at hletter
    exact absurd hletter nofun
  have hread : ∀ rest, read (letter :: ':' :: rest) = readDrive letter rest := fun rest => by
    rw [read, if_neg (by simp [hsep]), if_pos (by simp [hletter])]
  cases rooted with
  | true =>
    show read (letter :: ':' :: '\\' :: tailText ⟨.drive letter, true, segs⟩ trailing) = _
    rw [hread]
    show Base.path ⟨.drive letter, true, resolve true (components isSep ('\\' :: _))⟩ = _
    rw [resolve_sep_cons rfl, hres]
  | false =>
    show read (letter :: ':' :: tailText ⟨.drive letter, false, segs⟩ trailing) = _
    rw [hread]
    simp only [readDrive, hhead]
    rw [hres]

theorem read_unc {server share : List Char} (hroot : l.root = .unc server share) :
    read (rootText l ++ tailText l trailing) = .path l := by
  obtain ⟨hrooted, hserver, hshare⟩ := h.unc server share hroot
  obtain ⟨root, rooted, segs⟩ := l
  obtain rfl : root = .unc server share := hroot
  obtain rfl : rooted = true := hrooted
  have hres := resolve_tailText h trailing
  generalize htext : tailText ⟨.unc server share, true, segs⟩ trailing = text at hres ⊢
  have hsplit : rootText ⟨.unc server share, true, segs⟩ ++ text =
      '\\' :: '\\' :: (server ++ '\\' :: (share ++ '\\' :: text)) := by
    simp [rootText]
  have hbreaks : ∀ q, Breaks ('\\' :: q) := fun q => by simp [Breaks, isSep]
  have hdrop : ('\\' :: (share ++ '\\' :: text)).dropWhile isSep = share ++ '\\' :: text := by
    obtain ⟨c, w, rfl⟩ := List.exists_cons_of_ne_nil hshare.1
    have hc := hshare.2 c List.mem_cons_self
    rw [List.dropWhile_cons_of_pos rfl]
    exact List.dropWhile_cons_of_neg (by simp [hc])
  rw [hsplit]
  show readUnc (server ++ '\\' :: (share ++ '\\' :: text)) = _
  rw [readUnc_word hserver.1 hserver.2 (hbreaks _), hdrop, if_neg (by simp),
    word_append hshare.2 (hbreaks _), afterWord_append hshare.2 (hbreaks _), resolve_sep_cons rfl,
    hres]

/-- **A normal form is read as itself.** -/
theorem read_render : read (rootText l ++ tailText l trailing) = .path l := by
  cases hroot : l.root with
  | none =>
    cases hrooted : l.rooted with
    | false => exact read_relative h trailing hroot hrooted
    | true => exact read_rooted h trailing hroot hrooted
  | drive letter => exact read_drive h trailing hroot
  | unc server share => exact read_unc h trailing hroot

end Render

/-- **Normalizing changes nothing that can be read.** -/
theorem read_normalize (hp : p ≠ []) : read (normalize p) = .path (lexical p) := by
  rw [normalize, if_neg (by simpa using hp)]
  exact read_render (sound_lexical p) _

/-! ### Reading what was joined -/

theorem takeWhile_names (h : IsNames isSep names) (p : List Char) :
    (p ++ joinWith '\\' names).takeWhile isSep = p.takeWhile isSep ∧
    (p ++ joinWith '\\' names).dropWhile isSep = p.dropWhile isSep ++ joinWith '\\' names := by
  obtain ⟨x, q, hq, hx⟩ := head?_names '\\' h
  rw [hq]
  induction p with
  | nil => simp [hx]
  | cons c p ih =>
    by_cases hc : isSep c = true
    · simp [hc, ih]
    · simp [hc]

/-- What `join` puts together is the names pushed on what it makes of its first part. -/
theorem collapse_names (h : IsNames isSep names) (p : List Char) :
    collapse p (joinWith '\\' (p :: names)) =
      push (collapse p (p ++ ['\\'])) (joinWith '\\' names) := by
  have hjoin : joinWith '\\' (p :: names) = (p ++ ['\\']) ++ joinWith '\\' names := by
    rw [joinWith_cons _ _ h.1, List.append_assoc]
    rfl
  obtain ⟨htake, hdrop⟩ := takeWhile_names h (p ++ ['\\'])
  have hlast : ∀ q, endsInSep isSep (q ++ ['\\']) = true := fun q => by simp [endsInSep, isSep]
  have hend : endsInSep isSep (collapse p (p ++ ['\\'])) = true := by
    unfold collapse
    split
    · exact hlast p
    · split
      · rw [List.dropWhile_append]
        split
        · rfl
        · exact hlast ('\\' :: p.dropWhile isSep)
      · exact hlast p
  rw [push, if_pos (by simp [hend]), hjoin]
  unfold collapse
  rw [htake, hdrop]
  split
  · rfl
  · split <;> rfl

/-- **Joined names are below the first part.** -/
theorem read_join (h : IsPlain names) (p : List Char) :
    read (join (p :: names)) = .path ((joinBase p).append names).close := by
  have hfilter : names.filter (fun part => !part.isEmpty) = names :=
    List.filter_eq_self.mpr fun seg hseg => by simpa using (h.1.2 seg hseg).1.1
  obtain ⟨x, q, hq, hx⟩ := head?_names '\\' h.1
  unfold join
  by_cases hp : p = []
  · subst hp
    obtain ⟨name, rest, rfl⟩ := List.exists_cons_of_ne_nil h.1.1
    rw [List.filter_cons_of_neg (by simp), hfilter]
    have hlt : ((joinWith '\\' (name :: rest)).takeWhile isSep).length < 2 := by
      rw [hq, List.takeWhile_cons_of_neg (by simp [hx])]
      decide
    show read (normalize (collapse name (joinWith '\\' (name :: rest)))) = _
    rw [collapse_of_lt (.inr hlt), read_normalize (by simp [hq]), lexical]
    have hpush := read_push h []
    rw [show push [] (joinWith '\\' (name :: rest)) = joinWith '\\' (name :: rest) from rfl] at hpush
    rw [hpush]
    rfl
  · rw [List.filter_cons_of_pos (by simpa using hp), hfilter]
    show read (normalize (collapse p (joinWith '\\' (p :: names)))) = _
    have hne : push (collapse p (p ++ ['\\'])) (joinWith '\\' names) ≠ [] := by
      unfold push
      split <;> simp [hq]
    rw [collapse_names h.1, read_normalize hne, lexical, read_push h, read_collapse hp]

/-- A path with segments is joined as it is read. -/
theorem joinBase_of_read {l : Lexical} (h : read p = .path l) (hne : l.segments ≠ []) :
    joinBase p = .path l := by
  unfold joinBase
  split
  · rename_i c d
    split
    · rename_i hunc
      rw [read, if_pos hunc] at h
      cases h
    · rename_i hunc
      split
      · rename_i hdrive
        rw [read, if_neg hunc, if_pos hdrive] at h
        obtain rfl := Base.path.inj h
        exact absurd rfl hne
      · exact h
  · exact h

/-- Paths that `join` takes as they read: no bare drive, and not just two separators. -/
def Joinable (p : List Char) : Prop :=
  isBareDrive p = false ∧ ¬(p.length = 2 ∧ ∀ c ∈ p, isSep c = true)

theorem read_eq_joinBase_iff : read p = joinBase p ↔ Joinable p := by
  rcases p with _ | ⟨c, _ | ⟨d, _ | ⟨e, rest⟩⟩⟩
  · exact iff_of_true rfl ⟨rfl, fun h => absurd h.1 (by simp)⟩
  · exact iff_of_true rfl ⟨rfl, fun h => absurd h.1 (by simp)⟩
  · rw [joinBase, Joinable, isBareDrive_cons_cons]
    by_cases hunc : (isSep c && isSep d) = true
    · rw [read, if_pos hunc, if_pos hunc]
      refine iff_of_false (fun h => by cases h) fun h => h.2 ⟨rfl, ?_⟩
      simpa using hunc
    · by_cases hdrive : (c.isAlpha && d == ':') = true
      · rw [read, if_neg hunc, if_pos hdrive, if_neg hunc, if_pos hdrive]
        refine iff_of_false (fun h => ?_) fun h => ?_
        · have := congrArg Lexical.rooted (Base.path.inj h)
          cases this
        · rw [hdrive] at h
          cases h.1
      · rw [if_neg hunc, if_neg hdrive]
        rw [Bool.not_eq_true] at hdrive
        refine iff_of_true rfl ⟨by rw [hdrive]; rfl, fun h => hunc ?_⟩
        simpa using h.2
  · refine iff_of_true rfl ⟨by simp [isBareDrive_cons_cons], fun h => absurd h.1 (by simp)⟩

/-! ### Two names or more -/

namespace Base

theorem append_append (b : Base) (names more : List Segment) :
    (b.append names).append more = b.append (names ++ more) := by
  cases b with
  | path l => simp [append]
  | openUnc =>
    rcases names with _ | ⟨name, _ | ⟨next, names⟩⟩
    · rfl
    · cases more <;> rfl
    · simp [append]; rfl
  | partialUnc server =>
    cases names with
    | nil => rfl
    | cons name names => simp [append]; rfl

variable {b b' : Base} {name next : Segment}

/-- Two names complete any path. -/
theorem exists_path (b : Base) (name next : Segment) (names : List Segment) :
    ∃ l, b.append (name :: next :: names) = .path l := by
  cases b with
  | path l => exact ⟨_, rfl⟩
  | openUnc => exact ⟨_, rfl⟩
  | partialUnc server => exact ⟨_, rfl⟩

theorem close_append (b : Base) (name next : Segment) (names : List Segment) :
    .path (b.append (name :: next :: names)).close = b.append (name :: next :: names) := by
  obtain ⟨l, hl⟩ := exists_path b name next names
  rw [hl]
  rfl

/-- How many segments there are tells how much of the names went into the root. -/
theorem append_right_cancel :
    b.append (name :: next :: names) = b'.append (name :: next :: names) ↔ b = b' := by
  refine ⟨fun h => ?_, fun h => h ▸ rfl⟩
  have hlen := congrArg (fun b : Base => b.close.segments.length) h
  cases b with
  | path l =>
    cases b' with
    | path l' => exact congrArg path (Lexical.append_right_cancel.mp (path.inj h))
    | openUnc => simp [append, close] at hlen; omega
    | partialUnc server' => simp [append, close] at hlen; omega
  | openUnc =>
    cases b' with
    | path l' => simp [append, close] at hlen; omega
    | openUnc => rfl
    | partialUnc server' => simp [append, close] at hlen
  | partialUnc server =>
    cases b' with
    | path l' => simp [append, close] at hlen; omega
    | openUnc => simp [append, close] at hlen
    | partialUnc server' =>
      have hroot := congrArg Lexical.root (path.inj h)
      exact congrArg partialUnc (Anchor.unc.inj hroot).1

/-- Completed paths are the same if they were. -/
theorem close_append_inj : (b.append (name :: next :: names)).close =
    (b'.append (name :: next :: names)).close ↔ b = b' := by
  refine ⟨fun h => ?_, fun h => h ▸ rfl⟩
  have hpath := congrArg path h
  rw [close_append, close_append] at hpath
  exact append_right_cancel.mp hpath

end Base

theorem joinBase_ne_openUnc (p : List Char) : joinBase p ≠ .openUnc := by
  unfold joinBase
  split
  · rename_i c d
    split
    · nofun
    · rename_i hunc
      split
      · nofun
      · rename_i hdrive
        rw [read_cons_cons hunc hdrive]
        nofun
  · rename_i hlen
    unfold read
    split
    · rename_i c d rest
      split
      · unfold readUnc
        split
        · rename_i hrest
          obtain rfl := List.isEmpty_iff.mp hrest
          exact absurd rfl (hlen c d)
        · split
          · nofun
          · dsimp only
            split <;> nofun
      · split <;> nofun
    · nofun

/-- A path that was joined is joined as it is read. -/
theorem joinBase_join {name next : Segment} (h : IsPlain [name, next]) (p : List Char) :
    joinBase (join [p, name, next]) = (joinBase p).append [name, next] := by
  rw [← Base.close_append]
  refine joinBase_of_read (read_join h p) ?_
  cases hb : joinBase p with
  | path l => simp [Base.append, Base.close]
  | openUnc => exact absurd hb (joinBase_ne_openUnc p)
  | partialUnc server => simp [Base.append, Base.close]

end McpLocator.WindowsPath
