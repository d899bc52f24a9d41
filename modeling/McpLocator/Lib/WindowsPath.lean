import McpLocator.Lib.LexicalPath

namespace McpLocator.WindowsPath

open LexicalPath

/-!
# Windows paths

* `read` — what a path reads as.  A path that stops inside of `\\\\server\\share` reads as a `Base`
  that the next names complete.
* `push` — `PathBuf::push` of a relative path, hence `Path::join`.
* `normalize`, `join` — `path.win32.normalize` and `path.win32.join`.
* `read_push` — pushed names are below what the path reads as.
-/

def isSep (c : Char) : Bool := c == '\\' || c == '/'

/-- What a path reads as: a normal form, `\\\\`, or `\\\\server`. -/
inductive Base where
  | path (l : Lexical)
  | openUnc
  | partialUnc (server : List Char)
deriving DecidableEq

def Base.append : Base → List Segment → Base
  | .path l, names => .path (l.append names)
  | b, [] => b
  | .openUnc, [name] => .partialUnc name
  | .openUnc, server :: share :: names => .path ⟨.unc server share, true, names⟩
  | .partialUnc server, share :: names => .path ⟨.unc server share, true, names⟩

/-- What a path leads to if nothing follows: a server alone is no root. -/
def Base.close : Base → Lexical
  | .path l => l
  | .openUnc => ⟨.none, true, []⟩
  | .partialUnc server => ⟨.none, true, resolve true [server]⟩

/-! ### Reading -/

/-- The characters before the first separator, and the rest. -/
def word (p : List Char) : List Char := p.takeWhile fun c => !isSep c

def afterWord (p : List Char) : List Char := p.dropWhile fun c => !isSep c

def readPlain (p : List Char) : Base :=
  let rooted := p.head?.any isSep
  .path ⟨.none, rooted, resolve rooted (components isSep p)⟩

def readDrive (letter : Char) (rest : List Char) : Base :=
  let rooted := rest.head?.any isSep
  .path ⟨.drive letter, rooted, resolve rooted (components isSep rest)⟩

/-- After two separators. -/
def readUnc (p : List Char) : Base :=
  if p.isEmpty then .openUnc
  else if (word p).isEmpty then .path ⟨.none, true, resolve true (components isSep p)⟩
  else
    let afterServer := (afterWord p).dropWhile isSep
    if afterServer.isEmpty then .partialUnc (word p)
    else .path ⟨.unc (word p) (word afterServer), true,
      resolve true (components isSep (afterWord afterServer))⟩

def read : List Char → Base
  | c :: d :: rest =>
    if isSep c && isSep d then readUnc rest
    else if c.isAlpha && d == ':' then readDrive c rest
    else readPlain (c :: d :: rest)
  | p => readPlain p

def lexical (p : List Char) : Lexical := (read p).close

/-- After two separators. -/
def partsUnc (p : List Char) : Lexical :=
  if p.isEmpty then ⟨.none, true, []⟩
  else if (word p).isEmpty then ⟨.none, true, components isSep p⟩
  else
    let afterServer := (afterWord p).dropWhile isSep
    if afterServer.isEmpty then ⟨.none, true, [word p]⟩
    else ⟨.unc (word p) (word afterServer), true, components isSep (afterWord afterServer)⟩

/-- The segments as they are written. -/
def parts : List Char → Lexical
  | c :: d :: rest =>
    if isSep c && isSep d then partsUnc rest
    else if c.isAlpha && d == ':' then ⟨.drive c, rest.head?.any isSep, components isSep rest⟩
    else ⟨.none, isSep c, components isSep (c :: d :: rest)⟩
  | p => ⟨.none, p.head?.any isSep, components isSep p⟩

theorem readUnc_close (p : List Char) : (readUnc p).close = (partsUnc p).resolved := by
  unfold readUnc partsUnc
  split
  · rfl
  split
  · rfl
  dsimp only
  split <;> rfl

theorem lexical_eq_resolved (p : List Char) : lexical p = (parts p).resolved := by
  unfold lexical read parts
  split
  · split
    · exact readUnc_close _
    split <;> rfl
  · rfl

/-! ### The two joins -/

/-- A drive letter and a colon. -/
def isBareDrive : List Char → Bool
  | [c, ':'] => c.isAlpha
  | _ => false

/-- A bare drive stays relative to the current directory of the drive.  A verbatim path would also be
    normalized, which changes nothing that `read` can tell. -/
def push (p q : List Char) : List Char :=
  if p.isEmpty || endsInSep isSep p || isBareDrive p then p ++ q else p ++ '\\' :: q

def rootText (l : Lexical) : List Char :=
  match l.root with
  | .none =>
    if l.rooted then ['\\']
    -- a relative path must not turn into one on a drive
    else if l.segments.head?.any fun seg => seg.head?.any Char.isAlpha && seg[1]? == some ':' then
      ['.', '\\']
    else []
  | .drive letter => letter :: ':' :: if l.rooted then ['\\'] else []
  | .unc server share => '\\' :: '\\' :: server ++ '\\' :: share ++ ['\\']

/-- A trailing separator is kept. -/
def tailText (l : Lexical) (trailing : Bool) : List Char :=
  if l.segments.isEmpty then
    if l.rooted then [] else '.' :: if trailing then ['\\'] else []
  else joinWith '\\' l.segments ++ if trailing then ['\\'] else []

def normalize (p : List Char) : List Char :=
  if p.isEmpty then ['.'] else rootText (lexical p) ++ tailText (lexical p) (endsInSep isSep p)

/-- Two separators and something else. -/
def startsUnc : List Char → Bool
  | a :: b :: c :: _ => isSep a && isSep b && !isSep c
  | _ => false

/-- Several separators in front count as one, unless the first part is meant as a UNC path. -/
def collapse (first joined : List Char) : List Char :=
  if startsUnc first then joined
  else if 2 ≤ (joined.takeWhile isSep).length then '\\' :: joined.dropWhile isSep
  else joined

def join (parts : List (List Char)) : List Char :=
  match parts.filter fun part => !part.isEmpty with
  | [] => ['.']
  | first :: rest => normalize (collapse first (joinWith '\\' (first :: rest)))

example : join ["C:\\Users\\me/.".toList, "AppData".toList, "Local".toList] =
    "C:\\Users\\me\\AppData\\Local".toList := by decide

example : push "D:".toList "mcp-locator".toList = "D:mcp-locator".toList ∧
    join ["D:".toList, "mcp-locator".toList] = "D:\\mcp-locator".toList := by decide

/-! ### Reading what was pushed -/

/-- Names that one may append, none of which has a colon in it. -/
def IsPlain (names : List Segment) : Prop :=
  IsNames isSep names ∧ ∀ seg ∈ names, ':' ∉ seg

instance (names : List Segment) : Decidable (IsPlain names) :=
  inferInstanceAs (Decidable (_ ∧ _))

/-- Names after a path, with a separator in between if it needs one. -/
def glue (p q : List Char) : List Char :=
  if p.isEmpty || endsInSep isSep p then p ++ q else p ++ '\\' :: q

section Words

variable {w x : List Char}

/-- A text that starts with a separator, if it starts at all. -/
def Breaks (x : List Char) : Prop := ∀ c ∈ x.head?, isSep c = true

theorem word_append (hw : ∀ c ∈ w, isSep c = false) (hx : Breaks x) : word (w ++ x) = w := by
  rw [word, List.takeWhile_append_of_pos fun c hc => by simp [hw c hc]]
  cases x with
  | nil => simp
  | cons c x => simp [hx c rfl]

theorem afterWord_append (hw : ∀ c ∈ w, isSep c = false) (hx : Breaks x) :
    afterWord (w ++ x) = x := by
  rw [afterWord, List.dropWhile_append_of_pos fun c hc => by simp [hw c hc]]
  cases x with
  | nil => rfl
  | cons c x => simp [hx c rfl]

theorem not_isSep_of_mem_word {p : List Char} : ∀ c ∈ word p, isSep c = false := by
  intro c hc
  have hall : (p.takeWhile fun c => !isSep c).all (fun c => !isSep c) = true := List.all_takeWhile
  simpa using List.all_eq_true.mp hall c hc

theorem breaks_afterWord (p : List Char) : Breaks (afterWord p) := by
  intro c hc
  have := List.head?_dropWhile_not (fun c => !isSep c) p
  rw [← afterWord, Option.mem_def.mp hc] at this
  simpa using this

/-- What follows a run of separators starts with another character. -/
theorem exists_cons_dropWhile {p : List Char} (h : p.dropWhile isSep ≠ []) :
    ∃ d q, p.dropWhile isSep = d :: q ∧ isSep d = false := by
  obtain ⟨d, q, hq⟩ := List.exists_cons_of_ne_nil h
  have hhead := List.head?_dropWhile_not isSep p
  rw [hq] at hhead
  exact ⟨d, q, hq, hhead⟩

/-- A path is its first word and the rest. -/
theorem word_append_afterWord (p : List Char) : word p ++ afterWord p = p :=
  List.takeWhile_append_dropWhile

end Words

variable {p q : List Char} {names : List Segment}

theorem resolve_glue (rooted : Bool) (h : IsNames isSep names) (p : List Char) :
    resolve rooted (components isSep (glue p (joinWith '\\' names))) =
      resolve rooted (components isSep p) ++ names := by
  unfold glue
  split
  · rename_i hp
    exact resolve_onto rfl rooted h (by simpa using hp)
  · exact resolve_apart rfl rooted h p

theorem glue_append (hq : q ≠ []) (p r : List Char) : glue (p ++ q) r = p ++ glue q r := by
  have hend : endsInSep isSep (p ++ q) = endsInSep isSep q := by
    rw [endsInSep, List.getLast?_append_of_ne_nil _ hq, endsInSep]
  have hne : (p ++ q).isEmpty = false := by simpa using fun _ => hq
  have hne' : q.isEmpty = false := by simpa using hq
  unfold glue
  rw [hend, hne, hne']
  split <;> simp

/-- The names are the first of them and a text with the others. -/
theorem names_eq {name : Segment} (h : IsNames isSep (name :: names)) :
    ∃ r, joinWith '\\' (name :: names) = name ++ r ∧ Breaks r ∧
      resolve true (components isSep r) = names := by
  by_cases hne : names = []
  · subst hne
    exact ⟨[], by simp [joinWith], nofun, rfl⟩
  · have hnames : IsNames isSep names := ⟨hne, fun seg hseg => h.2 seg (List.mem_cons_of_mem _ hseg)⟩
    refine ⟨'\\' :: joinWith '\\' names, joinWith_cons _ _ hne, by simp [Breaks, isSep], ?_⟩
    exact resolve_apart rfl true hnames []

/-- Names glued to a text that starts with a word. -/
theorem glue_word (h : IsNames isSep names) {w tl : List Char} (hne : w ≠ [])
    (hw : ∀ c ∈ w, isSep c = false) (htl : Breaks tl) :
    ∃ x, glue (w ++ tl) (joinWith '\\' names) = w ++ x ∧ Breaks x ∧
      resolve true (components isSep x) = resolve true (components isSep tl) ++ names ∧
      x.dropWhile isSep = if tl.dropWhile isSep = [] then joinWith '\\' names
        else glue (tl.dropWhile isSep) (joinWith '\\' names) := by
  obtain ⟨c, q, hq, hc⟩ := head?_names '\\' h
  have hdrop : (joinWith '\\' names).dropWhile isSep = joinWith '\\' names := by
    rw [hq, List.dropWhile_cons_of_neg (by simp [hc])]
  cases tl with
  | nil =>
    refine ⟨'\\' :: joinWith '\\' names, ?_, by simp [Breaks, isSep], resolve_apart rfl true h [], ?_⟩
    · have hend : endsInSep isSep w = false := by
        rw [endsInSep, List.getLast?_eq_some_getLast hne]
        exact hw _ (List.getLast_mem hne)
      rw [List.append_nil, glue, if_neg (by simp [hend, hne])]
    · rw [List.dropWhile_cons_of_pos rfl, hdrop]
      rfl
  | cons s tl =>
    refine ⟨glue (s :: tl) (joinWith '\\' names), glue_append (by simp) _ _, ?_,
      resolve_glue true h _, ?_⟩
    · intro c hc
      unfold glue at hc
      split at hc <;> exact htl c hc
    · -- a run of separators, and what follows it
      have hsplit := List.takeWhile_append_dropWhile (p := isSep) (l := s :: tl)
      have hall : ∀ c ∈ (s :: tl).takeWhile isSep, isSep c = true :=
        List.all_eq_true.mp List.all_takeWhile
      split
      · rename_i hnil
        rw [hnil, List.append_nil] at hsplit
        rw [hsplit] at hall
        have hend : endsInSep isSep (s :: tl) = true := by
          rw [endsInSep, List.getLast?_eq_some_getLast (by simp)]
          exact hall _ (List.getLast_mem _)
        rw [glue, if_pos (by simp [hend]), List.dropWhile_append_of_pos hall, hdrop]
      · rename_i hnil
        conv_lhs => rw [← hsplit]
        rw [glue_append hnil, List.dropWhile_append_of_pos hall]
        obtain ⟨d, y, hy, hd⟩ := exists_cons_dropWhile hnil
        rw [hy]
        unfold glue
        split <;> exact List.dropWhile_cons_of_neg (by simp [hd])

/-- What is read after two separators and a server. -/
theorem readUnc_word {w x : List Char} (hne : w ≠ []) (hw : ∀ c ∈ w, isSep c = false)
    (hx : Breaks x) : readUnc (w ++ x) =
      if (x.dropWhile isSep).isEmpty then .partialUnc w
      else .path ⟨.unc w (word (x.dropWhile isSep)), true,
        resolve true (components isSep (afterWord (x.dropWhile isSep)))⟩ := by
  rw [readUnc, if_neg (by simp [hne]), word_append hw hx, if_neg (by simp [hne]),
    afterWord_append hw hx]

/-- What follows a run of separators starts with a word. -/
theorem word_dropWhile_ne_nil {x : List Char} (h : x.dropWhile isSep ≠ []) :
    word (x.dropWhile isSep) ≠ [] := by
  obtain ⟨d, y, hy, hd⟩ := exists_cons_dropWhile h
  simp [hy, word, hd]

/-- The names after two separators and something else. -/
theorem readUnc_glue (h : IsNames isSep names) (hp : p ≠ []) :
    readUnc (glue p (joinWith '\\' names)) = (readUnc p).append names := by
  by_cases hw : word p = []
  · -- a third separator: the path is rooted, and has no server
    obtain ⟨c, p, rfl⟩ := List.exists_cons_of_ne_nil hp
    have hc : isSep c = true := by
      by_contra hc
      rw [Bool.not_eq_true] at hc
      simp [word, hc] at hw
    have hglue : ∃ q, glue (c :: p) (joinWith '\\' names) = c :: q := by
      unfold glue
      split <;> exact ⟨_, rfl⟩
    obtain ⟨q, hq⟩ := hglue
    have hres := resolve_glue true h (c :: p)
    rw [hq] at hres ⊢
    have hread : ∀ q, readUnc (c :: q) = .path ⟨.none, true, resolve true (components isSep (c :: q))⟩ :=
      fun q => by simp [readUnc, word, hc]
    rw [hread, hread, hres]
    rfl
  have hp : readUnc p = readUnc (word p ++ afterWord p) := by rw [word_append_afterWord]
  obtain ⟨x, hx, hbreaks, -, hdrop⟩ :=
    glue_word h hw not_isSep_of_mem_word (breaks_afterWord p)
  rw [word_append_afterWord] at hx
  rw [hx, hp, readUnc_word hw not_isSep_of_mem_word hbreaks,
    readUnc_word hw not_isSep_of_mem_word (breaks_afterWord p), hdrop]
  by_cases hafter : (afterWord p).dropWhile isSep = []
  · -- the first name is the share
    obtain ⟨name, rest, rfl⟩ := List.exists_cons_of_ne_nil h.1
    obtain ⟨r, hr, hbreaks', hres⟩ := names_eq h
    have hname := h.2 name List.mem_cons_self
    rw [if_pos hafter, hr, word_append hname.2 hbreaks', afterWord_append hname.2 hbreaks', hres,
      if_neg (by simp [hname.1.1]), if_pos (by simp [hafter])]
    rfl
  · have hshare := word_dropWhile_ne_nil hafter
    obtain ⟨y, hy, hbreaks', hres, -⟩ :=
      glue_word h hshare not_isSep_of_mem_word (breaks_afterWord _)
    rw [word_append_afterWord] at hy
    rw [if_neg hafter, hy, word_append not_isSep_of_mem_word hbreaks',
      afterWord_append not_isSep_of_mem_word hbreaks', hres, if_neg (by simp [hshare]),
      if_neg (by simp [hafter])]
    rfl

/-- The names right after two separators. -/
theorem readUnc_names (h : IsNames isSep names) :
    readUnc (joinWith '\\' names) = Base.openUnc.append names := by
  obtain ⟨name, rest, rfl⟩ := List.exists_cons_of_ne_nil h.1
  obtain ⟨r, hr, hbreaks, hres⟩ := names_eq h
  have hname := h.2 name List.mem_cons_self
  rw [hr, readUnc_word hname.1.1 hname.2 hbreaks]
  by_cases hrest : rest = []
  · subst hrest
    have hnil : r = [] := by simpa [joinWith] using hr
    subst hnil
    rfl
  · have hrest' : IsNames isSep rest := ⟨hrest, fun seg hseg => h.2 seg (List.mem_cons_of_mem _ hseg)⟩
    have hr' : r = '\\' :: joinWith '\\' rest := by
      rw [joinWith_cons _ _ hrest] at hr
      exact (List.append_cancel_left hr).symm
    obtain ⟨share, more, rfl⟩ := List.exists_cons_of_ne_nil hrest
    obtain ⟨r', hshare, hbreaks', hres'⟩ := names_eq hrest'
    have hword := hrest'.2 share List.mem_cons_self
    obtain ⟨c, q, hq, hc⟩ := head?_names '\\' hrest'
    have hdrop : r.dropWhile isSep = share ++ r' := by
      rw [hr', List.dropWhile_cons_of_pos rfl, ← hshare, hq,
        List.dropWhile_cons_of_neg (by simp [hc])]
    rw [hdrop, if_neg (by simp [hword.1.1]), word_append hword.2 hbreaks',
      afterWord_append hword.2 hbreaks', hres']
    rfl

theorem head?_glue (h : IsNames isSep names) (p : List Char) :
    (glue p (joinWith '\\' names)).head?.any isSep = p.head?.any isSep := by
  obtain ⟨c, q, hq, hc⟩ := head?_names '\\' h
  cases p with
  | nil => simp [glue, hq, hc]
  | cons d p =>
    unfold glue
    split <;> rfl

theorem readPlain_glue (h : IsNames isSep names) (p : List Char) :
    readPlain (glue p (joinWith '\\' names)) = (readPlain p).append names := by
  simp only [readPlain, Base.append, Lexical.append, head?_glue h, resolve_glue _ h]

theorem readDrive_glue (letter : Char) (h : IsNames isSep names) (p : List Char) :
    readDrive letter (glue p (joinWith '\\' names)) = (readDrive letter p).append names := by
  simp only [readDrive, Base.append, Lexical.append, head?_glue h, resolve_glue _ h]

theorem colon_notMem_joinWith (h : ∀ seg ∈ names, ':' ∉ seg) : ':' ∉ joinWith '\\' names := by
  induction names with
  | nil => exact List.not_mem_nil
  | cons seg names ih =>
    rw [List.forall_mem_cons] at h
    by_cases hne : names = []
    · subst hne
      simpa [joinWith] using h.1
    · rw [joinWith_cons _ _ hne, List.mem_append, List.mem_cons, not_or, not_or]
      exact ⟨h.1, by decide, ih h.2⟩

theorem not_isAlpha_of_isSep {c : Char} (h : isSep c = true) : c.isAlpha = false := by
  simp only [isSep, Bool.or_eq_true, beq_iff_eq] at h
  rcases h with rfl | rfl <;> rfl

theorem push_eq_glue (h : isBareDrive p = false) (q : List Char) : push p q = glue p q := by
  simp [push, glue, h]

theorem isBareDrive_cons_cons (c d : Char) (rest : List Char) :
    isBareDrive (c :: d :: rest) = (c.isAlpha && d == ':' && rest.isEmpty) := by
  cases rest with
  | nil =>
    by_cases hd : d = ':'
    · subst hd
      simp [isBareDrive]
    · simp [isBareDrive, hd]
  | cons e rest => simp [isBareDrive]

/-- Two characters that are neither two separators nor a drive. -/
theorem read_cons_cons {c d : Char} (hunc : ¬(isSep c && isSep d) = true)
    (hdrive : ¬(c.isAlpha && d == ':') = true) (rest : List Char) :
    read (c :: d :: rest) = readPlain (c :: d :: rest) := by
  rw [read, if_neg hunc, if_neg hdrive]

theorem read_push_unc (h : IsNames isSep names) {c d : Char}
    (hunc : (isSep c && isSep d) = true) (rest : List Char) :
    read (push (c :: d :: rest) (joinWith '\\' names)) = (readUnc rest).append names := by
  have hsep := hunc
  rw [Bool.and_eq_true] at hsep
  have hbare : isBareDrive (c :: d :: rest) = false := by
    rw [isBareDrive_cons_cons, not_isAlpha_of_isSep hsep.1]
    rfl
  rw [push_eq_glue hbare]
  by_cases hrest : rest = []
  · subst hrest
    have hglue : glue [c, d] (joinWith '\\' names) = c :: d :: joinWith '\\' names := by
      simp [glue, endsInSep, hsep.2]
    rw [hglue, read, if_pos hunc]
    exact readUnc_names h
  · rw [show c :: d :: rest = [c, d] ++ rest from rfl, glue_append hrest]
    show read (c :: d :: glue rest _) = _
    rw [read, if_pos hunc]
    exact readUnc_glue h hrest

theorem read_push_drive (h : IsNames isSep names) {c d : Char}
    (hunc : ¬(isSep c && isSep d) = true) (hdrive : (c.isAlpha && d == ':') = true)
    (rest : List Char) :
    read (push (c :: d :: rest) (joinWith '\\' names)) = (readDrive c rest).append names := by
  have hpush : push (c :: d :: rest) (joinWith '\\' names) =
      c :: d :: glue rest (joinWith '\\' names) := by
    by_cases hrest : rest = []
    · subst hrest
      simp [push, isBareDrive_cons_cons, hdrive, glue]
    · have hbare : isBareDrive (c :: d :: rest) = false := by
        rw [isBareDrive_cons_cons, hdrive]
        simpa using hrest
      rw [push_eq_glue hbare]
      exact glue_append hrest [c, d] _
  rw [hpush, read, if_neg hunc, if_pos hdrive]
  exact readDrive_glue c h rest

theorem read_push_plain (h : IsNames isSep names) {c d : Char}
    (hunc : ¬(isSep c && isSep d) = true) (hdrive : ¬(c.isAlpha && d == ':') = true)
    (rest : List Char) : read (push (c :: d :: rest) (joinWith '\\' names)) =
      (readPlain (c :: d :: rest)).append names := by
  have hbare : isBareDrive (c :: d :: rest) = false := by
    rw [Bool.not_eq_true] at hdrive
    rw [isBareDrive_cons_cons, hdrive]
    rfl
  obtain ⟨tail, htail⟩ : ∃ tail, glue (c :: d :: rest) (joinWith '\\' names) = c :: d :: tail := by
    unfold glue
    split <;> exact ⟨_, rfl⟩
  rw [push_eq_glue hbare, ← readPlain_glue h, htail, read_cons_cons hunc hdrive]

/-- **Pushed names are below what the path reads as.** -/
theorem read_push (h : IsPlain names) (p : List Char) :
    read (push p (joinWith '\\' names)) = (read p).append names := by
  obtain ⟨hnames, hcolon⟩ := h
  have hcolon := colon_notMem_joinWith hcolon
  obtain ⟨x, q, hq, hx⟩ := head?_names '\\' hnames
  have hcolon' : x ≠ ':' := fun hx => hcolon (by simp [hq, hx])
  match p with
  | [] =>
    have hread : read (joinWith '\\' names) = readPlain (joinWith '\\' names) := by
      rw [hq] at hcolon ⊢
      cases q with
      | nil => rfl
      | cons d q =>
        have hd : d ≠ ':' := fun hd => hcolon (by simp [hd])
        exact read_cons_cons (by simp [hx]) (by simp [hd]) q
    exact hread.trans (readPlain_glue hnames [])
  | [c] =>
    have hread : read (push [c] (joinWith '\\' names)) =
        readPlain (glue [c] (joinWith '\\' names)) := by
      by_cases hc : isSep c = true
      · simp [push, glue, endsInSep, hc, hq, read, hx, hcolon']
      · rw [Bool.not_eq_true] at hc
        simp [push, glue, endsInSep, hc, isBareDrive, read]
    exact hread.trans (readPlain_glue hnames [c])
  | c :: d :: rest =>
    by_cases hunc : (isSep c && isSep d) = true
    · rw [read_push_unc hnames hunc, read, if_pos hunc]
    · by_cases hdrive : (c.isAlpha && d == ':') = true
      · rw [read_push_drive hnames hunc hdrive, read, if_neg hunc, if_pos hdrive]
      · rw [read_push_plain hnames hunc hdrive, read_cons_cons hunc hdrive]

end McpLocator.WindowsPath
