import McpLocator.Lib.LexicalPath

namespace McpLocator.PosixPath

open LexicalPath

/-!
# POSIX paths

* `read` — the lexical normal form of a path.
* `push` — `PathBuf::push`, hence `Path::join`.
* `normalize`, `join` — `path.posix.normalize` and `path.posix.join`.
* `read_push`, `read_join` — both append names to what a path reads as.
-/

def isSep (c : Char) : Bool := c == '/'

def read (p : List Char) : Lexical :=
  let rooted := p.head?.any isSep
  ⟨.none, rooted, resolve rooted (components isSep p)⟩

/-- The segments as they are written. -/
def parts (p : List Char) : Lexical := ⟨.none, p.head?.any isSep, components isSep p⟩

theorem read_eq_resolved (p : List Char) : read p = (parts p).resolved := rfl

/-! ### The two joins -/

/-- A rooted path replaces what it is pushed on. -/
def push (p q : List Char) : List Char :=
  if q.head?.any isSep then q
  else if p.isEmpty || endsInSep isSep p then p ++ q
  else p ++ '/' :: q

/-- A trailing separator is kept. -/
def render (l : Lexical) (trailing : Bool) : List Char :=
  if l.segments.isEmpty then
    if l.rooted then ['/'] else if trailing then ['.', '/'] else ['.']
  else (if l.rooted then ['/'] else []) ++ joinWith '/' l.segments ++ if trailing then ['/'] else []

def normalize (p : List Char) : List Char :=
  if p.isEmpty then ['.'] else render (read p) (endsInSep isSep p)

def join (parts : List (List Char)) : List Char :=
  let joined := joinWith '/' (parts.filter fun part => !part.isEmpty)
  if joined.isEmpty then ['.'] else normalize joined

example : join ["/usr/./share/".toList, "mcp-locator".toList, "servers".toList] =
    "/usr/share/mcp-locator/servers".toList := by decide

/-! ### Reading what was joined -/

variable {p : List Char} {names : List Segment}

theorem read_apart (h : IsNames isSep names) (hp : p ≠ []) :
    read (p ++ '/' :: joinWith '/' names) = (read p).append names := by
  obtain ⟨c, p, rfl⟩ := List.exists_cons_of_ne_nil hp
  simp only [read, Lexical.append, Lexical.mk.injEq, true_and]
  exact ⟨rfl, resolve_apart rfl _ h _⟩

theorem read_onto (h : IsNames isSep names) (hp : p = [] ∨ endsInSep isSep p = true) :
    read (p ++ joinWith '/' names) = (read p).append names := by
  have hrooted : (p ++ joinWith '/' names).head?.any isSep = p.head?.any isSep := by
    cases p with
    | nil =>
      obtain ⟨c, q, hq, hc⟩ := head?_names '/' h
      simp [hq, hc]
    | cons c p => rfl
  simp only [read, Lexical.append, Lexical.mk.injEq, true_and, hrooted]
  exact resolve_onto rfl _ h hp

/-- **Pushed names are below the path.** -/
theorem read_push (h : IsNames isSep names) (p : List Char) :
    read (push p (joinWith '/' names)) = (read p).append names := by
  obtain ⟨c, q, hq, hc⟩ := head?_names '/' h
  have hrel : (joinWith '/' names).head?.any isSep = false := by simp [hq, hc]
  rw [push, if_neg (by simp [hrel])]
  split
  · rename_i hp
    exact read_onto h (by simpa using hp)
  · rename_i hp
    refine read_apart h fun hnil => hp ?_
    simp [hnil]

/-! ### Reading what was normalized -/

theorem read_render {l : Lexical} (hroot : l.root = .none)
    (hres : resolve l.rooted l.segments = l.segments)
    (hsep : ∀ seg ∈ l.segments, ∀ c ∈ seg, isSep c = false) (trailing : Bool) :
    read (render l trailing) = l := by
  obtain ⟨root, rooted, segs⟩ := l
  obtain rfl : root = .none := hroot
  cases segs with
  | nil => cases rooted <;> cases trailing <;> rfl
  | cons seg segs =>
    have hres : resolve rooted (seg :: segs) = seg :: segs := hres
    have hseg : seg ≠ [] := (ne_of_mem_resolve (hres.symm ▸ List.mem_cons_self)).1
    obtain ⟨c, word, rfl⟩ := List.exists_cons_of_ne_nil hseg
    obtain ⟨q, hq⟩ := joinWith_head '/' c word segs
    have hjoin : resolve rooted (components isSep (joinWith '/' ((c :: word) :: segs) ++
        if trailing then ['/'] else [])) = (c :: word) :: segs :=
      (resolve_joinWith rfl rooted hsep (by cases trailing <;> simp)).trans hres
    rw [hq, List.cons_append] at hjoin
    cases rooted with
    | true =>
      show read ('/' :: (joinWith '/' ((c :: word) :: segs) ++ _)) = _
      rw [hq, List.cons_append]
      show Lexical.mk .none true (resolve true (components isSep ('/' :: _))) = _
      rw [resolve_sep_cons rfl, hjoin]
    | false =>
      have hc : isSep c = false := hsep _ List.mem_cons_self c List.mem_cons_self
      show read (joinWith '/' ((c :: word) :: segs) ++ _) = _
      rw [hq, List.cons_append]
      show Lexical.mk .none (isSep c) (resolve (isSep c) (components isSep (c :: _))) = _
      rw [hc, hjoin]

theorem read_normalize (p : List Char) : read (normalize p) = read p := by
  unfold normalize
  split
  · rename_i hp
    rw [List.isEmpty_iff.mp hp]
    rfl
  · exact read_render rfl (resolve_resolve _ _) (fun seg hseg =>
      Split.not_isSep_of_mem_splitOnP (mem_of_mem_resolve hseg)) _

/-- **Joined names are below the first part.** -/
theorem read_join (h : IsNames isSep names) (p : List Char) :
    read (join (p :: names)) = (read p).append names := by
  have hfilter : names.filter (fun part => !part.isEmpty) = names :=
    List.filter_eq_self.mpr fun seg hseg => by simpa using (h.2 seg hseg).1.1
  obtain ⟨c, q, hq, -⟩ := head?_names '/' h
  unfold join
  cases p with
  | nil =>
    rw [List.filter_cons_of_neg (by simp), hfilter]
    dsimp only
    rw [if_neg (by simp [hq]), read_normalize]
    exact read_onto h (.inl rfl)
  | cons x p =>
    rw [List.filter_cons_of_pos (by simp), hfilter]
    dsimp only
    rw [if_neg (by simp [joinWith_cons _ _ h.1]), read_normalize, joinWith_cons _ _ h.1]
    exact read_apart h (by simp)

end McpLocator.PosixPath
