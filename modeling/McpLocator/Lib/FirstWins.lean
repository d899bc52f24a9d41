import Mathlib.Data.List.Sort
import Mathlib.Data.List.Induction

namespace McpLocator.FirstWins

/-!
# Merging by key, the first item wins

Items are merged into a table of rows, one row for a key: the first item of a key makes the row, the
later ones are added to it.

* `Rows` — how a row is made and added to; `collect` — the table of a list of items.
* `Rows.row` — the row of a key, from the items of that key alone.
* `mem_collect` — the table holds exactly the rows of its keys, `nodup_collect` each once.
* `repeats` — the keys of the items that are not the first of theirs.
* `Merge` — the merge of files that may fail to be read, with a log of errors and repeated items;
  `Merge.run_fst`, `Merge.run_errors`, `Merge.run_notes` say what it comes to.
* `sorted` — the table by key; `sorted_eq`: tables whose rows look alike for every key are alike once
  they are sorted.
-/

/-- How a row is made of the first item of its key, and how a later item is added to it. -/
structure Rows (κ α β : Type) where
  key : β → κ
  start : κ → α → β
  more : β → α → β
  key_start : ∀ k a, key (start k a) = k
  key_more : ∀ b a, key (more b a) = key b

variable {κ α β : Type} [DecidableEq κ]

/-- The items of a key, in order. -/
def valuesOf (k : κ) (items : List (κ × α)) : List α :=
  (items.filter fun item => item.1 = k).map Prod.snd

theorem valuesOf_append (k : κ) (items items' : List (κ × α)) :
    valuesOf k (items ++ items') = valuesOf k items ++ valuesOf k items' := by
  simp [valuesOf]

theorem mem_valuesOf {k : κ} {items : List (κ × α)} {a : α} :
    a ∈ valuesOf k items ↔ (k, a) ∈ items := by
  simp [valuesOf]

theorem valuesOf_map {γ : Type} (p : κ → α → γ) (k : κ) (items : List (κ × α)) :
    valuesOf k (items.map fun item => (item.1, p item.1 item.2)) = (valuesOf k items).map (p k) := by
  induction items with
  | nil => rfl
  | cons item items ih =>
    by_cases hk : item.1 = k
    · simpa [valuesOf, hk] using ih
    · simpa [valuesOf, hk] using ih

theorem valuesOf_flatMap {γ : Type} (k : κ) (f : γ → List (κ × α)) (l : List γ) :
    valuesOf k (l.flatMap f) = l.flatMap fun c => valuesOf k (f c) := by
  induction l with
  | nil => rfl
  | cons c l ih => rw [List.flatMap_cons, valuesOf_append, ih, List.flatMap_cons]

/-- Items with distinct keys: their order does not matter for what a key has. -/
theorem valuesOf_perm {items items' : List (κ × α)} (h : items.Perm items')
    (hd : (items.map Prod.fst).Nodup) (k : κ) : valuesOf k items = valuesOf k items' := by
  have hperm : (valuesOf k items).Perm (valuesOf k items') := (h.filter _).map _
  -- a key with distinct items has at most one
  have hshort : (valuesOf k items).length ≤ 1 := by
    have hfst : ((items.filter fun item => item.1 = k).map Prod.fst).Nodup :=
      hd.sublist (List.filter_sublist.map _)
    have hall : ∀ k' ∈ (items.filter fun item => item.1 = k).map Prod.fst, k' = k := by
      intro k' hk'
      obtain ⟨item, hitem, rfl⟩ := List.mem_map.mp hk'
      simpa using (List.mem_filter.mp hitem).2
    rw [List.eq_replicate_of_mem hall, List.nodup_replicate] at hfst
    simpa [valuesOf] using hfst
  match hv : valuesOf k items, hshort with
  | [], _ => exact (List.nil_perm.mp (hv ▸ hperm)).symm
  | [a], _ => exact List.singleton_perm.mp (hv ▸ hperm)

/-! ### The table -/

variable (R : Rows κ α β)

/-- One more item. -/
def add (table : List β) (item : κ × α) : List β :=
  if item.1 ∈ table.map R.key then
    table.map fun b => if R.key b = item.1 then R.more b item.2 else b
  else table ++ [R.start item.1 item.2]

/-- The table of the items. -/
def collect (items : List (κ × α)) : List β := items.foldl (add R) []

/-- The row that items of one key make. -/
def rowOf (k : κ) : List α → Option β
  | [] => none
  | a :: rest => some (rest.foldl R.more (R.start k a))

/-- The row of a key. -/
def row (k : κ) (items : List (κ × α)) : Option β := rowOf R k (valuesOf k items)

@[simp] theorem collect_nil : collect R [] = [] := rfl

theorem collect_snoc (items : List (κ × α)) (item : κ × α) :
    collect R (items ++ [item]) = add R (collect R items) item := by
  rw [collect, List.foldl_append]
  rfl

omit [DecidableEq κ] in
theorem rowOf_snoc (k : κ) (as : List α) (a : α) :
    rowOf R k (as ++ [a]) = some ((rowOf R k as).elim (R.start k a) (R.more · a)) := by
  cases as with
  | nil => rfl
  | cons a' as => simp [rowOf]

omit [DecidableEq κ] in
theorem key_rowOf {R : Rows κ α β} {k : κ} {as : List α} {b : β} (h : rowOf R k as = some b) :
    R.key b = k := by
  induction as using List.reverseRecOn generalizing b with
  | nil => simp [rowOf] at h
  | append_singleton as a ih =>
    rw [rowOf_snoc] at h
    cases hrow : rowOf R k as with
    | none =>
      rw [hrow] at h
      exact Option.some.inj h ▸ R.key_start k a
    | some b' =>
      rw [hrow] at h
      obtain rfl := Option.some.inj h
      exact (R.key_more b' a).trans (ih hrow)

theorem row_snoc (k : κ) (items : List (κ × α)) (item : κ × α) :
    row R k (items ++ [item]) =
      if item.1 = k then some ((row R k items).elim (R.start k item.2) (R.more · item.2))
      else row R k items := by
  rw [row, valuesOf_append]
  split
  · rename_i h
    have hone : valuesOf k [item] = [item.2] := by simp [valuesOf, h]
    rw [hone, rowOf_snoc]
    rfl
  · rename_i h
    have hnone : valuesOf k [item] = [] := by simp [valuesOf, h]
    rw [hnone, List.append_nil]
    rfl

/-- A table seen through `f`: its items are the items of another table. -/
theorem map_row {γ δ : Type} {R : Rows κ α β} {Q : Rows κ γ δ} {f : β → δ} {p : κ → α → γ}
    (hstart : ∀ k a, f (R.start k a) = Q.start k (p k a))
    (hmore : ∀ b a, f (R.more b a) = Q.more (f b) (p (R.key b) a)) (k : κ) (items : List (κ × α)) :
    (row R k items).map f = rowOf Q k ((valuesOf k items).map (p k)) := by
  rw [row]
  induction valuesOf k items using List.reverseRecOn with
  | nil => rfl
  | append_singleton as a ih =>
    rw [List.map_append, List.map_singleton, rowOf_snoc, rowOf_snoc, ← ih]
    cases hrow : rowOf R k as with
    | none => simp [hstart]
    | some b => simp [hmore, key_rowOf hrow]

/-- An item changes no key but may add its own. -/
theorem map_key_add (table : List β) (item : κ × α) : (add R table item).map R.key =
    if item.1 ∈ table.map R.key then table.map R.key else table.map R.key ++ [item.1] := by
  rw [add]
  split
  · rw [List.map_map]
    refine List.map_congr_left fun b _ => ?_
    show R.key (if R.key b = item.1 then R.more b item.2 else b) = R.key b
    split
    · exact R.key_more b item.2
    · rfl
  · rw [List.map_append, List.map_singleton, R.key_start]

theorem mem_add_of_mem {table : List β} {item : κ × α} (h : item.1 ∈ table.map R.key) {b : β} :
    b ∈ add R table item ↔ (b ∈ table ∧ R.key b ≠ item.1) ∨
      ∃ b₀ ∈ table, R.key b₀ = item.1 ∧ b = R.more b₀ item.2 := by
  rw [add, if_pos h, List.mem_map]
  constructor
  · rintro ⟨b₀, hb₀, rfl⟩
    by_cases hk : R.key b₀ = item.1
    · exact .inr ⟨b₀, hb₀, hk, if_pos hk⟩
    · rw [if_neg hk]
      exact .inl ⟨hb₀, hk⟩
  · rintro (⟨hb, hk⟩ | ⟨b₀, hb₀, hk, rfl⟩)
    · exact ⟨b, hb, if_neg hk⟩
    · exact ⟨b₀, hb₀, if_pos hk⟩

theorem mem_add_of_notMem {table : List β} {item : κ × α} (h : item.1 ∉ table.map R.key) {b : β} :
    b ∈ add R table item ↔ b ∈ table ∨ b = R.start item.1 item.2 := by
  rw [add, if_neg h, List.mem_append, List.mem_singleton]

/-- No key has two rows. -/
theorem nodup_collect (items : List (κ × α)) : ((collect R items).map R.key).Nodup := by
  induction items using List.reverseRecOn with
  | nil => exact List.nodup_nil
  | append_singleton items item ih =>
    rw [collect_snoc, map_key_add]
    split
    · exact ih
    · rename_i h
      refine List.nodup_append.mpr ⟨ih, List.nodup_singleton _, fun a ha b hb => ?_⟩
      rintro rfl
      exact h (List.mem_singleton.mp hb ▸ ha)

/-- **The table holds the rows of its keys.** -/
theorem mem_collect (items : List (κ × α)) (b : β) :
    b ∈ collect R items ↔ row R (R.key b) items = some b := by
  induction items using List.reverseRecOn generalizing b with
  | nil => simp [row, rowOf, valuesOf]
  | append_singleton items item ih =>
    have hkey : ∀ k, k ∈ (collect R items).map R.key ↔ (row R k items).isSome = true := by
      intro k
      constructor
      · intro h
        obtain ⟨b, hb, rfl⟩ := List.mem_map.mp h
        rw [(ih b).mp hb]
        rfl
      · intro h
        obtain ⟨b, hb⟩ := Option.isSome_iff_exists.mp h
        exact List.mem_map.mpr ⟨b, (ih b).mpr ((key_rowOf hb).symm ▸ hb), key_rowOf hb⟩
    rw [collect_snoc, row_snoc]
    by_cases hk : item.1 = R.key b
    · rw [if_pos hk]
      cases hrow : row R (R.key b) items with
      | none =>
        -- the item makes a row
        have hnew : item.1 ∉ (collect R items).map R.key := by
          rw [hk, hkey, hrow]
          simp
        rw [mem_add_of_notMem R hnew, Option.elim, ← hk, Option.some_inj]
        refine ⟨fun h => h.elim (fun hb => ?_) Eq.symm, fun h => .inr h.symm⟩
        exact absurd (hk ▸ List.mem_map_of_mem hb) hnew
      | some b' =>
        -- the item is added to the row of its key
        have hb' : R.key b' = item.1 := (key_rowOf hrow).trans hk.symm
        have hold : item.1 ∈ (collect R items).map R.key := by
          rw [hk, hkey, hrow]
          rfl
        rw [mem_add_of_mem R hold, Option.elim, Option.some_inj]
        constructor
        · rintro (⟨-, hne⟩ | ⟨b₀, hb₀, heq, rfl⟩)
          · exact absurd hk.symm hne
          · have hrow₀ := (ih b₀).mp hb₀
            rw [heq, hk, hrow] at hrow₀
            rw [Option.some.inj hrow₀]
        · intro h
          exact .inr ⟨b', (ih b').mpr (by rw [hb', hk, hrow]), hb', h.symm⟩
    · rw [if_neg hk, ← ih b]
      by_cases hold : item.1 ∈ (collect R items).map R.key
      · rw [mem_add_of_mem R hold]
        refine ⟨?_, fun h => .inl ⟨h, Ne.symm hk⟩⟩
        rintro (⟨h, -⟩ | ⟨b₀, -, heq, rfl⟩)
        · exact h
        · exact absurd (heq.symm.trans (R.key_more b₀ item.2).symm) hk
      · rw [mem_add_of_notMem R hold]
        refine ⟨fun h => h.elim id ?_, .inl⟩
        rintro rfl
        exact absurd (R.key_start item.1 item.2).symm hk

theorem mem_map_key_collect (items : List (κ × α)) (k : κ) :
    k ∈ (collect R items).map R.key ↔ k ∈ items.map Prod.fst := by
  have hrow : k ∈ (collect R items).map R.key ↔ ∃ b, row R k items = some b := by
    constructor
    · intro h
      obtain ⟨b, hb, rfl⟩ := List.mem_map.mp h
      exact ⟨b, (mem_collect R items b).mp hb⟩
    · rintro ⟨b, hb⟩
      exact List.mem_map.mpr ⟨b, (mem_collect R items b).mpr ((key_rowOf hb).symm ▸ hb), key_rowOf hb⟩
  rw [hrow, row]
  cases hv : valuesOf k items with
  | nil =>
    have hnone : ∀ a, (k, a) ∉ items := fun a ha => by simpa [hv] using mem_valuesOf.mpr ha
    simp [rowOf, hnone]
  | cons a as =>
    have ha : (k, a) ∈ items := mem_valuesOf.mp (by simp [hv])
    simp only [rowOf, Option.some.injEq, exists_eq', true_iff]
    exact List.mem_map_of_mem ha

/-! ### Items that are not the first of their key -/

/-- The keys of the items whose key has come before. -/
def repeats (items : List (κ × α)) : List κ :=
  (items.foldl (fun seen item => (item.1 :: seen.1,
    if item.1 ∈ seen.1 then seen.2 ++ [item.1] else seen.2)) (([], []) : List κ × List κ)).2

theorem repeats_snoc (items : List (κ × α)) (item : κ × α) : repeats (items ++ [item]) =
    if item.1 ∈ items.map Prod.fst then repeats items ++ [item.1] else repeats items := by
  have hseen : ∀ (items : List (κ × α)) (start : List κ × List κ),
      (items.foldl (fun seen item => (item.1 :: seen.1,
        if item.1 ∈ seen.1 then seen.2 ++ [item.1] else seen.2)) start).1 =
          (items.map Prod.fst).reverse ++ start.1 := by
    intro items
    induction items with
    | nil => intro start; rfl
    | cons i items ih =>
      intro start
      rw [List.foldl_cons, ih]
      simp
  rw [repeats, List.foldl_append, List.foldl_cons, List.foldl_nil]
  dsimp only
  rw [hseen, List.append_nil]
  simp only [List.mem_reverse]
  rfl

/-- A key is repeated by all its items but the first. -/
theorem count_repeats (items : List (κ × α)) (k : κ) :
    (repeats items).count k = (valuesOf k items).length - 1 := by
  induction items using List.reverseRecOn with
  | nil => rfl
  | append_singleton items item ih =>
    have hkey : item.1 = k → (item.1 ∈ items.map Prod.fst ↔ 0 < (valuesOf k items).length) := by
      rintro rfl
      rw [List.length_pos_iff_exists_mem]
      simp [mem_valuesOf]
    have hvalues : (valuesOf k (items ++ [item])).length =
        (valuesOf k items).length + if item.1 = k then 1 else 0 := by
      rw [valuesOf_append, List.length_append]
      by_cases hk : item.1 = k <;> simp [valuesOf, hk]
    rw [repeats_snoc, hvalues]
    by_cases hk : item.1 = k
    · by_cases hmem : item.1 ∈ items.map Prod.fst
      · have hpos := (hkey hk).mp hmem
        rw [if_pos hmem, if_pos hk, List.count_append, ih, hk, List.count_singleton_self]
        omega
      · have hzero : ¬0 < (valuesOf k items).length := fun h => hmem ((hkey hk).mpr h)
        rw [if_neg hmem, if_pos hk, ih]
        omega
    · rw [if_neg hk, Nat.add_zero, ← ih]
      split
      · rw [List.count_append, List.count_singleton, beq_false_of_ne hk]
        rfl
      · rfl

/-- Items with as many of every key repeat the same keys. -/
theorem repeats_perm {α' : Type} {items : List (κ × α)} {items' : List (κ × α')}
    (h : ∀ k, (valuesOf k items).length = (valuesOf k items').length) :
    (repeats items).Perm (repeats items') :=
  List.perm_iff_count.mpr fun k => by rw [count_repeats, count_repeats, h]

/-- The row of a key is found under it. -/
theorem find?_key_eq_some {table : List β} (h : (table.map R.key).Nodup) {k : κ} {b : β} :
    table.find? (R.key · = k) = some b ↔ b ∈ table ∧ R.key b = k := by
  constructor
  · intro h
    exact ⟨List.mem_of_find?_eq_some h, by simpa using List.find?_some h⟩
  · rintro ⟨hb, hk⟩
    cases hfind : table.find? (R.key · = k) with
    | none => exact absurd (List.find?_eq_none.mp hfind b hb) (by simpa using hk)
    | some b' =>
      have hk' : R.key b' = k := by simpa using List.find?_some hfind
      exact congrArg some (List.inj_on_of_nodup_map h (List.mem_of_find?_eq_some hfind) hb
        (hk'.trans hk.symm))

/-! ### Merging files, with a log -/

/-- A merge of files: a file is an item or an error, and a repeated item is noted. -/
structure Merge (F κ α β D : Type) extends Rows κ α β where
  read : F → Except D (κ × α)
  note : β → κ × α → D

namespace Merge

variable {F D : Type} (M : Merge F κ α β D)

/-- One more file. -/
def step (state : List β × List D) (f : F) : List β × List D :=
  match M.read f with
  | .error d => (state.1, state.2 ++ [d])
  | .ok item =>
    match state.1.find? (M.key · = item.1) with
    | some existing => (add M.toRows state.1 item, state.2 ++ [M.note existing item])
    | none => (add M.toRows state.1 item, state.2)

/-- The table and the log of some files. -/
def run (files : List F) : List β × List D := files.foldl M.step ([], [])

/-- What the valid files hold. -/
def items (files : List F) : List (κ × α) := files.filterMap fun f => (M.read f).toOption

/-- What is wrong with the others. -/
def errors (files : List F) : List D :=
  files.filterMap fun f => match M.read f with
    | .error d => some d
    | .ok _ => none

theorem run_snoc (files : List F) (f : F) : M.run (files ++ [f]) = M.step (M.run files) f := by
  rw [run, List.foldl_append]
  rfl

omit [DecidableEq κ] in
theorem items_snoc (files : List F) (f : F) :
    M.items (files ++ [f]) = M.items files ++ (M.read f).toOption.toList := by
  rw [items, List.filterMap_append]
  cases h : M.read f <;> simp [items, h, Except.toOption]

omit [DecidableEq κ] in
theorem errors_snoc (files : List F) (f : F) : M.errors (files ++ [f]) =
    M.errors files ++ (match M.read f with
      | .error d => [d]
      | .ok _ => []) := by
  rw [errors, List.filterMap_append]
  cases h : M.read f <;> simp [errors, h]

/-- The first value of a key comes from the first file that has the key. -/
theorem head?_valuesOf_items {files : List F} {k : κ} {a : α} :
    (valuesOf k (M.items files)).head? = some a ↔ ∃ before f after, files = before ++ f :: after ∧
      M.read f = .ok (k, a) ∧ ∀ g ∈ before, ∀ item, M.read g = .ok item → item.1 ≠ k := by
  have hok : ∀ f item, (M.read f).toOption = some item ↔ M.read f = .ok item := by
    intro f item
    cases M.read f <;> simp [Except.toOption]
  have hhas : ∀ f, ((M.read f).toOption.any fun item => item.1 = k) = false ↔
      ∀ item, M.read f = .ok item → item.1 ≠ k := by
    intro f
    cases M.read f <;> simp [Except.toOption]
  rw [valuesOf, List.head?_map, List.head?_filter, items, List.find?_filterMap]
  simp only [Option.map_eq_some_iff, Option.bind_eq_some_iff, List.find?_eq_some_iff_append, hok]
  constructor
  · rintro ⟨item, ⟨f, ⟨hf, before, after, rfl, hbefore⟩, hread⟩, rfl⟩
    refine ⟨before, f, after, rfl, ?_, fun g hg => (hhas g).mp (by simpa using hbefore g hg)⟩
    have hk : item.1 = k := by simpa [hread, Except.toOption] using hf
    rw [hread, ← hk]
  · rintro ⟨before, f, after, rfl, hread, hbefore⟩
    refine ⟨(k, a), ⟨f, ⟨?_, before, after, rfl, fun g hg => ?_⟩, hread⟩, rfl⟩
    · simp [hread, Except.toOption]
    · rw [(hhas g).mpr (hbefore g hg)]
      rfl

/-- **The table is that of the valid files.** -/
theorem run_fst (files : List F) : (M.run files).1 = collect M.toRows (M.items files) := by
  induction files using List.reverseRecOn with
  | nil => rfl
  | append_singleton files f ih =>
    rw [run_snoc, items_snoc, step]
    cases M.read f with
    | error d => simpa [Except.toOption] using ih
    | ok item =>
      have hadd : add M.toRows (M.run files).1 item =
          collect M.toRows (M.items files ++ [item]) := by rw [collect_snoc, ih]
      dsimp only
      split
      · exact hadd
      · exact hadd

theorem nodup_run (files : List F) : ((M.run files).1.map M.key).Nodup := by
  rw [run_fst]
  exact nodup_collect M.toRows _

section Log

variable {isNote : D → Bool} (herror : ∀ f d, M.read f = .error d → isNote d = false)
  (hnote : ∀ b item, isNote (M.note b item) = true)

include herror hnote

theorem run_errors (files : List F) : (M.run files).2.filter (!isNote ·) = M.errors files := by
  induction files using List.reverseRecOn with
  | nil => rfl
  | append_singleton files f ih =>
    rw [run_snoc, errors_snoc, step]
    cases hread : M.read f with
    | error d => simp [ih, herror f d hread]
    | ok item =>
      dsimp only
      split
      · simp [ih, hnote]
      · simp [ih]

theorem run_notes {γ : Type} {label : D → γ} {g : κ → γ}
    (hlabel : ∀ b item, label (M.note b item) = g item.1) (files : List F) :
    ((M.run files).2.filter isNote).map label = (repeats (M.items files)).map g := by
  induction files using List.reverseRecOn with
  | nil => rfl
  | append_singleton files f ih =>
    rw [run_snoc, items_snoc, step]
    cases hread : M.read f with
    | error d => simpa [herror f d hread, Except.toOption] using ih
    | ok item =>
      dsimp only [Except.toOption, Option.toList]
      rw [repeats_snoc]
      have hseen := mem_map_key_collect M.toRows (M.items files) item.1
      cases hfind : (M.run files).1.find? (M.key · = item.1) with
      | some existing =>
        rw [run_fst, find?_key_eq_some M.toRows (nodup_collect _ _)] at hfind
        rw [if_pos (hseen.mp (List.mem_map.mpr ⟨existing, hfind⟩))]
        simp [ih, hnote, hlabel]
      | none =>
        rw [if_neg]
        · exact ih
        · intro hmem
          obtain ⟨b, hb⟩ := List.mem_map.mp (hseen.mpr hmem)
          rw [run_fst, (find?_key_eq_some M.toRows (nodup_collect _ _)).mpr hb] at hfind
          cases hfind

end Log

end Merge

/-! ### Sorted tables -/

section Sorted

variable {γ : Type} (f : β → γ)

/-- A row with its key. -/
def labelled (b : β) : κ × γ := (R.key b, f b)

theorem mem_labelled {items : List (κ × α)} {k : κ} {c : γ} :
    (k, c) ∈ (collect R items).map (labelled R f) ↔ (row R k items).map f = some c := by
  simp only [List.mem_map, labelled, Prod.mk.injEq, Option.map_eq_some_iff]
  constructor
  · rintro ⟨b, hb, rfl, rfl⟩
    exact ⟨b, (mem_collect R items b).mp hb, rfl⟩
  · rintro ⟨b, hb, rfl⟩
    have hk : R.key b = k := key_rowOf hb
    exact ⟨b, (mem_collect R items b).mpr (hk.symm ▸ hb), hk, rfl⟩

theorem nodup_labelled (items : List (κ × α)) :
    ((collect R items).map (labelled R f)).Nodup := by
  refine .of_map Prod.fst ?_
  rw [List.map_map]
  exact nodup_collect R items

/-- The table in the order of its keys. -/
def sorted [LinearOrder κ] (items : List (κ × α)) : List β :=
  (collect R items).insertionSort (R.key · ≤ R.key ·)

theorem sorted_perm [LinearOrder κ] (items : List (κ × α)) :
    (sorted R items).Perm (collect R items) := List.perm_insertionSort _ _

theorem pairwise_sorted [LinearOrder κ] (items : List (κ × α)) :
    (sorted R items).Pairwise (R.key · ≤ R.key ·) := by
  have htotal : Std.Total fun a b : β => R.key a ≤ R.key b := ⟨fun _ _ => le_total _ _⟩
  have htrans : IsTrans β fun a b => R.key a ≤ R.key b := ⟨fun _ _ _ => le_trans⟩
  exact List.pairwise_insertionSort _ _

/-- **Two tables whose rows look alike for every key are alike once they are sorted.** -/
theorem sorted_eq [LinearOrder κ] {α' β' : Type} (R' : Rows κ α' β') (g : β' → γ)
    {items : List (κ × α)} {items' : List (κ × α')}
    (h : ∀ k, (row R k items).map f = (row R' k items').map g) :
    (sorted R items).map (labelled R f) = (sorted R' items').map (labelled R' g) := by
  have hmem : ∀ r, r ∈ (collect R items).map (labelled R f) ↔
      r ∈ (collect R' items').map (labelled R' g) := by
    rintro ⟨k, c⟩
    rw [mem_labelled, mem_labelled, h]
  have hperm := (List.perm_ext_iff_of_nodup (nodup_labelled R f items)
    (nodup_labelled R' g items')).mpr hmem
  have hsorted := (((sorted_perm R items).map _).trans hperm).trans ((sorted_perm R' items').map _).symm
  refine @List.Perm.eq_of_pairwise _ (fun r r' => r.1 ≤ r'.1) _ _ ?_
    (List.pairwise_map.mpr (pairwise_sorted R items))
    (List.pairwise_map.mpr (pairwise_sorted R' items')) hsorted
  -- a key has one row
  rintro ⟨k, c⟩ ⟨k', c'⟩ hr hr' hle hge
  obtain rfl : k = k' := le_antisymm hle hge
  have hc := (mem_labelled R f).mp (((sorted_perm R items).map _).mem_iff.mp hr)
  have hc' := (mem_labelled R' g).mp (((sorted_perm R' items').map _).mem_iff.mp hr')
  rw [h k, hc'] at hc
  rw [Option.some.inj hc]

end Sorted

end McpLocator.FirstWins
