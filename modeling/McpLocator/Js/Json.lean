import McpLocator.Js.Map
import McpLocator.Js.Text
import McpLocator.Json.Text

namespace McpLocator.Js

open Json

/-!
# JSON in JavaScript

* `points`, `units` — a string as the characters of a literal, and back; surrogates that pair up are
  one character, the others are escaped.
* `JSON.stringify`, `JSON.parse` — `JSON.parse_render`, what is read of a text that was written.
* `assign` — where an object gives a key several times the last value counts.  That loses members,
  and where it loses none it changes nothing (`memberCount_assign`).

A number is kept as it is written: the double that `JSON.parse` makes of it depends on nothing else.
-/

/-! ### Strings as literals -/

/-- `StringToCodePoints` -/
def points : JsString → List Point
  | [] => []
  | [u] => [.ofUnit u.toNat]
  | u :: v :: s =>
    match Point.ofUnit u.toNat, Point.ofUnit v.toNat with
    | .high i, .low j => .char (pair i j) :: points s
    | p, _ => p :: points (v :: s)

def pointUnits : Point → JsString
  | .char c => ofChars [c]
  | .high i => [UInt16.ofNat (0xD800 + i.val)]
  | .low i => [UInt16.ofNat (0xDC00 + i.val)]

/-- The code units of a literal. -/
def units (s : List Point) : JsString := s.flatMap pointUnits

theorem toNat_ofNat_of_valid {n : Nat} (h : n < 0xD800 ∨ 0xDFFF < n ∧ n < 0x110000) :
    (Char.ofNat n).toNat = n := by
  rw [Char.ofNat, dif_pos h]
  rfl

theorem ofChars_singleton (c : Char) : ofChars [c] = (utf16Char c).map UInt16.ofNat := by
  rw [ofChars_cons, ofChars_nil, List.append_nil]

/-- A unit by itself is what its escape stands for. -/
theorem pointUnits_ofUnit (u : UInt16) : pointUnits (.ofUnit u.toNat) = [u] := by
  have hu : u.toNat < 0x10000 := u.toNat_lt
  unfold Point.ofUnit
  split
  · rw [pointUnits, Fin.val_ofNat, show 0xD800 + u.toNat % 1024 = u.toNat by omega,
      UInt16.ofNat_toNat]
  split
  · rw [pointUnits, Fin.val_ofNat, show 0xDC00 + u.toNat % 1024 = u.toNat by omega,
      UInt16.ofNat_toNat]
  · rw [pointUnits, ofChars_singleton, utf16Char, toNat_ofNat_of_valid (by omega), if_pos hu,
      List.map_singleton, UInt16.ofNat_toNat]

theorem pointUnits_pair (i j : Fin 1024) :
    pointUnits (.char (pair i j)) = pointUnits (.high i) ++ pointUnits (.low j) := by
  have hpair : (pair i j).toNat = 0x10000 + 1024 * i.val + j.val := toNat_ofNat_of_valid (by omega)
  rw [pointUnits, ofChars_singleton, utf16Char, hpair, if_neg (by omega),
    show (0x10000 + 1024 * i.val + j.val - 0x10000) / 0x400 = i.val by omega,
    show (0x10000 + 1024 * i.val + j.val - 0x10000) % 0x400 = j.val by omega]
  rfl

/-- **Literals hold every string.** -/
theorem units_points (s : JsString) : units (points s) = s := by
  fun_induction points s with
  | case1 => rfl
  | case2 u => rw [units, List.flatMap_singleton, pointUnits_ofUnit]
  | case3 u v s i j hv hu ih =>
    have hu := hu ▸ pointUnits_ofUnit u
    have hv := hv ▸ pointUnits_ofUnit v
    rw [units, List.flatMap_cons, pointUnits_pair, hu, hv]
    exact congrArg (u :: v :: ·) ih
  | case4 u v s _ ih =>
    rw [units, List.flatMap_cons, pointUnits_ofUnit]
    exact congrArg (u :: ·) ih

/-! ### Members given several times -/

section Members

variable {K V : Type} [DecidableEq K]

/-- Members set one after the other. -/
def setAll (ms : List (K × V)) : List (K × V) :=
  ms.foldl (fun es m => JsMap.setEntries es m.1 m.2) []

/-- Setting a key adds an entry, or replaces one: then the entry it had is lost. -/
theorem sum_setEntries (w : V → Nat) {es : List (K × V)} (hnd : (es.map Prod.fst).Nodup) (k : K)
    (v : V) :
    ((JsMap.setEntries es k v).map fun e => w e.2 + 1).sum ≤
        (es.map fun e => w e.2 + 1).sum + (w v + 1) ∧
      (((JsMap.setEntries es k v).map fun e => w e.2 + 1).sum =
        (es.map fun e => w e.2 + 1).sum + (w v + 1) → JsMap.setEntries es k v = es ++ [(k, v)]) := by
  unfold JsMap.setEntries
  split
  · rename_i hk
    have hlt : ((es.map fun e => if e.1 = k then (k, v) else e).map fun e => w e.2 + 1).sum <
        (es.map fun e => w e.2 + 1).sum + (w v + 1) := by
      induction es with
      | nil => exact absurd hk List.not_mem_nil
      | cons e es ih =>
        rw [List.map_cons, List.nodup_cons] at hnd
        simp only [List.map_cons, List.sum_cons]
        by_cases he : e.1 = k
        · -- no other entry has the key
          have hrest : (es.map fun e => if e.1 = k then (k, v) else e) = es := by
            refine (List.map_congr_left fun e' he' => if_neg ?_).trans (List.map_id _)
            rintro rfl
            exact hnd.1 (he ▸ List.mem_map_of_mem he')
          rw [if_pos he, hrest]
          show w v + 1 + _ < _
          omega
        · rw [if_neg he]
          have := ih hnd.2 ((List.mem_cons.mp hk).resolve_left (Ne.symm he))
          omega
    exact ⟨hlt.le, fun heq => absurd heq hlt.ne⟩
  · simp

theorem foldl_setEntries (w : V → Nat) (ms : List (K × V)) {es : List (K × V)}
    (hnd : (es.map Prod.fst).Nodup) :
    ((ms.foldl (fun es m => JsMap.setEntries es m.1 m.2) es).map fun e => w e.2 + 1).sum ≤
        (es.map fun e => w e.2 + 1).sum + (ms.map fun e => w e.2 + 1).sum ∧
      (((ms.foldl (fun es m => JsMap.setEntries es m.1 m.2) es).map fun e => w e.2 + 1).sum =
        (es.map fun e => w e.2 + 1).sum + (ms.map fun e => w e.2 + 1).sum →
        ms.foldl (fun es m => JsMap.setEntries es m.1 m.2) es = es ++ ms) := by
  induction ms generalizing es with
  | nil => simp
  | cons m ms ih =>
    obtain ⟨hle, heq⟩ := sum_setEntries w hnd m.1 m.2
    obtain ⟨hle', heq'⟩ := ih (JsMap.nodup_setEntries (k := m.1) (v := m.2) hnd)
    simp only [List.foldl_cons, List.map_cons, List.sum_cons] at hle' heq' ⊢
    refine ⟨by omega, fun h => ?_⟩
    rw [heq' (by omega), heq (by omega)]
    simp

/-- Distinct keys stay as they are. -/
theorem setAll_of_nodup {ms : List (K × V)} (h : (ms.map Prod.fst).Nodup) : setAll ms = ms := by
  have key : ∀ (ms es : List (K × V)), ((es ++ ms).map Prod.fst).Nodup →
      ms.foldl (fun es m => JsMap.setEntries es m.1 m.2) es = es ++ ms := by
    intro ms
    induction ms with
    | nil => simp
    | cons m ms ih =>
      intro es hnd
      have hnew : m.1 ∉ es.map Prod.fst := by
        rw [List.map_append, List.map_cons] at hnd
        exact fun hm => (List.nodup_append.mp hnd).2.2 _ hm _ List.mem_cons_self rfl
      have happend : es ++ m :: ms = es ++ [m] ++ ms := by simp
      rw [happend] at hnd ⊢
      rw [List.foldl_cons, JsMap.setEntries, if_neg hnew]
      exact ih _ hnd
  exact key ms [] h

end Members

section Assign

variable {σ : Type} [DecidableEq σ]

/-- The value of a document whose objects may give a key several times. -/
def assign : Document σ → Document σ :=
  Document.fold ⟨.null, .bool, .number, .string, .array, fun ms => .object (setAll ms)⟩

theorem assign_array (items : List (Document σ)) : assign (.array items) = .array (items.map assign) :=
  Document.fold_array _ items

theorem assign_object (members : List (σ × Document σ)) :
    assign (.object members) = .object (setAll (members.map fun m => (m.1, assign m.2))) :=
  Document.fold_object _ members

/-- Every object gives its keys once. -/
def distinct : Document σ → Bool :=
  Document.fold ⟨true, fun _ => true, fun _ => true, fun _ => true, fun bs => bs.all id,
    fun ms => decide (ms.map Prod.fst).Nodup && ms.all Prod.snd⟩

theorem distinct_array (items : List (Document σ)) :
    distinct (.array items) = true ↔ ∀ x ∈ items, distinct x = true := by
  have h : distinct (.array items) = (items.map distinct).all id := Document.fold_array _ items
  simp [h]

theorem distinct_object (members : List (σ × Document σ)) : distinct (.object members) = true ↔
    (members.map Prod.fst).Nodup ∧ ∀ m ∈ members, distinct m.2 = true := by
  have h : distinct (.object members) =
      (decide ((members.map fun m => (m.1, distinct m.2)).map Prod.fst).Nodup &&
        (members.map fun m => (m.1, distinct m.2)).all Prod.snd) :=
    Document.fold_object _ members
  have hkeys : (members.map fun m => (m.1, distinct m.2)).map Prod.fst = members.map Prod.fst :=
    List.map_map
  rw [h, hkeys]
  simp

/-- A document whose keys are distinct is its own value. -/
theorem assign_of_distinct {t : Document σ} (h : distinct t = true) : assign t = t := by
  induction t with
  | null | bool | number | string => rfl
  | array items ih =>
    rw [distinct_array] at h
    rw [assign_array, (List.map_congr_left fun x hx => ih x hx (h x hx)).trans (List.map_id _)]
  | object members ih =>
    obtain ⟨hnd, hall⟩ := (distinct_object members).mp h
    have hmembers : (members.map fun m => (m.1, assign m.2)) = members := by
      refine (List.map_congr_left fun m hm => ?_).trans (List.map_id _)
      exact Prod.ext rfl (ih m hm (hall m hm))
    rw [assign_object, hmembers, setAll_of_nodup hnd]

/-- A sum of lower terms that is not lower has the same terms. -/
theorem eq_of_sum_le {α : Type} {f g : α → Nat} {xs : List α} (h : ∀ x ∈ xs, f x ≤ g x)
    (hsum : (xs.map g).sum ≤ (xs.map f).sum) : ∀ x ∈ xs, f x = g x := by
  induction xs with
  | nil => nofun
  | cons x xs ih =>
    rw [List.forall_mem_cons] at h ⊢
    rw [List.map_cons, List.map_cons, List.sum_cons, List.sum_cons] at hsum
    have hle : (xs.map f).sum ≤ (xs.map g).sum := List.sum_le_sum h.2
    have hx := h.1
    exact ⟨by omega, ih h.2 (by omega)⟩

/-- **Giving a key again loses members, and nothing else changes a document.** -/
theorem memberCount_assign (t : Document σ) : (assign t).memberCount ≤ t.memberCount ∧
    ((assign t).memberCount = t.memberCount → assign t = t) := by
  induction t with
  | null | bool | number | string => exact ⟨le_rfl, fun _ => rfl⟩
  | array items ih =>
    have hcount : (assign (.array items)).memberCount =
        (items.map fun x => (assign x).memberCount).sum := by
      rw [assign_array, Document.memberCount_array, List.map_map]
      rfl
    rw [hcount, Document.memberCount_array]
    refine ⟨List.sum_le_sum fun x hx => (ih x hx).1, fun heq => ?_⟩
    have hall := eq_of_sum_le (fun x hx => (ih x hx).1) heq.ge
    rw [assign_array,
      (List.map_congr_left fun x hx => (ih x hx).2 (hall x hx)).trans (List.map_id _)]
  | object members ih =>
    obtain ⟨hle, heq⟩ := @foldl_setEntries _ _ _ Document.memberCount
      (members.map fun m => (m.1, assign m.2)) [] List.nodup_nil
    simp only [List.map_nil, List.sum_nil, Nat.zero_add, List.nil_append, List.map_map] at hle heq
    have hvalues : (members.map fun m => (assign m.2).memberCount + 1).sum ≤
        (members.map fun m => m.2.memberCount + 1).sum :=
      List.sum_le_sum fun m hm => Nat.succ_le_succ (ih m hm).1
    rw [assign_object, Document.memberCount_object, Document.memberCount_object]
    refine ⟨hle.trans hvalues, fun hcount => ?_⟩
    -- no member is lost, neither here nor further down
    have hall := eq_of_sum_le (fun m hm => Nat.succ_le_succ (ih m hm).1)
      (hcount.symm.le.trans hle)
    have hmembers : (members.map fun m => (m.1, assign m.2)) = members := by
      refine (List.map_congr_left fun m hm => ?_).trans (List.map_id _)
      exact Prod.ext rfl ((ih m hm).2 (Nat.succ.inj (hall m hm)))
    have hset : setAll (members.map fun m => (m.1, assign m.2)) =
        members.map fun m => (m.1, assign m.2) :=
      heq (le_antisymm hle (hvalues.trans hcount.symm.le))
    rw [hset, hmembers]

end Assign

/-! ### Values as texts -/

/-- A value that is plain data.  The members of an object are in the order in which they were set. -/
abbrev JsValue := Document JsString

/-- A property of plain data; it is `undefined` unless the data is an object that has the member. -/
def JsValue.property (key : String) : JsValue → Option JsValue
  | .object members => members.lookup (ofString key)
  | _ => none

namespace JSON

/-- `JSON.stringify` -/
def stringify (v : JsValue) : List Char := render (v.map points)

/-- `JSON.parse`; `none` where it throws. -/
def parse (text : List Char) : Option JsValue :=
  (Json.parse text).map fun t => assign (t.map units)

/-- What is read of a text that was written from a document. -/
theorem parse_render (t : Document (List Point)) : parse (render t) = some (assign (t.map units)) := by
  rw [parse, Json.parse_render, Option.map_some]

end JSON

end McpLocator.Js
