import Mathlib.Algebra.Order.BigOperators.Group.List
import Mathlib.Algebra.Order.Ring.Nat
import Mathlib.Data.List.TakeWhile
import McpLocator.Json.UniqueReading

namespace McpLocator.Json

/-!
# JSON documents

What a JSON text says, before a reader makes values of its own out of it.  A document keeps number
literals as they are written and the members of an object in the order of the text; it is
parametric in what stands for a string, so that the readers on both sides share it.

* `Literal` — a number literal of the grammar; `Literal.ofNat`, `Literal.ofInt`.
* `Document.fold` — recursion over a document, given what to make of each kind of node (`Alg`).
* `Document.map` — another representation of the strings.
* `Document.strings`, `Document.memberCount` — the strings of a document, keys included, in the
  order of the text, and how many members its objects have together.
-/

/-! ### Number literals -/

def isDigits (cs : List Char) : Bool := !cs.isEmpty && cs.all Char.isDigit

/-- `([eE][-+]?\d+)?` -/
def isExponent : List Char → Bool
  | [] => true
  | c :: cs => (c == 'e' || c == 'E') && isDigits (match cs with
    | '-' :: ds => ds
    | '+' :: ds => ds
    | ds => ds)

/-- `(\.\d+)?`, then the exponent. -/
def isFraction : List Char → Bool
  | '.' :: cs => !(cs.takeWhile Char.isDigit).isEmpty && isExponent (cs.dropWhile Char.isDigit)
  | cs => isExponent cs

/-- `0|[1-9]\d*`, of a run of digits. -/
def isWhole : List Char → Bool
  | [] => false
  | '0' :: ds => ds.isEmpty
  | _ => true

def dropMinus : List Char → List Char
  | '-' :: ds => ds
  | ds => ds

/-- `-?(0|[1-9]\d*)(\.\d+)?([eE][-+]?\d+)?` -/
def isLiteral (cs : List Char) : Bool :=
  cs.all isNumberChar && isWhole ((dropMinus cs).takeWhile Char.isDigit) &&
    isFraction ((dropMinus cs).dropWhile Char.isDigit)

/-- A number literal. -/
structure Literal where
  text : List Char
  valid : isLiteral text = true
deriving DecidableEq, Repr

namespace Literal

theorem isNumberChar_text (l : Literal) : ∀ c ∈ l.text, isNumberChar c = true := by
  have h := l.valid
  simp only [isLiteral, Bool.and_eq_true, List.all_eq_true] at h
  exact h.1.1

/-- A literal starts with its sign or a digit. -/
theorem text_head (l : Literal) : ∃ c t, l.text = c :: t ∧ (c = '-' ∨ c.isDigit = true) := by
  have h := l.valid
  simp only [isLiteral, Bool.and_eq_true] at h
  obtain ⟨⟨-, hwhole⟩, -⟩ := h
  cases htext : l.text with
  | nil =>
    rw [htext] at hwhole
    exact absurd hwhole (by decide)
  | cons c t =>
    refine ⟨c, t, rfl, ?_⟩
    by_contra hc
    rw [not_or] at hc
    -- no digit at the front, and no sign that hides one
    have hdrop : dropMinus (c :: t) = c :: t := by
      rw [dropMinus]
      rintro ds ⟨⟩
      exact hc.1 rfl
    rw [htext, hdrop, List.takeWhile_cons_of_neg hc.2] at hwhole
    exact absurd hwhole (by decide)

/-- A number other than zero does not start with the digit zero. -/
theorem toDigits_head {n : Nat} (h : n ≠ 0) : ∃ c t, Nat.toDigits 10 n = c :: t ∧ c ≠ '0' := by
  induction n using Nat.strongRecOn with
  | _ n ih =>
    by_cases hlt : n < 10
    · have hdigit : ∀ m : Fin 10, m.val ≠ 0 → Nat.digitChar m.val ≠ '0' := by decide
      exact ⟨_, [], Nat.toDigits_of_lt_base hlt, hdigit ⟨n, hlt⟩ h⟩
    · obtain ⟨c, t, ht, hc⟩ := ih (n / 10) (by omega) (by omega)
      refine ⟨c, t ++ [Nat.digitChar (n % 10)], ?_, hc⟩
      rw [Nat.toDigits_of_base_le (by omega) (by omega), ht, List.cons_append]

theorem isWhole_repr (n : Nat) : isWhole (Nat.repr n).toList = true := by
  rw [Nat.toList_repr]
  by_cases h : n = 0
  · subst h
    rfl
  · obtain ⟨c, t, ht, hc⟩ := toDigits_head h
    rw [ht, isWhole]
    · simp
    · rintro ds ⟨⟩
      exact hc rfl

/-- The digits of a natural number are a literal, with a sign or without. -/
theorem isLiteral_of_dropMinus {cs : List Char} {n : Nat} (hcs : ∀ c ∈ cs, isNumberChar c = true)
    (h : dropMinus cs = (Nat.repr n).toList) : isLiteral cs = true := by
  have hdigits : ∀ c ∈ (Nat.repr n).toList, c.isDigit = true := fun c hc => isDigit_of_mem_repr hc
  have hwhole : (Nat.repr n).toList.takeWhile Char.isDigit = (Nat.repr n).toList :=
    List.takeWhile_eq_self_iff.mpr hdigits
  have hrest : (Nat.repr n).toList.dropWhile Char.isDigit = [] :=
    List.dropWhile_eq_nil_iff.mpr hdigits
  simp only [isLiteral, Bool.and_eq_true, List.all_eq_true, h, hwhole, hrest]
  exact ⟨⟨hcs, isWhole_repr n⟩, rfl⟩

theorem dropMinus_repr (n : Nat) : dropMinus (Nat.repr n).toList = (Nat.repr n).toList := by
  cases htext : (Nat.repr n).toList with
  | nil => rfl
  | cons c t =>
    have hc : c.isDigit = true := isDigit_of_mem_repr (htext ▸ List.mem_cons_self)
    rw [dropMinus]
    rintro ds ⟨⟩
    exact absurd hc (by decide)

theorem isNumberChar_repr {n : Nat} : ∀ c ∈ (Nat.repr n).toList, isNumberChar c = true :=
  fun _ hc => isNumberChar_of_isDigit (isDigit_of_mem_repr hc)

/-- The literal of a natural number. -/
def ofNat (n : Nat) : Literal :=
  ⟨(Nat.repr n).toList, isLiteral_of_dropMinus isNumberChar_repr (dropMinus_repr n)⟩

/-- The literal of an integer. -/
def ofInt : Int → Literal
  | .ofNat n => ofNat n
  | .negSucc n =>
    ⟨'-' :: (Nat.repr (n + 1)).toList,
      isLiteral_of_dropMinus (List.forall_mem_cons.mpr ⟨rfl, isNumberChar_repr⟩) rfl⟩

theorem all_isDigit_ofNat (n : Nat) : (ofNat n).text.all Char.isDigit = true :=
  List.all_eq_true.mpr fun _ hc => isDigit_of_mem_repr hc

theorem digitsValue_ofNat (n : Nat) : digitsValue (ofNat n).text = n := by
  show Nat.ofDigitChars 10 (Nat.repr n).toList 0 = n
  rw [Nat.toList_repr, Nat.ofDigitChars_ten_toDigits]

end Literal

/-! ### Documents -/

/-- A JSON text over strings of type `σ`. -/
inductive Document (σ : Type) where
  | null
  | bool (b : Bool)
  | number (n : Literal)
  | string (s : σ)
  | array (items : List (Document σ))
  | object (members : List (σ × Document σ))

/-- What to make of each kind of node. -/
structure Alg (σ α : Type) where
  null : α
  bool : Bool → α
  number : Literal → α
  string : σ → α
  array : List α → α
  object : List (σ × α) → α

namespace Document

variable {σ τ α : Type}

/-- Induction over documents: arrays and objects may assume the claim of every document in them. -/
@[elab_as_elim, induction_eliminator]
theorem induction {P : Document σ → Prop} (null : P null) (bool : ∀ b, P (bool b))
    (number : ∀ n, P (number n)) (string : ∀ s, P (string s))
    (array : ∀ items, (∀ x ∈ items, P x) → P (array items))
    (object : ∀ members, (∀ m ∈ members, P m.2) → P (object members)) (t : Document σ) : P t :=
  Document.rec (motive_1 := P) (motive_2 := fun items => ∀ x ∈ items, P x)
    (motive_3 := fun members => ∀ m ∈ members, P m.2) (motive_4 := fun m => P m.2)
    null bool number string array object (by simp)
    (fun x xs hx hxs => by simpa using ⟨hx, hxs⟩) (by simp)
    (fun m ms hm hms => by simpa using ⟨hm, fun a b h => hms (a, b) h⟩) (fun _ _ h => h) t

mutual
/-- Recursion over a document. -/
def fold (a : Alg σ α) : Document σ → α
  | null => a.null
  | bool b => a.bool b
  | number n => a.number n
  | string s => a.string s
  | array items => a.array (foldAll a items)
  | object members => a.object (foldMembers a members)

/-- `fold` of every item. -/
def foldAll (a : Alg σ α) : List (Document σ) → List α
  | [] => []
  | x :: xs => x.fold a :: foldAll a xs

/-- `fold` of every member's document. -/
def foldMembers (a : Alg σ α) : List (σ × Document σ) → List (σ × α)
  | [] => []
  | (k, x) :: ms => (k, x.fold a) :: foldMembers a ms
end

theorem foldAll_eq (a : Alg σ α) (items : List (Document σ)) :
    foldAll a items = items.map (fold a) := by
  induction items with
  | nil => rfl
  | cons x xs ih => simp [foldAll, ih]

theorem foldMembers_eq (a : Alg σ α) (members : List (σ × Document σ)) :
    foldMembers a members = members.map fun m => (m.1, m.2.fold a) := by
  induction members with
  | nil => rfl
  | cons m ms ih =>
    obtain ⟨k, x⟩ := m
    simp [foldMembers, ih]

theorem fold_array (a : Alg σ α) (items : List (Document σ)) :
    (array items).fold a = a.array (items.map (fold a)) := by
  rw [fold, foldAll_eq]

theorem fold_object (a : Alg σ α) (members : List (σ × Document σ)) :
    (object members).fold a = a.object (members.map fun m => (m.1, m.2.fold a)) := by
  rw [fold, foldMembers_eq]

/-! ### Other strings -/

/-- The document with its strings in another representation. -/
def map (f : σ → τ) : Document σ → Document τ :=
  fold ⟨null, bool, number, fun s => string (f s), array,
    fun ms => object (ms.map fun m => (f m.1, m.2))⟩

@[simp] theorem map_array (f : σ → τ) (items : List (Document σ)) :
    (array items).map f = array (items.map (map f)) :=
  fold_array _ items

@[simp] theorem map_object (f : σ → τ) (members : List (σ × Document σ)) :
    (object members).map f = object (members.map fun m => (f m.1, m.2.map f)) :=
  (fold_object _ members).trans (congrArg object List.map_map)

/-- Strings that come back from the other representation. -/
theorem map_map_of_leftInverse {f : σ → τ} {g : τ → σ} (h : Function.LeftInverse g f)
    (t : Document σ) :
    (t.map f).map g = t := by
  induction t with
  | null | bool | number => rfl
  | string s => exact congrArg string (h s)
  | array items ih =>
    have hitems : (items.map (map f)).map (map g) = items := by
      rw [List.map_map]
      exact (List.map_congr_left ih).trans (List.map_id _)
    rw [map_array, map_array, hitems]
  | object members ih =>
    have hmembers : (members.map fun m => (f m.1, m.2.map f)).map (fun m => (g m.1, m.2.map g)) =
        members := by
      rw [List.map_map]
      refine (List.map_congr_left fun m hm => ?_).trans (List.map_id _)
      exact Prod.ext (h m.1) (ih m hm)
    rw [map_object, map_object, hmembers]

/-! ### What is in a document -/

/-- The strings of a document. -/
def strings : Document σ → List σ :=
  fold ⟨[], fun _ => [], fun _ => [], fun s => [s], List.flatten,
    fun ms => ms.flatMap fun m => m.1 :: m.2⟩

theorem strings_array (items : List (Document σ)) :
    (array items).strings = items.flatMap strings :=
  fold_array _ items

theorem strings_object (members : List (σ × Document σ)) :
    (object members).strings = members.flatMap fun m => m.1 :: m.2.strings :=
  (fold_object _ members).trans (List.flatMap_map ..)

theorem strings_map (f : σ → τ) (t : Document σ) : (t.map f).strings = t.strings.map f := by
  induction t with
  | null | bool | number | string => rfl
  | array items ih =>
    rw [map_array, strings_array, strings_array, List.flatMap_map, List.map_flatMap]
    exact List.flatMap_congr ih
  | object members ih =>
    rw [map_object, strings_object, strings_object, List.flatMap_map, List.map_flatMap]
    exact List.flatMap_congr fun m hm => by rw [List.map_cons, ih m hm]

/-- How many members the objects of a document have together. -/
def memberCount : Document σ → Nat :=
  fold ⟨0, fun _ => 0, fun _ => 0, fun _ => 0, List.sum, fun ms => (ms.map fun m => m.2 + 1).sum⟩

theorem memberCount_array (items : List (Document σ)) :
    (array items).memberCount = (items.map memberCount).sum :=
  fold_array _ items

theorem memberCount_object (members : List (σ × Document σ)) :
    (object members).memberCount = (members.map fun m => m.2.memberCount + 1).sum :=
  (fold_object _ members).trans (congrArg List.sum List.map_map)

theorem memberCount_map (f : σ → τ) (t : Document σ) : (t.map f).memberCount = t.memberCount := by
  induction t with
  | null | bool | number | string => rfl
  | array items ih =>
    rw [map_array, memberCount_array, memberCount_array, List.map_map]
    exact congrArg _ (List.map_congr_left ih)
  | object members ih =>
    rw [map_object, memberCount_object, memberCount_object, List.map_map]
    exact congrArg _ (List.map_congr_left fun m hm => congrArg _ (ih m hm))

end Document

end McpLocator.Json
