import Mathlib.Data.Option.Basic
import McpLocator.Json.Canonical

namespace McpLocator.Json

/-!
# The same JSON value

Objects are finite maps: the order of their members is no part of the value.

* `Number.toInt` — the integer that an `i64` or a `u64` is.
* `Value.Same` — equality of values without floats, with objects compared key by key.
* `Value.same_iff` — values are the same exactly when their well-formed arrangements are equal.
-/

/-! ### Integers -/

/-- The integer that a number in the range of `i64` or `u64` is. -/
def Number.toInt : Number → Option Int
  | .posInt n => some n.toNat
  | .negInt m => some (-(m.val + 1))
  | .float _ => none

/-- Such a number is kept in one way. -/
theorem Number.eq_of_toInt {n m : Number} {i : Int} (hn : n.toInt = some i) (hm : m.toInt = some i) :
    n = m := by
  cases n with
  | float f => exact absurd hn (by simp [toInt])
  | posInt a =>
    cases m with
    | float f => exact absurd hm (by simp [toInt])
    | posInt b =>
      have hab : a.toNat = b.toNat := by
        simp only [toInt, Option.some.injEq] at hn hm
        omega
      exact congrArg _ (UInt64.toNat_inj.mp hab)
    | negInt b =>
      simp only [toInt, Option.some.injEq] at hn hm
      omega
  | negInt a =>
    cases m with
    | float f => exact absurd hm (by simp [toInt])
    | posInt b =>
      simp only [toInt, Option.some.injEq] at hn hm
      omega
    | negInt b =>
      have hab : a.val = b.val := by
        simp only [toInt, Option.some.injEq] at hn hm
        omega
      exact congrArg _ (Fin.ext hab)

namespace Value

mutual
/-- Every number in the value is an integer. -/
def integral : Value → Bool
  | number n => n.toInt.isSome
  | array items => integralAll items
  | object members => integralMembers members
  | _ => true

/-- `integral` of every item. -/
def integralAll : List Value → Bool
  | [] => true
  | x :: xs => x.integral && integralAll xs

/-- `integral` of every member's value. -/
def integralMembers : List (String × Value) → Bool
  | [] => true
  | (_, x) :: ms => x.integral && integralMembers ms
end

@[simp] theorem integralAll_iff (items : List Value) :
    integralAll items = true ↔ ∀ x ∈ items, x.integral = true := by
  induction items with
  | nil => simp [integralAll]
  | cons x xs ih => simp [integralAll, ih]

@[simp] theorem integralMembers_iff (members : List (String × Value)) :
    integralMembers members = true ↔ ∀ m ∈ members, m.2.integral = true := by
  induction members with
  | nil => simp [integralMembers]
  | cons m ms ih =>
    obtain ⟨k, x⟩ := m
    simp [integralMembers, ih]

/-! ### Equality -/

/-- Equality of JSON values whose numbers are integers. -/
inductive Same : Value → Value → Prop where
  | null : Same null null
  | bool (b : Bool) : Same (bool b) (bool b)
  | number {n m : Number} {i : Int} (hn : n.toInt = some i) (hm : m.toInt = some i) :
    Same (number n) (number m)
  | string (s : String) : Same (string s) (string s)
  | array {xs ys : List Value} (h : List.Forall₂ Same xs ys) : Same (array xs) (array ys)
  | object {ms ns : List (String × Value)}
      (h : ∀ key, Option.Rel Same (ms.lookup key) (ns.lookup key)) : Same (object ms) (object ns)

/-! ### Finite maps -/

variable {β : Type} {ms ns : List (String × β)}

/-- With distinct keys the members are what is found under their keys. -/
theorem lookup_iff_mem (hd : (ms.map Prod.fst).Nodup) {m : String × β} :
    ms.lookup m.1 = some m.2 ↔ m ∈ ms :=
  ⟨fun h => mem_of_lookup h, fun h => lookup_of_mem hd h⟩

/-- Lists of distinct keys that give the same under every key have the same members. -/
theorem perm_of_lookup (hm : (ms.map Prod.fst).Nodup) (hn : (ns.map Prod.fst).Nodup)
    (h : ∀ key, ms.lookup key = ns.lookup key) : ms.Perm ns := by
  refine (List.perm_ext_iff_of_nodup (.of_map _ hm) (.of_map _ hn)).mpr fun m => ?_
  rw [← lookup_iff_mem hm, ← lookup_iff_mem hn, h]

/-! ### Arrangements -/

/-- The members of an object, each with the arrangement of its value. -/
theorem fst_norm (members : List (String × Value)) :
    (members.map fun m => (m.1, m.2.norm)).map Prod.fst = members.map Prod.fst :=
  List.map_map

theorem norm_array (items : List Value) : (array items).norm = array (items.map norm) := by
  rw [norm, normAll_eq]

theorem norm_object (members : List (String × Value)) :
    (object members).norm = object (sortMembers id (members.map fun m => (m.1, m.2.norm))) := by
  rw [norm, normMembers_eq]

/-- **Objects have one arrangement exactly if they give the same under every key.** -/
theorem norm_object_eq_iff {ms ns : List (String × Value)} (hm : (ms.map Prod.fst).Nodup)
    (hn : (ns.map Prod.fst).Nodup) : (object ms).norm = (object ns).norm ↔
      ∀ key, (ms.lookup key).map norm = (ns.lookup key).map norm := by
  rw [norm_object, norm_object, Value.object.injEq]
  constructor
  · intro h key
    rw [← lookup_sortMembers hm, ← lookup_sortMembers hn, h]
  · intro h
    refine sortMembers_eq_of_perm (fun _ _ => id) ((fst_norm ms).symm ▸ hm)
      (perm_of_lookup ((fst_norm ms).symm ▸ hm) ((fst_norm ns).symm ▸ hn) fun key => ?_)
    rw [lookup_map_snd (fun _ => norm), lookup_map_snd (fun _ => norm), h]

/-- The same value has the same arrangement. -/
theorem Same.norm_eq {v : Value} (hv : v.distinct = true) {w : Value} (hw : w.distinct = true)
    (h : Same v w) : v.norm = w.norm := by
  induction v generalizing w with
  | null | bool | string =>
    cases h
    rfl
  | number n =>
    obtain _ | _ | ⟨hn, hm⟩ := h
    rw [Number.eq_of_toInt hn hm]
  | array xs ih =>
    obtain _ | _ | _ | _ | ⟨hall⟩ := h
    rename_i ys
    simp only [distinct, distinctAll_iff] at hv hw
    rw [norm_array, norm_array]
    congr 1
    induction hall with
    | nil => rfl
    | cons hxy _ htail =>
      rw [List.forall_mem_cons] at ih hv hw
      rw [List.map_cons, List.map_cons, ih.1 hv.1 hw.1 hxy, htail ih.2 hv.2 hw.2]
  | object ms ih =>
    obtain _ | _ | _ | _ | _ | ⟨hall⟩ := h
    rename_i ns
    obtain ⟨hmd, hm⟩ := distinct_object.mp hv
    obtain ⟨hnd, hn⟩ := distinct_object.mp hw
    refine (norm_object_eq_iff hmd hnd).mpr fun key => ?_
    have hkey := hall key
    generalize hx : ms.lookup key = x at hkey ⊢
    generalize hy : ns.lookup key = y at hkey ⊢
    cases hkey with
    | none => rfl
    | some hxy =>
      have hxm := mem_of_lookup hx
      exact congrArg some (ih _ hxm (hm _ hxm) (hn _ (mem_of_lookup hy)) hxy)

/-- There is nothing to arrange in what is neither an array nor an object. -/
theorem eq_of_norm {v w : Value} (harray : ∀ xs, v ≠ array xs) (hobject : ∀ ms, v ≠ object ms)
    (h : w.norm = v) : w = v := by
  cases w with
  | array ys => exact absurd (h.symm.trans (norm_array ys)) (harray _)
  | object ns => exact absurd (h.symm.trans (norm_object ns)) (hobject _)
  | _ => exact h

/-- One arrangement is the arrangement of one value. -/
theorem Same.of_norm_eq {v : Value} (hi : v.integral = true) (hv : v.distinct = true) {w : Value}
    (hw : w.distinct = true) (h : v.norm = w.norm) : Same v w := by
  induction v generalizing w with
  | null | bool | string =>
    obtain rfl := eq_of_norm (by simp [norm]) (by simp [norm]) h.symm
    constructor
  | number n =>
    obtain rfl := eq_of_norm (by simp [norm]) (by simp [norm]) h.symm
    obtain ⟨i, hn⟩ := Option.isSome_iff_exists.mp hi
    exact .number hn hn
  | array xs ih =>
    cases w with
    | array ys =>
      simp only [distinct, distinctAll_iff] at hv hw
      simp only [integral, integralAll_iff] at hi
      rw [norm_array, norm_array, Value.array.injEq] at h
      refine .array (List.forall₂_iff_get.mpr ⟨?_, fun k hk hk' => ?_⟩)
      · simpa using congrArg List.length h
      · refine ih _ (List.get_mem xs ⟨k, hk⟩) (hi _ (List.get_mem _ _)) (hv _ (List.get_mem _ _))
          (hw _ (List.get_mem _ _)) ?_
        have hget := congrArg (fun l : List Value => l[k]?) h
        simpa [List.getElem?_eq_getElem hk, List.getElem?_eq_getElem hk'] using hget
    | _ => exact absurd h (by simp [norm])
  | object ms ih =>
    cases w with
    | object ns =>
      obtain ⟨hmd, hm⟩ := distinct_object.mp hv
      obtain ⟨hnd, hn⟩ := distinct_object.mp hw
      simp only [integral, integralMembers_iff] at hi
      refine .object fun key => ?_
      have hkey := (norm_object_eq_iff hmd hnd).mp h key
      cases hx : ms.lookup key with
      | none =>
        rw [hx, Option.map_none, eq_comm, Option.map_eq_none_iff] at hkey
        rw [hkey]
        exact .none
      | some x =>
        rw [hx, Option.map_some, eq_comm, Option.map_eq_some_iff] at hkey
        obtain ⟨y, hy, hxy⟩ := hkey
        rw [hy]
        have hxm := mem_of_lookup hx
        exact .some (ih _ hxm (hi _ hxm) (hm _ hxm) (hn _ (mem_of_lookup hy)) hxy.symm)
    | _ => exact absurd h (by simp [norm])

/-- **Values are the same exactly when their arrangements are equal.** -/
theorem same_iff {v w : Value} (hi : v.integral = true) (hv : v.distinct = true)
    (hw : w.distinct = true) : Same v w ↔ v.norm = w.norm :=
  ⟨fun h => h.norm_eq hv hw, fun h => .of_norm_eq hi hv hw h⟩

end Value

end McpLocator.Json
