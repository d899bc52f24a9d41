import McpLocator.Js.Text
import McpLocator.Client.NamePattern
import McpLocator.Json.UniqueReading
import McpLocator.Lib.Split

namespace McpLocator.Gateway

open Js

/-!
# Aliases (gateway.ts)

The short names that tools are exported under.

* `aliasFor` — the last label of a server name, else a qualified one, else a numbered one.
* `aliasFor_notMem` — the alias is not taken.  Numbering ends, since the taken aliases are finitely
  many (`numbered_notMem`).
* `aliasFor_wellFormed` — for a name with a label, hence for every name that the broker grants, an
  alias is not empty and has no separator in it.
-/

/-- `NAMESPACE_SEPARATOR`, also the separator of the labels of a name. -/
def namespaceSeparator : UInt16 := unit '.'

/-- The non-empty labels of a name. -/
def labelsOf (name : JsString) : List JsString :=
  (name.splitOn namespaceSeparator).filter fun label => !label.isEmpty

/-- `labels.slice(i).join('_')`, for `i` from the last but one down to the first. -/
def qualified (labels : List JsString) : List JsString :=
  (List.range (labels.length - 1)).reverse.map fun i => [unit '_'].intercalate (labels.drop i)

/-- `while (taken.has(base + n)) n++`, for at most `fuel` rounds. -/
def numbered (base : JsString) (taken : List JsString) : Nat → Nat → Nat
  | 0, n => n
  | fuel + 1, n => if taken.contains (base ++ decimal n) then numbered base taken fuel (n + 1) else n

def aliasFor (name : JsString) (taken : List JsString) : JsString :=
  let labels := labelsOf name
  let base := labels.getLast?.getD name
  if !taken.contains base then base
  else match (qualified labels).find? fun candidate => !taken.contains candidate with
    | some candidate => candidate
    | none => base ++ decimal (numbered base taken taken.length 2)

/-! ### An alias is not taken -/

/-- Either a free number is found, or every round has met a taken alias. -/
theorem numbered_spec (base : JsString) (taken : List JsString) (fuel n : Nat) :
    base ++ decimal (numbered base taken fuel n) ∉ taken ∨
      numbered base taken fuel n = n + fuel ∧ ∀ i < fuel, base ++ decimal (n + i) ∈ taken := by
  induction fuel generalizing n with
  | zero =>
    right
    exact ⟨rfl, fun i hi => by omega⟩
  | succ fuel ih =>
    simp only [numbered, List.contains_eq_mem, decide_eq_true_eq]
    split
    · rename_i hmem
      refine (ih (n + 1)).imp_right fun ⟨heq, hall⟩ => ⟨by omega, fun i hi => ?_⟩
      cases i with
      | zero => exact hmem
      | succ i =>
        have := hall i (by omega)
        rwa [show n + 1 + i = n + (i + 1) by omega] at this
    · rename_i hmem
      exact .inl hmem

/-- As many rounds as there are taken aliases find a free number, since none is met twice. -/
theorem numbered_notMem (base : JsString) (taken : List JsString) (n : Nat) :
    base ++ decimal (numbered base taken taken.length n) ∉ taken := by
  refine (numbered_spec base taken taken.length n).elim id fun ⟨heq, hall⟩ hmem => ?_
  rw [heq] at hmem
  have hinj : Function.Injective fun i => base ++ decimal (n + i) := by
    intro i j hij
    have := decimal_injective (List.append_cancel_left hij)
    omega
  -- one more alias than there are: those of all rounds, and the one after the last
  have hsub : (List.range (taken.length + 1)).map (fun i => base ++ decimal (n + i)) ⊆ taken := by
    intro a ha
    obtain ⟨i, hi, rfl⟩ := List.mem_map.mp ha
    rw [List.mem_range] at hi
    by_cases h : i = taken.length
    · exact h ▸ hmem
    · exact hall i (by omega)
  have hle := (List.subperm_of_subset (List.nodup_range.map hinj) hsub).length_le
  rw [List.length_map, List.length_range] at hle
  omega

/-- **An alias is not taken.** -/
theorem aliasFor_notMem (name : JsString) (taken : List JsString) : aliasFor name taken ∉ taken := by
  simp only [aliasFor]
  split
  · rename_i h
    simpa using h
  · split
    · rename_i candidate h
      simpa using List.find?_some h
    · exact numbered_notMem _ _ _

/-! ### An alias is well formed -/

/-- What can stand before the separator of an exported name. -/
structure IsAlias (shortName : JsString) : Prop where
  nonempty : shortName ≠ []
  noSeparator : namespaceSeparator ∉ shortName

theorem isAlias_of_mem_labelsOf {name label : JsString} (h : label ∈ labelsOf name) :
    IsAlias label := by
  obtain ⟨hmem, hne⟩ := List.mem_filter.mp h
  refine ⟨by simpa using hne, fun hdot => ?_⟩
  rw [List.splitOn_eq_splitOnP] at hmem
  have := Split.not_isSep_of_mem_splitOnP hmem _ hdot
  exact absurd this (by simp)

/-- Joining labels leaves no separator in them, whatever else they are joined by. -/
theorem isAlias_intercalate {glue : UInt16} (hglue : glue ≠ namespaceSeparator)
    {labels : List JsString} (hne : labels ≠ []) (hall : ∀ label ∈ labels, IsAlias label) :
    IsAlias ([glue].intercalate labels) := by
  induction labels with
  | nil => exact absurd rfl hne
  | cons label rest ih =>
    have hl : IsAlias label := hall label List.mem_cons_self
    cases rest with
    | nil => rwa [List.intercalate_singleton]
    | cons next rest =>
      have hr := ih (by simp) fun l hmem => hall l (List.mem_cons_of_mem _ hmem)
      rw [List.intercalate_cons_cons]
      refine ⟨by simp, fun hdot => ?_⟩
      rw [List.mem_append, List.mem_append, List.mem_singleton] at hdot
      rcases hdot with (hdot | hdot) | hdot
      · exact hl.noSeparator hdot
      · exact hglue hdot.symm
      · exact hr.noSeparator hdot

theorem isAlias_of_mem_qualified {labels : List JsString} (hall : ∀ label ∈ labels, IsAlias label)
    {candidate : JsString} (h : candidate ∈ qualified labels) : IsAlias candidate := by
  obtain ⟨i, hi, rfl⟩ := List.mem_map.mp h
  rw [List.mem_reverse, List.mem_range] at hi
  refine isAlias_intercalate (by decide) ?_ fun label hmem => hall label (List.mem_of_mem_drop hmem)
  exact List.ne_nil_of_length_pos (by rw [List.length_drop]; omega)

/-- Digits are no separators. -/
theorem separator_notMem_decimal (n : Nat) : namespaceSeparator ∉ decimal n := by
  show unit '.' ∉ ofChars (Nat.repr n).toList
  rw [unit_mem_ofChars (by decide)]
  intro hdot
  exact absurd (Json.isDigit_of_mem_repr hdot) (by decide)

/-- **An alias of a name with a label is well formed.** -/
theorem aliasFor_wellFormed {name : JsString} (h : labelsOf name ≠ []) (taken : List JsString) :
    IsAlias (aliasFor name taken) := by
  have hall : ∀ label ∈ labelsOf name, IsAlias label := fun _ hl => isAlias_of_mem_labelsOf hl
  have hbase : IsAlias ((labelsOf name).getLast?.getD name) := by
    rw [List.getLast?_eq_some_getLast h]
    exact hall _ (List.getLast_mem h)
  simp only [aliasFor]
  split
  · exact hbase
  · split
    · rename_i candidate hfind
      exact isAlias_of_mem_qualified hall (List.mem_of_find?_eq_some hfind)
    · refine ⟨fun hnil => hbase.nonempty (List.append_eq_nil_iff.mp hnil).1, fun hdot => ?_⟩
      rcases List.mem_append.mp hdot with hdot | hdot
      · exact hbase.noSeparator hdot
      · exact separator_notMem_decimal _ hdot

/-! ### Names that the broker grants -/

/-- A name with something other than separators in it has a label. -/
theorem labelsOf_ne_nil {name : JsString} {u : UInt16} (hu : u ∈ name)
    (hne : u ≠ namespaceSeparator) : labelsOf name ≠ [] := by
  obtain ⟨label, hlabel, hmem⟩ : ∃ label ∈ name.splitOn namespaceSeparator, u ∈ label := by
    rw [List.splitOn_eq_splitOnP]
    exact Split.exists_mem_splitOnP hu (beq_false_of_ne hne)
  have : label ∈ labelsOf name :=
    List.mem_filter.mpr ⟨hlabel, by simpa using List.ne_nil_of_mem hmem⟩
  exact List.ne_nil_of_mem this

/-- `is_reverse_dns` of a string as the client holds it. -/
def IsReverseDns (name : JsString) : Prop := ∃ s, Proto.isReverseDns s = true ∧ ofString s = name

theorem labelsOf_of_isReverseDns {name : JsString} (h : IsReverseDns name) : labelsOf name ≠ [] := by
  obtain ⟨s, hs, rfl⟩ := h
  -- the first label of the name is not empty and has no dot in it
  simp only [Proto.isReverseDns] at hs
  split at hs
  · simp at hs
  · rw [List.all_eq_true] at hs
    cases hsplit : s.toList.splitOn '.' with
    | nil => exact absurd hsplit (List.splitOn_ne_nil _ _)
    | cons label rest =>
      have hlabel : Proto.isLabel label = true := hs label (by simp [hsplit])
      cases label with
      | nil => simp [Proto.isLabel] at hlabel
      | cons c cs =>
        have hmem : c ∈ s.toList := by
          have hjoin : ['.'].intercalate (s.toList.splitOn '.') = s.toList :=
            List.intercalate_splitOn '.'
          rw [← hjoin, hsplit]
          cases rest with
          | nil => simp
          | cons next rest =>
            rw [List.intercalate_cons_cons]
            exact List.mem_append_left _ (List.mem_append_left _ List.mem_cons_self)
        have hc : c ≠ '.' := by
          rintro rfl
          exact Client.dot_notMem_of_isLabel hlabel List.mem_cons_self
        have hascii : c.toNat < 128 := by
          have := Client.isLabelChar_ascii (Client.isLabelChar_of_isLabel hlabel List.mem_cons_self)
          exact Nat.lt_succ_of_le (UInt32.le_iff_toNat_le.mp this)
        refine labelsOf_ne_nil ((unit_mem_ofChars (by omega)).mpr hmem) fun heq => hc ?_
        exact unit_injective (by omega) (by decide) heq

end McpLocator.Gateway
