import Mathlib.Data.List.TakeWhile
import Std.Data.String.ToNat
import McpLocator.Json.Canonical

namespace McpLocator.Js

/-!
# JavaScript strings

A string is the list of its UTF-16 code units, surrogates paired or not.

* `ofString` — the string that holds a text of scalar values; `ofString_injective`.
* `trim` — `String.prototype.trim`; `trim_ne_nil`.
* `decimal` — a number as a template literal writes it.
-/

abbrev JsString := List UInt16

/-- The code unit of an ASCII character. -/
def unit (c : Char) : UInt16 := UInt16.ofNat c.toNat

def ofChars (cs : List Char) : JsString := (cs.flatMap Json.utf16Char).map UInt16.ofNat

def ofString (s : String) : JsString := ofChars s.toList

/-- The decimal digits of a number, `${n}`. -/
def decimal (n : Nat) : JsString := ofString (Nat.repr n)

/-- `WhiteSpace` and `LineTerminator` of the language. -/
def isSpace (u : UInt16) : Bool :=
  (0x09 ≤ u && u ≤ 0x0D) || u == 0x20 || u == 0xA0 || u == 0x1680 || (0x2000 ≤ u && u ≤ 0x200A) ||
    u == 0x2028 || u == 0x2029 || u == 0x202F || u == 0x205F || u == 0x3000 || u == 0xFEFF

def trim (s : JsString) : JsString := ((s.dropWhile isSpace).reverse.dropWhile isSpace).reverse

/-! ### Texts as strings -/

@[simp] theorem ofChars_nil : ofChars [] = [] := rfl

theorem ofChars_cons (c : Char) (cs : List Char) :
    ofChars (c :: cs) = (Json.utf16Char c).map UInt16.ofNat ++ ofChars cs := by
  simp [ofChars]

theorem ofChars_append (cs ds : List Char) : ofChars (cs ++ ds) = ofChars cs ++ ofChars ds := by
  simp [ofChars]

/-- A code unit is a 16-bit number. -/
theorem lt_of_mem_utf16Char {c : Char} {n : Nat} (h : n ∈ Json.utf16Char c) : n < 2 ^ 16 := by
  have hv := c.valid
  simp only [UInt32.isValidChar, Nat.isValidChar] at hv
  have hc : c.toNat = c.val.toNat := rfl
  simp only [Json.utf16Char] at h
  split at h
  · rw [List.mem_singleton] at h
    omega
  · simp only [List.mem_cons, List.not_mem_nil, or_false] at h
    omega

theorem map_toNat_ofChars (cs : List Char) :
    (ofChars cs).map UInt16.toNat = cs.flatMap Json.utf16Char := by
  rw [ofChars, List.map_map]
  have hid : ∀ n ∈ cs.flatMap Json.utf16Char, (UInt16.toNat ∘ UInt16.ofNat) n = n := by
    intro n hn
    obtain ⟨c, -, hc⟩ := List.mem_flatMap.mp hn
    exact UInt16.toNat_ofNat_of_lt' (lt_of_mem_utf16Char hc)
  exact (List.map_congr_left hid).trans (List.map_id _)

theorem ofChars_injective : Function.Injective ofChars := by
  intro cs ds h
  have hunits := congrArg (List.map UInt16.toNat) h
  rw [map_toNat_ofChars, map_toNat_ofChars] at hunits
  exact Json.flatMap_utf16Char_injective cs ds hunits

/-- Different texts are different strings. -/
theorem ofString_injective : Function.Injective ofString := fun _ _ h =>
  String.toList_inj.mp (ofChars_injective h)

theorem decimal_injective : Function.Injective decimal := fun _ _ h =>
  Nat.repr_injective (ofString_injective h)

theorem unit_toNat {c : Char} (hc : c.toNat < 0xD800) : (unit c).toNat = c.toNat :=
  UInt16.toNat_ofNat_of_lt' (by
    show c.toNat < 2 ^ 16
    omega)

theorem unit_injective {c d : Char} (hc : c.toNat < 0xD800) (hd : d.toNat < 0xD800)
    (h : unit c = unit d) : c = d := by
  have := congrArg UInt16.toNat h
  rw [unit_toNat hc, unit_toNat hd] at this
  exact Char.toNat_inj.mp this

/-- A unit of the Basic Multilingual Plane that is in a text is one of its characters. -/
theorem unit_mem_ofChars {c : Char} (hc : c.toNat < 0xD800) {cs : List Char} :
    unit c ∈ ofChars cs ↔ c ∈ cs := by
  constructor
  · intro h
    have hmem : c.toNat ∈ cs.flatMap Json.utf16Char := by
      rw [← map_toNat_ofChars, ← unit_toNat hc]
      exact List.mem_map_of_mem h
    obtain ⟨d, hd, hcd⟩ := List.mem_flatMap.mp hmem
    simp only [Json.utf16Char] at hcd
    split at hcd
    · rw [List.mem_singleton] at hcd
      exact Char.toNat_inj.mp hcd ▸ hd
    · simp only [List.mem_cons, List.not_mem_nil, or_false] at hcd
      omega
  · intro h
    refine List.mem_map.mpr ⟨c.toNat, List.mem_flatMap.mpr ⟨c, h, ?_⟩, rfl⟩
    rw [Json.utf16Char, if_pos (by omega)]
    exact List.mem_singleton_self _

/-- Only white space is trimmed away. -/
theorem trim_ne_nil {s : JsString} {u : UInt16} (h : u ∈ s) (hu : isSpace u = false) :
    trim s ≠ [] := by
  have hdrop : ∀ {s : JsString}, u ∈ s → u ∈ s.dropWhile isSpace := by
    intro s h
    have hsplit := List.takeWhile_append_dropWhile (p := isSpace) (l := s)
    rw [← hsplit, List.mem_append] at h
    refine h.resolve_left fun htake => ?_
    rw [List.mem_takeWhile_imp htake] at hu
    exact absurd hu (by simp)
  have htrim : u ∈ trim s := by
    rw [trim, List.mem_reverse]
    exact hdrop (List.mem_reverse.mpr (hdrop h))
  exact List.ne_nil_of_mem htrim

example : trim (ofString " \t[notes] \n") = ofString "[notes]" := by decide

end McpLocator.Js
