import McpLocator.Client.LaunchHash
import McpLocator.Js.WellFormed
import McpLocator.Json.Same
import McpLocator.Lib.Utf8

namespace McpLocator.Client

open McpLocator.Js McpLocator.Json

/-!
# The two canonicalizers

The client library's canonicalizer works on JavaScript strings, the broker's on texts.

* `JsValue.canonicalize` — the client library's, over code units.
* `JsValue.ofValue` — a value as JavaScript keeps it; `exists_ofValue` says which data this is.
* `canonicalizers_agree` — both write the same bytes.
-/

/-! ### The canonicalizer -/

namespace JsValue

/-- `JSON.stringify` of a string. -/
def stringify (s : JsString) : JsString := ofChars (quotePoints (points s))

/-- `ts.join(',')` -/
def join : List JsString → JsString
  | [] => []
  | [t] => t
  | t :: ts => t ++ unit ',' :: join ts

/-- `a < b` on strings. -/
def lessThan (a b : JsString) : Bool := decide (a.map UInt16.toNat < b.map UInt16.toNat)

/-- `entries.sort(([a], [b]) => (a < b ? -1 : a > b ? 1 : 0))` -/
def sortEntries {α : Type} (entries : List (JsString × α)) : List (JsString × α) :=
  entries.insertionSort fun a b => lessThan b.1 a.1 = false

/-- `canonicalize` of plain data; the text of a number is `numberText`. -/
def canonicalize (numberText : Literal → JsString) : JsValue → JsString :=
  Document.fold
    { null := ofString "null"
      bool := fun b => if b then ofString "true" else ofString "false"
      number := numberText
      string := stringify
      array := fun ts => unit '[' :: join ts ++ [unit ']']
      object := fun entries =>
        unit '{' :: join ((sortEntries entries).map fun e => stringify e.1 ++ unit ':' :: e.2) ++
          [unit '}'] }

theorem canonicalize_array (numberText : Literal → JsString) (items : List JsValue) :
    canonicalize numberText (.array items) =
      unit '[' :: join (items.map (canonicalize numberText)) ++ [unit ']'] :=
  Document.fold_array _ items

theorem canonicalize_object (numberText : Literal → JsString)
    (entries : List (JsString × JsValue)) :
    canonicalize numberText (.object entries) =
      unit '{' :: join ((sortEntries (entries.map fun e => (e.1, canonicalize numberText e.2))).map
        fun e => stringify e.1 ++ unit ':' :: e.2) ++ [unit '}'] :=
  Document.fold_object _ entries

/-- A value as JavaScript keeps it. -/
def ofValue (v : Value) : JsValue := v.document.map units

/-- The bytes of a string in UTF-8; a surrogate that is not paired is replaced. -/
def utf8 (s : JsString) : List UInt8 :=
  Utf8.encode ((points s).map fun
    | .char c => c
    | _ => Utf8.replacement)

end JsValue

/-! ### Strings on both sides -/

theorem ofChars_cons_of_lt {c : Char} (hc : c.toNat < 0xD800) (cs : List Char) :
    ofChars (c :: cs) = unit c :: ofChars cs := by
  rw [ofChars_cons, utf16Char, if_pos (by omega)]
  rfl

/-- A text between brackets. -/
theorem ofChars_enclosed {c d : Char} (hc : c.toNat < 0xD800) (hd : d.toNat < 0xD800)
    (cs : List Char) : ofChars (c :: cs ++ [d]) = unit c :: ofChars cs ++ [unit d] := by
  rw [List.cons_append, ofChars_cons_of_lt hc, ofChars_append, ofChars_cons_of_lt hd]
  rfl

/-- A text is escaped alike on both sides. -/
theorem stringify_ofString (s : String) : JsValue.stringify (ofString s) = ofChars (quote s) := by
  rw [JsValue.stringify, points_ofString, quotePoints, pointsOf, List.flatMap_map]
  rfl

theorem join_map_ofChars (ts : List (List Char)) :
    JsValue.join (ts.map ofChars) = ofChars (commaSep ts) := by
  cases ts with
  | nil => rfl
  | cons t ts =>
    induction ts generalizing t with
    | nil => simp [JsValue.join, commaSep, commaTail]
    | cons t' ts ih =>
      have htail : commaSep (t :: t' :: ts) = t ++ ',' :: commaSep (t' :: ts) := rfl
      rw [htail, ofChars_append, ofChars_cons_of_lt (by decide), ← ih t']
      rfl

/-- Code units are compared alike. -/
theorem lessThan_ofString (a b : String) :
    JsValue.lessThan (ofString b) (ofString a) = false ↔ utf16 a ≤ utf16 b := by
  rw [JsValue.lessThan, ofString, ofString, map_toNat_ofChars, map_toNat_ofChars,
    decide_eq_false_iff_not]
  exact not_lt

theorem sortEntries_map {β : Type} (f : β → JsString) (ms : List (String × β)) :
    JsValue.sortEntries (ms.map fun m => (ofString m.1, f m.2)) =
      (sortMembers utf16 ms).map fun m => (ofString m.1, f m.2) :=
  (List.map_insertionSort _ _ _ ms fun a _ b _ => (lessThan_ofString a.1 b.1).symm).symm

/-- A text keeps its bytes. -/
theorem utf8_ofChars (cs : List Char) : JsValue.utf8 (ofChars cs) = Utf8.encode cs := by
  rw [JsValue.utf8, points_ofChars, List.map_map]
  exact congrArg _ (List.map_id _)

/-! ### Values on both sides -/

theorem ofValue_array (items : List Value) :
    JsValue.ofValue (.array items) = .array (items.map JsValue.ofValue) := by
  rw [JsValue.ofValue, Value.document, Value.documentAll_eq, Document.map_array, List.map_map]
  rfl

theorem ofValue_object (members : List (String × Value)) : JsValue.ofValue (.object members) =
    .object (members.map fun m => (ofString m.1, JsValue.ofValue m.2)) := by
  rw [JsValue.ofValue, Value.document, Value.documentMembers_eq, Document.map_object, List.map_map]
  exact congrArg _ (List.map_congr_left fun m _ => Prod.ext (units_pointsOf m.1) rfl)

/-- Without numbers the client library writes the canonical text. -/
theorem canonicalize_ofValue (numberText : Literal → JsString) {v : Value}
    (hfree : numberFree v = true) :
    JsValue.canonicalize numberText (JsValue.ofValue v) = ofChars (canonical v) := by
  induction v with
  | null => rfl
  | bool b => cases b <;> rfl
  | number n => exact absurd hfree (by simp [numberFree])
  | string s =>
    show JsValue.stringify (units (pointsOf s)) = _
    rw [units_pointsOf, stringify_ofString, canonical]
  | array items ih =>
    simp only [numberFree, numberFreeAll_iff] at hfree
    have htexts : (items.map JsValue.ofValue).map (JsValue.canonicalize numberText) =
        (items.map canonical).map ofChars := by
      rw [List.map_map, List.map_map]
      exact List.map_congr_left fun x hx => ih x hx (hfree x hx)
    rw [ofValue_array, JsValue.canonicalize_array, htexts, join_map_ofChars, canonical,
      canonicalAll_eq, ofChars_enclosed (by decide) (by decide)]
  | object members ih =>
    simp only [numberFree, numberFreeMembers_iff] at hfree
    have hentries : (members.map fun m => (ofString m.1, JsValue.ofValue m.2)).map
        (fun e => (e.1, JsValue.canonicalize numberText e.2)) =
        members.map fun m => (ofString m.1, ofChars (canonical m.2)) := by
      rw [List.map_map]
      exact List.map_congr_left fun m hm => Prod.ext rfl (ih m hm (hfree m hm))
    have hmember : ∀ m : String × Value, JsValue.stringify (ofString m.1) ++
        unit ':' :: ofChars (canonical m.2) = ofChars (memberText (m.1, canonical m.2)) := by
      intro m
      rw [stringify_ofString, memberText, ofChars_append, ofChars_cons_of_lt (by decide)]
    have hjoined : ((sortMembers utf16 members).map fun m =>
        (ofString m.1, ofChars (canonical m.2))).map
          (fun e => JsValue.stringify e.1 ++ unit ':' :: e.2) =
        ((sortMembers utf16 members).map fun m => memberText (m.1, canonical m.2)).map ofChars := by
      rw [List.map_map, List.map_map]
      exact List.map_congr_left fun m _ => hmember m
    rw [ofValue_object, JsValue.canonicalize_object, hentries,
      sortEntries_map fun v => ofChars (canonical v), hjoined, join_map_ofChars, canonical_object,
      ofChars_enclosed (by decide) (by decide)]

/-! ### What JavaScript may hold -/

/-- There is no number in the data. -/
def JsValue.numberFree : JsValue → Bool :=
  Document.fold ⟨true, fun _ => true, fun _ => false, fun _ => true, fun bs => bs.all id,
    fun ms => ms.all Prod.snd⟩

theorem JsValue.numberFree_array (items : List JsValue) :
    JsValue.numberFree (.array items) = true ↔ ∀ x ∈ items, JsValue.numberFree x = true := by
  have h : JsValue.numberFree (.array items) = (items.map JsValue.numberFree).all id :=
    Document.fold_array _ items
  simp [h]

theorem JsValue.numberFree_object (entries : List (JsString × JsValue)) :
    JsValue.numberFree (.object entries) = true ↔
      ∀ e ∈ entries, JsValue.numberFree e.2 = true := by
  have h : JsValue.numberFree (.object entries) =
      (entries.map fun e => (e.1, JsValue.numberFree e.2)).all Prod.snd :=
    Document.fold_object _ entries
  simp [h]

/-- A list of things that are made by `f`. -/
theorem exists_map_eq {α β : Type} {P : α → Prop} {f : α → β} {ys : List β}
    (h : ∀ y ∈ ys, ∃ x, P x ∧ f x = y) : ∃ xs : List α, (∀ x ∈ xs, P x) ∧ xs.map f = ys := by
  induction ys with
  | nil => exact ⟨[], by simp, rfl⟩
  | cons y ys ih =>
    rw [List.forall_mem_cons] at h
    obtain ⟨x, hx, rfl⟩ := h.1
    obtain ⟨xs, hxs, rfl⟩ := ih h.2
    exact ⟨x :: xs, List.forall_mem_cons.mpr ⟨hx, hxs⟩, rfl⟩

/-- A well-formed string holds a text. -/
theorem exists_ofString {s : JsString} (h : isWellFormed s = true) : ∃ t, ofString t = s := by
  rw [← textOf_points, Option.isSome_iff_exists] at h
  obtain ⟨cs, hcs⟩ := h
  exact ⟨String.ofList cs, by rw [ofString, String.toList_ofList, eq_ofChars_of_textOf hcs]⟩

/-- **Data of well-formed strings without numbers is a value.** -/
theorem exists_ofValue {v : JsValue} (hfree : JsValue.numberFree v = true)
    (hwell : ∀ s ∈ v.strings, isWellFormed s = true) :
    ∃ w, numberFree w = true ∧ JsValue.ofValue w = v := by
  induction v using Document.induction with
  | null => exact ⟨.null, rfl, rfl⟩
  | bool b => exact ⟨.bool b, rfl, rfl⟩
  | number n => exact absurd hfree Bool.false_ne_true
  | string s =>
    obtain ⟨t, rfl⟩ := exists_ofString (hwell s (List.mem_singleton_self s))
    exact ⟨.string t, rfl, congrArg Document.string (units_pointsOf t)⟩
  | array items ih =>
    rw [JsValue.numberFree_array] at hfree
    rw [Document.strings_array] at hwell
    have hitems : ∀ x ∈ items, ∃ w, numberFree w = true ∧ JsValue.ofValue w = x := by
      intro x hx
      exact ih x hx (hfree x hx) fun s hs => hwell s (List.mem_flatMap.mpr ⟨x, hx, hs⟩)
    obtain ⟨ws, hws, hmap⟩ := exists_map_eq hitems
    refine ⟨.array ws, ?_, ?_⟩
    · rwa [numberFree, numberFreeAll_iff]
    · rw [ofValue_array, hmap]
  | object entries ih =>
    rw [JsValue.numberFree_object] at hfree
    rw [Document.strings_object] at hwell
    have hentries : ∀ e ∈ entries, ∃ m : String × Value,
        numberFree m.2 = true ∧ (ofString m.1, JsValue.ofValue m.2) = e := by
      intro e he
      have hmem : ∀ s ∈ e.1 :: e.2.strings, isWellFormed s = true := fun s hs =>
        hwell s (List.mem_flatMap.mpr ⟨e, he, hs⟩)
      obtain ⟨k, hk⟩ := exists_ofString (hmem _ List.mem_cons_self)
      obtain ⟨w, hw, hwe⟩ := ih e he (hfree e he) fun s hs => hmem s (List.mem_cons_of_mem _ hs)
      exact ⟨(k, w), hw, Prod.ext hk hwe⟩
    obtain ⟨ms, hms, hmap⟩ := exists_map_eq hentries
    refine ⟨.object ms, ?_, ?_⟩
    · rwa [numberFree, numberFreeMembers_iff]
    · rw [ofValue_object, hmap]

/-- Distinct keys stay distinct. -/
theorem distinct_ofValue (v : Value) : Js.distinct (JsValue.ofValue v) = v.distinct := by
  rw [Bool.eq_iff_iff]
  induction v with
  | null | bool | number | string => exact iff_of_true rfl rfl
  | array items ih =>
    rw [ofValue_array, distinct_array, List.forall_mem_map, Value.distinct, Value.distinctAll_iff]
    exact forall₂_congr ih
  | object members ih =>
    have hkeys : (members.map fun m => (ofString m.1, JsValue.ofValue m.2)).map Prod.fst =
        (members.map Prod.fst).map ofString := by
      rw [List.map_map, List.map_map]
      rfl
    rw [ofValue_object, Js.distinct_object, hkeys, List.nodup_map_iff ofString_injective,
      List.forall_mem_map, Value.distinct_object]
    exact and_congr_right fun _ => forall₂_congr ih

theorem integral_of_numberFree {v : Value} (h : numberFree v = true) : v.integral = true := by
  induction v with
  | null | bool | string => rfl
  | number n => exact absurd h (by simp [numberFree])
  | array items ih =>
    simp only [numberFree, numberFreeAll_iff] at h
    simp only [Value.integral, Value.integralAll_iff]
    exact fun x hx => ih x hx (h x hx)
  | object members ih =>
    simp only [numberFree, numberFreeMembers_iff] at h
    simp only [Value.integral, Value.integralMembers_iff]
    exact fun m hm => ih m hm (h m hm)

/-- The broker keeps every value. -/
theorem exists_same {v : Value} (hfree : numberFree v = true) (hd : v.distinct = true) :
    ∃ u : JsonValue, Value.Same v u.1 := by
  have hwf : v.norm.wf = true := Value.wf_norm hd
  have hdn : v.norm.distinct = true := Proto.distinct_of_wf hwf
  have hnorm : v.norm.norm = v.norm :=
    canonical_injective (Value.wf_norm hdn) hwf (canonical_norm hdn)
  exact ⟨⟨v.norm, hwf⟩, .of_norm_eq (integral_of_numberFree hfree) hd hdn hnorm.symm⟩

/-! ### Agreement -/

/-- **The two canonicalizers write the same bytes.**  The data is without numbers, its strings are
    well formed and no object has a key twice: it is a value, and whatever the order of members that
    the broker keeps the value in, its canonical text is the client library's. -/
theorem canonicalizers_agree (numberText : Literal → JsString) {v : JsValue}
    (hfree : JsValue.numberFree v = true) (hwell : ∀ s ∈ v.strings, isWellFormed s = true)
    (hdistinct : Js.distinct v = true) :
    ∃ w, JsValue.ofValue w = v ∧ (∃ u : JsonValue, Value.Same w u.1) ∧
      ∀ u : JsonValue, Value.Same w u.1 → Utf8.encode (Proto.canonicalize u.1) =
        JsValue.utf8 (JsValue.canonicalize numberText v) := by
  obtain ⟨w, hw, rfl⟩ := exists_ofValue hfree hwell
  rw [distinct_ofValue] at hdistinct
  refine ⟨w, rfl, exists_same hw hdistinct, fun u hsame => ?_⟩
  have hdu := Proto.distinct_of_wf u.2
  rw [canonicalize_ofValue numberText hw, utf8_ofChars, ← canonical_norm hdistinct,
    hsame.norm_eq hdistinct hdu, canonical_norm hdu, Proto.canonicalize_eq_canonical hdu]

/-- Two keys that UTF-16 and UTF-8 order differently, the value of one a control character. -/
def astralData : JsValue :=
  .object [(ofString "\uFB00", .array [.null, .bool true]),
    (ofString "😀", .string (ofString "\x01"))]

theorem canonicalizers_agree_astral : ∃ w, JsValue.ofValue w = astralData ∧
    (∃ u : JsonValue, Value.Same w u.1) ∧ ∀ u : JsonValue, Value.Same w u.1 →
      Utf8.encode (Proto.canonicalize u.1) =
        JsValue.utf8 (JsValue.canonicalize (fun _ => []) astralData) :=
  canonicalizers_agree (fun _ => []) (by decide) (by decide) (by decide)

example : Proto.canonicalize
    (.object [("😀", .string "\x01"), ("\uFB00", .array [.null, .bool true])]) =
    "\x7b\"😀\":\"\\u0001\",\"\uFB00\":[null,true]\x7d".toList := by decide

end McpLocator.Client
