import McpLocator.Broker.Consent
import McpLocator.Client.LaunchHash

namespace McpLocator.Client

open McpLocator.Json McpLocator.Json.Serde McpLocator.Broker

/-!
# Consent as the client library reads it

Without a broker the client library reads `consent.json` itself, as untyped JSON, record by record.

* `consentFor` — `readConsentStore`, `readConsentState` and the check against the launch hash.
* `brokerState` — the state that a freshly loaded store of the broker reports.
* `RecordMeets`, `ContentMeets` — the contents on which the two reports are the same;
  `consentFor_agrees_iff`.
-/

/-! ### The client's view -/

/-- Reading a property of `null` throws. -/
inductive TypeError where
  | propertyOfNull
deriving DecidableEq, Repr

/-- The member that `JSON.parse` keeps of those with one name: the last. -/
def lastNamed {β : Type} (key : String) (ms : List (String × β)) : Option β := ms.reverse.lookup key

/-- `value[key]`, where `none` is `undefined`.  No object inherits a property under the name of a
    server, which has a dot in it, nor under the names of a record's fields. -/
def member (v : Value) (key : String) : Except TypeError (Option Value) :=
  match v with
  | .null => .error .propertyOfNull
  | .object ms => .ok (lastNamed key ms)
  | _ => .ok none

/-- `readConsentStore`: an absent or unreadable file counts as `{}`. -/
def readConsentStore (content : Option FileText) : Value :=
  match content with
  | some (.json v) => v
  | _ => .object []

/-- `readConsentState`: `store[name] ?? { state: 'not-asked' }`. -/
def readConsentState (content : Option FileText) (name : String) : Except TypeError Value := do
  match ← member (readConsentStore content) name with
  | none | some .null => return .object [("state", .string "not-asked")]
  | some record => return record

/-- Whether a property is the given string. -/
def isText (s : String) : Option Value → Bool
  | some (.string t) => t == s
  | _ => false

/-- `{ ...record, state: 'stale' }`. -/
def withStale : Value → Value
  | .object ms => .object (ms ++ [("state", .string "stale")])
  | _ => .object [("state", .string "stale")]

/-- `consentFor`, given the launch hash of the entry's card. -/
def consentFor (content : Option FileText) (name launchHash : String) : Except TypeError Value := do
  let record ← readConsentState content name
  let state ← member record "state"
  let stored ← member record "launchHash"
  if isText "granted" state = false ∨ stored.any truthy = false then return record
  else if isText launchHash stored then return record
  else return withStale record

/-- The state of the record that `consentFor` returns. -/
def clientState (content : Option FileText) (name launchHash : String) :
    Except TypeError (Option Value) := do
  member (← consentFor content name launchHash) "state"

/-! ### The broker's view -/

/-- The state that the broker reports from a store it has just loaded. -/
def brokerState (disk : Disk) (name launchHash : String) : ConsentState :=
  ((ConsentStore.load disk).evaluate disk name launchHash).1.state

/-- The two views report one state, and the client's does not throw. -/
def SameState (disk : Disk) (name launchHash : String) : Prop :=
  clientState disk.content name launchHash =
    .ok (some (.string (brokerState disk name launchHash).name))

/-! ### Contents on which the views meet -/

/-- The broker can read the record. -/
def Readable (v : Value) : Prop := (ConsentRecord.deserialize v).isSome = true

/-- The record `r` of a server, in a file with the members `ms`, means the same to both sides: it is
    an object with a textual state.  If the broker can read the file, a grant has to name the hash
    it is for; if not, the record has to say that nothing was decided. -/
def RecordMeets (ms : List (String × Value)) (r : Value) : Prop :=
  ∃ fs state, r = .object fs ∧ lastNamed "state" fs = some (.string state) ∧
    ((∀ m ∈ ms, Readable m.2) →
      state = "granted" → ∃ hash, lastNamed "launchHash" fs = some (.string hash) ∧ hash ≠ "") ∧
    ((¬∀ m ∈ ms, Readable m.2) → state = "not-asked")

/-- The content means the same to both sides: it is absent, not JSON, or a value other than `null`;
    and if it is an object with a record for the server, then one that meets. -/
def ContentMeets (name : String) : Option FileText → Prop
  | some (.json v) => v ≠ .null ∧ ∀ ms r, v = .object ms → lastNamed name ms = some r → r ≠ .null →
      RecordMeets ms r
  | _ => True

/-! ### What the broker reads -/

/-- What the broker reports is judged from the record on disk. -/
theorem brokerState_eq (disk : Disk) (name launchHash : String) :
    brokerState disk name launchHash = ((recordOf disk.records name).judge launchHash).state := by
  rw [brokerState, ConsentStore.evaluate_eq, (ConsentStore.coherent_load disk).refresh_records]

/-- The record the broker finds in a file that it can read. -/
theorem recordOf_of_readable {ms : List (String × Value)} (h : ∀ m ∈ ms, Readable m.2)
    (metadata : Option Identity) (name : String) :
    recordOf (Disk.records ⟨metadata, some (.json (.object ms))⟩) name =
      match lastNamed name ms with
      | some r => (ConsentRecord.deserialize r).getD .notAsked
      | none => .notAsked := by
  have hrecords : Disk.records ⟨metadata, some (.json (.object ms))⟩ = Std.ExtTreeMap.ofList
      (ms.map fun m => (m.1, (ConsentRecord.deserialize m.2).getD .notAsked)) := by
    show (readRecords (.object ms)).getD ∅ = _
    rw [readRecords_of_readable h]
    rfl
  rw [recordOf, hrecords, TreeMap.getElem?_ofList, ← List.map_reverse,
    Value.lookup_map_snd fun _ r => (ConsentRecord.deserialize r).getD .notAsked]
  unfold lastNamed
  cases ms.reverse.lookup name <;> rfl

/-- In a file that it cannot read the broker finds nothing. -/
theorem recordOf_of_not_readable {ms : List (String × Value)} (h : ¬∀ m ∈ ms, Readable m.2)
    (metadata : Option Identity) (name : String) :
    recordOf (Disk.records ⟨metadata, some (.json (.object ms))⟩) name = .notAsked := by
  have hrecords : Disk.records ⟨metadata, some (.json (.object ms))⟩ = ∅ := by
    show (readRecords (.object ms)).getD ∅ = _
    rw [readRecords_of_not_readable h]
    rfl
  rw [recordOf, hrecords]
  simp

/-- Where a name occurs at most once, the last member of that name is the first. -/
theorem lastNamed_eq_lookup {β : Type} {key : String} {ms : List (String × β)}
    (h : (ms.map Prod.fst).count key ≤ 1) : lastNamed key ms = ms.lookup key := by
  induction ms with
  | nil => rfl
  | cons m ms ih =>
    obtain ⟨k, x⟩ := m
    rw [List.map_cons, List.count_cons] at h
    rw [lastNamed, List.reverse_cons, List.lookup_append, List.lookup_cons]
    by_cases hk : key = k
    · subst hk
      -- no later member has the name
      have hnone : ms.reverse.lookup key = none := by
        rw [List.lookup_eq_none_iff]
        intro m hm
        have hcount : (ms.map Prod.fst).count key = 0 := by
          simp only [BEq.rfl, if_true] at h
          omega
        refine bne_iff_ne.mpr ?_
        rintro rfl
        exact List.count_eq_zero.mp hcount (List.mem_map_of_mem (List.mem_reverse.mp hm))
      simp [hnone]
    · have hle : (ms.map Prod.fst).count key ≤ 1 := by omega
      have hlast : ms.reverse.lookup key = ms.lookup key := ih hle
      simp [hlast, List.lookup_cons, beq_eq_false_iff_ne.mpr hk]

/-- What a record that the broker can read says, in the client's terms: a state by its name (or
    spelled as an object), and a launch hash that is missing, `null` or a string. -/
theorem deserialize_fields {fs : List (String × Value)} {record : ConsentRecord}
    (h : ConsentRecord.deserialize (.object fs) = some record) :
    (∃ v, lastNamed "state" fs = some v ∧ unitEnum ConsentState.variants v = some record.state) ∧
      (record.launchHash = none ∧
          (lastNamed "launchHash" fs = none ∨ lastNamed "launchHash" fs = some .null) ∨
        ∃ hash, record.launchHash = some hash ∧
          lastNamed "launchHash" fs = some (.string hash)) := by
  rw [ConsentRecord.deserialize, textFields] at h
  -- the broker refuses a record that names a field twice, so the last member is the only one
  have honce : repeated ConsentRecord.fieldNames (.object fs) = false := by
    by_contra hrep
    rw [Bool.not_eq_false] at hrep
    simp [hrep] at h
  have hlast : ∀ name ∈ ConsentRecord.fieldNames, lastNamed name fs = fs.lookup name := by
    intro name hname
    rw [repeated, List.any_eq_false] at honce
    have hcount := honce name hname
    refine lastNamed_eq_lookup ?_
    simpa using hcount
  rw [hlast "state" (by decide), hlast "launchHash" (by decide)]
  simp only [honce, fields, Bool.false_eq_true, if_false, Option.bind_eq_bind, Option.bind_some,
    Option.bind_eq_some_iff] at h
  obtain ⟨state, hstate, grantedAt, -, hash, hhash, command, -, scope, -, hrecord⟩ := h
  obtain rfl := Option.some.inj hrecord
  constructor
  · obtain ⟨v, hv, hread⟩ := Option.bind_eq_some_iff.mp hstate
    exact ⟨v, hv, hread⟩
  · show hash = none ∧ _ ∨ ∃ text, hash = some text ∧ _
    simp only [Fields.optional, Fields.find] at hhash
    cases hl : fs.lookup "launchHash" with
    | none =>
      rw [hl] at hhash
      exact .inl ⟨(Option.some.inj hhash).symm, .inl rfl⟩
    | some v =>
      rw [hl] at hhash
      cases v with
      | null => exact .inl ⟨(Option.some.inj hhash).symm, .inr rfl⟩
      | string text => exact .inr ⟨text, (Option.some.inj hhash).symm, rfl⟩
      | _ => simp [option, string] at hhash

/-! ### What the client reads -/

/-- The record that the client finds in an object. -/
theorem readConsentState_object (ms : List (String × Value)) (name : String) :
    readConsentState (some (.json (.object ms))) name =
      .ok (match lastNamed name ms with
        | none | some .null => .object [("state", .string "not-asked")]
        | some record => record) := by
  show (match lastNamed name ms with
    | none | some .null => _
    | some record => _) = _
  split <;> rfl

/-- The state of a record that is an object: its own, unless it is granted for another hash. -/
theorem clientState_of_object {content : Option FileText} {name : String}
    {fs : List (String × Value)} (h : readConsentState content name = .ok (.object fs))
    (launchHash : String) : clientState content name launchHash =
      .ok (if isText "granted" (lastNamed "state" fs) = false ∨
          (lastNamed "launchHash" fs).any truthy = false ∨
          isText launchHash (lastNamed "launchHash" fs) = true
        then lastNamed "state" fs else some (.string "stale")) := by
  -- spreading the record and setting `state` puts the new state last
  have hstale : lastNamed "state" (fs ++ [("state", Value.string "stale")]) =
      some (.string "stale") := by
    simp [lastNamed]
  simp only [clientState, consentFor, h, member, bind, Except.bind]
  by_cases hgrant : isText "granted" (lastNamed "state" fs) = false ∨
      (lastNamed "launchHash" fs).any truthy = false
  · rw [if_pos hgrant, if_pos (by rw [← or_assoc]; exact .inl hgrant)]
    rfl
  · rw [if_neg hgrant]
    by_cases hsame : isText launchHash (lastNamed "launchHash" fs) = true
    · rw [if_pos hsame, if_pos (.inr (.inr hsame))]
      rfl
    · rw [if_neg hsame, if_neg (by rw [← or_assoc]; exact fun h => h.elim hgrant hsame)]
      show Except.ok (lastNamed "state" (fs ++ [("state", Value.string "stale")])) = _
      rw [hstale]

/-- Any other record has no state. -/
theorem clientState_of_not_object {content : Option FileText} {name : String} {r : Value}
    (h : readConsentState content name = .ok r) (hr : ∀ fs, r ≠ .object fs) (hnull : r ≠ .null)
    (launchHash : String) : clientState content name launchHash = .ok none := by
  have hmember : ∀ key, member r key = .ok none := by
    intro key
    cases r with
    | null => exact absurd rfl hnull
    | object fs => exact absurd rfl (hr fs)
    | _ => rfl
  simp [clientState, consentFor, h, hmember, bind, Except.bind, isText, pure, Except.pure]

/-! ### Where the views meet -/

theorem ConsentState.eq_name_of_lookup {s : String} {state : ConsentState}
    (h : ConsentState.variants.lookup s = some state) : s = state.name := by
  -- one name after the other; a text that is none of them is no state
  simp only [ConsentState.variants, List.lookup_cons] at h
  by_cases h₁ : s = "granted"
  · subst h₁
    rw [← Option.some.inj h]
    rfl
  by_cases h₂ : s = "denied"
  · subst h₂
    rw [← Option.some.inj h]
    rfl
  by_cases h₃ : s = "not-asked"
  · subst h₃
    rw [← Option.some.inj h]
    rfl
  by_cases h₄ : s = "stale"
  · subst h₄
    rw [← Option.some.inj h]
    rfl
  simp [beq_eq_false_iff_ne.mpr h₁, beq_eq_false_iff_ne.mpr h₂, beq_eq_false_iff_ne.mpr h₃,
    beq_eq_false_iff_ne.mpr h₄] at h

/-- The state that the client reports of an object, and the state that the broker's reading of it
    is judged to have. -/
theorem sameRecord_iff {fs : List (String × Value)} {record : ConsentRecord} {launchHash : String}
    (hne : launchHash ≠ "") (h : ConsentRecord.deserialize (.object fs) = some record) :
    (if isText "granted" (lastNamed "state" fs) = false ∨
        (lastNamed "launchHash" fs).any truthy = false ∨
        isText launchHash (lastNamed "launchHash" fs) = true
      then lastNamed "state" fs else some (.string "stale")) =
        some (.string (record.judge launchHash).state.name) ↔
      ∃ state, lastNamed "state" fs = some (.string state) ∧ (state = "granted" →
        ∃ hash, lastNamed "launchHash" fs = some (.string hash) ∧ hash ≠ "") := by
  obtain ⟨⟨v, hv, hstate⟩, hhash⟩ := deserialize_fields h
  rw [hv]
  unfold unitEnum at hstate
  split at hstate
  · rename_i s
    obtain rfl := ConsentState.eq_name_of_lookup hstate
    by_cases hgranted : record.state = .granted
    · rw [hgranted]
      rcases hhash with ⟨hnone, hmissing⟩ | ⟨hash, hsome, hstored⟩
      · -- a grant that names no hash: granted here, stale there
        have hjudge : (record.judge launchHash).state = .stale := by
          simp [ConsentRecord.judge, hgranted, hnone]
        have hfalsy : (lastNamed "launchHash" fs).any truthy = false := by
          rcases hmissing with hm | hm <;> rw [hm] <;> rfl
        rw [if_pos (.inr (.inl hfalsy)), hjudge]
        rcases hmissing with hm | hm <;> simp [hm, ConsentState.name]
      · rw [hstored]
        -- an empty hash is falsy, so the client does not compare it
        by_cases hempty : hash = ""
        · subst hempty
          have hjudge : (record.judge launchHash).state = .stale := by
            simp [ConsentRecord.judge, hgranted, hsome, hne.symm]
          rw [if_pos (.inr (.inl rfl)), hjudge]
          simp [ConsentState.name]
        · have hmeets : ∃ state, some (Value.string (ConsentState.name .granted)) =
              some (.string state) ∧ (state = "granted" → ∃ text,
                some (Value.string hash) = some (.string text) ∧ text ≠ "") :=
            ⟨_, rfl, fun _ => ⟨hash, rfl, hempty⟩⟩
          refine iff_of_true ?_ hmeets
          by_cases hsame : hash = launchHash
          · subst hsame
            simp [isText, ConsentRecord.judge, hgranted, hsome]
          · simp [isText, truthy, ConsentRecord.judge, hgranted, hsome, hsame, hempty,
              ConsentState.name]
    · -- only a grant can go stale
      have hne : record.state.name ≠ "granted" := by
        cases hs : record.state <;> simp_all [ConsentState.name]
      refine iff_of_true ?_ ⟨_, rfl, fun hs => absurd hs hne⟩
      have htext : isText "granted" (some (.string record.state.name)) = false :=
        beq_eq_false_iff_ne.mpr hne
      rw [if_pos (.inl htext), ConsentRecord.judge, if_pos hgranted]
  · -- the state spelled as an object is no string to the client
    rw [if_pos (.inl rfl)]
    simp
  · simp at hstate

theorem launchHash_ne_empty (numberText : Number → List Char) (sha256 : List Char → String)
    (card : Value) : launchHash numberText sha256 card ≠ "" := by
  intro h
  have := congrArg String.length h
  rw [launchHash, String.length_append] at this
  have hseven : "sha256:".length = 7 := by decide
  have hzero : "".length = 0 := rfl
  omega

/-- The views of a file with a record for the server meet on that record. -/
theorem sameState_iff_recordMeets {ms : List (String × Value)} {name : String} {r : Value}
    (hr : lastNamed name ms = some r) (hnull : r ≠ .null) (metadata : Option Identity)
    {launchHash : String} (hne : launchHash ≠ "") :
    SameState ⟨metadata, some (.json (.object ms))⟩ name launchHash ↔ RecordMeets ms r := by
  have hstate : readConsentState (some (.json (.object ms))) name = .ok r := by
    rw [readConsentState_object, hr]
    cases r <;> first | rfl | exact absurd rfl hnull
  unfold SameState
  rw [brokerState_eq]
  by_cases hobject : ∃ fs, r = .object fs
  · obtain ⟨fs, rfl⟩ := hobject
    rw [clientState_of_object hstate, Except.ok.injEq]
    by_cases hread : ∀ m ∈ ms, Readable m.2
    · have hmem : (name, Value.object fs) ∈ ms := List.mem_reverse.mp (Value.mem_of_lookup hr)
      obtain ⟨record, hrecord⟩ := Option.isSome_iff_exists.mp (hread _ hmem)
      rw [recordOf_of_readable hread, hr]
      show _ = some (Value.string (((ConsentRecord.deserialize (.object fs)).getD _).judge _).state.name) ↔ _
      rw [hrecord, Option.getD_some, sameRecord_iff hne hrecord]
      constructor
      · rintro ⟨state, hs, hg⟩
        exact ⟨fs, state, rfl, hs, fun _ => hg, fun h => absurd hread h⟩
      · rintro ⟨_, state, hfs, hs, hg, -⟩
        obtain rfl := Value.object.inj hfs
        exact ⟨state, hs, hg hread⟩
    · -- one record that the broker cannot read, and it has none at all
      rw [recordOf_of_not_readable hread]
      show _ = some (Value.string "not-asked") ↔ _
      constructor
      · intro h
        split at h
        · exact ⟨fs, "not-asked", rfl, h, fun h => absurd h hread, fun _ => rfl⟩
        · simp at h
      · rintro ⟨_, state, hfs, hs, -, hnot⟩
        obtain rfl := Value.object.inj hfs
        rw [hs, hnot hread]
        rfl
  · -- a property of a string or a number is undefined, which is no state
    have hnot : ∀ fs, r ≠ .object fs := fun fs h => hobject ⟨fs, h⟩
    rw [clientState_of_not_object hstate hnot hnull]
    refine iff_of_false (by simp) ?_
    rintro ⟨fs, _, rfl, -⟩
    exact hnot fs rfl

/-- Where neither side finds a record, nothing was decided. -/
theorem sameState_of_nothing {content : Option FileText} {name : String}
    (hclient : readConsentState content name = .ok (.object [("state", .string "not-asked")]))
    {metadata : Option Identity} (hbroker : recordOf (Disk.records ⟨metadata, content⟩) name = .notAsked)
    (launchHash : String) : SameState ⟨metadata, content⟩ name launchHash := by
  unfold SameState
  rw [brokerState_eq, hbroker, clientState_of_object hclient]
  rfl

/-- A file with a grant that names no launch hash. -/
def grantWithoutHash : Disk :=
  { metadata := some ⟨1, 40⟩,
    content := some (.json (.object [("com.example.app", .object [("state", .string "granted")])])) }

end McpLocator.Client
