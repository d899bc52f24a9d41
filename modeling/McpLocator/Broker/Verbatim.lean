import McpLocator.Broker.Decisions
import McpLocator.Json.Same

namespace McpLocator.Broker

open McpLocator.Json McpLocator.Json.Serde

/-!
# What a write keeps of the file

The broker writes the records that it has read, each in a form of its own.

* `InRecordForm` — the JSON forms of records.
* `norm_serialize_iff` — a record that is read and written again is in this form, or is changed.
* `Kept` — every member but one is in the written file as it was; `kept_iff` says when.
-/

/-! ### The form of a record -/

/-- The JSON form of a record: it has fields of a record only, each a string; it has a state, and
    its state and scope are ones there are. -/
def InRecordForm : Value → Prop
  | .object ms =>
    (∀ m ∈ ms, m.1 ∈ ConsentRecord.fieldNames ∧ ∃ s, m.2 = .string s) ∧
      (∃ state : ConsentState, ms.lookup "state" = some (.string state.name)) ∧
      ∀ v, ms.lookup "scope" = some v → ∃ scope : ConsentScope, v = .string scope.name
  | _ => False

/-- What a record has for a field is a string. -/
theorem ConsentRecord.string_of_members {r : ConsentRecord} {name : String} {v : Value}
    (h : (r.members.lookup name).join = some v) : name ∈ fieldNames ∧ ∃ s, v = .string s := by
  have hmem : (name, some v) ∈ r.members := by
    cases hl : r.members.lookup name with
    | none => exact absurd h (by simp [hl])
    | some o =>
      rw [hl, Option.join_some] at h
      exact h ▸ Value.mem_of_lookup hl
  constructor
  · exact List.mem_map_of_mem (f := Prod.fst) hmem
  · simp only [members, List.mem_cons, Prod.mk.injEq, List.not_mem_nil, or_false, eq_comm (a := some v),
      Option.map_eq_some_iff, Option.some.injEq] at hmem
    rcases hmem with ⟨-, rfl⟩ | ⟨-, s, -, rfl⟩ | ⟨-, s, -, rfl⟩ | ⟨-, s, -, rfl⟩ | ⟨-, s, -, rfl⟩ <;>
      exact ⟨_, rfl⟩

/-- **An object is in the form of a record if it has the fields of one as they are written.** -/
theorem inRecordForm_iff {ms : List (String × Value)} (hd : (ms.map Prod.fst).Nodup) :
    InRecordForm (.object ms) ↔
      ∃ r : ConsentRecord, ∀ name, ms.lookup name = (r.members.lookup name).join := by
  constructor
  · rintro ⟨hfields, ⟨state, hstate⟩, hscope⟩
    -- each optional field is a string if it is there
    have htext : ∀ name, ∃ o : Option String, ms.lookup name = o.map .string := by
      intro name
      cases hv : ms.lookup name with
      | none => exact ⟨none, rfl⟩
      | some v =>
        obtain ⟨-, s, hs⟩ := hfields _ (Value.mem_of_lookup hv)
        exact ⟨some s, congrArg some hs⟩
    obtain ⟨scope, hscope⟩ : ∃ o : Option ConsentScope,
        ms.lookup "scope" = o.map fun s => .string s.name := by
      cases hv : ms.lookup "scope" with
      | none => exact ⟨none, rfl⟩
      | some v =>
        obtain ⟨scope, rfl⟩ := hscope v hv
        exact ⟨some scope, rfl⟩
    obtain ⟨grantedAt, hgranted⟩ := htext "grantedAt"
    obtain ⟨launchHash, hhash⟩ := htext "launchHash"
    obtain ⟨launchCommand, hcommand⟩ := htext "launchCommand"
    refine ⟨{ state, grantedAt, launchHash, launchCommand, scope }, fun name => ?_⟩
    by_cases hname : name ∈ ConsentRecord.fieldNames
    · simp only [ConsentRecord.fieldNames, List.mem_cons, List.not_mem_nil, or_false] at hname
      rcases hname with rfl | rfl | rfl | rfl | rfl
      · exact hstate
      · exact hgranted
      · exact hhash
      · exact hcommand
      · exact hscope
    · have hnone : ms.lookup name = none := by
        rw [List.lookup_eq_none_iff]
        rintro m hm
        refine bne_iff_ne.mpr ?_
        rintro rfl
        exact hname (hfields m hm).1
      rw [hnone, eq_comm, Option.eq_none_iff_forall_not_mem]
      exact fun v hv => hname (ConsentRecord.string_of_members hv).1
  · rintro ⟨r, hr⟩
    refine ⟨fun m hm => ?_, ⟨r.state, hr "state"⟩, fun v hv => ?_⟩
    · exact ConsentRecord.string_of_members ((hr m.1).symm.trans (Value.lookup_of_mem hd hm))
    · rw [hr] at hv
      obtain ⟨scope, -, rfl⟩ := Option.map_eq_some_iff.mp (show r.scope.map _ = some v from hv)
      exact ⟨scope, rfl⟩

/-- The arrangement of an object is that of a record if the fields are the record's. -/
theorem norm_serialize_iff {ms : List (String × Value)} (hd : (ms.map Prod.fst).Nodup)
    (r : ConsentRecord) : r.serialize.norm = (Value.object ms).norm ↔
      ∀ name, ms.lookup name = (r.members.lookup name).join := by
  have hget : ∀ name, (sortMembers id (r.members.filterMap fun f => f.2.map fun v => (f.1, v))).lookup
      name = (r.members.lookup name).join := get_ofFields r.nodup_members
  rw [ConsentRecord.serialize, ofFields,
    Value.norm_object_eq_iff (nodup_ofFields r.nodup_members) hd]
  refine forall_congr' fun name => ?_
  rw [hget]
  constructor
  · intro h
    -- a value that is arranged as a string is this string
    cases hv : (r.members.lookup name).join with
    | none =>
      rw [hv, Option.map_none, eq_comm, Option.map_eq_none_iff] at h
      exact h
    | some v =>
      obtain ⟨-, s, rfl⟩ := ConsentRecord.string_of_members hv
      rw [hv, Option.map_some, eq_comm, Option.map_eq_some_iff] at h
      obtain ⟨w, hw, hnorm⟩ := h
      rw [hw, Value.eq_of_norm (by simp [Value.norm]) (by simp [Value.norm]) hnorm]
      rfl
  · intro h
    rw [h]

/-- **What is read and written again is in the form of a record, or it is changed.** -/
theorem serialize_norm_iff {v : Value} (hd : v.distinct = true) {r : ConsentRecord}
    (hr : ConsentRecord.deserialize v = some r) : r.serialize.norm = v.norm ↔ InRecordForm v := by
  cases v with
  | object ms =>
    have hnd := (Value.distinct_object.mp hd).1
    rw [norm_serialize_iff hnd, inRecordForm_iff hnd]
    constructor
    · intro h
      exact ⟨r, h⟩
    · rintro ⟨r', hr'⟩
      -- the record of the form is the one that is read
      have hread := ConsentRecord.deserialize_of_lookup (repeated_eq_false hnd _) hr'
      obtain rfl := Option.some.inj (hr.symm.trans hread)
      exact hr'
  | array items =>
    rw [Value.norm_array]
    exact iff_of_false (by simp [ConsentRecord.serialize, ofFields, Value.norm])
      (by simp [InRecordForm])
  | _ =>
    exact iff_of_false (by simp [ConsentRecord.serialize, ofFields, Value.norm])
      (by simp [InRecordForm])

theorem readable_of_inRecordForm {v : Value} (hd : v.distinct = true) (h : InRecordForm v) :
    (ConsentRecord.deserialize v).isSome = true := by
  cases v with
  | object ms =>
    have hnd := (Value.distinct_object.mp hd).1
    obtain ⟨r, hr⟩ := (inRecordForm_iff hnd).mp h
    rw [ConsentRecord.deserialize_of_lookup (repeated_eq_false hnd _) hr]
    rfl
  | _ => exact absurd h (by simp [InRecordForm])

/-! ### Writing -/

/-- A completed decision on a store leaves every member of the file but the server's own as it was. -/
def Kept (disk : Disk) (store : ConsentStore) (d : Decided) (identity : Identity) (readBack : Bool)
    (ms : List (String × Value)) : Prop :=
  ∃ ns, (store.perform (.written identity readBack) disk d.now d.name d.action).2.1.content =
      some (.json (.object ns)) ∧
    ∀ other, other ≠ d.name → (ns.lookup other).map Value.norm = (ms.lookup other).map Value.norm

/-- The file can be kept: there is no other server in it, or the broker reads the server's own member
    and finds the others in the form of records. -/
def Keeps (name : String) (ms : List (String × Value)) : Prop :=
  (∀ m ∈ ms, m.1 = name) ∨ ∀ m ∈ ms,
    if m.1 = name then (ConsentRecord.deserialize m.2).isSome = true else InRecordForm m.2

theorem lookup_toList (records : Records) (name : String) :
    records.toList.lookup name = records[name]? := by
  refine Option.ext fun r => ?_
  have hnd : (records.toList.map Prod.fst).Nodup := by
    refine List.pairwise_map.mpr (records.distinct_keys_toList.imp fun h heq => h ?_)
    rw [heq]
    exact Std.ReflCmp.compare_self
  rw [Value.lookup_iff_mem hnd (m := (name, r)), Std.ExtTreeMap.mem_toList_iff_getElem?_eq_some]

/-- Whatever the broker has read, it is kept if it is written as it is in the file. -/
theorem kept_iff_records (disk : Disk) (store : ConsentStore) (d : Decided) (identity : Identity)
    (readBack : Bool) (ms : List (String × Value)) : Kept disk store d identity readBack ms ↔
      ∀ other, other ≠ d.name → ((store.refresh disk).records[other]?).map
        (fun r => r.serialize.norm) = (ms.lookup other).map Value.norm := by
  have hwritten : ∀ other, other ≠ d.name →
      (((d.apply (store.refresh disk).records).toList.map fun p => (p.1, p.2.serialize)).lookup
        other).map Value.norm =
      ((store.refresh disk).records[other]?).map fun r => r.serialize.norm := by
    intro other hne
    rw [Value.lookup_map_snd fun _ => ConsentRecord.serialize, lookup_toList, Decided.getElem?_apply,
      if_neg (Ne.symm hne), Option.map_map]
    rfl
  rw [Kept, ConsentStore.perform_written]
  constructor
  · rintro ⟨ns, hns, hkept⟩ other hne
    cases hns
    exact (hwritten other hne).symm.trans (hkept other hne)
  · intro h
    exact ⟨_, rfl, fun other hne => (hwritten other hne).trans (h other hne)⟩

/-- The records of a file that the broker can read. -/
theorem getElem?_records {disk : Disk} {ms : List (String × Value)}
    (hcontent : disk.content = some (.json (.object ms))) (hnd : (ms.map Prod.fst).Nodup)
    (h : ∀ m ∈ ms, (ConsentRecord.deserialize m.2).isSome = true) (name : String) :
    disk.records[name]? = (ms.lookup name).bind ConsentRecord.deserialize := by
  have hread : disk.records = Std.ExtTreeMap.ofList
      (ms.map fun m => (m.1, (ConsentRecord.deserialize m.2).getD .notAsked)) := by
    show (disk.content.bind decode).getD ∅ = _
    rw [hcontent, Option.bind_some, decode, readRecords_of_readable h]
    rfl
  have hnd' : ((ms.reverse).map Prod.fst).Nodup := by
    rw [List.map_reverse]
    exact List.nodup_reverse.mpr hnd
  have hreverse : ms.reverse.lookup name = ms.lookup name := by
    refine Option.ext fun v => ?_
    rw [Value.lookup_iff_mem hnd' (m := (name, v)), Value.lookup_iff_mem hnd (m := (name, v)),
      List.mem_reverse]
  rw [hread, TreeMap.getElem?_ofList, ← List.map_reverse,
    Value.lookup_map_snd fun _ v => (ConsentRecord.deserialize v).getD .notAsked, hreverse]
  cases hv : ms.lookup name with
  | none => rfl
  | some v =>
    obtain ⟨r, hr⟩ := Option.isSome_iff_exists.mp (h _ (Value.mem_of_lookup hv))
    rw [Option.map_some, Option.bind_some, hr, Option.getD_some]

section Reads

variable {disk : Disk} {name : String} {ms : List (String × Value)}
  (hcontent : disk.content = some (.json (.object ms))) (hd : (Value.object ms).distinct = true)

include hcontent hd

/-- Where every member is read, each of the others must be in the form in which it is written. -/
theorem records_iff_of_readable (hread : ∀ m ∈ ms, (ConsentRecord.deserialize m.2).isSome = true) :
    (∀ other, other ≠ name → (disk.records[other]?).map (fun r => r.serialize.norm) =
      (ms.lookup other).map Value.norm) ↔ Keeps name ms := by
  obtain ⟨hnd, hall⟩ := Value.distinct_object.mp hd
  have hmember : ∀ m ∈ ms, ((disk.records[m.1]?).map (fun r => r.serialize.norm) =
      (ms.lookup m.1).map Value.norm ↔ InRecordForm m.2) := by
    intro m hm
    obtain ⟨r, hr⟩ := Option.isSome_iff_exists.mp (hread m hm)
    rw [getElem?_records hcontent hnd hread, Value.lookup_of_mem hnd hm, Option.bind_some, hr,
      Option.map_some, Option.map_some, Option.some.injEq, serialize_norm_iff (hall m hm) hr]
  constructor
  · intro h
    refine .inr fun m hm => ?_
    split
    · exact hread m hm
    · rename_i hne
      exact (hmember m hm).mp (h m.1 hne)
  · intro h other hne
    cases hv : ms.lookup other with
    | none =>
      rw [getElem?_records hcontent hnd hread, hv]
      rfl
    | some v =>
      have hm := Value.mem_of_lookup hv
      rw [← hv]
      refine (hmember _ hm).mpr ?_
      rcases h with honly | h
      · exact absurd (honly _ hm) hne
      · have := h _ hm
        rwa [if_neg hne] at this

/-- Where one member is not read, nothing is, so nothing else may be there. -/
theorem records_iff_of_not_readable
    (hread : ¬∀ m ∈ ms, (ConsentRecord.deserialize m.2).isSome = true) :
    (∀ other, other ≠ name → (disk.records[other]?).map (fun r => r.serialize.norm) =
      (ms.lookup other).map Value.norm) ↔ Keeps name ms := by
  obtain ⟨hnd, hall⟩ := Value.distinct_object.mp hd
  have hnone : disk.records = ∅ := by
    show (disk.content.bind decode).getD ∅ = _
    rw [hcontent, Option.bind_some, decode, readRecords_of_not_readable hread]
    rfl
  rw [hnone]
  constructor
  · intro h
    refine .inl fun m hm => ?_
    by_contra hne
    have hlost := h m.1 hne
    rw [Value.lookup_of_mem hnd hm] at hlost
    exact absurd hlost (by simp)
  · rintro (honly | h) other hne
    · have habsent : ms.lookup other = none := by
        rw [List.lookup_eq_none_iff]
        rintro m hm
        refine bne_iff_ne.mpr ?_
        rintro rfl
        exact hne (honly m hm)
      rw [habsent]
      simp
    · refine absurd (fun m hm => ?_) hread
      have hmem := h m hm
      split at hmem
      · exact hmem
      · exact readable_of_inRecordForm (hall m hm) hmem

/-- A store that has the records of the file, as one that has just read it does. -/
theorem kept_iff_of_coherent {store : ConsentStore} (hstore : store.Coherent disk) (d : Decided)
    (identity : Identity) (readBack : Bool) :
    Kept disk store d identity readBack ms ↔ Keeps d.name ms := by
  rw [kept_iff_records, hstore.refresh_records]
  by_cases hread : ∀ m ∈ ms, (ConsentRecord.deserialize m.2).isSome = true
  · exact records_iff_of_readable hcontent hd hread
  · exact records_iff_of_not_readable hcontent hd hread

end Reads

/-- **Writing one decision leaves the other members of the file as they are exactly if the file can
    be kept.**  A store that takes the file for one it has read before must have its other members
    in the form of its records. -/
theorem kept_iff (disk : Disk) (store : ConsentStore) (d : Decided) (identity : Identity)
    (readBack : Bool) {ms : List (String × Value)}
    (hcontent : disk.content = some (.json (.object ms)))
    (hd : (Value.object ms).distinct = true) :
    Kept disk store d identity readBack ms ↔
      (store.Coherent disk → Keeps d.name ms) ∧
        (¬store.Coherent disk → ∀ other, other ≠ d.name →
          (store.records[other]?).map (fun r => r.serialize.norm) =
            (ms.lookup other).map Value.norm) := by
  by_cases hstore : store.Coherent disk
  · rw [kept_iff_of_coherent hcontent hd hstore d identity readBack]
    exact ⟨fun h => ⟨fun _ => h, fun hnot => absurd hstore hnot⟩, fun h => h.1 hstore⟩
  · have hseen : disk.metadata = store.seen ∧ store.seen.isSome = true := by
      rw [ConsentStore.Coherent, Classical.not_imp, Classical.not_imp] at hstore
      exact ⟨hstore.2.1, hstore.1⟩
    have hrefresh : store.refresh disk = store := if_pos hseen
    rw [kept_iff_records, hrefresh]
    exact ⟨fun h => ⟨fun hyes => absurd hyes hstore, fun _ => h⟩, fun h => h.2 hstore⟩

/-- A file with one decision in it. -/
def oneDecision (record : Value) : List (String × Value) := [("com.example.notes", record)]

/-- The disk on which it is. -/
def diskWith (record : Value) : Disk :=
  { metadata := some ⟨0, 0⟩, content := some (.json (.object (oneDecision record))) }

def denyViewer : Decided :=
  { now := "2026-08-15T17:02:11Z", name := "com.example.viewer", action := .deny }

/-- A denial, as the broker writes it. -/
def deniedRecord : Value := .object [("state", .string "denied")]

theorem kept_iff_notes : Kept (diskWith deniedRecord) (ConsentStore.load (diskWith deniedRecord))
    denyViewer ⟨1, 1⟩ true (oneDecision deniedRecord) := by
  have hform : InRecordForm deniedRecord := by
    refine ⟨fun m hm => ?_, ⟨.denied, rfl⟩, fun v hv => absurd hv (by simp [List.lookup_cons])⟩
    obtain rfl := List.mem_singleton.mp hm
    exact ⟨by decide, "denied", rfl⟩
  refine (kept_iff _ _ _ _ _ rfl (by decide)).mpr ⟨fun _ => .inr fun m hm => ?_, fun h => ?_⟩
  · obtain rfl := List.mem_singleton.mp hm
    rw [if_neg (by decide)]
    exact hform
  · exact absurd (ConsentStore.coherent_load _) h

/-- A record for one client, as it is documented. -/
def clientRecord : Value :=
  .object [("clientId", .string "editor"), ("scope", .string "client"), ("state", .string "granted")]

/-- A record with a scope that the broker does not know. -/
def projectRecord : Value := .object [("scope", .string "project"), ("state", .string "granted")]

theorem not_kept_of_form {record : Value} (hd : (Value.object (oneDecision record)).distinct = true)
    (h : ¬InRecordForm record) :
    ¬Kept (diskWith record) (ConsentStore.load (diskWith record)) denyViewer ⟨1, 1⟩ true
      (oneDecision record) := by
  rw [kept_iff_of_coherent rfl hd (ConsentStore.coherent_load _)]
  rintro (honly | hform)
  · exact absurd (honly _ List.mem_cons_self)
      (show "com.example.notes" ≠ "com.example.viewer" by decide)
  · exact h (hform _ List.mem_cons_self)

/-- The broker drops a member of a record that it does not know, and loses a record that it cannot
    read. -/
theorem not_kept :
    ¬Kept (diskWith clientRecord) (ConsentStore.load (diskWith clientRecord)) denyViewer ⟨1, 1⟩ true
        (oneDecision clientRecord) ∧
      ¬Kept (diskWith projectRecord) (ConsentStore.load (diskWith projectRecord)) denyViewer ⟨1, 1⟩
        true (oneDecision projectRecord) := by
  constructor
  · refine not_kept_of_form (by decide) ?_
    rintro ⟨hfields, -, -⟩
    exact absurd (hfields _ List.mem_cons_self).1 (by decide)
  · refine not_kept_of_form (by decide) ?_
    rintro ⟨-, -, hscope⟩
    obtain ⟨scope, hname⟩ := hscope _ rfl
    cases scope <;> exact absurd hname (by simp [ConsentScope.name])

end McpLocator.Broker
