import McpLocator.Broker.Consent
import Mathlib.Data.List.Induction

namespace McpLocator.Broker

/-!
# Decisions

What a consent file holds is what the decisions about it made of it: `settle` applies them in order,
and `getElem?_settle` says that the last decision about a server is its record.
-/

/-- A completed decision about a server. -/
structure Decided where
  now : String
  name : String
  action : ConsentAction
deriving DecidableEq, Repr

/-- What the decision does to the records. -/
def Decided.apply (d : Decided) (records : Records) : Records := d.action.apply d.now d.name records

/-- The record that the decision leaves, if any. -/
def Decided.record (d : Decided) : Option ConsentRecord := d.action.record d.now

/-- The records after decisions taken in order. -/
def settle (records : Records) (decisions : List Decided) : Records :=
  decisions.foldl (fun records d => d.apply records) records

/-- The last decision about a server. -/
def lastDecision (decisions : List Decided) (name : String) : Option Decided :=
  decisions.reverse.find? (·.name == name)

/-- What a completed write leaves behind. -/
theorem ConsentStore.perform_written (disk : Disk) (store : ConsentStore) (d : Decided)
    (identity : Identity) (readBack : Bool) :
    store.perform (.written identity readBack) disk d.now d.name d.action =
      (.ok (), { metadata := some identity,
                 content := some (encode (d.apply (store.refresh disk).records)) },
        { records := d.apply (store.refresh disk).records,
          seen := if readBack then some identity else none }) := by
  rw [ConsentStore.perform_eq]
  rfl

theorem Decided.getElem?_apply (d : Decided) (records : Records) (name : String) :
    (d.apply records)[name]? = if d.name = name then d.record else records[name]? := by
  unfold Decided.apply ConsentAction.apply Decided.record
  cases d.action.record d.now with
  | none => simp [Std.ExtTreeMap.getElem?_erase]
  | some record => simp [Std.ExtTreeMap.getElem?_insert]

/-- A decision overrules an earlier one about the same server. -/
theorem Decided.apply_apply {d d' : Decided} (h : d.name = d'.name) (records : Records) :
    d'.apply (d.apply records) = d'.apply records := by
  refine Std.ExtTreeMap.ext_getElem? fun name => ?_
  rw [getElem?_apply, getElem?_apply, getElem?_apply, h]
  by_cases hname : d'.name = name
  · rw [if_pos hname, if_pos hname]
  · rw [if_neg hname, if_neg hname, if_neg hname]

theorem settle_append (records : Records) (decisions more : List Decided) :
    settle records (decisions ++ more) = settle (settle records decisions) more :=
  List.foldl_append

theorem lastDecision_append_singleton (decisions : List Decided) (d : Decided) (name : String) :
    lastDecision (decisions ++ [d]) name =
      if d.name = name then some d else lastDecision decisions name := by
  unfold lastDecision
  rw [List.reverse_append, List.reverse_singleton, List.singleton_append, List.find?_cons]
  by_cases h : d.name = name
  · simp [h]
  · rw [beq_eq_false_iff_ne.mpr h, if_neg h]

/-- Later decisions about a server come first. -/
theorem lastDecision_append (decisions more : List Decided) (name : String) :
    lastDecision (decisions ++ more) name =
      (lastDecision more name).or (lastDecision decisions name) := by
  rw [lastDecision, List.reverse_append, List.find?_append]
  rfl

theorem mem_of_lastDecision {decisions : List Decided} {name : String} {d : Decided}
    (h : lastDecision decisions name = some d) : d ∈ decisions :=
  List.mem_reverse.mp (List.mem_of_find?_eq_some h)

/-- **The last decision about a server is its record; without one, the record is what it was.** -/
theorem getElem?_settle (records : Records) (decisions : List Decided) (name : String) :
    (settle records decisions)[name]? =
      match lastDecision decisions name with
      | some d => d.record
      | none => records[name]? := by
  induction decisions using List.reverseRecOn with
  | nil => rfl
  | append_singleton decisions d ih =>
    rw [settle_append, lastDecision_append_singleton]
    show (d.apply (settle records decisions))[name]? = _
    rw [Decided.getElem?_apply]
    by_cases h : d.name = name
    · rw [if_pos h, if_pos h]
    · rw [if_neg h, if_neg h]
      exact ih

theorem name_of_lastDecision {decisions : List Decided} {name : String} {d : Decided}
    (h : lastDecision decisions name = some d) : d.name = name := by
  simpa using List.find?_some h

/-- A record that says granted is one that a grant left. -/
theorem Decided.grant_of_record {d : Decided} {record : ConsentRecord} (h : d.record = some record)
    (hstate : record.state = .granted) : ∃ launchHash launchCommand scope,
      d.action = .grant launchHash launchCommand scope ∧ record.launchHash = some launchHash := by
  unfold Decided.record at h
  cases haction : d.action with
  | grant launchHash launchCommand scope =>
    rw [haction] at h
    obtain rfl := Option.some.inj h
    exact ⟨launchHash, launchCommand, scope, rfl, rfl⟩
  | deny =>
    rw [haction] at h
    obtain rfl := Option.some.inj h
    exact absurd hstate (by simp [ConsentStore.denied])
  | forget =>
    rw [haction] at h
    exact absurd h (by simp [ConsentAction.record])

end McpLocator.Broker
