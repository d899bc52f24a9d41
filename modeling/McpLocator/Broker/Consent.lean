import McpLocator.Broker.ConsentFile

namespace McpLocator.Broker

open McpLocator.Json

/-!
# The consent store

* `Disk` — `consent.json` as the file system shows it.
* `ConsentStore` — the in-memory map and the identity of the file it was read from.
* `refresh`, `evaluate`, `grant`, `deny`, `forget`, `persist` — the store's operations, each write
  with its outcome (`WriteOutcome`): done, or refused at one of its steps.

A store that has been refreshed looks at the file as it is (`Coherent`): every operation starts
there, and `evaluate_eq` says what is read.
-/

/-! ### The file -/

/-- Modification time and length. -/
structure Identity where
  modified : Nat
  len : Nat
deriving DecidableEq, Repr

/-- What `metadata` and `read_to_string` give for the path. -/
structure Disk where
  metadata : Option Identity
  content : Option FileText

/-- The records in the file; an absent or unreadable file has none. -/
def Disk.records (disk : Disk) : Records := (disk.content.bind decode).getD ∅

/-- The steps of a write that can fail. -/
inductive WriteStep where
  | createDir | writeTemp | rename
deriving DecidableEq, Repr

/-- How a write ends.  Once the file is renamed into place the write succeeds, whether or not its
    metadata can then be read back. -/
inductive WriteOutcome where
  | written (identity : Identity) (readBack : Bool)
  | failed (step : WriteStep)
deriving DecidableEq, Repr

/-! ### The store -/

structure ConsentStore where
  records : Records
  seen : Option Identity

/-- What a record means for a launch hash: `Granted` decays to `Stale` unless it is for that
    hash. -/
def ConsentRecord.judge (record : ConsentRecord) (launchHash : String) : ConsentRecord :=
  if record.state ≠ .granted then record
  else if record.launchHash = some launchHash then record
  else { record with state := .stale }

/-- The record of a server, or that nothing has been decided. -/
def recordOf (records : Records) (name : String) : ConsentRecord :=
  match records[name]? with
  | none => .notAsked
  | some record => record

namespace ConsentStore

/-- Re-read the file unless its identity is the one last seen. -/
def refresh (disk : Disk) (store : ConsentStore) : ConsentStore :=
  if disk.metadata = store.seen ∧ store.seen.isSome = true then store
  else { records := disk.records, seen := disk.metadata }

/-- Load from `consent.json`. -/
def load (disk : Disk) : ConsentStore := refresh disk { records := ∅, seen := none }

/-- Consent as it applies to one card. -/
def evaluate (disk : Disk) (store : ConsentStore) (name launchHash : String) :
    ConsentRecord × ConsentStore :=
  let store := store.refresh disk
  match store.records[name]? with
  | none => (.notAsked, store)
  | some record => (record.judge launchHash, store)

/-- Write via a temp file and rename. -/
def persist (outcome : WriteOutcome) (disk : Disk) (store : ConsentStore) :
    Except WriteStep Unit × Disk × ConsentStore :=
  match outcome with
  | .failed step => (.error step, disk, store)
  | .written identity readBack =>
    (.ok (), { metadata := some identity, content := some (encode store.records) },
      { store with seen := if readBack then some identity else none })

/-- Read-modify-write: insert the record of a server. -/
def put (outcome : WriteOutcome) (disk : Disk) (store : ConsentStore) (name : String)
    (record : ConsentRecord) : Except WriteStep Unit × Disk × ConsentStore :=
  let store := store.refresh disk
  persist outcome disk { store with records := store.records.insert name record }

/-- The record of an approval. -/
def granted (now launchHash launchCommand : String) (scope : ConsentScope) : ConsentRecord :=
  { state := .granted, grantedAt := some now, launchHash := some launchHash,
    launchCommand := some launchCommand, scope := some scope }

/-- The record of a refusal. -/
def denied (now : String) : ConsentRecord :=
  { state := .denied, grantedAt := some now, launchHash := none, launchCommand := none,
    scope := none }

def grant (outcome : WriteOutcome) (disk : Disk) (store : ConsentStore) (now : String)
    (name launchHash launchCommand : String) (scope : ConsentScope) :
    Except WriteStep Unit × Disk × ConsentStore :=
  put outcome disk store name (granted now launchHash launchCommand scope)

def deny (outcome : WriteOutcome) (disk : Disk) (store : ConsentStore) (now name : String) :
    Except WriteStep Unit × Disk × ConsentStore :=
  put outcome disk store name (denied now)

def forget (outcome : WriteOutcome) (disk : Disk) (store : ConsentStore) (name : String) :
    Except WriteStep Unit × Disk × ConsentStore :=
  let store := store.refresh disk
  persist outcome disk { store with records := store.records.erase name }

end ConsentStore

/-! ### The actions of `consent grant`, `deny` and `forget` -/

/-- What can be decided about a server. -/
inductive ConsentAction where
  | grant (launchHash launchCommand : String) (scope : ConsentScope)
  | deny
  | forget
deriving DecidableEq, Repr

/-- The record an action leaves, if any. -/
def ConsentAction.record (now : String) : ConsentAction → Option ConsentRecord
  | .grant launchHash launchCommand scope =>
    some (ConsentStore.granted now launchHash launchCommand scope)
  | .deny => some (ConsentStore.denied now)
  | .forget => none

/-- What an action on a server does to the records. -/
def ConsentAction.apply (now name : String) (action : ConsentAction) (records : Records) : Records :=
  match action.record now with
  | some record => records.insert name record
  | none => records.erase name

/-- Perform an action on a server. -/
def ConsentStore.perform (outcome : WriteOutcome) (disk : Disk) (store : ConsentStore)
    (now name : String) : ConsentAction → Except WriteStep Unit × Disk × ConsentStore
  | .grant launchHash launchCommand scope =>
    store.grant outcome disk now name launchHash launchCommand scope
  | .deny => store.deny outcome disk now name
  | .forget => store.forget outcome disk name

/-- **The three operations are one read-modify-write.** -/
theorem ConsentStore.perform_eq (outcome : WriteOutcome) (disk : Disk) (store : ConsentStore)
    (now name : String) (action : ConsentAction) : store.perform outcome disk now name action =
      persist outcome disk { store.refresh disk with
        records := action.apply now name (store.refresh disk).records } := by
  cases action <;> rfl

/-- The action's own record is what is visible afterwards. -/
theorem ConsentAction.recordOf_apply (now name other : String) (action : ConsentAction)
    (records : Records) :
    recordOf (action.apply now name records) other =
      if other = name then (action.record now).getD .notAsked else recordOf records other := by
  unfold recordOf ConsentAction.apply
  cases action.record now with
  | none =>
    simp only [Std.ExtTreeMap.getElem?_erase, Std.compare_eq_iff_eq]
    by_cases h : other = name
    · simp [h]
    · simp [h, Ne.symm h]
  | some record =>
    simp only [Std.ExtTreeMap.getElem?_insert, Std.compare_eq_iff_eq]
    by_cases h : other = name
    · simp [h]
    · simp [h, Ne.symm h]

/-! ### Reading -/

namespace ConsentStore

/-- The cache tells the truth about the file it was read from: if the identity it remembers is the
    file's, the records are the file's. -/
def Coherent (disk : Disk) (store : ConsentStore) : Prop :=
  store.seen.isSome = true → disk.metadata = store.seen → store.records = disk.records

theorem evaluate_eq (disk : Disk) (store : ConsentStore) (name launchHash : String) :
    store.evaluate disk name launchHash =
      ((recordOf (store.refresh disk).records name).judge launchHash, store.refresh disk) := by
  unfold evaluate recordOf
  dsimp only
  cases (store.refresh disk).records[name]? <;> rfl

theorem refresh_seen (disk : Disk) (store : ConsentStore) :
    (store.refresh disk).seen = disk.metadata := by
  unfold refresh
  split
  · rename_i h
    exact h.1.symm
  · rfl

/-- A coherent store sees the file's records. -/
theorem Coherent.refresh_records {disk : Disk} {store : ConsentStore} (h : Coherent disk store) :
    (store.refresh disk).records = disk.records := by
  unfold refresh
  split
  · rename_i hs
    exact h hs.2 hs.1
  · rfl

theorem Coherent.refresh {disk : Disk} {store : ConsentStore} (h : Coherent disk store) :
    Coherent disk (store.refresh disk) := fun _ _ => h.refresh_records

theorem coherent_load (disk : Disk) : Coherent disk (load disk) := by
  have h : Coherent disk { records := ∅, seen := none } := by
    intro hs
    simp at hs
  exact h.refresh

/-- Refreshing twice is refreshing once. -/
theorem refresh_refresh (disk : Disk) (store : ConsentStore) :
    (store.refresh disk).refresh disk = store.refresh disk := by
  have hseen := refresh_seen disk store
  generalize hs : store.refresh disk = s at hseen
  unfold refresh
  split
  · rfl
  · rename_i hno
    have hnone : disk.metadata = none := by
      rw [hseen] at hno
      simpa using hno
    unfold refresh at hs
    rw [if_neg] at hs
    · exact hs
    · rintro ⟨heq, hsome⟩
      rw [← heq, hnone] at hsome
      simp at hsome

/-- What a completed write leaves on disk. -/
theorem records_written (identity : Identity) (records : Records) :
    Disk.records { metadata := some identity, content := some (encode records) } = records := by
  simp [Disk.records, decode_encode]

end ConsentStore

end McpLocator.Broker
