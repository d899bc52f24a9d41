import McpLocator.Broker.Consent

namespace McpLocator.Broker

/-!
# What a failed write leaves behind

`put` and `forget` change the in-memory map before they persist it, and a store whose `seen` is the
identity of the file does not read it again.  `invisible_iff` says exactly when a failed write
cannot be noticed by any later query: when the file's metadata cannot be read, so that every query
reads it afresh, or when the write would not have changed the record of its server.

* `LaterCall`, `answers` — what is asked of a store until the file is next written.
* `LooksLike` — two stores answer alike; `answers_congr` carries it through later calls.
-/

/-- A call that leaves the file alone: a query, or a further write that fails. -/
inductive LaterCall where
  | evaluate (name launchHash : String)
  | failed (now name : String) (action : ConsentAction) (step : WriteStep)

/-- The store after a write that failed at `step`. -/
def ConsentStore.afterFailed (store : ConsentStore) (disk : Disk) (now name : String)
    (action : ConsentAction) (step : WriteStep) : ConsentStore :=
  (store.perform (.failed step) disk now name action).2.2

/-- The records that the queries among some calls return. -/
def answers (disk : Disk) : ConsentStore → List LaterCall → List ConsentRecord
  | _, [] => []
  | store, .evaluate name launchHash :: calls =>
    (store.evaluate disk name launchHash).1 ::
      answers disk (store.evaluate disk name launchHash).2 calls
  | store, .failed now name action step :: calls =>
    answers disk (store.afterFailed disk now name action step) calls

/-- A failed write that nobody can notice: every later query is answered as if it had not been
    made. -/
def Invisible (disk : Disk) (store : ConsentStore) (now name : String) (action : ConsentAction)
    (step : WriteStep) : Prop :=
  ∀ calls, answers disk (store.afterFailed disk now name action step) calls =
    answers disk store calls

/-! ### Stores that look alike -/

/-- Every server has the same record in both, once they have looked at the file. -/
def LooksLike (disk : Disk) (s t : ConsentStore) : Prop :=
  ∀ name, recordOf (s.refresh disk).records name = recordOf (t.refresh disk).records name

namespace ConsentStore

/-- Without metadata the file is read every time. -/
theorem refresh_of_none {disk : Disk} (h : disk.metadata = none) (store : ConsentStore) :
    store.refresh disk = { records := disk.records, seen := none } := by
  unfold refresh
  rw [if_neg, h]
  rintro ⟨hseen, hsome⟩
  rw [← hseen, h] at hsome
  simp at hsome

/-- A store that has seen the file as it is does not read it. -/
theorem refresh_of_seen {disk : Disk} {store : ConsentStore} (h : store.seen = disk.metadata)
    (hsome : disk.metadata.isSome = true) : store.refresh disk = store := by
  unfold refresh
  rw [if_pos ⟨h.symm, by rw [h]; exact hsome⟩]

/-- What a failed write leaves: nothing if the file has no metadata, else the changed map. -/
theorem refresh_afterFailed (disk : Disk) (store : ConsentStore) (now name : String)
    (action : ConsentAction) (step : WriteStep) :
    (store.afterFailed disk now name action step).refresh disk =
      if disk.metadata = none then store.refresh disk
      else { store.refresh disk with
        records := action.apply now name (store.refresh disk).records } := by
  unfold afterFailed
  rw [perform_eq]
  by_cases h : disk.metadata = none
  · rw [if_pos h, refresh_of_none h, refresh_of_none h]
  · rw [if_neg h]
    exact refresh_of_seen (refresh_seen disk store) (Option.isSome_iff_ne_none.mpr h)

end ConsentStore

theorem LooksLike.afterFailed {disk : Disk} {s t : ConsentStore} (h : LooksLike disk s t)
    (now name : String) (action : ConsentAction) (step : WriteStep) :
    LooksLike disk (s.afterFailed disk now name action step)
      (t.afterFailed disk now name action step) := by
  intro other
  rw [ConsentStore.refresh_afterFailed, ConsentStore.refresh_afterFailed]
  split
  · exact h other
  · rw [ConsentAction.recordOf_apply, ConsentAction.recordOf_apply, h other]

/-- Stores that look alike answer alike. -/
theorem answers_congr {disk : Disk} {s t : ConsentStore} (h : LooksLike disk s t)
    (calls : List LaterCall) : answers disk s calls = answers disk t calls := by
  induction calls generalizing s t with
  | nil => rfl
  | cons call calls ih =>
    cases call with
    | evaluate name launchHash =>
      have hnext : LooksLike disk (s.refresh disk) (t.refresh disk) := by
        intro other
        rw [ConsentStore.refresh_refresh, ConsentStore.refresh_refresh]
        exact h other
      rw [answers, answers, ConsentStore.evaluate_eq, ConsentStore.evaluate_eq, h name]
      exact congrArg _ (ih hnext)
    | failed now name action step => exact ih (h.afterFailed now name action step)

/-! ### Records told apart by a query -/

/-- A record is judged to be itself, or stale. -/
theorem ConsentRecord.judge_eq_or_stale (record : ConsentRecord) (launchHash : String) :
    record.judge launchHash = record ∨ (record.judge launchHash).state = .stale := by
  unfold ConsentRecord.judge
  split
  · exact .inl rfl
  · split
    · exact .inl rfl
    · exact .inr rfl

/-- What an action leaves is visible to the query for its own hash. -/
theorem ConsentAction.exists_judge_eq_self (now : String) (action : ConsentAction) :
    ∃ launchHash, ((action.record now).getD .notAsked).judge launchHash =
        (action.record now).getD .notAsked ∧
      ((action.record now).getD .notAsked).state ≠ .stale := by
  cases action with
  | grant launchHash launchCommand scope =>
    refine ⟨launchHash, ?_, by simp [record, ConsentStore.granted]⟩
    simp [record, ConsentStore.granted, ConsentRecord.judge]
  | deny =>
    refine ⟨"", ?_, by simp [record, ConsentStore.denied]⟩
    simp [record, ConsentStore.denied, ConsentRecord.judge]
  | forget =>
    refine ⟨"", ?_, by simp [record, ConsentRecord.notAsked]⟩
    simp [record, ConsentRecord.notAsked, ConsentRecord.judge]

/-! ### Failed writes -/

/-- **A failed write is invisible exactly when the file's metadata cannot be read or the write would
    not have changed the record of its server.** -/
theorem invisible_iff (disk : Disk) (store : ConsentStore) (now name : String)
    (action : ConsentAction) (step : WriteStep) :
    Invisible disk store now name action step ↔ disk.metadata = none ∨
      (action.record now).getD .notAsked = recordOf (store.refresh disk).records name := by
  constructor
  · intro h
    by_cases hmeta : disk.metadata = none
    · exact .inl hmeta
    · -- the query for the hash the action is about tells the two records apart
      obtain ⟨launchHash, hself, hstale⟩ := action.exists_judge_eq_self now
      have hquery := h [.evaluate name launchHash]
      simp only [answers, ConsentStore.evaluate_eq, ConsentStore.refresh_afterFailed, hmeta,
        if_false, ConsentAction.recordOf_apply, if_true, List.cons.injEq, and_true] at hquery
      rw [hself] at hquery
      rcases (recordOf (store.refresh disk).records name).judge_eq_or_stale launchHash with heq | hst
      · exact .inr (hquery.trans heq)
      · rw [← hquery] at hst
        exact absurd hst hstale
  · -- either the next query reads the file anew, or the records are the ones they would have been
    intro h calls
    refine answers_congr (fun other => ?_) calls
    rw [ConsentStore.refresh_afterFailed]
    split
    · rfl
    · rename_i hmeta
      rw [ConsentAction.recordOf_apply]
      split
      · rename_i hother
        rw [hother]
        exact h.resolve_left hmeta
      · rfl

/-- A `consent.json` that holds no decision yet. -/
def emptyFile : Disk := { metadata := some ⟨1, 2⟩, content := some (encode ∅) }

/-- A grant whose rename fails is honoured by the next query all the same. -/
theorem not_invisible_grant :
    ¬Invisible emptyFile (ConsentStore.load emptyFile) "2026-01-01T00:00:00Z" "com.example.app"
      (.grant "sha256:aaa" "app.exe" .user) .rename := by
  intro h
  have hquery := h [.evaluate "com.example.app" "sha256:aaa"]
  revert hquery
  decide

end McpLocator.Broker
