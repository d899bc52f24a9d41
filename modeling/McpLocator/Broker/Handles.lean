import McpLocator.Broker.Decisions
import McpLocator.Broker.FailedWrite
import McpLocator.Lib.Run

namespace McpLocator.Broker

/-!
# Many stores on one file

Any number of consent stores on one path, one uninterrupted call at a time.

* `Stores`, `Call`, `Stores.step` — the file and the stores, and what is called on one of them.
* `completed`, `identitiesOf` — the decisions that were completed, and the identities that the file
  has had.
* `Mirrors` — the file is what the decisions made of it, and no store mistakes another file for it.
* `one_map` — as long as no call fails that has changed its store's copy, the stores behave as one
  map; `two_maps` is a call that does.
-/

/-! ### Stores and calls -/

/-- `consent.json`, and the stores that are open on it. -/
structure Stores where
  disk : Disk
  opened : Nat → Option ConsentStore

/-- A call on the store with a number. -/
inductive Call where
  | load (i : Nat)
  | evaluate (i : Nat) (name launchHash : String)
  | perform (i : Nat) (d : Decided) (outcome : WriteOutcome)

/-- A call that completes a write. -/
def Call.write : Call → Option (Decided × Identity)
  | .perform _ d (.written identity _) => some (d, identity)
  | _ => none

/-- The decisions that were completed, oldest first. -/
def completed (calls : List Call) : List Decided := (calls.filterMap Call.write).map Prod.fst

/-- The identities that the file has had, oldest first. -/
def identitiesOf (disk : Disk) (calls : List Call) : List Identity :=
  disk.metadata.toList ++ (calls.filterMap Call.write).map Prod.snd

namespace Stores

/-- No store has been loaded yet. -/
def new (disk : Disk) : Stores := { disk, opened := fun _ => none }

def setStore (s : Stores) (i : Nat) (store : ConsentStore) : Stores :=
  { s with opened := Function.update s.opened i (some store) }

theorem opened_setStore {s : Stores} {i j : Nat} {store other : ConsentStore}
    (h : (s.setStore i store).opened j = some other) :
    other = store ∨ j ≠ i ∧ s.opened j = some other := by
  have hj : Function.update s.opened i (some store) j = some other := h
  by_cases hji : j = i
  · rw [hji, Function.update_self] at hj
    exact .inl (Option.some.inj hj).symm
  · rw [Function.update_of_ne hji] at hj
    exact .inr ⟨hji, hj⟩

/-- One call; `none` if there is no such store. -/
def step (s : Stores) : Call → Option Stores
  | .load i => some (s.setStore i (.load s.disk))
  | .evaluate i name launchHash =>
    (s.opened i).map fun store => s.setStore i (store.evaluate s.disk name launchHash).2
  | .perform i d outcome =>
    (s.opened i).map fun store =>
      let (_, disk, store) := store.perform outcome s.disk d.now d.name d.action
      { s.setStore i store with disk }

/-- A call that fails does so where the file is read anew each time, or where it would not have
    changed the records. -/
def Harmless (s : Stores) : Call → Prop
  | .perform _ d (.failed _) => s.disk.metadata = none ∨ d.apply s.disk.records = s.disk.records
  | _ => True

/-- A call whose failure does no harm. -/
def HarmlessStep (s : Stores) (call : Call) (s' : Stores) : Prop :=
  s.step call = some s' ∧ s.Harmless call

/-! ### The one map -/

/-- A consent file that does not exist, or one that `persist` has written; the records in it. -/
inductive Initial : Disk → Records → Prop where
  | absent : Initial ⟨none, none⟩ ∅
  | persisted (identity : Identity) (records : Records) :
      Initial ⟨some identity, some (encode records)⟩ records

theorem Initial.records_eq {disk : Disk} {records : Records} (h : Initial disk records) :
    disk.records = records := by
  cases h with
  | absent => rfl
  | persisted identity records => exact ConsentStore.records_written identity records

/-- A store does not take another file for the one it has read; `known` are the identities that the
    file has had. -/
structure Sees (disk : Disk) (known : List Identity) (store : ConsentStore) : Prop where
  coherent : ConsentStore.Coherent disk store
  seen : ∀ identity ∈ store.seen, identity ∈ known

/-- The file is what the completed decisions made of it, and every store sees it. -/
structure Mirrors (known : List Identity) (records : Records) (s : Stores) : Prop where
  settled : s.disk.records = records
  decodes : known ≠ [] → s.disk.content.bind decode = some records
  metadata : ∀ identity ∈ s.disk.metadata, identity ∈ known
  sees : ∀ i store, s.opened i = some store → Sees s.disk known store

variable {s s' : Stores} {known : List Identity} {records : Records}

/-- A refreshed store sees the file. -/
theorem Mirrors.sees_refresh (h : Mirrors known records s) {store : ConsentStore}
    (hstore : ConsentStore.Coherent s.disk store) : Sees s.disk known (store.refresh s.disk) := by
  refine ⟨hstore.refresh, fun identity hi => ?_⟩
  rw [ConsentStore.refresh_seen] at hi
  exact h.metadata identity hi

theorem Mirrors.sees_load (h : Mirrors known records s) : Sees s.disk known (.load s.disk) := by
  have hempty : ConsentStore.Coherent s.disk { records := ∅, seen := none } := by
    intro hseen
    simp at hseen
  exact h.sees_refresh hempty

/-- A call that leaves the file alone, and its store sound. -/
theorem Mirrors.setStore (h : Mirrors known records s) {i : Nat} {store : ConsentStore}
    (hstore : Sees s.disk known store) : Mirrors known records (s.setStore i store) := by
  refine ⟨h.settled, h.decodes, h.metadata, fun j other hj => ?_⟩
  rcases opened_setStore hj with rfl | ⟨-, hother⟩
  · exact hstore
  · exact h.sees j other hother

/-- A store whose write failed is as it was, or it has kept a change that is none. -/
theorem Mirrors.sees_failed (h : Mirrors known records s) {store : ConsentStore}
    (hstore : ConsentStore.Coherent s.disk store) {d : Decided}
    (hharmless : s.disk.metadata = none ∨ d.apply s.disk.records = s.disk.records) :
    Sees s.disk known
      { store.refresh s.disk with records := d.apply (store.refresh s.disk).records } := by
  refine ⟨fun hseen heq => ?_, (h.sees_refresh hstore).seen⟩
  rcases hharmless with hnone | hsame
  · rw [← heq, hnone] at hseen
    exact absurd hseen (by simp)
  · show d.apply (store.refresh s.disk).records = _
    rw [hstore.refresh_records, hsame]

/-- **A completed write settles its decision, and the other stores notice the new file.** -/
theorem Mirrors.write (h : Mirrors known records s) {i : Nat} {store : ConsentStore}
    (hstore : ConsentStore.Coherent s.disk store) {d : Decided} {identity : Identity}
    {readBack : Bool} (hfresh : identity ∉ known) :
    Mirrors (known ++ [identity]) (d.apply records)
      { s.setStore i { records := d.apply (store.refresh s.disk).records,
                       seen := if readBack then some identity else none } with
        disk := { metadata := some identity,
                  content := some (encode (d.apply (store.refresh s.disk).records)) } } := by
  have hrecords : d.apply (store.refresh s.disk).records = d.apply records := by
    rw [hstore.refresh_records, h.settled]
  rw [hrecords]
  refine ⟨ConsentStore.records_written identity _, fun _ => decode_encode _, fun i hi => ?_,
    fun j other hj => ?_⟩
  · obtain rfl := Option.some.inj hi
    simp
  · rcases opened_setStore (s := s) hj with rfl | ⟨-, hother⟩
    · -- the store that wrote holds what it wrote
      refine ⟨fun _ _ => (ConsentStore.records_written identity _).symm, fun i hi => ?_⟩
      cases readBack with
      | false => simp at hi
      | true =>
        obtain rfl := Option.some.inj hi
        simp
    · -- another store has read a file that was there before
      have hsees := h.sees j other hother
      refine ⟨fun _ heq => ?_, fun i hi => List.mem_append_left _ (hsees.seen i hi)⟩
      exact absurd (hsees.seen identity heq.symm) hfresh

/-- **Every call keeps the file, the one map and the stores together.** -/
theorem Mirrors.step {calls : List Call} {call : Call} {disk : Disk}
    (h : Mirrors (identitiesOf disk calls) (settle records (completed calls)) s)
    (hfresh : (identitiesOf disk (calls ++ [call])).Nodup)
    (hs : s.HarmlessStep call s') :
    Mirrors (identitiesOf disk (calls ++ [call]))
      (settle records (completed (calls ++ [call]))) s' := by
  obtain ⟨hstep, hharmless⟩ := hs
  -- a call that completes no write adds nothing to the history
  have hquiet : call.write = none →
      Mirrors (identitiesOf disk calls) (settle records (completed calls)) s' →
      Mirrors (identitiesOf disk (calls ++ [call]))
        (settle records (completed (calls ++ [call]))) s' := by
    intro hwrite hs'
    simpa [identitiesOf, completed, List.filterMap_append, hwrite] using hs'
  cases call with
  | load i =>
    obtain rfl := Option.some.inj hstep
    exact hquiet rfl (h.setStore h.sees_load)
  | evaluate i name launchHash =>
    obtain ⟨store, hstore, rfl⟩ := Option.map_eq_some_iff.mp hstep
    refine hquiet rfl (h.setStore ?_)
    rw [ConsentStore.evaluate_eq]
    exact h.sees_refresh (h.sees i store hstore).coherent
  | perform i d outcome =>
    obtain ⟨store, hstore, rfl⟩ := Option.map_eq_some_iff.mp hstep
    have hcoherent := (h.sees i store hstore).coherent
    cases outcome with
    | failed step =>
      refine hquiet rfl ?_
      rw [ConsentStore.perform_eq]
      exact h.setStore (h.sees_failed hcoherent hharmless)
    | written identity readBack =>
      have hgiven : identitiesOf disk (calls ++ [.perform i d (.written identity readBack)]) =
          identitiesOf disk calls ++ [identity] := by
        simp [identitiesOf, Call.write]
      have hwritten : completed (calls ++ [.perform i d (.written identity readBack)]) =
          completed calls ++ [d] := by
        simp [completed, Call.write]
      rw [hgiven] at hfresh ⊢
      have hnew : identity ∉ identitiesOf disk calls := by
        intro hmem
        exact (List.nodup_append.mp hfresh).2.2 identity hmem identity (by simp) rfl
      rw [hwritten, settle_append, ConsentStore.perform_written]
      exact h.write hcoherent hnew

/-- Between two calls the file and the stores are one map. -/
theorem mirrors_of_run {disk : Disk} (hinit : Initial disk records) {calls : List Call}
    (h : Transition.Run HarmlessStep (new disk) calls s)
    (hfresh : (identitiesOf disk calls).Nodup) :
    Mirrors (identitiesOf disk calls) (settle records (completed calls)) s := by
  induction h with
  | start =>
    refine ⟨hinit.records_eq, fun hknown => ?_, fun identity hi => ?_, fun i store hstore => ?_⟩
    · cases hinit with
      | absent => exact absurd rfl hknown
      | persisted identity records => exact decode_encode records
    · exact List.mem_append_left _ (Option.mem_toList.mpr hi)
    · exact absurd hstore (by simp [new])
  | @snoc calls s s' call run hs ih =>
    refine (ih (hfresh.sublist ?_)).step hfresh hs
    simp [identitiesOf]

end Stores

/-- What one map of records says about a launch: the record of the server, a grant for another hash
    being stale, or that nothing has been decided. -/
def prescribed (records : Records) (name launchHash : String) : ConsentRecord :=
  match records[name]? with
  | none => .notAsked
  | some record =>
    if record.state = .granted ∧ record.launchHash ≠ some launchHash then
      { record with state := .stale }
    else record

theorem judge_recordOf (records : Records) (name launchHash : String) :
    (recordOf records name).judge launchHash = prescribed records name launchHash := by
  unfold recordOf prescribed
  cases records[name]? with
  | none => rfl
  | some record =>
    unfold ConsentRecord.judge
    dsimp only
    by_cases hstate : record.state = .granted
    · by_cases hhash : record.launchHash = some launchHash
      · simp [hstate, hhash]
      · simp [hstate, hhash]
    · simp [hstate]

/-- **Many stores are one map**, as long as every call that fails does no harm: the file decodes to
    what the completed decisions made of it, and every query is answered from there. -/
theorem one_map {disk : Disk} {records : Records} (hinit : Stores.Initial disk records)
    {calls : List Call} {s : Stores}
    (h : Transition.Run Stores.HarmlessStep (Stores.new disk) calls s)
    (hfresh : (identitiesOf disk calls).Nodup) :
    (completed calls ≠ [] →
      s.disk.content.bind decode = some (settle records (completed calls))) ∧
    ∀ i store name launchHash, s.opened i = some store →
      (store.evaluate s.disk name launchHash).1 =
        prescribed (settle records (completed calls)) name launchHash := by
  have hmirrors := Stores.mirrors_of_run hinit h hfresh
  refine ⟨fun hwritten => hmirrors.decodes fun hknown => hwritten ?_, ?_⟩
  · -- a write gives the file an identity
    have hgiven := (List.append_eq_nil_iff.mp hknown).2
    rw [completed, List.map_eq_nil_iff]
    exact List.map_eq_nil_iff.mp hgiven
  · intro i store name launchHash hstore
    rw [ConsentStore.evaluate_eq, (hmirrors.sees i store hstore).coherent.refresh_records,
      hmirrors.settled]
    exact judge_recordOf _ _ _

def approveNotes : Decided :=
  ⟨"2026-01-01T00:00:00Z", "com.example.notes", .grant "sha256:1" "notes" .user⟩

def refuseSlack : Decided := ⟨"2026-01-02T00:00:00Z", "com.example.slack", .deny⟩

/-- A grant through one store and a denial through another one; each is seen through both. -/
theorem one_map_notes : ∃ calls s first second,
    Transition.Run Stores.HarmlessStep (Stores.new ⟨none, none⟩) calls s ∧
      s.opened 1 = some first ∧ s.opened 2 = some second ∧
      (second.evaluate s.disk "com.example.notes" "sha256:1").1 =
        prescribed (settle ∅ [approveNotes, refuseSlack]) "com.example.notes" "sha256:1" ∧
      (first.evaluate s.disk "com.example.slack" "sha256:2").1 =
        prescribed (settle ∅ [approveNotes, refuseSlack]) "com.example.slack" "sha256:2" := by
  have hrun : Transition.Run Stores.HarmlessStep (Stores.new ⟨none, none⟩)
      ([] ++ [.load 1] ++ [.load 2] ++ [.perform 1 approveNotes (.written ⟨1, 200⟩ true)] ++
        [.perform 2 refuseSlack (.written ⟨2, 250⟩ true)]) _ :=
    .snoc (.snoc (.snoc (.snoc .start ⟨rfl, trivial⟩) ⟨rfl, trivial⟩) ⟨rfl, trivial⟩) ⟨rfl, trivial⟩
  have hmap := (one_map .absent hrun (by decide)).2
  exact ⟨_, _, _, _, hrun, rfl, rfl, hmap 2 _ _ _ rfl, hmap 1 _ _ _ rfl⟩

/-- A grant that could not be written is honoured through the store that tried to write it. -/
theorem two_maps : ¬ ∀ disk records calls s, Stores.Initial disk records →
    Transition.Run (fun s call s' => Stores.step s call = some s') (Stores.new disk) calls s →
    (identitiesOf disk calls).Nodup →
    ∀ i store name launchHash, s.opened i = some store →
      (store.evaluate s.disk name launchHash).1 =
        prescribed (settle records (completed calls)) name launchHash := by
  intro h
  have hrun : Transition.Run (fun s call s' => Stores.step s call = some s') (Stores.new emptyFile)
      ([] ++ [.load 1] ++ [.perform 1 ⟨"2026-01-01T00:00:00Z", "com.example.app",
        .grant "sha256:aaa" "app.exe" .user⟩ (.failed .rename)]) _ :=
    .snoc (.snoc .start rfl) rfl
  have hquery := h emptyFile ∅ _ _ (.persisted _ _) hrun (by decide) 1 _ "com.example.app"
    "sha256:aaa" rfl
  revert hquery
  decide

end McpLocator.Broker
