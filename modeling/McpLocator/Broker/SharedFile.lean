import McpLocator.Broker.Decisions
import McpLocator.Lib.Run

namespace McpLocator.Broker

open McpLocator.Json

/-!
# Several processes on one consent file

The operations of any number of consent stores on one path, a broker's and those of `consent`
commands, one file-system step at a time.  There is no lock, and the temp file has one name.

* `Phase`, `Machine`, `Move` — where an operation is, the files, and the steps.
* `alone` — an operation that is not interrupted does what `ConsentStore.perform` says.
* `Orderly` — nothing that a rename could undo is under way.
* `decisions_kept` — in a run whose steps are orderly no decision is lost; `decision_lost` is one
  that loses a decision.
-/

/-! ### Operations, step by step -/

/-- What an operation does next.  One without a decision only refreshes the store. -/
inductive Phase where
  | idle
  /-- Look at the identity of the file. -/
  | metadata (decision : Option Decided)
  /-- Read the file, whose identity was `identity`. -/
  | read (decision : Option Decided) (identity : Option Identity)
  /-- Change the in-memory map. -/
  | mutate (d : Decided)
  | writeTemp (d : Decided)
  | rename (d : Decided)
  /-- Look at the identity of the file that was written. -/
  | readBack (d : Decided)

/-- A store in some process, and the operation under way on it. -/
structure Handle where
  store : ConsentStore
  phase : Phase

/-- The file, the temp file and the stores.  `shown`, `renamed` and `results` say what has happened:
    the identities that the file has had, the decisions in the order in which they were renamed into
    place, and what the operations returned. -/
structure Machine where
  disk : Disk
  temp : Option (Identity × FileText)
  handles : Nat → Handle
  shown : List Identity
  renamed : List Decided
  results : List (Decided × Except WriteStep Unit)

/-- A step of the operation on a store; `identity` is what the file system gives the temp file, if
    the step writes it. -/
inductive Move where
  | start (i : Nat) (decision : Option Decided)
  | advance (i : Nat) (identity : Identity)

/-- A refreshed store is done, or it has its copy to change. -/
def Phase.afterRefresh : Option Decided → Phase
  | none => .idle
  | some d => .mutate d

namespace Machine

/-- No store has been loaded yet. -/
def new (disk : Disk) (temp : Option (Identity × FileText)) : Machine :=
  { disk, temp, handles := fun _ => { store := { records := ∅, seen := none }, phase := .idle },
    shown := disk.metadata.toList, renamed := [], results := [] }

def setHandle (m : Machine) (i : Nat) (handle : Handle) : Machine :=
  { m with handles := Function.update m.handles i handle }

def advance (m : Machine) (i : Nat) (identity : Identity) : Option Machine :=
  let store := (m.handles i).store
  match (m.handles i).phase with
  | .idle => none
  | .metadata decision =>
    if m.disk.metadata = store.seen ∧ store.seen.isSome = true then
      some (m.setHandle i { store, phase := .afterRefresh decision })
    else some (m.setHandle i { store, phase := .read decision m.disk.metadata })
  | .read decision identity =>
    some (m.setHandle i
      { store := { records := m.disk.records, seen := identity }, phase := .afterRefresh decision })
  | .mutate d =>
    some (m.setHandle i
      { store := { store with records := d.apply store.records }, phase := .writeTemp d })
  | .writeTemp d =>
    some { m.setHandle i { store, phase := .rename d } with
      temp := some (identity, encode store.records) }
  | .rename d =>
    match m.temp with
    | none =>
      -- another operation has renamed the temp file away
      some { m.setHandle i { store, phase := .idle } with
        results := m.results ++ [(d, .error .rename)] }
    | some (identity, text) =>
      some { m.setHandle i { store, phase := .readBack d } with
        disk := { metadata := some identity, content := some text }, temp := none,
        shown := m.shown ++ [identity], renamed := m.renamed ++ [d] }
  | .readBack d =>
    some { m.setHandle i { store := { store with seen := m.disk.metadata }, phase := .idle } with
      results := m.results ++ [(d, .ok ())] }

def step (m : Machine) : Move → Option Machine
  | .start i decision =>
    match (m.handles i).phase with
    | .idle =>
      some (m.setHandle i { store := (m.handles i).store, phase := .metadata decision })
    | _ => none
  | .advance i identity => m.advance i identity

/-! ### One operation after the other -/

@[simp] theorem handles_setHandle_self (m : Machine) (i : Nat) (handle : Handle) :
    (m.setHandle i handle).handles i = handle := by
  simp [setHandle]

theorem handles_setHandle_of_ne {i j : Nat} (h : j ≠ i) (m : Machine) (handle : Handle) :
    (m.setHandle i handle).handles j = m.handles j := by
  simp [setHandle, h]

/-- What holds of the stores holds of them still when one is replaced by another of which it holds. -/
theorem forall_setHandle {P : Handle → Prop} {m : Machine} {i : Nat} {handle : Handle}
    (hnew : P handle) (hothers : ∀ j ≠ i, P (m.handles j)) (j : Nat) :
    P ((m.setHandle i handle).handles j) := by
  by_cases hji : j = i
  · rw [hji, handles_setHandle_self]
    exact hnew
  · rw [handles_setHandle_of_ne hji]
    exact hothers j hji

theorem phase_setHandle {m : Machine} {i j : Nat} {handle : Handle} {phase : Phase}
    (h : ((m.setHandle i handle).handles j).phase = phase) :
    handle.phase = phase ∨ j ≠ i ∧ (m.handles j).phase = phase := by
  by_cases hji : j = i
  · rw [hji, handles_setHandle_self] at h
    exact .inl h
  · rw [handles_setHandle_of_ne hji] at h
    exact .inr ⟨hji, h⟩

/-- The moves of an operation that is not interrupted. -/
def aloneMoves (m : Machine) (i : Nat) (d : Decided) (identity : Identity) : List Move :=
  let store := (m.handles i).store
  .start i (some d) ::
    (if m.disk.metadata = store.seen ∧ store.seen.isSome = true then [.advance i identity]
      else [.advance i identity, .advance i identity]) ++
    List.replicate 4 (.advance i identity)

/-- The machine when an operation has written the records it changed. -/
def finished (m : Machine) (i : Nat) (d : Decided) (identity : Identity) (records : Records) :
    Machine :=
  { m.setHandle i { store := { records := d.apply records, seen := some identity }, phase := .idle }
    with
    disk := { metadata := some identity, content := some (encode (d.apply records)) }, temp := none,
    shown := m.shown ++ [identity], renamed := m.renamed ++ [d],
    results := m.results ++ [(d, .ok ())] }

/-- From its copy of the records on. -/
theorem replay_mutate {m : Machine} {i : Nat} {d : Decided} (h : (m.handles i).phase = .mutate d)
    (identity : Identity) : Transition.replay step m (List.replicate 4 (.advance i identity)) =
      some (m.finished i d identity (m.handles i).store.records) := by
  simp [List.replicate, Transition.replay, step, advance, h, setHandle, finished]

/-- **Alone, an operation does what `ConsentStore.perform` says**, and leaves the other stores as they
    are. -/
theorem alone {m : Machine} {i : Nat} (hidle : (m.handles i).phase = .idle) (d : Decided)
    (identity : Identity) :
    ∃ m', Transition.replay step m (m.aloneMoves i d identity) = some m' ∧
      (∀ j ≠ i, m'.handles j = m.handles j) ∧ (m'.handles i).phase = .idle ∧
      m'.shown = m.shown ++ [identity] ∧ m'.renamed = m.renamed ++ [d] ∧
      m'.results = m.results ++ [(d, .ok ())] ∧
      (m.handles i).store.perform (.written identity true) m.disk d.now d.name d.action =
        (.ok (), m'.disk, (m'.handles i).store) := by
  have hfinished : ∀ records, ((m.finished i d identity records).handles i) =
      { store := { records := d.apply records, seen := some identity }, phase := .idle } :=
    fun records => handles_setHandle_self m i _
  refine ⟨m.finished i d identity ((m.handles i).store.refresh m.disk).records, ?_,
    fun j hj => handles_setHandle_of_ne hj m _, ?_, rfl, rfl, rfl, ?_⟩
  · let copied : Handle := { store := (m.handles i).store.refresh m.disk, phase := .mutate d }
    -- the first moves leave the store refreshed and about to be changed
    have hrefresh : Transition.replay step m (.start i (some d) ::
        if m.disk.metadata = (m.handles i).store.seen ∧ (m.handles i).store.seen.isSome = true then
          [.advance i identity] else [.advance i identity, .advance i identity]) =
        some (m.setHandle i copied) := by
      unfold copied ConsentStore.refresh
      split
      · rename_i hseen
        simp [Transition.replay, step, advance, hidle, hseen, setHandle, Phase.afterRefresh]
      · rename_i hseen
        simp [Transition.replay, step, advance, hidle, hseen, setHandle, Phase.afterRefresh]
    have hmutate := replay_mutate (m := m.setHandle i copied) (i := i) (d := d)
      (by rw [handles_setHandle_self]) identity
    have hsame : (m.setHandle i copied).finished i d identity = m.finished i d identity := by
      funext records
      simp [finished, setHandle]
    rw [handles_setHandle_self, hsame] at hmutate
    rw [aloneMoves, Transition.replay_append, hrefresh, Option.bind_some, hmutate]
  · rw [hfinished]
  · rw [hfinished, ConsentStore.perform_written]
    rfl

/-! ### Orderly steps -/

/-- What another operation may be doing while `d` is renamed into place: it holds no copy of the
    records, or it holds one to overrule `d`, which it has not yet written out. -/
def MayOverlap (d : Decided) : Phase → Prop
  | .idle | .metadata _ | .read _ _ => True
  | .mutate d' | .writeTemp d' => d'.name = d.name
  | .rename _ | .readBack _ => False

/-- The step does not lay the ground for a lost decision: the temp file is given an identity that
    `consent.json` never had, and nothing is renamed while another operation holds a copy. -/
def Orderly (m : Machine) : Move → Prop
  | .start _ _ => True
  | .advance i identity =>
    match (m.handles i).phase with
    | .writeTemp _ => identity ∉ m.shown
    | .rename d => ∀ j ≠ i, MayOverlap d (m.handles j).phase
    | _ => True

/-- What a store is good for between two steps. -/
def Sound (disk : Disk) (shown : List Identity) (handle : Handle) : Prop :=
  (∀ identity ∈ handle.store.seen, identity ∈ shown) ∧
    match handle.phase with
    | .idle | .metadata _ => ConsentStore.Coherent disk handle.store
    | .read _ identity => ∀ i ∈ identity, i ∈ shown
    | .mutate d => d.apply handle.store.records = d.apply disk.records
    | .writeTemp d | .rename d => handle.store.records = d.apply disk.records
    | .readBack _ => handle.store.records = disk.records

/-- The file is what the renamed decisions made of `records`; every store is sound; what is about to
    be renamed is the operation's own; and no operation has failed. -/
structure Consistent (records : Records) (m : Machine) : Prop where
  settled : m.disk.records = settle records m.renamed
  parsed : m.renamed ≠ [] → (m.disk.content.bind decode).isSome = true
  metadata : ∀ identity ∈ m.disk.metadata, identity ∈ m.shown
  sound : ∀ i, Sound m.disk m.shown (m.handles i)
  temp : ∀ i d, (m.handles i).phase = .rename d →
    (∃ identity, m.temp = some (identity, encode (m.handles i).store.records) ∧
      identity ∉ m.shown) ∨ ∃ j ≠ i, ∃ d', (m.handles j).phase = .rename d'
  written : ∀ i d, (m.handles i).phase = .readBack d → d ∈ m.renamed
  succeeded : ∀ r ∈ m.results, r.2 = .ok () ∧ r.1 ∈ m.renamed

theorem consistent_new (disk : Disk) (temp : Option (Identity × FileText)) :
    (new disk temp).Consistent disk.records := by
  refine ⟨rfl, fun h => absurd rfl h, fun identity h => Option.mem_toList.mpr h, fun _ => ?_,
    fun _ _ h => ?_, fun _ _ h => ?_, by simp [new]⟩
  · refine ⟨by simp [new], fun hsome => ?_⟩
    simp [new] at hsome
  · simp [new] at h
  · simp [new] at h

variable {m m' : Machine} {records : Records}

/-- A step that touches one store only, and does not rename. -/
theorem Consistent.setHandle (h : m.Consistent records) {i : Nat} {handle : Handle}
    (hsound : Sound m.disk m.shown handle) (hold : ∀ d, (m.handles i).phase ≠ .rename d)
    (hnew : ∀ d, handle.phase ≠ .rename d ∧ handle.phase ≠ .readBack d) :
    (m.setHandle i handle).Consistent records := by
  refine ⟨h.settled, h.parsed, h.metadata, forall_setHandle hsound fun j _ => h.sound j,
    fun j d hj => ?_, fun j d hj => ?_, h.succeeded⟩
  · obtain ⟨hne, hj⟩ := (phase_setHandle hj).resolve_left (hnew d).1
    rw [handles_setHandle_of_ne hne]
    rcases h.temp j d hj with hown | ⟨k, hk, d', hphase⟩
    · exact .inl hown
    · -- the other operation about to rename is not this one either
      have hki : k ≠ i := by
        rintro rfl
        exact hold d' hphase
      exact .inr ⟨k, hk, d', by rw [handles_setHandle_of_ne hki]; exact hphase⟩
  · obtain ⟨-, hj⟩ := (phase_setHandle hj).resolve_left (hnew d).2
    exact h.written j d hj

/-- A refreshed store may be idle, or change its copy. -/
theorem sound_afterRefresh {disk : Disk} {shown : List Identity} {store : ConsentStore}
    (hseen : ∀ identity ∈ store.seen, identity ∈ shown) (hrecords : store.records = disk.records)
    (decision : Option Decided) :
    Sound disk shown { store, phase := .afterRefresh decision } := by
  cases decision with
  | none => exact ⟨hseen, fun _ _ => hrecords⟩
  | some d => exact ⟨hseen, congrArg d.apply hrecords⟩

/-- Writing the temp file. -/
theorem Consistent.writeTemp (h : m.Consistent records) {i : Nat} {d : Decided}
    (hphase : (m.handles i).phase = .writeTemp d) {identity : Identity} (hfresh : identity ∉ m.shown) :
    Consistent records { m.setHandle i { store := (m.handles i).store, phase := .rename d } with
      temp := some (identity, encode (m.handles i).store.records) } := by
  refine ⟨h.settled, h.parsed, h.metadata, fun j => ?_, fun j d' hj => ?_, fun j d' hj => ?_,
    h.succeeded⟩
  · refine forall_setHandle (P := Sound m.disk m.shown) ?_ (fun j _ => h.sound j) j
    have hsound := h.sound i
    unfold Sound at hsound
    rw [hphase] at hsound
    exact hsound
  · by_cases hji : j = i
    · refine .inl ⟨identity, ?_, hfresh⟩
      show some _ = some (identity, encode ((m.setHandle i _).handles j).store.records)
      rw [hji, handles_setHandle_self]
    · -- whoever was about to rename has lost the temp file to this operation
      refine .inr ⟨i, fun heq => hji heq.symm, d, ?_⟩
      show ((m.setHandle i _).handles i).phase = _
      rw [handles_setHandle_self]
  · refine h.written j d' ?_
    rcases phase_setHandle (show ((m.setHandle i _).handles j).phase = _ from hj) with hnew | ⟨-, hj⟩
    · exact absurd hnew nofun
    · exact hj

/-- What is renamed in an orderly step is the operation's own. -/
theorem Consistent.temp_of_orderly (h : m.Consistent records) {i : Nat} {d : Decided}
    (hphase : (m.handles i).phase = .rename d)
    (horderly : ∀ j ≠ i, MayOverlap d (m.handles j).phase) :
    ∃ identity, m.temp = some (identity, encode (m.handles i).store.records) ∧
      identity ∉ m.shown := by
  rcases h.temp i d hphase with hown | ⟨j, hj, d', hj'⟩
  · exact hown
  · have hoverlap := horderly j hj
    rw [hj'] at hoverlap
    exact hoverlap.elim

/-- A store that may overlap is still sound when the file has changed under it. -/
theorem Sound.of_overlap {disk : Disk} {shown : List Identity} {handle : Handle}
    (h : Sound disk shown handle) {d : Decided} (hoverlap : MayOverlap d handle.phase)
    {disk' : Disk} {identity : Identity} (hrecords : disk'.records = d.apply disk.records)
    (hmetadata : disk'.metadata = some identity) (hfresh : identity ∉ shown) :
    Sound disk' (shown ++ [identity]) handle := by
  obtain ⟨hseen, hphase⟩ := h
  have hseen' : ∀ i ∈ handle.store.seen, i ∈ shown ++ [identity] :=
    fun i hi => List.mem_append_left _ (hseen i hi)
  -- no store has seen the new identity
  have hcoherent : ConsentStore.Coherent disk' handle.store := by
    intro _ heq
    exact absurd (hseen identity (heq.symm.trans hmetadata)) hfresh
  unfold MayOverlap at hoverlap
  refine ⟨hseen', ?_⟩
  cases hp : handle.phase with
  | idle | metadata => exact hcoherent
  | read _ seen =>
    rw [hp] at hphase
    exact fun i hi => List.mem_append_left _ (hphase i hi)
  | mutate d' =>
    rw [hp] at hphase hoverlap
    show d'.apply handle.store.records = d'.apply disk'.records
    rw [hrecords, Decided.apply_apply hoverlap.symm]
    exact hphase
  | writeTemp d' =>
    rw [hp] at hphase hoverlap
    show handle.store.records = d'.apply disk'.records
    rw [hrecords, Decided.apply_apply hoverlap.symm]
    exact hphase
  | rename | readBack =>
    rw [hp] at hoverlap
    exact hoverlap.elim

/-- Renaming the temp file into place. -/
theorem Consistent.rename (h : m.Consistent records) {i : Nat} {d : Decided}
    (hphase : (m.handles i).phase = .rename d)
    (horderly : ∀ j ≠ i, MayOverlap d (m.handles j).phase) {identity : Identity}
    (hfresh : identity ∉ m.shown) :
    Consistent records { m.setHandle i { store := (m.handles i).store, phase := .readBack d } with
      disk := ⟨some identity, some (encode (m.handles i).store.records)⟩, temp := none,
      shown := m.shown ++ [identity], renamed := m.renamed ++ [d] } := by
  have hown : (m.handles i).store.records = d.apply m.disk.records := by
    have hsound := (h.sound i).2
    rw [hphase] at hsound
    exact hsound
  have hdisk : Disk.records ⟨some identity, some (encode (m.handles i).store.records)⟩ =
      (m.handles i).store.records := ConsentStore.records_written identity _
  refine ⟨?_, fun _ => ?_, fun k hk => ?_, fun j => ?_, fun j d' hj => ?_, fun j d' hj => ?_,
    fun r hr => ?_⟩
  · -- the copy was current when it was changed, and nobody has renamed anything since
    show Disk.records _ = settle records (m.renamed ++ [d])
    rw [hdisk, hown, settle_append, ← h.settled]
    rfl
  · show (decode (encode _)).isSome = true
    rw [decode_encode]
    rfl
  · obtain rfl := Option.some.inj hk
    simp
  · -- the others notice the new identity, or redo the same record
    refine forall_setHandle (P := Sound _ _) ⟨?_, hdisk.symm⟩ (fun j hj => ?_) j
    · exact fun k hk => List.mem_append_left _ ((h.sound i).1 k hk)
    · exact (h.sound j).of_overlap (horderly j hj) (hdisk.trans hown) rfl hfresh
  · -- nobody else was about to rename
    rcases phase_setHandle (show ((m.setHandle i _).handles j).phase = _ from hj) with
      hnew | ⟨hji, hj⟩
    · exact absurd hnew nofun
    · have hoverlap := horderly j hji
      rw [hj] at hoverlap
      exact hoverlap.elim
  · show d' ∈ m.renamed ++ [d]
    rcases phase_setHandle (show ((m.setHandle i _).handles j).phase = _ from hj) with hnew | ⟨-, hj⟩
    · obtain rfl := Phase.readBack.inj hnew
      simp
    · exact List.mem_append_left _ (h.written j d' hj)
  · obtain ⟨hok, hmem⟩ := h.succeeded r hr
    exact ⟨hok, List.mem_append_left _ hmem⟩

/-- **Every orderly step keeps it so.** -/
theorem Consistent.step (h : m.Consistent records) {move : Move} (horderly : m.Orderly move)
    (hs : m.step move = some m') : m'.Consistent records := by
  cases move with
  | start i decision =>
    unfold Machine.step at hs
    dsimp only at hs
    split at hs
    · rename_i hphase
      obtain rfl := Option.some.inj hs
      have hsound := h.sound i
      unfold Sound at hsound
      rw [hphase] at hsound
      exact h.setHandle hsound (by simp [hphase]) (by simp)
    · simp at hs
  | advance i identity =>
    have hsound := h.sound i
    unfold Sound at hsound
    unfold Orderly at horderly
    unfold Machine.step advance at hs
    dsimp only at hs horderly
    cases hphase : (m.handles i).phase with
    | idle => simp [hphase] at hs
    | metadata decision =>
      rw [hphase] at hs hsound
      dsimp only at hs
      split at hs
      · -- the copy that the store has is current
        rename_i hcurrent
        obtain rfl := Option.some.inj hs
        refine h.setHandle (sound_afterRefresh hsound.1 (hsound.2 hcurrent.2 hcurrent.1) decision)
          (by simp [hphase]) ?_
        cases decision <;> simp [Phase.afterRefresh]
      · obtain rfl := Option.some.inj hs
        exact h.setHandle ⟨hsound.1, h.metadata⟩ (by simp [hphase]) (by simp)
    | read decision seen =>
      rw [hphase] at hs hsound
      obtain rfl := Option.some.inj hs
      refine h.setHandle (sound_afterRefresh hsound.2 rfl decision) (by simp [hphase]) ?_
      cases decision <;> simp [Phase.afterRefresh]
    | mutate d =>
      rw [hphase] at hs hsound
      obtain rfl := Option.some.inj hs
      exact h.setHandle hsound (by simp [hphase]) (by simp)
    | writeTemp d =>
      rw [hphase] at hs horderly
      obtain rfl := Option.some.inj hs
      exact h.writeTemp hphase horderly
    | rename d =>
      rw [hphase] at hs horderly
      obtain ⟨identity', htemp, hfresh⟩ := h.temp_of_orderly hphase horderly
      rw [htemp] at hs
      obtain rfl := Option.some.inj hs
      exact h.rename hphase horderly hfresh
    | readBack d =>
      rw [hphase] at hs hsound
      obtain rfl := Option.some.inj hs
      -- nobody has renamed anything since, so what it reads back is its own
      have hidle : Sound m.disk m.shown
          { store := { (m.handles i).store with seen := m.disk.metadata }, phase := .idle } :=
        ⟨h.metadata, fun _ _ => hsound.2⟩
      have hset := h.setHandle (i := i) hidle (by simp [hphase]) (by simp)
      refine ⟨hset.settled, hset.parsed, hset.metadata, hset.sound, hset.temp, hset.written, ?_⟩
      intro r hr
      rcases List.mem_append.mp hr with hr | hr
      · exact h.succeeded r hr
      · rw [List.mem_singleton.mp hr]
        exact ⟨rfl, h.written i d hphase⟩

/-- A step that is orderly. -/
def OrderlyStep (m : Machine) (move : Move) (m' : Machine) : Prop :=
  m.step move = some m' ∧ m.Orderly move

/-- **No decision is lost in an orderly run.**  However the operations are interleaved, every one
    that has returned has succeeded and was renamed into place; the file can be read once one has
    been; and the record of every server is that of the last decision about it that was renamed, or
    the one the file had at first. -/
theorem decisions_kept {disk : Disk} {temp : Option (Identity × FileText)} {moves : List Move}
    (h : Transition.Run OrderlyStep (new disk temp) moves m) :
    (∀ r ∈ m.results, r.2 = .ok () ∧ r.1 ∈ m.renamed) ∧
    (m.renamed ≠ [] → (m.disk.content.bind decode).isSome = true) ∧
    ∀ name, m.disk.records[name]? =
      match lastDecision m.renamed name with
      | some d => d.record
      | none => disk.records[name]? := by
  have hconsistent : m.Consistent disk.records :=
    h.invariant (consistent_new disk temp) fun _ _ _ hm hs => hm.step hs.2 hs.1
  refine ⟨hconsistent.succeeded, hconsistent.parsed, fun name => ?_⟩
  rw [hconsistent.settled]
  exact getElem?_settle disk.records m.renamed name

/-- Only this operation has moved, and it has not renamed anything; or it is about to return. -/
def OwnMoves (m : Machine) (i : Nat) (m' : Machine) : Prop :=
  (m'.shown = m.shown ∧ ∀ j ≠ i, m'.handles j = m.handles j) ∨
    (∃ d, (m'.handles i).phase = .readBack d) ∨ (m'.handles i).phase = .idle

theorem OwnMoves.advance {i : Nat} {identity : Identity} {m₁ m₂ : Machine}
    (h : OwnMoves m i m₁) (hothers : ∀ j ≠ i, ∀ d, MayOverlap d (m.handles j).phase)
    (hfresh : identity ∉ m.shown) (hs : m₁.advance i identity = some m₂) :
    m₁.Orderly (.advance i identity) ∧ OwnMoves m i m₂ := by
  -- a step short of the rename touches nothing but the store of `i`
  have hset : ∀ handle, m₁.shown = m.shown ∧ (∀ j ≠ i, m₁.handles j = m.handles j) →
      (m₁.setHandle i handle).shown = m.shown ∧
        ∀ j ≠ i, (m₁.setHandle i handle).handles j = m.handles j := by
    intro handle hown
    exact ⟨hown.1, fun j hj => (handles_setHandle_of_ne hj m₁ handle).trans (hown.2 j hj)⟩
  unfold Machine.advance at hs
  unfold Orderly
  dsimp only at hs ⊢
  rcases h with hown | ⟨d, hphase⟩ | hphase
  · cases hphase : (m₁.handles i).phase with
    | idle => simp [hphase] at hs
    | metadata decision =>
      rw [hphase] at hs
      dsimp only at hs
      split at hs <;> obtain rfl := Option.some.inj hs <;> exact ⟨trivial, .inl (hset _ hown)⟩
    | read | mutate =>
      rw [hphase] at hs
      obtain rfl := Option.some.inj hs
      exact ⟨trivial, .inl (hset _ hown)⟩
    | writeTemp d =>
      rw [hphase] at hs
      obtain rfl := Option.some.inj hs
      refine ⟨?_, .inl (hset _ hown)⟩
      show identity ∉ m₁.shown
      rw [hown.1]
      exact hfresh
    | rename d =>
      rw [hphase] at hs
      refine ⟨fun j hj => ?_, ?_⟩
      -- the others are where they were when `i` started
      · rw [hown.2 j hj]
        exact hothers j hj d
      · dsimp only at hs
        split at hs
        · obtain rfl := Option.some.inj hs
          exact .inr (.inr (congrArg Handle.phase (handles_setHandle_self m₁ i _)))
        · obtain rfl := Option.some.inj hs
          exact .inr (.inl ⟨d, congrArg Handle.phase (handles_setHandle_self m₁ i _)⟩)
    | readBack d =>
      rw [hphase] at hs
      obtain rfl := Option.some.inj hs
      exact ⟨trivial, .inr (.inr (congrArg Handle.phase (handles_setHandle_self m₁ i _)))⟩
  · rw [hphase] at hs ⊢
    obtain rfl := Option.some.inj hs
    exact ⟨trivial, .inr (.inr (congrArg Handle.phase (handles_setHandle_self m₁ i _)))⟩
  · simp [hphase] at hs

/-- **Operations that run one after the other are orderly.** -/
theorem orderly_alone {init : Machine} {moves : List Move}
    (h : Transition.Run OrderlyStep init moves m) {i : Nat} (hidle : (m.handles i).phase = .idle)
    (hothers : ∀ j ≠ i, ∀ d, MayOverlap d (m.handles j).phase) (d : Decided) {identity : Identity}
    (hfresh : identity ∉ m.shown) (hr : Transition.replay step m (m.aloneMoves i d identity) = some m') :
    Transition.Run OrderlyStep init (moves ++ m.aloneMoves i d identity) m' := by
  obtain ⟨rest, hrest, hadvances⟩ : ∃ rest, m.aloneMoves i d identity = .start i (some d) :: rest ∧
      ∀ move ∈ rest, move = .advance i identity := by
    refine ⟨_, rfl, fun move hmove => ?_⟩
    rcases List.mem_append.mp hmove with hmove | hmove
    · split at hmove <;> simpa using hmove
    · exact List.eq_of_mem_replicate hmove
  rw [hrest] at hr ⊢
  obtain ⟨m₁, hstart, hr⟩ := Option.bind_eq_some_iff.mp hr
  have hm₁ : m₁ = m.setHandle i { store := (m.handles i).store, phase := .metadata (some d) } := by
    simpa [step, hidle] using hstart.symm
  have hown : OwnMoves m i m₁ := by
    rw [hm₁]
    exact .inl ⟨rfl, fun j hj => handles_setHandle_of_ne hj m _⟩
  rw [← List.singleton_append, ← List.append_assoc]
  refine (Transition.Run.snoc h ⟨hstart, trivial⟩).extend (P := OwnMoves m i) hown ?_ hr
  intro m₂ move m₃ hm₂ hmove hs
  obtain rfl := hadvances move hmove
  exact hm₂.advance hothers hfresh hs

end Machine

/-! ### A lost decision -/

/-- What the user answers about one server, and what a command says of another. -/
def grantNotes : Decided :=
  ⟨"2026-01-01T00:00:00Z", "com.example.notes", .grant "sha256:1" "notes" .user⟩

def denySlack : Decided := ⟨"2026-01-01T00:00:00Z", "com.example.slack", .deny⟩

/-- One after the other, through two stores. -/
theorem decisions_kept_notes :
    ∃ moves m, Transition.Run Machine.OrderlyStep (.new ⟨none, none⟩ none) moves m ∧
      m.results = [(grantNotes, .ok ()), (denySlack, .ok ())] ∧
      m.disk.records["com.example.notes"]? = grantNotes.record ∧
      m.disk.records["com.example.slack"]? = denySlack.record := by
  obtain ⟨m₁, hreplay₁, hothers₁, hidle₁, hshown₁, hrenamed₁, hresults₁, -⟩ :=
    Machine.alone (m := .new ⟨none, none⟩ none) (i := 1) rfl grantNotes ⟨1, 200⟩
  have hidle : ∀ j, (m₁.handles j).phase = .idle := by
    intro j
    by_cases hj : j = 1
    · rw [hj, hidle₁]
    · rw [hothers₁ j hj]
      rfl
  obtain ⟨m₂, hreplay₂, -, -, -, hrenamed₂, hresults₂, -⟩ :=
    Machine.alone (hidle 2) denySlack ⟨2, 150⟩
  have hstart : Transition.Run Machine.OrderlyStep (.new ⟨none, none⟩ none) []
    (.new ⟨none, none⟩ none) := .start
  have hfirst := Machine.orderly_alone hstart rfl (fun _ _ _ => trivial) grantNotes
    List.not_mem_nil hreplay₁
  have hnew : (⟨2, 150⟩ : Identity) ∉ m₁.shown := by
    rw [hshown₁]
    decide
  have hrun := Machine.orderly_alone hfirst (hidle 2)
    (fun j _ _ => by rw [hidle j]; trivial) denySlack hnew hreplay₂
  have hrenamed : m₂.renamed = [grantNotes, denySlack] := by rw [hrenamed₂, hrenamed₁]; rfl
  have hkept := (Machine.decisions_kept hrun).2.2
  refine ⟨_, m₂, hrun, by rw [hresults₂, hresults₁]; rfl, ?_, ?_⟩
  · rw [hkept, hrenamed]
    rfl
  · rw [hkept, hrenamed]
    rfl

/-- Two operations, the second one started before the first one has renamed its file. -/
def overlapping : List Move :=
  [.start 1 (some grantNotes), .start 2 (some denySlack)] ++
    List.replicate 3 (.advance 1 ⟨1, 200⟩) ++ List.replicate 3 (.advance 2 ⟨2, 150⟩) ++
    List.replicate 3 (.advance 1 ⟨1, 200⟩) ++ List.replicate 3 (.advance 2 ⟨2, 150⟩)

/-- The machine when both have returned. -/
def overlapped : Machine :=
  (Transition.replay Machine.step (.new ⟨none, none⟩ none) overlapping).get (by decide)

/-- Both return `Ok`, and the decision about the first server is gone. -/
theorem decision_lost :
    Transition.Run (fun m move m' => Machine.step m move = some m') (.new ⟨none, none⟩ none)
      overlapping overlapped ∧
    overlapped.results.map Prod.fst = [grantNotes, denySlack] ∧
    (overlapped.results.all (·.2.isOk)) = true ∧
    overlapped.renamed = [grantNotes, denySlack] ∧
    overlapped.disk.records["com.example.notes"]? = none := by
  have hrun : Transition.Run (fun m move m' => Machine.step m move = some m')
      (.new ⟨none, none⟩ none) ([] ++ overlapping) overlapped :=
    Transition.run_of_replay .start (Option.some_get _).symm
  exact ⟨hrun, by decide, by decide, by decide, by decide⟩

end McpLocator.Broker
