import McpLocator.Gateway.Ledger
import McpLocator.Gateway.Routing

namespace McpLocator.Gateway

open Js Transition

/-!
# Grants are not left dangling

* `NoLeak` — a grant that was not released is recorded, with the client that is connected to it.
* `NotOverwriting` — no call sets its entry under a name that has one.  `#activate` checks that before
  its first `await` and not again when it sets the entry.
* `grants_kept` — without overwriting there is no leak in any quiescent state; `grant_leaked` is a run
  of two activations of one server that leaves a grant dangling.
-/

/-- No call is in flight. -/
def Quiescent (s : State) : Prop := ∀ p ∈ s.calls, p.isFinished = true

instance (s : State) : Decidable (Quiescent s) := inferInstanceAs (Decidable (∀ p ∈ s.calls, _))

/-- Every grant that was not released is recorded, and only with the open client that was connected
    to it. -/
def NoLeak (s : State) : Prop :=
  ∀ call g, (call, g) ∈ s.issued → g.grantId ∉ s.released →
    (∃ e ∈ s.active.values, e.grantId = g.grantId) ∧
    ∀ e ∈ s.active.values, e.grantId = g.grantId → e.client = ⟨call, g.address⟩ ∧ call ∉ s.closed

/-- No call sets its entry under a name that `#active` has an entry for. -/
def NotOverwriting (s : State) : Event → Prop
  | .reply call (.listed (.ok _)) =>
    ∀ name broker g, s.calls[call]? = some (.listing name broker g) → s.active.has name = false
  | _ => True

/-- A step that overwrites no entry. -/
def KeptStep (s : State) (event : Event) (s' : State) : Prop :=
  BrokerStep s event s' ∧ NotOverwriting s event

/-! ### Where a grant can be -/

def Recorded (s : State) (grantId : JsString) : Prop := ∃ e ∈ s.active.values, e.grantId = grantId

/-- Some call is going to release or to record the grant. -/
def Held (s : State) (grantId : JsString) : Prop := ∃ p ∈ s.calls, p.holds = some grantId

/-- Some call is going to release the grant. -/
def Discarded (s : State) (grantId : JsString) : Prop := ∃ p ∈ s.calls, p.discards = some grantId

/-- **No grant gets lost.** -/
def Accounted (s : State) : Prop :=
  ∀ call g, (call, g) ∈ s.issued →
    g.grantId ∈ s.released ∨ Recorded s g.grantId ∨ Held s g.grantId

/-- The grant of a call is released, or going to be. -/
def GivenUp (s : State) (call : Nat) : Prop :=
  ∃ g, (call, g) ∈ s.issued ∧ (g.grantId ∈ s.released ∨ Discarded s g.grantId)

/-- A client is closed only if its grant is given up as well. -/
def ClosedWithGrant (s : State) : Prop := ∀ call ∈ s.closed, GivenUp s call

section Calls

variable {s : State} {call : Nat} {p p' : Phase} {Q : Phase → Prop}

theorem exists_move (hp : s.calls[call]? = some p) (hQ : Q p → Q p') (h : ∃ q ∈ s.calls, Q q) :
    ∃ q ∈ s.calls.set call p', Q q := by
  obtain ⟨q, hq, hQq⟩ := h
  obtain ⟨other, hother⟩ := List.mem_iff_getElem?.mp hq
  by_cases heq : other = call
  · subst heq
    rw [hp, Option.some.injEq] at hother
    subst hother
    exact ⟨p', List.mem_of_getElem? (getElem?_move_self hp), hQ hQq⟩
  · exact ⟨q, List.mem_of_getElem? ((getElem?_move_of_ne heq).trans hother), hQq⟩

/-- The call itself is there after its step. -/
theorem exists_moved (hp : s.calls[call]? = some p) (hQ : Q p') : ∃ q ∈ s.calls.set call p', Q q :=
  ⟨p', List.mem_of_getElem? (getElem?_move_self hp), hQ⟩

theorem exists_begin (h : ∃ q ∈ s.calls, Q q) : ∃ q ∈ s.calls ++ [p], Q q := by
  obtain ⟨q, hq, hQq⟩ := h
  exact ⟨q, List.mem_append_left _ hq, hQq⟩

theorem exists_begun (hQ : Q p) : ∃ q ∈ s.calls ++ [p], Q q :=
  ⟨p, List.mem_append_right _ (List.mem_singleton_self p), hQ⟩

end Calls

namespace Phase

variable {p : Phase} {id : JsString} {g : Grant}

theorem holds_of_discards (h : p.discards = some id) : p.holds = some id := by
  cases p <;> simp at h ⊢ <;> exact h

theorem discards_eq_none (h : p.holds = none) : p.discards = none := by
  cases p <;> simp at h ⊢

/-- A call that has its own grant in its hands has no other. -/
theorem holds_own (hgrant : p.grant = some g) (h : p.holds = some id) : g.grantId = id := by
  cases p <;> simp at hgrant h <;> rw [← hgrant, h]

theorem holds_of_isFinished (h : p.isFinished = true) : p.holds = none := by
  cases p <;> simp at h ⊢

end Phase

/-! ### Steps -/

/-- What `broker.release` was asked to release is released. -/
theorem released_of_succeeds {s : State} {call : Nat} {p : Phase} {result : Except JsString Unit}
    (h : ReleaseSucceeds s (.reply call (.settled result))) (hp : s.calls[call]? = some p)
    (hreleasing : p.isReleasing = true) : ∃ u, result = .ok u := by
  cases result with
  | ok u => exact ⟨u, rfl⟩
  | error _ =>
    have := h p hp
    rw [hreleasing] at this
    exact absurd this nofun

theorem GivenUp.mono {s t : State} {call : Nat} (h : GivenUp s call)
    (hissued : s.issued ⊆ t.issued) (hreleased : s.released ⊆ t.released)
    (hdiscarded : ∀ id, Discarded s id → id ∈ t.released ∨ Discarded t id) : GivenUp t call := by
  obtain ⟨g, hg, hgone⟩ := h
  exact ⟨g, hissued hg, hgone.elim (fun hr => .inl (hreleased hr)) (hdiscarded _)⟩

theorem closed_step {s s' : State} {event : Event} (hl : Ledger s) (h : ClosedWithGrant s)
    (hs : Change s event s') (hrelease : ReleaseSucceeds s event) : ClosedWithGrant s' := by
  intro other hother
  cases hs with
  | begun r hearly hbroker =>
    exact (h other hother).mono (fun _ => id) (fun _ => id) fun _ hd => .inr (exists_begin hd)
  | @retired name e he =>
    rcases List.mem_cons.mp hother with rfl | hother
    · obtain ⟨g, hg, hid, -⟩ := hl.entries name e (JsMap.get_eq_some.mp he)
      exact ⟨g, hg, .inr (exists_begun (congrArg some hid))⟩
    · exact (h other hother).mono (fun _ => id) (fun _ => id) fun _ hd => .inr (exists_begin hd)
  | moved call r broker hp keeps _ _ _ =>
    refine (h other hother).mono (fun _ => id) (fun _ => id) fun _ hd => .inr (exists_move hp ?_ hd)
    exact fun hdp => keeps.discards.trans hdp
  | issued call hp =>
    exact (h other hother).mono (fun _ => List.mem_append_left _) (fun _ => id)
      fun _ hd => .inr (exists_move hp nofun hd)
  | recorded call tools hp =>
    exact (h other hother).mono (fun _ => id) (fun _ => id)
      fun _ hd => .inr (exists_move hp nofun hd)
  | @failed call r p name message broker g hp hgrant hdiscards =>
    rcases List.mem_cons.mp hother with rfl | hother
    · exact ⟨g, (hl.calls _ p hp).grant g hgrant, .inr (exists_moved hp rfl)⟩
    · refine (h other hother).mono (fun _ => id) (fun _ => id) fun _ hd => .inr (exists_move hp ?_ hd)
      intro hdp
      rw [hdiscards] at hdp
      exact absurd hdp nofun
  | @released call result p p' grantId hp hreleasing hdiscards _ _ _ _ =>
    obtain ⟨_, rfl⟩ := released_of_succeeds hrelease hp hreleasing
    refine (h other hother).mono (fun _ => id) (fun _ => List.mem_cons_of_mem _) fun id hd => ?_
    by_cases hid : id = grantId
    · exact .inl (hid ▸ List.mem_cons_self)
    · refine .inr (exists_move hp (fun hdp => ?_) hd)
      rw [hdiscards, Option.some.injEq] at hdp
      exact absurd hdp.symm hid
  | abandoned call r hp => exact absurd rfl ((hl.calls call _ hp).connecting _)

theorem accounted_step {s s' : State} {event : Event} (hl : Ledger s) (h : Accounted s)
    (hs : Change s event s') (hrelease : ReleaseSucceeds s event)
    (hover : NotOverwriting s event) : Accounted s' := by
  intro other g hg
  cases hs with
  | begun r hearly hbroker => exact (h other g hg).imp_right (.imp_right exists_begin)
  | @retired name e he =>
    rcases h other g hg with hr | ⟨e', he', hid⟩ | hheld
    · exact .inl hr
    · obtain ⟨name', hmem'⟩ := JsMap.mem_values.mp he'
      by_cases hname : name' = name
      · -- the entry itself: the call is going to release it
        subst hname
        obtain rfl := JsMap.eq_of_mem hmem' (JsMap.get_eq_some.mp he)
        exact .inr (.inr (exists_begun (congrArg some hid)))
      · have hkept := JsMap.mem_delete.mpr ⟨hname, hmem'⟩
        exact .inr (.inl ⟨e', JsMap.mem_values.mpr ⟨name', hkept⟩, hid⟩)
    · exact .inr (.inr (exists_begin hheld))
  | moved call r broker hp keeps _ _ _ =>
    exact (h other g hg).imp_right (.imp_right (exists_move hp fun hh => keeps.holds.trans hh))
  | @issued call name broker new hp =>
    rcases List.mem_append.mp hg with hold | hnew
    · exact (h other g hold).imp_right (.imp_right (exists_move hp nofun))
    · obtain ⟨rfl, rfl⟩ := Prod.mk.inj (List.mem_singleton.mp hnew)
      exact .inr (.inr (exists_moved hp rfl))
  | @recorded call tools name broker new hp =>
    by_cases hid : new.grantId = g.grantId
    · exact .inr (.inl ⟨_, JsMap.mem_values.mpr ⟨name, JsMap.mem_set_self⟩, hid⟩)
    · rcases h other g hg with hr | ⟨e', he', hid'⟩ | hheld
      · exact .inl hr
      · -- the entry has another name, since `name` has none
        obtain ⟨name', hmem'⟩ := JsMap.mem_values.mp he'
        have hne : name' ≠ name := by
          rintro rfl
          have hnone := hover _ _ _ hp
          rw [JsMap.has, JsMap.get_eq_some.mpr hmem'] at hnone
          exact absurd hnone nofun
        exact .inr (.inl ⟨e', JsMap.mem_values.mpr ⟨name', JsMap.mem_set_of_ne hne hmem'⟩, hid'⟩)
      · refine .inr (.inr (exists_move hp (fun hh => ?_) hheld))
        exact absurd (Option.some.inj hh) hid
  | @failed call r p name message broker new hp hgrant hdiscards =>
    refine (h other g hg).imp_right (.imp_right (exists_move hp fun hh => ?_))
    exact congrArg some (Phase.holds_own hgrant hh)
  | @released call result p p' grantId hp hreleasing hdiscards _ _ _ _ =>
    obtain ⟨_, rfl⟩ := released_of_succeeds hrelease hp hreleasing
    rcases h other g hg with hr | hrec | hheld
    · exact .inl (List.mem_cons_of_mem _ hr)
    · exact .inr (.inl hrec)
    · by_cases hid : g.grantId = grantId
      · exact .inl (hid ▸ List.mem_cons_self)
      · refine .inr (.inr (exists_move hp (fun hh => ?_) hheld))
        rw [Phase.holds_of_discards hdiscards, Option.some.injEq] at hh
        exact absurd hh.symm hid
  | abandoned call r hp => exact absurd rfl ((hl.calls call _ hp).connecting _)

/-! ### Runs -/

theorem ledger_closed_of_reached {events : List Event} {s : State}
    (h : Run BrokerStep .init events s) : Ledger s ∧ ClosedWithGrant s :=
  h.invariant (P := fun s => Ledger s ∧ ClosedWithGrant s) ⟨.init, nofun⟩
    fun _ _ _ ⟨hl, hc⟩ hs =>
      have hchange := State.step_change hs.1
      ⟨ledger_step hl hchange hs.2.1, closed_step hl hc hchange hs.2.2⟩

theorem accounted_of_reached {events : List Event} {s : State} (h : Run KeptStep .init events s) :
    Ledger s ∧ Accounted s :=
  h.invariant (P := fun s => Ledger s ∧ Accounted s) ⟨.init, nofun⟩
    fun _ _ _ ⟨hl, ha⟩ hs =>
      have hchange := State.step_change hs.1.1
      ⟨ledger_step hl hchange hs.1.2.1, accounted_step hl ha hchange hs.1.2.2 hs.2⟩

/-- **Without overwriting no grant is left dangling.** -/
theorem grants_kept {events : List Event} {s : State} (h : Run KeptStep .init events s)
    (hq : Quiescent s) : NoLeak s := by
  obtain ⟨hl, ha⟩ := accounted_of_reached h
  obtain ⟨-, hc⟩ := ledger_closed_of_reached (h.mono fun _ _ _ hs => hs.1)
  have hidle : ∀ p ∈ s.calls, p.holds = none := fun p hp => Phase.holds_of_isFinished (hq p hp)
  intro call g hg hr
  refine ⟨?_, fun e he hid => ?_⟩
  · rcases ha call g hg with hrel | hrec | ⟨p, hp, hholds⟩
    · exact absurd hrel hr
    · exact hrec
    · rw [hidle p hp] at hholds
      exact absurd hholds nofun
  · -- ids and calls identify grants, so the entry is backed by this very grant
    obtain ⟨name, hmem⟩ := JsMap.mem_values.mp he
    obtain ⟨g', hg', hid', haddress⟩ := hl.entries name e hmem
    have hsame : (e.client.call, g') = (call, g) :=
      List.inj_on_of_nodup_map hl.idsDistinct hg' hg (hid'.symm.trans hid)
    obtain ⟨rfl, rfl⟩ := Prod.mk.inj hsame
    refine ⟨congrArg (Client.mk e.client.call) haddress, fun hclosed => ?_⟩
    obtain ⟨g'', hg'', hgone⟩ := hc _ hclosed
    obtain ⟨-, rfl⟩ := Prod.mk.inj (List.inj_on_of_nodup_map hl.callsDistinct hg'' hg rfl)
    rcases hgone with hrel | ⟨p, hp, hdiscards⟩
    · exact hr hrel
    · rw [Phase.discards_eq_none (hidle p hp)] at hdiscards
      exact absurd hdiscards nofun

/-! ### An activation, and two at once -/

/-- The steps that `BrokerStep` and `KeptStep` allow, by evaluation. -/
def allowed (kept : Bool) (s : State) : Event → Bool
  | .reply _ (.activated (.ok g)) => s.issued.all fun other => other.2.grantId != g.grantId
  | .reply call (.settled (.error _)) => s.calls[call]?.all fun p => !p.isReleasing
  | .reply call (.listed (.ok _)) =>
    !kept || s.calls[call]?.all fun p => p.granted.all fun name => !s.active.has name
  | _ => true

theorem brokerStep_of_allowed {kept : Bool} {s s' : State} {event : Event}
    (hs : s.step event = some s') (h : allowed kept s event = true) : BrokerStep s event s' := by
  refine ⟨hs, ?_, ?_⟩
  · unfold GrantsFresh
    split
    · simpa [allowed] using h
    · trivial
  · unfold ReleaseSucceeds
    split
    · rename_i call message
      intro p hp
      simpa [allowed, hp] using h
    · trivial

theorem keptStep_of_allowed {s s' : State} {event : Event} (hs : s.step event = some s')
    (h : allowed true s event = true) : KeptStep s event s' := by
  refine ⟨brokerStep_of_allowed hs h, ?_⟩
  unfold NotOverwriting
  split
  · rename_i call tools
    intro name broker g hp
    simpa [allowed, hp] using h
  · trivial

def slack : JsString := ofString "com.example.slack"

/-- The activations of two servers overlap, and the one that is done first is deactivated while the
    other is still under way. -/
def overlappingEvents : List Event :=
  let slackGrant : Grant := ⟨ofString "grant-2", ofString "/run/relay-2.sock"⟩
  [.request (.activate notes), .request (.activate slack), .reply 0 (.connected (.ok 0)),
   .reply 1 (.connected (.ok 1)), .reply 0 .resumed, .reply 1 .resumed,
   .reply 1 (.activated (.ok slackGrant)), .reply 0 (.activated (.ok notesGrant)),
   .reply 0 (.settled (.ok ())), .reply 1 (.settled (.ok ())), .reply 0 (.listed (.ok notesTools)),
   .reply 0 (.settled (.ok ())), .request (.deactivate notes), .reply 1 (.listed (.ok [])),
   .reply 2 (.settled (.ok ())), .reply 2 .resumed, .reply 1 (.settled (.ok ())),
   .reply 2 (.settled (.ok ())), .reply 2 (.settled (.ok ()))]

def overlappedState : State :=
  (replay (fun s event => if allowed true s event = true then s.step event else none) .init
    overlappingEvents).get (by decide +kernel)

theorem overlappedKept : Run KeptStep .init overlappingEvents overlappedState := by
  have hrun : Run (fun s event s' => s.step event = some s' ∧ allowed true s event = true) .init
      overlappingEvents overlappedState := run_of_checked (Option.some_get _).symm
  exact hrun.mono fun _ _ _ hs => keptStep_of_allowed hs.1 hs.2

/-- One grant is released, and the other one is recorded. -/
theorem grants_kept_notes : overlappedState.issued.map Prod.fst = [1, 0] ∧
    overlappedState.released = [notesGrant.grantId] ∧ Quiescent overlappedState ∧
      NoLeak overlappedState := by
  have hquiescent : Quiescent overlappedState := by decide +kernel
  exact ⟨by decide +kernel, by decide +kernel, hquiescent, grants_kept overlappedKept hquiescent⟩

/-- Two calls that activate `notes`: both pass the check before either sets its entry. -/
def twiceEvents : List Event :=
  let secondGrant : Grant := ⟨ofString "grant-2", ofString "/run/relay-2.sock"⟩
  [.request (.activate notes), .request (.activate notes), .reply 0 (.connected (.ok 0)),
   .reply 1 (.connected (.ok 1)), .reply 0 .resumed, .reply 1 .resumed,
   .reply 0 (.activated (.ok notesGrant)), .reply 1 (.activated (.ok secondGrant)),
   .reply 0 (.settled (.ok ())), .reply 1 (.settled (.ok ())), .reply 0 (.listed (.ok notesTools)),
   .reply 0 (.settled (.ok ())), .reply 1 (.listed (.ok notesTools)), .reply 1 (.settled (.ok ()))]

/-- The grant of the first call is neither released nor recorded when both calls are done. -/
theorem grant_leaked : ∃ s, Run BrokerStep .init twiceEvents s ∧ Quiescent s ∧ ¬ NoLeak s := by
  have hreplay : (replay (fun s event => if allowed false s event = true then s.step event else none)
      .init twiceEvents).any (fun s => decide (Quiescent s) && s.issued.head? == some (0, notesGrant)
        && s.released.isEmpty && s.active.values.all fun e => e.grantId != notesGrant.grantId) =
      true := by decide +kernel
  obtain ⟨s, hs, hfacts⟩ := (Option.any_eq_true _ _).mp hreplay
  simp only [Bool.and_eq_true, decide_eq_true_eq, beq_iff_eq, List.isEmpty_iff, List.all_eq_true,
    bne_iff_ne] at hfacts
  obtain ⟨⟨⟨hq, hissued⟩, hreleased⟩, hnone⟩ := hfacts
  refine ⟨s, ?_, hq, fun hleak => ?_⟩
  · exact (run_of_checked hs).mono fun _ _ _ hstep => brokerStep_of_allowed hstep.1 hstep.2
  · obtain ⟨⟨e, he, hid⟩, -⟩ := hleak 0 notesGrant (List.mem_of_head? hissued)
      (by rw [hreleased]; exact List.not_mem_nil)
    exact hnone e he hid

end McpLocator.Gateway
