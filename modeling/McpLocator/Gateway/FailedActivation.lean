import McpLocator.Gateway.Grants

namespace McpLocator.Gateway

open Js Transition

/-!
# Activations that fail after the grant

An activation sets its entry and then awaits `sendToolListChanged`, inside the `try` whose `catch`
gives the grant back.

* `Traced` — the gateway with a note of the calls that have changed what it exposes, and of those whose
  notification has failed.
* `NoTrace` — a call has changed nothing that the gateway exposes, and its grant has been released.
* `Past` — an entry is there once its call has listed the tools, and not before.
* `Marks` — what the notes say of a call in each of its phases.
* `Unreleased` — no entry has a grant that was given back, as long as no notification fails.
* `noTrace_iff` — a call that returned an error has left no trace exactly if its notification has not
  failed; without such failures no server is exposed whose grant was given back.
-/

/-! ### Notes on the calls -/

/-- The call that takes the step. -/
def Event.caller (s : State) : Event → Nat
  | .request _ => s.calls.length
  | .reply call _ => call

/-- The call awaits `sendToolListChanged` of an activation. -/
@[simp] def Phase.isNotifying : Phase → Bool
  | notifying .. => true
  | _ => false

/-- `sendToolListChanged` fails in `#activate`. -/
def notificationFails (s : State) : Event → Bool
  | .reply call (.settled (.error _)) => s.calls[call]?.any Phase.isNotifying
  | _ => false

/-- The gateway shows the same servers and tools. -/
def Exposes (s s' : State) : Prop := s'.active = s.active ∧ s'.exportedTools = s.exportedTools

instance (s s' : State) : Decidable (Exposes s s') := inferInstanceAs (Decidable (_ ∧ _))

/-- The tools that are exported are those of the entries. -/
theorem exposes_iff {s s' : State} : Exposes s s' ↔ s'.active = s.active := by
  refine and_iff_left_of_imp fun h => ?_
  rw [State.exportedTools, State.exportedTools, h]

/-- `touched` are the calls that have changed what is exposed, `failed` those whose notification has
    failed. -/
structure Traced where
  state : State
  touched : List Nat
  failed : List Nat

namespace Traced

def init : Traced := ⟨.init, [], []⟩

def step (t : Traced) (event : Event) : Option Traced :=
  (t.state.step event).map fun s' =>
    { state := s'
      touched := if Exposes t.state s' then t.touched else event.caller t.state :: t.touched
      failed := if notificationFails t.state event then event.caller t.state :: t.failed
        else t.failed }

/-- A step with a broker that gives every grant a new id and releases what it is asked to. -/
def BrokerStep (t : Traced) (event : Event) (t' : Traced) : Prop :=
  t.step event = some t' ∧ GrantsFresh t.state event ∧ ReleaseSucceeds t.state event

variable {t t' : Traced} {event : Event}

theorem step_state (h : t.step event = some t') : t.state.step event = some t'.state := by
  obtain ⟨s', hs', rfl⟩ := Option.map_eq_some_iff.mp h
  exact hs'

theorem mem_touched (h : t.step event = some t') {call : Nat} : call ∈ t'.touched ↔
    call ∈ t.touched ∨ call = event.caller t.state ∧ t'.state.active ≠ t.state.active := by
  obtain ⟨s', -, rfl⟩ := Option.map_eq_some_iff.mp h
  dsimp only
  split
  · rename_i hsame
    simp [exposes_iff.mp hsame]
  · rename_i hchanged
    rw [exposes_iff] at hchanged
    simp [hchanged, or_comm]

theorem mem_failed (h : t.step event = some t') {call : Nat} : call ∈ t'.failed ↔
    call ∈ t.failed ∨ call = event.caller t.state ∧ notificationFails t.state event = true := by
  obtain ⟨s', -, rfl⟩ := Option.map_eq_some_iff.mp h
  dsimp only
  split
  · rename_i hfails
    simp [hfails, or_comm]
  · rename_i hfails
    simp [hfails]

end Traced

/-! ### Entries and the calls that set them -/

/-- An entry was set by a call that has listed the tools, and by no other. -/
structure Past (s : State) : Prop where
  recorded : ∀ name e, (name, e) ∈ s.active.entries →
    ∃ p, s.calls[e.client.call]? = some p ∧ p.early = false ∧ p.granted = none
  single : ∀ name e name' e', (name, e) ∈ s.active.entries → (name', e') ∈ s.active.entries →
    e.client.call = e'.client.call → name = name'

namespace Past

variable {s s' : State}

theorem init : Past State.init := by
  refine ⟨fun name e he => ?_, fun name e name' e' he => ?_⟩
  · exact absurd he List.not_mem_nil
  · exact absurd he List.not_mem_nil

/-- A call that has not listed its tools has no entry. -/
theorem not_recorded (h : Past s) {call : Nat} {p : Phase} (hp : s.calls[call]? = some p)
    (hgranted : p.early = true ∨ p.granted ≠ none) {name : JsString} {e : ActiveServer}
    (he : (name, e) ∈ s.active.entries) : e.client.call ≠ call := by
  rintro rfl
  obtain ⟨q, hq, hearly, hnone⟩ := h.recorded name e he
  obtain rfl := Option.some.inj (hp.symm.trans hq)
  rcases hgranted with hgranted | hgranted
  · rw [hearly] at hgranted
    exact Bool.false_ne_true hgranted
  · exact hgranted hnone

/-- Entries are deleted at most, and calls go on. -/
theorem mono (h : Past s)
    (hactive : ∀ name e, (name, e) ∈ s'.active.entries → (name, e) ∈ s.active.entries)
    (hcalls : ∀ (call : Nat) (p : Phase), s.calls[call]? = some p → p.early = false →
      p.granted = none → ∃ p', s'.calls[call]? = some p' ∧ p'.early = false ∧ p'.granted = none) : Past s' where
  recorded name e he := by
    obtain ⟨p, hp, hearly, hgranted⟩ := h.recorded name e (hactive name e he)
    exact hcalls _ p hp hearly hgranted
  single name e name' e' he he' := h.single name e name' e' (hactive _ _ he) (hactive _ _ he')

/-- A call more. -/
theorem calls_begin {call : Nat} {p q : Phase} (hp : s.calls[call]? = some p) :
    (s.begin q).calls[call]? = some p := by
  show (s.calls ++ [q])[call]? = some p
  rw [List.getElem?_append_left (List.getElem?_eq_some_iff.mp hp).1, hp]

/-- One call goes on. -/
theorem calls_move {call other : Nat} {p p' q : Phase} (hp : s.calls[call]? = some p)
    (hkeeps : p.early = false → p.granted = none → p'.early = false ∧ p'.granted = none)
    (hq : s.calls[other]? = some q) (hearly : q.early = false) (hgranted : q.granted = none) :
    ∃ q', (s.move call p').calls[other]? = some q' ∧ q'.early = false ∧ q'.granted = none := by
  by_cases hother : other = call
  · subst hother
    obtain rfl := Option.some.inj (hp.symm.trans hq)
    exact ⟨p', getElem?_move_self hp, hkeeps hearly hgranted⟩
  · exact ⟨q, (getElem?_move_of_ne hother).trans hq, hearly, hgranted⟩

end Past

theorem past_step {s s' : State} {event : Event} (h : Past s) (hs : Change s event s') : Past s' := by
  cases hs with
  | begun r hearly hbroker =>
    exact h.mono (fun _ _ he => he) fun _ p hp he hg => ⟨p, Past.calls_begin hp, he, hg⟩
  | retired name he =>
    exact h.mono (fun _ _ he => (JsMap.mem_delete.mp he).2) fun _ p hp he hg =>
      ⟨p, Past.calls_begin hp, he, hg⟩
  | @moved call r p p' broker hp keeps _ _ _ =>
    refine h.mono (fun _ _ he => he) fun other q hq he hg => ?_
    refine Past.calls_move (s := { s with broker }) hp (fun hearly hgranted => ⟨?_, ?_⟩) hq he hg
    · cases hearly' : p'.early with
      | false => rfl
      | true =>
        rw [keeps.early hearly'] at hearly
        exact absurd hearly (by simp)
    · refine Option.eq_none_iff_forall_not_mem.mpr fun name hname => ?_
      rw [keeps.granted name hname] at hgranted
      exact absurd hgranted (by simp)
  | issued call hp =>
    refine h.mono (fun _ _ he => he) fun other q hq he hg => ?_
    exact Past.calls_move hp (fun hearly => absurd hearly (by simp)) hq he hg
  | @recorded call tools name broker g hp =>
    -- the new entry is the first of its call, since the call has only just listed the tools
    have hold : ∀ name' e', (name', e') ∈ s.active.entries → e'.client.call ≠ call :=
      fun _ _ he => h.not_recorded hp (.inr (by simp)) he
    constructor
    case recorded =>
      intro name' e' he
      rcases JsMap.mem_set.mp he with ⟨-, rfl⟩ | ⟨-, he⟩
      · exact ⟨_, getElem?_move_self hp, rfl, rfl⟩
      · obtain ⟨q, hq, hearly, hgranted⟩ := h.recorded name' e' he
        exact ⟨q, (getElem?_move_of_ne (hold _ _ he)).trans hq, hearly, hgranted⟩
    case single =>
      intro name₁ e₁ name₂ e₂ he₁ he₂ heq
      rcases JsMap.mem_set.mp he₁ with ⟨hname₁, hentry₁⟩ | ⟨-, he₁⟩
      · rcases JsMap.mem_set.mp he₂ with ⟨hname₂, -⟩ | ⟨-, he₂⟩
        · rw [hname₁, hname₂]
        · rw [hentry₁] at heq
          exact absurd heq.symm (hold _ _ he₂)
      · rcases JsMap.mem_set.mp he₂ with ⟨-, hentry₂⟩ | ⟨-, he₂⟩
        · rw [hentry₂] at heq
          exact absurd heq (hold _ _ he₁)
        · exact h.single _ _ _ _ he₁ he₂ heq
  | failed call r hp _ _ =>
    refine h.mono (fun _ _ he => he) fun other q hq he hg => ?_
    exact Past.calls_move (s := { s with closed := call :: s.closed }) hp (fun _ _ => ⟨rfl, rfl⟩) hq
      he hg
  | @released call result p p' grantId hp _ _ hearly _ _ hholds =>
    have hactive : (s.release grantId result).active = s.active := State.release_active ..
    have hcalls : (s.release grantId result).calls = s.calls := State.release_calls ..
    refine h.mono (fun n e he => hactive ▸ he) fun other q hq he hg => ?_
    rw [← hcalls] at hp hq
    exact Past.calls_move hp (fun _ _ => ⟨hearly, Phase.granted_eq_none hholds⟩) hq he hg
  | abandoned call r hp =>
    refine h.mono (fun _ _ he => he) fun other q hq he hg => ?_
    exact Past.calls_move hp (fun _ _ => ⟨rfl, rfl⟩) hq he hg

/-! ### Grants that are given back -/

/-- The grant is released, or a call is going to release it. -/
def GivenBack (s : State) (grantId : JsString) : Prop := grantId ∈ s.released ∨ Discarded s grantId

/-- No grant of an entry is given back, nor one that a call is going to record. -/
structure Unreleased (s : State) : Prop where
  issued : ∀ id ∈ s.released, ∃ issue ∈ s.issued, issue.2.grantId = id
  entries : ∀ name e, (name, e) ∈ s.active.entries → ¬ GivenBack s e.grantId
  inHand : ∀ (call : Nat) (p : Phase) (g : Grant), s.calls[call]? = some p → p.granted ≠ none →
    p.grant = some g → ¬ GivenBack s g.grantId

section GivenBack

variable {s : State} {p p' : Phase} {id : JsString} {call : Nat}

/-- A call that gives up a grant has it from the broker. -/
theorem Ledger.issued_of_discarded (h : Ledger s) (hd : Discarded s id) :
    ∃ issue ∈ s.issued, issue.2.grantId = id := by
  obtain ⟨p, hp, hdiscards⟩ := hd
  obtain ⟨call, hcall⟩ := List.mem_iff_getElem?.mp hp
  have hsound := h.calls call p hcall
  have hbacked : ∀ e, p.retired = some e → e.grantId = id →
      ∃ issue ∈ s.issued, issue.2.grantId = id := by
    intro e he hid
    obtain ⟨g, hg, hgrant, -⟩ := hsound.retired e he
    exact ⟨_, hg, hgrant.symm.trans hid⟩
  cases p with
  | closing _ _ g _ => exact ⟨_, hsound.grant g rfl, by simpa using hdiscards⟩
  | releasing _ _ g _ => exact ⟨_, hsound.grant g rfl, by simpa using hdiscards⟩
  | deactivateClosing e => exact hbacked e rfl (by simpa using hdiscards)
  | deactivateConnecting e => exact hbacked e rfl (by simpa using hdiscards)
  | deactivateResuming e _ => exact hbacked e rfl (by simpa using hdiscards)
  | deactivateReleasing e _ => exact hbacked e rfl (by simpa using hdiscards)
  | _ => simp at hdiscards

/-- A new call gives back what it has in its hands, and nothing else. -/
theorem givenBack_begin {t : State} (hreleased : t.released = s.released) (hcalls : t.calls = s.calls)
    (h : GivenBack (t.begin p) id) : GivenBack s id ∨ p.discards = some id := by
  rcases h with hr | ⟨q, hq, hdiscards⟩
  · exact .inl (.inl (hreleased ▸ hr))
  · rcases List.mem_append.mp hq with hq | hq
    · exact .inl (.inr ⟨q, hcalls ▸ hq, hdiscards⟩)
    · obtain rfl := List.mem_singleton.mp hq
      exact .inr hdiscards

theorem givenBack_move {t : State} (hreleased : t.released = s.released) (hcalls : t.calls = s.calls)
    (h : GivenBack (t.move call p') id) : GivenBack s id ∨ p'.discards = some id := by
  rcases h with hr | ⟨q, hq, hdiscards⟩
  · exact .inl (.inl (hreleased ▸ hr))
  · rcases List.mem_or_eq_of_mem_set hq with hq | rfl
    · exact .inl (.inr ⟨q, hcalls ▸ hq, hdiscards⟩)
    · exact .inr hdiscards

/-- Grants with one id were issued to one call. -/
theorem Ledger.call_unique (h : Ledger s) {other : Nat} {g g' : Grant} (hg : (call, g) ∈ s.issued)
    (hg' : (other, g') ∈ s.issued) (heq : g.grantId = g'.grantId) : call = other :=
  congrArg Prod.fst (List.inj_on_of_nodup_map h.idsDistinct hg hg' heq)

end GivenBack

namespace Unreleased

variable {s s' : State}

theorem init : Unreleased State.init := by
  refine ⟨fun id hid => ?_, fun name e he => ?_, fun call p g hp => ?_⟩
  · exact absurd hid List.not_mem_nil
  · exact absurd he List.not_mem_nil
  · exact absurd hp (by simp [State.init])

/-- A step that gives nothing back, and puts no grant into other hands. -/
theorem mono (h : Unreleased s) (hissued : s.issued ⊆ s'.issued) (hreleased : s'.released = s.released)
    (hgiven : ∀ id, GivenBack s' id → GivenBack s id)
    (hactive : ∀ name e, (name, e) ∈ s'.active.entries → (name, e) ∈ s.active.entries)
    (hcalls : ∀ (call : Nat) (p : Phase) (g : Grant), s'.calls[call]? = some p → p.granted ≠ none →
      p.grant = some g → ∃ q, s.calls[call]? = some q ∧ q.granted ≠ none ∧ q.grant = some g) :
    Unreleased s' := by
  refine ⟨fun id hid => ?_, fun name e he hid => ?_, fun call p g hp hgranted hgrant hid => ?_⟩
  · rw [hreleased] at hid
    obtain ⟨issue, hissue, heq⟩ := h.issued id hid
    exact ⟨issue, hissued hissue, heq⟩
  · exact h.entries name e (hactive name e he) (hgiven _ hid)
  · obtain ⟨q, hq, hgranted, hgrant⟩ := hcalls call p g hp hgranted hgrant
    exact h.inHand call q g hq hgranted hgrant (hgiven _ hid)

end Unreleased

/-- A notification that ends in giving up the grant has failed. -/
theorem notificationFails_of_discards {s s' : State} {call : Nat} {r : Reply} {p p' : Phase}
    (hs : s.step (.reply call r) = some s') (hp : s.calls[call]? = some p)
    (hnotifying : p.isNotifying = true) (hp' : s'.calls[call]? = some p')
    (hdiscards : p'.discards ≠ none) : notificationFails s (.reply call r) = true := by
  cases p with
  | notifying name broker g tools shortName =>
    obtain ⟨q, hq, hadvance⟩ := Option.bind_eq_some_iff.mp hs
    obtain rfl := Option.some.inj (hp.symm.trans hq)
    cases r with
    | settled result =>
      cases result with
      | error message => simp [notificationFails, hp]
      | ok _ =>
        -- the call is over, and gives nothing up
        obtain rfl := Option.some.inj hadvance
        rw [getElem?_move_self hp] at hp'
        obtain rfl := Option.some.inj hp'
        exact absurd rfl hdiscards
    | connected result => cases result <;> exact absurd hadvance (by simp [State.advance])
    | resumed => exact absurd hadvance (by simp [State.advance])
    | activated result => cases result <;> exact absurd hadvance (by simp [State.advance])
    | listed result => cases result <;> exact absurd hadvance (by simp [State.advance])
  | _ => exact absurd hnotifying (by simp)

/-- **As long as no notification fails, no entry has a grant that was given back.** -/
theorem unreleased_step {s s' : State} {event : Event} (hl : Ledger s) (hpast : Past s)
    (h : Unreleased s) (hs : s.step event = some s') (hfresh : GrantsFresh s event)
    (hfails : notificationFails s event = false) : Unreleased s' := by
  have hchange := State.step_change hs
  cases hchange with
  | @begun r p hearly hbroker =>
    have hnone : p.granted = none ∧ p.discards = none := by
      cases p <;> simp at hearly ⊢
    refine h.mono (fun _ hg => hg) rfl (fun id hd => ?_) (fun _ _ he => he)
      fun call q g hq hgranted hgrant => ?_
    · refine (givenBack_begin (t := s) rfl rfl hd).resolve_right ?_
      rw [hnone.2]
      exact (Option.some_ne_none id).symm
    · rcases getElem?_begin hq with ⟨-, rfl⟩ | hq
      · exact absurd hnone.1 hgranted
      · exact ⟨q, hq, hgranted, hgrant⟩
  | @retired name e he =>
    have hmem := JsMap.get_eq_some.mp he
    obtain ⟨g, hg, hid, -⟩ := hl.entries name e hmem
    refine ⟨h.issued, fun name' e' he' hgiven => ?_, fun call p g' hp hgranted hgrant hgiven => ?_⟩
    · obtain ⟨hne, he'⟩ := JsMap.mem_delete.mp he'
      obtain ⟨g', hg', hid', -⟩ := hl.entries name' e' he'
      -- the entry that goes is the only one with its grant
      rcases givenBack_begin rfl rfl hgiven with hgiven | heq
      · exact h.entries name' e' he' hgiven
      · have hcall := hl.call_unique hg' hg (by rw [← hid', ← Option.some.inj heq, hid])
        exact hne (hpast.single _ _ _ _ he' hmem hcall)
    · rcases getElem?_begin hp with ⟨-, rfl⟩ | hp
      · exact absurd rfl hgranted
      · rcases givenBack_begin rfl rfl hgiven with hgiven | heq
        · exact h.inHand call p g' hp hgranted hgrant hgiven
        · have hcall := hl.call_unique ((hl.calls call p hp).grant g' hgrant) hg
            (by rw [← Option.some.inj heq, hid])
          exact hpast.not_recorded hp (.inr hgranted) hmem hcall.symm
  | @moved call r p p' broker hp keeps _ _ _ =>
    refine h.mono (fun _ hg => hg) rfl (fun id hd => ?_) (fun _ _ he => he)
      fun other q g hq hgranted hgrant => ?_
    · rcases givenBack_move rfl rfl hd with hd | hd
      · exact hd
      · exact .inr ⟨p, List.mem_of_getElem? hp, keeps.discards ▸ hd⟩
    · rcases getElem?_move hq with ⟨rfl, rfl⟩ | ⟨-, hq⟩
      · obtain ⟨name, hname⟩ := Option.ne_none_iff_exists'.mp hgranted
        have hgranted' : p.granted ≠ none := by
          rw [keeps.granted name hname]
          exact Option.some_ne_none name
        exact ⟨p, hp, hgranted', keeps.grant g hgrant⟩
      · exact ⟨q, hq, hgranted, hgrant⟩
  | @issued call name broker g hp =>
    -- the id is new, so nobody has given it back
    have hnew : ¬ GivenBack s g.grantId := by
      rintro (hr | hd)
      · obtain ⟨issue, hissue, heq⟩ := h.issued _ hr
        exact hfresh issue hissue heq
      · obtain ⟨issue, hissue, heq⟩ := hl.issued_of_discarded hd
        exact hfresh issue hissue heq
    refine ⟨fun id hid => ?_, fun name' e he hback => ?_, fun other q g' hq hgranted hgrant hback => ?_⟩
    · obtain ⟨issue, hissue, heq⟩ := h.issued id hid
      exact ⟨issue, List.mem_append_left _ hissue, heq⟩
    · exact h.entries name' e he ((givenBack_move rfl rfl hback).resolve_right (by simp))
    · replace hback := (givenBack_move rfl rfl hback).resolve_right (by simp)
      rcases getElem?_move hq with ⟨rfl, rfl⟩ | ⟨-, hq⟩
      · obtain rfl := Option.some.inj hgrant
        exact hnew hback
      · exact h.inHand other q g' hq hgranted hgrant hback
  | @recorded call tools name broker g hp =>
    refine ⟨h.issued, fun name' e he hback => ?_, fun other q g' hq hgranted hgrant hback => ?_⟩
    · replace hback := (givenBack_move rfl rfl hback).resolve_right (by simp)
      rcases JsMap.mem_set.mp he with ⟨-, rfl⟩ | ⟨-, he⟩
      · exact h.inHand call _ g hp (by simp) rfl hback
      · exact h.entries name' e he hback
    · replace hback := (givenBack_move rfl rfl hback).resolve_right (by simp)
      rcases getElem?_move hq with ⟨-, rfl⟩ | ⟨-, hq⟩
      · exact absurd rfl hgranted
      · exact h.inHand other q g' hq hgranted hgrant hback
  | @failed call r p name message broker g hp hgrant hdiscards =>
    -- the call had not recorded the grant: otherwise its notification has failed
    have hgranted : p.granted ≠ none := by
      intro hnone
      have hnotifying : p.isNotifying = true := by
        cases p <;> simp at hgrant hdiscards hnone ⊢
      have := notificationFails_of_discards hs hp hnotifying (getElem?_move_self hp) (by simp)
      rw [hfails] at this
      exact Bool.false_ne_true this
    have hg := (hl.calls call p hp).grant g hgrant
    refine ⟨h.issued, fun name' e he hback => ?_, fun other q g' hq hq' hgrant' hback => ?_⟩
    · rcases givenBack_move rfl rfl hback with hback | heq
      · exact h.entries name' e he hback
      · obtain ⟨g', hg', hid, -⟩ := hl.entries name' e he
        have hcall := hl.call_unique hg' hg (by rw [← hid, ← Option.some.inj heq])
        exact hpast.not_recorded hp (.inr hgranted) he hcall
    · rcases getElem?_move hq with ⟨-, rfl⟩ | ⟨hne, hq⟩
      · exact absurd rfl hq'
      · rcases givenBack_move rfl rfl hback with hback | heq
        · exact h.inHand other q g' hq hq' hgrant' hback
        · exact hne (hl.call_unique ((hl.calls other q hq).grant g' hgrant') hg
            (Option.some.inj heq).symm)
  | @released call result p p' grantId hp _ hdiscards _ _ _ hholds =>
    have hback : Discarded s grantId := ⟨p, List.mem_of_getElem? hp, hdiscards⟩
    have hnone := Phase.discards_eq_none hholds
    have hreleased : ∀ id ∈ (s.release grantId result).released, id ∈ s.released ∨ id = grantId := by
      intro id hid
      cases result with
      | ok _ => exact (List.mem_cons.mp hid).symm
      | error _ => exact .inl hid
    have hgiven : ∀ id, GivenBack ((s.release grantId result).move call p') id → GivenBack s id := by
      rintro id (hr | ⟨q, hq, hq'⟩)
      · rcases hreleased id hr with hr | rfl
        · exact .inl hr
        · exact .inr hback
      · rcases List.mem_or_eq_of_mem_set hq with hq | rfl
        · exact .inr ⟨q, State.release_calls s grantId result ▸ hq, hq'⟩
        · rw [hnone] at hq'
          exact absurd hq' (by simp)
    refine ⟨fun id hid => ?_, fun name' e he hb => ?_, fun other q g' hq hq' hgrant' hb => ?_⟩
    · show ∃ issue ∈ (s.release grantId result).issued, _
      rw [State.release_issued]
      rcases hreleased id hid with hid | rfl
      · exact h.issued id hid
      · exact hl.issued_of_discarded hback
    · exact h.entries name' e (State.release_active s grantId result ▸ he) (hgiven _ hb)
    · rcases getElem?_move hq with ⟨-, rfl⟩ | ⟨-, hq⟩
      · exact absurd (Phase.granted_eq_none hholds) hq'
      · rw [State.release_calls] at hq
        exact h.inHand other q g' hq hq' hgrant' (hgiven _ hb)
  | abandoned call r hp => exact absurd rfl ((hl.calls call _ hp).connecting _)

/-! ### What the notes say of a call -/

/-- A call has changed nothing that the gateway exposes, and its grant has been released. -/
def NoTrace (t : Traced) (call : Nat) : Prop :=
  call ∉ t.touched ∧ ∀ g, (call, g) ∈ t.state.issued → g.grantId ∈ t.state.released

/-- Before its entry is set, a call is not noted.  Once it gives its grant back it has been noted as
    touching what is exposed exactly if its notification has failed. -/
def Marks (t : Traced) (call : Nat) : Phase → Prop
  | .connecting _ | .resuming _ _ | .activating _ _ | .connectingClient _ _ _ | .listing _ _ _ =>
    call ∉ t.touched ∧ call ∉ t.failed
  | .notifying _ _ _ _ _ => call ∈ t.touched ∧ call ∉ t.failed
  | .closing _ _ _ _ | .releasing _ _ _ _ => call ∈ t.touched ↔ call ∈ t.failed
  | .finished (.returned r) => r.isError = true → (call ∈ t.touched ↔ call ∈ t.failed) ∧
      ∀ g, (call, g) ∈ t.state.issued → g.grantId ∈ t.state.released
  | _ => True

structure Noted (t : Traced) : Prop where
  ledger : Ledger t.state
  past : Past t.state
  marks : ∀ (call : Nat) (p : Phase), t.state.calls[call]? = some p → Marks t call p
  touched_lt : ∀ call ∈ t.touched, call < t.state.calls.length
  failed_lt : ∀ call ∈ t.failed, call < t.state.calls.length

section Marks

variable {t t' : Traced} {call : Nat} {p : Phase}

/-- A call about which nothing changes. -/
theorem Marks.mono (h : Marks t call p) (htouched : call ∈ t'.touched ↔ call ∈ t.touched)
    (hfailed : call ∈ t'.failed ↔ call ∈ t.failed)
    (hissued : ∀ g, (call, g) ∈ t'.state.issued → (call, g) ∈ t.state.issued)
    (hreleased : t.state.released ⊆ t'.state.released) : Marks t' call p := by
  cases p with
  | finished outcome =>
    cases outcome with
    | threw => trivial
    | returned r =>
      intro herror
      obtain ⟨hmarks, hgrants⟩ := h herror
      refine ⟨?_, fun g hg => hreleased (hgrants g (hissued g hg))⟩
      rw [htouched, hfailed]
      exact hmarks
  | deactivateClosing | deactivateConnecting | deactivateResuming | deactivateReleasing
  | deactivateNotifying => trivial
  | _ => simpa only [Marks, htouched, hfailed] using h

end Marks

/-- Only the call that takes a step goes on, and only to it a grant is issued. -/
theorem Change.others {s s' : State} {event : Event} (h : Change s event s') {other : Nat}
    (hne : other ≠ event.caller s) :
    (∀ p, s'.calls[other]? = some p → s.calls[other]? = some p) ∧
      ∀ g, (other, g) ∈ s'.issued → (other, g) ∈ s.issued := by
  have hbegin : ∀ {u : State} {q : Phase}, u.calls = s.calls → other ≠ s.calls.length →
      ∀ p, (u.begin q).calls[other]? = some p → s.calls[other]? = some p := by
    intro u q hu hother p hp
    rcases getElem?_begin hp with ⟨hlast, -⟩ | hp
    · exact absurd (hu ▸ hlast) hother
    · exact hu ▸ hp
  have hmove : ∀ {u : State} {q : Phase} {call : Nat}, u.calls = s.calls → other ≠ call →
      ∀ p, (u.move call q).calls[other]? = some p → s.calls[other]? = some p := by
    intro u q call hu hother p hp
    rcases getElem?_move hp with ⟨heq, -⟩ | ⟨-, hp⟩
    · exact absurd heq hother
    · exact hu ▸ hp
  cases h with
  | begun => exact ⟨hbegin rfl hne, fun _ hg => hg⟩
  | retired => exact ⟨hbegin rfl hne, fun _ hg => hg⟩
  | moved => exact ⟨hmove rfl hne, fun _ hg => hg⟩
  | issued call hp =>
    refine ⟨hmove rfl hne, fun g hg => ?_⟩
    rcases List.mem_append.mp hg with hg | hg
    · exact hg
    · exact absurd (Prod.mk.inj (List.mem_singleton.mp hg)).1 hne
  | recorded => exact ⟨hmove rfl hne, fun _ hg => hg⟩
  | failed => exact ⟨hmove rfl hne, fun _ hg => hg⟩
  | released call result =>
    refine ⟨hmove (State.release_calls ..) hne, fun g hg => ?_⟩
    exact State.release_issued s _ result ▸ hg
  | abandoned => exact ⟨hmove rfl hne, fun _ hg => hg⟩

theorem Change.released_subset {s s' : State} {event : Event} (h : Change s event s') :
    s.released ⊆ s'.released := by
  cases h with
  | released call result =>
    cases result with
    | ok _ => exact List.subset_cons_of_subset _ (List.Subset.refl _)
    | error _ => exact List.Subset.refl _
  | _ => exact List.Subset.refl _

/-- Setting the entry of a call changes the map. -/
theorem record_active_ne {s : State} (h : Past s) {call : Nat} {name : JsString} {broker : Nat}
    {g : Grant} (hp : s.calls[call]? = some (.listing name broker g)) (tools : List Tool)
    (shortName : JsString) : (s.record call name g tools shortName).active ≠ s.active := by
  intro heq
  have hmem : (name, ⟨name, g.grantId, ⟨call, g.address⟩, tools, shortName⟩) ∈ s.active.entries := by
    rw [← heq]
    exact JsMap.mem_set_self
  exact h.not_recorded hp (.inr (by simp)) hmem rfl

/-- **A call goes on, and is noted accordingly.** -/
theorem marks_advance {t : Traced} (hn : Noted t) {call : Nat} {p : Phase} {r : Reply} {s' : State}
    {touched failed : List Nat} (hp : t.state.calls[call]? = some p)
    (hs : t.state.advance call p r = some s') (hrelease : ReleaseSucceeds t.state (.reply call r))
    (htouched : call ∈ touched ↔ call ∈ t.touched ∨ s'.active ≠ t.state.active)
    (hfailed : call ∈ failed ↔
      call ∈ t.failed ∨ notificationFails t.state (.reply call r) = true) :
    ∃ p', s'.calls[call]? = some p' ∧ Marks ⟨s', touched, failed⟩ call p' := by
  have hm := hn.marks call p hp
  have hsound := hn.ledger.calls call p hp
  -- what the notes say of a step that neither changes the map nor is a failed notification
  have hsame : s'.active = t.state.active → notificationFails t.state (.reply call r) = false →
      (call ∈ touched ↔ call ∈ t.touched) ∧ (call ∈ failed ↔ call ∈ t.failed) := by
    intro hactive hfails
    simp [htouched, hfailed, hactive, hfails]
  have hkept : s'.active = t.state.active → notificationFails t.state (.reply call r) = false →
      call ∉ t.touched ∧ call ∉ t.failed → call ∉ touched ∧ call ∉ failed := by
    intro hactive hfails hnone
    obtain ⟨h₁, h₂⟩ := hsame hactive hfails
    rw [h₁, h₂]
    exact hnone
  unfold State.advance at hs
  split at hs
  all_goals cases hs
  · exact ⟨_, getElem?_move_self hp, hkept rfl rfl hm⟩
  · exact ⟨_, getElem?_move_self hp, trivial⟩
  · exact ⟨_, getElem?_move_self hp, hkept rfl rfl hm⟩
  · exact ⟨_, getElem?_move_self hp, hkept rfl rfl hm⟩
  · -- the broker has refused: there is no grant
    refine ⟨_, getElem?_move_self hp, fun _ => ⟨?_, fun g hg => ?_⟩⟩
    · obtain ⟨h₁, h₂⟩ := hkept rfl rfl hm
      exact iff_of_false h₁ h₂
    · obtain ⟨q, hq, hearly⟩ := hn.ledger.asked call g hg
      obtain rfl := Option.some.inj (hp.symm.trans hq)
      exact absurd hearly (by simp)
  · exact ⟨_, getElem?_move_self hp, hkept rfl rfl hm⟩
  · obtain ⟨h₁, h₂⟩ := hkept rfl (by simp [notificationFails, hp]) hm
    exact ⟨_, getElem?_move_self hp, iff_of_false h₁ h₂⟩
  · -- the entry is set, and no call has set it before
    have hchanged := record_active_ne hn.past hp
    refine ⟨_, getElem?_move_self hp, htouched.mpr (.inr (hchanged _ _)), fun hmem => ?_⟩
    rcases hfailed.mp hmem with hold | hfails
    · exact hm.2 hold
    · exact absurd hfails (by simp [notificationFails])
  · obtain ⟨h₁, h₂⟩ := hkept rfl rfl hm
    exact ⟨_, getElem?_move_self hp, iff_of_false h₁ h₂⟩
  · refine ⟨_, getElem?_move_self hp, fun herror => ?_⟩
    exact absurd herror (by simp [activatedResult, textResult])
  · -- the notification has failed, and the entry stays
    refine ⟨_, getElem?_move_self hp, iff_of_true (htouched.mpr (.inl hm.1)) ?_⟩
    exact hfailed.mpr (.inr (by simp [notificationFails, hp]))
  · rename_i result
    have hfails : notificationFails t.state (.reply call (.settled result)) = false := by
      cases result <;> simp [notificationFails, hp]
    obtain ⟨h₁, h₂⟩ := hsame rfl hfails
    exact ⟨_, getElem?_move_self hp, (h₁.trans hm).trans h₂.symm⟩
  · -- the grant is released, and it is the one of the call
    rename_i name broker g message result
    have hfails : notificationFails t.state (.reply call (.settled result)) = false := by
      cases result <;> simp [notificationFails, hp]
    obtain ⟨_, rfl⟩ := released_of_succeeds hrelease hp rfl
    obtain ⟨h₁, h₂⟩ := hsame rfl hfails
    refine ⟨_, getElem?_move_self hp, fun _ => ⟨(h₁.trans hm).trans h₂.symm, fun g' hg' => ?_⟩⟩
    have hg := hsound.grant g rfl
    have heq := List.inj_on_of_nodup_map hn.ledger.callsDistinct hg' hg rfl
    obtain rfl := (Prod.mk.inj heq).2
    exact List.mem_cons_self
  · cases t.state.broker with
    | none => exact ⟨_, getElem?_move_self hp, trivial⟩
    | some broker => exact ⟨_, getElem?_move_self hp, trivial⟩
  · exact ⟨_, getElem?_move_self hp, trivial⟩
  · exact ⟨_, getElem?_move_self hp, trivial⟩
  · exact ⟨_, getElem?_move_self hp, trivial⟩
  · exact ⟨_, getElem?_move_self (State.release_calls .. ▸ hp), trivial⟩
  · refine ⟨_, getElem?_move_self hp, fun herror => ?_⟩
    exact absurd herror (by simp [deactivatedResult, textResult])
  · exact ⟨_, getElem?_move_self hp, trivial⟩

theorem calls_begin_self (s : State) (p : Phase) : (s.begin p).calls[s.calls.length]? = some p := by
  simp [State.begin]

/-- A call that has not begun has left no mark. -/
theorem Noted.fresh {t : Traced} (hn : Noted t) : t.state.calls.length ∉ t.touched ∧
    t.state.calls.length ∉ t.failed ∧ ∀ g, (t.state.calls.length, g) ∉ t.state.issued := by
  refine ⟨fun hmem => ?_, fun hmem => ?_, fun g hg => ?_⟩
  · exact Nat.lt_irrefl _ (hn.touched_lt _ hmem)
  · exact Nat.lt_irrefl _ (hn.failed_lt _ hmem)
  · obtain ⟨p, hp, -⟩ := hn.ledger.asked _ g hg
    exact Nat.lt_irrefl _ (List.getElem?_eq_some_iff.mp hp).1

/-- A new call changes nothing when it begins. -/
theorem marks_request {t : Traced} (hn : Noted t) {r : Request} {s' : State}
    {touched failed : List Nat} (hs : t.state.step (.request r) = some s')
    (htouched : t.state.calls.length ∈ touched ↔
      t.state.calls.length ∈ t.touched ∨ s'.active ≠ t.state.active)
    (hfailed : t.state.calls.length ∈ failed ↔ t.state.calls.length ∈ t.failed) :
    ∃ p', s'.calls[t.state.calls.length]? = some p' ∧
      Marks ⟨s', touched, failed⟩ t.state.calls.length p' := by
  obtain ⟨hnew, hunfailed, hissued⟩ := hn.fresh
  have hnone : t.state.calls.length ∉ failed := by rwa [hfailed]
  have hkept : s'.active = t.state.active → t.state.calls.length ∉ touched := by
    intro hactive
    rw [htouched]
    exact not_or.mpr ⟨hnew, fun hne => hne hactive⟩
  cases r with
  | activate name =>
    obtain rfl := Option.some.inj hs
    unfold State.activateCall at hkept ⊢
    split
    · rename_i hempty
      rw [if_pos hempty] at hkept
      refine ⟨_, calls_begin_self .., fun _ => ⟨iff_of_false (hkept rfl) hnone, fun g hg => ?_⟩⟩
      exact absurd hg (hissued g)
    · rename_i hname
      rw [if_neg hname] at hkept
      split
      · refine ⟨_, calls_begin_self .., fun herror => ?_⟩
        exact absurd herror (by simp [alreadyActive, textResult])
      · rename_i hinactive
        rw [if_neg hinactive] at hkept
        cases hbroker : t.state.broker with
        | none =>
          rw [hbroker] at hkept
          exact ⟨_, calls_begin_self .., hkept rfl, hnone⟩
        | some broker =>
          rw [hbroker] at hkept
          exact ⟨_, calls_begin_self .., hkept rfl, hnone⟩
  | deactivate name =>
    obtain rfl := Option.some.inj hs
    unfold State.deactivateCall at hkept ⊢
    cases he : t.state.active.get name with
    | none =>
      rw [he] at hkept
      refine ⟨_, calls_begin_self .., fun _ => ⟨iff_of_false (hkept rfl) hnone, fun g hg => ?_⟩⟩
      exact absurd hg (hissued g)
    | some e => exact ⟨_, calls_begin_self .., trivial⟩

/-- The call that takes the step is there, and no call goes away. -/
theorem Change.caller_lt {s s' : State} {event : Event} (h : Change s event s') :
    event.caller s < s'.calls.length ∧ s.calls.length ≤ s'.calls.length := by
  have hmove : ∀ {u : State} {call : Nat} {p q : Phase}, u.calls = s.calls →
      s.calls[call]? = some p →
        call < (u.move call q).calls.length ∧ s.calls.length ≤ (u.move call q).calls.length := by
    intro u call p q hu hp
    have hlt := (List.getElem?_eq_some_iff.mp hp).1
    simp [State.move, hu, hlt]
  cases h with
  | begun => simp [Event.caller, State.begin]
  | retired => simp [Event.caller, State.begin]
  | moved _ _ _ hp => exact hmove rfl hp
  | issued _ hp => exact hmove rfl hp
  | recorded _ _ hp => exact hmove rfl hp
  | failed _ _ hp => exact hmove rfl hp
  | released _ _ hp => exact hmove (State.release_calls ..) hp
  | abandoned _ _ hp => exact hmove rfl hp

/-- **Every step keeps the notes.** -/
theorem noted_step {t t' : Traced} {event : Event} (hn : Noted t) (hs : Traced.BrokerStep t event t') :
    Noted t' := by
  obtain ⟨hstep, hfresh, hrelease⟩ := hs
  have hstate := Traced.step_state hstep
  have hchange := State.step_change hstate
  obtain ⟨hcaller, hlength⟩ := hchange.caller_lt
  have htouched : ∀ call, call ∈ t'.touched ↔
      call ∈ t.touched ∨ call = event.caller t.state ∧ t'.state.active ≠ t.state.active :=
    fun _ => Traced.mem_touched hstep
  have hfailed : ∀ call, call ∈ t'.failed ↔
      call ∈ t.failed ∨ call = event.caller t.state ∧ notificationFails t.state event = true :=
    fun _ => Traced.mem_failed hstep
  constructor
  case ledger => exact ledger_step hn.ledger hchange hfresh
  case past => exact past_step hn.past hchange
  case touched_lt =>
    intro call hcall
    rcases (htouched call).mp hcall with hold | ⟨rfl, -⟩
    · exact (hn.touched_lt call hold).trans_le hlength
    · exact hcaller
  case failed_lt =>
    intro call hcall
    rcases (hfailed call).mp hcall with hold | ⟨rfl, -⟩
    · exact (hn.failed_lt call hold).trans_le hlength
    · exact hcaller
  case marks =>
    intro call p hp
    by_cases hcall : call = event.caller t.state
    · -- the call that takes the step
      have hmarks : ∃ p', t'.state.calls[call]? = some p' ∧ Marks t' call p' := by
        cases event with
        | request r =>
          obtain rfl : call = t.state.calls.length := hcall
          refine marks_request hn hstate ?_ ?_
          · simpa [Event.caller] using htouched t.state.calls.length
          · simpa [Event.caller, notificationFails] using hfailed t.state.calls.length
        | reply other r =>
          obtain rfl : call = other := hcall
          obtain ⟨q, hq, hadvance⟩ := Option.bind_eq_some_iff.mp hstate
          refine marks_advance hn hq hadvance hrelease ?_ ?_
          · simpa [Event.caller] using htouched call
          · simpa [Event.caller] using hfailed call
      obtain ⟨p', hp', hm⟩ := hmarks
      obtain rfl := Option.some.inj (hp.symm.trans hp')
      exact hm
    · -- another one stays where it was
      obtain ⟨hold, hissued⟩ := hchange.others hcall
      refine (hn.marks call p (hold p hp)).mono ?_ ?_ hissued hchange.released_subset
      · simp [htouched, hcall]
      · simp [hfailed, hcall]

theorem noted_init : Noted .init := by
  refine ⟨.init, .init, fun call p hp => ?_, fun call hcall => ?_, fun call hcall => ?_⟩
  · exact absurd hp (by simp [Traced.init, State.init])
  · exact absurd hcall List.not_mem_nil
  · exact absurd hcall List.not_mem_nil

theorem noted_of_reached {events : List Event} {t : Traced}
    (h : Run Traced.BrokerStep .init events t) : Noted t :=
  h.invariant noted_init fun _ _ _ hn hs => noted_step hn hs

/-- Without a failed notification no grant of an entry is given back. -/
theorem unreleased_of_reached {events : List Event} {t : Traced}
    (h : Run Traced.BrokerStep .init events t) (hnone : t.failed = []) : Unreleased t.state := by
  have hboth : Noted t ∧ (t.failed = [] → Unreleased t.state) := by
    refine h.invariant (P := fun t => Noted t ∧ (t.failed = [] → Unreleased t.state))
      ⟨noted_init, fun _ => .init⟩ ?_
    rintro t event t' ⟨hn, hu⟩ hs
    refine ⟨noted_step hn hs, fun hnone => ?_⟩
    have hfailed : ∀ call, call ∈ t'.failed ↔
        call ∈ t.failed ∨ call = event.caller t.state ∧ notificationFails t.state event = true :=
      fun _ => Traced.mem_failed hs.1
    have hfails : notificationFails t.state event = false := by
      by_contra hfails
      have hmem := (hfailed (event.caller t.state)).mpr (.inr ⟨rfl, by simpa using hfails⟩)
      rw [hnone] at hmem
      exact List.not_mem_nil hmem
    have hold : t.failed = [] := by
      refine List.eq_nil_iff_forall_not_mem.mpr fun call hcall => ?_
      have hmem := (hfailed call).mpr (.inl hcall)
      rw [hnone] at hmem
      exact List.not_mem_nil hmem
    exact unreleased_step hn.ledger hn.past (hu hold) (Traced.step_state hs.1) hs.2.1 hfails
  exact hboth.2 hnone

/-- **Activations that fail.**  In every state that the gateway reaches, a call that has returned an
    error has changed nothing that the gateway exposes, and its grant has been released, exactly if its
    `sendToolListChanged` has not failed.  As long as none has failed, no grant of a server that the
    gateway exposes is released. -/
theorem noTrace_iff {events : List Event} {t : Traced} (h : Run Traced.BrokerStep .init events t) :
    (∀ (call : Nat) (result : ToolResult),
      t.state.calls[call]? = some (.finished (.returned result)) → result.isError = true →
        (NoTrace t call ↔ call ∉ t.failed)) ∧
    (t.failed = [] → ∀ e ∈ t.state.active.values, e.grantId ∉ t.state.released) := by
  refine ⟨fun call result hcall herror => ?_, fun hnone e he hreleased => ?_⟩
  · obtain ⟨hmarks, hgrants⟩ := (noted_of_reached h).marks call _ hcall herror
    rw [NoTrace, hmarks]
    exact and_iff_left hgrants
  · obtain ⟨name, hmem⟩ := JsMap.mem_values.mp he
    exact (unreleased_of_reached h hnone).entries name e hmem (.inl hreleased)

/-! ### A handshake and a notification that fail -/

/-- The activation of `notes`, up to the connection of its client. -/
def notesStarted : List Event :=
  [.request (.activate notes), .reply 0 (.connected (.ok 0)), .reply 0 .resumed,
   .reply 0 (.activated (.ok notesGrant))]

/-- The client is closed and the grant released. -/
def notesGivenUp : List Event := [.reply 0 (.settled (.ok ())), .reply 0 (.settled (.ok ()))]

/-- The server does not answer. -/
def unansweredEvents : List Event :=
  notesStarted ++ [.reply 0 (.settled (.error (ofString "connection refused")))] ++ notesGivenUp

/-- The tools are listed, but the transport to the model breaks. -/
def unnotifiedEvents : List Event :=
  notesStarted ++ [.reply 0 (.settled (.ok ())), .reply 0 (.listed (.ok notesTools)),
    .reply 0 (.settled (.error (ofString "Not connected")))] ++ notesGivenUp

/-- The steps that the broker allows, by evaluation. -/
def Traced.checked (t : Traced) (event : Event) : Option Traced :=
  if allowed false t.state event = true then t.step event else none

theorem run_of_replay_checked {events : List Event} {t : Traced}
    (h : replay Traced.checked .init events = some t) : Run Traced.BrokerStep .init events t := by
  have hrun : Run (fun t event t' => t.step event = some t' ∧ allowed false t.state event = true) .init
      events t := run_of_checked h
  refine hrun.mono fun t event t' hs => ⟨hs.1, ?_⟩
  exact (brokerStep_of_allowed (Traced.step_state hs.1) hs.2).2

theorem noTrace_notes : ∃ t, Run Traced.BrokerStep .init unansweredEvents t ∧
    t.state.calls[0]? =
      some (.finished (.returned (notMcp notes (ofString "connection refused")))) ∧ NoTrace t 0 := by
  have hreplay : (replay Traced.checked .init unansweredEvents).any (fun t => t.failed.isEmpty &&
      t.state.calls[0]? ==
        some (.finished (.returned (notMcp notes (ofString "connection refused"))))) = true := by
    decide +kernel
  obtain ⟨t, ht, hfacts⟩ := (Option.any_eq_true _ _).mp hreplay
  simp only [Bool.and_eq_true, List.isEmpty_iff, beq_iff_eq] at hfacts
  obtain ⟨hfailed, hcall⟩ := hfacts
  have hrun := run_of_replay_checked ht
  refine ⟨t, hrun, hcall, ((noTrace_iff hrun).1 0 _ hcall rfl).mpr ?_⟩
  rw [hfailed]
  exact List.not_mem_nil

/-- The activation has returned an error and its grant is released, but the server is still exposed,
    and a further activation is told that it is active. -/
theorem not_noTrace : ∃ t, Run Traced.BrokerStep .init unnotifiedEvents t ∧
    t.state.calls[0]? = some (.finished (.returned (notMcp notes (ofString "Not connected")))) ∧
      ¬ NoTrace t 0 ∧ notesGrant.grantId ∈ t.state.released ∧
        t.state.exportedTools.map Tool.name = [ofString "notes.search.all"] ∧
          (t.state.activateCall notes).calls[1]? =
            some (.finished (.returned (alreadyActive notes))) := by
  have hreplay : (replay Traced.checked .init unnotifiedEvents).any (fun t =>
      t.state.calls[0]? == some (.finished (.returned (notMcp notes (ofString "Not connected")))) &&
      t.touched.contains 0 && t.state.released.contains notesGrant.grantId &&
      t.state.exportedTools.map Tool.name == [ofString "notes.search.all"] &&
      (t.state.activateCall notes).calls[1]? ==
        some (.finished (.returned (alreadyActive notes)))) = true := by decide +kernel
  obtain ⟨t, ht, hfacts⟩ := (Option.any_eq_true _ _).mp hreplay
  simp only [Bool.and_eq_true, beq_iff_eq, List.contains_iff_mem] at hfacts
  obtain ⟨⟨⟨⟨hcall, htouched⟩, hreleased⟩, hexported⟩, hagain⟩ := hfacts
  exact ⟨t, run_of_replay_checked ht, hcall, fun h => h.1 htouched, hreleased, hexported, hagain⟩

end McpLocator.Gateway
