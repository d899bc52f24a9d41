import McpLocator.Gateway.Steps

namespace McpLocator.Gateway

open Js Transition

/-!
# What the gateway knows about its grants

* `BrokerStep` — a step with a broker that gives every grant a new id and releases what it is asked to.
* `Backed` — an entry that records a grant, with the client that was connected to it.
* `Ledger` — entries are backed, also those that a call has just deleted, and a call has only its own
  grant in its hands; `ledger_step`.
-/

/-- The broker gives a new grant an id of its own. -/
def GrantsFresh (s : State) : Event → Prop
  | .reply _ (.activated (.ok g)) => ∀ other ∈ s.issued, other.2.grantId ≠ g.grantId
  | _ => True

/-- `broker.release` succeeds. -/
def ReleaseSucceeds (s : State) : Event → Prop
  | .reply call (.settled (.error _)) => ∀ p, s.calls[call]? = some p → p.isReleasing = false
  | _ => True

/-- A step of the gateway with such a broker. -/
def BrokerStep (s : State) (event : Event) (s' : State) : Prop :=
  s.step event = some s' ∧ GrantsFresh s event ∧ ReleaseSucceeds s event

/-- The entry records a grant that was issued, and its client was made for that grant. -/
def Backed (s : State) (e : ActiveServer) : Prop :=
  ∃ g, (e.client.call, g) ∈ s.issued ∧ e.grantId = g.grantId ∧ e.client.address = g.address

/-- What holds of one call. -/
structure Sound (s : State) (call : Nat) (p : Phase) : Prop where
  grant : ∀ g, p.grant = some g → (call, g) ∈ s.issued
  retired : ∀ e, p.retired = some e → Backed s e
  connected : p.connected = true → s.broker.isSome = true
  connecting : ∀ e, p ≠ .deactivateConnecting e

structure Ledger (s : State) : Prop where
  callsDistinct : (s.issued.map Prod.fst).Nodup
  idsDistinct : (s.issued.map fun issue => issue.2.grantId).Nodup
  /-- Grants are issued to calls that have asked for one. -/
  asked : ∀ call g, (call, g) ∈ s.issued → ∃ p, s.calls[call]? = some p ∧ p.early = false
  calls : ∀ call p, s.calls[call]? = some p → Sound s call p
  entries : ∀ name e, (name, e) ∈ s.active.entries → Backed s e
  broker : s.issued ≠ [] → s.broker.isSome = true

/-! ### Calls after a step -/

section Calls

variable {s s' : State} {call : Nat} {p p' q : Phase}

theorem getElem?_begin {other : Nat} (h : (s.begin p).calls[other]? = some q) :
    (other = s.calls.length ∧ q = p) ∨ s.calls[other]? = some q := by
  have h : (s.calls ++ [p])[other]? = some q := h
  rw [List.getElem?_append] at h
  split at h
  · exact .inr h
  · rename_i hlen
    rw [List.getElem?_singleton] at h
    split at h
    · exact .inl ⟨by omega, (Option.some.inj h).symm⟩
    · exact absurd h nofun

theorem getElem?_move {other : Nat} (h : (s.move call p').calls[other]? = some q) :
    (other = call ∧ q = p') ∨ (other ≠ call ∧ s.calls[other]? = some q) := by
  have h : (s.calls.set call p')[other]? = some q := h
  rw [List.getElem?_set] at h
  split at h
  · rename_i heq
    split at h
    · exact .inl ⟨heq.symm, (Option.some.inj h).symm⟩
    · exact absurd h nofun
  · rename_i hne
    exact .inr ⟨Ne.symm hne, h⟩

theorem getElem?_move_self (h : s.calls[call]? = some p) :
    (s.move call p').calls[call]? = some p' := by
  have hlt := (List.getElem?_eq_some_iff.mp h).1
  show (s.calls.set call p')[call]? = some p'
  rw [List.getElem?_set_self hlt]

theorem getElem?_move_of_ne {other : Nat} (hne : other ≠ call) :
    (s.move call p').calls[other]? = s.calls[other]? :=
  List.getElem?_set_ne (Ne.symm hne)

/-- A call that has asked for its grant still has after a step. -/
theorem asked_move (hp : s.calls[call]? = some p) (hearly : p'.early = true → p.early = true)
    {other : Nat} (h : ∃ q, s.calls[other]? = some q ∧ q.early = false) :
    ∃ q, (s.move call p').calls[other]? = some q ∧ q.early = false := by
  obtain ⟨q, hq, hlate⟩ := h
  by_cases heq : other = call
  · subst heq
    refine ⟨p', getElem?_move_self hp, ?_⟩
    rw [hp, Option.some.injEq] at hq
    subst hq
    cases he : p'.early with
    | false => rfl
    | true => rw [hearly he] at hlate; exact hlate
  · exact ⟨q, (getElem?_move_of_ne heq).trans hq, hlate⟩

theorem asked_begin {other : Nat} (h : ∃ q, s.calls[other]? = some q ∧ q.early = false) :
    ∃ q, (s.begin p).calls[other]? = some q ∧ q.early = false := by
  obtain ⟨q, hq, hlate⟩ := h
  exact ⟨q, List.getElem?_append_left (List.getElem?_eq_some_iff.mp hq).1 ▸ hq, hlate⟩

end Calls

theorem Backed.mono {s s' : State} {e : ActiveServer} (h : Backed s e)
    (hissued : s.issued ⊆ s'.issued) : Backed s' e := by
  obtain ⟨g, hmem, hid, haddress⟩ := h
  exact ⟨g, hissued hmem, hid, haddress⟩

theorem Sound.mono {s s' : State} {call : Nat} {p : Phase} (h : Sound s call p)
    (hissued : s.issued ⊆ s'.issued) (hbroker : s.broker.isSome = true → s'.broker.isSome = true) :
    Sound s' call p where
  grant g hg := hissued (h.grant g hg)
  retired e he := (h.retired e he).mono hissued
  connected hc := hbroker (h.connected hc)
  connecting := h.connecting

/-! ### Steps keep the ledger -/

namespace Ledger

variable {s t : State} {call : Nat} {p p' : Phase}

theorem init : Ledger State.init :=
  ⟨List.nodup_nil, List.nodup_nil, nofun, nofun, nofun, fun h => absurd rfl h⟩

/-- A call goes on, and meanwhile `s` became `t` without a new grant. -/
theorem move (h : Ledger s) (hp : s.calls[call]? = some p) (hcalls : t.calls = s.calls)
    (hissued : t.issued = s.issued) (hbroker : s.broker.isSome = true → t.broker.isSome = true)
    (hentries : ∀ name e, (name, e) ∈ t.active.entries → Backed s e)
    (hearly : p'.early = true → p.early = true) (hsound : Sound t call p') :
    Ledger (t.move call p') where
  callsDistinct := by
    show (t.issued.map Prod.fst).Nodup
    rw [hissued]
    exact h.callsDistinct
  idsDistinct := by
    show (t.issued.map _).Nodup
    rw [hissued]
    exact h.idsDistinct
  asked other g hg := by
    have hg : (other, g) ∈ t.issued := hg
    rw [hissued] at hg
    rw [← hcalls] at hp
    exact asked_move hp hearly (by rw [hcalls]; exact h.asked other g hg)
  calls other q hq := by
    show Sound (t.move call p') other q
    rcases getElem?_move hq with ⟨rfl, rfl⟩ | ⟨-, hold⟩
    · exact hsound.mono (fun _ => id) id
    · rw [hcalls] at hold
      exact (h.calls other q hold).mono (fun _ hmem => hissued ▸ hmem) hbroker
  entries name e he := (hentries name e he).mono fun _ hmem => hissued ▸ hmem
  broker hne := hbroker (h.broker (hissued ▸ hne))

theorem begin (h : Ledger s) (hcalls : t.calls = s.calls) (hissued : t.issued = s.issued)
    (hbroker : t.broker = s.broker)
    (hentries : ∀ name e, (name, e) ∈ t.active.entries → Backed s e)
    (hsound : Sound t s.calls.length p) : Ledger (t.begin p) where
  callsDistinct := by
    show (t.issued.map Prod.fst).Nodup
    rw [hissued]
    exact h.callsDistinct
  idsDistinct := by
    show (t.issued.map _).Nodup
    rw [hissued]
    exact h.idsDistinct
  asked other g hg := by
    have hg : (other, g) ∈ t.issued := hg
    rw [hissued] at hg
    exact asked_begin (by rw [hcalls]; exact h.asked other g hg)
  calls other q hq := by
    show Sound (t.begin p) other q
    rcases getElem?_begin hq with ⟨rfl, rfl⟩ | hold
    · rw [← hcalls] at hsound
      exact hsound.mono (fun _ => id) id
    · rw [hcalls] at hold
      exact (h.calls other q hold).mono (fun _ hmem => hissued ▸ hmem) (by rw [← hbroker]; exact id)
  entries name e he := (hentries name e he).mono fun _ hmem => hissued ▸ hmem
  broker hne := by
    show t.broker.isSome = true
    rw [hbroker]
    exact h.broker (hissued ▸ hne)

/-- A grant is issued to a call that has not been given one. -/
theorem issue (h : Ledger s) {name : JsString} {broker : Nat} {g : Grant}
    (hp : s.calls[call]? = some (.activating name broker))
    (hfresh : ∀ other ∈ s.issued, other.2.grantId ≠ g.grantId) :
    Ledger ({ s with issued := s.issued ++ [(call, g)] }.move call
      (.connectingClient name broker g)) where
  callsDistinct := by
    show ((s.issued ++ [(call, g)]).map Prod.fst).Nodup
    rw [List.map_append]
    refine List.nodup_append.mpr ⟨h.callsDistinct, List.nodup_singleton call, fun a ha b hb => ?_⟩
    rintro rfl
    obtain rfl := List.mem_singleton.mp hb
    obtain ⟨⟨_, g'⟩, hmem, rfl⟩ := List.mem_map.mp ha
    -- the call is still asking
    obtain ⟨q, hq, hlate⟩ := h.asked _ g' hmem
    rw [hp, Option.some.injEq] at hq
    subst hq
    exact absurd hlate nofun
  idsDistinct := by
    show ((s.issued ++ [(call, g)]).map _).Nodup
    rw [List.map_append]
    refine List.nodup_append.mpr ⟨h.idsDistinct, List.nodup_singleton g.grantId, fun a ha b hb => ?_⟩
    rintro rfl
    obtain ⟨other, hmem, hid⟩ := List.mem_map.mp ha
    exact hfresh other hmem (hid.trans (List.mem_singleton.mp hb))
  asked other g' hg' := by
    rcases List.mem_append.mp hg' with hold | hnew
    · exact asked_move hp (fun _ => rfl) (h.asked other g' hold)
    · obtain ⟨rfl, rfl⟩ := Prod.mk.inj (List.mem_singleton.mp hnew)
      exact ⟨_, getElem?_move_self hp, rfl⟩
  calls other q hq := by
    rcases getElem?_move hq with ⟨rfl, rfl⟩ | ⟨-, hold⟩
    · refine ⟨fun g' hg' => ?_, nofun, nofun, nofun⟩
      obtain rfl := Option.some.inj hg'
      exact List.mem_append_right _ (List.mem_singleton_self _)
    · exact (h.calls other q hold).mono (fun _ => List.mem_append_left _) id
  entries name e he := (h.entries name e he).mono fun _ => List.mem_append_left _
  broker _ := (h.calls call _ hp).connected rfl

end Ledger

theorem ledger_step {s s' : State} {event : Event} (h : Ledger s) (hs : Change s event s')
    (hfresh : GrantsFresh s event) : Ledger s' := by
  cases hs with
  | @begun r p hearly hbroker =>
    refine h.begin rfl rfl rfl h.entries ⟨?_, ?_, hbroker, ?_⟩ <;> cases p <;> simp at hearly ⊢
  | retired name he =>
    refine h.begin rfl rfl rfl (fun n e' hmem => h.entries n e' (JsMap.mem_delete.mp hmem).2)
      ⟨nofun, fun e' he' => ?_, nofun, nofun⟩
    obtain rfl := Option.some.inj he'
    exact h.entries name _ (JsMap.get_eq_some.mp he)
  | @moved call r p p' broker hp keeps hbroker hconnected hconnecting =>
    have hsound := h.calls call p hp
    refine h.move hp rfl rfl hbroker h.entries keeps.early
      ⟨fun g hg => hsound.grant g (keeps.grant g hg),
        fun e he => hsound.retired e (keeps.retired e he), fun hc => ?_, fun e he => ?_⟩
    · exact (hconnected hc).elim (fun hpc => hbroker (hsound.connected hpc)) id
    · -- an entry was recorded, so there has been a connection ever since
      obtain ⟨g, hmem, -⟩ := hsound.retired e (keeps.retired e (by rw [he]; rfl))
      have hsome := h.broker (List.ne_nil_of_mem hmem)
      rw [hconnecting e he] at hsome
      exact absurd hsome nofun
  | issued call hp => exact h.issue hp hfresh
  | @recorded call tools name broker g hp =>
    have hg : (call, g) ∈ s.issued := (h.calls call _ hp).grant g rfl
    refine h.move hp rfl rfl id (fun n e he => ?_) nofun ⟨fun g' hg' => ?_, nofun, nofun, nofun⟩
    · rcases JsMap.mem_set.mp he with ⟨-, rfl⟩ | ⟨-, hold⟩
      · exact ⟨g, hg, rfl, rfl⟩
      · exact h.entries n e hold
    · obtain rfl := Option.some.inj hg'
      exact hg
  | @failed call r p name message broker g hp hgrant _ =>
    refine h.move hp rfl rfl id h.entries nofun ⟨fun g' hg' => ?_, nofun, nofun, nofun⟩
    obtain rfl := Option.some.inj hg'
    exact (h.calls call p hp).grant g hgrant
  | @released call result p p' grantId hp _ _ hearly hgrant hretired _ =>
    refine h.move hp (State.release_calls ..) (State.release_issued ..)
      (by rw [State.release_broker]; exact id)
      (fun n e he => h.entries n e (State.release_active s grantId result ▸ he))
      (by rw [hearly]; exact nofun) ⟨?_, ?_, ?_, ?_⟩
    · rw [hgrant]
      exact nofun
    · rw [hretired]
      exact nofun
    · cases p' <;> simp at hearly ⊢
    · rintro e rfl
      exact absurd hretired nofun
  | abandoned call r hp => exact absurd rfl ((h.calls call _ hp).connecting _)

end McpLocator.Gateway
