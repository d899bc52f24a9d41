import McpLocator.Gateway.Answered

namespace McpLocator.Gateway

open Js Json Transition

/-!
# The gateway and the broker agree on the grants

* `Told` — what the gateway knows of a grant is what some answer told it.
* `Shadowed` — the gateway as if every release had succeeded; a release fails only if there is nothing
  to release any more.
* `Attached.Joined` — what holds of the parties together; `Attached.agreed_step`.
* `grants_agree` — an entry of the gateway is for a grant that the broker announced to it, and when no
  tool call is in flight the broker has no other grants for the gateway.
-/

/-! ### What an answer tells the gateway -/

section Outcomes

variable {name : JsString} {c : Nat}

/-- A member of an object that the broker writes. -/
theorem property_received {members : List (String × Value)} (h : (members.map Prod.fst).Nodup)
    (key : String) : JsValue.property key (Client.received (Serde.ofMembers members)) =
      (members.lookup key).map Client.received := by
  let sorted := sortMembers id members
  have hdocument : (Serde.ofMembers members).document =
      .object ((sorted.map fun m => (m.1, m.2.document)).map fun m => (pointsOf m.1, m.2)) := by
    rw [List.map_map]
    show Document.object _ = _
    rw [Value.documentMembers_eq]
    rfl
  have hnodup : ((sorted.map fun m => (m.1, m.2.document)).map Prod.fst).Nodup := by
    rw [List.map_map]
    exact ((sortMembers_perm id members).map Prod.fst).nodup_iff.mpr h
  rw [Client.received, hdocument, Client.assign_fields _ hnodup, Client.property_fields,
    Value.lookup_map_snd (fun _ => Value.document), lookup_sortMembers_self id h, Option.map_map]
  rfl

/-- What an activation settles with that was announced. -/
theorem settle_announced (request : JsonValue) (id : String) (connection : Broker.ConnectionInfo) :
    (Phase.activating name c).settle (Client.responseOutcome
      (.ok request (Broker.ActivateResult.serialize ⟨id, connection⟩))) =
      some (.activated (.ok ⟨ofString id, ofString connection.address⟩)) := by
  have hstring : ∀ s : String, Client.received (.string s) = .string (ofString s) := Client.assign_text
  have hconnection : (Broker.ActivateResult.serialize ⟨id, connection⟩) = Serde.ofMembers
      [("grantId", .string id), ("connection", Serde.ofMembers
        [("type", .string connection.transport), ("address", .string connection.address)])] := rfl
  show ((some (Client.received _)).bind grantOf).map _ = _
  rw [Option.bind_some, hconnection, grantOf, property_received (by simp), property_received (by simp)]
  simp [List.lookup_cons, property_received, hstring]

/-- What an activation settles with that was refused. -/
theorem settle_refused {r : Proto.Response} (h : r.error.isSome = true) :
    ∃ e, (Phase.activating name c).settle (Client.responseOutcome r) = some (.activated (.error e)) := by
  obtain ⟨e, he⟩ := Option.isSome_iff_exists.mp h
  rw [Client.responseOutcome, he]
  exact ⟨_, rfl⟩

/-- What a release settles with. -/
theorem settle_releasing {p : Phase} (h : p.isReleasing = true) (outcome : Client.Outcome) :
    ∃ result, p.settle outcome = some (.settled result) := by
  cases p <;> simp at h <;> cases outcome <;> exact ⟨_, rfl⟩

end Outcomes

/-! ### What the gateway was told -/

/-- What the gateway knows of grants comes from `C`: calls, names and what they were given. -/
structure Told (C : Nat → JsString → Grant → Prop) (s : State) : Prop where
  issued : ∀ call g, (call, g) ∈ s.issued → ∃ name, C call name g
  phases : ∀ call p name g, s.calls[call]? = some p → p.granted = some name → p.grant = some g →
    C call name g
  entries : ∀ name e, (name, e) ∈ s.active.entries →
    e.name = name ∧ C e.client.call name ⟨e.grantId, e.client.address⟩

theorem Told.mono {C C' : Nat → JsString → Grant → Prop} {s : State} (h : Told C s)
    (hC : ∀ call name g, C call name g → C' call name g) : Told C' s where
  issued call g hg := by
    obtain ⟨name, hname⟩ := h.issued call g hg
    exact ⟨name, hC call name g hname⟩
  phases call p name g hp hname hg := hC call name g (h.phases call p name g hp hname hg)
  entries name e he := (h.entries name e he).imp_right (hC _ _ _)

theorem Told.init (C : Nat → JsString → Grant → Prop) : Told C .init := ⟨nofun, nofun, nofun⟩

/-- **A step of the gateway adds nothing that it was not told.** -/
theorem Told.change {C : Nat → JsString → Grant → Prop} {s s' : State} {event : Event} (h : Told C s)
    (hs : Change s event s')
    (hnew : ∀ call name broker g, event = .reply call (.activated (.ok g)) →
      s.calls[call]? = some (.activating name broker) → C call name g) : Told C s' := by
  have of_move : ∀ {t : State} {call : Nat} {p' : Phase}, t.calls = s.calls →
      t.issued = s.issued → t.active = s.active →
      (∀ name g, p'.granted = some name → p'.grant = some g → C call name g) →
      Told C (t.move call p') := by
    intro t call p' hcalls hissued hactive hphase
    refine ⟨fun k g hg => h.issued k g (hissued ▸ hg), fun k p name g hp hname hg => ?_,
      fun name e he => h.entries name e (hactive ▸ he)⟩
    rcases getElem?_move hp with ⟨rfl, rfl⟩ | ⟨-, hold⟩
    · exact hphase name g hname hg
    · exact h.phases k p name g (hcalls ▸ hold) hname hg
  have of_begin : ∀ {t : State} {p' : Phase}, t.calls = s.calls → t.issued = s.issued →
      (∀ name e, (name, e) ∈ t.active.entries → (name, e) ∈ s.active.entries) →
      p'.granted = none → Told C (t.begin p') := by
    intro t p' hcalls hissued hactive hphase
    refine ⟨fun k g hg => h.issued k g (hissued ▸ hg), fun k p name g hp hname hg => ?_,
      fun name e he => h.entries name e (hactive name e he)⟩
    rcases getElem?_begin hp with ⟨-, rfl⟩ | hold
    · exact absurd (hphase.symm.trans hname) nofun
    · exact h.phases k p name g (hcalls ▸ hold) hname hg
  cases hs with
  | @begun r p hearly hbroker =>
    refine of_begin rfl rfl (fun _ _ => id) ?_
    cases p <;> simp at hearly ⊢
  | retired name he => exact of_begin rfl rfl (fun _ _ hmem => (JsMap.mem_delete.mp hmem).2) rfl
  | @moved call r p p' broker hp keeps =>
    exact of_move rfl rfl rfl fun name g hname hg =>
      h.phases call p name g hp (keeps.granted name hname) (keeps.grant g hg)
  | @issued call name broker g hp =>
    have htold := hnew call name broker g rfl hp
    refine ⟨fun k g' hg' => ?_, fun k p name' g' hk hname hg' => ?_, h.entries⟩
    · rcases List.mem_append.mp hg' with hold | hg'
      · exact h.issued k g' hold
      · obtain ⟨rfl, rfl⟩ := Prod.mk.inj (List.mem_singleton.mp hg')
        exact ⟨name, htold⟩
    · rcases getElem?_move hk with ⟨rfl, rfl⟩ | ⟨-, hold⟩
      · obtain rfl := Option.some.inj hname
        obtain rfl := Option.some.inj hg'
        exact htold
      · exact h.phases k p name' g' hold hname hg'
  | @recorded call tools name broker g hp =>
    have htold := h.phases call _ name g hp rfl rfl
    refine ⟨h.issued, fun k p name' g' hk hname hg' => ?_, fun name' e he => ?_⟩
    · rcases getElem?_move hk with ⟨rfl, rfl⟩ | ⟨-, hold⟩
      · exact absurd hname nofun
      · exact h.phases k p name' g' hold hname hg'
    · rcases JsMap.mem_set.mp he with ⟨rfl, rfl⟩ | ⟨-, hold⟩
      · exact ⟨rfl, htold⟩
      · exact h.entries name' e hold
  | failed => exact of_move rfl rfl rfl fun _ _ hname => absurd hname nofun
  | released call result hp hreleasing hdiscards hearly hgrant =>
    refine of_move (State.release_calls ..) (State.release_issued ..) (State.release_active ..) ?_
    exact fun name g hname hg => absurd (hgrant.symm.trans hg) nofun
  | abandoned => exact of_move rfl rfl rfl fun _ _ hname => absurd hname nofun

/-- A call that was not replied to is where it was. -/
theorem Change.getElem?_calls {s s' : State} {event : Event} (hs : Change s event s') {call : Nat}
    {p : Phase} (hp : s.calls[call]? = some p) (hne : ∀ r, event ≠ .reply call r) :
    s'.calls[call]? = some p := by
  have of_begin : ∀ {t : State} {p' : Phase}, t.calls = s.calls →
      (t.begin p').calls[call]? = some p := by
    intro t p' hcalls
    show (t.calls ++ [p'])[call]? = some p
    rw [hcalls, List.getElem?_append_left (List.getElem?_eq_some_iff.mp hp).1, hp]
  have of_move : ∀ {t : State} {k : Nat} {p' : Phase} {r : Reply}, event = .reply k r →
      t.calls = s.calls → (t.move k p').calls[call]? = some p := by
    intro t k p' r hevent hcalls
    have hother : call ≠ k := by
      rintro rfl
      exact hne r hevent
    rw [getElem?_move_of_ne hother, hcalls, hp]
  cases hs with
  | begun | retired => exact of_begin rfl
  | moved | issued | recorded | failed | abandoned => exact of_move rfl rfl
  | released => exact of_move rfl (State.release_calls ..)

theorem Change.issued_subset {s s' : State} {event : Event} (hs : Change s event s') :
    s.issued ⊆ s'.issued := by
  cases hs with
  | begun | retired | moved | recorded | failed | abandoned => exact fun _ => id
  | issued => exact fun _ => List.mem_append_left _
  | released => exact fun _ hmem => (State.release_issued ..).symm ▸ hmem

/-- A grant that is returned is issued. -/
theorem mem_issued_of_step {s s' : State} {call broker : Nat} {name : JsString} {g : Grant}
    (hp : s.calls[call]? = some (.activating name broker))
    (hs : s.step (.reply call (.activated (.ok g))) = some s') : (call, g) ∈ s'.issued := by
  change (s.calls[call]?).bind _ = some s' at hs
  rw [hp] at hs
  obtain rfl := Option.some.inj hs
  exact List.mem_append_right _ (List.mem_singleton_self _)

/-! ### Releases that fail -/

/-- A run that overwrites nothing leads here if releases are taken to succeed; what was taken to be
    released then is `gone`. -/
def Shadowed (gone : JsString → Prop) (s : State) : Prop :=
  ∃ events released, Run KeptStep .init events { s with released } ∧ ∀ id ∈ released, gone id

/-- What was released before does not matter to a new call, -/
theorem activateCall_released (s : State) (released : List JsString) (name : JsString) :
    ({ s with released } : State).activateCall name = { s.activateCall name with released } := by
  obtain ⟨broker, active, calls, issued, _, closed⟩ := s
  unfold State.activateCall
  split
  · rfl
  · split
    · rfl
    · cases broker <;> rfl

theorem deactivateCall_released (s : State) (released : List JsString) (name : JsString) :
    ({ s with released } : State).deactivateCall name = { s.deactivateCall name with released } := by
  unfold State.deactivateCall
  dsimp only
  cases s.active.get name <;> rfl

/-- nor to one that goes on. -/
theorem advance_other {s s' : State} {call : Nat} {p : Phase} {r : Reply} (released : List JsString)
    (hno : p.isReleasing = false) (h : s.advance call p r = some s') :
    ({ s with released } : State).advance call p r = some { s' with released } := by
  obtain ⟨broker, active, calls, issued, _, closed⟩ := s
  unfold State.advance at h
  split at h
  all_goals cases h
  all_goals first
    | rfl
    | (cases broker <;> rfl)
    | exact absurd hno nofun

/-- A release goes on as if it had succeeded, whatever it settles with. -/
theorem advance_releasing {s s' : State} {call : Nat} {p : Phase} {r : Reply}
    (released : List JsString) (hreleasing : p.isReleasing = true)
    (h : s.advance call p r = some s') : ∃ result id, r = .settled result ∧ p.discards = some id ∧
      ({ s with released } : State).advance call p (.settled (.ok ())) =
        some { s' with released := id :: released } := by
  have of_settled : ∀ {id : JsString} {p' : Phase} {result : Except JsString Unit},
      (s.release id result).move call p' = s' →
      some (({ s with released := id :: released } : State).move call p') =
        some { s' with released := id :: released } := by
    intro id p' result hs'
    subst hs'
    cases result <;> rfl
  cases p with
  | releasing name broker grant message =>
    cases r with
    | settled result => exact ⟨result, grant.grantId, rfl, rfl, of_settled (Option.some.inj h)⟩
    | connected | resumed | activated | listed => exact absurd h nofun
  | deactivateReleasing active broker =>
    cases r with
    | settled result => exact ⟨result, active.grantId, rfl, rfl, of_settled (Option.some.inj h)⟩
    | connected | resumed | activated | listed => exact absurd h nofun
  | connecting | resuming | activating | connectingClient | listing | notifying | closing
    | deactivateClosing | deactivateConnecting | deactivateResuming | deactivateNotifying
    | finished => exact absurd hreleasing nofun

theorem Shadowed.accounted {gone : JsString → Prop} {s : State} (h : Shadowed gone s) :
    ∃ released, (∀ id ∈ released, gone id) ∧ Ledger { s with released } ∧
      Accounted { s with released } := by
  obtain ⟨events, released, hrun, hall⟩ := h
  exact ⟨released, hall, accounted_of_reached hrun⟩

theorem Shadowed.mono {gone gone' : JsString → Prop} {s : State} (h : Shadowed gone s)
    (hgone : ∀ id, gone id → gone' id) : Shadowed gone' s := by
  obtain ⟨events, released, hrun, hall⟩ := h
  exact ⟨events, released, hrun, fun id hid => hgone id (hall id hid)⟩

theorem Shadowed.step {gone : JsString → Prop} {s s' : State} {event : Event}
    (h : Shadowed gone s) (hs : s.step event = some s') (hfresh : GrantsFresh s event)
    (hover : NotOverwriting s event)
    (hgone : ∀ call p result id, event = .reply call (.settled result) → s.calls[call]? = some p →
      p.isReleasing = true → p.discards = some id → gone id) : Shadowed gone s' := by
  obtain ⟨events, released, hrun, hall⟩ := h
  cases event with
  | request r =>
    have hafter : ({ s with released } : State).step (.request r) = some { s' with released } := by
      cases r with
      | activate name =>
        obtain rfl := Option.some.inj hs
        exact congrArg some (activateCall_released s released name)
      | deactivate name =>
        obtain rfl := Option.some.inj hs
        exact congrArg some (deactivateCall_released s released name)
    have hkept : KeptStep { s with released } (.request r) { s' with released } :=
      ⟨⟨hafter, trivial, trivial⟩, trivial⟩
    exact ⟨_, released, hrun.snoc hkept, hall⟩
  | reply call r =>
    obtain ⟨p, hp, hadvance⟩ := Option.bind_eq_some_iff.mp hs
    have hstep : ∀ r', ({ s with released } : State).step (.reply call r') =
        ({ s with released } : State).advance call p r' := by
      intro r'
      show Option.bind s.calls[call]? _ = _
      rw [hp]
      rfl
    cases hreleasing : p.isReleasing with
    | false =>
      have hsucceeds : ReleaseSucceeds { s with released } (.reply call r) := by
        unfold ReleaseSucceeds
        split
        · rename_i heq
          obtain ⟨rfl, -⟩ := Event.reply.inj heq
          intro p' hp'
          obtain rfl := Option.some.inj (hp.symm.trans hp')
          exact hreleasing
        · trivial
      have hkept : KeptStep { s with released } (.reply call r) { s' with released } :=
        ⟨⟨(hstep r).trans (advance_other released hreleasing hadvance), hfresh, hsucceeds⟩, hover⟩
      exact ⟨_, released, hrun.snoc hkept, hall⟩
    | true =>
      obtain ⟨result, id, rfl, hid, hafter⟩ := advance_releasing released hreleasing hadvance
      have hkept : KeptStep { s with released } (.reply call (.settled (.ok ())))
          { s' with released := id :: released } := ⟨⟨(hstep _).trans hafter, trivial, trivial⟩, trivial⟩
      refine ⟨_, id :: released, hrun.snoc hkept, fun i hi => ?_⟩
      rcases List.mem_cons.mp hi with rfl | hi
      · exact hgone call p result i rfl hp hreleasing hid
      · exact hall i hi

/-! ### The parties together -/

/-- The tool call waits for the call at `i`, which has not been answered. -/
def Link.Awaits (link : Link) (i call : Nat) (request : Client.Call) : Prop :=
  link.heard ≤ i ∧ ∃ id, link.asked[i]? = some ⟨some call, id, request⟩

namespace Attached

/-- An answer that has come to the gateway announces the grant to the tool call. -/
inductive Came (s : Attached) : Nat → JsString → Grant → Prop where
  | intro {c : Nat} {link : Link} {i call aid : Nat} {name : JsString} {request : JsonValue}
      {id : String} {connection : Broker.ConnectionInfo} (opened : s.links c = some link)
      (heard : i < link.heard) (asked : link.asked[i]? = some ⟨some call, aid, activateCall name⟩)
      (answered : (s.broker.answers c)[i]? =
        some (.ok request (Broker.ActivateResult.serialize ⟨id, connection⟩))) :
      s.Came call name ⟨ofString id, ofString connection.address⟩

/-- The grant is not there any more. -/
def Gone (s : Attached) (grantId : JsString) : Prop := ∃ id, grantId = ofString id ∧ s.broker.Gone id

/-- Whatever has been asked, answered and heard in `s` has been in `s'`. -/
structure Later (s s' : Attached) : Prop where
  links : ∀ c link, s.links c = some link → ∃ link', s'.links c = some link' ∧
    link.heard ≤ link'.heard ∧ ∀ (i : Nat) (a : Asked), link.asked[i]? = some a →
      link'.asked[i]? = some a
  answers : ∀ c (i : Nat) r, (s.broker.answers c)[i]? = some r → (s'.broker.answers c)[i]? = some r
  gone : ∀ id, s.broker.Gone id → s'.broker.Gone id

theorem Later.trans {s t u : Attached} (h : s.Later t) (h' : t.Later u) : s.Later u := by
  refine ⟨fun c link hlink => ?_, fun c i r hr => h'.answers c i r (h.answers c i r hr),
    fun id hid => h'.gone id (h.gone id hid)⟩
  obtain ⟨link', hlink', hheard, hasked⟩ := h.links c link hlink
  obtain ⟨link'', hlink'', hheard', hasked'⟩ := h'.links c link' hlink'
  exact ⟨link'', hlink'', hheard.trans hheard', fun i a ha => hasked' i a (hasked i a ha)⟩

theorem Came.later {s s' : Attached} {call : Nat} {name : JsString} {g : Grant}
    (h : s.Came call name g) (hlater : s.Later s') : s'.Came call name g := by
  obtain ⟨hlink, hheard, hasked, hanswered⟩ := h
  obtain ⟨link', hlink', hle, hold⟩ := hlater.links _ _ hlink
  exact ⟨hlink', hheard.trans_le hle, hold _ _ hasked, hlater.answers _ _ _ hanswered⟩

/-- What holds of the parties, but for the answer that is just being heard. -/
structure Joined (float : Literal → Option FloatText) (describe : List Char → String)
    (s : Attached) : Prop where
  held : s.broker.LockHeld
  accounts : s.broker.Accounts
  wired : ∀ c link, s.links c = some link → Wired float describe s.broker c link
  /-- What a tool call waits for is what its phase says, -/
  pending : ∀ c link i call request, s.links c = some link → link.Awaits i call request →
    (s.gateway.calls[call]?).bind Phase.call = some (c, request)
  /-- and it waits for nothing else. -/
  single : ∀ c link i i' call request request', s.links c = some link →
    link.Awaits i call request → link.Awaits i' call request' → i = i'
  told : Told s.Came s.gateway
  shadowed : Shadowed s.Gone s.gateway

/-- The gateway has been given every grant that it has heard of. -/
def Heeded (s : Attached) : Prop :=
  ∀ c link i id, s.links c = some link → i < link.heard → s.broker.Announces c i id →
    ∃ issue ∈ s.gateway.issued, issue.2.grantId = ofString id

theorem setLink_eq {s : Attached} {c c' : Nat} {link link' : Link}
    (h : (s.setLink c link).links c' = some link') :
    (c' = c ∧ link' = link) ∨ (c' ≠ c ∧ s.links c' = some link') := by
  change Function.update s.links c (some link) c' = some link' at h
  by_cases hc : c' = c
  · subst hc
    rw [Function.update_self] at h
    exact .inl ⟨rfl, (Option.some.inj h).symm⟩
  · rw [Function.update_of_ne hc] at h
    exact .inr ⟨hc, h⟩

theorem setLink_self (s : Attached) (c : Nat) (link : Link) :
    (s.setLink c link).links c = some link := Function.update_self ..

/-- What is written when a tool call has entered its phase. -/
theorem push_eq (s : Attached) (call : Nat) : s.push call = s ∨ ∃ p c request link,
    s.gateway.calls[call]? = some p ∧ p.call = some (c, request) ∧ s.links c = some link ∧
      s.push call = s.setLink c (link.send (some call) request) := by
  cases hphase : (s.gateway.calls[call]?).bind Phase.call with
  | none => exact .inl (by simp only [push, hphase])
  | some m =>
    obtain ⟨c, request⟩ := m
    obtain ⟨p, hp, hcall⟩ := Option.bind_eq_some_iff.mp hphase
    cases hlink : s.links c with
    | none => exact .inl (by simp only [push, hphase, hlink])
    | some link =>
      exact .inr ⟨p, c, request, link, hp, hcall, hlink, by simp only [push, hphase, hlink]⟩

/-- What changes when a tool call goes on. -/
theorem goOn_frame {s s' : Attached} {call : Nat} {r : Reply} (hs : s.goOn call r = some s') :
    s.gateway.step (.reply call r) = some s'.gateway ∧ s'.broker = s.broker ∧
      ∀ c link', s'.links c = some link' →
        ∃ link, s.links c = some link ∧ link'.heard = link.heard := by
  obtain ⟨gateway, hgateway, rfl⟩ := Option.map_eq_some_iff.mp hs
  rcases ({ s with gateway } : Attached).push_eq call with heq | ⟨p, c, request, link, -, -, hlink, heq⟩
  · rw [heq]
    exact ⟨hgateway, rfl, fun c link' hlink' => ⟨link', hlink', rfl⟩⟩
  · rw [heq]
    refine ⟨hgateway, rfl, fun c' link' hlink' => ?_⟩
    rcases setLink_eq hlink' with ⟨rfl, rfl⟩ | ⟨-, hold⟩
    · exact ⟨link, hlink, rfl⟩
    · exact ⟨link', hold, rfl⟩

/-- A connection goes on. -/
theorem later_setLink {s : Attached} {c : Nat} {link link' : Link} (hlink : s.links c = some link)
    (hheard : link.heard ≤ link'.heard)
    (hasked : ∀ (i : Nat) (a : Asked), link.asked[i]? = some a → link'.asked[i]? = some a) :
    s.Later (s.setLink c link') := by
  refine ⟨fun c' l hl => ?_, fun _ _ _ => id, fun _ => id⟩
  by_cases hc : c' = c
  · subst hc
    obtain rfl := Option.some.inj (hlink.symm.trans hl)
    exact ⟨link', s.setLink_self c' link', hheard, hasked⟩
  · exact ⟨l, (Function.update_of_ne hc ..).trans hl, le_rfl, fun _ _ => id⟩

/-- A step of the broker. -/
theorem later_broker {sha256 : List Char → String} {s : Attached} {broker : Broker.Broker}
    {event : Broker.Event} (hs : s.broker.step sha256 event = some broker) :
    s.Later { s with broker } :=
  ⟨fun _ link hlink => ⟨link, hlink, le_rfl, fun _ _ => id⟩,
    fun _ _ _ hr => Broker.Broker.getElem?_answers_step hs hr, fun _ h => h.step hs⟩

/-! ### Moves -/

namespace Joined

variable {sha256 : List Char → String} {float : Literal → Option FloatText}
  {describe : List Char → String} {rounded : Literal → Option Nat} {s s' : Attached}

/-- A connection or the broker goes on. -/
theorem rewired (h : s.Joined float describe) (hgateway : s'.gateway = s.gateway)
    (hlater : s.Later s') (held : s'.broker.LockHeld) (accounts : s'.broker.Accounts)
    (wired : ∀ c link, s'.links c = some link → Wired float describe s'.broker c link)
    (pending : ∀ c link i call request, s'.links c = some link → link.Awaits i call request →
      (s.gateway.calls[call]?).bind Phase.call = some (c, request))
    (single : ∀ c link i i' call request request', s'.links c = some link →
      link.Awaits i call request → link.Awaits i' call request' → i = i') :
    s'.Joined float describe := by
  refine ⟨held, accounts, wired, hgateway ▸ pending, single, ?_, ?_⟩
  · rw [hgateway]
    exact h.told.mono fun call name g hcame => hcame.later hlater
  · rw [hgateway]
    exact h.shadowed.mono fun grantId ⟨id, hid, hgone⟩ => ⟨id, hid, hlater.gone id hgone⟩

/-- The gateway goes on, with a call that waits for nothing. -/
theorem gateway (h : s.Joined float describe) {event : Event} {gateway : State}
    (hs : s.gateway.step event = some gateway) (hfresh : GrantsFresh s.gateway event)
    (hover : NotOverwriting s.gateway event)
    (hfree : ∀ call r, event = .reply call r → ∀ c link i request, s.links c = some link →
      ¬link.Awaits i call request)
    (hnew : ∀ call name broker g, event = .reply call (.activated (.ok g)) →
      s.gateway.calls[call]? = some (.activating name broker) → s.Came call name g)
    (hgone : ∀ call p result id, event = .reply call (.settled result) →
      s.gateway.calls[call]? = some p → p.isReleasing = true → p.discards = some id → s.Gone id) :
    ({ s with gateway } : Attached).Joined float describe := by
  have hlater : s.Later { s with gateway } :=
    ⟨fun c link hlink => ⟨link, hlink, le_rfl, fun _ _ => id⟩, fun _ _ _ => id, fun _ => id⟩
  have hchange := State.step_change hs
  refine ⟨h.held, h.accounts, h.wired, fun c link i call request hlink hawaits => ?_, h.single,
    (h.told.change hchange hnew).mono fun call name g hcame => hcame.later hlater,
    h.shadowed.step hs hfresh hover hgone⟩
  obtain ⟨p, hp, hcall⟩ := Option.bind_eq_some_iff.mp (h.pending c link i call request hlink hawaits)
  have hsame : gateway.calls[call]? = some p :=
    hchange.getElem?_calls hp fun r heq => hfree call r heq c link i request hlink hawaits
  show (gateway.calls[call]?).bind Phase.call = _
  rw [hsame]
  exact hcall

/-- A connection goes on that stays with the broker. -/
theorem setLink (h : s.Joined float describe) {c : Nat} {link link' : Link}
    (hlink : s.links c = some link) (hheard : link.heard ≤ link'.heard)
    (hasked : ∀ (i : Nat) (a : Asked), link.asked[i]? = some a → link'.asked[i]? = some a)
    (hwired : Wired float describe s.broker c link')
    (hpending : ∀ i call request, link'.Awaits i call request →
      (s.gateway.calls[call]?).bind Phase.call = some (c, request))
    (hsingle : ∀ i i' call request request', link'.Awaits i call request →
      link'.Awaits i' call request' → i = i') :
    (s.setLink c link').Joined float describe := by
  refine h.rewired rfl (later_setLink hlink hheard hasked) h.held h.accounts ?_ ?_ ?_
  · intro c' l hl
    rcases setLink_eq hl with ⟨rfl, rfl⟩ | ⟨-, hold⟩
    · exact hwired
    · exact h.wired c' l hold
  · intro c' l i call request hl
    rcases setLink_eq hl with ⟨rfl, rfl⟩ | ⟨-, hold⟩
    · exact hpending i call request
    · exact h.pending c' l i call request hold
  · intro c' l i i' call request request' hl
    rcases setLink_eq hl with ⟨rfl, rfl⟩ | ⟨-, hold⟩
    · exact hsingle i i' call request request'
    · exact h.single c' l i i' call request request' hold

/-- What came was announced by the broker. -/
theorem taken (h : s.Joined float describe) {call : Nat} {name : JsString} {g : Grant}
    (hcame : s.Came call name g) : ∃ id, s.broker.Taken id ∧ g.grantId = ofString id := by
  obtain ⟨-, -, -, hanswered⟩ := hcame
  exact ⟨_, h.accounts.taken _ _ _ ⟨_, _, hanswered⟩, rfl⟩

/-- What a tool call asks to be released was announced. -/
theorem releasable (h : s.Joined float describe) {call c : Nat} {p : Phase} {grantId : JsString}
    (hp : s.gateway.calls[call]? = some p) (hcall : p.call = some (c, releaseCall grantId)) :
    ∃ id, s.broker.Taken id ∧ grantId = ofString id := by
  obtain ⟨released, -, hledger, -⟩ := h.shadowed.accounted
  have hsound := hledger.calls call p hp
  have of_issued : ∀ {k : Nat} {g : Grant}, (k, g) ∈ s.gateway.issued → g.grantId = grantId →
      ∃ id, s.broker.Taken id ∧ grantId = ofString id := by
    intro k g hg hid
    obtain ⟨name, hcame⟩ := h.told.issued k g hg
    exact hid ▸ h.taken hcame
  cases p with
  | releasing name broker g message =>
    obtain ⟨-, heq⟩ := Prod.mk.inj (Option.some.inj hcall)
    exact of_issued (hsound.grant g rfl) (releaseCall_injective heq)
  | deactivateReleasing active broker =>
    obtain ⟨-, heq⟩ := Prod.mk.inj (Option.some.inj hcall)
    obtain ⟨g, hg, hid, -⟩ := hsound.retired active rfl
    exact of_issued hg (hid.symm.trans (releaseCall_injective heq))
  | activating name broker =>
    obtain ⟨-, heq⟩ := Prod.mk.inj (Option.some.inj hcall)
    exact absurd heq (activateCall_ne_releaseCall _ _)
  | connecting | resuming | connectingClient | listing | notifying | closing | deactivateClosing
    | deactivateConnecting | deactivateResuming | deactivateNotifying | finished =>
    exact absurd hcall nofun

/-- A call that a phase makes. -/
theorem made_of_call {call id c : Nat} {p : Phase} {request : Client.Call}
    (h : p.call = some (c, request)) : Made ⟨some call, id, request⟩ := by
  cases p with
  | activating | releasing | deactivateReleasing =>
    obtain ⟨-, rfl⟩ := Prod.mk.inj (Option.some.inj h)
    constructor
  | connecting | resuming | connectingClient | listing | notifying | closing | deactivateClosing
    | deactivateConnecting | deactivateResuming | deactivateNotifying | finished =>
    exact absurd h nofun

/-- What is asked once a call has been written. -/
theorem awaits_send {link : Link} {owner : Option Nat} {request request' : Client.Call}
    {i call : Nat} (h : (link.send owner request).Awaits i call request') :
    link.Awaits i call request' ∨ (i = link.asked.length ∧ owner = some call ∧ request' = request) := by
  obtain ⟨hheard, id, hat⟩ := h
  change (link.asked ++ [_])[i]? = _ at hat
  rw [List.getElem?_append] at hat
  split at hat
  · exact .inl ⟨hheard, id, hat⟩
  · rename_i hge
    rw [List.getElem?_singleton] at hat
    split at hat
    · obtain ⟨howner, -, hrequest⟩ := Asked.mk.inj (Option.some.inj hat)
      exact .inr ⟨by omega, howner, hrequest.symm⟩
    · exact absurd hat nofun

theorem getElem?_send {link : Link} {owner : Option Nat} {request : Client.Call} (i : Nat) (a : Asked)
    (h : link.asked[i]? = some a) : (link.send owner request).asked[i]? = some a := by
  show (link.asked ++ _)[i]? = some a
  rw [List.getElem?_append_left (List.getElem?_eq_some_iff.mp h).1, h]

/-- A call can be written if all can be after it. -/
theorem Legible.sent {c : Nat} {link : Link} {owner : Option Nat} {request : Client.Call}
    (h : (s.setLink c (link.send owner request)).Legible) :
    request.isWellFormed = true ∧ link.asked.length < 2 ^ 53 := by
  obtain ⟨hlength, hwell⟩ := h c _ (s.setLink_self c _)
  change (link.asked ++ [_]).length ≤ _ at hlength
  rw [List.length_append, List.length_singleton] at hlength
  exact ⟨hwell _ (List.mem_append_right _ (List.mem_singleton_self _)), hlength⟩

/-- The call that a tool call comes to is written. -/
theorem push (h : s.Joined float describe) {call : Nat} (hlegible : (s.push call).Legible)
    (hfree : ∀ c link i request, s.links c = some link → ¬link.Awaits i call request) :
    (s.push call).Joined float describe := by
  rcases s.push_eq call with heq | ⟨p, c, request, link, hp, hcall, hlink, heq⟩
  · rw [heq]
    exact h
  · rw [heq] at hlegible ⊢
    obtain ⟨hwell, hroom⟩ := Legible.sent hlegible
    have hwired : Wired float describe s.broker c (link.send (some call) request) :=
      (h.wired c link hlink).send (made_of_call hcall) hwell hroom
        fun grantId heq => h.releasable hp (heq ▸ hcall)
    refine h.setLink hlink le_rfl getElem?_send hwired (fun i call' request' hawaits => ?_)
      fun i i' call' r r' hawaits hawaits' => ?_
    · rcases awaits_send hawaits with hold | ⟨-, howner, rfl⟩
      · exact h.pending c link i call' request' hlink hold
      · obtain rfl := Option.some.inj howner
        rw [hp]
        exact hcall
    · rcases awaits_send hawaits with hold | ⟨rfl, howner, rfl⟩
      · rcases awaits_send hawaits' with hold' | ⟨rfl, howner, rfl⟩
        · exact h.single c link i i' call' r r' hlink hold hold'
        · obtain rfl := Option.some.inj howner
          exact absurd hold (hfree c link i r hlink)
      · obtain rfl := Option.some.inj howner
        rcases awaits_send hawaits' with hold' | ⟨rfl, -, -⟩
        · exact absurd hold' (hfree c link i' r' hlink)
        · rfl

/-- A tool call that waits for nothing goes on. -/
theorem goOn (h : s.Joined float describe) {call : Nat} {r : Reply} (hs : s.goOn call r = some s')
    (hlegible : s'.Legible) (hfresh : GrantsFresh s.gateway (.reply call r))
    (hover : NotOverwriting s.gateway (.reply call r))
    (hfree : ∀ c link i request, s.links c = some link → ¬link.Awaits i call request)
    (hnew : ∀ name broker g, r = .activated (.ok g) →
      s.gateway.calls[call]? = some (.activating name broker) → s.Came call name g)
    (hgone : ∀ p result id, r = .settled result → s.gateway.calls[call]? = some p →
      p.isReleasing = true → p.discards = some id → s.Gone id) : s'.Joined float describe := by
  obtain ⟨gateway, hgateway, rfl⟩ := Option.map_eq_some_iff.mp hs
  refine (h.gateway hgateway hfresh hover ?_ ?_ ?_).push hlegible hfree
  · intro k r' heq
    obtain ⟨rfl, -⟩ := Event.reply.inj heq
    exact hfree
  · intro k name broker g heq
    obtain ⟨rfl, hr⟩ := Event.reply.inj heq
    exact hnew name broker g hr
  · intro k p result id heq
    obtain ⟨rfl, hr⟩ := Event.reply.inj heq
    exact hgone p result id hr

/-- A tool call that waited for an answer has been given it. -/
theorem heeded_of_goOn {call : Nat} {r : Reply} (hs : s.goOn call r = some s')
    (h : ∀ c link i id, s.links c = some link → i < link.heard → s.broker.Announces c i id →
      ∃ issue ∈ s'.gateway.issued, issue.2.grantId = ofString id) : s'.Heeded := by
  obtain ⟨-, hbroker, hlinks⟩ := goOn_frame hs
  intro c link' i id hlink' hi ha
  obtain ⟨link, hlink, hheard⟩ := hlinks c link' hlink'
  exact h c link i id hlink (hheard ▸ hi) (hbroker ▸ ha)

theorem activating_of_call {p : Phase} {c : Nat} {name : JsString}
    (h : p.call = some (c, activateCall name)) : p = .activating name c := by
  cases p with
  | activating name' broker =>
    obtain ⟨rfl, heq⟩ := Prod.mk.inj (Option.some.inj h)
    rw [activateCall_injective heq]
  | releasing | deactivateReleasing =>
    obtain ⟨-, heq⟩ := Prod.mk.inj (Option.some.inj h)
    exact absurd heq.symm (activateCall_ne_releaseCall _ _)
  | connecting | resuming | connectingClient | listing | notifying | closing | deactivateClosing
    | deactivateConnecting | deactivateResuming | deactivateNotifying | finished =>
    exact absurd h nofun

theorem releasing_of_call {p : Phase} {c : Nat} {grantId : JsString}
    (h : p.call = some (c, releaseCall grantId)) :
    p.isReleasing = true ∧ p.discards = some grantId := by
  cases p with
  | activating =>
    obtain ⟨-, heq⟩ := Prod.mk.inj (Option.some.inj h)
    exact absurd heq (activateCall_ne_releaseCall _ _)
  | releasing | deactivateReleasing =>
    obtain ⟨-, heq⟩ := Prod.mk.inj (Option.some.inj h)
    exact ⟨rfl, congrArg some (releaseCall_injective heq)⟩
  | connecting | resuming | connectingClient | listing | notifying | closing | deactivateClosing
    | deactivateConnecting | deactivateResuming | deactivateNotifying | finished =>
    exact absurd h nofun

/-- **An answer comes to the gateway.** -/
theorem hear (h : s.Joined float describe) (hheeded : s.Heeded) (hlegible : s'.Legible) {c : Nat}
    (hs : s.step sha256 float describe rounded (.hear c) = some s') :
    s'.Joined float describe ∧ s'.Heeded := by
  obtain ⟨link, hlink, hs⟩ := Option.bind_eq_some_iff.mp hs
  obtain ⟨session, hsession, hs⟩ := Option.bind_eq_some_iff.mp hs
  have hwire := h.wired c link hlink
  obtain ⟨response, hresponse, hheard, hsettled, hwired⟩ := hwire.hear hsession
  rw [hheard] at hwired
  simp only [hsettled, hheard] at hs
  generalize hlink' : ({ link with client := session.client, heard := link.heard + 1 } : Link) = link'
    at hs hwired
  obtain ⟨a, ha⟩ : ∃ a, link.asked[link.heard]? = some a := by
    have hlt := (List.getElem?_eq_some_iff.mp hresponse).1
    exact ⟨_, List.getElem?_eq_getElem (hlt.trans_le hwire.answers_le)⟩
  have hawaits : ∀ i call request, link'.Awaits i call request →
      link.heard + 1 ≤ i ∧ link.Awaits i call request := by
    rintro i call request ⟨hle, hat⟩
    subst hlink'
    exact ⟨hle, Nat.le_of_succ_le hle, hat⟩
  have hafter : (s.setLink c link').Joined float describe := by
    refine h.setLink hlink ?_ ?_ hwired ?_ ?_
    · subst hlink'
      exact Nat.le_succ _
    · subst hlink'
      exact fun _ _ => id
    · exact fun i call request ha => h.pending c link i call request hlink (hawaits i call request ha).2
    · exact fun i i' call r r' ha ha' =>
        h.single c link i i' call r r' hlink (hawaits i call r ha).2 (hawaits i' call r' ha').2
  -- what was heard before, and what is heard now
  have hsplit : ∀ c' l i id, (s.setLink c link').links c' = some l → i < l.heard →
      s.broker.Announces c' i id → (∃ issue ∈ s.gateway.issued, issue.2.grantId = ofString id) ∨
        s.broker.Announces c link.heard id := by
    intro c' l i id hl hi hannounced
    rcases setLink_eq hl with ⟨rfl, rfl⟩ | ⟨-, hold⟩
    · subst hlink'
      rcases Nat.lt_succ_iff_lt_or_eq.mp hi with hi | rfl
      · exact .inl (hheeded _ link i id hlink hi hannounced)
      · exact .inr hannounced
    · exact .inl (hheeded c' l i id hold hi hannounced)
  have hnone : (∀ name, a.call ≠ activateCall name) → ∀ id, ¬s.broker.Announces c link.heard id := by
    intro hno id hannounced
    obtain ⟨call, aid, name, hat, -⟩ := hwire.announced _ id hannounced
    obtain rfl := Option.some.inj (ha.symm.trans hat)
    exact hno name rfl
  rw [ha, Option.bind_some] at hs
  have hmade := hwire.made a (List.mem_of_getElem? ha)
  cases howner : a.owner with
  | none =>
    rw [howner] at hs
    obtain rfl := Option.some.inj hs
    refine ⟨hafter, fun c' l i id hl hi hannounced => ?_⟩
    refine (hsplit c' l i id hl hi hannounced).resolve_right (hnone ?_ id)
    rintro name heq
    obtain ⟨call, aid, rfl⟩ := hmade.activation heq
    exact absurd howner nofun
  | some k =>
    rw [howner] at hs
    have hheld : link.Awaits link.heard k a.call := ⟨le_rfl, a.id, by rw [ha, ← howner]⟩
    obtain ⟨p, hp, hcall⟩ := Option.bind_eq_some_iff.mp (h.pending c link _ k a.call hlink hheld)
    have hfree : ∀ c' l i request, (s.setLink c link').links c' = some l →
        ¬l.Awaits i k request := by
      intro c' l i request hl ha'
      rcases setLink_eq hl with ⟨rfl, rfl⟩ | ⟨hne, hold⟩
      · obtain ⟨hle, hlater⟩ := hawaits i k request ha'
        have := h.single _ link i link.heard k request a.call hlink hlater hheld
        omega
      · have hother := h.pending c' l i k request hold ha'
        rw [hp, Option.bind_some, hcall] at hother
        exact hne (Prod.mk.inj (Option.some.inj hother)).1.symm
    obtain ⟨r, hr, hs⟩ := Option.bind_eq_some_iff.mp hs
    change (s.gateway.calls[k]?).bind _ = some r at hr
    rw [hp, Option.bind_some] at hr
    obtain ⟨hstep, -, -⟩ := goOn_frame hs
    have hissued : s.gateway.issued ⊆ s'.gateway.issued := (State.step_change hstep).issued_subset
    have hheeded' : (∀ id, s.broker.Announces c link.heard id →
        ∃ issue ∈ s'.gateway.issued, issue.2.grantId = ofString id) → s'.Heeded := by
      intro hnow
      refine heeded_of_goOn hs fun c' l i id hl hi hannounced => ?_
      rcases hsplit c' l i id hl hi hannounced with ⟨issue, hmem, hid⟩ | hannounced
      · exact ⟨issue, hissued hmem, hid⟩
      · exact hnow id hannounced
    obtain ⟨owner, id, request⟩ := a
    obtain rfl : owner = some k := howner
    cases hmade with
    | activate _ _ name =>
      obtain rfl := activating_of_call hcall
      rcases hwire.answered _ _ _ name ha hresponse rfl with
        hrefused | ⟨id, request, connection, hannounced⟩
      · obtain ⟨e, he⟩ := @settle_refused name c _ hrefused
        obtain rfl := Option.some.inj (he.symm.trans hr)
        refine ⟨hafter.goOn hs hlegible trivial trivial hfree nofun nofun, hheeded' ?_⟩
        rintro id ⟨request, connection, hok⟩
        obtain rfl := Option.some.inj (hresponse.symm.trans hok)
        exact absurd hrefused nofun
      · obtain rfl := Option.some.inj (hresponse.symm.trans hannounced)
        obtain rfl := Option.some.inj ((settle_announced request id connection).symm.trans hr)
        have hfresh : ∀ other ∈ s.gateway.issued, other.2.grantId ≠ ofString id := by
          rintro ⟨k', g'⟩ hg' hid
          obtain ⟨name', hopened, hearlier, -, hanswered⟩ := h.told.issued k' g' hg'
          obtain rfl := ofString_injective hid
          obtain ⟨rfl, rfl⟩ := h.accounts.once _ _ _ _ _ ⟨_, _, hanswered⟩ ⟨_, _, hresponse⟩
          obtain rfl := Option.some.inj (hlink.symm.trans hopened)
          exact absurd hearlier (lt_irrefl _)
        refine ⟨hafter.goOn hs hlegible hfresh trivial hfree (fun name' broker g heq hp' => ?_) nofun,
          hheeded' fun id' ⟨request', connection', hok⟩ => ?_⟩
        · obtain rfl := Except.ok.inj (Reply.activated.inj heq)
          obtain ⟨rfl, -⟩ := Phase.activating.inj (Option.some.inj (hp.symm.trans hp'))
          subst hlink'
          exact .intro (s.setLink_self c _) (Nat.lt_succ_self _) ha hresponse
        · have hsame := congrArg Broker.announced (Option.some.inj (hresponse.symm.trans hok))
          rw [Broker.announced_activated, Broker.announced_activated] at hsame
          obtain ⟨rfl, -⟩ := Prod.mk.inj (Option.some.inj hsame)
          exact ⟨_, mem_issued_of_step hp hstep, rfl⟩
    | release _ _ grantId =>
      obtain ⟨hreleasing, hdiscards⟩ := releasing_of_call hcall
      obtain ⟨result, hresult⟩ := settle_releasing hreleasing (Client.responseOutcome response)
      obtain rfl := Option.some.inj (hresult.symm.trans hr)
      refine ⟨hafter.goOn hs hlegible ?_ trivial hfree nofun fun p' result' id heq hp' _ hid => ?_,
        hheeded' fun id hannounced => absurd hannounced (hnone ?_ id)⟩
      · trivial
      · obtain rfl := Option.some.inj (hp.symm.trans hp')
        obtain rfl := Option.some.inj (hdiscards.symm.trans hid)
        have hmem := List.mem_of_getElem? ha
        obtain ⟨id, htaken, rfl⟩ := hwire.releasable _ hmem _ rfl
        have hlt := (List.getElem?_eq_some_iff.mp hresponse).1
        exact ⟨id, rfl, hwire.released _ _ id ha hlt rfl, htaken⟩
      · exact fun name heq => activateCall_ne_releaseCall _ _ heq.symm

/-- What a tool call awaits settles that is no call to the broker. -/
theorem reply (h : s.Joined float describe) (hlegible : s'.Legible) {call : Nat} {r : Reply}
    (hcall : (s.gateway.calls[call]?).bind Phase.call = none)
    (hno : ∀ g, r ≠ .activated (.ok g))
    (hover : NotOverwriting s.gateway (.reply call r)) (hs : s.goOn call r = some s') :
    s'.Joined float describe := by
  refine h.goOn hs hlegible ?_ hover ?_ (fun _ _ g heq => absurd heq (hno g)) ?_
  · unfold GrantsFresh
    split
    · rename_i g heq
      obtain ⟨-, heq⟩ := Event.reply.inj heq
      exact absurd heq (hno g)
    · trivial
  · intro c link i request hlink hawaits
    exact absurd ((h.pending c link i call request hlink hawaits).symm.trans hcall) nofun
  · intro p result id _ hp hreleasing
    rw [hp, Option.bind_some] at hcall
    cases p <;> simp at hreleasing <;> exact absurd hcall nofun

/-- A gateway that is given a connection was waiting for it. -/
theorem call_of_connected {call c : Nat} {gateway : State}
    (hs : s.gateway.step (.reply call (.connected (.ok c))) = some gateway) :
    (s.gateway.calls[call]?).bind Phase.call = none := by
  obtain ⟨p, hp, hadvance⟩ := Option.bind_eq_some_iff.mp hs
  rw [hp, Option.bind_some]
  cases p with
  | connecting | resuming | connectingClient | listing | notifying | closing | deactivateClosing
    | deactivateConnecting | deactivateResuming | deactivateNotifying | finished => rfl
  | activating | releasing | deactivateReleasing => exact absurd hadvance nofun

/-- A call is written that no tool call waits for. -/
theorem send (h : s.Joined float describe) {c : Nat} {link : Link} (hlink : s.links c = some link)
    (includeOrphaned : Bool)
    (hlegible : (s.setLink c (link.send none (listCall includeOrphaned))).Legible) :
    (s.setLink c (link.send none (listCall includeOrphaned))).Joined float describe := by
  obtain ⟨hwell, hroom⟩ := Legible.sent hlegible
  have hwired : Wired float describe s.broker c (link.send none (listCall includeOrphaned)) :=
    (h.wired c link hlink).send (.list _ includeOrphaned) hwell hroom
      fun grantId heq => absurd heq (listCall_ne_releaseCall _ _)
  have hawaits : ∀ i call request, (link.send none (listCall includeOrphaned)).Awaits i call request →
      link.Awaits i call request := by
    intro i call request ha
    rcases awaits_send ha with hold | ⟨-, howner, -⟩
    · exact hold
    · exact absurd howner nofun
  exact h.setLink hlink le_rfl getElem?_send hwired
    (fun i call request ha => h.pending c link i call request hlink (hawaits i call request ha))
    fun i i' call r r' ha ha' =>
      h.single c link i i' call r r' hlink (hawaits i call r ha) (hawaits i' call r' ha')

/-- A connection is made. -/
theorem dial (h : s.Joined float describe) {c : Nat} (hnew : s.links c = none)
    (hidle : s.broker.tasks c = .idle) (hfresh : s.broker.answers c = [])
    (hlegible : (s.setLink c (Link.start.send none handshakeCall)).Legible) :
    (s.setLink c (Link.start.send none handshakeCall)).Joined float describe := by
  obtain ⟨hwell, hroom⟩ := Legible.sent hlegible
  have hwired : Wired float describe s.broker c (Link.start.send none handshakeCall) :=
    (Wired.start h.held hidle hfresh).send (.handshake _) hwell hroom fun grantId heq =>
      absurd heq (ne_of_method "locator/handshake" "locator/release" rfl rfl (by decide))
  have hawaits : ∀ i call request, ¬(Link.start.send none handshakeCall).Awaits i call request := by
    intro i call request ha
    rcases awaits_send ha with ⟨-, id, hat⟩ | ⟨-, howner, -⟩
    · exact absurd hat nofun
    · exact absurd howner nofun
  have hlater : s.Later (s.setLink c (Link.start.send none handshakeCall)) := by
    refine ⟨fun c' l hl => ⟨l, ?_, le_rfl, fun _ _ => id⟩, fun _ _ _ => id, fun _ => id⟩
    have hne : c' ≠ c := by
      rintro rfl
      exact absurd (hnew.symm.trans hl) nofun
    exact (Function.update_of_ne hne ..).trans hl
  refine h.rewired rfl hlater h.held h.accounts ?_ ?_ ?_
  · intro c' l hl
    rcases setLink_eq hl with ⟨rfl, rfl⟩ | ⟨-, hold⟩
    · exact hwired
    · exact h.wired c' l hold
  · intro c' l i call request hl ha
    rcases setLink_eq hl with ⟨rfl, rfl⟩ | ⟨-, hold⟩
    · exact absurd ha (hawaits i call request)
    · exact h.pending c' l i call request hold ha
  · intro c' l i i' call request request' hl ha
    rcases setLink_eq hl with ⟨rfl, rfl⟩ | ⟨-, hold⟩
    · exact absurd ha (hawaits i call request)
    · exact h.single c' l i i' call request request' hold ha

/-- The broker goes on, and reads from no connection of the gateway. -/
theorem broker (h : s.Joined float describe) {event : Broker.Event} {broker : Broker.Broker}
    (hs : s.broker.step sha256 event = some broker)
    (hreads : ∀ c link, s.links c = some link → event.reads c = false) :
    ({ s with broker } : Attached).Joined float describe :=
  h.rewired rfl (later_broker hs) (h.held.step hs) (h.accounts.step hs)
    (fun c link hlink => (h.wired c link hlink).other h.accounts hs (hreads c link hlink))
    h.pending h.single

/-- The broker reads from a connection of the gateway. -/
theorem serve (h : s.Joined float describe) {c : Nat} {link : Link} {registry : Broker.Registry}
    {conn : Broker.Connection} (hlink : s.links c = some link)
    (hs : (link.session s.broker).conn.step sha256 float describe c (.next registry) = some conn) :
    (({ s with broker := conn.broker } : Attached).setLink c
      { link with unread := conn.unread, read := conn.read }).Joined float describe := by
  obtain ⟨hwired, hbroker⟩ := (h.wired c link hlink).serve h.accounts hs
  have hlater : s.Later { s with broker := conn.broker } := by
    rcases hbroker with heq | ⟨event, -, hstep⟩
    · rw [heq]
      exact ⟨fun _ link hlink => ⟨link, hlink, le_rfl, fun _ _ => id⟩, fun _ _ _ => id, fun _ => id⟩
    · exact later_broker hstep
  have hkept : conn.broker.LockHeld ∧ conn.broker.Accounts ∧ ∀ c' l, c' ≠ c → s.links c' = some l →
      Wired float describe conn.broker c' l := by
    rcases hbroker with heq | ⟨event, hreads, hstep⟩
    · rw [heq]
      exact ⟨h.held, h.accounts, fun c' l _ => h.wired c' l⟩
    · refine ⟨h.held.step hstep, h.accounts.step hstep, fun c' l hne hl => ?_⟩
      exact (h.wired c' l hl).other h.accounts hstep (Broker.Event.reads_of_ne hreads hne)
  refine h.rewired rfl (hlater.trans (later_setLink hlink le_rfl fun _ _ => id)) hkept.1 hkept.2.1 ?_ ?_ ?_
  · intro c' l hl
    rcases setLink_eq hl with ⟨rfl, rfl⟩ | ⟨hne, hold⟩
    · exact hwired
    · exact hkept.2.2 c' l hne hold
  · intro c' l i call request hl ha
    rcases setLink_eq hl with ⟨rfl, rfl⟩ | ⟨-, hold⟩
    · exact h.pending _ link i call request hlink ha
    · exact h.pending c' l i call request hold ha
  · intro c' l i i' call request request' hl ha ha'
    rcases setLink_eq hl with ⟨rfl, rfl⟩ | ⟨-, hold⟩
    · exact h.single _ link i i' call request request' hlink ha ha'
    · exact h.single c' l i i' call request request' hold ha ha'

end Joined

/-! ### Runs -/

section Runs

variable {sha256 : List Char → String} {float : Literal → Option FloatText}
  {describe : List Char → String} {rounded : Literal → Option Nat} {s s' : Attached}

theorem reader_of_reads {event : Broker.Event} {c : Nat} (h : event.reads c = true) :
    reader event = some c := by
  cases event with
  | receive | hangUp => exact congrArg some (beq_iff_eq.mp h)
  | lockPrompt | answer | proceed | reap | elapse | expire | exit | outOfBand => exact absurd h nofun

/-- **Every move keeps the agreement.** -/
theorem agreed_step (h : s.Joined float describe ∧ s.Heeded) {move : Move}
    (hs : s.step sha256 float describe rounded move = some s') (hlegible : s'.Legible)
    (hrespects : s.Respects move) : s'.Joined float describe ∧ s'.Heeded := by
  obtain ⟨h, hheeded⟩ := h
  have of_goOn : ∀ {call : Nat} {r : Reply}, s.goOn call r = some s' → s'.Heeded := by
    intro call r hs
    refine Joined.heeded_of_goOn hs fun c link i id hlink hi ha => ?_
    obtain ⟨issue, hmem, hid⟩ := hheeded c link i id hlink hi ha
    exact ⟨issue, (State.step_change (goOn_frame hs).1).issued_subset hmem, hid⟩
  have of_setLink : ∀ {c : Nat} {link link' : Link}, s.links c = some link →
      link'.heard = link.heard → (s.setLink c link').Heeded := by
    intro c link link' hlink hheard c' l i id hl hi ha
    rcases setLink_eq hl with ⟨rfl, rfl⟩ | ⟨-, hold⟩
    · exact hheeded _ link i id hlink (hheard ▸ hi) ha
    · exact hheeded c' l i id hold hi ha
  cases move with
  | request r =>
    obtain ⟨gateway, hgateway, rfl⟩ := Option.map_eq_some_iff.mp hs
    refine ⟨h.gateway hgateway trivial trivial nofun nofun nofun, fun c link i id hlink hi ha => ?_⟩
    obtain ⟨issue, hmem, hid⟩ := hheeded c link i id hlink hi ha
    exact ⟨issue, (State.step_change hgateway).issued_subset hmem, hid⟩
  | reply call r =>
    have hno : ∀ g, r ≠ .activated (.ok g) := by
      rintro g rfl
      exact absurd hs nofun
    have hgoes : (if ((s.gateway.calls[call]?).bind Phase.call).isSome then none
        else s.goOn call r) = some s' := by
      cases r with
      | activated => exact absurd hs nofun
      | connected result =>
        cases result with
        | ok => exact absurd hs nofun
        | error => exact hs
      | resumed | listed | settled => exact hs
    split at hgoes
    · exact absurd hgoes nofun
    · rename_i hcall
      have hnone := Option.not_isSome_iff_eq_none.mp hcall
      exact ⟨h.reply hlegible hnone hno hrespects hgoes, of_goOn hgoes⟩
  | dial c =>
    simp only [step] at hs
    split at hs
    · rename_i hnew hidle
      split at hs
      · rename_i hfresh
        obtain rfl := Option.some.inj hs
        refine ⟨h.dial hnew hidle hfresh hlegible, fun c' l i id hl hi ha => ?_⟩
        rcases setLink_eq hl with ⟨rfl, rfl⟩ | ⟨-, hold⟩
        · exact absurd hi (Nat.not_lt_zero i)
        · exact hheeded c' l i id hold hi ha
      · exact absurd hs nofun
    · exact absurd hs nofun
  | connect call c =>
    obtain ⟨link, -, hs⟩ := Option.bind_eq_some_iff.mp hs
    split at hs
    · exact absurd hs nofun
    · have hcall := Joined.call_of_connected (goOn_frame hs).1
      exact ⟨h.reply (r := .connected (.ok c)) hlegible hcall nofun trivial hs, of_goOn hs⟩
  | list c includeOrphaned =>
    obtain ⟨link, hlink, rfl⟩ := Option.map_eq_some_iff.mp hs
    exact ⟨h.send hlink includeOrphaned hlegible, of_setLink hlink rfl⟩
  | hear c => exact h.hear hheeded hlegible hs
  | serve c registry =>
    obtain ⟨link, hlink, hs⟩ := Option.bind_eq_some_iff.mp hs
    obtain ⟨conn, hconn, rfl⟩ := Option.map_eq_some_iff.mp hs
    refine ⟨h.serve hlink hconn, fun c' l i id hl hi ha => ?_⟩
    obtain ⟨l', hl', hheard⟩ : ∃ l', s.links c' = some l' ∧ l.heard = l'.heard := by
      rcases setLink_eq hl with ⟨rfl, rfl⟩ | ⟨-, hold⟩
      · exact ⟨link, hlink, rfl⟩
      · exact ⟨l, hold, rfl⟩
    obtain ⟨-, hbroker⟩ := (h.wired c link hlink).serve h.accounts hconn
    refine hheeded c' l' i id hl' (hheard ▸ hi) ?_
    rcases hbroker with heq | ⟨event, -, hstep⟩
    · exact heq ▸ ha
    · exact (h.wired c' l' hl').announces_of_step hstep (hheard ▸ hi) ha
  | broker event =>
    simp only [step] at hs
    split at hs
    · exact absurd hs nofun
    · rename_i hreader
      obtain ⟨broker, hbroker, rfl⟩ := Option.map_eq_some_iff.mp hs
      refine ⟨h.broker hbroker fun c link hlink => ?_, fun c link i id hlink hi ha => ?_⟩
      · cases hreads : event.reads c with
        | false => rfl
        | true =>
          rw [reader_of_reads hreads, Option.bind_some, hlink] at hreader
          exact absurd rfl hreader
      · exact hheeded c link i id hlink hi
          ((h.wired c link hlink).announces_of_step hbroker hi ha)

/-- What a move does to a connection. -/
structure Grows (before after : Option Link) : Prop where
  asked : ∀ link, before = some link → ∃ link', after = some link' ∧ link.asked <+: link'.asked
  none : before = none → after = none

theorem Grows.refl (link : Option Link) : Grows link link :=
  ⟨fun l hl => ⟨l, hl, List.prefix_refl _⟩, id⟩

theorem Grows.trans {before between after : Option Link} (h : Grows before between)
    (h' : Grows between after) : Grows before after := by
  refine ⟨fun link hlink => ?_, fun hnone => h'.none (h.none hnone)⟩
  obtain ⟨link', hlink', hgrown⟩ := h.asked link hlink
  obtain ⟨link'', hlink'', hgrown'⟩ := h'.asked link' hlink'
  exact ⟨link'', hlink'', hgrown.trans hgrown'⟩

theorem grows_setLink {c : Nat} {link link' : Link} (hlink : s.links c = some link)
    (hgrown : link.asked <+: link'.asked) (c' : Nat) :
    Grows (s.links c') ((s.setLink c link').links c') := by
  by_cases hc : c' = c
  · subst hc
    rw [hlink, setLink_self]
    refine ⟨fun l hl => ?_, nofun⟩
    obtain rfl := Option.some.inj hl
    exact ⟨link', rfl, hgrown⟩
  · rw [show (s.setLink c link').links c' = s.links c' from Function.update_of_ne hc ..]
    exact .refl _

theorem grows_of_goOn {call : Nat} {r : Reply} (hs : s.goOn call r = some s') (c : Nat) :
    Grows (s.links c) (s'.links c) := by
  obtain ⟨gateway, -, rfl⟩ := Option.map_eq_some_iff.mp hs
  rcases ({ s with gateway } : Attached).push_eq call with heq | ⟨p, c', request, link, -, -, hlink, heq⟩
  · rw [heq]
    exact .refl _
  · rw [heq]
    exact grows_setLink (s := { s with gateway }) hlink (List.prefix_append _ _) c

/-- Only dialling opens a connection, and what has been asked stays. -/
theorem grows_of_step {move : Move} (hs : s.step sha256 float describe rounded move = some s')
    (c : Nat) : Grows (s.links c) (s'.links c) ∨ (move = .dial c ∧ s.links c = none) := by
  cases move with
  | request r =>
    obtain ⟨gateway, -, rfl⟩ := Option.map_eq_some_iff.mp hs
    exact .inl (.refl _)
  | reply call r =>
    simp only [step] at hs
    split at hs
    · exact absurd hs nofun
    · exact absurd hs nofun
    · split at hs
      · exact absurd hs nofun
      · exact .inl (grows_of_goOn hs c)
  | dial c' =>
    simp only [step] at hs
    split at hs
    · rename_i hnew hidle
      split at hs
      · obtain rfl := Option.some.inj hs
        by_cases hc : c = c'
        · subst hc
          exact .inr ⟨rfl, hnew⟩
        · refine .inl ?_
          rw [show (s.setLink c' _).links c = s.links c from Function.update_of_ne hc ..]
          exact .refl _
      · exact absurd hs nofun
    · exact absurd hs nofun
  | connect call c' =>
    obtain ⟨link, -, hs⟩ := Option.bind_eq_some_iff.mp hs
    split at hs
    · exact absurd hs nofun
    · exact .inl (grows_of_goOn hs c)
  | list c' includeOrphaned =>
    obtain ⟨link, hlink, rfl⟩ := Option.map_eq_some_iff.mp hs
    exact .inl (grows_setLink hlink (List.prefix_append _ _) c)
  | hear c' =>
    obtain ⟨link, hlink, hs⟩ := Option.bind_eq_some_iff.mp hs
    obtain ⟨session, -, hs⟩ := Option.bind_eq_some_iff.mp hs
    have hafter : Grows (s.links c) ((s.setLink c'
        { link with client := session.client, heard := session.heard }).links c) :=
      grows_setLink hlink (by exact List.prefix_refl _) c
    refine .inl ?_
    dsimp only at hs
    split at hs
    · unfold settle at hs
      split at hs
      · obtain rfl := Option.some.inj hs
        exact hafter
      · obtain ⟨r, -, hs⟩ := Option.bind_eq_some_iff.mp hs
        exact hafter.trans (grows_of_goOn hs c)
    · obtain rfl := Option.some.inj hs
      exact hafter
  | serve c' registry =>
    obtain ⟨link, hlink, hs⟩ := Option.bind_eq_some_iff.mp hs
    obtain ⟨conn, -, rfl⟩ := Option.map_eq_some_iff.mp hs
    refine .inl (@grows_setLink { s with broker := conn.broker } c' link
      { link with unread := conn.unread, read := conn.read } hlink ?_ c)
    exact List.prefix_refl _
  | broker event =>
    simp only [step] at hs
    split at hs
    · exact absurd hs nofun
    · obtain ⟨broker, -, rfl⟩ := Option.map_eq_some_iff.mp hs
      exact .inl (.refl _)

/-- Calls that could be written before can be written after. -/
theorem Legible.before {move : Move} (h : s'.Legible)
    (hs : s.step sha256 float describe rounded move = some s') : s.Legible := by
  intro c link hlink
  rcases grows_of_step hs c with hgrows | ⟨-, hnone⟩
  · obtain ⟨link', hlink', hgrown⟩ := hgrows.asked link hlink
    obtain ⟨hlength, hwell⟩ := h c link' hlink'
    exact ⟨hgrown.length_le.trans hlength, fun a ha => hwell a (hgrown.subset ha)⟩
  · exact absurd (hnone.symm.trans hlink) nofun

theorem joined_start (disk : Broker.Disk) (now brokerPid nextGrant : Nat) (available : Bool)
    (clientPid : Nat → Option Nat) :
    (start (Broker.Broker.new disk now brokerPid nextGrant available clientPid)).Joined
      float describe where
  held := Broker.Broker.lockHeld_of_none rfl
  accounts := .start ..
  wired _ _ h := absurd h nofun
  pending _ _ _ _ _ h := absurd h nofun
  single _ _ _ _ _ _ _ h := absurd h nofun
  told := .init _
  shadowed := ⟨[], [], .start, nofun⟩

/-- An entry is for a grant that was announced to a connection of the gateway. -/
theorem Joined.entry (h : s.Joined float describe) {e : ActiveServer}
    (he : e ∈ s.gateway.active.values) : ∃ id c i, e.grantId = ofString id ∧
      (s.links c).isSome = true ∧ s.broker.Announces c i id ∧
      ∀ grant : Broker.Grant, s.broker.engine.grants[id]? = some grant →
        grant.connection = c ∧ ofString grant.name = e.name := by
  obtain ⟨name, hmem⟩ := JsMap.mem_values.mp he
  obtain ⟨hname, hcame⟩ := h.told.entries name e hmem
  generalize hg : (⟨e.grantId, e.client.address⟩ : Grant) = g at hcame
  obtain ⟨hlink, hheard, hasked, hanswered⟩ := hcame
  rename_i c link i aid request id connection
  have hannounced : s.broker.Announces c i id := ⟨_, _, hanswered⟩
  refine ⟨id, c, i, (Grant.mk.inj hg).1, by rw [hlink]; rfl, hannounced, fun grant hgrant => ?_⟩
  obtain ⟨i', hannounced'⟩ := h.accounts.table id grant hgrant
  obtain ⟨call, aid', name', hasked', hnamed⟩ := (h.wired c link hlink).announced i id hannounced
  refine ⟨(h.accounts.once _ _ _ _ id hannounced' hannounced).1, ?_⟩
  obtain ⟨-, -, hcall⟩ := Asked.mk.inj (Option.some.inj (hasked.symm.trans hasked'))
  rw [hnamed grant hgrant, hname, activateCall_injective hcall]

/-- When no tool call is in flight, the broker has no other grants for the gateway. -/
theorem Joined.recorded (h : s.Joined float describe) (hheeded : s.Heeded)
    (hquiescent : Quiescent s.gateway) {id : String} {grant : Broker.Grant}
    (hgrant : s.broker.engine.grants[id]? = some grant)
    (hopened : (s.links grant.connection).isSome = true) :
    ∃ e, s.gateway.active.get (ofString grant.name) = some e ∧ e.grantId = ofString id := by
  obtain ⟨link, hlink⟩ := Option.isSome_iff_exists.mp hopened
  obtain ⟨i, hannounced⟩ := h.accounts.table id grant hgrant
  -- the announcement has been heard, since nobody waits for it
  have hheard : i < link.heard := by
    by_contra hle
    obtain ⟨call, aid, name, hasked, -⟩ := (h.wired _ link hlink).announced i id hannounced
    have hpending := h.pending _ link i call _ hlink ⟨Nat.le_of_not_lt hle, aid, hasked⟩
    obtain ⟨p, hp, hcall⟩ := Option.bind_eq_some_iff.mp hpending
    have hfinished := hquiescent p (List.mem_of_getElem? hp)
    cases p <;> simp at hfinished
    exact absurd hcall nofun
  obtain ⟨⟨call, g⟩, hissued, hid⟩ := hheeded _ link i id hlink hheard hannounced
  obtain ⟨released, hreleased, -, haccounted⟩ := h.shadowed.accounted
  have hrecorded : ∃ e ∈ s.gateway.active.values, e.grantId = g.grantId := by
    rcases haccounted call g hissued with hrel | hrec | ⟨p, hp, hholds⟩
    · obtain ⟨id', hid', hgone, -⟩ := hreleased _ hrel
      obtain rfl := ofString_injective (hid.symm.trans hid')
      exact absurd (hgone.symm.trans hgrant) nofun
    · exact hrec
    · rw [Phase.holds_of_isFinished (hquiescent p hp)] at hholds
      exact absurd hholds nofun
  obtain ⟨e, he, heid⟩ := hrecorded
  obtain ⟨id', c, i', hid', -, -, hnamed⟩ := h.entry he
  obtain rfl := ofString_injective (hid.symm.trans (heid.symm.trans hid'))
  obtain ⟨name, hmem⟩ := JsMap.mem_values.mp he
  have hname := (h.told.entries name e hmem).1
  refine ⟨e, ?_, hid'⟩
  rw [(hnamed grant hgrant).2, hname]
  exact JsMap.get_eq_some.mpr hmem

end Runs

end Attached

/-- **The gateway and the broker agree on the grants.**  An entry of the gateway is for a grant that
    was announced to it, and if the broker still has the grant, then under the same name.  When no
    tool call is in flight, the broker has no grant for the gateway that is not recorded. -/
theorem grants_agree {sha256 : List Char → String} {float : Literal → Option FloatText}
    {describe : List Char → String} {rounded : Literal → Option Nat} (disk : Broker.Disk)
    (now brokerPid nextGrant : Nat) (available : Bool) (clientPid : Nat → Option Nat)
    (moves : List Move) (s : Attached)
    (hrun : Run (fun s move s' => s.step sha256 float describe rounded move = some s' ∧ s.Respects move)
      (.start (.new disk now brokerPid nextGrant available clientPid)) moves s)
    (hlegible : s.Legible) :
    (∀ e ∈ s.gateway.active.values, ∃ id c i, e.grantId = ofString id ∧
      (s.links c).isSome = true ∧ s.broker.Announces c i id ∧
      ∀ grant : Broker.Grant, s.broker.engine.grants[id]? = some grant →
        grant.connection = c ∧ ofString grant.name = e.name) ∧
    (Quiescent s.gateway → ∀ (id : String) (grant : Broker.Grant),
      s.broker.engine.grants[id]? = some grant → (s.links grant.connection).isSome = true →
      ∃ e, s.gateway.active.get (ofString grant.name) = some e ∧ e.grantId = ofString id) := by
  have h : s.Joined float describe ∧ s.Heeded :=
    hrun.invariant (P := fun s => s.Legible → s.Joined float describe ∧ s.Heeded)
      (fun _ => ⟨Attached.joined_start .., fun _ _ _ _ hlink => absurd hlink nofun⟩)
      (fun _ _ _ h ⟨hs, hrespects⟩ hlegible =>
        Attached.agreed_step (h (hlegible.before hs)) hs hlegible hrespects) hlegible
  exact ⟨fun e he => h.1.entry he, fun hquiescent id grant hgrant hopened =>
    h.1.recorded h.2 hquiescent hgrant hopened⟩

/-! ### A viewer that is activated -/

/-- The gateway connects and activates the viewer, and the user allows it. -/
def viewerMoves : List Move :=
  let registry := Broker.viewerRegistry "/usr/bin/viewer"
  let proceed : Move := .broker (.proceed 1 Broker.tableOrder Broker.working)
  [.dial 1, .serve 1 registry, .hear 1, .request (.activate (ofString "com.example.viewer")),
   .connect 0 1, .reply 0 .resumed, .serve 1 registry, proceed, .broker (.lockPrompt 1), proceed,
   .broker (.answer 1 .allow "2026-01-01T00:00:00Z" (.written ⟨1, 200⟩ true)), proceed, .hear 1,
   .reply 0 (.settled (.ok ())), .reply 0 (.listed (.ok notesTools)), .reply 0 (.settled (.ok ()))]

def viewerStep (s : Attached) (move : Move) : Option Attached :=
  s.step String.ofList (fun _ => none) (fun _ => "") (fun _ => none) move

def viewerStart : Attached := .start (.new ⟨none, none⟩ 0 100 1 true fun _ => none)

/-- Nothing is overwritten, and one connection is opened. -/
def Attached.guarded (s : Attached) : Move → Bool
  | .reply call r => allowed true s.gateway (.reply call r)
  | .dial c => c == 1
  | _ => true

theorem Attached.respects_of_guarded {s : Attached} {move : Move} (h : s.guarded move = true) :
    s.Respects move := by
  cases move with
  | reply call r =>
    change NotOverwriting s.gateway (.reply call r)
    unfold NotOverwriting
    split
    · rename_i heq
      obtain ⟨rfl, rfl⟩ := Event.reply.inj heq
      intro name broker g hp
      simpa [Attached.guarded, allowed, hp] using h
    · trivial
  | request | dial | connect | list | hear | serve | broker => trivial

def viewerAttached : Attached :=
  (replay (fun s move => if s.guarded move = true then viewerStep s move else none) viewerStart
    viewerMoves).get (by decide +kernel)

theorem reached_viewerAttached : Run (fun s move s' => viewerStep s move = some s' ∧
    s.guarded move = true) viewerStart viewerMoves viewerAttached :=
  run_of_checked (Option.some_get _).symm

theorem legible_viewerAttached : viewerAttached.Legible := by
  have hnone : ∀ c ≠ 1, viewerAttached.links c = none :=
    reached_viewerAttached.invariant (P := fun s => ∀ c ≠ 1, s.links c = none) (fun _ _ => rfl)
      fun s move s' h hs c hc => by
        rcases Attached.grows_of_step hs.1 c with hgrows | ⟨rfl, -⟩
        · exact hgrows.none (h c hc)
        · exact absurd (beq_iff_eq.mp hs.2) hc
  have hfirst : ((viewerAttached.links 1).all fun link =>
      decide (link.asked.length ≤ 2 ^ 53) && link.asked.all fun a => a.call.isWellFormed) = true := by
    decide +kernel
  intro c link hlink
  by_cases hc : c = 1
  · subst hc
    rw [hlink] at hfirst
    simpa using hfirst
  · exact absurd ((hnone c hc).symm.trans hlink) nofun

theorem grants_agree_viewer : ∃ e,
    viewerAttached.gateway.active.get (ofString "com.example.viewer") = some e ∧
      e.grantId = ofString "g100-1" := by
  have hgrant : (viewerAttached.broker.engine.grants["g100-1"]?).any (fun grant =>
      grant.name == "com.example.viewer" && grant.connection == 1) = true := by decide +kernel
  obtain ⟨grant, hgrant, hfacts⟩ := (Option.any_eq_true _ _).mp hgrant
  simp only [Bool.and_eq_true, beq_iff_eq] at hfacts
  have hrun := reached_viewerAttached.mono fun s move s' hs =>
    (⟨hs.1, Attached.respects_of_guarded hs.2⟩ : viewerStep s move = some s' ∧ s.Respects move)
  have hagree := grants_agree ⟨none, none⟩ 0 100 1 true (fun _ => none) viewerMoves viewerAttached hrun
    legible_viewerAttached
  have hrecorded := hagree.2 (by decide +kernel) "g100-1" grant hgrant
    (by rw [hfacts.2]; decide +kernel)
  rwa [hfacts.1] at hrecorded

end McpLocator.Gateway
