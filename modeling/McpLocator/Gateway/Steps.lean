import McpLocator.Gateway.Gateway
import McpLocator.Lib.Run

namespace McpLocator.Gateway

open Js Transition

/-!
# What a step of the gateway changes

`Change` lists the steps by what they do to the entries, the grants and the clients; `step_change`
says that there are no others.  All invariants of the gateway are proved from it.
-/

namespace Phase

/-- Nothing was asked of the broker for this call yet, or it has not answered. -/
@[simp] def early : Phase → Bool
  | connecting _ | resuming _ _ | activating _ _ => true
  | _ => false

/-- The call goes on with a connection to the broker. -/
@[simp] def connected : Phase → Bool
  | resuming _ _ | activating _ _ => true
  | _ => false

/-- The grant that the broker returned to this call. -/
@[simp] def grant : Phase → Option Grant
  | connectingClient _ _ g | listing _ _ g | notifying _ _ g _ _ | closing _ _ g _
  | releasing _ _ g _ => some g
  | _ => none

/-- The name of a server whose entry is still to be set. -/
@[simp] def granted : Phase → Option JsString
  | connectingClient name _ _ | listing name _ _ => some name
  | _ => none

/-- The entry that this call has deleted and not released yet. -/
@[simp] def retired : Phase → Option ActiveServer
  | deactivateClosing e | deactivateConnecting e | deactivateResuming e _
  | deactivateReleasing e _ => some e
  | _ => none

/-- The grant that this call is going to release. -/
@[simp] def discards : Phase → Option JsString
  | closing _ _ g _ | releasing _ _ g _ => some g.grantId
  | deactivateClosing e | deactivateConnecting e | deactivateResuming e _
  | deactivateReleasing e _ => some e.grantId
  | _ => none

/-- The grant that this call is going to release or to record. -/
@[simp] def holds : Phase → Option JsString
  | connectingClient _ _ g | listing _ _ g => some g.grantId
  | p => p.discards

/-- The broker has been asked to release the grant. -/
@[simp] def isReleasing : Phase → Bool
  | releasing .. | deactivateReleasing .. => true
  | _ => false

@[simp] def isFinished : Phase → Bool
  | finished _ => true
  | _ => false

theorem granted_eq_none {p : Phase} (h : p.holds = none) : p.granted = none := by
  cases p <;> simp at h ⊢

/-- A call goes from `p` to `p'` and keeps what it had in its hands. -/
structure Keeps (p p' : Phase) : Prop where
  early : p'.early = true → p.early = true
  grant : ∀ g, p'.grant = some g → p.grant = some g
  granted : ∀ name, p'.granted = some name → p.granted = some name
  retired : ∀ e, p'.retired = some e → p.retired = some e
  discards : p'.discards = p.discards
  holds : p'.holds = p.holds

end Phase

/-- The steps by what they change. -/
inductive Change (s : State) : Event → State → Prop where
  | begun (r : Request) {p : Phase} (hearly : p.early = true ∨ p.isFinished = true)
      (hbroker : p.connected = true → s.broker.isSome = true) : Change s (.request r) (s.begin p)
  | retired (name : JsString) {e : ActiveServer} (he : s.active.get name = some e) :
      Change s (.request (.deactivate name))
        ({ s with active := s.active.delete name, closed := e.client.call :: s.closed }.begin
          (.deactivateClosing e))
  | moved (call : Nat) (r : Reply) {p p' : Phase} (broker : Option Nat)
      (hp : s.calls[call]? = some p) (keeps : p.Keeps p')
      (hbroker : s.broker.isSome = true → broker.isSome = true)
      (hconnected : p'.connected = true → p.connected = true ∨ broker.isSome = true)
      (hconnecting : ∀ e, p' = .deactivateConnecting e → s.broker = none) :
      Change s (.reply call r) ({ s with broker }.move call p')
  | issued (call : Nat) {name : JsString} {broker : Nat} {g : Grant}
      (hp : s.calls[call]? = some (.activating name broker)) :
      Change s (.reply call (.activated (.ok g)))
        ({ s with issued := s.issued ++ [(call, g)] }.move call (.connectingClient name broker g))
  | recorded (call : Nat) (tools : List Tool) {name : JsString} {broker : Nat} {g : Grant}
      (hp : s.calls[call]? = some (.listing name broker g)) :
      Change s (.reply call (.listed (.ok tools)))
        ((s.record call name g tools (aliasFor name s.aliases)).move call
          (.notifying name broker g tools (aliasFor name s.aliases)))
  | failed (call : Nat) (r : Reply) {p : Phase} {name message : JsString} {broker : Nat} {g : Grant}
      (hp : s.calls[call]? = some p) (hgrant : p.grant = some g) (hdiscards : p.discards = none) :
      Change s (.reply call r) (s.fail call name broker g message)
  | released (call : Nat) (result : Except JsString Unit) {p p' : Phase} {grantId : JsString}
      (hp : s.calls[call]? = some p) (hreleasing : p.isReleasing = true)
      (hdiscards : p.discards = some grantId) (hearly : p'.early = false) (hgrant : p'.grant = none)
      (hretired : p'.retired = none) (hholds : p'.holds = none) :
      Change s (.reply call (.settled result)) ((s.release grantId result).move call p')
  | abandoned (call : Nat) (r : Reply) {e : ActiveServer} {message : JsString}
      (hp : s.calls[call]? = some (.deactivateConnecting e)) :
      Change s (.reply call r) (s.move call (.finished (.threw message)))

namespace State

variable {s s' : State}

theorem moved_broker {call : Nat} {r : Reply} {p p' : Phase} {broker : Nat}
    (hp : s.calls[call]? = some p) (keeps : p.Keeps p') (hne : ∀ e, p' ≠ .deactivateConnecting e) :
    Change s (.reply call r) ({ s with broker := some broker }.move call p') :=
  .moved call r (some broker) hp keeps (fun _ => rfl) (fun _ => .inr rfl) fun e he => absurd he (hne e)

/-- A step that touches nothing but the call. -/
theorem moved_only {call : Nat} {r : Reply} {p p' : Phase} (hp : s.calls[call]? = some p)
    (keeps : p.Keeps p') (hconnected : p'.connected = true → p.connected = true)
    (hconnecting : ∀ e, p' = .deactivateConnecting e → s.broker = none) :
    Change s (.reply call r) (s.move call p') :=
  .moved call r s.broker hp keeps id (fun h => .inl (hconnected h)) hconnecting

theorem advance_change {call : Nat} {p : Phase} {r : Reply} (hp : s.calls[call]? = some p)
    (h : s.advance call p r = some s') :
    Change s (.reply call r) s' := by
  unfold advance at h
  split at h
  all_goals cases h
  · exact moved_broker hp (by constructor <;> simp) nofun
  · exact moved_only hp (by constructor <;> simp) nofun nofun
  · exact moved_only hp (by constructor <;> simp) (fun _ => rfl) nofun
  · exact .issued call hp
  · exact moved_only hp (by constructor <;> simp) nofun nofun
  · exact moved_only hp (by constructor <;> simp) nofun nofun
  · exact .failed call _ hp rfl rfl
  · exact .recorded call _ hp
  · exact .failed call _ hp rfl rfl
  · exact moved_only hp (by constructor <;> simp) nofun nofun
  · exact .failed call _ hp rfl rfl
  · exact moved_only hp (by constructor <;> simp) nofun nofun
  · exact .released call _ hp rfl rfl rfl rfl rfl rfl
  · cases hb : s.broker with
    | none =>
      show Change s _ (s.move call _)
      exact moved_only hp (by constructor <;> simp) nofun fun _ _ => hb
    | some broker => exact moved_only hp (by constructor <;> simp) nofun nofun
  · exact moved_broker hp (by constructor <;> simp) nofun
  · exact .abandoned call _ hp
  · exact moved_only hp (by constructor <;> simp) nofun nofun
  · exact .released call _ hp rfl rfl rfl rfl rfl rfl
  · exact moved_only hp (by constructor <;> simp) nofun nofun
  · exact moved_only hp (by constructor <;> simp) nofun nofun

theorem step_change {event : Event} (h : s.step event = some s') : Change s event s' := by
  cases event with
  | request r =>
    cases r with
    | activate name =>
      obtain rfl := Option.some.inj h
      show Change s _ (s.activateCall name)
      unfold activateCall
      split
      · exact .begun _ (.inr rfl) nofun
      · split
        · exact .begun _ (.inr rfl) nofun
        · cases hb : s.broker with
          | none => exact .begun _ (.inl rfl) nofun
          | some broker => exact .begun _ (.inl rfl) fun _ => by rw [hb]; rfl
    | deactivate name =>
      obtain rfl := Option.some.inj h
      show Change s _ (s.deactivateCall name)
      unfold deactivateCall
      cases he : s.active.get name with
      | none => exact .begun _ (.inr rfl) nofun
      | some e => exact .retired name he
  | reply call r =>
    obtain ⟨p, hp, hadvance⟩ := Option.bind_eq_some_iff.mp h
    exact advance_change hp hadvance

end State

end McpLocator.Gateway
