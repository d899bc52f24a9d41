import McpLocator.Broker.Bookkeeping

namespace McpLocator.Broker

open Std (ExtTreeMap)
open McpLocator.Json McpLocator.Proto

/-!
# The idle window

A card may say how long its server is kept without grants.  `idle_timeout` does not look at it.

* `idleWindow` — the window that a card gives; `Timed` — an engine with the windows of the cards it
  activated and with every state so far.
* `TimerFrom` — where the timer of a row comes from; `timerFrom_perform`, what an operation does to it.
* `Clocked` — a timer is due one window after the last share; every operation keeps it
  (`Clocked.perform`).
* `windowKept_iff` — when a tick of the reaper respects the card's window.
-/

/-! ### Timed engines -/

/-- `idleTimeoutSeconds`, in milliseconds, or 300 seconds. -/
def idleWindow (card : Card) : Nat :=
  (((card.localBlock.bind (·.lifetime)).bind (·.idleTimeoutSeconds)).map UInt64.toNat).getD 300 * 1000

/-- An engine, the window of the card that each server was last activated from, and every state of the
    engine so far, the present one included. -/
structure Timed where
  engine : Engine
  window : String → Nat
  past : List Engine

namespace Timed

/-- `Engine::new` -/
def new (disk : Disk) (now brokerPid nextGrant : Nat) : Timed :=
  let engine := Engine.new disk now brokerPid nextGrant
  { engine, window := fun _ => defaultIdleTimeout, past := [engine] }

/-- The windows after an operation. -/
def windowAfter (t : Timed) : Operation → String → Nat
  | .activate entry connection clientPid outcome =>
    match (t.engine.activate entry connection clientPid outcome).1 with
    | .ok _ => Function.update t.window entry.name (idleWindow entry.card)
    | .error _ => t.window
  | _ => t.window

def perform (t : Timed) (operation : Operation) : Timed :=
  { engine := t.engine.perform operation
    window := t.windowAfter operation
    past := t.past ++ [t.engine.perform operation] }

def Step (t : Timed) (operation : Operation) (t' : Timed) : Prop := t' = t.perform operation

/-- There is no share of the server, and there has been none for some time. -/
def IdleFor (t : Timed) (name : String) (milliseconds : Nat) : Prop :=
  t.engine.shareCount name = 0 ∧
    ∀ engine ∈ t.past, 0 < engine.shareCount name → engine.now + milliseconds ≤ t.engine.now

/-- A tick of the reaper respects the window of a server: a child is stopped exactly if its server has
    been without shares for as long as its card says. -/
def WindowKept (t : Timed) (order : IterationOrder) (name : String) : Prop :=
  (t.engine.server name).child.isSome = true →
    (((t.engine.reapIdle order).server name).child = none ↔ t.IdleFor name (t.window name))

end Timed

/-- A row whose child and timer are stopped. -/
def SharedServer.stopped (server : SharedServer) : SharedServer :=
  { server with child := none, idleTimer := none }

namespace Engine

variable {engine : Engine}

/-- A sleep that is over has ended the task of the timer. -/
def Punctual (engine : Engine) (name : String) : Prop :=
  ∀ timer, (engine.server name).idleTimer = some timer → timer.due ≤ engine.now → timer.finished = true

/-! ### What a tick does -/

theorem mem_expired {name : String} : name ∈ engine.expired ↔ (engine.server name).refcount = 0 ∧
    ∃ timer, (engine.server name).idleTimer = some timer ∧ timer.finished = true := by
  have hrow : name ∈ engine.expired ↔ ∃ server, engine.shared[name]? = some server ∧
      (server.refcount == 0 && server.idleTimer.any (·.finished)) = true := by
    simp [expired, ExtTreeMap.mem_toList_iff_getElem?_eq_some]
  rw [hrow, Engine.server]
  cases engine.shared[name]? with
  | none => simp [SharedServer.absent]
  | some server => simp [Option.any_eq_true]

theorem stopShared_server (engine : Engine) (name other : String) (server : SharedServer) :
    (engine.stopShared name server).server other =
      if other = name then server.stopped else engine.server other := by
  unfold stopShared
  by_cases hother : other = name
  · rw [hother, server_setServer_self, if_pos rfl]
    rfl
  · rw [server_setServer_of_ne hother, shutdownAny_server, if_neg hother]

theorem reap_server (engine : Engine) (name other : String) : (engine.reap name).server other =
    if other = name then (engine.server other).stopped else engine.server other := by
  unfold reap
  cases hrow : engine.shared[name]? with
  | none =>
    -- there is nothing to stop
    by_cases hother : other = name
    · rw [hother, if_pos rfl, server_of_none hrow]
      rfl
    · rw [if_neg hother]
  | some server =>
    dsimp only
    rw [stopShared_server]
    split
    · rename_i hother
      rw [hother, server_of_getElem? hrow]
    · rfl

/-- **What a tick does to a row.** -/
theorem reapIdle_server (engine : Engine) (order : IterationOrder) (name : String) :
    (engine.reapIdle order).server name =
      if name ∈ engine.expired then (engine.server name).stopped else engine.server name := by
  have hfold : ∀ (names : List String) (e : Engine), (names.foldl reap e).server name =
      if name ∈ names then (e.server name).stopped else e.server name := by
    intro names
    induction names with
    | nil => simp
    | cons other names ih =>
      intro e
      rw [List.foldl_cons, ih, reap_server]
      by_cases hother : name = other
      · simp [hother, SharedServer.stopped]
      · simp [hother]
  rw [reapIdle, hfold]
  simp only [(order.2 _).mem_iff]

/-! ### Where a timer comes from -/

/-- A timer was there before, and may have run out; or it starts now, as a share is let go of. -/
def TimerFrom (engine : Engine) (name : String) (timer : IdleTimer) : Prop :=
  (∃ old, (engine.server name).idleTimer = some old ∧ timer.due = old.due ∧
    (timer.finished = true → old.finished = true ∨ old.due ≤ engine.now)) ∨
  (0 < (engine.server name).refcount ∧
    timer = { due := engine.now + defaultIdleTimeout, finished := false })

/-- Every timer of an engine comes from an earlier one. -/
def TimersFrom (engine engine' : Engine) : Prop :=
  ∀ name timer, (engine'.server name).idleTimer = some timer → engine.TimerFrom name timer

theorem timerFrom_self {name : String} {timer : IdleTimer}
    (h : (engine.server name).idleTimer = some timer) : engine.TimerFrom name timer :=
  .inl ⟨timer, h, rfl, .inl⟩

/-- The rows are the same, or have no timer. -/
theorem timersFrom_of_rows {engine' : Engine} (h : ∀ name, engine'.server name = engine.server name ∨
    (engine'.server name).idleTimer = none) : TimersFrom engine engine' := by
  intro name timer htimer
  rcases h name with hsame | hnone
  · exact timerFrom_self (hsame ▸ htimer)
  · rw [hnone] at htimer
    simp at htimer

/-- A server is started without a timer. -/
theorem timersFrom_started {entry : Entry} {result : Except ActivateError (GrantKind × ConnectionInfo)}
    {engine' : Engine} (h : Started engine entry result engine') : TimersFrom engine engine' := by
  have hrow : ∀ (e : Engine) (server : SharedServer), server.idleTimer = none →
      (∀ name, e.server name = engine.server name) → ∀ name,
        (e.setServer entry.name server).server name = engine.server name ∨
          ((e.setServer entry.name server).server name).idleTimer = none := by
    intro e server hnone hsame name
    by_cases hname : name = entry.name
    · rw [hname, server_setServer_self]
      exact .inr hnone
    · rw [server_setServer_of_ne hname]
      exact .inl (hsame name)
  cases h with
  | failed | killed | stdio => exact timersFrom_of_rows fun _ => .inl rfl
  | unspawned | joined => exact timersFrom_of_rows (hrow engine _ rfl fun _ => rfl)
  | spawned command => exact timersFrom_of_rows (hrow _ _ rfl fun _ => rfl)

theorem timersFrom_activated {entry : Entry} {connection : Nat} {clientPid : Option Nat}
    {result : Except ActivateError ActivateResult} {engine' : Engine}
    (h : Activated engine entry connection clientPid result engine') : TimersFrom engine engine' := by
  cases h with
  | orphaned | refused => exact timersFrom_of_rows fun _ => .inl rfl
  | notStarted _ _ _ hs =>
    have hready : TimersFrom (engine.ready entry) engine' := timersFrom_started hs
    exact hready
  | granted kind info started _ _ hs =>
    have hready : TimersFrom (engine.ready entry) started := timersFrom_started hs
    exact hready

/-- What releases leave: no row counts more, and the timers come from the time before. -/
structure Lets (engine engine' : Engine) : Prop where
  books : engine'.Bookkeeping
  now_eq : engine'.now = engine.now
  refcount_le : ∀ name, (engine'.server name).refcount ≤ (engine.server name).refcount
  timers : TimersFrom engine engine'

/-- **A release starts a timer when it lets go of the last share.** -/
theorem Lets.release {engine' : Engine} (h : Lets engine engine') (id : String) :
    Lets engine (engine'.release id).2 := by
  cases hg : engine'.grants[id]? with
  | none =>
    rw [release_of_none hg]
    exact h
  | some grant =>
    have hrow := h.books.release_server hg
    have hnow : (engine'.release id).2.now = engine'.now := by
      rw [release_frame]
    refine ⟨h.books.release id, hnow.trans h.now_eq, fun name => ?_, fun name timer htimer => ?_⟩
    · have hname := hrow name
      split at hname
      · rw [hname.1]
        exact (Nat.sub_le _ _).trans (h.refcount_le name)
      · rw [hname]
        exact h.refcount_le name
    · have hname := hrow name
      split at hname
      · obtain ⟨hserver, hpos⟩ := hname
        rw [hserver] at htimer
        change (if 0 < (engine'.server name).refcount - 1 then (engine'.server name).idleTimer
          else some _) = some timer at htimer
        split at htimer
        · exact h.timers name timer htimer
        · refine .inr ⟨Nat.lt_of_lt_of_le hpos (h.refcount_le name), ?_⟩
          rw [← h.now_eq]
          exact (Option.some.inj htimer).symm
      · rw [hname] at htimer
        exact h.timers name timer htimer

theorem lets_releaseAll (h : engine.Bookkeeping) (ids : List String) :
    Lets engine (engine.releaseAll ids) :=
  releaseAll_induction ⟨h, rfl, fun _ => Nat.le_refl _, timersFrom_of_rows fun _ => .inl rfl⟩
    (fun _ id he => he.release id) ids

theorem timersFrom_deactivate (h : engine.Bookkeeping) (order : IterationOrder) (name : String)
    (force : Bool) : TimersFrom engine (engine.deactivate order name force).2 := by
  unfold Engine.deactivate
  dsimp only
  generalize order.1 (engine.grantsWhere fun g => g.name == name) = ids
  split
  · exact timersFrom_of_rows fun _ => .inl rfl
  · cases hrow : (engine.releaseAll ids).shared[name]? with
    | none => exact (lets_releaseAll h ids).timers
    | some server =>
      intro other timer htimer
      dsimp only at htimer
      rw [stopShared_server] at htimer
      split at htimer
      · simp [SharedServer.stopped] at htimer
      · exact (lets_releaseAll h ids).timers other timer htimer

theorem timersFrom_expire (name : String) : TimersFrom engine (engine.expire name) := by
  unfold Engine.expire
  cases hrow : engine.shared[name]? with
  | none => exact timersFrom_of_rows fun _ => .inl rfl
  | some server =>
    intro other timer htimer
    by_cases hother : other = name
    · subst hother
      dsimp only at htimer
      rw [server_setServer_self] at htimer
      obtain ⟨old, hold, rfl⟩ := Option.map_eq_some_iff.mp htimer
      refine .inl ⟨old, by rw [server_of_getElem? hrow, hold], rfl, fun hfinished => ?_⟩
      simpa using hfinished
    · dsimp only at htimer
      rw [server_setServer_of_ne hother] at htimer
      exact timerFrom_self htimer

/-- **An operation keeps a timer, stops it, ends it when it is due or starts one.** -/
theorem timersFrom_perform (h : engine.Bookkeeping) (operation : Operation) :
    TimersFrom engine (engine.perform operation) := by
  cases operation with
  | activate entry connection clientPid outcome =>
    exact timersFrom_activated (activate_activated engine entry connection clientPid outcome)
  | release id => exact (lets_releaseAll h [id]).timers
  | releaseConnection order connection => exact (lets_releaseAll h _).timers
  | deactivate order name force => exact timersFrom_deactivate h order name force
  | reapIdle order =>
    refine timersFrom_of_rows fun name => ?_
    show (engine.reapIdle order).server name = _ ∨ ((engine.reapIdle order).server name).idleTimer = none
    rw [reapIdle_server]
    split
    · exact .inr rfl
    · exact .inl rfl
  | expire name => exact timersFrom_expire name
  | evaluate | decide | elapse | exit | outOfBand => exact timersFrom_of_rows fun _ => .inl rfl

/-! ### Time -/

theorem stopShared_now (engine : Engine) (name : String) (server : SharedServer) :
    (engine.stopShared name server).now = engine.now := by
  unfold stopShared
  cases server.child <;> rfl

theorem reapIdle_now (engine : Engine) (order : IterationOrder) :
    (engine.reapIdle order).now = engine.now := by
  unfold reapIdle
  generalize order.1 engine.expired = names
  induction names generalizing engine with
  | nil => rfl
  | cons name names ih =>
    rw [List.foldl_cons, ih, reap]
    split
    · rfl
    · exact stopShared_now engine name _

theorem now_activated {entry : Entry} {connection : Nat} {clientPid : Option Nat}
    {result : Except ActivateError ActivateResult} {engine' : Engine}
    (h : Activated engine entry connection clientPid result engine') : engine'.now = engine.now := by
  cases h with
  | orphaned | refused => rfl
  | notStarted _ _ _ hs => cases hs <;> rfl
  | granted kind info started _ _ hs => cases hs <;> rfl

theorem now_deactivate (h : engine.Bookkeeping) (order : IterationOrder) (name : String)
    (force : Bool) : (engine.deactivate order name force).2.now = engine.now := by
  unfold Engine.deactivate
  dsimp only
  split
  · rfl
  · have hreleased := (lets_releaseAll h
      (order.1 (engine.grantsWhere fun g => g.name == name))).now_eq
    split
    · exact hreleased
    · rw [stopShared_now]
      exact hreleased

/-- The clock is not set back. -/
theorem now_le_perform (h : engine.Bookkeeping) (operation : Operation) :
    engine.now ≤ (engine.perform operation).now := by
  cases operation with
  | activate entry connection clientPid outcome =>
    exact (now_activated (activate_activated engine entry connection clientPid outcome)).ge
  | release id => exact (lets_releaseAll h [id]).now_eq.ge
  | releaseConnection order connection => exact (lets_releaseAll h _).now_eq.ge
  | deactivate order name force => exact (now_deactivate h order name force).ge
  | reapIdle order => exact (reapIdle_now engine order).ge
  | elapse milliseconds => exact Nat.le_add_right _ _
  | expire name =>
    show engine.now ≤ (engine.expire name).now
    unfold expire
    split <;> exact Nat.le_refl _
  | evaluate | decide | exit | outOfBand => exact Nat.le_refl _

end Engine

/-! ### Runs -/

namespace Timed

variable {t : Timed} {name : String}

/-- A timer is due one window of 300 seconds after the last moment at which there was a share. -/
structure Clocked (t : Timed) : Prop where
  books : t.engine.Bookkeeping
  present : t.engine ∈ t.past
  past_le : ∀ engine ∈ t.past, engine.now ≤ t.engine.now
  after : ∀ name timer, (t.engine.server name).idleTimer = some timer →
    ∀ engine ∈ t.past, 0 < engine.shareCount name → engine.now + defaultIdleTimeout ≤ timer.due
  since : ∀ name timer, (t.engine.server name).idleTimer = some timer →
    ∃ engine ∈ t.past, 0 < engine.shareCount name ∧ timer.due = engine.now + defaultIdleTimeout
  finished : ∀ name timer, (t.engine.server name).idleTimer = some timer → timer.finished = true →
    timer.due ≤ t.engine.now

theorem clocked_new (disk : Disk) (now brokerPid nextGrant : Nat) :
    (Timed.new disk now brokerPid nextGrant).Clocked := by
  have hrow : ∀ name, ((Timed.new disk now brokerPid nextGrant).engine.server name).idleTimer = none := by
    intro name
    have habsent : (Engine.new disk now brokerPid nextGrant).server name = .absent :=
      Engine.server_of_none (by simp [Engine.new])
    exact congrArg SharedServer.idleTimer habsent
  refine ⟨Engine.bookkeeping_new disk now brokerPid nextGrant, List.mem_singleton.mpr rfl, ?_, ?_, ?_, ?_⟩
  · intro engine hengine
    rw [List.mem_singleton.mp hengine]
    exact Nat.le_refl _
  all_goals
    intro name timer htimer
    rw [hrow] at htimer
    simp at htimer

/-- **Every operation keeps it.** -/
theorem Clocked.perform (h : t.Clocked) (operation : Operation) : (t.perform operation).Clocked := by
  have hbooks := h.books.perform operation
  have hnow := Engine.now_le_perform h.books operation
  have hfrom := Engine.timersFrom_perform h.books operation
  refine ⟨hbooks, List.mem_append_right _ (List.mem_singleton.mpr rfl), ?_, ?_, ?_, ?_⟩
  · intro engine hengine
    rcases List.mem_append.mp hengine with hengine | hengine
    · exact (h.past_le engine hengine).trans hnow
    · rw [List.mem_singleton.mp hengine]
      exact Nat.le_refl _
  · intro name timer htimer engine hengine hshare
    rcases List.mem_append.mp hengine with hengine | hengine
    · rcases hfrom name timer htimer with ⟨old, hold, hdue, -⟩ | ⟨-, rfl⟩
      · rw [hdue]
        exact h.after name old hold engine hengine hshare
      · exact Nat.add_le_add_right (h.past_le engine hengine) _
    · -- a row with shares has no timer
      rw [List.mem_singleton.mp hengine, ← hbooks.refcount_eq] at hshare
      have hnone := ((hbooks.steady name).serving hshare).2
      exact absurd (hnone.symm.trans htimer) nofun
  · intro name timer htimer
    rcases hfrom name timer htimer with ⟨old, hold, hdue, -⟩ | ⟨hpos, rfl⟩
    · obtain ⟨engine, hengine, hshare, hsince⟩ := h.since name old hold
      exact ⟨engine, List.mem_append_left _ hengine, hshare, hdue.trans hsince⟩
    · rw [h.books.refcount_eq] at hpos
      exact ⟨t.engine, List.mem_append_left _ h.present, hpos, rfl⟩
  · intro name timer htimer hfinished
    rcases hfrom name timer htimer with ⟨old, hold, hdue, hended⟩ | ⟨-, rfl⟩
    · rw [hdue]
      rcases hended hfinished with hold' | hdue'
      · exact (h.finished name old hold hold').trans hnow
      · exact hdue'.trans hnow
    · simp at hfinished

theorem clocked_of_run {disk : Disk} {now brokerPid nextGrant : Nat} {operations : List Operation}
    (h : Transition.Run Step (Timed.new disk now brokerPid nextGrant) operations t) : t.Clocked := by
  refine h.invariant (clocked_new disk now brokerPid nextGrant) ?_
  rintro t operation _ ht rfl
  exact ht.perform operation

/-- **A tick stops a child exactly if its server has been without shares for 300 seconds.** -/
theorem Clocked.stopped_iff (h : t.Clocked) (hpunctual : t.engine.Punctual name) (order : IterationOrder)
    (hchild : (t.engine.server name).child.isSome = true) :
    ((t.engine.reapIdle order).server name).child = none ↔ t.IdleFor name defaultIdleTimeout := by
  have hstopped : ((t.engine.reapIdle order).server name).child = none ↔ name ∈ t.engine.expired := by
    rw [Engine.reapIdle_server]
    split
    · rename_i hmem
      exact iff_of_true rfl hmem
    · rename_i hmem
      exact iff_of_false (Option.isSome_iff_ne_none.mp hchild) hmem
  rw [hstopped, Engine.mem_expired, IdleFor, h.books.refcount_eq]
  refine and_congr_right fun hzero => ?_
  constructor
  · rintro ⟨timer, htimer, hfinished⟩ engine hengine hshare
    exact (h.after name timer htimer engine hengine hshare).trans
      (h.finished name timer htimer hfinished)
  · intro hidle
    -- an idle child has a timer, started when the last share was let go of
    have htimed := (h.books.steady name).idle hchild ((h.books.refcount_eq name).trans hzero)
    obtain ⟨timer, htimer⟩ := Option.isSome_iff_exists.mp htimed
    obtain ⟨engine, hengine, hshare, hdue⟩ := h.since name timer htimer
    exact ⟨timer, htimer, hpunctual timer htimer (hdue ▸ hidle engine hengine hshare)⟩

theorem IdleFor.anti {m m' : Nat} (h : t.IdleFor name m) (hle : m' ≤ m) : t.IdleFor name m' :=
  ⟨h.1, fun engine hengine hshare => (Nat.add_le_add_left hle _).trans (h.2 engine hengine hshare)⟩

/-- A card that gives 300 seconds, or nothing, is respected. -/
theorem windowKept_of_default {disk : Disk} {now brokerPid nextGrant : Nat} {operations : List Operation}
    (h : Transition.Run Step (Timed.new disk now brokerPid nextGrant) operations t)
    (hpunctual : t.engine.Punctual name) (order : IterationOrder)
    (hwindow : t.window name = defaultIdleTimeout) : t.WindowKept order name := by
  intro hchild
  rw [hwindow]
  exact (clocked_of_run h).stopped_iff hpunctual order hchild

/-- **In every run, a tick respects a server's window exactly if it does not come between the end of the
    card's window and the end of the window of 300 seconds.** -/
theorem windowKept_iff {disk : Disk} {now brokerPid nextGrant : Nat} {operations : List Operation}
    (h : Transition.Run Step (Timed.new disk now brokerPid nextGrant) operations t)
    (hpunctual : t.engine.Punctual name) (order : IterationOrder) :
    t.WindowKept order name ↔ ((t.engine.server name).child.isSome = true →
      t.IdleFor name (min (t.window name) defaultIdleTimeout) →
        t.IdleFor name (max (t.window name) defaultIdleTimeout)) := by
  refine forall_congr' fun hchild => ?_
  rw [(clocked_of_run h).stopped_iff hpunctual order hchild]
  rcases Nat.le_total (t.window name) defaultIdleTimeout with hle | hle
  · rw [Nat.min_eq_left hle, Nat.max_eq_right hle]
    exact ⟨fun hiff => hiff.mpr, fun himp => ⟨fun hidle => hidle.anti hle, himp⟩⟩
  · rw [Nat.min_eq_right hle, Nat.max_eq_left hle]
    exact ⟨fun hiff => hiff.mp, fun himp => ⟨himp, fun hidle => hidle.anti hle⟩⟩

end Timed

/-! ### A window that is not kept -/

/-- A viewer that is to be stopped ten seconds after its last client. -/
def briefCard : JsonValue :=
  ⟨.object [("description", .string "Viewer"),
    ("local", .object [
      ("endpoint", .object [("address", .string "viewer"), ("type", .string "pipe")]),
      ("launch", .object [("command", .string "viewer"), ("type", .string "executable")]),
      ("lifetime", .object [("idleTimeoutSeconds", .number (.posInt 10))])]),
    ("name", .string "com.example.viewer"), ("version", .string "1.0.0")], by decide +kernel⟩

/-- Its catalog entry. -/
def briefEntry : Entry :=
  { name := "com.example.viewer"
    card := { name := "com.example.viewer", version := "1.0.0", description := "Viewer", title := none,
              localBlock := some { launch := some { launchType := .executable, command := "viewer",
                                                    args := none, cwd := none, shared := none },
                                   endpoint := some { endpointType := .pipe, address := "viewer" },
                                   liveness := none, lifetime := some { idleTimeoutSeconds := some 10 },
                                   consent := none },
              remotes := none }
    expanded := briefCard, version := "1.0.0", tier := .user,
    path := "com.example.viewer.card.json", orphaned := false, shadowed := [],
    launchHash := Proto.launchHash String.ofList briefCard.1 }

example : validate briefCard.1 = .ok briefEntry.card := rfl

/-- A viewer is approved, activated and released, and time passes. -/
def viewerOperations (entry : Entry) (milliseconds : Nat) : List Operation :=
  [.decide "2026-01-01T00:00:00Z" entry.name (.grant entry.launchHash "viewer" .user)
      (.written ⟨1, 200⟩ true),
    .activate entry 1 none working, .release "g100-1", .elapse milliseconds, .expire entry.name]

/-- The engine then. -/
def viewerTimed (entry : Entry) (milliseconds : Nat) : Timed :=
  (viewerOperations entry milliseconds).foldl Timed.perform (.new ⟨none, none⟩ 0 100 1)

theorem run_viewerTimed (entry : Entry) (milliseconds : Nat) :
    Transition.Run Timed.Step (.new ⟨none, none⟩ 0 100 1) (viewerOperations entry milliseconds)
      (viewerTimed entry milliseconds) :=
  .snoc (.snoc (.snoc (.snoc (.snoc .start rfl) rfl) rfl) rfl) rfl

instance (t : Timed) (name : String) (milliseconds : Nat) : Decidable (t.IdleFor name milliseconds) :=
  inferInstanceAs (Decidable (_ ∧ _))

theorem punctual_of_eq {engine : Engine} {name : String} {timer : IdleTimer}
    (htimer : (engine.server name).idleTimer = some timer)
    (hfinished : timer.due ≤ engine.now → timer.finished = true) : engine.Punctual name := by
  intro timer' htimer' hdue
  obtain rfl : timer = timer' := Option.some.inj (htimer.symm.trans htimer')
  exact hfinished hdue

theorem not_windowKept : ¬ ∀ (disk : Disk) (now brokerPid nextGrant : Nat) (operations : List Operation)
    (t : Timed) (order : IterationOrder) (name : String),
      Transition.Run Timed.Step (.new disk now brokerPid nextGrant) operations t →
        t.engine.Punctual name → t.WindowKept order name := by
  intro h
  have htimer : ((viewerTimed briefEntry 10000).engine.server "com.example.viewer").idleTimer =
      some ⟨300000, false⟩ := by decide +kernel
  have hpunctual := punctual_of_eq htimer (by decide +kernel)
  have hkept := h _ _ _ _ _ _ ⟨id, fun _ => .rfl⟩ "com.example.viewer" (run_viewerTimed briefEntry 10000)
    hpunctual
  have hchild : ((viewerTimed briefEntry 10000).engine.server "com.example.viewer").child.isSome = true := by
    decide +kernel
  have hidle : (viewerTimed briefEntry 10000).IdleFor "com.example.viewer"
      ((viewerTimed briefEntry 10000).window "com.example.viewer") := by decide +kernel
  have hstopped := (hkept hchild).mpr hidle
  -- no timer has run out, so the child is still there
  revert hstopped
  decide +kernel

/-- When both the time on the card and the default have run out, the timer has, too. -/
theorem windowKept_viewer :
    (viewerTimed briefEntry 300000).WindowKept ⟨id, fun _ => .rfl⟩ "com.example.viewer" := by
  have htimer : ((viewerTimed briefEntry 300000).engine.server "com.example.viewer").idleTimer =
      some ⟨300000, true⟩ := by decide +kernel
  refine (Timed.windowKept_iff (run_viewerTimed briefEntry 300000) (punctual_of_eq htimer fun _ => rfl)
    ⟨id, fun _ => .rfl⟩).mpr fun _ _ => ?_
  decide +kernel

end McpLocator.Broker
