import Mathlib.Data.List.Basic
import McpLocator.Lib.Run

namespace McpLocator

/-!
# Debounced reports

Something that changes is observed when its changes are signalled, but not before there has been no
signal for a while: each signal sets the one timer anew.

* `Debounce`, `Debounce.step` — the thing that changes, the timer, and the reports so far.
* `Heard`, `Punctual` — changes are signalled, and a timer that is due goes off before time passes.
* `Debounce.Sound` — the invariant; `Sound.settled`, when the last report is what there is.
-/

/-- The thing that changes, and its observer. -/
structure Debounce (σ ρ : Type) where
  state : σ
  now : Nat
  /-- When the timer goes off, if it is set. -/
  timer : Option Nat
  closed : Bool
  /-- Since the last signal there has been a change that will be signalled. -/
  unseen : Bool
  /-- When there were signals, newest first. -/
  signals : List Nat
  /-- What was reported and when, newest first. -/
  reports : List (Nat × ρ)

/-- What happens. -/
inductive DebounceEvent (σ : Type) where
  /-- A change that will be signalled, or that will not. -/
  | change (signalled : Bool) (state : σ)
  | signal
  | elapse (time : Nat)
  | timeout
  | close

namespace Debounce

variable {σ ρ : Type}

def new (state : σ) : Debounce σ ρ :=
  { state, now := 0, timer := none, closed := false, unseen := false, signals := [], reports := [] }

/-- What was reported last, or what there was to begin with. -/
def last (observe : σ → ρ) (init : σ) (d : Debounce σ ρ) : ρ :=
  (d.reports.head?.map Prod.snd).getD (observe init)

def step (observe : σ → ρ) (period : Nat) (d : Debounce σ ρ) :
    DebounceEvent σ → Option (Debounce σ ρ)
  | .change signalled state => some { d with state, unseen := d.unseen || signalled }
  | .signal => some
    { d with timer := some (d.now + period), unseen := false, signals := d.now :: d.signals }
  | .elapse time => some { d with now := d.now + time }
  | .timeout =>
    match d.timer with
    | none => none
    | some due =>
      if due ≤ d.now then some
        { d with
          timer := none
          reports := if d.closed then d.reports else (d.now, observe d.state) :: d.reports }
      else none
  | .close => some { d with closed := true, timer := none }

/-- As long as anybody listens, what is not signalled changes nothing that is observed. -/
def Heard (observe : σ → ρ) (d : Debounce σ ρ) : DebounceEvent σ → Prop
  | .change signalled state =>
    d.closed = false → signalled = false → observe state = observe d.state
  | _ => True

/-- Time does not pass a timer that is due. -/
def Punctual (d : Debounce σ ρ) : DebounceEvent σ → Prop
  | .elapse time => ∀ due, d.timer = some due → d.now + time ≤ due
  | _ => True

/-- A run in which changes are signalled and the timer is on time. -/
abbrev Run (observe : σ → ρ) (period : Nat) (init : σ) : List (DebounceEvent σ) → Debounce σ ρ → Prop :=
  Transition.Run (fun d event d' =>
    d.step observe period event = some d' ∧ Heard observe d event ∧ Punctual d event) (new init)

/-! ### The invariant -/

/-- What holds after every step. -/
structure Sound (observe : σ → ρ) (period : Nat) (init : σ) (d : Debounce σ ρ) : Prop where
  /-- As long as nothing is to come, the last report is up to date. -/
  fresh : d.closed = false → d.timer = none → d.unseen = false →
    d.last observe init = observe d.state
  /-- The timer goes off one period after the last signal. -/
  due : ∀ due, d.timer = some due → ∃ s, d.signals.head? = some s ∧ due = s + period
  /-- It has not gone off too late. -/
  onTime : ∀ due, d.timer = some due → d.now ≤ due
  /-- Signals lie in the past, the newest first. -/
  past : ∀ s ∈ d.signals, s ≤ d.now
  newest : d.signals.Pairwise (· ≥ ·)
  /-- A report comes one period after a signal, with no signal in between. -/
  quiet : ∀ r ∈ d.reports, r.1 ≤ d.now ∧ ∃ s ∈ d.signals, r.1 = s + period ∧
    ∀ s' ∈ d.signals, s' ≤ s ∨ r.1 ≤ s'
  /-- A signal is not reported twice. -/
  count : d.reports.length + (if d.timer.isSome then 1 else 0) ≤ d.signals.length

variable {observe : σ → ρ} {period : Nat} {init : σ} {d d' : Debounce σ ρ}

theorem sound_new (observe : σ → ρ) (period : Nat) (init : σ) :
    Sound observe period init (new init : Debounce σ ρ) where
  fresh _ _ _ := rfl
  due _ h := absurd h (by simp [new])
  onTime _ h := absurd h (by simp [new])
  past _ h := absurd h (by simp [new])
  newest := .nil
  quiet _ h := absurd h (by simp [new])
  count := Nat.le_refl _

theorem timeout_eq_some (hs : d.step observe period .timeout = some d') :
    ∃ due, d.timer = some due ∧ due ≤ d.now ∧ d' = { d with
      timer := none
      reports := if d.closed then d.reports else (d.now, observe d.state) :: d.reports } := by
  rw [Debounce.step] at hs
  cases htimer : d.timer with
  | none => simp [htimer] at hs
  | some due =>
    simp only [htimer, Option.ite_none_right_eq_some] at hs
    exact ⟨due, rfl, hs.1, (Option.some.inj hs.2).symm⟩

/-- A signal sets the timer anew. -/
theorem Sound.signal (h : Sound observe period init d) :
    Sound observe period init { d with
      timer := some (d.now + period), unseen := false, signals := d.now :: d.signals } where
  fresh _ htimer := absurd htimer (by simp)
  due due hdue := ⟨d.now, rfl, (Option.some.inj hdue).symm⟩
  onTime due hdue := by
    obtain rfl := Option.some.inj hdue
    exact Nat.le_add_right _ _
  past := List.forall_mem_cons.mpr ⟨Nat.le_refl _, h.past⟩
  newest := List.pairwise_cons.mpr ⟨h.past, h.newest⟩
  quiet r hr := by
    obtain ⟨hnow, s, hs, heq, hothers⟩ := h.quiet r hr
    exact ⟨hnow, s, List.mem_cons_of_mem _ hs, heq, List.forall_mem_cons.mpr ⟨.inr hnow, hothers⟩⟩
  count := by
    have := h.count
    rw [List.length_cons]
    split at this <;> simp <;> omega

/-- The timer goes off. -/
theorem Sound.timeout (h : Sound observe period init d) {due : Nat} (htimer : d.timer = some due)
    (hdue : due ≤ d.now) : Sound observe period init { d with
      timer := none
      reports := if d.closed then d.reports else (d.now, observe d.state) :: d.reports } where
  fresh hopen _ _ := by
    rw [last, hopen]
    rfl
  due _ hnone := absurd hnone (by simp)
  onTime _ hnone := absurd hnone (by simp)
  past := h.past
  newest := h.newest
  quiet r hr := by
    split at hr
    · exact h.quiet r hr
    · rcases List.mem_cons.mp hr with rfl | hold
      · obtain ⟨s, hhead, rfl⟩ := h.due due htimer
        obtain ⟨rest, hsignals⟩ := List.head?_eq_some_iff.mp hhead
        have hnewest := h.newest
        have hnow : d.now = s + period := Nat.le_antisymm (h.onTime _ htimer) hdue
        rw [hsignals] at hnewest ⊢
        exact ⟨Nat.le_refl _, s, List.mem_cons_self, hnow, List.forall_mem_cons.mpr
          ⟨.inl (Nat.le_refl _), fun s' hs' => .inl ((List.pairwise_cons.mp hnewest).1 s' hs')⟩⟩
      · exact h.quiet r hold
  count := by
    have := h.count
    rw [htimer] at this
    split <;> simp at this ⊢ <;> omega

/-- **Every step keeps the invariant.** -/
theorem Sound.step (h : Sound observe period init d) {event : DebounceEvent σ}
    (hs : d.step observe period event = some d') (hheard : Heard observe d event)
    (hpunctual : Punctual d event) : Sound observe period init d' := by
  cases event with
  | change signalled state =>
    obtain rfl := Option.some.inj hs
    refine { h with fresh := fun hopen htimer hunseen => ?_ }
    obtain ⟨hunseen, hsignalled⟩ := Bool.or_eq_false_iff.mp hunseen
    exact (h.fresh hopen htimer hunseen).trans (hheard hopen hsignalled).symm
  | signal =>
    obtain rfl := Option.some.inj hs
    exact h.signal
  | elapse time =>
    obtain rfl := Option.some.inj hs
    refine { h with
      onTime := hpunctual
      past := fun s hs => Nat.le_add_right_of_le (h.past s hs)
      quiet := fun r hr => ?_ }
    obtain ⟨hnow, hsignal⟩ := h.quiet r hr
    exact ⟨Nat.le_add_right_of_le hnow, hsignal⟩
  | timeout =>
    obtain ⟨due, htimer, hdue, rfl⟩ := timeout_eq_some hs
    exact h.timeout htimer hdue
  | close =>
    obtain rfl := Option.some.inj hs
    refine { h with
      fresh := fun hopen => absurd hopen (by simp)
      due := fun _ hnone => absurd hnone (by simp)
      onTime := fun _ hnone => absurd hnone (by simp)
      count := ?_ }
    have := h.count
    simp only [Option.isSome_none]
    split at this <;> simp <;> omega

theorem Run.sound {events : List (DebounceEvent σ)} (h : Run observe period init events d) :
    Sound observe period init d :=
  Transition.Run.invariant (P := Sound observe period init) h (sound_new observe period init)
    fun _ _ _ hd hs => hd.step hs.1 hs.2.1 hs.2.2

/-- **When it has been quiet for longer than the period, the last report is up to date.** -/
theorem Sound.settled (h : Sound observe period init d) (hopen : d.closed = false)
    (hseen : d.unseen = false) (hquiet : ∀ s ∈ d.signals, s + period < d.now) :
    d.last observe init = observe d.state := by
  refine h.fresh hopen ?_ hseen
  cases htimer : d.timer with
  | none => rfl
  | some due =>
    -- the timer would be overdue
    obtain ⟨s, hhead, rfl⟩ := h.due due htimer
    have hlate := hquiet s (List.mem_of_mem_head? hhead)
    have hontime := h.onTime _ htimer
    omega

/-- **Nothing is reported after the end.** -/
theorem reports_of_closed (hclosed : d.closed = true) {event : DebounceEvent σ}
    (hs : d.step observe period event = some d') : d'.closed = true ∧ d'.reports = d.reports := by
  cases event with
  | timeout =>
    obtain ⟨due, -, -, rfl⟩ := timeout_eq_some hs
    exact ⟨hclosed, if_pos hclosed⟩
  | change | signal | elapse =>
    obtain rfl := Option.some.inj hs
    exact ⟨hclosed, rfl⟩
  | close =>
    obtain rfl := Option.some.inj hs
    exact ⟨rfl, rfl⟩

end Debounce

end McpLocator
