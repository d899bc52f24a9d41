import Mathlib.Data.List.Basic

namespace McpLocator.Transition

/-!
# Runs of labelled transition systems

* `Run step init labels s` — the labels, oldest first, lead from `init` to `s`.
* `Run.invariant` — what holds initially and is preserved by every step holds of every state
  reached.
* `Run.append`, `Run.mono` — one run after the other; fewer steps, fewer runs.
* `replay`, `Run.extend`, `run_of_replay`, `run_of_checked` — executing a guarded step function along
  labels gives a run.
-/

variable {σ α : Type}

/-- A run from `init`. -/
inductive Run (step : σ → α → σ → Prop) (init : σ) : List α → σ → Prop where
  | start : Run step init [] init
  | snoc {labels : List α} {s s' : σ} {a : α} (run : Run step init labels s) (next : step s a s') :
      Run step init (labels ++ [a]) s'

variable {step step' : σ → α → σ → Prop} {init s : σ} {labels : List α}

/-- **The invariant rule.** -/
theorem Run.invariant {P : σ → Prop} (h : Run step init labels s) (start : P init)
    (next : ∀ s a s', P s → step s a s' → P s') : P s := by
  induction h with
  | start => exact start
  | snoc _ hs ih => exact next _ _ _ ih hs

/-- A run may go on where another one has ended. -/
theorem Run.append {more : List α} {s' : σ} (h : Run step init labels s) (h' : Run step s more s') :
    Run step init (labels ++ more) s' := by
  induction h' with
  | start =>
    rw [List.append_nil]
    exact h
  | snoc _ hs ih =>
    rw [← List.append_assoc]
    exact .snoc ih hs

/-- A run whose steps are all steps of another system is a run of that system. -/
theorem Run.mono (h : Run step init labels s) (hstep : ∀ s a s', step s a s' → step' s a s') :
    Run step' init labels s := by
  induction h with
  | start => exact .start
  | snoc _ hs ih => exact .snoc ih (hstep _ _ _ hs)

/-- Follow the labels from `s`; `none` where a label is not enabled. -/
def replay (f : σ → α → Option σ) : σ → List α → Option σ
  | s, [] => some s
  | s, a :: labels => (f s a).bind fun s' => replay f s' labels

theorem replay_append {f : σ → α → Option σ} (s : σ) (labels more : List α) :
    replay f s (labels ++ more) = (replay f s labels).bind fun s' => replay f s' more := by
  induction labels generalizing s with
  | nil => rfl
  | cons a labels ih =>
    show ((f s a).bind fun s' => replay f s' (labels ++ more)) =
      ((f s a).bind fun s' => replay f s' labels).bind _
    rw [Option.bind_assoc]
    exact congrArg _ (funext ih)

/-- What the guarded step function executes is a run, and where an invariant implies a further guard,
    a run that respects it. -/
theorem Run.extend {f : σ → α → Option σ} {guard : σ → α → Prop} {P : σ → Prop} {rest : List α}
    {s' : σ} (h : Run (fun s a s' => f s a = some s' ∧ guard s a) init labels s) (hs : P s)
    (hstep : ∀ s a s', P s → a ∈ rest → f s a = some s' → guard s a ∧ P s')
    (hr : replay f s rest = some s') :
    Run (fun s a s' => f s a = some s' ∧ guard s a) init (labels ++ rest) s' := by
  induction rest generalizing labels s with
  | nil =>
    obtain rfl := Option.some.inj hr
    rw [List.append_nil]
    exact h
  | cons a rest ih =>
    obtain ⟨t, ht, hr⟩ := Option.bind_eq_some_iff.mp hr
    obtain ⟨hguard, hP⟩ := hstep s a t hs List.mem_cons_self ht
    rw [← List.singleton_append, ← List.append_assoc]
    exact ih (.snoc h ⟨ht, hguard⟩) hP
      (fun s b s' hb hmem => hstep s b s' hb (List.mem_cons_of_mem _ hmem)) hr

/-- The case without a further guard. -/
theorem run_of_replay {f : σ → α → Option σ} {rest : List α} {s' : σ}
    (h : Run (fun s a s' => f s a = some s') init labels s) (hr : replay f s rest = some s') :
    Run (fun s a s' => f s a = some s') init (labels ++ rest) s' := by
  have hguarded : Run (fun s a s' => f s a = some s' ∧ True) init labels s :=
    h.mono fun _ _ _ hs => ⟨hs, trivial⟩
  exact (hguarded.extend (P := fun _ => True) trivial (fun _ _ _ _ _ _ => ⟨trivial, trivial⟩)
    hr).mono fun _ _ _ hs => hs.1

/-- Where the guard can be checked, checking it before every step gives a run that respects it. -/
theorem run_of_checked {f : σ → α → Option σ} {guard : σ → α → Prop} [∀ s a, Decidable (guard s a)]
    {rest : List α} {s' : σ} (hr : replay (fun s a => if guard s a then f s a else none) init rest =
      some s') : Run (fun s a s' => f s a = some s' ∧ guard s a) init rest s' := by
  have hrun := run_of_replay .start hr
  refine hrun.mono fun s a s' hs => ?_
  split at hs
  · rename_i hguard
    exact ⟨hs, hguard⟩
  · exact absurd hs nofun

end McpLocator.Transition
