import Mathlib.Data.List.Basic

namespace McpLocator

/-!
# Queues

* `Queue` — what waits in a queue, and what has been taken from it.
* `Feeds` — two queues in series: what is taken from the one is put into the other.  What comes out at
  the end is a prefix of what went in (`Feeds.isPrefix_entered`).
-/

structure Queue (α : Type) where
  /-- What has been taken from it, oldest first. -/
  taken : List α
  waiting : List α
deriving DecidableEq

namespace Queue

variable {α : Type}

def empty : Queue α := ⟨[], []⟩

/-- All that was ever put into it. -/
def entered (q : Queue α) : List α := q.taken ++ q.waiting

def put (q : Queue α) (xs : List α) : Queue α := { q with waiting := q.waiting ++ xs }

/-- The first `n` in the queue. -/
def front (q : Queue α) (n : Nat) : List α := q.waiting.take n

def take (q : Queue α) (n : Nat) : Queue α := ⟨q.taken ++ q.front n, q.waiting.drop n⟩

@[simp] theorem taken_take (q : Queue α) (n : Nat) : (q.take n).taken = q.taken ++ q.front n := rfl

@[simp] theorem waiting_take (q : Queue α) (n : Nat) : (q.take n).waiting = q.waiting.drop n := rfl

@[simp] theorem entered_put (q : Queue α) (xs : List α) : (q.put xs).entered = q.entered ++ xs :=
  (List.append_assoc ..).symm

/-- Nothing is lost and nothing changes its place when the front is taken. -/
@[simp] theorem entered_take (q : Queue α) (n : Nat) : (q.take n).entered = q.entered := by
  rw [entered, taken_take, waiting_take, front, List.append_assoc, List.take_append_drop, entered]

theorem taken_isPrefix (q : Queue α) : q.taken <+: q.entered := List.prefix_append _ _

theorem taken_eq_entered {q : Queue α} (h : q.waiting = []) : q.taken = q.entered := by
  rw [entered, h, List.append_nil]

/-! ### In series -/

/-- What is taken from `q` is put into `q'`. -/
def Feeds (q q' : Queue α) : Prop := q.taken = q'.entered

namespace Feeds

variable {q q' : Queue α}

theorem empty : Feeds (.empty : Queue α) .empty := rfl

theorem put (h : Feeds q q') (xs : List α) : Feeds (q.put xs) q' := h

theorem take (h : Feeds q q') (n : Nat) : Feeds q (q'.take n) := by
  rw [Feeds, entered_take]
  exact h

/-- The front is passed on. -/
theorem pass (h : Feeds q q') (n : Nat) : Feeds (q.take n) (q'.put (q.front n)) := by
  rw [Feeds, taken_take, entered_put, h]

/-- What has been taken at the end is where it was at the beginning. -/
theorem isPrefix_entered (h : Feeds q q') : q'.taken <+: q.entered := by
  have hq := q.taken_isPrefix
  rw [show q.taken = q'.entered from h] at hq
  exact q'.taken_isPrefix.trans hq

end Feeds

end Queue

end McpLocator
