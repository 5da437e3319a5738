import Mathlib.Data.List.Basic
/-!
# Bounded queues

A queue of at most `cap` values, oldest first. `append` takes of a list
what there is room for, `take` removes from the front; each says what it
moved.
-/

/-- **A queue of at most `cap` values.** -/
structure Fifo (α : Type*) (cap : ℕ) where
  queue : List α
  bounded : queue.length ≤ cap

namespace Fifo

variable {α : Type*} {cap : ℕ}

/-- The room left. -/
def room (q : Fifo α cap) : ℕ := cap - q.queue.length

def empty : Fifo α cap where
  queue := []
  bounded := Nat.zero_le cap

/-- What of a list there is room for goes to the end. -/
def append (q : Fifo α cap) (xs : List α) : Fifo α cap where
  queue := q.queue ++ xs.take q.room
  bounded := by
    have := q.bounded
    rw [List.length_append, List.length_take, room]
    omega

/-- The first `n` values go. -/
def drop (q : Fifo α cap) (n : ℕ) : Fifo α cap where
  queue := q.queue.drop n
  bounded := by
    have := q.bounded
    rw [List.length_drop]
    omega

end Fifo
