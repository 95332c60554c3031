import Mathlib.Tactic.Common

/-! The bounded first-in first-out queue, as what an implementation refines: a list of items to which
a step adds at the back while there is room, or from which it takes at the front. -/

namespace Concurrency

variable {α : Type*} {capacity : ℕ}

inductive QueueStep (capacity : ℕ) : List α → List α → Prop
  | stay (items : List α) : QueueStep capacity items items
  | enqueue (items : List α) (item : α) (room : items.length < capacity) :
      QueueStep capacity items (items ++ [item])
  | dequeue (item : α) (items : List α) : QueueStep capacity (item :: items) items

/-- The first of a list of positions leaves the queue. -/
theorem QueueStep.of_drop {positions : List α} {n : ℕ} (hn : n < positions.length) :
    QueueStep capacity (positions.drop n) (positions.drop (n + 1)) := by
  rw [List.drop_eq_getElem_cons hn]
  exact .dequeue _ _

/-- A new position enters the queue. -/
theorem QueueStep.of_append {positions : List α} {n : ℕ} (item : α) (hn : n ≤ positions.length)
    (room : positions.length < n + capacity) :
    QueueStep capacity (positions.drop n) ((positions ++ [item]).drop n) := by
  rw [List.drop_append_of_le_length hn]
  refine .enqueue _ _ ?_
  rw [List.length_drop]
  omega

end Concurrency
