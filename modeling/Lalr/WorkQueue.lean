import Std.Data.TreeSet

/-!
# Work queues

A work queue hands out values in the order in which they came in.  A value that is still waiting is
not queued a second time; once it has been handed out it may come back.  Values wait in two lists,
the front in order and the back reversed, beside the set of those that are waiting.
-/

namespace Lalr

/-- A first-in first-out queue in which every waiting value stands once. -/
structure WorkQueue (α : Type) [Ord α] where
  front : List α
  back : List α
  pending : Std.TreeSet α

namespace WorkQueue

variable {α : Type} [Ord α]

def empty : WorkQueue α := ⟨[], [], ∅⟩

/-- The waiting values, the next one first. -/
def toList (queue : WorkQueue α) : List α := queue.front ++ queue.back.reverse

/-- Queue a value, and say whether it was not waiting already. -/
def push (queue : WorkQueue α) (value : α) : Bool × WorkQueue α :=
  if queue.pending.contains value then
    (false, queue)
  else
    (true, { queue with back := value :: queue.back, pending := queue.pending.insert value })

/-- Hand out the value that has waited longest. -/
def pop (queue : WorkQueue α) : Option (α × WorkQueue α) :=
  match queue.front with
  | value :: front => some (value, { queue with front, pending := queue.pending.erase value })
  | [] =>
      match queue.back.reverse with
      | [] => none
      | value :: front => some (value, ⟨front, [], queue.pending.erase value⟩)

def size (queue : WorkQueue α) : Nat := queue.front.length + queue.back.length

def isEmpty (queue : WorkQueue α) : Bool := queue.front.isEmpty && queue.back.isEmpty

@[simp] theorem toList_empty : (empty : WorkQueue α).toList = [] := rfl

@[simp] theorem length_toList (queue : WorkQueue α) : queue.toList.length = queue.size := by
  simp [toList, size]

/-- A value that is not waiting joins at the end. -/
theorem toList_push {queue : WorkQueue α} {value : α}
    (fresh : queue.pending.contains value = false) :
    (queue.push value).2.toList = queue.toList ++ [value] := by
  simp [push, fresh, toList]

/-- The queue hands out its first value and keeps the others. -/
theorem toList_of_pop {queue rest : WorkQueue α} {value : α}
    (popped : queue.pop = some (value, rest)) : queue.toList = value :: rest.toList := by
  obtain ⟨front, back, pending⟩ := queue
  unfold pop at popped
  split at popped
  · next h =>
      simp only [Option.some.injEq, Prod.mk.injEq] at popped
      obtain ⟨rfl, rfl⟩ := popped
      simp only at h
      simp [toList, h]
  · next h =>
      split at popped
      · simp at popped
      · next reversed =>
          simp only [Option.some.injEq, Prod.mk.injEq] at popped
          obtain ⟨rfl, rfl⟩ := popped
          simp only at h reversed
          simp [toList, h, reversed]

/-- Nothing is handed out exactly when nothing waits. -/
theorem pop_eq_none_iff {queue : WorkQueue α} : queue.pop = none ↔ queue.toList = [] := by
  obtain ⟨front, back, pending⟩ := queue
  cases front with
  | cons value front => simp [pop, toList]
  | nil =>
      simp only [pop, toList, List.nil_append]
      cases back.reverse <;> simp

end WorkQueue

end Lalr
