import Mathlib.Tactic.Common

/-!
# Histories of a queue

What a queue is asked and answers, from its creation on. `Queued events xs` says
that a first-in first-out queue allows the history and is left with `xs`.
-/

namespace Machine

inductive QueueEvent (α : Type)
  | added (x : α)
  | popped (x : Option α)

inductive Queued {α : Type} : List (QueueEvent α) → List α → Prop
  | created : Queued [] []
  | added (x : α) : Queued events xs → Queued (events ++ [.added x]) (xs ++ [x])
  | popped : Queued events (x :: xs) → Queued (events ++ [.popped (some x)]) xs
  | empty : Queued events [] → Queued (events ++ [.popped none]) []

variable {α : Type} {events : List (QueueEvent α)} {xs ys : List α}

def QueueEvent.item? : QueueEvent α → Option α
  | .added x => some x
  | .popped _ => none

def QueueEvent.answer? : QueueEvent α → Option α
  | .added _ => none
  | .popped x => x

theorem Queued.order (h : Queued events xs) :
    events.filterMap QueueEvent.item? = events.filterMap QueueEvent.answer? ++ xs := by
  induction h with
  | created => rfl
  | added x h ih => simp [ih, QueueEvent.item?, QueueEvent.answer?]
  | popped h ih => simp [ih, QueueEvent.item?, QueueEvent.answer?]
  | empty h ih => simp [ih, List.filterMap_cons, QueueEvent.item?, QueueEvent.answer?]

theorem Queued.unique (hx : Queued events xs) (hy : Queued events ys) : xs = ys :=
  List.append_cancel_left (hx.order.symm.trans hy.order)

theorem Queued.of_added (h : Queued (events ++ [.added x]) ys) (hx : Queued events xs) :
    ys = xs ++ [x] := h.unique (hx.added x)

end Machine
