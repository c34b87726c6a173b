import Mathlib.Data.List.Basic

/-!
# First-In First-Out Channels

What a mailbox is for, with no mention of who works it. A channel remembers
everything that arrived and everything that was handed over, and holds what
is still queued and at most one element that was claimed from the queue and
not yet handed over. That these add up, in order, is part of what a channel
is: `exact` is a field, so every operation has to account for every element,
and exactly-once delivery in order of arrival is what the type says.

An implementation represents a channel by its own state and shows that each
of its steps is a `Step` of the channel it represents, or none. Nothing else
about the implementation matters then.

## Main definitions

* `Channel`: Arrivals, accounted for.
* `Channel.arrive`, `Channel.claim`, `Channel.hand`: The operations.
* `Channel.Step`: One operation.
-/

/-- Arrivals, accounted for: handed over, claimed, or still queued, in that
    order. -/
structure Channel (α : Type) where
  arrived : List α
  handed : List α
  claimed : Option α
  queued : List α
  exact : handed ++ claimed.toList ++ queued = arrived

namespace Channel

variable {α : Type}

/-- A channel that begins with a backlog. -/
def start (backlog : List α) : Channel α where
  arrived := backlog
  handed := []
  claimed := none
  queued := backlog
  exact := rfl

/-- An element arrives at the end of the queue. -/
def arrive (c : Channel α) (x : α) : Channel α where
  arrived := c.arrived ++ [x]
  handed := c.handed
  claimed := c.claimed
  queued := c.queued ++ [x]
  exact := by rw [← c.exact, List.append_assoc _ c.queued]

/-- The oldest element is claimed, when no other is. -/
def claim (c : Channel α) (x : α) (rest : List α) (hq : c.queued = x :: rest)
    (hc : c.claimed = none) : Channel α where
  arrived := c.arrived
  handed := c.handed
  claimed := some x
  queued := rest
  exact := by
    rw [← c.exact, hq, hc, List.append_assoc, List.append_assoc]
    rfl

/-- The claimed element is handed over. -/
def hand (c : Channel α) (x : α) (hc : c.claimed = some x) : Channel α where
  arrived := c.arrived
  handed := c.handed ++ [x]
  claimed := none
  queued := c.queued
  exact := by
    rw [← c.exact, hc]
    simp only [Option.toList_none, Option.toList_some, List.append_nil]

/-- One operation. -/
inductive Step (c : Channel α) : Channel α → Prop
  | arrive (x : α) : Step c (c.arrive x)
  | claim (x : α) (rest : List α) (hq : c.queued = x :: rest) (hc : c.claimed = none) :
      Step c (c.claim x rest hq hc)
  | hand (x : α) (hc : c.claimed = some x) : Step c (c.hand x hc)

end Channel
