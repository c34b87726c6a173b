import Mathlib.Data.List.Flatten
import Yaaf.Library.Channel

/-!
# Queues That Hand Out Copies

A queue with several receivers, as one of them sees it. Whoever works the
queue claims the oldest element and hands it to the receivers one after the
other, and a receiver that is on the list several times gets it as often. An
outlet is what there is of this for one receiver: the queue, how often it is
on the list, and the copies of the claimed element it has still to get.

Nothing here says that a receiver gets an element once. What it gets is the
claimed elements with each repeated, and that is the same only for a receiver
that is on the list once.

## Main definitions

* `Outlet`: A queue as one of its receivers sees it.
* `Outlet.repeated`: Every element so many times, one after the other.
* `Outlet.Step`: What arrives and what is handed out in a step.
* `Outlet.Accounts`: What arrived and was handed out since the receiver came.

## Theorems

* `Outlet.repeated_eq_iff`: When repeating changes nothing.
* `Outlet.accounts_step`: The account stays right.
* `Outlet.channel_of_step`: Who is on the list once sees a channel.
-/

/-- A queue as one of its receivers sees it. -/
structure Outlet (α : Type) where
  /-- What is still in the queue. -/
  queued : List α
  /-- How often the receiver is on the list. -/
  share : Nat
  /-- The copies of the claimed element it has still to get. -/
  left : List α

namespace Outlet

variable {α : Type}

/-- Every element so many times, one after the other. -/
def repeated (n : Nat) (xs : List α) : List α :=
  xs.flatMap (List.replicate n)

@[simp] theorem repeated_nil (n : Nat) : repeated n ([] : List α) = [] :=
  rfl

theorem repeated_append (n : Nat) (xs ys : List α) :
    repeated n (xs ++ ys) = repeated n xs ++ repeated n ys :=
  List.flatMap_append

theorem repeated_singleton (n : Nat) (x : α) : repeated n [x] = List.replicate n x :=
  List.flatMap_singleton _ x

theorem repeated_one (xs : List α) : repeated 1 xs = xs :=
  List.flatMap_singleton' xs

theorem length_repeated (n : Nat) (xs : List α) :
    (repeated n xs).length = xs.length * n := by
  induction xs with
  | nil => rw [repeated_nil, List.length_nil, Nat.zero_mul]
  | cons x xs ih =>
      rw [← List.singleton_append, repeated_append, repeated_singleton, List.length_append, ih,
        List.length_replicate, List.length_append, List.length_singleton, Nat.add_mul, Nat.one_mul]

/-- Repeating changes nothing if it repeats once, or if there is nothing to repeat. -/
theorem repeated_eq_iff (n : Nat) (xs : List α) : repeated n xs = xs ↔ n = 1 ∨ xs = [] := by
  refine ⟨fun h => ?_, fun h => ?_⟩
  · have hlen := congrArg List.length h
    rw [length_repeated] at hlen
    by_cases hxs : xs = []
    · exact Or.inr hxs
    · have hpos : 0 < xs.length := List.length_pos_iff.mpr hxs
      exact Or.inl (Nat.eq_of_mul_eq_mul_left hpos (hlen.trans (Nat.mul_one _).symm))
  · rcases h with rfl | rfl
    · exact repeated_one xs
    · rfl

/-- A step, with what arrives and what is handed out in it. -/
inductive Step (o : Outlet α) : List α → List α → Outlet α → Prop
  | still : Step o [] [] o
  | arrive (x : α) : Step o [x] [] { o with queued := o.queued ++ [x] }
  | claim (x : α) (rest : List α) (hq : o.queued = x :: rest) (hl : o.left = []) :
      Step o [] [] { o with queued := rest, left := List.replicate o.share x }
  | hand (x : α) (rest : List α) (hl : o.left = x :: rest) :
      Step o [] [x] { o with left := rest }

/-- What arrived and what was handed out since the receiver came: it got the claimed
    elements with each repeated, less what it has still to get. -/
def Accounts (o : Outlet α) (arrived handed : List α) : Prop :=
  ∃ claimed, arrived = claimed ++ o.queued ∧ handed ++ o.left = repeated o.share claimed

/-- The receiver comes, and finds what is queued. -/
theorem accounts_start {o : Outlet α} (hl : o.left = []) : o.Accounts o.queued [] :=
  ⟨[], rfl, hl⟩

/-- No step puts the receiver on the list or takes it off. -/
theorem step_share {o o' : Outlet α} {as hs : List α} (h : o.Step as hs o') :
    o'.share = o.share := by
  cases h <;> rfl

theorem accounts_step {o o' : Outlet α} {as hs arrived handed : List α} (h : o.Step as hs o')
    (hacc : o.Accounts arrived handed) : o'.Accounts (arrived ++ as) (handed ++ hs) := by
  rcases hacc with ⟨claimed, harrived, hhanded⟩
  cases h with
  | still =>
      rw [List.append_nil, List.append_nil]
      exact ⟨claimed, harrived, hhanded⟩
  | arrive x =>
      refine ⟨claimed, ?_, ?_⟩
      · rw [harrived, List.append_assoc]
      · rw [List.append_nil]
        exact hhanded
  | claim x rest hq hl =>
      refine ⟨claimed ++ [x], ?_, ?_⟩
      · rw [List.append_nil, harrived, hq, List.append_assoc, List.singleton_append]
      · rw [hl, List.append_nil] at hhanded
        rw [List.append_nil, hhanded, repeated_append, repeated_singleton]
  | hand x rest hl =>
      refine ⟨claimed, ?_, ?_⟩
      · rw [List.append_nil]
        exact harrived
      · rw [List.append_assoc, List.singleton_append, ← hl]
        exact hhanded

/-- Who is on the list once sees a channel. -/
theorem channel_of_step {o o' : Outlet α} {as hs : List α} (h : o.Step as hs o')
    (hshare : o.share = 1) {c : Channel α} (hq : c.queued = o.queued)
    (hc : c.claimed.toList = o.left) :
    ∃ c' : Channel α, c'.arrived = c.arrived ++ as ∧ c'.handed = c.handed ++ hs ∧
      c'.queued = o'.queued ∧ c'.claimed.toList = o'.left ∧ (c' = c ∨ c.Step c') := by
  cases h with
  | still => exact ⟨c, (List.append_nil _).symm, (List.append_nil _).symm, hq, hc, Or.inl rfl⟩
  | arrive x =>
      exact ⟨c.arrive x, rfl, (List.append_nil _).symm, congrArg (· ++ [x]) hq, hc,
        Or.inr (.arrive x)⟩
  | claim x rest hqueued hleft =>
      have hnone : c.claimed = none := Option.toList_eq_nil_iff.mp (hc.trans hleft)
      refine ⟨c.claim x rest (hq.trans hqueued) hnone, (List.append_nil _).symm,
        (List.append_nil _).symm, rfl, ?_, Or.inr (.claim x rest _ _)⟩
      rw [hshare]
      rfl
  | hand x rest hleft =>
      rw [hleft] at hc
      cases hclaimed : c.claimed with
      | none =>
          rw [hclaimed] at hc
          exact absurd hc (List.cons_ne_nil x rest).symm
      | some y =>
          rw [hclaimed, Option.toList_some, List.cons.injEq] at hc
          rcases hc with ⟨rfl, hrest⟩
          exact ⟨c.hand y hclaimed, (List.append_nil _).symm, rfl, hq, hrest,
            Or.inr (.hand y hclaimed)⟩

end Outlet
