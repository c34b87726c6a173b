import Mathlib.Data.Multiset.AddSub
import Yaaf.Library.Machine
import Yaaf.Library.Slots

/-!
# A Queue That Is Worked Off

What a pool of threads is, with no mention of threads. There is a queue, and
there is what has been taken from it and is not given back yet. What is put in
goes to the end, what is taken is the oldest, and no more than so much can be out
at a time. Which of the equal hands holds what is of no interest, so what is out
is a multiset.

Every run keeps three accounts. What was put in is what was taken and then what
is queued, in this order. What was taken is what was given back and what is out.
And there is never more out than there are hands.

Where the hands are the slots of a table, what is out is what the slots hold, and
replacing a slot or removing it exchanges or removes what it held.

## Main definitions

* `TaskQueue`: What is queued and what is out.
* `TaskQueue.Label`: What can be seen.
* `TaskQueue.machine`: The runs.
* `TaskQueue.puts`, `TaskQueue.takes`, `TaskQueue.gives`: The histories.
* `TaskQueue.held`: What the slots of a table hold.

## Theorems

* `TaskQueue.in_order`: Taken in the order in which they were put in.
* `TaskQueue.accounted`: What was taken is out or was given back.
* `TaskQueue.out_le`: No more is out than there are hands.
* `TaskQueue.run_put`, `TaskQueue.run_take`, `TaskQueue.run_give`: The steps, as runs.
* `TaskQueue.held_slot`: What becomes of what a slot holds.
-/

/-- A queue, and what was taken from it and is not given back yet. -/
@[ext]
structure TaskQueue (τ : Type) where
  queued : List τ
  out : Multiset τ

namespace TaskQueue

variable {τ : Type}

/-- What can be seen of a queue. -/
inductive Label (τ : Type)
  | put (t : τ)
  | take (t : τ)
  | give (t : τ)

/-- Nothing is queued and nothing is out. -/
def empty : TaskQueue τ where
  queued := []
  out := 0

def Label.put? : Label τ → Option τ
  | .put t => some t
  | _ => none

def Label.take? : Label τ → Option τ
  | .take t => some t
  | _ => none

def Label.give? : Label τ → Option τ
  | .give t => some t
  | _ => none

/-- Everything that was put in. -/
def puts (ls : List (Label τ)) : List τ := ls.filterMap Label.put?

/-- Everything that was taken. -/
def takes (ls : List (Label τ)) : List τ := ls.filterMap Label.take?

/-- Everything that was given back. -/
def gives (ls : List (Label τ)) : List τ := ls.filterMap Label.give?

section Steps

variable [DecidableEq τ]

open Classical in
/-- One step, with so many hands. -/
noncomputable def step (hands : Nat) (s : TaskQueue τ) : Label τ → Option (TaskQueue τ)
  | .put t => some { s with queued := s.queued ++ [t] }
  | .take t =>
      if s.queued.head? = some t ∧ s.out.card < hands then some ⟨s.queued.tail, t ::ₘ s.out⟩
      else none
  | .give t => if t ∈ s.out then some { s with out := s.out.erase t } else none

/-- The runs of a queue. -/
noncomputable def machine (τ : Type) [DecidableEq τ] (hands : Nat) :
    Machine (TaskQueue τ) (Label τ) where
  start := empty
  step := step hands

variable {hands : Nat} {s s' : TaskQueue τ} {l : Label τ}

theorem step_queued (hs : s.step hands l = some s') :
    takes [l] ++ s'.queued = s.queued ++ puts [l] := by
  cases l with
  | put t =>
      simp only [step, Option.some.injEq] at hs
      rw [← hs]
      rfl
  | take t =>
      simp only [step, Option.ite_none_right_eq_some, Option.some.injEq] at hs
      rcases hs with ⟨⟨hhead, _⟩, rfl⟩
      refine Eq.trans ?_ (List.append_nil _).symm
      exact List.cons_head?_tail hhead
  | give t =>
      simp only [step, Option.ite_none_right_eq_some, Option.some.injEq] at hs
      rw [← hs.2]
      exact (List.append_nil _).symm

theorem step_out (hs : s.step hands l = some s') :
    (gives [l] : Multiset τ) + s'.out = s.out + (takes [l] : Multiset τ) := by
  cases l with
  | put t =>
      simp only [step, Option.some.injEq] at hs
      rw [← hs]
      exact Multiset.add_comm _ _
  | take t =>
      simp only [step, Option.ite_none_right_eq_some, Option.some.injEq] at hs
      rw [← hs.2]
      exact (Multiset.zero_add _).trans (Multiset.singleton_add t s.out ▸ Multiset.add_comm _ _)
  | give t =>
      simp only [step, Option.ite_none_right_eq_some, Option.some.injEq] at hs
      rcases hs with ⟨hmem, rfl⟩
      refine Eq.trans ?_ (Multiset.add_zero _).symm
      exact (Multiset.singleton_add t _).trans (Multiset.cons_erase hmem)

theorem step_card (hs : s.step hands l = some s') (h : s.out.card ≤ hands) :
    s'.out.card ≤ hands := by
  cases l with
  | put t =>
      simp only [step, Option.some.injEq] at hs
      rw [← hs]
      exact h
  | take t =>
      simp only [step, Option.ite_none_right_eq_some, Option.some.injEq] at hs
      rw [← hs.2, Multiset.card_cons]
      exact hs.1.2
  | give t =>
      simp only [step, Option.ite_none_right_eq_some, Option.some.injEq] at hs
      rw [← hs.2]
      exact Nat.le_trans (Multiset.card_le_card (Multiset.erase_le t s.out)) h

/-- What was put in is taken in this order, and the rest is still queued. -/
theorem in_order : ∀ (ls : List (Label τ)) (s t : TaskQueue τ),
    (machine τ hands).run s ls = some t → takes ls ++ t.queued = s.queued ++ puts ls := by
  intro ls
  induction ls with
  | nil =>
      intro s t h
      simp only [Machine.run, Option.some.injEq] at h
      rw [h]
      exact (List.append_nil _).symm
  | cons l ls ih =>
      intro s t h
      rcases Machine.run_cons h with ⟨s', hs, hrest⟩
      have htakes : takes (l :: ls) = takes [l] ++ takes ls := List.filterMap_append (l := [l])
      have hputs : puts (l :: ls) = puts [l] ++ puts ls := List.filterMap_append (l := [l])
      rw [htakes, hputs, List.append_assoc, ih s' t hrest, ← List.append_assoc, step_queued hs,
        List.append_assoc]

/-- What was taken is out or was given back. -/
theorem accounted : ∀ (ls : List (Label τ)) (s t : TaskQueue τ),
    (machine τ hands).run s ls = some t →
      (gives ls : Multiset τ) + t.out = s.out + (takes ls : Multiset τ) := by
  intro ls
  induction ls with
  | nil =>
      intro s t h
      simp only [Machine.run, Option.some.injEq] at h
      rw [h]
      exact Multiset.add_comm _ _
  | cons l ls ih =>
      intro s t h
      rcases Machine.run_cons h with ⟨s', hs, hrest⟩
      have htakes : takes (l :: ls) = takes [l] ++ takes ls := List.filterMap_append (l := [l])
      have hgives : gives (l :: ls) = gives [l] ++ gives ls := List.filterMap_append (l := [l])
      rw [htakes, hgives, ← Multiset.coe_add, ← Multiset.coe_add, Multiset.add_assoc, ih s' t hrest,
        ← Multiset.add_assoc, step_out hs, Multiset.add_assoc]

/-- No more is out than there are hands. -/
theorem out_le {ls : List (Label τ)} {s t : TaskQueue τ} (h : (machine τ hands).run s ls = some t)
    (hs : s.out.card ≤ hands) : t.out.card ≤ hands :=
  Machine.path_invariant (fun t => t.out.card ≤ hands) (fun _ _ _ _ hs => step_card hs)
    (Machine.path_of_run ls s t h) hs

theorem run_put (q : List τ) (o : Multiset τ) (t : τ) :
    (machine τ hands).run ⟨q, o⟩ [.put t] = some ⟨q ++ [t], o⟩ := rfl

theorem run_take (q : List τ) {o : Multiset τ} (t : τ) (h : o.card < hands) :
    (machine τ hands).run ⟨t :: q, o⟩ [.take t] = some ⟨q, t ::ₘ o⟩ := by
  simp only [Machine.run, machine, step, List.head?_cons, h, and_self, if_true, List.tail_cons]

theorem run_give (q : List τ) (o : Multiset τ) (t : τ) :
    (machine τ hands).run ⟨q, t ::ₘ o⟩ [.give t] = some ⟨q, o⟩ := by
  simp only [Machine.run, machine, step, Multiset.mem_cons_self, if_true,
    Multiset.erase_cons_head]

end Steps

section Held

variable {σ : Type}

/-- What the slots of a table hold. -/
def held (f : σ → Option τ) (slots : List σ) : Multiset τ := (slots.filterMap f : List τ)

/-- What a slot holds, and what becomes of it when the slot is replaced or removed. -/
theorem held_slot {slots : List σ} {i : Nat} {x : σ} (h : slots[i]? = some x) (f : σ → Option τ) :
    ∃ rest : Multiset τ, rest.card < slots.length ∧
      held f slots = ((f x).toList : Multiset τ) + rest ∧
      (∀ y, held f (slots.set i y) = ((f y).toList : Multiset τ) + rest) ∧
      held f (slots.eraseIdx i) = rest := by
  rcases Slots.slot_split h with ⟨pre, post, hslots, hset, herase⟩
  have hone : ∀ y, held f (pre ++ y :: post) =
      ((f y).toList : Multiset τ) + held f (pre ++ post) := by
    intro y
    have hcons : (y :: post).filterMap f = (f y).toList ++ post.filterMap f := by
      rw [List.filterMap_cons]
      cases f y <;> rfl
    simp only [held, List.filterMap_append, hcons, ← Multiset.coe_add]
    rw [← Multiset.add_assoc, ← Multiset.add_assoc,
      Multiset.add_comm (pre.filterMap f : Multiset τ)]
  refine ⟨held f (pre ++ post), ?_, ?_, fun y => ?_, ?_⟩
  · refine Nat.lt_of_le_of_lt (List.length_filterMap_le f (pre ++ post)) ?_
    rw [hslots, List.length_append, List.length_append, List.length_cons]
    exact Nat.lt_succ_self _
  · rw [hslots, hone]
  · rw [hset, hone]
  · rw [herase]

end Held

end TaskQueue
