import Mathlib.Data.List.Basic
import Mathlib.Data.List.Flatten
import Mathlib.Logic.Function.Basic
import Yaaf.Library.Machine

/-!
# Mailboxes and Servers

What a system of actors is, with no mention of who runs it. There are mailboxes,
and there are servers that take messages from them. A message arrives at the end
of a mailbox. A server that is free begins with the oldest message of a mailbox,
and is busy with it until it is done. That is all: which server serves which
mailbox, and when, is for others to say.

Two things follow from it for every run, whatever else happens in between. From
each mailbox the messages are served in the order in which they arrived, each
once. And each server begins and ends in turn.

An implementation is compared with this by what is seen of it. If everything it
shows, from its start on, is a run of this machine that ends in the state that
it stands for, then whatever holds of these runs holds of what it shows.

## Main definitions

* `ActorModel`: Mailboxes, and what each server is busy with.
* `ActorModel.Label`: What can be seen.
* `ActorModel.machine`: The runs.
* `ActorModel.arrived`, `ActorModel.served`: The histories of a mailbox.
* `ActorModel.turns`: The history of a server.

## Theorems

* `ActorModel.served_arrived`: In the order of arrival, each once.
* `ActorModel.turns_alternate`: A server begins and ends in turn.
-/

/-- Mailboxes, and what each server is busy with: a message and where it came from. -/
@[ext]
structure ActorModel (ι α ε : Type) where
  mail : ι → List ε
  busy : α → Option (ι × ε)

namespace ActorModel

variable {ι α ε : Type}

/-- What can be seen of a system of actors. -/
inductive Label (ι α ε : Type)
  | arrive (m : ι) (e : ε)
  | begin (a : α) (m : ι) (e : ε)
  | done (a : α) (m : ι)

/-- Nothing has arrived and nobody is busy. -/
def idle : ActorModel ι α ε where
  mail := fun _ => []
  busy := fun _ => none

section Steps

variable [DecidableEq ι] [DecidableEq α]

open Classical in
/-- One step. A server that is free takes the oldest message, and a server that is
    busy is done with what it has. -/
noncomputable def step (s : ActorModel ι α ε) : Label ι α ε → Option (ActorModel ι α ε)
  | .arrive m e => some { s with mail := Function.update s.mail m (s.mail m ++ [e]) }
  | .begin a m e =>
      if s.busy a = none ∧ (s.mail m).head? = some e then
        some ⟨Function.update s.mail m (s.mail m).tail, Function.update s.busy a (some (m, e))⟩
      else none
  | .done a m =>
      if ∃ e, s.busy a = some (m, e) then some { s with busy := Function.update s.busy a none }
      else none

/-- The runs of a system of actors. -/
noncomputable def machine (ι α ε : Type) [DecidableEq ι] [DecidableEq α] :
    Machine (ActorModel ι α ε) (Label ι α ε) where
  start := idle
  step := step

/-- A message that arrives at a mailbox. -/
def Label.arrived? (m : ι) : Label ι α ε → Option ε
  | .arrive n e => if n = m then some e else none
  | _ => none

/-- A message from a mailbox that a server begins with. -/
def Label.served? (m : ι) : Label ι α ε → Option ε
  | .begin _ n e => if n = m then some e else none
  | _ => none

/-- What a server does. -/
def Label.turn? (a : α) : Label ι α ε → Option (Label ι α ε)
  | .begin b m e => if b = a then some (.begin b m e) else none
  | .done b m => if b = a then some (.done b m) else none
  | _ => none

/-- Everything that arrived at a mailbox. -/
def arrived (m : ι) (ls : List (Label ι α ε)) : List ε :=
  ls.filterMap (Label.arrived? m)

/-- Everything that was served from a mailbox. -/
def served (m : ι) (ls : List (Label ι α ε)) : List ε :=
  ls.filterMap (Label.served? m)

/-- Everything a server did. -/
def turns (a : α) (ls : List (Label ι α ε)) : List (Label ι α ε) :=
  ls.filterMap (Label.turn? a)

/-- A message that a server began with and was done with. -/
def round (a : α) (r : ι × ε) : List (Label ι α ε) :=
  [.begin a r.1 r.2, .done a r.1]

/-- What a server that is busy has begun. -/
def begun (a : α) : Option (ι × ε) → List (Label ι α ε)
  | none => []
  | some r => [.begin a r.1 r.2]

variable {s s' t : ActorModel ι α ε}

/-- What a step does to a mailbox. -/
theorem step_mail {l : Label ι α ε} (hs : s.step l = some s') (m : ι) :
    served m [l] ++ s'.mail m = s.mail m ++ arrived m [l] := by
  cases l with
  | arrive n e =>
      simp only [step, Option.some.injEq] at hs
      rw [← hs]
      by_cases hn : n = m
      · subst hn
        simp only [served, arrived, List.filterMap_cons, Label.served?, Label.arrived?, if_true,
          List.filterMap_nil, List.nil_append, Function.update_self]
      · simp only [served, arrived, List.filterMap_cons, Label.served?, Label.arrived?, if_neg hn,
          List.filterMap_nil, List.nil_append, List.append_nil,
          Function.update_of_ne (fun h => hn h.symm)]
  | begin a n e =>
      simp only [step, Option.ite_none_right_eq_some, Option.some.injEq] at hs
      rcases hs with ⟨⟨_, hhead⟩, rfl⟩
      by_cases hn : n = m
      · subst hn
        simp only [served, arrived, List.filterMap_cons, Label.served?, Label.arrived?, if_true,
          List.filterMap_nil, List.append_nil, Function.update_self, List.singleton_append]
        exact List.cons_head?_tail hhead
      · simp only [served, arrived, List.filterMap_cons, Label.served?, Label.arrived?, if_neg hn,
          List.filterMap_nil, List.nil_append, List.append_nil,
          Function.update_of_ne (fun h => hn h.symm)]
  | done a n =>
      simp only [step, Option.ite_none_right_eq_some, Option.some.injEq] at hs
      rw [← hs.2]
      exact (List.append_nil _).symm

/-- What a step does to a server. -/
theorem step_turns {l : Label ι α ε} (hs : s.step l = some s') (a : α) :
    ∃ rounds : List (ι × ε), begun a (s.busy a) ++ turns a [l] =
      rounds.flatMap (round a) ++ begun a (s'.busy a) := by
  cases l with
  | arrive n e =>
      simp only [step, Option.some.injEq] at hs
      rw [← hs]
      exact ⟨[], List.append_nil _⟩
  | begin b n e =>
      simp only [step, Option.ite_none_right_eq_some, Option.some.injEq] at hs
      rcases hs with ⟨⟨hfree, _⟩, rfl⟩
      refine ⟨[], ?_⟩
      by_cases hb : b = a
      · subst hb
        simp only [hfree, turns, List.filterMap_cons, Label.turn?, if_true, List.filterMap_nil,
          Function.update_self, begun, List.flatMap_nil, List.nil_append]
      · simp only [turns, List.filterMap_cons, Label.turn?, if_neg hb, List.filterMap_nil,
          Function.update_of_ne (fun h => hb h.symm), List.append_nil, List.flatMap_nil,
          List.nil_append]
  | done b n =>
      simp only [step, Option.ite_none_right_eq_some, Option.some.injEq] at hs
      rcases hs with ⟨⟨e, hbusy⟩, rfl⟩
      by_cases hb : b = a
      · subst hb
        refine ⟨[(n, e)], ?_⟩
        simp only [hbusy, turns, List.filterMap_cons, Label.turn?, if_true, List.filterMap_nil,
          Function.update_self, begun, List.flatMap_cons, List.flatMap_nil, round,
          List.append_nil, List.singleton_append]
      · refine ⟨[], ?_⟩
        simp only [turns, List.filterMap_cons, Label.turn?, if_neg hb, List.filterMap_nil,
          Function.update_of_ne (fun h => hb h.symm), List.append_nil, List.flatMap_nil,
          List.nil_append]

omit [DecidableEq α] in
theorem arrived_cons (m : ι) (l : Label ι α ε) (ls : List (Label ι α ε)) :
    arrived m (l :: ls) = arrived m [l] ++ arrived m ls := by
  rw [← List.singleton_append]
  exact List.filterMap_append

omit [DecidableEq α] in
theorem served_cons (m : ι) (l : Label ι α ε) (ls : List (Label ι α ε)) :
    served m (l :: ls) = served m [l] ++ served m ls := by
  rw [← List.singleton_append]
  exact List.filterMap_append

omit [DecidableEq ι] in
theorem turns_cons (a : α) (l : Label ι α ε) (ls : List (Label ι α ε)) :
    turns a (l :: ls) = turns a [l] ++ turns a ls := by
  rw [← List.singleton_append]
  exact List.filterMap_append

/-- From each mailbox the messages are served in the order of their arrival, each once. -/
theorem served_arrived (m : ι) : ∀ (ls : List (Label ι α ε)) (s t : ActorModel ι α ε),
    (machine ι α ε).run s ls = some t → served m ls ++ t.mail m = s.mail m ++ arrived m ls := by
  intro ls
  induction ls with
  | nil =>
      intro s t h
      simp only [Machine.run, Option.some.injEq] at h
      rw [h]
      exact (List.append_nil _).symm
  | cons l ls ih =>
      intro s t h
      rcases Machine.run_cons h with ⟨s', hs, hrest⟩
      rw [served_cons, arrived_cons, List.append_assoc, ih s' t hrest, ← List.append_assoc,
        step_mail hs m, List.append_assoc]

/-- Each server begins and ends in turn. -/
theorem turns_alternate (a : α) : ∀ (ls : List (Label ι α ε)) (s t : ActorModel ι α ε),
    (machine ι α ε).run s ls = some t → ∃ rounds : List (ι × ε),
      begun a (s.busy a) ++ turns a ls = rounds.flatMap (round a) ++ begun a (t.busy a) := by
  intro ls
  induction ls with
  | nil =>
      intro s t h
      simp only [Machine.run, Option.some.injEq] at h
      rw [h]
      exact ⟨[], List.append_nil _⟩
  | cons l ls ih =>
      intro s t h
      rcases Machine.run_cons h with ⟨s', hs, hrest⟩
      rcases step_turns hs a with ⟨first, hfirst⟩
      rcases ih s' t hrest with ⟨others, hothers⟩
      refine ⟨first ++ others, ?_⟩
      rw [turns_cons, ← List.append_assoc, hfirst, List.append_assoc, hothers, List.flatMap_append,
        List.append_assoc]

end Steps

end ActorModel
