import Yaaf.Library.Machine

/-!
# Waiting on a Condition Variable

A machine says what threads do, and lets a thread that waits for something go on
when it is there. Here is what lies between: the thread finds it missing, falls
asleep, and has to be woken. It looks with the mutex held and falls asleep as it
lets go of it. Whoever makes the thing be there wakes all sleepers, but only
later, after the mutex is free again, so that a notification is owed for a while.
A sleeper may also wake for no reason.

A wake-up is lost when the thing is there, somebody sleeps, and nobody is going
to wake them. It cannot be lost as long as every step that makes the thing be
there is one that a notification follows: this is all a program has to see to,
and it does not matter that the notification comes late.

## Main definitions

* `Monitor`: A machine, what its threads wait for and who notifies.
* `Sleeping`: A state of the machine, with those asleep and what is owed.
* `Monitor.machine`: The runs with sleep in them.
* `Monitor.Heeds`: Every step that makes the thing be there notifies.

## Theorems

* `Monitor.path_base`: Without sleep, a run is a run.
* `Monitor.no_sleep_over_work`: No wake-up is lost.
-/

/-- A machine, what its threads wait for, and who notifies. -/
structure Monitor (σ α : Type) where
  base : Machine σ α
  -- What the threads wait for is there.
  ready : σ → Bool
  -- The thread with this number stands at the wait.
  waits : σ → Nat → Bool
  -- The mutex can be taken.
  free : σ → Bool
  -- The thread whose step it is, if it is one of those that wait.
  mover : α → Option Nat
  -- A notification follows the step.
  signals : σ → α → Bool

/-- A state of the machine, with those asleep and the notifications owed. -/
structure Sleeping (σ : Type) where
  state : σ
  asleep : List Nat
  owed : Nat

namespace Monitor

variable {σ α : Type}

/-- The steps of a machine with sleep in it. -/
inductive Act (α : Type)
  | act (a : α)
  /-- The thread finds nothing and falls asleep. -/
  | sleep (i : Nat)
  /-- One notification that is owed wakes everybody. -/
  | notifyAll
  /-- The thread wakes because somebody notified one thread, or for no reason. -/
  | wake (i : Nat)
deriving DecidableEq

/-- One step. Whoever sleeps does nothing. -/
def step (m : Monitor σ α) (s : Sleeping σ) : Act α → Option (Sleeping σ)
  | .act a =>
      if (m.mover a).all (fun i => !s.asleep.contains i) = true then
        (m.base.step s.state a).map fun t =>
          { s with state := t, owed := s.owed + (m.signals s.state a).toNat }
      else none
  | .sleep i =>
      if m.waits s.state i = true ∧ m.free s.state = true ∧ m.ready s.state = false ∧
          i ∉ s.asleep then
        some { s with asleep := s.asleep ++ [i] }
      else none
  | .notifyAll => if 0 < s.owed then some { s with asleep := [], owed := s.owed - 1 } else none
  | .wake i => some { s with asleep := s.asleep.erase i }

/-- The runs with sleep in them. -/
def machine (m : Monitor σ α) : Machine (Sleeping σ) (Act α) where
  start := ⟨m.base.start, [], 0⟩
  step := m.step

/-- Every step that makes the thing be there notifies, and a thread that waits stays
    where it is as long as others move. -/
structure Heeds (m : Monitor σ α) : Prop where
  notifies : ∀ s a s', m.base.step s a = some s' → m.ready s = false → m.ready s' = true →
    m.signals s a = true
  stays : ∀ s a s' i, m.base.step s a = some s' → m.waits s i = true → m.mover a ≠ some i →
    m.waits s' i = true

/-- No thread sleeps that does not stand at the wait, and where the thing is there a
    notification is owed to those asleep. -/
structure Watched (m : Monitor σ α) (s : Sleeping σ) : Prop where
  waits : ∀ i ∈ s.asleep, m.waits s.state i = true
  owed : s.asleep ≠ [] → m.ready s.state = true → 0 < s.owed

variable {m : Monitor σ α} {s s' : Sleeping σ}

theorem act_step {a : α} (hs : m.step s (.act a) = some s') :
    (∀ i, m.mover a = some i → i ∉ s.asleep) ∧ m.base.step s.state a = some s'.state ∧
      s'.asleep = s.asleep ∧ s'.owed = s.owed + (m.signals s.state a).toNat := by
  simp only [step, Option.ite_none_right_eq_some, Option.map_eq_some_iff] at hs
  rcases hs with ⟨hawake, t, ht, rfl⟩
  refine ⟨fun i hi hmem => ?_, ht, rfl, rfl⟩
  rw [hi, Option.all_some, Bool.not_eq_true', List.contains_eq_mem, decide_eq_false_iff_not]
    at hawake
  exact hawake hmem

/-- A step of a machine with sleep is a step of it without, or leaves it alone. -/
theorem step_base {x : Act α} (hs : m.step s x = some s') :
    s'.state = s.state ∨ ∃ a, x = .act a ∧ m.base.step s.state a = some s'.state := by
  cases x with
  | act a => exact Or.inr ⟨a, rfl, (act_step hs).2.1⟩
  | sleep i | notifyAll =>
      simp only [step, Option.ite_none_right_eq_some, Option.some.injEq] at hs
      rw [← hs.2]
      exact Or.inl rfl
  | wake i =>
      simp only [step, Option.some.injEq] at hs
      rw [← hs]
      exact Or.inl rfl

/-- Without sleep, a run is a run. -/
theorem path_base {C : Sleeping σ → Act α → Prop} {t : Sleeping σ}
    (h : Machine.Path m.machine C s t) : Machine.Path m.base Machine.free s.state t.state := by
  induction h with
  | refl => exact .refl _
  | tail x _ _ hstep ih =>
      rcases step_base hstep with hsame | ⟨a, _, hone⟩
      · rw [hsame]
        exact ih
      · exact .tail a ih trivial hone

theorem step_watched (hm : m.Heeds) {x : Act α} (hs : m.step s x = some s') (h : Watched m s) :
    Watched m s' := by
  cases x with
  | act a =>
      rcases act_step hs with ⟨hawake, hone, hasleep, howed⟩
      refine ⟨fun i hi => ?_, fun hne hready => ?_⟩
      · rw [hasleep] at hi
        exact hm.stays _ a _ i hone (h.waits i hi) fun hi' => hawake i hi' hi
      · rw [howed]
        cases hbefore : m.ready s.state with
        | true => exact Nat.lt_of_lt_of_le (h.owed (hasleep ▸ hne) hbefore) (Nat.le_add_right _ _)
        | false =>
            rw [hm.notifies _ a _ hone hbefore hready]
            exact Nat.succ_pos _
  | sleep i =>
      simp only [step, Option.ite_none_right_eq_some, Option.some.injEq] at hs
      rcases hs with ⟨⟨hwaits, _, hno, _⟩, rfl⟩
      refine ⟨fun j hj => ?_, fun _ hready => ?_⟩
      · rcases List.mem_append.mp hj with hj | hj
        · exact h.waits j hj
        · rw [List.mem_singleton.mp hj]
          exact hwaits
      · rw [hno] at hready
        exact absurd hready Bool.false_ne_true
  | notifyAll =>
      simp only [step, Option.ite_none_right_eq_some, Option.some.injEq] at hs
      rw [← hs.2]
      exact ⟨fun i hi => absurd hi List.not_mem_nil, fun hne => absurd rfl hne⟩
  | wake i =>
      simp only [step, Option.some.injEq] at hs
      rw [← hs]
      refine ⟨fun j hj => h.waits j (List.mem_of_mem_erase hj), fun hne hready => ?_⟩
      refine h.owed (fun hnil => hne ?_) hready
      show s.asleep.erase i = []
      rw [hnil]
      rfl

/-- No wake-up is lost: in every run, those asleep stand at the wait, and where what
    they wait for is there a notification to them is owed. -/
theorem no_sleep_over_work (hm : m.Heeds) {C : Sleeping σ → Act α → Prop}
    (h : Machine.Reach m.machine C s) : Watched m s :=
  Machine.invariant (Watched m)
    ⟨fun _ hi => absurd hi List.not_mem_nil, fun hne => absurd rfl hne⟩
    (fun _ _ _ _ hs => step_watched hm hs) h

end Monitor
