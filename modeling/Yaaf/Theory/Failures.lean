import Yaaf.Theory.Rules

/-!
# After a Failure

What a thread does once an exception has reached the `catch` clause: it asks, it may
climb, and it has the answer carried out. Every step of it is a rule of `Asks`, which
says what was asked, if anything was, and where the thread stands then.

## Main definitions

* `Question`: A call of `on_child_error`.
* `ApplyPc.failed`: The positions after a failure.
* `Asks`: What a step asks, and where it leads.
* `Lands`, `Records`: What that makes of the table of threads and of the trace.

## Theorems

* `asks_of_applyStep`: The steps of a thread after a failure.
* `failed_of_asks`: There is no way back into `apply`.
-/

namespace Yaaf

variable {π : Type}

/-- A call of `on_child_error`. -/
structure Question where
  whom : ActorPtr
  child : ActorAddress
  answer : ActorActionWhenError
deriving DecidableEq, Repr

/-- The question that an event records. -/
def Event.question : Event π → Option Question
  | .childError p addr answer => some ⟨p, addr, answer⟩
  | _ => none

/-- After a failure. -/
def ApplyPc.failed : ApplyPc π → Bool
  | .caught _ | .locking _ | .escalating _ _ | .deciding _ _ | .restarting _ => true
  | _ => false

/-- The answers a thread may get. -/
def TaskStep.asking : TaskStep → Bool
  | .childError (some _) | .escalate _ => true
  | _ => false

/-- What a step of a thread asks after a failure, and where it leads; `none` is the end
    of the task. -/
inductive Asks (s s' : System π) (t : ApplyTask) :
    ApplyPc π → TaskStep → List Question → Option (ApplyPc π) → Prop
  | ends (pc : ApplyPc π) (k : TaskStep) : Asks s s' t pc k [] none
  | halts (pc : ApplyPc π) (k : TaskStep) (hf : s'.fate ≠ .running)
      (hk : k.asking = false) : Asks s s' t pc k [] (some pc)
  | first (f : Bool) (parent : ActorPtr) (answer : ActorActionWhenError)
      (hparent : t.parent = some parent) :
      Asks s s' t (.caught f) (.childError (some answer)) [⟨parent, t.target.address, answer⟩]
        (some (if answer = .escalate then .locking f else .deciding f answer))
  | locks (f : Bool) : Asks s s' t (.locking f) .lockShared [] (some (.escalating f t.target))
  | next (f : Bool) (d up : Description) (answer : ActorActionWhenError)
      (hup : s.live d.parent = some up) :
      Asks s s' t (.escalating f d) (.escalate (some answer)) [⟨up.actor, d.address, answer⟩]
        (some (if answer = .escalate then .escalating f up else .deciding f answer))
  | fails (f : Bool) (d : Description) (answer : Option ActorActionWhenError)
      (hf : s'.fate ≠ .running) :
      Asks s s' t (.escalating f d) (.escalate answer) [] (some (.escalating f d))
  | restarts (f throws : Bool) :
      Asks s s' t (.deciding f .reinit) (.decide throws) [] (some (.restarting f))

/-- Where that is, in the table of threads. -/
def Lands (s s' : System π) (i : Nat) (t : ApplyTask) : Option (ApplyPc π) → Prop
  | none => s'.running = s.running.eraseIdx i
  | some pc => s'.running = s.running.set i (.applying t pc)

/-- The questions that were recorded between two states. -/
def Records (s s' : System π) (qs : List Question) : Prop :=
  ∃ evs, s'.trace = s.trace ++ evs ∧ evs.filterMap Event.question = qs

section Steps

variable {cfg : Config} {s s' u : System π} {i : Nat} {t : ApplyTask} {k : TaskStep}
  {pc : ApplyPc π}

theorem records_nil (ht : s'.trace = s.trace) : Records s s' [] :=
  ⟨[], by rw [ht, List.append_nil], rfl⟩

theorem records_emit (ev : Event π) {qs : List Question} (h : Records s s' qs) :
    Records s (s'.emit ev) (qs ++ ev.question.toList) := by
  rcases h with ⟨evs, hevs, rfl⟩
  refine ⟨evs ++ [ev], ?_, ?_⟩
  · rw [← List.append_assoc, ← hevs]
    rfl
  · rw [List.filterMap_append]
    cases hq : ev.question with
    | none => rw [List.filterMap_cons_none hq, List.filterMap_nil, Option.toList_none]
    | some q => rw [List.filterMap_cons_some hq, List.filterMap_nil, Option.toList_some]

/-- A stop asks nobody. -/
theorem records_of_stops (h : Stops cfg s u) : Records s u [] := by
  rcases h.trace with ⟨evs, hevs, hkinds, _⟩
  refine ⟨evs, hevs, List.filterMap_eq_nil_iff.mpr fun ev hev => ?_⟩
  rcases hkinds ev hev with ⟨_, _, _, rfl⟩ | ⟨_, _, _, rfl⟩ <;> rfl

theorem lands_same (hi : s.running[i]? = some (.applying t pc))
    (hr : s'.running = s.running) : Lands s s' i t (some pc) := by
  rcases List.getElem?_eq_some_iff.mp hi with ⟨hlt, hx⟩
  change s'.running = s.running.set i (.applying t pc)
  rw [hr, ← hx, List.set_getElem_self]

theorem same_of_lands (hi : s.running[i]? = some (.applying t pc))
    (h : Lands s s' i t (some pc)) : s'.running = s.running := by
  rcases List.getElem?_eq_some_iff.mp hi with ⟨hlt, hx⟩
  change s'.running = s.running.set i (.applying t pc) at h
  rw [h, ← hx, List.set_getElem_self]

/-- `on_actor_error` asks nobody. -/
theorem asks_of_onActorError {f throws : Bool} {action : ActorActionWhenError}
    (hi : s.running[i]? = some (.applying t (.deciding f action)))
    (hs : onActorError cfg s i t f action throws = some s') :
    ∃ qs out, Asks s s' t (.deciding f action) (.decide throws) qs out ∧ Lands s s' i t out ∧
      Records s s' qs := by
  cases action with
  | reinit =>
      simp only [onActorError, Option.ite_none_right_eq_some, Option.map_eq_some_iff] at hs
      rcases hs with ⟨_, u, hu, rfl⟩
      have hstops := (stopActorImplSafety_stops hu).1
      refine ⟨[], _, .restarts f throws, ?_,
        records_emit (.restartBegin _ _) (records_emit (.failureStopped _ _)
          (records_of_stops hstops))⟩
      unfold Lands
      rw [hstops.rest]
      rfl
  | stop =>
      simp only [onActorError, Option.ite_none_right_eq_some, Option.map_eq_some_iff] at hs
      rcases hs with ⟨_, u, hu, rfl⟩
      have hstops := (stopActorImplSafety_stops hu).1
      refine ⟨[], none, .ends _ _, ?_, records_emit (.failureStopped _ _) (records_of_stops hstops)⟩
      unfold Lands
      rw [hstops.rest]
      rfl
  | escalate =>
      simp only [onActorError, Option.some.injEq] at hs
      subst hs
      exact ⟨[], none, .ends _ _, rfl, records_nil rfl⟩
  | resume =>
      simp only [onActorError] at hs
      split at hs
      · rw [Option.some.injEq] at hs
        subst hs
        exact ⟨[], _, .halts _ _ Fate.noConfusion rfl, lands_same hi rfl, records_nil rfl⟩
      · rename_i parent _
        have htold : Records s (s.emit (.childStatus parent t.target.address .withError)) [] :=
          records_emit _ (records_nil rfl)
        split at hs <;> rw [Option.some.injEq] at hs <;> subst hs
        · exact ⟨[], _, .halts _ _ Fate.noConfusion rfl, lands_same hi rfl, htold⟩
        · exact ⟨[], none, .ends _ _, rfl, htold⟩

/-- The steps of a thread after a failure. -/
theorem asks_of_applyStep (hi : s.running[i]? = some (.applying t pc)) (hpc : pc.failed = true)
    (hs : applyStep cfg s i t k pc = some s') :
    ∃ qs out, Asks s s' t pc k qs out ∧ Lands s s' i t out ∧ Records s s' qs := by
  cases pc with
  | caught f =>
      cases k <;> simp only [applyStep, reduceCtorEq] at hs
      split at hs
      · -- A parentless actor is stopped.
        rw [Option.ite_none_right_eq_some, Option.map_eq_some_iff] at hs
        rcases hs with ⟨_, u, hu, rfl⟩
        have hstops := (stopActorImplSafety_stops hu).1
        refine ⟨[], none, .ends _ _, ?_,
          records_emit (.failureStopped _ _) (records_of_stops hstops)⟩
        unfold Lands
        rw [hstops.rest]
        rfl
      · rw [Option.some.injEq] at hs
        subst hs
        exact ⟨[], _, .halts _ _ Fate.noConfusion rfl, lands_same hi rfl, records_nil rfl⟩
      · rename_i hparent
        rw [Option.some.injEq] at hs
        subst hs
        exact ⟨_, _, .first f _ _ hparent, rfl, records_emit (.childError _ _ _) (records_nil rfl)⟩
  | locking f =>
      cases k <;> simp only [applyStep, reduceCtorEq] at hs
      rw [Option.ite_none_right_eq_some, Option.some.injEq] at hs
      rw [← hs.2]
      exact ⟨[], _, .locks f, rfl, records_nil rfl⟩
  | escalating f d =>
      cases k <;> simp only [applyStep, reduceCtorEq] at hs
      split at hs <;> rw [Option.some.injEq] at hs <;> subst hs
      · exact ⟨[], _, .fails _ _ _ Fate.noConfusion, lands_same hi rfl, records_nil rfl⟩
      · exact ⟨[], _, .fails _ _ _ Fate.noConfusion, lands_same hi rfl, records_nil rfl⟩
      · rename_i up answer hup
        exact ⟨_, _, .next f d up answer hup, rfl,
          records_emit (.childError _ _ _) (records_nil rfl)⟩
  | deciding f action =>
      cases k <;> simp only [applyStep, reduceCtorEq] at hs
      exact asks_of_onActorError hi hs
  | restarting f =>
      cases k <;> simp only [applyStep, reduceCtorEq] at hs
      split at hs <;> rw [Option.some.injEq] at hs <;> subst hs
      · exact ⟨[], _, .halts _ _ Fate.noConfusion rfl, lands_same hi rfl, records_nil rfl⟩
      · exact ⟨[], none, .ends _ _, rfl, records_emit (.restartEnd _ _) (records_nil rfl)⟩
  | _ => exact absurd hpc Bool.noConfusion

/-- A failure stays one. -/
theorem failed_of_asks {pc' : ApplyPc π} {qs : List Question}
    (h : Asks s s' t pc k qs (some pc')) (hpc : pc.failed = true) : pc'.failed = true := by
  cases h with
  | halts _ _ hf hk => exact hpc
  | first f parent answer hparent => split <;> rfl
  | locks f => rfl
  | next f d up answer hup => split <;> rfl
  | fails f d answer hf => rfl
  | restarts f throws => rfl

end Steps

end Yaaf
