import Yaaf.Theory.Forest
import Yaaf.Theory.Handlers

/-!
# Who Is Registered

What a step does to the set of registered actors, to their names and to the
record of registrations and stops, as one relation that also says which label
it came from. A step inserts one actor, or removes a subtree, or clears
everything at the end, or leaves the population alone. Results about names,
supervisors and exchanges all ask this question of a step, and none of them
needs to know which thread made it.

A stop removes exactly what the child lists lead to from its target. The
recursion was followed where `Stops` was established; here the two directions
are put together, `Under` on the way in and the closure under child lists on
the way out.

## Main definitions

* `Event.enrols`: Events the population is about.
* `SamePopulation`: Nothing the population is about has changed.
* `PopulationRule`: A step, as far as the population can tell.
* `Leaving`: The effect of a stop on the population.

## Theorems

* `stop_of_target`: A step with a target stops it.
* `populationRule_of_step`: Every step is one of these.
* `leaves_iff_under`: A stop removes exactly the subtree of its target.
-/

namespace Yaaf

open Pruning Trace

variable {π : Type}

/-- Events the population is about. -/
def Event.enrols : Event π → Bool
  | .registered _ | .stopped _ _ => true
  | _ => false

/-- Nothing the population is about has changed. -/
structure SamePopulation (s s' : System π) : Prop where
  actors : s'.actors = s.actors
  names : s'.idByName = s.idByName
  trace : Grows (fun ev => ev.enrols = false) s.trace s'.trace

/-- A step, as far as the population can tell. -/
inductive PopulationRule (cfg : Config) (s : System π) (a : Action π) (s' : System π) : Prop
  | kept (h : SamePopulation s s')
  | insert (id : IdT) (d : Description) (n : String) (hx : s.canExclude = true)
      (ha : s.inserting a = some (id, d))
      (hd : Described s.registrations s.calls id n d.actor d)
      (h : SamePopulation (s.insertActor id d n) s')
  | stop (addr : ActorAddress) (r : ActorStoppingReason) (u : System π)
      (hx : s.canExclude = true) (ha : s.stopTarget a = some addr.id)
      (hu : s.stopActorImplSafety cfg addr r = some u) (h : SamePopulation u s')
  | clear (hx : s.canExclude = true) (hj : s.shutdown.joined = true)
      (h : SamePopulation { s.stopAll cfg with actors := ∅, idByName := ∅ } s')

section Rules

variable {cfg : Config} {s s' : System π} {a : Action π}

theorem enrols_of_quiet {ev : Event π} (h : ev.quiet = true) : ev.enrols = false := by
  cases ev <;> first | rfl | exact absurd h (by simp only [Event.quiet, Bool.false_eq_true,
    not_false_eq_true])

theorem samePopulation_live (h : SamePopulation s s') : s'.live = s.live := by
  funext k
  unfold System.live
  rw [h.actors]

/-- What a client call with a target does. -/
theorem stop_of_call {c : ContextCall π} {k : IdT} (hs : contextCall cfg s c = some s')
    (ht : c.stopTarget = some k) : ∃ addr, s.canExclude = true ∧ addr.id = k ∧
      s.stopActorImplSafety cfg addr .manual = some s' := by
  cases c with
  | stopActor addr =>
      simp only [contextCall, Option.ite_none_right_eq_some] at hs
      simp only [ContextCall.stopTarget, Option.some.injEq] at ht
      exact ⟨addr, hs.1, ht, hs.2⟩
  | _ => exact absurd ht (by simp only [ContextCall.stopTarget, reduceCtorEq, not_false_eq_true])

/-- What an apply task does that is about to stop its target. -/
theorem stop_of_apply {i : Nat} {st : TaskStep} {t : ApplyTask} {pc : ApplyPc π}
    (hs : applyStep cfg s i t st pc = some s') (hpc : pc.stops t = true) :
    ∃ u, s.canExclude = true ∧ s.stopActorImplSafety cfg t.target.address .except = some u ∧
      SamePopulation u s' := by
  -- A stop is made at two positions: for an actor without a parent, and on a
  -- supervisor's decision.
  cases pc with
  | caught h =>
      have hparent : t.parent = none := Option.isNone_iff_eq_none.mp hpc
      cases st <;> simp only [applyStep, reduceCtorEq] at hs
      simp only [hparent, Option.ite_none_right_eq_some, Option.map_eq_some_iff] at hs
      rcases hs with ⟨hx, u, hu, rfl⟩
      exact ⟨u, hx, hu, rfl, rfl, grows_one rfl⟩
  | deciding h action =>
      cases st <;> simp only [applyStep, reduceCtorEq] at hs
      cases action with
      | stop =>
          simp only [onActorError, Option.ite_none_right_eq_some, Option.map_eq_some_iff] at hs
          rcases hs with ⟨hx, u, hu, rfl⟩
          exact ⟨u, hx, hu, rfl, rfl, grows_one rfl⟩
      | reinit =>
          simp only [onActorError, Option.ite_none_right_eq_some, Option.map_eq_some_iff] at hs
          rcases hs with ⟨hx, u, hu, rfl⟩
          exact ⟨u, hx, hu, rfl, rfl, grows_trans (grows_one rfl) (grows_one rfl)⟩
      | _ => exact absurd hpc Bool.false_ne_true
  | _ => exact absurd hpc Bool.false_ne_true

/-- A step with a target stops it. -/
theorem stop_of_target {k : IdT} (hs : step cfg s a = some s') (ht : s.stopTarget a = some k) :
    ∃ addr r u, s.canExclude = true ∧ addr.id = k ∧ s.stopActorImplSafety cfg addr r = some u ∧
      SamePopulation u s' := by
  unfold step at hs
  rw [Option.ite_none_right_eq_some] at hs
  have hs := hs.2
  have hcall : ∀ {c : ContextCall π}, contextCall cfg s c = some s' → c.stopTarget = some k →
      ∃ addr r u, s.canExclude = true ∧ addr.id = k ∧
        s.stopActorImplSafety cfg addr r = some u ∧ SamePopulation u s' := by
    intro c hc hk
    rcases stop_of_call hc hk with ⟨addr, hx, hid, hu⟩
    exact ⟨addr, .manual, s', hx, hid, hu, rfl, rfl, grows_refl⟩
  cases a with
  | call c => exact hcall hs ht
  | userCall uc c =>
      simp only [Option.ite_none_right_eq_some] at hs
      simp only [System.stopTarget, Option.bind_eq_some_iff] at ht
      rcases ht with ⟨call, hforward, htarget⟩
      have hs := hs.2
      cases c with
      | stopActor addr =>
          simp only [userCall, hforward, UserCall.copied] at hs
          exact hcall hs htarget
      | _ =>
          -- No other method forwards to `stop_actor`.
          simp only [UserContext.forward, Option.ite_none_left_eq_some, Option.some.injEq]
            at hforward
          first
          | rw [← hforward] at htarget
          | rw [← hforward.2] at htarget
          exact absurd htarget (by
            simp only [ContextCall.stopTarget, reduceCtorEq, not_false_eq_true])
  | task i st =>
      simp only [taskStep] at hs
      unfold System.stopTarget at ht
      simp only at ht
      split at ht
      · rename_i t pc hi
        rw [Option.ite_none_right_eq_some, Option.some.injEq] at ht
        rw [hi] at hs
        rcases stop_of_apply hs ht.1 with ⟨u, hx, hu, hsame⟩
        exact ⟨t.target.address, .except, u, hx, ht.2, hu, hsame⟩
      · exact absurd ht (by simp only [reduceCtorEq, not_false_eq_true])
  | _ => exact absurd ht (by simp only [System.stopTarget, reduceCtorEq, not_false_eq_true])

theorem callRule_population {c : ContextCall π} (h : CallRule cfg s c s')
    (hc : c.stopTarget = none) : SamePopulation s s' := by
  cases h with
  | stop addr u => exact absurd hc (by
      simp only [ContextCall.stopTarget, reduceCtorEq, not_false_eq_true])
  | addActor | send | subscribe | publish => exact ⟨rfl, rfl, grows_one rfl⟩
  | nothing | crash | create => exact ⟨rfl, rfl, grows_refl⟩

theorem applyRule_population {i : Nat} {t : ApplyTask} {pc : ApplyPc π}
    (h : ApplyRule cfg s i t pc s') (hpc : pc.stops t = false) : SamePopulation s s' := by
  have hquiet : ∀ evs : List (Event π), (∀ ev ∈ evs, ev.quiet = true) →
      Grows (fun ev => ev.enrols = false) s.trace (s.trace ++ evs) :=
    fun evs hevs => ⟨evs, rfl, fun ev hev => enrols_of_quiet (hevs ev hev)⟩
  cases h with
  | entry | popEmpty | pop | updateStatus | resetBusy => exact ⟨rfl, rfl, grows_refl⟩
  | callHandler | handlerReturn | handlerThrow => exact ⟨rfl, rfl, grows_one rfl⟩
  | halt pc f evs hf hevs | done pc evs hb hevs hend | walk pc pc' evs hb hb' hf hr hevs =>
      exact ⟨rfl, rfl, hquiet evs hevs⟩
  | stop pc u hb hx hu hgone hstop hstops =>
      rw [hpc] at hstops
      exact absurd hstops Bool.false_ne_true
  | reinit => exact absurd hpc Bool.noConfusion

theorem workerRule_population (h : WorkerRule s s') : SamePopulation s s' := by
  cases h with
  | deliver => exact ⟨rfl, rfl, grows_one rfl⟩
  | post todo rm m d p hw hp =>
      rw [userPost_rest]
      exact ⟨rfl, rfl, grows_refl⟩
  | _ => exact ⟨rfl, rfl, grows_refl⟩

theorem stopStep_population {st : StopStep} (hs : stopStep cfg s st = some s') :
    PopulationRule cfg s a s' := by
  cases st <;> simp only [stopStep, Option.ite_none_right_eq_some, Option.some.injEq] at hs
  case begin => exact .kept (by rw [← hs]; exact ⟨rfl, rfl, grows_refl⟩)
  case dropPosts =>
      rcases hs with ⟨_, hs⟩
      split at hs <;> rw [Option.some.injEq] at hs <;>
        exact .kept (by rw [← hs]; exact ⟨rfl, rfl, grows_refl⟩)
  case stopUserPool | stopSysPool | join =>
      exact .kept (by rw [← hs.2]; exact ⟨rfl, rfl, grows_refl⟩)
  case sweep =>
      simp only [Bool.and_eq_true] at hs
      exact .clear hs.1.2 hs.1.1 (by rw [← hs.2]; exact ⟨rfl, rfl, grows_refl⟩)

/-- Every step is one of the population's rules. -/
theorem populationRule_of_step (hs : step cfg s a = some s') (hreg : Registered s) :
    PopulationRule cfg s a s' := by
  -- Either the step is a stop, or it neither removes nor silences anybody but by
  -- the sweep.
  cases ht : s.stopTarget a with
  | some k =>
      rcases stop_of_target hs ht with ⟨addr, r, u, hx, rfl, hu, hsame⟩
      exact .stop addr r u hx ht hu hsame
  | none =>
      cases (stepRule_of_step hs).2 with
      | call c s' h => exact .kept (callRule_population h ht)
      | userCall uc uc' c s' hc h =>
          simp only [System.stopTarget, hc, Option.bind_some] at ht
          exact .kept (callRule_population h ht)
      | userNothing => exact .kept ⟨rfl, rfl, grows_refl⟩
      | add i st c s' hi h =>
          cases h with
          | insert d hc hx =>
              have hdraft := (hreg.drafts c (List.mem_of_getElem? hi)).2
              rw [hc] at hdraft
              exact .insert c.newId d c.actorName hx (inserting_ready st hi hc)
                (hdraft.actor.symm ▸ hdraft) ⟨rfl, rfl, grows_refl⟩
          | post m hc =>
              rw [System.postStart, userPost_rest]
              exact .kept ⟨rfl, rfl, grows_one rfl⟩
          | _ => exact .kept ⟨rfl, rfl, grows_refl⟩
      | pick t rest hq hn =>
          cases t with
          | onStart b m => exact .kept ⟨rfl, rfl, grows_one rfl⟩
          | apply t => exact .kept ⟨rfl, rfl, [], rfl, fun ev hev => absurd hev List.not_mem_nil⟩
      | task i st s' h =>
          cases h with
          | startHalt => exact .kept ⟨rfl, rfl, grows_refl⟩
          | startReturn => exact .kept ⟨rfl, rfl, grows_one rfl⟩
          | apply t pc s' hi h =>
              refine .kept (applyRule_population h ?_)
              simpa only [System.stopTarget, hi, ite_eq_right_iff, reduceCtorEq, imp_false,
                Bool.not_eq_true] using ht
      | worker st s' h => exact .kept (workerRule_population h)
      | stop st s' h => exact stopStep_population (stopStep_of_step hs).2

end Rules

/-- The effect of a stop on the population. -/
structure Leaving (s s' : System π) (k : IdT) : Prop where
  gone : s'.live k = none
  prunes : Prunes Description.kids s.live s'.live
  under : ∀ j d, Leaves s s' j d → Under Description.kids s.live k j
  names : s'.idByName = s.idByName

section Leaving

variable {cfg : Config} {s s' : System π} {a : Action π}

theorem leaving_of_stop {u : System π} {addr : ActorAddress} {r : ActorStoppingReason}
    (hu : s.stopActorImplSafety cfg addr r = some u) (h : SamePopulation u s') :
    Leaving s s' addr.id := by
  rcases stopActorImplSafety_stops hu with ⟨hstops, hgone⟩
  have hlive : s'.live = u.live := samePopulation_live h
  refine ⟨by rw [hlive, hgone], hlive ▸ hstops.prunes, fun j d hl => ?_, ?_⟩
  · exact stopActorImplSafety_under hu j d ⟨hl.1, by rw [← hlive, hl.2]⟩
  · rw [h.names, hstops.rest]

theorem leaving_of_step {k : IdT} (hs : step cfg s a = some s') (ht : s.stopTarget a = some k) :
    Leaving s s' k := by
  rcases stop_of_target hs ht with ⟨addr, r, u, _, rfl, hu, hsame⟩
  exact leaving_of_stop hu hsame

/-- A stop removes exactly what the child lists lead to from its target. -/
theorem leaves_iff_under {k j : IdT} {d : Description} (h : Leaving s s' k)
    (hd : s.live j = some d) : s'.live j = none ↔ Under Description.kids s.live k j :=
  ⟨fun hj => h.under j d ⟨hd, hj⟩, gone_of_under h.prunes h.gone⟩

end Leaving

end Yaaf
