import Yaaf.Theory.Dispatch
import Yaaf.Theory.Pool

/-!
# Where Handlers, Stops and Locks Come From

Three questions that several results about handlers ask of a step, answered
once. Which event can it record, and in what situation? Can it make a dispatch
out of nothing? Can it set a busy flag?

A handler is called only by a thread that has popped an envelope, and that
thread is past the point where anything else is asked. So a statement that a
handler is not called comes down to a statement that nobody is on the way to
it: no queued apply task and no executing one that is still inside
`base_actor::apply`. New dispatches are posted by the worker alone, from a
mailbox that is in the maps.

## Main definitions

* `System.stopTarget`: What a step stops.
* `Origin`: The situation an event is recorded in.
* `System.dispatches`: A handler is being called or may be.

## Theorems

* `step_origin`: New events have their origin.
* `step_dispatches`: Only the worker dispatches.
* `step_busy`: Only the worker sets a busy flag.
-/

namespace Yaaf

open Pruning Slots Trace

variable {π : Type}

/-- What a client call stops. -/
def ContextCall.stopTarget : ContextCall π → Option IdT
  | .stopActor addr => some addr.id
  | _ => none

/-- What a step stops: the target of a `stop_actor`, or the failed actor whose
    supervisor said so. -/
def System.stopTarget (s : System π) : Action π → Option IdT
  | .call c => c.stopTarget
  | .userCall uc c => (uc.forward s.shutdown.begun c).bind ContextCall.stopTarget
  | .task i _ => match s.running[i]? with
    | some (.applying t pc) => if pc.stops t then some t.target.address.id else none
    | _ => none
  | _ => none

/-- The situation in which a step records an event. -/
def Origin (s : System π) (a : Action π) (s' : System π) : Event π → Prop
  | .handleBegin b m e =>
    ∃ t, Running.applying t (.popped e) ∈ s.running ∧ t.target.actor = b ∧ t.mb = m
  | .handleThrow b m =>
    ∃ t what, Running.applying t (.threw what) ∈ s'.running ∧ t.target.actor = b ∧ t.mb = m
  | .stopped id b => s.shutdown.joined = true ∨ s.canExclude = true ∧
    ∃ k d, s.stopTarget a = some k ∧ Under Description.kids s.live k id ∧ s.live id = some d ∧
      d.actor = b ∧ s'.live k = none ∧ Prunes Description.kids s.live s'.live
  | .failureStopped t h => s.canExclude = true ∧ ∃ (i : Nat) (pc : ApplyPc π),
    s.running[i]? = some (.applying t pc) ∧ pc.stops t = true ∧ pc.failing = h ∧
      s'.live t.target.address.id = none
  | _ => True

section Origins

variable {cfg : Config} {s s' : System π} {a : Action π}

theorem origin_of_quiet {ev : Event π} (h : ev.quiet = true) : Origin s a s' ev := by
  cases ev with
  | childStatus | childError | restartEnd => exact trivial
  | _ => exact absurd h (by simp only [Event.quiet, Bool.false_eq_true, not_false_eq_true])

/-- The events of a stop have their origin in the step that stops. -/
theorem stops_origin {u : System π} {addr : ActorAddress} {r : ActorStoppingReason}
    (hx : s.canExclude = true) (ht : s.stopTarget a = some addr.id)
    (hstop : s.stopActorImplSafety cfg addr r = some u) (hlive : s'.live = u.live) :
    Grows (Origin s a s') s.trace u.trace := by
  rcases stopActorImplSafety_stops hstop with ⟨hu, hgone⟩
  rcases hu.trace with ⟨evs, hevs, hall, _⟩
  refine ⟨evs, hevs, fun ev hev => ?_⟩
  rcases hall ev hev with ⟨k, d, hl, rfl⟩ | ⟨p, b, r, rfl⟩
  · exact Or.inr ⟨hx, addr.id, d, ht, stopActorImplSafety_under hstop k d hl, hl.1, rfl,
      by rw [hlive, hgone], by rw [hlive]; exact hu.prunes⟩
  · trivial

theorem callRule_origin {c : ContextCall π} (h : CallRule cfg s c s')
    (ht : s.stopTarget a = c.stopTarget) : Grows (Origin s a s') s.trace s'.trace := by
  cases h with
  | addActor | send | subscribe | publish => exact grows_one trivial
  | nothing | crash | create => exact grows_refl
  | stop addr u hx hu hgone hstop => exact stops_origin hx ht hstop rfl

theorem applyRule_origin {i : Nat} {st : TaskStep} {t : ApplyTask} {pc : ApplyPc π}
    (hi : s.running[i]? = some (.applying t pc)) (h : ApplyRule cfg s i t pc s') :
    Grows (Origin s (.task i st) s') s.trace s'.trace := by
  have htarget : pc.stops t = true →
      s.stopTarget (.task i st) = some t.target.address.id := by
    intro hpc
    simp only [System.stopTarget, hi, hpc, if_true]
  cases h with
  | entry | popEmpty | pop | updateStatus | resetBusy => exact grows_refl
  | callHandler e => exact grows_one ⟨t, List.mem_of_getElem? hi, rfl, rfl⟩
  | handlerReturn => exact grows_one trivial
  -- The thread of the throw is still there, and its position says so.
  | handlerThrow e what =>
      rcases List.getElem?_eq_some_iff.mp hi with ⟨hlt, _⟩
      exact grows_one ⟨t, what, List.mem_set hlt _, rfl, rfl⟩
  | halt pc f evs hf hevs | done pc evs hb hevs | walk pc pc' evs hb hb' hf hr hevs =>
      exact ⟨evs, rfl, fun ev hev => origin_of_quiet (hevs ev hev)⟩
  -- The callbacks of the stop, and then the record of the failure.
  | stop pc u hb hx hu hgone hstop hpc =>
      have hstops : Grows (Origin s (.task i st) ((u.emit (.failureStopped t pc.failing)).finish i))
          s.trace u.trace := stops_origin hx (htarget hpc) hstop rfl
      exact grows_trans hstops (grows_one ⟨hx, i, pc, hi, hpc, rfl, hgone⟩)
  | reinit h u hx hu hgone hstop =>
      have hstops : Grows (Origin s (.task i st) (((u.emit (.failureStopped t h)).emit
          (.restartBegin t.target.actor t.mb)).moveTo i t (.restarting h)))
          s.trace u.trace := stops_origin hx (htarget rfl) hstop rfl
      have hfailed : Grows (Origin s (.task i st) (((u.emit (.failureStopped t h)).emit
          (.restartBegin t.target.actor t.mb)).moveTo i t (.restarting h)))
          u.trace (u.trace ++ [.failureStopped t h]) := grows_one ⟨hx, i, _, hi, rfl, rfl, hgone⟩
      exact grows_trans hstops (grows_trans hfailed (grows_one trivial))

/-- The events a step records have their origin in it. -/
theorem step_origin (hs : step cfg s a = some s') : Grows (Origin s a s') s.trace s'.trace := by
  cases (stepRule_of_step hs).2 with
  | call c s' h => exact callRule_origin h rfl
  | userCall uc uc' c s' hc h =>
      refine callRule_origin h ?_
      simp only [System.stopTarget, hc, Option.bind_some]
  | userNothing => exact grows_refl
  | add i st c s' hi h =>
      cases h with
      | insert => exact grows_one trivial
      | post m hc =>
          rw [System.postStart, userPost_rest]
          exact grows_one trivial
      | _ => exact grows_refl
  | pick t rest hq hn =>
      cases t with
      | onStart b m => exact grows_one trivial
      | apply t => exact ⟨[], rfl, fun ev hev => absurd hev List.not_mem_nil⟩
  | task i st s' h =>
      cases h with
      | startHalt => exact grows_refl
      | startReturn b m hi => exact grows_one trivial
      | apply t pc s' hi h => exact applyRule_origin hi h
  | worker st s' h =>
      cases h with
      | deliver => exact grows_one trivial
      | post todo rm m d p hw hp =>
          rw [userPost_rest]
          exact grows_refl
      | _ => exact grows_refl
  | stop st s' h =>
      cases h with
      | flags | crash => exact grows_refl
      | sweep u hj hx hu => exact sweeps_grows hu fun _ _ => Or.inl hj

end Origins

/-- An apply task of the given kind is queued, or is executing and may still
    call the handler or set the status. -/
def System.dispatches (s : System π) (p : ApplyTask → Prop) : Prop :=
  (∃ t, Task.apply t ∈ s.queue ∧ p t) ∨
    ∃ t pc, Running.applying t pc ∈ s.running ∧ pc.engaged = true ∧ p t

/-- A thread that may still call the handler of `a` or set its status. -/
def Running.engages (a : ActorPtr) : Running π → Bool
  | .applying t pc => t.target.actor = a && pc.engaged
  | _ => false

/-- The object has a dispatch, as a test. -/
def System.engages (s : System π) (a : ActorPtr) : Bool :=
  s.queue.any (Task.holds a) || s.running.any (Running.engages a)

section Dispatches

variable {cfg : Config} {s s' : System π} {p : ApplyTask → Prop}

theorem dispatches_of_popped {t : ApplyTask} {e : Stored π}
    (hr : Running.applying t (.popped e) ∈ s.running) (ht : p t) : s.dispatches p :=
  Or.inr ⟨t, .popped e, hr, rfl, ht⟩

theorem engages_iff {a : ActorPtr} :
    s.engages a = true ↔ s.dispatches fun t => t.target.actor = a := by
  unfold System.engages System.dispatches
  rw [Bool.or_eq_true, List.any_eq_true, List.any_eq_true]
  constructor
  · rintro (⟨t, ht, ha⟩ | ⟨r, hr, ha⟩)
    · cases t with
      | onStart b m => exact absurd ha Bool.false_ne_true
      | apply t => exact Or.inl ⟨t, ht, of_decide_eq_true ha⟩
    · cases r with
      | starting b m => exact absurd ha Bool.false_ne_true
      | applying t pc =>
          simp only [Running.engages, Bool.and_eq_true, decide_eq_true_eq] at ha
          exact Or.inr ⟨t, pc, hr, ha.2, ha.1⟩
  · rintro (⟨t, ht, ha⟩ | ⟨t, pc, ht, heng, ha⟩)
    · exact Or.inl ⟨_, ht, decide_eq_true ha⟩
    · refine Or.inr ⟨_, ht, ?_⟩
      simp only [Running.engages, ha, heng, decide_true, Bool.and_self]

/-- A step dispatches what it posts. -/
theorem poolRule_dispatches {a : Action π} (h : PoolRule cfg s s' a) (hd : s'.dispatches p) :
    s.dispatches p ∨ ∃ t, Posts s a (.apply t) ∧ s.accepts = true ∧ p t := by
  unfold System.dispatches at hd
  cases h with
  | same hq hr =>
      rw [hq, hr] at hd
      exact Or.inl hd
  | post t' ht' hr hq =>
      rw [hr] at hd
      rcases hd with ⟨t, ht, hp⟩ | hd
      · rcases hq with ⟨hq, _, hacc⟩ | ⟨hq, _⟩ <;> rw [hq] at ht
        · rcases List.mem_append.mp ht with ht | ht
          · exact Or.inl (Or.inl ⟨t, ht, hp⟩)
          · rw [← List.mem_singleton.mp ht] at ht'
            exact Or.inr ⟨t, ht', hacc, hp⟩
        · exact Or.inl (Or.inl ⟨t, ht, hp⟩)
      · exact Or.inl (Or.inr hd)
  | pick t' rest hq hq' hr =>
      rw [hq', hr] at hd
      refine Or.inl ?_
      rcases hd with ⟨t, ht, hp⟩ | ⟨t, pc, hrun, he, hp⟩
      · exact Or.inl ⟨t, by rw [hq]; exact List.mem_cons_of_mem _ ht, hp⟩
      · rcases List.mem_append.mp hrun with hrun | hrun
        · exact Or.inr ⟨t, pc, hrun, he, hp⟩
        · -- The thread that took the task has yet to start on it.
          cases t' with
          | onStart b m => exact absurd (List.mem_singleton.mp hrun) (by
              simp only [Task.taken, reduceCtorEq, not_false_eq_true])
          | apply t' =>
              have heq := List.mem_singleton.mp hrun
              simp only [Task.taken, Running.applying.injEq] at heq
              rw [heq.1] at hp
              exact Or.inl ⟨t', by rw [hq]; exact List.mem_cons_self, hp⟩
  | move st i t' pc pc' hi hq hr _ hmove =>
      rw [hq, hr] at hd
      refine Or.inl ?_
      rcases hd with hd | ⟨t, pc'', hrun, he, hp⟩
      · exact Or.inl hd
      · rcases List.mem_or_eq_of_mem_set hrun with hrun | heq
        · exact Or.inr ⟨t, pc'', hrun, he, hp⟩
        · cases heq
          exact Or.inr ⟨t', pc, List.mem_of_getElem? hi, hmove.engaged he, hp⟩
  | finish st i r hi hq hr =>
      rw [hq, hr] at hd
      refine Or.inl ?_
      rcases hd with hd | ⟨t, pc, hrun, he, hp⟩
      · exact Or.inl hd
      · exact Or.inr ⟨t, pc, List.mem_of_mem_eraseIdx hrun, he, hp⟩

/-- Only the worker dispatches, and only a mailbox that is in the maps. -/
theorem step_dispatches {a : Action π} (hs : step cfg s a = some s')
    (hreg : Registered s) (hd : s'.dispatches p) : s.dispatches p ∨
      ∃ todo rm m d up k, s.worker = .scan todo rm (.posting m d) ∧ p ⟨d, up, m⟩ ∧
        s.live k = some d ∧ s.mboxes.lookup k = some m := by
  rcases poolRule_dispatches (poolRule_of_stepRule (stepRule_of_step hs).2) hd with
    hd | ⟨t, ht, _, hp⟩
  · exact Or.inl hd
  · cases ht with
    | apply st todo rm m d up hw =>
        rcases visit_entry hreg hw rfl with ⟨k, _, hlive, hm, _⟩
        exact Or.inr ⟨todo, rm, m, d, up, k, hw, hp, hlive, hm⟩

/-- An apply task sets no busy flag. -/
theorem applyRule_busy {i : Nat} {t : ApplyTask} {pc : ApplyPc π} {a : ActorPtr}
    (h : ApplyRule cfg s i t pc s') (hidle : (s.objs a).busy = false) :
    (s'.objs a).busy = false := by
  cases h with
  | updateStatus pc k msg r hpc =>
      by_cases ha : a = t.target.actor
      · subst ha
        simp only [System.setObj_self]
        exact hidle
      · simp only [System.setObj_of_ne _ ha]
        exact hidle
  | resetBusy r pc' hpc =>
      by_cases ha : a = t.target.actor
      · subst ha
        simp only [System.setObj_self]
        rfl
      · simp only [System.setObj_of_ne _ ha]
        exact hidle
  | stop pc u hb hx hu => exact (hu.busy a).trans hidle
  | reinit h u hx hu => exact (hu.busy a).trans hidle
  | _ => exact hidle

/-- Only the worker sets a busy flag, by locking an actor that was idle. -/
theorem step_busy {x : Action π} {a : ActorPtr} (hs : step cfg s x = some s')
    (hidle : (s.objs a).busy = false) (hbusy : (s'.objs a).busy = true) :
    ∃ todo rm m d st, x = .worker st ∧ s.worker = .scan todo rm (.trying m d) ∧ d.actor = a := by
  -- Every step but the lock leaves the flag as it is or clears it.
  have hcontra : (s'.objs a).busy ≠ (s.objs a).busy := by
    rw [hidle, hbusy]
    exact Bool.noConfusion
  have hcall : ∀ {c : ContextCall π}, CallRule cfg s c s' → (s'.objs a).busy = (s.objs a).busy :=
    fun h => (callRule_samePool h).busy a
  cases (stepRule_of_step hs).2 with
  | call c s' h => exact absurd (hcall h) hcontra
  | userCall uc uc' c s' hc h => exact absurd (hcall h) hcontra
  | userNothing => exact absurd rfl hcontra
  | add i st c s' hi h => exact absurd (by rw [addRule_rest h]) hcontra
  | pick t rest hq hn => exact absurd rfl hcontra
  | task i st s' h =>
      cases h with
      | startHalt | startReturn => exact absurd rfl hcontra
      | apply t pc s' hi h => exact absurd hbusy (by
          rw [applyRule_busy h hidle]
          exact Bool.noConfusion)
  | worker st s' h =>
      cases h with
      | lock todo rm m d hw hb =>
          by_cases ha : d.actor = a
          · exact ⟨todo, rm, m, d, st, rfl, hw, ha⟩
          · refine absurd ?_ hcontra
            simp only [System.setObj_of_ne _ (fun h => ha h.symm)]
      | release todo rm d hw =>
          by_cases ha : a = d.actor
          · subst ha
            simp only [System.setObj_self, BaseActor.resetBusy,
              Bool.false_eq_true] at hbusy
          · refine absurd ?_ hcontra
            simp only [System.setObj_of_ne _ ha]
      | post todo rm m d p hw hp =>
          rw [userPost_rest] at hcontra
          exact absurd rfl hcontra
      | _ => exact absurd rfl hcontra
  | stop st s' h =>
      cases h with
      | flags | crash => exact absurd rfl hcontra
      | sweep u hj hx hu => exact absurd (hu.busy a) hcontra

end Dispatches

end Yaaf
