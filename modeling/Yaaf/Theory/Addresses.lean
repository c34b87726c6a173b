import Yaaf.Theory.Escalation
import Yaaf.Theory.Standing

/-!
# What a Supervisor Is Told

A supervisor hears of its children through three callbacks, and each of them
names the child by an address. Two take the address from the description of the
child, which is the one that `add_actor` returned. The third is called at the
end of a recursive stop, and the stop passes bare ids down: the address is made
from the id, and a made-up address has a path name that no actor can have,
since every path name has a slash in it.

Whether an address is right is a matter of the call alone, then. Which child it
is about is not in doubt in either case. Every call goes to the object that is
registered as the parent of the actor whose id it passes, for a task because
the worker looked the parent up when it posted the task, in the `ESCALATE` loop
because the loop has just looked it up, and in a stop for the same reason.

## Main definitions

* `Event.told`, `Event.tellsStop`: A call on a supervisor, and the kind of call.
* `Notice`, `Tells`: The calls that a stop, and that a step, makes.
* `Introduced`: What tasks and climbing threads know of parents.
* `Addressed`: Every call on a supervisor is about a child of it.

## Theorems

* `notice_of_stop`: The calls of a recursive stop.
* `tells_of_step`: The calls of a step.
* `reach_addressed`: They are about children.
* `supervisors_see_addresses`: When the address is the one of the child.
-/

namespace Yaaf

open Machine Pruning Trace

variable {π : Type}

/-- The supervisor a call goes to, and the address it is passed. -/
def Event.told : Event π → Option (ActorPtr × ActorAddress)
  | .childStopped p addr _ | .childStatus p addr _ | .childError p addr _ => some (p, addr)
  | _ => none

/-- The call is `on_child_stopped`. -/
def Event.tellsStop : Event π → Bool
  | .childStopped _ _ _ => true
  | _ => false

/-- A stop that starts in `s` may do this: tell the parent of a registered
    actor, by an address made from the id of that actor. -/
def Notice (s : System π) (ev : Event π) : Prop :=
  ev.told = none ∨ ∃ k d up r, s.live k = some d ∧ s.live d.parent = some up ∧
    ev = .childStopped up.actor (.ofId k) r

section Notices

variable {cfg : Config} {s t : System π} {r : ActorStoppingReason}

theorem notice_mono (h : Stops cfg s t) {ev : Event π} (hev : Notice t ev) : Notice s ev := by
  rcases hev with hev | ⟨k, d, up, r, hd, hup, rfl⟩
  · exact Or.inl hev
  · exact Or.inr ⟨k, d, up, r, prunes_some h.prunes hd, prunes_some h.prunes hup, rfl⟩

/-- The last part of a stop, for an actor that was registered when it began. -/
theorem notice_of_stopSelf {k : IdT} {d : Description} (hd : s.live k = some d)
    (h : Stops cfg s t) :
    Grows (Notice s) t.trace (stopSelf cfg t (.ofId k) r d).trace := by
  have hstopped : Grows (Notice s) t.trace (t.onStop cfg k d.actor).trace :=
    grows_one (Or.inl rfl)
  refine grows_trans hstopped ?_
  change Grows (Notice s) _ ((t.onStop cfg k d.actor).tellParent d (.ofId k) r).trace
  unfold System.tellParent
  split
  · exact grows_refl
  · split
    · exact grows_refl
    · rename_i up hup
      exact grows_one (Or.inr ⟨k, d, up, r, hd, prunes_some h.prunes hup, rfl⟩)

/-- A list of stops tells parents of what it stops. -/
theorem notice_of_foldlM {stop : System π → IdT → Option (System π)}
    (hstop : ∀ s c t, stop s c = some t →
      (Stops cfg s t ∧ t.live c = none) ∧ Grows (Notice s) s.trace t.trace) :
    ∀ (cs : List IdT) (s t : System π), cs.foldlM stop s = some t →
      Grows (Notice s) s.trace t.trace := by
  intro cs
  induction cs with
  | nil =>
      intro s t h
      simp only [List.foldlM_nil, Option.pure_def, Option.some.injEq] at h
      rw [← h]
      exact grows_refl
  | cons c cs ih =>
      intro s t h
      rw [List.foldlM_cons] at h
      rcases Option.bind_eq_some_iff.mp h with ⟨u, hu, hut⟩
      rcases hstop s c u hu with ⟨⟨hsu, _⟩, hnotice⟩
      exact grows_trans hnotice (grows_weaken (fun ev => notice_mono hsu) (ih u t hut))

/-- A recursive stop tells parents of what it stops. -/
theorem notice_of_stopImpl : ∀ (fuel : Nat) (k : IdT) (s t : System π),
    System.stopActorImpl cfg fuel (.ofId k) r s = some t → Grows (Notice s) s.trace t.trace := by
  intro fuel
  induction fuel with
  | zero =>
      intro k s t h
      exact absurd h (by simp only [System.stopActorImpl, reduceCtorEq, not_false_eq_true])
  | succ fuel ih =>
      intro k s t h
      cases hd : s.live k with
      | none =>
          unfold System.live at hd
          simp only [System.stopActorImpl, ActorAddress.ofId, hd, Option.some.injEq] at h
          rw [← h]
          exact grows_refl
      | some d =>
          rw [stopActorImpl_succ cfg fuel (.ofId k) r s d hd] at h
          rcases Option.map_eq_some_iff.mp h with ⟨u, hu, rfl⟩
          have hone : ∀ (s : System π) c t, System.stopActorImpl cfg fuel (.ofId c) r s = some t →
              Stops cfg s t ∧ t.live c = none := fun s c t ht =>
            stopActorImpl_stops cfg r fuel (.ofId c) s t ht
          have hsu := (foldlM_stops hone _ s u hu).1
          have hchildren := notice_of_foldlM
            (fun s c t ht => ⟨hone s c t ht, ih c s t ht⟩) _ s u hu
          exact grows_trans hchildren (notice_of_stopSelf hd hsu)

theorem notice_of_stop {addr : ActorAddress} (h : s.stopActorImplSafety cfg addr r = some t) :
    Grows (Notice s) s.trace t.trace :=
  notice_of_stopImpl _ addr.id s t h

end Notices

/-- A step from `s` may do this: tell the parent that a task captured, or the
    one that a climbing thread has reached, or what a stop tells. -/
inductive Tells (s : System π) : Event π → Prop
  | notice {ev : Event π} (h : Notice s ev) : Tells s ev
  | task {ev : Event π} (t : ApplyTask) (p : ActorPtr) (ht : s.HasTask (.apply t))
      (hp : t.parent = some p) (hev : ev.told = some (p, t.target.address))
      (hstop : ev.tellsStop = false) : Tells s ev
  | climbing {ev : Event π} (t : ApplyTask) (f : Bool) (d up : Description)
      (hpc : .applying t (.escalating f d) ∈ s.running) (hup : s.live d.parent = some up)
      (hev : ev.told = some (up.actor, d.address)) (hstop : ev.tellsStop = false) : Tells s ev

section Steps

variable {cfg : Config} {s s' : System π} {i : Nat} {t : ApplyTask} {k : TaskStep}
  {pc : ApplyPc π}

theorem tells_other {ev : Event π} (h : ev.told = none) : Tells s ev :=
  .notice (Or.inl h)

theorem tells_of_stop {addr : ActorAddress} {r : ActorStoppingReason}
    (h : s.stopActorImplSafety cfg addr r = some s') : Grows (Tells s) s.trace s'.trace :=
  grows_weaken (fun _ => .notice) (notice_of_stop h)

/-- A stop, and then the record of it. -/
theorem tells_of_stopped {u : System π} {addr : ActorAddress} {r : ActorStoppingReason}
    {ev : Event π} (h : s.stopActorImplSafety cfg addr r = some u) (hev : ev.told = none) :
    Grows (Tells s) s.trace (u.emit ev).trace :=
  grows_trans (tells_of_stop h) (grows_one (tells_other hev))

theorem hasTask_of_running (hi : s.running[i]? = some (.applying t pc)) : s.HasTask (.apply t) :=
  Or.inr (Or.inr ⟨_, List.mem_of_getElem? hi, rfl⟩)

theorem tells_of_onActorError {f throws : Bool} {action : ActorActionWhenError}
    (hi : s.running[i]? = some (.applying t (.deciding f action)))
    (hs : onActorError cfg s i t f action throws = some s') :
    Grows (Tells s) s.trace s'.trace := by
  cases action with
  | reinit =>
      simp only [onActorError, Option.ite_none_right_eq_some, Option.map_eq_some_iff] at hs
      rcases hs with ⟨_, u, hu, rfl⟩
      exact grows_trans (tells_of_stopped hu rfl) (grows_one (tells_other rfl))
  | stop =>
      simp only [onActorError, Option.ite_none_right_eq_some, Option.map_eq_some_iff] at hs
      rcases hs with ⟨_, u, hu, rfl⟩
      exact tells_of_stopped hu rfl
  | escalate =>
      simp only [onActorError, Option.some.injEq] at hs
      subst hs
      exact grows_refl
  | resume =>
      simp only [onActorError] at hs
      split at hs
      · rw [Option.some.injEq] at hs
        subst hs
        exact grows_refl
      · rename_i p hp
        split at hs <;> rw [Option.some.injEq] at hs <;> subst hs <;>
          exact grows_one (.task t p (hasTask_of_running hi) hp rfl rfl)

/-- What a thread that executes a task tells. -/
theorem tells_of_applyStep (hi : s.running[i]? = some (.applying t pc))
    (hs : applyStep cfg s i t k pc = some s') : Grows (Tells s) s.trace s'.trace := by
  cases pc with
  | entry | drained | threw what | resetting r =>
      cases k <;> simp only [applyStep, reduceCtorEq, Option.some.injEq] at hs
      rw [← hs]
      exact grows_refl
  | draining =>
      cases k <;> simp only [applyStep, reduceCtorEq] at hs
      split at hs <;> rw [Option.some.injEq] at hs <;> rw [← hs] <;> exact grows_refl
  | popped e =>
      cases k <;> simp only [applyStep, reduceCtorEq, Option.some.injEq] at hs
      rw [← hs]
      exact grows_one (tells_other rfl)
  | handling e =>
      cases k <;> simp only [applyStep, reduceCtorEq, Option.some.injEq] at hs <;> rw [← hs]
      · exact grows_one (tells_other rfl)
      · exact grows_one (tells_other rfl)
      · exact grows_refl
  | returned =>
      cases k <;> simp only [applyStep, reduceCtorEq] at hs
      split at hs
      · rw [Option.some.injEq] at hs
        rw [← hs]
        exact grows_refl
      · rename_i p hp
        split at hs <;> rw [Option.some.injEq] at hs <;> rw [← hs] <;>
          exact grows_one (.task t p (hasTask_of_running hi) hp rfl rfl)
  | caught f =>
      cases k <;> simp only [applyStep, reduceCtorEq] at hs
      split at hs
      · rw [Option.ite_none_right_eq_some, Option.map_eq_some_iff] at hs
        rcases hs with ⟨_, u, hu, rfl⟩
        exact tells_of_stopped hu rfl
      · rw [Option.some.injEq] at hs
        rw [← hs]
        exact grows_refl
      · rename_i p action hp
        rw [Option.some.injEq] at hs
        rw [← hs]
        exact grows_one (.task t p (hasTask_of_running hi) hp rfl rfl)
  | locking f =>
      cases k <;> simp only [applyStep, reduceCtorEq] at hs
      rw [Option.ite_none_right_eq_some, Option.some.injEq] at hs
      rw [← hs.2]
      exact grows_refl
  | escalating f d =>
      cases k <;> simp only [applyStep, reduceCtorEq] at hs
      split at hs <;> rw [Option.some.injEq] at hs <;> rw [← hs]
      · exact grows_refl
      · exact grows_refl
      · rename_i up answer hup
        exact grows_one (.climbing t f d up (List.mem_of_getElem? hi) hup rfl rfl)
  | deciding f action =>
      cases k <;> simp only [applyStep, reduceCtorEq] at hs
      exact tells_of_onActorError hi hs
  | restarting f =>
      cases k <;> simp only [applyStep, reduceCtorEq] at hs
      split at hs <;> rw [Option.some.injEq] at hs <;> rw [← hs]
      · exact grows_refl
      · exact grows_one (tells_other rfl)

/-- What a client call tells. -/
theorem tells_of_callRule {c : ContextCall π} (h : CallRule cfg s c s') :
    Grows (Tells s) s.trace s'.trace := by
  cases h with
  | stop addr _ hx hu hgone hstop => exact tells_of_stop hstop
  | addActor | send | subscribe | publish => exact grows_one (tells_other rfl)
  | nothing | crash | create => exact grows_refl

/-- What a step tells. -/
theorem tells_of_step {a : Action π} (hs : step cfg s a = some s') :
    Grows (Tells s) s.trace s'.trace := by
  cases (stepRule_of_step hs).2 with
  | call c _ h => exact tells_of_callRule h
  | userCall uc uc' c _ hc h => exact tells_of_callRule h
  | userNothing => exact grows_refl
  | add i st c _ hi h =>
      cases h with
      | insert => exact grows_one (tells_other rfl)
      | post m hc =>
          rw [System.postStart, userPost_rest]
          exact grows_one (tells_other rfl)
      | _ => exact grows_refl
  | pick t rest hq hn hu =>
      cases t with
      | onStart a m => exact grows_one (tells_other rfl)
      | apply t =>
          simp only [Task.takenEvent, List.append_nil]
          exact grows_refl
  | task i st _ h =>
      cases h with
      | startHalt => exact grows_refl
      | startReturn => exact grows_one (tells_other rfl)
      | apply t pc _ hi _ => exact tells_of_applyStep hi (applyStep_of_step hi hs).2
  | worker st _ h =>
      cases h with
      | deliver => exact grows_one (tells_other rfl)
      | post =>
          rw [userPost_rest]
          exact grows_refl
      | _ => exact grows_refl
  | stop st _ h =>
      cases h with
      | flags | crash => exact grows_refl
      | sweep u hj hx hu => exact sweeps_grows hu fun _ _ => tells_other rfl

end Steps

/-- The object is registered as the parent of the actor with the description. -/
def Supervises (regs : List Registration) (p : ActorPtr) (d : Description) : Prop :=
  ∃ r ∈ regs, r.descr.address.id = d.parent ∧ r.descr.actor = p

/-- What tasks and threads that climb know of the tree. -/
structure Introduced (s : System π) : Prop where
  parents : ∀ t p, s.HasTask (.apply t) → t.parent = some p →
    Supervises s.registrations p t.target
  climbers : ∀ t f d, .applying t (.escalating f d) ∈ s.running →
    ∃ r ∈ s.registrations, r.descr = d.bare

/-- Every call on a supervisor is about a child of it, by the address of the child or, when
    it is told of a stop, by one that is made from the id. -/
def Addressed (s : System π) : Prop :=
  ∀ ev ∈ s.trace, ∀ p addr, ev.told = some (p, addr) →
    ∃ r ∈ s.registrations, Supervises s.registrations p r.descr ∧
      addr = if ev.tellsStop = true then .ofId r.descr.address.id else r.descr.address

section Addressed

variable {cfg : Config} {name : String} {s s' : System π} {a : Action π}

theorem supervises_mono {regs regs' : List Registration} (h : ∀ r ∈ regs, r ∈ regs')
    {p : ActorPtr} {d : Description} (hp : Supervises regs p d) : Supervises regs' p d := by
  rcases hp with ⟨r, hr, hid, hactor⟩
  exact ⟨r, h r hr, hid, hactor⟩

/-- Whoever is registered under the parent of an actor supervises it. -/
theorem supervises_of_live (hreg : Registered s) {d up : Description}
    (hup : s.live d.parent = some up) : Supervises s.registrations up.actor d := by
  rcases hreg.entries _ _ hup with ⟨r, hentry, _⟩
  refine ⟨r, hentry.mem, hentry.id, ?_⟩
  rw [hentry.descr]

/-- A description in the map is one that was registered. -/
theorem registered_of_live (hreg : Registered s) {k : IdT} {d : Description}
    (hd : s.live k = some d) : ∃ r ∈ s.registrations, r.descr = d.bare ∧ d.address.id = k := by
  rcases hreg.entries _ _ hd with ⟨r, hentry, _⟩
  exact ⟨r, hentry.mem, hentry.descr, by rw [live_address hreg.toFiled hd]⟩

theorem step_introduced (hs : step cfg s a = some s') (hreg : Registered s) (hback : Backed s)
    (h : Introduced s) : Introduced s' := by
  have hregs := step_registrations hs hreg
  refine ⟨fun t p ht hp => ?_, fun t f d hr => ?_⟩
  · have hcases : s.HasTask (.apply t) ∨ Stands s t := by
      rcases poolRule_hasTask (poolRule_of_stepRule (stepRule_of_step hs).2) ht with hold | hpost
      · exact Or.inl hold
      · exact stands_of_posts hs hreg hpost ht
    rcases hcases with hold | hstands
    · exact supervises_mono hregs (h.parents t p hold hp)
    · rw [hstands.parent, Option.map_eq_some_iff] at hp
      rcases hp with ⟨up, hup, rfl⟩
      rw [live_of_above, Option.ite_none_left_eq_some] at hup
      exact supervises_mono hregs (supervises_of_live hreg hup.2)
  · rcases escalating_of_step hs hr with hold | ⟨i, st, pc, _, hi, henters⟩
    · rcases h.climbers t f d hold with ⟨r, hr, hdescr⟩
      exact ⟨r, hregs r hr, hdescr⟩
    · by_cases hst : st = .lockShared
      · rcases henters.locks hst with ⟨_, rfl⟩
        rcases hback _ (hasTask_of_running hi) with ⟨r, hr, _, hdescr⟩
        exact ⟨r, hregs r hr, hdescr⟩
      · rcases henters.climbs hst with ⟨_, e, _, hup⟩
        rcases registered_of_live hreg hup with ⟨r, hr, hdescr, _⟩
        exact ⟨r, hregs r hr, hdescr⟩

/-- A call that a step makes is about a child. -/
theorem addressed_of_tells (hreg : Registered s) (hback : Backed s) (h : Introduced s)
    {ev : Event π} (hev : Tells s ev) {p : ActorPtr} {addr : ActorAddress}
    (htold : ev.told = some (p, addr)) :
    ∃ r ∈ s.registrations, Supervises s.registrations p r.descr ∧
      addr = if ev.tellsStop = true then .ofId r.descr.address.id else r.descr.address := by
  cases hev with
  | notice hnotice =>
      rcases hnotice with hnone | ⟨k, d, up, reason, hd, hup, rfl⟩
      · rw [hnone] at htold
        simp only [reduceCtorEq] at htold
      · simp only [Event.told, Option.some.injEq, Prod.mk.injEq] at htold
        rcases htold with ⟨rfl, rfl⟩
        rcases hreg.entries _ _ hd with ⟨r, hentry, _⟩
        refine ⟨r, hentry.mem, ?_, ?_⟩
        · rw [hentry.descr]
          exact supervises_of_live hreg hup
        · exact (congrArg ActorAddress.ofId hentry.id.symm).trans (if_pos rfl).symm
  | task t p' ht hp hev hstop =>
      rw [hev, Option.some.injEq, Prod.mk.injEq] at htold
      rcases htold with ⟨rfl, rfl⟩
      rcases hback _ ht with ⟨r, hr, _, hdescr⟩
      refine ⟨r, hr, ?_, ?_⟩
      · rw [hdescr]
        exact h.parents t p' ht hp
      · rw [if_neg (Bool.eq_false_iff.mp hstop), hdescr]
  | climbing t f d up hpc hup hev hstop =>
      rw [hev, Option.some.injEq, Prod.mk.injEq] at htold
      rcases htold with ⟨rfl, rfl⟩
      rcases h.climbers t f d hpc with ⟨r, hr, hdescr⟩
      refine ⟨r, hr, ?_, ?_⟩
      · rw [hdescr]
        exact supervises_of_live hreg hup
      · rw [if_neg (Bool.eq_false_iff.mp hstop), hdescr]
        rfl

theorem reach_introduced (h : (context cfg name).Reach free s) : Introduced s := by
  have hknown : ∀ s, (context cfg name).Reach free s → Registered s ∧ Backed (π := π) s :=
    fun s h => ⟨reach_registered h, reach_backed h⟩
  refine invariant_of (fun s => Registered s ∧ Backed s) Introduced hknown ⟨?_, ?_⟩
    (fun s a s' _ hs hJ _ h => step_introduced hs hJ.1 hJ.2 h) h
  · exact fun t p ht => absurd ht (makeContext_tasks t)
  · intro t f d hr
    have hnone : (makeContext (π := π) cfg name).running = [] := makeContext_running
    exact absurd (hnone ▸ hr) List.not_mem_nil

theorem step_addressed (hs : step cfg s a = some s') (hreg : Registered s) (hback : Backed s)
    (hintro : Introduced s) (h : Addressed s) : Addressed s' := by
  intro ev hev p addr htold
  have hregs := step_registrations hs hreg
  have hknown : ∃ r ∈ s.registrations, Supervises s.registrations p r.descr ∧
      addr = if ev.tellsStop = true then .ofId r.descr.address.id else r.descr.address := by
    rcases mem_or_of_grows (tells_of_step hs) hev with hold | htells
    · exact h ev hold p addr htold
    · exact addressed_of_tells hreg hback hintro htells htold
  rcases hknown with ⟨r, hr, hsup, haddr⟩
  exact ⟨r, hregs r hr, supervises_mono hregs hsup, haddr⟩

theorem reach_addressed (h : (context cfg name).Reach free s) : Addressed s := by
  have hknown : ∀ s, (context cfg name).Reach free s →
      Registered s ∧ Backed (π := π) s ∧ Introduced s :=
    fun s h => ⟨reach_registered h, reach_backed h, reach_introduced h⟩
  refine invariant_of (fun s => Registered s ∧ Backed s ∧ Introduced s) Addressed hknown ?_
    (fun s a s' _ hs hJ _ h => step_addressed hs hJ.1 hJ.2.1 hJ.2.2 h) h
  intro ev hev p addr htold
  have hadds := makeContext_trace hev
  cases ev <;> simp only [Event.adds, Event.told, Bool.false_eq_true, reduceCtorEq] at hadds htold

theorem slash_mem (a b : String) : '/' ∈ (a ++ "/" ++ b).toList := by
  rw [String.toList_append, String.toList_append]
  exact List.mem_append_left _ (List.mem_append_right _ List.mem_cons_self)

/-- The path name of an actor has a slash in it, and the one that stands for none
    does not. -/
theorem address_ne_ofId (hreg : Registered s) {r : Registration} (hr : r ∈ s.registrations)
    (k : IdT) : r.descr.address ≠ .ofId k := by
  have hdescr := hreg.records r hr
  have hslash : '/' ∈ r.descr.name.toList := by
    rcases hdescr.parent with ⟨_, hname⟩ | ⟨_, _, _, hname⟩
    · rw [hname, String.toList_append]
      exact List.mem_append_left _ List.mem_cons_self
    · rw [hname]
      exact slash_mem _ _
  intro heq
  rw [hdescr.address, ActorAddress.ofId, ActorAddress.mk.injEq] at heq
  rw [heq.2] at hslash
  exact absurd hslash (by decide)

/-- In every run, whatever is done to whom, every call on a supervisor is about a child of
    it, and it is passed the address that `add_actor` returned for that child exactly if it
    is not `on_child_stopped`. -/
theorem supervisors_see_addresses {cfg : Config} {name : String} {s : System π}
    (h : (context cfg name).Reach free s) {ev : Event π} (hev : ev ∈ s.trace) {p : ActorPtr}
    {addr : ActorAddress} (htold : ev.told = some (p, addr)) :
    ∃ r ∈ s.registrations, Supervises s.registrations p r.descr ∧
      addr.id = r.descr.address.id ∧ (addr = r.descr.address ↔ ev.tellsStop = false) := by
  rcases reach_addressed h ev hev p addr htold with ⟨r, hr, hsup, haddr⟩
  refine ⟨r, hr, hsup, ?_⟩
  cases hstop : ev.tellsStop with
  | false =>
      rw [if_neg (Bool.eq_false_iff.mp hstop)] at haddr
      exact ⟨by rw [haddr], fun _ => rfl, fun _ => haddr⟩
  | true =>
      rw [if_pos hstop] at haddr
      refine ⟨by rw [haddr]; rfl, fun heq => ?_, fun h => Bool.noConfusion h⟩
      exact absurd (heq.symm.trans haddr) (address_ne_ofId (reach_registered h) hr _)

end Addressed

/-- The parent of an actor whose handler threw is asked about it by its address. -/
theorem supervisors_see_addresses_error :
    ∃ r ∈ ((context (.plain 1) "ctx").after escalateRun).registrations,
      r.descr.address = ⟨⟨5⟩, "/root/usr/p/c"⟩ := by
  have hlast : ((context (.plain 1) "ctx").after escalateRun).trace.getLast? =
      some (.childError 3 ⟨⟨5⟩, "/root/usr/p/c"⟩ .escalate) := rfl
  rcases supervisors_see_addresses (reach_after escalateRun) (List.mem_of_getLast? hlast) rfl
    with ⟨r, hr, _, _, haddr⟩
  exact ⟨r, hr, (haddr.mpr rfl).symm⟩

/-- An actor is registered and stopped by hand. -/
def stoppedRun : List (Action Nat) :=
  register "a" .null 3 ++ [.call (.stopActor ⟨⟨4⟩, "/root/usr/a"⟩)]

/-- Its parent is told of an address that is nobody's. -/
theorem supervisors_see_addresses_stopped :
    ¬ ∀ (cfg : Config) (name : String) (s : System Nat), (context cfg name).Reach free s →
      ∀ ev ∈ s.trace, ∀ p addr, ev.told = some (p, addr) →
        ∃ r ∈ s.registrations, addr = r.descr.address := by
  intro h
  have hreach : (context (.plain 1) "ctx").Reach free
      ((context (.plain 1) "ctx").after stoppedRun) := reach_after stoppedRun
  have hlast : ((context (.plain 1) "ctx").after stoppedRun).trace.getLast? =
      some (.childStopped 1 (.ofId ⟨4⟩) .manual) := rfl
  rcases h _ _ _ hreach _ (List.mem_of_getLast? hlast) _ _ rfl with ⟨r, hr, haddr⟩
  exact address_ne_ofId (reach_registered hreach) hr _ haddr.symm

end Yaaf
