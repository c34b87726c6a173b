import Yaaf.Library.Slots
import Yaaf.Theory.Runs

/-!
# The Busy Flag Counts Dispatches

Mutual exclusion per actor object. The flag is taken by the mailbox worker,
travels with the task the worker posts, and is given back by the user thread
that runs the task, or by the worker itself when the mailbox turned out to be
empty. Between the two it belongs to exactly one place.

`outstanding` counts the places: the worker between `try_lock` and its post
or its `reset_busy`, tasks in the queue, tasks a thread is executing and has
not yet reset, and tasks the thread manager dropped. The invariant equates
the count with the flag. That there is never more than one dispatch, and so
never two overlapping handlers, is then a remark about Booleans.

The count is per object, not per registration, so an actor registered under
several ids is covered as it stands.

## Main definitions

* `System.outstanding`: The dispatches of an actor object.
* `Balanced`: The flag is the number of dispatches.
* `SamePool`: Nothing the count looks at has changed.

## Theorems

* `applyRule_balanced`, `workerRule_balanced`: The two threads that move it.
* `step_balanced`: One step keeps the balance.
* `reach_balanced`: Every state of a run is balanced.
* `busy_iff_dispatched`: Per-actor mutual exclusion.
-/

namespace Yaaf

open Slots

variable {π : Type}

/-- A task that was posted with the busy flag of `a`. -/
def Task.holds (a : ActorPtr) : Task → Bool
  | .onStart _ _ => false
  | .apply t => t.target.actor = a

/-- A thread that has yet to give the busy flag of `a` back. -/
def Running.holds (a : ActorPtr) : Running π → Bool
  | .starting _ _ => false
  | .applying t pc => t.target.actor = a && pc.holdsBusy

/-- The worker holds the busy flag of `a`. -/
def WorkerPc.holds (a : ActorPtr) : WorkerPc π → Bool
  | .scan _ _ (.locked _ d) | .scan _ _ (.releasing d) | .scan _ _ (.posting _ d) => d.actor = a
  | _ => false

/-- The dispatches of an actor object that have not given its flag back. -/
def System.outstanding (s : System π) (a : ActorPtr) : Nat :=
  (s.worker.holds a).toNat + s.queue.countP (Task.holds a) +
    s.running.countP (Running.holds a) + s.dropped.countP (Task.holds a)

/-- Every busy flag is the number of outstanding dispatches. -/
def Balanced (s : System π) : Prop :=
  ∀ a, s.outstanding a = (s.objs a).busy.toNat

/-- Nothing the count looks at has changed. -/
structure SamePool (s s' : System π) : Prop where
  worker : s'.worker = s.worker
  queue : s'.queue = s.queue
  running : s'.running = s.running
  dropped : s'.dropped = s.dropped
  busy : ∀ a, (s'.objs a).busy = (s.objs a).busy

theorem samePool_balanced {s s' : System π} (h : SamePool s s') (hb : Balanced s) :
    Balanced s' := by
  intro a
  rw [System.outstanding, h.worker, h.queue, h.running, h.dropped, h.busy]
  exact hb a

theorem stops_samePool {cfg : Config} {s s' : System π} (h : Stops cfg s s') : SamePool s s' := by
  refine ⟨?_, ?_, ?_, ?_, h.busy⟩ <;> rw [h.rest]

/-- Client calls dispatch nothing and give nothing back. -/
theorem callRule_samePool {cfg : Config} {s s' : System π} {c : ContextCall π}
    (h : CallRule cfg s c s') : SamePool s s' := by
  cases h with
  | stop addr u hx hu hgone hstop => exact stops_samePool hu
  | _ => exact ⟨rfl, rfl, rfl, rfl, fun _ => rfl⟩

/-- A post adds one place to the count, whether or not it gets through. -/
theorem userPost_outstanding (s : System π) (t : Task) (a : ActorPtr) :
    (s.userPost t).outstanding a = s.outstanding a + (t.holds a).toNat := by
  unfold System.userPost System.outstanding
  split
  · simp only [System.crash, List.countP_append, List.countP_singleton]
    cases t.holds a <;> simp
    omega
  · split <;> simp only [List.countP_append, List.countP_singleton] <;>
      cases t.holds a <;> simp <;> omega

theorem addRule_balanced {s s' : System π} {i : Nat} {c : AddCall} (h : AddRule s i c s')
    (hb : Balanced s) : Balanced s' := by
  cases h with
  | post m hc =>
      intro a
      have hpost := userPost_outstanding s (.onStart c.actor m) a
      have hobjs : (s.userPost (.onStart c.actor m)).objs = s.objs := by rw [userPost_rest]
      simp only [Task.holds, Bool.toNat_false, Nat.add_zero] at hpost
      exact (hpost.trans (hb a)).trans (by rw [← hobjs]; rfl)
  | _ => exact samePool_balanced ⟨rfl, rfl, rfl, rfl, fun _ => rfl⟩ hb

/-- A thread that keeps hold of what it held leaves the count alone. -/
theorem moveTo_outstanding {s : System π} {i : Nat} {t : ApplyTask} {pc : ApplyPc π}
    (hi : s.running[i]? = some (.applying t pc)) (pc' : ApplyPc π) (a : ActorPtr) :
    (s.moveTo i t pc').outstanding a + (Running.holds a (.applying t pc)).toNat =
      s.outstanding a + (Running.holds a (.applying t pc')).toNat := by
  have hcount := countP_set hi (Running.holds a) (.applying t pc')
  simp only [System.outstanding, System.moveTo]
  omega

theorem moveTo_balanced {s : System π} {i : Nat} {t : ApplyTask} {pc : ApplyPc π}
    (hi : s.running[i]? = some (.applying t pc)) (pc' : ApplyPc π) (hpc : pc'.holdsBusy = pc.holdsBusy)
    (hb : Balanced s) : Balanced (s.moveTo i t pc') := by
  intro a
  have hmove := moveTo_outstanding hi pc' a
  simp only [Running.holds, hpc] at hmove
  have := hb a
  simp only [System.moveTo] at hmove ⊢
  omega

theorem finish_balanced {s : System π} {i : Nat} {r : Running π} (hi : s.running[i]? = some r)
    (hr : ∀ a, r.holds a = false) (hb : Balanced s) : Balanced (s.finish i) := by
  intro a
  have hcount := countP_eraseIdx hi (Running.holds a)
  rw [hr a, Bool.toNat_false, Nat.add_zero] at hcount
  have := hb a
  simp only [System.outstanding, System.finish] at this ⊢
  rw [hcount]
  exact this

/-- Giving the flag back: the place goes and the flag goes with it. -/
theorem resetBusy_balanced {s : System π} {i : Nat} {t : ApplyTask} {pc pc' : ApplyPc π}
    (hi : s.running[i]? = some (.applying t pc)) (hpc : pc.holdsBusy = true)
    (hpc' : pc'.holdsBusy = false) (hb : Balanced s) :
    Balanced ((s.moveTo i t pc').setObj t.target.actor (s.objs t.target.actor).resetBusy) := by
  intro a
  have hmove := moveTo_outstanding hi pc' a
  have hold := hb a
  simp only [Running.holds, hpc, hpc', Bool.and_true, Bool.and_false, Bool.toNat_false,
    Nat.add_zero] at hmove
  by_cases ha : t.target.actor = a
  · subst ha
    simp only [System.setObj, Function.update_self, BaseActor.resetBusy, Bool.toNat_false]
    simp only [decide_true, Bool.toNat_true] at hmove
    have hle := Bool.toNat_le (s.objs t.target.actor).busy
    simp only [System.outstanding, System.moveTo] at hmove hold ⊢
    omega
  · simp only [decide_eq_false ha, Bool.toNat_false, Nat.add_zero] at hmove
    simp only [System.setObj, Function.update_of_ne (fun h => ha h.symm)]
    simp only [System.outstanding, System.moveTo] at hmove hold ⊢
    omega

theorem applyRule_balanced {cfg : Config} {s s' : System π} {i : Nat} {t : ApplyTask}
    {pc : ApplyPc π} (hi : s.running[i]? = some (.applying t pc))
    (h : ApplyRule cfg s i t pc s') (hb : Balanced s) : Balanced s' := by
  cases h with
  | entry pc' hpc =>
      refine moveTo_balanced hi _ ?_ hb
      rcases hpc with rfl | rfl <;> rfl
  | popEmpty hm => exact moveTo_balanced hi _ rfl hb
  | pop e rest hm => exact moveTo_balanced hi (.popped e) rfl hb
  | callHandler e => exact moveTo_balanced hi (.handling e) rfl hb
  | handlerReturn e => exact moveTo_balanced hi .draining rfl hb
  | handlerThrow e what => exact moveTo_balanced hi (.threw what) rfl hb
  | updateStatus pc k msg r hpc =>
      have hmove : Balanced (s.moveTo i t (.resetting r)) := by
        refine moveTo_balanced hi _ ?_ hb
        rcases hpc with ⟨rfl, _⟩ | ⟨rfl, _⟩ <;> rfl
      refine samePool_balanced (s := s.moveTo i t (.resetting r))
        ⟨rfl, rfl, rfl, rfl, fun a => ?_⟩ hmove
      -- The status is not the flag.
      by_cases ha : a = t.target.actor
      · subst ha
        simp only [System.setObj, Function.update_self]
        rfl
      · simp only [System.setObj, Function.update_of_ne ha]
  | resetBusy r pc' hpc =>
      refine resetBusy_balanced hi rfl ?_ hb
      rw [hpc]
      cases r <;> rfl
  | halt pc f evs hf hevs => exact samePool_balanced ⟨rfl, rfl, rfl, rfl, fun _ => rfl⟩ hb
  | done pc evs hpc hevs =>
      refine finish_balanced (s := { s with trace := s.trace ++ evs }) (r := .applying t pc) hi
        (fun a => ?_) hb
      simp only [Running.holds, hpc, Bool.and_false]
  | walk pc pc' evs hpc hpc' =>
      exact moveTo_balanced (s := { s with trace := s.trace ++ evs }) hi pc' (by rw [hpc, hpc']) hb
  | stop pc u hpc hx hu hgone hstop =>
      have hpool := stops_samePool hu
      have hub : Balanced u := samePool_balanced hpool hb
      refine finish_balanced (s := u.emit _) (r := .applying t pc) ?_ (fun a => ?_) hub
      · rw [← hi, ← hpool.running]
        rfl
      · simp only [Running.holds, hpc, Bool.and_false]
  | reinit h u hx hu hgone hstop =>
      have hpool := stops_samePool hu
      have hub : Balanced u := samePool_balanced hpool hb
      have hi' : ((u.emit (.failureStopped t h)).emit
          (.restartBegin t.target.actor t.mb)).running[i]? =
            some (.applying t (.deciding h .reinit)) := by
        rw [← hi, ← hpool.running]
        rfl
      exact moveTo_balanced hi' (.restarting h) rfl hub

theorem taskRule_balanced {cfg : Config} {s s' : System π} {i : Nat} (h : TaskRule cfg s i s')
    (hb : Balanced s) : Balanced s' := by
  cases h with
  | startHalt a m hi => exact hb
  | startReturn a m hi =>
      exact finish_balanced (s := s.emit _) (r := .starting a m) hi (fun _ => rfl) hb
  | apply t pc s' hi h => exact applyRule_balanced hi h hb

/-- A worker step that neither takes nor gives a flag. -/
theorem worker_balanced {s s' : System π} (hworker : ∀ a, s'.worker.holds a = s.worker.holds a)
    (hqueue : s'.queue = s.queue) (hrunning : s'.running = s.running)
    (hdropped : s'.dropped = s.dropped) (hobjs : s'.objs = s.objs) (hb : Balanced s) :
    Balanced s' := by
  intro a
  rw [System.outstanding, hworker, hqueue, hrunning, hdropped, hobjs]
  exact hb a

theorem workerRule_balanced {s s' : System π} (h : WorkerRule s s') (hb : Balanced s) :
    Balanced s' := by
  cases h with
  | lock todo rm m d hw hbusy =>
      intro a
      have hold := hb a
      simp only [System.outstanding, hw, WorkerPc.holds, Bool.toNat_false, Nat.zero_add] at hold
      by_cases ha : d.actor = a
      · subst ha
        simp only [System.outstanding, System.setObj, Function.update_self, WorkerPc.holds,
          decide_true, Bool.toNat_true]
        rw [hbusy, Bool.toNat_false] at hold
        omega
      · simp only [System.outstanding, System.setObj, WorkerPc.holds, decide_eq_false ha,
          Bool.toNat_false, Function.update_of_ne (fun h => ha h.symm)]
        omega
  | release todo rm d hw =>
      intro a
      have hold := hb a
      simp only [System.outstanding, hw, WorkerPc.holds] at hold
      by_cases ha : d.actor = a
      · subst ha
        simp only [decide_true, Bool.toNat_true] at hold
        have hle := Bool.toNat_le (s.objs d.actor).busy
        simp only [System.outstanding, System.setObj, Function.update_self, WorkerPc.holds,
          BaseActor.resetBusy, Bool.toNat_false]
        omega
      · simp only [decide_eq_false ha, Bool.toNat_false] at hold
        simp only [System.outstanding, System.setObj, WorkerPc.holds, Bool.toNat_false,
          Function.update_of_ne (fun h => ha h.symm)]
        omega
  | post todo rm m d p hw hp =>
      intro a
      have hold := hb a
      have hpost := userPost_outstanding s (.apply ⟨d, p, m⟩) a
      have hworker : (s.userPost (.apply ⟨d, p, m⟩)).worker = s.worker := by rw [userPost_rest]
      have hobjs : (s.userPost (.apply ⟨d, p, m⟩)).objs = s.objs := by rw [userPost_rest]
      -- What the worker held is now held by the task.
      simp only [System.outstanding, hworker, hw, WorkerPc.holds, Task.holds] at hpost hold
      simp only [System.outstanding, WorkerPc.holds, Bool.toNat_false, hobjs]
      omega
  | _ =>
      refine worker_balanced (s := s) (fun a => ?_) rfl rfl rfl rfl hb
      simp_all only [WorkerPc.holds, System.crash]

theorem sweeps_samePool {cfg : Config} {s s' : System π} (h : Sweeps cfg s s') :
    SamePool s s' := by
  refine ⟨?_, ?_, ?_, ?_, h.busy⟩ <;> rw [h.rest]

theorem step_balanced {cfg : Config} {s s' : System π} {a : Action π}
    (hs : step cfg s a = some s') (hb : Balanced s) : Balanced s' := by
  cases (stepRule_of_step hs).2 with
  | call c s' h => exact samePool_balanced (callRule_samePool h) hb
  | userCall uc uc' c s' hc h => exact samePool_balanced (callRule_samePool h) hb
  | userNothing uc uc' => exact hb
  | add i st c s' hi h => exact addRule_balanced h hb
  | pick t rest hq hn =>
      intro a
      have hold := hb a
      simp only [System.outstanding, hq, List.countP_cons] at hold
      simp only [System.outstanding, List.countP_append, List.countP_singleton]
      -- A task holds what the thread that takes it holds.
      have htaken : Running.holds (π := π) a t.taken = t.holds a := by
        cases t with
        | onStart b m => rfl
        | apply t => simp only [Task.taken, Running.holds, Task.holds, ApplyPc.holdsBusy,
            Bool.and_true]
      rw [htaken]
      omega
  | task i st s' h => exact taskRule_balanced h hb
  | worker st s' h => exact workerRule_balanced h hb
  | stop st s' h =>
      cases h with
      | flags | crash => exact hb
      | sweep u hj hx hu =>
          have hpool := sweeps_samePool hu
          exact samePool_balanced (s := s)
            ⟨hpool.worker, hpool.queue, hpool.running, hpool.dropped, hpool.busy⟩ hb

/-- Every state of every run is balanced. -/
theorem reach_balanced {cfg : Config} {name : String} {C : System π → Action π → Prop}
    {s : System π} (h : (context cfg name).Reach C s) : Balanced s :=
  always Balanced (fun _ => rfl) (fun _ _ hb => hb) (fun _ _ _ => step_balanced) h

/-- The flag of an object is held by one thread at most. -/
theorem holder_place {s : System π} (hb : Balanced s) {i j : Nat} {r r' : Running π}
    {a : ActorPtr} (hi : s.running[i]? = some r) (hr : r.holds a = true)
    (hj : s.running[j]? = some r') (hr' : r'.holds a = true) : j = i := by
  by_contra hij
  have htwo := two_le_countP hi hj hij hr hr'
  have hle := Bool.toNat_le (s.objs a).busy
  have := hb a
  unfold System.outstanding at this
  omega

theorem sole_holder {s : System π} (hb : Balanced s) {i : Nat} {r r' : Running π} {a : ActorPtr}
    (hi : s.running[i]? = some r) (hr : r.holds a = true) (hr' : r' ∈ s.running)
    (hh : r'.holds a = true) : r' = r := by
  rcases List.getElem?_of_mem hr' with ⟨j, hj⟩
  rw [holder_place hb hi hr hj hh, hi, Option.some.injEq] at hj
  exact hj.symm

/-- A thread that is inside `action_handle` of `a`. -/
def Running.handles (a : ActorPtr) : Running π → Bool
  | .applying t (.handling _) => t.target.actor = a
  | _ => false

/-- Whoever is inside a handler still holds the flag. -/
theorem handles_holds {a : ActorPtr} {r : Running π} (h : r.handles a = true) :
    r.holds a = true := by
  unfold Running.handles at h
  split at h
  · simp only [Running.holds, h, ApplyPc.holdsBusy, Bool.and_true]
  · exact absurd h (by simp only [Bool.false_eq_true, not_false_eq_true])

/-- Per-actor mutual exclusion: the flag is set exactly when there is one
    outstanding dispatch, there is never a second, and so no two calls of
    `action_handle` on one object overlap. -/
theorem busy_iff_dispatched {cfg : Config} {name : String} {s : System π}
    (h : (context cfg name).Reach Machine.free s) (a : ActorPtr) :
    ((s.objs a).busy = true ↔ s.outstanding a = 1) ∧ s.outstanding a ≤ 1 ∧
      s.running.countP (Running.handles a) ≤ 1 := by
  have hb : s.outstanding a = (s.objs a).busy.toNat := reach_balanced h a
  have hle : s.outstanding a ≤ 1 := by
    rw [hb]
    exact Bool.toNat_le _
  have hhandles : s.running.countP (Running.handles a) ≤ s.running.countP (Running.holds a) :=
    List.countP_mono_left fun r _ hr => handles_holds hr
  refine ⟨?_, hle, ?_⟩
  · rw [hb, Bool.toNat_eq_one]
  · unfold System.outstanding at hle
    omega

/-- A pass has just locked an actor with one message. -/
def lockedRun : List (Action Nat) :=
  register "a" .null 3 ++ runStarts 4 ++
    [.call (.sendEnvelope ⟨⟨4⟩, "/root/usr/a"⟩ ⟨some 0, .null⟩)] ++ scanAndLock ⟨4⟩

theorem busy_iff_dispatched_lockedRun :
    ((((context (.plain 1) "ctx").after lockedRun).objs 3).busy = true ↔
        ((context (.plain 1) "ctx").after lockedRun).outstanding 3 = 1) ∧
      ((context (.plain 1) "ctx").after lockedRun).outstanding 3 ≤ 1 ∧
        ((context (.plain 1) "ctx").after lockedRun).running.countP (Running.handles 3) ≤ 1 :=
  busy_iff_dispatched (Machine.reach_after lockedRun) 3

example : (((context (.plain 1) "ctx").after lockedRun).objs 3).busy = true := by decide

end Yaaf
