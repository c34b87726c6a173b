import Yaaf.Core.Condition
import Yaaf.Theory.Barrier
import Yaaf.Theory.Queues
import Yaaf.Theory.Waiters

/-!
# No Wake-Up Is Lost in the Pool

A worker thread that finds the queue empty sleeps on `_condition`. Every push is
followed by a notification of all sleepers, and so is the setting of the stop
flag, and nothing else makes the predicate of the wait true. So where there is
something to do and a thread sleeps, a notification is on its way.

That is not yet that anything gets done, and what gets done is counted here. Each
step of a worker thread, and each push of a `post` under way, uses up some of a
quantity that no other step adds to, as long as nobody posts and the tasks
return. So there are only so many. And while something is left to do, one of them
is possible, once a `flush` that holds the mutex has let go of it and one
notification that is owed has been made. Nothing else has to wake anybody.

What is left to do is, in a pool that is not stopping, what is queued or held;
in one that is, that every thread returns.

## Main definitions

* `workLeft`: What the steps of the worker threads use up.
* `ownStep`, `works`, `releases`: The steps of the pool itself, those that count,
  and those that let go of the mutex or wake.
* `ThreadsPool.Done`: Nothing is left to do.

## Theorems

* `poolMonitor_heeds`: The pool notifies where it has to.
* `own_uses`: What each step does to the work that is left.
* `works_of_left`: While something is left, one more step is possible.
* `pool_never_hangs`: All of this, of every run.
-/

namespace Yaaf.Async

open Machine ThreadsPool

section Heeds

variable {p : PoolParams} {s s' : ThreadsPool} {a : PoolStep}

/-- A thread that waits stays there as long as others move. -/
theorem waits_of_step {i : Nat} (hs : poolStep p s a = some s')
    (hi : s.threads[i]? = some .waiting) (hother : (poolMonitor p).mover a ≠ some i) :
    s'.threads[i]? = some .waiting := by
  cases waitRule_of_step hs with
  | still s' hthreads => rw [hthreads, hi]
  | push | stopBegin | stopEnd => exact hi
  | logic j st pc s' hj hlogic =>
      rcases turns_of_logic hj hlogic with ⟨pc', hturn⟩
      have hne : j ≠ i := fun h => hother (congrArg some h)
      rw [hturn.threads, List.getElem?_set_ne hne, hi]

/-- Only `stop` sets the flag. -/
theorem stopBegin_of_flag (hs : poolStep p s a = some s') (hno : s.stopFlag = false)
    (hflag : s'.stopFlag = true) : a = .stopBegin := by
  cases waitRule_of_step hs with
  | still s' hthreads hrunned hsame => exact absurd hflag (by rw [hsame, hno]; decide)
  | push | stopEnd => exact absurd (hno.symm.trans hflag) Bool.false_ne_true
  | stopBegin => rfl
  | logic j st pc s' hj hlogic =>
      rcases turns_of_logic hj hlogic with ⟨pc', hturn⟩
      exact absurd hflag (by rw [hturn.flag, hno]; decide)

/-- What is pushed is pushed by a step that a notification follows. -/
theorem signals_of_pushed {t : TaskWrapper} (h : pushedBy s a = [t]) :
    (poolMonitor p).signals s a = true := by
  unfold pushedBy at h
  split at h
  · rfl
  · rfl
  · exact absurd h (by simp only [List.nil_eq, reduceCtorEq, not_false_eq_true])

/-- The pool notifies where it has to. -/
theorem poolMonitor_heeds (p : PoolParams) : (poolMonitor p).Heeds where
  notifies s a s' hs hno hready := by
    simp only [poolMonitor, Bool.or_eq_false_iff, Bool.not_eq_false', List.isEmpty_iff] at hno
    simp only [poolMonitor, Bool.or_eq_true, Bool.not_eq_true', List.isEmpty_eq_false_iff] at hready
    rcases hready with hflag | hqueue
    · rw [stopBegin_of_flag hs hno.1 hflag]
      rfl
    -- The queue was empty, so what is in it now was pushed.
    · cases queueRule_of_step hs with
      | same hq | single i t hi hq => exact absurd (hq.trans hno.2) hqueue
      | push t hq ht hpick hgive hpush | requeue i t hi hq ht hpick hgive hpush =>
          exact signals_of_pushed hpush
      | take i t hi hq =>
          rcases hq with ⟨pre, post, hq, _⟩
          rw [hno.2] at hq
          exact absurd hq (by
            simp only [List.nil_eq, List.append_eq_nil_iff, reduceCtorEq, and_false,
              not_false_eq_true])
  stays s a s' i hs hi hother := by
    simp only [poolMonitor, beq_iff_eq] at hi hother ⊢
    exact waits_of_step hs hi hother

end Heeds

/-- What a worker thread has before it until it waits again. -/
def PoolLogic.weight : PoolLogic → Nat
  | .exited => 0
  | .waiting => 1
  | .top => 2
  | .leaving => 3
  | .running _ => 4
  | .requeueing _ => 8
  | .checking _ => 9

/-- What the steps of the worker threads use up. -/
def workLeft (s : ThreadsPool) : Nat :=
  4 * s.inQueue.length + 5 * s.posting.length + (s.threads.map PoolLogic.weight).sum

/-- The steps of the pool itself: nobody posts, and the tasks return and are done. -/
def ownStep : PoolStep → Bool
  | .postBegin _ => false
  | .logic _ (.applied r) => r == some .single
  | _ => true

/-- The steps that count: those of the worker threads, and the pushes under way. -/
def works : PoolStep → Bool
  | .logic _ _ | .postPush _ => true
  | _ => false

/-- Nothing is left to do. A pool that is not stopping has run what was posted, and of
    one that is every thread has returned. -/
structure ThreadsPool.Done (s : ThreadsPool) : Prop where
  posting : s.posting = []
  exited : s.stopFlag = true → ∀ pc ∈ s.threads, pc = .exited
  idle : s.stopFlag = false → s.inQueue = [] ∧ ∀ pc ∈ s.threads, pc.held = none

section Work

variable {p : PoolParams} {s s' : ThreadsPool} {a : PoolStep}

/-- Each step of a worker thread uses some work up. -/
theorem logic_uses {i : Nat} {st : LogicStep} {pc : PoolLogic} (hi : s.threads[i]? = some pc)
    (hs : poolLogic p s i st pc = some s') (hown : ownStep (.logic i st) = true) :
    workLeft s' + 1 ≤ workLeft s := by
  have hset := fun pc' => Slots.sum_set hi PoolLogic.weight pc'
  cases st with
  | loop =>
      cases pc <;> simp only [poolLogic, reduceCtorEq, Option.some.injEq] at hs
      rw [← hs]
      by_cases hstop : s.stopFlag = true
      · have hone := hset .exited
        simp only [workLeft, setThread, if_pos hstop, PoolLogic.weight] at hone ⊢
        omega
      · have hone := hset .waiting
        simp only [workLeft, setThread, if_neg hstop, PoolLogic.weight] at hone ⊢
        omega
  | pick =>
      cases pc <;> simp only [poolLogic, reduceCtorEq, Option.ite_none_right_eq_some] at hs
      have hs := hs.2
      by_cases hstop : s.stopFlag = true
      · rw [if_pos hstop, Option.some.injEq] at hs
        rw [← hs]
        have hone := hset .exited
        simp only [workLeft, setThread, PoolLogic.weight] at hone ⊢
        omega
      · rw [if_neg hstop, Option.map_eq_some_iff] at hs
        rcases hs with ⟨t, ht, rfl⟩
        have hone := hset (.running t)
        have hlen := List.length_erase_of_mem (mem_of_search ht)
        have hpos := List.length_pos_of_mem (mem_of_search ht)
        simp only [workLeft, beginApply, addEvent, setThread, PoolLogic.weight, hlen] at hone ⊢
        omega
  | applied result =>
      rcases result with _ | _ | _ <;> cases pc <;>
        simp only [poolLogic, reduceCtorEq, Option.some.injEq] at hs <;> rw [← hs]
      · exact absurd hown Bool.false_ne_true
      · have hone := hset .leaving
        simp only [workLeft, ThreadsPool.finish, addEvent, setThread, PoolLogic.weight] at hone ⊢
        omega
      · exact absurd hown Bool.false_ne_true
  | check =>
      cases pc <;> simp only [poolLogic, reduceCtorEq, Option.ite_none_right_eq_some] at hs
      rename_i t
      rcases hs with ⟨_, hs⟩
      split at hs <;> rw [Option.some.injEq] at hs <;> rw [← hs]
      · have hone := hset (.requeueing t)
        simp only [workLeft, setThread, PoolLogic.weight] at hone ⊢
        omega
      · have hone := hset (.running t)
        simp only [workLeft, beginApply, addEvent, setThread, PoolLogic.weight] at hone ⊢
        omega
  | requeue =>
      cases pc <;> simp only [poolLogic, reduceCtorEq, Option.ite_none_right_eq_some,
        Option.some.injEq] at hs
      rw [← hs.2]
      have hone := hset .leaving
      simp only [workLeft, pushTask, setThread, PoolLogic.weight, List.length_append,
        List.length_singleton] at hone ⊢
      omega
  | decrement =>
      cases pc <;> simp only [poolLogic, reduceCtorEq, Option.some.injEq] at hs
      rw [← hs]
      have hone := hset .top
      simp only [workLeft, decrement, setThread, PoolLogic.weight] at hone ⊢
      omega

/-- What each step does to the work that is left. -/
theorem own_uses (hs : poolStep p s a = some s') (hown : ownStep a = true) :
    workLeft s' + (works a).toNat ≤ workLeft s := by
  unfold poolStep at hs
  rw [Option.ite_none_left_eq_some] at hs
  have hs := hs.2
  cases a with
  | logic i st =>
      cases hi : s.threads[i]? with
      | none => simp only [hi, reduceCtorEq] at hs
      | some pc =>
          simp only [hi] at hs
          exact logic_uses hi hs hown
  | postBegin t => exact absurd hown Bool.false_ne_true
  | postPush j =>
      cases hj : s.posting[j]? with
      | none => simp only [hj, reduceCtorEq] at hs
      | some t =>
          simp only [hj, Option.ite_none_right_eq_some, Option.some.injEq] at hs
          rw [← hs.2]
          have hlt : j < s.posting.length := (List.getElem?_eq_some_iff.mp hj).1
          have hlen := List.length_eraseIdx_of_lt hlt
          simp only [workLeft, pushTask, addEvent, works, hlen, List.length_append,
            List.length_singleton, Bool.toNat_true]
          omega
  | stopBegin | stopEnd =>
      simp only [Option.ite_none_right_eq_some, Option.some.injEq] at hs
      rw [← hs.2]
      exact Nat.le_refl _
  | flushBegin =>
      simp only [Option.some.injEq] at hs
      rw [← hs]
      exact Nat.le_refl _
  | flushTest j =>
      simp only at hs
      split at hs
      · rw [Option.ite_none_right_eq_some] at hs
        rcases hs with ⟨_, hs⟩
        split at hs <;> rw [Option.some.injEq] at hs <;> rw [← hs] <;> exact Nat.le_refl _
      · simp only [reduceCtorEq] at hs
  | flushLoad j =>
      simp only at hs
      split at hs
      · split at hs <;> rw [Option.some.injEq] at hs <;> rw [← hs] <;> exact Nat.le_refl _
      · simp only [reduceCtorEq] at hs

/-- A worker thread has a step to make, unless it returned or waits for something that
    is not there. -/
theorem logic_goes {i : Nat} {pc : PoolLogic} (hterm : s.terminated = false)
    (hfree : s.lockFree = true) (hi : s.threads[i]? = some pc) (hne : pc ≠ .exited)
    (hready : pc = .waiting → (poolMonitor p).ready s = true) :
    ∃ st s', ownStep (.logic i st) = true ∧ poolStep p s (.logic i st) = some s' := by
  have hstep : ∀ {st : LogicStep} {s' : ThreadsPool}, poolLogic p s i st pc = some s' →
      poolStep p s (.logic i st) = some s' := by
    intro st s' h
    unfold poolStep
    rw [if_neg (Bool.eq_false_iff.mp hterm)]
    simp only [hi, h]
  cases pc with
  | top => exact ⟨.loop, _, rfl, hstep rfl⟩
  | waiting =>
      have hready := hready rfl
      simp only [poolMonitor, Bool.or_eq_true, Bool.not_eq_true', List.isEmpty_eq_false_iff]
        at hready
      by_cases hstop : s.stopFlag = true
      · refine ⟨.pick, s.setThread i .exited, rfl, hstep ?_⟩
        simp only [poolLogic, hfree, hstop, true_or, and_self, if_true]
      · have hq : s.inQueue ≠ [] := hready.resolve_left hstop
        rcases pick_of_waiting (p := p) hterm hfree (Bool.eq_false_iff.mpr hstop) hi hq with
          ⟨t, s', hs, _⟩
        exact ⟨.pick, s', rfl, hs⟩
  | running t => exact ⟨.applied (some .single), _, rfl, hstep rfl⟩
  | checking t =>
      refine ⟨.check, if s.inQueue ≠ [] ∨ s.stopFlag = true ∨ p.priority t = .worker then
        s.setThread i (.requeueing t) else beginApply p s i t, rfl, hstep ?_⟩
      simp only [poolLogic, hfree, if_true]
      split <;> rfl
  | requeueing t =>
      refine ⟨.requeue, (s.setThread i .leaving).pushTask t, rfl, hstep ?_⟩
      simp only [poolLogic, hfree, if_true]
  | leaving => exact ⟨.decrement, _, rfl, hstep rfl⟩
  | exited => exact absurd rfl hne

/-- Where something is left to do, a push is under way, or there is a thread that has a
    step to make. -/
theorem goer_of_left (hthreads : 0 < s.threads.length) (hexit : ExitsWhenStopped s)
    (hleft : ¬ s.Done) : s.posting ≠ [] ∨ ∃ (i : Nat) (pc : PoolLogic), s.threads[i]? = some pc ∧
      pc ≠ .exited ∧ (pc = .waiting → (poolMonitor p).ready s = true) := by
  by_cases hposting : s.posting = []
  · refine Or.inr ?_
    cases hstop : s.stopFlag with
    | true =>
        have hready : (poolMonitor p).ready s = true := by
          simp only [poolMonitor, hstop, Bool.true_or]
        by_contra hnone
        refine hleft ⟨hposting, fun _ pc hpc => ?_, fun h => absurd (h.symm.trans hstop)
          Bool.false_ne_true⟩
        rcases List.mem_iff_getElem?.mp hpc with ⟨i, hi⟩
        by_contra hne
        exact hnone ⟨i, pc, hi, hne, fun _ => hready⟩
    | false =>
        have halive : ∀ pc ∈ s.threads, pc ≠ .exited := by
          intro pc hpc he
          exact absurd (hstop.symm.trans (hexit (he ▸ hpc))) Bool.false_ne_true
        by_cases hq : s.inQueue = []
        · by_contra hnone
          refine hleft ⟨hposting, fun h => absurd (hstop.symm.trans h) Bool.false_ne_true,
            fun _ => ⟨hq, fun pc hpc => ?_⟩⟩
          rcases List.mem_iff_getElem?.mp hpc with ⟨i, hi⟩
          by_contra hheld
          refine hnone ⟨i, pc, hi, halive pc hpc, fun he => absurd ?_ hheld⟩
          rw [he]
          rfl
        · refine ⟨0, s.threads[0], List.getElem?_eq_getElem hthreads,
            halive _ (List.getElem_mem hthreads), fun _ => ?_⟩
          simp only [poolMonitor, Bool.or_eq_true, Bool.not_eq_true', List.isEmpty_eq_false_iff]
          exact Or.inr hq
  · exact Or.inl hposting

end Work

/-- The steps of the pool itself, those of its condition variable included. -/
def ownAct : Monitor.Act PoolStep → Bool
  | .act a => ownStep a
  | _ => true

/-- The steps that count. -/
def worksAct : Monitor.Act PoolStep → Bool
  | .act a => works a
  | _ => false

/-- The steps that let go of the mutex, or make a notification that is owed. -/
def releases : Monitor.Act PoolStep → Bool
  | .act (.flushLoad _) | .notifyAll => true
  | _ => false

section Sleeping

variable {p : PoolParams} {s : Sleeping ThreadsPool}

theorem act_uses {s' : Sleeping ThreadsPool} {x : Monitor.Act PoolStep}
    (hs : (poolMonitor p).step s x = some s') (hown : ownAct x = true) :
    workLeft s'.state + (worksAct x).toNat ≤ workLeft s.state := by
  cases x with
  | act a => exact own_uses (Monitor.act_step hs).2.1 hown
  | sleep | notifyAll | wake =>
      rcases Monitor.step_base hs with hsame | ⟨a, ha, _⟩
      · rw [hsame]
        exact Nat.le_refl _
      · exact absurd ha (by simp only [reduceCtorEq, not_false_eq_true])

/-- What the release of the mutex and a notification leave alone. -/
structure Keeps (s t : Sleeping ThreadsPool) : Prop where
  threads : t.state.threads = s.state.threads
  inQueue : t.state.inQueue = s.state.inQueue
  posting : t.state.posting = s.state.posting
  stopFlag : t.state.stopFlag = s.state.stopFlag
  terminated : t.state.terminated = s.state.terminated

theorem ready_of_keeps {t : Sleeping ThreadsPool} (h : Keeps s t) :
    (poolMonitor p).ready t.state = (poolMonitor p).ready s.state := by
  simp only [poolMonitor, h.stopFlag, h.inQueue]

theorem flushLoad_goes {j called : Nat} (hterm : s.state.terminated = false)
    (hj : s.state.flushing[j]? = some ⟨called, true⟩) :
    ∃ t, (poolMonitor p).step s (.act (.flushLoad j)) = some t ∧ Keeps s t ∧
      t.state.flushing.countP Flushing.counting < s.state.flushing.countP Flushing.counting := by
  have hstep : ∀ u, poolStep p s.state (.flushLoad j) = some u →
      (poolMonitor p).step s (.act (.flushLoad j)) = some { s with state := u } := by
    intro u hu
    have hbase : (poolMonitor p).base.step s.state (.flushLoad j) = some u := hu
    simp only [Monitor.step, hbase, Option.map_some]
    rfl
  have hload : poolStep p s.state (.flushLoad j) =
      if s.state.taskRunned = 0 then
        some (addEvent { s.state with flushing := s.state.flushing.eraseIdx j }
          (.flushReturned called))
      else some { s.state with flushing := s.state.flushing.set j ⟨called, false⟩ } := by
    unfold poolStep
    rw [if_neg (Bool.eq_false_iff.mp hterm)]
    simp only [hj]
  by_cases hz : s.state.taskRunned = 0
  · rw [if_pos hz] at hload
    refine ⟨_, hstep _ hload, ⟨rfl, rfl, rfl, rfl, rfl⟩, ?_⟩
    have hcount := Slots.countP_eraseIdx hj Flushing.counting
    exact Nat.lt_of_lt_of_eq (Nat.lt_succ_self _) hcount
  · rw [if_neg hz] at hload
    refine ⟨_, hstep _ hload, ⟨rfl, rfl, rfl, rfl, rfl⟩, ?_⟩
    have hcount := Slots.countP_set hj Flushing.counting ⟨called, false⟩
    exact Nat.lt_of_lt_of_eq (Nat.lt_succ_self _) hcount

/-- The calls of `flush` that hold the mutex let go of it. -/
theorem unlock_ends (hterm : s.state.terminated = false) (hw : (poolMonitor p).Watched s) :
    ∃ t, Path (poolMonitor p).machine (fun _ x => releases x = true) s t ∧
      Keeps s t ∧ (poolMonitor p).Watched t ∧ t.state.lockFree = true := by
  have hends := path_ends (M := (poolMonitor p).machine) (C := fun _ x => releases x = true)
    (fun q => Keeps s q ∧ (poolMonitor p).Watched q)
    (fun q => Keeps s q ∧ (poolMonitor p).Watched q ∧ q.state.lockFree = true)
    (fun q => q.state.flushing.countP Flushing.counting) ?_ (s := s)
    ⟨⟨rfl, rfl, rfl, rfl, rfl⟩, hw⟩
  · exact hends
  · rintro q ⟨hkeeps, hwatched⟩ hlocked
    have hheld : ∃ f ∈ q.state.flushing, f.counting = true := by
      by_contra hnone
      refine hlocked ⟨hkeeps, hwatched, List.all_eq_true.mpr fun f hf => ?_⟩
      cases hc : f.counting with
      | true => exact absurd ⟨f, hf, hc⟩ hnone
      | false => rfl
    rcases hheld with ⟨⟨called, counting⟩, hf, rfl⟩
    rcases List.mem_iff_getElem?.mp hf with ⟨j, hj⟩
    rcases flushLoad_goes (p := p) (hkeeps.terminated.trans hterm) hj with ⟨u, hs, hu, hlt⟩
    refine ⟨.act (.flushLoad j), u, rfl, hs, ⟨⟨?_, ?_, ?_, ?_, ?_⟩, ?_⟩, hlt⟩
    · rw [hu.threads, hkeeps.threads]
    · rw [hu.inQueue, hkeeps.inQueue]
    · rw [hu.posting, hkeeps.posting]
    · rw [hu.stopFlag, hkeeps.stopFlag]
    · rw [hu.terminated, hkeeps.terminated]
    · exact Monitor.step_watched (poolMonitor_heeds p) hs hwatched

/-- A step of the pool that the sleepers have no part in. -/
theorem act_goes {a : PoolStep} {u : ThreadsPool} (hu : poolStep p s.state a = some u)
    (hawake : ∀ i, (poolMonitor p).mover a = some i → i ∉ s.asleep) :
    ∃ t, (poolMonitor p).machine.step s (.act a) = some t := by
  have hall : ((poolMonitor p).mover a).all (fun i => !s.asleep.contains i) = true := by
    cases hm : (poolMonitor p).mover a with
    | none => rfl
    | some i =>
        rw [Option.all_some, Bool.not_eq_true', List.contains_eq_mem, decide_eq_false_iff_not]
        exact hawake i hm
  have hbase : (poolMonitor p).base.step s.state a = some u := hu
  refine ⟨⟨u, s.asleep, s.owed + ((poolMonitor p).signals s.state a).toNat⟩, ?_⟩
  show (poolMonitor p).step s (.act a) = _
  simp only [Monitor.step, hall, if_true, hbase, Option.map_some]

/-- While something is left to do, one more step is possible, once the mutex is free
    and whoever sleeps over it has been woken. -/
theorem works_of_left (hthreads : 0 < s.state.threads.length)
    (hterm : s.state.terminated = false) (hexit : ExitsWhenStopped s.state)
    (hw : (poolMonitor p).Watched s) (hleft : ¬ s.state.Done) :
    ∃ t x u, Path (poolMonitor p).machine (fun _ x => releases x = true) s t ∧
      (poolMonitor p).machine.step t x = some u ∧ ownAct x = true ∧ worksAct x = true := by
  rcases unlock_ends hterm hw with ⟨t, hpath, hkeeps, hwatched, hfree⟩
  have hterm' : t.state.terminated = false := hkeeps.terminated.trans hterm
  rcases goer_of_left (p := p) hthreads hexit hleft with hposting | ⟨i, pc, hi, hne, hready⟩
  -- A push under way needs nobody to be awake.
  · rw [← hkeeps.posting] at hposting
    have hpush : ∃ u, poolStep p t.state (.postPush 0) = some u := by
      cases hp : t.state.posting with
      | nil => exact absurd hp hposting
      | cons task rest =>
          refine ⟨(pushTask { t.state with posting := rest } task).addEvent (.posted task), ?_⟩
          unfold poolStep
          rw [if_neg (Bool.eq_false_iff.mp hterm')]
          simp only [hp, List.getElem?_cons_zero, hfree, if_true, List.eraseIdx_cons_zero]
    rcases hpush with ⟨u, hu⟩
    rcases act_goes (s := t) hu fun i hi => absurd hi (by
      simp only [poolMonitor, reduceCtorEq, not_false_eq_true]) with ⟨v, hv⟩
    exact ⟨t, _, v, hpath, hv, rfl, rfl⟩
  · rw [← hkeeps.threads] at hi
    rcases logic_goes (p := p) hterm' hfree hi hne fun h => (ready_of_keeps hkeeps).trans (hready h)
      with ⟨st, u, hown, hu⟩
    by_cases hasleep : i ∈ t.asleep
    -- The thread sleeps over what is there, so a notification is owed to it.
    · have hwaiting : pc = .waiting := by
        have hwaits := hwatched.waits i hasleep
        simp only [poolMonitor, hi, beq_iff_eq, Option.some.injEq] at hwaits
        exact hwaits
      have howed : 0 < t.owed := hwatched.owed (fun hnil => by
        rw [hnil] at hasleep
        exact absurd hasleep List.not_mem_nil) ((ready_of_keeps hkeeps).trans (hready hwaiting))
      let v : Sleeping ThreadsPool := { t with asleep := [], owed := t.owed - 1 }
      have hwake : (poolMonitor p).machine.step t .notifyAll = some v := if_pos howed
      rcases act_goes (s := v) hu fun _ _ => List.not_mem_nil with ⟨w, hw⟩
      exact ⟨v, _, w, .tail .notifyAll hpath rfl hwake, hw, hown, rfl⟩
    · rcases act_goes (s := t) hu fun j hj hmem => by
        simp only [poolMonitor, Option.some.injEq] at hj
        exact hasleep (hj ▸ hmem) with ⟨v, hv⟩
      exact ⟨t, _, v, hpath, hv, hown, rfl⟩

end Sleeping

/-- No wake-up is lost and nothing is left undone. In every run of a pool with its
    condition variable: where what the sleepers wait for is there, a notification to
    them is owed. Of the steps that get something done, as long as nobody posts and
    the tasks return, every further run has at most so many, whatever the order and
    whoever sleeps or wakes. And while something is left to do, one of these steps is
    possible, after steps that only let go of the mutex or make a notification that
    is owed. -/
theorem pool_never_hangs (p : PoolParams) (hcount : 0 < p.threadsCount.toNat)
    {s : Sleeping ThreadsPool} (h : (poolMonitor p).machine.Reach free s)
    (hterm : s.state.terminated = false) :
    (s.asleep ≠ [] → s.state.stopFlag = true ∨ s.state.inQueue ≠ [] → 0 < s.owed) ∧
    (∀ t n, Path ((poolMonitor p).machine.track 0 fun _ x _ n => n + (worksAct x).toNat)
      (fun _ x => ownAct x = true) (s, 0) (t, n) → n ≤ workLeft s.state) ∧
    (¬ s.state.Done → ∃ t x u, Path (poolMonitor p).machine (fun _ x => releases x = true) s t ∧
      (poolMonitor p).machine.step t x = some u ∧ ownAct x = true ∧ worksAct x = true) := by
  have hreach : (poolMachine p).Reach free s.state := Monitor.path_base h
  have hw := Monitor.no_sleep_over_work (poolMonitor_heeds p) h
  refine ⟨fun hasleep hready => hw.owed hasleep ?_, fun t n hpath => ?_, fun hleft => ?_⟩
  · simp only [poolMonitor, Bool.or_eq_true, Bool.not_eq_true', List.isEmpty_eq_false_iff]
    exact hready
  · have hbound := work_bounded (M := (poolMonitor p).machine) (C := fun _ x => ownAct x = true)
      (fun _ x => worksAct x) (fun q => workLeft q.state) (fun _ _ _ hown hs => act_uses hs hown)
      hpath
    exact Nat.le_trans (Nat.le_add_right _ _) hbound
  · have hsize := (counted_of_reach hreach).size
    exact works_of_left (hsize ▸ hcount) hterm (exitsWhenStopped_of_reach hreach) hw hleft

/-- Two threads sleep, and a task is pushed that nobody has been notified of. -/
def sleepingRun : List (Monitor.Act PoolStep) :=
  [.act (.logic 0 .loop), .act (.logic 1 .loop), .sleep 0, .sleep 1, .act (.postBegin 0),
    .act (.postPush 0)]

def overslept : Sleeping ThreadsPool := (poolMonitor twoThreads).machine.after sleepingRun

theorem pool_never_hangs_overslept :
    (overslept.asleep = [0, 1] ∧ overslept.state.inQueue = [0]) ∧ 0 < overslept.owed :=
  ⟨by decide, (pool_never_hangs twoThreads (by decide) (s := overslept)
    (reach_after sleepingRun) (by decide)).1 (by decide) (Or.inr (by decide))⟩

end Yaaf.Async
