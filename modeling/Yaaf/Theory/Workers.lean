import Yaaf.Core.ThreadsPool
import Yaaf.Library.Slots
import Yaaf.Library.Trace

/-!
# Conservation of Tasks

Where a task of the pool can be: once in the queue for every time it was
pushed there, with the worker thread that holds it, or finished. The account
is kept with multiplicities, `queued + held + finished = posted`, which needs
no assumption on what is posted. That each wrapper is posted at most once then
turns the account into "exactly one of three places".

The repeat path is where this could go wrong. Between the look at the queue
under the shared lock and the push, the task is in no queue, and after the
push another thread may start it before this one has left its loop. The
thread counts as holding the task until the push and not after it, so the push
moves the task from one column of the account to another in one step.

## Main definitions

* `PoolLogic.held`, `PoolLogic.picked`: What a worker thread holds, and whether
  it is between picking a task and its decrement.
* `PoolRule`: A step, by what it does.
* `ThreadsPool.queued`, `ThreadsPool.holders`, `ThreadsPool.ended`,
  `ThreadsPool.begun`, `ThreadsPool.posts`: The columns of the account.
* `InOnePlace`: Once in the queue, held by one thread, or finished.
* `postedOnce`: The guard that no wrapper is posted twice.

## Theorems

* `poolRule_of_step`: Every step is one of these.
* `conserves_of_reach`: The account balances.
* `task_in_one_place`: Every posted task is in one place.
-/

namespace Yaaf.Async

open Slots Trace Machine ThreadsPool

/-- The task a worker thread holds. -/
def PoolLogic.held : PoolLogic → Option TaskWrapper
  | .running t | .checking t | .requeueing t => some t
  | _ => none

/-- The thread is inside `task->apply` for the task. -/
def PoolLogic.runs (t : TaskWrapper) (pc : PoolLogic) : Bool :=
  pc == .running t

/-- Between picking a task and the decrement. -/
def PoolLogic.picked : PoolLogic → Bool
  | .running _ | .checking _ | .requeueing _ | .leaving => true
  | _ => false

def PoolLogic.holds (t : TaskWrapper) (pc : PoolLogic) : Bool :=
  pc.held == some t

/-- A return of the task with the result. -/
def PoolEvent.ends (t : TaskWrapper) (r : ContinuationStrategy) : PoolEvent → Bool
  | .runEnd _ u r' => u == t && r' == r
  | _ => false

def PoolEvent.begins (t : TaskWrapper) : PoolEvent → Bool
  | .runBegin _ u => u == t
  | _ => false

namespace ThreadsPool

/-- How often the task is in the queue. -/
def queued (s : ThreadsPool) (t : TaskWrapper) : Nat := s.inQueue.count t

/-- How many worker threads hold the task. -/
def holders (s : ThreadsPool) (t : TaskWrapper) : Nat := s.threads.countP (PoolLogic.holds t)

/-- How often the task was posted. -/
def posts (s : ThreadsPool) (t : TaskWrapper) : Nat := s.trace.count (.posted t)

/-- How often the task has returned with the result. -/
def ended (s : ThreadsPool) (t : TaskWrapper) (r : ContinuationStrategy) : Nat :=
  s.trace.countP (PoolEvent.ends t r)

/-- How often the task was run. -/
def begun (s : ThreadsPool) (t : TaskWrapper) : Nat := s.trace.countP (PoolEvent.begins t)

/-- Once in the queue, held by exactly one thread, or finished. -/
def InOnePlace (s : ThreadsPool) (t : TaskWrapper) : Prop :=
  (s.queued t = 1 ∧ s.holders t = 0 ∧ s.ended t .single = 0) ∨
    (s.queued t = 0 ∧ s.holders t = 1 ∧ s.ended t .single = 0) ∨
      (s.queued t = 0 ∧ s.holders t = 0 ∧ s.ended t .single = 1)

end ThreadsPool

/-- Each wrapper is posted at most once. -/
def postedOnce (s : ThreadsPool) : PoolStep → Prop
  | .postBegin t => t ∉ s.posting ∧ .posted t ∉ s.trace
  | _ => True

instance (s : ThreadsPool) (a : PoolStep) : Decidable (postedOnce s a) :=
  match a with
  | .postBegin _ => inferInstanceAs (Decidable (_ ∧ _))
  | .logic _ _ | .postPush _ | .stopBegin | .stopEnd | .flushBegin | .flushTest _ | .flushLoad _ =>
      .isTrue trivial

/-- A step, by what it does to the queue, the threads and the counter. -/
inductive PoolRule (p : PoolParams) (s : ThreadsPool) (a : PoolStep) : ThreadsPool → Prop
  /-- Only flags change. -/
  | flags (stop stoped term : Bool) (hstop : s.stopFlag = true → stop = true) :
      PoolRule p s a { s with stopFlag := stop, isStoped := stoped, terminated := term }
  /-- A thread goes on and neither takes nor gives up anything. -/
  | move (i : Nat) (pc pc' : PoolLogic) (hi : s.threads[i]? = some pc)
      (hheld : pc'.held = pc.held) (hpicked : pc'.picked = pc.picked)
      (hrun : ∀ t, pc.runs t = false ∧ pc'.runs t = false)
      (hexit : pc' = .exited → s.stopFlag = true) : PoolRule p s a (s.setThread i pc')
  /-- A thread picks a task. -/
  | take (i : Nat) (t : TaskWrapper) (hi : s.threads[i]? = some .waiting)
      (hfree : s.lockFree = true) (ht : t ∈ s.inQueue) :
      PoolRule p s a (beginApply p { s with taskRunned := s.taskRunned + 1,
                                            inQueue := s.inQueue.erase t } i t)
  /-- A task returns `SINGLE`. -/
  | single (i : Nat) (t : TaskWrapper) (hi : s.threads[i]? = some (.running t)) :
      PoolRule p s a ((finish (s.setThread i .leaving) t).addEvent
        (.runEnd ⟨p.kind, UInt64.ofNat i⟩ t .single))
  /-- A task returns `REPEAT`. -/
  | again (i : Nat) (t : TaskWrapper) (hi : s.threads[i]? = some (.running t)) :
      PoolRule p s a ((s.setThread i (.checking t)).addEvent
        (.runEnd ⟨p.kind, UInt64.ofNat i⟩ t .again))
  /-- The task is run again in place. -/
  | goesOn (i : Nat) (t : TaskWrapper) (hi : s.threads[i]? = some (.checking t)) :
      PoolRule p s a (beginApply p s i t)
  /-- The task is put back. -/
  | requeue (i : Nat) (t : TaskWrapper) (hi : s.threads[i]? = some (.requeueing t))
      (hfree : s.lockFree = true) : PoolRule p s a ((s.setThread i .leaving).pushTask t)
  | decrement (i : Nat) (hi : s.threads[i]? = some .leaving) :
      PoolRule p s a (s.setThread i .top).decrement
  | accept (t : TaskWrapper) (ha : a = .postBegin t) :
      PoolRule p s a { s with posting := s.posting ++ [t] }
  | push (j : Nat) (t : TaskWrapper) (hj : s.posting[j]? = some t) (hfree : s.lockFree = true) :
      PoolRule p s a
        ((pushTask { s with posting := s.posting.eraseIdx j } t).addEvent (.posted t))
  | call : PoolRule p s a
      (addEvent { s with flushing := s.flushing ++ [⟨s.trace.length, false⟩] } .flushCalled)
  /-- A call of `flush` finds no task in the queue that is not a worker. -/
  | look (j called : Nat) (hj : s.flushing[j]? = some ⟨called, false⟩)
      (hq : ∀ t ∈ s.inQueue, p.priority t = .worker) :
      PoolRule p s a { s with flushing := s.flushing.set j ⟨called, true⟩ }
  /-- A call of `flush` finds the counter at zero and returns. -/
  | done (j called : Nat) (hj : s.flushing[j]? = some ⟨called, true⟩) (hz : s.taskRunned = 0) :
      PoolRule p s a
        (addEvent { s with flushing := s.flushing.eraseIdx j } (.flushReturned called))
  /-- A call of `flush` finds running tasks and tries again. -/
  | retry (j called : Nat) (hj : s.flushing[j]? = some ⟨called, true⟩) :
      PoolRule p s a { s with flushing := s.flushing.set j ⟨called, false⟩ }

section Rules

variable {p : PoolParams} {s s' : ThreadsPool} {a : PoolStep}

/-- What the search finds is what it held or is in the queue. -/
theorem search_mem (priority : TaskWrapper → TaskPriority) {queue : List TaskWrapper}
    {task : Option TaskWrapper} {t : TaskWrapper} (h : search priority task queue = some t) :
    t ∈ queue ∨ task = some t := by
  induction queue generalizing task with
  | nil =>
      unfold search at h
      exact Or.inr h
  | cons v queue ih =>
      cases task with
      | none =>
          unfold search at h
          split at h
          · rw [Option.some.inj h]
            exact Or.inl List.mem_cons_self
          · rcases ih h with hmem | heq
            · exact Or.inl (List.mem_cons_of_mem _ hmem)
            · rw [Option.some.inj heq]
              exact Or.inl List.mem_cons_self
      | some task =>
          unfold search at h
          split at h
          · rw [Option.some.inj h]
            exact Or.inl List.mem_cons_self
          · rcases ih h with hmem | heq
            · exact Or.inl (List.mem_cons_of_mem _ hmem)
            · exact Or.inr heq

theorem mem_of_search {priority : TaskWrapper → TaskPriority} {queue : List TaskWrapper}
    {t : TaskWrapper} (h : search priority none queue = some t) : t ∈ queue :=
  (search_mem priority h).resolve_right (by simp only [reduceCtorEq, not_false_eq_true])

/-- The steps of a worker thread. -/
theorem poolRule_of_logic {i : Nat} {st : LogicStep} {pc : PoolLogic}
    (hi : s.threads[i]? = some pc) (hs : poolLogic p s i st pc = some s') :
    PoolRule p s a s' := by
  cases st with
  | loop =>
      cases pc <;> simp only [poolLogic, reduceCtorEq, Option.some.injEq] at hs
      rw [← hs]
      by_cases hstop : s.stopFlag = true
      · rw [if_pos hstop]
        exact .move i _ _ hi rfl rfl (fun _ => ⟨rfl, rfl⟩) fun _ => hstop
      · rw [if_neg hstop]
        exact .move i _ _ hi rfl rfl (fun _ => ⟨rfl, rfl⟩) fun h =>
          absurd h (by simp only [reduceCtorEq, not_false_eq_true])
  | pick =>
      cases pc <;> simp only [poolLogic, reduceCtorEq, Option.ite_none_right_eq_some] at hs
      rcases hs with ⟨⟨hfree, _⟩, hs⟩
      by_cases hstop : s.stopFlag = true
      · rw [if_pos hstop, Option.some.injEq] at hs
        rw [← hs]
        exact .move i _ _ hi rfl rfl (fun _ => ⟨rfl, rfl⟩) fun _ => hstop
      · rw [if_neg hstop, Option.map_eq_some_iff] at hs
        rcases hs with ⟨t, ht, rfl⟩
        exact .take i t hi hfree (mem_of_search ht)
  | applied result =>
      rcases result with _ | _ | _ <;> cases pc <;>
        simp only [poolLogic, reduceCtorEq, Option.some.injEq] at hs <;> rw [← hs]
      · exact .flags _ _ true id
      · exact .single i _ hi
      · exact .again i _ hi
  | check =>
      cases pc <;> simp only [poolLogic, reduceCtorEq, Option.ite_none_right_eq_some] at hs
      rcases hs with ⟨_, hs⟩
      split at hs <;> rw [Option.some.injEq] at hs <;> rw [← hs]
      · exact .move i _ _ hi rfl rfl (fun _ => ⟨rfl, rfl⟩) fun h =>
          absurd h (by simp only [reduceCtorEq, not_false_eq_true])
      · exact .goesOn i _ hi
  | requeue =>
      cases pc <;> simp only [poolLogic, reduceCtorEq, Option.ite_none_right_eq_some,
        Option.some.injEq] at hs
      rw [← hs.2]
      exact .requeue i _ hi hs.1
  | decrement =>
      cases pc <;> simp only [poolLogic, reduceCtorEq, Option.some.injEq] at hs
      rw [← hs]
      exact .decrement i hi

/-- Every step is one of these. -/
theorem poolRule_of_step (hs : poolStep p s a = some s') : PoolRule p s a s' := by
  unfold poolStep at hs
  rw [Option.ite_none_left_eq_some] at hs
  have hs := hs.2
  cases a with
  | logic i st =>
      cases hi : s.threads[i]? with
      | none => simp only [hi, reduceCtorEq] at hs
      | some pc =>
          simp only [hi] at hs
          exact poolRule_of_logic hi hs
  | postBegin t =>
      simp only at hs
      split at hs <;> rw [Option.some.injEq] at hs <;> rw [← hs]
      · exact .flags _ _ _ id
      · exact .accept t rfl
  | postPush j =>
      cases hj : s.posting[j]? with
      | none => simp only [hj, reduceCtorEq] at hs
      | some t =>
          simp only [hj, Option.ite_none_right_eq_some, Option.some.injEq] at hs
          rw [← hs.2]
          exact .push j t hj hs.1
  | stopBegin =>
      simp only [Option.ite_none_right_eq_some, Option.some.injEq] at hs
      rw [← hs.2]
      exact .flags true _ _ fun _ => rfl
  | stopEnd =>
      simp only [Option.ite_none_right_eq_some, Option.some.injEq] at hs
      rw [← hs.2]
      exact .flags _ true _ id
  | flushBegin =>
      simp only [Option.some.injEq] at hs
      rw [← hs]
      exact .call
  | flushTest j =>
      simp only at hs
      split at hs
      case h_1 called hj =>
          rw [Option.ite_none_right_eq_some] at hs
          rcases hs with ⟨_, hs⟩
          split at hs <;> rw [Option.some.injEq] at hs <;> rw [← hs]
          · exact .flags _ _ _ id
          · rename_i hq
            refine .look j called hj fun t ht => ?_
            have hall : s.isWorkersOnly p = true := by
              by_contra hno
              exact hq ⟨List.ne_nil_of_mem ht, Bool.eq_false_iff.mpr hno⟩
            exact beq_iff_eq.mp (List.all_eq_true.mp hall t ht)
      case h_2 => exact absurd hs (by simp only [reduceCtorEq, not_false_eq_true])
  | flushLoad j =>
      simp only at hs
      split at hs
      case h_1 called hj =>
          split at hs <;> rw [Option.some.injEq] at hs <;> rw [← hs]
          · rename_i hz
            exact .done j called hj hz
          · exact .retry j called hj
      case h_2 => exact absurd hs (by simp only [reduceCtorEq, not_false_eq_true])

end Rules

section Account

variable {p : PoolParams} {s s' : ThreadsPool} {a : PoolStep}
  {C : ThreadsPool → PoolStep → Prop}

/-- Where a thread goes moves the number of holders by the difference. -/
theorem holders_setThread {i : Nat} {pc : PoolLogic} (hi : s.threads[i]? = some pc)
    (pc' : PoolLogic) (t : TaskWrapper) :
    (s.setThread i pc').holders t + (pc.holds t).toNat = s.holders t + (pc'.holds t).toNat :=
  countP_set hi _ _

/-- One more event is counted or not. -/
theorem countP_addEvent (s : ThreadsPool) (q : PoolEvent → Bool) (ev : PoolEvent) :
    (s.addEvent ev).trace.countP q = s.trace.countP q + (q ev).toNat := by
  unfold addEvent
  rw [List.countP_append, List.countP_singleton]
  cases q ev <;> rfl

theorem countP_quiet (s : ThreadsPool) {q : PoolEvent → Bool} {ev : PoolEvent}
    (h : q ev = false) : (s.addEvent ev).trace.countP q = s.trace.countP q := by
  rw [countP_addEvent, h]
  rfl

theorem posts_quiet (s : ThreadsPool) {ev : PoolEvent} {t : TaskWrapper}
    (h : (ev == .posted t) = false) : (s.addEvent ev).posts t = s.posts t :=
  countP_quiet s h

theorem ended_quiet (s : ThreadsPool) {ev : PoolEvent} {t : TaskWrapper}
    {r : ContinuationStrategy} (h : ev.ends t r = false) :
    (s.addEvent ev).ended t r = s.ended t r :=
  countP_quiet s h

/-- A post is counted for its own task. -/
theorem posts_posted (s : ThreadsPool) (u t : TaskWrapper) :
    (s.addEvent (.posted u)).posts t = s.posts t + (u == t).toNat := by
  have hbeq : (PoolEvent.posted u == PoolEvent.posted t) = (u == t) := by
    rw [Bool.eq_iff_iff, beq_iff_eq, beq_iff_eq, PoolEvent.posted.injEq]
  rw [← hbeq]
  exact countP_addEvent s _ _

/-- A return is counted for its own task and result. -/
theorem ended_runEnd (s : ThreadsPool) (ti : ThreadInfo) (u t : TaskWrapper)
    (r : ContinuationStrategy) :
    (s.addEvent (.runEnd ti u r)).ended t r = s.ended t r + (u == t).toNat := by
  have hends : (PoolEvent.runEnd ti u r).ends t r = (u == t) := by
    change (u == t && r == r) = (u == t)
    rw [beq_self_eq_true, Bool.and_true]
  rw [← hends]
  exact countP_addEvent s _ _

theorem ended_runEnd_ne (s : ThreadsPool) (ti : ThreadInfo) (u t : TaskWrapper)
    {r r' : ContinuationStrategy} (hr : (r == r') = false) :
    (s.addEvent (.runEnd ti u r)).ended t r' = s.ended t r' := by
  refine ended_quiet s ?_
  change (u == t && r == r') = false
  rw [hr, Bool.and_false]

theorem queued_pushTask (t u : TaskWrapper) :
    (s.pushTask u).queued t = s.queued t + (u == t).toNat := by
  unfold queued pushTask
  rw [List.count_append, List.count_singleton]
  cases u == t <;> rfl

/-- Taking one occurrence out of the queue. -/
theorem count_erase_add {queue : List TaskWrapper} {u : TaskWrapper} (hu : u ∈ queue)
    (t : TaskWrapper) : (queue.erase u).count t + (u == t).toNat = queue.count t := by
  rw [List.count_erase]
  by_cases hut : u = t
  · have hpos : 0 < queue.count t := List.count_pos_iff.mpr (hut ▸ hu)
    rw [beq_iff_eq.mpr hut, if_pos rfl, Bool.toNat_true]
    omega
  · rw [beq_eq_false_iff_ne.mpr hut]
    rfl

@[simp]
theorem holds_held {pc : PoolLogic} {u : TaskWrapper} (h : pc.held = some u) (t : TaskWrapper) :
    pc.holds t = (u == t) := by
  unfold PoolLogic.holds
  rw [h]
  rfl

@[simp]
theorem holds_idle {pc : PoolLogic} (h : pc.held = none) (t : TaskWrapper) :
    pc.holds t = false := by
  unfold PoolLogic.holds
  rw [h]
  rfl

/-- A thread that keeps its task moves nothing. -/
theorem holders_kept {i : Nat} {pc pc' : PoolLogic} (hi : s.threads[i]? = some pc)
    (hheld : pc'.held = pc.held) (t : TaskWrapper) :
    (s.setThread i pc').holders t = s.holders t := by
  have hmove := holders_setThread hi pc' t
  unfold PoolLogic.holds at hmove
  rw [hheld] at hmove
  omega

/-- A thread that takes a task holds it from then on. -/
theorem holders_taken {i : Nat} {pc pc' : PoolLogic} {u : TaskWrapper}
    (hi : s.threads[i]? = some pc) (hpc : pc.held = none) (hpc' : pc'.held = some u)
    (t : TaskWrapper) : (s.setThread i pc').holders t = s.holders t + (u == t).toNat := by
  have hmove := holders_setThread hi pc' t
  rw [holds_idle hpc, holds_held hpc', Bool.toNat_false] at hmove
  exact hmove

/-- A thread that gives a task up does not hold it any more. -/
theorem holders_given {i : Nat} {pc pc' : PoolLogic} {u : TaskWrapper}
    (hi : s.threads[i]? = some pc) (hpc : pc.held = some u) (hpc' : pc'.held = none)
    (t : TaskWrapper) : (s.setThread i pc').holders t + (u == t).toNat = s.holders t := by
  have hmove := holders_setThread hi pc' t
  rw [holds_held hpc, holds_idle hpc', Bool.toNat_false] at hmove
  exact hmove

/-- The account of one task. -/
def Conserves (s : ThreadsPool) : Prop :=
  ∀ t, s.queued t + s.holders t + s.ended t .single = s.posts t

theorem conserves_step (hr : PoolRule p s a s') (h : Conserves s) : Conserves s' := by
  intro t
  have ht := h t
  -- An event that is neither a post nor the end of the task is in no account.
  have hquiet : ∀ ev : PoolEvent, (ev == .posted t) = false → ev.ends t .single = false →
      s.queued t + s.holders t + (s.addEvent ev).ended t .single = (s.addEvent ev).posts t := by
    intro ev hpost hend
    rw [ended_quiet s hend, posts_quiet s hpost]
    exact ht
  cases hr with
  | flags => exact ht
  | move i pc pc' hi hheld hpicked hrun hexit =>
      have hkept := holders_kept hi hheld t
      change s.queued t + (s.setThread i pc').holders t + s.ended t .single = s.posts t
      omega
  | take i u hi hfree hu =>
      -- From the queue to the thread.
      have htaken : (s.setThread i (.running u)).holders t = s.holders t + (u == t).toNat :=
        holders_taken hi rfl rfl t
      have herase := count_erase_add hu t
      have hq : s.queued t = s.inQueue.count t := rfl
      change (s.inQueue.erase u).count t + (s.setThread i (.running u)).holders t +
        (s.addEvent (.runBegin _ u)).ended t .single = (s.addEvent (.runBegin _ u)).posts t
      rw [ended_quiet s rfl, posts_quiet s rfl]
      omega
  | single i u hi =>
      -- From the thread to the finished ones.
      have hgiven : (s.setThread i .leaving).holders t + (u == t).toNat = s.holders t :=
        holders_given hi rfl rfl t
      change s.queued t + (s.setThread i .leaving).holders t +
        (s.addEvent (.runEnd _ u .single)).ended t .single =
          (s.addEvent (.runEnd _ u .single)).posts t
      rw [posts_quiet s rfl, ended_runEnd]
      omega
  | again i u hi =>
      have hkept := @holders_kept s i _ (.checking u) hi rfl t
      change s.queued t + (s.setThread i (.checking u)).holders t +
        (s.addEvent (.runEnd _ u .again)).ended t .single =
          (s.addEvent (.runEnd _ u .again)).posts t
      rw [posts_quiet s rfl, ended_runEnd_ne s _ u t rfl]
      omega
  | goesOn i u hi =>
      have hkept := @holders_kept s i _ (.running u) hi rfl t
      change s.queued t + (s.setThread i (.running u)).holders t +
        (s.addEvent (.runBegin _ u)).ended t .single = (s.addEvent (.runBegin _ u)).posts t
      rw [ended_quiet s rfl, posts_quiet s rfl]
      omega
  | requeue i u hi hfree =>
      -- From the thread back to the queue.
      have hgiven : (s.setThread i .leaving).holders t + (u == t).toNat = s.holders t :=
        holders_given hi rfl rfl t
      have hpush := queued_pushTask (s := s) t u
      change (s.pushTask u).queued t + (s.setThread i .leaving).holders t + s.ended t .single =
        s.posts t
      omega
  | decrement i hi =>
      have hkept := @holders_kept s i _ .top hi rfl t
      change s.queued t + (s.setThread i .top).holders t + s.ended t .single = s.posts t
      omega
  | accept u ha => exact ht
  | push j u hj hfree =>
      have hpush := queued_pushTask (s := s) t u
      change (s.pushTask u).queued t + s.holders t + (s.addEvent (.posted u)).ended t .single =
        (s.addEvent (.posted u)).posts t
      rw [ended_quiet s rfl, posts_posted]
      omega
  | call => exact hquiet .flushCalled rfl rfl
  | look => exact ht
  | done j called hj hz => exact hquiet (.flushReturned called) rfl rfl
  | retry => exact ht

/-- No thread of a new pool has got anywhere. -/
theorem threadsPool_threads (p : PoolParams) {q : PoolLogic → Bool} (hq : q .top = false) :
    (threadsPool p).threads.countP q = 0 :=
  List.countP_eq_zero.mpr fun pc hpc => by
    rw [List.eq_of_mem_replicate hpc, hq]
    exact Bool.false_ne_true

/-- The account balances in every state reached. -/
theorem conserves_of_reach (h : (poolMachine p).Reach C s) : Conserves s := by
  refine invariant Conserves (fun t => ?_) (fun u a u' _ hstep hu =>
    conserves_step (poolRule_of_step hstep) hu) h
  have hnone : (threadsPool p).holders t = 0 := threadsPool_threads p (holds_idle rfl t)
  change 0 + (threadsPool p).holders t + 0 = 0
  omega

/-- How many threads are inside `task->apply` for the task. -/
def runners (s : ThreadsPool) (t : TaskWrapper) : Nat := s.threads.countP (PoolLogic.runs t)

theorem runners_setThread {i : Nat} {pc : PoolLogic} (hi : s.threads[i]? = some pc)
    (pc' : PoolLogic) (t : TaskWrapper) :
    runners (s.setThread i pc') t + (pc.runs t).toNat = runners s t + (pc'.runs t).toNat :=
  countP_set hi _ _

theorem runs_running (u t : TaskWrapper) : (PoolLogic.running u).runs t = (u == t) := by
  rw [Bool.eq_iff_iff]
  unfold PoolLogic.runs
  rw [beq_iff_eq, beq_iff_eq, PoolLogic.running.injEq]

/-- A thread that runs nothing before or after moves nothing. -/
theorem runners_kept {i : Nat} {pc pc' : PoolLogic} (hi : s.threads[i]? = some pc)
    {t : TaskWrapper} (hpc : pc.runs t = false) (hpc' : pc'.runs t = false) :
    runners (s.setThread i pc') t = runners s t := by
  have hmove := runners_setThread hi pc' t
  rw [hpc, hpc'] at hmove
  exact hmove

/-- A run is over: one thread fewer is inside `apply`. -/
theorem runners_left {i : Nat} {u : TaskWrapper} {pc' : PoolLogic}
    (hi : s.threads[i]? = some (.running u)) {t : TaskWrapper} (hpc' : pc'.runs t = false) :
    runners (s.setThread i pc') t + (u == t).toNat = runners s t := by
  have hmove := runners_setThread hi pc' t
  rw [runs_running, hpc'] at hmove
  exact hmove

/-- A thread that runs a task holds it. -/
theorem runners_le_holders (s : ThreadsPool) (t : TaskWrapper) : runners s t ≤ s.holders t := by
  refine List.countP_mono_left fun pc _ hpc => ?_
  rw [beq_iff_eq.mp hpc, holds_held rfl]
  exact beq_self_eq_true t

theorem begun_quiet (s : ThreadsPool) {ev : PoolEvent} {t : TaskWrapper}
    (h : ev.begins t = false) : (s.addEvent ev).begun t = s.begun t :=
  countP_quiet s h

/-- Every run of a task has returned, with one result or the other, or is
    going on. -/
def Ledger (s : ThreadsPool) : Prop :=
  ∀ t, s.begun t = s.ended t .again + s.ended t .single + runners s t

theorem ledger_step (hr : PoolRule p s a s') (h : Ledger s) : Ledger s' := by
  intro t
  have ht := h t
  -- A run begins: one more begin and one more thread inside `apply`.
  have hbegin : ∀ {u : ThreadsPool} {i : Nat} {pc : PoolLogic} (v : TaskWrapper),
      u.threads = s.threads → u.trace = s.trace → s.threads[i]? = some pc →
      pc.runs t = false → (beginApply p u i v).begun t =
        (beginApply p u i v).ended t .again + (beginApply p u i v).ended t .single +
          runners (beginApply p u i v) t := by
    intro u i pc v hthreads htrace hi hpc
    have hmove := runners_setThread hi (.running v) t
    have hcount : (s.addEvent (.runBegin ⟨p.kind, UInt64.ofNat i⟩ v)).begun t =
        s.begun t + (v == t).toNat := countP_addEvent s _ _
    have hb : (beginApply p u i v).begun t =
        (s.addEvent (.runBegin ⟨p.kind, UInt64.ofNat i⟩ v)).begun t := by
      unfold beginApply ThreadsPool.begun setThread addEvent
      rw [htrace]
    have he : ∀ r, (beginApply p u i v).ended t r = s.ended t r := by
      intro r
      rw [← ended_quiet s (show (PoolEvent.runBegin ⟨p.kind, UInt64.ofNat i⟩ v).ends t r =
        false from rfl)]
      unfold beginApply ThreadsPool.ended setThread addEvent
      rw [htrace]
    have hn : runners (beginApply p u i v) t = runners (s.setThread i (.running v)) t := by
      unfold beginApply runners setThread addEvent
      rw [hthreads]
    rw [runs_running, hpc, Bool.toNat_false] at hmove
    rw [hb, he, he, hn, hcount]
    omega
  have hquiet : ∀ ev : PoolEvent, ev.begins t = false → (∀ r, ev.ends t r = false) →
      (s.addEvent ev).begun t = (s.addEvent ev).ended t .again +
        (s.addEvent ev).ended t .single + runners s t := by
    intro ev hb he
    rw [begun_quiet s hb, ended_quiet s (he _), ended_quiet s (he _)]
    exact ht
  cases hr with
  | flags => exact ht
  | move i pc pc' hi hheld hpicked hrun hexit =>
      change s.begun t = s.ended t .again + s.ended t .single + runners (s.setThread i pc') t
      rw [runners_kept hi (hrun t).1 (hrun t).2]
      exact ht
  | take i u hi hfree hu => exact hbegin u rfl rfl hi rfl
  | goesOn i u hi => exact hbegin u rfl rfl hi rfl
  | single i u hi =>
      have hleft := @runners_left s i u .leaving hi t rfl
      change (s.addEvent (.runEnd _ u .single)).begun t =
        (s.addEvent (.runEnd _ u .single)).ended t .again +
          (s.addEvent (.runEnd _ u .single)).ended t .single + runners (s.setThread i .leaving) t
      rw [begun_quiet s rfl, ended_runEnd, ended_runEnd_ne s _ u t rfl]
      omega
  | again i u hi =>
      have hleft := @runners_left s i u (.checking u) hi t rfl
      change (s.addEvent (.runEnd _ u .again)).begun t =
        (s.addEvent (.runEnd _ u .again)).ended t .again +
          (s.addEvent (.runEnd _ u .again)).ended t .single +
            runners (s.setThread i (.checking u)) t
      rw [begun_quiet s rfl, ended_runEnd, ended_runEnd_ne s _ u t rfl]
      omega
  | requeue i u hi hfree =>
      change s.begun t = s.ended t .again + s.ended t .single + runners (s.setThread i .leaving) t
      rw [runners_kept hi rfl rfl]
      exact ht
  | decrement i hi =>
      change s.begun t = s.ended t .again + s.ended t .single + runners (s.setThread i .top) t
      rw [runners_kept hi rfl rfl]
      exact ht
  | accept u ha => exact ht
  | push j u hj hfree => exact hquiet (.posted u) rfl fun _ => rfl
  | call => exact hquiet .flushCalled rfl fun _ => rfl
  | look => exact ht
  | done j called hj hz => exact hquiet (.flushReturned called) rfl fun _ => rfl
  | retry => exact ht

theorem ledger_of_reach (h : (poolMachine p).Reach C s) : Ledger s := by
  refine invariant Ledger (fun t => ?_) (fun u a u' _ hstep hu =>
    ledger_step (poolRule_of_step hstep) hu) h
  have hnone : runners (threadsPool p) t = 0 := threadsPool_threads p rfl
  change 0 = 0 + 0 + runners (threadsPool p) t
  omega

/-- A thread leaves its loop only when the pool is stopping. -/
def ExitsWhenStopped (s : ThreadsPool) : Prop :=
  .exited ∈ s.threads → s.stopFlag = true

theorem exitsWhenStopped_step (hr : PoolRule p s a s') (h : ExitsWhenStopped s) :
    ExitsWhenStopped s' := by
  intro hexited
  have hset : ∀ {i : Nat} {pc' : PoolLogic}, pc' ≠ .exited →
      .exited ∈ s.threads.set i pc' → s.stopFlag = true := by
    intro i pc' hne hmem
    rcases List.mem_or_eq_of_mem_set hmem with hold | hnew
    · exact h hold
    · exact absurd hnew.symm hne
  cases hr with
  | flags stop stoped term hstop => exact hstop (h hexited)
  | move i pc pc' hi hheld hpicked hrun hexit =>
      rcases List.mem_or_eq_of_mem_set hexited with hold | hnew
      · exact h hold
      · exact hexit hnew.symm
  | take => exact hset (by simp only [ne_eq, reduceCtorEq, not_false_eq_true]) hexited
  | single => exact hset (by simp only [ne_eq, reduceCtorEq, not_false_eq_true]) hexited
  | again => exact hset (by simp only [ne_eq, reduceCtorEq, not_false_eq_true]) hexited
  | goesOn => exact hset (by simp only [ne_eq, reduceCtorEq, not_false_eq_true]) hexited
  | requeue => exact hset (by simp only [ne_eq, reduceCtorEq, not_false_eq_true]) hexited
  | decrement => exact hset (by simp only [ne_eq, reduceCtorEq, not_false_eq_true]) hexited
  | _ => exact h hexited

theorem exitsWhenStopped_of_reach (h : (poolMachine p).Reach C s) : ExitsWhenStopped s := by
  refine invariant ExitsWhenStopped (fun hexited => ?_) (fun u a u' _ hstep hu =>
    exitsWhenStopped_step (poolRule_of_step hstep) hu) h
  exact absurd (List.eq_of_mem_replicate hexited)
    (by simp only [reduceCtorEq, not_false_eq_true])

end Account

section Once

variable {p : PoolParams} {s s' : ThreadsPool} {a : PoolStep}

/-- A wrapper was posted or is being posted, and at most once. -/
def PostedAtMostOnce (s : ThreadsPool) : Prop :=
  ∀ t, s.posts t + s.posting.count t ≤ 1

theorem postedAtMostOnce_step (hc : postedOnce s a) (hr : PoolRule p s a s')
    (h : PostedAtMostOnce s) : PostedAtMostOnce s' := by
  intro t
  have ht := h t
  have hquiet : ∀ ev : PoolEvent, (ev == .posted t) = false →
      (s.addEvent ev).posts t + s.posting.count t ≤ 1 := by
    intro ev hpost
    rw [posts_quiet s hpost]
    exact ht
  cases hr with
  | accept u ha =>
      subst ha
      change s.posts t + (s.posting ++ [u]).count t ≤ 1
      rw [List.count_append, List.count_singleton]
      by_cases hut : u = t
      · have hnew : s.posting.count t = 0 := List.count_eq_zero.mpr (hut ▸ hc.1)
        have hold : s.posts t = 0 := List.count_eq_zero.mpr (hut ▸ hc.2)
        split <;> omega
      · rw [if_neg (by rw [beq_iff_eq]; exact hut)]
        exact ht
  | push j u hj hfree =>
      have herase : (s.posting.eraseIdx j).count t + (u == t).toNat = s.posting.count t :=
        countP_eraseIdx hj _
      change (s.addEvent (.posted u)).posts t + (s.posting.eraseIdx j).count t ≤ 1
      rw [posts_posted]
      omega
  | take i u hi hfree hu => exact hquiet (.runBegin _ u) rfl
  | single i u hi => exact hquiet (.runEnd _ u .single) rfl
  | again i u hi => exact hquiet (.runEnd _ u .again) rfl
  | goesOn i u hi => exact hquiet (.runBegin _ u) rfl
  | call => exact hquiet .flushCalled rfl
  | done j called hj hz => exact hquiet (.flushReturned called) rfl
  | _ => exact ht

theorem postedAtMostOnce_of_reach (h : (poolMachine p).Reach postedOnce s) :
    PostedAtMostOnce s := by
  refine invariant PostedAtMostOnce (fun t => ?_) (fun u a u' hc hstep hu =>
    postedAtMostOnce_step hc (poolRule_of_step hstep) hu) h
  change 0 + 0 ≤ 1
  exact Nat.zero_le 1

/-- A task that begins to run was in the queue or held. -/
def BeginsFrom (s : ThreadsPool) (ev : PoolEvent) : Prop :=
  ∀ ti t, ev = .runBegin ti t → 0 < s.queued t + s.holders t

theorem holders_pos {i : Nat} {pc : PoolLogic} {t : TaskWrapper} (hi : s.threads[i]? = some pc)
    (hpc : pc.held = some t) : 0 < s.holders t := by
  refine List.countP_pos_iff.mpr ⟨pc, List.mem_of_getElem? hi, ?_⟩
  rw [holds_held hpc]
  exact beq_self_eq_true t

/-- A step records at most one event. -/
theorem trace_of_rule (hr : PoolRule p s a s') :
    s'.trace = s.trace ∨ ∃ ev, BeginsFrom s ev ∧ s'.trace = s.trace ++ [ev] := by
  have hquiet : ∀ {ev : PoolEvent}, (∀ ti t, ev ≠ .runBegin ti t) → BeginsFrom s ev :=
    fun hne ti t heq => absurd heq (hne ti t)
  cases hr with
  | take i u hi hfree hu =>
      refine Or.inr ⟨_, fun ti t heq => ?_, rfl⟩
      rw [← (PoolEvent.runBegin.inj heq).2]
      have hpos : 0 < s.queued u := List.count_pos_iff.mpr hu
      omega
  | goesOn i u hi =>
      refine Or.inr ⟨_, fun ti t heq => ?_, rfl⟩
      rw [← (PoolEvent.runBegin.inj heq).2]
      have hpos := holders_pos hi rfl
      omega
  | single | again | push | call | done =>
      exact Or.inr ⟨_, hquiet fun _ _ => by simp only [ne_eq, reduceCtorEq, not_false_eq_true],
        rfl⟩
  | _ => exact Or.inl rfl

/-- The record shows no run of a task after it was done. -/
def DoneForGood (s : ThreadsPool) : Prop :=
  ∀ t ti pre post, s.trace = pre ++ .runEnd ti t .single :: post → ∀ ti', .runBegin ti' t ∉ post

theorem ended_pos {t : TaskWrapper} {ti : ThreadInfo} {r : ContinuationStrategy}
    (h : .runEnd ti t r ∈ s.trace) : 0 < s.ended t r := by
  refine List.countP_pos_iff.mpr ⟨_, h, ?_⟩
  simp only [PoolEvent.ends, beq_self_eq_true, Bool.and_true]

theorem doneForGood_step (hr : PoolRule p s a s') (hcons : Conserves s)
    (honce : PostedAtMostOnce s) (h : DoneForGood s) : DoneForGood s' := by
  intro t ti pre post htrace ti' hmem
  rcases trace_of_rule hr with hsame | ⟨ev, hfrom, hgrow⟩
  · rw [hsame] at htrace
    exact h t ti pre post htrace ti' hmem
  · rw [hgrow] at htrace
    rcases split_of_append htrace with ⟨post', hold, hpost⟩ | ⟨pre', _, hev⟩
    · rw [hpost] at hmem
      rcases List.mem_append.mp hmem with hin | hin
      · exact h t ti pre post' hold ti' hin
      · -- A new begin would need the task in a second place.
        have hplace := hfrom ti' t (List.mem_singleton.mp hin).symm
        have hend : 0 < s.ended t .single := @ended_pos s t ti _ (by
          rw [hold]
          exact List.mem_append_right _ List.mem_cons_self)
        have hbalance := hcons t
        have hbound := honce t
        omega
    · -- The end is the new event, and nothing follows it yet.
      have hlen := congrArg List.length hev
      rw [List.length_singleton, List.length_append, List.length_cons] at hlen
      have hnil : post = [] := List.eq_nil_of_length_eq_zero (by omega)
      rw [hnil] at hmem
      exact absurd hmem List.not_mem_nil

theorem doneForGood_of_reach (h : (poolMachine p).Reach postedOnce s) : DoneForGood s := by
  refine invariant_of (fun u => Conserves u ∧ PostedAtMostOnce u) DoneForGood
    (fun u hu => ⟨conserves_of_reach hu, postedAtMostOnce_of_reach hu⟩) ?_
    (fun u a u' _ hstep hu _ hdone =>
      doneForGood_step (poolRule_of_step hstep) hu.1 hu.2 hdone) h
  intro t ti pre post htrace
  exact absurd htrace.symm (by
    simp only [poolMachine, threadsPool, List.append_eq_nil_iff, reduceCtorEq, and_false,
      not_false_eq_true])

/-- Only posted tasks are run. -/
def RunsPosted (s : ThreadsPool) : Prop :=
  ∀ ti t, .runBegin ti t ∈ s.trace → 0 < s.posts t

theorem runsPosted_step (hr : PoolRule p s a s') (hcons : Conserves s) (h : RunsPosted s) :
    RunsPosted s' := by
  intro ti t hmem
  rcases trace_of_rule hr with hsame | ⟨ev, hfrom, hgrow⟩
  · rw [hsame] at hmem
    unfold ThreadsPool.posts
    rw [hsame]
    exact h ti t hmem
  · have hmono : s.posts t ≤ s'.posts t := by
      unfold ThreadsPool.posts
      rw [hgrow, List.count_append]
      exact Nat.le_add_right _ _
    rw [hgrow] at hmem
    rcases List.mem_append.mp hmem with hin | hin
    · have hold := h ti t hin
      omega
    · have hplace := hfrom ti t (List.mem_singleton.mp hin).symm
      have hbalance := hcons t
      omega

theorem runsPosted_of_reach {C : ThreadsPool → PoolStep → Prop}
    (h : (poolMachine p).Reach C s) : RunsPosted s :=
  invariant_of Conserves RunsPosted (fun _ hu => conserves_of_reach hu)
    (fun _ _ hmem => absurd hmem List.not_mem_nil)
    (fun _ _ _ _ hstep hu _ hruns => runsPosted_step (poolRule_of_step hstep) hu hruns) h

/-- A task that returned was posted. -/
theorem posts_pos_of_end {t : TaskWrapper} {ti : ThreadInfo} {r : ContinuationStrategy}
    (hledger : Ledger s) (hruns : RunsPosted s) (h : .runEnd ti t r ∈ s.trace) :
    0 < s.posts t := by
  have hend := ended_pos h
  have hbalance := hledger t
  have hbegun : 0 < s.begun t := by
    cases r <;> omega
  rcases List.countP_pos_iff.mp hbegun with ⟨ev, hmem, hev⟩
  cases ev with
  | runBegin ti' u =>
      have heq : u = t := beq_iff_eq.mp hev
      rw [heq] at hmem
      exact hruns ti' t hmem
  | _ => exact absurd hev Bool.false_ne_true

/-- The runner of a task is one thread. -/
theorem runner_unique (hcons : Conserves s) (honce : PostedAtMostOnce s) {t : TaskWrapper}
    {i j : Nat} (hi : s.threads[i]? = some (.running t))
    (hj : s.threads[j]? = some (.running t)) : i = j := by
  by_contra hne
  have hbalance := hcons t
  have hbound := honce t
  have hmove : (s.setThread i .leaving).holders t + (t == t).toNat = s.holders t :=
    holders_given hi rfl rfl t
  have hother : (s.setThread i .leaving).threads[j]? = some (.running t) := by
    change (s.threads.set i .leaving)[j]? = _
    rw [List.getElem?_set_ne hne]
    exact hj
  have hpos := holders_pos hother rfl
  rw [beq_self_eq_true, Bool.toNat_true] at hmove
  omega

/-- Conservation: while each wrapper is posted at most once, every posted task
    is in exactly one place, once in the queue, held by one worker thread, or
    finished. No wrapper is run by two threads at once, every run but one of a
    task has returned `REPEAT` and none follows a return of `SINGLE`, and a
    task that returned `REPEAT` and is not finished is in the queue or held,
    by a pool whose threads all still run unless it is stopping. -/
theorem task_in_one_place (p : PoolParams) {s : ThreadsPool}
    (h : (poolMachine p).Reach postedOnce s) :
    (∀ t, .posted t ∈ s.trace → s.InOnePlace t) ∧
      (∀ (t : TaskWrapper) (i j : Nat), s.threads[i]? = some (.running t) →
        s.threads[j]? = some (.running t) → i = j) ∧
      (∀ t, s.begun t ≤ s.ended t .again + 1) ∧
      (∀ t ti pre post, s.trace = pre ++ .runEnd ti t .single :: post →
        ∀ ti', .runBegin ti' t ∉ post) ∧
      (∀ t ti, .runEnd ti t .again ∈ s.trace → s.ended t .single = 0 →
        (t ∈ s.inQueue ∨ ∃ pc ∈ s.threads, pc.held = some t) ∧
          (s.stopFlag = false → .exited ∉ s.threads)) := by
  have hcons := conserves_of_reach h
  have honce := postedAtMostOnce_of_reach h
  have hledger := ledger_of_reach h
  refine ⟨fun t hposted => ?_, fun t i j hi hj => runner_unique hcons honce hi hj, fun t => ?_,
    doneForGood_of_reach h, fun t ti hagain hopen => ⟨?_, fun hstop hexited => ?_⟩⟩
  · have hone : 0 < s.posts t := List.count_pos_iff.mpr hposted
    have hbalance := hcons t
    have hbound := honce t
    unfold InOnePlace
    omega
  · have hruns := hledger t
    have hle := runners_le_holders s t
    have hbalance := hcons t
    have hbound := honce t
    omega
  · have hone := posts_pos_of_end hledger (runsPosted_of_reach h) hagain
    have hbalance := hcons t
    by_cases hqueue : t ∈ s.inQueue
    · exact Or.inl hqueue
    · have hnone : s.queued t = 0 := List.count_eq_zero.mpr hqueue
      have hhold : 0 < s.holders t := by omega
      rcases List.countP_pos_iff.mp hhold with ⟨pc, hmem, hpc⟩
      exact Or.inr ⟨pc, hmem, beq_iff_eq.mp hpc⟩
  · exact absurd (exitsWhenStopped_of_reach h hexited) (by rw [hstop]; exact Bool.false_ne_true)

/-- Two worker threads and no worker tasks. -/
def twoThreads : PoolParams where
  threadsCount := 2
  kind := 1
  priority := fun _ => .default

/-- Task 0 returns `REPEAT` while task 1 is queued, thread 0 puts it back, and
    thread 1, done with task 1, starts it before thread 0 is at the top again. -/
def handedOver : ThreadsPool :=
  (poolMachine twoThreads).after
    [.postBegin 0, .postPush 0, .logic 0 .loop, .logic 0 .pick, .postBegin 1, .postPush 0,
      .logic 0 (.applied (some .again)), .logic 0 .check, .logic 1 .loop, .logic 1 .pick,
      .logic 1 (.applied (some .single)), .logic 1 .decrement, .logic 1 .loop,
      .logic 0 .requeue, .logic 1 .pick]

theorem task_in_one_place_handed :
    handedOver.threads = [.leaving, .running 0] ∧
      ∀ t, .posted t ∈ handedOver.trace → handedOver.InOnePlace t :=
  ⟨by decide, (task_in_one_place twoThreads (reach_meets _ (by decide))).1⟩

end Once

end Yaaf.Async
