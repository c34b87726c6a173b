import Yaaf.Theory.Workers

/-!
# Flush Is a Barrier

`flush` returns when it has seen, under the lock, a queue with nothing but
worker tasks, and then the counter at zero. Tasks move between the queue and
the threads all the time, in both directions, and the load of the counter is
not protected from the decrements. It still is a barrier, for two reasons: a
task leaves the queue and is counted under the lock, in one step, and it is
put back before the thread that held it stops counting. So a zero counter
under the lock means that no thread holds anything.

The account of the tasks does the rest. A task that is neither queued nor held
has returned `SINGLE` as often as it was posted.

## Main definitions

* `Counted`: The counter counts the threads that have picked a task.
* `SeenWorkersOnly`: What a call of `flush` saw stays true while it owns the lock.
* `CalledThere`: A call of `flush` is where its name says.
* `PastFlushes`: What every return of `flush` found done.

## Theorems

* `counted_of_reach`: The counter is exact and never wraps.
* `flush_is_barrier`: What was posted before a call of `flush` is finished when
  it returns.
-/

namespace Yaaf.Async

open Slots Trace Machine ThreadsPool

section Counter

variable {p : PoolParams} {s s' : ThreadsPool} {a : PoolStep}
  {C : ThreadsPool → PoolStep → Prop}

/-- How many threads are between picking a task and the decrement. -/
def pickers (s : ThreadsPool) : Nat := s.threads.countP PoolLogic.picked

theorem pickers_setThread {i : Nat} {pc : PoolLogic} (hi : s.threads[i]? = some pc)
    (pc' : PoolLogic) :
    pickers (s.setThread i pc') + pc.picked.toNat = pickers s + pc'.picked.toNat :=
  countP_set hi _ _

/-- The counter counts the threads that have picked a task. -/
structure Counted (p : PoolParams) (s : ThreadsPool) : Prop where
  exact : s.taskRunned.toNat = pickers s
  size : s.threads.length = p.threadsCount.toNat

theorem counted_step (hr : PoolRule p s a s') (h : Counted p s) : Counted p s' := by
  have hsize : ∀ i pc', (s.threads.set i pc').length = p.threadsCount.toNat := fun i pc' => by
    rw [List.length_set]
    exact h.size
  -- A thread that stays on its side of the counter leaves it alone.
  have hkeep : ∀ {i : Nat} {pc pc' : PoolLogic}, s.threads[i]? = some pc →
      pc'.picked = pc.picked → s.taskRunned.toNat = pickers (s.setThread i pc') := by
    intro i pc pc' hi hpicked
    have hmove := pickers_setThread hi pc'
    have hexact := h.exact
    rw [hpicked] at hmove
    omega
  cases hr with
  | move i pc pc' hi hheld hpicked hrun hexit => exact ⟨hkeep hi hpicked, hsize i _⟩
  | take i t hi hfree ht =>
      refine ⟨?_, hsize i _⟩
      have hmove := pickers_setThread hi (.running t)
      change pickers (s.setThread i (.running t)) + 0 = pickers s + 1 at hmove
      -- There are at most as many threads as the counter can count.
      have hle : pickers (s.setThread i (.running t)) ≤ p.threadsCount.toNat := by
        rw [← hsize i (.running t)]
        exact List.countP_le_length
      have hbound := p.threadsCount.toNat_lt
      change (s.taskRunned + 1).toNat = pickers (s.setThread i (.running t))
      rw [UInt64.toNat_add, h.exact, UInt64.toNat_one, Nat.mod_eq_of_lt (by omega)]
      omega
  | single i t hi => exact ⟨hkeep hi rfl, hsize i _⟩
  | again i t hi => exact ⟨hkeep hi rfl, hsize i _⟩
  | goesOn i t hi => exact ⟨hkeep hi rfl, hsize i _⟩
  | requeue i t hi hfree => exact ⟨hkeep hi rfl, hsize i _⟩
  | decrement i hi =>
      refine ⟨?_, hsize i _⟩
      have hmove := pickers_setThread hi .top
      change pickers (s.setThread i .top) + 1 = pickers s + 0 at hmove
      have hone : (1 : UInt64) ≤ s.taskRunned := by
        rw [UInt64.le_iff_toNat_le, h.exact, UInt64.toNat_one]
        omega
      change (s.taskRunned - 1).toNat = pickers (s.setThread i .top)
      rw [UInt64.toNat_sub_of_le _ _ hone, h.exact, UInt64.toNat_one]
      omega
  | _ => exact ⟨h.exact, h.size⟩

/-- The counter is exact in every state reached. -/
theorem counted_of_reach (h : (poolMachine p).Reach C s) : Counted p s := by
  refine invariant (Counted p) ⟨?_, List.length_replicate⟩ (fun u a u' _ hstep hu =>
    counted_step (poolRule_of_step hstep) hu) h
  have hnone : pickers (threadsPool p) = 0 := threadsPool_threads p rfl
  change 0 = pickers (threadsPool p)
  omega

/-- A thread that has not decremented yet is counted, so the decrement does
    not wrap. -/
theorem counter_pos (h : Counted p s) {i : Nat} (hi : s.threads[i]? = some .leaving) :
    0 < s.taskRunned.toNat := by
  rw [h.exact]
  exact List.countP_pos_iff.mpr ⟨_, List.mem_of_getElem? hi, rfl⟩

/-- At zero no thread holds a task. -/
theorem holders_zero (h : Counted p s) (hz : s.taskRunned = 0) (t : TaskWrapper) :
    s.holders t = 0 := by
  have hnone : pickers s = 0 := by
    rw [← h.exact, hz]
    rfl
  have hle : s.holders t ≤ pickers s := by
    refine List.countP_mono_left fun pc _ hpc => ?_
    have hheld := beq_iff_eq.mp hpc
    cases pc <;> first | rfl | exact absurd hheld (by
      simp only [PoolLogic.held, reduceCtorEq, not_false_eq_true])
  omega

end Counter

section Flush

variable {p : PoolParams} {s s' : ThreadsPool} {a : PoolStep}
  {C : ThreadsPool → PoolStep → Prop}

/-- What a call of `flush` saw stays true while it owns the lock. -/
def SeenWorkersOnly (p : PoolParams) (s : ThreadsPool) : Prop :=
  ∀ f ∈ s.flushing, f.counting = true → ∀ t ∈ s.inQueue, p.priority t = .worker

/-- Who owns the lock keeps it from everybody else. -/
theorem not_counting_of_free (hfree : s.lockFree = true) {f : Flushing} (hf : f ∈ s.flushing) :
    f.counting ≠ true := by
  have hno := List.all_eq_true.mp hfree f hf
  rw [Bool.not_eq_true'] at hno
  rw [hno]
  exact Bool.false_ne_true

theorem seenWorkersOnly_step (hr : PoolRule p s a s') (h : SeenWorkersOnly p s) :
    SeenWorkersOnly p s' := by
  intro f hf hcounting
  cases hr with
  | take i t hi hfree ht => exact absurd hcounting (not_counting_of_free hfree hf)
  | requeue i t hi hfree => exact absurd hcounting (not_counting_of_free hfree hf)
  | push j t hj hfree => exact absurd hcounting (not_counting_of_free hfree hf)
  | call =>
      rcases List.mem_append.mp hf with hold | hnew
      · exact h f hold hcounting
      · rw [List.mem_singleton.mp hnew] at hcounting
        exact absurd hcounting Bool.false_ne_true
  | look j called hj hq => exact hq
  | done j called hj hz => exact h f (List.mem_of_mem_eraseIdx hf) hcounting
  | retry j called hj =>
      rcases List.mem_or_eq_of_mem_set hf with hold | hnew
      · exact h f hold hcounting
      · rw [hnew] at hcounting
        exact absurd hcounting Bool.false_ne_true
  | _ => exact h f hf hcounting

theorem seenWorkersOnly_of_reach (h : (poolMachine p).Reach C s) : SeenWorkersOnly p s :=
  invariant (SeenWorkersOnly p) (fun _ hf => absurd hf List.not_mem_nil)
    (fun _ _ _ _ hstep hu => seenWorkersOnly_step (poolRule_of_step hstep) hu) h

/-- A call of `flush` is where its name says. -/
def CalledThere (s : ThreadsPool) : Prop :=
  ∀ f ∈ s.flushing, s.trace[f.called]? = some .flushCalled

theorem calledThere_step (hr : PoolRule p s a s') (h : CalledThere s) : CalledThere s' := by
  have hgrow : ∀ {n : Nat}, s.trace[n]? = some .flushCalled →
      s'.trace[n]? = some .flushCalled := by
    intro n hn
    rcases trace_of_rule hr with hsame | ⟨ev, _, hone⟩
    · rw [hsame]
      exact hn
    · rw [hone, List.getElem?_append_left (List.getElem?_eq_some_iff.mp hn).1]
      exact hn
  intro f hf
  cases hr with
  | call =>
      rcases List.mem_append.mp hf with hold | hnew
      · exact hgrow (h f hold)
      · rw [List.mem_singleton.mp hnew]
        exact List.getElem?_concat_length
  | look j called hj hq =>
      rcases List.mem_or_eq_of_mem_set hf with hold | hnew
      · exact hgrow (h f hold)
      · have hcall := h _ (List.mem_of_getElem? hj)
        rw [hnew]
        exact hgrow hcall
  | done j called hj hz => exact hgrow (h f (List.mem_of_mem_eraseIdx hf))
  | retry j called hj =>
      rcases List.mem_or_eq_of_mem_set hf with hold | hnew
      · exact hgrow (h f hold)
      · have hcall := h _ (List.mem_of_getElem? hj)
        rw [hnew]
        exact hgrow hcall
  | _ => exact hgrow (h f hf)

theorem calledThere_of_reach (h : (poolMachine p).Reach C s) : CalledThere s :=
  invariant CalledThere (fun _ hf => absurd hf List.not_mem_nil)
    (fun _ _ _ _ hstep hu => calledThere_step (poolRule_of_step hstep) hu) h

/-- A task that is neither queued nor held has returned `SINGLE` as often as it
    was posted. This is what a returning call of `flush` knows. -/
theorem ended_of_quiet (hcons : Conserves s) (hcount : Counted p s) (hseen : SeenWorkersOnly p s)
    {f : Flushing} (hf : f ∈ s.flushing) (hcounting : f.counting = true)
    (hz : s.taskRunned = 0) {t : TaskWrapper} (ht : p.priority t ≠ .worker) :
    s.ended t .single = s.posts t := by
  have hqueue : s.queued t = 0 :=
    List.count_eq_zero.mpr fun hmem => ht (hseen f hf hcounting t hmem)
  have hhold := holders_zero hcount hz t
  have hbalance := hcons t
  omega

/-- What every return of `flush` found: the call, and every post before it of a
    task that is not a worker matched by a return of `SINGLE`. -/
def PastFlushes (p : PoolParams) (s : ThreadsPool) : Prop :=
  ∀ pre called post, s.trace = pre ++ .flushReturned called :: post →
    pre[called]? = some .flushCalled ∧ ∀ t, p.priority t ≠ .worker →
      (pre.take called).count (.posted t) ≤ pre.countP (PoolEvent.ends t .single)

theorem pastFlushes_step (hr : PoolRule p s a s') (hcons : Conserves s) (hcount : Counted p s)
    (hseen : SeenWorkersOnly p s) (hthere : CalledThere s) (h : PastFlushes p s) :
    PastFlushes p s' := by
  intro pre called post htrace
  -- A return that is not the new event was seen before.
  have hold : ∀ ev, s'.trace = s.trace ++ [ev] → (∀ n, ev = .flushReturned n → n = called →
      pre = s.trace → pre[called]? = some .flushCalled ∧ ∀ t, p.priority t ≠ .worker →
        (pre.take called).count (.posted t) ≤ pre.countP (PoolEvent.ends t .single)) →
      pre[called]? = some .flushCalled ∧ ∀ t, p.priority t ≠ .worker →
        (pre.take called).count (.posted t) ≤ pre.countP (PoolEvent.ends t .single) := by
    intro ev hgrow hnew
    rw [hgrow] at htrace
    rcases split_of_append htrace with ⟨post', hpre, _⟩ | ⟨pre', hpre, hev⟩
    · exact h pre called post' hpre
    · have hnil : pre' = [] := by
        have hlen := congrArg List.length hev
        rw [List.length_singleton, List.length_append, List.length_cons] at hlen
        exact List.eq_nil_of_length_eq_zero (by omega)
      rw [hnil, List.nil_append, List.cons.injEq] at hev
      rw [hnil, List.append_nil] at hpre
      exact hnew called hev.1 rfl hpre
  cases hr with
  | done j called' hj hz =>
      refine hold _ rfl fun n heq hn hpre => ?_
      rw [PoolEvent.flushReturned.injEq] at heq
      have hmem := List.mem_of_getElem? hj
      rw [heq, hn] at hmem
      rw [hpre]
      refine ⟨hthere _ hmem, fun t ht => ?_⟩
      calc (s.trace.take called).count (.posted t)
          ≤ s.posts t := (List.take_sublist called s.trace).count_le _
        _ = s.ended t .single := (ended_of_quiet hcons hcount hseen hmem rfl hz ht).symm
  | take | single | again | goesOn | push | call =>
      exact hold _ rfl fun n heq => absurd heq (by simp only [reduceCtorEq, not_false_eq_true])
  | _ => exact h pre called post htrace

/-- `flush` is a barrier. The counter always is the number of worker threads
    between picking a task and their decrement, so no decrement wraps; and
    whenever a call of `flush` returns, every post completed before the call of
    a task that is not a worker is matched by a return of `SINGLE` of that
    task. -/
theorem flush_is_barrier (p : PoolParams) {s : ThreadsPool} (h : (poolMachine p).Reach free s) :
    (s.taskRunned.toNat = s.threads.countP PoolLogic.picked ∧
      ∀ i : Nat, s.threads[i]? = some .leaving → 0 < s.taskRunned.toNat) ∧
      ∀ pre called post, s.trace = pre ++ .flushReturned called :: post →
        pre[called]? = some .flushCalled ∧ ∀ t, p.priority t ≠ .worker →
          (pre.take called).count (.posted t) ≤ pre.countP (PoolEvent.ends t .single) := by
  have hcount := counted_of_reach h
  refine ⟨⟨hcount.exact, fun i hi => counter_pos hcount hi⟩, ?_⟩
  refine invariant_of (fun u => Conserves u ∧ Counted p u ∧ SeenWorkersOnly p u ∧ CalledThere u)
    (PastFlushes p) (fun u hu => ⟨conserves_of_reach hu, counted_of_reach hu,
      seenWorkersOnly_of_reach hu, calledThere_of_reach hu⟩) ?_ ?_ h
  · intro pre called post htrace
    exact absurd htrace.symm (by
      simp only [poolMachine, threadsPool, List.append_eq_nil_iff, reduceCtorEq, and_false,
        not_false_eq_true])
  · intro u a u' _ hstep hu _ hpast
    exact pastFlushes_step (poolRule_of_step hstep) hu.1 hu.2.1 hu.2.2.1 hu.2.2.2 hpast

/-- Task 0 is posted and a call of `flush` begins; the task returns `REPEAT`,
    is put back because task 1 was posted meanwhile, and both are done when the
    call returns. -/
def flushed : ThreadsPool :=
  (poolMachine twoThreads).after
    [.postBegin 0, .postPush 0, .flushBegin, .logic 0 .loop, .logic 0 .pick, .postBegin 1,
      .postPush 0, .logic 0 (.applied (some .again)), .logic 0 .check, .flushTest 0,
      .logic 0 .requeue, .logic 0 .decrement, .logic 0 .loop, .logic 0 .pick,
      .logic 0 (.applied (some .single)), .logic 0 .decrement, .logic 1 .loop, .logic 1 .pick,
      .flushTest 0, .flushLoad 0, .logic 1 (.applied (some .single)), .logic 1 .decrement,
      .flushTest 0, .flushLoad 0]

theorem flush_is_barrier_flushed :
    flushed.trace = flushed.trace.dropLast ++ .flushReturned 1 :: [] ∧
      (flushed.trace.dropLast.take 1).count (.posted 0) ≤
        flushed.trace.dropLast.countP (PoolEvent.ends 0 .single) :=
  have hsplit : flushed.trace = flushed.trace.dropLast ++ .flushReturned 1 :: [] := by decide
  ⟨hsplit, ((flush_is_barrier twoThreads (reach_after _)).2 _ _ _ hsplit).2 0 (by decide)⟩

end Flush

end Yaaf.Async
