import Yaaf.Library.TaskQueue
import Yaaf.Theory.Barrier
import Yaaf.Theory.Delivery
import Yaaf.Theory.PickOrder

/-!
# The Pool Below and the Pool Above

The context is modelled over a pool that is a queue, a list of what is executing
and a number. The pool of the library is threads, a mutex, a counter, tasks that
put themselves back, and a search for priorities. That the second is what the
first takes it for is shown through what both are: a queue that is worked off.

Of a pool it is the `DEFAULT` tasks that form such a queue, whatever the `WORKER`
tasks among them do. A task that wants to go on is given back and put in again at
the end, unless nobody else is waiting; then its thread keeps it.

Of a context it is the tasks of the user pool, and there the converse holds as
well: as long as the pool is not told to stop, a thread of the context can take a
task up exactly when the queue lets it be taken.

## Main definitions

* `ThreadsPool.asQueue`, `queueLabels`: The queue a pool is, and its steps.
* `System.asQueue`, `System.taskLabels`: The same of a context.

## Theorems

* `queueRule_of_step`: A step, as far as the queue and the hands can tell.
* `pool_refines_queue`: The `DEFAULT` tasks of a pool are a queue worked off.
* `context_refines_queue`: So are the tasks of a context.
-/

namespace Yaaf.Async

open Machine ThreadsPool

/-- The `DEFAULT` task that a worker thread holds. -/
def PoolLogic.heldDefault (p : PoolParams) (pc : PoolLogic) : Option TaskWrapper :=
  pc.held.filter fun t => p.priority t == .default

/-- The queue that the `DEFAULT` tasks of a pool are. -/
def ThreadsPool.asQueue (p : PoolParams) (s : ThreadsPool) : TaskQueue TaskWrapper where
  queued := defaults p s.inQueue
  out := TaskQueue.held (PoolLogic.heldDefault p) s.threads

/-- The task that a step gives up: it is done, or it is put back. -/
def givenBy (s : ThreadsPool) : PoolStep → List TaskWrapper
  | .logic i (.applied (some .single)) => match s.threads[i]? with
    | some (.running t) => [t]
    | _ => []
  | .logic i .requeue => match s.threads[i]? with
    | some (.requeueing t) => [t]
    | _ => []
  | _ => []

/-- What a step shows of the queue. -/
def queueLabels (p : PoolParams) (s : ThreadsPool) (a : PoolStep) (s' : ThreadsPool) :
    List (TaskQueue.Label TaskWrapper) :=
  (defaults p (pickedBy a s')).map .take ++
    ((defaults p (givenBy s a)).map .give ++ (defaults p (pushedBy s a)).map .put)

/-- A step, as far as the queue and the hands can tell. -/
inductive QueueRule (p : PoolParams) (s : ThreadsPool) (a : PoolStep) (s' : ThreadsPool) : Prop
  | same (hq : s'.inQueue = s.inQueue)
      (ht : s'.threads = s.threads ∨ ∃ (i : Nat) (pc pc' : PoolLogic),
        s.threads[i]? = some pc ∧ s'.threads = s.threads.set i pc' ∧ pc'.held = pc.held)
      (hpick : pickedBy a s' = []) (hgive : givenBy s a = []) (hpush : pushedBy s a = [])
  | push (t : TaskWrapper) (hq : s'.inQueue = s.inQueue ++ [t]) (ht : s'.threads = s.threads)
      (hpick : pickedBy a s' = []) (hgive : givenBy s a = []) (hpush : pushedBy s a = [t])
  | take (i : Nat) (t : TaskWrapper) (hi : s.threads[i]? = some .waiting)
      (hq : Earliest p.priority s.inQueue t s'.inQueue)
      (ht : s'.threads = s.threads.set i (.running t))
      (hpick : pickedBy a s' = [t]) (hgive : givenBy s a = []) (hpush : pushedBy s a = [])
  | single (i : Nat) (t : TaskWrapper) (hi : s.threads[i]? = some (.running t))
      (hq : s'.inQueue = s.inQueue) (ht : s'.threads = s.threads.set i .leaving)
      (hpick : pickedBy a s' = []) (hgive : givenBy s a = [t]) (hpush : pushedBy s a = [])
  | requeue (i : Nat) (t : TaskWrapper) (hi : s.threads[i]? = some (.requeueing t))
      (hq : s'.inQueue = s.inQueue ++ [t]) (ht : s'.threads = s.threads.set i .leaving)
      (hpick : pickedBy a s' = []) (hgive : givenBy s a = [t]) (hpush : pushedBy s a = [t])

section Queue

variable {p : PoolParams} {s s' : ThreadsPool} {a : PoolStep}

theorem queueRule_of_logic {i : Nat} {st : LogicStep} {pc : PoolLogic}
    (hi : s.threads[i]? = some pc) (hs : poolLogic p s i st pc = some s') :
    QueueRule p s (.logic i st) s' := by
  have hlt : i < s.threads.length := (List.getElem?_eq_some_iff.mp hi).1
  cases st with
  | loop =>
      cases pc <;> simp only [poolLogic, reduceCtorEq, Option.some.injEq] at hs
      rw [← hs]
      refine .same rfl (Or.inr ⟨i, _, _, hi, rfl, ?_⟩) rfl rfl rfl
      split <;> rfl
  | pick =>
      cases pc <;> simp only [poolLogic, reduceCtorEq, Option.ite_none_right_eq_some] at hs
      have hs := hs.2
      by_cases hstop : s.stopFlag = true
      · rw [if_pos hstop, Option.some.injEq] at hs
        rw [← hs]
        refine .same rfl (Or.inr ⟨i, _, .exited, hi, rfl, rfl⟩) ?_ rfl rfl
        simp only [pickedBy, setThread, List.getElem?_set_self hlt]
      · rw [if_neg hstop, Option.map_eq_some_iff] at hs
        rcases hs with ⟨t, ht, rfl⟩
        refine .take i t hi (search_earliest ht) rfl ?_ rfl rfl
        simp only [pickedBy, beginApply, setThread, addEvent, List.getElem?_set_self hlt]
  | applied result =>
      rcases result with _ | _ | _ <;> cases pc <;>
        simp only [poolLogic, reduceCtorEq, Option.some.injEq] at hs <;> rw [← hs]
      · exact .same rfl (Or.inl rfl) rfl rfl rfl
      · refine .single i _ hi rfl rfl rfl ?_ rfl
        simp only [givenBy, hi]
      · exact .same rfl (Or.inr ⟨i, _, .checking _, hi, rfl, rfl⟩) rfl rfl rfl
  | check =>
      cases pc <;> simp only [poolLogic, reduceCtorEq, Option.ite_none_right_eq_some] at hs
      rcases hs with ⟨_, hs⟩
      split at hs <;> rw [Option.some.injEq] at hs <;> rw [← hs]
      · exact .same rfl (Or.inr ⟨i, _, .requeueing _, hi, rfl, rfl⟩) rfl rfl rfl
      · exact .same rfl (Or.inr ⟨i, _, .running _, hi, rfl, rfl⟩) rfl rfl rfl
  | requeue =>
      cases pc <;> simp only [poolLogic, reduceCtorEq, Option.ite_none_right_eq_some,
        Option.some.injEq] at hs
      rw [← hs.2]
      refine .requeue i _ hi rfl rfl rfl ?_ ?_
      · simp only [givenBy, hi]
      · simp only [pushedBy, hi]
  | decrement =>
      cases pc <;> simp only [poolLogic, reduceCtorEq, Option.some.injEq] at hs
      rw [← hs]
      exact .same rfl (Or.inr ⟨i, _, .top, hi, rfl, rfl⟩) rfl rfl rfl

/-- Every step is one of these. -/
theorem queueRule_of_step (hs : poolStep p s a = some s') : QueueRule p s a s' := by
  unfold poolStep at hs
  rw [Option.ite_none_left_eq_some] at hs
  have hs := hs.2
  cases a with
  | logic i st =>
      cases hi : s.threads[i]? with
      | none => simp only [hi, reduceCtorEq] at hs
      | some pc =>
          simp only [hi] at hs
          exact queueRule_of_logic hi hs
  | postPush j =>
      cases hj : s.posting[j]? with
      | none => simp only [hj, reduceCtorEq] at hs
      | some t =>
          simp only [hj, Option.ite_none_right_eq_some, Option.some.injEq] at hs
          rw [← hs.2]
          refine .push t rfl rfl rfl rfl ?_
          simp only [pushedBy, hj, Option.toList_some]
  | postBegin t =>
      simp only at hs
      split at hs <;> rw [Option.some.injEq] at hs <;> rw [← hs] <;>
        exact .same rfl (Or.inl rfl) rfl rfl rfl
  | stopBegin | stopEnd =>
      simp only [Option.ite_none_right_eq_some, Option.some.injEq] at hs
      rw [← hs.2]
      exact .same rfl (Or.inl rfl) rfl rfl rfl
  | flushBegin =>
      simp only [Option.some.injEq] at hs
      rw [← hs]
      exact .same rfl (Or.inl rfl) rfl rfl rfl
  | flushTest j =>
      simp only at hs
      split at hs
      · rw [Option.ite_none_right_eq_some] at hs
        rcases hs with ⟨_, hs⟩
        split at hs <;> rw [Option.some.injEq] at hs <;> rw [← hs] <;>
          exact .same rfl (Or.inl rfl) rfl rfl rfl
      · simp only [reduceCtorEq] at hs
  | flushLoad j =>
      simp only at hs
      split at hs
      · split at hs <;> rw [Option.some.injEq] at hs <;> rw [← hs] <;>
          exact .same rfl (Or.inl rfl) rfl rfl rfl
      · simp only [reduceCtorEq] at hs

/-- A single task is a `DEFAULT` task or plays no part. -/
theorem defaults_one (p : PoolParams) (t : TaskWrapper) :
    defaults p [t] = (PoolLogic.heldDefault p (.running t)).toList := by
  simp only [defaults, PoolLogic.heldDefault, PoolLogic.held, Option.filter, List.filter_cons,
    List.filter_nil]
  split <;> rfl

/-- What a step shows is a run of the queue. -/
theorem queue_run_of_step (hs : poolStep p s a = some s')
    (hn : s.threads.length = p.threadsCount.toNat) :
    (TaskQueue.machine TaskWrapper p.threadsCount.toNat).run (s.asQueue p)
      (queueLabels p s a s') = some (s'.asQueue p) := by
  cases queueRule_of_step hs with
  | same hq ht hpick hgive hpush =>
      have hout : (s'.asQueue p).out = (s.asQueue p).out := by
        rcases ht with ht | ⟨i, pc, pc', hi, ht, hheld⟩
        · simp only [ThreadsPool.asQueue, ht]
        · rcases TaskQueue.held_slot hi (PoolLogic.heldDefault p) with ⟨rest, _, hread, hset, _⟩
          simp only [ThreadsPool.asQueue, ht, hread, hset, PoolLogic.heldDefault, hheld]
      rw [queueLabels, hpick, hgive, hpush]
      refine congrArg some (TaskQueue.ext ?_ hout.symm)
      simp only [ThreadsPool.asQueue, hq]
  | push t hq ht hpick hgive hpush =>
      rw [queueLabels, hpick, hgive, hpush]
      simp only [ThreadsPool.asQueue, hq, ht, defaults_append, defaults_one]
      cases PoolLogic.heldDefault p (.running t) with
      | none => exact congrArg some (TaskQueue.ext (List.append_nil _).symm rfl)
      | some u => exact TaskQueue.run_put _ _ u
  | take i t hi hq ht hpick hgive hpush =>
      rcases TaskQueue.held_slot hi (PoolLogic.heldDefault p) with ⟨rest, hcard, hread, hset, _⟩
      rw [queueLabels, hpick, hgive, hpush]
      simp only [ThreadsPool.asQueue, ht, hread, hset, defaults_of_earliest hq, defaults_one]
      cases PoolLogic.heldDefault p (.running t) with
      | none => rfl
      | some u =>
          have hidle : ((PoolLogic.heldDefault p .waiting).toList : Multiset TaskWrapper) + rest =
              rest := Multiset.zero_add rest
          rw [hidle]
          refine (TaskQueue.run_take _ u (hn ▸ hcard)).trans ?_
          exact congrArg some (TaskQueue.ext rfl (Multiset.singleton_add u rest).symm)
  | single i t hi hq ht hpick hgive hpush =>
      rcases TaskQueue.held_slot hi (PoolLogic.heldDefault p) with ⟨rest, _, hread, hset, _⟩
      have hidle : ((PoolLogic.heldDefault p .leaving).toList : Multiset TaskWrapper) + rest =
          rest := Multiset.zero_add rest
      rw [queueLabels, hpick, hgive, hpush]
      simp only [ThreadsPool.asQueue, ht, hread, hset, hq, defaults_one, hidle]
      cases PoolLogic.heldDefault p (.running t) with
      | none => exact congrArg some (TaskQueue.ext rfl (Multiset.zero_add rest))
      | some u => exact TaskQueue.run_give _ rest u
  | requeue i t hi hq ht hpick hgive hpush =>
      rcases TaskQueue.held_slot hi (PoolLogic.heldDefault p) with ⟨rest, _, hread, hset, _⟩
      have hidle : ((PoolLogic.heldDefault p .leaving).toList : Multiset TaskWrapper) + rest =
          rest := Multiset.zero_add rest
      have hsame : PoolLogic.heldDefault p (.requeueing t) = PoolLogic.heldDefault p (.running t) :=
        rfl
      rw [queueLabels, hpick, hgive, hpush]
      simp only [ThreadsPool.asQueue, ht, hread, hset, hq, defaults_append, defaults_one, hidle,
        hsame]
      cases PoolLogic.heldDefault p (.running t) with
      | none =>
          exact congrArg some (TaskQueue.ext (List.append_nil _).symm (Multiset.zero_add rest))
      | some u =>
          -- The task is given back and put in again in one step.
          have hgave : (TaskQueue.machine TaskWrapper p.threadsCount.toNat).run
              ⟨defaults p s.inQueue, ((some u).toList : Multiset TaskWrapper) + rest⟩ [.give u] =
                some ⟨defaults p s.inQueue, rest⟩ := TaskQueue.run_give _ rest u
          refine (run_append [TaskQueue.Label.give u] [TaskQueue.Label.put u] _).trans ?_
          rw [hgave]
          rfl

end Queue

/-- The `DEFAULT` tasks of a pool are a queue that is worked off by its threads. What
    a run shows of them, whoever posts, stops or waits in `flush` meanwhile, is a run
    of such a queue to the one that the pool then is. So they are taken in the order
    in which they were pushed, a task that was put back included; what was taken is
    held by a thread, or was given up; and no more are held than there are threads. -/
theorem pool_refines_queue (p : PoolParams) {s : ThreadsPool}
    {ls : List (TaskQueue.Label TaskWrapper)}
    (h : Reach ((poolMachine p).track [] fun s a s' ls => ls ++ queueLabels p s a s') free
      (s, ls)) :
    (TaskQueue.machine TaskWrapper p.threadsCount.toNat).run TaskQueue.empty ls =
        some (s.asQueue p) ∧
    TaskQueue.takes ls ++ defaults p s.inQueue = TaskQueue.puts ls ∧
    (TaskQueue.gives ls : Multiset TaskWrapper) +
        TaskQueue.held (PoolLogic.heldDefault p) s.threads = TaskQueue.takes ls ∧
    (TaskQueue.held (PoolLogic.heldDefault p) s.threads).card ≤ p.threadsCount.toNat := by
  have hrun : (TaskQueue.machine TaskWrapper p.threadsCount.toNat).run TaskQueue.empty ls =
      some (s.asQueue p) := by
    refine invariant_of
      (fun q : ThreadsPool × List (TaskQueue.Label TaskWrapper) =>
        q.1.threads.length = p.threadsCount.toNat)
      (fun q => (TaskQueue.machine TaskWrapper p.threadsCount.toNat).run TaskQueue.empty q.2 =
        some (q.1.asQueue p))
      (fun q hq => (counted_of_reach (path_track hq)).size) ?_ ?_ h
    · refine congrArg some (TaskQueue.ext rfl ?_)
      refine (congrArg (fun l : List TaskWrapper => (l : Multiset TaskWrapper)) ?_).symm
      exact List.filterMap_eq_nil_iff.mpr fun pc hpc => by
        rw [List.eq_of_mem_replicate hpc]
        rfl
    · rintro ⟨s, ls⟩ a ⟨s', ls'⟩ _ hstep hn _ ih
      rcases track_step.mp hstep with ⟨hs, hls⟩
      simp only at hs hls ih hn ⊢
      rw [hls, run_append, ih]
      exact queue_run_of_step hs hn
  refine ⟨hrun, TaskQueue.in_order ls _ _ hrun, ?_, TaskQueue.out_le hrun (Nat.zero_le _)⟩
  exact (TaskQueue.accounted ls _ _ hrun).trans (Multiset.zero_add _)

/-- The run of two tasks over a pool with a `WORKER` task in it, with what it shows. -/
def shownRun : ThreadsPool × List (TaskQueue.Label TaskWrapper) :=
  ((poolMachine mixedTasks).track [] fun s a s' ls => ls ++ queueLabels mixedTasks s a s').after
    putBackRun

theorem pool_refines_queue_shownRun :
    TaskQueue.takes shownRun.2 ++ defaults mixedTasks shownRun.1.inQueue =
      TaskQueue.puts shownRun.2 :=
  (pool_refines_queue mixedTasks (s := shownRun.1) (reach_after putBackRun)).2.1

example : TaskQueue.takes shownRun.2 = [1, 2] ∧ TaskQueue.puts shownRun.2 = [1, 2, 1] := by decide

end Yaaf.Async

namespace Yaaf

variable {π : Type}

/-- The queue that the user pool of a context is. -/
def System.asQueue (s : System π) : TaskQueue Task where
  queued := s.queue
  out := TaskQueue.held (fun r => some (Running.task r)) s.running

theorem asQueue_out (s : System π) :
    s.asQueue.out = (s.running.map Running.task : List Task) :=
  congrArg (fun f : List (Running π) → List Task => (f s.running : Multiset Task))
    List.filterMap_eq_map'

/-- What a step shows of that queue: who took a task up, who is done with one, and
    what was posted. -/
def System.taskLabels (s : System π) (a : Action π) (s' : System π) :
    List (TaskQueue.Label Task) :=
  (if s.running.length < s'.running.length then (s.queue.take 1).map .take else []) ++
    ((match a with
      | .task i _ =>
          if s'.running.length < s.running.length then
            s.running[i]?.toList.map fun r => .give r.task
          else []
      | _ => []) ++
    (s'.queue.drop s.queue.length).map .put)

section Context

variable {cfg : Config} {s s' : System π} {a : Action π}

/-- What a step shows is a run of the queue. -/
theorem task_run_of_step (hs : step cfg s a = some s') :
    (TaskQueue.machine Task cfg.userThreads).run s.asQueue (s.taskLabels a s') =
      some s'.asQueue := by
  cases poolRule_of_stepRule (stepRule_of_step hs).2 with
  | same hq hr hd =>
      have hnone : s.taskLabels a s' = [] := by
        simp only [System.taskLabels, hr, hq, Nat.lt_irrefl, if_false, List.drop_length,
          List.map_nil, List.append_nil, List.nil_append]
        split <;> rfl
      rw [hnone]
      exact congrArg some (TaskQueue.ext hq.symm (by simp only [System.asQueue, hr]))
  | post t ht hr hq =>
      rcases hq with ⟨hq, _, _⟩ | ⟨hq, _⟩
      · have hput : s.taskLabels a s' = [.put t] := by
          simp only [System.taskLabels, hr, hq, Nat.lt_irrefl, if_false, List.drop_left,
            List.map_cons, List.map_nil, List.nil_append]
          split <;> rfl
        rw [hput]
        refine (TaskQueue.run_put _ _ t).trans ?_
        exact congrArg some (TaskQueue.ext hq.symm (by simp only [System.asQueue, hr]))
      -- A task that the thread manager drops never reaches the pool.
      · have hnone : s.taskLabels a s' = [] := by
          simp only [System.taskLabels, hr, hq, Nat.lt_irrefl, if_false, List.drop_length,
            List.map_nil, List.append_nil, List.nil_append]
          split <;> rfl
        rw [hnone]
        exact congrArg some (TaskQueue.ext hq.symm (by simp only [System.asQueue, hr]))
  | pick t rest hq hq' hr hd hn hu =>
      have hlen : s.running.length < s'.running.length := by
        rw [hr, List.length_append]
        exact Nat.lt_succ_self _
      have hleft : s'.queue.drop s.queue.length = [] := by
        rw [hq', hq]
        exact List.drop_of_length_le (Nat.le_succ rest.length)
      have htake : s.taskLabels .pick s' = [.take t] := by
        simp only [System.taskLabels, if_pos hlen, hleft, List.map_nil, List.append_nil]
        rw [hq]
        rfl
      have htaken : (Task.taken (π := π) t).task = t := by
        cases t <;> rfl
      have hcard : s.asQueue.out.card < cfg.userThreads := by
        refine Nat.lt_of_le_of_lt (List.length_filterMap_le _ s.running) hn
      rw [htake, show s.asQueue = ⟨t :: rest, s.asQueue.out⟩ from TaskQueue.ext hq rfl]
      refine (TaskQueue.run_take rest t hcard).trans (congrArg some (TaskQueue.ext hq'.symm ?_))
      simp only [System.asQueue, TaskQueue.held, hr, List.filterMap_append, List.filterMap_cons,
        List.filterMap_nil, htaken, ← Multiset.coe_add, Multiset.coe_singleton]
      exact (Multiset.singleton_add t _).symm.trans (Multiset.add_comm _ _)
  | move st i t pc pc' hi hq hr hd =>
      have hlen : s'.running.length = s.running.length := by rw [hr, List.length_set]
      have hnone : s.taskLabels (.task i st) s' = [] := by
        simp only [System.taskLabels, hlen, hq, Nat.lt_irrefl, if_false, List.drop_length,
          List.map_nil, List.append_nil]
      rw [hnone]
      refine congrArg some (TaskQueue.ext hq.symm ?_)
      rcases TaskQueue.held_slot hi fun r => some (Running.task r) with ⟨rest, _, hread, hset, _⟩
      show TaskQueue.held _ s.running = TaskQueue.held _ s'.running
      rw [hread, hr, hset]
      rfl
  | finish st i r hi hq hr hd =>
      have hlt : i < s.running.length := (List.getElem?_eq_some_iff.mp hi).1
      have hlen : s'.running.length < s.running.length := by
        rw [hr, List.length_eraseIdx_of_lt hlt]
        omega
      have hgive : s.taskLabels (.task i st) s' = [.give r.task] := by
        simp only [System.taskLabels, hq, hi, if_neg (Nat.lt_asymm hlen), if_pos hlen,
          List.drop_length, List.map_nil, List.append_nil, Option.toList_some, List.map_cons,
          List.nil_append]
      rcases TaskQueue.held_slot hi fun r => some (Running.task r) with
        ⟨rest, _, hread, _, herase⟩
      rw [hgive]
      have hout : s.asQueue = ⟨s.queue, r.task ::ₘ rest⟩ :=
        TaskQueue.ext rfl (hread.trans (Multiset.singleton_add r.task rest))
      rw [hout]
      refine (TaskQueue.run_give s.queue rest r.task).trans ?_
      exact congrArg some (TaskQueue.ext hq.symm (by simp only [System.asQueue, hr, herase]))

/-- Whether a thread of the user pool can take a task up. -/
theorem pick_isSome (hfate : s.fate = .running) (hstop : s.shutdown.userStop = false) :
    (step cfg s .pick).isSome = true ↔
      ∃ t q, s.asQueue.step cfg.userThreads (.take t) = some q := by
  have hcard : s.asQueue.out.card = s.running.length := by
    rw [asQueue_out, Multiset.coe_card, List.length_map]
  have hpick : step cfg s .pick = Yaaf.pick cfg s := if_pos hfate
  rw [hpick]
  constructor
  · intro h
    rcases Option.isSome_iff_exists.mp h with ⟨s', hs⟩
    simp only [Yaaf.pick, hstop, Option.ite_none_right_eq_some, Bool.and_eq_true,
      decide_eq_true_eq, Bool.not_false, and_true] at hs
    cases hq : s.queue with
    | nil => simp only [hq, reduceCtorEq, and_false] at hs
    | cons t rest =>
        refine ⟨t, ⟨rest, t ::ₘ s.asQueue.out⟩, ?_⟩
        have hhead : s.asQueue.queued = t :: rest := hq
        simp only [TaskQueue.step, hhead, List.head?_cons, hcard, hs.1, and_self, if_true,
          List.tail_cons]
  · rintro ⟨t, q, hq⟩
    simp only [TaskQueue.step, Option.ite_none_right_eq_some] at hq
    have hroom : s.running.length < cfg.userThreads := hcard ▸ hq.1.2
    simp only [Yaaf.pick, hstop, hroom, decide_true, Bool.not_false, Bool.and_self, if_true]
    cases hqueue : s.queue with
    | nil =>
        have hhead : s.queue.head? = some t := hq.1.1
        rw [hqueue] at hhead
        exact absurd hhead (by simp only [List.head?_nil, reduceCtorEq, not_false_eq_true])
    | cons u rest => rfl

end Context

/-- The tasks of a context are a queue that is worked off by the threads of the user
    pool, from the tasks that `make_context` left there. So they are taken up in the
    order in which they were posted, what was taken up is executing or done, and no
    more execute than there are threads. And a thread takes the next one up whenever
    the queue lets it, as long as the pool was not told to stop. -/
theorem context_refines_queue {cfg : Config} {name : String} {s : System π}
    {ls : List (TaskQueue.Label Task)}
    (h : ((context cfg name).track [] fun s a s' ls => ls ++ s.taskLabels a s').Reach Machine.free
      (s, ls)) :
    (TaskQueue.machine Task cfg.userThreads).run
        (makeContext (π := π) cfg name).asQueue ls = some s.asQueue ∧
    TaskQueue.takes ls ++ s.queue =
      (makeContext (π := π) cfg name).queue ++ TaskQueue.puts ls ∧
    (TaskQueue.gives ls : Multiset Task) + (s.running.map Running.task : List Task) =
      TaskQueue.takes ls ∧
    s.running.length ≤ cfg.userThreads ∧
    (s.fate = .running → s.shutdown.userStop = false → ((step cfg s .pick).isSome = true ↔
      ∃ t q, s.asQueue.step cfg.userThreads (.take t) = some q)) := by
  have hrun : (TaskQueue.machine Task cfg.userThreads).run
      (makeContext (π := π) cfg name).asQueue ls = some s.asQueue := by
    refine Machine.invariant
      (fun q : System π × List (TaskQueue.Label Task) =>
        (TaskQueue.machine Task cfg.userThreads).run (makeContext cfg name).asQueue q.2 =
          some q.1.asQueue) rfl ?_ h
    rintro ⟨s, ls⟩ a ⟨s', ls'⟩ _ hstep ih
    rcases Machine.track_step.mp hstep with ⟨hs, hls⟩
    simp only at hs hls ih ⊢
    rw [hls, Machine.run_append, ih]
    exact task_run_of_step hs
  have hout : s.asQueue.out = (s.running.map Running.task : List Task) := asQueue_out s
  have hnone : (makeContext (π := π) cfg name).asQueue.out = 0 := by
    simp only [System.asQueue, makeContext_running]
    rfl
  refine ⟨hrun, TaskQueue.in_order ls _ _ hrun, ?_, ?_, fun hfate hstop => pick_isSome hfate hstop⟩
  · have haccount := TaskQueue.accounted ls _ _ hrun
    rw [hout, hnone] at haccount
    exact haccount.trans (Multiset.zero_add _)
  · have hle := TaskQueue.out_le hrun (by rw [hnone]; exact Nat.zero_le _)
    rw [hout, Multiset.coe_card, List.length_map] at hle
    exact hle

/-- Two messages to one actor, with what the user pool shows. -/
def drainTasks : System Nat × List (TaskQueue.Label Task) :=
  ((context (.plain 1) "ctx").track [] fun s a s' ls => ls ++ s.taskLabels a s').after drainRun

theorem context_refines_queue_drainTasks :
    TaskQueue.takes drainTasks.2 ++ drainTasks.1.queue =
        (makeContext (π := Nat) (.plain 1) "ctx").queue ++ TaskQueue.puts drainTasks.2 ∧
      drainTasks.1.running.length ≤ (Config.plain 1).userThreads :=
  have h := context_refines_queue (s := drainTasks.1) (Machine.reach_after drainRun)
  ⟨h.2.1, h.2.2.2.1⟩

example : drainTasks.1.queue = [] ∧ (TaskQueue.takes drainTasks.2).length = 5 ∧
    (TaskQueue.gives drainTasks.2).length = 4 := by decide

end Yaaf
