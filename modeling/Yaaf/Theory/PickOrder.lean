import Yaaf.Theory.Workers

/-!
# The Order of Picks

A worker thread scans the queue for the task it takes. The scan has two early
exits, one for a first task that is not a `WORKER` and one for a later task
with a smaller priority than the first, and what it found is then erased by
pointer, which erases the first entry with that pointer. Together they take the
earliest `DEFAULT` task, or the earliest task of all where there is no `DEFAULT`
one: a wrapper that occurs twice has one priority, so its first occurrence is
the one that was found.

Over a run, the queue is therefore two queues. Of the `DEFAULT` tasks, what was
pushed is what was picked and then what is still queued, in that order, and it
makes no difference whether a push came from `post` or from a thread that puts
its task back. The record of a run has to be kept beside it, as the trace of
the pool says nothing about tasks that were put back.

## Main definitions

* `Earliest`: What a pick takes and what it leaves.
* `pushedBy`, `pickedBy`: What a step pushes, and what it picks.
* `PoolRecord`, `poolRecord`: What a run pushed and picked so far.
* `defaults`: The `DEFAULT` tasks of a list.

## Theorems

* `search_held`, `search_earliest`: What the scan finds.
* `queue_of_step`: What a step does to the queue.
* `defaults_of_earliest`: What a pick leaves of the `DEFAULT` tasks.
* `pick_order`: The order of picks, of one pick and of a run.
-/

namespace Yaaf.Async

open Machine ThreadsPool

/-- `t` was taken out of a queue, and the other queue is left: it was the
    earliest `DEFAULT` task, or the first of nothing but `WORKER` tasks. -/
def Earliest (priority : TaskWrapper → TaskPriority) (queue : List TaskWrapper)
    (t : TaskWrapper) (left : List TaskWrapper) : Prop :=
  ∃ pre post, queue = pre ++ t :: post ∧ left = pre ++ post ∧
    (∀ u ∈ pre, priority u = .worker) ∧
    (priority t = .worker → pre = [] ∧ ∀ u ∈ post, priority u = .worker)

/-- The task that a step pushes. -/
def pushedBy (s : ThreadsPool) : PoolStep → List TaskWrapper
  | .postPush j => s.posting[j]?.toList
  | .logic i .requeue => match s.threads[i]? with
    | some (.requeueing t) => [t]
    | _ => []
  | _ => []

/-- The task that a step picked, by what its thread holds after it. -/
def pickedBy (a : PoolStep) (s' : ThreadsPool) : List TaskWrapper :=
  match a with
  | .logic i .pick => match s'.threads[i]? with
    | some (.running t) => [t]
    | _ => []
  | _ => []

/-- What a run pushed and picked so far. -/
structure PoolRecord where
  pushed : List TaskWrapper := []
  picked : List TaskWrapper := []
deriving DecidableEq, Repr

def poolRecord (s : ThreadsPool) (a : PoolStep) (s' : ThreadsPool) (r : PoolRecord) :
    PoolRecord where
  pushed := r.pushed ++ pushedBy s a
  picked := r.picked ++ pickedBy a s'

/-- The `DEFAULT` tasks. -/
def defaults (p : PoolParams) (queue : List TaskWrapper) : List TaskWrapper :=
  queue.filter fun t => p.priority t == .default

section Search

variable {priority : TaskWrapper → TaskPriority}

/-- A priority that is not `WORKER` is `DEFAULT`, whose value is smaller. -/
theorem value_lt_worker {u t : TaskWrapper} (ht : priority t = .worker) :
    (priority u).value < (priority t).value ↔ priority u ≠ .worker := by
  rw [ht]
  cases priority u <;> decide

/-- The scan that holds a `WORKER` task ends at the first task that is none. -/
theorem search_held {t u : TaskWrapper} (ht : priority t = .worker) {queue : List TaskWrapper}
    (h : search priority (some t) queue = some u) :
    (u = t ∧ ∀ v ∈ queue, priority v = .worker) ∨
    ∃ pre post, queue = pre ++ u :: post ∧ (∀ v ∈ pre, priority v = .worker) ∧
      priority u ≠ .worker := by
  induction queue with
  | nil =>
      simp only [search, Option.some.injEq] at h
      exact Or.inl ⟨h.symm, fun v hv => absurd hv List.not_mem_nil⟩
  | cons v queue ih =>
      simp only [search] at h
      by_cases hv : priority v = .worker
      · rw [if_neg (fun hlt => (value_lt_worker ht).mp hlt hv)] at h
        rcases ih h with ⟨hu, hall⟩ | ⟨pre, post, rfl, hpre, hu⟩
        · exact Or.inl ⟨hu, List.forall_mem_cons.mpr ⟨hv, hall⟩⟩
        · exact Or.inr ⟨v :: pre, post, rfl, List.forall_mem_cons.mpr ⟨hv, hpre⟩, hu⟩
      · rw [if_pos ((value_lt_worker ht).mpr hv), Option.some.injEq] at h
        exact Or.inr ⟨[], queue, by rw [h, List.nil_append],
          fun w hw => absurd hw List.not_mem_nil, h ▸ hv⟩

/-- A scan that holds a task finds one. -/
theorem search_isSome (queue : List TaskWrapper) (t : TaskWrapper) :
    (search priority (some t) queue).isSome = true := by
  induction queue generalizing t with
  | nil => rfl
  | cons v queue ih =>
      unfold search
      split
      · rfl
      · exact ih t

/-- What the scan finds in a queue, and what erasing it leaves. -/
theorem search_earliest {queue : List TaskWrapper} {t : TaskWrapper}
    (h : search priority none queue = some t) :
    Earliest priority queue t (queue.erase t) := by
  cases queue with
  | nil => simp only [search, reduceCtorEq] at h
  | cons v queue =>
      simp only [search] at h
      by_cases hv : priority v = .worker
      · rw [if_neg (not_not_intro hv)] at h
        rcases search_held hv h with ⟨rfl, hall⟩ | ⟨pre, post, rfl, hpre, ht⟩
        · refine ⟨[], queue, rfl, List.erase_cons_head _ _, ?_, fun _ => ⟨rfl, hall⟩⟩
          exact fun u hu => absurd hu List.not_mem_nil
        · have hall : ∀ u ∈ v :: pre, priority u = .worker :=
            List.forall_mem_cons.mpr ⟨hv, hpre⟩
          -- No earlier entry is the one found: they have other priorities.
          have hnot : t ∉ v :: pre := fun hmem => ht (hall t hmem)
          refine ⟨v :: pre, post, rfl, ?_, hall, fun hw => absurd hw ht⟩
          rw [← List.cons_append, List.erase_append_right _ hnot, List.erase_cons_head]
      · rw [if_pos hv, Option.some.injEq] at h
        subst h
        refine ⟨[], queue, rfl, List.erase_cons_head _ _, ?_, fun hw => absurd hw hv⟩
        exact fun u hu => absurd hu List.not_mem_nil

/-- A queue that is not empty has something to find. -/
theorem search_of_ne {queue : List TaskWrapper} (h : queue ≠ []) :
    ∃ t, search priority none queue = some t := by
  cases queue with
  | nil => exact absurd rfl h
  | cons v queue =>
      unfold search
      split
      · exact ⟨v, rfl⟩
      · exact Option.isSome_iff_exists.mp (search_isSome queue v)

end Search

section Queue

variable {p : PoolParams} {s s' : ThreadsPool} {a : PoolStep}

/-- What a pick does: the pool is not stopping, and the thread runs what it took. -/
theorem pick_step {i : Nat} (hs : poolStep p s (.logic i .pick) = some s') :
    (s.stopFlag = true ∧ s'.threads[i]? = some .exited ∧ s'.inQueue = s.inQueue) ∨
    ∃ t, s.stopFlag = false ∧ s'.threads[i]? = some (.running t) ∧
      Earliest p.priority s.inQueue t s'.inQueue := by
  unfold poolStep at hs
  rw [Option.ite_none_left_eq_some] at hs
  cases hi : s.threads[i]? with
  | none => simp only [hi, reduceCtorEq, and_false] at hs
  | some pc =>
      have hlt : i < s.threads.length := (List.getElem?_eq_some_iff.mp hi).1
      have hs := hs.2
      simp only [hi] at hs
      cases pc <;> simp only [poolLogic, reduceCtorEq, Option.ite_none_right_eq_some] at hs
      have hs := hs.2
      by_cases hstop : s.stopFlag = true
      · rw [if_pos hstop, Option.some.injEq] at hs
        subst hs
        exact Or.inl ⟨hstop, List.getElem?_set_self hlt, rfl⟩
      · rw [if_neg hstop, Option.map_eq_some_iff] at hs
        rcases hs with ⟨t, ht, rfl⟩
        exact Or.inr ⟨t, Bool.not_eq_true _ ▸ hstop, List.getElem?_set_self hlt,
          search_earliest ht⟩

/-- The other steps of a worker thread. -/
theorem push_logic {i : Nat} {st : LogicStep} {pc : PoolLogic} (hst : st ≠ .pick)
    (hi : s.threads[i]? = some pc) (hs : poolLogic p s i st pc = some s') :
    s'.inQueue = s.inQueue ++ pushedBy s (.logic i st) := by
  cases st with
  | pick => exact absurd rfl hst
  | loop | decrement =>
      cases pc <;> simp only [poolLogic, reduceCtorEq, Option.some.injEq] at hs
      rw [← hs]
      exact (List.append_nil _).symm
  | applied result =>
      rcases result with _ | _ | _ <;> cases pc <;>
        simp only [poolLogic, reduceCtorEq, Option.some.injEq] at hs <;> rw [← hs] <;>
        exact (List.append_nil _).symm
  | check =>
      cases pc <;> simp only [poolLogic, reduceCtorEq, Option.ite_none_right_eq_some] at hs
      rcases hs with ⟨_, hs⟩
      split at hs <;> rw [Option.some.injEq] at hs <;> rw [← hs] <;>
        exact (List.append_nil _).symm
  | requeue =>
      cases pc <;> simp only [poolLogic, reduceCtorEq, Option.ite_none_right_eq_some,
        Option.some.injEq] at hs
      rw [← hs.2]
      simp only [pushedBy, hi]
      rfl

/-- A step that is not a pick leaves the queue, or pushes to it. -/
theorem push_step (ha : ∀ i, a ≠ .logic i .pick) (hs : poolStep p s a = some s') :
    s'.inQueue = s.inQueue ++ pushedBy s a := by
  unfold poolStep at hs
  rw [Option.ite_none_left_eq_some] at hs
  have hs := hs.2
  cases a with
  | logic i st =>
      cases hi : s.threads[i]? with
      | none => simp only [hi, reduceCtorEq] at hs
      | some pc =>
          simp only [hi] at hs
          exact push_logic (fun hst => ha i (hst ▸ rfl)) hi hs
  | postPush j =>
      cases hj : s.posting[j]? with
      | none => simp only [hj, reduceCtorEq] at hs
      | some t =>
          simp only [hj, Option.ite_none_right_eq_some, Option.some.injEq] at hs
          rw [← hs.2]
          simp only [pushedBy, hj]
          rfl
  | postBegin t =>
      simp only at hs
      split at hs <;> rw [Option.some.injEq] at hs <;> rw [← hs] <;>
        exact (List.append_nil _).symm
  | stopBegin | stopEnd =>
      simp only [Option.ite_none_right_eq_some, Option.some.injEq] at hs
      rw [← hs.2]
      exact (List.append_nil _).symm
  | flushBegin =>
      simp only [Option.some.injEq] at hs
      rw [← hs]
      exact (List.append_nil _).symm
  | flushTest j =>
      simp only at hs
      split at hs
      · rw [Option.ite_none_right_eq_some] at hs
        rcases hs with ⟨_, hs⟩
        split at hs <;> rw [Option.some.injEq] at hs <;> rw [← hs] <;>
          exact (List.append_nil _).symm
      · simp only [reduceCtorEq] at hs
  | flushLoad j =>
      simp only at hs
      split at hs
      · split at hs <;> rw [Option.some.injEq] at hs <;> rw [← hs] <;>
          exact (List.append_nil _).symm
      · simp only [reduceCtorEq] at hs

theorem pickedBy_other (ha : ∀ i, a ≠ .logic i .pick) : pickedBy a s' = [] := by
  unfold pickedBy
  split
  · exact absurd rfl (ha _)
  · rfl

theorem defaults_append (p : PoolParams) (l l' : List TaskWrapper) :
    defaults p (l ++ l') = defaults p l ++ defaults p l' :=
  List.filter_append ..

/-- What a pick takes is the first of the `DEFAULT` tasks, if it is one. -/
theorem defaults_of_earliest {queue left : List TaskWrapper} {t : TaskWrapper}
    (h : Earliest p.priority queue t left) :
    defaults p queue = defaults p [t] ++ defaults p left := by
  rcases h with ⟨pre, post, rfl, rfl, hpre, _⟩
  have hnone : defaults p pre = [] := by
    refine List.filter_eq_nil_iff.mpr fun u hu => ?_
    rw [hpre u hu]
    decide
  rw [defaults_append, defaults_append, hnone, List.nil_append, List.nil_append,
    ← defaults_append]
  rfl

/-- A step, as the `DEFAULT` tasks of the queue see it. -/
theorem queue_of_step (hs : poolStep p s a = some s') :
    defaults p s.inQueue ++ defaults p (pushedBy s a) =
      defaults p (pickedBy a s') ++ defaults p s'.inQueue := by
  by_cases hpick : ∃ i, a = .logic i .pick
  · rcases hpick with ⟨i, rfl⟩
    rcases pick_step hs with ⟨_, hi, hqueue⟩ | ⟨t, _, hi, hearliest⟩
    · simp only [pickedBy, hi, hqueue]
      exact List.append_nil _
    · simp only [pickedBy, hi, ← defaults_of_earliest hearliest]
      exact List.append_nil _
  · rw [not_exists] at hpick
    rw [push_step hpick hs, pickedBy_other hpick, defaults_append]
    rfl

/-- What a run pushed is what it picked and then what is queued. -/
theorem pushed_of_reach {s : ThreadsPool} {r : PoolRecord}
    (h : Reach ((poolMachine p).track {} poolRecord) free (s, r)) :
    defaults p r.pushed = defaults p r.picked ++ defaults p s.inQueue := by
  refine invariant (fun q : ThreadsPool × PoolRecord =>
    defaults p q.2.pushed = defaults p q.2.picked ++ defaults p q.1.inQueue) rfl ?_ h
  rintro ⟨s, r⟩ a ⟨s', r'⟩ _ hstep ih
  rcases track_step.mp hstep with ⟨hs, hr⟩
  simp only at hs hr ih ⊢
  rw [hr, poolRecord, defaults_append, defaults_append, ih, List.append_assoc, List.append_assoc,
    queue_of_step hs]

/-- A thread that waits at a queue with something in it can pick. -/
theorem pick_of_waiting {i : Nat} (hterm : s.terminated = false) (hfree : s.lockFree = true)
    (hstop : s.stopFlag = false) (hi : s.threads[i]? = some .waiting) (hq : s.inQueue ≠ []) :
    ∃ t s', poolStep p s (.logic i .pick) = some s' ∧ pickedBy (.logic i .pick) s' = [t] := by
  have hfound : ∃ t, search p.priority none s.inQueue = some t := search_of_ne hq
  rcases hfound with ⟨t, ht⟩
  have hlt : i < s.threads.length := (List.getElem?_eq_some_iff.mp hi).1
  let s' := beginApply p { s with taskRunned := s.taskRunned + 1,
                                  inQueue := s.inQueue.erase t } i t
  have hset : s'.threads[i]? = some (.running t) := List.getElem?_set_self hlt
  refine ⟨t, s', ?_, ?_⟩
  · unfold poolStep
    rw [if_neg (Bool.eq_false_iff.mp hterm)]
    simp only [hi, poolLogic]
    rw [if_pos ⟨hfree, Or.inr hq⟩, if_neg (Bool.eq_false_iff.mp hstop), ht]
    rfl
  · simp only [pickedBy, hset]

theorem earliest_of_picked {i : Nat} {t : TaskWrapper}
    (hs : poolStep p s (.logic i .pick) = some s') (ht : pickedBy (.logic i .pick) s' = [t]) :
    Earliest p.priority s.inQueue t s'.inQueue := by
  rcases pick_step hs with ⟨_, hi, _⟩ | ⟨u, _, hi, hearliest⟩
  · simp only [pickedBy, hi, reduceCtorEq] at ht
  · simp only [pickedBy, hi, List.cons.injEq, and_true] at ht
    exact ht ▸ hearliest

end Queue

/-- A thread that finds the pool running and the queue not empty takes the
    earliest `DEFAULT` task, or the earliest `WORKER` task where there is no
    other, and exactly that entry. In a run, the `DEFAULT` tasks are therefore
    picked in the order of their pushes, those of `post` and those of a thread
    alike, and no `WORKER` task is picked while a `DEFAULT` one is queued. -/
theorem pick_order (p : PoolParams) :
    (∀ (s : ThreadsPool) (i : Nat), s.terminated = false → s.lockFree = true →
      s.stopFlag = false → s.threads[i]? = some .waiting → s.inQueue ≠ [] →
      ∃ t s', poolStep p s (.logic i .pick) = some s' ∧
        pickedBy (.logic i .pick) s' = [t]) ∧
    (∀ (s s' : ThreadsPool) (i : Nat) (t : TaskWrapper),
      poolStep p s (.logic i .pick) = some s' → pickedBy (.logic i .pick) s' = [t] →
      Earliest p.priority s.inQueue t s'.inQueue) ∧
    ∀ (s : ThreadsPool) (r : PoolRecord),
      Reach ((poolMachine p).track {} poolRecord) free (s, r) →
      defaults p r.pushed = defaults p r.picked ++ defaults p s.inQueue ∧
      ∀ (s' : ThreadsPool) (i : Nat) (t : TaskWrapper),
        poolStep p s (.logic i .pick) = some s' → pickedBy (.logic i .pick) s' = [t] →
        p.priority t = .worker → ∀ u ∈ s.inQueue, p.priority u = .worker := by
  refine ⟨fun s i hterm hfree hstop hi hq => pick_of_waiting hterm hfree hstop hi hq,
    fun s s' i t hs ht => earliest_of_picked hs ht, ?_⟩
  intro s r h
  refine ⟨pushed_of_reach h, ?_⟩
  intro s' i t hs ht hworker u hu
  rcases earliest_of_picked hs ht with ⟨pre, post, hqueue, _, _, hall⟩
  rcases hall hworker with ⟨rfl, hpost⟩
  rw [hqueue, List.nil_append, List.mem_cons] at hu
  rcases hu with rfl | hu
  · exact hworker
  · exact hpost u hu

/-- A pool in which task 0 is a `WORKER` and the others are not. -/
def mixedTasks : PoolParams where
  threadsCount := 2
  kind := 1
  priority := fun t => if t = 0 then .worker else .default

/-- Tasks 0, 1 and 2 are posted, thread 0 takes task 1 and puts it back, and
    thread 1 takes task 2. -/
def putBackRun : List PoolStep :=
  [.postBegin 0, .postPush 0, .postBegin 1, .postPush 0, .postBegin 2, .postPush 0,
    .logic 0 .loop, .logic 0 .pick, .logic 0 (.applied (some .again)), .logic 0 .check,
    .logic 0 .requeue, .logic 1 .loop, .logic 1 .pick]

def putBack : ThreadsPool × PoolRecord :=
  ((poolMachine mixedTasks).track {} poolRecord).after putBackRun

/-- Task 1 is queued again behind the `WORKER`, and is the next one picked. -/
theorem pick_order_putBack :
    putBack.2.pushed = [0, 1, 2, 1] ∧ putBack.2.picked = [1, 2] ∧
      putBack.1.inQueue = [0, 1] ∧
      defaults mixedTasks putBack.2.pushed =
        defaults mixedTasks putBack.2.picked ++ defaults mixedTasks putBack.1.inQueue :=
  ⟨by decide, by decide, by decide,
    ((pick_order mixedTasks).2.2 putBack.1 putBack.2 (reach_after putBackRun)).1⟩

end Yaaf.Async
