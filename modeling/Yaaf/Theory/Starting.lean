import Yaaf.Theory.Handlers

/-!
# Start before Messages

`add_actor` publishes an actor in the maps and posts its `on_start` after
that, and `on_start` takes no busy flag. So the order of `on_start` and the
first message is the order in which the pool gets to the two tasks, and that
depends on how many threads it has.

With one thread the pool is a queue: what is posted first is done first, and
it is enough that `on_start` was posted before the first apply task. With more
threads it has to be over. `StartsFirst` says so, for the step in which the
worker posts an apply task. It also says, for more than one thread, that no
`on_start` is posted, or called by a `REINIT`, while a handler of the object
may be running, which an object registered a second time can run into.

The argument is about one list, the tasks of the threads followed by those of
the queue. A pick does not change it, a post appends to it, and the end of a
task removes from it.

## Main definitions

* `System.pipeline`: The tasks ahead of a task.
* `StartsFirst`: The condition on what is posted when.
* `Ahead`: Every apply task has its `on_start` ahead of it or behind it in
  time.
* `Apart`: With more than one thread, starts and dispatches exclude each
  other.

## Theorems

* `step_ahead`, `step_apart`: Steps that meet the condition keep both.
* `start_before_messages`: Starts come first in runs that meet the condition.
-/

namespace Yaaf

open Slots Trace

variable {π : Type}

/-- What the threads are executing, then what waits for them. -/
def System.pipeline (s : System π) : List Task :=
  s.running.map Running.task ++ s.queue

/-- A queued `on_start` of `a`. -/
def Task.starts (a : ActorPtr) : Task → Bool
  | .onStart b _ => b = a
  | _ => false

/-- A thread inside an `on_start` of `a`. -/
def Running.starts (a : ActorPtr) : Running π → Bool
  | .starting b _ => b = a
  | .applying t pc => t.target.actor = a && pc.restarts

/-- An `on_start` of `a` is queued or is running. -/
def System.starts (s : System π) (a : ActorPtr) : Bool :=
  s.queue.any (Task.starts a) || s.running.any (Running.starts a)

/-- The `on_start` calls that have returned. -/
def Event.started? : Event π → Option (ActorPtr × MailboxPtr)
  | .startEnd a m => some (a, m)
  | _ => none

def System.started (s : System π) : List (ActorPtr × MailboxPtr) :=
  s.trace.filterMap Event.started?

/-- What the step posts for the worker, if the thread manager takes it. -/
def System.postsApply (s : System π) : Action π → Option (MailboxPtr × Description)
  | .worker _ => match s.worker with
    | .scan _ _ (.posting m d) => if s.accepts then some (m, d) else none
    | _ => none
  | _ => none

/-- The object whose `on_start` the step posts or calls. -/
def System.begins (s : System π) : Action π → Option ActorPtr
  | .add i _ => match s.adding[i]? with
    | some ⟨_, a, _, .inserted _⟩ => if s.accepts then some a else none
    | _ => none
  | .task i _ => match s.running[i]? with
    | some (.applying t (.deciding _ .reinit)) => some t.target.actor
    | _ => none
  | _ => none

/-- An apply task is posted when its `on_start` is over, or ahead of it in a
    pool of one thread. With more threads no `on_start` begins while a handler
    may be running. -/
def StartsFirst (cfg : Config) (s : System π) (x : Action π) : Prop :=
  (∀ y ∈ s.postsApply x,
    ((y.2.actor, y.1) ∈ s.started ∨ Task.onStart y.2.actor y.1 ∈ s.pipeline) ∧
      (cfg.userThreads ≤ 1 ∨ s.starts y.2.actor = false)) ∧
  ∀ a ∈ s.begins x, cfg.userThreads ≤ 1 ∨ s.engages a = false

instance (cfg : Config) (s : System π) (x : Action π) : Decidable (StartsFirst cfg s x) :=
  inferInstanceAs (Decidable ((∀ y ∈ s.postsApply x, _) ∧ ∀ a ∈ s.begins x, _))

/-- The `on_start` of a queued or executing apply task has returned or is ahead
    of it. -/
def Ahead (s : System π) : Prop :=
  ∀ pre t post, s.pipeline = pre ++ .apply t :: post →
    .startEnd t.target.actor t.mb ∈ s.trace ∨ .onStart t.target.actor t.mb ∈ pre

/-- No more threads than there are, and with more than one of them no object
    has a start and a dispatch at the same time. -/
structure Apart (cfg : Config) (s : System π) : Prop where
  threads : s.running.length ≤ cfg.userThreads
  apart : cfg.userThreads ≤ 1 ∨ ∀ a, s.starts a = true → s.engages a = false

/-- No handler call comes before the return of its `on_start`. -/
def Preceded (s : System π) : Prop :=
  ∀ pre a m e post, s.trace = pre ++ .handleBegin a m e :: post → .startEnd a m ∈ pre

section Starting

variable {cfg : Config} {s s' : System π} {x : Action π}

theorem started_mem {a : ActorPtr} {m : MailboxPtr} (h : (a, m) ∈ s.started) :
    .startEnd a m ∈ s.trace := by
  rcases List.mem_filterMap.mp h with ⟨ev, hev, hs⟩
  cases ev with
  | startEnd b n =>
      simp only [Event.started?, Option.some.injEq, Prod.mk.injEq] at hs
      rw [← hs.1, ← hs.2]
      exact hev
  | _ => exact absurd hs (by simp only [Event.started?, reduceCtorEq, not_false_eq_true])

theorem taken_task (t : Task) : (t.taken (π := π)).task = t := by
  cases t <;> rfl

/-- The condition, as it is used: what a step posts has its start in order. -/
theorem postsApply_of_posts {t : ApplyTask} (h : Posts s x (.apply t)) (hacc : s.accepts = true) :
    s.postsApply x = some (t.mb, t.target) := by
  cases h with
  | apply st todo rm m d p hw => simp only [System.postsApply, hw, hacc, if_true]

theorem step_ahead (hs : step cfg s x = some s') (hreg : Registered s) (hc : StartsFirst cfg s x)
    (h : Ahead s) : Ahead s' := by
  have hkeep : ∀ {ev : Event π}, ev ∈ s.trace → ev ∈ s'.trace :=
    fun hev => mem_of_grows (step_grows hs hreg) hev
  -- The pipeline is the running tasks and the queue behind them, so a pick moves
  -- nothing in it.
  have hsame : s'.pipeline = s.pipeline → Ahead s' := by
    intro heq pre t post hp
    rw [heq] at hp
    rcases h pre t post hp with hstart | hstart
    · exact Or.inl (hkeep hstart)
    · exact Or.inr hstart
  cases poolRule_of_stepRule (stepRule_of_step hs).2 with
  | same hq hr => exact hsame (by unfold System.pipeline; rw [hq, hr])
  | post t' ht hr hq =>
      rcases hq with ⟨hq, _, hacc⟩ | ⟨hq, _⟩
      · intro pre t post hp
        have hpipe : s'.pipeline = s.pipeline ++ [t'] := by
          unfold System.pipeline
          rw [hq, hr, List.append_assoc]
        rw [hpipe] at hp
        rcases split_of_append hp with ⟨post', hold, _⟩ | ⟨pre', hpre, hnew⟩
        · rcases h pre t post' hold with hstart | hstart
          · exact Or.inl (hkeep hstart)
          · exact Or.inr hstart
        · -- The new task is the last, with everything else ahead of it.
          have htask : t' = .apply t := by
            have hmem : Task.apply t ∈ [t'] := by
              rw [hnew]
              exact List.mem_append_right _ List.mem_cons_self
            exact (List.mem_singleton.mp hmem).symm
          rw [htask] at ht
          rcases (hc.1 _ (postsApply_of_posts ht hacc)).1 with hstart | hstart
          · exact Or.inl (hkeep (started_mem hstart))
          · exact Or.inr (by rw [hpre]; exact List.mem_append_left _ hstart)
      · exact hsame (by unfold System.pipeline; rw [hq, hr])
  | pick t rest hq hq' hr =>
      refine hsame ?_
      unfold System.pipeline
      rw [hq, hq', hr, List.map_append, List.map_singleton, taken_task, List.append_assoc,
        List.singleton_append]
  | move st i t pc pc' hi hq hr =>
      refine hsame ?_
      rcases slot_split hi with ⟨pre, post, hl, hset, _⟩
      unfold System.pipeline
      rw [hq, hr, hset, hl]
      simp only [List.map_append, List.map_cons, Running.task]
  -- A task leaves from anywhere in the pipeline.
  | finish st i r hi hq hr hd hend =>
      intro pre t post hp
      rcases slot_split hi with ⟨before, after, hl, _, herase⟩
      have hpipe' : before.map Running.task ++ (after.map Running.task ++ s.queue) =
          pre ++ .apply t :: post := by
        rw [← hp]
        unfold System.pipeline
        rw [hq, hr, herase, List.map_append, List.append_assoc]
      have hpipe : s.pipeline =
          before.map Running.task ++ r.task :: (after.map Running.task ++ s.queue) := by
        unfold System.pipeline
        rw [hl, List.map_append, List.map_cons, List.append_assoc, List.cons_append]
      rcases split_of_erased (x := r.task) hpipe' with ⟨pre', post', hsplit, hpre'⟩
      rcases h pre' t post' (hpipe.trans hsplit) with hstart | hstart
      · exact Or.inl (hkeep hstart)
      · rcases hpre' _ hstart with hstart | hdone
        · exact Or.inr hstart
        · -- The task that ended was the start.
          cases r with
          | starting b n =>
              simp only [Running.task, Task.onStart.injEq] at hdone
              exact Or.inl (hend _ _ (by rw [hdone.1, hdone.2]))
          | applying u pc =>
              exact absurd hdone (by simp only [Running.task, reduceCtorEq, not_false_eq_true])

theorem starts_iff {a : ActorPtr} : s.starts a = true ↔
    (∃ t ∈ s.queue, t.starts a = true) ∨ ∃ r ∈ s.running, r.starts a = true := by
  unfold System.starts
  rw [Bool.or_eq_true, List.any_eq_true, List.any_eq_true]

/-- A start that was not there before is one the step begins. -/
theorem step_starts (hs : step cfg s x = some s') {a : ActorPtr} (h : s'.starts a = true) :
    s.starts a = true ∨ s.begins x = some a := by
  rw [starts_iff] at h ⊢
  cases poolRule_of_stepRule (stepRule_of_step hs).2 with
  | same hq hr =>
      rw [hq, hr] at h
      exact Or.inl h
  | post t' ht hr hq =>
      rw [hr] at h
      rcases h with ⟨t, hmem, hstarts⟩ | h
      · rcases hq with ⟨hq, _, hacc⟩ | ⟨hq, _⟩ <;> rw [hq] at hmem
        · rcases List.mem_append.mp hmem with hmem | hmem
          · exact Or.inl (Or.inl ⟨t, hmem, hstarts⟩)
          -- The post is a start, and it is posted by the call of `add_actor`.
          · rw [List.mem_singleton.mp hmem] at hstarts
            cases ht with
            | start st i c m hi hc =>
                rcases c with ⟨n, b, id, stage⟩
                simp only at hc
                rw [hc] at hi
                have hb : b = a := of_decide_eq_true hstarts
                refine Or.inr ?_
                simp only [System.begins, hi, hacc, if_true, hb]
            | apply => exact absurd hstarts Bool.false_ne_true
        · exact Or.inl (Or.inl ⟨t, hmem, hstarts⟩)
      · exact Or.inl (Or.inr h)
  | pick t' rest hq hq' hr =>
      rw [hq', hr] at h
      refine Or.inl ?_
      rcases h with ⟨t, hmem, hstarts⟩ | ⟨r, hmem, hstarts⟩
      · exact Or.inl ⟨t, by rw [hq]; exact List.mem_cons_of_mem _ hmem, hstarts⟩
      · rcases List.mem_append.mp hmem with hmem | hmem
        · exact Or.inr ⟨r, hmem, hstarts⟩
        · refine Or.inl ⟨t', by rw [hq]; exact List.mem_cons_self, ?_⟩
          rw [List.mem_singleton.mp hmem] at hstarts
          cases t' with
          | onStart b m => exact hstarts
          | apply t =>
              simp only [Task.taken, Running.starts, ApplyPc.restarts, Bool.and_false,
                Bool.false_eq_true] at hstarts
  | move st i t pc pc' hi hq hr hd hmove =>
      rw [hq, hr] at h
      rcases h with h | ⟨r, hmem, hstarts⟩
      · exact Or.inl (Or.inl h)
      · rcases List.mem_or_eq_of_mem_set hmem with hmem | rfl
        · exact Or.inl (Or.inr ⟨r, hmem, hstarts⟩)
        -- The other way to begin an `on_start` is a `REINIT`.
        · simp only [Running.starts, Bool.and_eq_true, decide_eq_true_eq] at hstarts
          rcases hmove.restarts hstarts.2 with ⟨f, rfl⟩
          refine Or.inr ?_
          simp only [System.begins, hi, hstarts.1]
  | finish st i r hi hq hr =>
      rw [hq, hr] at h
      rcases h with h | ⟨r', hmem, hstarts⟩
      · exact Or.inl (Or.inl h)
      · exact Or.inl (Or.inr ⟨r', List.mem_of_mem_eraseIdx hmem, hstarts⟩)

/-- A dispatch that was not there before is one the worker posts. -/
theorem step_engages (hs : step cfg s x = some s') {a : ActorPtr} (h : s'.engages a = true) :
    s.engages a = true ∨ ∃ y, s.postsApply x = some y ∧ y.2.actor = a := by
  rcases poolRule_dispatches (poolRule_of_stepRule (stepRule_of_step hs).2) (engages_iff.mp h) with
    hd | ⟨t, ht, hacc, ha⟩
  · exact Or.inl (engages_iff.mpr hd)
  · exact Or.inr ⟨_, postsApply_of_posts ht hacc, ha⟩

theorem begins_or_posts {a : ActorPtr} {y : MailboxPtr × Description}
    (hb : s.begins x = some a) (hp : s.postsApply x = some y) : False := by
  cases x with
  | worker st => exact absurd hb (by simp only [System.begins, reduceCtorEq, not_false_eq_true])
  | _ => exact absurd hp (by simp only [System.postsApply, reduceCtorEq, not_false_eq_true])

theorem step_apart (hs : step cfg s x = some s') (hc : StartsFirst cfg s x) (h : Apart cfg s) :
    Apart cfg s' where
  threads := by
    have hlen := h.threads
    cases poolRule_of_stepRule (stepRule_of_step hs).2 with
    | same hq hr => rw [hr]; exact hlen
    | post t ht hr => rw [hr]; exact hlen
    | pick t rest hq hq' hr hd hn =>
        rw [hr, List.length_append, List.length_singleton]
        exact hn
    | move st i t pc pc' hi hq hr =>
        rw [hr, List.length_set]
        exact hlen
    | finish st i r hi hq hr =>
        rw [hr]
        exact Nat.le_trans (List.length_eraseIdx_le s.running i) hlen
  apart := by
    rcases Nat.lt_or_ge 1 cfg.userThreads with hmany | hone
    · have hnot : ¬ cfg.userThreads ≤ 1 := Nat.not_le.mpr hmany
      have hold := h.apart.resolve_left hnot
      refine Or.inr fun a hstarts => ?_
      by_contra heng
      rw [Bool.not_eq_false] at heng
      -- Either half may be new, but a step makes one of them at most.
      rcases step_starts hs hstarts with hstarts | hbegins <;>
        rcases step_engages hs heng with heng | ⟨y, hy, rfl⟩
      · rw [hold a hstarts] at heng
        exact Bool.false_ne_true heng
      · rw [((hc.1 y hy).2.resolve_left hnot)] at hstarts
        exact Bool.false_ne_true hstarts
      · rw [(hc.2 a hbegins).resolve_left hnot] at heng
        exact Bool.false_ne_true heng
      · exact begins_or_posts hbegins hy
    · exact Or.inl hone

/-- A thread that has an envelope in hand has its start behind it. -/
theorem started_of_popped (ha : Ahead s) (hp : Apart cfg s) {t : ApplyTask} {e : Stored π}
    (ht : Running.applying t (.popped e) ∈ s.running) :
    .startEnd t.target.actor t.mb ∈ s.trace := by
  rcases List.append_of_mem ht with ⟨pre, post, hrun⟩
  have hpipe : s.pipeline =
      pre.map Running.task ++ .apply t :: (post.map Running.task ++ s.queue) := by
    unfold System.pipeline
    rw [hrun, List.map_append, List.map_cons, List.append_assoc, List.cons_append]
    rfl
  rcases ha _ t _ hpipe with hstart | hstart
  · exact hstart
  · -- The start is still running, which leaves room for one thread only.
    rcases List.mem_map.mp hstart with ⟨r, hr, htask⟩
    have hstarts : r.starts t.target.actor = true := by
      cases r with
      | starting b n =>
          simp only [Running.task, Task.onStart.injEq] at htask
          exact decide_eq_true htask.1
      | applying u pc =>
          exact absurd htask (by simp only [Running.task, reduceCtorEq, not_false_eq_true])
    have hmem : r ∈ s.running := by
      rw [hrun]
      exact List.mem_append_left _ hr
    rcases hp.apart with hone | hapart
    · have hlen := hp.threads
      have hpos := List.length_pos_of_mem hr
      rw [hrun, List.length_append, List.length_cons] at hlen
      omega
    · have hno := hapart _ (starts_iff.mpr (Or.inr ⟨r, hmem, hstarts⟩))
      rw [engages_iff.mpr (dispatches_of_popped ht rfl)] at hno
      exact absurd hno.symm Bool.false_ne_true

theorem step_preceded (hs : step cfg s x = some s') (ha : Ahead s) (hp : Apart cfg s)
    (h : Preceded s) : Preceded s' := by
  rcases step_origin hs with ⟨evs, hevs, horigin⟩
  intro pre a m e post htrace
  rw [hevs] at htrace
  rcases split_of_append htrace with ⟨post', hold, _⟩ | ⟨pre', hpre, hnew⟩
  · exact h pre a m e post' hold
  · have hmem : Event.handleBegin a m e ∈ evs := by
      rw [hnew]
      exact List.mem_append_right _ List.mem_cons_self
    rcases horigin _ hmem with ⟨t, ht, rfl, rfl⟩
    rw [hpre]
    exact List.mem_append_left _ (started_of_popped ha hp ht)

/-- No thread is in a handler of an object that another is starting. -/
theorem not_handles_of_starts (hp : Apart cfg s) {a : ActorPtr} {r r' : Running π}
    (hr : r ∈ s.running) (hr' : r' ∈ s.running) (hstarts : r.starts a = true) :
    r'.handles a = false := by
  cases hh : r'.handles a with
  | false => rfl
  | true =>
      -- One thread is not in both, so there are two of them.
      have hdiff : r' ≠ r := by
        rintro rfl
        unfold Running.handles at hh
        split at hh
        · simp only [Running.starts, ApplyPc.restarts, Bool.and_false, Bool.false_eq_true]
            at hstarts
        · exact Bool.false_ne_true hh
      rcases hp.apart with hone | hapart
      · have hlen := Nat.le_trans hp.threads hone
        rcases List.getElem?_of_mem hr with ⟨i, hi⟩
        rcases List.getElem?_of_mem hr' with ⟨j, hj⟩
        have hij : j ≠ i := by
          rintro rfl
          rw [hi, Option.some.injEq] at hj
          exact hdiff hj.symm
        have htwo := two_le_countP (p := fun _ => true) hi hj hij rfl rfl
        have hle : s.running.countP (fun _ => true) ≤ s.running.length := List.countP_le_length
        omega
      · have hno := hapart a (starts_iff.mpr (Or.inr ⟨r, hr, hstarts⟩))
        have heng : s.engages a = true := by
          refine engages_iff.mpr (Or.inr ?_)
          unfold Running.handles at hh
          split at hh
          · rename_i t e
            exact ⟨t, .handling e, hr', rfl, of_decide_eq_true hh⟩
          · exact absurd hh Bool.false_ne_true
        rw [heng] at hno
        exact absurd hno.symm Bool.false_ne_true

/-- `make_context` posts starts and nothing else. -/
theorem makeContext_started (name : String) : Ahead (makeContext (π := π) cfg name) ∧
    Apart cfg (makeContext (π := π) cfg name) ∧ Preceded (makeContext (π := π) cfg name) := by
  refine ⟨fun pre t post hp => ?_, ⟨?_, Or.inr fun a _ => ?_⟩, fun pre a m e post ht => ?_⟩
  · have hmem : Task.apply t ∈ (makeContext (π := π) cfg name).pipeline := by
      rw [hp]
      exact List.mem_append_right _ List.mem_cons_self
    unfold System.pipeline at hmem
    rw [makeContext_running] at hmem
    exact absurd hmem (makeContext_queue t)
  · rw [makeContext_running]
    exact Nat.zero_le _
  · by_contra heng
    rw [Bool.not_eq_false] at heng
    rcases engages_iff.mp heng with ⟨t, ht, _⟩ | ⟨t, pc, ht, _⟩
    · exact makeContext_queue t ht
    · rw [makeContext_running] at ht
      exact List.not_mem_nil ht
  · have hmem : Event.handleBegin a m e ∈ (makeContext (π := π) cfg name).trace := by
      rw [ht]
      exact List.mem_append_right _ List.mem_cons_self
    exact absurd (makeContext_trace hmem) Bool.false_ne_true

theorem reach_started {name : String} (h : (context cfg name).Reach (StartsFirst cfg) s) :
    Ahead s ∧ Apart cfg s ∧ Preceded s := by
  refine Machine.invariant_of (fun s => Registered s)
    (fun s => Ahead s ∧ Apart cfg s ∧ Preceded s) (fun s h => reach_registered h)
    (makeContext_started name) (fun s x s' hc hs hreg _ h => ?_) h
  rcases h with ⟨ha, hp, hpre⟩
  exact ⟨step_ahead hs hreg hc ha, step_apart hs hc hp, step_preceded hs ha hp hpre⟩

end Starting

/-- Start before messages. While apply tasks are posted behind their starts, a
    handler call comes after the return of its `on_start`, and no thread is in
    an `on_start` of an object while another is in its handler. -/
theorem start_before_messages {cfg : Config} {name : String} {s : System π}
    (h : (context cfg name).Reach (StartsFirst cfg) s) :
    (∀ pre a m e post, s.trace = pre ++ .handleBegin a m e :: post → .startEnd a m ∈ pre) ∧
    ∀ a, ∀ r ∈ s.running, ∀ r' ∈ s.running, r.starts a = true → r'.handles a = false := by
  rcases reach_started h with ⟨_, hapart, hpreceded⟩
  exact ⟨hpreceded, fun a r hr r' hr' hstarts => not_handles_of_starts hapart hr hr' hstarts⟩

/-- A message for `a` is dispatched while the start of `a` is still queued,
    and the only thread gets to both. -/
def queuedRun : List (Action Nat) :=
  register "a" .null 3 ++
    [.call (.sendEnvelope ⟨⟨4⟩, "/root/usr/a"⟩ ⟨some 0, .null⟩)] ++
    dispatchPass ⟨4⟩ [⟨1⟩, ⟨2⟩, ⟨3⟩] ++ runStarts 4 ++
    [.pick, .task 0 .entry, .task 0 .tryPop, .task 0 .callHandler]

theorem start_before_messages_queued :
    ((context (.plain 1) "ctx").after queuedRun).trace =
        ((context (.plain 1) "ctx").after queuedRun).trace.take 21 ++
          [.handleBegin 3 3 ⟨⟨some 0, .null⟩, rfl⟩] ∧
      .startEnd 3 3 ∈ ((context (.plain 1) "ctx").after queuedRun).trace.take 21 := by
  have hlast : ((context (.plain 1) "ctx").after queuedRun).trace =
      ((context (.plain 1) "ctx").after queuedRun).trace.take 21 ++
        [.handleBegin 3 3 ⟨⟨some 0, .null⟩, rfl⟩] := rfl
  exact ⟨hlast, (start_before_messages (Machine.reach_meets queuedRun (by decide))).1 _ 3 3 _ []
    hlast⟩

/-- The worker finds the actor in the maps before its start is posted. -/
def earlyRun : List (Action Nat) :=
  [.call (.addActor "a" .null 3), .add 0 .lookup, .add 0 (.init true), .add 0 .insert] ++
    runStarts 3 ++ [.call (.sendEnvelope ⟨⟨4⟩, "/root/usr/a"⟩ ⟨some 0, .null⟩)] ++
    dispatchPass ⟨4⟩ [⟨1⟩, ⟨2⟩, ⟨3⟩] ++
    [.add 0 .post, .pick, .task 0 .entry, .task 0 .tryPop, .task 0 .callHandler]

/-- A second thread takes the message while the first is inside `on_start`. -/
def overlapRun : List (Action Nat) :=
  register "a" .null 3 ++ runStarts 3 ++
    [.pick, .call (.sendEnvelope ⟨⟨4⟩, "/root/usr/a"⟩ ⟨some 0, .null⟩)] ++
    dispatchPass ⟨4⟩ [⟨1⟩, ⟨2⟩, ⟨3⟩] ++
    [.pick, .task 1 .entry, .task 1 .tryPop, .task 1 .callHandler]

/-- A handler begins before its `on_start`, and one begins during it. -/
theorem start_before_messages_early :
    (∃ s, (context (π := Nat) (.plain 1) "ctx").Reach Machine.free s ∧
      (∃ e, .handleBegin 3 3 e ∈ s.trace) ∧ .startEnd 3 3 ∉ s.trace) ∧
    ∃ s, (context (π := Nat) (.plain 2) "ctx").Reach Machine.free s ∧
      (∃ r ∈ s.running, r.starts 3 = true) ∧ ∃ r ∈ s.running, r.handles 3 = true := by
  refine ⟨⟨(context (.plain 1) "ctx").after earlyRun, Machine.reach_after _,
    ⟨⟨⟨some 0, .null⟩, rfl⟩, List.mem_of_getElem? (i := 19) rfl⟩, fun hmem => ?_⟩, ?_⟩
  · have hstarted : (3, 3) ∈ ((context (.plain 1) "ctx").after earlyRun).started :=
      List.mem_filterMap.mpr ⟨_, hmem, rfl⟩
    exact absurd hstarted (by decide)
  · exact ⟨(context (.plain 2) "ctx").after overlapRun, Machine.reach_after _,
      by decide, by decide⟩

end Yaaf
