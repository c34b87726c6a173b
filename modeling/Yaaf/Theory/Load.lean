import Yaaf.Library.Potential
import Yaaf.Theory.Delivery
import Yaaf.Theory.Passes

/-!
# What Is Left to Do

How much a context has still to do when nobody asks for more, as a number: the steps
that its pool and its worker have left at most, counted over everything that is on its
way. A publication is to be handed to each subscriber, an envelope to be popped and
handled, a mailbox with mail that nobody is coming for to get a task, a task to be picked
and worked off.

The mailbox is where this takes care. An envelope in it costs the same whether or not a
task is on its way, and the task is paid for by the first envelope that finds nobody
coming. A handler that throws leaves the rest of the mailbox behind, so each envelope
has also to pay for the task that comes for the ones after it.

`Wanes` is a step of a thread seen this way. The steps that are left out are those with
which an exception leaves the process, and the answer `ESCALATE`.

## Main definitions

* `TaskStep.obliges`, `Action.obliges`: The steps of the pool and of the worker in which
  nothing escapes and nobody escalates.
* `System.awaited`: Somebody is coming for a mailbox.
* `System.load`: What is left to do.
* `Wanes`: A step of a thread, as far as that goes.
* `Supervised`, `InHand`: What the steps rest on, to be shown of every state.

## Theorems

* `wanes_of_step`: Every such step of a thread is one of these.
* `not_awaited`: Nobody comes for the mailbox of an actor that the worker has locked.
* `load_of_wanes`, `pick_load`, `worker_load`: What becomes of the load.
-/

namespace Yaaf

open Potential Slots

variable {π : Type}

/-- Nothing escapes from the thread, and nobody answers `ESCALATE`. -/
def TaskStep.obliges : TaskStep → Bool
  | .startReturn throws | .decide throws | .restartReturn throws => !throws
  | .childError answer => answer = some .reinit || answer = some .stop || answer = some .resume
  | .handlerAbort | .lockShared | .escalate _ => false
  | _ => true

/-- A step of the pool or of the worker of this kind. -/
def Action.obliges : Action π → Bool
  | .pick | .worker _ => true
  | .task _ st => st.obliges
  | _ => false

/-- The steps with which the framework goes on by itself. -/
def Obliging (_ : System π) (a : Action π) : Prop :=
  a.obliges = true

instance (s : System π) (a : Action π) : Decidable (Obliging s a) :=
  inferInstanceAs (Decidable (a.obliges = true))

/-- The positions from which the mailbox is looked at again. -/
def ApplyPc.pops : ApplyPc π → Bool
  | .entry | .draining | .popped _ | .handling _ => true
  | _ => false

/-- The positions of an `ESCALATE` loop. -/
def ApplyPc.climbs : ApplyPc π → Bool
  | .locking _ | .escalating _ _ => true
  | _ => false

/-- The positions after an answer of the parent. -/
def ApplyPc.answered : ApplyPc π → Bool
  | .locking _ | .escalating _ _ | .deciding _ _ => true
  | _ => false

/-- A task that comes for a mailbox. -/
def Task.awaits (m : MailboxPtr) : Task → Bool
  | .onStart _ _ => false
  | .apply t => t.mb = m

/-- A thread that comes for a mailbox, or comes back to it. -/
def Running.awaits (m : MailboxPtr) : Running π → Bool
  | .starting _ _ => false
  | .applying t pc => t.mb = m && pc.pops

/-- A thread in an `ESCALATE` loop. -/
def Running.climbs : Running π → Bool
  | .starting _ _ => false
  | .applying _ pc => pc.climbs

/-- The steps a thread has left, whatever the outcome of each, but for what the mailbox
    holds. Nobody is in an `ESCALATE` loop. -/
def ApplyPc.load : ApplyPc π → Nat
  | .locking _ | .escalating _ _ => 0
  | .restarting _ => 1
  | .deciding _ _ => 2
  | .caught _ => 3
  | .returned => 4
  | .resetting _ => 5
  | .drained | .threw _ => 6
  | .draining => 7
  | .entry => 8
  -- The handler may throw, and then somebody has to come for the rest.
  | .handling _ => 17
  | .popped _ => 18

def Running.load : Running π → Nat
  | .starting _ _ => 1
  | .applying _ pc => pc.load

def Task.load : Task → Nat
  | .onStart _ _ => 2
  | .apply _ => 9

/-- What the publications in an exchange have left, each for its subscribers. -/
def ExchangeT.load (ex : ExchangeT π) : Nat :=
  ex.pub.length * (23 * ex.subscribes.length + 2)

/-- What the publication has left that the worker has in hand. -/
def WorkerPc.load : WorkerPc π → Nat
  | .delivering _ _ ids _ => 23 * ids.length + 1
  | _ => 0

namespace System

/-- Somebody is coming for a mailbox. -/
def awaited (s : System π) (m : MailboxPtr) : Bool :=
  s.queue.any (Task.awaits m) || s.running.any (Running.awaits m)

/-- What a mailbox has left: what it holds, and a task if nobody is coming for it. -/
def boxLoad (s : System π) (m : MailboxPtr) : Nat :=
  12 * (s.boxes m).length + if (s.boxes m).isEmpty || s.awaited m then 0 else 10

def mailLoad (s : System π) : Nat :=
  ∑ m ∈ Finset.range s.nextBox, s.boxLoad m

def poolLoad (s : System π) : Nat :=
  (s.queue.map Task.load).sum + (s.running.map Running.load).sum

def exchangeLoad (s : System π) : Nat :=
  valueSum ExchangeT.load s.exchanges

/-- What is left to do. -/
def load (s : System π) : Nat :=
  s.mailLoad + s.poolLoad + s.exchangeLoad + s.worker.load

/-- A step of the worker that does some of it. -/
def serves (s : System π) : Bool :=
  match s.worker with
  | .draining x _ => match s.exchanges.lookup x with
    | none => false
    | some ex => !ex.pub.isEmpty
  | .delivering _ _ _ _ | .scan _ _ (.posting _ _) => true
  | _ => false

/-- A step that does some of it. -/
def works (s : System π) : Action π → Bool
  | .pick | .task _ _ => true
  | .worker _ => s.serves
  | _ => false

end System

/-- What a step of a thread leaves alone. -/
structure SamePlaces (s s' : System π) : Prop where
  fate : s'.fate = s.fate
  shutdown : s'.shutdown = s.shutdown
  queue : s'.queue = s.queue
  exchanges : s'.exchanges = s.exchanges
  worker : s'.worker = s.worker
  nextBox : s'.nextBox = s.nextBox

/-- A step of the thread in a slot, as far as the load goes: it moves on, it pops an
    envelope, or it is done. -/
inductive Wanes (s s' : System π) (i : Nat) : Running π → Prop
  | moves (t : ApplyTask) (pc pc' : ApplyPc π)
      (hr : s'.running = s.running.set i (.applying t pc')) (hb : s'.boxes = s.boxes)
      (hless : pc'.load < pc.load) (hclimb : pc'.climbs = false)
      (hmail : pc.pops = true →
        pc'.pops = true ∨ s.boxes t.mb = [] ∨ pc'.load + 10 < pc.load) :
      Wanes s s' i (.applying t pc)
  | pops (t : ApplyTask) (e : Stored π) (rest : List (Stored π)) (hm : s.boxes t.mb = e :: rest)
      (hr : s'.running = s.running.set i (.applying t (.popped e)))
      (hb : s'.boxes = Function.update s.boxes t.mb rest) : Wanes s s' i (.applying t .draining)
  | ends (r : Running π) (hr : s'.running = s.running.eraseIdx i) (hb : s'.boxes = s.boxes)
      (hpops : ∀ m, r.awaits m = false) (hload : 0 < r.load) : Wanes s s' i r

/-- Whoever has an answer has a parent. -/
def Supervised (s : System π) : Prop :=
  ∀ t pc, Running.applying t pc ∈ s.running → pc.answered = true → t.parent.isSome = true

section Threads

variable {cfg : Config} {s s' : System π} {i : Nat} {t : ApplyTask}

theorem awaits_none {pc : ApplyPc π} (hpc : pc.pops = false) (m : MailboxPtr) :
    Running.awaits m (.applying t pc) = false := by
  simp only [Running.awaits, hpc, Bool.and_false]

theorem holdsBusy_of_pops {pc : ApplyPc π} (h : pc.pops = true) : pc.holdsBusy = true := by
  cases pc <;> first | rfl | exact absurd h Bool.false_ne_true

/-- A thread whose task ends at this position is done. -/
theorem wanes_done {pc : ApplyPc π} (hpops : pc.pops = false) (hload : 0 < pc.load)
    (hr : s'.running = s.running.eraseIdx i) (hb : s'.boxes = s.boxes) :
    Wanes s s' i (.applying t pc) :=
  .ends _ hr hb (awaits_none hpops) hload

/-- A thread that does not look at its mailbox any more moves on. -/
theorem wanes_walk {pc : ApplyPc π} (pc' : ApplyPc π) (hpops : pc.pops = false)
    (hr : s'.running = s.running.set i (.applying t pc')) (hb : s'.boxes = s.boxes)
    (hless : pc'.load < pc.load) (hclimb : pc'.climbs = false) :
    Wanes s s' i (.applying t pc) :=
  .moves t pc pc' hr hb hless hclimb fun h => absurd (hpops.symm.trans h) Bool.false_ne_true

/-- The decision on a failure is carried out. -/
theorem wanes_of_decision {h throws : Bool} {action : ActorActionWhenError}
    (hs : onActorError cfg s i t h action throws = some s') (hthrows : throws = false)
    (hparent : t.parent.isSome = true) :
    SamePlaces s s' ∧ Wanes s s' i (.applying t (.deciding h action)) := by
  cases action <;>
    simp only [onActorError, Option.ite_none_right_eq_some, Option.map_eq_some_iff,
      Option.some.injEq] at hs
  case reinit =>
      rcases hs with ⟨_, u, hu, rfl⟩
      have hrest := (stopActorImplSafety_stops hu).1.rest
      rw [hrest]
      exact ⟨⟨rfl, rfl, rfl, rfl, rfl, rfl⟩,
        wanes_walk (.restarting h) rfl rfl rfl (Nat.lt_succ_self _) rfl⟩
  case stop =>
      rcases hs with ⟨_, u, hu, rfl⟩
      have hrest := (stopActorImplSafety_stops hu).1.rest
      rw [hrest]
      exact ⟨⟨rfl, rfl, rfl, rfl, rfl, rfl⟩, wanes_done rfl (Nat.succ_pos _) rfl rfl⟩
  case escalate =>
      rw [← hs]
      exact ⟨⟨rfl, rfl, rfl, rfl, rfl, rfl⟩, wanes_done rfl (Nat.succ_pos _) rfl rfl⟩
  case resume =>
      rcases Option.isSome_iff_exists.mp hparent with ⟨p, hp⟩
      simp only [hp, hthrows, Bool.false_eq_true, if_false, Option.some.injEq] at hs
      rw [← hs]
      exact ⟨⟨rfl, rfl, rfl, rfl, rfl, rfl⟩, wanes_done rfl (Nat.succ_pos _) rfl rfl⟩

/-- The first question about a failure is answered. -/
theorem wanes_of_answer {h : Bool} {answer : Option ActorActionWhenError}
    (hs : applyStep cfg s i t (.childError answer) (.caught h) = some s')
    (hanswer : (TaskStep.childError answer).obliges = true) :
    SamePlaces s s' ∧ Wanes s s' i (.applying t (.caught h)) := by
  simp only [applyStep] at hs
  split at hs
  · -- An actor without a parent is stopped.
    rw [Option.ite_none_right_eq_some, Option.map_eq_some_iff] at hs
    rcases hs with ⟨_, u, hu, rfl⟩
    have hrest := (stopActorImplSafety_stops hu).1.rest
    rw [hrest]
    exact ⟨⟨rfl, rfl, rfl, rfl, rfl, rfl⟩, wanes_done rfl (Nat.succ_pos _) rfl rfl⟩
  · exact absurd hanswer (by decide)
  · rename_i action _
    rw [Option.some.injEq] at hs
    cases action with
    | escalate => exact absurd hanswer (by decide)
    | reinit | stop | resume =>
      rw [← hs]
      exact ⟨⟨rfl, rfl, rfl, rfl, rfl, rfl⟩,
        wanes_walk (.deciding h _) rfl rfl rfl (Nat.lt_succ_self _) rfl⟩

/-- A step of an apply task, as far as the load goes. -/
theorem wanes_of_apply {st : TaskStep} {pc : ApplyPc π}
    (hs : applyStep cfg s i t st pc = some s') (hst : st.obliges = true)
    (hsup : pc.answered = true → t.parent.isSome = true) :
    SamePlaces s s' ∧ Wanes s s' i (.applying t pc) := by
  unfold applyStep at hs
  split at hs
  · -- The emptiness test at the top of `apply`.
    rw [Option.some.injEq] at hs
    rw [← hs]
    refine ⟨⟨rfl, rfl, rfl, rfl, rfl, rfl⟩, ?_⟩
    split
    · rename_i hempty
      exact .moves t .entry .drained rfl rfl (by simp only [ApplyPc.load, Nat.reduceLT]) rfl
        fun _ => Or.inr (Or.inl hempty)
    · exact .moves t .entry .draining rfl rfl (Nat.lt_succ_self _) rfl fun _ => Or.inl rfl
  · -- One `try_pop`.
    split at hs <;> rename_i hm <;> rw [Option.some.injEq] at hs <;> rw [← hs]
    · exact ⟨⟨rfl, rfl, rfl, rfl, rfl, rfl⟩,
        .moves t .draining .drained rfl rfl (Nat.lt_succ_self _) rfl fun _ => Or.inr (Or.inl hm)⟩
    · exact ⟨⟨rfl, rfl, rfl, rfl, rfl, rfl⟩, .pops t _ _ hm rfl rfl⟩
  · -- The handler is called.
    rw [Option.some.injEq] at hs
    rw [← hs]
    exact ⟨⟨rfl, rfl, rfl, rfl, rfl, rfl⟩,
      .moves t (.popped _) (.handling _) rfl rfl (Nat.lt_succ_self _) rfl fun _ => Or.inl rfl⟩
  · -- It returns.
    rw [Option.some.injEq] at hs
    rw [← hs]
    exact ⟨⟨rfl, rfl, rfl, rfl, rfl, rfl⟩,
      .moves t (.handling _) .draining rfl rfl (by simp only [ApplyPc.load, Nat.reduceLT]) rfl
        fun _ => Or.inl rfl⟩
  · -- It throws, and the rest of the mailbox is left to another task.
    rw [Option.some.injEq] at hs
    rw [← hs]
    exact ⟨⟨rfl, rfl, rfl, rfl, rfl, rfl⟩,
      .moves t (.handling _) (.threw _) rfl rfl (by simp only [ApplyPc.load, Nat.reduceLT]) rfl
        fun _ => Or.inr (Or.inr (by simp only [ApplyPc.load, Nat.reduceAdd, Nat.reduceLT]))⟩
  · exact absurd hst (by decide)
  · -- The status after the loop.
    rw [Option.some.injEq] at hs
    rw [← hs]
    exact ⟨⟨rfl, rfl, rfl, rfl, rfl, rfl⟩,
      wanes_walk (.resetting false) rfl rfl rfl (Nat.lt_succ_self _) rfl⟩
  · -- The status after the throw.
    rw [Option.some.injEq] at hs
    rw [← hs]
    exact ⟨⟨rfl, rfl, rfl, rfl, rfl, rfl⟩,
      wanes_walk (.resetting true) rfl rfl rfl (Nat.lt_succ_self _) rfl⟩
  · -- The flag, and then a return or a rethrow.
    rename_i rethrow
    rw [Option.some.injEq] at hs
    rw [← hs]
    cases rethrow with
    | false => exact ⟨⟨rfl, rfl, rfl, rfl, rfl, rfl⟩,
        wanes_walk .returned rfl rfl rfl (Nat.lt_succ_self _) rfl⟩
    | true => exact ⟨⟨rfl, rfl, rfl, rfl, rfl, rfl⟩,
        wanes_walk (.caught true) rfl rfl rfl (by simp only [ApplyPc.load, Nat.reduceLT]) rfl⟩
  · -- `on_child_status`, with its three outcomes.
    split at hs
    · rw [Option.some.injEq] at hs
      rw [← hs]
      exact ⟨⟨rfl, rfl, rfl, rfl, rfl, rfl⟩, wanes_done rfl (Nat.succ_pos _) rfl rfl⟩
    · split at hs <;> rw [Option.some.injEq] at hs <;> rw [← hs]
      · exact ⟨⟨rfl, rfl, rfl, rfl, rfl, rfl⟩,
          wanes_walk (.caught false) rfl rfl rfl (Nat.lt_succ_self _) rfl⟩
      · exact ⟨⟨rfl, rfl, rfl, rfl, rfl, rfl⟩, wanes_done rfl (Nat.succ_pos _) rfl rfl⟩
  · -- The first question, or the stop of a parentless actor.
    exact wanes_of_answer (by simpa only [applyStep] using hs) hst
  · exact absurd hst (by decide)
  · exact absurd hst (by simp only [TaskStep.obliges, Bool.false_eq_true, not_false_eq_true])
  · -- `on_actor_error`.
    refine wanes_of_decision hs ?_ (hsup rfl)
    simpa only [TaskStep.obliges, Bool.not_eq_true'] using hst
  · -- `on_start` after a stop, for `REINIT`.
    rename_i throws _
    have hthrows : throws = false := by simpa only [TaskStep.obliges, Bool.not_eq_true'] using hst
    simp only [hthrows, Bool.false_eq_true, if_false, Option.some.injEq] at hs
    rw [← hs]
    exact ⟨⟨rfl, rfl, rfl, rfl, rfl, rfl⟩, wanes_done rfl (Nat.succ_pos _) rfl rfl⟩
  · exact absurd hs (by simp only [reduceCtorEq, not_false_eq_true])

/-- Every step of a thread with which it goes on by itself. -/
theorem wanes_of_step {st : TaskStep} (hs : step cfg s (.task i st) = some s')
    (hst : st.obliges = true) (hsup : Supervised s) :
    ∃ r, s.running[i]? = some r ∧ SamePlaces s s' ∧ Wanes s s' i r := by
  unfold step at hs
  rw [Option.ite_none_right_eq_some] at hs
  have hs := hs.2
  simp only [taskStep] at hs
  split at hs
  · exact absurd hs (by simp only [reduceCtorEq, not_false_eq_true])
  · rename_i a m hi
    refine ⟨_, hi, ?_⟩
    cases st with
    | startReturn throws =>
      have hthrows : throws = false := by
        simpa only [TaskStep.obliges, Bool.not_eq_true'] using hst
      simp only [hthrows, Bool.false_eq_true, if_false, Option.some.injEq] at hs
      rw [← hs]
      exact ⟨⟨rfl, rfl, rfl, rfl, rfl, rfl⟩, .ends _ rfl rfl (fun _ => rfl) Nat.one_pos⟩
    | _ => exact absurd hs (by simp only [reduceCtorEq, not_false_eq_true])
  · rename_i t pc hi
    exact ⟨_, hi, wanes_of_apply hs hst (hsup t pc (List.mem_of_getElem? hi))⟩

end Threads

section Load

variable {cfg : Config} {s s' : System π} {i : Nat} {m : MailboxPtr}

/-- What a mailbox has left does not grow while it holds the same, and whoever was coming
    for it still is. -/
theorem boxLoad_le (hb : s'.boxes m = s.boxes m)
    (ha : s.awaited m = true → s'.awaited m = true) : s'.boxLoad m ≤ s.boxLoad m := by
  unfold System.boxLoad
  rw [hb]
  cases h : s.awaited m with
  | true => rw [ha h, Bool.or_true, if_pos rfl]
  | false =>
      rw [Bool.or_false]
      split <;> split <;> first | omega | simp_all only [Bool.true_or, not_true_eq_false]

/-- It grows by the price of a task, at most. -/
theorem boxLoad_left (hb : s'.boxes m = s.boxes m) : s'.boxLoad m ≤ s.boxLoad m + 10 := by
  unfold System.boxLoad
  rw [hb]
  split <;> split <;> omega

theorem boxLoad_empty (hb : s.boxes m = []) : s.boxLoad m = 0 := by
  unfold System.boxLoad
  rw [hb]
  rfl

/-- Somebody is coming for it. -/
theorem boxLoad_awaited (ha : s.awaited m = true) : s.boxLoad m = 12 * (s.boxes m).length := by
  unfold System.boxLoad
  rw [ha, Bool.or_true, if_pos rfl, Nat.add_zero]

/-- It has mail, and nobody is coming for it. -/
theorem boxLoad_waiting (hb : s.boxes m ≠ []) (ha : s.awaited m = false) :
    s.boxLoad m = 12 * (s.boxes m).length + 10 := by
  unfold System.boxLoad
  rw [ha, Bool.or_false, if_neg (by rwa [List.isEmpty_iff])]

theorem boxLoad_push {e : Stored π} (hb : s'.boxes m = s.boxes m ++ [e])
    (ha : s'.awaited m = s.awaited m) : s'.boxLoad m ≤ s.boxLoad m + 22 := by
  unfold System.boxLoad
  rw [hb, ha, List.length_append, List.length_singleton]
  split <;> split <;> omega

theorem mailLoad_le (hn : s'.nextBox = s.nextBox) (h : ∀ m, s'.boxLoad m ≤ s.boxLoad m) :
    s'.mailLoad ≤ s.mailLoad := by
  unfold System.mailLoad
  rw [hn]
  exact Finset.sum_le_sum fun m _ => h m

/-- Whoever comes for a mailbox still does when another thread moves on. -/
theorem awaited_of_set {x y : Running π} (hi : s.running[i]? = some x) (hq : s'.queue = s.queue)
    (hr : s'.running = s.running.set i y) (hxy : x.awaits m = true → y.awaits m = true)
    (h : s.awaited m = true) : s'.awaited m = true := by
  rcases slot_split hi with ⟨pre, post, hl, hset, _⟩
  unfold System.awaited at h ⊢
  rw [hq, hr, hset]
  rw [hl] at h
  simp only [List.any_append, List.any_cons, Bool.or_eq_true] at h ⊢
  rcases h with h | h | h | h
  · exact Or.inl h
  · exact Or.inr (Or.inl h)
  · exact Or.inr (Or.inr (Or.inl (hxy h)))
  · exact Or.inr (Or.inr (Or.inr h))

theorem awaited_of_erase {x : Running π} (hi : s.running[i]? = some x) (hq : s'.queue = s.queue)
    (hr : s'.running = s.running.eraseIdx i) (hx : x.awaits m = false)
    (h : s.awaited m = true) : s'.awaited m = true := by
  rcases slot_split hi with ⟨pre, post, hl, _, herase⟩
  unfold System.awaited at h ⊢
  rw [hq, hr, herase]
  rw [hl] at h
  simpa only [List.any_append, List.any_cons, hx, Bool.false_or] using h

/-- A thread that moves on or pops has less to do, whatever it leaves behind. -/
theorem load_of_wanes {r : Running π} (hi : s.running[i]? = some r) (hsame : SamePlaces s s')
    (hmb : ∀ t pc, r = .applying t pc → t.mb < s.nextBox) (h : Wanes s s' i r) :
    s'.load < s.load := by
  have hexchange : s'.exchangeLoad = s.exchangeLoad := by
    unfold System.exchangeLoad
    rw [hsame.exchanges]
  have hworker : s'.worker.load = s.worker.load := by rw [hsame.worker]
  unfold System.load System.poolLoad
  rw [hexchange, hworker, hsame.queue]
  cases h with
  | moves t pc pc' hr hb hless hclimb hmail =>
      have hsum := sum_set hi Running.load (.applying t pc')
      simp only [Running.load] at hsum
      rw [hr]
      have hother : ∀ n, n ≠ t.mb → s'.boxLoad n ≤ s.boxLoad n := fun n hn =>
        boxLoad_le (by rw [hb]) (awaited_of_set hi hsame.queue hr fun h => by
          simp only [Running.awaits, Bool.and_eq_true, decide_eq_true_eq] at h
          exact absurd h.1.symm hn)
      have hmoves : ∀ b, s'.boxLoad t.mb ≤ s.boxLoad t.mb + b →
          s'.mailLoad ≤ s.mailLoad + b := by
        intro b hle
        unfold System.mailLoad
        rw [hsame.nextBox]
        exact sum_range_moves (a := 0) (hmb t pc rfl) hother hle
      have hkept : (pc.pops = true → pc'.pops = true) → s'.mailLoad ≤ s.mailLoad := by
        intro hpops
        refine hmoves 0 (boxLoad_le (by rw [hb]) (awaited_of_set hi hsame.queue hr fun h => ?_))
        simp only [Running.awaits, Bool.and_eq_true] at h ⊢
        exact ⟨h.1, hpops h.2⟩
      cases hpops : pc.pops with
      | false =>
          have hle := hkept fun h => absurd (hpops.symm.trans h) Bool.false_ne_true
          omega
      | true =>
          rcases hmail hpops with hpops' | hempty | hless'
          · have hle := hkept fun _ => hpops'
            omega
          · have hle := hmoves 0 (by rw [boxLoad_empty (by rw [hb, hempty])]; exact Nat.zero_le _)
            omega
          · have hle := hmoves 10 (boxLoad_left (by rw [hb]))
            omega
  | pops t e rest hm hr hb =>
      have hsum := sum_set hi Running.load (.applying t (.popped e))
      simp only [Running.load, ApplyPc.load] at hsum
      rw [hr]
      have hbefore : s.awaited t.mb = true := by
        refine Bool.or_eq_true_iff.mpr
          (Or.inr (List.any_eq_true.mpr ⟨_, List.mem_of_getElem? hi, ?_⟩))
        simp only [Running.awaits, ApplyPc.pops, decide_true, Bool.and_self]
      have hafter : ∀ n, s.awaited n = true → s'.awaited n = true := fun n =>
        awaited_of_set hi hsame.queue hr id
      have hmail : s'.mailLoad + 12 ≤ s.mailLoad + 0 := by
        unfold System.mailLoad
        rw [hsame.nextBox]
        refine sum_range_moves (hmb t .draining rfl) (fun n hn => ?_) ?_
        · exact boxLoad_le (by rw [hb, Function.update_of_ne hn]) (hafter n)
        · rw [boxLoad_awaited (hafter _ hbefore), boxLoad_awaited hbefore, hb, hm,
            Function.update_self, List.length_cons]
          omega
      omega
  | ends r hr hb hpops hload =>
      have hsum := sum_eraseIdx hi Running.load
      have hmail := mailLoad_le hsame.nextBox fun n =>
        boxLoad_le (by rw [hb]) (awaited_of_erase hi hsame.queue hr (hpops n))
      rw [hr]
      omega

/-- A thread that takes a task up has done a part of it. -/
theorem pick_load {t : Task} {rest : List Task} (hq : s.queue = t :: rest) :
    ({ s with
      queue := rest
      running := s.running ++ [t.taken]
      trace := s.trace ++ t.takenEvent } : System π).load < s.load := by
  let u : System π := { s with
    queue := rest
    running := s.running ++ [t.taken]
    trace := s.trace ++ t.takenEvent }
  have htaken : ∀ n, t.awaits n = Running.awaits n (t.taken : Running π) := by
    intro n
    cases t with
    | onStart a m => rfl
    | apply t => exact (Bool.and_true _).symm
  have hawaited : ∀ n, u.awaited n = s.awaited n := by
    intro n
    simp only [System.awaited, u, hq, List.any_cons, List.any_append, List.any_nil, Bool.or_false,
      htaken]
    cases Running.awaits n (t.taken : Running π) <;> cases rest.any (Task.awaits n) <;>
      cases s.running.any (Running.awaits n) <;> rfl
  have hmail : u.mailLoad ≤ s.mailLoad :=
    mailLoad_le rfl fun n => boxLoad_le rfl fun h => (hawaited n).trans h
  have hless : (t.taken : Running π).load < t.load := by
    cases t with
    | onStart a m => exact Nat.one_lt_two
    | apply t => exact Nat.lt_succ_self _
  have hpool : u.poolLoad < s.poolLoad := by
    simp only [System.poolLoad, u, hq, List.map_cons, List.sum_cons, List.map_append, List.map_nil,
      List.sum_append, List.sum_nil]
    omega
  have hexchange : u.exchangeLoad = s.exchangeLoad := rfl
  have hworker : u.worker.load = s.worker.load := rfl
  change u.load < s.load
  unfold System.load
  omega

/-- While the worker holds the flag of an actor, nobody comes for its mailbox. -/
theorem not_awaited {todo : List (IdT × MailboxPtr)} {rm : List IdT} {pc : ScanPc}
    {d : Description} (hd : Delivers s) (hw : s.worker = .scan todo rm pc)
    (hpc : pc = .locked m d ∨ pc = .posting m d) : s.awaited m = false := by
  have hheld : s.worker.holds d.actor = true := by
    rw [hw]
    rcases hpc with rfl | rfl <;> exact decide_eq_true rfl
  -- A task for the mailbox is one for the actor.
  have hactor : ∀ t, s.HasTask (.apply t) → t.mb = m → t.target.actor = d.actor := by
    intro t ht hmb
    have hvisit : pc.visit? = some (m, d) := by rcases hpc with rfl | rfl <;> rfl
    rcases visit_entry hd.registered hw hvisit with ⟨k, r, _, _, hr, hrm⟩
    have hown : Task.backed s.registrations (.apply ⟨d, none, m⟩) := ⟨r, hr.mem, hrm, hr.descr⟩
    exact backed_target hd.registered.toFiled (hd.backed _ ht) hown hmb
  have hone : s.outstanding d.actor ≤ 1 := by
    rw [hd.balanced d.actor]
    exact Bool.toNat_le _
  unfold System.outstanding at hone
  rw [hheld, Bool.toNat_true] at hone
  refine Bool.eq_false_iff.mpr fun hawaited => ?_
  rcases Bool.or_eq_true_iff.mp hawaited with h | h
  · rcases List.any_eq_true.mp h with ⟨x, hx, hm⟩
    cases x with
    | onStart a n => exact absurd hm Bool.false_ne_true
    | apply t =>
        have hpos : 0 < s.queue.countP (Task.holds d.actor) := List.countP_pos_iff.mpr
          ⟨_, hx, decide_eq_true (hactor t (Or.inl hx) (of_decide_eq_true hm))⟩
        omega
  · rcases List.any_eq_true.mp h with ⟨x, hx, hm⟩
    cases x with
    | starting a n => exact absurd hm Bool.false_ne_true
    | applying t pc =>
        simp only [Running.awaits, Bool.and_eq_true, decide_eq_true_eq] at hm
        have hholds := holdsBusy_of_pops hm.2
        have htarget := hactor t (Or.inr (Or.inr ⟨_, hx, rfl⟩)) hm.1
        have hpos : 0 < s.running.countP (Running.holds d.actor) := by
          refine List.countP_pos_iff.mpr ⟨_, hx, ?_⟩
          simp only [Running.holds, htarget, hholds, decide_true, Bool.and_self]
        omega

/-- A mailbox that the worker has a task ready for has mail. -/
def InHand (s : System π) : Prop :=
  ∀ todo rm m d, s.worker = .scan todo rm (.posting m d) → s.boxes m ≠ []

/-- Where the worker only moves, its part of the load is all that changes. -/
theorem load_of_move (pc : WorkerPc π) (hs : (s.serves).toNat + pc.load ≤ s.worker.load) :
    ({ s with worker := pc } : System π).load + (s.serves).toNat ≤ s.load := by
  have hload : ({ s with worker := pc } : System π).load + s.worker.load = s.load + pc.load := by
    unfold System.load
    change s.mailLoad + s.poolLoad + s.exchangeLoad + pc.load + _ = _
    omega
  omega

theorem userPost_accepted (hacc : s.accepts = true) (t : Task) :
    s.userPost t = { s with queue := s.queue ++ [t] } := by
  simp only [System.accepts, Bool.and_eq_true, Bool.not_eq_true'] at hacc
  unfold System.userPost
  rw [hacc.1, hacc.2]
  rfl

theorem userPost_refused {t : Task} (hacc : s.accepts = false)
    (hfate : (s.userPost t).fate = .running) :
    s.userPost t = { s with dropped := s.dropped ++ [t] } := by
  unfold System.userPost at hfate ⊢
  cases hjoined : s.shutdown.joined with
  | true =>
      rw [hjoined] at hfate
      exact absurd hfate Fate.noConfusion
  | false =>
      cases hdropping : s.shutdown.dropping with
      | true => rfl
      | false =>
          rw [System.accepts, hjoined, hdropping] at hacc
          exact absurd hacc.symm Bool.false_ne_true

/-- A task for a mailbox is queued, which takes from the load that nobody came for it. -/
theorem load_of_posted {todo : List (IdT × MailboxPtr)} {rm : List IdT} {d : Description}
    (hw : s.worker = .scan todo rm (.posting m d)) (hd : Delivers s) (hhand : InHand s)
    (p : Option ActorPtr) :
    ({ s with
      queue := s.queue ++ [.apply ⟨d, p, m⟩]
      worker := .scan todo rm .next } : System π).load + (s.serves).toNat ≤ s.load := by
  let t : ApplyTask := ⟨d, p, m⟩
  let u : System π := { s with queue := s.queue ++ [.apply t], worker := .scan todo rm .next }
  rcases visit_entry hd.registered hw rfl with ⟨k, _, _, hmbox, _, _⟩
  have hafter : ∀ n, s.awaited n = true → u.awaited n = true := by
    intro n h
    simp only [System.awaited, u, List.any_append, Bool.or_eq_true] at h ⊢
    rcases h with h | h
    · exact Or.inl (Or.inl h)
    · exact Or.inr h
  have hnow : u.awaited m = true := by
    simp only [System.awaited, u, t, List.any_append, List.any_cons, Task.awaits, decide_true,
      Bool.true_or, Bool.or_true]
  have hmail : u.mailLoad + 10 ≤ s.mailLoad + 0 := by
    refine sum_range_moves (mbox_lt hd.registered.toFiled hmbox) (fun n _ => ?_) ?_
    · exact boxLoad_le rfl (hafter n)
    · rw [boxLoad_awaited hnow,
        boxLoad_waiting (hhand _ _ _ _ hw) (not_awaited hd hw (Or.inr rfl))]
  have hserves : s.serves = true := by simp only [System.serves, hw]
  have hpool : u.poolLoad = s.poolLoad + 9 := by
    simp only [System.poolLoad, u, List.map_append, List.map_cons, List.map_nil,
      List.sum_append, List.sum_cons, List.sum_nil, Task.load]
    omega
  have hexchange : u.exchangeLoad = s.exchangeLoad := rfl
  have hworker : u.worker.load = s.worker.load := by rw [hw]; rfl
  change u.load + _ ≤ _
  rw [hserves, Bool.toNat_true]
  unfold System.load
  omega

/-- A step of the worker adds nothing, and what it does of the work is gone, but for a task
    that the thread manager drops. -/
theorem worker_load (hr : WorkerRule s s') (hfate : s'.fate = .running) (hd : Delivers s)
    (hhand : InHand s) :
    s'.load + (s.serves).toNat ≤ s.load ∨ s'.load ≤ s.load ∧ s.accepts = false := by
  -- Where the worker is idle or scans, it has nothing in hand and serves nobody.
  have hmove : ∀ w pc : WorkerPc π, s.worker = w → s.serves = false → pc.load ≤ w.load →
      ({ s with worker := pc } : System π).load + (s.serves).toNat ≤ s.load := by
    intro w pc hw hserves hle
    refine load_of_move pc ?_
    rw [hserves, hw]
    exact Nat.le_trans (Nat.le_of_eq (Nat.zero_add _)) hle
  cases hr with
  | tryFanOut hw | skipFanOut hw | nextExchange _ _ hw | endFanOut hw | tryScan hw | skipScan hw
  | visitEmpty _ _ _ _ hw | visitStale _ _ _ _ hw | visit _ _ _ _ _ hw | lockFail _ _ _ _ hw
  | recheckEmpty _ _ _ _ hw | recheck _ _ _ _ hw | skipCleanUp _ hw | skipPurge _ hw =>
      exact Or.inl (hmove _ _ hw (by simp only [System.serves, hw]) (Nat.le_refl _))
  | lock todo rm m d hw =>
      exact Or.inl (hmove _ (.scan todo rm (.locked m d)) hw (by simp only [System.serves, hw])
        (Nat.le_refl _))
  | release todo rm d hw =>
      exact Or.inl (hmove _ (.scan todo rm .next) hw (by simp only [System.serves, hw])
        (Nat.le_refl _))
  | purge rm hw hx =>
      exact Or.inl (hmove _ .idle hw (by simp only [System.serves, hw]) (Nat.le_refl _))
  | popCrash x todo hw hx => exact absurd hfate Fate.noConfusion
  | popEmpty x todo ex hw hx hpub =>
      exact Or.inl (hmove _ _ hw
        (by simp only [System.serves, hw, hx, hpub, List.isEmpty_nil, Bool.not_true])
        (Nat.le_refl _))
  | pop x todo ex e rest hw hx hpub =>
      have hserves : s.serves = true := by
        simp only [System.serves, hw, hx, hpub, List.isEmpty_cons, Bool.not_false]
      have hsum := valueSum_insert ExchangeT.load hx { ex with pub := rest }
      simp only [ExchangeT.load, hpub, List.length_cons, Nat.add_mul, Nat.one_mul] at hsum
      refine Or.inl ?_
      rw [hserves, Bool.toNat_true]
      unfold System.load System.exchangeLoad
      rw [hw]
      simp only [WorkerPc.load]
      change s.mailLoad + s.poolLoad + _ + _ + 1 ≤ _
      omega
  | delivered x e todo hw =>
      refine Or.inl (load_of_move _ ?_)
      rw [hw, show s.serves = true by simp only [System.serves, hw]]
      exact Nat.le_refl _
  | deliverNone x e k ids todo hw hm =>
      refine Or.inl (load_of_move _ ?_)
      rw [hw, show s.serves = true by simp only [System.serves, hw]]
      simp only [WorkerPc.load, Bool.toNat_true, List.length_cons]
      omega
  | deliver x e k ids todo m hw hm =>
      let u : System π := { s.push m e (some x) with worker := .delivering x e ids todo }
      have hmail : u.mailLoad + 0 ≤ s.mailLoad + 22 := by
        refine sum_range_moves (mbox_lt hd.registered.toFiled hm) (fun n hn => ?_) ?_
        · exact boxLoad_le (Function.update_of_ne hn ..) id
        · exact boxLoad_push (Function.update_self ..) rfl
      have hserves : s.serves = true := by simp only [System.serves, hw]
      refine Or.inl ?_
      change u.load + _ ≤ _
      rw [hserves, Bool.toNat_true]
      unfold System.load
      have hpool : u.poolLoad = s.poolLoad := rfl
      have hexchange : u.exchangeLoad = s.exchangeLoad := rfl
      have hworker : u.worker.load = 23 * ids.length + 1 := rfl
      rw [hw, hpool, hexchange, hworker]
      simp only [WorkerPc.load, List.length_cons]
      omega
  | postCrash todo rm m d hw hp hlive => exact absurd hfate Fate.noConfusion
  | post todo rm m d p hw hp =>
      cases hacc : s.accepts with
      | true =>
          rw [userPost_accepted hacc]
          exact Or.inl (load_of_posted hw hd hhand p)
      | false =>
          refine Or.inr ⟨?_, rfl⟩
          rw [userPost_refused hacc hfate]
          unfold System.load
          rw [hw]
          exact Nat.le_refl _
  | cleanUp rm hw =>
      have hserves : s.serves = false := by simp only [System.serves, hw]
      have hexchange := valueSum_erases ExchangeT.load s.unusedExchanges s.exchanges
      refine Or.inl ?_
      rw [hserves]
      unfold System.load System.exchangeLoad
      rw [hw]
      exact Nat.add_le_add_right (Nat.add_le_add_left hexchange _) _

end Load

end Yaaf
