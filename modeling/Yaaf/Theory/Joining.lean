import Yaaf.Theory.Inert
import Yaaf.Theory.Once
import Yaaf.Theory.Orderly

/-!
# Stop Returns

`context::stop` raises its flags, waits for the threads, and stops whoever is left. The
waits are the only places where it can hang, and there are two of them: the thread manager
raises the flag of one pool, joins the threads of that pool, and only then turns to the
other. Either pool may come first.

A thread of the user pool takes up no other task once the flag of the pool is up, but what it
is at may go on for as long as there is mail, and mail may come in, as the worker still fans
out what was published. If the user pool comes first, the worker is as free as ever while
`stop` waits, and begins one pass after the other. It may hold up a thread that wants to stop
an actor, but for no longer than a pass. The system thread may have taken its task up just
before the flag of its pool went up, so one more pass may begin after that.

So there are two quantities. Each step of a user thread takes from the load and leaves the
pass no longer than it was. Each step of the worker takes from its pass, unless it begins one,
and adds nothing to the load. When the flag of the system pool is up, no step is left that
does not bring the end nearer, in whatever order the threads take them. Before that only the
steps of the user threads do, and whenever the worker is in their way it is out of it again
after what is left of its pass.

What is queued when the flag of the user pool goes up is not run any more, and what is posted
is dropped.

## Main definitions

* `Shutdown.waits`, `Stopping`: `stop` waits for the threads of a pool.
* `System.poolsOut`: The wait is over.
* `System.passWork`: What is left of a pass.
* `Waited`: What has been done in a wait, and what is left.

## Theorems

* `passWork_lt`, `passWork_le`: What becomes of the pass.
* `user_step`, `worker_step`: What the steps take from the two quantities.
* `worker_goes`, `gets_idle`, `wait_goes`: The wait goes on.
* `next_flag`, `join_goes`: The rest of `stop`.
* `stop_ends`: There is a way to the end.
* `waited_step`: What the steps of a wait add up to.
* `context_stop_returns`: `stop` returns.
-/

namespace Yaaf

open Machine

variable {π : Type}

/-- `thread_manager::stop` waits for the threads of a pool whose flag is up. -/
def Shutdown.waits (d : Shutdown) : Prop :=
  d.begun = true ∧ d.dropping = true ∧ d.joined = false ∧ (d.userStop = true ∨ d.sysStop = true)

/-- The threads of every pool whose flag is up are out. -/
def System.poolsOut (s : System π) : Prop :=
  (s.shutdown.userStop = true → s.running = []) ∧ (s.shutdown.sysStop = true → s.passDone = true)

/-- A thread that `stop` waits for. -/
def Action.awaited (d : Shutdown) : Action π → Bool
  | .task _ _ => d.userStop
  | .worker _ => d.sysStop
  | _ => false

/-- The steps of the user pool. -/
def Action.ofUser : Action π → Bool
  | .pick | .task _ _ => true
  | _ => false

/-- The steps of the system pool. -/
def Action.ofSys : Action π → Bool
  | .worker _ => true
  | _ => false

/-- The steps of the threads that go on by themselves, and of the call of `stop`. -/
def Ending (s : System π) (a : Action π) : Prop :=
  Obliging s a ∨ ∃ st, a = .stop st

/-- What is left of a pass, wherever the worker is in it, or of one that is about to
    begin. -/
def System.passWork (s : System π) : Nat :=
  match s.worker with
  | .idle =>
    if s.passDue then
      (WorkerPc.fanOut (π := π) s.exchanges.keys).fanWork s.visitWork +
        (5 * s.mboxes.entries.length + 3) + 1
    else 0
  | .scan _ _ _ | .purging _ => s.worker.scanWork
  -- The scan is still to come, over all mailboxes.
  | _ => s.fanWork + (5 * s.mboxes.entries.length + 3)

/-- `context::stop` waits, for whatever the threads are at. -/
structure Stopping (cfg : Config) (name : String) (s : System π) : Prop where
  orderly : Orderly cfg name s.shutdown s
  waits : s.shutdown.waits

section Due

variable {cfg : Config} {name : String} {s s' : System π}

/-- A pass is due only where the system thread stands between two passes and the flag of its
    pool is up. -/
def Due (s : System π) : Prop :=
  s.passDue = true → s.worker = .idle ∧ s.shutdown.sysStop = true

/-- The pass that was due begins, and no other rule of the worker is one of an idle worker. -/
theorem due_of_worker (hr : WorkerRule s s') (h : Due s) : s'.passDue = false := by
  cases hdue : s.passDue with
  | true =>
      have hidle := (h hdue).1
      cases hr with
      | tryFanOut | skipFanOut => rfl
      | nextExchange _ _ hw | popCrash _ _ hw | popEmpty _ _ _ hw | pop _ _ _ _ _ hw
      | delivered _ _ _ hw | deliverNone _ _ _ _ _ hw | deliver _ _ _ _ _ _ hw | endFanOut hw
      | tryScan hw | skipScan hw | visitEmpty _ _ _ _ hw | visitStale _ _ _ _ hw
      | visit _ _ _ _ _ hw | lockFail _ _ _ _ hw | lock _ _ _ _ hw | recheckEmpty _ _ _ _ hw
      | recheck _ _ _ _ hw | release _ _ _ hw | postCrash _ _ _ _ hw | post _ _ _ _ _ hw
      | cleanUp _ hw | skipCleanUp _ hw | purge _ hw | skipPurge _ hw =>
          rw [hw] at hidle
          exact absurd hidle (by simp only [reduceCtorEq, not_false_eq_true])
  | false =>
      cases hr with
      | tryFanOut | skipFanOut => rfl
      | post todo rm m d p hw hp =>
          rw [userPost_rest]
          exact hdue
      | _ => exact hdue

theorem due_of_stop {st : StopStep} (hs : stopStep cfg s st = some s') (h : Due s) : Due s' := by
  cases st <;> simp only [stopStep, Option.ite_none_right_eq_some, Option.some.injEq] at hs
  case begin =>
      rw [← hs]
      exact h
  case dropPosts =>
      rcases hs with ⟨_, hs⟩
      split at hs <;> rw [Option.some.injEq] at hs <;> rw [← hs] <;> exact h
  case stopUserPool | join =>
      rw [← hs.2]
      exact h
  case stopSysPool taken =>
      rw [← hs.2]
      intro hdue
      refine ⟨?_, rfl⟩
      by_cases hsys : s.shutdown.sysStop = true
      · exact (h ((if_pos hsys).symm.trans hdue)).1
      · have hdue := (if_neg hsys).symm.trans hdue
        cases hw : s.worker with
        | idle => rfl
        | _ =>
            rw [hw] at hdue
            exact absurd hdue Bool.false_ne_true
  case sweep =>
      have hrest := (stopAll_sweeps cfg s).rest
      rw [← hs.2]
      intro hdue
      change (s.stopAll cfg).passDue = true at hdue
      change (s.stopAll cfg).worker = .idle ∧ (s.stopAll cfg).shutdown.sysStop = true
      rw [hrest] at hdue ⊢
      exact h hdue

theorem step_due {a : Action π} (hs : step cfg s a = some s') (h : Due s) : Due s' := by
  -- Whoever leaves the worker and the shutdown alone makes no pass due.
  have hkept : s'.worker = s.worker → s'.shutdown = s.shutdown → s'.passDue = s.passDue →
      Due s' := by
    intro hworker hshut hdue hd
    rw [hworker, hshut]
    exact h (hdue ▸ hd)
  cases (stepRule_of_step hs).2 with
  | call c s' hr | userCall uc uc' c s' hc hr =>
      exact hkept (by rw [callRule_rest hr]) (by rw [callRule_rest hr]) (by rw [callRule_rest hr])
  | userNothing => exact h
  | add i st c s' hi hr =>
      exact hkept (by rw [addRule_rest hr]) (by rw [addRule_rest hr]) (by rw [addRule_rest hr])
  | pick => exact h
  | task i st s' hr =>
      exact hkept (by rw [taskRule_rest hr]) (by rw [taskRule_rest hr]) (by rw [taskRule_rest hr])
  | worker st s' hr =>
      intro hd
      rw [due_of_worker hr h] at hd
      exact absurd hd Bool.false_ne_true
  | stop st s' hr => exact due_of_stop (stopStep_of_step hs).2 h

theorem reach_due {C : System π → Action π → Prop} (h : (context cfg name).Reach C s) : Due s :=
  always Due (fun hd => absurd hd Bool.false_ne_true) (fun _ _ h => h)
    (fun _ _ _ hs h => step_due hs h) h

end Due

section Pass

variable {cfg : Config} {name : String} {flags : Shutdown} {s s' : System π} {i : Nat}

theorem passWork_of_fanOut (h : s.fanningOut = true ∨ s.worker = .fanned) :
    s.passWork = s.fanWork + (5 * s.mboxes.entries.length + 3) := by
  unfold System.passWork
  cases hw : s.worker with
  | fanOut | draining | delivering | fanned => rfl
  | idle | scan | purging =>
      rw [System.fanningOut, hw] at h
      rcases h with h | h
      · exact absurd h Bool.false_ne_true
      · exact absurd h (by simp only [reduceCtorEq, not_false_eq_true])

theorem passWork_of_scan (h : 0 < s.worker.scanWork ∨ s.worker = .idle) (hdue : s.passDue = false) :
    s.passWork = s.worker.scanWork := by
  unfold System.passWork
  cases hw : s.worker with
  | idle =>
      simp only [hdue, Bool.false_eq_true, if_false]
      rfl
  | scan | purging => rfl
  | fanOut | draining | delivering | fanned =>
      rw [hw] at h
      rcases h with h | h
      · exact absurd h (Nat.lt_irrefl 0)
      · exact absurd h (by simp only [reduceCtorEq, not_false_eq_true])

/-- A pass that is due is still to be made. -/
theorem passWork_of_due (hw : s.worker = .idle) (hdue : s.passDue = true) :
    s.passWork = (WorkerPc.fanOut (π := π) s.exchanges.keys).fanWork s.visitWork +
      (5 * s.mboxes.entries.length + 3) + 1 := by
  unfold System.passWork
  simp only [hw, hdue, if_true]

/-- The worker does not begin another pass once the flag of its pool is up. -/
theorem due_of_begun {st : WorkerStep} (hs : workerStep s st = some s') (hw : s.worker = .idle)
    (hsys : s.shutdown.sysStop = true) : s.passDue = true := by
  by_contra hdue
  rw [workerStep_parked hw hsys (by simpa only [Bool.not_eq_true] using hdue)] at hs
  exact absurd hs (by simp only [reduceCtorEq, not_false_eq_true])

/-- A step of the worker takes from its pass, unless it begins one while the flag of its pool
    is down. -/
theorem passWork_lt {st : WorkerStep} (hs : step cfg s (.worker st) = some s')
    (h : Orderly cfg name flags s) (hsys : s.worker = .idle → s.shutdown.sysStop = true) :
    s'.passWork < s.passWork := by
  have hstep := (workerStep_of_step hs).2
  have hr := workerRule_of_step hstep
  have hnext := step_orderly (a := .worker st) hs rfl h
  have hduty := reach_due h.reach
  have hdue' := due_of_worker hr hduty
  by_cases hfan : s.fanningOut = true
  · have hfanning : Fanning s s := ⟨⟨h.fate, rfl, rfl, rfl⟩,
      fun m => ⟨[], (List.append_nil _).symm⟩, rfl, rfl, (reach_poised h.reach).visits, Or.inl hfan⟩
    have hnot : s.worker ≠ .fanned := by
      intro hw
      rw [System.fanningOut, hw] at hfan
      exact absurd hfan Bool.false_ne_true
    have hafter := fanning_step hr hfanning hnot
    rw [passWork_of_fanOut hafter.place, passWork_of_fanOut (Or.inl hfan), hafter.mboxes]
    exact Nat.add_lt_add_right (fanWork_lt hr hfanning hnot) _
  · by_cases hpos : 0 < s.worker.scanWork
    -- In the scan or behind it: no pass is due, so the step takes from what the scan has left.
    · have hdue : s.passDue = false := by
        by_contra hdue
        rw [(hduty (by simpa only [Bool.not_eq_false] using hdue)).1] at hpos
        exact absurd hpos (Nat.lt_irrefl 0)
      rw [passWork_of_scan (scanning_or_idle hr hpos) hdue', passWork_of_scan (Or.inl hpos) hdue]
      exact scanWork_lt hr hnext.fate hpos
    · cases hr with
      | tryFanOut hw hx =>
          rw [passWork_of_due hw (due_of_begun hstep hw (hsys hw)),
            passWork_of_fanOut (Or.inl rfl)]
          exact Nat.lt_succ_self _
      | skipFanOut hw =>
          rw [passWork_of_due hw (due_of_begun hstep hw (hsys hw)),
            passWork_of_fanOut (Or.inr rfl)]
          change 0 + (5 * s.mboxes.entries.length + 3) < _
          omega
      | tryScan hw =>
          rw [passWork_of_fanOut (Or.inr hw)]
          change 5 * s.mailboxPairs.length + 0 + 2 < _
          rw [System.mailboxPairs, List.length_map]
          omega
      | skipScan hw =>
          rw [passWork_of_fanOut (Or.inr hw), passWork_of_scan (Or.inr rfl) hdue']
          exact Nat.succ_pos _
      | nextExchange _ _ hw | popCrash _ _ hw | popEmpty _ _ _ hw | pop _ _ _ _ _ hw
      | delivered _ _ _ hw | deliverNone _ _ _ _ _ hw | deliver _ _ _ _ _ _ hw
      | endFanOut hw => exact absurd (by rw [System.fanningOut, hw]) hfan
      | visitEmpty _ _ _ _ hw | visitStale _ _ _ _ hw | visit _ _ _ _ _ hw | lockFail _ _ _ _ hw
      | lock _ _ _ _ hw | recheckEmpty _ _ _ _ hw | recheck _ _ _ _ hw | release _ _ _ hw
      | postCrash _ _ _ _ hw | post _ _ _ _ _ hw | cleanUp _ hw | skipCleanUp _ hw =>
          exact absurd (by rw [hw]; exact Nat.succ_pos _) hpos
      | purge _ hw | skipPurge _ hw => exact absurd (by rw [hw]; exact Nat.one_pos) hpos

/-- A map that has lost entries is not larger. -/
theorem entries_le {κ ν : Type} [DecidableEq κ] {m m' : AList fun _ : κ => ν}
    (h : ∀ k, m'.lookup k = m.lookup k ∨ m'.lookup k = none) :
    m'.entries.length ≤ m.entries.length := by
  have hsub : m'.keys ⊆ m.keys := by
    intro k hk
    have hsome := AList.lookup_isSome.mpr (AList.mem_keys.mpr hk)
    rcases h k with heq | hnone
    · rw [heq] at hsome
      exact AList.mem_keys.mp (AList.lookup_isSome.mp hsome)
    · rw [hnone] at hsome
      exact absurd hsome Bool.false_ne_true
  have hle := (m'.keys_nodup.subperm hsub).length_le
  simpa only [AList.keys, List.keys, List.length_map] using hle

/-- A step of a thread leaves the pass no longer than it was. -/
theorem passWork_le (hsame : SamePlaces s s') (hr : TaskRule cfg s i s') :
    s'.passWork ≤ s.passWork := by
  have hmboxes : s'.mboxes.entries.length ≤ s.mboxes.entries.length := by
    cases hr with
    | startHalt | startReturn => exact Nat.le_refl _
    | apply t pc s' hi hr =>
        cases hr with
        | stop pc u hb hx hu => exact entries_le hu.mboxes
        | reinit f u hx hu => exact entries_le hu.mboxes
        | _ => exact Nat.le_refl _
  have hdue : s'.passDue = s.passDue := by rw [taskRule_rest hr]
  have hvisit : s'.visitWork = s.visitWork := by
    unfold System.visitWork
    rw [hsame.exchanges]
  have hfan : s'.fanWork = s.fanWork := by
    unfold System.fanWork
    rw [hsame.worker, hvisit]
  unfold System.passWork
  rw [hsame.worker, hdue, hsame.exchanges, hvisit]
  split
  · split
    · omega
    · exact Nat.le_refl _
  · exact Nat.le_refl _
  · exact Nat.le_refl _
  · rw [hfan]
    omega

end Pass

section Waiting

variable {cfg : Config} {name : String} {s s' t : System π} {a : Action π}

/-- A step of the user pool takes from the load. -/
theorem user_step (hs : step cfg s a = some s') (ha : Obliging s a) (huser : a.ofUser = true)
    (h : Stopping cfg name s) : s'.load < s.load ∧ s'.passWork ≤ s.passWork ∧
      (s.shutdown.userStop = true → s'.queue = s.queue) := by
  have hworks : s'.load + (s.works a).toNat ≤ s.load := by
    rcases step_load hs ha h.orderly with hload | ⟨_, _, st, rfl⟩
    · exact hload
    · exact absurd huser Bool.false_ne_true
  cases a with
  | pick =>
      cases (stepRule_of_step hs).2 with
      | pick t rest hq hn hu =>
          refine ⟨hworks, Nat.le_refl _, fun hup => ?_⟩
          rw [hu] at hup
          exact absurd hup Bool.false_ne_true
  | task i st =>
      rcases wanes_of_step hs ha (reach_poised h.orderly.reach).supervised with ⟨_, _, hsame, _⟩
      cases (stepRule_of_step hs).2 with
      | task i st s' hr => exact ⟨hworks, passWork_le hsame hr, fun _ => hsame.queue⟩
  | _ => exact absurd huser Bool.false_ne_true

/-- A step of the worker adds nothing to the load, and what it posts is dropped. -/
theorem worker_step {st : WorkerStep} (hs : step cfg s (.worker st) = some s')
    (h : Stopping cfg name s) : s'.load ≤ s.load ∧ s'.running = s.running ∧ s'.queue = s.queue ∧
      ((s.worker = .idle → s.shutdown.sysStop = true) → s'.passWork < s.passWork) := by
  have hnext := step_orderly hs rfl h.orderly
  refine ⟨step_load_le hs rfl h.orderly, ?_, ?_, passWork_lt hs h.orderly⟩
  · rw [workerRule_rest (workerRule_of_step (workerStep_of_step hs).2)]
  · cases (stepRule_of_step hs).2 with
    | worker st s' hr =>
        cases hr with
        | post todo rm m d p hw hp =>
            have hrefused : s.accepts = false := by
              rw [System.accepts, h.waits.2.1, h.waits.2.2.1]
              rfl
            change (s.userPost _).queue = _
            rw [userPost_refused hrefused hnext.fate]
        | _ => rfl

/-- `stop` goes on waiting for as long as the threads only go on. -/
theorem stopping_step (hs : step cfg s a = some s') (ha : Obliging s a)
    (h : Stopping cfg name s) : Stopping cfg name s' ∧ s'.shutdown = s.shutdown := by
  have hnext := step_orderly hs ha h.orderly
  refine ⟨⟨?_, ?_⟩, hnext.shutdown⟩
  · rw [hnext.shutdown]
    exact hnext
  · rw [hnext.shutdown]
    exact h.waits

/-- The worker can go on with its pass, or begin the one that is due. -/
theorem worker_goes (h : Stopping cfg name s) (hnot : s.passDone = false)
    (hsys : s.worker = .idle → s.shutdown.sysStop = true) :
    ∃ st t, step cfg s (.worker st) = some t := by
  suffices hgo : ∃ st t, workerStep s st = some t by
    rcases hgo with ⟨st, t, hs⟩
    refine ⟨st, t, ?_⟩
    unfold step
    rw [if_pos h.orderly.fate]
    exact hs
  by_cases hfan : s.fanningOut = true
  · exact fanOut_goes hfan
  · cases hw : s.worker with
    | idle =>
        have hdue : s.passDue = true := by
          simpa only [System.passDone, hw, Bool.not_eq_false'] using hnot
        exact ⟨.tryFanOut false, _, by
          simp only [workerStep, hw, hsys hw, hdue, Bool.not_true, Bool.and_false,
            Bool.false_eq_true, if_false]
          rfl⟩
    | fanned => exact ⟨.tryScan false, _, by simp only [workerStep, hw]; rfl⟩
    | scan todo rm pc => exact scan_goes (by rw [hw]; exact Nat.succ_pos _)
    | purging rm => exact scan_goes (by rw [hw]; exact Nat.one_pos)
    | fanOut | draining | delivering =>
        exact absurd (by simp only [System.fanningOut, hw]) hfan

/-- The worker is not done in the middle of a pass. -/
theorem passDone_of_underway (hw : s.worker ≠ .idle) : s.passDone = false := by
  by_contra hdone
  exact hw (idle_of_passDone (by simpa only [Bool.not_eq_false] using hdone)).1

/-- While the worker is out of the way, the first thread that has a task goes on with it. -/
theorem task_goes (h : Stopping cfg name s) (hw : s.worker = .idle) (hr : s.running ≠ []) :
    ∃ st t, Obliging s (.task 0 st) ∧ step cfg s (.task 0 st) = some t := by
  cases hrun : s.running with
  | nil => exact absurd hrun hr
  | cons r rest =>
      have hi : s.running[0]? = some r := by rw [hrun, List.getElem?_cons_zero]
      exact thread_goes h.orderly hw hi

/-- The worker is out of everybody's way after what is left of its pass. -/
theorem gets_idle (h : Stopping cfg name s) : ∃ (sts : List WorkerStep) (t : System π),
    sts.length ≤ s.passWork ∧ (context cfg name).run s (sts.map .worker) = some t ∧
      Stopping cfg name t ∧ t.shutdown = s.shutdown ∧ t.running = s.running ∧
        t.worker = .idle := by
  -- On the pass that is left, as every step of it leaves less.
  induction hn : s.passWork using Nat.strongRecOn generalizing s with
  | ind n ih =>
      by_cases hw : s.worker = .idle
      · exact ⟨[], s, Nat.zero_le _, rfl, h, rfl, rfl, hw⟩
      · have hnot := passDone_of_underway hw
        rcases worker_goes h hnot (fun hidle => absurd hidle hw) with ⟨st, u, hs⟩
        rcases worker_step hs h with ⟨_, hrunning, _, hless⟩
        have hlt := hless fun hidle => absurd hidle hw
        rcases stopping_step hs rfl h with ⟨hu, hshut⟩
        rcases ih u.passWork (hn ▸ hlt) hu rfl with
          ⟨sts, t, hlen, hrun, ht, hshut', hrunning', hidle⟩
        have hone : (context cfg name).step s (.worker st) = some u := hs
        refine ⟨st :: sts, t, ?_, ?_, ht, hshut'.trans hshut, hrunning'.trans hrunning, hidle⟩
        · rw [List.length_cons]
          omega
        · rw [List.map_cons, Machine.run, hone]
          exact hrun

/-- As long as the wait is not over, a thread that is waited for can go on, if need be after
    the rest of a pass that is in its way. -/
theorem wait_goes (h : Stopping cfg name s) (hnot : ¬ s.poolsOut) :
    ∃ (sts : List WorkerStep) (t : System π) (a : Action π) (u : System π),
      sts.length ≤ s.passWork ∧ (context cfg name).run s (sts.map .worker) = some t ∧
        Obliging t a ∧ a.awaited s.shutdown = true ∧ step cfg t a = some u := by
  by_cases hsys : s.shutdown.sysStop = true ∧ s.passDone = false
  -- The worker is waited for itself, and nothing holds it up.
  · rcases worker_goes h hsys.2 (fun _ => hsys.1) with ⟨st, u, hs⟩
    exact ⟨[], s, .worker st, u, Nat.zero_le _, rfl, rfl, hsys.1, hs⟩
  · have huser : s.shutdown.userStop = true ∧ s.running ≠ [] := by
      by_contra hno
      refine hnot ⟨fun hup => ?_, fun hup => ?_⟩
      · by_contra hr
        exact hno ⟨hup, hr⟩
      · by_contra hdone
        exact hsys ⟨hup, by simpa only [Bool.not_eq_true] using hdone⟩
    -- A thread may want the exclusive lock, which it gets when the pass is over.
    rcases gets_idle h with ⟨sts, t, hlen, hrun, ht, _, hrunning, hw⟩
    have hr : t.running ≠ [] := by
      rw [hrunning]
      exact huser.2
    rcases task_goes ht hw hr with ⟨st, u, hst, hs⟩
    exact ⟨sts, t, .task 0 st, u, hlen, hrun, hst, huser.1, hs⟩

/-- Another flag does not end the wait. -/
theorem stopping_of_flag {st : StopStep} {d : Shutdown} {due : Bool}
    (hs : step cfg s (.stop st) = some { s with shutdown := d, passDue := due }) (hd : d.waits)
    (h : Stopping cfg name s) : Stopping cfg name { s with shutdown := d, passDue := due } :=
  ⟨⟨Machine.Path.tail (.stop st) h.orderly.reach trivial hs, h.orderly.fate, rfl, hd.2.2.1,
    h.orderly.forest, h.orderly.calm⟩, hd⟩

/-- When the threads of the pool whose flag is up are out, `stop` turns to the other pool. -/
theorem next_flag (h : Stopping cfg name s) (hout : s.poolsOut) :
    (s.shutdown.sysStop = false → ∀ taken, ∃ u, step cfg s (.stop (.stopSysPool taken)) = some u ∧
      Stopping cfg name u ∧ u.shutdown = { s.shutdown with sysStop := true }) ∧
    (s.shutdown.userStop = false → ∃ u, step cfg s (.stop .stopUserPool) = some u ∧
      Stopping cfg name u ∧ u.shutdown = { s.shutdown with userStop := true }) := by
  rcases h.waits with ⟨hbegun, hdrop, hjoined, hup⟩
  refine ⟨fun hsys taken => ?_, fun huser => ?_⟩
  · have huser : s.shutdown.userStop = true := hup.resolve_right (by
      rw [hsys]
      exact Bool.false_ne_true)
    have hgo : (s.shutdown.dropping && (!s.shutdown.userStop || s.running.isEmpty)) = true := by
      rw [hdrop, hout.1 huser, List.isEmpty_nil, Bool.or_true, Bool.and_self]
    have hs : ∃ due, step cfg s (.stop (.stopSysPool taken)) = some { s with
        shutdown := { s.shutdown with sysStop := true }, passDue := due } := by
      unfold step
      rw [if_pos h.orderly.fate]
      exact ⟨_, if_pos hgo⟩
    rcases hs with ⟨due, hs⟩
    exact ⟨_, hs, stopping_of_flag hs ⟨hbegun, hdrop, hjoined, Or.inr rfl⟩ h, rfl⟩
  · have hsys : s.shutdown.sysStop = true := hup.resolve_left (by
      rw [huser]
      exact Bool.false_ne_true)
    have hs : step cfg s (.stop .stopUserPool) = some { s with
        shutdown := { s.shutdown with userStop := true }, passDue := s.passDue } := by
      simp only [step, h.orderly.fate, stopStep, hdrop, hout.2 hsys, Bool.or_true, Bool.and_self,
        if_true]
    exact ⟨_, hs, stopping_of_flag hs ⟨hbegun, hdrop, hjoined, Or.inl rfl⟩ h, rfl⟩

/-- When the threads of both pools are out, `stop` goes on to its end. -/
theorem join_goes (h : Stopping cfg name s) (hout : s.poolsOut)
    (huser : s.shutdown.userStop = true) (hsys : s.shutdown.sysStop = true) :
    ∃ u, perform cfg s (stopLabels.drop 4) = some u ∧ Stopped u ∧
      ∀ k, u.stopsOf k = s.stopsOf k ++ s.here k := by
  let t : System π := { s with shutdown := { s.shutdown with joined := true } }
  let u : System π := { t.stopAll cfg with actors := ∅, mboxes := ∅, idByName := ∅ }
  have hidle := (idle_of_passDone (hout.2 hsys)).1
  have hjoin : step cfg s (.stop .join) = some t := by
    simp only [step, h.orderly.fate, stopStep, huser, hsys, hout.1 huser, hout.2 hsys,
      List.isEmpty_nil, Bool.and_self, if_true, t]
  have hfate : t.fate = .running := h.orderly.fate
  have hshare : t.canExclude = true := (canExclude_of_idle h.orderly hidle : s.canExclude = true)
  have hsweep : step cfg t (.stop .sweep) = some u := by
    unfold step
    rw [if_pos hfate]
    change (if t.shutdown.joined && t.canExclude then some u else none) = some u
    rw [hshare]
    rfl
  have hreach : (context cfg name).Reach free t :=
    Machine.Path.tail (.stop .join) h.orderly.reach trivial hjoin
  refine ⟨u, ?_, stopped_of_sweep hreach hsweep, fun k => ?_⟩
  · change perform cfg s [.stop .join, .stop .sweep] = some u
    rw [perform_cons h.orderly.fate, hjoin, Option.bind_some, perform_cons hfate, hsweep,
      Option.bind_some]
    rfl
  · rcases @stopAll_tolled π cfg t with ⟨evs, hevs, hsum⟩
    have htrace : u.trace = s.trace ++ evs := hevs
    rw [System.stopsOf, htrace, List.filterMap_append, hsum]
    rfl

/-- There is always a step that brings the end of the wait nearer. -/
theorem brings_nearer (h : Stopping cfg name s) (hnot : ¬ s.poolsOut) : ∃ a t, Obliging s a ∧
    step cfg s a = some t ∧ t.load + t.passWork < s.load + s.passWork := by
  by_cases hbusy : s.passDone = false ∧ (s.worker = .idle → s.shutdown.sysStop = true)
  · rcases worker_goes h hbusy.1 hbusy.2 with ⟨st, t, hs⟩
    rcases worker_step hs h with ⟨hle, _, _, hless⟩
    have hlt := hless hbusy.2
    exact ⟨.worker st, t, rfl, hs, by omega⟩
  · -- The worker is out of the way, so it is the user pool that `stop` waits for.
    have hw : s.worker = .idle := by
      by_contra hw
      exact hbusy ⟨passDone_of_underway hw, fun hidle => absurd hidle hw⟩
    have hr : s.running ≠ [] := by
      intro hr
      refine hnot ⟨fun _ => hr, fun hsys => ?_⟩
      by_contra hdone
      exact hbusy ⟨by simpa only [Bool.not_eq_true] using hdone, fun _ => hsys⟩
    rcases task_goes h hw hr with ⟨st, t, hst, hs⟩
    rcases user_step hs hst rfl h with ⟨hless, hle, _⟩
    exact ⟨.task 0 st, t, hst, hs, by omega⟩

/-- The wait can come to its end. -/
theorem wait_ends (h : Stopping cfg name s) : ∃ t, (context cfg name).Path Obliging s t ∧
    Stopping cfg name t ∧ t.shutdown = s.shutdown ∧ t.poolsOut := by
  refine path_ends (fun t => Stopping cfg name t ∧ t.shutdown = s.shutdown)
    (fun t => Stopping cfg name t ∧ t.shutdown = s.shutdown ∧ t.poolsOut)
    (fun t => t.load + t.passWork) (fun t ht hnot => ?_) ⟨h, rfl⟩
  rcases brings_nearer ht.1 (fun hout => hnot ⟨ht.1, ht.2, hout⟩) with ⟨a, u, ha, hs, hless⟩
  rcases stopping_step hs ha ht.1 with ⟨hu, hshut⟩
  exact ⟨a, u, ha, hs, ⟨hu, hshut.trans ht.2⟩, hless⟩

/-- What is performed is a run. -/
theorem path_of_perform {C : System π → Action π → Prop} {as : List (Action π)}
    (hC : ∀ a ∈ as, ∀ u, C u a) (h : perform cfg s as = some t) :
    (context cfg name).Path C s t := by
  induction as generalizing s with
  | nil =>
      cases h
      exact Machine.Path.refl _
  | cons a as ih =>
      by_cases hfate : s.fate = .running
      · rw [perform_cons hfate] at h
        rcases Option.bind_eq_some_iff.mp h with ⟨u, hs, hrest⟩
        have hone : (context cfg name).Path C s u :=
          Machine.Path.tail a (Machine.Path.refl s) (hC a List.mem_cons_self s) hs
        exact path_trans hone (ih (fun b hb => hC b (List.mem_cons_of_mem a hb)) hrest)
      · rw [perform_halted hfate, Option.some.injEq] at h
        rw [← h]
        exact Machine.Path.refl _

/-- A wait of `stop` can come to its end, if the rest can. -/
theorem end_of_wait (h : Stopping cfg name s) (hrest : ∀ u : System π, Stopping cfg name u →
      u.shutdown = s.shutdown → u.poolsOut → ∃ t, (context cfg name).Path Ending u t ∧ Stopped t) :
    ∃ t, (context cfg name).Path Ending s t ∧ Stopped t := by
  rcases wait_ends h with ⟨u, hpath, hu, hshut, hout⟩
  rcases hrest u hu hshut hout with ⟨t, hend, hstopped⟩
  exact ⟨t, path_trans (path_weaken (fun _ _ ha => Or.inl ha) hpath) hend, hstopped⟩

/-- From the second wait there is a way to the end of `stop`. -/
theorem second_ends (h : Stopping cfg name s) (huser : s.shutdown.userStop = true)
    (hsys : s.shutdown.sysStop = true) : ∃ t, (context cfg name).Path Ending s t ∧ Stopped t := by
  refine end_of_wait h fun u hu hshut hout => ?_
  rcases join_goes hu hout (by rw [hshut, huser]) (by rw [hshut, hsys]) with ⟨t, ht, hstopped, _⟩
  refine ⟨t, path_of_perform (fun a ha _ => ?_) ht, hstopped⟩
  change a ∈ [Action.stop StopStep.join, .stop .sweep] at ha
  simp only [List.mem_cons, List.not_mem_nil, or_false] at ha
  rcases ha with rfl | rfl
  · exact Or.inr ⟨_, rfl⟩
  · exact Or.inr ⟨_, rfl⟩

/-- From wherever `stop` waits there is a way to its end. -/
theorem stop_ends (h : Stopping cfg name s) :
    ∃ t, (context cfg name).Path Ending s t ∧ Stopped t := by
  refine end_of_wait h fun u hu _ hout => ?_
  have hflag : ∀ (v : System π) (st : StopStep), step cfg u (.stop st) = some v →
      (context cfg name).Path Ending u v := fun v st hs =>
    Machine.Path.tail (.stop st) (Machine.Path.refl u) (Or.inr ⟨st, rfl⟩) hs
  cases hsys : u.shutdown.sysStop with
  | true =>
      cases huser : u.shutdown.userStop with
      | true => exact second_ends hu huser hsys
      | false =>
          rcases (next_flag hu hout).2 huser with ⟨v, hs, hv, hflags⟩
          rcases second_ends hv (by rw [hflags]) (by rw [hflags, hsys]) with ⟨t, hend, hstopped⟩
          exact ⟨t, path_trans (hflag v _ hs) hend, hstopped⟩
  | false =>
      have huser := hu.waits.2.2.2.resolve_right (by
        rw [hsys]
        exact Bool.false_ne_true)
      rcases (next_flag hu hout).1 hsys false with ⟨v, hs, hv, hflags⟩
      rcases second_ends hv (by rw [hflags, huser]) (by rw [hflags]) with ⟨t, hend, hstopped⟩
      exact ⟨t, path_trans (hflag v _ hs) hend, hstopped⟩

/-- What has been done in a wait: so many steps of the user pool, and so many of the worker. -/
structure Waited (cfg : Config) (name : String) (s t : System π) (n m : Nat) : Prop where
  stopping : Stopping cfg name t
  flags : t.shutdown = s.shutdown
  user : n + t.load ≤ s.load
  all : s.shutdown.sysStop = true → n + m + (t.load + t.passWork) ≤ s.load + s.passWork
  queue : s.shutdown.userStop = true → t.queue = s.queue

/-- One step of a wait, counted. -/
theorem waited_step {n m : Nat} (hs : step cfg t a = some s') (ha : Obliging t a)
    (h : Waited cfg name s t n m) :
    Waited cfg name s s' (n + a.ofUser.toNat) (m + a.ofSys.toNat) := by
  rcases stopping_step hs ha h.stopping with ⟨hnext, hflags⟩
  have huser := h.user
  cases a with
  | pick | task i st =>
      rcases user_step hs ha rfl h.stopping with ⟨hless, hle, hsame⟩
      refine ⟨hnext, hflags.trans h.flags, ?_, fun hsys => ?_, fun hup => ?_⟩
      · simp only [Action.ofUser, Bool.toNat_true]
        omega
      · have hall := h.all hsys
        simp only [Action.ofUser, Action.ofSys, Bool.toNat_true, Bool.toNat_false]
        omega
      · rw [hsame (by rw [h.flags, hup]), h.queue hup]
  | worker st =>
      rcases worker_step hs h.stopping with ⟨hle, _, hsame, hless⟩
      refine ⟨hnext, hflags.trans h.flags, ?_, fun hsys => ?_, fun hup => ?_⟩
      · simp only [Action.ofUser, Bool.toNat_false]
        omega
      · have hall := h.all hsys
        have hlt := hless fun _ => by rw [h.flags, hsys]
        simp only [Action.ofUser, Action.ofSys, Bool.toNat_true, Bool.toNat_false]
        omega
      · rw [hsame, h.queue hup]
  | _ => exact absurd ha Bool.false_ne_true

/-- `context::stop` returns. Take any state in which it waits for the threads of a pool, with
    whatever they are at, where the actors form a forest and no thread is in an `ESCALATE`
    loop. As long as nobody calls anything, nothing escapes from a thread and no supervisor
    escalates, the user threads take no more steps than the load allows, and once the flag of
    the system pool is up, all threads together take no more than the load and the pass, in
    whatever order. Until the wait is over some thread that is waited for can go on, if need
    be after the rest of a pass, and then `stop` turns to the other pool, or returns and
    leaves a stopped context, in which each actor that was registered had its `on_stop`. -/
theorem context_stop_returns (h : (context cfg name).Reach free s) (hfate : s.fate = .running)
    (hwaits : s.shutdown.waits) (hforest : Forest s)
    (hcalm : ∀ r ∈ s.running, r.climbs = false) {n m : Nat}
    (hp : ((context cfg name).track (0, 0) fun _ a _ c =>
      (c.1 + a.ofUser.toNat, c.2 + a.ofSys.toNat)).Path (fun q a => Obliging q.1 a)
      (s, 0, 0) (t, n, m)) :
    Stopping cfg name t ∧ t.shutdown = s.shutdown ∧ n + t.load ≤ s.load ∧
    (s.shutdown.sysStop = true → n + m + (t.load + t.passWork) ≤ s.load + s.passWork) ∧
    (s.shutdown.userStop = true → t.queue = s.queue) ∧
    (¬ t.poolsOut → ∃ (sts : List WorkerStep) (u : System π) (a : Action π) (v : System π),
      sts.length ≤ t.passWork ∧ (context cfg name).run t (sts.map .worker) = some u ∧
        Obliging u a ∧ a.awaited t.shutdown = true ∧ step cfg u a = some v) ∧
    (t.poolsOut →
      (t.shutdown.sysStop = false → ∀ taken, ∃ u,
        step cfg t (.stop (.stopSysPool taken)) = some u ∧ Stopping cfg name u) ∧
      (t.shutdown.userStop = false → ∃ u,
        step cfg t (.stop .stopUserPool) = some u ∧ Stopping cfg name u) ∧
      (t.shutdown.userStop = true → t.shutdown.sysStop = true → ∃ u,
        perform cfg t (stopLabels.drop 4) = some u ∧ Stopped u ∧
          ∀ k, u.stopsOf k = t.stopsOf k ++ t.here k)) ∧
    ∃ u, (context cfg name).Path Ending t u ∧ Stopped u := by
  have hstart : Waited cfg name s s 0 0 :=
    ⟨⟨⟨h, hfate, rfl, hwaits.2.2.1, hforest, hcalm⟩, hwaits⟩, rfl,
      Nat.le_of_eq (Nat.zero_add _), fun _ => Nat.le_of_eq (Nat.zero_add _), fun _ => rfl⟩
  have hwaited : Waited cfg name s t n m := by
    refine path_invariant (fun q : System π × Nat × Nat => Waited cfg name s q.1 q.2.1 q.2.2)
      (fun q a r ha hs hq => ?_) hp hstart
    rcases track_step.mp hs with ⟨hone, hcount⟩
    rw [hcount]
    exact waited_step hone ha hq
  have ht := hwaited.stopping
  refine ⟨ht, hwaited.flags, hwaited.user, hwaited.all, hwaited.queue, wait_goes ht,
    fun hout => ⟨fun hsys taken => ?_, fun huser => ?_, join_goes ht hout⟩, stop_ends ht⟩
  · rcases (next_flag ht hout).1 hsys taken with ⟨u, hs, hu, _⟩
    exact ⟨u, hs, hu⟩
  · rcases (next_flag ht hout).2 huser with ⟨u, hs, hu, _⟩
    exact ⟨u, hs, hu⟩

end Waiting

/-- A handler is about to throw while `stop` waits for its thread, and the worker is at a
    pass that has something to fan out. -/
def waitingRun : List (Action Nat) :=
  register "a" .null 3 ++ runStarts 4 ++
    [.call (.subscribeToExchange ⟨⟨4⟩, "/root/usr/a"⟩ "x"),
      .call (.sendEnvelope ⟨⟨4⟩, "/root/usr/a"⟩ ⟨some 7, .null⟩),
      .call (.sendEnvelope ⟨⟨4⟩, "/root/usr/a"⟩ ⟨some 8, .null⟩)] ++
    dispatchPass ⟨4⟩ [⟨1⟩, ⟨2⟩, ⟨3⟩] ++
    [.pick, .task 0 .entry, .task 0 .tryPop, .task 0 .callHandler,
      .call (.publishToExchange "x" ⟨some 9, .null⟩), .worker (.tryFanOut true),
      .stop .begin, .stop .dropPosts, .stop .stopUserPool, .task 0 (.handlerThrow "what")]

/-- The thread has so many steps at the most before `stop` turns to the other pool, and
    `stop` can return. -/
theorem context_stop_returns_waitingRun :
    ((context (.plain 1) "ctx").after waitingRun).load = 53 ∧
      ∃ u, (context (.plain 1) "ctx").Path Ending ((context (.plain 1) "ctx").after waitingRun) u ∧
        Stopped u := by
  refine ⟨by decide, ?_⟩
  have hforest : Forest ((context (.plain 1) "ctx").after waitingRun) :=
    forest_of_reach (reach_meets _ (by decide)) (by unfold System.fewCalls; decide)
  have hwaits : ((context (.plain 1) "ctx").after waitingRun).shutdown.waits :=
    ⟨by decide, by decide, by decide, by decide⟩
  exact (context_stop_returns (reach_after waitingRun) (by decide) hwaits hforest
    (by decide) (Machine.Path.refl _)).2.2.2.2.2.2.2

end Yaaf
