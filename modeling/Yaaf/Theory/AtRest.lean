import Yaaf.Theory.Orderly

/-!
# Coming to Rest

A context has no step that waits. Its pool takes tasks, its worker makes one pass after the
other, and what they do to mailboxes, exchanges and failures is all there is to do when
nobody asks for more. So it should come to rest: no task, no publication, no mail for
anybody who is registered.

That it does has two halves. No step of the pool or of the worker adds to the load, and
those that do some of the work take from it, so the work comes to an end whatever the order.
And as long as there is work, some of it can be done: a thread in a task can always take its
next step once the worker is out of the way, a queued task can be picked up when no thread
is left, and when nothing is in progress at all, the next pass finds whatever there is. That
rests on what the passes of the worker do, and on an idle pool, where no object is busy.

The context must not be about to stop: what the thread manager drops leaves its actor busy
for good.

## Main definitions

* `AtRest`: There is nothing to do.
* `Still`: Nothing is done any more.

## Theorems

* `goes_on`: As long as there is something to do, some of it can be done.
* `handed_of_atRest`: At rest, all mail was handed over.
* `context_comes_to_rest`: A context comes to rest by itself.
-/

namespace Yaaf

open Machine

variable {π : Type}

/-- There is nothing to do: the worker is idle, and so is the pool, and no exchange and no
    mailbox of a registered actor holds anything. -/
structure AtRest (s : System π) : Prop where
  worker : s.worker = .idle
  queue : s.queue = []
  running : s.running = []
  published : ∀ x ex, s.exchanges.lookup x = some ex → ex.pub = []
  mail : ∀ k m, s.mboxes.lookup k = some m → s.boxes m = []

section Progress

variable {cfg : Config} {name : String} {s s' u : System π}

/-- A pass that nothing interrupts goes on by itself. -/
theorem path_of_pass {began ok : Bool} (hpass : WholePass cfg name began ok s u s') :
    (context cfg name).Path Obliging s u ∧ (context cfg name).Path Obliging u s' := by
  rcases hpass with ⟨⟨s₁, hbegin, hfan⟩, _, ⟨v, hlock, hscan⟩, _⟩
  exact ⟨path_trans (path_of_step (a := .worker (.tryFanOut began)) rfl hbegin)
      (obliging_of_until hfan),
    path_trans (path_of_step (a := .worker (.tryScan ok)) rfl hlock) (obliging_of_until hscan)⟩

/-- How far the fan-out has come that began in `s`: it has done something, or it has found
    nothing so far. -/
def Fruitless (s v : System π) : Prop :=
  v.boxes = s.boxes ∧ v.exchanges = s.exchanges ∧
    (∀ x ex, s.exchanges.lookup x = some ex → ex.pub ≠ [] → x ∈ v.worker.exchanges) ∧
    ∀ x e ids todo, v.worker ≠ .delivering x e ids todo

/-- A step of the fan-out that finds nothing either has done nothing. -/
theorem fruitless_step {v w : System π} (hr : WorkerRule v w) (hfan : v.fanningOut = true)
    (hload : w.load + (v.serves).toNat ≤ v.load) (h : Fruitless s v) :
    w.load < v.load ∨ Fruitless s w := by
  rcases h with ⟨hboxes, hexchanges, hleft, hnone⟩
  cases hr with
  | nextExchange x todo hw hx =>
      refine Or.inr ⟨hboxes, hexchanges, fun y ex hy hpub => ?_, fun _ _ _ _ =>
        by simp only [ne_eq, reduceCtorEq, not_false_eq_true]⟩
      have hmem := hleft y ex hy hpub
      rw [hw] at hmem
      by_cases hyx : y = x
      · exact hyx ▸ List.mem_cons_self
      · exact List.mem_cons_of_mem x ((List.mem_erase_of_ne hyx).mpr hmem)
  | popCrash => exact Or.inr ⟨hboxes, hexchanges, hleft, hnone⟩
  | popEmpty x todo ex hw hx hpub =>
      refine Or.inr ⟨hboxes, hexchanges, fun y ey hy hfull => ?_, fun _ _ _ _ =>
        by simp only [ne_eq, reduceCtorEq, not_false_eq_true]⟩
      have hmem := hleft y ey hy hfull
      rw [hw] at hmem
      rcases List.mem_cons.mp hmem with rfl | hmem
      · rw [← hexchanges, hx, Option.some.injEq] at hy
        exact absurd (hy ▸ hpub) hfull
      · exact hmem
  | pop x todo ex e rest hw hx hpub =>
      have hserves : v.serves = true := by
        simp only [System.serves, hw, hx, hpub, List.isEmpty_cons, Bool.not_false]
      rw [hserves] at hload
      exact Or.inl hload
  | delivered x e todo hw => exact absurd hw (hnone x e [] todo)
  | deliverNone x e k ids todo hw | deliver x e k ids todo m hw =>
      exact absurd hw (hnone x e (k :: ids) todo)
  | endFanOut hw =>
      rw [hw] at hleft
      exact Or.inr ⟨hboxes, hexchanges, hleft, fun _ _ _ _ =>
        by simp only [ne_eq, reduceCtorEq, not_false_eq_true]⟩
  | tryFanOut hw | skipFanOut hw => exact absurd hfan (not_fanningOut hw rfl)
  | tryScan hw | skipScan hw => exact absurd hfan (not_fanningOut hw rfl)
  | visitEmpty _ _ _ _ hw | visitStale _ _ _ _ hw | visit _ _ _ _ _ hw | lockFail _ _ _ _ hw
  | lock _ _ _ _ hw | recheckEmpty _ _ _ _ hw | recheck _ _ _ _ hw | release _ _ _ hw
  | postCrash _ _ _ _ hw | post _ _ _ _ _ hw | cleanUp _ hw | skipCleanUp _ hw | purge _ hw
  | skipPurge _ hw => exact absurd hfan (not_fanningOut hw rfl)

/-- The worker begins a fan-out when nobody is in its way. -/
theorem tryFanOut_step (cfg : Config) (hrun : s.fate = .running) (hw : s.worker = .idle)
    (hup : s.shutdown = {}) (hx : s.canExclude = true) :
    step cfg s (.worker (.tryFanOut true)) =
      some { s with worker := .fanOut s.exchanges.keys, passDue := false } := by
  simp only [step, hrun, workerStep, hw, hup, hx, Bool.false_and, Bool.false_eq_true, if_false,
    if_true]

/-- A fan-out that does nothing finds every exchange empty. -/
theorem fanOut_does (h : Orderly cfg name {} s) (hw : s.worker = .idle)
    (hfan : (context cfg name).Path (Until .fanned)
      { s with worker := .fanOut s.exchanges.keys, passDue := false } u)
    (hfanned : u.worker = .fanned) :
    u.load < s.load ∨
      u.boxes = s.boxes ∧ ∀ x ex, s.exchanges.lookup x = some ex → ex.pub = [] := by
  have hbegin := tryFanOut_step cfg h.fate hw h.shutdown (canExclude_of_idle h hw)
  have hfirst := step_orderly (a := .worker (.tryFanOut true)) hbegin rfl h
  have hle := step_load_le (a := .worker (.tryFanOut true)) hbegin rfl h
  have hbegun : Fruitless s { s with worker := .fanOut s.exchanges.keys, passDue := false } := by
    refine ⟨rfl, rfl, fun x ex hx _ => ?_, fun _ _ _ _ =>
      by simp only [ne_eq, reduceCtorEq, not_false_eq_true]⟩
    exact AList.mem_keys.mp (AList.lookup_isSome.mp (by rw [hx]; rfl))
  have hend : u.load < s.load ∨ Fruitless s u := by
    refine (path_invariant (fun v => (Fanning s v ∧ Orderly cfg name {} v ∧ v.load ≤ s.load) ∧
      (v.load < s.load ∨ Fruitless s v)) (fun v a w ha hs hv => ?_) hfan
      ⟨⟨fanning_begin hbegin, hfirst, hle⟩, Or.inr hbegun⟩).2
    rcases ha with ⟨hnot, st, rfl⟩
    rcases hv with ⟨⟨hfanning, horderly, hle⟩, hv⟩
    have hs : step cfg v (.worker st) = some w := hs
    have hr := workerRule_of_step (workerStep_of_step hs).2
    have hnext := step_orderly hs rfl horderly
    have hload := step_load_up hs rfl horderly
    have hle' := Nat.le_of_add_right_le hload
    refine ⟨⟨fanning_step hr hfanning hnot, hnext, Nat.le_trans hle' hle⟩, ?_⟩
    rcases hv with hless | hnothing
    · exact Or.inl (Nat.lt_of_le_of_lt hle' hless)
    · rcases fruitless_step hr (hfanning.place.resolve_right hnot) hload hnothing with hless | hw
      · exact Or.inl (Nat.lt_of_lt_of_le hless hle)
      · exact Or.inr hw
  rcases hend with hless | ⟨hboxes, _, hleft, _⟩
  · exact Or.inl hless
  · refine Or.inr ⟨hboxes, fun x ex hx => ?_⟩
    by_contra hpub
    have hmem := hleft x ex hx hpub
    rw [hfanned] at hmem
    exact absurd hmem List.not_mem_nil

/-- The worker posts a task, or leaves the queue as it is. -/
theorem queue_of_worker (hr : WorkerRule s s') : s'.queue = s.queue ∨ s.serves = true := by
  cases hr with
  | post todo rm m d p hw hp => exact Or.inr (by simp only [System.serves, hw])
  | _ => exact Or.inl rfl

/-- A worker that does nothing posts nothing. -/
theorem worker_does {pc : WorkerPc π} (h : Orderly cfg name {} s)
    (hp : (context cfg name).Path (Until pc) s s') : s'.load < s.load ∨ s'.queue = s.queue := by
  refine (path_invariant (fun v => (Orderly cfg name {} v ∧ v.load ≤ s.load) ∧
    (v.load < s.load ∨ v.queue = s.queue)) (fun v a w ha hs hv => ?_) hp
    ⟨⟨h, Nat.le_refl _⟩, Or.inr rfl⟩).2
  rcases ha with ⟨_, st, rfl⟩
  rcases hv with ⟨⟨horderly, hle⟩, hv⟩
  have hs : step cfg v (.worker st) = some w := hs
  have hnext := step_orderly hs rfl horderly
  have hload := step_load_up hs rfl horderly
  have hle' := Nat.le_of_add_right_le hload
  refine ⟨⟨hnext, Nat.le_trans hle' hle⟩, ?_⟩
  rcases hv with hless | hsame
  · exact Or.inl (Nat.lt_of_le_of_lt hle' hless)
  · rcases queue_of_worker (workerRule_of_step (workerStep_of_step hs).2) with hqueue | hserves
    · exact Or.inr (hqueue.trans hsame)
    · -- The post itself is a part of the load.
      rw [System.works, hserves] at hload
      exact Or.inl (Nat.lt_of_lt_of_le hload hle)

/-- When nothing is in progress, nobody is busy. -/
theorem idle_of_nothing (h : Orderly cfg name {} s) (hw : s.worker = .idle) (hq : s.queue = [])
    (hr : s.running = []) (b : ActorPtr) : (s.objs b).busy = false := by
  have hdropped : s.dropped = [] :=
    (reach_poised h.reach).kept (by rw [System.accepts, h.shutdown]; rfl)
  have hnone : s.outstanding b = 0 := by
    rw [System.outstanding, hw, hq, hr, hdropped]
    rfl
  rw [(reach_delivers h.reach).balanced b] at hnone
  cases hbusy : (s.objs b).busy with
  | false => rfl
  | true =>
      rw [hbusy] at hnone
      exact absurd hnone Nat.one_ne_zero

/-- When nothing is in progress and there is something to do, a pass does a part of it. -/
theorem pass_does (h : Orderly cfg name {} s) (hw : s.worker = .idle) (hq : s.queue = [])
    (hr : s.running = []) (hnot : ¬ AtRest s) :
    ∃ t, (context cfg name).Path Obliging s t ∧ t.worker = .idle ∧ t.load < s.load := by
  have hreg := (reach_delivers h.reach).registered
  have hbegin := tryFanOut_step cfg h.fate hw h.shutdown (canExclude_of_idle h hw)
  have hends : ∃ u t, WholePass cfg name true true s u t :=
    pass_ends hreg h.forest h.shutdown hbegin true
  rcases hends with ⟨u, t, hpass⟩
  rcases path_of_pass hpass with ⟨hfirst, hsecond⟩
  rcases hpass with ⟨⟨s₁, hbegin', hfan⟩, hfanned, ⟨v, hlock, hscan⟩, hidle⟩
  have hs₁ := Option.some.inj (hbegin'.symm.trans hbegin)
  refine ⟨t, path_trans hfirst hsecond, hidle, ?_⟩
  have hu := orderly_of_path hfirst h
  have hv := step_orderly (a := .worker (.tryScan true)) hlock rfl hu.1
  have hv' := step_load_le (a := .worker (.tryScan true)) hlock rfl hu.1
  have ht := (orderly_of_path (obliging_of_until hscan) hv).2
  rcases fanOut_does h hw (hs₁ ▸ hfan) hfanned with hless | ⟨hboxes, hpub⟩
  · exact Nat.lt_of_le_of_lt (Nat.le_trans ht hv') hless
  rcases worker_does hv hscan with hless | hqueue
  · exact Nat.lt_of_lt_of_le hless (Nat.le_trans hv' hu.2)
  -- Nothing was done, so there was nothing.
  refine absurd ⟨hw, hq, hr, hpub, fun k m hm => ?_⟩ hnot
  by_contra hmail
  rcases fanned_of_path hreg h.forest hbegin (hs₁ ▸ hfan) with ⟨hfanning, hregU, hforestU⟩
  have hveq := Option.some.inj (hlock.symm.trans (tryScan_step hfanning.fate hfanned true))
  have hsweeping : Sweeping u v := by
    rw [hveq]
    exact sweeping_begin hfanning.fate
  rcases sweeping_of_path hscan (step_registered hlock hregU) hforestU
    (hfanning.shutdown.trans h.shutdown) hsweeping with
    ⟨tasks, todo, pc, hswept, hwt | ⟨rfl, rfl, _⟩⟩
  · rw [hidle] at hwt
    exact absurd hwt (by simp only [reduceCtorEq, not_false_eq_true])
  have hdone : Dispatched s t tasks := swept_all hfanning hswept
  have hnone : tasks = [] := by
    have hall := hdone.queue
    rw [hqueue, hveq] at hall
    change u.queue = _ at hall
    rw [hfanning.queue] at hall
    exact List.map_eq_nil_iff.mp (List.append_right_eq_self.mp hall.symm)
  rcases live_of_mbox hreg.toFiled hm with ⟨d, _, hd, _, _⟩
  have hunmoved : Unmoved s t := ⟨hswept.fate, hswept.actors.trans hfanning.actors,
    hswept.mboxes.trans hfanning.mboxes, hswept.shutdown.trans hfanning.shutdown⟩
  have hhas : HasMail t d.actor :=
    hasMail_of_unmoved hunmoved (fun n => ⟨[], by rw [hswept.boxes, hboxes, List.append_nil]⟩)
      ⟨k, m, d, hd, rfl, hm, hmail⟩
  have hmem := (hdone.mem d.actor).mpr ⟨idle_of_nothing h hw hq hr d.actor, hhas⟩
  rw [hnone] at hmem
  exact absurd hmem List.not_mem_nil

/-- As long as there is something to do, some of it can be done. -/
theorem goes_on (hthreads : 0 < cfg.userThreads) (h : Orderly cfg name {} s)
    (hw : s.worker = .idle) (hnot : ¬ AtRest s) :
    ∃ t, (context cfg name).Path Obliging s t ∧ t.worker = .idle ∧ t.load < s.load := by
  cases hr : s.running with
  | cons r rest =>
      have hi : s.running[0]? = some r := by rw [hr, List.getElem?_cons_zero]
      rcases thread_goes h hw hi with ⟨st, t, hst, hs⟩
      exact ⟨t, path_of_step (a := .task 0 st) hst hs,
        (worker_of_step hs fun _ => by simp only [ne_eq, reduceCtorEq, not_false_eq_true]).trans hw,
        step_load_up (a := .task 0 st) hs hst h⟩
  | nil =>
      cases hq : s.queue with
      | nil => exact pass_does h hw hq hr hnot
      | cons x rest =>
          let t : System π := { s with
            queue := rest
            running := s.running ++ [x.taken]
            trace := s.trace ++ x.takenEvent }
          have hs : step cfg s .pick = some t := by
            simp only [step, h.fate, pick, hr, hq, h.shutdown, List.length_nil, hthreads,
              decide_true, Bool.not_false, Bool.and_self, if_true, t]
          exact ⟨t, path_of_step (a := .pick) rfl hs, hw, pick_load hq⟩

/-- Whatever was pushed to the mailbox of a registered actor was handed to it, when the
    context is at rest. -/
theorem handed_of_atRest (hd : Delivers s) (h : AtRest s) {k : IdT} {m : MailboxPtr}
    (hm : s.mboxes.lookup k = some m) : s.handedFrom m = s.pushedTo m := by
  rcases hd.carries m with ⟨c, hc⟩
  have hqueued : c.queued = [] := hc.queued.symm.trans (h.mail k m hm)
  have hclaimed : c.claimed.toList = [] := by
    rw [← hc.claimed, System.inTransit, h.running]
    rfl
  rw [hc.handed, hc.arrived, ← c.exact, hqueued, hclaimed, List.append_nil, List.append_nil]

/-- The worker has nothing in hand. -/
def WorkerPc.free : WorkerPc π → Bool
  | .scan _ _ .next => true
  | .delivering _ _ _ _ | .scan _ _ _ => false
  | _ => true

/-- Nothing is left to do, wherever the worker is in its pass. -/
structure Still (s : System π) : Prop where
  queue : s.queue = []
  running : s.running = []
  published : ∀ x ex, s.exchanges.lookup x = some ex → ex.pub = []
  mail : ∀ k m, s.mboxes.lookup k = some m → s.boxes m = []
  free : s.worker.free = true

theorem still_of_worker (hr : WorkerRule s s') (hreg : Registered s) (h : Still s) : Still s' := by
  have hmove : ∀ pc : WorkerPc π, pc.free = true → Still { s with worker := pc } := fun pc hpc =>
    ⟨h.queue, h.running, h.published, h.mail, hpc⟩
  -- Whatever is to be visited is empty.
  have hempty : ∀ {todo : List (IdT × MailboxPtr)} {rm : List IdT} {k : IdT} {m : MailboxPtr},
      s.worker = .scan todo rm .next → (k, m) ∈ todo → s.boxes m = [] := by
    intro todo rm k m hw hk
    have hscan := hreg.scanned
    simp only [Scanned, hw] at hscan
    exact h.mail k m (hscan.2.1 (k, m) hk)
  have hfree := h.free
  cases hr with
  | tryFanOut | skipFanOut => exact ⟨h.queue, h.running, h.published, h.mail, rfl⟩
  | nextExchange | popEmpty | endFanOut | tryScan | skipScan | visitEmpty | skipCleanUp
  | skipPurge => exact hmove _ rfl
  | popCrash x todo hw => exact ⟨h.queue, h.running, h.published, h.mail, hfree⟩
  | pop x todo ex e rest hw hx hpub =>
      rw [h.published x ex hx] at hpub
      exact absurd hpub.symm (List.cons_ne_nil e rest)
  | visitStale todo rm k m hw hk hm hd => exact absurd (hempty hw hk) hm
  | visit todo rm k m d hw hk hm hd => exact absurd (hempty hw hk) hm
  | delivered x e todo hw | deliverNone x e k ids todo hw | deliver x e k ids todo m hw
  | lockFail todo rm m d hw | lock todo rm m d hw | recheckEmpty todo rm m d hw
  | recheck todo rm m d hw | release todo rm d hw | postCrash todo rm m d hw
  | post todo rm m d p hw =>
      rw [hw] at hfree
      exact absurd hfree Bool.false_ne_true
  | cleanUp rm hw =>
      refine ⟨h.queue, h.running, fun x ex hx => ?_, h.mail, rfl⟩
      change (s.unusedExchanges.foldl (fun xs n => xs.erase n) s.exchanges).lookup x = some ex at hx
      rw [foldl_erase_lookup] at hx
      split at hx
      · exact absurd hx (by simp only [reduceCtorEq, not_false_eq_true])
      · exact h.published x ex hx
  | purge rm hw hx =>
      refine ⟨h.queue, h.running, h.published, fun k m hm => ?_, rfl⟩
      change (rm.foldl (fun ms k => ms.erase k) s.mboxes).lookup k = some m at hm
      rw [foldl_erase_lookup] at hm
      split at hm
      · exact absurd hm (by simp only [reduceCtorEq, not_false_eq_true])
      · exact h.mail k m hm

/-- Where nothing is left to do, nothing is done. -/
theorem step_still {a : Action π} (hs : step cfg s a = some s') (ha : Obliging s a)
    (hreg : Registered s) (h : Still s) : Still s' ∧ s.works a = false := by
  have hfree := h.free
  cases (stepRule_of_step hs).2 with
  | pick t rest hq hn hu =>
      rw [h.queue] at hq
      exact absurd hq.symm (List.cons_ne_nil t rest)
  | task i st s' hr =>
      have hnone : s.running[i]? = none := by rw [h.running, List.getElem?_nil]
      cases hr with
      | startHalt b m hi | startReturn b m hi | apply t pc s' hi =>
          rw [hnone] at hi
          exact absurd hi (by simp only [reduceCtorEq, not_false_eq_true])
  | worker st s' hr =>
      refine ⟨still_of_worker hr hreg h, ?_⟩
      simp only [System.works, System.serves]
      split
      · split
        · rfl
        · rename_i hx
          rw [h.published _ _ hx]
          rfl
      · rename_i hw
        rw [hw] at hfree
        exact absurd hfree Bool.false_ne_true
      · rename_i hw
        rw [hw] at hfree
        exact absurd hfree Bool.false_ne_true
      · rfl
  | _ => exact absurd ha Bool.false_ne_true

theorem still_of_atRest (h : AtRest s) : Still s :=
  ⟨h.queue, h.running, h.published, h.mail, by rw [h.worker]; rfl⟩

/-- A context comes to rest by itself. Take any state in which the actors form a forest, no
    `context::stop` has begun and no thread is in an `ESCALATE` loop, with whatever is under
    way: tasks, failures, publications, a pass. As long as nobody calls anything, nothing
    escapes from a thread and no supervisor escalates, the process goes on, and the steps
    that do some of the work are no more than the load. From wherever it has got to it can
    come to rest, where all that was pushed to the mailbox of a registered actor was handed
    to it, in order, and where it stays. -/
theorem context_comes_to_rest (hthreads : 0 < cfg.userThreads)
    (h : (context cfg name).Reach free s) (hfate : s.fate = .running) (hup : s.shutdown = {})
    (hforest : Forest s) (hcalm : ∀ r ∈ s.running, r.climbs = false) {t : System π} {n : Nat}
    (hp : ((context cfg name).track 0 fun s a _ n => n + (s.works a).toNat).Path
      (fun q a => Obliging q.1 a) (s, 0) (t, n)) :
    t.fate = .running ∧ n + t.load ≤ s.load ∧
      ∃ u, (context cfg name).Path Obliging t u ∧ AtRest u ∧
        (∀ k m, u.mboxes.lookup k = some m → u.handedFrom m = u.pushedTo m) ∧
        ∀ v a w, (context cfg name).Path Obliging u v → Obliging v a → step cfg v a = some w →
          v.works a = false := by
  have hstart : Orderly cfg name {} s := ⟨h, hfate, hup, rfl, hforest, hcalm⟩
  -- Whatever is done is taken off the load.
  have hcount : Orderly cfg name {} t ∧ n + t.load ≤ s.load := by
    refine path_invariant (fun q => Orderly cfg name {} q.1 ∧ q.2 + q.1.load ≤ s.load)
      (fun q a r ha hs hq => ?_) hp ⟨hstart, Nat.le_of_eq (Nat.zero_add _)⟩
    rcases track_step.mp hs with ⟨hone, hn⟩
    have hload := step_load_up hone ha hq.1
    refine ⟨step_orderly hone ha hq.1, ?_⟩
    have hle := hq.2
    rw [hn]
    omega
  -- The worker ends its pass, and then there is always something to be done, or nothing.
  rcases goes_idle hcount.1 with ⟨t', hfirst, hidle⟩
  rcases path_reaches (M := context cfg name) (C := Obliging)
    (fun v => Orderly cfg name {} v ∧ v.worker = .idle) AtRest System.load (fun v hv hnot => by
      rcases goes_on hthreads hv.1 hv.2 hnot with ⟨w, hpath, hw, hless⟩
      exact ⟨w, hpath, ⟨(orderly_of_path hpath hv.1).1, hw⟩, hless⟩)
    ⟨(orderly_of_path hfirst hcount.1).1, hidle⟩ with ⟨u, hrest, hu, hat⟩
  have hd : Delivers u := reach_delivers hu.1.reach
  refine ⟨hcount.1.fate, hcount.2, u, path_trans hfirst hrest, hat,
    fun k m hm => handed_of_atRest hd hat hm, fun v a w hpath ha hs => ?_⟩
  have hv : Orderly cfg name {} v ∧ Still v := by
    refine path_invariant (fun v => Orderly cfg name {} v ∧ Still v) (fun v a w ha hs hv => ?_)
      hpath ⟨hu.1, still_of_atRest hat⟩
    exact ⟨step_orderly hs ha hv.1,
      (step_still hs ha (reach_registered hv.1.reach) hv.2).1⟩
  exact (step_still hs ha (reach_registered hv.1.reach) hv.2).2

end Progress

/-- A handler has failed with mail left, and something is published. -/
def failingRun : List (Action Nat) :=
  register "a" .null 3 ++ register "b" .null 4 ++ runStarts 5 ++
    [.call (.subscribeToExchange ⟨⟨4⟩, "/root/usr/a"⟩ "x"),
      .call (.publishToExchange "x" ⟨some 7, .null⟩),
      .call (.sendEnvelope ⟨⟨5⟩, "/root/usr/b"⟩ ⟨some 8, .null⟩),
      .call (.sendEnvelope ⟨⟨5⟩, "/root/usr/b"⟩ ⟨some 9, .null⟩)] ++
    dispatchPass ⟨5⟩ [⟨1⟩, ⟨2⟩, ⟨3⟩, ⟨4⟩] ++
    [.pick, .task 0 .entry, .task 0 .tryPop, .task 0 .callHandler, .task 0 (.handlerThrow "what"),
      .task 0 .updateStatus, .task 0 .resetBusy]

/-- It comes to rest from there, within fifty steps that do some of the work. -/
theorem context_comes_to_rest_failingRun :
    ((context (.plain 1) "ctx").after failingRun).load = 50 ∧
      ∃ u, (context (.plain 1) "ctx").Path Obliging
        ((context (.plain 1) "ctx").after failingRun) u ∧ AtRest u := by
  refine ⟨by decide, ?_⟩
  have hforest : Forest ((context (.plain 1) "ctx").after failingRun) :=
    forest_of_reach (reach_meets _ (by decide)) (by unfold System.fewCalls; decide)
  have hthreads : 0 < (Config.plain 1).userThreads := by decide
  rcases context_comes_to_rest hthreads (reach_after failingRun) (by decide) (by decide) hforest
    (by decide) (Machine.Path.refl _) with ⟨_, _, u, hpath, hrest, _⟩
  exact ⟨u, hpath, hrest⟩

end Yaaf
