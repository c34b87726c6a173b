import Yaaf.Theory.Poised
import Yaaf.Theory.Threads

/-!
# What Goes On by Itself

The pool takes tasks and the worker makes one pass after the other, without anybody
asking. This is what holds of a context where nothing else happens: the process goes on,
the actors stay a forest, nobody begins an `ESCALATE` loop, and the load does not grow.
What is done is off the load. Only a task that the thread manager drops is nowhere and off
nobody's load, as nobody comes for the mail it was for.

Whatever the worker is at, it can get to the end of its pass, and when it is idle, each
thread can take its next step.

Some states are excluded, and for a reason. After an orphan was made, the worker may post
for it and dereference an absent parent. A climb in an `ESCALATE` loop may run out of
ancestors.

## Main definitions

* `Orderly`: A context that can go on.

## Theorems

* `step_orderly`: It stays one.
* `step_load`, `step_load_le`: What becomes of the load.
* `goes_idle`, `thread_goes`: What can go on.
-/

namespace Yaaf

open Machine

variable {π : Type}

/-- A context that can go on, as far as the flags of its shutdown let it: its actors form a
    forest, and no thread is in an `ESCALATE` loop. -/
structure Orderly (cfg : Config) (name : String) (flags : Shutdown) (s : System π) : Prop where
  reach : (context cfg name).Reach free s
  fate : s.fate = .running
  shutdown : s.shutdown = flags
  joined : flags.joined = false
  forest : Forest s
  calm : ∀ r ∈ s.running, r.climbs = false

section Orderly

variable {cfg : Config} {name : String} {flags : Shutdown} {s s' : System π} {a : Action π}

theorem forest_of_live (hlive : s'.live = s.live) (h : Forest s) : Forest s' := by
  unfold Forest
  rw [hlive]
  exact h

/-- A stop leaves a forest, and nothing else a thread does is about it. -/
theorem forest_of_task {i : Nat} (hr : TaskRule cfg s i s') (h : Forest s) : Forest s' := by
  cases hr with
  | startHalt | startReturn => exact h
  | apply t pc s' hi hr =>
      cases hr with
      | stop pc u hb hx hu => exact forest_of_live (s := u) rfl (forest_of_stops h hu)
      | reinit f u hx hu => exact forest_of_live (s := u) rfl (forest_of_stops h hu)
      | _ => exact h

theorem fate_of_worker (hr : WorkerRule s s') (h : Orderly cfg name flags s) :
    s'.fate = .running := by
  have hd : Delivers s := reach_delivers h.reach
  have hpost : ∀ t, (s.userPost t).fate = .running := by
    intro t
    unfold System.userPost
    rw [h.shutdown, h.joined]
    cases flags.dropping <;> exact h.fate
  cases hr with
  | popCrash x todo hw hx =>
      have hthere := (reach_poised h.reach).visits x (by rw [hw]; exact List.mem_cons_self)
      rw [hx] at hthere
      exact absurd hthere Bool.false_ne_true
  | postCrash todo rm m d hw hp hlive =>
      -- The parent of a live actor is live.
      rcases visit_entry hd.registered hw rfl with ⟨k, _, hd, _, _, _⟩
      have habove : d.above = some d.parent := by
        rw [Description.above, hp]
        rfl
      rcases h.forest.rooted k d d.parent hd habove with ⟨up, hup, _⟩
      rw [hlive] at hup
      exact absurd hup (by simp only [reduceCtorEq, not_false_eq_true])
  | post todo rm m d p hw hp => exact hpost _
  | _ => exact h.fate

theorem calm_of_wanes {i : Nat} {r : Running π} (hw : Wanes s s' i r)
    (h : ∀ r ∈ s.running, r.climbs = false) : ∀ r ∈ s'.running, r.climbs = false := by
  intro x hx
  cases hw with
  | moves t pc pc' hr hb hless hclimb hmail =>
      rw [hr] at hx
      rcases List.mem_or_eq_of_mem_set hx with hx | rfl
      · exact h x hx
      · exact hclimb
  | pops t e rest hm hr hb =>
      rw [hr] at hx
      rcases List.mem_or_eq_of_mem_set hx with hx | rfl
      · exact h x hx
      · rfl
  | ends r hr hb hpops hload =>
      rw [hr] at hx
      exact h x (List.mem_of_mem_eraseIdx hx)

/-- A context that can go on stays one. -/
theorem step_orderly (hs : step cfg s a = some s') (ha : Obliging s a)
    (h : Orderly cfg name flags s) : Orderly cfg name flags s' := by
  have hreach : (context cfg name).Reach free s' := Machine.Path.tail a h.reach trivial hs
  have hrule := (stepRule_of_step hs).2
  cases a with
  | pick =>
      cases hrule with
      | pick t rest hq hn hu =>
          refine ⟨hreach, h.fate, h.shutdown, h.joined, h.forest, fun r hr => ?_⟩
          rcases List.mem_append.mp hr with hr | hr
          · exact h.calm r hr
          · rw [List.mem_singleton.mp hr]
            cases t <;> rfl
  | task i st =>
      rcases wanes_of_step hs ha (reach_poised h.reach).supervised with ⟨r, hi, hsame, hwanes⟩
      cases hrule with
      | task i st s' hr =>
          exact ⟨hreach, hsame.fate.trans h.fate, hsame.shutdown.trans h.shutdown, h.joined,
            forest_of_task hr h.forest, calm_of_wanes hwanes h.calm⟩
  | worker st =>
      cases hrule with
      | worker st s' hr =>
          have hlive : s'.live = s.live := by
            unfold System.live
            rw [workerRule_rest hr]
          have hshutdown : s'.shutdown = s.shutdown := by rw [workerRule_rest hr]
          have hrunning : s'.running = s.running := by rw [workerRule_rest hr]
          exact ⟨hreach, fate_of_worker hr h, hshutdown.trans h.shutdown, h.joined,
            forest_of_live hlive h.forest, hrunning ▸ h.calm⟩
  | _ => exact absurd ha Bool.false_ne_true

/-- What is done is off the load, but for a task that the thread manager drops. -/
theorem step_load (hs : step cfg s a = some s') (ha : Obliging s a)
    (h : Orderly cfg name flags s) :
    s'.load + (s.works a).toNat ≤ s.load ∨
      s'.load ≤ s.load ∧ s.accepts = false ∧ ∃ st, a = .worker st := by
  have hd : Delivers s := reach_delivers h.reach
  have hpoised : Poised s := reach_poised h.reach
  have hnext := step_orderly hs ha h
  have hrule := (stepRule_of_step hs).2
  cases a with
  | pick =>
      cases hrule with
      | pick t rest hq hn hu => exact Or.inl (pick_load hq)
  | task i st =>
      rcases wanes_of_step hs ha hpoised.supervised with ⟨r, hi, hsame, hwanes⟩
      have hmb : ∀ t pc, r = .applying t pc → t.mb < s.nextBox := by
        rintro t pc rfl
        exact mb_lt hd.registered.toFiled hd.backed hi
      exact Or.inl (load_of_wanes hi hsame hmb hwanes)
  | worker st =>
      cases hrule with
      | worker st s' hr =>
          rcases worker_load hr hnext.fate hd hpoised.hand with hload | ⟨hload, hacc⟩
          · exact Or.inl hload
          · exact Or.inr ⟨hload, hacc, st, rfl⟩
  | _ => exact absurd ha Bool.false_ne_true

theorem step_load_le (hs : step cfg s a = some s') (ha : Obliging s a)
    (h : Orderly cfg name flags s) : s'.load ≤ s.load := by
  rcases step_load hs ha h with hload | ⟨hload, _⟩
  · exact Nat.le_of_add_right_le hload
  · exact hload

/-- Before a stop nothing is dropped. -/
theorem step_load_up (hs : step cfg s a = some s') (ha : Obliging s a)
    (h : Orderly cfg name {} s) : s'.load + (s.works a).toNat ≤ s.load := by
  rcases step_load hs ha h with hload | ⟨_, hacc, _⟩
  · exact hload
  · rw [System.accepts, h.shutdown] at hacc
    exact absurd hacc Bool.true_eq_false.mp

theorem orderly_of_path (hp : (context cfg name).Path Obliging s s')
    (h : Orderly cfg name flags s) : Orderly cfg name flags s' ∧ s'.load ≤ s.load := by
  refine path_invariant (fun t => Orderly cfg name flags t ∧ t.load ≤ s.load)
    (fun t a u ha hs ht => ?_) hp ⟨h, Nat.le_refl _⟩
  exact ⟨step_orderly hs ha ht.1, Nat.le_trans (step_load_le hs ha ht.1) ht.2⟩

end Orderly

section Progress

variable {cfg : Config} {name : String} {flags : Shutdown} {s s' u : System π}

/-- A worker on its own is one way to go on. -/
theorem obliging_of_until {pc : WorkerPc π} (hp : (context cfg name).Path (Until pc) s s') :
    (context cfg name).Path Obliging s s' :=
  path_weaken (fun t a ha => by
    rcases ha.2 with ⟨st, rfl⟩
    rfl) hp

theorem path_of_step {a : Action π} (ha : Obliging s a) (hs : step cfg s a = some s') :
    (context cfg name).Path Obliging s s' :=
  Machine.Path.tail a (Machine.Path.refl s) ha hs

/-- A step of the scan stays in it or ends it. -/
theorem scanning_or_idle (hr : WorkerRule s s') (hpos : 0 < s.worker.scanWork) :
    0 < s'.worker.scanWork ∨ s'.worker = .idle := by
  cases hr with
  | tryFanOut hw | skipFanOut hw | tryScan hw | skipScan hw | endFanOut hw | nextExchange _ _ hw
  | popCrash _ _ hw | popEmpty _ _ _ hw | pop _ _ _ _ _ hw | delivered _ _ _ hw
  | deliverNone _ _ _ _ _ hw | deliver _ _ _ _ _ _ hw =>
      rw [hw] at hpos
      exact absurd hpos (Nat.lt_irrefl 0)
  | postCrash => exact Or.inl hpos
  | cleanUp | skipCleanUp => exact Or.inl Nat.one_pos
  | purge | skipPurge => exact Or.inr rfl
  | _ => exact Or.inl (Nat.succ_pos _)

/-- The scan can be finished from wherever it is. -/
theorem scan_finishes (h : Orderly cfg name flags s) (hpos : 0 < s.worker.scanWork) :
    ∃ t, (context cfg name).Path Obliging s t ∧ t.worker = .idle := by
  refine path_ends (fun t => Orderly cfg name flags t ∧ (0 < t.worker.scanWork ∨ t.worker = .idle))
    (fun t => t.worker = .idle) (fun t => t.worker.scanWork) (fun t ht hnot => ?_)
    ⟨h, Or.inl hpos⟩
  have hpos := ht.2.resolve_right hnot
  rcases scan_goes hpos with ⟨st, w, hw⟩
  have hr := workerRule_of_step hw
  have hs : step cfg t (.worker st) = some w := by
    unfold step
    rw [if_pos ht.1.fate]
    exact hw
  have hnext := step_orderly (a := .worker st) hs rfl ht.1
  exact ⟨.worker st, w, rfl, hs, ⟨hnext, scanning_or_idle hr hpos⟩, scanWork_lt hr hnext.fate hpos⟩

/-- Whatever the worker is at, it can get to the end of its pass. -/
theorem goes_idle (h : Orderly cfg name flags s) :
    ∃ t, (context cfg name).Path Obliging s t ∧ t.worker = .idle := by
  have hskip : ∀ t : System π, Orderly cfg name flags t → t.worker = .fanned →
      ∃ v, (context cfg name).Path Obliging t v ∧ v.worker = .idle := fun t ht hw =>
    ⟨_, path_of_step (a := .worker (.tryScan false)) rfl (tryScan_step ht.fate hw false), rfl⟩
  by_cases hfan : s.fanningOut = true
  · have hfanning : Fanning s s := ⟨⟨h.fate, rfl, rfl, rfl⟩,
      fun m => ⟨[], (List.append_nil _).symm⟩, rfl, rfl, (reach_poised h.reach).visits, Or.inl hfan⟩
    have hends : ∃ t, (context cfg name).Path (Until .fanned) s t ∧ t.worker = .fanned :=
      fanOut_ends hfanning
    rcases hends with ⟨t, hpath, hfanned⟩
    have hfirst := obliging_of_until hpath
    rcases hskip t (orderly_of_path hfirst h).1 hfanned with ⟨v, hrest, hidle⟩
    exact ⟨v, path_trans hfirst hrest, hidle⟩
  · cases hw : s.worker with
    | idle => exact ⟨s, Machine.Path.refl s, hw⟩
    | fanned => exact hskip s h hw
    | scan todo rm pc => exact scan_finishes h (by rw [hw]; exact Nat.succ_pos _)
    | purging rm => exact scan_finishes h (by rw [hw]; exact Nat.one_pos)
    | fanOut | draining | delivering =>
        exact absurd (by simp only [System.fanningOut, hw]) hfan

theorem canExclude_of_idle (h : Orderly cfg name flags s) (hw : s.worker = .idle) :
    s.canExclude = true := by
  have hnone : s.running.any Running.escalates = false := by
    refine List.any_eq_false.mpr fun r hr hesc => ?_
    have hcalm := h.calm r hr
    cases r with
    | starting a m => exact absurd hesc Bool.false_ne_true
    | applying t pc =>
        cases pc <;> first
        | exact absurd hesc Bool.false_ne_true
        | exact absurd hcalm.symm Bool.false_ne_true
  simp only [System.canExclude, System.fanningOut, System.scanning, hw, hnone, Bool.not_false,
    Bool.and_self]

/-- A thread can always go on, when the worker is idle. -/
theorem thread_goes (h : Orderly cfg name flags s) (hw : s.worker = .idle) {i : Nat} {r : Running π}
    (hi : s.running[i]? = some r) :
    ∃ st s', TaskStep.obliges st = true ∧ step cfg s (.task i st) = some s' := by
  cases r with
  | starting a m =>
      refine ⟨.startReturn false, (s.emit (.startEnd a m)).finish i, rfl, ?_⟩
      simp only [step, h.fate, taskStep, hi, Bool.false_eq_true, if_false, if_true]
  | applying t pc =>
      have hstop : ∃ v, s.stopActorImplSafety cfg t.target.address .except = some v :=
        stopActorImplSafety_forest h.forest _
      rcases hstop with ⟨v, hv⟩
      have hx := canExclude_of_idle h hw
      have hparent := (reach_poised h.reach).supervised t pc (List.mem_of_getElem? hi)
      suffices hgo : ∃ st s', TaskStep.obliges st = true ∧ applyStep cfg s i t st pc = some s' by
        rcases hgo with ⟨st, s', hst, hs⟩
        exact ⟨st, s', hst, (step_of_applying h.fate hi).trans hs⟩
      cases pc with
      | entry => exact ⟨.entry, _, rfl, rfl⟩
      | draining =>
          refine ⟨.tryPop, ?_⟩
          cases hm : s.boxes t.mb with
          | nil => exact ⟨_, rfl, by simp only [applyStep, hm]; rfl⟩
          | cons e rest => exact ⟨_, rfl, by simp only [applyStep, hm]; rfl⟩
      | popped e => exact ⟨.callHandler, _, rfl, rfl⟩
      | handling e => exact ⟨.handlerReturn, _, rfl, rfl⟩
      | drained => exact ⟨.updateStatus, _, rfl, rfl⟩
      | threw what => exact ⟨.updateStatus, _, rfl, rfl⟩
      | resetting rethrow => exact ⟨.resetBusy, _, rfl, rfl⟩
      | returned =>
          refine ⟨.childStatus false, ?_⟩
          cases hp : t.parent with
          | none => exact ⟨_, rfl, by simp only [applyStep, hp]; rfl⟩
          | some p => exact ⟨_, rfl, by simp only [applyStep, hp]; rfl⟩
      | caught f =>
          refine ⟨.childError (some .resume), ?_⟩
          cases hp : t.parent with
          | none => exact ⟨_, rfl, by simp only [applyStep, hp, hx, hv]; rfl⟩
          | some p => exact ⟨_, rfl, by simp only [applyStep, hp]; rfl⟩
      | locking f | escalating f d =>
          exact absurd (h.calm _ (List.mem_of_getElem? hi)).symm Bool.false_ne_true
      | deciding f action =>
          rcases Option.isSome_iff_exists.mp (hparent rfl) with ⟨p, hp⟩
          refine ⟨.decide false, ?_⟩
          cases action with
          | reinit => exact ⟨_, rfl, by simp only [applyStep, onActorError, hx, hv]; rfl⟩
          | stop => exact ⟨_, rfl, by simp only [applyStep, onActorError, hx, hv]; rfl⟩
          | escalate => exact ⟨_, rfl, rfl⟩
          | resume => exact ⟨_, rfl, by simp only [applyStep, onActorError, hp]; rfl⟩
      | restarting f => exact ⟨.restartReturn false, _, rfl, rfl⟩

end Progress

end Yaaf
