import Yaaf.Theory.Failures
import Yaaf.Theory.Population

/-!
# Escalation

When the parent of a failed actor answers `ESCALATE`, the thread takes the
shared lock and climbs: it looks up the parent of the actor it has in hand,
asks it, and goes on from there. The result of the lookup is dereferenced
without a test, unlike the lookup of a parent in `stop_actor_impl`.

What the thread starts from is old. The description was captured when the
task was posted, and the first answer came from a pointer captured with it,
without any lock. By the time the lock is taken the parent may be stopped and
gone. From then on nothing moves: the lock excludes every change of `_actors`,
so the climb succeeds or fails with the state the lock was taken in.

The climb ends because the framework's own actors do not override
`on_child_error`, whose default answer is `RESUME`. `RootsResume` says this of
a label; the answers of all other actors are open.

## Main definitions

* `Config.framework`, `RootsResume`: The actors whose answer is known.
* `Asked`: Whom a climb can reach.
* `Climbs`: The ancestors are there when the lock is taken.

## Theorems

* `escalating_of_step`: How a thread gets into the loop and around it.
* `reach_asked`: Whomever a climb can reach, some answers lead to.
* `escalation_finds_ancestors`: No lookup fails, exactly under the condition.
-/

namespace Yaaf

variable {π : Type}

/-- The framework's own actor objects: `root`, `usr`, `sys`, and `net` where
    the network part is compiled in. -/
def Config.framework (cfg : Config) (a : ActorPtr) : Bool :=
  decide (a < if cfg.network then 4 else 3)

/-- Whom a step asks for a decision, and what the answer is. -/
def System.asks (s : System π) : Action π → Option (ActorPtr × Option ActorActionWhenError)
  | .task i (.childError answer) => match s.running[i]? with
    | some (.applying t (.caught _)) => t.parent.map fun p => (p, answer)
    | _ => none
  | .task i (.escalate answer) => match s.running[i]? with
    | some (.applying _ (.escalating _ d)) => (s.live d.parent).map fun up => (up.actor, answer)
    | _ => none
  | _ => none

/-- The framework's own actors answer `RESUME`. -/
def RootsResume (cfg : Config) (s : System π) (a : Action π) : Prop :=
  ∀ q ∈ s.asks a, cfg.framework q.1 = true → q.2 = some .resume

instance (cfg : Config) (s : System π) (a : Action π) : Decidable (RootsResume cfg s a) :=
  inferInstanceAs (Decidable (∀ q ∈ s.asks a, _))

/-- The ids a climb that begins with the lookup of `p` can look up: it goes on
    from whoever may answer `ESCALATE`. -/
inductive Asked (cfg : Config) (s : System π) (p : IdT) : IdT → Prop
  | first : Asked cfg s p p
  | next {q : IdT} {d : Description} : Asked cfg s p q → s.live q = some d →
      cfg.framework d.actor = false → Asked cfg s p d.parent

/-- Everybody a climb from `d` can ask is registered. -/
def Chained (cfg : Config) (s : System π) (d : Description) : Prop :=
  ∀ q, Asked cfg s d.parent q → (s.live q).isSome = true

/-- Where the step begins a climb. -/
def System.climbing (s : System π) : Action π → Option Description
  | .task i .lockShared => match s.running[i]? with
    | some (.applying t (.locking _)) => some t.target
    | _ => none
  | _ => none

/-- If the step takes the lock for a climb, then everybody the climb can ask
    is registered at that moment. -/
structure Climbs (cfg : Config) (s : System π) (a : Action π) : Prop where
  roots : RootsResume cfg s a
  chained : ∀ d ∈ s.climbing a, Chained cfg s d

section Escalation

variable {cfg : Config} {s s' : System π} {a : Action π}

theorem asked_congr (hlive : ∀ k, s'.live k = s.live k) {p q : IdT} (h : Asked cfg s' p q) :
    Asked cfg s p q := by
  induction h with
  | first => exact Asked.first
  | next _ hd hf ih => exact Asked.next ih (by rw [← hlive, hd]) hf

/-- What a climb can reach from the next actor, it can reach from this one. -/
theorem asked_up {p q : IdT} {d : Description} (hd : s.live p = some d)
    (hf : cfg.framework d.actor = false) (h : Asked cfg s d.parent q) : Asked cfg s p q := by
  induction h with
  | first => exact Asked.next Asked.first hd hf
  | next _ he hfe ih => exact Asked.next ih he hfe

/-- How a task gets into the loop and around it: with the shared lock, or with
    one more `ESCALATE`. -/
structure Enters (s : System π) (st : TaskStep) (t : ApplyTask) (pc : ApplyPc π) (f : Bool)
    (d : Description) : Prop where
  locks : st = .lockShared → pc = .locking f ∧ d = t.target
  climbs : st ≠ .lockShared → st = .escalate (some .escalate) ∧
    ∃ e, pc = .escalating f e ∧ s.live e.parent = some d

/-- Where the thread of a task stands after a step. -/
theorem applyStep_position {i : Nat} {st : TaskStep} {t : ApplyTask} {pc : ApplyPc π}
    (hi : s.running[i]? = some (.applying t pc)) (hs : applyStep cfg s i t st pc = some s') :
    s'.running = s.running ∨ s'.running = s.running.eraseIdx i ∨
      ∃ pc', s'.running = s.running.set i (.applying t pc') ∧
        ∀ f d, pc' = .escalating f d → Enters s st t pc f d := by
  have hmove : ∀ pc', s'.running = s.running.set i (.applying t pc') →
      (Running.applying t pc').escalates = false → s'.running = s.running ∨
        s'.running = s.running.eraseIdx i ∨
          ∃ pc', s'.running = s.running.set i (.applying t pc') ∧
            ∀ f d, pc' = .escalating f d → Enters s st t pc f d := by
    intro pc' hr hno
    refine Or.inr (Or.inr ⟨pc', hr, fun f d h => ?_⟩)
    rw [h] at hno
    exact absurd hno Bool.noConfusion
  cases hfailed : pc.failed with
  | true =>
      rcases asks_of_applyStep hi hfailed hs with ⟨_, _, hasks, hlands, _⟩
      cases hasks with
      | ends _ _ => exact Or.inr (Or.inl hlands)
      | halts _ _ hf hk => exact Or.inl (same_of_lands hi hlands)
      | fails f d answer hf => exact Or.inl (same_of_lands hi hlands)
      | first f parent answer hparent =>
          refine hmove _ hlands ?_
          split <;> rfl
      | locks f =>
          -- The loop begins at the target.
          refine Or.inr (Or.inr ⟨_, hlands, fun g d hpc => ?_⟩)
          rw [ApplyPc.escalating.injEq] at hpc
          exact ⟨fun _ => ⟨by rw [hpc.1], hpc.2.symm⟩, fun hne => absurd rfl hne⟩
      | next f e up answer hup =>
          refine Or.inr (Or.inr ⟨_, hlands, fun g d hpc => ?_⟩)
          split at hpc
          · rename_i hanswer
            rw [ApplyPc.escalating.injEq] at hpc
            exact ⟨fun hst => absurd hst TaskStep.noConfusion,
              fun _ => ⟨by rw [hanswer], e, by rw [hpc.1], hpc.2 ▸ hup⟩⟩
          · exact absurd hpc (by simp only [reduceCtorEq, not_false_eq_true])
      | restarts f throws => exact hmove _ hlands rfl
  | false =>
      unfold applyStep at hs
      split at hs
      · -- The emptiness test at the top of `apply`.
        rw [Option.some.injEq] at hs
        refine hmove _ (by rw [← hs]; rfl) ?_
        split <;> rfl
      · -- One `try_pop`.
        split at hs <;> rw [Option.some.injEq] at hs <;>
          exact hmove _ (by rw [← hs]; rfl) rfl
      · -- The handler is called.
        rw [Option.some.injEq] at hs
        exact hmove _ (by rw [← hs]; rfl) rfl
      · -- It returns.
        rw [Option.some.injEq] at hs
        exact hmove _ (by rw [← hs]; rfl) rfl
      · -- It throws.
        rw [Option.some.injEq] at hs
        exact hmove _ (by rw [← hs]; rfl) rfl
      · -- What it throws is no `std::exception`.
        rw [Option.some.injEq] at hs
        exact Or.inl (by rw [← hs]; rfl)
      · -- The two updates of the status.
        rw [Option.some.injEq] at hs
        exact hmove _ (by rw [← hs]; rfl) rfl
      · rw [Option.some.injEq] at hs
        exact hmove _ (by rw [← hs]; rfl) rfl
      · -- The flag is cleared.
        rw [Option.some.injEq] at hs
        refine hmove _ (by rw [← hs]; rfl) ?_
        split <;> rfl
      · -- `on_child_status`, with its three outcomes.
        split at hs
        · rw [Option.some.injEq] at hs
          exact Or.inr (Or.inl (by rw [← hs]; rfl))
        · split at hs <;> rw [Option.some.injEq] at hs
          · exact hmove _ (by rw [← hs]; rfl) rfl
          · exact Or.inr (Or.inl (by rw [← hs]; rfl))
      all_goals first
        | exact absurd hfailed Bool.noConfusion
        | exact absurd hs (by simp only [reduceCtorEq, not_false_eq_true])

/-- How a thread gets into the loop and around it. -/
theorem escalating_of_step {t : ApplyTask} {f : Bool} {d : Description}
    (hs : step cfg s a = some s') (hr : Running.applying t (.escalating f d) ∈ s'.running) :
    Running.applying t (.escalating f d) ∈ s.running ∨ ∃ i st pc, a = .task i st ∧
      s.running[i]? = some (.applying t pc) ∧ Enters s st t pc f d := by
  have hstay : s'.running = s.running → Running.applying t (.escalating f d) ∈ s.running :=
    fun h => h ▸ hr
  have herase : ∀ i, s'.running = s.running.eraseIdx i →
      Running.applying t (.escalating f d) ∈ s.running :=
    fun i h => List.mem_of_mem_eraseIdx (h ▸ hr)
  cases poolRule_of_stepRule (stepRule_of_step hs).2 with
  | same hq hr' => exact Or.inl (hstay hr')
  | post u hu hr' => exact Or.inl (hstay hr')
  | pick u rest hq hq' hr' =>
      rw [hr'] at hr
      rcases List.mem_append.mp hr with hr | hr
      · exact Or.inl hr
      · cases u <;> exact absurd (List.mem_singleton.mp hr) (by
          simp only [Task.taken, reduceCtorEq, Running.applying.injEq, and_false,
            not_false_eq_true])
  | finish st i r hi hq hr' => exact Or.inl (herase i hr')
  | move st i u pc pc' hi hq hr' =>
      rcases applyStep_position hi (applyStep_of_step hi hs).2 with h | h | ⟨pos, h, henters⟩
      · exact Or.inl (hstay h)
      · exact Or.inl (herase i h)
      · rw [h] at hr
        rcases List.mem_or_eq_of_mem_set hr with hr | heq
        · exact Or.inl hr
        · cases heq
          exact Or.inr ⟨i, st, pc, rfl, hi, henters f d rfl⟩

/-- Every thread in the loop can go on. -/
def Climbing (cfg : Config) (s : System π) : Prop :=
  ∀ t f d, Running.applying t (.escalating f d) ∈ s.running → Chained cfg s d

/-- A thread in the loop holds the lock, and nobody leaves. -/
theorem live_of_escalating (hs : step cfg s a = some s') (hreg : Registered s) {t : ApplyTask}
    {f : Bool} {d : Description} (hr : Running.applying t (.escalating f d) ∈ s.running) (k : IdT) :
    s'.live k = s.live k := by
  have hx : s.canExclude ≠ true := by
    have hany : s.running.any Running.escalates = true := List.any_eq_true.mpr ⟨_, hr, rfl⟩
    simp only [System.canExclude, hany, Bool.not_true, Bool.and_false, ne_eq, Bool.false_eq_true,
      not_false_eq_true]
  cases populationRule_of_step hs hreg with
  | kept hsame => rw [samePopulation_live hsame]
  | insert id e n hexcl | stop addr r u hexcl | clear hexcl => exact absurd hexcl hx

theorem chained_congr (hlive : ∀ k, s'.live k = s.live k) {d : Description}
    (h : Chained cfg s d) : Chained cfg s' d := by
  intro q hq
  rw [hlive]
  exact h q (asked_congr hlive hq)

/-- Who takes the lock changes nothing else. -/
theorem live_of_lockShared {i : Nat} {t : ApplyTask} {f : Bool}
    (hi : s.running[i]? = some (.applying t (.locking f)))
    (hs : step cfg s (.task i .lockShared) = some s') : s'.live = s.live ∧
      s'.running = s.running.set i (.applying t (.escalating f t.target)) ∧ s'.fate = .running := by
  rcases applyStep_of_step hi hs with ⟨hfate, hstep⟩
  simp only [applyStep, Option.ite_none_right_eq_some, Option.some.injEq] at hstep
  rw [← hstep.2]
  exact ⟨rfl, rfl, hfate⟩

/-- Where the climb starts well, it goes on well. -/
theorem step_climbing (hs : step cfg s a = some s') (hc : Climbs cfg s a) (hreg : Registered s)
    (h : Climbing cfg s) : Climbing cfg s' := by
  intro t f d hr
  rcases escalating_of_step hs hr with hold | ⟨i, st, pc, rfl, hi, henters⟩
  · exact chained_congr (live_of_escalating hs hreg hold) (h t f d hold)
  · by_cases hst : st = .lockShared
    · -- The condition speaks of this moment.
      subst hst
      rcases henters.locks rfl with ⟨rfl, rfl⟩
      have hclimb : s.climbing (.task i .lockShared) = some t.target := by
        simp only [System.climbing, hi]
      exact chained_congr (fun k => by rw [(live_of_lockShared hi hs).1]) (hc.chained _ hclimb)
    · -- One turn more: whoever was asked answered, so is none of the framework's.
      rcases henters.climbs hst with ⟨rfl, e, rfl, hup⟩
      have hmem := List.mem_of_getElem? hi
      have hroot : cfg.framework d.actor ≠ true := by
        intro hf
        have hasks : s.asks (.task i (.escalate (some .escalate))) =
            some (d.actor, some .escalate) := by
          simp only [System.asks, hi, hup, Option.map_some]
        exact absurd (hc.roots _ hasks hf) (by
          simp only [Option.some.injEq, reduceCtorEq, not_false_eq_true])
      refine chained_congr (live_of_escalating hs hreg hmem) fun q hq => ?_
      exact h t f e hmem q (asked_up hup (by simpa using hroot) hq)

/-- The answers that keep the `i`-th thread in the loop. -/
def KeepsAsking (cfg : Config) (i : Nat) (s : System π) (a : Action π) : Prop :=
  a = .task i (.escalate (some .escalate)) ∧ RootsResume cfg s a

/-- Whomever a climb can reach, some answers lead to. -/
theorem reach_asked {name : String} {i : Nat} {t : ApplyTask} {f : Bool} {d : Description}
    (hfate : s.fate = .running) (hi : s.running[i]? = some (.applying t (.escalating f d)))
    {q : IdT} (hq : Asked cfg s d.parent q) :
    ∃ u e, (context cfg name).Path (KeepsAsking cfg i) s u ∧ u.fate = .running ∧
      u.live = s.live ∧ u.running[i]? = some (.applying t (.escalating f e)) ∧ e.parent = q := by
  induction hq with
  | first => exact ⟨s, d, Machine.Path.refl s, hfate, rfl, hi, rfl⟩
  | @next q w _ hd hf ih =>
      rcases ih with ⟨u, e, hpath, hufate, hlive, hui, rfl⟩
      have hup : u.live e.parent = some w := by rw [hlive, hd]
      let u' : System π := (u.moveTo i t (.escalating f w)).emit
        (.childError w.actor e.address .escalate)
      have hstep : step cfg u (.task i (.escalate (some .escalate))) = some u' := by
        unfold System.live at hup
        rw [step_of_applying hufate hui]
        simp only [applyStep, hup, if_true]
        rfl
      have hguard : KeepsAsking cfg i u (.task i (.escalate (some .escalate))) := by
        refine ⟨rfl, fun p hp hroot => ?_⟩
        simp only [System.asks, hui, hup, Option.map_some, Option.mem_def, Option.some.injEq] at hp
        rw [← hp] at hroot
        exact absurd (hroot.symm.trans hf) Bool.noConfusion
      rcases List.getElem?_eq_some_iff.mp hui with ⟨hlt, _⟩
      exact ⟨u', w, Machine.Path.tail _ hpath hguard hstep, hufate, hlive,
        List.getElem?_set_self hlt, rfl⟩

theorem reach_climbing {name : String} (h : (context cfg name).Reach (Climbs cfg) s) :
    Climbing cfg s := by
  refine Machine.invariant_of Registered (Climbing cfg) (fun s h => reach_registered h) ?_
    (fun s a s' hc hs hreg _ h => step_climbing hs hc hreg h) h
  intro t f d hr
  have hnone : (makeContext (π := π) cfg name).running = [] := makeContext_running
  exact absurd (hnone ▸ hr) List.not_mem_nil

end Escalation

/-- Escalation finds its ancestors. While everybody a climb can ask is
    registered when it takes the lock, every lookup in the loop finds an entry.
    Where somebody is missing, there are answers under which a lookup fails. -/
theorem escalation_finds_ancestors {cfg : Config} {name : String} {s : System π}
    (h : (context cfg name).Reach (Climbs cfg) s) :
    (∀ (i : Nat) t f d, s.running[i]? = some (.applying t (.escalating f d)) →
      (s.live d.parent).isSome = true) ∧
    ∀ (i : Nat) t f s', s.running[i]? = some (.applying t (.locking f)) →
      step cfg s (.task i .lockShared) = some s' →
        ((∀ u d, (context cfg name).Path (KeepsAsking cfg i) s' u →
            u.running[i]? = some (.applying t (.escalating f d)) →
              (u.live d.parent).isSome = true) ↔ Chained cfg s t.target) := by
  have hclimb : Climbing cfg s := reach_climbing h
  refine ⟨fun i t f d hi => hclimb t f d (List.mem_of_getElem? hi) _ Asked.first,
    fun i t f s' hi hs => ⟨fun hall q hq => ?_, fun hchain u d hpath hu => ?_⟩⟩
  · rcases live_of_lockShared hi hs with ⟨hlive, hrun, hfate⟩
    rcases List.getElem?_eq_some_iff.mp hi with ⟨hlt, _⟩
    have hin : s'.running[i]? = some (.applying t (.escalating f t.target)) := by
      rw [hrun, List.getElem?_set_self hlt]
    have hback : ∀ k, s.live k = s'.live k := fun k => by rw [hlive]
    have hq' : Asked cfg s' t.target.parent q := asked_congr hback hq
    rcases reach_asked hfate hin hq' with ⟨u, e, hpath, _, hulive, hui, rfl⟩
    have hfound := hall u e hpath hui
    rw [hulive, hlive] at hfound
    exact hfound
  · -- Every step of such a path meets the condition.
    have hreach : (context cfg name).Reach (Climbs cfg) s' := by
      refine Machine.Path.tail (.task i .lockShared) h ⟨fun p hp => ?_, fun e he => ?_⟩ hs
      · exact absurd hp (by
          simp only [System.asks, Option.mem_def, reduceCtorEq, not_false_eq_true])
      · simp only [System.climbing, hi, Option.mem_def, Option.some.injEq] at he
        exact he ▸ hchain
    have hweak : (context cfg name).Path (Climbs cfg) s' u := by
      refine Machine.path_weaken (fun v b hb => ⟨hb.2, fun e he => ?_⟩) hpath
      rw [hb.1] at he
      exact absurd he (by
        simp only [System.climbing, Option.mem_def, reduceCtorEq, not_false_eq_true])
    have hu' : Climbing cfg u := reach_climbing (Machine.path_trans hreach hweak)
    exact hu' t f d (List.mem_of_getElem? hu) _ Asked.first

/-- `c` fails under `p`, and `p` answers `ESCALATE`. -/
def escalateRun : List (Action Nat) :=
  register "p" .null 3 ++ register "c" ⟨⟨4⟩, "/root/usr/p"⟩ 4 ++ runStarts 5 ++
    [.call (.sendEnvelope ⟨⟨5⟩, "/root/usr/p/c"⟩ ⟨some 7, .null⟩)] ++
    dispatchPass ⟨5⟩ [⟨1⟩, ⟨2⟩, ⟨3⟩, ⟨4⟩] ++
    [.pick, .task 0 .entry, .task 0 .tryPop, .task 0 .callHandler, .task 0 (.handlerThrow "e"),
      .task 0 .updateStatus, .task 0 .resetBusy, .task 0 (.childError (some .escalate))]

/-- The task of that run. -/
def escalatedTask : ApplyTask :=
  ⟨⟨4, ⟨⟨5⟩, "/root/usr/p/c"⟩, ⟨⟨⟨5⟩, "/root/usr/p/c"⟩, "ctx/#usercontext#5"⟩, "/root/usr/p/c", ⟨4⟩, []⟩,
    some 3, 4⟩

/-- What that run asks of its steps before the lock is taken. -/
def Approaches (cfg : Config) (s : System π) (a : Action π) : Prop :=
  RootsResume cfg s a ∧ s.climbing a = none

instance (cfg : Config) (s : System π) (a : Action π) : Decidable (Approaches cfg s a) :=
  inferInstanceAs (Decidable (_ ∧ s.climbing a = none))

theorem climbs_of_approaches {cfg : Config} {s : System π} {a : Action π}
    (h : Approaches cfg s a) : Climbs cfg s a where
  roots := h.1
  chained d hd := absurd (h.2.symm.trans hd) (by simp only [reduceCtorEq, not_false_eq_true])

/-- The lock is taken while `p` is registered. -/
theorem escalation_finds_ancestors_climbed :
    (((context (π := Nat) (.plain 1) "ctx").after (escalateRun ++ [.task 0 .lockShared])).live
      ⟨4⟩).isSome = true := by
  let s := (context (π := Nat) (.plain 1) "ctx").after escalateRun
  have hreach : (context (π := Nat) (.plain 1) "ctx").Reach (Climbs (.plain 1)) s :=
    Machine.path_weaken (fun _ _ => climbs_of_approaches)
      (Machine.reach_meets (C := Approaches (.plain 1)) escalateRun (by decide))
  -- The climb can ask `p` and then the user root, which answers.
  have hasked : ∀ q, Asked (.plain 1) s ⟨4⟩ q → q = ⟨4⟩ ∨ q = ⟨2⟩ := by
    intro q hq
    induction hq with
    | first => exact Or.inl rfl
    | @next q d _ hd hf ih =>
        rcases ih with rfl | rfl
        · have hparent : (s.live ⟨4⟩).map Description.parent = some ⟨2⟩ := by decide
          rw [hd, Option.map_some, Option.some.injEq] at hparent
          exact Or.inr hparent
        · have hroot : (s.live ⟨2⟩).map Description.actor = some 1 := by decide
          rw [hd, Option.map_some, Option.some.injEq] at hroot
          rw [hroot] at hf
          exact absurd hf (by decide)
  have hclimbs : Climbs (.plain 1) s (.task 0 .lockShared) := by
    refine ⟨fun p hp => absurd hp (by
      simp only [System.asks, Option.mem_def, reduceCtorEq, not_false_eq_true]), fun d hd q hq => ?_⟩
    have hparent : (s.climbing (.task 0 .lockShared)).map Description.parent = some ⟨4⟩ := by decide
    rw [show s.climbing (.task 0 .lockShared) = some d from hd, Option.map_some,
      Option.some.injEq] at hparent
    rw [hparent] at hq
    rcases hasked q hq with rfl | rfl
    · decide
    · decide
  exact (escalation_finds_ancestors (Machine.reach_next (by decide) hreach hclimbs)).1 0
    escalatedTask true escalatedTask.target rfl

/-- `p` is stopped between its answer and the lock. -/
theorem escalation_finds_ancestors_missing : ∃ (s : System Nat) (t : ApplyTask) (d : Description),
    (context (.plain 1) "ctx").Reach (RootsResume (.plain 1)) s ∧
      s.running[0]? = some (.applying t (.escalating true d)) ∧ s.live d.parent = none ∧
        ∃ s', step (.plain 1) s (.task 0 (.escalate (some .resume))) = some s' ∧
          s'.fate = .undefined :=
  ⟨(context (.plain 1) "ctx").after (escalateRun ++ [.call (.stopActor ⟨⟨4⟩, ""⟩),
    .task 0 .lockShared]), _, _, Machine.reach_meets _ (by decide), rfl, by decide, _, rfl, rfl⟩

end Yaaf
