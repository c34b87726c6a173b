import Yaaf.Theory.Failures
import Yaaf.Theory.Verdicts

/-!
# Whose Failure It Is

One `try` block covers two things, the messages that an actor handles and the
call of `on_child_status` on its parent that follows, and the `catch` clause
behind it cannot tell which of them threw. Whatever arrives there is taken for
a failure of the actor.

The two ways into the clause are kept apart along a run of the thread. Its
position knows which way it came, by a flag that the source does not have, and
the record of its steps says what was thrown: the flag is up exactly if a
handler threw, and the thread is past the `catch` with the flag down exactly if
the parent did. Everything that is held against the actor is done past the
`catch`, so there it is one or the other.

## Main definitions

* `Event.blames`: What is held against the actor of a task.
* `TaskStep.thrown`, `TaskStep.parentThrown`: A handler throws, or the parent does.
* `ApplyPc.astray`: Past the `catch` because of the parent.
* `Threw`, `StatusThrew`, `Blames`: The record of a thread, and one step of it.
* `Caused`: What the position of a thread says of its record.

## Theorems

* `causes_of_applyStep`: How a step moves between the positions.
* `failed_of_blames`: Only a thread that is past the `catch` blames the actor.
* `caused_of_path`: The position agrees with the record.
* `failures_attributed`: When a failure is one of the actor.
-/

namespace Yaaf

open Machine

variable {π : Type}

/-- What is held against the actor of a task: its supervisor is asked about it, it is
    stopped or restarted, or it is reported `WITH_ERROR`. -/
def Event.blames (t : ApplyTask) : Event π → Bool
  | .childError _ addr _ => addr = t.target.address
  | .childStatus _ addr k => addr = t.target.address && k = .withError
  | .failureStopped u _ => u = t
  | .restartBegin a m => a = t.target.actor && m = t.mb
  | _ => false

/-- `action_handle` throws a `std::exception`. -/
def TaskStep.thrown : TaskStep → Bool
  | .handlerThrow _ => true
  | _ => false

/-- `on_child_status` of the parent throws a `std::exception`. -/
def TaskStep.parentThrown : TaskStep → Bool
  | .childStatus throws => throws
  | _ => false

/-- The thread is past the `catch`, and no handler has thrown. -/
def ApplyPc.astray (pc : ApplyPc π) : Bool :=
  pc.failed && !pc.failing

/-- A handler threw in the course of these steps. -/
def Threw (own : List (Turn (System π) TaskStep)) : Prop :=
  ∃ x ∈ own, x.step.thrown = true

/-- `on_child_status` of the parent threw in the course of these steps. -/
def StatusThrew (own : List (Turn (System π) TaskStep)) : Prop :=
  ∃ x ∈ own, x.step.parentThrown = true

/-- A step of a thread records something that is held against the actor of its task. -/
def Blames (t : ApplyTask) (x : Turn (System π) TaskStep) : Prop :=
  ∃ ev ∈ recorded x, ev.blames t = true

/-- The position of a thread says what was thrown. -/
structure Caused (p : Focus (System π) TaskStep) (t : ApplyTask) (pc : ApplyPc π) : Prop where
  threw : Threw p.own ↔ pc.failing = true
  status : StatusThrew p.own ↔ pc.astray = true
  last : ∀ done x, p.own = done ++ [x] → x.step.parentThrown = true →
    pc = .caught false ∧ t.parent.isSome = true

/-- How a step moves a thread: it stays, ends, or goes on, and a throw of a handler or of
    the parent shows in the position. -/
def Passes (s s' : System π) (i : Nat) (t : ApplyTask) (k : TaskStep) (pc : ApplyPc π) : Prop :=
  s'.running = s.running.eraseIdx i ∨
    ∃ pc', s'.running = s.running.set i (.applying t pc') ∧
      (pc'.failing = true ↔ pc.failing = true ∨ k.thrown = true) ∧
      (pc'.astray = true ↔ pc.astray = true ∨ k.parentThrown = true) ∧
      (k.parentThrown = true → pc' = .caught false ∧ t.parent.isSome = true)

section Steps

variable {cfg : Config} {s s' : System π} {i : Nat} {t : ApplyTask} {k : TaskStep}
  {pc : ApplyPc π}

/-- A step that throws neither and keeps the flags. -/
theorem passes_on {pc' : ApplyPc π} (hr : s'.running = s.running.set i (.applying t pc'))
    (hf : pc'.failing = pc.failing) (ha : pc'.astray = pc.astray) (hk : k.thrown = false)
    (hk' : k.parentThrown = false) : Passes s s' i t k pc := by
  refine Or.inr ⟨pc', hr, ?_, ?_, fun h => ?_⟩
  · rw [hf, hk]
    simp only [Bool.false_eq_true, or_false]
  · rw [ha, hk']
    simp only [Bool.false_eq_true, or_false]
  · rw [hk'] at h
    exact Bool.noConfusion h

/-- Past the `catch`, neither a handler nor `on_child_status` is called. -/
theorem quiet_of_failed (hs : applyStep cfg s i t k pc = some s') (hpc : pc.failed = true) :
    k.thrown = false ∧ k.parentThrown = false := by
  cases pc with
  | caught f | locking f | escalating f d | deciding f action | restarting f =>
      cases k <;> simp only [applyStep, reduceCtorEq] at hs
      exact ⟨rfl, rfl⟩
  | _ => exact absurd hpc Bool.noConfusion

/-- Past the `catch`, the flag stays. -/
theorem passes_of_failed (hi : s.running[i]? = some (.applying t pc)) (hpc : pc.failed = true)
    (hs : applyStep cfg s i t k pc = some s') : Passes s s' i t k pc := by
  rcases quiet_of_failed hs hpc with ⟨hk, hk'⟩
  rcases asks_of_applyStep hi hpc hs with ⟨_, _, hasks, hlands, _⟩
  cases hasks with
  | ends _ _ => exact Or.inl hlands
  | halts _ _ hf hasking => exact passes_on hlands rfl rfl hk hk'
  | first f parent answer hparent =>
      refine passes_on hlands ?_ ?_ hk hk'
      · split <;> rfl
      · split <;> rfl
  | locks f => exact passes_on hlands rfl rfl hk hk'
  | next f d up answer hup =>
      refine passes_on hlands ?_ ?_ hk hk'
      · split <;> rfl
      · split <;> rfl
  | fails f d answer hf => exact passes_on hlands rfl rfl hk hk'
  | restarts f throws => exact passes_on hlands rfl rfl hk hk'

/-- How a step moves a thread that executes a task. -/
theorem causes_of_applyStep (hi : s.running[i]? = some (.applying t pc))
    (hs : applyStep cfg s i t k pc = some s') : Passes s s' i t k pc := by
  cases pc with
  | entry =>
      cases k <;> simp only [applyStep, reduceCtorEq, Option.some.injEq] at hs
      rw [← hs]
      refine passes_on rfl ?_ ?_ rfl rfl
      · split <;> rfl
      · split <;> rfl
  | draining =>
      cases k <;> simp only [applyStep, reduceCtorEq] at hs
      split at hs <;> rw [Option.some.injEq] at hs <;> rw [← hs] <;>
        exact passes_on rfl rfl rfl rfl rfl
  | popped e | drained | threw what =>
      cases k <;> simp only [applyStep, reduceCtorEq, Option.some.injEq] at hs
      rw [← hs]
      exact passes_on rfl rfl rfl rfl rfl
  | handling e =>
      cases k <;> simp only [applyStep, reduceCtorEq, Option.some.injEq] at hs <;> rw [← hs]
      case handlerReturn => exact passes_on rfl rfl rfl rfl rfl
      case handlerThrow what =>
          exact Or.inr ⟨.threw what, rfl, ⟨fun _ => Or.inr rfl, fun _ => rfl⟩,
            or_self_iff.symm, Bool.noConfusion⟩
      case handlerAbort => exact passes_on (lands_same hi rfl) rfl rfl rfl rfl
  | resetting r =>
      cases k <;> simp only [applyStep, reduceCtorEq, Option.some.injEq] at hs
      rw [← hs]
      cases r <;> exact passes_on rfl rfl rfl rfl rfl
  | returned =>
      cases k <;> simp only [applyStep, reduceCtorEq] at hs
      case childStatus throws =>
          split at hs
          · rw [Option.some.injEq] at hs
            exact Or.inl (by rw [← hs]; rfl)
          · rename_i parent hparent
            cases throws with
            | false =>
                simp only [Bool.false_eq_true, if_false, Option.some.injEq] at hs
                exact Or.inl (by rw [← hs]; rfl)
            | true =>
                simp only [if_true, Option.some.injEq] at hs
                refine Or.inr ⟨.caught false, by rw [← hs]; rfl,
                  or_self_iff.symm, ⟨fun _ => Or.inr rfl, fun _ => rfl⟩,
                  fun _ => ⟨rfl, ?_⟩⟩
                rw [hparent]
                rfl
  | caught f | locking f | escalating f d | deciding f action | restarting f =>
      exact passes_of_failed hi rfl hs

/-- Without such an event, nothing is held against the actor. -/
theorem not_blames {evs : List (Event π)} (h : s'.trace = s.trace ++ evs)
    (hevs : ∀ ev ∈ evs, ev.blames t = false) : ¬ Blames t ⟨k, s, s'⟩ := by
  rintro ⟨ev, hev, hblames⟩
  have hrec : recorded ⟨k, s, s'⟩ = evs := congrArg Prod.snd (did_append h)
  rw [hevs ev (hrec ▸ hev)] at hblames
  exact Bool.noConfusion hblames

theorem not_blames_same (h : s'.trace = s.trace) : ¬ Blames t ⟨k, s, s'⟩ :=
  not_blames (h.trans (List.append_nil _).symm) fun _ hev => absurd hev List.not_mem_nil

theorem not_blames_one {ev : Event π} (h : s'.trace = s.trace ++ [ev])
    (hev : ev.blames t = false) : ¬ Blames t ⟨k, s, s'⟩ :=
  not_blames h fun ev' hev' => by rw [List.mem_singleton.mp hev', hev]

/-- Only a thread that is past the `catch` holds something against the actor. -/
theorem failed_of_blames (hs : applyStep cfg s i t k pc = some s') (h : Blames t ⟨k, s, s'⟩) :
    pc.failed = true := by
  refine Bool.of_not_eq_false fun hpc => ?_
  revert h
  cases pc with
  | entry | drained | threw what | resetting r =>
      cases k <;> simp only [applyStep, reduceCtorEq, Option.some.injEq] at hs
      rw [← hs]
      exact not_blames_same rfl
  | draining =>
      cases k <;> simp only [applyStep, reduceCtorEq] at hs
      split at hs <;> rw [Option.some.injEq] at hs <;> rw [← hs] <;> exact not_blames_same rfl
  | popped e =>
      cases k <;> simp only [applyStep, reduceCtorEq, Option.some.injEq] at hs
      rw [← hs]
      exact not_blames_one rfl rfl
  | handling e =>
      cases k <;> simp only [applyStep, reduceCtorEq, Option.some.injEq] at hs <;> rw [← hs]
      · exact not_blames_one rfl rfl
      · exact not_blames_one rfl rfl
      · exact not_blames_same rfl
  | returned =>
      cases k <;> simp only [applyStep, reduceCtorEq] at hs
      split at hs
      · rw [Option.some.injEq] at hs
        rw [← hs]
        exact not_blames_same rfl
      · -- The report is not `WITH_ERROR`.
        split at hs <;> rw [Option.some.injEq] at hs <;> rw [← hs] <;>
          exact not_blames_one rfl (by
            simp only [Event.blames, reduceCtorEq, decide_false, Bool.and_false])
  | _ => exact absurd hpc Bool.noConfusion

/-- When the parent has thrown, the next thing the thread does is to ask it about the
    actor, unless that throws as well. -/
theorem blames_of_astray (hs : applyStep cfg s i t k (.caught false) = some s') {p : ActorPtr}
    (hp : t.parent = some p) (hfate : s'.fate = .running) : Blames t ⟨k, s, s'⟩ := by
  cases k <;> simp only [applyStep, reduceCtorEq, hp] at hs
  case childError answer =>
      cases answer with
      | none =>
          rw [Option.some.injEq] at hs
          rw [← hs] at hfate
          exact absurd hfate (by
            simp only [System.terminate, reduceCtorEq, not_false_eq_true])
      | some action =>
          rw [Option.some.injEq] at hs
          have htrace : s'.trace = s.trace ++ [.childError p t.target.address action] := by
            rw [← hs]
            rfl
          refine ⟨.childError p t.target.address action, ?_, ?_⟩
          · have hrec : recorded ⟨.childError (some action), s, s'⟩ = _ :=
              congrArg Prod.snd (did_append htrace)
            rw [hrec]
            exact List.mem_singleton.mpr rfl
          · exact decide_eq_true rfl

end Steps

section Runs

variable {cfg : Config} {name : String} {s : System π} {i : Nat} {t : ApplyTask}
  {p q : Focus (System π) TaskStep}

theorem threw_append (own : List (Turn (System π) TaskStep)) (x : Turn (System π) TaskStep) :
    Threw (own ++ [x]) ↔ Threw own ∨ x.step.thrown = true := by
  simp only [Threw, List.mem_append, List.mem_singleton, or_and_right, exists_or, exists_eq_left]

theorem statusThrew_append (own : List (Turn (System π) TaskStep))
    (x : Turn (System π) TaskStep) :
    StatusThrew (own ++ [x]) ↔ StatusThrew own ∨ x.step.parentThrown = true := by
  simp only [StatusThrew, List.mem_append, List.mem_singleton, or_and_right, exists_or,
    exists_eq_left]

/-- A step of the thread itself, and what the position says after it. -/
theorem caused_of_turn {a : Action π} (hs : (followed cfg name).step p a = some q) {k : TaskStep}
    (ha : userPool.turn a = some (p.place, k)) {pc : ApplyPc π}
    (hx : userPool.slot p = some (.applying t pc)) (h : Caused p t pc) :
    ∃ pc', userPool.slot q = some (.applying t pc') ∧ Caused q t pc' := by
  have hstep := (turn_step hs ha hx).2.2
  rcases causes_of_applyStep hx hstep with herased | ⟨pc', hr, hfailing, hastray, hlast⟩
  · exact absurd herased (not_erased hs ha hx)
  · refine ⟨pc', slot_of_set hs ha hx hr, ?_, ?_, fun done x hown hthrew => ?_⟩
    · rw [own_of_turn hs ha, threw_append, h.threw, hfailing]
    · rw [own_of_turn hs ha, statusThrew_append, h.status, hastray]
    · rw [own_of_turn hs ha] at hown
      rcases List.append_inj' hown rfl with ⟨_, hx'⟩
      rw [List.cons.injEq] at hx'
      rw [← hx'.1] at hthrew
      exact hlast hthrew

/-- Along a run of a task, its position says what was thrown. -/
theorem caused_of_path (hi : s.running[i]? = some (.applying t .entry))
    (hp : (followed cfg name).Path free ⟨s, i, []⟩ p) :
    ∃ pc, userPool.slot p = some (.applying t pc) ∧ Caused p t pc := by
  have hrule : ∃ y, userPool.slot p = some y ∧ ∃ pc, y = .applying t pc ∧ Caused p t pc := by
    refine followed_rule (fun p x => ∃ pc, x = .applying t pc ∧ Caused p t pc) ?_ ?_ hp hi
      ⟨.entry, rfl, ⟨?_, Bool.noConfusion⟩, ⟨?_, Bool.noConfusion⟩, fun done x h => ?_⟩
    · rintro p a q x y k _ hs ha hx hy ⟨pc, rfl, hcaused⟩
      rcases caused_of_turn hs ha hx hcaused with ⟨pc', hy', hcaused'⟩
      rw [hy, Option.some.injEq] at hy'
      exact ⟨pc', hy', hcaused'⟩
    · rintro p a q x _ hs ha hx _ ⟨pc, rfl, hcaused⟩
      refine ⟨pc, rfl, ?_, ?_, ?_⟩
      · rw [own_of_other hs ha]
        exact hcaused.threw
      · rw [own_of_other hs ha]
        exact hcaused.status
      · rw [own_of_other hs ha]
        exact hcaused.last
    · rintro ⟨x, hx, _⟩
      exact absurd hx List.not_mem_nil
    · rintro ⟨x, hx, _⟩
      exact absurd hx List.not_mem_nil
    · exact absurd h.symm (List.append_ne_nil_of_right_ne_nil _ (List.cons_ne_nil _ _))
  rcases hrule with ⟨_, hslot, pc, rfl, hcaused⟩
  exact ⟨pc, hslot, hcaused⟩

/-- In every execution of a task, whatever the handlers and the parent's `on_child_status`
    do, a step that holds something against the actor of the task was caused by a throw of
    its handler if and only if `on_child_status` did not throw before. When that throws, no
    handler has thrown, and the thread goes on by asking the parent about the actor. -/
theorem failures_attributed (hi : s.running[i]? = some (.applying t .entry))
    (hp : (followed cfg name).Path free ⟨s, i, []⟩ p) {k : TaskStep} {s' : System π}
    (hs : step cfg p.state (.task p.place k) = some s') :
    (Blames t ⟨k, p.state, s'⟩ → (Threw p.own ↔ ¬ StatusThrew p.own)) ∧
    ∀ done x, p.own = done ++ [x] → x.step.parentThrown = true →
      ¬ Threw p.own ∧ (s'.fate = .running → Blames t ⟨k, p.state, s'⟩) := by
  rcases caused_of_path hi hp with ⟨pc, hslot, hcaused⟩
  have hstep := (applyStep_of_step hslot hs).2
  refine ⟨fun hblames => ?_, fun done x hown hthrew => ?_⟩
  · have hpc := failed_of_blames hstep hblames
    rw [hcaused.threw, hcaused.status, ApplyPc.astray, hpc, Bool.true_and]
    cases pc.failing <;> decide
  · rcases hcaused.last done x hown hthrew with ⟨rfl, hparent⟩
    refine ⟨fun hno => Bool.false_ne_true (hcaused.threw.mp hno), fun hfate => ?_⟩
    rcases Option.isSome_iff_exists.mp hparent with ⟨parent, hparent⟩
    exact blames_of_astray hstep hparent hfate

end Runs

/-- The handler of `a` has thrown, and its parent has answered `STOP`. -/
theorem failures_attributed_thrown :
    Threw failedFocus.own ↔ ¬ StatusThrew failedFocus.own := by
  have hi : ((context (.plain 2) "ctx").after failBegun).running[0]? =
      some (.applying failedTask .entry) := rfl
  have hpath : (followed (.plain 2) "ctx").Path free
      ⟨(context (.plain 2) "ctx").after failBegun, 0, []⟩ failedFocus := path_onward _ _
  have hs : step (.plain 2) failedFocus.state (.task failedFocus.place (.decide false)) =
      some (((context (.plain 2) "ctx").onward failedFocus.state [.task 0 (.decide false)])) := rfl
  exact (failures_attributed hi hpath hs).1
    ⟨.failureStopped failedTask true, List.mem_of_getElem? (i := 2) rfl, by decide⟩

/-- Both messages of `a` are handled, and then `on_child_status` of its parent throws. -/
def statusSteps : List (Action Nat) :=
  [.task 0 .entry, .task 0 .tryPop, .task 0 .callHandler, .task 0 .handlerReturn,
    .task 0 .tryPop, .task 0 .callHandler, .task 0 .handlerReturn, .task 0 .tryPop,
    .task 0 .updateStatus, .task 0 .resetBusy, .task 0 (.childStatus true)]

def statusFocus : Focus (System Nat) TaskStep :=
  (followed (.plain 2) "ctx").onward ⟨(context (.plain 2) "ctx").after failBegun, 0, []⟩ statusSteps

/-- The parent is asked about `a`, although nothing in `a` has failed. -/
theorem failures_attributed_parent : ∃ (s : System Nat) (i : Nat) (t : ApplyTask)
    (p : Focus (System Nat) TaskStep) (k : TaskStep) (s' : System Nat),
      s.running[i]? = some (.applying t .entry) ∧
        (followed (.plain 2) "ctx").Path free ⟨s, i, []⟩ p ∧
          step (.plain 2) p.state (.task p.place k) = some s' ∧
            Blames t ⟨k, p.state, s'⟩ ∧ ¬ Threw p.own := by
  refine ⟨_, 0, failedTask, statusFocus, .childError (some .stop),
    (context (.plain 2) "ctx").onward statusFocus.state [.task 0 (.childError (some .stop))], rfl,
      path_onward _ _, rfl, ?_, ?_⟩
  · exact ⟨.childError 1 failedTask.target.address .stop,
      List.mem_of_getElem? (i := 0) rfl, by decide⟩
  · rintro ⟨x, hx, hthrown⟩
    have hquiet : ∀ x ∈ statusFocus.own, x.step.thrown = false := by
      have hsteps : ∀ k ∈ statusFocus.own.map Turn.step, k.thrown = false := by decide
      exact fun x hx => hsteps x.step (List.mem_map_of_mem hx)
    rw [hquiet x hx] at hthrown
    exact Bool.noConfusion hthrown

end Yaaf
