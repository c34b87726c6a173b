import Yaaf.Theory.Failures
import Yaaf.Theory.Supervision
import Yaaf.Theory.Threads

/-!
# What `apply` Consumes

`base_actor::apply` takes envelopes out of a mailbox until there are none, or until
`action_handle` throws. The mailbox grows in the meantime: other actors send to it,
and so may the handler itself. Which envelopes were consumed is therefore not a part
of what the mailbox held at the outset, but of that and of what arrived since.

The record of the thread says the rest. Between the first test and the status there
is nothing but rounds of the loop, one for each envelope, and the status that is set
is the one that goes with the way the loop was left. Another thread can set it too,
by a stop of the actor; that takes an `on_stop`, and it is the only thing that can
come between `update_status` and the end.

## Main definitions

* `rounds`, `handled`: What a thread has done that handed some envelopes over.
* `Ended`: The ways out of the loop.
* `Applied`: A whole `apply`.
* `Drains`: How far a thread has come in it.

## Theorems

* `moves_on`: A step that takes nothing out of the mailbox.
* `drains_of_turn`, `drains_of_other`: A step of the thread, and of another.
* `drains_of_path`: How far the thread has come, in any run.
* `apply_drains_mailbox`: What `apply` consumes and how it reports.
-/

namespace Yaaf

open Machine Trace

variable {π : Type}

/-- The rounds of the loop, when the handler returned each time. -/
def rounds (t : ApplyTask) (es : List (Stored π)) : List (TaskStep × List (Event π)) :=
  es.flatMap fun e => [(.tryPop, []), (.callHandler, [.handleBegin t.target.actor t.mb e]),
    (.handlerReturn, [.handleEnd t.target.actor t.mb])]

/-- What a thread has done that handed some envelopes over. -/
def handled (t : ApplyTask) (es : List (Stored π)) : List (TaskStep × List (Event π)) :=
  (.entry, []) :: rounds t es

/-- The mailbox was empty, at the first test or when `try_pop` was called. -/
def Emptied (t : ApplyTask) (es : List (Stored π)) (done : List (Turn (System π) TaskStep)) :
    Prop :=
  ∃ before last, done = before ++ [last] ∧ last.before.boxes t.mb = [] ∧
    (es = [] ∧ before = [] ∧ did last = (.entry, []) ∨
      before.map did = handled t es ∧ did last = (.tryPop, []))

/-- The handler threw at an envelope. -/
def Failed (t : ApplyTask) (es : List (Stored π)) (e : Stored π) (what : String)
    (done : List (Turn (System π) TaskStep)) : Prop :=
  done.map did = handled t es ++ [(.tryPop, []),
    (.callHandler, [.handleBegin t.target.actor t.mb e]),
    (.handlerThrow what, [.handleThrow t.target.actor t.mb])]

/-- The ways out of the loop: whether by an exception, what was consumed, and the
    status that goes with it. -/
inductive Ended (t : ApplyTask) (done : List (Turn (System π) TaskStep)) :
    Bool → List (Stored π) → StatusT → Prop
  | returned (es : List (Stored π)) (h : Emptied t es done) : Ended t done false es ⟨.normal, ""⟩
  | threw (es : List (Stored π)) (e : Stored π) (what : String) (h : Failed t es e what done) :
      Ended t done true (es ++ [e]) ⟨.withError, what⟩

/-- A whole `apply` that began in `s`: the loop, the status, and the flag. -/
structure Applied (s : System π) (t : ApplyTask) (rethrow : Bool) (es : List (Stored π))
    (st : StatusT) (done : List (Turn (System π) TaskStep))
    (set reset : Turn (System π) TaskStep) : Prop where
  ended : Ended t done rethrow es st
  consumed : Consumed t.mb s reset.after es
  sets : did set = (.updateStatus, []) ∧ (set.after.objs t.target.actor).status = st
  resets : did reset = (.resetBusy, []) ∧ (reset.after.objs t.target.actor).busy = false
  kept : StatusKept t.target.actor set.after reset.after

/-- Inside `apply`, or just past it. -/
def ApplyPc.early : ApplyPc π → Bool
  | .returned | .caught true => true
  | pc => pc.holdsBusy

/-- How far a thread has come with an `apply` that began in `s`. -/
inductive Drains (s : System π) (t : ApplyTask) (p : Focus (System π) TaskStep) :
    ApplyPc π → Prop
  | entry (hown : p.own = []) (hc : Consumed t.mb s p.state []) : Drains s t p .entry
  | draining (es : List (Stored π)) (hown : p.own.map did = handled t es)
      (hc : Consumed t.mb s p.state es) : Drains s t p .draining
  | popped (es : List (Stored π)) (e : Stored π)
      (hown : p.own.map did = handled t es ++ [(.tryPop, [])])
      (hc : Consumed t.mb s p.state (es ++ [e])) : Drains s t p (.popped e)
  | handling (es : List (Stored π)) (e : Stored π)
      (hown : p.own.map did = handled t es ++ [(.tryPop, []),
        (.callHandler, [.handleBegin t.target.actor t.mb e])])
      (hc : Consumed t.mb s p.state (es ++ [e])) : Drains s t p (.handling e)
  | drained (es : List (Stored π)) (hown : Emptied t es p.own) (hc : Consumed t.mb s p.state es) :
      Drains s t p .drained
  | threw (es : List (Stored π)) (e : Stored π) (what : String) (hown : Failed t es e what p.own)
      (hc : Consumed t.mb s p.state (es ++ [e])) : Drains s t p (.threw what)
  | resetting (r : Bool) (es : List (Stored π)) (st : StatusT)
      (done : List (Turn (System π) TaskStep)) (set : Turn (System π) TaskStep)
      (hown : p.own = done ++ [set]) (hended : Ended t done r es st)
      (hset : did set = (.updateStatus, []) ∧ (set.after.objs t.target.actor).status = st)
      (hkept : StatusKept t.target.actor set.after p.state) (hc : Consumed t.mb s p.state es) :
      Drains s t p (.resetting r)
  | left (pc : ApplyPc π) (r : Bool) (es : List (Stored π)) (st : StatusT)
      (done : List (Turn (System π) TaskStep)) (set reset : Turn (System π) TaskStep)
      (hpc : pc = if r then .caught true else .returned) (hown : p.own = done ++ [set, reset])
      (h : Applied s t r es st done set reset) : Drains s t p pc

theorem handled_concat (t : ApplyTask) (es : List (Stored π)) (e : Stored π) :
    handled t (es ++ [e]) = handled t es ++ [(.tryPop, []),
      (.callHandler, [.handleBegin t.target.actor t.mb e]),
      (.handlerReturn, [.handleEnd t.target.actor t.mb])] := by
  unfold handled rounds
  rw [List.flatMap_append, List.flatMap_singleton, List.cons_append]

section Draining

variable {cfg : Config} {name : String} {s : System π} {p q : Focus (System π) TaskStep}
  {a : Action π} {k : TaskStep} {t : ApplyTask} {pc : ApplyPc π}

/-- What a step of the thread adds to the record. -/
theorem did_of_turn (hs : (followed cfg name).step p a = some q)
    (ha : userPool.turn a = some (p.place, k)) {evs : List (Event π)}
    (ht : q.state.trace = p.state.trace ++ evs) :
    q.own.map did = p.own.map did ++ [(k, evs)] := by
  rw [own_of_turn hs ha, List.map_append, List.map_singleton, did_append ht]

theorem pushed_nil {m : MailboxPtr} : ∀ ev ∈ ([] : List (Event π)), Event.pushed? m ev = none :=
  fun _ hev => absurd hev List.not_mem_nil

/-- The thread moves on, and takes nothing out of the mailbox. -/
theorem moves_on (hs : (followed cfg name).step p a = some q)
    (ha : userPool.turn a = some (p.place, k)) (hx : userPool.slot p = some (.applying t pc))
    {pc' : ApplyPc π} {es : List (Stored π)} {evs : List (Event π)}
    (hr : q.state.running = p.state.running.set p.place (.applying t pc'))
    (hb : q.state.boxes = p.state.boxes) (ht : q.state.trace = p.state.trace ++ evs)
    (hevs : ∀ ev ∈ evs, Event.pushed? t.mb ev = none) (hc : Consumed t.mb s p.state es) :
    userPool.slot q = some (.applying t pc') ∧ Consumed t.mb s q.state es ∧
      q.own.map did = p.own.map did ++ [(k, evs)] := by
  refine ⟨slot_of_set hs ha hx hr, ?_, did_of_turn hs ha ht⟩
  exact consumed_nil hc (consumed_same (by rw [hb]) (pushedTo_append ht hevs))

/-- The test at the top of `apply`. -/
theorem drains_of_entry (hs : (followed cfg name).step p a = some q)
    (ha : userPool.turn a = some (p.place, k)) (hx : userPool.slot p = some (.applying t .entry))
    (hown : p.own = []) (hc : Consumed t.mb s p.state []) :
    ∃ pc', userPool.slot q = some (.applying t pc') ∧ Drains s t q pc' := by
  have hstep := (turn_step hs ha hx).2.2
  cases k <;> simp only [applyStep, reduceCtorEq, Option.some.injEq] at hstep
  have ht : q.state.trace = p.state.trace ++ [] := by
    rw [← hstep, List.append_nil]
    rfl
  rcases moves_on hs ha hx (by rw [← hstep]; rfl) (by rw [← hstep]; rfl) ht pushed_nil hc with
    ⟨hy, hc', hdid⟩
  refine ⟨_, hy, ?_⟩
  by_cases hempty : p.state.boxes t.mb = []
  · rw [if_pos hempty]
    refine .drained [] ⟨[], _, ?_, hempty, Or.inl ⟨rfl, rfl, did_append ht⟩⟩ hc'
    rw [own_of_turn hs ha, hown]
  · rw [if_neg hempty]
    refine .draining [] ?_ hc'
    rw [hdid, hown]
    rfl

/-- One `try_pop`. -/
theorem drains_of_tryPop (hs : (followed cfg name).step p a = some q)
    (ha : userPool.turn a = some (p.place, k))
    (hx : userPool.slot p = some (.applying t .draining)) {es : List (Stored π)}
    (hown : p.own.map did = handled t es) (hc : Consumed t.mb s p.state es) :
    ∃ pc', userPool.slot q = some (.applying t pc') ∧ Drains s t q pc' := by
  have hstep := (turn_step hs ha hx).2.2
  cases k <;> simp only [applyStep, reduceCtorEq] at hstep
  split at hstep <;> rw [Option.some.injEq] at hstep
  · -- Nothing left.
    rename_i hempty
    have ht : q.state.trace = p.state.trace ++ [] := by
      rw [← hstep, List.append_nil]
      rfl
    rcases moves_on hs ha hx (by rw [← hstep]; rfl) (by rw [← hstep]; rfl) ht pushed_nil hc with
      ⟨hy, hc', _⟩
    exact ⟨.drained, hy, .drained es ⟨p.own, _, own_of_turn hs ha, hempty,
      Or.inr ⟨hown, did_append ht⟩⟩ hc'⟩
  · rename_i e rest hbox
    have ht : q.state.trace = p.state.trace := by
      rw [← hstep]
      rfl
    have hpop : Consumed t.mb p.state q.state [e] := by
      refine consumed_pop ?_ ht
      rw [hbox, ← hstep]
      change e :: rest = e :: Function.update p.state.boxes t.mb rest t.mb
      rw [Function.update_self]
    have ht' : q.state.trace = p.state.trace ++ [] := by rw [ht, List.append_nil]
    refine ⟨.popped e, slot_of_set hs ha hx (by rw [← hstep]; rfl), ?_⟩
    refine .popped es e ?_ (consumed_trans hc hpop)
    rw [did_of_turn hs ha ht', hown]

/-- How a handler is left. -/
theorem drains_of_handling (hs : (followed cfg name).step p a = some q)
    (ha : userPool.turn a = some (p.place, k)) {e : Stored π}
    (hx : userPool.slot p = some (.applying t (.handling e))) {es : List (Stored π)}
    (hown : p.own.map did = handled t es ++ [(.tryPop, []),
      (.callHandler, [.handleBegin t.target.actor t.mb e])])
    (hc : Consumed t.mb s p.state (es ++ [e])) :
    q.state.fate ≠ .running ∨ ∃ pc', userPool.slot q = some (.applying t pc') ∧
      Drains s t q pc' := by
  have hstep := (turn_step hs ha hx).2.2
  cases k <;> simp only [applyStep, reduceCtorEq, Option.some.injEq] at hstep
  case handlerReturn =>
      have ht : q.state.trace = p.state.trace ++ [.handleEnd t.target.actor t.mb] := by
        rw [← hstep]
        rfl
      rcases moves_on hs ha hx (by rw [← hstep]; rfl) (by rw [← hstep]; rfl) ht (by
        intro ev hev
        rw [List.mem_singleton.mp hev]
        rfl) hc with ⟨hy, hc', hdid⟩
      refine Or.inr ⟨.draining, hy, .draining (es ++ [e]) ?_ hc'⟩
      rw [hdid, hown, handled_concat, List.append_assoc]
      rfl
  case handlerThrow what =>
      have ht : q.state.trace = p.state.trace ++ [.handleThrow t.target.actor t.mb] := by
        rw [← hstep]
        rfl
      rcases moves_on hs ha hx (by rw [← hstep]; rfl) (by rw [← hstep]; rfl) ht (by
        intro ev hev
        rw [List.mem_singleton.mp hev]
        rfl) hc with ⟨hy, hc', hdid⟩
      refine Or.inr ⟨.threw what, hy, .threw es e what ?_ hc'⟩
      unfold Failed
      rw [hdid, hown, List.append_assoc]
      rfl
  case handlerAbort =>
      refine Or.inl ?_
      rw [← hstep]
      exact Fate.noConfusion

/-- The status is set to what goes with the way the loop was left. -/
theorem drains_of_status (hs : (followed cfg name).step p a = some q)
    (ha : userPool.turn a = some (p.place, k)) (hx : userPool.slot p = some (.applying t pc))
    {r : Bool} {es : List (Stored π)} {st : StatusT} {o : BaseActor}
    (hended : Ended t p.own r es st) (hc : Consumed t.mb s p.state es) (hk : k = .updateStatus)
    (hq : q.state = (p.state.moveTo p.place t (.resetting r)).setObj t.target.actor o)
    (ho : o.status = st) :
    ∃ pc', userPool.slot q = some (.applying t pc') ∧ Drains s t q pc' := by
  have ht : q.state.trace = p.state.trace ++ [] := by
    rw [hq, List.append_nil]
    rfl
  rcases moves_on hs ha hx (by rw [hq]; rfl) (by rw [hq]; rfl) ht pushed_nil hc with ⟨hy, hc', _⟩
  rw [hk] at ha
  refine ⟨.resetting r, hy, .resetting r es st p.own _ (own_of_turn hs ha) hended
    ⟨did_append ht, ?_⟩ ⟨[], (List.append_nil _).symm, fun _ => rfl⟩ hc'⟩
  change (q.state.objs t.target.actor).status = st
  rw [hq, System.setObj_self, ho]

/-- The flag is given back. -/
theorem drains_of_reset (hs : (followed cfg name).step p a = some q)
    (ha : userPool.turn a = some (p.place, k)) {r : Bool}
    (hx : userPool.slot p = some (.applying t (.resetting r))) {es : List (Stored π)}
    {st : StatusT} {done : List (Turn (System π) TaskStep)} {set : Turn (System π) TaskStep}
    (hown : p.own = done ++ [set]) (hended : Ended t done r es st)
    (hset : did set = (.updateStatus, []) ∧ (set.after.objs t.target.actor).status = st)
    (hkept : StatusKept t.target.actor set.after p.state) (hc : Consumed t.mb s p.state es) :
    ∃ pc', userPool.slot q = some (.applying t pc') ∧ Drains s t q pc' := by
  have hstep := (turn_step hs ha hx).2.2
  cases k <;> simp only [applyStep, reduceCtorEq, Option.some.injEq] at hstep
  have ht : q.state.trace = p.state.trace ++ [] := by
    rw [← hstep, List.append_nil]
    rfl
  have hobj : q.state.objs t.target.actor = (p.state.objs t.target.actor).resetBusy := by
    rw [← hstep, System.setObj_self]
  rcases moves_on hs ha hx (by rw [← hstep]; rfl) (by rw [← hstep]; rfl) ht pushed_nil hc with
    ⟨hy, hc', _⟩
  refine ⟨_, hy, .left _ r es st done set _ rfl ?_
    ⟨hended, hc', hset, ⟨did_append ht, by rw [hobj]; rfl⟩, ?_⟩⟩
  · rw [own_of_turn hs ha, hown, List.append_assoc]
    rfl
  · -- The flag is not the status.
    rcases hkept with ⟨evs, hevs, hstatus⟩
    refine ⟨evs, by rw [ht, List.append_nil, hevs], fun hno => ?_⟩
    rw [← hstatus hno, hobj]
    rfl

/-- One step of the thread in `apply`. -/
theorem drains_of_turn (hs : (followed cfg name).step p a = some q)
    (ha : userPool.turn a = some (p.place, k)) (hx : userPool.slot p = some (.applying t pc))
    (hpc : pc.holdsBusy = true) (h : Drains s t p pc) :
    q.state.fate ≠ .running ∨ ∃ pc', userPool.slot q = some (.applying t pc') ∧
      Drains s t q pc' := by
  have hstep := (turn_step hs ha hx).2.2
  cases h with
  | entry hown hc => exact Or.inr (drains_of_entry hs ha hx hown hc)
  | draining es hown hc => exact Or.inr (drains_of_tryPop hs ha hx hown hc)
  | popped es e hown hc =>
      cases k <;> simp only [applyStep, reduceCtorEq, Option.some.injEq] at hstep
      have ht : q.state.trace = p.state.trace ++ [.handleBegin t.target.actor t.mb e] := by
        rw [← hstep]
        rfl
      rcases moves_on hs ha hx (by rw [← hstep]; rfl) (by rw [← hstep]; rfl) ht (by
        intro ev hev
        rw [List.mem_singleton.mp hev]
        rfl) hc with ⟨hy, hc', hdid⟩
      refine Or.inr ⟨.handling e, hy, .handling es e ?_ hc'⟩
      rw [hdid, hown, List.append_assoc]
      rfl
  | handling es e hown hc => exact drains_of_handling hs ha hx hown hc
  | drained es hempty hc =>
      cases k <;> simp only [applyStep, reduceCtorEq, Option.some.injEq] at hstep
      exact Or.inr (drains_of_status hs ha hx (.returned es hempty) hc rfl hstep.symm rfl)
  | threw es e what hfail hc =>
      cases k <;> simp only [applyStep, reduceCtorEq, Option.some.injEq] at hstep
      exact Or.inr (drains_of_status hs ha hx (.threw es e what hfail) hc rfl hstep.symm rfl)
  | resetting r es st done set hown hended hset hkept hc =>
      exact Or.inr (drains_of_reset hs ha hx hown hended hset hkept hc)
  | left pc r es st done set reset hleft =>
      rw [hleft] at hpc
      cases r <;> exact absurd hpc Bool.false_ne_true

/-- One step of another thread. -/
theorem drains_of_other (hs : (followed cfg name).step p a = some q) (hd : Delivers p.state)
    (hj : Joined p.state) (ha : userPool.owner a ≠ some p.place)
    (hx : userPool.slot p = some (.applying t pc)) (hy : userPool.slot q = some (.applying t pc))
    (h : Drains s t p pc) : Drains s t q pc := by
  have hown := own_of_other hs ha
  have hmore : ∀ {es : List (Stored π)}, pc.holdsBusy = true → Consumed t.mb s p.state es →
      Consumed t.mb s q.state es := fun hpc hc => consumed_nil hc (arrives_of_other hs hd hx hy hpc)
  cases h with
  | entry hnil hc => exact .entry (by rw [hown, hnil]) (hmore rfl hc)
  | draining es hdid hc => exact .draining es (by rw [hown, hdid]) (hmore rfl hc)
  | popped es e hdid hc => exact .popped es e (by rw [hown, hdid]) (hmore rfl hc)
  | handling es e hdid hc => exact .handling es e (by rw [hown, hdid]) (hmore rfl hc)
  | drained es hempty hc => exact .drained es (by rw [hown]; exact hempty) (hmore rfl hc)
  | threw es e what hfail hc => exact .threw es e what (by rw [hown]; exact hfail) (hmore rfl hc)
  | resetting r es st done set hdone hended hset hkept hc =>
      exact .resetting r es st done set (by rw [hown, hdone]) hended hset
        (statusKept_trans hkept (status_of_other hs hd hj hx ha rfl)) (hmore rfl hc)
  | left pc r es st done set reset hpc hdone h =>
      exact .left _ r es st done set reset hpc (by rw [hown, hdone]) h

/-- A thread that has given the flag back has been through all of `apply`. -/
theorem applied_of_drains (h : Drains s t p pc) (hpc : pc.holdsBusy = false) :
    ∃ r es st done set reset, pc = (if r then .caught true else .returned) ∧
      p.own = done ++ [set, reset] ∧ Applied s t r es st done set reset := by
  cases h with
  | left pc r es st done set reset hleft hown h =>
      exact ⟨r, es, st, done, set, reset, hleft, hown, h⟩
  | _ => exact absurd hpc Bool.noConfusion

/-- Once a thread is past `apply`, it does not come back. -/
theorem late_of_apply {u u' : System π} {i : Nat} (hi : u.running[i]? = some (.applying t pc))
    (hs : applyStep cfg u i t k pc = some u') (hpc : pc.holdsBusy = false) :
    u'.fate ≠ .running ∨ u'.running = u.running.eraseIdx i ∨
      ∃ pc', u'.running = u.running.set i (.applying t pc') ∧ pc'.early = false := by
  cases hfailed : pc.failed with
  | true =>
      rcases asks_of_applyStep hi hfailed hs with ⟨_, _, hasks, hlands, _⟩
      cases hasks with
      | ends _ _ => exact Or.inr (Or.inl hlands)
      | halts _ _ hf hk => exact Or.inl hf
      | fails f d answer hf => exact Or.inl hf
      | first f parent answer hparent | next f d up answer hup =>
          refine Or.inr (Or.inr ⟨_, hlands, ?_⟩)
          split <;> rfl
      | locks f => exact Or.inr (Or.inr ⟨_, hlands, rfl⟩)
      | restarts f throws => exact Or.inr (Or.inr ⟨_, hlands, rfl⟩)
  | false =>
      cases pc with
      | returned =>
          -- The callback may throw, and that is an error too.
          cases k <;> simp only [applyStep, reduceCtorEq] at hs
          split at hs
          · rw [Option.some.injEq] at hs
            exact Or.inr (Or.inl (by rw [← hs]; rfl))
          · split at hs <;> rw [Option.some.injEq] at hs
            · exact Or.inr (Or.inr ⟨.caught false, by rw [← hs]; rfl, rfl⟩)
            · exact Or.inr (Or.inl (by rw [← hs]; rfl))
      | _ => first
        | exact absurd hpc Bool.noConfusion
        | exact absurd hfailed Bool.noConfusion

end Draining

/-- How far the thread has come, in any run, as long as it goes on. -/
theorem drains_of_path {cfg : Config} {name : String} {C : System π → Action π → Prop}
    {D : Focus (System π) TaskStep → Action π → Prop} {s : System π}
    (h : (context cfg name).Reach C s) {i : Nat} {t : ApplyTask}
    (hi : s.running[i]? = some (.applying t .entry)) {p : Focus (System π) TaskStep}
    (hp : (followed cfg name).Path D ⟨s, i, []⟩ p) :
    ∃ pc, userPool.slot p = some (.applying t pc) ∧
      (p.state.fate = .running → pc.early = true → Drains s t p pc) := by
  have hreach : (context cfg name).Reach free s := path_weaken (fun _ _ _ => trivial) h
  have hrule : ∃ y, userPool.slot p = some y ∧ (context cfg name).Reach free p.state ∧
      ∃ pc, y = .applying t pc ∧
        (p.state.fate = .running → pc.early = true → Drains s t p pc) := by
    refine followed_rule (fun p x => (context cfg name).Reach free p.state ∧
      ∃ pc, x = .applying t pc ∧ (p.state.fate = .running → pc.early = true → Drains s t p pc))
      (fun p a q x y k _ hs ha hx hy hJ => ?_) (fun p a q x _ hs ha hx hy hJ => ?_) hp hi
      ⟨hreach, .entry, rfl, fun _ _ => .entry rfl consumed_refl⟩
    · -- A step of the thread.
      rcases hJ with ⟨hr, pc, rfl, hd⟩
      have hr' : (context cfg name).Reach free q.state :=
        Machine.Path.tail a hr trivial (focus_step.mp hs).1
      have hfate := fate_of_followed hs
      rcases turn_slot hs ha hx with ⟨pc', hy'⟩
      rw [hy, Option.some.injEq] at hy'
      refine ⟨hr', pc', hy', fun hrun hearly => ?_⟩
      rw [hy'] at hy
      cases hbusy : pc.holdsBusy with
      | true =>
          have hpc : pc.early = true := by
            cases pc <;> first
              | rfl
              | exact absurd hbusy Bool.false_ne_true
          rcases drains_of_turn hs ha hx hbusy (hd hfate hpc) with hend | ⟨pc'', hy'', hd''⟩
          · exact absurd hrun hend
          · rw [hy, Option.some.injEq, Running.applying.injEq] at hy''
            rw [hy''.2]
            exact hd''
      | false =>
          rcases late_of_apply hx (turn_step hs ha hx).2.2 hbusy with
            hend | hgone | ⟨pc'', hr'', hlate⟩
          · exact absurd hrun hend
          · exact absurd hgone (not_erased hs ha hx)
          · have hset := slot_of_set hs ha hx hr''
            rw [hy, Option.some.injEq, Running.applying.injEq] at hset
            rw [hset.2, hlate] at hearly
            exact absurd hearly Bool.false_ne_true
    · -- A step of another thread.
      rcases hJ with ⟨hr, pc, rfl, hd⟩
      refine ⟨Machine.Path.tail a hr trivial (focus_step.mp hs).1, pc, rfl, fun _ hearly => ?_⟩
      exact drains_of_other hs (reach_delivers hr) (reach_joined hr) ha hx hy
        (hd (fate_of_followed hs) hearly)
  rcases hrule with ⟨y, hy, _, pc, rfl, hd⟩
  exact ⟨pc, hy, hd⟩

/-- Nothing holds a thread up in `apply` but its handler. -/
theorem apply_goes_on {cfg : Config} {name : String} {p : Focus (System π) TaskStep}
    {t : ApplyTask} {pc : ApplyPc π} (hx : userPool.slot p = some (.applying t pc))
    (hpc : pc.holdsBusy = true) (hfate : p.state.fate = .running) :
    ∃ k q, (followed cfg name).step p (.task p.place k) = some q := by
  have hi : p.state.running[p.place]? = some (.applying t pc) := hx
  have hstep : ∀ k s', applyStep cfg p.state p.place t k pc = some s' →
      (∃ pc', s'.running = p.state.running.set p.place (.applying t pc')) →
        ∃ k q, (followed cfg name).step p (.task p.place k) = some q := by
    rintro k s' hs ⟨pc', hr⟩
    have hs' : step cfg p.state (.task p.place k) = some s' := by
      rw [step_of_applying hfate hi, hs]
    refine ⟨k, _, focus_of_step hs' ?_⟩
    change p.state.running.length ≤ s'.running.length
    rw [hr, List.length_set]
  cases pc with
  | entry => exact hstep .entry _ rfl ⟨_, rfl⟩
  | draining =>
      cases hbox : p.state.boxes t.mb with
      | nil =>
          have hs : applyStep cfg p.state p.place t .tryPop .draining =
              some (p.state.moveTo p.place t .drained) := by simp only [applyStep, hbox]
          exact hstep .tryPop _ hs ⟨.drained, rfl⟩
      | cons e rest =>
          have hs : applyStep cfg p.state p.place t .tryPop .draining =
              some { p.state.moveTo p.place t (.popped e) with
                boxes := Function.update p.state.boxes t.mb rest } := by
            simp only [applyStep, hbox]
          exact hstep .tryPop _ hs ⟨.popped e, rfl⟩
  | popped e => exact hstep .callHandler _ rfl ⟨_, rfl⟩
  | handling e => exact hstep .handlerReturn _ rfl ⟨_, rfl⟩
  | drained | threw what => exact hstep .updateStatus _ rfl ⟨_, rfl⟩
  | resetting r => exact hstep .resetBusy _ rfl ⟨_, rfl⟩
  | _ => exact absurd hpc Bool.noConfusion

/-- `apply` drains a prefix and reports it. From the test at its top on, whoever else
    moves, the thread holds the busy flag and can go on. When it leaves `apply`, its
    record is that of a drained prefix: the handler was called on one envelope after
    another, up to the first at which it threw or until the mailbox was empty, and
    the status that was set says which. -/
theorem apply_drains_mailbox {cfg : Config} {name : String} {s : System π}
    (h : (context cfg name).Reach free s) {i : Nat} {t : ApplyTask}
    (hi : s.running[i]? = some (.applying t .entry)) :
    ∀ p, (followed cfg name).Path free ⟨s, i, []⟩ p → p.state.fate = .running →
      (∀ pc, userPool.slot p = some (.applying t pc) → pc.holdsBusy = true →
        (p.state.objs t.target.actor).busy = true ∧
          ∃ k q, (followed cfg name).step p (.task p.place k) = some q) ∧
      ∀ r, userPool.slot p = some (.applying t (if r then .caught true else .returned)) →
        ∃ es st done set reset, p.own = done ++ [set, reset] ∧
          Applied s t r es st done set reset := by
  intro p hp hfate
  refine ⟨fun pc hx hbusy => ⟨?_, apply_goes_on hx hbusy hfate⟩, fun r hx => ?_⟩
  · -- The flag counts the holders.
    have hbal : Balanced p.state := reach_balanced (reach_of_followed h hp)
    have hmem : Running.applying t pc ∈ p.state.running := List.mem_of_getElem? hx
    have hcount : 0 < p.state.running.countP (Running.holds t.target.actor) :=
      List.countP_pos_iff.mpr ⟨_, hmem, by
        simp only [Running.holds, hbusy, decide_true, Bool.and_self]⟩
    have hflag := hbal t.target.actor
    unfold System.outstanding at hflag
    cases hb : (p.state.objs t.target.actor).busy with
    | true => rfl
    | false =>
        rw [hb, Bool.toNat_false] at hflag
        omega
  · rcases drains_of_path h hi hp with ⟨pc, hy, hd⟩
    rw [hx, Option.some.injEq, Running.applying.injEq] at hy
    have hearly : pc.early = true := by
      rw [← hy.2]
      cases r <;> rfl
    have hbusy : pc.holdsBusy = false := by
      rw [← hy.2]
      cases r <;> rfl
    rcases applied_of_drains (hd hfate hearly) hbusy with
      ⟨r', es, st, done, set, reset, hpc, hown, h⟩
    have hr : r' = r := by
      rw [← hy.2] at hpc
      cases r <;> cases r' <;> first
        | rfl
        | exact absurd hpc (by
            simp only [Bool.false_eq_true, if_true, if_false, reduceCtorEq, not_false_eq_true])
    subst hr
    exact ⟨es, st, done, set, reset, hown, h⟩

/-- That run up to the test at the top of `apply`, and from there on. A message is
    sent while the handler runs. -/
def drainBegun : List (Action Nat) :=
  drainRun.take (drainRun.length - 5)

def drainSteps : List (Action Nat) :=
  drainRun.drop (drainRun.length - 5) ++ [.task 0 .updateStatus, .task 0 .resetBusy]

theorem apply_drains_mailbox_drainRun :
    ∃ es st done set reset,
      ((followed (.plain 1) "ctx").onward ⟨(context (.plain 1) "ctx").after drainBegun, 0, []⟩
          drainSteps).own = done ++ [set, reset] ∧
        Applied ((context (.plain 1) "ctx").after drainBegun) failedTask true es st done set
          reset := by
  have hi : ((context (.plain 1) "ctx").after drainBegun).running[0]? =
      some (.applying failedTask .entry) := rfl
  exact (apply_drains_mailbox (reach_after drainBegun) hi _ (path_onward _ drainSteps)
    (by decide)).2 true rfl

end Yaaf
