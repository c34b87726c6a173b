import Yaaf.Theory.Handlers

/-!
# The Supervision Gate

`base_actor::apply` gives the busy flag back before the exception of a handler
gets to the supervisor, so from there on nothing keeps the worker away from
the failed actor. A pass that locks it before its supervisor has decided
posts the next message, and that message is handled whatever the decision is:
while the supervisor is being asked, or after it said `STOP`.

`Waits` is the condition on the worker's `try_lock` that makes a gate: it does
not get the flag of an actor whose failure is still being decided. Then the
actor has no dispatch at all in the meantime, and a stop leaves it with none.

## Main definitions

* `Running.fails`: The handler threw, and the decision is not carried out.
* `Waits`: The worker locks no actor that is in this state.
* `Gated`: An actor in this state holds its own flag or has none set.
* `Dead`: A mailbox that is out of the maps and that no task is about.

## Theorems

* `step_gated`: Steps that meet the condition keep the gate.
* `step_closed`: A mailbox of an actor stopped for a failure is dead.
* `supervision_gate`: The gate holds in runs that meet the condition.
-/

namespace Yaaf

open Slots Trace

variable {π : Type}

/-- The handler of `a` has thrown in this thread, and what the supervisor
    decides is not yet carried out. -/
def Running.fails (a : ActorPtr) : Running π → Bool
  | .applying t pc => t.target.actor = a && pc.failing
  | _ => false

/-- The object whose busy flag the step takes, if the step is the worker's
    `try_lock` and succeeds. -/
def System.locks (s : System π) : Action π → Option ActorPtr
  | .worker _ => match s.worker with
    | .scan _ _ (.trying _ d) => if (s.objs d.actor).busy then none else some d.actor
    | _ => none
  | _ => none

/-- The worker locks no actor whose failure is being decided. -/
def Waits (s : System π) (x : Action π) : Prop :=
  ∀ a ∈ s.locks x, ∀ r ∈ s.running, r.fails a = false

instance (s : System π) (x : Action π) : Decidable (Waits s x) :=
  inferInstanceAs (Decidable (∀ a ∈ s.locks x, _))

/-- A thread that deals with a failure holds the flag of the actor, or nobody
    does. -/
def Gated (s : System π) : Prop :=
  ∀ r ∈ s.running, ∀ a, r.fails a = true → r.holds a = true ∨ (s.objs a).busy = false

/-- A mailbox that has left the maps for good, and that no thread is on the way
    to. -/
structure Dead (s : System π) (m : MailboxPtr) : Prop where
  old : m < s.nextBox
  gone : ∀ k, s.mboxes.lookup k ≠ some m
  quiet : ¬ s.dispatches fun t => t.mb = m

/-- The mailbox of an actor that was stopped for a failure is dead. -/
def Closed (s : System π) : Prop :=
  ∀ t, Event.failureStopped t true ∈ s.trace → Dead s t.mb

section Gate

variable {cfg : Config} {s s' : System π} {x : Action π}

/-- Where there is a dispatch, the flag is set. -/
theorem busy_of_dispatches (hb : Balanced s) {a : ActorPtr}
    (h : s.dispatches fun t => t.target.actor = a) : (s.objs a).busy = true := by
  have hpos : 0 < s.outstanding a := by
    unfold System.outstanding
    rcases h with ⟨t, ht, ha⟩ | ⟨t, pc, ht, heng, ha⟩
    · have hq : 0 < s.queue.countP (Task.holds a) :=
        List.countP_pos_iff.mpr ⟨_, ht, decide_eq_true ha⟩
      omega
    · have hr : 0 < s.running.countP (Running.holds a) := by
        refine List.countP_pos_iff.mpr ⟨_, ht, ?_⟩
        simp only [Running.holds, ha, engaged_holdsBusy heng, decide_true, Bool.and_self]
      omega
  rw [hb a] at hpos
  cases hbusy : (s.objs a).busy with
  | true => rfl
  | false =>
      rw [hbusy, Bool.toNat_false] at hpos
      exact absurd hpos (Nat.lt_irrefl 0)

/-- The condition on the worker, as it is used: an idle actor with a failure
    stays idle. -/
theorem idle_of_waits (hs : step cfg s x = some s') (hc : Waits s x) {r : Running π}
    (hr : r ∈ s.running) {a : ActorPtr} (hf : r.fails a = true)
    (hidle : (s.objs a).busy = false) : (s'.objs a).busy = false := by
  cases hbusy : (s'.objs a).busy with
  | false => rfl
  | true =>
      rcases step_busy hs hidle hbusy with ⟨todo, rm, m, d, st, rfl, hw, rfl⟩
      have hlock : d.actor ∈ s.locks (.worker st) := by
        simp only [System.locks, hw, hidle, Bool.false_eq_true, if_false, Option.mem_some_iff]
      have hno := hc d.actor hlock r hr
      rw [hf] at hno
      exact hno

theorem step_gated (hs : step cfg s x = some s') (hc : Waits s x) (h : Gated s) : Gated s' := by
  -- A thread that was there before keeps what it holds, and a flag it cleared
  -- is clear still: nobody locks the actor in between.
  have hold : ∀ r ∈ s.running, ∀ a, r.fails a = true →
      r.holds a = true ∨ (s'.objs a).busy = false := by
    intro r hr a hf
    rcases h r hr a hf with hholds | hidle
    · exact Or.inl hholds
    · exact Or.inr (idle_of_waits hs hc hr hf hidle)
  intro r hr a hf
  cases poolRule_of_stepRule (stepRule_of_step hs).2 with
  | same hq hrun =>
      rw [hrun] at hr
      exact hold r hr a hf
  | post t ht hrun =>
      rw [hrun] at hr
      exact hold r hr a hf
  | pick t rest hq hq' hrun =>
      rw [hrun] at hr
      rcases List.mem_append.mp hr with hr | hr
      · exact hold r hr a hf
      · rw [List.mem_singleton.mp hr] at hf
        cases t <;> exact absurd hf (by simp [Task.taken, Running.fails, ApplyPc.failing])
  | move st i t pc pc' hi hq hrun hd hmove hfree =>
      rw [hrun] at hr
      rcases List.mem_or_eq_of_mem_set hr with hr | rfl
      · exact hold r hr a hf
      · simp only [Running.fails, Bool.and_eq_true, decide_eq_true_eq] at hf
        rcases hf with ⟨rfl, hf⟩
        have hholds : pc'.holdsBusy = true →
            Running.holds t.target.actor (.applying t pc') = true := by
          intro hb
          simp only [Running.holds, hb, decide_true, Bool.and_self]
        rcases hmove.failing hf with hfail | hb
        · -- It was failing before: what held the flag keeps it or frees it.
          have hbefore : Running.fails t.target.actor (.applying t pc) = true := by
            simp only [Running.fails, hfail, decide_true, Bool.and_self]
          rcases hold _ (List.mem_of_getElem? hi) _ hbefore with hh | hidle
          · simp only [Running.holds, decide_true, Bool.true_and] at hh
            rcases hfree hh with hb | hidle
            · exact Or.inl (hholds hb)
            · exact Or.inr hidle
          · exact Or.inr hidle
        · exact Or.inl (hholds hb)
  | finish st i r' hi hq hrun =>
      rw [hrun] at hr
      exact hold r (List.mem_of_mem_eraseIdx hr) a hf

/-- No dispatch of an actor is under way while its failure is being decided,
    but for the one that failed. -/
theorem gated_no_popped (hb : Balanced s) (h : Gated s) {t : ApplyTask} {e : Stored π}
    (ht : Running.applying t (.popped e) ∈ s.running) {r : Running π} (hr : r ∈ s.running) :
    r.fails t.target.actor = false := by
  cases hf : r.fails t.target.actor with
  | false => rfl
  | true =>
      have hholds : Running.holds t.target.actor (Running.applying t (.popped e)) = true := by
        simp only [Running.holds, ApplyPc.holdsBusy, decide_true, Bool.and_self]
      rcases h r hr _ hf with hh | hidle
      · -- The holder is the thread with the envelope, which has not failed.
        rcases List.getElem?_of_mem ht with ⟨i, hi⟩
        have hsame := sole_holder hb hi hholds hr hh
        rw [hsame] at hf
        simp only [Running.fails, ApplyPc.failing, Bool.and_false, Bool.false_eq_true] at hf
      · have hbusy := busy_of_dispatches hb (dispatches_of_popped (p := fun u =>
          u.target.actor = t.target.actor) ht rfl)
        rw [hidle] at hbusy
        exact absurd hbusy Bool.false_ne_true

theorem step_dead (hs : step cfg s x = some s') (hreg : Registered s) {m : MailboxPtr}
    (h : Dead s m) : Dead s' m := by
  rcases step_mboxes hs hreg with ⟨hle, hmboxes⟩
  refine ⟨Nat.lt_of_lt_of_le h.old hle, fun k hk => ?_, fun hd => ?_⟩
  · rcases hmboxes k m hk with hk | hk
    · exact h.gone k hk
    · exact Nat.ne_of_lt h.old hk
  · rcases step_dispatches hs hreg hd with hd | ⟨_, _, n, _, _, k, _, hmb, _, hk⟩
    · exact h.quiet hd
    · exact h.gone k (by rw [hk]; exact congrArg some hmb)

theorem step_closed (hs : step cfg s x = some s') (hreg : Registered s) (hreg' : Registered s')
    (hback : Backed s) (hb : Balanced s) (hg : Gated s) (h : Closed s) : Closed s' := by
  intro t ht
  rcases mem_or_of_grows (step_origin hs) ht with hold | ⟨hx, i, pc, hi, hstops, hfail, hgone⟩
  · exact step_dead hs hreg (h t hold)
  · have hmem := List.mem_of_getElem? hi
    have hbacked := hback (.apply t) (Or.inr (Or.inr ⟨_, hmem, rfl⟩))
    rcases hbacked with ⟨r, hr, hrm, hrd⟩
    refine ⟨?_, fun k hk => ?_, fun hd => ?_⟩
    · rw [← hrm]
      exact Nat.lt_of_lt_of_le (hreg.fresh r hr) (step_mboxes hs hreg).1
    · -- The mailbox belongs to one id, and that id is not registered now.
      have hgone' : s'.live r.descr.address.id = none := by rw [hrd, hgone]
      rw [← hrm] at hk
      exact mbox_gone hreg'.toFiled (step_registrations hs hreg r hr) hgone' k hk
    · rcases step_dispatches hs hreg hd with hd | ⟨todo, rm, m, d, up, k, hw, _⟩
      · -- A dispatch of the mailbox is one of the actor, whose flag is clear.
        have hactor : s.dispatches fun u => u.target.actor = t.target.actor := by
          rcases hd with ⟨u, hu, hmb⟩ | ⟨u, pc', hu, heng, hmb⟩
          · exact Or.inl ⟨u, hu, backed_target hreg.toFiled (hback _ (Or.inl hu))
              (hback _ (Or.inr (Or.inr ⟨_, hmem, rfl⟩))) hmb⟩
          · exact Or.inr ⟨u, pc', hu, heng, backed_target hreg.toFiled
              (hback _ (Or.inr (Or.inr ⟨_, hu, rfl⟩)))
              (hback _ (Or.inr (Or.inr ⟨_, hmem, rfl⟩))) hmb⟩
        have hbusy := busy_of_dispatches hb hactor
        have hfails : Running.fails t.target.actor (.applying t pc) = true := by
          simp only [Running.fails, hfail, decide_true, Bool.and_self]
        rcases hg _ hmem _ hfails with hholds | hidle
        · cases pc <;> simp only [ApplyPc.stops, Bool.false_eq_true] at hstops <;>
            simp only [Running.holds, ApplyPc.holdsBusy, Bool.and_false,
              Bool.false_eq_true] at hholds
        · rw [hidle] at hbusy
          exact Bool.false_ne_true hbusy
      · simp only [System.canExclude, System.scanning, hw, Bool.not_true, Bool.and_false,
          Bool.false_and, Bool.false_eq_true] at hx

/-- A thread that deals with a failure goes on doing so until its task ends. -/
theorem step_fails (hs : step cfg s x = some s') {r : Running π} (hr : r ∈ s.running)
    {a : ActorPtr} (hf : r.fails a = true) : (∃ r' ∈ s'.running, r'.fails a = true) ∨
      ∃ t pc, r = .applying t pc ∧ (pc.ends = true ∨ pc.stops t = true) := by
  rcases List.getElem?_of_mem hr with ⟨j, hj⟩
  rcases List.getElem?_eq_some_iff.mp hj with ⟨hlt, _⟩
  cases poolRule_of_stepRule (stepRule_of_step hs).2 with
  | same hq hrun => exact Or.inl ⟨r, by rw [hrun]; exact hr, hf⟩
  | post t ht hrun => exact Or.inl ⟨r, by rw [hrun]; exact hr, hf⟩
  | pick t rest hq hq' hrun =>
      exact Or.inl ⟨r, by rw [hrun]; exact List.mem_append_left _ hr, hf⟩
  | move st i t pc pc' hi hq hrun hd hmove =>
      rw [hrun]
      -- The step is the thread's own, or it is another's.
      by_cases hij : i = j
      · subst hij
        rw [hi, Option.some.injEq] at hj
        rw [← hj] at hf
        simp only [Running.fails, Bool.and_eq_true] at hf
        refine Or.inl ⟨_, List.mem_set hlt _, ?_⟩
        simp only [Running.fails, hf.1, hmove.keeps hf.2, Bool.and_self]
      · refine Or.inl ⟨r, List.mem_of_getElem? (i := j) ?_, hf⟩
        rw [List.getElem?_set_ne hij, hj]
  | finish st i r' hi hq hrun hd hend hlast =>
      rw [hrun]
      by_cases hij : i = j
      · subst hij
        rw [hi, Option.some.injEq] at hj
        cases r with
        | starting b m => exact absurd hf Bool.false_ne_true
        | applying t pc => exact Or.inr ⟨t, pc, rfl, hlast t pc hj⟩
      · exact Or.inl ⟨r, List.mem_eraseIdx_iff_getElem?.mpr ⟨j, fun h => hij h.symm, hj⟩, hf⟩

theorem makeContext_gated (name : String) :
    Gated (makeContext (π := π) cfg name) ∧ Closed (makeContext (π := π) cfg name) := by
  refine ⟨fun r hr => ?_, fun t ht => ?_⟩
  · rw [makeContext_running] at hr
    exact absurd hr List.not_mem_nil
  · exact absurd (makeContext_trace ht) Bool.false_ne_true

theorem reach_gated {name : String} (h : (context cfg name).Reach Waits s) :
    Gated s ∧ Closed s := by
  refine Machine.invariant_of (fun s => Registered s ∧ Backed s ∧ Balanced s)
    (fun s => Gated s ∧ Closed s)
    (fun s h => ⟨reach_registered h, reach_backed h, reach_balanced h⟩) (makeContext_gated name)
    (fun s x s' hc hs hJ hJ' h => ?_) h
  rcases hJ with ⟨hreg, hback, hb⟩
  exact ⟨step_gated hs hc h.1, step_closed hs hreg hJ'.1 hback hb h.1 h.2⟩

end Gate

/-- The supervision gate. While the worker locks no actor whose failure is
    being decided, no handler of an actor begins between a throw of its handler
    and the end of the task that deals with it, and none ever begins on a
    mailbox whose actor was stopped for a failure. -/
theorem supervision_gate {cfg : Config} {name : String} {s : System π}
    (h : (context cfg name).Reach Waits s) :
    (∀ x s', step cfg s x = some s' → ∃ evs, s'.trace = s.trace ++ evs ∧
      (∀ a m e, .handleBegin a m e ∈ evs → ∀ r ∈ s.running, r.fails a = false) ∧
      (∀ a m, .handleThrow a m ∈ evs → ∃ r ∈ s'.running, r.fails a = true) ∧
      ∀ a, ∀ r ∈ s.running, r.fails a = true → (∃ r' ∈ s'.running, r'.fails a = true) ∨
        ∃ t pc, r = .applying t pc ∧ (pc.ends = true ∨ pc.stops t = true)) ∧
    ∀ s', (context cfg name).Path Waits s s' → ∃ evs, s'.trace = s.trace ++ evs ∧
      ∀ t, .failureStopped t true ∈ s.trace → ∀ a e, .handleBegin a t.mb e ∉ evs := by
  refine ⟨fun x s' hs => ?_, fun s' hp => ?_⟩
  -- One step: what it adds to the trace has its origin in the step.
  · rcases step_origin hs with ⟨evs, hevs, horigin⟩
    refine ⟨evs, hevs, fun a m e hev r hr => ?_, fun a m hev => ?_, fun a r hr hf => ?_⟩
    · rcases horigin _ hev with ⟨t, ht, rfl, _⟩
      exact gated_no_popped (reach_balanced h) (reach_gated h).1 ht hr
    · rcases horigin _ hev with ⟨t, what, ht, rfl, _⟩
      refine ⟨_, ht, ?_⟩
      simp only [Running.fails, ApplyPc.failing, decide_true, Bool.and_self]
    · exact step_fails hs hr hf
  -- A run, by induction on its end: the mailbox is closed and stays closed.
  · induction hp with
    | refl => exact ⟨[], by rw [List.append_nil], fun t _ a e => List.not_mem_nil⟩
    | @tail u v x hpu hc hst ih =>
        rcases ih with ⟨evs, hevs, hnone⟩
        rcases step_origin hst with ⟨evs', hevs', horigin⟩
        refine ⟨evs ++ evs', by rw [hevs', hevs, List.append_assoc], fun t ht a e hmem => ?_⟩
        rcases List.mem_append.mp hmem with hmem | hmem
        · exact hnone t ht a e hmem
        · have hclosed := (reach_gated (Machine.path_trans h hpu)).2 t (by
            rw [hevs]
            exact List.mem_append_left _ ht)
          rcases horigin _ hmem with ⟨w, hw, _, hmb⟩
          exact hclosed.quiet (dispatches_of_popped hw hmb)

/-- Two messages for `a`, and its handler throws on the first. -/
def failRun : List (Action Nat) :=
  register "a" .null 3 ++ runStarts 4 ++
    [.call (.sendEnvelope ⟨⟨4⟩, "/root/usr/a"⟩ ⟨some 0, .null⟩),
      .call (.sendEnvelope ⟨⟨4⟩, "/root/usr/a"⟩ ⟨some 1, .null⟩)] ++
    dispatchPass ⟨4⟩ [⟨1⟩, ⟨2⟩, ⟨3⟩] ++
    [.pick, .task 0 .entry, .task 0 .tryPop, .task 0 .callHandler,
      .task 0 (.handlerThrow "failed"), .task 0 .updateStatus, .task 0 .resetBusy]

/-- The task the messages of `a` are dispatched with. -/
def failedTask : ApplyTask :=
  ⟨⟨3, ⟨⟨4⟩, "/root/usr/a"⟩, ⟨⟨⟨4⟩, "/root/usr/a"⟩, "ctx/#usercontext#4"⟩, "/root/usr/a", ⟨2⟩, []⟩,
    some 1, 3⟩

/-- The supervisor says `STOP`. -/
def stopDecision : List (Action Nat) :=
  [.task 0 (.childError (some .stop)), .task 0 (.decide false)]

/-- The worker passes after the decision: the second message stays. -/
theorem supervision_gate_decided :
    ∃ evs, ((context (.plain 2) "ctx").onward
          ((context (.plain 2) "ctx").after (failRun ++ stopDecision))
          [.worker (.tryFanOut false), .worker (.tryScan true)]).trace =
        ((context (.plain 2) "ctx").after (failRun ++ stopDecision)).trace ++ evs ∧
      ∀ e, .handleBegin 3 3 e ∉ evs := by
  have hreach : (context (.plain 2) "ctx").Reach Waits
      ((context (.plain 2) "ctx").after (failRun ++ stopDecision)) :=
    Machine.reach_meets _ (by decide)
  have hpath : (context (.plain 2) "ctx").Path Waits
      ((context (.plain 2) "ctx").after (failRun ++ stopDecision))
      ((context (.plain 2) "ctx").onward _
        [.worker (.tryFanOut false), .worker (.tryScan true)]) :=
    Machine.path_meets _ _ (by decide)
  rcases (supervision_gate hreach).2 _ hpath with ⟨evs, hevs, hnone⟩
  exact ⟨evs, hevs, fun e => hnone failedTask (List.mem_of_getElem? (i := 27) rfl) 3 e⟩

/-- The worker passes before the decision: a second thread has the second
    message by the time the supervisor is asked. -/
def overtakeRun : List (Action Nat) :=
  failRun ++ dispatchPass ⟨4⟩ [⟨1⟩, ⟨2⟩, ⟨3⟩] ++ [.pick, .task 1 .entry, .task 1 .tryPop]

/-- Its handler begins before the decision, or after the decision to stop. -/
theorem supervision_gate_overtaken :
    (∃ s s' e, (context (π := Nat) (.plain 2) "ctx").Reach Machine.free s ∧
      (context (.plain 2) "ctx").Path Machine.free s s' ∧ (∃ r ∈ s.running, r.fails 3 = true) ∧
      .handleBegin 3 3 e ∈ s'.trace.drop s.trace.length ∧ ∃ r ∈ s'.running, r.fails 3 = true) ∧
    ∃ s s' t e, (context (π := Nat) (.plain 2) "ctx").Reach Machine.free s ∧
      (context (.plain 2) "ctx").Path Machine.free s s' ∧ .failureStopped t true ∈ s.trace ∧
      .handleBegin 3 t.mb e ∈ s'.trace.drop s.trace.length := by
  refine ⟨⟨(context (.plain 2) "ctx").after overtakeRun, _, ⟨⟨some 1, .null⟩, rfl⟩,
    Machine.reach_after _, Machine.path_onward _ [.task 1 .callHandler],
    ⟨.applying failedTask (.caught true), List.mem_of_getElem? (i := 0) rfl, by decide⟩,
    List.mem_of_getElem? (i := 0) rfl,
    ⟨.applying failedTask (.caught true), List.mem_of_getElem? (i := 0) rfl, by decide⟩⟩, ?_⟩
  exact ⟨(context (.plain 2) "ctx").after (overtakeRun ++ stopDecision), _, failedTask,
    ⟨⟨some 1, .null⟩, rfl⟩, Machine.reach_after _, Machine.path_onward _ [.task 0 .callHandler],
    List.mem_of_getElem? (i := 27) rfl, List.mem_of_getElem? (i := 0) rfl⟩

end Yaaf
