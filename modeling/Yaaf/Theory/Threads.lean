import Yaaf.Library.Focus
import Yaaf.Theory.Delivery
import Yaaf.Theory.Finality

/-!
# One Thread of the User Pool

A task is worked through by one thread, and what the task comes to is said of that
thread: which envelopes it handed over, which callbacks it made, where it stood when.
`followed` is a context with one thread of its user pool followed, from the start of a
task, say. The other threads go on as they like in the meantime.

A thread inside `base_actor::apply` holds the busy flag, and that is why it can be
followed at all. Nobody else takes envelopes out of its mailbox or sets the status of
its actor, but for an `on_stop`, which leaves a trace.

## Main definitions

* `userPool`, `followed`: The threads; the machine that follows one.
* `recorded`, `did`: What a step of the thread recorded.
* `Consumed`: What was taken out of a mailbox between two states.
* `StatusKept`: A status that only an `on_stop` has set.

## Theorems

* `shifts_of_step`: What a step does to the table of threads.
* `turn_step`: A step of the followed thread is a step of its task.
* `consumed_of_mailRule`: What a step takes out of a mailbox.
* `consumed_of_path`: What a run takes out of a mailbox.
* `arrives_of_other`, `status_of_other`: What is left to the others.
-/

namespace Yaaf

open Machine

variable {π : Type}

/-- The threads of the user pool. -/
def userPool : Threads (System π) (Action π) (Running π) TaskStep where
  slots := System.running
  turn
    | .task i st => some (i, st)
    | _ => none

/-- A context with one thread of its user pool followed. -/
abbrev followed (cfg : Config) (name : String) :
    Machine (Focus (System π) TaskStep) (Action π) :=
  (context cfg name).focus userPool

/-- The events a step of the thread recorded. -/
def recorded (x : Turn (System π) TaskStep) : List (Event π) :=
  x.after.trace.drop x.before.trace.length

/-- A step of the thread, with what it recorded. -/
def did (x : Turn (System π) TaskStep) : TaskStep × List (Event π) :=
  (x.step, recorded x)

theorem did_append {k : TaskStep} {s s' : System π} {evs : List (Event π)}
    (h : s'.trace = s.trace ++ evs) : did ⟨k, s, s'⟩ = (k, evs) := by
  unfold did recorded
  rw [h, List.drop_left]

section Steps

variable {cfg : Config} {name : String} {p q : Focus (System π) TaskStep} {a : Action π}

/-- What a step does to the table of threads. -/
theorem shifts_of_step {s s' : System π} (hs : step cfg s a = some s') :
    Shifts s.running s'.running (userPool.owner a) := by
  cases poolRule_of_stepRule (stepRule_of_step hs).2 with
  | same hq hr => exact .same hr
  | post t ht hr => exact .same hr
  | pick t rest hq hq' hr => exact .new _ hr
  | move st i t pc pc' hi hq hr => exact .moved i _ _ rfl hi hr
  | finish st i r hi hq hr => exact .ended i _ rfl hi hr

/-- An invariant of one thread of the user pool. -/
theorem followed_rule {C : Focus (System π) TaskStep → Action π → Prop}
    (J : Focus (System π) TaskStep → Running π → Prop)
    (hown : ∀ p a q x y k, C p a → (followed cfg name).step p a = some q →
      userPool.turn a = some (p.place, k) → userPool.slot p = some x → userPool.slot q = some y →
        J p x → J q y)
    (hother : ∀ p a q x, C p a → (followed cfg name).step p a = some q →
      userPool.owner a ≠ some p.place → userPool.slot p = some x → userPool.slot q = some x →
        J p x → J q x)
    (h : (followed cfg name).Path C p q) {x : Running π} (hx : userPool.slot p = some x)
    (hJ : J p x) : ∃ y, userPool.slot q = some y ∧ J q y :=
  focus_rule (fun _ _ _ hs => shifts_of_step hs) J hown hother h hx hJ

/-- A step of the followed thread is a step of its task. -/
theorem turn_step (hs : (followed cfg name).step p a = some q) {k : TaskStep}
    (ha : userPool.turn a = some (p.place, k)) {t : ApplyTask} {pc : ApplyPc π}
    (hx : userPool.slot p = some (.applying t pc)) :
    a = .task p.place k ∧ p.state.fate = .running ∧
      applyStep cfg p.state p.place t k pc = some q.state := by
  have hlabel : a = .task p.place k := by
    unfold userPool at ha
    cases a with
    | task i st =>
        simp only [Option.some.injEq, Prod.mk.injEq] at ha
        rw [ha.1, ha.2]
    | _ => exact absurd ha (by simp only [reduceCtorEq, not_false_eq_true])
  subst hlabel
  have hstep : step cfg p.state (.task p.place k) = some q.state := (focus_step.mp hs).1
  exact ⟨rfl, applyStep_of_step hx hstep⟩

/-- Nothing happens after the end of a run. -/
theorem fate_of_followed (hs : (followed cfg name).step p a = some q) :
    p.state.fate = .running := by
  have hstep : step cfg p.state a = some q.state := (focus_step.mp hs).1
  exact (stepRule_of_step hstep).1

/-- Where the thread has moved to. -/
theorem slot_of_set (hs : (followed cfg name).step p a = some q) {k : TaskStep}
    (ha : userPool.turn a = some (p.place, k)) {x y : Running π} (hx : userPool.slot p = some x)
    (hr : q.state.running = p.state.running.set p.place y) : userPool.slot q = some y := by
  have howner : userPool.owner a = some p.place := by
    unfold Threads.owner
    rw [ha]
    rfl
  have hi : p.state.running[p.place]? = some x := hx
  rcases List.getElem?_eq_some_iff.mp hi with ⟨hlt, _⟩
  unfold Threads.slot
  rw [place_of_length hs (length_of_turn hs howner)]
  change q.state.running[p.place]? = some y
  rw [hr, List.getElem?_set_self hlt]

/-- Where the table is what it was, the thread stands where it stood. -/
theorem slot_of_same (hs : (followed cfg name).step p a = some q) {x : Running π}
    (hx : userPool.slot p = some x) (hr : q.state.running = p.state.running) :
    userPool.slot q = some x := by
  unfold Threads.slot
  rw [place_of_length hs (Nat.le_of_eq (congrArg List.length hr.symm))]
  change q.state.running[p.place]? = some x
  rw [hr]
  exact hx

/-- A thread that is followed on did not end. -/
theorem not_erased (hs : (followed cfg name).step p a = some q) {k : TaskStep}
    (ha : userPool.turn a = some (p.place, k)) {x : Running π} (hx : userPool.slot p = some x) :
    q.state.running ≠ p.state.running.eraseIdx p.place := by
  intro hr
  have hle : p.state.running.length ≤ q.state.running.length :=
    length_of_turn hs (by unfold Threads.owner; rw [ha]; rfl)
  have hlt := length_eraseIdx_lt (l := p.state.running) hx
  rw [hr] at hle
  omega

/-- A thread that goes on stays with its task. -/
theorem turn_slot (hs : (followed cfg name).step p a = some q) {k : TaskStep}
    (ha : userPool.turn a = some (p.place, k)) {t : ApplyTask} {pc : ApplyPc π}
    (hx : userPool.slot p = some (.applying t pc)) :
    ∃ pc', userPool.slot q = some (.applying t pc') := by
  have hstep : step cfg p.state a = some q.state := (focus_step.mp hs).1
  have hlabel := (turn_step hs ha hx).1
  have hi : p.state.running[p.place]? = some (.applying t pc) := hx
  subst hlabel
  cases poolRule_of_stepRule (stepRule_of_step hstep).2 with
  | same hq hr => exact ⟨pc, slot_of_same hs hx hr⟩
  | post u hu hr => exact ⟨pc, slot_of_same hs hx hr⟩
  | move st i u pc pc' hu hq hr =>
      rw [hi, Option.some.injEq, Running.applying.injEq] at hu
      rw [← hu.1] at hr
      exact ⟨pc', slot_of_set hs ha hx hr⟩
  | finish st i r hr hq hr' => exact absurd hr' (not_erased hs ha hx)

/-- What is reached with a thread followed is reached. -/
theorem reach_of_followed {C : System π → Action π → Prop}
    {D : Focus (System π) TaskStep → Action π → Prop} {s : System π} {i : Nat}
    (h : (context cfg name).Reach C s) (hp : (followed cfg name).Path D ⟨s, i, []⟩ p) :
    (context cfg name).Reach free p.state :=
  path_trans (path_weaken (fun _ _ _ => trivial) h) (focus_path (fun _ _ _ => trivial) hp)

end Steps

/-- What was taken out of a mailbox between two states, oldest first: that and what is
    in it now are what was in it and what arrived since. -/
def Consumed (m : MailboxPtr) (s s' : System π) (es : List (Stored π)) : Prop :=
  ∃ arrivals, s'.pushedTo m = s.pushedTo m ++ arrivals ∧ s.boxes m ++ arrivals = es ++ s'.boxes m

section Consumed

variable {cfg : Config} {m : MailboxPtr} {s s' s'' : System π} {es es' : List (Stored π)}

theorem consumed_refl : Consumed m s s [] :=
  ⟨[], (List.append_nil _).symm, List.append_nil _⟩

theorem consumed_trans (h : Consumed m s s' es) (h' : Consumed m s' s'' es') :
    Consumed m s s'' (es ++ es') := by
  rcases h with ⟨arr, hpush, hbox⟩
  rcases h' with ⟨arr', hpush', hbox'⟩
  refine ⟨arr ++ arr', by rw [hpush', hpush, List.append_assoc], ?_⟩
  rw [← List.append_assoc, hbox, List.append_assoc, hbox', List.append_assoc]

/-- What only arrives is not consumed. -/
theorem consumed_nil (h : Consumed m s s' es) (h' : Consumed m s' s'' []) :
    Consumed m s s'' es := by
  have := consumed_trans h h'
  rw [List.append_nil] at this
  exact this

/-- Neither the mailbox nor its history has changed. -/
theorem consumed_same (hb : s'.boxes m = s.boxes m) (ht : s'.pushedTo m = s.pushedTo m) :
    Consumed m s s' [] :=
  ⟨[], by rw [ht, List.append_nil], by rw [hb, List.append_nil, List.nil_append]⟩

theorem consumed_pop {e : Stored π} (hb : s.boxes m = e :: s'.boxes m)
    (ht : s'.trace = s.trace) : Consumed m s s' [e] := by
  refine ⟨[], ?_, ?_⟩
  · unfold System.pushedTo
    rw [ht, List.append_nil]
  · rw [hb, List.append_nil]
    rfl

/-- An event that is no push leaves the history of a mailbox alone. -/
theorem pushedTo_append {evs : List (Event π)} (ht : s'.trace = s.trace ++ evs)
    (hevs : ∀ ev ∈ evs, Event.pushed? m ev = none) : s'.pushedTo m = s.pushedTo m := by
  unfold System.pushedTo
  rw [ht, List.filterMap_append, List.filterMap_eq_nil_iff.mpr hevs, List.append_nil]

/-- What a step takes out of a mailbox: nothing, or a thread that drains it pops. -/
theorem consumed_of_mailRule (hr : MailRule s s') (hm : m < s.nextBox) :
    Consumed m s s' [] ∨ ∃ i t e, s.running[i]? = some (.applying t .draining) ∧ t.mb = m ∧
      s'.running = s.running.set i (.applying t (.popped e)) ∧ Consumed m s s' [e] := by
  cases hr with
  | same hb hrun ht =>
      refine Or.inl (consumed_same ?_ ?_)
      · rcases hb with hb | hb
        · rw [hb]
        · rw [hb, Function.update_of_ne (Nat.ne_of_lt hm)]
      · rcases ht with ⟨evs, hevs, hall⟩
        unfold System.pushedTo
        rw [hevs, List.filterMap_append, (histories_of_carries hall).1, List.append_nil]
  | push k m' e from? hm' hb hrun ht =>
      refine Or.inl ?_
      by_cases hmm : m' = m
      · subst hmm
        refine ⟨[e], ?_, ?_⟩
        · unfold System.pushedTo
          rw [ht, List.filterMap_append]
          simp only [List.filterMap_cons, Event.pushed?, if_true, List.filterMap_nil]
        · rw [hb, Function.update_self, List.nil_append]
      · refine consumed_same (by rw [hb, Function.update_of_ne (fun h => hmm h.symm)])
          (pushedTo_append ht fun ev hev => ?_)
        rw [List.mem_singleton.mp hev]
        exact if_neg hmm
  | claim i t e rest hi hbox hb hrun ht =>
      by_cases hmm : t.mb = m
      · subst hmm
        have hpop : Consumed t.mb s s' [e] :=
          consumed_pop (by rw [hbox, hb, Function.update_self]) ht
        exact Or.inr ⟨i, t, e, hi, rfl, hrun, hpop⟩
      · refine Or.inl (consumed_same (by rw [hb, Function.update_of_ne (fun h => hmm h.symm)]) ?_)
        unfold System.pushedTo
        rw [ht]
  | hand i t e hi hb hrun ht =>
      refine Or.inl (consumed_same (by rw [hb]) (pushedTo_append ht fun ev hev => ?_))
      rw [List.mem_singleton.mp hev]
      rfl

/-- The mailbox of a task was made before. -/
theorem mb_lt (hreg : Filed s) (hback : Backed s) {i : Nat} {t : ApplyTask} {pc : ApplyPc π}
    (hi : s.running[i]? = some (.applying t pc)) : t.mb < s.nextBox := by
  rcases hback (.apply t) (Or.inr (Or.inr ⟨_, List.mem_of_getElem? hi, rfl⟩)) with
    ⟨r, hr, hrm, _⟩
  rw [← hrm]
  exact hreg.fresh r hr

end Consumed

/-- The status of an object is what it was, but for an `on_stop`. -/
def StatusKept (a : ActorPtr) (s s' : System π) : Prop :=
  ∃ evs, s'.trace = s.trace ++ evs ∧
    ((∀ k, .stopped k a ∉ evs) → (s'.objs a).status = (s.objs a).status)

theorem statusKept_trans {a : ActorPtr} {s s' s'' : System π} (h : StatusKept a s s')
    (h' : StatusKept a s' s'') : StatusKept a s s'' := by
  rcases h with ⟨evs, hevs, hst⟩
  rcases h' with ⟨evs', hevs', hst'⟩
  refine ⟨evs ++ evs', by rw [hevs', hevs, List.append_assoc], fun hno => ?_⟩
  rw [hst' fun k hk => hno k (List.mem_append_right _ hk),
    hst fun k hk => hno k (List.mem_append_left _ hk)]

section Others

variable {cfg : Config} {name : String} {p q : Focus (System π) TaskStep} {a : Action π}
  {t : ApplyTask} {pc : ApplyPc π}

/-- While the thread is in `base_actor::apply`, the others only add to its mailbox. -/
theorem arrives_of_other (hs : (followed cfg name).step p a = some q)
    (hd : Delivers p.state) (hx : userPool.slot p = some (.applying t pc))
    (hy : userPool.slot q = some (.applying t pc))
    (hpc : pc.holdsBusy = true) : Consumed t.mb p.state q.state [] := by
  have hstep : step cfg p.state a = some q.state := (focus_step.mp hs).1
  have hlt := mb_lt hd.registered.toFiled hd.backed hx
  rcases consumed_of_mailRule (mailRule_of_stepRule (stepRule_of_step hstep).2) hlt with
    h | ⟨i, t', e, hi, hmb, hrun, _⟩
  · exact h
  · -- Who pops from this mailbox holds the flag of this actor, so it is this thread.
    have hback : ∀ (j : Nat) (u : ApplyTask) (pc : ApplyPc π),
        p.state.running[j]? = some (.applying u pc) →
          Task.backed p.state.registrations (.apply u) := fun j u pc hj =>
      hd.backed (.apply u) (Or.inr (Or.inr ⟨_, List.mem_of_getElem? hj, rfl⟩))
    have hactor : t'.target.actor = t.target.actor :=
      backed_target hd.registered.toFiled (hback i t' _ hi) (hback p.place t pc hx) hmb
    have hplace : i = p.place := by
      refine holder_place hd.balanced (a := t.target.actor) hx ?_ hi ?_
      · simp only [Running.holds, hpc, decide_true, Bool.and_self]
      · simp only [Running.holds, hactor, ApplyPc.holdsBusy, decide_true, Bool.and_self]
    subst hplace
    -- But its slot is as it was.
    have hlen : p.state.running.length = q.state.running.length := by
      rw [hrun, List.length_set]
    have hq : q.place = p.place := place_of_length hs (Nat.le_of_eq hlen)
    have hi' : p.state.running[p.place]? = some (.applying t pc) := hx
    have hj' : q.state.running[q.place]? = some (.applying t pc) := hy
    rcases List.getElem?_eq_some_iff.mp hi with ⟨hlt', _⟩
    rw [hq, hrun, List.getElem?_set_self hlt', Option.some.injEq] at hj'
    rw [hi, Option.some.injEq] at hi'
    have := hi'.trans hj'.symm
    simp only [Running.applying.injEq, reduceCtorEq, and_false] at this

/-- Nor do they set the status of its actor, but for an `on_stop`. -/
theorem status_of_other (hs : (followed cfg name).step p a = some q)
    (hd : Delivers p.state) (hj : Joined p.state) (hx : userPool.slot p = some (.applying t pc))
    (ha : userPool.owner a ≠ some p.place) (hpc : pc.holdsBusy = true) :
    StatusKept t.target.actor p.state q.state := by
  have hstep : step cfg p.state a = some q.state := (focus_step.mp hs).1
  have hi : p.state.running[p.place]? = some (.applying t pc) := hx
  rcases step_grows hstep hd.registered with ⟨evs, hevs, _⟩
  refine ⟨evs, hevs, fun hno => ?_⟩
  rcases step_status hstep t.target.actor with
    h | ⟨_, hjoined | ⟨evs', id, hevs', hstop⟩⟩ | ⟨i, st, u, pc', rfl, hu, heng, hactor⟩
  · exact h
  · -- The thread is still there, so nothing is joined yet.
    rw [joined_of_running hj hi] at hjoined
    exact absurd hjoined Bool.noConfusion
  · rw [hevs, List.append_cancel_left_eq] at hevs'
    exact absurd hstop (hevs' ▸ hno id)
  · -- Who sets it holds the flag.
    have hplace : i = p.place := by
      refine holder_place hd.balanced (a := t.target.actor) hi ?_ hu ?_
      · simp only [Running.holds, hpc, decide_true, Bool.and_self]
      · simp only [Running.holds, hactor, engaged_holdsBusy heng, decide_true, Bool.and_self]
    exact absurd (by rw [hplace]; rfl) ha

end Others

end Yaaf
