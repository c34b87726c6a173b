import Yaaf.Theory.Forest
import Yaaf.Theory.Handlers

/-!
# Whether Stopped Is Final

`stop_actor` takes an actor out of the maps and calls its `on_stop`, and takes
no notice of dispatches. A task that was posted before, and a thread that is
executing one, hold the description and the mailbox by themselves and go on:
they call the handler with what is left in the mailbox and end by setting the
status to `NORMAL`, or to `WITH_ERROR`. So a stop is final for an actor that
is idle when it comes and not for one that is not.

`Rests` is that condition on the stopping step, for everything it stops. Two
more things would bring a stopped object back to work, and neither is a race:
the object can be registered under a second id that the stop does not reach,
and it can be registered again. `Rests` excludes both.

After the join of `context::stop` no thread is left to call a handler, which
is why the loop that stops everything else needs no condition.

## Main definitions

* `Rests`: The stopped actors are idle, and registered nowhere else.
* `Retired`: The `on_stop` of an object has been called.
* `Settled`: Nothing is on the way to a retired object.

## Theorems

* `step_settled`: Steps that meet the condition keep the peace.
* `step_final`: No step calls a handler of a retired object.
* `stopped_is_final`: Stopped is final in runs that meet the condition.
-/

namespace Yaaf

open Pruning Slots Trace

variable {π : Type}

/-- `on_stop` of an actor object has been called. -/
def Retired (s : System π) (a : ActorPtr) : Prop :=
  ∃ id, Event.stopped id a ∈ s.trace

/-- What the step stops is idle and is registered nowhere else, and what it
    inserts has not been stopped before. -/
structure Rests (s : System π) (x : Action π) : Prop where
  idle : ∀ k ∈ s.stopTarget x, ∀ j d, s.live j = some d → Under Description.kids s.live k j →
    ¬ s.dispatches fun t => t.target.actor = d.actor
  nowhereElse : ∀ k ∈ s.stopTarget x, ∀ j d, s.live j = some d →
    Under Description.kids s.live k j → ∀ j' d', s.live j' = some d' → d'.actor = d.actor →
      Under Description.kids s.live k j'
  unused : ∀ y ∈ s.inserting x, ¬ Retired s y.2.actor

/-- Nothing is on the way to a retired object, or no thread is left. -/
def Settled (s : System π) : Prop :=
  ∀ a, Retired s a → s.shutdown.joined = true ∨
    (∀ k d, s.live k = some d → d.actor ≠ a) ∧ ¬ s.dispatches fun t => t.target.actor = a

/-- After the join the user pool is empty and stays empty. -/
def Joined (s : System π) : Prop :=
  s.shutdown.joined = true → s.running = [] ∧ s.shutdown.userStop = true

section Finality

variable {cfg : Config} {s s' : System π} {x : Action π}

/-- Only `context::stop` changes how far shutdown has come. -/
theorem step_shutdown (hs : step cfg s x = some s') : s'.shutdown = s.shutdown ∨
    (s.shutdown.joined = true → s'.shutdown.joined = true) ∧
      (s.shutdown.userStop = true → s'.shutdown.userStop = true) ∧ s'.running = s.running ∧
        (s'.shutdown.joined = true → s.shutdown.joined = true ∨
          s.running = [] ∧ s.shutdown.userStop = true) := by
  cases (stepRule_of_step hs).2 with
  | call c s' h => exact Or.inl (by rw [callRule_rest h])
  | userCall uc uc' c s' hc h => exact Or.inl (by rw [callRule_rest h])
  | userNothing => exact Or.inl rfl
  | add i st c s' hi h => exact Or.inl (by rw [addRule_rest h])
  | pick => exact Or.inl rfl
  | task i st s' h => exact Or.inl (by rw [taskRule_rest h])
  | worker st s' h => exact Or.inl (by rw [workerRule_rest h])
  | stop st s' h =>
      cases h with
      | crash => exact Or.inl rfl
      | flags sd due hmono hj =>
          refine Or.inr ⟨hmono.1, hmono.2, rfl, fun h => ?_⟩
          rcases hj h with h | ⟨_, h⟩
          · exact Or.inl h
          · exact Or.inr h
      | sweep u hj hx hu =>
          refine Or.inl ?_
          rw [hu.rest]

/-- Whoever runs has not been joined. -/
theorem joined_of_running (hj : Joined s) {i : Nat} {r : Running π} (hi : s.running[i]? = some r) :
    s.shutdown.joined = false := by
  cases hjoined : s.shutdown.joined with
  | false => rfl
  | true =>
      rw [(hj hjoined).1] at hi
      exact absurd hi (by simp only [List.getElem?_nil, reduceCtorEq, not_false_eq_true])

theorem step_joined (hs : step cfg s x = some s') (h : Joined s) : Joined s' := by
  intro hjoined
  -- Joined before, or by this step, which found the pool empty.
  have hbefore : s.running = [] ∧ s.shutdown.userStop = true := by
    rcases step_shutdown hs with hsame | ⟨_, _, _, hj⟩
    · rw [hsame] at hjoined
      exact h hjoined
    · rcases hj hjoined with hj | hj
      · exact h hj
      · exact hj
  rcases hbefore with ⟨hempty, hstop⟩
  refine ⟨?_, ?_⟩
  · cases poolRule_of_stepRule (stepRule_of_step hs).2 with
    | same hq hr => rw [hr, hempty]
    | post t ht hr => rw [hr, hempty]
    | pick t rest hq hq' hr hd hn hu =>
        rw [hstop] at hu
        exact absurd hu (by simp only [Bool.true_eq_false, not_false_eq_true])
    | move st i t pc pc' hi hq hr =>
        rw [hr, hempty]
        rfl
    | finish st i r hi hq hr =>
        rw [hr, hempty]
        rfl
  · rcases step_shutdown hs with hsame | ⟨_, hmono, _⟩
    · rw [hsame, hstop]
    · exact hmono hstop

/-- What is registered after a step was registered before it or is what the
    step inserts. -/
theorem step_live (hs : step cfg s x = some s') (hreg : Registered s) {k : IdT}
    {d' : Description} (hd : s'.live k = some d') :
    (∃ d, s.live k = some d ∧ d.actor = d'.actor) ∨
      ∃ y, s.inserting x = some y ∧ y.2.actor = d'.actor := by
  have hsame : ∀ {u u' : System π}, SameRegistry u u' → u'.live k = u.live k := by
    intro u u' hr
    unfold System.live
    rw [hr.actors]
  cases registryRule_of_stepRule (stepRule_of_step hs).2 with
  | same s' hr hw => exact Or.inl ⟨d', by rw [← hsame hr, hd], rfl⟩
  | call n b cur => exact Or.inl ⟨d', hd, rfl⟩
  | add i c s' hi hadd =>
      cases hadd with
      | insert d hcs hx =>
          have hlive := (insertActor_live c.newId d c.actorName k).symm.trans hd
          by_cases hk : k = c.newId
          · rw [if_pos hk, Option.some.injEq] at hlive
            exact Or.inr ⟨_, inserting_ready _ hi hcs, by rw [← hlive]⟩
          · rw [if_neg hk] at hlive
            rcases Option.map_eq_some_iff.mp hlive with ⟨e, he, rfl⟩
            refine Or.inl ⟨e, he, ?_⟩
            split <;> rfl
      | post m hcs =>
          rw [System.postStart, userPost_rest] at hd
          exact Or.inl ⟨d', hd, rfl⟩
      | _ => exact Or.inl ⟨d', hd, rfl⟩
  | stop u s' hx hu hr hw =>
      exact Or.inl ⟨d', prunes_some hu.prunes (by rw [← hsame hr, hd]), rfl⟩
  | clear s' hx hw hr =>
      have hnone : s'.live k = none := (hsame hr).trans (AList.lookup_empty k)
      rw [hnone] at hd
      exact absurd hd (by simp only [reduceCtorEq, not_false_eq_true])
  | worker s' hrule => exact Or.inl ⟨d', by rw [← hsame (workerRule_same hrule hreg), hd], rfl⟩

theorem step_settled (hs : step cfg s x = some s') (hc : Rests s x) (hreg : Registered s)
    (h : Settled s) : Settled s' := by
  have hkeep : s.shutdown.joined = true → s'.shutdown.joined = true := by
    intro hj
    rcases step_shutdown hs with hsame | ⟨hmono, _⟩
    · rw [hsame, hj]
    · exact hmono hj
  rintro a ⟨id, hid⟩
  rcases mem_or_of_grows (step_origin hs) hid with hold | horigin
  · rcases h a ⟨id, hold⟩ with hj | ⟨hgone, hquiet⟩
    · exact Or.inl (hkeep hj)
    · refine Or.inr ⟨fun k d' hd' => ?_, fun hd => ?_⟩
      · rcases step_live hs hreg hd' with ⟨d, hd, hactor⟩ | ⟨y, hy, hactor⟩
        · rw [← hactor]
          exact hgone k d hd
        · rw [← hactor]
          exact fun ha => hc.unused y hy (by rw [ha]; exact ⟨id, hold⟩)
      · rcases step_dispatches hs hreg hd with hd | ⟨_, _, _, d, _, k, _, hactor, hlive, _⟩
        · exact hquiet hd
        · exact hgone k d hlive hactor
  · -- The step stopped it, so the condition speaks of it.
    rcases horigin with hj | ⟨hx, k, d, hk, hunder, hlive, rfl, hgone, hprunes⟩
    · exact Or.inl (hkeep hj)
    · refine Or.inr ⟨fun j d' hd' hactor => ?_, fun hd => ?_⟩
      · have hbefore : s.live j = some d' := prunes_some hprunes hd'
        have hj := hc.nowhereElse k hk id d hlive hunder j d' hbefore hactor
        rw [gone_of_under hprunes hgone hj] at hd'
        exact absurd hd' (by simp only [reduceCtorEq, not_false_eq_true])
      · rcases step_dispatches hs hreg hd with hd | ⟨todo, rm, m, e, _, _, hw, _⟩
        · exact hc.idle k hk id d hlive hunder hd
        · -- The worker is not in its scan while somebody stops.
          simp only [System.canExclude, System.scanning, hw, Bool.not_true, Bool.and_false,
            Bool.false_and, Bool.false_eq_true] at hx

/-- What a step does to the status of an object: nothing, or an `on_stop` sets it, or
    a thread that is executing an apply task does. -/
theorem step_status (hs : step cfg s x = some s') (a : ActorPtr) :
    (s'.objs a).status = (s.objs a).status ∨
      (s'.objs a).status.kind = .stoped ∧ (s.shutdown.joined = true ∨
        ∃ evs k, s'.trace = s.trace ++ evs ∧ .stopped k a ∈ evs) ∨
      ∃ i st t pc, x = .task i st ∧ s.running[i]? = some (.applying t pc) ∧ pc.engaged = true ∧
        t.target.actor = a := by
  have hstops : ∀ {u : System π} {more : List (Event π)}, Stops cfg s u → u.objs = s'.objs →
      s'.trace = u.trace ++ more → (s'.objs a).status = (s.objs a).status ∨
        (s'.objs a).status.kind = .stoped ∧ (s.shutdown.joined = true ∨
          ∃ evs k, s'.trace = s.trace ++ evs ∧ .stopped k a ∈ evs) := by
    intro u more hu hobjs htrace
    rw [← hobjs]
    rcases hu.status a with h | h
    · exact Or.inl h
    · by_cases hkept : u.objs a = s.objs a
      · exact Or.inl (by rw [hkept])
      · -- Only who leaves is touched, and whoever leaves has its `on_stop`.
        have hleft : ∃ k d, Leaves s u k d ∧ d.actor = a := by
          by_contra hno
          push Not at hno
          exact hkept (hu.statusKept a hno)
        rcases hleft with ⟨k, d, hl, rfl⟩
        rcases hu.trace with ⟨evs, hevs, _, hstopped⟩
        refine Or.inr ⟨by rw [h], Or.inr ⟨evs ++ more, k, ?_, ?_⟩⟩
        · rw [htrace, hevs, List.append_assoc]
        · exact List.mem_append_left _ (hstopped k d hl)
  have hset : ∀ (o : BaseActor) (b : ActorPtr) (u : System π), u.objs = s.objs →
      o.status = (s.objs b).status → ((u.setObj b o).objs a).status = (s.objs a).status := by
    intro o b u hu ho
    by_cases hab : a = b
    · rw [hab]
      simp only [System.setObj_self]
      exact ho
    · simp only [System.setObj_of_ne _ hab, hu]
  have hcall : ∀ {c : ContextCall π}, CallRule cfg s c s' →
      (s'.objs a).status = (s.objs a).status ∨
        (s'.objs a).status.kind = .stoped ∧ (s.shutdown.joined = true ∨
          ∃ evs k, s'.trace = s.trace ++ evs ∧ .stopped k a ∈ evs) := by
    intro c h
    cases h with
    | stop addr u hx hu => exact hstops hu rfl (List.append_nil _).symm
    | _ => exact Or.inl rfl
  cases (stepRule_of_step hs).2 with
  | call c s' h => exact Or.imp_right Or.inl (hcall h)
  | userCall uc uc' c s' hc h => exact Or.imp_right Or.inl (hcall h)
  | userNothing => exact Or.inl rfl
  | add i st c s' hi h => exact Or.inl (by rw [addRule_rest h])
  | pick => exact Or.inl rfl
  | task i st s' h =>
      cases h with
      | startHalt | startReturn => exact Or.inl rfl
      | apply t pc s' hi h =>
          cases h with
          | updateStatus pc k msg r hpc =>
              by_cases ha : t.target.actor = a
              · refine Or.inr (Or.inr ⟨i, st, t, pc, rfl, hi, ?_, ha⟩)
                rcases hpc with ⟨rfl, _⟩ | ⟨rfl, _⟩ <;> rfl
              · refine Or.inl ?_
                simp only [System.setObj_of_ne _ (fun h => ha h.symm)]
                rfl
          | resetBusy r pc' hpc => exact Or.inl (hset _ _ _ rfl rfl)
          | stop pc u hb hx hu => exact Or.imp_right Or.inl (hstops hu rfl rfl)
          | reinit h u hx hu =>
              exact Or.imp_right Or.inl (hstops hu rfl (List.append_assoc _ _ _))
          | _ => exact Or.inl rfl
  | worker st s' h =>
      cases h with
      | lock => exact Or.inl (hset _ _ _ rfl rfl)
      | release => exact Or.inl (hset _ _ _ rfl rfl)
      | post todo rm m d p hw hp =>
          rw [userPost_rest]
          exact Or.inl rfl
      | _ => exact Or.inl rfl
  | stop st s' h =>
      cases h with
      | flags | crash => exact Or.inl rfl
      | sweep u hj hx hu =>
          rcases hu.status a with h | h
          · exact Or.inl h
          · exact Or.inr (Or.inl ⟨by rw [h], Or.inl hj⟩)

/-- No step calls a handler of a retired object or takes its status back. -/
theorem step_final (hs : step cfg s x = some s') (h : Settled s) (hj : Joined s) {a : ActorPtr}
    (ha : Retired s a) :
    Grows (fun ev => ∀ m e, ev ≠ .handleBegin a m e) s.trace s'.trace ∧
      ((s.objs a).status.kind = .stoped → (s'.objs a).status.kind = .stoped) := by
  -- A thread on the way to the handler contradicts either half of `Settled`.
  have hnone : ∀ t pc, Running.applying t pc ∈ s.running → pc.engaged = true →
      t.target.actor ≠ a := by
    intro t pc hrun heng hactor
    rcases h a ha with hjoined | ⟨_, hquiet⟩
    · rw [(hj hjoined).1] at hrun
      exact absurd hrun List.not_mem_nil
    · exact hquiet (Or.inr ⟨t, pc, hrun, heng, hactor⟩)
  refine ⟨?_, fun hstoped => ?_⟩
  · rcases step_origin hs with ⟨evs, hevs, horigin⟩
    refine ⟨evs, hevs, fun ev hev m e heq => ?_⟩
    have ho := horigin ev hev
    rw [heq] at ho
    rcases ho with ⟨t, hrun, hactor, _⟩
    exact hnone t _ hrun rfl hactor
  · rcases step_status hs a with hkept | ⟨hset, _⟩ | ⟨i, st, t, pc, _, hi, heng, hactor⟩
    · rw [hkept, hstoped]
    · exact hset
    · exact absurd hactor (hnone t pc (List.mem_of_getElem? hi) heng)

/-- `make_context` stops nobody. -/
theorem makeContext_settled (name : String) : Settled (makeContext (π := π) cfg name) := by
  rintro a ⟨id, hid⟩
  exact absurd (makeContext_trace hid) Bool.false_ne_true

theorem reach_joined {name : String} {C : System π → Action π → Prop}
    (h : (context cfg name).Reach C s) : Joined s :=
  always Joined (fun hj => absurd hj (by simp [constructed])) (fun _ _ h => h)
    (fun _ _ _ => step_joined) h

theorem reach_settled {name : String} (h : (context cfg name).Reach Rests s) :
    Settled s ∧ Joined s := by
  refine ⟨?_, reach_joined h⟩
  exact Machine.invariant_of (fun s => Registered s) Settled (fun s h => reach_registered h)
    (makeContext_settled name) (fun s x s' hc hs hreg _ h => step_settled hs hc hreg h) h

end Finality

/-- Stopped is final. While everything a step stops is idle and is registered
    nowhere else, before or after, no handler of an actor begins once its
    `on_stop` was called, and its status stays `STOPED`. -/
theorem stopped_is_final {cfg : Config} {name : String} {s s' : System π}
    (h : (context cfg name).Reach Rests s) (hp : (context cfg name).Path Rests s s') :
    ∃ evs, s'.trace = s.trace ++ evs ∧ ∀ id a, .stopped id a ∈ s.trace →
      (∀ m e, .handleBegin a m e ∉ evs) ∧
      ((s.objs a).status.kind = .stoped → (s'.objs a).status.kind = .stoped) := by
  induction hp with
  | refl => exact ⟨[], by rw [List.append_nil], fun _ a _ => ⟨fun m e => List.not_mem_nil, id⟩⟩
  | @tail t u x hpt hc hst ih =>
      rcases ih with ⟨evs, hevs, hfinal⟩
      rcases reach_settled (Machine.path_trans h hpt) with ⟨hsettled, hjoined⟩
      -- What was retired at the outset is retired by now.
      have hretired : ∀ id a, Event.stopped id a ∈ s.trace → Retired t a := fun id a hid =>
        ⟨id, by rw [hevs]; exact List.mem_append_left _ hid⟩
      rcases step_origin hst with ⟨evs', hevs', _⟩
      refine ⟨evs ++ evs', by rw [hevs', hevs, List.append_assoc], fun id a hid => ?_⟩
      rcases hfinal id a hid with ⟨hnone, hstatus⟩
      rcases step_final hst hsettled hjoined (hretired id a hid) with ⟨⟨evs'', hgrow, hall⟩, hkeep⟩
      have heq : evs'' = evs' := List.append_cancel_left (by rw [← hgrow, hevs'])
      refine ⟨fun m e hmem => ?_, fun hstoped => hkeep (hstatus hstoped)⟩
      rcases List.mem_append.mp hmem with hmem | hmem
      · exact hnone m e hmem
      · exact hall _ (by rw [heq]; exact hmem) m e rfl

/-- The event of an `on_stop`. -/
def Event.stops : Event π → Bool
  | .stopped _ _ => true
  | _ => false

/-- A state in which a stop is sure to meet the condition: the pool has nothing
    to do and no object is registered twice. -/
def Deserted (s : System π) (x : Action π) : Prop :=
  (∀ k ∈ s.stopTarget x, s.queue = [] ∧ s.running.length = 0 ∧ ∀ p ∈ s.actors.entries,
    ∀ q ∈ s.actors.entries, q.2.actor = p.2.actor → q.1 = p.1) ∧
  ∀ y ∈ s.inserting x, s.trace.all (fun ev => !ev.stops) = true

instance (s : System π) (x : Action π) : Decidable (Deserted s x) :=
  inferInstanceAs (Decidable ((∀ k ∈ s.stopTarget x, _) ∧ ∀ y ∈ s.inserting x, _))

theorem rests_of_deserted {s : System π} {x : Action π} (h : Deserted s x) : Rests s x where
  idle k hk j d hd hunder := by
    rcases h.1 k hk with ⟨hq, hr, _⟩
    rintro (⟨t, ht, _⟩ | ⟨t, pc, ht, _⟩)
    · rw [hq] at ht
      exact List.not_mem_nil ht
    · rw [List.length_eq_zero_iff.mp hr] at ht
      exact List.not_mem_nil ht
  nowhereElse k hk j d hd hunder j' d' hd' hactor := by
    have hj : j' = j := (h.1 k hk).2.2 ⟨j, d⟩ (AList.mem_lookup_iff.mp hd) ⟨j', d'⟩
      (AList.mem_lookup_iff.mp hd') hactor
    rw [hj]
    exact hunder
  unused y hy := by
    rintro ⟨id, hid⟩
    exact absurd (List.all_eq_true.mp (h.2 y hy) _ hid) (by
      simp only [Event.stops, Bool.not_true, Bool.false_eq_true, not_false_eq_true])

/-- A message to `a` is on its way through the pool. -/
def postedRun : List (Action Nat) :=
  register "a" .null 3 ++ runStarts 4 ++
    [.call (.sendEnvelope ⟨⟨4⟩, "/root/usr/a"⟩ ⟨some 0, .null⟩)] ++
    dispatchPass ⟨4⟩ [⟨1⟩, ⟨2⟩, ⟨3⟩]

/-- The message is handled by the only thread. -/
def handleRun : List (Action Nat) :=
  [.pick, .task 0 .entry, .task 0 .tryPop, .task 0 .callHandler, .task 0 .handlerReturn,
    .task 0 .tryPop, .task 0 .updateStatus, .task 0 .resetBusy, .task 0 (.childStatus false)]

/-- The stop of `a`. -/
def stopRun : List (Action Nat) :=
  [.call (.stopActor ⟨⟨4⟩, "/root/usr/a"⟩)]

/-- Handled first, stopped after: nothing more is handled. -/
theorem stopped_is_final_handled :
    ∃ evs, ((context (.plain 1) "ctx").onward
          ((context (.plain 1) "ctx").after (postedRun ++ handleRun ++ stopRun))
          [.worker (.tryFanOut false), .worker (.tryScan true)]).trace =
        ((context (.plain 1) "ctx").after (postedRun ++ handleRun ++ stopRun)).trace ++ evs ∧
      ∀ m e, .handleBegin 3 m e ∉ evs := by
  have hreach : (context (.plain 1) "ctx").Reach Deserted
      ((context (.plain 1) "ctx").after (postedRun ++ handleRun ++ stopRun)) :=
    Machine.reach_meets _ (by decide)
  have hpath : (context (.plain 1) "ctx").Path Deserted
      ((context (.plain 1) "ctx").after (postedRun ++ handleRun ++ stopRun))
      ((context (.plain 1) "ctx").onward _
        [.worker (.tryFanOut false), .worker (.tryScan true)]) :=
    Machine.path_meets _ _ (by decide)
  rcases stopped_is_final (Machine.path_weaken (fun _ _ => rests_of_deserted) hreach)
    (Machine.path_weaken (fun _ _ => rests_of_deserted) hpath) with ⟨evs, hevs, hfinal⟩
  exact ⟨evs, hevs, (hfinal ⟨4⟩ 3 (List.mem_of_getElem? (i := 24) rfl)).1⟩

/-- Stopped first, handled after: the posted task calls the handler and takes
    the status back. -/
theorem stopped_is_final_posted :
    ∃ s s', (context (π := Nat) (.plain 1) "ctx").Reach Machine.free s ∧
      (context (.plain 1) "ctx").Path Machine.free s s' ∧
      .stopped ⟨4⟩ 3 ∈ s.trace ∧ (s.objs 3).status.kind = .stoped ∧
      (∃ e, .handleBegin 3 3 e ∈ s'.trace.drop s.trace.length) ∧
      (s'.objs 3).status.kind = .normal := by
  refine ⟨(context (.plain 1) "ctx").after (postedRun ++ stopRun), _, Machine.reach_after _,
    Machine.path_onward _ handleRun, List.mem_of_getElem? (i := 21) rfl, by decide,
    ⟨⟨⟨some 0, .null⟩, rfl⟩, List.mem_of_getElem? (i := 0) rfl⟩, by decide⟩

end Yaaf
