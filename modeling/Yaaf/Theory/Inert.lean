import Yaaf.Core.Owner
import Yaaf.Theory.Finality

/-!
# A Stopped Context

What is left when `context::stop` has returned: no actor, no mailbox and no name,
no thread manager, and a user root that is still noted although nobody is
registered under it. A `user_context` asks whether the context is stopping before
it goes on. The methods of `context` itself do not ask.

Most of them have nothing to do then. They look something up and do not find it,
or they work on the exchanges, which nobody clears. `stop` goes through the thread
manager without a test, unlike the destructor. `add_actor` takes the user root, or
whatever it was given, for a parent, does not find it and reads its settings all
the same. It never gets as far as the maps.

## Main definitions

* `Stopped`: What `context::stop` leaves.
* `OwnerCall.harmless`: The calls that come to their end then.

## Theorems

* `stopped_of_sweep`: Where `stop` returns.
* `ownerCall_stopped`: What one call does there.
* `stopped_context_inert`: What any sequence of calls does there.
-/

namespace Yaaf

variable {π : Type}

/-- What `context::stop` leaves. -/
structure Stopped (s : System π) : Prop where
  live : ∀ k, s.live k = none
  mboxes : s.mboxes = ∅
  joined : s.shutdown.joined = true
  worker : s.worker = .idle
  running : s.running = []
  usrRoot : s.usrRoot.empty = false
  fate : s.fate = .running

/-- The calls that a stopped context can take. The one thing an exchange cannot
    take, before or after, is an envelope with nothing in it. -/
def OwnerCall.harmless (s : System π) : OwnerCall π → Bool
  | .stop | .addActor _ _ _ _ => false
  | .publishToExchange x e => e.payload.isSome || (s.exchanges.lookup x).isNone
  | _ => true

section Inert

variable {cfg : Config} {name : String} {s s' : System π}

/-- No step moves the user root. -/
theorem step_usrRoot {a : Action π} (hs : step cfg s a = some s') : s'.usrRoot = s.usrRoot := by
  cases (stepRule_of_step hs).2 with
  | call c s' h => rw [callRule_rest h]
  | userCall uc uc' c s' hc h => rw [callRule_rest h]
  | userNothing => rfl
  | add i st c s' hi h => rw [addRule_rest h]
  | pick => rfl
  | task i st s' h => rw [taskRule_rest h]
  | worker st s' h => rw [workerRule_rest h]
  | stop st s' h => rw [stopRule_rest h]

theorem reach_usrRoot {C : System π → Action π → Prop} (h : (context cfg name).Reach C s) :
    s.usrRoot.empty = false := by
  refine Machine.invariant (fun s => s.usrRoot.empty = false) ?_
    (fun s a s' _ hs h => by rw [step_usrRoot hs, h]) h
  change (makeContext cfg name).usrRoot.empty = false
  unfold makeContext
  cases cfg.network <;> rfl

/-- After the join the system pool does not move either. -/
def Parked (s : System π) : Prop :=
  s.shutdown.joined = true → s.worker = .idle ∧ s.shutdown.sysStop = true ∧ s.passDue = false

/-- A worker that was told to stop does not begin another pass. -/
theorem workerStep_parked {st : WorkerStep} (hw : s.worker = .idle)
    (hstop : s.shutdown.sysStop = true) (hdue : s.passDue = false) : workerStep s st = none := by
  cases st <;> simp only [workerStep, hw, hstop, hdue, Bool.not_false, Bool.and_self, if_true]

theorem stopStep_parked {st : StopStep} (hs : stopStep cfg s st = some s') (h : Parked s) :
    Parked s' := by
  cases st <;> simp only [stopStep, Option.ite_none_right_eq_some, Option.some.injEq] at hs
  case begin =>
      rw [← hs]
      exact h
  case dropPosts =>
      rcases hs with ⟨_, hs⟩
      split at hs <;> rw [Option.some.injEq] at hs <;> rw [← hs] <;> exact h
  case stopUserPool =>
      rw [← hs.2]
      exact h
  case stopSysPool =>
      rw [← hs.2]
      exact fun hj => ⟨(h hj).1, rfl, (if_pos (h hj).2.1).trans (h hj).2.2⟩
  case join =>
      simp only [Bool.and_eq_true] at hs
      rw [← hs.2]
      rcases idle_of_passDone hs.1.2 with ⟨hw, hdue⟩
      exact fun _ => ⟨hw, hs.1.1.1.2, hdue⟩
  case sweep =>
      have hrest := (stopAll_sweeps cfg s).rest
      have hworker : (s.stopAll cfg).worker = s.worker := by rw [hrest]
      have hdue : (s.stopAll cfg).passDue = s.passDue := by rw [hrest]
      have hshut : (s.stopAll cfg).shutdown = s.shutdown := by rw [hrest]
      rw [← hs.2]
      intro hj
      change (s.stopAll cfg).shutdown.joined = true at hj
      change (s.stopAll cfg).worker = .idle ∧ (s.stopAll cfg).shutdown.sysStop = true ∧
        (s.stopAll cfg).passDue = false
      rw [hshut] at hj ⊢
      rw [hworker, hdue]
      exact h hj

theorem step_parked {a : Action π} (hs : step cfg s a = some s') (h : Parked s) : Parked s' := by
  -- Whoever leaves the worker and the shutdown alone keeps it parked.
  have hkept : s'.worker = s.worker → s'.shutdown = s.shutdown → s'.passDue = s.passDue →
      Parked s' := by
    intro hworker hshut hdue hj
    rw [hworker, hshut, hdue]
    exact h (hshut ▸ hj)
  cases (stepRule_of_step hs).2 with
  | call c s' hr | userCall uc uc' c s' hc hr =>
      exact hkept (by rw [callRule_rest hr]) (by rw [callRule_rest hr]) (by rw [callRule_rest hr])
  | userNothing => exact h
  | add i st c s' hi hr =>
      exact hkept (by rw [addRule_rest hr]) (by rw [addRule_rest hr]) (by rw [addRule_rest hr])
  | pick => exact h
  | task i st s' hr =>
      exact hkept (by rw [taskRule_rest hr]) (by rw [taskRule_rest hr]) (by rw [taskRule_rest hr])
  | worker st s' hr =>
      intro hj
      have hshut : s'.shutdown = s.shutdown := by rw [workerRule_rest hr]
      rw [hshut] at hj
      rcases h hj with ⟨hw, hstop, hdue⟩
      have hnone := (workerStep_of_step hs).2.symm.trans (workerStep_parked hw hstop hdue)
      exact absurd hnone (Option.some_ne_none s')
  | stop st s' hr =>
      exact stopStep_parked (stopStep_of_step hs).2 h

theorem reach_parked {C : System π → Action π → Prop} (h : (context cfg name).Reach C s) :
    Joined s ∧ Parked s :=
  ⟨always Joined (fun hj => absurd hj Bool.false_ne_true) (fun _ _ h => h)
      (fun _ _ _ hs h => step_joined hs h) h,
    always Parked (fun hj => absurd hj Bool.false_ne_true) (fun _ _ h => h)
      (fun _ _ _ hs h => step_parked hs h) h⟩

/-- Where `stop` returns. -/
theorem stopped_of_sweep {C : System π → Action π → Prop} (h : (context cfg name).Reach C s)
    (hs : step cfg s (.stop .sweep) = some s') : Stopped s' := by
  rcases reach_parked h with ⟨hjoined, hparked⟩
  have husr := step_usrRoot hs
  unfold step at hs
  simp only [stopStep, Option.ite_none_right_eq_some, Option.some.injEq, Bool.and_eq_true] at hs
  rcases hs with ⟨hfate, ⟨hj, _⟩, rfl⟩
  have hrest := (stopAll_sweeps cfg s).rest
  refine ⟨fun k => AList.lookup_empty k, rfl, ?_, ?_, ?_, by rw [husr, reach_usrRoot h], ?_⟩
  · change (s.stopAll cfg).shutdown.joined = true
    rw [hrest]
    exact hj
  · change (s.stopAll cfg).worker = .idle
    rw [hrest]
    exact (hparked hj).1
  · change (s.stopAll cfg).running = []
    rw [hrest]
    exact (hjoined hj).1
  · change (s.stopAll cfg).fate = .running
    rw [hrest]
    exact hfate

/-- A step of a call that was made where the run goes on. -/
theorem perform_cons {a : Action π} {as : List (Action π)} (hfate : s.fate = .running) :
    perform cfg s (a :: as) = (step cfg s a).bind fun s' => perform cfg s' as :=
  if_pos hfate

/-- Nothing follows a call that broke off. -/
theorem perform_halted {as : List (Action π)} (hfate : s.fate ≠ .running) :
    perform cfg s as = some s := by
  cases as with
  | nil => rfl
  | cons a as => exact if_neg hfate

theorem perform_call {c : ContextCall π} (hfate : s.fate = .running)
    (hs : contextCall cfg s c = some s') : perform cfg s [.call c] = some s' := by
  have hstep : step cfg s (.call c) = some s' := (if_pos hfate).trans hs
  rw [perform_cons hfate, hstep]
  rfl

section Stopped

variable (h : Stopped s)
include h

theorem stopped_locks : s.canShare = true ∧ s.canExclude = true :=
  quiescent_locks h.worker h.running

/-- A stopped context with other exchanges. -/
theorem stopped_exchanges (xs : AList (fun _ : String => ExchangeT π)) (evs : List (Event π)) :
    Stopped { s with exchanges := xs, trace := evs } :=
  ⟨h.live, h.mboxes, h.joined, h.worker, h.running, h.usrRoot, h.fate⟩

variable (cfg)

/-- `stop` calls the thread manager that is gone. -/
theorem stopped_stop : ∃ t, perform cfg s stopLabels = some t ∧ t.fate = .undefined ∧
    t.live = s.live := by
  let s1 : System π := { s with shutdown := { s.shutdown with begun := true } }
  have h1 : step cfg s (.stop .begin) = some s1 := if_pos h.fate
  have h2 : step cfg s1 (.stop .dropPosts) = some s1.crash := by
    have hjoined : s1.shutdown.joined = true := h.joined
    have hbegun : s1.shutdown.begun = true := rfl
    refine (if_pos h.fate).trans ?_
    simp only [stopStep, hbegun, hjoined, if_true]
  refine ⟨s1.crash, ?_, rfl, rfl⟩
  rw [stopLabels, perform_cons h.fate, h1, Option.bind_some,
    perform_cons (s := s1) h.fate, h2, Option.bind_some]
  exact perform_halted (by simp only [System.crash, ne_eq, reduceCtorEq, not_false_eq_true])

/-- `add_actor` reads the settings of a parent that is not there. -/
theorem stopped_addActor (n : String) (parent : ActorAddress) (a : ActorPtr) (returns : Bool) :
    ∃ t, perform cfg s (addActorLabels n parent a s.adding.length returns) = some t ∧
      t.fate = .undefined ∧ t.live = s.live := by
  let cur := if parent.empty then s.usrRoot else parent
  let s1 : System π := { s.takeId n with adding := s.adding ++ [⟨n, a, s.newId, .called cur⟩] }
  have hcur : cur.empty = false := by
    by_cases hp : parent.empty = true
    · simp only [cur, if_pos hp, h.usrRoot]
    · simp only [cur, if_neg hp]
      exact Bool.eq_false_iff.mpr hp
  have h1 : step cfg s (.call (.addActor n parent a)) = some s1 := if_pos h.fate
  have h2 : step cfg s1 (.add s.adding.length .lookup) = some s1.crash := by
    have hshare : s1.canShare = true := (stopped_locks h).1
    have hnone : s1.actors.lookup cur.id = none := h.live cur.id
    have hget : s1.adding[s.adding.length]? = some ⟨n, a, s.newId, .called cur⟩ :=
      List.getElem?_concat_length
    refine (if_pos h.fate).trans ?_
    simp only [addStep, hget, hcur, Bool.false_eq_true, if_false, hshare, if_true, hnone]
  refine ⟨s1.crash, ?_, rfl, rfl⟩
  rw [addActorLabels, List.cons_append, perform_cons h.fate, h1, Option.bind_some,
    List.cons_append, perform_cons (s := s1) h.fate, h2, Option.bind_some]
  exact perform_halted (by simp only [System.crash, ne_eq, reduceCtorEq, not_false_eq_true])

/-- Nobody is there to be stopped. -/
theorem stopped_stopActor (addr : ActorAddress) :
    contextCall cfg s (.stopActor addr) = some s := by
  have hnone : s.actors.lookup (ActorAddress.ofId addr.id).id = none := h.live addr.id
  refine (if_pos (stopped_locks h).2).trans ?_
  simp only [System.stopActorImplSafety, System.stopActorImpl, hnone]

/-- Nobody is there to be sent anything. -/
theorem stopped_sendEnvelope (target : ActorAddress) (e : Envelope π) :
    contextCall cfg s (.sendEnvelope target e) = some s := by
  have hnone : s.mboxes.lookup target.id = none := by
    rw [h.mboxes]
    exact AList.lookup_empty _
  refine (if_pos (stopped_locks h).1).trans ?_
  simp only [System.sendEnvelope, hnone]

theorem stopped_createExchange (owner : ActorAddress) (x : String) :
    ∃ t, contextCall cfg s (.createExchange owner x) = some t ∧ Stopped t := by
  have hfree : (!s.fanningOut) = true := (stopped_locks h).1
  refine ⟨s.createExchangeUnsafe owner x, if_pos hfree, ?_⟩
  unfold System.createExchangeUnsafe
  split
  · exact h
  · exact stopped_exchanges h _ _

/-- The exchange is made, and nobody is there to subscribe. -/
theorem stopped_subscribeToExchange (target : ActorAddress) (x : String) :
    ∃ t, contextCall cfg s (.subscribeToExchange target x) = some t ∧ Stopped t := by
  refine ⟨s.subscribeToExchange target x, if_pos (stopped_locks h).2, ?_⟩
  have hmade : Stopped (s.createExchangeUnsafe target x) := by
    unfold System.createExchangeUnsafe
    split
    · exact h
    · exact stopped_exchanges h _ _
  have hnone : (s.createExchangeUnsafe target x).actors.lookup target.id = none :=
    hmade.live target.id
  simp only [System.subscribeToExchange, hnone, Option.isSome_none, Bool.false_eq_true, if_false]
  split <;> exact hmade

/-- An exchange takes what has a payload. -/
theorem stopped_publishToExchange (x : String) (e : Envelope π) :
    ∃ t, contextCall cfg s (.publishToExchange x e) = some t ∧ t.live = s.live ∧
      ((e.payload.isSome || (s.exchanges.lookup x).isNone) = true ∧ Stopped t ∨
        (e.payload.isSome || (s.exchanges.lookup x).isNone) = false ∧ t.fate = .undefined) := by
  refine ⟨s.publishToExchange x e, rfl, ?_⟩
  unfold System.publishToExchange
  cases hx : s.exchanges.lookup x with
  | none => exact ⟨rfl, Or.inl ⟨Bool.or_true _, h⟩⟩
  | some ex =>
      cases he : e.payload with
      | none =>
          have hcopy : e.copy? = none := dif_neg (by rw [he]; exact Bool.false_ne_true)
          simp only [hcopy]
          exact ⟨rfl, Or.inr ⟨rfl, rfl⟩⟩
      | some v =>
          have hsome : e.payload.isSome = true := by rw [he]; rfl
          have hcopy : e.copy? = some ⟨e, hsome⟩ := dif_pos hsome
          simp only [hcopy]
          exact ⟨rfl, Or.inl ⟨rfl, stopped_exchanges h _ _⟩⟩

end Stopped

/-- What one call does with a stopped context: it comes to its end or breaks off,
    it never waits, and it makes nobody live. -/
theorem ownerCall_stopped (h : Stopped s) (c : OwnerCall π) :
    ∃ t, ownerCall cfg s c = some t ∧ (∀ k, t.live k = none) ∧
      (c.harmless s = true ∧ Stopped t ∨ c.harmless s = false ∧ t.fate = .undefined) := by
  -- A call of one section, and one that does nothing.
  have hcall : ∀ {c : ContextCall π} {t : System π}, contextCall cfg s c = some t → Stopped t →
      ∃ t, perform cfg s [.call c] = some t ∧ (∀ k, t.live k = none) ∧
        (true = true ∧ Stopped t ∨ true = false ∧ t.fate = .undefined) :=
    fun hs ht => ⟨_, perform_call h.fate hs, ht.live, Or.inl ⟨rfl, ht⟩⟩
  have hlook : ∃ t, (if s.canShare then some s else none) = some t ∧ (∀ k, t.live k = none) ∧
      (true = true ∧ Stopped t ∨ true = false ∧ t.fate = .undefined) :=
    ⟨s, if_pos (stopped_locks h).1, h.live, Or.inl ⟨rfl, h⟩⟩
  cases c with
  | stop =>
      rcases stopped_stop cfg h with ⟨t, ht, hfate, hlive⟩
      exact ⟨t, ht, fun k => by rw [hlive, h.live], Or.inr ⟨rfl, hfate⟩⟩
  | addActor n parent a returns =>
      rcases stopped_addActor cfg h n parent a returns with ⟨t, ht, hfate, hlive⟩
      exact ⟨t, ht, fun k => by rw [hlive, h.live], Or.inr ⟨rfl, hfate⟩⟩
  | sendEnvelope target e => exact hcall (stopped_sendEnvelope cfg h target e) h
  | stopActor addr => exact hcall (stopped_stopActor cfg h addr) h
  | getActor addr => exact hlook
  | getActorByName n => exact hlook
  | getAddress n => exact hlook
  | createExchange owner x =>
      rcases stopped_createExchange cfg h owner x with ⟨t, ht, hstopped⟩
      exact hcall ht hstopped
  | subscribeToExchange target x =>
      rcases stopped_subscribeToExchange cfg h target x with ⟨t, ht, hstopped⟩
      exact hcall ht hstopped
  | publishToExchange x e =>
      rcases stopped_publishToExchange cfg h x e with ⟨t, ht, hlive, hrest⟩
      exact ⟨t, perform_call h.fate ht, fun k => by rw [hlive, h.live], hrest⟩
  | exchangeExists x => exact ⟨s, rfl, h.live, Or.inl ⟨rfl, h⟩⟩
  | destroy => exact ⟨s, if_pos h.joined, h.live, Or.inl ⟨rfl, h⟩⟩

/-- One call after another. -/
theorem ownerCalls_stopped (cs : List (OwnerCall π)) : ∀ s : System π, Stopped s →
    ∃ t, ownerCalls cfg s cs = some t ∧ (∀ k, t.live k = none) ∧
      (t.fate = .running ↔ ∀ pre c post, cs = pre ++ c :: post →
        ∀ u, ownerCalls cfg s pre = some u → c.harmless u = true) := by
  induction cs with
  | nil =>
      intro s h
      refine ⟨s, rfl, h.live, fun _ pre c post heq => ?_, fun _ => h.fate⟩
      exact absurd heq.symm (List.append_ne_nil_of_right_ne_nil _ (List.cons_ne_nil _ _))
  | cons c cs ih =>
      intro s h
      have hcall : ∃ u, ownerCall cfg s c = some u ∧ _ := ownerCall_stopped h c
      rcases hcall with ⟨u, hu, hlive, hrest⟩
      have hcons : ∀ ds : List (OwnerCall π), ownerCalls cfg s (c :: ds) = ownerCalls cfg u ds :=
        fun ds => (if_pos h.fate).trans (by rw [hu, Option.bind_some])
      rcases hrest with ⟨hgood, hstopped⟩ | ⟨hbad, hfate⟩
      · rcases ih u hstopped with ⟨t, ht, hnone, hiff⟩
        refine ⟨t, by rw [hcons, ht], hnone, fun hrun pre d post heq v hv => ?_,
          fun hall => hiff.mpr fun pre d post heq v hv => ?_⟩
        · cases pre with
          | nil =>
              rw [List.nil_append, List.cons.injEq] at heq
              rw [← heq.1, ← Option.some.inj hv]
              exact hgood
          | cons b pre =>
              rw [List.cons_append, List.cons.injEq] at heq
              rw [← heq.1, hcons] at hv
              exact hiff.mp hrun pre d post heq.2 v hv
        · refine hall (c :: pre) d post (by rw [heq, List.cons_append]) v ?_
          rw [hcons, hv]
      · have hend : ownerCalls cfg u cs = some u := by
          cases cs with
          | nil => rfl
          | cons d ds =>
              refine if_neg ?_
              rw [hfate]
              simp only [reduceCtorEq, not_false_eq_true]
        refine ⟨u, by rw [hcons, hend], hlive, fun hrun => ?_, fun hall => ?_⟩
        · exact absurd (hfate.symm.trans hrun) (by simp only [reduceCtorEq, not_false_eq_true])
        · exact absurd (hbad.symm.trans (hall [] c cs rfl s rfl)) Bool.false_ne_true

end Inert

/-- Whatever its owner calls on a stopped context, no call waits and nobody
    becomes live. All calls come to their end exactly if there is no `stop` and
    no `add_actor` among them, and no publication of an empty envelope. -/
theorem stopped_context_inert {cfg : Config} {name : String} {s s' : System π}
    (h : (context cfg name).Reach Machine.free s) (hs : step cfg s (.stop .sweep) = some s')
    (cs : List (OwnerCall π)) :
    ∃ t, ownerCalls cfg s' cs = some t ∧ (∀ k, t.live k = none) ∧
      (t.fate = .running ↔ ∀ pre c post, cs = pre ++ c :: post →
        ∀ u, ownerCalls cfg s' pre = some u → c.harmless u = true) :=
  ownerCalls_stopped cs s' (stopped_of_sweep h hs)

/-- A context whose pools were stopped right after it was made. -/
def joinedContext : System Nat :=
  (context (.plain 1) "ctx").after (runStarts 3 ++ stopLabels.dropLast)

/-- The same when `stop` has returned. -/
def stoppedContext : System Nat :=
  (context (.plain 1) "ctx").after (runStarts 3 ++ stopLabels)

/-- Looking up, stopping, publishing, and then the destructor. -/
def lateCalls : List (OwnerCall Nat) :=
  [.getAddress "/root/usr", .stopActor ⟨⟨2⟩, "/root/usr"⟩, .createExchange .null "x",
    .publishToExchange "x" ⟨some 7, .null⟩, .destroy]

theorem stopped_context_inert_late : (ownerCalls (.plain 1) stoppedContext lateCalls).isSome = true ∧
    ∃ t, ownerCalls (.plain 1) stoppedContext lateCalls = some t ∧ ∀ k, t.live k = none := by
  have hsweep : step (.plain 1) joinedContext (.stop .sweep) = some stoppedContext := rfl
  rcases stopped_context_inert (Machine.reach_after _) hsweep lateCalls with ⟨t, ht, hlive, _⟩
  exact ⟨by rw [ht]; rfl, t, ht, hlive⟩

/-- A second `stop`, and an `add_actor`. -/
theorem stopped_context_inert_broken : (context (.plain 1) "ctx").Reach Machine.free joinedContext ∧
    step (.plain 1) joinedContext (.stop .sweep) = some stoppedContext ∧
      ∀ c ∈ [OwnerCall.stop, .addActor "a" .null 4 true],
        (ownerCalls (.plain 1) stoppedContext [c]).map System.fate = some .undefined := by
  refine ⟨Machine.reach_after _, rfl, fun c hc => ?_⟩
  simp only [List.mem_cons, List.not_mem_nil, or_false] at hc
  rcases hc with rfl | rfl <;> decide

end Yaaf
