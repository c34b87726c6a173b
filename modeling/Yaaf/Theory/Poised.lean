import Yaaf.Theory.Exchange
import Yaaf.Theory.Failures
import Yaaf.Theory.Load

/-!
# Whatever Happened

Four things that are so in every state of every run, and that going on rests on. The worker
posts for mailboxes that have mail: it looked, and nobody can empty a mailbox while the
worker holds the flag of its actor. The exchanges that a fan-out has still to visit are
there, both locks being held until it is over. Who has the answer of a parent has a parent.
And the thread manager drops nothing before it stops.

## Main definitions

* `Poised`: All of that.

## Theorems

* `worker_of_step`: Only the worker moves the worker.
* `step_inHand`, `step_visits`, `step_supervised`, `step_dropped`: One step of each.
* `reach_poised`: Every state of every run.
-/

namespace Yaaf

open Machine

variable {π : Type}

/-- What is so in every state, whatever happened: the worker has mail for whom it posts,
    the exchanges it has still to visit are there, who has an answer has a parent, and
    nothing was dropped before `context::stop`. -/
structure Poised (s : System π) : Prop where
  hand : InHand s
  visits : ∀ x ∈ s.worker.exchanges, (s.exchanges.lookup x).isSome = true
  supervised : Supervised s
  kept : s.accepts = true → s.dropped = []

section Poised

variable {cfg : Config} {s s' : System π} {a : Action π}

/-- Only the worker moves the worker. -/
theorem worker_of_step (hs : step cfg s a = some s') (hno : ∀ st, a ≠ .worker st) :
    s'.worker = s.worker := by
  cases (stepRule_of_step hs).2 with
  | call c s' h => rw [callRule_rest h]
  | userCall uc uc' c s' hc h => rw [callRule_rest h]
  | userNothing => rfl
  | add i st c s' hi h => rw [addRule_rest h]
  | pick => rfl
  | task i st s' h => rw [taskRule_rest h]
  | worker st s' h => exact absurd rfl (hno st)
  | stop st s' h => rw [stopRule_rest h]

/-- The worker turns to a post when it has seen mail, and there it stays. -/
theorem posting_of_worker (hr : WorkerRule s s') {todo : List (IdT × MailboxPtr)} {rm : List IdT}
    {m : MailboxPtr} {d : Description} (hw : s'.worker = .scan todo rm (.posting m d)) :
    s'.boxes m ≠ [] ∨ s'.boxes = s.boxes ∧ s.worker = .scan todo rm (.posting m d) := by
  cases hr with
  | recheck todo' rm' m' d' hw' hm =>
      simp only [WorkerPc.scan.injEq, ScanPc.posting.injEq] at hw
      exact Or.inl (hw.2.2.1 ▸ hm)
  | popCrash | postCrash => exact Or.inr ⟨rfl, hw⟩
  | _ => simp only [WorkerPc.scan.injEq, reduceCtorEq, and_false] at hw

/-- Nobody empties a mailbox that the worker has a task ready for. -/
theorem step_inHand (hs : step cfg s a = some s') (hd : Delivers s) (h : InHand s) :
    InHand s' := by
  intro todo rm m d hw
  have hrule := (stepRule_of_step hs).2
  have hold : s.worker = .scan todo rm (.posting m d) → s'.boxes m ≠ [] := by
    intro hw
    have hmail := h todo rm m d hw
    rcases visit_entry hd.registered hw rfl with ⟨k, _, _, hmbox, _, _⟩
    cases mailRule_of_stepRule hrule with
    | same hb hr ht =>
        rcases hb with hb | hb
        · rwa [hb]
        · rwa [hb, Function.update_of_ne (Nat.ne_of_lt (mbox_lt hd.registered.toFiled hmbox))]
    | push k n e from? hn hb hr ht =>
        rw [hb]
        by_cases hmn : m = n
        · rw [hmn, Function.update_self]
          exact List.append_ne_nil_of_right_ne_nil _ (List.cons_ne_nil e [])
        · rwa [Function.update_of_ne hmn]
    | claim i t e rest hi hm hb hr ht =>
        -- Whoever pops from a mailbox comes for it.
        have hne : m ≠ t.mb := by
          rintro rfl
          have hawaited : s.awaited t.mb = true := Bool.or_eq_true_iff.mpr (Or.inr
            (List.any_eq_true.mpr ⟨_, List.mem_of_getElem? hi, by
              simp only [Running.awaits, ApplyPc.pops, decide_true, Bool.and_self]⟩))
          exact Bool.false_ne_true ((not_awaited hd hw (Or.inr rfl)).symm.trans hawaited)
        rwa [hb, Function.update_of_ne hne]
    | hand i t e hi hb hr ht => rwa [hb]
  by_cases hworker : ∃ st, a = .worker st
  · rcases hworker with ⟨st, rfl⟩
    cases hrule with
    | worker st s' hr =>
        rcases posting_of_worker hr hw with hmail | ⟨hb, hbefore⟩
        · exact hmail
        · exact hold hbefore
  · exact hold ((worker_of_step hs fun st hst => hworker ⟨st, hst⟩).symm.trans hw)

theorem not_visiting (hx : s.fanningOut = false) (x : String) : x ∉ s.worker.exchanges := by
  unfold System.fanningOut at hx
  cases hw : s.worker with
  | fanOut | draining | delivering =>
      rw [hw] at hx
      exact absurd hx.symm Bool.false_ne_true
  | _ => exact List.not_mem_nil

/-- A published message does not remove an exchange, and nothing else is done to the
    exchanges while the worker visits them. -/
theorem visits_of_call {c : ContextCall π} (hr : CallRule cfg s c s')
    (h : ∀ x ∈ s.worker.exchanges, (s.exchanges.lookup x).isSome = true) :
    ∀ x ∈ s'.worker.exchanges, (s'.exchanges.lookup x).isSome = true := by
  have hsame : s'.worker = s.worker := by rw [callRule_rest hr]
  rw [hsame]
  cases hr with
  | addActor | nothing | crash | send => exact h
  | stop addr u hx hu =>
      rw [hu.rest]
      exact h
  | create c owner name hx hno =>
      intro x hmem
      exact absurd hmem (not_visiting hx x)
  | subscribe target name ex hx =>
      intro x hmem
      exact absurd hmem (not_visiting (canExclude_fanningOut hx) x)
  | publish y e ex e' hex he =>
      intro x hmem
      change ((s.exchanges.insert y { ex with pub := ex.pub ++ [e'] }).lookup x).isSome = true
      by_cases hxy : x = y
      · rw [hxy, AList.lookup_insert]
        rfl
      · rw [AList.lookup_insert_ne hxy]
        exact h x hmem

theorem visits_of_worker (hr : WorkerRule s s')
    (h : ∀ x ∈ s.worker.exchanges, (s.exchanges.lookup x).isSome = true) :
    ∀ x ∈ s'.worker.exchanges, (s'.exchanges.lookup x).isSome = true := by
  cases hr with
  | tryFanOut hw hx => exact fun x hmem => AList.lookup_isSome.mpr (AList.mem_keys.mpr hmem)
  | nextExchange y todo hw hy =>
      intro x hmem
      refine h x ?_
      rw [hw]
      rcases List.mem_cons.mp hmem with rfl | hmem
      · exact hy
      · exact List.mem_of_mem_erase hmem
  | popCrash | postCrash => exact h
  | popEmpty y todo ex hw hy hpub =>
      intro x hmem
      refine h x ?_
      rw [hw]
      exact List.mem_cons_of_mem y hmem
  | pop y todo ex e rest hw hy hpub =>
      intro x hmem
      change ((s.exchanges.insert y { ex with pub := rest }).lookup x).isSome = true
      by_cases hxy : x = y
      · rw [hxy, AList.lookup_insert]
        rfl
      · rw [AList.lookup_insert_ne hxy]
        exact h x (by rw [hw]; exact hmem)
  | delivered y e todo hw | deliverNone y e k ids todo hw hm | deliver y e k ids todo m hw hm =>
      exact fun x hmem => h x (by rw [hw]; exact hmem)
  | _ => exact fun x hmem => absurd hmem List.not_mem_nil

theorem step_visits (hs : step cfg s a = some s')
    (h : ∀ x ∈ s.worker.exchanges, (s.exchanges.lookup x).isSome = true) :
    ∀ x ∈ s'.worker.exchanges, (s'.exchanges.lookup x).isSome = true := by
  cases exchangeRule_of_stepRule (stepRule_of_step hs).2 with
  | same s' hsame =>
      rw [hsame.worker, hsame.exchanges]
      exact h
  | call c s' hr => exact visits_of_call hr h
  | worker s' hr => exact visits_of_worker hr h

/-- Before a failure nobody is asked. -/
theorem unanswered_of_applyStep {i : Nat} {t : ApplyTask} {k : TaskStep} {pc : ApplyPc π}
    (hpc : pc.failed = false) (hs : applyStep cfg s i t k pc = some s') :
    s'.running = s.running ∨ s'.running = s.running.eraseIdx i ∨
      ∃ p, s'.running = s.running.set i (.applying t p) ∧ p.answered = false := by
  cases pc with
  | entry =>
      cases k <;> simp only [applyStep, reduceCtorEq, Option.some.injEq] at hs
      subst hs
      exact Or.inr (Or.inr ⟨_, rfl, by split <;> rfl⟩)
  | draining =>
      cases k <;> simp only [applyStep, reduceCtorEq] at hs
      split at hs <;> rw [Option.some.injEq] at hs <;> subst hs
      · exact Or.inr (Or.inr ⟨.drained, rfl, rfl⟩)
      · exact Or.inr (Or.inr ⟨.popped _, rfl, rfl⟩)
  | popped e =>
      cases k <;> simp only [applyStep, reduceCtorEq, Option.some.injEq] at hs
      subst hs
      exact Or.inr (Or.inr ⟨.handling e, rfl, rfl⟩)
  | handling e =>
      cases k <;> simp only [applyStep, reduceCtorEq, Option.some.injEq] at hs <;> subst hs
      · exact Or.inr (Or.inr ⟨.draining, rfl, rfl⟩)
      · exact Or.inr (Or.inr ⟨.threw _, rfl, rfl⟩)
      · exact Or.inl rfl
  | drained =>
      cases k <;> simp only [applyStep, reduceCtorEq, Option.some.injEq] at hs
      subst hs
      exact Or.inr (Or.inr ⟨.resetting false, rfl, rfl⟩)
  | threw what =>
      cases k <;> simp only [applyStep, reduceCtorEq, Option.some.injEq] at hs
      subst hs
      exact Or.inr (Or.inr ⟨.resetting true, rfl, rfl⟩)
  | resetting rethrow =>
      cases k <;> simp only [applyStep, reduceCtorEq, Option.some.injEq] at hs
      subst hs
      exact Or.inr (Or.inr ⟨_, rfl, by cases rethrow <;> rfl⟩)
  | returned =>
      cases k <;> simp only [applyStep, reduceCtorEq] at hs
      split at hs
      · rw [Option.some.injEq] at hs
        subst hs
        exact Or.inr (Or.inl rfl)
      · split at hs <;> rw [Option.some.injEq] at hs <;> subst hs
        · exact Or.inr (Or.inr ⟨.caught false, rfl, rfl⟩)
        · exact Or.inr (Or.inl rfl)
  | _ => exact absurd hpc.symm Bool.false_ne_true

/-- A thread gets an answer from the parent of its actor. -/
theorem answered_of_applyStep {i : Nat} {t : ApplyTask} {k : TaskStep} {pc pc' : ApplyPc π}
    (hi : s.running[i]? = some (.applying t pc)) (hs : applyStep cfg s i t k pc = some s')
    (hr : s'.running = s.running.set i (.applying t pc'))
    (h : pc.answered = true → t.parent.isSome = true) (hans : pc'.answered = true) :
    t.parent.isSome = true := by
  have hlt : i < s.running.length := (List.getElem?_eq_some_iff.mp hi).1
  -- It is the only position the step can have led to.
  have hpc' : ∀ p : ApplyPc π, s'.running = s.running.set i (.applying t p) → p = pc' := by
    intro p hp
    have hslot : (s.running.set i (.applying t p))[i]? =
        (s.running.set i (.applying t pc'))[i]? := by rw [← hp, ← hr]
    simpa only [List.getElem?_set_self hlt, Option.some.injEq, Running.applying.injEq, true_and]
      using hslot
  have hstays : s'.running ≠ s.running.eraseIdx i := by
    intro herase
    have hlength := congrArg List.length (herase.symm.trans hr)
    rw [List.length_set, List.length_eraseIdx_of_lt hlt] at hlength
    omega
  cases hpc : pc.failed with
  | true =>
      rcases asks_of_applyStep hi hpc hs with ⟨qs, out, hasks, hlands, _⟩
      cases hasks with
      | ends pc k => exact absurd hlands hstays
      | first f parent answer hparent => rw [hparent, Option.isSome_some]
      | halts pc k => exact h (by rw [hpc' _ hlands]; exact hans)
      | locks f | next f d up answer hup | fails f d answer hf => exact h rfl
      | restarts f throws =>
          rw [← hpc' _ hlands] at hans
          exact absurd hans Bool.false_ne_true
  | false =>
      rcases unanswered_of_applyStep hpc hs with hsame | herase | ⟨p, hp, hno⟩
      · exact h (by rw [hpc' pc (lands_same hi hsame)]; exact hans)
      · exact absurd herase hstays
      · rw [hpc' p hp, hans] at hno
        exact absurd hno.symm Bool.false_ne_true

theorem step_supervised (hs : step cfg s a = some s') (h : Supervised s) : Supervised s' := by
  intro t pc hmem hans
  cases poolRule_of_stepRule (stepRule_of_step hs).2 with
  | same hq hr hd | post t' ht hr hq =>
      rw [hr] at hmem
      exact h t pc hmem hans
  | pick t' rest hq hq' hr hd hn hu =>
      rw [hr] at hmem
      rcases List.mem_append.mp hmem with hmem | hmem
      · exact h t pc hmem hans
      · cases t' with
        | onStart b m =>
            exact absurd (List.mem_singleton.mp hmem) (by simp only [Task.taken, reduceCtorEq,
              not_false_eq_true])
        | apply t' =>
            have htaken := List.mem_singleton.mp hmem
            rw [Task.taken, Running.applying.injEq] at htaken
            rw [htaken.2] at hans
            exact absurd hans Bool.false_ne_true
  | move st i t' pc₀ pc' hi hq hr hd hmove hfree =>
      rw [hr] at hmem
      rcases List.mem_or_eq_of_mem_set hmem with hmem | hnew
      · exact h t pc hmem hans
      · rw [Running.applying.injEq] at hnew
        rw [hnew.1]
        rw [hnew.2] at hans
        exact answered_of_applyStep hi (applyStep_of_step hi hs).2 hr
          (h t' pc₀ (List.mem_of_getElem? hi)) hans
  | finish st i r hi hq hr hd hend hlast =>
      rw [hr] at hmem
      exact h t pc (List.mem_of_mem_eraseIdx hmem) hans

/-- What the thread manager refuses it refuses for good. -/
theorem accepts_of_stopStep {st : StopStep} (hs : stopStep cfg s st = some s')
    (h : s'.accepts = true) : s.accepts = true ∧ s'.dropped = s.dropped := by
  cases st <;> simp only [stopStep, Option.ite_none_right_eq_some, Option.some.injEq] at hs
  case begin =>
      subst hs
      exact ⟨h, rfl⟩
  case dropPosts =>
      split at hs <;> rw [Option.some.injEq] at hs <;> rcases hs with ⟨_, rfl⟩
      · exact ⟨h, rfl⟩
      · exact absurd h (by simp only [System.accepts, Bool.not_true, Bool.and_false,
          Bool.false_eq_true, not_false_eq_true])
  case stopUserPool | stopSysPool =>
      rcases hs with ⟨_, rfl⟩
      exact ⟨h, rfl⟩
  case join =>
      rcases hs with ⟨_, rfl⟩
      exact absurd h (by simp only [System.accepts, Bool.not_true, Bool.false_and,
        Bool.false_eq_true, not_false_eq_true])
  case sweep =>
      rcases hs with ⟨_, rfl⟩
      have hrest := (stopAll_sweeps cfg s).rest
      rw [System.accepts, hrest] at h
      exact ⟨h, by rw [hrest]⟩

/-- Nothing is dropped while the thread manager takes what it is given. -/
theorem step_dropped (hs : step cfg s a = some s') (h : s.accepts = true → s.dropped = []) :
    s'.accepts = true → s'.dropped = [] := by
  intro hacc
  cases (stepRule_of_step hs).2 with
  | call c s' hr =>
      rw [System.accepts, callRule_rest hr] at hacc
      rw [callRule_rest hr]
      exact h hacc
  | userCall uc uc' c s' hc hr =>
      rw [System.accepts, callRule_rest hr] at hacc
      rw [callRule_rest hr]
      exact h hacc
  | userNothing => exact h hacc
  | add i st c s' hi hr =>
      have hbefore : s.accepts = true := by
        rw [System.accepts, addRule_rest hr] at hacc
        exact hacc
      cases hr with
      | post m hc => exact (congrArg System.dropped (userPost_accepted hbefore _)).trans (h hbefore)
      | _ => exact h hbefore
  | pick => exact h hacc
  | task i st s' hr =>
      rw [System.accepts, taskRule_rest hr] at hacc
      rw [taskRule_rest hr]
      exact h hacc
  | worker st s' hr =>
      have hbefore : s.accepts = true := by
        rw [System.accepts, workerRule_rest hr] at hacc
        exact hacc
      cases hr with
      | post todo rm m d p hw hp =>
          exact (congrArg System.dropped (userPost_accepted hbefore _)).trans (h hbefore)
      | _ => exact h hbefore
  | stop st s' hr =>
      rcases accepts_of_stopStep (stopStep_of_step hs).2 hacc with ⟨hbefore, hdropped⟩
      exact hdropped.trans (h hbefore)

/-- All of that, whatever happened. -/
theorem reach_poised {name : String} {C : System π → Action π → Prop}
    (h : (context cfg name).Reach C s) : Poised s := by
  refine invariant_of Delivers Poised (fun t ht => reach_delivers ht) ?_ ?_ h
  · -- Nothing is in progress when `make_context` returns.
    change Poised (makeContext cfg name)
    have hidle : (makeContext (π := π) cfg name).worker = .idle := makeContext_quiescent.worker
    refine ⟨fun todo rm m d hw => ?_, fun x hx => ?_, fun t pc hmem => ?_,
      fun _ => makeContext_dropped⟩
    · rw [hidle] at hw
      exact absurd hw (by simp only [reduceCtorEq, not_false_eq_true])
    · rw [hidle] at hx
      exact absurd hx List.not_mem_nil
    · rw [makeContext_running] at hmem
      exact absurd hmem List.not_mem_nil
  · intro t a t' _ hs hd _ ht
    exact ⟨step_inHand hs hd ht.hand, step_visits hs ht.visits, step_supervised hs ht.supervised,
      step_dropped hs ht.kept⟩

end Poised

end Yaaf
