import Yaaf.Library.ActorModel
import Yaaf.Theory.Delivery

/-!
# A Context Is a System of Actors

What a context is for, in one statement. Forget the maps, the locks, the worker
and its passes, the pool and its queue, the tasks, the supervisors and the
shutdown. What remains of a context is what reaches its mailboxes and which
handler is called with what, and that is a run of mailboxes and servers: a push
is an arrival, the call of `action_handle` is a beginning, and its return or its
exception is the end.

A mailbox of the abstract system holds what is in the mailbox of the context and
what a thread has popped from it and not yet handed over, which comes first. So
`try_pop` is no step of the abstract system at all. An actor is busy with what a
thread holds inside its `action_handle`, and there is at most one such thread,
because whoever is there holds the busy flag.

## Main definitions

* `Event.label`: What an event shows of the abstract system.
* `System.serving`: What the threads hold inside the handler of an actor.
* `System.asActors`: The abstract system that a state stands for.
* `TurnRule`: A step, as far as handlers can tell.

## Theorems

* `shows_of_step`: A step shows nothing, or one step of the abstract system.
* `context_refines_actors`: What a context shows is a run of the abstract system.
-/

namespace Yaaf

open Slots Trace

variable {π : Type}

/-- What an event shows of the abstract system. -/
def Event.label : Event π → Option (ActorModel.Label MailboxPtr ActorPtr (Stored π))
  | .pushed m e _ => some (.arrive m e)
  | .handleBegin a m e => some (.begin a m e)
  | .handleEnd a m | .handleThrow a m => some (.done a m)
  | _ => none

/-- The ends of handler calls. -/
def Event.closes : Event π → Bool
  | .handleEnd _ _ | .handleThrow _ _ => true
  | _ => false

/-- What a thread holds inside the handler of the actor `a`. -/
def Running.serving (a : ActorPtr) : Running π → Option (MailboxPtr × Stored π)
  | .applying t (.handling e) => if t.target.actor = a then some (t.mb, e) else none
  | _ => none

/-- What the threads hold inside the handler of the actor `a`. -/
def System.serving (s : System π) (a : ActorPtr) : List (MailboxPtr × Stored π) :=
  s.running.filterMap (Running.serving a)

/-- The abstract system that a state stands for. -/
def System.asActors (s : System π) : ActorModel MailboxPtr ActorPtr (Stored π) where
  mail m := s.inTransit m ++ s.boxes m
  busy a := (s.serving a).head?

/-- Everything the abstract system can be seen to do. -/
def System.shown (s : System π) : List (ActorModel.Label MailboxPtr ActorPtr (Stored π)) :=
  s.trace.filterMap Event.label

/-- A step, as far as handlers can tell. -/
inductive TurnRule (s s' : System π) : Prop
  | same (hr : ∀ a, s'.serving a = s.serving a)
      (ht : Grows (fun ev => ev.closes = false) s.trace s'.trace)
  | hand (t : ApplyTask) (e : Stored π)
      (ht : s'.trace = s.trace ++ [.handleBegin t.target.actor t.mb e])
  | close (i : Nat) (t : ApplyTask) (e : Stored π) (pc : ApplyPc π) (ev : Event π)
      (hi : s.running[i]? = some (.applying t (.handling e)))
      (hpc : pc = .draining ∨ ∃ what, pc = .threw what)
      (hr : s'.running = s.running.set i (.applying t pc)) (ht : s'.trace = s.trace ++ [ev])
      (hev : ev.label = some (.done t.target.actor t.mb))

theorem closes_of_quiet {ev : Event π} (h : ev.quiet = true) : ev.closes = false := by
  cases ev <;> first | rfl | exact absurd h (by simp only [Event.quiet, Bool.false_eq_true,
    not_false_eq_true])

/-- An event that neither carries nor closes shows nothing. -/
theorem label_none {ev : Event π} (hcarry : ev.carries = false) (hclose : ev.closes = false) :
    ev.label = none := by
  cases ev with
  | pushed | handleBegin => exact absurd hcarry (by simp only [Event.carries, Bool.true_eq_false,
      not_false_eq_true])
  | handleEnd | handleThrow => exact absurd hclose (by simp only [Event.closes, Bool.true_eq_false,
      not_false_eq_true])
  | _ => rfl

section Rules

variable {cfg : Config} {s s' : System π}

theorem serving_none {t : ApplyTask} {pc : ApplyPc π} (hpc : ∀ e, pc ≠ .handling e)
    (a : ActorPtr) : Running.serving a (.applying t pc) = none := by
  cases pc with
  | handling e => exact absurd rfl (hpc e)
  | _ => rfl

theorem not_handling {p : ApplyPc π} (h : p.holdsBusy = false) (e : Stored π) :
    p ≠ .handling e := by
  intro hp
  rw [hp] at h
  exact absurd h (by simp only [ApplyPc.holdsBusy, Bool.true_eq_false, not_false_eq_true])

/-- Moving a thread between positions outside the handler. -/
theorem moveTo_serving {i : Nat} {t : ApplyTask} {pc pc' : ApplyPc π}
    (hi : s.running[i]? = some (.applying t pc)) (hpc : ∀ e, pc ≠ .handling e)
    (hpc' : ∀ e, pc' ≠ .handling e) (hr : s'.running = s.running.set i (.applying t pc'))
    (a : ActorPtr) : s'.serving a = s.serving a := by
  rw [System.serving, hr]
  exact filterMap_set hi _ (by rw [serving_none hpc, serving_none hpc'])

theorem finish_serving {i : Nat} {r : Running π} (hi : s.running[i]? = some r)
    (hr : ∀ a, Running.serving a r = none) (hrun : s'.running = s.running.eraseIdx i)
    (a : ActorPtr) : s'.serving a = s.serving a := by
  rw [System.serving, hrun]
  exact filterMap_eraseIdx hi _ (hr a)

theorem same_serving (hr : s'.running = s.running) (a : ActorPtr) :
    s'.serving a = s.serving a := by
  rw [System.serving, hr]
  rfl

theorem stops_turn (h : Stops cfg s s') :
    s'.running = s.running ∧ Grows (fun ev => ev.closes = false) s.trace s'.trace :=
  ⟨by rw [h.rest], stops_grows h (fun _ _ => rfl) fun _ _ _ => rfl⟩

theorem applyRule_turn {i : Nat} {t : ApplyTask} {pc : ApplyPc π}
    (hi : s.running[i]? = some (.applying t pc)) (h : ApplyRule cfg s i t pc s') :
    TurnRule s s' := by
  have hquiet : ∀ evs : List (Event π), (∀ ev ∈ evs, ev.quiet = true) →
      Grows (fun ev => ev.closes = false) s.trace (s.trace ++ evs) :=
    fun evs hevs => ⟨evs, rfl, fun ev hev => closes_of_quiet (hevs ev hev)⟩
  cases h with
  | entry pc' hpc =>
      refine .same (moveTo_serving hi (fun _ => ?_) (fun _ => ?_) rfl) grows_refl
      · simp only [ne_eq, reduceCtorEq, not_false_eq_true]
      · rcases hpc with rfl | rfl <;> simp only [ne_eq, reduceCtorEq, not_false_eq_true]
  | popEmpty hm | pop e rest hm =>
      exact .same (moveTo_serving hi
        (fun _ => by simp only [ne_eq, reduceCtorEq, not_false_eq_true])
        (fun _ => by simp only [ne_eq, reduceCtorEq, not_false_eq_true]) rfl) grows_refl
  | callHandler e => exact .hand t e rfl
  -- The two ways out of the handler.
  | handlerReturn e => exact .close i t e .draining _ hi (Or.inl rfl) rfl rfl rfl
  | handlerThrow e what => exact .close i t e (.threw what) _ hi (Or.inr ⟨what, rfl⟩) rfl rfl rfl
  | updateStatus pc k msg r hpc =>
      refine .same (moveTo_serving hi (fun _ => ?_) (fun _ => ?_) rfl) grows_refl
      · rcases hpc with ⟨rfl, _⟩ | ⟨rfl, _⟩ <;> simp only [ne_eq, reduceCtorEq, not_false_eq_true]
      · simp only [ne_eq, reduceCtorEq, not_false_eq_true]
  | resetBusy r pc' hpc =>
      refine .same (moveTo_serving hi (fun _ => ?_) (fun _ => ?_) rfl) grows_refl
      · simp only [ne_eq, reduceCtorEq, not_false_eq_true]
      · rw [hpc]
        cases r <;> simp only [Bool.false_eq_true, if_true, if_false, ne_eq, reduceCtorEq,
          not_false_eq_true]
  -- A halted process leaves its threads where they are.
  | halt pc f evs hf hevs => exact .same (fun _ => rfl) (hquiet evs hevs)
  | done pc evs hb hevs =>
      exact .same (finish_serving hi (serving_none (not_handling hb)) rfl) (hquiet evs hevs)
  | walk pc pc' evs hb hb' hf hr hevs =>
      exact .same (moveTo_serving hi (not_handling hb) (not_handling hb') rfl) (hquiet evs hevs)
  | stop pc u hb hx hu =>
      rcases stops_turn hu with ⟨hrun, hgrows⟩
      exact .same (finish_serving hi (serving_none (not_handling hb))
        (congrArg (fun l => l.eraseIdx i) hrun)) (grows_trans hgrows (grows_one rfl))
  | reinit h u hx hu =>
      rcases stops_turn hu with ⟨hrun, hgrows⟩
      refine .same (moveTo_serving hi (not_handling rfl) (not_handling (p := .restarting h) rfl)
        (congrArg (fun l => l.set i (.applying t (.restarting h))) hrun)) ?_
      exact grows_trans hgrows (grows_trans (grows_one rfl) (grows_one rfl))

theorem callRule_turn {c : ContextCall π} (h : CallRule cfg s c s') : TurnRule s s' := by
  cases h with
  | nothing | crash | create => exact .same (fun _ => rfl) grows_refl
  | addActor | subscribe | publish | send => exact .same (fun _ => rfl) (grows_one rfl)
  | stop addr u hx hu =>
      rcases stops_turn hu with ⟨hrun, hgrows⟩
      exact .same (same_serving hrun) hgrows

/-- Every step is one of the rules for handlers. -/
theorem turnRule_of_stepRule {a : Action π} (h : StepRule cfg s a s') : TurnRule s s' := by
  cases h with
  | call c s' h => exact callRule_turn h
  | userCall uc uc' c s' hc h => exact callRule_turn h
  | userNothing => exact .same (fun _ => rfl) grows_refl
  | add i st c s' hi h =>
      cases h with
      | insert => exact .same (fun _ => rfl) (grows_one rfl)
      | post m hc =>
          rw [System.postStart, userPost_rest]
          exact .same (fun _ => rfl) (grows_one rfl)
      | _ => exact .same (fun _ => rfl) grows_refl
  | pick t rest hq hn =>
      -- A task is in no handler when it is taken.
      have hnone : ∀ a, Running.serving (π := π) a t.taken = none := by
        intro a
        cases t <;> rfl
      refine .same (fun a => ?_) ⟨t.takenEvent, rfl, fun ev hev => ?_⟩
      · simp only [System.serving, List.filterMap_append, List.filterMap_cons, hnone,
          List.filterMap_nil, List.append_nil]
      · cases t with
        | onStart a m => rw [List.mem_singleton.mp hev]; rfl
        | apply t => exact absurd hev List.not_mem_nil
  | task i st s' h =>
      cases h with
      | startHalt => exact .same (fun _ => rfl) grows_refl
      | startReturn a m hi =>
          exact .same (finish_serving hi (fun _ => rfl) rfl) (grows_one rfl)
      | apply t pc s' hi h => exact applyRule_turn hi h
  | worker st s' h =>
      cases h with
      | deliver x e k ids todo m hw hm => exact .same (fun _ => rfl) (grows_one rfl)
      | post todo rm m d p hw hp =>
          rw [userPost_rest]
          exact .same (fun _ => rfl) grows_refl
      | _ => exact .same (fun _ => rfl) grows_refl
  | stop st s' h =>
      cases h with
      | flags | crash => exact .same (fun _ => rfl) grows_refl
      | sweep u hj hx hu =>
          have hrun : u.running = s.running := by rw [hu.rest]
          exact .same (fun a => by rw [System.serving, hrun]; rfl)
            (sweeps_grows hu fun _ _ => rfl)

end Rules

/-- A thread inside `apply` is alone with its actor, so it is all that a history of
    threads at such positions sees, and so is where it goes. -/
theorem alone_of_holds {β : Type} {s : System π} (hbal : Balanced s) {i : Nat} {t : ApplyTask}
    {pc : ApplyPc π} (hi : s.running[i]? = some (.applying t pc)) (hb : pc.holdsBusy = true)
    (f : Running π → Option β)
    (hf : ∀ r ∈ s.running, f r ≠ none → r.holds t.target.actor = true) :
    s.running.filterMap f = (f (.applying t pc)).toList ∧
      ∀ pc', (s.running.set i (.applying t pc')).filterMap f = (f (.applying t pc')).toList := by
  have hholds : Running.holds t.target.actor (.applying t pc) = true := by
    simp only [Running.holds, hb, decide_true, Bool.and_self]
  rcases filterMap_sole hi f fun j r hj hne => by
    by_contra hsome
    have hmem : r ∈ s.running := List.mem_of_getElem? hj
    exact hne (holder_place hbal hi hholds hj (hf r hmem hsome)) with ⟨hread, hset⟩
  exact ⟨hread, fun pc' => hset _⟩

theorem holds_of_serving {a : ActorPtr} {r : Running π} (h : r.serving a ≠ none) :
    r.holds a = true := by
  unfold Running.serving at h
  split at h
  · rename_i t e
    by_cases ha : t.target.actor = a
    · simp only [Running.holds, ha, decide_true, ApplyPc.holdsBusy, Bool.and_self]
    · exact absurd (if_neg ha) h
  · exact absurd rfl h

/-- Whoever has popped from a mailbox holds the flag of the actor it was made for. -/
theorem holds_of_claims {s : System π} (hreg : Registered s) (hback : Backed s) {i : Nat}
    {t : ApplyTask} {pc : ApplyPc π} (hi : s.running[i]? = some (.applying t pc)) {r : Running π}
    (hr : r ∈ s.running) (h : r.claims t.mb ≠ none) : r.holds t.target.actor = true := by
  unfold Running.claims at h
  split at h
  · rename_i t' e
    by_cases hmb : t'.mb = t.mb
    · have hactor : t'.target.actor = t.target.actor :=
        backed_target hreg.toFiled (hback _ (Or.inr (Or.inr ⟨_, hr, rfl⟩)))
          (hback _ (Or.inr (Or.inr ⟨_, List.mem_of_getElem? hi, rfl⟩))) hmb
      simp only [Running.holds, hactor, decide_true, ApplyPc.holdsBusy, Bool.and_self]
    · exact absurd (if_neg hmb) h
  · exact absurd rfl h

/-- At most one thread is inside the handler of an actor. -/
theorem serving_unique {s : System π} (hbal : Balanced s) (a : ActorPtr) :
    s.serving a = (s.asActors.busy a).toList := by
  show s.serving a = (s.serving a).head?.toList
  cases hall : s.serving a with
  | nil => rfl
  | cons x l =>
      have hx : x ∈ s.serving a := by rw [hall]; exact List.mem_cons_self
      rcases List.mem_filterMap.mp hx with ⟨r, hr, hsome⟩
      rcases List.mem_iff_getElem?.mp hr with ⟨i, hi⟩
      have hholds : r.holds a = true := holds_of_serving (by
        rw [hsome]
        exact Option.some_ne_none x)
      have hone := (filterMap_sole hi (Running.serving a) fun j r' hj hne => by
        by_contra hne'
        exact hne (holder_place hbal hi hholds hj (holds_of_serving hne'))).1
      rw [show s.running.filterMap (Running.serving a) = x :: l from hall, hsome] at hone
      rw [hone]
      rfl

section Shows

variable {cfg : Config} {s s' : System π}

/-- The content of the mailboxes after a step that moves nothing. -/
theorem boxes_of_same (hnew : s.boxes s.nextBox = [])
    (hb : s'.boxes = s.boxes ∨ s'.boxes = Function.update s.boxes s.nextBox []) :
    s'.boxes = s.boxes := by
  rcases hb with hb | hb
  · exact hb
  · rw [hb, ← hnew, Function.update_eq_self]

theorem push_shows {m : MailboxPtr} {e : Stored π}
    (hb : s'.boxes = Function.update s.boxes m (s.boxes m ++ [e])) (hr : s'.running = s.running) :
    s.asActors.step (.arrive m e) = some s'.asActors := by
  have hmail : s'.asActors.mail =
      Function.update s.asActors.mail m (s.asActors.mail m ++ [e]) := by
    funext n
    by_cases hn : n = m
    · subst hn
      simp only [System.asActors, System.inTransit, hr, hb, Function.update_self,
        List.append_assoc]
    · simp only [System.asActors, System.inTransit, hr, hb, Function.update_of_ne hn]
  have hbusy : s'.asActors.busy = s.asActors.busy := by
    funext a
    exact congrArg List.head? (same_serving hr a)
  simp only [ActorModel.step, Option.some.injEq]
  exact ActorModel.ext hmail.symm hbusy.symm

/-- A pop is not seen: what was first in the mailbox is now in transit. -/
theorem claim_shows (h : Delivers s) {i : Nat} {t : ApplyTask} {e : Stored π}
    {rest : List (Stored π)} (hi : s.running[i]? = some (.applying t .draining))
    (hm : s.boxes t.mb = e :: rest) (hb : s'.boxes = Function.update s.boxes t.mb rest)
    (hr : s'.running = s.running.set i (.applying t (.popped e))) :
    s'.asActors = s.asActors := by
  have hbusy : ∀ a, s'.serving a = s.serving a := moveTo_serving hi
    (fun _ => by simp only [ne_eq, reduceCtorEq, not_false_eq_true])
    (fun _ => by simp only [ne_eq, reduceCtorEq, not_false_eq_true]) hr
  rcases alone_of_holds h.balanced hi rfl (Running.claims t.mb) fun r hmem =>
    holds_of_claims h.registered h.backed hi hmem with ⟨hread, hset⟩
  refine ActorModel.ext (funext fun m => ?_) (funext fun a => congrArg List.head? (hbusy a))
  show s'.inTransit m ++ s'.boxes m = s.inTransit m ++ s.boxes m
  by_cases hmm : t.mb = m
  · subst hmm
    rw [System.inTransit, System.inTransit, hr, hset, hread, hb, Function.update_self, hm]
    simp only [Running.claims, if_true, Option.toList_some, Option.toList_none,
      List.singleton_append, List.nil_append]
  · rw [inTransit_other hmm hi hr, hb, Function.update_of_ne fun hm => hmm hm.symm]

theorem hand_shows (h : Delivers s) {i : Nat} {t : ApplyTask} {e : Stored π}
    (hi : s.running[i]? = some (.applying t (.popped e))) (hb : s'.boxes = s.boxes)
    (hr : s'.running = s.running.set i (.applying t (.handling e))) :
    s.asActors.step (.begin t.target.actor t.mb e) = some s'.asActors := by
  rcases alone_of_holds h.balanced hi rfl (Running.claims t.mb) fun r hmem =>
    holds_of_claims h.registered h.backed hi hmem with ⟨hread, hset⟩
  rcases alone_of_holds h.balanced hi rfl (Running.serving t.target.actor) fun r _ =>
    holds_of_serving with ⟨hfree, hbusy⟩
  have hfirst : s.asActors.mail t.mb = e :: s.boxes t.mb := by
    show s.inTransit t.mb ++ s.boxes t.mb = e :: s.boxes t.mb
    rw [System.inTransit, hread]
    simp only [Running.claims, if_true, Option.toList_some, List.singleton_append]
  have hmail : s'.asActors.mail =
      Function.update s.asActors.mail t.mb (s.asActors.mail t.mb).tail := by
    funext m
    by_cases hmm : t.mb = m
    · subst hmm
      rw [Function.update_self, hfirst]
      show s'.inTransit t.mb ++ s'.boxes t.mb = s.boxes t.mb
      rw [System.inTransit, hr, hset, hb]
      rfl
    · rw [Function.update_of_ne fun hm => hmm hm.symm]
      show s'.inTransit m ++ s'.boxes m = s.inTransit m ++ s.boxes m
      rw [inTransit_other hmm hi hr, hb]
  have hserve : s'.asActors.busy =
      Function.update s.asActors.busy t.target.actor (some (t.mb, e)) := by
    funext a
    by_cases ha : t.target.actor = a
    · subst ha
      rw [Function.update_self]
      show (s'.serving t.target.actor).head? = some (t.mb, e)
      rw [System.serving, hr, hbusy]
      simp only [Running.serving, if_true, Option.toList_some, List.head?_cons]
    · rw [Function.update_of_ne fun h => ha h.symm]
      show (s'.serving a).head? = (s.serving a).head?
      rw [System.serving, System.serving, hr, filterMap_set hi _]
      simp only [Running.serving, if_neg ha]
  have hidle : s.asActors.busy t.target.actor = none := by
    show (s.serving t.target.actor).head? = none
    rw [System.serving, hfree]
    rfl
  simp only [ActorModel.step, hidle, hfirst, List.head?_cons, and_self, if_true, Option.some.injEq]
  rw [hfirst] at hmail
  exact ActorModel.ext hmail.symm hserve.symm

theorem close_shows (h : Delivers s) {i : Nat} {t : ApplyTask} {e : Stored π} {pc : ApplyPc π}
    (hi : s.running[i]? = some (.applying t (.handling e)))
    (hpc : pc = .draining ∨ ∃ what, pc = .threw what) (hb : s'.boxes = s.boxes)
    (hr : s'.running = s.running.set i (.applying t pc)) :
    s.asActors.step (.done t.target.actor t.mb) = some s'.asActors := by
  have hout : ∀ e', pc ≠ .handling e' ∧ pc ≠ .popped e' := by
    intro e'
    rcases hpc with rfl | ⟨what, rfl⟩ <;>
      simp only [ne_eq, reduceCtorEq, not_false_eq_true, and_self]
  rcases alone_of_holds h.balanced hi rfl (Running.serving t.target.actor) fun r _ =>
    holds_of_serving with ⟨hhas, hbusy⟩
  have hmail : s'.asActors.mail = s.asActors.mail := by
    funext m
    show s'.inTransit m ++ s'.boxes m = s.inTransit m ++ s.boxes m
    rw [hb, moveTo_inTransit hi (fun _ => by simp only [ne_eq, reduceCtorEq, not_false_eq_true])
      (fun e' => (hout e').2) hr]
  have hserve : s'.asActors.busy = Function.update s.asActors.busy t.target.actor none := by
    funext a
    show (s'.serving a).head? = _
    by_cases ha : t.target.actor = a
    · subst ha
      rw [Function.update_self, System.serving, hr, hbusy, serving_none fun e' => (hout e').1]
      rfl
    · rw [Function.update_of_ne fun h => ha h.symm, System.serving, hr, filterMap_set hi _]
      · rfl
      · rw [serving_none fun e' => (hout e').1]
        exact if_neg ha
  have hhad : s.asActors.busy t.target.actor = some (t.mb, e) := by
    show (s.serving t.target.actor).head? = some (t.mb, e)
    rw [System.serving, hhas]
    simp only [Running.serving, if_true, Option.toList_some, List.head?_cons]
  simp only [ActorModel.step, hhad, Option.some.injEq, Prod.mk.injEq, true_and, exists_eq', if_true]
  exact ActorModel.ext hmail.symm hserve.symm

/-- A step shows nothing and changes nothing of the abstract system, or it shows
    one step of it. -/
theorem shows_of_step {a : Action π} (hs : step cfg s a = some s') (h : Delivers s) :
    s'.asActors = s.asActors ∧ Grows (fun ev => ev.label = none) s.trace s'.trace ∨
      ∃ ev l, s'.trace = s.trace ++ [ev] ∧ ev.label = some l ∧
        s.asActors.step l = some s'.asActors := by
  have hrule := (stepRule_of_step hs).2
  have hnew : s.boxes s.nextBox = [] := h.unopened s.nextBox (Nat.le_refl _)
  cases mailRule_of_stepRule hrule with
  | same hb hr ht =>
      have hb := boxes_of_same hnew hb
      rcases ht with ⟨evs, hevs, hcarry⟩
      cases turnRule_of_stepRule hrule with
      | same hr' ht' =>
          rcases ht' with ⟨evs', hevs', hclose⟩
          have heq : evs = evs' := List.append_cancel_left (hevs.symm.trans hevs')
          subst heq
          refine Or.inl ⟨?_, evs, hevs, fun ev hev => label_none (hcarry ev hev) (hclose ev hev)⟩
          refine ActorModel.ext (funext fun m => ?_) (funext fun a => congrArg List.head? (hr' a))
          show s'.inTransit m ++ s'.boxes m = s.inTransit m ++ s.boxes m
          rw [hr, hb]
      | hand t e ht' =>
          -- A call of the handler is no step that mailboxes do not see.
          have heq : evs = [.handleBegin t.target.actor t.mb e] :=
            List.append_cancel_left (hevs.symm.trans ht')
          have hno := hcarry (.handleBegin t.target.actor t.mb e)
            (heq ▸ List.mem_cons_self)
          exact absurd hno (by simp only [Event.carries, Bool.true_eq_false, not_false_eq_true])
      | close i t e pc ev hi hpc hr' ht' hev =>
          exact Or.inr ⟨ev, _, ht', hev, close_shows h hi hpc hb hr'⟩
  | push k m e from? hm hb hr ht => exact Or.inr ⟨_, _, ht, rfl, push_shows hb hr⟩
  | claim i t e rest hi hm hb hr ht =>
      exact Or.inl ⟨claim_shows h hi hm hb hr, ht ▸ grows_refl⟩
  | hand i t e hi hb hr ht => exact Or.inr ⟨_, _, ht, rfl, hand_shows h hi hb hr⟩

end Shows

/-- What was seen so far is a run of the abstract system, to the state that this
    one stands for. -/
def Seen (s : System π) : Prop :=
  (ActorModel.machine MailboxPtr ActorPtr (Stored π)).run ActorModel.idle s.shown = some s.asActors

theorem step_seen {cfg : Config} {s s' : System π} {a : Action π} (hs : step cfg s a = some s')
    (hd : Delivers s) (h : Seen s) : Seen s' := by
  rcases shows_of_step hs hd with ⟨heq, hgrows⟩ | ⟨ev, l, ht, hev, hstep⟩
  · rw [Seen, heq, System.shown, filterMap_of_grows _ (fun _ => id) hgrows]
    exact h
  · have hshown : s'.shown = s.shown ++ [l] := by
      simp only [System.shown, ht, List.filterMap_append, List.filterMap_cons, hev,
        List.filterMap_nil]
    rw [Seen, hshown, Machine.run_append, h, Option.bind_some]
    simp only [Machine.run, ActorModel.machine, hstep]

/-- `make_context` has shown nothing. -/
theorem seen_makeContext (cfg : Config) (name : String) : Seen (π := π) (makeContext cfg name) := by
  have hstart : (context (π := π) cfg name).Reach Machine.free (makeContext cfg name) := .refl _
  have hquiet : ∀ {β : Type} (f : Event π → Option β), (∀ ev, ev.adds = true → f ev = none) →
      (makeContext cfg name).trace.filterMap f = [] := fun f hf =>
    List.filterMap_eq_nil_iff.mpr fun ev hev => hf ev (makeContext_trace hev)
  have hshown : (makeContext (π := π) cfg name).shown = [] := hquiet _ fun ev hev => by
    cases ev <;> first | rfl | exact absurd hev (by simp only [Event.adds, Bool.false_eq_true,
      not_false_eq_true])
  have hmail : ∀ m, (makeContext (π := π) cfg name).asActors.mail m = [] := by
    intro m
    rcases (reach_delivers hstart).carries m with ⟨c, hc⟩
    have hexact := c.exact
    rw [← hc.arrived, ← hc.handed, ← hc.claimed, ← hc.queued] at hexact
    have hpushed : (makeContext (π := π) cfg name).pushedTo m = [] := hquiet _ fun ev hev => by
      cases ev <;> first | rfl | exact absurd hev (by simp only [Event.adds, Bool.false_eq_true,
        not_false_eq_true])
    rw [hpushed, List.append_assoc] at hexact
    exact (List.append_eq_nil_iff.mp hexact).2
  rw [Seen, hshown]
  refine congrArg some (ActorModel.ext (funext fun m => (hmail m).symm) (funext fun a => ?_))
  simp only [ActorModel.idle, System.asActors, System.serving, makeContext_running,
    List.filterMap_nil, List.head?_nil]

theorem reach_seen {cfg : Config} {name : String} {C : System π → Action π → Prop}
    {s : System π} (h : (context cfg name).Reach C s) : Seen s :=
  Machine.invariant_of Delivers Seen (fun _ => reach_delivers) (seen_makeContext cfg name)
    (fun _ _ _ _ hs hd _ => step_seen hs hd) h

/-- What a context shows is a run of mailboxes and servers. The pushes, the
    calls of handlers and their ends, in the order in which they happened, are a
    run from the abstract system with nothing in it to the one the state stands
    for. So from each mailbox, what was handled and what is still there is what
    was pushed, and each actor begins and ends in turn, the end belonging to the
    mailbox of the beginning; and no two threads are inside one actor. -/
theorem context_refines_actors {cfg : Config} {name : String} {s : System π}
    (h : (context cfg name).Reach Machine.free s) :
    (ActorModel.machine MailboxPtr ActorPtr (Stored π)).run ActorModel.idle s.shown =
        some s.asActors ∧
    (∀ m, ActorModel.served m s.shown ++ s.asActors.mail m = ActorModel.arrived m s.shown) ∧
    (∀ a, ∃ rounds : List (MailboxPtr × Stored π), ActorModel.turns a s.shown =
      rounds.flatMap (ActorModel.round a) ++ ActorModel.begun a (s.asActors.busy a)) ∧
    ∀ a, s.serving a = (s.asActors.busy a).toList := by
  have hseen : Seen s := reach_seen h
  refine ⟨hseen, fun m => ?_, fun a => ?_, serving_unique (reach_balanced h)⟩
  · exact ActorModel.served_arrived m s.shown _ _ hseen
  · exact ActorModel.turns_alternate a s.shown _ _ hseen

theorem context_refines_actors_drainRun :
    ActorModel.served 3 ((context (.plain 1) "ctx").after drainRun).shown ++
        ((context (.plain 1) "ctx").after drainRun).asActors.mail 3 =
      ActorModel.arrived 3 ((context (.plain 1) "ctx").after drainRun).shown ∧
    ((context (.plain 1) "ctx").after drainRun).serving 3 =
      (((context (.plain 1) "ctx").after drainRun).asActors.busy 3).toList :=
  have h := context_refines_actors (Machine.reach_after drainRun)
  ⟨h.2.1 3, h.2.2.2 3⟩

end Yaaf
