import Yaaf.Theory.Dispatch
import Yaaf.Theory.Exchange

/-!
# Exactly-Once Delivery

Every mailbox is a channel. A push is an arrival, whoever makes it; `try_pop`
claims the oldest envelope for the thread that called it; and the call of
`action_handle` hands it over, whether or not the handler goes on to throw.

The one thing the mailbox itself does not guarantee is that a single thread
consumes from it. That comes from the busy flag: a thread that drains a
mailbox holds the flag of the actor the mailbox was made for, and two threads
on one mailbox would hold one flag twice.

The second half is about what is pushed. A `user_context` puts its own
address into every envelope before it forwards the call, and the address is
the one the actor is registered under. The fan-out pushes what was published.

## Main definitions

* `System.pushedTo`, `System.handedFrom`: The histories of a mailbox.
* `System.inTransit`: Popped and not yet handed over.
* `MailRule`: A step, as far as mailboxes can tell.
* `Carries`: A mailbox as a channel.
* `Arrives`: What a send does to the mailboxes.

## Theorems

* `single_consumer`: Whoever drains a mailbox is the only one.
* `mailRule_carries`: Every step is a step of every channel, or none.
* `mailbox_exact`: Nothing is lost on the way out of a mailbox.
* `fifo_delivery`: Exactly-once delivery in order of arrival.
-/

namespace Yaaf

open Slots Trace

variable {π : Type}

/-- An envelope pushed to the mailbox `m`. -/
def Event.pushed? (m : MailboxPtr) : Event π → Option (Stored π)
  | .pushed m' e _ => if m' = m then some e else none
  | _ => none

/-- An envelope from the mailbox `m` handed to `action_handle`. -/
def Event.handed? (m : MailboxPtr) : Event π → Option (Stored π)
  | .handleBegin _ m' e => if m' = m then some e else none
  | _ => none

/-- Events mailboxes are about. -/
def Event.carries : Event π → Bool
  | .pushed _ _ _ | .handleBegin _ _ _ => true
  | _ => false

/-- Everything pushed to the mailbox `m`, in order. -/
def System.pushedTo (s : System π) (m : MailboxPtr) : List (Stored π) :=
  s.trace.filterMap (Event.pushed? m)

/-- Everything handed to `action_handle` from the mailbox `m`, in order. -/
def System.handedFrom (s : System π) (m : MailboxPtr) : List (Stored π) :=
  s.trace.filterMap (Event.handed? m)

/-- What a thread popped from the mailbox `m` and is about to hand over. -/
def Running.claims (m : MailboxPtr) : Running π → Option (Stored π)
  | .applying t (.popped e) => if t.mb = m then some e else none
  | _ => none

/-- Everything popped from the mailbox `m` and not yet handed over. -/
def System.inTransit (s : System π) (m : MailboxPtr) : List (Stored π) :=
  s.running.filterMap (Running.claims m)

/-- An envelope has entered the mailbox `m`, behind all others, and nothing else has
    happened. -/
structure Arrives (s s' : System π) (m : MailboxPtr) (e : Stored π) : Prop where
  box : s'.boxes m = s.boxes m ++ [e]
  pushed : s'.pushedTo m = s.pushedTo m ++ [e]
  others : ∀ n, n ≠ m → s'.boxes n = s.boxes n ∧ s'.pushedTo n = s.pushedTo n
  rest : s' = { s with boxes := s'.boxes, trace := s.trace ++ [.pushed m e none] }

/-- A step, as far as mailboxes can tell. -/
inductive MailRule (s s' : System π) : Prop
  | same (hb : s'.boxes = s.boxes ∨ s'.boxes = Function.update s.boxes s.nextBox [])
      (hr : ∀ m, s'.inTransit m = s.inTransit m)
      (ht : Grows (fun ev => ev.carries = false) s.trace s'.trace)
  | push (k : IdT) (m : MailboxPtr) (e : Stored π) (from? : Option String)
      (hm : s.mboxes.lookup k = some m)
      (hb : s'.boxes = Function.update s.boxes m (s.boxes m ++ [e]))
      (hr : s'.running = s.running) (ht : s'.trace = s.trace ++ [.pushed m e from?])
  | claim (i : Nat) (t : ApplyTask) (e : Stored π) (rest : List (Stored π))
      (hi : s.running[i]? = some (.applying t .draining)) (hm : s.boxes t.mb = e :: rest)
      (hb : s'.boxes = Function.update s.boxes t.mb rest)
      (hr : s'.running = s.running.set i (.applying t (.popped e))) (ht : s'.trace = s.trace)
  | hand (i : Nat) (t : ApplyTask) (e : Stored π)
      (hi : s.running[i]? = some (.applying t (.popped e))) (hb : s'.boxes = s.boxes)
      (hr : s'.running = s.running.set i (.applying t (.handling e)))
      (ht : s'.trace = s.trace ++ [.handleBegin t.target.actor t.mb e])

theorem carries_of_quiet {ev : Event π} (h : ev.quiet = true) : ev.carries = false := by
  cases ev <;> first | rfl | exact absurd h (by simp only [Event.quiet, Bool.false_eq_true,
    not_false_eq_true])

section Rules

variable {cfg : Config} {s s' : System π}

theorem stops_mail (h : Stops cfg s s') : s'.boxes = s.boxes ∧ s'.running = s.running ∧
    Grows (fun ev => ev.carries = false) s.trace s'.trace := by
  refine ⟨by rw [h.rest], by rw [h.rest], ?_⟩
  exact stops_grows h (fun _ _ => rfl) fun _ _ _ => rfl

theorem claims_none {t : ApplyTask} {pc : ApplyPc π} (hpc : ∀ e, pc ≠ .popped e)
    (m : MailboxPtr) : Running.claims m (.applying t pc) = none := by
  cases pc with
  | popped e => exact absurd rfl (hpc e)
  | _ => rfl

/-- Moving a thread between positions that claim nothing. -/
theorem moveTo_inTransit {i : Nat} {t : ApplyTask} {pc pc' : ApplyPc π}
    (hi : s.running[i]? = some (.applying t pc)) (hpc : ∀ e, pc ≠ .popped e)
    (hpc' : ∀ e, pc' ≠ .popped e) (hr : s'.running = s.running.set i (.applying t pc'))
    (m : MailboxPtr) : s'.inTransit m = s.inTransit m := by
  rw [System.inTransit, hr]
  exact filterMap_set hi _ (by rw [claims_none hpc, claims_none hpc'])

theorem not_popped {p : ApplyPc π} (h : p.holdsBusy = false) (e : Stored π) : p ≠ .popped e := by
  intro hp
  rw [hp] at h
  exact absurd h (by simp only [ApplyPc.holdsBusy, Bool.true_eq_false, not_false_eq_true])

theorem finish_inTransit {i : Nat} {r : Running π} (hi : s.running[i]? = some r)
    (hr : ∀ m, Running.claims m r = none) (hrun : s'.running = s.running.eraseIdx i)
    (m : MailboxPtr) : s'.inTransit m = s.inTransit m := by
  rw [System.inTransit, hrun]
  exact filterMap_eraseIdx hi _ (hr m)

theorem applyRule_mail {i : Nat} {t : ApplyTask} {pc : ApplyPc π}
    (hi : s.running[i]? = some (.applying t pc)) (h : ApplyRule cfg s i t pc s') :
    MailRule s s' := by
  have hquiet : ∀ evs : List (Event π), (∀ ev ∈ evs, ev.quiet = true) →
      Grows (fun ev => ev.carries = false) s.trace (s.trace ++ evs) :=
    fun evs hevs => ⟨evs, rfl, fun ev hev => carries_of_quiet (hevs ev hev)⟩
  cases h with
  | entry pc' hpc =>
      refine .same (Or.inl rfl) (moveTo_inTransit hi (fun _ => ?_) (fun _ => ?_) rfl) grows_refl
      · simp only [ne_eq, reduceCtorEq, not_false_eq_true]
      · rcases hpc with rfl | rfl <;> simp only [ne_eq, reduceCtorEq, not_false_eq_true]
  | popEmpty hm =>
      exact .same (Or.inl rfl) (moveTo_inTransit hi
        (fun _ => by simp only [ne_eq, reduceCtorEq, not_false_eq_true])
        (fun _ => by simp only [ne_eq, reduceCtorEq, not_false_eq_true]) rfl) grows_refl
  -- A message leaves its mailbox for the thread, and the thread hands it on.
  | pop e rest hm => exact .claim i t e rest hi hm rfl rfl rfl
  | callHandler e => exact .hand i t e hi rfl rfl rfl
  | handlerReturn e | handlerThrow e what =>
      exact .same (Or.inl rfl) (moveTo_inTransit hi
        (fun _ => by simp only [ne_eq, reduceCtorEq, not_false_eq_true])
        (fun _ => by simp only [ne_eq, reduceCtorEq, not_false_eq_true]) rfl) (grows_one rfl)
  | updateStatus pc k msg r hpc =>
      refine .same (Or.inl rfl) (moveTo_inTransit hi (fun _ => ?_) (fun _ => ?_) rfl) grows_refl
      · rcases hpc with ⟨rfl, _⟩ | ⟨rfl, _⟩ <;> simp only [ne_eq, reduceCtorEq, not_false_eq_true]
      · simp only [ne_eq, reduceCtorEq, not_false_eq_true]
  | resetBusy r pc' hpc =>
      refine .same (Or.inl rfl) (moveTo_inTransit hi (fun _ => ?_) (fun _ => ?_) rfl) grows_refl
      · simp only [ne_eq, reduceCtorEq, not_false_eq_true]
      · rw [hpc]
        cases r <;> simp only [Bool.false_eq_true, if_true, if_false, ne_eq, reduceCtorEq,
          not_false_eq_true]
  | halt pc f evs hf hevs => exact .same (Or.inl rfl) (fun _ => rfl) (hquiet evs hevs)
  | done pc evs hb hevs =>
      exact .same (Or.inl rfl) (finish_inTransit hi (claims_none (not_popped hb)) rfl)
        (hquiet evs hevs)
  | walk pc pc' evs hb hb' hf hr hevs =>
      exact .same (Or.inl rfl) (moveTo_inTransit hi (not_popped hb) (not_popped hb') rfl)
        (hquiet evs hevs)
  | stop pc u hb hx hu =>
      rcases stops_mail hu with ⟨hboxes, hrun, hgrows⟩
      exact .same (Or.inl hboxes) (finish_inTransit hi (claims_none (not_popped hb))
        (congrArg (fun l => l.eraseIdx i) hrun)) (grows_trans hgrows (grows_one rfl))
  | reinit h u hx hu =>
      rcases stops_mail hu with ⟨hboxes, hrun, hgrows⟩
      refine .same (Or.inl hboxes) (moveTo_inTransit hi (not_popped rfl)
        (not_popped (p := .restarting h) rfl)
        (congrArg (fun l => l.set i (.applying t (.restarting h))) hrun)) ?_
      exact grows_trans hgrows (grows_trans (grows_one rfl) (grows_one rfl))

theorem callRule_mail {c : ContextCall π} (h : CallRule cfg s c s') : MailRule s s' := by
  cases h with
  | nothing | crash | create => exact .same (Or.inl rfl) (fun _ => rfl) grows_refl
  | addActor | subscribe | publish => exact .same (Or.inl rfl) (fun _ => rfl) (grows_one rfl)
  | send target e m e' hx hm he => exact .push target.id m e' none hm rfl rfl rfl
  | stop addr u hx hu =>
      rcases stops_mail hu with ⟨hboxes, hrun, hgrows⟩
      exact .same (Or.inl hboxes) (fun m => by rw [System.inTransit, hrun]; rfl) hgrows

/-- Every step is one of the rules for mailboxes. -/
theorem mailRule_of_stepRule {a : Action π} (h : StepRule cfg s a s') : MailRule s s' := by
  cases h with
  | call c s' h => exact callRule_mail h
  | userCall uc uc' c s' hc h => exact callRule_mail h
  | userNothing => exact .same (Or.inl rfl) (fun _ => rfl) grows_refl
  | add i st c s' hi h =>
      cases h with
      | insert => exact .same (Or.inr rfl) (fun _ => rfl) (grows_one rfl)
      | post m hc =>
          rw [System.postStart, userPost_rest]
          exact .same (Or.inl rfl) (fun _ => rfl) (grows_one rfl)
      | _ => exact .same (Or.inl rfl) (fun _ => rfl) grows_refl
  | pick t rest hq hn =>
      -- A task has no message when it is taken.
      have hnone : ∀ m, Running.claims (π := π) m t.taken = none := by
        intro m
        cases t <;> rfl
      refine .same (Or.inl rfl) (fun m => ?_) ⟨t.takenEvent, rfl, fun ev hev => ?_⟩
      · simp only [System.inTransit, List.filterMap_append, List.filterMap_cons, hnone,
          List.filterMap_nil, List.append_nil]
      · cases t with
        | onStart a m => rw [List.mem_singleton.mp hev]; rfl
        | apply t => exact absurd hev List.not_mem_nil
  | task i st s' h =>
      cases h with
      | startHalt => exact .same (Or.inl rfl) (fun _ => rfl) grows_refl
      | startReturn a m hi =>
          exact .same (Or.inl rfl) (finish_inTransit hi (fun _ => rfl) rfl) (grows_one rfl)
      | apply t pc s' hi h => exact applyRule_mail hi h
  | worker st s' h =>
      cases h with
      | deliver x e k ids todo m hw hm => exact .push k m e (some x) hm rfl rfl rfl
      | post todo rm m d p hw hp =>
          rw [userPost_rest]
          exact .same (Or.inl rfl) (fun _ => rfl) grows_refl
      | _ => exact .same (Or.inl rfl) (fun _ => rfl) grows_refl
  | stop st s' h =>
      cases h with
      | flags | crash => exact .same (Or.inl rfl) (fun _ => rfl) grows_refl
      | sweep u hj hx hu =>
          have hboxes : u.boxes = s.boxes := by rw [hu.rest]
          have hrun : u.running = s.running := by rw [hu.rest]
          exact .same (Or.inl hboxes) (fun m => by rw [System.inTransit, hrun]; rfl)
            (sweeps_grows hu fun _ _ => rfl)

end Rules

/-- A mailbox as a channel. -/
structure Carries (s : System π) (m : MailboxPtr) (c : Channel (Stored π)) : Prop where
  arrived : s.pushedTo m = c.arrived
  handed : s.handedFrom m = c.handed
  claimed : s.inTransit m = c.claimed.toList
  queued : s.boxes m = c.queued

/-- Whoever drains a mailbox is the only one to have popped from it. -/
theorem single_consumer {s : System π} (hbal : Balanced s) (hreg : Registered s) (hback : Backed s)
    {i : Nat} {t : ApplyTask} (hi : s.running[i]? = some (.applying t .draining)) :
    s.inTransit t.mb = [] := by
  refine List.filterMap_eq_nil_iff.mpr fun r hr => ?_
  by_contra hne
  rcases Option.ne_none_iff_exists'.mp hne with ⟨e, he⟩
  -- The other thread works on the same mailbox, so for the same actor.
  have hpopped : ∃ t', r = .applying t' (.popped e) ∧ t'.mb = t.mb := by
    unfold Running.claims at he
    split at he
    · rename_i t' e'
      rw [Option.ite_none_right_eq_some, Option.some.injEq] at he
      exact ⟨t', by rw [he.2], he.1⟩
    · exact absurd he (by simp only [reduceCtorEq, not_false_eq_true])
  rcases hpopped with ⟨t', rfl, hmb⟩
  have hactor : t'.target.actor = t.target.actor :=
    backed_target hreg.toFiled (hback _ (Or.inr (Or.inr ⟨_, hr, rfl⟩)))
      (hback _ (Or.inr (Or.inr ⟨_, List.mem_of_getElem? hi, rfl⟩))) hmb
  have hsame := sole_holder hbal hi (a := t.target.actor)
    (by simp only [Running.holds, ApplyPc.holdsBusy, decide_true, Bool.and_self]) hr
    (by simp only [Running.holds, hactor, ApplyPc.holdsBusy, decide_true, Bool.and_self])
  simp only [Running.applying.injEq, reduceCtorEq, and_false] at hsame

section Carries

variable {s s' : System π} {m : MailboxPtr} {c : Channel (Stored π)}

theorem histories_of_carries {evs : List (Event π)} (hevs : ∀ ev ∈ evs, ev.carries = false) :
    evs.filterMap (Event.pushed? m) = [] ∧ evs.filterMap (Event.handed? m) = [] := by
  refine ⟨List.filterMap_eq_nil_iff.mpr fun ev hev => ?_,
    List.filterMap_eq_nil_iff.mpr fun ev hev => ?_⟩ <;> have h := hevs ev hev <;> cases ev <;>
    first | rfl | exact absurd h (by simp only [Event.carries, Bool.true_eq_false,
      not_false_eq_true])

/-- Nothing happened that the channel could see. -/
theorem carries_still {evs : List (Event π)} (ht : s'.trace = s.trace ++ evs)
    (hpush : evs.filterMap (Event.pushed? m) = []) (hhand : evs.filterMap (Event.handed? m) = [])
    (hr : s'.inTransit m = s.inTransit m) (hb : s'.boxes m = s.boxes m) (h : Carries s m c) :
    Carries s' m c where
  arrived := by
    rw [System.pushedTo, ht, List.filterMap_append, hpush, List.append_nil]
    exact h.arrived
  handed := by
    rw [System.handedFrom, ht, List.filterMap_append, hhand, List.append_nil]
    exact h.handed
  claimed := by rw [hr, h.claimed]
  queued := by rw [hb, h.queued]

/-- A push is an arrival. -/
theorem arrive_carries {e : Stored π} {from? : Option String}
    (hb : s'.boxes = Function.update s.boxes m (s.boxes m ++ [e])) (hrun : s'.running = s.running)
    (ht : s'.trace = s.trace ++ [.pushed m e from?]) (h : Carries s m c) :
    Carries s' m (c.arrive e) where
  arrived := by
    rw [System.pushedTo, ht, List.filterMap_append]
    simp only [Channel.arrive, ← h.arrived, System.pushedTo, List.filterMap_cons,
      Event.pushed?, if_true, List.filterMap_nil]
  handed := by
    rw [System.handedFrom, ht, List.filterMap_append]
    exact (List.append_nil _).trans h.handed
  claimed := by
    rw [System.inTransit, hrun]
    exact h.claimed
  queued := by
    rw [hb, Function.update_self, h.queued]
    rfl

/-- A pop claims the oldest envelope, where nobody else has one. -/
theorem claim_carries {i : Nat} {t : ApplyTask} {e : Stored π} {rest : List (Stored π)}
    (hi : s.running[i]? = some (.applying t .draining)) (hempty : s.inTransit t.mb = [])
    (hm : s.boxes t.mb = e :: rest) (hb : s'.boxes = Function.update s.boxes t.mb rest)
    (hrun : s'.running = s.running.set i (.applying t (.popped e))) (ht : s'.trace = s.trace)
    (h : Carries s t.mb c) :
    ∃ hq hc, Carries s' t.mb (c.claim e rest hq hc) := by
  rcases filterMap_slot hi (Running.claims t.mb) with ⟨pre, post, hpre, hset⟩
  have hq : c.queued = e :: rest := by rw [← h.queued, hm]
  have hc : c.claimed = none := Option.toList_eq_nil_iff.mp (h.claimed.symm.trans hempty)
  refine ⟨hq, hc, ⟨?_, ?_, ?_, ?_⟩⟩
  · rw [System.pushedTo, ht]
    exact h.arrived
  · rw [System.handedFrom, ht]
    exact h.handed
  · rw [System.inTransit, hpre] at hempty
    simp only [List.append_eq_nil_iff] at hempty
    rw [System.inTransit, hrun, hset, hempty.1.1, hempty.2]
    simp only [Running.claims, if_true, List.nil_append, List.append_nil, Channel.claim]
  · rw [hb, Function.update_self]
    rfl

/-- The call of the handler hands the claimed envelope over. -/
theorem hand_carries {i : Nat} {t : ApplyTask} {e : Stored π}
    (hi : s.running[i]? = some (.applying t (.popped e))) (hb : s'.boxes = s.boxes)
    (hrun : s'.running = s.running.set i (.applying t (.handling e)))
    (ht : s'.trace = s.trace ++ [.handleBegin t.target.actor t.mb e]) (h : Carries s t.mb c) :
    ∃ hc, Carries s' t.mb (c.hand e hc) := by
  rcases filterMap_slot hi (Running.claims t.mb) with ⟨pre, post, hpre, hset⟩
  have hclaimed := h.claimed
  rw [System.inTransit, hpre] at hclaimed
  simp only [Running.claims, if_true, Option.toList_some] at hclaimed
  -- At most one envelope is claimed, so it is this one.
  have hone : c.claimed = some e ∧ pre = [] ∧ post = [] := by
    have hlen := congrArg List.length hclaimed
    cases hc : c.claimed with
    | none =>
        rw [hc] at hlen
        simp only [List.length_append, List.length_cons, List.length_nil, Option.toList_none] at hlen
        omega
    | some x =>
        rw [hc] at hlen hclaimed
        simp only [List.length_append, List.length_cons, List.length_nil, Option.toList_some] at hlen
        have hpre' : pre = [] := List.length_eq_zero_iff.mp (by omega)
        have hpost' : post = [] := List.length_eq_zero_iff.mp (by omega)
        rw [hpre', hpost'] at hclaimed
        simp only [List.nil_append, List.append_nil, Option.toList_some, List.cons.injEq,
          and_true] at hclaimed
        exact ⟨by rw [hclaimed], hpre', hpost'⟩
  rcases hone with ⟨hc, hpre', hpost'⟩
  refine ⟨hc, ⟨?_, ?_, ?_, ?_⟩⟩
  · rw [System.pushedTo, ht, List.filterMap_append]
    exact (List.append_nil _).trans h.arrived
  · rw [System.handedFrom, ht, List.filterMap_append]
    simp only [Channel.hand, ← h.handed, System.handedFrom, List.filterMap_cons,
      Event.handed?, if_true, List.filterMap_nil]
  · rw [System.inTransit, hrun, hset, hpre', hpost']
    rfl
  · rw [hb, h.queued]
    rfl

/-- A thread that works on another mailbox moves. -/
theorem inTransit_other {i : Nat} {t : ApplyTask} {pc pc' : ApplyPc π} (hmm : t.mb ≠ m)
    (hi : s.running[i]? = some (.applying t pc))
    (hrun : s'.running = s.running.set i (.applying t pc')) : s'.inTransit m = s.inTransit m := by
  have hnone : ∀ p : ApplyPc π, Running.claims m (.applying t p) = none := by
    intro p
    cases p with
    | popped e => exact if_neg hmm
    | _ => rfl
  rw [System.inTransit, hrun]
  exact filterMap_set hi _ (by rw [hnone, hnone])

/-- Every step is a step of every channel, or none. -/
theorem mailRule_carries (hr : MailRule s s') (hbal : Balanced s) (hreg : Registered s)
    (hback : Backed s) (hnew : s.boxes s.nextBox = []) (h : Carries s m c) :
    ∃ c', Carries s' m c' ∧ (c' = c ∨ c.Step c') := by
  cases hr with
  | same hb hrun ht =>
      rcases ht with ⟨evs, hevs, hall⟩
      rcases histories_of_carries (m := m) hall with ⟨hpush, hhand⟩
      refine ⟨c, carries_still hevs hpush hhand (hrun m) ?_ h, Or.inl rfl⟩
      rcases hb with hb | hb
      · rw [hb]
      · -- Opening a mailbox that was never used changes nothing.
        rw [hb]
        by_cases hm : m = s.nextBox
        · rw [hm, Function.update_self, hnew]
        · rw [Function.update_of_ne hm]
  | push k m' e from? hm hb hrun ht =>
      by_cases hmm : m' = m
      · subst hmm
        exact ⟨_, arrive_carries hb hrun ht h, Or.inr (.arrive e)⟩
      · refine ⟨c, carries_still ht ?_ rfl ?_ ?_ h, Or.inl rfl⟩
        · simp only [List.filterMap_cons, Event.pushed?, if_neg hmm, List.filterMap_nil]
        · rw [System.inTransit, hrun]
          rfl
        · rw [hb, Function.update_of_ne (fun h => hmm h.symm)]
  | claim i t e rest hi hm hb hrun ht =>
      by_cases hmm : t.mb = m
      · subst hmm
        rcases claim_carries hi (single_consumer hbal hreg hback hi) hm hb hrun ht h with
          ⟨hq, hc, h'⟩
        exact ⟨_, h', Or.inr (.claim e rest hq hc)⟩
      · have ht' : s'.trace = s.trace ++ [] := by rw [ht, List.append_nil]
        refine ⟨c, carries_still ht' rfl rfl (inTransit_other hmm hi hrun) ?_ h, Or.inl rfl⟩
        rw [hb, Function.update_of_ne (fun h => hmm h.symm)]
  | hand i t e hi hb hrun ht =>
      by_cases hmm : t.mb = m
      · subst hmm
        rcases hand_carries hi hb hrun ht h with ⟨hc, h'⟩
        exact ⟨_, h', Or.inr (.hand e hc)⟩
      · refine ⟨c, carries_still ht rfl ?_ (inTransit_other hmm hi hrun) (by rw [hb]) h, Or.inl rfl⟩
        simp only [List.filterMap_cons, Event.handed?, if_neg hmm, List.filterMap_nil]

end Carries

/-- A mailbox that was never opened is empty. -/
def Unopened (s : System π) : Prop :=
  ∀ m, s.nextBox ≤ m → s.boxes m = []

theorem step_unopened {cfg : Config} {s s' : System π} {a : Action π}
    (hs : step cfg s a = some s') (hreg : Registered s) (h : Unopened s) : Unopened s' := by
  intro m hm
  have hle := (step_mboxes hs hreg).1
  have hold : s.boxes m = [] := h m (Nat.le_trans hle hm)
  cases mailRule_of_stepRule (stepRule_of_step hs).2 with
  | same hb =>
      rcases hb with hb | hb
      · rw [hb, hold]
      · rw [hb]
        by_cases hmn : m = s.nextBox
        · rw [hmn, Function.update_self]
        · rw [Function.update_of_ne hmn, hold]
  | push k m' e from? hbox hb =>
      have hlt := mbox_lt hreg.toFiled hbox
      have hne : m ≠ m' := Nat.ne_of_gt (Nat.lt_of_lt_of_le hlt (Nat.le_trans hle hm))
      rw [hb, Function.update_of_ne hne, hold]
  | claim i t e rest hi hbox hb =>
      have hne : m ≠ t.mb := by
        intro h
        rw [← h, hold] at hbox
        exact absurd hbox (by simp only [List.nil_eq, reduceCtorEq, not_false_eq_true])
      rw [hb, Function.update_of_ne hne, hold]
  | hand i t e hi hb => rw [hb, hold]

/-- All that delivery rests on. -/
structure Delivers (s : System π) : Prop where
  registered : Registered s
  balanced : Balanced s
  backed : Backed s
  unopened : Unopened s
  carries : ∀ m, ∃ c, Carries s m c

theorem step_delivers {cfg : Config} {s s' : System π} {a : Action π}
    (hs : step cfg s a = some s') (h : Delivers s) : Delivers s' where
  registered := step_registered hs h.registered
  balanced := step_balanced hs h.balanced
  backed := step_backed hs h.registered h.backed
  unopened := step_unopened hs h.registered h.unopened
  carries m := by
    rcases h.carries m with ⟨c, hc⟩
    rcases mailRule_carries (mailRule_of_stepRule (stepRule_of_step hs).2) h.balanced h.registered
      h.backed (h.unopened s.nextBox (Nat.le_refl _)) hc with ⟨c', hc', _⟩
    exact ⟨c', hc'⟩

theorem reach_delivers {cfg : Config} {name : String} {C : System π → Action π → Prop}
    {s : System π} (h : (context cfg name).Reach C s) : Delivers s := by
  refine always Delivers
    { registered := registered_constructed name
      balanced := fun _ => rfl
      backed := backed_constructed name
      unopened := fun _ _ => rfl
      carries := fun m => ⟨Channel.start [], ⟨rfl, rfl, rfl, rfl⟩⟩ }
    (fun s r h => ?_) (fun _ _ _ => step_delivers) h
  exact
    { h with
      registered := registered_usrRoot r h.registered
      carries := fun m => by
        rcases h.carries m with ⟨c, hc⟩
        exact ⟨c, ⟨hc.arrived, hc.handed, hc.claimed, hc.queued⟩⟩ }

/-- Nothing is lost between a mailbox and `action_handle`. -/
theorem mailbox_exact {cfg : Config} {name : String} {C : System π → Action π → Prop}
    {s : System π} (h : (context cfg name).Reach C s) (m : MailboxPtr) :
    s.handedFrom m ++ s.inTransit m ++ s.boxes m = s.pushedTo m := by
  rcases (reach_delivers h).carries m with ⟨c, hc⟩
  rw [hc.handed, hc.claimed, hc.queued, hc.arrived, c.exact]

theorem push_arrives (s : System π) (m : MailboxPtr) (e : Stored π) :
    Arrives s (s.push m e none) m e where
  box := Function.update_self ..
  pushed := by
    refine List.filterMap_append.trans (congrArg (s.pushedTo m ++ ·) ?_)
    simp only [List.filterMap_cons, List.filterMap_nil, Event.pushed?, if_true]
  others n hn := by
    refine ⟨Function.update_of_ne hn .., List.filterMap_append.trans ?_⟩
    simp only [List.filterMap_cons, List.filterMap_nil, Event.pushed?, if_neg (Ne.symm hn),
      List.append_nil]
    rfl
  rest := rfl

/-- What a send through a `user_context` comes to. -/
theorem userCall_send {cfg : Config} {s s' : System π} {uc : UserContext} {target : ActorAddress}
    {e : Envelope π} (hs : step cfg s (.userCall uc (.sendEnvelope target e)) = some s') :
    s' = s ∧ (s.shutdown.begun = true ∨ s.mboxes.lookup target.id = none) ∨
      s' = s.crash ∧ e.payload = none ∨
      ∃ m e', s.mboxes.lookup target.id = some m ∧ e'.1 = ⟨e.payload, uc.addr⟩ ∧
        s' = s.push m e' none := by
  unfold step at hs
  simp only [Option.ite_none_right_eq_some] at hs
  have hs := hs.2.2
  unfold userCall at hs
  cases hstop : s.shutdown.begun with
  | true =>
      simp only [UserContext.forward, hstop, if_true, Option.some.injEq] at hs
      exact Or.inl ⟨hs.symm, Or.inl rfl⟩
  | false =>
      simp only [UserContext.forward, hstop, Bool.false_eq_true, if_false, UserCall.copied,
        contextCall] at hs
      -- The envelope is copied first, and an empty payload cannot be.
      by_cases hp : e.payload.isSome = true
      · rw [if_pos hp, Option.ite_none_right_eq_some, Option.some.injEq] at hs
        have hs := hs.2
        unfold System.sendEnvelope at hs
        cases hm : s.mboxes.lookup target.id with
        | none =>
            rw [hm] at hs
            exact Or.inl ⟨hs.symm, Or.inr rfl⟩
        | some m =>
            simp only [hm, Envelope.copy?, hp, dite_true] at hs
            exact Or.inr (Or.inr ⟨m, _, rfl, rfl, hs.symm⟩)
      · rw [if_neg hp, Option.some.injEq] at hs
        exact Or.inr (Or.inl ⟨hs.symm, by simpa using hp⟩)

/-- What a publish through a `user_context` comes to. -/
theorem userCall_publish {cfg : Config} {s s' : System π} {uc : UserContext} {x : String}
    {e : Envelope π} (hs : step cfg s (.userCall uc (.publishToExchange x e)) = some s') :
    s' = s ∧ s.exchanges.lookup x = none ∨ s' = s.crash ∧ e.payload = none ∨
      ∃ ex e', s.exchanges.lookup x = some ex ∧ e'.1 = ⟨e.payload, uc.addr⟩ ∧
        s' = { s with
          exchanges := s.exchanges.insert x { ex with pub := ex.pub ++ [e'] }
          trace := s.trace ++ [.published x e'] } := by
  unfold step at hs
  simp only [Option.ite_none_right_eq_some] at hs
  have hs := hs.2.2
  unfold userCall at hs
  simp only [UserContext.forward, UserCall.copied, contextCall] at hs
  by_cases hp : e.payload.isSome = true
  · rw [if_pos hp, Option.some.injEq] at hs
    unfold System.publishToExchange at hs
    cases hx : s.exchanges.lookup x with
    | none =>
        rw [hx] at hs
        exact Or.inl ⟨hs.symm, rfl⟩
    | some ex =>
        simp only [hx, Envelope.copy?, hp, dite_true] at hs
        exact Or.inr (Or.inr ⟨ex, _, rfl, rfl, hs.symm⟩)
  · rw [if_neg hp, Option.some.injEq] at hs
    exact Or.inr (Or.inl ⟨hs.symm, by simpa using hp⟩)

/-- Exactly-once delivery in order of arrival. What was handed to
    `action_handle` from a mailbox, then the envelope a thread has popped and
    is about to hand over, then the content, is what was pushed. An envelope
    sent or published through a `user_context` enters a queue with its payload
    and the address of the context, which is the registered address of the
    context's actor, and the fan-out pushes what was published. A send does
    nothing else. -/
theorem fifo_delivery {cfg : Config} {name : String} {s : System π}
    (h : (context cfg name).Reach Machine.free s) :
    (∀ m, s.handedFrom m ++ s.inTransit m ++ s.boxes m = s.pushedTo m ∧
      (s.inTransit m).length ≤ 1) ∧
    (∀ r ∈ s.registrations, r.descr.usrcont.addr = r.descr.address) ∧
    (∀ uc target e s', step cfg s (.userCall uc (.sendEnvelope target e)) = some s' →
      s' = s ∧ (s.shutdown.begun = true ∨ s.mboxes.lookup target.id = none) ∨
        s' = s.crash ∧ e.payload = none ∨
        ∃ m e', s.mboxes.lookup target.id = some m ∧ e'.1 = ⟨e.payload, uc.addr⟩ ∧
          s' = s.push m e' none ∧ Arrives s s' m e') ∧
    (∀ uc x e s', step cfg s (.userCall uc (.publishToExchange x e)) = some s' →
      s' = s ∧ s.exchanges.lookup x = none ∨ s' = s.crash ∧ e.payload = none ∨
        ∃ ex e', s.exchanges.lookup x = some ex ∧ e'.1 = ⟨e.payload, uc.addr⟩ ∧
          s' = { s with
            exchanges := s.exchanges.insert x { ex with pub := ex.pub ++ [e'] }
            trace := s.trace ++ [.published x e'] }) ∧
    ∀ m e x, Event.pushed m e (some x) ∈ s.trace → Event.published x e ∈ s.trace := by
  have hd : Delivers s := reach_delivers h
  refine ⟨fun m => ?_, fun r hr => ?_, fun _ _ _ _ hs => ?_,
    fun _ _ _ _ => userCall_publish, (reach_relayed h).fanned⟩
  -- The mailbox is a channel: what was handed on, what is claimed and what is
  -- queued, in this order, is what arrived.
  · rcases hd.carries m with ⟨c, hc⟩
    refine ⟨?_, ?_⟩
    · exact mailbox_exact h m
    · rw [hc.claimed]
      cases c.claimed with
      | none => exact Nat.zero_le 1
      | some e => exact Nat.le_refl 1
  · exact (hd.registered.records r hr).usrcont
  · refine (userCall_send hs).imp_right (Or.imp_right ?_)
    rintro ⟨m, e', hm, he, rfl⟩
    exact ⟨m, e', hm, he, rfl, push_arrives _ m e'⟩

/-- Two messages to one actor, sent through the contexts of others; the first
    is handled, the second is about to be. -/
def drainRun : List (Action Nat) :=
  register "a" .null 3 ++ runStarts 4 ++
    [.userCall ⟨⟨⟨4⟩, "/root/usr/a"⟩, "ctx/#usercontext#4"⟩ (.sendEnvelope ⟨⟨4⟩, ""⟩ ⟨some 0, .null⟩)] ++
    scanAndLock ⟨4⟩ ++
    [.worker .recheck, .worker .post, .pick, .task 0 .entry, .task 0 .tryPop, .task 0 .callHandler,
      .call (.sendEnvelope ⟨⟨4⟩, "/root/usr/a"⟩ ⟨some 1, .null⟩), .task 0 (.handlerThrow "failed")]

theorem fifo_delivery_drainRun :
    ((context (.plain 1) "ctx").after drainRun).handedFrom 3 ++
          ((context (.plain 1) "ctx").after drainRun).inTransit 3 ++
        ((context (.plain 1) "ctx").after drainRun).boxes 3 =
      ((context (.plain 1) "ctx").after drainRun).pushedTo 3 ∧
    (((context (.plain 1) "ctx").after drainRun).inTransit 3).length ≤ 1 :=
  (fifo_delivery (Machine.reach_after drainRun)).1 3

example : (((context (.plain 1) "ctx").after drainRun).handedFrom 3).map (fun e => e.1.sender) =
      [⟨⟨4⟩, "/root/usr/a"⟩] ∧
    (((context (.plain 1) "ctx").after drainRun).pushedTo 3).length = 2 := by decide

end Yaaf
