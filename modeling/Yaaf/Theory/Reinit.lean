import Yaaf.Theory.Once
import Yaaf.Theory.Supervision

/-!
# What REINIT Leaves

A supervisor that answers `REINIT` asks for the failed actor to be started again,
and it is: `on_actor_error` calls its `on_start`. Before that it stops the actor,
like for `STOP`, and a stop takes the actor out of `_actors` and `_mboxes`. Nobody
puts it back. So `on_start` runs on an object that the context no longer knows, and
so does whatever the object sets going there.

The mailbox is gone for good, since every registration makes a new one. The id is
not used again before the counter has come around.

## Main definitions

* `Struck`: A mailbox that is in the maps no more.
* `Spent`: An id that was registered and is not.
* `Forgotten`: What the context no longer does for an actor.

## Theorems

* `path_struck`, `path_spent`: Neither comes back.
* `reinit_forgets_actor`: What is lost from the moment of the stop on.
-/

namespace Yaaf

open Pruning Machine

variable {π : Type}

/-- A mailbox that was made for an actor and is in the maps no more. -/
structure Struck (s : System π) (m : MailboxPtr) : Prop where
  old : m < s.nextBox
  gone : ∀ k, s.mboxes.lookup k ≠ some m

/-- An id that was registered and is not. -/
structure Spent (s : System π) (k : IdT) : Prop where
  used : k ∈ s.registeredIds
  gone : s.live k = none

/-- What the context no longer does for the actor that was registered under this
    address: find it, take a message for it, hand it one, or stop it. -/
structure Forgotten (cfg : Config) (s : System π) (addr : ActorAddress) : Prop where
  actor : s.getActor addr = none
  address : ∀ n, s.getAddress n ≠ addr
  send : ∀ e, s.sendEnvelope addr e = s
  dispatch : ∀ m, (addr.id, m) ∉ s.mailboxPairs
  sweep : ∀ s', step cfg s (.stop .sweep) = some s' →
    ∃ evs, s'.trace = s.trace ++ evs ∧ ∀ a, .stopped addr.id a ∉ evs

section Reinit

variable {cfg : Config} {name : String} {s s' u : System π}

theorem step_struck {a : Action π} (hs : step cfg s a = some s') (hreg : Registered s)
    {m : MailboxPtr} (h : Struck s m) : Struck s' m := by
  rcases step_mboxes hs hreg with ⟨hle, hmboxes⟩
  refine ⟨Nat.lt_of_lt_of_le h.old hle, fun k hk => ?_⟩
  rcases hmboxes k m hk with hk | hk
  · exact h.gone k hk
  · exact Nat.ne_of_lt h.old hk

/-- No mailbox comes back. -/
theorem path_struck (hp : (context cfg name).Path free s u) (hreg : Registered s)
    {m : MailboxPtr} (h : Struck s m) : Struck u m :=
  (path_invariant (fun s => Registered s ∧ Struck s m)
    (fun _ _ _ _ hs h => ⟨step_registered hs h.1, step_struck hs h.1 h.2⟩) hp ⟨hreg, h⟩).2

theorem step_spent {a : Action π} (hs : step cfg s a = some s') (hagrees : Agrees s)
    (hfew : s.fewCalls) {k : IdT} (h : Spent s k) : Spent s' k := by
  have hreg := hagrees.registered
  refine ⟨?_, ?_⟩
  · rcases List.mem_map.mp h.used with ⟨r, hr, hid⟩
    exact List.mem_map.mpr ⟨r, step_registrations hs hreg r hr, hid⟩
  · cases populationRule_of_step hs hreg with
    | kept hsame => rw [samePopulation_live hsame, h.gone]
    | insert id d n hx ha hd hsame =>
        have hne : k ≠ id := by
          rintro rfl
          exact inserting_unused hagrees hfew ha h.used
        rw [samePopulation_live hsame, insertActor_live, if_neg hne, h.gone]
        rfl
    | stop addr r u hx ha hu hsame =>
        rw [samePopulation_live hsame]
        exact prunes_none (stopActorImplSafety_stops hu).1.prunes h.gone
    | clear hx hj hsame =>
        rw [samePopulation_live hsame]
        exact AList.lookup_empty k

/-- No id comes back, as long as the counter has not come around. -/
theorem path_spent (hp : (context cfg name).Path free s u) (hagrees : Agrees s) {k : IdT}
    (h : Spent s k) (hfew : u.fewCalls) : Spent u k := by
  have hall : Agrees u ∧ (u.fewCalls → Spent u k) :=
    path_invariant (fun s => Agrees s ∧ (s.fewCalls → Spent s k)) (fun v a w _ hs hv =>
      ⟨step_agrees hs hv.1, fun hfew =>
        have hfew' := fewCalls_of_step hs hv.1.registered hfew
        step_spent hs hv.1 hfew' (hv.2 hfew')⟩) hp ⟨hagrees, fun _ => h⟩
  exact hall.2 hfew

/-- An actor that is not registered is forgotten. -/
theorem forgotten_of_gone (hreg : Registered s) {addr : ActorAddress} (haddr : addr ≠ .null)
    (hgone : s.live addr.id = none) : Forgotten cfg s addr where
  actor := by
    unfold System.live at hgone
    unfold System.getActor
    rw [hgone]
    rfl
  address n hn := by
    unfold System.getAddress at hn
    split at hn
    · exact haddr hn.symm
    · rename_i d hd
      -- The description that was found is registered under the id of its address.
      rcases Option.bind_eq_some_iff.mp hd with ⟨k, _, hk⟩
      rw [live_address hreg.toFiled hk] at hn
      rw [← hn] at hgone
      exact absurd (hgone.symm.trans hk) (by simp only [reduceCtorEq, not_false_eq_true])
  send e := by
    unfold System.sendEnvelope
    rw [hreg.noEntry addr.id hgone]
  dispatch m hm := by
    rcases List.mem_map.mp hm with ⟨kv, hkv, heq⟩
    have hlookup : s.mboxes.lookup kv.1 = some kv.2 := AList.mem_lookup_iff.mpr hkv
    rw [(Prod.mk.inj heq).1, hreg.noEntry addr.id hgone] at hlookup
    exact absurd hlookup (by simp only [reduceCtorEq, not_false_eq_true])
  sweep s' hs := by
    simp only [step, stopStep, Option.ite_none_right_eq_some, Option.some.injEq] at hs
    rcases (stopAll_sweeps cfg s).trace with ⟨evs, hevs, hall⟩
    refine ⟨evs, by rw [← hs.2.2, ← hevs], fun a ha => ?_⟩
    rcases hall _ ha with ⟨k, d, hd, heq⟩
    rw [← (Event.stopped.inj heq).1, hgone] at hd
    exact absurd hd (by simp only [reduceCtorEq, not_false_eq_true])

/-- What the decision for `REINIT` does: the actor is stopped, and then its
    `on_start` is called. -/
theorem decide_reinit {i : Nat} {t : ApplyTask} {f throws : Bool}
    (hi : s.running[i]? = some (.applying t (.deciding f .reinit)))
    (hs : step cfg s (.task i (.decide throws)) = some s') :
    ∃ u, s.stopActorImplSafety cfg t.target.address .except = some u ∧
      s' = ((u.emit (.failureStopped t f)).emit (.restartBegin t.target.actor t.mb)).moveTo i t
        (.restarting f) := by
  have hstep := hs
  simp only [step, taskStep, hi, applyStep, onActorError, Option.ite_none_right_eq_some,
    Option.map_eq_some_iff] at hstep
  rcases hstep with ⟨_, _, u, hu, hs'⟩
  exact ⟨u, hu, hs'.symm⟩

end Reinit

/-- From the moment a supervisor's `REINIT` is carried out, the actor's mailbox is
    in the maps no more, in every state that any run leads to, those after
    `on_actor_error` has returned among them. As long as the id counter has not
    come around, nothing of what a registered actor has comes back. -/
theorem reinit_forgets_actor {cfg : Config} {name : String} {s s' : System π}
    (h : (context cfg name).Reach free s) {i : Nat} {t : ApplyTask} {f throws : Bool}
    (hi : s.running[i]? = some (.applying t (.deciding f .reinit)))
    (hs : step cfg s (.task i (.decide throws)) = some s') :
    s'.running = s.running.set i (.applying t (.restarting f)) ∧
      .restartBegin t.target.actor t.mb ∈ s'.trace ∧
      ∀ u, (context cfg name).Path free s' u →
        Struck u t.mb ∧ (u.fewCalls → Forgotten cfg u t.target.address) := by
  rcases decide_reinit hi hs with ⟨v, hv, hs'⟩
  rcases stopActorImplSafety_stops hv with ⟨hstops, hgone⟩
  have hreg := reach_registered h
  have hagrees' : Agrees s' := step_agrees hs (reach_agrees h)
  have hreg' := hagrees'.registered
  -- The registration that the task was posted for.
  rcases reach_backed h (.apply t) (Or.inr (Or.inr ⟨_, List.mem_of_getElem? hi, rfl⟩)) with
    ⟨r, hr, hrm, hrd⟩
  have hr' := step_registrations hs hreg r hr
  have haddress : r.descr.address = t.target.address := by rw [hrd]
  have hgone' : s'.live r.descr.address.id = none := by
    rw [haddress, hs']
    exact hgone
  have hrunning : v.running = s.running := by rw [hstops.rest]
  refine ⟨?_, ?_, fun u hu => ⟨?_, fun hfew => ?_⟩⟩
  · rw [hs', ← hrunning]
    rfl
  · rw [hs']
    exact List.mem_append_right _ List.mem_cons_self
  · rw [← hrm]
    exact path_struck hu hreg' ⟨hreg'.fresh r hr', mbox_gone hreg'.toFiled hr' hgone'⟩
  · have hspent : Spent u r.descr.address.id :=
      path_spent hu hagrees' ⟨List.mem_map.mpr ⟨r, hr', rfl⟩, hgone'⟩ hfew
    have hagrees : Agrees u := path_invariant Agrees (fun _ _ _ _ => step_agrees) hu hagrees'
    rw [haddress] at hspent
    refine forgotten_of_gone hagrees.registered (fun hnull => ?_) hspent.gone
    -- Id zero is never given out.
    rcases called_of_mem hagrees.registered.toFiled (List.mem_append_right _ hspent.used) with
      ⟨n, hn⟩
    have hpos := ((numbered_ids hagrees.numbered hfew).1 _ hn).1
    rw [hnull] at hpos
    exact Nat.lt_irrefl 0 hpos

/-- The supervisor of the actor `a` decides for `REINIT`. -/
def reinitRun : List (Action Nat) :=
  failRun ++ [.task 0 (.childError (some .reinit))]

/-- The decision is carried out, and `on_start` returns. -/
def reinitDone : List (Action Nat) :=
  [.task 0 (.decide false), .task 0 (.restartReturn false)]

theorem reinit_forgets_actor_restarted :
    Struck ((context (.plain 2) "ctx").onward
      ((context (.plain 2) "ctx").after (reinitRun ++ reinitDone.take 1)) (reinitDone.drop 1)) 3 := by
  have hs : step (.plain 2) ((context (.plain 2) "ctx").after reinitRun) (.task 0 (.decide false)) =
      some ((context (.plain 2) "ctx").after (reinitRun ++ reinitDone.take 1)) := rfl
  have hi : ((context (.plain 2) "ctx").after reinitRun).running[0]? =
      some (.applying failedTask (.deciding true .reinit)) := rfl
  exact ((reinit_forgets_actor (reach_after reinitRun) hi hs).2.2 _ (path_onward _ _)).1

/-- After that nothing finds the actor any more. -/
theorem reinit_forgets_actor_lost :
    ((context (.plain 2) "ctx").run ((context (.plain 2) "ctx").after reinitRun) reinitDone).isSome =
        true ∧
      ((context (.plain 2) "ctx").after reinitRun).getActor ⟨⟨4⟩, "/root/usr/a"⟩ = some 3 ∧
      ((context (.plain 2) "ctx").after (reinitRun ++ reinitDone)).getActor
        ⟨⟨4⟩, "/root/usr/a"⟩ = none ∧
      ((context (.plain 2) "ctx").after (reinitRun ++ reinitDone)).getAddress "/root/usr/a" = .null ∧
      ((context (.plain 2) "ctx").after (reinitRun ++ reinitDone)).mboxes.lookup ⟨4⟩ = none :=
  ⟨by decide, by decide, by decide, by decide, by decide⟩

end Yaaf
