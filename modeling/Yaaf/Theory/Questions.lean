import Yaaf.Theory.Escalation
import Yaaf.Theory.Standing

/-!
# Questions

After a failure the thread of the task asks. The parent comes first, with the pointer
that the task was posted with. If it answers `ESCALATE`, the loop begins, and its cursor
is where it was: at the failed actor. So the first thing the loop does is to look the
parent up and ask it again, about the same child.

`Inquires` says what has been asked on the way to a position. What should have been
asked is `AskedOnce`: everybody on the way up once, and about its own child.

## Main definitions

* `questions`: What a thread has asked.
* `AskedUp`, `AskedOnce`: Everybody on the way up is asked once.
* `Inquires`: What has been asked where.

## Theorems

* `asks_of_turn`: The steps of a thread after a failure.
* `inquires_of_path`: What has been asked, over a whole run.
* `supervisors_asked_once`: When everybody is asked once.
-/

namespace Yaaf

open Machine

variable {π : Type}

/-- What a thread has asked. -/
def questions (own : List (Turn (System π) TaskStep)) : List Question :=
  (own.flatMap recorded).filterMap Event.question

section Runs

variable {cfg : Config} {name : String} {t : ApplyTask} {p q : Focus (System π) TaskStep}

/-- A step of the followed thread after a failure. -/
theorem asks_of_turn {a : Action π} {k : TaskStep} {pc : ApplyPc π}
    (hs : (followed cfg name).step p a = some q) (ha : userPool.turn a = some (p.place, k))
    (hx : userPool.slot p = some (.applying t pc)) (hpc : pc.failed = true) :
    ∃ qs pc', userPool.slot q = some (.applying t pc') ∧
      Asks p.state q.state t pc k qs (some pc') ∧ questions q.own = questions p.own ++ qs := by
  rcases asks_of_applyStep hx hpc (turn_step hs ha hx).2.2 with
    ⟨qs, out, hasks, hlands, evs, hevs, hqs⟩
  cases out with
  | none => exact absurd hlands (not_erased hs ha hx)
  | some pc' =>
      refine ⟨qs, pc', slot_of_set hs ha hx hlands, hasks, ?_⟩
      have hrec : recorded ⟨k, p.state, q.state⟩ = evs := congrArg Prod.snd (did_append hevs)
      unfold questions
      rw [own_of_turn hs ha, List.flatMap_append, List.filterMap_append, List.flatMap_singleton,
        hrec, hqs]

/-- An invariant of a thread after a failure. -/
theorem failed_rule {C : Focus (System π) TaskStep → Action π → Prop}
    (J : Focus (System π) TaskStep → ApplyPc π → Prop)
    (hown : ∀ p a q k pc pc' qs, C p a → (followed cfg name).step p a = some q →
      userPool.turn a = some (p.place, k) → userPool.slot p = some (.applying t pc) →
        Asks p.state q.state t pc k qs (some pc') → questions q.own = questions p.own ++ qs →
          J p pc → J q pc')
    (hother : ∀ p a q pc, C p a → (followed cfg name).step p a = some q →
      userPool.owner a ≠ some p.place → userPool.slot p = some (.applying t pc) →
        J p pc → J q pc)
    (h : (followed cfg name).Path C p q) {pc : ApplyPc π}
    (hx : userPool.slot p = some (.applying t pc)) (hpc : pc.failed = true) (hJ : J p pc) :
    ∃ pc', userPool.slot q = some (.applying t pc') ∧ pc'.failed = true ∧ J q pc' := by
  have hrule : ∃ y, userPool.slot q = some y ∧
      ∃ pc', y = .applying t pc' ∧ pc'.failed = true ∧ J q pc' := by
    refine followed_rule (fun p y => ∃ pc, y = .applying t pc ∧ pc.failed = true ∧ J p pc)
      ?_ ?_ h hx ⟨pc, rfl, hpc, hJ⟩
    · rintro p a q x y k hc hs ha hx hy ⟨pc, rfl, hpc, hJ⟩
      rcases asks_of_turn hs ha hx hpc with ⟨qs, pc', hy', hasks, hqs⟩
      rw [hy, Option.some.injEq] at hy'
      exact ⟨pc', hy', failed_of_asks hasks hpc, hown p a q k pc pc' qs hc hs ha hx hasks hqs hJ⟩
    · rintro p a q x hc hs ha hx _ ⟨pc, rfl, hpc, hJ⟩
      exact ⟨pc, rfl, hpc, hother p a q pc hc hs ha hx hJ⟩
  rcases hrule with ⟨_, hy, pc', rfl, hpc', hJ'⟩
  exact ⟨pc', hy, hpc', hJ'⟩

end Runs

/-- Everybody on the way up is asked once, `whom` about `d` to begin with: an `ESCALATE`
    leads on to whoever is above, about the one that answered. -/
inductive AskedUp (s : System π) : ActorPtr → Description → List Question → Prop
  | answers {whom : ActorPtr} {d : Description} {answer : ActorActionWhenError}
      (h : answer ≠ .escalate) : AskedUp s whom d [⟨whom, d.address, answer⟩]
  | top {whom : ActorPtr} {d up : Description} (hup : d.above.bind s.live = some up)
      (habove : up.above = none) : AskedUp s whom d [⟨whom, d.address, .escalate⟩]
  | passes {whom : ActorPtr} {d up upper : Description} {qs : List Question}
      (hup : d.above.bind s.live = some up) (hupper : up.above.bind s.live = some upper)
      (h : AskedUp s upper.actor up qs) : AskedUp s whom d (⟨whom, d.address, .escalate⟩ :: qs)

/-- Each supervisor is asked once about a failure, in order from the parent upward, each
    about its own child, and exactly if those below it answered `ESCALATE`. -/
def AskedOnce (s : System π) (t : ApplyTask) (qs : List Question) : Prop :=
  match t.parent with
  | none => qs = []
  | some parent => AskedUp s parent t.target qs

/-- What a thread has asked where. Once it has gone around the loop, it has asked about
    the failed actor twice. -/
inductive Inquires (t : ApplyTask) : ApplyPc π → List Question → Prop
  | caught (f : Bool) : Inquires t (.caught f) []
  | locking (f : Bool) (parent : ActorPtr) (hparent : t.parent = some parent) :
      Inquires t (.locking f) [⟨parent, t.target.address, .escalate⟩]
  | climbing (f : Bool) (parent : ActorPtr) (hparent : t.parent = some parent) :
      Inquires t (.escalating f t.target) [⟨parent, t.target.address, .escalate⟩]
  | deciding (f : Bool) (parent : ActorPtr) (answer : ActorActionWhenError)
      (hparent : t.parent = some parent) (hanswer : answer ≠ .escalate) :
      Inquires t (.deciding f answer) [⟨parent, t.target.address, answer⟩]
  | restarting (f : Bool) (parent : ActorPtr) (answer : ActorActionWhenError)
      (hparent : t.parent = some parent) (hanswer : answer ≠ .escalate) :
      Inquires t (.restarting f) [⟨parent, t.target.address, answer⟩]
  | again (pc : ApplyPc π) (parent whom : ActorPtr) (answer : ActorActionWhenError)
      (qs : List Question) (hparent : t.parent = some parent) (hpc : ∀ f, pc ≠ .caught f) :
      Inquires t pc
        (⟨parent, t.target.address, .escalate⟩ :: ⟨whom, t.target.address, answer⟩ :: qs)

section Inquiry

variable {cfg : Config} {name : String} {s s' : System π} {t : ApplyTask}

/-- What one step adds to the questions. -/
theorem inquires_of_asks {pc pc' : ApplyPc π} {k : TaskStep} {qs qs' : List Question}
    (hasks : Asks s s' t pc k qs' (some pc')) (h : Inquires t pc qs) :
    Inquires t pc' (qs ++ qs') := by
  cases hasks with
  | halts _ _ hf hk =>
      rw [List.append_nil]
      exact h
  | first f parent answer hparent =>
      cases h with
      | caught f =>
          rw [List.nil_append]
          split
          · rename_i hanswer
            rw [hanswer]
            exact .locking f parent hparent
          · rename_i hanswer
            exact .deciding f parent answer hparent hanswer
      | again _ _ _ _ _ _ hpc => exact absurd rfl (hpc f)
  | locks f =>
      rw [List.append_nil]
      cases h with
      | locking f parent hparent => exact .climbing f parent hparent
      | again _ parent whom answer qs hparent hpc =>
          exact .again _ parent whom answer qs hparent nofun
  | next f d up answer hup =>
      have hcaught : ∀ g, (if answer = .escalate then ApplyPc.escalating f up
          else .deciding f answer) ≠ (.caught g : ApplyPc π) := by
        intro g
        split <;> exact nofun
      cases h with
      | climbing f parent hparent =>
          -- The cursor is still at the failed actor.
          exact .again _ parent up.actor answer [] hparent hcaught
      | again _ parent whom answer qs hparent hpc =>
          exact .again _ parent whom answer _ hparent hcaught
  | fails f d answer hf =>
      rw [List.append_nil]
      exact h
  | restarts f throws =>
      rw [List.append_nil]
      cases h with
      | deciding f parent answer hparent hanswer => exact .restarting f parent _ hparent hanswer
      | again _ parent whom answer qs hparent hpc =>
          exact .again _ parent whom answer qs hparent nofun

/-- What has been asked, over a whole run. -/
theorem inquires_of_path {C : Focus (System π) TaskStep → Action π → Prop}
    {p : Focus (System π) TaskStep} {i : Nat} {f : Bool}
    (hi : s.running[i]? = some (.applying t (.caught f)))
    (h : (followed cfg name).Path C ⟨s, i, []⟩ p) :
    ∃ pc, userPool.slot p = some (.applying t pc) ∧ pc.failed = true ∧
      Inquires t pc (questions p.own) := by
  refine failed_rule (fun p pc => Inquires t pc (questions p.own)) ?_ ?_ h hi rfl (.caught f)
  · intro p a q k pc pc' qs _ _ _ _ hasks hqs hJ
    rw [hqs]
    exact inquires_of_asks hasks hJ
  · intro p a q pc _ hs ha _ hJ
    rw [own_of_other hs ha]
    exact hJ

/-- The first question stays the first. -/
theorem questions_grow {C : Focus (System π) TaskStep → Action π → Prop}
    {p q : Focus (System π) TaskStep} (h : (followed cfg name).Path C p q) :
    questions p.own <+: questions q.own := by
  rcases own_grows h with ⟨later, hlater⟩
  unfold questions
  rw [← hlater, List.flatMap_append, List.filterMap_append]
  exact List.prefix_append _ _

/-- Nobody is asked about what is not its child. -/
theorem askedUp_head {whom : ActorPtr} {d : Description} {q : Question} {qs : List Question}
    (h : AskedUp s whom d (q :: qs)) : q.whom = whom ∧ q.child = d.address := by
  cases h with
  | answers _ => exact ⟨rfl, rfl⟩
  | top _ _ => exact ⟨rfl, rfl⟩
  | passes _ _ _ => exact ⟨rfl, rfl⟩

/-- So nobody is asked about one actor twice, unless it is its own parent. -/
theorem askedUp_once (hreg : Filed s) {whom : ActorPtr} {d : Description} {q q' : Question}
    {qs : List Question} (hself : d.parent ≠ d.address.id) (hq' : q'.child = d.address) :
    ¬ AskedUp s whom d (q :: q' :: qs) := by
  intro h
  cases h with
  | @passes _ _ up upper _ hup hupper h =>
      have hchild : q'.child = up.address := (askedUp_head h).2
      rcases Option.bind_eq_some_iff.mp hup with ⟨k, hk, hlive⟩
      have hkp : d.parent = k := by
        unfold Description.above at hk
        rw [Option.ite_none_left_eq_some, Option.some.injEq] at hk
        exact hk.2
      have hid : up.address.id = k := by rw [live_address hreg hlive]
      refine hself ?_
      rw [hkp, ← hid, ← hchild, hq']

end Inquiry

/-- Each supervisor is asked once per failure exactly if the parent, when it is asked
    first, does not answer `ESCALATE`: the loop begins with the failed actor, and so with
    its parent, once more. About the failure of a parentless actor nobody is asked. The
    last hypothesis says that there is a way up: the actor is not its own parent. -/
theorem supervisors_asked_once {cfg : Config} {name : String} {s : System π}
    (h : (context cfg name).Reach free s) {i : Nat} {t : ApplyTask} {f : Bool}
    (hi : s.running[i]? = some (.applying t (.caught f)))
    (hself : t.target.parent ≠ t.target.address.id) :
    (t.parent = none → ∀ p, (followed cfg name).Path free ⟨s, i, []⟩ p →
      AskedOnce s t (questions p.own) ∧
        ∀ k s', step cfg p.state (.task p.place k) = some s' → Records p.state s' []) ∧
    ∀ v w p answer, (followed cfg name).Path free ⟨s, i, []⟩ v →
      (followed cfg name).step v (.task v.place (.childError (some answer))) = some w →
        (followed cfg name).Path free w p →
          ∀ g action, userPool.slot p = some (.applying t (.deciding g action)) →
            (AskedOnce s t (questions p.own) ↔ answer ≠ .escalate) := by
  refine ⟨fun hparent p hp => ?_, fun v w p answer hv hs hp g action hx => ?_⟩
  · rcases inquires_of_path hi hp with ⟨pc, hx, hpc, hinq⟩
    generalize hqs : questions p.own = qs at hinq
    cases hinq with
    | caught g =>
        refine ⟨by unfold AskedOnce; rw [hparent], fun k s' hs => ?_⟩
        rcases asks_of_applyStep hx hpc (applyStep_of_step hx hs).2 with ⟨qs, out, hasks, _, hrec⟩
        cases hasks with
        | ends _ _ => exact hrec
        | halts _ _ _ _ => exact hrec
        | first _ parent _ hsome =>
            rw [hparent] at hsome
            exact absurd hsome (by simp only [reduceCtorEq, not_false_eq_true])
    | locking _ _ hsome | climbing _ _ hsome | deciding _ _ _ hsome | restarting _ _ _ hsome
    | again _ _ _ _ _ hsome =>
        rw [hparent] at hsome
        exact absurd hsome (by simp only [reduceCtorEq, not_false_eq_true])
  · -- The first question, and all it is followed by.
    rcases inquires_of_path hi hv with ⟨pc, hxv, hpc, hinqv⟩
    rcases asks_of_turn hs rfl hxv hpc with ⟨qs, pc', _, hasks, hqs⟩
    have hpath := path_trans (Machine.Path.tail _ hv trivial hs) hp
    rcases inquires_of_path hi hpath with ⟨pc'', hx', _, hinq⟩
    rw [hx, Option.some.injEq, Running.applying.injEq] at hx'
    rcases questions_grow hp with ⟨later, hlater⟩
    cases hasks with
    | halts _ _ _ hk => exact absurd hk Bool.noConfusion
    | first e parent _ hparent =>
        have hnil : questions v.own = [] := by
          generalize questions v.own = qs at hinqv
          cases hinqv with
          | caught _ => rfl
          | again _ _ _ _ _ _ hpc => exact absurd rfl (hpc e)
        rw [hqs, hnil, List.nil_append, List.singleton_append] at hlater
        rw [← hlater] at hinq ⊢
        unfold AskedOnce
        rw [hparent]
        rw [← hx'.2] at hinq
        cases hinq with
        | deciding _ _ _ _ hanswer => exact iff_of_true (.answers hanswer) hanswer
        | again _ _ whom _ qs _ _ =>
            exact iff_of_false (askedUp_once (reach_registered h).toFiled hself rfl) fun hne =>
              hne rfl

/-- `c` has failed under `p`, and `p` is about to be asked. -/
def failureRun : List (Action Nat) :=
  escalateRun.take (escalateRun.length - 1)

/-- That state with the thread followed, and where answers lead from there. -/
def failureFocus (as : List (Action Nat)) : Focus (System Nat) TaskStep :=
  (followed (.plain 1) "ctx").onward ⟨(context (.plain 1) "ctx").after failureRun, 0, []⟩ as

theorem supervisors_asked_once_resume :
    AskedOnce ((context (.plain 1) "ctx").after failureRun) escalatedTask
      (questions (failureFocus [.task 0 (.childError (some .resume))]).own) := by
  have hs : (context (.plain 1) "ctx").Reach free ((context (.plain 1) "ctx").after failureRun) :=
    reach_after failureRun
  have hi : ((context (.plain 1) "ctx").after failureRun).running[0]? =
      some (.applying escalatedTask (.caught true)) := rfl
  exact ((supervisors_asked_once hs hi (by decide)).2 ⟨_, 0, []⟩
    (failureFocus [.task 0 (.childError (some .resume))]) _ .resume (Machine.Path.refl _) rfl
      (Machine.Path.refl _) true .resume rfl).mpr (by decide)

/-- `p` answers `ESCALATE`, and `RESUME` when it is asked again. -/
theorem supervisors_asked_once_twice : ∃ (s : System Nat) (t : ApplyTask)
    (p : Focus (System Nat) TaskStep), (context (.plain 1) "ctx").Reach free s ∧
      s.running[0]? = some (.applying t (.caught true)) ∧ t.parent = some 3 ∧
        t.target.parent ≠ t.target.address.id ∧
          (followed (.plain 1) "ctx").Path free ⟨s, 0, []⟩ p ∧
            userPool.slot p = some (.applying t (.deciding true .resume)) ∧
              questions p.own = [⟨3, t.target.address, .escalate⟩, ⟨3, t.target.address, .resume⟩] ∧
                ¬ AskedOnce s t (questions p.own) := by
  have hs : (context (.plain 1) "ctx").Reach free ((context (.plain 1) "ctx").after failureRun) :=
    reach_after failureRun
  refine ⟨_, escalatedTask, failureFocus [.task 0 (.childError (some .escalate)),
    .task 0 .lockShared, .task 0 (.escalate (some .resume))], hs, rfl, rfl, by decide,
      path_onward _ _, rfl, by decide, ?_⟩
  exact askedUp_once (reach_registered hs).toFiled (by decide) rfl

end Yaaf
