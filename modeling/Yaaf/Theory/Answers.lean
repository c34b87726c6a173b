import Yaaf.Theory.Addresses
import Yaaf.Theory.Resolution
import Yaaf.Theory.Verdicts

/-!
# Whom an Answer Hits

The `ESCALATE` loop has a cursor, and what it asks about is the actor at the
cursor. What becomes of the answer does not depend on the cursor at all:
`on_actor_error` is called with the description and the parent that the task
was posted with. The two agree as long as the cursor has not moved, that is for
the first two questions, both of which go to the parent of the failed actor and
are about the failed actor.

From the third question on, the cursor is above. That it is another actor than
the one that failed can be seen by its path name, which is a proper part of the
path name of every actor below. So the answer of anybody further up is given
about one actor and carried out on another.

## Main definitions

* `Hits`: The answer to a question is carried out on whom it was asked about.
* `CursorAt`: What has been asked where, and how far up the cursor is.

## Theorems

* `removes_inj`: What is removed tells where the removal began.
* `pathname_lt`: A parent has a shorter path name.
* `cursorAt_of_path`: How far up the cursor is, over a whole run.
* `answers_hit`: When an answer hits the child that was asked about.
-/

namespace Yaaf

open Machine Pruning

variable {π : Type}

/-- The answer to a question is carried out on the child that the question was about: after
    `STOP` it goes, with all that is below, and after `RESUME` whoever answered is told that
    the child failed, and nobody goes. -/
def Hits (s s' : System π) (i : Nat) (t : ApplyTask) (f : Bool) (q : Question) : Prop :=
  (q.answer = .stop → ∃ u, Removes .except s u q.child.id ∧
    s' = (u.emit (.failureStopped t f)).finish i) ∧
  (q.answer = .resume →
    s'.trace = s.trace ++ [.childStatus q.whom q.child .withError] ∧ SameMaps s s')

/-- What has been asked where. The first two questions are about the failed actor, and put
    to its parent; whom the later ones are about has a shorter path name. -/
inductive CursorAt (regs : List Registration) (t : ApplyTask) : ApplyPc π → List Question → Prop
  | caught (f : Bool) : CursorAt regs t (.caught f) []
  | locking (f : Bool) (q : Question) (hq : q.answer = .escalate) : CursorAt regs t (.locking f) [q]
  | begins (f : Bool) (q : Question) (hq : q.answer = .escalate) :
      CursorAt regs t (.escalating f t.target) [q]
  | climbs (f : Bool) (d : Description) (asked : List Question)
      (hasked : ∀ x ∈ asked, x.answer = .escalate) (hlen : 2 ≤ asked.length)
      (hd : d.address.pathname.length < t.target.address.pathname.length) :
      CursorAt regs t (.escalating f d) asked
  | near (f : Bool) (asked : List Question) (q : Question)
      (hasked : ∀ x ∈ asked, x.answer = .escalate) (hlen : asked.length ≤ 1)
      (hchild : q.child = t.target.address) (hwhom : Supervises regs q.whom t.target) :
      CursorAt regs t (.deciding f q.answer) (asked ++ [q])
  | far (f : Bool) (asked : List Question) (q : Question)
      (hasked : ∀ x ∈ asked, x.answer = .escalate) (hlen : 2 ≤ asked.length)
      (hreg : ∃ r ∈ regs, r.descr.address = q.child)
      (hchild : q.child.pathname.length < t.target.address.pathname.length) :
      CursorAt regs t (.deciding f q.answer) (asked ++ [q])
  | restarting (f : Bool) (qs : List Question) : CursorAt regs t (.restarting f) qs

/-- What is removed tells where the removal began. -/
theorem removes_inj {s u u' : System π} {r : ActorStoppingReason} {j k : IdT} (hforest : Forest s)
    {d : Description} (hd : s.live j = some d) (hj : Removes r s u j) (hk : Removes r s u' k)
    (hsame : ∀ i, u.live i = u'.live i) : k = j := by
  have hbelow : Below Description.above s.live k j := by
    by_contra hnot
    have hgone : u.live j = none := (hj.gone j .self).1
    rw [hsame, (hk.kept j hnot).1, hd] at hgone
    exact absurd hgone (by simp only [reduceCtorEq, not_false_eq_true])
  rcases root_of_below hforest.rooted hd hbelow with ⟨w, hw⟩
  have habove : Below Description.above s.live j k := by
    by_contra hnot
    have hgone : u'.live k = none := (hk.gone k .self).1
    rw [← hsame, (hj.kept k hnot).1, hw] at hgone
    exact absurd hgone (by simp only [reduceCtorEq, not_false_eq_true])
  exact below_antisymm hforest hbelow habove

section Names

variable {s : System π}

/-- The address of a registered actor says the path name twice. -/
theorem pathname_of_registration (hreg : Filed s) {r : Registration} (hr : r ∈ s.registrations) :
    r.descr.address.pathname = r.descr.name := by
  rw [(hreg.records r hr).address]

/-- A parent has a shorter path name, as long as ids are not given twice. -/
theorem pathname_lt (h : Agrees s) (hfew : s.fewCalls) {d up : Description}
    (hd : ∃ r ∈ s.registrations, r.descr = d.bare) (hup : s.live d.parent = some up) :
    up.address.pathname.length < d.address.pathname.length := by
  rcases hd with ⟨r, hr, hrd⟩
  rcases registered_of_live h.registered hup with ⟨r', hr', hrd', hid⟩
  have hrec := h.registered.records r hr
  have hparent : r.descr.parent = d.parent := by rw [hrd]; rfl
  have haddress : r.descr.address = d.address := by rw [hrd]; rfl
  have haddress' : r'.descr.address = up.address := by rw [hrd']; rfl
  rcases hrec.parent with ⟨hnone, _⟩ | ⟨q, hq, hqid, hname⟩
  · -- Nobody is registered under the id that stands for no parent.
    have hmention : s.mentions d.parent := Or.inl (by rw [hup]; rfl)
    have hlt := (mentions_called h hfew hmention).2.1
    rw [← hparent, hnone, UInt64.lt_iff_toNat_lt] at hlt
    have hmax : s.nextActorId.toNat < IdT.none.value.toNat + 1 := s.nextActorId.toNat_lt
    omega
  · have heq : q = r' := by
      refine registration_of_id h.unused hfew hq hr' ?_
      rw [hqid, hparent, haddress', hid]
    subst heq
    rw [← haddress, ← haddress', pathname_of_registration h.registered.toFiled hr,
      pathname_of_registration h.registered.toFiled hq, hname, String.length_append,
      String.length_append]
    have hslash : "/".length = 1 := rfl
    omega

end Names

section Cursor

variable {cfg : Config} {name : String} {s s' : System π} {t : ApplyTask} {pc pc' : ApplyPc π}
  {qs qs' : List Question}

theorem cursorAt_mono {regs regs' : List Registration} (h : ∀ r ∈ regs, r ∈ regs')
    (hcur : CursorAt regs t pc qs) : CursorAt regs' t pc qs := by
  cases hcur with
  | near f asked q hasked hlen hchild hwhom =>
      exact .near f asked q hasked hlen hchild (supervises_mono h hwhom)
  | caught f => exact .caught f
  | locking f q hq => exact .locking f q hq
  | begins f q hq => exact .begins f q hq
  | climbs f d _ hasked hlen hd => exact .climbs f d _ hasked hlen hd
  | far f asked q hasked hlen hreg hchild =>
      rcases hreg with ⟨r, hr, haddress⟩
      exact .far f asked q hasked hlen ⟨r, h r hr, haddress⟩ hchild
  | restarting f qs => exact .restarting f qs

/-- One turn of the loop. -/
theorem cursorAt_next (h : Agrees s) (hfew : s.fewCalls) {f : Bool} {d up : Description}
    {answer : ActorActionWhenError} (hd : ∃ r ∈ s.registrations, r.descr = d.bare)
    (hup : s.live d.parent = some up)
    (hcur : CursorAt s.registrations t (.escalating f d : ApplyPc π) qs) :
    CursorAt s.registrations t
      (if answer = .escalate then .escalating f up else .deciding f answer : ApplyPc π)
      (qs ++ [⟨up.actor, d.address, answer⟩]) := by
  have hlt := pathname_lt h hfew hd hup
  cases hcur with
  | begins f q hq =>
      split
      · rename_i hanswer
        refine .climbs f up _ ?_ (Nat.le_refl 2) hlt
        intro x hx
        rcases List.mem_cons.mp hx with rfl | hx
        · exact hq
        · rw [List.mem_singleton.mp hx]
          exact hanswer
      · refine .near f [q] ⟨up.actor, t.target.address, answer⟩ ?_ (Nat.le_refl 1) rfl
          (supervises_of_live h.registered hup)
        intro x hx
        rw [List.mem_singleton.mp hx]
        exact hq
  | climbs f d asked hasked hlen hshort =>
      split
      · rename_i hanswer
        refine .climbs f up _ ?_ ?_ (Nat.lt_trans hlt hshort)
        · intro x hx
          rcases List.mem_append.mp hx with hx | hx
          · exact hasked x hx
          · rw [List.mem_singleton.mp hx]
            exact hanswer
        · rw [List.length_append]
          omega
      · rcases hd with ⟨r, hr, hrd⟩
        exact .far f qs ⟨up.actor, d.address, answer⟩ hasked hlen ⟨r, hr, by rw [hrd]; rfl⟩ hshort

/-- One step more. -/
theorem cursorAt_of_asks {k : TaskStep} (h : Agrees s) (hfew : s.fewCalls)
    (hparent : ∀ p, t.parent = some p → Supervises s.registrations p t.target)
    (hcursor : ∀ f d, pc = .escalating f d → ∃ r ∈ s.registrations, r.descr = d.bare)
    (hasks : Asks s s' t pc k qs' (some pc')) (hcur : CursorAt s.registrations t pc qs) :
    CursorAt s.registrations t pc' (qs ++ qs') := by
  cases hasks with
  | halts _ _ _ _ =>
      rw [List.append_nil]
      exact hcur
  | first f parent answer hp =>
      cases hcur with
      | caught f =>
          rw [List.nil_append]
          split
          · rename_i hanswer
            exact .locking f _ hanswer
          · exact .near f [] ⟨parent, t.target.address, answer⟩
              (fun x hx => absurd hx List.not_mem_nil) (Nat.zero_le 1) rfl (hparent parent hp)
  | locks f =>
      rw [List.append_nil]
      cases hcur with
      | locking f q hq => exact .begins f q hq
  | next f d up answer hup => exact cursorAt_next h hfew (hcursor f d rfl) hup hcur
  | fails f d answer hf =>
      rw [List.append_nil]
      exact hcur
  | restarts f throws =>
      rw [List.append_nil]
      exact .restarting f qs

/-- How far up the cursor is, over a whole run. -/
theorem cursorAt_of_path (h : (context cfg name).Reach free s) {i : Nat} {f : Bool}
    (hi : s.running[i]? = some (.applying t (.caught f))) {p : Focus (System π) TaskStep}
    (hp : (followed cfg name).Path free ⟨s, i, []⟩ p) (hfew : p.state.fewCalls) :
    ∃ pc, userPool.slot p = some (.applying t pc) ∧
      CursorAt p.state.registrations t pc (questions p.own) := by
  have hrule : ∃ pc, userPool.slot p = some (.applying t pc) ∧ pc.failed = true ∧
      (context cfg name).Reach free p.state ∧
        (p.state.fewCalls → CursorAt p.state.registrations t pc (questions p.own)) := by
    refine failed_rule (fun p pc => (context cfg name).Reach free p.state ∧
      (p.state.fewCalls → CursorAt p.state.registrations t pc (questions p.own))) ?_ ?_ hp hi rfl
        ⟨h, fun _ => .caught f⟩
    · rintro p a q k pc pc' qs _ hs ha hx hasks hqs ⟨hr, hJ⟩
      have hstep : step cfg p.state a = some q.state := (focus_step.mp hs).1
      refine ⟨Machine.Path.tail a hr trivial hstep, fun hfew' => ?_⟩
      have hagrees : Agrees p.state := reach_agrees hr
      have hintro := reach_introduced hr
      have hfew := fewCalls_of_step hstep hagrees.registered hfew'
      rw [hqs]
      refine cursorAt_mono (step_registrations hstep hagrees.registered)
        (cursorAt_of_asks hagrees hfew (fun p hp => ?_) (fun g d hpc => ?_) hasks (hJ hfew))
      · exact hintro.parents t p (hasTask_of_running hx) hp
      · rw [hpc] at hx
        exact hintro.climbers t g d (List.mem_of_getElem? hx)
    · rintro p a q pc _ hs ha _ ⟨hr, hJ⟩
      have hstep : step cfg p.state a = some q.state := (focus_step.mp hs).1
      have hreg : Registered p.state := reach_registered hr
      refine ⟨Machine.Path.tail a hr trivial hstep, fun hfew' => ?_⟩
      rw [own_of_other hs ha]
      exact cursorAt_mono (step_registrations hstep hreg) (hJ (fewCalls_of_step hstep hreg hfew'))
  rcases hrule with ⟨pc, hx, _, _, hJ⟩
  exact ⟨pc, hx, hJ hfew⟩

end Cursor

section Hitting

variable {cfg : Config} {s s' : System π} {i : Nat} {t : ApplyTask} {f throws : Bool}
  {q : Question}

/-- What becomes of `STOP`: the failed actor goes. -/
theorem stop_of_deciding (hs : applyStep cfg s i t (.decide throws) (.deciding f .stop) = some s')
    (hforest : Forest s) (hlive : (s.live t.target.address.id).isSome = true) :
    ∃ u, Removes .except s u t.target.address.id ∧
      s' = (u.emit (.failureStopped t f)).finish i := by
  simp only [applyStep, onActorError, Option.ite_none_right_eq_some, Option.map_eq_some_iff] at hs
  rcases hs with ⟨_, u, hu, hs'⟩
  rcases Option.isSome_iff_exists.mp hlive with ⟨d, hd⟩
  exact ⟨u, removes_of_stop hforest hd hu, hs'.symm⟩

/-- What becomes of `RESUME`: the parent of the task hears of the failed actor. -/
theorem resume_of_deciding {parent : ActorPtr} (hparent : t.parent = some parent)
    (hs : applyStep cfg s i t (.decide throws) (.deciding f .resume) = some s') :
    s'.trace = s.trace ++ [.childStatus parent t.target.address .withError] ∧ SameMaps s s' := by
  simp only [applyStep, onActorError, hparent] at hs
  split at hs <;> rw [Option.some.injEq] at hs <;> rw [← hs] <;> exact ⟨rfl, rfl, rfl, rfl⟩

/-- A stop that began at the failed actor began nowhere else. -/
theorem stop_hits (hs : applyStep cfg s i t (.decide throws) (.deciding f .stop) = some s')
    (hforest : Forest s) (hlive : (s.live t.target.address.id).isSome = true)
    (hq : q.answer = .stop) : Hits s s' i t f q ↔ q.child.id = t.target.address.id := by
  rcases stop_of_deciding hs hforest hlive with ⟨u, hremoves, hs'⟩
  refine ⟨fun hhits => ?_, fun hid => ⟨fun _ => ⟨u, by rw [hid]; exact hremoves, hs'⟩, fun h => ?_⟩⟩
  · rcases hhits.1 hq with ⟨u', hremoves', hs''⟩
    rcases Option.isSome_iff_exists.mp hlive with ⟨d, hd⟩
    have hactors : u.actors = u'.actors := by
      have hsame := congrArg System.actors (hs'.symm.trans hs'')
      exact hsame
    refine removes_inj hforest hd hremoves hremoves' fun j => ?_
    rw [System.live, hactors, System.live]
  · rw [hq] at h
    exact absurd h (by simp only [reduceCtorEq, not_false_eq_true])

/-- A report about the failed actor to the parent of the task is about nobody else, and goes
    to nobody else. -/
theorem resume_hits {parent : ActorPtr} (hparent : t.parent = some parent)
    (hs : applyStep cfg s i t (.decide throws) (.deciding f .resume) = some s')
    (hq : q.answer = .resume) :
    Hits s s' i t f q ↔ q.whom = parent ∧ q.child = t.target.address := by
  rcases resume_of_deciding hparent hs with ⟨htrace, hmaps⟩
  refine ⟨fun hhits => ?_, fun ⟨hwhom, hchild⟩ => ⟨fun h => ?_, fun _ => ⟨?_, hmaps⟩⟩⟩
  · have heq := List.append_cancel_left (htrace.symm.trans (hhits.2 hq).1)
    simp only [List.cons.injEq, Event.childStatus.injEq, and_true] at heq
    exact ⟨heq.1.symm, heq.2.symm⟩
  · rw [hq] at h
    exact absurd h (by simp only [reduceCtorEq, not_false_eq_true])
  · rw [htrace, hwhom, hchild]

end Hitting

/-- After a failure, the answer `STOP` or `RESUME` that the questions come to is carried out
    on the child that it was given about, and whoever gave it hears of `RESUME`, exactly if
    at most one `ESCALATE` came before it, which is to say if the parent of the failed actor
    gave it. A stop is one of a forest in which the failed actor still is. -/
theorem answers_hit {cfg : Config} {name : String} {s : System π}
    (h : (context cfg name).Reach free s) {i : Nat} {t : ApplyTask} {f : Bool}
    (hi : s.running[i]? = some (.applying t (.caught f))) {p : Focus (System π) TaskStep}
    (hp : (followed cfg name).Path free ⟨s, i, []⟩ p) (hfew : p.state.fewCalls) {g : Bool}
    {action : ActorActionWhenError}
    (hx : userPool.slot p = some (.applying t (.deciding g action))) {throws : Bool}
    {s' : System π} (hs : step cfg p.state (.task p.place (.decide throws)) = some s')
    (haction : action = .resume ∨ action = .stop ∧ Forest p.state ∧
      (p.state.live t.target.address.id).isSome = true) :
    ∃ asked q, questions p.own = asked ++ [q] ∧ (∀ x ∈ asked, x.answer = .escalate) ∧
      q.answer = action ∧ (Hits p.state s' p.place t g q ↔ asked.length ≤ 1) := by
  have hr : (context cfg name).Reach free p.state := reach_of_followed h hp
  have hagrees : Agrees p.state := reach_agrees hr
  have hstep := (applyStep_of_step hx hs).2
  have htask : p.state.HasTask (.apply t) := hasTask_of_running hx
  rcases inquires_of_path hi hp with ⟨pc, hpc, _, hinq⟩
  rcases cursorAt_of_path h hi hp hfew with ⟨pc', hpc', hcur⟩
  rw [hx, Option.some.injEq, Running.applying.injEq] at hpc hpc'
  rw [← hpc.2] at hinq
  rw [← hpc'.2] at hcur
  generalize hqs : questions p.own = qs at hcur hinq ⊢
  have hparent : ∃ parent, t.parent = some parent := by
    cases hinq with
    | deciding _ parent _ hparent _ => exact ⟨parent, hparent⟩
    | again _ parent _ _ _ hparent _ => exact ⟨parent, hparent⟩
  rcases hparent with ⟨parent, hparent⟩
  cases hcur with
  | near _ asked q hasked hlen hchild hwhom =>
      refine ⟨asked, q, rfl, hasked, rfl, iff_of_true ?_ hlen⟩
      rcases haction with hresume | ⟨hstop, hforest, hlive⟩
      · rw [hresume] at hstep
        refine (resume_hits hparent hstep hresume).mpr ⟨?_, hchild⟩
        -- There is one registration under the id of the parent.
        rcases hwhom with ⟨r, hmem, hid, hactor⟩
        rcases (reach_introduced hr).parents t parent htask hparent with ⟨r', hmem', hid', hactor'⟩
        have heq : r = r' :=
          registration_of_id hagrees.unused hfew hmem hmem' (hid.trans hid'.symm)
        rw [← hactor, ← hactor', heq]
      · rw [hstop] at hstep
        exact (stop_hits hstep hforest hlive hstop).mpr (by rw [hchild])
  | far _ asked q hasked hlen hreg hshort =>
      refine ⟨asked, q, rfl, hasked, rfl, iff_of_false (fun hhits => ?_) (by omega)⟩
      have hne : q.child ≠ t.target.address := by
        intro heq
        rw [heq] at hshort
        exact Nat.lt_irrefl _ hshort
      rcases haction with hresume | ⟨hstop, hforest, hlive⟩
      · rw [hresume] at hstep
        exact hne ((resume_hits hparent hstep hresume).mp hhits).2
      · rw [hstop] at hstep
        have hid := (stop_hits hstep hforest hlive hstop).mp hhits
        -- There is one registration under the id of the failed actor.
        rcases hreg with ⟨r, hmem, haddress⟩
        rcases reach_backed hr _ htask with ⟨r', hmem', _, hdescr⟩
        have haddress' : r'.descr.address = t.target.address := by rw [hdescr]
        have heq : r = r' :=
          registration_of_id hagrees.unused hfew hmem hmem' (by rw [haddress, haddress', hid])
        exact hne (haddress.symm.trans (heq ▸ haddress'))

/-- `p` is asked about `c`, and answers `STOP`. -/
theorem answers_hit_parent : ∃ (asked : List Question) (q : Question) (s' : System Nat),
    questions (failureFocus [.task 0 (.childError (some .stop))]).own = asked ++ [q] ∧
      q.answer = .stop ∧
        Hits (failureFocus [.task 0 (.childError (some .stop))]).state s' 0 escalatedTask true q := by
  have hs : (context (.plain 1) "ctx").Reach free ((context (.plain 1) "ctx").after failureRun) :=
    reach_after failureRun
  have hi : ((context (.plain 1) "ctx").after failureRun).running[0]? =
      some (.applying escalatedTask (.caught true)) := rfl
  have hpath : (followed (.plain 1) "ctx").Path (fun p a => Undisturbed p.state a)
      ⟨(context (.plain 1) "ctx").after failureRun, 0, []⟩
      (failureFocus [.task 0 (.childError (some .stop))]) := path_meets _ _ (by decide)
  have hfew : (failureFocus [.task 0 (.childError (some .stop))]).state.fewCalls := by
    unfold System.fewCalls
    decide
  have hbegun : Forest ((context (.plain 1) "ctx").after failureRun) :=
    forest_of_reach (reach_meets _ (by decide)) (by unfold System.fewCalls; decide)
  have hforest : Forest (failureFocus [.task 0 (.childError (some .stop))]).state :=
    forest_of_path hs hi hpath hbegun hfew
  have hstep : step (.plain 1) (failureFocus [.task 0 (.childError (some .stop))]).state
      (.task 0 (.decide false)) = some ((context (.plain 1) "ctx").onward
        (failureFocus [.task 0 (.childError (some .stop))]).state [.task 0 (.decide false)]) := rfl
  rcases answers_hit hs hi (path_weaken (fun _ _ _ => trivial) hpath) hfew rfl hstep
    (Or.inr ⟨rfl, hforest, rfl⟩) with ⟨asked, q, hqs, _, hanswer, hiff⟩
  have hlen : asked.length ≤ 1 := by
    have hone : (questions (failureFocus [.task 0 (.childError (some .stop))]).own).length = 1 :=
      by decide
    rw [hqs, List.length_append, List.length_singleton] at hone
    omega
  exact ⟨asked, q, _, hqs, hanswer, hiff.mpr hlen⟩

/-- `p` passes the failure of `c` on, and the user root, asked about `p`, answers `RESUME`: it
    is `p` that hears of it, and `c` that it hears of. -/
theorem answers_hit_above : ∃ (s : System Nat) (t : ApplyTask) (p : Focus (System Nat) TaskStep)
    (asked : List Question) (q : Question) (s' : System Nat),
      (context (.plain 1) "ctx").Reach free s ∧ s.running[0]? = some (.applying t (.caught true)) ∧
        (followed (.plain 1) "ctx").Path free ⟨s, 0, []⟩ p ∧
          userPool.slot p = some (.applying t (.deciding true .resume)) ∧
            questions p.own = asked ++ [q] ∧ q = ⟨1, ⟨⟨4⟩, "/root/usr/p"⟩, .resume⟩ ∧
              step (.plain 1) p.state (.task p.place (.decide false)) = some s' ∧
                s'.trace = p.state.trace ++
                  [.childStatus 3 ⟨⟨5⟩, "/root/usr/p/c"⟩ .withError] ∧
                    ¬ Hits p.state s' p.place t true q := by
  have hs : (context (.plain 1) "ctx").Reach free ((context (.plain 1) "ctx").after failureRun) :=
    reach_after failureRun
  refine ⟨_, escalatedTask, failureFocus passedOn,
    (questions (failureFocus passedOn).own).take 2, ⟨1, ⟨⟨4⟩, "/root/usr/p"⟩, .resume⟩,
      (context (.plain 1) "ctx").onward (failureFocus passedOn).state [.task 0 (.decide false)],
        hs, rfl, path_onward _ _, rfl, by decide, rfl, rfl, rfl, fun hhits => ?_⟩
  have htrace := (hhits.2 rfl).1
  have htrue : (((context (.plain 1) "ctx").onward (failureFocus passedOn).state
      [.task 0 (.decide false)]).trace = (failureFocus passedOn).state.trace ++
        [.childStatus 3 ⟨⟨5⟩, "/root/usr/p/c"⟩ .withError]) := rfl
  have heq := List.append_cancel_left (htrue.symm.trans htrace)
  simp only [List.cons.injEq, Event.childStatus.injEq, and_true] at heq
  exact absurd heq.1 (by decide)

end Yaaf
