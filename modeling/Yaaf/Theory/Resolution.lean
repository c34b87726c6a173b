import Yaaf.Theory.Questions

/-!
# Resolution

Where nobody is stopped while a thread climbs, the way up is the list of ancestors the
failed actor had when it failed, and every lookup finds the next of them. The last one
is one of the framework's own actors, which answer `RESUME`. So the climb ends there at
the latest, and what is carried out is the answer of the nearest ancestor that did not
pass the question on. `on_actor_error` never sees `ESCALATE`.

The answers may depend on who is asked about whom, and on nothing else. That the parent
is asked twice then makes no difference.

## Main definitions

* `nearestAnswer`: The answer of the nearest ancestor that has one.
* `loops`: How often the thread went around the loop.
* `Resolves`, `Fell`: How far the thread has climbed; that it died there.

## Theorems

* `lookup_of_ascends`: Whom a lookup finds.
* `resolves_of_first`, `resolves_of_next`: The first question, and one more.
* `resolves_of_path`: The climb, over a whole run.
* `escalation_resolves`: How it ends.
-/

namespace Yaaf

open Machine Pruning

variable {π : Type}

/-- The answer of the nearest ancestor that does not answer `ESCALATE`, each asked about
    the one below it. -/
def nearestAnswer (ans : ActorPtr → ActorAddress → ActorActionWhenError) :
    Description → List Description → Option ActorActionWhenError
  | _, [] => none
  | d, w :: ws =>
    if ans w.actor d.address = .escalate then nearestAnswer ans w ws
    else some (ans w.actor d.address)

theorem nearestAnswer_cons (ans : ActorPtr → ActorAddress → ActorActionWhenError)
    (d w : Description) (ws : List Description) : nearestAnswer ans d (w :: ws) =
      if ans w.actor d.address = .escalate then nearestAnswer ans w ws
      else some (ans w.actor d.address) :=
  rfl

/-- One turn of the `ESCALATE` loop. -/
def TaskStep.loops : TaskStep → Bool
  | .escalate _ => true
  | _ => false

/-- How often a thread went around the loop. -/
def loops (own : List (Turn (System π) TaskStep)) : Nat :=
  own.countP fun x => x.step.loops

/-- How far the thread has climbed in so many turns of the loop, of the ancestors that
    were there in `s`. -/
inductive Resolves (ans : ActorPtr → ActorAddress → ActorActionWhenError) (s : System π)
    (t : ApplyTask) (ws : List Description) : ApplyPc π → Nat → Prop
  | caught (f : Bool) : Resolves ans s t ws (.caught f) 0
  | locking (f : Bool) (hws : ws ≠ []) : Resolves ans s t ws (.locking f) 0
  | climbing (f : Bool) (n : Nat) (d e : Description) (rest : List Description)
      (hbare : d.bare = e.bare) (hup : Ascends Description.above s.live e rest)
      (hrest : rest ≠ []) (hn : n + rest.length = ws.length)
      (hans : nearestAnswer ans e rest = nearestAnswer ans t.target ws) :
      Resolves ans s t ws (.escalating f d) n
  | deciding (f : Bool) (n : Nat) (action : ActorActionWhenError) (hn : n ≤ ws.length)
      (hans : nearestAnswer ans t.target ws = some action) (haction : action ≠ .escalate) :
      Resolves ans s t ws (.deciding f action) n
  | restarting (f : Bool) (n : Nat) (hn : n ≤ ws.length) : Resolves ans s t ws (.restarting f) n

section Resolution

variable {cfg : Config} {name : String} {ans : ActorPtr → ActorAddress → ActorActionWhenError}
  {s u u' : System π} {t : ApplyTask} {ws : List Description} {pc pc' : ApplyPc π} {n : Nat}

theorem resolves_le (h : Resolves ans s t ws pc n) : n ≤ ws.length := by
  cases h with
  | caught f => exact Nat.zero_le _
  | locking f hws => exact Nat.zero_le _
  | climbing f n d e rest hbare hup hrest hn hans => omega
  | deciding f n action hn hans haction => exact hn
  | restarting f n hn => exact hn

/-- Where the root answers, whoever passes a question on has a parent. -/
theorem ascends_ne_nil (hframe : ∀ k d, s.live k = some d → d.above = none →
      cfg.framework d.actor = true)
    (hroots : ∀ a x, cfg.framework a = true → ans a x = .resume) {k : IdT} {w : Description}
    {rest : List Description} {x : ActorAddress} (hw : s.live k = some w)
    (hans : ans w.actor x = .escalate) (hup : Ascends Description.above s.live w rest) :
    rest ≠ [] := by
  rintro rfl
  cases hup with
  | top habove =>
      rw [hroots _ _ (hframe k w hw habove)] at hans
      exact absurd hans (by simp only [reduceCtorEq, not_false_eq_true])

/-- Who is at the top of the first turn. -/
theorem ascends_parent (hstands : Stands s t) (hup : Ascends Description.above s.live t.target ws)
    {parent : ActorPtr} (hparent : t.parent = some parent) :
    ∃ k w rest, ws = w :: rest ∧ s.live k = some w ∧ w.actor = parent ∧
      Ascends Description.above s.live w rest := by
  have h := hstands.parent
  rw [hparent] at h
  cases hup with
  | top habove =>
      rw [habove] at h
      exact absurd h (by simp only [Option.bind_none, Option.map_none, reduceCtorEq,
        not_false_eq_true])
  | @up _ w k rest habove hw hrest =>
      rw [habove, Option.bind_some, hw, Option.map_some, Option.some.injEq] at h
      exact ⟨k, w, rest, rfl, hw, h.symm, hrest⟩

/-- Where nobody has left, the lookup finds the next ancestor. -/
theorem lookup_of_ascends {d e w : Description} {rest : List Description}
    (hbare : d.bare = e.bare) (hup : Ascends Description.above s.live e (w :: rest))
    (hpers : Persists s u) : ∃ k up, s.live k = some w ∧ u.live d.parent = some up ∧
      up.bare = w.bare ∧ Ascends Description.above s.live w rest := by
  cases hup with
  | @up _ _ k _ habove hw hrest =>
      have hparent : d.parent = k := by
        rw [← bare_above hbare] at habove
        unfold Description.above at habove
        rw [Option.ite_none_left_eq_some, Option.some.injEq] at habove
        exact habove.2
      rcases hpers k w hw with ⟨up, hlive, hbare'⟩
      exact ⟨k, up, hw, by rw [hparent, hlive], hbare', hrest⟩

/-- With an entry to ask, a turn of the loop goes through. -/
theorem escalate_of_live {i : Nat} {g : Bool} {d up : Description} (hfate : u.fate = .running)
    (hi : u.running[i]? = some (.applying t (.escalating g d))) (hup : u.live d.parent = some up)
    (answer : ActorActionWhenError) :
    ∃ s', step cfg u (.task i (.escalate (some answer))) = some s' ∧ s'.fate = .running := by
  unfold System.live at hup
  rw [step_of_applying hfate hi]
  simp only [applyStep, hup]
  exact ⟨_, rfl, hfate⟩

/-- A thread that died in the loop. -/
def Fell (ws : List Description) (u : System π) (pc : ApplyPc π) (n : Nat) : Prop :=
  u.fate ≠ .running ∧ n ≤ ws.length ∧ ∃ f d, pc = .escalating f d

/-- The first question, to the parent. -/
theorem resolves_of_first {f : Bool} {parent : ActorPtr} {answer : ActorActionWhenError}
    (hstands : Stands s t) (hway : Ascends Description.above s.live t.target ws)
    (hparent : t.parent = some parent) (hanswer : answer = ans parent t.target.address) :
    Resolves ans s t ws (if answer = .escalate then .locking f else .deciding f answer :
      ApplyPc π) 0 := by
  rcases ascends_parent hstands hway hparent with ⟨j, w, rest, rfl, hw, rfl, hup⟩
  split
  · exact .locking f (List.cons_ne_nil _ _)
  · rename_i hne
    refine .deciding f 0 answer (Nat.zero_le _) ?_ hne
    rw [nearestAnswer_cons, ← hanswer, if_neg hne]

/-- One turn of the loop: whom the lookup finds is the next ancestor. -/
theorem resolves_of_next {f : Bool} {d up : Description} {answer : ActorActionWhenError}
    (hframe : ∀ k d, s.live k = some d → d.above = none → cfg.framework d.actor = true)
    (hroots : ∀ a x, cfg.framework a = true → ans a x = .resume) (hpers : Persists s u)
    (hlive : u.live d.parent = some up) (hanswer : answer = ans up.actor d.address)
    (h : Resolves ans s t ws (.escalating f d : ApplyPc π) n) :
    Resolves ans s t ws (if answer = .escalate then .escalating f up else .deciding f answer :
      ApplyPc π) (n + 1) := by
  cases h with
  | climbing f n d e rest hbare hup hrest hn hans =>
      rcases List.exists_cons_of_ne_nil hrest with ⟨w, rest, rfl⟩
      rcases lookup_of_ascends hbare hup hpers with ⟨j, up', hw, hlive', hbare', hup⟩
      rw [hlive', Option.some.injEq] at hlive
      rw [hlive] at hbare'
      rw [bare_actor hbare', bare_address hbare] at hanswer
      rw [nearestAnswer_cons, ← hanswer] at hans
      rw [List.length_cons] at hn
      split
      · -- It passes the question on, so it is no root.
        rename_i hescalate
        rw [if_pos hescalate] at hans
        rw [hescalate, eq_comm] at hanswer
        have hnil : rest ≠ [] := ascends_ne_nil hframe hroots hw hanswer hup
        refine .climbing f (n + 1) up w rest hbare' hup hnil ?_ hans
        omega
      · rename_i hne
        rw [if_neg hne] at hans
        refine .deciding f (n + 1) answer ?_ hans.symm hne
        omega

/-- One step more. -/
theorem resolves_of_asks {k : TaskStep} {qs : List Question}
    (hframe : ∀ k d, s.live k = some d → d.above = none → cfg.framework d.actor = true)
    (hroots : ∀ a x, cfg.framework a = true → ans a x = .resume)
    (hstands : Stands s t) (hway : Ascends Description.above s.live t.target ws)
    (hpers : Persists s u) (hasks : Asks u u' t pc k qs (some pc'))
    (hqs : ∀ q ∈ qs, q.answer = ans q.whom q.child) (h : Resolves ans s t ws pc n) :
    Resolves ans s t ws pc' (n + if k.loops then 1 else 0) ∨
      Fell ws u' pc' (n + if k.loops then 1 else 0) := by
  cases hasks with
  | halts _ _ hf hk =>
      have hloops : k.loops = false := by
        cases k <;> first
        | rfl
        | exact absurd hk Bool.noConfusion
      rw [hloops]
      exact Or.inl h
  | first f parent answer hparent =>
      cases h with
      | caught f =>
          exact Or.inl (resolves_of_first hstands hway hparent (hqs _ List.mem_cons_self))
  | locks f =>
      cases h with
      | locking f hws =>
          exact Or.inl (.climbing f 0 _ t.target ws rfl hway hws (Nat.zero_add _) rfl)
  | next f d up answer hlive =>
      exact Or.inl (resolves_of_next hframe hroots hpers hlive (hqs _ List.mem_cons_self) h)
  | fails f d answer hf =>
      cases h with
      | climbing f n d e rest hbare hup hrest hn hans =>
          refine Or.inr ⟨hf, ?_, f, d, rfl⟩
          have hpos : 0 < rest.length := List.length_pos_of_ne_nil hrest
          change n + 1 ≤ ws.length
          omega
  | restarts f throws =>
      cases h with
      | deciding f n action hn hans haction => exact Or.inl (.restarting f n hn)

/-- The climb, over a whole run. -/
theorem resolves_of_path (h : (context cfg name).Reach free s)
    (hframe : ∀ k d, s.live k = some d → d.above = none → cfg.framework d.actor = true)
    (hroots : ∀ a x, cfg.framework a = true → ans a x = .resume)
    (hstands : Stands s t) (hway : Ascends Description.above s.live t.target ws)
    {i : Nat} {f : Bool} (hi : s.running[i]? = some (.applying t (.caught f)))
    {p : Focus (System π) TaskStep}
    (hp : (followed cfg name).Path (fun p a => Retains p.state a) ⟨s, i, []⟩ p)
    (hans : ∀ q ∈ questions p.own, q.answer = ans q.whom q.child) :
    ∃ pc, userPool.slot p = some (.applying t pc) ∧
      (Resolves ans s t ws pc (loops p.own) ∨ Fell ws p.state pc (loops p.own)) := by
  have hrule : ∃ pc, userPool.slot p = some (.applying t pc) ∧ pc.failed = true ∧
      (context cfg name).Reach free p.state ∧ Persists s p.state ∧
        ((∀ q ∈ questions p.own, q.answer = ans q.whom q.child) →
          Resolves ans s t ws pc (loops p.own) ∨ Fell ws p.state pc (loops p.own)) := by
    refine failed_rule (fun p pc => (context cfg name).Reach free p.state ∧ Persists s p.state ∧
      ((∀ q ∈ questions p.own, q.answer = ans q.whom q.child) →
        Resolves ans s t ws pc (loops p.own) ∨ Fell ws p.state pc (loops p.own))) ?_ ?_ hp hi rfl
          ⟨h, persists_refl, fun _ => Or.inl (.caught f)⟩
    · rintro p a q k pc pc' qs hc hs ha hx hasks hqs ⟨hr, hpers, hJ⟩
      refine ⟨Machine.Path.tail a hr trivial (focus_step.mp hs).1,
        persists_trans hpers (persists_of_followed hr hs hx hc), fun hall => ?_⟩
      rw [hqs] at hall
      have hloops : loops q.own = loops p.own + if k.loops then 1 else 0 := by
        unfold loops
        rw [own_of_turn hs ha, List.countP_append, List.countP_singleton]
      rw [hloops]
      rcases hJ fun q hq => hall q (List.mem_append_left _ hq) with hres | hfell
      · exact resolves_of_asks hframe hroots hstands hway hpers hasks
          (fun q hq => hall q (List.mem_append_right _ hq)) hres
      · exact absurd (fate_of_followed hs) hfell.1
    · rintro p a q pc hc hs ha hx ⟨hr, hpers, hJ⟩
      rw [own_of_other hs ha]
      refine ⟨Machine.Path.tail a hr trivial (focus_step.mp hs).1,
        persists_trans hpers (persists_of_followed hr hs hx hc), fun hall => ?_⟩
      rcases hJ hall with hres | hfell
      · exact Or.inl hres
      · exact absurd (fate_of_followed hs) hfell.1
  rcases hrule with ⟨pc, hx, _, _, _, hJ⟩
  exact ⟨pc, hx, hJ hans⟩

end Resolution

/-- Escalation resolves. In a forest whose roots are the framework's own actors, which
    answer `RESUME`, and with nobody stopped meanwhile, the thread of a failed actor that
    stands goes around the loop at most once for each of its ancestors. Every lookup finds
    an entry, and a turn of the loop is never blocked. The action that `on_actor_error` is
    given is the answer of the nearest ancestor that does not answer `ESCALATE`, if the
    answers depend on who is asked about whom alone. -/
theorem escalation_resolves {cfg : Config} {name : String} {s : System π}
    (h : (context cfg name).Reach free s) (hforest : Forest s)
    (hframe : ∀ k d, s.live k = some d → d.above = none → cfg.framework d.actor = true)
    {ans : ActorPtr → ActorAddress → ActorActionWhenError}
    (hroots : ∀ a x, cfg.framework a = true → ans a x = .resume) {i : Nat} {t : ApplyTask}
    {f : Bool} (hi : s.running[i]? = some (.applying t (.caught f))) (hstands : Stands s t) :
    ∃ ws, Ascends Description.above s.live t.target ws ∧
      ∀ p, (followed cfg name).Path (fun p a => Retains p.state a) ⟨s, i, []⟩ p →
        (∀ q ∈ questions p.own, q.answer = ans q.whom q.child) →
          loops p.own ≤ ws.length ∧
          (∀ g d, userPool.slot p = some (.applying t (.escalating g d)) →
            p.state.fate = .running → loops p.own < ws.length ∧
              (p.state.live d.parent).isSome = true ∧
                ∀ answer, ∃ s', step cfg p.state (.task p.place (.escalate (some answer))) =
                  some s' ∧ s'.fate = .running) ∧
          ∀ g action, userPool.slot p = some (.applying t (.deciding g action)) →
            nearestAnswer ans t.target ws = some action ∧ action ≠ .escalate := by
  rcases hstands.live with ⟨d, hd, hbare⟩
  rcases ascends_total hforest (fun _ _ => mem_keys_of_live) hd with ⟨ws, hup⟩
  have hway : Ascends Description.above s.live t.target ws :=
    ascends_congr (bare_above hbare).symm hup
  refine ⟨ws, hway, fun p hp hans => ?_⟩
  have hpers : Persists s p.state := retains_of_path h hi hp
  rcases resolves_of_path h hframe hroots hstands hway hi hp hans with ⟨pc, hx, hJ⟩
  refine ⟨?_, fun g e hy hfate => ?_, fun g action hy => ?_⟩
  · rcases hJ with hres | hfell
    · exact resolves_le hres
    · exact hfell.2.1
  · rw [hx, Option.some.injEq, Running.applying.injEq] at hy
    rw [hy.2] at hx hJ
    rcases hJ with hres | hfell
    · generalize loops p.own = n at hres
      cases hres with
      | climbing _ _ _ b rest hbare hup hrest hn _ =>
          rcases List.exists_cons_of_ne_nil hrest with ⟨w, rest, rfl⟩
          rcases lookup_of_ascends hbare hup hpers with ⟨_, up, _, hlive, _, _⟩
          rw [List.length_cons] at hn
          exact ⟨by omega, by rw [hlive]; rfl, fun answer => escalate_of_live hfate hx hlive answer⟩
    · exact absurd hfate hfell.1
  · rw [hx, Option.some.injEq, Running.applying.injEq] at hy
    rw [hy.2] at hJ
    rcases hJ with hres | ⟨_, _, _, _, hpc⟩
    · generalize loops p.own = n at hres
      cases hres with
      | deciding _ _ _ _ hnearest haction => exact ⟨hnearest, haction⟩
    · exact absurd hpc (by simp only [reduceCtorEq, not_false_eq_true])

/-- `p` passes everything on. -/
def passing (a : ActorPtr) (_ : ActorAddress) : ActorActionWhenError :=
  if a = 3 then .escalate else .resume

/-- The user root answers for it. -/
def passedOn : List (Action Nat) :=
  [.task 0 (.childError (some .escalate)), .task 0 .lockShared,
    .task 0 (.escalate (some .escalate)), .task 0 (.escalate (some .resume))]

theorem escalation_resolves_passedOn :
    ∃ ws, Ascends Description.above ((context (.plain 1) "ctx").after failureRun).live
        escalatedTask.target ws ∧ nearestAnswer passing escalatedTask.target ws = some .resume := by
  have hreach : (context (.plain 1) "ctx").Reach free
      ((context (.plain 1) "ctx").after failureRun) := reach_after failureRun
  have hforest : Forest ((context (.plain 1) "ctx").after failureRun) :=
    forest_of_reach (reach_meets failureRun (by decide)) (by unfold System.fewCalls; decide)
  have hframe : ∀ k d, ((context (.plain 1) "ctx").after failureRun).live k = some d →
      d.above = none → (Config.plain 1).framework d.actor = true := by
    intro k d hd
    have hall : ∀ e ∈ ((context (.plain 1) "ctx").after failureRun).actors.entries,
        e.2.above = none → (Config.plain 1).framework e.2.actor = true := by decide
    exact hall ⟨k, d⟩ (AList.mem_lookup_iff.mp hd)
  have hroots : ∀ a x, (Config.plain 1).framework a = true → passing a x = .resume := by
    intro a x ha
    have hlt : a < 3 := of_decide_eq_true ha
    exact if_neg (Nat.ne_of_lt hlt)
  have hi : ((context (.plain 1) "ctx").after failureRun).running[0]? =
      some (.applying escalatedTask (.caught true)) := rfl
  have hstands : Stands ((context (.plain 1) "ctx").after failureRun) escalatedTask :=
    stands_of_reach (reach_meets failureRun (by decide)) hi
  rcases escalation_resolves hreach hforest hframe hroots hi hstands with ⟨ws, hway, hall⟩
  refine ⟨ws, hway, ?_⟩
  exact ((hall (failureFocus passedOn) (path_meets _ passedOn (by decide)) (by decide)).2.2 true
    .resume rfl).1

end Yaaf
