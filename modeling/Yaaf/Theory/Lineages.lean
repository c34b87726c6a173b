import Yaaf.Library.Hierarchy
import Yaaf.Theory.Population
import Yaaf.Theory.Subtree

/-!
# How Long an Actor Lives

A context is a hierarchy that keeps its history. The exclusive section of an
`add_actor` is a join, a stop, by a call or on a supervisor's decision, is a leave, and
the sweep at the end of `context::stop` disbands. (The `on_stop` and `on_child_stopped` of
those who go are taken to return, so a stop is all of a leave.) What a recursion over child lists
removes is then what the history says descends from its target, so whether an actor is
registered can be read off the calls that were made: it was added, and since then
nobody has stopped it or an ancestor of it, and the context was not torn down.

This is so in every run. A parent that was stopped between the two critical sections of
an `add_actor` is no longer there when the child goes in, and nobody lists the child.
The map then names a parent that no stop will go through. In the hierarchy such a child
joins alone.

## Main definitions

* `System.heads`: The hierarchy the registered actors form.
* `System.moves`, `founding`: What a step, and `make_context`, does to it.
* `Held`: A parent that is there lists its child.

## Theorems

* `under_iff_below`: Child lists lead where the hierarchy does.
* `insert_heads`, `leave_heads`: What an insertion and a stop do to the hierarchy.
* `moves_of_step`: A step of the context makes its moves.
* `context_refines_hierarchy`: A run does, and an actor lives until it is stopped.
-/

namespace Yaaf

open Pruning Hierarchy HierarchyMove

variable {π : Type}

/-- The parent of a description, if it is there. -/
def System.head (s : System π) (d : Description) : Option IdT :=
  d.above.filter fun p => (s.live p).isSome

/-- The hierarchy the registered actors form. -/
def System.heads (s : System π) (k : IdT) : Option (Option IdT) :=
  (s.live k).map s.head

/-- What a step does to the hierarchy. -/
def System.moves (s : System π) (a : Action π) : List (HierarchyMove IdT) :=
  match s.inserting a with
  | some (id, d) => [.join id (s.head d)]
  | none => match s.stopTarget a with
    | some k => [.leave k]
    | none => match a with
      | .stop .sweep => [.disband]
      | _ => []

/-- The actors of the framework: `root`, `usr`, `sys` and `net`. -/
def founding (cfg : Config) : List (HierarchyMove IdT) :=
  [.join ⟨1⟩ none, .join ⟨2⟩ (some ⟨1⟩), .join ⟨3⟩ (some ⟨1⟩)] ++
    if cfg.network then [.join ⟨4⟩ (some ⟨1⟩)] else []

/-- A parent that is there lists its child. -/
def Held (s : System π) : Prop :=
  ∀ k d p w, s.live k = some d → d.above = some p → s.live p = some w → k ∈ w.children

section Heads

variable {cfg : Config} {name : String} {s s' : System π} {a : Action π}

theorem head_eq_some {d : Description} {p : IdT} :
    s.head d = some p ↔ d.above = some p ∧ (s.live p).isSome = true := by
  unfold System.head
  rw [Option.filter_eq_some_iff]

theorem heads_isSome (k : IdT) : (s.heads k).isSome = (s.live k).isSome :=
  Option.isSome_map

theorem heads_of_live (h : s'.live = s.live) : s'.heads = s.heads := by
  funext k
  unfold System.heads System.head
  rw [h]

/-- A parent that is named was registered. -/
theorem parent_registered {n : String} {id p : IdT} {b : ActorPtr} {d : Description}
    (hd : Described s.registrations s.calls id n b d) (hp : d.above = some p) :
    p ∈ s.registeredIds := by
  unfold Description.above at hp
  split at hp
  · exact absurd hp (by simp only [reduceCtorEq, not_false_eq_true])
  · rename_i hempty
    rw [← Option.some.inj hp]
    rcases hd.parent with ⟨hnone, _⟩ | ⟨r, hr, hid, _⟩
    · rw [hnone] at hempty
      exact absurd rfl hempty
    · exact List.mem_map.mpr ⟨r, hr, hid⟩

/-- So was the parent that a registered actor names. -/
theorem above_registered (h : Agrees s) {k p : IdT} {d : Description} (hd : s.live k = some d)
    (hp : d.above = some p) : p ∈ s.registeredIds := by
  rcases h.registered.entries k d hd with ⟨r, hr, _⟩
  refine parent_registered (h.registered.records r hr.mem) ?_
  rw [hr.descr]
  exact hp

/-- Inserting a child puts it on the list of its parent, if that is there. -/
theorem held_of_insert {id : IdT} {d : Description} (n : String)
    (hnew : ∀ k e, s.live k = some e → e.above ≠ some id) (hself : d.above ≠ some id)
    (h : Held s) : Held (s.insertActor id d n) := by
  intro k e p w he hp hw
  rw [insertActor_live] at he hw
  -- Nobody names the new id, so a parent that is there was there before.
  have hpid : p ≠ id := by
    intro heq
    by_cases hk : k = id
    · rw [if_pos hk, Option.some.injEq] at he
      exact hself (by rw [he, hp, heq])
    · rw [if_neg hk] at he
      rcases Option.map_eq_some_iff.mp he with ⟨e', he', rfl⟩
      refine hnew k e' he' ?_
      rw [← heq, ← hp]
      split <;> rfl
  rw [if_neg hpid] at hw
  rcases Option.map_eq_some_iff.mp hw with ⟨w', hw', rfl⟩
  by_cases hk : k = id
  · rw [if_pos hk, Option.some.injEq] at he
    rw [← he] at hp
    have hcond : p = d.parent ∧ d.parent.empty = false := by
      unfold Description.above at hp
      split at hp
      · exact absurd hp (by simp only [reduceCtorEq, not_false_eq_true])
      · rename_i hempty
        exact ⟨(Option.some.inj hp).symm, by simpa using hempty⟩
    rw [if_pos hcond, hk]
    exact List.mem_insert_self
  · rw [if_neg hk] at he
    rcases Option.map_eq_some_iff.mp he with ⟨e', he', rfl⟩
    have hkid : k ∈ w'.children := by
      refine h k e' p w' he' ?_ hw'
      rw [← hp]
      split <;> rfl
    split
    · exact List.mem_insert_of_mem hkid
    · exact hkid

/-- What an insertion does to the hierarchy. -/
theorem insert_heads {id : IdT} {d : Description} (n : String)
    (hnew : ∀ k e, s.live k = some e → e.above ≠ some id) (hself : d.above ≠ some id) :
    (s.insertActor id d n).heads = Function.update s.heads id (some (s.head d)) := by
  have hthere : ∀ p, p ≠ id → ((s.insertActor id d n).live p).isSome = (s.live p).isSome := by
    intro p hp
    rw [insertActor_live, if_neg hp, Option.isSome_map]
  have hhead : ∀ e : Description, e.above ≠ some id →
      (s.insertActor id d n).head e = s.head e := by
    intro e he
    unfold System.head
    cases habove : e.above with
    | none => rfl
    | some p =>
        have hp : p ≠ id := fun hp => he (by rw [habove, hp])
        simp only [Option.filter_some, hthere p hp]
  funext k
  unfold System.heads
  rw [insertActor_live]
  by_cases hk : k = id
  · rw [if_pos hk, hk, Function.update_self, Option.map_some, hhead d hself]
  · rw [if_neg hk, Function.update_of_ne hk, Option.map_map]
    cases hlive : s.live k with
    | none => rfl
    | some e =>
        have he := hnew k e hlive
        simp only [Option.map_some, Function.comp_apply, Option.some.injEq]
        split <;> exact hhead _ he

/-- The id an insertion uses is named by nobody. -/
theorem unnamed_of_inserting (h : Agrees s) (hfew : s.fewCalls) {id : IdT} {d : Description}
    (hins : s.inserting a = some (id, d)) :
    (∀ k e, s.live k = some e → e.above ≠ some id) ∧ d.above ≠ some id := by
  have hunused : id ∉ s.registeredIds := inserting_unused h hfew hins
  refine ⟨fun k e he hp => hunused (above_registered h he hp), fun hp => ?_⟩
  rcases ready_of_inserting hins with ⟨i, st, c, _, hi, hcs, _⟩
  have hdraft := (h.registered.drafts c (List.mem_of_getElem? hi)).2
  rw [hcs] at hdraft
  exact hunused (parent_registered hdraft hp)

theorem held_of_prunes (hp : Prunes Description.kids s.live s'.live) (h : Held s) : Held s' :=
  fun k d p w hd habove hw => h k d p w (prunes_some hp hd) habove (prunes_some hp hw)

theorem held_of_live (hlive : s'.live = s.live) (h : Held s) : Held s' :=
  held_of_prunes (by rw [hlive]; exact prunes_refl) h

theorem step_held (hs : step cfg s a = some s') (hagrees : Agrees s) (hfew : s.fewCalls)
    (h : Held s) : Held s' := by
  cases populationRule_of_step hs hagrees.registered with
  | kept hsame => exact held_of_live (samePopulation_live hsame) h
  | insert id d n hx ha hd hsame =>
      rcases unnamed_of_inserting hagrees hfew ha with ⟨hnew, hself⟩
      exact held_of_live (samePopulation_live hsame) (held_of_insert n hnew hself h)
  | stop addr r u hx ha hu hsame => exact held_of_prunes (leaving_of_stop hu hsame).prunes h
  | clear hx hj hsame =>
      refine held_of_live (samePopulation_live hsame) fun k d p w hd => absurd hd ?_
      unfold System.live
      rw [AList.lookup_empty]
      simp only [reduceCtorEq, not_false_eq_true]

/-- A parent that is there lists its child, in every run. -/
theorem reach_held {C : System π → Action π → Prop} (h : (context cfg name).Reach C s)
    (hfew : s.fewCalls) : Held s := by
  have hboth : Agrees s ∧ (s.fewCalls → Held s) := by
    refine always (fun s => Agrees s ∧ (s.fewCalls → Held s))
      ⟨⟨registered_constructed name, fun _ => ⟨rfl, rfl⟩, fun _ => List.nodup_nil⟩,
        fun _ k d p w hd => absurd hd (by simp only [System.live, constructed, AList.lookup_empty,
          reduceCtorEq, not_false_eq_true])⟩
      (fun s r h => ⟨⟨registered_usrRoot r h.1.registered, h.1.numbered, h.1.unused⟩, h.2⟩)
      (fun s a s' hs h => ⟨step_agrees hs h.1, fun hfew => ?_⟩) h
    have hbefore := fewCalls_of_step hs h.1.registered hfew
    exact step_held hs h.1 hbefore (h.2 hbefore)
  exact hboth.2 hfew

/-- What leads down in the hierarchy leads down along child lists. -/
theorem under_of_heads (h : Held s) {k j : IdT} (hb : Below id s.heads k j) :
    Under Description.kids s.live k j := by
  induction hb with
  | self => exact Under.self
  | @child j p above hj hp _ ih =>
      rcases Option.map_eq_some_iff.mp hj with ⟨d, hd, rfl⟩
      rcases head_eq_some.mp hp with ⟨habove, hthere⟩
      rcases Option.isSome_iff_exists.mp hthere with ⟨w, hw⟩
      exact Under.child ih hw (h j d p w hd habove hw)

/-- Child lists lead where the hierarchy does. -/
theorem under_iff_below (hagrees : Agrees s) (hlisted : Listed s) (hfew : s.fewCalls)
    (h : Held s) {k j : IdT} {d : Description} (hd : s.live j = some d) :
    Under Description.kids s.live k j ↔ Below id s.heads k j := by
  refine ⟨fun hu => ?_, under_of_heads h⟩
  induction hu generalizing d with
  | self => exact Below.self
  | @child i j e _ he hkid ih =>
      rcases hlisted i e he j hkid with ⟨r, hr, hid, habove⟩
      rcases hagrees.registered.entries j d hd with ⟨r', hr', _⟩
      -- There is one registration of that id.
      have hsame : r = r' :=
        registration_of_id hagrees.unused hfew hr hr'.mem (hid.trans hr'.id.symm)
      rw [hsame, hr'.descr] at habove
      refine Below.child (v := some i) ?_ rfl (ih he)
      refine Option.map_eq_some_iff.mpr ⟨d, hd, head_eq_some.mpr ⟨habove, ?_⟩⟩
      rw [he]
      rfl

open Classical in
/-- What a stop does to the hierarchy. -/
theorem leave_heads (hagrees : Agrees s) (hlisted : Listed s) (hfew : s.fewCalls) (h : Held s)
    {k : IdT} (hl : Leaving s s' k) :
    s'.heads = fun j => if Below id s.heads k j then none else s.heads j := by
  funext j
  unfold System.heads
  cases hj : s.live j with
  | none =>
      rw [prunes_none hl.prunes hj]
      exact (ite_self _).symm
  | some d =>
      have hiff := (leaves_iff_under hl hj).trans (under_iff_below hagrees hlisted hfew h hj)
      cases hj' : s'.live j with
      | none => exact (if_pos (hiff.mp hj')).symm
      | some d' =>
          have hstay : ¬ Below id s.heads k j := fun hb => by
            rw [hiff.mpr hb] at hj'
            exact absurd hj' (by simp only [reduceCtorEq, not_false_eq_true])
          have hsame := prunes_some hl.prunes hj'
          rw [hj, Option.some.injEq] at hsame
          refine Eq.trans ?_ (if_neg hstay).symm
          rw [← hsame, Option.map_some, Option.map_some, Option.some.injEq]
          -- A parent that left took its child along.
          refine Option.ext fun p => ?_
          rw [head_eq_some, head_eq_some]
          refine and_congr_right fun habove => ⟨fun hp => ?_, fun hp => ?_⟩
          · rcases Option.isSome_iff_exists.mp hp with ⟨w, hw⟩
            rw [prunes_some hl.prunes hw]
            rfl
          · rcases Option.isSome_iff_exists.mp hp with ⟨w, hw⟩
            by_contra hgone
            rw [Option.not_isSome_iff_eq_none] at hgone
            rw [hl.prunes.closed p w hw hgone j (h j d p w hj habove hw)] at hj'
            exact absurd hj' (by simp only [reduceCtorEq, not_false_eq_true])

/-- What a step that inserts does to who is registered. -/
theorem live_of_inserting (hs : step cfg s a = some s') {id : IdT} {d : Description}
    (hins : s.inserting a = some (id, d)) : ∃ n, s'.live = (s.insertActor id d n).live := by
  rcases ready_of_inserting hins with ⟨i, st, c, rfl, hi, hcs, rfl⟩
  cases (stepRule_of_step hs).2 with
  | add i st c' s' hi' hadd =>
      rw [hi, Option.some.injEq] at hi'
      subst hi'
      cases hadd with
      | insert d' hcs' hx =>
          rw [hcs] at hcs'
          cases hcs'
          exact ⟨c.actorName, rfl⟩
      | crash _ hcs' | lookup _ _ _ hcs' | initReturn _ hcs' | initThrow _ hcs' | post _ hcs' =>
          rw [hcs] at hcs'
          cases hcs'

/-- What the sweep leaves. -/
theorem live_of_sweep (hs : step cfg s (.stop .sweep) = some s') : s'.live = fun _ => none := by
  have hsweep := (stopStep_of_step hs).2
  simp only [stopStep, Option.ite_none_right_eq_some, Option.some.injEq] at hsweep
  funext k
  rw [← hsweep.2]
  exact AList.lookup_empty k

/-- Every other step of `context::stop` leaves all actors registered. -/
theorem live_of_stopStep {st : StopStep} (hs : stopStep cfg s st = some s') (hst : st ≠ .sweep) :
    s'.live = s.live := by
  cases st <;> simp only [stopStep, Option.ite_none_right_eq_some, Option.some.injEq] at hs
  case begin => rw [← hs]; rfl
  case dropPosts =>
      rcases hs with ⟨_, hs⟩
      split at hs <;> rw [Option.some.injEq] at hs <;> rw [← hs] <;> rfl
  case stopUserPool | stopSysPool | join => rw [← hs.2]; rfl
  case sweep => exact absurd rfl hst

/-- A step that makes no move changes nothing of who is registered. -/
theorem live_of_still (hs : step cfg s a = some s') (hmoves : s.moves a = []) :
    s'.live = s.live := by
  have hins : s.inserting a = none := by
    cases hins : s.inserting a with
    | none => rfl
    | some x =>
        exact absurd hmoves (by simp only [System.moves, hins, reduceCtorEq, not_false_eq_true])
  have ht : s.stopTarget a = none := by
    cases ht : s.stopTarget a with
    | none => rfl
    | some k =>
        exact absurd hmoves (by simp only [System.moves, hins, ht, reduceCtorEq, not_false_eq_true])
  cases (stepRule_of_step hs).2 with
  | call c s' h => exact samePopulation_live (callRule_population h ht)
  | userCall uc uc' c s' hc h =>
      simp only [System.stopTarget, hc, Option.bind_some] at ht
      exact samePopulation_live (callRule_population h ht)
  | add i st c s' hi h =>
      cases h with
      | insert d hc hx =>
          rw [inserting_ready st hi hc] at hins
          exact absurd hins (by simp only [reduceCtorEq, not_false_eq_true])
      | post m hc =>
          rw [System.postStart, userPost_rest]
          rfl
      | _ => rfl
  | task i st s' h =>
      cases h with
      | startHalt | startReturn => rfl
      | apply t pc s' hi h =>
          refine samePopulation_live (applyRule_population h ?_)
          simpa only [System.stopTarget, hi, ite_eq_right_iff, reduceCtorEq, imp_false,
            Bool.not_eq_true] using ht
  | worker st s' h => exact samePopulation_live (workerRule_population h)
  | stop st s' h =>
      refine live_of_stopStep (stopStep_of_step hs).2 ?_
      rintro rfl
      exact absurd hmoves (by
        simp only [System.moves, hins, ht, reduceCtorEq, not_false_eq_true])
  | userNothing | pick => rfl

/-- A step of the context makes its moves. -/
theorem moves_of_step (hs : step cfg s a = some s') (hagrees : Agrees s) (hlisted : Listed s)
    (hfew : s.fewCalls) (h : Held s) {past : List (HierarchyMove IdT)}
    (hpast : ∀ k above, .join k above ∈ past → k ∈ s.registeredIds) :
    (machine IdT).run ⟨s.heads, past⟩ (s.moves a) = some ⟨s'.heads, past ++ s.moves a⟩ := by
  cases hins : s.inserting a with
  | some x =>
      rcases x with ⟨id, d⟩
      rcases unnamed_of_inserting hagrees hfew hins with ⟨hnew, hself⟩
      rcases live_of_inserting hs hins with ⟨n, hlive⟩
      have hmoves : s.moves a = [.join id (s.head d)] := by simp only [System.moves, hins]
      have hfresh : Fresh past id := fun above hmem =>
        inserting_unused hagrees hfew hins (hpast id above hmem)
      have habove : ∀ p ∈ s.head d, (s.heads p).isSome = true := fun p hp => by
        rw [heads_isSome]
        exact (head_eq_some.mp hp).2
      rw [hmoves, heads_of_live hlive, insert_heads n hnew hself]
      exact run_join hfresh habove
  | none =>
      cases ht : s.stopTarget a with
      | some k =>
          have hmoves : s.moves a = [.leave k] := by simp only [System.moves, hins, ht]
          rw [hmoves, leave_heads hagrees hlisted hfew h (leaving_of_step hs ht)]
          rfl
      | none =>
          by_cases hmoves : s.moves a = []
          · rw [hmoves, heads_of_live (live_of_still hs hmoves), List.append_nil]
            rfl
          · simp only [System.moves, hins, ht] at hmoves ⊢
            split at hmoves
            · have hlive := live_of_sweep hs
              have hheads : s'.heads = fun _ => none := by
                funext k
                unfold System.heads
                rw [hlive]
                rfl
              rw [hheads]
              rfl
            · exact absurd rfl hmoves

/-- Who joins is registered from then on. -/
theorem registered_of_moves (hs : step cfg s a = some s') (hreg : Registered s) {k : IdT}
    {above : Option IdT} (hj : .join k above ∈ s.moves a) : k ∈ s'.registeredIds := by
  cases hins : s.inserting a with
  | some x =>
      rcases x with ⟨id, d⟩
      simp only [System.moves, hins, List.mem_singleton, join.injEq] at hj
      rcases live_of_inserting hs hins with ⟨n, hlive⟩
      have hthere : s'.live k = some d := by rw [hlive, insertActor_live, if_pos hj.1]
      rcases (step_registered hs hreg).entries k d hthere with ⟨r, hr, _⟩
      exact List.mem_map.mpr ⟨r, hr.mem, hr.id⟩
  | none =>
      cases ht : s.stopTarget a with
      | some j =>
          simp only [System.moves, hins, ht, List.mem_singleton, reduceCtorEq] at hj
      | none =>
          simp only [System.moves, hins, ht] at hj
          split at hj
          · exact absurd (List.mem_singleton.mp hj) (by
              simp only [reduceCtorEq, not_false_eq_true])
          · exact absurd hj List.not_mem_nil

/-- An `add_actor` that nothing interrupts is a join under the parent it was given, if
    that is there. -/
theorem addNow_founds (n : String) (parent : ActorAddress) (b : ActorPtr)
    {past : List (HierarchyMove IdT)} {k : IdT} {above : Option IdT} (hfresh : Fresh past k)
    (hk : s.newId = k) (hfree : s.live k = none)
    (hup : (if (s.live parent.id).isSome ∧ parent.id.empty = false then some parent.id else none) =
      above) (h : NoOrphans s) (hrun : (machine IdT).run empty past = some ⟨s.heads, past⟩) :
    (machine IdT).run empty (past ++ [.join k above]) =
      some ⟨(s.addNow n parent b).heads, past ++ [.join k above]⟩ := by
  subst hk
  let up := (s.actors.lookup parent.id).map fun p => (parent.id, p)
  let d := s.describe s.newId n b up
  have habove : d.above = above := by
    rw [← hup]
    unfold Description.above
    cases hlook : s.live parent.id with
    | none =>
        have hnone : up = none := by
          unfold System.live at hlook
          simp only [up, hlook, Option.map_none]
        have hempty : d.parent = IdT.none := by simp only [d, hnone, System.describe]
        rw [hempty]
        rfl
    | some w =>
        have hsome : up = some (parent.id, w) := by
          unfold System.live at hlook
          simp only [up, hlook, Option.map_some]
        have hparent : d.parent = parent.id := by simp only [d, hsome, System.describe]
        rw [hparent]
        cases parent.id.empty <;> rfl
  have hhead : s.head d = d.above := by
    unfold System.head
    rw [habove, ← hup]
    split
    · rename_i hcond
      rw [Option.filter_some, if_pos hcond.1]
    · rfl
  have hnew : ∀ k e, s.live k = some e → e.above ≠ some s.newId := fun k e he hp => by
    rcases h k e s.newId he hp with ⟨w, hw, _⟩
    rw [hfree] at hw
    exact absurd hw (by simp only [reduceCtorEq, not_false_eq_true])
  have hself : d.above ≠ some s.newId := fun hp => by
    rw [← hhead, head_eq_some, hfree] at hp
    exact Bool.false_ne_true hp.2
  have hheads : (s.addNow n parent b).heads = Function.update s.heads s.newId (some above) := by
    rw [← habove, ← hhead, ← insert_heads n hnew hself]
    refine heads_of_live ?_
    funext k
    simp only [System.addNow, System.postStart, System.emit, System.live]
    rw [userPost_rest]
    rfl
  rw [Machine.run_append, hrun, hheads]
  refine run_join hfresh fun p hp => ?_
  rw [heads_isSome]
  rw [← habove, ← hhead] at hp
  exact (head_eq_some.mp hp).2

/-- What `make_context` leaves is what its actors founded. -/
theorem founding_heads : (machine IdT).run empty (founding cfg) =
    some ⟨(makeContext (π := π) cfg name).heads, founding cfg⟩ := by
  have h0 : NoOrphans (constructed (π := π) name) := fun k d p hd => absurd hd (by
    simp only [System.live, constructed, AList.lookup_empty, reduceCtorEq, not_false_eq_true])
  have h1 := noOrphans_addNow "root" .null 0 rfl h0
  have h2 := noOrphans_addNow "usr" ⟨⟨1⟩, "/root"⟩ 1 rfl h1
  have h2' : NoOrphans { (((constructed (π := π) name).addNow "root" .null 0).addNow "usr"
      ⟨⟨1⟩, "/root"⟩ 1) with usrRoot := ⟨⟨2⟩, "/root/usr"⟩ } := h2
  have h3 := noOrphans_addNow "sys" ⟨⟨1⟩, "/root"⟩ 2 rfl h2'
  have r1 : (machine IdT).run empty [.join ⟨1⟩ none] = some ⟨_, [.join ⟨1⟩ none]⟩ :=
    addNow_founds "root" .null 0 (fun _ => List.not_mem_nil) rfl rfl rfl h0 rfl
  -- The id is not one of those that were given away.
  have f2 : Fresh [.join ⟨1⟩ none] (⟨2⟩ : IdT) := by simp [Fresh]
  have f3 : Fresh [.join ⟨1⟩ none, .join ⟨2⟩ (some ⟨1⟩)] (⟨3⟩ : IdT) := by simp [Fresh]
  have f4 : Fresh [.join ⟨1⟩ none, .join ⟨2⟩ (some ⟨1⟩), .join ⟨3⟩ (some ⟨1⟩)] (⟨4⟩ : IdT) := by
    simp [Fresh]
  have r2 : (machine IdT).run empty [.join ⟨1⟩ none, .join ⟨2⟩ (some ⟨1⟩)] =
      some ⟨_, [.join ⟨1⟩ none, .join ⟨2⟩ (some ⟨1⟩)]⟩ :=
    addNow_founds "usr" ⟨⟨1⟩, "/root"⟩ 1 f2 rfl rfl rfl h1 r1
  have r3 : (machine IdT).run empty [.join ⟨1⟩ none, .join ⟨2⟩ (some ⟨1⟩), .join ⟨3⟩ (some ⟨1⟩)] =
      some ⟨_, [.join ⟨1⟩ none, .join ⟨2⟩ (some ⟨1⟩), .join ⟨3⟩ (some ⟨1⟩)]⟩ :=
    addNow_founds "sys" ⟨⟨1⟩, "/root"⟩ 2 f3 rfl rfl rfl h2' r2
  unfold makeContext founding
  cases cfg.network with
  | false => exact r3
  | true =>
      exact addNow_founds "net" ⟨⟨1⟩, "/root"⟩ 3 f4 rfl rfl rfl h3 r3

/-- The founders are registered. -/
theorem founding_registered {k : IdT} {above : Option IdT} (hj : .join k above ∈ founding cfg) :
    k ∈ (makeContext (π := π) cfg name).registeredIds := by
  have hids : (makeContext (π := π) cfg name).registeredIds =
      [⟨1⟩, ⟨2⟩, ⟨3⟩] ++ if cfg.network then [⟨4⟩] else [] := by
    unfold makeContext
    cases cfg.network <;> rfl
  rw [hids]
  unfold founding at hj
  rcases List.mem_append.mp hj with hj | hj
  · refine List.mem_append_left _ ?_
    simp only [List.mem_cons, join.injEq, List.not_mem_nil, or_false] at hj ⊢
    exact hj.imp And.left (Or.imp And.left And.left)
  · refine List.mem_append_right _ ?_
    split at hj
    · rw [(join.inj (List.mem_singleton.mp hj)).1]
      rename_i hnet
      rw [if_pos hnet]
      exact List.mem_cons_self
    · exact absurd hj List.not_mem_nil

end Heads

/-- A context is a hierarchy that keeps its history, in every run with fewer calls of
    `add_actor` than there are ids. So an actor is registered exactly if it was added,
    and since then no stop was made of it or of an ancestor it was put under, and the
    context was not torn down. -/
theorem context_refines_hierarchy {cfg : Config} {name : String} {s : System π}
    {ls : List (HierarchyMove IdT)}
    (h : ((context cfg name).track (founding cfg) fun s a _ ls => ls ++ s.moves a).Reach
      Machine.free (s, ls)) (hfew : s.fewCalls) :
    (machine IdT).run empty ls = some ⟨s.heads, ls⟩ ∧
    (∀ k, (s.live k).isSome = true ↔ Spared ls k) ∧
    ∀ k j d, s.live j = some d → (Under Description.kids s.live k j ↔ Lineage ls k j) := by
  have hreach : (context cfg name).Reach Machine.free s := Machine.path_track h
  have hboth : Agrees s ∧ (s.fewCalls → (machine IdT).run empty ls = some ⟨s.heads, ls⟩ ∧
      ∀ k above, .join k above ∈ ls → k ∈ s.registeredIds) := by
    refine Machine.invariant_of
      (fun q : System π × List (HierarchyMove IdT) => (context cfg name).Reach Machine.free q.1)
      (fun q => Agrees q.1 ∧ (q.1.fewCalls → (machine IdT).run empty q.2 =
        some ⟨q.1.heads, q.2⟩ ∧ ∀ k above, .join k above ∈ q.2 → k ∈ q.1.registeredIds))
      (fun q hq => Machine.path_track hq) ⟨?_, fun _ => ⟨founding_heads, fun k above hj => ?_⟩⟩ ?_ h
    · exact reach_agrees (C := Machine.free) (Machine.Path.refl _)
    · exact founding_registered hj
    · rintro ⟨s, ls⟩ a ⟨s', ls'⟩ _ hstep hreach hreach' ⟨hagrees, ih⟩
      rcases Machine.track_step.mp hstep with ⟨hs, hls⟩
      simp only at hs hls ih hreach hreach' ⊢
      refine ⟨step_agrees hs hagrees, fun hfew => ?_⟩
      have hbefore := fewCalls_of_step hs hagrees.registered hfew
      rcases ih hbefore with ⟨hrun, hpast⟩
      rw [hls]
      refine ⟨?_, fun k above hj => ?_⟩
      · rw [Machine.run_append, hrun]
        exact moves_of_step hs hagrees (reach_listed hreach) hbefore
          (reach_held hreach hbefore) hpast
      · rcases List.mem_append.mp hj with hj | hj
        · rcases List.mem_map.mp (hpast k above hj) with ⟨r, hr, hid⟩
          exact List.mem_map.mpr ⟨r, step_registrations hs hagrees.registered r hr, hid⟩
        · exact registered_of_moves hs hagrees.registered hj
  have hrun := (hboth.2 hfew).1
  have hsound : Sound ⟨s.heads, ls⟩ := sound_of_reach (Machine.path_of_run _ _ _ hrun)
  refine ⟨hrun, fun k => ?_, fun k j d hd => ?_⟩
  · rw [← hsound.spared k, heads_isSome]
  · rw [under_iff_below hboth.1 (reach_listed hreach) hfew (reach_held hreach hfew) hd]
    refine below_iff_lineage hsound ?_
    rw [heads_isSome, hd]
    rfl

/-- The run in which a parent is stopped while its child is being added, with its
    moves. -/
def orphanMoves : System Nat × List (HierarchyMove IdT) :=
  ((context (.plain 1) "ctx").track (founding (.plain 1)) fun s a _ ls => ls ++ s.moves a).after
    orphanRun

theorem context_refines_hierarchy_orphanMoves :
    (orphanMoves.1.live ⟨5⟩).isSome = true ∧ Spared orphanMoves.2 ⟨5⟩ := by
  have hreach : ((context (.plain 1) "ctx").track (founding (.plain 1))
      fun s a _ ls => ls ++ s.moves a).Reach Machine.free (orphanMoves.1, orphanMoves.2) :=
    Machine.reach_after orphanRun
  have h := context_refines_hierarchy hreach (by unfold System.fewCalls; decide)
  have hlive : (orphanMoves.1.live ⟨5⟩).isSome = true := by decide
  exact ⟨hlive, (h.2.1 ⟨5⟩).mp hlive⟩

example : orphanMoves.2.drop 3 = [.join ⟨4⟩ (some ⟨2⟩), .leave ⟨4⟩, .join ⟨5⟩ none] := by decide

end Yaaf
