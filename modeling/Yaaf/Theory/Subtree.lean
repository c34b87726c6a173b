import Yaaf.Library.Family
import Yaaf.Theory.Forest

/-!
# What a Stop Removes

When the live actors form a forest, `stop_actor` removes the actor it is given and
everybody below it, and nothing else. What stands on a child list and is gone
already is passed over.

The order in which they go is left to the iteration order of the child sets, but
for one thing: whoever is below goes first. Each that goes has its `on_stop`, and
then its parent, which is still registered, has its `on_child_stopped`. So the
whole record of a stop is one list of ids, nobody on it twice and no descendant
after an ancestor, with the same two entries for each.

Two stops add up to the removal of what is below the one or the other, whichever
comes first.

## Main definitions

* `Forest`: The live actors form a forest.
* `System.farewell`: What is recorded when one actor goes.
* `Buries`: A stop, with the order in which the actors went.
* `Removes`: The effect of a stop on a forest.

## Theorems

* `stopActorImpl_buries`: Every stop of a forest has such an order.
* `forest_of_reach`: Where runs lead to forests.
* `stop_actor_removes_subtree`: What a stop of a forest does.
-/

namespace Yaaf

open Pruning

variable {π : Type}

/-- The live actors form a forest: parents and child lists agree on them. -/
def Forest (s : System π) : Prop :=
  Family Description.above Description.kids s.live

/-- The notice to the parent of the actor registered under an id. -/
def System.notice (s : System π) (r : ActorStoppingReason) (k : IdT) (d : Description) :
    List (Event π) :=
  match d.above.bind s.live with
  | none => []
  | some p => [.childStopped p.actor (.ofId k) r]

/-- What is recorded when the actor registered under an id goes. -/
def System.farewell (s : System π) (r : ActorStoppingReason) (k : IdT) : List (Event π) :=
  match s.live k with
  | none => []
  | some d => .stopped k d.actor :: s.notice r k d

/-- A stop, with the order in which the actors went: each once, and none after
    somebody it is below. -/
structure Buries (r : ActorStoppingReason) (s s' : System π) (order : List IdT) : Prop where
  nodup : order.Nodup
  mem : ∀ k, k ∈ order ↔ ∃ d, Leaves s s' k d
  childrenFirst : order.Pairwise fun j k => ¬ Below Description.above s.live j k
  trace : s'.trace = s.trace ++ order.flatMap (s.farewell r)

section Burying

variable {cfg : Config} {s s' t u : System π} {r : ActorStoppingReason}

theorem live_of_above {d : Description} :
    d.above.bind s.live = if d.parent.empty then none else s.live d.parent := by
  unfold Description.above
  split <;> rfl

theorem tellParent_notice (k : IdT) (d : Description) :
    s.tellParent d (.ofId k) r = { s with trace := s.trace ++ s.notice r k d } := by
  unfold System.tellParent System.notice
  rw [live_of_above]
  split
  · rw [List.append_nil]
  · unfold System.live
    cases s.actors.lookup d.parent with
    | none => rw [List.append_nil]
    | some p => rfl

/-- The last part of a stop, with all it records. -/
theorem stopSelf_farewell {k : IdT} {d : Description} (hd : s.live k = some d) :
    (stopSelf cfg s (.ofId k) r d).trace = s.trace ++ s.farewell r k := by
  have htold : (stopSelf cfg s (.ofId k) r d).trace =
      ((s.onStop cfg k d.actor).tellParent d (.ofId k) r).trace := rfl
  rw [htold, tellParent_notice]
  change s.trace ++ [.stopped k d.actor] ++ s.notice r k d = _
  unfold System.farewell
  rw [hd, List.append_assoc]
  rfl

/-- Whoever is there and not gone has its parent, so its farewell is the same. -/
theorem farewell_congr (hforest : Forest s) (hst : Stops cfg s t) {k : IdT} {d : Description}
    (hd : t.live k = some d) : t.farewell r k = s.farewell r k := by
  have hsame : d.above.bind t.live = d.above.bind s.live := by
    cases hp : d.above with
    | none => rfl
    | some p =>
        rcases (rooted_of_prunes hforest.rooted hst.prunes) k d p hd hp with ⟨w, hw, _⟩
        change t.live p = s.live p
        rw [hw, prunes_some hst.prunes hw]
  unfold System.farewell System.notice
  rw [hd, prunes_some hst.prunes hd]
  simp only [hsame]

theorem buries_refl : Buries r s s [] :=
  ⟨List.nodup_nil, fun _ => ⟨fun h => absurd h List.not_mem_nil, fun ⟨_, h⟩ =>
    absurd h not_leaves_self⟩, List.Pairwise.nil, (List.append_nil _).symm⟩

theorem buries_trans {order order' : List IdT} (hforest : Forest s) (hst : Stops cfg s t)
    (htu : Stops cfg t u) (h : Buries r s t order) (h' : Buries r t u order') :
    Buries r s u (order ++ order') where
  nodup := by
    refine List.nodup_append.mpr ⟨h.nodup, h'.nodup, fun k hk j hj hkj => ?_⟩
    rcases (h.mem k).mp hk with ⟨d, hd⟩
    rcases (h'.mem j).mp hj with ⟨e, he⟩
    rw [← hkj, Leaves, hd.2] at he
    exact absurd he.1 (by simp only [reduceCtorEq, not_false_eq_true])
  mem k := by
    rw [List.mem_append, h.mem, h'.mem, ← exists_or]
    exact exists_congr fun d => (leaves_split hst.prunes htu.prunes).symm
  childrenFirst := by
    refine List.pairwise_append.mpr ⟨h.childrenFirst, ?_, fun j hj k hk hbelow => ?_⟩
    · refine List.Pairwise.imp_of_mem (fun {j k} hj hk hno hbelow => hno ?_) h'.childrenFirst
      rcases (h'.mem k).mp hk with ⟨d, hd⟩
      exact below_of_live (rooted_of_prunes hforest.rooted hst.prunes) hst.prunes hd.1 hbelow
    · -- Whoever is below somebody that went first went along.
      rcases (h.mem j).mp hj with ⟨d, hd⟩
      rcases (h'.mem k).mp hk with ⟨e, he⟩
      have hgone := gone_of_below hforest.rooted hst.prunes hd.2 hbelow
      exact absurd (hgone.symm.trans he.1) (by simp only [reduceCtorEq, not_false_eq_true])
  trace := by
    have hsame : order'.flatMap (t.farewell r) = order'.flatMap (s.farewell r) := by
      refine List.flatMap_congr fun k hk => ?_
      rcases (h'.mem k).mp hk with ⟨d, hd⟩
      exact farewell_congr hforest hst hd.1
    rw [h'.trace, h.trace, List.flatMap_append, List.append_assoc, hsame]

theorem buries_self {k : IdT} {d : Description} (hd : s.live k = some d) :
    Buries r s (stopSelf cfg s (.ofId k) r d) [k] where
  nodup := List.nodup_singleton k
  mem j := by
    have hid : s.live (ActorAddress.ofId k).id = some d := hd
    rw [List.mem_singleton]
    constructor
    · rintro rfl
      exact ⟨d, (leaves_stopSelf hid).mpr (Or.inl ⟨rfl, rfl⟩)⟩
    · rintro ⟨e, he⟩
      rcases (leaves_stopSelf hid).mp he with ⟨hk, _⟩ | ⟨_, he⟩
      · exact hk
      · exact absurd he not_leaves_self
  childrenFirst := List.pairwise_singleton _ k
  trace := by rw [stopSelf_farewell hd, List.flatMap_singleton]

theorem composes_buries :
    Composes cfg (Forest (π := π)) fun s t => ∃ order, Buries r s t order where
  keep _ _ hst hforest := family_of_prunes hforest hst.prunes
  apart _ _ _ _ hforest hd hc := not_under_kid hforest hd hc
  refl _ _ := ⟨[], buries_refl⟩
  trans _ _ _ hforest hst htu h h' := by
    rcases h with ⟨order, horder⟩
    rcases h' with ⟨order', horder'⟩
    exact ⟨order ++ order', buries_trans hforest hst htu horder horder'⟩

/-- Every stop of a forest has such an order. -/
theorem stopActorImpl_buries {fuel : Nat} {k : IdT} (hforest : Forest s)
    (h : System.stopActorImpl cfg fuel (.ofId k) r s = some t) : ∃ order, Buries r s t order :=
  stopActorImpl_rule composes_buries (fun _ k _ _ hd _ => ⟨[k], buries_self hd⟩) fuel k s t
    hforest h

theorem forest_of_stops (hforest : Forest s) (hst : Stops cfg s t) : Forest t :=
  family_of_prunes hforest hst.prunes

/-- A stop of a forest comes to an end. -/
theorem stopActorImplSafety_forest (hforest : Forest s) (addr : ActorAddress) :
    ∃ u, s.stopActorImplSafety cfg addr r = some u := by
  have hkeep : ∀ t u : System π, Stops cfg t u →
      (Forest t ∧ ∀ k d, t.live k = some d → k ∈ s.actors.keys) →
      Forest u ∧ ∀ k d, u.live k = some d → k ∈ s.actors.keys := fun t u htu h =>
    ⟨forest_of_stops h.1 htu, fun k d hd => h.2 k d (prunes_some htu.prunes hd)⟩
  exact stopActorImpl_total r hkeep
    (fun t u k htu => weight_of_prunes htu.prunes s.actors.keys k)
    (fun t k d c h hd hc => weight_lt h.1 (h.2 k d hd) hd hc) _ _ s
    ⟨hforest, fun k d hd => mem_keys_of_live hd⟩ (Nat.lt_succ_of_le (weight_le _ _))

/-- Who is registered after a stop. -/
theorem live_of_stop (hforest : Forest s) {addr : ActorAddress}
    (h : s.stopActorImplSafety cfg addr r = some u) (j : IdT) :
    u.live j = none ↔ s.live j = none ∨ Below Description.above s.live addr.id j := by
  rcases stopActorImplSafety_stops h with ⟨hstops, hgone⟩
  constructor
  · intro hj
    cases hd : s.live j with
    | none => exact Or.inl rfl
    | some d =>
        exact Or.inr (below_of_under hforest hd (stopActorImplSafety_under h j d ⟨hd, hj⟩))
  · rintro (hj | hj)
    · exact prunes_none hstops.prunes hj
    · exact gone_of_below hforest.rooted hstops.prunes hgone hj

/-- The same for two stops, one after the other. -/
theorem live_of_stops (hforest : Forest s) {addr addr' : ActorAddress}
    (h : s.stopActorImplSafety cfg addr r = some u)
    (h' : u.stopActorImplSafety cfg addr' r = some t) (j : IdT) :
    t.live j = none ↔ s.live j = none ∨ Below Description.above s.live addr.id j ∨
      Below Description.above s.live addr'.id j := by
  have hprunes := (stopActorImplSafety_stops h).1.prunes
  have hforest' := forest_of_stops hforest (stopActorImplSafety_stops h).1
  rw [live_of_stop hforest' h', live_of_stop hforest h]
  constructor
  · rintro ((hj | hj) | hj)
    · exact Or.inl hj
    · exact Or.inr (Or.inl hj)
    · exact Or.inr (Or.inr (below_of_prunes hprunes hj))
  · rintro (hj | hj | hj)
    · exact Or.inl (Or.inl hj)
    · exact Or.inl (Or.inr hj)
    · -- Either it fell the first time, or its way up is still there.
      cases hd : u.live j with
      | none => exact Or.inl ((live_of_stop hforest h j).mp hd)
      | some d => exact Or.inr (below_of_live hforest'.rooted hprunes hd hj)

/-- Whoever is below somebody who is there is there. -/
theorem live_of_below {k j : IdT} {d : Description} (hd : s.live k = some d)
    (h : Below Description.above s.live k j) : ∃ e, s.live j = some e := by
  cases h with
  | self => exact ⟨d, hd⟩
  | child hj _ _ => exact ⟨_, hj⟩

/-- A stop that removes the same actors leaves the same registry. -/
theorem registry_of_stops (ht : Stops cfg s t) (hu : Stops cfg s u)
    (h : ∀ j, t.live j = none ↔ u.live j = none) (j : IdT) :
    t.live j = u.live j ∧ t.mboxes.lookup j = u.mboxes.lookup j := by
  cases hs : s.live j with
  | none =>
      have htn := prunes_none ht.prunes hs
      have hun := prunes_none hu.prunes hs
      rw [ht.mboxesKept j (htn.trans hs.symm), hu.mboxesKept j (hun.trans hs.symm), htn, hun]
      exact ⟨rfl, rfl⟩
  | some d =>
      rcases ht.prunes.only j with hkept | hgone
      · have hnot : u.live j ≠ none := fun hc => by
          rw [← h j, hkept, hs] at hc
          exact absurd hc (by simp only [reduceCtorEq, not_false_eq_true])
        have hkept' := (hu.prunes.only j).resolve_right hnot
        rw [ht.mboxesKept j hkept, hu.mboxesKept j hkept', hkept, hkept']
        exact ⟨rfl, rfl⟩
      · have hgone' := (h j).mp hgone
        rw [ht.mboxesGone j d ⟨hs, hgone⟩, hu.mboxesGone j d ⟨hs, hgone'⟩, hgone, hgone']
        exact ⟨rfl, rfl⟩

/-- The effect of a stop on a forest, when its target is registered. -/
structure Removes (r : ActorStoppingReason) (s s' : System π) (k : IdT) : Prop where
  gone : ∀ j, Below Description.above s.live k j → s'.live j = none ∧ s'.mboxes.lookup j = none
  kept : ∀ j, ¬ Below Description.above s.live k j →
    s'.live j = s.live j ∧ s'.mboxes.lookup j = s.mboxes.lookup j
  objs : ∀ a, (∀ j d, s.live j = some d → Below Description.above s.live k j → d.actor ≠ a) →
    s'.objs a = s.objs a
  rest : s' = { s with
    actors := s'.actors, mboxes := s'.mboxes, objs := s'.objs, trace := s'.trace }
  trace : ∃ order : List IdT, order.Nodup ∧
    (∀ j, j ∈ order ↔ (s.live j).isSome = true ∧ Below Description.above s.live k j) ∧
    order.Pairwise (fun i j => ¬ Below Description.above s.live i j) ∧
    s'.trace = s.trace ++ order.flatMap (s.farewell r)

theorem removes_of_stop (hforest : Forest s) {addr : ActorAddress} {d : Description}
    (hd : s.live addr.id = some d) (h : s.stopActorImplSafety cfg addr r = some u) :
    Removes r s u addr.id := by
  rcases stopActorImplSafety_stops h with ⟨hstops, _⟩
  have hleaves : ∀ j, (∃ e, Leaves s u j e) ↔
      (s.live j).isSome = true ∧ Below Description.above s.live addr.id j := by
    intro j
    constructor
    · rintro ⟨e, he, hj⟩
      refine ⟨by rw [he]; rfl, ((live_of_stop hforest h j).mp hj).resolve_left ?_⟩
      rw [he]
      exact Option.some_ne_none e
    · rintro ⟨hsome, hb⟩
      rcases Option.isSome_iff_exists.mp hsome with ⟨e, he⟩
      exact ⟨e, he, (live_of_stop hforest h j).mpr (Or.inr hb)⟩
  refine ⟨fun j hb => ?_, fun j hb => ?_, fun a ha => ?_, hstops.rest, ?_⟩
  · rcases live_of_below hd hb with ⟨e, he⟩
    rcases (hleaves j).mpr ⟨by rw [he]; rfl, hb⟩ with ⟨e, hl⟩
    exact ⟨hl.2, hstops.mboxesGone j e hl⟩
  · have hkept : u.live j = s.live j := by
      rcases hstops.prunes.only j with hkept | hgone
      · exact hkept
      · rw [hgone, ((live_of_stop hforest h j).mp hgone).resolve_right hb]
    exact ⟨hkept, hstops.mboxesKept j hkept⟩
  · exact hstops.statusKept a fun j e hl => ha j e hl.1 ((hleaves j).mp ⟨e, hl⟩).2
  · rcases stopActorImpl_buries hforest h with ⟨order, horder⟩
    exact ⟨order, horder.nodup, fun j => (horder.mem j).trans (hleaves j), horder.childrenFirst,
      horder.trace⟩

/-- A stop of what is not there does nothing. -/
theorem stop_of_absent {addr : ActorAddress} (hd : s.live addr.id = none) :
    s.stopActorImplSafety cfg addr r = some s := by
  unfold System.live at hd
  simp only [System.stopActorImplSafety, System.stopActorImpl, ActorAddress.ofId, hd]

end Burying

/-- Whatever id is on a child list was registered with that parent. -/
def Listed (s : System π) : Prop :=
  ∀ k d, s.live k = some d → ∀ c ∈ d.children,
    ∃ r ∈ s.registrations, r.descr.address.id = c ∧ r.descr.above = some k

section Reached

variable {cfg : Config} {name : String} {s s' : System π}

theorem listed_of_fewer (hregs : s'.registrations = s.registrations)
    (hlive : ∀ k d, s'.live k = some d → s.live k = some d) (h : Listed s) : Listed s' := by
  intro k d hd c hc
  rw [hregs]
  exact h k d (hlive k d hd) c hc

theorem listed_of_insert {id : IdT} {n : String} {a : ActorPtr} {d : Description}
    (hd : Described s.registrations s.calls id n a d) (h : Listed s) :
    Listed (s.insertActor id d n) := by
  intro k e he c hc
  rw [insertActor_registrations]
  rw [insertActor_live] at he
  by_cases hk : k = id
  · -- The new entry lists nobody.
    rw [if_pos hk, Option.some.injEq] at he
    rw [← he, hd.children] at hc
    exact absurd hc List.not_mem_nil
  · rw [if_neg hk] at he
    rcases Option.map_eq_some_iff.mp he with ⟨p, hp, rfl⟩
    have hold : c ∈ p.children → ∃ r ∈ s.registrations ++ [⟨d, n, s.nextBox⟩],
        r.descr.address.id = c ∧ r.descr.above = some k := fun hc => by
      rcases h k p hp c hc with ⟨r, hr, hid⟩
      exact ⟨r, List.mem_append_left _ hr, hid⟩
    by_cases hparent : k = d.parent ∧ d.parent.empty = false
    · rw [if_pos hparent] at hc
      rcases List.mem_insert_iff.mp hc with rfl | hc
      · refine ⟨⟨d, n, s.nextBox⟩, List.mem_append_right _ List.mem_cons_self, ?_, ?_⟩
        · rw [hd.address]
        · unfold Description.above
          rw [if_neg (Bool.eq_false_iff.mp hparent.2), hparent.1]
      · exact hold hc
    · rw [if_neg hparent] at hc
      exact hold hc

theorem step_listed {a : Action π} (hs : step cfg s a = some s') (hreg : Registered s)
    (h : Listed s) : Listed s' := by
  have hsame : ∀ {u v : System π}, SameRegistry u v → Listed u → Listed v := fun hr hu =>
    listed_of_fewer (sameRegistry_registrations hr) (fun k d hd => by
      unfold System.live at hd ⊢
      rw [← hr.actors]
      exact hd) hu
  cases registryRule_of_stepRule (stepRule_of_step hs).2 with
  | same s' hr hw => exact hsame hr h
  | call n b cur =>
      have hregs : (s.takeId n).registrations = s.registrations := by
        unfold System.registrations System.takeId
        rw [List.filterMap_append]
        exact List.append_nil _
      exact listed_of_fewer (s := s) hregs (fun _ _ hd => hd) h
  | add i c s' hi hadd =>
      cases hadd with
      | insert d hc hx =>
          have hdraft := (hreg.drafts c (List.mem_of_getElem? hi)).2
          rw [hc] at hdraft
          exact listed_of_insert hdraft h
      | post m hc =>
          refine listed_of_fewer ?_ (fun k d hd => ?_) h
          · rw [System.postStart, userPost_rest]
            unfold System.registrations
            change List.filterMap _ (s.trace ++ [.startPosted m]) = _
            rw [List.filterMap_append]
            exact List.append_nil _
          · rw [System.postStart, userPost_rest] at hd
            exact hd
      | _ => exact h
  | stop u s' hx hu hr hw =>
      exact hsame hr (listed_of_fewer (stops_registrations hu)
        (fun k d hd => prunes_some hu.prunes hd) h)
  | clear s' hx hw hr =>
      refine hsame hr fun k d hd => absurd hd ?_
      unfold System.live
      rw [AList.lookup_empty]
      simp only [reduceCtorEq, not_false_eq_true]
  | worker s' hrule => exact hsame (workerRule_same hrule hreg) h

theorem reach_listed {C : System π → Action π → Prop} (h : (context cfg name).Reach C s) :
    Listed s := by
  have hboth : Registered s ∧ Listed s := always (fun s => Registered s ∧ Listed s)
    ⟨registered_constructed name, fun k d hd => absurd hd (by
      simp only [System.live, constructed, AList.lookup_empty, reduceCtorEq, not_false_eq_true])⟩
    (fun s r h => ⟨registered_usrRoot r h.1, h.2⟩)
    (fun s a s' hs h => ⟨step_registered hs h.1, step_listed hs h.1 h.2⟩) h
  exact hboth.2

/-- Where nobody's parent has gone, and ids have not come around, the live actors form
    a forest. -/
theorem forest_of_noOrphans {C : System π → Action π → Prop} (h : (context cfg name).Reach C s)
    (hroot : NoOrphans s) (hfew : s.fewCalls) : Forest s where
  rooted := hroot
  own k d c e hd hc he := by
    have hagrees : Agrees s := reach_agrees h
    rcases reach_listed h k d hd c hc with ⟨r, hr, hid, habove⟩
    rcases hagrees.registered.entries c e he with ⟨r', hr', _⟩
    -- There is one registration of that id.
    have hsame : r = r' :=
      registration_of_id hagrees.unused hfew hr hr'.mem (hid.trans hr'.id.symm)
    rw [hsame, hr'.descr] at habove
    exact habove
  acyclic k d p hd hp hbelow := by
    rcases hroot k d p hd hp with ⟨w, hw, hkid⟩
    have hground := grounded_of_registered (reach_registered h) (reach_graded h)
    exact not_under_child hground hw hkid (under_of_below hroot hbelow)

/-- So it is where no child is put under a parent that has gone. -/
theorem forest_of_reach (h : (context cfg name).Reach Adopts s) (hfew : s.fewCalls) : Forest s :=
  forest_of_noOrphans h (reach_noOrphans h) hfew

end Reached

/-- A stop of a forest comes to an end. If its target is not registered, nothing
    happens at all. Otherwise exactly what is below the target goes, each once and
    descendants first, with its `on_stop` and the notice to its parent. Stopping
    the same actor again does nothing, and of two stops either may come first.

    The callbacks `on_stop` and `on_child_stopped` are taken to return. -/
theorem stop_actor_removes_subtree {cfg : Config} {s : System π} (hforest : Forest s)
    (addr : ActorAddress) (r : ActorStoppingReason) :
    (s.canExclude = true →
      contextCall cfg s (.stopActor addr) = s.stopActorImplSafety cfg addr .manual) ∧
    ∃ u, s.stopActorImplSafety cfg addr r = some u ∧
      (s.live addr.id = none → u = s) ∧
      ((s.live addr.id).isSome = true → Removes r s u addr.id) ∧
      u.stopActorImplSafety cfg addr r = some u ∧
      ∀ addr' u', s.stopActorImplSafety cfg addr' r = some u' →
        ∃ t t', u.stopActorImplSafety cfg addr' r = some t ∧
          u'.stopActorImplSafety cfg addr r = some t' ∧
          ∀ j, t.live j = t'.live j ∧ t.mboxes.lookup j = t'.mboxes.lookup j := by
  have htotal : ∃ u, s.stopActorImplSafety cfg addr r = some u :=
    stopActorImplSafety_forest hforest addr
  rcases htotal with ⟨u, hu⟩
  have hstops := stopActorImplSafety_stops hu
  refine ⟨fun hx => if_pos hx, u, hu, fun hnone => ?_, fun hsome => ?_, stop_of_absent hstops.2,
    fun addr' u' hu' => ?_⟩
  · rw [stop_of_absent hnone, Option.some.injEq] at hu
    exact hu.symm
  · rcases Option.isSome_iff_exists.mp hsome with ⟨d, hd⟩
    exact removes_of_stop hforest hd hu
  · have hstops' := stopActorImplSafety_stops hu'
    rcases stopActorImplSafety_forest (forest_of_stops hforest hstops.1) addr' with ⟨t, ht⟩
    rcases stopActorImplSafety_forest (forest_of_stops hforest hstops'.1) addr with ⟨t', ht'⟩
    refine ⟨t, t', ht, ht', registry_of_stops (stops_trans hstops.1 (stopActorImplSafety_stops ht).1)
      (stops_trans hstops'.1 (stopActorImplSafety_stops ht').1) fun j => ?_⟩
    rw [live_of_stops hforest hu ht, live_of_stops hforest hu' ht']
    exact or_congr_right or_comm

/-- Under `/root/usr`, an actor with a child and another one beside it. -/
def familyRun : List (Action Nat) :=
  register "p" .null 3 ++ register "c" ⟨⟨4⟩, "/root/usr/p"⟩ 4 ++ register "q" .null 5

theorem stop_actor_removes_subtree_familyRun :
    ∃ u, ((context (.plain 1) "ctx").after familyRun).stopActorImplSafety (.plain 1)
      ⟨⟨4⟩, "/root/usr/p"⟩ .manual = some u ∧ Removes .manual
        ((context (.plain 1) "ctx").after familyRun) u ⟨4⟩ := by
  have hforest : Forest ((context (.plain 1) "ctx").after familyRun) :=
    forest_of_reach (Machine.reach_meets _ (by decide)) (by unfold System.fewCalls; decide)
  rcases (stop_actor_removes_subtree hforest ⟨⟨4⟩, "/root/usr/p"⟩ .manual).2 with
    ⟨u, hu, _, hremoves, _⟩
  exact ⟨u, hu, hremoves (by decide)⟩

end Yaaf
