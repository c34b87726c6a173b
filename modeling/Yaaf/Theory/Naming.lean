import Yaaf.Theory.Population

/-!
# Finding Actors by Name

`_id_by_name` has one id for a name, and two actors can have one name: nothing
in `add_actor` looks for a holder before it overwrites the entry, and two
children of one parent may be given the same name. `stop_actor_impl` erases
the other two maps and leaves this one, so the name of a stopped actor keeps
pointing at an id that is not registered.

Either alone would do no harm. Together they hide a live actor: stop the
younger of two namesakes, and the name resolves to nothing although the elder
still has it. Which stops do this can be told beforehand: a stop hides an
actor exactly if it spares the actor and takes along the one its name points
at. `KeepsNames` is the condition that a step is not such a stop.

## Main definitions

* `Findable`: Every live actor's name leads to a live actor of that name.
* `KeepsNames`: The step hides nobody.

## Theorems

* `findable_iff`: Being findable, as a statement about the maps.
* `step_findable`: Steps that meet the condition keep everybody findable.
* `keepsNames_of_findable`: A step that does not meet it hides somebody.
* `findable_by_name`: The two together, along a run.
-/

namespace Yaaf

open Pruning

variable {π : Type}

/-- Every live actor's path name leads to a live actor with that path name,
    by both functions that take a name. -/
def Findable (s : System π) : Prop :=
  ∀ k d, s.live k = some d → ∃ d', (s.getAddress d.address.pathname).empty = false ∧
    s.live (s.getAddress d.address.pathname).id = some d' ∧
    d'.address = s.getAddress d.address.pathname ∧ d'.address.pathname = d.address.pathname ∧
    s.getActorByName d.address.pathname = some d'.actor

/-- The name has an entry that leads to a live actor of that name. -/
def System.resolves (s : System π) (n : String) : Prop :=
  ∃ j d, s.idByName.lookup n = some j ∧ s.live j = some d ∧ d.name = n ∧ j ≠ ⟨0⟩

/-- The step hides nobody. The id it inserts is neither zero nor in use, and
    whoever survives the subtree it stops has a namesake entry that survives
    it, too. -/
structure KeepsNames (s : System π) (a : Action π) : Prop where
  insert : ∀ x ∈ s.inserting a, s.live x.1 = none ∧ x.1 ≠ ⟨0⟩
  stop : ∀ k ∈ s.stopTarget a, ∀ j d, s.live j = some d → ¬ Under Description.kids s.live k j →
    ∃ i, s.idByName.lookup d.name = some i ∧ ¬ Under Description.kids s.live k i

section Naming

variable {cfg : Config} {s s' : System π} {a : Action π}

theorem getAddress_of_resolves (h : Filed s) {n : String} {j : IdT} {d : Description}
    (hn : s.idByName.lookup n = some j) (hd : s.live j = some d) :
    s.getAddress n = ⟨j, d.name⟩ ∧ s.getActorByName n = some d.actor := by
  have haddress := live_address h hd
  unfold System.live at hd
  refine ⟨?_, ?_⟩
  · simp only [System.getAddress, hn, Option.bind_some, hd, haddress]
  · simp only [System.getActorByName, hn, Option.bind_some, hd, Option.map_some]

/-- Being findable, as a statement about the maps. -/
theorem findable_iff (h : Filed s) :
    Findable s ↔ ∀ k d, s.live k = some d → s.resolves d.name := by
  constructor
  · intro hf k d hd
    rcases hf k d hd with ⟨d', hsome, hlive, haddress, hname, _⟩
    rw [live_address h hd] at hsome hlive hname
    simp only at hsome hlive hname
    cases hn : s.idByName.lookup d.name with
    | none =>
        simp only [System.getAddress, hn, Option.bind_none] at hsome
        exact absurd hsome (by decide)
    | some j =>
        cases hj : s.live j with
        | none =>
            unfold System.live at hj
            simp only [System.getAddress, hn, Option.bind_some, hj] at hsome
            exact absurd hsome (by decide)
        | some e =>
            have hget := (getAddress_of_resolves h hn hj).1
            rw [hget] at hlive hsome
            simp only at hlive
            rw [hj, Option.some.injEq] at hlive
            subst hlive
            rw [live_address h hj] at hname
            refine ⟨j, e, hn, hj, hname, fun hzero => ?_⟩
            rw [hzero] at hsome
            exact absurd hsome Bool.noConfusion
  · intro hr k d hd
    rcases hr k d hd with ⟨j, e, hn, hj, hname, hzero⟩
    rcases getAddress_of_resolves h hn hj with ⟨hget, hactor⟩
    have hpath : d.address.pathname = d.name := by rw [live_address h hd]
    rw [hpath, hget, hactor]
    refine ⟨e, ?_, hj, live_address h hj, ?_, rfl⟩
    · simpa [ActorAddress.empty] using hzero
    · rw [live_address h hj]
      exact hname

/-- An insertion points its name at itself, and leaves the others alone. -/
theorem resolves_of_insert {id : IdT} {d : Description} {n : String}
    (hfree : s.live id = none) (hzero : id ≠ ⟨0⟩)
    (hlive : ∀ k, s'.live k = (s.insertActor id d n).live k)
    (hnames : s'.idByName = s.idByName.insert d.name id)
    (h : ∀ k e, s.live k = some e → s.resolves e.name) :
    ∀ k e, s'.live k = some e → s'.resolves e.name := by
  -- Descriptions change only in their child sets.
  have hkept : ∀ j w, s.live j = some w → ∃ w', s'.live j = some w' ∧ w'.name = w.name := by
    intro j w hw
    have hne : j ≠ id := fun hj => by
      rw [hj, hfree] at hw
      exact absurd hw (by simp only [reduceCtorEq, not_false_eq_true])
    rw [hlive, insertActor_live, if_neg hne, hw]
    refine ⟨_, rfl, ?_⟩
    split <;> rfl
  have hself : s'.resolves d.name := by
    refine ⟨id, d, ?_, ?_, rfl, hzero⟩
    · rw [hnames, AList.lookup_insert]
    · rw [hlive, insertActor_live, if_pos rfl]
  intro k e he
  by_cases hname : e.name = d.name
  · rw [hname]
    exact hself
  · rw [hlive, insertActor_live] at he
    by_cases hk : k = id
    · rw [if_pos hk, Option.some.injEq] at he
      exact absurd (by rw [he]) hname
    · rw [if_neg hk] at he
      rcases Option.map_eq_some_iff.mp he with ⟨p, hp, rfl⟩
      have hpname : (if k = d.parent ∧ d.parent.empty = false then
          { p with children := p.children.insert id } else p).name = p.name := by
        split <;> rfl
      rw [hpname] at hname ⊢
      rcases h k p hp with ⟨j, w, hj, hw, hwname, hjzero⟩
      rcases hkept j w hw with ⟨w', hw', hwname'⟩
      refine ⟨j, w', ?_, hw', by rw [hwname', hwname], hjzero⟩
      rw [hnames, AList.lookup_insert_ne hname, hj]

/-- A stop leaves those findable whose entry it spares. -/
theorem resolves_of_leaving {k : IdT} (hl : Leaving s s' k)
    (hc : ∀ j d, s.live j = some d → ¬ Under Description.kids s.live k j →
      ∃ i, s.idByName.lookup d.name = some i ∧ ¬ Under Description.kids s.live k i)
    (h : ∀ k e, s.live k = some e → s.resolves e.name) :
    ∀ k e, s'.live k = some e → s'.resolves e.name := by
  intro j e he
  have he' : s.live j = some e := prunes_some hl.prunes he
  have hout : ¬ Under Description.kids s.live k j := fun hu => by
    rw [(leaves_iff_under hl he').mpr hu] at he
    exact absurd he (by simp only [reduceCtorEq, not_false_eq_true])
  rcases h j e he' with ⟨i, w, hi, hw, hname, hzero⟩
  rcases hc j e he' hout with ⟨i', hi', houti⟩
  rw [hi, Option.some.injEq] at hi'
  subst hi'
  refine ⟨i, w, by rw [hl.names, hi], ?_, hname, hzero⟩
  rcases hl.prunes.only i with hsame | hgone
  · rw [hsame, hw]
  · exact absurd ((leaves_iff_under hl hw).mp hgone) houti

theorem step_findable (hs : step cfg s a = some s') (hreg : Registered s)
    (hc : KeepsNames s a) (h : Findable s) : Findable s' := by
  rw [findable_iff hreg.toFiled] at h
  rw [findable_iff (step_registered hs hreg).toFiled]
  cases populationRule_of_step hs hreg with
  | kept hsame =>
      intro k d hd
      rw [samePopulation_live hsame] at hd
      rcases h k d hd with ⟨j, e, hj, he, hname, hzero⟩
      exact ⟨j, e, by rw [hsame.names, hj], by rw [samePopulation_live hsame, he], hname, hzero⟩
  | insert id d n hx ha hd hsame =>
      rcases hc.insert _ ha with ⟨hfree, hzero⟩
      exact resolves_of_insert hfree hzero (fun k => by rw [samePopulation_live hsame])
        hsame.names h
  | stop addr r u hx ha hu hsame =>
      exact resolves_of_leaving (leaving_of_stop hu hsame) (hc.stop _ ha) h
  | clear hx hj hsame =>
      intro k d hd
      unfold System.live at hd
      rw [hsame.actors, AList.lookup_empty] at hd
      exact absurd hd (by simp only [reduceCtorEq, not_false_eq_true])

/-- A step after which everybody is findable met the condition. -/
theorem keepsNames_of_findable (hs : step cfg s a = some s') (ha : Agrees s) (hfew : s.fewCalls)
    (h : Findable s') : KeepsNames s a := by
  have hreg' := step_registered hs ha.registered
  rw [findable_iff hreg'.toFiled] at h
  refine ⟨fun x hx => inserting_fresh ha hfew hx, fun k hk j d hd hout => ?_⟩
  have hl : Leaving s s' k := leaving_of_step hs hk
  have hstays : s'.live j = some d := by
    rcases hl.prunes.only j with hsame | hgone
    · rw [hsame, hd]
    · exact absurd ((leaves_iff_under hl hd).mp hgone) hout
  rcases h j d hstays with ⟨i, e, hi, he, _, _⟩
  refine ⟨i, by rw [← hl.names, hi], fun hu => ?_⟩
  rw [gone_of_under hl.prunes hl.gone hu] at he
  exact absurd he (by simp only [reduceCtorEq, not_false_eq_true])

theorem makeContext_fewCalls (name : String) : (makeContext (π := π) cfg name).fewCalls := by
  have hcalls : (makeContext (π := π) cfg name).calls.length ≤ 4 := by
    unfold makeContext
    cases cfg.network
    · exact (by decide : 3 ≤ 4)
    · exact (by decide : 4 ≤ 4)
  exact Nat.lt_of_le_of_lt hcalls (by decide)

theorem makeContext_findable (name : String) : Findable (makeContext (π := π) cfg name) := by
  have hboth : Agrees (makeContext (π := π) cfg name) ∧
      ((makeContext (π := π) cfg name).fewCalls → Findable (makeContext (π := π) cfg name)) := by
    refine makeContext_invariant (fun s => Agrees s ∧ (s.fewCalls → Findable s))
      ⟨⟨registered_constructed name, fun _ => ⟨rfl, rfl⟩, fun _ => List.nodup_nil⟩,
        fun _ k d hd => absurd hd (by simp [System.live, constructed])⟩
      (fun s r h => ⟨⟨registered_usrRoot r h.1.registered, h.1.numbered, h.1.unused⟩, h.2⟩)
      fun s b t hb hs h => ⟨step_agrees hs h.1, fun hfew => ?_⟩
    have hfew' := fewCalls_of_step hs h.1.registered hfew
    refine step_findable hs h.1.registered ⟨fun x hx => inserting_fresh h.1 hfew' hx,
      fun k hk => ?_⟩ (h.2 hfew')
    -- `add_actor` stops nobody.
    cases b with
    | call c =>
        cases c with
        | stopActor addr => exact absurd hb Bool.false_ne_true
        | _ => exact absurd hk (by
            simp only [System.stopTarget, ContextCall.stopTarget, Option.mem_def, reduceCtorEq,
              not_false_eq_true])
    | add i st => exact absurd hk (by
        simp only [System.stopTarget, Option.mem_def, reduceCtorEq, not_false_eq_true])
    | _ => exact absurd hb Bool.false_ne_true
  exact hboth.2 (makeContext_fewCalls name)

end Naming

/-- Finding actors by name. While no step hides anybody, the path name of
    every live actor leads to a live actor with that path name. The step that
    first breaks the condition hides a live actor. -/
theorem findable_by_name {cfg : Config} {name : String} {s : System π}
    (h : (context cfg name).Reach KeepsNames s) :
    Findable s ∧
      ∀ a s', s.fewCalls → step cfg s a = some s' → (Findable s' ↔ KeepsNames s a) := by
  have ha : Agrees s := reach_agrees h
  have hfind : Findable s := Machine.invariant_of Registered Findable
    (fun s h => reach_registered h) (makeContext_findable name)
    (fun s a s' hc hs hreg _ h => step_findable hs hreg hc h) h
  exact ⟨hfind, fun a s' hfew hs => ⟨keepsNames_of_findable hs ha hfew,
    fun hc => step_findable hs ha.registered hc hfind⟩⟩

/-- Two actors with one name. -/
def namesakes : List (Action Nat) :=
  register "a" .null 3 ++ register "a" .null 4

/-- The step stops nobody, and what it inserts is new. -/
def Spares (s : System π) (a : Action π) : Prop :=
  (∀ x ∈ s.inserting a, s.live x.1 = none ∧ x.1 ≠ ⟨0⟩) ∧ s.stopTarget a = none

instance (s : System π) (a : Action π) : Decidable (Spares s a) :=
  inferInstanceAs (Decidable (_ ∧ _))

theorem keepsNames_of_spares {s : System π} {a : Action π} (h : Spares s a) : KeepsNames s a where
  insert := h.1
  stop k hk := absurd (h.2.symm.trans hk) (by simp only [reduceCtorEq, not_false_eq_true])

/-- The elder is stopped, and the name leads to the younger. -/
theorem findable_by_name_namesakes : Findable
    ((context (π := Nat) (.plain 1) "ctx").after (namesakes ++ [.call (.stopActor ⟨⟨4⟩, ""⟩)])) := by
  let s := (context (π := Nat) (.plain 1) "ctx").after namesakes
  have hreach : (context (π := Nat) (.plain 1) "ctx").Reach KeepsNames s :=
    Machine.path_weaken (fun _ _ => keepsNames_of_spares)
      (Machine.reach_meets (C := Spares) namesakes (by decide))
  -- The elder has no children, so it leaves alone.
  have hleaf : ∀ j, Under Description.kids s.live ⟨4⟩ j → j = ⟨4⟩ := by
    intro j hu
    induction hu with
    | self => rfl
    | child _ hv hc ih =>
        rw [ih] at hv
        have hnone : (s.live ⟨4⟩).map Description.children = some [] := by decide
        rw [hv, Option.map_some, Option.some.injEq] at hnone
        unfold Description.kids at hc
        rw [hnone] at hc
        exact absurd hc List.not_mem_nil
  have hall : s.actors.entries.all
      (fun kd => (s.idByName.lookup kd.2.name).any (· ≠ ⟨4⟩)) = true := by decide
  have hkeeps : KeepsNames s (.call (.stopActor ⟨⟨4⟩, ""⟩)) := by
    refine ⟨fun x hx => absurd hx (by
      simp only [System.inserting, Option.mem_def, reduceCtorEq, not_false_eq_true]),
      fun k hk j d hd _ => ?_⟩
    simp only [System.stopTarget, ContextCall.stopTarget, Option.mem_def, Option.some.injEq] at hk
    subst hk
    have hany := List.all_eq_true.mp hall ⟨j, d⟩ (AList.mem_lookup_iff.mp hd)
    rcases (Option.any_eq_true _ _).mp hany with ⟨i, hi, hne⟩
    exact ⟨i, hi, fun hu => of_decide_eq_true hne (hleaf i hu)⟩
  exact (findable_by_name (Machine.reach_next (by decide) hreach hkeeps)).1

/-- The younger is stopped, and the name leads nowhere. -/
theorem findable_by_name_hidden :
    ∃ s, (context (π := Nat) (.plain 1) "ctx").Reach Machine.free s ∧ ¬ Findable s := by
  refine ⟨(context (.plain 1) "ctx").after (namesakes ++ [.call (.stopActor ⟨⟨5⟩, ""⟩)]),
    Machine.reach_after _, fun h => ?_⟩
  rcases h ⟨4⟩ ⟨3, ⟨⟨4⟩, "/root/usr/a"⟩, ⟨⟨⟨4⟩, "/root/usr/a"⟩, "ctx/#usercontext#4"⟩,
    "/root/usr/a", ⟨2⟩, []⟩ (by decide) with ⟨d', hsome, _⟩
  exact absurd hsome (by decide)

end Yaaf
