import Yaaf.Theory.Agreement

/-!
# The Forest of Actors

Every description names its parent and lists its children, and the two have
to agree for a stop to reach everything below its target and for the worker
to find the parent of an actor it dispatches. Stopping prunes the forest and
cannot break the agreement. `add_actor` can: it looks the parent up in one
critical section and inserts the child in another, and the parent may be gone
by then. The exclusive section does not look again, so the child goes in
under a parent that is not there, on nobody's list.

`Adopts` is the condition on the inserting step that rules this out. Runs in
which every step meets it have no orphans, and a step that does not meet it
makes one.

Whether the recursion of a stop ends is a separate question, and does not
depend on the condition. A child list names only actors that were registered
later than the actor it belongs to, even where an id on it is stale or was
taken again, because mailboxes are numbered in the order of registration. So
the recursion descends, and the size of the map bounds it.

## Main definitions

* `NoOrphans`: Every parent is registered and lists its child.
* `Adopts`: An insertion finds its parent still registered.
* `Graded`: Children were registered later.

## Theorems

* `stopActorImpl_total`: A recursion that goes down comes to an end.
* `stopActorImplSafety_total`: A stop always comes to an end.
* `step_noOrphans`: Steps that meet the condition keep the forest.
* `inserting_fresh`: The id an insertion uses is free.
* `orphan_of_not_adopts`: A step that does not meet it makes an orphan.
* `no_orphans`: No orphans in runs that meet the condition.
-/

namespace Yaaf

open Pruning Slots

variable {π : Type}

/-- Every live actor with a parent has it registered, and is on its list. -/
def NoOrphans (s : System π) : Prop :=
  Rooted Description.above Description.kids s.live

/-- What the step would insert, if it is the exclusive section of an
    `add_actor`: that is the only section to start from `ready`. -/
def System.inserting (s : System π) : Action π → Option (IdT × Description)
  | .add i _ => match s.adding[i]? with
    | none => none
    | some c => match c.stage with
      | .ready d => some (c.newId, d)
      | _ => none
  | _ => none

/-- If the step inserts, then the parent that was looked up is still
    registered, and the id is not in use. -/
def Adopts (s : System π) (a : Action π) : Prop :=
  ∀ x ∈ s.inserting a, s.live x.1 = none ∧ ∀ p ∈ x.2.above, (s.live p).isSome = true

instance (s : System π) (a : Action π) : Decidable (Adopts s a) :=
  inferInstanceAs (Decidable (∀ x ∈ s.inserting a, _))

theorem inserting_ready {s : System π} {i : Nat} {c : AddCall} {d : Description} (st : AddStep)
    (hi : s.adding[i]? = some c) (hc : c.stage = .ready d) :
    s.inserting (.add i st) = some (c.newId, d) := by
  simp only [System.inserting, hi, hc]

theorem ready_of_inserting {s : System π} {a : Action π} {x : IdT × Description}
    (h : s.inserting a = some x) : ∃ i st c, a = .add i st ∧ s.adding[i]? = some c ∧
      c.stage = .ready x.2 ∧ c.newId = x.1 := by
  unfold System.inserting at h
  split at h
  · rename_i i st
    split at h
    · exact absurd h (by simp only [reduceCtorEq, not_false_eq_true])
    · rename_i c hi
      split at h
      · rename_i d hc
        rw [Option.some.injEq] at h
        rw [← h]
        exact ⟨i, st, c, rfl, hi, hc, rfl⟩
      · exact absurd h (by simp only [reduceCtorEq, not_false_eq_true])
  · exact absurd h (by simp only [reduceCtorEq, not_false_eq_true])

/-- An insertion uses an id that is pending. -/
theorem pending_of_inserting {s : System π} {a : Action π} {x : IdT × Description}
    (hins : s.inserting a = some x) : x.1 ∈ s.pendingIds := by
  rcases ready_of_inserting hins with ⟨i, st, c, rfl, hi, hcs, hid⟩
  refine List.mem_filterMap.mpr ⟨c, List.mem_of_getElem? hi, ?_⟩
  unfold AddCall.pending?
  rw [hcs, hid]

/-- The id an insertion uses was not registered before. -/
theorem inserting_unused {s : System π} {a : Action π} {x : IdT × Description} (h : Agrees s)
    (hfew : s.fewCalls) (hins : s.inserting a = some x) : x.1 ∉ s.registeredIds :=
  fun hregistered => absurd rfl
    ((List.nodup_append.mp (h.unused hfew)).2.2 _ (pending_of_inserting hins) _ hregistered)

/-- The id an insertion uses is free, and is not zero. -/
theorem inserting_fresh {s : System π} {a : Action π} {x : IdT × Description} (h : Agrees s)
    (hfew : s.fewCalls) (hins : s.inserting a = some x) : s.live x.1 = none ∧ x.1 ≠ ⟨0⟩ := by
  refine ⟨?_, fun hzero => ?_⟩
  · cases hlive : s.live x.1 with
    | none => rfl
    | some e =>
        rcases h.registered.entries _ e hlive with ⟨r, hr, _⟩
        exact absurd (List.mem_map.mpr ⟨r, hr.mem, hr.id⟩) (inserting_unused h hfew hins)
  · rcases called_of_mem h.registered.toFiled
      (List.mem_append_left _ (pending_of_inserting hins)) with ⟨n, hn⟩
    have hpos := ((numbered_ids h.numbered hfew).1 _ hn).1
    rw [hzero] at hpos
    exact Nat.lt_irrefl 0 hpos

/-- What is on a child list was registered later, if it is registered. -/
def Graded (s : System π) : Prop :=
  ∀ k d c m m', s.live k = some d → c ∈ d.children → s.mboxes.lookup k = some m →
    s.mboxes.lookup c = some m' → m < m'

section Graded

variable {cfg : Config} {s s' : System π}

theorem graded_of_same (hs : SameRegistry s s') (h : Graded s) : Graded s' := by
  intro k d c m m' hd
  unfold System.live at hd
  rw [hs.actors] at hd
  rw [hs.mboxes]
  exact h k d c m m' hd

theorem graded_of_stops (hs : Stops cfg s s') (h : Graded s) : Graded s' := by
  intro k d c m m' hd hc hm hm'
  have hd' : s.live k = some d := prunes_some hs.prunes hd
  have hkept : ∀ j n, s'.mboxes.lookup j = some n → s.mboxes.lookup j = some n := by
    intro j n hn
    rcases hs.mboxes j with hj | hj
    · rw [← hj, hn]
    · rw [hj] at hn
      exact absurd hn (by simp only [reduceCtorEq, not_false_eq_true])
  exact h k d c m m' hd' hc (hkept k m hm) (hkept c m' hm')

theorem graded_of_insert {id : IdT} {d : Description} (n : String) (hchildren : d.children = [])
    (hreg : Filed s) (h : Graded s) : Graded (s.insertActor id d n) := by
  intro k e c m m' he hc hm hm'
  have hins : (s.mboxes.insert id s.nextBox).lookup k = some m := hm
  have hins' : (s.mboxes.insert id s.nextBox).lookup c = some m' := hm'
  rw [insertActor_live] at he
  by_cases hk : k = id
  · rw [if_pos hk, Option.some.injEq] at he
    rw [← he, hchildren] at hc
    exact absurd hc List.not_mem_nil
  · rw [if_neg hk] at he
    rcases Option.map_eq_some_iff.mp he with ⟨p, hp, rfl⟩
    rw [AList.lookup_insert_ne hk] at hins
    by_cases hcid : c = id
    · -- The new child has the newest mailbox.
      rw [hcid, AList.lookup_insert, Option.some.injEq] at hins'
      rw [← hins']
      exact mbox_lt hreg hins
    · have hold : c ∈ p.children := by
        split at hc
        · exact (List.mem_insert_iff.mp hc).resolve_left hcid
        · exact hc
      rw [AList.lookup_insert_ne hcid] at hins'
      exact h k p c m m' hp hold hins hins'

theorem step_graded {a : Action π} (hs : step cfg s a = some s') (hreg : Registered s)
    (h : Graded s) : Graded s' := by
  cases registryRule_of_stepRule (stepRule_of_step hs).2 with
  | same s' hr hw => exact graded_of_same hr h
  | call n b cur => exact h
  | add i c s' hi hadd =>
      cases hadd with
      | insert d hc hx =>
          have hdraft := (hreg.drafts c (List.mem_of_getElem? hi)).2
          rw [hc] at hdraft
          exact graded_of_insert c.actorName hdraft.children hreg.toFiled h
      | post m hc =>
          rw [System.postStart, userPost_rest]
          exact h
      | _ => exact h
  | stop u s' hx hu hr hw => exact graded_of_same hr (graded_of_stops hu h)
  | clear s' hx hw hr =>
      refine graded_of_same hr fun k d c m m' hd => absurd hd ?_
      unfold System.live
      rw [AList.lookup_empty]
      simp only [reduceCtorEq, not_false_eq_true]
  | worker s' hrule => exact graded_of_same (workerRule_same hrule hreg) h

theorem reach_graded {name : String} {C : System π → Action π → Prop}
    (h : (context cfg name).Reach C s) : Graded s := by
  have hboth : Registered s ∧ Graded s := always (fun s => Registered s ∧ Graded s)
    ⟨registered_constructed name, fun k d c m m' hd => absurd hd (by simp [System.live, constructed])⟩
    (fun s r h => ⟨registered_usrRoot r h.1, h.2⟩)
    (fun s a s' hs h => ⟨step_registered hs h.1, step_graded hs h.1 h.2⟩) h
  exact hboth.2

/-- The actors in `ks` registered no earlier than the mailbox `m` was made. -/
def System.rank (s : System π) (ks : List IdT) (m : MailboxPtr) : Nat :=
  ks.countP fun k => (s.mboxes.lookup k).any fun m' => decide (m ≤ m')

/-- The ground a stop stands on. -/
structure Grounded (ks : List IdT) (s : System π) : Prop where
  graded : Graded s
  listed : ∀ k m, s.mboxes.lookup k = some m → k ∈ ks
  boxed : ∀ k d, s.live k = some d → ∃ m, s.mboxes.lookup k = some m

theorem mem_keys_of_live {k : IdT} {d : Description} (hd : s.live k = some d) :
    k ∈ s.actors.keys := by
  unfold System.live at hd
  exact AList.mem_keys.mpr (AList.lookup_isSome.mp (by rw [hd]; rfl))

theorem grounded_of_registered (hreg : Registered s) (hg : Graded s) :
    Grounded s.actors.keys s := by
  refine ⟨hg, fun k m hm => ?_, fun k d hd => ?_⟩
  · rcases live_of_mbox hreg.toFiled hm with ⟨d, _, hd, _⟩
    exact mem_keys_of_live hd
  · rcases hreg.entries k d hd with ⟨r, _, hr⟩
    exact ⟨r.mb, hr⟩

theorem grounded_of_stops {ks : List IdT} (hs : Stops cfg s s') (h : Grounded ks s) :
    Grounded ks s' where
  graded := graded_of_stops hs h.graded
  listed k m hm := by
    rcases hs.mboxes k with hk | hk
    · exact h.listed k m (by rw [← hk, hm])
    · rw [hk] at hm
      exact absurd hm (by simp only [reduceCtorEq, not_false_eq_true])
  boxed k d hd := by
    have hd' : s.live k = some d := prunes_some hs.prunes hd
    rcases h.boxed k d hd' with ⟨m, hm⟩
    exact ⟨m, by rw [hs.mboxesKept k (by rw [hd, hd']), hm]⟩

theorem rank_of_stops (hs : Stops cfg s s') (ks : List IdT) (m : MailboxPtr) :
    s'.rank ks m ≤ s.rank ks m := by
  refine List.countP_mono_left fun k _ hk => ?_
  rcases hs.mboxes k with h | h
  · rw [h] at hk
    exact hk
  · rw [h] at hk
    exact absurd hk (by simp only [Option.any_none, Bool.false_eq_true, not_false_eq_true])

theorem rank_lt {ks : List IdT} {k : IdT} {m m' : MailboxPtr} (hk : k ∈ ks)
    (hm : s.mboxes.lookup k = some m) (hlt : m < m') : s.rank ks m' < s.rank ks m := by
  refine countP_lt_of_mem (fun j hj => ?_) hk ?_ ?_
  · cases hm' : s.mboxes.lookup j with
    | none =>
        rw [hm'] at hj
        exact absurd hj (by simp only [Option.any_none, Bool.false_eq_true, not_false_eq_true])
    | some n =>
        rw [hm'] at hj
        simp only [Option.any_some, decide_eq_true_eq] at hj ⊢
        exact Nat.le_trans (Nat.le_of_lt hlt) hj
  · rw [hm]
    simp only [Option.any_some, decide_eq_false_iff_not, Nat.not_le]
    exact hlt
  · rw [hm]
    exact decide_eq_true (Nat.le_refl m)

/-- What the lists lead to was registered no earlier. -/
theorem mbox_le_of_under {ks : List IdT} (hg : Grounded ks s) {k j : IdT}
    (h : Under Description.kids s.live k j) : ∀ m', s.mboxes.lookup j = some m' →
      ∃ m : MailboxPtr, s.mboxes.lookup k = some m ∧ m ≤ m' := by
  induction h with
  | self => exact fun m' hm' => ⟨m', hm', Nat.le_refl m'⟩
  | @child j c d _ hd hc ih =>
      intro m' hm'
      rcases hg.boxed j d hd with ⟨n, hn⟩
      rcases ih n hn with ⟨m, hm, hle⟩
      exact ⟨m, hm, Nat.le_trans hle (Nat.le_of_lt (hg.graded j d c n m' hd hc hn hm'))⟩

/-- No child list leads back to the actor it belongs to. -/
theorem not_under_child {ks : List IdT} (hg : Grounded ks s) {k c : IdT} {d : Description}
    (hd : s.live k = some d) (hc : c ∈ d.children) : ¬ Under Description.kids s.live c k := by
  intro h
  rcases hg.boxed k d hd with ⟨m, hm⟩
  rcases mbox_le_of_under hg h m hm with ⟨m', hm', hle⟩
  exact Nat.lt_irrefl m (Nat.lt_of_lt_of_le (hg.graded k d c m m' hd hc hm hm') hle)

/-- A list of calls that each come to an end comes to an end. -/
theorem foldlM_total {σ κ : Type} {stop : σ → κ → Option σ} (P : σ → Prop) (cs : List κ)
    (hstop : ∀ s c, c ∈ cs → P s → ∃ t, stop s c = some t ∧ P t) (s : σ) (hs : P s) :
    ∃ t, cs.foldlM stop s = some t := by
  induction cs generalizing s with
  | nil => exact ⟨s, rfl⟩
  | cons c cs ih =>
      rcases hstop s c List.mem_cons_self hs with ⟨t, ht, hpt⟩
      rcases ih (fun s b hb => hstop s b (List.mem_cons_of_mem c hb)) t hpt with ⟨u, hu⟩
      exact ⟨u, by rw [List.foldlM_cons, ht]; exact hu⟩

/-- A recursion that goes down in some rank, which nothing that leaves can raise,
    needs no more fuel than the rank of its target. -/
theorem stopActorImpl_total (r : ActorStoppingReason) {P : System π → Prop}
    {rank : System π → IdT → Nat} (hkeep : ∀ s t, Stops cfg s t → P s → P t)
    (hle : ∀ s t k, Stops cfg s t → rank t k ≤ rank s k)
    (hlt : ∀ s k d c, P s → s.live k = some d → c ∈ d.children → rank s c < rank s k) :
    ∀ (fuel : Nat) (addr : ActorAddress) (s : System π), P s → rank s addr.id < fuel →
      ∃ t, System.stopActorImpl cfg fuel addr r s = some t := by
  intro fuel
  induction fuel with
  | zero => exact fun addr s _ hrank => absurd hrank (Nat.not_lt_zero _)
  | succ fuel ih =>
      intro addr s hs hrank
      cases hd : s.live addr.id with
      | none =>
          unfold System.live at hd
          exact ⟨s, by simp only [System.stopActorImpl, hd]⟩
      | some d =>
          rw [stopActorImpl_succ cfg fuel addr r s d hd]
          -- Each child ranks lower, in whatever its elder siblings left.
          have hall : ∃ t, (cfg.order d.children).foldlM
              (fun s c => System.stopActorImpl cfg fuel (.ofId c) r s) s = some t := by
            refine foldlM_total (Stops cfg s) _ (fun t c hc ht => ?_) s (stops_refl cfg s)
            have hmem : c ∈ d.children := (cfg.order_perm d.children).mem_iff.mp hc
            have hchild : rank t c < fuel := by
              have hlt := hlt s _ d c hs hd hmem
              have hle := hle s t c ht
              omega
            rcases ih (.ofId c) t (hkeep s t ht hs) hchild with ⟨u, hu⟩
            exact ⟨u, hu, stops_trans ht (stopActorImpl_stops cfg r fuel _ t u hu).1⟩
          rcases hall with ⟨t, ht⟩
          exact ⟨stopSelf cfg t addr r d, by rw [ht, Option.map_some]⟩

/-- How many actors were registered no earlier than the one under this id. -/
def System.rankOf (s : System π) (ks : List IdT) (k : IdT) : Nat :=
  (s.mboxes.lookup k).elim 0 (s.rank ks)

theorem rankOf_of_stops (hs : Stops cfg s s') (ks : List IdT) (k : IdT) :
    s'.rankOf ks k ≤ s.rankOf ks k := by
  unfold System.rankOf
  rcases hs.mboxes k with h | h
  · rw [h]
    cases s.mboxes.lookup k with
    | none => exact Nat.le_refl _
    | some m => exact rank_of_stops hs ks m
  · rw [h]
    exact Nat.zero_le _

theorem rankOf_lt {ks : List IdT} (hg : Grounded ks s) {k c : IdT} {d : Description}
    (hd : s.live k = some d) (hc : c ∈ d.children) : s.rankOf ks c < s.rankOf ks k := by
  rcases hg.boxed k d hd with ⟨m, hm⟩
  have hk : k ∈ ks := hg.listed k m hm
  unfold System.rankOf
  rw [hm]
  cases hm' : s.mboxes.lookup c with
  | none =>
      -- The actor itself is counted.
      refine List.countP_pos_iff.mpr ⟨k, hk, ?_⟩
      rw [hm, Option.any_some]
      exact decide_eq_true (Nat.le_refl m)
  | some m' => exact rank_lt hk hm (hg.graded k d c m m' hd hc hm hm')

/-- A stop always comes to an end: the recursion is never deeper than the map
    is large. -/
theorem stopActorImplSafety_total (hreg : Registered s) (hg : Graded s) (addr : ActorAddress)
    (r : ActorStoppingReason) : ∃ u, s.stopActorImplSafety cfg addr r = some u := by
  refine stopActorImpl_total r (fun _ _ => grounded_of_stops)
    (fun _ _ k ht => rankOf_of_stops ht s.actors.keys k) (fun _ _ _ _ ht => rankOf_lt ht) _ _ s
    (grounded_of_registered hreg hg) ?_
  unfold System.rankOf
  cases s.mboxes.lookup (ActorAddress.ofId addr.id).id with
  | none => exact Nat.succ_pos _
  | some m => exact Nat.lt_succ_of_le List.countP_le_length

end Graded

section Forest

variable {cfg : Config} {s s' : System π}

theorem noOrphans_of_live (hlive : ∀ k, s'.live k = s.live k) (h : NoOrphans s) : NoOrphans s' := by
  intro k d p hd hp
  rw [hlive] at hd
  rw [hlive]
  exact h k d p hd hp

/-- Inserting a child under a parent that is there. -/
theorem noOrphans_of_insert {id : IdT} {d : Description} (n : String) (hfree : s.live id = none)
    (hparent : ∀ p, d.above = some p → (s.live p).isSome = true) (h : NoOrphans s) :
    NoOrphans (s.insertActor id d n) := by
  -- An entry that was there is there, and its list has lost nobody.
  have hkept : ∀ p w, s.live p = some w →
      ∃ w', (s.insertActor id d n).live p = some w' ∧ (∀ c ∈ w.children, c ∈ w'.children) ∧
        (d.above = some p → id ∈ w'.children) := by
    intro p w hw
    have hne : p ≠ id := by
      intro hp
      rw [hp, hfree] at hw
      exact absurd hw (by simp only [reduceCtorEq, not_false_eq_true])
    rw [insertActor_live, if_neg hne, hw]
    refine ⟨_, rfl, fun c hc => ?_, fun habove => ?_⟩
    · split
      · exact List.mem_insert_of_mem hc
      · exact hc
    · have hcond : p = d.parent ∧ d.parent.empty = false := by
        unfold Description.above at habove
        split at habove
        · exact absurd habove (by simp only [reduceCtorEq, not_false_eq_true])
        · rename_i hempty
          exact ⟨(Option.some.inj habove).symm, by simpa using hempty⟩
      simp only [if_pos hcond]
      exact List.mem_insert_self
  intro k e p he hp
  rw [insertActor_live] at he
  by_cases hk : k = id
  · rw [if_pos hk, Option.some.injEq] at he
    rw [← he] at hp
    rcases Option.isSome_iff_exists.mp (hparent p hp) with ⟨w, hw⟩
    rcases hkept p w hw with ⟨w', hw', _, hid⟩
    exact ⟨w', hw', by rw [hk]; exact hid hp⟩
  · rw [if_neg hk] at he
    rcases Option.map_eq_some_iff.mp he with ⟨e', he', rfl⟩
    have hp' : e'.above = some p := by
      rw [← hp]
      split <;> rfl
    rcases h k e' p he' hp' with ⟨w, hw, hkid⟩
    rcases hkept p w hw with ⟨w', hw', hall, _⟩
    exact ⟨w', hw', hall k hkid⟩

theorem step_noOrphans {a : Action π} (hs : step cfg s a = some s') (hc : Adopts s a)
    (hreg : Registered s) (h : NoOrphans s) : NoOrphans s' := by
  have hsame : ∀ {u u' : System π}, SameRegistry u u' → NoOrphans u → NoOrphans u' := by
    intro u u' hr
    exact noOrphans_of_live fun k => by unfold System.live; rw [hr.actors]
  cases registryRule_of_stepRule (stepRule_of_step hs).2 with
  | same s' hr hw => exact hsame hr h
  | call n b cur => exact h
  | add i c s' hi hadd =>
      cases hadd with
      | insert d hcs hx =>
          rcases hc _ (inserting_ready _ hi hcs) with ⟨hfree, hparent⟩
          exact noOrphans_of_insert c.actorName hfree hparent h
      | post m hcs =>
          rw [System.postStart, userPost_rest]
          exact h
      | _ => exact h
  | stop u s' hx hu hr hw => exact hsame hr (rooted_of_prunes h hu.prunes)
  | clear s' hx hw hr =>
      refine hsame hr fun k d p hd => absurd hd ?_
      unfold System.live
      rw [AList.lookup_empty]
      simp only [reduceCtorEq, not_false_eq_true]
  | worker s' hrule => exact hsame (workerRule_same hrule hreg) h

/-- An insertion that does not meet the condition makes an orphan of the actor
    it inserts, or takes an id that is in use. -/
theorem orphan_of_not_adopts {a : Action π} (hs : step cfg s a = some s') (h : Agrees s)
    (hfew : s.fewCalls) (hc : ¬ Adopts s a) : ¬ NoOrphans s' := by
  unfold Adopts at hc
  push Not at hc
  rcases hc with ⟨⟨id, d⟩, hins, hbad⟩
  have hfree : s.live id = none := (inserting_fresh h hfew hins).1
  rcases ready_of_inserting hins with ⟨i, st, c, rfl, hi, hcs, rfl⟩
  have hdraft := (h.registered.drafts c (List.mem_of_getElem? hi)).2
  rw [hcs] at hdraft
  rcases hbad hfree with ⟨p, hp, hgone⟩
  have hins : s' = { s.insertActor c.newId d c.actorName with
      adding := s.adding.set i { c with stage := .inserted s.nextBox } } := by
    cases (stepRule_of_step hs).2 with
    | add i st c' s' hi' hadd =>
        rw [hi, Option.some.injEq] at hi'
        subst hi'
        cases hadd with
        | insert d' hcs' hx =>
            rw [hcs] at hcs'
            cases hcs'
            rfl
        | crash _ hcs' | lookup _ _ _ hcs' | initReturn _ hcs' | initThrow _ hcs' | post _ hcs' =>
            rw [hcs] at hcs'
            cases hcs'
  intro hroot
  have hlive : s'.live c.newId = some d := by
    rw [hins]
    exact (insertActor_live c.newId d c.actorName c.newId).trans (if_pos rfl)
  rcases hroot c.newId d p hlive hp with ⟨w, hw, hkid⟩
  rw [hins] at hw
  have hw' := (insertActor_live c.newId d c.actorName p).symm.trans hw
  by_cases hpid : p = c.newId
  · -- Its own parent, and on nobody's list.
    rw [if_pos hpid, Option.some.injEq] at hw'
    unfold Description.kids at hkid
    rw [← hw', hdraft.children] at hkid
    exact absurd hkid List.not_mem_nil
  · rw [if_neg hpid] at hw'
    rcases Option.map_eq_some_iff.mp hw' with ⟨w', hw', _⟩
    rw [hw'] at hgone
    exact absurd rfl hgone

/-- An `add_actor` that nothing interrupts finds its parent there or has none. -/
theorem noOrphans_addNow {s : System π} (n : String) (parent : ActorAddress) (a : ActorPtr)
    (hfree : s.live s.newId = none) (h : NoOrphans s) : NoOrphans (s.addNow n parent a) := by
  let up := (s.actors.lookup parent.id).map fun p => (parent.id, p)
  have hins : NoOrphans (s.insertActor s.newId (s.describe s.newId n a up) n) := by
    refine noOrphans_of_insert n hfree (fun p hp => ?_) h
    unfold Description.above at hp
    split at hp
    · exact absurd hp (by simp only [reduceCtorEq, not_false_eq_true])
    · rename_i hempty
      cases hup : s.actors.lookup parent.id with
      | none =>
          -- The parent field is then the empty id.
          have hnone : up = none := by simp only [up, hup, Option.map_none]
          rw [hnone] at hempty
          exact absurd rfl hempty
      | some w =>
          have hsome : up = some (parent.id, w) := by simp only [up, hup, Option.map_some]
          rw [hsome] at hp
          have hid : parent.id = p := Option.some.inj hp
          unfold System.live
          rw [← hid, hup]
          rfl
  refine noOrphans_of_live (fun k => ?_) hins
  simp only [System.addNow, System.postStart, System.emit, System.live]
  rw [userPost_rest]
  rfl

theorem makeContext_noOrphans (name : String) : NoOrphans (makeContext (π := π) cfg name) := by
  have h0 : NoOrphans (constructed (π := π) name) := fun k d p hd => absurd hd (by
    unfold System.live
    rw [show (constructed (π := π) name).actors = ∅ from rfl, AList.lookup_empty]
    simp only [reduceCtorEq, not_false_eq_true])
  have h1 := noOrphans_addNow "root" .null 0 rfl h0
  have h2 := noOrphans_addNow "usr" ⟨⟨1⟩, "/root"⟩ 1 rfl h1
  have h2' : NoOrphans { (((constructed (π := π) name).addNow "root" .null 0).addNow "usr"
      ⟨⟨1⟩, "/root"⟩ 1) with usrRoot := ⟨⟨2⟩, "/root/usr"⟩ } := h2
  have h3 := noOrphans_addNow "sys" ⟨⟨1⟩, "/root"⟩ 2 rfl h2'
  unfold makeContext
  cases cfg.network with
  | false => exact h3
  | true => exact noOrphans_addNow "net" ⟨⟨1⟩, "/root"⟩ 3 rfl h3

end Forest

theorem reach_noOrphans {cfg : Config} {name : String} {s : System π}
    (h : (context cfg name).Reach Adopts s) : NoOrphans s :=
  Machine.invariant_of (fun s => Registered s) NoOrphans (fun _ h => reach_registered h)
    (makeContext_noOrphans name) (fun _ _ _ hc hs hreg _ h => step_noOrphans hs hc hreg h) h

/-- No orphans. While every insertion finds the parent it looked up, every
    actor with a parent is on that parent's list, a stop ends and takes along
    everything below its target, and the worker finds the parent of the actor
    it dispatches. The step that first breaks the condition makes an orphan. -/
theorem no_orphans {cfg : Config} {name : String} {s : System π}
    (h : (context cfg name).Reach Adopts s) :
    NoOrphans s ∧
    (∀ target r, ∃ u evs, s.stopActorImplSafety cfg target r = some u ∧ u.trace = s.trace ++ evs ∧
      ∀ k d, s.live k = some d → Below Description.above s.live target.id k →
        u.live k = none ∧ .stopped k d.actor ∈ evs) ∧
    (∀ todo rm m d, s.worker = .scan todo rm (.posting m d) → d.parent.empty = false →
      (s.live d.parent).isSome = true) ∧
    ∀ a s', s.fewCalls → step cfg s a = some s' → (NoOrphans s' ↔ Adopts s a) := by
  have hagrees : Agrees s := reach_agrees h
  have hreg := hagrees.registered
  have hroot : NoOrphans s := reach_noOrphans h
  refine ⟨hroot, fun target r => ?_, fun todo rm m d hw hp => ?_, fun a s' hfew hs => ?_⟩
  · rcases stopActorImplSafety_total hreg (reach_graded h) target r with ⟨u, hu⟩
    rcases stopActorImplSafety_stops hu with ⟨hstops, hgone⟩
    rcases hstops.trace with ⟨evs, hevs, _, hstopped⟩
    refine ⟨u, evs, hu, hevs, fun k d hd hbelow => ?_⟩
    have hk : u.live k = none := gone_of_below hroot hstops.prunes hgone hbelow
    exact ⟨hk, hstopped k d ⟨hd, hk⟩⟩
  · have hscan : Scanned s := hreg.scanned
    unfold Scanned at hscan
    rw [hw] at hscan
    rcases hscan.2.2 m d rfl with ⟨k, hd, _⟩
    have habove : d.above = some d.parent := by
      unfold Description.above
      rw [hp]
      rfl
    rcases hroot k d d.parent hd habove with ⟨w, hw, _⟩
    rw [hw]
    rfl
  · refine ⟨fun hr => ?_, fun hc => step_noOrphans hs hc hreg hroot⟩
    by_contra hc
    exact orphan_of_not_adopts hs hagrees hfew hc hr

/-- A child registered under a parent that stays, then the stop of both. -/
def adoptRun : List (Action Nat) :=
  register "p" .null 3 ++ register "c" ⟨⟨4⟩, "/root/usr/p"⟩ 4 ++
    [.call (.addActor "d" ⟨⟨4⟩, "/root/usr/p"⟩ 5), .add 0 .lookup,
      .call (.stopActor ⟨⟨4⟩, "/root/usr/p"⟩)]

theorem no_orphans_adoptRun : NoOrphans ((context (π := Nat) (.plain 1) "ctx").after adoptRun) :=
  (no_orphans (Machine.reach_meets adoptRun (by decide))).1

/-- The stop of `p` falls between the two critical sections of the `add_actor`
    that puts `c` under it. -/
def orphanRun : List (Action Nat) :=
  register "p" .null 3 ++
    [.call (.addActor "c" ⟨⟨4⟩, "/root/usr/p"⟩ 4), .add 0 .lookup, .add 0 (.init true),
      .call (.stopActor ⟨⟨4⟩, "/root/usr/p"⟩), .add 0 .insert, .add 0 .post]

theorem no_orphans_orphanRun :
    ∃ s, (context (π := Nat) (.plain 1) "ctx").Reach Machine.free s ∧ ¬ NoOrphans s := by
  refine ⟨(context (.plain 1) "ctx").after orphanRun, Machine.reach_after orphanRun, fun h => ?_⟩
  rcases h ⟨5⟩ ⟨4, ⟨⟨5⟩, "/root/usr/p/c"⟩, ⟨⟨⟨5⟩, "/root/usr/p/c"⟩, "ctx/#usercontext#5"⟩,
    "/root/usr/p/c", ⟨4⟩, []⟩ ⟨4⟩ (by decide) (by decide) with ⟨w, hw, _⟩
  have hgone : ((context (.plain 1) "ctx").after orphanRun).live ⟨4⟩ = none := by decide
  rw [hgone] at hw
  exact absurd hw (by simp only [reduceCtorEq, not_false_eq_true])

end Yaaf
