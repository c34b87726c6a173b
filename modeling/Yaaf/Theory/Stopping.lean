import Yaaf.Core.Step
import Yaaf.Library.Pruning
import Yaaf.Library.Trace

/-!
# What a Stop Does

One relation, `Stops`, between the state before and after a recursive stop,
which is all that any later argument needs to know about `stopActorImpl`. It
composes, so the recursion is followed once, here.

A stop prunes the registry: what leaves `_actors` takes its children along,
and what leaves `_actors` leaves `_mboxes` in the same breath. It touches
actor objects only through `on_stop`, which leaves the busy flag alone. Every
actor that leaves gets its `on_stop`, and nobody else does. The queues, the
threads and the exchanges are as before.

## Main definitions

* `System.live`: The description registered under an id.
* `Description.kids`, `Description.above`: A description as a forest node.
* `Stops`: The effect of a recursive stop.
* `Composes`: A relation that an induction over a stop can carry.
* `Sweeps`: The effect of the loop of `context::stop`.

## Theorems

* `stops_refl`, `stops_trans`: The effect composes.
* `stopActorImpl_stops`: The recursion has the effect, and its target is gone.
* `stopActorImplSafety_stops`: The same for the locked entry point.
* `stopActorImpl_under`: It removes only what the child lists lead to.
* `stopActorImpl_rule`: The induction over a stop.
-/

namespace Yaaf

open Pruning Trace

variable {π : Type}

/-- The description registered under an id. -/
def System.live (s : System π) (k : IdT) : Option Description :=
  s.actors.lookup k

/-- The children a description lists. -/
def Description.kids (d : Description) (c : IdT) : Prop :=
  c ∈ d.children

/-- The parent a description names, if it names one. -/
def Description.above (d : Description) : Option IdT :=
  if d.parent.empty then none else some d.parent

/-- An actor that is registered before and not after. -/
def Leaves (s s' : System π) (k : IdT) (d : Description) : Prop :=
  s.live k = some d ∧ s'.live k = none

/-- The effect of a recursive stop. -/
structure Stops (cfg : Config) (s s' : System π) : Prop where
  prunes : Prunes Description.kids s.live s'.live
  rest : s' = { s with
    actors := s'.actors, mboxes := s'.mboxes, objs := s'.objs, trace := s'.trace }
  mboxes : ∀ k, s'.mboxes.lookup k = s.mboxes.lookup k ∨ s'.mboxes.lookup k = none
  mboxesKept : ∀ k, s'.live k = s.live k → s'.mboxes.lookup k = s.mboxes.lookup k
  mboxesGone : ∀ k d, Leaves s s' k d → s'.mboxes.lookup k = none
  busy : ∀ a, (s'.objs a).busy = (s.objs a).busy
  status : ∀ a, (s'.objs a).status = (s.objs a).status ∨ (s'.objs a).status = ⟨.stoped, ""⟩
  statusKept : ∀ a, (∀ k d, Leaves s s' k d → d.actor ≠ a) → s'.objs a = s.objs a
  statusSet : ∀ k d, Leaves s s' k d → cfg.onStopBase d.actor = true →
    (s'.objs d.actor).status = ⟨.stoped, ""⟩
  trace : ∃ evs, s'.trace = s.trace ++ evs ∧
    (∀ ev ∈ evs, (∃ k d, Leaves s s' k d ∧ ev = .stopped k d.actor) ∨
      ∃ p a r, ev = .childStopped p a r) ∧
    ∀ k d, Leaves s s' k d → Event.stopped k d.actor ∈ evs

theorem leaves_split {s t u : System π} (hst : Prunes Description.kids s.live t.live)
    (htu : Prunes Description.kids t.live u.live) {k : IdT} {d : Description} :
    Leaves s u k d ↔ Leaves s t k d ∨ Leaves t u k d := by
  constructor
  · rintro ⟨hs, hu⟩
    cases ht : t.live k with
    | none => exact Or.inl ⟨hs, ht⟩
    | some e =>
        have he : e = d := by
          have := prunes_some hst ht
          rw [hs, Option.some.injEq] at this
          exact this.symm
        exact Or.inr ⟨by rw [ht, he], hu⟩
  · rintro (⟨hs, ht⟩ | ⟨ht, hu⟩)
    · exact ⟨hs, prunes_none htu ht⟩
    · exact ⟨prunes_some hst ht, hu⟩

theorem not_leaves_self {s : System π} {k : IdT} {d : Description} : ¬ Leaves s s k d := by
  rintro ⟨h, hn⟩
  rw [h] at hn
  exact absurd hn (by simp only [reduceCtorEq, not_false_eq_true])

theorem stops_refl (cfg : Config) (s : System π) : Stops cfg s s where
  prunes := prunes_refl
  rest := rfl
  mboxes _ := Or.inl rfl
  mboxesKept _ _ := rfl
  mboxesGone _ _ h := absurd h not_leaves_self
  busy _ := rfl
  status _ := Or.inl rfl
  statusKept _ _ := rfl
  statusSet _ _ h := absurd h not_leaves_self
  trace := ⟨[], by rw [List.append_nil], fun ev hev => absurd hev List.not_mem_nil,
    fun _ _ h => absurd h not_leaves_self⟩

theorem stops_trans {cfg : Config} {s t u : System π} (hst : Stops cfg s t)
    (htu : Stops cfg t u) : Stops cfg s u where
  prunes := prunes_trans hst.prunes htu.prunes
  rest := by
    rw [htu.rest, hst.rest]
  mboxes k := by
    rcases htu.mboxes k with h | h
    · rw [h]
      exact hst.mboxes k
    · exact Or.inr h
  mboxesKept k hk := by
    -- What is back at the end was never gone in between.
    cases hs : s.live k with
    | none =>
        have ht : t.live k = none := prunes_none hst.prunes hs
        rw [htu.mboxesKept k (by rw [hk, hs, ht]), hst.mboxesKept k (by rw [ht, hs])]
    | some d =>
        have hu : u.live k = some d := by rw [hk, hs]
        have ht : t.live k = some d := prunes_some htu.prunes hu
        rw [htu.mboxesKept k (by rw [hu, ht]), hst.mboxesKept k (by rw [ht, hs])]
  mboxesGone k d h := by
    rcases (leaves_split hst.prunes htu.prunes).mp h with h1 | h2
    · rcases htu.mboxes k with h | h
      · rw [h]
        exact hst.mboxesGone k d h1
      · exact h
    · exact htu.mboxesGone k d h2
  busy a := by rw [htu.busy, hst.busy]
  status a := by
    rcases htu.status a with h | h
    · rw [h]
      exact hst.status a
    · exact Or.inr h
  statusKept a h := by
    rw [htu.statusKept a fun k d hl => h k d ((leaves_split hst.prunes htu.prunes).mpr (Or.inr hl)),
      hst.statusKept a fun k d hl => h k d ((leaves_split hst.prunes htu.prunes).mpr (Or.inl hl))]
  statusSet k d h hb := by
    rcases (leaves_split hst.prunes htu.prunes).mp h with h1 | h2
    · rcases htu.status d.actor with h | h
      · rw [h]
        exact hst.statusSet k d h1 hb
      · exact h
    · exact htu.statusSet k d h2 hb
  trace := by
    rcases hst.trace with ⟨evs, hevs, hall, hmem⟩
    rcases htu.trace with ⟨evs', hevs', hall', hmem'⟩
    refine ⟨evs ++ evs', by rw [hevs', hevs, List.append_assoc], fun ev hev => ?_,
      fun k d h => ?_⟩
    · rcases List.mem_append.mp hev with h | h
      · rcases hall ev h with ⟨k, d, hl, rfl⟩ | h
        · exact Or.inl ⟨k, d, (leaves_split hst.prunes htu.prunes).mpr (Or.inl hl), rfl⟩
        · exact Or.inr h
      · rcases hall' ev h with ⟨k, d, hl, rfl⟩ | h
        · exact Or.inl ⟨k, d, (leaves_split hst.prunes htu.prunes).mpr (Or.inr hl), rfl⟩
        · exact Or.inr h
    · rcases (leaves_split hst.prunes htu.prunes).mp h with h | h
      · exact List.mem_append.mpr (Or.inl (hmem k d h))
      · exact List.mem_append.mpr (Or.inr (hmem' k d h))

/-- A stop records what its callbacks are and nothing else. -/
theorem stops_grows {cfg : Config} {s t : System π} (h : Stops cfg s t) {p : Event π → Prop}
    (hstopped : ∀ k a, p (.stopped k a)) (htold : ∀ q a r, p (.childStopped q a r)) :
    Grows p s.trace t.trace := by
  rcases h.trace with ⟨evs, hevs, hall, _⟩
  refine ⟨evs, hevs, fun ev hev => ?_⟩
  rcases hall ev hev with ⟨k, d, _, rfl⟩ | ⟨q, a, r, rfl⟩
  · exact hstopped k d.actor
  · exact htold q a r

/-- Telling the parent only adds to the trace. -/
theorem tellParent_trace (s : System π) (d : Description) (addr : ActorAddress)
    (r : ActorStoppingReason) :
    ∃ evs, s.tellParent d addr r = { s with trace := s.trace ++ evs } ∧
      ∀ ev ∈ evs, ∃ p a r, ev = Event.childStopped p a r := by
  unfold System.tellParent
  split
  · exact ⟨[], by rw [List.append_nil], fun ev hev => absurd hev List.not_mem_nil⟩
  · split
    · exact ⟨[], by rw [List.append_nil], fun ev hev => absurd hev List.not_mem_nil⟩
    · exact ⟨[_], rfl, fun ev hev => ⟨_, _, _, List.mem_singleton.mp hev⟩⟩

/-- The part of a stop after the children: `on_stop`, the notice to the
    parent, and the two erasures. -/
def stopSelf (cfg : Config) (s : System π) (addr : ActorAddress) (r : ActorStoppingReason)
    (d : Description) : System π :=
  let s := (s.onStop cfg addr.id d.actor).tellParent d addr r
  { s with mboxes := s.mboxes.erase addr.id, actors := s.actors.erase addr.id }

theorem stopSelf_live (cfg : Config) (s : System π) (addr : ActorAddress)
    (r : ActorStoppingReason) (d : Description) :
    (stopSelf cfg s addr r d).live addr.id = none ∧
      ∀ k, k ≠ addr.id → (stopSelf cfg s addr r d).live k = s.live k := by
  rcases tellParent_trace (s.onStop cfg addr.id d.actor) d addr r with ⟨evs, hevs, _⟩
  refine ⟨AList.lookup_erase _ _, fun k hk => ?_⟩
  simp only [System.live, stopSelf, hevs]
  exact AList.lookup_erase_ne hk

@[simp]
theorem onStop_self (cfg : Config) (s : System π) (k : IdT) (a : ActorPtr) :
    (s.onStop cfg k a).objs a =
      if cfg.onStopBase a then (s.objs a).updateStatus .stoped "" else s.objs a :=
  System.setObj_self _ _ _

@[simp]
theorem onStop_of_ne (cfg : Config) (s : System π) (k : IdT) {a b : ActorPtr} (h : b ≠ a) :
    (s.onStop cfg k a).objs b = s.objs b :=
  System.setObj_of_ne _ h _

/-- `on_stop` does not touch the busy flag. -/
theorem onStop_busy (cfg : Config) (s : System π) (k : IdT) (a b : ActorPtr) :
    ((s.onStop cfg k a).objs b).busy = (s.objs b).busy := by
  by_cases hb : b = a
  · subst hb
    rw [onStop_self]
    split <;> rfl
  · rw [onStop_of_ne cfg s k hb]

/-- `on_stop` sets the status, or an override does not. -/
theorem onStop_status (cfg : Config) (s : System π) (k : IdT) (a b : ActorPtr) :
    ((s.onStop cfg k a).objs b).status = (s.objs b).status ∨
      ((s.onStop cfg k a).objs b).status = ⟨.stoped, ""⟩ := by
  by_cases hb : b = a
  · subst hb
    rw [onStop_self]
    split
    · exact Or.inr rfl
    · exact Or.inl rfl
  · rw [onStop_of_ne cfg s k hb]
    exact Or.inl rfl

section StopSelf

variable {cfg : Config} {s t : System π} {addr : ActorAddress} {r : ActorStoppingReason}
  {d : Description}

theorem stopSelf_objs : (stopSelf cfg t addr r d).objs = (t.onStop cfg addr.id d.actor).objs := by
  rcases tellParent_trace (t.onStop cfg addr.id d.actor) d addr r with ⟨told, htold, _⟩
  simp only [stopSelf, htold]

theorem stopSelf_mboxes : (stopSelf cfg t addr r d).mboxes = t.mboxes.erase addr.id := by
  rcases tellParent_trace (t.onStop cfg addr.id d.actor) d addr r with ⟨told, htold, _⟩
  simp only [stopSelf, htold]
  rfl

theorem stopSelf_rest : stopSelf cfg t addr r d = { t with
    actors := (stopSelf cfg t addr r d).actors, mboxes := (stopSelf cfg t addr r d).mboxes,
    objs := (stopSelf cfg t addr r d).objs, trace := (stopSelf cfg t addr r d).trace } := by
  rcases tellParent_trace (t.onStop cfg addr.id d.actor) d addr r with ⟨told, htold, _⟩
  simp only [stopSelf, htold]
  rfl

/-- `on_stop`, and then the notice to the parent. -/
theorem stopSelf_trace : ∃ told,
    (stopSelf cfg t addr r d).trace = t.trace ++ [.stopped addr.id d.actor] ++ told ∧
      ∀ ev ∈ told, ∃ p a r, ev = Event.childStopped p a r := by
  rcases tellParent_trace (t.onStop cfg addr.id d.actor) d addr r with ⟨told, htold, hall⟩
  refine ⟨told, ?_, hall⟩
  simp only [stopSelf, htold]
  rfl

/-- Who has left at the end left before, or is the node itself. -/
theorem leaves_stopSelf (hd : s.live addr.id = some d) {k : IdT} {e : Description} :
    Leaves s (stopSelf cfg t addr r d) k e ↔ k = addr.id ∧ e = d ∨ k ≠ addr.id ∧ Leaves s t k e := by
  rcases stopSelf_live cfg t addr r d with ⟨hgone, hother⟩
  by_cases hk : k = addr.id
  · subst hk
    constructor
    · rintro ⟨hs, _⟩
      rw [hd, Option.some.injEq] at hs
      exact Or.inl ⟨rfl, hs.symm⟩
    · rintro (⟨_, rfl⟩ | ⟨hne, _⟩)
      · exact ⟨hd, hgone⟩
      · exact absurd rfl hne
  · simp only [hk, false_and, false_or, ne_eq, not_false_eq_true, true_and, Leaves, hother k hk]

/-- Nobody comes back. -/
theorem leaves_stopSelf_of_leaves (hd : s.live addr.id = some d) {k : IdT} {e : Description}
    (hl : Leaves s t k e) : Leaves s (stopSelf cfg t addr r d) k e := by
  refine (leaves_stopSelf hd).mpr ?_
  by_cases hk : k = addr.id
  · have hs := hl.1
    rw [hk, hd, Option.some.injEq] at hs
    exact Or.inl ⟨hk, hs.symm⟩
  · exact Or.inr ⟨hk, hl⟩

/-- The last part of a stop completes the effect of the parts before it. The
    children are known to be gone; whether the node itself survived them is
    not, and need not be. -/
theorem stops_self (hst : Stops cfg s t) (hd : s.live addr.id = some d)
    (hkids : ∀ c ∈ d.children, t.live c = none) : Stops cfg s (stopSelf cfg t addr r d) where
  -- The children are gone already, so the node can go without leaving anybody
  -- below it.
  prunes := by
    rcases stopSelf_live cfg t addr r d with ⟨hgone, hother⟩
    refine prunes_erase hst.prunes addr.id (fun e he c hc => ?_) hgone hother
    rw [hd, Option.some.injEq] at he
    exact hkids c (he ▸ hc)
  rest := by rw [stopSelf_rest, hst.rest]
  mboxes k := by
    rw [stopSelf_mboxes]
    by_cases hk : k = addr.id
    · rw [hk]
      exact Or.inr (AList.lookup_erase _ _)
    · rw [AList.lookup_erase_ne hk]
      exact hst.mboxes k
  mboxesKept k hk := by
    rcases stopSelf_live cfg t addr r d with ⟨hgone, hother⟩
    have hka : k ≠ addr.id := by
      intro hka
      rw [hka, hgone, hd] at hk
      exact absurd hk (by simp only [reduceCtorEq, not_false_eq_true])
    rw [stopSelf_mboxes, AList.lookup_erase_ne hka]
    exact hst.mboxesKept k (by rw [← hother k hka, hk])
  mboxesGone k e hl := by
    rw [stopSelf_mboxes]
    rcases (leaves_stopSelf hd).mp hl with ⟨rfl, _⟩ | ⟨hka, hl⟩
    · exact AList.lookup_erase _ _
    · rw [AList.lookup_erase_ne hka]
      exact hst.mboxesGone k e hl
  busy a := by rw [stopSelf_objs, onStop_busy, hst.busy]
  status a := by
    rw [stopSelf_objs]
    rcases onStop_status cfg t addr.id d.actor a with h | h
    · rw [h]
      exact hst.status a
    · exact Or.inr h
  statusKept a h := by
    have ha : a ≠ d.actor := fun hc =>
      h addr.id d ((leaves_stopSelf hd).mpr (Or.inl ⟨rfl, rfl⟩)) hc.symm
    rw [stopSelf_objs, onStop_of_ne cfg t addr.id ha]
    exact hst.statusKept a fun k e hl => h k e (leaves_stopSelf_of_leaves hd hl)
  statusSet k e hl hb := by
    rw [stopSelf_objs]
    by_cases ha : e.actor = d.actor
    · rw [ha] at hb ⊢
      rw [onStop_self, if_pos hb]
      rfl
    · rw [onStop_of_ne cfg t addr.id ha]
      rcases (leaves_stopSelf hd).mp hl with ⟨_, rfl⟩ | ⟨_, hl⟩
      · exact absurd rfl ha
      · exact hst.statusSet k e hl hb
  trace := by
    rcases hst.trace with ⟨evs, hevs, hall, hmem⟩
    rcases @stopSelf_trace π cfg t addr r d with ⟨told, htold, htold'⟩
    refine ⟨evs ++ [.stopped addr.id d.actor] ++ told, ?_, fun ev hev => ?_, fun k e hl => ?_⟩
    · rw [htold, hevs]
      simp only [List.append_assoc]
    · rcases List.mem_append.mp hev with h | h
      · rcases List.mem_append.mp h with h | h
        · rcases hall ev h with ⟨k, e, hl, rfl⟩ | h
          · exact Or.inl ⟨k, e, leaves_stopSelf_of_leaves hd hl, rfl⟩
          · exact Or.inr h
        · exact Or.inl ⟨addr.id, d, (leaves_stopSelf hd).mpr (Or.inl ⟨rfl, rfl⟩),
            List.mem_singleton.mp h⟩
      · exact Or.inr (htold' ev h)
    · rcases (leaves_stopSelf hd).mp hl with ⟨rfl, rfl⟩ | ⟨_, hl⟩
      · exact List.mem_append_left _ (List.mem_append_right _ List.mem_cons_self)
      · exact List.mem_append_left _ (List.mem_append_left _ (hmem k e hl))

end StopSelf

theorem stopActorImpl_succ (cfg : Config) (fuel : Nat) (addr : ActorAddress)
    (r : ActorStoppingReason) (s : System π) (d : Description) (hd : s.live addr.id = some d) :
    System.stopActorImpl cfg (fuel + 1) addr r s =
      ((cfg.order d.children).foldlM
        (fun s c => System.stopActorImpl cfg fuel (.ofId c) r s) s).map
        fun t => stopSelf cfg t addr r d := by
  unfold System.live at hd
  simp only [System.stopActorImpl, hd]
  split <;> rename_i h <;> rw [h] <;> rfl

/-- Stopping a list of children in turn, given what each of the calls does. -/
theorem foldlM_stops {cfg : Config} {stop : System π → IdT → Option (System π)}
    (hstop : ∀ s c t, stop s c = some t → Stops cfg s t ∧ t.live c = none) :
    ∀ (cs : List IdT) (s t : System π), cs.foldlM stop s = some t →
      Stops cfg s t ∧ ∀ c ∈ cs, t.live c = none := by
  intro cs
  induction cs with
  | nil =>
      intro s t h
      simp only [List.foldlM_nil, Option.pure_def, Option.some.injEq] at h
      rw [← h]
      exact ⟨stops_refl cfg s, fun c hc => absurd hc List.not_mem_nil⟩
  | cons c cs ih =>
      intro s t h
      rw [List.foldlM_cons] at h
      rcases Option.bind_eq_some_iff.mp h with ⟨u, hu, ht⟩
      rcases hstop s c u hu with ⟨hsu, hgone⟩
      rcases ih u t ht with ⟨hut, hrest⟩
      refine ⟨stops_trans hsu hut, fun b hb => ?_⟩
      rcases List.mem_cons.mp hb with rfl | hb
      · exact prunes_none hut.prunes hgone
      · exact hrest b hb

/-- The recursion has the effect of a stop, and its target is gone. -/
theorem stopActorImpl_stops (cfg : Config) (r : ActorStoppingReason) :
    ∀ (fuel : Nat) (addr : ActorAddress) (s t : System π),
      System.stopActorImpl cfg fuel addr r s = some t → Stops cfg s t ∧ t.live addr.id = none := by
  intro fuel
  induction fuel with
  | zero =>
      intro addr s t h
      exact absurd h (by simp only [System.stopActorImpl, reduceCtorEq, not_false_eq_true])
  | succ fuel ih =>
      intro addr s t h
      cases hd : s.live addr.id with
      | none =>
          unfold System.live at hd
          simp only [System.stopActorImpl, hd, Option.some.injEq] at h
          rw [← h]
          exact ⟨stops_refl cfg s, hd⟩
      | some d =>
          rw [stopActorImpl_succ cfg fuel addr r s d hd] at h
          rcases Option.map_eq_some_iff.mp h with ⟨u, hu, rfl⟩
          rcases foldlM_stops (fun s c t => ih (.ofId c) s t) _ s u hu with ⟨hsu, hkids⟩
          -- The iteration order visits every child there is.
          have hall : ∀ c ∈ d.children, u.live c = none :=
            fun c hc => hkids c ((cfg.order_perm d.children).mem_iff.mpr hc)
          exact ⟨stops_self hsu hd hall, (stopSelf_live cfg u addr r d).1⟩

theorem stopActorImplSafety_stops {cfg : Config} {s t : System π} {addr : ActorAddress}
    {r : ActorStoppingReason} (h : s.stopActorImplSafety cfg addr r = some t) :
    Stops cfg s t ∧ t.live addr.id = none :=
  stopActorImpl_stops cfg r _ (.ofId addr.id) s t h

/-- Stopping a list of children removes only what their lists lead to. -/
theorem foldlM_under {cfg : Config} {stop : System π → IdT → Option (System π)}
    (hstop : ∀ s c t, stop s c = some t → (Stops cfg s t ∧ t.live c = none) ∧
      ∀ k d, Leaves s t k d → Under Description.kids s.live c k) :
    ∀ (cs : List IdT) (s t : System π), cs.foldlM stop s = some t →
      ∀ k d, Leaves s t k d → ∃ c ∈ cs, Under Description.kids s.live c k := by
  intro cs
  induction cs with
  | nil =>
      intro s t h k d hl
      simp only [List.foldlM_nil, Option.pure_def, Option.some.injEq] at h
      rw [h] at hl
      exact absurd hl not_leaves_self
  | cons c cs ih =>
      intro s t h k d hl
      rw [List.foldlM_cons] at h
      rcases Option.bind_eq_some_iff.mp h with ⟨u, hu, ht⟩
      rcases hstop s c u hu with ⟨⟨hsu, _⟩, hunder⟩
      have hut : Stops cfg u t := (foldlM_stops (fun s c t h => (hstop s c t h).1) cs u t ht).1
      rcases (leaves_split hsu.prunes hut.prunes).mp hl with hl | hl
      · exact ⟨c, List.mem_cons_self, hunder k d hl⟩
      · rcases ih u t ht k d hl with ⟨b, hb, hbk⟩
        exact ⟨b, List.mem_cons_of_mem c hb, under_of_prunes hsu.prunes hbk⟩

/-- The recursion removes only what the lists lead to from its target. -/
theorem stopActorImpl_under (cfg : Config) (r : ActorStoppingReason) :
    ∀ (fuel : Nat) (addr : ActorAddress) (s t : System π),
      System.stopActorImpl cfg fuel addr r s = some t →
        ∀ k d, Leaves s t k d → Under Description.kids s.live addr.id k := by
  intro fuel
  induction fuel with
  | zero =>
      intro addr s t h
      exact absurd h (by simp only [System.stopActorImpl, reduceCtorEq, not_false_eq_true])
  | succ fuel ih =>
      intro addr s t h k d hl
      cases hd : s.live addr.id with
      | none =>
          unfold System.live at hd
          simp only [System.stopActorImpl, hd, Option.some.injEq] at h
          rw [h] at hl
          exact absurd hl not_leaves_self
      | some e =>
          rw [stopActorImpl_succ cfg fuel addr r s e hd] at h
          rcases Option.map_eq_some_iff.mp h with ⟨u, hu, rfl⟩
          by_cases hk : k = addr.id
          · rw [hk]
            exact Under.self
          · -- Whatever else left, left with one of the children.
            have hearly : Leaves s u k d :=
              ⟨hl.1, by rw [← (stopSelf_live cfg u addr r e).2 k hk, hl.2]⟩
            have hone : ∀ s c t, System.stopActorImpl cfg fuel (.ofId c) r s = some t →
                (Stops cfg s t ∧ t.live c = none) ∧
                  ∀ k d, Leaves s t k d → Under Description.kids s.live c k := fun s c t ht =>
              ⟨stopActorImpl_stops cfg r fuel (.ofId c) s t ht, ih (.ofId c) s t ht⟩
            rcases foldlM_under hone _ s u hu k d hearly with ⟨c, hc, hck⟩
            have hmem : c ∈ e.children := (cfg.order_perm e.children).mem_iff.mp hc
            exact under_trans (Under.child Under.self hd hmem) hck

theorem stopActorImplSafety_under {cfg : Config} {s t : System π} {addr : ActorAddress}
    {r : ActorStoppingReason} (h : s.stopActorImplSafety cfg addr r = some t) :
    ∀ k d, Leaves s t k d → Under Description.kids s.live addr.id k :=
  stopActorImpl_under cfg r _ (.ofId addr.id) s t h

section Rule

variable {cfg : Config} {r : ActorStoppingReason} {P : System π → Prop}
  {R : System π → System π → Prop}

/-- A relation between the state before and after a stop that composes, where
    `P` holds before. No child list leads back to the actor it belongs to. -/
structure Composes (cfg : Config) (P : System π → Prop) (R : System π → System π → Prop) :
    Prop where
  keep : ∀ s t, Stops cfg s t → P s → P t
  apart : ∀ s k d c, P s → s.live k = some d → c ∈ d.children →
    ¬ Under Description.kids s.live c k
  refl : ∀ s, P s → R s s
  trans : ∀ s t u, P s → Stops cfg s t → Stops cfg t u → R s t → R t u → R s u

/-- Such a relation holds across a list of calls if it holds across each. -/
theorem foldlM_rule (h : Composes cfg P R) {stop : System π → IdT → Option (System π)}
    (hstop : ∀ s c t, P s → stop s c = some t → Stops cfg s t ∧ R s t)
    (hstops : ∀ s c t, stop s c = some t → Stops cfg s t ∧ t.live c = none) :
    ∀ (cs : List IdT) (s t : System π), P s → cs.foldlM stop s = some t → R s t := by
  intro cs
  induction cs with
  | nil =>
      intro s t hs ht
      simp only [List.foldlM_nil, Option.pure_def, Option.some.injEq] at ht
      rw [← ht]
      exact h.refl s hs
  | cons c cs ih =>
      intro s t hs ht
      rw [List.foldlM_cons] at ht
      rcases Option.bind_eq_some_iff.mp ht with ⟨u, hu, hut⟩
      rcases hstop s c u hs hu with ⟨hsu, hr⟩
      exact h.trans s u t hs hsu (foldlM_stops hstops cs u t hut).1 hr
        (ih u t (h.keep s u hsu hs) hut)

/-- Such a relation holds across a stop if it holds across the last part of one,
    for an actor that is registered and whose children are gone. -/
theorem stopActorImpl_rule (h : Composes cfg P R)
    (hself : ∀ t k d, P t → t.live k = some d → (∀ c ∈ d.children, t.live c = none) →
      R t (stopSelf cfg t (.ofId k) r d)) :
    ∀ (fuel : Nat) (k : IdT) (s t : System π), P s →
      System.stopActorImpl cfg fuel (.ofId k) r s = some t → R s t := by
  intro fuel
  induction fuel with
  | zero =>
      intro k s t _ ht
      exact absurd ht (by simp only [System.stopActorImpl, reduceCtorEq, not_false_eq_true])
  | succ fuel ih =>
      intro k s t hs ht
      cases hd : s.live k with
      | none =>
          have hsame : System.stopActorImpl cfg (fuel + 1) (.ofId k) r s = some s := by
            unfold System.live at hd
            simp only [System.stopActorImpl, ActorAddress.ofId, hd]
          rw [hsame, Option.some.injEq] at ht
          rw [← ht]
          exact h.refl s hs
      | some d =>
          rw [stopActorImpl_succ cfg fuel (.ofId k) r s d hd] at ht
          rcases Option.map_eq_some_iff.mp ht with ⟨u, hu, rfl⟩
          have hone : ∀ (s : System π) c t, System.stopActorImpl cfg fuel (.ofId c) r s = some t →
              Stops cfg s t ∧ t.live c = none := fun s c t ht =>
            stopActorImpl_stops cfg r fuel (.ofId c) s t ht
          rcases foldlM_stops hone _ s u hu with ⟨hsu, hkids⟩
          have hgone : ∀ c ∈ d.children, u.live c = none :=
            fun c hc => hkids c ((cfg.order_perm d.children).mem_iff.mpr hc)
          have hchildren : R s u :=
            foldlM_rule h (fun s c t hs ht => ⟨(hone s c t ht).1, ih c s t hs ht⟩) hone _ s u hs hu
          -- The target is still there when its own turn comes.
          have hstill : u.live k = some d := by
            rcases hsu.prunes.only k with hsame | hnone
            · rw [hsame, hd]
            · rcases foldlM_under (fun s c t ht => ⟨hone s c t ht,
                stopActorImpl_under cfg r fuel (.ofId c) s t ht⟩) _ s u hu k d ⟨hd, hnone⟩
                with ⟨c, hc, hunder⟩
              have hmem : c ∈ d.children := (cfg.order_perm d.children).mem_iff.mp hc
              exact absurd hunder (h.apart s k d c hs hd hmem)
          have hus : Stops cfg u (stopSelf cfg u (.ofId k) r d) :=
            stops_self (stops_refl cfg u) hstill hgone
          exact h.trans s u _ hs hsu hus hchildren (hself u k d (h.keep s u hsu hs) hstill hgone)

end Rule

/-- The effect of the loop of `context::stop`: `on_stop` of everything that is
    registered, with the maps still in place. -/
structure Sweeps (cfg : Config) (s s' : System π) : Prop where
  rest : s' = { s with objs := s'.objs, trace := s'.trace }
  busy : ∀ a, (s'.objs a).busy = (s.objs a).busy
  status : ∀ a, (s'.objs a).status = (s.objs a).status ∨ (s'.objs a).status = ⟨.stoped, ""⟩
  trace : ∃ evs, s'.trace = s.trace ++ evs ∧
    ∀ ev ∈ evs, ∃ k d, s.live k = some d ∧ ev = .stopped k d.actor

theorem sweeps_grows {cfg : Config} {s t : System π} (h : Sweeps cfg s t) {p : Event π → Prop}
    (hstopped : ∀ k a, p (.stopped k a)) : Grows p s.trace t.trace := by
  rcases h.trace with ⟨evs, hevs, hall⟩
  refine ⟨evs, hevs, fun ev hev => ?_⟩
  rcases hall ev hev with ⟨k, d, _, rfl⟩
  exact hstopped k d.actor

/-- One turn of the loop of `context::stop`. -/
def System.stopOne (cfg : Config) (s : System π) (k : IdT) : System π :=
  match s.actors.lookup k with
  | none => s
  | some d => s.onStop cfg k d.actor

theorem stopOne_none {cfg : Config} {s : System π} {k : IdT} (hd : s.live k = none) :
    s.stopOne cfg k = s := by
  unfold System.live at hd
  simp only [System.stopOne, hd]

theorem stopOne_some {cfg : Config} {s : System π} {k : IdT} {d : Description}
    (hd : s.live k = some d) : s.stopOne cfg k = s.onStop cfg k d.actor := by
  unfold System.live at hd
  simp only [System.stopOne, hd]

theorem foldl_sweeps (cfg : Config) (ks : List IdT) (s : System π) :
    Sweeps cfg s (ks.foldl (System.stopOne cfg) s) := by
  induction ks generalizing s with
  | nil =>
      exact ⟨rfl, fun _ => rfl, fun _ => Or.inl rfl, [], by rw [List.foldl_nil, List.append_nil],
        fun ev hev => absurd hev List.not_mem_nil⟩
  | cons k ks ih =>
      rw [List.foldl_cons]
      -- An id that is not registered is passed over.
      cases hd : s.live k with
      | none =>
          rw [stopOne_none hd]
          exact ih s
      | some d =>
          rw [stopOne_some hd]
          have h := ih (s.onStop cfg k d.actor)
          refine ⟨?_, fun a => ?_, fun a => ?_, ?_⟩
          · rw [h.rest]
            rfl
          · rw [h.busy, onStop_busy]
          · rcases h.status a with hs | hs
            · rw [hs]
              exact onStop_status cfg s k d.actor a
            · exact Or.inr hs
          · rcases h.trace with ⟨evs, hevs, hall⟩
            refine ⟨.stopped k d.actor :: evs, ?_, fun ev hev => ?_⟩
            · rw [hevs]
              simp only [System.onStop, System.emit, System.setObj, List.append_assoc,
                List.cons_append, List.nil_append]
            · rcases List.mem_cons.mp hev with rfl | hev
              · exact ⟨k, d, hd, rfl⟩
              · exact hall ev hev

theorem stopAll_sweeps (cfg : Config) (s : System π) : Sweeps cfg s (s.stopAll cfg) :=
  foldl_sweeps cfg _ s

end Yaaf
