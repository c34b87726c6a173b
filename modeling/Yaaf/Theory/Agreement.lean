import Mathlib.Algebra.Group.Nat.Defs
import Yaaf.Theory.Pool

/-!
# Ids Are Not Reused

What the maps of a context say about each other. The keys of `_actors` and
`_mboxes` are equal in every state, and every entry goes back to a
registration; that much needs no assumption. Whether two registrations can
have one id is a matter of counting: the counter is 64 bits wide and starts
at one, and until it wraps around, no id is taken twice and none is zero.

`_id_by_name` is never cleaned. A name that was registered twice points at
the later registration, and one whose actor was stopped points at an id that
is in no other map. Both are harmless for one reason only, which is that the
id will not come back.

## Main definitions

* `Numbered`: The ids taken so far, while the counter has not wrapped.
* `AddCall.pending?`: The id a call will register.
* `Unused`: No id is registered twice.
* `System.mentions`: An id the maps speak of.

## Theorems

* `step_numbered`, `step_unused`: Both are invariants.
* `registry_agreement`: The maps agree.
-/

namespace Yaaf

open Slots

variable {π : Type}

/-- Fewer calls of `add_actor` than the counter has values to give. -/
def System.fewCalls (s : System π) : Prop :=
  s.calls.length < 2 ^ 64 - 1

/-- The ids taken so far are one, two, three, and the counter stands behind
    them. -/
def Numbered (s : System π) : Prop :=
  s.fewCalls → s.nextActorId.toNat = s.calls.length + 1 ∧
    s.calls.map (fun c => c.1.value.toNat) = List.range' 1 s.calls.length

/-- The id a call of `add_actor` has taken and will register. -/
def AddCall.pending? (c : AddCall) : Option IdT :=
  match c.stage with
  | .inserted _ => none
  | _ => some c.newId

/-- The ids taken and not yet registered. -/
def System.pendingIds (s : System π) : List IdT :=
  s.adding.filterMap AddCall.pending?

/-- The ids registered so far. -/
def System.registeredIds (s : System π) : List IdT :=
  s.registrations.map fun r => r.descr.address.id

/-- No id is registered twice, and none that is registered is still to be. -/
def Unused (s : System π) : Prop :=
  s.fewCalls → (s.pendingIds ++ s.registeredIds).Nodup

section Ids

variable {cfg : Config} {s s' : System π}

/-- What a step does to the list of calls and to the counter. -/
theorem step_calls {a : Action π} (hs : step cfg s a = some s') (h : Registered s) :
    s'.calls = s.calls ∧ s'.nextActorId = s.nextActorId ∨
      ∃ n, s'.calls = s.calls ++ [(s.newId, n)] ∧ s'.nextActorId = s.nextActorId + 1 := by
  cases registryRule_of_stepRule (stepRule_of_step hs).2 with
  | same s' hr hw => exact Or.inl ⟨sameRegistry_calls hr, hr.nextActorId⟩
  | call n b cur => exact Or.inr ⟨n, List.filterMap_append, rfl⟩
  | add i c s' hi hadd =>
      cases hadd with
      | insert =>
          exact Or.inl ⟨List.filterMap_append.trans (List.append_nil _), rfl⟩
      | post m hc =>
          rw [System.postStart, userPost_rest]
          exact Or.inl ⟨List.filterMap_append.trans (List.append_nil _), rfl⟩
      | _ => exact Or.inl ⟨rfl, rfl⟩
  | stop u s' hx hu hr hw =>
      have hnext : u.nextActorId = s.nextActorId := by rw [hu.rest]
      exact Or.inl ⟨(sameRegistry_calls hr).trans (stops_calls hu), hr.nextActorId.trans hnext⟩
  | clear s' hx hw hr =>
      have hcalls := sameRegistry_calls hr
      exact Or.inl ⟨hcalls, hr.nextActorId⟩
  | worker s' hrule =>
      have hr := workerRule_same hrule h
      exact Or.inl ⟨sameRegistry_calls hr, hr.nextActorId⟩

/-- The number of calls only grows. -/
theorem fewCalls_of_step {a : Action π} (hs : step cfg s a = some s') (h : Registered s)
    (hfew : s'.fewCalls) : s.fewCalls := by
  unfold System.fewCalls at hfew ⊢
  rcases step_calls hs h with ⟨hc, _⟩ | ⟨n, hc, _⟩
  · rw [hc] at hfew
    exact hfew
  · rw [hc, List.length_append] at hfew
    omega

theorem step_numbered {a : Action π} (hs : step cfg s a = some s') (hreg : Registered s)
    (h : Numbered s) : Numbered s' := by
  intro hfew
  rcases h (fewCalls_of_step hs hreg hfew) with ⟨hnext, hids⟩
  unfold System.fewCalls at hfew
  rcases step_calls hs hreg with ⟨hc, hn⟩ | ⟨n, hc, hn⟩
  · rw [hc, hn]
    exact ⟨hnext, hids⟩
  · rw [hc, List.length_append, List.length_singleton] at hfew
    have hlt : s.nextActorId.toNat + 1 < 2 ^ 64 := by omega
    refine ⟨?_, ?_⟩
    · rw [hc, hn, List.length_append, List.length_singleton, UInt64.toNat_add, hnext]
      exact Nat.mod_eq_of_lt (by rw [← hnext]; exact hlt)
    · rw [hc, List.map_append, hids, List.length_append, List.length_singleton,
        List.range'_1_concat]
      simp only [List.map_cons, List.map_nil, System.newId, hnext, Nat.add_comm 1]

/-- The ids taken are positive, below the counter, and all different. -/
theorem numbered_ids (h : Numbered s) (hfew : s.fewCalls) :
    (∀ c ∈ s.calls, 0 < c.1.value.toNat ∧ c.1.value.toNat < s.nextActorId.toNat) ∧
      (s.calls.map Prod.fst).Nodup := by
  rcases h hfew with ⟨hnext, hids⟩
  refine ⟨fun c hc => ?_, ?_⟩
  · have hmem : c.1.value.toNat ∈ s.calls.map (fun c => c.1.value.toNat) :=
      List.mem_map.mpr ⟨c, hc, rfl⟩
    rw [hids, List.mem_range'_1] at hmem
    omega
  · have hnodup : (s.calls.map fun c => c.1.value.toNat).Nodup := by
      rw [hids]
      exact List.nodup_range'
    refine List.Nodup.of_map (fun k : IdT => k.value.toNat) ?_
    rw [List.map_map]
    exact hnodup

/-- The id a call takes is new. -/
theorem newId_fresh (h : Numbered s) (hfew : s.fewCalls) (n : String) : (s.newId, n) ∉ s.calls := by
  intro hmem
  have hlt := ((numbered_ids h hfew).1 _ hmem).2
  exact absurd hlt (Nat.lt_irrefl _)

/-- Everything pending or registered was called for. -/
theorem called_of_mem (h : Filed s) {k : IdT} (hk : k ∈ s.pendingIds ++ s.registeredIds) :
    ∃ n, (k, n) ∈ s.calls := by
  rcases List.mem_append.mp hk with hk | hk
  · rcases List.mem_filterMap.mp hk with ⟨c, hc, hck⟩
    have hid : c.newId = k := by
      unfold AddCall.pending? at hck
      split at hck
      · exact absurd hck (by simp only [reduceCtorEq, not_false_eq_true])
      · exact Option.some.inj hck
    exact ⟨c.actorName, hid ▸ (h.drafts c hc).1⟩
  · rcases List.mem_map.mp hk with ⟨r, hr, rfl⟩
    exact ⟨r.actorName, (h.records r hr).called⟩

theorem addRule_ids {i : Nat} {c : AddCall} (hi : s.adding[i]? = some c) (hr : AddRule s i c s')
    (hreg : Filed s) (h : (s.pendingIds ++ s.registeredIds).Nodup) :
    (s'.pendingIds ++ s'.registeredIds).Nodup := by
  -- A call that moves on without registering keeps its id pending.
  have hset : ∀ st, AddCall.pending? { c with stage := st } = c.pending? →
      (s.adding.set i { c with stage := st }).filterMap AddCall.pending? = s.pendingIds :=
    fun st hst => filterMap_set hi _ hst.symm
  have hpending : ∀ st, c.stage = st → (∀ m, st ≠ .inserted m) → c.pending? = some c.newId := by
    intro st hst hno
    unfold AddCall.pending?
    split
    · rename_i m hm
      exact absurd (hst.symm.trans hm) (hno m)
    · rfl
  cases hr with
  | crash => exact h
  | lookup parent up d hc =>
      have hp := hpending _ hc fun m => by simp only [ne_eq, reduceCtorEq, not_false_eq_true]
      have hids := hset (.built d) hp.symm
      rw [System.pendingIds, hids]
      exact h
  | initReturn d hc =>
      have hp := hpending _ hc fun m => by simp only [ne_eq, reduceCtorEq, not_false_eq_true]
      have hids := hset (.ready d) hp.symm
      rw [System.pendingIds, hids]
      exact h
  | initThrow d hc =>
      have hsub : ((s.adding.eraseIdx i).filterMap AddCall.pending?).Sublist s.pendingIds :=
        (List.eraseIdx_sublist s.adding i).filterMap _
      exact h.sublist (hsub.append (List.Sublist.refl _))
  | insert d hc hx =>
      -- The id moves from pending to registered.
      have hp := hpending _ hc fun m => by simp only [ne_eq, reduceCtorEq, not_false_eq_true]
      have hdraft := (hreg.drafts c (List.mem_of_getElem? hi)).2
      rw [hc] at hdraft
      have hid : d.address.id = c.newId := by rw [hdraft.address]
      rcases filterMap_slot hi AddCall.pending? with ⟨pre, post, hold, hnew⟩
      have hold' : s.pendingIds = pre ++ [c.newId] ++ post := by
        rw [System.pendingIds, hold, hp]
        rfl
      have hnew' : (s.adding.set i { c with stage := .inserted s.nextBox }).filterMap
          AddCall.pending? = pre ++ post := by
        rw [hnew]
        simp only [AddCall.pending?, Option.toList_none, List.append_nil]
      have hregs : (s.insertActor c.newId d c.actorName).registeredIds =
          s.registeredIds ++ [c.newId] := by
        rw [System.registeredIds, insertActor_registrations, List.map_append, ← hid]
        rfl
      have hperm : (pre ++ [c.newId] ++ post ++ s.registeredIds).Perm
          (pre ++ post ++ (s.registeredIds ++ [c.newId])) := by
        rw [List.append_assoc, List.append_assoc, List.append_assoc, ← List.append_assoc post]
        exact List.Perm.append_left pre List.perm_append_comm
      rw [hold'] at h
      have hgoal := hperm.nodup_iff.mp h
      rw [← hnew', ← hregs] at hgoal
      exact hgoal
  | post m hc =>
      have hnone : c.pending? = none := by
        unfold AddCall.pending?
        rw [hc]
      have hids : (s.adding.eraseIdx i).filterMap AddCall.pending? = s.pendingIds :=
        filterMap_eraseIdx hi _ hnone
      have hregs : ({ s.postStart c.actor m with
          adding := s.adding.eraseIdx i } : System π).registrations = s.registrations := by
        rw [System.postStart, userPost_rest]
        exact List.filterMap_append.trans (List.append_nil _)
      rw [System.pendingIds, System.registeredIds, hids, hregs]
      exact h

theorem step_unused {a : Action π} (hs : step cfg s a = some s') (hreg : Registered s)
    (hnum : Numbered s) (h : Unused s) : Unused s' := by
  intro hfew
  have hfew' := fewCalls_of_step hs hreg hfew
  have hold := h hfew'
  have hsame : ∀ {u u' : System π}, SameRegistry u u' →
      u'.pendingIds ++ u'.registeredIds = u.pendingIds ++ u.registeredIds := by
    intro u u' hr
    rw [System.pendingIds, System.registeredIds, hr.adding, sameRegistry_registrations hr]
    rfl
  cases registryRule_of_stepRule (stepRule_of_step hs).2 with
  | same s' hr hw =>
      rw [hsame hr]
      exact hold
  | call n b cur =>
      have hnew : s.newId ∉ s.pendingIds ++ s.registeredIds := by
        intro hmem
        rcases called_of_mem hreg.toFiled hmem with ⟨m, hm⟩
        exact newId_fresh hnum hfew' m hm
      have hids : ({ s.takeId n with adding := s.adding ++
          [⟨n, b, s.newId, .called cur⟩] } : System π).pendingIds = s.pendingIds ++ [s.newId] :=
        List.filterMap_append
      have hregs : ({ s.takeId n with adding := s.adding ++
          [⟨n, b, s.newId, .called cur⟩] } : System π).registrations = s.registrations :=
        List.filterMap_append.trans (List.append_nil _)
      rw [hids, System.registeredIds, hregs, List.append_assoc]
      exact (List.perm_middle.nodup_iff).mpr (List.nodup_cons.mpr ⟨hnew, hold⟩)
  | add i c s' hi hadd => exact addRule_ids hi hadd hreg.toFiled hold
  | stop u s' hx hu hr hw =>
      rw [hsame hr, System.pendingIds, System.registeredIds, stops_registrations hu]
      have hadding : u.adding = s.adding := by rw [hu.rest]
      rw [hadding]
      exact hold
  | clear s' hx hw hr =>
      rw [hsame hr]
      exact hold
  | worker s' hrule =>
      rw [hsame (workerRule_same hrule hreg)]
      exact hold

/-- Registrations with one id are one registration. -/
theorem registration_of_id (h : Unused s) (hfew : s.fewCalls) {r r' : Registration}
    (hr : r ∈ s.registrations) (hr' : r' ∈ s.registrations)
    (hid : r.descr.address.id = r'.descr.address.id) : r = r' :=
  List.inj_on_of_nodup_map (List.nodup_append.mp (h hfew)).2.1 hr hr' hid

end Ids

/-- All that the agreement rests on. -/
structure Agrees (s : System π) : Prop where
  registered : Registered s
  numbered : Numbered s
  unused : Unused s

theorem step_agrees {cfg : Config} {s s' : System π} {a : Action π}
    (hs : step cfg s a = some s') (h : Agrees s) : Agrees s' where
  registered := step_registered hs h.registered
  numbered := step_numbered hs h.registered h.numbered
  unused := step_unused hs h.registered h.numbered h.unused

theorem reach_agrees {cfg : Config} {name : String} {C : System π → Action π → Prop}
    {s : System π} (h : (context cfg name).Reach C s) : Agrees s :=
  always Agrees ⟨registered_constructed name, fun _ => ⟨rfl, rfl⟩, fun _ => List.nodup_nil⟩
    (fun _ r h => ⟨registered_usrRoot r h.registered, h.numbered, h.unused⟩)
    (fun _ _ _ => step_agrees) h

/-- An id the maps speak of: a key, a target of a name, or a child. -/
def System.mentions (s : System π) (k : IdT) : Prop :=
  (s.live k).isSome = true ∨ (∃ n, s.idByName.lookup n = some k) ∨
    ∃ j d, s.live j = some d ∧ k ∈ d.children

theorem registered_of_mentions {s : System π} (h : Filed s) {k : IdT} (hk : s.mentions k) :
    ∃ r ∈ s.registrations, r.descr.address.id = k := by
  rcases hk with hk | ⟨n, hn⟩ | ⟨j, d, hd, hc⟩
  · rcases Option.isSome_iff_exists.mp hk with ⟨d, hd⟩
    rcases h.entries k d hd with ⟨r, hr, _⟩
    exact ⟨r, hr.mem, hr.id⟩
  · rcases h.names n k hn with ⟨r, hr, hrk⟩
    exact ⟨r, hr, by rw [hrk]⟩
  · exact h.children j d hd k hc

/-- The id was taken by one call of `add_actor` and lies below the counter. -/
theorem mentions_called {s : System π} (h : Agrees s) (hfew : s.fewCalls) {k : IdT}
    (hk : s.mentions k) : k.value ≠ 0 ∧ k.value < s.nextActorId ∧
      (s.calls.map Prod.fst).count k = 1 := by
  rcases registered_of_mentions h.registered.toFiled hk with ⟨r, hr, rfl⟩
  have hcalled := (h.registered.records r hr).called
  rcases numbered_ids h.numbered hfew with ⟨hrange, hnodup⟩
  rcases hrange _ hcalled with ⟨hpos, hlt⟩
  refine ⟨fun h0 => ?_, UInt64.lt_iff_toNat_lt.mpr hlt, ?_⟩
  · rw [h0] at hpos
    exact absurd hpos (Nat.lt_irrefl 0)
  · exact List.count_eq_one_of_mem hnodup (List.mem_map.mpr ⟨_, hcalled, rfl⟩)

/-- What the description registered under an id says. -/
theorem live_described {s : System π} (h : Agrees s) (hfew : s.fewCalls) {k : IdT}
    {d : Description} (hd : s.live k = some d) : d.address = ⟨k, d.name⟩ ∧
      ∃ n, (k, n) ∈ s.calls ∧
        (d.parent = IdT.none ∧ d.name = "/" ++ n ∨
          ∃ p ∈ s.registrations, p.descr.address.id = d.parent ∧
            d.name = p.descr.name ++ "/" ++ n) ∧
        ∀ p, d.parent ≠ IdT.none → s.live d.parent = some p → d.name = p.name ++ "/" ++ n := by
  rcases h.registered.entries k d hd with ⟨r, hr, _⟩
  have hrec := h.registered.records r hr.mem
  have hparent := hrec.parent
  rw [hr.descr] at hparent
  refine ⟨live_address h.registered.toFiled hd, r.actorName, hr.id ▸ hrec.called, hparent,
    fun p hne hp => ?_⟩
  rcases hparent with ⟨hnone, _⟩ | ⟨q, hq, hqid, hname⟩
  · exact absurd hnone hne
  · -- The live parent is the one the name was taken from.
    rcases h.registered.entries _ p hp with ⟨r', hr', _⟩
    have heq : q = r' :=
      registration_of_id h.unused hfew hq hr'.mem (by rw [hqid, hr'.id])
    have hpname : r'.descr.name = p.name := by rw [hr'.descr]
    rw [hname, heq, hpname]

/-- A name that resolves names a live actor registered under it. -/
theorem getAddress_live {s : System π} (h : Agrees s) (hfew : s.fewCalls) {n : String}
    (hn : (s.getAddress n).empty = false) : ∃ k d, s.live k = some d ∧ s.getAddress n = d.address ∧
      d.address = ⟨k, n⟩ ∧ s.getActorByName n = some d.actor ∧
        s.getActor (s.getAddress n) = some d.actor := by
  cases hk : s.idByName.lookup n with
  | none =>
      simp only [System.getAddress, hk, Option.bind_none] at hn
      exact absurd hn (by decide)
  | some k =>
      cases hd : s.actors.lookup k with
      | none =>
          simp only [System.getAddress, hk, Option.bind_some, hd] at hn
          exact absurd hn (by decide)
      | some d =>
          have hget : s.getAddress n = d.address := by
            simp only [System.getAddress, hk, Option.bind_some, hd]
          rcases h.registered.names n k hk with ⟨r, hr, hrk⟩
          rcases h.registered.entries k d hd with ⟨r', hr', _⟩
          -- The id was not reused, so the name is that of the live actor.
          have heq : r = r' :=
            registration_of_id h.unused hfew hr hr'.mem (by rw [hrk, hr'.id])
          have haddress : d.address = ⟨k, n⟩ := by
            rw [← hrk, heq, hr'.descr]
          refine ⟨k, d, hd, hget, haddress, ?_, ?_⟩
          · simp only [System.getActorByName, hk, Option.bind_some, hd, Option.map_some]
          · rw [System.getActor, hget, haddress, hd]
            rfl

/-- Registry agreement. While `add_actor` was called fewer than `2 ^ 64 - 1`
    times: the two maps have the same keys and the worker has nothing to
    remove; a description says what `add_actor` was told; ids come from one
    call each; names point at what was registered under them; and the two ways
    to look an actor up agree. -/
theorem registry_agreement {cfg : Config} {name : String} {s : System π}
    (h : (context cfg name).Reach Machine.free s) (hfew : s.calls.length < 2 ^ 64 - 1) :
    (∀ k, (s.live k).isSome = (s.mboxes.lookup k).isSome) ∧
    (∀ rm, (s.worker = .purging rm ∨ ∃ todo pc, s.worker = .scan todo rm pc) → rm = []) ∧
    (∀ k d, s.live k = some d → d.address = ⟨k, d.name⟩ ∧ ∃ n, (k, n) ∈ s.calls ∧
      (d.parent = IdT.none ∧ d.name = "/" ++ n ∨
        ∃ p ∈ s.registrations, p.descr.address.id = d.parent ∧
          d.name = p.descr.name ++ "/" ++ n) ∧
      ∀ p, d.parent ≠ IdT.none → s.live d.parent = some p → d.name = p.name ++ "/" ++ n) ∧
    (∀ k, s.mentions k → k.value ≠ 0 ∧ k.value < s.nextActorId ∧
      (s.calls.map Prod.fst).count k = 1) ∧
    (∀ n k, s.idByName.lookup n = some k → ∃ r ∈ s.registrations, r.descr.address = ⟨k, n⟩) ∧
    ∀ n, (s.getAddress n).empty = false →
      ∃ k d, s.live k = some d ∧ s.getAddress n = d.address ∧ d.address = ⟨k, n⟩ ∧
        s.getActorByName n = some d.actor ∧ s.getActor (s.getAddress n) = some d.actor := by
  have ha : Agrees s := reach_agrees h
  refine ⟨fun k => ?_, fun rm hrm => ?_, fun k d => live_described ha hfew,
    fun k => mentions_called ha hfew, ha.registered.names, fun n => getAddress_live ha hfew⟩
  · cases hd : s.live k with
    | none => rw [ha.registered.noEntry k hd]; rfl
    | some d =>
        rcases ha.registered.entries k d hd with ⟨r, _, hr⟩
        rw [hr]
        rfl
  · have hscan := ha.registered.scanned
    unfold Scanned at hscan
    rcases hrm with hw | ⟨todo, pc, hw⟩
    · rw [hw] at hscan
      exact hscan
    · rw [hw] at hscan
      exact hscan.1

/-- A name is registered, stopped, and registered again. -/
def renameRun : List (Action Nat) :=
  register "a" .null 3 ++ [.call (.stopActor ⟨⟨4⟩, ""⟩)] ++ register "a" .null 4

theorem registry_agreement_renameRun :
    ∃ k d, ((context (.plain 1) "ctx").after renameRun).live k = some d ∧
      ((context (.plain 1) "ctx").after renameRun).getAddress "/root/usr/a" = d.address ∧
      d.address = ⟨k, "/root/usr/a"⟩ ∧
      ((context (.plain 1) "ctx").after renameRun).getActorByName "/root/usr/a" = some d.actor ∧
      ((context (.plain 1) "ctx").after renameRun).getActor
        (((context (.plain 1) "ctx").after renameRun).getAddress "/root/usr/a") = some d.actor :=
  (registry_agreement (Machine.reach_after renameRun) (by decide)).2.2.2.2.2 "/root/usr/a"
    (by decide)

example : ((context (.plain 1) "ctx").after renameRun).getAddress "/root/usr/a" =
    ⟨⟨5⟩, "/root/usr/a"⟩ := by decide

end Yaaf
