import Yaaf.Theory.Population

/-!
# Every Actor Is Stopped Once

`on_stop` is called from three places: the recursion of `stop_actor_impl`,
which a client or a supervisor sets off, and the loop of `context::stop` over
whatever is still registered. Each takes an actor out of `_actors` at the same
time, so the calls made so far and the entries still there add up.

`Tolled` is that sum for one state change, in the form of a ledger: under
every id, the calls recorded on the way, followed by the actor still there,
are the actor that was there before. It composes like the trace it is about.
For the recursion it needs one more fact. The target is found, then its
children are stopped, and only then is its own `on_stop` called; a child list
that led back to the target would call it twice. Child lists do not, because
they name later registrations only.

Along a run the ledger says that the calls for an id and the actor live under
it are the actors registered under it, in order. An insertion that takes an
id in use would drop an entry without a call. Ids come from a counter of 64
bits, so that takes as many calls of `add_actor` as the counter has values,
and after that many it happens.

## Main definitions

* `System.stopsOf`, `System.here`, `System.enrolled`: The sides of the ledger.
* `Tolled`: A state change that keeps it.
* `Tallied`: The ledger of a run.

## Theorems

* `stopActorImplSafety_tolled`: A stop calls `on_stop` once for each actor.
* `stopAll_tolled`: So does the final loop.
* `step_tallied`: The ledger is an invariant.
* `stopped_once`: Every registration is stopped once.
-/

namespace Yaaf

open Pruning Trace

variable {π : Type}

/-- The object whose `on_stop` an event is, if it was for the given id. -/
def Event.stopped? (k : IdT) : Event π → Option ActorPtr
  | .stopped j a => if j = k then some a else none
  | _ => none

@[simp] theorem stopped?_self (k : IdT) (a : ActorPtr) :
    (Event.stopped k a : Event π).stopped? k = some a :=
  if_pos rfl

@[simp] theorem stopped?_of_ne {j k : IdT} (h : k ≠ j) (a : ActorPtr) :
    (Event.stopped j a : Event π).stopped? k = none :=
  if_neg (Ne.symm h)

/-- The `on_stop` calls made for an id so far. -/
def System.stopsOf (s : System π) (k : IdT) : List ActorPtr :=
  s.trace.filterMap (Event.stopped? k)

/-- The actor live under an id, as a list of at most one. -/
def System.here (s : System π) (k : IdT) : List ActorPtr :=
  ((s.live k).map Description.actor).toList

/-- The actors registered under an id so far. -/
def System.enrolled (s : System π) (k : IdT) : List ActorPtr :=
  (s.registrations.filter fun r => r.descr.address.id = k).map fun r => r.descr.actor

/-- Whoever is gone had one `on_stop`, and nobody else had any. -/
def Tolled (s s' : System π) : Prop :=
  ∃ evs, s'.trace = s.trace ++ evs ∧
    ∀ k, evs.filterMap (Event.stopped? k) ++ s'.here k = s.here k

section Ledger

variable {cfg : Config} {s s' : System π}

theorem tolled_refl : Tolled s s :=
  ⟨[], by rw [List.append_nil], fun _ => rfl⟩

theorem tolled_trans {u : System π} (h : Tolled s s') (h' : Tolled s' u) : Tolled s u := by
  rcases h with ⟨evs, hevs, hsum⟩
  rcases h' with ⟨evs', hevs', hsum'⟩
  refine ⟨evs ++ evs', by rw [hevs', hevs, List.append_assoc], fun k => ?_⟩
  rw [List.filterMap_append, List.append_assoc, hsum', hsum]

theorem stopped?_of_enrols {ev : Event π} {k : IdT} (h : ev.enrols = false) :
    ev.stopped? k = none := by
  cases ev <;> first | rfl | exact absurd h Bool.noConfusion

theorem here_of_live (h : s'.live = s.live) (k : IdT) : s'.here k = s.here k := by
  unfold System.here
  rw [h]

/-- The last part of a stop, of an actor that is still there. -/
theorem stopSelf_tolled {addr : ActorAddress} {r : ActorStoppingReason} {d : Description}
    (hd : s.live addr.id = some d) : Tolled s (stopSelf cfg s addr r d) := by
  rcases tellParent_trace (s.onStop cfg addr.id d.actor) d addr r with ⟨told, htold, hkind⟩
  rcases stopSelf_live cfg s addr r d with ⟨hgone, hother⟩
  refine ⟨.stopped addr.id d.actor :: told, ?_, fun k => ?_⟩
  · simp only [stopSelf, htold]
    simp only [System.onStop, System.emit, System.setObj, List.append_assoc, List.cons_append,
      List.nil_append]
  · have hnil : told.filterMap (Event.stopped? k) = [] := by
      refine List.filterMap_eq_nil_iff.mpr fun ev hev => ?_
      rcases hkind ev hev with ⟨p, b, r, rfl⟩
      rfl
    unfold System.here
    by_cases hk : k = addr.id
    · subst hk
      rw [List.filterMap_cons_some (stopped?_self addr.id d.actor), hnil, hgone, hd]
      rfl
    · rw [List.filterMap_cons_none (stopped?_of_ne hk d.actor), hnil, hother k hk, List.nil_append]

/-- A stop of an actor rings for each that goes. -/
theorem composes_tolled {ks : List IdT} : Composes cfg (Grounded (π := π) ks) Tolled where
  keep _ _ hst hg := grounded_of_stops hst hg
  apart _ _ _ _ hg hd hc := not_under_child hg hd hc
  refl _ _ := tolled_refl
  trans _ _ _ _ _ _ h h' := tolled_trans h h'

/-- The recursion calls `on_stop` once for each actor it removes. -/
theorem stopActorImplSafety_tolled (hreg : Registered s) (hg : Graded s) {addr : ActorAddress}
    {r : ActorStoppingReason} (h : s.stopActorImplSafety cfg addr r = some s') : Tolled s s' :=
  stopActorImpl_rule composes_tolled (fun _ _ _ _ hd _ => stopSelf_tolled hd) _ addr.id s s'
    (grounded_of_registered hreg hg) h

/-- The loop of `context::stop`, before the maps are cleared. -/
theorem foldl_tolled (ks : List IdT) (s : System π) (hks : ks.Nodup) :
    ∃ evs, (ks.foldl (System.stopOne cfg) s).trace = s.trace ++ evs ∧
      ∀ k, evs.filterMap (Event.stopped? k) = if k ∈ ks then s.here k else [] := by
  induction ks generalizing s with
  | nil => exact ⟨[], by rw [List.foldl_nil, List.append_nil], fun k => by
      rw [if_neg List.not_mem_nil, List.filterMap_nil]⟩
  | cons j ks ih =>
      rw [List.nodup_cons] at hks
      rw [List.foldl_cons]
      cases hd : s.live j with
      | none =>
          rw [stopOne_none hd]
          rcases ih s hks.2 with ⟨evs, hevs, hsum⟩
          refine ⟨evs, hevs, fun k => ?_⟩
          rw [hsum]
          by_cases hk : k = j
          · have hnone : s.here k = [] := by
              unfold System.here
              rw [hk, hd]
              rfl
            rw [hnone, ite_self, ite_self]
          · simp only [List.mem_cons, hk, false_or]
      | some d =>
          rw [stopOne_some hd]
          -- One `on_stop` for `j`, and none further on: no key comes twice.
          rcases ih (s.onStop cfg j d.actor) hks.2 with ⟨evs, hevs, hsum⟩
          refine ⟨.stopped j d.actor :: evs, ?_, fun k => ?_⟩
          · rw [hevs]
            simp only [System.onStop, System.emit, System.setObj, List.append_assoc,
              List.cons_append, List.nil_append]
          · have hsame : (s.onStop cfg j d.actor).here k = s.here k := rfl
            by_cases hk : k = j
            · subst hk
              have hsome : s.here k = [d.actor] := by
                unfold System.here
                rw [hd]
                rfl
              rw [if_pos List.mem_cons_self, hsome,
                List.filterMap_cons_some (stopped?_self k d.actor), hsum, if_neg hks.1]
            · rw [List.filterMap_cons_none (stopped?_of_ne hk d.actor), hsum, hsame]
              simp only [List.mem_cons, hk, false_or]

/-- The final loop calls `on_stop` once for each actor still there. -/
theorem stopAll_tolled (s : System π) : ∃ evs, (s.stopAll cfg).trace = s.trace ++ evs ∧
    ∀ k, evs.filterMap (Event.stopped? k) = s.here k := by
  have hnodup : (cfg.order s.actors.keys).Nodup :=
    (cfg.order_perm _).nodup_iff.mpr s.actors.nodupKeys
  rcases @foldl_tolled π cfg (cfg.order s.actors.keys) s hnodup with ⟨evs, hevs, hsum⟩
  refine ⟨evs, hevs, fun k => ?_⟩
  rw [hsum]
  by_cases hk : k ∈ cfg.order s.actors.keys
  · rw [if_pos hk]
  · have hkeys : k ∉ s.actors := fun hmem =>
      hk ((cfg.order_perm _).mem_iff.mpr (AList.mem_keys.mp hmem))
    have hnone : s.here k = [] := by
      unfold System.here System.live
      rw [AList.lookup_eq_none.mpr hkeys]
      rfl
    rw [if_neg hk, hnone]

end Ledger

/-- Under every id, the calls made so far and the actor live there are the
    actors registered there. -/
def Tallied (s : System π) : Prop :=
  ∀ k, s.stopsOf k ++ s.here k = s.enrolled k

section Tally

variable {cfg : Config} {s s' : System π} {a : Action π}

theorem registration?_of_enrols {ev : Event π} (h : ev.enrols = false) :
    ev.registration? = none := by
  cases ev <;> first | rfl | exact absurd h Bool.noConfusion

/-- What the ledger reads, where nothing about the population has changed. -/
theorem samePopulation_ledger (h : SamePopulation s s') (k : IdT) :
    s'.stopsOf k = s.stopsOf k ∧ s'.here k = s.here k ∧ s'.enrolled k = s.enrolled k := by
  refine ⟨filterMap_of_grows _ (fun _ => stopped?_of_enrols) h.trace,
    here_of_live (samePopulation_live h) k, ?_⟩
  have hregs : s'.registrations = s.registrations :=
    filterMap_of_grows _ (fun _ => registration?_of_enrols) h.trace
  unfold System.enrolled
  rw [hregs]

theorem tallied_of_same (h : SamePopulation s s') (ht : Tallied s) : Tallied s' := by
  intro k
  rcases samePopulation_ledger h k with ⟨hstops, hhere, henrolled⟩
  rw [hstops, hhere, henrolled]
  exact ht k

/-- Calls that settle for whoever is gone keep the sum. -/
theorem tallied_of_calls {evs : List (Event π)} (hevs : s'.trace = s.trace ++ evs)
    (hregs : s'.registrations = s.registrations)
    (hsum : ∀ k, evs.filterMap (Event.stopped? k) ++ s'.here k = s.here k) (ht : Tallied s) :
    Tallied s' := by
  intro k
  have henrolled : s'.enrolled k = s.enrolled k := by
    unfold System.enrolled
    rw [hregs]
  unfold System.stopsOf
  rw [hevs, List.filterMap_append, List.append_assoc, hsum, henrolled]
  exact ht k

/-- An insertion under a free id adds to both sides. -/
theorem tallied_of_insert {id : IdT} {d : Description} (n : String) (hid : d.address.id = id)
    (hfree : s.live id = none) (ht : Tallied s) : Tallied (s.insertActor id d n) := by
  intro k
  have hstops : (s.insertActor id d n).stopsOf k = s.stopsOf k :=
    filterMap_of_grows _ (fun _ hev => hev) (grows_one rfl)
  -- The id was free, so one more is enrolled and one more is here.
  have henrolled : (s.insertActor id d n).enrolled k =
      s.enrolled k ++ if id = k then [d.actor] else [] := by
    unfold System.enrolled
    rw [insertActor_registrations, List.filter_append, List.map_append, ← hid]
    by_cases hk : d.address.id = k
    · simp only [hk, decide_true, List.filter_cons_of_pos, List.filter_nil, List.map_cons,
        List.map_nil, if_true]
    · simp only [hk, decide_false, Bool.false_eq_true, not_false_eq_true,
        List.filter_cons_of_neg, List.filter_nil, List.map_nil, if_false]
  have hhere : (s.insertActor id d n).here k = s.here k ++ if id = k then [d.actor] else [] := by
    unfold System.here
    rw [insertActor_live]
    by_cases hk : k = id
    · subst hk
      rw [if_pos rfl, if_pos rfl, hfree]
      rfl
    · rw [if_neg hk, if_neg (Ne.symm hk), List.append_nil, Option.map_map]
      congr 2
      funext p
      simp only [Function.comp]
      split <;> rfl
  rw [hstops, hhere, henrolled, ← List.append_assoc, ht k]

theorem step_tallied (hs : step cfg s a = some s') (ha : Agrees s) (hg : Graded s)
    (hfew : s.fewCalls) (h : Tallied s) : Tallied s' := by
  cases populationRule_of_step hs ha.registered with
  | kept hsame => exact tallied_of_same hsame h
  | insert id d n hx hins hd hsame =>
      have hid : d.address.id = id := by rw [hd.address]
      exact tallied_of_same hsame
        (tallied_of_insert n hid (inserting_fresh ha hfew hins).1 h)
  | stop addr r u hx ht hu hsame =>
      -- A stop tolls for whom it removes, the sweep for everybody left.
      rcases stopActorImplSafety_tolled ha.registered hg hu with ⟨evs, hevs, hsum⟩
      have hregs := stops_registrations (stopActorImplSafety_stops hu).1
      exact tallied_of_same hsame (tallied_of_calls hevs hregs hsum h)
  | clear hx hj hsame =>
      rcases @stopAll_tolled π cfg s with ⟨evs, hevs, hsum⟩
      refine tallied_of_same hsame (tallied_of_calls hevs ?_ (fun k => ?_) h)
      · have hregs := sweeps_registrations (stopAll_sweeps cfg s)
        exact hregs
      · have hnone : System.here { s.stopAll cfg with actors := ∅, idByName := ∅ } k = [] := by
          unfold System.here System.live
          rw [AList.lookup_empty]
          rfl
        rw [hnone, List.append_nil, hsum]

theorem reach_tallied {name : String} {C : System π → Action π → Prop}
    (h : (context cfg name).Reach C s) (hfew : s.fewCalls) : Tallied s := by
  have hall : Agrees s ∧ Graded s ∧ (s.fewCalls → Tallied s) := by
    refine always (fun s => Agrees s ∧ Graded s ∧ (s.fewCalls → Tallied s))
      ⟨⟨registered_constructed name, fun _ => ⟨rfl, rfl⟩, fun _ => List.nodup_nil⟩,
        fun k d c m m' hd => absurd hd (by simp [System.live, constructed]), fun _ k => ?_⟩
      (fun s r h => ⟨⟨registered_usrRoot r h.1.registered, h.1.numbered, h.1.unused⟩, h.2⟩)
      (fun s a s' hs h => ⟨step_agrees hs h.1, step_graded hs h.1.registered h.2.1,
        fun hfew' => ?_⟩) h
    · unfold System.here System.live
      rw [show (constructed (π := π) name).actors = ∅ from rfl, AList.lookup_empty]
      rfl
    · have hfew := fewCalls_of_step hs h.1.registered hfew'
      exact step_tallied hs h.1 h.2.1 hfew (h.2.2 hfew)
  exact hall.2.2 hfew

/-- One id, one registration. -/
theorem enrolled_singleton (ha : Agrees s) (hfew : s.fewCalls) {r : Registration}
    (hr : r ∈ s.registrations) : s.enrolled r.descr.address.id = [r.descr.actor] := by
  have hnodup : s.registrations.Nodup :=
    List.Nodup.of_map _ (List.nodup_append.mp (ha.unused hfew)).2.1
  have hfilter : (s.registrations.filter fun r' => r'.descr.address.id = r.descr.address.id) =
      s.registrations.filter fun r' => r' = r := by
    refine List.filter_congr fun r' hr' => decide_eq_decide.mpr ⟨fun h => ?_, fun h => by rw [h]⟩
    exact registration_of_id ha.unused hfew hr' hr h
  have hcount : s.registrations.count r = 1 := List.count_eq_one_of_mem hnodup hr
  unfold System.enrolled
  rw [hfilter, List.filter_eq, hcount]
  rfl

end Tally

/-- Every registration is stopped once. While `add_actor` was called fewer than
    `2 ^ 64 - 1` times, the actor of a registration has had one `on_stop` if it
    is gone and none if it is live; and after the loop that ends
    `context::stop`, every one of them has had exactly one. -/
theorem stopped_once {cfg : Config} {name : String} {s : System π}
    (h : (context cfg name).Reach Machine.free s) (hfew : s.calls.length < 2 ^ 64 - 1) :
    (∀ r ∈ s.registrations, s.stopsOf r.descr.address.id =
      if (s.live r.descr.address.id).isSome then [] else [r.descr.actor]) ∧
    ∀ s', step cfg s (.stop .sweep) = some s' →
      ∀ r ∈ s'.registrations, s'.stopsOf r.descr.address.id = [r.descr.actor] := by
  have hone : ∀ t : System π, (context cfg name).Reach Machine.free t → t.fewCalls →
      ∀ r ∈ t.registrations, t.stopsOf r.descr.address.id =
        if (t.live r.descr.address.id).isSome then [] else [r.descr.actor] := by
    intro t ht hfew r hr
    -- What was enrolled under an id was stopped or is here, and few enough calls
    -- mean that one object was enrolled.
    have hsum := reach_tallied ht hfew r.descr.address.id
    rw [enrolled_singleton (reach_agrees ht) hfew hr] at hsum
    unfold System.here at hsum
    cases hlive : t.live r.descr.address.id with
    | none =>
        rw [hlive] at hsum
        simpa only [Option.map_none, Option.toList_none, List.append_nil, Option.isSome_none,
          Bool.false_eq_true, if_false] using hsum
    | some d =>
        rw [hlive] at hsum
        have hlength := congrArg List.length hsum
        simp only [Option.map_some, Option.toList_some, List.length_append,
          List.length_singleton, Nat.add_eq_right] at hlength
        rw [List.length_eq_zero_iff.mp hlength, Option.isSome_some, if_pos rfl]
  refine ⟨hone s h hfew, fun s' hs r hr => ?_⟩
  have hreach : (context cfg name).Reach Machine.free s' :=
    Machine.Path.tail (.stop .sweep) h trivial hs
  unfold step at hs
  simp only [stopStep, Option.ite_none_right_eq_some, Option.some.injEq] at hs
  have hafter := hs.2.2
  have hcalls : s'.calls = s.calls := by
    have hsweep := sweeps_calls (stopAll_sweeps cfg s)
    rw [← hafter]
    exact hsweep
  have hgone : s'.live r.descr.address.id = none := by
    rw [← hafter]
    exact AList.lookup_empty _
  have hstops := hone s' hreach (by
    unfold System.fewCalls
    rw [hcalls]
    exact hfew) r hr
  rw [hgone] at hstops
  exact hstops

/-- The labels of a shutdown with the pools at rest, up to the final loop. -/
def shutdownRun : List (Action Nat) :=
  [.stop .begin, .stop .dropPosts, .stop .stopUserPool, .stop (.stopSysPool false), .stop .join]

/-- A parent, its child, and a shutdown that finds one of them stopped. -/
def onceRun : List (Action Nat) :=
  register "p" .null 3 ++ register "c" ⟨⟨4⟩, "/root/usr/p"⟩ 4 ++
    [.call (.stopActor ⟨⟨5⟩, ""⟩)] ++ shutdownRun

theorem stopped_once_onceRun :
    ((context (.plain 1) "ctx").after (onceRun ++ [.stop .sweep])).registrations.length = 5 ∧
      ∀ r ∈ ((context (.plain 1) "ctx").after (onceRun ++ [.stop .sweep])).registrations,
        ((context (.plain 1) "ctx").after (onceRun ++ [.stop .sweep])).stopsOf r.descr.address.id =
          [r.descr.actor] :=
  ⟨by decide,
    (@stopped_once Nat (.plain 1) "ctx" _ (Machine.reach_after onceRun) (by decide)).2 _ rfl⟩

section Wraparound

variable {cfg : Config} {name : String}

/-- The address the calls below give as the parent. -/
def usrAddress : ActorAddress := ⟨⟨2⟩, "/root/usr"⟩

/-- A call of `add_actor` whose `on_init` throws. -/
def lapse : List (Action Nat) :=
  [.call (.addActor "x" usrAddress 9), .add 0 .lookup, .add 0 (.init false)]

/-- What `n` such calls leave behind: the counter has moved on. -/
structure Lapsed (n : Nat) (s t : System Nat) : Prop where
  rest : t = { s with nextActorId := t.nextActorId, usrconts := t.usrconts, trace := t.trace }
  counter : t.nextActorId = s.nextActorId + UInt64.ofNat n
  trace : Grows (fun ev => ev.enrols = false) s.trace t.trace

theorem lapsed_one {s : System Nat} (hq : Quiescent s) (hlive : (s.live ⟨2⟩).isSome = true) :
    ∃ t, (context cfg name).run s lapse = some t ∧ Lapsed 1 s t := by
  rcases Option.isSome_iff_exists.mp hlive with ⟨p, hp⟩
  let d := s.describe s.newId "x" 9 (some (⟨2⟩, p))
  let c : AddCall := ⟨"x", 9, s.newId, .called usrAddress⟩
  let s1 : System Nat := { s.takeId "x" with adding := [c] }
  let s2 : System Nat := { s1 with
    usrconts := s.usrconts ++ [d.usrcont], adding := [{ c with stage := .built d }] }
  have h1 : step cfg s (.call (.addActor "x" usrAddress 9)) = some s1 := by
    refine (if_pos hq.fate).trans ?_
    simp only [contextCall, hq.adding, List.nil_append]
    rfl
  have h2 : step cfg s1 (.add 0 .lookup) = some s2 := by
    have hshare : s1.canShare = true := (quiescent_locks hq.worker hq.running).1
    have hlook : s1.actors.lookup usrAddress.id = some p := hp
    have hsome : usrAddress.empty = false := by decide
    refine (if_pos hq.fate).trans ?_
    simp only [addStep, s1, c, List.getElem?_cons_zero, hsome, Bool.false_eq_true, if_false]
    rw [if_pos hshare, hlook]
    rfl
  have h3 : step cfg s2 (.add 0 (.init false)) = some { s2 with adding := [] } := if_pos hq.fate
  refine ⟨{ s2 with adding := [] }, ?_, ?_, rfl, grows_one rfl⟩
  · simp only [lapse, Machine.run, context, h1, h2, h3]
  · rw [← hq.adding]
    rfl

theorem quiescent_of_lapsed {n : Nat} {s t : System Nat} (h : Lapsed n s t) (hq : Quiescent s) :
    Quiescent t := by
  rw [h.rest]
  exact ⟨hq.fate, hq.adding, hq.worker, hq.running, hq.shutdown⟩

/-- Any number of them, one after the other. -/
theorem lapsed_many (n : Nat) {s : System Nat} (hq : Quiescent s)
    (hlive : (s.live ⟨2⟩).isSome = true) :
    ∃ t, (context cfg name).Path Machine.free s t ∧ Lapsed n s t := by
  induction n with
  | zero => exact ⟨s, Machine.Path.refl s, rfl, (UInt64.add_zero _).symm, grows_refl⟩
  | succ n ih =>
      rcases ih with ⟨t, hpath, hrest, hcounter, htrace⟩
      have ht : Lapsed n s t := ⟨hrest, hcounter, htrace⟩
      have hlive' : (t.live ⟨2⟩).isSome = true := by
        rw [hrest]
        exact hlive
      rcases @lapsed_one cfg name _ (quiescent_of_lapsed ht hq) hlive' with
        ⟨u, hrun, hrest', hcounter', htrace'⟩
      refine ⟨u, Machine.path_trans hpath (Machine.path_of_run lapse t u hrun), ?_, ?_,
        grows_trans htrace htrace'⟩
      · rw [hrest', hrest]
      · rw [hcounter', hcounter, UInt64.add_assoc, ← UInt64.ofNat_add]

/-- A shutdown with the pools at rest gets as far as the final loop. -/
theorem shutdown_run {s : System Nat} (hq : Quiescent s) :
    (context cfg name).run s shutdownRun =
      some { s with shutdown := ⟨true, true, true, true, true⟩, passDue := false } := by
  have hfate := hq.fate
  have hworker := hq.worker
  have hrunning := hq.running
  have hshut := hq.shutdown
  simp only [shutdownRun, Machine.run, context, step, stopStep, System.passDone, hfate, hworker,
    hrunning, hshut, if_true, Bool.false_eq_true, if_false, List.isEmpty_nil, Bool.not_false,
    Bool.not_true, Bool.false_or, Bool.true_or, Bool.and_self]

/-- The events of an `add_actor` that nothing interrupts. -/
theorem addNow_trace (s : System Nat) (n : String) (parent : ActorAddress) (a : ActorPtr) :
    ∃ d : Description, d.actor = a ∧
      (∀ k, (s.addNow n parent a).live k = (s.insertActor s.newId d n).live k) ∧
      (s.addNow n parent a).trace = s.trace ++
        [.called s.newId n, .registered ⟨d, n, s.nextBox⟩, .startPosted s.nextBox] := by
  refine ⟨s.describe s.newId n a ((s.actors.lookup parent.id).map fun p => (parent.id, p)), rfl,
    fun k => ?_, ?_⟩
  · simp only [System.addNow, System.postStart, System.emit, System.live]
    rw [userPost_rest]
    rfl
  · simp only [System.addNow, System.postStart, System.emit]
    rw [userPost_rest]
    simp only [System.insertActor, System.takeId, List.append_assoc, List.cons_append,
      List.nil_append]

/-- With `a` registered under id four, the counter is brought back to four. -/
theorem lapsed_around (s0 : System Nat) (hq : Quiescent s0)
    (hlive : (s0.live ⟨2⟩).isSome = true) (hnext : s0.nextActorId = 5) :
    ∃ t, (context cfg name).Path Machine.free s0 t ∧ Quiescent t ∧ t.live = s0.live ∧
      t.newId = ⟨4⟩ ∧ Grows (fun ev => ev.enrols = false) s0.trace t.trace := by
  rcases @lapsed_many cfg name (2 ^ 64 - 1) _ hq hlive with ⟨t, hpath, ht⟩
  have hcounter : (5 : UInt64) + UInt64.ofNat (2 ^ 64 - 1) = 4 := by decide
  refine ⟨t, hpath, quiescent_of_lapsed ht hq, ?_, ?_, ht.trace⟩
  · rw [ht.rest]
    rfl
  · unfold System.newId
    rw [ht.counter, hnext, hcounter]

/-- A registration under the user root that nothing interrupts. -/
theorem register_usr {t : System Nat} (hq : Quiescent t) (hlive : (t.live ⟨2⟩).isSome = true)
    (n : String) (a : ActorPtr) :
    (context cfg name).Path Machine.free t (t.addNow n usrAddress a) := by
  rcases Option.isSome_iff_exists.mp hlive with ⟨p, hp⟩
  have hup : t.actors.lookup usrAddress.id = some p := hp
  exact Machine.path_of_run _ _ _ (register_run hq n usrAddress usrAddress a
    (some (usrAddress.id, p)) rfl (by rw [hup]; rfl) (Or.inr ⟨p, by decide, hup, rfl⟩))

/-- After as many calls as the counter has values, `b` takes the id of `a`, and
    `a` is never stopped. -/
theorem stopped_once_wrapped : ∃ (s s' : System Nat) (r : Registration),
    (context (.plain 1) "ctx").Reach Machine.free s ∧ s.adding = [] ∧
      step (.plain 1) s (.stop .sweep) = some s' ∧ r ∈ s'.registrations ∧
        .stopped r.descr.address.id r.descr.actor ∉ s'.trace := by
  let s0 : System Nat := (makeContext (.plain 1) "ctx").addNow "a" usrAddress 3
  have hfirst : (context (.plain 1) "ctx").Path Machine.free (makeContext (.plain 1) "ctx") s0 :=
    register_usr makeContext_quiescent (by decide) "a" 3
  rcases @lapsed_around (.plain 1) "ctx" s0
    (quiescent_addNow makeContext_quiescent "a" usrAddress 3) (by decide) rfl
    with ⟨t, hpath, hq, hlive, hnew, htrace⟩
  have hqw := quiescent_addNow hq "b" usrAddress 4
  rcases addNow_trace t "b" usrAddress 4 with ⟨d, hd, hwlive, hwtrace⟩
  let v : System Nat := { t.addNow "b" usrAddress 4 with
    shutdown := ⟨true, true, true, true, true⟩
    passDue := false }
  have hv : (context (.plain 1) "ctx").Reach Machine.free v :=
    Machine.path_trans (Machine.path_trans (Machine.path_trans hfirst hpath)
      (register_usr hq (by rw [hlive]; decide) "b" 4))
      (Machine.path_of_run _ _ _ (shutdown_run hqw))
  have hsweep : step (.plain 1) v (.stop .sweep) = some { v.stopAll (.plain 1) with
      actors := ∅, mboxes := ∅, idByName := ∅ } := by
    have hlocks : v.canExclude = true := (quiescent_locks hqw.worker hqw.running).2
    refine (if_pos hqw.fate).trans ?_
    simp only [stopStep, hlocks, Bool.and_true]
    rfl
  rcases (stopAll_sweeps (.plain 1) v).trace with ⟨evs, hevs, hall⟩
  have hsplit : (v.stopAll (.plain 1)).trace = t.trace ++
      [.called t.newId "b", .registered ⟨d, "b", t.nextBox⟩, .startPosted t.nextBox] ++ evs :=
    hevs.trans (congrArg (· ++ evs) hwtrace)
  -- Nobody live in the end is the object of `a`.
  have hothers : ∀ k e, v.live k = some e → e.actor ≠ 3 := by
    intro k e he
    have hins : (t.insertActor t.newId d "b").live k = some e := (hwlive k).symm.trans he
    rw [insertActor_live, hnew, hlive] at hins
    by_cases hk : k = ⟨4⟩
    · rw [if_pos hk, Option.some.injEq] at hins
      rw [← hins, hd]
      decide
    · rw [if_neg hk] at hins
      rcases Option.map_eq_some_iff.mp hins with ⟨q, hq, rfl⟩
      have hentries : s0.actors.entries.all fun kd => kd.1 = ⟨4⟩ ∨ kd.2.actor ≠ 3 := by decide
      have hne := List.all_eq_true.mp hentries ⟨k, q⟩ (AList.mem_lookup_iff.mp hq)
      have hactor : q.actor ≠ 3 := (of_decide_eq_true hne).resolve_left hk
      split <;> exact hactor
  have hnever : .stopped ⟨4⟩ 3 ∉ (v.stopAll (.plain 1)).trace := by
    rw [hsplit]
    intro hev
    rcases List.mem_append.mp hev with hev | hev
    · rcases List.mem_append.mp hev with hev | hev
      · rcases mem_or_of_grows htrace hev with hev | hev
        · have hnone : s0.trace.all fun ev => (ev.stopped? ⟨4⟩).isNone := by decide
          exact absurd (List.all_eq_true.mp hnone _ hev) Bool.noConfusion
        · exact absurd hev Bool.noConfusion
      · simp only [List.mem_cons, reduceCtorEq, List.not_mem_nil, or_self] at hev
    · rcases hall _ hev with ⟨k, e, he, heq⟩
      simp only [Event.stopped.injEq] at heq
      exact hothers k e he heq.2.symm
  let r : Registration := ⟨⟨3, ⟨⟨4⟩, "/root/usr/a"⟩, ⟨⟨⟨4⟩, "/root/usr/a"⟩, "ctx/#usercontext#4"⟩,
    "/root/usr/a", ⟨2⟩, []⟩, "a", 3⟩
  have hr : .registered r ∈ (v.stopAll (.plain 1)).trace := by
    rw [hsplit, List.append_assoc]
    exact List.mem_append_left _ (mem_of_grows htrace (List.mem_of_getElem? (i := 10) rfl))
  exact ⟨v, _, r, hv, hqw.adding, hsweep, List.mem_filterMap.mpr ⟨_, hr, rfl⟩, hnever⟩

end Wraparound

end Yaaf
