import Yaaf.Core.Connections
import Yaaf.Theory.Once

/-!
# Who Owns a Connection

A connection actor, its dial and the entry of `_network_connections` are tied
only by the parameters. Storing keeps an entry that is there, and erasing goes
by the parameters alone, so with two connection actors for one host and port
the second has no entry, and stopping it disconnects the dial of the first.

While nobody asks for a connection that has an entry already, every live
connection actor owns the entry of its parameters. Two live ones have different
parameters, because the entry can only be the dial of one of them, and a dial
belongs to one actor. So what the `on_stop` of one erases is its own.

## Main definitions

* `Owns`: Every live connection actor owns its entry.
* `Closing`: How far a stop has come with the connection actors it stops.
* `Live`, `Single`: An object is registered at the moment; at most once ever.
* `Recorded`: Each connection actor is registered once, and every stop of one has
  disconnected its dial.
* `Opened`, `Connected`: A request to connect, on its way and done.
* `Distinct`: The guard: no request for a connection that has an entry.
* `ConnectionsOwned`: What ownership promises.

## Theorems

* `onStops_closing`: Each stop of a connection actor disconnects its own dial.
* `addDial_over_entry`: What a request for an existing entry does.
* `stops_of_step`: What a step of the context stops.
* `follow_keeps`, `connected_keeps`: Both kinds of steps keep connections owned.
* `connections_owned`: So does a run under the guard.
-/

namespace Yaaf

open Pruning Trace Connections

variable {π : Type}

section Entries

variable {live : ActorPtr → Prop} {net net' : Connections} {done : List ActorPtr}

/-- Every live connection actor owns the entry of its parameters, no dial
    belongs to two actors, and an actor has disconnected no dial but its own. -/
structure Owns (live : ActorPtr → Prop) (net : Connections) : Prop where
  stored : ∀ a c, live a → net.actors.lookup a = some c → net.connections.lookup c.cp = some c.con
  dials : ∀ a a' c c', net.actors.lookup a = some c → net.actors.lookup a' = some c' →
    c.con = c'.con → a = a'
  made : ∀ a c, net.actors.lookup a = some c → c.con < net.nextDial
  own : ∀ a dial, (some a, dial) ∈ net.disconnects →
    ∃ c, net.actors.lookup a = some c ∧ c.con = dial

/-- Live connection actors have different parameters. -/
theorem actor_of_cp (h : Owns live net) {a a' : ActorPtr} {c c' : NetworkConActor}
    (ha : live a) (ha' : live a') (hc : net.actors.lookup a = some c)
    (hc' : net.actors.lookup a' = some c') (hcp : c.cp = c'.cp) : a = a' := by
  have hstored := h.stored a c ha hc
  rw [hcp, h.stored a' c' ha' hc', Option.some.injEq] at hstored
  exact h.dials a a' c c' hc hc' hstored.symm

/-- The stops of `done` are through: whoever is left still owns its entry, and
    whoever was stopped has given it up and disconnected its own dial. -/
structure Closing (live : ActorPtr → Prop) (net : Connections) (done : List ActorPtr)
    (net' : Connections) : Prop where
  actors : net'.actors = net.actors
  nextDial : net'.nextDial = net.nextDial
  kept : ∀ a c, live a → net.actors.lookup a = some c → a ∉ done →
    net'.connections.lookup c.cp = some c.con
  gone : ∀ a c, live a → net.actors.lookup a = some c → a ∈ done →
    net'.connections.lookup c.cp = none ∧ (some a, c.con) ∈ net'.disconnects
  record : ∃ ds, net'.disconnects = net.disconnects ++ ds ∧
    ∀ d ∈ ds, ∃ a c, d = (some a, c.con) ∧ net.actors.lookup a = some c

theorem closing_refl (h : Owns live net) : Closing live net [] net where
  actors := rfl
  nextDial := rfl
  kept a c ha hc _ := h.stored a c ha hc
  gone _ _ _ _ hmem := absurd hmem List.not_mem_nil
  record := ⟨[], (List.append_nil _).symm, fun _ hd => absurd hd List.not_mem_nil⟩

/-- One more `on_stop`. -/
theorem onStop_closing (howns : Owns live net) (h : Closing live net done net') {a : ActorPtr}
    (ha : live a) : Closing live net (a :: done) (net'.onStop a) := by
  unfold onStop
  rw [h.actors]
  cases hc : net.actors.lookup a with
  | none =>
      -- Not a connection actor.
      have hne : ∀ b c, net.actors.lookup b = some c → b ≠ a := by
        rintro b c hb rfl
        rw [hc] at hb
        exact absurd hb (by simp only [reduceCtorEq, not_false_eq_true])
      exact ⟨h.actors, h.nextDial,
        fun b c hb hbc hno => h.kept b c hb hbc fun hmem => hno (List.mem_cons_of_mem _ hmem),
        fun b c hb hbc hmem => h.gone b c hb hbc ((List.mem_cons.mp hmem).resolve_left (hne b c hbc)),
        h.record⟩
  | some c =>
      simp only
      unfold eraseConnections
      by_cases hdone : a ∈ done
      · -- A second stop of the same object finds nothing.
        rw [(h.gone a c ha hc hdone).1]
        refine ⟨h.actors, h.nextDial,
          fun b c' hb hbc hno => h.kept b c' hb hbc fun hmem => hno (List.mem_cons_of_mem _ hmem),
          fun b c' hb hbc hmem => h.gone b c' hb hbc ?_, h.record⟩
        rcases List.mem_cons.mp hmem with heq | htail
        · rw [heq]
          exact hdone
        · exact htail
      · rw [h.kept a c ha hc hdone]
        have hother : ∀ b c', live b → net.actors.lookup b = some c' → b ≠ a →
            (net'.connections.erase c.cp).lookup c'.cp = net'.connections.lookup c'.cp := by
          intro b c' hb hbc hne
          exact AList.lookup_erase_ne fun hcp => hne (actor_of_cp howns hb ha hbc hc hcp)
        refine ⟨h.actors, h.nextDial, fun b c' hb hbc hno => ?_, fun b c' hb hbc hmem => ?_, ?_⟩
        · have hne : b ≠ a := fun heq => hno (heq ▸ List.mem_cons_self)
          rw [hother b c' hb hbc hne]
          exact h.kept b c' hb hbc fun htail => hno (List.mem_cons_of_mem _ htail)
        · by_cases heq : b = a
          · rw [heq, hc, Option.some.injEq] at hbc
            rw [← hbc, heq]
            exact ⟨AList.lookup_erase _ _, List.mem_append_right _ (List.mem_singleton_self _)⟩
          · have htail := (List.mem_cons.mp hmem).resolve_left heq
            rw [hother b c' hb hbc heq]
            exact ⟨(h.gone b c' hb hbc htail).1, List.mem_append_left _ (h.gone b c' hb hbc htail).2⟩
        · rcases h.record with ⟨ds, hds, hall⟩
          refine ⟨ds ++ [(some a, c.con)], ?_, fun d hd => ?_⟩
          · simp only [hds, List.append_assoc]
          · rcases List.mem_append.mp hd with hold | hnew
            · exact hall d hold
            · exact ⟨a, c, List.mem_singleton.mp hnew, hc⟩

/-- Each stop of a connection actor disconnects its own dial and takes away its
    own entry. -/
theorem onStops_closing (howns : Owns live net) : ∀ (as done : List ActorPtr) (net' : Connections),
    Closing live net done net' → (∀ a ∈ as, live a) →
      Closing live net (as.reverse ++ done) (net'.onStops as) := by
  intro as
  induction as with
  | nil => exact fun done net' h _ => h
  | cons a as ih =>
      intro done net' h has
      rw [List.reverse_cons, List.append_assoc]
      exact ih (a :: done) (net'.onStop a) (onStop_closing howns h (has a List.mem_cons_self))
        fun b hb => has b (List.mem_cons_of_mem _ hb)

/-- After the stops, whoever is still live owns its entry. -/
theorem owns_of_closing (howns : Owns live net) (h : Closing live net done net')
    {live' : ActorPtr → Prop} (hlive : ∀ a c, live' a → net.actors.lookup a = some c →
      live a ∧ a ∉ done) : Owns live' net' where
  stored a c ha hc := by
    rw [h.actors] at hc
    exact h.kept a c (hlive a c ha hc).1 hc (hlive a c ha hc).2
  dials a a' c c' hc hc' := by
    rw [h.actors] at hc hc'
    exact howns.dials a a' c c' hc hc'
  made a c hc := by
    rw [h.actors] at hc
    rw [h.nextDial]
    exact howns.made a c hc
  own a dial hmem := by
    rcases h.record with ⟨ds, hds, hall⟩
    rw [hds] at hmem
    rw [h.actors]
    rcases List.mem_append.mp hmem with hold | hnew
    · exact howns.own a dial hold
    · rcases hall _ hnew with ⟨b, c, heq, hc⟩
      rw [Prod.mk.injEq, Option.some.injEq] at heq
      rw [heq.1, heq.2]
      exact ⟨c, hc, rfl⟩

/-- A new dial under parameters without an entry. -/
theorem addDial_owns (h : Owns live net) {cp : DialParams} {a : ActorPtr}
    (hnew : net.actors.lookup a = none) (hfree : net.connections.lookup cp = none)
    {live' : ActorPtr → Prop} (hlive : ∀ b, live' b → b ≠ a → live b) :
    Owns live' (net.addDial cp a) := by
  have hactor : ∀ b, (net.addDial cp a).actors.lookup b =
      if b = a then some ⟨net.nextDial, cp⟩ else net.actors.lookup b := by
    intro b
    by_cases hb : b = a
    · rw [if_pos hb, hb]
      exact AList.lookup_insert _
    · rw [if_neg hb]
      exact AList.lookup_insert_ne hb
  have hentries : (net.addDial cp a).connections = net.connections.insert cp net.nextDial := by
    unfold addDial
    rw [hfree]
  -- An actor is the new one, with the new dial, or an old one, with an older dial.
  have hcases : ∀ b c, (net.addDial cp a).actors.lookup b = some c →
      (b = a ∧ c = ⟨net.nextDial, cp⟩) ∨
        (b ≠ a ∧ net.actors.lookup b = some c ∧ c.con < net.nextDial) := by
    intro b c hc
    rw [hactor] at hc
    by_cases hb : b = a
    · rw [if_pos hb, Option.some.injEq] at hc
      exact Or.inl ⟨hb, hc.symm⟩
    · rw [if_neg hb] at hc
      exact Or.inr ⟨hb, hc, h.made b c hc⟩
  refine ⟨fun b c hb hc => ?_, fun b b' c c' hc hc' heq => ?_, fun b c hc => ?_,
    fun b dial hmem => ?_⟩
  · rw [hentries]
    rcases hcases b c hc with ⟨_, rfl⟩ | ⟨hne, hold, _⟩
    · exact AList.lookup_insert _
    · have hstored := h.stored b c (hlive b hb hne) hold
      rw [AList.lookup_insert_ne]
      · exact hstored
      · rintro rfl
        rw [hfree] at hstored
        exact absurd hstored (by simp only [reduceCtorEq, not_false_eq_true])
  · rcases hcases b c hc with ⟨rfl, rfl⟩ | ⟨_, hold, hlt⟩
    · rcases hcases b' c' hc' with ⟨rfl, _⟩ | ⟨_, _, hlt'⟩
      · rfl
      · exact absurd (heq ▸ hlt') (Nat.lt_irrefl _)
    · rcases hcases b' c' hc' with ⟨_, rfl⟩ | ⟨_, hold', _⟩
      · exact absurd (heq ▸ hlt) (Nat.lt_irrefl _)
      · exact h.dials b b' c c' hold hold' heq
  · change c.con < net.nextDial + 1
    rcases hcases b c hc with ⟨_, rfl⟩ | ⟨_, _, hlt⟩
    · exact Nat.lt_succ_self _
    · exact Nat.lt_succ_of_lt hlt
  · rcases h.own b dial hmem with ⟨c, hc, hdial⟩
    refine ⟨c, ?_, hdial⟩
    rw [hactor, if_neg]
    · exact hc
    · rintro rfl
      rw [hnew] at hc
      exact absurd hc (by simp only [reduceCtorEq, not_false_eq_true])

/-- The loop of `context::stop` over the connections changes nothing else. -/
theorem disconnectAll_owns (h : Owns live net) : Owns live net.disconnectAll where
  stored := h.stored
  dials := h.dials
  made := h.made
  own a dial hmem := by
    rcases List.mem_append.mp hmem with hold | hnew
    · exact h.own a dial hold
    · rcases List.mem_map.mp hnew with ⟨_, _, heq⟩
      exact absurd (congrArg Prod.fst heq) (by simp only [reduceCtorEq, not_false_eq_true])

/-- A request for a connection that has an entry leaves its actor without one:
    the entry keeps the dial it had. -/
theorem addDial_over_entry (h : Owns live net) {cp : DialParams} {a b : ActorPtr}
    {c : NetworkConActor} (hb : net.actors.lookup b = some c)
    (hentry : net.connections.lookup cp = some c.con) :
    (net.addDial cp a).actors.lookup a = some ⟨net.nextDial, cp⟩ ∧
      (net.addDial cp a).connections.lookup cp ≠ some net.nextDial := by
  refine ⟨AList.lookup_insert _, ?_⟩
  have hsame : (net.addDial cp a).connections = net.connections := by
    unfold addDial
    rw [hentry]
  rw [hsame, hentry, ne_eq, Option.some.injEq]
  exact Nat.ne_of_lt (h.made b c hb)

end Entries

/-- An actor object is registered at the moment. -/
def Live (s : System π) (b : ActorPtr) : Prop :=
  ∃ k d, s.live k = some d ∧ d.actor = b

/-- An object has been registered at most once. -/
def Single (s : System π) (b : ActorPtr) : Prop :=
  ∀ r ∈ s.registrations, ∀ r' ∈ s.registrations, r.descr.actor = b → r'.descr.actor = b → r = r'

section Stops

variable {cfg : Config} {s s' u : System π} {a : Action π}

theorem tolled_of_same (h : SamePopulation s s') : Tolled s s' := by
  rcases h.trace with ⟨evs, hevs, hquiet⟩
  refine ⟨evs, hevs, fun k => ?_⟩
  have hnil : evs.filterMap (Event.stopped? k) = [] :=
    List.filterMap_eq_nil_iff.mpr fun ev hev => stopped?_of_enrols (hquiet ev hev)
  rw [hnil, List.nil_append]
  exact here_of_live (samePopulation_live h) k

theorem samePopulation_registrations (h : SamePopulation s s') :
    s'.registrations = s.registrations :=
  filterMap_of_grows _ (fun _ => registration?_of_enrols) h.trace

/-- A step that inserts nobody stops whoever it removes and registers nobody. -/
theorem tolled_of_step (hs : step cfg s a = some s') (hreg : Registered s) (hg : Graded s) :
    (Tolled s s' ∧ s'.registrations = s.registrations) ∨
      ∃ id d n, s.inserting a = some (id, d) ∧ SamePopulation (s.insertActor id d n) s' := by
  cases populationRule_of_step hs hreg with
  | kept hsame => exact Or.inl ⟨tolled_of_same hsame, samePopulation_registrations hsame⟩
  | insert id d n hx hins hd hsame => exact Or.inr ⟨id, d, n, hins, hsame⟩
  | stop addr r u hx ht hu hsame =>
      refine Or.inl ⟨tolled_trans (stopActorImplSafety_tolled hreg hg hu) (tolled_of_same hsame), ?_⟩
      rw [samePopulation_registrations hsame]
      exact stops_registrations (stopActorImplSafety_stops hu).1
  | clear hx hj hsame =>
      rcases @stopAll_tolled π cfg s with ⟨evs, hevs, hsum⟩
      have hcleared : Tolled s { s.stopAll cfg with actors := ∅, idByName := ∅ } := by
        refine ⟨evs, hevs, fun k => ?_⟩
        have hnone : System.here { s.stopAll cfg with actors := ∅, idByName := ∅ } k = [] := by
          unfold System.here System.live
          rw [AList.lookup_empty]
          rfl
        rw [hnone, List.append_nil, hsum]
      refine Or.inl ⟨tolled_trans hcleared (tolled_of_same hsame), ?_⟩
      rw [samePopulation_registrations hsame]
      have hregs := sweeps_registrations (stopAll_sweeps cfg s)
      exact hregs

theorem stopsUntil_of_append {evs : List (Event π)} (h : s'.trace = s.trace ++ evs) :
    s.stopsUntil s' = evs.filterMap Event.stoppedActor := by
  unfold System.stopsUntil
  rw [h, List.drop_left]

theorem mem_stoppedActor {evs : List (Event π)} {b : ActorPtr} :
    b ∈ evs.filterMap Event.stoppedActor ↔ ∃ k, Event.stopped k b ∈ evs := by
  rw [List.mem_filterMap]
  constructor
  · rintro ⟨ev, hev, hb⟩
    cases ev with
    | stopped k b' =>
        rw [Event.stoppedActor, Option.some.injEq] at hb
        exact ⟨k, hb ▸ hev⟩
    | _ => exact absurd hb (by simp only [Event.stoppedActor, reduceCtorEq, not_false_eq_true])
  · rintro ⟨k, hk⟩
    exact ⟨.stopped k b, hk, rfl⟩

theorem mem_stopped? {evs : List (Event π)} {k : IdT} {b : ActorPtr} :
    b ∈ evs.filterMap (Event.stopped? k) ↔ Event.stopped k b ∈ evs := by
  rw [List.mem_filterMap]
  constructor
  · rintro ⟨ev, hev, hb⟩
    cases ev with
    | stopped j b' =>
        rw [Event.stopped?, Option.ite_none_right_eq_some, Option.some.injEq] at hb
        rw [← hb.1, ← hb.2]
        exact hev
    | _ => exact absurd hb (by simp only [Event.stopped?, reduceCtorEq, not_false_eq_true])
  · exact fun hk => ⟨.stopped k b, hk, stopped?_self k b⟩

theorem mem_here {k : IdT} {b : ActorPtr} :
    b ∈ s.here k ↔ ∃ d, s.live k = some d ∧ d.actor = b := by
  simp only [System.here, Option.mem_toList, Option.map_eq_some_iff]

/-- An object that was registered once is live under one id. -/
theorem id_of_single (hreg : Registered s) {b : ActorPtr} (hb : Single s b) {k j : IdT}
    {d e : Description} (hd : s.live k = some d) (he : s.live j = some e) (hdb : d.actor = b)
    (heb : e.actor = b) : k = j := by
  rcases hreg.entries k d hd with ⟨r, hr, _⟩
  rcases hreg.entries j e he with ⟨r', hr', _⟩
  have heq : r = r' := hb r hr.mem r' hr'.mem (by rw [hr.descr]; exact hdb)
    (by rw [hr'.descr]; exact heb)
  rw [← hr.id, ← hr'.id, heq]

/-- Whoever a change has stopped was live before, and whoever is live after it
    was live before and was not stopped, if it was registered once. -/
theorem stops_of_tolled (hreg : Registered s) (h : Tolled s s') :
    (∀ b ∈ s.stopsUntil s', Live s b) ∧
      ∀ b, Single s b → Live s' b → Live s b ∧ b ∉ s.stopsUntil s' := by
  rcases h with ⟨evs, hevs, hsum⟩
  rw [stopsUntil_of_append hevs]
  have hlive : ∀ k b, Event.stopped k b ∈ evs → ∃ d, s.live k = some d ∧ d.actor = b :=
    fun k b hb => mem_here.mp (hsum k ▸ List.mem_append_left _ (mem_stopped?.mpr hb))
  refine ⟨fun b hb => ?_, fun b hsingle hb => ?_⟩
  · rcases mem_stoppedActor.mp hb with ⟨k, hk⟩
    rcases hlive k b hk with ⟨d, hd, hdb⟩
    exact ⟨k, d, hd, hdb⟩
  · rcases hb with ⟨k, d, hd, hdb⟩
    have hafter : b ∈ s'.here k := mem_here.mpr ⟨d, hd, hdb⟩
    rcases mem_here.mp (hsum k ▸ List.mem_append_right _ hafter) with ⟨e, he, heb⟩
    refine ⟨⟨k, e, he, heb⟩, fun hstop => ?_⟩
    rcases mem_stoppedActor.mp hstop with ⟨j, hj⟩
    rcases hlive j b hj with ⟨e', he', heb'⟩
    -- The stop was under the id it is live under, so two actors were there.
    rw [id_of_single hreg hsingle he' he heb' heb] at hj
    have hone : (s.here k).length ≤ 1 := by
      unfold System.here
      cases s.live k <;> simp
    have htwo := congrArg List.length (hsum k)
    rw [List.length_append] at htwo
    have hpos := List.length_pos_of_mem (mem_stopped?.mpr hj)
    have hpos' := List.length_pos_of_mem hafter
    omega

theorem live_of_same (h : SamePopulation s s') {b : ActorPtr} (hb : Live s' b) : Live s b := by
  rcases hb with ⟨k, d, hd, hdb⟩
  rw [samePopulation_live h] at hd
  exact ⟨k, d, hd, hdb⟩

/-- Who is live after an insertion was live, or is the one inserted. -/
theorem live_of_insertActor {id : IdT} {d : Description} {n : String} {b : ActorPtr}
    (hb : Live (s.insertActor id d n) b) : b = d.actor ∨ Live s b := by
  rcases hb with ⟨k, e, he, heb⟩
  rw [insertActor_live] at he
  by_cases hk : k = id
  · rw [if_pos hk, Option.some.injEq] at he
    exact Or.inl (by rw [← heb, he])
  · -- The parent may have a child more, and has the object it had.
    rw [if_neg hk, Option.map_eq_some_iff] at he
    rcases he with ⟨e', he', heq⟩
    refine Or.inr ⟨k, e', he', ?_⟩
    rw [← heb, ← heq]
    split <;> rfl

theorem actor_of_inserting (hreg : Registered s) {id : IdT} {d : Description}
    (h : s.inserting a = some (id, d)) : ∃ c ∈ s.adding, c.actor = d.actor := by
  rcases ready_of_inserting h with ⟨i, st, c, _, hi, hc, _⟩
  have hmem := List.mem_of_getElem? hi
  have hdraft := (hreg.drafts c hmem).2
  rw [hc] at hdraft
  exact ⟨c, hmem, hdraft.actor.symm⟩

/-- What a step of the context stops was live. Whoever is live after it was
    live before and was not stopped, unless `add_actor` was on its way. -/
theorem stops_of_step (hs : step cfg s a = some s') (hreg : Registered s) (hg : Graded s) :
    (∀ b ∈ s.stopsUntil s', Live s b) ∧
      ∀ b, Single s b → (∀ c ∈ s.adding, c.actor ≠ b) → Live s' b →
        Live s b ∧ b ∉ s.stopsUntil s' := by
  rcases tolled_of_step hs hreg hg with ⟨htolled, _⟩ | ⟨id, d, n, hins, hsame⟩
  · rcases stops_of_tolled hreg htolled with ⟨hstops, hkept⟩
    exact ⟨hstops, fun b hsingle _ => hkept b hsingle⟩
  -- The step inserts an actor, and nobody is stopped by it.
  · have hnone : s.stopsUntil s' = [] := by
      rcases hsame.trace with ⟨evs, hevs, hquiet⟩
      have happend : s'.trace = s.trace ++ (.registered ⟨d, n, s.nextBox⟩ :: evs) := by
        rw [hevs]
        simp only [System.insertActor, List.append_assoc, List.cons_append, List.nil_append]
      rw [stopsUntil_of_append happend, List.filterMap_eq_nil_iff]
      intro ev hev
      rcases List.mem_cons.mp hev with rfl | htail
      · rfl
      · cases ev <;> first | rfl | exact absurd (hquiet _ htail) Bool.noConfusion
    rw [hnone]
    refine ⟨fun b hb => absurd hb List.not_mem_nil, fun b _ hadding hb => ⟨?_, List.not_mem_nil⟩⟩
    rcases live_of_insertActor (live_of_same hsame hb) with hnew | hold
    · rcases actor_of_inserting hreg hins with ⟨c, hc, hca⟩
      exact absurd (hca.trans hnew.symm) (hadding c hc)
    · exact hold

/-- A registration is new only if a call of `add_actor` was about to make it. -/
theorem registrations_of_step (hs : step cfg s a = some s') (hreg : Registered s)
    (hg : Graded s) : ∀ r ∈ s'.registrations,
      r ∈ s.registrations ∨ ∃ c ∈ s.adding, c.actor = r.descr.actor := by
  intro r hr
  rcases tolled_of_step hs hreg hg with ⟨_, hregs⟩ | ⟨id, d, n, hins, hsame⟩
  · exact Or.inl (hregs ▸ hr)
  · rw [samePopulation_registrations hsame, insertActor_registrations] at hr
    rcases List.mem_append.mp hr with hold | hnew
    · exact Or.inl hold
    · rw [List.mem_singleton.mp hnew]
      exact Or.inr (actor_of_inserting hreg hins)

theorem single_of_step (hs : step cfg s a = some s') (hreg : Registered s) (hg : Graded s)
    {b : ActorPtr} (hb : Single s b) (hadding : ∀ c ∈ s.adding, c.actor ≠ b) : Single s' b := by
  have hold : ∀ r ∈ s'.registrations, r.descr.actor = b → r ∈ s.registrations := by
    intro r hr hrb
    rcases registrations_of_step hs hreg hg r hr with hold | ⟨c, hc, hca⟩
    · exact hold
    · exact absurd (hca.trans hrb) (hadding c hc)
  intro r hr r' hr' hrb hrb'
  exact hb r (hold r hr hrb) r' (hold r' hr' hrb') hrb hrb'

/-- A call of `add_actor` is in progress because it was, or because it was
    made just now. -/
theorem adding_of_step (hs : step cfg s a = some s') : ∀ c' ∈ s'.adding,
    (∃ c ∈ s.adding, c.actor = c'.actor) ∨ a.registers = some c'.actor := by
  have hkept : ∀ {u : System π}, u.adding = s.adding → ∀ c' ∈ u.adding,
      (∃ c ∈ s.adding, c.actor = c'.actor) ∨ a.registers = some c'.actor := by
    intro u hu c' hc'
    exact Or.inl ⟨c', hu ▸ hc', rfl⟩
  -- A call goes on with the object it was made with.
  have hset : ∀ {i : Nat} {c e : AddCall}, s.adding[i]? = some c → e.actor = c.actor →
      ∀ c' ∈ s.adding.set i e,
        (∃ c ∈ s.adding, c.actor = c'.actor) ∨ a.registers = some c'.actor := by
    intro i c e hi he c' hc'
    rcases List.mem_or_eq_of_mem_set hc' with hold | rfl
    · exact Or.inl ⟨c', hold, rfl⟩
    · exact Or.inl ⟨c, List.mem_of_getElem? hi, he.symm⟩
  have hcall : ∀ {c : ContextCall π} {u : System π}, CallRule cfg s c u →
      (∀ n parent b, c = .addActor n parent b → a.registers = some b) → ∀ c' ∈ u.adding,
        (∃ c ∈ s.adding, c.actor = c'.actor) ∨ a.registers = some c'.actor := by
    intro c u hrule hadd
    cases hrule with
    | addActor n parent cur b hcur =>
        intro c' hc'
        rcases List.mem_append.mp hc' with hold | hnew
        · exact Or.inl ⟨c', hold, rfl⟩
        · rw [List.mem_singleton.mp hnew]
          exact Or.inr (hadd n parent b rfl)
    | stop addr u hx hu => exact hkept (by rw [hu.rest])
    | _ => exact hkept rfl
  cases (stepRule_of_step hs).2 with
  | call c s' h =>
      refine hcall h ?_
      rintro n parent b rfl
      rfl
  | userCall uc uc' c s' hc h =>
      refine hcall h ?_
      rintro n parent b rfl
      cases uc' <;> simp only [UserContext.forward, Option.ite_none_left_eq_some, Option.some.injEq,
        ContextCall.addActor.injEq, reduceCtorEq, and_false] at hc
      rw [← hc.2.2.2]
      rfl
  | userNothing => exact hkept rfl
  | add i st c s' hi h =>
      cases h with
      | crash => exact hkept rfl
      | lookup | initReturn | insert => exact hset hi rfl
      | initThrow | post =>
          exact fun c' hc' => Or.inl ⟨c', List.mem_of_mem_eraseIdx hc', rfl⟩
  | pick => exact hkept rfl
  | task i st s' h => exact hkept (by rw [taskRule_rest h])
  | worker st s' h => exact hkept (by rw [workerRule_rest h])
  | stop st s' h => exact hkept (by rw [stopRule_rest h])

/-- An `on_stop` on record is an old one or one of this step. -/
theorem stopped_of_step (hs : step cfg s a = some s') (hreg : Registered s) {k : IdT}
    {b : ActorPtr} (h : Event.stopped k b ∈ s'.trace) :
    Event.stopped k b ∈ s.trace ∨ b ∈ s.stopsUntil s' := by
  rcases step_grows hs hreg with ⟨evs, hevs, _⟩
  rw [hevs] at h
  rcases List.mem_append.mp h with hold | hnew
  · exact Or.inl hold
  · rw [stopsUntil_of_append hevs]
    exact Or.inr (mem_stoppedActor.mpr ⟨k, hnew⟩)

theorem registration_of_live (hreg : Registered s) {b : ActorPtr} (h : Live s b) :
    ∃ r ∈ s.registrations, r.descr.actor = b := by
  rcases h with ⟨k, d, hd, hdb⟩
  rcases hreg.entries k d hd with ⟨r, hr, _⟩
  exact ⟨r, hr.mem, by rw [hr.descr]; exact hdb⟩

end Stops

/-- The framework registers a connection actor once, and every stop of one has
    disconnected its dial. -/
structure Recorded (s : System π) (net : Connections) : Prop where
  adding : ∀ c ∈ s.adding, net.actors.lookup c.actor = none
  once : ∀ b c, net.actors.lookup b = some c → Single s b
  known : ∀ k b, Event.stopped k b ∈ s.trace → ∃ r ∈ s.registrations, r.descr.actor = b
  told : ∀ k b c, Event.stopped k b ∈ s.trace → net.actors.lookup b = some c →
    (some b, c.con) ∈ net.disconnects

section Follow

variable {cfg : Config} {s s' : System π} {a : Action π} {net : Connections}

/-- The effect on the connections of the stops in a step of the context. -/
theorem follow_closing (hs : step cfg s a = some s') (hreg : Registered s) (hg : Graded s)
    (h : Owns (Live s) net) : ∃ net₀, Owns (Live s) net₀ ∧ net₀.actors = net.actors ∧
      (∀ d ∈ net.disconnects, d ∈ net₀.disconnects) ∧
      Closing (Live s) net₀ ((s.stopsUntil s').reverse ++ []) (net.follow s a s') := by
  have hall : ∀ net₀, Owns (Live s) net₀ →
      Closing (Live s) net₀ ((s.stopsUntil s').reverse ++ []) (net₀.onStops (s.stopsUntil s')) :=
    fun net₀ h₀ => onStops_closing h₀ _ [] net₀ (closing_refl h₀) (stops_of_step hs hreg hg).1
  unfold follow
  by_cases ha : a.stopsNetwork = true
  · rw [if_pos ha]
    exact ⟨net.disconnectAll, disconnectAll_owns h, rfl, fun d hd => List.mem_append_left _ hd,
      hall _ (disconnectAll_owns h)⟩
  · rw [if_neg ha]
    exact ⟨net, h, rfl, fun d hd => hd, hall _ h⟩

/-- A step of the context keeps connections with their owners. -/
theorem follow_keeps (hs : step cfg s a = some s') (hreg : Registered s) (hg : Graded s)
    (hnot : (a.registers.bind net.actors.lookup).isSome = false) (h : Owns (Live s) net)
    (hrec : Recorded s net) :
    Owns (Live s') (net.follow s a s') ∧ Recorded s' (net.follow s a s') := by
  rcases follow_closing hs hreg hg h with ⟨net₀, h₀, hactors, hmore, hclosing⟩
  have hactors' : (net.follow s a s').actors = net.actors := hclosing.actors.trans hactors
  -- Nobody is about to register a connection actor again.
  have hfree : ∀ b c, net.actors.lookup b = some c → ∀ e ∈ s.adding, e.actor ≠ b := by
    rintro b c hc e he rfl
    rw [hrec.adding e he] at hc
    exact absurd hc (by simp only [reduceCtorEq, not_false_eq_true])
  refine ⟨owns_of_closing h₀ hclosing fun b c hb hc => ?_, ⟨fun c hc => ?_, fun b c hc => ?_,
    fun k b hk => ?_, fun k b c hk hc => ?_⟩⟩
  · rw [hactors] at hc
    rcases (stops_of_step hs hreg hg).2 b (hrec.once b c hc) (hfree b c hc) hb with ⟨hlive, hnone⟩
    refine ⟨hlive, fun hmem => hnone ?_⟩
    rw [List.append_nil] at hmem
    exact List.mem_reverse.mp hmem
  · rw [hactors']
    rcases adding_of_step hs c hc with ⟨e, he, heq⟩ | hregs
    · rw [← heq]
      exact hrec.adding e he
    · rw [hregs, Option.bind_some, Option.isSome_eq_false_iff, Option.isNone_iff_eq_none] at hnot
      exact hnot
  · rw [hactors'] at hc
    exact single_of_step hs hreg hg (hrec.once b c hc) (hfree b c hc)
  · have hold : ∃ r ∈ s.registrations, r.descr.actor = b := by
      rcases stopped_of_step hs hreg hk with hold | hnew
      · exact hrec.known k b hold
      · exact registration_of_live hreg ((stops_of_step hs hreg hg).1 b hnew)
    -- The registration is on record from here on.
    rcases hold with ⟨r, hr, hrb⟩
    exact ⟨r, step_registrations hs hreg r hr, hrb⟩
  · rw [hactors'] at hc
    rcases stopped_of_step hs hreg hk with hold | hnew
    · rcases hclosing.record with ⟨ds, hds, _⟩
      rw [hds]
      exact List.mem_append_left _ (hmore _ (hrec.told k b c hold hc))
    · have hlive := (stops_of_step hs hreg hg).1 b hnew
      rw [← hactors] at hc
      refine (hclosing.gone b c hlive hc ?_).2
      rw [List.append_nil]
      exact List.mem_reverse.mpr hnew

/-- The first step of `context::stop` disconnects every live connection. -/
theorem begin_disconnects (hs : step cfg s (.stop .begin) = some s') (hreg : Registered s)
    (hg : Graded s) (h : Owns (Live s) net) {b : ActorPtr} {c : NetworkConActor} (hb : Live s b)
    (hc : net.actors.lookup b = some c) :
    (none, c.con) ∈ (net.follow s (.stop .begin) s').disconnects := by
  have hentry : (none, c.con) ∈ net.disconnectAll.disconnects := by
    refine List.mem_append_right _ (List.mem_map.mpr ⟨⟨c.cp, c.con⟩, ?_, rfl⟩)
    exact AList.mem_lookup_iff.mp (h.stored b c hb hc)
  have hclosing := onStops_closing (disconnectAll_owns h) _ [] net.disconnectAll
    (closing_refl (disconnectAll_owns h)) (stops_of_step hs hreg hg).1
  rcases hclosing.record with ⟨ds, hds, _⟩
  have hfollow : net.follow s (.stop .begin) s' = net.disconnectAll.onStops (s.stopsUntil s') :=
    rfl
  rw [hfollow, hds]
  exact List.mem_append_left _ hentry

end Follow

section Request

variable {cfg : Config} {name : String} {s s' u : System π} {a : ActorPtr} {cp : DialParams}
  {l : List AddCall} {c : AddCall}

theorem set_newest (l : List AddCall) (c c' : AddCall) : (l ++ [c]).set l.length c' = l ++ [c'] := by
  rw [List.set_append_right _ _ (Nat.le_refl _), Nat.sub_self, List.set_cons_zero]

theorem eraseIdx_newest (l : List AddCall) (c : AddCall) : (l ++ [c]).eraseIdx l.length = l := by
  rw [List.eraseIdx_append_of_length_le (Nat.le_refl _), Nat.sub_self, List.eraseIdx_cons_zero,
    List.append_nil]

/-- The newest call of `add_actor` looks its parent up. -/
theorem lookup_newest (hl : s.adding = l ++ [c])
    (hs : step cfg s (.add l.length .lookup) = some s') : SamePopulation s s' ∧
      (s' = s.crash ∨ ∃ d, d.actor = c.actor ∧ s'.adding = l ++ [{ c with stage := .built d }]) := by
  have hs := (Option.ite_none_right_eq_some.mp hs).2
  rcases addRule_of_step hs with ⟨e, hi, hrule⟩
  have hnewest := hi
  rw [hl, List.getElem?_concat_length, Option.some.injEq] at hnewest
  subst hnewest
  simp only [addStep, hi] at hs
  cases hrule with
  | crash => exact ⟨⟨rfl, rfl, grows_refl⟩, Or.inl rfl⟩
  | lookup parent up d hc hd hup =>
      refine ⟨⟨rfl, rfl, grows_refl⟩, Or.inr ⟨d, by rw [hd]; rfl, ?_⟩⟩
      simp only [hl, set_newest]
  | _ => simp_all only [reduceCtorEq]

/-- Its `on_init` returns. -/
theorem init_newest (hl : s.adding = l ++ [c])
    (hs : step cfg s (.add l.length (.init true)) = some s') :
    SamePopulation s s' ∧
      ∃ d, c.stage = .built d ∧ s'.adding = l ++ [{ c with stage := .ready d }] := by
  have hs := (Option.ite_none_right_eq_some.mp hs).2
  simp only [addStep, hl, List.getElem?_concat_length] at hs
  cases hc : c.stage <;> rw [hc] at hs <;> simp only [reduceCtorEq] at hs
  simp only [if_true, Option.some.injEq, set_newest] at hs
  rw [← hs]
  exact ⟨⟨rfl, rfl, grows_refl⟩, _, rfl, rfl⟩

/-- It inserts its actor. -/
theorem insert_newest (hl : s.adding = l ++ [c])
    (hs : step cfg s (.add l.length .insert) = some s') : ∃ d, c.stage = .ready d ∧
      SamePopulation (s.insertActor c.newId d c.actorName) s' ∧
        s'.adding = l ++ [{ c with stage := .inserted s.nextBox }] := by
  have hs := (Option.ite_none_right_eq_some.mp hs).2
  simp only [addStep, hl, List.getElem?_concat_length] at hs
  cases hc : c.stage <;> rw [hc] at hs <;> simp only [reduceCtorEq] at hs
  simp only [Option.ite_none_right_eq_some, Option.some.injEq, set_newest] at hs
  rw [← hs.2]
  exact ⟨_, rfl, ⟨rfl, rfl, grows_refl⟩, rfl⟩

/-- It posts `on_start` and is done. -/
theorem post_newest (hl : s.adding = l ++ [c])
    (hs : step cfg s (.add l.length .post) = some s') :
    SamePopulation s s' ∧ s'.adding = l := by
  have hs := (Option.ite_none_right_eq_some.mp hs).2
  simp only [addStep, hl, List.getElem?_concat_length] at hs
  cases hc : c.stage <;> rw [hc] at hs <;> simp only [reduceCtorEq] at hs
  simp only [Option.some.injEq, eraseIdx_newest] at hs
  rw [← hs, System.postStart, userPost_rest]
  exact ⟨⟨rfl, rfl, grows_one rfl⟩, rfl⟩

/-- The exchange of a connection is created first. -/
theorem create_population {owner : ActorAddress} {n : String}
    (hs : step cfg s (.call (.createExchange owner n)) = some s') :
    SamePopulation s s' ∧ s'.adding = s.adding := by
  cases (stepRule_of_step hs).2 with
  | call c s' h =>
      cases h with
      | nothing | crash | create => exact ⟨⟨rfl, rfl, grows_refl⟩, rfl⟩

/-- `add_actor` takes an id and is in progress. -/
theorem call_newest {n : String} {parent : ActorAddress}
    (hs : step cfg s (.call (.addActor n parent a)) = some s') : SamePopulation s s' ∧
      ∃ c, c.actor = a ∧ s'.adding = s.adding ++ [c] := by
  have hs := (Option.ite_none_right_eq_some.mp hs).2
  simp only [contextCall, Option.some.injEq] at hs
  rw [← hs]
  exact ⟨⟨rfl, rfl, grows_one rfl⟩, _, rfl, rfl⟩

/-- A request up to the parent lookup: its call of `add_actor` is in progress,
    and nothing the population is about has changed. -/
structure Opened (s : System π) (a : ActorPtr) (u : System π) : Prop where
  same : SamePopulation s u
  newest : ∃ c, c.actor = a ∧ u.adding = s.adding ++ [c] ∧
    (u.fate = .running → ∃ d, c.stage = .built d ∧ d.actor = a)

theorem samePopulation_trans (h : SamePopulation s u) (h' : SamePopulation u s') :
    SamePopulation s s' :=
  ⟨h'.actors.trans h.actors, h'.names.trans h.names, grows_trans h.trace h'.trace⟩

theorem opened_of_run (hrun : (context cfg name).run s (addConnectionCalls s cp a).1 = some u) :
    Opened s a u := by
  rcases Machine.run_cons hrun with ⟨s1, h1, hrun⟩
  rcases Machine.run_cons hrun with ⟨s2, h2, hrun⟩
  rcases Machine.run_cons hrun with ⟨s3, h3, hrun⟩
  rw [Machine.run, Option.some.injEq] at hrun
  subst hrun
  rcases create_population h1 with ⟨hsame1, hadding1⟩
  rcases call_newest h2 with ⟨hsame2, c, hc, hadding2⟩
  rw [hadding1] at hadding2
  rcases @lookup_newest _ cfg _ _ _ _ hadding2 h3 with ⟨hsame3, hcase⟩
  refine ⟨samePopulation_trans hsame1 (samePopulation_trans hsame2 hsame3), ?_⟩
  rcases hcase with hcrash | ⟨d, hd, hadding3⟩
  · rw [hcrash]
    exact ⟨c, hc, hadding2, fun hfate => absurd hfate (by
      simp only [System.crash, reduceCtorEq, not_false_eq_true])⟩
  · exact ⟨{ c with stage := .built d }, hc, hadding3, fun _ => ⟨d, rfl, hd.trans hc⟩⟩

/-- A request that went through: one more registration, and nobody stopped. -/
structure Connected (s : System π) (a : ActorPtr) (s' : System π) : Prop where
  adding : s'.adding = s.adding
  live : ∀ b, Live s' b → b = a ∨ Live s b
  registered : ∃ r, r.descr.actor = a ∧ s'.registrations = s.registrations ++ [r]
  stops : ∀ k b, Event.stopped k b ∈ s'.trace → Event.stopped k b ∈ s.trace

theorem stopped_of_same (h : SamePopulation s s') {k : IdT} {b : ActorPtr}
    (hk : Event.stopped k b ∈ s'.trace) : Event.stopped k b ∈ s.trace := by
  rcases h.trace with ⟨evs, hevs, hquiet⟩
  rw [hevs] at hk
  rcases List.mem_append.mp hk with hold | hnew
  · exact hold
  · exact absurd (hquiet _ hnew) Bool.noConfusion

theorem connected_of_run (hopened : Opened s a u) (hrunning : u.fate = .running)
    (hrun : (context cfg name).run u (addConnectionCalls s cp a).2 = some s') :
    Connected s a s' := by
  rcases hopened.newest with ⟨c, hc, hadding, hstage⟩
  rcases hstage hrunning with ⟨d, hbuilt, hd⟩
  rcases Machine.run_cons hrun with ⟨u1, h1, hrun⟩
  rcases Machine.run_cons hrun with ⟨u2, h2, hrun⟩
  rcases Machine.run_cons hrun with ⟨u3, h3, hrun⟩
  rw [Machine.run, Option.some.injEq] at hrun
  subst hrun
  rcases @init_newest _ cfg _ _ _ _ hadding h1 with ⟨hsame1, d1, hd1, hadding1⟩
  rw [hbuilt, AddStage.built.injEq] at hd1
  subst hd1
  rcases @insert_newest _ cfg _ _ _ _ hadding1 h2 with ⟨d2, hd2, hsame2, hadding2⟩
  simp only [AddStage.ready.injEq] at hd2
  subst hd2
  rcases @post_newest _ cfg _ _ _ _ hadding2 h3 with ⟨hsame3, hadding3⟩
  -- Only the middle one of the three steps changes who is there.
  have hafter := samePopulation_trans hsame2 hsame3
  have hbefore := samePopulation_trans hopened.same hsame1
  refine ⟨hadding3, fun b hb => ?_, ?_, fun k b hk => ?_⟩
  · rcases live_of_insertActor (live_of_same hafter hb) with hnew | hold
    · exact Or.inl (hnew.trans hd)
    · exact Or.inr (live_of_same hbefore hold)
  · refine ⟨⟨d, c.actorName, u1.nextBox⟩, hd, ?_⟩
    rw [samePopulation_registrations hafter, insertActor_registrations,
      samePopulation_registrations hbefore]
  · have hmid := stopped_of_same hafter hk
    rcases List.mem_append.mp hmid with hold | hnew
    · exact stopped_of_same hbefore hold
    · exact absurd (List.mem_singleton.mp hnew) (by simp only [reduceCtorEq, not_false_eq_true])

end Request

section Owned

variable {cfg : Config} {name : String} {s s' u : System π} {a : ActorPtr} {cp : DialParams}
  {net : Connections} {p q : System π × Connections}

theorem unseen_of_newObject (h : s.newObject a = true) :
    (∀ c ∈ s.adding, c.actor ≠ a) ∧ ∀ r ∈ s.registrations, r.descr.actor ≠ a := by
  unfold System.newObject at h
  rw [Bool.and_eq_true, List.all_eq_true, List.all_eq_true] at h
  refine ⟨fun c hc => bne_iff_ne.mp (h.1 c hc), fun r hr => ?_⟩
  rcases List.mem_filterMap.mp hr with ⟨ev, hev, hevr⟩
  cases ev with
  | registered r' =>
      rw [Event.registration?, Option.some.injEq] at hevr
      rw [← hevr]
      exact bne_iff_ne.mp (h.2 _ hev)
  | _ => exact absurd hevr (by simp only [Event.registration?, reduceCtorEq, not_false_eq_true])

/-- A request that ended in the parent lookup has changed nothing. -/
theorem opened_keeps (hopened : Opened s a u) (hnew : net.actors.lookup a = none)
    (h : Owns (Live s) net) (hrec : Recorded s net) : Owns (Live u) net ∧ Recorded u net := by
  have hregs := samePopulation_registrations hopened.same
  refine ⟨⟨fun b c hb => h.stored b c (live_of_same hopened.same hb), h.dials, h.made, h.own⟩,
    ⟨fun c hc => ?_, fun b c hc => ?_, fun k b hk => ?_, fun k b c hk => ?_⟩⟩
  · rcases hopened.newest with ⟨c', hc', hadding, _⟩
    rw [hadding] at hc
    rcases List.mem_append.mp hc with hold | hlast
    · exact hrec.adding c hold
    · rw [List.mem_singleton.mp hlast, hc']
      exact hnew
  · unfold Single
    rw [hregs]
    exact hrec.once b c hc
  · rw [hregs]
    exact hrec.known k b (stopped_of_same hopened.same hk)
  · exact hrec.told k b c (stopped_of_same hopened.same hk)

/-- A request that went through has stored a dial of its own, if there was no
    entry. -/
theorem connected_keeps (hconnected : Connected s a s') (hobj : s.newObject a = true)
    (hnew : net.actors.lookup a = none) (hfree : net.connections.lookup cp = none)
    (h : Owns (Live s) net) (hrec : Recorded s net) :
    Owns (Live s') (net.addDial cp a) ∧ Recorded s' (net.addDial cp a) := by
  rcases unseen_of_newObject hobj with ⟨hadding, hregs⟩
  rcases hconnected.registered with ⟨r₀, hr₀, hregs'⟩
  have hother : ∀ b, b ≠ a → (net.addDial cp a).actors.lookup b = net.actors.lookup b :=
    fun b hb => AList.lookup_insert_ne hb
  refine ⟨addDial_owns h hnew hfree fun b hb hne => (hconnected.live b hb).resolve_left hne,
    ⟨fun c hc => ?_, fun b c hc => ?_, fun k b hk => ?_, fun k b c hk hc => ?_⟩⟩
  · rw [hconnected.adding] at hc
    rw [hother c.actor (hadding c hc)]
    exact hrec.adding c hc
  · unfold Single
    rw [hregs']
    intro r hr r' hr' hrb hrb'
    -- Either both are the new registration or both are old.
    by_cases hb : b = a
    · have hlast : ∀ x ∈ s.registrations ++ [r₀], x.descr.actor = b → x = r₀ := by
        intro x hx hxb
        rcases List.mem_append.mp hx with hold | hlast
        · exact absurd (hxb.trans hb) (hregs x hold)
        · exact List.mem_singleton.mp hlast
      rw [hlast r hr hrb, hlast r' hr' hrb']
    · have hold : ∀ x ∈ s.registrations ++ [r₀], x.descr.actor = b → x ∈ s.registrations := by
        intro x hx hxb
        rcases List.mem_append.mp hx with hold | hlast
        · exact hold
        · rw [List.mem_singleton.mp hlast, hr₀] at hxb
          exact absurd hxb.symm hb
      rw [hother b hb] at hc
      exact hrec.once b c hc r (hold r hr hrb) r' (hold r' hr' hrb') hrb hrb'
  · rcases hrec.known k b (hconnected.stops k b hk) with ⟨r, hr, hrb⟩
    rw [hregs']
    exact ⟨r, List.mem_append_left _ hr, hrb⟩
  · have hold := hconnected.stops k b hk
    rcases hrec.known k b hold with ⟨r, hr, hrb⟩
    have hb : b ≠ a := fun heq => hregs r hr (hrb.trans heq)
    rw [hother b hb] at hc
    exact hrec.told k b c hold hc

/-- No request is for a connection that has an entry. -/
def Distinct (p : System π × Connections) : NetAction π → Prop
  | .ctx _ => True
  | .addConnectionTo cp _ => p.2.connections.lookup cp = none

instance (p : System π × Connections) (a : NetAction π) : Decidable (Distinct p a) := by
  cases a <;> unfold Distinct <;> infer_instance

/-- What a run keeps: the context agrees with its registrations, and every live
    connection actor owns its entry. -/
structure Kept (p : System π × Connections) : Prop where
  registered : Registered p.1
  graded : Graded p.1
  owns : Owns (Live p.1) p.2
  recorded : Recorded p.1 p.2

theorem run_registered {as : List (Action π)} (hrun : (context cfg name).run s as = some s')
    (hreg : Registered s) (hg : Graded s) : Registered s' ∧ Graded s' :=
  Machine.path_invariant (fun s => Registered s ∧ Graded s)
    (fun _ _ _ _ hs h => ⟨step_registered hs h.1, step_graded hs h.1 h.2⟩)
    (Machine.path_of_run as s s' hrun) ⟨hreg, hg⟩

theorem step_kept {x : NetAction π} (hc : Distinct p x) (hs : netStep cfg name p x = some q)
    (h : Kept p) : Kept q := by
  cases x with
  | ctx a =>
      simp only [netStep, Option.ite_none_left_eq_some, Option.map_eq_some_iff] at hs
      -- A step of the context, followed by the `on_stop` of whom it stops.
      rcases hs with ⟨hnot, s', hs', rfl⟩
      rw [Bool.not_eq_true] at hnot
      rcases follow_keeps hs' h.registered h.graded hnot h.owns h.recorded with ⟨howns, hrec⟩
      exact ⟨step_registered hs' h.registered, step_graded hs' h.registered h.graded, howns, hrec⟩
  | addConnectionTo cp a =>
      simp only [netStep, Option.ite_none_right_eq_some] at hs
      rcases hs with ⟨⟨_, hobj, hnew⟩, hs⟩
      cases hrun : (context cfg name).run p.1 (addConnectionCalls p.1 cp a).1 with
      | none =>
          rw [hrun] at hs
          exact absurd hs (by simp only [reduceCtorEq, not_false_eq_true])
      | some u =>
          -- Either the lookup of `/root/net` crashes, before there is a dial, or the
          -- call goes through and the dial is stored.
          have hopened := opened_of_run hrun
          rcases run_registered hrun h.registered h.graded with ⟨hreg, hg⟩
          rw [hrun] at hs
          by_cases hfate : u.fate = .running
          · simp only [hfate, ne_eq, not_true_eq_false, if_false, Option.map_eq_some_iff] at hs
            rcases hs with ⟨s', hrun', rfl⟩
            rcases connected_keeps (connected_of_run hopened hfate hrun') hobj hnew hc h.owns
              h.recorded with ⟨howns, hrec⟩
            rcases run_registered hrun' hreg hg with ⟨hreg', hg'⟩
            exact ⟨hreg', hg', howns, hrec⟩
          · simp only [ne_eq, hfate, not_false_eq_true, if_true, Option.some.injEq] at hs
            rcases opened_keeps hopened hnew h.owns h.recorded with ⟨howns, hrec⟩
            rw [← hs]
            exact ⟨hreg, hg, howns, hrec⟩

theorem kept_start : Kept (network (π := π) cfg name).start := by
  have hnone : ∀ b : ActorPtr, ({} : Connections).actors.lookup b = none :=
    fun b => AList.lookup_empty b
  have habsurd : ∀ {b : ActorPtr} {c : NetworkConActor} {P : Prop},
      ({} : Connections).actors.lookup b = some c → P := by
    intro b c P hc
    rw [hnone] at hc
    exact absurd hc (by simp only [reduceCtorEq, not_false_eq_true])
  have hstart : (context (π := π) cfg name).Reach Machine.free (makeContext cfg name) :=
    Machine.Path.refl _
  refine ⟨reach_registered hstart, reach_graded hstart,
    ⟨fun _ _ _ hc => habsurd hc, fun _ _ _ _ hc => habsurd hc, fun _ _ hc => habsurd hc,
      fun _ _ hmem => absurd hmem List.not_mem_nil⟩,
    ⟨fun c _ => hnone c.actor, fun _ _ hc => habsurd hc, fun k b hk => ?_,
      fun _ _ _ _ hc => habsurd hc⟩⟩
  exact absurd (makeContext_trace hk) Bool.false_ne_true

theorem reach_kept (h : (network cfg name).Reach Distinct p) : Kept p :=
  Machine.invariant Kept kept_start (fun _ _ _ hc hs => step_kept hc hs) h

end Owned

/-- Every live connection actor's own dial is the one stored for it, so that
    `context::stop` disconnects it. A connection actor that was stopped has
    disconnected its own dial, and no connection actor has disconnected the dial
    of another. -/
structure ConnectionsOwned (cfg : Config) (name : String) (p : System π × Connections) : Prop where
  stored : ∀ a c, Live p.1 a → p.2.actors.lookup a = some c →
    p.2.connections.lookup c.cp = some c.con
  swept : ∀ q, netStep cfg name p (.ctx (.stop .begin)) = some q → ∀ a c, Live p.1 a →
    p.2.actors.lookup a = some c → (none, c.con) ∈ q.2.disconnects
  released : ∀ k a c, Event.stopped k a ∈ p.1.trace → p.2.actors.lookup a = some c →
    (some a, c.con) ∈ p.2.disconnects
  spared : ∀ a dial b c, (some a, dial) ∈ p.2.disconnects → p.2.actors.lookup b = some c →
    c.con = dial → b = a

/-- While no request is for a connection that has an entry, connections stay
    with their actors. -/
theorem connections_owned {cfg : Config} {name : String} {p : System π × Connections}
    (h : (network cfg name).Reach Distinct p) : ConnectionsOwned cfg name p := by
  have hkept := reach_kept h
  refine ⟨hkept.owns.stored, fun q hq a c ha hc => ?_, hkept.recorded.told,
    fun a dial b c hmem hb hdial => ?_⟩
  · simp only [netStep, Option.ite_none_left_eq_some, Option.map_eq_some_iff] at hq
    rcases hq with ⟨_, s', hs', rfl⟩
    exact begin_disconnects hs' hkept.registered hkept.graded hkept.owns ha hc
  · rcases hkept.owns.own a dial hmem with ⟨e, he, hedial⟩
    exact hkept.owns.dials b a c e hb he (hdial.trans hedial.symm)

/-- Two connections; the first is stopped and made again; then the context
    begins to stop. -/
def twoHostsRun : List (NetAction Nat) :=
  [.addConnectionTo ⟨"a", 80⟩ 4, .addConnectionTo ⟨"b", 80⟩ 5, .ctx (.call (.stopActor ⟨⟨5⟩, ""⟩)),
    .addConnectionTo ⟨"a", 80⟩ 6, .ctx (.stop .begin)]

theorem connections_owned_twoHosts :
    ConnectionsOwned .networked "ctx" ((network .networked "ctx").after twoHostsRun) :=
  connections_owned (Machine.reach_meets twoHostsRun (by decide))

/-- Two requests for one host and port; then the second actor is stopped. -/
def oneHostRun : List (NetAction Nat) :=
  [.addConnectionTo ⟨"a", 80⟩ 4, .addConnectionTo ⟨"a", 80⟩ 5, .ctx (.call (.stopActor ⟨⟨6⟩, ""⟩))]

/-- The second actor has disconnected the dial of the first, which is live, and
    its own dial is still up. -/
theorem connections_owned_oneHost : ∃ p : System Nat × Connections,
    (network .networked "ctx").Reach Machine.free p ∧ Live p.1 4 ∧
      (∃ k, Event.stopped k 5 ∈ p.1.trace) ∧ p.2.actors.lookup 4 = some ⟨0, ⟨"a", 80⟩⟩ ∧
      p.2.actors.lookup 5 = some ⟨1, ⟨"a", 80⟩⟩ ∧ p.2.disconnects = [(some 5, 0)] ∧
      ¬ ConnectionsOwned .networked "ctx" p := by
  let p := (network .networked "ctx").after oneHostRun
  have hfirst : p.2.actors.lookup 4 = some ⟨0, ⟨"a", 80⟩⟩ := by decide
  have hgone : p.2.disconnects = [(some 5, 0)] := by decide
  have hlive : (p.1.live ⟨5⟩).map Description.actor = some 4 := by decide
  have hstopped : 5 ∈ p.1.stopsOf ⟨6⟩ := by decide
  refine ⟨p, Machine.reach_after oneHostRun, ?_, ?_, hfirst, by decide, hgone, fun howned => ?_⟩
  · rcases Option.map_eq_some_iff.mp hlive with ⟨d, hd, hda⟩
    exact ⟨⟨5⟩, d, hd, hda⟩
  · exact ⟨⟨6⟩, mem_stopped?.mp hstopped⟩
  · have hmem : (some 5, 0) ∈ p.2.disconnects := by
      rw [hgone]
      exact List.mem_singleton_self _
    exact absurd (howned.spared 5 0 4 _ hmem hfirst rfl) (by decide)

end Yaaf
