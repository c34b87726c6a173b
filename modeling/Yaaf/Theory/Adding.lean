import Yaaf.Theory.Forest

/-!
# All or Nothing

`add_actor` works in sections, and between two of them anybody can move. The
lookup of the parent comes first, and the description that it finds is what the
child is built from. It is read without a test, so a parent that has been stopped,
or a `/root/usr` that has, ends the process there. `on_init` comes next and touches
nothing of the context's, so where it throws nothing has to be undone. The four
structures are updated in one section, and that is all or nothing as long as the
parent is still registered. If it went in between, its description is off the map,
and the child goes on a list that nobody will read. The post of `on_start` needs
the thread manager.

So there are three moments at which a call can go wrong, and each has a condition
on the state it finds.

## Main definitions

* `SameMaps`: The maps, and with them every child list, are as they were.
* `Admits`: A child is entered in all four structures, and nothing else changes.
* `AllOrNothing`: What a section of `add_actor` is to do.
* `Finds`: What it needs for that.

## Theorems

* `admits_insertActor`: When an insertion enters the child.
* `add_actor_all_or_nothing`: A section does what it is to do when it finds what
  it needs, and only then.
-/

namespace Yaaf

open Pruning

variable {π : Type}

/-- The maps, and with them every child list, are as they were. -/
structure SameMaps (s s' : System π) : Prop where
  actors : s'.actors = s.actors
  mboxes : s'.mboxes = s.mboxes
  idByName : s'.idByName = s.idByName

/-- The actor `d` is entered under `id` in all four structures, in nobody's place,
    and nothing else changes. -/
structure Admits (s s' : System π) (id : IdT) (d : Description) : Prop where
  free : s.live id = none
  live : s'.live id = some d
  mbox : s'.mboxes.lookup id = some s.nextBox
  name : s'.idByName.lookup d.name = some id
  parent : ∀ p, d.above = some p → ∃ w, s.live p = some w ∧
    s'.live p = some { w with children := w.children.insert id }
  others : ∀ k, k ≠ id → d.above ≠ some k → s'.live k = s.live k
  mboxes : ∀ k, k ≠ id → s'.mboxes.lookup k = s.mboxes.lookup k
  names : ∀ n, n ≠ d.name → s'.idByName.lookup n = s.idByName.lookup n

/-- What a section of a call of `add_actor` is to do: the one that inserts enters
    the child, and the others leave the maps alone. -/
def AllOrNothing (s s' : System π) (c : AddCall) : Prop :=
  s'.fate = .running ∧ match c.stage with
    | .ready d => Admits s s' c.newId d
    | _ => SameMaps s s'

/-- What it finds: the parent, when it is looked up and when the child is put
    under it, and the thread manager when `on_start` is posted. -/
def Finds (s : System π) (c : AddCall) : Prop :=
  match c.stage with
  | .called parent => parent.empty = false → (s.live parent.id).isSome = true
  | .built _ => True
  | .ready d => s.live c.newId = none ∧ ∀ p, d.above = some p → (s.live p).isSome = true
  | .inserted _ => s.shutdown.joined = false

section Adding

variable {cfg : Config} {name : String} {s s' : System π}

theorem above_eq_some {d : Description} {k : IdT} :
    d.above = some k ↔ k = d.parent ∧ d.parent.empty = false := by
  unfold Description.above
  split
  · rename_i h
    simp only [reduceCtorEq, h, Bool.true_eq_false, and_false]
  · rename_i h
    rw [Option.some.injEq, Bool.not_eq_true] at *
    exact ⟨fun hk => ⟨hk.symm, h⟩, fun hk => hk.1.symm⟩

/-- An insertion enters the child when the parent is there. -/
theorem admits_insertActor (id : IdT) (d : Description) (n : String) (s' : System π)
    (hactors : s'.actors = (s.insertActor id d n).actors)
    (hmboxes : s'.mboxes = (s.insertActor id d n).mboxes)
    (hnames : s'.idByName = (s.insertActor id d n).idByName) :
    Admits s s' id d ↔
      s.live id = none ∧ ∀ p, d.above = some p → (s.live p).isSome = true := by
  have hlive : ∀ k, s'.live k = if k = id then some d else (s.live k).map fun p =>
      if k = d.parent ∧ d.parent.empty = false then
        { p with children := p.children.insert id } else p := by
    intro k
    rw [← insertActor_live id d n k]
    unfold System.live
    rw [hactors]
  constructor
  · intro h
    refine ⟨h.free, fun p hp => ?_⟩
    rcases h.parent p hp with ⟨w, hw, _⟩
    rw [hw]
    rfl
  · rintro ⟨hfree, hup⟩
    have hne : ∀ p, d.above = some p → p ≠ id := by
      rintro p hp rfl
      have hsome := hup p hp
      rw [hfree] at hsome
      exact absurd hsome Bool.noConfusion
    refine ⟨hfree, (hlive id).trans (if_pos rfl), ?_, ?_, fun p hp => ?_, fun k hk hkp => ?_,
      fun k hk => ?_, fun m hm => ?_⟩
    · rw [hmboxes]
      exact AList.lookup_insert _
    · rw [hnames]
      exact AList.lookup_insert _
    · rcases Option.isSome_iff_exists.mp (hup p hp) with ⟨w, hw⟩
      refine ⟨w, hw, ?_⟩
      rw [hlive, if_neg (hne p hp), hw, Option.map_some, if_pos (above_eq_some.mp hp)]
    · rw [hlive, if_neg hk]
      cases s.live k with
      | none => rfl
      | some w => rw [Option.map_some, if_neg fun hc => hkp (above_eq_some.mpr hc)]
    · rw [hmboxes]
      exact AList.lookup_insert_ne hk
    · rw [hnames]
      exact AList.lookup_insert_ne hm

/-- A post needs the thread manager. -/
theorem fate_postStart (hfate : s.fate = .running) (a : ActorPtr) (m : MailboxPtr) :
    (s.postStart a m).fate = .running ↔ s.shutdown.joined = false := by
  unfold System.postStart System.userPost
  cases hj : s.shutdown.joined with
  | true =>
      rw [if_pos rfl]
      exact ⟨fun h => absurd h Fate.noConfusion, fun h => absurd h Bool.noConfusion⟩
  | false =>
      rw [if_neg Bool.false_ne_true]
      refine ⟨fun _ => rfl, fun _ => ?_⟩
      split <;> exact hfate

/-- A section does what it is to do when it finds what it needs. -/
theorem allOrNothing_iff {i : Nat} {c : AddCall} (hfate : s.fate = .running)
    (hr : AddRule s i c s') : AllOrNothing s s' c ↔ Finds s c := by
  unfold AllOrNothing Finds
  cases hr with
  | crash parent hc hp hlive =>
      simp only [hc]
      refine ⟨fun h => absurd h.1 Fate.noConfusion, fun h => ?_⟩
      have hsome := h hp
      rw [hlive] at hsome
      exact absurd hsome Bool.noConfusion
  | lookup parent up d hc hd hup =>
      simp only [hc]
      refine ⟨fun _ hp => ?_, fun _ => ⟨hfate, rfl, rfl, rfl⟩⟩
      rcases hup with ⟨hempty, _⟩ | ⟨p, _, hlive, _⟩
      · exact absurd (hempty.symm.trans hp) Bool.noConfusion
      · rw [hlive]
        rfl
  | initReturn d hc =>
      simp only [hc]
      exact ⟨fun _ => trivial, fun _ => ⟨hfate, rfl, rfl, rfl⟩⟩
  | initThrow d hc =>
      simp only [hc]
      exact ⟨fun _ => trivial, fun _ => ⟨hfate, rfl, rfl, rfl⟩⟩
  | insert d hc hx =>
      have hiff := admits_insertActor c.newId d c.actorName { s.insertActor c.newId d c.actorName
        with adding := s.adding.set i { c with stage := .inserted s.nextBox } } rfl rfl rfl
      simp only [hc]
      exact ⟨fun h => hiff.mp h.2, fun h => ⟨hfate, hiff.mpr h⟩⟩
  | post m hc =>
      simp only [hc]
      have hiff := fate_postStart hfate c.actor m
      refine ⟨fun h => hiff.mp h.1, fun h => ⟨hiff.mpr h, ?_⟩⟩
      rw [System.postStart, userPost_rest]
      exact ⟨rfl, rfl, rfl⟩

end Adding

/-- In every reachable state, a section of `add_actor` does what it is to do
    exactly when it finds the parent, or the thread manager, that it goes on to
    use. A call that has registered nobody, because its `on_init` threw or because
    it has not come that far, is in none of the four structures. -/
theorem add_actor_all_or_nothing {cfg : Config} {name : String} {s : System π}
    (h : (context cfg name).Reach Machine.free s) :
    (∀ i c st s', s.adding[i]? = some c → step cfg s (.add i st) = some s' →
      (AllOrNothing s s' c ↔ Finds s c)) ∧
    ∀ k n, (k, n) ∈ s.calls → k ∉ s.registeredIds →
      s.live k = none ∧ s.mboxes.lookup k = none ∧ (∀ m, s.idByName.lookup m ≠ some k) ∧
        ∀ j d, s.live j = some d → k ∉ d.children := by
  have hreg : Registered s := reach_registered h
  refine ⟨fun i c st s' hi hs => ?_, fun k n _ hno => ?_⟩
  · have hfate : s.fate = .running := (stepRule_of_step hs).1
    cases (stepRule_of_step hs).2 with
    | add _ _ c' s' hi' hr =>
        rw [hi, Option.some.injEq] at hi'
        rw [hi']
        exact allOrNothing_iff hfate hr
  · have hmentions : ¬ s.mentions k := fun hk => by
      rcases registered_of_mentions hreg.toFiled hk with ⟨r, hr, hid⟩
      exact hno (List.mem_map.mpr ⟨r, hr, hid⟩)
    have hlive : s.live k = none := by
      cases hd : s.live k with
      | none => rfl
      | some d => exact absurd (Or.inl (by rw [hd]; rfl)) hmentions
    refine ⟨hlive, hreg.noEntry k hlive, fun m hm => hmentions (Or.inr (Or.inl ⟨m, hm⟩)),
      fun j d hd hc => hmentions (Or.inr (Or.inr ⟨j, d, hd, hc⟩))⟩

/-- A call of `add_actor` under `/root/usr`, up to its insertion. -/
def insertingRun : List (Action Nat) :=
  [.call (.addActor "p" .null 3), .add 0 .lookup, .add 0 (.init true)]

/-- The child that it inserts. -/
def insertedChild : Description :=
  ⟨3, ⟨⟨4⟩, "/root/usr/p"⟩, ⟨⟨⟨4⟩, "/root/usr/p"⟩, "ctx/#usercontext#4"⟩, "/root/usr/p", ⟨2⟩, []⟩

theorem add_actor_all_or_nothing_inserted :
    ∃ s', step (.plain 1) ((context (.plain 1) "ctx").after insertingRun) (.add 0 .insert) =
      some s' ∧ AllOrNothing ((context (.plain 1) "ctx").after insertingRun) s'
        ⟨"p", 3, ⟨4⟩, .ready insertedChild⟩ := by
  have hreach : (context (.plain 1) "ctx").Reach Machine.free
    ((context (.plain 1) "ctx").after insertingRun) := Machine.reach_after _
  refine ⟨_, rfl, ((add_actor_all_or_nothing hreach).1 0 _ .insert _ rfl rfl).mpr ?_⟩
  exact ⟨rfl, fun p hp => by rw [← Option.some.inj hp]; rfl⟩

/-- `/root/usr/p` is stopped before a call looks it up for a parent. -/
def lateLookup : List (Action Nat) :=
  register "p" .null 3 ++
    [.call (.stopActor ⟨⟨4⟩, "/root/usr/p"⟩), .call (.addActor "c" ⟨⟨4⟩, "/root/usr/p"⟩ 4)]

/-- It is stopped between the lookup and the insertion. -/
def lateInsert : List (Action Nat) :=
  register "p" .null 3 ++
    [.call (.addActor "c" ⟨⟨4⟩, "/root/usr/p"⟩ 4), .add 0 .lookup, .add 0 (.init true),
      .call (.stopActor ⟨⟨4⟩, "/root/usr/p"⟩)]

/-- In the first case the lookup ends the process. In the second the child is
    registered, and on nobody's list. -/
theorem add_actor_all_or_nothing_late :
    (∃ s s' : System Nat, (context (.plain 1) "ctx").Reach Machine.free s ∧
      step (.plain 1) s (.add 0 .lookup) = some s' ∧ s'.fate = .undefined) ∧
    ∃ s s' : System Nat, (context (.plain 1) "ctx").Reach Machine.free s ∧
      step (.plain 1) s (.add 0 .insert) = some s' ∧ (s'.live ⟨5⟩).isSome = true ∧
        ∀ j d, s'.live j = some d → ⟨5⟩ ∉ d.children := by
  refine ⟨⟨_, _, Machine.reach_after lateLookup, rfl, rfl⟩, _, _, Machine.reach_after lateInsert,
    rfl, rfl, fun j d hd => ?_⟩
  have hall : ∀ kv ∈
      ((context (.plain 1) "ctx").after (lateInsert ++ [.add 0 .insert])).actors.entries,
      (⟨5⟩ : IdT) ∉ kv.2.children := by decide
  exact hall ⟨j, d⟩ (AList.mem_lookup_iff.mp hd)

end Yaaf
