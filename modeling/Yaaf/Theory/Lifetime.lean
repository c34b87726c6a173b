import Yaaf.Theory.Exchange

/-!
# How Long an Exchange Lives

The clean-up of a pass collects an exchange when its owner is gone and so is
every subscriber. `create_exchange` makes its caller the owner, but only if
there is no exchange of that name yet; otherwise it returns without a trace of
the call. An actor that created an exchange somebody else had created first is
neither owner nor subscriber, and the exchange goes when the others do.

Who uses an exchange is not in the state for that very reason, so the run is
given a record of it (`Usage`): the live actors that have called
`create_exchange` or `subscribe_to_exchange`, and among them those whose
`create_exchange` found the exchange there. `Keeps` is the condition on a
clean-up that none of the latter is left behind, and it decides the matter.

## Main definitions

* `System.uses`, `System.creates`: The calls the record is about.
* `Usage`, `usage`: The record.
* `Keeps`: A clean-up leaves nobody behind.
* `Served`: Every user has its exchange.

## Theorems

* `step_exchange`: Only the clean-up takes an exchange away.
* `exchange_of_call`: Who uses an exchange is in it, or was ignored.
* `step_served`: Clean-ups that meet the condition serve every user.
* `exchanging_reach`: The record follows every run and holds none up.
* `exchange_outlives_users`: The condition decides the matter.
-/

namespace Yaaf

variable {π : Type}

/-- The exchange a call makes use of, and for whom. -/
def ContextCall.uses : ContextCall π → Option (String × IdT)
  | .createExchange owner name => some (name, owner.id)
  | .subscribeToExchange target name => some (name, target.id)
  | _ => none

/-- The exchange a call creates, or would create. -/
def ContextCall.creates : ContextCall π → Option (String × IdT)
  | .createExchange owner name => some (name, owner.id)
  | _ => none

/-- The client call a step is, if it is one. -/
def System.calling (s : System π) : Action π → Option (ContextCall π)
  | .call c => some c
  | .userCall uc c => uc.forward s.shutdown.begun c
  | _ => none

/-- The exchange a step makes use of for a live actor. -/
def System.uses (s : System π) (a : Action π) : Option (String × IdT) :=
  ((s.calling a).bind ContextCall.uses).filter fun u => (s.live u.2).isSome

/-- The exchange a step would create for a live actor, if it were not there. -/
def System.ignored (s : System π) (a : Action π) : Option (String × IdT) :=
  ((s.calling a).bind ContextCall.creates).filter fun u =>
    (s.live u.2).isSome && (s.exchanges.lookup u.1).isSome

/-- The live users of exchanges, and those of them whose `create_exchange`
    found the exchange there. -/
structure Usage where
  users : List (String × IdT) := []
  ignored : List (String × IdT) := []

/-- What a step adds to the record; who is no longer live is dropped. -/
def usage (s : System π) (a : Action π) (s' : System π) (g : Usage) : Usage where
  users := ((s.uses a).toList ++ g.users).filter fun u => (s'.live u.2).isSome
  ignored := ((s.ignored a).toList ++ g.ignored).filter fun u => (s'.live u.2).isSome

/-- The step is a clean-up that gets the lock. -/
def Action.cleansUp : Action π → Bool
  | .worker (.cleanUp ok) => ok
  | _ => false

/-- A clean-up collects no exchange on which a live actor's `create_exchange`
    was ignored. -/
def Keeps (s : System π) (g : Usage) (a : Action π) : Prop :=
  a.cleansUp = true → ∀ u ∈ g.ignored, u.1 ∉ s.unusedExchanges

instance (s : System π) (g : Usage) (a : Action π) : Decidable (Keeps s g a) :=
  inferInstanceAs (Decidable (a.cleansUp = true → _))

/-- `context::exchange_exists`. -/
def System.exchangeExists (s : System π) (n : String) : Bool :=
  (s.exchanges.lookup n).isSome

/-- The actor is the owner of the exchange or on its list. -/
def ExchangeT.knows (ex : ExchangeT π) (k : IdT) : Prop :=
  ex.owner.id = k ∨ k ∈ ex.subscribes

/-- Every user is live and has its exchange, which knows it or ignored it. -/
structure Served (s : System π) (g : Usage) : Prop where
  exchange : ∀ u ∈ g.users, ∃ ex, s.exchanges.lookup u.1 = some ex ∧
    (ex.knows u.2 ∨ u ∈ g.ignored)
  live : ∀ u ∈ g.users, (s.live u.2).isSome = true
  ignored : ∀ u ∈ g.ignored, u ∈ g.users

section Steps

variable {cfg : Config} {s s' : System π} {a : Action π}

/-- The exchange is there, with the owner it had and everybody on its list. -/
def System.retains (s' : System π) (n : String) (ex : ExchangeT π) : Prop :=
  ∃ ex', s'.exchanges.lookup n = some ex' ∧ ∀ k, ex.knows k → ex'.knows k

theorem retains_of_same (h : s'.exchanges = s.exchanges) {n : String} {ex : ExchangeT π}
    (hx : s.exchanges.lookup n = some ex) : s'.retains n ex :=
  ⟨ex, by rw [h, hx], fun _ => id⟩

/-- An exchange is replaced by one that knows as many. -/
theorem retains_of_insert {m : String} {new : ExchangeT π}
    (h : s'.exchanges = s.exchanges.insert m new)
    (hknows : ∀ old, s.exchanges.lookup m = some old → ∀ k, old.knows k → new.knows k)
    {n : String} {ex : ExchangeT π} (hx : s.exchanges.lookup n = some ex) : s'.retains n ex := by
  by_cases hn : n = m
  · subst hn
    exact ⟨new, by rw [h, AList.lookup_insert], hknows ex hx⟩
  · exact ⟨ex, by rw [h, AList.lookup_insert_ne hn, hx], fun _ => id⟩

theorem callRule_retains {c : ContextCall π} (h : CallRule cfg s c s') {n : String}
    {ex : ExchangeT π} (hx : s.exchanges.lookup n = some ex) : s'.retains n ex := by
  cases h with
  | addActor | nothing | crash | send => exact retains_of_same rfl hx
  | stop addr u hexcl hu => exact retains_of_same (by rw [hu.rest]) hx
  -- A new name cannot be the one that was there.
  | create c owner m hf hno =>
      refine retains_of_insert rfl (fun e he => ?_) hx
      rw [hno] at he
      exact absurd he (by simp only [reduceCtorEq, not_false_eq_true])
  | subscribe target m e hexcl hex hlive =>
      refine retains_of_insert rfl (fun old hold k hk => ?_) hx
      rcases hex with hex | ⟨hno, _⟩
      · rw [hex, Option.some.injEq] at hold
        subst hold
        exact hk.imp id (List.mem_append_left _)
      · rw [hno] at hold
        exact absurd hold (by simp only [reduceCtorEq, not_false_eq_true])
  | publish m e ex' e' hex he =>
      refine retains_of_insert rfl (fun old hold k hk => ?_) hx
      rw [hex, Option.some.injEq] at hold
      subst hold
      exact hk

theorem workerStep_retains {st : WorkerStep} (hs : workerStep s st = some s') {n : String}
    {ex : ExchangeT π} (hx : s.exchanges.lookup n = some ex) :
    s'.retains n ex ∨ st = .cleanUp true ∧ n ∈ s.unusedExchanges := by
  have hsame : s'.exchanges = s.exchanges →
      s'.retains n ex ∨ st = .cleanUp true ∧ n ∈ s.unusedExchanges :=
    fun h => Or.inl (retains_of_same h hx)
  -- Only two steps of the worker touch the exchanges.
  cases workerRule_of_step hs with
  | pop x todo e y rest hw hlook hpub =>
      refine Or.inl (retains_of_insert rfl (fun old hold k hk => ?_) hx)
      rw [hlook, Option.some.injEq] at hold
      subst hold
      exact hk
  | post todo rm m d p hw hp => exact hsame (by rw [userPost_rest])
  | cleanUp rm hw =>
      by_cases hn : n ∈ s.unusedExchanges
      · -- The label says whether the lock was there to be had.
        simp only [workerStep, hw] at hs
        cases st with
        | cleanUp ok =>
            cases ok with
            | true => exact Or.inr ⟨rfl, hn⟩
            | false =>
                simp only [visitStep, if_true, Bool.false_eq_true, if_false, Option.some.injEq] at hs
                exact hsame (by rw [← hs])
        | _ => exact absurd hs (by
            simp only [visitStep, List.find?_nil, reduceCtorEq, not_false_eq_true])
      · refine Or.inl ⟨ex, ?_, fun _ => id⟩
        exact (foldl_erase_lookup _ _ n).trans ((if_neg hn).trans hx)
  | _ => exact hsame rfl

/-- Only the clean-up takes an exchange away. -/
theorem step_exchange (hs : step cfg s a = some s') {n : String} {ex : ExchangeT π}
    (hx : s.exchanges.lookup n = some ex) :
    s'.retains n ex ∨ a.cleansUp = true ∧ n ∈ s.unusedExchanges := by
  cases (stepRule_of_step hs).2 with
  | call c s' h => exact Or.inl (callRule_retains h hx)
  | userCall uc uc' c s' hc h => exact Or.inl (callRule_retains h hx)
  | userNothing => exact Or.inl (retains_of_same rfl hx)
  | add i st c s' hi h => exact Or.inl (retains_of_same (by rw [addRule_rest h]) hx)
  | pick t rest hq hn => exact Or.inl (retains_of_same rfl hx)
  | task i st s' h => exact Or.inl (retains_of_same (by rw [taskRule_rest h]) hx)
  | worker st s' h =>
      rcases workerStep_retains (workerStep_of_step hs).2 hx with hkept | ⟨rfl, hn⟩
      · exact Or.inl hkept
      · exact Or.inr ⟨rfl, hn⟩
  | stop st s' h => exact Or.inl (retains_of_same (by rw [stopRule_rest h]) hx)

/-- An unused exchange that is collected is gone. -/
theorem cleanUp_collects (hs : step cfg s a = some s') (ha : a.cleansUp = true) {n : String}
    (hn : n ∈ s.unusedExchanges) : s'.exchanges.lookup n = none ∧ s'.live = s.live := by
  unfold step at hs
  rw [Option.ite_none_right_eq_some] at hs
  have hs := hs.2
  cases a with
  | worker st =>
      cases st with
      | cleanUp ok =>
          have hok : ok = true := ha
          subst hok
          cases hw : s.worker with
          | scan todo rm pc =>
              simp only [workerStep, hw] at hs
              cases pc <;> simp only [visitStep, reduceCtorEq, if_true,
                Option.ite_none_right_eq_some, Option.some.injEq] at hs
              rw [← hs.2]
              exact ⟨(foldl_erase_lookup _ _ n).trans (if_pos hn), rfl⟩
          | _ =>
              simp only [workerStep, hw] at hs
              exact absurd hs (by simp only [reduceCtorEq, not_false_eq_true])
      | _ => exact absurd ha Bool.false_ne_true
  | _ => exact absurd ha Bool.false_ne_true

/-- Who uses an exchange is in it, or the call was ignored. -/
theorem exchange_of_call {c : ContextCall π} {u : String × IdT}
    (hs : contextCall cfg s c = some s') (hc : c.uses = some u) (hlive : (s.live u.2).isSome = true) :
    ∃ ex, s'.exchanges.lookup u.1 = some ex ∧
      (ex.knows u.2 ∨ c.creates = some u ∧ (s.exchanges.lookup u.1).isSome = true) := by
  cases c with
  | createExchange owner n =>
      simp only [ContextCall.uses, Option.some.injEq] at hc
      subst hc
      simp only [contextCall, Option.ite_none_right_eq_some, Option.some.injEq] at hs
      rw [← hs.2]
      unfold System.createExchangeUnsafe
      cases hn : s.exchanges.lookup n with
      | some ex =>
          refine ⟨ex, ?_, Or.inr ⟨rfl, rfl⟩⟩
          simp only [Option.isSome_some, if_true]
          exact hn
      | none =>
          refine ⟨⟨[], owner, []⟩, ?_, Or.inl (Or.inl rfl)⟩
          simp only [Option.isSome_none, Bool.false_eq_true, if_false]
          exact AList.lookup_insert _
  | subscribeToExchange target n =>
      simp only [ContextCall.uses, Option.some.injEq] at hc
      subst hc
      simp only [contextCall, Option.ite_none_right_eq_some, Option.some.injEq] at hs
      -- Found or made, the exchange is there when the subscriber is added.
      have hfound : ∃ ex, (s.createExchangeUnsafe target n).exchanges.lookup n = some ex := by
        unfold System.createExchangeUnsafe
        cases hn : s.exchanges.lookup n with
        | some ex => exact ⟨ex, by simp only [Option.isSome_some, if_true]; exact hn⟩
        | none => exact ⟨⟨[], target, []⟩, by
            simp only [Option.isSome_none, Bool.false_eq_true, if_false]
            exact AList.lookup_insert _⟩
      have hactors : (s.createExchangeUnsafe target n).actors = s.actors := by
        unfold System.createExchangeUnsafe
        split <;> rfl
      rcases hfound with ⟨ex, hex⟩
      refine ⟨{ ex with subscribes := ex.subscribes ++ [target.id] }, ?_, Or.inl (Or.inr ?_)⟩
      · unfold System.live at hlive
        rw [← hs.2]
        simp only [System.subscribeToExchange, hex, hactors, hlive, if_true]
        exact AList.lookup_insert _
      · exact List.mem_append_right _ (List.mem_singleton.mpr rfl)
  | _ => exact absurd hc (by simp only [ContextCall.uses, reduceCtorEq, not_false_eq_true])

theorem uses_of_creates {c : ContextCall π} {u : String × IdT} (h : c.creates = some u) :
    c.uses = some u := by
  cases c with
  | createExchange owner n => exact h
  | _ => exact absurd h (by simp only [ContextCall.creates, reduceCtorEq, not_false_eq_true])

/-- The call a step is, as the call it makes on the context. -/
theorem call_of_calling {c : ContextCall π} {u : String × IdT} (hs : step cfg s a = some s')
    (hc : s.calling a = some c) (hu : c.uses = some u) : contextCall cfg s c = some s' := by
  unfold step at hs
  rw [Option.ite_none_right_eq_some] at hs
  have hs := hs.2
  cases a with
  | call c' =>
      simp only [System.calling, Option.some.injEq] at hc
      exact hc ▸ hs
  | userCall uc c' =>
      simp only [System.calling] at hc
      simp only [Option.ite_none_right_eq_some, userCall, hc] at hs
      have hs := hs.2
      cases c' with
      | createExchange n | subscribeToExchange n => exact hs
      | _ =>
          -- What the others forward to uses no exchange.
          simp only [UserContext.forward, Option.ite_none_left_eq_some, Option.some.injEq] at hc
          first
          | rw [← hc] at hu
          | rw [← hc.2] at hu
          exact absurd hu (by simp only [ContextCall.uses, reduceCtorEq, not_false_eq_true])
  | _ => exact absurd hc (by simp only [System.calling, reduceCtorEq, not_false_eq_true])

/-- An exchange that knows a live actor is in use. -/
theorem not_unused {n : String} {ex : ExchangeT π} {k : IdT} (hx : s.exchanges.lookup n = some ex)
    (hk : ex.knows k) (hlive : (s.live k).isSome = true) : n ∉ s.unusedExchanges := by
  have hused : s.exchangeUsed ex = true := by
    unfold System.live at hlive
    unfold System.exchangeUsed
    rcases hk with rfl | hk
    · rw [hlive, Bool.true_or]
    · rw [List.any_eq_true.mpr ⟨k, hk, hlive⟩, Bool.or_true]
  intro hmem
  have hkept := kept_of_used hx hused
  rw [foldl_erase_lookup, if_pos hmem] at hkept
  exact absurd hkept (by simp only [reduceCtorEq, not_false_eq_true])

theorem mem_usage {u : String × IdT} {g : Usage} : u ∈ (usage s a s' g).users ↔
    (s.uses a = some u ∨ u ∈ g.users) ∧ (s'.live u.2).isSome = true := by
  simp only [usage, List.mem_filter, List.mem_append, Option.mem_toList]

theorem mem_usage_ignored {u : String × IdT} {g : Usage} : u ∈ (usage s a s' g).ignored ↔
    (s.ignored a = some u ∨ u ∈ g.ignored) ∧ (s'.live u.2).isSome = true := by
  simp only [usage, List.mem_filter, List.mem_append, Option.mem_toList]

theorem uses_iff {u : String × IdT} : s.uses a = some u ↔
    (∃ c, s.calling a = some c ∧ c.uses = some u) ∧ (s.live u.2).isSome = true := by
  simp only [System.uses, Option.filter_eq_some_iff, Option.bind_eq_some_iff]

theorem ignored_iff {u : String × IdT} : s.ignored a = some u ↔
    (∃ c, s.calling a = some c ∧ c.creates = some u) ∧
      (s.live u.2).isSome = true ∧ (s.exchanges.lookup u.1).isSome = true := by
  simp only [System.ignored, Option.filter_eq_some_iff, Option.bind_eq_some_iff, Bool.and_eq_true]

/-- Clean-ups that meet the condition serve every user. -/
theorem step_served {g : Usage} (hs : step cfg s a = some s') (hc : Keeps s g a)
    (h : Served s g) : Served s' (usage s a s' g) where
  exchange u hu := by
    rcases mem_usage.mp hu with ⟨huses | hold, hlive'⟩
    · rcases uses_iff.mp huses with ⟨⟨c, hcall, hcu⟩, hlive⟩
      rcases exchange_of_call (call_of_calling hs hcall hcu) hcu hlive with
        ⟨ex, hex, hknows | ⟨hcreates, hthere⟩⟩
      · exact ⟨ex, hex, Or.inl hknows⟩
      · exact ⟨ex, hex, Or.inr (mem_usage_ignored.mpr
          ⟨Or.inl (ignored_iff.mpr ⟨⟨c, hcall, hcreates⟩, hlive, hthere⟩), hlive'⟩)⟩
    -- An old user: its exchange is only lost to a clean-up that finds nobody
    -- alive in it.
    · rcases h.exchange u hold with ⟨ex, hex, hknown⟩
      rcases step_exchange hs hex with ⟨ex', hex', hmore⟩ | ⟨hclean, hunused⟩
      · exact ⟨ex', hex', hknown.imp (hmore u.2) fun hign =>
          mem_usage_ignored.mpr ⟨Or.inr hign, hlive'⟩⟩
      · rcases hknown with hknows | hign
        · exact absurd hunused (not_unused hex hknows (h.live u hold))
        · exact absurd hunused (hc hclean u hign)
  live u hu := (mem_usage.mp hu).2
  ignored u hu := by
    rcases mem_usage_ignored.mp hu with ⟨hign | hold, hlive'⟩
    · rcases ignored_iff.mp hign with ⟨⟨c, hcall, hcreates⟩, hlive, _⟩
      exact mem_usage.mpr
        ⟨Or.inl (uses_iff.mpr ⟨⟨c, hcall, uses_of_creates hcreates⟩, hlive⟩), hlive'⟩
    · exact mem_usage.mpr ⟨Or.inr (h.ignored u hold), hlive'⟩

theorem served_empty : Served s {} where
  exchange _ hu := absurd hu List.not_mem_nil
  live _ hu := absurd hu List.not_mem_nil
  ignored _ hu := absurd hu List.not_mem_nil

end Steps

/-- The context with the record of who uses which exchange. -/
def exchanging (cfg : Config) (name : String) : Machine (System π × Usage) (Action π) :=
  (context cfg name).track {} usage

/-- The record follows the context and never holds it up. -/
theorem exchanging_reach {cfg : Config} {name : String} {s : System π} :
    (∃ g, (exchanging cfg name).Reach Machine.free (s, g)) ↔
      (context cfg name).Reach Machine.free s :=
  ⟨fun ⟨_, h⟩ => Machine.path_track h, fun h => Machine.track_path h _⟩

/-- An exchange lives as long as its users. While no clean-up leaves a creator
    behind whose `create_exchange` was ignored, every live actor that created
    or subscribed to an exchange while live finds it there, and what is
    published to it enters its queue. The clean-up that first breaks the
    condition takes an exchange from a live user. -/
theorem exchange_outlives_users {cfg : Config} {name : String} {s : System π} {g : Usage}
    (h : (exchanging cfg name).Reach (fun p => Keeps p.1 p.2) (s, g)) :
    (∀ u ∈ g.users, (s.live u.2).isSome = true ∧ s.exchangeExists u.1 = true ∧
      ∀ e : Stored π, ∃ ex, s.exchanges.lookup u.1 = some ex ∧
        (s.publishToExchange u.1 e.1).exchanges.lookup u.1 =
          some { ex with pub := ex.pub ++ [e] }) ∧
    ∀ a s', step cfg s a = some s' →
      ((∀ u ∈ (usage s a s' g).users, s'.exchangeExists u.1 = true) ↔ Keeps s g a) := by
  have hserved : Served s g := by
    refine Machine.invariant (M := exchanging cfg name) (fun p => Served p.1 p.2)
      served_empty (fun p a q hc hs hp => ?_) h
    rcases Machine.track_step.mp hs with ⟨hstep, hg⟩
    rw [hg]
    exact step_served hstep hc hp
  refine ⟨fun u hu => ?_, fun a s' hs => ⟨fun hall hclean u hu hunused => ?_, fun hc u hu => ?_⟩⟩
  · rcases hserved.exchange u hu with ⟨ex, hex, _⟩
    refine ⟨hserved.live u hu, by rw [System.exchangeExists, hex, Option.isSome_some],
      fun e => ⟨ex, hex, ?_⟩⟩
    have hcopy : e.1.copy? = some e := by
      unfold Envelope.copy?
      exact dif_pos e.2
    simp only [System.publishToExchange, hex, hcopy]
    exact AList.lookup_insert _
  -- A clean-up that breaks the condition takes the exchange from a user.
  · rcases cleanUp_collects hs hclean hunused with ⟨hgone, hlive⟩
    have huser : u ∈ (usage s a s' g).users := by
      refine mem_usage.mpr ⟨Or.inr (hserved.ignored u hu), ?_⟩
      rw [hlive]
      exact hserved.live u (hserved.ignored u hu)
    have hthere := hall u huser
    rw [System.exchangeExists, hgone] at hthere
    exact absurd hthere Bool.false_ne_true
  · rcases (step_served hs hc hserved).exchange u hu with ⟨ex, hex, _⟩
    rw [System.exchangeExists, hex, Option.isSome_some]

/-- The labels of a pass that skips the fan-out and finds every mailbox empty,
    up to the clean-up. -/
def sweepPass (ks : List IdT) : List (Action Nat) :=
  [.worker (.tryFanOut false), .worker (.tryScan true)] ++ ks.map (fun k => .worker (.visit k)) ++
    [.worker (.cleanUp true)]

/-- Two actors create an exchange. -/
def coOwnerRun : List (Action Nat) :=
  register "a" .null 3 ++ register "b" .null 4 ++
    [.call (.createExchange ⟨⟨4⟩, "/root/usr/a"⟩ "x"),
      .call (.createExchange ⟨⟨5⟩, "/root/usr/b"⟩ "x")]

/-- The first is stopped, and a pass cleans up. -/
def coOwnerStop : List (Action Nat) :=
  [.call (.stopActor ⟨⟨4⟩, ""⟩)] ++ sweepPass [⟨1⟩, ⟨2⟩, ⟨3⟩, ⟨5⟩]

/-- The second has subscribed, too. -/
def coSubscribed : List (Action Nat) :=
  coOwnerRun ++ [.call (.subscribeToExchange ⟨⟨5⟩, "/root/usr/b"⟩ "x")] ++ coOwnerStop

theorem exchange_outlives_users_subscribed :
    ((exchanging (.plain 1) "ctx").after coSubscribed).1.exchangeExists "x" = true := by
  have hreach : (exchanging (.plain 1) "ctx").Reach (fun p => Keeps p.1 p.2)
      ((exchanging (.plain 1) "ctx").after coSubscribed) :=
    Machine.reach_meets coSubscribed (by decide)
  exact ((exchange_outlives_users hreach).1 ("x", ⟨5⟩) (by decide)).2.1

/-- It has not, and the exchange is gone. -/
theorem exchange_outlives_users_collected : ∃ (s : System Nat) (g : Usage),
    (exchanging (.plain 1) "ctx").Reach Machine.free (s, g) ∧
      ∃ u ∈ g.users, (s.live u.2).isSome = true ∧ s.exchangeExists u.1 = false :=
  ⟨_, _, Machine.reach_after (coOwnerRun ++ coOwnerStop), ("x", ⟨5⟩), by decide, by decide,
    by decide⟩

end Yaaf
