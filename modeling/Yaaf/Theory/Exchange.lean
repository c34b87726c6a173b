import Yaaf.Library.Outlet
import Yaaf.Theory.Pool

/-!
# Delivery Through an Exchange

Publishing puts a message into the queue of an exchange; a pass of the worker
pops it and pushes it to every subscriber, under both locks. Seen by one
subscriber this is a channel: a publish is an arrival, a pop claims the
message, and the push to the subscriber's mailbox hands it over. The backlog
the channel starts with is what was pending when the subscriber came.

The worker holds the queue's content and the subscriber list apart for a
moment, between a pop and the pushes that follow, and publishers may publish
in that moment. What keeps the channel exact is that the list cannot change
then, that a subscriber is on it once, and that an exchange with a live
subscriber is never collected.

## Main definitions

* `Event.published?`, `Event.fanned?`: The two histories of a subscription.
* `ExchangeRule`: A step, as far as exchanges can tell.
* `Relayed`: Queues and subscriber lists come from publishes and
  subscriptions.
* `System.outlet`, `Feeding`: An exchange, and a step, as a subscriber sees it.
* `Feeds`: A subscription as a channel.

## Theorems

* `step_relayed`: The contents of exchanges are accounted for.
* `exchangeRule_feeding`, `subscribing_of_rule`: What a step is to a subscriber.
* `feeds_step`: For one that is on the list once, it is a step of the channel, or none.
* `exchange_delivery`: A live subscriber gets every message once, in order.
-/

namespace Yaaf

open Slots Trace

variable {π : Type}

/-- Events exchanges are about. -/
def Event.relays : Event π → Bool
  | .published _ _ | .subscribed _ _ _ _ | .pushed _ _ (some _) => true
  | _ => false

/-- A message published to `x`. -/
def Event.published? (x : String) : Event π → Option (Stored π)
  | .published y e => if y = x then some e else none
  | _ => none

/-- A message of `x` pushed to the mailbox `m`. -/
def Event.fanned? (x : String) (m : MailboxPtr) : Event π → Option (Stored π)
  | .pushed m' e (some y) => if m' = m ∧ y = x then some e else none
  | _ => none

/-- A subscription of the actor with id `k` to `x`. -/
def Event.subscribes (x : String) (k : IdT) : Event π → Bool
  | .subscribed y j _ _ => y = x && j = k
  | _ => false

/-- Nothing exchanges are about has changed. -/
structure SameExchanges (s s' : System π) : Prop where
  exchanges : s'.exchanges = s.exchanges
  worker : s'.worker = s.worker
  trace : Grows (fun ev => ev.relays = false) s.trace s'.trace

/-- A step, as far as exchanges can tell. -/
inductive ExchangeRule (cfg : Config) (s : System π) : System π → Prop
  | same (s' : System π) (h : SameExchanges s s') : ExchangeRule cfg s s'
  | call (c : ContextCall π) (s' : System π) (h : CallRule cfg s c s') : ExchangeRule cfg s s'
  | worker (s' : System π) (h : WorkerRule s s') : ExchangeRule cfg s s'

theorem relays_of_quiet {ev : Event π} (h : ev.quiet = true) : ev.relays = false := by
  cases ev <;> first | rfl | exact absurd h (by simp only [Event.quiet, Bool.false_eq_true,
    not_false_eq_true])

section Rules

variable {cfg : Config} {s s' : System π}

theorem stops_exchanges (h : Stops cfg s s') : SameExchanges s s' := by
  refine ⟨by rw [h.rest], by rw [h.rest], ?_⟩
  exact stops_grows h (fun _ _ => rfl) fun _ _ _ => rfl

theorem sameExchanges_trans {u : System π} (h : SameExchanges s u) (h' : SameExchanges u s') :
    SameExchanges s s' :=
  ⟨h'.exchanges.trans h.exchanges, h'.worker.trans h.worker, grows_trans h.trace h'.trace⟩

theorem applyRule_exchanges {i : Nat} {t : ApplyTask} {pc : ApplyPc π}
    (h : ApplyRule cfg s i t pc s') : SameExchanges s s' := by
  have hquiet : ∀ evs : List (Event π), (∀ ev ∈ evs, ev.quiet = true) →
      Grows (fun ev => ev.relays = false) s.trace (s.trace ++ evs) :=
    fun evs hevs => ⟨evs, rfl, fun ev hev => relays_of_quiet (hevs ev hev)⟩
  cases h with
  | entry | popEmpty | pop | updateStatus | resetBusy => exact ⟨rfl, rfl, grows_refl⟩
  | callHandler | handlerReturn | handlerThrow => exact ⟨rfl, rfl, grows_one rfl⟩
  | halt pc f evs hf hevs | done pc evs hb hevs hend | walk pc pc' evs hb hb' hf hr hevs =>
      exact ⟨rfl, rfl, hquiet evs hevs⟩
  | stop pc u hb hx hu => exact sameExchanges_trans (stops_exchanges hu) ⟨rfl, rfl, grows_one rfl⟩
  | reinit h u hx hu =>
      exact sameExchanges_trans (stops_exchanges hu)
        ⟨rfl, rfl, grows_trans (grows_one rfl) (grows_one rfl)⟩

theorem addRule_exchanges {i : Nat} {c : AddCall} (h : AddRule s i c s') : SameExchanges s s' := by
  cases h with
  | insert => exact ⟨rfl, rfl, grows_one rfl⟩
  | post m hc =>
      rw [System.postStart, userPost_rest]
      exact ⟨rfl, rfl, grows_one rfl⟩
  | _ => exact ⟨rfl, rfl, grows_refl⟩

/-- Every step is one of the rules for exchanges. -/
theorem exchangeRule_of_stepRule {a : Action π} (h : StepRule cfg s a s') :
    ExchangeRule cfg s s' := by
  cases h with
  | call c s' h => exact .call c s' h
  | userCall uc uc' c s' hc h => exact .call c s' h
  | userNothing => exact .same _ ⟨rfl, rfl, grows_refl⟩
  | add i st c s' hi h => exact .same _ (addRule_exchanges h)
  | pick t rest hq hn =>
      refine .same _ ⟨rfl, rfl, ⟨t.takenEvent, rfl, fun ev hev => ?_⟩⟩
      cases t with
      | onStart a m => rw [List.mem_singleton.mp hev]; rfl
      | apply t => exact absurd hev List.not_mem_nil
  | task i st s' h =>
      cases h with
      | startHalt => exact .same _ ⟨rfl, rfl, grows_refl⟩
      | startReturn => exact .same _ ⟨rfl, rfl, grows_one rfl⟩
      | apply t pc s' hi h => exact .same _ (applyRule_exchanges h)
  | worker st s' h => exact .worker s' h
  | stop st s' h =>
      cases h with
      | flags | crash => exact .same _ ⟨rfl, rfl, grows_refl⟩
      | sweep u hj hx hu =>
          have hexchanges : u.exchanges = s.exchanges := by rw [hu.rest]
          have hworker : u.worker = s.worker := by rw [hu.rest]
          exact .same _ ⟨hexchanges, hworker, sweeps_grows hu fun _ _ => rfl⟩

end Rules

/-- What an exchange holds was published to it, who is on its list subscribed
    to it, and what the worker has in hand came from it and goes down its
    list. -/
structure Relayed (s : System π) : Prop where
  pending : ∀ x ex, s.exchanges.lookup x = some ex →
    ∀ e ∈ ex.pub, Event.published x e ∈ s.trace
  listed : ∀ x ex, s.exchanges.lookup x = some ex →
    ∀ k ∈ ex.subscribes, ∃ ev ∈ s.trace, ev.subscribes x k = true
  inHand : ∀ x e ids todo, s.worker = .delivering x e ids todo →
    Event.published x e ∈ s.trace ∧ ∃ ex, s.exchanges.lookup x = some ex ∧ ids <:+ ex.subscribes
  fanned : ∀ m e x, Event.pushed m e (some x) ∈ s.trace → Event.published x e ∈ s.trace

section Relayed

variable {cfg : Config} {s s' : System π}

theorem relayed_of_same (hs : SameExchanges s s') (h : Relayed s) : Relayed s' where
  pending x ex hx e he := by
    rw [hs.exchanges] at hx
    exact mem_of_grows hs.trace (h.pending x ex hx e he)
  listed x ex hx k hk := by
    rw [hs.exchanges] at hx
    rcases h.listed x ex hx k hk with ⟨ev, hev, hsub⟩
    exact ⟨ev, mem_of_grows hs.trace hev, hsub⟩
  inHand x e ids todo hw := by
    rw [hs.worker] at hw
    rw [hs.exchanges]
    rcases h.inHand x e ids todo hw with ⟨hpub, hids⟩
    exact ⟨mem_of_grows hs.trace hpub, hids⟩
  fanned m e x hev := by
    rcases mem_or_of_grows hs.trace hev with hold | hnew
    · exact mem_of_grows hs.trace (h.fanned m e x hold)
    · exact absurd hnew (by simp only [Event.relays, Bool.true_eq_false, not_false_eq_true])

/-- One exchange is written; the worker has nothing in hand that the writing
    could invalidate. -/
theorem relayed_of_insert {x : String} {ex : ExchangeT π} {evs : List (Event π)}
    (hexchanges : s'.exchanges = s.exchanges.insert x ex) (htrace : s'.trace = s.trace ++ evs)
    (hpending : ∀ e ∈ ex.pub, Event.published x e ∈ s'.trace)
    (hlisted : ∀ k ∈ ex.subscribes, ∃ ev ∈ s'.trace, ev.subscribes x k = true)
    (hfanned : ∀ m e y, Event.pushed m e (some y) ∉ evs)
    (hinHand : ∀ y e ids todo, s'.worker = .delivering y e ids todo →
      Event.published y e ∈ s'.trace ∧
        ∃ ex, s'.exchanges.lookup y = some ex ∧ ids <:+ ex.subscribes)
    (h : Relayed s) : Relayed s' where
  pending y ey hy e he := by
    rw [hexchanges] at hy
    by_cases hyx : y = x
    · rw [hyx, AList.lookup_insert, Option.some.injEq] at hy
      rw [← hy] at he
      rw [hyx]
      exact hpending e he
    · rw [AList.lookup_insert_ne hyx] at hy
      rw [htrace]
      exact List.mem_append_left _ (h.pending y ey hy e he)
  listed y ey hy k hk := by
    rw [hexchanges] at hy
    by_cases hyx : y = x
    · rw [hyx, AList.lookup_insert, Option.some.injEq] at hy
      rw [← hy] at hk
      rw [hyx]
      exact hlisted k hk
    · rw [AList.lookup_insert_ne hyx] at hy
      rcases h.listed y ey hy k hk with ⟨ev, hev, hsub⟩
      refine ⟨ev, ?_, hsub⟩
      rw [htrace]
      exact List.mem_append_left _ hev
  inHand := hinHand
  fanned m e y hev := by
    rw [htrace] at hev ⊢
    rcases List.mem_append.mp hev with hold | hnew
    · exact List.mem_append_left _ (h.fanned m e y hold)
    · exact absurd hnew (hfanned m e y)

/-- Nothing is in hand outside the fan-out. -/
theorem not_delivering (hx : s.fanningOut = false) (x : String) (e : Stored π) (ids : List IdT)
    (todo : List String) : s.worker ≠ .delivering x e ids todo := by
  intro hw
  unfold System.fanningOut at hx
  rw [hw] at hx
  exact absurd hx (by simp only [Bool.true_eq_false, not_false_eq_true])

theorem canExclude_fanningOut (hx : s.canExclude = true) : s.fanningOut = false := by
  simp only [System.canExclude, Bool.and_eq_true, Bool.not_eq_true'] at hx
  exact hx.1.1

theorem callRule_relayed {c : ContextCall π} (hr : CallRule cfg s c s') (h : Relayed s) :
    Relayed s' := by
  cases hr with
  | addActor => exact relayed_of_same (s := s) ⟨rfl, rfl, grows_one rfl⟩ h
  | nothing => exact h
  | crash => exact relayed_of_same (s := s) ⟨rfl, rfl, grows_refl⟩ h
  | send => exact relayed_of_same (s := s) ⟨rfl, rfl, grows_one rfl⟩ h
  | stop addr u hx hu => exact relayed_of_same (stops_exchanges hu) h
  | create c owner name hx hno =>
      refine relayed_of_insert (s := s) rfl (List.append_nil _).symm
        (fun e he => absurd he List.not_mem_nil) (fun k hk => absurd hk List.not_mem_nil)
        (fun m e y => List.not_mem_nil) (fun y e ids todo hw => ?_) h
      exact absurd hw (not_delivering hx y e ids todo)
  | subscribe target name ex hx hex hlive =>
      refine relayed_of_insert (s := s) rfl rfl (fun e he => ?_) (fun k hk => ?_)
        (fun m e y hev => ?_) (fun y e ids todo hw => ?_) h
      · refine List.mem_append_left _ ?_
        rcases hex with hex | ⟨_, rfl⟩
        · exact h.pending name ex hex e he
        · exact absurd he List.not_mem_nil
      · rcases List.mem_append.mp hk with hk | hk
        · rcases hex with hex | ⟨_, rfl⟩
          · rcases h.listed name ex hex k hk with ⟨ev, hev, hsub⟩
            exact ⟨ev, List.mem_append_left _ hev, hsub⟩
          · exact absurd hk List.not_mem_nil
        · refine ⟨_, List.mem_append_right _ (List.mem_singleton.mpr rfl), ?_⟩
          rw [List.mem_singleton.mp hk]
          simp only [Event.subscribes, decide_true, Bool.and_self]
      · exact absurd (List.mem_singleton.mp hev) (by simp only [reduceCtorEq, not_false_eq_true])
      · exact absurd hw (not_delivering (canExclude_fanningOut hx) y e ids todo)
  | publish x e ex e' hex he =>
      refine relayed_of_insert (s := s) rfl rfl (fun b hb => ?_) (fun k hk => ?_)
        (fun m b y hev => ?_) (fun y b ids todo hw => ?_) h
      · rcases List.mem_append.mp hb with hb | hb
        · exact List.mem_append_left _ (h.pending x ex hex b hb)
        · rw [List.mem_singleton.mp hb]
          exact List.mem_append_right _ (List.mem_singleton.mpr rfl)
      · rcases h.listed x ex hex k hk with ⟨ev, hev, hsub⟩
        exact ⟨ev, List.mem_append_left _ hev, hsub⟩
      · exact absurd (List.mem_singleton.mp hev) (by simp only [reduceCtorEq, not_false_eq_true])
      · -- Publishing while the worker delivers changes the queue, not the list.
        rcases h.inHand y b ids todo hw with ⟨hpub, ey, hey, hids⟩
        refine ⟨List.mem_append_left _ hpub, ?_⟩
        by_cases hyx : y = x
        · rw [hyx, hex, Option.some.injEq] at hey
          exact ⟨_, by rw [hyx]; exact AList.lookup_insert _, by rw [← hey] at hids; exact hids⟩
        · exact ⟨ey, (AList.lookup_insert_ne hyx).trans hey, hids⟩

/-- What erasing a list of keys leaves. -/
theorem foldl_erase_lookup {κ : Type} [DecidableEq κ] {β : κ → Type} (ns : List κ)
    (xs : AList β) (n : κ) : (ns.foldl (fun xs n => xs.erase n) xs).lookup n =
      if n ∈ ns then none else xs.lookup n := by
  induction ns generalizing xs with
  | nil => rw [List.foldl_nil, if_neg List.not_mem_nil]
  | cons m ns ih =>
      rw [List.foldl_cons, ih]
      by_cases hn : n ∈ ns
      · rw [if_pos hn, if_pos (List.mem_cons_of_mem m hn)]
      · rw [if_neg hn]
        by_cases hnm : n = m
        · rw [hnm, AList.lookup_erase, if_pos List.mem_cons_self]
        · rw [AList.lookup_erase_ne hnm, if_neg (by
            rw [List.mem_cons]
            exact fun h => h.elim hnm hn)]

/-- The worker moves on without touching a queue; what it has in hand, it had
    before. -/
theorem relayed_of_worker (w : WorkerPc π)
    (hw : ∀ x e ids todo, w = .delivering x e ids todo →
      ∃ ids', s.worker = .delivering x e ids' todo ∧ ids <:+ ids') (h : Relayed s) :
    Relayed { s with worker := w } where
  pending := h.pending
  listed := h.listed
  inHand x e ids todo hd := by
    rcases hw x e ids todo hd with ⟨ids', hd', hsuffix⟩
    rcases h.inHand x e ids' todo hd' with ⟨hpub, ex, hex, hids⟩
    exact ⟨hpub, ex, hex, hsuffix.trans hids⟩
  fanned := h.fanned

theorem workerRule_relayed (hr : WorkerRule s s') (h : Relayed s) : Relayed s' := by
  have hnone : ∀ w : WorkerPc π, (∀ x e ids todo, w ≠ .delivering x e ids todo) →
      Relayed { s with worker := w } :=
    fun w hw => relayed_of_worker w (fun x e ids todo hd => absurd hd (hw x e ids todo)) h
  cases hr with
  | popCrash | postCrash => exact relayed_of_same (s := s) ⟨rfl, rfl, grows_refl⟩ h
  | pop x todo ex e rest hw hx hpub =>
      have he : ∀ b ∈ e :: rest, Event.published x b ∈ s.trace := by
        rw [← hpub]
        exact h.pending x ex hx
      refine relayed_of_insert (s := s) rfl (List.append_nil _).symm
        (fun b hb => he b (List.mem_cons_of_mem e hb)) (h.listed x ex hx)
        (fun m b y => List.not_mem_nil) (fun y b ids todo' hd => ?_) h
      simp only [WorkerPc.delivering.injEq] at hd
      rcases hd with ⟨rfl, rfl, rfl, _⟩
      exact ⟨he e List.mem_cons_self, _, AList.lookup_insert _, List.suffix_refl _⟩
  | deliverNone x e k ids todo hw hm =>
      refine relayed_of_worker _ (fun y b ids' todo' hd => ?_) h
      simp only [WorkerPc.delivering.injEq] at hd
      rcases hd with ⟨rfl, rfl, rfl, rfl⟩
      exact ⟨_, hw, List.suffix_cons k ids⟩
  | deliver x e k ids todo m hw hm =>
      rcases h.inHand x e _ todo hw with ⟨hpub, ex, hex, hids⟩
      refine
        { pending := fun y ey hy b hb => List.mem_append_left _ (h.pending y ey hy b hb)
          listed := fun y ey hy j hj => ?_
          inHand := fun y b ids' todo' hd => ?_
          fanned := fun m' b y hev => ?_ }
      · rcases h.listed y ey hy j hj with ⟨ev, hev, hsub⟩
        exact ⟨ev, List.mem_append_left _ hev, hsub⟩
      · simp only [WorkerPc.delivering.injEq] at hd
        rcases hd with ⟨rfl, rfl, rfl, rfl⟩
        exact ⟨List.mem_append_left _ hpub, ex, hex, (List.suffix_cons k ids).trans hids⟩
      · refine List.mem_append_left _ ?_
        rcases List.mem_append.mp hev with hold | hnew
        · exact h.fanned m' b y hold
        · have heq := List.mem_singleton.mp hnew
          simp only [Event.pushed.injEq, Option.some.injEq] at heq
          rw [heq.2.1, heq.2.2]
          exact hpub
  | tryFanOut | skipFanOut | lock | release =>
      exact relayed_of_same (s := { s with worker := _ }) ⟨rfl, rfl, grows_refl⟩
        (hnone _ fun _ _ _ _ => by simp only [ne_eq, reduceCtorEq, not_false_eq_true])
  | post todo rm m d p hw hp =>
      rw [userPost_rest]
      exact relayed_of_same (s := { s with worker := .scan todo rm .next }) ⟨rfl, rfl, grows_refl⟩
        (hnone _ fun _ _ _ _ => by simp only [ne_eq, reduceCtorEq, not_false_eq_true])
  | cleanUp rm hw =>
      -- Collecting exchanges only shortens the map.
      have hless : ∀ x ex, (s.unusedExchanges.foldl (fun xs n => xs.erase n) s.exchanges).lookup x =
          some ex → s.exchanges.lookup x = some ex := by
        intro x ex hx
        rw [foldl_erase_lookup] at hx
        split at hx
        · exact absurd hx (by simp only [reduceCtorEq, not_false_eq_true])
        · exact hx
      exact
        { pending := fun x ex hx => h.pending x ex (hless x ex hx)
          listed := fun x ex hx => h.listed x ex (hless x ex hx)
          inHand := fun x e ids todo hd =>
            absurd hd (by simp only [reduceCtorEq, not_false_eq_true])
          fanned := h.fanned }
  | purge rm hw hx =>
      exact relayed_of_same (s := { s with worker := .idle }) ⟨rfl, rfl, grows_refl⟩
        (hnone _ fun _ _ _ _ => by simp only [ne_eq, reduceCtorEq, not_false_eq_true])
  | _ => exact hnone _ fun _ _ _ _ => by simp only [ne_eq, reduceCtorEq, not_false_eq_true]

theorem step_relayed {a : Action π} (hs : step cfg s a = some s') (h : Relayed s) :
    Relayed s' := by
  cases exchangeRule_of_stepRule (stepRule_of_step hs).2 with
  | same s' hsame => exact relayed_of_same hsame h
  | call c s' hr => exact callRule_relayed hr h
  | worker s' hr => exact workerRule_relayed hr h

theorem relayed_constructed (name : String) : Relayed (constructed (π := π) name) where
  pending x ex hx := absurd hx (by simp [constructed])
  listed x ex hx := absurd hx (by simp [constructed])
  inHand x e ids todo hw := absurd hw (by simp [constructed])
  fanned m e x hev := absurd hev List.not_mem_nil

theorem reach_relayed {name : String} {C : System π → Action π → Prop}
    (h : (context cfg name).Reach C s) : Relayed s :=
  always Relayed (relayed_constructed name)
    (fun s _ h => relayed_of_same (s := s) ⟨rfl, rfl, grows_refl⟩ h) (fun _ _ _ => step_relayed) h

end Relayed

/-- The copies that the worker has popped of `x` and not yet pushed to the actor with
    id `k`. -/
def System.left (s : System π) (x : String) (k : IdT) : List (Stored π) :=
  match s.worker with
  | .delivering y e ids _ => if y = x then List.replicate (ids.count k) e else []
  | _ => []

/-- An exchange as the actor with id `k` sees it. -/
def System.outlet (s : System π) (x : String) (k : IdT) (ex : ExchangeT π) :
    Outlet (Stored π) :=
  ⟨ex.pub, ex.subscribes.count k, s.left x k⟩

/-- A step as an actor sees it that is on the list of `x`. -/
def Feeding (s s' : System π) (x : String) (k : IdT) (m : MailboxPtr) (ex : ExchangeT π)
    (evs : List (Event π)) : Prop :=
  ∃ ex', s'.exchanges.lookup x = some ex' ∧
    (s.outlet x k ex).Step (evs.filterMap (Event.published? x)) (evs.filterMap (Event.fanned? x m))
      (s'.outlet x k ex')

section Outlets

variable {cfg : Config} {s s' : System π} {x : String} {k : IdT} {m : MailboxPtr}
  {ex : ExchangeT π} {evs : List (Event π)}

/-- Nothing happened that the actor could see. -/
theorem feeding_still (ex' : ExchangeT π) (hx : s'.exchanges.lookup x = some ex')
    (hcount : ex'.subscribes.count k = ex.subscribes.count k) (hpub : ex'.pub = ex.pub)
    (hleft : s'.left x k = s.left x k) (hevs : evs.filterMap (Event.published? x) = [])
    (hevs' : evs.filterMap (Event.fanned? x m) = []) : Feeding s s' x k m ex evs := by
  have hsame : s'.outlet x k ex' = s.outlet x k ex := by
    rw [System.outlet, hcount, hpub, hleft, System.outlet]
  refine ⟨ex', hx, ?_⟩
  rw [hsame, hevs, hevs']
  exact .still

theorem histories_of_relays (hevs : ∀ ev ∈ evs, ev.relays = false) :
    evs.filterMap (Event.published? x) = [] ∧ evs.filterMap (Event.fanned? x m) = [] := by
  refine ⟨List.filterMap_eq_nil_iff.mpr fun ev hev => ?_,
    List.filterMap_eq_nil_iff.mpr fun ev hev => ?_⟩ <;> have h := hevs ev hev
  · cases ev with
    | published => exact absurd h (by simp only [Event.relays, Bool.true_eq_false, not_false_eq_true])
    | _ => rfl
  · cases ev with
    | pushed m' e y =>
        cases y with
        | none => rfl
        | some y => exact absurd h (by simp only [Event.relays, Bool.true_eq_false,
            not_false_eq_true])
    | _ => rfl

theorem left_of_worker (hw : s'.worker = s.worker) : s'.left x k = s.left x k := by
  unfold System.left
  rw [hw]

/-- Nothing is left while the worker delivers nothing. -/
theorem left_nil (hw : ∀ y e ids todo, s.worker ≠ .delivering y e ids todo) :
    s.left x k = [] := by
  unfold System.left
  split
  · rename_i y e ids todo hdelivering
    exact absurd hdelivering (hw y e ids todo)
  · rfl

theorem left_delivering {y : String} {e : Stored π} {ids : List IdT} {todo : List String}
    (hw : s.worker = .delivering y e ids todo) :
    s.left x k = if y = x then List.replicate (ids.count k) e else [] := by
  unfold System.left
  rw [hw]

theorem feeding_of_same (hs : SameExchanges s s') (hx : s.exchanges.lookup x = some ex)
    (htrace : s'.trace = s.trace ++ evs) : Feeding s s' x k m ex evs := by
  rcases hs.trace with ⟨evs', hevs', hall⟩
  have heq : evs = evs' := List.append_cancel_left (htrace.symm.trans hevs')
  have hall' : ∀ ev ∈ evs, ev.relays = false := by
    rw [heq]
    exact hall
  rcases histories_of_relays (x := x) (m := m) hall' with ⟨hpub, hfan⟩
  refine feeding_still ex ?_ rfl rfl (left_of_worker hs.worker) hpub hfan
  rw [hs.exchanges]
  exact hx

theorem callRule_feeding {call : ContextCall π} (hr : CallRule cfg s call s')
    (hx : s.exchanges.lookup x = some ex) (htrace : s'.trace = s.trace ++ evs)
    (hnot : ∀ ev ∈ evs, ev.subscribes x k = false) : Feeding s s' x k m ex evs := by
  cases hr with
  | addActor => exact feeding_of_same ⟨rfl, rfl, grows_one rfl⟩ hx htrace
  | nothing => exact feeding_of_same ⟨rfl, rfl, grows_refl⟩ hx htrace
  | crash => exact feeding_of_same ⟨rfl, rfl, grows_refl⟩ hx htrace
  | send => exact feeding_of_same ⟨rfl, rfl, grows_one rfl⟩ hx htrace
  | stop addr u hx' hu => exact feeding_of_same (stops_exchanges hu) hx htrace
  | create _ owner name hfan hno =>
      -- A new exchange is another one: `x` is there already.
      have hne : x ≠ name := by
        intro h
        rw [h, hno] at hx
        exact absurd hx (by simp only [reduceCtorEq, not_false_eq_true])
      have hevs : evs = [] := List.append_cancel_left (htrace.symm.trans (List.append_nil _).symm)
      rw [hevs]
      exact feeding_still ex ((AList.lookup_insert_ne hne).trans hx) rfl rfl rfl rfl rfl
  | subscribe target name ex' hexcl hex' hlive =>
      have hevs := List.append_cancel_left htrace.symm
      by_cases hname : x = name
      · subst hname
        -- Somebody else joined the list.
        have hexx : ex' = ex := by
          rcases hex' with hex' | ⟨hno, _⟩
          · rw [hx, Option.some.injEq] at hex'
            exact hex'.symm
          · rw [hx] at hno
            exact absurd hno (by simp only [reduceCtorEq, not_false_eq_true])
        have hother : target.id ≠ k := by
          intro h
          have := hnot _ (by rw [hevs]; exact List.mem_singleton.mpr rfl)
          simp only [Event.subscribes, h, decide_true, Bool.and_self, Bool.true_eq_false] at this
        have hcount : (ex'.subscribes ++ [target.id]).count k = ex.subscribes.count k := by
          rw [hexx, List.count_append, List.count_singleton, if_neg (by simpa using hother)]
          rfl
        rw [hevs]
        exact feeding_still _ (AList.lookup_insert _) hcount (by rw [hexx]) rfl rfl rfl
      · rw [hevs]
        exact feeding_still ex ((AList.lookup_insert_ne hname).trans hx) rfl rfl rfl rfl rfl
  | publish y e ey e' hey he =>
      have hevs := List.append_cancel_left htrace.symm
      rw [hevs]
      by_cases hyx : y = x
      · subst hyx
        have heq : ey = ex := by
          rw [hx, Option.some.injEq] at hey
          exact hey.symm
        have hpub : [Event.published y e'].filterMap (Event.published? y) = [e'] := by
          simp only [List.filterMap_cons, Event.published?, if_true, List.filterMap_nil]
        subst heq
        refine ⟨_, AList.lookup_insert _, ?_⟩
        rw [hpub]
        exact .arrive e'
      · have hpub : [Event.published y e'].filterMap (Event.published? x) = [] := by
          simp only [List.filterMap_cons, Event.published?, if_neg hyx, List.filterMap_nil]
        exact feeding_still ex ((AList.lookup_insert_ne (fun h => hyx h.symm)).trans hx) rfl rfl
          rfl hpub rfl

/-- A live subscriber keeps its exchange in use. -/
theorem used_of_subscriber {d : Description} (hd : s.live k = some d) (hk : k ∈ ex.subscribes) :
    s.exchangeUsed ex = true := by
  have hany : (ex.subscribes.any fun id => (s.actors.lookup id).isSome) = true := by
    refine List.any_eq_true.mpr ⟨k, hk, ?_⟩
    unfold System.live at hd
    rw [hd]
    rfl
  rw [System.exchangeUsed, hany, Bool.or_true]

/-- An exchange in use survives the clean-up. -/
theorem kept_of_used (hx : s.exchanges.lookup x = some ex) (hused : s.exchangeUsed ex = true) :
    (s.unusedExchanges.foldl (fun xs n => xs.erase n) s.exchanges).lookup x = some ex := by
  rw [foldl_erase_lookup, if_neg, hx]
  intro hmem
  simp only [System.unusedExchanges, List.mem_map, List.mem_filter] at hmem
  rcases hmem with ⟨⟨y, ey⟩, ⟨hentry, hunused⟩, rfl⟩
  -- The entry the clean-up saw is the one the lookup finds.
  have hlook : s.exchanges.lookup y = some ey := AList.mem_lookup_iff.mpr hentry
  rw [hlook, Option.some.injEq] at hx
  simp only [hx, hused, Bool.not_true, Bool.false_eq_true] at hunused

/-- One push of the fan-out is for this actor, for another one, or of another exchange. -/
theorem deliver_feeding {y : String} {e : Stored π} {j : IdT} {ids : List IdT}
    {todo : List String} {m' : MailboxPtr} (hreg : Registered s)
    (hbox : s.mboxes.lookup k = some m) (hx : s.exchanges.lookup x = some ex)
    (hw : s.worker = .delivering y e (j :: ids) todo) (hm : s.mboxes.lookup j = some m') :
    Feeding s { s.push m' e (some y) with worker := .delivering y e ids todo } x k m ex
      [.pushed m' e (some y)] := by
  by_cases hyx : y = x
  · subst hyx
    by_cases hjk : j = k
    · -- The push this actor was waiting for.
      subst hjk
      have hmm : m' = m := Option.some.inj (hm.symm.trans hbox)
      subst hmm
      refine ⟨ex, hx, ?_⟩
      have hleft : (s.outlet y j ex).left = e :: List.replicate (ids.count j) e := by
        rw [System.outlet, left_delivering hw, if_pos rfl, List.count_cons_self,
          List.replicate_succ]
      have hfan : [Event.pushed m' e (some y)].filterMap (Event.fanned? y m') = [e] := by
        simp only [List.filterMap_cons, Event.fanned?, and_self, if_true, List.filterMap_nil]
      have hnew : System.outlet { s.push m' e (some y) with
          worker := .delivering y e ids todo } y j ex =
            { s.outlet y j ex with left := List.replicate (ids.count j) e } := by
        rw [System.outlet, left_delivering rfl, if_pos rfl]
        rfl
      rw [hfan, hnew]
      exact .hand e _ hleft
    · -- Another subscriber has another mailbox.
      have hmm : m' ≠ m := by
        intro h
        rw [h] at hm
        exact hjk (mboxes_inj hreg.toFiled hm hbox)
      have hleft : System.left { s.push m' e (some y) with
          worker := .delivering y e ids todo } y k = s.left y k := by
        rw [left_delivering hw, left_delivering rfl, List.count_cons_of_ne hjk]
      have hfan : [Event.pushed m' e (some y)].filterMap (Event.fanned? y m) = [] := by
        simp only [List.filterMap_cons, Event.fanned?, hmm, false_and, if_false,
          List.filterMap_nil]
      exact feeding_still ex hx rfl rfl hleft rfl hfan
  · have hleft : System.left { s.push m' e (some y) with
        worker := .delivering y e ids todo } x k = s.left x k := by
      rw [left_delivering hw, left_delivering rfl, if_neg hyx, if_neg hyx]
    have hfan : [Event.pushed m' e (some y)].filterMap (Event.fanned? x m) = [] := by
      simp only [List.filterMap_cons, Event.fanned?, hyx, and_false, if_false,
        List.filterMap_nil]
    exact feeding_still ex hx rfl rfl hleft rfl hfan

theorem workerRule_feeding (hr : WorkerRule s s') (hreg : Registered s)
    (hbox : s.mboxes.lookup k = some m) (hx : s.exchanges.lookup x = some ex)
    (hk : k ∈ ex.subscribes) (htrace : s'.trace = s.trace ++ evs) :
    Feeding s s' x k m ex evs := by
  have hquiet : s'.trace = s.trace → evs = [] := fun h => by
    rw [h] at htrace
    exact List.append_cancel_left (htrace.symm.trans (List.append_nil _).symm)
  -- Steps that leave the queue of `x` alone and have nothing of it in hand.
  have hidle : s'.trace = s.trace → s'.exchanges.lookup x = some ex → s.left x k = [] →
      s'.left x k = [] → Feeding s s' x k m ex evs := by
    intro htr hx' hold hnew
    rw [hquiet htr]
    exact feeding_still ex hx' rfl rfl (hnew.trans hold.symm) rfl rfl
  cases hr with
  | pop y todo ey e rest hw hy hpub =>
      have hold : s.left x k = [] := left_nil fun _ _ _ _ => by
        rw [hw]
        simp only [ne_eq, reduceCtorEq, not_false_eq_true]
      rw [hquiet rfl]
      by_cases hyx : y = x
      · subst hyx
        have heq : ey = ex := Option.some.inj (hy.symm.trans hx)
        subst heq
        have hnew : System.outlet { s with
            exchanges := s.exchanges.insert y { ey with pub := rest }
            worker := .delivering y e ey.subscribes todo } y k { ey with pub := rest } =
              { s.outlet y k ey with
                queued := rest
                left := List.replicate (s.outlet y k ey).share e } := by
          rw [System.outlet, left_delivering rfl, if_pos rfl]
          rfl
        refine ⟨_, AList.lookup_insert _, ?_⟩
        rw [hnew]
        exact .claim e rest hpub hold
      · have hnew : System.left { s with
            exchanges := s.exchanges.insert y { ey with pub := rest }
            worker := .delivering y e ey.subscribes todo } x k = [] := by
          rw [left_delivering rfl, if_neg hyx]
        exact feeding_still ex ((AList.lookup_insert_ne (fun h => hyx h.symm)).trans hx) rfl rfl
          (hnew.trans hold.symm) rfl rfl
  | delivered y e todo hw =>
      refine hidle rfl hx ?_ (left_nil fun _ _ _ _ => by
        simp only [ne_eq, reduceCtorEq, not_false_eq_true])
      rw [left_delivering hw, List.count_nil]
      exact ite_self _
  | deliverNone y e j ids todo hw hm =>
      -- A subscriber that is gone is not this one.
      have hjk : j ≠ k := by
        intro h
        rw [h, hbox] at hm
        exact absurd hm (by simp only [reduceCtorEq, not_false_eq_true])
      have hleft : System.left { s with worker := .delivering y e ids todo } x k =
          s.left x k := by
        rw [left_delivering hw, left_delivering rfl, List.count_cons_of_ne hjk]
      rw [hquiet rfl]
      exact feeding_still ex hx rfl rfl hleft rfl rfl
  | deliver y e j ids todo m' hw hm =>
      have hevs : evs = [.pushed m' e (some y)] := List.append_cancel_left htrace.symm
      rw [hevs]
      exact deliver_feeding hreg hbox hx hw hm
  | cleanUp rm hw =>
      rcases live_of_mbox hreg.toFiled hbox with ⟨d, _, hd, _⟩
      refine hidle rfl (kept_of_used hx (used_of_subscriber hd hk)) (left_nil fun _ _ _ _ => ?_)
        (left_nil fun _ _ _ _ => by simp only [ne_eq, reduceCtorEq, not_false_eq_true])
      rw [hw]
      simp only [ne_eq, reduceCtorEq, not_false_eq_true]
  | post todo rm m' d p hw hp =>
      have htr : (s.userPost (.apply ⟨d, p, m'⟩)).trace = s.trace := by rw [userPost_rest]
      have hex : (s.userPost (.apply ⟨d, p, m'⟩)).exchanges.lookup x = some ex := by
        rw [userPost_rest]
        exact hx
      refine hidle htr hex (left_nil fun _ _ _ _ => ?_) (left_nil fun _ _ _ _ => by
        simp only [ne_eq, reduceCtorEq, not_false_eq_true])
      rw [hw]
      simp only [ne_eq, reduceCtorEq, not_false_eq_true]
  | popCrash y todo hw hy | postCrash todo rm m' d hw hp hl =>
      refine hidle rfl hx (left_nil fun _ _ _ _ => ?_) (left_nil fun _ _ _ _ => ?_) <;>
        simp only [System.crash, hw, ne_eq, reduceCtorEq, not_false_eq_true]
  | tryFanOut hw | skipFanOut hw | nextExchange _ _ hw | popEmpty _ _ _ hw | endFanOut hw | tryScan hw
  | skipScan hw | visitEmpty _ _ _ _ hw | visitStale _ _ _ _ hw | visit _ _ _ _ _ hw
  | lockFail _ _ _ _ hw | lock _ _ _ _ hw | recheckEmpty _ _ _ _ hw | recheck _ _ _ _ hw
  | release _ _ _ hw | skipCleanUp _ hw | purge _ hw | skipPurge _ hw =>
      refine hidle rfl hx (left_nil fun _ _ _ _ => ?_) (left_nil fun _ _ _ _ => by
        simp only [ne_eq, reduceCtorEq, not_false_eq_true])
      rw [hw]
      simp only [ne_eq, reduceCtorEq, not_false_eq_true]

/-- What a step is to an actor that is on the list of `x`, unless it puts it there once
    more. -/
theorem exchangeRule_feeding (hr : ExchangeRule cfg s s') (hreg : Registered s)
    (hbox : s.mboxes.lookup k = some m) (hx : s.exchanges.lookup x = some ex)
    (hk : k ∈ ex.subscribes) (htrace : s'.trace = s.trace ++ evs)
    (hnot : ∀ ev ∈ evs, ev.subscribes x k = false) : Feeding s s' x k m ex evs := by
  cases hr with
  | same s' hsame => exact feeding_of_same hsame hx htrace
  | call call s' hr => exact callRule_feeding hr hx htrace hnot
  | worker s' hr => exact workerRule_feeding hr hreg hbox hx hk htrace

/-- A subscription is all that its step does, and nothing is delivered meanwhile. -/
structure Subscribing (s s' : System π) (x : String) (k : IdT) (mb : Option MailboxPtr)
    (pending : List (Stored π)) (evs : List (Event π)) : Prop where
  only : evs = [.subscribed x k mb pending]
  box : s.mboxes.lookup k = mb
  worker : s'.worker = s.worker
  alone : s.fanningOut = false
  joined : ∃ ex, (s.exchanges.lookup x = some ex ∨
      s.exchanges.lookup x = none ∧ ex.subscribes = []) ∧ ex.pub = pending ∧
    s'.exchanges.lookup x = some { ex with subscribes := ex.subscribes ++ [k] }

theorem subscribing_of_rule (hr : ExchangeRule cfg s s') (htrace : s'.trace = s.trace ++ evs)
    {mb : Option MailboxPtr} {pending : List (Stored π)}
    (hmem : Event.subscribed x k mb pending ∈ evs) : Subscribing s s' x k mb pending evs := by
  have hcontra : Grows (fun ev => ev.relays = false) s.trace s'.trace → False := by
    rintro ⟨evs', hevs', hall⟩
    have heq : evs = evs' := List.append_cancel_left (htrace.symm.trans hevs')
    exact absurd (hall _ (heq ▸ hmem)) (by simp only [Event.relays, Bool.true_eq_false,
      not_false_eq_true])
  have hother : ∀ ev : Event π, s'.trace = s.trace ++ [ev] →
      ev = .subscribed x k mb pending := by
    intro ev h
    have heq : evs = [ev] := List.append_cancel_left (htrace.symm.trans h)
    rw [heq] at hmem
    exact (List.mem_singleton.mp hmem).symm
  cases hr with
  | same s' hsame => exact absurd hsame.trace hcontra
  | worker s' hr =>
      exfalso
      cases hr with
      | deliver y e j ids todo m' hw hm =>
          exact absurd (hother _ rfl) (by simp only [reduceCtorEq, not_false_eq_true])
      | post todo rm m' d p hw hp =>
          have htr : (s.userPost (.apply ⟨d, p, m'⟩)).trace = s.trace := by rw [userPost_rest]
          refine hcontra ?_
          rw [show ({ s.userPost (.apply ⟨d, p, m'⟩) with worker := _ } : System π).trace =
            (s.userPost (.apply ⟨d, p, m'⟩)).trace from rfl, htr]
          exact grows_refl
      | _ => exact hcontra grows_refl
  | call call s' hr =>
      cases hr with
      | addActor => exact (hcontra (grows_one rfl)).elim
      | nothing => exact (hcontra grows_refl).elim
      | crash => exact (hcontra grows_refl).elim
      | send => exact (hcontra (grows_one rfl)).elim
      | stop addr u hx hu => exact absurd (stops_exchanges hu).trace hcontra
      | create => exact (hcontra grows_refl).elim
      | publish => exact absurd (hother _ rfl) (by simp only [reduceCtorEq, not_false_eq_true])
      | subscribe target name ex hx hex hlive =>
          have heq := hother _ rfl
          simp only [Event.subscribed.injEq] at heq
          rcases heq with ⟨rfl, rfl, rfl, rfl⟩
          refine ⟨List.append_cancel_left htrace.symm, rfl, rfl, canExclude_fanningOut hx,
            ⟨ex, ?_, rfl, AList.lookup_insert _⟩⟩
          rcases hex with hex | ⟨hno, rfl⟩
          · exact Or.inl hex
          · exact Or.inr ⟨hno, rfl⟩

end Outlets

/-- The message of `x` that the worker has popped and not yet pushed to the
    actor with id `k`. -/
def System.inHand (s : System π) (x : String) (k : IdT) : Option (Stored π) :=
  match s.worker with
  | .delivering y e ids _ => if y = x ∧ k ∈ ids then some e else none
  | _ => none

/-- A subscription as a channel. `post` is what happened since. -/
structure Feeds (s : System π) (x : String) (k : IdT) (m : MailboxPtr) (ex : ExchangeT π)
    (pending : List (Stored π)) (post : List (Event π)) (c : Channel (Stored π)) : Prop where
  once : ex.subscribes.count k = 1
  arrived : c.arrived = pending ++ post.filterMap (Event.published? x)
  handed : c.handed = post.filterMap (Event.fanned? x m)
  claimed : c.claimed = s.inHand x k
  queued : c.queued = ex.pub

section Feeds

variable {cfg : Config} {s s' : System π} {x : String} {k : IdT} {m : MailboxPtr}
  {ex : ExchangeT π} {pending : List (Stored π)} {post evs : List (Event π)}
  {c : Channel (Stored π)}

theorem inHand_none (hx : s.fanningOut = false) : s.inHand x k = none := by
  unfold System.inHand
  split
  · rename_i y e ids todo hw
    exact absurd hw (not_delivering hx y e ids todo)
  · rfl

/-- Who is on the list once has at most one copy left to get. -/
theorem left_eq_inHand (hrel : Relayed s) (hx : s.exchanges.lookup x = some ex)
    (honce : ex.subscribes.count k = 1) : s.left x k = (s.inHand x k).toList := by
  unfold System.left System.inHand
  split
  · rename_i y e ids todo hw
    by_cases hyx : y = x
    · subst hyx
      rcases hrel.inHand y e ids todo hw with ⟨_, ey, hey, hids⟩
      have heq : ey = ex := Option.some.inj (hey.symm.trans hx)
      have hle : ids.count k ≤ 1 := by
        rw [← honce, ← heq]
        exact hids.sublist.count_le k
      by_cases hk : k ∈ ids
      · have hone : ids.count k = 1 := Nat.le_antisymm hle (List.count_pos_iff.mpr hk)
        rw [if_pos rfl, if_pos ⟨rfl, hk⟩, hone]
        rfl
      · rw [if_pos rfl, if_neg fun h => hk h.2, List.count_eq_zero.mpr hk]
        rfl
    · rw [if_neg hyx, if_neg fun h => hyx h.1]
      rfl
  · rfl

/-- For who is on the list once, a step is one of the channel, or none. -/
theorem feeds_step (hfeeding : Feeding s s' x k m ex evs) (hrel : Relayed s) (hrel' : Relayed s')
    (hx : s.exchanges.lookup x = some ex) (hf : Feeds s x k m ex pending post c) :
    ∃ ex' c', s'.exchanges.lookup x = some ex' ∧ Feeds s' x k m ex' pending (post ++ evs) c' ∧
      (c' = c ∨ c.Step c') := by
  rcases hfeeding with ⟨ex', hx', hstep⟩
  have honce : ex'.subscribes.count k = 1 := (Outlet.step_share hstep).trans hf.once
  have hleft : c.claimed.toList = (s.outlet x k ex).left := by
    rw [hf.claimed, System.outlet, left_eq_inHand hrel hx hf.once]
  rcases Outlet.channel_of_step hstep hf.once hf.queued hleft with
    ⟨c', harrived, hhanded, hqueued, hclaimed, hmove⟩
  refine ⟨ex', c', hx', ⟨honce, ?_, ?_, ?_, hqueued⟩, hmove⟩
  · rw [harrived, hf.arrived, List.filterMap_append, List.append_assoc]
  · rw [hhanded, hf.handed, List.filterMap_append]
  · rw [System.outlet, left_eq_inHand hrel' hx' honce] at hclaimed
    refine Option.ext fun e => ?_
    rw [← Option.mem_toList, hclaimed, Option.mem_toList]

/-- The subscription itself: the channel starts with what is pending. -/
theorem subscribe_feeds (hr : ExchangeRule cfg s s') (hrel : Relayed s) {pre : List (Event π)}
    (htrace : s'.trace = s.trace ++ evs) (hevs : evs = pre ++ .subscribed x k (some m) pending :: post)
    (hnot : ∀ ev ∈ s.trace, ev.subscribes x k = false) :
    s.mboxes.lookup k = some m ∧ ∃ ex c, s'.exchanges.lookup x = some ex ∧
      Feeds s' x k m ex pending post c := by
  have hmem : Event.subscribed x k (some m) pending ∈ evs := by
    rw [hevs]
    exact List.mem_append_right _ List.mem_cons_self
  have hsub := subscribing_of_rule hr htrace hmem
  rcases hsub.joined with ⟨ex, hex, rfl, hx'⟩
  -- Nothing follows the subscription in the step that makes it.
  have hpost : post = [] := by
    have hlen := congrArg List.length (hevs.symm.trans hsub.only)
    simp only [List.length_cons, List.length_nil, List.length_append] at hlen
    exact List.length_eq_zero_iff.mp (by omega)
  have hzero : ex.subscribes.count k = 0 := by
    refine List.count_eq_zero.mpr fun hk => ?_
    rcases hex with hex | ⟨_, hnil⟩
    · rcases hrel.listed x ex hex _ hk with ⟨ev, hev, hsubs⟩
      rw [hnot ev hev] at hsubs
      exact absurd hsubs (by simp only [Bool.false_eq_true, not_false_eq_true])
    · rw [hnil] at hk
      exact absurd hk List.not_mem_nil
  have hhand : s'.inHand x k = none := by
    unfold System.inHand
    rw [hsub.worker]
    exact inHand_none hsub.alone
  refine ⟨hsub.box, _, Channel.start ex.pub, hx', ?_⟩
  rw [hpost]
  refine ⟨?_, (List.append_nil _).symm, rfl, hhand.symm, rfl⟩
  rw [List.count_append, hzero, List.count_singleton_self]

end Feeds

/-- Every live subscription is a channel, from the moment it was made. The
    mailbox names the registration: while the map holds it, the subscriber has
    been live throughout. -/
def Fed (s : System π) : Prop :=
  ∀ x k m pending pre post, s.trace = pre ++ .subscribed x k (some m) pending :: post →
    (∀ ev ∈ pre ++ post, ev.subscribes x k = false) →
      m < s.nextBox ∧ (s.mboxes.lookup k = some m →
        ∃ ex c, s.exchanges.lookup x = some ex ∧ Feeds s x k m ex pending post c)

theorem step_fed {cfg : Config} {s s' : System π} {a : Action π} (hs : step cfg s a = some s')
    (hreg : Registered s) (hrel : Relayed s) (h : Fed s) : Fed s' := by
  intro x k m pending pre post htr honce
  have hrule := exchangeRule_of_stepRule (stepRule_of_step hs).2
  rcases step_mboxes hs hreg with ⟨hnext, hboxes⟩
  rcases step_grows hs hreg with ⟨evs, hevs, _⟩
  rcases split_of_append (hevs.symm.trans htr) with ⟨post', hold, hpost⟩ | ⟨pre', hpre, hnew⟩
  · -- An old subscription: the channel makes one move, or none.
    subst hpost
    have honce' : ∀ ev ∈ pre ++ post', ev.subscribes x k = false := by
      intro ev hev
      refine honce ev ?_
      rw [← List.append_assoc]
      exact List.mem_append_left _ hev
    have hnot : ∀ ev ∈ evs, ev.subscribes x k = false := fun ev hev =>
      honce ev (List.mem_append_right _ (List.mem_append_right _ hev))
    rcases h x k m pending pre post' hold honce' with ⟨hlt, hfeeds⟩
    refine ⟨Nat.lt_of_lt_of_le hlt hnext, fun hbox => ?_⟩
    have hbox' : s.mboxes.lookup k = some m := by
      rcases hboxes k m hbox with hb | hb
      · exact hb
      · rw [hb] at hlt
        exact absurd hlt (Nat.lt_irrefl _)
    rcases hfeeds hbox' with ⟨ex, c, hx, hf⟩
    have hk : k ∈ ex.subscribes := List.count_pos_iff.mp (by rw [hf.once]; exact Nat.one_pos)
    rcases feeds_step (exchangeRule_feeding hrule hreg hbox' hx hk hevs hnot) hrel
      (step_relayed hs hrel) hx hf with ⟨ex', c', hx', hf', _⟩
    exact ⟨ex', c', hx', hf'⟩
  · -- The subscription is this step.
    have hnot : ∀ ev ∈ s.trace, ev.subscribes x k = false := by
      intro ev hev
      refine honce ev (List.mem_append_left _ ?_)
      rw [hpre]
      exact List.mem_append_left _ hev
    rcases subscribe_feeds hrule hrel hevs hnew hnot with ⟨hbox, hfeeds⟩
    exact ⟨Nat.lt_of_lt_of_le (mbox_lt hreg.toFiled hbox) hnext, fun _ => hfeeds⟩

theorem fed_usrRoot {s : System π} (r : ActorAddress) (h : Fed s) :
    Fed { s with usrRoot := r } := by
  intro x k m pending pre post htr honce
  rcases h x k m pending pre post htr honce with ⟨hlt, hfeeds⟩
  refine ⟨hlt, fun hbox => ?_⟩
  rcases hfeeds hbox with ⟨ex, c, hx, hf⟩
  exact ⟨ex, c, hx, ⟨hf.once, hf.arrived, hf.handed, hf.claimed, hf.queued⟩⟩

theorem reach_fed {cfg : Config} {name : String} {C : System π → Action π → Prop} {s : System π}
    (h : (context cfg name).Reach C s) : Fed s := by
  have hall : Registered s ∧ Relayed s ∧ Fed s := by
    refine always (fun s => Registered s ∧ Relayed s ∧ Fed s)
      ⟨registered_constructed name, relayed_constructed name, fun x k m p pre post htr => ?_⟩
      (fun s r h => ⟨registered_usrRoot r h.1,
        relayed_of_same (s := s) ⟨rfl, rfl, grows_refl⟩ h.2.1, fed_usrRoot r h.2.2⟩)
      (fun s a s' hs h => ⟨step_registered hs h.1, step_relayed hs h.2.1,
        step_fed hs h.1 h.2.1 h.2.2⟩) h
    exact absurd htr (by simp [constructed])
  exact hall.2.2

/-- Only subscribers' mailboxes change in a pass. -/
theorem workerRule_boxes {s s' : System π} (hr : WorkerRule s s') (hreg : Registered s)
    (hrel : Relayed s) {k : IdT} {m : MailboxPtr} (hbox : s.mboxes.lookup k = some m)
    (hk : ∀ x ex, s.exchanges.lookup x = some ex → k ∉ ex.subscribes) :
    s'.boxes m = s.boxes m := by
  cases hr with
  | deliver x e j ids todo m' hw hm =>
      rcases hrel.inHand x e _ todo hw with ⟨_, ex, hex, hids⟩
      have hne : m ≠ m' := by
        intro h
        rw [← h] at hm
        have hjk : j = k := mboxes_inj hreg.toFiled hm hbox
        exact hk x ex hex (hids.subset (by rw [hjk]; exact List.mem_cons_self))
      exact Function.update_of_ne hne _ _
  | post todo rm m' d p hw hp => rw [userPost_rest]
  | _ => rfl

/-- Exchange delivery. For an actor that subscribed to `x` once, while live,
    and is still live, the exchange exists, and outside the fan-out what was
    pushed to its mailbox from `x` since, followed by the queue, is what was
    pending then followed by what was published since. No worker step changes
    the mailbox of an actor that is on no list. -/
theorem exchange_delivery {cfg : Config} {name : String} {s : System π}
    (h : (context cfg name).Reach Machine.free s) :
    (∀ x k m pending pre post, s.trace = pre ++ .subscribed x k (some m) pending :: post →
      (∀ ev ∈ pre ++ post, ev.subscribes x k = false) → s.mboxes.lookup k = some m →
        ∃ ex, s.exchanges.lookup x = some ex ∧ (s.fanningOut = false →
          post.filterMap (Event.fanned? x m) ++ ex.pub =
            pending ++ post.filterMap (Event.published? x))) ∧
    ∀ st s', step cfg s (.worker st) = some s' → ∀ k m, s.mboxes.lookup k = some m →
      (∀ x ex, s.exchanges.lookup x = some ex → k ∉ ex.subscribes) → s'.boxes m = s.boxes m := by
  have hreg : Registered s := reach_registered h
  have hrel : Relayed s := reach_relayed h
  refine ⟨fun x k m pending pre post htr honce hbox => ?_, fun st s' hs k m hbox hk => ?_⟩
  · rcases (reach_fed h x k m pending pre post htr honce).2 hbox with ⟨ex, c, hx, hf⟩
    refine ⟨ex, hx, fun hfan => ?_⟩
    have hclaimed : c.claimed = none := hf.claimed.trans (inHand_none hfan)
    have hexact := c.exact
    rw [hclaimed, Option.toList_none, List.append_nil] at hexact
    rw [← hf.handed, ← hf.queued, ← hf.arrived, hexact]
  · cases (stepRule_of_step hs).2 with
    | worker st s' hr => exact workerRule_boxes hr hreg hrel hbox hk

/-- An actor subscribes, a message is published, and a pass relays it. -/
def relayRun : List (Action Nat) :=
  register "a" .null 3 ++ runStarts 4 ++
    [.call (.subscribeToExchange ⟨⟨4⟩, "/root/usr/a"⟩ "x"),
      .call (.publishToExchange "x" ⟨some 0, .null⟩),
      .worker (.tryFanOut true), .worker (.nextExchange "x"), .worker .popPub, .worker .deliver,
      .worker .deliver, .worker .popPub, .worker .endFanOut, .worker (.tryScan false)]

theorem exchange_delivery_relayRun :
    ∃ ex, ((context (.plain 1) "ctx").after relayRun).exchanges.lookup "x" = some ex ∧
      (((context (.plain 1) "ctx").after relayRun).fanningOut = false →
        (((context (.plain 1) "ctx").after relayRun).trace.drop 21).filterMap
            (Event.fanned? "x" 3) ++ ex.pub =
          [] ++ (((context (.plain 1) "ctx").after relayRun).trace.drop 21).filterMap
            (Event.published? "x")) :=
  (exchange_delivery (Machine.reach_after relayRun)).1 "x" ⟨4⟩ 3 []
    (((context (.plain 1) "ctx").after relayRun).trace.take 20) _ rfl (by decide) rfl

end Yaaf
