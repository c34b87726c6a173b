import Yaaf.Theory.Exchange

/-!
# Subscribing More Than Once

`subscribe_to_exchange` puts the id of an actor at the end of the list of an
exchange and does not look whether it is there already. An actor that calls it
twice is on the list twice, and the fan-out, which goes down the list for every
message, pushes every message to its mailbox twice.

Nothing takes an id off a list, and an exchange with a live subscriber is never
collected. So the number of times that an actor is on the list after its last
call is what every message is multiplied by from then on. It is one exactly if
the actor was not on the list when it made that call.

## Main definitions

* `System.listed`: How often an actor is on the list of an exchange.
* `Receives`: What an actor on the list has got since some moment.

## Theorems

* `listed_of_subscribed`: An actor that has subscribed stays on the list.
* `receives_of_path`: A run goes on with the same number of copies.
* `subscribing_repeats`: How often an actor gets a message.
-/

namespace Yaaf

open Trace

variable {π : Type}

/-- How often the actor with id `k` is on the list of `x`. -/
def System.listed (s : System π) (x : String) (k : IdT) : Nat :=
  match s.exchanges.lookup x with
  | some ex => ex.subscribes.count k
  | none => 0

/-- The actor with id `k` is on the list of `x` so many times, and this accounts for what
    was pushed to its mailbox in the course of `post`. -/
def Receives (s : System π) (x : String) (k : IdT) (m : MailboxPtr) (n : Nat)
    (pending : List (Stored π)) (post : List (Event π)) : Prop :=
  ∃ ex, s.exchanges.lookup x = some ex ∧ (s.outlet x k ex).share = n ∧
    (s.outlet x k ex).Accounts (pending ++ post.filterMap (Event.published? x))
      (post.filterMap (Event.fanned? x m))

section Steps

variable {cfg : Config} {s s' : System π} {a : Action π} {x : String} {k : IdT}
  {m : MailboxPtr}

theorem listed_of_lookup {ex : ExchangeT π} (hx : s.exchanges.lookup x = some ex) :
    s.listed x k = ex.subscribes.count k := by
  rw [System.listed, hx]

/-- Who has never subscribed is not on the list. -/
theorem listed_zero (hrel : Relayed s) (hnot : ∀ ev ∈ s.trace, ev.subscribes x k = false) :
    s.listed x k = 0 := by
  unfold System.listed
  split
  · rename_i ex hx
    refine List.count_eq_zero.mpr fun hk => ?_
    rcases hrel.listed x ex hx k hk with ⟨ev, hev, hsub⟩
    rw [hnot ev hev] at hsub
    exact Bool.noConfusion hsub
  · rfl

/-- A subscription adds one to the times that the actor is on the list. -/
theorem listed_of_subscribing {mb : Option MailboxPtr} {pending : List (Stored π)}
    {evs : List (Event π)} (h : Subscribing s s' x k mb pending evs) :
    s'.listed x k = s.listed x k + 1 := by
  rcases h.joined with ⟨ex, hex, _, hx'⟩
  rw [listed_of_lookup hx', List.count_append, List.count_singleton_self]
  rcases hex with hex | ⟨hno, hnil⟩
  · rw [listed_of_lookup hex]
  · rw [System.listed, hno, hnil, List.count_nil]

/-- A live actor stays on a list. -/
theorem listed_step (hs : step cfg s a = some s') (hreg : Registered s)
    (hbox : s.mboxes.lookup k = some m) (hlisted : 0 < s.listed x k) : 0 < s'.listed x k := by
  have hrule := exchangeRule_of_stepRule (stepRule_of_step hs).2
  rcases step_grows hs hreg with ⟨evs, hevs, _⟩
  by_cases hnot : ∀ ev ∈ evs, ev.subscribes x k = false
  · cases hx : s.exchanges.lookup x with
    | none =>
        rw [System.listed, hx] at hlisted
        exact absurd hlisted (Nat.lt_irrefl 0)
    | some ex =>
        rw [listed_of_lookup hx] at hlisted
        rcases exchangeRule_feeding hrule hreg hbox hx (List.count_pos_iff.mp hlisted) hevs hnot
          with ⟨ex', hx', hstep⟩
        have hshare : ex'.subscribes.count k = ex.subscribes.count k := Outlet.step_share hstep
        rw [listed_of_lookup hx', hshare]
        exact hlisted
  · -- The step is one more subscription.
    push Not at hnot
    rcases hnot with ⟨ev, hev, hsub⟩
    cases ev with
    | subscribed y j mb pending =>
        simp only [Event.subscribes, ne_eq, Bool.not_eq_false, Bool.and_eq_true,
          decide_eq_true_eq] at hsub
        rcases hsub with ⟨rfl, rfl⟩
        rw [listed_of_subscribing (subscribing_of_rule hrule hevs hev)]
        exact Nat.succ_pos _
    | _ => exact absurd rfl hsub

theorem receives_step {n : Nat} {pending : List (Stored π)} {post evs : List (Event π)}
    (hs : step cfg s a = some s') (hreg : Registered s) (hbox : s.mboxes.lookup k = some m)
    (htrace : s'.trace = s.trace ++ evs) (hnot : ∀ ev ∈ evs, ev.subscribes x k = false)
    (hn : 0 < n) (h : Receives s x k m n pending post) :
    Receives s' x k m n pending (post ++ evs) := by
  rcases h with ⟨ex, hx, hshare, hacc⟩
  have hk : k ∈ ex.subscribes := by
    refine List.count_pos_iff.mp ?_
    rw [← hshare] at hn
    exact hn
  rcases exchangeRule_feeding (exchangeRule_of_stepRule (stepRule_of_step hs).2) hreg hbox hx hk
    htrace hnot with ⟨ex', hx', hstep⟩
  refine ⟨ex', hx', (Outlet.step_share hstep).trans hshare, ?_⟩
  rw [List.filterMap_append, List.filterMap_append, ← List.append_assoc]
  exact Outlet.accounts_step hstep hacc

/-- A subscription begins an account. -/
theorem receives_start {pending : List (Stored π)} {evs : List (Event π)}
    (h : Subscribing s s' x k (some m) pending evs) :
    Receives s' x k m (s.listed x k + 1) pending [] := by
  have hshare := listed_of_subscribing h
  rcases h.joined with ⟨ex, _, rfl, hx'⟩
  rw [listed_of_lookup hx'] at hshare
  have hleft : s'.left x k = [] := by
    rw [left_of_worker h.worker]
    exact left_nil fun y e ids todo => not_delivering h.alone y e ids todo
  refine ⟨_, hx', hshare, ?_⟩
  rw [List.filterMap_nil, List.append_nil]
  exact Outlet.accounts_start (o := s'.outlet x k _) hleft

end Steps

section Runs

variable {cfg : Config} {name : String} {s s' : System π} {x : String} {k : IdT}
  {m : MailboxPtr}

/-- An actor that has subscribed is on the list as long as it lives. The mailbox names the
    registration, as ids could be given twice. -/
theorem listed_of_subscribed (h : (context cfg name).Reach Machine.free s)
    {pending : List (Stored π)} (hmem : Event.subscribed x k (some m) pending ∈ s.trace) :
    m < s.nextBox ∧ (s.mboxes.lookup k = some m → 0 < s.listed x k) := by
  have hall : Registered s ∧ ∀ x k m pending, Event.subscribed x k (some m) pending ∈ s.trace →
      m < s.nextBox ∧ (s.mboxes.lookup k = some m → 0 < s.listed x k) := by
    refine always (fun s => Registered s ∧ ∀ x k m pending,
      Event.subscribed x k (some m) pending ∈ s.trace → m < s.nextBox ∧
        (s.mboxes.lookup k = some m → 0 < s.listed x k))
      ⟨registered_constructed name, fun x k m pending hmem => absurd hmem List.not_mem_nil⟩
      (fun s r h => ⟨registered_usrRoot r h.1, h.2⟩) (fun s a s' hs h => ?_) h
    refine ⟨step_registered hs h.1, fun x k m pending hmem => ?_⟩
    rcases step_mboxes hs h.1 with ⟨hnext, hboxes⟩
    rcases step_grows hs h.1 with ⟨evs, hevs, _⟩
    rw [hevs] at hmem
    rcases List.mem_append.mp hmem with hold | hnew
    · rcases h.2 x k m pending hold with ⟨hlt, hlisted⟩
      refine ⟨Nat.lt_of_lt_of_le hlt hnext, fun hbox => ?_⟩
      rcases hboxes k m hbox with hbox' | hfresh
      · exact listed_step hs h.1 hbox' (hlisted hbox')
      · exact absurd hlt (by rw [hfresh]; exact Nat.lt_irrefl _)
    · have hsub := subscribing_of_rule (exchangeRule_of_stepRule (stepRule_of_step hs).2) hevs hnew
      refine ⟨Nat.lt_of_lt_of_le (mbox_lt h.1.toFiled hsub.box) hnext, fun _ => ?_⟩
      rw [listed_of_subscribing hsub]
      exact Nat.succ_pos _
  exact hall.2 x k m pending hmem

/-- A run in which the actor does not subscribe again goes on with the same account. -/
theorem receives_of_path (h : (context cfg name).Reach Machine.free s) {n : Nat} (hn : 0 < n)
    {pending : List (Stored π)} (hbox : m < s.nextBox) (hstart : Receives s x k m n pending [])
    (hp : (context cfg name).Path Machine.free s s') :
    ∃ post, s'.trace = s.trace ++ post ∧ m < s'.nextBox ∧
      ((∀ ev ∈ post, ev.subscribes x k = false) → s'.mboxes.lookup k = some m →
        Receives s' x k m n pending post) := by
  induction hp with
  | refl => exact ⟨[], (List.append_nil _).symm, hbox, fun _ _ => hstart⟩
  | @tail u v a hpu _ hs ih =>
      rcases ih with ⟨post, hpost, hlt, hacc⟩
      have hreg : Registered u := reach_registered (Machine.path_trans h hpu)
      rcases step_mboxes hs hreg with ⟨hnext, hboxes⟩
      rcases step_grows hs hreg with ⟨evs, hevs, _⟩
      refine ⟨post ++ evs, ?_, Nat.lt_of_lt_of_le hlt hnext, fun hnot hlive => ?_⟩
      · rw [hevs, hpost, List.append_assoc]
      · have hlive' : u.mboxes.lookup k = some m := by
          rcases hboxes k m hlive with hlive' | hfresh
          · exact hlive'
          · exact absurd hlt (by rw [hfresh]; exact Nat.lt_irrefl _)
        exact receives_step hs hreg hlive' hevs
          (fun ev hev => hnot ev (List.mem_append_right _ hev)) hn
          (hacc (fun ev hev => hnot ev (List.mem_append_left _ hev)) hlive')

/-- In every run, when an actor has called `subscribe_to_exchange` for the last time and is
    live since, each message that was popped of the exchange since is pushed to its mailbox
    once for every time that the actor is on the list, which is once more than it was before
    the call. So each is pushed once if and only if it was not on the list, as an actor that
    had subscribed already was, and one whose id had never been subscribed was not. -/
theorem subscribing_repeats {s₁ s₂ : System π} {a : Action π}
    (h : (context cfg name).Reach Machine.free s) (hs : step cfg s a = some s₁)
    {pending : List (Stored π)}
    (hcall : s₁.trace = s.trace ++ [.subscribed x k (some m) pending])
    (hp : (context cfg name).Path Machine.free s₁ s₂) {post : List (Event π)}
    (htrace : s₂.trace = s₁.trace ++ post) (hlast : ∀ ev ∈ post, ev.subscribes x k = false)
    (hlive : s₂.mboxes.lookup k = some m) :
    ((∃ earlier, .subscribed x k (some m) earlier ∈ s.trace) → 0 < s.listed x k) ∧
      ((∀ ev ∈ s.trace, ev.subscribes x k = false) → s.listed x k = 0) ∧
        ∃ ex popped, s₂.exchanges.lookup x = some ex ∧
          pending ++ post.filterMap (Event.published? x) = popped ++ ex.pub ∧
            post.filterMap (Event.fanned? x m) ++ s₂.left x k =
              Outlet.repeated (s.listed x k + 1) popped ∧
                (s₂.fanningOut = false →
                  (post.filterMap (Event.fanned? x m) = popped ↔
                    s.listed x k = 0 ∨ popped = [])) := by
  have hreg : Registered s := reach_registered h
  have hsub := subscribing_of_rule (exchangeRule_of_stepRule (stepRule_of_step hs).2) hcall
    (List.mem_singleton.mpr rfl)
  refine ⟨fun ⟨earlier, hmem⟩ => (listed_of_subscribed h hmem).2 hsub.box,
    listed_zero (reach_relayed h), ?_⟩
  have hlt : m < s₁.nextBox :=
    Nat.lt_of_lt_of_le (mbox_lt hreg.toFiled hsub.box) (step_mboxes hs hreg).1
  have h₁ : (context cfg name).Reach Machine.free s₁ := Machine.Path.tail a h trivial hs
  rcases receives_of_path h₁ (Nat.succ_pos _) hlt (receives_start hsub) hp with
    ⟨post', hpost', _, hreceives⟩
  have heq : post = post' := List.append_cancel_left (htrace.symm.trans hpost')
  subst heq
  rcases hreceives hlast hlive with ⟨ex, hx, hshare, popped, harrived, hhanded⟩
  rw [hshare] at hhanded
  refine ⟨ex, popped, hx, harrived, hhanded, fun hout => ?_⟩
  have hleft : s₂.left x k = [] := left_nil fun y e ids todo => not_delivering hout y e ids todo
  have hhanded' : post.filterMap (Event.fanned? x m) =
      Outlet.repeated (s.listed x k + 1) popped := by
    rw [← hhanded, System.outlet, hleft, List.append_nil]
  rw [hhanded', Outlet.repeated_eq_iff, Nat.add_eq_right]

end Runs

/-- An actor is registered and has started. -/
def ready : System Nat :=
  (context (.plain 1) "ctx").after (register "a" .null 3 ++ runStarts 4)

/-- It subscribes so many times. -/
def subscribeTimes (n : Nat) : System Nat :=
  (context (.plain 1) "ctx").onward ready
    (List.replicate n (.call (.subscribeToExchange ⟨⟨4⟩, "/root/usr/a"⟩ "x")))

/-- A message is published, and a pass goes down the list. -/
def relayTimes (n : Nat) : System Nat :=
  (context (.plain 1) "ctx").onward (subscribeTimes n)
    ([.call (.publishToExchange "x" ⟨some 0, .null⟩), .worker (.tryFanOut true),
      .worker (.nextExchange "x"), .worker .popPub] ++
        List.replicate (n + 1) (.worker .deliver) ++
          [.worker .popPub, .worker .endFanOut, .worker (.tryScan false)])

/-- Who subscribes once gets the message once. -/
theorem subscribing_repeats_once : ∃ ex popped,
    (relayTimes 1).exchanges.lookup "x" = some ex ∧
      [] ++ ((relayTimes 1).trace.drop 21).filterMap (Event.published? "x") = popped ++ ex.pub ∧
        ((relayTimes 1).trace.drop 21).filterMap (Event.fanned? "x" 3) = popped := by
  have hpath : (context (.plain 1) "ctx").Path Machine.free (subscribeTimes 1) (relayTimes 1) :=
    Machine.path_onward _ _
  have hreach : (context (.plain 1) "ctx").Reach Machine.free ready := Machine.reach_after _
  have hs : step (.plain 1) ready
      (.call (.subscribeToExchange ⟨⟨4⟩, "/root/usr/a"⟩ "x")) = some (subscribeTimes 1) := rfl
  have hcall : (subscribeTimes 1).trace = ready.trace ++ [.subscribed "x" ⟨4⟩ (some 3) []] := rfl
  have hpost : (relayTimes 1).trace = (subscribeTimes 1).trace ++ (relayTimes 1).trace.drop 21 :=
    rfl
  rcases subscribing_repeats hreach hs hcall hpath hpost (by decide) rfl with
    ⟨_, hzero, ex, popped, hx, hsplit, _, hiff⟩
  exact ⟨ex, popped, hx, hsplit, (hiff rfl).mpr (Or.inl (hzero (by decide)))⟩

/-- Who subscribes twice gets it twice. -/
theorem subscribing_repeats_twice : ∃ (s : System Nat) (x : String) (k : IdT) (m : MailboxPtr)
    (pre post : List (Event Nat)) (e : Stored Nat),
      (context (.plain 1) "ctx").Reach Machine.free s ∧
        s.trace = pre ++ .subscribed x k (some m) [] :: post ∧
          (∀ ev ∈ post, ev.subscribes x k = false) ∧ s.mboxes.lookup k = some m ∧
            s.fanningOut = false ∧
              post.filterMap (Event.published? x) = [e] ∧
                post.filterMap (Event.fanned? x m) = [e, e] := by
  have hreach : (context (.plain 1) "ctx").Reach Machine.free (relayTimes 2) :=
    Machine.path_trans (Machine.reach_after _)
      (Machine.path_trans (Machine.path_onward _ _) (Machine.path_onward _ _))
  exact ⟨relayTimes 2, "x", ⟨4⟩, 3, (relayTimes 2).trace.take 21, (relayTimes 2).trace.drop 22,
    ⟨⟨some 0, .null⟩, rfl⟩, hreach, rfl, by decide, rfl, rfl, rfl, rfl⟩

end Yaaf
