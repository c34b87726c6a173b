import Yaaf.Library.Multicast
import Yaaf.Theory.Delivery

/-!
# One Order for All Mailboxes

A pass of the worker pushes a message to one subscriber after the other, and user
threads pop from the mailboxes meanwhile. Whoever looks at the pushes alone cannot
tell that the worker took its time: from the pop on, nothing else is pushed anywhere
until the last subscriber has its copy, because `send_envelope` needs `_locker` and the
worker has it. So a message of an exchange reaches its subscribers at once, a message
that is sent reaches its mailbox, and every mailbox has got what it got in the one
order of these casts.

That holds over all exchanges and all sends together. If two actors get two messages
each, by whatever way, they do not get them in different orders.

## Main definitions

* `System.received`, `System.due`: What a mailbox has got, and what it is about to get.
* `System.castBy`: The casts of a step.
* `System.pubOf`, `relayedFrom`: The queue of an exchange, and what left it.

## Theorems

* `step_casts`: A step adds its casts to what the mailboxes got or are about to get.
* `step_relayedFrom`: What leaves an exchange was published there, in this order.
* `context_refines_multicast`: A run does, so there is one order.
-/

namespace Yaaf

open Trace

variable {π : Type}

/-- What an event brings to a mailbox, and the exchange it comes from. -/
def Event.brings (m : MailboxPtr) : Event π → Option (Option String × Stored π)
  | .pushed m' e x => if m' = m then some (x, e) else none
  | _ => none

/-- Everything a mailbox has got, in order. -/
def System.received (s : System π) (m : MailboxPtr) : List (Option String × Stored π) :=
  s.trace.filterMap (Event.brings m)

/-- The mailboxes of some subscribers. -/
def System.targets (s : System π) (ids : List IdT) : List MailboxPtr :=
  ids.filterMap s.mboxes.lookup

/-- What the worker has in its hand for a mailbox. -/
def System.due (s : System π) (m : MailboxPtr) : List (Option String × Stored π) :=
  match s.worker with
  | .delivering x e ids _ => List.replicate ((s.targets ids).count m) (some x, e)
  | _ => []

/-- A send, as a cast to one mailbox. -/
def Event.cast? : Event π → Option (Cast MailboxPtr (Option String × Stored π))
  | .pushed m e none => some ⟨(none, e), [m]⟩
  | _ => none

/-- The casts of a step: a message that the worker takes up goes to everybody on the
    list. -/
def System.castBy (s s' : System π) : List (Cast MailboxPtr (Option String × Stored π)) :=
  match s.worker, s'.worker with
  | .draining _ _, .delivering x e ids _ => [⟨(some x, e), s'.targets ids⟩]
  | _, _ => (s'.trace.drop s.trace.length).filterMap Event.cast?

/-- Events that push. -/
def Event.pushes : Event π → Bool
  | .pushed _ _ _ => true
  | _ => false

/-- The queue of an exchange, which is empty if there is none. -/
def System.pubOf (s : System π) (x : String) : List (Stored π) :=
  ((s.exchanges.lookup x).map ExchangeT.pub).getD []

/-- The messages that were cast from an exchange, in order. -/
def relayedFrom (x : String) (cs : List (Cast MailboxPtr (Option String × Stored π))) :
    List (Stored π) :=
  cs.filterMap fun c => if c.content.1 = some x then some c.content.2 else none

/-- Nothing was pushed, and the worker has in its hand what it had. -/
structure Unpushed (s s' : System π) : Prop where
  worker : s'.worker = s.worker
  mboxes : s'.mboxes = s.mboxes ∨ s.fanningOut = false
  trace : Grows (fun ev => ev.pushes = false) s.trace s'.trace

section Rules

variable {cfg : Config} {s s' : System π} {m : MailboxPtr}

theorem pushes_of_quiet {ev : Event π} (h : ev.quiet = true) : ev.pushes = false := by
  cases ev <;> first | rfl | exact absurd h (by simp only [Event.quiet, Bool.false_eq_true,
    not_false_eq_true])

theorem stops_unpushed (hx : s.canExclude = true) (h : Stops cfg s s') : Unpushed s s' := by
  refine ⟨by rw [h.rest], Or.inr (canExclude_fanningOut hx), ?_⟩
  exact stops_grows h (fun _ _ => rfl) fun _ _ _ => rfl

theorem applyRule_unpushed {i : Nat} {t : ApplyTask} {pc : ApplyPc π}
    (h : ApplyRule cfg s i t pc s') : Unpushed s s' := by
  have hquiet : ∀ evs : List (Event π), (∀ ev ∈ evs, ev.quiet = true) →
      Grows (fun ev => ev.pushes = false) s.trace (s.trace ++ evs) :=
    fun evs hevs => ⟨evs, rfl, fun ev hev => pushes_of_quiet (hevs ev hev)⟩
  cases h with
  | entry | popEmpty | pop | updateStatus | resetBusy => exact ⟨rfl, Or.inl rfl, grows_refl⟩
  | callHandler | handlerReturn | handlerThrow => exact ⟨rfl, Or.inl rfl, grows_one rfl⟩
  | halt pc f evs hf hevs | done pc evs hb hevs hend | walk pc pc' evs hb hb' hf hr hevs =>
      exact ⟨rfl, Or.inl rfl, hquiet evs hevs⟩
  | stop pc u hb hx hu =>
      have hstop := stops_unpushed hx hu
      exact ⟨hstop.worker, hstop.mboxes.imp_left id, grows_trans hstop.trace (grows_one rfl)⟩
  | reinit h u hx hu =>
      have hstop := stops_unpushed hx hu
      exact ⟨hstop.worker, hstop.mboxes.imp_left id,
        grows_trans hstop.trace (grows_trans (grows_one rfl) (grows_one rfl))⟩

theorem addRule_unpushed {i : Nat} {c : AddCall} (h : AddRule s i c s') : Unpushed s s' := by
  cases h with
  | insert d hc hx => exact ⟨rfl, Or.inr (canExclude_fanningOut hx), grows_one rfl⟩
  | post m hc =>
      rw [System.postStart, userPost_rest]
      exact ⟨rfl, Or.inl rfl, grows_one rfl⟩
  | _ => exact ⟨rfl, Or.inl rfl, grows_refl⟩

theorem stopRule_unpushed (h : StopRule cfg s s') : Unpushed s s' := by
  cases h with
  | flags | crash => exact ⟨rfl, Or.inl rfl, grows_refl⟩
  | sweep u hj hx hu =>
      have hworker : u.worker = s.worker := by rw [hu.rest]
      exact ⟨hworker, Or.inr (canExclude_fanningOut hx), sweeps_grows hu fun _ _ => rfl⟩

/-- A client call pushes nothing, unless it sends. -/
theorem callRule_unpushed {c : ContextCall π} (h : CallRule cfg s c s') :
    Unpushed s s' ∨ ∃ m e, s.fanningOut = false ∧ s' = s.push m e none := by
  cases h with
  | nothing | crash | create => exact Or.inl ⟨rfl, Or.inl rfl, grows_refl⟩
  | addActor | subscribe | publish => exact Or.inl ⟨rfl, Or.inl rfl, grows_one rfl⟩
  | send target e m e' hx hm he => exact Or.inr ⟨m, e', hx, rfl⟩
  | stop addr u hx hu => exact Or.inl (stops_unpushed hx hu)

/-- A step pushes nothing, or sends, or is one of the worker. -/
theorem pushRule_of_step {a : Action π} (hs : step cfg s a = some s') :
    Unpushed s s' ∨ (∃ m e, s.fanningOut = false ∧ s' = s.push m e none) ∨ WorkerRule s s' := by
  cases (stepRule_of_step hs).2 with
  | call c s' h => exact (callRule_unpushed h).imp_right Or.inl
  | userCall uc uc' c s' hc h => exact (callRule_unpushed h).imp_right Or.inl
  | userNothing => exact Or.inl ⟨rfl, Or.inl rfl, grows_refl⟩
  | add i st c s' hi h => exact Or.inl (addRule_unpushed h)
  | pick t rest hq hn =>
      refine Or.inl ⟨rfl, Or.inl rfl, t.takenEvent, rfl, fun ev hev => ?_⟩
      cases t with
      | onStart a m => rw [List.mem_singleton.mp hev]; rfl
      | apply t => exact absurd hev List.not_mem_nil
  | task i st s' h =>
      cases h with
      | startHalt => exact Or.inl ⟨rfl, Or.inl rfl, grows_refl⟩
      | startReturn => exact Or.inl ⟨rfl, Or.inl rfl, grows_one rfl⟩
      | apply t pc s' hi h => exact Or.inl (applyRule_unpushed h)
  | worker st s' h => exact Or.inr (Or.inr h)
  | stop st s' h => exact Or.inl (stopRule_unpushed h)

theorem brings_none {ev : Event π} (h : ev.pushes = false) : Event.brings m ev = none := by
  cases ev <;> first | rfl | exact absurd h (by simp only [Event.pushes, Bool.true_eq_false,
    not_false_eq_true])

theorem cast?_none {ev : Event π} (h : ev.pushes = false) : ev.cast? = none := by
  cases ev <;> first | rfl | exact absurd h (by simp only [Event.pushes, Bool.true_eq_false,
    not_false_eq_true])

/-- Where the worker does not take up a message, the casts are the sends. -/
theorem castBy_else (evs : List (Event π)) (ht : s'.trace = s.trace ++ evs)
    (hno : ∀ x todo y e ids rest, s.worker = .draining x todo →
      s'.worker ≠ .delivering y e ids rest) :
    s.castBy s' = evs.filterMap Event.cast? := by
  unfold System.castBy
  split
  · rename_i x todo y e ids rest hw hw'
    exact absurd hw' (hno x todo y e ids rest hw)
  · rw [ht, List.drop_left]

theorem due_delivering {x : String} {e : Stored π} {ids : List IdT} {todo : List String}
    (hw : s.worker = .delivering x e ids todo) (m : MailboxPtr) :
    s.due m = List.replicate ((s.targets ids).count m) (some x, e) := by
  unfold System.due
  rw [hw]

theorem due_none (hw : ∀ x e ids todo, s.worker ≠ .delivering x e ids todo) (m : MailboxPtr) :
    s.due m = [] := by
  unfold System.due
  split
  · rename_i x e ids todo hw'
    exact absurd hw' (hw x e ids todo)
  · rfl

theorem due_unlocked (hx : s.fanningOut = false) (m : MailboxPtr) : s.due m = [] := by
  refine due_none (fun x e ids todo hw => ?_) m
  rw [System.fanningOut, hw] at hx
  exact absurd hx Bool.true_eq_false_eq_False

/-- A step that pushes nothing casts nothing. -/
theorem unpushed_casts (h : Unpushed s s') (m : MailboxPtr) :
    s'.received m ++ s'.due m = s.received m ++ s.due m ++ Cast.inbox (s.castBy s') m := by
  rcases h.trace with ⟨evs, ht, hevs⟩
  have hcasts : s.castBy s' = [] := by
    rw [castBy_else evs ht fun x todo y e ids rest hw => by
      rw [h.worker, hw]
      simp only [ne_eq, reduceCtorEq, not_false_eq_true]]
    exact List.filterMap_eq_nil_iff.mpr fun ev hev => cast?_none (hevs ev hev)
  have hreceived : s'.received m = s.received m :=
    filterMap_of_grows _ (fun ev => brings_none) h.trace
  have hdue : s'.due m = s.due m := by
    rcases h.mboxes with hm | hx
    · unfold System.due System.targets
      rw [h.worker, hm]
    · have hx' : s'.fanningOut = false := by
        unfold System.fanningOut at hx ⊢
        rw [h.worker]
        exact hx
      rw [due_unlocked hx, due_unlocked hx']
  rw [hcasts, hreceived, hdue, Cast.inbox, List.flatMap_nil, List.append_nil]

/-- A send is a cast to one mailbox. -/
theorem push_casts {b : MailboxPtr} {e : Stored π} (hx : s.fanningOut = false) (m : MailboxPtr) :
    (s.push b e none).received m ++ (s.push b e none).due m =
      s.received m ++ s.due m ++ Cast.inbox (s.castBy (s.push b e none)) m := by
  have hcasts : s.castBy (s.push b e none) = [⟨(none, e), [b]⟩] :=
    castBy_else [.pushed b e none] rfl fun x todo y e ids rest hw => by
      rw [System.fanningOut, hw] at hx
      exact absurd hx Bool.true_eq_false_eq_False
  have hreceived : (s.push b e none).received m =
      s.received m ++ [Event.pushed b e none].filterMap (Event.brings m) :=
    List.filterMap_append
  rw [hcasts, hreceived, due_unlocked hx, due_unlocked (s := s.push b e none) hx, List.append_nil,
    List.append_nil]
  refine congrArg (s.received m ++ ·) ?_
  by_cases hb : b = m
  · simp [Event.brings, Cast.inbox, Cast.copies, hb]
  · simp [Event.brings, Cast.inbox, Cast.copies, hb]

/-- The worker takes up a message for everybody on the list. -/
theorem pop_casts {x : String} {todo : List String} {ex : ExchangeT π} {e : Stored π}
    {rest : List (Stored π)} (hw : s.worker = .draining x todo) :
    s.castBy { s with
      exchanges := s.exchanges.insert x { ex with pub := rest }
      worker := .delivering x e ex.subscribes todo } =
      [⟨(some x, e), s.targets ex.subscribes⟩] := by
  unfold System.castBy
  rw [hw]
  rfl

/-- While a message is pushed to its subscribers, nothing is cast. -/
theorem delivering_casts {x : String} {e : Stored π} {ids : List IdT} {todo : List String}
    (evs : List (Event π)) (hw : s.worker = .delivering x e ids todo)
    (ht : s'.trace = s.trace ++ evs) : s.castBy s' = evs.filterMap Event.cast? := by
  refine castBy_else evs ht fun y rest z e' ids' rest' h => ?_
  rw [hw] at h
  exact absurd h (by simp only [reduceCtorEq, not_false_eq_true])

/-- What the worker casts is on its way to everybody on the list at once, and it pushes
    what is on its way. -/
theorem worker_casts (h : WorkerRule s s') (m : MailboxPtr) :
    s'.received m ++ s'.due m = s.received m ++ s.due m ++ Cast.inbox (s.castBy s') m := by
  -- A step that pushes nothing and leaves nothing in the worker's hand, before or after.
  have hother : s'.trace = s.trace → (∀ x e ids todo, s.worker ≠ .delivering x e ids todo) →
      (∀ x e ids todo, s'.worker ≠ .delivering x e ids todo) →
      s'.received m ++ s'.due m = s.received m ++ s.due m ++ Cast.inbox (s.castBy s') m := by
    intro ht hw hw'
    have hcasts : s.castBy s' = [] :=
      castBy_else [] (ht.trans (List.append_nil _).symm) fun _ _ y e ids rest _ => hw' y e ids rest
    rw [hcasts, due_none hw, due_none hw', System.received, ht]
    exact (List.append_nil _).symm
  cases h with
  | pop x todo ex e rest hw hx hpub =>
      have hdue : s.due m = [] := due_none (by rw [hw]; simp only [ne_eq, reduceCtorEq,
        not_false_eq_true, implies_true]) m
      rw [pop_casts hw, hdue, List.append_nil]
      refine congrArg (s.received m ++ ·) ?_
      simp only [Cast.inbox, List.flatMap_cons, List.flatMap_nil, List.append_nil]
      exact due_delivering rfl m
  | delivered x e todo hw =>
      have hcasts : s.castBy { s with worker := .draining x todo } = [] :=
        delivering_casts [] hw (List.append_nil _).symm
      rw [hcasts, due_delivering hw]
      exact (List.append_nil _).symm
  | deliverNone x e k ids todo hw hm =>
      have hcasts : s.castBy { s with worker := .delivering x e ids todo } = [] :=
        delivering_casts [] hw (List.append_nil _).symm
      have htargets : s.targets (k :: ids) = s.targets ids := List.filterMap_cons_none hm
      rw [hcasts, due_delivering hw, htargets, due_delivering rfl]
      exact (List.append_nil _).symm
  | deliver x e k ids todo b hw hm =>
      have hcasts : s.castBy { s.push b e (some x) with worker := .delivering x e ids todo } = [] :=
        delivering_casts [.pushed b e (some x)] hw rfl
      have htargets : s.targets (k :: ids) = b :: s.targets ids := List.filterMap_cons_some hm
      have hreceived : System.received
          { s.push b e (some x) with worker := .delivering x e ids todo } m =
          s.received m ++ [Event.pushed b e (some x)].filterMap (Event.brings m) :=
        List.filterMap_append
      have hdue : System.due { s.push b e (some x) with worker := .delivering x e ids todo } m =
          List.replicate ((s.targets ids).count m) (some x, e) := due_delivering rfl m
      rw [hcasts, due_delivering hw, htargets, hdue, hreceived, List.append_assoc]
      refine (congrArg (s.received m ++ ·) ?_).trans (List.append_nil _).symm
      by_cases hb : b = m
      · simp [Event.brings, hb, List.replicate_succ]
      · simp [Event.brings, hb]
  | postCrash | popCrash => exact hother rfl (by simp [*]) (by simp [*, System.crash])
  | post => exact hother (by rw [userPost_rest]) (by simp [*]) (by simp [*])
  | _ =>
      refine hother rfl (fun _ _ _ _ => ?_) (fun _ _ _ _ => ?_)
      · simp only [*, ne_eq, reduceCtorEq, not_false_eq_true]
      · simp only [ne_eq, reduceCtorEq, not_false_eq_true]

/-- A step adds its casts to what the mailboxes got or are about to get. -/
theorem step_casts {a : Action π} (hs : step cfg s a = some s') (m : MailboxPtr) :
    s'.received m ++ s'.due m = s.received m ++ s.due m ++ Cast.inbox (s.castBy s') m := by
  rcases pushRule_of_step hs with h | ⟨b, e, hx, rfl⟩ | h
  · exact unpushed_casts h m
  · exact push_casts hx m
  · exact worker_casts h m

end Rules

section Queues

variable {cfg : Config} {s s' : System π} {x : String}

theorem pubOf_some {ex : ExchangeT π} (hx : s.exchanges.lookup x = some ex) :
    s.pubOf x = ex.pub := by
  rw [System.pubOf, hx]
  rfl

/-- The queues after one exchange was changed. -/
theorem pubOf_insert {y : String} {ex : ExchangeT π}
    (hex : s'.exchanges = s.exchanges.insert y ex) :
    s'.pubOf x = if y = x then ex.pub else s.pubOf x := by
  unfold System.pubOf
  rw [hex]
  by_cases hy : y = x
  · rw [if_pos hy, hy, AList.lookup_insert]
    rfl
  · rw [if_neg hy, AList.lookup_insert_ne (Ne.symm hy)]

theorem relayedFrom_append (cs cs' : List (Cast MailboxPtr (Option String × Stored π))) :
    relayedFrom x (cs ++ cs') = relayedFrom x cs ++ relayedFrom x cs' :=
  List.filterMap_append

/-- A send is from no exchange. -/
theorem relayedFrom_sends (evs : List (Event π)) :
    relayedFrom x (evs.filterMap Event.cast?) = [] := by
  refine List.filterMap_eq_nil_iff.mpr fun c hc => ?_
  rcases List.mem_filterMap.mp hc with ⟨ev, _, hev⟩
  unfold Event.cast? at hev
  split at hev
  · cases hev
    rfl
  · exact absurd hev (by simp only [reduceCtorEq, not_false_eq_true])

/-- What a step takes from an exchange and what it leaves there was there or is published
    now, in this order. -/
def Relays (x : String) (s s' : System π) : Prop :=
  ∃ evs, s'.trace = s.trace ++ evs ∧
    (relayedFrom x (s.castBy s') ++ s'.pubOf x).Sublist
      (s.pubOf x ++ evs.filterMap (Event.published? x))

/-- A step in which the worker takes up nothing. -/
theorem relays_else (evs : List (Event π)) (ht : s'.trace = s.trace ++ evs)
    (hno : ∀ y todo z e ids rest, s.worker = .draining y todo →
      s'.worker ≠ .delivering z e ids rest)
    (hpub : (s'.pubOf x).Sublist (s.pubOf x ++ evs.filterMap (Event.published? x))) :
    Relays x s s' := by
  refine ⟨evs, ht, ?_⟩
  rw [castBy_else evs ht hno, relayedFrom_sends, List.nil_append]
  exact hpub

theorem relays_same (h : SameExchanges s s') : Relays x s s' := by
  rcases h.trace with ⟨evs, ht, _⟩
  refine relays_else evs ht (fun y todo z e ids rest hw => ?_) ?_
  · rw [h.worker, hw]
    simp only [ne_eq, reduceCtorEq, not_false_eq_true]
  · rw [System.pubOf, h.exchanges]
    exact List.sublist_append_left _ _

theorem relays_call {c : ContextCall π} (h : CallRule cfg s c s') : Relays x s s' := by
  -- No call moves the worker.
  have hstay : ∀ y todo z e ids rest, s.worker = .draining y todo →
      s.worker ≠ .delivering z e ids rest := by
    intro y todo z e ids rest hw
    rw [hw]
    simp only [ne_eq, reduceCtorEq, not_false_eq_true]
  cases h with
  | nothing | crash => exact relays_same ⟨rfl, rfl, grows_refl⟩
  | addActor | send => exact relays_same ⟨rfl, rfl, grows_one rfl⟩
  | stop addr u hx hu => exact relays_same (stops_exchanges hu)
  | create c owner name hx hno =>
      refine relays_else [] (List.append_nil _).symm hstay ?_
      rw [pubOf_insert rfl]
      by_cases hname : name = x
      · rw [if_pos hname]
        exact List.nil_sublist _
      · rw [if_neg hname]
        exact List.sublist_append_left _ _
  | subscribe target name ex hx hex hlive =>
      refine relays_else [_] rfl hstay ?_
      rw [pubOf_insert rfl]
      by_cases hname : name = x
      · rw [if_pos hname]
        rcases hex with hex | ⟨_, rfl⟩
        · rw [pubOf_some (hname ▸ hex)]
          exact List.sublist_append_left _ _
        · exact List.nil_sublist _
      · rw [if_neg hname]
        exact List.sublist_append_left _ _
  | publish y e ex e' hex he =>
      refine relays_else [_] rfl hstay ?_
      rw [pubOf_insert rfl]
      by_cases hy : y = x
      · rw [if_pos hy, pubOf_some (hy ▸ hex)]
        simp only [Event.published?, List.filterMap_cons, List.filterMap_nil, hy, if_true]
        exact List.Sublist.refl _
      · rw [if_neg hy]
        exact List.sublist_append_left _ _

theorem relays_worker (h : WorkerRule s s') : Relays x s s' := by
  -- A step that leaves the exchanges and does not take up a message.
  have hother : s'.trace = s.trace → s'.exchanges = s.exchanges →
      (∀ y todo z e ids rest, s.worker = .draining y todo →
        s'.worker ≠ .delivering z e ids rest) → Relays x s s' := by
    intro ht hex hno
    refine relays_else [] (ht.trans (List.append_nil _).symm) hno ?_
    rw [System.pubOf, hex]
    exact List.sublist_append_left _ _
  cases h with
  | pop y todo ex e rest hw hx hpub =>
      refine ⟨[], (List.append_nil _).symm, ?_⟩
      rw [pop_casts hw, pubOf_insert rfl, List.filterMap_nil, List.append_nil]
      by_cases hy : y = x
      · rw [if_pos hy, pubOf_some (hy ▸ hx), hpub]
        simp only [relayedFrom, List.filterMap_cons, List.filterMap_nil, hy, if_true]
        exact List.Sublist.refl _
      · rw [if_neg hy]
        simp only [relayedFrom, List.filterMap_cons, List.filterMap_nil, Option.some.injEq, hy,
          if_false]
        exact List.Sublist.refl _
  | deliver y e k ids todo b hw hm =>
      refine relays_else [.pushed b e (some y)] rfl (fun z todo' w e' ids' rest hw' => ?_) ?_
      · rw [hw] at hw'
        exact absurd hw' (by simp only [reduceCtorEq, not_false_eq_true])
      · exact List.sublist_append_left _ _
  | cleanUp rm hw =>
      refine relays_else [] (List.append_nil _).symm (fun z todo' w e' ids' rest hw' => ?_) ?_
      · rw [hw] at hw'
        exact absurd hw' (by simp only [reduceCtorEq, not_false_eq_true])
      · -- An exchange is thrown away with what is in its queue.
        simp only [System.pubOf, foldl_erase_lookup]
        split
        · exact List.nil_sublist _
        · exact List.sublist_append_left _ _
  | post => exact hother (by rw [userPost_rest]) (by rw [userPost_rest]) (by simp [*])
  | _ => exact hother rfl rfl (by simp [*, System.crash])

theorem step_relayedFrom {a : Action π} (hs : step cfg s a = some s')
    {cs : List (Cast MailboxPtr (Option String × Stored π))}
    (h : (relayedFrom x cs ++ s.pubOf x).Sublist (s.trace.filterMap (Event.published? x))) :
    (relayedFrom x (cs ++ s.castBy s') ++ s'.pubOf x).Sublist
      (s'.trace.filterMap (Event.published? x)) := by
  have hrelays : Relays x s s' := by
    cases exchangeRule_of_stepRule (stepRule_of_step hs).2 with
    | same s' h => exact relays_same h
    | call c s' h => exact relays_call h
    | worker s' h => exact relays_worker h
  rcases hrelays with ⟨evs, ht, hsub⟩
  rw [relayedFrom_append, List.append_assoc, ht, List.filterMap_append]
  have hgrown := h.append (List.Sublist.refl (evs.filterMap (Event.published? x)))
  rw [List.append_assoc] at hgrown
  exact ((List.Sublist.refl _).append hsub).trans hgrown

end Queues

/-- What a mailbox got is what was pushed to it. -/
theorem received_contents (s : System π) (m : MailboxPtr) :
    (s.received m).map Prod.snd = s.pushedTo m := by
  unfold System.received System.pushedTo
  rw [List.map_filterMap]
  refine congrArg (s.trace.filterMap ·) (funext fun ev => ?_)
  cases ev with
  | pushed m' e x =>
      simp only [Event.brings, Event.pushed?]
      split
      · rfl
      · rfl
  | _ => rfl

/-- Nothing has been pushed when `make_context` returns. -/
theorem makeContext_received {cfg : Config} {name : String} (m : MailboxPtr) :
    (makeContext (π := π) cfg name).received m = [] := by
  refine List.filterMap_eq_nil_iff.mpr fun ev hev => ?_
  have hadds := makeContext_trace hev
  cases ev <;> first | rfl | exact absurd hadds Bool.false_ne_true

/-- A context is a medium that takes each message to all its mailboxes at once, in every
    run. What is handled from a mailbox, what is about to be and what waits there is what
    the casts brought it, but for what the worker has in its hand, which is nothing outside
    the fan-out. A message is cast from an exchange once at most, in the order of
    publishing, and two mailboxes get what goes to both in one order. -/
theorem context_refines_multicast {cfg : Config} {name : String} {s : System π}
    {cs : List (Cast MailboxPtr (Option String × Stored π))}
    (h : ((context cfg name).track [] fun s _ s' cs => cs ++ s.castBy s').Reach
      Machine.free (s, cs)) :
    (Cast.machine MailboxPtr (Option String × Stored π)).run (fun _ => []) cs =
      some (fun m => s.received m ++ s.due m) ∧
    (∀ m, (s.received m).map Prod.snd = s.handedFrom m ++ s.inTransit m ++ s.boxes m) ∧
    (s.fanningOut = false → ∀ m, s.due m = []) ∧
    (∀ x, (relayedFrom x cs).Sublist (s.trace.filterMap (Event.published? x))) ∧
    ∀ m m', (Cast.common cs m m').Sublist (s.received m ++ s.due m) ∧
      (Cast.common cs m m').Sublist (s.received m' ++ s.due m') := by
  have hreach : (context cfg name).Reach Machine.free s := Machine.path_track h
  have hboth : (∀ m, s.received m ++ s.due m = Cast.inbox cs m) ∧
      ∀ x, (relayedFrom x cs ++ s.pubOf x).Sublist (s.trace.filterMap (Event.published? x)) := by
    refine Machine.invariant
      (fun q : System π × List (Cast MailboxPtr (Option String × Stored π)) =>
        (∀ m, q.1.received m ++ q.1.due m = Cast.inbox q.2 m) ∧
          ∀ x, (relayedFrom x q.2 ++ q.1.pubOf x).Sublist
            (q.1.trace.filterMap (Event.published? x)))
      ⟨fun m => ?_, fun x => ?_⟩ ?_ h
    · have hidle : (makeContext (π := π) cfg name).fanningOut = false := by
        rw [System.fanningOut, makeContext_quiescent.worker]
      exact congrArg₂ (· ++ ·) (makeContext_received m) (due_unlocked hidle m)
    · have hnone : (makeContext (π := π) cfg name).pubOf x = [] := by
        unfold makeContext
        cases cfg.network <;> rfl
      rw [show ((context cfg name).track [] fun s _ s' cs => cs ++ s.castBy s').start.1 =
        makeContext cfg name from rfl, hnone]
      exact List.nil_sublist _
    · rintro ⟨s, cs⟩ a ⟨s', cs'⟩ _ hstep ⟨hinbox, hpub⟩
      rcases Machine.track_step.mp hstep with ⟨hs, hcs⟩
      simp only at hs hcs hinbox hpub ⊢
      rw [hcs]
      refine ⟨fun m => ?_, fun x => step_relayedFrom hs (hpub x)⟩
      rw [step_casts hs m, hinbox m, Cast.inbox_append]
  have hinboxes : (fun m => s.received m ++ s.due m) = Cast.inbox cs := funext hboth.1
  refine ⟨?_, fun m => ?_, fun hx m => due_unlocked hx m, fun x => ?_, fun m m' => ⟨?_, ?_⟩⟩
  · rw [Cast.run_casts, hinboxes]
    rfl
  · rw [received_contents, mailbox_exact hreach m]
  · exact (List.sublist_append_left _ _).trans (hboth.2 x)
  · rw [hboth.1 m]
    exact Cast.common_sublist cs m m'
  · rw [hboth.1 m', Cast.common_comm]
    exact Cast.common_sublist cs m' m

/-- Two actors subscribe to an exchange, a message is sent to the first and two are
    published; one of the two subscribers is still to get the last of them. -/
def subscribersRun : List (Action Nat) :=
  register "a" .null 3 ++ register "b" .null 4 ++ runStarts 5 ++
    [.call (.subscribeToExchange ⟨⟨4⟩, "/root/usr/a"⟩ "x"),
      .call (.subscribeToExchange ⟨⟨5⟩, "/root/usr/b"⟩ "x"),
      .call (.sendEnvelope ⟨⟨4⟩, "/root/usr/a"⟩ ⟨some 7, .null⟩),
      .call (.publishToExchange "x" ⟨some 0, .null⟩),
      .call (.publishToExchange "x" ⟨some 1, .null⟩),
      .worker (.tryFanOut true), .worker (.nextExchange "x"), .worker .popPub, .worker .deliver,
      .worker .deliver, .worker .deliver, .worker .popPub, .worker .deliver]

/-- Where the run leads, with its casts. -/
def subscribersCasts : System Nat × List (Cast MailboxPtr (Option String × Stored Nat)) :=
  ((context (.plain 1) "ctx").track [] fun s _ s' cs => cs ++ s.castBy s').after subscribersRun

theorem context_refines_multicast_subscribersRun :
    (Cast.common subscribersCasts.2 3 4).Sublist
        (subscribersCasts.1.received 3 ++ subscribersCasts.1.due 3) ∧
      (Cast.common subscribersCasts.2 3 4).Sublist
        (subscribersCasts.1.received 4 ++ subscribersCasts.1.due 4) := by
  have hreach : ((context (.plain 1) "ctx").track [] fun s _ s' cs => cs ++ s.castBy s').Reach
      Machine.free (subscribersCasts.1, subscribersCasts.2) := Machine.reach_after subscribersRun
  exact (context_refines_multicast hreach).2.2.2.2 3 4

example : (Cast.common subscribersCasts.2 3 4).map (fun c => (c.1, c.2.1.payload)) =
    [(some "x", some 0), (some "x", some 1)] := by decide

end Yaaf
