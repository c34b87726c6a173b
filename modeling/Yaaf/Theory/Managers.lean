import Yaaf.Core.ThreadManager
import Yaaf.Theory.Waiters
import Yaaf.Theory.Barrier

/-!
# What a Manager Adds to Its Pools

Every pool of a manager is a pool: what was shown of every run of a pool holds of
each of them, whatever the manager does to the others meanwhile. On top of this the
manager promises three things.

A task runs on a thread of the kind it was posted for, and on no thread that the
pool of this kind does not have.

A call of `flush` that returns has flushed one pool after the other, and each of
these calls was a barrier for its pool. So what was posted to any of the pools
before the call of the manager is done by the time it returns.

And once a call of `stop` has returned, every thread of every pool has returned,
nothing happens in any pool any more and no post reaches one.

## Main definitions

* `ManagerRule`: A step of the manager, with what let it happen.
* `PoolsRule`, `FlushesRule`, `LoopRule`: The same, as far as the pools, the calls of
  `flush` and the loop of `stop` can tell.
* `Managed`: What holds of the pools, living or dropped.
* `FlushSound`, `PastManagerFlushes`: What a call of `flush` has done, and did.
* `StopSound`: What a call of `stop` has done.

## Theorems

* `managerRule_of_step`: Every step is one of these.
* `manager_routes`: The pools are pools, and tasks run where they were posted to.
* `manager_flush_is_barrier`: `flush` is a barrier for all pools.
* `manager_stop_is_final`: After `stop` nothing happens.
-/

namespace Yaaf.Async

open Machine ThreadsPool ThreadManager

/-- An event of the pool of the kind `k`. -/
def ManagerEvent.inPool? (k : UInt16) : ManagerEvent → Option PoolEvent
  | .inPool k' ev => if k' = k then some ev else none
  | _ => none

/-- Events that no pool has a part in. -/
def ManagerEvent.outside : ManagerEvent → Bool
  | .handed _ _ | .inPool _ _ => false
  | _ => true

/-- The pool of a kind, living or dropped. -/
def ThreadManager.Has (m : ThreadManager) (k : UInt16) (q : ManagedPool) : Prop :=
  m.pools.lookup k = some q ∨ m.dropped.lookup k = some q

/-- A step of the manager, with what let it happen. -/
inductive ManagerRule (m m' : ThreadManager) : Prop
  | pool (k : UInt16) (b : PoolStep) (hb : b.inner = true) (h : m.onPool k b = some m')
  | refuse (k : UInt16) (t : TaskWrapper) (h : m' = m.addEvent (.refused k t))
  | pass (k : UInt16) (t : TaskWrapper) (h : m' = { m with calling := m.calling ++ [(k, t)] })
  | unknown (j : Nat) (k : UInt16) (t : TaskWrapper)
      (h : m' =
        ThreadManager.addEvent { m with calling := m.calling.eraseIdx j } (.unknownKind k t))
  | hand (j : Nat) (k : UInt16) (t : TaskWrapper)
      (h : (ThreadManager.addEvent { m with calling := m.calling.eraseIdx j }
        (.handed k t)).onPool k (.postBegin t) = some m')
  | stopAgain (hst : m.stoped = true)
      (h : m' = ThreadManager.addEvent { m with stopingBegin := true } .stopReturned)
  | stopStart (hst : m.stoped = false)
      (h : m' = { m with stopingBegin := true, stopping := some (m.pools.keys, none) })
  | stopPool (k : UInt16) (todo : List UInt16) (hloop : m.stopping = some (todo, none))
      (h : ThreadManager.onPool { m with stopping := some (todo.erase k, some k) } k .stopBegin =
        some m')
  | stopJoined (k : UInt16) (todo : List UInt16) (hloop : m.stopping = some (todo, some k))
      (h : ThreadManager.onPool { m with stopping := some (todo, none) } k .stopEnd = some m')
  | stopClear (hloop : m.stopping = some ([], none))
      (h : m' = ThreadManager.addEvent
        { m with stopping := none, stoped := true, pools := ∅, dropped := m.pools } .stopReturned)
  | flushCall (h : m' = ThreadManager.addEvent
      { m with flushing := m.flushing ++ [⟨m.trace.length, m.pools.keys, none⟩] } .flushCalled)
  | flushPool (j called : Nat) (todo : List UInt16) (k : UInt16) (q : ManagedPool)
      (hj : m.flushing[j]? = some ⟨called, todo, none⟩) (hk : m.pools.lookup k = some q)
      (h : (m.setFlush j ⟨called, todo.erase k, some (k, q.pool.trace.length)⟩).onPool k
        .flushBegin = some m')
  | flushNext (j called : Nat) (todo : List UInt16) (k : UInt16) (n : Nat) (q : ManagedPool)
      (hj : m.flushing[j]? = some ⟨called, todo, some (k, n)⟩) (hk : m.pools.lookup k = some q)
      (hn : .flushReturned n ∈ q.pool.trace)
      (h : m' = m.setFlush j ⟨called, todo, none⟩)
  | flushEnd (j called : Nat) (hj : m.flushing[j]? = some ⟨called, [], none⟩)
      (h : m' = ThreadManager.addEvent { m with flushing := m.flushing.eraseIdx j }
        (.flushReturned called))

/-- Every step is one of these. -/
theorem managerRule_of_step {m m' : ThreadManager} {a : ManagerStep}
    (hs : managerStep m a = some m') : ManagerRule m m' := by
  unfold managerStep at hs
  rw [Option.ite_none_left_eq_some] at hs
  have hs := hs.2
  cases a with
  | pool k b =>
      simp only [Option.ite_none_right_eq_some] at hs
      exact .pool k b hs.1 hs.2
  | postTest k t =>
      simp only at hs
      split at hs <;> rw [Option.some.injEq] at hs
      · exact .refuse k t hs.symm
      · exact .pass k t hs.symm
  | postFind j =>
      simp only at hs
      split at hs
      · rename_i k t hj
        split at hs
        · rw [Option.some.injEq] at hs
          exact .unknown j k t hs.symm
        · exact .hand j k t hs
      · exact absurd hs (by simp only [reduceCtorEq, not_false_eq_true])
  | stopCall =>
      simp only at hs
      split at hs
      · exact absurd hs (by simp only [reduceCtorEq, not_false_eq_true])
      · split at hs <;> rename_i hst <;> rw [Option.some.injEq] at hs
        · exact .stopAgain hst hs.symm
        · exact .stopStart (Bool.eq_false_iff.mpr hst) hs.symm
  | stopPool k =>
      simp only at hs
      split at hs
      · rename_i todo hloop
        rw [Option.ite_none_right_eq_some] at hs
        exact .stopPool k todo hloop hs.2
      · exact absurd hs (by simp only [reduceCtorEq, not_false_eq_true])
  | stopJoined =>
      simp only at hs
      split at hs
      · rename_i todo k hloop
        exact .stopJoined k todo hloop hs
      · exact absurd hs (by simp only [reduceCtorEq, not_false_eq_true])
  | stopClear =>
      simp only at hs
      split at hs
      · rename_i hloop
        rw [Option.some.injEq] at hs
        exact .stopClear hloop hs.symm
      · exact absurd hs (by simp only [reduceCtorEq, not_false_eq_true])
  | flushCall =>
      simp only [Option.some.injEq] at hs
      exact .flushCall hs.symm
  | flushPool j k =>
      simp only at hs
      split at hs
      · rename_i called todo q hj hk
        rw [Option.ite_none_right_eq_some] at hs
        exact .flushPool j called todo k q hj hk hs.2
      · exact absurd hs (by simp only [reduceCtorEq, not_false_eq_true])
  | flushNext j =>
      simp only at hs
      split at hs
      · rename_i called todo k n hj
        split at hs
        · rename_i q hk
          rw [Option.ite_none_right_eq_some, Option.some.injEq] at hs
          exact .flushNext j called todo k n q hj hk hs.1 hs.2.symm
        · exact absurd hs (by simp only [reduceCtorEq, not_false_eq_true])
      · exact absurd hs (by simp only [reduceCtorEq, not_false_eq_true])
  | flushEnd j =>
      simp only at hs
      split at hs
      · rename_i called hj
        rw [Option.some.injEq] at hs
        exact .flushEnd j called hj hs.symm
      · exact absurd hs (by simp only [reduceCtorEq, not_false_eq_true])

/-- A step of the manager, as far as its pools can tell. -/
inductive PoolsRule (m m' : ThreadManager) : Prop
  | same (hp : m'.pools = m.pools) (hd : m'.dropped = m.dropped) (hs : m'.stoped = m.stoped)
      (hl : m'.stopping.isSome = true → m.stopping.isSome = true ∨ m.stoped = false)
      (evs : List ManagerEvent) (ht : m'.trace = m.trace ++ evs)
      (hevs : ∀ ev ∈ evs, ev.outside = true) (hstop : .stopReturned ∈ evs → m.stoped = true)
  | act (k : UInt16) (q : ManagedPool) (a : PoolStep) (u : ThreadsPool) (evs : List ManagerEvent)
      (hk : m.pools.lookup k = some q) (hu : poolStep q.params q.pool a = some u)
      (hp : m'.pools = m.pools.insert k ⟨q.params, u⟩) (hd : m'.dropped = m.dropped)
      (hs : m'.stoped = m.stoped)
      (hl : m'.stopping.isSome = true → m.stopping.isSome = true ∨ m.stoped = false)
      (ht : m'.trace = m.trace ++ evs ++ (u.trace.drop q.pool.trace.length).map (.inPool k))
      (hevs : evs = [] ∧ (∀ t, a ≠ .postBegin t) ∨ ∃ t, a = .postBegin t ∧ evs = [.handed k t])
  | clear (hp : m'.pools = ∅) (hd : m'.dropped = m.pools) (hs : m'.stoped = true)
      (hl : m'.stopping = none) (hloop : m.stopping = some ([], none))
      (ht : m'.trace = m.trace ++ [.stopReturned])

section Rules

variable {m m' : ThreadManager} {a : ManagerStep}

/-- What a step of the pool of a kind does. -/
theorem onPool_some {k : UInt16} {b : PoolStep} (h : m.onPool k b = some m') :
    ∃ q u, m.pools.lookup k = some q ∧ poolStep q.params q.pool b = some u ∧
      m' = { m with
        pools := m.pools.insert k ⟨q.params, u⟩
        trace := m.trace ++ (u.trace.drop q.pool.trace.length).map (.inPool k) } := by
  unfold onPool at h
  split at h
  · rename_i q hq
    rw [Option.map_eq_some_iff] at h
    rcases h with ⟨u, hu, rfl⟩
    exact ⟨q, u, hq, hu, rfl⟩
  · exact absurd h (by simp only [reduceCtorEq, not_false_eq_true])

/-- A step of a pool that is no call of `post`, whatever else changes of the manager. -/
theorem act_of_onPool {n : ThreadManager} {k : UInt16} {b : PoolStep} (h : n.onPool k b = some m')
    (hpools : n.pools = m.pools) (hdropped : n.dropped = m.dropped) (hs : n.stoped = m.stoped)
    (hl : n.stopping.isSome = true → m.stopping.isSome = true ∨ m.stoped = false)
    (htrace : n.trace = m.trace) (hb : ∀ t, b ≠ .postBegin t) : PoolsRule m m' := by
  rcases onPool_some h with ⟨q, u, hq, hu, rfl⟩
  refine .act k q b u [] (hpools ▸ hq) hu (by rw [hpools]) hdropped hs hl ?_ (Or.inl ⟨rfl, hb⟩)
  rw [htrace, List.append_nil]

theorem poolsRule_of_step (hs : managerStep m a = some m') : PoolsRule m m' := by
  have hnil : ∀ ev ∈ ([] : List ManagerEvent), ev.outside = true :=
    fun ev hev => absurd hev List.not_mem_nil
  -- A step that shows at most one event, and that is no event of a pool.
  have hquiet : ∀ {n : ThreadManager} {ev : ManagerEvent}, m' = n.addEvent ev →
      n.pools = m.pools → n.dropped = m.dropped → n.stoped = m.stoped → n.stopping = m.stopping →
      n.trace = m.trace → ev.outside = true → (.stopReturned = ev → m.stoped = true) →
      PoolsRule m m' := by
    intro n ev h hp hd hst hl ht hev hstop
    rw [h]
    refine .same hp hd hst (fun hloop => Or.inl (hl ▸ hloop)) [ev]
      (congrArg (fun l => l ++ [ev]) ht) (fun ev' hmem => ?_) fun hmem => ?_
    · rw [List.mem_singleton.mp hmem, hev]
    · exact hstop (List.mem_singleton.mp hmem)
  have hno : ∀ {ev : ManagerEvent}, ev ≠ .stopReturned → .stopReturned = ev → m.stoped = true :=
    fun hne heq => absurd heq.symm hne
  cases managerRule_of_step hs with
  | pool k b hb h =>
      refine act_of_onPool h rfl rfl rfl Or.inl rfl fun t hpost => ?_
      rw [hpost] at hb
      exact absurd hb Bool.false_ne_true
  | refuse k t h | unknown j k t h =>
      exact hquiet h rfl rfl rfl rfl rfl rfl (hno (by
        simp only [ne_eq, reduceCtorEq, not_false_eq_true]))
  | flushCall h =>
      exact hquiet h rfl rfl rfl rfl rfl rfl (hno (by
        simp only [ne_eq, reduceCtorEq, not_false_eq_true]))
  | flushEnd j called hj h =>
      exact hquiet h rfl rfl rfl rfl rfl rfl (hno (by
        simp only [ne_eq, reduceCtorEq, not_false_eq_true]))
  | stopAgain hst h => exact hquiet h rfl rfl rfl rfl rfl rfl fun _ => hst
  | pass k t h =>
      rw [h]
      exact .same rfl rfl rfl Or.inl [] (List.append_nil _).symm hnil
        fun hmem => absurd hmem List.not_mem_nil
  | flushNext j called todo k n q hj hk hn h =>
      rw [h]
      exact .same rfl rfl rfl Or.inl [] (List.append_nil _).symm hnil
        fun hmem => absurd hmem List.not_mem_nil
  | stopStart hst h =>
      rw [h]
      exact .same rfl rfl rfl (fun _ => Or.inr hst) [] (List.append_nil _).symm hnil
        fun hmem => absurd hmem List.not_mem_nil
  | hand j k t h =>
      -- The call of the pool, and what the pool shows of it.
      rcases onPool_some h with ⟨q, u, hq, hu, rfl⟩
      exact .act k q (.postBegin t) u [.handed k t] hq hu rfl rfl rfl Or.inl rfl
        (Or.inr ⟨t, rfl, rfl⟩)
  | stopPool k todo hloop h | stopJoined k todo hloop h =>
      exact act_of_onPool h rfl rfl rfl (fun _ => Or.inl (by rw [hloop]; rfl)) rfl
        fun t => by simp only [ne_eq, reduceCtorEq, not_false_eq_true]
  | flushPool j called todo k q hj hk h =>
      exact act_of_onPool h rfl rfl rfl Or.inl rfl
        fun t => by simp only [ne_eq, reduceCtorEq, not_false_eq_true]
  | stopClear hloop h =>
      rw [h]
      exact .clear rfl rfl rfl rfl hloop rfl

end Rules

section Pools

variable {p : PoolParams} {s s' : ThreadsPool} {a : PoolStep}

/-- How often a task was posted to the pool, pushes under way included. -/
def offered (s : ThreadsPool) (t : TaskWrapper) : Nat := s.posts t + s.posting.count t

theorem offered_of_rule (hr : PoolRule p s a s') (t : TaskWrapper) :
    offered s' t ≤ offered s t + if a = .postBegin t then 1 else 0 := by
  have hquiet : ∀ (u : ThreadsPool) (ev : PoolEvent), (ev == .posted t) = false →
      offered (u.addEvent ev) t = offered u t :=
    fun u ev hev => congrArg (fun n => n + u.posting.count t) (posts_quiet u hev)
  cases hr with
  | take i u hi hfree hu =>
      refine Nat.le_trans (Nat.le_of_eq (hquiet _ _ rfl)) (Nat.le_add_right _ _)
  | single i u hi | again i u hi | goesOn i u hi | call | done j called hj hz =>
      exact Nat.le_trans (Nat.le_of_eq (hquiet _ _ rfl)) (Nat.le_add_right _ _)
  | accept u ha =>
      simp only [offered, posts, List.count_append, List.count_singleton, ha,
        PoolStep.postBegin.injEq, beq_iff_eq]
      omega
  | push j u hj hfree =>
      have hcount := Slots.countP_eraseIdx hj (fun v => v == t)
      have hposted := posts_posted (pushTask { s with posting := s.posting.eraseIdx j } u) u t
      simp only [offered, List.count] at hcount hposted ⊢
      have hsame :
          (pushTask { s with posting := s.posting.eraseIdx j } u).posts t = s.posts t := rfl
      have hleft : ((pushTask { s with posting := s.posting.eraseIdx j } u).addEvent
          (.posted u)).posting = s.posting.eraseIdx j := rfl
      rw [hposted, hsame, hleft]
      omega
  | _ => exact Nat.le_add_right _ _

/-- What runs in a pool, runs on one of its threads. -/
def BegunHere (p : PoolParams) (s : ThreadsPool) : Prop :=
  ∀ ti t, .runBegin ti t ∈ s.trace →
    ti.kind = p.kind ∧ ti.threadNumber.toNat < p.threadsCount.toNat

theorem begunHere_step (hr : PoolRule p s a s') (hsize : s.threads.length = p.threadsCount.toNat)
    (h : BegunHere p s) : BegunHere p s' := by
  have hnew : ∀ {u : ThreadsPool} {i : Nat} {pc : PoolLogic} {t : TaskWrapper},
      s.threads[i]? = some pc → u.trace = s.trace →
      BegunHere p (u.addEvent (.runBegin ⟨p.kind, UInt64.ofNat i⟩ t)) := by
    intro u i pc t hi htrace ti t' hmem
    rcases List.mem_append.mp hmem with hold | hone
    · exact h ti t' (htrace ▸ hold)
    · have heq := (PoolEvent.runBegin.inj (List.mem_singleton.mp hone)).1
      have hlt : i < p.threadsCount.toNat := hsize ▸ (List.getElem?_eq_some_iff.mp hi).1
      rw [heq]
      refine ⟨rfl, ?_⟩
      rw [UInt64.toNat_ofNat', Nat.mod_eq_of_lt (Nat.lt_trans hlt p.threadsCount.toNat_lt)]
      exact hlt
  have hquiet : ∀ {u : ThreadsPool} {ev : PoolEvent}, (∀ ti t, ev ≠ .runBegin ti t) →
      u.trace = s.trace → BegunHere p (u.addEvent ev) := by
    intro u ev hev htrace ti t hmem
    rcases List.mem_append.mp hmem with hold | hone
    · exact h ti t (htrace ▸ hold)
    · exact absurd (List.mem_singleton.mp hone).symm (hev ti t)
  cases hr with
  | take i t hi | goesOn i t hi => exact hnew hi rfl
  | single | again | call | push | done =>
      exact hquiet (fun _ _ => by simp only [ne_eq, reduceCtorEq, not_false_eq_true]) rfl
  | _ => exact h

theorem begunHere_of_reach {C : ThreadsPool → PoolStep → Prop} (h : (poolMachine p).Reach C s) :
    BegunHere p s :=
  invariant_of (fun u => u.threads.length = p.threadsCount.toNat) (BegunHere p)
    (fun _ hu => (counted_of_reach hu).size) (fun _ _ hmem => absurd hmem List.not_mem_nil)
    (fun _ _ _ _ hstep hsize _ hu => begunHere_step (poolRule_of_step hstep) hsize hu) h

/-- A pool shows what it shows after what it has shown. -/
theorem trace_of_pool (hs : poolStep p s a = some s') :
    s'.trace = s.trace ++ s'.trace.drop s.trace.length := by
  rcases trace_of_rule (poolRule_of_step hs) with htrace | ⟨ev, _, htrace⟩
  · rw [htrace, List.drop_length, List.append_nil]
  · rw [htrace, List.drop_left]

end Pools

/-- What holds of the pool of a kind. -/
structure KeptPool (ps : List PoolParams) (trace : List ManagerEvent) (k : UInt16)
    (q : ManagedPool) : Prop where
  member : q.params ∈ ps
  kind : q.params.kind = k
  reach : (poolMachine q.params).Reach free q.pool
  shown : trace.filterMap (ManagerEvent.inPool? k) = q.pool.trace
  handed : ∀ t, offered q.pool t ≤ trace.count (.handed k t)

/-- What holds of the pools of a manager, living or dropped. -/
structure Managed (ps : List PoolParams) (m : ThreadManager) : Prop where
  kept : ∀ k q, m.Has k q → KeptPool ps m.trace k q
  apart : m.stoped = false → m.dropped = ∅
  gone : m.stoped = true → m.pools = ∅
  looping : m.stopping.isSome = true → m.stoped = false
  seen : ∀ k ev, .inPool k ev ∈ m.trace → ∃ q, m.Has k q
  every : ∀ p ∈ ps, ∃ q, m.Has p.kind q

theorem managed_threadManager (ps : List PoolParams) : Managed ps (threadManager ps) := by
  have hfold : ∀ (l : List PoolParams) (m0 : AList fun _ : UInt16 => ManagedPool),
      (∀ k q, m0.lookup k = some q → q.params ∈ ps ∧ q.params.kind = k ∧
        q.pool = threadsPool q.params) → (∀ p ∈ l, p ∈ ps) →
      (∀ k q, (l.foldl (fun m p => m.insert p.kind ⟨p, threadsPool p⟩) m0).lookup k = some q →
        q.params ∈ ps ∧ q.params.kind = k ∧ q.pool = threadsPool q.params) ∧
      ∀ k, ((m0.lookup k).isSome = true ∨ ∃ p ∈ l, p.kind = k) →
        ((l.foldl (fun m p => m.insert p.kind ⟨p, threadsPool p⟩) m0).lookup k).isSome = true := by
    intro l
    induction l with
    | nil =>
        intro m0 h0 _
        exact ⟨h0, fun k hk => hk.resolve_right fun ⟨p, hp, _⟩ => absurd hp List.not_mem_nil⟩
    | cons p l ih =>
        intro m0 h0 hl
        have hinsert : ∀ k q, (m0.insert p.kind ⟨p, threadsPool p⟩).lookup k = some q →
            q.params ∈ ps ∧ q.params.kind = k ∧ q.pool = threadsPool q.params := by
          intro k q hq
          by_cases hkind : k = p.kind
          · rw [hkind, AList.lookup_insert, Option.some.injEq] at hq
            rw [← hq]
            exact ⟨hl p List.mem_cons_self, hkind.symm, rfl⟩
          · rw [AList.lookup_insert_ne hkind] at hq
            exact h0 k q hq
        rcases ih _ hinsert fun p' hp' => hl p' (List.mem_cons_of_mem p hp') with ⟨hgood, hall⟩
        refine ⟨hgood, fun k hk => hall k ?_⟩
        by_cases hkind : k = p.kind
        · rw [hkind, AList.lookup_insert]
          exact Or.inl rfl
        · rw [AList.lookup_insert_ne hkind]
          refine hk.imp_right fun ⟨p', hp', hpk⟩ => ?_
          rcases List.mem_cons.mp hp' with rfl | hrest
          · exact absurd hpk.symm hkind
          · exact ⟨p', hrest, hpk⟩
  rcases hfold ps ∅ (fun k q hq => absurd hq (by
    simp only [AList.lookup_empty, reduceCtorEq, not_false_eq_true])) fun _ => id with ⟨hgood, hall⟩
  have hdropped : ∀ k q, (threadManager ps).dropped.lookup k ≠ some q := fun k q hq =>
    absurd hq (by simp only [threadManager, AList.lookup_empty, reduceCtorEq, not_false_eq_true])
  refine ⟨fun k q hq => ?_, fun _ => rfl, fun h => absurd h Bool.false_ne_true, fun _ => rfl,
    fun k ev hev => absurd hev List.not_mem_nil, fun p hp => ?_⟩
  · rcases hgood k q (hq.resolve_right (hdropped k q)) with ⟨hmem, hkind, hpool⟩
    refine ⟨hmem, hkind, ?_, ?_, fun t => ?_⟩ <;> rw [hpool]
    · exact .refl _
    · rfl
    · exact Nat.zero_le _
  · rcases Option.isSome_iff_exists.mp (hall p.kind (Or.inr ⟨p, hp, rfl⟩)) with ⟨q, hq⟩
    exact ⟨q, Or.inl hq⟩

/-- What a pool shows, a manager shows. -/
theorem filterMap_inPool (k : UInt16) (evs : List PoolEvent) :
    (evs.map (ManagerEvent.inPool k)).filterMap (ManagerEvent.inPool? k) = evs := by
  rw [List.filterMap_map]
  refine (List.filterMap_congr fun ev _ => ?_).trans List.filterMap_some
  exact if_pos rfl

theorem filterMap_inPool_other {k k' : UInt16} (hk : k' ≠ k) (evs : List PoolEvent) :
    (evs.map (ManagerEvent.inPool k')).filterMap (ManagerEvent.inPool? k) = [] := by
  refine List.filterMap_eq_nil_iff.mpr fun ev hev => ?_
  rcases List.mem_map.mp hev with ⟨e, _, rfl⟩
  exact if_neg hk

theorem filterMap_outside {evs : List ManagerEvent} (hevs : ∀ ev ∈ evs, ev.outside = true)
    (k : UInt16) : evs.filterMap (ManagerEvent.inPool? k) = [] := by
  refine List.filterMap_eq_nil_iff.mpr fun ev hev => ?_
  have hout := hevs ev hev
  cases ev with
  | inPool k' e => exact absurd hout Bool.false_ne_true
  | _ => rfl

section Steps

variable {ps : List PoolParams} {m m' : ThreadManager} {a : ManagerStep}

theorem kept_of_quiet {trace evs : List ManagerEvent} {k : UInt16} {q : ManagedPool}
    (hevs : ∀ ev ∈ evs, ev.outside = true) (h : KeptPool ps trace k q) :
    KeptPool ps (trace ++ evs) k q :=
  { h with
    shown := by
      rw [List.filterMap_append, filterMap_outside hevs, List.append_nil]
      exact h.shown
    handed := fun t => Nat.le_trans (h.handed t) (by
      rw [List.count_append]
      exact Nat.le_add_right _ _) }

/-- What a step of one pool leaves of all that holds of the pools. -/
theorem managed_act {k : UInt16} {q : ManagedPool} {b : PoolStep} {u : ThreadsPool}
    {evs : List ManagerEvent} (hk : m.pools.lookup k = some q)
    (hu : poolStep q.params q.pool b = some u) (hp : m'.pools = m.pools.insert k ⟨q.params, u⟩)
    (hd : m'.dropped = m.dropped) (hstoped : m'.stoped = m.stoped)
    (ht : m'.trace = m.trace ++ evs ++ (u.trace.drop q.pool.trace.length).map (.inPool k))
    (hevs : evs = [] ∧ (∀ t, b ≠ .postBegin t) ∨ ∃ t, b = .postBegin t ∧ evs = [.handed k t])
    (h : Managed ps m) : Managed ps m' := by
  -- A manager with a pool has dropped none.
  have halive : m.stoped = false := by
    cases hst : m.stoped with
    | false => rfl
    | true =>
        rw [h.gone hst, AList.lookup_empty] at hk
        exact absurd hk (by simp only [reduceCtorEq, not_false_eq_true])
  have hnone : ∀ k' q', m'.dropped.lookup k' ≠ some q' := by
    intro k' q' hq'
    rw [hd, h.apart halive, AList.lookup_empty] at hq'
    exact absurd hq' (by simp only [reduceCtorEq, not_false_eq_true])
  have hquiet : ∀ ev ∈ evs, ∀ k', ManagerEvent.inPool? k' ev = none := by
    intro ev hev k'
    rcases hevs with ⟨rfl, _⟩ | ⟨t, _, rfl⟩
    · exact absurd hev List.not_mem_nil
    · rw [List.mem_singleton.mp hev]
      rfl
  have hold := h.kept k q (Or.inl hk)
  refine ⟨fun k' q' hq' => ?_, fun _ => ?_, fun hyes => ?_, fun _ => ?_, fun k' ev hev => ?_,
    fun p hp' => ?_⟩
  · have hq' := hq'.resolve_right (hnone k' q')
    rw [hp] at hq'
    have hno : evs.filterMap (ManagerEvent.inPool? k') = [] :=
      List.filterMap_eq_nil_iff.mpr fun ev hev => hquiet ev hev k'
    by_cases hkk : k' = k
    · subst hkk
      rw [AList.lookup_insert, Option.some.injEq] at hq'
      rw [← hq']
      refine ⟨hold.member, hold.kind, .tail b hold.reach trivial hu, ?_, fun t => ?_⟩
      · rw [ht, List.filterMap_append, List.filterMap_append, hno, List.append_nil,
          filterMap_inPool, hold.shown]
        exact (trace_of_pool hu).symm
      · refine Nat.le_trans (offered_of_rule (poolRule_of_step hu) t) ?_
        rw [ht, List.count_append, List.count_append]
        refine Nat.le_trans (Nat.add_le_add (hold.handed t) ?_) (Nat.le_add_right _ _)
        rcases hevs with ⟨rfl, hb⟩ | ⟨t', rfl, rfl⟩
        · rw [if_neg (hb t)]
          exact Nat.le_refl _
        · by_cases htt : t' = t
          · subst htt
            rw [if_pos rfl, List.count_singleton_self]
          · rw [if_neg fun he => htt (PoolStep.postBegin.inj he)]
            exact Nat.zero_le _
    · rw [AList.lookup_insert_ne hkk] at hq'
      have hother := h.kept k' q' (Or.inl hq')
      refine { hother with shown := ?_, handed := fun t => ?_ }
      · rw [ht, List.filterMap_append, List.filterMap_append, hno, List.append_nil,
          filterMap_inPool_other (fun he => hkk he.symm), List.append_nil]
        exact hother.shown
      · rw [ht, List.append_assoc, List.count_append]
        exact Nat.le_trans (hother.handed t) (Nat.le_add_right _ _)
  · rw [hd]
    exact h.apart halive
  · exact absurd (hstoped.symm.trans hyes) (by rw [halive]; exact Bool.false_ne_true)
  · rw [hstoped, halive]
  · by_cases hkk : k' = k
    · exact ⟨⟨q.params, u⟩, Or.inl (by rw [hp, hkk, AList.lookup_insert])⟩
    · rw [ht] at hev
      rcases List.mem_append.mp hev with hev | hev
      · rcases List.mem_append.mp hev with hev | hev
        · rcases h.seen k' ev hev with ⟨q', hq'⟩
          refine ⟨q', ?_⟩
          rw [ThreadManager.Has, hp, hd, AList.lookup_insert_ne hkk]
          exact hq'
        · have hno := hquiet _ hev k'
          exact absurd ((if_pos rfl).symm.trans hno) (by
            simp only [reduceCtorEq, not_false_eq_true])
      · rcases List.mem_map.mp hev with ⟨e, _, he⟩
        exact absurd (ManagerEvent.inPool.inj he).1.symm hkk
  · by_cases hkk : p.kind = k
    · exact ⟨⟨q.params, u⟩, Or.inl (by rw [hp, hkk, AList.lookup_insert])⟩
    · rcases h.every p hp' with ⟨q', hq'⟩
      refine ⟨q', ?_⟩
      rw [ThreadManager.Has, hp, hd, AList.lookup_insert_ne hkk]
      exact hq'

theorem managed_step (hs : managerStep m a = some m') (h : Managed ps m) : Managed ps m' := by
  cases poolsRule_of_step hs with
  | same hp hd hstoped hl evs ht hevs hstop =>
      have hhas : ∀ k q, m'.Has k q ↔ m.Has k q := fun k q => by
        rw [ThreadManager.Has, ThreadManager.Has, hp, hd]
      refine ⟨fun k q hq => ?_, fun hno => ?_, fun hyes => ?_, fun hloop => ?_, fun k ev hev => ?_,
        fun p hp' => ?_⟩
      · rw [ht]
        exact kept_of_quiet hevs (h.kept k q ((hhas k q).mp hq))
      · rw [hd]
        exact h.apart (hstoped ▸ hno)
      · rw [hp]
        exact h.gone (hstoped ▸ hyes)
      · rw [hstoped]
        exact (hl hloop).elim h.looping id
      · rw [ht] at hev
        rcases List.mem_append.mp hev with hold | hnew
        · rcases h.seen k ev hold with ⟨q, hq⟩
          exact ⟨q, (hhas k q).mpr hq⟩
        · exact absurd (hevs _ hnew) Bool.false_ne_true
      · rcases h.every p hp' with ⟨q, hq⟩
        exact ⟨q, (hhas _ q).mpr hq⟩
  | act k q b u evs hk hu hp hd hstoped hl ht hevs =>
      exact managed_act hk hu hp hd hstoped ht hevs h
  | clear hp hd hstoped hl hloop ht =>
      have halive : m.stoped = false := h.looping (by rw [hloop]; rfl)
      -- What was living is what is dropped.
      have hhas : ∀ k q, m'.Has k q ↔ m.Has k q := by
        intro k q
        rw [ThreadManager.Has, ThreadManager.Has, hp, hd, h.apart halive]
        exact or_comm
      refine ⟨fun k q hq => ?_, fun hno => ?_, fun _ => hp, fun hloop' => ?_, fun k ev hev => ?_,
        fun p hp' => ?_⟩
      · rw [ht]
        exact kept_of_quiet (fun ev hev => by rw [List.mem_singleton.mp hev]; rfl)
          (h.kept k q ((hhas k q).mp hq))
      · exact absurd (hstoped.symm.trans hno) (by decide)
      · exact absurd hloop' (by rw [hl]; exact Bool.false_ne_true)
      · rw [ht] at hev
        rcases List.mem_append.mp hev with hold | hnew
        · rcases h.seen k ev hold with ⟨q, hq⟩
          exact ⟨q, (hhas k q).mpr hq⟩
        · exact absurd (List.mem_singleton.mp hnew) (by
            simp only [reduceCtorEq, not_false_eq_true])
      · rcases h.every p hp' with ⟨q, hq⟩
        exact ⟨q, (hhas _ q).mpr hq⟩

theorem managed_of_reach (h : (managerMachine ps).Reach free m) : Managed ps m :=
  invariant (Managed ps) (managed_threadManager ps) (fun _ _ _ _ hs => managed_step hs) h

end Steps

/-- The pools of a manager are pools, each with its own part of what is seen, and a
    task runs on a thread of the kind it was posted for, which is one of those that
    the pool of this kind has, and only after it was posted for it. -/
theorem manager_routes (ps : List PoolParams) {m : ThreadManager}
    (h : (managerMachine ps).Reach free m) :
    (∀ k q, m.Has k q → q.params ∈ ps ∧ q.params.kind = k ∧
      (poolMachine q.params).Reach free q.pool ∧
      m.trace.filterMap (ManagerEvent.inPool? k) = q.pool.trace) ∧
    ∀ k ti t, .inPool k (.runBegin ti t) ∈ m.trace → ti.kind = k ∧
      (∃ p ∈ ps, p.kind = k ∧ ti.threadNumber.toNat < p.threadsCount.toNat) ∧
      .handed k t ∈ m.trace := by
  have hm : Managed ps m := managed_of_reach h
  refine ⟨fun k q hq => ?_, fun k ti t hrun => ?_⟩
  · have hkept := hm.kept k q hq
    exact ⟨hkept.member, hkept.kind, hkept.reach, hkept.shown⟩
  · rcases hm.seen k _ hrun with ⟨q, hq⟩
    have hkept := hm.kept k q hq
    have hmem : .runBegin ti t ∈ q.pool.trace := by
      rw [← hkept.shown]
      exact List.mem_filterMap.mpr ⟨_, hrun, if_pos rfl⟩
    rcases begunHere_of_reach hkept.reach ti t hmem with ⟨hkind, hnumber⟩
    refine ⟨hkind.trans hkept.kind, ⟨q.params, hkept.member, hkept.kind, hnumber⟩, ?_⟩
    have hposted : 0 < q.pool.posts t := runsPosted_of_reach hkept.reach ti t hmem
    have hhanded := hkept.handed t
    exact List.count_pos_iff.mp (Nat.lt_of_lt_of_le (Nat.lt_of_lt_of_le hposted
      (Nat.le_add_right _ _)) hhanded)

/-- What was posted to the pool before a call of `flush` is done. -/
def Flushed (trace : List ManagerEvent) (called : Nat) (k : UInt16) (q : ManagedPool) : Prop :=
  ∀ t, q.params.priority t ≠ .worker →
    ((trace.take called).filterMap (ManagerEvent.inPool? k)).count (.posted t) ≤
      q.pool.ended t .single

/-- What a call of `flush` under way has done: every pool is still to come, or it waits
    for the call of it that it made, or the pool is flushed. -/
structure FlushSound (m : ThreadManager) (f : ManagerFlush) : Prop where
  called : m.trace[f.called]? = some .flushCalled
  pools : ∀ k q, m.pools.lookup k = some q → k ∈ f.todo ∨
    (∃ n, f.waiting = some (k, n) ∧
      ((m.trace.take f.called).filterMap (ManagerEvent.inPool? k)).length ≤ n) ∨
    Flushed m.trace f.called k q

/-- What the calls of `flush` that returned have done. -/
def PastManagerFlushes (m : ThreadManager) : Prop :=
  ∀ pre called post, m.trace = pre ++ .flushReturned called :: post →
    pre[called]? = some .flushCalled ∧ ∀ k q, m.pools.lookup k = some q →
      ∀ t, q.params.priority t ≠ .worker →
        ((pre.take called).filterMap (ManagerEvent.inPool? k)).count (.posted t) ≤
          (pre.filterMap (ManagerEvent.inPool? k)).countP (PoolEvent.ends t .single)

/-- A step, as far as the calls of `flush` can tell. -/
inductive FlushesRule (m m' : ThreadManager) : Prop
  | same (hf : m'.flushing = m.flushing)
      (ht : Trace.Grows (fun ev => ∀ c, ev ≠ .flushReturned c) m.trace m'.trace)
  | call (hf : m'.flushing = m.flushing ++ [⟨m.trace.length, m.pools.keys, none⟩])
      (hp : m'.pools = m.pools) (ht : m'.trace = m.trace ++ [.flushCalled])
  | enter (j called : Nat) (todo : List UInt16) (k : UInt16) (q : ManagedPool)
      (hj : m.flushing[j]? = some ⟨called, todo, none⟩) (hk : m.pools.lookup k = some q)
      (hf : m'.flushing =
        m.flushing.set j ⟨called, todo.erase k, some (k, q.pool.trace.length)⟩)
      (ht : Trace.Grows (fun ev => ∀ c, ev ≠ .flushReturned c) m.trace m'.trace)
  | leave (j called : Nat) (todo : List UInt16) (k : UInt16) (n : Nat) (q : ManagedPool)
      (hj : m.flushing[j]? = some ⟨called, todo, some (k, n)⟩) (hk : m.pools.lookup k = some q)
      (hn : .flushReturned n ∈ q.pool.trace)
      (hf : m'.flushing = m.flushing.set j ⟨called, todo, none⟩) (hp : m'.pools = m.pools)
      (ht : m'.trace = m.trace)
  | done (j called : Nat) (hj : m.flushing[j]? = some ⟨called, [], none⟩)
      (hf : m'.flushing = m.flushing.eraseIdx j) (hp : m'.pools = m.pools)
      (ht : m'.trace = m.trace ++ [.flushReturned called])

section Flush

variable {ps : List PoolParams} {m m' : ThreadManager} {a : ManagerStep}

/-- A step of a pool returns from no call of the manager. -/
theorem grows_of_onPool {n : ThreadManager} {k : UInt16} {b : PoolStep}
    (h : n.onPool k b = some m') : m'.flushing = n.flushing ∧
      Trace.Grows (fun ev => ∀ c, ev ≠ .flushReturned c) n.trace m'.trace := by
  rcases onPool_some h with ⟨q, u, hq, hu, rfl⟩
  refine ⟨rfl, _, rfl, fun ev hev c => ?_⟩
  rcases List.mem_map.mp hev with ⟨e, _, rfl⟩
  simp only [ne_eq, reduceCtorEq, not_false_eq_true]

theorem flushesRule_of_step (hs : managerStep m a = some m') : FlushesRule m m' := by
  -- A step that shows at most one event, and that is no return of `flush`.
  have hquiet : ∀ {n : ThreadManager} {ev : ManagerEvent}, m' = n.addEvent ev →
      n.flushing = m.flushing → n.trace = m.trace → (∀ c, ev ≠ .flushReturned c) →
      FlushesRule m m' := by
    intro n ev h hf ht hev
    rw [h]
    refine .same hf ?_
    show Trace.Grows _ m.trace (n.trace ++ [ev])
    rw [ht]
    exact Trace.grows_one hev
  have hpool : ∀ {n : ThreadManager} {k : UInt16} {b : PoolStep}, n.onPool k b = some m' →
      n.flushing = m.flushing → n.trace = m.trace → FlushesRule m m' := by
    intro n k b h hf ht
    rcases grows_of_onPool h with ⟨hf', ht'⟩
    exact .same (hf'.trans hf) (ht ▸ ht')
  cases managerRule_of_step hs with
  | pool k b hb h => exact hpool h rfl rfl
  | refuse k t h | unknown j k t h =>
      exact hquiet h rfl rfl fun c => by simp only [ne_eq, reduceCtorEq, not_false_eq_true]
  | stopAgain hst h | stopClear hst h =>
      exact hquiet h rfl rfl fun c => by simp only [ne_eq, reduceCtorEq, not_false_eq_true]
  | pass k t h | stopStart hst h =>
      rw [h]
      exact .same rfl Trace.grows_refl
  | hand j k t h =>
      rcases grows_of_onPool h with ⟨hf, ht⟩
      refine .same hf (Trace.grows_trans (Trace.grows_one fun c => ?_) ht)
      simp only [ne_eq, reduceCtorEq, not_false_eq_true]
  | stopPool k todo hloop h | stopJoined k todo hloop h => exact hpool h rfl rfl
  | flushCall h =>
      rw [h]
      exact .call rfl rfl rfl
  | flushPool j called todo k q hj hk h =>
      rcases grows_of_onPool h with ⟨hf, ht⟩
      exact .enter j called todo k q hj hk hf ht
  | flushNext j called todo k n q hj hk hn h =>
      rw [h]
      exact .leave j called todo k n q hj hk hn rfl rfl rfl
  | flushEnd j called hj h =>
      rw [h]
      exact .done j called hj rfl rfl rfl

/-- What a step adds to what was seen. -/
theorem seen_of_rule (hr : PoolsRule m m') : ∃ evs, m'.trace = m.trace ++ evs := by
  cases hr with
  | same hp hd hs hl evs ht => exact ⟨evs, ht⟩
  | act k q b u evs hk hu hp hd hs hl ht => exact ⟨_, ht.trans (List.append_assoc _ _ _)⟩
  | clear hp hd hs hl hloop ht => exact ⟨_, ht⟩

/-- A pool that is there was there before, and has done no less. -/
theorem pool_before (hr : PoolsRule m m') {k : UInt16} {q' : ManagedPool}
    (hk : m'.pools.lookup k = some q') : ∃ q, m.pools.lookup k = some q ∧ q'.params = q.params ∧
      ∀ t r, q.pool.ended t r ≤ q'.pool.ended t r := by
  cases hr with
  | same hp =>
      rw [hp] at hk
      exact ⟨q', hk, rfl, fun _ _ => Nat.le_refl _⟩
  | act k0 q b u evs hk0 hu hp =>
      rw [hp] at hk
      by_cases hkk : k = k0
      · subst hkk
        rw [AList.lookup_insert, Option.some.injEq] at hk
        rw [← hk]
        refine ⟨q, hk0, rfl, fun t r => ?_⟩
        rw [ended, ended, trace_of_pool hu, List.countP_append]
        exact Nat.le_add_right _ _
      · rw [AList.lookup_insert_ne hkk] at hk
        exact ⟨q', hk, rfl, fun _ _ => Nat.le_refl _⟩
  | clear hp =>
      rw [hp, AList.lookup_empty] at hk
      exact absurd hk (by simp only [reduceCtorEq, not_false_eq_true])

theorem take_called {seen evs : List ManagerEvent} {n : Nat}
    (h : seen[n]? = some .flushCalled) : (seen ++ evs).take n = seen.take n :=
  List.take_append_of_le_length (Nat.le_of_lt (List.getElem?_eq_some_iff.mp h).1)

/-- What a call of `flush` has done stays done. -/
theorem flushSound_of_rule (hr : PoolsRule m m') {f : ManagerFlush} (h : FlushSound m f) :
    FlushSound m' f := by
  rcases seen_of_rule hr with ⟨evs, ht⟩
  have htake : m'.trace.take f.called = m.trace.take f.called := ht ▸ take_called h.called
  refine ⟨?_, fun k q' hk => ?_⟩
  · rw [ht, List.getElem?_append_left (List.getElem?_eq_some_iff.mp h.called).1]
    exact h.called
  · rcases pool_before hr hk with ⟨q, hq, hparams, hdone⟩
    rcases h.pools k q hq with htodo | ⟨n, hwait, hlen⟩ | hflushed
    · exact Or.inl htodo
    · exact Or.inr (Or.inl ⟨n, hwait, htake ▸ hlen⟩)
    · refine Or.inr (Or.inr fun t ht' => ?_)
      rw [htake]
      exact Nat.le_trans (hflushed t (hparams ▸ ht')) (hdone t _)

/-- A call of a pool that returned has flushed it. -/
theorem flushed_of_return (hm : Managed ps m) {k : UInt16} {q : ManagedPool} {called n : Nat}
    (hk : m.pools.lookup k = some q) (hn : .flushReturned n ∈ q.pool.trace)
    (hlen : ((m.trace.take called).filterMap (ManagerEvent.inPool? k)).length ≤ n) :
    Flushed m.trace called k q := by
  intro t ht
  have hkept := hm.kept k q (Or.inl hk)
  rcases List.append_of_mem hn with ⟨pre, post, hsplit⟩
  rcases (flush_is_barrier q.params hkept.reach).2 pre n post hsplit with ⟨hthere, hbarrier⟩
  -- What the manager had seen of the pool is a first part of what the pool had shown.
  have hpre : (m.trace.take called).filterMap (ManagerEvent.inPool? k) <+: pre.take n := by
    have hwhole : (m.trace.take called).filterMap (ManagerEvent.inPool? k) <+: q.pool.trace := by
      rw [← hkept.shown]
      exact (List.take_prefix called m.trace).filterMap _
    have hnpre : n ≤ pre.length := Nat.le_of_lt (List.getElem?_eq_some_iff.mp hthere).1
    have htake : q.pool.trace.take n = pre.take n := by
      rw [hsplit, List.take_append_of_le_length hnpre]
    rw [← htake]
    exact List.prefix_take_iff.mpr ⟨hwhole, hlen⟩
  calc ((m.trace.take called).filterMap (ManagerEvent.inPool? k)).count (.posted t)
      ≤ (pre.take n).count (.posted t) := hpre.sublist.count_le _
    _ ≤ pre.countP (PoolEvent.ends t .single) := hbarrier t ht
    _ ≤ q.pool.ended t .single := by
        rw [ended, hsplit, List.countP_append]
        exact Nat.le_add_right _ _

/-- Every call of `flush` under way has done what it has come to. -/
def FlushesSound (m : ThreadManager) : Prop := ∀ f ∈ m.flushing, FlushSound m f

theorem flushesSound_step (hs : managerStep m a = some m') (hm : Managed ps m)
    (h : FlushesSound m) : FlushesSound m' := by
  have hr := poolsRule_of_step hs
  intro f hf
  cases flushesRule_of_step hs with
  | same hsame => exact flushSound_of_rule hr (h f (hsame ▸ hf))
  | call hcall hp ht =>
      rw [hcall] at hf
      rcases List.mem_append.mp hf with hold | hnew
      · exact flushSound_of_rule hr (h f hold)
      · rw [List.mem_singleton.mp hnew]
        refine ⟨?_, fun k q hk => Or.inl ?_⟩
        · rw [ht]
          exact List.getElem?_concat_length
        · rw [hp] at hk
          exact AList.mem_keys.mpr (AList.lookup_isSome.mp (by rw [hk]; rfl))
  | enter j called todo k q hj hk hset =>
      rw [hset] at hf
      rcases List.mem_or_eq_of_mem_set hf with hold | rfl
      · exact flushSound_of_rule hr (h f hold)
      · have hsound := h _ (List.mem_of_getElem? hj)
        rcases seen_of_rule hr with ⟨evs, ht⟩
        have htake : m'.trace.take called = m.trace.take called := ht ▸ take_called hsound.called
        have hsound' := flushSound_of_rule hr hsound
        refine ⟨hsound'.called, fun k' q' hk' => ?_⟩
        rcases hsound'.pools k' q' hk' with htodo | ⟨n, hwait, _⟩ | hflushed
        · by_cases hkk : k' = k
          -- The pool has shown what the manager has seen of it.
          · refine Or.inr (Or.inl ⟨_, by rw [hkk], ?_⟩)
            show ((m'.trace.take called).filterMap (ManagerEvent.inPool? k')).length ≤ _
            rw [htake, hkk, ← (hm.kept k q (Or.inl hk)).shown]
            exact ((List.take_sublist called m.trace).filterMap _).length_le
          · exact Or.inl ((List.mem_erase_of_ne hkk).mpr htodo)
        · exact absurd hwait (by simp only [reduceCtorEq, not_false_eq_true])
        · exact Or.inr (Or.inr hflushed)
  | leave j called todo k n q hj hk hn hset hp ht =>
      rw [hset] at hf
      rcases List.mem_or_eq_of_mem_set hf with hold | rfl
      · exact flushSound_of_rule hr (h f hold)
      · have hsound := h _ (List.mem_of_getElem? hj)
        refine ⟨ht ▸ hsound.called, fun k' q' hk' => ?_⟩
        rw [hp] at hk'
        rcases hsound.pools k' q' hk' with htodo | ⟨n', hwait, hlen⟩ | hflushed
        · exact Or.inl htodo
        · simp only [Option.some.injEq, Prod.mk.injEq] at hwait
          rcases hwait with ⟨rfl, rfl⟩
          rw [hk, Option.some.injEq] at hk'
          refine Or.inr (Or.inr ?_)
          rw [ht, ← hk']
          exact flushed_of_return hm hk hn hlen
        · exact Or.inr (Or.inr (ht ▸ hflushed))
  | done j called hj herase =>
      rw [herase] at hf
      exact flushSound_of_rule hr (h f (List.mem_of_mem_eraseIdx hf))

theorem pastManagerFlushes_step (hs : managerStep m a = some m') (hm : Managed ps m)
    (hsound : FlushesSound m) (h : PastManagerFlushes m) : PastManagerFlushes m' := by
  have hr := poolsRule_of_step hs
  -- What was seen of the calls that had returned is as it was.
  have hkeep : ∀ pre called post, m.trace = pre ++ .flushReturned called :: post →
      pre[called]? = some .flushCalled ∧ ∀ k q, m'.pools.lookup k = some q →
        ∀ t, q.params.priority t ≠ .worker →
          ((pre.take called).filterMap (ManagerEvent.inPool? k)).count (.posted t) ≤
            (pre.filterMap (ManagerEvent.inPool? k)).countP (PoolEvent.ends t .single) := by
    intro pre called post htrace
    rcases h pre called post htrace with ⟨hthere, hbarrier⟩
    refine ⟨hthere, fun k q' hk t ht => ?_⟩
    rcases pool_before hr hk with ⟨q, hq, hparams, _⟩
    exact hbarrier k q hq t (hparams ▸ ht)
  have hquiet : Trace.Grows (fun ev => ∀ c, ev ≠ .flushReturned c) m.trace m'.trace →
      PastManagerFlushes m' := by
    rintro ⟨evs, ht, hevs⟩ pre called post htrace
    rw [ht] at htrace
    rcases Trace.split_of_append htrace with ⟨post', hpre, _⟩ | ⟨pre', _, hev⟩
    · exact hkeep pre called post' hpre
    · have hmem : ManagerEvent.flushReturned called ∈ evs := by
        rw [hev]
        exact List.mem_append_right _ List.mem_cons_self
      exact absurd rfl (hevs _ hmem called)
  cases flushesRule_of_step hs with
  | same hf ht => exact hquiet ht
  | call hf hp ht =>
      refine hquiet ⟨_, ht, fun ev hev c => ?_⟩
      rw [List.mem_singleton.mp hev]
      simp only [ne_eq, reduceCtorEq, not_false_eq_true]
  | enter j called todo k q hj hk hf ht => exact hquiet ht
  | leave j called todo k n q hj hk hn hf hp ht =>
      exact hquiet ⟨[], ht.trans (List.append_nil _).symm,
        fun ev hev => absurd hev List.not_mem_nil⟩
  | done j called hj hf hp ht =>
      intro pre called' post htrace
      rw [ht] at htrace
      rcases Trace.split_of_append htrace with ⟨post', hpre, _⟩ | ⟨pre', hpre, hev⟩
      · exact hkeep pre called' post' hpre
      · -- The call that returns in this step.
        have hnil : pre' = [] := by
          have hlen := congrArg List.length hev
          rw [List.length_singleton, List.length_append, List.length_cons] at hlen
          exact List.eq_nil_of_length_eq_zero (by omega)
        rw [hnil, List.nil_append, List.cons.injEq, ManagerEvent.flushReturned.injEq] at hev
        rw [hnil, List.append_nil] at hpre
        rw [hpre, ← hev.1]
        have hone := hsound _ (List.mem_of_getElem? hj)
        refine ⟨hone.called, fun k q hk t ht' => ?_⟩
        rw [hp] at hk
        have hflushed : Flushed m.trace called k q := by
          rcases hone.pools k q hk with htodo | ⟨n, hwait, _⟩ | hflushed
          · exact absurd htodo List.not_mem_nil
          · exact absurd hwait (by simp only [reduceCtorEq, not_false_eq_true])
          · exact hflushed
        have hle := hflushed t ht'
        rw [ended, ← (hm.kept k q (Or.inl hk)).shown] at hle
        exact hle

end Flush

/-- `flush` is a barrier for all pools. Whenever a call of it returns, every task that
    is no worker, and that any of the pools was seen to be posted before the call, has
    by then returned `SINGLE` as often, as far as the pools are still there. -/
theorem manager_flush_is_barrier (ps : List PoolParams) {m : ThreadManager}
    (h : (managerMachine ps).Reach free m) : PastManagerFlushes m := by
  refine (invariant_of (Managed ps) (fun m => FlushesSound m ∧ PastManagerFlushes m)
    (fun _ => managed_of_reach) ⟨fun f hf => absurd hf List.not_mem_nil, ?_⟩ ?_ h).2
  · intro pre called post htrace
    exact absurd htrace.symm (by
      simp only [managerMachine, threadManager, List.append_eq_nil_iff, reduceCtorEq, and_false,
        not_false_eq_true])
  · intro m a m' _ hs hm _ hboth
    exact ⟨flushesSound_step hs hm hboth.1, pastManagerFlushes_step hs hm hboth.1 hboth.2⟩

/-- Every worker thread of the pool has returned. -/
def ThreadsPool.Exited (s : ThreadsPool) : Prop := ∀ pc ∈ s.threads, pc = .exited

/-- What a call of `stop` under way has done, and what the ones that returned did. -/
structure StopSound (m : ThreadManager) : Prop where
  loop : ∀ todo cur, m.stopping = some (todo, cur) → ∀ k q, m.pools.lookup k = some q →
    k ∈ todo ∨ cur = some k ∨ q.pool.Exited
  dropped : ∀ k q, m.dropped.lookup k = some q → q.pool.Exited
  past : ∀ pre post, m.trace = pre ++ .stopReturned :: post →
    m.stoped = true ∧ ∀ ev ∈ post, ev.outside = true

/-- A step, as far as the loop of `stop` can tell. -/
inductive LoopRule (m m' : ThreadManager) : Prop
  | same (hl : m'.stopping = m.stopping)
  | start (hl : m'.stopping = some (m.pools.keys, none)) (hp : m'.pools = m.pools)
  | enter (todo : List UInt16) (k : UInt16) (hloop : m.stopping = some (todo, none))
      (hl : m'.stopping = some (todo.erase k, some k))
  | leave (todo : List UInt16) (k : UInt16) (q : ManagedPool) (u : ThreadsPool)
      (hloop : m.stopping = some (todo, some k)) (hk : m.pools.lookup k = some q)
      (hu : poolStep q.params q.pool .stopEnd = some u)
      (hp : m'.pools = m.pools.insert k ⟨q.params, u⟩) (hl : m'.stopping = some (todo, none))
  | clear (hloop : m.stopping = some ([], none)) (hp : m'.pools = ∅)

section Stop

variable {ps : List PoolParams} {m m' : ThreadManager} {a : ManagerStep}

theorem loopRule_of_step (hs : managerStep m a = some m') : LoopRule m m' := by
  have hpool : ∀ {n : ThreadManager} {k : UInt16} {b : PoolStep}, n.onPool k b = some m' →
      m'.stopping = n.stopping := by
    intro n k b h
    rcases onPool_some h with ⟨q, u, _, _, rfl⟩
    rfl
  cases managerRule_of_step hs with
  | pool k b hb h | hand j k t h | flushPool j called todo k q hj hk h =>
      have hl := hpool h
      exact .same hl
  | refuse k t h | pass k t h | unknown j k t h | stopAgain hst h | flushCall h
  | flushNext j called todo k n q hj hk hn h | flushEnd j called hj h =>
      rw [h]
      exact .same rfl
  | stopStart hst h =>
      rw [h]
      exact .start rfl rfl
  | stopPool k todo hloop h => exact .enter todo k hloop (hpool h)
  | stopJoined k todo hloop h =>
      rcases onPool_some h with ⟨q, u, hq, hu, rfl⟩
      exact .leave todo k q u hloop hq hu rfl rfl
  | stopClear hloop h =>
      rw [h]
      exact .clear hloop rfl

/-- A thread that returned stays returned. -/
theorem exited_step {p : PoolParams} {s s' : ThreadsPool} {b : PoolStep}
    (hs : poolStep p s b = some s') (h : s.Exited) : s'.Exited := by
  cases waitRule_of_step hs with
  | still s' hthreads => exact fun pc hpc => h pc (hthreads ▸ hpc)
  | push | stopBegin | stopEnd => exact h
  | logic i st pc s' hi hlogic =>
      rcases turns_of_logic hi hlogic with ⟨pc', hturn⟩
      exact absurd (h pc (List.mem_of_getElem? hi)) hturn.alive

/-- The pools whose threads have returned. -/
theorem exited_of_rule (hr : PoolsRule m m') {k : UInt16} {q' : ManagedPool}
    (hk : m'.pools.lookup k = some q') :
    ∃ q, m.pools.lookup k = some q ∧ (q.pool.Exited → q'.pool.Exited) := by
  cases hr with
  | same hp =>
      rw [hp] at hk
      exact ⟨q', hk, id⟩
  | act k0 q b u evs hk0 hu hp =>
      rw [hp] at hk
      by_cases hkk : k = k0
      · subst hkk
        rw [AList.lookup_insert, Option.some.injEq] at hk
        rw [← hk]
        exact ⟨q, hk0, exited_step hu⟩
      · rw [AList.lookup_insert_ne hkk] at hk
        exact ⟨q', hk, id⟩
  | clear hp =>
      rw [hp, AList.lookup_empty] at hk
      exact absurd hk (by simp only [reduceCtorEq, not_false_eq_true])

/-- The loop of `stop` leaves a pool when its threads have returned. -/
theorem loop_step (hs : managerStep m a = some m') (hm : Managed ps m) (h : StopSound m)
    {todo : List UInt16} {cur : Option UInt16} (hl : m'.stopping = some (todo, cur)) {k : UInt16}
    {q' : ManagedPool} (hk : m'.pools.lookup k = some q') :
    k ∈ todo ∨ cur = some k ∨ q'.pool.Exited := by
  rcases exited_of_rule (poolsRule_of_step hs) hk with ⟨q, hq, hexit⟩
  cases loopRule_of_step hs with
  | same hsame =>
      exact (h.loop todo cur (hsame ▸ hl) k q hq).imp_right (Or.imp_right hexit)
  | start hstart hp =>
      rw [hstart, Option.some.injEq, Prod.mk.injEq] at hl
      rw [← hl.1]
      exact Or.inl (AList.mem_keys.mpr (AList.lookup_isSome.mp (by rw [hq]; rfl)))
  | enter todo' k' hloop henter =>
      rw [henter, Option.some.injEq, Prod.mk.injEq] at hl
      rw [← hl.1, ← hl.2]
      rcases h.loop todo' none hloop k q hq with htodo | hcur | hdone
      · by_cases hkk : k = k'
        · exact Or.inr (Or.inl (by rw [hkk]))
        · exact Or.inl ((List.mem_erase_of_ne hkk).mpr htodo)
      · exact absurd hcur (by simp only [reduceCtorEq, not_false_eq_true])
      · exact Or.inr (Or.inr (hexit hdone))
  | leave todo' k' q0 u hloop hk0 hu hp hleave =>
      rw [hleave, Option.some.injEq, Prod.mk.injEq] at hl
      rw [← hl.1, ← hl.2]
      by_cases hkk : k = k'
      -- `join` of this pool is over.
      · subst hkk
        rw [hp, AList.lookup_insert, Option.some.injEq] at hk
        rw [← hk]
        have hreach := (hm.kept k q0 (Or.inl hk0)).reach
        have hstoped : u.isStoped = true := by
          cases waitRule_of_step hu with
          | still s' _ _ _ _ _ hstrands =>
              unfold poolStep at hu
              rw [Option.ite_none_left_eq_some, Option.ite_none_right_eq_some,
                Option.some.injEq] at hu
              rw [← hu.2.2]
          | stopEnd => rfl
        exact Or.inr (Or.inr (allExited_of_reach (.tail .stopEnd hreach trivial hu) hstoped).2)
      · rcases h.loop todo' (some k') hloop k q hq with htodo | hcur | hdone
        · exact Or.inl htodo
        · exact absurd (Option.some.inj hcur).symm hkk
        · exact Or.inr (Or.inr (hexit hdone))
  | clear hloop hp =>
      rw [hp, AList.lookup_empty] at hk
      exact absurd hk (by simp only [reduceCtorEq, not_false_eq_true])

theorem stopSound_step (hs : managerStep m a = some m') (hm : Managed ps m) (h : StopSound m) :
    StopSound m' where
  loop todo cur hl k q hk := loop_step hs hm h hl hk
  dropped k q hk := by
    cases poolsRule_of_step hs with
    | same hp hd => exact h.dropped k q (hd ▸ hk)
    | act k0 q0 b u evs hk0 hu hp hd => exact h.dropped k q (hd ▸ hk)
    | clear hp hd hst hl hloop =>
        rw [hd] at hk
        rcases h.loop [] none hloop k q hk with htodo | hcur | hdone
        · exact absurd htodo List.not_mem_nil
        · exact absurd hcur (by simp only [reduceCtorEq, not_false_eq_true])
        · exact hdone
  past := by
    intro pre post htrace
    cases poolsRule_of_step hs with
    | same hp hd hst hl evs ht hevs hstop =>
        rw [ht] at htrace
        rcases Trace.split_of_append htrace with ⟨post', hpre, rfl⟩ | ⟨pre', _, hev⟩
        · rcases h.past pre post' hpre with ⟨hdone, hout⟩
          refine ⟨hst.trans hdone, fun ev hev => ?_⟩
          exact (List.mem_append.mp hev).elim (hout ev) (hevs ev)
        · refine ⟨hst.trans (hstop (hev ▸ List.mem_append_right _ List.mem_cons_self)),
            fun ev hmem => hevs ev ?_⟩
          rw [hev]
          exact List.mem_append_right _ (List.mem_cons_of_mem _ hmem)
    | act k q b u evs hk hu hp hd hst hl ht hevs =>
        -- A manager that has stopped has no pool to act on.
        have hno : ManagerEvent.stopReturned ∉ m'.trace := by
          intro hmem
          rw [ht] at hmem
          have hold : ManagerEvent.stopReturned ∈ m.trace := by
            rcases List.mem_append.mp hmem with hmem | hmem
            · rcases List.mem_append.mp hmem with hmem | hmem
              · exact hmem
              · rcases hevs with ⟨rfl, _⟩ | ⟨t, _, rfl⟩
                · exact absurd hmem List.not_mem_nil
                · exact absurd (List.mem_singleton.mp hmem) (by
                    simp only [reduceCtorEq, not_false_eq_true])
            · rcases List.mem_map.mp hmem with ⟨e, _, he⟩
              exact absurd he (by simp only [reduceCtorEq, not_false_eq_true])
          rcases List.append_of_mem hold with ⟨pre', post', hsplit⟩
          rw [hm.gone (h.past pre' post' hsplit).1, AList.lookup_empty] at hk
          exact absurd hk (by simp only [reduceCtorEq, not_false_eq_true])
        exact absurd (htrace ▸ List.mem_append_right _ List.mem_cons_self) hno
    | clear hp hd hst hl hloop ht =>
        refine ⟨hst, ?_⟩
        rw [ht] at htrace
        rcases Trace.split_of_append htrace with ⟨post', hpre, rfl⟩ | ⟨pre', _, hev⟩
        · intro ev hev
          rcases List.mem_append.mp hev with hev | hev
          · exact (h.past pre post' hpre).2 ev hev
          · rw [List.mem_singleton.mp hev]
            rfl
        · have hnil : post = [] := by
            have hlen := congrArg List.length hev
            rw [List.length_singleton, List.length_append, List.length_cons] at hlen
            exact List.eq_nil_of_length_eq_zero (by omega)
          rw [hnil]
          exact fun ev hev => absurd hev List.not_mem_nil

end Stop

/-- `stop` is final. Whenever a call of it has returned, there is a pool for each kind
    among those it dropped, all their worker threads have returned, and of what is seen
    after it nothing is of a pool, and no post is handed to one. -/
theorem manager_stop_is_final (ps : List PoolParams) {m : ThreadManager}
    (h : (managerMachine ps).Reach free m) {pre post : List ManagerEvent}
    (hstop : m.trace = pre ++ .stopReturned :: post) :
    m.pools = ∅ ∧ (∀ p ∈ ps, ∃ q, m.dropped.lookup p.kind = some q) ∧
    (∀ k q, m.dropped.lookup k = some q → ∀ pc ∈ q.pool.threads, pc = .exited) ∧
    ∀ ev ∈ post, (∀ k e, ev ≠ .inPool k e) ∧ ∀ k t, ev ≠ .handed k t := by
  have hm : Managed ps m := managed_of_reach h
  have hsound : StopSound m := invariant_of (Managed ps) StopSound (fun _ => managed_of_reach)
    ⟨fun _ _ hl => absurd hl (by
        simp only [managerMachine, threadManager, reduceCtorEq, not_false_eq_true]),
      fun _ _ hk => absurd hk (by
        simp only [managerMachine, threadManager, AList.lookup_empty, reduceCtorEq,
          not_false_eq_true]),
      fun _ _ ht => absurd ht.symm (by
        simp only [managerMachine, threadManager, List.append_eq_nil_iff, reduceCtorEq, and_false,
          not_false_eq_true])⟩
    (fun _ _ _ _ hs hm _ hs' => stopSound_step hs hm hs') h
  rcases hsound.past pre post hstop with ⟨hstoped, hout⟩
  have hgone := hm.gone hstoped
  refine ⟨hgone, fun p hp => ?_, hsound.dropped, fun ev hev => ⟨fun k e he => ?_, fun k t he => ?_⟩⟩
  · rcases hm.every p hp with ⟨q, hq⟩
    rw [ThreadManager.Has, hgone, AList.lookup_empty] at hq
    exact ⟨q, hq.resolve_left (by simp only [reduceCtorEq, not_false_eq_true])⟩
  · have hev' := hout ev hev
    rw [he] at hev'
    exact absurd hev' Bool.false_ne_true
  · have hev' := hout ev hev
    rw [he] at hev'
    exact absurd hev' Bool.false_ne_true

/-- Two kinds with one thread each. -/
def twoKinds : List PoolParams :=
  [⟨1, 0, fun _ => .default⟩, ⟨1, 1, fun _ => .default⟩]

/-- A task is posted for the second kind, and the manager is flushed while it runs. -/
def flushedRun : List ManagerStep :=
  [.postTest 1 7, .postFind 0, .pool 1 (.postPush 0), .pool 1 (.logic 0 .loop),
    .pool 1 (.logic 0 .pick), .flushCall, .flushPool 0 0, .pool 0 (.flushTest 0),
    .pool 0 (.flushLoad 0), .flushNext 0, .flushPool 0 1,
    .pool 1 (.logic 0 (.applied (some .single))), .pool 1 (.logic 0 .decrement),
    .pool 1 (.flushTest 0), .pool 1 (.flushLoad 0), .flushNext 0, .flushEnd 0]

def flushedManager : ThreadManager := (managerMachine twoKinds).after flushedRun

theorem manager_routes_flushedManager :
    .inPool 1 (.runBegin ⟨1, 0⟩ 7) ∈ flushedManager.trace ∧
      .handed 1 7 ∈ flushedManager.trace :=
  have hrun : .inPool 1 (.runBegin ⟨1, 0⟩ 7) ∈ flushedManager.trace := by decide
  ⟨hrun, ((manager_routes twoKinds (m := flushedManager) (reach_after _)).2 1 _ 7 hrun).2.2⟩

theorem manager_flush_is_barrier_flushedManager :
    flushedManager.trace = flushedManager.trace.dropLast ++ .flushReturned 3 :: [] ∧
      (flushedManager.pools.lookup 1).isSome = true ∧
      flushedManager.trace.dropLast[3]? = some .flushCalled :=
  have hsplit : flushedManager.trace = flushedManager.trace.dropLast ++ .flushReturned 3 :: [] := by
    decide
  ⟨hsplit, by decide,
    (manager_flush_is_barrier twoKinds (m := flushedManager) (reach_after _) _ _ _ hsplit).1⟩

/-- Then the manager is stopped, and a task is posted that nobody takes. -/
def stoppedManager : ThreadManager :=
  (managerMachine twoKinds).after (flushedRun ++ [.stopCall, .stopPool 1, .pool 1 (.logic 0 .loop),
    .stopJoined, .stopPool 0, .pool 0 (.logic 0 .loop), .stopJoined, .stopClear, .postTest 1 8])

theorem manager_stop_is_final_stoppedManager :
    stoppedManager.trace = stoppedManager.trace.dropLast.dropLast ++
        .stopReturned :: [.refused 1 8] ∧
      stoppedManager.pools = ∅ :=
  have hsplit : stoppedManager.trace = stoppedManager.trace.dropLast.dropLast ++
      .stopReturned :: [.refused 1 8] := by decide
  ⟨hsplit, (manager_stop_is_final twoKinds (m := stoppedManager) (reach_after _) hsplit).1⟩

end Yaaf.Async
