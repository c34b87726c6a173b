import Yaaf.Core.Sharing
import Yaaf.Theory.Waiters

/-!
# Which Thread Destroys the Context

The destructor runs on the thread that drops the last reference, and nothing in
the types says which that is. The owner drops its references when it likes. If an
operation of a `user_context` is in progress on a thread of the pool at that
moment, what it got from `_ctx.lock()` keeps the context alive, and when it
returns the destructor runs there. `stop` then joins the thread it is on, which is
inside a task, so it does not end.

As long as the owner waits with its last reference until no operation is in
progress, the destructor is its own. After a `stop` of the owner's there is
nothing to wait for: every thread of the pool has left.

## Main definitions

* `OwnerWaits`: The owner does not leave a context to an operation.
* `Forsaken`: The owner has gone, and an operation or a destructor has not.

## Theorems

* `sharing_invariant`: What holds in every state.
* `owner_destroys`: When the destructor is the owner's.
-/

namespace Yaaf.Async

open Machine ThreadsPool Sharing

/-- A thread of the pool is inside a task. -/
def Inside (s : ThreadsPool) (i : Nat) : Prop :=
  ∃ t, s.threads[i]? = some (.running t)

/-- The owner drops its last reference only when no operation is in progress. -/
def OwnerWaits (s : Sharing) (a : SharingStep) : Prop :=
  a = .drop → s.owned = 1 → s.ops = []

instance (s : Sharing) (a : SharingStep) : Decidable (OwnerWaits s a) :=
  inferInstanceAs (Decidable (a = .drop → s.owned = 1 → s.ops = []))

/-- The owner has gone. An operation on the pool is in progress, or has become
    the destructor. -/
def Forsaken (s : Sharing) : Prop :=
  s.owned = 0 ∧ (s.destroyer = none ∧ s.ops ≠ [] ∨ ∃ i, s.destroyer = some (.worker i))

/-- What holds in every state. -/
structure Held (s : Sharing) : Prop where
  /-- An operation is inside a task. -/
  ops : ∀ i ∈ s.ops, Inside s.pool i
  /-- So is a destructor that one of them turned into. -/
  worker : ∀ i, s.destroyer = some (.worker i) → Inside s.pool i
  /-- Whoever destroys the context dropped the last reference. -/
  last : s.destroyer ≠ none ↔ s.count = 0
  /-- Without a thread manager every thread has left. -/
  exited : s.managed = false → ∀ pc ∈ s.pool.threads, pc = .exited

section Destruction

variable {p : PoolParams} {s s' : Sharing} {pool : ThreadsPool}

theorem inTask_iff (i : Nat) : s.inTask i = true ↔ Inside s.pool i := by
  unfold inTask Inside
  cases h : s.pool.threads[i]? with
  | none => simp only [Option.any_none, Bool.false_eq_true, reduceCtorEq, exists_false]
  | some pc => cases pc <;> simp only [Option.any_some, Bool.false_eq_true, Option.some.injEq,
      reduceCtorEq, exists_false, PoolLogic.running.injEq, exists_eq']

/-- A thread stays inside its task until the task returns. -/
theorem inside_step {a : PoolStep} (hs : poolStep p s.pool a = some pool) {i : Nat}
    (ha : ∀ r, a ≠ .logic i (.applied r)) (h : Inside s.pool i) : Inside pool i := by
  rcases h with ⟨t, ht⟩
  cases waitRule_of_step hs with
  | still _ hthreads => exact ⟨t, by rw [hthreads]; exact ht⟩
  | push j u hj => exact ⟨t, ht⟩
  | stopBegin => exact ⟨t, ht⟩
  | stopEnd => exact ⟨t, ht⟩
  | logic j st pc _ hj hlogic =>
      rcases turns_of_logic hj hlogic with ⟨pc', hturn⟩
      by_cases hji : j = i
      · rw [hji, ht, Option.some.injEq] at hj
        have hsame : pc' = pc := by
          rcases hturn.returned t hj.symm with h | h | h
          · exact h
          · exact absurd (by rw [hji, h]) (ha (some .single))
          · exact absurd (by rw [hji, h]) (ha (some .again))
        refine ⟨t, ?_⟩
        rw [hturn.threads, hji, hsame, ← hj]
        exact List.getElem?_set_self (List.getElem?_eq_some_iff.mp ht).1
      · refine ⟨t, ?_⟩
        rw [hturn.threads, List.getElem?_set_ne hji]
        exact ht

/-- `stop` ends when every thread has left. -/
theorem exited_of_stopEnd (hs : poolStep p s.pool .stopEnd = some pool) :
    ∀ pc ∈ pool.threads, pc = .exited := by
  simp only [poolStep, Option.ite_none_left_eq_some, Option.ite_none_right_eq_some,
    Option.some.injEq] at hs
  rw [← hs.2.2]
  exact fun pc hpc => beq_iff_eq.mp (List.all_eq_true.mp hs.2.1.2 pc hpc)

/-- What a step of the pool has to let stand. -/
theorem lets_apart {a : PoolStep} (h : s.lets a = true) {i : Nat}
    (hi : i ∈ s.ops ∨ s.destroyer = some (.worker i)) (r : Option ContinuationStrategy) :
    a ≠ .logic i (.applied r) := by
  rintro rfl
  simp only [lets, Bool.and_eq_true, Bool.not_eq_true', bne_iff_ne, ne_eq] at h
  rcases hi with hi | hi
  · rw [List.contains_iff_mem.mpr hi] at h
    exact Bool.noConfusion h.1
  · exact h.2 hi

theorem count_eq_zero : s.count = 0 ↔ s.owned = 0 ∧ s.ops = [] := by
  unfold count
  rw [Nat.add_eq_zero_iff, List.length_eq_zero_iff]

/-- Dropping a reference touches nothing but the destroyer. -/
theorem dropped_rest (h : Holder) :
    s.dropped h = { s with destroyer := if s.count = 0 then some h else s.destroyer } := by
  unfold dropped
  split <;> rfl

/-- An operation in progress keeps the context. -/
theorem dropped_of_ops (h : Holder) (hops : s.ops ≠ []) : s.dropped h = s :=
  if_neg fun hc => hops (count_eq_zero.mp hc).2

/-- Where a destroyer comes from when a reference goes. -/
theorem destroyer_dropped {h k : Holder} (hd : (s.dropped h).destroyer = some k) :
    s.destroyer = some k ∨ k = h ∧ s.count = 0 := by
  rw [dropped_rest] at hd
  by_cases hz : s.count = 0
  · simp only [if_pos hz, Option.some.injEq] at hd
    exact Or.inr ⟨hd.symm, hz⟩
  · simp only [if_neg hz] at hd
    exact Or.inl hd

/-- A step, with what it takes. -/
inductive SharingRule (p : PoolParams) (s : Sharing) : SharingStep → Sharing → Prop
  | pool (a : PoolStep) (u : ThreadsPool) (hmanaged : s.managed = true) (hlets : s.lets a = true)
      (h : poolStep p s.pool a = some u) : SharingRule p s (.pool a) { s with pool := u }
  | copy (h : 0 < s.owned) : SharingRule p s .copy { s with owned := s.owned + 1 }
  | drop (h : 0 < s.owned) : SharingRule p s .drop ({ s with owned := s.owned - 1 }.dropped .owner)
  | lock (i : Nat) (hi : Inside s.pool i) (h : 0 < s.count) :
      SharingRule p s (.lock i) { s with ops := i :: s.ops }
  | release (i : Nat) (h : i ∈ s.ops) :
      SharingRule p s (.release i) ({ s with ops := s.ops.erase i }.dropped (.worker i))
  | stopBegin (h : Holder) (u : ThreadsPool) (hmanaged : s.managed = true)
      (hs : poolStep p s.pool .stopBegin = some u) :
      SharingRule p s (.stopBegin h) { s with pool := u, stopping := some h }
  | stopEnd (u : ThreadsPool) (hs : poolStep p s.pool .stopEnd = some u) :
      SharingRule p s .stopEnd { s with pool := u, managed := false, stopping := none }

theorem sharingRule_of_step {a : SharingStep} (hs : sharingStep p s a = some s') :
    SharingRule p s a s' := by
  unfold sharingStep at hs
  rw [Option.ite_none_left_eq_some] at hs
  replace hs := hs.2
  cases a <;> simp only [Option.ite_none_right_eq_some, Option.some.injEq,
    Option.map_eq_some_iff] at hs
  case pool a =>
      rcases hs with ⟨⟨hmanaged, hlets⟩, u, hu, rfl⟩
      exact .pool a u hmanaged hlets hu
  case copy =>
      rw [← hs.2]
      exact .copy hs.1
  case drop =>
      rw [← hs.2]
      exact .drop hs.1.1
  case lock i =>
      rw [← hs.2]
      exact .lock i ((inTask_iff i).mp hs.1.1) hs.1.2
  case release i =>
      rw [← hs.2]
      exact .release i hs.1
  case stopBegin h =>
      rcases hs with ⟨⟨hmanaged, _⟩, u, hu, rfl⟩
      exact .stopBegin h u hmanaged hu
  case stopEnd =>
      rcases hs with ⟨_, u, hu, rfl⟩
      exact .stopEnd u hu

/-- After a drop the context has a destroyer if nothing is left. -/
theorem last_dropped (h : Holder) (hlast : s.destroyer = none) :
    (s.dropped h).destroyer ≠ none ↔ (s.dropped h).count = 0 := by
  rw [dropped_rest]
  change (if s.count = 0 then some h else s.destroyer) ≠ none ↔ s.count = 0
  by_cases hz : s.count = 0
  · rw [if_pos hz]
    exact ⟨fun _ => hz, fun _ => Option.some_ne_none h⟩
  · rw [if_neg hz, hlast]
    exact ⟨fun hc => absurd rfl hc, fun hc => absurd hc hz⟩

/-- While there is a reference nobody has gone on to the destructor. -/
theorem destroyer_eq_none (h : Held s) (hpos : 0 < s.count) : s.destroyer = none := by
  by_contra hc
  exact absurd (h.last.mp hc) (Nat.pos_iff_ne_zero.mp hpos)

theorem held_step {a : SharingStep} (hs : sharingStep p s a = some s') (h : Held s) : Held s' := by
  cases sharingRule_of_step hs with
  | pool a u hmanaged hlets hstep =>
      refine ⟨fun i hi => inside_step hstep (lets_apart hlets (Or.inl hi)) (h.ops i hi),
        fun i hi => inside_step hstep (lets_apart hlets (Or.inr hi)) (h.worker i hi), h.last,
        fun hm => ?_⟩
      exact absurd (hmanaged.symm.trans hm) Bool.noConfusion
  | copy hpos =>
      have hcount : 0 < s.count := Nat.add_pos_left hpos _
      refine ⟨h.ops, h.worker, ?_, h.exited⟩
      change s.destroyer ≠ none ↔ s.owned + 1 + s.ops.length = 0
      rw [destroyer_eq_none h hcount]
      exact ⟨fun hc => absurd rfl hc, fun hc => by omega⟩
  | drop hpos =>
      have hcount : 0 < s.count := Nat.add_pos_left hpos _
      have hnone := destroyer_eq_none h hcount
      refine ⟨fun i hi => ?_, fun i hi => ?_, last_dropped _ hnone, fun hm => ?_⟩
      · rw [dropped_rest] at hi ⊢
        exact h.ops i hi
      · -- Nobody but the owner goes on from here.
        rcases destroyer_dropped hi with hi | ⟨hi, _⟩
        · exact absurd (hnone.symm.trans hi) (by simp only [reduceCtorEq, not_false_eq_true])
        · exact Holder.noConfusion hi
      · rw [dropped_rest] at hm ⊢
        exact h.exited hm
  | lock i hi hpos =>
      refine ⟨fun j hj => ?_, h.worker, ?_, h.exited⟩
      · rcases List.mem_cons.mp hj with rfl | hj
        · exact hi
        · exact h.ops j hj
      · rw [show s.destroyer = none from destroyer_eq_none h hpos]
        refine ⟨fun hc => absurd rfl hc, fun hc => ?_⟩
        exact absurd (count_eq_zero.mp hc).2 (List.cons_ne_nil i s.ops)
  | release i hi =>
      have hcount : 0 < s.count := Nat.add_pos_right _ (List.length_pos_of_mem hi)
      have hnone := destroyer_eq_none h hcount
      refine ⟨fun j hj => ?_, fun j hj => ?_, last_dropped _ hnone, fun hm => ?_⟩
      · rw [dropped_rest] at hj ⊢
        exact h.ops j (List.mem_of_mem_erase hj)
      · -- The operation that goes on is still inside its task.
        rcases destroyer_dropped hj with hj | ⟨hj, _⟩
        · exact absurd (hnone.symm.trans hj) (by simp only [reduceCtorEq, not_false_eq_true])
        · rw [dropped_rest, Holder.worker.inj hj]
          exact h.ops i hi
      · rw [dropped_rest] at hm ⊢
        exact h.exited hm
  | stopBegin holder u hmanaged hstep =>
      have hin : ∀ i, Inside s.pool i → Inside u i := fun i hi =>
        inside_step hstep (fun _ => PoolStep.noConfusion) hi
      refine ⟨fun i hi => hin i (h.ops i hi), fun i hi => hin i (h.worker i hi), h.last,
        fun hm => ?_⟩
      exact absurd (hmanaged.symm.trans hm) Bool.noConfusion
  | stopEnd u hstep =>
      have hin : ∀ i, Inside s.pool i → Inside u i := fun i hi =>
        inside_step hstep (fun _ => PoolStep.noConfusion) hi
      refine ⟨fun i hi => hin i (h.ops i hi), fun i hi => hin i (h.worker i hi), h.last,
        fun _ => exited_of_stopEnd hstep⟩

/-- What holds in every state a run reaches. -/
theorem sharing_invariant {C : Sharing → SharingStep → Prop} (h : (sharing p).Reach C s) :
    Held s := by
  refine invariant Held ⟨fun i hi => absurd hi List.not_mem_nil,
    fun i hi => absurd hi (by simp only [sharing, reduceCtorEq, not_false_eq_true]),
    ⟨fun hc => absurd rfl hc, fun hc => absurd (count_eq_zero.mp hc).1 Nat.one_ne_zero⟩,
    fun hm => absurd hm (by simp only [sharing, Bool.true_eq_false, not_false_eq_true])⟩
    (fun u a u' _ hstep hu => held_step hstep hu) h

/-- A thread inside a task has not left. -/
theorem managed_of_inside (h : Held s) {i : Nat} (hi : Inside s.pool i) : s.managed = true := by
  rcases hi with ⟨t, ht⟩
  by_contra hm
  exact PoolLogic.noConfusion (h.exited (Bool.eq_false_iff.mpr hm) _ (List.mem_of_getElem? ht))

/-- The owner has a reference, or it has destroyed the context. -/
def Kept (s : Sharing) : Prop :=
  (s.owned = 0 → s.ops = []) ∧ ∀ h, s.destroyer = some h → h = .owner

theorem kept_step {a : SharingStep} (hs : sharingStep p s a = some s') (hc : OwnerWaits s a)
    (h : Kept s) : Kept s' := by
  cases sharingRule_of_step hs with
  | pool a u hmanaged hlets hstep => exact h
  | copy hpos => exact ⟨fun hz => absurd hz (Nat.succ_ne_zero _), h.2⟩
  | drop hpos =>
      refine ⟨fun hz => ?_, fun holder hd => ?_⟩
      · rw [dropped_rest] at hz ⊢
        change s.owned - 1 = 0 at hz
        exact hc rfl (by omega)
      · rcases destroyer_dropped hd with hd | ⟨rfl, _⟩
        · exact h.2 holder hd
        · rfl
  | lock i hi hpos =>
      refine ⟨fun hz => ?_, h.2⟩
      change s.owned = 0 at hz
      exact absurd (count_eq_zero.mpr ⟨hz, h.1 hz⟩) (Nat.ne_of_gt hpos)
  | release i hi =>
      -- The owner holds another reference, so the one that goes is not the last.
      have howned : s.owned ≠ 0 := fun hz => absurd hi (by rw [h.1 hz]; exact List.not_mem_nil)
      refine ⟨fun hz => ?_, fun holder hd => ?_⟩
      · rw [dropped_rest] at hz
        exact absurd hz howned
      · rcases destroyer_dropped hd with hd | ⟨_, hz⟩
        · exact h.2 holder hd
        · exact absurd (count_eq_zero.mp hz).1 howned
  | stopBegin holder u hmanaged hstep => exact h
  | stopEnd u hstep => exact h

theorem kept_of_reach (h : (sharing p).Reach OwnerWaits s) : Kept s :=
  invariant Kept
    ⟨fun hz => absurd hz Nat.one_ne_zero, fun holder hd => absurd hd (by
      simp only [sharing, reduceCtorEq, not_false_eq_true])⟩
    (fun u a u' hc hstep hu => kept_step hstep hc hu) h

/-- Nobody gives the context back to an owner that has gone. -/
theorem forsaken_step {a : SharingStep} (hs : sharingStep p s a = some s')
    (h : Forsaken s) : Forsaken s' := by
  rcases h with ⟨hz, h⟩
  cases sharingRule_of_step hs with
  | pool a u hmanaged hlets hstep => exact ⟨hz, h⟩
  | copy hpos => exact absurd hz (Nat.pos_iff_ne_zero.mp hpos)
  | drop hpos => exact absurd hz (Nat.pos_iff_ne_zero.mp hpos)
  | lock i hi hpos =>
      exact ⟨hz, h.imp (fun hop => ⟨hop.1, List.cons_ne_nil i s.ops⟩) id⟩
  | release i hi =>
      unfold dropped
      split
      · exact ⟨hz, Or.inr ⟨i, rfl⟩⟩
      · rename_i hlast
        -- Some other operation is left.
        exact ⟨hz, h.imp (fun hop => ⟨hop.1, fun hnil => hlast (count_eq_zero.mpr ⟨hz, hnil⟩)⟩) id⟩
  | stopBegin holder u hmanaged hstep => exact ⟨hz, h⟩
  | stopEnd u hstep => exact ⟨hz, h⟩

/-- The last operation to return becomes the destructor. -/
theorem release_all (hterm : s.pool.terminated = false) (hz : s.owned = 0)
    (hops : s.ops ≠ []) : ∃ u i, (sharing p).Path free s u ∧ u.destroyer = some (.worker i) := by
  generalize hl : s.ops = l at hops
  induction l generalizing s with
  | nil => exact absurd rfl hops
  | cons i rest ih =>
      have hstep : (sharing p).step s (.release i) =
          some ({ s with ops := rest }.dropped (.worker i)) := by
        have herase : s.ops.erase i = rest := by rw [hl, List.erase_cons_head]
        change sharingStep p s (.release i) = _
        have hmem : i ∈ s.ops := hl ▸ List.mem_cons_self
        simp only [sharingStep, hterm, Bool.false_eq_true, if_false, if_pos hmem, herase]
      have hpath : (sharing p).Path free s _ :=
        Machine.Path.tail _ (Machine.Path.refl s) trivial hstep
      cases hrest : rest with
      | nil =>
          subst hrest
          refine ⟨_, i, hpath, ?_⟩
          have hcount : { s with ops := [] }.count = 0 := count_eq_zero.mpr ⟨hz, rfl⟩
          unfold dropped
          rw [if_pos hcount]
      | cons j more =>
          have hmore : rest ≠ [] := hrest ▸ List.cons_ne_nil j more
          rw [dropped_of_ops (s := { s with ops := rest }) _ hmore] at hpath
          rcases ih (s := { s with ops := rest }) hterm hz rfl hmore with ⟨u, k, hu, hk⟩
          exact ⟨u, k, path_trans hpath hu, hk⟩

end Destruction

/-- The destructor is the owner's as long as the owner waits with its last
    reference, which after a `stop` it need not. The first time that it does not
    wait, a thread of the pool can become the destroyer and nobody else can, and
    that thread is inside a task, where no `stop` joins it. -/
theorem owner_destroys (p : PoolParams) {s : Sharing} (h : (sharing p).Reach OwnerWaits s) :
    (∀ k, s.destroyer = some k → k = .owner) ∧
    (s.managed = false → ∀ a, OwnerWaits s a) ∧
    ∀ s', sharingStep p s .drop = some s' → ¬ OwnerWaits s .drop →
      (∃ u i, (sharing p).Path free s' u ∧ u.destroyer = some (.worker i)) ∧
      ∀ u, (sharing p).Path free s' u → ∀ k, u.destroyer = some k →
        ∃ i, k = .worker i ∧ Inside u.pool i ∧ u.managed = true := by
  have hheld := sharing_invariant h
  refine ⟨(kept_of_reach h).2, fun hm a _ _ => ?_, fun s' hs hno => ?_⟩
  · -- An operation would be inside a task.
    by_contra hops
    rcases List.exists_mem_of_ne_nil _ hops with ⟨i, hi⟩
    exact absurd (hm.symm.trans (managed_of_inside hheld (hheld.ops i hi))) Bool.noConfusion
  · have hone : s.owned = 1 ∧ s.ops ≠ [] := by
      unfold OwnerWaits at hno
      push Not at hno
      exact hno.2
    have hreach : (sharing p).Reach free s' :=
      Machine.Path.tail .drop (path_weaken (fun _ _ _ => trivial) h) trivial hs
    have hnone := destroyer_eq_none hheld (Nat.add_pos_left (hone.1 ▸ Nat.one_pos) s.ops.length)
    have hterm : s.pool.terminated = false := by
      simp only [sharingStep, Option.ite_none_left_eq_some, Bool.not_eq_true] at hs
      exact hs.1
    have hs' : s' = { s with owned := 0 } := by
      cases sharingRule_of_step hs with
      | drop hpos =>
          rw [dropped_of_ops (s := { s with owned := s.owned - 1 }) _ hone.2, hone.1]
    refine ⟨?_, fun u hu k hk => ?_⟩
    · exact release_all (by rw [hs']; exact hterm) (by rw [hs']) (by rw [hs']; exact hone.2)
    · have hforsaken : Forsaken u :=
        path_invariant Forsaken (fun v a v' _ hstep hv => forsaken_step hstep hv) hu
          (by rw [hs']; exact ⟨rfl, Or.inl ⟨hnone, hone.2⟩⟩)
      have hu' := sharing_invariant (path_trans hreach hu)
      rcases hforsaken.2 with ⟨hn, _⟩ | ⟨i, hi⟩
      · exact absurd (hn.symm.trans hk) (by simp only [reduceCtorEq, not_false_eq_true])
      · have hin := hu'.worker i hi
        exact ⟨i, Option.some.inj (hk.symm.trans hi), hin, managed_of_inside hu' hin⟩

/-- Thread 0 of a pool of one is inside a task, and an operation begins. -/
def oneThread : PoolParams :=
  ⟨1, 0, fun _ => .default⟩

def operationBegins : List SharingStep :=
  [.pool (.postBegin 0), .pool (.postPush 0), .pool (.logic 0 .loop), .pool (.logic 0 .pick),
    .lock 0]

/-- The operation returns, and then the owner drops its reference. -/
theorem owner_destroys_last :
    ((sharing oneThread).after (operationBegins ++ [.release 0, .drop])).destroyer = some .owner ∧
      ∀ k, ((sharing oneThread).after (operationBegins ++ [.release 0, .drop])).destroyer = some k →
        k = .owner :=
  ⟨by decide, (owner_destroys oneThread (reach_meets _ (by decide))).1⟩

/-- The owner drops its reference, and then the operation returns. -/
theorem owner_destroys_first : ∃ s, (sharing oneThread).Reach free s ∧
    s.destroyer = some (.worker 0) ∧ Inside s.pool 0 :=
  ⟨(sharing oneThread).after (operationBegins ++ [.drop, .release 0]), reach_after _, by decide,
    0, by decide⟩

end Yaaf.Async
