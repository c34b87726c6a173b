import Yaaf.Core.Locking
import Yaaf.Theory.Stopping

/-!
# Callbacks That Use the Context

What a thread that calls `on_stop`, `on_child_stopped` or `on_child_error`
holds at that point, and what becomes of a callback that uses its context. The
first question to a supervisor is asked without a lock. Every other call is
made under `_locker`, exclusively in both stops and shared in the `ESCALATE`
loop, and a callback that asks for `_locker` there asks for a lock its own
thread holds.

Which calls ask for it is a property of `user_context`. Publishing and the
questions about exchanges have a lock of their own. Four calls do nothing once
the context is stopping, so the loop of `context::stop` is kinder than the
other paths, but `get_address` and `subscribe_to_exchange` do not look, and a
context that is being destroyed locks nothing at all.

## Main definitions

* `UserOp.locksContext`: The call asks for `_locker`.
* `CallbackPath.underLock`: The path makes its calls under `_locker`.
* `CallbackPath.Quiet`: No call under `_locker` asks for it.

## Theorems

* `sweepCalls_recorded`, `escalationCalls_recorded`: The calls on a path are the
  calls a step records.
* `callbacks_may_use_context_iff`: A path is safe exactly when it is quiet.
-/

namespace Yaaf.Locking

open Locks

/-- The call asks for `_locker`. -/
def UserOp.locksContext (alive stopping : Bool) (op : UserOp) : Bool :=
  alive && match op with
    | .addActor | .sendEnvelope _ | .stopActor | .getActor => !stopping
    | .getAddress | .subscribeToExchange => true
    | .createExchange | .publishToExchange _ | .exchangeExists | .name => false

variable {π : Type}

/-- The path makes its calls under `_locker`. -/
def CallbackPath.underLock : CallbackPath π → Bool
  | .childError _ _ => false
  | _ => true

/-- No callback that is called under `_locker` makes a call that asks for it. -/
def CallbackPath.Quiet (cb : Callbacks) (path : CallbackPath π) : Prop :=
  path.underLock = true → ∀ call ∈ path.calls, ∀ ops, cb call = .user ops →
    ∀ op ∈ ops, op.locksContext path.alive path.stopping = false

section Fresh

variable {l : Lock} {h : Prop} {alive stopping : Bool}

theorem fresh_guarded {r : Lock} {m : Mode} (hr : r = l → ¬ h) : (guarded r m).Fresh l h :=
  ⟨hr, trivial⟩

/-- A guard of one lock inside the guard of another. -/
theorem fresh_nested {r r' : Lock} {m m' : Mode} (hr : r ≠ r') :
    (Cmd.lock r m (guarded r' m').sometimes).Fresh l False := by
  refine ⟨fun _ => id, fresh_sometimes.mpr (fresh_guarded fun heq => ?_)⟩
  rintro (hno | heq')
  · exact hno
  · exact hr (heq'.trans heq.symm)

/-- A guard of `_locker` is what must not be asked for under `_locker`. -/
theorem fresh_locker_guarded {m : Mode} {body : Cmd Lock}
    (hbody : ∀ h', body.Fresh .locker h') : (Cmd.lock .locker m body).Fresh .locker h ↔ ¬ h :=
  ⟨fun hf => hf.1 rfl, fun hno => ⟨fun _ => hno, hbody _⟩⟩

theorem fresh_locker_other {r : Lock} {m : Mode} (hr : r ≠ .locker) :
    (guarded r m).Fresh .locker h :=
  fresh_guarded fun heq => absurd heq hr

theorem fresh_locker_userPost : userPost.Fresh .locker h :=
  fresh_sometimes.mpr (fresh_locker_other (by simp only [ne_eq, reduceCtorEq, not_false_eq_true]))

theorem fresh_locker_addActor : addActor.Fresh .locker h ↔ ¬ h := by
  refine ⟨fun hf => hf.1.1.1 rfl, fun hno => ⟨fresh_sometimes.mpr ?_, ?_, fresh_locker_userPost⟩⟩
  · exact fresh_guarded fun _ => hno
  · exact fresh_guarded fun _ => hno

/-- A call asks for `_locker` or leaves it alone. -/
theorem fresh_locker_iff (op : UserOp) :
    (op.cmd alive stopping).Fresh .locker h ↔ (op.locksContext alive stopping = true → ¬ h) := by
  cases alive with
  | false => exact ⟨fun _ hno => absurd hno Bool.false_ne_true, fun _ => trivial⟩
  | true =>
      -- A method takes `_locker` or it does not, and the two answers are checked
      -- in one way each.
      have hskip : Cmd.skip.Fresh Lock.locker h ↔ ((false : Bool) = true → ¬ h) :=
        ⟨fun _ hno => absurd hno Bool.false_ne_true, fun _ => trivial⟩
      have hasks : ∀ {c : Cmd Lock}, (c.Fresh .locker h ↔ ¬ h) →
          (c.Fresh .locker h ↔ ((true : Bool) = true → ¬ h)) := fun hc =>
        ⟨fun hf _ => hc.mp hf, fun hf => hc.mpr (hf rfl)⟩
      have hquiet : ∀ {c : Cmd Lock}, c.Fresh .locker h →
          (c.Fresh .locker h ↔ ((false : Bool) = true → ¬ h)) := fun hc =>
        ⟨fun _ hno => absurd hno Bool.false_ne_true, fun _ => hc⟩
      have hguard : ∀ m, (guarded .locker m).Fresh .locker h ↔ ¬ h := fun m =>
        fresh_locker_guarded fun _ => trivial
      cases op with
      | addActor =>
          cases stopping
          · exact hasks fresh_locker_addActor
          · exact hskip
      | sendEnvelope m =>
          cases stopping
          · exact hasks (fresh_locker_guarded fun _ => fresh_sometimes.mpr
              (fresh_locker_other (by simp only [ne_eq, reduceCtorEq, not_false_eq_true])))
          · exact hskip
      | stopActor =>
          cases stopping
          · exact hasks (hguard _)
          · exact hskip
      | getActor =>
          cases stopping
          · exact hasks (hguard _)
          · exact hskip
      | getAddress => exact hasks (hguard _)
      | subscribeToExchange =>
          -- `std::lock` takes `_exchange_locker` and `_locker`, in either order.
          refine hasks ⟨fun hf => hf.1 (Or.inr rfl), fun hno => ⟨fun _ => hno, ?_, trivial⟩⟩
          exact fun heq => absurd heq.1 (by simp only [reduceCtorEq, not_false_eq_true])
      | createExchange =>
          exact hquiet (fresh_locker_other (by simp only [ne_eq, reduceCtorEq, not_false_eq_true]))
      | publishToExchange x =>
          -- Only `_exchange_locker`, and under it the lock of one mailbox.
          refine hquiet ⟨fun heq => absurd heq (by simp only [reduceCtorEq, not_false_eq_true]), ?_⟩
          exact fresh_sometimes.mpr (fresh_locker_other (by
            simp only [ne_eq, reduceCtorEq, not_false_eq_true]))
      | exchangeExists =>
          exact hquiet (fresh_locker_other (by simp only [ne_eq, reduceCtorEq, not_false_eq_true]))
      | name => exact hskip

/-- A call on its own never asks for a lock it holds. -/
theorem fresh_op (op : UserOp) : (op.cmd alive stopping).Fresh l False := by
  -- Nothing is held at the start, so one guard is harmless, and two guards of
  -- different locks are.
  have hguard : ∀ r m, (guarded r m).Fresh l False := fun r m => fresh_guarded fun _ => id
  have hpost : userPost.Fresh l False := fresh_sometimes.mpr (hguard _ _)
  unfold UserOp.cmd
  by_cases halive : alive = false
  · rw [if_pos halive]
    trivial
  · rw [if_neg halive]
    cases op with
    | addActor =>
        simp only
        split
        · trivial
        · exact ⟨fresh_sometimes.mpr (hguard _ _), hguard _ _, hpost⟩
    | sendEnvelope m =>
        simp only
        split
        · trivial
        · exact fresh_nested (by simp only [ne_eq, reduceCtorEq, not_false_eq_true])
    | stopActor =>
        simp only
        split
        · trivial
        · exact hguard _ _
    | getActor =>
        simp only
        split
        · trivial
        · exact hguard _ _
    | getAddress => exact hguard _ _
    | createExchange => exact hguard _ _
    | subscribeToExchange =>
        refine ⟨fun _ => id, fun heq => ?_, trivial⟩
        exact absurd (heq.1.trans heq.2.symm) (by simp only [reduceCtorEq, not_false_eq_true])
    | publishToExchange x =>
        exact fresh_nested (by simp only [ne_eq, reduceCtorEq, not_false_eq_true])
    | exchangeExists => exact hguard _ _
    | name => trivial

theorem fresh_hook (hook : StopHook) (hl : l = .exchangeLocker → ¬ h) : hook.cmd.Fresh l h := by
  cases hook with
  | none => trivial
  | eraseListenerOn => exact fresh_guarded fun heq => hl heq.symm
  | eraseConnections => exact fresh_guarded fun heq => hl heq.symm

/-- A callback on its own never asks for a lock it holds. -/
theorem fresh_callback (b : CallbackBody) : (b.cmd alive stopping).Fresh l False := by
  cases b with
  | user ops =>
      refine fresh_all.mpr fun c hc => ?_
      rcases List.mem_map.mp hc with ⟨op, _, rfl⟩
      exact fresh_op op
  | framework hook => exact fresh_hook hook fun _ => id

/-- A callback asks for `_locker` when one of its calls does. -/
theorem fresh_locker_callback (b : CallbackBody) :
    (b.cmd alive stopping).Fresh .locker h ↔
      (h → ∀ ops, b = .user ops → ∀ op ∈ ops, op.locksContext alive stopping = false) := by
  cases b with
  | user ops =>
      have hall : ((CallbackBody.user ops).cmd alive stopping).Fresh .locker h ↔
          ∀ op ∈ ops, (op.locksContext alive stopping = true → ¬ h) := by
        refine fresh_all.trans ⟨fun hf op hop => ?_, fun hf c hc => ?_⟩
        · exact (fresh_locker_iff op).mp (hf _ (List.mem_map_of_mem hop))
        · rcases List.mem_map.mp hc with ⟨op, hop, rfl⟩
          exact (fresh_locker_iff op).mpr (hf op hop)
      rw [hall]
      constructor
      · rintro hf hh ops' heq op hop
        rw [CallbackBody.user.injEq] at heq
        rw [← heq] at hop
        exact Bool.eq_false_iff.mpr fun hlocks => hf op hop hlocks hh
      · intro hf op hop hlocks hh
        exact absurd hlocks (Bool.eq_false_iff.mp (hf hh ops rfl op hop))
  | framework hook =>
      refine iff_of_true (fresh_hook hook fun heq => ?_) fun _ ops heq => ?_
      · exact absurd heq (by simp only [reduceCtorEq, not_false_eq_true])
      · exact absurd heq (by simp only [reduceCtorEq, not_false_eq_true])

end Fresh

section Paths

variable {cb : Callbacks} {path : CallbackPath π}

theorem fresh_body {l : Lock} : (path.body cb).Fresh l False := by
  refine fresh_all.mpr fun c hc => ?_
  rcases List.mem_map.mp hc with ⟨call, _, rfl⟩
  exact fresh_callback _

/-- The calls of a path ask for `_locker` when one of the callbacks does. -/
theorem fresh_locker_body {h : Prop} : (path.body cb).Fresh .locker h ↔
    (h → ∀ call ∈ path.calls, ∀ ops, cb call = .user ops →
      ∀ op ∈ ops, op.locksContext path.alive path.stopping = false) := by
  refine fresh_all.trans ⟨fun hf hh call hcall => ?_, fun hf c hc => ?_⟩
  · exact (fresh_locker_callback (cb call)).mp (hf _ (List.mem_map_of_mem hcall)) hh
  · rcases List.mem_map.mp hc with ⟨call, hcall, rfl⟩
    exact (fresh_locker_callback (cb call)).mpr fun hh => hf hh call hcall

/-- Apart from `_locker` no path asks for a lock it holds. -/
theorem fresh_path {l : Lock} (hl : l ≠ .locker) : (path.cmd cb).Fresh l False := by
  have hguarded : ∀ m, (Cmd.lock .locker m (path.body cb)).Fresh l False := fun m =>
    ⟨fun _ => id, fresh_congr (iff_of_false id fun h => h.elim id fun heq => hl heq.symm) fresh_body⟩
  cases path with
  | stopActor => exact hguarded _
  | stop => exact hguarded _
  | childError => exact fresh_body
  | escalate => exact hguarded _

/-- A path asks for `_locker` again unless it is quiet. -/
theorem fresh_locker_path : (path.cmd cb).Fresh .locker False ↔ path.Quiet cb := by
  have hguarded : ∀ m, path.underLock = true →
      ((Cmd.lock .locker m (path.body cb)).Fresh .locker False ↔ path.Quiet cb) := by
    intro m hunder
    constructor
    · intro hf _
      exact fresh_locker_body.mp hf.2 (Or.inr rfl)
    · intro hquiet
      exact ⟨fun _ => id, fresh_locker_body.mpr fun _ => hquiet hunder⟩
  cases path with
  | stopActor => exact hguarded _ rfl
  | stop => exact hguarded _ rfl
  | childError => exact iff_of_true fresh_body fun hunder => absurd hunder Bool.false_ne_true
  | escalate => exact hguarded _ rfl

end Paths

section Recorded

variable {cfg : Config} {s s' : System π}

theorem callsBetween_append (evs : List (Event π)) (h : s'.trace = s.trace ++ evs) :
    callsBetween s s' = evs.filterMap calledBack := by
  unfold callsBetween
  rw [h, List.drop_left]

/-- The loop of `context::stop` records the calls it makes. -/
theorem sweepCalls_recorded (cfg : Config) (s : System π) :
    callsBetween s (s.stopAll cfg) = sweepCalls cfg s := by
  -- The sweep changes nobody's entry until it is over, so each turn finds what
  -- was there at its start.
  have hfold : ∀ (ks : List IdT) (u : System π), u.actors = s.actors →
      ∃ evs, (ks.foldl (System.stopOne cfg) u).trace = u.trace ++ evs ∧
        evs.filterMap calledBack = ks.filterMap fun k =>
          (s.actors.lookup k).map fun d => (⟨d.actor, .onStop⟩ : Callback) := by
    intro ks
    induction ks with
    | nil => exact fun u _ => ⟨[], (List.append_nil _).symm, rfl⟩
    | cons k ks ih =>
        intro u hu
        have hlive : u.live k = s.live k := congrArg (AList.lookup k) hu
        rw [List.foldl_cons, List.filterMap_cons]
        cases hk : s.actors.lookup k with
        | none =>
            rw [stopOne_none (hlive.trans hk)]
            exact ih u hu
        | some d =>
            rw [stopOne_some (hlive.trans hk)]
            rcases ih (u.onStop cfg k d.actor) hu with ⟨evs, htrace, hevs⟩
            refine ⟨.stopped k d.actor :: evs, ?_, ?_⟩
            · rw [htrace]
              exact List.append_assoc _ [.stopped k d.actor] evs
            · rw [List.filterMap_cons, hevs]
              rfl
  rcases hfold (cfg.order s.actors.keys) s rfl with ⟨evs, htrace, hevs⟩
  exact (callsBetween_append evs htrace).trans hevs

/-- One turn of the `ESCALATE` loop. -/
theorem escalationCalls_one {descr up : Description}
    (hup : s.actors.lookup descr.parent = some up) :
    escalationCalls s 1 descr = [⟨up.actor, .onChildError⟩] := by
  simp only [escalationCalls, hup]

/-- A turn of the `ESCALATE` loop that finds a supervisor records the call it
    makes. -/
theorem escalationCalls_recorded {i : Nat} {t : ApplyTask} {h : Bool} {descr up : Description}
    {action : ActorActionWhenError} (hup : s.actors.lookup descr.parent = some up)
    (hs : applyStep cfg s i t (.escalate (some action)) (.escalating h descr) = some s') :
    callsBetween s s' = escalationCalls s 1 descr := by
  simp only [applyStep, hup, Option.some.injEq] at hs
  rw [← hs, escalationCalls_one hup]
  exact callsBetween_append [.childError up.actor descr.address action] rfl

end Recorded

/-- Whether a callback may use its context: for every state, every way to a
    callback and all that the callbacks on it do, the calling thread never asks
    for `_locker` while it holds it, whatever the other threads do, exactly when
    no callback that is called under `_locker` makes a call that asks for it. -/
theorem callbacks_may_use_context_iff (cb : Callbacks) (path : CallbackPath π) :
    CallSafe .locker (path.cmd cb) ↔ path.Quiet cb :=
  (callSafe_iff fun _ hl => fresh_path hl).trans fresh_locker_path

/-- Actor 7 with actor 8 as its child. -/
def family : System Nat :=
  (context (Config.plain 1) "c").after
    (register "a" .null 7 ++ register "b" ⟨⟨4⟩, "/root/usr/a"⟩ 8)

/-- The `on_stop` of actor 8 looks an address up, and the `on_child_error` of
    actor 7 sends. -/
def lookingUp : Callbacks
  | ⟨8, .onStop⟩ => .user [.getAddress]
  | ⟨7, .onChildError⟩ => .user [.sendEnvelope 0]
  | _ => .user []

/-- Stopping actor 8 calls its `on_stop` under the exclusive lock, and asking
    actor 7 what to do about it in the `ESCALATE` loop calls its `on_child_error`
    under the shared one. -/
theorem callbacks_may_use_context_stopped :
    (context (Config.plain 1) "c").Reach Machine.free family ∧
      ¬ CallSafe .locker ((CallbackPath.stopActor (Config.plain 1) family ⟨⟨5⟩, "/root/usr/a/b"⟩
        .manual).cmd lookingUp) ∧
      ∃ d, family.actors.lookup ⟨5⟩ = some d ∧
        ¬ CallSafe .locker ((CallbackPath.escalate family 1 d).cmd lookingUp) := by
  refine ⟨Machine.reach_after _, fun hsafe => ?_, ?_⟩
  · have hquiet := fresh_locker_path.mp ((callSafe_iff fun _ hl => fresh_path hl).mp hsafe)
    have hcall : (⟨8, .onStop⟩ : Callback) ∈
        stopCalls (Config.plain 1) family ⟨⟨5⟩, "/root/usr/a/b"⟩ .manual := by decide
    exact absurd (hquiet rfl _ hcall _ rfl .getAddress List.mem_cons_self)
      (by simp only [UserOp.locksContext, CallbackPath.alive, Bool.and_self, Bool.true_eq_false,
        not_false_eq_true])
  · have hsome : (family.actors.lookup ⟨5⟩).isSome = true := by decide
    rcases Option.isSome_iff_exists.mp hsome with ⟨d, hd⟩
    refine ⟨d, hd, fun hsafe => ?_⟩
    -- The parent is asked while the escalation holds `_locker`.
    have hquiet := fresh_locker_path.mp ((callSafe_iff fun _ hl => fresh_path hl).mp hsafe)
    have hparent : (family.actors.lookup ⟨5⟩).map Description.parent = some ⟨4⟩ := by decide
    have hup : (family.actors.lookup ⟨4⟩).map Description.actor = some 7 := by decide
    rw [hd, Option.map_some, Option.some.injEq] at hparent
    rcases Option.map_eq_some_iff.mp hup with ⟨up, hlookup, hactor⟩
    have hcall : (⟨7, .onChildError⟩ : Callback) ∈ escalationCalls family 1 d := by
      rw [escalationCalls_one (hparent ▸ hlookup), hactor]
      exact List.mem_cons_self
    have hbegun : family.shutdown.begun = false := by decide
    exact absurd (hquiet rfl _ hcall _ rfl (.sendEnvelope 0) List.mem_cons_self)
      (by simp only [UserOp.locksContext, CallbackPath.alive, CallbackPath.stopping, hbegun,
        Bool.not_false, Bool.and_self, Bool.true_eq_false, not_false_eq_true])

end Yaaf.Locking
