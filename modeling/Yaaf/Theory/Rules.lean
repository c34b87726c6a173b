import Yaaf.Theory.Stopping

/-!
# What Each Thread Can Do

The step functions of the user threads and of the mailbox worker, inverted.
The functions are written to be computed and to be read against the source;
what a proof needs is the other direction, from the fact that a step happened
to the few forms its result can have. Each form is a constructor here, with
the guard that let it happen, and no later proof unfolds a step function.

Steps of an apply task that only change the thread's position are grouped by
what they leave alone. `halt` ends the run, `done` ends the task, and `walk`
moves among positions that no longer hold the busy flag; all three add only
`quiet` events, which no history of messages, starts or stops looks at.

## Main definitions

* `Event.quiet`: Events about supervision callbacks.
* `ApplyPc.holdsBusy`, `ApplyPc.failing`, `ApplyPc.engaged`, `ApplyPc.restarts`,
  `ApplyPc.ends`, `ApplyPc.stops`: Properties of a position.
* `ApplyRule`: The steps of an apply task.
* `WorkerRule`: The steps of the mailbox worker.

## Theorems

* `applyRule_of_step`, `workerRule_of_step`: Every step follows a rule.
* `addRule_of_step`: The same for `add_actor`.
* `callRule_rest`, `addRule_rest`, `taskRule_rest`, `workerRule_rest`,
  `stopRule_rest`: What each leaves alone.
-/

namespace Yaaf

variable {π : Type}

/-- Events about supervision callbacks, which no history looks at. -/
def Event.quiet : Event π → Bool
  | .childStatus _ _ _ | .childError _ _ _ | .restartEnd _ _ => true
  | _ => false

/-- The positions of an apply task from which `reset_busy` is still to come. -/
def ApplyPc.holdsBusy : ApplyPc π → Bool
  | .entry | .draining | .popped _ | .handling _ | .drained | .threw _ | .resetting _ => true
  | _ => false

/-- The handler has thrown and the supervisor's decision is not yet carried
    out. -/
def ApplyPc.failing : ApplyPc π → Bool
  | .threw _ => true
  | .resetting r => r
  | .caught h | .locking h | .escalating h _ | .deciding h _ | .restarting h => h
  | _ => false

/-- The positions from which the handler may be called or the status set. -/
def ApplyPc.engaged : ApplyPc π → Bool
  | .entry | .draining | .popped _ | .handling _ | .drained | .threw _ => true
  | _ => false

/-- Inside the `on_start` of a `REINIT`. -/
def ApplyPc.restarts : ApplyPc π → Bool
  | .restarting _ => true
  | _ => false

/-- The positions from which the next step can be the last of the task. -/
def ApplyPc.ends : ApplyPc π → Bool
  | .returned | .deciding _ _ | .restarting _ => true
  | _ => false

/-- The positions from which the next step stops the target of the task. -/
def ApplyPc.stops (t : ApplyTask) : ApplyPc π → Bool
  | .caught _ => t.parent.isNone
  | .deciding _ action => action = .stop || action = .reinit
  | _ => false

/-- Giving a task to the thread manager leaves the rest alone. -/
theorem userPost_rest (s : System π) (t : Task) : s.userPost t = { s with
    queue := (s.userPost t).queue, dropped := (s.userPost t).dropped,
    fate := (s.userPost t).fate } := by
  unfold System.userPost
  split
  · rfl
  · split <;> rfl

/-- The steps of the `i`-th user thread, executing an apply task. -/
inductive ApplyRule (cfg : Config) (s : System π) (i : Nat) (t : ApplyTask) :
    ApplyPc π → System π → Prop
  | entry (pc : ApplyPc π) (hpc : pc = .drained ∨ pc = .draining) :
      ApplyRule cfg s i t .entry (s.moveTo i t pc)
  | popEmpty (hm : s.boxes t.mb = []) : ApplyRule cfg s i t .draining (s.moveTo i t .drained)
  | pop (e : Stored π) (rest : List (Stored π)) (hm : s.boxes t.mb = e :: rest) :
      ApplyRule cfg s i t .draining
        { s.moveTo i t (.popped e) with boxes := Function.update s.boxes t.mb rest }
  | callHandler (e : Stored π) : ApplyRule cfg s i t (.popped e)
      ((s.moveTo i t (.handling e)).emit (.handleBegin t.target.actor t.mb e))
  | handlerReturn (e : Stored π) : ApplyRule cfg s i t (.handling e)
      ((s.moveTo i t .draining).emit (.handleEnd t.target.actor t.mb))
  | handlerThrow (e : Stored π) (what : String) : ApplyRule cfg s i t (.handling e)
      ((s.moveTo i t (.threw what)).emit (.handleThrow t.target.actor t.mb))
  | updateStatus (pc : ApplyPc π) (k : ActorStatusKinds) (msg : String) (r : Bool)
      (hpc : pc = .drained ∧ k = .normal ∧ r = false ∨ pc = .threw msg ∧ k = .withError ∧ r = true) :
      ApplyRule cfg s i t pc ((s.moveTo i t (.resetting r)).setObj t.target.actor
        ((s.objs t.target.actor).updateStatus k msg))
  | resetBusy (r : Bool) (pc : ApplyPc π) (hpc : pc = if r then .caught true else .returned) :
      ApplyRule cfg s i t (.resetting r)
        ((s.moveTo i t pc).setObj t.target.actor (s.objs t.target.actor).resetBusy)
  | halt (pc : ApplyPc π) (f : Fate) (evs : List (Event π)) (hf : f ≠ .running)
      (hevs : ∀ ev ∈ evs, ev.quiet = true) :
      ApplyRule cfg s i t pc { s with fate := f, trace := s.trace ++ evs }
  | done (pc : ApplyPc π) (evs : List (Event π)) (hb : pc.holdsBusy = false)
      (hevs : ∀ ev ∈ evs, ev.quiet = true) (hend : pc.ends = true) :
      ApplyRule cfg s i t pc ({ s with trace := s.trace ++ evs }.finish i)
  | walk (pc pc' : ApplyPc π) (evs : List (Event π)) (hb : pc.holdsBusy = false)
      (hb' : pc'.holdsBusy = false) (hf : pc'.failing = pc.failing) (hr : pc'.restarts = false)
      (hevs : ∀ ev ∈ evs, ev.quiet = true) :
      ApplyRule cfg s i t pc ({ s with trace := s.trace ++ evs }.moveTo i t pc')
  | stop (pc : ApplyPc π) (u : System π) (hb : pc.holdsBusy = false) (hx : s.canExclude = true)
      (hu : Stops cfg s u) (hgone : u.live t.target.address.id = none)
      (hstop : s.stopActorImplSafety cfg t.target.address .except = some u)
      (hpc : pc.stops t = true) :
      ApplyRule cfg s i t pc ((u.emit (.failureStopped t pc.failing)).finish i)
  | reinit (h : Bool) (u : System π) (hx : s.canExclude = true)
      (hu : Stops cfg s u) (hgone : u.live t.target.address.id = none)
      (hstop : s.stopActorImplSafety cfg t.target.address .except = some u) :
      ApplyRule cfg s i t (.deciding h .reinit)
        (((u.emit (.failureStopped t h)).emit (.restartBegin t.target.actor t.mb)).moveTo i t
          (.restarting h))

section Rules

variable {cfg : Config} {s s' : System π} {i : Nat} {t : ApplyTask}

theorem applyRule_halt (pc : ApplyPc π) (f : Fate) (hf : f ≠ .running) :
    ApplyRule cfg s i t pc { s with fate := f } := by
  have h : ApplyRule cfg s i t pc { s with fate := f, trace := s.trace ++ [] } :=
    .halt pc f [] hf fun ev hev => absurd hev List.not_mem_nil
  rw [List.append_nil] at h
  exact h

theorem applyRule_done (pc : ApplyPc π) (hb : pc.holdsBusy = false) (hend : pc.ends = true) :
    ApplyRule cfg s i t pc (s.finish i) := by
  have h : ApplyRule cfg s i t pc ({ s with trace := s.trace ++ [] }.finish i) :=
    .done pc [] hb (fun ev hev => absurd hev List.not_mem_nil) hend
  rw [List.append_nil] at h
  exact h

theorem applyRule_walk (pc pc' : ApplyPc π) (hb : pc.holdsBusy = false)
    (hb' : pc'.holdsBusy = false) (hf : pc'.failing = pc.failing) (hr : pc'.restarts = false) :
    ApplyRule cfg s i t pc (s.moveTo i t pc') := by
  have h : ApplyRule cfg s i t pc ({ s with trace := s.trace ++ [] }.moveTo i t pc') :=
    .walk pc pc' [] hb hb' hf hr fun ev hev => absurd hev List.not_mem_nil
  rw [List.append_nil] at h
  exact h

/-- A single quiet event, as the list the rules take. -/
theorem quiet_singleton {ev : Event π} (h : ev.quiet = true) : ∀ ev' ∈ [ev], ev'.quiet = true :=
  fun ev' hev => by rw [List.mem_singleton.mp hev, h]

theorem applyRule_of_onActorError {h : Bool} {action : ActorActionWhenError} {throws : Bool}
    (hs : onActorError cfg s i t h action throws = some s') :
    ApplyRule cfg s i t (.deciding h action) s' := by
  cases action <;>
    simp only [onActorError, Option.ite_none_right_eq_some, Option.map_eq_some_iff,
      Option.some.injEq] at hs
  case reinit =>
      rcases hs with ⟨hx, u, hu, rfl⟩
      rcases stopActorImplSafety_stops hu with ⟨hstops, hgone⟩
      exact .reinit h u hx hstops hgone hu
  case stop =>
      rcases hs with ⟨hx, u, hu, rfl⟩
      rcases stopActorImplSafety_stops hu with ⟨hstops, hgone⟩
      exact .stop _ u rfl hx hstops hgone hu rfl
  case escalate =>
      rw [← hs]
      exact applyRule_done _ rfl rfl
  case resume =>
      split at hs
      · rw [Option.some.injEq] at hs
        rw [← hs]
        exact applyRule_halt _ .undefined (by decide)
      · split at hs <;> rw [Option.some.injEq] at hs <;> rw [← hs]
        · exact .halt _ .terminated [_] (by decide) (quiet_singleton rfl)
        · exact .done _ [_] rfl (quiet_singleton rfl) rfl

/-- Every step of an apply task follows a rule. -/
theorem applyRule_of_step {st : TaskStep} {pc : ApplyPc π}
    (hs : applyStep cfg s i t st pc = some s') : ApplyRule cfg s i t pc s' := by
  unfold applyStep at hs
  split at hs
  · -- The emptiness test at the top of `apply`.
    rw [Option.some.injEq] at hs
    rw [← hs]
    split
    · exact .entry _ (Or.inl rfl)
    · exact .entry _ (Or.inr rfl)
  · -- One `try_pop`.
    split at hs <;> rename_i hm <;> rw [Option.some.injEq] at hs <;> rw [← hs]
    · exact .popEmpty hm
    · exact .pop _ _ hm
  · -- The handler is called.
    rw [Option.some.injEq] at hs
    rw [← hs]
    exact .callHandler _
  · -- The handler returns, and the loop tries again.
    rw [Option.some.injEq] at hs
    rw [← hs]
    exact .handlerReturn _
  · -- It throws, and `apply` catches.
    rw [Option.some.injEq] at hs
    rw [← hs]
    exact .handlerThrow _ _
  · -- What it throws is no `std::exception`.
    rw [Option.some.injEq] at hs
    rw [← hs]
    exact applyRule_halt _ .terminated (by decide)
  · -- The status after the loop.
    rw [Option.some.injEq] at hs
    rw [← hs]
    exact .updateStatus _ .normal "" false (Or.inl ⟨rfl, rfl, rfl⟩)
  · -- The status after the throw.
    rw [Option.some.injEq] at hs
    rw [← hs]
    exact .updateStatus _ .withError _ true (Or.inr ⟨rfl, rfl, rfl⟩)
  · -- The flag, and then a return or a rethrow.
    rw [Option.some.injEq] at hs
    rw [← hs]
    exact .resetBusy _ _ rfl
  · -- `on_child_status`, with its three outcomes.
    split at hs
    · rw [Option.some.injEq] at hs
      rw [← hs]
      exact applyRule_done _ rfl rfl
    · split at hs <;> rw [Option.some.injEq] at hs <;> rw [← hs]
      · exact .walk .returned (.caught false) [_] rfl rfl rfl rfl (quiet_singleton rfl)
      · exact .done _ [_] rfl (quiet_singleton rfl) rfl
  · -- The first question, or the stop of a parentless actor.
    split at hs
    · rename_i hparent
      rw [Option.ite_none_right_eq_some, Option.map_eq_some_iff] at hs
      rcases hs with ⟨hx, u, hu, rfl⟩
      rcases stopActorImplSafety_stops hu with ⟨hstops, hgone⟩
      refine .stop _ u rfl hx hstops hgone hu ?_
      simp only [ApplyPc.stops, hparent, Option.isNone_none]
    · rw [Option.some.injEq] at hs
      rw [← hs]
      exact applyRule_halt _ .terminated (by decide)
    · rw [Option.some.injEq] at hs
      rw [← hs]
      split
      · exact .walk (.caught _) (.locking _) [_] rfl rfl rfl rfl (quiet_singleton rfl)
      · exact .walk (.caught _) (.deciding _ _) [_] rfl rfl rfl rfl (quiet_singleton rfl)
  · -- `_locker` for the `ESCALATE` loop.
    rw [Option.ite_none_right_eq_some, Option.some.injEq] at hs
    rw [← hs.2]
    exact applyRule_walk _ _ rfl rfl rfl rfl
  · -- One turn of the loop.
    split at hs <;> rw [Option.some.injEq] at hs <;> rw [← hs]
    · exact applyRule_halt _ .undefined (by decide)
    · exact applyRule_halt _ .terminated (by decide)
    · split
      · exact .walk (.escalating _ _) (.escalating _ _) [_] rfl rfl rfl rfl (quiet_singleton rfl)
      · exact .walk (.escalating _ _) (.deciding _ _) [_] rfl rfl rfl rfl (quiet_singleton rfl)
  · -- `on_actor_error`.
    exact applyRule_of_onActorError hs
  · -- `on_start` after a stop, for `REINIT`.
    split at hs <;> rw [Option.some.injEq] at hs <;> rw [← hs]
    · exact applyRule_halt _ .terminated (by decide)
    · exact .done _ [_] rfl (quiet_singleton rfl) rfl
  · -- Any other label is refused.
    exact absurd hs (by simp only [reduceCtorEq, not_false_eq_true])

end Rules

/-- The steps of the mailbox worker. -/
inductive WorkerRule (s : System π) : System π → Prop
  | tryFanOut (hw : s.worker = .idle) (hx : s.canExclude = true) :
      WorkerRule s { s with worker := .fanOut s.exchanges.keys, passDue := false }
  | skipFanOut (hw : s.worker = .idle) :
      WorkerRule s { s with worker := .fanned, passDue := false }
  | nextExchange (x : String) (todo : List String) (hw : s.worker = .fanOut todo) (hx : x ∈ todo) :
      WorkerRule s { s with worker := .draining x (todo.erase x) }
  | popCrash (x : String) (todo : List String) (hw : s.worker = .draining x todo)
      (hx : s.exchanges.lookup x = none) : WorkerRule s s.crash
  | popEmpty (x : String) (todo : List String) (ex : ExchangeT π)
      (hw : s.worker = .draining x todo) (hx : s.exchanges.lookup x = some ex)
      (hpub : ex.pub = []) : WorkerRule s { s with worker := .fanOut todo }
  | pop (x : String) (todo : List String) (ex : ExchangeT π) (e : Stored π)
      (rest : List (Stored π)) (hw : s.worker = .draining x todo)
      (hx : s.exchanges.lookup x = some ex) (hpub : ex.pub = e :: rest) :
      WorkerRule s { s with
        exchanges := s.exchanges.insert x { ex with pub := rest }
        worker := .delivering x e ex.subscribes todo }
  | delivered (x : String) (e : Stored π) (todo : List String)
      (hw : s.worker = .delivering x e [] todo) :
      WorkerRule s { s with worker := .draining x todo }
  | deliverNone (x : String) (e : Stored π) (k : IdT) (ids : List IdT) (todo : List String)
      (hw : s.worker = .delivering x e (k :: ids) todo) (hm : s.mboxes.lookup k = none) :
      WorkerRule s { s with worker := .delivering x e ids todo }
  | deliver (x : String) (e : Stored π) (k : IdT) (ids : List IdT) (todo : List String)
      (m : MailboxPtr) (hw : s.worker = .delivering x e (k :: ids) todo)
      (hm : s.mboxes.lookup k = some m) :
      WorkerRule s { s.push m e (some x) with worker := .delivering x e ids todo }
  | endFanOut (hw : s.worker = .fanOut []) : WorkerRule s { s with worker := .fanned }
  | tryScan (hw : s.worker = .fanned) :
      WorkerRule s { s with worker := .scan s.mailboxPairs [] .next }
  | skipScan (hw : s.worker = .fanned) : WorkerRule s { s with worker := .idle }
  | visitEmpty (todo : List (IdT × MailboxPtr)) (rm : List IdT) (k : IdT) (m : MailboxPtr)
      (hw : s.worker = .scan todo rm .next) (hk : (k, m) ∈ todo) (hm : s.boxes m = []) :
      WorkerRule s { s with worker := .scan (todo.filter fun p => p.1 ≠ k) rm .next }
  | visitStale (todo : List (IdT × MailboxPtr)) (rm : List IdT) (k : IdT) (m : MailboxPtr)
      (hw : s.worker = .scan todo rm .next) (hk : (k, m) ∈ todo) (hm : s.boxes m ≠ [])
      (hd : s.live k = none) :
      WorkerRule s { s with worker := .scan (todo.filter fun p => p.1 ≠ k) (rm ++ [k]) .next }
  | visit (todo : List (IdT × MailboxPtr)) (rm : List IdT) (k : IdT) (m : MailboxPtr)
      (d : Description) (hw : s.worker = .scan todo rm .next) (hk : (k, m) ∈ todo)
      (hm : s.boxes m ≠ []) (hd : s.live k = some d) :
      WorkerRule s { s with worker := .scan (todo.filter fun p => p.1 ≠ k) rm (.trying m d) }
  | lockFail (todo : List (IdT × MailboxPtr)) (rm : List IdT) (m : MailboxPtr) (d : Description)
      (hw : s.worker = .scan todo rm (.trying m d)) (hb : (s.objs d.actor).busy = true) :
      WorkerRule s { s with worker := .scan todo rm .next }
  | lock (todo : List (IdT × MailboxPtr)) (rm : List IdT) (m : MailboxPtr) (d : Description)
      (hw : s.worker = .scan todo rm (.trying m d)) (hb : (s.objs d.actor).busy = false) :
      WorkerRule s { s.setObj d.actor { s.objs d.actor with busy := true } with
        worker := .scan todo rm (.locked m d) }
  | recheckEmpty (todo : List (IdT × MailboxPtr)) (rm : List IdT) (m : MailboxPtr)
      (d : Description) (hw : s.worker = .scan todo rm (.locked m d)) (hm : s.boxes m = []) :
      WorkerRule s { s with worker := .scan todo rm (.releasing d) }
  | recheck (todo : List (IdT × MailboxPtr)) (rm : List IdT) (m : MailboxPtr)
      (d : Description) (hw : s.worker = .scan todo rm (.locked m d)) (hm : s.boxes m ≠ []) :
      WorkerRule s { s with worker := .scan todo rm (.posting m d) }
  | release (todo : List (IdT × MailboxPtr)) (rm : List IdT) (d : Description)
      (hw : s.worker = .scan todo rm (.releasing d)) :
      WorkerRule s { s.setObj d.actor (s.objs d.actor).resetBusy with
        worker := .scan todo rm .next }
  | postCrash (todo : List (IdT × MailboxPtr)) (rm : List IdT) (m : MailboxPtr)
      (d : Description) (hw : s.worker = .scan todo rm (.posting m d))
      (hp : d.parent.empty = false) (hlive : s.live d.parent = none) : WorkerRule s s.crash
  | post (todo : List (IdT × MailboxPtr)) (rm : List IdT) (m : MailboxPtr) (d : Description)
      (p : Option ActorPtr) (hw : s.worker = .scan todo rm (.posting m d))
      (hp : d.parent.empty = true ∧ p = none ∨
        ∃ up, s.live d.parent = some up ∧ p = some up.actor) :
      WorkerRule s { s.userPost (.apply ⟨d, p, m⟩) with worker := .scan todo rm .next }
  | cleanUp (rm : List IdT) (hw : s.worker = .scan [] rm .next) :
      WorkerRule s { s with
        exchanges := s.unusedExchanges.foldl (fun xs n => xs.erase n) s.exchanges
        worker := .purging rm }
  | skipCleanUp (rm : List IdT) (hw : s.worker = .scan [] rm .next) :
      WorkerRule s { s with worker := .purging rm }
  | purge (rm : List IdT) (hw : s.worker = .purging rm) (hx : s.canExclude = true) :
      WorkerRule s { s with
        mboxes := rm.foldl (fun ms k => ms.erase k) s.mboxes
        worker := .idle }
  | skipPurge (rm : List IdT) (hw : s.worker = .purging rm) :
      WorkerRule s { s with worker := .idle }

theorem workerRule_of_visitStep {s s' : System π} {todo : List (IdT × MailboxPtr)}
    {rm : List IdT} {st : WorkerStep} {pc : ScanPc} (hw : s.worker = .scan todo rm pc)
    (hs : visitStep s todo rm st pc = some s') : WorkerRule s s' := by
  unfold visitStep at hs
  split at hs
  · -- A visit: which pair, and what its mailbox and entry say.
    split at hs
    · exact absurd hs (by simp only [reduceCtorEq, not_false_eq_true])
    · rename_i k' k m hfind
      have hmem : (k, m) ∈ todo := List.mem_of_find?_eq_some hfind
      split at hs
      · rename_i hm
        rw [Option.some.injEq] at hs
        rw [← hs]
        exact .visitEmpty todo rm k m hw hmem hm
      · rename_i hm
        split at hs <;> rename_i hd <;> rw [Option.some.injEq] at hs <;> rw [← hs]
        · exact .visitStale todo rm k m hw hmem hm hd
        · exact .visit todo rm k m _ hw hmem hm hd
  · -- The try of the busy flag.
    rename_i m d
    rw [Option.some.injEq] at hs
    rw [← hs]
    cases hb : (s.objs d.actor).busy with
    | false =>
        simp only [BaseActor.tryLock, hb, Bool.false_eq_true, if_false, if_true]
        exact .lock todo rm m d hw hb
    | true =>
        simp only [BaseActor.tryLock, hb, Bool.false_eq_true, if_false, if_true, System.setObj,
          Function.update_eq_self]
        exact .lockFail todo rm m d hw hb
  · -- The second look at the mailbox.
    rename_i m d
    rw [Option.some.injEq] at hs
    rw [← hs]
    by_cases hm : s.boxes m = []
    · rw [if_pos hm]
      exact .recheckEmpty todo rm m d hw hm
    · rw [if_neg hm]
      exact .recheck todo rm m d hw hm
  · -- The mailbox was emptied meanwhile.
    rw [Option.some.injEq] at hs
    rw [← hs]
    exact .release todo rm _ hw
  · -- The post, with the parent as it is now.
    rename_i m d
    split at hs
    · rename_i hp
      rw [Option.some.injEq] at hs
      rw [← hs]
      exact .post todo rm m d none hw (Or.inl ⟨hp, rfl⟩)
    · rename_i hp
      split at hs <;> rename_i hlive <;> rw [Option.some.injEq] at hs <;> rw [← hs]
      · exact .postCrash todo rm m d hw (by simpa using hp) hlive
      · exact .post todo rm m d _ hw (Or.inr ⟨_, hlive, rfl⟩)
  · -- The clean-up of exchanges, if its lock can be had.
    rename_i ok
    rw [Option.ite_none_right_eq_some, Option.some.injEq] at hs
    rcases hs with ⟨rfl, hs⟩
    rw [← hs]
    cases ok with
    | true => exact .cleanUp rm hw
    | false => exact .skipCleanUp rm hw
  · exact absurd hs (by simp only [reduceCtorEq, not_false_eq_true])

/-- Every step of the mailbox worker follows a rule. -/
theorem workerRule_of_step {s s' : System π} {st : WorkerStep} (hs : workerStep s st = some s') :
    WorkerRule s s' := by
  unfold workerStep at hs
  split at hs
  · -- A pass begins, with the fan-out or without it.
    rename_i ok hw
    split at hs
    · exact absurd hs (by simp only [reduceCtorEq, not_false_eq_true])
    · split at hs
      · rw [Option.ite_none_right_eq_some, Option.some.injEq] at hs
        rw [← hs.2]
        exact .tryFanOut hw hs.1
      · rw [Option.some.injEq] at hs
        rw [← hs]
        exact .skipFanOut hw
  · -- The next exchange.
    rename_i x todo hw
    rw [Option.ite_none_right_eq_some, Option.some.injEq] at hs
    rw [← hs.2]
    exact .nextExchange x todo hw hs.1
  · -- One `try_pop` on its publications.
    rename_i x todo hw
    split at hs
    · rename_i hx
      rw [Option.some.injEq] at hs
      rw [← hs]
      exact .popCrash x todo hw hx
    · rename_i hx
      split at hs <;> rename_i hpub <;> rw [Option.some.injEq] at hs <;> rw [← hs]
      · exact .popEmpty x todo _ hw hx hpub
      · exact .pop x todo _ _ _ hw hx hpub
  · -- One subscriber.
    rename_i x e ids todo hw
    split at hs
    · rw [Option.some.injEq] at hs
      rw [← hs]
      exact .delivered x e todo hw
    · split at hs <;> rename_i hm <;> rw [Option.some.injEq] at hs <;> rw [← hs]
      · exact .deliverNone x e _ _ todo hw hm
      · exact .deliver x e _ _ todo _ hw hm
  · -- The fan-out is over.
    rename_i todo hw
    rw [Option.ite_none_right_eq_some, Option.some.injEq] at hs
    rcases hs with ⟨rfl, hs⟩
    rw [← hs]
    exact .endFanOut hw
  · -- The shared lock of the scan.
    rename_i ok hw
    split at hs <;> rw [Option.some.injEq] at hs <;> rw [← hs]
    · exact .tryScan hw
    · exact .skipScan hw
  · -- The removal of mailboxes nobody owns.
    rename_i ok rm hw
    split at hs
    · rw [Option.some.injEq] at hs
      rw [← hs]
      exact .skipPurge rm hw
    · split at hs
      · rw [Option.ite_none_right_eq_some, Option.some.injEq] at hs
        rw [← hs.2]
        exact .purge rm hw hs.1
      · rw [Option.some.injEq] at hs
        rw [← hs]
        exact .skipPurge rm hw
  · -- Inside the scan.
    rename_i hw
    exact workerRule_of_visitStep hw hs
  · exact absurd hs (by simp only [reduceCtorEq, not_false_eq_true])

/-- The worker leaves the actors, the calls of `add_actor` and the threads
    alone. -/
theorem workerRule_rest {s s' : System π} (h : WorkerRule s s') : s' = { s with
    mboxes := s'.mboxes, exchanges := s'.exchanges, objs := s'.objs, boxes := s'.boxes,
    queue := s'.queue, dropped := s'.dropped, worker := s'.worker, passDue := s'.passDue,
    fate := s'.fate, trace := s'.trace } := by
  cases h with
  | post todo rm m d p hw hp => rw [userPost_rest]
  | _ => rfl

/-- What a step of a user thread can be. -/
inductive TaskRule (cfg : Config) (s : System π) (i : Nat) : System π → Prop
  | startHalt (a : ActorPtr) (m : MailboxPtr) (hi : s.running[i]? = some (.starting a m)) :
      TaskRule cfg s i s.terminate
  | startReturn (a : ActorPtr) (m : MailboxPtr) (hi : s.running[i]? = some (.starting a m)) :
      TaskRule cfg s i ((s.emit (.startEnd a m)).finish i)
  | apply (t : ApplyTask) (pc : ApplyPc π) (s' : System π)
      (hi : s.running[i]? = some (.applying t pc)) (h : ApplyRule cfg s i t pc s') :
      TaskRule cfg s i s'

theorem taskRule_of_step {cfg : Config} {s s' : System π} {i : Nat} {st : TaskStep}
    (hs : taskStep cfg s i st = some s') : TaskRule cfg s i s' := by
  unfold taskStep at hs
  split at hs
  · exact absurd hs (by simp only [reduceCtorEq, not_false_eq_true])
  · rename_i a m hi
    split at hs
    · split at hs <;> rw [Option.some.injEq] at hs <;> rw [← hs]
      · exact .startHalt a m hi
      · exact .startReturn a m hi
    · exact absurd hs (by simp only [reduceCtorEq, not_false_eq_true])
  · rename_i t pc hi
    exact .apply t pc s' hi (applyRule_of_step hs)

/-- What a thread that works through a task can do is what the task can. -/
theorem step_of_applying {cfg : Config} {s : System π} {i : Nat} {st : TaskStep}
    {t : ApplyTask} {pc : ApplyPc π} (hfate : s.fate = .running)
    (hi : s.running[i]? = some (.applying t pc)) :
    step cfg s (.task i st) = applyStep cfg s i t st pc := by
  refine (if_pos hfate).trans ?_
  simp only [taskStep, hi]

theorem applyStep_of_step {cfg : Config} {s s' : System π} {i : Nat} {st : TaskStep}
    {t : ApplyTask} {pc : ApplyPc π} (hi : s.running[i]? = some (.applying t pc))
    (hs : step cfg s (.task i st) = some s') :
    s.fate = .running ∧ applyStep cfg s i t st pc = some s' := by
  have hfate : s.fate = .running := by
    unfold step at hs
    rw [Option.ite_none_right_eq_some] at hs
    exact hs.1
  exact ⟨hfate, (step_of_applying hfate hi).symm.trans hs⟩

theorem workerStep_of_step {cfg : Config} {s s' : System π} {st : WorkerStep}
    (hs : step cfg s (.worker st) = some s') : s.fate = .running ∧ workerStep s st = some s' := by
  unfold step at hs
  rw [Option.ite_none_right_eq_some] at hs
  exact hs

theorem stopStep_of_step {cfg : Config} {s s' : System π} {st : StopStep}
    (hs : step cfg s (.stop st) = some s') :
    s.fate = .running ∧ stopStep cfg s st = some s' := by
  unfold step at hs
  rw [Option.ite_none_right_eq_some] at hs
  exact hs

/-- A user thread leaves names, exchanges and the queue alone. -/
theorem taskRule_rest {cfg : Config} {s s' : System π} {i : Nat} (h : TaskRule cfg s i s') :
    s' = { s with
      actors := s'.actors, mboxes := s'.mboxes, objs := s'.objs, boxes := s'.boxes,
      running := s'.running, fate := s'.fate, trace := s'.trace } := by
  cases h with
  | startHalt | startReturn => rfl
  | apply t pc s' hi h =>
      cases h with
      | stop pc u hb hx hu =>
          rw [hu.rest]
          rfl
      | reinit h u hx hu =>
          rw [hu.rest]
          rfl
      | _ => rfl

/-- The sections of the `i`-th call of `add_actor`. -/
inductive AddRule (s : System π) (i : Nat) (c : AddCall) : System π → Prop
  | crash (parent : ActorAddress) (hc : c.stage = .called parent)
      (hp : parent.empty = false) (hlive : s.live parent.id = none) : AddRule s i c s.crash
  | lookup (parent : ActorAddress) (up : Option (IdT × Description)) (d : Description)
      (hc : c.stage = .called parent)
      (hd : d = s.describe c.newId c.actorName c.actor up)
      (hup : parent.empty = true ∧ up = none ∨
        ∃ p, parent.empty = false ∧ s.live parent.id = some p ∧ up = some (parent.id, p)) :
      AddRule s i c { s with
        usrconts := s.usrconts ++ [d.usrcont]
        adding := s.adding.set i { c with stage := .built d } }
  | initReturn (d : Description) (hc : c.stage = .built d) :
      AddRule s i c { s with adding := s.adding.set i { c with stage := .ready d } }
  | initThrow (d : Description) (hc : c.stage = .built d) :
      AddRule s i c { s with adding := s.adding.eraseIdx i }
  | insert (d : Description) (hc : c.stage = .ready d) (hx : s.canExclude = true) :
      AddRule s i c { s.insertActor c.newId d c.actorName with
        adding := s.adding.set i { c with stage := .inserted s.nextBox } }
  | post (m : MailboxPtr) (hc : c.stage = .inserted m) :
      AddRule s i c { s.postStart c.actor m with adding := s.adding.eraseIdx i }

theorem addRule_of_step {s s' : System π} {i : Nat} {st : AddStep}
    (hs : addStep s i st = some s') : ∃ c, s.adding[i]? = some c ∧ AddRule s i c s' := by
  unfold addStep at hs
  split at hs
  · exact absurd hs (by simp only [reduceCtorEq, not_false_eq_true])
  · rename_i c hi
    refine ⟨c, hi, ?_⟩
    split at hs
    · -- The lookup of the parent.
      rename_i parent hc
      split at hs
      · rename_i hp
        rw [Option.some.injEq] at hs
        rw [← hs]
        exact .lookup parent none _ hc rfl (Or.inl ⟨hp, rfl⟩)
      · rename_i hp
        rw [Option.ite_none_right_eq_some] at hs
        rcases hs with ⟨_, hs⟩
        split at hs <;> rename_i hlive <;> rw [Option.some.injEq] at hs <;> rw [← hs]
        · exact .crash parent hc (by simpa using hp) hlive
        · exact .lookup parent _ _ hc rfl (Or.inr ⟨_, by simpa using hp, hlive, rfl⟩)
    · -- `on_init`.
      rename_i d hc
      split at hs <;> rw [Option.some.injEq] at hs <;> rw [← hs]
      · exact .initReturn d hc
      · exact .initThrow d hc
    · -- The exclusive section.
      rename_i d hc
      rw [Option.ite_none_right_eq_some, Option.some.injEq] at hs
      rw [← hs.2]
      exact .insert d hc hs.1
    · -- The post of `on_start`.
      rename_i m hc
      rw [Option.some.injEq] at hs
      rw [← hs]
      exact .post m hc
    · exact absurd hs (by simp only [reduceCtorEq, not_false_eq_true])

/-- A call of `add_actor` leaves exchanges, objects and the threads alone. -/
theorem addRule_rest {s s' : System π} {i : Nat} {c : AddCall} (h : AddRule s i c s') :
    s' = { s with
      actors := s'.actors, idByName := s'.idByName, mboxes := s'.mboxes, boxes := s'.boxes,
      nextBox := s'.nextBox, usrconts := s'.usrconts, adding := s'.adding, queue := s'.queue,
      dropped := s'.dropped, fate := s'.fate, trace := s'.trace } := by
  cases h with
  | post m hc =>
      rw [System.postStart, userPost_rest]
      rfl
  | _ => rfl

/-- The outcomes of a client call. -/
inductive CallRule (cfg : Config) (s : System π) : ContextCall π → System π → Prop
  | addActor (n : String) (parent cur : ActorAddress) (a : ActorPtr)
      (hcur : cur = if parent.empty then s.usrRoot else parent) :
      CallRule cfg s (.addActor n parent a)
        { s.takeId n with adding := s.adding ++ [⟨n, a, s.newId, .called cur⟩] }
  | nothing (c : ContextCall π) : CallRule cfg s c s
  | crash (c : ContextCall π) : CallRule cfg s c s.crash
  | send (target : ActorAddress) (e : Envelope π) (m : MailboxPtr) (e' : Stored π)
      (hx : s.fanningOut = false) (hm : s.mboxes.lookup target.id = some m) (he : e'.1 = e) :
      CallRule cfg s (.sendEnvelope target e) (s.push m e' none)
  | stop (addr : ActorAddress) (u : System π) (hx : s.canExclude = true) (hu : Stops cfg s u)
      (hgone : u.live addr.id = none) (hstop : s.stopActorImplSafety cfg addr .manual = some u) :
      CallRule cfg s (.stopActor addr) u
  | create (c : ContextCall π) (owner : ActorAddress) (name : String)
      (hx : s.fanningOut = false) (hno : s.exchanges.lookup name = none) :
      CallRule cfg s c { s with exchanges := s.exchanges.insert name ⟨[], owner, []⟩ }
  | subscribe (target : ActorAddress) (name : String) (ex : ExchangeT π)
      (hx : s.canExclude = true)
      (hex : s.exchanges.lookup name = some ex ∨
        s.exchanges.lookup name = none ∧ ex = ⟨[], target, []⟩)
      (hlive : (s.live target.id).isSome = true) :
      CallRule cfg s (.subscribeToExchange target name) { s with
        exchanges := s.exchanges.insert name { ex with subscribes := ex.subscribes ++ [target.id] }
        trace := s.trace ++ [.subscribed name target.id (s.mboxes.lookup target.id) ex.pub] }
  | publish (x : String) (e : Envelope π) (ex : ExchangeT π) (e' : Stored π)
      (hex : s.exchanges.lookup x = some ex) (he : e'.1 = e) :
      CallRule cfg s (.publishToExchange x e) { s with
        exchanges := s.exchanges.insert x { ex with pub := ex.pub ++ [e'] }
        trace := s.trace ++ [.published x e'] }

theorem copy?_val {e : Envelope π} {e' : Stored π} (h : e.copy? = some e') : e'.1 = e := by
  unfold Envelope.copy? at h
  split at h
  · cases h
    rfl
  · exact absurd h (by simp only [reduceCtorEq, not_false_eq_true])

theorem callRule_of_call {cfg : Config} {s s' : System π} {c : ContextCall π}
    (hs : contextCall cfg s c = some s') : CallRule cfg s c s' := by
  cases c <;> simp only [contextCall, Option.ite_none_right_eq_some, Option.some.injEq] at hs
  case addActor n parent a =>
      rw [← hs]
      exact .addActor n parent _ a rfl
  case sendEnvelope target e =>
      rcases hs with ⟨hx, rfl⟩
      unfold System.sendEnvelope
      split
      · exact .nothing _
      · rename_i m hm
        split
        · exact .crash _
        · rename_i e' he
          exact .send target e m e' (by simpa [System.canShare] using hx) hm (copy?_val he)
  case stopActor addr =>
      rcases stopActorImplSafety_stops hs.2 with ⟨hu, hgone⟩
      exact .stop addr s' hs.1 hu hgone hs.2
  case createExchange owner name =>
      rcases hs with ⟨hx, rfl⟩
      unfold System.createExchangeUnsafe
      split
      · exact .nothing _
      · rename_i hno
        exact .create _ owner name (by simpa using hx) (by simpa using hno)
  case subscribeToExchange target name =>
      rcases hs with ⟨hx, rfl⟩
      have hf : s.fanningOut = false := by
        simp only [System.canExclude, Bool.and_eq_true, Bool.not_eq_true'] at hx
        exact hx.1.1
      unfold System.subscribeToExchange System.createExchangeUnsafe
      -- The exchange was there, or the call makes it; the subscriber may be gone.
      cases hno : s.exchanges.lookup name with
      | some ex =>
          simp only [Option.isSome_some, if_true, hno]
          split
          · rename_i hlive
            exact .subscribe target name ex hx (Or.inl hno) hlive
          · exact .nothing _
      | none =>
          simp only [Option.isSome_none, Bool.false_eq_true, if_false, AList.lookup_insert,
            AList.insert_insert]
          split
          · rename_i hlive
            exact .subscribe target name ⟨[], target, []⟩ hx (Or.inr ⟨hno, rfl⟩) hlive
          · exact .create _ target name hf hno
  case publishToExchange x e =>
      rw [← hs]
      unfold System.publishToExchange
      split
      · exact .nothing _
      · rename_i ex hex
        split
        · exact .crash _
        · rename_i e' he
          exact .publish x e ex e' hex (copy?_val he)

/-- A client call leaves names, context objects, the pool and the shutdown
    alone. -/
theorem callRule_rest {cfg : Config} {s s' : System π} {c : ContextCall π}
    (h : CallRule cfg s c s') : s' = { s with
      nextActorId := s'.nextActorId, actors := s'.actors, mboxes := s'.mboxes,
      exchanges := s'.exchanges, objs := s'.objs, boxes := s'.boxes, adding := s'.adding,
      fate := s'.fate, trace := s'.trace } := by
  cases h with
  | stop addr u hx hu => rw [hu.rest]
  | _ => rfl

/-- The steps of `context::stop`. -/
inductive StopRule (cfg : Config) (s : System π) : System π → Prop
  | flags (sd : Shutdown) (due : Bool)
      (hmono : (s.shutdown.joined = true → sd.joined = true) ∧
        (s.shutdown.userStop = true → sd.userStop = true))
      (hj : sd.joined = true → s.shutdown.joined = true ∨
        s.worker = .idle ∧ s.running = [] ∧ s.shutdown.userStop = true) :
      StopRule cfg s { s with shutdown := sd, passDue := due }
  | crash : StopRule cfg s s.crash
  | sweep (u : System π) (hj : s.shutdown.joined = true) (hx : s.canExclude = true)
      (hu : Sweeps cfg s u) :
      StopRule cfg s { u with actors := ∅, mboxes := ∅, idByName := ∅ }

/-- A worker with no pass under way is idle. -/
theorem idle_of_passDone {s : System π} (h : s.passDone = true) :
    s.worker = .idle ∧ s.passDue = false := by
  unfold System.passDone at h
  split at h
  · rename_i hw
    exact ⟨hw, by simpa only [Bool.not_eq_true'] using h⟩
  · exact absurd h Bool.false_ne_true

theorem stopRule_of_step {cfg : Config} {s s' : System π} {st : StopStep}
    (hs : stopStep cfg s st = some s') : StopRule cfg s s' := by
  cases st <;> simp only [stopStep, Option.ite_none_right_eq_some, Option.some.injEq] at hs
  case begin =>
      rw [← hs]
      exact .flags _ _ ⟨id, id⟩ fun h => Or.inl h
  case dropPosts =>
      rcases hs with ⟨_, hs⟩
      split at hs <;> rw [Option.some.injEq] at hs <;> rw [← hs]
      · exact .crash
      · exact .flags _ _ ⟨id, id⟩ fun h => Or.inl h
  case stopUserPool | stopSysPool =>
      rw [← hs.2]
      refine .flags _ _ ⟨id, fun h => ?_⟩ fun h => Or.inl h
      first | exact h | rfl
  case join =>
      simp only [Bool.and_eq_true, List.isEmpty_iff] at hs
      rw [← hs.2]
      exact .flags _ _ ⟨fun _ => rfl, id⟩
        fun _ => Or.inr ⟨(idle_of_passDone hs.1.2).1, hs.1.1.2, hs.1.1.1.1⟩
  case sweep =>
      simp only [Bool.and_eq_true] at hs
      rw [← hs.2]
      exact .sweep _ hs.1.1 hs.1.2 (stopAll_sweeps cfg s)

/-- `context::stop` leaves what is in the exchanges, in the mailboxes and in the
    pool alone. -/
theorem stopRule_rest {cfg : Config} {s s' : System π} (h : StopRule cfg s s') : s' = { s with
    actors := s'.actors, idByName := s'.idByName, mboxes := s'.mboxes, objs := s'.objs,
    passDue := s'.passDue, shutdown := s'.shutdown, fate := s'.fate, trace := s'.trace } := by
  cases h with
  | flags | crash => rfl
  | sweep u hj hx hu => rw [hu.rest]

/-- A step of the whole system, by the thread that makes it. -/
inductive StepRule (cfg : Config) (s : System π) : Action π → System π → Prop
  | call (c : ContextCall π) (s' : System π) (h : CallRule cfg s c s') :
      StepRule cfg s (.call c) s'
  | userCall (uc : UserContext) (uc' : UserCall π) (c : ContextCall π) (s' : System π)
      (hc : uc.forward s.shutdown.begun uc' = some c) (h : CallRule cfg s c s') :
      StepRule cfg s (.userCall uc uc') s'
  | userNothing (uc : UserContext) (uc' : UserCall π) : StepRule cfg s (.userCall uc uc') s
  | add (i : Nat) (st : AddStep) (c : AddCall) (s' : System π) (hi : s.adding[i]? = some c)
      (h : AddRule s i c s') : StepRule cfg s (.add i st) s'
  | pick (t : Task) (rest : List Task) (hq : s.queue = t :: rest)
      (hn : s.running.length < cfg.userThreads) (hu : s.shutdown.userStop = false) :
      StepRule cfg s .pick { s with
        queue := rest, running := s.running ++ [t.taken], trace := s.trace ++ t.takenEvent }
  | task (i : Nat) (st : TaskStep) (s' : System π) (h : TaskRule cfg s i s') :
      StepRule cfg s (.task i st) s'
  | worker (st : WorkerStep) (s' : System π) (h : WorkerRule s s') :
      StepRule cfg s (.worker st) s'
  | stop (st : StopStep) (s' : System π) (h : StopRule cfg s s') : StepRule cfg s (.stop st) s'

/-- Every step of the system follows a rule, from a state that is running. -/
theorem stepRule_of_step {cfg : Config} {s s' : System π} {a : Action π}
    (hs : step cfg s a = some s') : s.fate = .running ∧ StepRule cfg s a s' := by
  unfold step at hs
  rw [Option.ite_none_right_eq_some] at hs
  refine ⟨hs.1, ?_⟩
  cases a with
  | call c => exact .call c s' (callRule_of_call hs.2)
  | userCall uc c =>
      have hs := hs.2
      simp only [Option.ite_none_right_eq_some] at hs
      have hs := hs.2
      -- A context object may refuse, and it copies the payload before it forwards.
      unfold userCall at hs
      split at hs
      · rw [Option.some.injEq] at hs
        rw [← hs]
        exact .userNothing uc c
      · rename_i call hc
        split at hs
        · exact .userCall uc c call s' hc (callRule_of_call hs)
        · split at hs
          · exact .userCall uc c call s' hc (callRule_of_call hs)
          · rw [Option.some.injEq] at hs
            rw [← hs]
            exact .userCall uc c call _ hc (.crash call)
  | add i st =>
      rcases addRule_of_step hs.2 with ⟨c, hi, h⟩
      exact .add i st c s' hi h
  | pick =>
      have hs := hs.2
      simp only [Yaaf.pick, Option.ite_none_right_eq_some, Bool.and_eq_true, decide_eq_true_eq]
        at hs
      rcases hs with ⟨hn, hs⟩
      split at hs
      · exact absurd hs (by simp only [reduceCtorEq, not_false_eq_true])
      · rename_i t rest hq
        rw [Option.some.injEq] at hs
        rw [← hs]
        exact .pick t rest hq hn.1 (by simpa using hn.2)
  | task i st => exact .task i st s' (taskRule_of_step hs.2)
  | worker st => exact .worker st s' (workerRule_of_step hs.2)
  | stop st => exact .stop st s' (stopRule_of_step hs.2)

end Yaaf
