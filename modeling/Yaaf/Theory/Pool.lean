import Yaaf.Theory.Registry

/-!
# Tasks in the User Pool

What a step does to the queue, to the threads and to the dropped tasks, and
which registration a task belongs to.

`PoolRule` is the pool's view of a step, the counterpart of `RegistryRule`.
A post names its origin, because there are only two: the last section of
`add_actor` posts `on_start` for the mailbox it just registered, and the
worker posts an apply task for the mailbox it has locked.

`Backed` follows: every task there is, executing ones and dropped ones
included, was posted for a registration. Mailboxes are not shared between
registrations, so two apply tasks on one mailbox are tasks of one actor
object.

## Main definitions

* `Running.task`: The task a thread executes.
* `System.HasTask`: A task that is queued, executing or dropped.
* `PoolRule`: A step, as far as the pool can tell.
* `Task.backed`: The registration a task was posted for.

## Theorems

* `poolRule_of_stepRule`: Every step is one of these.
* `step_backed`, `reach_backed`: Every task has its registration.
* `backed_target`: Tasks on one mailbox have one target.
-/

namespace Yaaf

open Slots

variable {π : Type}

/-- The task a thread executes. -/
def Running.task : Running π → Task
  | .starting a m => .onStart a m
  | .applying t _ => .apply t

/-- A task that is queued, executing or dropped. -/
def System.HasTask (s : System π) (t : Task) : Prop :=
  t ∈ s.queue ∨ t ∈ s.dropped ∨ ∃ r ∈ s.running, r.task = t

/-- Where a post comes from. -/
inductive Posts (s : System π) : Action π → Task → Prop
  | start (st : AddStep) (i : Nat) (c : AddCall) (m : MailboxPtr) (hi : s.adding[i]? = some c)
      (hc : c.stage = .inserted m) : Posts s (.add i st) (.onStart c.actor m)
  | apply (st : WorkerStep) (todo : List (IdT × MailboxPtr)) (rm : List IdT) (m : MailboxPtr)
      (d : Description) (p : Option ActorPtr) (hw : s.worker = .scan todo rm (.posting m d)) :
      Posts s (.worker st) (.apply ⟨d, p, m⟩)

/-- The thread manager queues what it is given. -/
def System.accepts (s : System π) : Bool :=
  !s.shutdown.joined && !s.shutdown.dropping

/-- What a thread's move within an apply task promises. -/
structure Moves (pc pc' : ApplyPc π) : Prop where
  engaged : pc'.engaged = true → pc.engaged = true
  failing : pc'.failing = true → pc.failing = true ∨ pc'.holdsBusy = true
  keeps : pc.failing = true → pc'.failing = true
  restarts : pc'.restarts = true → ∃ h, pc = .deciding h .reinit

/-- A step, as far as the pool can tell. -/
inductive PoolRule (cfg : Config) (s s' : System π) : Action π → Prop
  | same {a : Action π} (hq : s'.queue = s.queue) (hr : s'.running = s.running)
      (hd : s'.dropped = s.dropped) : PoolRule cfg s s' a
  | post {a : Action π} (t : Task) (ht : Posts s a t) (hr : s'.running = s.running)
      (hq : s'.queue = s.queue ++ [t] ∧ s'.dropped = s.dropped ∧ s.accepts = true ∨
        s'.queue = s.queue ∧ s'.dropped = s.dropped ++ [t]) : PoolRule cfg s s' a
  | pick (t : Task) (rest : List Task) (hq : s.queue = t :: rest) (hq' : s'.queue = rest)
      (hr : s'.running = s.running ++ [t.taken]) (hd : s'.dropped = s.dropped)
      (hn : s.running.length < cfg.userThreads) (hu : s.shutdown.userStop = false) :
      PoolRule cfg s s' .pick
  | move (st : TaskStep) (i : Nat) (t : ApplyTask) (pc pc' : ApplyPc π)
      (hi : s.running[i]? = some (.applying t pc)) (hq : s'.queue = s.queue)
      (hr : s'.running = s.running.set i (.applying t pc')) (hd : s'.dropped = s.dropped)
      (hmove : Moves pc pc')
      (hfree : pc.holdsBusy = true → pc'.holdsBusy = true ∨
        (s'.objs t.target.actor).busy = false) : PoolRule cfg s s' (.task i st)
  | finish (st : TaskStep) (i : Nat) (r : Running π) (hi : s.running[i]? = some r)
      (hq : s'.queue = s.queue) (hr : s'.running = s.running.eraseIdx i)
      (hd : s'.dropped = s.dropped) (hend : ∀ a m, r = .starting a m → .startEnd a m ∈ s'.trace)
      (hlast : ∀ t pc, r = .applying t pc → pc.ends = true ∨ pc.stops t = true) :
      PoolRule cfg s s' (.task i st)

theorem userPost_queue (s : System π) (t : Task) :
    (s.userPost t).queue = s.queue ++ [t] ∧ (s.userPost t).dropped = s.dropped ∧
        s.accepts = true ∨
      (s.userPost t).queue = s.queue ∧ (s.userPost t).dropped = s.dropped ++ [t] := by
  unfold System.userPost
  split
  · exact Or.inr ⟨rfl, rfl⟩
  · rename_i hjoined
    split
    · exact Or.inr ⟨rfl, rfl⟩
    · rename_i hdropping
      refine Or.inl ⟨rfl, rfl, ?_⟩
      simp only [System.accepts, hjoined, hdropping, Bool.not_false, Bool.and_self]

section Rules

variable {cfg : Config} {s s' : System π}

theorem stops_pool (h : Stops cfg s s') :
    s'.queue = s.queue ∧ s'.running = s.running ∧ s'.dropped = s.dropped := by
  refine ⟨?_, ?_, ?_⟩ <;> rw [h.rest]

theorem callRule_pool {a : Action π} {c : ContextCall π} (h : CallRule cfg s c s') :
    PoolRule cfg s s' a := by
  cases h with
  | stop addr u hx hu =>
      rcases stops_pool hu with ⟨hq, hr, hd⟩
      exact .same hq hr hd
  | _ => exact .same rfl rfl rfl

theorem engaged_holdsBusy {pc : ApplyPc π} (h : pc.engaged = true) : pc.holdsBusy = true := by
  cases pc <;> first
    | rfl
    | exact absurd h (by simp only [ApplyPc.engaged, Bool.false_eq_true, not_false_eq_true])

/-- A move that does not concern a handler. -/
theorem moves_of_walk {pc pc' : ApplyPc π} (hb : pc'.holdsBusy = false)
    (hf : pc'.failing = pc.failing) (hr : pc'.restarts = false) : Moves pc pc' where
  engaged h := by
    rw [engaged_holdsBusy h] at hb
    exact absurd hb (by simp only [Bool.true_eq_false, not_false_eq_true])
  failing h := Or.inl (by rw [← hf, h])
  keeps h := by rw [hf, h]
  restarts h := by
    rw [hr] at h
    exact absurd h (by simp only [Bool.false_eq_true, not_false_eq_true])

/-- A move that goes on with `base_actor::apply`. -/
theorem moves_of_engaged {pc pc' : ApplyPc π} (he : pc.engaged = true)
    (hb : pc'.holdsBusy = true) (hf : pc.failing = true → pc'.failing = true)
    (hr : pc'.restarts = false) : Moves pc pc' where
  engaged _ := he
  failing _ := Or.inr hb
  keeps := hf
  restarts h := by
    rw [hr] at h
    exact absurd h (by simp only [Bool.false_eq_true, not_false_eq_true])

theorem applyRule_pool {i : Nat} {t : ApplyTask} {pc : ApplyPc π} (st : TaskStep)
    (hi : s.running[i]? = some (.applying t pc)) (h : ApplyRule cfg s i t pc s') :
    PoolRule cfg s s' (.task i st) := by
  have hnot : ∀ a m, Running.applying t pc = .starting a m → Event.startEnd a m ∈ s'.trace :=
    fun a m h => absurd h (by simp only [reduceCtorEq, not_false_eq_true])
  -- Inside `base_actor::apply` the flag is kept from one position to the next.
  have hon : ∀ {u : System π} (pc' : ApplyPc π), u.queue = s.queue → u.dropped = s.dropped →
      u.running = s.running.set i (.applying t pc') → pc.engaged = true →
      pc'.holdsBusy = true → (pc.failing = true → pc'.failing = true) → pc'.restarts = false →
      PoolRule cfg s u (.task i st) :=
    fun pc' hq hd hr he hb hf hre =>
      .move st i t pc pc' hi hq hr hd (moves_of_engaged he hb hf hre) fun _ => Or.inl hb
  have hnever : ∀ {pc' : ApplyPc π}, false = true → pc'.failing = true :=
    fun h => absurd h Bool.false_ne_true
  cases h with
  | entry pc' hpc => rcases hpc with rfl | rfl <;> exact hon _ rfl rfl rfl rfl rfl hnever rfl
  | popEmpty hm => exact hon _ rfl rfl rfl rfl rfl hnever rfl
  | pop e rest hm => exact hon _ rfl rfl rfl rfl rfl hnever rfl
  | callHandler e => exact hon _ rfl rfl rfl rfl rfl hnever rfl
  | handlerReturn e => exact hon _ rfl rfl rfl rfl rfl hnever rfl
  | handlerThrow e what => exact hon _ rfl rfl rfl rfl rfl hnever rfl
  | updateStatus pc k msg r hpc =>
      rcases hpc with ⟨rfl, _⟩ | ⟨rfl, _, rfl⟩
      · exact hon _ rfl rfl rfl rfl rfl hnever rfl
      · exact hon _ rfl rfl rfl rfl rfl id rfl
  | resetBusy r pc' hpc =>
      refine .move st i t _ pc' hi rfl rfl rfl ?_ fun _ => Or.inr ?_
      · subst hpc
        cases r <;> exact moves_of_walk rfl rfl rfl
      · simp only [System.setObj_self]
        rfl
  | halt => exact .same rfl rfl rfl
  | done pc evs hb hevs hend =>
      refine .finish st i _ hi rfl rfl rfl hnot fun t' pc' h => ?_
      cases h
      exact Or.inl hend
  | walk pc pc' evs hb hb' hf hr =>
      refine .move st i t _ pc' hi rfl rfl rfl (moves_of_walk hb' hf hr) fun h => ?_
      rw [hb] at h
      exact absurd h Bool.false_ne_true
  | stop pc u hb hx hu hgone hstop hpc =>
      rcases stops_pool hu with ⟨hq, hr, hd⟩
      refine .finish st i _ hi hq (congrArg (fun l => l.eraseIdx i) hr) hd hnot fun t' pc' h => ?_
      cases h
      exact Or.inr hpc
  | reinit h u hx hu =>
      rcases stops_pool hu with ⟨hq, hr, hd⟩
      refine .move st i t _ (.restarting h) hi hq
        (congrArg (fun l => l.set i (.applying t (.restarting h))) hr) hd
        ⟨fun he => ?_, fun hf => Or.inl hf, id, fun _ => ⟨h, rfl⟩⟩
        fun hb => absurd hb Bool.false_ne_true
      exact absurd he (by simp only [ApplyPc.engaged, Bool.false_eq_true, not_false_eq_true])

/-- Every step is one of the pool's rules. -/
theorem poolRule_of_stepRule {a : Action π} (h : StepRule cfg s a s') :
    PoolRule cfg s s' a := by
  cases h with
  | call c s' h => exact callRule_pool h
  | userCall uc uc' c s' hc h => exact callRule_pool h
  | userNothing => exact .same rfl rfl rfl
  | add i st c s' hi h =>
      cases h with
      | post m hc =>
          have hr : (s.userPost (.onStart c.actor m)).running = s.running := by rw [userPost_rest]
          exact .post _ (.start st i c m hi hc) hr (userPost_queue s _)
      | _ => exact .same rfl rfl rfl
  | pick t rest hq hn hu => exact .pick t rest hq rfl rfl rfl hn hu
  | task i st s' h =>
      cases h with
      | startHalt => exact .same rfl rfl rfl
      | startReturn a m hi =>
          refine .finish st i _ hi rfl rfl rfl (fun b n hbn => ?_) fun t pc h =>
            absurd h (by simp only [reduceCtorEq, not_false_eq_true])
          cases hbn
          exact List.mem_append_right _ (List.mem_singleton.mpr rfl)
      | apply t pc s' hi h => exact applyRule_pool st hi h
  | worker st s' h =>
      cases h with
      | post todo rm m d p hw hp =>
          have hr : (s.userPost (.apply ⟨d, p, m⟩)).running = s.running := by rw [userPost_rest]
          exact .post _ (.apply st todo rm m d p hw) hr (userPost_queue s _)
      | _ => exact .same rfl rfl rfl
  | stop st s' h =>
      have hq : s'.queue = s.queue := by rw [stopRule_rest h]
      have hr : s'.running = s.running := by rw [stopRule_rest h]
      have hd : s'.dropped = s.dropped := by rw [stopRule_rest h]
      exact .same hq hr hd

/-- A step adds no task but the one it posts. -/
theorem poolRule_hasTask {a : Action π} (h : PoolRule cfg s s' a) {t : Task}
    (ht : s'.HasTask t) : s.HasTask t ∨ Posts s a t := by
  unfold System.HasTask at ht ⊢
  cases h with
  | same hq hr hd =>
      rw [hq, hr, hd] at ht
      exact Or.inl ht
  | post t' hpost hr hq =>
      -- The post ends up in the queue or is dropped.
      rcases hq with ⟨hq, hd, _⟩ | ⟨hq, hd⟩ <;> rw [hq, hr, hd] at ht
      · rcases ht with ht | ht
        · rcases List.mem_append.mp ht with ht | ht
          · exact Or.inl (Or.inl ht)
          · rw [List.mem_singleton.mp ht]
            exact Or.inr hpost
        · exact Or.inl (Or.inr ht)
      · rcases ht with ht | ht | ht
        · exact Or.inl (Or.inl ht)
        · rcases List.mem_append.mp ht with ht | ht
          · exact Or.inl (Or.inr (Or.inl ht))
          · rw [List.mem_singleton.mp ht]
            exact Or.inr hpost
        · exact Or.inl (Or.inr (Or.inr ht))
  | pick t' rest hq hq' hr hd _ _ =>
      rw [hq', hr, hd] at ht
      rw [hq]
      rcases ht with ht | ht | ⟨r, hrun, hrt⟩
      · exact Or.inl (Or.inl (List.mem_cons_of_mem _ ht))
      · exact Or.inl (Or.inr (Or.inl ht))
      · rcases List.mem_append.mp hrun with hrun | hrun
        · exact Or.inl (Or.inr (Or.inr ⟨r, hrun, hrt⟩))
        · -- The thread that took the task executes it.
          rw [List.mem_singleton.mp hrun] at hrt
          have : t = t' := by
            rw [← hrt]
            cases t' <;> rfl
          rw [this]
          exact Or.inl (Or.inl List.mem_cons_self)
  -- A thread that moves executes the task it executed before.
  | move st i t' pc pc' hi hq hr hd =>
      rw [hq, hr, hd] at ht
      rcases ht with ht | ht | ⟨r, hrun, hrt⟩
      · exact Or.inl (Or.inl ht)
      · exact Or.inl (Or.inr (Or.inl ht))
      · rcases List.mem_or_eq_of_mem_set hrun with hrun | rfl
        · exact Or.inl (Or.inr (Or.inr ⟨r, hrun, hrt⟩))
        · exact Or.inl (Or.inr (Or.inr ⟨_, List.mem_of_getElem? hi, hrt⟩))
  | finish st i r hi hq hr hd =>
      rw [hq, hr, hd] at ht
      rcases ht with ht | ht | ⟨r', hrun, hrt⟩
      · exact Or.inl (Or.inl ht)
      · exact Or.inl (Or.inr (Or.inl ht))
      · exact Or.inl (Or.inr (Or.inr ⟨r', List.mem_of_mem_eraseIdx hrun, hrt⟩))

end Rules

/-- The registration a task was posted for. -/
def Task.backed (regs : List Registration) : Task → Prop
  | .onStart a m => ∃ r ∈ regs, r.mb = m ∧ r.descr.actor = a
  | .apply t => ∃ r ∈ regs, r.mb = t.mb ∧ r.descr = { t.target with children := [] }

/-- Every task has its registration. -/
def Backed (s : System π) : Prop :=
  ∀ t, s.HasTask t → t.backed s.registrations

section Backed

variable {cfg : Config} {s s' : System π}

/-- What the worker has in hand is an entry of the maps. -/
theorem visit_entry (h : Registered s) {todo : List (IdT × MailboxPtr)} {rm : List IdT}
    {pc : ScanPc} {m : MailboxPtr} {d : Description} (hw : s.worker = .scan todo rm pc)
    (hv : pc.visit? = some (m, d)) : ∃ k r, s.live k = some d ∧ s.mboxes.lookup k = some m ∧
      Entry s.registrations k d r ∧ r.mb = m := by
  have hscan := h.scanned
  simp only [Scanned, hw] at hscan
  rcases hscan.2.2 m d hv with ⟨k, hd, hm⟩
  rcases h.entries k d hd with ⟨r, hr, hrm⟩
  have hmb : r.mb = m := by
    rw [hm, Option.some.injEq] at hrm
    exact hrm.symm
  exact ⟨k, r, hd, hm, hr, hmb⟩

theorem posts_backed (h : Registered s) {a : Action π} {t : Task} (ht : Posts s a t) :
    t.backed s.registrations := by
  cases ht with
  | start st i c m hi hc =>
      have hdraft := (h.drafts c (List.mem_of_getElem? hi)).2
      rw [hc] at hdraft
      exact hdraft
  | apply st todo rm m d p hw =>
      rcases visit_entry h hw rfl with ⟨k, r, _, _, hr, hm⟩
      exact ⟨r, hr.mem, hm, hr.descr⟩

theorem backed_mono {regs regs' : List Registration} (hregs : ∀ r ∈ regs, r ∈ regs') {t : Task}
    (h : t.backed regs) : t.backed regs' := by
  cases t with
  | onStart a m =>
      rcases h with ⟨r, hr, hrm⟩
      exact ⟨r, hregs r hr, hrm⟩
  | apply t =>
      rcases h with ⟨r, hr, hrm⟩
      exact ⟨r, hregs r hr, hrm⟩

theorem step_backed {a : Action π} (hs : step cfg s a = some s') (hreg : Registered s)
    (h : Backed s) : Backed s' := by
  have hmono := step_registrations hs hreg
  intro t ht
  rcases poolRule_hasTask (poolRule_of_stepRule (stepRule_of_step hs).2) ht with ht | ht
  · exact backed_mono hmono (h t ht)
  · exact backed_mono hmono (posts_backed hreg ht)

theorem backed_constructed (name : String) : Backed (constructed (π := π) name) := by
  rintro t (ht | ht | ⟨r, hr, _⟩)
  · exact absurd ht List.not_mem_nil
  · exact absurd ht List.not_mem_nil
  · exact absurd hr List.not_mem_nil

/-- Every task of every state has its registration. -/
theorem reach_backed {name : String} {C : System π → Action π → Prop}
    (h : (context cfg name).Reach C s) : Backed s := by
  have hboth : Registered s ∧ Backed s := always (fun s => Registered s ∧ Backed s)
    ⟨registered_constructed name, backed_constructed name⟩
    (fun s r h => ⟨registered_usrRoot r h.1, h.2⟩)
    (fun s a s' hs h => ⟨step_registered hs h.1, step_backed hs h.1 h.2⟩) h
  exact hboth.2

/-- Tasks on one mailbox have one target. -/
theorem backed_target (h : Filed s) {t t' : ApplyTask}
    (ht : Task.backed s.registrations (.apply t)) (ht' : Task.backed s.registrations (.apply t'))
    (hm : t.mb = t'.mb) : t.target.actor = t'.target.actor := by
  rcases ht with ⟨r, hr, hrm, hrd⟩
  rcases ht' with ⟨r', hr', hrm', hrd'⟩
  have heq : r = r' := registration_unique h hr hr' (by rw [hrm, hrm', hm])
  have hactor : r.descr.actor = t.target.actor := by rw [hrd]
  have hactor' : r'.descr.actor = t'.target.actor := by rw [hrd']
  rw [← hactor, ← hactor', heq]

end Backed

end Yaaf
