import Mathlib.Algebra.GroupWithZero.Nat
import Mathlib.Algebra.Order.BigOperators.Group.List
import Mathlib.Algebra.Order.Group.Nat
import Yaaf.Theory.Subtree

/-!
# What a Pass Leaves Behind

A pass of `mailbox_worker` fans out, tries to get `_locker` in shared mode and,
if it does, goes over all mailboxes. With nothing in between, what it visits
cannot change under it: mail only comes in the fan-out, the registry is as it
was, and a busy flag is only set by the pass itself.

So what the scan has done can be said of the list of tasks that it has posted.
Each is for a live actor with mail that was idle when the pass began, no two
are for one object, and the flags that have been set are theirs and that of the
object in hand. Whoever has mail and is no longer on the list of mailboxes to
visit is busy, be it because of this pass or from before. At the end nothing is
in hand and nothing is left to visit.

Three branches of the scan are never taken in such a pass. A mailbox without a
description does not exist where the maps agree, a mailbox that was found with
mail is not found empty once its actor is locked, and whoever is registered in
a forest has its parent.

A pass that has begun also comes to an end. Both of its parts can always go on,
and each of their steps leaves less to do.

## Main definitions

* `Until`: The worker goes on up to some position, and nobody else does anything.
* `WholePass`: A pass that nothing interrupts.
* `Dispatched`: What a pass comes to that has gone over all mailboxes.
* `Fanning`, `Swept`: How far the fan-out and the scan have come.

## Theorems

* `fanning_step`, `sweeping_step`: One step of each.
* `fanning_of_path`, `sweeping_of_path`: From the beginning to the end.
* `fanOut_ends`, `scan_ends`: There is an end.
* `pass_strands_nothing`: What a pass does.
-/

namespace Yaaf

open Machine Pruning

variable {π : Type}

/-- The worker goes on up to some position, and nobody else does anything. -/
def Until (pc : WorkerPc π) (s : System π) (a : Action π) : Prop :=
  s.worker ≠ pc ∧ ∃ st, a = .worker st

/-- What no step of a pass changes. -/
structure Unmoved (s u : System π) : Prop where
  fate : u.fate = .running
  actors : u.actors = s.actors
  mboxes : u.mboxes = s.mboxes
  shutdown : u.shutdown = s.shutdown

/-- The exchanges that a fan-out has still to visit. -/
def WorkerPc.exchanges : WorkerPc π → List String
  | .fanOut todo => todo
  | .draining x todo | .delivering x _ _ todo => x :: todo
  | _ => []

/-- What the fan-out does not change either. -/
structure Fanning (s u : System π) : Prop extends Unmoved s u where
  boxes : ∀ m, ∃ more, u.boxes m = s.boxes m ++ more
  queue : u.queue = s.queue
  objs : u.objs = s.objs
  left : ∀ x ∈ u.worker.exchanges, (u.exchanges.lookup x).isSome = true
  place : u.fanningOut = true ∨ u.worker = .fanned

/-- The object that the scan has locked and not yet posted a task for. -/
def ScanPc.locked? : ScanPc → Option ActorPtr
  | .locked _ d | .posting _ d => some d.actor
  | _ => none

/-- The mailbox in hand has mail, and nobody is about to be let go. -/
def ScanPc.full (u : System π) : ScanPc → Prop
  | .next => True
  | .trying m _ | .locked m _ | .posting m _ => u.boxes m ≠ []
  | .releasing _ => False

/-- A task for a live actor, with its description, its mailbox, which has mail, and its
    parent, which is live if there is one. -/
def Dispatches (s : System π) (t : ApplyTask) : Prop :=
  ∃ k, s.live k = some t.target ∧ s.mboxes.lookup k = some t.mb ∧ s.boxes t.mb ≠ [] ∧
    (t.target.above = none ∧ t.parent = none ∨
      ∃ p up, t.target.above = some p ∧ s.live p = some up ∧ t.parent = some up.actor)

/-- An object with mail: it is that of a live actor whose mailbox is not empty. -/
def HasMail (s : System π) (a : ActorPtr) : Prop :=
  ∃ k m d, s.live k = some d ∧ d.actor = a ∧ s.mboxes.lookup k = some m ∧ s.boxes m ≠ []

/-- The objects that some tasks are for. -/
def targets (tasks : List ApplyTask) : List ActorPtr :=
  tasks.map fun t => t.target.actor

/-- What a pass comes to that has gone over all mailboxes: one task for each idle object
    with mail, none for any other, and the flags of these objects are set. -/
structure Dispatched (s s' : System π) (tasks : List ApplyTask) : Prop where
  queue : s'.queue = s.queue ++ tasks.map Task.apply
  once : (targets tasks).Nodup
  mem : ∀ a, a ∈ targets tasks ↔ (s.objs a).busy = false ∧ HasMail s' a
  sound : ∀ t ∈ tasks, Dispatches s' t
  busy : ∀ a, HasMail s' a → (s'.objs a).busy = true
  objs : ∀ a, s'.objs a =
    if a ∈ targets tasks then { s.objs a with busy := true } else s.objs a

/-- A pass that nothing interrupts, from `s` to `s'` by way of `u`, where the fan-out is
    over. The Booleans say whether it fanned out, and whether it got the shared lock. -/
structure WholePass (cfg : Config) (ctxName : String) (began ok : Bool) (s u s' : System π) :
    Prop where
  fans : ∃ s₁, step cfg s (.worker (.tryFanOut began)) = some s₁ ∧
    (context cfg ctxName).Path (Until .fanned) s₁ u
  fanned : u.worker = .fanned
  scans : ∃ v, step cfg u (.worker (.tryScan ok)) = some v ∧
    (context cfg ctxName).Path (Until .idle) v s'
  ends : s'.worker = .idle

/-- The objects that the scan has locked. -/
def lockedBy (tasks : List ApplyTask) (pc : ScanPc) : List ActorPtr :=
  targets tasks ++ pc.locked?.toList

/-- What a scan that began in `s` has done so far. -/
structure Swept (s u : System π) (tasks : List ApplyTask) (todo : List (IdT × MailboxPtr))
    (pc : ScanPc) : Prop extends Unmoved s u where
  boxes : u.boxes = s.boxes
  queue : u.queue = s.queue ++ tasks.map Task.apply
  sound : ∀ t ∈ tasks, Dispatches s t
  idle : ∀ a ∈ lockedBy tasks pc, (s.objs a).busy = false
  once : (lockedBy tasks pc).Nodup
  objs : ∀ a, u.objs a = if a ∈ lockedBy tasks pc then { s.objs a with busy := true } else s.objs a
  visited : ∀ k m d, s.mboxes.lookup k = some m → s.live k = some d → (k, m) ∉ todo →
    u.boxes m ≠ [] → (u.objs d.actor).busy = true ∨ pc = .trying m d
  full : pc.full u

/-- The second part of a pass, from the lock on: the scan, and what comes after it. -/
def Sweeping (s u : System π) : Prop :=
  ∃ tasks todo pc, Swept s u tasks todo pc ∧ (u.worker = .scan todo [] pc ∨
    todo = [] ∧ pc = .next ∧ (u.worker = .purging [] ∨ u.worker = .idle))

/-- What is left of the visit of an exchange: its publications, each for its subscribers. -/
def System.visitWork (s : System π) (x : String) : Nat :=
  match s.exchanges.lookup x with
  | none => 1
  | some ex => 2 + ex.pub.length * (ex.subscribes.length + 2)

/-- What is left of the fan-out, given what is left of each visit. -/
def WorkerPc.fanWork (visit : String → Nat) : WorkerPc π → Nat
  | .fanOut todo => (todo.map visit).sum + 1
  | .draining x todo => ((x :: todo).map visit).sum
  | .delivering x _ ids todo => ((x :: todo).map visit).sum + ids.length + 1
  | _ => 0

/-- What is left of the fan-out. -/
def System.fanWork (s : System π) : Nat :=
  s.worker.fanWork s.visitWork

/-- What is left of the visit of a mailbox. -/
def ScanPc.work : ScanPc → Nat
  | .next => 0
  | .trying _ _ => 4
  | .locked _ _ => 3
  | .releasing _ | .posting _ _ => 1

/-- What is left of a pass that has got the shared lock. -/
def WorkerPc.scanWork : WorkerPc π → Nat
  | .scan todo _ pc => 5 * todo.length + pc.work + 2
  | .purging _ => 1
  | _ => 0

section FanOut

variable {s u w : System π}

theorem not_fanningOut {pc : WorkerPc π} (hw : u.worker = pc)
    (hno : System.fanningOut { u with worker := pc } = false) : ¬ u.fanningOut = true := by
  rw [← hw] at hno
  exact Bool.not_eq_true _ ▸ hno

/-- The worker moves on in the fan-out. -/
theorem fanning_of_worker (h : Fanning s u) (pc : WorkerPc π)
    (hleft : ∀ x ∈ pc.exchanges, x ∈ u.worker.exchanges)
    (hplace : System.fanningOut { u with worker := pc } = true ∨ pc = .fanned) :
    Fanning s { u with worker := pc } :=
  ⟨⟨h.fate, h.actors, h.mboxes, h.shutdown⟩, h.boxes, h.queue, h.objs,
    fun x hx => h.left x (hleft x hx), hplace⟩

/-- One step of the fan-out. -/
theorem fanning_step (hr : WorkerRule u w) (h : Fanning s u) (hscan : u.worker ≠ .fanned) :
    Fanning s w := by
  have hplace : u.fanningOut = true := h.place.resolve_right hscan
  cases hr with
  | nextExchange x todo hw hx =>
      refine fanning_of_worker h _ (fun y hy => ?_) (Or.inl rfl)
      rw [hw]
      rcases List.mem_cons.mp hy with rfl | hy
      · exact hx
      · exact List.mem_of_mem_erase hy
  | popCrash x todo hw hx =>
      -- Whoever is still to be visited is there.
      have hsome := h.left x (by rw [hw]; exact List.mem_cons_self)
      rw [hx] at hsome
      exact Bool.noConfusion hsome
  | popEmpty x todo ex hw hx hpub =>
      refine fanning_of_worker h _ (fun y hy => ?_) (Or.inl rfl)
      rw [hw]
      exact List.mem_cons_of_mem x hy
  | pop x todo ex e rest hw hx hpub =>
      refine ⟨⟨h.fate, h.actors, h.mboxes, h.shutdown⟩, h.boxes, h.queue, h.objs, fun y hy => ?_,
        Or.inl rfl⟩
      change ((u.exchanges.insert x { ex with pub := rest }).lookup y).isSome = true
      by_cases hyx : y = x
      · rw [hyx, AList.lookup_insert]
        rfl
      · rw [AList.lookup_insert_ne hyx]
        exact h.left y (by rw [hw]; exact hy)
  | delivered x e todo hw | deliverNone x e k ids todo hw hm =>
      refine fanning_of_worker h _ (fun y hy => ?_) (Or.inl rfl)
      rw [hw]
      exact hy
  | deliver x e k ids todo m hw hm =>
      refine ⟨⟨h.fate, h.actors, h.mboxes, h.shutdown⟩, fun n => ?_, h.queue, h.objs,
        fun y hy => h.left y (by rw [hw]; exact hy), Or.inl rfl⟩
      rcases h.boxes n with ⟨more, hmore⟩
      by_cases hnm : n = m
      · subst hnm
        refine ⟨more ++ [e], ?_⟩
        change Function.update u.boxes n (u.boxes n ++ [e]) n = _
        rw [Function.update_self, hmore, List.append_assoc]
      · refine ⟨more, ?_⟩
        change Function.update u.boxes m (u.boxes m ++ [e]) n = _
        rw [Function.update_of_ne hnm, hmore]
  | endFanOut hw =>
      exact fanning_of_worker h _ (fun y hy => absurd hy List.not_mem_nil) (Or.inr rfl)
  | tryFanOut hw | skipFanOut hw => exact absurd hplace (not_fanningOut hw rfl)
  | tryScan hw | skipScan hw => exact absurd hw hscan
  | visitEmpty _ _ _ _ hw | visitStale _ _ _ _ hw | visit _ _ _ _ _ hw | lockFail _ _ _ _ hw
  | lock _ _ _ _ hw | recheckEmpty _ _ _ _ hw | recheck _ _ _ _ hw | release _ _ _ hw
  | postCrash _ _ _ _ hw | post _ _ _ _ _ hw | cleanUp _ hw | skipCleanUp _ hw | purge _ hw
  | skipPurge _ hw => exact absurd hplace (not_fanningOut hw rfl)

end FanOut

section Scan

variable {s u w : System π} {tasks : List ApplyTask} {todo todo' : List (IdT × MailboxPtr)}
  {pc : ScanPc} {k : IdT} {m : MailboxPtr} {d : Description}

/-- Whoever was visited and had mail is busy, unless it is the next to be tried. -/
theorem busy_of_visited (h : Swept s u tasks todo pc) (hnot : ∀ m d, pc ≠ .trying m d)
    (hm : s.mboxes.lookup k = some m) (hd : s.live k = some d) (hout : (k, m) ∉ todo)
    (hmail : u.boxes m ≠ []) : (u.objs d.actor).busy = true :=
  (h.visited k m d hm hd hout hmail).resolve_right (hnot m d)

/-- The scan looks at a mailbox. If that has mail, its actor is what it turns to next. -/
theorem swept_visit (hlooked : ∀ p ∈ todo, s.mboxes.lookup p.1 = some p.2) (hk : (k, m) ∈ todo)
    (pc : ScanPc) (hnone : pc.locked? = none) (hfull : pc.full u)
    (hvisit : u.boxes m ≠ [] → ∀ d, s.live k = some d → pc = .trying m d)
    (h : Swept s u tasks todo .next) (worker : WorkerPc π) :
    Swept s { u with worker := worker } tasks (todo.filter fun p => p.1 ≠ k) pc := by
  have hlocked : lockedBy tasks pc = lockedBy tasks .next := by
    rw [lockedBy, hnone]
    rfl
  refine ⟨⟨h.fate, h.actors, h.mboxes, h.shutdown⟩, h.boxes, h.queue, h.sound, ?_, ?_, ?_,
    fun j n e hn he hout hmail => ?_, hfull⟩
  · rw [hlocked]
    exact h.idle
  · rw [hlocked]
    exact h.once
  · rw [hlocked]
    exact h.objs
  · by_cases hjk : j = k
    · -- It is the mailbox that the scan looks at.
      subst hjk
      have hnm : n = m := Option.some.inj (hn.symm.trans (hlooked _ hk))
      subst hnm
      exact Or.inr (hvisit hmail e he)
    · have hleft : (j, n) ∉ todo := fun hmem =>
        hout (List.mem_filter.mpr ⟨hmem, decide_eq_true hjk⟩)
      have hbusy := busy_of_visited h (fun _ _ hpc => ScanPc.noConfusion hpc) hn he hleft hmail
      exact Or.inl hbusy

/-- The actor in hand turns out to be busy. -/
theorem swept_lockFail (hbusy : (u.objs d.actor).busy = true)
    (h : Swept s u tasks todo (.trying m d)) (worker : WorkerPc π) :
    Swept s { u with worker := worker } tasks todo .next := by
  refine ⟨⟨h.fate, h.actors, h.mboxes, h.shutdown⟩, h.boxes, h.queue, h.sound, h.idle, h.once,
    h.objs, fun j n e hn he hout hmail => ?_, trivial⟩
  rcases h.visited j n e hn he hout hmail with hvisited | hpc
  · exact Or.inl hvisited
  · rw [ScanPc.trying.injEq] at hpc
    rw [hpc.2] at hbusy
    exact Or.inl hbusy

/-- The actor in hand is locked. -/
theorem swept_lock (hidle : (u.objs d.actor).busy = false)
    (h : Swept s u tasks todo (.trying m d)) (worker : WorkerPc π) :
    Swept s { u.setObj d.actor { u.objs d.actor with busy := true } with worker := worker } tasks
      todo (.locked m d) := by
  have hnew : d.actor ∉ lockedBy tasks (.trying m d) := by
    intro hmem
    rw [h.objs, if_pos hmem] at hidle
    exact Bool.noConfusion hidle
  have hobj : u.objs d.actor = s.objs d.actor := by rw [h.objs, if_neg hnew]
  have hlocked : lockedBy tasks (.locked m d) = lockedBy tasks (.trying m d) ++ [d.actor] := by
    simp only [lockedBy, ScanPc.locked?, Option.toList_some, Option.toList_none, List.append_nil]
  refine ⟨⟨h.fate, h.actors, h.mboxes, h.shutdown⟩, h.boxes, h.queue, h.sound, fun a ha => ?_, ?_,
    fun a => ?_, fun j n e hn he hout hmail => ?_, h.full⟩
  · rw [hlocked] at ha
    rcases List.mem_append.mp ha with ha | ha
    · exact h.idle a ha
    · rw [List.mem_singleton.mp ha, ← hobj]
      exact hidle
  · rw [hlocked]
    refine List.nodup_append.mpr ⟨h.once, List.nodup_singleton _, fun a ha b hb hab => hnew ?_⟩
    rw [← List.mem_singleton.mp hb, ← hab]
    exact ha
  · rw [hlocked]
    change Function.update u.objs d.actor { u.objs d.actor with busy := true } a = _
    by_cases had : a = d.actor
    · rw [had, Function.update_self, if_pos (List.mem_append_right _ List.mem_cons_self), hobj]
    · have hiff : a ∈ lockedBy tasks (.trying m d) ++ [d.actor] ↔
          a ∈ lockedBy tasks (.trying m d) := by
        rw [List.mem_append, List.mem_singleton, or_iff_left had]
      rw [Function.update_of_ne had, h.objs]
      simp only [hiff]
  · left
    change (Function.update u.objs d.actor { u.objs d.actor with busy := true } e.actor).busy = true
    by_cases hed : e.actor = d.actor
    · rw [hed, Function.update_self]
    · rw [Function.update_of_ne hed]
      refine (h.visited j n e hn he hout hmail).resolve_right fun hpc => hed ?_
      rw [ScanPc.trying.injEq] at hpc
      rw [hpc.2]

/-- It has mail still, and a task for it is next. -/
theorem swept_recheck (h : Swept s u tasks todo (.locked m d)) (worker : WorkerPc π) :
    Swept s { u with worker := worker } tasks todo (.posting m d) := by
  refine ⟨⟨h.fate, h.actors, h.mboxes, h.shutdown⟩, h.boxes, h.queue, h.sound, h.idle, h.once,
    h.objs, fun j n e hn he hout hmail => ?_, h.full⟩
  have hbusy := busy_of_visited h (fun _ _ hpc => ScanPc.noConfusion hpc) hn he hout hmail
  exact Or.inl hbusy

theorem userPost_up (hup : u.shutdown = {}) (t : Task) :
    u.userPost t = { u with queue := u.queue ++ [t] } := by
  unfold System.userPost
  rw [hup]
  rfl

/-- In the scan, a step of the worker is one of the visit in hand. -/
theorem workerStep_scan {rm : List IdT} (hw : u.worker = .scan todo rm pc) (st : WorkerStep) :
    workerStep u st = visitStep u todo rm st pc := by
  unfold workerStep
  rw [hw]
  cases st <;> rfl

/-- The parent that a posted task names. -/
theorem parent_of_post {rm : List IdT} {st : WorkerStep} {p : Option ActorPtr}
    (hup : u.shutdown = {}) (hs : visitStep u todo rm st (.posting m d) = some w)
    (hq : w.queue = u.queue ++ [.apply ⟨d, p, m⟩]) :
    d.above = none ∧ p = none ∨
      ∃ j up, d.above = some j ∧ u.live j = some up ∧ p = some up.actor := by
  have hparent : ∀ {q : Option ActorPtr},
      w = { u.userPost (.apply ⟨d, q, m⟩) with worker := .scan todo rm .next } → p = q := by
    intro q hw
    rw [hw, userPost_up hup] at hq
    have hlast := List.append_cancel_left hq
    simp only [List.cons.injEq, Task.apply.injEq, ApplyTask.mk.injEq, true_and, and_true] at hlast
    exact hlast.symm
  unfold Description.above
  cases st with
  | post =>
      simp only [visitStep] at hs
      split at hs
      · rename_i hempty
        exact Or.inl ⟨if_pos hempty, hparent (Option.some.inj hs).symm⟩
      · rename_i hempty
        split at hs
        · -- A crash posts nothing.
          rw [← Option.some.inj hs] at hq
          exact absurd (List.self_eq_append_right.mp hq) (List.cons_ne_nil _ _)
        · rename_i up hlive
          exact Or.inr ⟨d.parent, up, if_neg hempty, hlive, hparent (Option.some.inj hs).symm⟩
  | _ => exact absurd hs (by simp only [visitStep, reduceCtorEq, not_false_eq_true])

/-- A task is posted for it. -/
theorem swept_post {p : Option ActorPtr} (hup : u.shutdown = {})
    (hfound : ∃ k, s.live k = some d ∧ s.mboxes.lookup k = some m)
    (hparent : d.above = none ∧ p = none ∨
      ∃ j up, d.above = some j ∧ s.live j = some up ∧ p = some up.actor)
    (h : Swept s u tasks todo (.posting m d)) (worker : WorkerPc π) :
    Swept s { u.userPost (.apply ⟨d, p, m⟩) with worker := worker } (tasks ++ [⟨d, p, m⟩]) todo
      .next := by
  have hlocked : lockedBy (tasks ++ [⟨d, p, m⟩]) .next = lockedBy tasks (.posting m d) := by
    simp only [lockedBy, targets, ScanPc.locked?, Option.toList_some, Option.toList_none,
      List.append_nil, List.map_append, List.map_cons, List.map_nil]
  rw [userPost_up hup]
  refine ⟨⟨h.fate, h.actors, h.mboxes, h.shutdown⟩, h.boxes, ?_, fun t ht => ?_, ?_, ?_, ?_,
    fun j n e hn he hout hmail => ?_, trivial⟩
  · change u.queue ++ [.apply ⟨d, p, m⟩] = _
    rw [h.queue, List.map_append, List.append_assoc]
    rfl
  · rcases List.mem_append.mp ht with ht | ht
    · exact h.sound t ht
    · rw [List.mem_singleton.mp ht]
      rcases hfound with ⟨k, hd, hm⟩
      exact ⟨k, hd, hm, h.boxes ▸ h.full, hparent⟩
  · rw [hlocked]
    exact h.idle
  · rw [hlocked]
    exact h.once
  · rw [hlocked]
    exact h.objs
  · have hbusy := busy_of_visited h (fun _ _ hpc => ScanPc.noConfusion hpc) hn he hout hmail
    exact Or.inl hbusy

/-- What is registered when the pass begins is registered all along. -/
theorem live_of_unmoved (h : Unmoved s u) (k : IdT) : u.live k = s.live k := by
  unfold System.live
  rw [h.actors]

/-- One step of the scan. -/
theorem swept_step {st : WorkerStep} (hs : workerStep u st = some w) (hreg : Registered u)
    (hforest : Forest s) (hup : s.shutdown = {}) (hw : u.worker = .scan todo [] pc)
    (h : Swept s u tasks todo pc) :
    Sweeping s w := by
  have hscanned := hreg.scanned
  unfold Scanned at hscanned
  rw [hw] at hscanned
  rcases hscanned with ⟨_, hlooked, hinHand⟩
  have hlive := live_of_unmoved h.toUnmoved
  have hlookedS : ∀ q ∈ todo, s.mboxes.lookup q.1 = some q.2 := by
    rw [← h.mboxes]
    exact hlooked
  have helse : ∀ {P : Prop} {pc' : WorkerPc π}, u.worker = pc' → pc' ≠ .scan todo [] pc → P :=
    fun hpc hne => absurd (hpc.symm.trans hw) hne
  have hsame : ∀ {todo' : List (IdT × MailboxPtr)} {rm' : List IdT} {pc' : ScanPc},
      u.worker = .scan todo' rm' pc' → todo' = todo ∧ rm' = [] ∧ pc' = pc := by
    intro todo' rm' pc' hw'
    rw [hw, WorkerPc.scan.injEq] at hw'
    exact ⟨hw'.1.symm, hw'.2.1.symm, hw'.2.2.symm⟩
  cases workerRule_of_step hs with
  | visitEmpty todo' rm j n hw' hj hn =>
      rcases hsame hw' with ⟨rfl, rfl, rfl⟩
      exact ⟨tasks, _, _, swept_visit hlookedS hj .next rfl trivial
        (fun hmail => absurd hn hmail) h _, Or.inl rfl⟩
  | visitStale todo' rm j n hw' hj hn hd =>
      -- A mailbox goes with its description.
      rcases hsame hw' with ⟨rfl, rfl, rfl⟩
      exact absurd ((hreg.noEntry _ hd).symm.trans (hlooked _ hj))
        (by simp only [reduceCtorEq, not_false_eq_true])
  | visit todo' rm j n e hw' hj hn he =>
      rcases hsame hw' with ⟨rfl, rfl, rfl⟩
      refine ⟨tasks, _, _, swept_visit hlookedS hj (.trying n e) rfl hn (fun _ e' he' => ?_) h _,
        Or.inl rfl⟩
      rw [hlive, he'] at he
      rw [Option.some.inj he]
  | lockFail todo' rm n e hw' hb =>
      rcases hsame hw' with ⟨rfl, rfl, rfl⟩
      exact ⟨tasks, _, _, swept_lockFail hb h _, Or.inl rfl⟩
  | lock todo' rm n e hw' hb =>
      rcases hsame hw' with ⟨rfl, rfl, rfl⟩
      exact ⟨tasks, _, _, swept_lock hb h _, Or.inl rfl⟩
  | recheckEmpty todo' rm n e hw' hn =>
      -- Nobody has taken the mail since.
      rcases hsame hw' with ⟨rfl, rfl, rfl⟩
      exact absurd hn h.full
  | recheck todo' rm n e hw' hn =>
      rcases hsame hw' with ⟨rfl, rfl, rfl⟩
      exact ⟨tasks, _, _, swept_recheck h _, Or.inl rfl⟩
  | release todo' rm e hw' =>
      rcases hsame hw' with ⟨rfl, rfl, rfl⟩
      exact False.elim h.full
  | postCrash todo' rm n e hw' hp hnone =>
      -- Whoever is registered has its parent.
      rcases hsame hw' with ⟨rfl, rfl, rfl⟩
      rcases hinHand _ _ rfl with ⟨j, he, _⟩
      have habove : e.above = some e.parent := by
        unfold Description.above
        rw [hp]
        rfl
      rcases hforest.rooted j e e.parent (hlive j ▸ he) habove with ⟨up, hupLive, _⟩
      rw [hlive] at hnone
      exact absurd (hnone.symm.trans hupLive) (by simp only [reduceCtorEq, not_false_eq_true])
  | post todo' rm n e p hw' hp =>
      rcases hsame hw' with ⟨rfl, rfl, rfl⟩
      rcases hinHand _ _ rfl with ⟨j, he, hj⟩
      rw [hlive] at he
      rw [h.mboxes] at hj
      refine ⟨tasks ++ [⟨e, p, n⟩], _, _, swept_post (h.shutdown.trans hup) ⟨j, he, hj⟩ ?_ h _,
        Or.inl rfl⟩
      have hposted := userPost_up (h.shutdown.trans hup) (.apply ⟨e, p, n⟩)
      rcases parent_of_post (h.shutdown.trans hup)
        (workerStep_scan hw st ▸ hs) (by rw [hposted]) with hnone | ⟨i, up, hi, hlive', hup'⟩
      · exact Or.inl hnone
      · exact Or.inr ⟨i, up, hi, hlive i ▸ hlive', hup'⟩
  | cleanUp rm hw' | skipCleanUp rm hw' =>
      rcases hsame hw' with ⟨rfl, rfl, rfl⟩
      exact ⟨tasks, [], .next, ⟨⟨h.fate, h.actors, h.mboxes, h.shutdown⟩, h.boxes, h.queue, h.sound,
        h.idle, h.once, h.objs, h.visited, trivial⟩, Or.inr ⟨rfl, rfl, Or.inl rfl⟩⟩
  | tryFanOut hw' | skipFanOut hw' | tryScan hw' | skipScan hw' | endFanOut hw'
  | nextExchange _ _ hw' | popCrash _ _ hw' | popEmpty _ _ _ hw' | pop _ _ _ _ _ hw'
  | delivered _ _ _ hw' | deliverNone _ _ _ _ _ hw' | deliver _ _ _ _ _ _ hw'
  | purge _ hw' | skipPurge _ hw' =>
      exact helse hw' (by simp only [ne_eq, reduceCtorEq, not_false_eq_true])

theorem unmoved_of_sweeping (h : Sweeping s u) : Unmoved s u := by
  rcases h with ⟨_, _, _, hswept, _⟩
  exact hswept.toUnmoved

/-- One step of the second part of a pass. -/
theorem sweeping_step {st : WorkerStep} (hs : workerStep u st = some w) (hreg : Registered u)
    (hforest : Forest s) (hup : s.shutdown = {}) (hnot : u.worker ≠ .idle) (h : Sweeping s u) :
    Sweeping s w := by
  rcases h with ⟨tasks, todo, pc, hswept, hw | ⟨rfl, rfl, hw | hw⟩⟩
  · exact swept_step hs hreg hforest hup hw hswept
  · -- Nothing is to be removed.
    have hidle : w = { u with worker := .idle } := by
      unfold workerStep at hs
      rw [hw] at hs
      cases st with
      | purge ok => exact (Option.some.inj hs).symm
      | _ => exact absurd hs (by simp only [reduceCtorEq, not_false_eq_true])
    rw [hidle]
    exact ⟨tasks, [], .next, ⟨⟨hswept.fate, hswept.actors, hswept.mboxes, hswept.shutdown⟩,
      hswept.boxes, hswept.queue, hswept.sound, hswept.idle, hswept.once, hswept.objs,
      hswept.visited, trivial⟩, Or.inr ⟨rfl, rfl, Or.inr rfl⟩⟩
  · exact absurd hw hnot

/-- The scan begins with all mailboxes to visit. -/
theorem sweeping_begin (hrun : s.fate = .running) :
    Sweeping s { s with worker := .scan s.mailboxPairs [] .next } := by
  refine ⟨[], s.mailboxPairs, .next, ⟨⟨hrun, rfl, rfl, rfl⟩, rfl, (List.append_nil _).symm,
    fun t ht => ?_, fun a ha => ?_, List.nodup_nil, fun a => (if_neg List.not_mem_nil).symm,
    fun k m d hm _ hout => ?_, trivial⟩, Or.inl rfl⟩
  · exact absurd ht List.not_mem_nil
  · exact absurd ha List.not_mem_nil
  · exact absurd (List.mem_map_of_mem (AList.mem_lookup_iff.mp hm)) hout

/-- Who has mail before a pass has it afterwards. -/
theorem hasMail_of_unmoved (h : Unmoved s u) (hmore : ∀ m, ∃ more, u.boxes m = s.boxes m ++ more)
    {a : ActorPtr} (ha : HasMail s a) : HasMail u a := by
  rcases ha with ⟨k, m, d, hd, had, hm, hmail⟩
  rcases hmore m with ⟨more, hmore⟩
  refine ⟨k, m, d, (live_of_unmoved h k).trans hd, had, by rw [h.mboxes, hm], ?_⟩
  rw [hmore]
  exact List.append_ne_nil_of_left_ne_nil hmail more

end Scan

section Pass

variable {cfg : Config} {ctxName : String} {s s₁ u v s' : System π} {began ok : Bool}

/-- How a pass begins. -/
theorem fanning_begin (hs : step cfg s (.worker (.tryFanOut began)) = some s₁) :
    Fanning s s₁ := by
  rcases workerStep_of_step hs with ⟨hrun, hs⟩
  have hboxes : ∀ m, ∃ more, s.boxes m = s.boxes m ++ more := fun m =>
    ⟨[], (List.append_nil _).symm⟩
  have hidle : s.worker = .idle := by
    cases hw : s.worker with
    | idle => rfl
    | _ => simp only [workerStep, visitStep, hw, reduceCtorEq] at hs
  simp only [workerStep, hidle] at hs
  rw [Option.ite_none_left_eq_some] at hs
  rcases hs with ⟨_, hs⟩
  split at hs
  · -- The exchanges to visit are those that are there.
    rw [Option.ite_none_right_eq_some, Option.some.injEq] at hs
    rw [← hs.2]
    exact ⟨⟨hrun, rfl, rfl, rfl⟩, hboxes, rfl, rfl, fun x hx => AList.lookup_isSome.mpr hx,
      Or.inl rfl⟩
  · rw [Option.some.injEq] at hs
    rw [← hs]
    exact ⟨⟨hrun, rfl, rfl, rfl⟩, hboxes, rfl, rfl, fun x hx => absurd hx List.not_mem_nil,
      Or.inr rfl⟩

/-- The fan-out, from its beginning to its end. -/
theorem fanning_of_path (hp : (context cfg ctxName).Path (Until .fanned) s₁ u)
    (h : Fanning s s₁) : Fanning s u := by
  refine path_invariant (Fanning s) (fun t a t' hc hs ht => ?_) hp h
  rcases hc with ⟨hnot, st, rfl⟩
  change step cfg t (.worker st) = some t' at hs
  exact fanning_step (workerRule_of_step (workerStep_of_step hs).2) ht hnot

/-- The scan, from its beginning to its end. -/
theorem sweeping_of_path (hp : (context cfg ctxName).Path (Until .idle) v s')
    (hreg : Registered v) (hforest : Forest s) (hup : s.shutdown = {}) (h : Sweeping s v) :
    Sweeping s s' := by
  refine (path_invariant (fun t => Registered t ∧ Sweeping s t) (fun t a t' hc hs ht => ?_) hp
    ⟨hreg, h⟩).2
  rcases hc with ⟨hnot, st, rfl⟩
  change step cfg t (.worker st) = some t' at hs
  exact ⟨step_registered hs ht.1,
    sweeping_step (workerStep_of_step hs).2 ht.1 hforest hup hnot ht.2⟩

/-- Where the fan-out is over, the registry is as it was. -/
theorem fanned_of_path (hreg : Registered s) (hforest : Forest s)
    (hbegin : step cfg s (.worker (.tryFanOut began)) = some s₁)
    (hfan : (context cfg ctxName).Path (Until .fanned) s₁ u) :
    Fanning s u ∧ Registered u ∧ Forest u := by
  have hfanning : Fanning s u := fanning_of_path hfan (fanning_begin hbegin)
  refine ⟨hfanning, ?_, ?_⟩
  · refine path_invariant Registered (fun t a t' _ hs ht => ?_) hfan (step_registered hbegin hreg)
    change step cfg t a = some t' at hs
    exact step_registered hs ht
  · unfold Forest
    rw [show u.live = s.live from funext (live_of_unmoved hfanning.toUnmoved)]
    exact hforest

/-- The lock is had, or the pass is over. -/
theorem tryScan_step (hrun : u.fate = .running) (hfanned : u.worker = .fanned) (ok : Bool) :
    step cfg u (.worker (.tryScan ok)) =
      some { u with worker := if ok then .scan u.mailboxPairs [] .next else .idle } := by
  unfold step
  rw [if_pos hrun]
  simp only [workerStep, hfanned]
  cases ok <;> rfl

/-- At the end of the scan there is one task for each idle object with mail. -/
theorem mem_targets {tasks : List ApplyTask} (h : Swept s s' tasks [] .next) (a : ActorPtr) :
    a ∈ targets tasks ↔ (s.objs a).busy = false ∧ HasMail s a := by
  have hlocked : lockedBy tasks .next = targets tasks := List.append_nil _
  constructor
  · intro ha
    refine ⟨h.idle a (hlocked.symm ▸ ha), ?_⟩
    rcases List.mem_map.mp ha with ⟨t, ht, rfl⟩
    rcases h.sound t ht with ⟨k, hlive, hm, hmail, _⟩
    exact ⟨k, t.mb, t.target, hlive, rfl, hm, hmail⟩
  · rintro ⟨hidle, k, m, d, hd, rfl, hm, hmail⟩
    by_contra hnone
    have hbusy := busy_of_visited h (fun _ _ hpc => ScanPc.noConfusion hpc) hm hd
      List.not_mem_nil (h.boxes.symm ▸ hmail)
    rw [h.objs, hlocked, if_neg hnone, hidle] at hbusy
    exact Bool.noConfusion hbusy

/-- A scan that went through all mailboxes. -/
theorem swept_all {tasks : List ApplyTask} (hfan : Fanning s u) (h : Swept u s' tasks [] .next) :
    Dispatched s s' tasks := by
  have hlocked : lockedBy tasks .next = targets tasks := List.append_nil _
  have hmail : ∀ a, HasMail s' a ↔ HasMail u a := by
    intro a
    unfold HasMail System.live
    rw [h.actors, h.mboxes, h.boxes]
  have hmem : ∀ a, a ∈ targets tasks ↔ (s.objs a).busy = false ∧ HasMail s' a := by
    intro a
    rw [mem_targets h, hmail, hfan.objs]
  have hobjs : ∀ a, s'.objs a =
      if a ∈ targets tasks then { s.objs a with busy := true } else s.objs a := by
    intro a
    rw [h.objs, hlocked, hfan.objs]
  refine ⟨by rw [h.queue, hfan.queue], hlocked ▸ h.once, hmem, fun t ht => ?_, fun a ha => ?_,
    hobjs⟩
  · have htask := h.sound t ht
    unfold Dispatches System.live at htask ⊢
    rw [h.actors, h.mboxes, h.boxes]
    exact htask
  · -- It was busy before, or it is the target of a task.
    rw [hobjs]
    split
    · rfl
    · rename_i hnone
      rw [hmem, not_and_or] at hnone
      exact Bool.eq_true_of_not_eq_false (hnone.resolve_right (not_not_intro ha))

end Pass

section Ends

variable {cfg : Config} {ctxName : String} {s s₁ u w : System π} {began : Bool}

/-- A publication that is taken is one less to hand over, and nobody gets more to do. -/
theorem visitWork_pop {x : String} {ex : ExchangeT π} {e : Stored π} {rest : List (Stored π)}
    (hx : u.exchanges.lookup x = some ex) (hpub : ex.pub = e :: rest)
    (hw : w.exchanges = u.exchanges.insert x { ex with pub := rest }) :
    w.visitWork x + ex.subscribes.length + 2 = u.visitWork x ∧
      ∀ y, w.visitWork y ≤ u.visitWork y := by
  have hself : w.visitWork x + ex.subscribes.length + 2 = u.visitWork x := by
    simp only [System.visitWork, hw, AList.lookup_insert, hx, hpub, List.length_cons,
      Nat.add_mul, Nat.one_mul]
    omega
  refine ⟨hself, fun y => ?_⟩
  by_cases hyx : y = x
  · rw [hyx, ← hself]
    omega
  · simp only [System.visitWork, hw, AList.lookup_insert_ne hyx, Nat.le_refl]

/-- A step of the fan-out leaves less of it. -/
theorem fanWork_lt (hr : WorkerRule u w) (h : Fanning s u) (hnot : u.worker ≠ .fanned) :
    w.fanWork < u.fanWork := by
  have hplace : u.fanningOut = true := h.place.resolve_right hnot
  -- Where only the position changes, the visits are as long as they were.
  have hmove : ∀ pc pc' : WorkerPc π, u.worker = pc →
      pc'.fanWork u.visitWork < pc.fanWork u.visitWork → pc'.fanWork u.visitWork < u.fanWork := by
    intro pc pc' hpc hlt
    unfold System.fanWork
    rw [hpc]
    exact hlt
  cases hr with
  | nextExchange x todo hw hx =>
      have hsum := ((List.perm_cons_erase hx).map u.visitWork).sum_nat
      refine hmove _ (.draining x (todo.erase x)) hw ?_
      rw [WorkerPc.fanWork, WorkerPc.fanWork, hsum]
      exact Nat.lt_succ_self _
  | popCrash x todo hw hx =>
      have hsome := h.left x (by rw [hw]; exact List.mem_cons_self)
      rw [hx] at hsome
      exact Bool.noConfusion hsome
  | popEmpty x todo ex hw hx hpub =>
      have hvisit : u.visitWork x = 2 := by
        simp only [System.visitWork, hx, hpub, List.length_nil, Nat.zero_mul]
      refine hmove _ (.fanOut todo) hw ?_
      simp only [WorkerPc.fanWork, List.map_cons, List.sum_cons, hvisit]
      omega
  | pop x todo ex e rest hw hx hpub =>
      let w : System π := { u with
        exchanges := u.exchanges.insert x { ex with pub := rest }
        worker := .delivering x e ex.subscribes todo }
      rcases visitWork_pop (w := w) hx hpub rfl with ⟨hself, hle⟩
      have hrest : (todo.map w.visitWork).sum ≤ (todo.map u.visitWork).sum :=
        List.sum_le_sum fun y _ => hle y
      change w.fanWork < u.fanWork
      simp only [w] at hself hrest
      simp only [System.fanWork, hw, WorkerPc.fanWork, List.map_cons, List.sum_cons, w]
      omega
  | delivered x e todo hw =>
      refine hmove _ (.draining x todo) hw ?_
      simp only [WorkerPc.fanWork, List.length_nil]
      exact Nat.lt_succ_self _
  | deliverNone x e k ids todo hw hm | deliver x e k ids todo m hw hm =>
      refine hmove _ (.delivering x e ids todo) hw ?_
      simp only [WorkerPc.fanWork, List.length_cons]
      exact Nat.lt_succ_self _
  | endFanOut hw => exact hmove _ .fanned hw Nat.one_pos
  | tryFanOut hw | skipFanOut hw => exact absurd hplace (not_fanningOut hw rfl)
  | tryScan hw | skipScan hw => exact absurd hw hnot
  | visitEmpty _ _ _ _ hw | visitStale _ _ _ _ hw | visit _ _ _ _ _ hw | lockFail _ _ _ _ hw
  | lock _ _ _ _ hw | recheckEmpty _ _ _ _ hw | recheck _ _ _ _ hw | release _ _ _ hw
  | postCrash _ _ _ _ hw | post _ _ _ _ _ hw | cleanUp _ hw | skipCleanUp _ hw | purge _ hw
  | skipPurge _ hw => exact absurd hplace (not_fanningOut hw rfl)

/-- The fan-out can always go on. -/
theorem fanOut_goes (h : u.fanningOut = true) : ∃ st w, workerStep u st = some w := by
  cases hw : u.worker with
  | fanOut todo =>
      cases todo with
      | nil =>
          refine ⟨.endFanOut, { u with worker := .fanned }, ?_⟩
          simp only [workerStep, hw, if_pos]
      | cons x todo =>
          refine ⟨.nextExchange x, { u with worker := .draining x ((x :: todo).erase x) }, ?_⟩
          simp only [workerStep, hw, List.mem_cons_self, if_pos]
  | draining x todo =>
      refine ⟨.popPub, Option.isSome_iff_exists.mp ?_⟩
      simp only [workerStep, hw]
      split
      · rfl
      · split <;> rfl
  | delivering x e ids todo =>
      refine ⟨.deliver, Option.isSome_iff_exists.mp ?_⟩
      simp only [workerStep, hw]
      split
      · rfl
      · split <;> rfl
  | _ => exact absurd h (not_fanningOut hw rfl)

/-- The fan-out comes to an end. -/
theorem fanOut_ends (h : Fanning s u) :
    ∃ t, (context cfg ctxName).Path (Until .fanned) u t ∧ t.worker = .fanned := by
  refine path_ends (Fanning s) (fun t => t.worker = .fanned) System.fanWork
    (fun t ht hnot => ?_) h
  have hfanning := ht.place.resolve_right hnot
  rcases fanOut_goes hfanning with ⟨st, w, hw⟩
  have hr := workerRule_of_step hw
  refine ⟨.worker st, w, ⟨hnot, st, rfl⟩, ?_, fanning_step hr ht hnot, fanWork_lt hr ht hnot⟩
  change step cfg t (.worker st) = some w
  unfold step
  rw [if_pos ht.fate]
  exact hw

/-- A step of the scan leaves less of it. -/
theorem scanWork_lt (hr : WorkerRule u w) (hrun : w.fate = .running)
    (hpos : 0 < u.worker.scanWork) : w.worker.scanWork < u.worker.scanWork := by
  have hvisit : ∀ {todo : List (IdT × MailboxPtr)} {k : IdT} {m : MailboxPtr}, (k, m) ∈ todo →
      (todo.filter fun p => p.1 ≠ k).length + 1 ≤ todo.length := by
    intro todo k m hk
    refine List.length_filter_lt_length_iff_exists.mpr ⟨(k, m), hk, ?_⟩
    simp only [ne_eq, not_true_eq_false, decide_false, Bool.false_eq_true, not_false_eq_true]
  cases hr with
  | visitEmpty todo rm k m hw hk | visitStale todo rm k m hw hk | visit todo rm k m d hw hk =>
      have hless := hvisit hk
      rw [hw]
      simp only [WorkerPc.scanWork, ScanPc.work]
      omega
  | lockFail todo rm m d hw | lock todo rm m d hw | recheckEmpty todo rm m d hw
  | recheck todo rm m d hw | release todo rm d hw | post todo rm m d p hw =>
      rw [hw]
      simp only [WorkerPc.scanWork, ScanPc.work]
      omega
  | postCrash todo rm m d hw =>
      exact absurd hrun (by simp only [System.crash, reduceCtorEq, not_false_eq_true])
  | cleanUp rm hw | skipCleanUp rm hw =>
      rw [hw]
      exact Nat.lt_add_left _ Nat.one_lt_two
  | purge rm hw | skipPurge rm hw =>
      rw [hw]
      exact Nat.one_pos
  | tryFanOut hw | skipFanOut hw | tryScan hw | skipScan hw | endFanOut hw | nextExchange _ _ hw
  | popCrash _ _ hw | popEmpty _ _ _ hw | pop _ _ _ _ _ hw | delivered _ _ _ hw
  | deliverNone _ _ _ _ _ hw | deliver _ _ _ _ _ _ hw =>
      rw [hw] at hpos
      exact absurd hpos (Nat.lt_irrefl 0)

/-- The scan can always go on. -/
theorem scan_goes (hpos : 0 < u.worker.scanWork) : ∃ st w, workerStep u st = some w := by
  cases hw : u.worker with
  | scan todo rm pc =>
      suffices hgo : ∃ st w, visitStep u todo rm st pc = some w by
        rcases hgo with ⟨st, w, hs⟩
        exact ⟨st, w, (workerStep_scan hw st).trans hs⟩
      cases pc with
      | next =>
          cases todo with
          | nil => exact ⟨.cleanUp false, { u with worker := .purging rm }, rfl⟩
          | cons p todo =>
              refine ⟨.visit p.1, Option.isSome_iff_exists.mp ?_⟩
              simp only [visitStep, List.find?_cons_of_pos, decide_true]
              split
              · rfl
              · split <;> rfl
      | trying m d => exact ⟨.tryLock, _, rfl⟩
      | locked m d => exact ⟨.recheck, _, rfl⟩
      | releasing d => exact ⟨.release, _, rfl⟩
      | posting m d =>
          refine ⟨.post, Option.isSome_iff_exists.mp ?_⟩
          simp only [visitStep]
          split
          · rfl
          · split <;> rfl
  | purging rm =>
      refine ⟨.purge false, Option.isSome_iff_exists.mp ?_⟩
      simp only [workerStep, hw]
      split <;> rfl
  | _ =>
      rw [hw] at hpos
      exact absurd hpos (Nat.lt_irrefl 0)

/-- The scan comes to an end. -/
theorem scan_ends (hreg : Registered u) (hforest : Forest s) (hup : s.shutdown = {})
    (h : Sweeping s u) :
    ∃ t, (context cfg ctxName).Path (Until .idle) u t ∧ t.worker = .idle := by
  refine path_ends (fun t => Registered t ∧ Sweeping s t) (fun t => t.worker = .idle)
    (fun t => t.worker.scanWork) (fun t ht hnot => ?_) ⟨hreg, h⟩
  have hpos : 0 < t.worker.scanWork := by
    rcases ht.2 with ⟨_, _, _, _, hw | ⟨_, _, hw | hw⟩⟩
    · rw [hw]
      exact Nat.succ_pos _
    · rw [hw]
      exact Nat.one_pos
    · exact absurd hw hnot
  rcases scan_goes hpos with ⟨st, w, hw⟩
  have hs : step cfg t (.worker st) = some w := by
    unfold step
    rw [if_pos (unmoved_of_sweeping ht.2).fate]
    exact hw
  have hsweeping := sweeping_step hw ht.1 hforest hup hnot ht.2
  exact ⟨.worker st, w, ⟨hnot, st, rfl⟩, hs, ⟨step_registered hs ht.1, hsweeping⟩,
    scanWork_lt (workerRule_of_step hw) (unmoved_of_sweeping hsweeping).fate hpos⟩

/-- A pass that has begun comes to an end, with the lock and without. -/
theorem pass_ends (hreg : Registered s) (hforest : Forest s) (hup : s.shutdown = {})
    (hbegin : step cfg s (.worker (.tryFanOut began)) = some s₁) (ok : Bool) :
    ∃ u s', WholePass cfg ctxName began ok s u s' := by
  have hfans : ∃ u, (context cfg ctxName).Path (Until .fanned) s₁ u ∧ u.worker = .fanned :=
    fanOut_ends (fanning_begin hbegin)
  rcases hfans with ⟨u, hfan, hfanned⟩
  rcases fanned_of_path hreg hforest hbegin hfan with ⟨hfanning, hregU, hforestU⟩
  have hlock : step cfg u (.worker (.tryScan ok)) = _ := tryScan_step hfanning.fate hfanned ok
  cases ok with
  | false => exact ⟨u, _, ⟨s₁, hbegin, hfan⟩, hfanned, ⟨_, hlock, Machine.Path.refl _⟩, rfl⟩
  | true =>
      rcases scan_ends (step_registered hlock hregU) hforestU (hfanning.shutdown.trans hup)
        (sweeping_begin hfanning.fate) with ⟨s', hscan, hend⟩
      exact ⟨u, s', ⟨s₁, hbegin, hfan⟩, hfanned, ⟨_, hlock, hscan⟩, hend⟩

/-- What a pass does that nothing interrupts, when the live actors form a forest and no
    `context::stop` has begun. With the shared lock it posts one task for each idle object with
    mail, and none for any other, and what it did not post for is as it was. Without the lock
    it only fans out. -/
theorem pass_strands_nothing (hreg : Registered s) (hforest : Forest s) (hup : s.shutdown = {})
    (hbegin : step cfg s (.worker (.tryFanOut began)) = some s₁) :
    (∀ ok, ∃ u s', WholePass cfg ctxName began ok s u s') ∧
      ∀ ok u s', WholePass cfg ctxName began ok s u s' →
        Unmoved s s' ∧ s'.boxes = u.boxes ∧ (∀ m, ∃ more, u.boxes m = s.boxes m ++ more) ∧
          (ok = true → ∃ tasks, Dispatched s s' tasks) ∧
          (ok = false → s'.queue = s.queue ∧ s'.objs = s.objs) := by
  refine ⟨pass_ends hreg hforest hup hbegin, ?_⟩
  rintro ok u s' ⟨⟨s₂, hbegin, hfan⟩, hfanned, ⟨v, hlock, hscan⟩, hend⟩
  rcases fanned_of_path hreg hforest hbegin hfan with ⟨hfanning, hregU, hforestU⟩
  have hv := Option.some.inj (hlock.symm.trans (tryScan_step hfanning.fate hfanned ok))
  cases ok with
  | false =>
      -- The pass is over at once.
      have hsame : s' = v := by
        refine path_invariant (fun t => t = v) (fun t a t' hc _ ht => ?_) hscan rfl
        rw [ht, hv] at hc
        exact absurd rfl hc.1
      rw [hsame, hv]
      exact ⟨⟨hfanning.fate, hfanning.actors, hfanning.mboxes, hfanning.shutdown⟩, rfl,
        hfanning.boxes, fun h => Bool.noConfusion h, fun _ => ⟨hfanning.queue, hfanning.objs⟩⟩
  | true =>
      have hsweeping : Sweeping u v := by
        rw [hv]
        exact sweeping_begin hfanning.fate
      rcases sweeping_of_path hscan (step_registered hlock hregU) hforestU
        (hfanning.shutdown.trans hup) hsweeping with ⟨tasks, todo, pc, h, hw | ⟨rfl, rfl, _⟩⟩
      · rw [hend] at hw
        exact absurd hw (by simp only [reduceCtorEq, not_false_eq_true])
      · exact ⟨⟨h.fate, h.actors.trans hfanning.actors, h.mboxes.trans hfanning.mboxes,
          h.shutdown.trans hfanning.shutdown⟩, h.boxes, hfanning.boxes,
          fun _ => ⟨tasks, swept_all hfanning h⟩, fun h => Bool.noConfusion h⟩

end Ends

/-- Of two actors that have started, one has mail. -/
def mailed : System Nat :=
  (context (.plain 1) "ctx").after (register "a" .null 3 ++ register "b" .null 4 ++ runStarts 5 ++
    [.call (.sendEnvelope ⟨⟨4⟩, "/root/usr/a"⟩ ⟨some 0, .null⟩)])

/-- A pass posts a task for it. -/
theorem pass_strands_nothing_mailed : ∃ u s' tasks,
    WholePass (.plain 1) "ctx" true true mailed u s' ∧ Dispatched mailed s' tasks ∧
      3 ∈ targets tasks := by
  have hbegin : (step (.plain 1) mailed (.worker (.tryFanOut true))).isSome = true := by decide
  rcases Option.isSome_iff_exists.mp hbegin with ⟨s₁, hbegin⟩
  have hforest : Forest mailed :=
    forest_of_reach (Machine.reach_meets _ (by decide)) (by unfold System.fewCalls; decide)
  have hreg : Registered mailed := reach_registered (C := Machine.free) (Machine.reach_after _)
  rcases @pass_strands_nothing Nat (.plain 1) "ctx" mailed s₁ true hreg hforest (by decide) hbegin
    with ⟨hends, hall⟩
  rcases hends true with ⟨u, s', hpass⟩
  rcases hall true u s' hpass with ⟨hunmoved, hboxes, hmore, hdone, _⟩
  rcases hdone rfl with ⟨tasks, htasks⟩
  refine ⟨u, s', tasks, hpass, htasks, (htasks.mem 3).mpr ⟨by decide, ?_⟩⟩
  refine hasMail_of_unmoved hunmoved (fun m => hboxes ▸ hmore m) ⟨⟨4⟩, 3, ?_⟩
  exact ⟨_, rfl, rfl, rfl, by decide⟩

end Yaaf
