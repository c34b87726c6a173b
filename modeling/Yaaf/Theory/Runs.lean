import Yaaf.Theory.Rules

/-!
# From One Step to Every State

The induction on the runs of a context, done once. `make_context` does not
start from nothing: its constructor leaves an empty context and `start`
registers the framework's own actors in it. Those registrations are calls of
`add_actor` like any other, so the start state is itself the end of a run,
and an invariant needs no second proof for it.

The one thing `start` does besides calling `add_actor` is to note the address
of the user root, which an invariant has to be insensitive to.

## Main definitions

* `Action.adds`: The labels of `add_actor`.
* `Event.adds`, `Task.isStart`: The events of `add_actor` and its tasks.

## Theorems

* `makeContext_running`, `makeContext_queue`, `makeContext_trace`: What
  `make_context` leaves to be done and what it has done.
* `makeContext_quiescent`: Nothing is in progress then.
* `makeContext_invariant`: What `add_actor` preserves holds at the start.
* `always`: What every step preserves holds in every state reached.
-/

namespace Yaaf

variable {π : Type}

/-- The labels of `add_actor`. -/
def Action.adds : Action π → Bool
  | .call (.addActor _ _ _) | .add _ _ => true
  | _ => false

/-- The events of `add_actor`. -/
def Event.adds : Event π → Bool
  | .called _ _ | .registered _ | .startPosted _ => true
  | _ => false

/-- The tasks of `add_actor`. -/
def Task.isStart : Task → Bool
  | .onStart _ _ => true
  | .apply _ => false

section Runs

variable {cfg : Config} {name : String}

/-- No thread has taken anything up when `make_context` returns. -/
theorem makeContext_running : (makeContext (π := π) cfg name).running = [] := by
  unfold makeContext
  cases cfg.network <;> rfl

/-- The starts of the framework's own actors are all that is posted. -/
theorem makeContext_queue (t : ApplyTask) :
    Task.apply t ∉ (makeContext (π := π) cfg name).queue := by
  have hall : (makeContext (π := π) cfg name).queue.all Task.isStart = true := by
    unfold makeContext
    cases cfg.network <;> rfl
  exact fun ht => absurd (List.all_eq_true.mp hall _ ht) Bool.false_ne_true

theorem makeContext_dropped : (makeContext (π := π) cfg name).dropped = [] := by
  unfold makeContext
  cases cfg.network <;> rfl

/-- Their registrations are all that has happened. -/
theorem makeContext_trace {ev : Event π} (h : ev ∈ (makeContext cfg name).trace) :
    ev.adds = true := by
  have hall : (makeContext (π := π) cfg name).trace.all Event.adds = true := by
    unfold makeContext
    cases cfg.network <;> rfl
  exact List.all_eq_true.mp hall ev h

/-- What every step of `add_actor` preserves, a run of such steps preserves. -/
theorem run_adds (I : System π → Prop)
    (hstep : ∀ s a s', Action.adds a = true → step cfg s a = some s' → I s → I s') :
    ∀ (as : List (Action π)) (s t : System π), (∀ a ∈ as, a.adds = true) →
      (context cfg name).run s as = some t → I s → I t := by
  intro as
  induction as with
  | nil =>
      intro s t _ h hs
      simp only [Machine.run, Option.some.injEq] at h
      rw [← h]
      exact hs
  | cons a as ih =>
      intro s t hall h hs
      simp only [Machine.run] at h
      cases hone : (context cfg name).step s a with
      | none =>
          rw [hone] at h
          exact absurd h (by simp only [reduceCtorEq, not_false_eq_true])
      | some s' =>
          rw [hone] at h
          have hs' : I s' := hstep s a s' (hall a List.mem_cons_self) hone hs
          exact ih s' t (fun b hb => hall b (List.mem_cons_of_mem a hb)) h hs'

/-- A context that is still being set up: nothing is in progress. -/
structure Quiescent (s : System π) : Prop where
  fate : s.fate = .running
  adding : s.adding = []
  worker : s.worker = .idle
  running : s.running = []
  shutdown : s.shutdown = {}

theorem quiescent_addNow {s : System π} (hq : Quiescent s) (n : String) (parent : ActorAddress)
    (a : ActorPtr) : Quiescent (s.addNow n parent a) := by
  have hshut := hq.shutdown
  refine ⟨?_, ?_, ?_, ?_, ?_⟩ <;>
    simp only [System.addNow, System.postStart, System.emit, System.userPost, System.insertActor,
      System.takeId, hshut, Bool.false_eq_true, if_false]
  · exact hq.fate
  · exact hq.adding
  · exact hq.worker
  · exact hq.running

theorem quiescent_locks {s : System π} (hw : s.worker = .idle) (hr : s.running = []) :
    s.canShare = true ∧ s.canExclude = true := by
  simp only [System.canShare, System.canExclude, System.fanningOut, System.scanning, hw, hr,
    List.any_nil, Bool.not_false, Bool.and_self, and_self]

/-- The steps of an `add_actor` that nothing interrupts come to `addNow`. -/
theorem register_run {s : System π} (hq : Quiescent s) (n : String) (parent cur : ActorAddress)
    (a : ActorPtr) (up : Option (IdT × Description))
    (hcur : cur = if parent.empty then s.usrRoot else parent)
    (hup : (s.actors.lookup parent.id).map (fun p => (parent.id, p)) = up)
    (hparent : cur.empty = true ∧ up = none ∨
      ∃ p, cur.empty = false ∧ s.actors.lookup cur.id = some p ∧ up = some (cur.id, p)) :
    (context cfg name).run s (register n parent a) = some (s.addNow n parent a) := by
  have hlocks := quiescent_locks hq.worker hq.running
  -- The four states between the sections of the call.
  let c : AddCall := ⟨n, a, s.newId, .called cur⟩
  let d := s.describe s.newId n a up
  let s1 : System π := { s.takeId n with adding := [c] }
  let s2 : System π := { s1 with
    usrconts := s.usrconts ++ [d.usrcont], adding := [{ c with stage := .built d }] }
  let s3 : System π := { s2 with adding := [{ c with stage := .ready d }] }
  let s4 : System π := { s3.insertActor s.newId d n with
    adding := [{ c with stage := .inserted s.nextBox }] }
  have h1 : step cfg s (.call (.addActor n parent a)) = some s1 := by
    simp only [step, contextCall, if_pos hq.fate, hq.adding, ← hcur]
    rfl
  have h2 : step cfg s1 (.add 0 .lookup) = some s2 := by
    refine (if_pos hq.fate).trans ?_
    rcases hparent with ⟨hc, hnone⟩ | ⟨p, hc, hp, hsome⟩
    · simp only [addStep, s1, c, List.getElem?_cons_zero, hc, if_true]
      simp only [← hnone]
      rfl
    · have hshare : s1.canShare = true := hlocks.1
      have hlook : s1.actors.lookup cur.id = some p := hp
      simp only [addStep, s1, c, List.getElem?_cons_zero, hc, Bool.false_eq_true, if_false]
      rw [if_pos hshare, hlook]
      simp only [← hsome]
      rfl
  have h3 : step cfg s2 (.add 0 (.init true)) = some s3 := if_pos hq.fate
  have h4 : step cfg s3 (.add 0 .insert) = some s4 := by
    have hexclude : s3.canExclude = true := hlocks.2
    exact (if_pos hq.fate).trans (if_pos hexclude)
  -- Nothing is shut down, so the post reaches the queue.
  have h5 : step cfg s4 (.add 0 .post) = some (s.addNow n parent a) := by
    have hshut : s.shutdown = {} := hq.shutdown
    refine (if_pos hq.fate).trans ?_
    simp only [addStep, s4, List.getElem?_cons_zero, System.addNow, hup, System.postStart,
      System.userPost, System.insertActor, System.emit, System.takeId, s3, s2, s1, hshut, c,
      Bool.false_eq_true, if_false, List.eraseIdx_cons_zero, hq.adding, d]
  simp only [register, Machine.run, context, h1, h2, h3, h4, h5]

theorem register_adds (n : String) (parent : ActorAddress) (a : ActorPtr) :
    ∀ b ∈ register (π := π) n parent a, b.adds = true := by
  intro b hb
  simp only [register, List.mem_cons, List.not_mem_nil, or_false] at hb
  rcases hb with rfl | rfl | rfl | rfl | rfl <;> rfl

/-- What holds of an empty context and is preserved by `add_actor` holds when
    `make_context` returns. -/
theorem makeContext_invariant (I : System π → Prop) (h0 : I (constructed name))
    (hroot : ∀ s r, I s → I { s with usrRoot := r })
    (hstep : ∀ s a s', Action.adds a = true → step cfg s a = some s' → I s → I s') :
    I (makeContext cfg name) := by
  -- One registration after the other, each of them a run of the context.
  have hregister : ∀ s t n parent a,
      (context cfg name).run s (register n parent a) = some t → I s → I t :=
    fun s t n parent a h hs => run_adds I hstep _ s t (register_adds n parent a) h hs
  have hq0 : Quiescent (constructed (π := π) name) := ⟨rfl, rfl, rfl, rfl, rfl⟩
  have hq1 := quiescent_addNow hq0 "root" .null 0
  have h1 := hregister _ _ "root" .null 0
    (register_run hq0 "root" .null .null 0 none rfl rfl (Or.inl ⟨rfl, rfl⟩)) h0
  have hq2 := quiescent_addNow hq1 "usr" ⟨⟨1⟩, "/root"⟩ 1
  have h2 := hregister _ _ "usr" ⟨⟨1⟩, "/root"⟩ 1
    (register_run hq1 "usr" _ ⟨⟨1⟩, "/root"⟩ 1 _ rfl rfl (Or.inr ⟨_, rfl, rfl, rfl⟩)) h1
  have h2' := hroot _ ⟨⟨2⟩, "/root/usr"⟩ h2
  have hq2' : Quiescent { ((constructed (π := π) name).addNow "root" .null 0).addNow "usr"
      ⟨⟨1⟩, "/root"⟩ 1 with usrRoot := ⟨⟨2⟩, "/root/usr"⟩ } :=
    ⟨hq2.fate, hq2.adding, hq2.worker, hq2.running, hq2.shutdown⟩
  have hq3 := quiescent_addNow hq2' "sys" ⟨⟨1⟩, "/root"⟩ 2
  have h3 := hregister _ _ "sys" ⟨⟨1⟩, "/root"⟩ 2
    (register_run hq2' "sys" _ ⟨⟨1⟩, "/root"⟩ 2 _ rfl rfl (Or.inr ⟨_, rfl, rfl, rfl⟩)) h2'
  unfold makeContext
  cases cfg.network with
  | false => exact h3
  | true =>
      exact hregister _ _ "net" ⟨⟨1⟩, "/root"⟩ 3
        (register_run hq3 "net" _ ⟨⟨1⟩, "/root"⟩ 3 _ rfl rfl (Or.inr ⟨_, rfl, rfl, rfl⟩)) h3

/-- Nothing is in progress when `make_context` returns. -/
theorem makeContext_quiescent : Quiescent (makeContext (π := π) cfg name) := by
  have hq0 : Quiescent (constructed (π := π) name) := ⟨rfl, rfl, rfl, rfl, rfl⟩
  have hq2 := quiescent_addNow (quiescent_addNow hq0 "root" .null 0) "usr" ⟨⟨1⟩, "/root"⟩ 1
  have hq2' : Quiescent { ((constructed (π := π) name).addNow "root" .null 0).addNow "usr"
      ⟨⟨1⟩, "/root"⟩ 1 with usrRoot := ⟨⟨2⟩, "/root/usr"⟩ } :=
    ⟨hq2.fate, hq2.adding, hq2.worker, hq2.running, hq2.shutdown⟩
  have hq3 := quiescent_addNow hq2' "sys" ⟨⟨1⟩, "/root"⟩ 2
  unfold makeContext
  cases cfg.network with
  | false => exact hq3
  | true => exact quiescent_addNow hq3 "net" ⟨⟨1⟩, "/root"⟩ 3

/-- What every step preserves holds in every state of every run. -/
theorem always (I : System π → Prop) (h0 : I (constructed name))
    (hroot : ∀ s r, I s → I { s with usrRoot := r })
    (hstep : ∀ s a s', step cfg s a = some s' → I s → I s')
    {C : System π → Action π → Prop} {s : System π} (h : (context cfg name).Reach C s) : I s :=
  Machine.invariant I (makeContext_invariant I h0 hroot fun s a s' _ => hstep s a s')
    (fun s a s' _ => hstep s a s') h

end Runs

end Yaaf
