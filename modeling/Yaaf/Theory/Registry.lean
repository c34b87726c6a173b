import Yaaf.Library.Slots
import Yaaf.Library.Trace
import Yaaf.Theory.Runs

/-!
# What the Registry Records

A registration is what one `add_actor` call puts into the maps, and it is the
fixed point of everything that follows: descriptions change only in their
child sets, mailboxes are never shared, and a task refers to the registration
it was posted for. The trace keeps the registrations, so a statement about an
entry of a map, a posted task or a visit of the worker can be a statement
about the registration behind it.

`Registered` says that the maps, the calls of `add_actor` in progress and the
scan of the worker all agree with the registrations on record. The scan needs
its own clause. It iterates over `_mboxes` and looks descriptions up as it
goes, with the shared lock held, so nothing it has seen can have changed.

`RegistryRule` is the registry's view of a step: nothing changed, a section
of `add_actor` ran, a stop ran, the maps were cleared, or the worker removed
stale mailboxes. Everything else a step does is invisible here.

## Main definitions

* `System.registrations`, `System.calls`: What `add_actor` left in the trace.
* `Described`: A description says what the call that built it was told.
* `Entry`: A map entry and the registration behind it.
* `Filed`: The maps agree with the registrations.
* `Registered`: So does the scan.
* `RegistryRule`: A step, as far as the registry can tell.

## Theorems

* `registryRule_of_stepRule`: Every step is one of these.
* `step_registered`, `reach_registered`: The agreement is an invariant.
-/

namespace Yaaf

open Slots Trace

variable {π : Type}

/-- The registration an event completes. -/
def Event.registration? : Event π → Option Registration
  | .registered r => some r
  | _ => none

/-- The call of `add_actor` an event begins. -/
def Event.call? : Event π → Option (IdT × String)
  | .called k n => some (k, n)
  | _ => none

/-- Events the registry is about. -/
def Event.files : Event π → Bool
  | .called _ _ | .registered _ => true
  | _ => false

/-- Every registration completed so far, oldest first. -/
def System.registrations (s : System π) : List Registration :=
  s.trace.filterMap Event.registration?

/-- Every call of `add_actor` made so far, with the id it took. -/
def System.calls (s : System π) : List (IdT × String) :=
  s.trace.filterMap Event.call?

/-- A description says what the call of `add_actor` that built it was told,
    and its name continues the name its parent was registered under. -/
structure Described (regs : List Registration) (calls : List (IdT × String)) (id : IdT)
    (actorName : String) (a : ActorPtr) (d : Description) : Prop where
  actor : d.actor = a
  address : d.address = ⟨id, d.name⟩
  usrcont : d.usrcont.addr = d.address
  children : d.children = []
  parent : d.parent = IdT.none ∧ d.name = "/" ++ actorName ∨
    ∃ p ∈ regs, p.descr.address.id = d.parent ∧ d.name = p.descr.name ++ "/" ++ actorName
  called : (id, actorName) ∈ calls

/-- A call of `add_actor` in progress has recorded what it did so far. -/
def Drafted (regs : List Registration) (calls : List (IdT × String)) (c : AddCall) : Prop :=
  (c.newId, c.actorName) ∈ calls ∧ match c.stage with
    | .called _ => True
    | .built d | .ready d => Described regs calls c.newId c.actorName c.actor d
    | .inserted m => ∃ r ∈ regs, r.mb = m ∧ r.descr.actor = c.actor

/-- A description in the map, and the registration that put it there. The
    child set is the only thing that changes afterwards. -/
structure Entry (regs : List Registration) (k : IdT) (d : Description) (r : Registration) :
    Prop where
  mem : r ∈ regs
  id : r.descr.address.id = k
  descr : r.descr = { d with children := [] }

/-- The mailbox and description the worker has in hand. -/
def ScanPc.visit? : ScanPc → Option (MailboxPtr × Description)
  | .next | .releasing _ => none
  | .trying m d | .locked m d | .posting m d => some (m, d)

/-- What the worker has seen of the maps is still so. -/
def Scanned (s : System π) : Prop :=
  match s.worker with
  | .scan todo rm pc => rm = [] ∧ (∀ p ∈ todo, s.mboxes.lookup p.1 = some p.2) ∧
      ∀ m d, pc.visit? = some (m, d) → ∃ k, s.live k = some d ∧ s.mboxes.lookup k = some m
  | .purging rm => rm = []
  | _ => True

/-- The maps and the calls in progress agree with the registrations. -/
structure Filed (s : System π) : Prop where
  drafts : ∀ c ∈ s.adding, Drafted s.registrations s.calls c
  records : ∀ r ∈ s.registrations, Described s.registrations s.calls r.descr.address.id
    r.actorName r.descr.actor r.descr
  entries : ∀ k d, s.live k = some d →
    ∃ r, Entry s.registrations k d r ∧ s.mboxes.lookup k = some r.mb
  noEntry : ∀ k, s.live k = none → s.mboxes.lookup k = none
  children : ∀ k d, s.live k = some d →
    ∀ c ∈ d.children, ∃ r ∈ s.registrations, r.descr.address.id = c
  names : ∀ n k, s.idByName.lookup n = some k → ∃ r ∈ s.registrations, r.descr.address = ⟨k, n⟩
  fresh : ∀ r ∈ s.registrations, r.mb < s.nextBox
  distinct : (s.registrations.map Registration.mb).Nodup

/-- The maps, the calls in progress and the scan agree with the
    registrations. -/
structure Registered (s : System π) : Prop extends Filed s where
  scanned : Scanned s

/-- Nothing the registry is about has changed. -/
structure SameRegistry (s s' : System π) : Prop where
  actors : s'.actors = s.actors
  mboxes : s'.mboxes = s.mboxes
  idByName : s'.idByName = s.idByName
  nextActorId : s'.nextActorId = s.nextActorId
  adding : s'.adding = s.adding
  nextBox : s'.nextBox = s.nextBox
  trace : Grows (fun ev => ev.files = false) s.trace s'.trace

/-- A step, as far as the registry can tell. -/
inductive RegistryRule (cfg : Config) (s : System π) : Action π → System π → Prop
  | same {a : Action π} (s' : System π) (h : SameRegistry s s') (hw : s'.worker = s.worker) :
      RegistryRule cfg s a s'
  | call {a : Action π} (n : String) (b : ActorPtr) (cur : ActorAddress) : RegistryRule cfg s a
      { s.takeId n with adding := s.adding ++ [⟨n, b, s.newId, .called cur⟩] }
  | add {st : AddStep} (i : Nat) (c : AddCall) (s' : System π) (hi : s.adding[i]? = some c)
      (h : AddRule s i c s') : RegistryRule cfg s (.add i st) s'
  | stop {a : Action π} (u s' : System π) (hx : s.canExclude = true) (hu : Stops cfg s u)
      (h : SameRegistry u s') (hw : s'.worker = u.worker) : RegistryRule cfg s a s'
  | clear {a : Action π} (s' : System π) (hx : s.canExclude = true) (hw : s'.worker = s.worker)
      (h : SameRegistry { s with actors := ∅, mboxes := ∅, idByName := ∅ } s') :
      RegistryRule cfg s a s'
  | worker {a : Action π} (s' : System π) (h : WorkerRule s s') : RegistryRule cfg s a s'

/-- No supervision event is about the registry. -/
theorem files_of_quiet {ev : Event π} (h : ev.quiet = true) : ev.files = false := by
  cases ev <;> first | rfl | exact absurd h (by simp only [Event.quiet, Bool.false_eq_true,
    not_false_eq_true])

theorem stops_files {cfg : Config} {s u : System π} (h : Stops cfg s u) :
    Grows (fun ev => ev.files = false) s.trace u.trace :=
  stops_grows h (fun _ _ => rfl) fun _ _ _ => rfl

theorem sweeps_files {cfg : Config} {s u : System π} (h : Sweeps cfg s u) :
    Grows (fun ev => ev.files = false) s.trace u.trace :=
  sweeps_grows h fun _ _ => rfl

theorem applyRule_registry {cfg : Config} {s s' : System π} {i : Nat} {t : ApplyTask}
    {pc : ApplyPc π} {a : Action π} (h : ApplyRule cfg s i t pc s') : RegistryRule cfg s a s' := by
  have hquiet : ∀ evs : List (Event π), (∀ ev ∈ evs, ev.quiet = true) →
      Grows (fun ev => ev.files = false) s.trace (s.trace ++ evs) :=
    fun evs hevs => ⟨evs, rfl, fun ev hev => files_of_quiet (hevs ev hev)⟩
  cases h with
  | entry | popEmpty | pop | updateStatus | resetBusy =>
      exact .same _ ⟨rfl, rfl, rfl, rfl, rfl, rfl, grows_refl⟩ rfl
  | callHandler | handlerReturn | handlerThrow =>
      exact .same _ ⟨rfl, rfl, rfl, rfl, rfl, rfl, grows_one rfl⟩ rfl
  | halt pc f evs hf hevs | done pc evs hb hevs hend | walk pc pc' evs hb hb' hf hr hevs =>
      exact .same _ ⟨rfl, rfl, rfl, rfl, rfl, rfl, hquiet evs hevs⟩ rfl
  | stop pc u hb hx hu => exact .stop u _ hx hu ⟨rfl, rfl, rfl, rfl, rfl, rfl, grows_one rfl⟩ rfl
  | reinit h u hx hu =>
      exact .stop u _ hx hu
        ⟨rfl, rfl, rfl, rfl, rfl, rfl, grows_trans (grows_one rfl) (grows_one rfl)⟩ rfl

theorem callRule_registry {cfg : Config} {s s' : System π} {c : ContextCall π} {a : Action π}
    (h : CallRule cfg s c s') : RegistryRule cfg s a s' := by
  cases h with
  | addActor n parent cur b hcur => exact .call n b cur
  | nothing | crash | create => exact .same _ ⟨rfl, rfl, rfl, rfl, rfl, rfl, grows_refl⟩ rfl
  | send | subscribe | publish => exact .same _ ⟨rfl, rfl, rfl, rfl, rfl, rfl, grows_one rfl⟩ rfl
  | stop addr u hx hu => exact .stop _ _ hx hu ⟨rfl, rfl, rfl, rfl, rfl, rfl, grows_refl⟩ rfl

/-- Every step is one of the registry's rules. -/
theorem registryRule_of_stepRule {cfg : Config} {s s' : System π} {a : Action π}
    (h : StepRule cfg s a s') : RegistryRule cfg s a s' := by
  cases h with
  | call c s' h => exact callRule_registry h
  | userCall uc uc' c s' hc h => exact callRule_registry h
  | userNothing => exact .same _ ⟨rfl, rfl, rfl, rfl, rfl, rfl, grows_refl⟩ rfl
  | add i st c s' hi h => exact .add i c s' hi h
  | pick t rest hq hn =>
      refine .same _ ⟨rfl, rfl, rfl, rfl, rfl, rfl, ⟨t.takenEvent, rfl, fun ev hev => ?_⟩⟩ rfl
      cases t with
      | onStart a m => rw [List.mem_singleton.mp hev]; rfl
      | apply t => exact absurd hev List.not_mem_nil
  | task i st s' h =>
      cases h with
      | startHalt => exact .same _ ⟨rfl, rfl, rfl, rfl, rfl, rfl, grows_refl⟩ rfl
      | startReturn => exact .same _ ⟨rfl, rfl, rfl, rfl, rfl, rfl, grows_one rfl⟩ rfl
      | apply t pc s' hi h => exact applyRule_registry h
  | worker st s' h => exact .worker s' h
  | stop st s' h =>
      cases h with
      | flags | crash => exact .same _ ⟨rfl, rfl, rfl, rfl, rfl, rfl, grows_refl⟩ rfl
      | sweep u hj hx hu =>
          have hgrows := sweeps_files hu
          -- The sweep calls `on_stop` and empties the maps in the end.
          rw [hu.rest] at *
          exact .clear _ hx rfl ⟨rfl, rfl, rfl, rfl, rfl, rfl, hgrows⟩

theorem registration?_of_files {ev : Event π} (h : ev.files = false) : ev.registration? = none := by
  cases ev <;> first | rfl | exact absurd h (by simp only [Event.files, Bool.true_eq_false,
    not_false_eq_true])

theorem call?_of_files {ev : Event π} (h : ev.files = false) : ev.call? = none := by
  cases ev <;> first | rfl | exact absurd h (by simp only [Event.files, Bool.true_eq_false,
    not_false_eq_true])

section Described

variable {regs regs' : List Registration} {calls calls' : List (IdT × String)}

theorem described_mono (hregs : ∀ r ∈ regs, r ∈ regs') (hcalls : ∀ c ∈ calls, c ∈ calls')
    {id : IdT} {n : String} {a : ActorPtr} {d : Description} (h : Described regs calls id n a d) :
    Described regs' calls' id n a d where
  actor := h.actor
  address := h.address
  usrcont := h.usrcont
  children := h.children
  parent := by
    rcases h.parent with hp | ⟨p, hp, hid, hname⟩
    · exact Or.inl hp
    · exact Or.inr ⟨p, hregs p hp, hid, hname⟩
  called := hcalls _ h.called

theorem drafted_mono (hregs : ∀ r ∈ regs, r ∈ regs') (hcalls : ∀ c ∈ calls, c ∈ calls')
    {c : AddCall} (h : Drafted regs calls c) : Drafted regs' calls' c := by
  refine ⟨hcalls _ h.1, ?_⟩
  have hstage := h.2
  cases hc : c.stage with
  | called p => exact trivial
  | built d | ready d =>
      rw [hc] at hstage
      exact described_mono hregs hcalls hstage
  | inserted m =>
      rw [hc] at hstage
      rcases hstage with ⟨r, hr, hm⟩
      exact ⟨r, hregs r hr, hm⟩

end Described

section Filed

variable {s s' : System π}

theorem sameRegistry_registrations (h : SameRegistry s s') : s'.registrations = s.registrations :=
  filterMap_of_grows _ (fun _ => registration?_of_files) h.trace

theorem sameRegistry_calls (h : SameRegistry s s') : s'.calls = s.calls :=
  filterMap_of_grows _ (fun _ => call?_of_files) h.trace

theorem stops_registrations {cfg : Config} (h : Stops cfg s s') :
    s'.registrations = s.registrations :=
  filterMap_of_grows _ (fun _ => registration?_of_files) (stops_files h)

theorem stops_calls {cfg : Config} (h : Stops cfg s s') : s'.calls = s.calls :=
  filterMap_of_grows _ (fun _ => call?_of_files) (stops_files h)

theorem sweeps_registrations {cfg : Config} (h : Sweeps cfg s s') :
    s'.registrations = s.registrations :=
  filterMap_of_grows _ (fun _ => registration?_of_files) (sweeps_files h)

theorem sweeps_calls {cfg : Config} (h : Sweeps cfg s s') : s'.calls = s.calls :=
  filterMap_of_grows _ (fun _ => call?_of_files) (sweeps_files h)

/-- The agreement, when only the maps change. What is left in them has to be
    what was there, and the two maps have to lose the same keys. -/
theorem filed_of_fewer (hregs : s'.registrations = s.registrations) (hcalls : s'.calls = s.calls)
    (hadding : s'.adding = s.adding) (hnext : s'.nextBox = s.nextBox)
    (hnames : ∀ n k, s'.idByName.lookup n = some k → s.idByName.lookup n = some k)
    (hlive : ∀ k d, s'.live k = some d → s.live k = some d ∧ s'.mboxes.lookup k = s.mboxes.lookup k)
    (hgone : ∀ k, s'.live k = none → s'.mboxes.lookup k = none) (h : Filed s) : Filed s' where
  drafts := by
    rw [hregs, hcalls, hadding]
    exact h.drafts
  records := by
    rw [hregs, hcalls]
    exact h.records
  entries k d hd := by
    rw [hregs, (hlive k d hd).2]
    exact h.entries k d (hlive k d hd).1
  noEntry := hgone
  children k d hd c hc := by
    rw [hregs]
    exact h.children k d (hlive k d hd).1 c hc
  names n k hn := by
    rw [hregs]
    exact h.names n k (hnames n k hn)
  fresh := by
    rw [hregs, hnext]
    exact h.fresh
  distinct := by
    rw [hregs]
    exact h.distinct

theorem filed_of_same (hs : SameRegistry s s') (h : Filed s) : Filed s' := by
  refine filed_of_fewer (sameRegistry_registrations hs) (sameRegistry_calls hs) hs.adding hs.nextBox
    (by rw [hs.idByName]; exact fun _ _ => id) (fun k d hd => ?_) (fun k hk => ?_) h
  · unfold System.live at hd ⊢
    rw [hs.actors] at hd
    exact ⟨hd, by rw [hs.mboxes]⟩
  · unfold System.live at hk
    rw [hs.actors] at hk
    rw [hs.mboxes]
    exact h.noEntry k hk

theorem filed_of_stops {cfg : Config} (hs : Stops cfg s s') (h : Filed s) : Filed s' := by
  refine filed_of_fewer (stops_registrations hs) (stops_calls hs) (by rw [hs.rest])
    (by rw [hs.rest]) (by rw [hs.rest]; exact fun _ _ => id) (fun k d hd => ?_) (fun k hk => ?_) h
  · have hd' : s.live k = some d := Pruning.prunes_some hs.prunes hd
    exact ⟨hd', hs.mboxesKept k (by rw [hd, hd'])⟩
  · -- Either it was not registered before, or this stop removed it.
    cases hd : s.live k with
    | none => rw [hs.mboxesKept k (by rw [hk, hd]), h.noEntry k hd]
    | some d => exact hs.mboxesGone k d ⟨hd, hk⟩

theorem filed_of_clear (hs : SameRegistry { s with actors := ∅, mboxes := ∅, idByName := ∅ } s')
    (h : Filed s) : Filed s' := by
  refine filed_of_same hs (filed_of_fewer (s := s) rfl rfl rfl rfl (fun n k hn => ?_)
    (fun k d hd => ?_) (fun k _ => AList.lookup_empty k) h)
  · exact absurd hn (by rw [AList.lookup_empty]; simp only [reduceCtorEq, not_false_eq_true])
  · exact absurd hd (by
      unfold System.live
      rw [AList.lookup_empty]
      simp only [reduceCtorEq, not_false_eq_true])

theorem filed_of_call (n : String) (a : ActorPtr) (cur : ActorAddress) (h : Filed s) :
    Filed { s.takeId n with adding := s.adding ++ [⟨n, a, s.newId, .called cur⟩] } := by
  let s' : System π := { s.takeId n with adding := s.adding ++ [⟨n, a, s.newId, .called cur⟩] }
  have hregs : s'.registrations = s.registrations :=
    filterMap_of_grows _ (fun _ hev => hev) (grows_one rfl)
  have hcalls : s'.calls = s.calls ++ [(s.newId, n)] := List.filterMap_append
  have hmono : ∀ c ∈ s.calls, c ∈ s'.calls := by
    rw [hcalls]
    exact fun c hc => List.mem_append_left _ hc
  refine
    { drafts := fun c hc => ?_, records := fun r hr => ?_, entries := hregs ▸ h.entries,
      noEntry := h.noEntry, children := hregs ▸ h.children, names := hregs ▸ h.names,
      fresh := hregs ▸ h.fresh, distinct := hregs ▸ h.distinct }
  · rw [hregs]
    rcases List.mem_append.mp hc with hc | hc
    · exact drafted_mono (fun _ => id) hmono (h.drafts c hc)
    · rw [List.mem_singleton.mp hc]
      refine ⟨?_, trivial⟩
      rw [hcalls]
      exact List.mem_append_right _ (List.mem_singleton.mpr rfl)
  · rw [hregs] at hr ⊢
    exact described_mono (fun _ => id) hmono (h.records r hr)

/-- The calls in progress move on, all of them still as recorded. -/
theorem filed_of_adding (l : List AddCall) (ucs : List UserContext)
    (hl : ∀ c ∈ l, Drafted s.registrations s.calls c) (h : Filed s) :
    Filed { s with adding := l, usrconts := ucs } :=
  { h with drafts := hl }

/-- A child is added under its parent's entry, if there is one. -/
theorem addChild_lookup (actors : AList (fun _ : IdT => Description)) (parent child k : IdT) :
    (System.addChild actors parent child).lookup k = (actors.lookup k).map fun p =>
      if k = parent ∧ parent.empty = false then { p with children := p.children.insert child }
      else p := by
  unfold System.addChild
  by_cases hempty : parent.empty = true
  · simp only [hempty, if_true, Bool.true_eq_false, and_false, if_false, Option.map_id']
  · rw [if_neg hempty]
    have hne : parent.empty = false := by simpa using hempty
    cases hp : actors.lookup parent with
    | none =>
        by_cases hk : k = parent
        · rw [hk, hp]
          rfl
        · simp only [hk, false_and, if_false, Option.map_id']
    | some p =>
        by_cases hk : k = parent
        · subst hk
          simp only [AList.lookup_insert, hp, Option.map_some, hne, and_self, if_true]
        · simp only [hk, false_and, if_false, Option.map_id', AList.lookup_insert_ne hk]

theorem insertActor_live (id : IdT) (d : Description) (n : String) (k : IdT) :
    (s.insertActor id d n).live k = if k = id then some d else (s.live k).map fun p =>
      if k = d.parent ∧ d.parent.empty = false then { p with children := p.children.insert id }
      else p := by
  unfold System.live System.insertActor
  by_cases hk : k = id
  · rw [if_pos hk, hk]
    exact AList.lookup_insert _
  · rw [if_neg hk]
    exact (AList.lookup_insert_ne hk).trans (addChild_lookup _ _ _ _)

theorem insertActor_registrations (id : IdT) (d : Description) (n : String) :
    (s.insertActor id d n).registrations = s.registrations ++ [⟨d, n, s.nextBox⟩] :=
  List.filterMap_append

theorem filed_of_insert {id : IdT} {n : String} {a : ActorPtr} {d : Description}
    (hd : Described s.registrations s.calls id n a d) (h : Filed s) :
    Filed (s.insertActor id d n) := by
  have hregs := insertActor_registrations (s := s) id d n
  have hcalls : (s.insertActor id d n).calls = s.calls :=
    List.filterMap_append.trans (List.append_nil _)
  have hmono : ∀ r ∈ s.registrations, r ∈ (s.insertActor id d n).registrations := by
    rw [hregs]
    exact fun r hr => List.mem_append_left _ hr
  have hnew : (⟨d, n, s.nextBox⟩ : Registration) ∈ (s.insertActor id d n).registrations := by
    rw [hregs]
    exact List.mem_append_right _ (List.mem_singleton.mpr rfl)
  have hid : d.address.id = id := by rw [hd.address]
  -- The new registration has the next mailbox, and everything registered before
  -- has an older one.
  refine
    { drafts := fun c hc => ?_, records := fun r hr => ?_, entries := fun k e he => ?_,
      noEntry := fun k hk => ?_, children := fun k e he c hc => ?_, names := fun m k hm => ?_,
      fresh := fun r hr => ?_, distinct := ?_ }
  · rw [hcalls]
    exact drafted_mono hmono (fun _ hc => hc) (h.drafts c hc)
  · rw [hcalls]
    rw [hregs] at hr
    rcases List.mem_append.mp hr with hr | hr
    · exact described_mono hmono (fun _ hc => hc) (h.records r hr)
    · rw [List.mem_singleton.mp hr, hid, hd.actor]
      exact described_mono hmono (fun _ hc => hc) hd
  · rw [insertActor_live] at he
    by_cases hk : k = id
    · rw [if_pos hk, Option.some.injEq] at he
      refine ⟨⟨d, n, s.nextBox⟩, ⟨hnew, by rw [hk]; exact hid, ?_⟩, ?_⟩
      · rw [← he, ← hd.children]
      · rw [hk]
        exact AList.lookup_insert _
    · -- Another entry: only its child set can have changed.
      rw [if_neg hk] at he
      rcases Option.map_eq_some_iff.mp he with ⟨p, hp, rfl⟩
      rcases h.entries k p hp with ⟨r, hr, hm⟩
      refine ⟨r, ⟨hmono r hr.mem, hr.id, ?_⟩, (AList.lookup_insert_ne hk).trans hm⟩
      rw [hr.descr]
      split <;> rfl
  · rw [insertActor_live] at hk
    by_cases hki : k = id
    · rw [if_pos hki] at hk
      exact absurd hk (by simp only [reduceCtorEq, not_false_eq_true])
    · rw [if_neg hki, Option.map_eq_none_iff] at hk
      exact (AList.lookup_insert_ne hki).trans (h.noEntry k hk)
  · rw [insertActor_live] at he
    by_cases hk : k = id
    · rw [if_pos hk, Option.some.injEq] at he
      rw [← he, hd.children] at hc
      exact absurd hc List.not_mem_nil
    · rw [if_neg hk] at he
      rcases Option.map_eq_some_iff.mp he with ⟨p, hp, rfl⟩
      -- The parent has one more child, which is registered now.
      have hold : c ∈ p.children ∨ c = id := by
        split at hc
        · exact (List.mem_insert_iff.mp hc).symm
        · exact Or.inl hc
      rcases hold with hc | rfl
      · rcases h.children k p hp c hc with ⟨r, hr, hrc⟩
        exact ⟨r, hmono r hr, hrc⟩
      · exact ⟨_, hnew, hid⟩
  · by_cases hname : m = d.name
    · have hk : (s.idByName.insert d.name id).lookup m = some k := hm
      rw [hname, AList.lookup_insert, Option.some.injEq] at hk
      exact ⟨_, hnew, by rw [hname, ← hk]; exact hd.address⟩
    · have hk : (s.idByName.insert d.name id).lookup m = some k := hm
      rw [AList.lookup_insert_ne hname] at hk
      rcases h.names m k hk with ⟨r, hr, hrk⟩
      exact ⟨r, hmono r hr, hrk⟩
  · have hnext : (s.insertActor id d n).nextBox = s.nextBox + 1 := rfl
    rw [hregs] at hr
    rcases List.mem_append.mp hr with hr | hr
    · rw [hnext]
      exact Nat.lt_succ_of_lt (h.fresh r hr)
    · rw [List.mem_singleton.mp hr, hnext]
      exact Nat.lt_succ_self _
  · rw [hregs, List.map_append]
    refine List.nodup_append.mpr ⟨h.distinct, List.nodup_singleton _, fun m hm m' hm' heq => ?_⟩
    rcases List.mem_map.mp hm with ⟨r, hr, rfl⟩
    have hlt := h.fresh r hr
    rw [heq, List.mem_singleton.mp hm'] at hlt
    exact Nat.lt_irrefl _ hlt

/-- What `describe` fills in is what a description has to say. -/
theorem describe_described {id : IdT} {n : String} {a : ActorPtr}
    {up : Option (IdT × Description)} (hcalled : (id, n) ∈ s.calls)
    (hup : ∀ k p, up = some (k, p) → s.live k = some p) (h : Filed s) :
    Described s.registrations s.calls id n a (s.describe id n a up) := by
  refine ⟨rfl, rfl, rfl, rfl, ?_, hcalled⟩
  cases up with
  | none => exact Or.inl ⟨rfl, rfl⟩
  | some kp =>
      rcases kp with ⟨k, p⟩
      rcases h.entries k p (hup k p rfl) with ⟨r, hr, _⟩
      refine Or.inr ⟨r, hr.mem, hr.id, ?_⟩
      rw [hr.descr]
      rfl

theorem filed_of_add {i : Nat} {c : AddCall} (hi : s.adding[i]? = some c) (hr : AddRule s i c s')
    (h : Filed s) : Filed s' := by
  have hc : Drafted s.registrations s.calls c := h.drafts c (List.mem_of_getElem? hi)
  -- A section changes the stage of one call and, but for the insertion, nothing
  -- in the maps.
  have hset : ∀ st, Drafted s.registrations s.calls { c with stage := st } →
      ∀ b ∈ s.adding.set i { c with stage := st }, Drafted s.registrations s.calls b := by
    intro st hst b hb
    rcases List.mem_or_eq_of_mem_set hb with hb | rfl
    · exact h.drafts b hb
    · exact hst
  have herase : ∀ b ∈ s.adding.eraseIdx i, Drafted s.registrations s.calls b :=
    fun b hb => h.drafts b (List.mem_of_mem_eraseIdx hb)
  have hstage := hc.2
  cases hr with
  | crash => exact filed_of_same (s := s) ⟨rfl, rfl, rfl, rfl, rfl, rfl, grows_refl⟩ h
  | lookup parent up d hcs hd hup =>
      refine filed_of_adding _ _ (hset (.built d) ⟨hc.1, ?_⟩) h
      rw [hd]
      refine describe_described hc.1 (fun k p hkp => ?_) h
      rcases hup with ⟨_, hnone⟩ | ⟨q, _, hq, hsome⟩
      · exact absurd (hkp.symm.trans hnone) (by simp only [reduceCtorEq, not_false_eq_true])
      · have hpair := hkp.symm.trans hsome
        simp only [Option.some.injEq, Prod.mk.injEq] at hpair
        rw [hpair.1, hpair.2]
        exact hq
  | initReturn d hcs =>
      rw [hcs] at hstage
      exact filed_of_adding _ s.usrconts (hset (.ready d) ⟨hc.1, hstage⟩) h
  | initThrow d hcs => exact filed_of_adding _ s.usrconts herase h
  | insert d hcs hx =>
      rw [hcs] at hstage
      have hins := filed_of_insert hstage h
      refine filed_of_adding (s := s.insertActor c.newId d c.actorName) _ s.usrconts
        (fun b hb => ?_) hins
      rcases List.mem_or_eq_of_mem_set hb with hb | rfl
      · exact hins.drafts b hb
      · refine ⟨?_, ⟨d, c.actorName, s.nextBox⟩, ?_, rfl, hstage.actor⟩
        · exact (hins.drafts c (List.mem_of_getElem? hi)).1
        · rw [insertActor_registrations]
          exact List.mem_append_right _ (List.mem_singleton.mpr rfl)
  | post m hcs =>
      refine filed_of_same (s := { s with adding := s.adding.eraseIdx i }) ?_
        (filed_of_adding _ s.usrconts herase h)
      rw [System.postStart, userPost_rest]
      exact ⟨rfl, rfl, rfl, rfl, rfl, rfl, grows_one rfl⟩

/-- The worker leaves the registry alone, removal included: it has nothing to
    remove. -/
theorem workerRule_same (hr : WorkerRule s s') (h : Registered s) : SameRegistry s s' := by
  cases hr with
  | deliver => exact ⟨rfl, rfl, rfl, rfl, rfl, rfl, grows_one rfl⟩
  | post todo rm m d p hw hp =>
      rw [userPost_rest]
      exact ⟨rfl, rfl, rfl, rfl, rfl, rfl, grows_refl⟩
  | purge rm hw hx =>
      have hscan := h.scanned
      simp only [Scanned, hw] at hscan
      rw [hscan]
      exact ⟨rfl, rfl, rfl, rfl, rfl, rfl, grows_refl⟩
  | _ => exact ⟨rfl, rfl, rfl, rfl, rfl, rfl, grows_refl⟩

/-- Holding a lock the worker's scan excludes, there is no scan. -/
theorem scanned_of_canExclude (hx : s.canExclude = true) (hw : s'.worker = s.worker)
    (h : Scanned s) : Scanned s' := by
  simp only [System.canExclude, Bool.and_eq_true, Bool.not_eq_true'] at hx
  have hscan := hx.1.2
  unfold System.scanning at hscan
  unfold Scanned at h ⊢
  rw [hw]
  cases hpc : s.worker with
  | scan todo rm pc =>
      rw [hpc] at hscan
      exact absurd hscan (by simp only [Bool.true_eq_false, not_false_eq_true])
  | purging rm =>
      rw [hpc] at h
      exact h
  | _ => exact trivial

theorem scanned_of_same (hactors : s'.actors = s.actors) (hmboxes : s'.mboxes = s.mboxes)
    (hw : s'.worker = s.worker) (h : Scanned s) : Scanned s' := by
  unfold Scanned System.live at h ⊢
  rw [hactors, hmboxes, hw]
  exact h

/-- A visit in progress keeps what it has in hand. -/
theorem scanned_of_visit {todo todo' : List (IdT × MailboxPtr)} {rm rm' : List IdT}
    {pc pc' : ScanPc} (hw : s.worker = .scan todo rm pc) (hw' : s'.worker = .scan todo' rm' pc')
    (hactors : s'.actors = s.actors) (hmboxes : s'.mboxes = s.mboxes)
    (htodo : ∀ p ∈ todo', p ∈ todo) (hrm : rm' = rm)
    (hvisit : ∀ m d, pc'.visit? = some (m, d) →
      pc.visit? = some (m, d) ∨ ∃ k, s.live k = some d ∧ s.mboxes.lookup k = some m)
    (h : Scanned s) : Scanned s' := by
  unfold Scanned at h ⊢
  unfold System.live at *
  rw [hw] at h
  rw [hw', hactors, hmboxes]
  refine ⟨by rw [hrm]; exact h.1, fun p hp => h.2.1 p (htodo p hp), fun m d hv => ?_⟩
  rcases hvisit m d hv with hv | hk
  · exact h.2.2 m d hv
  · exact hk

theorem workerRule_scanned (hr : WorkerRule s s') (h : Registered s) : Scanned s' := by
  have hnone : ∀ m d, ScanPc.next.visit? = some (m, d) → ScanPc.next.visit? = some (m, d) ∨
      ∃ k, s.live k = some d ∧ s.mboxes.lookup k = some m := fun _ _ => Or.inl
  have hscan := h.scanned
  cases hr with
  | popCrash => exact hscan
  | tryScan hw =>
      -- The pairs the scan starts with are the map.
      refine ⟨rfl, fun p hp => ?_, fun m d hv => absurd hv (by simp only [ScanPc.visit?,
        reduceCtorEq, not_false_eq_true])⟩
      simp only [System.mailboxPairs, List.mem_map] at hp
      rcases hp with ⟨kv, hkv, rfl⟩
      exact AList.mem_lookup_iff.mpr hkv
  | visitEmpty todo rm k m hw hk hm =>
      exact scanned_of_visit hw rfl rfl rfl (fun p hp => List.mem_of_mem_filter hp) rfl hnone hscan
  | visitStale todo rm k m hw hk hm hd =>
      -- A mailbox without a description: there is none.
      simp only [Scanned, hw] at hscan
      have hbox := hscan.2.1 (k, m) hk
      rw [h.noEntry k hd] at hbox
      exact absurd hbox (by simp only [reduceCtorEq, not_false_eq_true])
  | visit todo rm k m d hw hk hm hd =>
      refine scanned_of_visit hw rfl rfl rfl (fun p hp => List.mem_of_mem_filter hp) rfl
        (fun m' d' hv => Or.inr ⟨k, ?_⟩) hscan
      simp only [ScanPc.visit?, Option.some.injEq, Prod.mk.injEq] at hv
      simp only [Scanned, hw] at hscan
      rw [← hv.1, ← hv.2]
      exact ⟨hd, hscan.2.1 (k, m) hk⟩
  | lockFail todo rm m d hw hb =>
      exact scanned_of_visit hw rfl rfl rfl (fun _ hp => hp) rfl
        (fun _ _ hv => absurd hv (by simp only [ScanPc.visit?, reduceCtorEq, not_false_eq_true]))
        hscan
  | lock todo rm m d hw hb =>
      exact scanned_of_visit hw rfl rfl rfl (fun _ hp => hp) rfl (fun _ _ => Or.inl) hscan
  | recheckEmpty todo rm m d hw hm =>
      exact scanned_of_visit hw rfl rfl rfl (fun _ hp => hp) rfl
        (fun _ _ hv => absurd hv (by simp only [ScanPc.visit?, reduceCtorEq, not_false_eq_true]))
        hscan
  | recheck todo rm m d hw hm =>
      exact scanned_of_visit hw rfl rfl rfl (fun _ hp => hp) rfl (fun _ _ => Or.inl) hscan
  | release todo rm d hw =>
      exact scanned_of_visit hw rfl rfl rfl (fun _ hp => hp) rfl
        (fun _ _ hv => absurd hv (by simp only [ScanPc.visit?, reduceCtorEq, not_false_eq_true]))
        hscan
  | postCrash => exact hscan
  | post todo rm m d p hw hp =>
      have hactors : (s.userPost (.apply ⟨d, p, m⟩)).actors = s.actors := by rw [userPost_rest]
      have hmboxes : (s.userPost (.apply ⟨d, p, m⟩)).mboxes = s.mboxes := by rw [userPost_rest]
      exact scanned_of_visit hw rfl hactors hmboxes (fun _ hp => hp) rfl
        (fun _ _ hv => absurd hv (by simp only [ScanPc.visit?, reduceCtorEq, not_false_eq_true]))
        hscan
  | cleanUp rm hw | skipCleanUp rm hw =>
      simp only [Scanned, hw] at hscan
      exact hscan.1
  | _ => exact trivial

theorem step_registered {cfg : Config} {a : Action π} (hs : step cfg s a = some s')
    (h : Registered s) : Registered s' := by
  cases registryRule_of_stepRule (stepRule_of_step hs).2 with
  | same s' hsame hw =>
      exact ⟨filed_of_same hsame h.toFiled, scanned_of_same hsame.actors hsame.mboxes hw h.scanned⟩
  | call n b cur => exact ⟨filed_of_call n b cur h.toFiled, h.scanned⟩
  | add i c s' hi hadd =>
      refine ⟨filed_of_add hi hadd h.toFiled, ?_⟩
      cases hadd with
      | insert d hcs hx => exact scanned_of_canExclude hx rfl h.scanned
      | post m hcs =>
          refine scanned_of_same ?_ ?_ ?_ h.scanned <;>
            simp only [System.postStart, System.emit] <;> rw [userPost_rest]
      | _ => exact h.scanned
  | stop u s' hx hu hsame hw =>
      refine ⟨filed_of_same hsame (filed_of_stops hu h.toFiled), ?_⟩
      exact scanned_of_canExclude hx (by rw [hw, hu.rest]) h.scanned
  | clear s' hx hw hsame =>
      exact ⟨filed_of_clear hsame h.toFiled, scanned_of_canExclude hx hw h.scanned⟩
  | worker s' hr =>
      exact ⟨filed_of_same (workerRule_same hr h) h.toFiled, workerRule_scanned hr h⟩

theorem registered_constructed (name : String) : Registered (constructed (π := π) name) where
  drafts c hc := absurd hc List.not_mem_nil
  records r hr := absurd hr List.not_mem_nil
  entries k d hd := absurd hd (by simp [System.live, constructed])
  noEntry k _ := AList.lookup_empty k
  children k d hd := absurd hd (by simp [System.live, constructed])
  names n k hn := absurd hn (by simp [constructed])
  fresh r hr := absurd hr List.not_mem_nil
  distinct := List.nodup_nil
  scanned := trivial

theorem registered_usrRoot (r : ActorAddress) (h : Registered s) :
    Registered { s with usrRoot := r } :=
  ⟨{ h.toFiled with }, h.scanned⟩

/-- Every state of every run agrees with its registrations. -/
theorem reach_registered {cfg : Config} {name : String} {C : System π → Action π → Prop}
    (h : (context cfg name).Reach C s) : Registered s :=
  always Registered (registered_constructed name) (fun _ r => registered_usrRoot r)
    (fun _ _ _ => step_registered) h

/-- The address in a description is its id and its name. -/
theorem live_address (h : Filed s) {k : IdT} {d : Description} (hd : s.live k = some d) :
    d.address = ⟨k, d.name⟩ := by
  rcases h.entries k d hd with ⟨r, hr, _⟩
  have haddress := (h.records r hr.mem).address
  have hid := hr.id
  rw [hr.descr] at haddress hid
  simp only at haddress hid
  rw [haddress, hid]

/-- A mailbox in the map belongs to a live actor. -/
theorem live_of_mbox (h : Filed s) {k : IdT} {m : MailboxPtr}
    (hm : s.mboxes.lookup k = some m) :
    ∃ d r, s.live k = some d ∧ Entry s.registrations k d r ∧ r.mb = m := by
  cases hd : s.live k with
  | none =>
      rw [h.noEntry k hd] at hm
      exact absurd hm (by simp only [reduceCtorEq, not_false_eq_true])
  | some d =>
      rcases h.entries k d hd with ⟨r, hr, hrm⟩
      rw [hm, Option.some.injEq] at hrm
      exact ⟨d, r, rfl, hr, hrm.symm⟩

/-- Registrations with one mailbox are one registration. -/
theorem registration_unique (h : Filed s) {r r' : Registration} (hr : r ∈ s.registrations)
    (hr' : r' ∈ s.registrations) (hm : r.mb = r'.mb) : r = r' :=
  List.inj_on_of_nodup_map h.distinct hr hr' hm

/-- The mailbox that a registration made is in the maps only while its id is
    registered. -/
theorem mbox_gone (h : Filed s) {r : Registration} (hr : r ∈ s.registrations)
    (hgone : s.live r.descr.address.id = none) (k : IdT) : s.mboxes.lookup k ≠ some r.mb := by
  intro hk
  rcases live_of_mbox h hk with ⟨d, r', hd, hentry, hmb⟩
  rw [registration_unique h hr hentry.mem hmb.symm, hentry.id, hd] at hgone
  exact absurd hgone (by simp only [reduceCtorEq, not_false_eq_true])

/-- No two ids have one mailbox. -/
theorem mboxes_inj (h : Filed s) {k k' : IdT} {m : MailboxPtr}
    (hm : s.mboxes.lookup k = some m) (hm' : s.mboxes.lookup k' = some m) : k = k' := by
  rcases live_of_mbox h hm with ⟨d, r, _, hr, hrm⟩
  rcases live_of_mbox h hm' with ⟨d', r', _, hr', hrm'⟩
  have heq : r = r' := registration_unique h hr.mem hr'.mem (by rw [hrm, hrm'])
  rw [← hr.id, ← hr'.id, heq]

theorem mbox_lt (h : Filed s) {k : IdT} {m : MailboxPtr} (hm : s.mboxes.lookup k = some m) :
    m < s.nextBox := by
  rcases live_of_mbox h hm with ⟨d, r, _, hr, rfl⟩
  exact h.fresh r hr.mem

/-- The map gains at most the newest mailbox, and mailboxes are numbered
    upwards. -/
theorem step_mboxes {cfg : Config} {a : Action π} (hs : step cfg s a = some s')
    (h : Registered s) : s.nextBox ≤ s'.nextBox ∧ ∀ k m, s'.mboxes.lookup k = some m →
      s.mboxes.lookup k = some m ∨ m = s.nextBox := by
  have hsame : ∀ {u u' : System π}, SameRegistry u u' → u.nextBox ≤ u'.nextBox ∧
      ∀ k m, u'.mboxes.lookup k = some m → u.mboxes.lookup k = some m := by
    intro u u' hs
    rw [hs.nextBox, hs.mboxes]
    exact ⟨Nat.le_refl _, fun _ _ hm => hm⟩
  cases registryRule_of_stepRule (stepRule_of_step hs).2 with
  | same s' hr hw => exact ⟨(hsame hr).1, fun k m hm => Or.inl ((hsame hr).2 k m hm)⟩
  | call n b cur => exact ⟨Nat.le_refl _, fun k m hm => Or.inl hm⟩
  | add i c s' hi hadd =>
      cases hadd with
      | insert d hcs hx =>
          refine ⟨Nat.le_succ _, fun k m hm => ?_⟩
          have hins : (s.mboxes.insert c.newId s.nextBox).lookup k = some m := hm
          by_cases hk : k = c.newId
          · rw [hk, AList.lookup_insert, Option.some.injEq] at hins
            exact Or.inr hins.symm
          · rw [AList.lookup_insert_ne hk] at hins
            exact Or.inl hins
      | post m hcs =>
          simp only [System.postStart, System.emit]
          rw [userPost_rest]
          exact ⟨Nat.le_refl _, fun k m hm => Or.inl hm⟩
      | _ => exact ⟨Nat.le_refl _, fun k m hm => Or.inl hm⟩
  | stop u s' hx hu hr hw =>
      have hnext : u.nextBox = s.nextBox := by rw [hu.rest]
      refine ⟨hnext ▸ (hsame hr).1, fun k m hm => ?_⟩
      -- A stop only removes mailboxes.
      rcases hu.mboxes k with hk | hk
      · rw [← hk]
        exact Or.inl ((hsame hr).2 k m hm)
      · have := (hsame hr).2 k m hm
        rw [hk] at this
        exact absurd this (by simp only [reduceCtorEq, not_false_eq_true])
  | clear s' hx hw hr =>
      refine ⟨(hsame hr).1, fun k m hm => ?_⟩
      have hempty := (hsame hr).2 k m hm
      rw [AList.lookup_empty] at hempty
      exact absurd hempty (by simp only [reduceCtorEq, not_false_eq_true])
  | worker s' hrule =>
      have hr := workerRule_same hrule h
      exact ⟨(hsame hr).1, fun k m hm => Or.inl ((hsame hr).2 k m hm)⟩

/-- The trace is only ever appended to. -/
theorem step_grows {cfg : Config} {a : Action π} (hs : step cfg s a = some s')
    (h : Registered s) : Grows (fun _ => True) s.trace s'.trace := by
  have hany : ∀ {l l' : List (Event π)}, Grows (fun ev => ev.files = false) l l' →
      Grows (fun _ => True) l l' := grows_weaken (fun _ _ => trivial)
  cases registryRule_of_stepRule (stepRule_of_step hs).2 with
  | same s' hsame hw => exact hany hsame.trace
  | call n b cur => exact grows_one trivial
  | add i c s' hi hadd =>
      cases hadd with
      | insert => exact grows_one trivial
      | post m hcs =>
          rw [System.postStart, userPost_rest]
          exact grows_one trivial
      | _ => exact grows_refl
  | stop u s' hx hu hsame hw => exact grows_trans (hany (stops_files hu)) (hany hsame.trace)
  | clear s' hx hw hsame => exact hany hsame.trace
  | worker s' hrule => exact hany (workerRule_same hrule h).trace

/-- Registrations are never taken back. -/
theorem step_registrations {cfg : Config} {a : Action π} (hs : step cfg s a = some s')
    (h : Registered s) : ∀ r ∈ s.registrations, r ∈ s'.registrations := by
  intro r hr
  rcases List.mem_filterMap.mp hr with ⟨ev, hev, hevr⟩
  exact List.mem_filterMap.mpr ⟨ev, mem_of_grows (step_grows hs h) hev, hevr⟩

end Filed

end Yaaf
