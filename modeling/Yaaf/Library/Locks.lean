import Mathlib.Data.Finset.Max
import Yaaf.Library.Machine

/-!
# Threads That Take Locks

A language of what a thread does with reader-writer locks and nothing else.
Blocking acquisitions are scopes, as the lock guards of the standard library
are, a `try_lock` says what happens under the lock and what happens after it,
and `std::lock` on two locks takes one, tries the other, and starts over when
that fails. What a program decides from data the language does not see is a
choice or a loop.

A thread is a stack of instructions, and it holds exactly the locks its stack
will release. So what a thread holds is not a field that has to be kept in step
with what it does.

Deadlock freedom is by rank. A command is ordered above a floor when every
blocking acquisition in it has a rank of at least the floor, and the floor under
a lock is above the rank of that lock. An attempt that does not block needs no
rank of its own and still raises the floor for what is done under it. Along a
wait the floor of the threads grows strictly, in any mode, so a finite set of
threads that all wait for each other does not exist.

A thread that requests a lock it already holds is in trouble without anybody
else. Whether a command can do that is decided by following it with one bit, and
the answer is exact when the other locks are in order.

## Main definitions

* `Mode`, `Cmd`: Lock modes and what a thread does with locks.
* `Instr`, `Code`: A thread.
* `advance`, `lockMachine`: One step of a thread; any number of threads.
* `Advances`: The forms of a step.
* `Waits`, `Deadlock`: A thread requests what another holds; a set of such.
* `Cmd.Ordered`: The rank discipline.
* `SelfRequest`, `Cmd.Fresh`: Requesting what is held, and commands that never do.
* `CallSafe`: A thread that runs a command never requests what it holds.

## Theorems

* `thread_invariant`: What each thread keeps holds of all of them.
* `wellOrdered_of_reach`: The discipline holds of every thread reached.
* `no_deadlock`: Ordered commands do not deadlock.
* `some_thread_goes`: While a thread has something to do, some thread can move.
* `callSafe_iff`: A command is safe exactly when it is fresh.
-/

namespace Locks

/-- How a lock is held. -/
inductive Mode
  | shared
  | exclusive
deriving DecidableEq, Repr

/-- Two holders can coexist. -/
def Mode.compatible : Mode → Mode → Bool
  | .shared, .shared => true
  | _, _ => false

/-- What a thread does with locks. -/
inductive Cmd (L : Type)
  | skip
  /-- A lock guard and its scope. -/
  | lock (l : L) (m : Mode) (body : Cmd L)
  /-- If the lock can be had, `body` under it and then `after`. -/
  | tryLock (l : L) (m : Mode) (body after : Cmd L)
  /-- `std::lock` on two locks, exclusively, and the scope of both. -/
  | both (a b : L) (body : Cmd L)
  | seq (c d : Cmd L)
  | choice (c d : Cmd L)
  /-- Any number of times. -/
  | star (c : Cmd L)
deriving DecidableEq, Repr

/-- One command after the other. -/
def Cmd.all {L : Type} : List (Cmd L) → Cmd L
  | [] => .skip
  | c :: cs => .seq c (Cmd.all cs)

/-- A command that may be left out. -/
def Cmd.sometimes {L : Type} (c : Cmd L) : Cmd L := .choice c .skip

/-- What is on the stack of a thread. -/
inductive Instr (L : Type)
  | run (c : Cmd L)
  | unlock (l : L) (m : Mode)
  /-- `std::lock` owns `a` and is about to try `b`. -/
  | second (a b : L) (body : Cmd L)
deriving DecidableEq, Repr

/-- The stack of a thread; an empty one is an idle thread. -/
abbrev Code (L : Type) := List (Instr L)

variable {L Op : Type}

/-- The lock an instruction will release, and its mode. -/
def Instr.held : Instr L → Option (L × Mode)
  | .run _ => none
  | .unlock l m => some (l, m)
  | .second a _ _ => some (a, .exclusive)

/-- The instruction keeps the lock from being taken in the mode. -/
def Instr.excludes [DecidableEq L] (l : L) (m : Mode) (i : Instr L) : Bool :=
  match i.held with
  | none => false
  | some (l', m') => l' == l && !m.compatible m'

/-- A thread holds a lock. -/
def Holds (l : L) (code : Code L) : Prop := ∃ i ∈ code, ∃ m, i.held = some (l, m)

/-- No thread keeps the lock from being taken in the mode. -/
def free [DecidableEq L] (s : List (Code L)) (l : L) (m : Mode) : Bool :=
  s.all fun code => code.all fun i => !i.excludes l m

/-- One step of a thread, given which locks are free. The bit settles what the
    language leaves open: which way a choice goes, whether a loop goes on,
    whether an attempt on a free lock succeeds, which lock `std::lock` takes
    first. `none` is a thread that is blocked, or idle. -/
def advance (isFree : L → Mode → Bool) (b : Bool) : Code L → Option (Code L)
  | [] => none
  | .run .skip :: k => some k
  | .run (.lock l m c) :: k =>
      if isFree l m = true then some (.run c :: .unlock l m :: k) else none
  | .run (.tryLock l m c d) :: k =>
      if b = true ∧ isFree l m = true then some (.run c :: .unlock l m :: .run d :: k)
      else some k
  | .run (.both x y c) :: k =>
      if b = true then
        if isFree x .exclusive = true then some (.second x y c :: k) else none
      else if isFree y .exclusive = true then some (.second y x c :: k) else none
  | .run (.seq c d) :: k => some (.run c :: .run d :: k)
  | .run (.choice c d) :: k => some (.run (if b = true then c else d) :: k)
  | .run (.star c) :: k => if b = true then some (.run c :: .run (.star c) :: k) else some k
  | .unlock _ _ :: k => some k
  | .second x y c :: k =>
      if b = true ∧ isFree y .exclusive = true then
        some (.run c :: .unlock y .exclusive :: .unlock x .exclusive :: k)
      else some (.run (.both x y c) :: k)

/-- The steps of the threads: an idle thread turns to a command, or a thread
    goes on. -/
inductive Turn (Op : Type)
  | begin (i : Nat) (op : Op)
  | go (i : Nat) (b : Bool)
deriving DecidableEq, Repr

/-- `n` threads that run any mix of the operations. -/
def lockMachine [DecidableEq L] (program : Op → Cmd L) (n : Nat) :
    Machine (List (Code L)) (Turn Op) where
  start := List.replicate n []
  step s a := match a with
    | .begin i op => match s[i]? with
      | some [] => some (s.set i [.run (program op)])
      | _ => none
    | .go i b => match s[i]? with
      | some code => (advance (free s) b code).map (s.set i)
      | none => none

section Turns

/-- The forms a step of a thread can have. -/
inductive Advances : Code L → Code L → Prop
  | skip (k : Code L) : Advances (.run .skip :: k) k
  | lock (l : L) (m : Mode) (c : Cmd L) (k : Code L) :
      Advances (.run (.lock l m c) :: k) (.run c :: .unlock l m :: k)
  | tryLock (l : L) (m : Mode) (c d : Cmd L) (k : Code L) :
      Advances (.run (.tryLock l m c d) :: k) (.run c :: .unlock l m :: .run d :: k)
  | pass (l : L) (m : Mode) (c d : Cmd L) (k : Code L) : Advances (.run (.tryLock l m c d) :: k) k
  | first (x y : L) (c : Cmd L) (k : Code L) :
      Advances (.run (.both x y c) :: k) (.second x y c :: k)
  | other (x y : L) (c : Cmd L) (k : Code L) :
      Advances (.run (.both x y c) :: k) (.second y x c :: k)
  | second (x y : L) (c : Cmd L) (k : Code L) : Advances (.second x y c :: k)
      (.run c :: .unlock y .exclusive :: .unlock x .exclusive :: k)
  | retry (x y : L) (c : Cmd L) (k : Code L) :
      Advances (.second x y c :: k) (.run (.both x y c) :: k)
  | seq (c d : Cmd L) (k : Code L) : Advances (.run (.seq c d) :: k) (.run c :: .run d :: k)
  | left (c d : Cmd L) (k : Code L) : Advances (.run (.choice c d) :: k) (.run c :: k)
  | right (c d : Cmd L) (k : Code L) : Advances (.run (.choice c d) :: k) (.run d :: k)
  | again (c : Cmd L) (k : Code L) : Advances (.run (.star c) :: k) (.run c :: .run (.star c) :: k)
  | enough (c : Cmd L) (k : Code L) : Advances (.run (.star c) :: k) k
  | unlock (l : L) (m : Mode) (k : Code L) : Advances (.unlock l m :: k) k

theorem advances_of_advance {isFree : L → Mode → Bool} {b : Bool} {code code' : Code L}
    (hs : advance isFree b code = some code') : Advances code code' := by
  cases code with
  | nil => exact absurd hs (by simp only [advance, reduceCtorEq, not_false_eq_true])
  | cons i k =>
      cases i with
      | unlock l m =>
          simp only [advance, Option.some.injEq] at hs
          rw [← hs]
          exact .unlock l m k
      | second x y c =>
          simp only [advance] at hs
          split at hs <;> rw [Option.some.injEq] at hs <;> rw [← hs]
          · exact .second x y c k
          · exact .retry x y c k
      | run c =>
          cases c with
          | skip =>
              simp only [advance, Option.some.injEq] at hs
              rw [← hs]
              exact .skip k
          | lock l m c =>
              simp only [advance, Option.ite_none_right_eq_some, Option.some.injEq] at hs
              rw [← hs.2]
              exact .lock l m c k
          | tryLock l m c d =>
              simp only [advance] at hs
              split at hs <;> rw [Option.some.injEq] at hs <;> rw [← hs]
              · exact .tryLock l m c d k
              · exact .pass l m c d k
          | both x y c =>
              simp only [advance] at hs
              split at hs <;> simp only [Option.ite_none_right_eq_some, Option.some.injEq] at hs <;>
                rw [← hs.2]
              · exact .first x y c k
              · exact .other x y c k
          | seq c d =>
              simp only [advance, Option.some.injEq] at hs
              rw [← hs]
              exact .seq c d k
          | choice c d =>
              simp only [advance, Option.some.injEq] at hs
              rw [← hs]
              split
              · exact .left c d k
              · exact .right c d k
          | star c =>
              simp only [advance] at hs
              split at hs <;> rw [Option.some.injEq] at hs <;> rw [← hs]
              · exact .again c k
              · exact .enough c k

/-- What stands in a table after one entry was set. -/
theorem getElem?_of_set {s : List (Code L)} {i j : Nat} {code code' : Code L}
    (h : (s.set i code')[j]? = some code) : (i = j ∧ code = code') ∨ s[j]? = some code := by
  by_cases hij : i = j
  · have hmem := h
    rw [← hij, List.getElem?_set_self' ] at hmem
    rcases Option.map_eq_some_iff.mp hmem with ⟨_, _, heq⟩
    exact Or.inl ⟨hij, heq.symm⟩
  · rw [List.getElem?_set_ne hij] at h
    exact Or.inr h

/-- What holds of an idle thread, of a thread that turns to a command, and
    after a step of a thread for which it held, holds of every thread in every
    state reached. -/
theorem thread_invariant [DecidableEq L] {program : Op → Cmd L} {n : Nat}
    {C : List (Code L) → Turn Op → Prop} (P : Nat → Code L → Prop) (hidle : ∀ i, P i [])
    (hbegin : ∀ s i op, C s (.begin i op) → P i [.run (program op)])
    (hgo : ∀ i code code', Advances code code' → P i code → P i code') {s : List (Code L)}
    (h : (lockMachine program n).Reach C s) : ∀ i code, s[i]? = some code → P i code := by
  -- A step changes one thread, which was idle or advances.
  refine Machine.invariant (fun s => ∀ i code, s[i]? = some code → P i code) ?_ ?_ h
  · intro i code hcode
    rw [List.eq_of_mem_replicate (List.mem_of_getElem? hcode)]
    exact hidle i
  · intro s a s' hc hstep hs j code hcode
    cases a with
    | begin i op =>
        simp only [lockMachine] at hstep
        split at hstep
        · rw [Option.some.injEq] at hstep
          rw [← hstep] at hcode
          rcases getElem?_of_set hcode with ⟨rfl, rfl⟩ | hold
          · exact hbegin s i op hc
          · exact hs j code hold
        · exact absurd hstep (by simp only [reduceCtorEq, not_false_eq_true])
    | go i b =>
        simp only [lockMachine] at hstep
        split at hstep
        · rename_i ci hi
          rw [Option.map_eq_some_iff] at hstep
          rcases hstep with ⟨c', hadv, rfl⟩
          rcases getElem?_of_set hcode with ⟨rfl, rfl⟩ | hold
          · exact hgo i ci code (advances_of_advance hadv) (hs i ci hi)
          · exact hs j code hold
        · exact absurd hstep (by simp only [reduceCtorEq, not_false_eq_true])

end Turns

section Discipline

/-- The locks a command blocks for with its next step. -/
def Cmd.requests : Cmd L → List L
  | .lock l _ _ => [l]
  | .both a b _ => [a, b]
  | _ => []

/-- The locks a thread blocks for with its next step. -/
def requests : Code L → List L
  | .run c :: _ => c.requests
  | _ => []

/-- Thread `i` blocks for a lock that thread `j` holds. The modes play no part:
    two threads that could share the lock are counted too. -/
def Waits (s : List (Code L)) (i j : Nat) : Prop :=
  ∃ ci cj l, s[i]? = some ci ∧ s[j]? = some cj ∧ l ∈ requests ci ∧ Holds l cj

/-- A set of threads that each wait for a thread of the set. -/
def Deadlock (s : List (Code L)) (D : Finset Nat) : Prop :=
  D.Nonempty ∧ ∀ i ∈ D, ∃ j ∈ D, Waits s i j

variable (rank : L → Nat)

/-- Every blocking acquisition has a rank of at least the floor, which is above
    the rank of every lock held. -/
def Cmd.Ordered : Nat → Cmd L → Prop
  | _, .skip => True
  | b, .lock l _ c => b ≤ rank l ∧ c.Ordered (rank l + 1)
  | b, .tryLock l _ c d => c.Ordered (max (rank l + 1) b) ∧ d.Ordered b
  | b, .both x y c => b ≤ rank x ∧ b ≤ rank y ∧ c.Ordered (max (rank x + 1) (rank y + 1))
  | b, .seq c d => c.Ordered b ∧ d.Ordered b
  | b, .choice c d => c.Ordered b ∧ d.Ordered b
  | b, .star c => c.Ordered b

/-- One more than the largest rank of a lock held. -/
def floor : Code L → Nat
  | [] => 0
  | .run _ :: k => floor k
  | .unlock l _ :: k => max (rank l + 1) (floor k)
  | .second x _ _ :: k => max (rank x + 1) (floor k)

/-- Every command on the stack is ordered above what is held beneath it. -/
def WellOrdered : Code L → Prop
  | [] => True
  | .run c :: k => c.Ordered rank (floor rank k) ∧ WellOrdered k
  | .unlock _ _ :: k => WellOrdered k
  | .second x y c :: k => (Cmd.both x y c).Ordered rank (floor rank k) ∧ WellOrdered k

variable {rank}

/-- A lower floor asks for less. -/
theorem ordered_mono {b b' : Nat} {c : Cmd L} (hb : b' ≤ b) (h : c.Ordered rank b) :
    c.Ordered rank b' := by
  induction c generalizing b b' with
  | skip => trivial
  | lock l m c ih => exact ⟨hb.trans h.1, h.2⟩
  | tryLock l m c d ihc ihd => exact ⟨ihc (by omega) h.1, ihd hb h.2⟩
  | both x y c ih => exact ⟨hb.trans h.1, hb.trans h.2.1, h.2.2⟩
  | seq c d ihc ihd => exact ⟨ihc hb h.1, ihd hb h.2⟩
  | choice c d ihc ihd => exact ⟨ihc hb h.1, ihd hb h.2⟩
  | star c ih => exact ih hb h

theorem ordered_all {b : Nat} {cs : List (Cmd L)} :
    (Cmd.all cs).Ordered rank b ↔ ∀ c ∈ cs, c.Ordered rank b := by
  induction cs with
  | nil => exact ⟨fun _ c hc => absurd hc List.not_mem_nil, fun _ => trivial⟩
  | cons c cs ih =>
      rw [List.forall_mem_cons, ← ih]
      exact Iff.rfl

theorem ordered_sometimes {b : Nat} {c : Cmd L} :
    c.sometimes.Ordered rank b ↔ c.Ordered rank b :=
  and_iff_left trivial

/-- The locks of a thread are below its floor. -/
theorem rank_lt_floor {l : L} {code : Code L} (h : Holds l code) : rank l < floor rank code := by
  rcases h with ⟨i, hi, m, hm⟩
  induction code with
  | nil => exact absurd hi List.not_mem_nil
  | cons j k ih =>
      rcases List.mem_cons.mp hi with heq | hk
      · subst heq
        cases i with
        | run c => exact absurd hm (by simp only [Instr.held, reduceCtorEq, not_false_eq_true])
        | unlock l' m' =>
            simp only [Instr.held, Option.some.injEq, Prod.mk.injEq] at hm
            rw [← hm.1]
            unfold floor
            omega
        | second x y c =>
            simp only [Instr.held, Option.some.injEq, Prod.mk.injEq] at hm
            rw [← hm.1]
            unfold floor
            omega
      · have hlt := ih hk
        cases j <;> unfold floor <;> omega

/-- A step of an ordered thread leaves it ordered. -/
theorem wellOrdered_advance {code code' : Code L} (hs : Advances code code')
    (h : WellOrdered rank code) : WellOrdered rank code' := by
  cases hs with
  | skip | pass | enough => exact h.2
  | unlock => exact h
  -- The floor rises to just above the lock that is taken now.
  | lock l m c k =>
      rcases h with ⟨⟨hl, hc⟩, hk⟩
      refine ⟨ordered_mono ?_ hc, hk⟩
      simp only [floor]
      omega
  | tryLock l m c d k => exact ⟨h.1.1, h.1.2, h.2⟩
  | first | retry => exact h
  -- The two locks of `std::lock` change places, and their larger rank stays.
  | other x y c k =>
      rcases h with ⟨⟨hx, hy, hc⟩, hk⟩
      exact ⟨⟨hy, hx, ordered_mono (by omega) hc⟩, hk⟩
  | second x y c k =>
      rcases h with ⟨⟨hx, hy, hc⟩, hk⟩
      refine ⟨ordered_mono ?_ hc, hk⟩
      simp only [floor]
      omega
  | seq c d k => exact ⟨h.1.1, h.1.2, h.2⟩
  | left => exact ⟨h.1.1, h.2⟩
  | right => exact ⟨h.1.2, h.2⟩
  | again c k => exact ⟨h.1, h.1, h.2⟩

/-- What a thread blocks for is not below its floor. -/
theorem floor_le_of_requests {l : L} {code : Code L} (h : WellOrdered rank code)
    (hl : l ∈ requests code) : floor rank code ≤ rank l := by
  cases code with
  | nil => exact absurd hl List.not_mem_nil
  | cons i k =>
      cases i with
      | run c =>
          change floor rank k ≤ rank l
          cases c with
          | lock l' m c =>
              rw [List.mem_singleton.mp hl]
              exact h.1.1
          | both x y c =>
              rcases List.mem_cons.mp hl with heq | hmem
              · rw [heq]
                exact h.1.1
              · rw [List.mem_singleton.mp hmem]
                exact h.1.2.1
          | _ => exact absurd hl List.not_mem_nil
      | _ => exact absurd hl List.not_mem_nil

/-- Along a wait the floor grows. -/
theorem floor_lt_of_waits {s : List (Code L)} (hs : ∀ code ∈ s, WellOrdered rank code) {i j : Nat}
    (h : Waits s i j) :
    floor rank (s[i]?.getD []) < floor rank (s[j]?.getD []) := by
  rcases h with ⟨ci, cj, l, hi, hj, hl, hheld⟩
  rw [hi, hj, Option.getD_some, Option.getD_some]
  calc floor rank ci
      ≤ rank l := floor_le_of_requests (hs ci (List.mem_of_getElem? hi)) hl
    _ < floor rank cj := rank_lt_floor hheld

variable [DecidableEq L] {program : Op → Cmd L} {n : Nat} {s : List (Code L)}
  {C : List (Code L) → Turn Op → Prop}

/-- The discipline holds of every thread in every state reached. -/
theorem wellOrdered_of_reach (hprogram : ∀ op, (program op).Ordered rank 0)
    (h : (lockMachine program n).Reach C s) : ∀ code ∈ s, WellOrdered rank code := by
  intro code hcode
  rcases List.getElem?_of_mem hcode with ⟨i, hi⟩
  exact thread_invariant (fun _ => WellOrdered rank) (fun _ => trivial)
    (fun _ _ op _ => ⟨hprogram op, trivial⟩) (fun _ _ _ => wellOrdered_advance) h i code hi

/-- Threads that run ordered commands do not deadlock. -/
theorem no_deadlock (hprogram : ∀ op, (program op).Ordered rank 0)
    (h : (lockMachine program n).Reach C s) (D : Finset Nat) : ¬ Deadlock s D := by
  rintro ⟨hne, hwait⟩
  -- A thread of the set with the largest floor waits for one with a larger floor.
  rcases D.exists_max_image (fun i => floor rank (s[i]?.getD [])) hne with ⟨i, hi, hmax⟩
  rcases hwait i hi with ⟨j, hj, hij⟩
  have hlt := floor_lt_of_waits (wellOrdered_of_reach hprogram h) hij
  have hle := hmax j hj
  omega

/-- A lock that is not free is held by some thread. -/
theorem holds_of_not_free {l : L} {m : Mode} (h : free s l m ≠ true) :
    ∃ (j : Nat) (cj : Code L), s[j]? = some cj ∧ Holds l cj := by
  unfold free at h
  rw [ne_eq, List.all_eq_true] at h
  push Not at h
  rcases h with ⟨cj, hmem, hall⟩
  rw [ne_eq, List.all_eq_true] at hall
  push Not at hall
  rcases hall with ⟨i, hi, hex⟩
  rcases List.getElem?_of_mem hmem with ⟨j, hj⟩
  refine ⟨j, cj, hj, i, hi, ?_⟩
  unfold Instr.excludes at hex
  cases hheld : i.held with
  | none =>
      rw [hheld] at hex
      exact absurd rfl hex
  | some p =>
      rw [hheld] at hex
      refine ⟨p.2, ?_⟩
      have hl : p.1 = l := by
        by_contra hno
        exact hex (by simp only [beq_eq_false_iff_ne.mpr hno, Bool.false_and, Bool.not_false])
      rw [← hl]

/-- A thread that cannot move is idle or blocks for a lock that is held. -/
theorem blocked_of_stuck {code : Code L} (hne : code ≠ [])
    (h : ∀ b, advance (free s) b code = none) :
    ∃ l ∈ requests code, ∃ (j : Nat) (cj : Code L), s[j]? = some cj ∧ Holds l cj := by
  cases code with
  | nil => exact absurd rfl hne
  | cons i k =>
      cases i with
      | unlock l m => exact absurd (h true) (by simp only [advance, reduceCtorEq, not_false_eq_true])
      | second x y c =>
          have hf := h false
          simp only [advance, Bool.false_eq_true, false_and, if_false, reduceCtorEq] at hf
      | run c =>
          cases c with
          | lock l m c =>
              have ht := h true
              simp only [advance] at ht
              refine ⟨l, List.mem_singleton_self l, holds_of_not_free (m := m) fun hfree => ?_⟩
              rw [if_pos hfree] at ht
              exact absurd ht (by simp only [reduceCtorEq, not_false_eq_true])
          | both x y c =>
              have ht := h true
              simp only [advance, if_true] at ht
              refine ⟨x, List.mem_cons_self, holds_of_not_free (m := .exclusive) fun hfree => ?_⟩
              rw [if_pos hfree] at ht
              exact absurd ht (by simp only [reduceCtorEq, not_false_eq_true])
          | skip | seq | choice =>
              exact absurd (h true) (by simp only [advance, reduceCtorEq, not_false_eq_true])
          | tryLock | star =>
              have hf := h false
              simp only [advance, Bool.false_eq_true, false_and, if_false, reduceCtorEq] at hf

/-- While a thread has something to do, some thread can move. -/
theorem some_thread_goes (hprogram : ∀ op, (program op).Ordered rank 0)
    (h : (lockMachine program n).Reach C s) {i : Nat} {code : Code L} (hi : s[i]? = some code)
    (hcode : code ≠ []) : ∃ j b, ((lockMachine program n).step s (.go j b)).isSome = true := by
  -- If no thread can move, each that is not idle blocks for a lock of another.
  by_contra hstuck
  push Not at hstuck
  have hblocked : ∀ (j : Nat) (cj : Code L), s[j]? = some cj → cj ≠ [] →
      ∃ l ∈ requests cj, ∃ (k : Nat) (ck : Code L), s[k]? = some ck ∧ Holds l ck := by
    intro j cj hj hne
    refine blocked_of_stuck hne fun b => ?_
    have hno := hstuck j b
    simp only [lockMachine, hj, Option.isSome_map, ne_eq, Bool.not_eq_true,
      Option.isSome_eq_false_iff, Option.isNone_iff_eq_none] at hno
    exact hno
  -- Then the threads that have something to do wait for each other.
  refine no_deadlock hprogram h ((Finset.range s.length).filter
    fun j => s[j]?.getD [] ≠ []) ⟨⟨i, ?_⟩, ?_⟩
  · rw [Finset.mem_filter, Finset.mem_range, hi]
    exact ⟨(List.getElem?_eq_some_iff.mp hi).1, hcode⟩
  · intro j hj
    rw [Finset.mem_filter, Finset.mem_range] at hj
    have hget : s[j]? = some s[j] := List.getElem?_eq_getElem hj.1
    rw [hget, Option.getD_some] at hj
    rcases hblocked j _ hget hj.2 with ⟨l, hl, k, ck, hk, hheld⟩
    refine ⟨k, ?_, s[j], ck, l, hget, hk, hl, hheld⟩
    rw [Finset.mem_filter, Finset.mem_range, hk]
    refine ⟨(List.getElem?_eq_some_iff.mp hk).1, fun hnil => ?_⟩
    rw [Option.getD_some] at hnil
    rcases hheld with ⟨_, hmem, _⟩
    rw [hnil] at hmem
    exact absurd hmem List.not_mem_nil

end Discipline

section Reentry

/-- The locks a command asks for with its next step, blocking or not. -/
def Cmd.asks : Cmd L → List L
  | .lock l _ _ => [l]
  | .tryLock l _ _ _ => [l]
  | .both a b _ => [a, b]
  | _ => []

/-- The locks a thread asks for with its next step, blocking or not. -/
def asks : Code L → List L
  | .run c :: _ => c.asks
  | .second _ b _ :: _ => [b]
  | _ => []

/-- A thread asks for a lock that it holds, in whatever modes. -/
def SelfRequest (l : L) (code : Code L) : Prop :=
  l ∈ asks code ∧ Holds l code

/-- No part of the command asks for the lock while it is held; `h` says whether
    it is held at the start. -/
def Cmd.Fresh (r : L) : Prop → Cmd L → Prop
  | _, .skip => True
  | h, .lock l _ c => (l = r → ¬ h) ∧ c.Fresh r (h ∨ l = r)
  | h, .tryLock l _ c d => (l = r → ¬ h) ∧ c.Fresh r (h ∨ l = r) ∧ d.Fresh r h
  | h, .both x y c =>
      (x = r ∨ y = r → ¬ h) ∧ ¬ (x = r ∧ y = r) ∧ c.Fresh r (h ∨ x = r ∨ y = r)
  | h, .seq c d => c.Fresh r h ∧ d.Fresh r h
  | h, .choice c d => c.Fresh r h ∧ d.Fresh r h
  | h, .star c => c.Fresh r h

/-- Every command on the stack is fresh above what is held beneath it. -/
def FreshCode (r : L) : Code L → Prop
  | [] => True
  | .run c :: k => c.Fresh r (Holds r k) ∧ FreshCode r k
  | .unlock _ _ :: k => FreshCode r k
  | .second x y c :: k => (Cmd.both x y c).Fresh r (Holds r k) ∧ FreshCode r k

/-- Thread 0 runs nothing but the command; the other threads run anything. -/
def callerRuns (c : Cmd L) : List (Code L) → Turn (Cmd L) → Prop :=
  fun _ a => ∀ c', a = .begin 0 c' → c' = c

/-- A thread that runs the command never asks for the lock while it holds it,
    whatever other threads do. -/
def CallSafe [DecidableEq L] (r : L) (c : Cmd L) : Prop :=
  ∀ (n : Nat) (s : List (Code L)), (lockMachine id n).Reach (callerRuns c) s →
    ∀ code, s[0]? = some code → ¬ SelfRequest r code

theorem holds_nil {r : L} : ¬ Holds r ([] : Code L) :=
  fun ⟨_, hi, _⟩ => absurd hi List.not_mem_nil

theorem holds_cons {r : L} {i : Instr L} {k : Code L} :
    Holds r (i :: k) ↔ Holds r k ∨ ∃ m, i.held = some (r, m) := by
  constructor
  · rintro ⟨j, hj, hm⟩
    rcases List.mem_cons.mp hj with heq | hk
    · rw [heq] at hm
      exact Or.inr hm
    · exact Or.inl ⟨j, hk, hm⟩
  · rintro (⟨j, hj, hm⟩ | hm)
    · exact ⟨j, List.mem_cons_of_mem _ hj, hm⟩
    · exact ⟨i, List.mem_cons_self, hm⟩

theorem holds_run {r : L} {c : Cmd L} {k : Code L} : Holds r (.run c :: k) ↔ Holds r k := by
  simp only [holds_cons, Instr.held, reduceCtorEq, exists_false, or_false]

theorem holds_unlock {r l : L} {m : Mode} {k : Code L} :
    Holds r (.unlock l m :: k) ↔ Holds r k ∨ l = r := by
  simp only [holds_cons, Instr.held, Option.some.injEq, Prod.mk.injEq, exists_and_left,
    exists_eq', and_true]

theorem holds_second {r x y : L} {c : Cmd L} {k : Code L} :
    Holds r (.second x y c :: k) ↔ Holds r k ∨ x = r := by
  simp only [holds_cons, Instr.held, Option.some.injEq, Prod.mk.injEq, exists_and_left,
    exists_eq', and_true]

/-- Freshness depends on what is held and not on how that is said. -/
theorem fresh_congr {r : L} {h h' : Prop} {c : Cmd L} (hh : h ↔ h') (hc : c.Fresh r h) :
    c.Fresh r h' := by
  rw [← propext hh]
  exact hc

theorem fresh_all {r : L} {h : Prop} {cs : List (Cmd L)} :
    (Cmd.all cs).Fresh r h ↔ ∀ c ∈ cs, c.Fresh r h := by
  induction cs with
  | nil => exact ⟨fun _ c hc => absurd hc List.not_mem_nil, fun _ => trivial⟩
  | cons c cs ih =>
      rw [List.forall_mem_cons, ← ih]
      exact Iff.rfl

theorem fresh_sometimes {r : L} {h : Prop} {c : Cmd L} : c.sometimes.Fresh r h ↔ c.Fresh r h :=
  and_iff_left trivial

/-- A fresh thread does not ask for what it holds. -/
theorem not_selfRequest_of_fresh {r : L} {code : Code L} (h : FreshCode r code) :
    ¬ SelfRequest r code := by
  rintro ⟨hasks, hheld⟩
  cases code with
  | nil => exact absurd hasks List.not_mem_nil
  | cons i k =>
      cases i with
      | unlock l m => exact absurd hasks List.not_mem_nil
      | second x y c =>
          have hy : r = y := List.mem_singleton.mp hasks
          rcases holds_second.mp hheld with hk | hx
          · exact h.1.1 (Or.inr hy.symm) hk
          · exact h.1.2.1 ⟨hx, hy.symm⟩
      | run c =>
          have hk := holds_run.mp hheld
          cases c with
          | lock l m c => exact h.1.1 (List.mem_singleton.mp hasks).symm hk
          | tryLock l m c d => exact h.1.1 (List.mem_singleton.mp hasks).symm hk
          | both x y c =>
              rcases List.mem_cons.mp hasks with hx | hy
              · exact h.1.1 (Or.inl hx.symm) hk
              · exact h.1.1 (Or.inr (List.mem_singleton.mp hy).symm) hk
          | _ => exact absurd hasks List.not_mem_nil

/-- A step of a fresh thread leaves it fresh. -/
theorem fresh_advance {r : L} {code code' : Code L} (hs : Advances code code')
    (h : FreshCode r code) : FreshCode r code' := by
  cases hs with
  | skip | pass | enough => exact h.2
  | unlock => exact h
  | lock l m c k => exact ⟨fresh_congr holds_unlock.symm h.1.2, h.2⟩
  | tryLock l m c d k =>
      rcases h with ⟨⟨_, hc, hd⟩, hk⟩
      refine ⟨fresh_congr ?_ hc, hd, hk⟩
      rw [holds_unlock, holds_run]
  | first | retry => exact h
  | other x y c k =>
      rcases h with ⟨⟨hask, hne, hc⟩, hk⟩
      refine ⟨⟨fun hxy => hask hxy.symm, fun hxy => hne hxy.symm, fresh_congr ?_ hc⟩, hk⟩
      rw [or_comm (a := y = r)]
  | second x y c k =>
      rcases h with ⟨⟨_, _, hc⟩, hk⟩
      refine ⟨fresh_congr ?_ hc, hk⟩
      rw [holds_unlock, holds_unlock, or_assoc]
  | seq c d k => exact ⟨fresh_congr holds_run.symm h.1.1, h.1.2, h.2⟩
  | left => exact ⟨h.1.1, h.2⟩
  | right => exact ⟨h.1.2, h.2⟩
  | again c k => exact ⟨fresh_congr holds_run.symm h.1, h.1, h.2⟩

variable [DecidableEq L] {r : L} {c p : Cmd L} {k : Code L}

/-- Commands that are fresh are safe to run. -/
theorem callSafe_of_fresh (hc : c.Fresh r False) : CallSafe r c := by
  intro n s h code hcode
  refine not_selfRequest_of_fresh (thread_invariant (fun i code => i = 0 → FreshCode r code)
    (fun _ _ => trivial) (fun _ i c' hguard hi => ?_)
    (fun _ _ _ hs hfresh hi => fresh_advance hs (hfresh hi)) h 0 code hcode rfl)
  subst hi
  rw [hguard c' rfl]
  exact ⟨fresh_congr (iff_of_false id holds_nil) hc, trivial⟩

/-- What a thread can do when there is no other. -/
def Alone (p : Cmd L) (code code' : Code L) : Prop :=
  Machine.Path (lockMachine id 1) (callerRuns p) [code] [code']

theorem alone_step {code code' : Code L} {b : Bool}
    (h : advance (free [code]) b code = some code') : Alone p code code' := by
  refine .tail (.go 0 b) (.refl _) (fun c' heq => ?_) ?_
  · exact absurd heq (by simp only [reduceCtorEq, not_false_eq_true])
  · simp only [lockMachine, List.getElem?_cons_zero, h, Option.map_some, List.set_cons_zero]

theorem alone_trans {code code' code'' : Code L} (h1 : Alone p code code')
    (h2 : Alone p code' code'') : Alone p code code'' :=
  Machine.path_trans h1 h2

/-- A lock the thread does not hold is free when there is no other thread. -/
theorem free_alone {code : Code L} {l : L} (h : ¬ Holds l code) (m : Mode) :
    free [code] l m = true := by
  by_contra hno
  rcases holds_of_not_free hno with ⟨j, cj, hj, hheld⟩
  rw [List.mem_singleton.mp (List.mem_of_getElem? hj)] at hheld
  exact h hheld

/-- A thread alone gets any lock it does not hold. -/
theorem alone_lock {l : L} {m : Mode} (h : ¬ Holds l k) :
    Alone p (.run (.lock l m c) :: k) (.run c :: .unlock l m :: k) := by
  refine alone_step (b := true) ?_
  have hfree : free [.run (.lock l m c) :: k] l m = true :=
    free_alone (fun hheld => h (holds_run.mp hheld)) m
  simp only [advance, hfree, if_true]

theorem alone_tryLock {l : L} {m : Mode} {d : Cmd L} (h : ¬ Holds l k) :
    Alone p (.run (.tryLock l m c d) :: k) (.run c :: .unlock l m :: .run d :: k) := by
  refine alone_step (b := true) ?_
  have hfree : free [.run (.tryLock l m c d) :: k] l m = true :=
    free_alone (fun hheld => h (holds_run.mp hheld)) m
  simp only [advance, hfree, and_self, if_true]

theorem alone_first {x y : L} (h : ¬ Holds x k) :
    Alone p (.run (.both x y c) :: k) (.second x y c :: k) := by
  refine alone_step (b := true) ?_
  have hfree : free [.run (.both x y c) :: k] x .exclusive = true :=
    free_alone (fun hheld => h (holds_run.mp hheld)) _
  simp only [advance, hfree, if_true]

theorem alone_second {x y : L} (h : ¬ Holds y k) (hxy : x ≠ y) :
    Alone p (.second x y c :: k) (.run c :: .unlock y .exclusive :: .unlock x .exclusive :: k) := by
  refine alone_step (b := true) ?_
  have hfree : free [.second x y c :: k] y .exclusive = true := by
    refine free_alone (fun hheld => ?_) _
    rcases holds_second.mp hheld with hk | heq
    · exact h hk
    · exact hxy heq
  simp only [advance, hfree, and_self, if_true]

/-- A thread alone gets through a command that is fresh for every lock. -/
theorem alone_completes (hc : ∀ l, c.Fresh l (Holds l k)) : Alone p (.run c :: k) k := by
  induction c generalizing k with
  | skip => exact alone_step (b := true) rfl
  | lock l m c ih =>
      refine alone_trans (alone_lock ((hc l).1 rfl)) ?_
      refine alone_trans (ih fun l' => fresh_congr holds_unlock.symm (hc l').2) ?_
      exact alone_step (b := true) rfl
  | tryLock l m c d ihc ihd => exact alone_step (b := false) rfl
  | both x y c ih =>
      have hx : ¬ Holds x k := (hc x).1 (Or.inl rfl)
      have hy : ¬ Holds y k := (hc y).1 (Or.inr rfl)
      have hxy : x ≠ y := fun heq => (hc x).2.1 ⟨rfl, heq.symm⟩
      refine alone_trans (alone_first hx) (alone_trans (alone_second hy hxy) ?_)
      refine alone_trans (ih fun l => fresh_congr ?_ (hc l).2.2) ?_
      · rw [holds_unlock, holds_unlock, or_assoc]
      · exact alone_trans (alone_step (b := true) rfl) (alone_step (b := true) rfl)
  | seq c d ihc ihd =>
      refine alone_trans (alone_step (b := true) rfl) ?_
      exact alone_trans (ihc fun l => fresh_congr holds_run.symm (hc l).1) (ihd fun l => (hc l).2)
  | choice c d ihc ihd =>
      exact alone_trans (alone_step (b := true) rfl) (ihc fun l => (hc l).1)
  | star c ih => exact alone_step (b := false) rfl

/-- A thread that does not ask for the one lock while it holds it, and for no
    other, does not hold what it asks for. -/
theorem not_holds_of_asked {l : L} (hself : ¬ (l = r ∧ Holds r k))
    (hother : l ≠ r → ¬ Holds l k) : ¬ Holds l k := by
  by_cases hlr : l = r
  · rw [hlr]
    exact fun hheld => hself ⟨hlr, hheld⟩
  · exact hother hlr

/-- A command that is not fresh can be led to ask for what it holds, if the
    other locks are in order. -/
theorem alone_selfRequest (hc : ¬ c.Fresh r (Holds r k))
    (hother : ∀ l, l ≠ r → c.Fresh l (Holds l k)) :
    ∃ code, Alone p (.run c :: k) code ∧ SelfRequest r code := by
  -- By induction on the command: it asks for the lock here, or the fault is in
  -- one of its parts, and the thread gets there alone.
  induction c generalizing k with
  | skip => exact absurd trivial hc
  | lock l m c ih =>
      by_cases hself : l = r ∧ Holds r k
      · exact ⟨_, .refl _, List.mem_singleton.mpr hself.1.symm, holds_run.mpr hself.2⟩
      · have hl : ¬ Holds l k := not_holds_of_asked hself fun hlr => (hother l hlr).1 rfl
        have hbody : ¬ c.Fresh r (Holds r (.unlock l m :: k)) := fun hfresh =>
          hc ⟨fun hlr hheld => hself ⟨hlr, hheld⟩, fresh_congr holds_unlock hfresh⟩
        rcases ih hbody fun l' hne => fresh_congr holds_unlock.symm (hother l' hne).2 with
          ⟨code, hpath, hreq⟩
        exact ⟨code, alone_trans (alone_lock hl) hpath, hreq⟩
  | tryLock l m c d ihc ihd =>
      by_cases hself : l = r ∧ Holds r k
      · exact ⟨_, .refl _, List.mem_singleton.mpr hself.1.symm, holds_run.mpr hself.2⟩
      · have hl : ¬ Holds l k := not_holds_of_asked hself fun hlr => (hother l hlr).1 rfl
        have hheld : ∀ l', Holds l' (.unlock l m :: .run d :: k) ↔ Holds l' k ∨ l = l' := by
          intro l'
          rw [holds_unlock, holds_run]
        have hbody : ∀ l', l' ≠ r → c.Fresh l' (Holds l' (.unlock l m :: .run d :: k)) :=
          fun l' hne => fresh_congr (hheld l').symm (hother l' hne).2.1
        by_cases hfresh : c.Fresh r (Holds r (.unlock l m :: .run d :: k))
        · -- The fault is in what comes after.
          have hafter : ¬ d.Fresh r (Holds r k) := fun hd =>
            hc ⟨fun hlr h => hself ⟨hlr, h⟩, fresh_congr (hheld r) hfresh, hd⟩
          rcases ihd hafter fun l' hne => (hother l' hne).2.2 with ⟨code, hpath, hreq⟩
          refine ⟨code, alone_trans (alone_tryLock hl) (alone_trans (alone_completes fun l' => ?_)
            (alone_trans (alone_step (b := true) rfl) hpath)), hreq⟩
          by_cases hne : l' = r
          · rw [hne]
            exact hfresh
          · exact hbody l' hne
        · rcases ihc hfresh hbody with ⟨code, hpath, hreq⟩
          exact ⟨code, alone_trans (alone_tryLock hl) hpath, hreq⟩
  | both x y c ih =>
      by_cases hself : (x = r ∨ y = r) ∧ Holds r k
      · refine ⟨_, .refl _, ?_, holds_run.mpr hself.2⟩
        rcases hself.1 with heq | heq
        · exact List.mem_cons.mpr (Or.inl heq.symm)
        · exact List.mem_cons.mpr (Or.inr (List.mem_singleton.mpr heq.symm))
      · have hfree : ∀ l, l = x ∨ l = y → ¬ Holds l k := by
          intro l hl
          refine not_holds_of_asked (fun h => hself ⟨?_, h.2⟩)
            fun hlr => (hother l hlr).1 (hl.imp Eq.symm Eq.symm)
          exact hl.imp (fun heq => heq.symm.trans h.1) (fun heq => heq.symm.trans h.1)
        have hfirst : Alone p (.run (.both x y c) :: k) (.second x y c :: k) :=
          alone_first (hfree x (Or.inl rfl))
        by_cases hxy : x = y
        · -- One lock twice: it is the lock in question, the others being in order.
          have hxr : x = r := by
            by_contra hne
            exact (hother x hne).2.1 ⟨rfl, hxy.symm⟩
          refine ⟨_, hfirst, List.mem_singleton.mpr (hxr ▸ hxy), holds_second.mpr (Or.inr hxr)⟩
        · have hheld : ∀ l, Holds l (.unlock y .exclusive :: .unlock x .exclusive :: k) ↔
              Holds l k ∨ x = l ∨ y = l := fun l => by
            rw [holds_unlock, holds_unlock, or_assoc]
          have hbody : ¬ c.Fresh r (Holds r (.unlock y .exclusive :: .unlock x .exclusive :: k)) :=
            fun hfresh => hc ⟨fun hlr h => hself ⟨hlr, h⟩, fun h => hxy (h.1.trans h.2.symm),
              fresh_congr (hheld r) hfresh⟩
          rcases ih hbody fun l hne => fresh_congr (hheld l).symm (hother l hne).2.2 with
            ⟨code, hpath, hreq⟩
          exact ⟨code, alone_trans hfirst (alone_trans
            (alone_second (hfree y (Or.inr rfl)) hxy) hpath), hreq⟩
  | seq c d ihc ihd =>
      have hfirst : Alone p (.run (.seq c d) :: k) (.run c :: .run d :: k) :=
        alone_step (b := true) rfl
      have hbody : ∀ l, l ≠ r → c.Fresh l (Holds l (.run d :: k)) := fun l hne =>
        fresh_congr holds_run.symm (hother l hne).1
      by_cases hfresh : c.Fresh r (Holds r (.run d :: k))
      · have hd : ¬ d.Fresh r (Holds r k) := fun hd => hc ⟨fresh_congr holds_run hfresh, hd⟩
        rcases ihd hd fun l hne => (hother l hne).2 with ⟨code, hpath, hreq⟩
        refine ⟨code, alone_trans hfirst (alone_trans (alone_completes fun l => ?_) hpath), hreq⟩
        by_cases hne : l = r
        · rw [hne]
          exact hfresh
        · exact hbody l hne
      · rcases ihc hfresh hbody with ⟨code, hpath, hreq⟩
        exact ⟨code, alone_trans hfirst hpath, hreq⟩
  | choice c d ihc ihd =>
      by_cases hfresh : c.Fresh r (Holds r k)
      · have hd : ¬ d.Fresh r (Holds r k) := fun hd => hc ⟨hfresh, hd⟩
        rcases ihd hd fun l hne => (hother l hne).2 with ⟨code, hpath, hreq⟩
        exact ⟨code, alone_trans (alone_step (b := false) rfl) hpath, hreq⟩
      · rcases ihc hfresh fun l hne => (hother l hne).1 with ⟨code, hpath, hreq⟩
        exact ⟨code, alone_trans (alone_step (b := true) rfl) hpath, hreq⟩
  | star c ih =>
      have hbody : ¬ c.Fresh r (Holds r (.run (.star c) :: k)) := fun hfresh =>
        hc (fresh_congr holds_run hfresh)
      rcases ih hbody fun l hne => fresh_congr holds_run.symm (hother l hne) with
        ⟨code, hpath, hreq⟩
      exact ⟨code, alone_trans (alone_step (b := true) rfl) hpath, hreq⟩

/-- A command that respects the other locks is safe exactly when it is fresh. -/
theorem callSafe_iff (hother : ∀ l, l ≠ r → c.Fresh l False) :
    CallSafe r c ↔ c.Fresh r False := by
  refine ⟨fun hsafe => ?_, callSafe_of_fresh⟩
  by_contra hc
  have hnil : ∀ l, False ↔ Holds l ([] : Code L) := fun l => iff_of_false id holds_nil
  rcases alone_selfRequest (p := c) (fun hfresh => hc (fresh_congr (hnil r).symm hfresh))
    (fun l hne => fresh_congr (hnil l) (hother l hne)) with ⟨code, hpath, hreq⟩
  -- The one thread turns to the command, and then nobody is in its way.
  have hbegin : Machine.Path (lockMachine id 1) (callerRuns c) [[]] [[.run c]] :=
    .tail (.begin 0 c) (.refl _) (fun c' heq => (Turn.begin.inj heq).2.symm) rfl
  exact hsafe 1 [code] (Machine.path_trans hbegin hpath) code rfl hreq

end Reentry

end Locks
