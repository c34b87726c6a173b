import Yaaf.Core.Logger
import Yaaf.Library.Exclusion
import Yaaf.Library.Potential

/-!
# Whole Lines

Several threads log at once, and a line goes into its stream in three pieces. That no
line is torn rests on `_msg_locker`, and that everybody takes the same one rests on
`_locker`, as each manager has a lock of its own: two managers would be two locks.

So there are two exclusions, one inside the other. Whoever is between the second look of
`instance` and the end of its guard is there alone, so what was seen of `_instance` holds
until something is done about it, and there is one manager. Whoever is in `message` of
that manager is there alone, so what was written of a line stands at the end of its
stream.

A thread that waits for a lock only spins. It can always go on, but need not get
anywhere, and `try_lock` gives up after so many tries only to be called again. What
brings the end nearer is a step of whoever is inside, or of anybody if nobody is.

`start`, `stop` and a change of `verbose` are left to moments when nobody logs. They take
no lock, and with a call under way `stop` leaves it with a manager that is gone.

## Main definitions

* `Calm`: The members that take no lock are used while nobody logs.
* `LogPc.knows`: What a thread has seen and may rely on.
* `Handed.wanted`: Whether a line is to be made of a message.
* `Sound`: The invariant.

## Theorems

* `lock_cases`: A step of the spin lock.
* `sound_go`: One step of a thread.
* `go_less`: A step that brings the end nearer.
* `logger_writes_whole_lines`: What becomes of what is logged.
-/

namespace Yaaf.Logging

open Exclusion Machine Slots

/-- The members that take no lock are used while nobody logs. -/
def Calm (s : LogSystem) : LogAction → Prop
  | .start _ | .stop | .setVerbose _ => ∀ th ∈ s.threads, th = .idle
  | _ => True

instance (s : LogSystem) : (a : LogAction) → Decidable (Calm s a)
  | .start _ | .stop | .setVerbose _ =>
    inferInstanceAs (Decidable (∀ th ∈ s.threads, th = .idle))
  | .log _ _ _ | .go _ => inferInstanceAs (Decidable True)

namespace LogPc

/-- The thread owns `_locker`. -/
def inInstance : LogPc → Bool
  | .locked | .making | .made | .unlocking _ => true
  | _ => false

/-- The thread owns `_msg_locker` of a manager. -/
def inMessage (m : Nat) : LogPc → Bool
  | .msgLocked n | .debugging n | .writing n _ | .msgUnlocking n => n = m
  | _ => false

/-- It is settled what becomes of the message. -/
def settled : LogPc → Bool
  | .writing _ _ | .msgUnlocking _ => true
  | _ => false

/-- What a thread has seen and may rely on. -/
def knows (s : LogSystem) (kind : MessageKind) : LogPc → Prop
  | .making => s.inst = none
  | .made => s.inst.isSome = true
  | .unlocking tmp | .found tmp => s.inst.isSome = true ∧ tmp = s.inst
  | .msgLocking m _ | .msgLocked m | .writing m _ | .msgUnlocking m => s.inst = some m
  | .debugging m => s.inst = some m ∧ (s.managers m).logger = .console ∧
      s.verbose ≠ .quiet ∧ kind = .message
  | _ => True

end LogPc

namespace LogThread

def inInstance : LogThread → Bool
  | .idle => false
  | .calling _ _ pc => pc.inInstance

def inMessage (m : Nat) : LogThread → Bool
  | .idle => false
  | .calling _ _ pc => pc.inMessage m

/-- What a thread has still to write into a stream. -/
def pending (x : Stream) : LogThread → List String
  | .calling kind _ (.writing _ pieces) => if kind.stream = x then pieces else []
  | _ => []

/-- The message that a thread has not handed over yet. -/
def unhanded : LogThread → List (MessageKind × String)
  | .idle => []
  | .calling kind msg pc => if pc.settled then [] else [(kind, msg)]

end LogThread

/-- A line is to be made of a message. -/
def Handed.wanted (e : Handed) : Bool :=
  e.logger = .console && e.verbose ≠ .quiet && (e.kind ≠ .message || e.verbose = .debug)

namespace LogSystem

/-- The lines of the messages handed over, for one stream. -/
def lines (s : LogSystem) (x : Stream) : List String :=
  (s.handed.filter fun e => e.shown && e.kind.stream = x).flatMap fun e => line e.kind e.msg

/-- What a thread has logged, in order. -/
def calledBy (s : LogSystem) (i : Nat) : List (MessageKind × String) :=
  (s.called.filter fun c => c.1 = i).map Prod.snd

/-- What was handed over for a thread, in order. -/
def handedBy (s : LogSystem) (i : Nat) : List (MessageKind × String) :=
  (s.handed.filter fun e => e.thread = i).map fun e => (e.kind, e.msg)

/-- What a thread has logged and not handed over. -/
def unhandedBy (s : LogSystem) (i : Nat) : List (MessageKind × String) :=
  (s.threads[i]?).elim [] LogThread.unhanded

end LogSystem

/-- The two exclusions, what they protect, and that nothing is lost. -/
structure Sound (s : LogSystem) : Prop where
  fate : s.fate = .running
  guarded : Guards s.locker.locked LogThread.inInstance s.threads
  serial : ∀ m, Guards (s.managers m).msgLocker.locked (LogThread.inMessage m) s.threads
  knows : ∀ kind msg pc, .calling kind msg pc ∈ s.threads → pc.knows s kind
  printed : ∀ x, s.out x ++ s.threads.flatMap (LogThread.pending x) = s.lines x
  told : ∀ i, s.calledBy i = s.handedBy i ++ s.unhandedBy i
  wanted : ∀ e ∈ s.handed, e.shown = e.wanted

section Lock

/-- A step of `lock` leaves the flag as it is, or raises it and returns. -/
theorem lock_cases (l : Locker) (pc : LockPc) :
    (∃ pc', l.lock pc = (l, some pc')) ∨ l.locked = false ∧ l.lock pc = (⟨true⟩, none) := by
  rcases l with ⟨locked⟩
  cases pc with
  | yielding => exact Or.inl ⟨.trying 0, rfl⟩
  | trying numTry =>
      cases locked with
      | true => exact Or.inl ⟨_, rfl⟩
      | false => exact Or.inr ⟨rfl, rfl⟩

end Lock

section Step

variable {s u : LogSystem} {i : Nat} {kind : MessageKind} {msg : String} {pc pc' : LogPc}

/-- What a thread knows is about `_instance`, the loggers and `verbose`. -/
theorem knows_congr (hinst : u.inst = s.inst)
    (hlogger : ∀ m, (u.managers m).logger = (s.managers m).logger)
    (hverbose : u.verbose = s.verbose) (h : pc.knows s kind) : pc.knows u kind := by
  cases pc <;> simp only [LogPc.knows, hinst, hlogger, hverbose] at h ⊢ <;> exact h

theorem knows_set {th : LogThread} (h : ∀ k g p, LogThread.calling k g p ∈ s.threads → p.knows s k)
    (hsame : ∀ k (p : LogPc), p.knows s k → p.knows u k)
    (hth : ∀ k g p, th = .calling k g p → p.knows u k) :
    ∀ k g p, LogThread.calling k g p ∈ s.threads.set i th → p.knows u k := by
  intro k g p hmem
  rcases List.mem_or_eq_of_mem_set hmem with hmem | heq
  · exact hsame k p (h k g p hmem)
  · exact hth k g p heq.symm

/-- What the threads have not handed over depends on each of them. -/
theorem unhandedBy_set {old th : LogThread} (hi : s.threads[i]? = some old)
    (hu : u.threads = s.threads.set i th) (j : Nat) :
    u.unhandedBy j = if j = i then th.unhanded else s.unhandedBy j := by
  unfold LogSystem.unhandedBy
  rw [hu]
  split
  · rename_i hji
    rw [hji, List.getElem?_set_self (List.getElem?_eq_some_iff.mp hi).1]
    rfl
  · rename_i hji
    rw [List.getElem?_set_ne (Ne.symm hji)]

theorem unhandedBy_self {old : LogThread} (hi : s.threads[i]? = some old) :
    s.unhandedBy i = old.unhanded := by
  rw [LogSystem.unhandedBy, hi]
  rfl

/-- A thread moves on, and takes or leaves a lock. -/
theorem sound_locks {old th : LogThread} (h : Sound s) (hi : s.threads[i]? = some old)
    {l : Locker} {f : Nat → LoggerManager}
    (hlogger : ∀ m, (f m).logger = (s.managers m).logger)
    (hguard : Guards l.locked LogThread.inInstance (s.threads.set i th))
    (hserial : ∀ m, Guards (f m).msgLocker.locked (LogThread.inMessage m) (s.threads.set i th))
    (hpending : ∀ x, th.pending x = old.pending x) (hunhanded : th.unhanded = old.unhanded)
    (hknows : ∀ k g p, th = .calling k g p → p.knows s k) :
    Sound { s with locker := l, managers := f, threads := s.threads.set i th } := by
  have hsame : ∀ k (p : LogPc), p.knows s k →
      p.knows { s with locker := l, managers := f, threads := s.threads.set i th } k :=
    fun k p hp => knows_congr (s := s) rfl hlogger rfl hp
  refine ⟨h.fate, hguard, hserial,
    knows_set h.knows hsame fun k g p heq => hsame k p (hknows k g p heq), fun x => ?_,
    fun j => ?_, h.wanted⟩
  · change s.out x ++ (s.threads.set i th).flatMap _ = _
    rw [flatMap_set hi (hpending x)]
    exact h.printed x
  · rw [unhandedBy_set (s := s) hi rfl, hunhanded, ← unhandedBy_self hi]
    split
    · rename_i hji
      rw [hji]
      exact h.told i
    · exact h.told j

theorem setMsgLocker_self (s : LogSystem) (m : Nat) (l : Locker) :
    (s.setMsgLocker m l).managers m = { s.managers m with msgLocker := l } :=
  Function.update_self ..

theorem setMsgLocker_of_ne (s : LogSystem) {m n : Nat} (h : n ≠ m) (l : Locker) :
    (s.setMsgLocker m l).managers n = s.managers n :=
  Function.update_of_ne h ..

/-- A thread moves on, and takes or leaves the message lock of a manager. -/
theorem sound_msgLocker {old th : LogThread} (h : Sound s) (hi : s.threads[i]? = some old)
    {m : Nat} {l : Locker}
    (hlock : Guards l.locked (LogThread.inMessage m) (s.threads.set i th))
    (hothers : ∀ n, n ≠ m → th.inMessage n = old.inMessage n)
    (hguard : th.inInstance = old.inInstance) (hpending : ∀ x, th.pending x = old.pending x)
    (hunhanded : th.unhanded = old.unhanded)
    (hknows : ∀ k g p, th = .calling k g p → p.knows s k) :
    Sound { s.setMsgLocker m l with threads := s.threads.set i th } := by
  refine sound_locks h hi (l := s.locker) (fun n => ?_) (guards_stay h.guarded hi hguard)
    (fun n => ?_) hpending hunhanded hknows
  · by_cases hn : n = m
    · rw [hn, setMsgLocker_self]
    · rw [setMsgLocker_of_ne s hn]
  · by_cases hn : n = m
    · rw [hn, setMsgLocker_self]
      exact hlock
    · rw [setMsgLocker_of_ne s hn]
      exact guards_stay (h.serial n) hi (hothers n hn)

/-- A thread only moves on. -/
theorem sound_move (h : Sound s) (hi : s.threads[i]? = some (.calling kind msg pc))
    (hguard : pc'.inInstance = pc.inInstance) (hserial : ∀ m, pc'.inMessage m = pc.inMessage m)
    (hpending : ∀ x, LogThread.pending x (.calling kind msg pc') =
      LogThread.pending x (.calling kind msg pc))
    (hsettled : pc'.settled = pc.settled) (hknows : pc'.knows s kind) :
    Sound (s.moveTo i kind msg pc') := by
  refine sound_locks h hi (l := s.locker) (f := s.managers) (fun _ => rfl)
    (guards_stay h.guarded hi hguard) (fun m => guards_stay (h.serial m) hi (hserial m)) hpending
    (by simp only [LogThread.unhanded, hsettled]) fun k g p heq => ?_
  cases heq
  exact hknows

/-- Nobody else is writing while a thread is in `message`. -/
theorem pending_others (h : Sound s) (hi : s.threads[i]? = some (.calling kind msg pc)) {m : Nat}
    (hin : pc.inMessage m = true) (hinst : s.inst = some m) (x : Stream) (j : Nat)
    (z : LogThread) (hj : s.threads[j]? = some z) (hne : j ≠ i) : z.pending x = [] := by
  cases z with
  | idle => rfl
  | calling k g p =>
      cases p with
      | writing n pieces =>
          have hn : s.inst = some n := h.knows k g _ (List.mem_of_getElem? hj)
          have hnm : n = m := Option.some.inj (hn.symm.trans hinst)
          have hjin : (LogThread.calling k g (.writing n pieces)).inMessage m = true := by
            simp only [LogThread.inMessage, LogPc.inMessage, hnm, decide_true]
          exact absurd (sole_inside (h.serial m) hj hi hjin hin) hne
      | _ => rfl

theorem lines_hand (s : LogSystem) (i : Nat) (kind : MessageKind) (msg : String) (m : Nat)
    (shown : Bool) (x : Stream) : (s.hand i kind msg m shown).lines x =
      s.lines x ++ if shown && kind.stream = x then line kind msg else [] := by
  simp only [LogSystem.lines, LogSystem.hand, List.filter_append, List.flatMap_append,
    List.filter_cons, List.filter_nil]
  split
  · rw [List.flatMap_singleton]
  · rw [List.flatMap_nil]

theorem handedBy_hand (s : LogSystem) (i : Nat) (kind : MessageKind) (msg : String) (m : Nat)
    (shown : Bool) (j : Nat) : (s.hand i kind msg m shown).handedBy j =
      s.handedBy j ++ if j = i then [(kind, msg)] else [] := by
  simp only [LogSystem.handedBy, LogSystem.hand, List.filter_append, List.map_append,
    List.filter_cons, List.filter_nil]
  by_cases hji : j = i
  · simp only [hji, decide_true, if_true, List.map_cons, List.map_nil]
  · simp only [hji, Ne.symm hji, decide_false, Bool.false_eq_true, if_false, List.map_nil]

/-- It is settled what becomes of a message, and the line, if there is to be one, is what its
    thread has to write. -/
theorem sound_hand (h : Sound s) (hi : s.threads[i]? = some (.calling kind msg pc)) {m : Nat}
    (hin : pc.inMessage m = true) (hinst : s.inst = some m) (hunsettled : pc.settled = false)
    {shown : Bool}
    (hwanted : shown = (⟨i, kind, msg, (s.managers m).logger, s.verbose, shown⟩ : Handed).wanted)
    (hguard : pc'.inInstance = pc.inInstance) (hserial : ∀ n, pc'.inMessage n = pc.inMessage n)
    (hsettled : pc'.settled = true)
    (hpending : ∀ x, LogThread.pending x (.calling kind msg pc') =
      if shown && kind.stream = x then line kind msg else [])
    (hknows : pc'.knows s kind) :
    Sound ((s.hand i kind msg m shown).moveTo i kind msg pc') := by
  refine ⟨h.fate, guards_stay h.guarded hi hguard,
    fun n => guards_stay (h.serial n) hi (hserial n),
    knows_set h.knows (fun _ _ hp => hp) fun k g p heq => ?_, fun x => ?_, fun j => ?_,
    fun e he => ?_⟩
  · cases heq
    exact hknows
  · have hnone : (LogThread.calling kind msg pc).pending x = [] := by
      cases pc <;> first
      | rfl
      | exact absurd hunsettled.symm Bool.false_ne_true
    rcases flatMap_sole hi (pending_others h hi hin hinst x) (.calling kind msg pc') with
      ⟨hbefore, hafter⟩
    have hprinted := h.printed x
    rw [hbefore, hnone, List.append_nil] at hprinted
    change s.out x ++ (s.threads.set i _).flatMap _ = (s.hand i kind msg m shown).lines x
    rw [hafter, hpending, lines_hand, hprinted]
  · have htold := h.told j
    change s.calledBy j = (s.hand i kind msg m shown).handedBy j ++ _
    rw [handedBy_hand, unhandedBy_set (s := s) hi rfl, htold]
    split
    · rename_i hji
      rw [hji, unhandedBy_self hi]
      simp only [LogThread.unhanded, hunsettled, hsettled, Bool.false_eq_true, if_false, if_true,
        List.append_nil]
    · rw [List.append_nil]
  · rcases List.mem_append.mp he with he | he
    · exact h.wanted e he
    · rw [List.mem_singleton.mp he]
      exact hwanted

/-- A piece of a line goes into its stream. -/
theorem sound_write {m : Nat} {p : String} {pieces : List String} (h : Sound s)
    (hi : s.threads[i]? = some (.calling kind msg (.writing m (p :: pieces)))) :
    Sound ({ s with
      out := Function.update s.out kind.stream (s.out kind.stream ++ [p]) }.moveTo i kind msg
        (.writing m pieces)) := by
  have hinst : s.inst = some m := h.knows _ _ _ (List.mem_of_getElem? hi)
  have hin : (LogPc.writing m (p :: pieces)).inMessage m = true := decide_eq_true rfl
  refine ⟨h.fate, guards_stay h.guarded hi rfl, fun n => guards_stay (h.serial n) hi rfl,
    knows_set h.knows (fun _ _ hp => hp) fun k g pc heq => ?_, fun x => ?_, fun j => ?_, h.wanted⟩
  · cases heq
    exact hinst
  · rcases flatMap_sole hi (pending_others h hi hin hinst x)
      (.calling kind msg (.writing m pieces)) with ⟨hbefore, hafter⟩
    have hprinted := h.printed x
    rw [hbefore] at hprinted
    change Function.update s.out kind.stream _ x ++ (s.threads.set i _).flatMap _ = s.lines x
    rw [hafter, ← hprinted]
    by_cases hx : x = kind.stream
    · rw [hx, Function.update_self]
      simp only [LogThread.pending, if_true, List.append_assoc, List.singleton_append]
    · rw [Function.update_of_ne hx]
      simp only [LogThread.pending, if_neg (Ne.symm hx)]
  · have htold := h.told j
    change s.calledBy j = s.handedBy j ++ _
    rw [unhandedBy_set (s := s) hi rfl, htold]
    split
    · rename_i hji
      rw [hji, unhandedBy_self hi]
      rfl
    · rfl

/-- While there is no manager, nobody has got to the message lock of one. -/
theorem not_inMessage (h : Sound s) (hnone : s.inst = none) (m : Nat) :
    s.threads.countP (LogThread.inMessage m) = 0 := by
  refine List.countP_eq_zero.mpr fun th hth hin => ?_
  cases th with
  | idle => exact absurd hin Bool.false_ne_true
  | calling k g p =>
      have hknows := h.knows k g p hth
      cases p <;> first
      | exact absurd hin Bool.false_ne_true
      | simp only [LogPc.knows, hnone, reduceCtorEq, false_and] at hknows

/-- A manager is made where there is none, and by nobody else. -/
theorem sound_make (h : Sound s) (hi : s.threads[i]? = some (.calling kind msg .making)) :
    Sound ((s.make .console).moveTo i kind msg .made) := by
  have hnone : s.inst = none := h.knows _ _ _ (List.mem_of_getElem? hi)
  refine ⟨h.fate, guards_stay h.guarded hi rfl, fun m => ?_, fun k g p hmem => ?_, fun x => ?_,
    fun j => ?_, h.wanted⟩
  · change Guards (Function.update s.managers _ _ m).msgLocker.locked _ (s.threads.set i _)
    by_cases hm : m = s.nextManager
    · have hnobody : Guards false (LogThread.inMessage s.nextManager) s.threads :=
        not_inMessage h hnone _
      rw [hm, Function.update_self]
      exact guards_stay hnobody hi rfl
    · rw [Function.update_of_ne hm]
      exact guards_stay (h.serial m) hi rfl
  · rcases List.getElem?_of_mem hmem with ⟨j, hj⟩
    by_cases hji : i = j
    · rw [← hji] at hj
      change (s.threads.set i _)[i]? = _ at hj
      rw [List.getElem?_set_self (List.getElem?_eq_some_iff.mp hi).1, Option.some.injEq] at hj
      cases hj
      rfl
    · change (s.threads.set i _)[j]? = _ at hj
      rw [List.getElem?_set_ne hji] at hj
      have hknows := h.knows k g p (List.mem_of_getElem? hj)
      -- Nobody has a manager, and nobody else is about to make one.
      cases p with
      | making => exact absurd (sole_inside h.guarded hi hj rfl rfl) hji
      | entered | locking | locked => trivial
      | _ => simp only [LogPc.knows, hnone, reduceCtorEq, false_and, Option.isSome_none,
          Bool.false_eq_true] at hknows
  · change s.out x ++ (s.threads.set i _).flatMap _ = s.lines x
    rw [flatMap_set (y := .calling kind msg .made) hi rfl]
    exact h.printed x
  · have htold := h.told j
    change s.calledBy j = s.handedBy j ++ _
    rw [unhandedBy_set (s := s) hi rfl, htold]
    split
    · rename_i hji
      rw [hji, unhandedBy_self hi]
      rfl
    · rfl

/-- One step of a thread in its call. -/
theorem sound_go (h : Sound s) (hi : s.threads[i]? = some (.calling kind msg pc)) :
    Sound (logStep s i kind msg pc) := by
  have hknows : pc.knows s kind := h.knows _ _ _ (List.mem_of_getElem? hi)
  cases pc with
  | entered =>
      simp only [logStep]
      cases hinst : s.inst with
      | none => exact sound_move h hi rfl (fun _ => rfl) (fun _ => rfl) rfl trivial
      | some m =>
          exact sound_move h hi rfl (fun _ => rfl) (fun _ => rfl) rfl
            ⟨by rw [hinst]; rfl, hinst.symm⟩
  | locking pc =>
      simp only [logStep]
      rcases lock_cases s.locker pc with ⟨pc', hl⟩ | ⟨hfree, hl⟩
      · rw [hl]
        exact sound_move h hi rfl (fun _ => rfl) (fun _ => rfl) rfl trivial
      · rw [hl]
        have hguard := h.guarded
        rw [hfree] at hguard
        refine sound_locks h hi (f := s.managers) (fun _ => rfl) (guards_enter hguard hi rfl rfl)
          (fun m => guards_stay (h.serial m) hi rfl) (fun _ => rfl) rfl fun k g p heq => ?_
        cases heq
        trivial
  | locked =>
      simp only [logStep]
      cases hinst : s.inst with
      | none => exact sound_move h hi rfl (fun _ => rfl) (fun _ => rfl) rfl hinst
      | some m =>
          exact sound_move h hi rfl (fun _ => rfl) (fun _ => rfl) rfl
            ⟨by rw [hinst]; rfl, hinst.symm⟩
  | making => exact sound_make h hi
  | made => exact sound_move h hi rfl (fun _ => rfl) (fun _ => rfl) rfl ⟨hknows, rfl⟩
  | unlocking tmp =>
      refine sound_locks h hi (f := s.managers) (fun _ => rfl)
        (guards_leave h.guarded hi rfl rfl) (fun m => guards_stay (h.serial m) hi rfl)
        (fun _ => rfl) rfl fun k g p heq => ?_
      cases heq
      exact hknows
  | found tmp =>
      cases tmp with
      | none =>
          rcases hknows with ⟨hsome, hnone⟩
          rw [← hnone] at hsome
          exact absurd hsome Bool.false_ne_true
      | some m => exact sound_move h hi rfl (fun _ => rfl) (fun _ => rfl) rfl hknows.2.symm
  | msgLocking m pc =>
      simp only [logStep]
      rcases lock_cases (s.managers m).msgLocker pc with ⟨pc', hl⟩ | ⟨hfree, hl⟩
      · rw [hl]
        refine sound_msgLocker h hi (guards_stay (h.serial m) hi rfl) (fun _ _ => rfl) rfl
          (fun _ => rfl) rfl fun k g p heq => ?_
        cases heq
        exact hknows
      · rw [hl]
        have hserial := h.serial m
        rw [hfree] at hserial
        have hin : (LogThread.calling kind msg (.msgLocked m)).inMessage m = true :=
          decide_eq_true rfl
        refine sound_msgLocker h hi (guards_enter hserial hi rfl hin)
          (fun n hn => decide_eq_false (Ne.symm hn)) rfl (fun _ => rfl) rfl fun k g p heq => ?_
        cases heq
        exact hknows
  | msgLocked m =>
      have hin : (LogPc.msgLocked m).inMessage m = true := decide_eq_true rfl
      have hdrop : (⟨i, kind, msg, (s.managers m).logger, s.verbose, false⟩ : Handed).wanted =
            false →
          Sound ((s.hand i kind msg m false).moveTo i kind msg (.msgUnlocking m)) := fun hwanted =>
        sound_hand h hi hin hknows rfl hwanted.symm rfl (fun _ => rfl) rfl (fun _ => rfl) hknows
      simp only [logStep]
      cases hlogger : (s.managers m).logger with
      | quiet | custom => exact hdrop (by rw [hlogger]; rfl)
      | console =>
          by_cases hquiet : s.verbose = .quiet
          · rw [if_pos hquiet]
            exact hdrop (by rw [hlogger, hquiet]; rfl)
          · rw [if_neg hquiet]
            cases kind with
            | message =>
                exact sound_move h hi rfl (fun _ => rfl) (fun _ => rfl) rfl
                  ⟨hknows, hlogger, hquiet, rfl⟩
            | info | warn | fatal =>
                refine sound_hand h hi hin hknows rfl ?_ rfl (fun _ => rfl) rfl
                  (fun x => by simp only [LogThread.pending, Bool.true_and, decide_eq_true_eq])
                  hknows
                simp only [Handed.wanted, hlogger, hquiet, decide_true, ne_eq, not_false_eq_true,
                  reduceCtorEq, Bool.true_and, Bool.true_or]
  | debugging m =>
      rcases hknows with ⟨hinst, hlogger, hquiet, hkind⟩
      have hin : (LogPc.debugging m).inMessage m = true := decide_eq_true rfl
      simp only [logStep]
      by_cases hdebug : s.verbose = .debug
      · rw [if_pos hdebug]
        refine sound_hand h hi hin hinst rfl ?_ rfl (fun _ => rfl) rfl
          (fun x => by simp only [LogThread.pending, Bool.true_and, decide_eq_true_eq]) hinst
        rw [hlogger, hdebug, hkind]
        rfl
      · rw [if_neg hdebug]
        refine sound_hand h hi hin hinst rfl ?_ rfl (fun _ => rfl) rfl (fun _ => rfl) hinst
        simp only [Handed.wanted, hdebug, hkind, decide_false, ne_eq, not_true_eq_false,
          Bool.or_self, Bool.and_false]
  | writing m pieces =>
      cases pieces with
      | nil =>
          refine sound_move h hi rfl (fun _ => rfl) (fun x => ?_) rfl hknows
          simp only [LogThread.pending, ite_self]
      | cons p pieces => exact sound_write h hi
  | msgUnlocking m =>
      have hin : (LogThread.calling kind msg (.msgUnlocking m)).inMessage m = true :=
        decide_eq_true rfl
      refine sound_msgLocker h hi (guards_leave (h.serial m) hi hin rfl)
        (fun n hn => (decide_eq_false (Ne.symm hn)).symm) rfl (fun _ => rfl) rfl
        fun k g p heq => ?_
      exact absurd heq (by simp only [reduceCtorEq, not_false_eq_true])

/-- A thread begins a call. -/
theorem sound_log (h : Sound s) (hi : s.threads[i]? = some .idle) :
    Sound { s.moveTo i kind msg .entered with called := s.called ++ [(i, kind, msg)] } := by
  refine ⟨h.fate, guards_stay h.guarded hi rfl, fun m => guards_stay (h.serial m) hi rfl,
    knows_set h.knows (fun _ _ hp => hp) fun k g p heq => ?_, fun x => ?_, fun j => ?_, h.wanted⟩
  · cases heq
    trivial
  · change s.out x ++ (s.threads.set i _).flatMap _ = s.lines x
    rw [flatMap_set (y := .calling kind msg .entered) hi rfl]
    exact h.printed x
  · have htold := h.told j
    change ((s.called ++ [(i, kind, msg)]).filter fun c => c.1 = j).map Prod.snd = s.handedBy j ++ _
    rw [unhandedBy_set (s := s) hi rfl, List.filter_append, List.map_append]
    change s.calledBy j ++ _ = _
    rw [htold]
    by_cases hji : j = i
    · rw [hji, unhandedBy_self hi, if_pos rfl]
      simp only [LogThread.unhanded, List.append_nil, List.filter_cons, List.filter_nil,
        decide_true, if_true, List.map_cons, List.map_nil, LogPc.settled, Bool.false_eq_true,
        if_false]
    · simp only [hji, Ne.symm hji, List.filter_cons, List.filter_nil, decide_false,
        Bool.false_eq_true, if_false, List.map_nil, List.append_nil]

/-- What is done while nobody logs is nobody's business. -/
theorem sound_idle (h : Sound s) (hidle : ∀ th ∈ s.threads, th = .idle) {inst : Option Nat}
    {ms : Nat → LoggerManager} {n : Nat} {v : Verbose}
    (hfree : ∀ m, ms m = s.managers m ∨ (ms m).msgLocker.locked = false) :
    Sound { s with inst := inst, managers := ms, nextManager := n, verbose := v } := by
  have hnobody : ∀ m, s.threads.countP (LogThread.inMessage m) = 0 := by
    refine fun m => List.countP_eq_zero.mpr fun th hth hin => ?_
    rw [hidle th hth] at hin
    exact absurd hin Bool.false_ne_true
  refine ⟨h.fate, h.guarded, fun m => ?_, fun k g p hmem => ?_, h.printed, h.told, h.wanted⟩
  · rcases hfree m with hm | hm
    · change Guards (ms m).msgLocker.locked _ _
      rw [hm]
      exact h.serial m
    · change Guards (ms m).msgLocker.locked _ _
      rw [hm]
      exact hnobody m
  · exact absurd (hidle _ hmem) (by simp only [reduceCtorEq, not_false_eq_true])

theorem step_sound {a : LogAction} (hs : loggingStep s a = some u) (ha : Calm s a)
    (h : Sound s) : Sound u := by
  unfold loggingStep at hs
  rw [if_pos h.fate] at hs
  cases a with
  | log i kind args =>
      simp only at hs
      split at hs
      · rename_i hi
        cases hs
        exact sound_log h hi
      · exact absurd hs (by simp only [reduceCtorEq, not_false_eq_true])
  | go i =>
      simp only at hs
      split at hs
      · rename_i hi
        cases hs
        exact sound_go h hi
      · exact absurd hs (by simp only [reduceCtorEq, not_false_eq_true])
  | start logger =>
      simp only at hs
      split at hs
      · cases hs
        refine sound_idle h ha fun m => ?_
        by_cases hm : m = s.nextManager
        · rw [hm, Function.update_self]
          exact Or.inr rfl
        · rw [Function.update_of_ne hm]
          exact Or.inl rfl
      · cases hs
        exact h
  | stop =>
      cases hs
      exact sound_idle h ha fun _ => Or.inl rfl
  | setVerbose v =>
      cases hs
      exact sound_idle h ha fun _ => Or.inl rfl

end Step

theorem sound_start (n : Nat) : Sound (logging n) where
  fate := rfl
  guarded := by
    refine List.countP_eq_zero.mpr fun th hth hin => ?_
    rw [List.eq_of_mem_replicate hth] at hin
    exact absurd hin Bool.false_ne_true
  serial m := by
    refine List.countP_eq_zero.mpr fun th hth hin => ?_
    rw [List.eq_of_mem_replicate hth] at hin
    exact absurd hin Bool.false_ne_true
  knows k g p hmem := absurd (List.eq_of_mem_replicate hmem)
    (by simp only [reduceCtorEq, not_false_eq_true])
  printed x := by
    refine List.flatMap_eq_nil_iff.mpr fun th hth => ?_
    rw [List.eq_of_mem_replicate hth]
    rfl
  told i := by
    rw [LogSystem.unhandedBy]
    cases hi : (logging n).threads[i]? with
    | none => rfl
    | some th =>
        rw [List.eq_of_mem_replicate (List.mem_of_getElem? hi)]
        rfl
  wanted e he := absurd he List.not_mem_nil

theorem reach_sound {n : Nat} {s : LogSystem} (h : (loggingMachine n).Reach Calm s) : Sound s :=
  invariant Sound (sound_start n) (fun _ _ _ ha hs h => step_sound hs ha h) h

/-- What `lock` has left while the lock is free. -/
def LockPc.work : LockPc → Nat
  | .trying _ => 1
  | .yielding => 2

/-- What a call has left while the locks are free. -/
def LogPc.work : LogPc → Nat
  | .msgUnlocking _ => 1
  | .writing _ pieces => 2 + pieces.length
  | .debugging _ => 6
  | .msgLocked _ => 7
  | .msgLocking _ pc => 7 + pc.work
  | .found _ => 10
  | .unlocking _ => 11
  | .made => 12
  | .making => 13
  | .locked => 14
  | .locking pc => 14 + pc.work
  | .entered => 17

def LogThread.work : LogThread → Nat
  | .idle => 0
  | .calling _ _ pc => pc.work

/-- What is left of all calls. -/
def LogSystem.work (s : LogSystem) : Nat :=
  (s.threads.map LogThread.work).sum

section Progress

variable {s u : LogSystem} {i : Nat} {kind : MessageKind} {msg : String} {pc : LogPc}

/-- A step of `lock` that finds the flag down. -/
theorem lock_free {l : Locker} (h : l.locked = false) (pc : LockPc) :
    (∃ numTry, pc = .trying numTry) ∧ l.lock pc = (⟨true⟩, none) ∨
      pc = .yielding ∧ l.lock pc = (l, some (.trying 0)) := by
  cases pc with
  | trying numTry =>
      refine Or.inl ⟨⟨numTry, rfl⟩, ?_⟩
      rw [Locker.lock, h]
      rfl
  | yielding => exact Or.inr ⟨rfl, rfl⟩

/-- A step that finds its lock free, if it needs one, leaves less to do. -/
theorem go_less (h : Sound s) (hi : s.threads[i]? = some (.calling kind msg pc))
    (hfree : ∀ p, pc = .locking p → s.locker.locked = false)
    (hmsgFree : ∀ m p, pc = .msgLocking m p → (s.managers m).msgLocker.locked = false) :
    ∃ th, (logStep s i kind msg pc).threads = s.threads.set i th ∧ th.work < pc.work := by
  have hmove : ∀ pc' : LogPc, pc'.work < pc.work →
      ∃ th, (s.moveTo i kind msg pc').threads = s.threads.set i th ∧ th.work < pc.work :=
    fun pc' hless => ⟨.calling kind msg pc', rfl, hless⟩
  cases pc with
  | entered =>
      simp only [logStep]
      cases s.inst with
      | none => exact hmove (.locking (.trying 0)) (by decide)
      | some m => exact hmove (.found (some m)) (show 10 < 17 by decide)
  | locking p =>
      simp only [logStep]
      rcases lock_free (hfree p rfl) p with ⟨⟨_, rfl⟩, hl⟩ | ⟨rfl, hl⟩
      · rw [hl]
        exact hmove .locked (Nat.lt_succ_self 14)
      · rw [hl]
        exact hmove (.locking (.trying 0)) (by decide)
  | locked =>
      simp only [logStep]
      cases s.inst with
      | none => exact hmove .making (by decide)
      | some m => exact hmove (.unlocking (some m)) (show 11 < 14 by decide)
  | making => exact hmove .made (by decide)
  | made => exact hmove (.unlocking s.inst) (Nat.lt_succ_self 11)
  | unlocking tmp => exact hmove (.found tmp) (Nat.lt_succ_self 10)
  | found tmp =>
      cases tmp with
      | none =>
          rcases h.knows _ _ _ (List.mem_of_getElem? hi) with ⟨hsome, hnone⟩
          rw [← hnone] at hsome
          exact absurd hsome Bool.false_ne_true
      | some m => exact hmove (.msgLocking m (.trying 0)) (show 8 < 10 by decide)
  | msgLocking m p =>
      simp only [logStep]
      rcases lock_free (hmsgFree m p rfl) p with ⟨⟨_, rfl⟩, hl⟩ | ⟨rfl, hl⟩
      · rw [hl]
        exact hmove (.msgLocked m) (Nat.lt_succ_self 7)
      · rw [hl]
        exact hmove (.msgLocking m (.trying 0)) (Nat.lt_succ_self 8)
  | msgLocked m =>
      have hdrop := hmove (.msgUnlocking m) (show 1 < 7 by decide)
      have hline := hmove (.writing m (line kind msg)) (show 5 < 7 by decide)
      simp only [logStep]
      cases (s.managers m).logger with
      | quiet | custom => exact hdrop
      | console =>
          by_cases hquiet : s.verbose = .quiet
          · rw [if_pos hquiet]
            exact hdrop
          · rw [if_neg hquiet]
            cases kind with
            | message => exact hmove (.debugging m) (Nat.lt_succ_self 6)
            | info | warn | fatal => exact hline
  | debugging m =>
      simp only [logStep]
      by_cases hdebug : s.verbose = .debug
      · rw [if_pos hdebug]
        exact hmove (.writing m (line kind msg)) (Nat.lt_succ_self 5)
      · rw [if_neg hdebug]
        exact hmove (.msgUnlocking m) (show 1 < 6 by decide)
  | writing m pieces =>
      cases pieces with
      | nil => exact hmove (.msgUnlocking m) (Nat.lt_succ_self 1)
      | cons p pieces => exact hmove (.writing m pieces) (Nat.lt_succ_self _)
  | msgUnlocking m => exact ⟨.idle, rfl, Nat.one_pos⟩

theorem go_called (s : LogSystem) (i : Nat) (kind : MessageKind) (msg : String) (pc : LogPc) :
    (logStep s i kind msg pc).called = s.called := by
  unfold logStep
  split <;> (repeat' split) <;> rfl

/-- As long as somebody is in a call, somebody can bring the end nearer: whoever owns a lock,
    or anybody if nobody does. -/
theorem logging_goes (h : Sound s) (hnot : ¬ ∀ th ∈ s.threads, th = .idle) :
    ∃ i u, loggingStep s (.go i) = some u ∧ u.work < s.work ∧ u.called = s.called := by
  suffices hgo : ∃ (i : Nat) (kind : MessageKind) (msg : String) (pc : LogPc),
      s.threads[i]? = some (.calling kind msg pc) ∧
      (∀ p, pc = .locking p → s.locker.locked = false) ∧
      ∀ m p, pc = .msgLocking m p → (s.managers m).msgLocker.locked = false by
    rcases hgo with ⟨i, kind, msg, pc, hi, hfree, hmsgFree⟩
    rcases go_less h hi hfree hmsgFree with ⟨th, hthreads, hless⟩
    refine ⟨i, logStep s i kind msg pc, ?_, ?_, go_called s i kind msg pc⟩
    · simp only [loggingStep, h.fate, hi, if_true]
    · have hsum := sum_set hi LogThread.work th
      unfold LogSystem.work
      rw [hthreads]
      change _ + pc.work = _ at hsum
      omega
  -- Whoever owns a lock does not wait for another.
  have howner : ∀ p : LogPc, p.inInstance = true ∨ (∃ m, p.inMessage m = true) →
      (∀ q, p ≠ .locking q) ∧ ∀ m q, p ≠ .msgLocking m q := by
    refine fun p hp => ⟨?_, ?_⟩
    · rintro q rfl
      rcases hp with hp | ⟨_, hp⟩ <;> exact absurd hp Bool.false_ne_true
    · rintro m q rfl
      rcases hp with hp | ⟨_, hp⟩ <;> exact absurd hp Bool.false_ne_true
  by_cases hin : ∃ th ∈ s.threads, th.inInstance = true ∨ ∃ m, th.inMessage m = true
  · rcases hin with ⟨th, hth, hin⟩
    rcases List.getElem?_of_mem hth with ⟨i, hi⟩
    cases th with
    | idle => rcases hin with hin | ⟨_, hin⟩ <;> exact absurd hin Bool.false_ne_true
    | calling kind msg pc =>
        exact ⟨i, kind, msg, pc, hi, fun p hp => absurd hp ((howner pc hin).1 p),
          fun m p hp => absurd hp ((howner pc hin).2 m p)⟩
  · have hdown : ∀ {flag : Bool} {inside : LogThread → Bool}, Guards flag inside s.threads →
        (∀ th ∈ s.threads, inside th = true → False) → flag = false := by
      intro flag inside hguards hnone
      have hzero : s.threads.countP inside = 0 := List.countP_eq_zero.mpr hnone
      rw [hguards] at hzero
      cases flag with
      | false => rfl
      | true => exact absurd hzero Nat.one_ne_zero
    rcases not_forall.mp hnot with ⟨th, hth⟩
    rcases Classical.not_imp.mp hth with ⟨hmem, hbusy⟩
    rcases List.getElem?_of_mem hmem with ⟨i, hi⟩
    cases th with
    | idle => exact absurd rfl hbusy
    | calling kind msg pc =>
        exact ⟨i, kind, msg, pc, hi,
          fun _ _ => hdown h.guarded fun t ht hti => hin ⟨t, ht, Or.inl hti⟩,
          fun m _ _ => hdown (h.serial m) fun t ht hti => hin ⟨t, ht, Or.inr ⟨m, hti⟩⟩⟩

/-- From wherever it is, all calls can come to their end. -/
theorem logging_ends {n : Nat} (h : Sound s) :
    ∃ t, (loggingMachine n).Path (fun _ a => ∃ i, a = .go i) s t ∧
      (Sound t ∧ t.called = s.called) ∧ ∀ th ∈ t.threads, th = .idle := by
  refine path_reaches (fun t => Sound t ∧ t.called = s.called)
    (fun t => ∀ th ∈ t.threads, th = .idle) LogSystem.work (fun t ht hnot => ?_) ⟨h, rfl⟩
  rcases logging_goes ht.1 hnot with ⟨i, u, hs, hless, hcalled⟩
  exact ⟨u, Machine.Path.tail (.go i) (Machine.Path.refl t) ⟨i, rfl⟩ hs,
    ⟨step_sound hs trivial ht.1, hcalled.trans ht.2⟩, hless⟩

/-- Two threads are not in the middle of a line together, be it of the same stream or not. -/
theorem one_writes (h : Sound s) {j : Nat} {th th' : LogThread} {x y : Stream}
    (hi : s.threads[i]? = some th) (hj : s.threads[j]? = some th') (hx : th.pending x ≠ [])
    (hy : th'.pending y ≠ []) : i = j := by
  have hwriting : ∀ {t : LogThread} {z : Stream}, t ∈ s.threads → t.pending z ≠ [] →
      ∃ m, s.inst = some m ∧ t.inMessage m = true := by
    intro t z ht hz
    cases t with
    | idle => exact absurd rfl hz
    | calling k g p =>
        cases p with
        | writing m pieces => exact ⟨m, h.knows k g _ ht, decide_eq_true rfl⟩
        | _ => exact absurd rfl hz
  rcases hwriting (List.mem_of_getElem? hi) hx with ⟨m, hm, hin⟩
  rcases hwriting (List.mem_of_getElem? hj) hy with ⟨m', hm', hin'⟩
  have hsame : m' = m := Option.some.inj (hm'.symm.trans hm)
  exact sole_inside (h.serial m) hi hj hin (hsame ▸ hin')

/-- Everybody logs through the one manager there is, and at most one thread is in the middle
    of a line. Each stream holds the lines of the messages that were handed over, in that
    order and whole, but for what the one thread has still to write. The messages of a thread
    are handed over in the order it logged them, each once, and a line is made of those that
    `verbose` lets through. The calls in progress can always be finished. -/
theorem logger_writes_whole_lines {n : Nat} (h : (loggingMachine n).Reach Calm s) :
    s.fate = .running ∧
      (∀ kind msg pc m, LogThread.calling kind msg pc ∈ s.threads → pc.inMessage m = true →
        s.inst = some m) ∧
      (∀ (i j : Nat) (th th' : LogThread) x y, s.threads[i]? = some th → s.threads[j]? = some th' →
        th.pending x ≠ [] → th'.pending y ≠ [] → i = j) ∧
      (∀ x, s.out x ++ s.threads.flatMap (LogThread.pending x) = s.lines x) ∧
      (∀ i, s.calledBy i = s.handedBy i ++ s.unhandedBy i) ∧
      (∀ e ∈ s.handed, e.shown = e.wanted) ∧
      ∃ t, (loggingMachine n).Path (fun _ a => ∃ i, a = .go i) s t ∧
        (∀ th ∈ t.threads, th = .idle) ∧ (∀ x, t.out x = t.lines x) ∧
        ∀ i, t.handedBy i = s.calledBy i := by
  have hsound := reach_sound h
  refine ⟨hsound.fate, fun kind msg pc m hmem hin => ?_,
    fun i j th th' x y hi hj hx hy => one_writes hsound hi hj hx hy, hsound.printed,
    hsound.told, hsound.wanted, ?_⟩
  · have hknows := hsound.knows kind msg pc hmem
    cases pc with
    | msgLocked k | writing k pieces | msgUnlocking k => exact of_decide_eq_true hin ▸ hknows
    | debugging k => exact of_decide_eq_true hin ▸ hknows.1
    | _ => exact absurd hin Bool.false_ne_true
  · rcases logging_ends (n := n) hsound with ⟨t, hpath, ⟨ht, hcalled⟩, hidle⟩
    refine ⟨t, hpath, hidle, fun x => ?_, fun i => ?_⟩
    · have hnone : t.threads.flatMap (LogThread.pending x) = [] :=
        List.flatMap_eq_nil_iff.mpr fun th hth => by rw [hidle th hth]; rfl
      have hprinted := ht.printed x
      rwa [hnone, List.append_nil] at hprinted
    · have htold := ht.told i
      have hnone : t.unhandedBy i = [] := by
        rw [LogSystem.unhandedBy]
        cases hi : t.threads[i]? with
        | none => rfl
        | some th =>
            rw [hidle th (List.mem_of_getElem? hi)]
            rfl
      rw [hnone, List.append_nil] at htold
      rw [← htold, LogSystem.calledBy, hcalled]
      rfl

end Progress

/-- Two threads find no manager. One of them makes it, and is in the middle of its line when
    the other gets to the message lock. -/
def twoLogs : List LogAction :=
  [.log 0 .info ["a", "b"], .log 1 .fatal ["c"], .go 0, .go 1] ++ List.replicate 3 (.go 0) ++
    [.go 1] ++ List.replicate 2 (.go 0) ++ List.replicate 4 (.go 1) ++
    List.replicate 5 (.go 0) ++ List.replicate 2 (.go 1)

/-- Each of them gets its line. -/
theorem logger_writes_whole_lines_twoLogs :
    ((loggingMachine 2).after twoLogs).out .cout = ["[inf] ", "ab"] ∧
      ∃ t, (loggingMachine 2).Path (fun _ a => ∃ i, a = .go i)
          ((loggingMachine 2).after twoLogs) t ∧ t.out .cerr = t.lines .cerr ∧
        t.handedBy 0 = [(.info, "ab")] ∧ t.handedBy 1 = [(.fatal, "c")] := by
  refine ⟨by decide, ?_⟩
  have hreach : (loggingMachine 2).Reach Calm ((loggingMachine 2).after twoLogs) :=
    reach_meets twoLogs (by decide)
  rcases logger_writes_whole_lines hreach with
    ⟨_, _, _, _, _, _, t, hpath, _, hlines, hhanded⟩
  exact ⟨t, hpath, hlines .cerr, (hhanded 0).trans (by decide), (hhanded 1).trans (by decide)⟩

end Yaaf.Logging
