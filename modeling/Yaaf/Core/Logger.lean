import Mathlib.Logic.Function.Basic
import Yaaf.Core.State
import Yaaf.Library.Machine

/-!
# The Logger

`logger_manager` and the `locker` it is built on. Any number of threads call `logger`
and its variants, which put their arguments together into one string, ask `instance` for
the manager, and call `message` on it.

A step of a thread is one access to something shared: a test-and-set or a clear of a
flag, a read or a write of `_instance` or of `verbose`, one `<<` into a stream. So
`lock` of a `locker` takes any number of steps, `instance` looks at `_instance` once
without the lock and once with it, and the line of a message goes into its stream in
three pieces.

The pointer that `instance` returns is a plain one. What is done through it after the
manager is gone is left out by what the results ask of a run: `start` and `stop` take no
lock, and are called while nobody logs. A logger of the program's own is called like the
two of the library, and where it writes to is its own matter.

The list of calls and the list of messages handed over are a ghost. No step reads them.

## Main definitions

* `Locker`, `LockPc`: The spin lock; where a thread stands in `lock`.
* `MessageKind`, `Verbose`, `Logger`: The types of the logger.
* `LogPc`, `LogThread`: Where a thread stands in a call.
* `LogSystem`: The state.
* `logStep`: What a thread does next.
* `loggingMachine`: The machine.
-/

namespace Yaaf.Logging

/-- `LOCKER_MAX_TRY`. -/
def lockerMaxTry : Nat := 10

/-- `locker`, by its flag. -/
structure Locker where
  locked : Bool := false
deriving DecidableEq, Repr

/-- Where a thread stands in `locker::lock`. -/
inductive LockPc
  -- In `try_lock`, before the test-and-set with this number.
  | trying (numTry : Nat)
  -- `try_lock` has returned false; `yield` is next.
  | yielding
deriving DecidableEq, Repr

namespace Locker

/-- One step of `lock`: the flag after it, and where the thread stands then, if `lock`
    has not returned. -/
def lock (l : Locker) : LockPc → Locker × Option LockPc
  | .trying numTry =>
    if l.locked then
      (⟨true⟩, some (if numTry + 1 < lockerMaxTry then .trying (numTry + 1) else .yielding))
    else (⟨true⟩, none)
  | .yielding => (l, some (.trying 0))

/-- `unlock`. -/
def unlock (_ : Locker) : Locker :=
  ⟨false⟩

end Locker

/-- `message_kind`. -/
inductive MessageKind
  | message
  | info
  | warn
  | fatal
deriving DecidableEq, Repr

/-- `verbose`. -/
inductive Verbose
  | verbose
  | debug
  | quiet
deriving DecidableEq, Repr

/-- The streams of the console. -/
inductive Stream
  | cout
  | cerr
deriving DecidableEq, Repr

/-- The classes behind `abstract_logger`. -/
inductive Logger
  | console
  | quiet
  -- A logger of the program.
  | custom
deriving DecidableEq, Repr

/-- Where `console_logger` writes a message. -/
def MessageKind.stream : MessageKind → Stream
  | .fatal => .cerr
  | _ => .cout

/-- What it writes before the message. -/
def MessageKind.mark : MessageKind → String
  | .fatal => "[err] "
  | .warn => "[wrn] "
  | .info => "[inf] "
  | .message => "[dbg] "

/-- The pieces of a line. -/
def line (kind : MessageKind) (msg : String) : List String :=
  [kind.mark, msg, "\n"]

/-- `strings::args_to_string`, of arguments that are strings already. -/
def argsToString (args : List String) : String :=
  args.foldl (· ++ ·) ""

/-- `logger_manager`. -/
structure LoggerManager where
  msgLocker : Locker
  logger : Logger
deriving DecidableEq, Repr

/-- Where a thread stands in a call of `logger`. -/
inductive LogPc
  -- In `instance`, before the first look at `_instance`.
  | entered
  -- In the constructor of the lock guard of `_locker`.
  | locking (pc : LockPc)
  -- Before the second look.
  | locked
  -- There is no manager; one with a console logger is next.
  | making
  -- Before `tmp` gets the new pointer.
  | made
  -- Before the lock guard is left.
  | unlocking (tmp : Option Nat)
  -- `instance` has returned, and what it returned is dereferenced next.
  | found (tmp : Option Nat)
  -- In `message` of a manager, in the constructor of the lock guard of `_msg_locker`.
  | msgLocking (m : Nat) (pc : LockPc)
  -- Before the call of `_logger->message`.
  | msgLocked (m : Nat)
  -- In `console_logger::message`, before the second look at `verbose`.
  | debugging (m : Nat)
  -- With these pieces of the line left.
  | writing (m : Nat) (pieces : List String)
  -- Before the lock guard is left.
  | msgUnlocking (m : Nat)
deriving DecidableEq, Repr

/-- A thread of the program. -/
inductive LogThread
  | idle
  | calling (kind : MessageKind) (msg : String) (pc : LogPc)
deriving DecidableEq, Repr

/-- A message that was handed to a logger: by which thread, what the logger and `verbose`
    were then, and whether a line is made of it. -/
structure Handed where
  thread : Nat
  kind : MessageKind
  msg : String
  logger : Logger
  verbose : Verbose
  shown : Bool
deriving DecidableEq, Repr

/-- The static members of `logger_manager`, the managers made so far, the streams, and
    the threads. -/
structure LogSystem where
  inst : Option Nat
  locker : Locker
  managers : Nat → LoggerManager
  nextManager : Nat
  verbose : Verbose
  out : Stream → List String
  threads : List LogThread
  fate : Fate
  called : List (Nat × MessageKind × String)
  handed : List Handed

namespace LogSystem

/-- The `i`-th thread moves to another position of its call. -/
def moveTo (s : LogSystem) (i : Nat) (kind : MessageKind) (msg : String) (pc : LogPc) : LogSystem :=
  { s with threads := s.threads.set i (.calling kind msg pc) }

/-- A manager is made and stored in `_instance`. -/
def make (s : LogSystem) (logger : Logger) : LogSystem :=
  { s with
    managers := Function.update s.managers s.nextManager ⟨⟨false⟩, logger⟩
    nextManager := s.nextManager + 1
    inst := some s.nextManager }

/-- The flag of `_msg_locker` of a manager. -/
def setMsgLocker (s : LogSystem) (m : Nat) (l : Locker) : LogSystem :=
  { s with managers := Function.update s.managers m { s.managers m with msgLocker := l } }

/-- It is settled what becomes of a message. -/
def hand (s : LogSystem) (i : Nat) (kind : MessageKind) (msg : String) (m : Nat) (shown : Bool) :
    LogSystem :=
  { s with handed := s.handed ++ [⟨i, kind, msg, (s.managers m).logger, s.verbose, shown⟩] }

end LogSystem

/-- What the `i`-th thread does next in its call. -/
def logStep (s : LogSystem) (i : Nat) (kind : MessageKind) (msg : String) : LogPc → LogSystem
  | .entered =>
    match s.inst with
    | none => s.moveTo i kind msg (.locking (.trying 0))
    | some m => s.moveTo i kind msg (.found (some m))
  | .locking pc =>
    match s.locker.lock pc with
    | (l, none) => { s with locker := l }.moveTo i kind msg .locked
    | (l, some pc) => { s with locker := l }.moveTo i kind msg (.locking pc)
  | .locked =>
    match s.inst with
    | none => s.moveTo i kind msg .making
    | some m => s.moveTo i kind msg (.unlocking (some m))
  | .making => (s.make .console).moveTo i kind msg .made
  | .made => s.moveTo i kind msg (.unlocking s.inst)
  | .unlocking tmp => { s with locker := s.locker.unlock }.moveTo i kind msg (.found tmp)
  | .found none => { s with fate := .undefined }
  | .found (some m) => s.moveTo i kind msg (.msgLocking m (.trying 0))
  | .msgLocking m pc =>
    match (s.managers m).msgLocker.lock pc with
    | (l, none) => (s.setMsgLocker m l).moveTo i kind msg (.msgLocked m)
    | (l, some pc) => (s.setMsgLocker m l).moveTo i kind msg (.msgLocking m pc)
  | .msgLocked m =>
    match (s.managers m).logger with
    | .quiet | .custom => (s.hand i kind msg m false).moveTo i kind msg (.msgUnlocking m)
    | .console =>
      if s.verbose = .quiet then (s.hand i kind msg m false).moveTo i kind msg (.msgUnlocking m)
      else match kind with
        | .message => s.moveTo i kind msg (.debugging m)
        | _ => (s.hand i kind msg m true).moveTo i kind msg (.writing m (line kind msg))
  | .debugging m =>
    if s.verbose = .debug then
      (s.hand i kind msg m true).moveTo i kind msg (.writing m (line kind msg))
    else (s.hand i kind msg m false).moveTo i kind msg (.msgUnlocking m)
  | .writing m [] => s.moveTo i kind msg (.msgUnlocking m)
  | .writing m (p :: pieces) =>
    { s with
      out := Function.update s.out kind.stream (s.out kind.stream ++ [p]) }.moveTo i kind msg
      (.writing m pieces)
  | .msgUnlocking m =>
    { s.setMsgLocker m (s.managers m).msgLocker.unlock with threads := s.threads.set i .idle }

/-- What the program can do. -/
inductive LogAction
  -- A thread calls `logger` or a variant of it.
  | log (i : Nat) (kind : MessageKind) (args : List String)
  -- A thread goes on with its call.
  | go (i : Nat)
  -- `logger_manager::start`.
  | start (logger : Logger)
  -- `logger_manager::stop`.
  | stop
  | setVerbose (v : Verbose)
deriving DecidableEq, Repr

/-- One step. -/
def loggingStep (s : LogSystem) (a : LogAction) : Option LogSystem :=
  if s.fate = .running then
    match a with
    | .log i kind args =>
      match s.threads[i]? with
      | some .idle =>
        some { s.moveTo i kind (argsToString args) .entered with
          called := s.called ++ [(i, kind, argsToString args)] }
      | _ => none
    | .go i =>
      match s.threads[i]? with
      | some (.calling kind msg pc) => some (logStep s i kind msg pc)
      | _ => none
    | .start logger =>
      match s.inst with
      | none => some (s.make logger)
      | some _ => some s
    | .stop => some { s with inst := none }
    | .setVerbose v => some { s with verbose := v }
  else none

/-- `n` threads, and nothing logged yet. -/
def logging (n : Nat) : LogSystem where
  inst := none
  locker := ⟨false⟩
  managers := fun _ => ⟨⟨false⟩, .console⟩
  nextManager := 0
  verbose := .debug
  out := fun _ => []
  threads := List.replicate n .idle
  fate := .running
  called := []
  handed := []

/-- The logger as a machine. -/
def loggingMachine (n : Nat) : Machine LogSystem LogAction where
  start := logging n
  step := loggingStep

end Yaaf.Logging
