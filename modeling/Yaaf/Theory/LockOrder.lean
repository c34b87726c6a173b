import Yaaf.Core.Locking

/-!
# No Lock Cycle

The order in which a context blocks for its locks: `_locker` first, then
`_exchange_locker`, then a mailbox or the queue of a pool, which nothing is
locked under. A publication holds the second and the third kind. A stop that
erases a connection holds the first and the second.

Two places take the first two locks the other way round, and neither blocks
while it does: the mailbox worker only tries, and `subscribe_to_exchange`
leaves the order to `std::lock`, which gives up what it has before it waits
again.

## Main definitions

* `Lock.rank`: The order.

## Theorems

* `program_ordered`: Every operation blocks in this order.
* `no_lock_cycle`: No threads wait for each other in a circle.
* `some_call_goes`: While a call is in progress, some thread can move.
-/

namespace Yaaf.Locking

open Locks

/-- The order in which the locks are blocked for. -/
def Lock.rank : Lock → Nat
  | .locker => 0
  | .exchangeLocker => 1
  | .mailbox _ => 2
  | .pub _ => 2
  | .queueMutex _ => 2

section Order

theorem ordered_guarded {b : Nat} {l : Lock} {m : Mode} (h : b ≤ l.rank) :
    (guarded l m).Ordered Lock.rank b :=
  ⟨h, trivial⟩

theorem ordered_userPost {b : Nat} (h : b ≤ 2) : userPost.Ordered Lock.rank b :=
  ordered_sometimes.mpr (ordered_guarded h)

theorem ordered_addActor : addActor.Ordered Lock.rank 0 :=
  ⟨ordered_sometimes.mpr (ordered_guarded (Nat.le_refl 0)), ordered_guarded (Nat.le_refl 0),
    ordered_userPost (Nat.zero_le 2)⟩

theorem ordered_stopHook (hook : StopHook) : hook.cmd.Ordered Lock.rank 1 := by
  cases hook with
  | none => trivial
  | eraseListenerOn => exact ordered_guarded (Nat.le_refl 1)
  | eraseConnections => exact ordered_guarded (Nat.le_refl 1)

/-- The erasing under a stop is the one place where `_exchange_locker` is
    blocked for under `_locker`. -/
theorem ordered_stopActor (hooks : List StopHook) : (stopActor hooks).Ordered Lock.rank 0 := by
  refine ⟨Nat.le_refl 0, ordered_all.mpr fun c hc => ?_⟩
  rcases List.mem_map.mp hc with ⟨hook, _, rfl⟩
  exact ordered_stopHook hook

theorem ordered_networkAction (action : NetworkAction) : action.cmd.Ordered Lock.rank 0 := by
  cases action with
  | addListenerOn => exact ordered_addActor
  | addConnectionTo => exact ⟨ordered_guarded (Nat.zero_le 1), ordered_addActor⟩

/-- Under both locks only mailboxes are blocked for. -/
theorem ordered_fanOut (x : String) (subscribes : List MailboxPtr) :
    (fanOut x subscribes).Ordered Lock.rank 2 := by
  refine ⟨⟨ordered_guarded (Nat.le_refl 2), ordered_all.mpr fun c hc => ?_⟩,
    ordered_guarded (Nat.le_refl 2)⟩
  rcases List.mem_map.mp hc with ⟨m, _, rfl⟩
  exact ordered_guarded (Nat.le_refl 2)

theorem ordered_visit (m : MailboxPtr) : (visit m).Ordered Lock.rank 1 :=
  ⟨ordered_guarded (Nat.le_succ 1), ordered_sometimes.mpr ⟨ordered_guarded (Nat.le_succ 1),
    ordered_sometimes.mpr (ordered_userPost (Nat.le_succ 1))⟩⟩

theorem ordered_mailboxWorker (exchanges : List (String × List MailboxPtr))
    (mboxes : List MailboxPtr) : (mailboxWorker exchanges mboxes).Ordered Lock.rank 0 := by
  have hfan : (Cmd.all (exchanges.map fun kv => fanOut kv.1 kv.2)).Ordered Lock.rank 2 := by
    refine ordered_all.mpr fun c hc => ?_
    rcases List.mem_map.mp hc with ⟨kv, _, rfl⟩
    exact ordered_fanOut kv.1 kv.2
  have hscan : (Cmd.all (mboxes.map visit)).Ordered Lock.rank 1 := by
    refine ordered_all.mpr fun c hc => ?_
    rcases List.mem_map.mp hc with ⟨m, _, rfl⟩
    exact ordered_visit m
  exact ⟨⟨⟨hfan, trivial⟩, trivial⟩, ⟨hscan, trivial, trivial⟩,
    ordered_sometimes.mpr ⟨trivial, trivial⟩⟩

theorem ordered_applyActorToMailbox (mb : MailboxPtr) (actions : List NetworkAction)
    (hooks : List StopHook) : (applyActorToMailbox mb actions hooks).Ordered Lock.rank 0 := by
  have hactions : (Cmd.all (actions.map NetworkAction.cmd)).Ordered Lock.rank 0 := by
    refine ordered_all.mpr fun c hc => ?_
    rcases List.mem_map.mp hc with ⟨action, _, rfl⟩
    exact ordered_networkAction action
  refine ⟨⟨ordered_guarded (Nat.zero_le 2), ordered_guarded (Nat.zero_le 2),
    ordered_sometimes.mpr hactions⟩, ordered_sometimes.mpr ⟨?_, ?_⟩⟩
  · exact ordered_sometimes.mpr (ordered_guarded (Nat.le_refl 0))
  · exact ordered_sometimes.mpr (ordered_stopActor hooks)

/-- Every operation blocks for its locks in the order of their ranks. -/
theorem program_ordered (op : Operation) : op.program.Ordered Lock.rank 0 := by
  cases op with
  | addActor => exact ordered_addActor
  | stopActor hooks => exact ordered_stopActor hooks
  | sendEnvelope m =>
      exact ⟨Nat.le_refl 0, ordered_sometimes.mpr (ordered_guarded (Nat.le_succ 1))⟩
  | getActor => exact ordered_guarded (Nat.le_refl 0)
  | getAddress => exact ordered_guarded (Nat.le_refl 0)
  | createExchange => exact ordered_guarded (Nat.zero_le 1)
  | subscribeToExchange => exact ⟨Nat.zero_le 1, Nat.le_refl 0, trivial⟩
  | publishToExchange x =>
      exact ⟨Nat.zero_le 1, ordered_sometimes.mpr (ordered_guarded (Nat.le_refl 2))⟩
  | exchangeExists => exact ordered_guarded (Nat.zero_le 1)
  | mailboxWorker exchanges mboxes => exact ordered_mailboxWorker exchanges mboxes
  | applyActorToMailbox mb actions hooks => exact ordered_applyActorToMailbox mb actions hooks
  | queue kind m => exact ordered_guarded (Nat.zero_le 2)

end Order

/-- No lock cycle: whatever operations any number of threads run, in no state
    reached is there a set of threads that each block for a lock which a thread
    of the set holds. -/
theorem no_lock_cycle (n : Nat) {s : List (Code Lock)}
    (h : (lockMachine Operation.program n).Reach Machine.free s) (D : Finset Nat) :
    ¬ Deadlock s D :=
  no_deadlock program_ordered h D

/-- Thread 0 stops a connection and holds `_locker`, thread 1 subscribes and has
    taken `_exchange_locker` first. -/
def heldUp : List (Code Lock) :=
  (lockMachine Operation.program 2).after
    [.begin 0 (.stopActor [.eraseConnections]), .begin 1 .subscribeToExchange, .go 0 true,
      .go 1 true, .go 0 true]

theorem no_lock_cycle_heldUp : Waits heldUp 0 1 ∧ ¬ Deadlock heldUp {0, 1} := by
  have hstate : heldUp =
      [[.run eraseConnections, .run .skip, .unlock .locker .exclusive],
        [.second .exchangeLocker .locker .skip]] := by
    decide
  refine ⟨⟨_, _, .exchangeLocker, congrArg (·[0]?) hstate, congrArg (·[1]?) hstate, ?_, ?_⟩,
    no_lock_cycle 2 (Machine.reach_after _) {0, 1}⟩
  · exact List.mem_singleton_self Lock.exchangeLocker
  · exact ⟨_, List.mem_cons_self, .exclusive, rfl⟩

/-- While a call is in progress, some thread can move. -/
theorem some_call_goes (n : Nat) {s : List (Code Lock)}
    (h : (lockMachine Operation.program n).Reach Machine.free s) {i : Nat} {code : Code Lock}
    (hi : s[i]? = some code) (hcode : code ≠ []) :
    ∃ j b, ((lockMachine Operation.program n).step s (.go j b)).isSome = true :=
  some_thread_goes program_ordered h hi hcode

end Yaaf.Locking
