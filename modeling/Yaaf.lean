import Yaaf.Core.Condition
import Yaaf.Core.Connections
import Yaaf.Core.Locking
import Yaaf.Core.Logger
import Yaaf.Core.Owner
import Yaaf.Core.Peers
import Yaaf.Core.Queries
import Yaaf.Core.Serialization
import Yaaf.Core.Sharing
import Yaaf.Core.Step
import Yaaf.Core.ThreadManager
import Yaaf.Core.ThreadsPool
import Yaaf.Library.ActorModel
import Yaaf.Library.Channel
import Yaaf.Library.Exclusion
import Yaaf.Library.Family
import Yaaf.Library.Focus
import Yaaf.Library.Hierarchy
import Yaaf.Library.Machine
import Yaaf.Library.Monitor
import Yaaf.Library.Multicast
import Yaaf.Library.Outlet
import Yaaf.Library.Potential
import Yaaf.Library.Pruning
import Yaaf.Library.Slots
import Yaaf.Library.TaskQueue
import Yaaf.Library.Trace
import Yaaf.Theory.Actors
import Yaaf.Theory.Adding
import Yaaf.Theory.Addresses
import Yaaf.Theory.Agreement
import Yaaf.Theory.Answers
import Yaaf.Theory.AtRest
import Yaaf.Theory.Attribution
import Yaaf.Theory.Barrier
import Yaaf.Theory.Codec
import Yaaf.Theory.Condition
import Yaaf.Theory.Delivery
import Yaaf.Theory.Destruction
import Yaaf.Theory.Dispatch
import Yaaf.Theory.Draining
import Yaaf.Theory.Escalation
import Yaaf.Theory.Exchange
import Yaaf.Theory.Failures
import Yaaf.Theory.Finality
import Yaaf.Theory.Forest
import Yaaf.Theory.Handlers
import Yaaf.Theory.Inert
import Yaaf.Theory.Joining
import Yaaf.Theory.Letters
import Yaaf.Theory.Lifetime
import Yaaf.Theory.Lineages
import Yaaf.Theory.Load
import Yaaf.Theory.LockOrder
import Yaaf.Theory.Logger
import Yaaf.Theory.Managers
import Yaaf.Theory.Multicasts
import Yaaf.Theory.Naming
import Yaaf.Theory.Once
import Yaaf.Theory.Orderly
import Yaaf.Theory.Ownership
import Yaaf.Theory.Passes
import Yaaf.Theory.Payloads
import Yaaf.Theory.PickOrder
import Yaaf.Theory.Poised
import Yaaf.Theory.Pool
import Yaaf.Theory.Population
import Yaaf.Theory.Queries
import Yaaf.Theory.Questions
import Yaaf.Theory.Queues
import Yaaf.Theory.Reentry
import Yaaf.Theory.Registry
import Yaaf.Theory.Reinit
import Yaaf.Theory.Resolution
import Yaaf.Theory.Sizes
import Yaaf.Theory.Standing
import Yaaf.Theory.Starting
import Yaaf.Theory.Stopping
import Yaaf.Theory.Subscriptions
import Yaaf.Theory.Subtree
import Yaaf.Theory.Supervision
import Yaaf.Theory.Threads
import Yaaf.Theory.Verdicts
import Yaaf.Theory.Waiters
import Yaaf.Theory.Wakeups
