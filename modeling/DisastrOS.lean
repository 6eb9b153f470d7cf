import DisastrOS.Lib.Pool
import DisastrOS.Lib.Machine
import DisastrOS.Lib.Seq
import DisastrOS.Lib.Channel
import DisastrOS.Lib.Agenda
import DisastrOS.Lib.Threaded
import DisastrOS.Lib.Linked
import DisastrOS.Model.PoolAllocator
import DisastrOS.Model.LinkedList
import DisastrOS.Model.Types
import DisastrOS.Model.State
import DisastrOS.Model.Schedule
import DisastrOS.Model.Resource
import DisastrOS.Model.Process
import DisastrOS.Model.Queue
import DisastrOS.Model.Kernel
import DisastrOS.Model.Syscall
import DisastrOS.Spec.History
import DisastrOS.Spec.Channels
import DisastrOS.Spec.Ledger
import DisastrOS.Spec.Trails
import DisastrOS.Spec.Payload
import DisastrOS.Spec.Matching
import DisastrOS.Spec.Family
import DisastrOS.Spec.System
import DisastrOS.Spec.Reports
import DisastrOS.Proof.Allocator
import DisastrOS.Proof.LinkedList
import DisastrOS.Proof.Placement
import DisastrOS.Proof.Schedule
import DisastrOS.Proof.Queues
import DisastrOS.Proof.Tree
import DisastrOS.Proof.Consistent
import DisastrOS.Proof.Channels
import DisastrOS.Proof.Send
import DisastrOS.Proof.Receive
import DisastrOS.Proof.Manage
import DisastrOS.Proof.Spawn
import DisastrOS.Proof.Wait
import DisastrOS.Proof.Exit
import DisastrOS.Proof.Step
import DisastrOS.Proof.Boot
import DisastrOS.Proof.Wakeup
import DisastrOS.Proof.Delivery
import DisastrOS.Proof.Requests
import DisastrOS.Proof.Accounts
import DisastrOS.Proof.Parents
import DisastrOS.Proof.Partition
import DisastrOS.Proof.Frames
import DisastrOS.Proof.Resources
import DisastrOS.Proof.Table
import DisastrOS.Proof.Sane
import DisastrOS.Proof.Mirror
import DisastrOS.Proof.Departed
import DisastrOS.Proof.Sleeping
import DisastrOS.Proof.Untouched
import DisastrOS.Proof.UniqueIds
import DisastrOS.Proof.Ownership
import DisastrOS.Proof.Descriptors
import DisastrOS.Proof.References
import DisastrOS.Proof.Fds
import DisastrOS.Proof.Opening
import DisastrOS.Proof.Forking
import DisastrOS.Proof.ProcessPools
import DisastrOS.Proof.Interleaving
import DisastrOS.Proof.Isolation
import DisastrOS.Proof.Senders
import DisastrOS.Proof.Kindred
import DisastrOS.Proof.Kin
import DisastrOS.Proof.Reaping
import DisastrOS.Proof.Reparenting
import DisastrOS.Proof.Scheduler
import DisastrOS.Proof.WouldBlock
import DisastrOS.Proof.Destroy
import DisastrOS.Proof.Effects
import DisastrOS.Proof.Calls
import DisastrOS.Proof.Timers
import DisastrOS.Proof.Fairness
import DisastrOS.Proof.Footprint
import DisastrOS.Proof.Zombies
import DisastrOS.Proof.Signals
import DisastrOS.Proof.Possession
import DisastrOS.Proof.System
import DisastrOS.Proof.Reports
import DisastrOS.Proof.Mixed
import DisastrOS.Proof.Dispatch
import DisastrOS.Proof.Halts
import DisastrOS.Proof.Drafts
import DisastrOS.Proof.Unread
import DisastrOS.Proof.Atomic
