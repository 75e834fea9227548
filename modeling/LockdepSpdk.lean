import LockdepSpdk.Lockdep.Graph
import LockdepSpdk.Lockdep.Session
import LockdepSpdk.Lockdep.History
import LockdepSpdk.Mutex.Machine
import LockdepSpdk.Mutex.Invariant
import LockdepSpdk.Mutex.Deadlock
import LockdepSpdk.Blk.Sgl
import LockdepSpdk.Lib.Chain
import LockdepSpdk.Blk.Split
import LockdepSpdk.Blk.Device
import LockdepSpdk.Blk.Core
import LockdepSpdk.Blk.Submit
import LockdepSpdk.Blk.Building
import LockdepSpdk.Blk.Opening
import LockdepSpdk.Blk.Complete
import LockdepSpdk.Blk.Retire
import LockdepSpdk.Blk.Books
import LockdepSpdk.Blk.Turn
import LockdepSpdk.Blk.Invariant
import LockdepSpdk.Blk.Accounting
import LockdepSpdk.Blk.Callback
import LockdepSpdk.Lockdep.Ledger
import LockdepSpdk.Mutex.Moves
import LockdepSpdk.Mutex.Owner
import LockdepSpdk.Lockdep.Refs
import LockdepSpdk.Mutex.Users
import LockdepSpdk.Lockdep.Restart
import LockdepSpdk.Mutex.Restart
import LockdepSpdk.Mutex.Once
import LockdepSpdk.Mutex.Held
import LockdepSpdk.Lib.Headcount
import LockdepSpdk.Shared.Machine
import LockdepSpdk.Shared.Tracking
import LockdepSpdk.Nvme.Manager
import LockdepSpdk.Nvme.Probe
import LockdepSpdk.Nvme.Queues
import LockdepSpdk.Ioc.Machine
import LockdepSpdk.Ioc.Waiting
import LockdepSpdk.Signal.Hooks
import LockdepSpdk.Lib.Copies
import LockdepSpdk.Blk.Plan
import LockdepSpdk.Blk.Bytes
import LockdepSpdk.Lib.CheckedInt
import LockdepSpdk.Nvme.CoreMask
import LockdepSpdk.Signal.Backtrace
import LockdepSpdk.Blk.Guards
import LockdepSpdk.Blk.ReadTasks
import LockdepSpdk.Blk.Walk
import LockdepSpdk.Shared.Try
import LockdepSpdk.Blk.Dispatch
import LockdepSpdk.Kernel.SubmitBatch
import LockdepSpdk.Blk.Settle
import LockdepSpdk.Signal.Entry
import LockdepSpdk.Signal.Info
import LockdepSpdk.Blk.Returns
import LockdepSpdk.Blk.Roundtrip
import LockdepSpdk.Blk.Unaligned
import LockdepSpdk.Blk.Batch
import LockdepSpdk.Blk.Footprint
import LockdepSpdk.Blk.Local
import LockdepSpdk.Blk.Sharing
import LockdepSpdk.Signal.Ending
import LockdepSpdk.Nvme.Contexts
import LockdepSpdk.Nvme.Progress
import LockdepSpdk.Nvme.Refines
import LockdepSpdk.Signal.Polling
import LockdepSpdk.Lib.Ownership
import LockdepSpdk.Lockdep.Backtraces
import LockdepSpdk.Lib.LockOrder
import LockdepSpdk.Locks.Invariant
import LockdepSpdk.Locks.Deadlock
