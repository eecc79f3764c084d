import ArcDischarge.BlockOn.Model
import ArcDischarge.BlockOn.Parking
import ArcDischarge.BlockOn.Returns
import ArcDischarge.Data.Adjacent
import ArcDischarge.Data.Places
import ArcDischarge.Data.VecDeque
import ArcDischarge.Io.Bits
import ArcDischarge.Io.Chain
import ArcDischarge.Io.Checked
import ArcDischarge.Io.Coherence
import ArcDischarge.Io.Generations
import ArcDischarge.Io.Model
import ArcDischarge.Io.Moves
import ArcDischarge.Io.Ready
import ArcDischarge.Io.Served
import ArcDischarge.Io.StaleClear
import ArcDischarge.Io.Token
import ArcDischarge.Io.Waiters
import ArcDischarge.Io.Wake
import ArcDischarge.Io.Wakeup
import ArcDischarge.Io.Word
import ArcDischarge.Machine.Basic
import ArcDischarge.Machine.Fair
import ArcDischarge.Machine.Lock
import ArcDischarge.Machine.System
import ArcDischarge.Machine.Tokens
import ArcDischarge.Queues.Conservation
import ArcDischarge.Queues.Discipline
import ArcDischarge.Queues.Entries
import ArcDischarge.Queues.Homes
import ArcDischarge.Queues.Model
import ArcDischarge.Queues.Moves
import ArcDischarge.Retry.Charges
import ArcDischarge.Retry.Coherence
import ArcDischarge.Retry.Model
import ArcDischarge.Retry.Moves
import ArcDischarge.Retry.Returns
import ArcDischarge.Runtime.Awake
import ArcDischarge.Runtime.Calls
import ArcDischarge.Runtime.Drained
import ArcDischarge.Runtime.Livelock
import ArcDischarge.Runtime.Locks
import ArcDischarge.Runtime.Model
import ArcDischarge.Runtime.Moves
import ArcDischarge.Runtime.Parking
import ArcDischarge.Runtime.Wakeup
import ArcDischarge.Slab.Accounts
import ArcDischarge.Slab.Isolation
import ArcDischarge.Slab.Locks
import ArcDischarge.Slab.Model
import ArcDischarge.Slab.Moves
import ArcDischarge.Slab.Occupancy
import ArcDischarge.Slab.Provenance
import ArcDischarge.Slab.Refines
import ArcDischarge.Slab.Slots
import ArcDischarge.Slab.View
import ArcDischarge.Socket.Delivered
import ArcDischarge.Socket.Heard
import ArcDischarge.Socket.Model
import ArcDischarge.Startup.Model
import ArcDischarge.Startup.Started
import ArcDischarge.SyncSlotMap.Chain
import ArcDischarge.SyncSlotMap.Fifo
import ArcDischarge.SyncSlotMap.InRange
import ArcDischarge.SyncSlotMap.Invariant
import ArcDischarge.SyncSlotMap.Model
import ArcDischarge.SyncSlotMap.Steps
import ArcDischarge.Task.Answered
import ArcDischarge.Task.Carrier
import ArcDischarge.Task.Coherence
import ArcDischarge.Task.Joiner
import ArcDischarge.Task.Lifecycle
import ArcDischarge.Task.Model
import ArcDischarge.Task.Moves
import ArcDischarge.Task.Output
import ArcDischarge.Task.Progress
import ArcDischarge.Task.Tokens
import ArcDischarge.Task.Turns
import ArcDischarge.Task.Unwind
