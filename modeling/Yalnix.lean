import Yalnix.Common.Run
import Yalnix.Common.Follows
import Yalnix.Common.Fifo
import Yalnix.Pilocvario.Fifo
import Yalnix.Pilocvario.Pipe.Stream
import Yalnix.Pilocvario.Pipe.Wakeup
import Yalnix.Pilocvario.Pipe.Usage
import Yalnix.Pilocvario.Tty.Output
import Yalnix.Pilocvario.Tty.Asleep
import Yalnix.Pilocvario.Tty.Line
import Yalnix.Pilocvario.Tty.Handoff
import Yalnix.Pilocvario.Tty.Input
import Yalnix.Common.Filed
import Yalnix.Common.Chain
import Yalnix.LinkedList.Model
import Yalnix.LinkedList.Refine
import Yalnix.Scheduling.Delay.CheckDelay
import Yalnix.Scheduling.Delay.Ticks
import Yalnix.Memory.Frames
import Yalnix.Memory.Allocator
import Yalnix.Memory.PageTable
import Yalnix.Memory.Load
import Yalnix.Memory.Ownership
import Yalnix.Process.Boot
import Yalnix.Process.Steps
import Yalnix.Memory.Image
import Yalnix.Process.Images
import Yalnix.Process.Frames
import Yalnix.Process.Exclusive
import Yalnix.Process.KernelHeap
import Yalnix.Process.Waiting
import Yalnix.Process.Lifecycle
import Yalnix.Process.Family.Books
import Yalnix.Process.Exits
import Yalnix.Process.Bounds
import Yalnix.Process.DataSegment
import Yalnix.Process.Statuses
import Yalnix.Pilocvario.Sync.Model
import Yalnix.Scheduling.Places
import Yalnix.Machine.Model
import Yalnix.Pilocvario.Places
import Yalnix.Process.Places
import Yalnix.Machine.Sound
import Yalnix.Machine.Trades
import Yalnix.Machine.Places
import Yalnix.Pilocvario.Sync.Law
import Yalnix.Pilocvario.Sync.Steps
import Yalnix.Machine.Awake
import Yalnix.Machine.Lawful
import Yalnix.Machine.Locks
import Yalnix.Machine.Cvars
import Yalnix.Pilocvario.Sync.Waits
import Yalnix.Machine.Reclaim
import Yalnix.Pilocvario.Sync.Usage
import Yalnix.Machine.LockUse
import Yalnix.Machine.PipeUse
import Yalnix.Machine.Owners
import Yalnix.Process.Contexts
import Yalnix.Machine.Endings
import Yalnix.Machine.Buffers
import Yalnix.Process.Stores
import Yalnix.Machine.Stores
import Yalnix.LinkedList.Lists
import Yalnix.Common.Counts
import Yalnix.Process.Destroyed
import Yalnix.Machine.Switching
import Yalnix.Machine.Handlers
import Yalnix.Machine.Traps
import Yalnix.Common.Registry
import Yalnix.Pilocvario.Shelves
import Yalnix.Machine.Ids
import Yalnix.Process.Defunct
import Yalnix.Common.Scan
import Yalnix.Memory.Checks
import Yalnix.Memory.Copy
import Yalnix.Process.Copies
import Yalnix.Process.Growth
import Yalnix.Process.Refused
import Yalnix.Memory.Built
import Yalnix.Common.Strings
import Yalnix.Memory.Arguments
import Yalnix.Machine.Demands
import Yalnix.Process.Released
import Yalnix.Common.Turns
import Yalnix.Machine.Fairness
import Yalnix.Memory.Writes
import Yalnix.Process.Spaces
import Yalnix.Process.Bodies
import Yalnix.Machine.Spaces
import Yalnix.Memory.Tallied
import Yalnix.Process.Balance
import Yalnix.Machine.Frames
import Yalnix.Machine.Projection
import Yalnix.Machine.Pipes
import Yalnix.Machine.Terminals
import Yalnix.Common.Countdown
import Yalnix.Machine.Delays
import Yalnix.Machine.Progress
import Yalnix.Process.Legible
import Yalnix.Machine.Asleep
import Yalnix.Machine.Rest
import Yalnix.Common.Tlb
import Yalnix.Memory.Translation
import Yalnix.Process.Translation
import Yalnix.Machine.Translation
import Yalnix.Machine.Faults
