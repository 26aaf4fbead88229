import Csc457.Lib.Transition
import Csc457.Lib.ByteMemory
import Csc457.Lib.Tiling
import Csc457.Lib.KeyedList
import Csc457.Malloc.Block
import Csc457.Malloc.Model
import Csc457.Malloc.Asks
import Csc457.Malloc.BlockList
import Csc457.Malloc.Edits
import Csc457.Malloc.Calls
import Csc457.Malloc.Free
import Csc457.Malloc.Realloc
import Csc457.Malloc.Runs
import Csc457.Malloc.ForeignBreak
import Csc457.Malloc.Contents
import Csc457.Malloc.Growth
import Csc457.Malloc.FreeLaws
import Csc457.Malloc.Sizes
import Csc457.Malloc.Gaps
import Csc457.Lib.CircularList
import Csc457.Lwp.RoundRobin
import Csc457.Lwp.Rotation
import Csc457.Lwp.SetScheduler
import Csc457.Lwp.Library
import Csc457.Lwp.CreateFailure
import Csc457.Lwp.Pool
import Csc457.Lwp.Registry
import Csc457.Lwp.Reaping
import Csc457.Lwp.ThreadList
import Csc457.Lib.X86
import Csc457.Lwp.SwapRfiles
import Csc457.Lwp.Contexts
import Csc457.Lib.LockOrder
import Csc457.Lib.AtomicSection
import Csc457.Dine.Model
import Csc457.Dine.Progress
import Csc457.Dine.Forks
import Csc457.Dine.Table
import Csc457.Dine.Display
import Csc457.Dine.Eating
import Csc457.Dine.Counts
import Csc457.Secret.Model
import Csc457.Secret.Requests
import Csc457.Secret.Accounting
import Csc457.Secret.Chunks
import Csc457.Secret.LiveUpdate
import Csc457.Secret.Confidential
import Csc457.Secret.Ownership
import Csc457.Secret.Transfers
import Csc457.Minls.Model
import Csc457.Minls.Directory
import Csc457.Minls.Offsets
import Csc457.Minls.Selection
import Csc457.Minls.CommandLine
import Csc457.Minls.Reads
import Csc457.Lab1.Interleavings
import Csc457.Kernel.Halts
import Csc457.Kernel.Notifications
import Csc457.Lwp.Lost
