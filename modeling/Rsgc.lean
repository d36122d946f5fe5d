import Rsgc.Collection.Colors
import Rsgc.Collection.Conservative
import Rsgc.Collection.Conservative.Kept
import Rsgc.Collection.Conservative.RootsSafe
import Rsgc.Collection.Conservative.Tracing
import Rsgc.Collection.Degenerated
import Rsgc.Collection.Degenerated.Careful
import Rsgc.Collection.Degenerated.Coherent
import Rsgc.Collection.Degenerated.Completes
import Rsgc.Collection.Degenerated.Ends
import Rsgc.Collection.Degenerated.Keeps
import Rsgc.Collection.Degenerated.Pause
import Rsgc.Collection.Degenerated.Sweep
import Rsgc.Collection.Drain
import Rsgc.Collection.Rescan
import Rsgc.Collection.Rescan.Safety
import Rsgc.Collection.Runtime
import Rsgc.Collection.Runtime.Agrees
import Rsgc.Collection.Runtime.Invariant
import Rsgc.Collection.Runtime.Progress
import Rsgc.Collection.Runtime.Realizes
import Rsgc.Collection.Runtime.Safety
import Rsgc.Collection.Snapshot
import Rsgc.Collection.Snapshot.Safety
import Rsgc.Collection.Stale
import Rsgc.Collection.Steady
import Rsgc.Collection.Steps
import Rsgc.Collection.World
import Rsgc.Collection.WriteBarrier
import Rsgc.Control.AllocFailure
import Rsgc.Control.AllocFailure.Retries
import Rsgc.Control.AllocFailure.Waiters
import Rsgc.Control.Cancellation
import Rsgc.Control.GcRequest
import Rsgc.Control.Registration
import Rsgc.Control.Safepoint
import Rsgc.Lib.Binary64
import Rsgc.Lib.BitScan
import Rsgc.Lib.BitWalk
import Rsgc.Lib.Buckets
import Rsgc.Lib.Bytes
import Rsgc.Lib.Census
import Rsgc.Lib.Except
import Rsgc.Lib.Keyed
import Rsgc.Lib.Linked
import Rsgc.Lib.Machine
import Rsgc.Lib.Multiples
import Rsgc.Lib.Pool
import Rsgc.Lib.Profile
import Rsgc.Lib.Retry
import Rsgc.Lib.Ring
import Rsgc.Lib.Runs
import Rsgc.Lib.Simulation
import Rsgc.Lib.Slots
import Rsgc.Lib.Tiling
import Rsgc.Lib.Traced
import Rsgc.Lib.Tricolor
import Rsgc.Lib.Utf8
import Rsgc.Lib.WaitQueue
import Rsgc.Lib.Words
import Rsgc.Lib.Worklist
import Rsgc.Marking.ChunkedArray
import Rsgc.Marking.Chunks
import Rsgc.Marking.Encoding
import Rsgc.Marking.Progress
import Rsgc.Marking.RootTasks
import Rsgc.Marking.Task
import Rsgc.Marking.Terminator
import Rsgc.Marking.Work
import Rsgc.Marking.Workers
import Rsgc.Marking.Workers.Effects
import Rsgc.Marking.Workers.Exact
import Rsgc.Marking.Workers.Termination
import Rsgc.Storage.CardTable
import Rsgc.Storage.CardTable.ModifyCards
import Rsgc.Storage.CardTable.Scan
import Rsgc.Storage.Exit
import Rsgc.Storage.Exit.Returned
import Rsgc.Storage.Exit.Settled
import Rsgc.Storage.FreeList
import Rsgc.Storage.FreeList.Linked
import Rsgc.Storage.FreeList.Linked.Append
import Rsgc.Storage.FreeList.Linked.Consistent
import Rsgc.Storage.FreeList.Linked.Refines
import Rsgc.Storage.FreeList.Valid
import Rsgc.Storage.FreeSet
import Rsgc.Storage.FreeSet.Accounting
import Rsgc.Storage.FreeSet.Bounds
import Rsgc.Storage.FreeSet.Commit
import Rsgc.Storage.FreeSet.Steps
import Rsgc.Storage.HeapBitmap
import Rsgc.Storage.HeapBitmap.ClearRange
import Rsgc.Storage.HeapBitmap.SweepWalk
import Rsgc.Storage.Humongous
import Rsgc.Storage.Humongous.Trash
import Rsgc.Storage.Layout
import Rsgc.Storage.Layout.Mutator
import Rsgc.Storage.Layout.Sweep
import Rsgc.Storage.MarkBitmap
import Rsgc.Storage.MarkBitmap.Exact
import Rsgc.Storage.ObjStorage
import Rsgc.Storage.ObjStorage.AllocationList
import Rsgc.Storage.ObjStorage.Bits
import Rsgc.Storage.ObjStorage.Block
import Rsgc.Storage.ObjStorage.Conserved
import Rsgc.Storage.ObjStorage.Coverage
import Rsgc.Storage.ObjStorage.Lists
import Rsgc.Storage.ObjStorage.Made
import Rsgc.Storage.ObjStorage.Queue
import Rsgc.Storage.ObjectStart
import Rsgc.Storage.ObjectStart.Exact
import Rsgc.Storage.ObjectStart.Recorded
import Rsgc.Storage.Options
import Rsgc.Storage.Options.Sizes
import Rsgc.Storage.Region
import Rsgc.Storage.Region.Layout
import Rsgc.Storage.RegionIterate
import Rsgc.Storage.Store
import Rsgc.Storage.Store.Accounting
import Rsgc.Storage.Store.Black
import Rsgc.Storage.Store.Bounds
import Rsgc.Storage.Store.Buffers
import Rsgc.Storage.Store.Commit
import Rsgc.Storage.Store.Disjoint
import Rsgc.Storage.Store.Layout
import Rsgc.Storage.Store.Pauses
import Rsgc.Storage.Store.States
import Rsgc.Storage.Store.Total
import Rsgc.Storage.Sweeper
import Rsgc.Storage.Sweeper.Exact
import Rsgc.Storage.Sweeper.Layout
import Rsgc.Storage.Sweeper.MarkBits
import Rsgc.Storage.Sweeper.Steps
import Rsgc.Storage.Tlab
import Rsgc.Storage.Tlab.Elastic
import Rsgc.Storage.Tlab.Refill
import Rsgc.Storage.Tlab.Steps
import Rsgc.Storage.Uncommit
import Rsgc.Sync.Monitor
import Rsgc.Sync.Monitor.Ideal
import Rsgc.Sync.Monitor.Invariant
import Rsgc.Sync.Monitor.Progress
import Rsgc.Sync.Monitor.Refines
import Rsgc.Sync.Monitor.Steps
import Rsgc.Sync.SingleWriter
import Rsgc.Sync.SuspendibleThreadSet
import Rsgc.Sync.TaskQueue
import Rsgc.Sync.TaskQueue.Conserved
import Rsgc.Sync.TaskTerminator
import Rsgc.Sync.WorkerThreads
import Rsgc.Sync.WorkerThreads.Exact
import Rsgc.System.ArrayList
import Rsgc.System.ArrayList.Growth
import Rsgc.System.ArrayList.InPlace
import Rsgc.System.ArrayList.Index
import Rsgc.System.ArrayList.Lists
import Rsgc.System.ArrayList.Refines
import Rsgc.System.ArrayList.Reserve
import Rsgc.System.ArrayList.SplitOff
import Rsgc.System.BitField
import Rsgc.System.FinalizerQueue
import Rsgc.System.FinalizerQueue.Filter
import Rsgc.System.FinalizerQueue.Once
import Rsgc.System.GcString
import Rsgc.System.GcString.Calls
import Rsgc.System.GcString.Refines
import Rsgc.System.GcString.SplitOff
import Rsgc.System.HashMap
import Rsgc.System.HashMap.Calls
import Rsgc.System.HashMap.Entries
import Rsgc.System.HashMap.Iterate
import Rsgc.System.HashMap.Length
import Rsgc.System.HashMap.Refines
import Rsgc.System.HashMap.Resize
import Rsgc.System.Header
import Rsgc.System.Header.ReadBack
import Rsgc.System.Header.Tuples
import Rsgc.System.Str
import Rsgc.System.WeakReference
import Rsgc.Utils.BitVector
import Rsgc.Utils.BitVector.Bytes
import Rsgc.Utils.BitVector.Iterate
import Rsgc.Utils.BitVector.Refines
import Rsgc.Utils.BitVector.Resize
import Rsgc.Utils.BitVector.Sets
import Rsgc.Utils.BitVector.Storage
import Rsgc.Utils.Env
import Rsgc.Utils.Rounding
import Rsgc.Utils.SloppyMemset.Patterns
import Rsgc.Utils.Stack
import Rsgc.Utils.Stack.Lifo
import Rsgc.Utils.Stack.Runs
