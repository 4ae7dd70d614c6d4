import Sivfs.Basic
import Sivfs.Lib.Machine
import Sivfs.Writeset
import Sivfs.WritesetBounds
import Sivfs.WritesetEntries
import Sivfs.WritesetAppend
import Sivfs.Commit.Protocol
import Sivfs.Commit.Control
import Sivfs.Commit.Validation
import Sivfs.Commit.KnowsKept
import Sivfs.Commit.LinksKept
import Sivfs.Commit.FirstCommitter
import Sivfs.Commit.Prefix
import Sivfs.Commit.Chunks
import Sivfs.Commit.Window
import Sivfs.Commit.Throttle
import Sivfs.Lib.Isolation
import Sivfs.Commit.Verdicts
import Sivfs.Commit.Isolation
import Sivfs.Commit.WholeWords
import Sivfs.Commit.ReaderLog
import Sivfs.Commit.Memory
import Sivfs.Commit.MemorySound
import Sivfs.Commit.Reads
import Sivfs.Checkout.Machine
import Sivfs.Checkout.Publication
import Sivfs.Checkout.Hazard
import Sivfs.Checkout.Collect
import Sivfs.Checkout.LogCollect
import Sivfs.Lib.PathCopy
import Sivfs.Checkpoint.Tree
import Sivfs.Checkpoint.HeapWf
import Sivfs.Checkpoint.Graft
import Sivfs.Checkpoint.Walks
import Sivfs.Checkpoint.CowPage
import Sivfs.Checkpoint.Apply
import Sivfs.Checkpoint.Snapshot
import Sivfs.Checkpoint.Exact
import Sivfs.Checkpoint.Persistent
import Sivfs.Checkpoint.Prepare
import Sivfs.Checkpoint.Stores
import Sivfs.Checkpoint.DirectAccess
import Sivfs.Checkpoint.InPlace
import Sivfs.Checkpoint.Spread
import Sivfs.Checkpoint.Ledger
import Sivfs.Checkpoint.Lifetimes
import Sivfs.Checkpoint.TearDown
import Sivfs.Checkpoint.Quota
import Sivfs.Update.CommitUpdate
import Sivfs.Update.Bytes
import Sivfs.Update.Tagged
import Sivfs.Update.Admission
import Sivfs.Update.Ftruncate
import Sivfs.Update.Workingset
import Sivfs.Update.Streams
import Sivfs.Update.Agree
import Sivfs.Update.Stale
import Sivfs.Update.Failure
import Sivfs.Update.Finish
import Sivfs.Update.Course
import Sivfs.Update.FailsClean
import Sivfs.Update.Doomed
import Sivfs.Update.External
import Sivfs.Update.Onward
import Sivfs.Update.Turns
import Sivfs.Update.ExternalConsistency
import Sivfs.Update.Mapped
import Sivfs.Update.Recorded
import Sivfs.Update.Steady
import Sivfs.Update.MappedCalls
import Sivfs.Update.Belongs
import Sivfs.Update.Paging
import Sivfs.Update.PageOk
import Sivfs.Update.StoreProgress
import Sivfs.Update.LoadStore
import Sivfs.Lib.Ring
import Sivfs.Alloc.Chunks
import Sivfs.Alloc.Tiles
import Sivfs.Alloc.Split
import Sivfs.Alloc.Blocks
import Sivfs.Alloc.Machine
import Sivfs.Alloc.Coalesce
import Sivfs.Alloc.Visibility
import Sivfs.Alloc.Lookup
import Sivfs.Alloc.Locked
import Sivfs.Alloc.Rollback
import Sivfs.Alloc.Restored
import Sivfs.Alloc.Budget
import Sivfs.Alloc.Mapping
import Sivfs.Lib.Call
import Sivfs.Slab.Words
import Sivfs.Slab.Heap
import Sivfs.Slab.Mmaps
import Sivfs.Slab.Malloc
import Sivfs.Slab.Undo
import Sivfs.Slab.Bins
import Sivfs.Slab.BigBlock
import Sivfs.Slab.Sizes
import Sivfs.Slab.Carve
import Sivfs.Slab.Threads
import Sivfs.Slab.Invariant
import Sivfs.Slab.Grow
import Sivfs.Slab.Listed
import Sivfs.Slab.Refill
import Sivfs.Slab.Serve
import Sivfs.Slab.Reclaim
import Sivfs.Slab.Runs
import Sivfs.Slab.Safety
import Sivfs.SeqLog.Create
import Sivfs.SeqLog.AllOrNothing
import Sivfs.SeqLog.Delete
import Sivfs.SeqLog.Entries
import Sivfs.SeqLog.Chunks
import Sivfs.SeqLog.FreedOnce
import Sivfs.Lib.RadixTree
import Sivfs.Lib.Batches
import Sivfs.Gc.Checkpoints
import Sivfs.Gc.Groups
import Sivfs.Gc.Reassign
import Sivfs.Gc.Conserve
import Sivfs.Gc.Runs
import Sivfs.Gc.Refines
import Sivfs.Lib.History
import Sivfs.Lib.UndoLog
import Sivfs.Locktable.Calls
import Sivfs.Locktable.Locks
import Sivfs.Locktable.Serializable
import Sivfs.Locktable.Optimistic
import Sivfs.Locktable.Abort
import Sivfs.Locktable.TinyStm
import Sivfs.Locktable.Validated
import Sivfs.Locktable.TinyStmInv
import Sivfs.Locktable.Reading
import Sivfs.Locktable.Storing
import Sivfs.Locktable.FetchAdd
import Sivfs.Locktable.Consistent
import Sivfs.Lib.LockOrder
import Sivfs.FineGrained.Locks
import Sivfs.Lib.KeyTree
import Sivfs.AnonInodes
import Sivfs.TaskState
import Sivfs.TaskState.References
import Sivfs.TaskState.Calls
import Sivfs.TaskState.Release
import Sivfs.TaskState.Runs
