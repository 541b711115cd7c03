import DstmP1.Batches
import DstmP1.LockHandler
import DstmP1.LocksCache
import DstmP1.Heap
import DstmP1.Aborts
import DstmP1.ThreadRecords
import DstmP1.Barrier
import DstmP1.BuddyRefines
import DstmP1.CacheMutex
import DstmP1.Frees
import DstmP1.LockMap
import DstmP1.BuddySafety
import DstmP1.Placement
import DstmP1.Clocks
import DstmP1.Snapshots
import DstmP1.Sequential
import DstmP1.Variants
import DstmP1.Bank
import DstmP1.Writers
import DstmP1.Conflicts
import DstmP1.Progress
import DstmP1.ValueSerializability
