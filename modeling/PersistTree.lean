import PersistTree.Library.Transition
import PersistTree.SkipLists.PersistentSkipList
import PersistTree.Library.SortedCut
import PersistTree.SkipLists.PersistentInvariant
import PersistTree.Crash.Contents
import PersistTree.SkipLists.Filled
import PersistTree.SkipLists.MemoryInvariant
import PersistTree.SkipLists.PersistentOrder
import PersistTree.Buffer.Equivalence
import PersistTree.Handoff.Accounting
import PersistTree.Handoff.SingleWriter
import PersistTree.Handoff.Stranding
import PersistTree.Library.Decimal
import PersistTree.Log.AllocateFile
import PersistTree.Log.Preservation
import PersistTree.Library.Batches
import PersistTree.Library.Heap
import PersistTree.Library.NextFit
import PersistTree.Handoff.WakeUp
import PersistTree.SkipLists.MemoryOverwrite
import PersistTree.SkipLists.FingerAgreement
import PersistTree.Buffer.KeyCopies
import PersistTree.Buffer.EmptyFlush
import PersistTree.Buffer.SortedFlush
import PersistTree.Log.Capacity
import PersistTree.Aep.AepLog
import PersistTree.Aep.Kept
import PersistTree.Aep.LifeCycle
import PersistTree.Driver.KeyFormat
import PersistTree.Buffer.OrderCheck
import PersistTree.SkipLists.LowerBound
import PersistTree.Log.Records
import PersistTree.SkipLists.AccessCount
import PersistTree.Driver.Divisors
import PersistTree.Driver.DirectTest
import PersistTree.Driver.BufferedTest
import PersistTree.SkipLists.SlotAccess
import PersistTree.Buffer.FlushSlots
import PersistTree.Buffer.ListDeletion
import PersistTree.Pmem.Contents
import PersistTree.ThreadPool.Shutdown
import PersistTree.Handoff.OnPool
import PersistTree.Handoff.Arrival
import PersistTree.Log.WithLists
import PersistTree.Handoff.Settling
import PersistTree.Handoff.OrderReports
import PersistTree.Handoff.Completion
import PersistTree.Handoff.InPool
import PersistTree.Random.Distribution
