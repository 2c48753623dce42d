import MiniOS.Cursor
import MiniOS.LinkedHeap
import MiniOS.Tiling
import MiniOS.MemoryManager
import MiniOS.BlockInvariant
import MiniOS.IntSums
import MiniOS.Ownership
import MiniOS.RequestSizes
import MiniOS.Isolation
import MiniOS.FreeUndo
import MiniOS.Placement
import MiniOS.Compaction
import MiniOS.CompactionRuns
import MiniOS.FloatRounding
import MiniOS.BlockNodes
import MiniOS.LinkIntegrity
import MiniOS.RunMerge
import MiniOS.Coalescing
import MiniOS.ArrayAccess
import MiniOS.Process
import MiniOS.WhileLoop
import MiniOS.Simulation
import MiniOS.CircularQueue
import MiniOS.CircularQueueRuns
import MiniOS.CircularQueueCells
import MiniOS.MergeSort
import MiniOS.Halving
import MiniOS.Counting
import MiniOS.SortCost
import MiniOS.SegmentSort
import MiniOS.Containers
import MiniOS.SortedList
import MiniOS.SingleLinks
import MiniOS.QueueNodes
import MiniOS.StackNodes
import MiniOS.SortedListNodes
import MiniOS.SmallestFirst
import MiniOS.Knapsack
import MiniOS.MemoSharing
import MiniOS.MemoCost
import MiniOS.KnapsackAgreement
import MiniOS.Backtracking
import MiniOS.Holding
import MiniOS.Scheduler
import MiniOS.SerialRuns
import MiniOS.SjfRuns
import MiniOS.FifoRuns
import MiniOS.RoundRobin
import MiniOS.RoundRobinRuns
import MiniOS.Rotation
import MiniOS.RoundRobinReference
import MiniOS.FinishTimes
import MiniOS.RoundRobinTermination
import MiniOS.CompletionCost
import MiniOS.SjfOptimality
import MiniOS.SchedulerAgreement
import MiniOS.SchedulerApi
import MiniOS.SchedulerNodes
import MiniOS.RoundRobinProgress
import MiniOS.SerialAgreement
import MiniOS.FifoService
import MiniOS.Fragmentation
import MiniOS.ClockRange
import MiniOS.Reports
import MiniOS.SchedulerReports
import MiniOS.AllocationBound
import MiniOS.PairSums
import MiniOS.CompletionTotals
import MiniOS.CheckedMemory
import MiniOS.IntRuns
