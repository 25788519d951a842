import Bolt.RadixSort.RunOutput
import Bolt.BufferManager.FileSegmentsRuns
import Bolt.BufferManager.DiskIoLiveness
import Bolt.BufferManager.BlocksRuns
import Bolt.BufferManager.BlocksRead
import Bolt.SparkMemory.MemoryTargetRuns
import Bolt.Shuffle.PayloadRoundTrip
import Bolt.RadixSort.SpillMergeRuns
import Bolt.Exec.TreeOfLosersMerges
import Bolt.Dwrf.RleRoundTrip
import Bolt.Exec.WindowFramesExact
import Bolt.Functions.Calendar
import Bolt.Filters.RangesExact
import Bolt.Filters.InLists
import Bolt.Memory.RootPool
import Bolt.Memory.LeafPool
import Bolt.Memory.GlobalArbitration
import Bolt.Dwio.DeletionVector
import Bolt.Base.CoalesceIo
import Bolt.Exec.ExchangeQueue
import Bolt.RadixSort.SpillSections
