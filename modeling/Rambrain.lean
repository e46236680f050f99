import Rambrain.Lib.Run
import Rambrain.Lib.Table
import Rambrain.Chunk
import Rambrain.Use
import Rambrain.UseCount
import Rambrain.WriteStatus
import Rambrain.SharedAdhere
import Rambrain.ManagedPtr
import Rambrain.AdhereTo
import Rambrain.ConfigReader
import Rambrain.ConfigOffsets
import Rambrain.LockDiscipline
import Rambrain.SwapOut
import Rambrain.Transfer
import Rambrain.Accounting
import Rambrain.SwapSpace
import Rambrain.ChunkTree
import Rambrain.Eviction
import Rambrain.TwoPasses
import Rambrain.Allocator
import Rambrain.MemoryLimit
import Rambrain.PreemptiveBudget
import Rambrain.CheckCycle
import Rambrain.ThrownAssign
import Rambrain.ReadOnly
import Rambrain.MultiPtr
import Rambrain.Mmalloc
import Rambrain.IdInterface
import Rambrain.PfmallocReads
import Rambrain.Lib.Scatter
import Rambrain.SwapFrame
import Rambrain.SwapBytes
import Rambrain.CopyMem
import Rambrain.CopyRuns
import Rambrain.ChunkBytes
import Rambrain.ProgramSteps
import Rambrain.ByteTransfers
import Rambrain.Transparent
import Rambrain.Lib.Threads
import Rambrain.SubmitQueue
import Rambrain.Decay
import Rambrain.SwapIn
import Rambrain.SectionSteps
import Rambrain.SectionRun
import Rambrain.Lib.Regex
import Rambrain.Lib.Printf
import Rambrain.RegexMatcher
import Rambrain.SwapFileMask
import Rambrain.SwapFileNames
