import ChooseCut.Lib.Fault
import ChooseCut.Lib.Buffer
import ChooseCut.Lib.Dyadic
import ChooseCut.Lib.Bits
import ChooseCut.Lib.HeapTree
import ChooseCut.Lib.Sweep
import ChooseCut.Lib.Partition
import ChooseCut.Lib.Trace
import ChooseCut.Lib.Scan
import ChooseCut.Lib.DyadicCover
import ChooseCut.Lib.Lockstep
import ChooseCut.Lib.BinaryHeap
import ChooseCut.Lib.Ledger
import ChooseCut.Rule
import ChooseCut.Redund
import ChooseCut.RedundLoops
import ChooseCut.FilterFile
import ChooseCut.FilterFileAddr
import ChooseCut.FilterFileSound
import ChooseCut.FilterFileFits
import ChooseCut.PrefixIter
import ChooseCut.PrefixCover
import ChooseCut.MbNode
import ChooseCut.Cost
import ChooseCut.CutBitmap
import ChooseCut.CutBitmapSlots
import ChooseCut.CutBitmapSound
import ChooseCut.CutBitmapMatch
import ChooseCut.Ranges
import ChooseCut.Clip
import ChooseCut.CutSplit
import ChooseCut.CutSplitSweep
import ChooseCut.CutSplitSound
import ChooseCut.CutHi
import ChooseCut.CutHiSweep
import ChooseCut.CutHiSound
import ChooseCut.CutHiMatch
import ChooseCut.Heap
import ChooseCut.CutSplitHeap
import ChooseCut.CutHiHeap
import ChooseCut.Cut
import ChooseCut.CutStep
import ChooseCut.Walk
import ChooseCut.Select
import ChooseCut.CutRun
import ChooseCut.Lookup
import ChooseCut.HiLookup
import ChooseCut.Dispatch
import ChooseCut.Choice
import ChooseCut.Granular
import ChooseCut.Terminate
import ChooseCut.Sizing
import ChooseCut.Traverse
import ChooseCut.Compact
import ChooseCut.CompactOutcome
import ChooseCut.Classify
import ChooseCut.Main
import ChooseCut.PathCuts
import ChooseCut.Memory
import ChooseCut.AllocFail
import ChooseCut.OneCut
import ChooseCut.CostRange
import ChooseCut.SplitOptimum
import ChooseCut.SplitHistory
import ChooseCut.History
import ChooseCut.NodeHistory
