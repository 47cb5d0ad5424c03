import AflPlusPlus.Lib.Loop
import AflPlusPlus.Lib.Memory
import AflPlusPlus.Lib.Reach
import AflPlusPlus.Lib.Tally
import AflPlusPlus.Lib.GreedyCover
import AflPlusPlus.Coverage.Classify
import AflPlusPlus.Coverage.NewBits
import AflPlusPlus.Coverage.Accumulate
import AflPlusPlus.Queue.State
import AflPlusPlus.Queue.Score
import AflPlusPlus.Queue.Cull
import AflPlusPlus.Queue.Calibrate
import AflPlusPlus.Queue.DryRun
import AflPlusPlus.Queue.Runs
import AflPlusPlus.Queue.Ownership
import AflPlusPlus.Queue.Traces
import AflPlusPlus.Queue.Cover
import AflPlusPlus.Queue.Counters
import AflPlusPlus.Resume.File
import AflPlusPlus.Resume.Scheduling
import AflPlusPlus.Lib.NameOrder
import AflPlusPlus.Resume.Names
import AflPlusPlus.Lib.SlotTable
import AflPlusPlus.Testcache.Cache
import AflPlusPlus.Testcache.Slots
import AflPlusPlus.Testcache.Accounting
import AflPlusPlus.Sync.Pass
import AflPlusPlus.Sync.Import
import AflPlusPlus.Lib.RingLog
import AflPlusPlus.Cmplog.Log
import AflPlusPlus.Cmplog.Agreement
import AflPlusPlus.Cmplog.Base64
import AflPlusPlus.Cmplog.Routine
import AflPlusPlus.Runtime.Persistent
import AflPlusPlus.Runtime.MapLayout
import AflPlusPlus.Lib.EditDistance
import AflPlusPlus.Runtime.StringDistance
import AflPlusPlus.Lib.Pipe
import AflPlusPlus.Forkserver.Handshake
import AflPlusPlus.Forkserver.Agreement
import AflPlusPlus.Lib.Process
import AflPlusPlus.Forkserver.RunTarget
import AflPlusPlus.Forkserver.Rounds
import AflPlusPlus.Lib.Base64
import AflPlusPlus.Lib.Blocks
import AflPlusPlus.Mutation.Values
import AflPlusPlus.Mutation.Havoc
import AflPlusPlus.Mutation.Library
import AflPlusPlus.Lib.Lockstep
import AflPlusPlus.Mutation.Agreement
import AflPlusPlus.Lib.Ctype
import AflPlusPlus.Dict.Extras
import AflPlusPlus.Dict.Tokens
import AflPlusPlus.Dict.Boundary
import AflPlusPlus.Lib.Stopping
import AflPlusPlus.Cmplog.Solve
import AflPlusPlus.Cmplog.Recursion
import AflPlusPlus.Lib.Compact
import AflPlusPlus.Cmplog.Scale
import AflPlusPlus.Cmplog.Reverse
import AflPlusPlus.Cmplog.NumberText
import AflPlusPlus.Lib.Causal
import AflPlusPlus.Lib.PeriodicCount
import AflPlusPlus.Cmplog.RtnEncoding
import AflPlusPlus.Cmplog.RtnTests
import AflPlusPlus.Cmplog.RtnRestore
import AflPlusPlus.Cmplog.RtnExact
import AflPlusPlus.Lib.LinkedList
import AflPlusPlus.Cmplog.Colorize
import AflPlusPlus.Cmplog.Splitting
import AflPlusPlus.Cmplog.Taints
import AflPlusPlus.Lib.Trials
import AflPlusPlus.Mutation.Deterministic
import AflPlusPlus.Mutation.BitFlips
import AflPlusPlus.Mutation.StageRuns
import AflPlusPlus.Mutation.Filters
import AflPlusPlus.Runtime.CoordinateHash
import AflPlusPlus.Runtime.MemoryDistance
import AflPlusPlus.Queue.Favored
import AflPlusPlus.Queue.Winners
import AflPlusPlus.Queue.SavedOnce
import AflPlusPlus.Queue.Sand
import AflPlusPlus.Queue.PerfRuns
import AflPlusPlus.Queue.AliasTable
import AflPlusPlus.Queue.Weights
import AflPlusPlus.Queue.Dedup
import AflPlusPlus.Queue.DryRunCursor
import AflPlusPlus.Queue.DryRunVisits
import AflPlusPlus.Queue.SaveSteps
import AflPlusPlus.Queue.Ijon
import AflPlusPlus.Trim.Write
import AflPlusPlus.Trim.Case
import AflPlusPlus.Trim.Candidates
import AflPlusPlus.Trim.Abort
import AflPlusPlus.Trim.Sound
import AflPlusPlus.Trim.NoUnlink
import AflPlusPlus.Mutation.Splice
import AflPlusPlus.Mutation.Overwrite
import AflPlusPlus.Mutation.Insert
import AflPlusPlus.Tmin.Minimize
import AflPlusPlus.Tmin.Minimal
import AflPlusPlus.Lib.Chains
import AflPlusPlus.Cmplog.Hashmap
import AflPlusPlus.Mutation.CustomMutators
import AflPlusPlus.Queue.Text
import AflPlusPlus.Lib.Files
import AflPlusPlus.Ijon.Bests
import AflPlusPlus.Mutation.SkipInference
import AflPlusPlus.Dict.Dedup
import AflPlusPlus.Lib.Qsort
import AflPlusPlus.Dict.Auto
import AflPlusPlus.Lib.Digits
import AflPlusPlus.Mutation.Checked
import AflPlusPlus.Mutation.InBounds
import AflPlusPlus.Mutation.AsciiNumber
import AflPlusPlus.Mutation.AflMutate
import AflPlusPlus.Resume.Depth
import AflPlusPlus.Dict.Unicode
import AflPlusPlus.Lib.Smear
import AflPlusPlus.Alloc.Growth
import AflPlusPlus.Lib.Counting
import AflPlusPlus.Lib.ByteLanes
import AflPlusPlus.Coverage.Counts
import AflPlusPlus.Lib.Residues
import AflPlusPlus.Random.Below
import AflPlusPlus.Runtime.PcFilter
import AflPlusPlus.Runtime.PcMap
import AflPlusPlus.Lib.CyclicList
import AflPlusPlus.Alloc.Prealloc
import AflPlusPlus.Alloc.List
import AflPlusPlus.Laf.Switch
import AflPlusPlus.Laf.Compare
import AflPlusPlus.Laf.FloatCompare
import AflPlusPlus.Laf.StringCompare
import AflPlusPlus.Lib.Intervals
import AflPlusPlus.Frida.Ranges
import AflPlusPlus.Frida.Configuration
import AflPlusPlus.Lib.WorkerPool
import AflPlusPlus.Lib.Counter
import AflPlusPlus.Cmin.Traces
import AflPlusPlus.Cmin.Workers
import AflPlusPlus.Cmin.Minimize
import AflPlusPlus.Lib.FlowGraph
import AflPlusPlus.Instrument.Pruning
import AflPlusPlus.Lib.StreamReader
import AflPlusPlus.Network.Messages
import AflPlusPlus.Network.Proxy
import AflPlusPlus.Lib.PagedMemory
import AflPlusPlus.Dislocator.Heap
import AflPlusPlus.Dislocator.Runs
import AflPlusPlus.Dislocator.Guarantees
import AflPlusPlus.Dislocator.Contents
import AflPlusPlus.Lib.SlidingWindow
import AflPlusPlus.Replay.Record
import AflPlusPlus.Replay.Loop
