import BottlerOS.Library.LinkedList
import BottlerOS.Library.Handoff
import BottlerOS.Library.Ring
import BottlerOS.Library.TextGrid
import BottlerOS.Machine
import BottlerOS.Scheduler
import BottlerOS.ProcessList
import BottlerOS.ProcessFields
import BottlerOS.ProcessLinks
import BottlerOS.Dispatch
import BottlerOS.RoundRobin
import BottlerOS.Semaphore
import BottlerOS.Pipe
import BottlerOS.Kernel
import BottlerOS.SemCalls
import BottlerOS.ListRuns
import BottlerOS.SemBooks
import BottlerOS.SemRuns
import BottlerOS.SemSteps
import BottlerOS.SemHandoff
import BottlerOS.SemUnits
import BottlerOS.SemWaiters
import BottlerOS.PipeCalls
import BottlerOS.PipeRuns
import BottlerOS.PipeBytes
import BottlerOS.PipeOpens
import BottlerOS.PipeIsolation
import BottlerOS.PipeRing
import BottlerOS.PipeOrder
import BottlerOS.SchedCalls
import BottlerOS.SchedRuns
import BottlerOS.Turns
import BottlerOS.Dead
import BottlerOS.Parents
import BottlerOS.Video
import BottlerOS.Keyboard
import BottlerOS.Delivery
import BottlerOS.Shell
import BottlerOS.ShellWords
import BottlerOS.Arguments
import BottlerOS.Effects
import BottlerOS.Stacks
import BottlerOS.Wakeful
import BottlerOS.SleepList
import BottlerOS.OutOfMemory
import BottlerOS.Foreground
import BottlerOS.Children
import BottlerOS.Fuel
import BottlerOS.Idle
import BottlerOS.IdleTurns
import BottlerOS.Quantum
import BottlerOS.QuantumRuns
import BottlerOS.Clock
import BottlerOS.Library.ByteMemory
import BottlerOS.PackedImage
import BottlerOS.Library.Yields
import BottlerOS.Library.FreeList
import BottlerOS.Library.Words
import BottlerOS.DefaultHeap
import BottlerOS.HeapNodes
import BottlerOS.HeapBlocks
import BottlerOS.HeapCalls
import BottlerOS.HeapRuns
import BottlerOS.HeapRequests
import BottlerOS.HeapReport
import BottlerOS.PipeCounters
import BottlerOS.SemRegistry
import BottlerOS.PipeBlocks
import BottlerOS.ReadCall
import BottlerOS.MallocRegistry
import BottlerOS.LineParse
import BottlerOS.LineSplit
import BottlerOS.ShellCalls
import BottlerOS.ShellOutcome
import BottlerOS.ScreenText
import BottlerOS.SemReport
import BottlerOS.MemoryCopy
import BottlerOS.KeyModifiers
import BottlerOS.StringTokens
import BottlerOS.Library.Numeral
import BottlerOS.IntText
import BottlerOS.TextInt
import BottlerOS.IntRoundTrip
import BottlerOS.HexDumps
import BottlerOS.LineEditor
import BottlerOS.RejectedLines
import BottlerOS.Library.BuddyTree
import BottlerOS.Library.BitFill
import BottlerOS.BuddyHeap
import BottlerOS.BuddyNodes
import BottlerOS.BuddySearch
import BottlerOS.BuddyRelease
import BottlerOS.BuddyPages
import BottlerOS.BuddyRuns
import BottlerOS.BuddySound
import BottlerOS.BuddyCalls
import BottlerOS.BuddyDump
import BottlerOS.Library.CircularList
import BottlerOS.Philosophers
import BottlerOS.PhiloRing
import BottlerOS.TextFilters
import BottlerOS.FilteredText
import BottlerOS.Dining
import BottlerOS.DiningSafe
import BottlerOS.DiningRuns
import BottlerOS.Library.Extents
import BottlerOS.Library.Qsort
import BottlerOS.Library.FileStore
import BottlerOS.Bmfs
import BottlerOS.BmfsRecords
import BottlerOS.BmfsGap
import BottlerOS.BmfsTidy
import BottlerOS.BmfsSteps
import BottlerOS.BmfsCreate
import BottlerOS.BmfsOutcome
import BottlerOS.BmfsRuns
import BottlerOS.BmfsSize
import BottlerOS.BmfsImage
import BottlerOS.Library.PageWalk
import BottlerOS.Boot
import BottlerOS.BootTables
import BottlerOS.BootCopy
import BottlerOS.BootImage
import BottlerOS.Library.X86
import BottlerOS.Interrupts
import BottlerOS.ContextSwitch
import BottlerOS.SystemCall
import BottlerOS.SavedPointers
import BottlerOS.Library.TimeSharing
import BottlerOS.Preemption
