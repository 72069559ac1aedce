import UnknownOS.Core.Memory
import UnknownOS.Core.Copy
import UnknownOS.Core.Bits
import UnknownOS.Klib.Mem
import UnknownOS.Klib.CopySchedule
import UnknownOS.Klib.MemCorrect
import UnknownOS.Kernel.Pmm
import UnknownOS.Kernel.PmmBitmap
import UnknownOS.Kernel.PmmSearch
import UnknownOS.Kernel.PmmInit
import UnknownOS.Core.Runs
import UnknownOS.Kernel.PmmOwnership
import UnknownOS.Kernel.PmmComplete
import UnknownOS.Kernel.Vmm
import UnknownOS.Kernel.VmmTables
import UnknownOS.Kernel.VmmRuns
import UnknownOS.Core.Ring
import UnknownOS.Kernel.Sched
import UnknownOS.Kernel.ReadyQueue
import UnknownOS.Kernel.Termination
import UnknownOS.Kernel.Preemption
import UnknownOS.Kernel.PreemptionSafe
import UnknownOS.Core.Tiling
import UnknownOS.Klib.ListMem
import UnknownOS.Klib.ListSequences
import UnknownOS.Kernel.Heap
import UnknownOS.Kernel.HeapBlocks
import UnknownOS.Kernel.HeapHeaders
import UnknownOS.Kernel.HeapCalls
import UnknownOS.Kernel.HeapRuns
import UnknownOS.Kernel.PmmFailure
import UnknownOS.Kernel.PmmReclaim
import UnknownOS.Kernel.HeapCapacity
import UnknownOS.Kernel.Quantum
import UnknownOS.Core.Fifo
import UnknownOS.Drivers.Keyboard
import UnknownOS.Drivers.KeyboardFifo
import UnknownOS.Core.Radix
import UnknownOS.Kernel.VmmTranslate
import UnknownOS.Kernel.VmmMap
import UnknownOS.Kernel.VmmRange
import UnknownOS.Kernel.VmmHhdm
import UnknownOS.Drivers.Format
import UnknownOS.Drivers.FormatTokens
import UnknownOS.Drivers.FormatArgs
import UnknownOS.Drivers.FormatSegments
import UnknownOS.Arch.Cpu
import UnknownOS.Arch.ContextSwitch
import UnknownOS.Kernel.ThreadStacks
import UnknownOS.Kernel.Transparency
import UnknownOS.Kernel.InterruptFlag
import UnknownOS.Kernel.ThreadStates
import UnknownOS.Core.RoundRobin
import UnknownOS.Kernel.Fairness
import UnknownOS.Core.Reach
import UnknownOS.Kernel.Lifetimes
import UnknownOS.Kernel.DeadLinks
import UnknownOS.Kernel.PmmExact
import UnknownOS.Drivers.Screen
import UnknownOS.Drivers.ScreenGrid
import UnknownOS.Drivers.ScreenClip
import UnknownOS.Drivers.ScreenBuffer
import UnknownOS.Drivers.ScreenScroll
import UnknownOS.Drivers.Modifiers
import UnknownOS.Kernel.VmmRights
import UnknownOS.Klib.MemCompare
import UnknownOS.Klib.MemAccess
import UnknownOS.Kernel.PmmRelease
import UnknownOS.Kernel.PmmLowest
import UnknownOS.Kernel.VmmAtomic
import UnknownOS.Drivers.FormatTruncate
import UnknownOS.Kernel.HeapContents
import UnknownOS.Kernel.HeapExpansions
import UnknownOS.Kernel.Paging
import UnknownOS.Kernel.HeapPages
import UnknownOS.Kernel.HeapLeak
import UnknownOS.Core.While
import UnknownOS.Kernel.Timer
import UnknownOS.Kernel.TimerRegistry
import UnknownOS.Kernel.TimerSleep
import UnknownOS.Arch.LapicTimer
import UnknownOS.Drivers.Acpi
import UnknownOS.Drivers.ScreenClear
import UnknownOS.Drivers.ScreenCursor
import UnknownOS.Core.Numerals
import UnknownOS.Klib.NumberNumerals
import UnknownOS.Klib.NumberBuffer
import UnknownOS.Drivers.FormatValues
import UnknownOS.Core.Raster
import UnknownOS.Drivers.Blit
import UnknownOS.Drivers.ConsoleModes
import UnknownOS.Kernel.VmmInit
import UnknownOS.Arch.Interrupts
import UnknownOS.Kernel.HeapOwners
import UnknownOS.Kernel.ThreadOwnership
