import RiscyOS.Lib.Memory
import RiscyOS.Arch.Mmu
import RiscyOS.Memory.Kmem
import RiscyOS.Memory.KmemSpec
import RiscyOS.Memory.KmemRuns
import RiscyOS.Arch.ContextSwitch
import RiscyOS.Io.Scheduler
import RiscyOS.Io.SchedulerSpec
import RiscyOS.Io.SchedulerRuns
import RiscyOS.Fs.World
import RiscyOS.Fs.Files
import RiscyOS.Fs.Open
import RiscyOS.Fs.Elf
import RiscyOS.Fs.SeekSpec
import RiscyOS.Fs.ReadSpec
import RiscyOS.Io.Client
import RiscyOS.Fs.Directory
import RiscyOS.Fs.OpenSpec
import RiscyOS.Fs.Cursor
import RiscyOS.Fs.ElfImage
import RiscyOS.Fs.ElfSpec
import RiscyOS.Lib.Bitmap
import RiscyOS.Memory.Umem
import RiscyOS.Memory.UmemSpec
import RiscyOS.Lib.Allocator
import RiscyOS.Memory.Slab
import RiscyOS.Memory.SlabSpec
import RiscyOS.Memory.SlabRuns
import RiscyOS.Io.SchedulerFaults
import RiscyOS.Io.SchedulerShape
import RiscyOS.Fs.Effects
import RiscyOS.Fs.System
import RiscyOS.Fs.Moves
import RiscyOS.Fs.Continuations
import RiscyOS.Fs.Ownership
import RiscyOS.Fs.Strays
import RiscyOS.Fs.ElfConfined
import RiscyOS.Lib.Ring
import RiscyOS.Process.RoundRobin
import RiscyOS.GasToJim.Assembly
import RiscyOS.Memory.SlabThrift
import RiscyOS.GasToJim.Parse
import RiscyOS.GasToJim.Placement
import RiscyOS.GasToJim.LocalLabels
import RiscyOS.GasToJim.Collapse
import RiscyOS.GasToJim.Execution
import RiscyOS.GasToJim.CollapseSpec
import RiscyOS.Fs.ElfLeak
import RiscyOS.Lib.Record
import RiscyOS.Process.Table
import RiscyOS.Process.TableSpec
import RiscyOS.Memory.KmemFit
import RiscyOS.Io.Fifo
import RiscyOS.Arch.Routines
import RiscyOS.Arch.Frames
import RiscyOS.Fs.Fat
import RiscyOS.Io.Tty
import RiscyOS.Io.TtyRuns
import RiscyOS.Process.TableSteps
import RiscyOS.Process.TableRing
import RiscyOS.Process.TablePids
import RiscyOS.Process.TableTurns
import RiscyOS.Lib.RefCount
import RiscyOS.Process.TableCounts
import RiscyOS.Memory.KmemFree
import RiscyOS.Memory.UmemInit
import RiscyOS.Fs.Faults
import RiscyOS.Fs.SeekBounds
import RiscyOS.Fs.ReadPast
import RiscyOS.Fs.OpenSingle
import RiscyOS.Fs.Escape
import RiscyOS.Fs.Names
import RiscyOS.Fs.PathBuffer
import RiscyOS.Fs.OpenMachine
import RiscyOS.Fs.OpenWalk
import RiscyOS.Fs.OpenEnds
import RiscyOS.Fs.OpenDirectories
import RiscyOS.Fs.OpenReports
import RiscyOS.Fs.ElfStages
import RiscyOS.Fs.ElfComplete
import RiscyOS.Fs.ElfStack
import RiscyOS.Fs.ElfFailure
import RiscyOS.Lib.Halves
import RiscyOS.Arch.Interrupts
import RiscyOS.Arch.Timer
import RiscyOS.Fs.Lba
import RiscyOS.Fs.FatInit
import RiscyOS.GasToJim.Lines
import RiscyOS.GasToJim.Anchors
import RiscyOS.GasToJim.Strings
import RiscyOS.GasToJim.StringReferences
import RiscyOS.Process.Fork
import RiscyOS.Process.ExitEnds
import RiscyOS.Process.ExitParent
import RiscyOS.Io.CompletionRing
import RiscyOS.Fs.SeekPosition
import RiscyOS.Process.ForkFailure
import RiscyOS.Lib.HashTable
import RiscyOS.Lib.Precedence
import RiscyOS.Lib.Rv32
import RiscyOS.Assembler.Text
import RiscyOS.Assembler.Symbols
import RiscyOS.Assembler.Evaluate
import RiscyOS.Assembler.EvaluateSpec
import RiscyOS.Assembler.EvaluateReturns
import RiscyOS.Assembler.Mnemonics
import RiscyOS.Assembler.Instructions
import RiscyOS.Assembler.InstructionSpec
import RiscyOS.Assembler.Statements
import RiscyOS.Assembler.PseudoSpec
import RiscyOS.Assembler.LongSpec
import RiscyOS.Lib.Spill
import RiscyOS.Arch.Trap
import RiscyOS.Arch.Contexts
import RiscyOS.Arch.TrapRuns
import RiscyOS.Assembler.Literals
import RiscyOS.GasToJim.Assembled
import RiscyOS.Fs.OpenRead
