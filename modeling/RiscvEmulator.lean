import RiscvEmulator.Lib.LineCache
import RiscvEmulator.Lib.Memo
import RiscvEmulator.Lib.Fold
import RiscvEmulator.Lib.InputStream
import RiscvEmulator.Lib.LowerBound
import RiscvEmulator.Lib.Best
import RiscvEmulator.Lib.History
import RiscvEmulator.Lib.Recency
import RiscvEmulator.Lib.LruStack
import RiscvEmulator.Lib.Mutex
import RiscvEmulator.Lib.OneCell
import RiscvEmulator.Lib.Scatter
import RiscvEmulator.Lib.Sharing
import RiscvEmulator.Lib.Ownership
import RiscvEmulator.Lib.Transitions
import RiscvEmulator.Lib.MixedRadix
import RiscvEmulator.Memory.Word
import RiscvEmulator.Memory.Directory
import RiscvEmulator.Memory.Interface
import RiscvEmulator.Memory.ByteMemory
import RiscvEmulator.Memory.Geometry
import RiscvEmulator.Memory.Cache
import RiscvEmulator.Memory.CacheLines
import RiscvEmulator.Memory.CacheOrder
import RiscvEmulator.Memory.CacheInclusion
import RiscvEmulator.Memory.CacheRefinement
import RiscvEmulator.Memory.CacheStatistics
import RiscvEmulator.Memory.Transparency
import RiscvEmulator.Memory.FlushRange
import RiscvEmulator.Memory.MemoryFace
import RiscvEmulator.Memory.Pma
import RiscvEmulator.Memory.PmaLookup
import RiscvEmulator.Memory.Hierarchy
import RiscvEmulator.Memory.Coherence
import RiscvEmulator.Memory.SingleCore
import RiscvEmulator.Memory.OwnedLines
import RiscvEmulator.Memory.StoreAnywhere
import RiscvEmulator.Memory.CachedWords
import RiscvEmulator.Memory.Mmu
import RiscvEmulator.Memory.Tlb
import RiscvEmulator.Memory.Remembered
import RiscvEmulator.Memory.TlbOrder
import RiscvEmulator.Isa.Format
import RiscvEmulator.Isa.Rv32i
import RiscvEmulator.Isa.RvM
import RiscvEmulator.Isa.RvA
import RiscvEmulator.Isa.LoadStore
import RiscvEmulator.Isa.Instruction
import RiscvEmulator.Isa.Machine
import RiscvEmulator.Isa.Zicsr
import RiscvEmulator.Isa.Sv32
import RiscvEmulator.Memory.PageWalk
import RiscvEmulator.Cores.Decode
import RiscvEmulator.Cores.State
import RiscvEmulator.Cores.Trap
import RiscvEmulator.Cores.TrapTarget
import RiscvEmulator.Cores.Status
import RiscvEmulator.Cores.Alu
import RiscvEmulator.Cores.Compute
import RiscvEmulator.Cores.MulDiv
import RiscvEmulator.Interrupt.Clint
import RiscvEmulator.Interrupt.Plic
import RiscvEmulator.Interrupt.PlicClaims
import RiscvEmulator.Interrupt.PlicSelection
import RiscvEmulator.Interrupt.PlicRegisters
import RiscvEmulator.Interrupt.PlicRegisterFile
import RiscvEmulator.Device.Uart
import RiscvEmulator.Software.UartLock
import RiscvEmulator.Software.TvmMemory
import RiscvEmulator.Software.Vprintf
import RiscvEmulator.Software.VprintfNumbers
import RiscvEmulator.Software.VprintfOutput
import RiscvEmulator.Software.BareMetal
import RiscvEmulator.System.MultiCoreMonitor
import RiscvEmulator.System.Simulator
import RiscvEmulator.System.Step
import RiscvEmulator.System.Execution
import RiscvEmulator.System.ComputeStep
import RiscvEmulator.System.DataStep
import RiscvEmulator.System.MulDivStep
import RiscvEmulator.System.CoreStep
import RiscvEmulator.System.Discipline
import RiscvEmulator.System.SequentialConsistency
import RiscvEmulator.System.ProgramRun
import RiscvEmulator.System.AtomicStep
import RiscvEmulator.System.AtomicRun
import RiscvEmulator.System.DecodedStep
import RiscvEmulator.Debug.Disassembler
import RiscvEmulator.Debug.TraceDisasm
import RiscvEmulator.System.Reservation
import RiscvEmulator.System.SubWord
import RiscvEmulator.System.LoadStoreStep
import RiscvEmulator.System.MemoryViews
import RiscvEmulator.System.ByteArray
import RiscvEmulator.System.Misaligned
import RiscvEmulator.System.PageRights
import RiscvEmulator.System.AccessMoves
import RiscvEmulator.System.AccessFrame
import RiscvEmulator.System.SystemLeaves
import RiscvEmulator.System.SatpFrame
import RiscvEmulator.System.CsrStep
import RiscvEmulator.System.CoreFrame
import RiscvEmulator.System.PcStep
import RiscvEmulator.System.StepMoves
import RiscvEmulator.System.WordPlaces
import RiscvEmulator.System.MappedAccess
import RiscvEmulator.System.Synonyms
import RiscvEmulator.Lib.Draining
import RiscvEmulator.Interrupt.PlicService
import RiscvEmulator.System.OneWord
import RiscvEmulator.System.CodeFetch
import RiscvEmulator.System.SatpTranslation
import RiscvEmulator.System.WalkCoherence
import RiscvEmulator.System.PageFault
import RiscvEmulator.System.InterruptDelivery
import RiscvEmulator.System.InterruptGate
import RiscvEmulator.System.TrapReturn
import RiscvEmulator.System.Run
import RiscvEmulator.System.BootSafety
import RiscvEmulator.System.Continuation
import RiscvEmulator.Debug.MemoryView
import RiscvEmulator.Debug.CommandLoop
import RiscvEmulator.Debug.AddressParser
import RiscvEmulator.Debug.LoopNesting
import RiscvEmulator.Debug.LastCommand
import RiscvEmulator.Debug.BreakpointProgress
import RiscvEmulator.Debug.Session
import RiscvEmulator.System.ZeroRegister
import RiscvEmulator.System.PendingBits
import RiscvEmulator.System.MonitorReports
import RiscvEmulator.System.RunModes
import RiscvEmulator.System.VirtualMemory
import RiscvEmulator.System.WaitForInterrupt
import RiscvEmulator.System.FinishDetection
import RiscvEmulator.Interrupt.ClintRegisters
import RiscvEmulator.System.MmioRouting
import RiscvEmulator.System.MmioAgreement
import RiscvEmulator.System.ClintTimer
import RiscvEmulator.System.ElfFile
import RiscvEmulator.System.SymbolSearch
import RiscvEmulator.System.FunctionDetector
import RiscvEmulator.System.FunctionProfiler
import RiscvEmulator.System.Loader
import RiscvEmulator.System.LoaderBounds
import RiscvEmulator.System.LoadedImage
import RiscvEmulator.System.Reset
import RiscvEmulator.System.ElfRun
import RiscvEmulator.Ai.Tensor
import RiscvEmulator.Ai.ComputeUnit
import RiscvEmulator.Ai.Convolution
import RiscvEmulator.Ai.Operators
import RiscvEmulator.Ai.Pooling
import RiscvEmulator.Ai.Softmax
import RiscvEmulator.Software.UartWrite
import RiscvEmulator.System.AddressSpace
