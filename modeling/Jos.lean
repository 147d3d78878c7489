import Jos.Library.Chain
import Jos.Library.RefCount
import Jos.Library.Run
import Jos.Inc.Mmu
import Jos.Kern.Env
import Jos.Kern.Trap
import Jos.Library.RefAlloc
import Jos.Memory.Layout
import Jos.Memory.Slots
import Jos.Memory.PageInv
import Jos.Memory.PageOps
import Jos.Memory.Teardown
import Jos.Memory.EnvOps
import Jos.Memory.BootState
import Jos.Memory.MemRun
import Jos.Memory.AddressSpace
import Jos.Memory.Lifetime
import Jos.Memory.UserCheck
import Jos.Environment.Ids
import Jos.Environment.Authority
import Jos.Environment.Smp
import Jos.Memory.KernelMap
import Jos.Memory.Isolation
import Jos.Environment.Table
import Jos.Memory.VirtualTables
import Jos.Library.Logged
import Jos.Lib.Printfmt
import Jos.Kern.Syscall
import Jos.Console.Cputs
import Jos.Console.FrontEnds
import Jos.Kern.Spinlock
import Jos.Processors.Mutex
import Jos.Kern.Mpconfig
import Jos.Processors.MpTable
import Jos.Kern.Init
import Jos.Processors.Startup
import Jos.Library.ByteStack
import Jos.Kern.Trapentry
import Jos.Traps.RoundTrip
import Jos.Kern.Kdebug
import Jos.Console.Debuginfo
import Jos.Library.Cache
import Jos.Library.Interrupted
import Jos.Kern.Loader
import Jos.Kern.Stepwise
import Jos.Memory.Tlb
import Jos.Memory.TlbEnv
import Jos.Memory.TlbLoad
import Jos.Memory.TlbRun
import Jos.Memory.TlbSteps
import Jos.Kern.Detect
import Jos.Memory.BootAlloc
import Jos.Memory.PageInit
import Jos.Memory.Detected
import Jos.Memory.DoubleFree
import Jos.Memory.InsertExact
import Jos.Memory.UserAccess
import Jos.Memory.BootMap
import Jos.Memory.EnvCreate
import Jos.Console.Bracket
import Jos.Console.SourceLine
import Jos.Console.Directive
import Jos.Lib.String
import Jos.Console.Numbers
import Jos.Console.Strings
import Jos.Console.Literal
import Jos.Boot.Main
import Jos.Library.Overlay
import Jos.Boot.Image
import Jos.Memory.LoadFrame
import Jos.Memory.LoadImage
import Jos.Memory.LoadProgram
import Jos.Console.Scan
import Jos.Console.Format
import Jos.Console.Buffers
import Jos.Lib.Readline
import Jos.Console.LineEdit
import Jos.Kern.Monitor
import Jos.Console.Command
import Jos.Library.Ring
import Jos.Console.Input
import Jos.Library.Copy
import Jos.Lib.StringAsm
import Jos.Memory.Routines
import Jos.Library.Terminal
import Jos.Console.Screen
import Jos.Environment.Find
import Jos.Library.Buckets
import Jos.Kern.Check
import Jos.Memory.FreeListCheck
import Jos.Library.Settles
import Jos.Console.SearchBounds
import Jos.Kern.Kbd
import Jos.Console.Keyboard
import Jos.Console.Typing
import Jos.Kern.Mpentry
import Jos.Processors.Handshake
import Jos.Kern.Picirq
import Jos.Traps.Interrupts
import Jos.Inc.Descriptors
import Jos.Kern.Idt
import Jos.Traps.Delivery
import Jos.Console.Parts
import Jos.Kern.Backtrace
import Jos.Console.Backtrace
import Jos.Kern.Commands
import Jos.Console.Responses
import Jos.Memory.LoadSteps
import Jos.Memory.LoadRefine
import Jos.Memory.EmptySegment
import Jos.Memory.LoadReject
import Jos.Memory.TlbExec
import Jos.Memory.WindowSegment
import Jos.Console.Session
