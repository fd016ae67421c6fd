import Ucore.Foundation.Blocks
import Ucore.Foundation.Chain
import Ucore.Foundation.Memory
import Ucore.Foundation.References
import Ucore.Foundation.Ring
import Ucore.Libs.Defs
import Ucore.Libs.List
import Ucore.Mm.DefaultPmm
import Ucore.Mm.DefaultPmmSpec
import Ucore.Mm.DefaultPmmRuns
import Ucore.Mm.Pmm
import Ucore.Mm.Kmalloc
import Ucore.Mm.KmallocSpec
import Ucore.Mm.KmallocHeap
import Ucore.Mm.KmallocInv
import Ucore.Mm.KmallocRuns
import Ucore.Mm.PageTable
import Ucore.Mm.PageTableSpec
import Ucore.Mm.PageTableWalk
import Ucore.Mm.PageOwnership
import Ucore.Mm.PageTableRuns
import Ucore.Mm.PageTableMap
import Ucore.Process.Proc
import Ucore.Process.Pid
import Ucore.Mm.KmallocReturns
import Ucore.Foundation.Intervals
import Ucore.Mm.Vmm
import Ucore.Mm.VmmSpec
import Ucore.Mm.VmmRuns
import Ucore.Mm.VmmLifetime
import Ucore.Process.Registry
import Ucore.Process.ForkSpec
import Ucore.Foundation.Rv64
import Ucore.Process.Switch
import Ucore.Process.Sched
import Ucore.Mm.KmallocFrame
import Ucore.Process.ForkRuns
import Ucore.Process.Satp
import Ucore.Process.SwitchRuns
import Ucore.Process.ThreadStart
import Ucore.Process.IntrFlags
import Ucore.Mm.KmallocDispatch
import Ucore.Mm.KmallocZero
import Ucore.Foundation.Cyclic
import Ucore.Process.RoundRobin
import Ucore.Mm.DefaultPmmList
import Ucore.Mm.DefaultPmmUndo
import Ucore.Foundation.Cache
import Ucore.Mm.BootTable
import Ucore.Mm.TableOps
import Ucore.Mm.Tlb
import Ucore.Mm.TlbRuns
import Ucore.Mm.PageInit
import Ucore.Foundation.Rv64Traps
import Ucore.Process.Trap
import Ucore.Process.TrapSpec
import Ucore.Foundation.Bytes
import Ucore.Libs.String
import Ucore.Driver.Dtb
import Ucore.Driver.DtbFormat
import Ucore.Driver.DtbLookup
import Ucore.Driver.DtbBounds
import Ucore.Foundation.Printing
import Ucore.Libs.Printfmt
import Ucore.Foundation.Numeral
import Ucore.Libs.Printnum
import Ucore.Libs.PrintfmtParse
import Ucore.Libs.PrintfmtField
import Ucore.Libs.PrintfmtString
import Ucore.Foundation.Rings
import Ucore.Libs.ListRings
import Ucore.Foundation.Logging
import Ucore.Process.IntrHeap
import Ucore.Libs.StringCopy
import Ucore.Process.ProcName
import Ucore.Debug.Kmonitor
import Ucore.Libs.Strtol
import Ucore.Libs.Snprintf
import Ucore.Libs.PrintfmtTokens
import Ucore.Foundation.Programs
import Ucore.Mm.DefaultPmmPages
import Ucore.Mm.DefaultPmmQueue
import Ucore.Mm.DefaultPmmCheck
import Ucore.Mm.DefaultPmmCheckRuns
import Ucore.Mm.PmmInit
import Ucore.Foundation.FirstFit
import Ucore.Mm.DefaultPmmRefinement
import Ucore.Process.PidOrder
import Ucore.Mm.KmallocReuse
import Ucore.Foundation.LineEditor
import Ucore.Foundation.Sessions
import Ucore.Libs.Stdio
import Ucore.Libs.PrintfmtPieces
import Ucore.Libs.Readline
import Ucore.Debug.Commands
import Ucore.Debug.Panic
