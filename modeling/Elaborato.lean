import Elaborato.Mentos.DeadlockFreedom
import Elaborato.Mentos.DeadlockChecked
import Elaborato.Mentos.MaxMatrix
import Elaborato.Mentos.SemaphoreWord
import Elaborato.Mentos.SemaphoreSetup
import Elaborato.Mentos.CmdDeadlock
import Elaborato.Mentos.KheapAlign
import Elaborato.Mentos.KheapReallocFails
import Elaborato.Mentos.Paging
import Elaborato.Mentos.ProcessChildren
import Elaborato.Mentos.ProcessArgs
import Elaborato.Mentos.ProcessVfork
import Elaborato.Mentos.ProcessTimes
import Elaborato.Mentos.Libgen
import Elaborato.Mentos.InitrdFailures
import Elaborato.Mentos.InitrdWrites
import Elaborato.Mentos.LoginRecords
import Elaborato.Initscp.EndMark
import Elaborato.Mentos.LinkedListRuns
import Elaborato.Mentos.RbtreeRuns
import Elaborato.Mentos.RbtreeIter
import Elaborato.Mentos.RbtreeTest
import Elaborato.Mentos.RbtreeDealloc
import Elaborato.Mentos.OrderedArray
import Elaborato.Mentos.VsprintfDecimal
import Elaborato.Mentos.VsprintfHex
import Elaborato.Mentos.VsprintfScan
import Elaborato.Mentos.Strtok
import Elaborato.Mentos.Trim
import Elaborato.Mentos.Gets
import Elaborato.Mentos.ShellHistory
import Elaborato.Mentos.Keyboard
import Elaborato.Mentos.VideoScroll
import Elaborato.SystemCall.Bounds
import Elaborato.SystemCall.OutputFiles
