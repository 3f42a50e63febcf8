import Miviex.SchedulerLaws
import Miviex.TerminalSignals
import Miviex.PipeStreams
import Miviex.SocketWakeups
import Miviex.SocketTraffic
import Miviex.Polling
import Miviex.Credentials
import Miviex.PhysicalAllocation
import Miviex.HeapLaws
import Miviex.ForkCopies
import Miviex.ConsoleDrawing
import Miviex.CallRestart
import Miviex.InterruptedCalls
import Miviex.OpenFileCounts
import Miviex.UnpackedArchive
import Miviex.FileAccess
import Miviex.AcceptedConnections
import Miviex.RamfsFiles
import Miviex.ProcEntries
import Miviex.Datagrams
import Miviex.DescriptorPairs
import Miviex.MappedRanges
import Miviex.LineDiscipline
import Miviex.Calendar
import Miviex.KernelLog
