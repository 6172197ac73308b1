import ByDoing.Lib.Run
import ByDoing.Lib.Block
import ByDoing.NetWork.Buffer
import ByDoing.NetWork.Channel
import ByDoing.NetWork.TcpConnection
import ByDoing.NetWork.SendStream
import ByDoing.Lib.Search
import ByDoing.Lib.While
import ByDoing.NetWork.CString
import ByDoing.NetWork.HttpRequest
import ByDoing.NetWork.HttpResponse
import ByDoing.NetWork.HttpServer
import ByDoing.Lib.Lines
import ByDoing.NetWork.HttpParse
import ByDoing.Lib.Linked
import ByDoing.NetWork.EventLoop
import ByDoing.NetWork.EventLoopThreads
import ByDoing.NetWork.ParsedRequest
import ByDoing.NetWork.HttpMessage
import ByDoing.NetWork.HttpHandling
import ByDoing.NetWork.HttpStream
import ByDoing.OS.Fork
import ByDoing.OS.Kernel
import ByDoing.OS.Ledger
import ByDoing.OS.LedgerLog
import ByDoing.OS.IdleTask
import ByDoing.OS.KernelLedger
import ByDoing.OS.ProcessLog
import ByDoing.Lib.Command
import ByDoing.OS.BufferCache
import ByDoing.OS.LogWrite
import ByDoing.OS.LogFile
import ByDoing.NetWork.BufferQueue
import ByDoing.OS.Who
import ByDoing.OS.Timer
import ByDoing.Lib.Rooted
import ByDoing.OS.WaitQueue
import ByDoing.OS.SleepOn
import ByDoing.OS.InterruptibleWait
import ByDoing.Lib.Slots
import ByDoing.NetWork.EventDispatcher
import ByDoing.NetWork.PollDispatcher
import ByDoing.NetWork.TcpServer
import ByDoing.NetWork.Descriptors
import ByDoing.Lib.Lives
import ByDoing.OS.SignalLoop
import ByDoing.OS.WaitPid
import ByDoing.OS.Reaping
import ByDoing.Lib.Sharing
import ByDoing.Lib.Abstraction
import ByDoing.OS.Memory
import ByDoing.OS.UserMemory
import ByDoing.OS.EagerCopy
import ByDoing.OS.Paging
import ByDoing.OS.PageOps
import ByDoing.OS.CopyOnWrite
import ByDoing.OS.UserRanges
import ByDoing.Lib.References
import ByDoing.OS.MemMap
import ByDoing.OS.MemMapCount
import ByDoing.OS.MemMapRun
import ByDoing.Lib.Ring
import ByDoing.OS.Pipe
import ByDoing.Lib.Threaded
import ByDoing.OS.Malloc
import ByDoing.OS.PipeRegion
import ByDoing.OS.MallocLayout
import ByDoing.OS.MallocPages
import ByDoing.OS.MallocRun
import ByDoing.OS.Console
import ByDoing.OS.ConsoleBounds
import ByDoing.OS.FileTable
import ByDoing.OS.FileCounts
import ByDoing.OS.FileRun
import ByDoing.OS.FileProcess
import ByDoing.Lib.WriteBack
import ByDoing.OS.BlockDev
import ByDoing.OS.BlockCache
import ByDoing.OS.BlockCoherence
import ByDoing.NetWork.HttpLoop
import ByDoing.NetWork.HttpRoundTrip
import ByDoing.Lib.Decimal
import ByDoing.NetWork.BufferGrowth
import ByDoing.NetWork.HttpResponseFormat
import ByDoing.NetWork.HttpHeaderLookup
import ByDoing.NetWork.HttpHeaderBounds
import ByDoing.Distributed.HashConsistence
import ByDoing.NetWork.Dispatch
import ByDoing.NetWork.DispatchRounds
import ByDoing.NetWork.WriteEvents
import ByDoing.NetWork.WriteInterest
import ByDoing.OS.Directory
import ByDoing.OS.DirectoryTree
import ByDoing.OS.LinkCount
import ByDoing.OS.LinkRun
import ByDoing.NetWork.ReadBytes
import ByDoing.NetWork.ReadMessage
import ByDoing.NetWork.ReadLine
import ByDoing.NetWork.ReadLines
import ByDoing.OS.Scheduler
import ByDoing.OS.SchedulerRun
import ByDoing.OS.StatTimes
import ByDoing.OS.CopyUndo
import ByDoing.OS.CopyProcess
import ByDoing.OS.CopyProcessRun
import ByDoing.OS.Vsprintf
import ByDoing.OS.LogText
import ByDoing.AlgApp.MergeSort
import ByDoing.AlgApp.Conversion
import ByDoing.AlgApp.QuickSort
import ByDoing.AlgApp.InsertSort
import ByDoing.AlgApp.BubbleSort
import ByDoing.AlgApp.SelectSort
import ByDoing.Distributed.HashCollisions
import ByDoing.Cpp.Ownership
import ByDoing.Cpp.ImplicitCopy
import ByDoing.SystemProgramming.CondProduceConsumer
import ByDoing.SystemProgramming.SemProductConsumer
import ByDoing.Lib.BitWords
import ByDoing.Lib.Machine
import ByDoing.OS.Minix.Buffer
import ByDoing.OS.Minix.Bitmap
import ByDoing.Lib.Forest
import ByDoing.OS.Minix.Bmap
import ByDoing.OS.Minix.Truncate
import ByDoing.Lib.Ensures
import ByDoing.OS.Minix.Inode
import ByDoing.Lib.Allotment
import ByDoing.OS.Minix.Numbers
import ByDoing.OS.Minix.AddEntry
import ByDoing.OS.Minix.FindEntry
import ByDoing.OS.Minix.SparseDirectory
import ByDoing.OS.Dup2
import ByDoing.OS.Tty.TtyQueue
import ByDoing.OS.Tty.TtyRead
import ByDoing.Lib.Sweep
import ByDoing.OS.PipeCalls
import ByDoing.OS.RequestQueue
import ByDoing.OS.HardDisk
import ByDoing.OS.HardDiskRun
import ByDoing.OS.Tty.Cooked
import ByDoing.OS.Tty.CookedRun
import ByDoing.OS.Tty.TtyWrite
import ByDoing.Lib.ByteMemory
import ByDoing.OS.ExecArgs
import ByDoing.OS.ExecCopy
import ByDoing.OS.ExecTables
import ByDoing.OS.ExecStrings
import ByDoing.OS.Tty.ConWrite
import ByDoing.OS.Tty.ConWriteRun
import ByDoing.Lib.Calendar
import ByDoing.Lib.Checked
import ByDoing.OS.Mktime
import ByDoing.OS.Credentials
import ByDoing.OS.Minix.Access
import ByDoing.NetWork.ChannelMap
import ByDoing.OS.ExecOverflow
import ByDoing.OS.VsprintfStar
import ByDoing.Lib.DoublyLinked
import ByDoing.OS.HashQueues
import ByDoing.OS.Tty.ConWriteQuiet
import ByDoing.OS.ExecPages
import ByDoing.OS.Execve
import ByDoing.OS.ExecveRun
import ByDoing.OS.Minix.InodeRace
import ByDoing.OS.Minix.InodeRaceRun
import ByDoing.Lib.Overwrite
import ByDoing.OS.Minix.FileBlocks
import ByDoing.OS.Minix.FileDev
import ByDoing.OS.Minix.ReadWrite
import ByDoing.Lib.Blit
import ByDoing.OS.Boot.Bootsect
import ByDoing.OS.Boot.Build
import ByDoing.OS.Boot.Setup
import ByDoing.OS.Boot.Startup
import ByDoing.OS.QueueLists
import ByDoing.OS.SharedCache
