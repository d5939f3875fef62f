import McLinOS.Block.PartitionFormat
import McLinOS.Block.W25qxxRuns
import McLinOS.Fs.Theorems
import McLinOS.Fs.Resolve
import McLinOS.Fs.Steps
import McLinOS.Fs.Mount
import McLinOS.Fs.MountTheorems
import McLinOS.Fs.RemovalTheorems
import McLinOS.Fs.OpenFilesTheorems
import McLinOS.Fs.Leaks
import McLinOS.Lock.Spinlock
import McLinOS.Syscall.Theorems
import McLinOS.Heap.Theorems
import McLinOS.Heap.Frames
import McLinOS.Heap.Kmalloc
import McLinOS.Fs.Dcache
import McLinOS.Fs.DcacheNames
import McLinOS.Fs.DcacheTheorems
import McLinOS.CLib.Chain
import McLinOS.Sched.Preemptive
import McLinOS.Sched.PreemptivePool
import McLinOS.Sched.PreemptiveSelect
import McLinOS.Irq.Chains
import McLinOS.CLib.Ring
import McLinOS.Sched.TimeLoop
import McLinOS.Sched.TimeLoopRing
import McLinOS.Irq.Flag
import McLinOS.CLib.Circular
import McLinOS.Pipe.Model
import McLinOS.Pipe.Fifo
import McLinOS.Pipe.Waiting
import McLinOS.Loader.Model
import McLinOS.Ini.Model
import McLinOS.Ini.Document
import McLinOS.Ini.RoundTrip
import McLinOS.Ini.Theorems
import McLinOS.Loader.Confined
import McLinOS.Loader.GotTable
import McLinOS.Loader.Admission
import McLinOS.Loader.Launch
import McLinOS.Lock.Quest
import McLinOS.Sched.Blocking
import McLinOS.Block.RequestQueue
import McLinOS.Block.Bio
import McLinOS.Fs.Descriptors
import McLinOS.Fs.Sequential
import McLinOS.Sched.Reaping
import McLinOS.Sched.TaskContext
import McLinOS.Sched.Sleep
import McLinOS.Sched.RoundRobin
import McLinOS.Heap.Mempool
import McLinOS.Heap.Reserve
import McLinOS.Heap.Policy
import McLinOS.Heap.Hapers
import McLinOS.Heap.HapersTheorems
import McLinOS.Fs.DentryTree
import McLinOS.Fs.DentryTreeTheorems
import McLinOS.Fs.LinkCounts
import McLinOS.Fs.LinkCountsTheorems
import McLinOS.Block.PartitionUpdate
import McLinOS.Block.Discovery
import McLinOS.Fs.PageAccess
import McLinOS.Fs.BuiltinFilesTheorems
import McLinOS.CLib.Buffer
import McLinOS.Fs.PathBuffersTheorems
import McLinOS.Fs.PathBuffers
import McLinOS.Fs.Creation
import McLinOS.Fs.CreationTheorems
import McLinOS.Fs.Iterate
import McLinOS.Fs.CharDevice
import McLinOS.Fs.CharDeviceTheorems
import McLinOS.Block.BioVectors
import McLinOS.Ini.Lines
import McLinOS.Ini.OwnLine
import McLinOS.Ini.Bounds
import McLinOS.Tty.Receive
import McLinOS.Pipe.Queue
import McLinOS.CLib.Fields
import McLinOS.Gpio.Model
import McLinOS.Gpio.Pins
import McLinOS.Boot.FlashProgram
import McLinOS.Lock.Lockref
import McLinOS.CLib.Crc
import McLinOS.Lib.Crc32
import McLinOS.Timer.Time64
import McLinOS.Boot.Xmodem
import McLinOS.Boot.XmodemFrames
import McLinOS.Boot.XmodemTheorems
import McLinOS.Boot.XmodemRuns
import McLinOS.Boot.Update
import McLinOS.Lib.CrcTables
import McLinOS.Lib.CrcTablesTheorems
import McLinOS.Lib.PutDec
import McLinOS.CLib.Sink
import McLinOS.Lib.Vsprintf
import McLinOS.Lib.Utf16
import McLinOS.Lib.VsprintfTheorems
import McLinOS.Lib.VsprintfNumbers
import McLinOS.Sched.Startup
import McLinOS.Heap.Diagnostics
import McLinOS.CLib.Registry
import McLinOS.Fs.FileSystemTypes
import McLinOS.Sched.TaskPools
import McLinOS.Lib.StringSearch
import McLinOS.Lib.Tokens
import McLinOS.Lib.Substring
