import ScalesOS.BitArray
import ScalesOS.Machine
import ScalesOS.Pmm
import ScalesOS.PmmFrames
import ScalesOS.PmmRuns
import ScalesOS.PmmInit
import ScalesOS.ByteMemory
import ScalesOS.KernelHeap
import ScalesOS.HeapChain
import ScalesOS.HeapRuns
import ScalesOS.HeapPayloads
import ScalesOS.Paging
import ScalesOS.PagingMap
import ScalesOS.AddressSpace
import ScalesOS.CloneSpace
import ScalesOS.HeapGrowth
import ScalesOS.CloneRelease
import ScalesOS.Siblings
import ScalesOS.BlockRelease
import ScalesOS.Process
import ScalesOS.Descriptors
import ScalesOS.Separate
import ScalesOS.FrameAccounts
import ScalesOS.ForkExit
import ScalesOS.Lifetime
import ScalesOS.Mmap
import ScalesOS.MmapRuns
import ScalesOS.DescriptorTable
import ScalesOS.NodeLifetime
import ScalesOS.Signals
import ScalesOS.SleepQueue
import ScalesOS.LinkedChain
import ScalesOS.SleepOrder
import ScalesOS.Scheduler
import ScalesOS.Wakeups
import ScalesOS.KernelState
import ScalesOS.KernelSteps
import ScalesOS.TimedSleep
import ScalesOS.QueueMembers
import ScalesOS.Zombies
import ScalesOS.ProcessTree
import ScalesOS.Cfg
import ScalesOS.MappedFiles
import ScalesOS.NameTree
import ScalesOS.TmpfsTree
import ScalesOS.TmpfsTreeRuns
import ScalesOS.Scsh
import ScalesOS.SignalFrames
import ScalesOS.ChildExits
import ScalesOS.RunQueue
import ScalesOS.Circular
import ScalesOS.RingBuffer
import ScalesOS.RingCalls
import ScalesOS.RingOrder
import ScalesOS.Calls
import ScalesOS.Pipes
import ScalesOS.PipeStream
import ScalesOS.PipeSleepers
import ScalesOS.Paths
import ScalesOS.MountTree
import ScalesOS.PathResolution
import ScalesOS.MountRuns
import ScalesOS.Sockets
import ScalesOS.SocketSteps
import ScalesOS.SocketStream
import ScalesOS.SocketLocks
import ScalesOS.Matching
import ScalesOS.Connections
import ScalesOS.Terminal
import ScalesOS.LineEditor
import ScalesOS.Select
import ScalesOS.SelectCalls
import ScalesOS.PseudoTerminals
import ScalesOS.Storage
import ScalesOS.Partitions
import ScalesOS.Ata
import ScalesOS.StackImage
import ScalesOS.ExecStack
import ScalesOS.DepthFirst
import ScalesOS.Loader
import ScalesOS.MoveToFront
import ScalesOS.BlockCache
import ScalesOS.BlockReaders
import ScalesOS.Inodes
import ScalesOS.BlockAllocation
import ScalesOS.FileWrites
import ScalesOS.BlockMap
import ScalesOS.WriteThrough
import ScalesOS.Tmpfs
import ScalesOS.FrameTaking
import ScalesOS.SharedMemory
import ScalesOS.ShmRuns
import ScalesOS.FrameSearch
import ScalesOS.Lists
import ScalesOS.SearchOrder
import ScalesOS.InitOrder
import ScalesOS.Environ
import ScalesOS.Stdio
import ScalesOS.Compositor
import ScalesOS.ResizeHandshake
import ScalesOS.WindowForest
import ScalesOS.WindowRemoval
import ScalesOS.Painting
import ScalesOS.HitTesting
import ScalesOS.ClientLifetime
import ScalesOS.ClientReaping
import ScalesOS.Relocation
import ScalesOS.SymbolBinding
import ScalesOS.SleepReturn
import ScalesOS.Dispositions
import ScalesOS.DupTable
import ScalesOS.FrameMarking
import ScalesOS.GapSearch
import ScalesOS.WindowSearch
import ScalesOS.MmioRegisters
import ScalesOS.BootPaging
import ScalesOS.BlockSearch
import ScalesOS.PageRanges
import ScalesOS.SharedMapping
import ScalesOS.Truncation
import ScalesOS.PipeQueue
import ScalesOS.Readiness
import ScalesOS.SlaveReads
import ScalesOS.Cancelling
import ScalesOS.Canonize
import ScalesOS.BlockArray
import ScalesOS.ReadContext
import ScalesOS.PointerTree
import ScalesOS.BlockOffsets
import ScalesOS.RecordTables
import ScalesOS.InodeTables
import ScalesOS.SparseFile
import ScalesOS.FileReads
import ScalesOS.FileContents
import ScalesOS.Scans
import ScalesOS.Directories
import ScalesOS.DirectoryScans
import ScalesOS.DirectoryEntries
import ScalesOS.Tar
import ScalesOS.TarArchives
import ScalesOS.GroupTable
import ScalesOS.AtaWrites
import ScalesOS.ListSort
import ScalesOS.WindowOrder
import ScalesOS.Restacking
import ScalesOS.ModuleLoader
import ScalesOS.SectionOrder
import ScalesOS.ModuleErrors
import ScalesOS.FreshPages
import ScalesOS.ExecSegments
import ScalesOS.StableSort
import ScalesOS.Clips
import ScalesOS.GridWalk
import ScalesOS.Lines
import ScalesOS.VtBuffer
import ScalesOS.Procfs
import ScalesOS.Jpeg
import ScalesOS.CanonicalCodes
import ScalesOS.HuffmanDecoding
import ScalesOS.Coalescing
import ScalesOS.AlignedBlocks
import ScalesOS.Requests
import ScalesOS.ExactRuns
import ScalesOS.Loops
import ScalesOS.LongDivision
import ScalesOS.MemMove
import ScalesOS.Timestamps
import ScalesOS.MkTime
import ScalesOS.PrdTable
import ScalesOS.Fgets
import ScalesOS.Tokens
import ScalesOS.Strtok
import ScalesOS.Strtol
import ScalesOS.TextInput
import ScalesOS.JpegBits
import ScalesOS.JpegScan
import ScalesOS.JpegSegments
import ScalesOS.Printf
import ScalesOS.PrintfText
import ScalesOS.PrintfNumbers
import ScalesOS.Spaces
import ScalesOS.Isolation
import ScalesOS.StdioWrites
