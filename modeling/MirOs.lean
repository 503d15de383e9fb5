import MirOs.MachineWord
import MirOs.Reachability
import MirOs.FirstFit
import MirOs.PageAllocModel
import MirOs.PageAllocEffect
import MirOs.PageBlocks
import MirOs.PageAccounting
import MirOs.BootMemory
import MirOs.BitmapCover
import MirOs.SlabGeometry
import MirOs.SlabFirstPage
import MirOs.DList
import MirOs.RingFamily
import MirOs.SlabModel
import MirOs.SlabChains
import MirOs.PprevChain
import MirOs.BufferCache
import MirOs.BufferCacheInv
import MirOs.BufferCacheRuns
import MirOs.BlockData
import MirOs.FatTable
import MirOs.IdeDisk
import MirOs.IdePartition
import MirOs.TransferErrors
import MirOs.FatRead
import MirOs.SemTable
import MirOs.SemOps
import MirOs.SemModel
import MirOs.SemEffect
import MirOs.SemQueue
import MirOs.SemWait
import MirOs.SemWakeups
import MirOs.SemSums
import MirOs.SemRange
import MirOs.SemLedger
import MirOs.SemUndo
import MirOs.SemMutex
import MirOs.SchedModel
import MirOs.RunQueue
import MirOs.TimedSleep
import MirOs.FileTable
import MirOs.VfsModel
import MirOs.MountSelect
import MirOs.VnodeTree
import MirOs.MountTable
import MirOs.PathNames
import MirOs.StackedMounts
import MirOs.OpenVnodes
import MirOs.TaskletModel
import MirOs.TaskletRuns
import MirOs.ProcessModel
import MirOs.PidTable
import MirOs.ProcessTree
import MirOs.TaskPages
import MirOs.PageCounts
import MirOs.PageAlign
import MirOs.SemRollback
import MirOs.SemIndex
import MirOs.SemIndexRuns
import MirOs.Vmalloc
import MirOs.ModuleLoad
import MirOs.ModuleSymbols
import MirOs.ModuleRuns
import MirOs.IrqMask
import MirOs.StableOrder
import MirOs.TimerList
import MirOs.TimerRuns
import MirOs.RamPages
import MirOs.ColouredTree
import MirOs.Rebalance
import MirOs.RbTree
import MirOs.RbLinks
import MirOs.RbInsert
import MirOs.RbErase
import MirOs.RbRuns
import MirOs.PidScan
import MirOs.FirstMaximum
import MirOs.SchedChoice
import MirOs.SchedRuns
import MirOs.PageComplete
import MirOs.ReservedRange
import MirOs.SlabLayout
import MirOs.PageWalk
import MirOs.VmallocTables
import MirOs.VmallocPages
import MirOs.VmallocRuns
import MirOs.VmallocMaps
import MirOs.VmallocFrames
import MirOs.VmallocReturns
import MirOs.VmallocLastFrame
import MirOs.VmallocConserve
import MirOs.RecordBytes
import MirOs.CacheDescriptors
import MirOs.SlabSystem
import MirOs.SlabPages
import MirOs.SlabCalls
import MirOs.SlabAtomic
import MirOs.SlabOwners
import MirOs.SlabReturns
import MirOs.SlabDestroy
import MirOs.CacheRelease
import MirOs.MemoryMap
import MirOs.TrimSeparator
import MirOs.DescriptorTable
import MirOs.OpenCalls
import MirOs.OpenObjects
import MirOs.BlockSearch
import MirOs.DirectorySearch
import MirOs.PhantomVnodes
import MirOs.ParsePath
import MirOs.MountFailures
import MirOs.VnodeForest
import MirOs.VnodeDelete
import MirOs.LexicalPath
import MirOs.PathResolution
import MirOs.GapSort
import MirOs.QSort
import MirOs.Atoi
import MirOs.ShortNames
import MirOs.RbBulk
import MirOs.FatVolume
import MirOs.DirectoryWalk
import MirOs.FatAccess
import MirOs.FatGeometry
import MirOs.FatBuffers
import MirOs.ByteMemory
import MirOs.ElfModule
import MirOs.ElfTables
import MirOs.ElfBss
import MirOs.ElfSymbols
import MirOs.ElfRelocate
import MirOs.PageOrder
import MirOs.HashChains
import MirOs.RingBuffer
import MirOs.KeyboardQueue
import MirOs.TextConsole
import MirOs.TerminalWrite
import MirOs.PgtableCache
import MirOs.KeyTables
import MirOs.KeyInterrupt
import MirOs.KeyModifiers
import MirOs.AltSequence
import MirOs.LineEditor
import MirOs.TypedLine
import MirOs.VirtualConsoles
import MirOs.IrqDelivery
import MirOs.NumberText
import MirOs.FormatText
import MirOs.StringMachine
import MirOs.StringSpan
import MirOs.StringTokens
import MirOs.StringMoves
import MirOs.StringCompare
import MirOs.StringSearch
import MirOs.PartitionTable
import MirOs.PartitionDevices
import MirOs.FairShare
import MirOs.SchedFairness
import MirOs.PortSession
import MirOs.AtapiDriver
import MirOs.AtapiBuffer
import MirOs.AtapiRead
import MirOs.FloppyDriver
import MirOs.FloppyController
import MirOs.FloppyTransfers
import MirOs.CatFile
import MirOs.KeyboardPorts
