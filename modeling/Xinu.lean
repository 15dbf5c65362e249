import Xinu.CIntegers
import Xinu.CStrings
import Xinu.Runs
import Xinu.BlockStore
import Xinu.FileSystem
import Xinu.FileCalls
import Xinu.FreeMask
import Xinu.FileGeometry
import Xinu.CallOutcomes
import Xinu.CallAtomicity
import Xinu.Directory
import Xinu.Descriptors
import Xinu.InodeRegion
import Xinu.FileBlocks
import Xinu.FileInvariants
import Xinu.TransferLengths
import Xinu.BlockOwnership
import Xinu.TransferBounds
import Xinu.Durability
import Xinu.CursorFile
import Xinu.FileContents
import Xinu.FileRefinement
import Xinu.ChainedTable
import Xinu.LinkedPath
import Xinu.IdealLru
import Xinu.KeyValueStore
import Xinu.StoreTables
import Xinu.CacheList
import Xinu.CacheChanges
import Xinu.StoreInvariants
import Xinu.StoreRuns
import Xinu.LruRefinement
import Xinu.StoreMap
import Xinu.CacheCount
import Xinu.StoreReset
import Xinu.CacheStatistics
import Xinu.FailedSets
import Xinu.Futures
import Xinu.ExclusiveFuture
import Xinu.SharedFuture
import Xinu.QueueFuture
import Xinu.Intervals
import Xinu.HeapMemory
import Xinu.FreeList
import Xinu.HeapAllocation
import Xinu.HeapRelease
import Xinu.HeapIntegrity
import Xinu.FutureMemory
import Xinu.Processes
import Xinu.DoublyLinked
import Xinu.DeltaList
import Xinu.ProcessBoard
import Xinu.ProcessPlaces
import Xinu.QueueTable
import Xinu.KernelRefinement
import Xinu.CallRefinement
import Xinu.KernelRuns
import Xinu.ProcessAgreement
import Xinu.SemaphoreCounts
import Xinu.PriorityOrder
import Xinu.SleepTimes
import Xinu.Mailboxes
import Xinu.ProcessLives
import Xinu.Semaphores
import Xinu.WordMemory
import Xinu.BufferPools
import Xinu.PoolLaws
import Xinu.PoolCreation
import Xinu.PoolCalls
import Xinu.PoolConcurrency
import Xinu.PoolCoherence
import Xinu.XmallocPools
import Xinu.PoolSnapshot
import Xinu.RingBuffer
import Xinu.SemaphoreTokens
import Xinu.SemaphoreFamilies
import Xinu.Loopback
import Xinu.Uart
import Xinu.UartInput
import Xinu.UartOutput
import Xinu.Tty
import Xinu.TtyEditing
import Xinu.TtyInput
import Xinu.TtyOutput
import Xinu.TtyLines
import Xinu.Partitions
import Xinu.NullTerminated
import Xinu.RingScan
import Xinu.WriteBack
import Xinu.LocalFiles
import Xinu.ByteFiles
import Xinu.LocalBlocks
import Xinu.LocalLayout
import Xinu.LocalCaches
import Xinu.LocalTransfers
import Xinu.LocalSetup
import Xinu.LocalPositions
import Xinu.LocalCalls
import Xinu.LocalTruncate
import Xinu.LocalNames
import Xinu.LocalRefinement
import Xinu.LocalHistories
import Xinu.LocalCreation
import Xinu.LocalFormat
import Xinu.LocalRuns
import Xinu.RunConditions
import Xinu.HeapRequests
import Xinu.Calendar
import Xinu.AscDate
import Xinu.IpOutput
import Xinu.NetworkOrder
import Xinu.Datagrams
import Xinu.RdsExchange
import Xinu.Consecutive
import Xinu.Tftp
import Xinu.TftpDownload
import Xinu.Packets
import Xinu.PacketQueues
import Xinu.Messages
import Xinu.UdpEndpoints
import Xinu.UdpDelivery
import Xinu.UdpRelease
import Xinu.IcmpEndpoints
import Xinu.IcmpQueues
import Xinu.IpInput
import Xinu.Arp
import Xinu.ArpAnswers
import Xinu.UdpOwnership
import Xinu.NetStack
import Xinu.PacketLedger
import Xinu.PacketOwnership
import Xinu.Ports
import Xinu.PortLaws
import Xinu.PortQueues
import Xinu.PortSteps
import Xinu.PortResets
import Xinu.PortCreation
import Xinu.PortDelivery
import Xinu.PortCapacity
import Xinu.KernelCreations
import Xinu.Numerals
import Xinu.Formatting
import Xinu.NumberTexts
import Xinu.NumberFormats
import Xinu.Scanning
import Xinu.ScanInverse
import Xinu.StoredBytes
import Xinu.DottedAddresses
import Xinu.OnesComplement
import Xinu.Checksums
import Xinu.NameMapping
import Xinu.LineTokens
import Xinu.ShellCommands
import Xinu.DhcpOptions
import Xinu.DnsNames
import Xinu.DnsAnswers
import Xinu.DnsBounds
import Xinu.IndexBlocks
import Xinu.PoolSearch
import Xinu.LexerBounds
import Xinu.LoggedSteps
import Xinu.HashIndices
import Xinu.IndexSafety
import Xinu.KernelQueues
import Xinu.FutureQueues
import Xinu.RangeWorkers
import Xinu.ParallelSearch
import Xinu.ConcurrentOpens
import Xinu.WireTransfers
import Xinu.HeapRestoration
import Xinu.RandomNumbers
import Xinu.ImageChecksums
import Xinu.TakingTurns
