import Pintos.Machines
import Pintos.Lists
import Pintos.Synch
import Pintos.SynchSteps
import Pintos.Donation
import Pintos.Justification
import Pintos.Inversion
import Pintos.Scheduler
import Pintos.ReadyQueue
import Pintos.Queues
import Pintos.RunQueue
import Pintos.Alarm
import Pintos.Preemption
import Pintos.StrayReads
import Pintos.Wakeups
import Pintos.CondQueues
import Pintos.Blocks
import Pintos.Vm
import Pintos.Frames
import Pintos.Swap
import Pintos.PageFault
import Pintos.Residency
import Pintos.Overlaps
import Pintos.SwapSlots
import Pintos.Reclaim
import Pintos.LockBalance
import Pintos.Files
import Pintos.FileCounts
import Pintos.Descriptors
import Pintos.Assertions
import Pintos.Lifetimes
import Pintos.LifetimeCalls
import Pintos.LifetimeRuns
import Pintos.Executables
import Pintos.LinkedLists
import Pintos.FrameTable
import Pintos.Processes
import Pintos.Protocol
import Pintos.ProtocolCreator
import Pintos.ProtocolChild
import Pintos.ProtocolRuns
import Pintos.Calls
import Pintos.Executions
import Pintos.Waits
import Pintos.Semaphores
import Pintos.Locks
import Pintos.Paths
import Pintos.HeldLocks
import Pintos.Conditions
import Pintos.Signals
import Pintos.ListFamilies
import Pintos.HashTables
import Pintos.Malloc
import Pintos.FileSystem
import Pintos.Extents
import Pintos.Ledger
import Pintos.Inodes
import Pintos.Directories
import Pintos.Operations
import Pintos.Handles
import Pintos.Formats
import Pintos.Ownership
import Pintos.Persistence
import Pintos.Creation
import Pintos.Simulations
import Pintos.FileStore
import Pintos.Room
import Pintos.UserMemory
import Pintos.Traces
import Pintos.Scans
import Pintos.UserReads
import Pintos.CheckedReads
import Pintos.Strings
import Pintos.Stores
import Pintos.Arguments
import Pintos.CommandLines
import Pintos.Segments
import Pintos.InterruptQueues
import Pintos.Triples
import Pintos.Images
import Pintos.PageDirectories
import Pintos.Ustar
import Pintos.Fsutil
import Pintos.Arithmetic
import Pintos.Splices
import Pintos.ListSort
import Pintos.Nesting
import Pintos.Contents
import Pintos.FdMappings
import Pintos.OpenInodes
import Pintos.Palloc
import Pintos.Requests
import Pintos.SlotTables
import Pintos.DirectoryMaps
import Pintos.Copies
import Pintos.Bisections
import Pintos.Searches
import Pintos.Heaps
import Pintos.Sorting
import Pintos.Numerals
import Pintos.Printf
import Pintos.IntegerFormats
import Pintos.FormatStrings
import Pintos.Decimals
import Pintos.FieldWidths
import Pintos.Links
import Pintos.Partitions
import Pintos.ExitStatuses
import Pintos.Terminations
import Pintos.TerminationRuns
import Pintos.Rings
import Pintos.InterruptFifos
import Pintos.Calibration
import Pintos.Tokens
import Pintos.Random
import Pintos.KernelOptions
import Pintos.HashIterators
import Pintos.OrderedLists
import Pintos.FirstFit
import Pintos.PackedBitmaps
import Pintos.MemberNames
import Pintos.Archives
import Pintos.Extractions
import Pintos.Assembly
import Pintos.Switching
import Pintos.InterruptFrames
import Pintos.SyscallStubs
import Pintos.Serial
import Pintos.PartitionDevices
import Pintos.InterruptContexts
