import EmbeddedOs.Lib.Machine
import EmbeddedOs.Lib.SlotTable
import EmbeddedOs.Lib.RefMap
import EmbeddedOs.Lib.RefCount
import EmbeddedOs.Lib.Bytes
import EmbeddedOs.Lib.SlotMap
import EmbeddedOs.Lib.Paging
import EmbeddedOs.Lib.Ledger
import EmbeddedOs.Lib.Flags
import EmbeddedOs.Lib.NullArray
import EmbeddedOs.Lib.BitMap
import EmbeddedOs.Lib.BitRuns
import EmbeddedOs.Lib.Probe
import EmbeddedOs.Lib.BlockTree
import EmbeddedOs.Ddfs.DedupTable
import EmbeddedOs.Ddfs.DedupSearch
import EmbeddedOs.Ddfs.Threads
import EmbeddedOs.Ddfs.Interleaving
import EmbeddedOs.Ddfs.State
import EmbeddedOs.Ddfs.File
import EmbeddedOs.Ddfs.TableErrors
import EmbeddedOs.Ddfs.TableBuffers
import EmbeddedOs.Ddfs.DedupRefines
import EmbeddedOs.Ddfs.TableCounts
import EmbeddedOs.Ddfs.TableFlags
import EmbeddedOs.Ddfs.TableSearch
import EmbeddedOs.Ddfs.Statddfs
import EmbeddedOs.Ddfs.MkfsLayout
import EmbeddedOs.Ddfs.MkfsTable
import EmbeddedOs.Ddfs.MkfsDensity
import EmbeddedOs.Ddfs.FreeTotals
import EmbeddedOs.Ddfs.Acceptance
import EmbeddedOs.Ddfs.Steps
import EmbeddedOs.Ddfs.Runs
import EmbeddedOs.Ddfs.FailedWrites
import EmbeddedOs.Ddfs.WriteLoop
import EmbeddedOs.Ddfs.BlockPointers
import EmbeddedOs.Ddfs.ClearedBuffers
import EmbeddedOs.Ddfs.WriteAddress
import EmbeddedOs.Ddfs.RefCounts
import EmbeddedOs.Ddfs.Soundness
import EmbeddedOs.Ddfs.Isolation
import EmbeddedOs.Ddfs.OneCopy
import EmbeddedOs.Ddfs.Layout
import EmbeddedOs.Ddfs.ReadWrite
import EmbeddedOs.Ddfs.DelayedWrites
import EmbeddedOs.Ddfs.FreedBlocks
import EmbeddedOs.Ddfs.Settled
import EmbeddedOs.Ddfs.SettledRuns
import EmbeddedOs.Ddfs.ReadYourWrite
import EmbeddedOs.Ddfs.BlockMap
import EmbeddedOs.Ddfs.FragTables
import EmbeddedOs.Ddfs.CylinderGroup
import EmbeddedOs.Ddfs.MapSearch
import EmbeddedOs.Ddfs.ClusterSummary
import EmbeddedOs.Ddfs.GroupCounts
import EmbeddedOs.Ddfs.GroupAlloc
import EmbeddedOs.Ddfs.GroupTakes
import EmbeddedOs.Ddfs.GroupInvariant
import EmbeddedOs.Ddfs.GroupRequests
import EmbeddedOs.Ddfs.GroupFree
import EmbeddedOs.Ddfs.HashAlloc
import EmbeddedOs.Ddfs.FreeSpace
import EmbeddedOs.Ddfs.AllocCalls
import EmbeddedOs.Ddfs.ClusterAlloc
import EmbeddedOs.Ddfs.InodeMap
import EmbeddedOs.Ddfs.InodeCalls
import EmbeddedOs.Ddfs.GroupRuns
import EmbeddedOs.Ddfs.InitGroups
import EmbeddedOs.Ddfs.InitGood
import EmbeddedOs.Ddfs.InitLayout
import EmbeddedOs.Ddfs.InitFiles
import EmbeddedOs.Ddfs.FreshFs
import EmbeddedOs.Ddfs.FreeMaps
import EmbeddedOs.Ddfs.RoundTrips
import EmbeddedOs.Ddfs.IndirectTrunc
import EmbeddedOs.Ddfs.Shortened
import EmbeddedOs.Kvfs.Disk
import EmbeddedOs.Kvfs.Names
import EmbeddedOs.Kvfs.KeyNames
import EmbeddedOs.Kvfs.Vnops
import EmbeddedOs.Kvfs.Mount
import EmbeddedOs.Kvfs.Format
import EmbeddedOs.Kvfs.Mkkvfs
import EmbeddedOs.Kvfs.BlockSearch
import EmbeddedOs.Kvfs.Calls
import EmbeddedOs.Kvfs.Steps
import EmbeddedOs.Kvfs.Invariant
import EmbeddedOs.Kvfs.Consistency
import EmbeddedOs.Kvfs.Remount
import EmbeddedOs.Kvfs.Unlinked
import EmbeddedOs.Kvfs.Transfers
import EmbeddedOs.Kvfs.CopyLoops
import EmbeddedOs.Kvfs.HashRemoval
import EmbeddedOs.Kvfs.Namespace
import EmbeddedOs.Kvfs.Readdir
import EmbeddedOs.Kvfs.Listing
import EmbeddedOs.Kvfs.KeySlots
import EmbeddedOs.Kvfs.Sessions
import EmbeddedOs.Kvfs.Failures
import EmbeddedOs.Kvfs.FailureAtomicity
import EmbeddedOs.Kvfs.CrossMount
import EmbeddedOs.Kvfs.Addressing
import EmbeddedOs.Kvfs.ShortWrites
import EmbeddedOs.Kvfs.Times
import EmbeddedOs.Kvfs.MountResources
import EmbeddedOs.Ddfs.KeyStrings
import EmbeddedOs.Shell.Lexer
import EmbeddedOs.Shell.Commands
import EmbeddedOs.Shell.Redirection
import EmbeddedOs.Shell.Arguments
import EmbeddedOs.Shell.Bounds
