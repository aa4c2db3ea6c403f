import Cplusplus.Proofs.AofFlushRuns
import Cplusplus.Proofs.AofRewriteRuns
import Cplusplus.Proofs.AofRuns
import Cplusplus.Proofs.AofTruncated
import Cplusplus.Proofs.BacklogRuns
import Cplusplus.Proofs.BinarytreeInsertion
import Cplusplus.Proofs.BitopBytes
import Cplusplus.Proofs.BlockedQueue
import Cplusplus.Proofs.BlockingDelivery
import Cplusplus.Proofs.BulkTransferEnd
import Cplusplus.Proofs.ClusterBusReads
import Cplusplus.Proofs.ClusterCollisions
import Cplusplus.Proofs.ClusterElections
import Cplusplus.Proofs.ClusterFailureQuorum
import Cplusplus.Proofs.ClusterGraphRuns
import Cplusplus.Proofs.ClusterRouted
import Cplusplus.Proofs.CommandKeysBounds
import Cplusplus.Proofs.CounterExact
import Cplusplus.Proofs.ExpireTimesExact
import Cplusplus.Proofs.FtpRoundTrips
import Cplusplus.Proofs.FtpdData
import Cplusplus.Proofs.FtpdSessions
import Cplusplus.Proofs.FullResyncOffsets
import Cplusplus.Proofs.GlobResults
import Cplusplus.Proofs.HashRingKeys
import Cplusplus.Proofs.HllAccepted
import Cplusplus.Proofs.HllDenseSum
import Cplusplus.Proofs.InlineRuns
import Cplusplus.Proofs.LexRanges
import Cplusplus.Proofs.RdbStrings
import Cplusplus.Proofs.MemtollExact
import Cplusplus.Proofs.MinicrtPrintf
import Cplusplus.Proofs.MinicrtRuns
import Cplusplus.Proofs.MinicrtStartup
import Cplusplus.Proofs.MoveRenameKeys
import Cplusplus.Proofs.OutputStream
import Cplusplus.Proofs.Propagation
import Cplusplus.Proofs.PubsubRuns
import Cplusplus.Proofs.RandomKeyTermination
import Cplusplus.Proofs.ReadOnlySlaveRuns
import Cplusplus.Proofs.RewriteRebuilds
import Cplusplus.Proofs.SentinelElection
import Cplusplus.Proofs.SetCommands
import Cplusplus.Proofs.SlotIndexAgree
import Cplusplus.Proofs.SortKeys
import Cplusplus.Proofs.SortSlices
import Cplusplus.Proofs.SrandmemberCounts
import Cplusplus.Proofs.StringObjectOrder
import Cplusplus.Proofs.StringSizes
import Cplusplus.Proofs.TransactionErrors
import Cplusplus.Proofs.TribAllocPlan
import Cplusplus.Proofs.TribReshardPlan
import Cplusplus.Proofs.WaitReplicasCount
import Cplusplus.Proofs.ZaddExact
import Cplusplus.Proofs.ZiplistInsert
import Cplusplus.Proofs.ZipmapRuns
import Cplusplus.Proofs.ZunionInterAgree
