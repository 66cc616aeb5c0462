import Datax.Keys.AddressedSpan
import Datax.Kvclient.AnchoredCommit
import Datax.Kvclient.OnePhaseSend
import Datax.Kvclient.RangeCache
import Datax.Kvclient.RecoverySoundness
import Datax.Kvclient.RefreshSpans
import Datax.Kvclient.SavepointExact
import Datax.Kvclient.SendScan
import Datax.Kvserver.ApplyOrder
import Datax.Kvserver.CatchupConsistency
import Datax.Kvserver.ClosedTsPromise
import Datax.Kvserver.GcRuns
import Datax.Kvserver.LatchIndex
import Datax.Kvserver.MergeAgreement
import Datax.Kvserver.MetaConvergence
import Datax.Kvserver.OnePhaseEquivalence
import Datax.Kvserver.ResentBatch
import Datax.Kvserver.SplitStoreRecovery
import Datax.Kvserver.StoreVoters
import Datax.Kvserver.TsCacheReads
import Datax.Kvserver.TxnFinality
import Datax.Server.Backup
import Datax.Server.Retention
import Datax.Sql.DecimalClosure
import Datax.Sql.DefaultGrants
import Datax.Sql.DescDrain
import Datax.Sql.IntArith
import Datax.Sql.IntervalLength
import Datax.Sql.JsonContains
import Datax.Sql.ReshardBackfill
import Datax.Sql.RoleGraph
import Datax.Sql.SequenceBlocks
import Datax.Sql.TupleKeys
import Datax.Storage.MvccKey
import Datax.Storage.MvccRepeat
import Datax.Storage.MvccSavepoints
import Datax.Storage.StoreKey
import Datax.Sql.Dml
import Datax.Sql.DmlChain
import Datax.Sql.DmlOutcome
import Datax.Sql.IndexExact
