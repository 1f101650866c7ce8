import Miniob.Common.Seda.Interleavings
import Miniob.Common.Seda.TimerStage
import Miniob.Net.MysqlCommunicator
import Miniob.Net.PlainCommunicator
import Miniob.Sql.Executor.IndexRuns
import Miniob.Sql.Executor.RestartRuns
import Miniob.Sql.Executor.SessionSemantics
import Miniob.Sql.Operator.DeleteByIndex
import Miniob.Sql.Operator.IndexScan
import Miniob.Sql.Operator.QueryText
import Miniob.Sql.Operator.SelectRows
import Miniob.Sql.Optimizer.Pushdown
import Miniob.Sql.Optimizer.RewritePlan
import Miniob.Storage.BufferPool.AllocateEnds
import Miniob.Storage.BufferPool.AllocationFailure
import Miniob.Storage.BufferPool.FrameRefinement
import Miniob.Storage.BufferPool.PageBooks
import Miniob.Storage.Clog.DurableLog
import Miniob.Storage.Clog.LogNumbers
import Miniob.Storage.Common.IndexRefinement
import Miniob.Storage.Common.Redone
import Miniob.Storage.Default.LoadData
import Miniob.Storage.Index.CharsScan
import Miniob.Storage.Index.EvictedRuns
import Miniob.Storage.Index.FailedInsert
import Miniob.Storage.Index.NodeSearch
import Miniob.Storage.Index.ValidateSound
import Miniob.Storage.Meta.MetaJson
import Miniob.Storage.Record.PageSlots
import Miniob.Storage.Record.RecordMap
import Miniob.Storage.Record.RecordsValid
import Miniob.Storage.Record.RecoverPages
import Miniob.Storage.Record.Reopen
import Miniob.Storage.Trx.CommitEvicted
import Miniob.Storage.Trx.Isolation
import Miniob.Storage.Trx.Rollback
