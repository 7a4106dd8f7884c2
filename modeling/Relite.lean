import Relite.Lib.Bytes
import Relite.Backend.Compact
import Relite.Backend.FrameLists
import Relite.Backend.PageRedo
import Relite.Lib.ChangeLog
import Relite.Lib.Run
import Relite.Lib.SortMerge
import Relite.Lib.FloatOrder
import Relite.Lib.FloatOfInt
import Relite.Lib.Keyed
import Relite.Lib.Program
import Relite.Backend.PinBalance
import Relite.Vm.PooledTables
import Relite.Index.PooledTree
import Relite.Vm.SharedStaging
import Relite.Vm.Value
import Relite.Vm.Number
import Relite.Vm.Tuple
import Relite.Index.IndexManager
import Relite.Index.Entries
import Relite.Frontend.Catalog
import Relite.Frontend.Ast
import Relite.Frontend.SemanticAnalyzer
import Relite.Frontend.StatementAnalyzer
import Relite.Frontend.RejectedStatements
import Relite.Frontend.Lexer
import Relite.Frontend.Parser
import Relite.Frontend.Connect
import Relite.Txn.LockManager
import Relite.Vm.ExpressionEval
import Relite.Vm.Rewrite
import Relite.Vm.RowIdentity
import Relite.Vm.Optimizer
import Relite.Vm.Join
import Relite.Vm.Aggregate
import Relite.Vm.AggregatePaths
import Relite.Vm.DataSkipping
import Relite.Vm.ParallelAggregate
import Relite.Vm.ColumnCache
import Relite.Vm.Views
import Relite.Vm.ImmutableHistory
import Relite.Vm.HeapRefinement
import Relite.Vm.LostUpdates
import Relite.Txn.LogFile
import Relite.Txn.TornLog
import Relite.Txn.RecoverTwice
import Relite.Vm.Db
import Relite.Vm.Ddl
import Relite.Vm.Executor
import Relite.Vm.RowSteps
import Relite.Vm.BuildAs
import Relite.Vm.DatedReads
import Relite.Vm.Calls
import Relite.Vm.Writes
import Relite.Vm.RowSpec
import Relite.Vm.ExecutorSpec
import Relite.Vm.Session
import Relite.Vm.WriteSpec
import Relite.Vm.Undo
import Relite.Vm.Atomicity
import Relite.Vm.Balance
import Relite.Vm.Handed
import Relite.Vm.LostRows
import Relite.Vm.IndexedRows
import Relite.Vm.IndexAgreement
import Relite.Vm.IndexRuns
import Relite.Vm.AccessPath
import Relite.Vm.IndexReads
import Relite.Vm.OwnColumns
import Relite.Vm.RowConstraints
import Relite.Vm.UniqueKeys
import Relite.Vm.StoredValues
import Relite.Backend.CachedPages
import Relite.Backend.PageRefinement
import Relite.Backend.PartialRedo
import Relite.Txn.LockTable
import Relite.Txn.RollbackRows
import Relite.Txn.Settled
import Relite.Txn.UndoRows
import Relite.Vm.Heap
import Relite.Vm.Snapshots
import Relite.Txn.Crash
import Relite.Txn.Cycles
import Relite.Vm.DroppedColumn
import Relite.Vm.CapturedIndexes
import Relite.Vm.GroupBy
import Relite.Frontend.Repl
import Relite.Lib.Separators
import Relite.Lib.PagedTree
import Relite.Index.DiskBPlusTree
import Relite.Index.HiddenKeys
import Relite.Index.BPlusTreeRuns
import Relite.Index.NodeSizes
import Relite.Lib.TextStream
import Relite.Vm.VersionFile
import Relite.Lib.RunMerge
import Relite.Vm.SpilledSort
import Relite.Vm.OuterJoin
import Relite.Vm.Subqueries
import Relite.Vm.Having
import Relite.Vm.AutoIncrement
import Relite.Vm.SortBy
import Relite.Lib.Descent
import Relite.Vm.Cascades
import Relite.Vm.TupleCodec
import Relite.Vm.ValueOrder
import Relite.Lib.Wildcard
import Relite.Vm.LikeMatch
import Relite.Vm.Expansions
import Relite.Lib.Ranks
import Relite.Vm.Window
import Relite.Vm.Ranking
import Relite.Lib.SignedOps
import Relite.Vm.IntegerRange
import Relite.Frontend.Printer
import Relite.Frontend.ReadBack
