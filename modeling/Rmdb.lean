import Rmdb.Analyze.Clause
import Rmdb.Common.Datetime
import Rmdb.Execution.Atomic
import Rmdb.Execution.IndexScan
import Rmdb.Execution.Insert
import Rmdb.Execution.KeyOrder
import Rmdb.Execution.Mirror
import Rmdb.Execution.OneRel
import Rmdb.Execution.OrderBy
import Rmdb.Execution.Exact
import Rmdb.Execution.Select
import Rmdb.Execution.Sum
import Rmdb.Index.NodePage
import Rmdb.Index.RangeScan
import Rmdb.Parser.Request
import Rmdb.Record.FreeList
import Rmdb.Record.HeapMap
import Rmdb.Recovery.Chain
import Rmdb.Recovery.Epochs
import Rmdb.Recovery.Rebuild
import Rmdb.Recovery.Scans
import Rmdb.Recovery.Ddl
import Rmdb.Recovery.LogManager
import Rmdb.Server.Release
import Rmdb.Server.Response
import Rmdb.Storage.Contents
import Rmdb.Storage.DiskManager
import Rmdb.Storage.Frames
import Rmdb.Storage.Replacer
import Rmdb.Storage.Residents
import Rmdb.System.Consistent
import Rmdb.System.IndexFile
import Rmdb.System.IndexNames
import Rmdb.Transaction.Abort
import Rmdb.Transaction.LockManager
import Rmdb.Transaction.Isolation
import Rmdb.Transaction.Rollback
import Rmdb.Transaction.Strict
import Rmdb.Transaction.WriteAhead
