import Relite.Frontend.Catalog
import Relite.Index.IndexManager
import Relite.Lib.Program
import Relite.Txn.LockManager
import Relite.Txn.Rollback
import Relite.Vm.VersionStore

/-!
# The database under a session

The storage engine, the catalog, and the transaction manager with its log, its locks and
the undo closures of each active transaction. A statement is a program over the calls
that the executor makes on these.
-/
namespace Relite.Vm
open Lib Semantic Txn

/-- An undo closure with what it captures: keys by the name of their index. -/
inductive UndoClosure
  | insert (idxKeys : List (String × Value)) (tableId : TableId) (rid : RecordID)
  | delete (tableId : TableId) (bytes : Bytes) (idxKeys : List (String × Value))
  | update (tableId : TableId) (nr : RecordID) (oldBytes : Bytes)
      (oldKeys newKeys : List (String × Value))

structure Db where
  tables : TableManager
  indexes : IndexManager
  versions : VersionStore
  catalog : Catalog
  wal : WriteAheadLog
  locks : LockManager
  active : TxnId → Option (List UndoClosure)
  nextTxnId : TxnId
  currentTxn : TxnId

namespace Db

/-- A new database over the tables of a catalog. -/
def init (catalog : Catalog) (indexes : IndexManager) : Db where
  tables := .empty
  indexes := indexes
  versions := {}
  catalog := catalog
  wal := {}
  locks := {}
  active _ := none
  nextTxnId := 1
  currentTxn := 0

def txnActive (db : Db) : Bool := db.currentTxn != 0

end Db

/-! ## Undo -/

def UndoClosure.run (db : Db) : UndoClosure → Db
  | insert idxKeys _ rid =>
    { db with
      indexes := db.indexes.removeKeys idxKeys rid
      tables := (db.tables.eraseTuple rid).1 }
  | delete tableId bytes idxKeys =>
    let (tables, nr) := db.tables.insertTuple tableId bytes
    { db with tables := tables, indexes := db.indexes.addKeys idxKeys nr }
  | update tableId nr oldBytes oldKeys newKeys =>
    let indexes := db.indexes.removeKeys newKeys nr
    let (tables, rr) := (db.tables.eraseTuple nr).1.insertTuple tableId oldBytes
    { db with tables := tables, indexes := indexes.addKeys oldKeys rr }

/-- What the closure does to the heap. -/
def UndoClosure.heap : UndoClosure → Undo
  | insert _ _ rid => [.erase rid]
  | delete tableId bytes _ => [.insert tableId bytes]
  | update tableId nr oldBytes _ _ => [.erase nr, .insert tableId oldBytes]

/-! ## Calls -/

/-- The calls of the executor. -/
inductive Call
  | insertTuple (tableId : TableId) (bytes : Bytes)
  | updateTuple (tableId : TableId) (rid : RecordID) (bytes : Bytes)
  | eraseTuple (rid : RecordID)
  | indexAdd (name : String) (key : Value) (rid : RecordID)
  | indexRemove (name : String) (key : Value) (rid : RecordID)
  | stageInsert (tableId : TableId) (rid : RecordID) (bytes : Bytes)
  | stageDelete (tableId : TableId) (rid : RecordID)
  | discardPending
  | commitPending
  | lock (rid : RecordID) (mode : LockMode)
  | logInsert (tableId : TableId) (rid : RecordID) (afterImage : Bytes)
  | logDelete (tableId : TableId) (rid : RecordID) (beforeImage : Bytes)
  | registerUndo (undo : UndoClosure)
  | truncateTable (tableId : TableId)
  | dropTable (tableId : TableId)
  | registerTable (tableId : TableId)
  | dropIndexes (tableId : TableId)
  | createIndex (name : String) (tableId : TableId) (columns : List Int)
  | dropIndex (name : String)
  | setCatalog (catalog : Catalog)

namespace Call

/-- The effect of a call, with the record id that the inserting ones answer. -/
def apply (db : Db) : Call → Db × RecordID
  | insertTuple tableId bytes =>
    let (tables, rid) := db.tables.insertTuple tableId bytes
    ({ db with tables := tables }, rid)
  | updateTuple tableId rid bytes =>
    let (tables, rid) := db.tables.updateTuple tableId rid bytes
    ({ db with tables := tables }, rid)
  | eraseTuple rid => ({ db with tables := (db.tables.eraseTuple rid).1 }, {})
  | indexAdd name key rid => ({ db with indexes := db.indexes.add name key rid }, {})
  | indexRemove name key rid => ({ db with indexes := db.indexes.remove name key rid }, {})
  | stageInsert tableId rid bytes =>
    ({ db with versions := db.versions.stageInsert tableId rid bytes }, {})
  | stageDelete tableId rid => ({ db with versions := db.versions.stageDelete tableId rid }, {})
  | discardPending => ({ db with versions := db.versions.discardPending }, {})
  | commitPending => ({ db with versions := db.versions.commitPending }, {})
  | lock rid mode => ({ db with locks := db.locks.grant rid db.currentTxn mode }, {})
  | logInsert tableId rid afterImage =>
    let r : LogRecord := { txnId := db.currentTxn, type := .Insert, tableId, rid, afterImage }
    ({ db with wal := db.wal.append r }, {})
  | logDelete tableId rid beforeImage =>
    let r : LogRecord := { txnId := db.currentTxn, type := .Delete, tableId, rid, beforeImage }
    ({ db with wal := db.wal.append r }, {})
  | registerUndo undo =>
    let closures := (db.active db.currentTxn).map (· ++ [undo])
    ({ db with active := Function.update db.active db.currentTxn closures }, {})
  | truncateTable tableId => ({ db with tables := db.tables.truncateTable tableId }, {})
  | dropTable tableId => ({ db with tables := db.tables.dropTable tableId }, {})
  | registerTable tableId => ({ db with tables := db.tables.registerTable tableId }, {})
  | dropIndexes tableId => ({ db with indexes := db.indexes.dropTable tableId }, {})
  | createIndex name tableId columns =>
    ({ db with indexes := db.indexes.create name tableId columns }, {})
  | dropIndex name => ({ db with indexes := db.indexes.drop name }, {})
  | setCatalog catalog => ({ db with catalog := catalog }, {})

/-- The calls that change rows or index entries. -/
def writes : Call → Bool
  | insertTuple _ _ | updateTuple _ _ _ | eraseTuple _ | indexAdd _ _ _ | indexRemove _ _ _
  | truncateTable _ | dropTable _ | registerTable _
  | dropIndexes _ | createIndex _ _ _ | dropIndex _ => true
  | _ => false

end Call

/-- A statement, or a part of one. -/
abbrev Exec := Prog Db Call RecordID String

namespace Exec

def run {α : Type} (x : Exec α) (db : Db) : Except String α × Db :=
  Prog.run (fun c db => c.apply db) x db

end Exec

end Relite.Vm
