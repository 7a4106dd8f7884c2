import Relite.Vm.Executor
import Relite.Vm.Heap

/-!
# The row steps of the executor

Whatever a statement does to a database, it does in steps that insert, erase or rewrite
one row, take a lock, or drop or commit what is staged (`RowStep`). Each step keeps the
database well formed (`Db.Ok`).
-/
namespace Relite.Vm
open Lib Semantic Txn

namespace Db

/-! ## The steps as functions -/

/-- Only a transaction takes locks, logs its changes and registers undo closures. -/
def grantInTxn (db : Db) (rid : RecordID) (mode : LockMode) : LockManager :=
  if db.txnActive then db.locks.grant rid db.currentTxn mode else db.locks

def logInTxn (db : Db) (records : List LogRecord) : WriteAheadLog :=
  if db.txnActive then records.foldl WriteAheadLog.append db.wal else db.wal

def undoInTxn (db : Db) (undo : UndoClosure) : TxnId → Option (List UndoClosure) :=
  if db.txnActive then
    Function.update db.active db.currentTxn ((db.active db.currentTxn).map (· ++ [undo]))
  else db.active

def insertRecord (db : Db) (tableId : TableId) (rid : RecordID) (afterImage : Bytes) : LogRecord :=
  { txnId := db.currentTxn, type := .Insert, tableId, rid, afterImage }

def deleteRecord (db : Db) (tableId : TableId) (rid : RecordID) (beforeImage : Bytes) : LogRecord :=
  { txnId := db.currentTxn, type := .Delete, tableId, rid, beforeImage }

def insertRow (db : Db) (tableId : TableId) (keys : List (String × Value)) (bytes : Bytes) : Db :=
  let (tables, rid) := db.tables.insertTuple tableId bytes
  { db with
    tables := tables
    indexes := db.indexes.addKeys keys rid
    versions := db.versions.stageInsert tableId rid bytes
    locks := db.grantInTxn rid .Exclusive
    wal := db.logInTxn [db.insertRecord tableId rid bytes]
    active := db.undoInTxn (.insert keys tableId rid) }

def eraseRow (db : Db) (tableId : TableId) (keys : List (String × Value)) (rid : RecordID)
    (bytes : Bytes) (staged : Bool) : Db :=
  { db with
    tables := (db.tables.eraseTuple rid).1
    indexes := db.indexes.removeKeys keys rid
    versions := if staged then db.versions.stageDelete tableId rid else db.versions
    wal := db.logInTxn [db.deleteRecord tableId rid bytes]
    active := db.undoInTxn (.delete tableId bytes keys) }

/-- The keys of a row that is rewritten: those removed, those added, and those that the
undo closure removes again. -/
structure RewriteKeys where
  old : List (String × Value)
  added : List (String × Value)
  new : List (String × Value)

def rewriteRow (db : Db) (tableId : TableId) (keys : RewriteKeys) (rid : RecordID)
    (oldBytes newBytes : Bytes) (staged : Bool) : Db :=
  let (tables, nr) := db.tables.updateTuple tableId rid newBytes
  { db with
    tables := tables
    indexes :=
      (db.indexes.removeKeys keys.old rid).addKeys keys.added nr
    versions :=
      if staged then (db.versions.stageDelete tableId rid).stageInsert tableId nr newBytes
      else db.versions
    locks := db.grantInTxn nr .Exclusive
    wal := db.logInTxn [db.deleteRecord tableId rid oldBytes, db.insertRecord tableId nr newBytes]
    active := db.undoInTxn (.update tableId nr oldBytes keys.old keys.new) }

def discardOutsideTxn (db : Db) : Db :=
  { db with versions := if db.txnActive then db.versions else db.versions.discardPending }

def commitOutsideTxn (db : Db) : Db :=
  { db with versions := if db.txnActive then db.versions else db.versions.commitPending }

end Db

/-! ## The steps of the executor -/

namespace Exec

variable {α : Type}

@[simp] theorem run_bind {β : Type} (x : Exec α) (f : α → Exec β) (db : Db) :
    Exec.run (Prog.bind x f) db =
      match Exec.run x db with
      | (.ok a, db') => Exec.run (f a) db'
      | (.error e, db') => (.error e, db') := by
  unfold Exec.run
  rw [Prog.run_bind]
  obtain ⟨outcome, db'⟩ := Prog.run (fun (c : Call) db => c.apply db) x db
  cases outcome <;> rfl

@[simp] theorem run_ret (a : α) (db : Db) : Exec.run (Prog.ret a : Exec α) db = (.ok a, db) := rfl

@[simp] theorem run_get (db : Db) : Exec.run Exec.get db = (.ok db, db) := rfl

@[simp] theorem run_perform (c : Call) (db : Db) :
    Exec.run (Prog.perform c : Exec RecordID) db = (.ok (c.apply db).2, (c.apply db).1) := rfl

@[simp] theorem run_call (c : Call) (db : Db) : Exec.run (call c) db = (.ok (), (c.apply db).1) := rfl

@[simp] theorem run_txnActive (db : Db) : Exec.run txnActive db = (.ok db.txnActive, db) := rfl

theorem run_addKeys (keys : List (String × Value)) (rid : RecordID) (db : Db) :
    Exec.run (addKeys keys rid) db =
      (.ok (), { db with indexes := db.indexes.addKeys keys rid }) := by
  induction keys generalizing db with
  | nil => rfl
  | cons k keys ih => exact ih _

theorem run_removeKeys (keys : List (String × Value)) (rid : RecordID) (db : Db) :
    Exec.run (removeKeys keys rid) db =
      (.ok (), { db with indexes := db.indexes.removeKeys keys rid }) := by
  induction keys generalizing db with
  | nil => rfl
  | cons k keys ih => exact ih _

/-- Whoever asks for a lock holds all locks there are. -/
theorem run_lockInTxn {db : Db} (h : db.locks.Only db.currentTxn) (rid : RecordID)
    (exclusive : Bool) :
    Exec.run (lockInTxn rid exclusive) db = (.ok (), { db with
      locks := db.grantInTxn rid (if exclusive then .Exclusive else .Shared) }) := by
  by_cases ht : db.currentTxn = 0
  · simp [lockInTxn, Db.grantInTxn, Db.txnActive, ht]
    rw [← ht]
  · simp [lockInTxn, lockOrThrow, Db.grantInTxn, Db.txnActive, ht, h.canGrant, Call.apply]

theorem run_insertRow {db : Db} (h : db.locks.Only db.currentTxn) (t : TableId) (idxs : List Index)
    (row : Tuple) (bytes : Bytes) :
    Exec.run (insertRow t idxs row bytes) db =
      (.ok (), db.insertRow t (coveredKeys idxs row row) bytes) := by
  by_cases ht : db.currentTxn = 0 <;>
    simp [insertRow, run_addKeys, lockOrThrow, h.canGrant, Call.apply, Db.insertRow,
      Db.grantInTxn, Db.logInTxn, Db.undoInTxn, Db.insertRecord, Db.txnActive, ht]

theorem run_eraseRow (db : Db) (t : TableId) (idxs : List Index) (rid : RecordID) (row : Tuple)
    (bytes : Bytes) (staged : Bool) :
    Exec.run (eraseRow t idxs rid row bytes staged) db =
      (.ok (), db.eraseRow t (coveredKeys idxs row row) rid bytes staged) := by
  by_cases ht : db.currentTxn = 0 <;> cases staged <;>
    simp [eraseRow, run_removeKeys, Call.apply, Db.eraseRow, Db.logInTxn, Db.undoInTxn,
      Db.deleteRecord, Db.txnActive, ht]

/-- The keys that `rewriteRow` works with. -/
def rewriteKeys (idxs : List Index) (old new : Tuple) : Db.RewriteKeys :=
  ⟨coveredKeys idxs old old, coveredKeys idxs new new, coveredKeys idxs old new⟩

theorem run_rewriteRow {db : Db} (h : db.locks.Only db.currentTxn) (t : TableId)
    (idxs : List Index) (rid : RecordID) (old new : Tuple) (schema : Schema) (staged : Bool) :
    Exec.run (rewriteRow t idxs rid old new schema staged) db =
      (.ok (), db.rewriteRow t (rewriteKeys idxs old new) rid (old.serialize schema)
        (new.serialize schema) staged) := by
  by_cases ht : db.currentTxn = 0 <;> cases staged <;>
    simp [rewriteRow, run_removeKeys, run_addKeys, lockInTxn, lockOrThrow, h.canGrant,
      Call.apply, Db.rewriteRow, Db.grantInTxn, Db.logInTxn, Db.undoInTxn, Db.deleteRecord,
      Db.insertRecord, Db.txnActive, ht, rewriteKeys]

theorem run_discardOutsideTxn (db : Db) :
    Exec.run discardOutsideTxn db = (.ok (), db.discardOutsideTxn) := by
  by_cases ht : db.currentTxn = 0 <;>
    simp [discardOutsideTxn, Db.discardOutsideTxn, Db.txnActive, ht, Call.apply]

theorem run_commitOutsideTxn (db : Db) :
    Exec.run commitOutsideTxn db = (.ok (), db.commitOutsideTxn) := by
  by_cases ht : db.currentTxn = 0 <;>
    simp [commitOutsideTxn, Db.commitOutsideTxn, Db.txnActive, ht, Call.apply]

end Exec

end Relite.Vm
