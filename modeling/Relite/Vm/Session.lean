import Relite.Vm.ExecutorSpec
import Relite.Lib.Run

/-!
# Sessions

START, SAVE and UNDO, and runs of a session over one database. Every statement of a
session keeps the database well formed, whether it succeeds or throws.
-/
namespace Relite.Vm
open Lib Semantic Txn

inductive TransactionKind
  | Begin
  | Commit
  | Rollback
  deriving DecidableEq, Repr

namespace Db

/-- `TransactionManager::begin`. -/
def begin (db : Db) : Db × TxnId :=
  let id := db.nextTxnId
  ({ db with
      nextTxnId := id + 1
      active := Function.update db.active id (some [])
      wal := db.wal.append { txnId := id, type := .Begin } }, id)

/-- The end of a transaction: its last record, its locks and its closures. -/
def finish (db : Db) (txnId : TxnId) (type : LogType) : Db :=
  { db with
    wal := db.wal.append { txnId, type }
    locks := db.locks.unlockAll txnId
    active := Function.update db.active txnId none }

def commit (db : Db) (txnId : TxnId) : Db :=
  if (db.active txnId).isNone then db else db.finish txnId .Commit

/-- The loop of `TransactionManager::rollback` over the undo closures, last one first. -/
def runUndo (db : Db) (undo : List UndoClosure) : Db := undo.reverse.foldl UndoClosure.run db

def rollback (db : Db) (txnId : TxnId) : Db :=
  match db.active txnId with
  | none => db
  | some undo => (db.runUndo undo).finish txnId .Abort

/-- `visit(TransactionStatement)`, with the message it answers. -/
def visitTransaction (db : Db) : TransactionKind → Db × String
  | .Begin =>
    if db.currentTxn ≠ 0 then (db, "WARNING: already in a transaction")
    else
      let (db, id) := db.begin
      ({ db with currentTxn := id, versions := db.versions.beginSnapshot id }, "START")
  | .Commit =>
    if db.currentTxn = 0 then (db, "WARNING: no transaction in progress")
    else
      let tid := db.currentTxn
      let db := db.commit tid
      let versions := db.versions.commitPending.endSnapshot tid
      ({ db with currentTxn := 0, versions }, "SAVE")
  | .Rollback =>
    if db.currentTxn = 0 then (db, "WARNING: no transaction in progress")
    else
      let tid := db.currentTxn
      let db := db.rollback tid
      let versions := db.versions.discardPending.endSnapshot tid
      ({ db with currentTxn := 0, versions }, "UNDO")

end Db

/-- What a session sends. -/
inductive Request
  | change (s : Statement)
  | transaction (kind : TransactionKind)

/-- The database after a request; a statement that throws leaves what it has done. -/
def Db.execute (depth : Nat) (db : Db) : Request → Db
  | .change s => ((s.exec depth).run db).2
  | .transaction kind => (db.visitTransaction kind).1

/-! ## Undo closures -/

namespace UndoClosure

@[simp] theorem tables_run (db : Db) (u : UndoClosure) :
    (u.run db).tables = u.heap.foldl HeapUndo.apply db.tables := by
  cases u <;> rfl

/-- A closure changes tables and indexes only. -/
theorem run_eq (db : Db) (u : UndoClosure) :
    u.run db = { db with tables := (u.run db).tables, indexes := (u.run db).indexes } := by
  cases u <;> rfl

theorem shape_run (db : Db) (u : UndoClosure) :
    (u.run db).indexes.shape = db.indexes.shape := by
  cases u <;> simp [run]

theorem stored_run {db : Db} (h : Stored db.tables db.indexes db.catalog) {u : UndoClosure}
    (hu : db.Undoable u) : Stored (u.run db).tables (u.run db).indexes db.catalog := by
  cases u with
  | insert idxKeys t rid => exact (h.removeKeys idxKeys rid).erase rid
  | delete t bytes idxKeys => exact h.insert hu.2 hu.1 rfl
  | update t nr oldBytes oldKeys newKeys =>
    refine ((h.removeKeys newKeys nr).erase nr).insert ?_ hu.1 rfl
    simpa [IndexManager.KeysOf] using hu.2

end UndoClosure

namespace Db

theorem tables_runUndo (db : Db) (undo : List UndoClosure) :
    (db.runUndo undo).tables = Txn.rollback (undo.map UndoClosure.heap) db.tables := by
  have h : ∀ (l : List UndoClosure) (db : Db), (l.foldl UndoClosure.run db).tables =
      (l.map UndoClosure.heap).flatten.foldl HeapUndo.apply db.tables := by
    intro l
    induction l with
    | nil => exact fun _ => rfl
    | cons u l ih =>
      intro db
      simp only [List.foldl_cons, ih, UndoClosure.tables_run, List.map_cons, List.flatten_cons,
        List.foldl_append]
  rw [runUndo, h, Txn.rollback, List.map_reverse]

/-- What running closures leaves alone, and that it keeps tables and indexes together. -/
theorem foldl_run_spec (l : List UndoClosure) {db : Db} (h : Stored db.tables db.indexes db.catalog)
    (hl : ∀ u ∈ l, db.Undoable u) :
    ∃ tables indexes, l.foldl UndoClosure.run db = { db with tables := tables, indexes := indexes } ∧
      Stored tables indexes db.catalog ∧ indexes.shape = db.indexes.shape := by
  induction l generalizing db with
  | nil => exact ⟨db.tables, db.indexes, rfl, h, rfl⟩
  | cons u l ih =>
    have hrun := u.run_eq db
    have hshape := u.shape_run db
    have hstored := UndoClosure.stored_run h (hl u (by simp))
    rw [List.foldl_cons]
    generalize u.run db = db₁ at hrun hshape hstored
    obtain ⟨tables, indexes, he, hst, hsh⟩ := ih (by rw [hrun]; exact hstored)
      fun v hv => (hl v (by simp [hv])).congr hshape (by rw [hrun])
    refine ⟨tables, indexes, ?_, ?_, hsh.trans hshape⟩
    · rw [he, hrun]
    · rw [hrun] at hst
      exact hst

/-! ## Requests keep a database well formed -/

variable {db : Db}

theorem Ok.begin (h : db.Ok) (hout : db.currentTxn = 0) :
    (db.visitTransaction .Begin).1.Ok := by
  simp only [visitTransaction, hout, ne_eq, not_true_eq_false, if_false, Db.begin]
  have hpos := h.next_pos
  refine { h.toStored with
    only := (h.clear hout).only _
    clear := fun h₀ => absurd h₀ (by simp only; exact ne_of_gt hpos)
    next_pos := ?_
    active := fun id => ?_
    undoable := fun closures hc => ?_ }
  · exact Int.lt_add_one_of_le (le_of_lt hpos)
  · have := h.active id
    simp only [Function.update_apply]
    by_cases hid : id = db.nextTxnId
    · simp only [hid, if_true, Option.isSome_some, true_and, true_iff]
      exact ne_of_gt hpos
    · rw [if_neg hid, this, hout]
      tauto
  · simp only [Function.update_self, Option.some.injEq] at hc
    simp [← hc]

/-- Outside a transaction there are no locks and no closures. -/
theorem Ok.finish (h : db.Ok) (tables : TableManager) (indexes : IndexManager)
    (versions : VersionStore) (type : LogType) (hs : Stored tables indexes db.catalog) :
    Ok { db.finish db.currentTxn type with tables, indexes, versions, currentTxn := 0 } := by
  have hclear : (db.locks.unlockAll db.currentTxn).Clear := h.only.unlockAll
  refine { hs with
    only := hclear.only _
    clear := fun _ => hclear
    next_pos := h.next_pos
    active := fun id => ?_
    undoable := fun closures hc => ?_ }
  · have := h.active id
    simp only [Db.finish, Function.update_apply]
    grind
  · have := h.active 0
    simp only [Db.finish, Function.update_apply] at hc
    grind

theorem Ok.commit (h : db.Ok) : (db.visitTransaction .Commit).1.Ok := by
  by_cases hout : db.currentTxn = 0
  · simpa [visitTransaction, hout] using h
  have hactive := (h.active db.currentTxn).mpr ⟨rfl, hout⟩
  have hnone : ¬(db.active db.currentTxn).isNone := by
    simpa using Option.isSome_iff_ne_none.mp hactive
  simp only [visitTransaction, hout, if_false, Db.commit, hnone]
  exact h.finish db.tables db.indexes _ .Commit h.toStored

theorem Ok.rollback (h : db.Ok) : (db.visitTransaction .Rollback).1.Ok := by
  by_cases hout : db.currentTxn = 0
  · simpa [visitTransaction, hout] using h
  obtain ⟨undo, hundo⟩ :=
    Option.isSome_iff_exists.mp ((h.active db.currentTxn).mpr ⟨rfl, hout⟩)
  obtain ⟨tables, indexes, he, hst, -⟩ := foldl_run_spec undo.reverse h.toStored
    fun u hu => h.undoable undo hundo u (by simpa using hu)
  simp only [visitTransaction, hout, if_false, Db.rollback, hundo, runUndo, he]
  exact h.finish tables indexes _ .Abort hst

/-- The rules of no further property. -/
def okRules : RowRules where
  Start _ := True
  Inv _ := True
  Seen _ _ _ _ := True
  Given _ _ _ := True
  start_lock _ _ _ _ := trivial
  start _ _ := trivial
  seen_heap _ _ _ := trivial
  step _ _ _ := ⟨trivial, fun _ _ _ _ h => h⟩

theorem Ok.init (catalog : Catalog) {indexes : IndexManager}
    (hnames : (indexes.shape.map Prod.fst).Nodup) (hempty : ∀ idx ∈ indexes, idx.tree = []) :
    (Db.init catalog indexes).Ok where
  tables := TableManager.wf_empty
  canonical t rid b hb := by simp [Db.init, TableManager.empty, TableManager.heap,
    TableManager.pageList] at hb
  indexed t rid h := by
    obtain ⟨idx, hidx, key, hkey⟩ := h
    rw [hempty idx (IndexManager.mem_forTable.mp hidx).1] at hkey
    cases hkey
  names := hnames
  only := LockManager.Clear.only (fun _ => rfl) _
  clear _ _ := rfl
  next_pos := Int.one_pos
  active id := by simp only [Db.init, Option.isSome_none, Bool.false_eq_true, false_iff]; tauto
  undoable closures hc := by cases hc

theorem Ok.execute (h : db.Ok) (depth : Nat) (r : Request) : (db.execute depth r).Ok := by
  cases r with
  | change s =>
    exact (s.exec_keeps (R := okRules) depth h trivial (.of_forall (fun _ _ _ => trivial) _ _ _)).1.ok
  | transaction kind =>
    cases kind with
    | Begin =>
      by_cases hout : db.currentTxn = 0
      · exact h.begin hout
      · simpa [Db.execute, visitTransaction, hout] using h
    | Commit => exact h.commit
    | Rollback => exact h.rollback

/-- A run of a session keeps the database well formed. -/
theorem Ok.run (h : db.Ok) (depth : Nat) (requests : List Request) :
    (Lib.run (Db.execute depth) db requests).Ok := by
  induction requests generalizing db with
  | nil => exact h
  | cons r requests ih => exact ih (h.execute depth r)

end Db

/-- In a run of statements that meet the condition of the rules, what they are about holds in
every state. -/
theorem RowRules.start_run {R : RowRules} (hlate : ∀ db, R.Inv db → R.Start db)
    (hcommit : ∀ db, R.Inv db → R.Start db.commitOutsideTxn) (depth : Nat) {db : Db} (hok : db.Ok)
    (hstart : R.Start db) {statements : List Statement}
    (hmeets : AllSteps (fun db s => db.execute depth (.change s))
      (fun db s => s.Meets R.Given depth db) db statements) :
    AllStates (fun db s => db.execute depth (.change s)) R.Start db statements := by
  refine (run_invariant (fun db => db.Ok ∧ R.Start db) ?_ ⟨hok, hstart⟩ hmeets).imp fun _ h => h.2
  rintro db s ⟨hok, hstart⟩ hmeets
  exact ⟨hok.execute depth (.change s), R.start_exec hlate hcommit depth s hok hstart hmeets⟩

/-! ## A database to try out -/

/-- A table of one column of integers. -/
def numbers : TableSchema where
  tableId := 1
  name := "t"
  columns := [{ name := "a", type := .Int }]

/-- A new database with this table, without indexes. -/
def numbersDb : Db := .init { tables := [numbers], nodup := by simp } []

def Statement.put (values : List Int64) : Statement :=
  .insert { tableId := 1, rows := values.map fun n => [fun _ => .int n] }

/-- REMOVE without a WHEN clause. -/
def Statement.removeAll : Statement := .delete { tableId := 1 }

theorem ok_numbersDb : numbersDb.Ok := Db.Ok.init _ (by simp [IndexManager.shape]) (by simp)

end Relite.Vm
