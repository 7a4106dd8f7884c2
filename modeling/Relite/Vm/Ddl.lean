import Relite.Vm.Executor

/-!
# BUILD, DISCARD, TRUNCATE and RESHAPE

The statements that change tables as a whole, after their analysis: the catalog has the
table of a BUILD RELATION and no longer that of a DISCARD RELATION.
-/
namespace Relite.Vm
open Lib Semantic

structure CreateStatement where
  tableId : TableId
  asQuery : Option (Query (List Tuple)) := none

structure CreateIdxStatement where
  indexName : String
  tableId : TableId
  columnIndices : List Int

structure DropStatement where
  name : String
  tableId : TableId
  truncate : Bool := false
  isIndex : Bool := false
  isView : Bool := false

structure ColumnDefinition where
  name : String
  type : DataType
  varcharLength : Int := 0
  refTable : String := ""
  refColumn : String := ""
  refOnDelete : Action := .Restrict
  refOnUpdate : Action := .Restrict

inductive AlterKind
  | AddColumn (column : ColumnDefinition)
  | DropColumn (dropColumn : String)

structure AlterStatement where
  table : String
  tableId : TableId
  kind : AlterKind

namespace Exec

/-! ## BUILD -/

def createUnlessExists (tableId : TableId) (ts : TableSchema) (idxName : String)
    (columns : List Int) : Exec Unit := do
  let catalog := (← get).catalog
  if catalog.hasIndex idxName then return ()
  else
    let names := columns.map fun c => ((ts.columns[c.toNat]?).map ColumnSchema.name).getD ""
    call (.setCatalog (catalog.createIndex idxName ts.name names))
    call (.createIndex idxName tableId columns)

/-- The indexes that a new table has of itself. -/
def createKeyIndexes (tableId : TableId) (ts : TableSchema) : Exec Unit := do
  ts.columns.zipIdx.forM fun (col, i) => do
    if col.primaryKey || col.unique then
      createUnlessExists tableId ts ("__uq_" ++ ts.name ++ "_" ++ col.name) [(i : Int)]
  if 2 ≤ ts.primaryKey.length then
    createUnlessExists tableId ts ("__pk_" ++ ts.name) ts.primaryKey

/-- One round of the loop of `visit(CreateStatement)` over the rows of its query. -/
def buildRow (tableId : TableId) (schema : Schema) (idxs : List Index) (row : Tuple) :
    Exec Unit := do
  let bytes := row.serialize schema
  let rid ← Prog.perform (.insertTuple tableId bytes)
  addKeys (coveredKeys idxs row row) rid
  call (.stageInsert tableId rid bytes)

/-- The part of `visit(CreateStatement)` that fills the new table. -/
def buildRows (tableId : TableId) (q : Query (List Tuple)) : Exec ResultSet := do
  let schema := (← get).catalog.loadSchema tableId
  let rows ← query q
  let idxs := IndexManager.forTable (← get).indexes tableId
  rows.forM (buildRow tableId schema idxs)
  call .commitPending
  return { message := "BUILD RELATION AS (" ++ toString rows.length ++ " rows)" }

def visitCreate (node : CreateStatement) : Exec ResultSet := do
  call (.registerTable node.tableId)
  if let some ts := (← get).catalog.getTableById node.tableId then
    createKeyIndexes node.tableId ts
  match node.asQuery with
  | none => return { message := "BUILD RELATION" }
  | some q => buildRows node.tableId q

def visitCreateIdx (node : CreateIdxStatement) : Exec ResultSet := do
  let taken := (← get).indexes.any fun idx => idx.name = node.indexName
  call (.createIndex node.indexName node.tableId node.columnIndices)
  if !taken then
    let idx : Index :=
      { name := node.indexName, tableId := node.tableId, columns := node.columnIndices }
    let schema := (← get).catalog.loadSchema node.tableId
    (← scanRows node.tableId).forM fun row => do
      let (rid, t) ← ofExcept (deserializeRow schema row)
      addKeys (coveredKeys [idx] t t) rid
  return { message := "BUILD INDEX" }

/-! ## DISCARD and TRUNCATE -/

/-- One round of the loop of TRUNCATE over the rows of the table. -/
def truncateRow (tableId : TableId) (schema : Schema) (idxs : List Index)
    (row : RecordID × Bytes) : Exec Unit := do
  let (rid, t) ← ofExcept (deserializeRow schema row)
  removeKeys (coveredKeys idxs t t) rid
  call (.stageDelete tableId rid)

def visitTruncate (tableId : TableId) : Exec ResultSet := do
  let schema := (← get).catalog.loadSchema tableId
  discardOutsideTxn
  let idxs := IndexManager.forTable (← get).indexes tableId
  (← scanRows tableId).forM (truncateRow tableId schema idxs)
  call (.truncateTable tableId)
  commitOutsideTxn
  return { message := "TRUNCATE RELATION" }

def visitDrop (node : DropStatement) : Exec ResultSet := do
  if node.truncate then visitTruncate node.tableId
  else if node.isIndex then
    call (.dropIndex node.name)
    return { message := "DISCARD INDEX" }
  else if node.isView then return { message := "DISCARD VIEW" }
  else
    call (.dropTable node.tableId)
    call (.dropIndexes node.tableId)
    return { message := "DISCARD RELATION" }

/-! ## RESHAPE -/

/-- The position of the column that a RESHAPE takes away. -/
def dropIdx (ts : Option TableSchema) : AlterKind → Option Nat
  | .AddColumn _ => none
  | .DropColumn dropColumn =>
    ts.bind fun ts => ts.columns.findIdx? fun c => c.name = dropColumn

def newSchema (ts : Option TableSchema) (oldSchema : Schema) (kind : AlterKind) : Schema :=
  match kind with
  | .AddColumn column => oldSchema ++ [column.type]
  | .DropColumn _ => ((dropIdx ts kind).map oldSchema.eraseIdx).getD oldSchema

/-- A row with a null for the new column, or without the column that goes. -/
def reshapeRow (ts : Option TableSchema) (kind : AlterKind) (vals : Tuple) : Tuple :=
  match kind with
  | .AddColumn _ => vals ++ [.null]
  | .DropColumn _ => ((dropIdx ts kind).map vals.eraseIdx).getD vals

/-- The catalog after a RESHAPE. Of a new column it keeps the name and the type. -/
def reshapeCatalog (catalog : Catalog) (table : String) (columns : Nat) : AlterKind → Catalog
  | .AddColumn column =>
    let catalog := catalog.addColumn table
      { name := column.name, type := column.type, varcharLength := column.varcharLength }
    if column.refTable.isEmpty then catalog
    else
      catalog.addForeignKey table
        { columnIndex := columns - 1, refTable := column.refTable, refColumn := column.refColumn
          onDelete := column.refOnDelete, onUpdate := column.refOnUpdate }
  | .DropColumn dropColumn => catalog.dropColumn table dropColumn

def reshapeMessage : AlterKind → String
  | .AddColumn _ => "RESHAPE RELATION (ADD COLUMN)"
  | .DropColumn _ => "RESHAPE RELATION (DISCARD COLUMN)"

def visitAlter (node : AlterStatement) : Exec ResultSet := do
  let catalog := (← get).catalog
  let oldSchema := catalog.loadSchema node.tableId
  let ts := catalog.getTableById node.tableId
  let rows ← gatherRows node.tableId oldSchema none
  let schema := newSchema ts oldSchema node.kind
  call (.dropIndexes node.tableId)
  call (.dropTable node.tableId)
  call (.registerTable node.tableId)
  rows.forM fun row =>
    call (.insertTuple node.tableId ((reshapeRow ts node.kind row.2).serialize schema))
  call (.setCatalog (reshapeCatalog catalog node.table schema.length node.kind))
  return { message := reshapeMessage node.kind }

end Exec

end Relite.Vm
