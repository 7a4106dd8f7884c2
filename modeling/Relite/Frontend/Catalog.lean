import Relite.Vm.Tuple
import Relite.Vm.TableManager
import Mathlib.Data.List.Nodup

/-!
# The catalog

The schemas of the tables. An expression is seen as the function that evaluates it on a
row.
-/
namespace Relite.Semantic
open Lib Vm

/-- What `evalExpression` makes of an expression. -/
abbrev Expression := Tuple → Value

def predicateTrue (e : Expression) (t : Tuple) : Bool := e t == .bool true

structure ColumnSchema where
  name : String
  type : DataType
  varcharLength : Int := 0
  notNull : Bool := false
  primaryKey : Bool := false
  unique : Bool := false
  autoIncrement : Bool := false
  hasDefault : Bool := false
  defaultValue : Value := .null
  checkExpr : Option Expression := none

inductive Action
  | Restrict
  | Cascade
  | SetNull
  deriving DecidableEq, Repr

structure ForeignKey where
  columnIndex : Int
  refTable : String
  refColumn : String
  onDelete : Action := .Restrict
  onUpdate : Action := .Restrict

structure TableSchema where
  tableId : TableId
  name : String
  columns : List ColumnSchema
  foreignKeys : List ForeignKey := []
  primaryKey : List Int := []

namespace TableSchema

def columnIndex (ts : TableSchema) (column : String) : Int :=
  match ts.columns.findIdx? fun c => c.name = column with
  | some i => i
  | none => -1

/-- The types of the columns, `schemaOf`. -/
def schema (ts : TableSchema) : Schema := ts.columns.map ColumnSchema.type

theorem getElem?_schema (ts : TableSchema) {c : ColumnSchema × Nat}
    (hc : c ∈ ts.columns.zipIdx) : ts.schema[c.2]? = some c.1.type := by
  have hget := List.mem_zipIdx_iff_getElem?.mp hc
  simp [schema, hget]

end TableSchema

structure IndexRef where
  name : String
  table : String
  columns : List String
  deriving DecidableEq, Repr

/-- The tables, in the order in which the map of them is walked, and the indexes. -/
structure Catalog where
  tables : List TableSchema
  nodup : (tables.map TableSchema.tableId).Nodup
  indexes : List IndexRef := []

namespace Catalog

def empty : Catalog where
  tables := []
  nodup := List.nodup_nil

def getTable (catalog : Catalog) (name : String) : Option TableSchema :=
  catalog.tables.find? fun ts => ts.name = name

def getTableById (catalog : Catalog) (tableId : TableId) : Option TableSchema :=
  catalog.tables.find? fun ts => ts.tableId = tableId

def allTables (catalog : Catalog) : List TableSchema := catalog.tables

/-- The schema that `loadSchema` finds: empty for an unknown table. -/
def loadSchema (catalog : Catalog) (tableId : TableId) : Schema :=
  ((catalog.getTableById tableId).map TableSchema.schema).getD []

theorem getTableById_of_mem {catalog : Catalog} {ts : TableSchema} (h : ts ∈ catalog.tables) :
    catalog.getTableById ts.tableId = some ts := by
  cases hc : catalog.getTableById ts.tableId with
  | none => simpa using List.find?_eq_none.mp hc ts h
  | some ts' =>
    have hid : ts'.tableId = ts.tableId := by simpa using List.find?_some hc
    rw [List.inj_on_of_nodup_map catalog.nodup (List.mem_of_find?_eq_some hc) h hid]

theorem loadSchema_of_mem {catalog : Catalog} {ts : TableSchema} (h : ts ∈ catalog.tables) :
    catalog.loadSchema ts.tableId = ts.schema := by
  rw [loadSchema, getTableById_of_mem h]
  rfl

/-! ## Changes of schemas -/

/-- `f` on the table of that name. -/
def onTable (catalog : Catalog) (name : String) (f : TableSchema → TableSchema)
    (hf : ∀ ts, (f ts).tableId = ts.tableId) : Catalog where
  tables := catalog.tables.map fun ts => if ts.name = name then f ts else ts
  nodup := by
    have hid : (catalog.tables.map fun ts => if ts.name = name then f ts else ts).map
        TableSchema.tableId = catalog.tables.map TableSchema.tableId := by
      rw [List.map_map]
      refine List.map_congr_left fun ts _ => ?_
      simp only [Function.comp_apply]
      split
      · exact hf ts
      · rfl
    exact hid ▸ catalog.nodup
  indexes := catalog.indexes

theorem ids_onTable (catalog : Catalog) (name : String) (f : TableSchema → TableSchema)
    (hf : ∀ ts, (f ts).tableId = ts.tableId) :
    (catalog.onTable name f hf).tables.map TableSchema.tableId =
      catalog.tables.map TableSchema.tableId := by
  simp only [onTable, List.map_map]
  refine List.map_congr_left fun ts _ => ?_
  simp only [Function.comp_apply]
  split
  · exact hf ts
  · rfl

section

variable {table : String} {f : TableSchema → TableSchema} {hf : ∀ ts, (f ts).tableId = ts.tableId}

theorem getTable_onTable (catalog : Catalog) (hname : ∀ ts, (f ts).name = ts.name) (name : String) :
    (catalog.onTable table f hf).getTable name =
      (catalog.getTable name).map fun ts => if ts.name = table then f ts else ts := by
  rw [getTable, onTable, List.find?_map, getTable]
  congr 1
  refine congrArg (List.find? · _) (funext fun ts => ?_)
  simp only [Function.comp_apply]
  split
  · rw [hname]
  · rfl

theorem getTableById_onTable (catalog : Catalog) (tableId : TableId) :
    (catalog.onTable table f hf).getTableById tableId =
      (catalog.getTableById tableId).map fun ts => if ts.name = table then f ts else ts := by
  rw [getTableById, onTable, List.find?_map, getTableById]
  congr 1
  refine congrArg (List.find? · _) (funext fun ts => ?_)
  simp only [Function.comp_apply]
  split
  · rw [hf]
  · rfl

end

def addColumn (catalog : Catalog) (table : String) (column : ColumnSchema) : Catalog :=
  catalog.onTable table (fun ts => { ts with columns := ts.columns ++ [column] }) fun _ => rfl

/-- The foreign keys after the column at `idx` is gone. -/
def dropForeignKeys (idx : Int) (fks : List ForeignKey) : List ForeignKey :=
  (fks.filter fun fk => fk.columnIndex ≠ idx).map fun fk =>
    if idx < fk.columnIndex then { fk with columnIndex := fk.columnIndex - 1 } else fk

def dropColumn (catalog : Catalog) (table column : String) : Catalog :=
  catalog.onTable table (fun ts =>
    let idx := ts.columnIndex column
    if idx < 0 then ts
    else { ts with
      columns := ts.columns.eraseIdx idx.toNat
      foreignKeys := dropForeignKeys idx ts.foreignKeys }) fun ts => by
    simp only
    split <;> rfl

def addForeignKey (catalog : Catalog) (table : String) (fk : ForeignKey) : Catalog :=
  catalog.onTable table (fun ts => { ts with foreignKeys := ts.foreignKeys ++ [fk] }) fun _ => rfl

def hasIndex (catalog : Catalog) (indexName : String) : Bool :=
  catalog.indexes.any fun idx => idx.name = indexName

def createIndex (catalog : Catalog) (indexName table : String) (columns : List String) : Catalog :=
  match catalog.getTable table with
  | none => catalog
  | some ts =>
    if catalog.hasIndex indexName || columns.isEmpty ||
        columns.any (fun c => decide (ts.columnIndex c < 0)) then catalog
    else { catalog with indexes := catalog.indexes ++ [⟨indexName, table, columns⟩] }

theorem tables_createIndex (catalog : Catalog) (name table : String)
    (columns : List String) : (catalog.createIndex name table columns).tables = catalog.tables := by
  unfold createIndex
  split
  · rfl
  split <;> rfl

def dropIndex (catalog : Catalog) (indexName : String) : Catalog :=
  { catalog with indexes := catalog.indexes.filter fun idx => idx.name ≠ indexName }

/-! ## Changes of the set of relations -/

def hasTable (catalog : Catalog) (name : String) : Bool := (catalog.getTable name).isSome

def addTable (catalog : Catalog) (ts : TableSchema)
    (hnew : ts.tableId ∉ catalog.tables.map TableSchema.tableId) : Catalog where
  tables := catalog.tables ++ [ts]
  nodup := by
    rw [List.map_append]
    exact List.Nodup.append catalog.nodup (List.nodup_singleton _) (by simpa using hnew)
  indexes := catalog.indexes

/-- The relation goes with the indexes on it. -/
def dropTable (catalog : Catalog) (name : String) : Catalog where
  tables := catalog.tables.filter fun ts => ts.name ≠ name
  nodup := catalog.nodup.sublist (List.filter_sublist.map _)
  indexes := catalog.indexes.filter fun idx => idx.table ≠ name

/-- The columns of the key are not null. -/
def setPrimaryKey (catalog : Catalog) (table : String) (columns : List Int) : Catalog :=
  catalog.onTable table (fun ts => { ts with
    primaryKey := columns
    columns := ts.columns.zipIdx.map fun (c, i) =>
      if (i : Int) ∈ columns then { c with notNull := true } else c }) fun _ => rfl

def setColumnCheckExpr (catalog : Catalog) (table : String) (columnIndex : Nat)
    (expr : Expression) : Catalog :=
  catalog.onTable table (fun ts => { ts with
    columns := ts.columns.modify columnIndex fun c => { c with checkExpr := some expr } })
    fun _ => rfl

end Catalog

end Relite.Semantic
