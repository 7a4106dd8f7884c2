import Relite.Frontend.SemanticAnalyzer
import Relite.Lib.Program
import Relite.Vm.ExpressionEval

/-!
# The analysis of statements

The analyzer checks a statement against the catalog, and in the same pass makes the changes
of BUILD and DISCARD to it. What the analysis of a query says is a parameter of the query; it
reads the relations with the names and types of their columns, and changes nothing.
-/
namespace Relite.Semantic
open Lib Vm

/-- What a query finds in the catalog: relations, and names and types of columns. -/
abbrev Signature := List (String × List (String × DataType))

def TableSchema.signature (ts : TableSchema) : String × List (String × DataType) :=
  (ts.name, ts.columns.map fun c => (c.name, c.type))

def Catalog.signature (catalog : Catalog) : Signature := catalog.tables.map TableSchema.signature

end Relite.Semantic

namespace Relite.Parser
open Lib Vm
open Semantic hiding Expression

/-- An element of a FETCH list by its column, or by the name of its aggregate function. -/
structure SelectItem where
  name : String
  aliasName : String := ""

structure SelectStatement where
  selectStar : Bool
  table : String
  joinTable : String := ""
  columns : List SelectItem := []
  aggregates : List SelectItem := []
  /-- The types of the columns and of the aggregates, as far as they are resolved. -/
  accept : Signature → Except String (List (Option DataType) × List (Option DataType))

/-- A CHECK; the subqueries in it are analysed along with it. -/
structure Check where
  expr : Expression
  subqueries : Signature → Except String Unit := fun _ => .ok ()

structure ColumnDefinition where
  name : String
  type : DataType := .Int
  varcharLength : Int := 0
  refTable : String := ""
  refColumn : String := ""
  refOnDelete : Action := .Restrict
  refOnUpdate : Action := .Restrict
  notNull : Bool := false
  primaryKey : Bool := false
  unique : Bool := false
  autoIncrement : Bool := false
  hasDefault : Bool := false
  defaultValue : Value := .null
  checkExpr : Option Check := none

structure CreateStatement where
  table : String
  columns : List ColumnDefinition := []
  primaryKeyColumns : List String := []
  asQuery : Option SelectStatement := none

structure CreateIdxStatement where
  indexName : String
  table : String
  columns : List String

structure CreateViewStatement where
  name : String
  query : Option SelectStatement
  source : Bytes := []

structure DropStatement where
  name : String
  truncate : Bool := false
  isIndex : Bool := false
  isView : Bool := false

inductive AlterKind
  | AddColumn (column : ColumnDefinition)
  | DropColumn (dropColumn : String)

structure AlterStatement where
  table : String
  kind : AlterKind

/-- The statements. Those that work on rows, queries and START, SAVE and UNDO among them, are
seen by what their analysis says. -/
inductive Statement
  | create (node : CreateStatement)
  | createIdx (node : CreateIdxStatement)
  | createView (node : CreateViewStatement)
  | drop (node : DropStatement)
  | alter (node : AlterStatement)
  | rows (accept : Semantic.Catalog → Except String Unit)

mutual

/-- The error with which `expressionToString` refuses an expression. -/
def unprintable : Expression → Option String
  | .literal _ | .column _ | .subquery _ _ => none
  | .binary _ l r | .logical _ l r | .arithmetic _ l r => (unprintable l).or (unprintable r)
  | .not operand | .isNull operand _ | .cast operand _ => unprintable operand
  | .inList v items _ => (unprintable v).or (unprintableAny items)
  | .inSubquery _ _ _ => some "subquery not allowed in CHECK"
  | .between v lo hi _ => ((unprintable v).or (unprintable lo)).or (unprintable hi)
  | .like v pattern _ => (unprintable v).or (unprintable pattern)
  | .call _ args => unprintableAny args
  | .case branches none => unprintableBranch branches
  | .case branches (some e) => (unprintableBranch branches).or (unprintable e)
  | .aggregate .. => some "unsupported expression in CHECK constraint"

def unprintableAny : List Expression → Option String
  | [] => none
  | e :: es => (unprintable e).or (unprintableAny es)

def unprintableBranch : List (Expression × Expression) → Option String
  | [] => none
  | (cond, value) :: branches =>
    ((unprintable cond).or (unprintable value)).or (unprintableBranch branches)

end

end Relite.Parser

namespace Relite.Semantic
open Lib Vm

/-- A view, among the relations of the catalog. -/
structure ViewRef where
  name : String
  viewQuery : Parser.SelectStatement
  viewSource : Bytes

/-- The catalog with its views and the id of the next relation, which no relation has. -/
structure Relations where
  catalog : Catalog
  views : List ViewRef := []
  nextTableId : TableId
  fresh : ∀ ts ∈ catalog.tables, ts.tableId < nextTableId

namespace Relations

variable (relations : Relations)

def isView (name : String) : Bool := relations.views.any fun v => v.name = name

def newTable (name : String) (columns : List ColumnSchema) : TableSchema :=
  { tableId := relations.nextTableId, name, columns }

theorem newTable_new (name : String) (columns : List ColumnSchema) :
    (relations.newTable name columns).tableId ∉
      relations.catalog.tables.map TableSchema.tableId := by
  intro h
  obtain ⟨ts, hts, hid⟩ := List.mem_map.mp h
  exact absurd hid (ne_of_lt (relations.fresh ts hts))

/-- A relation that is there already is not made anew. -/
def createTable (name : String) (columns : List ColumnSchema) : Relations :=
  if relations.catalog.hasTable name then relations
  else
    { relations with
      catalog := relations.catalog.addTable (relations.newTable name columns)
        (relations.newTable_new name columns)
      nextTableId := relations.nextTableId + 1
      fresh := fun ts hts => by
        rcases List.mem_append.mp hts with h | h
        · exact (relations.fresh ts h).trans (Int.lt_succ _)
        · rw [List.mem_singleton.mp h]
          exact Int.lt_succ _ }

def createView (name : String) (columns : List ColumnSchema) (query : Parser.SelectStatement)
    (source : Bytes) : Relations :=
  if relations.catalog.hasTable name then relations
  else
    { relations.createTable name columns with
      views := relations.views ++ [⟨name, query, source⟩] }

def dropTable (name : String) : Relations where
  catalog := relations.catalog.dropTable name
  views := relations.views.filter fun v => v.name ≠ name
  nextTableId := relations.nextTableId
  fresh ts hts := relations.fresh ts (List.mem_of_mem_filter hts)

/-- Changes inside the tables of the catalog. -/
def onCatalog (catalog : Catalog)
    (hids : catalog.tables.map TableSchema.tableId =
      relations.catalog.tables.map TableSchema.tableId) : Relations :=
  { relations with
    catalog
    fresh := fun ts hts => by
      obtain ⟨ts', hts', hid⟩ := List.mem_map.mp (hids ▸ List.mem_map_of_mem hts)
      rw [← hid]
      exact relations.fresh ts' hts' }

end Relations

/-- The changes that the analyzer makes to the catalog. -/
inductive CatalogCall
  | createTable (name : String) (columns : List ColumnSchema)
  | setPrimaryKey (table : String) (columns : List Int)
  | addForeignKey (table : String) (fk : ForeignKey)
  | bindCheck (table : String) (columnIndex : Nat) (expr : Expression)
  | createIndex (indexName table : String) (columns : List String)
  | dropIndex (indexName : String)
  | dropTable (name : String)
  | createView (name : String) (columns : List ColumnSchema) (query : Parser.SelectStatement)
      (source : Bytes)

/-- The catalog after a change, and the id that a new relation gets. -/
def CatalogCall.apply (relations : Relations) : CatalogCall → Relations × TableId
  | createTable name columns => (relations.createTable name columns, relations.nextTableId)
  | setPrimaryKey table columns =>
    (relations.onCatalog (relations.catalog.setPrimaryKey table columns)
      (Catalog.ids_onTable _ _ _ _), -1)
  | addForeignKey table fk =>
    (relations.onCatalog (relations.catalog.addForeignKey table fk)
      (Catalog.ids_onTable _ _ _ _), -1)
  | bindCheck table columnIndex expr =>
    (relations.onCatalog (relations.catalog.setColumnCheckExpr table columnIndex expr)
      (Catalog.ids_onTable _ _ _ _), -1)
  | createIndex indexName table columns =>
    (relations.onCatalog (relations.catalog.createIndex indexName table columns)
      (by rw [Catalog.tables_createIndex]), -1)
  | dropIndex indexName =>
    (relations.onCatalog (relations.catalog.dropIndex indexName) rfl, -1)
  | dropTable name => (relations.dropTable name, -1)
  | createView name columns query source =>
    (relations.createView name columns query source, relations.nextTableId)

end Relite.Semantic

namespace Relite.SemanticAnalyzer
open Lib Vm Relite.Parser
open Semantic hiding Expression

abbrev Analysis := Prog Relations CatalogCall TableId String

namespace Analysis

variable {α : Type}

def run (x : Analysis α) (relations : Relations) : Except String α × Relations :=
  Prog.run (fun c relations => c.apply relations) x relations

def throw (message : String) : Analysis α := Prog.throw message

def ofExcept : Except String α → Analysis α
  | .ok a => Prog.ret a
  | .error message => Prog.throw message

def catalog : Analysis Catalog := do return (← Prog.get).catalog

def call (c : CatalogCall) : Analysis TableId := Prog.perform c

end Analysis

open Analysis

def unknownTable (name : String) : String := "unknown table '" ++ name ++ "'"

def unknownColumn (column table : String) : String :=
  "unknown column '" ++ column ++ "' in table '" ++ table ++ "'"

/-- The names of the FETCH list: `colN` for what has none. -/
def itemNames : Nat → List SelectItem → List String
  | _, [] => []
  | anon, item :: items =>
    if item.aliasName ≠ "" then item.aliasName :: itemNames anon items
    else if item.name ≠ "" then item.name :: itemNames anon items
    else ("col" ++ toString anon) :: itemNames (anon + 1) items

/-- The columns of the relations that a FETCH * answers; joins after the first are left out. -/
def starColumns (catalog : Catalog) (q : SelectStatement) : List ColumnSchema :=
  ((catalog.getTable q.table).map TableSchema.columns).getD [] ++
    if q.joinTable ≠ "" then ((catalog.getTable q.joinTable).map TableSchema.columns).getD [] else []

/-- Names and types of the FETCH list. -/
def listColumns (q : SelectStatement) (types : List (Option DataType) × List (Option DataType)) :
    List (String × DataType) :=
  (itemNames 0 q.columns).zip (types.1.map fun type => type.getD .Text) ++
    (q.aggregates.map fun fn => if fn.aliasName ≠ "" then fn.aliasName else fn.name).zip
      (types.2.map fun type => type.getD .Int)

/-- The columns of a BUILD RELATION, those of its query if it has one. -/
def createColumns (catalog : Catalog) (node : CreateStatement) :
    Except String (List ColumnDefinition) := do
  match node.asQuery with
  | none => return node.columns
  | some q =>
    let types ← q.accept catalog.signature
    let columns : List ColumnDefinition :=
      if q.selectStar then (starColumns catalog q).map fun c =>
        { name := c.name, type := c.type, varcharLength := c.varcharLength }
      else (listColumns q types).map fun (name, type) => { name, type }
    check (!columns.isEmpty) "BUILD RELATION AS produced no columns"
    return columns

def defaultMatchesColumn (v : Value) (col : DataType) : Bool :=
  match v with
  | .int _ => col = .Int || col = .Float
  | .double _ => col = .Float
  | .bool _ => col = .Bool
  | .text _ => isStringType col
  | .null => true

def columnSchema (table : String) (seen : List String) (sawPrimaryKey : Bool)
    (col : ColumnDefinition) : Except String ColumnSchema := do
  check (!seen.contains col.name)
    ("duplicate column '" ++ col.name ++ "' in table '" ++ table ++ "'")
  check (!(col.type = .Varchar && decide (col.varcharLength ≤ 0)))
    ("VARCHAR length must be positive for column '" ++ col.name ++ "'")
  check (!(col.primaryKey && sawPrimaryKey))
    ("table '" ++ table ++ "' has more than one PRIMARY KEY")
  check (!(col.hasDefault && !defaultMatchesColumn col.defaultValue col.type))
    ("DEFAULT value type mismatch for column '" ++ col.name ++ "'")
  check (!((col.notNull || col.primaryKey) && col.hasDefault && col.defaultValue.isNull))
    ("column '" ++ col.name ++ "' is NOT NULL but has a NULL default")
  check (!(col.autoIncrement && col.type ≠ .Int)) "AUTO_INCREMENT requires an INT column"
  match col.checkExpr.bind fun c => unprintable c.expr with
  | some message => throw message
  | none => pure ()
  return {
    name := col.name
    type := col.type
    varcharLength := col.varcharLength
    notNull := col.notNull || col.primaryKey
    primaryKey := col.primaryKey
    unique := col.unique || col.primaryKey
    autoIncrement := col.autoIncrement
    hasDefault := col.hasDefault
    defaultValue := col.defaultValue
    checkExpr := col.checkExpr.map fun c => evalExpression c.expr }

def columnSchemas (table : String) (seen : List String) (sawPrimaryKey : Bool) :
    List ColumnDefinition → Except String (List ColumnSchema)
  | [] => .ok []
  | col :: rest => do
    let c ← columnSchema table seen sawPrimaryKey col
    let cs ← columnSchemas table (col.name :: seen) (sawPrimaryKey || col.primaryKey) rest
    return c :: cs

/-- The positions of the columns of a key. -/
def keyColumns (self : Option TableSchema) (seen : List String) :
    List String → Except String (List Int)
  | [] => .ok []
  | name :: rest => do
    check (!seen.contains name) ("duplicate column '" ++ name ++ "' in PRIMARY KEY")
    let idx := (self.map fun ts => ts.columnIndex name).getD (-1)
    check (decide (0 ≤ idx)) ("unknown column '" ++ name ++ "' in PRIMARY KEY")
    let idxs ← keyColumns self (name :: seen) rest
    return idx :: idxs

def checkReference (catalog : Catalog) (col : ColumnDefinition) : Except String Unit := do
  match catalog.getTable col.refTable with
  | none => throw ("foreign key references unknown table '" ++ col.refTable ++ "'")
  | some parent =>
    let pidx := parent.columnIndex col.refColumn
    check (decide (0 ≤ pidx)) ("foreign key references unknown column '" ++ col.refColumn ++
      "' in table '" ++ col.refTable ++ "'")
    check ((typeAt parent pidx).any (comparable col.type))
      ("foreign key type mismatch for column '" ++ col.name ++ "'")

def addReference (table : String) (col : ColumnDefinition × Nat) : Analysis Unit := do
  if col.1.refTable = "" then return ()
  else
    ofExcept (checkReference (← catalog) col.1)
    let _ ← call (.addForeignKey table
      { columnIndex := col.2, refTable := col.1.refTable, refColumn := col.1.refColumn
        onDelete := col.1.refOnDelete, onUpdate := col.1.refOnUpdate })

/-- The expression with its columns bound. -/
def boundCheck (catalog : Catalog) (table : String) (c : Check) :
    Except String Parser.Expression := do
  match catalog.getTable table with
  | none => throw ("unknown table '" ++ table ++ "' for CHECK")
  | some ts =>
    c.subqueries catalog.signature
    bindExpression ts c.expr

def bindCheck (table : String) (col : ColumnDefinition × Nat) : Analysis Unit := do
  match col.1.checkExpr with
  | none => return ()
  | some c =>
    let e ← ofExcept (boundCheck (← catalog) table c)
    let _ ← call (.bindCheck table col.2 (evalExpression e))

def addPrimaryKey (node : CreateStatement) : Analysis Unit := do
  if node.primaryKeyColumns = [] then return ()
  else
    let pk ← ofExcept (keyColumns ((← catalog).getTable node.table) [] node.primaryKeyColumns)
    let _ ← call (.setPrimaryKey node.table pk)

/-- What is checked before the relation is made. -/
def checkCreate (catalog : Catalog) (node : CreateStatement) :
    Except String (List ColumnDefinition × List ColumnSchema) := do
  check (!catalog.hasTable node.table) ("table '" ++ node.table ++ "' already exists")
  let columns ← createColumns catalog node
  return (columns, ← columnSchemas node.table [] false columns)

/-- The relation is made, and then its keys, references and checks are looked at. -/
def visitCreate (node : CreateStatement) : Analysis TableId := do
  let (columns, schemas) ← ofExcept (checkCreate (← catalog) node)
  let tableId ← call (.createTable node.table schemas)
  addPrimaryKey node
  columns.zipIdx.forM (addReference node.table)
  columns.zipIdx.forM (bindCheck node.table)
  return tableId

/-- The columns that an index is built on, with the id of the table. -/
def checkCreateIdx (catalog : Catalog) (node : CreateIdxStatement) :
    Except String (List Int × TableId) := do
  match catalog.getTable node.table with
  | none => throw (unknownTable node.table)
  | some ts =>
    let columnIndices ← node.columns.mapM fun column => do
      let idx := ts.columnIndex column
      check (decide (0 ≤ idx)) (unknownColumn column node.table)
      return idx
    check (!catalog.hasIndex node.indexName) ("index '" ++ node.indexName ++ "' already exists")
    return (columnIndices, ts.tableId)

def visitCreateIdx (node : CreateIdxStatement) : Analysis (List Int × TableId) := do
  let resolved ← ofExcept (checkCreateIdx (← catalog) node)
  let _ ← call (.createIndex node.indexName node.table node.columns)
  return resolved

/-- The columns of a view: with FETCH * those of the relations, constraints and all. -/
def checkCreateView (catalog : Catalog) (node : CreateViewStatement) :
    Except String (SelectStatement × List ColumnSchema) := do
  check (!catalog.hasTable node.name) ("relation '" ++ node.name ++ "' already exists")
  match node.query with
  | none => throw ("view '" ++ node.name ++ "' has no query")
  | some q =>
    let types ← q.accept catalog.signature
    return (q,
      if q.selectStar then starColumns catalog q
      else (listColumns q types).map fun (name, type) => { name, type })

def visitCreateView (node : CreateViewStatement) : Analysis TableId := do
  let (q, columns) ← ofExcept (checkCreateView (← catalog) node)
  call (.createView node.name columns q node.source)

/-- The table that a DISCARD or a TRUNCATE names. -/
def checkDrop (relations : Relations) (node : DropStatement) : Except String TableId := do
  match relations.catalog.getTable node.name with
  | none => throw (if node.truncate then unknownTable node.name else
      "unknown " ++ (if node.isView then "view '" else "table '") ++ node.name ++ "'")
  | some ts =>
    let isView := relations.isView node.name
    if node.truncate then check (!isView) ("cannot truncate view '" ++ node.name ++ "'")
    else check (!(node.isView && !isView)) ("'" ++ node.name ++ "' is not a view")
    return ts.tableId

def visitDrop (node : DropStatement) : Analysis TableId := do
  if node.isIndex && !node.truncate then
    ofExcept (check ((← catalog).hasIndex node.name) ("unknown index '" ++ node.name ++ "'"))
    call (.dropIndex node.name)
  else
    let tableId ← ofExcept (checkDrop (← Prog.get) node)
    if !node.truncate then
      let _ ← call (.dropTable node.name)
    return tableId

def checkAlter (catalog : Catalog) (node : AlterStatement) : Except String TableId := do
  match catalog.getTable node.table with
  | none => throw (unknownTable node.table)
  | some ts =>
    match node.kind with
    | .AddColumn col =>
      check (decide (ts.columnIndex col.name < 0)) ("column '" ++ col.name ++ "' already exists")
      check (!(col.type = .Varchar && decide (col.varcharLength ≤ 0)))
        ("VARCHAR length must be positive for column '" ++ col.name ++ "'")
      check (col.refTable = "" ||
          (catalog.getTable col.refTable).any fun parent =>
            decide (0 ≤ parent.columnIndex col.refColumn))
        "foreign key references unknown table/column"
    | .DropColumn dropColumn =>
      check (decide (0 ≤ ts.columnIndex dropColumn)) ("unknown column '" ++ dropColumn ++ "'")
      check (decide (1 < ts.columns.length)) "cannot drop the only column of a table"
    return ts.tableId

/-- `SemanticAnalyzer::analyze`. -/
def analyze : Statement → Analysis Unit
  | .create node => do let _ ← visitCreate node
  | .createIdx node => do let _ ← visitCreateIdx node
  | .createView node => do let _ ← visitCreateView node
  | .drop node => do let _ ← visitDrop node
  | .alter node => do let _ ← ofExcept (checkAlter (← catalog) node)
  | .rows accept => do ofExcept (accept (← catalog))

end Relite.SemanticAnalyzer
