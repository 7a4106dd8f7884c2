import Relite.Vm.Db

/-!
# The executor

PUT, MODIFY and REMOVE as programs over the storage calls. What a FETCH or a subquery
yields, and what an expression evaluates to, is a parameter of the statement: a query
reads the database and takes shared locks, an expression is a function on rows.
-/
namespace Relite.Vm
open Lib Semantic Txn

/-- A query: the record ids it locks, and then its outcome. -/
structure Query (α : Type) where
  eval : Db → List RecordID × Except String α

/-- A WHEN clause on a table: its subqueries are run once before the scan, or, if one of
them is correlated, for each row. -/
structure Condition (tableId : TableId) where
  correlated : Bool
  materializeSubqueries : Query Expression
  bindCorrelated : Tuple → Query Expression
  indexCandidates : IndexManager → Option (List RecordID)
  /-- The candidates come from the indexes of the table. -/
  candidates_held : ∀ im rids, indexCandidates im = some rids →
    ∀ rid ∈ rids, IndexManager.Holds im tableId rid

structure OnConflict where
  doNothing : Bool
  columns : List Nat
  setColumns : List String
  setValues : List Expression

structure InsertStatement where
  tableId : TableId
  columns : List String := []
  rows : List (List Expression) := []
  select : Option (Query (List Tuple)) := none
  onConflict : Option OnConflict := none
  returningStar : Bool := false
  returning : List Nat := []

structure DeleteStatement where
  tableId : TableId
  when? : Option (Condition tableId) := none
  returningStar : Bool := false
  returning : List Nat := []

structure UpdateStatement where
  tableId : TableId
  targetIndices : List Nat
  values : List Expression
  when? : Option (Condition tableId) := none
  fromTableId : Option TableId := none
  returningStar : Bool := false
  returning : List Nat := []

structure ResultSet where
  isQuery : Bool := false
  columns : List String := []
  rows : List Tuple := []
  message : String := ""
  deriving DecidableEq

namespace Exec

variable {α β : Type}

def get : Exec Db := Prog.get

def throw (message : String) : Exec α := Prog.throw message

def call (c : Call) : Exec Unit := do
  let _ ← (Prog.perform c : Exec RecordID)
  return ()

def ofExcept : Except String α → Exec α
  | .ok a => Prog.ret a
  | .error message => Prog.throw message

def txnActive : Exec Bool := do return (← get).txnActive

def lockOrThrow (rid : RecordID) (exclusive : Bool) : Exec Unit := do
  let db ← get
  let mode := if exclusive then LockMode.Exclusive else LockMode.Shared
  if db.locks.canGrant rid db.currentTxn mode then call (.lock rid mode)
  else throw "lock wait timeout (possible deadlock)"

def lockInTxn (rid : RecordID) (exclusive : Bool) : Exec Unit := do
  if ← txnActive then lockOrThrow rid exclusive

def query (q : Query α) : Exec α := do
  let (rids, outcome) := q.eval (← get)
  rids.forM fun rid => lockInTxn rid false
  ofExcept outcome

/-! ## Rows -/

def deserializeRow (schema : Schema) (row : RecordID × Bytes) :
    Except String (RecordID × Tuple) := do
  return (row.1, ← Tuple.deserialize row.2 schema)

/-- The rows that satisfy `p`, each read before it is looked at. -/
def matchingRows (schema : Schema) (p : RecordID → Tuple → Bool) :
    List (RecordID × Bytes) → Except String (List (RecordID × Tuple))
  | [] => .ok []
  | row :: rest => do
    let (rid, t) ← deserializeRow schema row
    let found ← matchingRows schema p rest
    return if p rid t then (rid, t) :: found else found

/-- Whether a row satisfies `p`; the rows after the first such one are not read. -/
def anyRow (schema : Schema) (p : RecordID → Tuple → Bool) :
    List (RecordID × Bytes) → Except String (Option (RecordID × Tuple))
  | [] => .ok none
  | row :: rest => do
    let (rid, t) ← deserializeRow schema row
    if p rid t then return some (rid, t) else anyRow schema p rest

def scanRows (tableId : TableId) : Exec (List (RecordID × Bytes)) := do
  return (← get).tables.tuples tableId

/-- The tuples that the record ids of an index lead to. -/
def indexRows (rids : List RecordID) : Exec (List (RecordID × Bytes)) := do
  let db ← get
  return rids.filterMap fun rid => (db.tables.getTuple rid).map fun bytes => (rid, bytes)

/-- The value of a column, if the row has it. -/
def at? (t : Tuple) (column : Int) : Option Value :=
  if 0 ≤ column then t[column.toNat]? else none

/-- The rows an index on the column finds for a value, or else all rows of the table. -/
def candidateRows (tableId : TableId) (column : Int) (value : Value) :
    Exec (List (RecordID × Bytes)) := do
  match IndexManager.find (← get).indexes tableId column with
  | some idx => indexRows (idx.lookup value)
  | none => scanRows tableId

def hasValue (column : Int) (value : Value) (t : Tuple) : Bool :=
  (at? t column).any fun v => compareValues v value == some .eq

/-- What `gatherRows` takes of a WHEN clause. -/
abbrev Where := Expression × (IndexManager → Option (List RecordID))

/-- The rows that the indexes find for the clause, or else all rows of the table. -/
def clauseRows (tableId : TableId) (when? : Option Where) : Exec (List (RecordID × Bytes)) := do
  let db ← get
  match when?.bind fun w => w.2 db.indexes with
  | some rids => indexRows rids
  | none => scanRows tableId

def gatherRows (tableId : TableId) (schema : Schema) (when? : Option Where) :
    Exec (List (RecordID × Tuple)) := do
  (← clauseRows tableId when?).foldlM (fun acc row => do
    let found ← ofExcept (deserializeRow schema row)
    if when?.all fun w => predicateTrue w.1 found.2 then
      lockInTxn found.1 false
      return acc ++ [found]
    else return acc) []

/-! ## Constraints -/

def parentHasValue (refTable refColumn : String) (value : Value) : Exec Bool := do
  match (← get).catalog.getTable refTable with
  | none => return false
  | some parent =>
    let col := parent.columnIndex refColumn
    if col < 0 then return false
    else
      let rows ← candidateRows parent.tableId col value
      let found ← ofExcept (anyRow parent.schema (fun _ t => hasValue col value t) rows)
      return found.isSome

def checkForeignKeys (schema : TableSchema) (row : Tuple) : Exec Unit :=
  schema.foreignKeys.forM fun fk => do
    match at? row fk.columnIndex with
    | none => return ()
    | some v =>
      if v.isNull then return ()
      else if ← parentHasValue fk.refTable fk.refColumn v then return ()
      else
        throw ("foreign key violation: value not present in " ++ fk.refTable ++ "(" ++
          fk.refColumn ++ ")")

def valueExists (tableId : TableId) (columnIndex : Int) (value : Value) (schema : TableSchema)
    (excludeRid : Option RecordID) : Exec Bool := do
  let rows ← candidateRows tableId columnIndex value
  let found ← ofExcept (anyRow schema.schema
    (fun rid t => excludeRid ≠ some rid && hasValue columnIndex value t) rows)
  return found.isSome

def enforceColumn (schema : TableSchema) (tableId : TableId) (row : Tuple)
    (excludeRid : Option RecordID) (i : Nat) (col : ColumnSchema) : Exec Unit := do
  let v := row.getD i .null
  if col.notNull && v.isNull then
    throw ("NOT NULL constraint failed: " ++ schema.name ++ "." ++ col.name)
  else if col.type = .Varchar ∧ 0 < col.varcharLength ∧ col.varcharLength < v.textValue.length then
    throw ("value too long for column '" ++ col.name ++ "' (max " ++
      toString col.varcharLength ++ ")")
  else if col.checkExpr.any fun e => !predicateTrue e row then
    throw ("CHECK constraint failed: " ++ schema.name ++ "." ++ col.name)
  else if (col.primaryKey || col.unique) && !v.isNull then
    if ← valueExists tableId i v schema excludeRid then
      throw ("UNIQUE constraint failed: " ++ schema.name ++ "." ++ col.name)

/-- The check of a key over several columns. -/
def enforcePrimaryKey (schema : TableSchema) (tableId : TableId) (row : Tuple)
    (excludeRid : Option RecordID) : Exec Unit := do
  if schema.primaryKey.length < 2 then return ()
  else if schema.primaryKey.any fun ci => ((at? row ci).getD .null).isNull then return ()
  else
    let sameKey (rid : RecordID) (t : Tuple) : Bool := excludeRid ≠ some rid &&
      schema.primaryKey.all fun ci => hasValue ci ((at? row ci).getD .null) t
    if (← ofExcept (anyRow schema.schema sameKey (← scanRows tableId))).isSome then
      throw ("PRIMARY KEY constraint failed: " ++ schema.name)

def enforceConstraints (schema : TableSchema) (tableId : TableId) (row : Tuple)
    (excludeRid : Option RecordID) : Exec Unit := do
  schema.columns.zipIdx.forM fun (col, i) => enforceColumn schema tableId row excludeRid i col
  enforcePrimaryKey schema tableId row excludeRid

/-! ## Writing one row -/

/-- The keys of a row in the indexes that cover rows of the width of `width`. -/
def coveredKeys (idxs : List Index) (width row : Tuple) : List (String × Value) :=
  (idxs.filter fun idx => idx.coversRow width.length).map fun idx => (idx.name, idx.keyOf row)

def addKeys (keys : List (String × Value)) (rid : RecordID) : Exec Unit :=
  keys.forM fun k => call (.indexAdd k.1 k.2 rid)

def removeKeys (keys : List (String × Value)) (rid : RecordID) : Exec Unit :=
  keys.forM fun k => call (.indexRemove k.1 k.2 rid)

/-- A new row, with its index entries, its staged change, and in a transaction its lock,
its log record and its undo closure. -/
def insertRow (tableId : TableId) (idxs : List Index) (t : Tuple) (bytes : Bytes) :
    Exec Unit := do
  let rid ← Prog.perform (.insertTuple tableId bytes)
  addKeys (coveredKeys idxs t t) rid
  call (.stageInsert tableId rid bytes)
  if ← txnActive then
    lockOrThrow rid true
    call (.logInsert tableId rid bytes)
    call (.registerUndo (.insert (coveredKeys idxs t t) tableId rid))

/-- A row goes. The cascade of a removal does not stage the change. -/
def eraseRow (tableId : TableId) (idxs : List Index) (rid : RecordID) (t : Tuple)
    (bytes : Bytes) (staged : Bool) : Exec Unit := do
  removeKeys (coveredKeys idxs t t) rid
  if ← txnActive then
    call (.logDelete tableId rid bytes)
    call (.registerUndo (.delete tableId bytes (coveredKeys idxs t t)))
  call (.eraseTuple rid)
  if staged then call (.stageDelete tableId rid)

/-- A row gets new values, possibly at a new record id. Setting a foreign key to null
when its parent goes does not stage the change. -/
def rewriteRow (tableId : TableId) (idxs : List Index) (rid : RecordID) (old new : Tuple)
    (schema : Schema) (staged : Bool) : Exec Unit := do
  let oldBytes := old.serialize schema
  let newBytes := new.serialize schema
  removeKeys (coveredKeys idxs old old) rid
  let nr ← Prog.perform (.updateTuple tableId rid newBytes)
  lockInTxn nr true
  addKeys (coveredKeys idxs new new) nr
  if staged then
    call (.stageDelete tableId rid)
    call (.stageInsert tableId nr newBytes)
  if ← txnActive then
    call (.logDelete tableId rid oldBytes)
    call (.logInsert tableId nr newBytes)
    call (.registerUndo (.update tableId nr oldBytes (coveredKeys idxs old old)
      (coveredKeys idxs old new)))

/-! ## Referential actions -/

/-- The value of the parent row that the foreign key refers to, if it is one of this
table and the value is not null. -/
def referencedValue (parent : TableSchema) (parentRow : Tuple) (fk : ForeignKey) : Option Value :=
  if fk.refTable ≠ parent.name then none
  else (at? parentRow (parent.columnIndex fk.refColumn)).filter fun v => !v.isNull

/-- The rows of the child that refer to the value. -/
def referencingRows (child : TableSchema) (fk : ForeignKey) (value : Value) :
    Exec (List (RecordID × Tuple)) := do
  ofExcept (matchingRows child.schema (fun _ t => hasValue fk.columnIndex value t)
    (← scanRows child.tableId))

/-- These rows, with the indexes of the child, go to `act`, unless there are none. -/
def onReferencing (child : TableSchema) (fk : ForeignKey) (value : Value)
    (act : List Index → List (RecordID × Tuple) → Exec Unit) : Exec Unit := do
  let cindexes := IndexManager.forTable (← get).indexes child.tableId
  let found ← referencingRows child fk value
  if found.isEmpty then return () else act cindexes found

def stackOverflow : String := "stack overflow"

def restricted (child : TableSchema) : String :=
  "foreign key violation: row is referenced by table '" ++ child.name ++ "'"

/-- The recursion goes down at most `depth` levels before the stack is exhausted. -/
def applyReferentialActions : Nat → TableSchema → Tuple → Exec Unit
  | 0, _, _ => throw stackOverflow
  | depth + 1, parent, parentRow => do
    (← get).catalog.allTables.forM fun child => child.foreignKeys.forM fun fk => do
      match referencedValue parent parentRow fk with
      | none => return ()
      | some parentVal =>
        onReferencing child fk parentVal fun cindexes found =>
          match fk.onDelete with
          | .Restrict => throw (restricted child)
          | .Cascade => found.forM fun row => do
            applyReferentialActions depth child row.2
            lockInTxn row.1 true
            eraseRow child.tableId cindexes row.1 row.2 (row.2.serialize child.schema) false
          | .SetNull => found.forM fun row => do
            lockInTxn row.1 true
            rewriteRow child.tableId cindexes row.1 row.2 (row.2.set fk.columnIndex.toNat .null)
              child.schema false

def applyUpdateReferentialActions : Nat → TableSchema → Tuple → Tuple → Exec Unit
  | 0, _, _, _ => throw stackOverflow
  | depth + 1, parent, oldParentRow, newParentRow => do
    (← get).catalog.allTables.forM fun child => child.foreignKeys.forM fun fk => do
      match referencedValue parent oldParentRow fk with
      | none => return ()
      | some oldVal =>
        let newVal := (at? newParentRow (parent.columnIndex fk.refColumn)).getD .null
        if compareValues oldVal newVal = some .eq then return ()
        else
          onReferencing child fk oldVal fun cindexes found => do
            if fk.onUpdate = .Restrict then throw (restricted child)
            else
              found.forM fun row => do
                let value := if fk.onUpdate = .Cascade then newVal else .null
                let nv := row.2.set fk.columnIndex.toNat value
                if fk.onUpdate = .Cascade then applyUpdateReferentialActions depth child row.2 nv
                lockInTxn row.1 true
                rewriteRow child.tableId cindexes row.1 row.2 nv child.schema true

/-! ## Statements -/

def discardOutsideTxn : Exec Unit := do
  if !(← txnActive) then call .discardPending

def commitOutsideTxn : Exec Unit := do
  if !(← txnActive) then call .commitPending

/-- An autocommit statement starts by dropping what is staged, and ends by committing it. -/
def autocommit (prepare : Exec α) (body : α → Exec β) : Exec β := do
  let a ← prepare
  discardOutsideTxn
  let b ← body a
  commitOutsideTxn
  return b

def project (returningStar : Bool) (returning : List Nat) (t : Tuple) : Tuple :=
  if returningStar then t else returning.map fun c => t.getD c .null

/-- What a statement that changed `count` rows answers. -/
def result (ts : Option TableSchema) (returningStar : Bool) (returning : List Nat)
    (returned : List Tuple) (message : String) : ResultSet :=
  if returningStar || !returning.isEmpty then
    let names := (ts.map fun ts => ts.columns.map ColumnSchema.name).getD []
    { isQuery := true
      columns := if returningStar then names else returning.map fun c => names.getD c ""
      rows := returned.map (project returningStar returning) }
  else { message := message }

/-- `newVals[targets[i]] = values[i]` evaluated on `source`. -/
def assign (row : Tuple) (targets : List Nat) (values : List Expression) (source : Tuple) : Tuple :=
  (targets.zip values).foldl (fun row (i, e) => row.set i (e source)) row

/-- The largest integer of the column, and the next one. -/
def autoStart (rows : List (RecordID × Tuple)) (c : Nat) : Int64 :=
  rows.foldl (fun maxVal row =>
    match row.2.getD c .null with
    | .int v => if maxVal < v then v else maxVal
    | _ => maxVal) 0 + 1

/-- The next value of each AUTO_INCREMENT column. -/
abbrev AutoNext := List (Nat × Int64)

def autoColumns (ts : TableSchema) : List Nat :=
  ts.columns.zipIdx.filterMap fun (col, c) => if col.autoIncrement then some c else none

/-- The values of a row to insert, and which of them were given. -/
def provide (ncols : Nat) (targets : List Nat) (provided : Tuple) : Tuple × List Bool :=
  (targets.zip provided).foldl (fun (vals, isSet) (c, v) => (vals.set c v, isSet.set c true))
    (List.replicate ncols .null, List.replicate ncols false)

def fillAuto (autoNext : AutoNext) (row : Tuple × List Bool) : AutoNext × Tuple × List Bool :=
  autoNext.foldl (fun (done, vals, isSet) (c, next) =>
    if !isSet.getD c false || (vals.getD c .null).isNull then
      (done ++ [(c, next + 1)], vals.set c (.int next), isSet.set c true)
    else (done ++ [(c, next)], vals, isSet)) ([], row)

def fillDefaults (ts : TableSchema) (row : Tuple × List Bool) : Tuple :=
  ts.columns.zipIdx.foldl (fun vals (col, c) =>
    if !row.2.getD c false && col.hasDefault then vals.set c col.defaultValue else vals) row.1

structure InsertState where
  autoNext : AutoNext
  returned : List Tuple := []

variable (depth : Nat)

/-- The row that an ON CONFLICT clause finds for a new row. -/
def findConflict (tableId : TableId) (schema : Schema) (onConflict : Option OnConflict)
    (new : Tuple) : Exec (Option (OnConflict × RecordID × Tuple)) := do
  match onConflict with
  | none => return none
  | some c =>
    let sameKey (_ : RecordID) (t : Tuple) : Bool := c.columns.all fun ci =>
      compareValues (t.getD ci .null) (new.getD ci .null) == some .eq
    let found ← ofExcept (anyRow schema sameKey (← scanRows tableId))
    return found.map fun row => (c, row)

/-- The checks of a new row, if the catalog has its table. -/
def checkRow (ts : Option TableSchema) (tableId : TableId) (row : Tuple)
    (excludeRid : Option RecordID) : Exec Unit := do
  match ts with
  | some ts =>
    checkForeignKeys ts row
    enforceConstraints ts tableId row excludeRid
  | none => return ()

/-- One round of the loop of `visit(InsertStatement)`. -/
def insertProvided (node : InsertStatement) (ts : Option TableSchema) (schema : Schema)
    (idxs : List Index) (targets : List Nat) (st : InsertState) (provided : Tuple) :
    Exec InsertState := do
  let (autoNext, row) := fillAuto st.autoNext (provide schema.length targets provided)
  let t := (ts.map fun ts => fillDefaults ts row).getD row.1
  match ← findConflict node.tableId schema node.onConflict t with
  | some (c, exRid, exRow) =>
    if c.doNothing then return { st with autoNext }
    else
      let setIdx := c.setColumns.map fun name =>
        ((ts.map fun ts => ts.columnIndex name).getD (-1)).toNat
      let new := assign exRow setIdx c.setValues exRow
      checkRow ts node.tableId new (some exRid)
      lockInTxn exRid true
      rewriteRow node.tableId idxs exRid exRow new schema true
      return { autoNext, returned := st.returned ++ [new] }
  | none =>
    checkRow ts node.tableId t none
    insertRow node.tableId idxs t (t.serialize schema)
    return { autoNext, returned := st.returned ++ [t] }

/-- The values that the statement gives for each new row. -/
def providedRows (node : InsertStatement) : Exec (List Tuple) :=
  match node.select with
  | some q => query q
  | none => pure (node.rows.map fun row => row.map fun e => e [])

/-- The part of `visit(InsertStatement)` that changes rows; it returns those inserted. -/
def insertRows (node : InsertStatement) (catalog : Catalog) : Exec (List Tuple) := do
  let schema := catalog.loadSchema node.tableId
  let ts := catalog.getTableById node.tableId
  let targets :=
    if node.columns.isEmpty then List.range schema.length
    else node.columns.map fun name => ((ts.map fun ts => ts.columnIndex name).getD (-1)).toNat
  let idxs := IndexManager.forTable (← get).indexes node.tableId
  let provided ← providedRows node
  let autos := (ts.map autoColumns).getD []
  let autoNext ← autos.foldlM (fun (acc : AutoNext) c => do
    let rows ← ofExcept (matchingRows schema (fun _ _ => true) (← scanRows node.tableId))
    return acc ++ [(c, autoStart rows c)]) []
  let st ← provided.foldlM (insertProvided node ts schema idxs targets) { autoNext }
  return st.returned

def visitInsert (node : InsertStatement) : Exec ResultSet := do
  let catalog := (← get).catalog
  let returned ← autocommit (pure ()) fun _ => insertRows node catalog
  return result (catalog.getTableById node.tableId) node.returningStar node.returning returned
    ("PUT 0 " ++ toString returned.length)

/-- The clause to evaluate on a row, after the run of its subqueries if they are correlated. -/
def bindWhen {tableId : TableId} (w : Condition tableId) (materialized : Option Expression)
    (t : Tuple) : Exec Expression :=
  if w.correlated then query (w.bindCorrelated t) else pure (materialized.getD fun _ => .null)

/-- The rows of a table that a WHEN clause selects, in a scan. -/
def scanWhen (tableId : TableId) (schema : Schema) (when? : Option (Condition tableId))
    (materialized : Option Expression) : Exec (List (RecordID × Tuple)) := do
  (← scanRows tableId).foldlM (fun acc row => do
    let found ← ofExcept (deserializeRow schema row)
    match when? with
    | none => return acc ++ [found]
    | some w =>
      let e ← bindWhen w materialized found.2
      return if predicateTrue e found.2 then acc ++ [found] else acc) []

def materialize {tableId : TableId} (when? : Option (Condition tableId)) :
    Exec (Option Expression) := do
  match when? with
  | none => return none
  | some w => return some (← query w.materializeSubqueries)

/-- The part of `visit(DeleteStatement)` that changes rows; it returns those removed. -/
def deleteRows (node : DeleteStatement) (catalog : Catalog) (materialized : Option Expression) :
    Exec (List (RecordID × Tuple)) := do
  let schema := catalog.loadSchema node.tableId
  let idxs := IndexManager.forTable (← get).indexes node.tableId
  let victims ← scanWhen node.tableId schema node.when? materialized
  if let some ts := catalog.getTableById node.tableId then
    victims.forM fun victim => applyReferentialActions depth ts victim.2
  victims.forM fun victim => do
    lockInTxn victim.1 true
    eraseRow node.tableId idxs victim.1 victim.2 (victim.2.serialize schema) true
  return victims

def visitDelete (node : DeleteStatement) : Exec ResultSet := do
  let catalog := (← get).catalog
  let victims ← autocommit (materialize node.when?) (deleteRows depth node catalog)
  return result (catalog.getTableById node.tableId) node.returningStar node.returning
    (victims.map Prod.snd) ("REMOVE " ++ toString victims.length)

/-- The rows of the target, each with the first row of the other table that it joins. -/
def joinRows (e : Option Expression) (targetRows fromRows : List (RecordID × Tuple)) :
    List (RecordID × Tuple × Tuple) :=
  targetRows.filterMap fun (rid, t) =>
    (fromRows.find? fun fr => e.all fun e => predicateTrue e (t ++ fr.2)).map fun fr =>
      (rid, t, fr.2)

/-- The rows of the table that the WHEN clause selects, in `visit(UpdateStatement)`. -/
def gatherWhen {tableId : TableId} (schema : Schema) (when? : Option (Condition tableId))
    (materialized : Option Expression) : Exec (List (RecordID × Tuple)) := do
  match when? with
  | none => gatherRows tableId schema none
  | some w =>
    if w.correlated then
      (← gatherRows tableId schema none).foldlM (fun acc row => do
        let e ← bindWhen w materialized row.2
        return if predicateTrue e row.2 then acc ++ [row] else acc) []
    else
      gatherRows tableId schema (some (materialized.getD fun _ => .null, w.indexCandidates))

/-- The rows to modify, each with the values that the SET expressions see after it. -/
def updateRows (node : UpdateStatement) (catalog : Catalog) (materialized : Option Expression) :
    Exec (List (RecordID × Tuple × Tuple)) := do
  let schema := catalog.loadSchema node.tableId
  match node.fromTableId with
  | some fromTableId =>
    let fromRows ← gatherRows fromTableId (catalog.loadSchema fromTableId) none
    let targetRows ← gatherRows node.tableId schema none
    return joinRows materialized targetRows fromRows
  | none =>
    let rows ← gatherWhen schema node.when? materialized
    return rows.map fun row => (row.1, row.2, [])

/-- One round of the loop of `visit(UpdateStatement)`. -/
def updateRow (node : UpdateStatement) (ts : Option TableSchema) (schema : Schema)
    (idxs : List Index) (returned : List Tuple) (row : RecordID × Tuple × Tuple) :
    Exec (List Tuple) := do
  let (rid, old, matched) := row
  lockInTxn rid true
  let new := assign old node.targetIndices node.values (old ++ matched)
  checkRow ts node.tableId new (some rid)
  if let some ts := ts then applyUpdateReferentialActions depth ts old new
  rewriteRow node.tableId idxs rid old new schema true
  return returned ++ [new]

/-- The part of `visit(UpdateStatement)` that changes rows; it returns the new rows. -/
def modifyRows (node : UpdateStatement) (catalog : Catalog) (materialized : Option Expression) :
    Exec (List Tuple) := do
  let schema := catalog.loadSchema node.tableId
  let idxs := IndexManager.forTable (← get).indexes node.tableId
  let rows ← updateRows node catalog materialized
  rows.foldlM (updateRow depth node (catalog.getTableById node.tableId) schema idxs) []

def visitUpdate (node : UpdateStatement) : Exec ResultSet := do
  let catalog := (← get).catalog
  let returned ← autocommit (materialize node.when?) (modifyRows depth node catalog)
  return result (catalog.getTableById node.tableId) node.returningStar node.returning returned
    ("MODIFY " ++ toString returned.length)

end Exec

/-- The statements that change rows. -/
inductive Statement
  | insert (node : InsertStatement)
  | delete (node : DeleteStatement)
  | update (node : UpdateStatement)

def Statement.exec (depth : Nat) : Statement → Exec ResultSet
  | insert node => Exec.visitInsert node
  | delete node => Exec.visitDelete depth node
  | update node => Exec.visitUpdate depth node

end Relite.Vm
