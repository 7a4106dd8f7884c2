import Relite.Frontend.Ast

/-!
# The analysis of expressions

Column references are bound and types checked, for an expression over one table that may
stand in subqueries of queries over others. A subquery has been analysed by itself.
-/
namespace Relite.SemanticAnalyzer
open Lib Vm Relite.Parser
open Semantic hiding Expression

def isStringType (type : DataType) : Bool :=
  type = .Text || type = .Varchar || type = .Date || type = .Timestamp

def isNumericType (type : DataType) : Bool := type = .Int || type = .Float

def comparable (a b : DataType) : Bool :=
  isStringType a && isStringType b || isNumericType a && isNumericType b || a == b

/-- The table that is in scope, and those of the enclosing queries, the innermost first. -/
structure Scope where
  currentTable : Option TableSchema := none
  currentAlias : String := ""
  outerScopes : List (TableSchema × String) := []

abbrev Bound := Expression × Option DataType

def typeAt (ts : TableSchema) (idx : Int) : Option DataType := (ts.columns[idx.toNat]?).map (·.type)

/-- A reference to a column of the innermost enclosing query that has it. -/
def resolveOuter (scope : Scope) (node : ColumnRef) : Option (ColumnRef × Option DataType) :=
  scope.outerScopes.findSome? fun (ts, name) =>
    if node.table ≠ "" ∧ node.table ≠ ts.name ∧ node.table ≠ name then none
    else
      let idx := ts.columnIndex node.column
      if idx < 0 then none
      else some ({ node with outerRef := true, columnIndex := idx }, typeAt ts idx)

def resolveOuterOr (scope : Scope) (node : ColumnRef) (message : String) :
    Except String (ColumnRef × Option DataType) :=
  match resolveOuter scope node with
  | some bound => .ok bound
  | none => .error message

def visitColumnRef (scope : Scope) (node : ColumnRef) :
    Except String (ColumnRef × Option DataType) :=
  match scope.currentTable with
  | none =>
    resolveOuterOr scope node ("column reference '" ++ node.column ++ "' has no table in scope")
  | some ts =>
    if node.table ≠ "" ∧ node.table ≠ ts.name ∧ node.table ≠ scope.currentAlias then
      resolveOuterOr scope node
        ("unknown table qualifier '" ++ node.table ++ "' (expected '" ++ ts.name ++ "')")
    else
      let idx := ts.columnIndex node.column
      if idx < 0 then
        resolveOuterOr scope node
          ("unknown column '" ++ node.column ++ "' in table '" ++ ts.name ++ "'")
      else .ok ({ node with columnIndex := idx }, typeAt ts idx)

def literalType : Value → Option DataType
  | .int _ => some .Int
  | .double _ => some .Float
  | .text _ => some .Text
  | .bool _ => some .Bool
  | .null => none

def check (cond : Bool) (message : String) : Except String Unit :=
  if cond then .ok () else .error message

/-- The type, if it is known, satisfies `p`. -/
def knownThen (type : Option DataType) (p : DataType → Bool) : Bool := type.all p

def visitAggregate (scope : Scope) (name : String) (star distinct : Bool)
    (argument : Option ColumnRef) : Except String Bound := do
  check (["COUNT", "SUM", "AVG", "MIN", "MAX"].contains name)
    ("unknown aggregate function '" ++ name ++ "'")
  if star then
    check (name = "COUNT") (name ++ "(*) is not allowed")
    return (.aggregate name star distinct argument, some .Int)
  else
    match argument with
    | none => throw (name ++ " requires an argument")
    | some node =>
      let (node, type) ← visitColumnRef scope node
      let type := type.getD .Int
      check (!(name = "SUM" || name = "AVG") || isNumericType type)
        (name ++ " requires a numeric column")
      return (.aggregate name star distinct (some node),
        some (if name = "AVG" then .Float else if name = "COUNT" then .Int else type))

/-- The type of a call whose arguments have the given types. -/
def callType (name : String) (args : List (Option DataType)) :
    Except String (Option DataType) := do
  let arg0 := args.headD none
  let takesOne (type : Option DataType) : Except String (Option DataType) := do
    check (args.length = 1) (name ++ " takes 1 argument")
    return type
  if name = "UPPER" ∨ name = "LOWER" ∨ name = "TRIM" then takesOne (some .Text)
  else if name = "LENGTH" then takesOne (some .Int)
  else if name = "SUBSTR" then
    check (args.length = 2 ∨ args.length = 3) "SUBSTR takes 2 or 3 arguments"
    return some .Text
  else if name = "ABS" then takesOne (some (if arg0 = some .Float then .Float else .Int))
  else if name = "ROUND" then
    check (args.length = 1 ∨ args.length = 2) "ROUND takes 1 or 2 arguments"
    return some .Float
  else if name = "CEIL" ∨ name = "FLOOR" then takesOne (some .Int)
  else if name = "MOD" then
    check (args.length = 2) "MOD takes 2 arguments"
    return some .Int
  else if name = "COALESCE" then
    check (!args.isEmpty) "COALESCE requires arguments"
    return args.findSome? id
  else if name = "NULLIF" then
    check (args.length = 2) "NULLIF takes 2 arguments"
    return arg0
  else if ["COUNT", "SUM", "AVG", "MIN", "MAX"].contains name then
    throw ("aggregate '" ++ name ++ "' is only allowed in a FETCH list")
  else throw ("unknown function '" ++ name ++ "'")

mutual

def visit (scope : Scope) : Expression → Except String Bound
  | .literal v => .ok (.literal v, literalType v)
  | .column node => do
    let (node, type) ← visitColumnRef scope node
    return (.column node, type)
  | .binary op l r => do
    let (l, lt) ← visit scope l
    let (r, rt) ← visit scope r
    match lt, rt with
    | some lt, some rt =>
      check (comparable lt rt)
        ("type mismatch in comparison: " ++ dataTypeName lt ++ " vs " ++ dataTypeName rt)
    | _, _ => pure ()
    return (.binary op l r, some .Bool)
  | .logical op l r => do
    let (l, lt) ← visit scope l
    let (r, rt) ← visit scope r
    check (lt = some .Bool && rt = some .Bool) "operands of AND/OR must be boolean expressions"
    return (.logical op l r, some .Bool)
  | .arithmetic op l r => do
    let (l, lt) ← visit scope l
    let (r, rt) ← visit scope r
    check (knownThen lt isNumericType && knownThen rt isNumericType)
      "arithmetic operator requires numeric operands"
    return (.arithmetic op l r, some (if lt = some .Float ∨ rt = some .Float then .Float else .Int))
  | .not operand => do
    let (operand, type) ← visit scope operand
    check (type = some .Bool) "operand of NOT must be a boolean expression"
    return (.not operand, some .Bool)
  | .isNull operand negated => do
    let (operand, _) ← visit scope operand
    return (.isNull operand negated, some .Bool)
  | .inList v items negated => do
    let (v, type) ← visit scope v
    let items ← visitItems scope type items
    return (.inList v items negated, some .Bool)
  | .inSubquery v results negated => do
    let (v, _) ← visit scope v
    return (.inSubquery v results negated, some .Bool)
  | .between v lo hi negated => do
    let (v, _) ← visit scope v
    let (lo, _) ← visit scope lo
    let (hi, _) ← visit scope hi
    return (.between v lo hi negated, some .Bool)
  | .like v pattern negated => do
    let (v, type) ← visit scope v
    let (pattern, _) ← visit scope pattern
    check (knownThen type isStringType) "LIKE requires a text operand"
    return (.like v pattern negated, some .Bool)
  | .call name args => do
    let args ← visitAll scope args
    let type ← callType name (args.map Prod.snd)
    return (.call name (args.map Prod.fst), type)
  | .cast arg target => do
    let (arg, _) ← visit scope arg
    return (.cast arg target, some target)
  | .case branches none => do
    check (!branches.isEmpty) "CASE requires a WHEN branch"
    let (branches, type) ← visitBranches scope branches
    return (.case branches none, type)
  | .case branches (some e) => do
    check (!branches.isEmpty) "CASE requires a WHEN branch"
    let (branches, type) ← visitBranches scope branches
    let (e, elseType) ← visit scope e
    return (.case branches (some e), type.or elseType)
  | .aggregate name star distinct argument => visitAggregate scope name star distinct argument
  | .subquery .Exists results => .ok (.subquery .Exists results, some .Bool)
  | .subquery .Scalar results => .ok (.subquery .Scalar results, none)

def visitAll (scope : Scope) : List Expression → Except String (List Bound)
  | [] => .ok []
  | e :: es => do
    let e ← visit scope e
    let es ← visitAll scope es
    return e :: es

def visitItems (scope : Scope) (type : Option DataType) :
    List Expression → Except String (List Expression)
  | [] => .ok []
  | item :: items => do
    let (item, itemType) ← visit scope item
    check (knownThen type fun a => knownThen itemType fun b => comparable a b)
      "type mismatch in IN list"
    let items ← visitItems scope type items
    return item :: items

/-- The branches and the type of the first value that has one. -/
def visitBranches (scope : Scope) : List (Expression × Expression) →
    Except String (List (Expression × Expression) × Option DataType)
  | [] => .ok ([], none)
  | (cond, value) :: branches => do
    let (cond, condType) ← visit scope cond
    check (knownThen condType (· = .Bool)) "CASE WHEN condition must be a boolean expression"
    let (value, type) ← visit scope value
    let (branches, rest) ← visitBranches scope branches
    return ((cond, value) :: branches, type.or rest)

end

def checkPredicate (scope : Scope) (e : Expression) : Except String Expression := do
  let (e, type) ← visit scope e
  check (type = some .Bool) "WHERE clause must be a boolean expression"
  return e

/-- The binding of a CHECK of the table. -/
def bindExpression (ts : TableSchema) (e : Expression) : Except String Expression :=
  checkPredicate { currentTable := some ts } e

theorem bind_eq_ok {α β : Type} {x : Except String α} {f : α → Except String β} {b : β} :
    (x >>= f) = .ok b ↔ ∃ a, x = .ok a ∧ f a = .ok b := by
  cases x with
  | error e => exact ⟨fun h => (by cases h), fun ⟨a, h, _⟩ => (by cases h)⟩
  | ok a => exact ⟨fun h => ⟨a, rfl, h⟩, fun ⟨_, h, hf⟩ => by cases h; exact hf⟩

end Relite.SemanticAnalyzer
