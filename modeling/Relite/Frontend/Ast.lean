import Relite.Vm.Number
import Relite.Frontend.Catalog

/-!
# Expressions

The syntax tree of an expression. The kinds of a literal are those of a value, and of a
subquery only what it has yielded is seen.
-/
namespace Relite.Parser
open Lib Vm

def dataTypeName : DataType → String
  | .Int => "INT"
  | .Bool => "BOOL"
  | .Text => "TEXT"
  | .Varchar => "VARCHAR"
  | .Float => "FLOAT"
  | .Date => "DATE"
  | .Timestamp => "TIMESTAMP"

inductive ComparisonOp
  | Eq
  | Neq
  | Lt
  | Leq
  | Gt
  | Geq
  deriving DecidableEq, Repr

inductive LogicalOp
  | And
  | Or
  deriving DecidableEq, Repr

inductive ArithmeticOp
  | Add
  | Sub
  | Mul
  | Div
  deriving DecidableEq, Repr

/-- A reference to a column: of the table at hand or, if `outerRef`, of an enclosing query,
whose value is bound before the expression is evaluated. -/
structure ColumnRef where
  table : String := ""
  column : String
  columnIndex : Int := -1
  outerRef : Bool := false
  bound : Bool := false
  boundValue : Value := .null
  deriving DecidableEq, Repr

inductive SubqueryKind
  | Scalar
  | Exists
  deriving DecidableEq, Repr

/-- The first column of the rows that a subquery has yielded. -/
abbrev Results := List Value

inductive Expression
  | literal (value : Value)
  | column (col : ColumnRef)
  | binary (op : ComparisonOp) (left right : Expression)
  | logical (op : LogicalOp) (left right : Expression)
  | arithmetic (op : ArithmeticOp) (left right : Expression)
  | not (operand : Expression)
  | isNull (operand : Expression) (negated : Bool)
  | inList (value : Expression) (items : List Expression) (negated : Bool)
  | inSubquery (value : Expression) (results : Results) (negated : Bool)
  | between (value lo hi : Expression) (negated : Bool)
  | like (value pattern : Expression) (negated : Bool)
  | call (name : String) (args : List Expression)
  | cast (arg : Expression) (target : DataType)
  | case (branches : List (Expression × Expression)) (elseExpr : Option Expression)
  | aggregate (name : String) (star distinct : Bool) (argument : Option ColumnRef)
  | subquery (kind : SubqueryKind) (results : Results)

instance : Inhabited Expression := ⟨.literal .null⟩

end Relite.Parser
