import Relite.Frontend.Ast

/-!
# Evaluating expressions

`evalExpression` with three-valued logic: what has no value, or is no truth value where one
is needed, is null. Integers wrap around where the language leaves an overflow open.
-/
namespace Relite.Vm
open Lib Relite.Parser

def Value.ofFloat (d : Float) : Value := .double d.toBits

/-- What a value says as a truth value, if it is one. -/
def Value.asBool : Value → Option Bool
  | .bool b => some b
  | _ => none

def valueAsString (v : Value) : Bytes :=
  match v with
  | .text s => s
  | v => v.toString

/-- The value of `CAST(v AS target)`. -/
def castValue (v : Value) (target : DataType) : Value :=
  match target, v with
  | _, .null => .null
  | .Int, .int n => .int n
  | .Int, .double bits => .int (toInt64 bits)
  | .Int, .bool b => .int (if b then 1 else 0)
  | .Int, .text s => (stoll s).elim .null .int
  | .Float, .int n => .double (ofInt64 n).toBits
  | .Float, .double bits => .double bits
  | .Float, .text s => (stod s).elim .null .double
  | .Float, .bool _ => .null
  | .Bool, .bool b => .bool b
  | .Bool, .int n => .bool (n != 0)
  | .Bool, _ => .null
  | _, .text s => .text s
  | _, v => .text v.toString

/-! ## Functions -/

def trim (s : Bytes) : Bytes := (((s.dropWhile isSpace).reverse).dropWhile isSpace).reverse

def substr (s : Bytes) (start : Int64) (len : Option Int64) : Bytes :=
  let rest := s.drop (start.toInt - 1).toNat
  match len with
  | none => rest
  | some len => rest.take len.toInt.toNat

def roundTo (d : Float) (digits : Int32) : Float :=
  let factor := Float.pow 10.0 (Float.ofInt digits.toInt)
  (d * factor).round / factor

def evalCall (name : String) (args : List Value) : Value :=
  let a0 := args.getD 0 .null
  let a1 := args.getD 1 .null
  if name = "COALESCE" then (args.find? fun v => !v.isNull).getD .null
  else if name = "NULLIF" then
    if a0.isNull || compareValues a0 a1 == some .eq then .null else a0
  else if name = "UPPER" then
    if a0.isNull then .null else .text ((valueAsString a0).map upper)
  else if name = "LOWER" then
    if a0.isNull then .null else .text ((valueAsString a0).map lower)
  else if name = "LENGTH" then
    if a0.isNull then .null else .int (.ofNat (valueAsString a0).length)
  else if name = "TRIM" then if a0.isNull then .null else .text (trim (valueAsString a0))
  else if name = "SUBSTR" then
    if a0.isNull || a1.isNull then .null
    else
      let a2 := args.getD 2 .null
      .text (substr (valueAsString a0) a1.intValue
        (if args.length = 3 && !a2.isNull then some a2.intValue else none))
  else if name = "ABS" then
    match a0 with
    | .null => .null
    | .double bits => .ofFloat (Float.ofBits bits).abs
    | a0 => .int (if a0.intValue < 0 then -a0.intValue else a0.intValue)
  else if name = "CEIL" then
    if a0.isNumeric then .int (toInt64 a0.asDouble.ceil.toBits) else .null
  else if name = "FLOOR" then
    if a0.isNumeric then .int (toInt64 a0.asDouble.floor.toBits) else .null
  else if name = "ROUND" then
    if a0.isNumeric then
      .ofFloat (roundTo a0.asDouble
        (if args.length = 2 && !a1.isNull then a1.intValue.toInt32 else 0))
    else .null
  else if name = "MOD" then
    if a0.isNull || a1.isNull || a1.intValue == 0 then .null
    else .int (a0.intValue % a1.intValue)
  else .null

/-! ## Operators -/

def compares (op : ComparisonOp) (cmp : Ordering) : Bool :=
  match op with
  | .Eq => cmp == .eq
  | .Neq => cmp != .eq
  | .Lt => cmp == .lt
  | .Leq => cmp != .gt
  | .Gt => cmp == .gt
  | .Geq => cmp != .lt

def evalBinary (op : ComparisonOp) (l r : Value) : Value :=
  match compareValues l r with
  | none => .null
  | some cmp => .bool (compares op cmp)

def evalLogical (op : LogicalOp) (l r : Option Bool) : Value :=
  match op with
  | .And =>
    if l = some false ∨ r = some false then .bool false
    else if l.isSome ∧ r.isSome then .bool true
    else .null
  | .Or =>
    if l = some true ∨ r = some true then .bool true
    else if l.isSome ∧ r.isSome then .bool false
    else .null

def evalArithmetic (op : ArithmeticOp) (l r : Value) : Value :=
  match l, r with
  | .int a, .int b =>
    match op with
    | .Add => .int (a + b)
    | .Sub => .int (a - b)
    | .Mul => .int (a * b)
    | .Div => if b = 0 then .null else .int (a / b)
  | l, r =>
    if l.isNumeric && r.isNumeric then
      let a := l.asDouble
      let b := r.asDouble
      match op with
      | .Add => .ofFloat (a + b)
      | .Sub => .ofFloat (a - b)
      | .Mul => .ofFloat (a * b)
      | .Div => if b == 0.0 then .null else .ofFloat (a / b)
    else .null

def evalNot (o : Value) : Value :=
  match o with
  | .bool b => .bool !b
  | _ => .null

def evalIn (v : Value) (items : List Value) (negated : Bool) : Value :=
  if v.isNull then .null
  else if items.any fun item => compareValues v item == some .eq then .bool !negated
  else if items.any Value.isNull then .null
  else .bool negated

def evalBetween (v lo hi : Value) (negated : Bool) : Value :=
  match compareValues v lo, compareValues v hi with
  | some cl, some ch => .bool ((cl != .lt && ch != .gt) != negated)
  | _, _ => .null

/-- The loop of `likeMatch`: `otherwise` is what going back to the last `%` gives. A `%` is
first taken as the character that it is. -/
def likeFrom : Bytes → Bytes → Bool → Bool
  | [], s, otherwise => s.isEmpty || otherwise
  | x :: p, [], _ => (x :: p).all (· == 37)
  | x :: p, c :: s, otherwise =>
    if x = 95 ∨ x = c then likeFrom p s otherwise
    else if x = 37 then (c :: s).tails.foldr (likeFrom p) false
    else otherwise

def likeMatch (s pattern : Bytes) : Bool := likeFrom pattern s false

example : likeMatch (ascii "abcab") (ascii "a%b") = true := by decide

def evalLike (v pattern : Value) (negated : Bool) : Value :=
  match v, pattern with
  | .text s, .text p => .bool (likeMatch s p != negated)
  | _, _ => .null

def evalColumn (col : ColumnRef) (t : Tuple) : Value :=
  if col.outerRef then (if col.bound then col.boundValue else .null)
  else if 0 ≤ col.columnIndex then t.getD col.columnIndex.toNat .null
  else .null

mutual

def evalExpression : Expression → Tuple → Value
  | .literal v, _ => v
  | .column col, t => evalColumn col t
  | .binary op l r, t => evalBinary op (evalExpression l t) (evalExpression r t)
  | .logical op l r, t => evalLogical op (evalExpression l t).asBool (evalExpression r t).asBool
  | .arithmetic op l r, t => evalArithmetic op (evalExpression l t) (evalExpression r t)
  | .not operand, t => evalNot (evalExpression operand t)
  | .isNull operand negated, t => .bool ((evalExpression operand t).isNull != negated)
  | .inList v items negated, t => evalIn (evalExpression v t) (evalAll items t) negated
  | .inSubquery v results negated, t => evalIn (evalExpression v t) results negated
  | .between v lo hi negated, t =>
    evalBetween (evalExpression v t) (evalExpression lo t) (evalExpression hi t) negated
  | .like v pattern negated, t => evalLike (evalExpression v t) (evalExpression pattern t) negated
  | .call name args, t => evalCall name (evalAll args t)
  | .cast arg target, t => castValue (evalExpression arg t) target
  | .case branches none, t => (evalBranches branches t).getD .null
  | .case branches (some e), t => (evalBranches branches t).getD (evalExpression e t)
  | .aggregate .., _ => .null
  | .subquery .Scalar results, _ => results.headD .null
  | .subquery .Exists results, _ => .bool !results.isEmpty

def evalAll : List Expression → Tuple → List Value
  | [], _ => []
  | e :: es, t => evalExpression e t :: evalAll es t

/-- The value of the first branch whose condition is true. -/
def evalBranches : List (Expression × Expression) → Tuple → Option Value
  | [], _ => none
  | (cond, value) :: branches, t =>
    if evalExpression cond t = .bool true then some (evalExpression value t)
    else evalBranches branches t

end

mutual

/-- The expression with `f` applied to its column references. -/
def mapColumns (f : ColumnRef → ColumnRef) : Expression → Expression
  | .literal v => .literal v
  | .column col => .column (f col)
  | .binary op l r => .binary op (mapColumns f l) (mapColumns f r)
  | .logical op l r => .logical op (mapColumns f l) (mapColumns f r)
  | .arithmetic op l r => .arithmetic op (mapColumns f l) (mapColumns f r)
  | .not operand => .not (mapColumns f operand)
  | .isNull operand negated => .isNull (mapColumns f operand) negated
  | .inList v items negated => .inList (mapColumns f v) (mapAll f items) negated
  | .inSubquery v results negated => .inSubquery (mapColumns f v) results negated
  | .between v lo hi negated => .between (mapColumns f v) (mapColumns f lo) (mapColumns f hi) negated
  | .like v pattern negated => .like (mapColumns f v) (mapColumns f pattern) negated
  | .call name args => .call name (mapAll f args)
  | .cast arg target => .cast (mapColumns f arg) target
  | .case branches none => .case (mapBranches f branches) none
  | .case branches (some e) => .case (mapBranches f branches) (some (mapColumns f e))
  | .aggregate name star distinct argument => .aggregate name star distinct (argument.map f)
  | .subquery kind results => .subquery kind results

def mapAll (f : ColumnRef → ColumnRef) : List Expression → List Expression
  | [] => []
  | e :: es => mapColumns f e :: mapAll f es

def mapBranches (f : ColumnRef → ColumnRef) :
    List (Expression × Expression) → List (Expression × Expression)
  | [] => []
  | (cond, value) :: branches => (mapColumns f cond, mapColumns f value) :: mapBranches f branches

end

/-- What `bindSubquery` makes of the WHEN clause of a subquery: the references to columns of
the enclosing query get the values that its row has. -/
def bindOuter (outerRow : Tuple) : Expression → Expression :=
  mapColumns fun ref =>
    if ref.outerRef then
      { ref with
        bound := true
        boundValue :=
          if 0 ≤ ref.columnIndex then outerRow.getD ref.columnIndex.toNat .null else .null }
    else ref

end Relite.Vm
