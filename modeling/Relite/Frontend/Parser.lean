import Relite.Frontend.Lexer

/-!
# The parser of expressions

Recursive descent over the list of tokens that are left. A number bounds how deep the
descent goes; `parseWholeExpression` starts with more than any expression of that many
tokens needs. How many tokens the query in a subquery takes is a parameter.
-/
namespace Relite.Parser
open Lib Vm

/-- The exceptions that leave the parser. -/
inductive Thrown
  | ParseError (message : String)
  | out_of_range (message : String)
  | runtime_error (message : String)
  deriving DecidableEq, Repr

def error {α : Type} (message : String) : Except Thrown α := .error (.ParseError message)

def check (type : TokenType) (ts : List Token) : Bool := ts.head?.any fun t => t.type = type

def consume (type : TokenType) (what : String) : List Token → Except Thrown (Token × List Token)
  | t :: ts => if t.type = type then .ok (t, ts) else error ("expected " ++ what)
  | [] => error ("expected " ++ what)

def toComparisonOp : TokenType → Option ComparisonOp
  | .EQ => some .Eq
  | .NEQ => some .Neq
  | .LT => some .Lt
  | .LEQ => some .Leq
  | .GT => some .Gt
  | .GEQ => some .Geq
  | _ => none

def isLiteralToken (type : TokenType) : Bool :=
  type = .INTEGER_LITERAL || type = .FLOAT_LITERAL || type = .STRING_LITERAL || type = .TRUE ||
    type = .FALSE || type = .NULL_LITERAL

def upperName (lexeme : Bytes) : String := toText (lexeme.map upper)

def isAggregateName (lexeme : Bytes) : Bool :=
  ["COUNT", "SUM", "AVG", "MIN", "MAX"].contains (upperName lexeme)

def makeLiteral (tok : Token) : Except Thrown Value :=
  match tok.type with
  | .INTEGER_LITERAL =>
    match stoll tok.lexeme with
    | some n => .ok (.int n)
    | none => error "integer literal out of range"
  | .FLOAT_LITERAL =>
    match stod tok.lexeme with
    | some bits => .ok (.double bits)
    | none => .error (.out_of_range "stod")
  | .STRING_LITERAL => .ok (.text tok.lexeme)
  | .TRUE => .ok (.bool true)
  | .FALSE => .ok (.bool false)
  | .NULL_LITERAL => .ok .null
  | _ => error "expected a literal value"

/-- The negation of a number. -/
def negateLiteral : Value → Value
  | .int n => .int (-n)
  | .double bits => .double (bits ^^^ signBit)
  | v => v

def parsePlainLiteral : List Token → Except Thrown (Value × List Token)
  | t :: ts =>
    if isLiteralToken t.type then do
      let v ← makeLiteral t
      return (v, ts)
    else error "expected a literal value"
  | [] => error "expected a literal value"

def isNumber (type : TokenType) : Bool := type = .INTEGER_LITERAL || type = .FLOAT_LITERAL

def parseLiteral : List Token → Except Thrown (Value × List Token)
  | sign :: t :: ts =>
    if (sign.type = .MINUS ∨ sign.type = .PLUS) ∧ isNumber t.type then do
      let v ← makeLiteral t
      return (if sign.type = .MINUS then negateLiteral v else v, ts)
    else parsePlainLiteral (sign :: t :: ts)
  | ts => parsePlainLiteral ts

/-- The literals of an IN list; there are no more of them than tokens. -/
def parseItems : Nat → List Token → Except Thrown (List Expression × List Token)
  | 0, _ => error "expected a literal value"
  | n + 1, ts => do
    let (v, ts) ← parseLiteral ts
    if check .COMMA ts then
      let (items, ts) ← parseItems n ts.tail
      return (.literal v :: items, ts)
    else return ([.literal v], ts)

def parseCastType : List Token → Except Thrown (DataType × List Token)
  | t :: ts =>
    match t.type with
    | .INT_TYPE => .ok (.Int, ts)
    | .FLOAT_TYPE => .ok (.Float, ts)
    | .BOOL_TYPE => .ok (.Bool, ts)
    | .TEXT_TYPE => .ok (.Text, ts)
    | .DATE_TYPE => .ok (.Date, ts)
    | .TIMESTAMP_TYPE => .ok (.Timestamp, ts)
    | .VARCHAR =>
      if check .LPAREN ts then do
        let (_, ts) ← consume .INTEGER_LITERAL "VARCHAR length" ts.tail
        let (_, ts) ← consume .RPAREN "')'" ts
        return (.Varchar, ts)
      else .ok (.Varchar, ts)
    | _ => error "expected a type in CAST"
  | [] => error "expected a type in CAST"

def parseColumnRef (ts : List Token) : Except Thrown (ColumnRef × List Token) := do
  let (first, ts) ← consume .IDENTIFIER "column name" ts
  if check .DOT ts then
    let (column, ts) ← consume .IDENTIFIER "column name" ts.tail
    return ({ table := toText first.lexeme, column := toText column.lexeme }, ts)
  else return ({ column := toText first.lexeme }, ts)

def parseAggregate (ts : List Token) : Except Thrown (Expression × List Token) := do
  let (name, ts) ← consume .IDENTIFIER "function name" ts
  let (_, ts) ← consume .LPAREN "'('" ts
  let distinct := check .DISTINCT ts
  let ts := if distinct then ts.tail else ts
  if check .STAR ts then
    let (_, ts) ← consume .RPAREN "')'" ts.tail
    return (.aggregate (upperName name.lexeme) true distinct none, ts)
  else
    let (argument, ts) ← parseColumnRef ts
    let (_, ts) ← consume .RPAREN "')'" ts
    return (.aggregate (upperName name.lexeme) false distinct (some argument), ts)

/-- A level of operators that associate to the left: what `next` reads, joined by the
operators of the level. Each round takes a token. -/
def leftLoop (next : List Token → Except Thrown (Expression × List Token))
    (op? : TokenType → Option (Expression → Expression → Expression)) :
    Nat → Expression → List Token → Except Thrown (Expression × List Token)
  | n + 1, e, t :: ts =>
    match op? t.type with
    | none => .ok (e, t :: ts)
    | some join => do
      let (right, ts) ← next ts
      leftLoop next op? n (join e right) ts
  | _, e, ts => .ok (e, ts)

def orOp : TokenType → Option (Expression → Expression → Expression)
  | .OR => some (.logical .Or)
  | _ => none

def andOp : TokenType → Option (Expression → Expression → Expression)
  | .AND => some (.logical .And)
  | _ => none

def additiveOp : TokenType → Option (Expression → Expression → Expression)
  | .PLUS => some (.arithmetic .Add)
  | .MINUS => some (.arithmetic .Sub)
  | _ => none

def multiplicativeOp : TokenType → Option (Expression → Expression → Expression)
  | .STAR => some (.arithmetic .Mul)
  | .SLASH => some (.arithmetic .Div)
  | _ => none

/-- A minus before a literal goes into it, any other is a subtraction from zero. -/
def negate : Expression → Expression
  | .literal (.int n) => .literal (negateLiteral (.int n))
  | .literal (.double bits) => .literal (negateLiteral (.double bits))
  | e => .arithmetic .Sub (.literal (.int 0)) e

variable (subquery : List Token → Except Thrown Nat)

/-- The query of a subquery begins with FETCH. -/
def parseSubquery (ts : List Token) : Except Thrown (List Token) := do
  let (_, ts) ← consume .SELECT "FETCH" ts
  let taken ← subquery ts
  return ts.drop taken

mutual

def parseExpression : Nat → List Token → Except Thrown (Expression × List Token)
  | 0, _ => error "nested too deeply"
  | n + 1, ts => parseOr n ts

def parseOr : Nat → List Token → Except Thrown (Expression × List Token)
  | 0, _ => error "nested too deeply"
  | n + 1, ts => do
    let (e, ts) ← parseAnd n ts
    leftLoop (parseAnd n) orOp ts.length e ts

def parseAnd : Nat → List Token → Except Thrown (Expression × List Token)
  | 0, _ => error "nested too deeply"
  | n + 1, ts => do
    let (e, ts) ← parseNot n ts
    leftLoop (parseNot n) andOp ts.length e ts

def parseNot : Nat → List Token → Except Thrown (Expression × List Token)
  | 0, _ => error "nested too deeply"
  | n + 1, ts =>
    if check .NOT ts then do
      let (operand, ts) ← parseNot n ts.tail
      return (.not operand, ts)
    else parseComparison n ts

def parseComparison : Nat → List Token → Except Thrown (Expression × List Token)
  | 0, _ => error "nested too deeply"
  | n + 1, ts => do
    let (left, ts) ← parseAdditive n ts
    if check .IS ts then
      let negated := check .NOT ts.tail
      let ts := if negated then ts.tail.tail else ts.tail
      let (_, ts) ← consume .NULL_LITERAL "NULL" ts
      return (.isNull left negated, ts)
    else
      let negated := check .NOT ts &&
        (check .IN ts.tail || check .BETWEEN ts.tail || check .LIKE ts.tail)
      let ts := if negated then ts.tail else ts
      if check .IN ts then
        let (_, ts) ← consume .LPAREN "'('" ts.tail
        if check .SELECT ts then
          let ts ← parseSubquery subquery ts
          let (_, ts) ← consume .RPAREN "')'" ts
          return (.inSubquery left [] negated, ts)
        else
          let (items, ts) ← parseItems ts.length ts
          let (_, ts) ← consume .RPAREN "')'" ts
          return (.inList left items negated, ts)
      else if check .BETWEEN ts then
        let (lo, ts) ← parseAdditive n ts.tail
        let (_, ts) ← consume .AND "AND" ts
        let (hi, ts) ← parseAdditive n ts
        return (.between left lo hi negated, ts)
      else if check .LIKE ts then
        let (pattern, ts) ← parseAdditive n ts.tail
        return (.like left pattern negated, ts)
      else
        match ts.head?.bind fun t => toComparisonOp t.type with
        | some op =>
          let (right, ts) ← parseAdditive n ts.tail
          return (.binary op left right, ts)
        | none => return (left, ts)

def parseAdditive : Nat → List Token → Except Thrown (Expression × List Token)
  | 0, _ => error "nested too deeply"
  | n + 1, ts => do
    let (e, ts) ← parseMultiplicative n ts
    leftLoop (parseMultiplicative n) additiveOp ts.length e ts

def parseMultiplicative : Nat → List Token → Except Thrown (Expression × List Token)
  | 0, _ => error "nested too deeply"
  | n + 1, ts => do
    let (e, ts) ← parseUnary n ts
    leftLoop (parseUnary n) multiplicativeOp ts.length e ts

def parseUnary : Nat → List Token → Except Thrown (Expression × List Token)
  | 0, _ => error "nested too deeply"
  | n + 1, ts =>
    if check .MINUS ts then do
      let (operand, ts) ← parseUnary n ts.tail
      return (negate operand, ts)
    else if check .PLUS ts then parseUnary n ts.tail
    else parsePrimary n ts

def parsePrimary : Nat → List Token → Except Thrown (Expression × List Token)
  | 0, _ => error "nested too deeply"
  | _ + 1, [] => error "expected an expression"
  | n + 1, t :: ts =>
    if t.type = .CASE then parseCase n (t :: ts)
    else if t.type = .IDENTIFIER ∧ check .LPAREN ts then
      if isAggregateName t.lexeme then parseAggregate (t :: ts) else parseCall n (t :: ts)
    else if t.type = .EXISTS then do
      let (_, ts) ← consume .LPAREN "'('" ts
      let ts ← parseSubquery subquery ts
      let (_, ts) ← consume .RPAREN "')'" ts
      return (.subquery .Exists [], ts)
    else if t.type = .LPAREN then
      if check .SELECT ts then do
        let ts ← parseSubquery subquery ts
        let (_, ts) ← consume .RPAREN "')'" ts
        return (.subquery .Scalar [], ts)
      else do
        let (e, ts) ← parseOr n ts
        let (_, ts) ← consume .RPAREN "')'" ts
        return (e, ts)
    else if isLiteralToken t.type then do
      let v ← makeLiteral t
      return (.literal v, ts)
    else if t.type = .IDENTIFIER then do
      let (col, ts) ← parseColumnRef (t :: ts)
      return (.column col, ts)
    else error "expected an expression"

def parseCall : Nat → List Token → Except Thrown (Expression × List Token)
  | 0, _ => error "nested too deeply"
  | n + 1, ts => do
    let (name, ts) ← consume .IDENTIFIER "function name" ts
    let (_, ts) ← consume .LPAREN "'('" ts
    if upperName name.lexeme = "CAST" then
      let (arg, ts) ← parseExpression n ts
      let (_, ts) ← consume .AS "AS" ts
      let (target, ts) ← parseCastType ts
      let (_, ts) ← consume .RPAREN "')'" ts
      return (.cast arg target, ts)
    else
      let (args, ts) ← (if check .RPAREN ts then .ok ([], ts) else parseArgs n ts)
      let (_, ts) ← consume .RPAREN "')'" ts
      return (.call (upperName name.lexeme) args, ts)

def parseArgs : Nat → List Token → Except Thrown (List Expression × List Token)
  | 0, _ => error "nested too deeply"
  | n + 1, ts => do
    let (arg, ts) ← parseExpression n ts
    if check .COMMA ts then
      let (args, ts) ← parseArgs n ts.tail
      return (arg :: args, ts)
    else return ([arg], ts)

def parseCase : Nat → List Token → Except Thrown (Expression × List Token)
  | 0, _ => error "nested too deeply"
  | n + 1, ts => do
    let (_, ts) ← consume .CASE "CASE" ts
    let (branches, ts) ← parseBranches n ts
    if branches.isEmpty then error "CASE requires at least one WHEN branch"
    else if check .ELSE ts then
      let (e, ts) ← parseAdditive n ts.tail
      let (_, ts) ← consume .END "END" ts
      return (.case branches (some e), ts)
    else
      let (_, ts) ← consume .END "END" ts
      return (.case branches none, ts)

def parseBranches : Nat → List Token →
    Except Thrown (List (Expression × Expression) × List Token)
  | 0, _ => error "nested too deeply"
  | n + 1, ts =>
    if check .WHERE ts then do
      let (cond, ts) ← parseExpression n ts.tail
      let (_, ts) ← consume .THEN "THEN" ts
      let (value, ts) ← parseAdditive n ts
      let (branches, ts) ← parseBranches n ts
      return ((cond, value) :: branches, ts)
    else .ok ([], ts)

end

def parseWholeExpression (ts : List Token) : Except Thrown Expression := do
  let (e, rest) ← parseExpression subquery (10 * ts.length + 10) ts
  let rest := if check .SEMICOLON rest then rest.tail else rest
  if rest.isEmpty then return e else error "unexpected token after expression"

end Relite.Parser
