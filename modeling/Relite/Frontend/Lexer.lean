import Relite.Frontend.Ast

/-!
# The lexer

Tokens without their positions, which only error messages show. The end of the input is the
end of the list of tokens.
-/
namespace Relite.Parser
open Lib Vm

inductive TokenType
  | SELECT | FROM | WHERE | INSERT | INTO | VALUES | CREATE | TABLE | INDEX | ON | DELETE | UPDATE
  | SET | DROP | ALTER | TRUNCATE | RETURNING | CONFLICT | DO | NOTHING | ADD | COLUMN
  | REFERENCES | FOREIGN | KEY | PRIMARY | UNIQUE | DEFAULT | CHECK | AUTOINCR | CASCADE
  | RESTRICT | ORDER | BY | GROUP | HAVING | OVER | PARTITION | OF | LIMIT | OFFSET | CASE | THEN
  | ELSE | END | EXPLAIN | VIEW | AS | ASC | DESC | JOIN | LEFT | RIGHT | FULL | CROSS | DISTINCT
  | UNION | INTERSECT | EXCEPT | ALL | IS | IN | BETWEEN | LIKE | NULL_LITERAL | EXISTS | BEGIN
  | COMMIT | ROLLBACK | AND | OR | NOT | INT_TYPE | BOOL_TYPE | TEXT_TYPE | VARCHAR
  | FLOAT_TYPE | DATE_TYPE | TIMESTAMP_TYPE | TRUE | FALSE
  | IDENTIFIER | INTEGER_LITERAL | FLOAT_LITERAL | STRING_LITERAL
  | EQ | NEQ | LT | LEQ | GT | GEQ | PLUS | MINUS | SLASH | LPAREN | RPAREN | COMMA | SEMICOLON
  | STAR | DOT | UNKNOWN
  deriving DecidableEq, Repr

open TokenType in
def keywordTable : List (String × TokenType) := [
  ("FETCH", SELECT), ("FROM", FROM), ("WHEN", WHERE), ("PUT", INSERT), ("INTO", INTO),
  ("VALUES", VALUES), ("BUILD", CREATE), ("RELATION", TABLE), ("INDEX", INDEX), ("ON", ON),
  ("REMOVE", DELETE), ("AND", AND), ("OR", OR), ("NOT", NOT), ("INT", INT_TYPE),
  ("INTEGER", INT_TYPE), ("BIGINT", INT_TYPE), ("SMALLINT", INT_TYPE), ("BOOL", BOOL_TYPE),
  ("BOOLEAN", BOOL_TYPE), ("TEXT", TEXT_TYPE), ("VARCHAR", VARCHAR), ("FLOAT", FLOAT_TYPE),
  ("DOUBLE", FLOAT_TYPE), ("REAL", FLOAT_TYPE), ("DECIMAL", FLOAT_TYPE), ("NUMERIC", FLOAT_TYPE),
  ("DATE", DATE_TYPE), ("TIMESTAMP", TIMESTAMP_TYPE), ("DATETIME", TIMESTAMP_TYPE),
  ("TRUE", TRUE), ("FALSE", FALSE), ("MODIFY", UPDATE), ("SET", SET), ("DISCARD", DROP),
  ("SORT", ORDER), ("BY", BY), ("GROUP", GROUP), ("HAVING", HAVING), ("TAKE", LIMIT),
  ("OVER", OVER), ("PARTITION", PARTITION), ("OF", OF), ("SKIP", OFFSET), ("CASE", CASE),
  ("THEN", THEN), ("ELSE", ELSE), ("END", END), ("EXPLAIN", EXPLAIN), ("VIEW", VIEW), ("AS", AS),
  ("ASC", ASC), ("DESC", DESC), ("LINK", JOIN), ("LEFT", LEFT), ("CROSS", CROSS),
  ("RIGHT", RIGHT), ("FULL", FULL), ("IS", IS), ("IN", IN), ("BETWEEN", BETWEEN), ("LIKE", LIKE),
  ("NULL", NULL_LITERAL), ("START", BEGIN), ("SAVE", COMMIT), ("UNDO", ROLLBACK),
  ("RESHAPE", ALTER), ("ADD", ADD), ("TRUNCATE", TRUNCATE), ("RETURNING", RETURNING),
  ("CONFLICT", CONFLICT), ("DO", DO), ("NOTHING", NOTHING), ("COLUMN", COLUMN),
  ("REFERENCES", REFERENCES), ("FOREIGN", FOREIGN), ("KEY", KEY), ("PRIMARY", PRIMARY),
  ("UNIQUE", UNIQUE), ("DEFAULT", DEFAULT), ("CHECK", CHECK), ("AUTO_INCREMENT", AUTOINCR),
  ("SERIAL", AUTOINCR), ("CASCADE", CASCADE), ("RESTRICT", RESTRICT), ("UNIQUEONLY", DISTINCT),
  ("UNION", UNION), ("INTERSECT", INTERSECT), ("EXCEPT", EXCEPT), ("ALL", ALL),
  ("EXISTS", EXISTS)]

structure Token where
  type : TokenType
  lexeme : Bytes
  deriving DecidableEq, Repr

/-- Bytes as the characters of the same codes. -/
def toText (s : Bytes) : String := String.ofList (s.map fun b => Char.ofNat b.toNat)

def byte (c : Char) : UInt8 := UInt8.ofNat c.toNat

def isIdentifierStart (b : UInt8) : Bool :=
  65 ≤ b && b ≤ 90 || 97 ≤ b && b ≤ 122 || b == byte '_'

def isIdentifierPart (b : UInt8) : Bool := isIdentifierStart b || isDigit b

def isBlank (b : UInt8) : Bool := b == byte ' ' || b == 9 || b == 13 || b == 10

/-- Comments go to the end of the line. -/
def skipWhitespaceAndComments (inComment : Bool) : Bytes → Bytes
  | [] => []
  | c :: s =>
    if inComment then skipWhitespaceAndComments (c ≠ 10) s
    else if isBlank c then skipWhitespaceAndComments false s
    else if c = byte '-' ∧ s.head? = some (byte '-') then skipWhitespaceAndComments true s
    else c :: s

/-- The type of a word: that of the keyword, or an identifier. -/
def wordType (lexeme : Bytes) : TokenType :=
  (keywordTable.lookup (toText (lexeme.map upper))).getD .IDENTIFIER

def scanIdentifierOrKeyword (s : Bytes) : Token × Bytes :=
  let lexeme := s.takeWhile isIdentifierPart
  (⟨wordType lexeme, lexeme⟩, s.dropWhile isIdentifierPart)

def scanNumber (s : Bytes) : Token × Bytes :=
  let whole := s.takeWhile isDigit
  match s.dropWhile isDigit with
  | point :: d :: t =>
    if point = byte '.' ∧ isDigit d then
      (⟨.FLOAT_LITERAL, whole ++ point :: (d :: t).takeWhile isDigit⟩, (d :: t).dropWhile isDigit)
    else (⟨.INTEGER_LITERAL, whole⟩, point :: d :: t)
  | rest => (⟨.INTEGER_LITERAL, whole⟩, rest)

/-- What a string stands for, up to its closing quote, and what comes after it. -/
def stringEnd : Bytes → Bytes × Option Bytes
  | [] => ([], none)
  | 39 :: 39 :: s => let (value, rest) := stringEnd s; (39 :: value, rest)
  | 39 :: s => ([], some s)
  | c :: s => let (value, rest) := stringEnd s; (c :: value, rest)

def scanString (s : Bytes) : Token × Bytes :=
  match stringEnd s with
  | (value, some rest) => (⟨.STRING_LITERAL, value⟩, rest)
  | (value, none) => (⟨.UNKNOWN, value⟩, [])

def symbolTable : List (Char × TokenType) :=
  [('(', .LPAREN), (')', .RPAREN), (',', .COMMA), (';', .SEMICOLON), ('*', .STAR), ('+', .PLUS),
    ('-', .MINUS), ('/', .SLASH), ('.', .DOT), ('=', .EQ), ('<', .LT), ('>', .GT)]

def symbolPairs : List ((Char × Char) × TokenType) :=
  [(('<', '='), .LEQ), (('<', '>'), .NEQ), (('>', '='), .GEQ), (('!', '='), .NEQ)]

/-- A symbol of one character, or of two where the next one belongs to it. -/
def scanSymbol (c : UInt8) (s : Bytes) : Token × Bytes :=
  match symbolPairs.find? fun p => c = byte p.1.1 ∧ s.head? = some (byte p.1.2) with
  | some p => (⟨p.2, [c, byte p.1.2]⟩, s.tail)
  | none => (⟨((symbolTable.find? fun p => c = byte p.1).map Prod.snd).getD .UNKNOWN, [c]⟩, s)

def scanToken (c : UInt8) (s : Bytes) : Token × Bytes :=
  if isIdentifierStart c then scanIdentifierOrKeyword (c :: s)
  else if isDigit c then scanNumber (c :: s)
  else if c = byte '\'' then scanString s
  else scanSymbol c s

def nextToken (s : Bytes) : Option (Token × Bytes) :=
  match skipWhitespaceAndComments false s with
  | [] => none
  | c :: s => some (scanToken c s)

/-- The first `n` tokens. -/
def tokens : Nat → Bytes → List Token
  | 0, _ => []
  | n + 1, s =>
    match nextToken s with
    | none => []
    | some (token, rest) => token :: tokens n rest

/-- There are no more tokens than characters. -/
def tokenize (source : Bytes) : List Token := tokens source.length source

example : (tokenize (ascii "a<>'it''s' -- x")).map Token.type =
    [.IDENTIFIER, .NEQ, .STRING_LITERAL] := by decide

/-! ## Progress -/

theorem length_skip (inComment : Bool) (s : Bytes) :
    (skipWhitespaceAndComments inComment s).length ≤ s.length := by
  induction s generalizing inComment with
  | nil => simp [skipWhitespaceAndComments]
  | cons c s ih =>
    unfold skipWhitespaceAndComments
    split
    · exact (ih _).trans (by simp)
    split
    · exact (ih _).trans (by simp)
    split
    · exact (ih _).trans (by simp)
    · exact le_rfl

theorem length_dropWhile_le {α : Type} (p : α → Bool) (l : List α) :
    (l.dropWhile p).length ≤ l.length := (List.dropWhile_suffix p).length_le

theorem length_stringEnd {s value rest : Bytes} (h : stringEnd s = (value, some rest)) :
    rest.length < s.length + 1 := by
  fun_induction stringEnd s generalizing value rest with
  | case1 => cases h
  | case2 s value' rest' he ih =>
    cases h
    have := ih he
    simp only [List.length_cons]
    omega
  | case3 s =>
    cases h
    simp only [List.length_cons]
    omega
  | case4 c s _ _ value' rest' he ih =>
    cases h
    have := ih he
    simp only [List.length_cons]
    omega

theorem length_scanToken (c : UInt8) (s : Bytes) : (scanToken c s).2.length ≤ s.length := by
  have hdrop : ∀ p : UInt8 → Bool, p c = true → ((c :: s).dropWhile p).length ≤ s.length :=
    fun p hp => by
      rw [List.dropWhile_cons_of_pos hp]
      exact length_dropWhile_le p s
  unfold scanToken
  split
  · exact hdrop _ (by simp [isIdentifierPart, *])
  split
  · rename_i hdigit
    have hrest := hdrop isDigit hdigit
    unfold scanNumber
    simp only
    split
    · rename_i point d t heq
      rw [heq] at hrest
      split
      · have := length_dropWhile_le isDigit (d :: t)
        simp only [List.length_cons] at this hrest ⊢
        omega
      · exact hrest
    · exact hrest
  split
  · unfold scanString
    split
    · rename_i value rest heq
      have := length_stringEnd heq
      simp only
      omega
    · simp
  · unfold scanSymbol
    split
    · simp
    · exact le_rfl

theorem length_nextToken {s rest : Bytes} {token : Token} (h : nextToken s = some (token, rest)) :
    rest.length < s.length := by
  have hskip := length_skip false s
  unfold nextToken at h
  split at h
  · cases h
  · rename_i c t heq
    rw [heq] at hskip
    have := length_scanToken c t
    rw [Option.some.inj h] at this
    simp only [List.length_cons] at hskip
    simp only at this
    omega

theorem tokens_of_le {n : Nat} {s : Bytes} (h : s.length ≤ n) : tokens n s = tokenize s := by
  have hall : ∀ n m : Nat, ∀ s : Bytes, s.length ≤ n → s.length ≤ m → tokens n s = tokens m s := by
    intro n
    induction n with
    | zero =>
      intro m s hn hm
      obtain rfl : s = [] := List.eq_nil_of_length_eq_zero (by omega)
      cases m <;> rfl
    | succ n ih =>
      intro m s hn hm
      cases m with
      | zero =>
        obtain rfl : s = [] := List.eq_nil_of_length_eq_zero (by omega)
        rfl
      | succ m =>
        unfold tokens
        split
        · rfl
        · rename_i token rest hnext
          have := length_nextToken hnext
          rw [ih m rest (by omega) (by omega)]
  exact hall n s.length s h le_rfl

/-- Tokens are scanned one after the other. -/
theorem tokenize_eq (s : Bytes) : tokenize s =
    match nextToken s with
    | none => []
    | some (token, rest) => token :: tokenize rest := by
  rw [← tokens_of_le (Nat.le_succ s.length)]
  unfold tokens
  split
  · rfl
  · rename_i token rest hnext
    rw [tokens_of_le (length_nextToken hnext).le]

end Relite.Parser
