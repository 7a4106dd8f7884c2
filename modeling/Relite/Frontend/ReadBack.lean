import Relite.Frontend.Printer

/-!
# Parsing what has been printed

The parser reads the tokens of a printed expression as that expression, and stops behind them.
-/
namespace Relite.Parser
open Lib Vm

/-- None of the types is that of the first token. -/
def Before (ts : List Token) (types : List TokenType) : Prop := ∀ t ∈ ts.head?, t.type ∉ types

section Levels

variable {subquery : List Token → Except Thrown Nat} {n : Nat} {e : Expression}
  {ts rest : List Token} {types : List TokenType}

theorem before_nil : Before [] types := by simp [Before]

theorem before_cons {t : Token} (h : t.type ∉ types) : Before (t :: ts) types := by
  simpa [Before] using h

theorem Before.mono {types' : List TokenType} (h : Before ts types) (hsub : types' ⊆ types) :
    Before ts types' := fun t ht hin => h t ht (hsub hin)

theorem Before.check {type : TokenType} (h : Before ts types) (hin : type ∈ types) :
    check type ts = false := by
  cases ts with
  | nil => rfl
  | cons t ts =>
    have hne : t.type ≠ type := fun he => h t rfl (he ▸ hin)
    simp [Parser.check, hne]

theorem leftLoop_stop {next : List Token → Except Thrown (Expression × List Token)}
    {op? : TokenType → Option (Expression → Expression → Expression)}
    (hrest : ∀ t ∈ rest.head?, op? t.type = none) (k : Nat) :
    leftLoop next op? k e rest = .ok (e, rest) := by
  cases rest with
  | nil => cases k <;> rfl
  | cons t rest =>
    cases k with
    | zero => rfl
    | succ k => rw [leftLoop, hrest t rfl]

/-- An operator and its right side, and the end of the level. -/
theorem leftLoop_step {next : List Token → Except Thrown (Expression × List Token)}
    {op? : TokenType → Option (Expression → Expression → Expression)} {t : Token}
    {join : Expression → Expression → Expression} {right : Expression}
    (ht : op? t.type = some join) (hnext : next ts = .ok (right, rest))
    (hrest : ∀ t ∈ rest.head?, op? t.type = none) :
    leftLoop next op? (t :: ts).length e (t :: ts) = .ok (join e right, rest) := by
  rw [List.length_cons, leftLoop, ht]
  dsimp only
  rw [hnext]
  exact leftLoop_stop hrest _

theorem multiplicativeOp_none {type : TokenType} (h : type ∉ [TokenType.STAR, .SLASH]) :
    multiplicativeOp type = none := by
  unfold multiplicativeOp
  split <;> first | rfl | exact absurd (by decide) h

theorem additiveOp_none {type : TokenType} (h : type ∉ [TokenType.PLUS, .MINUS]) :
    additiveOp type = none := by
  unfold additiveOp
  split <;> first | rfl | exact absurd (by decide) h

theorem andOp_none {type : TokenType} (h : type ∉ [TokenType.AND]) : andOp type = none := by
  unfold andOp
  split <;> first | rfl | exact absurd (by decide) h

theorem orOp_none {type : TokenType} (h : type ∉ [TokenType.OR]) : orOp type = none := by
  unfold orOp
  split <;> first | rfl | exact absurd (by decide) h

def comparisonTypes : List TokenType := [.EQ, .NEQ, .LT, .LEQ, .GT, .GEQ]

theorem toComparisonOp_none {type : TokenType} (h : type ∉ comparisonTypes) :
    toComparisonOp type = none := by
  unfold toComparisonOp
  split <;> first | rfl | exact absurd (by decide) h

/-! ## From level to level -/

theorem multiplicative_of_unary (h : parseUnary subquery n ts = .ok (e, rest))
    (hrest : Before rest [.STAR, .SLASH]) :
    parseMultiplicative subquery (n + 1) ts = .ok (e, rest) := by
  rw [parseMultiplicative, h]
  exact leftLoop_stop (fun t ht => multiplicativeOp_none (hrest t ht)) _

theorem additive_of_multiplicative (h : parseMultiplicative subquery n ts = .ok (e, rest))
    (hrest : Before rest [.PLUS, .MINUS]) : parseAdditive subquery (n + 1) ts = .ok (e, rest) := by
  rw [parseAdditive, h]
  exact leftLoop_stop (fun t ht => additiveOp_none (hrest t ht)) _

theorem comparison_of_additive (h : parseAdditive subquery n ts = .ok (e, rest))
    (hrest : Before rest ([.IS, .NOT, .IN, .BETWEEN, .LIKE] ++ comparisonTypes)) :
    parseComparison subquery (n + 1) ts = .ok (e, rest) := by
  have hop : (rest.head?.bind fun t => toComparisonOp t.type) = none := by
    cases rest with
    | nil => rfl
    | cons t rest =>
      exact toComparisonOp_none fun hin => hrest t rfl (List.mem_append_right _ hin)
  rw [parseComparison, h]
  simp only [Except.bind, bind, hrest.check (show TokenType.IS ∈ _ by decide),
    hrest.check (show TokenType.NOT ∈ _ by decide), hrest.check (show TokenType.IN ∈ _ by decide),
    hrest.check (show TokenType.BETWEEN ∈ _ by decide),
    hrest.check (show TokenType.LIKE ∈ _ by decide), Bool.false_and, Bool.false_eq_true, if_false,
    hop]
  rfl

theorem not_of_comparison (h : parseComparison subquery n ts = .ok (e, rest))
    (hts : Before ts [.NOT]) : parseNot subquery (n + 1) ts = .ok (e, rest) := by
  rw [parseNot, hts.check (by decide), if_neg Bool.false_ne_true, h]

theorem and_of_not (h : parseNot subquery n ts = .ok (e, rest)) (hrest : Before rest [.AND]) :
    parseAnd subquery (n + 1) ts = .ok (e, rest) := by
  rw [parseAnd, h]
  exact leftLoop_stop (fun t ht => andOp_none (hrest t ht)) _

theorem or_of_and (h : parseAnd subquery n ts = .ok (e, rest)) (hrest : Before rest [.OR]) :
    parseOr subquery (n + 1) ts = .ok (e, rest) := by
  rw [parseOr, h]
  exact leftLoop_stop (fun t ht => orOp_none (hrest t ht)) _

theorem or_of_comparison (h : parseComparison subquery n ts = .ok (e, rest))
    (hts : Before ts [.NOT]) (hrest : Before rest [.AND, .OR]) :
    parseOr subquery (n + 3) ts = .ok (e, rest) :=
  or_of_and (and_of_not (not_of_comparison h hts) (hrest.mono (by decide))) (hrest.mono (by decide))

/-- What may stand behind a whole expression. -/
def operatorTypes : List TokenType :=
  [.STAR, .SLASH, .PLUS, .MINUS, .IS, .NOT, .IN, .BETWEEN, .LIKE, .AND, .OR] ++ comparisonTypes

theorem additive_of_unary (h : parseUnary subquery n ts = .ok (e, rest))
    (hrest : Before rest [.STAR, .SLASH, .PLUS, .MINUS]) :
    parseAdditive subquery (n + 2) ts = .ok (e, rest) :=
  additive_of_multiplicative (multiplicative_of_unary h (hrest.mono (by decide)))
    (hrest.mono (by decide))

/-- An expression in parentheses. -/
theorem unary_of_parenthesized (h : parseOr subquery n ts = .ok (e, tok .RPAREN ")" :: rest))
    (hts : Before ts [.SELECT]) :
    parseUnary subquery (n + 2) (tok .LPAREN "(" :: ts) = .ok (e, rest) := by
  rw [parseUnary, show check .MINUS (tok .LPAREN "(" :: ts) = false from rfl,
    show check .PLUS (tok .LPAREN "(" :: ts) = false from rfl, if_neg Bool.false_ne_true,
    if_neg Bool.false_ne_true, parsePrimary]
  simp only [tok, hts.check (show TokenType.SELECT ∈ _ by decide), reduceCtorEq, false_and,
    if_false, Bool.false_eq_true, if_true]
  rw [h]
  rfl

theorem check_tok (type type' : TokenType) (s : String) (ts : List Token) :
    check type (tok type' s :: ts) = decide (type' = type) := rfl

theorem check_self (type : TokenType) (s : String) (ts : List Token) :
    check type (tok type s :: ts) = true := by
  rw [check_tok, decide_eq_true rfl]

theorem consume_tok (type : TokenType) (what s : String) (ts : List Token) :
    consume type what (tok type s :: ts) = .ok (tok type s, ts) := by
  simp [consume, tok]

/-! ## Literals -/

theorem takeSign_of_digit {b : UInt8} (hb : isDigit b) (s : Bytes) :
    takeSign (b :: s) = (false, b :: s) := by
  simp only [isDigit, Bool.and_eq_true, decide_eq_true_eq, UInt8.le_iff_toNat_le] at hb
  rw [takeSign.eq_3]
  · rintro s ⟨rfl, -⟩
    exact absurd hb.1 (by decide)
  · rintro s ⟨rfl, -⟩
    exact absurd hb.1 (by decide)

/-- The digits of a number are read as the number. -/
theorem stoll_toString {n : Nat} (hn : n < 2 ^ 63) :
    stoll (ascii (toString n)) = some (.ofInt n) := by
  obtain ⟨hne, hdigits, hvalue⟩ := IStream.digits_spec n
  rw [Nat.toString_eq_ofList_toDigits, ascii, String.toList_ofList]
  generalize (Nat.toDigits 10 n).map (fun c => UInt8.ofNat c.toNat) = w at hne hdigits hvalue ⊢
  obtain ⟨b, w', rfl⟩ := List.exists_cons_of_ne_nil hne
  have hb : isDigit b := hdigits b List.mem_cons_self
  have hspace : isSpace b = false :=
    Bool.eq_false_iff.mpr (IStream.not_isSpace_of_isDigit (hdigits b List.mem_cons_self))
  have htake : (b :: w').takeWhile isDigit = b :: w' := List.takeWhile_eq_self_iff.mpr hdigits
  have hsum : digitsValue 10 ((b :: w').map fun b => b.toNat - 48) = n := by
    rw [digitsValue, List.foldl_map]
    exact hvalue
  rw [stoll, List.dropWhile_cons_of_neg (by simp [hspace]), takeSign_of_digit hb]
  dsimp only
  rw [htake, hsum, if_neg (by simp), if_neg Bool.false_ne_true, if_pos (by omega)]

theorem magnitude_toNat (bits : UInt64) : (magnitude bits).toNat = bits.toNat % 2 ^ 63 := by
  have hmask : (0x7fffffffffffffff : UInt64).toNat = 2 ^ 63 - 1 := rfl
  rw [magnitude, UInt64.toNat_and, hmask, Nat.and_two_pow_sub_one_eq_mod]

theorem magnitude_of_nonneg {bits : UInt64} (h : isNegative bits = false) :
    magnitude bits = bits := by
  rw [isNegative, decide_eq_false_iff_not, not_le] at h
  rw [← UInt64.toNat_inj, magnitude_toNat, Nat.mod_eq_of_lt h]

/-- The sign goes back to where it has been taken from. -/
theorem magnitude_xor {bits : UInt64} (h : isNegative bits) :
    magnitude bits ^^^ signBit = bits := by
  rw [isNegative, decide_eq_true_eq] at h
  have hsign : signBit.toNat = 2 ^ 63 := rfl
  have hlt := bits.toNat_lt
  have hhigh : (bits.toNat ^^^ 2 ^ 63) / 2 ^ 63 = 0 := by
    rw [Nat.xor_div_two_pow, Nat.div_self (by omega), show bits.toNat / 2 ^ 63 = 1 by omega]
    rfl
  have hlow : (bits.toNat ^^^ 2 ^ 63) % 2 ^ 63 = bits.toNat % 2 ^ 63 := by
    rw [Nat.xor_mod_two_pow, Nat.mod_self, Nat.xor_zero]
  have hmagnitude : magnitude bits = bits ^^^ signBit := by
    rw [← UInt64.toNat_inj, magnitude_toNat, UInt64.toNat_xor, hsign, ← hlow]
    exact Nat.mod_eq_of_lt (by omega)
  rw [hmagnitude, UInt64.xor_assoc, UInt64.xor_self, UInt64.xor_zero]

/-- A literal is a token, or the minus of one that is a number. -/
inductive Signed (v : Value) : List Token → Prop
  | plain {t : Token} (ht : isLiteralToken t.type) (h : makeLiteral t = .ok v) : Signed v [t]
  | minus {t : Token} {w : Value} (ht : isNumber t.type) (h : makeLiteral t = .ok w)
      (hv : negateLiteral w = v) (hw : negate (.literal w) = .literal v) :
      Signed v [tok .MINUS "-", t]

theorem makeLiteral_integer {n : Nat} (hn : n < 2 ^ 63) :
    makeLiteral ⟨.INTEGER_LITERAL, ascii (toString n)⟩ = .ok (.int (.ofInt n)) := by
  rw [makeLiteral, stoll_toString hn]

theorem makeLiteral_float {s : Bytes} {bits : UInt64} (h : stod s = some bits) :
    makeLiteral ⟨.FLOAT_LITERAL, s⟩ = .ok (.double bits) := by
  rw [makeLiteral, h]

theorem stod_of_printable {bits : UInt64} (h : PrintableLiteral (.double bits)) :
    stod (magnitudeText bits) = some (magnitude bits) := by
  rw [PrintableLiteral] at h
  exact h.2

theorem signed_literal {v : Value} (h : PrintableLiteral v) : Signed v (literalTokens v) := by
  cases v with
  | null => exact .plain rfl rfl
  | bool b => cases b <;> exact .plain rfl rfl
  | text s => exact .plain rfl rfl
  | int n =>
    have hn : -2 ^ 63 < n.toInt := h
    have hlt := Int64.toInt_lt n
    have hread : makeLiteral ⟨.INTEGER_LITERAL, ascii (toString n.toInt.natAbs)⟩ =
        .ok (.int (.ofInt n.toInt.natAbs)) := makeLiteral_integer (by omega)
    rw [literalTokens]
    split
    · rename_i hneg
      have hsum : -Int64.ofInt n.toInt.natAbs = n := by
        rw [← Int64.ofInt_neg, show -(n.toInt.natAbs : Int) = n.toInt by omega, Int64.ofInt_toInt]
      have hvalue : negateLiteral (.int (.ofInt n.toInt.natAbs)) = .int n := by
        rw [negateLiteral, hsum]
      exact .minus rfl hread hvalue (by rw [negate, hvalue])
    · rename_i hpos
      rw [show (n.toInt.natAbs : Int) = n.toInt by omega, Int64.ofInt_toInt] at hread
      exact .plain rfl hread
  | double bits =>
    have hread : makeLiteral ⟨.FLOAT_LITERAL, magnitudeText bits⟩ =
        .ok (.double (magnitude bits)) := makeLiteral_float (stod_of_printable h)
    rw [literalTokens]
    split
    · rename_i hneg
      have hvalue : negateLiteral (.double (magnitude bits)) = .double bits := by
        rw [negateLiteral, magnitude_xor hneg]
      exact .minus rfl hread hvalue (by rw [negate, hvalue])
    · rename_i hpos
      rw [magnitude_of_nonneg (by simpa using hpos)] at hread
      exact .plain rfl hread

theorem ne_of_literal {type type' : TokenType} (h : isLiteralToken type)
    (h' : isLiteralToken type' = false) : type ≠ type' := by
  rintro rfl
  rw [h] at h'
  cases h'

theorem isLiteralToken_of_number {type : TokenType} (h : isNumber type) : isLiteralToken type := by
  rw [isNumber, Bool.or_eq_true, decide_eq_true_eq, decide_eq_true_eq] at h
  rcases h with rfl | rfl <;> rfl

theorem parsePlainLiteral_cons {t : Token} {v : Value} (ht : isLiteralToken t.type)
    (h : makeLiteral t = .ok v) : parsePlainLiteral (t :: rest) = .ok (v, rest) := by
  rw [parsePlainLiteral, if_pos ht, h]
  rfl

theorem Signed.parseLiteral {v : Value} (h : Signed v ts) :
    parseLiteral (ts ++ rest) = .ok (v, rest) := by
  cases h with
  | @plain t ht h =>
    cases rest with
    | nil => exact parsePlainLiteral_cons ht h
    | cons t' rest =>
      have hsign : ¬((t.type = .MINUS ∨ t.type = .PLUS) ∧ isNumber t'.type) := fun hs =>
        hs.1.elim (ne_of_literal ht rfl) (ne_of_literal ht rfl)
      rw [List.singleton_append, Parser.parseLiteral, if_neg hsign]
      exact parsePlainLiteral_cons ht h
  | @minus t w ht h hv hw =>
    rw [List.cons_append, List.singleton_append, Parser.parseLiteral, if_pos ⟨.inl rfl, ht⟩, h,
      ← hv]
    rfl

theorem primary_literal {t : Token} {v : Value} (ht : isLiteralToken t.type)
    (h : makeLiteral t = .ok v) :
    parsePrimary subquery (n + 1) (t :: rest) = .ok (.literal v, rest) := by
  rw [parsePrimary, if_neg (ne_of_literal ht rfl),
    if_neg fun hid => ne_of_literal ht (show isLiteralToken .IDENTIFIER = false from rfl) hid.1,
    if_neg (ne_of_literal ht rfl), if_neg (ne_of_literal ht rfl), if_pos ht, h]
  rfl

theorem unary_of_primary (h : parsePrimary subquery n ts = .ok (e, rest))
    (hts : Before ts [.MINUS, .PLUS]) : parseUnary subquery (n + 1) ts = .ok (e, rest) := by
  rw [parseUnary, hts.check (show TokenType.MINUS ∈ _ by decide),
    hts.check (show TokenType.PLUS ∈ _ by decide), if_neg Bool.false_ne_true,
    if_neg Bool.false_ne_true, h]

theorem before_literal {t : Token} (ht : isLiteralToken t.type)
    (htypes : ∀ type ∈ types, isLiteralToken type = false) : Before (t :: ts) types :=
  before_cons fun hin => ne_of_literal ht (htypes _ hin) rfl

theorem Signed.parseUnary {v : Value} (h : Signed v ts) :
    parseUnary subquery (n + 3) (ts ++ rest) = .ok (.literal v, rest) := by
  cases h with
  | @plain t ht h =>
    exact unary_of_primary (primary_literal ht h) (before_literal ht (by decide))
  | @minus t w ht h hv hw =>
    have hnumber := isLiteralToken_of_number ht
    have hoperand : Parser.parseUnary subquery (n + 2) (t :: rest) = .ok (.literal w, rest) :=
      unary_of_primary (primary_literal hnumber h) (before_literal hnumber (by decide))
    rw [List.cons_append, List.singleton_append, Parser.parseUnary, if_pos (check_self _ _ _),
      List.tail_cons, hoperand, ← hw]
    rfl

/-! ## Expressions -/

/-- What the tokens of an expression start with. -/
def startTypes : List TokenType :=
  [.MINUS, .INTEGER_LITERAL, .FLOAT_LITERAL, .STRING_LITERAL, .TRUE, .FALSE, .NULL_LITERAL,
    .IDENTIFIER, .LPAREN, .CASE]

theorem start_of_literal {type : TokenType} (h : isLiteralToken type) : type ∈ startTypes := by
  simp only [isLiteralToken, Bool.or_eq_true, decide_eq_true_eq] at h
  rcases h with ((((rfl | rfl) | rfl) | rfl) | rfl) | rfl <;> decide

theorem Signed.start {v : Value} (h : Signed v ts) :
    ∃ t ts', ts = t :: ts' ∧ t.type ∈ startTypes := by
  cases h with
  | plain ht h => exact ⟨_, _, rfl, start_of_literal ht⟩
  | minus ht h hv hw => exact ⟨_, _, rfl, by decide⟩

theorem exprTokens_start (h : Printable e) :
    ∃ t ts, exprTokens e = t :: ts ∧ t.type ∈ startTypes := by
  cases h with
  | literal h => exact (signed_literal h).start
  | @column col h =>
    rw [exprTokens, columnTokens]
    split
    · exact ⟨_, _, rfl, show TokenType.IDENTIFIER ∈ startTypes by decide⟩
    · exact ⟨_, _, rfl, show TokenType.IDENTIFIER ∈ startTypes by decide⟩
  | call => exact ⟨_, _, rfl, show TokenType.IDENTIFIER ∈ startTypes by decide⟩
  | @case branches elseExpr _ _ _ _ => cases elseExpr <;> exact ⟨_, _, rfl, by decide⟩
  | _ => exact ⟨_, _, rfl, by decide⟩

theorem before_expr (h : Printable e) (htypes : ∀ type ∈ types, type ∉ startTypes) :
    Before (exprTokens e ++ rest) types := by
  obtain ⟨t, ts, heq, ht⟩ := exprTokens_start h
  rw [heq]
  exact before_cons fun hin => htypes _ hin ht

/-- The tokens of an expression are read as the expression, if what stands behind them does not
make them a call or a column of a table. -/
def Reads (subquery : List Token → Except Thrown Nat) (e : Expression) : Prop :=
  ∀ n rest, 10 * (exprTokens e).length ≤ n → Before rest [.DOT, .LPAREN] →
    parseUnary subquery n (exprTokens e ++ rest) = .ok (e, rest)

theorem Reads.multiplicative (h : Reads subquery e) (hn : 10 * (exprTokens e).length < n)
    (hrest : Before rest [.DOT, .LPAREN, .STAR, .SLASH]) :
    parseMultiplicative subquery n (exprTokens e ++ rest) = .ok (e, rest) := by
  obtain ⟨k, rfl⟩ : ∃ k, n = k + 1 := ⟨n - 1, by omega⟩
  exact multiplicative_of_unary (h k rest (by omega) (hrest.mono (by decide)))
    (hrest.mono (by decide))

theorem Reads.additive (h : Reads subquery e) (hn : 10 * (exprTokens e).length + 1 < n)
    (hrest : Before rest [.DOT, .LPAREN, .STAR, .SLASH, .PLUS, .MINUS]) :
    parseAdditive subquery n (exprTokens e ++ rest) = .ok (e, rest) := by
  obtain ⟨k, rfl⟩ : ∃ k, n = k + 1 := ⟨n - 1, by omega⟩
  exact additive_of_multiplicative (h.multiplicative (by omega) (hrest.mono (by decide)))
    (hrest.mono (by decide))

theorem Reads.comparison (h : Reads subquery e) (hn : 10 * (exprTokens e).length + 2 < n)
    (hrest : Before rest ([.DOT, .LPAREN, .STAR, .SLASH, .PLUS, .MINUS] ++
      ([.IS, .NOT, .IN, .BETWEEN, .LIKE] ++ comparisonTypes))) :
    parseComparison subquery n (exprTokens e ++ rest) = .ok (e, rest) := by
  obtain ⟨k, rfl⟩ : ∃ k, n = k + 1 := ⟨n - 1, by omega⟩
  exact comparison_of_additive (h.additive (by omega) (hrest.mono (by decide)))
    (hrest.mono (by decide))

theorem Reads.not (h : Reads subquery e) (hp : Printable e)
    (hn : 10 * (exprTokens e).length + 3 < n)
    (hrest : Before rest ([.DOT, .LPAREN, .STAR, .SLASH, .PLUS, .MINUS] ++
      ([.IS, .NOT, .IN, .BETWEEN, .LIKE] ++ comparisonTypes))) :
    parseNot subquery n (exprTokens e ++ rest) = .ok (e, rest) := by
  obtain ⟨k, rfl⟩ : ∃ k, n = k + 1 := ⟨n - 1, by omega⟩
  exact not_of_comparison (h.comparison (by omega) hrest) (before_expr hp (by decide))

theorem Reads.and (h : Reads subquery e) (hp : Printable e)
    (hn : 10 * (exprTokens e).length + 4 < n)
    (hrest : Before rest (.AND :: ([.DOT, .LPAREN, .STAR, .SLASH, .PLUS, .MINUS] ++
      ([.IS, .NOT, .IN, .BETWEEN, .LIKE] ++ comparisonTypes)))) :
    parseAnd subquery n (exprTokens e ++ rest) = .ok (e, rest) := by
  obtain ⟨k, rfl⟩ : ∃ k, n = k + 1 := ⟨n - 1, by omega⟩
  exact and_of_not (h.not hp (by omega) (hrest.mono (by decide))) (hrest.mono (by decide))

theorem Reads.or (h : Reads subquery e) (hp : Printable e)
    (hn : 10 * (exprTokens e).length + 5 < n)
    (hrest : Before rest ([.DOT, .LPAREN] ++ operatorTypes)) :
    parseOr subquery n (exprTokens e ++ rest) = .ok (e, rest) := by
  obtain ⟨k, rfl⟩ : ∃ k, n = k + 1 := ⟨n - 1, by omega⟩
  exact or_of_and (h.and hp (by omega) (hrest.mono (by decide))) (hrest.mono (by decide))

theorem Reads.expression (h : Reads subquery e) (hp : Printable e)
    (hn : 10 * (exprTokens e).length + 6 < n)
    (hrest : Before rest ([.DOT, .LPAREN] ++ operatorTypes)) :
    parseExpression subquery n (exprTokens e ++ rest) = .ok (e, rest) := by
  obtain ⟨k, rfl⟩ : ∃ k, n = k + 1 := ⟨n - 1, by omega⟩
  exact h.or hp (by omega) hrest

theorem inParentheses_append (ts rest : List Token) :
    inParentheses ts ++ rest = tok .LPAREN "(" :: (ts ++ tok .RPAREN ")" :: rest) := by
  simp [inParentheses]

theorem length_inParentheses (ts : List Token) : (inParentheses ts).length = ts.length + 2 := by
  simp [inParentheses]

/-- A comparison in parentheses. -/
theorem unary_of_comparison {ts : List Token} (hts : Before ts [.NOT, .SELECT])
    (h : parseComparison subquery n (ts ++ tok .RPAREN ")" :: rest) =
      .ok (e, tok .RPAREN ")" :: rest)) (hne : ts ≠ []) :
    parseUnary subquery (n + 5) (inParentheses ts ++ rest) = .ok (e, rest) := by
  obtain ⟨t, ts, rfl⟩ := List.exists_cons_of_ne_nil hne
  rw [inParentheses_append]
  have hbefore : Before (t :: ts ++ tok .RPAREN ")" :: rest) [.NOT, .SELECT] := hts
  exact unary_of_parenthesized (or_of_comparison h (hbefore.mono (by decide))
    (before_cons (by decide))) (hbefore.mono (by decide))

/-! ### One construct after the other -/

theorem Printable.length_pos (h : Printable e) : 0 < (exprTokens e).length := by
  obtain ⟨t, ts, heq, -⟩ := exprTokens_start h
  rw [heq]
  exact Nat.succ_pos _

theorem reads_literal {v : Value} (h : PrintableLiteral v) : Reads subquery (.literal v) := by
  intro n rest hn _
  have hpos := (Printable.literal h).length_pos
  obtain ⟨k, rfl⟩ : ∃ k, n = k + 3 := ⟨n - 3, by omega⟩
  rw [exprTokens]
  exact (signed_literal h).parseUnary

theorem primary_column {t : Token} {ts : List Token} {col : ColumnRef} (ht : t.type = .IDENTIFIER)
    (hts : check .LPAREN ts = false) (h : parseColumnRef (t :: ts) = .ok (col, rest)) :
    parsePrimary subquery (n + 1) (t :: ts) = .ok (.column col, rest) := by
  rw [parsePrimary, ht, if_neg (by decide), if_neg (by simp [hts]), if_neg (by decide),
    if_neg (by decide), if_neg (by decide), if_pos rfl, h]
  rfl

theorem reads_column {col : ColumnRef} (h : PrintableColumn col) :
    Reads subquery (.column col) := by
  intro n rest hn hrest
  have hpos := (Printable.column h).length_pos
  obtain ⟨k, rfl⟩ : ∃ k, n = k + 2 := ⟨n - 2, by omega⟩
  obtain ⟨hcol, ⟨-, -, hcolumn⟩, htable⟩ := h
  have hdot := hrest.check (show TokenType.DOT ∈ _ by decide)
  have hparen := hrest.check (show TokenType.LPAREN ∈ _ by decide)
  have hword : TokenType.IDENTIFIER ∉ [TokenType.MINUS, .PLUS] := by decide
  rw [exprTokens, columnTokens]
  split
  · rename_i hempty
    rw [List.singleton_append]
    refine unary_of_primary (primary_column rfl hparen ?_) (before_cons hword)
    rw [String.isEmpty_iff.mp hempty] at hcol
    simp only [parseColumnRef, consume, identifier, bind, Except.bind, if_true, hdot,
      Bool.false_eq_true, if_false, pure, Except.pure, hcolumn]
    rw [← hcol]
  · rename_i hne
    obtain ⟨-, -, htext⟩ := htable (by simpa using hne)
    rw [List.cons_append, List.cons_append, List.singleton_append]
    refine unary_of_primary (primary_column rfl rfl ?_) (before_cons hword)
    simp only [parseColumnRef, consume, identifier, bind, Except.bind, if_true, check_self,
      List.tail_cons, pure, Except.pure, hcolumn, htext]
    rw [← hcol]

/-- No operator of a level is a closing parenthesis. -/
theorem stop_at_paren {op? : TokenType → Option (Expression → Expression → Expression)}
    (h : op? .RPAREN = none) :
    ∀ t ∈ (tok .RPAREN ")" :: rest).head?, op? t.type = none := by
  intro t ht
  obtain rfl := Option.some.inj ht
  exact h

section

variable {l r : Expression}

theorem reads_binary {op : ComparisonOp} (hpl : Printable l) (hl : Reads subquery l)
    (hr : Reads subquery r) : Reads subquery (.binary op l r) := by
  intro n rest hn _
  rw [exprTokens, length_inParentheses, List.length_append, List.length_cons] at hn
  obtain ⟨k, rfl⟩ : ∃ k, n = k + 1 + 5 := ⟨n - 6, by omega⟩
  have hleft : parseAdditive subquery k (exprTokens l ++ tok (comparisonType op)
      (comparisonOpName op) :: (exprTokens r ++ tok .RPAREN ")" :: rest)) =
      .ok (l, tok (comparisonType op) (comparisonOpName op) ::
        (exprTokens r ++ tok .RPAREN ")" :: rest)) :=
    hl.additive (by omega) (before_cons (by cases op <;> decide))
  have hright : parseAdditive subquery k (exprTokens r ++ tok .RPAREN ")" :: rest) =
      .ok (r, tok .RPAREN ")" :: rest) := hr.additive (by omega) (before_cons (by decide))
  rw [exprTokens]
  refine unary_of_comparison (before_expr hpl (by decide)) ?_ (by simp)
  rw [List.append_assoc, List.cons_append, parseComparison, hleft]
  cases op <;>
    exact (congrArg (fun x => x >>= fun p => pure (Expression.binary _ l p.1, p.2)) hright).trans
      rfl

theorem reads_arithmetic {op : ArithmeticOp} (hpl : Printable l) (hl : Reads subquery l)
    (hr : Reads subquery r) : Reads subquery (.arithmetic op l r) := by
  intro n rest hn _
  rw [exprTokens, length_inParentheses, List.length_append, List.length_cons] at hn
  obtain ⟨k, rfl⟩ : ∃ k, n = k + 3 + 5 := ⟨n - 8, by omega⟩
  have hadd : parseAdditive subquery (k + 2) (exprTokens l ++ tok (arithmeticType op)
      (arithmeticOpName op) :: (exprTokens r ++ tok .RPAREN ")" :: rest)) =
      .ok (.arithmetic op l r, tok .RPAREN ")" :: rest) := by
    have hsum : ∀ op, (op = .Add ∨ op = .Sub) → additiveOp (arithmeticType op) =
        some (.arithmetic op) := by rintro op (rfl | rfl) <;> rfl
    have hproduct : ∀ op, (op = .Mul ∨ op = .Div) → multiplicativeOp (arithmeticType op) =
        some (.arithmetic op) := by rintro op (rfl | rfl) <;> rfl
    have hop : (op = .Add ∨ op = .Sub) ∨ (op = .Mul ∨ op = .Div) := by cases op <;> simp
    rcases hop with hop | hop
    · have hbefore : arithmeticType op ∉ [TokenType.DOT, .LPAREN, .STAR, .SLASH] := by
        rcases hop with rfl | rfl <;> decide
      have hright : parseMultiplicative subquery (k + 1) (exprTokens r ++ tok .RPAREN ")" :: rest) =
          .ok (r, tok .RPAREN ")" :: rest) := hr.multiplicative (by omega) (before_cons (by decide))
      rw [parseAdditive, hl.multiplicative (by omega) (before_cons hbefore)]
      exact leftLoop_step (hsum op hop) hright
        (stop_at_paren (show additiveOp .RPAREN = none from rfl))
    · have hbefore : arithmeticType op ∉ [TokenType.DOT, .LPAREN] := by
        rcases hop with rfl | rfl <;> decide
      refine additive_of_multiplicative ?_ (before_cons (by decide))
      have hright : parseUnary subquery k (exprTokens r ++ tok .RPAREN ")" :: rest) =
          .ok (r, tok .RPAREN ")" :: rest) := hr k _ (by omega) (before_cons (by decide))
      rw [parseMultiplicative, hl k _ (by omega) (before_cons hbefore)]
      exact leftLoop_step (hproduct op hop) hright
        (stop_at_paren (show multiplicativeOp .RPAREN = none from rfl))
  rw [exprTokens]
  refine unary_of_comparison (before_expr hpl (by decide)) ?_ (by simp)
  rw [List.append_assoc, List.cons_append]
  exact comparison_of_additive hadd (before_cons (by decide))

theorem reads_logical {op : LogicalOp} (hpl : Printable l) (hpr : Printable r)
    (hl : Reads subquery l) (hr : Reads subquery r) : Reads subquery (.logical op l r) := by
  intro n rest hn _
  rw [exprTokens, length_inParentheses, List.length_append, List.length_cons] at hn
  obtain ⟨k, rfl⟩ : ∃ k, n = k + 2 + 2 := ⟨n - 4, by omega⟩
  rw [exprTokens, inParentheses_append, List.append_assoc, List.cons_append]
  refine unary_of_parenthesized ?_ (before_expr hpl (by decide))
  cases op with
  | And =>
    have hright : parseNot subquery k (exprTokens r ++ tok .RPAREN ")" :: rest) =
        .ok (r, tok .RPAREN ")" :: rest) := hr.not hpr (by omega) (before_cons (by decide))
    refine or_of_and ?_ (before_cons (by decide))
    rw [if_pos rfl, parseAnd, hl.not hpl (by omega) (before_cons (by decide))]
    have hjoin : andOp (tok .AND "AND").type = some (.logical .And) := rfl
    exact leftLoop_step hjoin hright (stop_at_paren (show andOp .RPAREN = none from rfl))
  | Or =>
    have hright : parseAnd subquery (k + 1) (exprTokens r ++ tok .RPAREN ")" :: rest) =
        .ok (r, tok .RPAREN ")" :: rest) := hr.and hpr (by omega) (before_cons (by decide))
    rw [if_neg (by decide), parseOr, hl.and hpl (by omega) (before_cons (by decide))]
    have hjoin : orOp (tok .OR "OR").type = some (.logical .Or) := rfl
    exact leftLoop_step hjoin hright (stop_at_paren (show orOp .RPAREN = none from rfl))

theorem reads_not (hp : Printable e) (h : Reads subquery e) : Reads subquery (.not e) := by
  intro n rest hn _
  rw [exprTokens, length_inParentheses, List.length_cons] at hn
  obtain ⟨k, rfl⟩ : ∃ k, n = k + 3 + 2 := ⟨n - 5, by omega⟩
  have hoperand : parseNot subquery k (exprTokens e ++ tok .RPAREN ")" :: rest) =
      .ok (e, tok .RPAREN ")" :: rest) := h.not hp (by omega) (before_cons (by decide))
  rw [exprTokens, inParentheses_append, List.cons_append]
  refine unary_of_parenthesized (or_of_and (and_of_not ?_ (before_cons (by decide)))
    (before_cons (by decide))) (before_cons (by decide))
  rw [parseNot, if_pos (check_self _ _ _), List.tail_cons, hoperand]
  rfl

theorem reads_isNull {negated : Bool} (hp : Printable e) (h : Reads subquery e) :
    Reads subquery (.isNull e negated) := by
  intro n rest hn _
  rw [exprTokens, length_inParentheses, List.length_append, List.length_cons] at hn
  obtain ⟨k, rfl⟩ : ∃ k, n = k + 1 + 5 := ⟨n - 6, by omega⟩
  have hoperand : ∀ s, parseAdditive subquery k (exprTokens e ++ tok .IS "IS" :: s) =
      .ok (e, tok .IS "IS" :: s) := fun s => h.additive (by omega) (before_cons (by decide))
  rw [exprTokens]
  refine unary_of_comparison (before_expr hp (by decide)) ?_ (by simp)
  rw [List.append_assoc, List.cons_append, parseComparison, hoperand]
  cases negated <;> rfl

/-- What stands behind the left side of a BETWEEN, a LIKE and an IN. -/
theorem before_negation {negated : Bool} {type : TokenType} {s : String} {ts : List Token}
    (htypes : TokenType.NOT ∉ types) (htype : type ∉ types) :
    Before (negation negated ++ tok type s :: ts) types := by
  cases negated with
  | false => exact before_cons htype
  | true => exact before_cons htypes

theorem reads_between {v lo hi : Expression} {negated : Bool} (hp : Printable v)
    (hv : Reads subquery v) (hlo : Reads subquery lo) (hhi : Reads subquery hi) :
    Reads subquery (.between v lo hi negated) := by
  intro n rest hn _
  simp only [exprTokens, length_inParentheses, List.length_append, List.length_cons] at hn
  obtain ⟨k, rfl⟩ : ∃ k, n = k + 1 + 5 := ⟨n - 6, by omega⟩
  have hvalue : ∀ s, parseAdditive subquery k (exprTokens v ++ (negation negated ++
      tok .BETWEEN "BETWEEN" :: s)) = .ok (v, negation negated ++ tok .BETWEEN "BETWEEN" :: s) :=
    fun s => hv.additive (by omega) (before_negation (by decide) (by decide))
  have hlow : ∀ s, parseAdditive subquery k (exprTokens lo ++ tok .AND "AND" :: s) =
      .ok (lo, tok .AND "AND" :: s) := fun s => hlo.additive (by omega) (before_cons (by decide))
  have hhigh : parseAdditive subquery k (exprTokens hi ++ tok .RPAREN ")" :: rest) =
      .ok (hi, tok .RPAREN ")" :: rest) := hhi.additive (by omega) (before_cons (by decide))
  rw [exprTokens]
  refine unary_of_comparison (before_expr hp (by decide)) ?_ (by simp)
  simp only [List.append_assoc, List.cons_append]
  rw [parseComparison, hvalue]
  cases negated <;> simp [negation, check_tok, consume_tok, hlow, hhigh, bind, Except.bind, pure,
    Except.pure]

theorem reads_like {v p : Expression} {negated : Bool} (hp : Printable v)
    (hv : Reads subquery v) (hpattern : Reads subquery p) :
    Reads subquery (.like v p negated) := by
  intro n rest hn _
  simp only [exprTokens, length_inParentheses, List.length_append, List.length_cons] at hn
  obtain ⟨k, rfl⟩ : ∃ k, n = k + 1 + 5 := ⟨n - 6, by omega⟩
  have hvalue : ∀ s, parseAdditive subquery k (exprTokens v ++ (negation negated ++
      tok .LIKE "LIKE" :: s)) = .ok (v, negation negated ++ tok .LIKE "LIKE" :: s) :=
    fun s => hv.additive (by omega) (before_negation (by decide) (by decide))
  have hright : parseAdditive subquery k (exprTokens p ++ tok .RPAREN ")" :: rest) =
      .ok (p, tok .RPAREN ")" :: rest) := hpattern.additive (by omega) (before_cons (by decide))
  rw [exprTokens]
  refine unary_of_comparison (before_expr hp (by decide)) ?_ (by simp)
  simp only [List.append_assoc, List.cons_append]
  rw [parseComparison, hvalue]
  cases negated <;> simp [negation, check_tok, hright, bind, Except.bind, pure, Except.pure]

/-- The tokens of a list, from its first expression. -/
theorem listTokens_cons (e e' : Expression) (es : List Expression) :
    listTokens (e :: e' :: es) = exprTokens e ++ tok .COMMA "," :: listTokens (e' :: es) := rfl

theorem length_le_listTokens {es : List Expression} (h : ∀ e ∈ es, Printable e) :
    es.length ≤ (listTokens es).length := by
  induction es with
  | nil => exact le_rfl
  | cons e es ih =>
    rw [List.forall_mem_cons] at h
    have hpos := h.1.length_pos
    cases es with
    | nil => exact hpos
    | cons e' es =>
      have hrest := ih h.2
      rw [listTokens_cons]
      simp only [List.length_append, List.length_cons] at hrest ⊢
      omega

theorem before_listTokens {es : List Expression} (hne : es ≠ []) (h : ∀ e ∈ es, Printable e)
    (htypes : ∀ type ∈ types, type ∉ startTypes) : Before (listTokens es ++ rest) types := by
  obtain ⟨e, es, rfl⟩ := List.exists_cons_of_ne_nil hne
  have he := h e List.mem_cons_self
  cases es with
  | nil => exact before_expr he htypes
  | cons e' es =>
    rw [listTokens_cons, List.append_assoc]
    exact before_expr he htypes

/-- The literals of an IN list. -/
theorem parseItems_listTokens {items : List Expression} (hne : items ≠ [])
    (hitems : ∀ i ∈ items, ∃ v, i = .literal v ∧ PrintableLiteral v) {m : Nat}
    (hm : items.length ≤ m) :
    parseItems m (listTokens items ++ tok .RPAREN ")" :: rest) =
      .ok (items, tok .RPAREN ")" :: rest) := by
  induction items generalizing m with
  | nil => exact absurd rfl hne
  | cons i items ih =>
    obtain ⟨m, rfl⟩ : ∃ k, m = k + 1 := ⟨m - 1, by rw [List.length_cons] at hm; omega⟩
    rw [List.forall_mem_cons] at hitems
    obtain ⟨⟨v, rfl, hv⟩, htail⟩ := hitems
    cases items with
    | nil =>
      have hread : parseLiteral (listTokens [.literal v] ++ tok .RPAREN ")" :: rest) =
          .ok (v, tok .RPAREN ")" :: rest) := (signed_literal hv).parseLiteral
      rw [parseItems, hread]
      rfl
    | cons i' items =>
      have hread : ∀ s, parseLiteral (exprTokens (.literal v) ++ s) = .ok (v, s) := fun s =>
        (signed_literal hv).parseLiteral
      have hrest := ih (List.cons_ne_nil _ _) htail (Nat.le_of_succ_le_succ hm)
      rw [listTokens_cons, List.append_assoc, List.cons_append, parseItems, hread]
      exact (congrArg (fun x => x >>= fun p => pure (Expression.literal v :: p.1, p.2)) hrest).trans
        rfl

theorem reads_inList {v : Expression} {items : List Expression} {negated : Bool} (hp : Printable v)
    (hv : Reads subquery v) (hne : items ≠ []) (hitems : ∀ i ∈ items, Printable i)
    (hliterals : ∀ i ∈ items, ∃ v, i = .literal v) : Reads subquery (.inList v items negated) := by
  intro n rest hn _
  simp only [exprTokens, length_inParentheses, List.length_append, List.length_cons] at hn
  obtain ⟨k, rfl⟩ : ∃ k, n = k + 1 + 5 := ⟨n - 6, by omega⟩
  have hvalue : ∀ s, parseAdditive subquery k (exprTokens v ++ (negation negated ++
      tok .IN "IN" :: s)) = .ok (v, negation negated ++ tok .IN "IN" :: s) :=
    fun s => hv.additive (by omega) (before_negation (by decide) (by decide))
  have hvalues : ∀ i ∈ items, ∃ v, i = .literal v ∧ PrintableLiteral v := by
    intro i hi
    obtain ⟨v, rfl⟩ := hliterals i hi
    cases hitems _ hi with
    | literal hv => exact ⟨v, rfl, hv⟩
  have hlist : ∀ s m, items.length ≤ m →
      parseItems m (listTokens items ++ tok .RPAREN ")" :: s) =
        .ok (items, tok .RPAREN ")" :: s) := fun s m hm => parseItems_listTokens hne hvalues hm
  have hstart : ∀ s, check .SELECT (listTokens items ++ s) = false := fun s =>
    (before_listTokens hne hitems (by decide)).check (List.mem_singleton_self _)
  have hlen := length_le_listTokens hitems
  rw [exprTokens]
  refine unary_of_comparison (before_expr hp (by decide)) ?_ (by simp)
  simp only [List.append_assoc, List.cons_append, inParentheses_append]
  rw [parseComparison, hvalue]
  have hread := hlist (tok .RPAREN ")" :: rest)
    (listTokens items ++ tok .RPAREN ")" :: tok .RPAREN ")" :: rest).length
    (by rw [List.length_append]; omega)
  cases negated <;>
    simp only [negation, check_tok, consume_tok, hstart, hread, bind, Except.bind, pure,
      Except.pure, List.nil_append, List.cons_append, List.tail_cons, reduceCtorEq, decide_false,
      decide_true, Bool.false_and, Bool.true_and, Bool.true_or, Bool.false_eq_true, if_false,
      if_true]

/-! ### Calls -/

theorem primary_call {t : Token} {ts : List Token} (ht : t.type = .IDENTIFIER)
    (hagg : isAggregateName t.lexeme = false) :
    parsePrimary subquery (n + 1) (t :: tok .LPAREN "(" :: ts) =
      parseCall subquery n (t :: tok .LPAREN "(" :: ts) := by
  rw [parsePrimary, ht, if_neg (by decide), if_pos ⟨rfl, rfl⟩, hagg, if_neg Bool.false_ne_true]

theorem identifier_eq (name : String) : identifier name = tok .IDENTIFIER name := rfl

theorem lexeme_tok (type : TokenType) (s : String) : (tok type s).lexeme = ascii s := rfl

theorem reads_cast {target : DataType} (hp : Printable e) (h : Reads subquery e) :
    Reads subquery (.cast e target) := by
  intro n rest hn _
  simp only [exprTokens, List.length_cons, length_inParentheses, List.length_append] at hn
  obtain ⟨k, rfl⟩ : ∃ k, n = k + 3 := ⟨n - 3, by omega⟩
  have hupper : upperName (ascii "CAST") = "CAST" := by decide +kernel
  have hagg : isAggregateName (ascii "CAST") = false := by
    rw [isAggregateName, hupper]
    decide
  have harg : ∀ s, parseExpression subquery k (exprTokens e ++ tok .AS "AS" :: s) =
      .ok (e, tok .AS "AS" :: s) := fun s => h.expression hp (by omega) (before_cons (by decide))
  have htype : parseCastType (typeToken target :: tok .RPAREN ")" :: rest) =
      .ok (target, tok .RPAREN ")" :: rest) := by cases target <;> rfl
  rw [exprTokens, List.cons_append, inParentheses_append, List.append_assoc]
  refine unary_of_primary ?_ (before_cons (by decide))
  rw [primary_call rfl hagg, parseCall, identifier_eq]
  simp only [consume_tok, lexeme_tok, hupper, if_true, harg, htype, List.cons_append,
    List.nil_append, bind, Except.bind, pure, Except.pure]

/-- The arguments of a call. -/
theorem parseArgs_listTokens {args : List Expression} (hne : args ≠ [])
    (hargs : ∀ a ∈ args, Printable a ∧ Reads subquery a)
    (hn : 10 * (listTokens args).length + 7 < n) :
    parseArgs subquery n (listTokens args ++ tok .RPAREN ")" :: rest) =
      .ok (args, tok .RPAREN ")" :: rest) := by
  induction args generalizing n with
  | nil => exact absurd rfl hne
  | cons a args ih =>
    obtain ⟨n, rfl⟩ : ∃ k, n = k + 1 := ⟨n - 1, by omega⟩
    rw [List.forall_mem_cons] at hargs
    obtain ⟨⟨hp, ha⟩, htail⟩ := hargs
    cases args with
    | nil =>
      have hn' : 10 * (exprTokens a).length + 7 < n + 1 := hn
      have hread : parseExpression subquery n (listTokens [a] ++ tok .RPAREN ")" :: rest) =
          .ok (a, tok .RPAREN ")" :: rest) := ha.expression hp (by omega) (before_cons (by decide))
      rw [parseArgs, hread]
      rfl
    | cons a' args =>
      rw [listTokens_cons, List.length_append, List.length_cons] at hn
      have hread : ∀ s, parseExpression subquery n (exprTokens a ++ tok .COMMA "," :: s) =
          .ok (a, tok .COMMA "," :: s) := fun s =>
        ha.expression hp (by omega) (before_cons (by decide))
      have hrest := ih (List.cons_ne_nil _ _) htail (n := n) (by omega)
      rw [listTokens_cons, List.append_assoc, List.cons_append, parseArgs, hread]
      exact (congrArg (fun x => x >>= fun p => pure (a :: p.1, p.2)) hrest).trans rfl

theorem reads_call {name : String} {args : List Expression} (hname : CallName name)
    (hargs : ∀ a ∈ args, Printable a ∧ Reads subquery a) : Reads subquery (.call name args) := by
  intro n rest hn _
  obtain ⟨-, hupper, hagg, hcast⟩ := hname
  simp only [exprTokens, List.length_cons, length_inParentheses] at hn
  obtain ⟨k, rfl⟩ : ∃ k, n = k + 3 := ⟨n - 3, by omega⟩
  have hword : TokenType.IDENTIFIER ∉ [TokenType.MINUS, .PLUS] := by decide
  rw [exprTokens, List.cons_append, inParentheses_append]
  refine unary_of_primary ?_ (before_cons hword)
  rw [primary_call (t := identifier name) rfl hagg, parseCall, identifier_eq]
  by_cases hne : args = []
  · subst hne
    simp only [consume_tok, lexeme_tok, hupper, hcast, if_false, listTokens, List.nil_append,
      check_self, if_true, bind, Except.bind, pure, Except.pure]
  · have hread : parseArgs subquery k (listTokens args ++ tok .RPAREN ")" :: rest) =
        .ok (args, tok .RPAREN ")" :: rest) := parseArgs_listTokens hne hargs (by omega)
    have hstart : check .RPAREN (listTokens args ++ tok .RPAREN ")" :: rest) = false := by
      exact (before_listTokens hne (fun a ha => (hargs a ha).1) (by decide)).check
        (List.mem_singleton_self _)
    simp only [consume_tok, lexeme_tok, hupper, hcast, if_false, hstart, Bool.false_eq_true, hread,
      bind, Except.bind, pure, Except.pure]

/-! ### CASE -/

theorem parseBranches_branchesTokens {branches : List (Expression × Expression)}
    (hconds : ∀ b ∈ branches, Printable b.1 ∧ Reads subquery b.1)
    (hvalues : ∀ b ∈ branches, Printable b.2 ∧ Reads subquery b.2)
    (hrest : Before rest [.WHERE, .DOT, .LPAREN, .STAR, .SLASH, .PLUS, .MINUS])
    (hn : 10 * (branchesTokens branches).length < n) :
    parseBranches subquery n (branchesTokens branches ++ rest) = .ok (branches, rest) := by
  induction branches generalizing n with
  | nil =>
    obtain ⟨n, rfl⟩ : ∃ k, n = k + 1 := ⟨n - 1, by omega⟩
    have hwhen := hrest.check (show TokenType.WHERE ∈ _ by decide)
    rw [branchesTokens, List.nil_append, parseBranches, hwhen, if_neg Bool.false_ne_true]
  | cons b branches ih =>
    obtain ⟨cond, value⟩ := b
    rw [List.forall_mem_cons] at hconds hvalues
    obtain ⟨⟨hpc, hc⟩, hconds⟩ : (Printable cond ∧ Reads subquery cond) ∧ _ := hconds
    obtain ⟨⟨-, hv⟩, hvalues⟩ : (Printable value ∧ Reads subquery value) ∧ _ := hvalues
    simp only [branchesTokens, List.length_cons, List.length_append] at hn
    obtain ⟨n, rfl⟩ : ∃ k, n = k + 1 := ⟨n - 1, by omega⟩
    have hcond : ∀ s, parseExpression subquery n (exprTokens cond ++ tok .THEN "THEN" :: s) =
        .ok (cond, tok .THEN "THEN" :: s) := fun s =>
      hc.expression hpc (by omega) (before_cons (by decide))
    have hbehind : Before (branchesTokens branches ++ rest)
        [.DOT, .LPAREN, .STAR, .SLASH, .PLUS, .MINUS] := by
      cases branches with
      | nil => exact hrest.mono (by decide)
      | cons b branches => exact before_cons (by decide)
    have hvalue : parseAdditive subquery n (exprTokens value ++ (branchesTokens branches ++ rest)) =
        .ok (value, branchesTokens branches ++ rest) := hv.additive (by omega) hbehind
    have htail := ih hconds hvalues (n := n) (by omega)
    simp only [branchesTokens, List.cons_append, List.append_assoc]
    rw [parseBranches, if_pos (check_self _ _ _), List.tail_cons, hcond]
    simp [consume_tok, hvalue, htail, bind, Except.bind, pure, Except.pure]

theorem primary_case {t : Token} {ts : List Token} (ht : t.type = .CASE) :
    parsePrimary subquery (n + 1) (t :: ts) = parseCase subquery n (t :: ts) := by
  rw [parsePrimary, if_pos ht]

theorem reads_case {branches : List (Expression × Expression)} {elseExpr : Option Expression}
    (hne : branches ≠ []) (hconds : ∀ b ∈ branches, Printable b.1 ∧ Reads subquery b.1)
    (hvalues : ∀ b ∈ branches, Printable b.2 ∧ Reads subquery b.2)
    (helse : ∀ e ∈ elseExpr, Reads subquery e) : Reads subquery (.case branches elseExpr) := by
  intro n rest hn _
  have hempty : branches.isEmpty = false := by simpa using hne
  cases elseExpr with
  | none =>
    simp only [exprTokens, List.length_cons, List.length_append] at hn
    obtain ⟨k, rfl⟩ : ∃ k, n = k + 3 := ⟨n - 3, by omega⟩
    have hread : parseBranches subquery k (branchesTokens branches ++ tok .END "END" :: rest) =
        .ok (branches, tok .END "END" :: rest) :=
      parseBranches_branchesTokens hconds hvalues (before_cons (by decide)) (by omega)
    simp only [exprTokens, List.cons_append, List.append_assoc, List.nil_append]
    refine unary_of_primary ?_ (before_cons (by decide))
    rw [primary_case (t := tok .CASE "CASE") rfl, parseCase]
    simp only [consume_tok, hread, hempty, Bool.false_eq_true, if_false, check_tok, reduceCtorEq,
      decide_false, bind, Except.bind, pure, Except.pure]
  | some e =>
    simp only [exprTokens, List.length_cons, List.length_append] at hn
    obtain ⟨k, rfl⟩ : ∃ k, n = k + 3 := ⟨n - 3, by omega⟩
    have he : parseAdditive subquery k (exprTokens e ++ tok .END "END" :: rest) =
        .ok (e, tok .END "END" :: rest) :=
      (helse e rfl).additive (by omega) (before_cons (by decide))
    have hread : ∀ s, parseBranches subquery k (branchesTokens branches ++ tok .ELSE "ELSE" :: s) =
        .ok (branches, tok .ELSE "ELSE" :: s) := fun s =>
      parseBranches_branchesTokens hconds hvalues (before_cons (by decide)) (by omega)
    simp only [exprTokens, List.cons_append, List.append_assoc, List.nil_append]
    refine unary_of_primary ?_ (before_cons (by decide))
    rw [primary_case (t := tok .CASE "CASE") rfl, parseCase]
    simp only [consume_tok, hread, hempty, Bool.false_eq_true, if_false, check_self, if_true,
      List.tail_cons, he, bind, Except.bind, pure, Except.pure]

end

/-- What has been printed of an expression is read as that expression. -/
theorem reads_of_printable (h : Printable e) : Reads subquery e := by
  induction h with
  | literal h => exact reads_literal h
  | column h => exact reads_column h
  | binary hl hr ihl ihr => exact reads_binary hl ihl ihr
  | arithmetic hl hr ihl ihr => exact reads_arithmetic hl ihl ihr
  | logical hl hr ihl ihr => exact reads_logical hl hr ihl ihr
  | not h ih => exact reads_not h ih
  | isNull h ih => exact reads_isNull h ih
  | between hv hlo hhi ihv ihlo ihhi => exact reads_between hv ihv ihlo ihhi
  | like hv hp ihv ihp => exact reads_like hv ihv ihp
  | inList hv hne hlit hitems ihv _ => exact reads_inList hv ihv hne hitems hlit
  | cast h ih => exact reads_cast h ih
  | call hname hargs ih => exact reads_call hname fun a ha => ⟨hargs a ha, ih a ha⟩
  | case hne hconds hvalues helse ihconds ihvalues ihelse =>
    exact reads_case hne (fun b hb => ⟨hconds b hb, ihconds b hb⟩)
      (fun b hb => ⟨hvalues b hb, ihvalues b hb⟩) ihelse

/-- The text that is kept of an expression is read again as the expression. -/
theorem parse_expressionToString (subquery : List Token → Except Thrown Nat) (h : Printable e) :
    ∃ text, expressionToString e = .ok text ∧
      parseWholeExpression subquery (tokenize text) = .ok e := by
  obtain ⟨text, htext, hlex⟩ := printed_of_printable h
  have htokens : tokenize text = exprTokens e := by
    have hall := hlex [] delimited_nil
    rwa [List.append_nil, show tokenize [] = [] from rfl, List.append_nil] at hall
  have hread : parseExpression subquery (10 * (exprTokens e).length + 10) (exprTokens e) =
      .ok (e, []) := by
    have hall : parseExpression subquery (10 * (exprTokens e).length + 10) (exprTokens e ++ []) =
        .ok (e, []) := (reads_of_printable h).expression h (by omega) before_nil
    rwa [List.append_nil] at hall
  refine ⟨text, htext, ?_⟩
  rw [htokens, parseWholeExpression, hread]
  rfl

end Levels

/-- The check `((qty >= -5) AND (NOT (qty IN (1, 2))))`. -/
def quantityCheck : Expression :=
  .logical .And (.binary .Geq (.column { column := "qty" }) (.literal (.int (-5))))
    (.not (.inList (.column { column := "qty" }) [.literal (.int 1), .literal (.int 2)] false))

theorem printable_quantityCheck : Printable quantityCheck := by
  have hname : Identifier "qty" :=
    identifier_of_new (by decide +kernel) (by decide +kernel) (by decide +kernel)
  have hqty : Printable (.column { column := "qty" }) :=
    .column ⟨rfl, hname, fun h => absurd h (by decide)⟩
  have hone : Printable (.literal (.int 1)) := .literal (show -2 ^ 63 < Int64.toInt 1 by decide)
  have htwo : Printable (.literal (.int 2)) := .literal (show -2 ^ 63 < Int64.toInt 2 by decide)
  have hfive : Printable (.literal (.int (-5))) :=
    .literal (show -2 ^ 63 < Int64.toInt (-5) by decide)
  refine .logical (.binary hqty hfive) (.not (.inList hqty (List.cons_ne_nil _ _) ?_ ?_))
  · simp
  · simp [hone, htwo]

theorem parse_quantityCheck : ∃ text, expressionToString quantityCheck = .ok text ∧
    parseWholeExpression (fun _ => .ok 0) (tokenize text) = .ok quantityCheck :=
  parse_expressionToString _ printable_quantityCheck

end Relite.Parser
