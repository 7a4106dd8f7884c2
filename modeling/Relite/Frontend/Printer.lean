import Relite.Frontend.Parser
import Relite.Lib.TextStream

/-!
# Printing expressions

The text of a CHECK, as it is kept for the catalog file, and the tokens that the lexer makes of
it.
-/
namespace Relite.Parser
open Lib Vm

def comparisonOpName : ComparisonOp → String
  | .Eq => "="
  | .Neq => "!="
  | .Lt => "<"
  | .Leq => "<="
  | .Gt => ">"
  | .Geq => ">="

def arithmeticOpName : ArithmeticOp → String
  | .Add => "+"
  | .Sub => "-"
  | .Mul => "*"
  | .Div => "/"

def quoteString (s : Bytes) : Bytes :=
  ascii "'" ++ s.flatMap (fun c => if c = byte '\'' then ascii "''" else [c]) ++ ascii "'"

def literalText : Value → Bytes
  | .int n => ascii (toString n.toInt)
  | .double bits => ascii (doubleToString bits)
  | .text s => quoteString s
  | .bool b => ascii (if b then "TRUE" else "FALSE")
  | .null => ascii "NULL"

def columnText (col : ColumnRef) : Bytes :=
  if col.table.isEmpty then ascii col.column else ascii (col.table ++ "." ++ col.column)

mutual

def expressionToString : Expression → Except Thrown Bytes
  | .literal v => return literalText v
  | .column col => return columnText col
  | .binary op l r => do
    let l ← expressionToString l
    let r ← expressionToString r
    return ascii "(" ++ l ++ ascii " " ++ ascii (comparisonOpName op) ++ ascii " " ++ r ++ ascii ")"
  | .arithmetic op l r => do
    let l ← expressionToString l
    let r ← expressionToString r
    return ascii "(" ++ l ++ ascii " " ++ ascii (arithmeticOpName op) ++ ascii " " ++ r ++ ascii ")"
  | .logical op l r => do
    let l ← expressionToString l
    let r ← expressionToString r
    return ascii "(" ++ l ++ ascii (if op = .And then " AND " else " OR ") ++ r ++ ascii ")"
  | .not operand => do
    let s ← expressionToString operand
    return ascii "(NOT " ++ s ++ ascii ")"
  | .isNull operand negated => do
    let s ← expressionToString operand
    return ascii "(" ++ s ++ ascii (if negated then " IS NOT NULL)" else " IS NULL)")
  | .between value lo hi negated => do
    let s ← expressionToString value
    let lo ← expressionToString lo
    let hi ← expressionToString hi
    return ascii "(" ++ s ++ ascii (if negated then " NOT BETWEEN " else " BETWEEN ") ++ lo ++
      ascii " AND " ++ hi ++ ascii ")"
  | .like value pattern negated => do
    let s ← expressionToString value
    let p ← expressionToString pattern
    return ascii "(" ++ s ++ ascii (if negated then " NOT LIKE " else " LIKE ") ++ p ++ ascii ")"
  | .inSubquery .. => .error (.runtime_error "subquery not allowed in CHECK")
  | .inList value items negated => do
    let s ← expressionToString value
    let items ← listToString items
    return ascii "(" ++ s ++ ascii (if negated then " NOT IN (" else " IN (") ++ items ++ ascii "))"
  | .cast arg target => do
    let s ← expressionToString arg
    return ascii "CAST(" ++ s ++ ascii " AS " ++ ascii (dataTypeName target) ++ ascii ")"
  | .call name args => do
    let args ← listToString args
    return ascii name ++ ascii "(" ++ args ++ ascii ")"
  | .case branches none => do
    let branches ← branchesToString branches
    return ascii "CASE" ++ branches ++ ascii " END"
  | .case branches (some e) => do
    let branches ← branchesToString branches
    let e ← expressionToString e
    return ascii "CASE" ++ branches ++ ascii " ELSE " ++ e ++ ascii " END"
  | .subquery .Exists _ => return ascii "EXISTS(...)"
  | .subquery .Scalar _ => return ascii "(subquery)"
  | .aggregate .. => .error (.runtime_error "unsupported expression in CHECK constraint")

/-- Expressions with commas between them. -/
def listToString : List Expression → Except Thrown Bytes
  | [] => return []
  | [e] => expressionToString e
  | e :: es => do
    let s ← expressionToString e
    let rest ← listToString es
    return s ++ ascii ", " ++ rest

def branchesToString : List (Expression × Expression) → Except Thrown Bytes
  | [] => return []
  | (cond, value) :: branches => do
    let c ← expressionToString cond
    let v ← expressionToString value
    let rest ← branchesToString branches
    return ascii " WHEN " ++ c ++ ascii " THEN " ++ v ++ rest

end

/-! ## Lexing what is printed -/

/-- A text after which a word or a number is at its end. -/
def Delimited (s : Bytes) : Prop := ∀ c ∈ s.head?, c ∈ ascii " (),"

/-- The lexer makes the tokens of a text, whatever comes behind it. -/
def Lexes (s : Bytes) (ts : List Token) : Prop :=
  ∀ rest, Delimited rest → tokenize (s ++ rest) = ts ++ tokenize rest

def tok (type : TokenType) (lexeme : String) : Token := ⟨type, ascii lexeme⟩

section Lexes

variable {s s' rest w : Bytes} {ts ts' : List Token} {c : UInt8}

theorem delimited_nil : Delimited [] := by simp [Delimited]

theorem delimited_cons (h : c ∈ ascii " (),") : Delimited (c :: s) := by
  simpa [Delimited] using h

/-- None of the characters after a word belongs to it. -/
theorem Delimited.notPart (h : Delimited rest) :
    ∀ c ∈ rest.head?, ¬isIdentifierPart c ∧ c ≠ byte '.' ∧ c ≠ byte '\'' := by
  intro c hc
  have hin : c ∈ [(32 : UInt8), 40, 41, 44] := h c hc
  revert hin
  simp only [List.mem_cons, List.not_mem_nil, or_false]
  rintro (rfl | rfl | rfl | rfl) <;> decide

/-- What stands at the start of a token is skipped no further. -/
theorem tokenize_cons (hblank : isBlank c = false)
    (hcomment : c ≠ byte '-' ∨ s.head? ≠ some (byte '-')) :
    tokenize (c :: s) = (scanToken c s).1 :: tokenize (scanToken c s).2 := by
  have hskip : skipWhitespaceAndComments false (c :: s) = c :: s := by
    have hnot : ¬(c = byte '-' ∧ s.head? = some (byte '-')) := by tauto
    simp [skipWhitespaceAndComments, hblank, hnot]
  rw [tokenize_eq, nextToken, hskip]

theorem tokenize_space (s : Bytes) : tokenize (32 :: s) = tokenize s := by
  have hskip : skipWhitespaceAndComments false (32 :: s) = skipWhitespaceAndComments false s := rfl
  rw [tokenize_eq, tokenize_eq s, nextToken, nextToken, hskip]

/-- Letters, digits and underscores, and no digit first. -/
def IsWord (w : Bytes) : Prop := w.head?.any isIdentifierStart ∧ ∀ b ∈ w, isIdentifierPart b

instance : Decidable (IsWord w) := inferInstanceAs (Decidable (_ ∧ _))

theorem not_blank_of_part (h : isIdentifierPart c) : isBlank c = false ∧ c ≠ byte '-' := by
  have hbyte : byte '-' = 45 ∧ byte ' ' = 32 ∧ byte '_' = 95 := by decide
  simp only [isIdentifierPart, isIdentifierStart, isDigit, isBlank, hbyte, Bool.or_eq_true,
    Bool.and_eq_true, decide_eq_true_eq, beq_iff_eq, Bool.or_eq_false_iff, beq_eq_false_iff_ne,
    UInt8.le_iff_toNat_le, ← UInt8.toNat_inj, ne_eq] at h ⊢
  have hsmall : (65 : UInt8).toNat = 65 ∧ (90 : UInt8).toNat = 90 ∧ (97 : UInt8).toNat = 97 ∧
      (122 : UInt8).toNat = 122 ∧ (95 : UInt8).toNat = 95 ∧ (48 : UInt8).toNat = 48 ∧
      (57 : UInt8).toNat = 57 ∧ (32 : UInt8).toNat = 32 ∧ (9 : UInt8).toNat = 9 ∧
      (13 : UInt8).toNat = 13 ∧ (10 : UInt8).toNat = 10 ∧ (45 : UInt8).toNat = 45 := by decide
  omega

theorem isDigit_part (h : isDigit c) : isIdentifierPart c ∧ isIdentifierStart c = false := by
  refine ⟨by rw [isIdentifierPart, h, Bool.or_true], ?_⟩
  have hbyte : byte '_' = 95 := by decide
  simp only [isIdentifierStart, isDigit, hbyte, Bool.and_eq_true, decide_eq_true_eq,
    Bool.or_eq_false_iff, Bool.and_eq_false_iff, decide_eq_false_iff_not, beq_eq_false_iff_ne,
    UInt8.le_iff_toNat_le, ← UInt8.toNat_inj, ne_eq] at h ⊢
  have hsmall : (65 : UInt8).toNat = 65 ∧ (90 : UInt8).toNat = 90 ∧ (97 : UInt8).toNat = 97 ∧
      (122 : UInt8).toNat = 122 ∧ (95 : UInt8).toNat = 95 ∧ (48 : UInt8).toNat = 48 ∧
      (57 : UInt8).toNat = 57 := by decide
  omega

theorem tokenize_word (hw : IsWord w) (hrest : ∀ b ∈ rest.head?, ¬isIdentifierPart b) :
    tokenize (w ++ rest) = ⟨wordType w, w⟩ :: tokenize rest := by
  obtain ⟨hstart, hparts⟩ := hw
  obtain ⟨c, w', rfl, hc⟩ : ∃ c w', w = c :: w' ∧ isIdentifierStart c := by
    cases w with
    | nil => cases hstart
    | cons c w' => exact ⟨c, w', rfl, hstart⟩
  have htake := IStream.takeWhile_append_of_all hparts hrest
  have hdrop := IStream.dropWhile_append_of_all hparts hrest
  obtain ⟨hblank, hminus⟩ := not_blank_of_part (hparts c List.mem_cons_self)
  have hscan : scanToken c (w' ++ rest) = (⟨wordType (c :: w'), c :: w'⟩, rest) := by
    rw [scanToken, if_pos hc, scanIdentifierOrKeyword, ← List.cons_append, htake, hdrop]
  rw [List.cons_append, tokenize_cons hblank (.inl hminus), hscan]

theorem lexes_word (hw : IsWord w) : Lexes w [⟨wordType w, w⟩] :=
  fun _ hrest => tokenize_word hw fun b hb => (hrest.notPart b hb).1

/-- Digits, of which there is one. -/
def IsNumber (w : Bytes) : Prop := w ≠ [] ∧ ∀ b ∈ w, isDigit b

theorem tokenize_number (hw : IsNumber w) :
    tokenize (w ++ rest) = (scanNumber (w ++ rest)).1 :: tokenize (scanNumber (w ++ rest)).2 := by
  obtain ⟨hne, hdigits⟩ := hw
  obtain ⟨c, w', rfl⟩ := List.exists_cons_of_ne_nil hne
  have hc := hdigits c List.mem_cons_self
  obtain ⟨hpart, hstart⟩ := isDigit_part hc
  obtain ⟨hblank, hminus⟩ := not_blank_of_part hpart
  have hscan : scanToken c (w' ++ rest) = scanNumber (c :: (w' ++ rest)) := by
    rw [scanToken, hstart, if_neg Bool.false_ne_true, if_pos hc]
  rw [List.cons_append, tokenize_cons hblank (.inl hminus), hscan]

theorem Delimited.notDigit (h : Delimited rest) : ∀ b ∈ rest.head?, ¬isDigit b := fun b hb hdigit =>
  (h.notPart b hb).1 (isDigit_part hdigit).1

theorem lexes_integer (hw : IsNumber w) : Lexes w [⟨.INTEGER_LITERAL, w⟩] := by
  intro rest hrest
  have htake := IStream.takeWhile_append_of_all hw.2 hrest.notDigit
  have hdrop := IStream.dropWhile_append_of_all hw.2 hrest.notDigit
  have hscan : scanNumber (w ++ rest) = (⟨.INTEGER_LITERAL, w⟩, rest) := by
    rw [scanNumber, htake, hdrop]
    split
    · rename_i point d t
      rw [if_neg fun h => (hrest.notPart point rfl).2.1 h.1]
    · rfl
  rw [tokenize_number hw, hscan]
  rfl

theorem lexes_float {w' : Bytes} (hw : IsNumber w) (hw' : IsNumber w') :
    Lexes (w ++ byte '.' :: w') [⟨.FLOAT_LITERAL, w ++ byte '.' :: w'⟩] := by
  intro rest hrest
  have hpoint : ∀ b ∈ (byte '.' :: (w' ++ rest)).head?, ¬isDigit b := fun b hb => by
    obtain rfl := Option.some.inj hb
    decide
  have htake := IStream.takeWhile_append_of_all hw.2 hpoint
  have hdrop := IStream.dropWhile_append_of_all hw.2 hpoint
  have htake' := IStream.takeWhile_append_of_all hw'.2 hrest.notDigit
  have hdrop' := IStream.dropWhile_append_of_all hw'.2 hrest.notDigit
  have hscan : scanNumber (w ++ byte '.' :: (w' ++ rest)) =
      (⟨.FLOAT_LITERAL, w ++ byte '.' :: w'⟩, rest) := by
    obtain ⟨d, t, rfl⟩ := List.exists_cons_of_ne_nil hw'.1
    rw [List.cons_append] at htake hdrop htake' hdrop' ⊢
    simp only [scanNumber, htake, hdrop, htake', hdrop', hw'.2 d List.mem_cons_self, and_self,
      if_true]
  rw [List.append_assoc, List.cons_append, tokenize_number hw, hscan]
  rfl

theorem stringEnd_quoted (s : Bytes) (hrest : ∀ b ∈ rest.head?, b ≠ byte '\'') :
    stringEnd (s.flatMap (fun c => if c = byte '\'' then ascii "''" else [c]) ++
      byte '\'' :: rest) = (s, some rest) := by
  have hquote : byte '\'' = 39 := by decide
  have htwo : ascii "''" = [39, 39] := by decide
  rw [hquote] at hrest ⊢
  rw [htwo]
  induction s with
  | nil =>
    cases rest with
    | nil => rfl
    | cons c rest =>
      have hc : c ≠ 39 := hrest c rfl
      simp [stringEnd, hc]
  | cons c s ih =>
    rw [List.flatMap_cons, List.append_assoc]
    by_cases hc : c = 39
    · rw [if_pos hc, hc]
      simp only [List.cons_append, List.nil_append, stringEnd, ih]
    · rw [if_neg hc, List.cons_append, List.nil_append, stringEnd, ih]
      · exact fun _ h => absurd h hc
      · exact hc

theorem lexes_quoteString (s : Bytes) : Lexes (quoteString s) [⟨.STRING_LITERAL, s⟩] := by
  intro rest hrest
  have hend := stringEnd_quoted s fun b hb => (hrest.notPart b hb).2.2
  have hquote : ascii "'" = [byte '\''] := by decide
  have hscan : scanToken (byte '\'')
      (s.flatMap (fun c => if c = byte '\'' then ascii "''" else [c]) ++ byte '\'' :: rest) =
      (⟨.STRING_LITERAL, s⟩, rest) := by
    rw [scanToken, if_neg (by decide), if_neg (by decide), if_pos rfl, scanString, hend]
  rw [quoteString, hquote, List.append_assoc, List.append_assoc, List.singleton_append,
    List.singleton_append, tokenize_cons (by decide) (.inl (by decide)), hscan]
  rfl

/-! ### Texts one after the other -/

theorem lexes_nil : Lexes [] [] := fun _ _ => rfl

/-- Behind a text comes one that starts with a character that ends it. -/
theorem Lexes.append (h : Lexes s ts) (h' : Lexes (c :: s') ts') (hc : c ∈ ascii " (),") :
    Lexes (s ++ c :: s') (ts ++ ts') := by
  intro rest hrest
  rw [List.append_assoc, List.cons_append, h _ (delimited_cons hc), ← List.cons_append,
    h' rest hrest, List.append_assoc]

theorem Lexes.space (h : Lexes s ts) : Lexes (32 :: s) ts := by
  intro rest hrest
  rw [List.cons_append, tokenize_space, h rest hrest]

theorem tokenize_symbol {c : Char} {type : TokenType}
    (hc : (c, type) ∈ [('(', TokenType.LPAREN), (')', .RPAREN), (',', .COMMA), ('.', .DOT)])
    (s : Bytes) : tokenize (byte c :: s) = ⟨type, [byte c]⟩ :: tokenize s := by
  simp only [List.mem_cons, Prod.mk.injEq, List.not_mem_nil, or_false] at hc
  have hscan : scanToken (byte c) s = (⟨type, [byte c]⟩, s) := by
    rcases hc with ⟨rfl, rfl⟩ | ⟨rfl, rfl⟩ | ⟨rfl, rfl⟩ | ⟨rfl, rfl⟩ <;> rfl
  have hplain : isBlank (byte c) = false ∧ byte c ≠ byte '-' := by
    rcases hc with ⟨rfl, rfl⟩ | ⟨rfl, rfl⟩ | ⟨rfl, rfl⟩ | ⟨rfl, rfl⟩ <;> decide
  rw [tokenize_cons hplain.1 (.inl hplain.2), hscan]

theorem Lexes.symbol {c : Char} {type : TokenType}
    (hc : (c, type) ∈ [('(', TokenType.LPAREN), (')', .RPAREN), (',', .COMMA), ('.', .DOT)])
    (h : Lexes s ts) : Lexes (byte c :: s) (⟨type, [byte c]⟩ :: ts) := by
  intro rest hrest
  rw [List.cons_append, tokenize_symbol hc, h rest hrest]
  rfl

theorem Lexes.spaced (h : Lexes s ts) (h' : Lexes s' ts') : Lexes (s ++ 32 :: s') (ts ++ ts') :=
  h.append h'.space (by decide)

theorem Lexes.closed (h : Lexes s ts) : Lexes (s ++ [byte ')']) (ts ++ [tok .RPAREN ")"]) :=
  h.append (lexes_nil.symbol (by decide)) (by decide)

theorem Lexes.parenthesized (h : Lexes s ts) :
    Lexes (byte '(' :: (s ++ [byte ')'])) (tok .LPAREN "(" :: (ts ++ [tok .RPAREN ")"])) :=
  h.closed.symbol (by decide)

theorem Lexes.comma (h : Lexes s ts) (h' : Lexes s' ts') :
    Lexes (s ++ byte ',' :: 32 :: s') (ts ++ tok .COMMA "," :: ts') :=
  h.append (h'.space.symbol (by decide)) (by decide)

/-- No keyword stands in the table twice. -/
theorem keywords_nodup : (keywordTable.map fun p => p.1.toList).Nodup := by decide +kernel

theorem keyword_ne_nil : ∀ p ∈ keywordTable, p.1.toList ≠ [] := by decide +kernel

/-- Keywords are of capital letters and underscores. -/
theorem keyword_capitals : ∀ p ∈ keywordTable, ∀ n ∈ p.1.toList.map Char.toNat,
    65 ≤ n ∧ n ≤ 90 ∨ n = 95 := by
  decide +kernel

theorem capital_byte {n : Nat} (hn : 65 ≤ n ∧ n ≤ 90 ∨ n = 95) :
    isIdentifierStart (UInt8.ofNat n) ∧ upper (UInt8.ofNat n) = UInt8.ofNat n ∧
      (UInt8.ofNat n).toNat = n := by
  have hsize : n < UInt8.size := by
    simp only [UInt8.size]
    omega
  have hnat : (UInt8.ofNat n).toNat = n := UInt8.toNat_ofNat_of_lt' hsize
  have hbyte : byte '_' = 95 := by decide
  have hsmall : (65 : UInt8).toNat = 65 ∧ (90 : UInt8).toNat = 90 ∧ (97 : UInt8).toNat = 97 ∧
      (95 : UInt8).toNat = 95 := by decide
  have hlow : ¬97 ≤ UInt8.ofNat n := by
    rw [UInt8.le_iff_toNat_le]
    omega
  refine ⟨?_, if_neg (by simp [hlow]), hnat⟩
  simp only [isIdentifierStart, hbyte, Bool.or_eq_true, Bool.and_eq_true, decide_eq_true_eq,
    beq_iff_eq, UInt8.le_iff_toNat_le, ← UInt8.toNat_inj]
  omega

theorem wordType_keyword {p : String × TokenType} (h : p ∈ keywordTable) :
    IsWord (ascii p.1) ∧ wordType (ascii p.1) = p.2 := by
  obtain ⟨c, cs, hp⟩ := List.exists_cons_of_ne_nil (keyword_ne_nil p h)
  have hbytes : ∀ c ∈ p.1.toList, isIdentifierStart (UInt8.ofNat c.toNat) ∧
      upper (UInt8.ofNat c.toNat) = UInt8.ofNat c.toNat ∧ (UInt8.ofNat c.toNat).toNat = c.toNat :=
    fun c hc => capital_byte (keyword_capitals p h _ (List.mem_map_of_mem hc))
  have hword : IsWord (ascii p.1) := by
    refine ⟨?_, fun b hb => ?_⟩
    · rw [ascii, hp]
      exact (hbytes c (hp ▸ List.mem_cons_self)).1
    · obtain ⟨c, hc, rfl⟩ := List.mem_map.mp hb
      rw [isIdentifierPart, (hbytes c hc).1, Bool.true_or]
  have htext : toText ((ascii p.1).map upper) = p.1 := by
    rw [toText, ascii, List.map_map, List.map_map]
    refine (congrArg String.ofList ?_).trans String.ofList_toList
    refine (List.map_congr_left fun c hc => ?_).trans (List.map_id _)
    obtain ⟨-, hupper, hnat⟩ := hbytes c hc
    simp only [Function.comp_apply, hupper, hnat, Char.ofNat_toNat, id]
  obtain ⟨before, after, htable⟩ := List.append_of_mem h
  have hlookup : keywordTable.lookup p.1 = some p.2 := by
    refine List.lookup_eq_some_iff.mpr ⟨before, after, htable, fun q hq => ?_⟩
    have hnodup := keywords_nodup
    rw [htable, List.map_append, List.nodup_append] at hnodup
    have hdiffer := hnodup.2.2 _ (List.mem_map_of_mem hq) _ List.mem_cons_self
    exact bne_iff_ne.mpr fun he => hdiffer (congrArg String.toList he.symm)
  exact ⟨hword, by rw [wordType, htext, hlookup]; rfl⟩
/-- The keyword at a place of the table. -/
theorem lexes_keyword {keyword : String} {type : TokenType} (i : Nat)
    (h : keywordTable[i]? = some (keyword, type)) : Lexes (ascii keyword) [tok type keyword] := by
  obtain ⟨hword, htype⟩ := wordType_keyword (List.mem_of_getElem? h)
  have hlex := lexes_word hword
  rwa [htype] at hlex

end Lexes

/-! ### Tokens -/

def comparisonType : ComparisonOp → TokenType
  | .Eq => .EQ
  | .Neq => .NEQ
  | .Lt => .LT
  | .Leq => .LEQ
  | .Gt => .GT
  | .Geq => .GEQ

def arithmeticType : ArithmeticOp → TokenType
  | .Add => .PLUS
  | .Sub => .MINUS
  | .Mul => .STAR
  | .Div => .SLASH

/-- A symbol of one character, before one that does not belong to it. -/
theorem tokenize_one {c : UInt8} {s : Bytes} {type : TokenType} (hdelimited : Delimited s)
    (hc : (c, type) ∈ [(byte '=', TokenType.EQ), (byte '<', .LT), (byte '>', .GT),
      (byte '+', .PLUS), (byte '-', .MINUS), (byte '*', .STAR), (byte '/', .SLASH)]) :
    tokenize (c :: s) = ⟨type, [c]⟩ :: tokenize s := by
  have hnot : ∀ b, b ∉ ascii " ()," → s.head? ≠ some b := fun b hb he => hb (hdelimited b he)
  have heq := hnot (byte '=') (by decide)
  have hgt := hnot (byte '>') (by decide)
  have hminus := hnot (byte '-') (by decide)
  have hplain : isBlank c = false ∧ isIdentifierStart c = false ∧ isDigit c = false ∧
      c ≠ byte '\'' ∧
      (symbolTable.find? fun p => c = byte p.1).map Prod.snd = some type := by
    revert hc
    simp only [List.mem_cons, Prod.mk.injEq, List.not_mem_nil, or_false]
    rintro (⟨rfl, rfl⟩ | ⟨rfl, rfl⟩ | ⟨rfl, rfl⟩ | ⟨rfl, rfl⟩ | ⟨rfl, rfl⟩ | ⟨rfl, rfl⟩ |
      ⟨rfl, rfl⟩) <;> decide
  obtain ⟨hblank, hstart, hdigit, hquote, htype⟩ := hplain
  have hpair :
      (symbolPairs.find? fun p => c = byte p.1.1 ∧ s.head? = some (byte p.1.2)) = none := by
    simp [symbolPairs, heq, hgt]
  have hscan : scanToken c s = (⟨type, [c]⟩, s) := by
    rw [scanToken, hstart, hdigit, if_neg Bool.false_ne_true, if_neg Bool.false_ne_true,
      if_neg hquote, scanSymbol, hpair, htype]
    rfl
  rw [tokenize_cons hblank (.inr hminus), hscan]

/-- A symbol of two characters. -/
theorem tokenize_two {c c' : UInt8} {type : TokenType} (s : Bytes)
    (hc : ((c, c'), type) ∈ [((byte '!', byte '='), TokenType.NEQ), ((byte '<', byte '='), .LEQ),
      ((byte '>', byte '='), .GEQ)]) :
    tokenize (c :: c' :: s) = ⟨type, [c, c']⟩ :: tokenize s := by
  have hscan : scanToken c (c' :: s) = (⟨type, [c, c']⟩, s) ∧ isBlank c = false ∧ c ≠ byte '-' := by
    revert hc
    simp only [List.mem_cons, Prod.mk.injEq, List.not_mem_nil, or_false]
    rintro (⟨⟨rfl, rfl⟩, rfl⟩ | ⟨⟨rfl, rfl⟩, rfl⟩ | ⟨⟨rfl, rfl⟩, rfl⟩) <;>
      exact ⟨rfl, by decide, by decide⟩
  rw [tokenize_cons hscan.2.1 (.inl hscan.2.2), hscan.1]

theorem lexes_comparisonOp (op : ComparisonOp) :
    Lexes (ascii (comparisonOpName op)) [tok (comparisonType op) (comparisonOpName op)] := by
  intro rest hrest
  cases op with
  | Eq => exact tokenize_one hrest (by decide)
  | Neq => exact tokenize_two rest (by decide)
  | Lt => exact tokenize_one hrest (by decide)
  | Leq => exact tokenize_two rest (by decide)
  | Gt => exact tokenize_one hrest (by decide)
  | Geq => exact tokenize_two rest (by decide)

theorem lexes_arithmeticOp (op : ArithmeticOp) :
    Lexes (ascii (arithmeticOpName op)) [tok (arithmeticType op) (arithmeticOpName op)] := by
  intro rest hrest
  cases op <;> exact tokenize_one hrest (by decide)

/-! ### Numbers -/

theorem isNumber_toString (n : Nat) : IsNumber (ascii (toString n)) := by
  obtain ⟨hne, hdigits, -⟩ := IStream.digits_spec n
  rw [Nat.toString_eq_ofList_toDigits, ascii, String.toList_ofList]
  exact ⟨hne, hdigits⟩

theorem ascii_append (a b : String) : ascii (a ++ b) = ascii a ++ ascii b := by
  simp [ascii]

/-- The digits of a double but for its sign. -/
def magnitudeText (bits : UInt64) : Bytes :=
  let (num, den) := doubleFraction bits
  ascii (fixedDigits num den)

def magnitude (bits : UInt64) : UInt64 := bits &&& 0x7fffffffffffffff

theorem isNumber_append {w w' : Bytes} (hw : ∀ b ∈ w, isDigit b) (hw' : IsNumber w') :
    IsNumber (w ++ w') := by
  refine ⟨by simp [hw'.1], fun b hb => ?_⟩
  rcases List.mem_append.mp hb with hb | hb
  · exact hw b hb
  · exact hw'.2 b hb

theorem exists_fixedDigits (num den : Nat) : ∃ a n b : Nat, fixedDigits num den =
    toString a ++ "." ++ String.ofList (List.replicate n '0') ++ toString b := ⟨_, _, _, rfl⟩

theorem lexes_fixedDigits (num den : Nat) : Lexes (ascii (fixedDigits num den))
    [⟨.FLOAT_LITERAL, ascii (fixedDigits num den)⟩] := by
  have hpoint : ascii "." = [byte '.'] := by decide
  have hzeros : ∀ n, ∀ b ∈ ascii (String.ofList (List.replicate n '0')), isDigit b := by
    intro n b hb
    rw [ascii, String.toList_ofList, List.map_replicate, List.mem_replicate] at hb
    rw [hb.2]
    decide
  obtain ⟨a, n, b, heq⟩ := exists_fixedDigits num den
  rw [heq, ascii_append, ascii_append, ascii_append, hpoint, List.append_assoc, List.append_assoc,
    List.singleton_append]
  exact lexes_float (isNumber_toString _) (isNumber_append (hzeros _) (isNumber_toString _))

/-! ### Literals -/

def literalTokens : Value → List Token
  | .int n =>
    let digits : Token := ⟨.INTEGER_LITERAL, ascii (toString n.toInt.natAbs)⟩
    if n.toInt < 0 then [tok .MINUS "-", digits] else [digits]
  | .double bits =>
    let digits : Token := ⟨.FLOAT_LITERAL, magnitudeText bits⟩
    if isNegative bits then [tok .MINUS "-", digits] else [digits]
  | .text s => [⟨.STRING_LITERAL, s⟩]
  | .bool b => [if b then tok .TRUE "TRUE" else tok .FALSE "FALSE"]
  | .null => [tok .NULL_LITERAL "NULL"]

/-- A literal that is read again as what it was: an integer that is not the least one, and a
double that six decimals tell from the others. -/
def PrintableLiteral : Value → Prop
  | .int n => -2 ^ 63 < n.toInt
  | .double bits => isFinite bits ∧ stod (magnitudeText bits) = some (magnitude bits)
  | _ => True

/-- A sign before digits. -/
theorem Lexes.minus {s : Bytes} {ts : List Token} (h : Lexes s ts) (hs : ∀ c ∈ s.head?, isDigit c)
    (hne : s ≠ []) : Lexes (byte '-' :: s) (tok .MINUS "-" :: ts) := by
  intro rest hrest
  obtain ⟨c, s', rfl⟩ := List.exists_cons_of_ne_nil hne
  have hc : c ≠ byte '-' := (not_blank_of_part (isDigit_part (hs c rfl)).1).2
  have hscan : scanToken (byte '-') (c :: (s' ++ rest)) =
      (⟨.MINUS, ascii "-"⟩, c :: (s' ++ rest)) := by
    rw [scanToken, if_neg (by decide), if_neg (by decide), if_neg (by decide), scanSymbol]
    rfl
  have hhead : (c :: (s' ++ rest)).head? ≠ some (byte '-') := fun he => hc (Option.some.inj he)
  rw [List.cons_append, List.cons_append, tokenize_cons (by decide) (.inr hhead), hscan,
    ← List.cons_append, h rest hrest]
  rfl

theorem toString_of_neg {n : Int} (h : n < 0) : toString n = "-" ++ toString n.natAbs := by
  cases n with
  | ofNat n => exact absurd h (by simp)
  | negSucc n => rfl

theorem toString_of_nonneg {n : Int} (h : ¬n < 0) : toString n = toString n.natAbs := by
  cases n with
  | ofNat n => rfl
  | negSucc n => exact absurd (Int.negSucc_lt_zero n) h

theorem exists_magnitudeText (bits : UInt64) :
    ∃ num den : Nat, magnitudeText bits = ascii (fixedDigits num den) := by
  obtain ⟨num, den, h⟩ : ∃ num den, doubleFraction bits = (num, den) := ⟨_, _, rfl⟩
  exact ⟨num, den, by rw [magnitudeText, h]⟩

theorem literalText_double {bits : UInt64} (h : isFinite bits) : literalText (.double bits) =
    if isNegative bits then byte '-' :: magnitudeText bits else magnitudeText bits := by
  have hminus : ascii "-" = [byte '-'] := by decide
  have hnone : ascii "" = [] := by decide
  obtain ⟨num, den, hfraction⟩ : ∃ num den, doubleFraction bits = (num, den) := ⟨_, _, rfl⟩
  rw [literalText, doubleToString, if_pos h, magnitudeText, hfraction, ascii_append]
  split
  · rw [hminus, List.singleton_append]
  · rw [hnone, List.nil_append]

theorem lexes_literal {v : Value} (hv : PrintableLiteral v) :
    Lexes (literalText v) (literalTokens v) := by
  have hminus : ascii "-" = [byte '-'] := by decide
  have hhead : ∀ {w : Bytes}, IsNumber w → ∀ c ∈ w.head?, isDigit c := fun hw c hc =>
    hw.2 c (List.mem_of_head? hc)
  cases v with
  | null => exact lexes_keyword 62 rfl
  | int n =>
    have hdigits := isNumber_toString n.toInt.natAbs
    have hlex := lexes_integer hdigits
    rw [literalText, literalTokens]
    split
    · rename_i hneg
      rw [toString_of_neg hneg, ascii_append, hminus]
      exact hlex.minus (hhead hdigits) hdigits.1
    · rename_i hpos
      rw [toString_of_nonneg hpos]
      exact hlex
  | bool b =>
    cases b with
    | false => exact lexes_keyword 31 rfl
    | true => exact lexes_keyword 30 rfl
  | text s => exact lexes_quoteString s
  | double bits =>
    have hlex : Lexes (magnitudeText bits) [⟨.FLOAT_LITERAL, magnitudeText bits⟩] := by
      obtain ⟨num, den, hfixed⟩ := exists_magnitudeText bits
      rw [hfixed]
      exact lexes_fixedDigits num den
    have hdigits : (∀ c ∈ (magnitudeText bits).head?, isDigit c) ∧ magnitudeText bits ≠ [] := by
      obtain ⟨num, den, hfixed⟩ := exists_magnitudeText bits
      obtain ⟨a, n, b, heq⟩ := exists_fixedDigits num den
      obtain ⟨hne, ha⟩ := isNumber_toString a
      obtain ⟨c, w, hw⟩ := List.exists_cons_of_ne_nil hne
      rw [hfixed, heq, ascii_append, ascii_append, ascii_append, hw, List.cons_append,
        List.cons_append, List.cons_append]
      exact ⟨fun d hd => Option.some.inj hd ▸ ha c (hw ▸ List.mem_cons_self), List.cons_ne_nil _ _⟩
    have htext := literalText_double hv.1
    rw [htext, literalTokens]
    split
    · exact hlex.minus hdigits.1 hdigits.2
    · exact hlex

/-! ### Expressions -/

def identifier (name : String) : Token := ⟨.IDENTIFIER, ascii name⟩

def columnTokens (col : ColumnRef) : List Token :=
  if col.table.isEmpty then [identifier col.column]
  else [identifier col.table, tok .DOT ".", identifier col.column]

def inParentheses (ts : List Token) : List Token := tok .LPAREN "(" :: (ts ++ [tok .RPAREN ")"])

def negation (negated : Bool) : List Token := if negated then [tok .NOT "NOT"] else []

def typeToken : DataType → Token
  | .Int => tok .INT_TYPE "INT"
  | .Bool => tok .BOOL_TYPE "BOOL"
  | .Text => tok .TEXT_TYPE "TEXT"
  | .Varchar => tok .VARCHAR "VARCHAR"
  | .Float => tok .FLOAT_TYPE "FLOAT"
  | .Date => tok .DATE_TYPE "DATE"
  | .Timestamp => tok .TIMESTAMP_TYPE "TIMESTAMP"

mutual

/-- The tokens of what is printed of an expression. -/
def exprTokens : Expression → List Token
  | .literal v => literalTokens v
  | .column col => columnTokens col
  | .binary op l r => inParentheses
    (exprTokens l ++ tok (comparisonType op) (comparisonOpName op) :: exprTokens r)
  | .arithmetic op l r => inParentheses
    (exprTokens l ++ tok (arithmeticType op) (arithmeticOpName op) :: exprTokens r)
  | .logical op l r => inParentheses
    (exprTokens l ++ (if op = .And then tok .AND "AND" else tok .OR "OR") :: exprTokens r)
  | .not operand => inParentheses (tok .NOT "NOT" :: exprTokens operand)
  | .isNull operand negated => inParentheses
    (exprTokens operand ++ tok .IS "IS" :: (negation negated ++ [tok .NULL_LITERAL "NULL"]))
  | .between value lo hi negated => inParentheses
    (exprTokens value ++ (negation negated ++ tok .BETWEEN "BETWEEN" ::
      (exprTokens lo ++ tok .AND "AND" :: exprTokens hi)))
  | .like value pattern negated => inParentheses
    (exprTokens value ++ (negation negated ++ tok .LIKE "LIKE" :: exprTokens pattern))
  | .inList value items negated => inParentheses
    (exprTokens value ++ (negation negated ++ tok .IN "IN" :: inParentheses (listTokens items)))
  | .cast arg target =>
    identifier "CAST" :: inParentheses (exprTokens arg ++ [tok .AS "AS", typeToken target])
  | .call name args => identifier name :: inParentheses (listTokens args)
  | .case branches none => tok .CASE "CASE" :: (branchesTokens branches ++ [tok .END "END"])
  | .case branches (some e) => tok .CASE "CASE" ::
    (branchesTokens branches ++ tok .ELSE "ELSE" :: (exprTokens e ++ [tok .END "END"]))
  | .inSubquery .. | .subquery .. | .aggregate .. => []

def listTokens : List Expression → List Token
  | [] => []
  | [e] => exprTokens e
  | e :: es => exprTokens e ++ tok .COMMA "," :: listTokens es

def branchesTokens : List (Expression × Expression) → List Token
  | [] => []
  | (cond, value) :: branches => tok .WHERE "WHEN" ::
    (exprTokens cond ++ tok .THEN "THEN" :: (exprTokens value ++ branchesTokens branches))

end

/-- A name that is a word but no keyword. -/
def Identifier (name : String) : Prop :=
  IsWord (ascii name) ∧ wordType (ascii name) = .IDENTIFIER ∧ toText (ascii name) = name

instance (name : String) : Decidable (Identifier name) := inferInstanceAs (Decidable (_ ∧ _ ∧ _))

/-- The name of a function, as the parser keeps it. -/
def CallName (name : String) : Prop :=
  Identifier name ∧ upperName (ascii name) = name ∧ isAggregateName (ascii name) = false ∧
    name ≠ "CAST"

/-- A reference that nothing has been bound to yet. -/
def PrintableColumn (col : ColumnRef) : Prop :=
  col = { table := col.table, column := col.column } ∧ Identifier col.column ∧
    (col.table.isEmpty = false → Identifier col.table)

/-- Expressions as the parser makes them, without queries and aggregates. -/
inductive Printable : Expression → Prop
  | literal {v} (h : PrintableLiteral v) : Printable (.literal v)
  | column {col} (h : PrintableColumn col) : Printable (.column col)
  | binary {op l r} (hl : Printable l) (hr : Printable r) : Printable (.binary op l r)
  | arithmetic {op l r} (hl : Printable l) (hr : Printable r) : Printable (.arithmetic op l r)
  | logical {op l r} (hl : Printable l) (hr : Printable r) : Printable (.logical op l r)
  | not {e} (h : Printable e) : Printable (.not e)
  | isNull {e negated} (h : Printable e) : Printable (.isNull e negated)
  | between {v lo hi negated} (hv : Printable v) (hlo : Printable lo) (hhi : Printable hi) :
      Printable (.between v lo hi negated)
  | like {v p negated} (hv : Printable v) (hp : Printable p) : Printable (.like v p negated)
  | inList {v items negated} (hv : Printable v) (hne : items ≠ [])
      (hlit : ∀ i ∈ items, ∃ v, i = .literal v) (hitems : ∀ i ∈ items, Printable i) :
      Printable (.inList v items negated)
  | cast {e target} (h : Printable e) : Printable (.cast e target)
  | call {name args} (hname : CallName name) (hargs : ∀ a ∈ args, Printable a) :
      Printable (.call name args)
  | case {branches elseExpr} (hne : branches ≠ []) (hconds : ∀ b ∈ branches, Printable b.1)
      (hvalues : ∀ b ∈ branches, Printable b.2) (helse : ∀ e ∈ elseExpr, Printable e) :
      Printable (.case branches elseExpr)

/-- What is printed of an expression are its tokens. -/
def Printed (e : Expression) : Prop :=
  ∃ text, expressionToString e = .ok text ∧ Lexes text (exprTokens e)

theorem lexes_typeToken (type : DataType) :
    Lexes (ascii (dataTypeName type)) [typeToken type] := by
  cases type with
  | Int => exact lexes_keyword 14 rfl
  | Bool => exact lexes_keyword 18 rfl
  | Text => exact lexes_keyword 20 rfl
  | Varchar => exact lexes_keyword 21 rfl
  | Float => exact lexes_keyword 22 rfl
  | Date => exact lexes_keyword 27 rfl
  | Timestamp => exact lexes_keyword 28 rfl

/-- A word that is unlike every keyword. -/
theorem identifier_of_new {name : String} (hword : IsWord (ascii name))
    (htext : toText (ascii name) = name)
    (hnew : ∀ p ∈ keywordTable,
      p.1.toList ≠ ((ascii name).map upper).map fun b => Char.ofNat b.toNat) :
    Identifier name := by
  have hlookup : keywordTable.lookup (toText ((ascii name).map upper)) = none :=
    List.lookup_eq_none_iff.mpr fun p hp => bne_iff_ne.mpr fun he =>
      hnew p hp (by rw [← he, toText, String.toList_ofList])
  exact ⟨hword, by rw [wordType, hlookup]; rfl, htext⟩

theorem identifier_cast : Identifier "CAST" :=
  identifier_of_new (by decide +kernel) (by decide +kernel) (by decide +kernel)

theorem lexes_identifier {name : String} (h : Identifier name) :
    Lexes (ascii name) [identifier name] := by
  have hlex := lexes_word h.1
  rwa [h.2.1] at hlex

theorem lexes_column {col : ColumnRef} (h : PrintableColumn col) :
    Lexes (columnText col) (columnTokens col) := by
  obtain ⟨-, hcolumn, htable⟩ := h
  rw [columnText, columnTokens]
  split
  · exact lexes_identifier hcolumn
  · rename_i hne
    obtain ⟨hword, htype, -⟩ := htable (by simpa using hne)
    have hpoint : ascii "." = [byte '.'] := by decide
    intro rest hrest
    have hstop : ∀ b ∈ (byte '.' :: (ascii col.column ++ rest)).head?, ¬isIdentifierPart b :=
      fun b hb => by
        obtain rfl := Option.some.inj hb
        decide
    rw [ascii_append, ascii_append, hpoint, List.append_assoc, List.append_assoc,
      List.singleton_append, tokenize_word hword hstop, htype,
      tokenize_symbol (show ('.', TokenType.DOT) ∈ _ by decide),
      lexes_identifier hcolumn rest hrest]
    rfl

/-- The texts of keywords and symbols, as the lexer goes through them. -/
theorem ascii_parts : ascii "(" = [byte '('] ∧ ascii ")" = [byte ')'] ∧ ascii " " = [32] ∧
    ascii ", " = [byte ',', 32] := by decide

theorem lexes_infix {lt rt op : Bytes} {tl tr ts : List Token} (hl : Lexes lt tl)
    (hop : Lexes op ts) (hr : Lexes rt tr) :
    Lexes (ascii "(" ++ lt ++ ascii " " ++ op ++ ascii " " ++ rt ++ ascii ")")
      (inParentheses (tl ++ (ts ++ tr))) := by
  obtain ⟨hopen, hclose, hspace, -⟩ := ascii_parts
  rw [hopen, hclose, hspace]
  simpa only [inParentheses, List.append_assoc, List.cons_append, List.nil_append] using
    (hl.spaced (hop.spaced hr)).parenthesized

/-- A keyword after another one. -/
theorem lexes_negated (negated : Bool) {keyword : String} {type : TokenType} (i : Nat)
    (h : keywordTable[i]? = some (keyword, type)) :
    Lexes (if negated then ascii ("NOT " ++ keyword) else ascii keyword)
      (negation negated ++ [tok type keyword]) := by
  have hlex := lexes_keyword i h
  cases negated with
  | false => exact hlex
  | true =>
    have hnot : ascii "NOT " = ascii "NOT" ++ [32] := by decide
    rw [if_pos rfl, ascii_append, hnot, List.append_assoc]
    have hword : Lexes (ascii "NOT") [tok .NOT "NOT"] := lexes_keyword 13 rfl
    exact hword.spaced hlex

theorem printed_list {es : List Expression} (h : ∀ e ∈ es, Printed e) :
    ∃ text, listToString es = .ok text ∧ Lexes text (listTokens es) := by
  obtain ⟨-, -, -, hcomma⟩ := ascii_parts
  induction es with
  | nil => exact ⟨[], rfl, lexes_nil⟩
  | cons e es ih =>
    rw [List.forall_mem_cons] at h
    obtain ⟨text, heq, hlex⟩ := h.1
    cases es with
    | nil => exact ⟨text, heq, hlex⟩
    | cons e' es =>
      obtain ⟨rest, hrest, hlexrest⟩ := ih h.2
      have htext : listToString (e :: e' :: es) = (do
          let s ← expressionToString e
          let rest ← listToString (e' :: es)
          return s ++ ascii ", " ++ rest) := rfl
      refine ⟨_, by rw [htext, heq, hrest]; rfl, ?_⟩
      have htokens : listTokens (e :: e' :: es) =
          exprTokens e ++ tok .COMMA "," :: listTokens (e' :: es) := rfl
      rw [hcomma, htokens, List.append_assoc]
      exact hlex.comma hlexrest

theorem printed_branches {branches : List (Expression × Expression)}
    (hconds : ∀ b ∈ branches, Printed b.1) (hvalues : ∀ b ∈ branches, Printed b.2) {after : Bytes}
    {ts : List Token} (hafter : Lexes (32 :: after) ts) :
    ∃ text, branchesToString branches = .ok text ∧
      ∃ text', text ++ 32 :: after = 32 :: text' ∧
        Lexes (32 :: text') (branchesTokens branches ++ ts) := by
  induction branches with
  | nil => exact ⟨[], rfl, after, rfl, hafter⟩
  | cons b branches ih =>
    obtain ⟨cond, value⟩ := b
    rw [List.forall_mem_cons] at hconds hvalues
    obtain ⟨c, hc, hlexc⟩ := hconds.1
    obtain ⟨v, hv, hlexv⟩ := hvalues.1
    obtain ⟨rest, hrest, text', htext', hlex⟩ := ih hconds.2 hvalues.2
    have hwhen : ascii " WHEN " = 32 :: (ascii "WHEN" ++ [32]) := by decide
    have hthen : ascii " THEN " = 32 :: (ascii "THEN" ++ [32]) := by decide
    refine ⟨_, by rw [branchesToString, hc, hv, hrest]; rfl,
      ascii "WHEN" ++ 32 :: (c ++ 32 :: (ascii "THEN" ++ 32 :: (v ++ 32 :: text'))), ?_, ?_⟩
    · rw [hwhen, hthen, ← htext']
      simp only [List.append_assoc, List.cons_append, List.nil_append]
    · have hkwhen : Lexes (ascii "WHEN") [tok .WHERE "WHEN"] := lexes_keyword 2 rfl
      have hkthen : Lexes (ascii "THEN") [tok .THEN "THEN"] := lexes_keyword 45 rfl
      have hall := (hkwhen.spaced (hlexc.spaced (hkthen.spaced
        (hlexv.append hlex (by decide))))).space
      simpa only [branchesTokens, List.append_assoc, List.cons_append, List.nil_append] using hall

theorem printed_of_printable {e : Expression} (h : Printable e) : Printed e := by
  obtain ⟨hopen, hclose, hspace, hcomma⟩ := ascii_parts
  induction h with
  | literal h => exact ⟨_, rfl, lexes_literal h⟩
  | column h => exact ⟨_, rfl, lexes_column h⟩
  | @binary op l r _ _ ihl ihr =>
    obtain ⟨lt, hl, hlexl⟩ := ihl
    obtain ⟨rt, hr, hlexr⟩ := ihr
    refine ⟨_, by rw [expressionToString, hl, hr]; rfl, ?_⟩
    exact lexes_infix hlexl (lexes_comparisonOp op) hlexr
  | @arithmetic op l r _ _ ihl ihr =>
    obtain ⟨lt, hl, hlexl⟩ := ihl
    obtain ⟨rt, hr, hlexr⟩ := ihr
    refine ⟨_, by rw [expressionToString, hl, hr]; rfl, ?_⟩
    exact lexes_infix hlexl (lexes_arithmeticOp op) hlexr
  | @logical op l r _ _ ihl ihr =>
    obtain ⟨lt, hl, hlexl⟩ := ihl
    obtain ⟨rt, hr, hlexr⟩ := ihr
    refine ⟨_, by rw [expressionToString, hl, hr]; rfl, ?_⟩
    have hand : ascii " AND " = ascii " " ++ ascii "AND" ++ ascii " " := by decide
    have hor : ascii " OR " = ascii " " ++ ascii "OR" ++ ascii " " := by decide
    cases op with
    | And =>
      have hword : Lexes (ascii "AND") [tok .AND "AND"] := lexes_keyword 11 rfl
      change Lexes (ascii "(" ++ lt ++ ascii " AND " ++ rt ++ ascii ")") _
      rw [hand, ← List.append_assoc, ← List.append_assoc]
      exact lexes_infix hlexl hword hlexr
    | Or =>
      have hword : Lexes (ascii "OR") [tok .OR "OR"] := lexes_keyword 12 rfl
      change Lexes (ascii "(" ++ lt ++ ascii " OR " ++ rt ++ ascii ")") _
      rw [hor, ← List.append_assoc, ← List.append_assoc]
      exact lexes_infix hlexl hword hlexr
  | @not e _ ih =>
    obtain ⟨text, heq, hlex⟩ := ih
    have hword : Lexes (ascii "NOT") [tok .NOT "NOT"] := lexes_keyword 13 rfl
    have htext : ascii "(NOT " = byte '(' :: (ascii "NOT" ++ [32]) := by decide
    refine ⟨_, by rw [expressionToString, heq]; rfl, ?_⟩
    rw [htext, hclose]
    simpa only [exprTokens, inParentheses, List.append_assoc, List.cons_append,
      List.nil_append] using (hword.spaced hlex).parenthesized
  | @isNull e negated _ ih =>
    obtain ⟨text, heq, hlex⟩ := ih
    have his : Lexes (ascii "IS") [tok .IS "IS"] := lexes_keyword 58 rfl
    have hnull := lexes_negated negated 62
      (show keywordTable[62]? = some ("NULL", TokenType.NULL_LITERAL) from rfl)
    have htext : ascii (if negated then " IS NOT NULL)" else " IS NULL)") =
        32 :: (ascii "IS" ++ 32 :: ((if negated then ascii ("NOT " ++ "NULL") else ascii "NULL") ++
          [byte ')'])) := by
      cases negated <;> decide
    refine ⟨_, by rw [expressionToString, heq]; rfl, ?_⟩
    rw [htext, hopen]
    simpa only [exprTokens, inParentheses, List.append_assoc, List.cons_append,
      List.nil_append] using (hlex.spaced (his.spaced hnull)).parenthesized
  | @between v lo hi negated _ _ _ ihv ihlo ihhi =>
    obtain ⟨vt, hv, hlexv⟩ := ihv
    obtain ⟨lot, hlo, hlexlo⟩ := ihlo
    obtain ⟨hit, hhi, hlexhi⟩ := ihhi
    have hbetween := lexes_negated negated 60
      (show keywordTable[60]? = some ("BETWEEN", TokenType.BETWEEN) from rfl)
    have hand : Lexes (ascii "AND") [tok .AND "AND"] := lexes_keyword 11 rfl
    have htext : ascii (if negated then " NOT BETWEEN " else " BETWEEN ") =
        32 :: ((if negated then ascii ("NOT " ++ "BETWEEN") else ascii "BETWEEN") ++ [32]) := by
      cases negated <;> decide
    have handText : ascii " AND " = 32 :: (ascii "AND" ++ [32]) := by decide
    refine ⟨_, by rw [expressionToString, hv, hlo, hhi]; rfl, ?_⟩
    rw [htext, handText, hopen, hclose]
    simpa only [exprTokens, inParentheses, List.append_assoc, List.cons_append,
      List.nil_append] using
      (hlexv.spaced (hbetween.spaced (hlexlo.spaced (hand.spaced hlexhi)))).parenthesized
  | @like v p negated _ _ ihv ihp =>
    obtain ⟨vt, hv, hlexv⟩ := ihv
    obtain ⟨pt, hp, hlexp⟩ := ihp
    have hlike := lexes_negated negated 61
      (show keywordTable[61]? = some ("LIKE", TokenType.LIKE) from rfl)
    have htext : ascii (if negated then " NOT LIKE " else " LIKE ") =
        32 :: ((if negated then ascii ("NOT " ++ "LIKE") else ascii "LIKE") ++ [32]) := by
      cases negated <;> decide
    refine ⟨_, by rw [expressionToString, hv, hp]; rfl, ?_⟩
    rw [htext, hopen, hclose]
    simpa only [exprTokens, inParentheses, List.append_assoc, List.cons_append,
      List.nil_append] using (hlexv.spaced (hlike.spaced hlexp)).parenthesized
  | @inList v items negated _ _ _ _ ihv ihitems =>
    obtain ⟨vt, hv, hlexv⟩ := ihv
    obtain ⟨its, hits, hlexits⟩ := printed_list ihitems
    have hin := lexes_negated negated 59
      (show keywordTable[59]? = some ("IN", TokenType.IN) from rfl)
    have htext : ascii (if negated then " NOT IN (" else " IN (") =
        32 :: ((if negated then ascii ("NOT " ++ "IN") else ascii "IN") ++ [32, byte '(']) := by
      cases negated <;> decide
    have hend : ascii "))" = [byte ')', byte ')'] := by decide
    refine ⟨_, by rw [expressionToString, hv, hits]; rfl, ?_⟩
    rw [htext, hopen, hend]
    simpa only [exprTokens, inParentheses, List.append_assoc, List.cons_append,
      List.nil_append] using (hlexv.spaced (hin.spaced hlexits.parenthesized)).parenthesized
  | @cast e target _ ih =>
    obtain ⟨text, heq, hlex⟩ := ih
    have hcast : Lexes (ascii "CAST") [identifier "CAST"] := lexes_identifier identifier_cast
    have has : Lexes (ascii "AS") [tok .AS "AS"] := lexes_keyword 50 rfl
    have htype : Lexes (ascii (dataTypeName target)) [typeToken target] := lexes_typeToken target
    have hcastText : ascii "CAST(" = ascii "CAST" ++ [byte '('] := by decide
    have hasText : ascii " AS " = 32 :: (ascii "AS" ++ [32]) := by decide
    refine ⟨_, by rw [expressionToString, heq]; rfl, ?_⟩
    rw [hcastText, hasText, hclose]
    simpa only [exprTokens, inParentheses, List.append_assoc, List.cons_append,
      List.nil_append] using
      hcast.append (hlex.spaced (has.spaced htype)).parenthesized (by decide)
  | @call name args hname _ ih =>
    obtain ⟨text, heq, hlex⟩ := printed_list ih
    refine ⟨_, by rw [expressionToString, heq]; rfl, ?_⟩
    rw [hopen, hclose]
    simpa only [exprTokens, inParentheses, List.append_assoc, List.cons_append,
      List.nil_append] using
      (lexes_identifier hname.1).append hlex.parenthesized (by decide)
  | @case branches elseExpr _ _ _ _ ihconds ihvalues ihelse =>
    have hcase : Lexes (ascii "CASE") [tok .CASE "CASE"] := lexes_keyword 44 rfl
    have hend : Lexes (ascii "END") [tok .END "END"] := lexes_keyword 47 rfl
    have hendText : ascii " END" = 32 :: ascii "END" := by decide
    cases elseExpr with
    | none =>
      obtain ⟨text, heq, text', htext', hlex⟩ := printed_branches ihconds ihvalues hend.space
      refine ⟨_, by rw [expressionToString, heq]; rfl, ?_⟩
      rw [hendText, List.append_assoc, htext']
      exact hcase.append hlex (by decide)
    | some e =>
      obtain ⟨et, he, hlexe⟩ := ihelse e rfl
      have helse : Lexes (ascii "ELSE") [tok .ELSE "ELSE"] := lexes_keyword 46 rfl
      obtain ⟨text, heq, text', htext', hlex⟩ := printed_branches ihconds ihvalues
        (helse.spaced (hlexe.spaced hend)).space
      have helseText : ascii " ELSE " = 32 :: (ascii "ELSE" ++ [32]) := by decide
      refine ⟨_, by simp only [expressionToString, heq, he]; rfl, ?_⟩
      have hbytes : ascii "CASE" ++ text ++ ascii " ELSE " ++ et ++ ascii " END" =
          ascii "CASE" ++ 32 :: text' := by
        rw [← htext', helseText, hendText]
        simp only [List.append_assoc, List.cons_append, List.nil_append]
      rw [hbytes]
      exact hcase.append hlex (by decide)

end Relite.Parser
