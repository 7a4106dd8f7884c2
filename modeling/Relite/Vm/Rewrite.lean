import Relite.Vm.ExpressionEval
import Relite.Frontend.SemanticAnalyzer

/-!
# Rewriting expressions

Constant folding and the dropping of operands that seem not to matter. An identity such as
`x + 0 = x` holds of the values that its operation gives back, and the rewriter applies it
to all others too.
-/
namespace Relite.Vm
open Lib Relite.Parser
open Semantic hiding Expression

/-! ## The rewriter -/

def isFoldable : Expression → Bool
  | .literal _ => true
  | .arithmetic _ l r => isFoldable l && isFoldable r
  | .binary _ l r => isFoldable l && isFoldable r
  | .logical _ l r => isFoldable l && isFoldable r
  | .not operand => isFoldable operand
  | _ => false

/-- `static_cast<double>` gives 0.0 or 1.0 for the integers 0 and 1 only. -/
def isNumericLiteral (e : Expression) (want : Int64) : Bool :=
  match e with
  | .literal (.int n) => n == want
  | .literal (.double bits) => Float.ofBits bits == Float.ofInt want.toInt
  | _ => false

def isBoolLiteral (e : Expression) (want : Bool) : Bool :=
  match e with
  | .literal (.bool b) => b == want
  | _ => false

/-- Which operands of a node are left of it. -/
inductive KeptOperand
  | both
  | left
  | right
  | constant (b : Bool)

def KeptOperand.pick (kept : KeptOperand) (l r both : Expression) : Expression :=
  match kept with
  | .both => both
  | .left => l
  | .right => r
  | .constant b => .literal (.bool b)

def keptArithmetic (op : ArithmeticOp) (l r : Expression) : KeptOperand :=
  match op with
  | .Add => if isNumericLiteral r 0 then .left else if isNumericLiteral l 0 then .right else .both
  | .Sub => if isNumericLiteral r 0 then .left else .both
  | .Mul => if isNumericLiteral r 1 then .left else if isNumericLiteral l 1 then .right else .both
  | .Div => if isNumericLiteral r 1 then .left else .both

def keptLogical (op : LogicalOp) (l r : Expression) : KeptOperand :=
  match op with
  | .And =>
    if isBoolLiteral l false || isBoolLiteral r false then .constant false
    else if isBoolLiteral l true then .right
    else if isBoolLiteral r true then .left
    else .both
  | .Or =>
    if isBoolLiteral l true || isBoolLiteral r true then .constant true
    else if isBoolLiteral l false then .right
    else if isBoolLiteral r false then .left
    else .both

/-- A subtree of constants is evaluated on the empty tuple. -/
def foldOr (e rewritten : Expression) : Expression :=
  if isFoldable e then .literal (evalExpression e []) else rewritten

def rewriteExpression : Expression → Expression
  | .arithmetic op l r =>
    let l' := rewriteExpression l
    let r' := rewriteExpression r
    foldOr (.arithmetic op l r) ((keptArithmetic op l' r').pick l' r' (.arithmetic op l' r'))
  | .logical op l r =>
    let l' := rewriteExpression l
    let r' := rewriteExpression r
    foldOr (.logical op l r) ((keptLogical op l' r').pick l' r' (.logical op l' r'))
  | .binary op l r =>
    foldOr (.binary op l r) (.binary op (rewriteExpression l) (rewriteExpression r))
  | .not operand => foldOr (.not operand) (.not (rewriteExpression operand))
  | e => foldOr e e

/-! ## Folding -/

/-- A foldable expression does not look at the tuple. -/
theorem evalExpression_foldable {e : Expression} (h : isFoldable e = true) (t t' : Tuple) :
    evalExpression e t = evalExpression e t' := by
  induction e using isFoldable.induct with
  | case1 v => rfl
  | case2 op l r ihl ihr =>
    simp only [isFoldable, Bool.and_eq_true] at h
    simp only [evalExpression, ihl h.1, ihr h.2]
  | case3 op l r ihl ihr =>
    simp only [isFoldable, Bool.and_eq_true] at h
    simp only [evalExpression, ihl h.1, ihr h.2]
  | case4 op l r ihl ihr =>
    simp only [isFoldable, Bool.and_eq_true] at h
    simp only [evalExpression, ihl h.1, ihr h.2]
  | case5 operand ih =>
    simp only [isFoldable] at h
    simp only [evalExpression, ih h]
  | case6 e h₁ h₂ h₃ h₄ h₅ =>
    unfold isFoldable at h
    split at h <;> simp_all

theorem evalExpression_foldOr {e rewritten : Expression} {t : Tuple} :
    evalExpression (foldOr e rewritten) t = evalExpression e t ↔
      isFoldable e = true ∨ evalExpression rewritten t = evalExpression e t := by
  unfold foldOr
  split
  · rename_i h
    simp only [evalExpression, h, true_or, iff_true]
    exact evalExpression_foldable h [] t
  · rename_i h
    simp [h]

/-! ## Identities -/

/-- What is kept of an operation with the constant `c` has the value that the operation gave. -/
def KeepsNumber (kept c result : Value) : Prop :=
  match kept, c with
  | .null, _ => True
  | .int _, .int _ => True
  | .double bits, _ => result = .double bits
  | _, _ => False

def KeepsTruth (kept : Value) : Prop :=
  match kept with
  | .null | .bool _ => True
  | _ => False

/-- The number that an operation leaves the other operand alone with. -/
def neutral : ArithmeticOp → Int64
  | .Add | .Sub => 0
  | .Mul | .Div => 1

theorem evalArithmetic_null_left (op : ArithmeticOp) (c : Value) :
    evalArithmetic op .null c = .null := by
  cases c <;> rfl

theorem evalArithmetic_null_right (op : ArithmeticOp) (c : Value) :
    evalArithmetic op c .null = .null := by
  cases c <;> rfl

theorem evalArithmetic_neutral (op : ArithmeticOp) (n : Int64) :
    evalArithmetic op (.int n) (.int (neutral op)) = .int n := by
  cases op with
  | Add => simp [evalArithmetic, neutral]
  | Sub => simp [evalArithmetic, neutral]
  | Mul => simp [evalArithmetic, neutral]
  | Div => simp [evalArithmetic, neutral, Int64.div_one]

theorem evalArithmetic_neutral_left {op : ArithmeticOp} (hop : op = .Add ∨ op = .Mul) (n : Int64) :
    evalArithmetic op (.int (neutral op)) (.int n) = .int n := by
  rcases hop with rfl | rfl
  · simp [evalArithmetic, neutral]
  · simp [evalArithmetic, neutral]

/-- An operation with a double is a double or, for a division, null. -/
theorem evalArithmetic_double (op : ArithmeticOp) (l r : Value)
    (h : (∃ bits, l = .double bits) ∨ ∃ bits, r = .double bits) :
    (∃ bits, evalArithmetic op l r = .double bits) ∨ evalArithmetic op l r = .null := by
  unfold evalArithmetic
  split
  · rcases h with ⟨_, h⟩ | ⟨_, h⟩ <;> cases h
  · split
    · cases op with
      | Add => exact .inl ⟨_, rfl⟩
      | Sub => exact .inl ⟨_, rfl⟩
      | Mul => exact .inl ⟨_, rfl⟩
      | Div =>
        simp only
        split
        · exact .inr rfl
        · exact .inl ⟨_, rfl⟩
    · exact .inr rfl

theorem numericLiteral_cases {e : Expression} {want : Int64}
    (h : isNumericLiteral e want = true) :
    e = .literal (.int want) ∨ ∃ bits, e = .literal (.double bits) := by
  unfold isNumericLiteral at h
  split at h
  · rename_i n
    exact .inl (congrArg (fun n => Expression.literal (.int n)) (by simpa using h))
  · rename_i bits
    exact .inr ⟨bits, rfl⟩
  · cases h

/-- Whether an operation with a constant gives back the other operand, by the kinds of the
two. `result` is the operation one way round or the other. -/
theorem keepsNumber_iff {op : ArithmeticOp} {kept c result : Value}
    (hc : c = .int (neutral op) ∨ ∃ bits, c = .double bits)
    (hresult : result = evalArithmetic op kept c ∨
      (op = .Add ∨ op = .Mul) ∧ result = evalArithmetic op c kept) :
    kept = result ↔ KeepsNumber kept c result := by
  have hnull : kept.isNumeric = false → result = .null := by
    intro hkept
    rcases hresult with rfl | ⟨-, rfl⟩
    · rcases hc with rfl | ⟨bits, rfl⟩ <;> cases kept <;> first | rfl | cases hkept
    · rcases hc with rfl | ⟨bits, rfl⟩ <;> cases kept <;> first | rfl | cases hkept
  have hdouble : ((∃ bits, kept = .double bits) ∨ ∃ bits, c = .double bits) →
      (∃ bits, result = .double bits) ∨ result = .null := by
    intro h
    rcases hresult with rfl | ⟨-, rfl⟩
    · exact evalArithmetic_double op kept c h
    · exact evalArithmetic_double op c kept h.symm
  cases kept with
  | null => simp [KeepsNumber, hnull rfl]
  | bool b => simp [KeepsNumber, hnull rfl]
  | text s => simp [KeepsNumber, hnull rfl]
  | double bits => simp [KeepsNumber, eq_comm]
  | int n =>
    rcases hc with rfl | ⟨bits, rfl⟩
    · simp only [KeepsNumber, iff_true]
      rcases hresult with rfl | ⟨hop, rfl⟩
      · exact (evalArithmetic_neutral op n).symm
      · exact (evalArithmetic_neutral_left hop n).symm
    · -- an integer that becomes a double, or null
      simp only [KeepsNumber, iff_false]
      rcases hdouble (.inr ⟨bits, rfl⟩) with ⟨b, h⟩ | h <;> simp [h]

theorem keptArithmetic_left {op : ArithmeticOp} {l r : Expression}
    (h : keptArithmetic op l r = .left) : isNumericLiteral r (neutral op) = true := by
  cases op <;> simp only [keptArithmetic, neutral] at h ⊢ <;> split at h <;> first
    | assumption
    | (split at h <;> cases h)
    | cases h

theorem keptArithmetic_right {op : ArithmeticOp} {l r : Expression}
    (h : keptArithmetic op l r = .right) :
    (op = .Add ∨ op = .Mul) ∧ isNumericLiteral l (neutral op) = true := by
  cases op <;> simp only [keptArithmetic, neutral] at h ⊢ <;> split at h <;> first
    | (split at h <;> first | exact ⟨by simp, ‹_›⟩ | cases h)
    | cases h

theorem keptArithmetic_constant {op : ArithmeticOp} {l r : Expression} {b : Bool} :
    keptArithmetic op l r ≠ .constant b := by
  cases op <;> simp only [keptArithmetic] <;> split <;> first
    | (split <;> nofun)
    | nofun

/-- The truth value that AND or OR leaves the other operand alone with. -/
def neutralTruth : LogicalOp → Bool
  | .And => true
  | .Or => false

theorem boolLiteral_eq {e : Expression} {want : Bool} (h : isBoolLiteral e want = true) :
    e = .literal (.bool want) := by
  unfold isBoolLiteral at h
  split at h
  · rename_i b
    exact congrArg (fun b => Expression.literal (.bool b)) (by simpa using h)
  · cases h

theorem evalLogical_neutral (op : LogicalOp) (v : Value) :
    (v = evalLogical op v.asBool (some (neutralTruth op)) ↔ KeepsTruth v) ∧
    (v = evalLogical op (some (neutralTruth op)) v.asBool ↔ KeepsTruth v) := by
  cases op <;> cases v with
  | bool b => cases b <;> simp [evalLogical, Value.asBool, neutralTruth, KeepsTruth]
  | null => simp [evalLogical, Value.asBool, neutralTruth, KeepsTruth]
  | int n => simp [evalLogical, Value.asBool, neutralTruth, KeepsTruth]
  | double bits => simp [evalLogical, Value.asBool, neutralTruth, KeepsTruth]
  | text s => simp [evalLogical, Value.asBool, neutralTruth, KeepsTruth]

theorem evalLogical_absorbing (op : LogicalOp) (b : Option Bool) :
    evalLogical op (some !neutralTruth op) b = .bool !neutralTruth op ∧
    evalLogical op b (some !neutralTruth op) = .bool !neutralTruth op := by
  cases op <;> simp [evalLogical, neutralTruth]

/-- What each outcome of `keptLogical` says about the operands. -/
theorem keptLogical_cases (op : LogicalOp) (l r : Expression) :
    keptLogical op l r = .both ∨
    keptLogical op l r = .left ∧ r = .literal (.bool (neutralTruth op)) ∨
    keptLogical op l r = .right ∧ l = .literal (.bool (neutralTruth op)) ∨
    keptLogical op l r = .constant (!neutralTruth op) ∧
      (l = .literal (.bool !neutralTruth op) ∨ r = .literal (.bool !neutralTruth op)) := by
  cases op <;> simp only [keptLogical, neutralTruth, Bool.not_true, Bool.not_false]
  all_goals
    split
    · rename_i h
      refine .inr (.inr (.inr ⟨rfl, ?_⟩))
      rcases Bool.or_eq_true _ _ ▸ h with h | h
      · exact .inl (boolLiteral_eq h)
      · exact .inr (boolLiteral_eq h)
    · split
      · exact .inr (.inr (.inl ⟨rfl, boolLiteral_eq ‹_›⟩))
      · split
        · exact .inr (.inl ⟨rfl, boolLiteral_eq ‹_›⟩)
        · exact .inl rfl

/-! ## Where the rewriter keeps the value -/

/-- The expression and the parts of it that the rewriter rewrites by themselves. -/
def visited : Expression → List Expression
  | .arithmetic op l r =>
    .arithmetic op l r ::
      if isFoldable (.arithmetic op l r) then [] else visited l ++ visited r
  | .logical op l r =>
    .logical op l r :: if isFoldable (.logical op l r) then [] else visited l ++ visited r
  | .binary op l r =>
    .binary op l r :: if isFoldable (.binary op l r) then [] else visited l ++ visited r
  | .not operand => .not operand :: if isFoldable operand then [] else visited operand
  | e => [e]

theorem mem_visited (e : Expression) : e ∈ visited e := by
  unfold visited
  split <;> exact List.mem_cons_self

/-- If the rewriter drops the operation at the root of the expression, what it keeps has the
operation's value on `t`. -/
def Harmless (t : Tuple) (e : Expression) : Prop :=
  isFoldable e = true ∨
  match e with
  | .arithmetic op l r =>
    match keptArithmetic op (rewriteExpression l) (rewriteExpression r) with
    | .left => KeepsNumber (evalExpression l t) (evalExpression r t) (evalExpression e t)
    | .right => KeepsNumber (evalExpression r t) (evalExpression l t) (evalExpression e t)
    | _ => True
  | .logical op l r =>
    match keptLogical op (rewriteExpression l) (rewriteExpression r) with
    | .left => KeepsTruth (evalExpression l t)
    | .right => KeepsTruth (evalExpression r t)
    | _ => True
  | _ => True

def Preserved (t : Tuple) (e : Expression) : Prop :=
  evalExpression (rewriteExpression e) t = evalExpression e t

theorem preserved_arithmetic {t : Tuple} {op : ArithmeticOp} {l r : Expression}
    (hl : Preserved t l) (hr : Preserved t r) :
    Preserved t (.arithmetic op l r) ↔ Harmless t (.arithmetic op l r) := by
  unfold Preserved Harmless at *
  rw [rewriteExpression, evalExpression_foldOr]
  refine or_congr_right ?_
  cases hkept : keptArithmetic op (rewriteExpression l) (rewriteExpression r) with
  | both => simp [hkept, KeptOperand.pick, evalExpression, hl, hr]
  | constant b => exact absurd hkept keptArithmetic_constant
  | left =>
    simp only [hkept, KeptOperand.pick, hl]
    have hc := numericLiteral_cases (keptArithmetic_left hkept)
    refine keepsNumber_iff ?_ (.inl rfl)
    rw [← hr]
    rcases hc with hc | ⟨bits, hc⟩
    · exact .inl (by rw [hc]; rfl)
    · exact .inr ⟨bits, by rw [hc]; rfl⟩
  | right =>
    simp only [hkept, KeptOperand.pick, hr]
    obtain ⟨hop, hlit⟩ := keptArithmetic_right hkept
    refine keepsNumber_iff ?_ (.inr ⟨hop, rfl⟩)
    rw [← hl]
    rcases numericLiteral_cases hlit with hc | ⟨bits, hc⟩
    · exact .inl (by rw [hc]; rfl)
    · exact .inr ⟨bits, by rw [hc]; rfl⟩

theorem preserved_logical {t : Tuple} {op : LogicalOp} {l r : Expression}
    (hl : Preserved t l) (hr : Preserved t r) :
    Preserved t (.logical op l r) ↔ Harmless t (.logical op l r) := by
  unfold Preserved Harmless at *
  rw [rewriteExpression, evalExpression_foldOr]
  refine or_congr_right ?_
  obtain hkept | ⟨hkept, hlit⟩ | ⟨hkept, hlit⟩ | ⟨hkept, hlit⟩ :=
    keptLogical_cases op (rewriteExpression l) (rewriteExpression r)
  · simp [hkept, KeptOperand.pick, evalExpression, hl, hr]
  · have hconst : evalExpression r t = .bool (neutralTruth op) := by rw [← hr, hlit]; rfl
    simp only [hkept, KeptOperand.pick, hl, evalExpression, hconst]
    exact (evalLogical_neutral op _).1
  · have hconst : evalExpression l t = .bool (neutralTruth op) := by rw [← hl, hlit]; rfl
    simp only [hkept, KeptOperand.pick, hr, evalExpression, hconst]
    exact (evalLogical_neutral op _).2
  · simp only [hkept, KeptOperand.pick, iff_true, evalExpression]
    rcases hlit with hlit | hlit
    · have hconst : evalExpression l t = .bool !neutralTruth op := by rw [← hl, hlit]; rfl
      rw [hconst]
      exact (evalLogical_absorbing op _).1.symm
    · have hconst : evalExpression r t = .bool !neutralTruth op := by rw [← hr, hlit]; rfl
      rw [hconst]
      exact (evalLogical_absorbing op _).2.symm

theorem rewriteExpression_foldable {e : Expression} (h : isFoldable e = true) :
    rewriteExpression e = .literal (evalExpression e []) := by
  unfold rewriteExpression
  split <;> exact if_pos h

theorem preserved_foldable (t : Tuple) {e : Expression} (h : isFoldable e = true) :
    Preserved t e := by
  rw [Preserved, rewriteExpression_foldable h]
  exact evalExpression_foldable h [] t

/-- One node over the parts of it that are visited. -/
theorem forall_visited_iff {t : Tuple} {e : Expression} (parts : List Expression)
    (hvisited : visited e = e :: if isFoldable e = true then [] else parts)
    (ih : (∀ e' ∈ parts, Preserved t e') ↔ ∀ e' ∈ parts, Harmless t e')
    (hnode : (∀ e' ∈ parts, Preserved t e') → (Preserved t e ↔ Harmless t e)) :
    (∀ e' ∈ visited e, Preserved t e') ↔ ∀ e' ∈ visited e, Harmless t e' := by
  rw [hvisited]
  split
  · rename_i hfold
    simp only [List.mem_singleton, forall_eq]
    exact ⟨fun _ => .inl hfold, fun _ => preserved_foldable t hfold⟩
  · rw [List.forall_mem_cons, List.forall_mem_cons, ← ih]
    exact and_congr_left hnode

/-- The rewriter keeps the values of an expression and of all parts of it that it visits
exactly if every operation that it drops is one that the kept value passes through. -/
theorem preserved_iff_harmless (t : Tuple) (e : Expression) :
    (∀ e' ∈ visited e, Preserved t e') ↔ ∀ e' ∈ visited e, Harmless t e' := by
  induction e using visited.induct with
  | case1 op l r ihl ihr =>
    refine forall_visited_iff (visited l ++ visited r) rfl ?_ ?_
    · simp only [List.forall_mem_append, ihl, ihr]
    · intro h
      rw [List.forall_mem_append] at h
      exact preserved_arithmetic (h.1 l (mem_visited l)) (h.2 r (mem_visited r))
  | case2 op l r ihl ihr =>
    refine forall_visited_iff (visited l ++ visited r) rfl ?_ ?_
    · simp only [List.forall_mem_append, ihl, ihr]
    · intro h
      rw [List.forall_mem_append] at h
      exact preserved_logical (h.1 l (mem_visited l)) (h.2 r (mem_visited r))
  | case3 op l r ihl ihr =>
    refine forall_visited_iff (visited l ++ visited r) rfl ?_ ?_
    · simp only [List.forall_mem_append, ihl, ihr]
    · intro h
      rw [List.forall_mem_append] at h
      have hl : Preserved t l := h.1 l (mem_visited l)
      have hr : Preserved t r := h.2 r (mem_visited r)
      refine iff_of_true ?_ (.inr trivial)
      rw [Preserved, rewriteExpression, evalExpression_foldOr]
      exact .inr (by rw [evalExpression, evalExpression, hl, hr])
  | case4 operand ih =>
    refine forall_visited_iff (visited operand) rfl ih fun h => ?_
    have ho : Preserved t operand := h operand (mem_visited operand)
    refine iff_of_true ?_ (.inr trivial)
    rw [Preserved, rewriteExpression, evalExpression_foldOr]
    exact .inr (by rw [evalExpression, evalExpression, ho])
  | case5 e h₁ h₂ h₃ h₄ =>
    have hvisited : visited e = [e] := by
      unfold visited
      split <;> simp_all
    have hpreserved : Preserved t e := by
      have hrewrite : rewriteExpression e = foldOr e e := by
        unfold rewriteExpression
        split <;> simp_all
      rw [Preserved, hrewrite, evalExpression_foldOr]
      exact .inr rfl
    have hharmless : Harmless t e := by
      refine .inr ?_
      split <;> simp_all
    simp [hvisited, hpreserved, hharmless]

/-! ## What the analyzer accepts -/

section Accepted
open SemanticAnalyzer

/-- The analyzer has accepted `e` as what some expression means. -/
def Accepted (scope : Scope) (e : Expression) : Prop :=
  ∃ source type, visit scope source = .ok (e, type)

theorem accepted_parts {scope : Scope} {e : Expression} (parts : List Expression)
    (hvisited : visited e = e :: if isFoldable e = true then [] else parts)
    (hnode : Accepted scope e) (hparts : ∀ e' ∈ parts, Accepted scope e') :
    ∀ e' ∈ visited e, Accepted scope e' := by
  rw [hvisited]
  intro e' he'
  rcases List.mem_cons.mp he' with rfl | he'
  · exact hnode
  · split at he'
    · cases he'
    · exact hparts e' he'

/-- The analyzer accepts the parts of what it accepts. -/
theorem accepted_visited {scope : Scope} {e : Expression} (h : Accepted scope e) :
    ∀ e' ∈ visited e, Accepted scope e' := by
  obtain ⟨source, type, h⟩ := h
  have hnode : Accepted scope e := ⟨source, type, h⟩
  induction source using visited.induct generalizing e type with
  | case1 op l r ihl ihr =>
    simp only [visit, bind_eq_ok] at h
    obtain ⟨⟨l', lt⟩, hl, ⟨r', rt⟩, hr, -, -, h⟩ := h
    cases h
    refine accepted_parts (visited l' ++ visited r') rfl hnode ?_
    exact List.forall_mem_append.mpr ⟨ihl lt hl ⟨l, lt, hl⟩, ihr rt hr ⟨r, rt, hr⟩⟩
  | case2 op l r ihl ihr =>
    simp only [visit, bind_eq_ok] at h
    obtain ⟨⟨l', lt⟩, hl, ⟨r', rt⟩, hr, -, -, h⟩ := h
    cases h
    refine accepted_parts (visited l' ++ visited r') rfl hnode ?_
    exact List.forall_mem_append.mpr ⟨ihl lt hl ⟨l, lt, hl⟩, ihr rt hr ⟨r, rt, hr⟩⟩
  | case3 op l r ihl ihr =>
    simp only [visit, bind_eq_ok] at h
    obtain ⟨⟨l', lt⟩, hl, ⟨r', rt⟩, hr, h⟩ := h
    have he : e = .binary op l' r' := by
      split at h
      · obtain ⟨-, -, h⟩ := bind_eq_ok.mp h
        cases h
        rfl
      · cases h
        rfl
    subst he
    refine accepted_parts (visited l' ++ visited r') rfl hnode ?_
    exact List.forall_mem_append.mpr ⟨ihl lt hl ⟨l, lt, hl⟩, ihr rt hr ⟨r, rt, hr⟩⟩
  | case4 operand ih =>
    simp only [visit, bind_eq_ok] at h
    obtain ⟨⟨o', ot⟩, ho, -, -, h⟩ := h
    cases h
    exact accepted_parts (visited o') rfl hnode (ih ot ho ⟨operand, ot, ho⟩)
  | case5 source h₁ h₂ h₃ h₄ =>
    have hvisited : visited e = [e] := by
      cases source with
      | arithmetic op l r => exact absurd rfl (h₁ op l r)
      | logical op l r => exact absurd rfl (h₂ op l r)
      | binary op l r => exact absurd rfl (h₃ op l r)
      | not operand => exact absurd rfl (h₄ operand)
      | literal v => cases h; rfl
      | column col =>
        simp only [visit, bind_eq_ok] at h
        obtain ⟨_, -, h⟩ := h
        cases h
        rfl
      | isNull operand negated =>
        simp only [visit, bind_eq_ok] at h
        obtain ⟨_, -, h⟩ := h
        cases h
        rfl
      | inList v items negated =>
        simp only [visit, bind_eq_ok] at h
        obtain ⟨_, -, _, -, h⟩ := h
        cases h
        rfl
      | inSubquery v results negated =>
        simp only [visit, bind_eq_ok] at h
        obtain ⟨_, -, h⟩ := h
        cases h
        rfl
      | between v lo hi negated =>
        simp only [visit, bind_eq_ok] at h
        obtain ⟨_, -, _, -, _, -, h⟩ := h
        cases h
        rfl
      | like v pattern negated =>
        simp only [visit, bind_eq_ok] at h
        obtain ⟨_, -, _, -, _, -, h⟩ := h
        cases h
        rfl
      | call name args =>
        simp only [visit, bind_eq_ok] at h
        obtain ⟨_, -, _, -, h⟩ := h
        cases h
        rfl
      | cast arg target =>
        simp only [visit, bind_eq_ok] at h
        obtain ⟨_, -, h⟩ := h
        cases h
        rfl
      | case branches elseExpr =>
        cases elseExpr with
        | none =>
          simp only [visit, bind_eq_ok] at h
          obtain ⟨_, -, _, -, h⟩ := h
          cases h
          rfl
        | some last =>
          simp only [visit, bind_eq_ok] at h
          obtain ⟨_, -, _, -, _, -, h⟩ := h
          cases h
          rfl
      | aggregate name star distinct argument =>
        simp only [visit, visitAggregate, bind_eq_ok] at h
        obtain ⟨_, -, h⟩ := h
        split at h
        · obtain ⟨_, -, h⟩ := bind_eq_ok.mp h
          cases h
          rfl
        · split at h
          · cases h
          · obtain ⟨_, -, h⟩ := bind_eq_ok.mp h
            obtain ⟨_, -, h⟩ := bind_eq_ok.mp h
            cases h
            rfl
      | subquery kind results =>
        cases kind <;> cases h <;> rfl
    simpa [hvisited] using hnode

/-- For every expression that the analyzer accepts and every tuple: its parts are accepted
too, and the rewriter keeps the value of the expression and of every part that it visits
exactly if each operation that it drops is one the kept value passes through. -/
theorem rewrite_preserves_iff {scope : Scope} {source e : Expression} {type : Option DataType}
    (h : visit scope source = .ok (e, type)) (t : Tuple) :
    (∀ e' ∈ visited e, Accepted scope e') ∧
    ((∀ e' ∈ visited e, evalExpression (rewriteExpression e') t = evalExpression e' t) ↔
      ∀ e' ∈ visited e, Harmless t e') :=
  ⟨accepted_visited ⟨source, type, h⟩, preserved_iff_harmless t e⟩

def intTable : TableSchema := { tableId := 1, name := "t", columns := [{ name := "a", type := .Int }] }

/-- `a * 1 + 0` in the sense of the table's column. -/
def timesOnePlusZero (index : Int) : Expression :=
  .arithmetic .Add
    (.arithmetic .Mul (.column { column := "a", columnIndex := index }) (.literal (.int 1)))
    (.literal (.int 0))

theorem rewrite_preserves_times_one_plus_zero :
    visit { currentTable := some intTable } (timesOnePlusZero (-1)) =
      .ok (timesOnePlusZero 0, some .Int) ∧
    ((∀ e' ∈ visited (timesOnePlusZero 0),
        evalExpression (rewriteExpression e') [.int 5] = evalExpression e' [.int 5]) ↔
      ∀ e' ∈ visited (timesOnePlusZero 0), Harmless [.int 5] e') := by
  have h : visit { currentTable := some intTable } (timesOnePlusZero (-1)) =
      .ok (timesOnePlusZero 0, some .Int) := rfl
  exact ⟨h, (rewrite_preserves_iff h [.int 5]).2⟩

/-- `a + 0.0` is a double where `a` is the integer 5, and the integer after the rewriting. -/
theorem not_rewrite_preserves : ∃ source e,
    visit { currentTable := some intTable } source = .ok (e, some .Float) ∧
      (∃ bits, evalExpression e [.int 5] = .double bits) ∧
      evalExpression (rewriteExpression e) [.int 5] = .int 5 :=
  ⟨.arithmetic .Add (.column { column := "a" }) (.literal (.double 0)), _, rfl, ⟨_, rfl⟩,
    by decide +kernel⟩

end Accepted

end Relite.Vm
