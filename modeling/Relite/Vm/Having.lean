import Relite.Vm.Aggregate
import Relite.Frontend.SemanticAnalyzer
import Relite.Vm.Session

/-!
# HAVING

The clause has an evaluator of its own, which computes the aggregate calls that it comes
across and leaves every other kind of expression to the evaluator of rows, for which an
aggregate call has no value. It has two truth values only: what is unknown is false, and its
negation true.
-/
namespace Relite.Vm.Having
open Lib Relite.Parser
open Semantic hiding Expression

/-! ## The evaluator -/

/-- The arithmetic is that of `evalExpression`. -/
def evalHavingValue : Expression → List Tuple → Tuple → Value
  | .aggregate name star distinct argument, rows, _ =>
    computeAggregate { name, star, distinct, argument } rows
  | .arithmetic op l r, rows, rep =>
    evalArithmetic op (evalHavingValue l rows rep) (evalHavingValue r rows rep)
  | e, _, rep => evalExpression e rep

def evalHavingBool : Expression → List Tuple → Tuple → Bool
  | .logical .And l r, rows, rep => evalHavingBool l rows rep && evalHavingBool r rows rep
  | .logical .Or l r, rows, rep => evalHavingBool l rows rep || evalHavingBool r rows rep
  | .not operand, rows, rep => !evalHavingBool operand rows rep
  | .binary op l r, rows, rep =>
    match compareValues (evalHavingValue l rows rep) (evalHavingValue r rows rep) with
    | none => false
    | some cmp => compares op cmp
  | e, rows, rep => evalHavingValue e rows rep == .bool true

/-! ## Literals for aggregate calls -/

section

variable (rows : List Tuple)

mutual

/-- The expression with each aggregate call replaced by what it gives for the group. -/
def replaceAggregates : Expression → Expression
  | .literal v => .literal v
  | .column col => .column col
  | .binary op l r => .binary op (replaceAggregates l) (replaceAggregates r)
  | .logical op l r => .logical op (replaceAggregates l) (replaceAggregates r)
  | .arithmetic op l r => .arithmetic op (replaceAggregates l) (replaceAggregates r)
  | .not operand => .not (replaceAggregates operand)
  | .isNull operand negated => .isNull (replaceAggregates operand) negated
  | .inList v items negated => .inList (replaceAggregates v) (replaceAll items) negated
  | .inSubquery v results negated => .inSubquery (replaceAggregates v) results negated
  | .between v lo hi negated =>
    .between (replaceAggregates v) (replaceAggregates lo) (replaceAggregates hi) negated
  | .like v pattern negated => .like (replaceAggregates v) (replaceAggregates pattern) negated
  | .call name args => .call name (replaceAll args)
  | .cast arg target => .cast (replaceAggregates arg) target
  | .case branches none => .case (replaceBranches branches) none
  | .case branches (some e) => .case (replaceBranches branches) (some (replaceAggregates e))
  | .aggregate name star distinct argument =>
    .literal (computeAggregate { name, star, distinct, argument } rows)
  | .subquery kind results => .subquery kind results

def replaceAll : List Expression → List Expression
  | [] => []
  | e :: es => replaceAggregates e :: replaceAll es

def replaceBranches : List (Expression × Expression) → List (Expression × Expression)
  | [] => []
  | (cond, value) :: branches =>
    (replaceAggregates cond, replaceAggregates value) :: replaceBranches branches

end

/-- The aggregate calls that the value itself is or that only arithmetic is above of. -/
def replaceVisible : Expression → Expression
  | .aggregate name star distinct argument =>
    .literal (computeAggregate { name, star, distinct, argument } rows)
  | .arithmetic op l r => .arithmetic op (replaceVisible l) (replaceVisible r)
  | e => e

/-- The expression with the aggregate calls replaced that the evaluator of the clause computes
when it comes to a comparison or to what is no connective. -/
def replaceComputed : Expression → Expression
  | .binary op l r => .binary op (replaceVisible rows l) (replaceVisible rows r)
  | e => replaceVisible rows e

end

/-! ## Agreement -/

/-- The expression and what AND, OR and NOT combine in it. Each of them is a boolean
expression that can be a HAVING clause by itself. -/
def conditions : Expression → List Expression
  | .logical op l r => .logical op l r :: (conditions l ++ conditions r)
  | .not operand => .not operand :: conditions operand
  | e => [e]

/-- The clause holds of the group exactly if it is true with its aggregate calls replaced. -/
def Agrees (rows : List Tuple) (rep : Tuple) (e : Expression) : Prop :=
  evalHavingBool e rows rep = predicateTrue (evalExpression (replaceAggregates rows e)) rep

/-- Nothing unknown is negated, and reading the aggregate calls that are not computed as null
makes no comparison true or false that is not. -/
def Plain (rows : List Tuple) (rep : Tuple) : Expression → Prop
  | .logical .. => True
  | .not operand => (evalExpression (replaceAggregates rows operand) rep).asBool ≠ none
  | e =>
    predicateTrue (evalExpression (replaceComputed rows e)) rep =
      predicateTrue (evalExpression (replaceAggregates rows e)) rep

section

variable {rows : List Tuple} {rep : Tuple}

theorem evalHavingValue_eq (e : Expression) :
    evalHavingValue e rows rep = evalExpression (replaceVisible rows e) rep := by
  induction e using replaceVisible.induct with
  | case1 name star distinct argument => rw [evalHavingValue, replaceVisible, evalExpression]
  | case2 op l r ihl ihr => rw [evalHavingValue, replaceVisible, evalExpression, ihl, ihr]
  | case3 e haggregate harithmetic =>
    cases e with
    | aggregate name star distinct argument => exact absurd rfl (haggregate _ _ _ _)
    | arithmetic op l r => exact absurd rfl (harithmetic _ _ _)
    | _ => simp only [evalHavingValue, replaceVisible]

theorem mem_conditions (e : Expression) : e ∈ conditions e := by
  cases e <;> simp [conditions]

/-! ## What AND, OR and NOT combine -/

theorem evalHavingBool_binary (op : ComparisonOp) (l r : Expression) :
    evalHavingBool (.binary op l r) rows rep =
      predicateTrue (evalExpression (replaceComputed rows (.binary op l r))) rep := by
  rw [evalHavingBool, evalHavingValue_eq, evalHavingValue_eq, predicateTrue, replaceComputed,
    evalExpression, evalBinary]
  cases compareValues (evalExpression (replaceVisible rows l) rep)
      (evalExpression (replaceVisible rows r) rep) with
  | none => rfl
  | some cmp =>
    dsimp only
    cases compares op cmp <;> rfl

/-- What is no connective is evaluated with the calls that are computed replaced. -/
theorem agrees_iff_plain {e : Expression} (hlogical : ∀ op l r, e ≠ .logical op l r)
    (hnot : ∀ operand, e ≠ .not operand) : Agrees rows rep e ↔ Plain rows rep e := by
  have heval : evalHavingBool e rows rep =
      predicateTrue (evalExpression (replaceComputed rows e)) rep := by
    cases e with
    | logical op l r => exact absurd rfl (hlogical op l r)
    | not operand => exact absurd rfl (hnot operand)
    | binary op l r => exact evalHavingBool_binary op l r
    | _ => simp only [evalHavingBool, evalHavingValue_eq, predicateTrue, replaceComputed]
  cases e with
  | logical op l r => exact absurd rfl (hlogical op l r)
  | not operand => exact absurd rfl (hnot operand)
  | _ => simp only [Agrees, Plain, heval]

theorem asBool_beq (v : Value) : (v == .bool true) = (v.asBool == some true) := by
  cases v with
  | bool b => cases b <;> rfl
  | _ => rfl

theorem evalLogical_and (a b : Option Bool) :
    (evalLogical .And a b == .bool true) = (a == some true && b == some true) := by
  rcases a with _ | _ | _ <;> rcases b with _ | _ | _ <;> rfl

theorem evalLogical_or (a b : Option Bool) :
    (evalLogical .Or a b == .bool true) = (a == some true || b == some true) := by
  rcases a with _ | _ | _ <;> rcases b with _ | _ | _ <;> rfl

theorem Agrees.logical {l r : Expression} (hl : Agrees rows rep l) (hr : Agrees rows rep r)
    (op : LogicalOp) : Agrees rows rep (.logical op l r) := by
  unfold Agrees predicateTrue at *
  rw [asBool_beq] at hl hr
  cases op with
  | And => rw [evalHavingBool, hl, hr, replaceAggregates, evalExpression, evalLogical_and]
  | Or => rw [evalHavingBool, hl, hr, replaceAggregates, evalExpression, evalLogical_or]

/-- The negation of an operand that is evaluated rightly is so too unless the operand is
unknown. -/
theorem Agrees.not_iff {operand : Expression} (h : Agrees rows rep operand) :
    Agrees rows rep (.not operand) ↔ Plain rows rep (.not operand) := by
  unfold Agrees at *
  rw [Plain, evalHavingBool, h, replaceAggregates, predicateTrue, predicateTrue, evalExpression]
  cases evalExpression (replaceAggregates rows operand) rep with
  | bool b => cases b <;> simp [evalNot, Value.asBool]
  | _ => simp [evalNot, Value.asBool]

/-- A clause and all that AND, OR and NOT combine in it are evaluated as other predicates are
exactly if nothing unknown is negated and no comparison hinges on a call that is not computed. -/
theorem agrees_conditions_iff (e : Expression) (rows : List Tuple) (rep : Tuple) :
    (∀ x ∈ conditions e, Agrees rows rep x) ↔ ∀ x ∈ conditions e, Plain rows rep x := by
  induction e using conditions.induct with
  | case1 op l r ihl ihr =>
    rw [conditions, List.forall_mem_cons, List.forall_mem_cons, List.forall_mem_append,
      List.forall_mem_append, ← ihl, ← ihr]
    refine and_congr_left fun ⟨hl, hr⟩ => iff_of_true ?_ trivial
    exact (hl l (mem_conditions l)).logical (hr r (mem_conditions r)) op
  | case2 operand ih =>
    rw [conditions, List.forall_mem_cons, List.forall_mem_cons, ← ih]
    exact and_congr_left fun h => (h operand (mem_conditions operand)).not_iff
  | case3 e hlogical hnot =>
    have hself : conditions e = [e] := by
      cases e with
      | logical op l r => exact absurd rfl (hlogical op l r)
      | not operand => exact absurd rfl (hnot operand)
      | _ => rfl
    simp only [hself, List.mem_singleton, forall_eq]
    exact agrees_iff_plain hlogical hnot

end

/-- The clause NOT (SUM(a) > 0). -/
def notPositive : Expression :=
  .not (.binary .Gt (.aggregate "SUM" false false (some { column := "a" })) (.literal (.int 0)))

/-- A group whose only value is null passes the clause, although its sum is null. -/
theorem not_agrees_notPositive : ∃ e,
    SemanticAnalyzer.visit { currentTable := some numbers } notPositive = .ok (e, some .Bool) ∧
      ¬Agrees [[.null]] [.null] e := by
  refine ⟨_, rfl, ?_⟩
  unfold Agrees
  decide +kernel

/-! ## Clauses that are evaluated rightly -/

mutual

def aggregateFree : Expression → Bool
  | .literal _ | .column _ | .subquery .. => true
  | .aggregate .. => false
  | .binary _ l r | .logical _ l r | .arithmetic _ l r => aggregateFree l && aggregateFree r
  | .not operand | .isNull operand _ => aggregateFree operand
  | .inList v items _ => aggregateFree v && allAggregateFree items
  | .inSubquery v _ _ => aggregateFree v
  | .between v lo hi _ => aggregateFree v && aggregateFree lo && aggregateFree hi
  | .like v pattern _ => aggregateFree v && aggregateFree pattern
  | .call _ args => allAggregateFree args
  | .cast arg _ => aggregateFree arg
  | .case branches none => branchesAggregateFree branches
  | .case branches (some e) => branchesAggregateFree branches && aggregateFree e

def allAggregateFree : List Expression → Bool
  | [] => true
  | e :: es => aggregateFree e && allAggregateFree es

def branchesAggregateFree : List (Expression × Expression) → Bool
  | [] => true
  | (cond, value) :: branches =>
    aggregateFree cond && aggregateFree value && branchesAggregateFree branches

end

/-- All aggregate calls of a value are among those that `evalHavingValue` computes. -/
def visible : Expression → Bool
  | .aggregate .. => true
  | .arithmetic _ l r => visible l && visible r
  | e => aggregateFree e

/-- All aggregate calls of what is no connective are computed. -/
def computed : Expression → Bool
  | .binary _ l r => visible l && visible r
  | e => visible e

section

variable {rows : List Tuple} {rep : Tuple}

mutual

theorem replaceAggregates_of_free :
    ∀ e : Expression, aggregateFree e = true → replaceAggregates rows e = e
  | .literal _, _ | .column _, _ | .subquery .., _ => by simp only [replaceAggregates]
  | .binary _ l r, h | .logical _ l r, h | .arithmetic _ l r, h => by
    simp only [aggregateFree, Bool.and_eq_true] at h
    rw [replaceAggregates, replaceAggregates_of_free l h.1, replaceAggregates_of_free r h.2]
  | .not operand, h | .isNull operand _, h => by
    simp only [aggregateFree] at h
    rw [replaceAggregates, replaceAggregates_of_free operand h]
  | .inList v items _, h => by
    simp only [aggregateFree, Bool.and_eq_true] at h
    rw [replaceAggregates, replaceAggregates_of_free v h.1, replaceAll_of_free items h.2]
  | .inSubquery v _ _, h => by
    simp only [aggregateFree] at h
    rw [replaceAggregates, replaceAggregates_of_free v h]
  | .between v lo hi _, h => by
    simp only [aggregateFree, Bool.and_eq_true] at h
    rw [replaceAggregates, replaceAggregates_of_free v h.1.1, replaceAggregates_of_free lo h.1.2,
      replaceAggregates_of_free hi h.2]
  | .like v pattern _, h => by
    simp only [aggregateFree, Bool.and_eq_true] at h
    rw [replaceAggregates, replaceAggregates_of_free v h.1, replaceAggregates_of_free pattern h.2]
  | .call _ args, h => by
    simp only [aggregateFree] at h
    rw [replaceAggregates, replaceAll_of_free args h]
  | .cast arg _, h => by
    simp only [aggregateFree] at h
    rw [replaceAggregates, replaceAggregates_of_free arg h]
  | .case branches none, h => by
    simp only [aggregateFree] at h
    rw [replaceAggregates, replaceBranches_of_free branches h]
  | .case branches (some e), h => by
    simp only [aggregateFree, Bool.and_eq_true] at h
    rw [replaceAggregates, replaceBranches_of_free branches h.1, replaceAggregates_of_free e h.2]

theorem replaceAll_of_free :
    ∀ es : List Expression, allAggregateFree es = true → replaceAll rows es = es
  | [], _ => by rw [replaceAll]
  | e :: es, h => by
    simp only [allAggregateFree, Bool.and_eq_true] at h
    rw [replaceAll, replaceAggregates_of_free e h.1, replaceAll_of_free es h.2]

theorem replaceBranches_of_free :
    ∀ branches : List (Expression × Expression), branchesAggregateFree branches = true →
      replaceBranches rows branches = branches
  | [], _ => by rw [replaceBranches]
  | (cond, value) :: branches, h => by
    simp only [branchesAggregateFree, Bool.and_eq_true] at h
    rw [replaceBranches, replaceAggregates_of_free cond h.1.1,
      replaceAggregates_of_free value h.1.2, replaceBranches_of_free branches h.2]

end

theorem replaceVisible_eq {e : Expression} (h : visible e = true) :
    replaceVisible rows e = replaceAggregates rows e := by
  induction e using replaceVisible.induct with
  | case1 name star distinct argument => rw [replaceVisible, replaceAggregates]
  | case2 op l r ihl ihr =>
    simp only [visible, Bool.and_eq_true] at h
    rw [replaceVisible, replaceAggregates, ihl h.1, ihr h.2]
  | case3 e haggregate harithmetic =>
    have hfree : aggregateFree e = true := by
      cases e with
      | aggregate name star distinct argument => exact absurd rfl (haggregate _ _ _ _)
      | arithmetic op l r => exact absurd rfl (harithmetic _ _ _)
      | _ => simpa only [visible] using h
    rw [replaceAggregates_of_free e hfree]
    cases e with
    | aggregate name star distinct argument => exact absurd rfl (haggregate _ _ _ _)
    | arithmetic op l r => exact absurd rfl (harithmetic _ _ _)
    | _ => simp only [replaceVisible]

theorem replaceComputed_eq (rows : List Tuple) {e : Expression} (h : computed e = true) :
    replaceComputed rows e = replaceAggregates rows e := by
  cases e with
  | binary op l r =>
    simp only [computed, Bool.and_eq_true] at h
    rw [replaceComputed, replaceAggregates, replaceVisible_eq h.1, replaceVisible_eq h.2]
  | _ =>
    simp only [computed] at h
    rw [replaceComputed, replaceVisible_eq h]
    simp

/-- A clause without NOT that has its aggregate calls as operands of comparisons or under
arithmetic there is evaluated as other predicates are. -/
theorem agrees_of_computed {e : Expression}
    (h : ∀ x ∈ conditions e, (∀ operand, x ≠ .not operand) ∧
      ((∀ op l r, x ≠ .logical op l r) → computed x = true)) : Agrees rows rep e := by
  induction e using conditions.induct with
  | case1 op l r ihl ihr =>
    rw [conditions, List.forall_mem_cons, List.forall_mem_append] at h
    exact (ihl h.2.1).logical (ihr h.2.2) op
  | case2 operand ih => exact absurd rfl ((h _ (mem_conditions _)).1 operand)
  | case3 e hlogical hnot =>
    have hreplace := replaceComputed_eq rows ((h e (mem_conditions e)).2 hlogical)
    refine (agrees_iff_plain hlogical hnot).mpr ?_
    cases e with
    | logical op l r => exact absurd rfl (hlogical op l r)
    | not operand => exact absurd rfl (hnot operand)
    | _ => simp only [Plain, hreplace]

end

end Relite.Vm.Having
