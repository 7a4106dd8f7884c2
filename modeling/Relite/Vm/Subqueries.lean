import Relite.Vm.Views

/-!
# Materializing subqueries

A subquery that does not refer to the row at hand is run before the statement looks at any
row, and the evaluator reads what its node keeps. The walk that runs them does not go through
every kind of expression that the evaluator goes through, and not every expression that a
statement evaluates is walked.
-/
namespace Relite.Vm.Subqueries
open Lib Relite.Parser
open Semantic hiding Expression

/-! ## Expressions with subqueries -/

/-- An expression as it is parsed: a subquery goes by the number of its node. -/
inductive QueryExpression
  | literal (value : Value)
  | column (col : ColumnRef)
  | binary (op : ComparisonOp) (left right : QueryExpression)
  | logical (op : LogicalOp) (left right : QueryExpression)
  | arithmetic (op : ArithmeticOp) (left right : QueryExpression)
  | not (operand : QueryExpression)
  | isNull (operand : QueryExpression) (negated : Bool)
  | inList (value : QueryExpression) (items : List QueryExpression) (negated : Bool)
  | inSubquery (value : QueryExpression) (sub : NodeId) (negated : Bool)
  | between (value lo hi : QueryExpression) (negated : Bool)
  | like (value pattern : QueryExpression) (negated : Bool)
  | call (name : String) (args : List QueryExpression)
  | cast (arg : QueryExpression) (target : DataType)
  | case (branches : List (QueryExpression × QueryExpression)) (elseExpr : Option QueryExpression)
  | aggregate (name : String) (star distinct : Bool) (argument : Option ColumnRef)
  | subquery (kind : SubqueryKind) (sub : NodeId)

namespace QueryExpression

mutual

/-- What the evaluator sees of the expression when the nodes keep `answers`. -/
def fill (answers : Answers) : QueryExpression → Expression
  | .literal v => .literal v
  | .column col => .column col
  | .binary op l r => .binary op (l.fill answers) (r.fill answers)
  | .logical op l r => .logical op (l.fill answers) (r.fill answers)
  | .arithmetic op l r => .arithmetic op (l.fill answers) (r.fill answers)
  | .not operand => .not (operand.fill answers)
  | .isNull operand negated => .isNull (operand.fill answers) negated
  | .inList v items negated => .inList (v.fill answers) (fillAll answers items) negated
  | .inSubquery v sub negated => .inSubquery (v.fill answers) (answers sub) negated
  | .between v lo hi negated =>
    .between (v.fill answers) (lo.fill answers) (hi.fill answers) negated
  | .like v pattern negated => .like (v.fill answers) (pattern.fill answers) negated
  | .call name args => .call name (fillAll answers args)
  | .cast arg target => .cast (arg.fill answers) target
  | .case branches none => .case (fillBranches answers branches) none
  | .case branches (some e) => .case (fillBranches answers branches) (some (e.fill answers))
  | .aggregate name star distinct argument => .aggregate name star distinct argument
  | .subquery kind sub => .subquery kind (answers sub)

def fillAll (answers : Answers) : List QueryExpression → List Expression
  | [] => []
  | e :: es => e.fill answers :: fillAll answers es

def fillBranches (answers : Answers) :
    List (QueryExpression × QueryExpression) → List (Expression × Expression)
  | [] => []
  | (cond, value) :: branches =>
    (cond.fill answers, value.fill answers) :: fillBranches answers branches

end

/-- The classes of expressions that have parts. -/
inductive Composite
  | BinaryExpr
  | LogicalExpr
  | ArithmeticExpr
  | UnaryExpr
  | IsNullExpr
  | InExpr
  | BetweenExpr
  | LikeExpr
  | CallExpr
  | CaseExpr
  deriving DecidableEq

mutual

/-- The nodes of subqueries that a walk comes to, in its order, when it goes into the parts of
the classes in `through`. -/
def reached (through : Composite → Bool) : QueryExpression → List NodeId
  | .literal _ | .column _ | .aggregate .. => []
  | .binary _ l r =>
    if through .BinaryExpr then l.reached through ++ r.reached through else []
  | .logical _ l r =>
    if through .LogicalExpr then l.reached through ++ r.reached through else []
  | .arithmetic _ l r =>
    if through .ArithmeticExpr then l.reached through ++ r.reached through else []
  | .not operand => if through .UnaryExpr then operand.reached through else []
  | .isNull operand _ => if through .IsNullExpr then operand.reached through else []
  | .inList v items _ =>
    if through .InExpr then v.reached through ++ reachedAll through items else []
  | .inSubquery v sub _ => if through .InExpr then v.reached through ++ [sub] else []
  | .between v lo hi _ =>
    if through .BetweenExpr then v.reached through ++ lo.reached through ++ hi.reached through
    else []
  | .like v pattern _ =>
    if through .LikeExpr then v.reached through ++ pattern.reached through else []
  | .call _ args => if through .CallExpr then reachedAll through args else []
  | .cast arg _ => if through .CallExpr then arg.reached through else []
  | .case branches none => if through .CaseExpr then reachedBranches through branches else []
  | .case branches (some e) =>
    if through .CaseExpr then reachedBranches through branches ++ e.reached through else []
  | .subquery _ sub => [sub]

def reachedAll (through : Composite → Bool) : List QueryExpression → List NodeId
  | [] => []
  | e :: es => e.reached through ++ reachedAll through es

def reachedBranches (through : Composite → Bool) :
    List (QueryExpression × QueryExpression) → List NodeId
  | [] => []
  | (cond, value) :: branches =>
    cond.reached through ++ value.reached through ++ reachedBranches through branches

end

/-- The subqueries that the evaluator may read. -/
def subqueries (e : QueryExpression) : List NodeId := e.reached fun _ => true

theorem gated_subset {b : Bool} {l l' : List NodeId} (h : l ⊆ l') :
    (if b then l else []) ⊆ l' := by
  cases b with
  | true => exact h
  | false => exact List.nil_subset _

theorem append_subset_append {l₁ l₂ l₁' l₂' : List NodeId} (h₁ : l₁ ⊆ l₁') (h₂ : l₂ ⊆ l₂') :
    l₁ ++ l₂ ⊆ l₁' ++ l₂' :=
  List.append_subset.mpr ⟨List.Subset.trans h₁ (List.subset_append_left ..),
    List.Subset.trans h₂ (List.subset_append_right ..)⟩

mutual

/-- No walk comes to a subquery that the evaluator does not read. -/
theorem reached_subset (through : Composite → Bool) :
    ∀ e : QueryExpression, e.reached through ⊆ e.subqueries
  | .literal _ | .column _ | .aggregate .. => List.nil_subset _
  | .binary _ l r | .logical _ l r | .arithmetic _ l r =>
    gated_subset (append_subset_append (reached_subset through l) (reached_subset through r))
  | .not operand => gated_subset (reached_subset through operand)
  | .isNull operand _ => gated_subset (reached_subset through operand)
  | .inList v items _ =>
    gated_subset (append_subset_append (reached_subset through v) (reachedAll_subset through items))
  | .inSubquery v _ _ =>
    gated_subset (append_subset_append (reached_subset through v) (List.Subset.refl _))
  | .between v lo hi _ =>
    gated_subset (append_subset_append
      (append_subset_append (reached_subset through v) (reached_subset through lo))
      (reached_subset through hi))
  | .like v pattern _ =>
    gated_subset (append_subset_append (reached_subset through v) (reached_subset through pattern))
  | .call _ args => gated_subset (reachedAll_subset through args)
  | .cast arg _ => gated_subset (reached_subset through arg)
  | .case branches none => gated_subset (reachedBranches_subset through branches)
  | .case branches (some e) =>
    gated_subset (append_subset_append (reachedBranches_subset through branches)
      (reached_subset through e))
  | .subquery _ _ => List.Subset.refl _

theorem reachedAll_subset (through : Composite → Bool) :
    ∀ es : List QueryExpression, reachedAll through es ⊆ reachedAll (fun _ => true) es
  | [] => List.nil_subset _
  | e :: es => append_subset_append (reached_subset through e) (reachedAll_subset through es)

theorem reachedBranches_subset (through : Composite → Bool) :
    ∀ branches : List (QueryExpression × QueryExpression),
      reachedBranches through branches ⊆ reachedBranches (fun _ => true) branches
  | [] => List.nil_subset _
  | (cond, value) :: branches =>
    append_subset_append
      (append_subset_append (reached_subset through cond) (reached_subset through value))
      (reachedBranches_subset through branches)

end

/-! ## The rewriter -/

/-- The expression without regard to its subqueries. -/
def skeleton (e : QueryExpression) : Expression := e.fill fun _ => []

def pick (kept : KeptOperand) (l r both : QueryExpression) : QueryExpression :=
  match kept with
  | .both => both
  | .left => l
  | .right => r
  | .constant b => .literal (.bool b)

def foldOr (e rewritten : QueryExpression) : QueryExpression :=
  if isFoldable e.skeleton then .literal (evalExpression e.skeleton []) else rewritten

/-- `rewriteExpression`; it does not look into subqueries. -/
def rewrite : QueryExpression → QueryExpression
  | .arithmetic op l r =>
    foldOr (.arithmetic op l r)
      (pick (keptArithmetic op l.rewrite.skeleton r.rewrite.skeleton) l.rewrite r.rewrite
        (.arithmetic op l.rewrite r.rewrite))
  | .logical op l r =>
    foldOr (.logical op l r)
      (pick (keptLogical op l.rewrite.skeleton r.rewrite.skeleton) l.rewrite r.rewrite
        (.logical op l.rewrite r.rewrite))
  | .binary op l r => foldOr (.binary op l r) (.binary op l.rewrite r.rewrite)
  | .not operand => foldOr (.not operand) (.not operand.rewrite)
  | e => foldOr e e

theorem isFoldable_fill (answers : Answers) :
    ∀ e : QueryExpression, isFoldable (e.fill answers) = isFoldable e.skeleton
  | .arithmetic _ l r | .binary _ l r | .logical _ l r => by
    simp only [skeleton, fill, isFoldable, isFoldable_fill answers l, isFoldable_fill answers r]
  | .not operand => by simp only [skeleton, fill, isFoldable, isFoldable_fill answers operand]
  | .case _ none | .case _ (some _) => by simp only [skeleton, fill, isFoldable]
  | .literal _ | .column _ | .isNull .. | .inList .. | .inSubquery .. | .between .. | .like ..
  | .call .. | .cast .. | .aggregate .. | .subquery .. => by
    simp only [skeleton, fill, isFoldable]

/-- There are no subqueries in a foldable expression. -/
theorem fill_of_foldable (answers : Answers) :
    ∀ e : QueryExpression, isFoldable e.skeleton = true → e.fill answers = e.skeleton
  | .literal _, _ => rfl
  | .arithmetic _ l r, h | .binary _ l r, h | .logical _ l r, h => by
    simp only [skeleton, fill, isFoldable, Bool.and_eq_true] at h ⊢
    rw [fill_of_foldable answers l h.1, fill_of_foldable answers r h.2, skeleton, skeleton]
  | .not operand, h => by
    simp only [skeleton, fill, isFoldable] at h ⊢
    rw [fill_of_foldable answers operand h, skeleton]
  | .case _ none, h | .case _ (some _), h => by simp [skeleton, fill, isFoldable] at h
  | .column _, h | .isNull .., h | .inList .., h | .inSubquery .., h | .between .., h
  | .like .., h | .call .., h | .cast .., h | .aggregate .., h | .subquery .., h => by
    simp [skeleton, fill, isFoldable] at h

theorem fill_foldOr (answers : Answers) (e rewritten : QueryExpression) :
    (foldOr e rewritten).fill answers =
      Vm.foldOr (e.fill answers) (rewritten.fill answers) := by
  unfold foldOr Vm.foldOr
  rw [isFoldable_fill]
  split
  · rename_i h
    rw [fill, fill_of_foldable answers e h]
  · rfl

theorem isNumericLiteral_fill (answers : Answers) (e : QueryExpression) (want : Int64) :
    isNumericLiteral (e.fill answers) want = isNumericLiteral e.skeleton want := by
  cases e with
  | case branches elseExpr => cases elseExpr <;> rfl
  | _ => rfl

theorem isBoolLiteral_fill (answers : Answers) (e : QueryExpression) (want : Bool) :
    isBoolLiteral (e.fill answers) want = isBoolLiteral e.skeleton want := by
  cases e with
  | case branches elseExpr => cases elseExpr <;> rfl
  | _ => rfl

theorem fill_pick (answers : Answers) (kept : KeptOperand) (l r both : QueryExpression) :
    (pick kept l r both).fill answers =
      kept.pick (l.fill answers) (r.fill answers) (both.fill answers) := by
  cases kept <;> rfl

/-- The rewriter does the same whatever the subqueries have yielded. -/
theorem fill_rewrite (answers : Answers) (e : QueryExpression) :
    e.rewrite.fill answers = rewriteExpression (e.fill answers) := by
  induction e using rewrite.induct with
  | case1 op l r ihl ihr =>
    rw [rewrite, fill_foldOr, fill_pick, fill, fill, ihl, ihr, rewriteExpression]
    congr 2
    rw [← ihl, ← ihr]
    simp only [keptArithmetic, isNumericLiteral_fill]
  | case2 op l r ihl ihr =>
    rw [rewrite, fill_foldOr, fill_pick, fill, fill, ihl, ihr, rewriteExpression]
    congr 2
    rw [← ihl, ← ihr]
    simp only [keptLogical, isBoolLiteral_fill]
  | case3 op l r ihl ihr => rw [rewrite, fill_foldOr, fill, fill, ihl, ihr, rewriteExpression]
  | case4 operand ih => rw [rewrite, fill_foldOr, fill, fill, ih, rewriteExpression]
  | case5 e h₁ h₂ h₃ h₄ =>
    cases e with
    | arithmetic op l r => exact absurd rfl (h₁ op l r)
    | logical op l r => exact absurd rfl (h₂ op l r)
    | binary op l r => exact absurd rfl (h₃ op l r)
    | not operand => exact absurd rfl (h₄ operand)
    | case branches elseExpr =>
      cases elseExpr <;> simp only [rewrite, fill_foldOr, fill, rewriteExpression]
    | _ => simp only [rewrite, fill_foldOr, fill, rewriteExpression]

end QueryExpression

open QueryExpression

/-! ## The walks -/

/-- The node of a subquery. -/
structure SubqueryNode where
  correlated : Bool
  evaluated : Bool := false
  results : Results := []

abbrev Nodes := NodeId → SubqueryNode

def firstColumn (rows : List Tuple) : Results := rows.map fun row => row.headD .null

section

-- what a subquery yields for a row of the enclosing query
variable (run : NodeId → Tuple → List Tuple)

def materializeSubquery (i : NodeId) (outerRow : Tuple) (nodes : Nodes) : Nodes :=
  if (nodes i).evaluated then nodes
  else
    Function.update nodes i
      { nodes i with evaluated := true, results := firstColumn (run i outerRow) }

/-- The classes that `materializeSubqueries` goes into. -/
def materializes : Composite → Bool
  | .ArithmeticExpr | .CallExpr | .CaseExpr => false
  | _ => true

/-- What the walk does with the node of a subquery. -/
def materializeStep (nodes : Nodes) (i : NodeId) : Nodes :=
  if (nodes i).correlated then nodes else materializeSubquery run i [] nodes

def materializeSubqueries (e : QueryExpression) (nodes : Nodes) : Nodes :=
  (e.reached materializes).foldl (materializeStep run) nodes

/-- `hasCorrelatedSubquery` goes into every class. -/
def hasCorrelatedSubquery (e : QueryExpression) (nodes : Nodes) : Bool :=
  (e.reached fun _ => true).any fun i => (nodes i).correlated

def bindSubquery (i : NodeId) (outerRow : Tuple) (nodes : Nodes) : Nodes :=
  materializeSubquery run i outerRow
    (Function.update nodes i { nodes i with evaluated := false })

/-- `bindCorrelated` goes into every class. -/
def bindCorrelated (outerRow : Tuple) (e : QueryExpression) (nodes : Nodes) : Nodes :=
  (e.reached fun _ => true).foldl (fun nodes i =>
    if (nodes i).correlated then bindSubquery run i outerRow nodes else nodes) nodes

end

/-! ## The statements -/

/-- The expressions of a FETCH; `columns` are the computed ones of its list. -/
structure Fetch where
  where_ : Option QueryExpression := none
  having : Option QueryExpression := none
  joinOn : Option QueryExpression := none
  extraOns : List (Option QueryExpression) := []
  columns : List (Option QueryExpression) := []

def optimizeSelect (node : Fetch) : Fetch :=
  { node with
    where_ := node.where_.map rewrite
    having := node.having.map rewrite
    columns := node.columns.map fun col => col.map rewrite }

/-- The expressions of a MODIFY. A node has one place in the tree. -/
structure Modify where
  where_ : Option QueryExpression := none
  values : List QueryExpression
  place : ∀ e ∈ values, ∀ i ∈ e.subqueries, ∀ w ∈ where_, i ∉ w.subqueries

inductive Statement
  | fetch (node : Fetch)
  | modify (node : Modify)
  | remove (where_ : Option QueryExpression)

namespace Statement

/-- The expressions that the statement gives to `materializeSubqueries`, in this order. -/
def walked : Statement → List QueryExpression
  | fetch node =>
    let node := optimizeSelect node
    (node.where_ :: node.having :: node.joinOn :: node.extraOns).reduceOption
  | modify node => node.where_.toList
  | remove where_ => where_.toList

/-- The expressions that it evaluates after it has changed `changed` rows. -/
def evaluated : Statement → Nat → List QueryExpression
  | fetch node, 0 => (fetch node).walked ++ (optimizeSelect node).columns.reduceOption
  | fetch _, _ + 1 => []
  | modify node, 0 => node.where_.toList ++ node.values
  | modify node, _ + 1 => node.values
  | remove where_, 0 => where_.toList
  | remove _, _ + 1 => []

/-- The nodes as the analyzer leaves them. -/
def parsed (correlated : NodeId → Bool) : Nodes := fun i => { correlated := correlated i }

/-- The nodes once the statement has materialized its subqueries. -/
def materialize (s : Statement) (run : NodeId → Tuple → List Tuple) (nodes : Nodes) : Nodes :=
  s.walked.foldl (fun nodes e => materializeSubqueries run e nodes) nodes

/-- Whatever correlated subqueries are bound to rows on the way, the node of every uncorrelated
subquery of an expression keeps what its query yields when the expression is evaluated;
`run changed` is what queries yield after that many rows have changed. -/
def Materialized (s : Statement) (correlated : NodeId → Bool)
    (run : Nat → NodeId → Tuple → List Tuple) : Prop :=
  ∀ (changed : Nat) (bindings : List (Tuple × QueryExpression)),
    let nodes := bindings.foldl (fun nodes b => bindCorrelated (run changed) b.1 b.2 nodes)
      (s.materialize (run 0) (parsed correlated))
    ∀ e ∈ s.evaluated changed, ∀ i ∈ e.subqueries, correlated i = false →
      (nodes i).results = firstColumn (run changed i [])

/-- The subqueries on the way to which there is no arithmetic, no function call or CAST and no
CASE, in WHEN, HAVING and ON. -/
def inReach (s : Statement) : List NodeId := s.walked.flatMap (reached materializes)

end Statement

/-! ## What the walks do -/

section Walks

variable {run : NodeId → Tuple → List Tuple}

theorem materialize_eq_foldl (s : Statement) (nodes : Nodes) :
    s.materialize run nodes = s.inReach.foldl (materializeStep run) nodes :=
  (List.foldl_flatMap ..).symm

theorem materializeStep_self {nodes : Nodes} {i : NodeId} (hi : (nodes i).correlated = false)
    (heval : (nodes i).evaluated = true → (nodes i).results = firstColumn (run i [])) :
    materializeStep run nodes i i = ⟨false, true, firstColumn (run i [])⟩ := by
  rw [materializeStep, hi, if_neg (by simp), materializeSubquery]
  split
  · rename_i h
    rw [← hi, ← h, ← heval h]
  · simp only [Function.update_self, hi]

theorem correlated_materializeStep (nodes : Nodes) (i j : NodeId) :
    (materializeStep run nodes j i).correlated = (nodes i).correlated := by
  rw [materializeStep, materializeSubquery]
  split
  · rfl
  · split
    · rfl
    · by_cases hij : i = j
      · subst hij
        simp only [Function.update_self]
      · rw [Function.update_of_ne hij]

theorem correlated_foldl (l : List NodeId) (nodes : Nodes) (i : NodeId) :
    (l.foldl (materializeStep run) nodes i).correlated = (nodes i).correlated := by
  induction l generalizing nodes with
  | nil => rfl
  | cons j l ih => rw [List.foldl_cons, ih, correlated_materializeStep]

theorem materializeStep_of_ne {nodes : Nodes} {i j : NodeId} (hij : i ≠ j) :
    materializeStep run nodes j i = nodes i := by
  rw [materializeStep, materializeSubquery]
  split
  · rfl
  · split
    · rfl
    · rw [Function.update_of_ne hij]

/-- The walk runs each uncorrelated subquery that it comes to, once. -/
theorem results_foldl (l : List NodeId) {nodes : Nodes} {i : NodeId}
    (hi : (nodes i).correlated = false)
    (heval : (nodes i).evaluated = true → (nodes i).results = firstColumn (run i [])) :
    (l.foldl (materializeStep run) nodes i).results =
      if i ∈ l then firstColumn (run i []) else (nodes i).results := by
  induction l generalizing nodes with
  | nil => rfl
  | cons j l ih =>
    rw [List.foldl_cons]
    by_cases hij : i = j
    · subst hij
      have hself := materializeStep_self hi heval
      rw [ih (by rw [hself]) (fun _ => by rw [hself]), hself, if_pos List.mem_cons_self]
      exact ite_self _
    · have hne : materializeStep run nodes j i = nodes i := materializeStep_of_ne hij
      rw [ih (by rw [hne]; exact hi) (by rw [hne]; exact heval), hne]
      simp only [List.mem_cons, hij, false_or]

/-- Binding correlated subqueries leaves the others alone. -/
theorem bindCorrelated_of_uncorrelated (outerRow : Tuple) (e : QueryExpression) {nodes : Nodes}
    {i : NodeId} (hi : (nodes i).correlated = false) :
    bindCorrelated run outerRow e nodes i = nodes i := by
  have hfold : ∀ l : List NodeId, l.foldl (fun nodes i =>
      if (nodes i).correlated then bindSubquery run i outerRow nodes else nodes) nodes i =
        nodes i := by
    intro l
    induction l generalizing nodes with
    | nil => rfl
    | cons j l ih =>
      have hstep : (if (nodes j).correlated then bindSubquery run j outerRow nodes else nodes) i =
          nodes i := by
        split
        · rename_i hj
          have hij : i ≠ j := by
            rintro rfl
            simp [hi] at hj
          rw [bindSubquery, materializeSubquery]
          simp [hij]
        · rfl
      rw [List.foldl_cons, ih (by rw [hstep]; exact hi), hstep]
  exact hfold _

theorem foldl_bindCorrelated (bindings : List (Tuple × QueryExpression)) {nodes : Nodes}
    {i : NodeId} (hi : (nodes i).correlated = false) :
    bindings.foldl (fun nodes b => bindCorrelated run b.1 b.2 nodes) nodes i = nodes i := by
  induction bindings generalizing nodes with
  | nil => rfl
  | cons b bindings ih =>
    have hstep : bindCorrelated run b.1 b.2 nodes i = nodes i :=
      bindCorrelated_of_uncorrelated b.1 b.2 hi
    rw [List.foldl_cons, ih (by rw [hstep]; exact hi), hstep]

/-- `hasCorrelatedSubquery` and `bindCorrelated` go wherever the evaluator goes. -/
theorem hasCorrelatedSubquery_iff (e : QueryExpression) (nodes : Nodes) :
    hasCorrelatedSubquery e nodes ↔ ∃ i ∈ e.subqueries, (nodes i).correlated := by
  simp [hasCorrelatedSubquery, subqueries]

end Walks

namespace Statement

theorem results_materialize (s : Statement) (correlated : NodeId → Bool)
    (run : NodeId → Tuple → List Tuple) {i : NodeId} (hi : correlated i = false) :
    (s.materialize run (parsed correlated) i).results =
      if i ∈ s.inReach then firstColumn (run i []) else [] := by
  rw [materialize_eq_foldl, results_foldl _ hi (fun h => by cases h)]
  rfl

theorem correlated_materialize (s : Statement) (correlated : NodeId → Bool)
    (run : NodeId → Tuple → List Tuple) (i : NodeId) :
    (s.materialize run (parsed correlated) i).correlated = correlated i := by
  rw [materialize_eq_foldl, correlated_foldl]
  rfl

/-- What the node of an uncorrelated subquery keeps, whatever rows correlated ones are bound
to. -/
theorem results_bindings (s : Statement) (correlated : NodeId → Bool)
    (run : Nat → NodeId → Tuple → List Tuple) (changed : Nat)
    (bindings : List (Tuple × QueryExpression)) {i : NodeId} (hi : correlated i = false) :
    (bindings.foldl (fun nodes b => bindCorrelated (run changed) b.1 b.2 nodes)
      (s.materialize (run 0) (parsed correlated)) i).results =
      if i ∈ s.inReach then firstColumn (run 0 i []) else [] := by
  rw [foldl_bindCorrelated bindings (by rw [correlated_materialize, hi]),
    results_materialize s correlated (run 0) hi]

/-- The SET values are evaluated against changed tables, but nothing in them is walked. -/
theorem changed_eq_zero_of_inReach {s : Statement} {changed : Nat} {e : QueryExpression}
    {i : NodeId} (he : e ∈ s.evaluated changed) (hi : i ∈ e.subqueries) (hreach : i ∈ s.inReach) :
    changed = 0 := by
  cases changed with
  | zero => rfl
  | succ changed =>
    cases s with
    | fetch node => simp [evaluated] at he
    | remove where_ => simp [evaluated] at he
    | modify node =>
      obtain ⟨w, hw, hiw⟩ := List.mem_flatMap.mp hreach
      have hwhere : w ∈ node.where_ := by simpa [walked] using hw
      exact absurd (reached_subset _ w hiw) (node.place e he i hi w hwhere)

theorem firstColumn_eq_nil {rows : List Tuple} : firstColumn rows = [] ↔ rows = [] :=
  List.map_eq_nil_iff

/-- The uncorrelated subqueries are materialized exactly if each of them is in the reach of the
walk or yields nothing. -/
theorem materialized_iff (s : Statement) (correlated : NodeId → Bool)
    (run : Nat → NodeId → Tuple → List Tuple) :
    s.Materialized correlated run ↔
      ∀ (changed : Nat), ∀ e ∈ s.evaluated changed, ∀ i ∈ e.subqueries, correlated i = false →
        i ∈ s.inReach ∨ run changed i [] = [] := by
  constructor
  · intro h changed e he i hi hcorr
    have hres := h changed [] e he i hi hcorr
    rw [results_bindings s correlated run changed [] hcorr] at hres
    by_cases hreach : i ∈ s.inReach
    · exact .inl hreach
    · rw [if_neg hreach] at hres
      exact .inr (firstColumn_eq_nil.mp hres.symm)
  · intro h changed bindings
    dsimp only
    intro e he i hi hcorr
    rw [results_bindings s correlated run changed bindings hcorr]
    split
    · rename_i hreach
      rw [changed_eq_zero_of_inReach he hi hreach]
    · rename_i hreach
      rw [(h changed e he i hi hcorr).resolve_left hreach]
      rfl

/-- The WHEN clause `a + (FETCH …) = 3`. -/
def whenSum : QueryExpression :=
  .binary .Eq (.arithmetic .Add (.column { column := "a" }) (.subquery .Scalar 0))
    (.literal (.int 3))

/-- FETCH a FROM t WHEN a + (FETCH …) = 3 is accepted, and its subquery, which yields 2, is never
run. -/
theorem not_materialized_sum : (∃ e,
    SemanticAnalyzer.visit { currentTable := some numbers } whenSum.skeleton =
      .ok (e, some .Bool)) ∧
    ¬(Statement.fetch { where_ := some whenSum }).Materialized (fun _ => false)
      (fun _ _ _ => [[.int 2]]) := by
  refine ⟨⟨_, rfl⟩, fun h => ?_⟩
  have hmem : whenSum ∈ (Statement.fetch { where_ := some whenSum }).evaluated 0 :=
    List.mem_singleton.mpr rfl
  have hnone := h 0 [] whenSum hmem 0 (by decide +kernel) rfl
  exact absurd hnone (by decide +kernel)

end Statement

end Relite.Vm.Subqueries
