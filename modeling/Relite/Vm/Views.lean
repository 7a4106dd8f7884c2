import Relite.Frontend.Connect
import Relite.Vm.Rewrite

/-!
# Views

A view is kept as the syntax tree of its query, and every read of the view runs on that
tree. The node of a subquery keeps what the subquery has yielded; one that is not correlated
is not run again as long as its node keeps something.
-/
namespace Relite.Vm
open Lib Relite.Parser
open Semantic hiding Expression

/-! ## The tree -/

/-- A SELECT in the tree. The node of a subquery goes by the number of its SELECT. -/
abbrev NodeId := Nat

/-- What subqueries have yielded. -/
abbrev Answers := NodeId → Results

/-- A SELECT with its WHEN clause, its HAVING clause and computed columns (`others`), and the
subqueries that `materializeSubqueries` and `bindCorrelated` reach in them. What it makes of
the rows of its sources and of those that the clause selects is a function of these parts. -/
structure SelectStatement where
  sources : List TableId
  asOf : Option Nat := none
  where_ : Answers → Expression := fun _ => .literal (.bool true)
  others : Answers → List Expression := fun _ => []
  subqueries : List NodeId := []
  bound : List NodeId := []
  projected : List NodeId := []
  link : Tuple → Answers → List (List Tuple) → List Tuple := fun _ _ inputs => inputs.flatten
  order : List Tuple → List Tuple := id
  project : Tuple → List Expression → Tuple → Tuple := fun _ _ row => row
  finish : Tuple → List Expression → List Tuple → List Tuple := fun _ _ rows => rows

/-- The SELECTs are numbered as they are parsed, a subquery before the one that holds it. -/
def Ordered : List SelectStatement → Prop
  | [] => True
  | node :: rest => (∀ i ∈ node.subqueries, i < rest.length) ∧ Ordered rest

instance Ordered.decidable : (l : List SelectStatement) → Decidable (Ordered l)
  | [] => isTrue trivial
  | node :: rest =>
    have := Ordered.decidable rest
    inferInstanceAs (Decidable ((∀ i ∈ node.subqueries, i < rest.length) ∧ Ordered rest))

/-- The SELECTs of the views as they are parsed and analysed, the last one first. -/
structure QueryText where
  nodes : List SelectStatement
  correlated : NodeId → Bool
  views : TableId → Option NodeId
  ordered : Ordered nodes

def node? : List SelectStatement → NodeId → Option SelectStatement
  | [], _ => none
  | node :: rest, i => if i = rest.length then some node else node? rest i

/-- The parts of the tree that running it changes. -/
structure QueryTree where
  where_ : NodeId → Answers → Expression
  others : NodeId → Answers → List Expression
  evaluated : NodeId → Option Results

/-- The tree that the parser gives. -/
def QueryText.parsed (text : QueryText) : QueryTree where
  where_ i := ((node? text.nodes i).map SelectStatement.where_).getD fun _ => .literal .null
  others i := ((node? text.nodes i).map SelectStatement.others).getD fun _ => []
  evaluated _ := none

/-! ## Running a SELECT -/

inductive TreeCall
  | optimize (i : NodeId)
  | reset (i : NodeId)
  | keep (i : NodeId) (results : Results)

def TreeCall.apply (tree : QueryTree) : TreeCall → QueryTree × Unit
  | optimize i =>
    ({ tree with
        where_ := Function.update tree.where_ i fun answers =>
          rewriteExpression (tree.where_ i answers)
        others := Function.update tree.others i fun answers =>
          (tree.others i answers).map rewriteExpression }, ())
  | reset i => ({ tree with evaluated := Function.update tree.evaluated i none }, ())
  | keep i results =>
    ({ tree with evaluated := Function.update tree.evaluated i (some results) }, ())

/-- What reads the database and works on the tree. -/
abbrev Reading (α : Type) := Prog QueryTree TreeCall Unit String α

namespace Reading

variable {α : Type}

def run (x : Reading α) (tree : QueryTree) : Except String α × QueryTree :=
  Prog.run (fun c tree => c.apply tree) x tree

def ofExcept : Except String α → Reading α
  | .ok a => Prog.ret a
  | .error message => Prog.throw message

section

variable (db : Db) (text : QueryText) (select : NodeId → Tuple → Reading (List Tuple))

def keepResults (i : NodeId) (rows : List Tuple) : Reading Results := do
  let results := rows.map fun row => row.headD .null
  Prog.perform (.keep i results)
  return results

/-- What the node of the subquery keeps afterwards. -/
def materializeSubquery (i : NodeId) (outerRow : Tuple) : Reading Results := do
  match (← Prog.get).evaluated i with
  | some results => return results
  | none => keepResults i (← select i outerRow)

def materializeSubqueries (subqueries : List NodeId) : Reading Answers :=
  subqueries.foldlM (fun answers i => do
    if text.correlated i then return answers
    else return Function.update answers i (← materializeSubquery select i [])) fun _ => []

def bindSubquery (i : NodeId) (outerRow : Tuple) : Reading Results := do
  Prog.perform (.reset i)
  materializeSubquery select i outerRow

def bindCorrelated (subqueries : List NodeId) (outerRow : Tuple) (answers : Answers) :
    Reading Answers :=
  subqueries.foldlM (fun answers i => do
    if text.correlated i then return Function.update answers i (← bindSubquery select i outerRow)
    else return answers) answers

/-- The rows of a table or of a view, outside a transaction. -/
def sourceRows (asOf : Option Nat) (tableId : TableId) : Reading (List Tuple) :=
  let schema := db.catalog.loadSchema tableId
  match asOf with
  | some version =>
    ofExcept ((db.versions.snapshotAsOf tableId version).mapM fun bytes =>
      Tuple.deserialize bytes schema)
  | none =>
    match text.views tableId with
    | some v => select v []
    | none =>
      ofExcept ((db.tables.tuples tableId).mapM fun row => Tuple.deserialize row.2 schema)

/-- The parts of a SELECT as `optimizeSelect` has left them. -/
structure Parts where
  accepts : Answers → Tuple → Bool
  project : Answers → Tuple → Tuple
  finish : Answers → List Tuple → List Tuple

def partsOf (node : SelectStatement) (outerRow : Tuple) (where_ : Answers → Expression)
    (others : Answers → List Expression) : Parts where
  accepts answers row :=
    predicateTrue (evalExpression (bindOuter outerRow (where_ answers))) row
  project answers := node.project outerRow (others answers)
  finish answers := node.finish outerRow (others answers)

/-- `visit(SelectStatement)` after the call of `optimizeSelect`. -/
def selectRows (node : SelectStatement) (outerRow : Tuple) (parts : Parts) :
    Reading (List Tuple) := do
  let answers ← materializeSubqueries text select node.subqueries
  let inputs ← node.sources.foldlM (fun inputs t => do
    return inputs ++ [← sourceRows db text select node.asOf t]) []
  let rows ← (node.link outerRow answers inputs).foldlM (fun rows row => do
    let answers ← bindCorrelated text select node.bound row answers
    return if parts.accepts answers row then rows ++ [row] else rows) []
  let projected ← (node.order rows).foldlM (fun projected row => do
    let answers ← bindCorrelated text select node.projected row answers
    return projected ++ [parts.project answers row]) []
  return parts.finish answers projected

def visitSelect (node : SelectStatement) (i : NodeId) (outerRow : Tuple) :
    Reading (List Tuple) := do
  Prog.perform (.optimize i)
  let tree ← Prog.get
  selectRows db text select node outerRow
    (partsOf node outerRow (tree.where_ i) (tree.others i))

end

/-- The SELECT with the number `i`. -/
def query (db : Db) (text : QueryText) : List SelectStatement → NodeId → Tuple →
    Reading (List Tuple)
  | [], _, _ => Prog.throw "no such query"
  | node :: rest, i, outerRow =>
    if i = rest.length then visitSelect db text (query db text rest) node i outerRow
    else query db text rest i outerRow

end Reading

/-- What a view answers on the tree at hand, and the tree afterwards. -/
def QueryText.read (text : QueryText) (db : Db) (tree : QueryTree) (v : NodeId) :
    Except String (List Tuple) × QueryTree := (Reading.query db text text.nodes v []).run tree

/-- What its text answers, freshly parsed. -/
def QueryText.answer (text : QueryText) (db : Db) (v : NodeId) : Except String (List Tuple) :=
  (text.read db text.parsed v).1

/-! ## Numbers of SELECTs -/

theorem node?_length (node : SelectStatement) (rest : List SelectStatement) :
    node? (node :: rest) rest.length = some node := if_pos rfl

theorem node?_append (pre l : List SelectStatement) {i : NodeId} (hi : i < l.length) :
    node? (pre ++ l) i = node? l i := by
  induction pre with
  | nil => rfl
  | cons node pre ih =>
    have hne : i ≠ (pre ++ l).length := by
      rw [List.length_append]
      exact (Nat.lt_add_left _ hi).ne
    rw [List.cons_append, node?, if_neg hne, ih]

theorem Ordered.append {pre l : List SelectStatement} (h : Ordered (pre ++ l)) : Ordered l := by
  induction pre with
  | nil => exact h
  | cons node pre ih => exact ih h.2

theorem query_append (db : Db) (text : QueryText) (pre l : List SelectStatement) {i : NodeId}
    (hi : i < l.length) (outerRow : Tuple) :
    Reading.query db text (pre ++ l) i outerRow = Reading.query db text l i outerRow := by
  induction pre with
  | nil => rfl
  | cons node pre ih =>
    have hne : i ≠ (pre ++ l).length := by
      rw [List.length_append]
      exact (Nat.lt_add_left _ hi).ne
    rw [List.cons_append, Reading.query, if_neg hne, ih]

/-! ## What the tree keeps -/

/-- The clauses of a SELECT after `k` runs. -/
def rewritten (k : Nat) (e : Expression) : Expression := rewriteExpression^[k] e

/-- Rewriting clauses that have been rewritten before changes nothing that shows. -/
structure SelectStatement.Stable (node : SelectStatement) : Prop where
  accepts : ∀ k outerRow answers row,
    predicateTrue
        (evalExpression (bindOuter outerRow (rewritten (k + 1) (node.where_ answers)))) row =
      predicateTrue (evalExpression (bindOuter outerRow (rewritten 1 (node.where_ answers)))) row
  project : ∀ k outerRow answers,
    node.project outerRow ((node.others answers).map (rewritten (k + 1))) =
      node.project outerRow ((node.others answers).map (rewritten 1))
  finish : ∀ k outerRow answers,
    node.finish outerRow ((node.others answers).map (rewritten (k + 1))) =
      node.finish outerRow ((node.others answers).map (rewritten 1))

def QueryText.Stable (text : QueryText) : Prop := ∀ node ∈ text.nodes, node.Stable

/-- The first column of the rows that a subquery answers. -/
def resultsOf (answer : Except String (List Tuple)) : Except String Results :=
  answer.map fun rows => rows.map fun row => row.headD .null

/-- The tree is that of the text after some reads, and its uncorrelated subqueries have yielded
what they would yield now. -/
structure UpToDate (db : Db) (text : QueryText) (tree : QueryTree) : Prop where
  parts : ∀ i, ∃ k,
    (∀ answers, tree.where_ i answers = rewritten k (text.parsed.where_ i answers)) ∧
    ∀ answers, tree.others i answers = (text.parsed.others i answers).map (rewritten k)
  evaluated : ∀ i results, text.correlated i = false → tree.evaluated i = some results →
    resultsOf (text.answer db i) = .ok results

theorem upToDate_parsed (db : Db) (text : QueryText) : UpToDate db text text.parsed where
  parts i := ⟨0, fun _ => rfl, fun _ => (List.map_id _).symm⟩
  evaluated i results _ h := by cases h

variable {db : Db} {text : QueryText} {tree : QueryTree}

theorem UpToDate.optimize (h : UpToDate db text tree) (i : NodeId) :
    UpToDate db text ((TreeCall.optimize i).apply tree).1 where
  parts j := by
    obtain ⟨k, hwhere, hothers⟩ := h.parts j
    by_cases hji : j = i
    · subst hji
      refine ⟨k + 1, fun answers => ?_, fun answers => ?_⟩
      · simp [TreeCall.apply, hwhere, rewritten, Function.iterate_succ_apply']
      · simp [TreeCall.apply, hothers, rewritten, Function.iterate_succ_apply']
    · refine ⟨k, fun answers => ?_, fun answers => ?_⟩
      · simp [TreeCall.apply, Function.update_of_ne hji, hwhere]
      · simp [TreeCall.apply, Function.update_of_ne hji, hothers]
  evaluated := h.evaluated

theorem UpToDate.reset (h : UpToDate db text tree) (i : NodeId) :
    UpToDate db text ((TreeCall.reset i).apply tree).1 where
  parts := h.parts
  evaluated j results hj hres := by
    simp only [TreeCall.apply, Function.update_apply] at hres
    split at hres
    · cases hres
    · exact h.evaluated j results hj hres

theorem UpToDate.keep (h : UpToDate db text tree) {i : NodeId} {results : Results}
    (hi : text.correlated i = false → resultsOf (text.answer db i) = .ok results) :
    UpToDate db text ((TreeCall.keep i results).apply tree).1 where
  parts := h.parts
  evaluated j results' hj hres := by
    simp only [TreeCall.apply, Function.update_apply] at hres
    split at hres
    · rename_i hji
      cases hres
      exact hji ▸ hi (hji ▸ hj)
    · exact h.evaluated j results' hj hres

/-! ## A read does not show what the tree keeps -/

namespace Reading

variable {α β : Type}

/-- The outcome is the same on every tree that keeps nothing but what holds now. -/
abbrev Determined (db : Db) (text : QueryText) (x : Reading α) : Prop :=
  Prog.Determined (fun (c : TreeCall) tree => c.apply tree) (UpToDate db text) x

abbrev Yields (db : Db) (text : QueryText) (x : Reading α) (e : Except String α) : Prop :=
  Prog.Yields (fun (c : TreeCall) tree => c.apply tree) (UpToDate db text) x e

theorem determined_ofExcept (e : Except String α) : Determined db text (ofExcept e) := by
  cases e with
  | ok a => exact .ret a
  | error message => exact .throw message

variable {select : NodeId → Tuple → Reading (List Tuple)}

theorem run_materializeSubquery (i : NodeId) (outerRow : Tuple) (tree : QueryTree) :
    (materializeSubquery select i outerRow).run tree =
      match tree.evaluated i with
      | some results => (.ok results, tree)
      | none => run (Prog.bind (select i outerRow) (keepResults i)) tree := by
  simp only [materializeSubquery, Prog.bind_eq, run, Prog.get, Prog.bind, Prog.run_read]
  split <;> rfl

/-- A subquery that is not correlated yields what it would yield now, run again or not. -/
theorem determined_materializeSubquery {i : NodeId} (hi : text.correlated i = false)
    (hselect : Yields db text (select i []) (text.answer db i)) :
    Determined db text (materializeSubquery select i []) := by
  refine ⟨resultsOf (text.answer db i), fun tree htree => ?_⟩
  cases hkept : tree.evaluated i with
  | some results =>
    rw [← run, run_materializeSubquery, hkept, htree.evaluated i results hi hkept]
    exact ⟨rfl, htree⟩
  | none =>
    obtain ⟨hout, hafter⟩ := hselect tree htree
    rw [← run, run_materializeSubquery, hkept]
    simp only [run, Prog.run_bind]
    generalize Prog.run (fun (c : TreeCall) tree => c.apply tree) (select i []) tree = out
      at hout hafter ⊢
    obtain ⟨outcome, tree'⟩ := out
    rw [← hout]
    cases outcome with
    | error message => exact ⟨rfl, hafter⟩
    | ok rows =>
      exact ⟨rfl, hafter.keep fun _ => by rw [← hout]; rfl⟩

theorem determined_bindSubquery {i : NodeId} (hi : text.correlated i = true) {outerRow : Tuple}
    (hselect : Determined db text (select i outerRow)) :
    Determined db text (bindSubquery select i outerRow) := by
  have hkeep : ∀ rows, Determined db text (keepResults i rows) := fun rows =>
    Prog.Determined.bind
      (.perform (fun _ => rfl) fun _ h => h.keep fun hi' => absurd (hi.symm.trans hi') (by decide))
      fun _ => .ret _
  obtain ⟨e, he⟩ := hselect.bind hkeep
  refine ⟨e, fun tree htree => ?_⟩
  have hrun : (bindSubquery select i outerRow).run tree =
      (materializeSubquery select i outerRow).run ((TreeCall.reset i).apply tree).1 := rfl
  have hnone : ((TreeCall.reset i).apply tree).1.evaluated i = none := Function.update_self ..
  rw [← run, hrun, run_materializeSubquery, hnone]
  exact he _ (htree.reset i)

theorem determined_materializeSubqueries {subqueries : List NodeId}
    (hselect : ∀ i ∈ subqueries, text.correlated i = false →
      Yields db text (select i []) (text.answer db i)) :
    Determined db text (materializeSubqueries text select subqueries) := by
  refine Prog.Determined.foldlM (fun answers i hi => ?_) _
  cases hc : text.correlated i with
  | true => exact .ret _
  | false => exact (determined_materializeSubquery hc (hselect i hi hc)).bind fun _ => .ret _

theorem determined_bindCorrelated (hselect : ∀ i row, Determined db text (select i row))
    (subqueries : List NodeId) (outerRow : Tuple) (answers : Answers) :
    Determined db text (bindCorrelated text select subqueries outerRow answers) := by
  refine Prog.Determined.foldlM (fun answers i hi => ?_) _
  cases hc : text.correlated i with
  | true => exact (determined_bindSubquery hc (hselect i outerRow)).bind fun _ => .ret _
  | false => exact .ret _

theorem determined_sourceRows (hselect : ∀ i row, Determined db text (select i row))
    (asOf : Option Nat) (tableId : TableId) :
    Determined db text (sourceRows db text select asOf tableId) := by
  unfold sourceRows
  simp only
  split
  · exact determined_ofExcept _
  · split
    · exact hselect _ _
    · exact determined_ofExcept _

theorem determined_selectRows (hselect : ∀ i row, Determined db text (select i row))
    {node : SelectStatement}
    (hanswer : ∀ i ∈ node.subqueries, text.correlated i = false →
      Yields db text (select i []) (text.answer db i)) (outerRow : Tuple) (parts : Parts) :
    Determined db text (selectRows db text select node outerRow parts) := by
  refine (determined_materializeSubqueries hanswer).bind fun answers => ?_
  refine Prog.Determined.bind (.foldlM (fun inputs t _ =>
    (determined_sourceRows hselect node.asOf t).bind fun _ => .ret _) _) fun inputs => ?_
  refine Prog.Determined.bind (.foldlM (fun rows row _ =>
    (determined_bindCorrelated hselect node.bound row answers).bind fun _ => .ret _) _)
    fun rows => ?_
  exact Prog.Determined.bind (.foldlM (fun projected row _ =>
    (determined_bindCorrelated hselect node.projected row answers).bind fun _ => .ret _) _)
    fun _ => .ret _

/-- The parts of a SELECT are the same after every run of it. -/
theorem partsOf_eq {node : SelectStatement} (h : node.Stable) (k : Nat) (outerRow : Tuple) :
    partsOf node outerRow (fun answers => rewritten (k + 1) (node.where_ answers))
        (fun answers => (node.others answers).map (rewritten (k + 1))) =
      partsOf node outerRow (fun answers => rewritten 1 (node.where_ answers))
        (fun answers => (node.others answers).map (rewritten 1)) := by
  simp only [partsOf, Parts.mk.injEq]
  exact ⟨funext fun answers => funext fun row => h.accepts k outerRow answers row,
    funext fun answers => h.project k outerRow answers,
    funext fun answers => h.finish k outerRow answers⟩

theorem determined_visitSelect (hselect : ∀ i row, Determined db text (select i row))
    {node : SelectStatement} (hstable : node.Stable)
    (hanswer : ∀ i ∈ node.subqueries, text.correlated i = false →
      Yields db text (select i []) (text.answer db i))
    {i : NodeId} (hi : node? text.nodes i = some node) (outerRow : Tuple) :
    Determined db text (visitSelect db text select node i outerRow) := by
  obtain ⟨e, he⟩ := determined_selectRows hselect hanswer outerRow
    (partsOf node outerRow (fun answers => rewritten 1 (node.where_ answers))
      fun answers => (node.others answers).map (rewritten 1))
  refine ⟨e, fun tree htree => ?_⟩
  obtain ⟨k, hwhere, hothers⟩ := htree.parts i
  have hparts : partsOf node outerRow (((TreeCall.optimize i).apply tree).1.where_ i)
      (((TreeCall.optimize i).apply tree).1.others i) =
      partsOf node outerRow (fun answers => rewritten (k + 1) (node.where_ answers))
        (fun answers => (node.others answers).map (rewritten (k + 1))) := by
    congr 1
    · funext answers
      simp [TreeCall.apply, hwhere, QueryText.parsed, hi, rewritten, Function.iterate_succ_apply']
    · funext answers
      simp [TreeCall.apply, hothers, QueryText.parsed, hi, rewritten, Function.iterate_succ_apply']
  have hrun : (visitSelect db text select node i outerRow).run tree =
      (selectRows db text select node outerRow
        (partsOf node outerRow (((TreeCall.optimize i).apply tree).1.where_ i)
          (((TreeCall.optimize i).apply tree).1.others i))).run
        ((TreeCall.optimize i).apply tree).1 := rfl
  rw [← run, hrun, hparts, partsOf_eq hstable]
  exact he _ (htree.optimize i)

end Reading

/-- Whatever is kept of earlier reads, as long as it holds now the SELECT yields the same. -/
theorem determined_query (hstable : text.Stable) (pre l : List SelectStatement)
    (hl : text.nodes = pre ++ l) (i : NodeId) (outerRow : Tuple) :
    Reading.Determined db text (Reading.query db text l i outerRow) := by
  induction l generalizing pre i outerRow with
  | nil => exact .throw _
  | cons node rest ih =>
    have hl' : text.nodes = (pre ++ [node]) ++ rest := by rw [hl, List.append_assoc]; rfl
    have hrest := ih (pre ++ [node]) hl'
    unfold Reading.query
    split
    · rename_i hi
      have hall : Ordered (pre ++ node :: rest) := hl ▸ text.ordered
      have hordered := hall.append
      refine Reading.determined_visitSelect hrest (hstable node (by simp [hl]))
        (fun j hj _ => ?_) ?_ outerRow
      · have hquery := query_append db text (pre ++ [node]) rest (hordered.1 j hj) []
        have hyields := (hrest j []).yields (upToDate_parsed db text)
        rw [← hquery, ← hl'] at hyields
        exact hquery ▸ hl' ▸ hyields
      · rw [hl, node?_append pre (node :: rest) (by simp [hi]), hi, node?_length]
    · exact hrest i outerRow

/-- A view that keeps nothing but what holds now is current. -/
theorem UpToDate.read (h : UpToDate db text tree) (hstable : text.Stable) (v : NodeId) :
    (text.read db tree v).1 = text.answer db v ∧ UpToDate db text (text.read db tree v).2 :=
  (determined_query hstable [] text.nodes rfl v []).yields (upToDate_parsed db text) tree h

/-! ## Runs -/

/-- A database and the tree of its views. -/
structure ViewState where
  db : Db
  tree : QueryTree

inductive ViewOp
  | read (v : NodeId)
  | exec (stmt : Frontend.ASTNode)

namespace ViewState

variable (depth : Nat) (text : QueryText)

def next (s : ViewState) : ViewOp → ViewState
  | .read v => { s with tree := (text.read s.db s.tree v).2 }
  | .exec stmt => { s with db := (stmt.run depth s.db).2 }

variable (analyze : Catalog → QueryText)

/-- Every view answers what its text, analysed now, answers. -/
def Current (s : ViewState) : Prop :=
  ∀ v, (text.read s.db s.tree v).1 = (analyze s.db.catalog).answer s.db v

/-- The statement does not change how the texts of the views are bound, nor what a subquery
yields that is not correlated and has been run by a read before. -/
def Spared (s : ViewState) : ViewOp → Prop
  | .read _ => True
  | .exec stmt =>
    analyze (stmt.run depth s.db).2.catalog = text ∧
      ∀ i, text.correlated i = false → (s.tree.evaluated i).isSome →
        text.answer (stmt.run depth s.db).2 i = text.answer s.db i

variable {depth text analyze}

theorem upToDate_next (hstable : text.Stable) {s : ViewState} {op : ViewOp}
    (h : analyze s.db.catalog = text ∧ UpToDate s.db text s.tree)
    (hspared : s.Spared depth text analyze op) :
    analyze (s.next depth text op).db.catalog = text ∧
      UpToDate (s.next depth text op).db text (s.next depth text op).tree := by
  obtain ⟨hanalyze, hkept⟩ := h
  cases op with
  | read v => exact ⟨hanalyze, (hkept.read hstable v).2⟩
  | exec stmt =>
    obtain ⟨hanalyze', hanswer⟩ := hspared
    refine ⟨hanalyze', hkept.parts, fun i results hi hres => ?_⟩
    have hsome : (s.tree.evaluated i).isSome := Option.isSome_iff_exists.mpr ⟨results, hres⟩
    change resultsOf (text.answer (stmt.run depth s.db).2 i) = _
    rw [hanswer i hi hsome]
    exact hkept.evaluated i results hi hres

/-- Two tables of one column of integers. -/
def twoTables : Db :=
  .init { tables := [numbers, { numbers with tableId := 2, name := "u" }], nodup := by decide } []

/-- BUILD VIEW v AS FETCH a FROM t WHEN a IN (FETCH a FROM u). -/
def inView : QueryText where
  nodes :=
    [{ sources := [1]
       where_ := fun answers =>
        .inSubquery (.column { column := "a", columnIndex := 0 }) (answers 0) false
       subqueries := [0] },
     { sources := [2] }]
  correlated _ := false
  views t := if t = 3 then some 1 else none
  ordered := by decide

def start : ViewState where
  db := twoTables
  tree := inView.parsed

/-- PUT INTO a table. -/
def put (t : TableId) (n : Int64) : ViewOp :=
  .exec (.change (.insert { tableId := t, rows := [[fun _ => .int n]] }))

theorem stable_inView : inView.Stable := by
  have hsame : ∀ k (results : Results), rewritten k
      (.inSubquery (.column { column := "a", columnIndex := 0 }) results false) =
      .inSubquery (.column { column := "a", columnIndex := 0 }) results false := fun k results =>
    Function.iterate_fixed rfl k
  have htrue : ∀ k, rewritten k (.literal (.bool true)) = .literal (.bool true) := fun k =>
    Function.iterate_fixed rfl k
  intro node hnode
  simp only [inView, List.mem_cons, List.not_mem_nil, or_false] at hnode
  rcases hnode with rfl | rfl
  · exact ⟨fun _ _ _ _ => by simp only [hsame], fun _ _ _ => rfl, fun _ _ _ => rfl⟩
  · exact ⟨fun _ _ _ _ => by simp only [htrue], fun _ _ _ => rfl, fun _ _ _ => rfl⟩

end ViewState

end Relite.Vm
