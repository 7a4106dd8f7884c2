import Relite.Vm.AccessPath
import Relite.Vm.Aggregate

/-!
# Aggregates in batches

`runVectorizedAggregate` decodes the rows of a scan into column-major batches and pushes each
through a filter into an aggregator. However the rows are cut into batches, the result is
the fold over the rows that pass.
-/
namespace Relite.Vm
open Lib Relite.Parser
open Semantic hiding Expression

/-- `VecPredicate::Term`: a column compared with a literal. -/
structure Term where
  column : Int
  op : ComparisonOp
  literal : Value

/-- The terms, all of which must pass. -/
abbrev VecPredicate := List Term

def buildVecPredicate : Expression → Option VecPredicate
  | .logical .And l r => do
    let left ← buildVecPredicate l
    let right ← buildVecPredicate r
    return left ++ right
  | .binary op l r =>
    match columnComparison op l r with
    | none => none
    | some (col, op, v) =>
      if col.outerRef ∨ col.columnIndex < 0 then none
      else some [{ column := col.columnIndex, op := op, literal := v }]
  | _ => none

def termPasses (term : Term) (v : Value) : Bool :=
  match compareValues v term.literal with
  | none => false
  | some cmp => compares term.op cmp

/-- The row passes every term. -/
def passes (predicate : VecPredicate) (row : Tuple) : Bool :=
  predicate.all fun term => termPasses term (valueAt row term.column)

/-! ## Batches -/

structure Batch where
  columns : List (List Value)
  selection : List Nat := []

namespace Batch

def empty (ncols : Nat) : Batch := { columns := List.replicate ncols [] }

def push (batch : Batch) (tuple : Tuple) (filled : Nat) : Batch where
  columns := batch.columns.mapIdx fun c col => col ++ [tuple.getD c .null]
  selection := batch.selection ++ [filled]

def value (batch : Batch) (column : Int) (r : Nat) : Value :=
  (batch.columns.getD column.toNat []).getD r .null

end Batch

/-- `VectorFilter::consume`. -/
def filterBatch (predicate : VecPredicate) (batch : Batch) : Batch where
  columns := batch.columns
  selection := batch.selection.filter fun r =>
    predicate.all fun term => termPasses term (batch.value term.column r)

/-- A batch as it reaches the aggregator, through the filter if there is a predicate. -/
def selected (predicate : Option VecPredicate) (batch : Batch) : Batch :=
  match predicate with
  | none => batch
  | some predicate => filterBatch predicate batch

/-- `VectorAggregator::consume`, for one aggregate. -/
def consume (batch : Batch) (agg : VecAggregate) (acc : Acc) : Acc :=
  if agg.kind = .CountStar then
    { acc with count := acc.count + Int64.ofNat batch.selection.length }
  else batch.selection.foldl (fun acc r => acc.accumulate agg.kind (batch.value agg.column r)) acc

/-- The scan into batches of `batchSize` rows, and a last one of what is left. -/
def scanIntoSink {σ : Type} (ncols batchSize : Nat) (sink : σ → Batch → σ) :
    List Tuple → Batch → Nat → σ → σ
  | [], batch, filled, s => if 0 < filled then sink s batch else s
  | tuple :: tuples, batch, filled, s =>
    let batch := batch.push tuple filled
    if filled + 1 = batchSize then
      scanIntoSink ncols batchSize sink tuples (Batch.empty ncols) 0 (sink s batch)
    else scanIntoSink ncols batchSize sink tuples batch (filled + 1) s

def runVectorizedAggregate (tuples : List Tuple) (schema : Schema)
    (predicate : Option VecPredicate) (aggregates : List VecAggregate) (batchSize : Nat := 1024) :
    List Value :=
  let sink (accs : List Acc) (batch : Batch) : List Acc :=
    List.zipWith (consume (selected predicate batch)) aggregates accs
  let accs := scanIntoSink schema.length batchSize sink tuples (Batch.empty schema.length) 0
    (aggregates.map fun _ => {})
  List.zipWith (fun agg acc => acc.finalize agg.kind) aggregates accs

/-! ## A batch holds its rows -/

/-- The batch of some rows. -/
def Batch.ofRows (ncols : Nat) (rows : List Tuple) : Batch where
  columns := (List.range ncols).map fun c => rows.map fun row => row.getD c .null
  selection := List.range rows.length

theorem Batch.ofRows_nil (ncols : Nat) : Batch.ofRows ncols [] = Batch.empty ncols := by
  simp [Batch.ofRows, Batch.empty, List.map_const']

theorem Batch.push_ofRows (ncols : Nat) (rows : List Tuple) (row : Tuple) :
    (Batch.ofRows ncols rows).push row rows.length = Batch.ofRows ncols (rows ++ [row]) := by
  simp only [Batch.push, Batch.ofRows, List.length_append, List.length_singleton,
    List.range_succ, List.map_append, List.map_cons, List.map_nil, Batch.mk.injEq, and_true]
  refine List.ext_getElem (by simp) fun i h₁ h₂ => ?_
  simp

theorem Batch.value_ofRows {ncols : Nat} {rows : List Tuple}
    (hrows : ∀ row ∈ rows, row.length = ncols) {column : Int} (hcol : 0 ≤ column) {r : Nat} (hr : r < rows.length) :
    (Batch.ofRows ncols rows).value column r = valueAt rows[r] column := by
  have hlen := hrows rows[r] (List.getElem_mem hr)
  rw [valueAt, if_neg (by omega), Batch.value, Batch.ofRows]
  by_cases hlt : column.toNat < ncols
  · simp [List.getD_eq_getElem?_getD, hlt, hr]
  · simp [List.getD_eq_getElem?_getD, hlt, hlen]

/-- Folding over the selected positions of some rows is folding over the selected rows. -/
theorem foldl_selection {α σ : Type} {rows : List α} {p : Nat → Bool} {q : α → Bool}
    {f : σ → Nat → σ} {g : σ → α → σ} (hp : ∀ r x, rows[r]? = some x → p r = q x)
    (hf : ∀ s r x, rows[r]? = some x → f s r = g s x) (s : σ) :
    ((List.range rows.length).filter p).foldl f s = (rows.filter q).foldl g s := by
  induction rows using List.reverseRecOn generalizing s with
  | nil => rfl
  | append_singleton rows x ih =>
    have hfront : ∀ {r y}, rows[r]? = some y → (rows ++ [x])[r]? = some y := fun {r y} h => by
      obtain ⟨hlt, -⟩ := List.getElem?_eq_some_iff.mp h
      rwa [List.getElem?_append_left hlt]
    have hlast : (rows ++ [x])[rows.length]? = some x := by simp
    have hrows := ih (fun r y h => hp r y (hfront h)) (fun s r y h => hf s r y (hfront h)) s
    rw [List.length_append, List.length_singleton, List.range_succ, List.filter_append,
      List.filter_append, List.foldl_append, List.foldl_append, hrows, List.filter_singleton,
      List.filter_singleton, hp _ _ hlast]
    cases q x with
    | false => rfl
    | true => exact hf _ _ _ hlast

/-! ## The batches do not matter -/

/-- What one aggregate accumulates over the rows that pass. -/
def accumulated (accept : Tuple → Bool) (agg : VecAggregate) (acc : Acc) (rows : List Tuple) : Acc :=
  (rows.filter accept).foldl (fun acc row => acc.accumulate agg.kind (valueAt row agg.column)) acc

section Run

variable {ncols : Nat} {agg : VecAggregate} (hagg : agg.kind ≠ .CountStar → 0 ≤ agg.column)
include hagg

theorem consume_ofRows {rows : List Tuple} (hrows : ∀ row ∈ rows, row.length = ncols)
    {p : Nat → Bool} {q : Tuple → Bool} (hp : ∀ r x, rows[r]? = some x → p r = q x) (acc : Acc) :
    consume { columns := (Batch.ofRows ncols rows).columns
              selection := (List.range rows.length).filter p } agg acc =
      accumulated q agg acc rows := by
  have hselect : ∀ {σ : Type} {f : σ → Nat → σ} {g : σ → Tuple → σ},
      (∀ s r x, rows[r]? = some x → f s r = g s x) → ∀ s,
      ((List.range rows.length).filter p).foldl f s = (rows.filter q).foldl g s :=
    fun hf s => foldl_selection hp hf s
  rw [consume, accumulated]
  split
  · rename_i hkind
    have hlen : ((List.range rows.length).filter p).length = (rows.filter q).length := by
      have hcount := hselect (f := fun (n : Nat) _ => n + 1) (g := fun n _ => n + 1)
        (fun _ _ _ _ => rfl) 0
      simpa using hcount
    simp only [hkind, foldl_countStar, hlen]
  · rename_i hkind
    refine hselect (fun acc r x hx => ?_) acc
    obtain ⟨hr, rfl⟩ := List.getElem?_eq_some_iff.mp hx
    exact congrArg (acc.accumulate agg.kind) (Batch.value_ofRows hrows (hagg hkind) hr)

end Run

/-- A sink that folds batches of rows into a summary of the rows ends with that of all rows. -/
theorem scanIntoSink_eq {σ : Type} {ncols batchSize : Nat} {sink : σ → Batch → σ}
    {summary : List Tuple → σ} {tuples : List Tuple}
    (hsink : ∀ done rows, (∀ row ∈ rows, row ∈ tuples) →
      sink (summary done) (Batch.ofRows ncols rows) = summary (done ++ rows))
    {rest pending done : List Tuple} (hpending : ∀ row ∈ pending ++ rest, row ∈ tuples) :
    scanIntoSink ncols batchSize sink rest (Batch.ofRows ncols pending) pending.length
      (summary done) = summary (done ++ (pending ++ rest)) := by
  induction rest generalizing pending done with
  | nil =>
    rw [scanIntoSink, List.append_nil]
    split
    · exact hsink done pending fun row hrow => hpending row (by simpa using hrow)
    · rename_i hlen
      have hnil : pending = [] := List.length_eq_zero_iff.mp (by omega)
      rw [hnil, List.append_nil]
  | cons tuple rest ih =>
    have hnext : ∀ row ∈ (pending ++ [tuple]) ++ rest, row ∈ tuples := fun row hrow =>
      hpending row (by simpa using hrow)
    rw [scanIntoSink, Batch.push_ofRows]
    split
    · rw [hsink done _ fun row hrow => hnext row (List.mem_append_left rest hrow),
        ← Batch.ofRows_nil, ← List.length_nil, ih fun row hrow =>
          hnext row (List.mem_append_right _ (by simpa using hrow))]
      simp
    · have hlen : pending.length + 1 = (pending ++ [tuple]).length := by simp
      rw [hlen, ih hnext]
      simp

/-- Batches of any size give the fold over the rows that pass. -/
theorem runVectorizedAggregate_eq {tuples : List Tuple} {schema : Schema}
    (hrows : ∀ row ∈ tuples, row.length = schema.length) {predicate : Option VecPredicate}
    (hpred : ∀ terms ∈ predicate, ∀ term ∈ terms, 0 ≤ term.column)
    {aggregates : List VecAggregate}
    (haggs : ∀ agg ∈ aggregates, agg.kind ≠ .CountStar → 0 ≤ agg.column) (batchSize : Nat) :
    runVectorizedAggregate tuples schema predicate aggregates batchSize =
      aggregates.map fun agg =>
        foldAggregate agg (tuples.filter fun row => predicate.all fun terms => passes terms row) := by
  let accept : Tuple → Bool := fun row => predicate.all fun terms => passes terms row
  let summary : List Tuple → List Acc := fun done =>
    aggregates.map fun agg => accumulated accept agg {} done
  have hself : ∀ {α β γ : Type} (f : α → β → γ) (g : α → β) (l : List α),
      List.zipWith f l (l.map g) = l.map fun a => f a (g a) := fun f g l => by
    rw [List.zipWith_map_right, List.zipWith_self]
  let sink : List Acc → Batch → List Acc := fun accs batch =>
    List.zipWith (consume (selected predicate batch)) aggregates accs
  have hsink : ∀ done rows, (∀ row ∈ rows, row ∈ tuples) →
      sink (summary done) (Batch.ofRows schema.length rows) = summary (done ++ rows) := by
    intro done rows hmem
    have hlen : ∀ row ∈ rows, row.length = schema.length := fun row hrow => hrows row (hmem row hrow)
    refine (hself _ _ _).trans (List.map_congr_left fun agg hagg => ?_)
    have happend : accumulated accept agg {} (done ++ rows) =
        accumulated accept agg (accumulated accept agg {} done) rows := by
      simp [accumulated]
    rw [happend]
    cases predicate with
    | none =>
      have hall := consume_ofRows (haggs agg hagg) hlen (p := fun _ => true) (q := accept)
        (fun _ _ _ => rfl) (accumulated accept agg {} done)
      simpa [Batch.ofRows, selected] using hall
    | some terms =>
      refine consume_ofRows (haggs agg hagg) hlen (q := accept) (fun r x hx => ?_) _
      obtain ⟨hr, rfl⟩ := List.getElem?_eq_some_iff.mp hx
      rw [Bool.eq_iff_iff, List.all_eq_true]
      simp only [accept, Option.all_some, passes, List.all_eq_true]
      refine forall₂_congr fun term hterm => ?_
      rw [Batch.value_ofRows hlen (hpred terms rfl term hterm) hr]
  have hscan : scanIntoSink schema.length batchSize sink tuples (Batch.ofRows schema.length []) 0
      (summary []) = summary tuples :=
    scanIntoSink_eq hsink fun row hrow => hrow
  have hinit : (aggregates.map fun _ => ({} : Acc)) = summary [] := rfl
  rw [runVectorizedAggregate, hinit, ← Batch.ofRows_nil]
  change List.zipWith (fun agg acc => Acc.finalize agg.kind acc) aggregates
    (scanIntoSink schema.length batchSize sink tuples (Batch.ofRows schema.length []) 0
      (summary [])) = _
  rw [hscan]
  exact hself (fun agg acc => Acc.finalize agg.kind acc) _ aggregates

/-! ## The predicate is the WHEN clause -/

theorem predicateTrue_and (l r : Expression) (row : Tuple) :
    predicateTrue (evalExpression (.logical .And l r)) row =
      (predicateTrue (evalExpression l) row && predicateTrue (evalExpression r) row) := by
  rw [predicateTrue, evalExpression, evalLogical, predicateTrue, predicateTrue]
  have hasBool : ∀ v : Value, (v == .bool true) = (v.asBool == some true) := fun v => by
    cases v with
    | bool b => cases b <;> rfl
    | _ => rfl
  rw [hasBool (evalExpression l row), hasBool (evalExpression r row)]
  cases (evalExpression l row).asBool with
  | none => cases (evalExpression r row).asBool with
    | none => rfl
    | some y => cases y <;> rfl
  | some x => cases (evalExpression r row).asBool with
    | none => cases x <;> rfl
    | some y => cases x <;> cases y <;> rfl

theorem predicateTrue_binary (op : ComparisonOp) (l r : Expression) (row : Tuple) :
    predicateTrue (evalExpression (.binary op l r)) row =
      (compareValues (evalExpression l row) (evalExpression r row)).any (compares op) := by
  rw [predicateTrue, evalExpression, evalBinary]
  cases compareValues (evalExpression l row) (evalExpression r row) with
  | none => rfl
  | some cmp =>
    cases h : compares op cmp <;> simp [h]

theorem termPasses_eq (term : Term) (v : Value) :
    termPasses term v = (compareValues v term.literal).any (compares term.op) := by
  rw [termPasses]
  cases compareValues v term.literal <;> rfl

theorem buildVecPredicate_eq {e : Expression} {terms : VecPredicate}
    (h : buildVecPredicate e = some terms) :
    (∀ term ∈ terms, 0 ≤ term.column) ∧
      ∀ row, predicateTrue (evalExpression e) row = passes terms row := by
  fun_induction buildVecPredicate e generalizing terms with
  | case1 l r ihl ihr =>
    obtain ⟨left, hl, h⟩ := Option.bind_eq_some_iff.mp h
    obtain ⟨right, hr, h⟩ := Option.bind_eq_some_iff.mp h
    cases h
    obtain ⟨hlcol, hl⟩ := ihl hl
    obtain ⟨hrcol, hr⟩ := ihr hr
    refine ⟨fun term hterm => (List.mem_append.mp hterm).elim (hlcol term) (hrcol term),
      fun row => ?_⟩
    rw [predicateTrue_and, hl, hr, passes, passes, passes, List.all_append]
  | case2 op l r hcol => cases h
  | case3 op l r col op' v hcol hbad => cases h
  | case4 op l r col op' v hcol hbad =>
    cases h
    rw [not_or, Bool.not_eq_true, not_lt] at hbad
    have heval : ∀ row, evalExpression (.column col) row = valueAt row col.columnIndex := fun row => by
      rw [evalExpression, evalColumn, hbad.1, if_neg (by simp), if_pos hbad.2, valueAt,
        if_neg (by omega)]
    refine ⟨by simpa using hbad.2, fun row => ?_⟩
    simp only [passes, List.all_cons, List.all_nil, Bool.and_true, termPasses_eq]
    rw [predicateTrue_binary]
    unfold columnComparison at hcol
    split at hcol <;> cases hcol
    · rw [heval, evalExpression]
    · rw [heval, evalExpression, compareValues_swap _ v, Option.any_map]
      congr 1
      funext cmp
      rw [← compares_flipOp op cmp.swap, Ordering.swap_swap]
  | case5 => cases h

end Relite.Vm
