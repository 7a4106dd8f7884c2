import Relite.Vm.ExpressionEval
import Relite.Vm.RowIdentity

/-!
# Aggregates

`computeAggregate`, which the row engine calls on the rows of a group, and the accumulator
that the vectorized paths fold values into. Both are one fold over the values of a column.
-/
namespace Relite.Vm
open Lib Relite.Parser

structure FunctionExpr where
  name : String
  star : Bool := false
  distinct : Bool := false
  argument : Option ColumnRef := none

/-- The value of a row at a column number, null where there is no such column. -/
def valueAt (row : Tuple) (col : Int) : Value :=
  if col < 0 then .null else row.getD col.toNat .null

/-- The sum of integers and the sum of doubles, with the number of values and whether one of
them was a double. -/
structure Sums where
  isum : Int64 := 0
  dsum : Float := Float.ofBits 0
  n : Int64 := 0
  isFloat : Bool := false

def Sums.add (s : Sums) (v : Value) : Sums :=
  match v with
  | .double bits =>
    { s with isFloat := true, dsum := s.dsum + Float.ofBits bits, n := s.n + 1 }
  | v => { s with isum := s.isum + v.intValue, n := s.n + 1 }

/-- The better of the best value so far, null if none, and the next. -/
def pickBest (name : String) (best v : Value) : Value :=
  if best.isNull then v
  else
    match compareValues v best with
    | some .lt => if name = "MIN" then v else best
    | some .gt => if name = "MAX" then v else best
    | _ => best

/-- The aggregate of the values that are taken into account. -/
def aggregateValues (name : String) (vals : List Value) : Value :=
  if name = "COUNT" then .int (Int64.ofNat vals.length)
  else if name = "SUM" ∨ name = "AVG" then
    let s := vals.foldl Sums.add {}
    let total := s.dsum + ofInt64 s.isum
    if s.n = 0 then .null
    else if name = "AVG" then .ofFloat (total / ofInt64 s.n)
    else if s.isFloat then .ofFloat total
    else .int s.isum
  else vals.foldl (pickBest name) .null

/-- The values of a column that are not null. -/
def presentValues (col : Int) (rows : List Tuple) : List Value :=
  (rows.map fun r => valueAt r col).filter fun v => !v.isNull

def computeAggregate (fn : FunctionExpr) (rows : List Tuple) : Value :=
  if fn.name = "COUNT" ∧ fn.star ∧ ¬fn.distinct then .int (Int64.ofNat rows.length)
  else
    let col := (fn.argument.map ColumnRef.columnIndex).getD (-1)
    let vals := presentValues col rows
    aggregateValues fn.name (if fn.distinct then firstsBy valKey vals [] else vals)

/-! ## The accumulator -/

inductive VecAggregate.Kind
  | CountStar
  | Count
  | Sum
  | Avg
  | Min
  | Max
  deriving DecidableEq

structure VecAggregate where
  kind : VecAggregate.Kind := .CountStar
  column : Int := -1

structure Acc where
  count : Int64 := 0
  isum : Int64 := 0
  dsum : Float := Float.ofBits 0
  isFloat : Bool := false
  hasBest : Bool := false
  best : Value := .null

/-- The MIN and MAX branch of the accumulators. -/
def Acc.addBest (kind : VecAggregate.Kind) (acc : Acc) (v : Value) : Acc :=
  if !acc.hasBest then { acc with best := v, hasBest := true }
  else
    match compareValues v acc.best with
    | some .lt => if kind = .Min then { acc with best := v } else acc
    | some .gt => if kind = .Max then { acc with best := v } else acc
    | _ => acc

/-- What a value that is not null adds. -/
def Acc.addValue (kind : VecAggregate.Kind) (acc : Acc) (v : Value) : Acc :=
  match kind with
  | .CountStar => acc
  | .Count => { acc with count := acc.count + 1 }
  | .Sum | .Avg =>
    match v with
    | .double bits =>
      { acc with isFloat := true, dsum := acc.dsum + Float.ofBits bits, count := acc.count + 1 }
    | v => { acc with isum := acc.isum + v.intValue, count := acc.count + 1 }
  | .Min | .Max => acc.addBest kind v

/-- `gAccumulate`: what a row adds whose argument has the value. -/
def Acc.accumulate (kind : VecAggregate.Kind) (acc : Acc) (v : Value) : Acc :=
  if kind = .CountStar then { acc with count := acc.count + 1 }
  else if v.isNull then acc
  else acc.addValue kind v

/-- `gFinalize`. -/
def Acc.finalize (kind : VecAggregate.Kind) (acc : Acc) : Value :=
  match kind with
  | .CountStar | .Count => .int acc.count
  | .Sum =>
    if acc.count = 0 then .null
    else if acc.isFloat then .ofFloat (acc.dsum + ofInt64 acc.isum)
    else .int acc.isum
  | .Avg =>
    if acc.count = 0 then .null
    else .ofFloat ((acc.dsum + ofInt64 acc.isum) / ofInt64 acc.count)
  | .Min | .Max => if acc.hasBest then acc.best else .null

/-- The fold that all implementations come down to. -/
def foldAggregate (agg : VecAggregate) (rows : List Tuple) : Value :=
  (rows.foldl (fun acc row => acc.accumulate agg.kind (valueAt row agg.column)) {} : Acc).finalize
    agg.kind

/-! ## Calls that have a vectorized form -/

/-- The condition of `isVectorizableAggregate` on one call. -/
def Vectorizable (fn : FunctionExpr) : Prop :=
  fn.distinct = false ∧
  (fn.name = "COUNT" ∧ fn.star ∨
    (∃ col ∈ fn.argument, 0 ≤ col.columnIndex) ∧
    fn.name ∈ ["COUNT", "SUM", "AVG", "MIN", "MAX"])

def kindOf (name : String) : VecAggregate.Kind :=
  if name = "COUNT" then .Count
  else if name = "SUM" then .Sum
  else if name = "AVG" then .Avg
  else if name = "MIN" then .Min
  else .Max

/-- What `tryVectorizedAggregate` makes of a call. -/
def toVecAggregate (fn : FunctionExpr) : VecAggregate :=
  if fn.name = "COUNT" ∧ fn.star then { kind := .CountStar }
  else
    { column := (fn.argument.map ColumnRef.columnIndex).getD (-1), kind := kindOf fn.name }

/-! ## The row engine is the fold -/

section Fold

variable (col : Int) (rows : List Tuple)

theorem foldl_accumulate {kind : VecAggregate.Kind} (hkind : kind ≠ .CountStar) (acc : Acc) :
    rows.foldl (fun acc row => acc.accumulate kind (valueAt row col)) acc =
      (presentValues col rows).foldl (fun acc v => acc.addValue kind v) acc := by
  induction rows generalizing acc with
  | nil => rfl
  | cons row rows ih =>
    rw [List.foldl_cons, ih]
    cases hnull : (valueAt row col).isNull with
    | true => simp [presentValues, Acc.accumulate, hkind, hnull]
    | false => simp [presentValues, Acc.accumulate, hkind, hnull]

theorem foldl_countStar (acc : Acc) :
    rows.foldl (fun acc row => acc.accumulate .CountStar (valueAt row col)) acc =
      { acc with count := acc.count + Int64.ofNat rows.length } := by
  induction rows generalizing acc with
  | nil => simp
  | cons row rows ih =>
    rw [List.foldl_cons, ih, List.length_cons, Int64.ofNat_add, show Int64.ofNat 1 = 1 from rfl]
    simp only [Acc.accumulate, if_true]
    rw [Int64.add_assoc, Int64.add_comm 1]

end Fold

variable (vals : List Value)

theorem foldl_count (acc : Acc) :
    (vals.foldl (fun acc v => acc.addValue .Count v) acc).count =
      acc.count + Int64.ofNat vals.length := by
  induction vals generalizing acc with
  | nil => simp
  | cons v vals ih =>
    rw [List.foldl_cons, ih, List.length_cons, Int64.ofNat_add, show Int64.ofNat 1 = 1 from rfl]
    simp only [Acc.addValue]
    rw [Int64.add_assoc, Int64.add_comm 1]

/-- The accumulator of a sum, as the row engine has it. -/
def Acc.ofSums (s : Sums) : Acc :=
  { count := s.n, isum := s.isum, dsum := s.dsum, isFloat := s.isFloat }

theorem foldl_sum {kind : VecAggregate.Kind} (hkind : kind = .Sum ∨ kind = .Avg) (s : Sums) :
    vals.foldl (fun acc v => acc.addValue kind v) (Acc.ofSums s) =
      Acc.ofSums (vals.foldl Sums.add s) := by
  induction vals generalizing s with
  | nil => rfl
  | cons v vals ih =>
    rw [List.foldl_cons, List.foldl_cons, ← ih]
    congr 1
    rcases hkind with rfl | rfl <;> cases v <;> rfl

/-- The accumulator of a minimum or maximum whose best value is `best`, null if there is none. -/
def Acc.ofBest (best : Value) : Acc := { hasBest := !best.isNull, best := best }

theorem foldl_best {kind : VecAggregate.Kind} {name : String}
    (hkind : kind = .Min ∧ name = "MIN" ∨ kind = .Max ∧ name = "MAX")
    (hvals : ∀ v ∈ vals, v.isNull = false) (best : Value) :
    vals.foldl (fun acc v => acc.addValue kind v) (Acc.ofBest best) =
      Acc.ofBest (vals.foldl (pickBest name) best) := by
  induction vals generalizing best with
  | nil => rfl
  | cons v vals ih =>
    have hv := hvals v List.mem_cons_self
    rw [List.foldl_cons, List.foldl_cons, ← ih fun w hw => hvals w (List.mem_cons_of_mem v hw)]
    congr 1
    have hadd : (Acc.ofBest best).addValue kind v = (Acc.ofBest best).addBest kind v := by
      rcases hkind with ⟨rfl, -⟩ | ⟨rfl, -⟩ <;> rfl
    rw [hadd, Acc.addBest, pickBest, Acc.ofBest]
    cases hbest : best.isNull with
    | true => simp [Acc.ofBest, hv]
    | false =>
      simp only [Bool.not_false, Bool.not_true, Bool.false_eq_true, if_false]
      rcases hkind with ⟨rfl, rfl⟩ | ⟨rfl, rfl⟩ <;> split <;> simp [Acc.ofBest, hbest, hv]

theorem finalize_ofBest {kind : VecAggregate.Kind} (hkind : kind = .Min ∨ kind = .Max)
    (best : Value) : (Acc.ofBest best).finalize kind = best := by
  rcases hkind with rfl | rfl <;> cases best <;> rfl

theorem aggregateValues_eq {name : String} (hname : name ∈ ["COUNT", "SUM", "AVG", "MIN", "MAX"])
    (hvals : ∀ v ∈ vals, v.isNull = false) :
    aggregateValues name vals =
      (vals.foldl (fun acc v => acc.addValue (kindOf name) v) ({} : Acc)).finalize (kindOf name) := by
  simp only [List.mem_cons, List.not_mem_nil, or_false] at hname
  rcases hname with rfl | rfl | rfl | rfl | rfl
  · have hcount := foldl_count vals {}
    rw [show kindOf "COUNT" = .Count from rfl, Acc.finalize, hcount]
    simp [aggregateValues]
  · have hsum : vals.foldl (fun acc v => acc.addValue .Sum v) {} =
        Acc.ofSums (vals.foldl Sums.add {}) :=
      foldl_sum vals (.inl rfl) {}
    rw [show kindOf "SUM" = .Sum from rfl, Acc.finalize, hsum]
    rfl
  · have hsum : vals.foldl (fun acc v => acc.addValue .Avg v) {} =
        Acc.ofSums (vals.foldl Sums.add {}) :=
      foldl_sum vals (.inr rfl) {}
    rw [show kindOf "AVG" = .Avg from rfl, Acc.finalize, hsum]
    rfl
  · have hbest : vals.foldl (fun acc v => acc.addValue .Min v) {} =
        Acc.ofBest (vals.foldl (pickBest "MIN") .null) :=
      foldl_best vals (.inl ⟨rfl, rfl⟩) hvals .null
    rw [show kindOf "MIN" = .Min from rfl, hbest, finalize_ofBest (.inl rfl)]
    rfl
  · have hbest : vals.foldl (fun acc v => acc.addValue .Max v) {} =
        Acc.ofBest (vals.foldl (pickBest "MAX") .null) :=
      foldl_best vals (.inr ⟨rfl, rfl⟩) hvals .null
    rw [show kindOf "MAX" = .Max from rfl, hbest, finalize_ofBest (.inr rfl)]
    rfl

/-- `computeAggregate` is the fold over the rows, also where the call has no argument. -/
theorem computeAggregate_of_name {fn : FunctionExpr} (hdistinct : fn.distinct = false)
    (hname : fn.name ∈ ["COUNT", "SUM", "AVG", "MIN", "MAX"]) (rows : List Tuple) :
    computeAggregate fn rows = foldAggregate (toVecAggregate fn) rows := by
  by_cases hstar : fn.name = "COUNT" ∧ fn.star
  · rw [computeAggregate, if_pos ⟨hstar.1, hstar.2, by simp [hdistinct]⟩, toVecAggregate,
      if_pos hstar, foldAggregate, Acc.finalize, foldl_countStar]
    simp
  rw [computeAggregate, if_neg fun h => hstar ⟨h.1, h.2.1⟩, toVecAggregate, if_neg hstar]
  generalize (fn.argument.map ColumnRef.columnIndex).getD (-1) = col
  have hpresent : ∀ v ∈ presentValues col rows, v.isNull = false := fun v hv => by
    simpa using (List.mem_filter.mp hv).2
  have hkind : kindOf fn.name ≠ .CountStar := by
    unfold kindOf
    repeat' split
    all_goals decide
  simp only [hdistinct, Bool.false_eq_true, if_false]
  rw [aggregateValues_eq _ hname hpresent, foldAggregate, foldl_accumulate col rows hkind]

theorem computeAggregate_eq {fn : FunctionExpr} (hfn : Vectorizable fn) (rows : List Tuple) :
    computeAggregate fn rows = foldAggregate (toVecAggregate fn) rows := by
  obtain ⟨hdistinct, hcall⟩ := hfn
  refine computeAggregate_of_name hdistinct ?_ rows
  rcases hcall with ⟨hname, -⟩ | ⟨-, hname⟩
  · simp [hname]
  · exact hname

end Relite.Vm
