import Relite.Vm.ZoneMaps

/-!
# The three ways to aggregate

An aggregate without groups is computed over the cached columns, over batches of a scan or
over the rows. The three agree on every list of aggregates unless a zone map excludes the
block of a row that passes.
-/
namespace Relite.Vm
open Lib Relite.Parser
open Semantic hiding Expression

/-- The predicate for a WHEN clause, none if it has no vectorized form. -/
def whenPredicate : Option Expression → Option (Option VecPredicate)
  | none => some none
  | some e => (buildVecPredicate e).map some

/-- The row engine: the rows of a scan that the WHEN clause accepts, aggregated. -/
def rowAggregate (tuples : List Tuple) (when_ : Option Expression) (fns : List FunctionExpr) :
    List Value :=
  let rows := tuples.filter fun row => when_.all fun e => predicateTrue (evalExpression e) row
  fns.map fun fn => computeAggregate fn rows

/-- A row passes and a zone map excludes its block on account of what is no number. -/
def SkipsMatch (predicate : Option VecPredicate) (tuples : List Tuple) : Prop :=
  ∃ terms ∈ predicate, ∃ r row, tuples[r]? = some row ∧ passes terms row ∧
    ∃ term ∈ terms, PrunedByNaN
      ((block (r / kBlockRows) tuples).map fun row => valueAt row term.column) term
      (valueAt row term.column)

/-- In a table without such a value no row is lost. -/
theorem not_skipsMatch {predicate : Option VecPredicate} {tuples : List Tuple}
    (h : ∀ row ∈ tuples, ∀ v ∈ row, ¬v.NaN) : ¬SkipsMatch predicate tuples := by
  have hvalue : ∀ row ∈ tuples, ∀ c, ¬(valueAt row c).NaN := by
    intro row hrow c
    rw [valueAt]
    split
    · exact id
    rw [List.getD_eq_getElem?_getD]
    cases hget : row[c.toNat]? with
    | none => exact id
    | some v => exact h row hrow v (List.mem_of_getElem? hget)
  rintro ⟨terms, -, r, row, hrow, -, term, -, w, hw, hpruned⟩
  split at hpruned
  · rename_i hnan
    obtain ⟨row', hrow', rfl⟩ := List.mem_map.mp (List.mem_of_find?_eq_some hw)
    exact hvalue row' (List.mem_of_mem_drop (List.mem_of_mem_take hrow')) _ hnan
  · exact hvalue row (List.mem_of_getElem? hrow) _ hpruned.1

/-- The rows that pass. -/
def acceptedRows (predicate : Option VecPredicate) (tuples : List Tuple) : List Tuple :=
  tuples.filter fun row => predicate.all fun terms => passes terms row

section When

variable {when_ : Option Expression} {predicate : Option VecPredicate}
  (h : whenPredicate when_ = some predicate)
include h

theorem filter_when_eq (tuples : List Tuple) :
    (tuples.filter fun row => when_.all fun e => predicateTrue (evalExpression e) row) =
      acceptedRows predicate tuples := by
  cases when_ with
  | none =>
    cases h
    rfl
  | some e =>
    obtain ⟨terms, hterms, rfl⟩ := Option.map_eq_some_iff.mp h
    exact List.filter_congr fun row _ => (buildVecPredicate_eq hterms).2 row

theorem columns_whenPredicate : ∀ terms ∈ predicate, ∀ term ∈ terms, 0 ≤ term.column := by
  intro terms hterms
  obtain rfl := Option.mem_def.mp hterms
  cases when_ with
  | none => cases h
  | some e =>
    obtain ⟨_, hbuild, ⟨⟩⟩ := Option.map_eq_some_iff.mp h
    exact (buildVecPredicate_eq hbuild).1

theorem rowAggregate_eq {fns : List FunctionExpr} (hfns : ∀ fn ∈ fns, Vectorizable fn)
    (tuples : List Tuple) :
    rowAggregate tuples when_ fns =
      (fns.map toVecAggregate).map fun agg => foldAggregate agg (acceptedRows predicate tuples) := by
  rw [rowAggregate, filter_when_eq h, List.map_map]
  exact List.map_congr_left fun fn hfn => computeAggregate_eq (hfns fn hfn) _

end When

theorem column_toVecAggregate {fn : FunctionExpr} (h : Vectorizable fn)
    (hkind : (toVecAggregate fn).kind ≠ .CountStar) : 0 ≤ (toVecAggregate fn).column := by
  rw [toVecAggregate] at hkind ⊢
  split
  · rename_i hstar
    rw [if_pos hstar] at hkind
    exact absurd rfl hkind
  · rename_i hstar
    obtain ⟨⟨col, hcol, hindex⟩, -⟩ := h.2.resolve_left hstar
    rw [Option.mem_def.mp hcol]
    exact hindex

section Kept

variable (predicate : Option VecPredicate) (tuples : List Tuple)

/-- The rows that pass, with their numbers. -/
def acceptedAt : List (Tuple × Nat) :=
  tuples.zipIdx.filter fun x => predicate.all fun terms => passes terms x.1

theorem acceptedRows_eq : acceptedRows predicate tuples = (acceptedAt predicate tuples).map Prod.fst := by
  conv_lhs => rw [acceptedRows, ← List.zipIdx_map_fst 0 tuples, List.filter_map]
  rfl

theorem keptRows_eq_filter (table : TableColumns) :
    keptRows table predicate tuples =
      ((acceptedAt predicate tuples).filter fun x =>
        !predicate.any fun terms => table.blockSkippable terms (x.2 / kBlockRows)).map Prod.fst := by
  rw [keptRows, acceptedAt, List.filter_filter]

variable {predicate tuples}
variable {schema : Schema} (htyped : ∀ t ∈ tuples, Tuple.Typed schema t)
include htyped

/-- A row that passes is dropped exactly if there is one in an excluded block. -/
theorem skipsMatch_iff :
    SkipsMatch predicate tuples ↔ ∃ x ∈ acceptedAt predicate tuples,
      (predicate.any fun terms =>
        (buildColumns schema tuples).blockSkippable terms (x.2 / kBlockRows)) = true := by
  constructor
  · rintro ⟨terms, hterms, r, row, hrow, hpass, hpruned⟩
    obtain rfl := Option.mem_def.mp hterms
    refine ⟨(row, r), List.mem_filter.mpr ⟨List.mk_mem_zipIdx_iff_getElem?.mpr hrow, hpass⟩, ?_⟩
    exact (blockSkippable_iff htyped hrow hpass).mpr hpruned
  · rintro ⟨⟨row, r⟩, hx, hskip⟩
    obtain ⟨hmem, hpass⟩ := List.mem_filter.mp hx
    have hrow := List.mk_mem_zipIdx_iff_getElem?.mp hmem
    cases predicate with
    | none => cases hskip
    | some terms =>
      exact ⟨terms, rfl, r, row, hrow, hpass, (blockSkippable_iff htyped hrow hpass).mp hskip⟩

/-- Where no block of a row that passes is excluded, the rows kept are those that pass. -/
theorem keptRows_eq (h : ¬SkipsMatch predicate tuples) :
    keptRows (buildColumns schema tuples) predicate tuples = acceptedRows predicate tuples := by
  rw [skipsMatch_iff htyped] at h
  rw [keptRows_eq_filter, acceptedRows_eq, List.filter_eq_self.mpr]
  intro x hx
  rw [Bool.not_eq_true', ← Bool.not_eq_true]
  exact fun hskip => h ⟨x, hx, hskip⟩

/-- Where the block of a row that passes is excluded, fewer rows are kept than pass. -/
theorem length_keptRows_lt (h : SkipsMatch predicate tuples) :
    (keptRows (buildColumns schema tuples) predicate tuples).length <
      (acceptedRows predicate tuples).length := by
  obtain ⟨x, hx, hskip⟩ := (skipsMatch_iff htyped).mp h
  rw [keptRows_eq_filter, acceptedRows_eq, List.length_map, List.length_map,
    List.length_filter_lt_length_iff_exists]
  exact ⟨x, hx, by simpa using hskip⟩

end Kept

/-- `COUNT(*)`. -/
def countStar : FunctionExpr := { name := "COUNT", star := true }

/-- The three ways agree on every list of aggregates exactly if no row that passes lies in a
block that is excluded on account of what is no number. A record id is a pair of ints, so
that a table has fewer rows than an `int64` counts. -/
theorem aggregates_agree_iff {schema : Schema} {tuples : List Tuple}
    (htyped : ∀ t ∈ tuples, Tuple.Typed schema t) (hlen : tuples.length < 2 ^ 63)
    {when_ : Option Expression} {predicate : Option VecPredicate}
    (hwhen : whenPredicate when_ = some predicate) :
    (∀ fns : List FunctionExpr, (∀ fn ∈ fns, Vectorizable fn) →
      columnarAggregate (buildColumns schema tuples) (fns.map toVecAggregate) predicate =
        rowAggregate tuples when_ fns ∧
      ∀ batchSize, 1 ≤ batchSize →
        runVectorizedAggregate tuples schema predicate (fns.map toVecAggregate) batchSize =
          rowAggregate tuples when_ fns) ↔
      ¬SkipsMatch predicate tuples := by
  have hwidth : ∀ row ∈ tuples, row.length = schema.length := fun row hrow =>
    (htyped row hrow).length_eq.symm
  have hcolumns := columns_whenPredicate hwhen
  constructor
  · intro hagree hskip
    have hcount := (hagree [countStar] (by simp [countStar, Vectorizable])).1
    rw [rowAggregate_eq hwhen (by simp [countStar, Vectorizable]), columnarAggregate_eq htyped]
      at hcount
    have hlt := length_keptRows_lt htyped hskip
    have hle : (acceptedRows predicate tuples).length ≤ tuples.length := List.length_filter_le _ _
    have hstar : ∀ rows, foldAggregate (toVecAggregate countStar) rows =
        .int (Int64.ofNat rows.length) := fun rows => by
      rw [← computeAggregate_eq (by simp [countStar, Vectorizable])]
      rfl
    have hsame : Int64.ofNat (keptRows (buildColumns schema tuples) predicate tuples).length =
        Int64.ofNat (acceptedRows predicate tuples).length := by
      simpa [hstar] using hcount
    have hnat := congrArg Int64.toInt hsame
    rw [Int64.toInt_ofNat_of_lt (by omega), Int64.toInt_ofNat_of_lt (by omega)] at hnat
    omega
  · intro hskip fns hfns
    rw [rowAggregate_eq hwhen hfns, columnarAggregate_eq htyped, keptRows_eq htyped hskip]
    refine ⟨rfl, fun batchSize _ => ?_⟩
    refine runVectorizedAggregate_eq hwidth hcolumns (fun agg hagg => ?_) batchSize
    obtain ⟨fn, hfn, rfl⟩ := List.mem_map.mp hagg
    exact column_toVecAggregate (hfns fn hfn)

/-- A column of a one-column table. -/
def exampleColumn : ColumnRef := { column := "a", columnIndex := 0 }

theorem aggregates_agree_ints :
    columnarAggregate (buildColumns [.Int] [[.int 1], [.null], [.int 5]])
        ([countStar, { name := "SUM", argument := some exampleColumn }].map toVecAggregate)
        (some [{ column := 0, op := .Lt, literal := .int 3 }]) =
      rowAggregate [[.int 1], [.null], [.int 5]]
        (some (.binary .Gt (.literal (.int 3)) (.column exampleColumn)))
        [countStar, { name := "SUM", argument := some exampleColumn }] := by
  have htyped : ∀ t ∈ [[.int 1], [.null], [.int 5]], Tuple.Typed [.Int] t := by
    simp [Tuple.Typed, Tuple.HasType]
  have hwhen : whenPredicate (some (.binary .Gt (.literal (.int 3)) (.column exampleColumn))) =
      some (some [{ column := 0, op := .Lt, literal := .int 3 }]) := rfl
  have hagree := (aggregates_agree_iff htyped (by decide) hwhen).mpr
    (not_skipsMatch (by simp [Value.NaN]))
  exact (hagree _ (by simp [Vectorizable, countStar, exampleColumn])).1

/-- What is no number is the first value of the block, and the zone map excludes 1 from the
rows where the column is less than 5. -/
theorem not_aggregates_agree :
    columnarAggregate
        (buildColumns [.Float] [[.double 0x7ff8000000000000], [.double 0x3ff0000000000000]])
        ([countStar].map toVecAggregate)
        (some [{ column := 0, op := .Lt, literal := .double 0x4014000000000000 }]) ≠
      rowAggregate [[.double 0x7ff8000000000000], [.double 0x3ff0000000000000]]
        (some (.binary .Lt (.column exampleColumn) (.literal (.double 0x4014000000000000))))
        [countStar] := by
  decide +kernel

end Relite.Vm
