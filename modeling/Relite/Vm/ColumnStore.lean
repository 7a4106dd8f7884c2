import Relite.Vm.Vectorized

/-!
# The column store

A cached columnar copy of each table: for every column the arrays of its values and a zone
map, the least and the greatest value of each block of rows. `columnarAggregate` folds over
the arrays and leaves out the blocks that the zone maps exclude.
-/
namespace Relite.Vm
open Lib Relite.Parser
open Semantic hiding Expression

structure ColumnZone where
  hasNonNull : Bool := false
  min : Value := .null
  max : Value := .null

structure Column where
  type : DataType
  ints : List Int64 := []
  doubles : List UInt64 := []
  bools : List Bool := []
  texts : List Bytes := []
  isNull : List Bool := []
  zones : List ColumnZone := []

structure TableColumns where
  columns : List Column
  rows : Nat := 0

/-- `TableColumns::kBlockRows`. -/
def kBlockRows : Nat := 1024

def columnValue (col : Column) (row : Nat) : Value :=
  if col.isNull.getD row false then .null
  else
    match col.type with
    | .Int => .int (col.ints.getD row 0)
    | .Float => .double (col.doubles.getD row 0)
    | .Bool => .bool (col.bools.getD row false)
    | _ => .text (col.texts.getD row [])

/-! ## Building the columns -/

def Value.bits : Value → UInt64
  | .double bits => bits
  | _ => 0

namespace Column

/-- What the scan of `getOrBuild` appends for the value of one row. -/
def push (col : Column) (v : Value) : Column :=
  { col with
    ints := col.ints ++ [v.intValue]
    doubles := col.doubles ++ [v.bits]
    bools := col.bools ++ [v.boolValue]
    texts := col.texts ++ [v.textValue]
    isNull := col.isNull ++ [v.isNull] }

end Column

namespace ColumnZone

/-- One pass of the inner loop of `buildZones`. -/
def extend (z : ColumnZone) (v : Value) : ColumnZone :=
  if v.isNull then z
  else if !z.hasNonNull then { hasNonNull := true, min := v, max := v }
  else
    { z with
      min := if compareValues v z.min = some .lt then v else z.min
      max := if compareValues v z.max = some .gt then v else z.max }

end ColumnZone

def blockCount (rows : Nat) : Nat := (rows + kBlockRows - 1) / kBlockRows

/-- The rows of a block. -/
def blockRows (rows b : Nat) : List Nat :=
  let start := b * kBlockRows
  List.range' start (min (start + kBlockRows) rows - start)

def buildZones (rows : Nat) (col : Column) : Column :=
  { col with
    zones := (List.range (blockCount rows)).map fun b =>
      (blockRows rows b).foldl (fun z r => z.extend (columnValue col r)) {} }

/-- The scan of `getOrBuild`. -/
def scanColumns (schema : Schema) (tuples : List Tuple) : List Column :=
  tuples.foldl (fun cols tuple => cols.mapIdx fun c col => col.push (tuple.getD c .null))
    (schema.map fun d => { type := d })

def buildColumns (schema : Schema) (tuples : List Tuple) : TableColumns where
  columns := (scanColumns schema tuples).map (buildZones tuples.length)
  rows := tuples.length

/-! ## The cache -/

/-- The columns of the tables that have been built and not been invalidated since. -/
abbrev ColumnStore := TableId → Option TableColumns

namespace ColumnStore

def invalidate (store : ColumnStore) (tableId : TableId) : ColumnStore :=
  Function.update store tableId none

/-- The columns in the cache, or else those of the records of the heap, which then are in it. -/
def getOrBuild (store : ColumnStore) (tableId : TableId) (schema : Schema)
    (records : List Bytes) : Except String (TableColumns × ColumnStore) :=
  match store tableId with
  | some tc => .ok (tc, store)
  | none => do
    let tuples ← records.mapM fun bytes => Tuple.deserialize bytes schema
    let tc := buildColumns schema tuples
    return (tc, Function.update store tableId (some tc))

end ColumnStore

/-! ## Data skipping -/

/-- No row of a block with the zone can pass the term. -/
def blockExcludesTerm (term : Term) (z : ColumnZone) : Bool :=
  if !z.hasNonNull then true
  else
    match compareValues term.literal z.min, compareValues term.literal z.max with
    | some lMin, some lMax =>
      match term.op with
      | .Eq => lMin == .lt || lMax == .gt
      | .Lt => lMin != .gt
      | .Leq => lMin == .lt
      | .Gt => lMax != .lt
      | .Geq => lMax == .gt
      | .Neq => compareValues z.min z.max == some .eq && lMin == .eq
    | _, _ => false

namespace TableColumns

def column? (table : TableColumns) (c : Int) : Option Column :=
  if c < 0 then none else table.columns[c.toNat]?

def blockSkippable (table : TableColumns) (predicate : VecPredicate) (b : Nat) : Bool :=
  predicate.any fun term =>
    match table.column? term.column with
    | none => false
    | some col =>
      match col.zones[b]? with
      | none => false
      | some z => blockExcludesTerm term z

/-- The row passes every term of the predicate. -/
def rowPasses (table : TableColumns) (predicate : VecPredicate) (r : Nat) : Bool :=
  predicate.all fun term =>
    match table.column? term.column with
    | none => false
    | some col => !col.isNull.getD r false && termPasses term (columnValue col r)

end TableColumns

/-! ## Aggregating -/

/-- What a row that passes adds to an aggregate over a column. -/
def Column.accumulate (kind : VecAggregate.Kind) (col : Option Column) (acc : Acc) (r : Nat) :
    Acc :=
  if kind = .CountStar then { acc with count := acc.count + 1 }
  else
    match col with
    | none => acc
    | some col =>
      if col.isNull.getD r false then acc
      else
        match kind with
        | .CountStar => acc
        | .Count => { acc with count := acc.count + 1 }
        | .Sum | .Avg =>
          if col.type = .Float then
            { acc with
              isFloat := true
              dsum := acc.dsum + Float.ofBits (col.doubles.getD r 0)
              count := acc.count + 1 }
          else { acc with isum := acc.isum + col.ints.getD r 0, count := acc.count + 1 }
        | .Min | .Max => acc.addBest kind (columnValue col r)

def columnarAggregate (table : TableColumns) (aggregates : List VecAggregate)
    (predicate : Option VecPredicate) : List Value :=
  let skip (b : Nat) : Bool := predicate.any fun terms => table.blockSkippable terms b
  aggregates.map fun agg =>
    let col := table.column? agg.column
    let acc := (List.range (blockCount table.rows)).foldl (fun acc b =>
      if skip b then acc
      else
        (blockRows table.rows b).foldl (fun acc r =>
          if predicate.all fun terms => table.rowPasses terms r then
            Column.accumulate agg.kind col acc r
          else acc) acc) {}
    acc.finalize agg.kind

/-- The blocks in all and those that were skipped. -/
def skipStats (table : TableColumns) (predicate : Option VecPredicate) : Nat × Nat :=
  let blocks := List.range (blockCount table.rows)
  (blocks.length, (blocks.filter fun b =>
    predicate.any fun terms => table.blockSkippable terms b).length)

/-! ## The arrays hold the values of the rows -/

theorem typed_of_mapM {α : Type} {read : α → Bytes} {schema : Schema} {raws : List α}
    {tuples : List Tuple}
    (h : (raws.mapM fun raw => Tuple.deserialize (read raw) schema) = .ok tuples) :
    ∀ t ∈ tuples, Tuple.Typed schema t := by
  induction raws generalizing tuples with
  | nil =>
    cases h
    exact fun _ ht => absurd ht List.not_mem_nil
  | cons raw raws ih =>
    simp only [List.mapM_cons, bind, Except.bind, pure, Except.pure] at h
    split at h
    · cases h
    rename_i tuple hread
    split at h
    · cases h
    rename_i rest hrest
    cases h
    exact List.forall_mem_cons.mpr ⟨Tuple.typed_of_deserialize hread, ih hrest⟩

/-- The column of some values. -/
def Column.ofValues (d : DataType) (vals : List Value) : Column where
  type := d
  ints := vals.map Value.intValue
  doubles := vals.map Value.bits
  bools := vals.map Value.boolValue
  texts := vals.map Value.textValue
  isNull := vals.map Value.isNull

theorem Column.push_ofValues (d : DataType) (vals : List Value) (v : Value) :
    (Column.ofValues d vals).push v = Column.ofValues d (vals ++ [v]) := by
  simp [Column.push, Column.ofValues]

/-- The values of the rows in a column. -/
def valuesOf (tuples : List Tuple) (c : Nat) : List Value := tuples.map fun t => t.getD c .null

theorem scanColumns_eq (schema : Schema) (tuples : List Tuple) :
    scanColumns schema tuples =
      schema.mapIdx fun c d => Column.ofValues d (valuesOf tuples c) := by
  induction tuples using List.reverseRecOn with
  | nil =>
    simp only [scanColumns, List.foldl_nil]
    refine List.ext_getElem (by simp) fun i h₁ h₂ => ?_
    simp [valuesOf, Column.ofValues]
  | append_singleton tuples tuple ih =>
    have hstep : scanColumns schema (tuples ++ [tuple]) =
        (scanColumns schema tuples).mapIdx fun c col => col.push (tuple.getD c .null) := by
      simp [scanColumns]
    rw [hstep, ih, List.mapIdx_mapIdx]
    refine List.mapIdx_eq_mapIdx_iff.mpr fun c hc => ?_
    simp only [Function.comp, Column.push_ofValues, valuesOf, List.map_append,
      List.map_singleton]

/-- The arrays of a column hold the value at a row. -/
structure Column.Holds (col : Column) (r : Nat) (v : Value) : Prop where
  typed : Tuple.HasType col.type v
  ints : col.ints.getD r 0 = v.intValue
  doubles : col.doubles.getD r 0 = v.bits
  bools : col.bools.getD r false = v.boolValue
  texts : col.texts.getD r [] = v.textValue
  isNull : col.isNull.getD r false = v.isNull

theorem Column.holds_ofValues {d : DataType} {vals : List Value}
    (htype : ∀ v ∈ vals, Tuple.HasType d v) {r : Nat} {v : Value} (hr : vals[r]? = some v) :
    (Column.ofValues d vals).Holds r v := by
  have hget : ∀ {α : Type} (f : Value → α) (dflt : α), (vals.map f).getD r dflt = f v := by
    intro α f dflt
    rw [List.getD_eq_getElem?_getD, List.getElem?_map, hr]
    rfl
  exact ⟨htype v (List.mem_of_getElem? hr), hget _ _, hget _ _, hget _ _, hget _ _, hget _ _⟩

theorem Column.Holds.columnValue {col : Column} {r : Nat} {v : Value} (h : col.Holds r v) :
    columnValue col r = v := by
  have htyped := h.typed
  rw [Vm.columnValue, h.isNull, h.ints, h.doubles, h.bools, h.texts]
  generalize col.type = d at htyped
  cases d <;> cases v <;> first | rfl | cases htyped

theorem column?_build (schema : Schema) (tuples : List Tuple) (c : Int) :
    (buildColumns schema tuples).column? c =
      if c < 0 then none
      else schema[c.toNat]?.map fun d =>
        buildZones tuples.length (Column.ofValues d (valuesOf tuples c.toNat)) := by
  rw [TableColumns.column?, buildColumns, scanColumns_eq]
  simp [Function.comp_def]

/-! ## The blocks are the rows -/

theorem blockRows_append (rows b : Nat) :
    List.range (min (b * kBlockRows) rows) ++ blockRows rows b =
      List.range (min ((b + 1) * kBlockRows) rows) := by
  have hmul : (b + 1) * kBlockRows = b * kBlockRows + kBlockRows := by ring
  rw [blockRows, hmul, List.range_eq_range', List.range_eq_range']
  generalize b * kBlockRows = start
  generalize kBlockRows = size
  by_cases hle : start ≤ rows
  · have happend := List.range'_append_1 (s := 0) (m := start) (n := min (start + size) rows - start)
    rw [Nat.zero_add] at happend
    rw [Nat.min_eq_left hle]
    rw [happend, show start + (min (start + size) rows - start) = min (start + size) rows by omega]
  · have hmin : min (start + size) rows - start = 0 := by omega
    rw [hmin, Nat.min_eq_right (by omega), Nat.min_eq_right (by omega)]
    simp

theorem div_of_mem_blockRows {rows b r : Nat} (h : r ∈ blockRows rows b) :
    r / kBlockRows = b ∧ r < rows := by
  rw [blockRows, List.mem_range'_1] at h
  have hpos : 0 < kBlockRows := by decide
  refine ⟨?_, by omega⟩
  rw [Nat.div_eq_iff hpos]
  omega

/-- The loop over the blocks that are not skipped is one over the rows in them. -/
theorem foldl_blocks {σ : Type} (skip : Nat → Bool) (p : Nat → Bool) (f : σ → Nat → σ) (rows : Nat)
    (s : σ) :
    (List.range (blockCount rows)).foldl (fun s b =>
        if skip b then s
        else (blockRows rows b).foldl (fun s r => if p r then f s r else s) s) s =
      ((List.range rows).filter fun r => !skip (r / kBlockRows) && p r).foldl f s := by
  have hblock : ∀ b s, (if skip b then s
      else (blockRows rows b).foldl (fun s r => if p r then f s r else s) s) =
      ((blockRows rows b).filter fun r => !skip (r / kBlockRows) && p r).foldl f s := by
    intro b s
    have hskip : ((blockRows rows b).filter fun r => !skip (r / kBlockRows) && p r) =
        (blockRows rows b).filter fun r => !skip b && p r :=
      List.filter_congr fun r hr => by rw [(div_of_mem_blockRows hr).1]
    rw [hskip, List.foldl_filter]
    cases skip b with
    | true => simp
    | false => simp
  have hblocks : ∀ n s, (List.range n).foldl (fun s b =>
        if skip b then s
        else (blockRows rows b).foldl (fun s r => if p r then f s r else s) s) s =
      ((List.range (min (n * kBlockRows) rows)).filter fun r =>
        !skip (r / kBlockRows) && p r).foldl f s := by
    intro n
    induction n with
    | zero => intro s; simp
    | succ n ih =>
      intro s
      rw [List.range_succ, List.foldl_append, ih, List.foldl_cons, List.foldl_nil, hblock,
        ← List.foldl_append, ← List.filter_append, blockRows_append]
  rw [hblocks]
  congr 3
  have hcount : rows ≤ blockCount rows * kBlockRows := by
    have hmod := Nat.div_add_mod (rows + kBlockRows - 1) kBlockRows
    have hlt := Nat.mod_lt (rows + kBlockRows - 1) (show 0 < kBlockRows by decide)
    rw [blockCount, Nat.mul_comm]
    omega
  exact Nat.min_eq_right hcount

/-! ## The columns give the fold over the rows -/

theorem valueAt_eq_getD {c : Int} (hc : ¬c < 0) (row : Tuple) :
    valueAt row c = row.getD c.toNat .null := if_neg hc

section Built

variable {schema : Schema} {tuples : List Tuple} (htyped : ∀ t ∈ tuples, Tuple.Typed schema t)
include htyped

theorem hasType_valuesOf {c : Nat} {d : DataType} (hd : schema[c]? = some d) :
    ∀ v ∈ valuesOf tuples c, Tuple.HasType d v := by
  intro v hv
  obtain ⟨row, hrow, rfl⟩ := List.mem_map.mp hv
  have hforall := List.forall₂_iff_get.mp (htyped row hrow)
  obtain ⟨hc, rfl⟩ := List.getElem?_eq_some_iff.mp hd
  have hval := hforall.2 c hc (hforall.1 ▸ hc)
  rwa [List.getD_eq_getElem _ _ (hforall.1 ▸ hc)]

/-- A column that the table does not have has no values. -/
theorem valueAt_of_column?_none {c : Int} (h : (buildColumns schema tuples).column? c = none)
    {row : Tuple} (hrow : row ∈ tuples) : valueAt row c = .null := by
  rw [column?_build] at h
  split at h
  · rename_i hneg
    rw [valueAt, if_pos hneg]
  · rename_i hneg
    rw [valueAt_eq_getD hneg]
    have hlen := (htyped row hrow).length_eq
    rw [Option.map_eq_none_iff, List.getElem?_eq_none_iff] at h
    exact List.getD_eq_default _ _ (by omega)

/-- A column of the table holds the values of the rows. -/
theorem holds_of_column? {c : Int} {col : Column}
    (h : (buildColumns schema tuples).column? c = some col) {r : Nat} {row : Tuple}
    (hrow : tuples[r]? = some row) : col.Holds r (valueAt row c) := by
  rw [column?_build] at h
  split at h
  · cases h
  · rename_i hneg
    obtain ⟨d, hd, rfl⟩ := Option.map_eq_some_iff.mp h
    have hget : (valuesOf tuples c.toNat)[r]? = some (row.getD c.toNat .null) := by
      simp [valuesOf, hrow]
    rw [valueAt_eq_getD hneg]
    obtain ⟨htype, hint, hdouble, hbool, htext, hnull⟩ :=
      Column.holds_ofValues (hasType_valuesOf htyped hd) hget
    exact ⟨htype, hint, hdouble, hbool, htext, hnull⟩

theorem rowPasses_build {terms : VecPredicate} {r : Nat} {row : Tuple}
    (hrow : tuples[r]? = some row) :
    (buildColumns schema tuples).rowPasses terms r = passes terms row := by
  refine List.all_congr rfl fun term => ?_
  split
  · rename_i hcol
    rw [valueAt_of_column?_none htyped hcol (List.mem_of_getElem? hrow)]
    rfl
  · rename_i col hcol
    have hholds := holds_of_column? htyped hcol hrow
    rw [hholds.columnValue, hholds.isNull]
    cases valueAt row term.column <;> rfl

theorem accumulate_build (kind : VecAggregate.Kind) (c : Int) (acc : Acc) {r : Nat} {row : Tuple}
    (hrow : tuples[r]? = some row) :
    Column.accumulate kind ((buildColumns schema tuples).column? c) acc r =
      acc.accumulate kind (valueAt row c) := by
  unfold Column.accumulate Acc.accumulate
  split
  · rfl
  split
  · rename_i hcol
    rw [valueAt_of_column?_none htyped hcol (List.mem_of_getElem? hrow)]
    rfl
  · rename_i col hcol
    have hholds := holds_of_column? htyped hcol hrow
    have htype := hholds.typed
    rw [hholds.columnValue, hholds.isNull, hholds.doubles, hholds.ints]
    generalize col.type = d at htype
    generalize valueAt row c = v at htype
    -- an array other than that of the column's type holds what `intValue` and `bits` give
    cases kind <;> first
      | rfl
      | (cases d <;> cases v <;> first | rfl | cases htype)

end Built

/-- The rows that pass the predicate in the blocks that are not skipped. -/
def keptRows (table : TableColumns) (predicate : Option VecPredicate) (tuples : List Tuple) :
    List Tuple :=
  (tuples.zipIdx.filter fun (row, r) =>
    !(predicate.any fun terms => table.blockSkippable terms (r / kBlockRows)) &&
      predicate.all fun terms => passes terms row).map Prod.fst

/-- `columnarAggregate` is the fold over the rows that are kept. -/
theorem columnarAggregate_eq {schema : Schema} {tuples : List Tuple}
    (htyped : ∀ t ∈ tuples, Tuple.Typed schema t) (aggregates : List VecAggregate)
    (predicate : Option VecPredicate) :
    columnarAggregate (buildColumns schema tuples) aggregates predicate =
      aggregates.map fun agg =>
        foldAggregate agg (keptRows (buildColumns schema tuples) predicate tuples) := by
  refine List.map_congr_left fun agg _ => ?_
  dsimp only
  rw [foldl_blocks, foldAggregate, keptRows, List.foldl_map]
  have hrow : ∀ {r : Nat} {x : Tuple × Nat}, tuples.zipIdx[r]? = some x →
      tuples[r]? = some x.1 ∧ x.2 = r := by
    intro r x hx
    simp only [List.getElem?_zipIdx, Option.map_eq_some_iff] at hx
    obtain ⟨row, hrow, rfl⟩ := hx
    exact ⟨hrow, Nat.zero_add r⟩
  have hfold := foldl_selection
    (p := fun r => !(predicate.any fun terms =>
      (buildColumns schema tuples).blockSkippable terms (r / kBlockRows)) &&
      predicate.all fun terms => (buildColumns schema tuples).rowPasses terms r)
    (q := fun (row, r) => !(predicate.any fun terms =>
      (buildColumns schema tuples).blockSkippable terms (r / kBlockRows)) &&
      predicate.all fun terms => passes terms row)
    (f := Column.accumulate agg.kind ((buildColumns schema tuples).column? agg.column))
    (g := fun acc x => acc.accumulate agg.kind (valueAt x.1 agg.column))
    (fun r x hx => by
      obtain ⟨hx, rfl⟩ := hrow hx
      simp only [rowPasses_build htyped hx])
    (fun acc r x hx => accumulate_build htyped agg.kind agg.column acc (hrow hx).1) ({} : Acc)
  rw [List.length_zipIdx] at hfold
  exact congrArg (Acc.finalize agg.kind) hfold

end Relite.Vm
