import Relite.Vm.AggregatePaths

/-!
# Data skipping

The columns that `getOrBuild` reads from the heap, if all their doubles are numbers:
a block that the zone maps exclude has no row that passes, and `columnarAggregate` gives what
it would give if it read every block.
-/
namespace Relite.Vm
open Lib Relite.Parser
open Semantic hiding Expression

/-- `columnarAggregate` with no block left out. -/
def unskippedAggregate (table : TableColumns) (aggregates : List VecAggregate)
    (predicate : Option VecPredicate) : List Value :=
  aggregates.map fun agg =>
    let col := table.column? agg.column
    let acc := (List.range (blockCount table.rows)).foldl (fun acc b =>
      (blockRows table.rows b).foldl (fun acc r =>
        if predicate.all fun terms => table.rowPasses terms r then
          Column.accumulate agg.kind col acc r
        else acc) acc) {}
    acc.finalize agg.kind

/-- All doubles of the columns are numbers. -/
def TableColumns.Numbers (table : TableColumns) : Prop :=
  ∀ col ∈ table.columns, ∀ bits ∈ col.doubles, ¬NotANumber bits

/-- No row of a block that is skipped passes. -/
def TableColumns.SkipsNone (table : TableColumns) (terms : VecPredicate) : Prop :=
  ∀ b, table.blockSkippable terms b → ∀ r ∈ blockRows table.rows b, ¬table.rowPasses terms r

/-- Skipping blocks in which no row passes changes no aggregate. -/
theorem TableColumns.SkipsNone.columnarAggregate_eq {table : TableColumns} {terms : VecPredicate}
    (h : table.SkipsNone terms) (aggregates : List VecAggregate) :
    columnarAggregate table aggregates (some terms) =
      unskippedAggregate table aggregates (some terms) := by
  refine List.map_congr_left fun agg _ => congrArg (Acc.finalize agg.kind) ?_
  refine List.foldl_ext _ _ _ fun acc b _ => ?_
  split
  · rename_i hskip
    refine ((List.foldl_ext _ (fun acc _ => acc) acc fun acc r hr => ?_).trans
      (List.foldl_fixed _)).symm
    exact if_neg (h b hskip r hr)
  · rfl

section Built

variable {schema : Schema} {tuples : List Tuple} (htyped : ∀ t ∈ tuples, Tuple.Typed schema t)
include htyped

/-- The numbers of the columns are those of the rows. -/
theorem not_nan_of_numbers (h : (buildColumns schema tuples).Numbers) :
    ∀ row ∈ tuples, ∀ v ∈ row, ¬v.NaN := by
  intro row hrow v hv hnan
  obtain ⟨c, hc⟩ := List.mem_iff_getElem?.mp hv
  obtain ⟨hclt, hcv⟩ := List.getElem?_eq_some_iff.mp hc
  have hlen := (htyped row hrow).length_eq
  obtain ⟨d, hd⟩ : ∃ d, schema[c]? = some d :=
    ⟨_, List.getElem?_eq_getElem (by omega)⟩
  have hcolumn := column?_build schema tuples c
  rw [if_neg (by omega), Int.toNat_natCast, hd] at hcolumn
  have hmem := List.mem_of_getElem? ((if_neg (by omega)).symm.trans hcolumn)
  have hvalue : v ∈ valuesOf tuples c :=
    List.mem_map.mpr ⟨row, hrow, by rw [List.getD_eq_getElem _ _ hclt, hcv]⟩
  have hbits := h _ hmem v.bits (List.mem_map_of_mem hvalue)
  cases v with
  | double bits => exact hbits hnan
  | _ => exact hnan

theorem skipsNone_build (h : (buildColumns schema tuples).Numbers) (terms : VecPredicate) :
    (buildColumns schema tuples).SkipsNone terms := by
  intro b hskip r hr hpass
  obtain ⟨rfl, hlt⟩ := div_of_mem_blockRows hr
  have hrow := List.getElem?_eq_getElem hlt
  rw [rowPasses_build htyped hrow] at hpass
  have hnot : ¬ SkipsMatch (some terms) tuples := not_skipsMatch (not_nan_of_numbers htyped h)
  exact hnot ⟨terms, rfl, r, _, hrow, hpass, (blockSkippable_iff htyped hrow hpass).mp hskip⟩

end Built

/-- The columns that `getOrBuild` reads are built of rows of the schema. -/
theorem ColumnStore.getOrBuild_of_none {store store' : ColumnStore} {tableId : TableId}
    {schema : Schema} {records : List Bytes} {table : TableColumns}
    (hnone : store tableId = none)
    (h : store.getOrBuild tableId schema records = .ok (table, store')) :
    ∃ tuples, (∀ t ∈ tuples, Tuple.Typed schema t) ∧ table = buildColumns schema tuples := by
  rw [ColumnStore.getOrBuild, hnone] at h
  simp only [bind, Except.bind, pure, Except.pure] at h
  split at h
  · cases h
  rename_i tuples hread
  cases h
  exact ⟨tuples, typed_of_mapM hread, rfl⟩

/-- No row that passes is in a block that is skipped, and the aggregates are those of all
blocks. -/
theorem dataSkipping_sound {store store' : ColumnStore} {tableId : TableId} {schema : Schema}
    {records : List Bytes} {table : TableColumns} (hnone : store tableId = none)
    (h : store.getOrBuild tableId schema records = .ok (table, store'))
    (hnumbers : table.Numbers) (terms : VecPredicate) :
    table.SkipsNone terms ∧ ∀ aggregates,
      columnarAggregate table aggregates (some terms) =
        unskippedAggregate table aggregates (some terms) := by
  obtain ⟨tuples, htyped, rfl⟩ := ColumnStore.getOrBuild_of_none hnone h
  have hskips := skipsNone_build htyped hnumbers terms
  exact ⟨hskips, hskips.columnarAggregate_eq⟩

/-- A column of doubles with a null and a literal that is an integer. -/
theorem dataSkipping_sound_mixed :
    (buildColumns [.Float] [[.double 0x3ff8000000000000], [.null]]).SkipsNone
        [{ column := 0, op := .Gt, literal := .int 2 }] ∧
      ∀ aggregates,
        columnarAggregate (buildColumns [.Float] [[.double 0x3ff8000000000000], [.null]]) aggregates
            (some [{ column := 0, op := .Gt, literal := .int 2 }]) =
          unskippedAggregate (buildColumns [.Float] [[.double 0x3ff8000000000000], [.null]])
            aggregates (some [{ column := 0, op := .Gt, literal := .int 2 }]) :=
  have hnumbers : ((buildColumns [.Float] [[.double 0x3ff8000000000000], [.null]]).columns.all
      fun col => col.doubles.all fun bits => decide ¬NotANumber bits) := by decide +kernel
  @dataSkipping_sound (fun _ => none) _ 0 [.Float]
    [Tuple.serialize [.double 0x3ff8000000000000] [.Float], Tuple.serialize [.null] [.Float]] _ rfl
    rfl (fun col hcol bits hbits => of_decide_eq_true
      (List.all_eq_true.mp (List.all_eq_true.mp hnumbers col hcol) bits hbits)) _

end Relite.Vm
