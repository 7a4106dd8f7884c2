import Relite.Lib.Ranks
import Relite.Vm.SortBy

/-!
# Window functions

`runWindowQuery` numbers the rows of the source, collects the positions of each partition,
sorts them if the window has a SORT BY, and writes a value for each position. An aggregate
over a partition is the one of a group of the same rows but for SUM, which starts from the
integer zero.
-/
namespace Relite.Vm
open Lib Relite.Parser SortBy

structure WindowExpr where
  name : String
  argument : Option ColumnRef := none
  partitionBy : List Nat := []
  orderBy : List OrderKey := []

/-- The running values of the branch for aggregates. -/
structure WindowSums where
  dsum : Float := Float.ofBits 0
  isum : Int64 := 0
  cnt : Int64 := 0
  isFloat : Bool := false
  best : Value := .null

/-- What a value that is not null adds. -/
def WindowSums.add (name : String) (s : WindowSums) (v : Value) : WindowSums :=
  let s := { s with cnt := s.cnt + 1 }
  let s :=
    match v with
    | .double bits => { s with isFloat := true, dsum := s.dsum + Float.ofBits bits }
    | .int n => { s with isum := s.isum + n }
    | _ => s
  { s with best := pickBest name s.best v }

def WindowSums.addRow (name : String) (argCol : Int) (s : WindowSums) (row : Tuple) : WindowSums :=
  if argCol < 0 then { s with cnt := s.cnt + 1 }
  else
    let v := valueAt row argCol
    if v.isNull then s else s.add name v

def WindowSums.result (name : String) (s : WindowSums) : Value :=
  if name = "COUNT" then .int s.cnt
  else if name = "SUM" then
    if s.isFloat then .ofFloat (s.dsum + ofInt64 s.isum) else .int s.isum
  else if name = "AVG" then
    if s.cnt = 0 then .null else .ofFloat ((s.dsum + ofInt64 s.isum) / ofInt64 s.cnt)
  else s.best

namespace WindowExpr

variable (w : WindowExpr) (rows : List Tuple)

/-- The comparison of two positions that `std::stable_sort` is given. -/
def less (a b : Nat) : Bool := keyLess w.orderBy (rows.getD a []) (rows.getD b [])

def sameOrder (a b : Nat) : Bool :=
  w.orderBy.all fun key =>
    let va := (rows.getD a []).getD key.columnIndex .null
    let vb := (rows.getD b []).getD key.columnIndex .null
    !(valueLess va vb || valueLess vb va)

def sorted (idxs : List Nat) : List Nat :=
  if w.orderBy.isEmpty then idxs else stableSort (w.less rows) idxs

def aggregate (idxs : List Nat) : Value :=
  let argCol := (w.argument.map ColumnRef.columnIndex).getD (-1)
  (idxs.foldl (fun s i => s.addRow w.name argCol (rows.getD i [])) ({} : WindowSums)).result w.name

/-- What is written for the positions of a partition. -/
def assign (idxs : List Nat) : List (Nat × Value) :=
  let idxs := w.sorted rows idxs
  if w.name = "ROW_NUMBER" then idxs.zipIdx.map fun e => (e.1, .int (Int64.ofNat (e.2 + 1)))
  else if w.name = "RANK" ∨ w.name = "DENSE_RANK" then
    (rankLoop (w.sameOrder rows) 0 none (0, 0) idxs).map fun e =>
      (e.1, .int (Int64.ofNat (if w.name = "RANK" then e.2.1 else e.2.2)))
  else idxs.map fun i => (i, w.aggregate rows idxs)

/-- The values of all positions. -/
def values : List Value :=
  ((partitionRows w.partitionBy rows).flatMap (w.assign rows)).foldl
    (fun result e => result.set e.1 e.2) (List.replicate rows.length .null)

/-- The number of rows is kept in an `int`; a vector cannot have a negative size. -/
def windowValues : Option (List Value) :=
  let n := Int32.ofNat rows.length
  if n < 0 then none else some (w.values (rows.take n.toInt.toNat))

/-- The value that a row of the source gets, if it gets one. -/
def windowValue (i : Nat) : Option Value := (w.windowValues rows).bind (·[i]?)

end WindowExpr

/-! ## Each position is written once -/

theorem getElem?_foldl_set {entries : List (Nat × Value)} (hnodup : (entries.map Prod.fst).Nodup)
    {e : Nat × Value} (he : e ∈ entries) (result : List Value) (hi : e.1 < result.length) :
    (entries.foldl (fun result e => result.set e.1 e.2) result)[e.1]? = some e.2 := by
  induction entries generalizing result with
  | nil => cases he
  | cons e' entries ih =>
    rw [List.map_cons, List.nodup_cons] at hnodup
    rw [List.foldl_cons]
    rcases List.mem_cons.mp he with rfl | he
    · -- the later ones are about other positions
      have hlater : ∀ (l : List (Nat × Value)) (result : List Value), e.1 ∉ l.map Prod.fst →
          (l.foldl (fun result e => result.set e.1 e.2) result)[e.1]? = result[e.1]? := by
        intro l
        induction l with
        | nil => exact fun _ _ => rfl
        | cons x l ihl =>
          intro result hnot
          rw [List.map_cons, List.mem_cons, not_or] at hnot
          rw [List.foldl_cons, ihl _ hnot.2, List.getElem?_set_ne (Ne.symm hnot.1)]
      rw [hlater entries _ hnodup.1, List.getElem?_set_self hi]
    · exact ih hnodup.2 he _ (by rwa [List.length_set])

/-- The positions of the rows that have the key of a row. -/
def partitionOf (cols : List Nat) (rows : List Tuple) (i : Nat) : List Nat :=
  (List.range rows.length).filter fun j =>
    rowKey (project cols (rows.getD j [])) = rowKey (project cols (rows.getD i []))

theorem mem_partitionRows {cols : List Nat} {rows : List Tuple} {idxs : List Nat} :
    idxs ∈ partitionRows cols rows ↔ ∃ i < rows.length, idxs = partitionOf cols rows i := by
  obtain ⟨-, hmem⟩ := groupsBy_spec
    (fun i => rowKey (project cols (rows.getD i []))) (List.range rows.length)
  rw [partitionRows, List.mem_map]
  constructor
  · rintro ⟨⟨k, xs⟩, hk, rfl⟩
    obtain ⟨hkey, rfl⟩ := (hmem k xs).mp hk
    obtain ⟨i, hi, rfl⟩ := List.mem_map.mp hkey
    exact ⟨i, List.mem_range.mp hi, rfl⟩
  · rintro ⟨i, hi, rfl⟩
    exact ⟨(_, _), (hmem _ _).mpr ⟨List.mem_map_of_mem (List.mem_range.mpr hi), rfl⟩, rfl⟩

theorem nodup_flatten_partitionRows (cols : List Nat) (rows : List Tuple) :
    (partitionRows cols rows).flatten.Nodup := by
  obtain ⟨hnodup, hmem⟩ := groupsBy_spec
    (fun i => rowKey (project cols (rows.getD i []))) (List.range rows.length)
  rw [partitionRows, List.nodup_flatten]
  constructor
  · intro xs hxs
    obtain ⟨⟨k, ys⟩, hk, rfl⟩ := List.mem_map.mp hxs
    exact ((hmem k ys).mp hk).2 ▸ List.nodup_range.filter _
  · rw [List.pairwise_map]
    refine (List.pairwise_map.mp hnodup).imp_of_mem fun {g g'} hg hg' hne i hi hi' => hne ?_
    rw [((hmem g.1 g.2).mp hg).2] at hi
    rw [((hmem g'.1 g'.2).mp hg').2] at hi'
    exact (of_decide_eq_true (List.mem_filter.mp hi).2).symm.trans
      (of_decide_eq_true (List.mem_filter.mp hi').2)

namespace WindowExpr

variable {w : WindowExpr} {rows : List Tuple}

theorem sorted_perm (idxs : List Nat) : (w.sorted rows idxs).Perm idxs := by
  rw [sorted]
  split
  · exact .refl _
  · exact stableSort_perm _ _

theorem map_fst_assign (idxs : List Nat) :
    (w.assign rows idxs).map Prod.fst = w.sorted rows idxs := by
  rw [assign]
  split
  · rw [List.map_map]
    exact List.zipIdx_map_fst 0 _
  · split
    · rw [List.map_map]
      exact map_fst_rankLoop _ _ _ _ _
    · rw [List.map_map]
      exact List.map_id _

theorem length_values : (w.values rows).length = rows.length := by
  rw [values]
  generalize (partitionRows w.partitionBy rows).flatMap (w.assign rows) = entries
  have hset : ∀ (entries : List (Nat × Value)) (result : List Value),
      (entries.foldl (fun result e => result.set e.1 e.2) result).length = result.length := by
    intro entries
    induction entries with
    | nil => exact fun _ => rfl
    | cons e entries ih => exact fun result => (ih _).trans (List.length_set ..)
  rw [hset, List.length_replicate]

/-- What is written for a position of a partition is its value. -/
theorem getElem?_values {i : Nat} (hi : i < rows.length) {e : Nat × Value}
    (he : e ∈ w.assign rows (partitionOf w.partitionBy rows i)) :
    (w.values rows)[e.1]? = some e.2 := by
  have hperm : ((partitionRows w.partitionBy rows).flatMap (w.assign rows)).map Prod.fst |>.Perm
      (partitionRows w.partitionBy rows).flatten := by
    rw [List.map_flatMap]
    induction partitionRows w.partitionBy rows with
    | nil => exact .refl _
    | cons idxs parts ih =>
      rw [List.flatMap_cons, List.flatten_cons, map_fst_assign]
      exact (sorted_perm idxs).append ih
  refine getElem?_foldl_set (hperm.nodup_iff.mpr (nodup_flatten_partitionRows _ _)) ?_ _ ?_
  · exact List.mem_flatMap.mpr ⟨_, mem_partitionRows.mpr ⟨i, hi, rfl⟩, he⟩
  · have hmem : e.1 ∈ (w.assign rows (partitionOf w.partitionBy rows i)).map Prod.fst :=
      List.mem_map_of_mem he
    rw [map_fst_assign, (sorted_perm _).mem_iff] at hmem
    rw [List.length_replicate]
    exact List.mem_range.mp (List.mem_filter.mp hmem).1

theorem windowValue_of_lt (h : rows.length < 2 ^ 31) (i : Nat) :
    w.windowValue rows i = (w.values rows)[i]? := by
  have hint : (Int32.ofNat rows.length).toInt = rows.length := Int32.toInt_ofNat_of_lt h
  have hnonneg : ¬Int32.ofNat rows.length < 0 := by
    rw [Int32.lt_iff_toInt_lt, hint]
    simp
  rw [windowValue, windowValues, if_neg hnonneg, hint]
  simp

/-- With more rows than an `int` can count, one of them gets no value. -/
theorem exists_windowValue_eq_none (h : 2 ^ 31 ≤ rows.length) :
    ∃ i < rows.length, w.windowValue rows i = none := by
  have hlt := (Int32.ofNat rows.length).toInt_lt
  refine ⟨(Int32.ofNat rows.length).toInt.toNat, by omega, ?_⟩
  rw [windowValue, windowValues]
  split
  · rfl
  · rw [Option.bind_some, List.getElem?_eq_none_iff, length_values, List.length_take]
    omega

end WindowExpr

/-! ## Aggregates over a partition -/

/-- The running values, as `computeAggregate` has them. -/
def WindowSums.ofSums (t : Sums) (best : Value) : WindowSums :=
  { dsum := t.dsum, isum := t.isum, cnt := t.n, isFloat := t.isFloat, best := best }

theorem foldl_windowSums (name : String) (vals : List Value) (hvals : ∀ v ∈ vals, v.isNull = false)
    (t : Sums) (best : Value) :
    vals.foldl (WindowSums.add name) (.ofSums t best) =
      .ofSums (vals.foldl Sums.add t) (vals.foldl (pickBest name) best) := by
  induction vals generalizing t best with
  | nil => rfl
  | cons v vals ih =>
    have hadd : (WindowSums.ofSums t best).add name v =
        .ofSums (t.add v) (pickBest name best v) := by
      cases v with
      | null => exact absurd (hvals .null List.mem_cons_self) (by decide)
      | int n => rfl
      | double bits => rfl
      | bool b => simp [WindowSums.add, WindowSums.ofSums, Sums.add, Value.intValue]
      | text s => simp [WindowSums.add, WindowSums.ofSums, Sums.add, Value.intValue]
    rw [List.foldl_cons, List.foldl_cons, List.foldl_cons, hadd]
    exact ih (fun v hv => hvals v (List.mem_cons_of_mem _ hv)) _ _

theorem foldl_addRow (name : String) {col : Int} (hcol : 0 ≤ col) (rows : List Tuple)
    (s : WindowSums) :
    rows.foldl (fun s row => s.addRow name col row) s =
      (presentValues col rows).foldl (WindowSums.add name) s := by
  induction rows generalizing s with
  | nil => rfl
  | cons row rows ih =>
    rw [List.foldl_cons, ih]
    cases hnull : (valueAt row col).isNull with
    | true => simp [presentValues, WindowSums.addRow, Int.not_lt.mpr hcol, hnull]
    | false => simp [presentValues, WindowSums.addRow, Int.not_lt.mpr hcol, hnull]

theorem n_foldl_add (vals : List Value) (t : Sums) :
    (vals.foldl Sums.add t).n = t.n + Int64.ofNat vals.length := by
  induction vals generalizing t with
  | nil => simp
  | cons v vals ih =>
    have hn : (t.add v).n = t.n + 1 := by cases v <;> rfl
    rw [List.foldl_cons, ih, hn, List.length_cons, Int64.ofNat_add, show Int64.ofNat 1 = 1 from rfl,
      Int64.add_assoc, Int64.add_comm 1]

/-- What an aggregate over a partition makes of the values. -/
theorem result_eq_aggregateValues_iff {name : String}
    (hname : name ∈ ["COUNT", "SUM", "AVG", "MIN", "MAX"]) {vals : List Value}
    (hvals : ∀ v ∈ vals, v.isNull = false) (hlen : vals.length < 2 ^ 31) :
    (vals.foldl (WindowSums.add name) {}).result name = aggregateValues name vals ↔
      (name = "SUM" → vals ≠ []) := by
  have hfold : vals.foldl (WindowSums.add name) {} =
      .ofSums (vals.foldl Sums.add {}) (vals.foldl (pickBest name) .null) :=
    foldl_windowSums name vals hvals {} .null
  have hn : (vals.foldl Sums.add {}).n = Int64.ofNat vals.length :=
    (n_foldl_add vals {}).trans (Int64.zero_add _)
  have hzero : (vals.foldl Sums.add {}).n = 0 ↔ vals = [] := by
    have hint : (Int64.ofNat vals.length).toInt = vals.length :=
      Int64.toInt_ofNat_of_lt (by omega)
    rw [hn, ← Int64.toInt_inj, hint, Int64.toInt_zero]
    simp
  rw [hfold]
  simp only [List.mem_cons, List.not_mem_nil, or_false] at hname
  rcases hname with rfl | rfl | rfl | rfl | rfl
  · simp [WindowSums.result, aggregateValues, WindowSums.ofSums, hn]
  · have hgroup : aggregateValues "SUM" vals =
        if (vals.foldl Sums.add {}).n = 0 then .null
        else (WindowSums.ofSums (vals.foldl Sums.add {}) .null).result "SUM" := rfl
    rw [hgroup]
    by_cases hnil : vals = []
    · subst hnil
      exact iff_of_false (by rintro ⟨⟩) (by simp)
    · rw [if_neg (hzero.not.mpr hnil)]
      exact iff_of_true rfl fun _ => hnil
  · exact iff_of_true rfl fun h => absurd h (by decide)
  · exact iff_of_true rfl fun h => absurd h (by decide)
  · exact iff_of_true rfl fun h => absurd h (by decide)

theorem map_range_getD (rows : List Tuple) :
    (List.range rows.length).map (fun j => rows.getD j []) = rows :=
  List.ext_getElem (by simp) fun j _ hj => by simp [List.getElem?_eq_getElem hj]

/-- The rows of a partition are those of the group with its key. -/
theorem map_partitionOf (cols : List Nat) (rows : List Tuple) (i : Nat) :
    (partitionOf cols rows i).map (fun j => rows.getD j []) =
      rows.filter fun row =>
        rowKey (project cols row) = rowKey (project cols (rows.getD i [])) := by
  conv_rhs => rw [← map_range_getD rows, List.filter_map]
  rw [map_range_getD]
  rfl

section

variable {name : String} (hname : name ∈ ["COUNT", "SUM", "AVG", "MIN", "MAX"])
  {col : ColumnRef} (hcol : 0 ≤ col.columnIndex) (cols : List Nat) (rows : List Tuple)
include hname hcol

/-- The value of an aggregate at a row, from the values of the rows with its key. -/
theorem windowValue_aggregate (hlen : rows.length < 2 ^ 31) {i : Nat} (hi : i < rows.length)
    {group : List Tuple}
    (hgroup : group = rows.filter fun row =>
      rowKey (project cols row) = rowKey (project cols (rows.getD i []))) :
    WindowExpr.windowValue { name, argument := some col, partitionBy := cols } rows i =
      some (((presentValues col.columnIndex group).foldl (WindowSums.add name)
        {}).result name) := by
  let w : WindowExpr := { name, argument := some col, partitionBy := cols }
  have hself : i ∈ partitionOf cols rows i := by simp [partitionOf, hi]
  have hassign : w.assign rows (partitionOf cols rows i) =
      (partitionOf cols rows i).map fun j => (j, w.aggregate rows (partitionOf cols rows i)) := by
    simp only [List.mem_cons, List.not_mem_nil, or_false] at hname
    rcases hname with rfl | rfl | rfl | rfl | rfl <;> rfl
  have he : (i, w.aggregate rows (partitionOf cols rows i)) ∈
      w.assign rows (partitionOf cols rows i) := by
    rw [hassign]
    exact List.mem_map.mpr ⟨i, hself, rfl⟩
  have hfold : (partitionOf cols rows i).foldl
      (fun s j => WindowSums.addRow name col.columnIndex s (rows.getD j [])) {} =
      group.foldl (fun s row => s.addRow name col.columnIndex row) {} := by
    rw [hgroup, ← map_partitionOf, List.foldl_map]
  rw [WindowExpr.windowValue_of_lt hlen, WindowExpr.getElem?_values hi he, ← foldl_addRow name hcol,
    ← hfold]
  rfl

/-- The value of an aggregate over the partition of a row is the one of the group of the row,
for all rows, exactly if the rows can be counted in an `int` and no group has a SUM of nothing. -/
theorem windowAggregate_iff :
    (∀ i < rows.length, ∀ group,
      (rowKey (project cols (rows.getD i [])), group) ∈
        groupsBy (fun row => rowKey (project cols row)) rows →
      WindowExpr.windowValue { name, argument := some col, partitionBy := cols } rows i =
        some (computeAggregate { name, argument := some col } group)) ↔
    rows.length < 2 ^ 31 ∧
      (name = "SUM" → ∀ group ∈ groupRows cols rows,
        ∃ row ∈ group, (valueAt row col.columnIndex).isNull = false) := by
  obtain ⟨-, hmem⟩ := groupsBy_spec (fun row => rowKey (project cols row)) rows
  have hrow : ∀ i < rows.length, rows.getD i [] ∈ rows := fun i hi => by
    rw [List.getD_eq_getElem rows [] hi]
    exact List.getElem_mem hi
  have hcompute : ∀ group, computeAggregate { name, argument := some col } group =
      aggregateValues name (presentValues col.columnIndex group) := by
    intro group
    simp [computeAggregate]
  have hpresent : ∀ group : List Tuple, presentValues col.columnIndex group ≠ [] ↔
      ∃ row ∈ group, (valueAt row col.columnIndex).isNull = false := by
    intro group
    simp [presentValues, List.filter_eq_nil_iff]
  -- what the claim comes to for one row
  have hone : rows.length < 2 ^ 31 → ∀ i < rows.length, ∀ group,
      (rowKey (project cols (rows.getD i [])), group) ∈
        groupsBy (fun row => rowKey (project cols row)) rows →
      (WindowExpr.windowValue { name, argument := some col, partitionBy := cols } rows i =
        some (computeAggregate { name, argument := some col } group) ↔
      (name = "SUM" → ∃ row ∈ group, (valueAt row col.columnIndex).isNull = false)) := by
    intro hlen i hi group hgroup
    obtain ⟨-, hgroup⟩ := (hmem _ _).mp hgroup
    have hvals : ∀ v ∈ presentValues col.columnIndex group, v.isNull = false := fun v hv => by
      simpa using (List.mem_filter.mp hv).2
    have hshort : (presentValues col.columnIndex group).length < 2 ^ 31 := by
      refine lt_of_le_of_lt ?_ hlen
      calc (presentValues col.columnIndex group).length
          ≤ (group.map fun r => valueAt r col.columnIndex).length := List.length_filter_le ..
        _ = group.length := List.length_map ..
        _ ≤ rows.length := hgroup ▸ List.length_filter_le ..
    rw [windowValue_aggregate hname hcol cols rows hlen hi hgroup, hcompute, Option.some_inj,
      result_eq_aggregateValues_iff hname hvals hshort, hpresent]
  constructor
  · intro h
    have hlen : rows.length < 2 ^ 31 := by
      by_contra hge
      obtain ⟨i, hi, hnone⟩ := WindowExpr.exists_windowValue_eq_none (Nat.le_of_not_lt hge)
      have hgroup := (hmem _ _).mpr ⟨List.mem_map_of_mem (hrow i hi), rfl⟩
      cases hnone.symm.trans (h i hi _ hgroup)
    refine ⟨hlen, fun hsum group hgroup => ?_⟩
    obtain ⟨⟨k, xs⟩, hk, rfl⟩ := List.mem_map.mp hgroup
    obtain ⟨row, hrowmem, rfl⟩ := List.mem_map.mp ((hmem k xs).mp hk).1
    obtain ⟨i, hi, rfl⟩ := List.getElem_of_mem hrowmem
    rw [← List.getD_eq_getElem rows [] hi] at hk
    exact (hone hlen i hi xs hk).mp (h i hi xs hk) hsum
  · rintro ⟨hlen, hsums⟩ i hi group hgroup
    refine (hone hlen i hi group hgroup).mpr fun hsum => hsums hsum group ?_
    exact List.mem_map.mpr ⟨_, hgroup, rfl⟩

end

theorem windowAggregate_iff_avg :
    (∀ i < 2, ∀ group,
      (rowKey (project [0] ([[.int 1, .int 2], [.int 1, .null]].getD i [])), group) ∈
        groupsBy (fun row => rowKey (project [0] row)) [[.int 1, .int 2], [.int 1, .null]] →
      WindowExpr.windowValue ⟨"AVG", some ⟨"", "b", 1, false, false, .null⟩, [0], []⟩
          [[.int 1, .int 2], [.int 1, .null]] i =
        some (computeAggregate ⟨"AVG", false, false, some ⟨"", "b", 1, false, false, .null⟩⟩
          group)) ↔
    2 < 2 ^ 31 ∧
      ("AVG" = "SUM" → ∀ group ∈ groupRows [0] [[.int 1, .int 2], [.int 1, .null]],
        ∃ row ∈ group, (valueAt row 1).isNull = false) :=
  windowAggregate_iff (by decide) (by decide) [0] [[.int 1, .int 2], [.int 1, .null]]

/-- The SUM over a partition with nulls only is the integer zero, the one of a group is null. -/
theorem not_windowAggregate_sum :
    ¬∀ i < 1, ∀ group,
      (rowKey (project [0] ([[.int 1, .null]].getD i [])), group) ∈
        groupsBy (fun row => rowKey (project [0] row)) [[.int 1, .null]] →
      WindowExpr.windowValue ⟨"SUM", some ⟨"", "b", 1, false, false, .null⟩, [0], []⟩
          [[.int 1, .null]] i =
        some (computeAggregate ⟨"SUM", false, false, some ⟨"", "b", 1, false, false, .null⟩⟩
          group) := by
  intro h
  have hvalue := h 0 (by decide) [[.int 1, .null]] (by decide)
  revert hvalue
  decide +kernel

end Relite.Vm
