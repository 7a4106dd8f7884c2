import Relite.Vm.ValueOrder
import Relite.Vm.Window

/-!
# Ranking windows

What ROW_NUMBER, RANK and DENSE_RANK should be in the partitions that the PARTITION BY
values make, and that they are so where the key of `runWindowQuery` tells these values
apart.
-/
namespace Relite.Vm
open Lib SortBy

/-- The three rankings that a window can ask for. -/
def rowNumbers (cols : List Nat) (orderBy : List OrderKey) : WindowExpr :=
  ⟨"ROW_NUMBER", none, cols, orderBy⟩

def ranks (cols : List Nat) (orderBy : List OrderKey) : WindowExpr := ⟨"RANK", none, cols, orderBy⟩

def denseRanks (cols : List Nat) (orderBy : List OrderKey) : WindowExpr :=
  ⟨"DENSE_RANK", none, cols, orderBy⟩

/-- A count as the value of a row. -/
def counted (n : Nat) : Option Value := some (.int (Int64.ofNat n))

/-- The rankings are right on the rows of a partition. -/
structure RankedOn (cols : List Nat) (orderBy : List OrderKey) (rows : List Tuple)
    (part : List Nat) : Prop where
  /-- The row numbers run from one on in an order that the keys allow. -/
  row_number : ∃ order : List Nat, order.Perm part ∧
    Sorted (fun a b => keyLess orderBy (rows.getD a []) (rows.getD b [])) order ∧
    order.map ((rowNumbers cols orderBy).windowValue rows) =
      (List.range order.length).map fun k => counted (k + 1)
  rank : ∀ i ∈ part, (ranks cols orderBy).windowValue rows i =
    counted (1 + (part.filter fun j => keyLess orderBy (rows.getD j []) (rows.getD i [])).length)
  dense_rank : ∀ i ∈ part, ∃ reps,
    Representatives (fun a b => keyLess orderBy (rows.getD a []) (rows.getD b []))
      (part.filter fun j => keyLess orderBy (rows.getD j []) (rows.getD i [])) reps ∧
    (denseRanks cols orderBy).windowValue rows i = counted (1 + reps.length)
  unordered : orderBy = [] → ∀ i ∈ part, (ranks cols orderBy).windowValue rows i = counted 1 ∧
    (denseRanks cols orderBy).windowValue rows i = counted 1

/-- The positions of the rows that have the PARTITION BY values of a row. -/
def valuePartition (cols : List Nat) (rows : List Tuple) (i : Nat) : List Nat :=
  (List.range rows.length).filter fun j =>
    project cols (rows.getD j []) = project cols (rows.getD i [])

/-! ## Ties -/

/-- Rows are in the same place when no key puts one before the other. -/
theorem sameOrder_eq_same (w : WindowExpr) (rows : List Tuple) (a b : Nat) :
    w.sameOrder rows a b = same (w.less rows) a b := by
  have hkeys : ∀ keys : List OrderKey, (keys.all fun key =>
      !(valueLess ((rows.getD a []).getD key.columnIndex .null)
          ((rows.getD b []).getD key.columnIndex .null) ||
        valueLess ((rows.getD b []).getD key.columnIndex .null)
          ((rows.getD a []).getD key.columnIndex .null))) =
      (!keyLess keys (rows.getD a []) (rows.getD b []) &&
        !keyLess keys (rows.getD b []) (rows.getD a [])) := by
    intro keys
    induction keys with
    | nil => rfl
    | cons key keys ih =>
      rw [List.all_cons, ih, keyLess, keyLess]
      generalize (rows.getD a []).getD key.columnIndex .null = va
      generalize (rows.getD b []).getD key.columnIndex .null = vb
      cases hab : valueLess va vb with
      | true => cases key.ascending <;> simp [valueLess_asymm hab]
      | false => cases hba : valueLess vb va <;> cases key.ascending <;> simp
  exact hkeys w.orderBy

/-! ## The partitions that the code makes -/

section

variable {cols : List Nat} {orderBy : List OrderKey} {rows : List Tuple}

theorem orderedOn_less (h : ∀ key ∈ orderBy, Tree.Ordered (keyValues key rows)) :
    OrderedOn (fun a b => keyLess orderBy (rows.getD a []) (rows.getD b []))
      (List.range rows.length) :=
  OrderedOn.map ((map_range_getD rows).symm ▸ orderedOn_keyLess h)

theorem sorted_eq (w : WindowExpr) (idxs : List Nat) :
    w.sorted rows idxs = stableSort (w.less rows) idxs := by
  obtain ⟨name, argument, partitionBy, orderBy⟩ := w
  cases orderBy with
  | nil => exact (stableSort_of_sorted (sorted_nil (fun i => rows.getD i []) _)).symm
  | cons key keys => rfl

theorem partitionOf_subset (i : Nat) : partitionOf cols rows i ⊆ List.range rows.length :=
  fun _ hj => (List.mem_filter.mp hj).1

/-- What is written for a partition is what its rows get. -/
theorem windowValue_assign {w : WindowExpr} (hlen : rows.length < 2 ^ 31) {i : Nat}
    (hi : i < rows.length) {e : Nat × Value}
    (he : e ∈ w.assign rows (partitionOf w.partitionBy rows i)) :
    w.windowValue rows e.1 = some e.2 :=
  (WindowExpr.windowValue_of_lt hlen e.1).trans (WindowExpr.getElem?_values hi he)

theorem map_windowValue_rowNumbers (hlen : rows.length < 2 ^ 31) {i : Nat} (hi : i < rows.length) :
    let order := (rowNumbers cols orderBy).sorted rows (partitionOf cols rows i)
    order.map ((rowNumbers cols orderBy).windowValue rows) =
      (List.range order.length).map fun k => counted (k + 1) := by
  intro order
  have hassign : (rowNumbers cols orderBy).assign rows (partitionOf cols rows i) =
      order.zipIdx.map fun e => (e.1, .int (Int64.ofNat (e.2 + 1))) := rfl
  have hvalues : order.map ((rowNumbers cols orderBy).windowValue rows) =
      order.zipIdx.map fun e => counted (e.2 + 1) := by
    conv_lhs => rw [← List.zipIdx_map_fst 0 order, List.map_map]
    refine List.map_congr_left fun e he => ?_
    refine windowValue_assign (e := (e.1, .int (Int64.ofNat (e.2 + 1)))) hlen hi ?_
    change _ ∈ (rowNumbers cols orderBy).assign rows (partitionOf cols rows i)
    rw [hassign]
    exact List.mem_map_of_mem he
  rw [hvalues, List.range_eq_range', ← List.zipIdx_map_snd, List.map_map]
  rfl

/-- The counters of the loop for RANK and DENSE_RANK. -/
theorem exists_ranked (h : ∀ key ∈ orderBy, Tree.Ordered (keyValues key rows))
    (hlen : rows.length < 2 ^ 31) {i : Nat} (hi : i < rows.length) {w : WindowExpr}
    (hcols : w.partitionBy = cols) (horder : w.orderBy = orderBy)
    (hname : w.name = "RANK" ∨ w.name = "DENSE_RANK") {j : Nat} (hj : j ∈ partitionOf cols rows i) :
    ∃ counters, Ranked (fun a b => keyLess orderBy (rows.getD a []) (rows.getD b []))
        (partitionOf cols rows i) j counters ∧
      w.windowValue rows j = counted (if w.name = "RANK" then counters.1 else counters.2) := by
  subst hcols horder
  have hsubset : partitionOf w.partitionBy rows i ⊆ List.range rows.length := partitionOf_subset i
  have hordered := (orderedOn_less h).subset hsubset
  have hperm : (w.sorted rows (partitionOf w.partitionBy rows i)).Perm _ := w.sorted_perm _
  have hsorted : Sorted (w.less rows) (w.sorted rows (partitionOf w.partitionBy rows i)) :=
    sorted_eq w _ ▸ sorted_stableSort hordered
  have htied : w.sameOrder rows = same (w.less rows) :=
    funext fun a => funext fun b => sameOrder_eq_same w rows a b
  have hassign : w.assign rows (partitionOf w.partitionBy rows i) =
      (rankLoop (same (w.less rows)) 0 none (0, 0)
        (w.sorted rows (partitionOf w.partitionBy rows i))).map fun e =>
          (e.1, .int (Int64.ofNat (if w.name = "RANK" then e.2.1 else e.2.2))) := by
    rw [WindowExpr.assign, if_neg (by rcases hname with h | h <;> rw [h] <;> decide),
      if_pos hname, htied]
  have hmem : j ∈ (rankLoop (same (w.less rows)) 0 none (0, 0)
      (w.sorted rows (partitionOf w.partitionBy rows i))).map Prod.fst := by
    rw [map_fst_rankLoop]
    exact hperm.mem_iff.mpr hj
  obtain ⟨e, he, rfl⟩ := List.mem_map.mp hmem
  have hranked := rankLoop_start (hordered.subset hperm.subset) hsorted e he
  refine ⟨e.2, hranked.congr hperm, ?_⟩
  refine windowValue_assign
    (e := (e.1, .int (Int64.ofNat (if w.name = "RANK" then e.2.1 else e.2.2)))) hlen hi ?_
  rw [hassign]
  exact List.mem_map_of_mem he

/-- The rankings are right on the partitions that the code makes. -/
theorem rankedOn_partitionOf (h : ∀ key ∈ orderBy, Tree.Ordered (keyValues key rows))
    (hlen : rows.length < 2 ^ 31) {i : Nat} (hi : i < rows.length) :
    RankedOn cols orderBy rows (partitionOf cols rows i) := by
  have hsubset : partitionOf cols rows i ⊆ List.range rows.length := partitionOf_subset i
  have hordered := (orderedOn_less h).subset hsubset
  have hrank : ∀ j ∈ partitionOf cols rows i, (ranks cols orderBy).windowValue rows j =
      counted (1 + ((partitionOf cols rows i).filter fun k =>
        keyLess orderBy (rows.getD k []) (rows.getD j [])).length) := by
    intro j hj
    obtain ⟨counters, hranked, hvalue⟩ :=
      exists_ranked (w := ranks cols orderBy) h hlen hi rfl rfl (.inl rfl) hj
    exact hvalue.trans (congrArg counted ((if_pos rfl).trans hranked.rank))
  have hdense : ∀ j ∈ partitionOf cols rows i, ∃ reps,
      Representatives (fun a b => keyLess orderBy (rows.getD a []) (rows.getD b []))
        ((partitionOf cols rows i).filter fun k =>
          keyLess orderBy (rows.getD k []) (rows.getD j [])) reps ∧
      (denseRanks cols orderBy).windowValue rows j = counted (1 + reps.length) := by
    intro j hj
    obtain ⟨counters, hranked, hvalue⟩ :=
      exists_ranked (w := denseRanks cols orderBy) h hlen hi rfl rfl (.inr rfl) hj
    obtain ⟨reps, hreps, hcount⟩ := hranked.dense
    have hname : ¬"DENSE_RANK" = "RANK" := by decide
    exact ⟨reps, hreps, hvalue.trans (congrArg counted ((if_neg hname).trans hcount))⟩
  refine ⟨⟨_, WindowExpr.sorted_perm _, ?_, map_windowValue_rowNumbers hlen hi⟩, hrank, hdense, ?_⟩
  · rw [sorted_eq]
    exact sorted_stableSort hordered
  · rintro rfl j hj
    have hnone : ((partitionOf cols rows i).filter fun k =>
        keyLess [] (rows.getD k []) (rows.getD j [])) = [] :=
      List.filter_eq_nil_iff.mpr fun _ _ => Bool.false_ne_true
    obtain ⟨reps, hreps, hvalue⟩ := hdense j hj
    rw [hnone] at hreps
    obtain rfl := List.subset_nil.mp hreps.subset
    exact ⟨(hrank j hj).trans (by rw [hnone]; rfl), hvalue⟩

/-! ## The partitions that the values make -/

theorem counted_inj {m n : Nat} (hm : m < 2 ^ 63) (hn : n < 2 ^ 63) (h : counted m = counted n) :
    m = n := by
  have hint := congrArg Int64.toInt (Value.int.inj (Option.some.inj h))
  rwa [Int64.toInt_ofNat_of_lt hm, Int64.toInt_ofNat_of_lt hn, Nat.cast_inj] at hint

theorem mem_valuePartition_self {i : Nat} (hi : i < rows.length) :
    i ∈ valuePartition cols rows i :=
  List.mem_filter.mpr ⟨List.mem_range.mpr hi, by simp⟩

theorem valuePartition_eq (happart : ToldApart (rows.map (project cols))) {i : Nat}
    (hi : i < rows.length) : valuePartition cols rows i = partitionOf cols rows i := by
  have hinj := (injOn_rowKey_iff length_of_mem_project).mpr happart
  have hmem : ∀ j < rows.length, project cols (rows.getD j []) ∈ rows.map (project cols) := by
    intro j hj
    rw [List.getD_eq_getElem rows [] hj]
    exact List.mem_map_of_mem (List.getElem_mem hj)
  refine List.filter_congr fun j hj => ?_
  rw [decide_eq_decide]
  exact ⟨congrArg rowKey, hinj (hmem j (List.mem_range.mp hj)) (hmem i hi)⟩

/-- The first row of a partition that is numbered rightly has the number one. -/
theorem RankedOn.exists_one {part : List Nat} (h : RankedOn cols orderBy rows part) {i : Nat}
    (hi : i ∈ part) : ∃ a ∈ part, (rowNumbers cols orderBy).windowValue rows a = counted 1 := by
  obtain ⟨order, hperm, -, hnumbers⟩ := h.row_number
  cases order with
  | nil => cases hperm.symm.mem_iff.mp hi
  | cons a order =>
    refine ⟨a, hperm.mem_iff.mp List.mem_cons_self, ?_⟩
    rw [List.length_cons, List.range_succ_eq_map] at hnumbers
    exact (List.cons.inj hnumbers).1

/-- Only one row of a partition that the code makes has the number one. -/
theorem eq_of_number_one (h : ∀ key ∈ orderBy, Tree.Ordered (keyValues key rows))
    (hlen : rows.length < 2 ^ 31) {i a b : Nat} (hi : i < rows.length)
    (ha : a ∈ partitionOf cols rows i) (hb : b ∈ partitionOf cols rows i)
    (hone : (rowNumbers cols orderBy).windowValue rows a = counted 1)
    (hone' : (rowNumbers cols orderBy).windowValue rows b = counted 1) : a = b := by
  have hranked : RankedOn cols orderBy rows (partitionOf cols rows i) :=
    rankedOn_partitionOf h hlen hi
  obtain ⟨order, hperm, -, hnumbers⟩ := hranked.row_number
  have hshort : order.length < 2 ^ 31 := by
    refine lt_of_le_of_lt ?_ hlen
    rw [hperm.length_eq]
    exact (List.length_filter_le ..).trans (List.length_range ..).le
  have hfirst : ∀ c ∈ order, (rowNumbers cols orderBy).windowValue rows c = counted 1 →
      order[0]? = some c := by
    intro c hc hcone
    obtain ⟨k, hk, rfl⟩ := List.getElem_of_mem hc
    have hkth := congrArg (·[k]?) hnumbers
    simp only [List.getElem?_map, List.getElem?_eq_getElem hk, Option.map_some,
      List.getElem?_range hk, hcone, Option.some_inj] at hkth
    have hzero := counted_inj (by omega) (by omega) hkth
    obtain rfl : k = 0 := by omega
    exact List.getElem?_eq_getElem hk
  have hsame := (hfirst a (hperm.mem_iff.mpr ha) hone).symm.trans
    (hfirst b (hperm.mem_iff.mpr hb) hone')
  exact Option.some.inj hsame

/-- The rankings are right, in the partitions that the PARTITION BY values make, exactly if
the rows can be counted in an `int` and the key tells the PARTITION BY values apart. -/
theorem rankings_iff (cols : List Nat) (orderBy : List OrderKey) (rows : List Tuple)
    (h : ∀ key ∈ orderBy, Tree.Ordered (keyValues key rows)) :
    (∀ i < rows.length, RankedOn cols orderBy rows (valuePartition cols rows i)) ↔
      rows.length < 2 ^ 31 ∧ ToldApart (rows.map (project cols)) := by
  constructor
  · intro hranked
    have hlen : rows.length < 2 ^ 31 := by
      by_contra hge
      obtain ⟨i, hi, hnone⟩ := WindowExpr.exists_windowValue_eq_none
        (w := ranks cols orderBy) (Nat.le_of_not_lt hge)
      cases hnone.symm.trans ((hranked i hi).rank i (mem_valuePartition_self hi))
    refine ⟨hlen, (injOn_rowKey_iff length_of_mem_project).mp ?_⟩
    intro r hr s hs hkey
    obtain ⟨row, hrow, rfl⟩ := List.mem_map.mp hr
    obtain ⟨row', hrow', rfl⟩ := List.mem_map.mp hs
    obtain ⟨i, hi, rfl⟩ := List.getElem_of_mem hrow
    obtain ⟨j, hj, rfl⟩ := List.getElem_of_mem hrow'
    rw [← List.getD_eq_getElem rows [] hi, ← List.getD_eq_getElem rows [] hj] at hkey ⊢
    -- both partitions have a row of number one, in the one partition that the code makes
    obtain ⟨a, ha, hone⟩ := (hranked i hi).exists_one (mem_valuePartition_self hi)
    obtain ⟨b, hb, hone'⟩ := (hranked j hj).exists_one (mem_valuePartition_self hj)
    obtain ⟨hain, haeq⟩ := List.mem_filter.mp ha
    obtain ⟨hbin, hbeq⟩ := List.mem_filter.mp hb
    have haeq := of_decide_eq_true haeq
    have hbeq := of_decide_eq_true hbeq
    have hab : a = b := by
      refine eq_of_number_one h hlen hi (List.mem_filter.mpr ⟨hain, ?_⟩)
        (List.mem_filter.mpr ⟨hbin, ?_⟩) hone hone'
      · exact decide_eq_true (congrArg rowKey haeq)
      · exact decide_eq_true ((congrArg rowKey hbeq).trans hkey.symm)
    rw [← haeq, ← hbeq, hab]
  · rintro ⟨hlen, happart⟩ i hi
    rw [valuePartition_eq happart hi]
    exact rankedOn_partitionOf h hlen hi

end

theorem rankings_iff_ints :
    (∀ i < 3, RankedOn [0] [⟨1, true⟩] [[.int 1, .int 5], [.int 2, .int 5], [.int 1, .int 5]]
      (valuePartition [0] [[.int 1, .int 5], [.int 2, .int 5], [.int 1, .int 5]] i)) ↔
    3 < 2 ^ 31 ∧
      ToldApart ([[.int 1, .int 5], [.int 2, .int 5], [.int 1, .int 5]].map (project [0])) :=
  rankings_iff [0] [⟨1, true⟩] [[.int 1, .int 5], [.int 2, .int 5], [.int 1, .int 5]]
    fun key hkey => by
      obtain rfl := List.mem_singleton.mp hkey
      decide

/-- Two partitions of one row each, by two columns of text whose values run into each other,
are numbered as one. -/
theorem not_rankings :
    ¬∀ (cols : List Nat) (orderBy : List OrderKey) (rows : List Tuple),
      (∀ key ∈ orderBy, Tree.Ordered (keyValues key rows)) →
      ∀ i < rows.length, RankedOn cols orderBy rows (valuePartition cols rows i) := by
  intro h
  let rows : List Tuple := [[.text (ascii "a\x1e3:b"), .text (ascii "c")],
    [.text (ascii "a"), .text (ascii "b\x1e3:c")]]
  obtain ⟨order, hperm, -, hnumbers⟩ := (h [0, 1] [] rows nofun 1 (by decide)).row_number
  have hpart : valuePartition [0, 1] rows 1 = [1] := by decide +kernel
  rw [hpart, List.perm_singleton] at hperm
  subst hperm
  revert hnumbers
  decide +kernel

end Relite.Vm
