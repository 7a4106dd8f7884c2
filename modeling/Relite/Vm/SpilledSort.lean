import Relite.Lib.RunMerge
import Relite.Vm.Optimizer

/-!
# The spilling sort against the stable sort

The heap of the merge compares rows only, so rows with equal keys of different runs come out
in whatever order the heap has them. The external sort is the stable sort of the whole input
exactly where that does not show.
-/
namespace Relite.Vm
open Lib

/-! ## What comes back from a file -/

theorem length_padded (w : Nat) (fill : UInt8) (bytes : Bytes) :
    (padded w fill bytes).length = w := by
  rw [padded, List.length_take, List.length_append, List.length_replicate]
  omega

theorem ofLE_padded_lt (w : Nat) (fill : UInt8) (bytes : Bytes) :
    ofLE (padded w fill bytes) < 256 ^ w := by
  have hlt := ofLE_lt (padded w fill bytes)
  rwa [length_padded] at hlt

theorem text_length_of_decodeValue {bytes rest : Bytes} {s : Bytes}
    (h : decodeValue bytes = some (.text s, rest)) : s.length < 2 ^ 32 := by
  cases bytes with
  | nil => cases h
  | cons tag bytes =>
    rw [decodeValue] at h
    split at h <;> cases h
    rw [length_padded]
    exact ofLE_padded_lt 4 0 bytes

theorem decodeValues_bounds {n : Nat} {bytes rest : Bytes} {row : Tuple}
    (h : decodeValues n bytes = some (row, rest)) :
    row.length = n ∧ ∀ s, Value.text s ∈ row → s.length < 2 ^ 32 := by
  induction n generalizing bytes row with
  | zero =>
    cases h
    exact ⟨rfl, fun s hs => absurd hs List.not_mem_nil⟩
  | succ n ih =>
    simp only [decodeValues, bind, Option.bind_eq_some_iff] at h
    obtain ⟨⟨v, bytes'⟩, hv, ⟨row', rest'⟩, hrow, heq⟩ := h
    cases heq
    obtain ⟨hlen, htext⟩ := ih hrow
    refine ⟨congrArg (· + 1) hlen, fun s hs => ?_⟩
    rcases List.mem_cons.mp hs with rfl | hs
    · exact text_length_of_decodeValue hv
    · exact htext s hs

theorem spillable_of_decodeRow {bytes rest : Bytes} {row : Tuple}
    (h : decodeRow bytes = some (row, rest)) : Spillable row := by
  rw [decodeRow] at h
  split at h
  · cases h
  · obtain ⟨hlen, htext⟩ := decodeValues_bounds h
    exact ⟨hlen ▸ ofLE_padded_lt 4 0 bytes, htext⟩

/-- Only rows that fit the fields come back from a file. -/
theorem spillable_of_decodeRows {fuel : Nat} {bytes : Bytes} :
    ∀ row ∈ decodeRows fuel bytes, Spillable row := by
  induction fuel generalizing bytes with
  | zero => exact fun row hrow => absurd hrow List.not_mem_nil
  | succ fuel ih =>
    intro row hrow
    rw [decodeRows] at hrow
    split at hrow
    · cases hrow
    · rename_i hdecode
      rcases List.mem_cons.mp hrow with rfl | hrow
      · exact spillable_of_decodeRow hdecode
      · exact ih row hrow

/-! ## The external sort -/

section

variable {rows : List Tuple} {keyCols : List Nat} {ascending : List Bool} {memLimitRows : Nat}

theorem spillable_of_externalSort (heap : MergeHeap) (hspill : max memLimitRows 1 < rows.length) :
    ∀ row ∈ externalSort heap rows keyCols ascending memLimitRows, Spillable row := by
  intro row hrow
  rw [externalSort_of_lt heap keyCols ascending hspill] at hrow
  obtain ⟨run, hrun, hmem⟩ := List.mem_flatten.mp ((mergeRuns_perm _).mem_iff.mp hrow)
  obtain ⟨chunk, -, rfl⟩ := List.mem_map.mp hrun
  exact spillable_of_decodeRows row hmem

theorem mem_chunks {n : Nat} {chunk : List Tuple} (hchunk : chunk ∈ chunks n rows) :
    chunk ⊆ rows := by
  intro row hrow
  rw [← flatten_chunks n rows]
  exact List.mem_flatten.mpr ⟨chunk, hchunk, hrow⟩

theorem filter_sorted_runs {less : Tuple → Tuple → Bool} (h : OrderedOn less rows) (n : Nat) :
    ∀ c ∈ rows, ((chunks n rows).map (stableSort less)).flatten.filter (same less c) =
      rows.filter (same less c) := by
  intro c hc
  conv_rhs => rw [← flatten_chunks n rows]
  rw [List.filter_flatten, List.filter_flatten, List.map_map]
  congr 1
  refine List.map_congr_left fun chunk hchunk => ?_
  exact filter_same_stableSort (h.subset (List.cons_subset.mpr ⟨hc, mem_chunks hchunk⟩))

theorem tiesAgree_sorted_runs {less : Tuple → Tuple → Bool} (runs : List (List Tuple)) :
    TiesAgree less (runs.map (stableSort less)) ↔ TiesAgree less runs := by
  simp only [TiesAgree, List.pairwise_map, (stableSort_perm less _).mem_iff]

/-- Whatever the heap does with equal keys, the external sort yields what the stable sort of
the whole input does, exactly if the input fits in memory, or every row fits the fields of a run
file and rows with equal keys of different runs are the same. -/
theorem externalSort_eq_stableSort_iff (h : OrderedOn (rowLess keyCols ascending) rows) :
    (∀ heap : MergeHeap, externalSort heap rows keyCols ascending memLimitRows =
        stableSort (rowLess keyCols ascending) rows) ↔
      rows.length ≤ max memLimitRows 1 ∨ (∀ row ∈ rows, Spillable row) ∧
        TiesAgree (rowLess keyCols ascending) (chunks (max memLimitRows 1 - 1) rows) := by
  by_cases hfits : rows.length ≤ max memLimitRows 1
  · exact iff_of_true (fun heap => externalSort_of_le heap keyCols ascending hfits) (.inl hfits)
  have hlt : max memLimitRows 1 < rows.length := by omega
  have hruns := mergeRuns_eq_stableSort_iff (sorted_runs h (max memLimitRows 1 - 1))
    (flatten_sorted_runs _ _ rows) h (filter_sorted_runs h _)
  rw [tiesAgree_sorted_runs] at hruns
  rw [← hruns, or_iff_right hfits]
  constructor
  · intro hstable
    have hspill : ∀ row ∈ rows, Spillable row := by
      intro row hrow
      have hmem := (stableSort_perm (rowLess keyCols ascending) rows).mem_iff.mpr hrow
      rw [← hstable fun less => listQueue (frontierLess less)] at hmem
      exact spillable_of_externalSort _ hlt row hmem
    refine ⟨hspill, fun heap => ?_⟩
    classical
    let heaps : MergeHeap := fun less =>
      if hless : less = rowLess keyCols ascending then hless ▸ heap else listQueue _
    have heq : heaps (rowLess keyCols ascending) = heap := dif_pos rfl
    rw [← hstable heaps, externalSort_of_lt heaps keyCols ascending hlt, spilled_runs hspill, heq]
  · rintro ⟨hspill, hmerge⟩ heap
    rw [externalSort_of_lt heap keyCols ascending hlt, spilled_runs hspill]
    exact hmerge _

end

/-- Equal rows may lie in different runs. -/
theorem externalSort_eq_stableSort_repeated :
    externalSort (fun less => listQueue (frontierLess less)) [[.int 2], [.int 1], [.int 1]] [0]
        [true] 1 =
      stableSort (rowLess [0] [true]) [[.int 2], [.int 1], [.int 1]] := by
  have hordered : OrderedOn (rowLess [0] [true]) [[.int 2], [.int 1], [.int 1]] := by
    constructor <;> decide
  refine (externalSort_eq_stableSort_iff hordered).mpr (.inr ⟨?_, ?_⟩) _
  · intro row hrow
    have hrow : row.length = 1 ∧ ∀ s, .text s ∉ row := by
      revert row
      simp
    exact ⟨by omega, fun s hs => absurd hs (hrow.2 s)⟩
  · have hchunks : chunks 0 [[Value.int 2], [.int 1], [.int 1]] =
        [[[.int 2]], [[.int 1]], [[.int 1]]] := by
      rw [chunks, chunks, chunks, chunks]
      rfl
    rw [show max 1 1 - 1 = 0 from rfl, hchunks, TiesAgree]
    decide

/-- The queue that has the one of several least elements on top that came first. -/
def fifoQueue {α : Type} (less : α → α → Bool) : PriorityQueue less where
  State := List α
  elems q := q
  Heap _ := True
  empty := []
  push x q := q ++ [x]
  pop := popLeast less
  elems_empty := rfl
  elems_push x q := List.perm_append_singleton x q
  elems_none _ := popLeast_eq_none
  elems_pop _ _ _ := popLeast_perm
  heap_empty := trivial
  heap_push _ _ _ _ := trivial
  heap_pop _ _ _ _ _ _ := trivial
  least _ _ _ hordered _ h := least_of_popLeast hordered h

/-- Four rows with one key, two to a run: the heap alternates between the runs. -/
theorem externalSort_ne_stableSort :
    externalSort (fun less => fifoQueue (frontierLess less))
        [[.int 1, .int 1], [.int 1, .int 2], [.int 1, .int 3], [.int 1, .int 4]] [0] [true] 2 ≠
      stableSort (rowLess [0] [true])
        [[.int 1, .int 1], [.int 1, .int 2], [.int 1, .int 3], [.int 1, .int 4]] := by
  have hsorted : ∀ rows : List Tuple, (∀ row ∈ rows, row.getD 0 .null = .int 1) →
      stableSort (rowLess [0] [true]) rows = rows := by
    refine fun rows h => stableSort_of_sorted (List.pairwise_iff_getElem.mpr fun i j hi hj _ => ?_)
    simp only [rowLess, h _ (List.getElem_mem hi), h _ (List.getElem_mem hj)]
    rfl
  have hchunks : chunks 1 [[Value.int 1, .int 1], [.int 1, .int 2], [.int 1, .int 3],
      [.int 1, .int 4]] = [[[.int 1, .int 1], [.int 1, .int 2]], [[.int 1, .int 3],
        [.int 1, .int 4]]] := by
    rw [chunks, chunks, chunks]
    rfl
  rw [hsorted _ (by decide), externalSort_of_lt _ _ _ (by decide)]
  rw [show max 2 1 - 1 = 1 from rfl, hchunks, List.map_cons, List.map_cons, List.map_nil,
    hsorted _ (by decide), hsorted _ (by decide)]
  decide

end Relite.Vm
