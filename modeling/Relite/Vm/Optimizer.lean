import Relite.Lib.SortMerge
import Relite.Vm.Tuple

/-!
# Sorting and joining large inputs

The cost model, the external merge sort, which spills sorted runs to files once there are
more rows than fit the limit, and the sort-merge join on top of it.
-/
namespace Relite.Vm
open Lib

inductive JoinAlgorithm
  | NestedLoop
  | Hash
  | Merge
  deriving DecidableEq

/-- `CostModel::chooseEquiJoin`. -/
def chooseEquiJoin (leftRows rightRows : Nat) (hashBuildBudget : Nat := 10000) : JoinAlgorithm :=
  if min leftRows rightRows ≤ hashBuildBudget then .Hash else .Merge

def rowLess : List Nat → List Bool → Tuple → Tuple → Bool
  | [], _, _, _ => false
  | c :: cols, ascending, a, b =>
    let asc := ascending.headD true
    let va := a.getD c .null
    let vb := b.getD c .null
    if valueLess va vb then asc
    else if valueLess vb va then !asc
    else rowLess cols ascending.tail a b

/-! ## Rows in a file -/

def encodeValue (v : Value) : Bytes :=
  UInt8.ofNat v.typeCode ::
    match v with
    | .int n => toLE 8 n.toUInt64.toNat
    | .double bits => toLE 8 bits.toNat
    | .bool b => [if b then 1 else 0]
    | .text s => toLE 4 s.length ++ s
    | .null => []

def encodeRow (row : Tuple) : Bytes := toLE 4 row.length ++ row.flatMap encodeValue

/-- The next `w` bytes of a file, and `fill` in place of each one past its end. -/
def padded (w : Nat) (fill : UInt8) (bytes : Bytes) : Bytes :=
  (bytes ++ List.replicate w fill).take w

/-- One pass of the loop of `decodeRow`. The end of the file reads as the byte 255 in a
number and leaves a text with zeros. -/
def decodeValue : Bytes → Option (Value × Bytes)
  | [] => none
  | tag :: rest =>
    match tag.toNat with
    | 1 => some (.int (UInt64.ofNat (ofLE (padded 8 255 rest))).toInt64, rest.drop 8)
    | 2 => some (.bool (padded 1 255 rest != [0]), rest.drop 1)
    | 3 =>
      let len := ofLE (padded 4 0 rest)
      some (.text (padded len 0 (rest.drop 4)), rest.drop (4 + len))
    | 4 => some (.double (UInt64.ofNat (ofLE (padded 8 255 rest))), rest.drop 8)
    | _ => some (.null, rest)

def decodeValues : Nat → Bytes → Option (Tuple × Bytes)
  | 0, bytes => some ([], bytes)
  | n + 1, bytes => do
    let (v, bytes) ← decodeValue bytes
    let (row, bytes) ← decodeValues n bytes
    return (v :: row, bytes)

def decodeRow (bytes : Bytes) : Option (Tuple × Bytes) :=
  if bytes.isEmpty then none else decodeValues (ofLE (padded 4 0 bytes)) (bytes.drop 4)

/-- The rows that `decodeRow` yields until it fails, `fuel` at most. -/
def decodeRows : Nat → Bytes → List Tuple
  | 0, _ => []
  | fuel + 1, bytes =>
    match decodeRow bytes with
    | none => []
    | some (row, bytes) => row :: decodeRows fuel bytes

/-- A run as it comes back from its file. -/
def spilled (run : List Tuple) : List Tuple :=
  let file := run.flatMap encodeRow
  decodeRows file.length file

/-! ## The external sort -/

def chunks (n : Nat) (rows : List Tuple) : List (List Tuple) :=
  if h : rows = [] then [] else rows.take (n + 1) :: chunks n (rows.drop (n + 1))
termination_by rows.length
decreasing_by
  have := List.length_pos_iff.mpr h
  rw [List.length_drop]
  omega

/-- A priority queue for the frontiers of the merge, whatever the comparison. -/
abbrev MergeHeap := (less : Tuple → Tuple → Bool) → PriorityQueue (frontierLess less)

def externalSort (heap : MergeHeap) (rows : List Tuple) (keyCols : List Nat) (ascending : List Bool)
    (memLimitRows : Nat) : List Tuple :=
  let less := rowLess keyCols ascending
  let limit := if memLimitRows = 0 then 1 else memLimitRows
  if rows.length ≤ limit then stableSort less rows
  else
    mergeRuns (heap less) ((chunks (limit - 1) rows).map fun run => spilled (stableSort less run))

def mergeJoinInner (heap : MergeHeap) (left : List Tuple) (leftKey : Nat) (right : List Tuple)
    (rightKey : Nat) (memLimitRows : Nat := 100000) : List Tuple :=
  let left := externalSort heap left [leftKey] [true] memLimitRows
  let right := externalSort heap right [rightKey] [true] memLimitRows
  let pairs := mergeJoin valueLess Value.isNull (fun l => l.getD leftKey .null)
    (fun r => r.getD rightKey .null) left right
  pairs.map fun p => p.1 ++ p.2

/-! ## What a file gives back -/

/-- The lengths of the row and its texts fit their fields. -/
structure Spillable (row : Tuple) : Prop where
  width : row.length < 2 ^ 32
  text : ∀ s, Value.text s ∈ row → s.length < 2 ^ 32

theorem lt_of_readLE {w : Nat} {what : String} {bytes rest : Bytes} {n : Nat}
    (h : Tuple.readLE w what bytes = .ok (n, rest)) : n < 256 ^ w := by
  rw [Tuple.readLE] at h
  split at h
  · cases h
  · cases h
    refine (ofLE_lt (bytes.take w)).trans_le (Nat.pow_le_pow_right (by decide) ?_)
    rw [List.length_take]
    exact Nat.min_le_left w _

theorem text_length_of_readField {d : DataType} {bytes rest : Bytes} {v : Value}
    (h : Tuple.readField d bytes = .ok (v, rest)) : ∀ s, v = .text s → s.length < 2 ^ 32 := by
  rintro s rfl
  cases d with
  | Bool => cases bytes <;> cases h
  | Int | Float =>
    simp only [Tuple.readField, bind, Except.bind, pure, Except.pure] at h
    split at h <;> cases h
  | Text | Varchar | Date | Timestamp =>
    simp only [Tuple.readField, bind, Except.bind, pure, Except.pure] at h
    split at h
    · cases h
    rename_i heq
    split at h
    · cases h
    · cases h
      rw [List.length_take]
      exact (Nat.min_le_left _ _).trans_lt (lt_of_readLE heq)

theorem text_length_of_readFields {nulls : Nat → Bool} {schema : Schema} :
    ∀ {i : Nat} {bytes : Bytes} {row : Tuple}, Tuple.readFields nulls i schema bytes = .ok row →
      ∀ s, Value.text s ∈ row → s.length < 2 ^ 32 := by
  induction schema with
  | nil =>
    rintro i bytes row h s hs
    cases h
    cases hs
  | cons d ds ih =>
    intro i bytes row h s hs
    simp only [Tuple.readFields, bind, Except.bind, pure, Except.pure] at h
    split at h <;> split at h
    · cases h
    · rename_i values hvalues
      cases h
      rcases List.mem_cons.mp hs with hs | hs
      · cases hs
      · exact ih hvalues s hs
    · cases h
    · rename_i field hfield
      split at h
      · cases h
      rename_i values hvalues
      cases h
      rcases List.mem_cons.mp hs with hs | hs
      · exact text_length_of_readField hfield s hs.symm
      · exact ih hvalues s hs

/-- Whatever is read from a record fits the fields of a run file. -/
theorem spillable_of_deserialize {bytes : Bytes} {schema : Schema} {row : Tuple}
    (h : Tuple.deserialize bytes schema = .ok row) (hlen : bytes.length < 2 ^ 29) :
    Spillable row := by
  have hwidth := Tuple.length_deserialize h
  rw [Tuple.deserialize] at h
  split at h
  · cases h
  · rename_i hbitmap
    rw [Tuple.bitmapBytes] at hbitmap
    exact ⟨by omega, text_length_of_readFields h⟩

theorem padded_append {w : Nat} {bytes : Bytes} (h : bytes.length = w) (fill : UInt8)
    (rest : Bytes) : padded w fill (bytes ++ rest) = bytes := by
  rw [padded, List.append_assoc, List.take_left' h]

theorem decodeValue_encodeValue {v : Value} (h : ∀ s, v = .text s → s.length < 2 ^ 32)
    (rest : Bytes) : decodeValue (encodeValue v ++ rest) = some (v, rest) := by
  have hint : ∀ n : UInt64, ofLE (toLE 8 n.toNat) = n.toNat := fun n => by
    rw [ofLE_toLE, Nat.mod_eq_of_lt (show n.toNat < 256 ^ 8 from n.toNat_lt)]
  have hpad := fun (n : Nat) (fill : UInt8) (rest : Bytes) =>
    padded_append (length_toLE 8 n) fill rest
  cases v with
  | null => rfl
  | int n =>
    simp [encodeValue, decodeValue, Value.typeCode, hpad, hint, List.drop_left']
  | bool b => cases b <;> rfl
  | text s =>
    have hlen : ofLE (toLE 4 s.length) = s.length := by
      rw [ofLE_toLE, Nat.mod_eq_of_lt (show s.length < 256 ^ 4 from h s rfl)]
    have hpad4 := padded_append (length_toLE 4 s.length) 0 (s ++ rest)
    have hdrop : (toLE 4 s.length ++ (s ++ rest)).drop 4 = s ++ rest :=
      List.drop_left' (length_toLE 4 _)
    have hdrop' : (toLE 4 s.length ++ (s ++ rest)).drop (4 + s.length) = rest := by
      rw [← List.drop_drop, hdrop, List.drop_left' rfl]
    simp only [encodeValue, decodeValue, Value.typeCode, List.cons_append, List.append_assoc,
      hpad4, hlen, hdrop, hdrop', padded_append rfl 0 rest]
    rfl
  | double bits =>
    simp [encodeValue, decodeValue, Value.typeCode, hpad, hint, List.drop_left']

theorem decodeValues_encode {row : Tuple} (h : ∀ s, Value.text s ∈ row → s.length < 2 ^ 32)
    (rest : Bytes) :
    decodeValues row.length (row.flatMap encodeValue ++ rest) = some (row, rest) := by
  induction row with
  | nil => rfl
  | cons v row ih =>
    have hv := decodeValue_encodeValue (fun s hs => h s (hs ▸ List.mem_cons_self))
      (row.flatMap encodeValue ++ rest)
    have hrow := ih fun s hs => h s (List.mem_cons_of_mem v hs)
    rw [List.flatMap_cons, List.append_assoc, List.length_cons, decodeValues, hv]
    simp [hrow]

theorem decodeRow_encodeRow {row : Tuple} (h : Spillable row) (rest : Bytes) :
    decodeRow (encodeRow row ++ rest) = some (row, rest) := by
  have hlen := length_toLE 4 row.length
  have hne : (encodeRow row ++ rest).isEmpty = false := by
    rw [List.isEmpty_eq_false_iff, ne_eq, ← List.length_eq_zero_iff]
    simp only [encodeRow, List.length_append, hlen]
    omega
  rw [decodeRow, hne, if_neg (by simp), encodeRow, List.append_assoc, padded_append hlen,
    ofLE_toLE, Nat.mod_eq_of_lt (show row.length < 256 ^ 4 from h.width), List.drop_left' hlen]
  exact decodeValues_encode h.text rest

theorem decodeRows_encode {rows : List Tuple} (h : ∀ row ∈ rows, Spillable row) {fuel : Nat}
    (hfuel : rows.length ≤ fuel) : decodeRows fuel (rows.flatMap encodeRow) = rows := by
  induction rows generalizing fuel with
  | nil => cases fuel <;> rfl
  | cons row rows ih =>
    obtain ⟨fuel, rfl⟩ : ∃ n, fuel = n + 1 := ⟨fuel - 1, by simp at hfuel; omega⟩
    rw [List.flatMap_cons, decodeRows, decodeRow_encodeRow (h row List.mem_cons_self)]
    simp only
    rw [ih (fun r hr => h r (List.mem_cons_of_mem row hr)) (by simpa using hfuel)]

theorem spilled_eq {run : List Tuple} (h : ∀ row ∈ run, Spillable row) : spilled run = run := by
  refine decodeRows_encode h ?_
  clear h
  induction run with
  | nil => rfl
  | cons row run ih =>
    simp only [List.flatMap_cons, List.length_append, encodeRow, length_toLE, List.length_cons]
    omega

/-! ## What the external sort yields -/

theorem flatten_chunks (n : Nat) (rows : List Tuple) : (chunks n rows).flatten = rows := by
  fun_induction chunks n rows with
  | case1 => rfl
  | case2 rows h ih => rw [List.flatten_cons, ih, List.take_append_drop]

theorem flatten_map_perm {f : List Tuple → List Tuple} (runs : List (List Tuple))
    (h : ∀ run ∈ runs, (f run).Perm run) : (runs.map f).flatten.Perm runs.flatten := by
  rw [← List.flatMap_def, ← List.flatMap_id]
  exact List.Perm.flatMap_left runs h

section

variable (heap : MergeHeap) {rows : List Tuple} (keyCols : List Nat) (ascending : List Bool)

theorem spilled_runs (hspill : ∀ row ∈ rows, Spillable row) (less : Tuple → Tuple → Bool)
    (n : Nat) :
    (chunks n rows).map (fun run => spilled (stableSort less run)) =
      (chunks n rows).map (stableSort less) := by
  refine List.map_congr_left fun run hrun => spilled_eq fun row hrow => hspill row ?_
  rw [← flatten_chunks n rows]
  exact List.mem_flatten.mpr ⟨run, hrun, (stableSort_perm less run).mem_iff.mp hrow⟩

/-- The rows are few enough to be sorted in memory, or their lengths fit the fields of a run
file. -/
def Sortable (memLimitRows : Nat) (rows : List Tuple) : Prop :=
  rows.length ≤ max memLimitRows 1 ∨ ∀ row ∈ rows, Spillable row

variable {memLimitRows : Nat}

theorem externalSort_of_le (h : rows.length ≤ max memLimitRows 1) :
    externalSort heap rows keyCols ascending memLimitRows =
      stableSort (rowLess keyCols ascending) rows := by
  rw [externalSort]
  exact if_pos (by split <;> omega)

theorem externalSort_of_lt (h : max memLimitRows 1 < rows.length) :
    let less := rowLess keyCols ascending
    externalSort heap rows keyCols ascending memLimitRows =
      mergeRuns (heap less)
        ((chunks (max memLimitRows 1 - 1) rows).map fun run => spilled (stableSort less run)) := by
  have hlimit : (if memLimitRows = 0 then 1 else memLimitRows) = max memLimitRows 1 := by
    split <;> omega
  simp only [externalSort, hlimit]
  exact if_neg (by omega)

/-- The two ways of `externalSort`. -/
theorem externalSort_cases (hsort : Sortable memLimitRows rows) :
    let less := rowLess keyCols ascending
    externalSort heap rows keyCols ascending memLimitRows = stableSort less rows ∨
      externalSort heap rows keyCols ascending memLimitRows =
        mergeRuns (heap less) ((chunks (max memLimitRows 1 - 1) rows).map (stableSort less)) := by
  by_cases hfits : rows.length ≤ max memLimitRows 1
  · exact .inl (externalSort_of_le heap keyCols ascending hfits)
  · refine .inr ((externalSort_of_lt heap keyCols ascending (by omega)).trans ?_)
    rw [spilled_runs (hsort.resolve_left hfits)]

theorem flatten_sorted_runs (less : Tuple → Tuple → Bool) (n : Nat) (rows : List Tuple) :
    ((chunks n rows).map (stableSort less)).flatten.Perm rows := by
  have hperm := flatten_map_perm (f := stableSort less) (chunks n rows) fun run _ =>
    stableSort_perm less run
  rwa [flatten_chunks] at hperm

theorem externalSort_perm (hsort : Sortable memLimitRows rows) :
    (externalSort heap rows keyCols ascending memLimitRows).Perm rows := by
  rcases externalSort_cases heap keyCols ascending hsort with heq | heq
  · rw [heq]
    exact stableSort_perm _ rows
  · rw [heq]
    exact (mergeRuns_perm _).trans (flatten_sorted_runs _ _ rows)

theorem sorted_runs {less : Tuple → Tuple → Bool} (h : OrderedOn less rows) (n : Nat) :
    ∀ run ∈ (chunks n rows).map (stableSort less), Sorted less run := by
  refine List.forall_mem_map.mpr fun chunk hchunk => sorted_stableSort (h.subset fun row hrow => ?_)
  rw [← flatten_chunks n rows]
  exact List.mem_flatten.mpr ⟨chunk, hchunk, hrow⟩

theorem sorted_externalSort (hsort : Sortable memLimitRows rows)
    (h : OrderedOn (rowLess keyCols ascending) rows) :
    Sorted (rowLess keyCols ascending) (externalSort heap rows keyCols ascending memLimitRows) := by
  rcases externalSort_cases heap keyCols ascending hsort with heq | heq
  · rw [heq]
    exact sorted_stableSort h
  · rw [heq]
    exact sorted_mergeRuns (sorted_runs h _) (h.subset fun row hrow =>
      (flatten_sorted_runs _ _ rows).mem_iff.mp hrow)

end

end Relite.Vm
