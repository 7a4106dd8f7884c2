import Relite.Vm.ExpressionEval
import Relite.Vm.IndexAgreement

/-!
# Access paths

`indexCandidates` looks for an index that answers a WHEN clause, and `gatherRows` then reads
the rows that it leads to instead of all rows. An access path is the index together with
what it is asked for. The rows are those of a scan exactly when the walk over the index
meets each row that the clause accepts.
-/
namespace Relite.Vm
open Lib Relite.Parser
open Semantic hiding Expression

/-! ## The choice of an index -/

def flipOp : ComparisonOp → ComparisonOp
  | .Lt => .Gt
  | .Leq => .Geq
  | .Gt => .Lt
  | .Geq => .Leq
  | op => op

theorem compares_flipOp (op : ComparisonOp) (cmp : Ordering) :
    compares (flipOp op) cmp.swap = compares op cmp := by
  cases op <;> cases cmp <;> rfl

/-- The column, the literal and the operator of a comparison of a column with a literal, the
column first. -/
def columnComparison (op : ComparisonOp) :
    Expression → Expression → Option (ColumnRef × ComparisonOp × Value)
  | .column col, .literal v => some (col, op, v)
  | .literal v, .column col => some (col, flipOp op, v)
  | _, _ => none

/-- The literals that columns are equated with on the way down an AND tree, the last first. -/
def collect : Expression → List (Int × Value) → List (Int × Value)
  | .logical .And l r, eqs => collect r (collect l eqs)
  | .binary .Eq l r, eqs =>
    match columnComparison .Eq l r with
    | some (col, _, v) => if v.isNull then eqs else (col.columnIndex, v) :: eqs
    | none => eqs
  | _, eqs => eqs

/-- An index and what it is asked for: the entries of a key, by way of the Bloom filter, or
those between two bounds. -/
inductive AccessPath
  | lookup (idx : Index) (key : Value)
  | rangeScan (idx : Index) (lo hi : Option Value)

def AccessPath.rids : AccessPath → List RecordID
  | lookup idx key => idx.lookup key
  | rangeScan idx lo hi => idx.tree.rangeScan lo hi

/-- The first composite index of the table all columns of which are equated with literals. -/
def compositePath (im : IndexManager) (tableId : TableId) (eqs : List (Int × Value)) :
    Option AccessPath :=
  (im.forTable tableId).findSome? fun idx => do
    guard idx.isComposite
    let keyVals ← idx.columns.mapM fun c => eqs.lookup c
    return .lookup idx (Index.keyFromValues keyVals)

def comparisonPath (im : IndexManager) (tableId : TableId) (op : ComparisonOp)
    (left right : Expression) : Option AccessPath := do
  let (col, op, key) ← columnComparison op left right
  let idx ← im.find tableId col.columnIndex
  guard !key.isNull
  match op with
  | .Eq => return .lookup idx key
  | .Lt | .Leq => return .rangeScan idx none (some key)
  | .Gt | .Geq => return .rangeScan idx (some key) none
  | .Neq => none

def betweenPath (im : IndexManager) (tableId : TableId) :
    Expression → Expression → Expression → Option AccessPath
  | .column col, .literal lo, .literal hi => do
    let idx ← im.find tableId col.columnIndex
    guard (!lo.isNull && !hi.isNull)
    return .rangeScan idx (some lo) (some hi)
  | _, _, _ => none

def accessPath (im : IndexManager) (tableId : TableId) : Expression → Option AccessPath
  | .logical .And l r =>
    (compositePath im tableId (collect (.logical .And l r) [])).or
      ((accessPath im tableId l).or (accessPath im tableId r))
  | .binary op l r =>
    (compositePath im tableId (collect (.binary op l r) [])).or (comparisonPath im tableId op l r)
  | .between v lo hi false => betweenPath im tableId v lo hi
  | _ => none

def indexCandidates (e : Expression) (tableId : TableId) (im : IndexManager) :
    Option (List RecordID) :=
  (accessPath im tableId e).map AccessPath.rids

theorem mem_of_find {im : IndexManager} {t : TableId} {column : Int} {idx : Index}
    (h : im.find t column = some idx) :
    idx ∈ im.forTable t ∧ idx.columns = [column] := by
  have hsat := List.find?_some h
  simp only [decide_eq_true_eq] at hsat
  obtain ⟨ht, hone, hcol⟩ := hsat
  obtain ⟨c, hc⟩ := List.length_eq_one_iff.mp hone
  rw [Index.columnIndex, hc, List.headD_cons] at hcol
  exact ⟨IndexManager.mem_forTable.mpr ⟨List.mem_of_find?_eq_some h, ht⟩, hcol ▸ hc⟩

/-- The index of a path. -/
def AccessPath.index : AccessPath → Index
  | lookup idx _ => idx
  | rangeScan idx _ _ => idx

theorem AccessPath.mem_of_rids {path : AccessPath} {rid : RecordID} (h : rid ∈ path.rids) :
    ∃ key, (key, rid) ∈ path.index.tree := by
  cases path with
  | lookup idx key =>
    simp only [rids, Index.lookup] at h
    split at h
    · exact Tree.mem_rangeScan h
    · cases h
  | rangeScan idx lo hi => exact Tree.mem_rangeScan h

/-- A path goes to an index of the table. -/
theorem index_of_compositePath {im : IndexManager} {t : TableId} {eqs : List (Int × Value)}
    {path : AccessPath} (h : compositePath im t eqs = some path) :
    ∃ idx ∈ im.forTable t, 1 < idx.columns.length ∧ ∃ keyVals,
      idx.columns.mapM (fun c => eqs.lookup c) = some keyVals ∧
        path = .lookup idx (Index.keyFromValues keyVals) := by
  obtain ⟨idx, hidx, h⟩ := List.exists_of_findSome?_eq_some h
  simp only [bind, Option.bind_eq_some_iff, pure, Option.some.injEq] at h
  obtain ⟨_, hguard, keyVals, hvals, rfl⟩ := h
  have hcomposite : idx.isComposite = true := by
    by_contra hnot
    simp [hnot] at hguard
  exact ⟨idx, hidx, by simpa [Index.isComposite] using hcomposite, keyVals, hvals, rfl⟩

theorem index_of_comparisonPath {im : IndexManager} {t : TableId} {op : ComparisonOp}
    {l r : Expression} {path : AccessPath} (h : comparisonPath im t op l r = some path) :
    ∃ col op' key idx, columnComparison op l r = some (col, op', key) ∧ idx ∈ im.forTable t ∧
      idx.columns = [col.columnIndex] ∧
      (op' = .Eq ∧ path = .lookup idx key ∨
        (op' = .Lt ∨ op' = .Leq) ∧ path = .rangeScan idx none (some key) ∨
        (op' = .Gt ∨ op' = .Geq) ∧ path = .rangeScan idx (some key) none) := by
  simp only [comparisonPath, bind, Option.bind_eq_some_iff] at h
  obtain ⟨⟨col, op', key⟩, hcol, idx, hidx, -, -, h⟩ := h
  obtain ⟨hmem, hcols⟩ := mem_of_find hidx
  refine ⟨col, op', key, idx, hcol, hmem, hcols, ?_⟩
  cases op' <;> simp_all [pure]

theorem index_of_betweenPath {im : IndexManager} {t : TableId} {v lo hi : Expression}
    {path : AccessPath} (h : betweenPath im t v lo hi = some path) :
    ∃ col lo' hi' idx, v = .column col ∧ lo = .literal lo' ∧ hi = .literal hi' ∧
      idx ∈ im.forTable t ∧ idx.columns = [col.columnIndex] ∧
      path = .rangeScan idx (some lo') (some hi') := by
  unfold betweenPath at h
  split at h
  · rename_i col lo' hi'
    simp only [bind, Option.bind_eq_some_iff, pure, Option.some.injEq] at h
    obtain ⟨idx, hidx, -, -, rfl⟩ := h
    obtain ⟨hmem, hcols⟩ := mem_of_find hidx
    exact ⟨col, lo', hi', idx, rfl, rfl, rfl, hmem, hcols, rfl⟩
  · cases h

theorem index_of_accessPath {im : IndexManager} {t : TableId} {e : Expression}
    {path : AccessPath} (h : accessPath im t e = some path) : path.index ∈ im.forTable t := by
  fun_induction accessPath im t e with
  | case1 l r ihl ihr =>
    rcases Option.or_eq_some_iff.mp h with h | ⟨-, h⟩
    · obtain ⟨idx, hidx, -, _, -, rfl⟩ := index_of_compositePath h
      exact hidx
    · rcases Option.or_eq_some_iff.mp h with h | ⟨-, h⟩
      · exact ihl h
      · exact ihr h
  | case2 op l r =>
    rcases Option.or_eq_some_iff.mp h with h | ⟨-, h⟩
    · obtain ⟨idx, hidx, -, _, -, rfl⟩ := index_of_compositePath h
      exact hidx
    · obtain ⟨_, _, _, idx, -, hidx, -, ⟨-, rfl⟩ | ⟨-, rfl⟩ | ⟨-, rfl⟩⟩ :=
        index_of_comparisonPath h <;> exact hidx
  | case3 v lo hi =>
    obtain ⟨_, _, _, idx, -, -, -, hidx, -, rfl⟩ := index_of_betweenPath h
    exact hidx
  | case4 e => cases h

/-- The WHEN clause of an expression without subqueries. -/
def Condition.of (e : Expression) (tableId : TableId) : Condition tableId where
  correlated := false
  materializeSubqueries := ⟨fun _ => ([], .ok (evalExpression e))⟩
  bindCorrelated _ := ⟨fun _ => ([], .ok (evalExpression e))⟩
  indexCandidates := Vm.indexCandidates e tableId
  candidates_held im rids h rid hrid := by
    obtain ⟨path, hpath, rfl⟩ := Option.map_eq_some_iff.mp h
    obtain ⟨key, hkey⟩ := AccessPath.mem_of_rids hrid
    exact ⟨path.index, index_of_accessPath hpath, key, hkey⟩

end Relite.Vm

/-! ## The walk over an index -/

namespace Relite
open Lib Vm

namespace Tree

/-- The key is below the bound, if there is one. -/
def below (lo : Option Value) (key : Value) : Bool := lo.any fun lo => valueLess key lo

def above (hi : Option Value) (key : Value) : Bool := hi.any fun hi => valueLess hi key

/-- The walk from `lo` on meets an entry of `rid` before it comes to a key above `hi`. -/
def Meets (tree : Tree) (lo hi : Option Value) (rid : RecordID) : Prop :=
  ∃ key passed, passed ++ [(key, rid)] <+: tree ∧ below lo key = false ∧
    ∀ e ∈ passed ++ [(key, rid)], below lo e.1 = false → above hi e.1 = false

theorem mem_takeWhile_filter {α : Type} {p q : α → Bool} {l : List α} {x : α} :
    x ∈ (l.filter p).takeWhile q ↔
      ∃ passed, passed ++ [x] <+: l ∧ p x ∧ ∀ y ∈ passed ++ [x], p y → q y := by
  induction l with
  | nil => simp
  | cons a l ih =>
    by_cases hp : p a
    · rw [List.filter_cons_of_pos hp]
      by_cases hq : q a
      · rw [List.takeWhile_cons_of_pos hq, List.mem_cons, ih]
        constructor
        · rintro (rfl | ⟨passed, hpre, hx, hall⟩)
          · exact ⟨[], by simp, hp, by simpa using fun _ => hq⟩
          · refine ⟨a :: passed, by simpa using hpre, hx, ?_⟩
            simpa using ⟨fun _ => hq, by simpa using hall⟩
        · rintro ⟨passed, hpre, hx, hall⟩
          cases passed with
          | nil => exact .inl (by simpa using hpre)
          | cons b passed =>
            rw [List.cons_append, List.cons_prefix_cons] at hpre
            obtain ⟨rfl, hpre⟩ := hpre
            exact .inr ⟨passed, hpre, hx, fun y hy => hall y (List.mem_cons_of_mem _ hy)⟩
      · rw [List.takeWhile_cons_of_neg hq]
        refine ⟨fun h => (List.not_mem_nil h).elim, ?_⟩
        rintro ⟨passed, hpre, hx, hall⟩
        have hhead : a ∈ passed ++ [x] := by
          cases passed with
          | nil => simpa using (List.cons_prefix_cons.mp hpre).1.symm
          | cons b passed =>
            rw [List.cons_append, List.cons_prefix_cons] at hpre
            simp [hpre.1]
        exact absurd (hall a hhead hp) hq
    · rw [List.filter_cons_of_neg hp, ih]
      constructor
      · rintro ⟨passed, hpre, hx, hall⟩
        refine ⟨a :: passed, by simpa using hpre, hx, ?_⟩
        simpa [hp] using hall
      · rintro ⟨passed, hpre, hx, hall⟩
        cases passed with
        | nil =>
          obtain ⟨rfl, -⟩ := List.cons_prefix_cons.mp hpre
          exact absurd hx hp
        | cons b passed =>
          rw [List.cons_append, List.cons_prefix_cons] at hpre
          obtain ⟨rfl, hpre⟩ := hpre
          exact ⟨passed, hpre, hx, fun y hy => hall y (List.mem_cons_of_mem _ hy)⟩

theorem mem_rangeScan_iff {tree : Tree} {lo hi : Option Value} {rid : RecordID} :
    rid ∈ tree.rangeScan lo hi ↔ tree.Meets lo hi rid := by
  unfold rangeScan Meets below above
  simp only [List.mem_map, mem_takeWhile_filter]
  constructor
  · rintro ⟨⟨key, rid⟩, ⟨passed, hpre, hlo, hall⟩, rfl⟩
    exact ⟨key, passed, hpre, by simpa using hlo, by simpa using hall⟩
  · rintro ⟨key, passed, hpre, hlo, hall⟩
    exact ⟨(key, rid), ⟨passed, hpre, by simpa using hlo, by simpa using hall⟩, rfl⟩

/-- With a bound that is in order with the keys the walk meets what is between the bounds. -/
theorem Sorted.meets {tree : Tree} (h : tree.Sorted) {lo hi : Option Value}
    (hhi : ∀ v ∈ hi, Ordered (v :: tree.map Prod.fst)) {key : Value} {rid : RecordID}
    (hmem : (key, rid) ∈ tree) (hlo : below lo key = false) (habove : above hi key = false) :
    tree.Meets lo hi rid := by
  obtain ⟨passed, rest, rfl⟩ := List.append_of_mem hmem
  refine ⟨key, passed, ⟨rest, by simp⟩, hlo, fun e he _ => ?_⟩
  rcases List.mem_append.mp he with he | he
  · cases hi with
    | none => rfl
    | some hi =>
      have hord := hhi hi rfl
      have hless : entryLess e (key, rid) :=
        (List.pairwise_append.mp h.pairwise).2.2 e he _ List.mem_cons_self
      have hnot : valueLess key e.1 = false := by
        rw [entryLess_iff] at hless
        rcases hless with hless | hless
        · exact hord.1 _ (by simpa using .inr (.inl ⟨e.2, he⟩)) _ (by simp) hless
        · exact hless.1
      exact hord.not_less (by simpa using .inr (.inl ⟨e.2, he⟩)) (by simp) (by simp) hnot habove
  · rw [List.mem_singleton.mp he]
    exact habove

end Tree

end Relite
