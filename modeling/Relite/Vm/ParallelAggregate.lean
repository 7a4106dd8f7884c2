import Relite.Vm.Heap
import Relite.Vm.ZoneMaps
import Mathlib.Algebra.BigOperators.Group.List.Basic
import Mathlib.Algebra.Order.BigOperators.Group.List
import Mathlib.Order.Interval.Finset.Basic
import Mathlib.Data.Int.Interval

/-!
# Aggregating in parallel

`parallelColumnarAggregate` hands every worker each `numThreads`-th block, lets it fold the rows
into accumulators of its own and merges these at the end. Over columns without doubles the
accumulators of an aggregate are a commutative monoid under the merge, and so the workers
together compute what the serial fold computes.
-/
namespace Relite.Vm
open Lib Relite.Parser
open Semantic hiding Expression

/-! ## The workers -/

def accumulateRow (table : TableColumns) (agg : VecAggregate) (acc : Acc) (r : Nat) : Acc :=
  Column.accumulate agg.kind (table.column? agg.column) acc r

def mergePartial (kind : VecAggregate.Kind) (a b : Acc) : Acc :=
  let a := { a with
    count := a.count + b.count
    isum := a.isum + b.isum
    dsum := a.dsum + b.dsum
    isFloat := a.isFloat || b.isFloat }
  if (kind = .Min ∨ kind = .Max) ∧ b.hasBest then a.addBest kind b.best else a

/-- `finalizePartial`, the same as the end of `columnarAggregate`. -/
abbrev finalizePartial (agg : VecAggregate) (acc : Acc) : Value := acc.finalize agg.kind

/-- The loop `for (b = t; b < nblocks; b += numThreads)`. -/
def stripe (numThreads nblocks t : Nat) : List Nat :=
  List.range' t ((nblocks - t + numThreads - 1) / numThreads) numThreads

/-- The accumulators of a worker, one for each aggregate. -/
def worker (table : TableColumns) (aggregates : List VecAggregate)
    (predicate : Option VecPredicate) (skip : Nat → Bool) (blocks : List Nat) : List Acc :=
  blocks.foldl (fun partials b =>
    if skip b then partials
    else
      (blockRows table.rows b).foldl (fun partials r =>
        if predicate.all fun terms => table.rowPasses terms r then
          List.zipWith (fun agg acc => accumulateRow table agg acc r) aggregates partials
        else partials) partials) (aggregates.map fun _ => {})

/-- The values and the statistics. The number of blocks is cast to 32 bits, and where that is
zero there is no `partials[0]` to merge into. -/
def parallelColumnarAggregate (table : TableColumns) (aggregates : List VecAggregate)
    (predicate : Option VecPredicate) (numThreads : UInt32) :
    Option (List Value) × (Nat × Nat) :=
  let nblocks := blockCount table.rows
  let skip (b : Nat) : Bool := predicate.any fun terms => table.blockSkippable terms b
  let stats := (nblocks, ((List.range nblocks).filter skip).length)
  let numThreads := if numThreads = 0 then 1 else numThreads
  if nblocks = 0 then (some (aggregates.map fun agg => finalizePartial agg {}), stats)
  else
    let numThreads := (min numThreads (UInt32.ofNat nblocks)).toNat
    let partials := (List.range numThreads).map fun t =>
      worker table aggregates predicate skip (stripe numThreads nblocks t)
    let merged := aggregates.zipIdx.mapM fun (agg, a) =>
      match partials with
      | [] => none
      | first :: rest =>
        some (finalizePartial agg (rest.foldl (fun merged partials =>
          mergePartial agg.kind merged (partials.getD a {})) (first.getD a {})))
    (merged, stats)

/-! ## Every block is in one stripe -/

theorem mem_stripe {numThreads nblocks t b : Nat} (ht : t < numThreads) :
    b ∈ stripe numThreads nblocks t ↔ b < nblocks ∧ b % numThreads = t := by
  rw [stripe, List.mem_range']
  constructor
  · rintro ⟨i, hi, rfl⟩
    rw [Nat.lt_div_iff_mul_lt (by omega)] at hi
    refine ⟨?_, by rw [Nat.add_mul_mod_self_left, Nat.mod_eq_of_lt ht]⟩
    rw [Nat.mul_comm] at hi
    omega
  · rintro ⟨hb, rfl⟩
    have hdiv := Nat.mod_add_div b numThreads
    refine ⟨b / numThreads, ?_, hdiv.symm⟩
    rw [Nat.lt_div_iff_mul_lt (by omega), Nat.mul_comm]
    omega

theorem nodup_stripe {numThreads : Nat} (nblocks t : Nat) (h : 0 < numThreads) :
    (stripe numThreads nblocks t).Nodup := List.nodup_range' numThreads h

theorem flatMap_stripe_perm {numThreads : Nat} (nblocks : Nat) (h : 0 < numThreads) :
    ((List.range numThreads).flatMap (stripe numThreads nblocks)).Perm (List.range nblocks) := by
  rw [List.perm_ext_iff_of_nodup _ List.nodup_range]
  · intro b
    rw [List.mem_flatMap, List.mem_range]
    constructor
    · rintro ⟨t, ht, hb⟩
      exact ((mem_stripe (List.mem_range.mp ht)).mp hb).1
    · intro hb
      have hmod := Nat.mod_lt b h
      exact ⟨b % numThreads, List.mem_range.mpr hmod, (mem_stripe hmod).mpr ⟨hb, rfl⟩⟩
  · refine List.nodup_flatMap.mpr ⟨fun t _ => nodup_stripe nblocks t h, ?_⟩
    refine List.nodup_range.imp_of_mem fun {s t} hs ht hne b hbs hbt => hne ?_
    rw [← ((mem_stripe (List.mem_range.mp hs)).mp hbs).2,
      ← ((mem_stripe (List.mem_range.mp ht)).mp hbt).2]

/-! ## The rows of some blocks -/

section Rows

variable (table : TableColumns) (predicate : Option VecPredicate)

/-- The rows that pass in the blocks that are not skipped. -/
def rowsOf (blocks : List Nat) : List Nat :=
  blocks.flatMap fun b =>
    if predicate.any fun terms => table.blockSkippable terms b then []
    else (blockRows table.rows b).filter fun r =>
      predicate.all fun terms => table.rowPasses terms r

theorem rowsOf_flatten (stripes : List (List Nat)) :
    rowsOf table predicate stripes.flatten = (stripes.map (rowsOf table predicate)).flatten := by
  induction stripes with
  | nil => rfl
  | cons blocks stripes ih =>
    rw [List.map_cons, List.flatten_cons, List.flatten_cons, ← ih, rowsOf, List.flatMap_append]
    rfl

theorem foldl_rowsOf {σ : Type} (f : σ → Nat → σ) (blocks : List Nat) (s : σ) :
    blocks.foldl (fun s b =>
        if predicate.any fun terms => table.blockSkippable terms b then s
        else (blockRows table.rows b).foldl (fun s r =>
          if predicate.all fun terms => table.rowPasses terms r then f s r else s) s) s =
      (rowsOf table predicate blocks).foldl f s := by
  rw [rowsOf, List.foldl_flatMap]
  refine List.foldl_ext _ _ _ fun s b _ => ?_
  split
  · rfl
  · rw [List.foldl_filter]

theorem columnarAggregate_eq_rowsOf (aggregates : List VecAggregate) :
    columnarAggregate table aggregates predicate = aggregates.map fun agg =>
      ((rowsOf table predicate (List.range (blockCount table.rows))).foldl
        (accumulateRow table agg) {}).finalize agg.kind :=
  List.map_congr_left fun agg _ => by rw [← foldl_rowsOf]; rfl

/-- A worker keeps the aggregates apart. -/
theorem worker_eq (aggregates : List VecAggregate) (blocks : List Nat) :
    worker table aggregates predicate
        (fun b => predicate.any fun terms => table.blockSkippable terms b) blocks =
      aggregates.map fun agg =>
        (rowsOf table predicate blocks).foldl (accumulateRow table agg) {} := by
  rw [worker, foldl_rowsOf]
  induction rowsOf table predicate blocks using List.reverseRecOn with
  | nil => rfl
  | append_singleton rows r ih =>
    rw [List.foldl_append, ih, List.foldl_cons, List.foldl_nil, List.zipWith_map_right,
      List.zipWith_self]
    exact List.map_congr_left fun agg _ => by rw [List.foldl_append]; rfl

end Rows

/-! ## The order of values without doubles -/

/-- Two values of a column without doubles are the same if neither is below the other. -/
theorem Proper.eq_of_not_below {d : DataType} {a b : Value} (ha : Proper d a) (hb : Proper d b)
    (hd : d ≠ .Float) (hab : ¬Below a b) (hba : ¬Below b a) : a = b := by
  have htyped := ha.typed
  revert htyped hab hba
  refine Proper.forms (motive := fun a b => ¬Below a b → ¬Below b a → Tuple.HasType d a → a = b)
    ha hb (fun m n hmn hnm _ => ?_) (fun p q hpq hqp _ => ?_) (fun s t hst hts _ => ?_)
    (fun x y _ _ _ _ h => ?_)
  · exact congrArg Value.int (Int64.le_antisymm (Int64.not_lt.mp hnm) (Int64.not_lt.mp hmn))
  · cases p <;> cases q <;> first | rfl | exact absurd rfl hpq | exact absurd rfl hqp
  · exact congrArg Value.text (List.le_antisymm (List.not_lt.mp hts) (List.not_lt.mp hst))
  · cases d <;> first | exact absurd rfl hd | exact h.elim

section Better

variable (kind : VecAggregate.Kind)

/-- The value replaces the best one. -/
def Better (v best : Value) : Prop := if kind = .Min then Below v best else Below best v

instance (v best : Value) : Decidable (Better kind v best) := by
  unfold Better
  infer_instance

def pick (best v : Value) : Value := if Better kind v best then v else best

variable {kind} {d : DataType} {a b c : Value}

theorem Better.trans (hb : Proper d b) (hc : Proper d c) (h : Better kind a b)
    (h' : Better kind b c) : Better kind a c := by
  unfold Better at *
  split at h
  · rename_i hmin
    rw [if_pos hmin] at h' ⊢
    exact (h.lt_or_lt hb hc).resolve_right h'.asymm
  · rename_i hmax
    rw [if_neg hmax] at h' ⊢
    exact (h.gt_or_lt hb hc).resolve_right h'.asymm

theorem Better.or_of_better (ha : Proper d a) (hb : Proper d b) (h : Better kind c a) :
    Better kind c b ∨ Better kind b a := by
  unfold Better at *
  split at h
  · rename_i hmin
    rw [if_pos hmin, if_pos hmin]
    exact h.lt_or_lt ha hb
  · rename_i hmax
    rw [if_neg hmax, if_neg hmax]
    exact h.gt_or_lt ha hb

theorem Better.asymm (h : Better kind a b) : ¬Better kind b a := by
  unfold Better at *
  split at h
  · rename_i hmin
    rw [if_pos hmin]
    exact Below.asymm h
  · rename_i hmax
    rw [if_neg hmax]
    exact Below.asymm h

theorem Better.eq_of_not (ha : Proper d a) (hb : Proper d b) (hd : d ≠ .Float)
    (hab : ¬Better kind a b) (hba : ¬Better kind b a) : a = b := by
  unfold Better at *
  split at hab
  · rename_i hmin
    rw [if_pos hmin] at hba
    exact ha.eq_of_not_below hb hd hab hba
  · rename_i hmax
    rw [if_neg hmax] at hba
    exact ha.eq_of_not_below hb hd hba hab

theorem Proper.pick (ha : Proper d a) (hb : Proper d b) : Proper d (pick kind a b) := by
  unfold Vm.pick
  split
  · exact hb
  · exact ha

theorem pick_comm (ha : Proper d a) (hb : Proper d b) (hd : d ≠ .Float) :
    pick kind a b = pick kind b a := by
  unfold pick
  by_cases hba : Better kind b a
  · rw [if_pos hba, if_neg hba.asymm]
  · rw [if_neg hba]
    split
    · rfl
    · rename_i hab
      exact Better.eq_of_not ha hb hd hab hba

theorem pick_assoc (ha : Proper d a) (hb : Proper d b) :
    pick kind (pick kind a b) c = pick kind a (pick kind b c) := by
  unfold pick
  by_cases hba : Better kind b a <;> by_cases hcb : Better kind c b
  · simp only [hba, hcb, hcb.trans hb ha hba, if_true]
  · simp only [hba, hcb, if_true, if_false]
  · simp only [hba, hcb, if_true, if_false]
  · have hca : ¬Better kind c a := fun hca => (hca.or_of_better ha hb).elim hcb hba
    simp only [hba, hcb, hca, if_false]

theorem addBest_eq (hkind : kind = .Min ∨ kind = .Max) {acc : Acc} (h : acc.hasBest) (v : Value) :
    acc.addBest kind v = { acc with best := pick kind acc.best v } := by
  rw [Acc.addBest, if_neg (by simp [h]), pick]
  rcases hkind with rfl | rfl
  · have hbetter : Better .Min v acc.best ↔ compareValues v acc.best = some .lt :=
      (compareValues_eq_lt v acc.best).symm
    simp only [hbetter]
    cases compareValues v acc.best with
    | none => simp
    | some o => cases o <;> simp
  · have hbetter : Better .Max v acc.best ↔ compareValues v acc.best = some .gt :=
      (compareValues_eq_gt v acc.best).symm
    simp only [hbetter]
    cases compareValues v acc.best with
    | none => simp
    | some o => cases o <;> simp

end Better

/-! ## Partial accumulators -/

/-- An accumulator over a column of the type. -/
structure Acc.Over (kind : VecAggregate.Kind) (d : DataType) (a : Acc) : Prop where
  dsum : a.dsum = Float.ofBits 0
  isFloat : a.isFloat = false
  best : a.hasBest = true → (kind = .Min ∨ kind = .Max) ∧ Proper d a.best
  none : a.hasBest = false → a.best = .null

theorem mergePartial_eq {kind : VecAggregate.Kind} {d : DataType} {a b : Acc}
    (ha : a.Over kind d) (hb : b.Over kind d) :
    mergePartial kind a b =
      { count := a.count + b.count
        isum := a.isum + b.isum
        dsum := Float.ofBits 0
        isFloat := false
        hasBest := a.hasBest || b.hasBest
        best :=
          if b.hasBest then if a.hasBest then pick kind a.best b.best else b.best else a.best } := by
  have hzero : Float.ofBits 0 + Float.ofBits 0 = Float.ofBits 0 := by decide +kernel
  rw [mergePartial]
  rw [ha.dsum, hb.dsum, hzero, ha.isFloat, hb.isFloat]
  cases hbest : b.hasBest with
  | false => simp
  | true =>
    have hkind := (hb.best hbest).1
    rw [if_pos ⟨hkind, rfl⟩]
    cases hfirst : a.hasBest with
    | false => simp [Acc.addBest]
    | true => rw [addBest_eq hkind rfl]; simp

namespace Acc.Over

variable {kind : VecAggregate.Kind} {d : DataType} {a b c : Acc}

theorem empty : Over kind d {} := ⟨rfl, rfl, nofun, fun _ => rfl⟩

theorem eta (h : a.Over kind d) : a = { a with dsum := Float.ofBits 0, isFloat := false } := by
  rw [← h.dsum, ← h.isFloat]

theorem merge (ha : a.Over kind d) (hb : b.Over kind d) : (mergePartial kind a b).Over kind d := by
  rw [mergePartial_eq ha hb]
  refine ⟨rfl, rfl, fun hbest => ?_, fun hnone => ?_⟩
  · dsimp only at hbest ⊢
    cases hsecond : b.hasBest with
    | false =>
      rw [hsecond, Bool.or_false] at hbest
      simpa using ha.best hbest
    | true =>
      obtain ⟨hkind, hproper⟩ := hb.best hsecond
      refine ⟨hkind, ?_⟩
      cases hfirst : a.hasBest with
      | false => simpa using hproper
      | true => simpa using (ha.best hfirst).2.pick hproper
  · obtain ⟨hfirst, hsecond⟩ := Bool.or_eq_false_iff.mp hnone
    simpa [hsecond] using ha.none hfirst

theorem merge_empty (ha : a.Over kind d) : mergePartial kind a {} = a := by
  rw [mergePartial_eq ha empty]
  exact Eq.trans (by simp) ha.eta.symm

theorem merge_comm (hd : d ≠ .Float) (ha : a.Over kind d) (hb : b.Over kind d) :
    mergePartial kind a b = mergePartial kind b a := by
  rw [mergePartial_eq ha hb, mergePartial_eq hb ha, Int64.add_comm a.count, Int64.add_comm a.isum,
    Bool.or_comm]
  congr 1
  cases hfirst : a.hasBest <;> cases hsecond : b.hasBest
  · rw [ha.none hfirst, hb.none hsecond]
  · rfl
  · rfl
  · exact pick_comm (ha.best hfirst).2 (hb.best hsecond).2 hd

theorem merge_assoc (ha : a.Over kind d) (hb : b.Over kind d) (hc : c.Over kind d) :
    mergePartial kind (mergePartial kind a b) c =
      mergePartial kind a (mergePartial kind b c) := by
  rw [mergePartial_eq (ha.merge hb) hc, mergePartial_eq ha (hb.merge hc), mergePartial_eq ha hb,
    mergePartial_eq hb hc]
  dsimp only
  rw [Int64.add_assoc, Int64.add_assoc, Bool.or_assoc]
  congr 1
  cases hfirst : a.hasBest <;> cases hsecond : b.hasBest <;> cases c.hasBest <;> try rfl
  exact pick_assoc (ha.best hfirst).2 (hb.best hsecond).2

end Acc.Over

/-- The accumulators of an aggregate over a column of a type that is not `FLOAT`. -/
abbrev PartialAcc (kind : VecAggregate.Kind) (d : { d : DataType // d ≠ .Float }) : Type :=
  { a : Acc // a.Over kind d.1 }

/-- They are merged in any order and grouping. -/
instance PartialAcc.commMonoid (kind : VecAggregate.Kind) (d : { d : DataType // d ≠ .Float }) :
    CommMonoid (PartialAcc kind d) where
  mul a b := ⟨mergePartial kind a b, a.2.merge b.2⟩
  one := ⟨{}, .empty⟩
  mul_assoc a b c := Subtype.ext (a.2.merge_assoc b.2 c.2)
  mul_comm a b := Subtype.ext (a.2.merge_comm d.2 b.2)
  one_mul a := Subtype.ext ((Acc.Over.empty.merge_comm d.2 a.2).trans a.2.merge_empty)
  mul_one a := Subtype.ext a.2.merge_empty

theorem proper_columnValue {col : Column} {r : Nat} (hfloat : col.type ≠ .Float)
    (hnull : ¬col.isNull.getD r false) : Proper col.type (columnValue col r) := by
  rw [columnValue, if_neg hnull]
  generalize col.type = d at hfloat
  cases d <;> first | exact absurd rfl hfloat | exact ⟨trivial, rfl, id⟩

section Aggregate

variable {table : TableColumns} {agg : VecAggregate} {d : { d : DataType // d ≠ .Float }}
  (htype : ∀ col ∈ table.column? agg.column, col.type = d.1)
include htype

/-- What a row adds is what the accumulator of that row alone is merged for. -/
theorem accumulateRow_eq (r : Nat) {acc : Acc} (hacc : acc.Over agg.kind d.1) :
    (accumulateRow table agg {} r).Over agg.kind d.1 ∧
      accumulateRow table agg acc r =
        mergePartial agg.kind acc (accumulateRow table agg {} r) := by
  have hnone : Acc.Over agg.kind d.1 {} ∧ acc = mergePartial agg.kind acc {} :=
    ⟨.empty, hacc.merge_empty.symm⟩
  have hcounted : ∀ n isum : Int64,
      Acc.Over agg.kind d.1 { count := 0 + n, isum := 0 + isum } ∧
        { acc with count := acc.count + n, isum := acc.isum + isum } =
          mergePartial agg.kind acc { count := 0 + n, isum := 0 + isum } := by
    intro n isum
    have hover : Acc.Over agg.kind d.1 { count := 0 + n, isum := 0 + isum } :=
      ⟨rfl, rfl, nofun, fun _ => rfl⟩
    refine ⟨hover, ?_⟩
    rw [mergePartial_eq hacc hover, Int64.zero_add, Int64.zero_add, hacc.eta]
    simp
  unfold accumulateRow Column.accumulate
  by_cases hstar : agg.kind = .CountStar
  · simp only [if_pos hstar]
    simpa using hcounted 1 0
  simp only [if_neg hstar]
  cases hcol : table.column? agg.column with
  | none => exact hnone
  | some col =>
    dsimp only
    by_cases hnull : col.isNull.getD r false = true
    · simp only [if_pos hnull]
      exact hnone
    simp only [if_neg hnull]
    have hfloat : col.type ≠ .Float := htype col hcol ▸ d.2
    simp only [if_neg hfloat]
    have hbest : ∀ {kind : VecAggregate.Kind}, kind = .Min ∨ kind = .Max →
        Acc.Over kind d.1 (Acc.addBest kind {} (columnValue col r)) ∧
          acc.addBest kind (columnValue col r) =
            mergePartial kind acc (Acc.addBest kind {} (columnValue col r)) := by
      intro kind hkind
      have hproper : Proper d.1 (columnValue col r) :=
        htype col hcol ▸ proper_columnValue hfloat hnull
      refine ⟨⟨rfl, rfl, fun _ => ⟨hkind, hproper⟩, nofun⟩, ?_⟩
      have hsame := hacc.merge_empty
      rw [mergePartial, if_neg (by simp)] at hsame
      rw [mergePartial, if_pos ⟨hkind, rfl⟩]
      exact congrArg (fun a => Acc.addBest kind a (columnValue col r)) hsame.symm
    cases hkind : agg.kind with
    | CountStar => exact absurd hkind hstar
    | Count => simpa [hkind] using hcounted 1 0
    | Sum | Avg => simpa [hkind] using hcounted 1 (col.ints.getD r 0)
    | Min => exact hbest (.inl rfl)
    | Max => exact hbest (.inr rfl)

/-- The accumulator of one row. -/
def ofRow (r : Nat) : PartialAcc agg.kind d :=
  ⟨accumulateRow table agg {} r, (accumulateRow_eq htype r .empty).1⟩

theorem foldl_accumulateRow (rows : List Nat) :
    rows.foldl (accumulateRow table agg) {} = (rows.map (ofRow htype)).prod.1 := by
  induction rows using List.reverseRecOn with
  | nil => rfl
  | append_singleton rows r ih =>
    rw [List.foldl_append, ih, List.foldl_cons, List.foldl_nil, List.map_append, List.prod_append,
      List.map_singleton, List.prod_singleton]
    exact (accumulateRow_eq htype r (Subtype.prop _)).2

/-- Merging what the workers have folded over their stripes. -/
theorem foldl_mergePartial (first : List Nat) (rest : List (List Nat)) :
    (rest.map fun rows => rows.foldl (accumulateRow table agg) {}).foldl (mergePartial agg.kind)
        (first.foldl (accumulateRow table agg) {}) =
      (first ++ rest.flatten).foldl (accumulateRow table agg) {} := by
  induction rest using List.reverseRecOn with
  | nil => simp
  | append_singleton rest rows ih =>
    rw [List.map_append, List.foldl_append, ih, List.map_singleton, List.foldl_cons, List.foldl_nil,
      List.flatten_append, List.flatten_singleton, ← List.append_assoc]
    simp only [foldl_accumulateRow htype]
    rw [@List.map_append _ _ _ (first ++ rest.flatten), List.prod_append]
    rfl

/-- The rows in any order give the same accumulator. -/
theorem foldl_accumulateRow_perm {rows rows' : List Nat} (h : rows.Perm rows') :
    rows.foldl (accumulateRow table agg) {} = rows'.foldl (accumulateRow table agg) {} := by
  rw [foldl_accumulateRow htype, foldl_accumulateRow htype, (h.map _).prod_eq]

end Aggregate

theorem mapM_of_forall {α β : Type} {f : α → Option β} {g : α → β} {xs : List α}
    (h : ∀ x ∈ xs, f x = some (g x)) : xs.mapM f = some (xs.map g) := by
  induction xs with
  | nil => rfl
  | cons x xs ih =>
    rw [List.mapM_cons, h x List.mem_cons_self, ih fun y hy => h y (List.mem_cons_of_mem x hy)]
    rfl

/-- There is a worker, for every number of threads. -/
theorem toNat_numThreads_pos {nblocks : Nat} (hpos : nblocks ≠ 0) (hlt : nblocks < 2 ^ 32)
    (numThreads : UInt32) :
    0 < (min (if numThreads = 0 then 1 else numThreads) (UInt32.ofNat nblocks)).toNat := by
  have hblocks : (UInt32.ofNat nblocks).toNat = nblocks := UInt32.toNat_ofNat_of_lt' hlt
  have hthreads : (if numThreads = 0 then 1 else numThreads).toNat ≠ 0 := by
    split
    · decide
    · rename_i hne
      exact fun h => hne (UInt32.toNat_inj.mp h)
  have hmin : ∀ m n : UInt32, m.toNat ≠ 0 → n.toNat ≠ 0 → 0 < (min m n).toNat := by
    intro m n hm hn
    rw [show min m n = if m ≤ n then m else n from rfl]
    split <;> omega
  exact hmin _ _ hthreads (by omega)

/-- A page holds fewer than `kBlockRows` rows. -/
theorem length_tuples_le {tm : TableManager} (h : tm.WF) (t : TableId) :
    (tm.tuples t).length ≤ tm.pool.numPages * kBlockRows := by
  have hpage : ∀ pid, (TableManager.pageTuples pid (tm.page pid)).length ≤ kBlockRows := by
    intro pid
    refine (List.length_filterMap_le _ _).trans ?_
    rw [List.length_range]
    have hsize : kBlockRows = 1024 := rfl
    rcases h.pageOk pid with hwf | hblank
    · have hend := hwf.arrayEnd_le.trans hwf.freeEnd_le
      rw [Backend.PAGE_SIZE] at hend
      omega
    · rw [hblank.slotCount_eq]
      omega
  have hpages : (tm.pageList t).length ≤ tm.pool.numPages := by
    rw [← List.toFinset_card_of_nodup (h.nodup t)]
    refine (Finset.card_le_card fun pid hpid => ?_).trans_eq
      ((Int.card_Ico 0 tm.pool.numPages).trans (by simp))
    exact Finset.mem_Ico.mpr (h.bound t pid (List.mem_toFinset.mp hpid))
  rw [TableManager.tuples, List.length_flatMap]
  refine (List.sum_le_card_nsmul _ kBlockRows fun n hn => ?_).trans ?_
  · obtain ⟨pid, -, rfl⟩ := List.mem_map.mp hn
    exact hpage pid
  · rw [List.length_map, Nat.nsmul_eq_mul]
    exact Nat.mul_le_mul_right _ hpages

/-- The workers compute the values and the statistics of the serial fold. By `length_tuples_le`
the bound on the rows is that page numbers are 32 bits wide. -/
theorem parallelColumnarAggregate_eq (table : TableColumns) (aggregates : List VecAggregate)
    (predicate : Option VecPredicate) (numThreads : UInt32)
    (hrows : table.rows ≤ 2 ^ 31 * kBlockRows)
    (htypes : ∀ agg ∈ aggregates, ∀ col ∈ table.column? agg.column, col.type ≠ .Float) :
    parallelColumnarAggregate table aggregates predicate numThreads =
      (some (columnarAggregate table aggregates predicate), skipStats table predicate) := by
  have hexact : ∀ agg ∈ aggregates, ∃ d : { d : DataType // d ≠ .Float },
      ∀ col ∈ table.column? agg.column, col.type = d.1 := by
    intro agg hagg
    cases hcol : table.column? agg.column with
    | none => exact ⟨⟨.Int, by decide⟩, nofun⟩
    | some col =>
      exact ⟨⟨col.type, htypes agg hagg col hcol⟩, fun _ h => Option.some_inj.mp h ▸ rfl⟩
  have hblocks : blockCount table.rows < 2 ^ 32 := by
    rw [blockCount, Nat.div_lt_iff_lt_mul (by decide)]
    have hsize : kBlockRows = 1024 := rfl
    omega
  rw [parallelColumnarAggregate, columnarAggregate_eq_rowsOf]
  dsimp only
  split
  · rename_i hnone
    simp [skipStats, hnone, rowsOf]
  · rename_i hsome
    have hthreads := toNat_numThreads_pos hsome hblocks numThreads
    generalize (min (if numThreads = 0 then 1 else numThreads)
      (UInt32.ofNat (blockCount table.rows))).toNat = n at hthreads
    refine Prod.ext ?_ (by simp [skipStats])
    have hperm := flatMap_stripe_perm (blockCount table.rows) hthreads
    have hworkers : (List.range n).map (fun t => worker table aggregates predicate
          (fun b => predicate.any fun terms => table.blockSkippable terms b)
          (stripe n (blockCount table.rows) t)) =
        ((List.range n).map (stripe n (blockCount table.rows))).map fun blocks =>
          aggregates.map fun agg =>
            (rowsOf table predicate blocks).foldl (accumulateRow table agg) {} := by
      rw [List.map_map]
      exact List.map_congr_left fun t _ => worker_eq table predicate aggregates _
    rw [List.flatMap_def] at hperm
    dsimp only
    rw [hworkers]
    have hne : (List.range n).map (stripe n (blockCount table.rows)) ≠ [] := by
      simpa using hthreads.ne'
    obtain ⟨first, rest, hstripes⟩ := List.exists_cons_of_ne_nil hne
    rw [hstripes] at hperm ⊢
    let value (agg : VecAggregate) : Value :=
      ((rowsOf table predicate (List.range (blockCount table.rows))).foldl
        (accumulateRow table agg) {}).finalize agg.kind
    have hvalues : aggregates.zipIdx.map (fun x => value x.1) = aggregates.map value := by
      conv_rhs => rw [← List.zipIdx_map_fst 0 aggregates, List.map_map]
      rfl
    rw [← hvalues]
    refine mapM_of_forall fun x hx => ?_
    obtain ⟨agg, a⟩ := x
    have hget := List.mk_mem_zipIdx_iff_getElem?.mp hx
    obtain ⟨d, htype⟩ := hexact agg (List.mem_of_getElem? hget)
    have hgetD : ∀ blocks, (aggregates.map fun agg =>
        (rowsOf table predicate blocks).foldl (accumulateRow table agg) {}).getD a {} =
        (rowsOf table predicate blocks).foldl (accumulateRow table agg) {} := by
      intro blocks
      rw [List.getD_eq_getElem?_getD, List.getElem?_map, hget]
      rfl
    have hrows : (rowsOf table predicate first ++
        (rest.map (rowsOf table predicate)).flatten).Perm
        (rowsOf table predicate (List.range (blockCount table.rows))) := by
      rw [← List.flatten_cons, ← List.map_cons, ← rowsOf_flatten]
      exact hperm.flatMap_right _
    have hmerge := foldl_mergePartial htype (rowsOf table predicate first)
      (rest.map (rowsOf table predicate))
    rw [foldl_accumulateRow_perm htype hrows, List.map_map, List.foldl_map] at hmerge
    simp only [List.map_cons, List.foldl_map, hgetD]
    exact congrArg (fun acc => some (Acc.finalize agg.kind acc)) hmerge

/-- Three workers for one block. -/
theorem parallelColumnarAggregate_eq_threads :
    parallelColumnarAggregate (buildColumns [.Int] [[.int 1], [.null], [.int 5]])
        [{ kind := .Max, column := 0 }] none 3 =
      (some (columnarAggregate (buildColumns [.Int] [[.int 1], [.null], [.int 5]])
        [{ kind := .Max, column := 0 }] none),
      skipStats (buildColumns [.Int] [[.int 1], [.null], [.int 5]]) none) :=
  parallelColumnarAggregate_eq _ _ none 3 (by decide) (by decide)

end Relite.Vm
