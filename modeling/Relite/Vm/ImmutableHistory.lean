import Relite.Vm.Snapshots

/-!
# History does not change

Commits append changes of a version that is later than all before, and a collection folds
changes into the baseline of their tables. So from the baseline on, the rows of a table as
of a version stay as they were when that version was first the current one or an earlier
one.
-/
namespace Relite.Vm
open Lib

/-- The calls on a version store, those of transactions and a collection. -/
inductive HistoryOp
  | store (o : StoreOp)
  | gc (horizon : Nat)

namespace VersionStore

def applyHistory (vs : VersionStore) : HistoryOp → VersionStore
  | .store o => vs.apply o
  | .gc horizon => vs.gc horizon

/-- A new store with the given retention. -/
def new (maxChanges retainVersions : Nat) : VersionStore := { maxChanges, retainVersions }

theorem wf_new (maxChanges retainVersions : Nat) : (new maxChanges retainVersions).WF :=
  wf_empty.apply (.setRetention maxChanges retainVersions)

theorem WF.history {vs : VersionStore} (h : vs.WF) (o : HistoryOp) :
    (vs.applyHistory o).WF := by
  cases o with
  | store o => exact h.apply o
  | gc horizon => exact h.gc horizon

theorem WF.runHistory {vs : VersionStore} (h : vs.WF) (ops : List HistoryOp) :
    (run applyHistory vs ops).WF := by
  induction ops generalizing vs with
  | nil => exact h
  | cons o ops ih => exact ih (h.history o)

/-! ## The baseline only moves forward -/

theorem baseline_le_gc (vs : VersionStore) (horizon : Nat) :
    vs.baselineVersion ≤ (vs.gc horizon).baselineVersion := by
  unfold VersionStore.gc
  generalize (if vs.version < horizon then vs.version else horizon) = z
  simp only
  split
  · exact le_rfl
  · show vs.baselineVersion ≤ z
    omega

theorem baseline_le_commitPending (vs : VersionStore) :
    vs.baselineVersion ≤ vs.commitPending.baselineVersion := by
  rw [commitPending_eq]
  split
  · exact le_rfl
  unfold VersionStore.maybeGc
  split
  · exact le_rfl
  split
  · exact le_rfl
  · exact baseline_le_gc vs.appended _

theorem baseline_le_apply (vs : VersionStore) (o : HistoryOp) :
    vs.baselineVersion ≤ (vs.applyHistory o).baselineVersion := by
  cases o with
  | gc horizon => exact baseline_le_gc vs horizon
  | store o =>
    cases o with
    | commitPending => exact baseline_le_commitPending vs
    | _ => exact le_rfl

theorem baseline_le_run (vs : VersionStore) (ops : List HistoryOp) :
    vs.baselineVersion ≤ (run applyHistory vs ops).baselineVersion := by
  induction ops generalizing vs with
  | nil => exact le_rfl
  | cons o ops ih => exact (baseline_le_apply vs o).trans (ih _)

/-! ## Steps that leave the baseline behind a version keep its rows -/

theorem Keeps.gc {v : Nat} {vs₀ vs : VersionStore} (h : Keeps v vs₀ vs) {horizon : Nat}
    (hbase : (vs.gc horizon).baselineVersion ≤ v) : Keeps v vs₀ (vs.gc horizon) := by
  refine ⟨h.wf.gc horizon, ?_, hbase, fun t => ?_⟩
  · rw [gc_version]
    exact h.le_version
  rw [← h.rows t]
  rcases le_total horizon vs.version with hle | hle
  · rw [gc_baselineVersion vs horizon hle] at hbase
    exact h.wf.gc_reconstruct ((le_max_left _ _).trans hbase) t
  · -- a horizon past the current version is that version
    have hclamp : vs.gc horizon = vs.gc vs.version := by
      unfold VersionStore.gc
      rcases hle.lt_or_eq with hlt | heq
      · rw [if_pos hlt, if_neg (lt_irrefl _)]
      · rw [heq]
    rw [hclamp, gc_baselineVersion vs vs.version le_rfl] at hbase
    rw [hclamp]
    exact h.wf.gc_reconstruct ((le_max_left _ _).trans hbase) t

theorem Keeps.history {v : Nat} {vs₀ vs : VersionStore} (h : Keeps v vs₀ vs) {o : HistoryOp}
    (hbase : (vs.applyHistory o).baselineVersion ≤ v) : Keeps v vs₀ (vs.applyHistory o) := by
  cases o with
  | store o => exact h.apply (spares_of_baseline_le hbase)
  | gc horizon => exact h.gc hbase

/-- The induction is over the run; the baseline at its end bounds all those on the way. -/
theorem Keeps.runHistory {v : Nat} {vs₀ vs : VersionStore} (h : Keeps v vs₀ vs)
    {ops : List HistoryOp} (hbase : (run applyHistory vs ops).baselineVersion ≤ v) :
    Keeps v vs₀ (run applyHistory vs ops) := by
  induction ops generalizing vs with
  | nil => exact h
  | cons o ops ih => exact ih (h.history ((baseline_le_run _ ops).trans hbase)) hbase

/-- What a version that exists reads stays the same, in every run, for as long as the
baseline has not passed it. -/
theorem history_immutable (maxChanges retainVersions : Nat) (before after : List HistoryOp)
    (t : TableId) (v : Nat) :
    let vs₀ := run applyHistory (new maxChanges retainVersions) before
    let vs := run applyHistory vs₀ after
    v ≤ vs₀.version → vs.baselineVersion ≤ v →
      rowMap (vs.reconstruct t v) = rowMap (vs₀.reconstruct t v) ∧
        (vs.snapshotAsOf t v).Perm (vs₀.snapshotAsOf t v) := by
  intro vs₀ vs hversion hbase
  have hwf : vs₀.WF := (wf_new maxChanges retainVersions).runHistory before
  have hbase₀ : vs₀.baselineVersion ≤ v := (baseline_le_run vs₀ after).trans hbase
  have hkeeps : Keeps v vs₀ vs :=
    Keeps.runHistory ⟨hwf, hversion, hbase₀, fun _ => rfl⟩ hbase
  refine ⟨hkeeps.rows t, ?_⟩
  unfold snapshotAsOf
  rw [if_neg (Nat.not_lt.mpr hbase), if_neg (Nat.not_lt.mpr hbase₀)]
  exact (perm_of_rowMap_eq (hkeeps.wf.reconstruct_spec t v).1 (hwf.reconstruct_spec t v).1
    (hkeeps.rows t)).map _

/-- A row that the second commit deletes is still read as of the first after a collection
up to it. -/
theorem history_immutable_delete :
    let before : List HistoryOp := [.store (.stageInsert 1 ⟨0, 0⟩ [1]), .store .commitPending]
    let after : List HistoryOp :=
      [.store (.stageDelete 1 ⟨0, 0⟩), .store .commitPending, .gc 1]
    let vs₀ := run applyHistory (new 10 10) before
    let vs := run applyHistory vs₀ after
    rowMap (vs.reconstruct 1 1) = rowMap (vs₀.reconstruct 1 1) ∧
      (vs.snapshotAsOf 1 1).Perm (vs₀.snapshotAsOf 1 1) :=
  history_immutable 10 10 _ _ 1 1 (by decide) (by decide)

end VersionStore

end Relite.Vm
