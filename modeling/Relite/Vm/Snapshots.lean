import Relite.Vm.VersionRows
import Relite.Lib.Run

/-!
# Snapshots under garbage collection

Collecting history up to a horizon does not change what any version from the horizon on
reads. `maybeGc` takes its horizon from the size of the log and the retention setting
and never looks at `txnSnapshots`, so the snapshot of an open transaction is stable
exactly as long as no commit collects past it.
-/
namespace Relite.Vm
open Lib

namespace VersionStore

structure WF (vs : VersionStore) : Prop where
  sorted : vs.log.Pairwise fun a b => a.version ≤ b.version
  version_le : ∀ c ∈ vs.log, c.version ≤ vs.version
  baseline_le : vs.baselineVersion ≤ vs.version
  nodup : ∀ t rows, vs.baseline t = some rows → (rows.map Prod.fst).Nodup
  known_baseline : ∀ t, (vs.baseline t).isSome → t ∈ vs.knownTables
  known_log : ∀ c ∈ vs.log, c.tableId ∈ vs.knownTables
  known_pending : ∀ c ∈ vs.pending, c.tableId ∈ vs.knownTables

/-- The changes of a table with versions in `(low, high]`. -/
def between (t : TableId) (low high : Nat) (log : List Change) : List Change :=
  log.filter fun c => low < c.version ∧ c.version ≤ high ∧ c.tableId = t

/-- The rows of a table that its baseline holds. -/
def base (vs : VersionStore) (t : TableId) : List BaseRow := (vs.baseline t).getD []

theorem WF.nodup_base {vs : VersionStore} (h : vs.WF) (t : TableId) :
    ((vs.base t).map Prod.fst).Nodup := by
  unfold base
  cases hb : vs.baseline t with
  | none => simp
  | some rows => exact h.nodup t rows hb

theorem applyLog_eq {t : TableId} {low high : Nat} {log : List Change}
    (h : log.Pairwise fun a b => a.version ≤ b.version) (b : RowBuffer) :
    applyLog t low high log b = (between t low high log).foldl RowBuffer.apply b := by
  induction log generalizing b with
  | nil => rfl
  | cons c log ih =>
    obtain ⟨hc, hlog⟩ := List.pairwise_cons.mp h
    simp only [applyLog, between, List.filter_cons]
    by_cases hlow : c.version ≤ low
    · rw [if_pos hlow, ih hlog, if_neg (by simp; omega)]
      rfl
    by_cases hhigh : high < c.version
    · have hnone : between t low high log = [] := by
        rw [between, List.filter_eq_nil_iff]
        intro c' hm
        have := hc c' hm
        simp only [decide_eq_true_eq]
        omega
      rw [between] at hnone
      rw [if_neg hlow, if_pos hhigh, if_neg (by simp; omega), hnone]
      rfl
    by_cases ht : c.tableId = t
    · rw [if_neg hlow, if_neg hhigh, if_neg (by simp [ht]), ih hlog,
        if_pos (by simp [ht]; omega)]
      rfl
    · rw [if_neg hlow, if_neg hhigh, if_pos ht, ih hlog, if_neg (by simp [ht])]
      rfl

/-- `reconstruct` yields a map: the baseline with the later changes replayed. -/
theorem WF.reconstruct_spec {vs : VersionStore} (h : vs.WF) (t : TableId) (v : Nat) :
    ((vs.reconstruct t v).map Prod.fst).Nodup ∧
      rowMap (vs.reconstruct t v) = replay (rowMap (vs.base t))
        ((between t vs.baselineVersion v vs.log).map Change.write) := by
  obtain ⟨hok, hout⟩ := RowBuffer.ofRows_spec _ (h.nodup_base t)
  obtain ⟨hok', hmap⟩ := hok.foldl_apply (between t vs.baselineVersion v vs.log)
  simp only [reconstruct]
  rw [applyLog_eq h.sorted]
  exact ⟨hok'.nodup_out, by rw [hout] at hmap; exact hmap⟩

/-! ## Garbage collection -/

/-- A sorted log splits at any version. -/
theorem between_split (t : TableId) {low mid high : Nat} (hlm : low ≤ mid) (hmh : mid ≤ high)
    {log : List Change} (h : log.Pairwise fun a b => a.version ≤ b.version) :
    between t low high log = between t low mid log ++ between t mid high log := by
  induction log with
  | nil => rfl
  | cons c log ih =>
    obtain ⟨hc, hlog⟩ := List.pairwise_cons.mp h
    have ih := ih hlog
    simp only [between, List.filter_cons] at ih ⊢
    by_cases ht : c.tableId = t
    swap
    · simpa [ht] using ih
    by_cases hmid : c.version ≤ mid
    · rw [if_neg (by simp; omega : ¬decide (mid < c.version ∧ _) = true)]
      by_cases hlow : low < c.version
      · rw [if_pos (by simp [ht]; omega), if_pos (by simp [ht]; omega), ih]
        rfl
      · rw [if_neg (by simp; omega), if_neg (by simp; omega), ih]
    · have hnone : ∀ v, v ≤ mid → (log.filter fun c =>
          decide (low < c.version ∧ c.version ≤ v ∧ c.tableId = t)) = [] := by
        intro v hv
        rw [List.filter_eq_nil_iff]
        intro c' hm
        have := hc c' hm
        simp only [decide_eq_true_eq]
        omega
      rw [hnone mid (le_refl _)] at ih
      rw [hnone mid (le_refl _), if_neg (by simp; omega : ¬decide (low < c.version ∧
        c.version ≤ mid ∧ c.tableId = t) = true), List.nil_append, ih, List.nil_append]
      by_cases hhigh : c.version ≤ high
      · rw [if_pos (by simp [ht]; omega), if_pos (by simp [ht]; omega)]
      · rw [if_neg (by simp; omega), if_neg (by simp; omega)]

theorem between_filter {t : TableId} {mid high : Nat} (log : List Change) :
    between t mid high (log.filter fun c => mid < c.version) = between t mid high log := by
  simp only [between, List.filter_filter]
  apply List.filter_congr
  intro c _
  by_cases hm : mid < c.version <;> simp [hm]

theorem between_of_unknown {t : TableId} {low high : Nat} {log : List Change}
    (h : ∀ c ∈ log, c.tableId ≠ t) : between t low high log = [] := by
  rw [between, List.filter_eq_nil_iff]
  intro c hc
  simp [h c hc]

theorem WF.gc {vs : VersionStore} (h : vs.WF) (horizon : Nat) : (vs.gc horizon).WF := by
  unfold VersionStore.gc
  generalize hz : (if vs.version < horizon then vs.version else horizon) = z
  have hzv : z ≤ vs.version := by split at hz <;> omega
  simp only
  split
  · exact h
  · refine ⟨h.sorted.filter _, fun c hc => h.version_le c (List.mem_of_mem_filter hc), hzv, ?_, ?_,
      fun c hc => h.known_log c (List.mem_of_mem_filter hc), h.known_pending⟩
    · intro t rows hrows
      simp only at hrows
      split at hrows
      · cases hrows
        exact (h.reconstruct_spec t z).1
      · cases hrows
    · intro t ht
      simp only at ht ⊢
      by_contra hnot
      simp [hnot] at ht

theorem gc_baselineVersion (vs : VersionStore) (horizon : Nat) (h : horizon ≤ vs.version) :
    (vs.gc horizon).baselineVersion = max horizon vs.baselineVersion := by
  unfold VersionStore.gc
  simp only [if_neg (show ¬vs.version < horizon by omega)]
  split
  · omega
  · show horizon = _; omega

theorem gc_version (vs : VersionStore) (horizon : Nat) : (vs.gc horizon).version = vs.version := by
  unfold VersionStore.gc
  generalize (if vs.version < horizon then vs.version else horizon) = z
  simp only
  split <;> rfl

/-- Collection up to a horizon does not change what a version from the horizon on reads. -/
theorem WF.gc_reconstruct {vs : VersionStore} (h : vs.WF) {horizon v : Nat}
    (hv : horizon ≤ v) (t : TableId) :
    rowMap ((vs.gc horizon).reconstruct t v) = rowMap (vs.reconstruct t v) := by
  rw [((h.gc horizon).reconstruct_spec t v).2, (h.reconstruct_spec t v).2]
  unfold VersionStore.gc
  generalize hz : (if vs.version < horizon then vs.version else horizon) = z
  have hzv : z ≤ v := by split at hz <;> omega
  simp only
  split
  · rfl
  · rename_i hbase
    simp only [between_filter, base]
    rw [between_split t (by omega : vs.baselineVersion ≤ z) hzv h.sorted,
      List.map_append, replay_append]
    split
    · rw [Option.getD_some, (h.reconstruct_spec t z).2]
      rfl
    · rename_i hunknown
      have hlog : ∀ c ∈ vs.log, c.tableId ≠ t := fun c hc he => hunknown (he ▸ h.known_log c hc)
      have hbase : vs.baseline t = none := by
        by_contra hne
        exact hunknown (h.known_baseline t (Option.isSome_iff_ne_none.mpr hne))
      rw [between_of_unknown hlog, between_of_unknown hlog, hbase]
      rfl

theorem WF.maybeGc {vs : VersionStore} (h : vs.WF) : vs.maybeGc.WF := by
  unfold VersionStore.maybeGc
  split
  · exact h
  · split
    · exact h
    · exact h.gc _

/-- The store after the pending changes are stamped and appended, before `maybeGc`. -/
def appended (vs : VersionStore) : VersionStore :=
  { vs with
    version := vs.version + 1
    log := vs.log ++ vs.pending.map fun c => { c with version := vs.version + 1 }
    pending := [] }

theorem commitPending_eq (vs : VersionStore) :
    vs.commitPending = if vs.pending = [] then vs else vs.appended.maybeGc := rfl

theorem WF.appended {vs : VersionStore} (h : vs.WF) : vs.appended.WF where
  sorted := by
    refine List.pairwise_append.mpr ⟨h.sorted, ?_, ?_⟩
    · rw [List.pairwise_map]
      exact List.pairwise_of_forall fun _ _ => le_refl _
    · intro c hc c' hc'
      obtain ⟨d, -, rfl⟩ := List.mem_map.mp hc'
      have := h.version_le c hc
      simp only
      omega
  version_le c hc := by
    rcases List.mem_append.mp hc with hc | hc
    · have := h.version_le c hc
      simp only [VersionStore.appended]
      omega
    · obtain ⟨d, -, rfl⟩ := List.mem_map.mp hc
      exact le_refl _
  baseline_le := by
    have := h.baseline_le
    simp only [VersionStore.appended]
    omega
  nodup := h.nodup
  known_baseline := h.known_baseline
  known_log c hc := by
    rcases List.mem_append.mp hc with hc | hc
    · exact h.known_log c hc
    · obtain ⟨d, hd, rfl⟩ := List.mem_map.mp hc
      exact h.known_pending d hd
  known_pending c hc := by simp [VersionStore.appended] at hc

/-- New changes are later than every version that existed before. -/
theorem WF.appended_reconstruct {vs : VersionStore} (h : vs.WF) {v : Nat} (hv : v ≤ vs.version)
    (t : TableId) : rowMap (vs.appended.reconstruct t v) = rowMap (vs.reconstruct t v) := by
  rw [(h.appended.reconstruct_spec t v).2, (h.reconstruct_spec t v).2]
  have hnew : between t vs.baselineVersion v
      (vs.pending.map fun c => { c with version := vs.version + 1 }) = [] := by
    rw [between, List.filter_eq_nil_iff]
    intro c hc
    obtain ⟨d, -, rfl⟩ := List.mem_map.mp hc
    simp only [decide_eq_true_eq]
    omega
  have happ : between t vs.baselineVersion v vs.appended.log =
      between t vs.baselineVersion v vs.log := by
    simp only [VersionStore.appended]
    rw [between, List.filter_append]
    exact (congrArg _ hnew).trans (List.append_nil _)
  simp only [VersionStore.appended] at happ ⊢
  rw [happ]
  rfl

/-! ## Snapshots of open transactions -/

end VersionStore

/-- What transactions do to the version store. -/
inductive StoreOp
  | stageInsert (tableId : TableId) (rid : RecordID) (bytes : Bytes)
  | stageDelete (tableId : TableId) (rid : RecordID)
  | commitPending
  | discardPending
  | setRetention (maxChanges retainVersions : Nat)
  | beginSnapshot (txnId : Int)
  | endSnapshot (txnId : Int)

namespace VersionStore

def apply (vs : VersionStore) : StoreOp → VersionStore
  | .stageInsert t rid bytes => vs.stageInsert t rid bytes
  | .stageDelete t rid => vs.stageDelete t rid
  | .commitPending => vs.commitPending
  | .discardPending => vs.discardPending
  | .setRetention maxChanges retainVersions => vs.setRetention maxChanges retainVersions
  | .beginSnapshot txnId => vs.beginSnapshot txnId
  | .endSnapshot txnId => vs.endSnapshot txnId

/-- The step does not collect past version `s`. -/
def Spares (s : Nat) (vs : VersionStore) : StoreOp → Prop
  | .commitPending => vs.pending = [] ∨ vs.log.length + vs.pending.length ≤ vs.maxChanges ∨
      vs.version + 1 ≤ vs.retainVersions ∨ vs.version + 1 - vs.retainVersions ≤ s
  | _ => True

/-- The baseline has not passed version `s`, and every table without pending changes still
reads at `s` as it did in `vs₀`. -/
def StableAt (s : Nat) (vs₀ vs : VersionStore) : Prop :=
  vs.baselineVersion ≤ s ∧ ∀ t, (∀ c ∈ vs.pending, c.tableId ≠ t) →
    (vs.snapshotForTxn t s).Perm (vs₀.snapshotAsOf t s)

/-- What stability needs to be kept by the steps that spare `s`. -/
structure Keeps (s : Nat) (vs₀ vs : VersionStore) : Prop where
  wf : vs.WF
  le_version : s ≤ vs.version
  baseline_le : vs.baselineVersion ≤ s
  rows : ∀ t, rowMap (vs.reconstruct t s) = rowMap (vs₀.reconstruct t s)

theorem Keeps.stableAt {s : Nat} {vs₀ vs : VersionStore} (h₀ : Keeps s vs₀ vs₀)
    (h : Keeps s vs₀ vs) : StableAt s vs₀ vs := by
  refine ⟨h.baseline_le, fun t ht => ?_⟩
  have hpending : (vs.pending.filter fun c => c.tableId = t) = [] := by
    rw [List.filter_eq_nil_iff]
    simpa using ht
  have hnodup := (h.wf.reconstruct_spec t s).1
  have hnodup₀ := (h₀.wf.reconstruct_spec t s).1
  simp only [snapshotForTxn, snapshotAsOf, hpending, List.foldl_nil]
  rw [if_neg (by have := h.baseline_le; omega), if_neg (by have := h₀.baseline_le; omega),
    (RowBuffer.ofRows_spec _ hnodup).2]
  exact (perm_of_rowMap_eq hnodup hnodup₀ (h.rows t)).map _

theorem Keeps.commitPending {s : Nat} {vs₀ vs : VersionStore} (h : Keeps s vs₀ vs)
    (hs : Spares s vs .commitPending) : Keeps s vs₀ vs.commitPending := by
  rw [commitPending_eq]
  split
  · exact h
  rename_i hp
  have happ : Keeps s vs₀ vs.appended := by
    refine ⟨h.wf.appended, ?_, h.baseline_le, fun t => ?_⟩
    · have := h.le_version
      simp only [VersionStore.appended]
      omega
    · rw [h.wf.appended_reconstruct h.le_version, h.rows]
  have hlen : vs.appended.log.length = vs.log.length + vs.pending.length := by
    simp [VersionStore.appended]
  unfold VersionStore.maybeGc
  split
  · exact happ
  rename_i hlog
  split
  · exact happ
  rename_i hret
  have hhorizon : vs.appended.version - vs.appended.retainVersions ≤ s := by
    rcases hs with hs | hs | hs | hs
    · exact absurd hs hp
    · exact absurd (hlen ▸ hs) hlog
    · exact absurd hs hret
    · exact hs
  have hbase := gc_baselineVersion vs.appended
    (vs.appended.version - vs.appended.retainVersions) (Nat.sub_le _ _)
  refine ⟨happ.wf.gc _, ?_, ?_, fun t => ?_⟩
  · rw [gc_version]; exact happ.le_version
  · rw [hbase]
    exact max_le hhorizon happ.baseline_le
  · rw [happ.wf.gc_reconstruct hhorizon, happ.rows]

theorem WF.stage {vs : VersionStore} (h : vs.WF) (c : Change) :
    WF { vs with pending := vs.pending ++ [c], knownTables := vs.knownTables.insert c.tableId } where
  sorted := h.sorted
  version_le := h.version_le
  baseline_le := h.baseline_le
  nodup := h.nodup
  known_baseline t ht := List.mem_insert_of_mem (h.known_baseline t ht)
  known_log d hd := List.mem_insert_of_mem (h.known_log d hd)
  known_pending d hd := by
    rcases List.mem_append.mp hd with hd | hd
    · exact List.mem_insert_of_mem (h.known_pending d hd)
    · rw [List.mem_singleton.mp hd]
      exact List.mem_insert_self

theorem wf_empty : WF {} where
  sorted := List.Pairwise.nil
  version_le c hc := by simp at hc
  baseline_le := le_refl _
  nodup t rows h := by cases h
  known_baseline t h := by cases h
  known_log c hc := by simp at hc
  known_pending c hc := by simp at hc

/-- Every operation keeps the store well formed. -/
theorem WF.apply {vs : VersionStore} (h : vs.WF) (o : StoreOp) : (vs.apply o).WF := by
  cases o with
  | stageInsert t rid bytes => exact h.stage _
  | stageDelete t rid => exact h.stage _
  | commitPending =>
    simp only [VersionStore.apply, commitPending_eq]
    split
    · exact h
    · exact h.appended.maybeGc
  | discardPending =>
    exact ⟨h.sorted, h.version_le, h.baseline_le, h.nodup, h.known_baseline, h.known_log,
      by simp [VersionStore.apply, discardPending]⟩
  | setRetention m r =>
    exact ⟨h.sorted, h.version_le, h.baseline_le, h.nodup, h.known_baseline, h.known_log,
      h.known_pending⟩
  | beginSnapshot txn =>
    exact ⟨h.sorted, h.version_le, h.baseline_le, h.nodup, h.known_baseline, h.known_log,
      h.known_pending⟩
  | endSnapshot txn =>
    exact ⟨h.sorted, h.version_le, h.baseline_le, h.nodup, h.known_baseline, h.known_log,
      h.known_pending⟩

theorem Keeps.apply {s : Nat} {vs₀ vs : VersionStore} (h : Keeps s vs₀ vs) {o : StoreOp}
    (hs : Spares s vs o) : Keeps s vs₀ (vs.apply o) := by
  cases o with
  | commitPending => exact h.commitPending hs
  | _ => exact ⟨h.wf.apply _, h.le_version, h.baseline_le, h.rows⟩

/-- A commit that collects past `s` moves the baseline past `s`. -/
theorem spares_of_baseline_le {s : Nat} {vs : VersionStore} {o : StoreOp}
    (h : (vs.apply o).baselineVersion ≤ s) : Spares s vs o := by
  cases o with
  | commitPending =>
    by_contra hs
    simp only [Spares, not_or] at hs
    obtain ⟨hp, hlog, hret, hlate⟩ := hs
    have hlen : vs.appended.log.length = vs.log.length + vs.pending.length := by
      simp [VersionStore.appended]
    have hbase := gc_baselineVersion vs.appended
      (vs.appended.version - vs.appended.retainVersions) (Nat.sub_le _ _)
    simp only [VersionStore.apply, commitPending_eq, if_neg hp, VersionStore.maybeGc] at h
    rw [if_neg (by rw [hlen]; exact hlog),
      if_neg (show ¬vs.appended.version ≤ vs.appended.retainVersions from hret), hbase] at h
    exact hlate (le_of_max_le_left h)
  | _ => trivial

/-- The snapshot of a transaction is stable over a run exactly when no commit of the run
collects past it. -/
theorem snapshot_stable_iff {vs : VersionStore} (h : vs.WF) (txnId : Int) (ops : List StoreOp) :
    AllStates apply (StableAt vs.version (vs.beginSnapshot txnId)) (vs.beginSnapshot txnId) ops ↔
      AllSteps apply (Spares vs.version) (vs.beginSnapshot txnId) ops := by
  have hstart : Keeps vs.version (vs.beginSnapshot txnId) (vs.beginSnapshot txnId) :=
    ⟨h.apply (.beginSnapshot txnId), le_refl _, h.baseline_le, fun _ => rfl⟩
  constructor
  · intro hstable
    exact hstable.allSteps (fun _ => True) (fun _ _ _ _ => trivial)
      (fun _ _ _ hq => spares_of_baseline_le hq.1) trivial
  · intro hspares
    have hkeeps := run_invariant (Keeps vs.version (vs.beginSnapshot txnId))
      (fun _ _ hk hs => hk.apply hs) hstart hspares
    exact hkeeps.imp fun _ hk => hstart.stableAt hk

/-- With the default retention a short history is never collected. -/
theorem snapshot_stable_default :
    AllStates apply (StableAt 0 (beginSnapshot {} 7)) (beginSnapshot {} 7)
      [.stageInsert 1 ⟨0, 0⟩ [1], .commitPending] :=
  (snapshot_stable_iff wf_empty 7 _).mpr ⟨trivial, .inr (.inl (by decide)), trivial⟩

/-- A store with one committed row that keeps no history, as `setRetention 0 0` asks for. -/
def oneRow : VersionStore :=
  run apply {} [.setRetention 0 0, .stageInsert 1 ⟨0, 0⟩ [1], .commitPending]

/-- The next commit is collected at once, and the open transaction reads its row. -/
theorem snapshot_not_stable :
    ¬AllStates apply (StableAt oneRow.version (oneRow.beginSnapshot 7)) (oneRow.beginSnapshot 7)
        [.stageInsert 1 ⟨0, 1⟩ [2], .commitPending] ∧
      (oneRow.beginSnapshot 7).snapshotForTxn 1 oneRow.version = [[1]] ∧
      (run apply (oneRow.beginSnapshot 7) [.stageInsert 1 ⟨0, 1⟩ [2], .commitPending]).snapshotForTxn
        1 oneRow.version = [[1], [2]] := by
  refine ⟨fun h => ?_, by decide, by decide⟩
  have hlen := (h.last.2 1 (by decide)).length_eq
  revert hlen
  decide

end VersionStore

end Relite.Vm
