import Relite.Txn.Recovery
import Relite.Txn.Rollback

/-!
# Histories of logged heap changes

Transactions insert, delete and overwrite tuples, each change is logged, and a
transaction holds every record id it has touched until it ends. An abort undoes the
changes of a transaction without logging that. `History` is what a state reached so has
in common with the log.
-/
namespace Relite.Txn
open Lib Vm Backend

/-- The heap in memory, the log, which transaction holds which record id, and the undo
closures of the active transactions. -/
structure Volatile where
  tables : TableManager
  wal : WriteAheadLog
  holder : RecordID → Option TxnId
  nextTxnId : TxnId
  active : TxnId → Option (List Undo)

inductive HeapOp
  | start
  | insert (txnId : TxnId) (tableId : TableId) (bytes : Bytes)
  | delete (txnId : TxnId) (tableId : TableId) (rid : RecordID)
  | overwrite (txnId : TxnId) (tableId : TableId) (rid : RecordID) (bytes : Bytes)
  | commit (txnId : TxnId)
  | abort (txnId : TxnId)
  deriving DecidableEq

namespace Volatile

/-- The transaction is active and nobody else holds the record id. -/
def MayTouch (v : Volatile) (txnId : TxnId) (rid : RecordID) : Prop :=
  (v.active txnId).isSome ∧ (v.holder rid = none ∨ v.holder rid = some txnId)

instance (v : Volatile) (txnId : TxnId) (rid : RecordID) : Decidable (v.MayTouch txnId rid) := by
  unfold MayTouch; infer_instance

/-- The tables are changed at `rid`, which the transaction holds from now on, the change
is logged and its undo registered. -/
def change (v : Volatile) (tables : TableManager) (r : LogRecord) (undo : List Undo) :
    Volatile where
  tables := tables
  wal := v.wal.append r
  holder := Function.update v.holder r.rid (some r.txnId)
  nextTxnId := v.nextTxnId
  active := Function.update v.active r.txnId ((v.active r.txnId).map (· ++ undo))

/-- The last step of an ending transaction. -/
def finish (v : Volatile) (type : LogType) (txnId : TxnId) (tables : TableManager) : Volatile where
  tables := tables
  wal := v.wal.append { txnId, type }
  holder := fun rid => if v.holder rid = some txnId then none else v.holder rid
  nextTxnId := v.nextTxnId
  active := Function.update v.active txnId none

def step (v : Volatile) : HeapOp → Option Volatile
  | .start =>
    some { v with
      wal := v.wal.append { txnId := v.nextTxnId, type := .Begin }
      nextTxnId := v.nextTxnId + 1
      active := Function.update v.active v.nextTxnId (some []) }
  | .insert txnId tableId bytes =>
    let (tables, rid) := v.tables.insertTuple tableId bytes
    if (v.active txnId).isSome ∧ rid.valid then
      some (v.change tables { txnId, type := .Insert, tableId, rid, afterImage := bytes }
        [[.erase rid]])
    else none
  | .delete txnId tableId rid =>
    match v.tables.getTuple rid with
    | some before =>
      if v.MayTouch txnId rid ∧ rid.pageId ∈ v.tables.pageList tableId then
        some (v.change (v.tables.eraseTuple rid).1
          { txnId, type := .Delete, tableId, rid, beforeImage := before } [[.insert tableId before]])
      else none
    | none => none
  | .overwrite txnId tableId rid bytes =>
    match v.tables.getTuple rid, (v.tables.page rid.pageId).update rid.slotId bytes with
    | some before, some page =>
      if v.MayTouch txnId rid ∧ rid.pageId ∈ v.tables.pageList tableId then
        let tables := v.tables.setPage rid.pageId page
        let v := v.change tables { txnId, type := .Delete, tableId, rid, beforeImage := before } []
        some (v.change tables { txnId, type := .Insert, tableId, rid, afterImage := bytes }
          [[.erase rid, .insert tableId before]])
      else none
    | _, _ => none
  | .commit txnId =>
    match v.active txnId with
    | some _ => some (v.finish .Commit txnId v.tables)
    | none => some v
  | .abort txnId =>
    match v.active txnId with
    | some undo => some (v.finish .Abort txnId (rollback undo v.tables))
    | none => some v

def runOps (v : Volatile) (ops : List HeapOp) : Option Volatile := ops.foldlM step v

/-- The state when a database is opened on `tables` with an empty log. -/
def opened (tables : TableManager) : Volatile := ⟨tables, {}, fun _ => none, 1, fun _ => none⟩

/-- The log names the record id. -/
def Named (v : Volatile) (rid : RecordID) : Prop :=
  ∃ u ∈ updates v.wal.records, u.key = rid

/-- A record id that an abort has left empty for good. -/
def Abandoned (v : Volatile) (rid : RecordID) : Prop :=
  v.holder rid = none ∧ v.tables.getTuple rid = none ∧ v.Named rid

end Volatile

/-- What the state of a history has in common with its log. `m` is what the record ids
held before the first change of the log to them. -/
structure History (m : RecordID → Option Bytes) (v : Volatile) : Prop where
  sound : v.tables.Sound
  wal : v.wal.WF
  wellFormed : ∀ r ∈ v.wal.records, r.WellFormed
  allocated : ∀ rid, v.Named rid → v.tables.Allocated rid
  consistent : Consistent m (updates v.wal.records)
  contents : ∀ rid, v.tables.getTuple rid = replay m ((updates v.wal.records).map Update.redo) rid ∨
    v.Abandoned rid
  losersHold : LosersHold (committedTxns v.wal.records) (updates v.wal.records)
  held : ∀ u ∈ updates v.wal.records, committedTxns v.wal.records u.txn = true ∨
    v.holder u.key = some u.txn ∨ v.Abandoned u.key
  heldNamed : ∀ rid t, v.holder rid = some t → v.Named rid
  undone : ∀ t undo, v.active t = some undo → ∀ u ∈ updates v.wal.records, u.txn = t →
    v.tables.getTuple u.key = none ∨ u.key ∈ erased undo
  erasedHeld : ∀ t undo, v.active t = some undo → ∀ rid ∈ erased undo, v.holder rid = some t
  recordsLt : ∀ r ∈ v.wal.records, r.txnId < v.nextTxnId
  activeLt : ∀ t undo, v.active t = some undo →
    t < v.nextTxnId ∧ committedTxns v.wal.records t = false

theorem committedTxns_append (a b : List LogRecord) (txnId : TxnId) :
    committedTxns (a ++ b) txnId = (committedTxns a txnId || committedTxns b txnId) := by
  simp [committedTxns]

theorem mem_updates {records : List LogRecord} {u : Update TxnId RecordID Bytes} :
    u ∈ updates records ↔ ∃ r ∈ records, r.update = some u := List.mem_filterMap

theorem LogRecord.update_eq {r : LogRecord} {u : Update TxnId RecordID Bytes}
    (h : r.update = some u) : u.txn = r.txnId ∧ u.key = r.rid := by
  unfold LogRecord.update at h
  split at h
  · cases h; exact ⟨rfl, rfl⟩
  · cases h; exact ⟨rfl, rfl⟩
  · cases h

theorem LogRecord.isSome_update {r : LogRecord} (h : r.type = .Insert ∨ r.type = .Delete) :
    ∃ u, r.update = some u := by
  unfold LogRecord.update
  rcases h with h | h <;> simp [h]

namespace WriteAheadLog

/-- A record that changes nothing. -/
theorem updates_append_quiet (wal : WriteAheadLog) {r : LogRecord} (ht : r.type ≠ .Insert)
    (ht' : r.type ≠ .Delete) : updates (wal.append r).records = updates wal.records := by
  have hnone : LogRecord.update { r with lsn := wal.nextLsn } = none := by
    unfold LogRecord.update
    cases hr : r.type <;> simp_all
  simp [WriteAheadLog.append, updates, hnone]

theorem updates_append_change (wal : WriteAheadLog) {r : LogRecord}
    {u : Update TxnId RecordID Bytes} (hu : r.update = some u) :
    updates (wal.append r).records = updates wal.records ++ [u] := by
  have hlsn : LogRecord.update { r with lsn := wal.nextLsn } = r.update := rfl
  simp [WriteAheadLog.append, updates, hlsn, hu]

theorem committedTxns_append (wal : WriteAheadLog) (r : LogRecord) (t : TxnId) :
    committedTxns (wal.append r).records t =
      (committedTxns wal.records t || (r.type = .Commit ∧ r.txnId = t : Bool)) := by
  simp [WriteAheadLog.append, committedTxns]

theorem mem_append {wal : WriteAheadLog} {r q : LogRecord} (h : q ∈ (wal.append r).records) :
    q ∈ wal.records ∨ q = { r with lsn := wal.nextLsn } := by
  simpa [WriteAheadLog.append] using h

end WriteAheadLog

namespace History

variable {m : RecordID → Option Bytes} {v v' : Volatile}

theorem opened {tables : TableManager} (h : tables.Sound) :
    History tables.getTuple (.opened tables) where
  sound := h
  wal := WriteAheadLog.wf_empty
  wellFormed r hr := by simp [Volatile.opened] at hr
  allocated rid := by rintro ⟨u, hu, -⟩; simp [updates, Volatile.opened] at hu
  consistent := trivial
  contents rid := .inl rfl
  losersHold := List.Pairwise.nil
  held u hu := by simp [updates, Volatile.opened] at hu
  heldNamed rid t h := by cases h
  undone t undo h := by cases h
  erasedHeld t undo h := by cases h
  recordsLt r hr := by simp [Volatile.opened] at hr
  activeLt t undo h := by cases h

theorem not_abandoned_of_live (rid : RecordID) {b : Bytes} (h : v.tables.getTuple rid = some b) :
    ¬v.Abandoned rid := by
  rintro ⟨-, hnone, -⟩
  rw [h] at hnone
  cases hnone

/-- A fresh record id is neither named nor held. -/
theorem of_fresh (h : History m v) {rid : RecordID} (hfresh : ¬v.tables.Allocated rid) :
    v.tables.getTuple rid = none ∧ v.holder rid = none ∧ ¬v.Abandoned rid := by
  refine ⟨?_, ?_, fun ha => hfresh (h.allocated _ ha.2.2)⟩
  · cases hc : v.tables.getTuple rid with
    | none => rfl
    | some b => exact absurd (h.sound.allocated_of_getTuple hc) hfresh
  · cases hh : v.holder rid with
    | none => rfl
    | some t => exact absurd (h.allocated _ (h.heldNamed _ _ hh)) hfresh

/-- A logged change of one record id. -/
theorem change (h : History m v) {tables : TableManager} {r : LogRecord} {undo : List Undo}
    {before after : Option Bytes} (hu : r.update = some ⟨r.txnId, r.rid, before, after⟩)
    (hr : r.WellFormed) (hs : tables.Sound)
    (hgrow : ∀ rid, v.tables.Allocated rid → tables.Allocated rid)
    (halloc : tables.Allocated r.rid) (hbefore : v.tables.getTuple r.rid = before)
    (hget : tables.getTuple = Function.update v.tables.getTuple r.rid after)
    (hact : (v.active r.txnId).isSome)
    (hfree : v.holder r.rid = none ∨ v.holder r.rid = some r.txnId)
    (hnot : ¬v.Abandoned r.rid) (hundo : after = none ∨ r.rid ∈ erased undo)
    (hself : ∀ rid ∈ erased undo, rid = r.rid) : History m (v.change tables r undo) := by
  have hupdate := v.wal.updates_append_change hu
  have hcomm : ∀ t, committedTxns (v.wal.append r).records t = committedTxns v.wal.records t := by
    intro t
    have : r.type ≠ .Commit := by
      intro ht
      rw [LogRecord.update, ht] at hu
      cases hu
    simp [WriteAheadLog.committedTxns_append, this]
  have hnamed : ∀ rid, (v.change tables r undo).Named rid ↔ v.Named rid ∨ rid = r.rid := by
    intro rid
    simp [Volatile.Named, Volatile.change, hupdate, or_and_right, exists_or, eq_comm]
  -- what was abandoned stays so
  have habandoned : ∀ rid, v.Abandoned rid → (v.change tables r undo).Abandoned rid := by
    intro rid ha
    have hne : rid ≠ r.rid := fun he => hnot (he ▸ ha)
    refine ⟨?_, ?_, (hnamed rid).mpr (.inl ha.2.2)⟩
    · simp [Volatile.change, hne, ha.1]
    · simp [Volatile.change, hget, hne, ha.2.1]
  obtain ⟨undo₀, hundo₀⟩ := Option.isSome_iff_exists.mp hact
  have hconsistent : Consistent m (updates (v.wal.append r).records) := by
    rw [hupdate]
    refine consistent_append.mpr ⟨h.consistent, ?_, trivial⟩
    rcases h.contents r.rid with hc | hc
    · exact hbefore.symm.trans hc
    · exact absurd hc hnot
  refine ⟨hs, h.wal.append r, ?_, ?_, hconsistent, ?_, ?_, ?_, ?_, ?_, ?_, ?_, ?_⟩
  · intro q hq
    rcases WriteAheadLog.mem_append hq with hq | rfl
    · exact h.wellFormed q hq
    · exact hr
  · intro rid hn
    rcases (hnamed rid).mp hn with hn | rfl
    · exact hgrow _ (h.allocated rid hn)
    · exact halloc
  · intro rid
    simp only [Volatile.change, hupdate, List.map_append, replay_append, hget,
      Function.update_apply]
    by_cases hrid : rid = r.rid
    · left
      simp [hrid, Update.redo]
    · rcases h.contents rid with hc | hc
      · left
        simp [hrid, hc, Update.redo]
      · exact .inr (habandoned rid hc)
  · simp only [Volatile.change, hupdate]
    refine List.pairwise_append.mpr ⟨h.losersHold.mono fun t ht => (hcomm t).trans ht,
      List.pairwise_singleton _ _, ?_⟩
    intro u hu' w hw hloser hk
    rw [List.mem_singleton.mp hw] at hk ⊢
    have hheld := h.held u hu'
    rw [hcomm] at hloser
    grind
  · simp only [Volatile.change, hupdate]
    intro u hu'
    rw [hcomm]
    rcases List.mem_append.mp hu' with hu' | hu'
    · rcases h.held u hu' with hc | hh | ha
      · exact .inl hc
      · right; left
        rw [Function.update_apply]
        grind
      · exact .inr (.inr (habandoned _ ha))
    · rw [List.mem_singleton.mp hu']
      right; left
      simp
  · intro rid t ht
    rw [hnamed]
    simp only [Volatile.change, Function.update_apply] at ht
    split at ht
    · exact .inr ‹_›
    · exact .inl (h.heldNamed rid t ht)
  · intro t undo' ht u hu' hut
    simp only [Volatile.change, Function.update_apply, hundo₀, hupdate, hget] at ht hu' ⊢
    by_cases hk : u.key = r.rid
    · by_cases htx : t = r.txnId
      · simp only [htx, if_true, Option.map_some, Option.some.injEq] at ht
        rw [← ht, erased_append, hk]
        simp only [if_true, List.mem_append]
        exact hundo.imp_right .inr
      · have hold : u ∈ updates v.wal.records := by
          rcases List.mem_append.mp hu' with hu' | hu'
          · exact hu'
          · rw [List.mem_singleton.mp hu'] at hut
            exact absurd hut.symm htx
        rw [if_neg htx] at ht
        have hloser := (h.activeLt t undo' ht).2
        have hheld := h.held u hold
        grind
    · have hold : u ∈ updates v.wal.records := by
        rcases List.mem_append.mp hu' with hu' | hu'
        · exact hu'
        · exact absurd (by rw [List.mem_singleton.mp hu']) hk
      rw [if_neg hk]
      split at ht
      · rename_i htx
        simp only [Option.map_some, Option.some.injEq] at ht
        rw [← ht, erased_append, List.mem_append]
        exact (h.undone t undo₀ (htx ▸ hundo₀) u hold hut).imp_right .inl
      · exact h.undone t undo' ht u hold hut
  · intro t undo' ht rid hrid
    simp only [Volatile.change, Function.update_apply, hundo₀] at ht ⊢
    have hold := h.erasedHeld t
    split at ht
    · rename_i htx
      simp only [Option.map_some, Option.some.injEq] at ht
      rw [← ht, erased_append, List.mem_append] at hrid
      have hold₀ := hold undo₀ (htx ▸ hundo₀) rid
      grind
    · have hold' := hold undo' ht rid hrid
      grind
  · intro q hq
    rcases WriteAheadLog.mem_append hq with hq | rfl
    · exact h.recordsLt q hq
    · exact (h.activeLt _ _ hundo₀).1
  · intro t undo' ht
    simp only [Volatile.change, Function.update_apply, hcomm] at ht ⊢
    split at ht
    · rename_i htx
      exact htx ▸ h.activeLt _ _ hundo₀
    · exact h.activeLt t undo' ht

/-- A transaction starts under a new number. -/
theorem start (h : History m v) (hstep : v.step .start = some v') :
    History m v' ∧ v'.tables = v.tables := by
  cases hstep
  have hupdate : updates (v.wal.append { txnId := v.nextTxnId, type := .Begin }).records =
      updates v.wal.records := v.wal.updates_append_quiet (by simp) (by simp)
  have hcomm : ∀ t, committedTxns (v.wal.append { txnId := v.nextTxnId, type := .Begin }).records t =
      committedTxns v.wal.records t := by
    intro t
    simp [WriteAheadLog.committedTxns_append]
  have hlt : ∀ r ∈ v.wal.records, r.txnId ≠ v.nextTxnId := fun r hr => (h.recordsLt r hr).ne
  refine ⟨⟨h.sound, h.wal.append _, ?_, ?_, ?_, ?_, ?_, ?_, ?_, ?_, ?_, ?_, ?_⟩, rfl⟩
  · intro q hq
    rcases WriteAheadLog.mem_append hq with hq | rfl
    · exact h.wellFormed q hq
    · exact ⟨nofun, nofun⟩
  · simpa only [Volatile.Named, hupdate] using h.allocated
  · simpa only [hupdate] using h.consistent
  · simpa only [Volatile.Abandoned, Volatile.Named, hupdate] using h.contents
  · simp only [hupdate]
    exact h.losersHold.mono fun t ht => (hcomm t).trans ht
  · simpa only [Volatile.Abandoned, Volatile.Named, hupdate, hcomm] using h.held
  · simpa only [Volatile.Named, hupdate] using h.heldNamed
  · intro t undo hact u hu hut
    simp only [hupdate, Function.update_apply] at hu hact
    split at hact
    · rename_i htx
      obtain ⟨r, hr, hru⟩ := mem_updates.mp hu
      have htxn := (LogRecord.update_eq hru).1
      exact absurd (htxn.symm.trans (hut.trans htx)) (hlt r hr)
    · exact h.undone t undo hact u hu hut
  · intro t undo hact rid hrid
    simp only [Function.update_apply] at hact
    split at hact
    · cases hact
      simp at hrid
    · exact h.erasedHeld t undo hact rid hrid
  · intro q hq
    rcases WriteAheadLog.mem_append hq with hq | rfl
    · exact Int.lt_add_one_of_le (h.recordsLt q hq).le
    · exact Int.lt_succ _
  · intro t undo hact
    simp only [Function.update_apply, hcomm] at hact ⊢
    split at hact
    · rename_i htx
      subst htx
      refine ⟨Int.lt_succ _, ?_⟩
      simp only [committedTxns, List.any_eq_false, decide_eq_true_eq]
      exact fun r hr hc => hlt r hr hc.2
    · exact (h.activeLt t undo hact).imp_left fun hlt => Int.lt_add_one_of_le hlt.le

/-- A transaction ends, and the record ids it has touched are abandoned unless it commits. -/
theorem finish (h : History m v) {type : LogType} {txnId : TxnId} {undo : List Undo}
    (hact : v.active txnId = some undo) (ht : type = .Commit ∨ type = .Abort)
    {tables : TableManager} {m' : RecordID → Option Bytes} (hs : tables.Sound)
    (hgrow : v.tables.Grows tables) (hm : ∀ rid, v.Named rid → m' rid = m rid)
    (hget : ∀ rid, v.Named rid → tables.getTuple rid =
      if type = .Abort ∧ rid ∈ erased undo then none else v.tables.getTuple rid)
    (hnew : ∀ rid, ¬v.Named rid → tables.getTuple rid = m' rid) :
    History m' (v.finish type txnId tables) := by
  have hupdate : updates (v.wal.append { txnId, type }).records = updates v.wal.records :=
    v.wal.updates_append_quiet (by grind) (by grind)
  have hcomm : ∀ t, committedTxns (v.wal.append { txnId, type }).records t =
      (committedTxns v.wal.records t || (type = .Commit ∧ txnId = t : Bool)) :=
    v.wal.committedTxns_append _
  have hnamed : ∀ rid, (v.finish type txnId tables).Named rid ↔ v.Named rid := by
    intro rid
    simp only [Volatile.Named, Volatile.finish, hupdate]
  have hfree : ∀ rid, v.holder rid = none → (v.finish type txnId tables).holder rid = none := by
    intro rid hh
    simp [Volatile.finish, hh]
  have hempty : ∀ rid, v.Named rid → v.tables.getTuple rid = none → tables.getTuple rid = none := by
    intro rid hn hnone
    rw [hget rid hn, hnone, ite_self]
  have habandoned : ∀ rid, v.Abandoned rid → (v.finish type txnId tables).Abandoned rid :=
    fun rid ha => ⟨hfree rid ha.1, hempty rid ha.2.2 ha.2.1, (hnamed rid).mpr ha.2.2⟩
  have hkey : ∀ u ∈ updates v.wal.records, v.Named u.key := fun u hu => ⟨u, hu, rfl⟩
  refine ⟨hs, h.wal.append _, ?_, ?_, ?_, ?_, ?_, ?_, ?_, ?_, ?_, ?_, ?_⟩
  · intro q hq
    rcases WriteAheadLog.mem_append hq with hq | rfl
    · exact h.wellFormed q hq
    · exact ⟨by grind, by grind⟩
  · exact fun rid hn => hgrow.allocated _ (h.allocated rid ((hnamed rid).mp hn))
  · simp only [Volatile.finish, hupdate]
    exact h.consistent.congr fun u hu => hm _ (hkey u hu)
  · intro rid
    simp only [Volatile.finish, hupdate]
    by_cases hn : v.Named rid
    · by_cases he : type = .Abort ∧ rid ∈ erased undo
      · right
        exact ⟨by simp [h.erasedHeld _ _ hact rid he.2], (hget rid hn).trans (if_pos he),
          (hnamed rid).mpr hn⟩
      · rcases h.contents rid with hc | hc
        · left
          rw [hget rid hn, if_neg he, hc]
          exact replay_congr (hm rid hn).symm rfl
        · exact .inr (habandoned rid hc)
    · left
      rw [hnew rid hn, replay_of_not_mem]
      intro w hw hk
      obtain ⟨u, hu, rfl⟩ := List.mem_map.mp hw
      exact hn ⟨u, hu, hk⟩
  · simp only [Volatile.finish, hupdate]
    exact h.losersHold.mono fun t ht => by rw [hcomm, ht]; rfl
  · simp only [Volatile.finish, hupdate]
    intro u hu
    rcases h.held u hu with hc | hh | ha
    · left
      rw [hcomm, hc]
      rfl
    · by_cases hut : u.txn = txnId
      · rcases ht with rfl | rfl
        · left
          rw [hcomm]
          simp [hut]
        · right; right
          refine ⟨by simp [hh, hut], (hget _ (hkey u hu)).trans ?_, (hnamed _).mpr (hkey u hu)⟩
          have := h.undone txnId undo hact u hu hut
          grind
      · right; left
        simp [hh, hut]
    · exact .inr (.inr (habandoned _ ha))
  · intro rid t hh
    rw [hnamed]
    simp only [Volatile.finish] at hh
    exact h.heldNamed rid t (by grind)
  · intro t undo' hact' u hu hut
    simp only [Volatile.finish, hupdate, Function.update_apply] at hact' hu ⊢
    split at hact'
    · cases hact'
    · exact (h.undone t undo' hact' u hu hut).imp_left (hempty _ (hkey u hu))
  · intro t undo' hact' rid hrid
    simp only [Volatile.finish, Function.update_apply] at hact' ⊢
    split at hact'
    · cases hact'
    · have := h.erasedHeld t undo' hact' rid hrid
      grind
  · intro q hq
    rcases WriteAheadLog.mem_append hq with hq | rfl
    · exact h.recordsLt q hq
    · exact (h.activeLt _ _ hact).1
  · intro t undo' hact'
    simp only [Volatile.finish, Function.update_apply, hcomm] at hact' ⊢
    split at hact'
    · cases hact'
    · have := h.activeLt t undo' hact'
      grind

theorem commit (h : History m v) {txnId : TxnId} {undo : List Undo}
    (hact : v.active txnId = some undo) : History m (v.finish .Commit txnId v.tables) := by
  refine h.finish hact (.inl rfl) h.sound (.refl _) (fun _ _ => rfl) (by simp) fun rid hn => ?_
  rcases h.contents rid with hc | hc
  · rw [hc, replay_of_not_mem]
    intro w hw hk
    obtain ⟨u, hu, rfl⟩ := List.mem_map.mp hw
    exact hn ⟨u, hu, hk⟩
  · exact absurd hc.2.2 hn

open Classical in
/-- The rows that an abort puts back are new contents of record ids that the log does not
name. -/
theorem abort (h : History m v) {txnId : TxnId} {undo : List Undo}
    (hact : v.active txnId = some undo) :
    ∃ m', History m' (v.finish .Abort txnId (rollback undo v.tables)) ∧
      ∀ rid, v.Named rid → m' rid = m rid := by
  obtain ⟨hs, hgrow, hget⟩ := rollback_spec h.sound undo
  refine ⟨fun rid => if v.Named rid then m rid else (rollback undo v.tables).getTuple rid,
    h.finish hact (.inr rfl) hs hgrow (fun rid hn => if_pos hn) (fun rid hn => ?_)
      (fun rid hn => (if_neg hn).symm), fun rid hn => if_pos hn⟩
  rw [hget rid (h.allocated rid hn)]
  simp

theorem step (h : History m v) {o : HeapOp} (hstep : v.step o = some v') :
    v.tables.Grows v'.tables ∧ ∃ m', History m' v' ∧ (∀ rid, v.Named rid → m' rid = m rid) ∧
      ((∀ t, o ≠ .abort t) → m' = m) := by
  have hsame : ∀ m', m' = m → (∀ rid, v.Named rid → m' rid = m rid) ∧
      ((∀ t, o ≠ .abort t) → m' = m) := fun m' he => ⟨fun _ _ => by rw [he], fun _ => he⟩
  cases o with
  | start =>
    obtain ⟨h', htables⟩ := h.start hstep
    rw [htables]
    exact ⟨.refl _, m, h', hsame m rfl⟩
  | insert txnId tableId bytes =>
    simp only [Volatile.step] at hstep
    generalize hi : v.tables.insertTuple tableId bytes = result at hstep
    obtain ⟨tables, rid⟩ := result
    obtain ⟨hs, hgrow, -, hst⟩ := h.sound.insertTuple hi
    cases hst with
    | refused => simp [RecordID.valid] at hstep
    | placed hfresh halloc hne hle hmem hget =>
      split at hstep
      swap
      · cases hstep
      rename_i hact
      cases hstep
      obtain ⟨hdead, hheld, hnot⟩ := h.of_fresh hfresh
      exact ⟨hgrow, m, h.change rfl ⟨fun _ => ⟨halloc.1, hne⟩, by rintro ⟨⟩⟩ hs hgrow.allocated halloc
        hdead hget hact.1 (.inl hheld) hnot (.inr (by simp [erased])) (by simp [erased]),
        hsame m rfl⟩
  | delete txnId tableId rid =>
    simp only [Volatile.step] at hstep
    split at hstep
    swap
    · cases hstep
    rename_i before hb
    split at hstep
    swap
    · cases hstep
    rename_i hmay
    cases hstep
    have halloc := h.sound.allocated_of_getTuple hb
    obtain ⟨hs, hgrow, -, -, hget⟩ := h.sound.eraseTuple rid
    exact ⟨hgrow, m, h.change rfl
      ⟨by rintro ⟨⟩, fun _ => ⟨halloc.1, TableManager.ne_nil_of_getTuple hb⟩⟩ hs hgrow.allocated (hgrow.allocated _ halloc) hb hget hmay.1.1 hmay.1.2
      (not_abandoned_of_live rid hb) (.inl rfl) (by simp [erased]), hsame m rfl⟩
  | overwrite txnId tableId rid bytes =>
    simp only [Volatile.step] at hstep
    split at hstep
    swap
    · cases hstep
    rename_i before page hb hup
    split at hstep
    swap
    · cases hstep
    rename_i hmay
    cases hstep
    have halloc := h.sound.allocated_of_getTuple hb
    obtain ⟨hs₁, hgrow₁, -, -, hget₁⟩ := h.sound.eraseTuple rid
    obtain ⟨hs₂, hgrow₂, hne, hget₂⟩ := h.sound.overwrite hup
    obtain ⟨undo, hundo⟩ := Option.isSome_iff_exists.mp hmay.1.1
    -- the two log records are those of an erase and an insert at the same record id
    have herased : History m (v.change (v.tables.eraseTuple rid).1
        { txnId, type := .Delete, tableId, rid, beforeImage := before } []) :=
      h.change rfl ⟨by rintro ⟨⟩, fun _ => ⟨halloc.1, TableManager.ne_nil_of_getTuple hb⟩⟩ hs₁
        hgrow₁.allocated (hgrow₁.allocated _ halloc) hb hget₁ hmay.1.1 hmay.1.2
        (not_abandoned_of_live rid hb) (.inl rfl) (by simp)
    have hupdate : LogRecord.update { txnId, type := .Insert, tableId, rid, afterImage := bytes } =
        some ⟨txnId, rid, none, some bytes⟩ := rfl
    have hboth : History m ((v.change (v.tables.eraseTuple rid).1
        { txnId, type := .Delete, tableId, rid, beforeImage := before } []).change
        (v.tables.setPage rid.pageId page)
        { txnId, type := .Insert, tableId, rid, afterImage := bytes }
        [[.erase rid, .insert tableId before]]) :=
      herased.change hupdate ⟨fun _ => ⟨halloc.1, hne⟩, by rintro ⟨⟩⟩ hs₂
        (fun r hr => hgrow₂.allocated r (h.sound.allocated_of_eraseTuple hr))
        (hgrow₂.allocated _ halloc) (by simp [Volatile.change, hget₁])
        (by simp [Volatile.change, hget₁, hget₂]) (by simp [Volatile.change, hundo])
        (.inr (by simp [Volatile.change])) (by simp [Volatile.Abandoned, Volatile.change])
        (.inr (by simp [erased])) (by simp [erased])
    exact ⟨hgrow₂, m, hboth, hsame m rfl⟩
  | commit txnId =>
    simp only [Volatile.step] at hstep
    split at hstep
    · cases hstep
      exact ⟨.refl _, m, h.commit ‹_›, hsame m rfl⟩
    · cases hstep
      exact ⟨.refl _, m, h, hsame m rfl⟩
  | abort txnId =>
    simp only [Volatile.step] at hstep
    split at hstep
    · rename_i undo hact
      cases hstep
      obtain ⟨m', h', hm⟩ := h.abort hact
      exact ⟨(rollback_spec h.sound undo).2.1, m', h', hm, fun hne => absurd rfl (hne txnId)⟩
    · cases hstep
      exact ⟨.refl _, m, h, hsame m rfl⟩

end History

end Relite.Txn
