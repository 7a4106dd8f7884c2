import Relite.Txn.RollbackRows
import Relite.Txn.Wal
import Mathlib.Algebra.Order.Group.Multiset

/-!
# What a transaction would leave if it were undone now

`UndoRows` follows the tables, the undo closures and the log records of a transaction
step by step. A rollback would give back the rows the transaction began with, and once
more each row whose removal was logged at a record id that the transaction had logged
before: its closure inserts the row, and the closure of the earlier record does not take
it away.
-/
namespace Relite.Txn
open Lib Vm

/-- The removals at a record id that is named by an earlier record, or by `seen`. -/
def removedAgain (seen : List RecordID) : List LogRecord → List LogRecord
  | [] => []
  | r :: l =>
    (if r.type = .Delete ∧ r.rid ∈ seen then [r] else []) ++ removedAgain (r.rid :: seen) l

theorem removedAgain_snoc (seen : List RecordID) (l : List LogRecord) (r : LogRecord) :
    removedAgain seen (l ++ [r]) = removedAgain seen l ++
      if r.type = .Delete ∧ (r.rid ∈ seen ∨ r.rid ∈ l.map LogRecord.rid) then [r] else [] := by
  induction l generalizing seen with
  | nil => simp [removedAgain]
  | cons r' l ih =>
    simp only [List.cons_append, removedAgain, ih, List.append_assoc]
    congr 3
    simp only [List.mem_cons, List.map_cons, eq_iff_iff]
    tauto

/-- The rows of a table in these records. -/
def imagesOf (records : List LogRecord) (t : TableId) : Multiset Bytes :=
  (records.filter fun r => r.tableId = t).map LogRecord.beforeImage

theorem imagesOf_append (l l' : List LogRecord) (t : TableId) :
    imagesOf (l ++ l') t = imagesOf l t + imagesOf l' t := by
  simp [imagesOf]

theorem imagesOf_eq_zero_iff {l : List LogRecord} : (∀ t, imagesOf l t = 0) ↔ l = [] := by
  constructor
  · intro h
    refine List.eq_nil_iff_forall_not_mem.mpr fun r hr => ?_
    have hnil := h r.tableId
    simp only [imagesOf, Multiset.coe_eq_zero, List.map_eq_nil_iff, List.filter_eq_nil_iff] at hnil
    exact hnil r hr (by simp)
  · rintro rfl t
    rfl

/-- The tables, the closures and the log of a transaction that began with `before`. -/
structure UndoRows (before : TableId → Multiset Bytes) (tm : TableManager) (undo : List Undo)
    (logged : List LogRecord) : Prop where
  fits : ∀ a ∈ undo.flatten, a.Fits tm
  erased_logged : ∀ rid ∈ erased undo, rid ∈ logged.map LogRecord.rid
  gone : ∀ rid ∈ logged.map LogRecord.rid,
    rid ∈ erased undo ∨ tm.Allocated rid ∧ tm.getTuple rid = none
  rows : ∀ t, tm.rowsExcept (erased undo) t + restored undo.flatten t =
    before t + imagesOf (removedAgain [] logged) t

namespace UndoRows

variable {before : TableId → Multiset Bytes} {tm tm' : TableManager} {undo : List Undo}
  {logged : List LogRecord} {t : TableId} {rid nr : RecordID} {bytes newBytes : Bytes}

theorem start (tm : TableManager) : UndoRows (fun t => tm.rows t) tm [] [] where
  fits a ha := by simp at ha
  erased_logged rid h := by simp at h
  gone rid h := by simp at h
  rows t := by simp [TableManager.rowsExcept_nil, restored, imagesOf, removedAgain]

/-- A rollback from here. -/
theorem rollback (h : UndoRows before tm undo logged) (hwf : tm.WF) (t : TableId) :
    (Txn.rollback undo tm).rows t = before t + imagesOf (removedAgain [] logged) t :=
  (rollback_rows undo hwf h.fits t).trans (h.rows t)

/-- Leaving out a row that was read: it still counts unless its record id was logged. -/
theorem leaveOut (h : UndoRows before tm undo logged) (hwf : tm.WF)
    (hseen : rid ∈ logged.map LogRecord.rid ∨ tm.heap t rid = some bytes) (u : TableId) :
    tm.rowsExcept (erased undo) u = tm.rowsExcept (rid :: erased undo) u +
      if rid ∉ logged.map LogRecord.rid ∧ u = t then {bytes} else 0 := by
  by_cases hlogged : rid ∈ logged.map LogRecord.rid
  · rw [if_neg (by simp [hlogged]), add_zero]
    rcases h.gone rid hlogged with hm | ⟨-, hdead⟩
    · refine hwf.rowsExcept_of_mem_iff fun r => ?_
      simp only [List.mem_cons, iff_or_self]
      rintro rfl
      exact hm
    · refine (hwf.rowsExcept_cons_dead ?_).symm
      simp [TableManager.heap, hdead]
  · have hb := hseen.resolve_left hlogged
    have hnot : rid ∉ erased undo := fun hm => hlogged (h.erased_logged rid hm)
    by_cases hu : u = t
    · subst hu
      rw [if_pos ⟨hlogged, rfl⟩, hwf.rowsExcept_cons hb hnot, add_comm, Multiset.singleton_add]
    · rw [if_neg (by simp [hu]), add_zero]
      refine (hwf.rowsExcept_cons_dead ?_).symm
      cases hc : tm.heap u rid with
      | none => rfl
      | some v => exact absurd (hwf.owner_unique hc hb) hu

/-- What a record of a removal adds to the rows that come back twice. -/
theorem imagesOf_removal (r : LogRecord) (htype : r.type = .Delete) (u : TableId) :
    imagesOf (removedAgain [] (logged ++ [r])) u = imagesOf (removedAgain [] logged) u +
      if r.rid ∈ logged.map LogRecord.rid ∧ u = r.tableId then {r.beforeImage} else 0 := by
  rw [removedAgain_snoc, imagesOf_append]
  congr 1
  by_cases hm : r.rid ∈ logged.map LogRecord.rid
  · by_cases hu : u = r.tableId
    · simp [imagesOf, htype, hm, hu]
    · simp [imagesOf, htype, hm, hu, eq_comm]
  · simp [imagesOf, hm]

theorem imagesOf_insertion (r : LogRecord) (htype : r.type = .Insert) (u : TableId) :
    imagesOf (removedAgain [] (logged ++ [r])) u = imagesOf (removedAgain [] logged) u := by
  simp [removedAgain_snoc, htype]

/-- A row is put back by its closure, whether or not it still counts. -/
theorem balance (P Q : Prop) [Decidable P] [Decidable Q] (a b : Multiset Bytes)
    (c : Multiset Bytes) :
    a + (b + if Q then c else 0) =
      (a + if ¬P ∧ Q then c else 0) + b + if P ∧ Q then c else 0 := by
  by_cases hP : P <;> by_cases hQ : Q <;> simp [hP, hQ] <;> ac_rfl

theorem insert (h : UndoRows before tm undo logged) (hwf : tm.WF)
    (hi : tm.insertTuple t bytes = (tm', rid)) {r : LogRecord} (htype : r.type = .Insert)
    (hrid : r.rid = rid) : UndoRows before tm' (undo ++ [[.erase rid]]) (logged ++ [r]) := by
  obtain ⟨hwf', hgrow, hins⟩ := hwf.insertTuple hi
  have hlater := hwf.later_insertTuple t bytes
  rw [hi] at hlater
  have herased : erased (undo ++ [[.erase rid]]) = erased undo ++ [rid] := by simp [erased]
  refine ⟨fun a ha => ?_, fun x hx => ?_, fun x hx => ?_, fun u => ?_⟩
  · simp only [List.flatten_append, List.mem_append, List.flatten_cons, List.flatten_nil,
      List.append_nil, List.mem_singleton] at ha
    rcases ha with ha | rfl
    · exact (h.fits a ha).mono hgrow
    · cases hins with
      | refused => exact .inl rfl
      | placed _ halloc => exact .inr halloc
  · rw [herased, List.mem_append, List.mem_singleton] at hx
    have := h.erased_logged x
    grind
  · have := h.gone x
    have := hlater.dead x
    have := hgrow.allocated x
    grind
  · rw [imagesOf_insertion r htype, ← h.rows u, herased, List.flatten_append, restored_append]
    have hmem : ∀ x, x ∈ erased undo ++ [rid] ↔ x ∈ rid :: erased undo := fun x => by
      simp [or_comm]
    rw [hwf'.rowsExcept_of_mem_iff hmem, hins.rowsExcept_self hwf hwf']
    simp [restored]

theorem erase (h : UndoRows before tm undo logged) (hwf : tm.WF) (hfound : tm.Found t rid bytes)
    (hseen : rid ∈ logged.map LogRecord.rid ∨ tm.heap t rid = some bytes) {r : LogRecord}
    (htype : r.type = .Delete) (hrid : r.rid = rid) (htable : r.tableId = t)
    (himage : r.beforeImage = bytes) :
    UndoRows before (tm.eraseTuple rid).1 (undo ++ [[.insert t bytes]]) (logged ++ [r]) := by
  obtain ⟨hwf', hgrow, -, -⟩ := hwf.eraseTuple rid
  obtain ⟨-, -, -, -, hget⟩ := hwf.toSound.eraseTuple rid
  have hlater := hwf.later_eraseTuple rid
  have herased : erased (undo ++ [[.insert t bytes]]) = erased undo := by simp [erased]
  refine ⟨fun a ha => ?_, fun x hx => ?_, fun x hx => ?_, fun u => ?_⟩
  · simp only [List.flatten_append, List.mem_append, List.flatten_cons, List.flatten_nil,
      List.append_nil, List.mem_singleton] at ha
    rcases ha with ha | rfl
    · exact (h.fits a ha).mono hgrow
    · exact ⟨hfound.ne_nil, hfound.length_le⟩
  · have := h.erased_logged x (herased ▸ hx)
    simp only [List.map_append, List.mem_append]
    exact .inl this
  · rw [herased]
    have := h.gone x
    have := hlater.dead x
    have := hgrow.allocated x
    have := hgrow.allocated rid hfound.allocated
    have hself : (tm.eraseTuple rid).1.getTuple rid = none := by rw [hget, Function.update_self]
    grind
  · rw [imagesOf_removal r htype, ← add_assoc, ← h.rows u, herased, List.flatten_append,
      restored_append, hwf.rowsExcept_eraseTuple, h.leaveOut hwf hseen u, hrid, htable, himage]
    simp only [List.flatten_cons, List.flatten_nil, List.append_nil, restored_insert,
      restored_nil, zero_add]
    exact balance _ _ _ _ _

theorem rewrite (h : UndoRows before tm undo logged) (hwf : tm.WF) (hfound : tm.Found t rid bytes)
    (hseen : rid ∈ logged.map LogRecord.rid ∨ tm.heap t rid = some bytes)
    (hu : tm.updateTuple t rid newBytes = (tm', nr)) {r r' : LogRecord} (htype : r.type = .Delete)
    (hrid : r.rid = rid) (htable : r.tableId = t) (himage : r.beforeImage = bytes)
    (htype' : r'.type = .Insert) (hrid' : r'.rid = nr) :
    UndoRows before tm' (undo ++ [[.erase nr, .insert t bytes]]) (logged ++ [r, r']) := by
  obtain ⟨hwf', hgrow, hup⟩ := hwf.updateTuple (fun _ => hfound.listed) hu
  have hlater := hwf.later_updateTuple t rid newBytes
  rw [hu] at hlater
  have herased : erased (undo ++ [[.erase nr, .insert t bytes]]) = erased undo ++ [nr] := by
    simp [erased]
  refine ⟨fun a ha => ?_, fun x hx => ?_, fun x hx => ?_, fun u => ?_⟩
  · simp only [List.flatten_append, List.mem_append, List.flatten_cons, List.flatten_nil,
      List.append_nil, List.mem_cons, List.not_mem_nil, or_false] at ha
    rcases ha with ha | rfl | rfl
    · exact (h.fits a ha).mono hgrow
    · cases hup with
      | inPlace => exact .inr (hgrow.allocated _ hfound.allocated)
      | moved hins =>
        cases hins with
        | refused => exact .inl rfl
        | placed _ halloc => exact .inr halloc
    · exact ⟨hfound.ne_nil, hfound.length_le⟩
  · rw [herased, List.mem_append, List.mem_singleton] at hx
    have := h.erased_logged x
    grind
  · have := h.gone x
    have := hlater.dead x
    have := hgrow.allocated x
    have := hgrow.allocated rid hfound.allocated
    have := hwf.getTuple_updateTuple hfound.allocated hu
    grind
  · rw [show logged ++ [r, r'] = (logged ++ [r]) ++ [r'] by simp, imagesOf_insertion r' htype',
      imagesOf_removal r htype, ← add_assoc, ← h.rows u, herased, List.flatten_append,
      restored_append, h.leaveOut hwf hseen u, hrid, htable, himage]
    have hmem : ∀ x, x ∈ erased undo ++ [nr] ↔ x ∈ nr :: erased undo := fun x => by
      simp [or_comm]
    rw [hwf'.rowsExcept_of_mem_iff hmem, hup.rowsExcept hwf hwf']
    simp only [List.flatten_cons, List.flatten_nil, List.append_nil, restored_erase,
      restored_insert, restored_nil, zero_add]
    exact balance _ _ _ _ _

end UndoRows

end Relite.Txn
