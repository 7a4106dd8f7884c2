import Relite.Vm.Heap

/-!
# Rollback on the heap

What the undo closures of a transaction do to the tables, as data. A closure erases
record ids that the transaction has filled, and inserts rows that it has removed, at
whatever record ids the heap then hands out. None of this is logged.
-/
namespace Relite.Txn
open Lib Vm

/-- One heap change of an undo closure. -/
inductive HeapUndo
  | erase (rid : RecordID)
  | insert (tableId : TableId) (bytes : Bytes)
  deriving DecidableEq, Repr

abbrev Undo := List HeapUndo

def HeapUndo.apply (tables : TableManager) : HeapUndo → TableManager
  | .erase rid => (tables.eraseTuple rid).1
  | .insert tableId bytes => (tables.insertTuple tableId bytes).1

/-- The closures run in reverse order of registration. -/
def rollback (undo : List Undo) (tables : TableManager) : TableManager :=
  undo.reverse.flatten.foldl HeapUndo.apply tables

/-- The record ids that the closures erase. -/
def erased (undo : List Undo) : List RecordID :=
  undo.flatten.filterMap fun
    | .erase rid => some rid
    | .insert _ _ => none

@[simp] theorem erased_nil : erased [] = [] := rfl

theorem erased_append (a b : List Undo) : erased (a ++ b) = erased a ++ erased b := by
  simp [erased]

theorem mem_erased {undo : List Undo} {rid : RecordID} :
    rid ∈ erased undo ↔ ∃ u ∈ undo, HeapUndo.erase rid ∈ u := by
  simp only [erased, List.mem_filterMap, List.mem_flatten]
  constructor
  · rintro ⟨a, ⟨u, hu, ha⟩, he⟩
    cases a with
    | erase rid' => cases he; exact ⟨u, hu, ha⟩
    | insert _ _ => cases he
  · rintro ⟨u, hu, ha⟩
    exact ⟨_, ⟨u, hu, ha⟩, rfl⟩

/-- A rollback step at the record ids that were handed out before it. -/
theorem heapUndo_spec {tables : TableManager} (h : tables.Sound) (a : HeapUndo) :
    (a.apply tables).Sound ∧ tables.Grows (a.apply tables) ∧
      ∀ rid, tables.Allocated rid → (a.apply tables).getTuple rid =
        if a = .erase rid then none else tables.getTuple rid := by
  cases a with
  | erase rid =>
    obtain ⟨hs, hgrow, -, -, hget⟩ := h.eraseTuple rid
    refine ⟨hs, hgrow, fun r _ => ?_⟩
    simp only [HeapUndo.apply, hget, Function.update_apply, HeapUndo.erase.injEq, eq_comm]
  | insert tableId bytes =>
    generalize hi : tables.insertTuple tableId bytes = result
    obtain ⟨tables', rid⟩ := result
    obtain ⟨hs, hgrow, -, hst⟩ := h.insertTuple hi
    simp only [HeapUndo.apply, hi, reduceCtorEq, if_false]
    refine ⟨hs, hgrow, fun r hr => ?_⟩
    cases hst with
    | refused _ hget => rw [hget]
    | placed hfresh _ _ _ _ hget =>
      have hne : r ≠ rid := fun he => hfresh (he ▸ hr)
      rw [hget, Function.update_of_ne hne]

theorem foldl_heapUndo_spec (l : List HeapUndo) {tables : TableManager} (h : tables.Sound) :
    (l.foldl HeapUndo.apply tables).Sound ∧ tables.Grows (l.foldl HeapUndo.apply tables) ∧
      ∀ rid, tables.Allocated rid → (l.foldl HeapUndo.apply tables).getTuple rid =
        if .erase rid ∈ l then none else tables.getTuple rid := by
  induction l generalizing tables with
  | nil => exact ⟨h, .refl _, by simp⟩
  | cons a l ih =>
    obtain ⟨hs, hgrow, hget⟩ := heapUndo_spec h a
    obtain ⟨hs', hgrow', hget'⟩ := ih hs
    refine ⟨hs', hgrow.trans hgrow', fun rid hr => ?_⟩
    rw [List.foldl_cons, hget' rid (hgrow.allocated rid hr), hget rid hr]
    by_cases ha : a = .erase rid <;> simp [ha, eq_comm]

/-- A rollback empties the record ids it erases and leaves all others that were handed
out as they were. -/
theorem rollback_spec {tables : TableManager} (h : tables.Sound) (undo : List Undo) :
    (rollback undo tables).Sound ∧ tables.Grows (rollback undo tables) ∧
      ∀ rid, tables.Allocated rid → (rollback undo tables).getTuple rid =
        if rid ∈ erased undo then none else tables.getTuple rid := by
  obtain ⟨hs, hgrow, hget⟩ := foldl_heapUndo_spec undo.reverse.flatten h
  refine ⟨hs, hgrow, fun rid hr => ?_⟩
  have hmem : HeapUndo.erase rid ∈ undo.reverse.flatten ↔ rid ∈ erased undo := by
    simp [mem_erased]
  rw [Txn.rollback, hget rid hr]
  simp only [hmem]

end Relite.Txn
