import Relite.Txn.Rollback
import Relite.Vm.RowSpec
import Mathlib.Data.Multiset.AddSub

/-!
# The rows a rollback leaves

A rollback can be told from the tables it starts from: it leaves the rows at record ids
that no closure erases, and adds the rows that the closures insert (`rollback_rows`).
-/
namespace Relite.Vm.TableManager
open Lib

/-- The rows of a table, whatever their record ids. -/
def rows (tm : TableManager) (t : TableId) : Multiset Bytes := (tm.tuples t).map Prod.snd

/-- The rows at other record ids than these. -/
def rowsExcept (tm : TableManager) (rids : List RecordID) (t : TableId) : Multiset Bytes :=
  ((tm.tuples t).filter fun row => row.1 ∉ rids).map Prod.snd

theorem rowsExcept_nil (tm : TableManager) (t : TableId) : tm.rowsExcept [] t = tm.rows t := by
  simp [rowsExcept, rows]

theorem rows_eq_iff {tm tm' : TableManager} {t : TableId} :
    tm.rows t = tm'.rows t ↔
      ((tm.tuples t).map Prod.snd).Perm ((tm'.tuples t).map Prod.snd) := Multiset.coe_eq_coe

section

variable {tm tm' : TableManager} {rids rids' : List RecordID} {t u : TableId} {rid nr : RecordID}
  {b bytes : Bytes}

/-- Only which rows remain matters. -/
theorem WF.rowsExcept_congr (h : tm.WF) (h' : tm'.WF)
    (hsame : ∀ r v, tm.heap t r = some v ∧ r ∉ rids ↔ tm'.heap t r = some v ∧ r ∉ rids') :
    tm.rowsExcept rids t = tm'.rowsExcept rids' t := by
  refine Multiset.coe_eq_coe.mpr (List.Perm.map _ ?_)
  refine (List.perm_ext_iff_of_nodup ((h.nodup_tuples t).of_map.filter _)
    ((h'.nodup_tuples t).of_map.filter _)).mpr ?_
  rintro ⟨r, v⟩
  simpa [mem_tuples] using hsame r v

theorem WF.rowsExcept_of_mem_iff (h : tm.WF) (hsame : ∀ r, r ∈ rids ↔ r ∈ rids') :
    tm.rowsExcept rids t = tm.rowsExcept rids' t :=
  h.rowsExcept_congr h fun r v => by rw [hsame]

/-- A row that is left out as well. -/
theorem WF.rowsExcept_cons (h : tm.WF) (hb : tm.heap t rid = some b) (hrid : rid ∉ rids) :
    tm.rowsExcept rids t = b ::ₘ tm.rowsExcept (rid :: rids) t := by
  have hperm : ((tm.tuples t).filter fun row => row.1 ∉ rids).Perm
      ((rid, b) :: (tm.tuples t).filter fun row => row.1 ∉ rid :: rids) := by
    refine (List.perm_ext_iff_of_nodup ((h.nodup_tuples t).of_map.filter _) ?_).mpr ?_
    · exact List.nodup_cons.mpr ⟨by simp, (h.nodup_tuples t).of_map.filter _⟩
    · rintro ⟨r, v⟩
      simp only [List.mem_filter, mem_tuples, List.mem_cons, decide_not, Bool.not_eq_true',
        decide_eq_false_iff_not, Prod.mk.injEq, not_or]
      by_cases hr : r = rid
      · subst hr
        simp [hb, hrid, eq_comm]
      · simp [hr]
  exact (Multiset.coe_eq_coe.mpr (hperm.map Prod.snd)).trans (Multiset.cons_coe _ _).symm

theorem WF.rowsExcept_cons_dead (h : tm.WF) (hb : tm.heap t rid = none) :
    tm.rowsExcept (rid :: rids) t = tm.rowsExcept rids t := by
  refine h.rowsExcept_congr h fun r v => ?_
  grind

theorem WF.rowsExcept_eraseTuple (h : tm.WF) (rid : RecordID) :
    (tm.eraseTuple rid).1.rowsExcept rids t = tm.rowsExcept (rid :: rids) t := by
  obtain ⟨hwf, -, -, hheap⟩ := h.eraseTuple rid
  refine hwf.rowsExcept_congr h fun r v => ?_
  rw [hheap]
  grind

/-- The row that an insert adds does not count at its own record id. -/
theorem Inserted.rowsExcept_self (h : tm.WF) (h' : tm'.WF) (hins : Inserted tm u bytes tm' rid) :
    tm'.rowsExcept (rid :: rids) t = tm.rowsExcept rids t := by
  cases hins with
  | refused _ hheap =>
    have hnone : tm'.heap t {} = none := by
      cases hc : tm'.heap t {} with
      | none => rfl
      | some b =>
        have := (h'.allocated_of_heap hc).1
        simp at this
    rw [h'.rowsExcept_cons_dead hnone]
    exact h'.rowsExcept_congr h fun r v => by rw [hheap]
  | placed hfresh _ _ _ hheap =>
    refine h'.rowsExcept_congr h fun r v => ?_
    rw [hheap, setRow_apply]
    have : ∀ w, tm.heap t rid ≠ some w := fun w hw => hfresh (h.allocated_of_heap hw)
    grind

/-- And it counts when its record id is not left out. -/
theorem Inserted.rowsExcept (h : tm.WF) (h' : tm'.WF) (hins : Inserted tm u bytes tm' rid)
    (hne : bytes ≠ []) (hle : bytes.length ≤ 4080) (hrids : ∀ r ∈ rids, r = {} ∨ tm.Allocated r) :
    tm'.rowsExcept rids t = tm.rowsExcept rids t + if t = u then {bytes} else 0 := by
  have hself : tm'.rowsExcept (rid :: rids) t = tm.rowsExcept rids t :=
    hins.rowsExcept_self h h'
  cases hins with
  | refused hsize =>
    rcases hsize with hsize | hsize
    · exact absurd hsize hne
    · omega
  | placed hfresh halloc _ _ hheap =>
    have hnot : rid ∉ rids := fun hm => by
      rcases hrids rid hm with rfl | ha
      · simpa [RecordID.valid] using halloc.valid
      · exact hfresh ha
    split
    · rename_i ht
      subst ht
      have hb : tm'.heap t rid = some bytes := by rw [hheap, setRow_self]
      rw [h'.rowsExcept_cons hb hnot, hself, Multiset.add_comm, Multiset.singleton_add]
    · rename_i ht
      have hb : tm'.heap t rid = none := by
        rw [hheap, setRow_apply, if_neg (by tauto)]
        cases hc : tm.heap t rid with
        | none => rfl
        | some w => exact absurd (h.allocated_of_heap hc) hfresh
      rw [← h'.rowsExcept_cons_dead hb, hself, Multiset.add_zero]

/-- A rewrite takes the old row away, and the new one does not count at its record id. -/
theorem Updated.rowsExcept (h : tm.WF) (h' : tm'.WF) (hup : Updated tm u rid bytes tm' nr) :
    tm'.rowsExcept (nr :: rids) t = tm.rowsExcept (rid :: rids) t := by
  cases hup with
  | inPlace _ _ _ hheap =>
    refine h'.rowsExcept_congr h fun r v => ?_
    rw [hheap, setRow_apply]
    grind
  | moved hins =>
    rw [hins.rowsExcept_self (h.eraseTuple rid).1 h', h.rowsExcept_eraseTuple]

end

end Relite.Vm.TableManager

namespace Relite.Txn
open Lib Vm

/-- The rows of a table that the closures insert. -/
def restored (l : List HeapUndo) (t : TableId) : Multiset Bytes :=
  l.filterMap fun
    | .erase _ => none
    | .insert t' bytes => if t = t' then some bytes else none

theorem restored_append (l l' : List HeapUndo) (t : TableId) :
    restored (l ++ l') t = restored l t + restored l' t := by
  simp [restored]

theorem restored_nil (t : TableId) : restored [] t = 0 := rfl

theorem restored_erase (rid : RecordID) (l : List HeapUndo) (t : TableId) :
    restored (.erase rid :: l) t = restored l t := by
  simp [restored]

theorem restored_insert (u : TableId) (bytes : Bytes) (l : List HeapUndo) (t : TableId) :
    restored (.insert u bytes :: l) t = restored l t + if t = u then {bytes} else 0 := by
  by_cases ht : t = u <;> simp [restored, ht, ← Multiset.cons_coe, ← Multiset.singleton_add,
    Multiset.add_comm]

/-- A change that a rollback can make: it erases a record id handed out before, and it
puts back a row that fits on a page. -/
def HeapUndo.Fits (tm : TableManager) : HeapUndo → Prop
  | .erase rid => rid = {} ∨ tm.Allocated rid
  | .insert _ bytes => bytes ≠ [] ∧ bytes.length ≤ 4080

theorem HeapUndo.Fits.mono {tm tm' : TableManager} (hgrow : tm.Grows tm') {a : HeapUndo}
    (h : a.Fits tm) : a.Fits tm' := by
  cases a with
  | erase rid => exact h.imp_right (hgrow.allocated rid)
  | insert _ _ => exact h

/-- The record ids that the changes erase. -/
def erasedBy (l : List HeapUndo) : List RecordID :=
  l.filterMap fun
    | .erase rid => some rid
    | .insert _ _ => none

theorem foldl_heapUndo_rows (l : List HeapUndo) {tm : TableManager} (h : tm.WF)
    (hl : ∀ a ∈ l, a.Fits tm) (t : TableId) :
    (l.foldl HeapUndo.apply tm).rows t = tm.rowsExcept (erasedBy l) t + restored l t := by
  induction l generalizing tm with
  | nil => simp [restored, erasedBy, TableManager.rowsExcept_nil]
  | cons a l ih =>
    rw [List.foldl_cons]
    cases a with
    | erase rid =>
      have hgrow := (h.eraseTuple rid).2.1
      rw [HeapUndo.apply, ih (h.eraseTuple rid).1 fun a ha => (hl a (by simp [ha])).mono hgrow,
        h.rowsExcept_eraseTuple, restored_erase]
      rfl
    | insert u bytes =>
      obtain ⟨hne, hle⟩ := hl (.insert u bytes) (by simp)
      generalize hi : tm.insertTuple u bytes = result
      obtain ⟨tm', rid⟩ := result
      obtain ⟨hwf, hgrow, hins⟩ := h.insertTuple hi
      have hrids : ∀ r ∈ erasedBy l, r = {} ∨ tm.Allocated r := by
        intro r hr
        obtain ⟨a, ha, he⟩ := List.mem_filterMap.mp hr
        cases a with
        | erase rid' =>
          cases he
          exact hl (.erase r) (by simp [ha])
        | insert _ _ => cases he
      rw [HeapUndo.apply, hi, ih hwf fun a ha => (hl a (by simp [ha])).mono hgrow,
        hins.rowsExcept h hwf hne hle hrids, restored_insert, Multiset.add_assoc,
        Multiset.add_comm (ite _ _ _)]
      rfl

/-- The rows that a rollback leaves. -/
theorem rollback_rows (undo : List Undo) {tm : TableManager} (h : tm.WF)
    (hfits : ∀ a ∈ undo.flatten, a.Fits tm) (t : TableId) :
    (rollback undo tm).rows t = tm.rowsExcept (erased undo) t + restored undo.flatten t := by
  have hperm : undo.reverse.flatten.Perm undo.flatten := (List.reverse_perm undo).flatten
  rw [rollback, foldl_heapUndo_rows _ h fun a ha => hfits a (hperm.mem_iff.mp ha)]
  congr 1
  · exact h.rowsExcept_of_mem_iff fun r => (hperm.filterMap _).mem_iff
  · exact Multiset.coe_eq_coe.mpr (hperm.filterMap _)

end Relite.Txn
