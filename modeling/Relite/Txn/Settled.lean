import Relite.Txn.Recovery
import Relite.Txn.RollbackRows

/-!
# Recovery that changes nothing

The log of a database that is opened again can name rows that have long been on disk. It
leaves the rows of a table alone if each record id that it names holds what the log says
last of it, and the pages that it puts rows back on are those of their tables.
-/
namespace Relite.Txn
open Lib Vm Backend

/-- Recovery puts a row back at the record id: the record is an insert of a committed
transaction, or a delete of another one. -/
def LogRecord.PutsBack (committed : TxnId → Bool) (r : LogRecord) : Prop :=
  if committed r.txnId then r.type = .Insert else r.type = .Delete

instance (committed : TxnId → Bool) (r : LogRecord) : Decidable (r.PutsBack committed) := by
  unfold LogRecord.PutsBack; infer_instance

instance (r : LogRecord) (tm : TableManager) : Decidable (r.OnPage tm) := by
  unfold LogRecord.OnPage; infer_instance

/-- The log has nothing to change in these tables. -/
structure SettledLog (records : List LogRecord) (tables : List TableId) (tm : TableManager) :
    Prop where
  onPage : ∀ r ∈ records, r.OnPage tm
  wellFormed : ∀ r ∈ records, r.WellFormed
  holds : Settled (committedTxns records) (updates records) tm.getTuple
  listed : ∀ r ∈ records, r.PutsBack (committedTxns records) → r.tableId ∈ tables →
    r.rid.pageId ∈ tm.pageList r.tableId

instance (records : List LogRecord) (tables : List TableId) (tm : TableManager) :
    Decidable (SettledLog records tables tm) :=
  decidable_of_iff (_ ∧ _ ∧ _ ∧ _)
    ⟨fun ⟨onPage, wellFormed, holds, listed⟩ => ⟨onPage, wellFormed, holds, listed⟩,
      fun h => ⟨h.1, h.2, h.3, h.4⟩⟩

theorem settledLog_nil (tables : List TableId) (tm : TableManager) : SettledLog [] tables tm :=
  ⟨by simp, by simp, by simp [Settled, updates], by simp⟩

theorem pageList_addPage (tm : TableManager) (t : TableId) {pid : Int} {u : TableId}
    (h : u = t → pid ∈ tm.pageList t) : (tm.addPage t pid).pageList u = tm.pageList u := by
  unfold TableManager.addPage
  simp only [TableManager.pageList_registerTable]
  split
  · simp
  · rename_i hnot
    rw [TableManager.pageList_setPages, if_neg fun hu => hnot (h hu),
      TableManager.pageList_registerTable]

theorem pageList_redoRecord {committed : TxnId → Bool} (tm : TableManager) {r : LogRecord}
    {u : TableId} (h : r.PutsBack committed → u = r.tableId → r.rid.pageId ∈ tm.pageList u) :
    (redoRecord committed tm r).pageList u = tm.pageList u := by
  unfold redoRecord
  split
  · rfl
  · rename_i hc
    split
    · rename_i ht
      refine (pageList_addPage _ _ fun hu => ?_).trans rfl
      subst hu
      exact h (by simp [LogRecord.PutsBack, hc, ht]) rfl
    · rfl
    · rfl

theorem pageList_undoRecord {committed : TxnId → Bool} (tm : TableManager) {r : LogRecord}
    {u : TableId} (h : r.PutsBack committed → u = r.tableId → r.rid.pageId ∈ tm.pageList u) :
    (undoRecord committed tm r).pageList u = tm.pageList u := by
  unfold undoRecord
  split
  · rfl
  · rename_i hc
    split
    · rfl
    · rename_i ht
      refine (pageList_addPage _ _ fun hu => ?_).trans rfl
      subst hu
      exact h (by simp [LogRecord.PutsBack, hc, ht]) rfl
    · rfl

/-- Recovery lists no page in a table that has those of all rows it puts back. -/
theorem pageList_recover {records : List LogRecord} {tm : TableManager} {u : TableId}
    (h : ∀ r ∈ records, r.PutsBack (committedTxns records) → u = r.tableId →
      r.rid.pageId ∈ tm.pageList u) : (recover records tm).pageList u = tm.pageList u := by
  have hpass : ∀ {step : TableManager → LogRecord → TableManager},
      (∀ {tm : TableManager} {r : LogRecord}, (r.PutsBack (committedTxns records) →
        u = r.tableId → r.rid.pageId ∈ tm.pageList u) → (step tm r).pageList u = tm.pageList u) →
      ∀ (l : List LogRecord) (tm : TableManager),
        (∀ r ∈ l, r.PutsBack (committedTxns records) → u = r.tableId →
          r.rid.pageId ∈ tm.pageList u) → (l.foldl step tm).pageList u = tm.pageList u := by
    intro step hstep l
    induction l with
    | nil => exact fun _ _ => rfl
    | cons r l ih =>
      intro tm hl
      have hone := hstep (hl r List.mem_cons_self)
      rw [List.foldl_cons, ih _ fun q hq => ?_, hone]
      rw [hone]
      exact hl q (List.mem_cons_of_mem _ hq)
  have hredo := hpass (fun h => pageList_redoRecord _ h) records tm h
  refine (hpass (fun h => pageList_undoRecord _ h) records.reverse _ fun r hr => ?_).trans hredo
  rw [hredo]
  exact h r (List.mem_reverse.mp hr)

/-- A settled log leaves the rows of the tables as they are. -/
theorem SettledLog.rows_recover {records : List LogRecord} {tables : List TableId}
    {tm : TableManager} (h : SettledLog records tables tm) (hsound : tm.Sound)
    (hsorted : records.Pairwise fun a b => a.lsn < b.lsn) (hskip : NoneSkipped records tm)
    (hroom : FindsRoom records tm) {t : TableId} (ht : t ∈ tables)
    (hnodup : (tm.pageList t).Nodup) : (recover records tm).rows t = tm.rows t := by
  obtain ⟨-, hget, -⟩ := recover_getTuple hsound h.onPage h.wellFormed hsorted hskip hroom
  rw [recoverMap_of_settled h.holds] at hget
  have hlist : (recover records tm).pageList t = tm.pageList t :=
    pageList_recover fun r hr hback he => he ▸ h.listed r hr hback (he ▸ ht)
  have hheap : (recover records tm).heap t = tm.heap t :=
    funext fun rid => by simp only [TableManager.heap, hget, hlist]
  exact Multiset.coe_eq_coe.mpr
    ((TableManager.tuples_perm (hlist ▸ hnodup) hnodup hheap).map Prod.snd)

end Relite.Txn
