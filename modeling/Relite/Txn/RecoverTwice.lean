import Relite.Txn.Recovery
import Relite.Backend.SlotGrowth

/-!
# Recovering twice

After one recovery every page carries the LSN of the last committed record that names it,
so that a second redo pass has nothing to do. A second undo pass puts the same records back
once more, and that changes nothing unless the first one has run into a record it had put
back before, by adding slots for another (`recover_twice_iff`).
-/
namespace Relite.Vm.TableManager
open Lib Backend

/-! ## Single steps on pages that are in order -/

def PagesOk (tm : TableManager) : Prop := ∀ pid, (tm.page pid).Ok

theorem PagesOk.setPage {tm : TableManager} (h : tm.PagesOk) (pid : Int) {p : Page} (hp : p.Ok) :
    (tm.setPage pid p).PagesOk := by
  intro pid'
  rw [page_setPage]
  split
  · exact hp
  · exact h pid'

theorem mem_pageList_addPage (tm : TableManager) (t : TableId) (pid : Int) :
    pid ∈ (tm.addPage t pid).pageList t := by
  simp only [addPage]
  split
  · assumption
  · simp

theorem pageList_subset_addPage (tm : TableManager) (t t' : TableId) (pid : Int) :
    tm.pageList t' ⊆ (tm.addPage t pid).pageList t' := by
  simp only [addPage]
  split
  · rw [pageList_registerTable]
    exact List.Subset.refl _
  · rw [pageList_setPages]
    split
    · rename_i ht
      rw [ht, pageList_registerTable]
      exact List.subset_append_left _ _
    · rw [pageList_registerTable]
      exact List.Subset.refl _

/-- A page that is listed is not listed again. -/
theorem pageList_addPage_of_mem {tm : TableManager} {t : TableId} {pid : Int}
    (h : pid ∈ tm.pageList t) : (tm.addPage t pid).pageList = tm.pageList := by
  simp only [addPage]
  rw [if_pos (by rwa [pageList_registerTable]), pageList_registerTable]

/-- The heap grows: no page loses slots or goes off a list. -/
structure Keeps (tm tm' : TableManager) : Prop where
  slots : ∀ pid, (tm.page pid).slotCount ≤ (tm'.page pid).slotCount
  listed : ∀ t, tm.pageList t ⊆ tm'.pageList t

theorem Keeps.refl (tm : TableManager) : Keeps tm tm :=
  ⟨fun _ => le_refl _, fun _ => List.Subset.refl _⟩

theorem Keeps.trans {tm₁ tm₂ tm₃ : TableManager} (h : Keeps tm₁ tm₂) (h' : Keeps tm₂ tm₃) :
    Keeps tm₁ tm₃ :=
  ⟨fun pid => (h.slots pid).trans (h'.slots pid),
    fun t => List.Subset.trans (h.listed t) (h'.listed t)⟩

/-- What a `redoSet` of the heap does when it is neither skipped nor fails. -/
theorem PagesOk.redoInsert {tm : TableManager} (h : tm.PagesOk) (t : TableId) {rid : RecordID}
    {bytes : Bytes} {lsn : Nat} (hslot : 0 ≤ rid.slotId)
    (hin : 12 + 4 * (rid.slotId + 1) ≤ PAGE_SIZE) (hne : bytes ≠ [])
    (hskip : ¬(tm.page rid.pageId).Skips lsn)
    (htrue : ((tm.page rid.pageId).redoSet rid.slotId bytes lsn).2 = true) :
    (tm.redoInsert t rid bytes lsn).PagesOk ∧ Keeps tm (tm.redoInsert t rid bytes lsn) ∧
      rid.slotId < ((tm.redoInsert t rid bytes lsn).page rid.pageId).slotCount ∧
      (∀ pid, ((tm.redoInsert t rid bytes lsn).page pid).format.pageLSN =
        if pid = rid.pageId ∧ lsn ≠ 0 then lsn % 2 ^ 64 else (tm.page pid).format.pageLSN) ∧
      ∀ rid', (tm.redoInsert t rid bytes lsn).getTuple rid' =
        if rid' = rid then some bytes
        else if rid'.pageId = rid.pageId then
          ((tm.page rid.pageId).format.extend rid.slotId).get rid'.slotId
        else tm.getTuple rid' := by
  obtain ⟨pid, slot⟩ := rid
  obtain ⟨slot, rfl⟩ := Int.eq_ofNat_of_zero_le hslot
  obtain ⟨hwf, hcount, hlsn, hget⟩ :=
    Page.redoSet_of_true (h pid) (by simp only at hin; omega) hne hskip htrue
  have hpage : ∀ pid', (tm.redoInsert t ⟨pid, slot⟩ bytes lsn).page pid' =
      if pid' = pid then ((tm.page pid).redoSet slot bytes lsn).1 else tm.page pid' := fun pid' => by
    simp only [TableManager.redoInsert, page_addPage, page_setPage]
  refine ⟨?_, ⟨fun pid' => ?_, fun t' => ?_⟩, ?_, fun pid' => ?_, fun rid' => ?_⟩
  · intro pid'
    rw [hpage]
    split
    · exact .inl hwf
    · exact h pid'
  · rw [hpage]
    split
    · rename_i hp; rw [hp]; omega
    · exact le_refl _
  · exact pageList_subset_addPage (tm.setPage pid _) t t' pid
  · simp only
    rw [hpage, if_pos rfl]
    omega
  · rw [hpage]
    by_cases hp : pid' = pid
    · subst hp
      simp [hwf.format, hlsn]
    · simp [hp]
  · obtain ⟨pid', slot'⟩ := rid'
    simp only [getTuple, RecordID.mk.injEq]
    rw [hpage]
    by_cases hp : pid' = pid
    · subst hp
      rcases Int.lt_or_le slot' 0 with hneg | hpos
      · simp only [if_pos, true_and, Page.get_of_neg _ hneg]
        rw [if_neg (by omega)]
      · obtain ⟨s, rfl⟩ := Int.eq_ofNat_of_zero_le hpos
        simpa using hget s
    · simp [hp]

theorem PagesOk.getTuple_eq {tm : TableManager} (h : tm.PagesOk) (rid : RecordID) :
    tm.getTuple rid = (tm.page rid.pageId).format.get rid.slotId := by
  rw [TableManager.getTuple]
  rcases Int.lt_or_le rid.slotId 0 with hneg | hpos
  · rw [Page.get_of_neg _ hneg, Page.get_of_neg _ hneg]
  · obtain ⟨s, hs⟩ := Int.eq_ofNat_of_zero_le hpos
    rw [hs, (h _).get_format]

/-- Adding slots wears down the records of the page at most. -/
theorem PagesOk.extend_worn {tm : TableManager} (h : tm.PagesOk) (rid : RecordID) {slot : Int}
    (hslot : 0 ≤ slot) (hin : 12 + 4 * (slot + 1) ≤ PAGE_SIZE) :
    Worn (tm.getTuple rid) (((tm.page rid.pageId).format.extend slot).get rid.slotId) := by
  rw [h.getTuple_eq]
  obtain ⟨slot, rfl⟩ := Int.eq_ofNat_of_zero_le hslot
  rcases Int.lt_or_le rid.slotId 0 with hneg | hpos
  · rw [Page.get_of_neg _ hneg, Page.get_of_neg _ hneg]
    exact .none
  · obtain ⟨s, hs⟩ := Int.eq_ofNat_of_zero_le hpos
    rw [hs]
    exact ((h rid.pageId).wf_format.extend_worn (by omega)).2.2.1 s

theorem PagesOk.redoDelete {tm : TableManager} (h : tm.PagesOk) {rid : RecordID} {lsn : Nat}
    (hslot : 0 ≤ rid.slotId) (hskip : ¬(tm.page rid.pageId).Skips lsn) :
    (tm.redoDelete rid lsn).PagesOk ∧ Keeps tm (tm.redoDelete rid lsn) ∧
      (∀ pid, ((tm.redoDelete rid lsn).page pid).format.pageLSN =
        if pid = rid.pageId ∧ lsn ≠ 0 then lsn % 2 ^ 64 else (tm.page pid).format.pageLSN) ∧
      (tm.redoDelete rid lsn).getTuple = Function.update tm.getTuple rid none := by
  obtain ⟨hwf, hcount, hlsn, hget⟩ := Page.redoClear_spec (h rid.pageId) hskip
  refine ⟨h.setPage _ (.inl hwf), ⟨fun pid => ?_, fun _ => List.Subset.refl _⟩, fun pid => ?_,
    getTuple_setPage rid hslot hget⟩
  · simp only [TableManager.redoDelete, page_setPage]
    split
    · rename_i hp; rw [hp, hcount]
    · exact le_refl _
  · simp only [TableManager.redoDelete, page_setPage]
    by_cases hp : pid = rid.pageId
    · subst hp
      simp [hwf.format, hlsn]
    · simp [hp]

/-- The heap reads the same, but for pages that were never written and are formatted now. -/
structure Same (tm tm' : TableManager) : Prop where
  format : ∀ pid, (tm'.page pid).format = (tm.page pid).format
  listed : tm'.pageList = tm.pageList

theorem Same.refl (tm : TableManager) : Same tm tm := ⟨fun _ => rfl, rfl⟩

theorem Same.trans {tm₁ tm₂ tm₃ : TableManager} (h : Same tm₁ tm₂) (h' : Same tm₂ tm₃) :
    Same tm₁ tm₃ :=
  ⟨fun pid => (h'.format pid).trans (h.format pid), h'.listed.trans h.listed⟩

theorem Same.getTuple {tm tm' : TableManager} (h : Same tm tm') (hok : tm.PagesOk)
    (hok' : tm'.PagesOk) : tm'.getTuple = tm.getTuple := by
  funext rid
  rw [hok'.getTuple_eq, hok.getTuple_eq, h.format]

theorem Same.setPage_format {tm : TableManager} (hok : tm.PagesOk) (pid : Int) :
    Same tm (tm.setPage pid (tm.page pid).format) := by
  refine ⟨fun pid' => ?_, rfl⟩
  rw [page_setPage]
  split
  · rename_i hp
    rw [hp, (hok pid).wf_format.format]
  · rfl

end Relite.Vm.TableManager

namespace Relite.Txn
open Lib Vm Backend TableManager

/-- The record names a slot of a page. -/
def LogRecord.NamesSlot (r : LogRecord) : Prop :=
  r.type = .Insert ∨ r.type = .Delete → 12 + 4 * (r.rid.slotId + 1) ≤ PAGE_SIZE

/-- `redoSet` does not fail when the redo pass comes to the record. -/
def RedoSets (committed : TxnId → Bool) (tables : TableManager) (r : LogRecord) : Prop :=
  committed r.txnId = true → r.type = .Insert →
    ((tables.page r.rid.pageId).redoSet r.rid.slotId r.afterImage r.lsn).2 = true

def UndoSets (committed : TxnId → Bool) (tables : TableManager) (r : LogRecord) : Prop :=
  committed r.txnId = false → r.type = .Delete →
    ((tables.page r.rid.pageId).redoSet r.rid.slotId r.beforeImage 0).2 = true

instance (committed : TxnId → Bool) (tables : TableManager) (r : LogRecord) :
    Decidable (RedoSets committed tables r) := by
  unfold RedoSets; infer_instance

instance (committed : TxnId → Bool) (tables : TableManager) (r : LogRecord) :
    Decidable (UndoSets committed tables r) := by
  unfold UndoSets; infer_instance

/-- No `redoSet` of the recovery fails. -/
def NoneFails (records : List LogRecord) (tables : TableManager) : Prop :=
  AllSteps (redoRecord (committedTxns records)) (RedoSets (committedTxns records)) tables records ∧
    AllSteps (undoRecord (committedTxns records)) (UndoSets (committedTxns records))
      (run (redoRecord (committedTxns records)) tables records) records.reverse

instance (records : List LogRecord) (tables : TableManager) :
    Decidable (NoneFails records tables) := by
  unfold NoneFails; infer_instance

/-! ## The redo pass -/

/-- The page of a committed record carries its LSN, and a page that was inserted into is
listed. -/
def Redone (committed : TxnId → Bool) (tables : TableManager) (r : LogRecord) : Prop :=
  committed r.txnId = true → r.type = .Insert ∨ r.type = .Delete →
    r.lsn ≤ (tables.page r.rid.pageId).format.pageLSN ∧
      (r.type = .Insert → r.rid.pageId ∈ tables.pageList r.tableId)

/-- The heap moves on: page LSNs do not fall and lists do not shrink. -/
structure MovesOn (tables tables' : TableManager) : Prop where
  pageLSN : ∀ pid, (tables.page pid).format.pageLSN ≤ (tables'.page pid).format.pageLSN
  listed : ∀ t, tables.pageList t ⊆ tables'.pageList t

theorem MovesOn.refl (tables : TableManager) : MovesOn tables tables :=
  ⟨fun _ => le_refl _, fun _ => List.Subset.refl _⟩

theorem MovesOn.trans {t₁ t₂ t₃ : TableManager} (h : MovesOn t₁ t₂) (h' : MovesOn t₂ t₃) :
    MovesOn t₁ t₃ :=
  ⟨fun pid => (h.pageLSN pid).trans (h'.pageLSN pid),
    fun t => List.Subset.trans (h.listed t) (h'.listed t)⟩

theorem Redone.mono {committed : TxnId → Bool} {tables tables' : TableManager} {r : LogRecord}
    (h : Redone committed tables r) (hmove : MovesOn tables tables') :
    Redone committed tables' r := by
  intro hc ht
  obtain ⟨hlsn, hlist⟩ := h hc ht
  exact ⟨hlsn.trans (hmove.pageLSN _), fun hi => hmove.listed _ (hlist hi)⟩

theorem not_skips_iff {p : Page} {lsn : Nat} (hpos : 0 < lsn) :
    ¬p.Skips lsn ↔ p.format.pageLSN < lsn := by
  unfold Page.Skips
  omega

/-- One step of the redo pass. -/
theorem redoRecord_redone {committed : TxnId → Bool} {tables : TableManager} {r : LogRecord}
    (hok : tables.PagesOk) (hr : r.WellFormed) (hin : r.NamesSlot)
    (hlsn : 0 < r.lsn ∧ r.lsn < 2 ^ 64) (hset : RedoSets committed tables r) :
    (redoRecord committed tables r).PagesOk ∧
      MovesOn tables (redoRecord committed tables r) ∧
      Redone committed (redoRecord committed tables r) r := by
  have hmod : r.lsn % 2 ^ 64 = r.lsn := Nat.mod_eq_of_lt hlsn.2
  unfold redoRecord
  cases hc : committed r.txnId with
  | false => exact ⟨hok, MovesOn.refl _, fun hc' => by rw [hc] at hc'; cases hc'⟩
  | true =>
    simp only [Bool.true_eq_false, if_false]
    by_cases hskip : (tables.page r.rid.pageId).Skips r.lsn
    · -- the step leaves the formatted page, whose LSN is already there
      have hsame := Same.setPage_format hok r.rid.pageId
      have hok' := hok.setPage r.rid.pageId (.inl (hok r.rid.pageId).wf_format)
      cases ht : r.type with
      | Insert =>
        simp only [TableManager.redoInsert, Page.redoSet_of_skips hskip]
        refine ⟨fun pid => by rw [page_addPage]; exact hok' pid,
          ⟨fun pid => by rw [page_addPage, hsame.format], fun t => ?_⟩, fun _ _ => ⟨?_, fun _ => ?_⟩⟩
        · rw [← hsame.listed]
          exact pageList_subset_addPage _ _ _ _
        · rw [page_addPage, hsame.format]
          exact hskip.2
        · exact mem_pageList_addPage _ _ _
      | Delete =>
        simp only [TableManager.redoDelete, Page.redoClear_of_skips hskip]
        refine ⟨hok', ⟨fun pid => by rw [hsame.format], fun t => ?_⟩, fun _ _ => ⟨?_, fun hi => ?_⟩⟩
        · rw [hsame.listed]
          exact List.Subset.refl _
        · rw [hsame.format]
          exact hskip.2
        · rw [ht] at hi; cases hi
      | _ => exact ⟨hok, MovesOn.refl _, fun _ h => by rw [ht] at h; simp at h⟩
    · have hlt := (not_skips_iff hlsn.1).mp hskip
      cases ht : r.type with
      | Insert =>
        obtain ⟨hslot, hne⟩ := hr.1 ht
        obtain ⟨hok', hkeeps, -, hpage, -⟩ :=
          hok.redoInsert r.tableId hslot (hin (.inl ht)) hne hskip (hset hc ht)
        refine ⟨hok', ⟨fun pid => ?_, hkeeps.listed⟩, fun _ _ => ⟨?_, fun _ => ?_⟩⟩
        · rw [hpage]
          split
          · rename_i hp; rw [hp.1, hmod]; omega
          · exact le_refl _
        · rw [hpage, if_pos ⟨rfl, by omega⟩, hmod]
        · exact mem_pageList_addPage _ _ _
      | Delete =>
        obtain ⟨hok', hkeeps, hpage, -⟩ := hok.redoDelete (hr.2 ht).1 hskip
        refine ⟨hok', ⟨fun pid => ?_, hkeeps.listed⟩, fun _ _ => ⟨?_, fun hi => ?_⟩⟩
        · rw [hpage]
          split
          · rename_i hp; rw [hp.1, hmod]; omega
          · exact le_refl _
        · rw [hpage, if_pos ⟨rfl, by omega⟩, hmod]
        · rw [ht] at hi; cases hi
      | _ => exact ⟨hok, MovesOn.refl _, fun _ h => by rw [ht] at h; simp at h⟩

/-- A record that is redone already is skipped. -/
theorem redoRecord_same {committed : TxnId → Bool} {tables : TableManager} {r : LogRecord}
    (hok : tables.PagesOk) (hpos : 0 < r.lsn) (hdone : Redone committed tables r) :
    (redoRecord committed tables r).PagesOk ∧ Same tables (redoRecord committed tables r) := by
  have hok' := hok.setPage r.rid.pageId (.inl (hok r.rid.pageId).wf_format)
  have hsame := Same.setPage_format hok r.rid.pageId
  unfold redoRecord
  cases hc : committed r.txnId with
  | false => exact ⟨hok, Same.refl _⟩
  | true =>
    simp only [Bool.true_eq_false, if_false]
    cases ht : r.type with
    | Insert =>
      obtain ⟨hlsn, hlist⟩ := hdone hc (.inl ht)
      have hskip : (tables.page r.rid.pageId).Skips r.lsn := ⟨by omega, hlsn⟩
      simp only [TableManager.redoInsert, Page.redoSet_of_skips hskip]
      refine ⟨fun pid => by rw [page_addPage]; exact hok' pid,
        fun pid => by rw [page_addPage, hsame.format], ?_⟩
      rw [pageList_addPage_of_mem (by exact hlist ht)]
      exact hsame.listed
    | Delete =>
      have hskip : (tables.page r.rid.pageId).Skips r.lsn := ⟨by omega, (hdone hc (.inr ht)).1⟩
      simp only [TableManager.redoDelete, Page.redoClear_of_skips hskip]
      exact ⟨hok', hsame⟩
    | _ => exact ⟨hok, Same.refl _⟩

theorem redoPass_redone {committed : TxnId → Bool} (records : List LogRecord) :
    ∀ {tables : TableManager}, tables.PagesOk → (∀ r ∈ records, r.WellFormed ∧ r.NamesSlot) →
      (∀ r ∈ records, 0 < r.lsn ∧ r.lsn < 2 ^ 64) →
      AllSteps (redoRecord committed) (RedoSets committed) tables records →
      (run (redoRecord committed) tables records).PagesOk ∧
        MovesOn tables (run (redoRecord committed) tables records) ∧
        ∀ r ∈ records, Redone committed (run (redoRecord committed) tables records) r := by
  induction records with
  | nil => intro tables hok _ _ _; exact ⟨hok, MovesOn.refl _, by simp⟩
  | cons r records ih =>
    intro tables hok hwf hlsn hset
    obtain ⟨hok₁, hmove₁, hdone₁⟩ := redoRecord_redone hok (hwf r (by simp)).1 (hwf r (by simp)).2
      (hlsn r (by simp)) hset.1
    obtain ⟨hok₂, hmove₂, hdone₂⟩ := ih hok₁ (fun q hq => hwf q (by simp [hq]))
      (fun q hq => hlsn q (by simp [hq])) hset.2
    refine ⟨hok₂, hmove₁.trans hmove₂, fun q hq => ?_⟩
    rcases List.mem_cons.mp hq with rfl | hq
    · exact hdone₁.mono hmove₂
    · exact hdone₂ q hq

theorem MovesOn.of_same {tables tables' : TableManager} (h : Same tables tables') :
    MovesOn tables tables' :=
  ⟨fun pid => by rw [h.format], fun t => by rw [h.listed]; exact List.Subset.refl _⟩

theorem redoPass_same {committed : TxnId → Bool} (records : List LogRecord) :
    ∀ {tables : TableManager}, tables.PagesOk → (∀ r ∈ records, 0 < r.lsn) →
      (∀ r ∈ records, Redone committed tables r) →
      (run (redoRecord committed) tables records).PagesOk ∧
        Same tables (run (redoRecord committed) tables records) := by
  induction records with
  | nil => intro tables hok _ _; exact ⟨hok, Same.refl _⟩
  | cons r records ih =>
    intro tables hok hpos hdone
    obtain ⟨hok₁, hsame₁⟩ := redoRecord_same hok (hpos r (by simp)) (hdone r (by simp))
    obtain ⟨hok₂, hsame₂⟩ := ih hok₁ (fun q hq => hpos q (by simp [hq]))
      fun q hq => (hdone q (by simp [hq])).mono (MovesOn.of_same hsame₁)
    exact ⟨hok₂, hsame₁.trans hsame₂⟩

/-! ## The undo pass -/

/-- The slot that a loser's deletion is put back to exists, on a listed page. -/
def Restored (committed : TxnId → Bool) (tables : TableManager) (r : LogRecord) : Prop :=
  committed r.txnId = false → r.type = .Delete →
    r.rid.slotId < (tables.page r.rid.pageId).slotCount ∧
      r.rid.pageId ∈ tables.pageList r.tableId

theorem Restored.mono {committed : TxnId → Bool} {tables tables' : TableManager} {r : LogRecord}
    (h : Restored committed tables r) (hkeeps : Keeps tables tables') :
    Restored committed tables' r := by
  intro hc ht
  obtain ⟨hslot, hlist⟩ := h hc ht
  have := hkeeps.slots r.rid.pageId
  exact ⟨by omega, hkeeps.listed _ hlist⟩

/-- What undo of the record leaves at its record id. -/
def undoneValue (r : LogRecord) : Option Bytes :=
  match r.type with
  | .Delete => some r.beforeImage
  | _ => none

/-- Undo writes to the record id of the record. -/
def Undoes (committed : TxnId → Bool) (r : LogRecord) : Prop :=
  committed r.txnId = false ∧ (r.type = .Insert ∨ r.type = .Delete)

instance (committed : TxnId → Bool) (r : LogRecord) : Decidable (Undoes committed r) := by
  unfold Undoes; infer_instance

/-- Taking the record back adds slots to its page, and they run into the record `rid`. -/
def Overruns (committed : TxnId → Bool) (tables : TableManager) (r : LogRecord)
    (rid : RecordID) : Prop :=
  committed r.txnId = false ∧ r.type = .Delete ∧ rid.pageId = r.rid.pageId ∧
    ((tables.page rid.pageId).format.extend r.rid.slotId).get rid.slotId ≠ tables.getTuple rid

instance (committed : TxnId → Bool) (tables : TableManager) (r : LogRecord) (rid : RecordID) :
    Decidable (Overruns committed tables r rid) := by
  unfold Overruns; infer_instance

/-- One step of the undo pass. -/
theorem undoRecord_step {committed : TxnId → Bool} {tables : TableManager} {r : LogRecord}
    (hok : tables.PagesOk) (hr : r.WellFormed) (hin : r.NamesSlot)
    (hset : UndoSets committed tables r) :
    (undoRecord committed tables r).PagesOk ∧ Keeps tables (undoRecord committed tables r) ∧
      (∀ pid, ((undoRecord committed tables r).page pid).format.pageLSN =
        (tables.page pid).format.pageLSN) ∧
      Restored committed (undoRecord committed tables r) r ∧
      (Undoes committed r → (undoRecord committed tables r).getTuple r.rid = undoneValue r) ∧
      ∀ rid, (Undoes committed r → rid ≠ r.rid) →
        Worn (tables.getTuple rid) ((undoRecord committed tables r).getTuple rid) ∧
          ((undoRecord committed tables r).getTuple rid = tables.getTuple rid ↔
            ¬Overruns committed tables r rid) := by
  have hidle : ¬Undoes committed r → undoRecord committed tables r = tables := by
    intro h
    unfold undoRecord
    cases hc : committed r.txnId with
    | true => rfl
    | false => cases ht : r.type <;> simp_all [Undoes]
  by_cases hundo : Undoes committed r
  swap
  · rw [hidle hundo]
    refine ⟨hok, Keeps.refl _, fun _ => rfl, fun hc ht => absurd ⟨hc, .inr ht⟩ hundo,
      fun h => absurd h hundo, fun rid _ => ⟨Worn.refl _, fun _ h => hundo ⟨h.1, .inr h.2.1⟩,
        fun _ => rfl⟩⟩
  obtain ⟨hc, ht | ht⟩ := hundo
  · have hstep : undoRecord committed tables r = tables.undoInsert r.rid := by
      simp [undoRecord, hc, ht]
    obtain ⟨hok', hkeeps, hlsn, hget⟩ := hok.redoDelete (hr.1 ht).1 (not_skips_zero _)
    have hget' : (tables.undoInsert r.rid).getTuple = Function.update tables.getTuple r.rid none :=
      hget
    rw [hstep]
    refine ⟨hok', ⟨hkeeps.slots, hkeeps.listed⟩, fun pid => (hlsn pid).trans (if_neg (by simp)),
      fun _ hd => (by rw [ht] at hd; cases hd), fun _ => by simp [hget', undoneValue, ht],
      fun rid hne => ?_⟩
    have hkept : (tables.undoInsert r.rid).getTuple rid = tables.getTuple rid := by
      rw [hget', Function.update_of_ne (hne ⟨hc, .inl ht⟩)]
    rw [hkept]
    exact ⟨Worn.refl _, fun _ h => (by have := h.2.1; rw [ht] at this; cases this), fun _ => rfl⟩
  · have hstep : undoRecord committed tables r =
        tables.redoInsert r.tableId r.rid r.beforeImage 0 := by
      simp [undoRecord, hc, ht, TableManager.undoDelete]
    obtain ⟨hslot, hne⟩ := hr.2 ht
    obtain ⟨hok', hkeeps, hnew, hlsn, hget⟩ :=
      hok.redoInsert r.tableId hslot (hin (.inr ht)) hne (not_skips_zero _) (hset hc ht)
    rw [hstep]
    refine ⟨hok', hkeeps, fun pid => by simpa using hlsn pid,
      fun _ _ => ⟨hnew, mem_pageList_addPage _ _ _⟩, fun _ => by simp [hget, undoneValue, ht],
      fun rid hrid => ?_⟩
    rw [hget, if_neg (hrid ⟨hc, .inr ht⟩)]
    by_cases hp : rid.pageId = r.rid.pageId
    · rw [if_pos hp, ← hp]
      refine ⟨hok.extend_worn rid hslot (hin (.inr ht)), fun heq h => h.2.2.2 heq, fun h => ?_⟩
      by_contra hne'
      exact h ⟨hc, ht, hp, hne'⟩
    · rw [if_neg hp]
      exact ⟨Worn.refl _, fun _ h => hp h.2.2.1, fun _ => rfl⟩

/-- A record whose slot exists runs into nothing, and its page is not listed again. -/
theorem Restored.not_overruns {committed : TxnId → Bool} {tables : TableManager} {r : LogRecord}
    (hok : tables.PagesOk) (h : Restored committed tables r) (rid : RecordID) :
    ¬Overruns committed tables r rid := by
  rintro ⟨hc, ht, hp, hne⟩
  obtain ⟨hslot, -⟩ := h hc ht
  rw [Page.extend_of_lt _ (by rw [(hok _).slotCount_format, hp]; exact hslot)] at hne
  exact hne (hok.getTuple_eq rid).symm

theorem Restored.pageList {committed : TxnId → Bool} {tables : TableManager} {r : LogRecord}
    (h : Restored committed tables r) :
    (undoRecord committed tables r).pageList = tables.pageList := by
  unfold undoRecord
  cases hc : committed r.txnId with
  | true => rfl
  | false =>
    simp only [Bool.false_eq_true, if_false]
    cases ht : r.type with
    | Delete => exact pageList_addPage_of_mem (h hc ht).2
    | _ => rfl

theorem undoPass_restored {committed : TxnId → Bool} (l : List LogRecord) :
    ∀ {tables : TableManager}, tables.PagesOk → (∀ r ∈ l, r.WellFormed ∧ r.NamesSlot) →
      AllSteps (undoRecord committed) (UndoSets committed) tables l →
      (run (undoRecord committed) tables l).PagesOk ∧
        Keeps tables (run (undoRecord committed) tables l) ∧
        (∀ pid, ((run (undoRecord committed) tables l).page pid).format.pageLSN =
          (tables.page pid).format.pageLSN) ∧
        ∀ r ∈ l, Restored committed (run (undoRecord committed) tables l) r := by
  induction l with
  | nil => intro tables hok _ _; exact ⟨hok, Keeps.refl _, fun _ => rfl, by simp⟩
  | cons r l ih =>
    intro tables hok hwf hset
    obtain ⟨hok₁, hkeeps₁, hlsn₁, hrest₁, -, -⟩ :=
      undoRecord_step hok (hwf r (by simp)).1 (hwf r (by simp)).2 hset.1
    obtain ⟨hok₂, hkeeps₂, hlsn₂, hrest₂⟩ := ih hok₁ (fun q hq => hwf q (by simp [hq])) hset.2
    refine ⟨hok₂, hkeeps₁.trans hkeeps₂, fun pid => (hlsn₂ pid).trans (hlsn₁ pid),
      fun q hq => ?_⟩
    rcases List.mem_cons.mp hq with rfl | hq
    · exact hrest₁.mono hkeeps₂
    · exact hrest₂ q hq

/-- The last record of the pass that undoes something at `rid`. -/
def lastUndo (committed : TxnId → Bool) (l : List LogRecord) (rid : RecordID) : Option LogRecord :=
  (l.filter fun r => Undoes committed r ∧ r.rid = rid).getLast?

theorem lastUndo_cons (committed : TxnId → Bool) (r : LogRecord) (l : List LogRecord)
    (rid : RecordID) : lastUndo committed (r :: l) rid =
      (lastUndo committed l rid).or (if Undoes committed r ∧ r.rid = rid then some r else none) := by
  unfold lastUndo
  rw [List.filter_cons]
  split
  · rename_i h
    rw [List.getLast?_cons, if_pos (by simpa using h)]
    cases (l.filter fun r => Undoes committed r ∧ r.rid = rid).getLast? <;> rfl
  · rename_i h
    rw [if_neg (by simpa using h), Option.or_none]

theorem lastUndo_eq_some_iff {committed : TxnId → Bool} {l : List LogRecord} {rid : RecordID}
    {q : LogRecord} : lastUndo committed l rid = some q ↔
      ∃ before after, l = before ++ q :: after ∧ Undoes committed q ∧ q.rid = rid ∧
        ∀ p ∈ after, Undoes committed p → p.rid ≠ rid := by
  constructor
  · intro h
    obtain ⟨ys, hys⟩ := List.getLast?_eq_some_iff.mp h
    obtain ⟨l₁, l₂, rfl, -, hl₂⟩ := List.filter_eq_append_iff.mp hys
    obtain ⟨mid, after, rfl, -, hq, hafter⟩ := List.filter_eq_cons_iff.mp hl₂
    refine ⟨l₁ ++ mid, after, by simp, ?_⟩
    have hq' : Undoes committed q ∧ q.rid = rid := by simpa using hq
    refine ⟨hq'.1, hq'.2, fun p hp hundo hrid => ?_⟩
    have := List.filter_eq_nil_iff.mp hafter p hp
    simp [hundo, hrid] at this
  · rintro ⟨before, after, rfl, hundo, rfl, hafter⟩
    unfold lastUndo
    have hnil : (after.filter fun r => Undoes committed r ∧ r.rid = q.rid) = [] :=
      List.filter_eq_nil_iff.mpr (by simpa using hafter)
    rw [List.filter_append, List.filter_cons_of_pos (by simpa using hundo), hnil]
    simp

/-- The undo pass over slots that exist. -/
theorem undoPass_again {committed : TxnId → Bool} (l : List LogRecord) :
    ∀ {tables : TableManager}, tables.PagesOk → (∀ r ∈ l, r.WellFormed ∧ r.NamesSlot) →
      AllSteps (undoRecord committed) (UndoSets committed) tables l →
      (∀ r ∈ l, Restored committed tables r) →
      (run (undoRecord committed) tables l).pageList = tables.pageList ∧
        ∀ rid, (run (undoRecord committed) tables l).getTuple rid =
          match lastUndo committed l rid with
          | some q => undoneValue q
          | none => tables.getTuple rid := by
  induction l with
  | nil => intro tables _ _ _ _; exact ⟨rfl, fun _ => rfl⟩
  | cons r l ih =>
    intro tables hok hwf hset hrest
    obtain ⟨hok₁, hkeeps₁, -, -, hself, hother⟩ :=
      undoRecord_step hok (hwf r (by simp)).1 (hwf r (by simp)).2 hset.1
    have hr := hrest r (by simp)
    obtain ⟨hlist, hget⟩ := ih hok₁ (fun q hq => hwf q (by simp [hq])) hset.2
      fun q hq => (hrest q (by simp [hq])).mono hkeeps₁
    refine ⟨hlist.trans hr.pageList, fun rid => ?_⟩
    rw [run_cons, hget, lastUndo_cons]
    cases lastUndo committed l rid with
    | some q => rfl
    | none =>
      by_cases h : Undoes committed r ∧ r.rid = rid
      · obtain ⟨hundo, rfl⟩ := h
        simp [hundo, hself hundo]
      · have hne : Undoes committed r → rid ≠ r.rid := fun hu he => h ⟨hu, he.symm⟩
        have hkept := (hother rid hne).2.mpr (hr.not_overruns hok rid)
        simp [h, hkept]

theorem undoPass_worn {committed : TxnId → Bool} {rid : RecordID} (l : List LogRecord) :
    ∀ {tables : TableManager}, tables.PagesOk → (∀ r ∈ l, r.WellFormed ∧ r.NamesSlot) →
      AllSteps (undoRecord committed) (UndoSets committed) tables l →
      (∀ r ∈ l, Undoes committed r → r.rid ≠ rid) →
      AllSteps (undoRecord committed) (fun tables r =>
        Worn (tables.getTuple rid) ((undoRecord committed tables r).getTuple rid)) tables l ∧
      (AllSteps (undoRecord committed) (fun tables r =>
        (undoRecord committed tables r).getTuple rid = tables.getTuple rid) tables l ↔
        AllSteps (undoRecord committed) (fun tables r => ¬Overruns committed tables r rid)
          tables l) := by
  induction l with
  | nil => intro tables _ _ _ _; exact ⟨trivial, Iff.rfl⟩
  | cons r l ih =>
    intro tables hok hwf hset hother
    obtain ⟨hok₁, -, -, -, -, hstep⟩ :=
      undoRecord_step hok (hwf r (by simp)).1 (hwf r (by simp)).2 hset.1
    obtain ⟨hworn, hiff⟩ := hstep rid fun hu => (hother r (by simp) hu).symm
    obtain ⟨hworn', hiff'⟩ := ih hok₁ (fun q hq => hwf q (by simp [hq])) hset.2
      fun q hq => hother q (by simp [hq])
    exact ⟨⟨hworn, hworn'⟩, and_congr hiff hiff'⟩

/-! ## Twice -/

/-- No record that the undo pass puts back adds slots over a record id that the pass has
undone before and does not come back to. -/
def SettledSpared (records : List LogRecord) (tables : TableManager) : Prop :=
  ∀ before q after, records.reverse = before ++ q :: after →
    Undoes (committedTxns records) q →
    (∀ p ∈ after, Undoes (committedTxns records) p → p.rid ≠ q.rid) →
    AllSteps (undoRecord (committedTxns records))
      (fun tables r => ¬Overruns (committedTxns records) tables r q.rid)
      (run (undoRecord (committedTxns records))
        (run (redoRecord (committedTxns records)) tables records) (before ++ [q])) after

/-- The second recovery leaves every record id and every list of pages as they are. -/
def Idempotent (records : List LogRecord) (tables : TableManager) : Prop :=
  (∀ rid, (recover records (recover records tables)).getTuple rid =
      (recover records tables).getTuple rid) ∧
    ∀ t, (recover records (recover records tables)).pageList t =
      (recover records tables).pageList t

/-- What the undo pass leaves at a record id that it has undone for the last time. -/
theorem undoPass_settled {committed : TxnId → Bool} {before after : List LogRecord}
    {q : LogRecord} {tables : TableManager} (hok : tables.PagesOk)
    (hwf : ∀ r ∈ before ++ q :: after, r.WellFormed ∧ r.NamesSlot)
    (hset : AllSteps (undoRecord committed) (UndoSets committed) tables (before ++ q :: after))
    (hq : Undoes committed q) (hafter : ∀ p ∈ after, Undoes committed p → p.rid ≠ q.rid) :
    (run (undoRecord committed) tables (before ++ q :: after)).getTuple q.rid = undoneValue q ↔
      AllSteps (undoRecord committed) (fun tables r => ¬Overruns committed tables r q.rid)
        (run (undoRecord committed) tables (before ++ [q])) after := by
  obtain ⟨hset₁, hset₂, hset₃⟩ := AllSteps.append_iff.mp hset
  obtain ⟨hok₁, -⟩ := undoPass_restored before hok
    (fun r hr => hwf r (by simp [hr])) hset₁
  have hwfq := hwf q (by simp)
  obtain ⟨hok₂, -, -, -, hself, -⟩ := undoRecord_step hok₁ hwfq.1 hwfq.2 hset₂
  obtain ⟨hworn, hiff⟩ := undoPass_worn after hok₂ (fun r hr => hwf r (by simp [hr])) hset₃ hafter
  obtain ⟨-, hkept⟩ := run_fixed_iff Worn.refl (fun _ _ _ => Worn.trans) (fun _ _ => Worn.antisymm)
    (fun tables : TableManager => tables.getTuple q.rid) hworn
  have hrun : run (undoRecord committed) tables (before ++ [q]) =
      undoRecord committed (run (undoRecord committed) tables before) q := by
    rw [run_append]; rfl
  rw [hrun, run_append, run_cons, ← hiff, ← hkept, hself hq]

theorem recover_twice_iff {records : List LogRecord} {tables : TableManager}
    (hok : ∀ pid, (tables.page pid).Ok) (hwf : ∀ r ∈ records, r.WellFormed ∧ r.NamesSlot)
    (hlsn : ∀ r ∈ records, 0 < r.lsn ∧ r.lsn < 2 ^ 64)
    (hfirst : NoneFails records tables) (hsecond : NoneFails records (recover records tables)) :
    Idempotent records tables ↔ SettledSpared records tables := by
  have hwf' : ∀ r ∈ records.reverse, r.WellFormed ∧ r.NamesSlot := by simpa using hwf
  obtain ⟨hok₁, -, hredone⟩ := redoPass_redone records hok hwf hlsn hfirst.1
  obtain ⟨hok₂, hkeeps, hpage, hrestored⟩ := undoPass_restored records.reverse hok₁ hwf' hfirst.2
  -- the undo pass leaves the page LSNs alone, so that all of the second redo pass is skipped
  obtain ⟨hok₃, hsame⟩ := @redoPass_same (committedTxns records) records _ hok₂
    (fun r hr => (hlsn r hr).1)
    fun r hr => (hredone r hr).mono ⟨fun pid => (hpage pid).ge, hkeeps.listed⟩
  have hslots : Keeps (run (undoRecord (committedTxns records))
      (run (redoRecord (committedTxns records)) tables records) records.reverse) _ :=
    ⟨fun pid => by
      rw [← (hok₃ pid).slotCount_format, ← (hok₂ pid).slotCount_format, hsame.format],
      fun t => by rw [hsame.listed]; exact List.Subset.refl _⟩
  obtain ⟨hlist, hget⟩ := undoPass_again records.reverse hok₃ hwf' hsecond.2
    fun r hr => (hrestored r hr).mono hslots
  have hlists : ∀ t, (recover records (recover records tables)).pageList t =
      (recover records tables).pageList t := by
    intro t
    exact (congrFun hlist t).trans (congrFun hsame.listed t)
  have htuple : ∀ rid, (recover records (recover records tables)).getTuple rid =
      match lastUndo (committedTxns records) records.reverse rid with
      | some q => undoneValue q
      | none => (recover records tables).getTuple rid := by
    intro rid
    have := hget rid
    rw [hsame.getTuple hok₂ hok₃] at this
    exact this
  constructor
  · rintro ⟨heq, -⟩ before q after hsplit hq hafter
    have hlast : lastUndo (committedTxns records) records.reverse q.rid = some q :=
      lastUndo_eq_some_iff.mpr ⟨before, after, hsplit, hq, rfl, hafter⟩
    have hvalue := htuple q.rid
    rw [heq, hlast] at hvalue
    have hset := hfirst.2
    rw [hsplit] at hset hwf'
    refine (undoPass_settled hok₁ hwf' hset hq hafter).mp ?_
    rw [← hsplit]
    exact hvalue
  · intro hspared
    refine ⟨fun rid => ?_, hlists⟩
    rw [htuple]
    cases hlast : lastUndo (committedTxns records) records.reverse rid with
    | none => rfl
    | some q =>
      obtain ⟨before, after, hsplit, hq, rfl, hafter⟩ := lastUndo_eq_some_iff.mp hlast
      have hset := hfirst.2
      rw [hsplit] at hset hwf'
      have hvalue := (undoPass_settled hok₁ hwf' hset hq hafter).mpr
        (hspared before q after hsplit hq hafter)
      rw [← hsplit] at hvalue
      exact hvalue.symm

/-! ## A page with its dead space above a live record -/

/-- A page of 4000 dead bytes with a live record of 50 bytes below them. -/
def gapPage : Page :=
  let filled := do
    let (p, _) ← Page.init.insert (List.replicate 4000 1)
    let (p, _) ← p.insert (List.replicate 50 2)
    p.erase 0
  filled.getD Page.init

def gapHeap : TableManager := (TableManager.empty.setPage 0 gapPage).setPages 0 [0]

/-- A transaction without a commit inserts into slot 10, deletes that again, and deletes the
live record. -/
def gapLog : List LogRecord :=
  [{ lsn := 1, txnId := 1, type := .Insert, tableId := 0, rid := ⟨0, 10⟩, afterImage := [7] },
   { lsn := 2, txnId := 1, type := .Delete, tableId := 0, rid := ⟨0, 10⟩, beforeImage := [7] },
   { lsn := 3, txnId := 1, type := .Delete, tableId := 0, rid := ⟨0, 1⟩,
     beforeImage := List.replicate 50 2 }]

theorem ok_gapHeap (pid : Int) : (gapHeap.page pid).Ok := by
  have hpage : gapHeap.page pid = if pid = 0 then gapPage else Page.zero := page_setPage _ _ _ _
  rw [hpage]
  split
  · refine .inl ⟨by decide +kernel, by decide +kernel, by decide +kernel, ?_⟩
    intro s t hs ht
    have hcount : gapPage.slotCount = 2 := by decide +kernel
    have hdead : (gapPage.slotAt (0 : Nat)).2 = 0 := by decide +kernel
    have : s = 0 ∨ t = 0 ∨ s = t := by omega
    rcases this with rfl | rfl | rfl
    · exact fun _ h => absurd hdead h
    · exact fun _ _ h => absurd hdead h
    · exact fun h => absurd rfl h
  · exact .inr Page.blank_zero

instance (r : LogRecord) : Decidable r.NamesSlot := by unfold LogRecord.NamesSlot; infer_instance

/-- The undo pass puts the live record back and then adds slots 2 to 10 over its first ten
bytes. The second time the slots are there. -/
theorem recover_not_idempotent : (∀ pid, (gapHeap.page pid).Ok) ∧
    (∀ r ∈ gapLog, r.WellFormed ∧ r.NamesSlot) ∧
    (gapLog.Pairwise fun a b => a.lsn < b.lsn) ∧ (∀ r ∈ gapLog, 0 < r.lsn ∧ r.lsn < 2 ^ 64) ∧
    NoneFails gapLog gapHeap ∧ NoneFails gapLog (recover gapLog gapHeap) ∧
    ¬Idempotent gapLog gapHeap := by
  refine ⟨ok_gapHeap, by decide, by decide, by decide, by decide +kernel, by decide +kernel, ?_⟩
  rintro ⟨heq, -⟩
  have hne : (recover gapLog (recover gapLog gapHeap)).getTuple ⟨0, 1⟩ ≠
      (recover gapLog gapHeap).getTuple ⟨0, 1⟩ := by decide +kernel
  exact hne (heq ⟨0, 1⟩)

theorem recover_twice_iff_gap : Idempotent gapLog gapHeap ↔ SettledSpared gapLog gapHeap :=
  recover_twice_iff ok_gapHeap (by decide) (by decide) (by decide +kernel) (by decide +kernel)

end Relite.Txn
