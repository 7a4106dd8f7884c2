import Relite.Txn.Wal
import Relite.Vm.Heap
import Relite.Lib.RedoUndo
import Relite.Lib.Run

/-!
# Recovery

`recover` repeats the changes of the committed transactions and then takes back those of
all others. On the record ids it is the recovery of a keyed log (`recover_getTuple`), as
long as no redo is skipped for a page LSN and every record it puts back finds room.
-/
namespace Relite.Txn
open Lib Vm Backend

def committedTxns (records : List LogRecord) (txnId : TxnId) : Bool :=
  records.any fun r => r.type = .Commit ∧ r.txnId = txnId

/-- Redo of one record of the log. -/
def redoRecord (committed : TxnId → Bool) (tables : TableManager) (r : LogRecord) : TableManager :=
  if committed r.txnId = false then tables
  else
    match r.type with
    | .Insert => tables.redoInsert r.tableId r.rid r.afterImage r.lsn
    | .Delete => tables.redoDelete r.rid r.lsn
    | _ => tables

/-- Undo of one record of the log. -/
def undoRecord (committed : TxnId → Bool) (tables : TableManager) (r : LogRecord) : TableManager :=
  if committed r.txnId then tables
  else
    match r.type with
    | .Insert => tables.undoInsert r.rid
    | .Delete => tables.undoDelete r.tableId r.rid r.beforeImage
    | _ => tables

def recover (records : List LogRecord) (tables : TableManager) : TableManager :=
  let committed := committedTxns records
  let tables := records.foldl (redoRecord committed) tables
  records.reverse.foldl (undoRecord committed) tables

/-- The page of the record finds room for an image that recovery puts back. -/
def RoomFor (tables : TableManager) (r : LogRecord) (image : Bytes) : Prop :=
  (tables.page r.rid.pageId).RedoRoom r.rid.slotId.toNat image

instance (tables : TableManager) (r : LogRecord) (image : Bytes) :
    Decidable (RoomFor tables r image) := by
  unfold RoomFor; infer_instance

def RedoFits (committed : TxnId → Bool) (tables : TableManager) (r : LogRecord) : Prop :=
  committed r.txnId = true → r.type = .Insert → RoomFor tables r r.afterImage

def UndoFits (committed : TxnId → Bool) (tables : TableManager) (r : LogRecord) : Prop :=
  committed r.txnId = false → r.type = .Delete → RoomFor tables r r.beforeImage

instance (committed : TxnId → Bool) (tables : TableManager) (r : LogRecord) :
    Decidable (RedoFits committed tables r) := by
  unfold RedoFits; infer_instance

instance (committed : TxnId → Bool) (tables : TableManager) (r : LogRecord) :
    Decidable (UndoFits committed tables r) := by
  unfold UndoFits; infer_instance

/-- Every record that recovery puts back finds room on its page when its turn comes. -/
def FindsRoom (records : List LogRecord) (tables : TableManager) : Prop :=
  AllSteps (redoRecord (committedTxns records)) (RedoFits (committedTxns records)) tables records ∧
    AllSteps (undoRecord (committedTxns records)) (UndoFits (committedTxns records))
      (run (redoRecord (committedTxns records)) tables records) records.reverse

instance (records : List LogRecord) (tables : TableManager) :
    Decidable (FindsRoom records tables) := by
  unfold FindsRoom; infer_instance

/-- No page carries an LSN that makes `redoSet` or `redoClear` skip a committed record. -/
def NoneSkipped (records : List LogRecord) (tables : TableManager) : Prop :=
  ∀ r ∈ records, committedTxns records r.txnId = true → r.type = .Insert ∨ r.type = .Delete →
    (tables.page r.rid.pageId).format.pageLSN < r.lsn

instance (records : List LogRecord) (tables : TableManager) :
    Decidable (NoneSkipped records tables) := by
  unfold NoneSkipped; infer_instance

/-- When the redo of a committed record is skipped, the record id already holds what the
record says. -/
def SkipSound (committed : TxnId → Bool) (tables : TableManager) (r : LogRecord) : Prop :=
  committed r.txnId = true → (tables.page r.rid.pageId).Skips r.lsn →
    (r.type = .Insert → tables.getTuple r.rid = some r.afterImage) ∧
      (r.type = .Delete → tables.getTuple r.rid = none)

instance (committed : TxnId → Bool) (tables : TableManager) (r : LogRecord) :
    Decidable (SkipSound committed tables r) := by
  unfold SkipSound; infer_instance

/-- The records that the heap operations write: a slot that exists and a non-empty image. -/
def LogRecord.WellFormed (r : LogRecord) : Prop :=
  (r.type = .Insert → 0 ≤ r.rid.slotId ∧ r.afterImage ≠ []) ∧
    (r.type = .Delete → 0 ≤ r.rid.slotId ∧ r.beforeImage ≠ [])

instance (r : LogRecord) : Decidable r.WellFormed := by
  unfold LogRecord.WellFormed; infer_instance

/-- A record of the log as an update of its record id. -/
def LogRecord.update (r : LogRecord) : Option (Update TxnId RecordID Bytes) :=
  match r.type with
  | .Insert => some ⟨r.txnId, r.rid, none, some r.afterImage⟩
  | .Delete => some ⟨r.txnId, r.rid, some r.beforeImage, none⟩
  | _ => none

def updates (records : List LogRecord) : List (Update TxnId RecordID Bytes) :=
  records.filterMap LogRecord.update

end Relite.Txn

namespace Relite.Vm.TableManager
open Lib Backend

/-! ## Redo and undo at a record id -/

@[simp] theorem page_addPage (tm : TableManager) (t : TableId) (pid : Int) :
    (tm.addPage t pid).page = tm.page := by
  simp only [addPage]
  split <;> simp

@[simp] theorem getTuple_addPage (tm : TableManager) (t : TableId) (pid : Int) :
    (tm.addPage t pid).getTuple = tm.getTuple := by
  funext rid
  simp only [getTuple, page_addPage]

@[simp] theorem numPages_addPage (tm : TableManager) (t : TableId) (pid : Int) :
    (tm.addPage t pid).pool.numPages = tm.pool.numPages := by
  simp only [addPage]
  split <;> simp

/-- Listing an allocated page keeps a sound manager sound. -/
theorem Sound.addPage {tm : TableManager} (h : tm.Sound) (t : TableId) {pid : Int}
    (hpid : 0 ≤ pid ∧ pid < tm.pool.numPages) : (tm.addPage t pid).Sound where
  pageOk := by rw [page_addPage]; exact h.pageOk
  bound t' pid' hm := by
    rw [numPages_addPage]
    simp only [TableManager.addPage] at hm
    have hold := h.bound t' pid'
    split at hm
    · rw [pageList_registerTable] at hm
      exact hold hm
    · simp only [pageList_setPages, pageList_registerTable] at hm
      have hold' := h.bound t pid'
      grind
  empty := by rw [page_addPage, numPages_addPage]; exact h.empty

theorem Sound.redoInsert {tm : TableManager} (h : tm.Sound) (t : TableId) {rid : RecordID}
    {bytes : Bytes} {lsn : Nat} (hslot : 0 ≤ rid.slotId)
    (hpage : 0 ≤ rid.pageId ∧ rid.pageId < tm.pool.numPages) (hne : bytes ≠ [])
    (hskip : ¬(tm.page rid.pageId).Skips lsn)
    (hroom : (tm.page rid.pageId).RedoRoom rid.slotId.toNat bytes) :
    (tm.redoInsert t rid bytes lsn).Sound ∧
      (tm.redoInsert t rid bytes lsn).getTuple = Function.update tm.getTuple rid (some bytes) ∧
      ∀ pid, ((tm.redoInsert t rid bytes lsn).page pid).format.pageLSN =
        if pid = rid.pageId ∧ lsn ≠ 0 then lsn % 2 ^ 64 else (tm.page pid).format.pageLSN := by
  obtain ⟨-, hwf, -, hlsn, hget⟩ := Page.redoSet_spec (h.pageOk rid.pageId) hne hskip hroom
  rw [Int.toNat_of_nonneg hslot] at hwf hlsn hget
  refine ⟨(h.setPage _ (.inl hwf) (.inl hpage)).addPage t hpage, ?_, fun pid => ?_⟩
  · simp only [TableManager.redoInsert, getTuple_addPage]
    refine getTuple_setPage rid hslot fun s => ?_
    rw [hget s]
    have : s = rid.slotId.toNat ↔ (s : Int) = rid.slotId := by omega
    simp only [this]
  · simp only [TableManager.redoInsert, page_addPage, page_setPage]
    by_cases hp : pid = rid.pageId
    · subst hp
      simp [hwf.format, hlsn]
    · simp [hp]

theorem Sound.redoDelete {tm : TableManager} (h : tm.Sound) {rid : RecordID} {lsn : Nat}
    (hslot : 0 ≤ rid.slotId) (hskip : ¬(tm.page rid.pageId).Skips lsn) :
    (tm.redoDelete rid lsn).Sound ∧
      (tm.redoDelete rid lsn).getTuple = Function.update tm.getTuple rid none ∧
      ∀ pid, ((tm.redoDelete rid lsn).page pid).format.pageLSN =
        if pid = rid.pageId ∧ lsn ≠ 0 then lsn % 2 ^ 64 else (tm.page pid).format.pageLSN := by
  obtain ⟨hwf, hcount, hlsn, hget⟩ := Page.redoClear_spec (h.pageOk rid.pageId) hskip
  refine ⟨h.setPage _ (.inl hwf) (.inr hcount), getTuple_setPage rid hslot hget, fun pid => ?_⟩
  simp only [TableManager.redoDelete, page_setPage]
  by_cases hp : pid = rid.pageId
  · subst hp
    simp [hwf.format, hlsn]
  · simp [hp]

theorem not_skips_zero (p : Page) : ¬p.Skips 0 := fun h => h.1 rfl

theorem Sound.undoInsert {tm : TableManager} (h : tm.Sound) {rid : RecordID}
    (hslot : 0 ≤ rid.slotId) :
    (tm.undoInsert rid).Sound ∧
      (tm.undoInsert rid).getTuple = Function.update tm.getTuple rid none := by
  obtain ⟨hok, hget, -⟩ := h.redoDelete hslot (not_skips_zero _)
  exact ⟨hok.setFree _ _, hget⟩

theorem Sound.undoDelete {tm : TableManager} (h : tm.Sound) (t : TableId) {rid : RecordID}
    {bytes : Bytes} (hslot : 0 ≤ rid.slotId)
    (hpage : 0 ≤ rid.pageId ∧ rid.pageId < tm.pool.numPages) (hne : bytes ≠ [])
    (hroom : (tm.page rid.pageId).RedoRoom rid.slotId.toNat bytes) :
    (tm.undoDelete t rid bytes).Sound ∧
      (tm.undoDelete t rid bytes).getTuple = Function.update tm.getTuple rid (some bytes) := by
  obtain ⟨hok, hget, -⟩ := h.redoInsert t hslot hpage hne (not_skips_zero _) hroom
  exact ⟨hok, hget⟩

@[simp] theorem numPages_redoInsert (tm : TableManager) (t : TableId) (rid : RecordID)
    (bytes : Bytes) (lsn : Nat) :
    (tm.redoInsert t rid bytes lsn).pool.numPages = tm.pool.numPages := by
  simp [redoInsert]

end Relite.Vm.TableManager

namespace Relite.Txn
open Lib Vm Backend

/-! ## Recovery as recovery of a keyed log -/

/-- The record names a page that exists. -/
def LogRecord.OnPage (r : LogRecord) (tables : TableManager) : Prop :=
  r.type = .Insert ∨ r.type = .Delete → 0 ≤ r.rid.pageId ∧ r.rid.pageId < tables.pool.numPages

theorem numPages_redoRecord (committed : TxnId → Bool) (tables : TableManager) (r : LogRecord) :
    (redoRecord committed tables r).pool.numPages = tables.pool.numPages := by
  unfold redoRecord
  split
  · rfl
  · split
    · simp
    · rfl
    · rfl

theorem numPages_undoRecord (committed : TxnId → Bool) (tables : TableManager) (r : LogRecord) :
    (undoRecord committed tables r).pool.numPages = tables.pool.numPages := by
  unfold undoRecord
  split
  · rfl
  · split
    · rfl
    · simp [TableManager.undoDelete]
    · rfl

theorem redoRecord_spec {committed : TxnId → Bool} {tables : TableManager} {r : LogRecord}
    (hok : tables.Sound) (hon : r.OnPage tables) (hr : r.WellFormed) (hfit : RedoFits committed tables r)
    (hskip : committed r.txnId = true → r.type = .Insert ∨ r.type = .Delete →
      ¬(tables.page r.rid.pageId).Skips r.lsn) :
    (redoRecord committed tables r).Sound ∧
      (redoRecord committed tables r).getTuple =
        redoMap committed (updates [r]) tables.getTuple ∧
      ∀ pid, ((redoRecord committed tables r).page pid).format.pageLSN ≤
        max (tables.page pid).format.pageLSN r.lsn := by
  have hmod : r.lsn % 2 ^ 64 ≤ r.lsn := Nat.mod_le _ _
  unfold redoRecord redoMap updates
  cases hc : committed r.txnId with
  | false =>
    refine ⟨hok, ?_, fun pid => le_max_left _ _⟩
    cases ht : r.type <;> simp [LogRecord.update, ht, hc]
  | true =>
    simp only [Bool.true_eq_false, if_false]
    cases ht : r.type with
    | Insert =>
      obtain ⟨hslot, hne⟩ := hr.1 ht
      obtain ⟨hok', hget, hlsn⟩ :=
        hok.redoInsert r.tableId hslot (hon (.inl ht)) hne (hskip hc (.inl ht)) (hfit hc ht)
      refine ⟨hok', by simp [hget, LogRecord.update, ht, hc, Update.redo], fun pid => ?_⟩
      rw [hlsn]
      split <;> omega
    | Delete =>
      obtain ⟨hslot, -⟩ := hr.2 ht
      obtain ⟨hok', hget, hlsn⟩ := hok.redoDelete hslot (hskip hc (.inr ht))
      refine ⟨hok', by simp [hget, LogRecord.update, ht, hc, Update.redo], fun pid => ?_⟩
      rw [hlsn]
      split <;> omega
    | _ => exact ⟨hok, by simp [LogRecord.update, ht], fun pid => le_max_left _ _⟩

theorem undoRecord_spec {committed : TxnId → Bool} {tables : TableManager} {r : LogRecord}
    (hok : tables.Sound) (hon : r.OnPage tables) (hr : r.WellFormed) (hfit : UndoFits committed tables r) :
    (undoRecord committed tables r).Sound ∧
      (undoRecord committed tables r).getTuple =
        undoMap committed (updates [r]) tables.getTuple := by
  unfold undoRecord undoMap updates
  cases hc : committed r.txnId with
  | true =>
    refine ⟨hok, ?_⟩
    cases ht : r.type <;> simp [LogRecord.update, ht, hc]
  | false =>
    simp only [Bool.false_eq_true, if_false]
    cases ht : r.type with
    | Insert =>
      obtain ⟨hok', hget⟩ := hok.undoInsert (hr.1 ht).1
      exact ⟨hok', by simp [hget, LogRecord.update, ht, hc, Update.undo]⟩
    | Delete =>
      obtain ⟨hslot, hne⟩ := hr.2 ht
      obtain ⟨hok', hget⟩ := hok.undoDelete r.tableId hslot (hon (.inr ht)) hne (hfit hc ht)
      exact ⟨hok', by simp [hget, LogRecord.update, ht, hc, Update.undo]⟩
    | _ => exact ⟨hok, by simp [LogRecord.update, ht]⟩

theorem updates_append (a b : List LogRecord) : updates (a ++ b) = updates a ++ updates b := by
  simp [updates]

theorem redoPass_spec {committed : TxnId → Bool} (records : List LogRecord) :
    ∀ {tables : TableManager}, tables.Sound → (∀ r ∈ records, r.OnPage tables) →
      (∀ r ∈ records, r.WellFormed) →
      records.Pairwise (fun a b => a.lsn < b.lsn) →
      (∀ r ∈ records, committed r.txnId = true → r.type = .Insert ∨ r.type = .Delete →
        (tables.page r.rid.pageId).format.pageLSN < r.lsn) →
      AllSteps (redoRecord committed) (RedoFits committed) tables records →
      (run (redoRecord committed) tables records).Sound ∧
        (run (redoRecord committed) tables records).getTuple =
          redoMap committed (updates records) tables.getTuple ∧
        AllSteps (redoRecord committed) (SkipSound committed) tables records := by
  induction records with
  | nil => intro tables hok _ _ _ _ _; exact ⟨hok, rfl, trivial⟩
  | cons r records ih =>
    intro tables hok hon hwf hsorted hnew hfit
    obtain ⟨hlt, hsorted⟩ := List.pairwise_cons.mp hsorted
    have hskip : committed r.txnId = true → r.type = .Insert ∨ r.type = .Delete →
        ¬(tables.page r.rid.pageId).Skips r.lsn := by
      intro hc ht hs
      have := hnew r (by simp) hc ht
      exact absurd hs.2 (by omega)
    obtain ⟨hok', hget, hlsn⟩ := redoRecord_spec hok (hon r (by simp)) (hwf r (by simp)) hfit.1
      hskip
    have hon' : ∀ q ∈ records, q.OnPage (redoRecord committed tables r) := by
      intro q hq
      rw [LogRecord.OnPage, numPages_redoRecord]
      exact hon q (by simp [hq])
    obtain ⟨hok₂, hget₂, hsound⟩ := ih hok' hon' (fun q hq => hwf q (by simp [hq])) hsorted
      (fun q hq hc ht => by
        have h₁ := hlsn q.rid.pageId
        have h₂ := hlt q hq
        have h₃ := hnew q (by simp [hq]) hc ht
        omega) hfit.2
    refine ⟨hok₂, ?_, fun hc hs => ⟨fun ht => absurd hs (hskip hc (.inl ht)),
      fun ht => absurd hs (hskip hc (.inr ht))⟩, hsound⟩
    rw [run_cons, hget₂, hget, show r :: records = [r] ++ records from rfl, updates_append]
    simp [redoMap, replay_append]

theorem numPages_redoPass (committed : TxnId → Bool) (records : List LogRecord)
    (tables : TableManager) :
    (run (redoRecord committed) tables records).pool.numPages = tables.pool.numPages := by
  induction records generalizing tables with
  | nil => rfl
  | cons r records ih => rw [run_cons, ih, numPages_redoRecord]

theorem undoPass_spec {committed : TxnId → Bool} (records : List LogRecord) :
    ∀ {tables : TableManager}, tables.Sound → (∀ r ∈ records, r.OnPage tables) →
      (∀ r ∈ records, r.WellFormed) →
      AllSteps (undoRecord committed) (UndoFits committed) tables records →
      (run (undoRecord committed) tables records).Sound ∧
        (run (undoRecord committed) tables records).getTuple =
          undoMap committed (updates records.reverse) tables.getTuple := by
  induction records with
  | nil => intro tables hok _ _ _; exact ⟨hok, rfl⟩
  | cons r records ih =>
    intro tables hok hon hwf hfit
    obtain ⟨hok', hget⟩ := undoRecord_spec hok (hon r (by simp)) (hwf r (by simp)) hfit.1
    have hon' : ∀ q ∈ records, q.OnPage (undoRecord committed tables r) := by
      intro q hq
      rw [LogRecord.OnPage, numPages_undoRecord]
      exact hon q (by simp [hq])
    obtain ⟨hok₂, hget₂⟩ := ih hok' hon' (fun q hq => hwf q (by simp [hq])) hfit.2
    refine ⟨hok₂, ?_⟩
    rw [run_cons, hget₂, hget, List.reverse_cons, updates_append]
    simp [undoMap, replay_append]

/-- On the record ids, `recover` is the recovery of a keyed log. -/
theorem recover_getTuple {records : List LogRecord} {tables : TableManager}
    (hok : tables.Sound) (hon : ∀ r ∈ records, r.OnPage tables)
    (hwf : ∀ r ∈ records, r.WellFormed)
    (hsorted : records.Pairwise fun a b => a.lsn < b.lsn) (hskip : NoneSkipped records tables)
    (hroom : FindsRoom records tables) :
    (recover records tables).Sound ∧
      (recover records tables).getTuple =
        recoverMap (committedTxns records) (updates records) tables.getTuple ∧
      AllSteps (redoRecord (committedTxns records)) (SkipSound (committedTxns records)) tables
        records := by
  obtain ⟨hok₁, hget₁, hsound⟩ := redoPass_spec records hok hon hwf hsorted hskip hroom.1
  have hnum : (run (redoRecord (committedTxns records)) tables records).pool.numPages =
      tables.pool.numPages := numPages_redoPass _ records tables
  obtain ⟨hok₂, hget₂⟩ := undoPass_spec records.reverse hok₁
    (fun r hr => by rw [LogRecord.OnPage, hnum]; exact hon r (by simpa using hr))
    (by simpa using hwf) hroom.2
  refine ⟨hok₂, ?_, hsound⟩
  have hrun : recover records tables = run (undoRecord (committedTxns records))
    (run (redoRecord (committedTxns records)) tables records) records.reverse := rfl
  rw [hrun, hget₂, hget₁, List.reverse_reverse]
  rfl

end Relite.Txn
