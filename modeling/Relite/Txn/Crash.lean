import Relite.Txn.History

/-!
# Crashes

A crash keeps, of every page, the state after some prefix of the history, and of the
page lists the state when the catalog was last saved. The log is complete. Recovery
then leaves what the committed changes alone lead to, provided that no redo is skipped
for a page LSN and that each record recovery puts back finds room.
-/
namespace Relite.Txn
open Lib Vm Backend

/-- How much of the history each page and the catalog file hold. -/
structure Crash where
  flushed : Int → Nat
  saved : Nat

namespace Volatile

def stateAfter (v : Volatile) (ops : List HeapOp) (n : Nat) : Volatile :=
  (v.runOps (ops.take n)).getD v

/-- What is read back after the crash. Allocating a page extends the file at once. -/
def crashImage (v : Volatile) (ops : List HeapOp) (c : Crash) : TableManager where
  pool.page pid := (v.stateAfter ops (c.flushed pid)).tables.page pid
  pool.numPages := (v.stateAfter ops ops.length).tables.pool.numPages
  pages := (v.stateAfter ops c.saved).tables.pages
  pageFree _ := none

end Volatile

/-- The record ids after the changes of the committed transactions only. -/
def committedOnly (records : List LogRecord) (m : RecordID → Option Bytes) :
    RecordID → Option Bytes :=
  redoMap (committedTxns records) (updates records) m

/-! ## Prefixes of a history -/

theorem runOps_append (v : Volatile) (a b : List HeapOp) :
    v.runOps (a ++ b) = (v.runOps a).bind fun v => v.runOps b := by
  simp only [Volatile.runOps, List.foldlM_append]
  rfl

theorem step_records {v v' : Volatile} {o : HeapOp} (h : v.step o = some v') :
    v.wal.records <+: v'.wal.records := by
  cases o with
  | start => cases h; exact List.prefix_append _ _
  | insert txnId tableId bytes =>
    simp only [Volatile.step] at h
    split at h
    · cases h; exact List.prefix_append _ _
    · cases h
  | delete txnId tableId rid =>
    simp only [Volatile.step] at h
    split at h
    · split at h
      · cases h; exact List.prefix_append _ _
      · cases h
    · cases h
  | overwrite txnId tableId rid bytes =>
    simp only [Volatile.step] at h
    split at h
    · split at h
      · cases h
        exact (List.prefix_append _ _).trans (List.prefix_append _ _)
      · cases h
    · cases h
  | commit txnId | abort txnId =>
    simp only [Volatile.step] at h
    split at h
    · cases h; exact List.prefix_append _ _
    · cases h; exact List.prefix_rfl

theorem updates_subset {a b : List LogRecord} (h : a <+: b) : updates a ⊆ updates b := by
  obtain ⟨c, rfl⟩ := h
  rw [updates_append]
  exact List.subset_append_left _ _

theorem Volatile.Named.mono {v v' : Volatile} (h : v.wal.records <+: v'.wal.records)
    {rid : RecordID} (hn : v.Named rid) : v'.Named rid := by
  obtain ⟨u, hu, hk⟩ := hn
  exact ⟨u, updates_subset h hu, hk⟩

theorem History.runOps {m : RecordID → Option Bytes} {v v' : Volatile} {ops : List HeapOp}
    (h : History m v) (hrun : v.runOps ops = some v') :
    v.tables.Grows v'.tables ∧ v.wal.records <+: v'.wal.records ∧
      ∃ m', History m' v' ∧ ((∀ t, .abort t ∉ ops) → m' = m) := by
  induction ops generalizing m v with
  | nil => cases hrun; exact ⟨.refl _, List.prefix_rfl, m, h, fun _ => rfl⟩
  | cons o ops ih =>
    simp only [Volatile.runOps, List.foldlM_cons] at hrun
    obtain ⟨v₁, h₁, hrest⟩ := Option.bind_eq_some_iff.mp hrun
    obtain ⟨hgrow, m₁, hist, -, hm₁⟩ := h.step h₁
    obtain ⟨hgrow', hpre, m', hist', hm'⟩ := ih hist hrest
    refine ⟨hgrow.trans hgrow', (step_records h₁).trans hpre, m', hist', fun hno => ?_⟩
    rw [hm' fun t ht => hno t (by simp [ht]), hm₁ fun t he => hno t (by simp [he])]

/-- The state after a prefix of a history is the state of a history, with less in the log. -/
theorem History.stateAfter {m : RecordID → Option Bytes} {v v' : Volatile} {ops : List HeapOp}
    (h : History m v) (hrun : v.runOps ops = some v') (n : Nat) :
    v.tables.Grows (v.stateAfter ops n).tables ∧
      (v.stateAfter ops n).wal.records <+: v'.wal.records ∧
      (v.stateAfter ops n).tables.pool.numPages ≤ v'.tables.pool.numPages ∧
      ∃ m', History m' (v.stateAfter ops n) ∧ ((∀ t, .abort t ∉ ops) → m' = m) := by
  have hsplit : v.runOps (ops.take n ++ ops.drop n) = some v' := by
    rw [List.take_append_drop, hrun]
  rw [runOps_append] at hsplit
  obtain ⟨v₁, h₁, hrest⟩ := Option.bind_eq_some_iff.mp hsplit
  have hv₁ : v.stateAfter ops n = v₁ := by simp [Volatile.stateAfter, h₁]
  obtain ⟨hgrow, -, m', hist, hm'⟩ := h.runOps h₁
  obtain ⟨hgrow', hpre, -⟩ := hist.runOps hrest
  rw [hv₁]
  exact ⟨hgrow, hpre, hgrow'.numPages, m', hist,
    fun hno => hm' fun t ht => hno t (List.mem_of_mem_take ht)⟩

theorem stateAfter_length {v v' : Volatile} {ops : List HeapOp} (hrun : v.runOps ops = some v') :
    v.stateAfter ops ops.length = v' := by
  simp [Volatile.stateAfter, hrun]

/-! ## The crash image -/

section
variable {v₀ v : Volatile} {ops : List HeapOp} {m : RecordID → Option Bytes}

theorem numPages_crashImage (hrun : v₀.runOps ops = some v) (c : Crash) :
    (v₀.crashImage ops c).pool.numPages = v.tables.pool.numPages := by
  rw [Volatile.crashImage, stateAfter_length hrun]

theorem History.sound_crashImage (h : History m v₀) (hrun : v₀.runOps ops = some v)
    (c : Crash) : (v₀.crashImage ops c).Sound where
  pageOk pid := by
    obtain ⟨-, -, -, m', hist, -⟩ := h.stateAfter hrun (c.flushed pid)
    exact hist.sound.pageOk pid
  bound t pid hmem := by
    obtain ⟨-, -, hnum, m', hist, -⟩ := h.stateAfter hrun c.saved
    have hb := hist.sound.bound t pid hmem
    rw [numPages_crashImage hrun c]
    omega
  empty pid hpid := by
    obtain ⟨-, -, hnum, m', hist, -⟩ := h.stateAfter hrun (c.flushed pid)
    rw [numPages_crashImage hrun c] at hpid
    exact hist.sound.empty pid (by omega)

/-- Without aborts, a record id that the log does not name is on disk as it was at the
start. -/
theorem History.crashImage_of_unnamed (h : History m v₀) (hrun : v₀.runOps ops = some v)
    (c : Crash) (hno : ∀ t, .abort t ∉ ops) {rid : RecordID} (hnot : ¬v.Named rid) :
    (v₀.crashImage ops c).getTuple rid = m rid := by
  obtain ⟨-, hpre, -, m', hist, hm'⟩ := h.stateAfter hrun (c.flushed rid.pageId)
  have hdisk : (v₀.crashImage ops c).getTuple rid =
      (v₀.stateAfter ops (c.flushed rid.pageId)).tables.getTuple rid := rfl
  rw [hdisk]
  rcases hist.contents rid with hc | hc
  · rw [hc, hm' hno, replay_of_not_mem]
    intro w hw hk
    obtain ⟨u, hu, rfl⟩ := List.mem_map.mp hw
    exact hnot ⟨u, updates_subset hpre hu, hk⟩
  · exact absurd (hc.2.2.mono hpre) hnot

theorem History.onPage_crashImage (h : History m v₀) (hrun : v₀.runOps ops = some v)
    (c : Crash) : ∀ r ∈ v.wal.records, r.OnPage (v₀.crashImage ops c) := by
  intro r hr ht
  obtain ⟨-, -, m', hist, -⟩ := h.runOps hrun
  obtain ⟨u, hu⟩ := LogRecord.isSome_update ht
  have halloc := hist.allocated r.rid
    ⟨u, mem_updates.mpr ⟨r, hr, hu⟩, (LogRecord.update_eq hu).2⟩
  rw [numPages_crashImage hrun c]
  exact halloc.2.2

/-- Recovery of a crash image, once no redo is skipped and every record finds room. -/
theorem History.recover_crashImage (h : History m v₀) (hrun : v₀.runOps ops = some v) (c : Crash)
    (hskip : NoneSkipped v.wal.readAll (v₀.crashImage ops c))
    (hroom : FindsRoom v.wal.readAll (v₀.crashImage ops c)) :
    (recover v.wal.readAll (v₀.crashImage ops c)).Sound ∧
      AllSteps (redoRecord (committedTxns v.wal.readAll))
        (SkipSound (committedTxns v.wal.readAll)) (v₀.crashImage ops c) v.wal.readAll ∧
      ∃ m', ((∀ t, .abort t ∉ ops) → m' = m) ∧
        ∀ rid, v.Named rid ∨ (∀ t, .abort t ∉ ops) →
          (recover v.wal.readAll (v₀.crashImage ops c)).getTuple rid =
            committedOnly v.wal.readAll m' rid := by
  obtain ⟨-, -, m', hist, hm'⟩ := h.runOps hrun
  obtain ⟨hsound, hget, hskips⟩ := recover_getTuple (h.sound_crashImage hrun c)
    (h.onPage_crashImage hrun c) hist.wellFormed hist.wal.sorted hskip hroom
  refine ⟨hsound, hskips, m', hm', fun rid hrid => ?_⟩
  rw [WriteAheadLog.readAll, hget]
  refine recoverMap_of_history hist.consistent hist.losersHold rid fun hnil => ?_
  have hnot : ¬v.Named rid := by
    rintro ⟨u, hu, hk⟩
    exact absurd hk (by simpa using List.filter_eq_nil_iff.mp hnil u hu)
  have hno := hrid.resolve_left hnot
  rw [hm' hno]
  exact h.crashImage_of_unnamed hrun c hno hnot

/-- Pages that no recovery has stamped yet make no redo skip. -/
theorem History.noneSkipped_of_zero (h : History m v₀) (hrun : v₀.runOps ops = some v)
    (hlsn : ∀ pid, (v₀.tables.page pid).pageLSN = 0) (c : Crash) :
    NoneSkipped v.wal.readAll (v₀.crashImage ops c) := by
  intro r hr _ _
  obtain ⟨-, -, m', hist, -⟩ := h.runOps hrun
  obtain ⟨hgrow, -⟩ := h.stateAfter hrun (c.flushed r.rid.pageId)
  have hpos := hist.wal.pos r hr
  have hzero : ((v₀.crashImage ops c).page r.rid.pageId).pageLSN = 0 := by
    have := hgrow.pageLSN r.rid.pageId
    rw [hlsn] at this
    exact Nat.le_zero.mp this
  have hformat := ((h.sound_crashImage hrun c).pageOk r.rid.pageId).pageLSN_format
  omega

end

/-- After a crash with any pages flushed, recovery leaves every record id with what the
committed transactions alone lead to, if each record it puts back finds room. -/
theorem recover_committed {tables : TableManager} (hs : tables.Sound)
    (hlsn : ∀ pid, (tables.page pid).pageLSN = 0) {ops : List HeapOp}
    (hno : ∀ t, .abort t ∉ ops) {v : Volatile}
    (hrun : (Volatile.opened tables).runOps ops = some v) (c : Crash)
    (hroom : FindsRoom v.wal.readAll ((Volatile.opened tables).crashImage ops c)) :
    (recover v.wal.readAll ((Volatile.opened tables).crashImage ops c)).getTuple =
      committedOnly v.wal.readAll tables.getTuple := by
  have hist := History.opened hs
  obtain ⟨-, -, m', hm', hget⟩ :=
    hist.recover_crashImage hrun c (hist.noneSkipped_of_zero hrun hlsn c) hroom
  funext rid
  rw [hget rid (.inr hno), hm' hno]

/-- One committed insert, of which nothing reached the disk. -/
def oneInsert : List HeapOp := [.start, .insert 1 0 [7], .commit 1]

def oneInserted : Volatile :=
  ((Volatile.opened .empty).runOps oneInsert).getD (.opened .empty)

theorem recover_committed_oneInsert :
    (recover oneInserted.wal.readAll
      ((Volatile.opened .empty).crashImage oneInsert ⟨fun _ => 0, 0⟩)).getTuple ⟨0, 0⟩ =
        some [7] := by
  have hrun : (Volatile.opened .empty).runOps oneInsert = some oneInserted := rfl
  have h := recover_committed TableManager.wf_empty.toSound (fun _ => Page.pageLSN_zero)
    (by simp [oneInsert]) hrun ⟨fun _ => 0, 0⟩ (by decide +kernel)
  rw [h]
  decide +kernel

/-! ## Space that a loser freed -/

def bigRow (b : UInt8) : Bytes := List.replicate 4000 b

@[simp] theorem length_bigRow (b : UInt8) : (bigRow b).length = 4000 := List.length_replicate

theorem bigRow_ne_nil (b : UInt8) : bigRow b ≠ [] := by
  intro h
  have := length_bigRow b
  rw [h] at this
  cases this

/-- A page that a single row fills. -/
structure Full (p : Page) : Prop where
  wf : p.WF
  count : p.slotCount = 1
  lsn : p.pageLSN = 0
  freeEnd : p.freeEnd = 96
  get : p.get 0 = some (bigRow 1)

def fullPage : Page := (Page.init.insert (bigRow 1)).elim Page.zero Prod.fst

theorem full_fullPage : Full fullPage := by
  obtain ⟨q, hq⟩ := Page.insert_init_isSome (bigRow_ne_nil 1) (by simp)
  obtain ⟨-, -, hwf, hcount, hlsn, -, hget⟩ := Page.insert_spec (.inl Page.wf_init) hq
  have hend := Page.freeEnd_insert_init (by simp) hq
  have he : fullPage = q := by simp [fullPage, hq]
  rw [length_bigRow] at hend
  rw [he]
  exact ⟨hwf, hcount, hlsn, hend, (hget 0).trans (if_pos rfl)⟩

namespace Full

variable {p : Page}

theorem get_one (h : Full p) : p.get 1 = none := by
  have := p.get_of_ge (s := 1) (by rw [h.count])
  exact this

/-- A second slot fits, a second row does not. -/
theorem extend (h : Full p) : (p.extend 1).WF ∧ (p.extend 1).get 0 = some (bigRow 1) ∧
    (p.extend 1).get 1 = none ∧ (p.extend 1).freeSpace < 4000 ∧
    (p.extend 1).usableSpace < 4000 := by
  have hfits : p.SlotsFit 1 := by
    refine ⟨by simp only [PAGE_SIZE]; omega, fun s hs hl => ?_⟩
    have := (h.wf.inside s hs hl).1
    have := h.freeEnd
    omega
  obtain ⟨hcount, hend, -, hget, hwf⟩ := h.wf.extend hfits
  rw [h.count] at hcount
  rw [h.freeEnd] at hend
  have h0 : (p.extend 1).get 0 = some (bigRow 1) := (hget 0).trans h.get
  have h1 : (p.extend 1).get 1 = none := (hget 1).trans h.get_one
  have hlive : (p.extend 1).liveBytes = 4000 := by
    rw [Page.liveBytes_eq_get]
    change (p.extend 1).slotCount = 2 at hcount
    rw [hcount]
    simp [List.range_succ, h0, h1]
  change (p.extend 1).slotCount = 2 at hcount
  change (p.extend 1).freeEnd = 96 at hend
  have harray : 12 + 4 * (p.extend 1).slotCount ≤ (p.extend 1).freeEnd := by omega
  refine ⟨hwf harray, h0, h1, ?_, ?_⟩
  · rw [Page.freeSpace_eq, hend, hcount]
    omega
  · rw [Page.usableSpace_eq, hlive, hcount]
    omega

/-- The page refuses a second row, and putting the first one back does not change that. -/
theorem redoSet_get (h : Full p) (lsn : Nat) (hlsn : lsn ≠ 0) :
    ((p.redoSet 1 (bigRow 2) lsn).1.redoSet 0 (bigRow 1) 0).1.get 1 = none := by
  obtain ⟨hwf, hget, hone, hfree, husable⟩ := h.extend
  have hskip : ¬p.Skips lsn := by
    rintro ⟨-, hle⟩
    rw [h.wf.format, h.lsn] at hle
    omega
  have hrefused : ∃ q : Page, (p.redoSet 1 (bigRow 2) lsn).1 = q ∧ q.WF ∧
      q.get 0 = some (bigRow 1) ∧ q.get 1 = none := by
    have hcur : p.get 1 ≠ some (bigRow 2) := by simp [h.get_one]
    rcases Page.redoSet_refused h.wf.format hskip hcur (by simpa using hfree)
      (by simpa using husable) with hq | hq
    · exact ⟨p, hq, h.wf, h.get, h.get_one⟩
    · exact ⟨_, congrArg Prod.fst hq, hwf, hget, hone⟩
  obtain ⟨q, hq, hqwf, hq0, hq1⟩ := hrefused
  have hroom : q.RedoRoom 0 (bigRow 1) := .inl (by rw [hqwf.format]; exact hq0)
  obtain ⟨-, -, -, -, hset⟩ := Page.redoSet_spec (.inl hqwf) (bigRow_ne_nil 1)
    (TableManager.not_skips_zero q) hroom
  rw [hq]
  exact ((hset 1).trans (if_neg (by omega))).trans hq1

/-- Once the row is removed, the next one goes to slot 1. -/
theorem insert_erase (h : Full p) {q : Page} (hq : p.erase 0 = some q) :
    ∃ q', q.insert (bigRow 2) = some (q', 1) ∧ q.freeBytes = 4080 := by
  obtain ⟨-, hwf, hcount, -, hget⟩ := Page.erase_spec (.inl h.wf) hq
  rw [h.count] at hcount
  have hlive : q.liveBytes = 0 := by
    have h0 : q.get 0 = none := (hget 0).trans (if_pos rfl)
    rw [Page.liveBytes_eq_get, hcount]
    simp [List.range_succ, h0]
  have hsome : q.insert (bigRow 2) ≠ none := by
    rw [Ne, Page.insert_eq_none_iff]
    rintro (hs | hs | ⟨-, hs⟩)
    · exact bigRow_ne_nil 2 hs
    · simp at hs
    · rw [Page.usableSpace_eq, hlive, hcount, length_bigRow] at hs
      omega
  obtain ⟨⟨q', n⟩, hins⟩ := Option.ne_none_iff_exists'.mp hsome
  obtain ⟨rfl, -⟩ := Page.insert_spec (.inl hwf) hins
  refine ⟨q', by rw [hins, hcount], ?_⟩
  rw [Page.freeBytes, Page.usableSpace_eq, hlive, hcount]
  rfl

end Full

def oneRow (p : Page) : TableManager where
  pool := ⟨fun pid => if pid = 0 then p else .zero, 1⟩
  pages t := if t = 0 then some [0] else none
  pageFree _ := none

theorem sound_oneRow {p : Page} (h : Full p) : (oneRow p).Sound := by
  refine ⟨fun pid => ?_, fun t pid hm => ?_, fun pid hpid => ?_⟩
  · by_cases hp : pid = 0
    · simp [oneRow, TableManager.page, hp, Page.Ok, h.wf]
    · simp [oneRow, TableManager.page, hp, Page.Ok, Page.blank_zero]
  · by_cases ht : t = 0 <;> simp [oneRow, TableManager.pageList, ht] at hm ⊢
    omega
  · have hp : pid ≠ 0 := by simp [oneRow] at hpid; omega
    simp [oneRow, TableManager.page, hp, Page.blank_zero.slotCount_eq]

theorem pageLSN_oneRow {p : Page} (h : Full p) (pid : Int) : ((oneRow p).page pid).pageLSN = 0 := by
  by_cases hp : pid = 0
  · simp [oneRow, TableManager.page, hp, h.lsn]
  · simp [oneRow, TableManager.page, hp, Page.pageLSN_zero]

/-- A transaction that never ends removes the row, and another one commits a row in its
place. -/
def reuse : List HeapOp :=
  [.start, .delete 1 0 ⟨0, 0⟩, .start, .insert 2 0 (bigRow 2), .commit 2]

def reuseLog : List LogRecord :=
  [{ lsn := 1, txnId := 1, type := .Begin },
   { lsn := 2, txnId := 1, type := .Delete, tableId := 0, rid := ⟨0, 0⟩, beforeImage := bigRow 1 },
   { lsn := 3, txnId := 2, type := .Begin },
   { lsn := 4, txnId := 2, type := .Insert, tableId := 0, rid := ⟨0, 1⟩, afterImage := bigRow 2 },
   { lsn := 5, txnId := 2, type := .Commit }]

theorem insertTuple_oneRow {p : Page} (h : Full p) :
    (((oneRow p).eraseTuple ⟨0, 0⟩).1.insertTuple 0 (bigRow 2)).2 = ⟨0, 1⟩ := by
  obtain ⟨q, hq⟩ : ∃ q, p.erase 0 = some q := by
    refine Option.ne_none_iff_exists'.mp fun he => ?_
    rw [Page.erase_eq_none_iff, h.get] at he
    cases he
  obtain ⟨q', hq', hfree⟩ := h.insert_erase hq
  simp [TableManager.eraseTuple, TableManager.insertTuple, TableManager.registerTable, oneRow,
    TableManager.page, hq, TableManager.setPage, TableManager.setFree, PageStore.setPage,
    TableManager.pageList, TableManager.tryPages, hfree, hq', Page.SLOT_SIZE]

theorem reuse_runs {p : Page} (h : Full p) :
    ∃ v, (Volatile.opened (oneRow p)).runOps reuse = some v ∧ v.wal.readAll = reuseLog := by
  have hget : (oneRow p).getTuple ⟨0, 0⟩ = some (bigRow 1) := h.get
  have hlist : (oneRow p).pageList 0 = [0] := rfl
  have hins := insertTuple_oneRow h
  generalize hr : ((oneRow p).eraseTuple ⟨0, 0⟩).1.insertTuple 0 (bigRow 2) = result at hins
  obtain ⟨tables, rid⟩ := result
  subst hins
  simp [Volatile.runOps, reuse, Volatile.step, Volatile.opened, hget, Volatile.MayTouch,
    hlist, Volatile.change, Volatile.finish, hr, RecordID.valid, WriteAheadLog.append, WriteAheadLog.readAll, reuseLog]

theorem recover_reuse {p : Page} (h : Full p) : (recover reuseLog
    ((Volatile.opened (oneRow p)).crashImage reuse ⟨fun _ => 0, 0⟩)).getTuple ⟨0, 1⟩ = none := by
  have hpage : ((Volatile.opened (oneRow p)).crashImage reuse ⟨fun _ => 0, 0⟩).page 0 = p := rfl
  have hredo := h.redoSet_get 4 (by omega)
  simp [recover, reuseLog, redoRecord, undoRecord, committedTxns, TableManager.redoInsert,
    TableManager.undoDelete, TableManager.getTuple, hpage, hredo]

/-- The row that the second transaction committed is lost when nothing was flushed. -/
theorem recover_loses_committed : ∃ v,
    (oneRow fullPage).Sound ∧ (∀ pid, ((oneRow fullPage).page pid).pageLSN = 0) ∧
      (∀ t, .abort t ∉ reuse) ∧ (Volatile.opened (oneRow fullPage)).runOps reuse = some v ∧
      committedOnly v.wal.readAll (oneRow fullPage).getTuple ⟨0, 1⟩ = some (bigRow 2) ∧
      (recover v.wal.readAll ((Volatile.opened (oneRow fullPage)).crashImage reuse
        ⟨fun _ => 0, 0⟩)).getTuple ⟨0, 1⟩ = none := by
  obtain ⟨v, hrun, hlog⟩ := reuse_runs full_fullPage
  refine ⟨v, sound_oneRow full_fullPage, pageLSN_oneRow full_fullPage, by simp [reuse], hrun,
    ?_, ?_⟩
  · rw [hlog]
    simp [committedOnly, redoMap, updates, reuseLog, LogRecord.update, committedTxns, Update.redo,
      List.filterMap_cons]
  · rw [hlog]
    exact recover_reuse full_fullPage

end Relite.Txn
