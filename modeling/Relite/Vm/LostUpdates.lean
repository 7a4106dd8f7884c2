import Relite.Backend.PageRefinement
import Relite.Vm.Heap

/-!
# Updates that lose the row

`updateTuple` erases a row that it cannot overwrite before it looks for another place. Here the
buffer pool may be exhausted, so that a page is not found or a new one not given. Where no place
is found the row is gone, and this is the only way to lose it.
-/
namespace Relite.Vm
open Lib Backend

/-! ## A pool that can be exhausted -/

/-- Which pages the buffer pool gives during a call: that of the record id, those of the table
when they are searched, and a new one. -/
structure PoolAnswers where
  fetchRecord : Bool := true
  fetch : Int → Bool := fun _ => true
  newPage : Bool := true

namespace TableManager

/-- The loop of `insertTuple` over the pages of the table, of which some are not fetched. -/
def tryFetched (fetch : Int → Bool) (bytes : Bytes) :
    List Int → TableManager → TableManager × Option RecordID
  | [], tm => (tm, none)
  | pid :: rest, tm =>
    if (tm.pageFree pid).any (fun (hint : Int) => hint < bytes.length + Page.SLOT_SIZE) then
      tryFetched fetch bytes rest tm
    else if !fetch pid then tryFetched fetch bytes rest tm
    else
      match (tm.page pid).insert bytes with
      | some (page, slot) => ((tm.setPage pid page).setFree pid page.freeBytes, some ⟨pid, slot⟩)
      | none => tryFetched fetch bytes rest (tm.setFree pid (tm.page pid).freeBytes)

/-- `newPage` has allocated a page on disk before it finds no frame for it. -/
def allocatePage (tm : TableManager) : TableManager :=
  { tm with pool := { tm.pool with numPages := tm.pool.numPages + 1 } }

def insertTupleFrom (pool : PoolAnswers) (tm : TableManager) (tableId : TableId) (bytes : Bytes) :
    TableManager × RecordID :=
  let tm := tm.registerTable tableId
  match tryFetched pool.fetch bytes (tm.pageList tableId).reverse tm with
  | (tm, some rid) => (tm, rid)
  | (tm, none) => if pool.newPage then tm.insertNewPage tableId bytes else (tm.allocatePage, {})

def updateTupleFrom (pool : PoolAnswers) (tm : TableManager) (tableId : TableId) (rid : RecordID)
    (bytes : Bytes) : TableManager × RecordID :=
  if !pool.fetchRecord then (tm, {})
  else
    match (tm.page rid.pageId).update rid.slotId bytes with
    | some page => (tm.setPage rid.pageId page, rid)
    | none => (tm.eraseTuple rid).1.insertTupleFrom pool tableId bytes

/-! ## The statement -/

/-- The row is where the answer says, which was free if it is another place, and no other tuple
has changed; or the answer is invalid and no tuple at all has changed. -/
def KeepsRow (tm : TableManager) (t : TableId) (rid : RecordID) (bytes : Bytes)
    (out : TableManager × RecordID) : Prop :=
  if out.2.valid then
    out.1.heap = setRow (setRow tm.heap t rid none) t out.2 (some bytes) ∧
      (out.2 = rid ∨ ∀ u, tm.heap u out.2 = none)
  else out.1.heap = tm.heap

/-- A page of the table is fetched, its hint lets the record pass, and the record fits, on the
page of the old one in its place. -/
def HasRoom (pool : PoolAnswers) (tm : TableManager) (t : TableId) (rid : RecordID)
    (old bytes : Bytes) : Prop :=
  ∃ pid ∈ tm.pageList t, pool.fetch pid ∧
    if pid = rid.pageId then (bytes.length + 4 : Int) ≤ (tm.page pid).usableSpace + old.length
    else (bytes.length + 4 : Int) ≤ (tm.page pid).usableSpace ∧
      ∀ hint ∈ tm.pageFree pid, (bytes.length + 4 : Int) ≤ hint

/-- The page of the row is not fetched, or the record is not empty and fits over the old one, on a
page of the table or on a new page. -/
def UpdateFits (pool : PoolAnswers) (tm : TableManager) (t : TableId) (rid : RecordID)
    (old bytes : Bytes) : Prop :=
  pool.fetchRecord = false ∨ bytes ≠ [] ∧
    (bytes.length ≤ old.length ∨ tm.HasRoom pool t rid old bytes ∨
      pool.newPage ∧ bytes.length ≤ 4080)

/-! ## The pages of the table -/

theorem tryFetched_eq (fetch : Int → Bool) (bytes : Bytes) (l : List Int) (tm : TableManager) :
    tryFetched fetch bytes l tm = tryPages bytes (l.filter fetch) tm := by
  induction l generalizing tm with
  | nil => rfl
  | cons pid l ih =>
    cases hfetch : fetch pid with
    | false =>
      rw [List.filter_cons_of_neg (by simp [hfetch])]
      simp only [tryFetched, hfetch, Bool.not_false, if_true, ih, ite_self]
    | true =>
      rw [List.filter_cons_of_pos hfetch]
      rw [tryFetched, tryPages]
      split
      · exact ih tm
      rw [hfetch, if_neg (by simp)]
      cases (tm.page pid).insert bytes with
      | some p => rfl
      | none => exact ih _

/-- With a pool that has frames it is the same update. -/
theorem updateTupleFrom_all (tm : TableManager) (t : TableId) (rid : RecordID) (bytes : Bytes) :
    tm.updateTupleFrom {} t rid bytes = tm.updateTuple t rid bytes := by
  have hinsert : ∀ tm : TableManager, tm.insertTupleFrom {} t bytes = tm.insertTuple t bytes := by
    intro tm
    rw [insertTupleFrom, insertTuple]
    dsimp only
    rw [tryFetched_eq, List.filter_eq_self.mpr fun _ _ => rfl]
    rfl
  rw [updateTupleFrom, if_neg (by simp)]
  simp only [hinsert]
  rfl

/-- The search fails exactly if no page takes the record. -/
theorem tryPages_eq_none_iff (bytes : Bytes) {l : List Int} (hl : l.Nodup) (tm : TableManager) :
    (tryPages bytes l tm).2 = none ↔ ∀ pid ∈ l,
      (∀ hint ∈ tm.pageFree pid, (bytes.length + 4 : Int) ≤ hint) →
        (tm.page pid).insert bytes = none := by
  induction l generalizing tm with
  | nil => exact iff_of_true rfl (List.forall_mem_nil _)
  | cons pid l ih =>
    rw [List.nodup_cons] at hl
    rw [List.forall_mem_cons, tryPages]
    have hhint : (tm.pageFree pid).any
        (fun (hint : Int) => hint < bytes.length + Page.SLOT_SIZE) = true ↔
          ¬∀ hint ∈ tm.pageFree pid, (bytes.length + 4 : Int) ≤ hint := by
      cases tm.pageFree pid <;> simp
    split
    · rename_i hskip
      rw [ih hl.2, and_iff_right fun h => absurd h (hhint.mp hskip)]
    · rename_i hpass
      have hpass := not_not.mp (mt hhint.mpr hpass)
      split
      · rename_i page slot hins
        rw [hins]
        exact iff_of_false (by rintro ⟨⟩) fun h => by cases h.1 hpass
      · rename_i hins
        rw [ih hl.2, and_iff_right fun _ => hins]
        refine forall₂_congr fun p hp => ?_
        have hne : p ≠ pid := fun h => hl.1 (h ▸ hp)
        have hfree : (tm.setFree pid (tm.page pid).freeBytes).pageFree p = tm.pageFree p :=
          Function.update_of_ne hne _ _
        rw [page_setFree, hfree]

/-! ## Finding a place -/

/-- A page of the table or a new page takes the record. -/
def Takes (pool : PoolAnswers) (tm : TableManager) (t : TableId) (bytes : Bytes) : Prop :=
  (∃ pid ∈ tm.pageList t, pool.fetch pid ∧
    (∀ hint ∈ tm.pageFree pid, (bytes.length + 4 : Int) ≤ hint) ∧
      (tm.page pid).insert bytes ≠ none) ∨
    pool.newPage ∧ bytes ≠ [] ∧ bytes.length ≤ 4080

/-- Only a record that is not empty and no longer than a page has a place. -/
theorem Takes.storable {pool : PoolAnswers} {tm : TableManager} {t : TableId} {bytes : Bytes}
    (hs : tm.Sound) (h : tm.Takes pool t bytes) : bytes ≠ [] ∧ bytes.length ≤ 4080 := by
  rcases h with ⟨pid, -, -, -, hins⟩ | ⟨-, hsize⟩
  · obtain ⟨q, hq⟩ := Option.ne_none_iff_exists'.mp hins
    obtain ⟨-, hne, -, -, -, hle, -⟩ := Page.insert_spec (hs.pageOk pid) hq
    exact ⟨hne, hle⟩
  · exact hsize

variable {pool : PoolAnswers} {tm : TableManager} {t : TableId} {bytes : Bytes}

/-- The record is placed where no tuple was before, or the heap does not change. -/
theorem WF.insertTupleFrom (h : tm.WF) :
    let out := tm.insertTupleFrom pool t bytes
    (tm.Takes pool t bytes ∧ ¬tm.Allocated out.2 ∧ out.2.valid ∧
        out.1.heap = setRow tm.heap t out.2 (some bytes)) ∨
      ¬tm.Takes pool t bytes ∧ out.2 = {} ∧ out.1.heap = tm.heap := by
  have hsame := samePages_registerTable tm t
  have hfree : (tm.registerTable t).pageFree = tm.pageFree := by
    unfold registerTable
    split <;> rfl
  have hnodup : ((tm.pageList t).reverse.filter pool.fetch).Nodup :=
    (List.nodup_reverse.mpr (h.nodup t)).filter _
  have hlisted : ∀ pid ∈ (tm.pageList t).reverse.filter pool.fetch,
      pid ∈ (tm.registerTable t).pageList t := by
    intro pid hpid
    rw [hsame.pageList]
    exact List.mem_reverse.mp (List.mem_of_mem_filter hpid)
  have hnone := tryPages_eq_none_iff bytes hnodup (tm.registerTable t)
  have hspec := fun {tm' r} => @tryPages_spec bytes t _ (tm.registerTable t) tm' r
    (hsame.sound h.toSound) hlisted
  have hstored : ∀ {tm' : TableManager} {rid : RecordID}, tm'.Sound → Relisted tm t tm' →
      Stored tm t bytes tm' rid → tm.Takes pool t bytes →
      ¬tm.Allocated rid ∧ rid.valid ∧ tm'.heap = setRow tm.heap t rid (some bytes) := by
    intro tm' rid hs hlist hst htakes
    obtain ⟨-, hins⟩ := h.inserted hs hlist hst
    cases hins with
    | refused hsize _ =>
      obtain ⟨hne, hle⟩ := htakes.storable h.toSound
      exact absurd hsize (not_or.mpr ⟨hne, by omega⟩)
    | placed hfresh halloc _ _ hheap => exact ⟨hfresh, halloc.valid, hheap⟩
  simp only [TableManager.insertTupleFrom, tryFetched_eq, hsame.pageList]
  cases htry : tryPages bytes ((tm.pageList t).reverse.filter pool.fetch) (tm.registerTable t) with
  | mk tm₁ r =>
    rw [htry, hfree, hsame.page] at hnone
    cases r with
    | some rid =>
      obtain ⟨hs, hgrow, hlist, hst⟩ := hspec htry
      have htakes : tm.Takes pool t bytes := by
        have hfound := mt hnone.mpr (Option.some_ne_none rid)
        push Not at hfound
        obtain ⟨pid, hpid, hhint, hins⟩ := hfound
        obtain ⟨hmem, hfetch⟩ := List.mem_filter.mp hpid
        exact .inl ⟨pid, List.mem_reverse.mp hmem, hfetch, hhint, hins⟩
      exact .inl ⟨htakes, hstored hs (hlist.of_same hsame) (hst.of_same hsame) htakes⟩
    | none =>
      have hsame₁ := hsame.trans (hspec htry)
      have hpages : ¬∃ pid ∈ tm.pageList t, pool.fetch pid ∧
          (∀ hint ∈ tm.pageFree pid, (bytes.length + 4 : Int) ≤ hint) ∧
            (tm.page pid).insert bytes ≠ none := by
        rintro ⟨pid, hpid, hfetch, hhint, hins⟩
        exact hins (hnone.mp rfl pid (List.mem_filter.mpr ⟨List.mem_reverse.mpr hpid, hfetch⟩) hhint)
      have htakes : tm.Takes pool t bytes ↔ pool.newPage ∧ bytes ≠ [] ∧ bytes.length ≤ 4080 :=
        or_iff_right hpages
      dsimp only
      cases hnew : pool.newPage with
      | false =>
        rw [if_neg (by decide)]
        refine .inr ⟨fun ht => ?_, rfl, hsame₁.heap⟩
        rw [htakes, hnew] at ht
        cases ht.1
      | true =>
        rw [if_pos rfl]
        obtain ⟨hs, hgrow, hlist, hst⟩ := (hsame₁.sound h.toSound).insertNewPage
          (Prod.mk.eta (p := tm₁.insertNewPage t bytes)).symm
        have hst := hst.of_same hsame₁
        have hlist := hlist.of_same hsame₁
        by_cases ht : tm.Takes pool t bytes
        · exact .inl ⟨ht, hstored hs hlist hst ht⟩
        · obtain ⟨-, hins⟩ := h.inserted hs hlist hst
          refine .inr ⟨ht, ?_⟩
          rw [htakes, hnew] at ht
          generalize (tm₁.insertNewPage t bytes).2 = rid at hins ⊢
          cases hins with
          | refused _ hheap => exact ⟨rfl, hheap⟩
          | placed _ _ hne hle _ => exact absurd ⟨rfl, hne, hle⟩ ht

/-! ## Losing a row -/

variable {rid : RecordID} {old : Bytes}

/-- What takes the record once the old one is erased. -/
theorem WF.takes_eraseTuple_iff (h : tm.WF) (hlive : tm.getTuple rid = some old)
    (hbytes : bytes ≠ []) :
    (tm.eraseTuple rid).1.Takes pool t bytes ↔
      tm.HasRoom pool t rid old bytes ∨ pool.newPage ∧ bytes.length ≤ 4080 := by
  obtain ⟨-, -, hlist, -, -⟩ := h.toSound.eraseTuple rid
  obtain ⟨page, hpage⟩ : ∃ page, (tm.page rid.pageId).erase rid.slotId = some page := by
    rw [← Option.ne_none_iff_exists', Ne, Page.erase_eq_none_iff, ← getTuple, hlive]
    exact Option.some_ne_none old
  have herase : (tm.eraseTuple rid).1 =
      (tm.setPage rid.pageId page).setFree rid.pageId page.freeBytes := by
    simp only [TableManager.eraseTuple, hpage]
  have husable := Page.usableSpace_erase hpage hlive
  have hwf := (Page.erase_spec (h.pageOk _) hpage).2.1
  refine or_congr ?_ (and_congr_right fun _ => and_iff_right hbytes)
  rw [hlist, herase]
  refine exists_congr fun pid => and_congr_right fun _ => and_congr_right fun _ => ?_
  by_cases hpid : pid = rid.pageId
  · subst hpid
    have hfree : ((tm.setPage rid.pageId page).setFree rid.pageId page.freeBytes).pageFree
        rid.pageId = some page.freeBytes := Function.update_self _ _ _
    rw [if_pos rfl, hfree, page_setFree, page_setPage, if_pos rfl, Ne,
      Page.Ok.insert_eq_none_iff (.inl hwf) hbytes, ← husable, Page.freeBytes]
    simp
  · have hfree : ((tm.setPage rid.pageId page).setFree rid.pageId page.freeBytes).pageFree pid =
        tm.pageFree pid := Function.update_of_ne hpid _ _
    rw [if_neg hpid, hfree, page_setFree, page_setPage, if_neg hpid, Ne,
      Page.Ok.insert_eq_none_iff (h.pageOk pid) hbytes, not_lt]
    exact and_comm

theorem update_eq_none_iff (hlive : tm.getTuple rid = some old) :
    (tm.page rid.pageId).update rid.slotId bytes = none ↔
      bytes = [] ∨ old.length < bytes.length := by
  have hrec : bytes.length = 0 ↔ bytes = [] := List.length_eq_zero_iff
  obtain ⟨s, hs, -⟩ := Page.slot_of_get hlive
  rw [getTuple, hs] at hlive
  have hisLive : (tm.page rid.pageId).isLive s := by rw [Page.isLive_iff, hlive]; rfl
  rw [hs, Page.update, if_pos hisLive]
  simp [← Page.length_of_get hlive, hrec, or_iff_not_imp_left]

/-- `updateTuple` keeps the row exactly if its page is not fetched to begin with, or the record
has room: over the old one, on a page of the table, or on a new one. -/
theorem keepsRow_iff (pool : PoolAnswers) (h : tm.WF) (hlive : tm.heap t rid = some old)
    (bytes : Bytes) :
    tm.KeepsRow t rid bytes (tm.updateTupleFrom pool t rid bytes) ↔
      tm.UpdateFits pool t rid old bytes := by
  have hget := (heap_eq_some_iff.mp hlive).2
  have hmem := (heap_eq_some_iff.mp hlive).1
  rw [UpdateFits, TableManager.updateTupleFrom]
  cases hfetch : pool.fetchRecord with
  | false => exact iff_of_true rfl (.inl rfl)
  | true =>
    rw [if_neg (by decide), or_iff_right (by decide)]
    have hnone : (tm.page rid.pageId).update rid.slotId bytes = none ↔
        bytes = [] ∨ old.length < bytes.length := update_eq_none_iff hget
    cases hup : (tm.page rid.pageId).update rid.slotId bytes with
    | some page =>
      rw [hup, eq_false (Option.some_ne_none page), false_iff, not_or, not_lt] at hnone
      obtain ⟨-, -, -, hget'⟩ := h.toSound.overwrite hup
      have hvalid : rid.valid := (h.allocated_of_heap hlive).valid
      refine iff_of_true ?_ ⟨hnone.1, .inl hnone.2⟩
      rw [KeepsRow, if_pos hvalid]
      refine ⟨(h.heap_of_getTuple hget' rfl hmem).trans ?_, .inl rfl⟩
      funext u r
      simp only [setRow_apply]
      split <;> rfl
    | none =>
      have hlong := hnone.mp hup
      obtain ⟨hwf₁, hgrow₁, -, hheap₁⟩ := h.eraseTuple_live hlive
      dsimp only
      rcases @WF.insertTupleFrom pool _ t bytes hwf₁ with
        ⟨htakes, hfresh, hvalid, hheap⟩ | ⟨htakes, hrid, hheap⟩
      · have hne := (htakes.storable hwf₁.toSound).1
        rw [h.takes_eraseTuple_iff hget hne] at htakes
        refine iff_of_true ?_ ⟨hne, .inr htakes⟩
        rw [KeepsRow, if_pos hvalid, hheap, hheap₁]
        refine ⟨rfl, .inr fun u => ?_⟩
        cases hu : tm.heap u ((tm.eraseTuple rid).1.insertTupleFrom pool t bytes).2 with
        | none => rfl
        | some b => exact absurd (hgrow₁.allocated _ (h.allocated_of_heap hu)) hfresh
      · refine iff_of_false ?_ ?_
        · rw [KeepsRow, hrid, if_neg (by decide), hheap, hheap₁]
          intro hsame
          have hrow := congrFun (congrFun hsame t) rid
          rw [setRow_self, hlive] at hrow
          cases hrow
        · rintro ⟨hne, hle | hroom⟩
          · rcases hlong with hnil | hlt
            · exact hne hnil
            · omega
          · exact htakes ((h.takes_eraseTuple_iff hget hne).mpr hroom)

/-- A heap with one row. -/
def oneRow : TableManager := (empty.insertTuple 1 [7, 7]).1

theorem wf_oneRow : oneRow.WF :=
  (wf_empty.insertTuple (Prod.mk.eta (p := empty.insertTuple 1 [7, 7])).symm).1

theorem keepsRow_shorter : oneRow.KeepsRow 1 ⟨0, 0⟩ [8] (oneRow.updateTupleFrom {} 1 ⟨0, 0⟩ [8]) :=
  (keepsRow_iff {} wf_oneRow (by decide +kernel : oneRow.heap 1 ⟨0, 0⟩ = some [7, 7]) [8]).mpr
    (.inr ⟨by decide, .inl (by decide)⟩)

theorem not_keepsRow_of_gone {out : TableManager × RecordID} (hlive : tm.heap t rid = some old)
    (hinvalid : out.2.valid = false) (hgone : out.1.heap t rid = none) :
    ¬tm.KeepsRow t rid bytes out := by
  rw [KeepsRow, hinvalid, if_neg (by decide)]
  intro h
  rw [h, hlive] at hgone
  cases hgone

/-- A record that fits on no page. -/
def longRecord : Bytes := List.replicate 4081 8

/-- The row is gone. -/
theorem not_keepsRow_long : oneRow.WF ∧ oneRow.heap 1 ⟨0, 0⟩ = some [7, 7] ∧
    ¬oneRow.KeepsRow 1 ⟨0, 0⟩ longRecord (oneRow.updateTuple 1 ⟨0, 0⟩ longRecord) :=
  ⟨wf_oneRow, by decide +kernel,
    not_keepsRow_of_gone (by decide +kernel : oneRow.heap 1 ⟨0, 0⟩ = some [7, 7])
      (by decide +kernel) (by decide +kernel)⟩

end TableManager

end Relite.Vm
