import Relite.Vm.TableManager
import Relite.Backend.PageRedo

/-!
# Table heaps as maps

`getTuple` is a partial map from record ids to bytes, and `TableManager.heap` is its part
on the pages of each table. Each operation updates them at one record id. Slots are never
given back, so an inserted tuple gets a record id that no tuple had before
(`Allocated`).
-/
namespace Relite.Backend.PageStore

@[simp] theorem setPage_numPages (s : PageStore) (pid : Int) (p : Page) :
    (s.setPage pid p).numPages = s.numPages := rfl

end Relite.Backend.PageStore

namespace Relite.Vm
open Lib Backend

namespace TableManager

/-! ## Fields after an update -/

@[simp] theorem page_setPage (tm : TableManager) (pid pid' : Int) (p : Page) :
    (tm.setPage pid p).page pid' = if pid' = pid then p else tm.page pid' := by
  simp only [page, setPage, PageStore.setPage, Function.update_apply]

@[simp] theorem page_setFree (tm : TableManager) (pid : Int) (f : Int) :
    (tm.setFree pid f).page = tm.page := rfl
@[simp] theorem page_setPages (tm : TableManager) (t : TableId) (l : List Int) :
    (tm.setPages t l).page = tm.page := rfl
@[simp] theorem numPages_setPage (tm : TableManager) (pid : Int) (p : Page) :
    (tm.setPage pid p).pool.numPages = tm.pool.numPages := rfl
@[simp] theorem numPages_setFree (tm : TableManager) (pid : Int) (f : Int) :
    (tm.setFree pid f).pool.numPages = tm.pool.numPages := rfl
@[simp] theorem numPages_setPages (tm : TableManager) (t : TableId) (l : List Int) :
    (tm.setPages t l).pool.numPages = tm.pool.numPages := rfl
@[simp] theorem pageList_setPage (tm : TableManager) (pid : Int) (p : Page) :
    (tm.setPage pid p).pageList = tm.pageList := rfl
@[simp] theorem pageList_setFree (tm : TableManager) (pid : Int) (f : Int) :
    (tm.setFree pid f).pageList = tm.pageList := rfl
@[simp] theorem pages_setPage (tm : TableManager) (pid : Int) (p : Page) :
    (tm.setPage pid p).pages = tm.pages := rfl
@[simp] theorem pages_setFree (tm : TableManager) (pid : Int) (f : Int) :
    (tm.setFree pid f).pages = tm.pages := rfl

@[simp] theorem pageList_setPages (tm : TableManager) (t t' : TableId) (l : List Int) :
    (tm.setPages t l).pageList t' = if t' = t then l else tm.pageList t' := by
  simp only [pageList, setPages, Function.update_apply]
  split <;> rfl

@[simp] theorem pageList_registerTable (tm : TableManager) (t : TableId) :
    (tm.registerTable t).pageList = tm.pageList := by
  funext t'
  unfold registerTable
  split
  · rfl
  · rename_i h
    rw [pageList_setPages]
    split
    · rename_i ht
      simp_all [pageList]
    · rfl

@[simp] theorem page_registerTable (tm : TableManager) (t : TableId) :
    (tm.registerTable t).page = tm.page := by
  unfold registerTable; split <;> rfl

@[simp] theorem numPages_registerTable (tm : TableManager) (t : TableId) :
    (tm.registerTable t).pool.numPages = tm.pool.numPages := by
  unfold registerTable; split <;> rfl

/-! ## The invariant and the abstraction -/

/-- Every page reads as a slotted page, listed pages are allocated and the others empty. -/
structure Sound (tm : TableManager) : Prop where
  pageOk : ∀ pid, (tm.page pid).Ok
  bound : ∀ t, ∀ pid ∈ tm.pageList t, 0 ≤ pid ∧ pid < tm.pool.numPages
  empty : ∀ pid : Int, pid < 0 ∨ tm.pool.numPages ≤ pid → (tm.page pid).slotCount = 0

/-- Moreover no page is listed twice. -/
structure WF (tm : TableManager) : Prop extends Sound tm where
  nodup : ∀ t, (tm.pageList t).Nodup
  disjoint : ∀ t t', t ≠ t' → ∀ pid ∈ tm.pageList t, pid ∉ tm.pageList t'

/-- The tuple a table holds at a record id. -/
def heap (tm : TableManager) (t : TableId) (rid : RecordID) : Option Bytes :=
  if rid.pageId ∈ tm.pageList t then tm.getTuple rid else none

/-- The record ids that have been handed out so far, for live and for dead tuples. -/
def Allocated (tm : TableManager) (rid : RecordID) : Prop :=
  0 ≤ rid.slotId ∧ rid.slotId < (tm.page rid.pageId).slotCount ∧ 0 ≤ rid.pageId ∧
    rid.pageId < tm.pool.numPages

theorem Allocated.valid {tm : TableManager} {rid : RecordID} (h : tm.Allocated rid) :
    rid.valid = true := by
  simp [RecordID.valid, h.1, h.2.2.1]

theorem getTuple_eq_none_of_invalid {tm : TableManager} {rid : RecordID} (h : rid.slotId < 0) :
    tm.getTuple rid = none := Page.get_of_neg _ h

theorem slot_of_getTuple {tm : TableManager} {rid : RecordID} {b : Bytes}
    (h : tm.getTuple rid = some b) :
    0 ≤ rid.slotId ∧ rid.slotId < (tm.page rid.pageId).slotCount := by
  obtain ⟨s, hs, hlt⟩ := Page.slot_of_get h
  omega

theorem Sound.allocated_of_getTuple {tm : TableManager} (h : tm.Sound) {rid : RecordID}
    {b : Bytes} (hb : tm.getTuple rid = some b) : tm.Allocated rid := by
  obtain ⟨h₁, h₂⟩ := slot_of_getTuple hb
  have hempty := h.empty rid.pageId
  refine ⟨h₁, h₂, ?_, ?_⟩ <;> grind

theorem heap_eq_some_iff {tm : TableManager} {t : TableId} {rid : RecordID} {b : Bytes} :
    tm.heap t rid = some b ↔ rid.pageId ∈ tm.pageList t ∧ tm.getTuple rid = some b := by
  simp [heap]

theorem WF.allocated_of_heap {tm : TableManager} (h : tm.WF) {t : TableId} {rid : RecordID}
    {b : Bytes} (hb : tm.heap t rid = some b) : tm.Allocated rid :=
  h.allocated_of_getTuple (heap_eq_some_iff.mp hb).2

theorem WF.owner_unique {tm : TableManager} (h : tm.WF) {t t' : TableId} {rid : RecordID}
    {b b' : Bytes} (hb : tm.heap t rid = some b) (hb' : tm.heap t' rid = some b') : t = t' := by
  by_contra hne
  rw [heap_eq_some_iff] at hb hb'
  exact h.disjoint t t' hne _ hb.1 hb'.1

theorem ne_nil_of_getTuple {tm : TableManager} {rid : RecordID} {b : Bytes}
    (hb : tm.getTuple rid = some b) : b ≠ [] := by
  obtain ⟨s, hs, -⟩ := Page.slot_of_get hb
  rw [getTuple, hs] at hb
  exact Page.ne_nil_of_get hb

theorem ne_nil_of_heap {tm : TableManager} {t : TableId} {rid : RecordID} {b : Bytes}
    (hb : tm.heap t rid = some b) : b ≠ [] :=
  ne_nil_of_getTuple (heap_eq_some_iff.mp hb).2

/-! ## The iterator -/

theorem mem_pageTuples {pid : Int} {p : Page} {rid : RecordID} {b : Bytes} :
    (rid, b) ∈ pageTuples pid p ↔ rid.pageId = pid ∧ p.get rid.slotId = some b := by
  obtain ⟨pg, sl⟩ := rid
  simp only [pageTuples, List.mem_filterMap, List.mem_range, Option.map_eq_some_iff]
  constructor
  · rintro ⟨s, -, b', hb, he⟩
    cases he
    exact ⟨rfl, hb⟩
  · rintro ⟨rfl, hb⟩
    obtain ⟨s, hs, hlt⟩ := Page.slot_of_get hb
    subst hs
    exact ⟨s, hlt, b, hb, rfl⟩

theorem mem_tuples {tm : TableManager} {t : TableId} {rid : RecordID} {b : Bytes} :
    (rid, b) ∈ tm.tuples t ↔ tm.heap t rid = some b := by
  simp only [tuples, List.mem_flatMap, mem_pageTuples, heap_eq_some_iff, getTuple]
  constructor
  · rintro ⟨pid, hmem, rfl, hb⟩
    exact ⟨hmem, hb⟩
  · rintro ⟨hmem, hb⟩
    exact ⟨_, hmem, rfl, hb⟩

theorem nodup_pageTuples (pid : Int) (p : Page) : ((pageTuples pid p).map Prod.fst).Nodup := by
  rw [pageTuples, List.map_filterMap]
  refine List.nodup_range.filterMap ?_
  intro a b rid ha hb
  simp only [Option.map_map, Option.mem_def, Option.map_eq_some_iff, Function.comp] at ha hb
  obtain ⟨_, -, rfl⟩ := ha
  obtain ⟨_, -, hb⟩ := hb
  simpa using (congrArg RecordID.slotId hb).symm

theorem nodup_tuples {tm : TableManager} {t : TableId} (h : (tm.pageList t).Nodup) :
    ((tm.tuples t).map Prod.fst).Nodup := by
  rw [tuples, List.map_flatMap]
  refine List.nodup_flatMap.mpr ⟨fun pid _ => nodup_pageTuples pid _, ?_⟩
  refine h.imp ?_
  intro pid pid' hne rid hr hr'
  obtain ⟨⟨_, b⟩, hm, rfl⟩ := List.mem_map.mp hr
  obtain ⟨⟨_, b'⟩, hm', he⟩ := List.mem_map.mp hr'
  have h₁ := (mem_pageTuples.mp hm).1
  have h₂ := (mem_pageTuples.mp hm').1
  exact hne (h₁.symm.trans ((congrArg RecordID.pageId he.symm).trans h₂))

theorem WF.nodup_tuples {tm : TableManager} (h : tm.WF) (t : TableId) :
    ((tm.tuples t).map Prod.fst).Nodup := TableManager.nodup_tuples (h.nodup t)

/-- The iterator of two heaps that hold the same tuples yields them in some order. -/
theorem tuples_perm {tm tm' : TableManager} {t : TableId} (h : (tm.pageList t).Nodup)
    (h' : (tm'.pageList t).Nodup) (he : tm.heap t = tm'.heap t) :
    (tm.tuples t).Perm (tm'.tuples t) := by
  refine (List.perm_ext_iff_of_nodup (nodup_tuples h).of_map (nodup_tuples h').of_map).mpr ?_
  rintro ⟨rid, b⟩
  rw [mem_tuples, mem_tuples, he]

theorem WF.tuples_perm {tm tm' : TableManager} (h : tm.WF) (h' : tm'.WF) {t : TableId}
    (he : tm.heap t = tm'.heap t) : (tm.tuples t).Perm (tm'.tuples t) :=
  TableManager.tuples_perm (h.nodup t) (h'.nodup t) he

/-! ## Writing one tuple -/

/-- A heap with one record id of one table changed. -/
def setRow (heap : TableId → RecordID → Option Bytes) (t : TableId) (rid : RecordID)
    (v : Option Bytes) : TableId → RecordID → Option Bytes :=
  Function.update heap t (Function.update (heap t) rid v)

@[simp] theorem setRow_self (heap : TableId → RecordID → Option Bytes) (t : TableId)
    (rid : RecordID) (v : Option Bytes) : setRow heap t rid v t rid = v := by
  simp [setRow]

theorem setRow_apply (heap : TableId → RecordID → Option Bytes) (t t' : TableId)
    (rid rid' : RecordID) (v : Option Bytes) :
    setRow heap t rid v t' rid' = if t' = t ∧ rid' = rid then v else heap t' rid' := by
  unfold setRow
  by_cases ht : t' = t
  · subst ht
    by_cases hr : rid' = rid <;> simp [hr]
  · simp [ht]

theorem setRow_eq_self (heap : TableId → RecordID → Option Bytes) (t : TableId)
    (rid : RecordID) : setRow heap t rid (heap t rid) = heap := by
  simp [setRow]

/-- No record id that was handed out is taken back, and no page LSN is raised. -/
structure Grows (tm tm' : TableManager) : Prop where
  allocated : ∀ rid, tm.Allocated rid → tm'.Allocated rid
  pageLSN : ∀ pid, (tm'.page pid).pageLSN ≤ (tm.page pid).pageLSN
  numPages : tm.pool.numPages ≤ tm'.pool.numPages

theorem Grows.refl (tm : TableManager) : Grows tm tm :=
  ⟨fun _ h => h, fun _ => le_refl _, le_refl _⟩

theorem Grows.trans {a b c : TableManager} (h : Grows a b) (h' : Grows b c) : Grows a c where
  allocated rid hr := h'.allocated rid (h.allocated rid hr)
  pageLSN pid := (h'.pageLSN pid).trans (h.pageLSN pid)
  numPages := h.numPages.trans h'.numPages

theorem Sound.setPage {tm : TableManager} (h : tm.Sound) (pid : Int) {p : Page} (hp : p.Ok)
    (hcount : 0 ≤ pid ∧ pid < tm.pool.numPages ∨ p.slotCount = (tm.page pid).slotCount) :
    (tm.setPage pid p).Sound where
  pageOk pid' := by
    rw [page_setPage]
    split
    · exact hp
    · exact h.pageOk pid'
  bound := h.bound
  empty pid' hle := by
    rw [numPages_setPage] at hle
    rw [page_setPage]
    split
    · rename_i he
      rw [← he] at hcount
      rcases hcount with hlt | hcount
      · omega
      · rw [hcount]
        exact h.empty pid' hle
    · exact h.empty pid' hle

theorem WF.setPage {tm : TableManager} (h : tm.WF) (pid : Int) {p : Page} (hp : p.Ok)
    (hcount : 0 ≤ pid ∧ pid < tm.pool.numPages ∨ p.slotCount = (tm.page pid).slotCount) :
    (tm.setPage pid p).WF where
  toSound := h.toSound.setPage pid hp hcount
  nodup := h.nodup
  disjoint := h.disjoint

theorem Sound.setFree {tm : TableManager} (h : tm.Sound) (pid : Int) (f : Int) :
    (tm.setFree pid f).Sound := ⟨h.pageOk, h.bound, h.empty⟩

theorem WF.setFree {tm : TableManager} (h : tm.WF) (pid : Int) (f : Int) :
    (tm.setFree pid f).WF := ⟨h.toSound.setFree pid f, h.nodup, h.disjoint⟩

@[simp] theorem heap_setFree (tm : TableManager) (pid : Int) (f : Int) :
    (tm.setFree pid f).heap = tm.heap := rfl

@[simp] theorem getTuple_setFree (tm : TableManager) (pid : Int) (f : Int) :
    (tm.setFree pid f).getTuple = tm.getTuple := rfl

theorem grows_setPage {tm : TableManager} {pid : Int} {p : Page}
    (h : (tm.page pid).slotCount ≤ p.slotCount) (hlsn : p.pageLSN = (tm.page pid).pageLSN) :
    Grows tm (tm.setPage pid p) where
  allocated rid := by
    rintro ⟨h₁, h₂, h₃, h₄⟩
    refine ⟨h₁, ?_, h₃, h₄⟩
    rw [page_setPage]
    split
    · rename_i hp; rw [hp] at h₂; omega
    · exact h₂
  pageLSN pid' := by
    rw [page_setPage]
    split
    · rename_i hp; rw [hp]; omega
    · exact le_refl _
  numPages := le_refl _

theorem Grows.setFree {tm tm' : TableManager} (h : Grows tm tm') (pid f : Int) :
    Grows tm (tm'.setFree pid f) := ⟨h.allocated, h.pageLSN, h.numPages⟩

theorem getTuple_setPage {tm : TableManager} (rid : RecordID) {p : Page} {v : Option Bytes}
    (hslot : 0 ≤ rid.slotId)
    (hget : ∀ s : Nat, p.get s = if (s : Int) = rid.slotId then v
      else (tm.page rid.pageId).get s) :
    (tm.setPage rid.pageId p).getTuple = Function.update tm.getTuple rid v := by
  funext ⟨pg, sl⟩
  obtain ⟨pid, slot⟩ := rid
  simp only [getTuple, page_setPage, Function.update_apply, RecordID.mk.injEq] at hslot hget ⊢
  by_cases hpg : pg = pid
  · subst hpg
    rcases Int.lt_or_le sl 0 with hneg | hpos
    · rw [if_pos rfl, Page.get_of_neg _ hneg, Page.get_of_neg _ hneg, if_neg (by omega)]
    · obtain ⟨s, rfl⟩ := Int.eq_ofNat_of_zero_le hpos
      simpa using hget s
  · simp [hpg]

/-- A change at one record id of a listed page is a change of the table's heap there. -/
theorem WF.heap_of_getTuple {tm tm' : TableManager} (h : tm.WF) {t : TableId} {rid : RecordID}
    {v : Option Bytes} (hget : tm'.getTuple = Function.update tm.getTuple rid v)
    (hlist : tm'.pageList = tm.pageList) (hmem : rid.pageId ∈ tm.pageList t) :
    tm'.heap = setRow tm.heap t rid v := by
  funext t' r
  simp only [setRow_apply, heap, hget, hlist, Function.update_apply]
  by_cases hr : r = rid
  · subst hr
    by_cases ht : t' = t
    · simp [ht, hmem]
    · simp [ht, h.disjoint t t' (Ne.symm ht) _ hmem]
  · simp [hr]

/-! ## Insert -/

/-- The heap and the invariant read neither the hints nor which tables exist. -/
structure SamePages (tm tm' : TableManager) : Prop where
  pool : tm'.pool = tm.pool
  pageList : tm'.pageList = tm.pageList

theorem SamePages.page {tm tm' : TableManager} (h : SamePages tm tm') : tm'.page = tm.page := by
  funext pid
  rw [TableManager.page, TableManager.page, h.pool]

theorem SamePages.getTuple {tm tm' : TableManager} (h : SamePages tm tm') :
    tm'.getTuple = tm.getTuple := by
  funext rid
  simp only [TableManager.getTuple, h.page]

theorem SamePages.heap {tm tm' : TableManager} (h : SamePages tm tm') : tm'.heap = tm.heap := by
  funext t rid
  simp only [TableManager.heap, h.getTuple, h.pageList]

theorem SamePages.sound {tm tm' : TableManager} (h : SamePages tm tm') (hw : tm.Sound) :
    tm'.Sound where
  pageOk := by rw [h.page]; exact hw.pageOk
  bound := by rw [h.pageList, h.pool]; exact hw.bound
  empty := by rw [h.page, h.pool]; exact hw.empty

theorem SamePages.wf {tm tm' : TableManager} (h : SamePages tm tm') (hw : tm.WF) : tm'.WF where
  toSound := h.sound hw.toSound
  nodup := by rw [h.pageList]; exact hw.nodup
  disjoint := by rw [h.pageList]; exact hw.disjoint

theorem SamePages.allocated {tm tm' : TableManager} (h : SamePages tm tm') (rid : RecordID) :
    tm'.Allocated rid ↔ tm.Allocated rid := by
  simp only [Allocated, h.page, h.pool]

theorem SamePages.setFree (tm : TableManager) (pid : Int) (f : Int) :
    SamePages tm (tm.setFree pid f) := ⟨rfl, rfl⟩

theorem SamePages.trans {a b c : TableManager} (h : SamePages a b) (h' : SamePages b c) :
    SamePages a c := ⟨h'.pool.trans h.pool, h'.pageList.trans h.pageList⟩

theorem Grows.of_same {tm tm₀ tm' : TableManager} (hs : SamePages tm tm₀) (h : Grows tm₀ tm') :
    Grows tm tm' where
  allocated rid hr := h.allocated rid ((hs.allocated rid).mpr hr)
  pageLSN pid := by rw [← hs.page]; exact h.pageLSN pid
  numPages := by rw [← hs.pool]; exact h.numPages

theorem samePages_registerTable (tm : TableManager) (t : TableId) :
    SamePages tm (tm.registerTable t) where
  pool := by unfold registerTable; split <;> rfl
  pageList := pageList_registerTable tm t

/-- The table gets at most one page more, which is new. -/
def Relisted (tm : TableManager) (t : TableId) (tm' : TableManager) : Prop :=
  (tm'.pool.numPages = tm.pool.numPages ∧ tm'.pageList = tm.pageList) ∨
    (tm'.pool.numPages = tm.pool.numPages + 1 ∧ tm'.pageList =
      Function.update tm.pageList t (tm.pageList t ++ [(tm.pool.numPages : Int)]))

/-- What an insert does to the record ids, by the record id it returns. -/
inductive Stored (tm : TableManager) (t : TableId) (bytes : Bytes) (tm' : TableManager) :
    RecordID → Prop
  | refused (hsize : bytes = [] ∨ 4080 < bytes.length) (hget : tm'.getTuple = tm.getTuple) :
      Stored tm t bytes tm' {}
  | placed {rid : RecordID} (hfresh : ¬tm.Allocated rid) (halloc : tm'.Allocated rid)
      (hne : bytes ≠ []) (hle : bytes.length ≤ 4080) (hmem : rid.pageId ∈ tm'.pageList t)
      (hget : tm'.getTuple = Function.update tm.getTuple rid (some bytes)) :
      Stored tm t bytes tm' rid

theorem Stored.of_same {tm tm₀ tm' : TableManager} {t : TableId} {bytes : Bytes}
    {rid : RecordID} (hs : SamePages tm tm₀) (h : Stored tm₀ t bytes tm' rid) :
    Stored tm t bytes tm' rid := by
  cases h with
  | refused hsize hget => exact .refused hsize (hget.trans hs.getTuple)
  | placed hfresh halloc hne hle hmem hget =>
    refine .placed (fun ha => hfresh ((hs.allocated rid).mpr ha)) halloc hne hle hmem ?_
    rw [hget, hs.getTuple]

theorem Relisted.of_same {tm tm₀ tm' : TableManager} {t : TableId} (hs : SamePages tm tm₀)
    (h : Relisted tm₀ t tm') : Relisted tm t tm' := by
  rwa [Relisted, hs.pool, hs.pageList] at h

/-- A successful insert on a listed page. -/
theorem Sound.insertAt {tm : TableManager} (h : tm.Sound) {t : TableId} {pid : Int}
    {bytes : Bytes} {p : Page} {slot : Nat} (hmem : pid ∈ tm.pageList t)
    (hins : (tm.page pid).insert bytes = some (p, slot)) (f : Int) :
    ((tm.setPage pid p).setFree pid f).Sound ∧ Grows tm ((tm.setPage pid p).setFree pid f) ∧
      Stored tm t bytes ((tm.setPage pid p).setFree pid f) ⟨pid, slot⟩ := by
  obtain ⟨rfl, hne, hwf, hcount, hlsn, hle, hget⟩ := Page.insert_spec (h.pageOk pid) hins
  obtain ⟨h₁, h₂⟩ := h.bound t pid hmem
  refine ⟨(h.setPage pid (.inl hwf) (.inl ⟨h₁, h₂⟩)).setFree pid f, (grows_setPage (by omega) hlsn).setFree pid f,
    .placed ?_ ?_ hne hle hmem ?_⟩
  · rintro ⟨-, hlt, -, -⟩
    simp only at hlt
    omega
  · refine ⟨by simp only; omega, ?_, h₁, h₂⟩
    simp only [page_setFree, page_setPage, if_true]
    omega
  · rw [getTuple_setFree]
    exact getTuple_setPage ⟨pid, _⟩ (Int.natCast_nonneg _) fun s => by simpa using hget s

theorem tryPages_spec (bytes : Bytes) {t : TableId} (l : List Int) :
    ∀ {tm tm' : TableManager} {r : Option RecordID}, tm.Sound →
      (∀ pid ∈ l, pid ∈ tm.pageList t) → tryPages bytes l tm = (tm', r) →
      match r with
      | none => SamePages tm tm'
      | some rid => tm'.Sound ∧ Grows tm tm' ∧ Relisted tm t tm' ∧ Stored tm t bytes tm' rid := by
  induction l with
  | nil =>
    intro tm tm' r _ _ h
    cases h
    exact ⟨rfl, rfl⟩
  | cons pid l ih =>
    intro tm tm' r hs hl h
    have hl' : ∀ pid' ∈ l, pid' ∈ tm.pageList t := fun pid' hp => hl pid' (by simp [hp])
    simp only [tryPages] at h
    split at h
    · exact ih hs hl' h
    split at h
    · rename_i page slot hins
      cases h
      obtain ⟨hs', hgrow, hst⟩ := hs.insertAt (hl pid (by simp)) hins page.freeBytes
      exact ⟨hs', hgrow, .inl ⟨rfl, rfl⟩, hst⟩
    · have hsame := SamePages.setFree tm pid (tm.page pid).freeBytes
      have hrest := ih (hs.setFree pid _) hl' h
      cases r with
      | none => exact hsame.trans hrest
      | some rid =>
        obtain ⟨hs', hgrow, hlist, hst⟩ := hrest
        exact ⟨hs', hgrow.of_same hsame, hlist.of_same hsame, hst.of_same hsame⟩

/-- The table with an empty page more. -/
def withNewPage (tm : TableManager) (t : TableId) : TableManager :=
  { tm with pool := tm.pool.newPage.1 }.setPages t (tm.pageList t ++ [(tm.pool.numPages : Int)])

theorem page_withNewPage (tm : TableManager) (t : TableId) (pid : Int) :
    (tm.withNewPage t).page pid = if pid = tm.pool.numPages then Page.init else tm.page pid := by
  rw [withNewPage, page_setPages]
  simp only [page, PageStore.newPage, Function.update_apply]

theorem relisted_withNewPage (tm : TableManager) (t : TableId) :
    Relisted tm t (tm.withNewPage t) := by
  refine .inr ⟨rfl, ?_⟩
  funext t'
  rw [withNewPage, pageList_setPages, Function.update_apply]
  rfl

theorem Sound.withNewPage {tm : TableManager} (h : tm.Sound) (t : TableId) :
    (tm.withNewPage t).Sound ∧ Grows tm (tm.withNewPage t) ∧
      (tm.withNewPage t).getTuple = tm.getTuple := by
  have hpage := tm.page_withNewPage t
  have hnum : (tm.withNewPage t).pool.numPages = tm.pool.numPages + 1 := rfl
  have hlist : ∀ t', (tm.withNewPage t).pageList t' =
      if t' = t then tm.pageList t ++ [(tm.pool.numPages : Int)] else tm.pageList t' := by
    intro t'
    rw [TableManager.withNewPage, pageList_setPages]
    rfl
  refine ⟨⟨fun pid => ?_, fun t' pid hm => ?_, fun pid hle => ?_⟩, ?_, ?_⟩
  · rw [hpage]
    split
    · exact .inl Page.wf_init
    · exact h.pageOk pid
  · rw [hlist] at hm
    split at hm
    · rcases List.mem_append.mp hm with hm | hm
      · have := h.bound t pid hm; omega
      · have := List.mem_singleton.mp hm; omega
    · have := h.bound t' pid hm; omega
  · have hne : pid ≠ tm.pool.numPages := by omega
    rw [hpage, if_neg hne]
    exact h.empty pid (by omega)
  · refine ⟨fun rid ⟨h₁, h₂, h₃, h₄⟩ => ?_, fun pid => ?_, by omega⟩
    · have hne : rid.pageId ≠ tm.pool.numPages := by omega
      refine ⟨h₁, ?_, h₃, by omega⟩
      rw [hpage, if_neg hne]
      exact h₂
    · rw [hpage]
      split
      · rw [Page.pageLSN_init]; exact Nat.zero_le _
      · exact le_refl _
  · funext rid
    simp only [getTuple, hpage]
    split
    · rename_i hp
      rcases Int.lt_or_le rid.slotId 0 with hneg | hpos
      · rw [Page.get_of_neg _ hneg, Page.get_of_neg _ hneg]
      · obtain ⟨s, hs⟩ := Int.eq_ofNat_of_zero_le hpos
        rw [hs, Page.get_init, hp, Page.get_of_ge _ (by rw [h.empty _ (.inr (le_refl _))]; omega)]
    · rfl

theorem insertNewPage_eq (tm : TableManager) (t : TableId) (bytes : Bytes) :
    tm.insertNewPage t bytes =
      (((tm.withNewPage t).page tm.pool.numPages).insert bytes).elim (tm.withNewPage t, {})
        fun placed => (((tm.withNewPage t).setPage tm.pool.numPages placed.1).setFree
          tm.pool.numPages placed.1.freeBytes, ⟨tm.pool.numPages, placed.2⟩) := by
  simp only [TableManager.insertNewPage, withNewPage, PageStore.newPage]
  split <;> rename_i hins <;> rw [hins] <;> rfl

theorem Sound.insertNewPage {tm tm' : TableManager} {t : TableId} {bytes : Bytes}
    {rid : RecordID} (h : tm.Sound) (hi : tm.insertNewPage t bytes = (tm', rid)) :
    tm'.Sound ∧ Grows tm tm' ∧ Relisted tm t tm' ∧ Stored tm t bytes tm' rid := by
  obtain ⟨hs, hgrow, hget⟩ := h.withNewPage t
  have hlist := tm.relisted_withNewPage t
  have hmem : (tm.pool.numPages : Int) ∈ (tm.withNewPage t).pageList t := by
    simp [TableManager.withNewPage]
  have hpage : (tm.withNewPage t).page tm.pool.numPages = Page.init := by
    rw [page_withNewPage, if_pos rfl]
  rw [insertNewPage_eq] at hi
  rcases hins : ((tm.withNewPage t).page tm.pool.numPages).insert bytes with _ | ⟨page, slot⟩ <;>
    rw [hins] at hi
  swap
  · cases hi
    obtain ⟨hs', hgrow', hst⟩ := hs.insertAt hmem hins page.freeBytes
    refine ⟨hs', hgrow.trans hgrow', hlist, ?_⟩
    cases hst with
    | placed hfresh halloc hne hle hm hget' =>
      exact .placed (fun ha => hfresh (hgrow.allocated _ ha)) halloc hne hle hm (by rw [hget', hget])
  · cases hi
    refine ⟨hs, hgrow, hlist, .refused ?_ hget⟩
    by_contra hsize
    rw [not_or] at hsize
    obtain ⟨q, hq⟩ := Page.insert_init_isSome hsize.1 (by omega)
    rw [hpage, hq] at hins
    cases hins

/-- An insert stores one tuple under a record id never used before, unless the tuple is
empty or larger than what a page can hold. -/
theorem Sound.insertTuple {tm tm' : TableManager} {t : TableId} {bytes : Bytes} {rid : RecordID}
    (h : tm.Sound) (hi : tm.insertTuple t bytes = (tm', rid)) :
    tm'.Sound ∧ Grows tm tm' ∧ Relisted tm t tm' ∧ Stored tm t bytes tm' rid := by
  have hsame := samePages_registerTable tm t
  have hs := hsame.sound h
  simp only [TableManager.insertTuple] at hi
  have hl : ∀ pid ∈ ((tm.registerTable t).pageList t).reverse,
      pid ∈ (tm.registerTable t).pageList t := fun pid hp => by simpa using hp
  split at hi
  · rename_i tm₂ rid₂ htry
    cases hi
    obtain ⟨hs₂, hgrow, hlist, hst⟩ := tryPages_spec bytes _ hs hl htry
    exact ⟨hs₂, hgrow.of_same hsame, hlist.of_same hsame, hst.of_same hsame⟩
  · rename_i tm₂ htry
    have hsame₂ := hsame.trans (tryPages_spec bytes _ hs hl htry)
    obtain ⟨hs₂, hgrow, hlist, hst⟩ := (hsame₂.sound h).insertNewPage hi
    exact ⟨hs₂, hgrow.of_same hsame₂, hlist.of_same hsame₂, hst.of_same hsame₂⟩

theorem WF.relisted {tm tm' : TableManager} {t : TableId} (h : tm.WF) (hs : tm'.Sound)
    (hlist : Relisted tm t tm') : tm'.WF := by
  rcases hlist with ⟨-, hl⟩ | ⟨-, hl⟩
  · exact ⟨hs, hl ▸ h.nodup, hl ▸ h.disjoint⟩
  have hnew : ∀ u, (tm.pool.numPages : Int) ∉ tm.pageList u := by
    intro u hm
    have := h.bound u _ hm
    omega
  refine ⟨hs, fun t' => ?_, fun t' u htu pid hm => ?_⟩
  · rw [hl, Function.update_apply]
    split
    · refine (h.nodup t).append (List.nodup_singleton _) ?_
      intro pid hm hm'
      rw [List.mem_singleton] at hm'
      exact hnew t (hm' ▸ hm)
    · exact h.nodup t'
  · rw [hl, Function.update_apply] at hm ⊢
    have hold := h.disjoint t' u htu pid
    grind

/-- What an insert does to the tables. -/
inductive Inserted (tm : TableManager) (t : TableId) (bytes : Bytes) (tm' : TableManager) :
    RecordID → Prop
  | refused (hsize : bytes = [] ∨ 4080 < bytes.length) (hheap : tm'.heap = tm.heap) :
      Inserted tm t bytes tm' {}
  | placed {rid : RecordID} (hfresh : ¬tm.Allocated rid) (halloc : tm'.Allocated rid)
      (hne : bytes ≠ []) (hle : bytes.length ≤ 4080)
      (hheap : tm'.heap = setRow tm.heap t rid (some bytes)) : Inserted tm t bytes tm' rid

theorem Relisted.mem {tm tm' : TableManager} {t t' : TableId} {pid : Int}
    (h : Relisted tm t tm') (hm : pid ∈ tm'.pageList t') :
    pid ∈ tm.pageList t' ∨ pid = tm.pool.numPages := by
  rcases h with ⟨-, hl⟩ | ⟨-, hl⟩
  · exact .inl (hl ▸ hm)
  · rw [hl, Function.update_apply] at hm
    grind

theorem Relisted.mem_of_mem {tm tm' : TableManager} {t t' : TableId} {pid : Int}
    (h : Relisted tm t tm') (hm : pid ∈ tm.pageList t') : pid ∈ tm'.pageList t' := by
  rcases h with ⟨-, hl⟩ | ⟨-, hl⟩
  · exact hl ▸ hm
  · rw [hl, Function.update_apply]
    grind


/-- Listing an empty page does not add a tuple. -/
theorem WF.heap_relisted {tm tm' : TableManager} {t : TableId} (h : tm.WF)
    (hlist : Relisted tm t tm') {r : RecordID} (hget : tm'.getTuple r = tm.getTuple r)
    (t' : TableId) : tm'.heap t' r = tm.heap t' r := by
  unfold heap
  by_cases hm : r.pageId ∈ tm.pageList t'
  · rw [if_pos hm, if_pos (hlist.mem_of_mem hm), hget]
  · rw [if_neg hm]
    split
    · rename_i hm'
      have hnew := (hlist.mem hm').resolve_left hm
      rw [hget]
      cases hc : tm.getTuple r with
      | none => rfl
      | some b =>
        have := (h.allocated_of_getTuple hc).2.2.2
        omega
    · rfl

/-- What is stored on the pages of a table is inserted into that table. -/
theorem WF.inserted {tm tm' : TableManager} {t : TableId} {bytes : Bytes} {rid : RecordID}
    (h : tm.WF) (hs : tm'.Sound) (hlist : Relisted tm t tm') (hst : Stored tm t bytes tm' rid) :
    tm'.WF ∧ Inserted tm t bytes tm' rid := by
  have hwf' := h.relisted hs hlist
  refine ⟨hwf', ?_⟩
  cases hst with
  | refused hsize hget =>
    refine .refused hsize ?_
    funext t' r
    exact h.heap_relisted hlist (by rw [hget]) t'
  | placed hfresh halloc hne hle hmem hget =>
    refine .placed hfresh halloc hne hle ?_
    funext t' r
    rw [setRow_apply]
    by_cases hr : r = rid
    · subst hr
      by_cases ht : t' = t
      · simp [ht, heap, hmem, hget]
      · have h₁ : tm'.heap t' r = none := if_neg (hwf'.disjoint t t' (Ne.symm ht) _ hmem)
        have h₂ : tm.heap t' r = none := by
          cases hc : tm.heap t' r with
          | none => rfl
          | some b => exact absurd (h.allocated_of_heap hc) hfresh
        rw [if_neg (by tauto), h₁, h₂]
    · rw [if_neg (by tauto)]
      exact h.heap_relisted hlist (by rw [hget, Function.update_of_ne hr]) t'

theorem WF.insertTuple {tm tm' : TableManager} {t : TableId} {bytes : Bytes} {rid : RecordID}
    (h : tm.WF) (hi : tm.insertTuple t bytes = (tm', rid)) :
    tm'.WF ∧ Grows tm tm' ∧ Inserted tm t bytes tm' rid := by
  obtain ⟨hs, hgrow, hlist, hst⟩ := h.toSound.insertTuple hi
  obtain ⟨hwf', hins⟩ := h.inserted hs hlist hst
  exact ⟨hwf', hgrow, hins⟩

/-! ## Erase and update -/

theorem Sound.eraseTuple {tm : TableManager} (h : tm.Sound) (rid : RecordID) :
    (tm.eraseTuple rid).1.Sound ∧ Grows tm (tm.eraseTuple rid).1 ∧
      (tm.eraseTuple rid).1.pageList = tm.pageList ∧
      (tm.eraseTuple rid).2 = (tm.getTuple rid).isSome ∧
      (tm.eraseTuple rid).1.getTuple = Function.update tm.getTuple rid none := by
  generalize he : tm.eraseTuple rid = result
  simp only [TableManager.eraseTuple] at he
  split at he
  · rename_i page herase
    cases he
    obtain ⟨⟨s, hs⟩, hpwf, hcount, hlsn, hget⟩ := Page.erase_spec (h.pageOk _) herase
    have hlive : (tm.getTuple rid).isSome := by
      rw [Option.isSome_iff_ne_none, getTuple, Ne, ← Page.erase_eq_none_iff, herase]
      simp
    exact ⟨(h.setPage _ (.inl hpwf) (.inr hcount)).setFree _ _,
      (grows_setPage (by omega) hlsn).setFree _ _, rfl, hlive.symm, getTuple_setPage rid (by omega) hget⟩
  · rename_i herase
    cases he
    have hnone : tm.getTuple rid = none := (Page.erase_eq_none_iff _ _).mp herase
    exact ⟨h, .refl tm, rfl, by rw [hnone]; rfl, by rw [← hnone, Function.update_eq_self]⟩

theorem Sound.allocated_of_eraseTuple {tm : TableManager} (h : tm.Sound) {rid r : RecordID}
    (ha : (tm.eraseTuple rid).1.Allocated r) : tm.Allocated r := by
  generalize he : tm.eraseTuple rid = result at ha
  simp only [TableManager.eraseTuple] at he
  split at he
  · rename_i page herase
    cases he
    obtain ⟨-, -, hcount, -, -⟩ := Page.erase_spec (h.pageOk _) herase
    obtain ⟨h₁, h₂, h₃, h₄⟩ := ha
    refine ⟨h₁, ?_, h₃, h₄⟩
    simp only [page_setFree, page_setPage] at h₂
    split at h₂
    · rename_i hr
      rw [hr]; omega
    · exact h₂
  · cases he
    exact ha

theorem WF.eraseTuple {tm : TableManager} (h : tm.WF) (rid : RecordID) :
    (tm.eraseTuple rid).1.WF ∧ Grows tm (tm.eraseTuple rid).1 ∧
      (tm.eraseTuple rid).2 = (tm.getTuple rid).isSome ∧
      ∀ t r, (tm.eraseTuple rid).1.heap t r = if r = rid then none else tm.heap t r := by
  obtain ⟨hs, hgrow, hlist, hok, hget⟩ := h.toSound.eraseTuple rid
  refine ⟨⟨hs, hlist ▸ h.nodup, hlist ▸ h.disjoint⟩, hgrow, hok, fun t r => ?_⟩
  simp only [heap, hget, hlist, Function.update_apply]
  by_cases hr : r = rid <;> simp [hr]

/-- Erasing a tuple that a table holds. -/
theorem WF.eraseTuple_live {tm : TableManager} {t : TableId} {rid : RecordID} {b : Bytes}
    (h : tm.WF) (hb : tm.heap t rid = some b) :
    (tm.eraseTuple rid).1.WF ∧ Grows tm (tm.eraseTuple rid).1 ∧ (tm.eraseTuple rid).2 = true ∧
      (tm.eraseTuple rid).1.heap = setRow tm.heap t rid none := by
  obtain ⟨hwf, hgrow, hok, hheap⟩ := h.eraseTuple rid
  refine ⟨hwf, hgrow, ?_, ?_⟩
  · rw [hok, (heap_eq_some_iff.mp hb).2]
    rfl
  · funext t' r
    rw [hheap, setRow_apply]
    by_cases hr : r = rid
    · subst hr
      by_cases ht : t' = t
      · simp [ht]
      · have : tm.heap t' r = none := by
          cases hc : tm.heap t' r with
          | none => rfl
          | some b' => exact absurd (h.owner_unique hc hb) ht
        simp [this, ht]
    · simp [hr]

/-- A record id without a live tuple is left as it is. -/
theorem eraseTuple_of_dead {tm : TableManager} {rid : RecordID} (h : tm.getTuple rid = none) :
    tm.eraseTuple rid = (tm, false) := by
  have : (tm.page rid.pageId).erase rid.slotId = none := (Page.erase_eq_none_iff _ _).mpr h
  simp only [TableManager.eraseTuple, this]

/-- Overwriting a tuple in place. -/
theorem Sound.overwrite {tm : TableManager} (h : tm.Sound) {rid : RecordID} {bytes : Bytes}
    {p : Page} (hu : (tm.page rid.pageId).update rid.slotId bytes = some p) :
    (tm.setPage rid.pageId p).Sound ∧ Grows tm (tm.setPage rid.pageId p) ∧ bytes ≠ [] ∧
      (tm.setPage rid.pageId p).getTuple = Function.update tm.getTuple rid (some bytes) := by
  obtain ⟨⟨s, hs⟩, hne, -, hpwf, hcount, hlsn, hget⟩ := Page.update_spec (h.pageOk _) hu
  exact ⟨h.setPage _ (.inl hpwf) (.inr hcount), grows_setPage (by omega) hlsn, hne,
    getTuple_setPage rid (by omega) hget⟩

/-- What `updateTuple` does to the tables: it keeps the record id when the new bytes fit
over the old ones, and otherwise erases the tuple and inserts the new one. A record id
whose tuple is gone gets a new one as well. -/
inductive Updated (tm : TableManager) (t : TableId) (rid : RecordID) (bytes : Bytes)
    (tm' : TableManager) : RecordID → Prop
  | inPlace (hlive : (tm.heap t rid).isSome) (hne : bytes ≠ []) (hle : bytes.length ≤ 4080)
      (hheap : tm'.heap = setRow tm.heap t rid (some bytes)) : Updated tm t rid bytes tm' rid
  | moved {rid' : RecordID} (hins : Inserted (tm.eraseTuple rid).1 t bytes tm' rid') :
      Updated tm t rid bytes tm' rid'

theorem Sound.length_le {tm : TableManager} (h : tm.Sound) {rid : RecordID} {b : Bytes}
    (hb : tm.getTuple rid = some b) : b.length ≤ 4080 :=
  (h.pageOk _).length_le_of_get hb

theorem WF.updateTuple {tm tm' : TableManager} {t : TableId} {rid rid' : RecordID}
    {bytes : Bytes} (h : tm.WF) (hmem : (tm.getTuple rid).isSome → rid.pageId ∈ tm.pageList t)
    (hu : tm.updateTuple t rid bytes = (tm', rid')) :
    tm'.WF ∧ Grows tm tm' ∧ Updated tm t rid bytes tm' rid' := by
  simp only [TableManager.updateTuple] at hu
  split at hu
  · rename_i page hup
    cases hu
    obtain ⟨hs, hgrow, hne, hget⟩ := h.toSound.overwrite hup
    have hlive : (tm.getTuple rid).isSome := (Page.update_spec (h.pageOk _) hup).2.2.1
    have hnew : (tm.setPage rid.pageId page).getTuple rid = some bytes := by simp [hget]
    have hle := hs.length_le hnew
    refine ⟨⟨hs, h.nodup, h.disjoint⟩, hgrow, .inPlace ?_ hne hle
      (h.heap_of_getTuple hget rfl (hmem hlive))⟩
    rwa [heap, if_pos (hmem hlive)]
  · obtain ⟨hwf₁, hgrow₁, -⟩ := h.eraseTuple rid
    obtain ⟨hwf, hgrow, hins⟩ := hwf₁.insertTuple hu
    exact ⟨hwf, hgrow₁.trans hgrow, .moved hins⟩

/-! ## Later states -/

/-- What does not change back as the tables are written to: listed pages stay listed, and
a record id whose tuple is gone never gets one again. -/
structure Later (tm tm' : TableManager) : Prop extends Grows tm tm' where
  listed : ∀ t, ∀ pid ∈ tm.pageList t, pid ∈ tm'.pageList t
  dead : ∀ rid, tm.Allocated rid → tm.getTuple rid = none → tm'.getTuple rid = none

theorem Later.refl (tm : TableManager) : Later tm tm :=
  ⟨.refl tm, fun _ _ h => h, fun _ _ h => h⟩

theorem Later.trans {a b c : TableManager} (h : Later a b) (h' : Later b c) : Later a c where
  toGrows := h.toGrows.trans h'.toGrows
  listed t pid hp := h'.listed t pid (h.listed t pid hp)
  dead rid ha hn := h'.dead rid (h.allocated rid ha) (h.dead rid ha hn)

theorem Sound.later_insertTuple {tm : TableManager} (h : tm.Sound) (t : TableId) (bytes : Bytes) :
    Later tm (tm.insertTuple t bytes).1 := by
  generalize hi : tm.insertTuple t bytes = result
  obtain ⟨tm', nr⟩ := result
  obtain ⟨-, hgrow, hlist, hst⟩ := h.insertTuple hi
  refine ⟨hgrow, fun u pid hp => hlist.mem_of_mem hp, fun rid ha hn => ?_⟩
  cases hst with
  | refused _ hget => rw [hget, hn]
  | placed hfresh _ _ _ _ hget =>
    have hne : rid ≠ nr := fun he => hfresh (he ▸ ha)
    rw [hget, Function.update_of_ne hne, hn]

theorem Sound.later_eraseTuple {tm : TableManager} (h : tm.Sound) (rid : RecordID) :
    Later tm (tm.eraseTuple rid).1 := by
  obtain ⟨-, hgrow, hlist, -, hget⟩ := h.eraseTuple rid
  refine ⟨hgrow, fun u pid hp => hlist ▸ hp, fun r _ hn => ?_⟩
  rw [hget, Function.update_apply]
  split
  · rfl
  · exact hn

theorem Sound.later_updateTuple {tm : TableManager} (h : tm.Sound) (t : TableId) (rid : RecordID)
    (bytes : Bytes) : Later tm (tm.updateTuple t rid bytes).1 := by
  simp only [TableManager.updateTuple]
  split
  · rename_i page hup
    obtain ⟨-, hgrow, -, hget⟩ := h.overwrite hup
    have hlive : (tm.getTuple rid).isSome := (Page.update_spec (h.pageOk _) hup).2.2.1
    refine ⟨hgrow, fun _ _ hp => hp, fun r _ hn => ?_⟩
    have hne : r ≠ rid := by
      rintro rfl
      simp [hn] at hlive
    rw [hget, Function.update_of_ne hne, hn]
  · exact (h.later_eraseTuple rid).trans ((h.eraseTuple rid).1.later_insertTuple t bytes)

/-- A tuple that `updateTuple` has moved is gone from where it was. -/
theorem Sound.getTuple_updateTuple {tm tm' : TableManager} (h : tm.Sound) {t : TableId}
    {rid nr : RecordID} {bytes : Bytes} (hrid : tm.Allocated rid)
    (hu : tm.updateTuple t rid bytes = (tm', nr)) (hne : nr ≠ rid) : tm'.getTuple rid = none := by
  simp only [TableManager.updateTuple] at hu
  split at hu
  · cases hu
    exact absurd rfl hne
  · obtain ⟨hs, hgrow, -, -, hget⟩ := h.eraseTuple rid
    have hlater := hs.later_insertTuple t bytes
    rw [hu] at hlater
    exact hlater.dead rid (hgrow.allocated rid hrid) (by rw [hget, Function.update_self])

/-! ## Whole tables -/

theorem WF.setPages_nil {tm : TableManager} (h : tm.WF) (t : TableId) : (tm.setPages t []).WF where
  pageOk := h.pageOk
  bound t' pid hm := by
    rw [pageList_setPages] at hm
    split at hm
    · simp at hm
    · exact h.bound t' pid hm
  empty := h.empty
  nodup t' := by
    rw [pageList_setPages]
    split
    · exact List.nodup_nil
    · exact h.nodup t'
  disjoint t' u htu pid hm := by
    rw [pageList_setPages] at hm ⊢
    split at hm
    · simp at hm
    · split
      · simp
      · exact h.disjoint t' u htu pid hm

theorem heap_setPages_nil (tm : TableManager) (t : TableId) :
    (tm.setPages t []).heap = Function.update tm.heap t (fun _ => none) := by
  funext t' rid
  by_cases ht : t' = t
  · subst ht; simp [heap]
  · simp only [heap, pageList_setPages, ht, if_false, ne_eq, not_false_eq_true,
      Function.update_of_ne]
    rfl

theorem samePages_dropTable (tm : TableManager) (t : TableId) :
    SamePages (tm.setPages t []) (tm.dropTable t) where
  pool := rfl
  pageList := by
    funext t'
    rw [pageList_setPages]
    simp only [pageList, dropTable, Function.update_apply]
    split <;> rfl

theorem samePages_truncateTable (tm : TableManager) (t : TableId) :
    SamePages (tm.setPages t []) (tm.truncateTable t) where
  pool := by unfold truncateTable; split <;> rfl
  pageList := by
    unfold truncateTable
    split
    · rename_i h
      funext t'
      rw [pageList_setPages]
      split
      · rename_i ht
        simp [ht, pageList, h]
      · rfl
    · rfl

theorem wf_empty : TableManager.empty.WF where
  pageOk _ := .inr Page.blank_zero
  bound t pid h := by simp [TableManager.empty, pageList] at h
  empty pid _ := Page.blank_zero.slotCount_eq
  nodup t := by simp [TableManager.empty, pageList]
  disjoint t t' _ pid h := by simp [TableManager.empty, pageList] at h

end TableManager

end Relite.Vm
