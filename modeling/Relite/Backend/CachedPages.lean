import Relite.Lib.Run
import Relite.Backend.FrameLists
import Relite.Vm.TableManager

/-!
# The buffer pool as a page store

Callers pin pages, write to them through the pointer they were given and unpin them.
Whatever is evicted in between, each pointer and each later `fetchPage` shows the page
store's contents: those last written to the page.
-/
namespace Relite.Backend
open Lib

namespace PageStore

/-- An allocation whose page nobody gets to format. -/
def allocate (s : PageStore) : PageStore :=
  ⟨Function.update s.page s.numPages Page.zero, s.numPages + 1⟩

theorem newPage_eq (s : PageStore) :
    s.newPage.1 = s.allocate.setPage s.numPages Page.init := by
  simp [newPage, allocate, setPage]

def Allocated (s : PageStore) (id : Int) : Prop := 0 ≤ id ∧ id < s.numPages

end PageStore

/-- A page that a caller has fetched and not unpinned yet, and whether it wrote to it. -/
structure Pin (n : Nat) where
  id : Int
  frame : Fin n
  modified : Bool
  deriving DecidableEq

variable {n : Nat}

/-- The frames of a pool between two calls, or inside one while the frame `hole` is in no
list. -/
structure BufferPool.Frames (pool : BufferPool n) (pins : List (Pin n)) (hole : Option (Fin n)) :
    Prop where
  table : ∀ id k, pool.table id = some k ↔ (pool.frames k).valid = true ∧ (pool.frames k).pageId = id
  free : ∀ k, k ∈ pool.freeList ↔ (pool.frames k).valid = false ∧ hole ≠ some k
  freeNodup : pool.freeList.Nodup
  lru : ∀ k, k ∈ pool.lru.map Prod.snd ↔
    (pool.frames k).valid = true ∧ (pool.frames k).pinCount = 0 ∧ hole ≠ some k
  lruNodup : (pool.lru.map Prod.snd).Nodup
  lruPos : ∀ k node, pool.lruPos k = some node ↔ (node, k) ∈ pool.lru
  nodes : ∀ e ∈ pool.lru, e.1 < pool.nextNode
  nodesNodup : (pool.lru.map Prod.fst).Nodup
  pinned : ∀ pin ∈ pins, (pool.frames pin.frame).valid = true ∧ (pool.frames pin.frame).pageId = pin.id
  pinCount : ∀ k, (pool.frames k).pinCount = pins.countP fun pin => pin.frame = k

/-- What the pool and its file hold against the page store. -/
structure BufferPool.Shows (pool : BufferPool n) (pins : List (Pin n)) (store : PageStore) : Prop where
  numPages : pool.disk.numPages = store.numPages
  allocated : ∀ k, (pool.frames k).valid = true → store.Allocated (pool.frames k).pageId
  cached : ∀ k, (pool.frames k).valid = true →
    (pool.frames k).page = store.page (pool.frames k).pageId
  clean : ∀ k, (pool.frames k).valid = true → (pool.frames k).dirty = false →
    (∀ pin ∈ pins, pin.frame = k → pin.modified = false) →
    pool.disk.page (pool.frames k).pageId = (pool.frames k).page
  onDisk : ∀ id, store.Allocated id → pool.table id = none → pool.disk.page id = store.page id

namespace BufferPool
variable {pool : BufferPool n} {pins : List (Pin n)} {hole : Option (Fin n)} {store : PageStore}

/-! ## Facts about the frames -/

theorem Frames.listed (h : pool.Frames pins hole) : pool.Listed hole :=
  ⟨h.free, h.freeNodup, h.lru, h.lruNodup, h.lruPos, h.nodes, h.nodesNodup⟩

/-- What the frames show does not depend on pin counts, and a new pin that wrote nothing
does not matter. -/
theorem Shows.of_eq {pool' : BufferPool n} {pins' : List (Pin n)} (h : pool.Shows pins store)
    (hdisk : pool'.disk = pool.disk) (htable : pool'.table = pool.table)
    (hframes : ∀ k, (pool'.frames k).valid = (pool.frames k).valid ∧
      (pool'.frames k).pageId = (pool.frames k).pageId ∧
      (pool'.frames k).page = (pool.frames k).page ∧
      (pool'.frames k).dirty = (pool.frames k).dirty)
    (hpins : ∀ pin ∈ pins, pin ∈ pins') : pool'.Shows pins' store := by
  constructor
  · rw [hdisk]
    exact h.numPages
  · intro k hk
    obtain ⟨hvalid, hid, -, -⟩ := hframes k
    rw [hid]
    exact h.allocated k (hvalid ▸ hk)
  · intro k hk
    obtain ⟨hvalid, hid, hpage, -⟩ := hframes k
    rw [hid, hpage]
    exact h.cached k (hvalid ▸ hk)
  · intro k hk hdirty hmod
    obtain ⟨hvalid, hid, hpage, hd⟩ := hframes k
    rw [hid, hpage, hdisk]
    exact h.clean k (hvalid ▸ hk) (hd ▸ hdirty) fun pin hpin => hmod pin (hpins pin hpin)
  · intro id hid hnone
    rw [hdisk]
    exact h.onDisk id hid (htable ▸ hnone)

/-- A page is in one frame at most. -/
theorem Frames.frame_unique (h : pool.Frames pins hole) {k k' : Fin n}
    (hk : (pool.frames k).valid = true) (hk' : (pool.frames k').valid = true)
    (hid : (pool.frames k).pageId = (pool.frames k').pageId) : k = k' := by
  have h₁ := (h.table _ k).mpr ⟨hk, rfl⟩
  have h₂ := (h.table _ k').mpr ⟨hk', rfl⟩
  rw [hid, h₂] at h₁
  exact (Option.some.inj h₁).symm

theorem Frames.pinCount_pos (h : pool.Frames pins hole) {pin : Pin n} (hpin : pin ∈ pins) :
    0 < (pool.frames pin.frame).pinCount := by
  rw [h.pinCount, List.countP_pos_iff]
  exact ⟨pin, hpin, decide_eq_true rfl⟩

theorem Frames.valid_of_pinCount (h : pool.Frames pins hole) {k : Fin n}
    (hk : 0 < (pool.frames k).pinCount) : (pool.frames k).valid = true := by
  rw [h.pinCount, List.countP_pos_iff] at hk
  obtain ⟨pin, hpin, hframe⟩ := hk
  obtain rfl := of_decide_eq_true hframe
  exact (h.pinned pin hpin).1

/-! ## Taking a frame -/

theorem Frames.popFree (h : pool.Frames pins none) {idx : Fin n} {rest : List (Fin n)}
    (hfree : pool.freeList = idx :: rest) :
    BufferPool.Frames { pool with freeList := rest } pins (some idx) ∧
      (pool.frames idx).valid = false :=
  ⟨{ (h.listed.popFree hfree).1, h with }, (h.listed.popFree hfree).2⟩

theorem Frames.popLru (h : pool.Frames pins none) {node : Nat} {victim : Fin n}
    {rest : List (Nat × Fin n)} (hlru : pool.lru = (node, victim) :: rest) :
    BufferPool.Frames { pool with
      lru := rest, lruPos := Function.update pool.lruPos victim none } pins (some victim) :=
  { h.listed.popLru hlru, h with }

/-- A frame that nobody has pinned can be emptied. -/
theorem Frames.evict {victim : Fin n} (h : pool.Frames pins (some victim))
    (hvalid : (pool.frames victim).valid = true) (hcount : (pool.frames victim).pinCount = 0) :
    (pool.evict victim).Frames pins (some victim) := by
  have hframe : ∀ k, k ≠ victim → (pool.evict victim).frames k = pool.frames k := by
    intro k hk
    simp [BufferPool.evict, hk]
  have hempty : ((pool.evict victim).frames victim).valid = false ∧
      ((pool.evict victim).frames victim).pinCount = 0 := by
    simp [BufferPool.evict]
  have hpins : ∀ pin ∈ pins, pin.frame ≠ victim := by
    intro pin hpin heq
    have := h.pinCount_pos hpin
    rw [heq, hcount] at this
    exact this.false
  refine { h.listed.evict with table := ?_, pinned := ?_, pinCount := ?_ }
  · intro id k
    have htable : (pool.evict victim).table =
        Function.update pool.table (pool.frames victim).pageId none := by
      simp [BufferPool.evict, hvalid]
    rw [htable, Function.update_apply]
    by_cases hk : k = victim
    · subst hk
      simp only [hempty.1, Bool.false_eq_true, false_and, iff_false]
      split
      · simp
      · rename_i hid
        rw [h.table]
        exact fun hc => hid hc.2.symm
    · rw [hframe k hk]
      split
      · rename_i hid
        subst hid
        simp only [reduceCtorEq, false_iff, not_and]
        exact fun hk' hid => hk (h.frame_unique hk' hvalid hid)
      · exact h.table id k
  · intro pin hpin
    rw [hframe _ (hpins pin hpin)]
    exact h.pinned pin hpin
  · intro k
    by_cases hk : k = victim
    · subst hk
      rw [hempty.2, ← hcount]
      exact h.pinCount k
    · rw [hframe k hk]
      exact h.pinCount k

theorem Shows.evict {victim : Fin n} (hf : pool.Frames pins (some victim))
    (h : pool.Shows pins store) (hvalid : (pool.frames victim).valid = true)
    (hpins : ∀ pin ∈ pins, pin.frame ≠ victim) : (pool.evict victim).Shows pins store := by
  have hdisk : ∀ id, id ≠ (pool.frames victim).pageId →
      (pool.evict victim).disk.page id = pool.disk.page id := by
    intro id hid
    simp only [BufferPool.evict]
    split
    · simp [DiskManager.writePage, hid]
    · rfl
  have hframe : ∀ k, ((pool.evict victim).frames k).valid = true →
      (pool.evict victim).frames k = pool.frames k ∧ k ≠ victim := by
    intro k hk
    by_cases heq : k = victim
    · subst heq
      simp [BufferPool.evict] at hk
    · exact ⟨by simp [BufferPool.evict, heq], heq⟩
  constructor
  · rw [← h.numPages]
    simp only [BufferPool.evict]
    split
    · have hlt := (h.allocated victim hvalid).2
      have hnum := h.numPages
      simp only [DiskManager.writePage]
      rw [if_neg (by omega)]
    · rfl
  · intro k hk
    obtain ⟨heq, -⟩ := hframe k hk
    rw [heq] at hk ⊢
    exact h.allocated k hk
  · intro k hk
    obtain ⟨heq, -⟩ := hframe k hk
    rw [heq] at hk ⊢
    exact h.cached k hk
  · intro k hk hdirty hmod
    obtain ⟨heq, hne⟩ := hframe k hk
    rw [heq] at hk hdirty ⊢
    rw [hdisk _ fun hid => hne (hf.frame_unique hk hvalid hid)]
    exact h.clean k hk hdirty hmod
  · intro id hid htable
    by_cases heq : id = (pool.frames victim).pageId
    · -- the page that was written back, or was on disk already
      subst heq
      rw [← h.cached victim hvalid]
      simp only [BufferPool.evict, hvalid, Bool.true_and]
      split
      · simp [DiskManager.writePage]
      · rename_i hdirty
        refine h.clean victim hvalid (by simpa using hdirty) fun pin hpin hk => ?_
        exact absurd hk (hpins pin hpin)
    · rw [hdisk id heq]
      simp only [BufferPool.evict, hvalid, if_true, Function.update_apply, if_neg heq] at htable
      exact h.onDisk id hid htable

/-- Taking a frame fails only when all are pinned. -/
theorem acquireFrame_none (hf : pool.Frames pins none) {pool' : BufferPool n}
    (h : pool.acquireFrame = (pool', none)) : pool' = pool ∧ ∀ k, 0 < (pool.frames k).pinCount := by
  cases hfree : pool.freeList with
  | cons idx rest =>
    rw [acquireFrame_free hfree] at h
    simp at h
  | nil =>
    cases hlru : pool.lru with
    | cons e rest =>
      rw [acquireFrame_lru hfree hlru] at h
      simp at h
    | nil =>
      have hnone : pool.acquireFrame = (pool, none) := by simp [acquireFrame, hfree, hlru]
      rw [hnone] at h
      refine ⟨(congrArg Prod.fst h).symm, fun k => ?_⟩
      have hvalid : (pool.frames k).valid = true := by
        simpa [hfree] using hf.free k
      have hcount := hf.lru k
      simp only [hlru, List.map_nil, List.not_mem_nil, hvalid, true_and, false_iff] at hcount
      exact Nat.pos_of_ne_zero fun h0 => hcount ⟨h0, by simp⟩

/-- What taking a frame leaves: the frame is empty and in no list, pinned frames are as
they were, and no page has come into a frame. -/
structure Acquired (pool pool' : BufferPool n) (idx : Fin n) : Prop where
  invalid : (pool'.frames idx).valid = false
  pinned : ∀ k, 0 < (pool.frames k).pinCount → k ≠ idx ∧ pool'.frames k = pool.frames k
  table : ∀ id, pool.table id = none → pool'.table id = none

theorem acquireFrame_some (hf : pool.Frames pins none) (hs : pool.Shows pins store)
    {pool' : BufferPool n} {idx : Fin n} (h : pool.acquireFrame = (pool', some idx)) :
    Acquired pool pool' idx ∧ pool'.Frames pins (some idx) ∧ pool'.Shows pins store := by
  cases hfree : pool.freeList with
  | cons idx' rest =>
    rw [acquireFrame_free hfree] at h
    obtain ⟨rfl, rfl⟩ : { pool with freeList := rest } = pool' ∧ idx' = idx := by simpa using h
    obtain ⟨hframes, hinvalid⟩ := hf.popFree hfree
    refine ⟨⟨hinvalid, ?_, fun id h => h⟩, hframes, hs.of_eq rfl rfl
      (fun k => ⟨rfl, rfl, rfl, rfl⟩) fun pin h => h⟩
    intro k hk
    refine ⟨?_, rfl⟩
    rintro rfl
    exact absurd (hf.valid_of_pinCount hk) (by simp [hinvalid])
  | nil =>
    cases hlru : pool.lru with
    | nil =>
      have hnone : pool.acquireFrame = (pool, none) := by simp [acquireFrame, hfree, hlru]
      rw [hnone] at h
      simp at h
    | cons e rest =>
      obtain ⟨node, victim⟩ := e
      rw [acquireFrame_lru hfree hlru] at h
      obtain ⟨rfl, rfl⟩ : _ = pool' ∧ victim = idx := by simpa using h
      obtain ⟨hvalid, hcount, -⟩ := (hf.lru victim).mp (by simp [hlru])
      have hpop := hf.popLru hlru
      refine ⟨⟨by simp [BufferPool.evict], ?_, ?_⟩, hpop.evict hvalid hcount, ?_⟩
      · intro k hk
        have hne : k ≠ victim := by
          rintro rfl
          omega
        exact ⟨hne, by simp [BufferPool.evict, hne]⟩
      · intro id h
        simp only [BufferPool.evict, hvalid, if_true, Function.update_apply, h, ite_self]
      · refine Shows.evict hpop (hs.of_eq rfl rfl (fun k => ⟨rfl, rfl, rfl, rfl⟩) fun pin h => h)
          hvalid fun pin hpin heq => ?_
        have := hf.pinCount_pos hpin
        rw [heq] at this
        omega

/-! ## Handing a frame to a page -/

theorem Frames.install {idx : Fin n} (h : pool.Frames pins (some idx))
    (hinvalid : (pool.frames idx).valid = false) {id : Int} (htable : pool.table id = none)
    (page : Page) (dirty : Bool) :
    (pool.install idx id page dirty).Frames (⟨id, idx, false⟩ :: pins) none := by
  have hpins : ∀ pin ∈ pins, pin.frame ≠ idx := by
    rintro pin hpin rfl
    exact absurd (h.pinned pin hpin).1 (by simp [hinvalid])
  refine { h.listed.install id page dirty with table := ?_, pinned := ?_, pinCount := ?_ } <;>
    simp only [BufferPool.install, setFrame, Function.update_apply]
  · intro id' k
    by_cases hk : k = idx
    · subst hk
      by_cases hid : id' = id
      · simp [hid]
      · have := h.table id' k
        simp only [hinvalid, Bool.false_eq_true, false_and, iff_false] at this
        simp [hid, Ne.symm hid, this]
    · simp only [if_neg hk]
      split
      · rename_i hid
        subst hid
        have := h.table id' k
        rw [htable] at this
        simpa [Ne.symm hk] using this
      · exact h.table id' k
  · intro pin hpin
    rcases List.mem_cons.mp hpin with rfl | hpin
    · simp
    · rw [if_neg (hpins pin hpin)]
      exact h.pinned pin hpin
  · intro k
    rw [List.countP_cons]
    by_cases hk : k = idx
    · subst hk
      have : (pins.countP fun pin => pin.frame = k) = 0 :=
        List.countP_eq_zero.mpr fun pin hpin => by simpa using hpins pin hpin
      simp [this]
    · simp [hk, Ne.symm hk, h.pinCount k]

theorem Shows.install {idx : Fin n} (hf : pool.Frames pins (some idx)) (h : pool.Shows pins store)
    {id : Int} (htable : pool.table id = none) (hid : store.Allocated id) {page : Page}
    {dirty : Bool} (hdisk : dirty = false → pool.disk.page id = page) :
    (pool.install idx id page dirty).Shows (⟨id, idx, false⟩ :: pins) (store.setPage id page) := by
  have hother : ∀ k, (pool.frames k).valid = true → (pool.frames k).pageId ≠ id := by
    intro k hk heq
    have := (hf.table id k).mpr ⟨hk, heq⟩
    simp [htable] at this
  refine { numPages := h.numPages, allocated := ?_, cached := ?_, clean := ?_, onDisk := ?_ } <;>
    simp only [BufferPool.install, setFrame, PageStore.setPage, Function.update_apply]
  · intro k hk
    split at hk
    · rename_i heq
      rw [if_pos heq]
      exact hid
    · rename_i hne
      rw [if_neg hne]
      exact h.allocated k hk
  · intro k hk
    split at hk
    · rename_i heq
      simp [heq]
    · rename_i hne
      rw [if_neg hne, if_neg (hother k hk)]
      exact h.cached k hk
  · intro k hk hdirty hmod
    split at hk
    · rename_i heq
      rw [if_pos heq] at hdirty ⊢
      exact hdisk hdirty
    · rename_i hne
      rw [if_neg hne] at hdirty ⊢
      exact h.clean k hk hdirty fun pin hpin => hmod pin (List.mem_cons_of_mem _ hpin)
  · intro id' hid' htable'
    split at htable'
    · cases htable'
    · rename_i hne
      rw [if_neg hne]
      exact h.onDisk id' hid' htable'

/-! ## Changing a frame in place -/

/-- A frame keeps its page and changes what its pins, its dirty bit or its bytes say. It
enters or leaves the lists only as `hole`. -/
theorem Frames.setFrame (h : pool.Frames pins hole) {k : Fin n} {f : Frame}
    {pins' : List (Pin n)} {hole' : Option (Fin n)} (hvalid : (pool.frames k).valid = true)
    (hfvalid : f.valid = true) (hid : f.pageId = (pool.frames k).pageId)
    (hlisted : ((pool.frames k).pinCount = 0 ∧ hole ≠ some k) ↔ f.pinCount = 0 ∧ hole' ≠ some k)
    (hhole : ∀ k', k' ≠ k → hole ≠ some k' ∧ hole' ≠ some k')
    (hpinned : ∀ pin ∈ pins', pin ∈ pins ∨ pin.frame = k ∧ pin.id = f.pageId)
    (hcount : f.pinCount = pins'.countP fun pin => pin.frame = k)
    (hother : ∀ k', k' ≠ k →
      (pins'.countP fun pin => pin.frame = k') = pins.countP fun pin => pin.frame = k') :
    (pool.setFrame k f).Frames pins' hole' := by
  have hself : (pool.setFrame k f).frames k = f := by simp [BufferPool.setFrame]
  have hframe : ∀ k', k' ≠ k → (pool.setFrame k f).frames k' = pool.frames k' := by
    intro k' hk
    simp [BufferPool.setFrame, hk]
  refine { h.listed.setFrame hvalid hfvalid hlisted hhole with
           table := ?_, pinned := ?_, pinCount := ?_ }
  · intro id k'
    refine (h.table id k').trans ?_
    by_cases hk : k' = k
    · subst hk
      rw [hself, hid, hvalid, hfvalid]
    · rw [hframe k' hk]
  · intro pin hpin
    rcases hpinned pin hpin with hold | ⟨hk, hpid⟩
    · by_cases hk : pin.frame = k
      · rw [hk, hself, hid, ← hk]
        exact ⟨hfvalid, (h.pinned pin hold).2⟩
      · rw [hframe _ hk]
        exact h.pinned pin hold
    · rw [hk, hself]
      exact ⟨hfvalid, hpid.symm⟩
  · intro k'
    by_cases hk : k' = k
    · subst hk
      rw [hself]
      exact hcount
    · rw [hframe k' hk, hother k' hk]
      exact h.pinCount k'

/-! ## Pinning a page that is in a frame -/

theorem Frames.unlink (h : pool.Frames pins none) {k : Fin n}
    (hvalid : (pool.frames k).valid = true) :
    (if (pool.frames k).pinCount = 0 then pool.removeFromLru k else pool).Frames pins (some k) := by
  obtain ⟨hframes, htable, -⟩ := unlink_eq pool k
  refine { h.listed.unlink hvalid with table := ?_, pinned := ?_, pinCount := ?_ }
  · rw [hframes, htable]
    exact h.table
  · rw [hframes]
    exact h.pinned
  · rw [hframes]
    exact h.pinCount

theorem Frames.fetchPage_hit (h : pool.Frames pins none) {id : Int} {idx : Fin n}
    (htable : pool.table id = some idx) :
    (pool.fetchPage id).1.Frames (⟨id, idx, false⟩ :: pins) none := by
  obtain ⟨hvalid, hid⟩ := (h.table id idx).mp htable
  have hq := h.unlink hvalid
  obtain ⟨hframes, -, -⟩ := unlink_eq pool idx
  rw [BufferPool.fetchPage_hit htable]
  generalize (if (pool.frames idx).pinCount = 0 then pool.removeFromLru idx else pool) = q at *
  refine hq.setFrame (by rw [hframes]; exact hvalid) hvalid (by rw [hframes]) (by simp) ?_ ?_ ?_ ?_
  · intro k hk
    simp [Ne.symm hk]
  · intro pin hpin
    rcases List.mem_cons.mp hpin with rfl | hpin
    · exact .inr ⟨rfl, hid.symm⟩
    · exact .inl hpin
  · simp [h.pinCount idx]
  · intro k hk
    simp [Ne.symm hk]

theorem Shows.fetchPage_hit (h : pool.Shows pins store) {id : Int} {idx : Fin n}
    (htable : pool.table id = some idx) :
    (pool.fetchPage id).1.Shows (⟨id, idx, false⟩ :: pins) store := by
  obtain ⟨hframes, htab, hdisk⟩ := unlink_eq pool idx
  rw [BufferPool.fetchPage_hit htable]
  refine h.of_eq hdisk htab (fun k => ?_) fun pin hpin => List.mem_cons_of_mem _ hpin
  simp only [BufferPool.setFrame, hframes, Function.update_apply]
  split
  · rename_i hk
    simp [hk]
  · exact ⟨rfl, rfl, rfl, rfl⟩

/-! ## Giving a pin back -/

theorem Frames.touchUnpinned {k : Fin n} (h : pool.Frames pins (some k))
    (hvalid : (pool.frames k).valid = true) (hcount : (pool.frames k).pinCount = 0) :
    (pool.touchUnpinned k).Frames pins none :=
  { h.listed.touchUnpinned hvalid hcount, h with }

theorem countP_erase {pin : Pin n} (hpin : pin ∈ pins) (k : Fin n) :
    (pins.countP fun p => p.frame = k) =
      ((pins.erase pin).countP fun p => p.frame = k) + if pin.frame = k then 1 else 0 := by
  rw [(List.perm_cons_erase hpin).countP_eq, List.countP_cons]
  simp

theorem Frames.unpin (h : pool.Frames pins none) {pin : Pin n} (hpin : pin ∈ pins) (dirty : Bool) :
    (pool.unpin pin.id dirty).1.Frames (pins.erase pin) none := by
  obtain ⟨hvalid, hid⟩ := h.pinned pin hpin
  have hpos := h.pinCount_pos hpin
  have hcount := countP_erase hpin pin.frame
  rw [← h.pinCount, if_pos rfl] at hcount
  have hset : ∀ hole', ((pool.frames pin.frame).pinCount - 1 = 0 → hole' = some pin.frame) →
      (∀ k, k ≠ pin.frame → hole' ≠ some k) →
      (pool.setFrame pin.frame { pool.frames pin.frame with
        dirty := (pool.frames pin.frame).dirty || dirty
        pinCount := (pool.frames pin.frame).pinCount - 1 }).Frames (pins.erase pin) hole' := by
    intro hole' hzero hhole
    refine h.setFrame hvalid hvalid rfl ?_ (fun k hk => ⟨by simp, hhole k hk⟩)
      (fun pin' hpin' => .inl (List.mem_of_mem_erase hpin')) ?_ fun k hk => ?_
    · simp only [ne_eq, reduceCtorEq, not_false_eq_true, and_true]
      constructor
      · intro h0
        omega
      · rintro ⟨h0, hne⟩
        exact absurd (hzero h0) hne
    · simp only [hcount]
      omega
    · rw [countP_erase hpin k, if_neg (Ne.symm hk)]
      rfl
  rw [unpin_eq ((h.table pin.id pin.frame).mpr ⟨hvalid, hid⟩)]
  simp only
  split
  · rename_i h0
    refine (hset (some pin.frame) (fun _ => rfl) fun k hk => by simp [Ne.symm hk]).touchUnpinned ?_ ?_
    · simp [BufferPool.setFrame, hvalid]
    · simpa [BufferPool.setFrame] using h0
  · rename_i h0
    exact hset none (fun hz => absurd hz h0) fun k hk => by simp

theorem Shows.unpin (hf : pool.Frames pins none) (h : pool.Shows pins store) {pin : Pin n}
    (hpin : pin ∈ pins) {dirty : Bool} (hdirty : pin.modified = true → dirty = true) :
    (pool.unpin pin.id dirty).1.Shows (pins.erase pin) store := by
  obtain ⟨hvalid, hid⟩ := hf.pinned pin hpin
  have hset : (pool.setFrame pin.frame { pool.frames pin.frame with
      dirty := (pool.frames pin.frame).dirty || dirty
      pinCount := (pool.frames pin.frame).pinCount - 1 }).Shows (pins.erase pin) store := by
    refine { numPages := h.numPages, allocated := ?_, cached := ?_, clean := ?_,
             onDisk := h.onDisk } <;>
      simp only [BufferPool.setFrame, Function.update_apply]
    · intro k hk
      split at hk
      · rename_i heq
        rw [if_pos heq]
        exact h.allocated _ hk
      · rename_i hne
        rw [if_neg hne]
        exact h.allocated k hk
    · intro k hk
      split at hk
      · rename_i heq
        rw [if_pos heq]
        exact h.cached _ hk
      · rename_i hne
        rw [if_neg hne]
        exact h.cached k hk
    · intro k hk hclean hmod
      split at hk
      · rename_i heq
        rw [if_pos heq] at hclean ⊢
        simp only [Bool.or_eq_false_iff] at hclean
        refine h.clean _ hk hclean.1 fun pin' hpin' hframe => ?_
        by_cases hsame : pin' = pin
        · subst hsame
          cases hm : pin'.modified with
          | false => rfl
          | true => simp [hdirty hm] at hclean
        · exact hmod pin' ((List.mem_erase_of_ne hsame).mpr hpin') (hframe.trans heq.symm)
      · rename_i hne
        rw [if_neg hne] at hclean ⊢
        refine h.clean k hk hclean fun pin' hpin' hframe => ?_
        refine hmod pin' ((List.mem_erase_of_ne ?_).mpr hpin') hframe
        rintro rfl
        exact hne hframe.symm
  rw [unpin_eq ((hf.table pin.id pin.frame).mpr ⟨hvalid, hid⟩)]
  simp only
  split
  · exact hset.of_eq rfl rfl (fun k => ⟨rfl, rfl, rfl, rfl⟩) fun pin hpin => hpin
  · exact hset

/-! ## Writing a page back -/

theorem Frames.writeBack (h : pool.Frames pins none) {k : Fin n}
    (hvalid : (pool.frames k).valid = true) : (pool.writeBack k).Frames pins none := by
  have hset : (pool.setFrame k { pool.frames k with dirty := false }).Frames pins none :=
    h.setFrame hvalid hvalid rfl Iff.rfl (fun k' _ => ⟨by simp, by simp⟩)
      (fun pin hpin => .inl hpin) (h.pinCount k) fun k' _ => rfl
  exact { hset with }

theorem Shows.writeBack (hf : pool.Frames pins none) (h : pool.Shows pins store) {k : Fin n}
    (hvalid : (pool.frames k).valid = true) : (pool.writeBack k).Shows pins store := by
  have hframe : ∀ k', ((pool.writeBack k).frames k').valid = (pool.frames k').valid ∧
      ((pool.writeBack k).frames k').pageId = (pool.frames k').pageId ∧
      ((pool.writeBack k).frames k').page = (pool.frames k').page := by
    intro k'
    simp only [BufferPool.writeBack, BufferPool.setFrame, Function.update_apply]
    split
    · rename_i heq
      subst heq
      exact ⟨rfl, rfl, rfl⟩
    · exact ⟨rfl, rfl, rfl⟩
  have hdisk : ∀ id, (pool.writeBack k).disk.page id =
      if id = (pool.frames k).pageId then (pool.frames k).page else pool.disk.page id := by
    intro id
    simp only [BufferPool.writeBack, DiskManager.writePage, Function.update_apply]
  constructor
  · have hlt := (h.allocated k hvalid).2
    have hnum := h.numPages
    simp only [BufferPool.writeBack, DiskManager.writePage]
    rw [if_neg (by omega)]
    exact hnum
  · intro k' hk
    obtain ⟨hv, hid, -⟩ := hframe k'
    rw [hid]
    exact h.allocated k' (hv ▸ hk)
  · intro k' hk
    obtain ⟨hv, hid, hpage⟩ := hframe k'
    rw [hid, hpage]
    exact h.cached k' (hv ▸ hk)
  · intro k' hk hdirty hmod
    obtain ⟨hv, hid, hpage⟩ := hframe k'
    rw [hv] at hk
    rw [hid, hpage, hdisk]
    split
    · rename_i heq
      rw [hf.frame_unique hk hvalid heq]
    · rename_i hne
      refine h.clean k' hk ?_ hmod
      have hk' : k' ≠ k := fun heq => hne (heq ▸ rfl)
      simpa [BufferPool.writeBack, BufferPool.setFrame, hk'] using hdirty
  · intro id hid htable
    rw [hdisk]
    split
    · rename_i heq
      rw [heq]
      exact h.cached k hvalid
    · exact h.onDisk id hid htable

theorem flush_all_kept (hf : pool.Frames pins none) (hs : pool.Shows pins store) :
    pool.flushAll.Frames pins none ∧ pool.flushAll.Shows pins store := by
  unfold flushAll
  induction List.finRange n generalizing pool with
  | nil => exact ⟨hf, hs⟩
  | cons k ks ih =>
    rw [List.foldl_cons]
    split
    · rename_i hk
      have hvalid : (pool.frames k).valid = true := (Bool.and_eq_true _ _ ▸ hk).1
      exact ih (hf.writeBack hvalid) (Shows.writeBack hf hs hvalid)
    · exact ih hf hs

/-! ## Writing through a pointer -/

theorem Frames.setPage (h : pool.Frames pins none) {pin : Pin n} (hpin : pin ∈ pins) (p : Page) :
    (pool.setPage pin.frame p).Frames ({ pin with modified := true } :: pins.erase pin) none := by
  obtain ⟨hvalid, hid⟩ := h.pinned pin hpin
  have hcount : ∀ k, (({ pin with modified := true } :: pins.erase pin).countP
      fun p => p.frame = k) = pins.countP fun p => p.frame = k := by
    intro k
    rw [countP_erase hpin k, List.countP_cons]
    simp
  refine h.setFrame hvalid hvalid rfl Iff.rfl (fun k _ => ⟨by simp, by simp⟩) ?_ ?_ fun k _ => hcount k
  · intro pin' hpin'
    rcases List.mem_cons.mp hpin' with rfl | hpin'
    · exact .inr ⟨rfl, hid.symm⟩
    · exact .inl (List.mem_of_mem_erase hpin')
  · rw [hcount]
    exact h.pinCount pin.frame

theorem Shows.setPage (hf : pool.Frames pins none) (h : pool.Shows pins store) {pin : Pin n}
    (hpin : pin ∈ pins) (p : Page) :
    (pool.setPage pin.frame p).Shows ({ pin with modified := true } :: pins.erase pin)
      (store.setPage pin.id p) := by
  obtain ⟨hvalid, hid⟩ := hf.pinned pin hpin
  refine { numPages := h.numPages, allocated := ?_, cached := ?_, clean := ?_, onDisk := ?_ } <;>
    simp only [BufferPool.setPage, BufferPool.setFrame, PageStore.setPage, Function.update_apply]
  · intro k hk
    split at hk
    · rename_i heq
      rw [if_pos heq]
      exact h.allocated _ hk
    · rename_i hne
      rw [if_neg hne]
      exact h.allocated k hk
  · intro k hk
    split at hk
    · rename_i heq
      rw [if_pos heq]
      simp [hid]
    · rename_i hne
      rw [if_neg hne, if_neg fun heq => hne (hf.frame_unique hk hvalid (heq.trans hid.symm))]
      exact h.cached k hk
  · intro k hk hdirty hmod
    have hne : k ≠ pin.frame := by
      rintro rfl
      exact absurd (hmod _ List.mem_cons_self rfl) (by simp)
    rw [if_neg hne] at hk hdirty ⊢
    refine h.clean k hk hdirty fun pin' hpin' hframe => ?_
    refine hmod pin' (List.mem_cons_of_mem _ ((List.mem_erase_of_ne ?_).mpr hpin')) hframe
    rintro rfl
    exact hne hframe.symm
  · intro id hid' htable
    have hne : id ≠ pin.id := by
      rintro rfl
      simp [(hf.table pin.id pin.frame).mpr ⟨hvalid, hid⟩] at htable
    rw [if_neg hne]
    exact h.onDisk id hid' htable

/-! ## Allocating a page -/

theorem Shows.allocatePage (h : pool.Shows pins store) :
    BufferPool.Shows { pool with disk := pool.disk.allocatePage.1 } pins store.allocate := by
  have hnum := h.numPages
  have hold : ∀ id, store.Allocated id → id ≠ store.numPages := by
    rintro id ⟨-, hlt⟩ rfl
    exact hlt.false
  constructor
  · simp only [DiskManager.allocatePage, PageStore.allocate, hnum]
  · intro k hk
    obtain ⟨h0, hlt⟩ := h.allocated k hk
    refine ⟨h0, ?_⟩
    simp only [PageStore.allocate]
    omega
  · intro k hk
    simp only [PageStore.allocate, Function.update_apply, if_neg (hold _ (h.allocated k hk))]
    exact h.cached k hk
  · intro k hk hdirty hmod
    simp only [DiskManager.allocatePage, hnum, Function.update_apply,
      if_neg (hold _ (h.allocated k hk))]
    exact h.clean k hk hdirty hmod
  · intro id hid htable
    simp only [DiskManager.allocatePage, PageStore.allocate, hnum, Function.update_apply]
    split
    · rfl
    · rename_i hne
      refine h.onDisk id ⟨hid.1, ?_⟩ htable
      have := hid.2
      simp only [PageStore.allocate] at this
      omega

/-! ## Fetching and adding pages -/

/-- A fetch shows the page store's contents, or finds every frame pinned. -/
theorem fetchPage_some (hf : pool.Frames pins none) (hs : pool.Shows pins store) {id : Int}
    (hid : store.Allocated id) {pool' : BufferPool n} {k : Fin n}
    (h : pool.fetchPage id = (pool', some k)) :
    pool'.Frames (⟨id, k, false⟩ :: pins) none ∧ pool'.Shows (⟨id, k, false⟩ :: pins) store := by
  cases htable : pool.table id with
  | some idx =>
    have hk := BufferPool.fetchPage_hit htable
    rw [h] at hk
    obtain ⟨-, rfl⟩ : _ ∧ k = idx := by simpa using hk
    have hpool : pool' = (pool.fetchPage id).1 := by rw [h]
    rw [hpool]
    exact ⟨hf.fetchPage_hit htable, hs.fetchPage_hit htable⟩
  | none =>
    rw [fetchPage_miss htable] at h
    split at h
    · simp at h
    · rename_i pool₁ idx hacq
      obtain ⟨rfl, rfl⟩ : pool₁.install idx id (pool₁.disk.readPage id) false = pool' ∧ idx = k := by
        simpa using h
      obtain ⟨hacquired, hf₁, hs₁⟩ := acquireFrame_some hf hs hacq
      have htable₁ := hacquired.table id htable
      refine ⟨hf₁.install hacquired.invalid htable₁ _ _, ?_⟩
      have hread : store.setPage id (pool₁.disk.readPage id) = store := by
        simp only [DiskManager.readPage, hs₁.onDisk id hid htable₁, PageStore.setPage,
          Function.update_eq_self]
      have hshows : (pool₁.install idx id (pool₁.disk.readPage id) false).Shows
          (⟨id, idx, false⟩ :: pins) (store.setPage id (pool₁.disk.readPage id)) :=
        Shows.install hf₁ hs₁ htable₁ hid fun _ => rfl
      rwa [hread] at hshows

theorem fetchPage_none (hf : pool.Frames pins none) {id : Int} {pool' : BufferPool n}
    (h : pool.fetchPage id = (pool', none)) : pool' = pool ∧ ∀ k, 0 < (pool.frames k).pinCount := by
  cases htable : pool.table id with
  | some idx =>
    rw [BufferPool.fetchPage_hit htable] at h
    simp at h
  | none =>
    rw [fetchPage_miss htable] at h
    split at h
    · rename_i pool₁ hacq
      obtain rfl : pool₁ = pool' := by simpa using h
      exact acquireFrame_none hf hacq
    · simp at h

theorem newPage_some (hf : pool.Frames pins none) (hs : pool.Shows pins store)
    {pool' : BufferPool n} {k : Fin n} {id : Int} (h : pool.newPage = (pool', some (k, id))) :
    id = store.numPages ∧ (pool'.frames k).page = Page.init ∧
    pool'.Frames (⟨id, k, false⟩ :: pins) none ∧
    pool'.Shows (⟨id, k, false⟩ :: pins) store.newPage.1 := by
  have hs₀ := hs.allocatePage
  have hf₀ : BufferPool.Frames { pool with disk := pool.disk.allocatePage.1 } pins none := { hf with }
  unfold newPage at h
  simp only at h
  split at h
  · simp at h
  · rename_i pool₁ idx hacq
    obtain ⟨rfl, rfl, rfl⟩ : pool₁.install idx pool.disk.allocatePage.2 Page.init true = pool' ∧
        idx = k ∧ pool.disk.allocatePage.2 = id := by simpa using h
    have hid : pool.disk.allocatePage.2 = store.numPages := by
      simp [DiskManager.allocatePage, hs.numPages]
    obtain ⟨hacquired, hf₁, hs₁⟩ := acquireFrame_some hf₀ hs₀ hacq
    have htable : pool.table store.numPages = none := by
      cases hk : pool.table store.numPages with
      | none => rfl
      | some k =>
        obtain ⟨hvalid, hk⟩ := (hf.table _ k).mp hk
        have := (hs.allocated k hvalid).2
        omega
    have htable₁ := hacquired.table _ htable
    have hrange : store.allocate.Allocated store.numPages := by
      simp only [PageStore.Allocated, PageStore.allocate]
      omega
    rw [hid]
    refine ⟨rfl, by simp [BufferPool.install, BufferPool.setFrame],
      hf₁.install hacquired.invalid htable₁ _ _, ?_⟩
    rw [PageStore.newPage_eq]
    exact Shows.install hf₁ hs₁ htable₁ hrange (by simp)

theorem newPage_none (hf : pool.Frames pins none) (hs : pool.Shows pins store)
    {pool' : BufferPool n} (h : pool.newPage = (pool', none)) :
    (∀ k, 0 < (pool.frames k).pinCount) ∧ pool'.Frames pins none ∧
    pool'.Shows pins store.allocate := by
  have hs₀ := hs.allocatePage
  have hf₀ : BufferPool.Frames { pool with disk := pool.disk.allocatePage.1 } pins none := { hf with }
  unfold newPage at h
  simp only at h
  split at h
  · rename_i pool₁ hacq
    obtain rfl : pool₁ = pool' := by simpa using h
    obtain ⟨rfl, hall⟩ := acquireFrame_none hf₀ hacq
    exact ⟨hall, hf₀, hs₀⟩
  · simp at h

end BufferPool

structure CachedPages (n : Nat) where
  pool : BufferPool n
  pins : List (Pin n)
  store : PageStore

inductive PoolStep (n : Nat)
  | fetchPage (id : Int)
  | newPage
  | modify (pin : Pin n) (p : Page)
  | unpin (pin : Pin n) (dirty : Bool)
  | flush (id : Int)
  | flushAll

namespace CachedPages
open BufferPool

/-- The pool takes its step, and the page store the one it stands for. -/
def step (s : CachedPages n) : PoolStep n → CachedPages n
  | .fetchPage id =>
    match s.pool.fetchPage id with
    | (pool, none) => { s with pool }
    | (pool, some frame) => { s with pool, pins := ⟨id, frame, false⟩ :: s.pins }
  | .newPage =>
    match s.pool.newPage with
    | (pool, none) => { s with pool, store := s.store.allocate }
    | (pool, some (frame, id)) =>
      { pool, pins := ⟨id, frame, false⟩ :: s.pins, store := s.store.newPage.1 }
  | .modify pin p =>
    { pool := s.pool.setPage pin.frame p
      pins := { pin with modified := true } :: s.pins.erase pin
      store := s.store.setPage pin.id p }
  | .unpin pin dirty =>
    { s with pool := (s.pool.unpin pin.id dirty).1, pins := s.pins.erase pin }
  | .flush id => { s with pool := (s.pool.flush id).1 }
  | .flushAll => { s with pool := s.pool.flushAll }

instance (s : PageStore) (id : Int) : Decidable (s.Allocated id) :=
  inferInstanceAs (Decidable (0 ≤ id ∧ id < s.numPages))

/-- Callers name allocated pages only, write to pages they hold, give back what they hold
and say so when they wrote to it. -/
def Disciplined (s : CachedPages n) : PoolStep n → Prop
  | .fetchPage id | .flush id => s.store.Allocated id
  | .newPage | .flushAll => True
  | .modify pin _ => pin ∈ s.pins
  | .unpin pin dirty => pin ∈ s.pins ∧ (pin.modified = true → dirty = true)

instance (s : CachedPages n) : (o : PoolStep n) → Decidable (s.Disciplined o)
  | .fetchPage id | .flush id => inferInstanceAs (Decidable (s.store.Allocated id))
  | .newPage | .flushAll => isTrue trivial
  | .modify pin _ => inferInstanceAs (Decidable (pin ∈ s.pins))
  | .unpin pin dirty =>
    inferInstanceAs (Decidable (pin ∈ s.pins ∧ (pin.modified = true → dirty = true)))

structure Good (s : CachedPages n) : Prop where
  frames : s.pool.Frames s.pins none
  shows : s.pool.Shows s.pins s.store

def start (disk : DiskManager) (numFrames : Nat) : CachedPages (frameCount numFrames) :=
  ⟨.new disk numFrames, [], ⟨disk.page, disk.numPages⟩⟩

theorem good_start (disk : DiskManager) (numFrames : Nat) : (start disk numFrames).Good := by
  constructor
  · constructor <;> simp [start, BufferPool.new]
    exact List.nodup_finRange _
  · constructor <;> simp [start, BufferPool.new]

theorem Good.step {s : CachedPages n} (h : s.Good) {o : PoolStep n} (ho : s.Disciplined o) :
    (s.step o).Good := by
  cases o with
  | fetchPage id =>
    simp only [CachedPages.step]
    split
    · rename_i pool' hfetch
      obtain ⟨rfl, -⟩ := fetchPage_none h.frames hfetch
      exact h
    · rename_i pool' k hfetch
      obtain ⟨hf, hs⟩ := fetchPage_some h.frames h.shows ho hfetch
      exact ⟨hf, hs⟩
  | newPage =>
    simp only [CachedPages.step]
    split
    · rename_i pool' hnew
      obtain ⟨-, hf, hs⟩ := newPage_none h.frames h.shows hnew
      exact ⟨hf, hs⟩
    · rename_i pool' k id hnew
      obtain ⟨-, -, hf, hs⟩ := newPage_some h.frames h.shows hnew
      exact ⟨hf, hs⟩
  | modify pin p => exact ⟨h.frames.setPage ho p, Shows.setPage h.frames h.shows ho p⟩
  | unpin pin dirty => exact ⟨h.frames.unpin ho.1 dirty, Shows.unpin h.frames h.shows ho.1 ho.2⟩
  | flush id =>
    simp only [CachedPages.step, BufferPool.flush, findFrame]
    split
    · exact h
    · rename_i k htable
      have hvalid := ((h.frames.table id k).mp htable).1
      exact ⟨h.frames.writeBack hvalid, Shows.writeBack h.frames h.shows hvalid⟩
  | flushAll =>
    obtain ⟨hf, hs⟩ := flush_all_kept h.frames h.shows
    exact ⟨hf, hs⟩

theorem good_run (disk : DiskManager) (numFrames : Nat)
    {ops : List (PoolStep (frameCount numFrames))}
    (h : AllSteps step Disciplined (start disk numFrames) ops) :
    (run step (start disk numFrames) ops).Good :=
  (run_invariant Good (fun _ _ hgood ho => hgood.step ho) (good_start disk numFrames) h).last

/-! ## What a good pool gives its callers -/

/-- A frame that is pinned keeps its page over a step. -/
theorem Good.pinned_kept {s : CachedPages n} (h : s.Good) {o : PoolStep n} (ho : s.Disciplined o)
    {k : Fin n} (hk : 0 < (s.pool.frames k).pinCount) :
    ((s.step o).pool.frames k).valid = true ∧
      ((s.step o).pool.frames k).pageId = (s.pool.frames k).pageId := by
  obtain ⟨pin, hpin, hframe⟩ : ∃ pin ∈ s.pins, pin.frame = k := by
    rw [h.frames.pinCount, List.countP_pos_iff] at hk
    simpa using hk
  subst hframe
  obtain ⟨hvalid, hid⟩ := h.frames.pinned pin hpin
  -- it is enough that some pin of the next state is on this page in this frame
  have hkeep : (∃ pin' ∈ (s.step o).pins, pin'.frame = pin.frame ∧ pin'.id = pin.id) →
      ((s.step o).pool.frames pin.frame).valid = true ∧
        ((s.step o).pool.frames pin.frame).pageId = (s.pool.frames pin.frame).pageId := by
    rintro ⟨pin', hpin', hframe', hid'⟩
    have := (h.step ho).frames.pinned pin' hpin'
    rw [hframe', hid'] at this
    rw [hid]
    exact this
  cases o with
  | fetchPage id =>
    refine hkeep ⟨pin, ?_, rfl, rfl⟩
    simp only [CachedPages.step]
    split
    · exact hpin
    · exact List.mem_cons_of_mem _ hpin
  | newPage =>
    refine hkeep ⟨pin, ?_, rfl, rfl⟩
    simp only [CachedPages.step]
    split
    · exact hpin
    · exact List.mem_cons_of_mem _ hpin
  | modify pin' p =>
    by_cases hsame : pin = pin'
    · subst hsame
      exact hkeep ⟨_, List.mem_cons_self, rfl, rfl⟩
    · exact hkeep ⟨pin, List.mem_cons_of_mem _ ((List.mem_erase_of_ne hsame).mpr hpin), rfl, rfl⟩
  | unpin pin' dirty =>
    obtain ⟨hvalid', hid'⟩ := h.frames.pinned pin' ho.1
    have hstep : ∀ k, ((s.pool.unpin pin'.id dirty).1.frames k).valid = (s.pool.frames k).valid ∧
        ((s.pool.unpin pin'.id dirty).1.frames k).pageId = (s.pool.frames k).pageId := by
      intro k
      rw [unpin_eq ((h.frames.table _ _).mpr ⟨hvalid', hid'⟩)]
      simp only
      split <;>
      · simp only [touchUnpinned, setFrame, Function.update_apply]
        split
        · rename_i heq
          exact ⟨heq ▸ rfl, heq ▸ rfl⟩
        · exact ⟨rfl, rfl⟩
    exact ⟨(hstep pin.frame).1.trans hvalid, (hstep pin.frame).2⟩
  | flush id =>
    refine hkeep ⟨pin, ?_, rfl, rfl⟩
    simpa [CachedPages.step] using hpin
  | flushAll =>
    refine hkeep ⟨pin, ?_, rfl, rfl⟩
    simpa [CachedPages.step] using hpin

/-- Every frame is in exactly one of the free list, the LRU list and the pinned set. -/
theorem Good.frame_cases {s : CachedPages n} (h : s.Good) (k : Fin n) :
    (k ∈ s.pool.freeList ∧ k ∉ s.pool.lru.map Prod.snd ∧ (s.pool.frames k).pinCount = 0) ∨
    (k ∉ s.pool.freeList ∧ k ∈ s.pool.lru.map Prod.snd ∧ (s.pool.frames k).pinCount = 0) ∨
    (k ∉ s.pool.freeList ∧ k ∉ s.pool.lru.map Prod.snd ∧ 0 < (s.pool.frames k).pinCount) := by
  rw [h.frames.free, h.frames.lru]
  have hpinned := h.frames.valid_of_pinCount (k := k)
  cases hvalid : (s.pool.frames k).valid with
  | false =>
    have hcount : (s.pool.frames k).pinCount = 0 := by
      by_contra hne
      simp [hvalid] at hpinned
      exact hne hpinned
    simp [hcount]
  | true =>
    rcases Nat.eq_zero_or_pos (s.pool.frames k).pinCount with hcount | hcount
    · simp [hcount]
    · simp [hcount, hcount.ne']

end CachedPages

end Relite.Backend
