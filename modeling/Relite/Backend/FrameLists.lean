import Mathlib.Data.List.Nodup
import Relite.Backend.BufferPool

/-!
# The lists of frames

A frame is on the free list, on the LRU list or pinned, and on no list twice. Whose page is
where, and who has pinned it, does not matter for that.
-/
namespace Relite.Backend

variable {n : Nat}

/-- The lists of a pool between two calls, or inside one while the frame `hole` is in neither
list. -/
structure BufferPool.Listed (pool : BufferPool n) (hole : Option (Fin n)) : Prop where
  free : ∀ k, k ∈ pool.freeList ↔ (pool.frames k).valid = false ∧ hole ≠ some k
  freeNodup : pool.freeList.Nodup
  lru : ∀ k, k ∈ pool.lru.map Prod.snd ↔
    (pool.frames k).valid = true ∧ (pool.frames k).pinCount = 0 ∧ hole ≠ some k
  lruNodup : (pool.lru.map Prod.snd).Nodup
  lruPos : ∀ k node, pool.lruPos k = some node ↔ (node, k) ∈ pool.lru
  nodes : ∀ e ∈ pool.lru, e.1 < pool.nextNode
  nodesNodup : (pool.lru.map Prod.fst).Nodup

namespace BufferPool
variable {pool : BufferPool n} {hole : Option (Fin n)}

theorem listed_new (disk : DiskManager) (numFrames : Nat) : (new disk numFrames).Listed none where
  free := by simp [new]
  freeNodup := List.nodup_finRange _
  lru := by simp [new]
  lruNodup := List.nodup_nil
  lruPos := by simp [new]
  nodes := by simp [new]
  nodesNodup := List.nodup_nil

namespace Listed

theorem node_unique (h : pool.Listed hole) {node : Nat} {k k' : Fin n}
    (hk : (node, k) ∈ pool.lru) (hk' : (node, k') ∈ pool.lru) : k = k' :=
  congrArg Prod.snd (List.inj_on_of_nodup_map h.nodesNodup hk hk' rfl)

/-! ## Taking a frame -/

theorem popFree (h : pool.Listed none) {idx : Fin n} {rest : List (Fin n)}
    (hfree : pool.freeList = idx :: rest) :
    BufferPool.Listed { pool with freeList := rest } (some idx) ∧
      (pool.frames idx).valid = false := by
  have hnodup := h.freeNodup
  rw [hfree, List.nodup_cons] at hnodup
  have hidx : (pool.frames idx).valid = false := ((h.free idx).mp (by simp [hfree])).1
  refine ⟨{ h with free := ?_, freeNodup := hnodup.2, lru := ?_ }, hidx⟩
  · intro k
    have hk := h.free k
    rw [hfree, List.mem_cons] at hk
    by_cases heq : k = idx
    · subst heq
      simp [hnodup.1]
    · simpa [heq, Ne.symm heq] using hk
  · intro k
    have hk := h.lru k
    by_cases heq : k = idx
    · subst heq
      simpa [hidx] using hk
    · simpa [Ne.symm heq] using hk

theorem popLru (h : pool.Listed none) {node : Nat} {victim : Fin n}
    {rest : List (Nat × Fin n)} (hlru : pool.lru = (node, victim) :: rest) :
    BufferPool.Listed { pool with
      lru := rest, lruPos := Function.update pool.lruPos victim none } (some victim) := by
  have hvalid : (pool.frames victim).valid = true := ((h.lru victim).mp (by simp [hlru])).1
  have hnodup := h.lruNodup
  have hnodes := h.nodesNodup
  rw [hlru, List.map_cons, List.nodup_cons] at hnodup hnodes
  refine { h with free := ?_, lru := ?_, lruNodup := hnodup.2, lruPos := ?_, nodes := ?_,
                  nodesNodup := hnodes.2 }
  · intro k
    have hk := h.free k
    by_cases heq : k = victim
    · subst heq
      simpa [hvalid] using hk
    · simpa [Ne.symm heq] using hk
  · intro k
    by_cases heq : k = victim
    · subst heq
      simp [hnodup.1]
    · have hk := h.lru k
      rw [hlru, List.map_cons, List.mem_cons, or_iff_right heq] at hk
      simpa [Ne.symm heq] using hk
  · intro k node'
    simp only [Function.update_apply]
    by_cases heq : k = victim
    · subst heq
      simp only [if_true, reduceCtorEq, false_iff]
      exact fun hmem => hnodup.1 (List.mem_map.mpr ⟨_, hmem, rfl⟩)
    · have hk := h.lruPos k node'
      rw [hlru, List.mem_cons, or_iff_right (fun he => heq (Prod.mk.inj he).2)] at hk
      simpa [heq] using hk
  · intro e he
    exact h.nodes e (by rw [hlru]; exact List.mem_cons_of_mem _ he)

/-- Emptying the frame that is in no list. -/
theorem evict {victim : Fin n} (h : pool.Listed (some victim)) :
    (pool.evict victim).Listed (some victim) := by
  have hframe : ∀ k, k ≠ victim → (pool.evict victim).frames k = pool.frames k := by
    intro k hk
    simp [BufferPool.evict, hk]
  refine { freeNodup := h.freeNodup, lruNodup := h.lruNodup, lruPos := h.lruPos, nodes := h.nodes,
           nodesNodup := h.nodesNodup, free := ?_, lru := ?_ }
  · intro k
    by_cases hk : k = victim
    · subst hk
      have := h.free k
      simpa [BufferPool.evict] using this
    · rw [hframe k hk]
      exact h.free k
  · intro k
    by_cases hk : k = victim
    · subst hk
      have := h.lru k
      simpa [BufferPool.evict] using this
    · rw [hframe k hk]
      exact h.lru k

/-- The frame that is in no list is handed out, and is pinned from then on. -/
theorem install {idx : Fin n} (h : pool.Listed (some idx)) (id : Int) (page : Page)
    (dirty : Bool) : (pool.install idx id page dirty).Listed none := by
  refine { freeNodup := h.freeNodup, lruNodup := h.lruNodup, lruPos := h.lruPos, nodes := h.nodes,
           nodesNodup := h.nodesNodup, free := ?_, lru := ?_ } <;>
    simp only [BufferPool.install, BufferPool.setFrame, Function.update_apply]
  · intro k
    have := h.free k
    by_cases hk : k = idx
    · subst hk
      simpa using this
    · simpa [hk, Ne.symm hk] using this
  · intro k
    have := h.lru k
    by_cases hk : k = idx
    · subst hk
      simpa using this
    · simpa [hk, Ne.symm hk] using this

/-! ## Changing a frame that holds a page -/

/-- A frame that keeps its page enters or leaves the lists only as `hole`. -/
theorem setFrame (h : pool.Listed hole) {k : Fin n} {f : Frame} {hole' : Option (Fin n)}
    (hvalid : (pool.frames k).valid = true) (hfvalid : f.valid = true)
    (hlisted : ((pool.frames k).pinCount = 0 ∧ hole ≠ some k) ↔ f.pinCount = 0 ∧ hole' ≠ some k)
    (hhole : ∀ k', k' ≠ k → hole ≠ some k' ∧ hole' ≠ some k') :
    (pool.setFrame k f).Listed hole' := by
  have hself : (pool.setFrame k f).frames k = f := by simp [BufferPool.setFrame]
  have hframe : ∀ k', k' ≠ k → (pool.setFrame k f).frames k' = pool.frames k' := by
    intro k' hk
    simp [BufferPool.setFrame, hk]
  refine { freeNodup := h.freeNodup, lruNodup := h.lruNodup, lruPos := h.lruPos, nodes := h.nodes,
           nodesNodup := h.nodesNodup, free := ?_, lru := ?_ }
  · intro k'
    refine (h.free k').trans ?_
    by_cases hk : k' = k
    · subst hk
      simp [hself, hvalid, hfvalid]
    · simp [hframe k' hk, hhole k' hk]
  · intro k'
    refine (h.lru k').trans ?_
    by_cases hk : k' = k
    · subst hk
      rw [hself, hvalid, hfvalid, hlisted]
    · simp [hframe k' hk, hhole k' hk]

/-- A pinned frame is in no list, and any other one leaves the LRU list. -/
theorem unlink (h : pool.Listed none) {k : Fin n} (hvalid : (pool.frames k).valid = true) :
    (if (pool.frames k).pinCount = 0 then pool.removeFromLru k else pool).Listed (some k) := by
  have hfree : ∀ k', k' ∈ pool.freeList ↔ (pool.frames k').valid = false ∧ some k ≠ some k' := by
    intro k'
    refine (h.free k').trans ?_
    by_cases hk : k' = k
    · subst hk
      simp [hvalid]
    · simp [Ne.symm hk]
  split
  · rename_i hcount
    obtain ⟨⟨node, _⟩, hnode, rfl⟩ :=
      List.mem_map.mp ((h.lru k).mpr ⟨hvalid, hcount, by simp⟩)
    rename_i k
    have hpos := (h.lruPos k node).mpr hnode
    -- the list gives up the node of this frame and no other
    have hmem : ∀ e, e ∈ pool.lru.filter (fun e => e.1 ≠ node) ↔ e ∈ pool.lru ∧ e.2 ≠ k := by
      intro e
      simp only [List.mem_filter, decide_eq_true_eq]
      refine and_congr_right fun he => not_congr ⟨?_, ?_⟩
      · rintro rfl
        exact h.node_unique he hnode
      · rintro rfl
        exact congrArg Prod.fst (List.inj_on_of_nodup_map h.lruNodup he hnode rfl)
    simp only [removeFromLru, hpos]
    refine { h with free := hfree, lru := ?_, lruPos := ?_, nodes := ?_,
                    lruNodup := h.lruNodup.sublist (List.filter_sublist.map _),
                    nodesNodup := h.nodesNodup.sublist (List.filter_sublist.map _) }
    · intro k'
      simp only [List.mem_map, hmem]
      by_cases hk : k' = k
      · subst hk
        simp
      · refine Iff.trans ⟨?_, ?_⟩ ((h.lru k').trans (by simp [Ne.symm hk]))
        · rintro ⟨e, ⟨he, -⟩, rfl⟩
          exact List.mem_map.mpr ⟨e, he, rfl⟩
        · intro he
          obtain ⟨e, hin, rfl⟩ := List.mem_map.mp he
          exact ⟨e, ⟨hin, hk⟩, rfl⟩
    · intro k' node'
      refine Iff.trans ?_ (hmem (node', k')).symm
      simp only [Function.update_apply]
      split
      · rename_i hk
        simp [hk]
      · rename_i hk
        rw [and_iff_left hk]
        exact h.lruPos k' node'
    · intro e he
      exact h.nodes e ((hmem e).mp he).1
  · rename_i hcount
    refine { h with free := hfree, lru := ?_ }
    intro k'
    refine (h.lru k').trans ?_
    by_cases hk : k' = k
    · subst hk
      simp [hcount]
    · simp [Ne.symm hk]

theorem touchUnpinned {k : Fin n} (h : pool.Listed (some k))
    (hvalid : (pool.frames k).valid = true) (hcount : (pool.frames k).pinCount = 0) :
    (pool.touchUnpinned k).Listed none := by
  have habsent : k ∉ pool.lru.map Prod.snd := fun hk => ((h.lru k).mp hk).2.2 rfl
  refine { h with free := ?_, lru := ?_, lruNodup := ?_, lruPos := ?_, nodes := ?_,
                  nodesNodup := ?_ } <;>
    simp only [BufferPool.touchUnpinned, List.map_append, List.map_cons, List.map_nil]
  · intro k'
    refine (h.free k').trans ?_
    by_cases hk : k' = k
    · subst hk
      simp [hvalid]
    · simp [Ne.symm hk]
  · intro k'
    rw [List.mem_append, List.mem_singleton, h.lru]
    by_cases hk : k' = k
    · subst hk
      simp [hvalid, hcount]
    · simp [hk, Ne.symm hk]
  · exact h.lruNodup.append (List.nodup_singleton k) (List.disjoint_singleton.mpr habsent)
  · intro k' node
    have hk' := h.lruPos k' node
    simp only [Function.update_apply, List.mem_append, List.mem_singleton, Prod.mk.injEq]
    by_cases hk : k' = k
    · subst hk
      have hnot : (node, k') ∉ pool.lru := fun hmem => habsent (List.mem_map.mpr ⟨_, hmem, rfl⟩)
      simp [hnot, eq_comm]
    · simp [hk, hk']
  · intro e he
    rcases List.mem_append.mp he with he | he
    · exact Nat.lt_succ_of_lt (h.nodes e he)
    · rw [List.mem_singleton.mp he]
      exact Nat.lt_succ_self _
  · refine h.nodesNodup.append (List.nodup_singleton _) (List.disjoint_singleton.mpr fun hn => ?_)
    obtain ⟨e, he, hnode⟩ := List.mem_map.mp hn
    exact absurd (h.nodes e he) (by simp [hnode])

end Listed

/-! ## What the calls come to -/

theorem acquireFrame_free {idx : Fin n} {rest : List (Fin n)} (hfree : pool.freeList = idx :: rest) :
    pool.acquireFrame = ({ pool with freeList := rest }, some idx) := by
  simp [acquireFrame, hfree]

theorem acquireFrame_lru (hfree : pool.freeList = []) {node : Nat} {victim : Fin n}
    {rest : List (Nat × Fin n)} (hlru : pool.lru = (node, victim) :: rest) :
    pool.acquireFrame =
      (BufferPool.evict { pool with
        lru := rest, lruPos := Function.update pool.lruPos victim none } victim, some victim) := by
  simp [acquireFrame, hfree, hlru]

theorem fetchPage_hit {id : Int} {idx : Fin n} (htable : pool.table id = some idx) :
    pool.fetchPage id =
      ((if (pool.frames idx).pinCount = 0 then pool.removeFromLru idx else pool).setFrame idx
        { pool.frames idx with pinCount := (pool.frames idx).pinCount + 1 }, some idx) := by
  simp [fetchPage, findFrame, htable]

theorem fetchPage_miss {id : Int} (htable : pool.table id = none) :
    pool.fetchPage id =
      match pool.acquireFrame with
      | (pool, none) => (pool, none)
      | (pool, some idx) => (pool.install idx id (pool.disk.readPage id) false, some idx) := by
  unfold fetchPage findFrame
  rw [htable] <;> rfl

theorem unlink_eq (pool : BufferPool n) (k : Fin n) :
    let q := if (pool.frames k).pinCount = 0 then pool.removeFromLru k else pool
    q.frames = pool.frames ∧ q.table = pool.table ∧ q.disk = pool.disk := by
  intro q
  by_cases hcount : (pool.frames k).pinCount = 0
  · have hq : q = pool.removeFromLru k := if_pos hcount
    rw [hq, removeFromLru]
    split <;> exact ⟨rfl, rfl, rfl⟩
  · have hq : q = pool := if_neg hcount
    rw [hq]
    exact ⟨rfl, rfl, rfl⟩

theorem unpin_eq {id : Int} {idx : Fin n} (htable : pool.table id = some idx) (dirty : Bool) :
    (pool.unpin id dirty).1 =
      let f := pool.frames idx
      let q := pool.setFrame idx { f with dirty := f.dirty || dirty, pinCount := f.pinCount - 1 }
      if f.pinCount - 1 = 0 then q.touchUnpinned idx else q := by
  simp [unpin, findFrame, htable]

end BufferPool

end Relite.Backend
