import Mathlib.Algebra.BigOperators.Fin
import Relite.Lib.Program
import Relite.Backend.FrameLists

/-!
# Programs that pin pages

What the components do with the pool, call by call. A program that gives back each page before
it asks for the next one finds a frame whenever it asks, however few frames there are.
-/
namespace Relite.Backend
open Lib

variable {n : Nat} {ε α β : Type}

/-- A call of the pool, or a write through the pointer that one gave. -/
inductive PoolCall (n : Nat)
  | fetchPage (id : Int)
  | newPage
  | unpin (id : Int) (dirty : Bool)
  | setPage (frame : Fin n) (p : Page)
  | flush (id : Int)
  | flushAll

/-- The frame that a call gives, and the page in it. The others give none. -/
abbrev PoolAnswer (n : Nat) := Option (Fin n × Int)

namespace PoolCall

def apply : PoolCall n → BufferPool n → BufferPool n × PoolAnswer n
  | fetchPage id, pool => ((pool.fetchPage id).1, (pool.fetchPage id).2.map fun k => (k, id))
  | newPage, pool => pool.newPage
  | unpin id dirty, pool => ((pool.unpin id dirty).1, none)
  | setPage frame p, pool => (pool.setPage frame p, none)
  | flush id, pool => ((pool.flush id).1, none)
  | flushAll, pool => (pool.flushAll, none)

def asksForFrame : PoolCall n → Bool
  | fetchPage _ => true
  | newPage => true
  | unpin _ _ => false
  | setPage _ _ => false
  | flush _ => false
  | flushAll => false

end PoolCall

abbrev PoolProg (n : Nat) (ε α : Type) := Prog (BufferPool n) (PoolCall n) (PoolAnswer n) ε α

namespace PoolProg

def fetchPage (id : Int) : PoolProg n ε (Option (Fin n)) := do
  return (← Prog.perform (.fetchPage id)).map Prod.fst

def newPage : PoolProg n ε (Option (Fin n × Int)) := Prog.perform .newPage

def unpin (id : Int) (dirty : Bool) : PoolProg n ε Unit := do
  let _ ← Prog.perform (.unpin id dirty)
  return ()

/-- Reading and writing through the pointer to a frame. -/
def page (frame : Fin n) : PoolProg n ε Page := do return ((← Prog.get).frames frame).page

def setPage (frame : Fin n) (p : Page) : PoolProg n ε Unit := do
  let _ ← Prog.perform (.setPage frame p)
  return ()

def flush (id : Int) : PoolProg n ε Unit := do
  let _ ← Prog.perform (.flush id)
  return ()

def flushAll : PoolProg n ε Unit := do
  let _ ← Prog.perform .flushAll
  return ()

/-- The scope of a `PageGuard`, which says what it returns and whether the page was marked dirty.
The page is unpinned where the scope is left. -/
def guarded (id : Int) (scope : PoolProg n ε (α × Bool)) : PoolProg n ε α := do
  let (a, dirty) ← scope
  unpin id dirty
  return a

end PoolProg

namespace BufferPool

/-- How many pins there are, on whichever pages. -/
def pinned (pool : BufferPool n) : Nat := ∑ k, (pool.frames k).pinCount

/-- The pool while no page is pinned but `pin`, and none twice. A page that was fetched before it
was allocated may be in two frames, of which the table knows one at most. -/
structure Balanced (pool : BufferPool n) (pin : Option (Int × Fin n)) (hole : Option (Fin n)) : Prop
    extends pool.Listed hole where
  table : ∀ id k, pool.table id = some k →
    (pool.frames k).valid = true ∧ (pool.frames k).pageId = id
  pinned : ∀ p ∈ pin, pool.table p.1 = some p.2
  pinCount : ∀ k, (pool.frames k).pinCount = if pin.map Prod.snd = some k then 1 else 0

variable {pool : BufferPool n} {pin : Option (Int × Fin n)} {hole : Option (Fin n)}

theorem balanced_new (disk : DiskManager) (numFrames : Nat) :
    (new disk numFrames).Balanced none none :=
  { listed_new disk numFrames with
    table := by simp [new]
    pinned := by simp
    pinCount := by simp [new] }

namespace Balanced

theorem pinned_none (h : pool.Balanced none hole) : pool.pinned = 0 := by
  simp [BufferPool.pinned, h.pinCount]

theorem pinned_some {p : Int × Fin n} (h : pool.Balanced (some p) hole) : pool.pinned = 1 := by
  simp [BufferPool.pinned, h.pinCount]

theorem pinned_le (h : pool.Balanced pin hole) : pool.pinned ≤ 1 := by
  cases pin with
  | none => exact h.pinned_none.trans_le (Nat.zero_le 1)
  | some p => exact h.pinned_some.le

/-! ## What the calls keep -/

theorem of_disk (h : pool.Balanced pin hole) (disk : DiskManager) :
    BufferPool.Balanced { pool with disk } pin hole := { h with }

theorem evict {victim : Fin n} (h : pool.Balanced none (some victim))
    (hvalid : (pool.frames victim).valid = true) :
    (pool.evict victim).Balanced none (some victim) := by
  refine { h.toListed.evict with table := ?_, pinned := by simp, pinCount := ?_ }
  · intro id k htable
    simp only [BufferPool.evict, hvalid, if_true, Function.update_apply] at htable ⊢
    split at htable
    · cases htable
    · rename_i hid
      obtain ⟨hk, rfl⟩ := h.table id k htable
      rw [if_neg (fun hkv => hid (congrArg (fun j => (pool.frames j).pageId) hkv))]
      exact ⟨hk, rfl⟩
  · intro k
    simp only [BufferPool.evict, Function.update_apply]
    split
    · rfl
    · exact h.pinCount k

/-- With no page pinned there is a frame to be had. -/
theorem acquireFrame [NeZero n] (h : pool.Balanced none none) :
    ∃ pool' idx, pool.acquireFrame = (pool', some idx) ∧ pool'.Balanced none (some idx) ∧
      (pool'.frames idx).valid = false := by
  cases hfree : pool.freeList with
  | cons idx rest =>
    obtain ⟨hlisted, hinvalid⟩ := h.toListed.popFree hfree
    exact ⟨_, idx, acquireFrame_free hfree,
      { hlisted with table := h.table, pinned := h.pinned, pinCount := h.pinCount }, hinvalid⟩
  | nil =>
    cases hlru : pool.lru with
    | cons e rest =>
      obtain ⟨node, victim⟩ := e
      have hvalid : (pool.frames victim).valid = true := ((h.lru victim).mp (by simp [hlru])).1
      have hpop : BufferPool.Balanced { pool with
          lru := rest, lruPos := Function.update pool.lruPos victim none } none (some victim) :=
        { h.toListed.popLru hlru with
          table := h.table, pinned := h.pinned, pinCount := h.pinCount }
      exact ⟨_, victim, acquireFrame_lru hfree hlru, hpop.evict hvalid, by simp [BufferPool.evict]⟩
    | nil =>
      -- every frame would be in a list
      have hvalid : (pool.frames 0).valid = true := by simpa [hfree] using h.free 0
      have hlisted := (h.lru 0).mpr ⟨hvalid, by simp [h.pinCount 0], by simp⟩
      simp [hlru] at hlisted

theorem install {idx : Fin n} (h : pool.Balanced none (some idx))
    (hinvalid : (pool.frames idx).valid = false) (id : Int) (page : Page) (dirty : Bool) :
    (pool.install idx id page dirty).Balanced (some (id, idx)) none := by
  refine { h.toListed.install id page dirty with table := ?_, pinned := ?_, pinCount := ?_ } <;>
    simp only [BufferPool.install, BufferPool.setFrame, Function.update_apply]
  · intro id' k htable
    split at htable
    · rename_i hid
      cases htable
      exact ⟨by simp, by simp [hid]⟩
    · obtain ⟨hk, hid⟩ := h.table id' k htable
      have hne : k ≠ idx := by
        rintro rfl
        exact Bool.false_ne_true (hinvalid.symm.trans hk)
      rw [if_neg hne]
      exact ⟨hk, hid⟩
  · rintro p ⟨⟩
    simp
  · intro k
    by_cases hk : k = idx
    · simp [hk]
    · simp [hk, Ne.symm hk, h.pinCount k]

/-- Changing a frame that holds a page, but not which page it holds. -/
theorem setFrame (h : pool.Balanced pin hole) {k : Fin n} {f : Frame}
    {pin' : Option (Int × Fin n)} {hole' : Option (Fin n)} (hvalid : (pool.frames k).valid = true)
    (hfvalid : f.valid = true) (hid : f.pageId = (pool.frames k).pageId)
    (hlisted : ((pool.frames k).pinCount = 0 ∧ hole ≠ some k) ↔ f.pinCount = 0 ∧ hole' ≠ some k)
    (hhole : ∀ k', k' ≠ k → hole ≠ some k' ∧ hole' ≠ some k')
    (hpin : ∀ p ∈ pin', pool.table p.1 = some p.2)
    (hcount : f.pinCount = if pin'.map Prod.snd = some k then 1 else 0)
    (hother : ∀ k', k' ≠ k → (pin'.map Prod.snd = some k' ↔ pin.map Prod.snd = some k')) :
    (pool.setFrame k f).Balanced pin' hole' := by
  refine { h.toListed.setFrame hvalid hfvalid hlisted hhole with
           table := ?_, pinned := hpin, pinCount := ?_ } <;>
    simp only [BufferPool.setFrame, Function.update_apply]
  · intro id k' htable
    split
    · rename_i hk
      subst hk
      exact ⟨hfvalid, hid.trans (h.table id k' htable).2⟩
    · exact h.table id k' htable
  · intro k'
    split
    · rename_i hk
      subst hk
      exact hcount
    · rename_i hk
      rw [h.pinCount k', if_congr (hother k' hk) rfl rfl]

theorem fetchPage [NeZero n] (h : pool.Balanced none none) (id : Int) :
    ∃ k, (pool.fetchPage id).2 = some k ∧
      (pool.fetchPage id).1.Balanced (some (id, k)) none := by
  cases htable : pool.table id with
  | some k =>
    obtain ⟨hvalid, hid⟩ := h.table id k htable
    obtain ⟨hframes, htab, -⟩ := unlink_eq pool k
    have hunlink := h.toListed.unlink hvalid
    rw [fetchPage_hit htable]
    generalize (if (pool.frames k).pinCount = 0 then pool.removeFromLru k else pool) = q at *
    have hq : q.Balanced none (some k) :=
      { hunlink with
        table := by
          rw [hframes, htab]
          exact h.table
        pinned := by simp
        pinCount := by
          rw [hframes]
          exact h.pinCount }
    refine ⟨k, rfl, hq.setFrame (by rw [hframes]; exact hvalid) hvalid (by rw [hframes]) (by simp)
      ?_ ?_ ?_ ?_⟩
    · intro k' hk
      simp [Ne.symm hk]
    · rintro p ⟨⟩
      rw [htab]
      exact htable
    · simp [h.pinCount k]
    · intro k' hk
      simp [Ne.symm hk]
  | none =>
    obtain ⟨pool', idx, hacquire, hbalanced, hinvalid⟩ := h.acquireFrame
    rw [fetchPage_miss htable, hacquire]
    exact ⟨idx, rfl, hbalanced.install hinvalid _ _ _⟩

theorem newPage [NeZero n] (h : pool.Balanced none none) :
    ∃ k id, pool.newPage.2 = some (k, id) ∧ pool.newPage.1.Balanced (some (id, k)) none := by
  obtain ⟨pool', idx, hacquire, hbalanced, hinvalid⟩ :=
    (h.of_disk pool.disk.allocatePage.1).acquireFrame
  simp only [BufferPool.newPage, hacquire]
  exact ⟨idx, _, rfl, hbalanced.install hinvalid _ _ _⟩

theorem unpin {id : Int} {k : Fin n} (h : pool.Balanced (some (id, k)) none) (dirty : Bool) :
    (pool.unpin id dirty).1.Balanced none none := by
  have htable := h.pinned (id, k) rfl
  obtain ⟨hvalid, -⟩ := h.table id k htable
  have hcount : (pool.frames k).pinCount - 1 = 0 := by simp [h.pinCount k]
  rw [unpin_eq htable]
  simp only [hcount, if_true]
  have hset : (pool.setFrame k { pool.frames k with
      dirty := (pool.frames k).dirty || dirty, pinCount := 0 }).Balanced none (some k) :=
    h.setFrame hvalid hvalid rfl (by simp [h.pinCount k]) (fun k' hk => by simp [Ne.symm hk])
      (by simp) rfl fun k' hk => by simp [Ne.symm hk]
  exact { hset.toListed.touchUnpinned (by simp [BufferPool.setFrame, hvalid])
            (by simp [BufferPool.setFrame]) with
          table := hset.table, pinned := hset.pinned, pinCount := hset.pinCount }

theorem setPage {id : Int} {k : Fin n} (h : pool.Balanced (some (id, k)) none) (p : Page) :
    (pool.setPage k p).Balanced (some (id, k)) none :=
  have hvalid := (h.table id k (h.pinned (id, k) rfl)).1
  h.setFrame hvalid hvalid rfl Iff.rfl (by simp) h.pinned (h.pinCount k) fun _ _ => Iff.rfl

theorem writeBack (h : pool.Balanced none none) {k : Fin n}
    (hvalid : (pool.frames k).valid = true) : (pool.writeBack k).Balanced none none := by
  have hset : (pool.setFrame k { pool.frames k with dirty := false }).Balanced none none :=
    h.setFrame hvalid hvalid rfl Iff.rfl (by simp) h.pinned (h.pinCount k) fun _ _ => Iff.rfl
  exact hset.of_disk _

theorem flush (h : pool.Balanced none none) (id : Int) :
    (pool.flush id).1.Balanced none none := by
  simp only [BufferPool.flush, findFrame]
  cases htable : pool.table id with
  | none => exact h
  | some k => exact h.writeBack (h.table id k htable).1

theorem flushAll (h : pool.Balanced none none) : pool.flushAll.Balanced none none := by
  rw [BufferPool.flushAll]
  induction List.finRange n generalizing pool with
  | nil => exact h
  | cons k frames ih =>
    rw [List.foldl_cons]
    split
    · rename_i hk
      exact ih (h.writeBack (Bool.and_eq_true_iff.mp hk).1)
    · exact ih h

end Balanced

end BufferPool

/-! ## What a program leaves pinned -/

/-- A call around which one page is pinned at most, and which gives a frame if it is to give
one. -/
def OnePin (pool : BufferPool n) (c : PoolCall n) : Prop :=
  pool.pinned ≤ 1 ∧ (c.apply pool).1.pinned ≤ 1 ∧
    (c.asksForFrame = true → (c.apply pool).2.isSome = true)

/-- Begun with `pin` pinned, the program leaves `left` pinned when it returns, and no page when it
does not return. -/
def Leaves (pin : Option (Int × Fin n)) (x : PoolProg n ε α) (left : Option (Int × Fin n)) : Prop :=
  ∀ pool, pool.Balanced pin none → x.All PoolCall.apply OnePin pool ∧
    (x.run PoolCall.apply pool).2.Balanced
      ((x.run PoolCall.apply pool).1.toOption.bind fun _ => left) none

namespace Leaves

variable {pin left : Option (Int × Fin n)}

theorem ret (a : α) : Leaves pin (.ret a : PoolProg n ε α) pin := fun _ h => ⟨.ret, h⟩

theorem throw (e : ε) : Leaves none (.throw e : PoolProg n ε α) left :=
  fun _ h => ⟨fun _ hc => (by cases hc), h⟩

theorem bind {x : PoolProg n ε α} {f : α → PoolProg n ε β} {left' : Option (Int × Fin n)}
    (hx : Leaves pin x left) (hf : ∀ a, Leaves left (f a) left') :
    Leaves pin (x.bind f) left' := by
  intro pool h
  obtain ⟨hcalls, hrest⟩ := hx pool h
  rw [Prog.All.bind_iff, Prog.run_bind]
  generalize x.run PoolCall.apply pool = r at hrest
  obtain ⟨outcome, pool'⟩ := r
  cases outcome with
  | error e => exact ⟨⟨hcalls, fun _ _ he => (by cases he)⟩, hrest⟩
  | ok a =>
    obtain ⟨hcalls', hrest'⟩ := hf a pool' hrest
    exact ⟨⟨hcalls, fun _ _ he => by cases he; exact hcalls'⟩, hrest'⟩

/-- What a program reads in a frame does not matter. -/
theorem page_bind {frame : Fin n} {f : Page → PoolProg n ε α}
    (hf : ∀ p, Leaves pin (f p) left) : Leaves pin ((PoolProg.page frame).bind f) left :=
  fun pool h => hf (pool.frames frame).page pool h

theorem fetchPage_bind [NeZero n] {id : Int} {f : Option (Fin n) → PoolProg n ε α}
    (hf : ∀ k, Leaves (some (id, k)) (f (some k)) left) :
    Leaves none ((PoolProg.fetchPage id).bind f) left := by
  intro pool h
  obtain ⟨k, hk, hnext⟩ := h.fetchPage id
  have hcall : OnePin pool (.fetchPage id) :=
    ⟨h.pinned_le, hnext.pinned_le, fun _ => by simp [PoolCall.apply, hk]⟩
  have hrun : ((PoolProg.fetchPage id : PoolProg n ε _).run PoolCall.apply pool) =
      (.ok (some k), (pool.fetchPage id).1) := by
    simp [PoolProg.fetchPage, Prog.run_bind, PoolCall.apply, hk]
  rw [Prog.All.bind_iff, Prog.run_bind_ok _ hrun]
  obtain ⟨hcalls, hrest⟩ := hf k _ hnext
  refine ⟨⟨?_, fun a s' he => ?_⟩, hrest⟩
  · exact Prog.All.bind_iff.mpr ⟨.perform hcall, fun _ _ _ => .ret⟩
  · rw [hrun] at he
    cases he
    exact hcalls

theorem newPage_bind [NeZero n] {f : Option (Fin n × Int) → PoolProg n ε α}
    (hf : ∀ k id, Leaves (some (id, k)) (f (some (k, id))) left) :
    Leaves none (PoolProg.newPage.bind f) left := by
  intro pool h
  obtain ⟨k, id, hk, hnext⟩ := h.newPage
  have hcall : OnePin pool .newPage :=
    ⟨h.pinned_le, hnext.pinned_le, fun _ => by simp [PoolCall.apply, hk]⟩
  have hrun : ((PoolProg.newPage : PoolProg n ε _).run PoolCall.apply pool) =
      (.ok (some (k, id)), pool.newPage.1) := by
    simp [PoolProg.newPage, PoolCall.apply, hk]
  rw [Prog.All.bind_iff, Prog.run_bind_ok _ hrun]
  obtain ⟨hcalls, hrest⟩ := hf k id _ hnext
  refine ⟨⟨.perform hcall, fun a s' he => ?_⟩, hrest⟩
  rw [hrun] at he
  cases he
  exact hcalls

/-- A call that asks for no frame. -/
theorem perform_ret (c : PoolCall n) (hasks : c.asksForFrame = false)
    (hc : ∀ pool, pool.Balanced pin none → (c.apply pool).1.Balanced left none) (a : α) :
    Leaves pin ((Prog.perform c).bind fun _ => .ret a : PoolProg n ε α) left := by
  intro pool h
  have hcall : OnePin pool c :=
    ⟨h.pinned_le, (hc pool h).pinned_le, fun h => absurd (hasks.symm.trans h) Bool.false_ne_true⟩
  exact ⟨Prog.All.bind_iff.mpr ⟨.perform hcall, fun _ _ _ => .ret⟩, hc pool h⟩

theorem unpin {id : Int} {k : Fin n} (dirty : Bool) :
    Leaves (some (id, k)) (PoolProg.unpin id dirty : PoolProg n ε Unit) none :=
  perform_ret (.unpin id dirty) rfl (fun _ h => h.unpin dirty) ()

theorem setPage {id : Int} {k : Fin n} (p : Page) :
    Leaves (some (id, k)) (PoolProg.setPage k p : PoolProg n ε Unit) (some (id, k)) :=
  perform_ret (.setPage k p) rfl (fun _ h => h.setPage p) ()

theorem flush (id : Int) : Leaves none (PoolProg.flush id : PoolProg n ε Unit) none :=
  perform_ret (.flush id) rfl (fun _ h => h.flush id) ()

theorem flushAll : Leaves none (PoolProg.flushAll : PoolProg n ε Unit) none :=
  perform_ret .flushAll rfl (fun _ h => h.flushAll) ()

/-- A guard gives its page back. -/
theorem guarded {id : Int} {k : Fin n} {scope : PoolProg n ε (α × Bool)}
    (h : Leaves (some (id, k)) scope (some (id, k))) :
    Leaves (some (id, k)) (PoolProg.guarded id scope) none :=
  h.bind fun _ => (unpin _).bind fun _ => ret _

/-- A program that begins and ends without a pinned page. -/
theorem run {x : PoolProg n ε α} (h : Leaves none x none) {pool : BufferPool n}
    (hpool : pool.Balanced none none) :
    x.All PoolCall.apply OnePin pool ∧ (x.run PoolCall.apply pool).2.Balanced none none := by
  obtain ⟨hcalls, hrest⟩ := h pool hpool
  refine ⟨hcalls, ?_⟩
  cases hout : (x.run PoolCall.apply pool).1 <;> rw [hout] at hrest <;> exact hrest

end Leaves

end Relite.Backend
