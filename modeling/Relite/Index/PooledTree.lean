import Relite.Lib.Run
import Relite.Index.DiskBPlusTree
import Relite.Vm.PooledTables

/-!
# The B+ tree on the buffer pool

The operations of `DiskBPlusTree` as the pool sees them. A node is read and given back before
its child is read, so that a walk of any length, also one without an end, has one page pinned.
-/
namespace Relite.Pooled
open Lib Vm Backend PoolProg Txn

variable {n : Nat}

/-- Besides the faults of the tree itself, a page that the pool does not give: the source reads and
writes through the null pointer. -/
inductive PoolFault
  | NoPage
  | Node (fault : Fault)
  deriving DecidableEq, Repr

/-- What a tree keeps beside the pool. -/
structure DiskBPlusTree where
  rootId : Int := -1
  distinctKeys : Nat := 0

/-! ## Nodes -/

def decodeNode (p : Page) : NodeView :=
  let d := p.bytes
  let leaf := d 0 != 0
  let n := d.readLE 2 2
  let (entries, pos) := readEntries d n 8
  { leaf, nextLeaf := getI32 d 4, entries, children := if leaf then [] else readChildren d (n + 1) pos }

theorem readNode_eq (store : PageStore) (pageId : Int) :
    Relite.readNode store pageId = decodeNode (store.page pageId) := rfl

def readNode (pageId : Int) : PoolProg n PoolFault NodeView := do
  match ← fetchPage pageId with
  | none => .throw .NoPage
  | some frame => guarded pageId do return (decodeNode (← page frame), false)

def writeNode (pageId : Int) (view : NodeView) : PoolProg n PoolFault Unit :=
  if PAGE_SIZE < (encodeNode view).length then .throw (.Node .NodeTooLarge)
  else do
    match ← fetchPage pageId with
    | none => .throw .NoPage
    | some frame =>
      guarded pageId do
        setPage frame ⟨Page.zero.bytes.blit 0 (encodeNode view)⟩
        return ((), true)

/-- Gives the new page back at once, and fetches it again to write the node. -/
def allocNode (view : NodeView) : PoolProg n PoolFault Int := do
  let pid := (← newPage).elim (-1) Prod.snd
  unpin pid false
  writeNode pid view
  return pid

/-! ## Operations -/

/-- At most `fuel` nodes of the way down. -/
def findLeaf (e : Entry) : Nat → Int → List Int → PoolProg n PoolFault (Int × List Int)
  | 0, _, _ => .throw (.Node .Endless)
  | fuel + 1, cur, path => do
    let view ← readNode cur
    if view.leaf then return (cur, path)
    else
      let idx := (view.entries.takeWhile fun s => !entryLess e s).length
      findLeaf e fuel (view.children.getD idx (-1)) (cur :: path)

def firstLeaf : Nat → Int → PoolProg n PoolFault Int
  | 0, _ => .throw (.Node .Endless)
  | fuel + 1, cur => do
    let view ← readNode cur
    if view.leaf then return cur else firstLeaf fuel (view.children.headD (-1))

def insertLeaf (leafId : Int) (leaf : NodeView) (pos : Nat) (e : Entry) :
    PoolProg n PoolFault (Option (Entry × Int)) := do
  let entries := leaf.entries.insertIdx pos e
  if measure entries true ≤ PAGE_SIZE then
    writeNode leafId { leaf with entries }
    return none
  else
    let mid := entries.length / 2
    let right := entries.drop mid
    let rightId ← allocNode { entries := right, nextLeaf := leaf.nextLeaf }
    writeNode leafId { leaf with entries := entries.take mid, nextLeaf := rightId }
    return some (right.headD e, rightId)

def insertChild (parentId : Int) (up : Entry) (childId : Int) :
    PoolProg n PoolFault (Option (Entry × Int)) := do
  let parent ← readNode parentId
  let ip := (parent.entries.takeWhile fun s => entryLess s up).length
  let entries := parent.entries.insertIdx ip up
  let children := parent.children.insertIdx (ip + 1) childId
  if measure entries false ≤ PAGE_SIZE then
    writeNode parentId { parent with entries, children }
    return none
  else
    let pmid := entries.length / 2
    let sep := entries.getD pmid up
    let prightId ← allocNode
      { leaf := false, entries := entries.drop (pmid + 1), children := children.drop (pmid + 1) }
    writeNode parentId
      { parent with entries := entries.take pmid, children := children.take (pmid + 1) }
    return some (sep, prightId)

def climb : List Int → Option (Entry × Int) → PoolProg n PoolFault (Option (Entry × Int))
  | _, none => return none
  | [], some split => return some split
  | parentId :: path, some (up, childId) => do climb path (← insertChild parentId up childId)

namespace DiskBPlusTree

def insert (tree : DiskBPlusTree) (fuel : Nat) (key : Value) (rid : RecordID) :
    PoolProg n PoolFault DiskBPlusTree := do
  let e : Entry := (key, rid)
  if tree.rootId = -1 then
    let rootId ← allocNode { entries := [e] }
    return { rootId, distinctKeys := tree.distinctKeys + 1 }
  else
    let (leafId, path) ← findLeaf e fuel tree.rootId []
    let leaf ← readNode leafId
    let pos := (leaf.entries.takeWhile fun x => entryLess x e).length
    if leaf.entries[pos]?.any fun x => sameEntry x e then return tree
    else
      let newKey := !(leaf.entries[pos]?.any fun x => keyEqual x.1 key) &&
        !(decide (0 < pos) && leaf.entries[pos - 1]?.any fun x => keyEqual x.1 key)
      let distinctKeys := if newKey then tree.distinctKeys + 1 else tree.distinctKeys
      let split ← insertLeaf leafId leaf pos e
      match ← climb path split with
      | none => return { tree with distinctKeys }
      | some (up, childId) =>
        let newRoot : NodeView :=
          { leaf := false, entries := [up], children := [tree.rootId, childId] }
        let rootId ← allocNode newRoot
        return { rootId, distinctKeys }

def scan (lo hi : Option Value) :
    Nat → Int → List RecordID → PoolProg n PoolFault (List RecordID)
  | 0, _, _ => .throw (.Node .Endless)
  | fuel + 1, leafId, out =>
    if leafId = -1 then return out
    else do
      let leaf ← readNode leafId
      let (out, done) := Relite.DiskBPlusTree.scanLeaf lo hi leaf.entries out
      if done then return out else scan lo hi fuel leaf.nextLeaf out

def rangeScan (tree : DiskBPlusTree) (fuel : Nat) (lo hi : Option Value) :
    PoolProg n PoolFault (List RecordID) :=
  if tree.rootId = -1 then return []
  else
    match lo with
    | some key => do
      let (leafId, _) ← findLeaf (key, kMinRid) fuel tree.rootId []
      scan lo hi fuel leafId []
    | none => do
      let leafId ← firstLeaf fuel tree.rootId
      scan lo hi fuel leafId []

def range (tree : DiskBPlusTree) (fuel : Nat) (lo hi : Value) :
    PoolProg n PoolFault (List RecordID) :=
  rangeScan tree fuel (some lo) (some hi)

def lookup (tree : DiskBPlusTree) (fuel : Nat) (key : Value) :
    PoolProg n PoolFault (List RecordID) :=
  rangeScan tree fuel (some key) (some key)

def erase (tree : DiskBPlusTree) (fuel : Nat) (key : Value) (rid : RecordID) :
    PoolProg n PoolFault (DiskBPlusTree × Bool) :=
  if tree.rootId = -1 then return (tree, false)
  else do
    let (leafId, _) ← findLeaf (key, rid) fuel tree.rootId []
    let leaf ← readNode leafId
    match leaf.entries.findIdx? fun x => sameEntry x (key, rid) with
    | none => return (tree, false)
    | some i =>
      let hadPrev := decide (0 < i) && leaf.entries[i - 1]?.any fun x => keyEqual x.1 key
      let hadNext := leaf.entries[i + 1]?.any fun x => keyEqual x.1 key
      let distinctKeys :=
        if !hadPrev && !hadNext && decide (0 < tree.distinctKeys) then tree.distinctKeys - 1
        else tree.distinctKeys
      writeNode leafId { leaf with entries := leaf.entries.eraseIdx i }
      return ({ tree with distinctKeys }, true)

end DiskBPlusTree

/-! ## No operation leaves a page pinned -/

section

variable [NeZero n]

theorem readNode_leaves (pageId : Int) : Leaves none (readNode pageId : PoolProg n _ _) none :=
  .fetchPage_bind fun _ => .guarded (.page_bind fun _ => .ret _)

theorem writeNode_leaves (pageId : Int) (view : NodeView) :
    Leaves none (writeNode pageId view : PoolProg n _ _) none := by
  rw [writeNode]
  split
  · exact .throw _
  · exact .fetchPage_bind fun _ => .guarded ((Leaves.setPage _).bind fun _ => .ret _)

theorem allocNode_leaves (view : NodeView) :
    Leaves none (allocNode view : PoolProg n _ _) none :=
  .newPage_bind fun _ pid =>
    (Leaves.unpin _).bind fun _ => (writeNode_leaves pid view).bind fun _ => .ret _

theorem findLeaf_leaves (e : Entry) (fuel : Nat) (cur : Int) (path : List Int) :
    Leaves none (findLeaf e fuel cur path : PoolProg n _ _) none := by
  induction fuel generalizing cur path with
  | zero => exact .throw _
  | succ fuel ih =>
    refine (readNode_leaves cur).bind fun view => ?_
    split
    · exact .ret _
    · exact ih _ _

theorem firstLeaf_leaves (fuel : Nat) (cur : Int) :
    Leaves none (firstLeaf fuel cur : PoolProg n _ _) none := by
  induction fuel generalizing cur with
  | zero => exact .throw _
  | succ fuel ih =>
    refine (readNode_leaves cur).bind fun view => ?_
    split
    · exact .ret _
    · exact ih _

theorem insertLeaf_leaves (leafId : Int) (leaf : NodeView) (pos : Nat) (e : Entry) :
    Leaves none (insertLeaf leafId leaf pos e : PoolProg n _ _) none := by
  rw [insertLeaf]
  split
  · exact (writeNode_leaves _ _).bind fun _ => .ret _
  · exact (allocNode_leaves _).bind fun _ => (writeNode_leaves _ _).bind fun _ => .ret _

theorem insertChild_leaves (parentId : Int) (up : Entry) (childId : Int) :
    Leaves none (insertChild parentId up childId : PoolProg n _ _) none := by
  refine (readNode_leaves parentId).bind fun parent => ?_
  dsimp only
  split
  · exact (writeNode_leaves _ _).bind fun _ => .ret _
  · exact (allocNode_leaves _).bind fun _ => (writeNode_leaves _ _).bind fun _ => .ret _

theorem climb_leaves (path : List Int) (split : Option (Entry × Int)) :
    Leaves none (climb path split : PoolProg n _ _) none := by
  induction path generalizing split with
  | nil => cases split <;> exact .ret _
  | cons parentId path ih =>
    cases split with
    | none => exact .ret _
    | some up => exact (insertChild_leaves _ _ _).bind ih

namespace DiskBPlusTree

theorem insert_leaves (tree : DiskBPlusTree) (fuel : Nat) (key : Value) (rid : RecordID) :
    Leaves none (tree.insert fuel key rid : PoolProg n _ _) none := by
  rw [insert]
  split
  · exact (allocNode_leaves _).bind fun _ => .ret _
  · refine (findLeaf_leaves _ _ _ _).bind fun ⟨leafId, path⟩ =>
      (readNode_leaves _).bind fun leaf => ?_
    dsimp only
    split
    · exact .ret _
    · refine (insertLeaf_leaves _ _ _ _).bind fun split =>
        (climb_leaves _ _).bind fun above => ?_
      cases above with
      | none => exact .ret _
      | some up => exact (allocNode_leaves _).bind fun _ => .ret _

theorem scan_leaves (lo hi : Option Value) (fuel : Nat) (leafId : Int) (out : List RecordID) :
    Leaves none (scan lo hi fuel leafId out : PoolProg n _ _) none := by
  induction fuel generalizing leafId out with
  | zero => exact .throw _
  | succ fuel ih =>
    rw [scan]
    split
    · exact .ret _
    · refine (readNode_leaves _).bind fun leaf => ?_
      split
      split
      · exact .ret _
      · exact ih _ _

theorem rangeScan_leaves (tree : DiskBPlusTree) (fuel : Nat) (lo hi : Option Value) :
    Leaves none (tree.rangeScan fuel lo hi : PoolProg n _ _) none := by
  unfold rangeScan
  split
  · exact .ret _
  · split
    · exact (findLeaf_leaves _ _ _ _).bind fun _ => scan_leaves _ _ _ _ _
    · exact (firstLeaf_leaves _ _).bind fun _ => scan_leaves _ _ _ _ _

theorem erase_leaves (tree : DiskBPlusTree) (fuel : Nat) (key : Value) (rid : RecordID) :
    Leaves none (tree.erase fuel key rid : PoolProg n _ _) none := by
  rw [erase]
  split
  · exact .ret _
  · refine (findLeaf_leaves _ _ _ _).bind fun ⟨leafId, path⟩ =>
      (readNode_leaves _).bind fun leaf => ?_
    dsimp only
    split
    · exact .ret _
    · exact (writeNode_leaves _ _).bind fun _ => .ret _

end DiskBPlusTree

end

/-! ## Runs -/

/-- What is done with a pool, by the components each with what it keeps itself at that time. A walk
down a tree or along its leaves is followed for `fuel` nodes. -/
inductive Operation
  | insertTuple (tm : TableManager) (tableId : TableId) (bytes : Bytes)
  | getTuple (rid : RecordID)
  | eraseTuple (tm : TableManager) (rid : RecordID)
  | updateTuple (tm : TableManager) (tableId : TableId) (rid : RecordID) (bytes : Bytes)
  | redoInsert (tm : TableManager) (tableId : TableId) (rid : RecordID) (bytes : Bytes) (lsn : Nat)
  | redoDelete (rid : RecordID) (lsn : Nat)
  | undoInsert (tm : TableManager) (rid : RecordID)
  | undoDelete (tm : TableManager) (tableId : TableId) (rid : RecordID) (bytes : Bytes)
  | newIterator (list : List Int)
  | next (list : List Int) (it : TableIterator)
  | insert (tree : DiskBPlusTree) (fuel : Nat) (key : Value) (rid : RecordID)
  | rangeScan (tree : DiskBPlusTree) (fuel : Nat) (lo hi : Option Value)
  | range (tree : DiskBPlusTree) (fuel : Nat) (lo hi : Value)
  | lookup (tree : DiskBPlusTree) (fuel : Nat) (key : Value)
  | erase (tree : DiskBPlusTree) (fuel : Nat) (key : Value) (rid : RecordID)
  | flush (id : Int)
  | flushAll

namespace Operation

/-- The outcome is what the components go on with, and does not matter to the pool. -/
def forget {α : Type} (x : PoolProg n PoolFault α) : PoolProg n PoolFault Unit := do
  let _ ← x
  return ()

def prog : Operation → PoolProg n PoolFault Unit
  | insertTuple tm tableId bytes => forget (tm.insertTuple tableId bytes)
  | getTuple rid => forget (TableManager.getTuple rid)
  | eraseTuple tm rid => forget (tm.eraseTuple rid)
  | updateTuple tm tableId rid bytes => forget (tm.updateTuple tableId rid bytes)
  | redoInsert tm tableId rid bytes lsn => forget (tm.redoInsert tableId rid bytes lsn)
  | redoDelete rid lsn => TableManager.redoDelete rid lsn
  | undoInsert tm rid => forget (tm.undoInsert rid)
  | undoDelete tm tableId rid bytes => forget (tm.undoDelete tableId rid bytes)
  | newIterator list => forget (TableIterator.new list)
  | next list it => forget (TableIterator.next list it)
  | insert tree fuel key rid => forget (tree.insert fuel key rid)
  | rangeScan tree fuel lo hi => forget (tree.rangeScan fuel lo hi)
  | range tree fuel lo hi => forget (tree.range fuel lo hi)
  | lookup tree fuel key => forget (tree.lookup fuel key)
  | erase tree fuel key rid => forget (tree.erase fuel key rid)
  | flush id => PoolProg.flush id
  | flushAll => PoolProg.flushAll

def step (pool : BufferPool n) (op : Operation) : BufferPool n :=
  (op.prog.run PoolCall.apply pool).2

theorem forget_leaves {α : Type} {x : PoolProg n PoolFault α} (h : Leaves none x none) :
    Leaves none (forget x) none := h.bind fun _ => .ret _

theorem prog_leaves [NeZero n] (op : Operation) : Leaves none (op.prog : PoolProg n _ _) none := by
  cases op with
  | insertTuple => exact forget_leaves (TableManager.insertTuple_leaves _ _ _)
  | getTuple => exact forget_leaves (TableManager.getTuple_leaves _)
  | eraseTuple => exact forget_leaves (TableManager.eraseTuple_leaves _ _)
  | updateTuple => exact forget_leaves (TableManager.updateTuple_leaves _ _ _ _)
  | redoInsert => exact forget_leaves (TableManager.redoInsert_leaves _ _ _ _ _)
  | redoDelete => exact TableManager.redoDelete_leaves _ _
  | undoInsert => exact forget_leaves (TableManager.undoInsert_leaves _ _)
  | undoDelete => exact forget_leaves (TableManager.redoInsert_leaves _ _ _ _ _)
  | newIterator => exact forget_leaves (TableIterator.advancePages_leaves _ _)
  | next => exact forget_leaves (TableIterator.next_leaves _ _)
  | insert => exact forget_leaves (DiskBPlusTree.insert_leaves _ _ _ _)
  | rangeScan => exact forget_leaves (DiskBPlusTree.rangeScan_leaves _ _ _ _)
  | range => exact forget_leaves (DiskBPlusTree.rangeScan_leaves _ _ _ _)
  | lookup => exact forget_leaves (DiskBPlusTree.rangeScan_leaves _ _ _ _)
  | erase => exact forget_leaves (DiskBPlusTree.erase_leaves _ _ _ _)
  | flush id => exact .flush id
  | flushAll => exact .flushAll

end Operation

/-- A pool has a frame. -/
instance (numFrames : Nat) : NeZero (BufferPool.frameCount numFrames) :=
  ⟨by unfold BufferPool.frameCount; split <;> omega⟩

/-- Whatever the components do with a pool of any size, between two operations no page is pinned,
and in an operation one page at most: each page that is asked for is given. -/
theorem pins_balanced (disk : DiskManager) (numFrames : Nat) (ops : List Operation) :
    AllStates Operation.step (fun pool => pool.pinned = 0) (.new disk numFrames) ops ∧
      AllSteps Operation.step (fun pool op => op.prog.All PoolCall.apply OnePin pool)
        (.new disk numFrames) ops := by
  have hnew := BufferPool.balanced_new disk numFrames
  generalize BufferPool.new disk numFrames = pool at hnew ⊢
  induction ops generalizing pool with
  | nil => exact ⟨hnew.pinned_none, trivial⟩
  | cons op ops ih =>
    obtain ⟨hcalls, hrest⟩ := op.prog_leaves.run hnew
    obtain ⟨hstates, hsteps⟩ := ih _ hrest
    exact ⟨⟨hnew.pinned_none, hstates⟩, hcalls, hsteps⟩

end Relite.Pooled
