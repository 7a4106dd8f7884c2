import Mathlib.Logic.Function.Basic
import Relite.Backend.Page

/-!
# The buffer pool

A fixed number of frames cache the pages of the file. A frame that nobody has pinned
waits in the LRU list, and the page in it is written back when the frame is taken away.
-/
namespace Relite.Backend

/-- The file, page by page. What lies behind its end reads as zeros. -/
structure DiskManager where
  page : Int → Page
  numPages : Nat

namespace DiskManager

def readPage (disk : DiskManager) (id : Int) : Page := disk.page id

def writePage (disk : DiskManager) (id : Int) (p : Page) : DiskManager where
  page := Function.update disk.page id p
  numPages := if (disk.numPages : Int) < id + 1 then (id + 1).toNat else disk.numPages

def allocatePage (disk : DiskManager) : DiskManager × Int :=
  ({ page := Function.update disk.page disk.numPages Page.zero, numPages := disk.numPages + 1 },
    disk.numPages)

end DiskManager

structure Frame where
  page : Page := Page.zero
  pageId : Int := -1
  pinCount : Nat := 0
  dirty : Bool := false
  valid : Bool := false

/-- A node of the LRU list is a pair of its address and the frame it names, and `lruPos`
keeps the address of a frame's node. The back of the vector `freeList_` comes first in
`freeList`. -/
structure BufferPool (n : Nat) where
  disk : DiskManager
  frames : Fin n → Frame
  table : Int → Option (Fin n)
  lru : List (Nat × Fin n)
  lruPos : Fin n → Option Nat
  nextNode : Nat
  freeList : List (Fin n)

namespace BufferPool
variable {n : Nat}

/-- The constructor gives a pool of no frames one. -/
def frameCount (numFrames : Nat) : Nat := if numFrames = 0 then 1 else numFrames

def new (disk : DiskManager) (numFrames : Nat) : BufferPool (frameCount numFrames) where
  disk
  frames := fun _ => {}
  table := fun _ => none
  lru := []
  lruPos := fun _ => none
  nextNode := 0
  freeList := List.finRange _

def findFrame (pool : BufferPool n) (id : Int) : Option (Fin n) := pool.table id

def setFrame (pool : BufferPool n) (frame : Fin n) (f : Frame) : BufferPool n :=
  { pool with frames := Function.update pool.frames frame f }

def touchUnpinned (pool : BufferPool n) (frame : Fin n) : BufferPool n :=
  { pool with
    lru := pool.lru ++ [(pool.nextNode, frame)]
    lruPos := Function.update pool.lruPos frame (some pool.nextNode)
    nextNode := pool.nextNode + 1 }

def removeFromLru (pool : BufferPool n) (frame : Fin n) : BufferPool n :=
  match pool.lruPos frame with
  | none => pool
  | some node =>
    { pool with
      lru := pool.lru.filter fun e => e.1 ≠ node
      lruPos := Function.update pool.lruPos frame none }

/-- What taking a frame away does to the page in it. The hook that runs before a page is
written forces the log and leaves the pool alone. -/
def evict (pool : BufferPool n) (victim : Fin n) : BufferPool n :=
  let f := pool.frames victim
  { pool with
    disk := if f.valid && f.dirty then pool.disk.writePage f.pageId f.page else pool.disk
    table := if f.valid then Function.update pool.table f.pageId none else pool.table
    frames := Function.update pool.frames victim
      { f with valid := false, dirty := false, pinCount := 0 } }

def acquireFrame (pool : BufferPool n) : BufferPool n × Option (Fin n) :=
  match pool.freeList with
  | idx :: rest => ({ pool with freeList := rest }, some idx)
  | [] =>
    match pool.lru with
    | [] => (pool, none)
    | (_, victim) :: rest =>
      let pool :=
        { pool with lru := rest, lruPos := Function.update pool.lruPos victim none }
      (pool.evict victim, some victim)

/-- Hands frame `idx` to page `id`. -/
def install (pool : BufferPool n) (idx : Fin n) (id : Int) (page : Page) (dirty : Bool) :
    BufferPool n :=
  { pool.setFrame idx { page, pageId := id, pinCount := 1, dirty, valid := true } with
    table := Function.update pool.table id (some idx) }

def fetchPage (pool : BufferPool n) (id : Int) : BufferPool n × Option (Fin n) :=
  match pool.findFrame id with
  | some idx =>
    let f := pool.frames idx
    let pool := if f.pinCount = 0 then pool.removeFromLru idx else pool
    (pool.setFrame idx { f with pinCount := f.pinCount + 1 }, some idx)
  | none =>
    match pool.acquireFrame with
    | (pool, none) => (pool, none)
    | (pool, some idx) => (pool.install idx id (pool.disk.readPage id) false, some idx)

/-- When no frame is to be had, the page stays allocated and nobody learns its id. -/
def newPage (pool : BufferPool n) : BufferPool n × Option (Fin n × Int) :=
  let (disk, id) := pool.disk.allocatePage
  match acquireFrame { pool with disk } with
  | (pool, none) => (pool, none)
  | (pool, some idx) => (pool.install idx id Page.init true, some (idx, id))

def unpin (pool : BufferPool n) (id : Int) (dirty : Bool) : BufferPool n × Bool :=
  match pool.findFrame id with
  | none => (pool, false)
  | some idx =>
    let f := pool.frames idx
    let pinCount := f.pinCount - 1
    let pool := pool.setFrame idx { f with dirty := f.dirty || dirty, pinCount }
    (if pinCount = 0 then pool.touchUnpinned idx else pool, true)

def writeBack (pool : BufferPool n) (idx : Fin n) : BufferPool n :=
  let f := pool.frames idx
  { pool.setFrame idx { f with dirty := false } with disk := pool.disk.writePage f.pageId f.page }

def flush (pool : BufferPool n) (id : Int) : BufferPool n × Bool :=
  match pool.findFrame id with
  | none => (pool, false)
  | some idx => (pool.writeBack idx, true)

def flushAll (pool : BufferPool n) : BufferPool n :=
  (List.finRange n).foldl
    (fun pool idx =>
      if (pool.frames idx).valid && (pool.frames idx).dirty then pool.writeBack idx else pool)
    pool

/-- Writing through the pointer that `fetchPage` gave. -/
def setPage (pool : BufferPool n) (frame : Fin n) (p : Page) : BufferPool n :=
  pool.setFrame frame { pool.frames frame with page := p }

end BufferPool

end Relite.Backend
