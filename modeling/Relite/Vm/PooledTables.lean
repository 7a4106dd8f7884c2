import Relite.Backend.PinBalance
import Relite.Vm.TableManager

/-!
# Table heaps on the buffer pool

The operations of `TableManager` and the steps of a `TableIterator` as the pool sees them. Each
page is pinned in the scope of a guard, and no scope lies in another one.
-/
namespace Relite.Pooled
open Lib Vm Backend PoolProg

variable {n : Nat} {ε : Type}

/-- What a `TableManager` keeps beside the pool. -/
structure TableManager where
  pages : TableId → Option (List Int)
  pageFree : Int → Option Int

namespace TableManager

def pageList (tm : TableManager) (tableId : TableId) : List Int := (tm.pages tableId).getD []

def setPages (tm : TableManager) (tableId : TableId) (list : List Int) : TableManager :=
  { tm with pages := Function.update tm.pages tableId (some list) }

def setFree (tm : TableManager) (pid : Int) (free : Int) : TableManager :=
  { tm with pageFree := Function.update tm.pageFree pid (some free) }

/-- The loop of `insertTuple` over the pages of the table, newest first. -/
def tryPages (bytes : Bytes) :
    List Int → TableManager → PoolProg n ε (TableManager × Option RecordID)
  | [], tm => return (tm, none)
  | pid :: rest, tm =>
    if (tm.pageFree pid).any (fun (hint : Int) => hint < bytes.length + Page.SLOT_SIZE) then
      tryPages bytes rest tm
    else do
      match ← fetchPage pid with
      | none => tryPages bytes rest tm
      | some frame =>
        let (tm, rid) ← guarded pid do
          let p ← page frame
          match p.insert bytes with
          | some (p, slot) =>
            setPage frame p
            return ((tm.setFree pid p.freeBytes, some ⟨pid, slot⟩), true)
          | none => return ((tm.setFree pid p.freeBytes, none), false)
        match rid with
        | some rid => return (tm, some rid)
        | none => tryPages bytes rest tm

/-- A page that the pool does not give stays allocated, and the table does not get it. -/
def insertNewPage (tm : TableManager) (tableId : TableId) (bytes : Bytes) :
    PoolProg n ε (TableManager × RecordID) := do
  match ← newPage with
  | none => return (tm, {})
  | some (frame, pid) =>
    guarded pid do
      let tm := tm.setPages tableId (tm.pageList tableId ++ [pid])
      match (← page frame).insert bytes with
      | some (p, slot) =>
        setPage frame p
        return ((tm.setFree pid p.freeBytes, ⟨pid, slot⟩), true)
      | none => return ((tm, {}), false)

def insertTuple (tm : TableManager) (tableId : TableId) (bytes : Bytes) :
    PoolProg n ε (TableManager × RecordID) := do
  let tm := tm.setPages tableId (tm.pageList tableId)
  let (tm, rid) ← tryPages bytes (tm.pageList tableId).reverse tm
  match rid with
  | some rid => return (tm, rid)
  | none => insertNewPage tm tableId bytes

def getTuple (rid : RecordID) : PoolProg n ε (Option Bytes) := do
  match ← fetchPage rid.pageId with
  | none => return none
  | some frame => guarded rid.pageId do return ((← page frame).get rid.slotId, false)

def eraseTuple (tm : TableManager) (rid : RecordID) : PoolProg n ε (TableManager × Bool) := do
  match ← fetchPage rid.pageId with
  | none => return (tm, false)
  | some frame =>
    guarded rid.pageId do
      match (← page frame).erase rid.slotId with
      | some p =>
        setPage frame p
        return ((tm.setFree rid.pageId p.freeBytes, true), true)
      | none => return ((tm, false), false)

/-- A tuple that does not fit where it was is erased there, and the page is given back before the
tuple is inserted anew. -/
def updateTuple (tm : TableManager) (tableId : TableId) (rid : RecordID) (bytes : Bytes) :
    PoolProg n ε (TableManager × RecordID) := do
  match ← fetchPage rid.pageId with
  | none => return (tm, {})
  | some frame =>
    let (tm, updated) ← guarded rid.pageId do
      let p ← page frame
      match p.update rid.slotId bytes with
      | some p =>
        setPage frame p
        return ((tm, true), true)
      | none =>
        match p.erase rid.slotId with
        | some p =>
          setPage frame p
          return ((tm.setFree rid.pageId p.freeBytes, false), true)
        | none => return ((tm, false), false)
    if updated then return (tm, rid) else insertTuple tm tableId bytes

def addPage (tm : TableManager) (tableId : TableId) (pid : Int) : TableManager :=
  tm.setPages tableId
    (if pid ∈ tm.pageList tableId then tm.pageList tableId else tm.pageList tableId ++ [pid])

def redoInsert (tm : TableManager) (tableId : TableId) (rid : RecordID) (bytes : Bytes)
    (lsn : Nat) : PoolProg n ε TableManager := do
  match ← fetchPage rid.pageId with
  | none => return tm
  | some frame =>
    guarded rid.pageId do
      let (p, done) := (← page frame).redoSet rid.slotId bytes lsn
      setPage frame p
      return ((), done)
    return tm.addPage tableId rid.pageId

def redoDelete (rid : RecordID) (lsn : Nat) : PoolProg n ε Unit := do
  match ← fetchPage rid.pageId with
  | none => return ()
  | some frame =>
    guarded rid.pageId do
      setPage frame ((← page frame).redoClear rid.slotId lsn)
      return ((), true)

def undoInsert (tm : TableManager) (rid : RecordID) : PoolProg n ε TableManager := do
  match ← fetchPage rid.pageId with
  | none => return tm
  | some frame =>
    guarded rid.pageId do
      let p := (← page frame).redoClear rid.slotId 0
      setPage frame p
      return (tm.setFree rid.pageId p.freeBytes, true)

def undoDelete (tm : TableManager) (tableId : TableId) (rid : RecordID) (bytes : Bytes) :
    PoolProg n ε TableManager :=
  redoInsert tm tableId rid bytes 0

end TableManager

structure TableIterator where
  pageIdx : Nat := 0
  slot : Int := -1
  rid : RecordID := {}
  bytes : Bytes := []
  valid : Bool := false

namespace TableIterator

/-- The loop over the slots of a page, from `slot` on. -/
def liveFrom (p : Page) (slot : Int) : Option (Int × Bytes) :=
  (List.range p.slotCount).findSome? fun (s : Nat) =>
    if (s : Int) < slot then none else (p.get s).map fun bytes => ((s : Int), bytes)

/-- The loop of `advanceToLive` over the pages that are left. -/
def advancePages : List Int → TableIterator → PoolProg n ε TableIterator
  | [], it => return { it with valid := false }
  | pid :: rest, it => do
    match ← fetchPage pid with
    | none => advancePages rest { it with pageIdx := it.pageIdx + 1, slot := -1 }
    | some frame =>
      let live ← guarded pid do return (liveFrom (← page frame) it.slot, false)
      match live with
      | some (slot, bytes) => return { it with slot, rid := ⟨pid, slot⟩, bytes, valid := true }
      | none => advancePages rest { it with pageIdx := it.pageIdx + 1, slot := -1 }

def advanceToLive (list : List Int) (it : TableIterator) : PoolProg n ε TableIterator :=
  advancePages (list.drop it.pageIdx) it

/-- The constructor of an iterator over the pages of a table. -/
def new (list : List Int) : PoolProg n ε TableIterator := advanceToLive list {}

def next (list : List Int) (it : TableIterator) : PoolProg n ε TableIterator :=
  if it.valid then advanceToLive list { it with slot := it.slot + 1 } else return it

end TableIterator

/-! ## No operation leaves a page pinned -/

section

variable [NeZero n]

namespace TableManager

theorem tryPages_leaves (bytes : Bytes) (list : List Int) (tm : TableManager) :
    Leaves none (tryPages bytes list tm : PoolProg n ε _) none := by
  induction list generalizing tm with
  | nil => exact .ret _
  | cons pid rest ih =>
    rw [tryPages]
    split
    · exact ih tm
    · refine .fetchPage_bind fun frame => .bind (.guarded (.page_bind fun p => ?_)) fun ⟨tm, rid⟩ => ?_
      · split
        · exact (Leaves.setPage _).bind fun _ => .ret _
        · exact .ret _
      · cases rid with
        | some rid => exact .ret _
        | none => exact ih _

theorem insertNewPage_leaves (tm : TableManager) (tableId : TableId) (bytes : Bytes) :
    Leaves none (tm.insertNewPage tableId bytes : PoolProg n ε _) none := by
  refine .newPage_bind fun frame pid => .guarded (.page_bind fun p => ?_)
  split
  · exact (Leaves.setPage _).bind fun _ => .ret _
  · exact .ret _

theorem insertTuple_leaves (tm : TableManager) (tableId : TableId) (bytes : Bytes) :
    Leaves none (tm.insertTuple tableId bytes : PoolProg n ε _) none := by
  refine (tryPages_leaves _ _ _).bind fun ⟨tm, rid⟩ => ?_
  cases rid with
  | some rid => exact .ret _
  | none => exact insertNewPage_leaves _ _ _

theorem getTuple_leaves (rid : RecordID) :
    Leaves none (getTuple rid : PoolProg n ε _) none :=
  .fetchPage_bind fun _ => .guarded (.page_bind fun _ => .ret _)

theorem eraseTuple_leaves (tm : TableManager) (rid : RecordID) :
    Leaves none (tm.eraseTuple rid : PoolProg n ε _) none := by
  refine .fetchPage_bind fun frame => .guarded (.page_bind fun p => ?_)
  split
  · exact (Leaves.setPage _).bind fun _ => .ret _
  · exact .ret _

theorem updateTuple_leaves (tm : TableManager) (tableId : TableId) (rid : RecordID)
    (bytes : Bytes) : Leaves none (tm.updateTuple tableId rid bytes : PoolProg n ε _) none := by
  refine .fetchPage_bind fun frame =>
    .bind (.guarded (.page_bind fun p => ?_)) fun ⟨tm, updated⟩ => ?_
  · split
    · exact (Leaves.setPage _).bind fun _ => .ret _
    · split
      · exact (Leaves.setPage _).bind fun _ => .ret _
      · exact .ret _
  · -- the guard's scope is left, and the insertion begins without a pinned page
    cases updated with
    | true => exact .ret _
    | false => exact insertTuple_leaves _ _ _

theorem redoInsert_leaves (tm : TableManager) (tableId : TableId) (rid : RecordID) (bytes : Bytes)
    (lsn : Nat) : Leaves none (tm.redoInsert tableId rid bytes lsn : PoolProg n ε _) none :=
  .fetchPage_bind fun _ =>
    (Leaves.guarded (.page_bind fun _ => (Leaves.setPage _).bind fun _ => .ret _)).bind
      fun _ => .ret _

theorem redoDelete_leaves (rid : RecordID) (lsn : Nat) :
    Leaves none (redoDelete rid lsn : PoolProg n ε _) none :=
  .fetchPage_bind fun _ => .guarded (.page_bind fun _ => (Leaves.setPage _).bind fun _ => .ret _)

theorem undoInsert_leaves (tm : TableManager) (rid : RecordID) :
    Leaves none (tm.undoInsert rid : PoolProg n ε _) none :=
  .fetchPage_bind fun _ => .guarded (.page_bind fun _ => (Leaves.setPage _).bind fun _ => .ret _)

end TableManager

namespace TableIterator

theorem advancePages_leaves (list : List Int) (it : TableIterator) :
    Leaves none (advancePages list it : PoolProg n ε _) none := by
  induction list generalizing it with
  | nil => exact .ret _
  | cons pid rest ih =>
    rw [advancePages]
    refine .fetchPage_bind fun frame => .bind (.guarded (.page_bind fun _ => .ret _)) fun live => ?_
    split
    · exact .ret _
    · exact ih _

theorem next_leaves (list : List Int) (it : TableIterator) :
    Leaves none (next list it : PoolProg n ε _) none := by
  rw [next]
  split
  · exact advancePages_leaves _ _
  · exact .ret _

end TableIterator

end

end Relite.Pooled
