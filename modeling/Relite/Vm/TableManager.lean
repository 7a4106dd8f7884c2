import Relite.Backend.Page
import Mathlib.Logic.Function.Basic

/-!
# Table heaps

A table is a list of pages, and a tuple is named by the page and the slot that hold it.
The buffer pool is seen through what it caches, a store of pages: with one page pinned
at a time `fetchPage` finds a frame, and which pages are in memory does not show in
their contents. The store holds heap pages only, so page ids count heap pages.
-/
namespace Relite.Backend

/-- The pages behind the buffer pool. -/
structure PageStore where
  page : Int → Page
  numPages : Nat

namespace PageStore

/-- A page whose allocation is all that happened to it reads as zeros. -/
def empty : PageStore := ⟨fun _ => Page.zero, 0⟩

def setPage (s : PageStore) (pid : Int) (p : Page) : PageStore :=
  { s with page := Function.update s.page pid p }

def newPage (s : PageStore) : PageStore × Int :=
  (⟨Function.update s.page s.numPages Page.init, s.numPages + 1⟩, s.numPages)

end PageStore

end Relite.Backend

namespace Relite.Vm
open Lib Backend

structure RecordID where
  pageId : Int := -1
  slotId : Int := -1
  deriving DecidableEq, Repr

def RecordID.valid (rid : RecordID) : Bool := decide (0 ≤ rid.pageId ∧ 0 ≤ rid.slotId)

abbrev TableId := Int

structure TableManager where
  pool : PageStore
  pages : TableId → Option (List Int)
  pageFree : Int → Option Int

namespace TableManager

def empty : TableManager := ⟨.empty, fun _ => none, fun _ => none⟩

def pageList (tm : TableManager) (tableId : TableId) : List Int :=
  (tm.pages tableId).getD []

def page (tm : TableManager) (pid : Int) : Page := tm.pool.page pid

def setPage (tm : TableManager) (pid : Int) (p : Page) : TableManager :=
  { tm with pool := tm.pool.setPage pid p }

def setFree (tm : TableManager) (pid : Int) (free : Int) : TableManager :=
  { tm with pageFree := Function.update tm.pageFree pid (some free) }

def setPages (tm : TableManager) (tableId : TableId) (list : List Int) : TableManager :=
  { tm with pages := Function.update tm.pages tableId (some list) }

def registerTable (tm : TableManager) (tableId : TableId) : TableManager :=
  if (tm.pages tableId).isSome then tm else tm.setPages tableId []

def dropTable (tm : TableManager) (tableId : TableId) : TableManager :=
  { tm with pages := Function.update tm.pages tableId none }

def truncateTable (tm : TableManager) (tableId : TableId) : TableManager :=
  match tm.pages tableId with
  | none => tm
  | some list =>
    { tm.setPages tableId [] with
      pageFree := fun pid => if pid ∈ list then none else tm.pageFree pid }

/-- The loop of `insertTuple` over the pages of the table, newest first. -/
def tryPages (bytes : Bytes) : List Int → TableManager → TableManager × Option RecordID
  | [], tm => (tm, none)
  | pid :: rest, tm =>
    if (tm.pageFree pid).any (fun (hint : Int) => hint < bytes.length + Page.SLOT_SIZE) then
      tryPages bytes rest tm
    else
      match (tm.page pid).insert bytes with
      | some (page, slot) => ((tm.setPage pid page).setFree pid page.freeBytes, some ⟨pid, slot⟩)
      | none => tryPages bytes rest (tm.setFree pid (tm.page pid).freeBytes)

/-- Appends a page to the table and inserts there; a record too large for an empty page
leaves the empty page behind and gets no `RecordID`. -/
def insertNewPage (tm : TableManager) (tableId : TableId) (bytes : Bytes) :
    TableManager × RecordID :=
  let (pool, pid) := tm.pool.newPage
  let tm := { tm with pool := pool }.setPages tableId (tm.pageList tableId ++ [pid])
  match (tm.page pid).insert bytes with
  | some (page, slot) => ((tm.setPage pid page).setFree pid page.freeBytes, ⟨pid, slot⟩)
  | none => (tm, {})

def insertTuple (tm : TableManager) (tableId : TableId) (bytes : Bytes) :
    TableManager × RecordID :=
  let tm := tm.registerTable tableId
  match tryPages bytes (tm.pageList tableId).reverse tm with
  | (tm, some rid) => (tm, rid)
  | (tm, none) => tm.insertNewPage tableId bytes

def getTuple (tm : TableManager) (rid : RecordID) : Option Bytes :=
  (tm.page rid.pageId).get rid.slotId

def eraseTuple (tm : TableManager) (rid : RecordID) : TableManager × Bool :=
  match (tm.page rid.pageId).erase rid.slotId with
  | some page => ((tm.setPage rid.pageId page).setFree rid.pageId page.freeBytes, true)
  | none => (tm, false)

def updateTuple (tm : TableManager) (tableId : TableId) (rid : RecordID) (bytes : Bytes) :
    TableManager × RecordID :=
  match (tm.page rid.pageId).update rid.slotId bytes with
  | some page => (tm.setPage rid.pageId page, rid)
  | none => (tm.eraseTuple rid).1.insertTuple tableId bytes

/-- `redoInsert` and `undoDelete` list the page if the table does not have it. -/
def addPage (tm : TableManager) (tableId : TableId) (pid : Int) : TableManager :=
  let tm := tm.registerTable tableId
  if pid ∈ tm.pageList tableId then tm else tm.setPages tableId (tm.pageList tableId ++ [pid])

def redoInsert (tm : TableManager) (tableId : TableId) (rid : RecordID) (bytes : Bytes)
    (lsn : Nat) : TableManager :=
  (tm.setPage rid.pageId ((tm.page rid.pageId).redoSet rid.slotId bytes lsn).1).addPage tableId
    rid.pageId

def redoDelete (tm : TableManager) (rid : RecordID) (lsn : Nat) : TableManager :=
  tm.setPage rid.pageId ((tm.page rid.pageId).redoClear rid.slotId lsn)

def undoInsert (tm : TableManager) (rid : RecordID) : TableManager :=
  let page := (tm.page rid.pageId).redoClear rid.slotId 0
  (tm.setPage rid.pageId page).setFree rid.pageId page.freeBytes

def undoDelete (tm : TableManager) (tableId : TableId) (rid : RecordID) (bytes : Bytes) :
    TableManager :=
  tm.redoInsert tableId rid bytes 0

/-- The live tuples of one page, in slot order. -/
def pageTuples (pid : Int) (p : Page) : List (RecordID × Bytes) :=
  (List.range p.slotCount).filterMap fun (s : Nat) => (p.get s).map fun bytes => (⟨pid, s⟩, bytes)

/-- What a `TableIterator` over the table yields. -/
def tuples (tm : TableManager) (tableId : TableId) : List (RecordID × Bytes) :=
  (tm.pageList tableId).flatMap fun pid => pageTuples pid (tm.page pid)

end TableManager

end Relite.Vm
