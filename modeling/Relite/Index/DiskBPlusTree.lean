import Relite.Index.Entries
import Relite.Lib.PagedTree
import Relite.Txn.LogFile

/-!
# The B+ tree on pages

Each node is a page of the pool: the entries of a leaf or the separators of an inner node one
after another, with the numbers of the children behind them. Leaves are linked, and an entry
that is erased leaves its leaf and all separators where they are.
-/
namespace Relite
open Lib Vm Backend Txn

/-- What no run of the source gets through: a node that does not fit its page, a page number that
no `int` is, and a walk without an end. -/
inductive Fault
  | NodeTooLarge
  | NoPageNumber
  | Endless
  deriving DecidableEq, Repr

abbrev NodeView := PagedNode Entry

structure DiskBPlusTree where
  pool : PageStore
  rootId : Int := -1
  distinctKeys : Nat := 0

/-- Less than each record id of a row. -/
def kMinRid : RecordID := ⟨-1, -1⟩

/-! ## The bytes of a node -/

def encodeValue (v : Value) : Bytes :=
  UInt8.ofNat v.typeCode ::
    match v with
    | .int n => toLE 8 n.toUInt64.toNat
    | .double bits => toLE 8 bits.toNat
    | .bool b => [if b then 1 else 0]
    | .text s => s
    | .null => []

/-- No node has a type byte other than those of the five types. -/
def decodeValue : Bytes → Value
  | [] => .null
  | type :: body =>
    match type.toNat with
    | 1 => .int (UInt64.ofNat (ofLE (body.take 8))).toInt64
    | 2 => .bool (body.headD 0 != 0)
    | 3 => .text body
    | 4 => .double (UInt64.ofNat (ofLE (body.take 8)))
    | _ => .null

def getI32 (d : Mem) (off : Nat) : Int := (d.readLE 4 off : Int).bmod (2 ^ 32)

def encodeEntry (e : Entry) : Bytes :=
  toLE 2 (encodeValue e.1).length ++ (encodeValue e.1 ++ (putI32 e.2.pageId ++ putI32 e.2.slotId))

def encodeNode (view : NodeView) : Bytes :=
  (if view.leaf then 1 else 0) :: 0 ::
    (toLE 2 view.entries.length ++ (putI32 view.nextLeaf ++ (view.entries.flatMap encodeEntry ++
      if view.leaf then [] else view.children.flatMap putI32)))

/-- The entries from `pos` on, and where they end. -/
def readEntries (d : Mem) : Nat → Nat → List Entry × Nat
  | 0, pos => ([], pos)
  | n + 1, pos =>
    let klen := d.readLE 2 pos
    let key := decodeValue (d.slice (pos + 2) klen)
    let rid := ⟨getI32 d (pos + 2 + klen), getI32 d (pos + 2 + klen + 4)⟩
    let (entries, pos) := readEntries d n (pos + 2 + klen + 8)
    ((key, rid) :: entries, pos)

def readChildren (d : Mem) : Nat → Nat → List Int
  | 0, _ => []
  | n + 1, pos => getI32 d pos :: readChildren d n (pos + 4)

def readNode (pool : PageStore) (pageId : Int) : NodeView :=
  let d := (pool.page pageId).bytes
  let leaf := d 0 != 0
  let n := d.readLE 2 2
  let (entries, pos) := readEntries d n 8
  { leaf, nextLeaf := getI32 d 4, entries, children := if leaf then [] else readChildren d (n + 1) pos }

def writeNode (pool : PageStore) (pageId : Int) (view : NodeView) : Except Fault PageStore :=
  if PAGE_SIZE < (encodeNode view).length then .error .NodeTooLarge
  else .ok (pool.setPage pageId ⟨Page.zero.bytes.blit 0 (encodeNode view)⟩)

def allocNode (pool : PageStore) (view : NodeView) : Except Fault (PageStore × Int) :=
  if 2 ^ 31 ≤ pool.numPages then .error .NoPageNumber
  else do
    let (pool, pid) := pool.newPage
    return (← writeNode pool pid view, pid)

def measure (entries : List Entry) (leaf : Bool) : Nat :=
  let bytes := entries.foldl (fun bytes e => bytes + (2 + (encodeValue e.1).length + 8)) 8
  if leaf then bytes else bytes + (entries.length + 1) * 4

/-! ## Inserting -/

/-- Whether two entries are the same: equal keys and the same record id. -/
def sameEntry (a b : Entry) : Bool := keyEqual a.1 b.1 && a.2 == b.2

/-- The leaf an entry belongs into, and the inner nodes above it, the lowest one first. -/
def findLeaf (pool : PageStore) (e : Entry) : Nat → Int → List Int → Except Fault (Int × List Int)
  | 0, _, _ => .error .Endless
  | fuel + 1, cur, path =>
    let view := readNode pool cur
    if view.leaf then .ok (cur, path)
    else
      let idx := (view.entries.takeWhile fun s => !entryLess e s).length
      findLeaf pool e fuel (view.children.getD idx (-1)) (cur :: path)

def firstLeaf (pool : PageStore) : Nat → Int → Except Fault Int
  | 0, _ => .error .Endless
  | fuel + 1, cur =>
    let view := readNode pool cur
    if view.leaf then .ok cur else firstLeaf pool fuel (view.children.headD (-1))

/-- Puts a new entry at `pos` of a leaf. A leaf that has become two gives the first entry of the
right one, and its number. -/
def insertLeaf (pool : PageStore) (leafId : Int) (pos : Nat) (e : Entry) :
    Except Fault (PageStore × Option (Entry × Int)) := do
  let leaf := readNode pool leafId
  let entries := leaf.entries.insertIdx pos e
  if measure entries true ≤ PAGE_SIZE then
    return (← writeNode pool leafId { leaf with entries }, none)
  else
    let mid := entries.length / 2
    let right := entries.drop mid
    let (pool, rightId) ← allocNode pool { entries := right, nextLeaf := leaf.nextLeaf }
    let pool ← writeNode pool leafId { leaf with entries := entries.take mid, nextLeaf := rightId }
    return (pool, some (right.headD e, rightId))

/-- Puts a separator and the child behind it into an inner node, which may become two. -/
def insertChild (pool : PageStore) (parentId : Int) (up : Entry) (childId : Int) :
    Except Fault (PageStore × Option (Entry × Int)) := do
  let parent := readNode pool parentId
  let ip := (parent.entries.takeWhile fun s => entryLess s up).length
  let entries := parent.entries.insertIdx ip up
  let children := parent.children.insertIdx (ip + 1) childId
  if measure entries false ≤ PAGE_SIZE then
    return (← writeNode pool parentId { parent with entries, children }, none)
  else
    let pmid := entries.length / 2
    let sep := entries.getD pmid up
    let (pool, prightId) ← allocNode pool
      { leaf := false, entries := entries.drop (pmid + 1), children := children.drop (pmid + 1) }
    let pool ← writeNode pool parentId
      { parent with entries := entries.take pmid, children := children.take (pmid + 1) }
    return (pool, some (sep, prightId))

/-- The loop up the path, as long as there is a node to be put into the one above. -/
def climb (pool : PageStore) : List Int → Option (Entry × Int) →
    Except Fault (PageStore × Option (Entry × Int))
  | _, none => .ok (pool, none)
  | [], some split => .ok (pool, some split)
  | parentId :: path, some (up, childId) => do
    let (pool, split) ← insertChild pool parentId up childId
    climb pool path split

namespace DiskBPlusTree

def insert (tree : DiskBPlusTree) (key : Value) (rid : RecordID) : Except Fault DiskBPlusTree := do
  let e : Entry := (key, rid)
  if tree.rootId = -1 then
    let (pool, rootId) ← allocNode tree.pool { entries := [e] }
    return { pool, rootId, distinctKeys := tree.distinctKeys + 1 }
  let (leafId, path) ← findLeaf tree.pool e (tree.pool.numPages + 1) tree.rootId []
  let leaf := readNode tree.pool leafId
  let pos := (leaf.entries.takeWhile fun x => entryLess x e).length
  if leaf.entries[pos]?.any fun x => sameEntry x e then return tree
  let newKey := !(leaf.entries[pos]?.any fun x => keyEqual x.1 key) &&
    !(decide (0 < pos) && leaf.entries[pos - 1]?.any fun x => keyEqual x.1 key)
  let distinctKeys := if newKey then tree.distinctKeys + 1 else tree.distinctKeys
  let (pool, split) ← insertLeaf tree.pool leafId pos e
  let (pool, split) ← climb pool path split
  match split with
  | none => return { tree with pool, distinctKeys }
  | some (up, childId) =>
    let newRoot : NodeView := { leaf := false, entries := [up], children := [tree.rootId, childId] }
    let (pool, rootId) ← allocNode pool newRoot
    return { pool, rootId, distinctKeys }

/-! ## Scanning and erasing -/

/-- The loop over the entries of a leaf, and whether the scan ends in it. -/
def scanLeaf (lo hi : Option Value) : List Entry → List RecordID → List RecordID × Bool
  | [], out => (out, false)
  | e :: entries, out =>
    if lo.any fun lo => valueLess e.1 lo then scanLeaf lo hi entries out
    else if hi.any fun hi => valueLess hi e.1 then (out, true)
    else scanLeaf lo hi entries (out ++ [e.2])

def scan (pool : PageStore) (lo hi : Option Value) :
    Nat → Int → List RecordID → Except Fault (List RecordID)
  | 0, _, _ => .error .Endless
  | fuel + 1, leafId, out =>
    if leafId = -1 then .ok out
    else
      let leaf := readNode pool leafId
      let (out, done) := scanLeaf lo hi leaf.entries out
      if done then .ok out else scan pool lo hi fuel leaf.nextLeaf out

def rangeScan (tree : DiskBPlusTree) (lo hi : Option Value) : Except Fault (List RecordID) := do
  if tree.rootId = -1 then return []
  let fuel := tree.pool.numPages + 1
  let leafId ←
    match lo with
    | some lo => do
      let (leafId, _) ← findLeaf tree.pool (lo, kMinRid) fuel tree.rootId []
      pure leafId
    | none => firstLeaf tree.pool fuel tree.rootId
  scan tree.pool lo hi fuel leafId []

def range (tree : DiskBPlusTree) (lo hi : Value) : Except Fault (List RecordID) :=
  tree.rangeScan (some lo) (some hi)

def lookup (tree : DiskBPlusTree) (key : Value) : Except Fault (List RecordID) :=
  tree.rangeScan (some key) (some key)

def erase (tree : DiskBPlusTree) (key : Value) (rid : RecordID) :
    Except Fault (DiskBPlusTree × Bool) := do
  if tree.rootId = -1 then return (tree, false)
  let (leafId, _) ← findLeaf tree.pool (key, rid) (tree.pool.numPages + 1) tree.rootId []
  let leaf := readNode tree.pool leafId
  match leaf.entries.findIdx? fun x => sameEntry x (key, rid) with
  | none => return (tree, false)
  | some i =>
    let hadPrev := decide (0 < i) && leaf.entries[i - 1]?.any fun x => keyEqual x.1 key
    let hadNext := leaf.entries[i + 1]?.any fun x => keyEqual x.1 key
    let distinctKeys :=
      if !hadPrev && !hadNext && decide (0 < tree.distinctKeys) then tree.distinctKeys - 1
      else tree.distinctKeys
    let pool ← writeNode tree.pool leafId { leaf with entries := leaf.entries.eraseIdx i }
    return ({ tree with pool, distinctKeys }, true)

end DiskBPlusTree

/-! ## Runs -/

inductive TreeOp
  | insert (key : Value) (rid : RecordID)
  | erase (key : Value) (rid : RecordID)

namespace TreeOp

def key : TreeOp → Value
  | insert key _ => key
  | erase key _ => key

def rid : TreeOp → RecordID
  | insert _ rid => rid
  | erase _ rid => rid

end TreeOp

/-- The tree after the operations, and what the erasures among them returned. -/
def DiskBPlusTree.run : DiskBPlusTree → List TreeOp → Except Fault (DiskBPlusTree × List Bool)
  | tree, [] => .ok (tree, [])
  | tree, .insert key rid :: ops => do
    let tree ← tree.insert key rid
    tree.run ops
  | tree, .erase key rid :: ops => do
    let (tree, found) ← tree.erase key rid
    let (tree, answers) ← tree.run ops
    return (tree, found :: answers)

/-- What the same operations do to a sorted list. -/
def Tree.run : Tree → List TreeOp → Tree × List Bool
  | l, [] => (l, [])
  | l, .insert key rid :: ops => Tree.run (l.insert key rid) ops
  | l, .erase key rid :: ops =>
    let (l', answers) := Tree.run (l.erase key rid) ops
    (l', l.any (fun x => sameEntry x (key, rid)) :: answers)

end Relite
