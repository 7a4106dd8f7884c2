import Relite.Index.DiskBPlusTree
import Mathlib.Logic.Function.Basic

/-!
# The B+ tree in memory

Nodes are allocated one by one and point to each other: an inner node to its children, a leaf
to the leaves beside it. A leaf has a list of record ids for each of its keys. A leaf whose last
key goes is unlinked and freed, as are the inner nodes that have no child left.
-/
namespace Relite
open Lib Vm

namespace BPlusTree

/-- A node, with `none` for a null pointer. -/
structure Node where
  leaf : Bool := true
  keys : List Value := []
  children : List Int := []
  values : List (List RecordID) := []
  next : Option Int := none
  prev : Option Int := none
  deriving DecidableEq

end BPlusTree

/-- The nodes stand under the numbers in which they were allocated; a number without a node is a
pointer that must not be followed. -/
structure BPlusTree where
  nodes : Int → Option BPlusTree.Node
  allocated : Nat
  root : Int
  order : Int
  distinctKeys : Int := 0

namespace BPlusTree

def make (order : Int) : BPlusTree where
  nodes := Function.update (fun _ => none) 0 (some { leaf := true })
  allocated := 1
  root := 0
  order := if order < 3 then 3 else order

/-! ## Nodes -/

def put (t : BPlusTree) (n : Int) (node : Node) : BPlusTree :=
  { t with nodes := Function.update t.nodes n (some node) }

def new (t : BPlusTree) (node : Node) : BPlusTree × Int :=
  ({ t.put t.allocated node with allocated := t.allocated + 1 }, t.allocated)

def delete (t : BPlusTree) (n : Int) : Option BPlusTree := do
  let _ ← t.nodes n
  return { t with nodes := Function.update t.nodes n none }

/-- Changes the node that a pointer points to, if it is not null. -/
def modify (t : BPlusTree) (p : Option Int) (f : Node → Node) : Option BPlusTree :=
  match p with
  | none => some t
  | some n => do
    let node ← t.nodes n
    return t.put n (f node)

/-! ## Descending -/

/-- How many keys a search steps over: those that the key is not less than. -/
def childIndex (key : Value) (keys : List Value) : Nat :=
  (keys.takeWhile fun k => !valueLess key k).length

def findLeaf (t : BPlusTree) (key : Value) : Nat → Int → Option Int
  | 0, _ => none
  | fuel + 1, n => do
    let node ← t.nodes n
    if node.leaf then return n
    let child ← node.children[childIndex key node.keys]?
    t.findLeaf key fuel child

def firstLeaf (t : BPlusTree) : Nat → Int → Option Int
  | 0, _ => none
  | fuel + 1, n => do
    let node ← t.nodes n
    if node.leaf then return n
    let child ← node.children[0]?
    t.firstLeaf fuel child

/-! ## Inserting -/

/-- The separator and the new node on its right. -/
abbrev Split := Value × Int

def splitLeaf (t : BPlusTree) (n : Int) : Option (BPlusTree × Split) := do
  let node ← t.nodes n
  let mid := node.keys.length / 2
  let up ← (node.keys.drop mid).head?
  let (t, right) := t.new
    { leaf := true, keys := node.keys.drop mid, values := node.values.drop mid,
      next := node.next, prev := some n }
  let t := t.put n { node with keys := node.keys.take mid, values := node.values.take mid }
  let t ← t.modify node.next fun next => { next with prev := some right }
  let t ← t.modify (some n) fun node => { node with next := some right }
  return (t, up, right)

def splitInternal (t : BPlusTree) (n : Int) : Option (BPlusTree × Split) := do
  let node ← t.nodes n
  let mid := node.keys.length / 2
  let up ← node.keys[mid]?
  let (t, right) := t.new
    { leaf := false, keys := node.keys.drop (mid + 1), children := node.children.drop (mid + 1) }
  let t := t.put n
    { node with keys := node.keys.take mid, children := node.children.take (mid + 1) }
  return (t, up, right)

/-- The leaf part of the recursion. -/
def insertIntoLeaf (t : BPlusTree) (key : Value) (rid : RecordID) (n : Int) (node : Node) :
    Option (BPlusTree × Option Split) := do
  let pos := (node.keys.takeWhile fun k => valueLess k key).length
  if node.keys[pos]?.any fun k => keyEqual k key then
    let list ← node.values[pos]?
    return (t.put n { node with values := node.values.set pos (list ++ [rid]) }, none)
  let keys := node.keys.insertIdx pos key
  let t := t.put n { node with keys, values := node.values.insertIdx pos [rid] }
  let t := { t with distinctKeys := t.distinctKeys + 1 }
  if t.order < (keys.length : Int) then
    let (t, split) ← t.splitLeaf n
    return (t, some split)
  return (t, none)

/-- The part of it that puts what a child has been split into into its node. -/
def insertSeparator (t : BPlusTree) (n : Int) (idx : Nat) (up : Value) (right : Int) :
    Option (BPlusTree × Option Split) := do
  let node ← t.nodes n
  let keys := node.keys.insertIdx idx up
  let t := t.put n { node with keys, children := node.children.insertIdx (idx + 1) right }
  if t.order < (keys.length : Int) then
    let (t, split) ← t.splitInternal n
    return (t, some split)
  return (t, none)

def insertRec (key : Value) (rid : RecordID) :
    Nat → Int → BPlusTree → Option (BPlusTree × Option Split)
  | 0, _, _ => none
  | fuel + 1, n, t => do
    let node ← t.nodes n
    if node.leaf then t.insertIntoLeaf key rid n node
    else
      let idx := childIndex key node.keys
      let child ← node.children[idx]?
      let (t, split) ← insertRec key rid fuel child t
      match split with
      | none => return (t, none)
      | some (up, right) => t.insertSeparator n idx up right

def insert (t : BPlusTree) (key : Value) (rid : RecordID) : Option BPlusTree := do
  let (t, split) ← insertRec key rid t.allocated t.root t
  match split with
  | none => return t
  | some (up, right) =>
    let (t, root) := t.new { leaf := false, keys := [up], children := [t.root, right] }
    return { t with root }

/-! ## Searching -/

/-- The list beside the first equal key. -/
def findValues (key : Value) : List Value → List (List RecordID) → Option (List RecordID)
  | [], _ => some []
  | k :: keys, values =>
    if keyEqual k key then values[0]? else findValues key keys (values.drop 1)

def lookup (t : BPlusTree) (key : Value) : Option (List RecordID) := do
  let n ← t.findLeaf key t.allocated t.root
  let leaf ← t.nodes n
  findValues key leaf.keys leaf.values

/-- The loop over the keys of a leaf, and whether the scan ends in it. -/
def scanLeaf (lo hi : Option Value) :
    List Value → List (List RecordID) → List RecordID → Option (List RecordID × Bool)
  | [], _, out => some (out, false)
  | k :: keys, values, out =>
    if lo.any fun lo => valueLess k lo then scanLeaf lo hi keys (values.drop 1) out
    else if hi.any fun hi => valueLess hi k then some (out, true)
    else do
      let list ← values[0]?
      scanLeaf lo hi keys (values.drop 1) (out ++ list)

def scan (t : BPlusTree) (lo hi : Option Value) :
    Nat → Option Int → List RecordID → Option (List RecordID)
  | _, none, out => some out
  | 0, some _, _ => none
  | fuel + 1, some n, out => do
    let leaf ← t.nodes n
    let (out, done) ← scanLeaf lo hi leaf.keys leaf.values out
    if done then return out
    t.scan lo hi fuel leaf.next out

def rangeScan (t : BPlusTree) (lo hi : Option Value) : Option (List RecordID) := do
  let n ←
    match lo with
    | some lo => t.findLeaf lo t.allocated t.root
    | none => t.firstLeaf t.allocated t.root
  t.scan lo hi t.allocated (some n) []

def range (t : BPlusTree) (lo hi : Value) : Option (List RecordID) :=
  t.rangeScan (some lo) (some hi)

/-! ## Erasing -/

/-- The leaf of a key, and the inner nodes above it with the index of the child that was taken,
the lowest one first. -/
def descend (t : BPlusTree) (key : Value) :
    Nat → Int → List (Int × Nat) → Option (Int × List (Int × Nat))
  | 0, _, _ => none
  | fuel + 1, n, path => do
    let node ← t.nodes n
    if node.leaf then return (n, path)
    let idx := childIndex key node.keys
    let child ← node.children[idx]?
    t.descend key fuel child ((n, idx) :: path)

/-- Takes a leaf out of the list of the leaves. -/
def unlinkLeaf (t : BPlusTree) (leaf : Node) : Option BPlusTree := do
  let t ← t.modify leaf.prev fun prev => { prev with next := leaf.next }
  t.modify leaf.next fun next => { next with prev := leaf.prev }

/-- Takes a child out of its parent, with a separator beside it, and frees it. -/
def dropChild (t : BPlusTree) (child parent : Int) (ci : Nat) : Option BPlusTree := do
  let p ← t.nodes parent
  let _ ← p.children[ci]?
  let ki := if 0 < ci then ci - 1 else 0
  if !p.keys.isEmpty && p.keys[ki]?.isNone then none
  let t := t.put parent { p with
    keys := if p.keys.isEmpty then p.keys else p.keys.eraseIdx ki
    children := p.children.eraseIdx ci }
  t.delete child

/-- The loop up the path, as long as a node has been left empty. -/
def prune (t : BPlusTree) : Int → List (Int × Nat) → Option BPlusTree
  | _, [] => some t
  | child, (parent, ci) :: path =>
    if child = t.root then some t
    else do
      let c ← t.nodes child
      if !(if c.leaf then c.keys.isEmpty else c.children.isEmpty) then return t
      let t ← if c.leaf then t.unlinkLeaf c else some t
      let t ← t.dropChild child parent ci
      t.prune parent path

/-- As long as the root has a single child, that becomes the root. -/
def collapse : Nat → BPlusTree → Option BPlusTree
  | 0, _ => none
  | fuel + 1, t => do
    let root ← t.nodes t.root
    if !root.leaf && root.children.length == 1 then
      let only ← root.children[0]?
      let t ← t.delete t.root
      collapse fuel { t with root := only }
    else if !root.leaf && root.children.isEmpty then
      return t.put t.root { root with leaf := true, keys := [] }
    else return t

def erase (t : BPlusTree) (key : Value) (rid : RecordID) : Option (BPlusTree × Bool) := do
  let (n, path) ← t.descend key t.allocated t.root []
  let leaf ← t.nodes n
  match leaf.keys.findIdx? fun k => keyEqual k key with
  | none => return (t, false)
  | some pos =>
    let list ← leaf.values[pos]?
    if rid ∉ list then return (t, false)
    let list := list.erase rid
    if list ≠ [] then return (t.put n { leaf with values := leaf.values.set pos list }, true)
    let t := t.put n
      { leaf with keys := leaf.keys.eraseIdx pos, values := leaf.values.eraseIdx pos }
    let t := { t with distinctKeys := t.distinctKeys - 1 }
    let t ← t.prune n path
    let t ← collapse t.allocated t
    return (t, true)

/-! ## Freeing -/

def freeNode : Nat → BPlusTree → Int → Option BPlusTree
  | 0, _, _ => none
  | fuel + 1, t, n => do
    let node ← t.nodes n
    let t ← if node.leaf then some t else node.children.foldlM (freeNode fuel) t
    t.delete n

/-! ## Runs -/

/-- The tree after the operations, and what the erasures among them returned. -/
def run : BPlusTree → List TreeOp → Option (BPlusTree × List Bool)
  | t, [] => some (t, [])
  | t, .insert key rid :: ops => do
    let t ← t.insert key rid
    t.run ops
  | t, .erase key rid :: ops => do
    let (t, found) ← t.erase key rid
    let (t, answers) ← t.run ops
    return (t, found :: answers)

end BPlusTree

end Relite
