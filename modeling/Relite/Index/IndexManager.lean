import Relite.Vm.Tuple
import Relite.Vm.TableManager
import Mathlib.Data.List.Nodup

/-!
# Indexes

An index maps key values to record ids. Its B+ tree is seen as the sorted list of its
entries; the Bloom filter before it is kept as it is, since it can hide entries.
-/
namespace Relite
open Lib Vm

/-! ## The Bloom filter -/

def fnv1a (data : Bytes) (seed : UInt64) : UInt64 :=
  data.foldl (fun h b => (h ^^^ UInt64.ofNat b.toNat) * 1099511628211) seed

def numHashes : Nat := 4

def numBits : Nat := 32768

/-- The bit that the `i`th hash of a key sets. -/
def locate (key : Bytes) (i : Nat) : Nat :=
  let h1 := fnv1a key 1469598103934665603
  let h2 := fnv1a key 1099511628211 ||| 1
  (h1 + UInt64.ofNat i * h2).toNat % numBits

/-- The bits that are set. -/
structure BloomFilter where
  words : List Nat := []

namespace BloomFilter

def add (bloom : BloomFilter) (key : Bytes) : BloomFilter :=
  ⟨(List.range numHashes).map (locate key) ++ bloom.words⟩

def mightContain (bloom : BloomFilter) (key : Bytes) : Bool :=
  (List.range numHashes).all fun i => bloom.words.contains (locate key i)

end BloomFilter

/-! ## The entries -/

abbrev Entry := Value × RecordID

def ridLess (a b : RecordID) : Bool :=
  if a.pageId ≠ b.pageId then decide (a.pageId < b.pageId) else decide (a.slotId < b.slotId)

def keyEqual (a b : Value) : Bool := !valueLess a b && !valueLess b a

def entryLess (a b : Entry) : Bool :=
  if valueLess a.1 b.1 then true else if valueLess b.1 a.1 then false else ridLess a.2 b.2

/-- The entries of a B+ tree in order. -/
abbrev Tree := List Entry

namespace Tree

def insert (tree : Tree) (key : Value) (rid : RecordID) : Tree :=
  if tree.any fun e => keyEqual e.1 key && e.2 == rid then tree
  else
    tree.takeWhile (fun e => entryLess e (key, rid)) ++
      (key, rid) :: tree.dropWhile fun e => entryLess e (key, rid)

def erase (tree : Tree) (key : Value) (rid : RecordID) : Tree :=
  tree.eraseP fun e => keyEqual e.1 key && e.2 == rid

def rangeScan (tree : Tree) (lo hi : Option Value) : List RecordID :=
  let from_ := tree.filter fun e => !lo.any fun lo => valueLess e.1 lo
  (from_.takeWhile fun e => !hi.any fun hi => valueLess hi e.1).map Prod.snd

end Tree

structure Index where
  name : String
  tableId : TableId
  columns : List Int
  tree : Tree := []
  bloom : BloomFilter := {}

/-- The bytes of a key that go into the Bloom filter. A double has none. -/
def keyBytes : Value → Bytes
  | .int v => toLE 8 v.toUInt64.toNat
  | .bool b => [if b then 1 else 0]
  | .text s => s
  | .null => []
  | .double _ => []

namespace Index

def columnIndex (idx : Index) : Int := idx.columns.headD (-1)

def isComposite (idx : Index) : Bool := decide (1 < idx.columns.length)

def coversRow (idx : Index) (width : Nat) : Bool :=
  idx.columns.all fun c => decide (0 ≤ c ∧ c < width)

def keyFromValues : List Value → Value
  | [v] => v
  | picked =>
    .text (picked.flatMap fun v => ascii (toString v.typeCode) ++ ascii ":" ++ v.toString ++ [0x1f])

def keyOf (idx : Index) (row : Tuple) : Value :=
  keyFromValues (idx.columns.map fun (c : Int) =>
    if 0 ≤ c ∧ c < row.length then row.getD c.toNat .null else .null)

def add (idx : Index) (key : Value) (rid : RecordID) : Index :=
  { idx with tree := idx.tree.insert key rid, bloom := idx.bloom.add (keyBytes key) }

def remove (idx : Index) (key : Value) (rid : RecordID) : Index :=
  { idx with tree := idx.tree.erase key rid }

def lookup (idx : Index) (key : Value) : List RecordID :=
  if idx.bloom.mightContain (keyBytes key) then idx.tree.rangeScan (some key) (some key) else []

theorem mightContain_iff {bloom : BloomFilter} {key : Bytes} :
    bloom.mightContain key ↔ ∀ i < numHashes, locate key i ∈ bloom.words := by
  simp [BloomFilter.mightContain]

end Index

/-- The indexes in the order in which the map of them is walked. -/
abbrev IndexManager := List Index

namespace IndexManager

def create (im : IndexManager) (name : String) (tableId : TableId) (columns : List Int) :
    IndexManager :=
  if im.any fun idx => idx.name = name then im
  else im ++ [({ name, tableId, columns } : Index)]

def drop (im : IndexManager) (name : String) : IndexManager :=
  im.filter fun idx => idx.name ≠ name

def forTable (im : IndexManager) (tableId : TableId) : List Index :=
  im.filter fun idx => idx.tableId = tableId

def find (im : IndexManager) (tableId : TableId) (columnIndex : Int) : Option Index :=
  im.find? fun idx =>
    idx.tableId = tableId ∧ idx.columns.length = 1 ∧ idx.columnIndex = columnIndex

def dropTable (im : IndexManager) (tableId : TableId) : IndexManager :=
  im.filter fun idx => idx.tableId ≠ tableId

/-- `f` on the index of that name. -/
def onIndex (im : IndexManager) (name : String) (f : Index → Index) : IndexManager :=
  im.map fun idx => if idx.name = name then f idx else idx

def add (im : IndexManager) (name : String) (key : Value) (rid : RecordID) : IndexManager :=
  im.onIndex name fun idx => idx.add key rid

def remove (im : IndexManager) (name : String) (key : Value) (rid : RecordID) : IndexManager :=
  im.onIndex name fun idx => idx.remove key rid

/-- The record ids in the indexes of a table. -/
def Holds (im : IndexManager) (tableId : TableId) (rid : RecordID) : Prop :=
  ∃ idx ∈ im.forTable tableId, ∃ key, (key, rid) ∈ idx.tree

end IndexManager

theorem Tree.mem_of_mem_insert {tree : Tree} {key : Value} {rid : RecordID} {e : Entry}
    (h : e ∈ tree.insert key rid) : e ∈ tree ∨ e = (key, rid) := by
  unfold Tree.insert at h
  split at h
  · exact .inl h
  · rcases List.mem_append.mp h with h | h
    · exact .inl (List.takeWhile_subset _ h)
    · rcases List.mem_cons.mp h with h | h
      · exact .inr h
      · exact .inl (List.dropWhile_subset _ h)

theorem Tree.mem_rangeScan {tree : Tree} {lo hi : Option Value} {rid : RecordID}
    (h : rid ∈ tree.rangeScan lo hi) : ∃ key, (key, rid) ∈ tree := by
  obtain ⟨⟨key, rid'⟩, he, rfl⟩ := List.mem_map.mp h
  exact ⟨key, List.mem_of_mem_filter (List.takeWhile_subset _ he)⟩

namespace IndexManager

theorem holds_of_lookup {im : IndexManager} {t : TableId} {idx : Index} (hidx : idx ∈ im.forTable t)
    {key : Value} {rid : RecordID} (h : rid ∈ idx.lookup key) : im.Holds t rid := by
  unfold Index.lookup at h
  split at h
  · obtain ⟨k, hk⟩ := Tree.mem_rangeScan h
    exact ⟨idx, hidx, k, hk⟩
  · simp at h

theorem mem_forTable {im : IndexManager} {t : TableId} {idx : Index} :
    idx ∈ im.forTable t ↔ idx ∈ im ∧ idx.tableId = t := by
  simp [forTable]

theorem mem_onIndex {im : IndexManager} {name : String} {f : Index → Index} {idx : Index}
    (h : idx ∈ im.onIndex name f) :
    idx ∈ im ∨ ∃ idx₀ ∈ im, idx₀.name = name ∧ idx = f idx₀ := by
  obtain ⟨idx₀, h₀, he⟩ := List.mem_map.mp h
  split at he
  · exact .inr ⟨idx₀, h₀, ‹_›, he.symm⟩
  · exact .inl (he ▸ h₀)

/-- An added entry is the only new one, and it goes to the tables of that index. -/
theorem holds_add {im : IndexManager} {name : String} {key : Value} {r rid : RecordID} {t : TableId}
    (h : (im.add name key r).Holds t rid) :
    im.Holds t rid ∨ rid = r ∧ ∃ idx ∈ im, idx.name = name ∧ idx.tableId = t := by
  obtain ⟨idx, hidx, k, hk⟩ := h
  obtain ⟨hmem, ht⟩ := mem_forTable.mp hidx
  rcases mem_onIndex hmem with hmem | ⟨idx₀, h₀, hname, rfl⟩
  · exact .inl ⟨idx, mem_forTable.mpr ⟨hmem, ht⟩, k, hk⟩
  · rcases Tree.mem_of_mem_insert hk with hk | hk
    · exact .inl ⟨idx₀, mem_forTable.mpr ⟨h₀, ht⟩, k, hk⟩
    · cases hk
      exact .inr ⟨rfl, idx₀, h₀, hname, ht⟩

theorem holds_remove {im : IndexManager} {name : String} {key : Value} {r rid : RecordID}
    {t : TableId} (h : (im.remove name key r).Holds t rid) : im.Holds t rid := by
  obtain ⟨idx, hidx, k, hk⟩ := h
  obtain ⟨hmem, ht⟩ := mem_forTable.mp hidx
  rcases mem_onIndex hmem with hmem | ⟨idx₀, h₀, -, rfl⟩
  · exact ⟨idx, mem_forTable.mpr ⟨hmem, ht⟩, k, hk⟩
  · exact ⟨idx₀, mem_forTable.mpr ⟨h₀, ht⟩, k, List.mem_of_mem_eraseP hk⟩

/-- What of an index never changes. -/
abbrev Signature := String × TableId × List Int

def signatures (im : IndexManager) : List Signature :=
  im.map fun idx => (idx.name, idx.tableId, idx.columns)

theorem signatures_onIndex {im : IndexManager} {name : String} {f : Index → Index}
    (hf : ∀ idx, (f idx).name = idx.name ∧ (f idx).tableId = idx.tableId ∧
      (f idx).columns = idx.columns) : (im.onIndex name f).signatures = im.signatures := by
  simp only [signatures, onIndex, List.map_map]
  refine List.map_congr_left fun idx _ => ?_
  simp only [Function.comp_apply]
  split
  · rw [(hf idx).1, (hf idx).2.1, (hf idx).2.2]
  · rfl

@[simp] theorem signatures_add (im : IndexManager) (name : String) (key : Value) (rid : RecordID) :
    (im.add name key rid).signatures = im.signatures :=
  signatures_onIndex fun _ => ⟨rfl, rfl, rfl⟩

@[simp] theorem signatures_remove (im : IndexManager) (name : String) (key : Value)
    (rid : RecordID) : (im.remove name key rid).signatures = im.signatures :=
  signatures_onIndex fun _ => ⟨rfl, rfl, rfl⟩

theorem signatures_forTable (im : IndexManager) (t : TableId) :
    signatures (im.forTable t) = im.signatures.filter fun s => s.2.1 = t := by
  simp only [signatures, forTable, List.filter_map]
  rfl

/-- The names of the indexes and their tables. -/
def shape (im : IndexManager) : List (String × TableId) := im.map fun idx => (idx.name, idx.tableId)

theorem shape_eq_map (im : IndexManager) : im.shape = im.signatures.map fun s => (s.1, s.2.1) := by
  simp [shape, signatures]

theorem mem_shape {im : IndexManager} {idx : Index} {t : TableId} (h : idx ∈ im.forTable t) :
    (idx.name, t) ∈ im.shape := by
  obtain ⟨hmem, rfl⟩ := mem_forTable.mp h
  exact List.mem_map.mpr ⟨idx, hmem, rfl⟩

/-- The keys go to indexes of the table. -/
def KeysOf (im : IndexManager) (t : TableId) (keys : List (String × Value)) : Prop :=
  ∀ k ∈ keys, (k.1, t) ∈ im.shape

def addKeys (im : IndexManager) (keys : List (String × Value)) (rid : RecordID) :
    IndexManager :=
  keys.foldl (fun im k => im.add k.1 k.2 rid) im

def removeKeys (im : IndexManager) (keys : List (String × Value)) (rid : RecordID) :
    IndexManager :=
  keys.foldl (fun im k => im.remove k.1 k.2 rid) im

@[simp] theorem signatures_addKeys (im : IndexManager) (keys : List (String × Value))
    (rid : RecordID) : (im.addKeys keys rid).signatures = im.signatures := by
  induction keys generalizing im with
  | nil => rfl
  | cons k keys ih => exact (ih _).trans (signatures_add _ _ _ _)

@[simp] theorem signatures_removeKeys (im : IndexManager) (keys : List (String × Value))
    (rid : RecordID) : (im.removeKeys keys rid).signatures = im.signatures := by
  induction keys generalizing im with
  | nil => rfl
  | cons k keys ih => exact (ih _).trans (signatures_remove _ _ _ _)

@[simp] theorem shape_add (im : IndexManager) (name : String) (key : Value) (rid : RecordID) :
    (im.add name key rid).shape = im.shape := by simp [shape_eq_map]

@[simp] theorem shape_addKeys (im : IndexManager) (keys : List (String × Value)) (rid : RecordID) :
    (im.addKeys keys rid).shape = im.shape := by simp [shape_eq_map]

@[simp] theorem shape_removeKeys (im : IndexManager) (keys : List (String × Value))
    (rid : RecordID) : (im.removeKeys keys rid).shape = im.shape := by simp [shape_eq_map]

theorem holds_addKeys {im : IndexManager} {keys : List (String × Value)} {r rid : RecordID}
    {t : TableId} (h : (im.addKeys keys r).Holds t rid) :
    im.Holds t rid ∨ rid = r ∧ ∃ k ∈ keys, (k.1, t) ∈ im.shape := by
  induction keys generalizing im with
  | nil => exact .inl h
  | cons k keys ih =>
    rcases ih h with h | ⟨rfl, k', hk', hm⟩
    · rcases holds_add h with h | ⟨rfl, idx, hidx, hname, ht⟩
      · exact .inl h
      · refine .inr ⟨rfl, k, by simp, List.mem_map.mpr ⟨idx, hidx, ?_⟩⟩
        rw [hname, ht]
    · exact .inr ⟨rfl, k', by simp [hk'], by simpa using hm⟩

theorem holds_removeKeys {im : IndexManager} {keys : List (String × Value)} {r rid : RecordID}
    {t : TableId} (h : (im.removeKeys keys r).Holds t rid) : im.Holds t rid := by
  induction keys generalizing im with
  | nil => exact h
  | cons k keys ih => exact holds_remove (ih h)

/-- Where each name is given once, keys of a table add entries for that table only. -/
theorem KeysOf.holds {im : IndexManager} {keys : List (String × Value)} {t t' : TableId}
    (hkeys : im.KeysOf t keys) (hnames : (im.shape.map Prod.fst).Nodup) {r rid : RecordID}
    (h : (im.addKeys keys r).Holds t' rid) : im.Holds t' rid ∨ rid = r ∧ t' = t := by
  rcases holds_addKeys h with h | ⟨rfl, k, hk, hm⟩
  · exact .inl h
  · have heq := List.inj_on_of_nodup_map hnames hm (hkeys k hk) rfl
    exact .inr ⟨rfl, congrArg Prod.snd heq⟩

end IndexManager

end Relite
