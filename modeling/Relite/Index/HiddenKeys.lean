import Relite.Index.TreeRefinement

/-!
# Keys that the Bloom filter hides

An index asks its Bloom filter for the bytes of a key before it asks the tree. The tree compares
an integer to a double by their values, while their bytes differ, so that what is stored under
the one may be hidden from the other.
-/
namespace Relite
open Lib Backend Txn Vm

/-- An `Index` with its tree on pages. -/
structure PagedIndex where
  tree : DiskBPlusTree
  bloom : BloomFilter := {}

namespace PagedIndex

def add (idx : PagedIndex) (key : Value) (rid : RecordID) : Except Fault PagedIndex := do
  let tree ← idx.tree.insert key rid
  return { tree, bloom := idx.bloom.add (keyBytes key) }

def remove (idx : PagedIndex) (key : Value) (rid : RecordID) :
    Except Fault (PagedIndex × Bool) := do
  let (tree, found) ← idx.tree.erase key rid
  return ({ idx with tree }, found)

def lookup (idx : PagedIndex) (key : Value) : Except Fault (List RecordID) :=
  if idx.bloom.mightContain (keyBytes key) then idx.tree.lookup key else .ok []

/-- The index after calls of `add` and `remove`. -/
def run : PagedIndex → List TreeOp → Except Fault PagedIndex
  | idx, [] => .ok idx
  | idx, .insert key rid :: ops => do
    let idx ← idx.add key rid
    idx.run ops
  | idx, .erase key rid :: ops => do
    let (idx, _) ← idx.remove key rid
    idx.run ops

end PagedIndex

/-- The keys that the operations add. -/
def addedKeys : List TreeOp → List Value
  | [] => []
  | .insert key _ :: ops => key :: addedKeys ops
  | .erase _ _ :: ops => addedKeys ops

/-- Each bit of the key is one of the keys that were added. -/
def Covered (added : List Value) (key : Value) : Prop :=
  ∀ i < numHashes, ∃ k ∈ added, ∃ j < numHashes,
    locate (keyBytes k) j = locate (keyBytes key) i

/-- A key with the bytes of one that was added is covered. -/
theorem covered_of_keyBytes_eq {added : List Value} {key k : Value} (hk : k ∈ added)
    (h : keyBytes k = keyBytes key) : Covered added key :=
  fun i hi => ⟨k, hk, i, hi, by rw [h]⟩

namespace PagedIndex

variable {idx idx' : PagedIndex} {ops : List TreeOp}

theorem run_insert {key : Value} {rid : RecordID}
    (h : idx.run (.insert key rid :: ops) = .ok idx') :
    ∃ tree, idx.tree.insert key rid = .ok tree ∧
      run { tree, bloom := idx.bloom.add (keyBytes key) } ops = .ok idx' := by
  rw [run, add] at h
  cases htree : idx.tree.insert key rid with
  | error fault =>
    rw [htree] at h
    cases h
  | ok tree =>
    rw [htree] at h
    exact ⟨tree, rfl, h⟩

theorem run_erase {key : Value} {rid : RecordID}
    (h : idx.run (.erase key rid :: ops) = .ok idx') :
    ∃ tree found, idx.tree.erase key rid = .ok (tree, found) ∧
      run { idx with tree } ops = .ok idx' := by
  rw [run, remove] at h
  cases htree : idx.tree.erase key rid with
  | error fault =>
    rw [htree] at h
    cases h
  | ok p =>
    rw [htree] at h
    exact ⟨p.1, p.2, rfl, h⟩

/-- Bits are set by additions, and none is ever cleared. -/
theorem mem_words_of_run (h : idx.run ops = .ok idx') (bit : Nat) :
    bit ∈ idx'.bloom.words ↔ bit ∈ idx.bloom.words ∨
      ∃ k ∈ addedKeys ops, ∃ j < numHashes, locate (keyBytes k) j = bit := by
  induction ops generalizing idx with
  | nil =>
    cases h
    simp [addedKeys]
  | cons op ops ih =>
    cases op with
    | insert key rid =>
      obtain ⟨tree, -, h⟩ := run_insert h
      rw [ih h, addedKeys]
      simp only [BloomFilter.add, List.mem_append, List.mem_map, List.mem_range,
        List.mem_cons, exists_eq_or_imp]
      rw [or_left_comm, or_assoc]
    | erase key rid =>
      obtain ⟨tree, found, -, h⟩ := run_erase h
      have hwords := ih h
      exact hwords

/-- The tree of the index is the tree by itself after the same calls. -/
theorem tree_of_run (h : idx.run ops = .ok idx') :
    ∃ answers, idx.tree.run ops = .ok (idx'.tree, answers) := by
  induction ops generalizing idx with
  | nil =>
    cases h
    exact ⟨[], rfl⟩
  | cons op ops ih =>
    cases op with
    | insert key rid =>
      obtain ⟨tree, htree, h⟩ := run_insert h
      obtain ⟨answers, hrun⟩ := ih h
      exact ⟨answers, by rw [DiskBPlusTree.run, htree]; exact hrun⟩
    | erase key rid =>
      obtain ⟨tree, found, htree, h⟩ := run_erase h
      obtain ⟨answers, hrun⟩ := ih h
      refine ⟨found :: answers, ?_⟩
      rw [DiskBPlusTree.run, htree]
      exact congrArg (fun r => r >>= fun p => Except.ok (p.1, found :: p.2)) hrun

/-- The index answers as its tree does exactly if the tree has nothing for the key, or the keys
that were added have set all bits of the key. -/
theorem lookup_eq_lookup_tree_iff {pool : PageStore}
    (h : ({ tree := { pool } } : PagedIndex).run ops = .ok idx) (key : Value) :
    idx.lookup key = idx.tree.lookup key ↔
      idx.tree.lookup key = .ok [] ∨ Covered (addedKeys ops) key := by
  have hcovered : idx.bloom.mightContain (keyBytes key) ↔ Covered (addedKeys ops) key := by
    rw [Index.mightContain_iff]
    refine forall₂_congr fun i _ => ?_
    rw [mem_words_of_run h, or_iff_right List.not_mem_nil]
  rw [← hcovered, lookup]
  split
  · rename_i hmight
    exact iff_of_true rfl (.inr hmight)
  · rename_i hmight
    rw [or_iff_left hmight]
    exact eq_comm

theorem lookup_eq_lookup_tree_same : ∃ idx : PagedIndex,
    ({ tree := { pool := .empty } } : PagedIndex).run [.insert (.int 1) ⟨0, 0⟩] = .ok idx ∧
      idx.lookup (.int 1) = idx.tree.lookup (.int 1) := by
  have hok : (({ tree := { pool := .empty } } : PagedIndex).run
      [.insert (.int 1) ⟨0, 0⟩]).toOption.isSome := by
    decide +kernel
  cases hrun : ({ tree := { pool := .empty } } : PagedIndex).run [.insert (.int 1) ⟨0, 0⟩] with
  | error fault =>
    rw [hrun] at hok
    cases hok
  | ok idx =>
    exact ⟨idx, rfl, (lookup_eq_lookup_tree_iff hrun _).mpr
      (.inr (covered_of_keyBytes_eq List.mem_cons_self rfl))⟩

/-- Where the keys are in order, the tree has nothing for a key exactly if no entry that is
stored has one equal to it. -/
theorem lookup_tree_eq_nil_iff {pool : PageStore}
    (h : ({ tree := { pool } } : PagedIndex).run ops = .ok idx) {key : Value}
    (hkeys : Tree.Ordered (key :: ops.map TreeOp.key))
    (hrids : ∀ op ∈ ops, op.rid.valid ∧ IsInt32 op.rid.pageId ∧ IsInt32 op.rid.slotId) :
    idx.tree.lookup key = .ok [] ↔ ∀ e ∈ (Tree.run [] ops).1, ¬keyEqual e.1 key := by
  obtain ⟨answers, hrun⟩ := tree_of_run h
  have hrep := (represents_run hrids hrun hkeys (List.subset_cons_self _ _)).1
  have hless := strictWeakOn_entryLess hkeys
  have hmem : ∀ v ∈ some key, v ∈ key :: ops.map TreeOp.key := fun v hv =>
    Option.some_inj.mp hv ▸ List.mem_cons_self
  have hscan : (Tree.run [] ops).1.rangeScan (some key) (some key) =
      ((Tree.run [] ops).1.filter (between (some key) (some key))).map Prod.snd := by
    rcases hrep.laid with ⟨-, hnil⟩ | ⟨height, t, ht, -, hcontents⟩
    · rw [hnil]
      rfl
    · obtain ⟨hsorted, hkeyed⟩ := pairwise_contents hless ht
      rw [hcontents] at hsorted hkeyed
      exact rangeScan_eq_filter hkeys hsorted (fun e he => (hkeyed e he).1) hmem
  rw [DiskBPlusTree.lookup, rangeScan_eq hkeys hrep hmem, hscan]
  simp [between, keyEqual]

end PagedIndex

/-- The integer 1 is stored, and the double 1 is looked up. -/
theorem lookup_ne_lookup_tree : ∃ idx : PagedIndex,
    ({ tree := { pool := .empty } } : PagedIndex).run [.insert (.int 1) ⟨0, 0⟩] = .ok idx ∧
      idx.tree.lookup (.double 0x3ff0000000000000) = .ok [⟨0, 0⟩] ∧
      idx.lookup (.double 0x3ff0000000000000) = .ok [] := by
  have hanswers : (({ tree := { pool := .empty } } : PagedIndex).run
      [.insert (.int 1) ⟨0, 0⟩]).toOption.map (fun idx =>
        ((idx.tree.lookup (.double 0x3ff0000000000000)).toOption,
          (idx.lookup (.double 0x3ff0000000000000)).toOption)) =
      some (some [⟨0, 0⟩], some []) := by
    decide +kernel
  have hok : ∀ {α : Type} {x : Except Fault α} {a : α}, x.toOption = some a → x = .ok a := by
    intro α x a h
    cases x with
    | error fault => cases h
    | ok b => exact congrArg Except.ok (Option.some_inj.mp h)
  obtain ⟨idx, hrun, hidx⟩ := Option.map_eq_some_iff.mp hanswers
  obtain ⟨htree, hlookup⟩ := Prod.mk.injEq .. ▸ hidx
  exact ⟨idx, hok hrun, hok htree, hok hlookup⟩

end Relite
