import Relite.Index.Entries
import Relite.Vm.WriteSpec

/-!
# Indexes and the rows of their tables

An index agrees with a heap if it has exactly one entry for each live row that it covers,
with a key equal to that of the row, and no other entry. A row that goes takes its entries
with it if the keys that are removed are its keys; a row that comes brings its entries if
the keys that are added are its keys as it is read back.
-/
namespace Relite.Vm
open Lib Semantic Txn

/-- The tuples of all tables. -/
abbrev Rows := TableId → RecordID → Option Bytes

/-- The key of the row at a record id, if there is one that the index covers. -/
def keyAt (catalog : Catalog) (rows : Rows) (idx : Index) (rid : RecordID) : Option Value := do
  let bytes ← rows idx.tableId rid
  let row ← (Tuple.deserialize bytes (catalog.loadSchema idx.tableId)).toOption
  if idx.coversRow row.length then some (idx.keyOf row) else none

theorem keyAt_eq_none {catalog : Catalog} {rows : Rows} {idx : Index} {rid : RecordID}
    (h : rows idx.tableId rid = none) : keyAt catalog rows idx rid = none := by
  simp [keyAt, h]

theorem keyAt_congr {catalog : Catalog} {rows rows' : Rows} {idx : Index} {rid : RecordID}
    (h : rows' idx.tableId rid = rows idx.tableId rid) :
    keyAt catalog rows' idx rid = keyAt catalog rows idx rid := by
  simp [keyAt, h]

/-- The tuples without the one at `rid`. -/
def without (rows : Rows) (rid : RecordID) : Rows := fun t r => if r = rid then none else rows t r

end Relite.Vm

/-! ## One index -/

namespace Relite.Index
open Lib Semantic Vm

/-- The entries of the index are in order, and for each record id they are the one of the row
there, or none. -/
structure Agrees (catalog : Catalog) (rows : Rows) (idx : Index) : Prop where
  sorted : idx.tree.Sorted
  entries : ∀ rid, List.Forall₂ (fun k key => keyEqual k key) (idx.tree.keysAt rid)
    (keyAt catalog rows idx rid).toList

def addAll (idx : Index) (keys : List Value) (rid : RecordID) : Index :=
  keys.foldl (fun idx k => idx.add k rid) idx

def removeAll (idx : Index) (keys : List Value) (rid : RecordID) : Index :=
  keys.foldl (fun idx k => idx.remove k rid) idx

theorem removeAll_spec (keys : List Value) (rid : RecordID) (idx : Index) :
    ∃ tree, idx.removeAll keys rid = { idx with tree } ∧ (idx.tree.Sorted → tree.Sorted) ∧
      (∀ r, r ≠ rid → tree.keysAt r = idx.tree.keysAt r) ∧
      tree.keysAt rid = keys.foldl (fun l k => l.eraseP fun k' => keyEqual k' k)
        (idx.tree.keysAt rid) := by
  induction keys generalizing idx with
  | nil => exact ⟨idx.tree, rfl, id, fun _ _ => rfl, rfl⟩
  | cons k keys ih =>
    obtain ⟨tree, he, hsorted, hother, hself⟩ := ih (idx.remove k rid)
    refine ⟨tree, he, fun h => hsorted (h.erase k rid), fun r hr => ?_, ?_⟩
    · rw [hother r hr]
      exact Tree.keysAt_erase_of_ne _ _ hr
    · have hone : (idx.remove k rid).tree.keysAt rid = _ := Tree.keysAt_erase_self idx.tree k rid
      rw [hself, List.foldl_cons, hone]

/-- Whichever keys are erased, nothing is left of at most one entry if its key is among them. -/
theorem foldl_eraseP_eq_nil {keys l : List Value} {o : Option Value}
    (h : List.Forall₂ (fun k key => keyEqual k key) l o.toList) (ho : ∀ k ∈ o, k ∈ keys) :
    keys.foldl (fun l k => l.eraseP fun k' => keyEqual k' k) l = [] := by
  have hnil : ∀ keys : List Value,
      keys.foldl (fun l k => l.eraseP fun k' => keyEqual k' k) ([] : List Value) = [] := by
    intro keys
    induction keys with
    | nil => rfl
    | cons k keys ih => exact ih
  cases o with
  | none =>
    obtain rfl := List.forall₂_nil_right_iff.mp h
    exact hnil keys
  | some key =>
    obtain ⟨k₀, l', heq, hrest, rfl⟩ := List.forall₂_cons_right_iff.mp h
    obtain rfl := List.forall₂_nil_right_iff.mp hrest
    have hmem := ho key rfl
    clear h ho
    induction keys with
    | nil => cases hmem
    | cons k keys ih =>
      rw [List.foldl_cons]
      cases hk : keyEqual k₀ k with
      | true =>
        rw [List.eraseP_cons_of_pos (p := fun k' => keyEqual k' k) hk]
        exact hnil keys
      | false =>
        rw [List.eraseP_cons_of_neg (p := fun k' => keyEqual k' k) (by simp [hk]), List.eraseP_nil]
        refine ih ?_
        rcases List.mem_cons.mp hmem with rfl | hmem
        · exact absurd heq (by simp [hk])
        · exact hmem

variable {catalog : Catalog} {rows rows' : Rows} {idx : Index}

theorem Agrees.congr (h : idx.Agrees catalog rows)
    (hrows : ∀ r, rows' idx.tableId r = rows idx.tableId r) : idx.Agrees catalog rows' :=
  ⟨h.sorted, fun rid => (keyAt_congr (hrows rid)) ▸ h.entries rid⟩

theorem Agrees.nodup (h : idx.Agrees catalog rows) : (idx.tree.map Prod.snd).Nodup := by
  refine List.nodup_iff_count_le_one.mpr fun rid => ?_
  have hone : (keyAt catalog rows idx rid).toList.length ≤ 1 := by
    cases keyAt catalog rows idx rid <;> simp
  rw [← (h.entries rid).length_eq, Tree.keysAt, List.length_map] at hone
  rw [List.count, List.countP_map, List.countP_eq_length_filter]
  exact hone

/-- A row goes, and its key is among those that are removed. -/
theorem Agrees.remove (h : idx.Agrees catalog rows) {rid : RecordID} {keys : List Value}
    (hkeys : ∀ k ∈ keyAt catalog rows idx rid, k ∈ keys) :
    (idx.removeAll keys rid).Agrees catalog (without rows rid) := by
  obtain ⟨tree, he, hsorted, hother, hself⟩ := idx.removeAll_spec keys rid
  rw [he]
  refine ⟨hsorted h.sorted, fun r => ?_⟩
  by_cases hr : r = rid
  · subst hr
    have hnone : keyAt catalog (without rows r) { idx with tree } r = none :=
      keyAt_eq_none (by simp [without])
    rw [hnone, hself, foldl_eraseP_eq_nil (h.entries r) hkeys]
    exact .nil
  · have hsame : keyAt catalog (without rows rid) { idx with tree } r = keyAt catalog rows idx r :=
      keyAt_congr (by simp [without, hr])
    rw [hsame, hother r hr]
    exact h.entries r

/-- A row comes at a free record id, and the key that is added, if any, is its key. -/
theorem Agrees.add (h : idx.Agrees catalog rows) {nr : RecordID}
    (hother : ∀ r, r ≠ nr → rows' idx.tableId r = rows idx.tableId r)
    (hfree : rows idx.tableId nr = none) {keys : List Value} (hone : keys.length ≤ 1)
    (hcovered : (keyAt catalog rows' idx nr).isSome → keys ≠ [])
    (hkeys : ∀ key ∈ keys, Tree.Ordered (key :: idx.tree.map Prod.fst) ∧
      ∃ k ∈ keyAt catalog rows' idx nr, keyEqual key k) :
    (idx.addAll keys nr).Agrees catalog rows' := by
  have hempty : idx.tree.keysAt nr = [] := by
    have hat := h.entries nr
    rw [keyAt_eq_none hfree] at hat
    exact List.forall₂_nil_right_iff.mp hat
  match keys, hone with
  | [], _ =>
    refine ⟨h.sorted, fun r => ?_⟩
    by_cases hr : r = nr
    · subst hr
      have hnone : keyAt catalog rows' idx r = none := by
        by_contra hsome
        exact hcovered (Option.isSome_iff_ne_none.mpr hsome) rfl
      change List.Forall₂ _ (idx.tree.keysAt r) (keyAt catalog rows' idx r).toList
      rw [hnone, hempty]
      exact .nil
    · have hsame : keyAt catalog rows' idx r = keyAt catalog rows idx r :=
        keyAt_congr (hother r hr)
      change List.Forall₂ _ (idx.tree.keysAt r) (keyAt catalog rows' idx r).toList
      rw [hsame]
      exact h.entries r
  | [key], _ =>
    obtain ⟨hord, k, hk, heq⟩ := hkeys key (by simp)
    refine ⟨h.sorted.insert nr hord, fun r => ?_⟩
    change List.Forall₂ _ ((idx.tree.insert key nr).keysAt r) (keyAt catalog rows' idx r).toList
    by_cases hr : r = nr
    · subst hr
      rw [Tree.keysAt_insert_self hempty, Option.mem_def.mp hk]
      exact .cons heq .nil
    · rw [Tree.keysAt_insert_of_ne _ _ hr, keyAt_congr (hother r hr)]
      exact h.entries r

end Relite.Index

/-! ## All indexes -/

namespace Relite.IndexManager
open Lib Semantic Vm

/-- Every index agrees with the rows of its table. -/
def Agree (catalog : Catalog) (rows : Rows) (im : IndexManager) : Prop :=
  ∀ idx ∈ im, idx.Agrees catalog rows

/-- Of the keys those for the index of that name. -/
def keysFor (keys : List (String × Value)) (name : String) : List Value :=
  (keys.filter fun k => k.1 = name).map Prod.snd

theorem mem_keysFor {keys : List (String × Value)} {name : String} {k : Value} :
    k ∈ keysFor keys name ↔ (name, k) ∈ keys := by
  simp only [keysFor, List.mem_map, List.mem_filter, decide_eq_true_eq]
  constructor
  · rintro ⟨⟨n, k'⟩, ⟨hmem, rfl⟩, rfl⟩
    exact hmem
  · exact fun h => ⟨(name, k), ⟨h, rfl⟩, rfl⟩

theorem length_keysFor {keys : List (String × Value)} (h : (keys.map Prod.fst).Nodup)
    (name : String) : (keysFor keys name).length ≤ 1 := by
  have hnames : ((keys.filter fun k => k.1 = name).map Prod.fst).Nodup :=
    h.sublist (List.filter_sublist.map _)
  have hsame : ∀ n ∈ (keys.filter fun k => k.1 = name).map Prod.fst, n = name := by
    intro n hn
    obtain ⟨k, hk, rfl⟩ := List.mem_map.mp hn
    simpa using (List.mem_filter.mp hk).2
  have hle := (List.nodup_replicate (n := _) (a := name)).mp
    (List.eq_replicate_of_mem hsame ▸ hnames)
  simpa [keysFor] using hle

theorem removeKeys_eq_map (im : IndexManager) (keys : List (String × Value)) (rid : RecordID) :
    im.removeKeys keys rid = im.map fun idx => idx.removeAll (keysFor keys idx.name) rid := by
  induction keys generalizing im with
  | nil => exact (List.map_id im).symm
  | cons k keys ih =>
    refine (ih _).trans ?_
    unfold IndexManager.remove onIndex
    rw [List.map_map]
    refine List.map_congr_left fun idx _ => ?_
    by_cases hk : idx.name = k.1
    · simp [Function.comp_apply, hk, keysFor, Index.removeAll, Index.remove]
    · simp [Function.comp_apply, hk, keysFor, Ne.symm hk]

theorem addKeys_eq_map (im : IndexManager) (keys : List (String × Value)) (rid : RecordID) :
    im.addKeys keys rid = im.map fun idx => idx.addAll (keysFor keys idx.name) rid := by
  induction keys generalizing im with
  | nil => exact (List.map_id im).symm
  | cons k keys ih =>
    refine (ih _).trans ?_
    unfold IndexManager.add onIndex
    rw [List.map_map]
    refine List.map_congr_left fun idx _ => ?_
    by_cases hk : idx.name = k.1
    · simp [Function.comp_apply, hk, keysFor, Index.addAll, Index.add]
    · simp [Function.comp_apply, hk, keysFor, Ne.symm hk]

/-- The keys hold that of the row at `rid` in each index that covers it. -/
def Takes (catalog : Catalog) (rows : Rows) (im : IndexManager) (keys : List (String × Value))
    (rid : RecordID) : Prop :=
  ∀ idx ∈ im, ∀ k ∈ keyAt catalog rows idx rid, (idx.name, k) ∈ keys

/-- The keys are those of the row at `rid`, one for each index that covers it. -/
structure Brings (catalog : Catalog) (rows : Rows) (im : IndexManager)
    (keys : List (String × Value)) (rid : RecordID) : Prop where
  names : (keys.map Prod.fst).Nodup
  covered : ∀ idx ∈ im, (keyAt catalog rows idx rid).isSome → idx.name ∈ keys.map Prod.fst
  equal : ∀ k ∈ keys, ∀ idx ∈ im, idx.name = k.1 →
    Tree.Ordered (k.2 :: idx.tree.map Prod.fst) ∧
      ∃ key ∈ keyAt catalog rows idx rid, keyEqual k.2 key

variable {catalog : Catalog} {rows rows' : Rows} {im : IndexManager}
  {keys : List (String × Value)} {rid : RecordID}

instance : Decidable (Takes catalog rows im keys rid) := by unfold Takes; infer_instance

instance : Decidable (Brings catalog rows im keys rid) :=
  decidable_of_iff (_ ∧ _ ∧ _)
    ⟨fun ⟨names, covered, equal⟩ => ⟨names, covered, equal⟩, fun h => ⟨h.1, h.2, h.3⟩⟩

theorem Agree.remove (h : im.Agree catalog rows) (hkeys : im.Takes catalog rows keys rid) :
    (im.removeKeys keys rid).Agree catalog (without rows rid) := by
  rw [removeKeys_eq_map]
  intro idx' hidx'
  obtain ⟨idx, hidx, rfl⟩ := List.mem_map.mp hidx'
  exact (h idx hidx).remove fun k hk => mem_keysFor.mpr (hkeys idx hidx k hk)

theorem Agree.add (h : im.Agree catalog rows) (hother : ∀ t r, r ≠ rid → rows' t r = rows t r)
    (hfree : ∀ t, rows t rid = none) (hkeys : im.Brings catalog rows' keys rid) :
    (im.addKeys keys rid).Agree catalog rows' := by
  rw [addKeys_eq_map]
  intro idx' hidx'
  obtain ⟨idx, hidx, rfl⟩ := List.mem_map.mp hidx'
  refine (h idx hidx).add (hother idx.tableId) (hfree idx.tableId) (length_keysFor hkeys.names _) ?_
    fun key hkey => hkeys.equal (idx.name, key) (mem_keysFor.mp hkey) idx hidx rfl
  intro hsome hnil
  obtain ⟨k, hk, hname⟩ := List.mem_map.mp (hkeys.covered idx hidx hsome)
  have hmem : k.2 ∈ keysFor keys idx.name := mem_keysFor.mpr (hname ▸ hk)
  rw [hnil] at hmem
  cases hmem

theorem Agree.congr (h : im.Agree catalog rows) (hrows : ∀ t r, rows' t r = rows t r) :
    im.Agree catalog rows' := by
  obtain rfl : rows' = rows := funext fun t => funext (hrows t)
  exact h

end Relite.IndexManager
