import Relite.Lib.Refinement
import Relite.Vm.Heap

/-!
# The heap as a map

Seen from outside, the pages, the free space that is remembered for them and the lists of
pages are a map from record ids to records for each table. Rows move inside their pages and
between pages, and none of this shows but in the record ids that are answered.
-/
namespace Relite.Vm
open Lib Backend

/-- The live record ids of each table with their records. -/
abbrev RowMap := TableId → RecordID → Option Bytes

inductive HeapOp
  | insertTuple (tableId : TableId) (bytes : Bytes)
  | updateTuple (tableId : TableId) (rid : RecordID) (bytes : Bytes)
  | eraseTuple (rid : RecordID)
  deriving DecidableEq

inductive HeapAnswer
  | record (rid : RecordID)
  | erased (done : Bool)
  deriving DecidableEq

namespace RowMap

/-- No table has a row at the record id. -/
def Free (rows : RowMap) (rid : RecordID) : Prop := ∀ t, rows t rid = none

/-- A record that an empty page has room for. -/
def Storable (bytes : Bytes) : Prop := 1 ≤ bytes.length ∧ bytes.length ≤ 4080

instance (bytes : Bytes) : Decidable (Storable bytes) := inferInstanceAs (Decidable (_ ∧ _))

/-- What the callers of a heap may expect of a map of rows. -/
def spec : Specification RowMap HeapOp HeapAnswer where
  Valid rows
    | .insertTuple _ bytes => Storable bytes
    | .updateTuple t rid bytes => (rows t rid).isSome ∧ Storable bytes
    | .eraseTuple rid => ∃ t, (rows t rid).isSome
  Allowed rows
    | .insertTuple _ _, .record rid => rows.Free rid
    | .updateTuple _ rid _, .record rid' => rid' = rid ∨ rows.Free rid'
    | .eraseTuple _, .erased done => done = true
    | _, _ => False
  next rows
    | .insertTuple t bytes, .record rid => TableManager.setRow rows t rid (some bytes)
    | .updateTuple t rid bytes, .record rid' =>
      TableManager.setRow (TableManager.setRow rows t rid none) t rid' (some bytes)
    | .eraseTuple rid, .erased _ => fun t r => if r = rid then none else rows t r
    | _, _ => rows

end RowMap

namespace TableManager

def machine : Machine TableManager HeapOp HeapAnswer where
  step tm
    | .insertTuple t bytes => (tm.insertTuple t bytes).1
    | .updateTuple t rid bytes => (tm.updateTuple t rid bytes).1
    | .eraseTuple rid => (tm.eraseTuple rid).1
  answer tm
    | .insertTuple t bytes => .record (tm.insertTuple t bytes).2
    | .updateTuple t rid bytes => .record (tm.updateTuple t rid bytes).2
    | .eraseTuple rid => .erased (tm.eraseTuple rid).2

/-- The heap has the rows of the map: just the record ids of a table are live, each reads as
its record and belongs to no other table, and the iterator over a table yields just its
rows, each once. -/
structure Shows (tm : TableManager) (rows : RowMap) : Prop where
  get : ∀ rid bytes, tm.getTuple rid = some bytes ↔ ∃ t, rows t rid = some bytes
  owner : ∀ t u rid, (rows t rid).isSome → (rows u rid).isSome → t = u
  iterate : ∀ t rid bytes, (rid, bytes) ∈ tm.tuples t ↔ rows t rid = some bytes
  once : ∀ t, ((tm.tuples t).map Prod.fst).Nodup

/-- Every live record is on a page that a table lists. -/
def Owned (tm : TableManager) : Prop :=
  ∀ rid bytes, tm.getTuple rid = some bytes → ∃ t, rid.pageId ∈ tm.pageList t

/-- What is kept: a sound heap without lost pages, whose rows are those of the map. -/
structure Simulates (tm : TableManager) (rows : RowMap) : Prop where
  wf : tm.WF
  owned : tm.Owned
  heap : tm.heap = rows

theorem Simulates.shows {tm : TableManager} {rows : RowMap} (h : tm.Simulates rows) :
    tm.Shows rows := by
  obtain ⟨hwf, howned, rfl⟩ := h
  refine ⟨fun rid bytes => ⟨fun hb => ?_, fun ⟨t, hb⟩ => (heap_eq_some_iff.mp hb).2⟩,
    fun t u rid ht hu => ?_, fun t rid bytes => mem_tuples, fun t => hwf.nodup_tuples t⟩
  · obtain ⟨t, ht⟩ := howned rid bytes hb
    exact ⟨t, heap_eq_some_iff.mpr ⟨ht, hb⟩⟩
  obtain ⟨b, hb⟩ := Option.isSome_iff_exists.mp ht
  obtain ⟨b', hb'⟩ := Option.isSome_iff_exists.mp hu
  exact hwf.owner_unique hb hb'

theorem WF.free_of_not_allocated {tm : TableManager} (h : tm.WF) {rid : RecordID}
    (hrid : ¬tm.Allocated rid) : RowMap.Free tm.heap rid := by
  intro t
  cases hb : tm.heap t rid with
  | none => rfl
  | some b => exact absurd (h.allocated_of_heap hb) hrid

/-- A record that fits into a page is placed at a record id that no row has. -/
theorem WF.placed {tm tm' : TableManager} {t : TableId} {bytes : Bytes} {rid : RecordID}
    (h : tm.WF) (hfits : RowMap.Storable bytes) (hins : Inserted tm t bytes tm' rid) :
    RowMap.Free tm.heap rid ∧ tm'.heap = setRow tm.heap t rid (some bytes) := by
  cases hins with
  | refused hsize _ =>
    rcases hsize with rfl | hlong
    · exact absurd hfits.1 (by simp)
    · exact absurd hfits.2 (Nat.not_le.mpr hlong)
  | placed hfresh _ _ _ hheap => exact ⟨h.free_of_not_allocated hfresh, hheap⟩

/-! ## Live records stay on listed pages -/

theorem Owned.insertTuple {tm : TableManager} (h : tm.Owned) (hs : tm.Sound) (t : TableId)
    (bytes : Bytes) : (tm.insertTuple t bytes).1.Owned := by
  obtain ⟨-, -, hlist, hst⟩ := hs.insertTuple (Prod.mk.eta (p := tm.insertTuple t bytes)).symm
  intro rid b hb
  have hold : ∀ b, tm.getTuple rid = some b →
      ∃ u, rid.pageId ∈ (tm.insertTuple t bytes).1.pageList u := by
    intro b hb
    obtain ⟨u, hu⟩ := h rid b hb
    exact ⟨u, hlist.mem_of_mem hu⟩
  generalize (tm.insertTuple t bytes).2 = nr at hst
  cases hst with
  | refused _ hget => exact hold b (hget ▸ hb)
  | placed _ _ _ _ hmem hget =>
    by_cases hr : rid = nr
    · exact ⟨t, hr ▸ hmem⟩
    · rw [hget, Function.update_of_ne hr] at hb
      exact hold b hb

theorem Owned.eraseTuple {tm : TableManager} (h : tm.Owned) (hs : tm.Sound) (rid : RecordID) :
    (tm.eraseTuple rid).1.Owned := by
  obtain ⟨-, -, hlist, -, hget⟩ := hs.eraseTuple rid
  intro r b hb
  rw [hget, Function.update_apply] at hb
  split at hb
  · cases hb
  · rw [hlist]
    exact h r b hb

theorem Owned.updateTuple {tm : TableManager} (h : tm.Owned) (hs : tm.Sound) (t : TableId)
    (rid : RecordID) (bytes : Bytes) : (tm.updateTuple t rid bytes).1.Owned := by
  unfold TableManager.updateTuple
  split
  · rename_i page hup
    obtain ⟨-, -, -, hget⟩ := hs.overwrite hup
    have hlive : (tm.getTuple rid).isSome := (Page.update_spec (hs.pageOk _) hup).2.2.1
    intro r b hb
    by_cases hr : r = rid
    · obtain ⟨b', hb'⟩ := Option.isSome_iff_exists.mp hlive
      exact h r b' (hr ▸ hb')
    · simp only [hget, Function.update_of_ne hr] at hb
      exact h r b hb
  · exact (h.eraseTuple hs rid).insertTuple (hs.eraseTuple rid).1 t bytes

/-! ## One step -/

variable {tm : TableManager} {rows : RowMap} {t : TableId} {rid : RecordID} {bytes : Bytes}

theorem Simulates.insertTuple (h : tm.Simulates rows) (t : TableId)
    (hfits : RowMap.Storable bytes) :
    let out := tm.insertTuple t bytes
    rows.Free out.2 ∧ out.1.Simulates (setRow rows t out.2 (some bytes)) := by
  intro out
  obtain ⟨hwf, howned, rfl⟩ := h
  obtain ⟨hwf', -, hins⟩ := hwf.insertTuple (Prod.mk.eta (p := out)).symm
  obtain ⟨hfree, hheap⟩ := hwf.placed hfits hins
  exact ⟨hfree, hwf', howned.insertTuple hwf.toSound t bytes, hheap⟩

theorem Simulates.updateTuple (h : tm.Simulates rows) (hlive : (rows t rid).isSome)
    (hfits : RowMap.Storable bytes) :
    let out := tm.updateTuple t rid bytes
    (out.2 = rid ∨ rows.Free out.2) ∧
      out.1.Simulates (setRow (setRow rows t rid none) t out.2 (some bytes)) := by
  intro out
  obtain ⟨hwf, howned, rfl⟩ := h
  obtain ⟨b, hb⟩ := Option.isSome_iff_exists.mp hlive
  have howned' : out.1.Owned := howned.updateTuple hwf.toSound t rid bytes
  obtain ⟨hwf', -, hup⟩ :=
    hwf.updateTuple (fun _ => (heap_eq_some_iff.mp hb).1) (Prod.mk.eta (p := out)).symm
  generalize out.2 = nr at hup ⊢
  cases hup with
  | inPlace _ _ _ hheap =>
    refine ⟨.inl rfl, hwf', howned', hheap.trans ?_⟩
    funext u r
    simp only [setRow_apply]
    split <;> simp_all
  | moved hins =>
    -- the row is erased first, and the erased heap takes the new record
    obtain ⟨hwf₁, -, -, herased⟩ := hwf.eraseTuple_live hb
    obtain ⟨hfree, hheap⟩ := hwf₁.placed hfits hins
    rw [herased] at hfree hheap
    refine ⟨?_, hwf', howned', hheap⟩
    by_cases hrid : nr = rid
    · exact .inl hrid
    · refine .inr fun u => ?_
      have := hfree u
      rwa [setRow_apply, if_neg fun hc => hrid hc.2] at this

theorem Simulates.eraseTuple (h : tm.Simulates rows) (hlive : (rows t rid).isSome) :
    (tm.eraseTuple rid).2 = true ∧
      (tm.eraseTuple rid).1.Simulates fun u r => if r = rid then none else rows u r := by
  obtain ⟨hwf, howned, rfl⟩ := h
  obtain ⟨b, hb⟩ := Option.isSome_iff_exists.mp hlive
  obtain ⟨hwf', -, hdone, hheap⟩ := hwf.eraseTuple rid
  refine ⟨?_, hwf', howned.eraseTuple hwf.toSound rid, funext fun u => funext fun r => hheap u r⟩
  rw [hdone, (heap_eq_some_iff.mp hb).2]
  rfl

theorem simulates_step (tm : TableManager) (rows : RowMap) (o : HeapOp) (h : tm.Simulates rows)
    (hvalid : RowMap.spec.Valid rows o) :
    RowMap.spec.Allowed rows o (machine.answer tm o) ∧
      (machine.step tm o).Simulates (RowMap.spec.next rows o (machine.answer tm o)) := by
  cases o with
  | insertTuple t bytes => exact h.insertTuple t hvalid
  | updateTuple t rid bytes => exact h.updateTuple hvalid.1 hvalid.2
  | eraseTuple rid =>
    obtain ⟨t, hlive⟩ := hvalid
    exact h.eraseTuple hlive

/-- A table heap is a map of rows: in every run on live record ids, with records that a page
has room for, the answers are those of the map and the heap shows its rows. -/
theorem heap_refines_rowMap (ops : List HeapOp)
    (hops : ValidRun machine RowMap.spec .empty (fun _ _ => none) ops) :
    Refines machine RowMap.spec Shows .empty (fun _ _ => none) ops := by
  refine refines_of_simulation (fun _ _ h => h.shows) simulates_step ⟨wf_empty, ?_, ?_⟩ hops
  · intro rid bytes hb
    obtain ⟨-, -, hlow, hhigh⟩ := wf_empty.allocated_of_getTuple hb
    exact absurd (lt_of_le_of_lt hlow hhigh) (lt_irrefl 0)
  · funext t rid
    simp [heap, empty, pageList]

/-- Rows of two tables, one of which is then moved and one erased. -/
theorem heap_refines_rowMap_moved :
    Refines machine RowMap.spec Shows .empty (fun _ _ => none)
      [.insertTuple 1 [1], .insertTuple 2 [2], .updateTuple 1 ⟨0, 0⟩ [3, 4],
        .eraseTuple ⟨1, 0⟩] :=
  heap_refines_rowMap _ ⟨⟨by decide, by decide⟩, ⟨by decide, by decide⟩,
    ⟨by decide +kernel, by decide, by decide⟩, ⟨2, by decide +kernel⟩, trivial⟩

end TableManager

end Relite.Vm
