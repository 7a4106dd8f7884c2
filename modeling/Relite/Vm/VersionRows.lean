import Relite.Vm.VersionStore
import Relite.Lib.ChangeLog

/-!
# Reconstructed rows as a map

The row buffer holds one entry per record id, so the rows it yields are a map, and each
change it applies is a write to that map. What `reconstruct` yields is then the baseline
with the changes of the table up to the version replayed over it.
-/
namespace Relite.Vm
open Lib

/-- A change as a write to the rows of its table. -/
def Change.write (c : Change) : RecordID × Option Bytes :=
  (c.rid, if c.isDelete then none else some c.bytes)

namespace RowBuffer

def keys (b : RowBuffer) : List RecordID := b.rows.map fun row => row.1.1

structure Ok (b : RowBuffer) : Prop where
  nodup : b.keys.Nodup
  pos_iff : ∀ rid i, b.pos rid = some i ↔ b.keys[i]? = some rid

theorem ok_empty : Ok {} where
  nodup := List.nodup_nil
  pos_iff rid i := by simp [keys]

theorem not_mem_keys {b : RowBuffer} (h : b.Ok) {rid : RecordID} (hp : b.pos rid = none) :
    rid ∉ b.keys := by
  intro hm
  obtain ⟨i, hi⟩ := List.mem_iff_getElem?.mp hm
  rw [(h.pos_iff rid i).mpr hi] at hp
  cases hp

theorem keys_push (b : RowBuffer) (row : BaseRow) : (b.push row).keys = b.keys ++ [row.1] := by
  simp [keys, push]

theorem Ok.push {b : RowBuffer} (h : b.Ok) {row : BaseRow} (hnew : row.1 ∉ b.keys) :
    (b.push row).Ok where
  nodup := by
    rw [keys_push]
    refine h.nodup.append (List.nodup_singleton _) ?_
    intro rid hm hm'
    rw [List.mem_singleton] at hm'
    exact hnew (hm' ▸ hm)
  pos_iff rid i := by
    have hlen : b.rows.length = b.keys.length := by simp [keys]
    rw [keys_push]
    simp only [RowBuffer.push, Function.update_apply, hlen]
    rcases Nat.lt_trichotomy i b.keys.length with hi | hi | hi
    · rw [List.getElem?_append_left hi]
      by_cases hr : rid = row.1
      · subst hr
        have : b.keys[i]? ≠ some row.1 := fun hc => hnew (List.mem_of_getElem? hc)
        simp only [if_true, Option.some.injEq, this, iff_false]
        omega
      · rw [if_neg hr, h.pos_iff]
    · subst hi
      rw [List.getElem?_append_right (le_refl _)]
      by_cases hr : rid = row.1
      · simp [hr]
      · rw [if_neg hr, h.pos_iff]
        simp [Ne.symm hr]
    · rw [List.getElem?_eq_none (by simp; omega)]
      by_cases hr : rid = row.1
      · simp only [hr, if_true, Option.some.injEq, reduceCtorEq, iff_false]
        omega
      · rw [if_neg hr, h.pos_iff, List.getElem?_eq_none (by omega)]

theorem keys_modify (b : RowBuffer) (i : Nat) (f : BaseRow × Bool → BaseRow × Bool)
    (hf : ∀ row, (f row).1.1 = row.1.1) :
    keys { b with rows := b.rows.modify i f } = b.keys := by
  apply List.ext_getElem?
  intro j
  simp only [keys, List.getElem?_map, List.getElem?_modify]
  split
  · cases b.rows[j]? <;> simp [hf]
  · cases b.rows[j]? <;> simp

theorem Ok.modify {b : RowBuffer} (h : b.Ok) (i : Nat) (f : BaseRow × Bool → BaseRow × Bool)
    (hf : ∀ row, (f row).1.1 = row.1.1) : Ok { b with rows := b.rows.modify i f } where
  nodup := by rw [keys_modify b i f hf]; exact h.nodup
  pos_iff := by rw [keys_modify b i f hf]; exact h.pos_iff

theorem Ok.apply {b : RowBuffer} (h : b.Ok) (c : Change) : (b.apply c).Ok := by
  unfold RowBuffer.apply
  split
  · split
    · exact h.modify _ _ fun _ => rfl
    · exact h.modify _ _ fun _ => rfl
  · split
    · exact h
    · exact h.push (not_mem_keys h ‹_›)

theorem Ok.nodup_out {b : RowBuffer} (h : b.Ok) : (b.out.map Prod.fst).Nodup := by
  refine h.nodup.sublist ?_
  rw [out, List.map_map]
  exact (List.filter_sublist).map _

theorem mem_out {b : RowBuffer} {row : BaseRow} : row ∈ b.out ↔ (row, true) ∈ b.rows := by
  simp [out]

theorem Ok.out_eq_some_iff {b : RowBuffer} (h : b.Ok) (rid : RecordID) (v : Bytes) :
    rowMap b.out rid = some v ↔ ∃ i : Nat, b.rows[i]? = some ((rid, v), true) := by
  rw [rowMap_eq_some_iff h.nodup_out, mem_out, List.mem_iff_getElem?]

theorem Ok.out_push {b : RowBuffer} (h : b.Ok) {row : BaseRow} (hnew : row.1 ∉ b.keys) :
    rowMap (b.push row).out = Function.update (rowMap b.out) row.1 (some row.2) := by
  obtain ⟨k, w⟩ := row
  funext rid
  apply Option.ext
  intro v
  rw [rowMap_eq_some_iff (h.push hnew).nodup_out, mem_out]
  simp only [RowBuffer.push, List.mem_append, List.mem_singleton, Prod.mk.injEq, and_true]
  by_cases hr : rid = k
  · subst hr
    have hnot : ((rid, v), true) ∉ b.rows := fun hm =>
      hnew (List.mem_map_of_mem (f := fun row : BaseRow × Bool => row.1.1) hm)
    simp [hnot, eq_comm]
  · rw [Function.update_of_ne hr, rowMap_eq_some_iff h.nodup_out, mem_out]
    simp [hr]

theorem Ok.out_modify {b : RowBuffer} (h : b.Ok) {i : Nat} {k : RecordID}
    (hi : b.keys[i]? = some k) (f : BaseRow × Bool → BaseRow × Bool)
    (hf : ∀ row, (f row).1.1 = row.1.1) {v : Option Bytes}
    (hv : ∀ row, row.1.1 = k → ∀ w, f row = ((k, w), true) ↔ v = some w) :
    rowMap (out { b with rows := b.rows.modify i f }) = Function.update (rowMap b.out) k v := by
  funext rid
  apply Option.ext
  intro w
  rw [(h.modify i f hf).out_eq_some_iff]
  simp only [List.getElem?_modify, Option.map_eq_map, Option.map_eq_some_iff]
  obtain ⟨row, hrow, hk⟩ : ∃ row, b.rows[i]? = some row ∧ row.1.1 = k := by
    simpa [keys] using hi
  by_cases hr : rid = k
  · subst hr
    rw [Function.update_self, ← hv row hk w]
    constructor
    · rintro ⟨j, x, hx, hfx⟩
      have hkx : x.1.1 = rid := by
        split at hfx
        · rw [← hf x, hfx]
        · rw [hfx]
      have hj : b.keys[j]? = some rid := by simp [keys, hx, hkx]
      have hij : i = j := by
        have h₁ := (h.pos_iff rid i).mpr hi
        rw [(h.pos_iff rid j).mpr hj] at h₁
        exact (Option.some.inj h₁).symm
      subst hij
      rw [hrow] at hx
      cases hx
      simpa using hfx
    · intro hfr
      exact ⟨i, row, hrow, by simpa using hfr⟩
  · rw [Function.update_of_ne hr, h.out_eq_some_iff]
    constructor
    · rintro ⟨j, x, hx, hfx⟩
      split at hfx
      · rename_i hij
        subst hij
        rw [hrow] at hx
        cases hx
        have hkey := hf row
        rw [hfx, hk] at hkey
        exact absurd hkey hr
      · exact ⟨j, hfx ▸ hx⟩
    · rintro ⟨j, hj⟩
      refine ⟨j, _, hj, ?_⟩
      rw [if_neg]
      rintro rfl
      rw [hrow] at hj
      cases hj
      exact hr hk

/-- A change is a write to the map of live rows. -/
theorem Ok.out_apply {b : RowBuffer} (h : b.Ok) (c : Change) :
    rowMap (b.apply c).out = Function.update (rowMap b.out) c.write.1 c.write.2 := by
  unfold RowBuffer.apply
  split
  · rename_i i hp
    have hi := (h.pos_iff _ _).mp hp
    split
    · rename_i hd
      refine h.out_modify hi (fun row => (row.1, false)) (fun _ => rfl) fun row _ w => ?_
      simp [Change.write, hd]
    · rename_i hd
      refine h.out_modify hi (fun row => ((row.1.1, c.bytes), true)) (fun _ => rfl)
        fun row hk w => ?_
      simp [Change.write, hd, hk]
  · rename_i hp
    have hnew := not_mem_keys h hp
    split
    · rename_i hd
      have : rowMap b.out c.rid = none := by
        cases hc : rowMap b.out c.rid with
        | none => rfl
        | some v =>
          have hm := mem_out.mp ((rowMap_eq_some_iff h.nodup_out _ _).mp hc)
          exact absurd (List.mem_map_of_mem (f := fun row : BaseRow × Bool => row.1.1) hm) hnew
      simp only [Change.write, hd, if_true, ← this, Function.update_eq_self]
    · rename_i hd
      rw [h.out_push hnew]
      simp [Change.write, hd]

theorem Ok.foldl_apply (cs : List Change) {b : RowBuffer} (h : b.Ok) :
    (cs.foldl RowBuffer.apply b).Ok ∧
      rowMap (cs.foldl RowBuffer.apply b).out = replay (rowMap b.out) (cs.map Change.write) := by
  induction cs generalizing b with
  | nil => exact ⟨h, rfl⟩
  | cons c cs ih =>
    obtain ⟨hok, hmap⟩ := ih (h.apply c)
    exact ⟨hok, by rw [List.foldl_cons, hmap, h.out_apply]; rfl⟩

/-- A buffer filled from rows yields them again. -/
theorem ofRows_spec (rows : List BaseRow) (h : (rows.map Prod.fst).Nodup) :
    (ofRows rows).Ok ∧ (ofRows rows).out = rows := by
  induction rows using List.reverseRecOn with
  | nil => exact ⟨ok_empty, rfl⟩
  | append_singleton rows row ih =>
    rw [List.map_append] at h
    obtain ⟨hok, hout⟩ := ih (List.Nodup.of_append_left h)
    have he : ofRows (rows ++ [row]) = (ofRows rows).push row := by simp [ofRows]
    have hkeys : ∀ rows : List BaseRow, (ofRows rows).keys = rows.map Prod.fst := by
      intro rows
      induction rows using List.reverseRecOn with
      | nil => rfl
      | append_singleton rows row ih =>
        rw [ofRows, List.foldl_append] at *
        simp only [List.foldl_cons, List.foldl_nil, keys_push, ih]
        simp
    have hnew : row.1 ∉ (ofRows rows).keys := by
      rw [hkeys]
      intro hm
      exact (List.nodup_append.mp h).2.2 _ hm _ (by simp) rfl
    rw [he]
    refine ⟨hok.push hnew, ?_⟩
    rw [out] at hout
    rw [out, RowBuffer.push, List.filter_append, List.map_append, hout]
    rfl

end RowBuffer

end Relite.Vm
