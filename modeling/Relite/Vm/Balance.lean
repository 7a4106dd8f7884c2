import Relite.Txn.RollbackRows
import Relite.Vm.ExecutorSpec
import Mathlib.Algebra.Order.Group.Multiset
import Mathlib.Data.Multiset.Filter

/-!
# The balance of rows

A call that hands a row to a table adds it if it fits into a page, and drops it without
an error if it does not. So a program leaves each table the rows it had, less those that
its calls took away, with those that its calls handed over and that fit (`rows_run`).
-/
namespace Relite.Vm
open Lib

/-- An empty page has room for the row, and its slot counts as live. -/
def Fits (bytes : Bytes) : Prop := bytes ≠ [] ∧ bytes.length ≤ 4080

instance : DecidablePred Fits := fun bytes => by unfold Fits; infer_instance

namespace TableManager

variable {tm tm' : TableManager} {t u : TableId} {rid nr : RecordID} {bytes : Bytes}

/-- The row at a record id of the table. -/
def rowAt (tm : TableManager) (t : TableId) (rid : RecordID) : Multiset Bytes :=
  (tm.heap t rid).elim 0 fun b => {b}

/-- A row that is handed to table `u`, as seen from table `t`. -/
def handedTo (u : TableId) (bytes : Bytes) (t : TableId) : Multiset Bytes :=
  if u = t then {bytes} else 0

theorem filter_handedTo (u : TableId) (bytes : Bytes) (t : TableId) :
    (handedTo u bytes t).filter Fits = if Fits bytes then handedTo u bytes t else 0 := by
  unfold handedTo
  split <;> split <;> simp_all [Multiset.filter_singleton]

theorem WF.rows_eq_rowAt_add (h : tm.WF) (t : TableId) (rid : RecordID) :
    tm.rows t = tm.rowAt t rid + tm.rowsExcept [rid] t := by
  unfold rowAt
  cases hb : tm.heap t rid with
  | none => simp [h.rowsExcept_cons_dead hb, rowsExcept_nil]
  | some b => rw [← rowsExcept_nil, h.rowsExcept_cons hb List.not_mem_nil]; rfl

theorem Inserted.rows (h : tm.WF) (h' : tm'.WF) (hins : Inserted tm u bytes tm' rid)
    (t : TableId) : tm'.rows t = tm.rows t + (handedTo u bytes t).filter Fits := by
  rw [filter_handedTo]
  by_cases hfits : Fits bytes
  · have hnil : ∀ r ∈ ([] : List RecordID), r = {} ∨ tm.Allocated r := by simp
    have hrows := hins.rowsExcept (t := t) h h' hfits.1 hfits.2 hnil
    simp only [rowsExcept_nil] at hrows
    simp only [hrows, hfits, if_true, handedTo, eq_comm]
  · rw [if_neg hfits, Multiset.add_zero, ← rowsExcept_nil, ← rowsExcept_nil]
    cases hins with
    | refused _ hheap => exact h'.rowsExcept_congr h fun r v => by rw [hheap]
    | placed _ _ hne hle => exact absurd ⟨hne, hle⟩ hfits

theorem WF.rows_eraseTuple (h : tm.WF) (rid : RecordID) (t : TableId) :
    (tm.eraseTuple rid).1.rows t + tm.rowAt t rid = tm.rows t := by
  rw [← rowsExcept_nil, h.rowsExcept_eraseTuple, h.rows_eq_rowAt_add t rid, Multiset.add_comm]

theorem Updated.rows (h : tm.WF) (h' : tm'.WF) (hup : Updated tm u rid bytes tm' nr)
    (t : TableId) :
    tm'.rows t + tm.rowAt t rid = tm.rows t + (handedTo u bytes t).filter Fits := by
  cases hup with
  | inPlace hlive hne hle hheap =>
    have hsame : tm'.rowsExcept [rid] t = tm.rowsExcept [rid] t :=
      h'.rowsExcept_congr h fun r v => by rw [hheap, setRow_apply]; grind
    rw [h'.rows_eq_rowAt_add t rid, h.rows_eq_rowAt_add t rid, hsame, filter_handedTo,
      if_pos ⟨hne, hle⟩]
    by_cases ht : t = u
    · subst ht
      have hrow : tm'.rowAt t rid = {bytes} := by simp [rowAt, hheap]
      rw [hrow, handedTo, if_pos rfl]
      rw [Multiset.add_comm, Multiset.add_assoc, Multiset.add_comm {bytes}]
    · have hother : tm.heap t rid = none := by
        obtain ⟨b, hb⟩ := Option.isSome_iff_exists.mp hlive
        cases hc : tm.heap t rid with
        | none => rfl
        | some b' => exact absurd (h.owner_unique hc hb) ht
      have hrow : tm'.heap t rid = none := by rw [hheap, setRow_apply, if_neg (by tauto), hother]
      simp [rowAt, hother, hrow, handedTo, Ne.symm ht]
  | moved hins =>
    rw [hins.rows (h.eraseTuple rid).1 h', add_right_comm, h.rows_eraseTuple]

theorem WF.of_drop (h : tm.WF) (hs : SamePages (tm.setPages u []) tm') :
    tm'.WF ∧ tm'.rows t + (if u = t then tm.rows t else 0) = tm.rows t := by
  have hwf := hs.wf (h.setPages_nil u)
  have hheap : tm'.heap = Function.update tm.heap u fun _ => none := by
    rw [hs.heap, heap_setPages_nil]
  refine ⟨hwf, ?_⟩
  split
  · rename_i ht
    subst ht
    have hnone : ∀ row, row ∉ tm'.tuples u := fun row hm => by
      rw [← Prod.mk.eta (p := row), mem_tuples, hheap, Function.update_self] at hm
      cases hm
    rw [show tm'.rows u = 0 by simp [rows, List.eq_nil_iff_forall_not_mem.mpr hnone],
      Multiset.zero_add]
  · rename_i ht
    rw [Multiset.add_zero, ← rowsExcept_nil, ← rowsExcept_nil]
    exact hwf.rowsExcept_congr h fun r v => by
      rw [hheap, Function.update_of_ne (Ne.symm ht)]

end TableManager

namespace Call
open TableManager

/-- The row that a call hands to a table. -/
def handed (c : Call) (t : TableId) : Multiset Bytes :=
  match c with
  | insertTuple u bytes | updateTuple u _ bytes => handedTo u bytes t
  | _ => 0

/-- The same row, whichever table it is for. -/
def row? : Call → Option Bytes
  | insertTuple _ bytes | updateTuple _ _ bytes => some bytes
  | _ => none

theorem mem_row?_iff (c : Call) {P : Bytes → Prop} :
    (∀ bytes ∈ c.row?, P bytes) ↔ ∀ t, ∀ bytes ∈ c.handed t, P bytes := by
  have hto : ∀ u b, P b ↔ ∀ t, ∀ b' ∈ handedTo u b t, P b' := by
    intro u b
    refine ⟨fun h t b' hb' => ?_, fun h => h u b (by simp [handedTo])⟩
    unfold handedTo at hb'
    split at hb'
    · exact Multiset.mem_singleton.mp hb' ▸ h
    · cases Multiset.notMem_zero _ hb'
  cases c with
  | insertTuple u b => simpa [row?, handed] using hto u b
  | updateTuple u rid b => simpa [row?, handed] using hto u b
  | _ => simp [row?, handed]

/-- The rows that a call takes out of a table. -/
def taken (db : Db) (c : Call) (t : TableId) : Multiset Bytes :=
  match c with
  | updateTuple _ rid _ | eraseTuple rid => db.tables.rowAt t rid
  | truncateTable u | dropTable u => if u = t then db.tables.rows t else 0
  | _ => 0

theorem balance {db : Db} (h : db.tables.WF) {c : Call} (hc : c.Listed db) (t : TableId) :
    (c.apply db).1.tables.WF ∧
      (c.apply db).1.tables.rows t + c.taken db t = db.tables.rows t + (c.handed t).filter Fits := by
  cases c with
  | insertTuple u bytes =>
    obtain ⟨hwf, -, hins⟩ := h.insertTuple (Prod.mk.eta (p := db.tables.insertTuple u bytes)).symm
    exact ⟨hwf, (add_zero _).trans (hins.rows h hwf t)⟩
  | updateTuple u rid bytes =>
    obtain ⟨hwf, -, hup⟩ :=
      h.updateTuple (fun _ => hc) (Prod.mk.eta (p := db.tables.updateTuple u rid bytes)).symm
    exact ⟨hwf, hup.rows h hwf t⟩
  | eraseTuple rid =>
    exact ⟨(h.eraseTuple rid).1, (h.rows_eraseTuple rid t).trans (add_zero _).symm⟩
  | truncateTable u =>
    obtain ⟨hwf, hrows⟩ := h.of_drop (t := t) (samePages_truncateTable db.tables u)
    exact ⟨hwf, hrows.trans (add_zero _).symm⟩
  | dropTable u =>
    obtain ⟨hwf, hrows⟩ := h.of_drop (t := t) (samePages_dropTable db.tables u)
    exact ⟨hwf, hrows.trans (add_zero _).symm⟩
  | registerTable u =>
    have hs := samePages_registerTable db.tables u
    refine ⟨hs.wf h, ?_⟩
    simp only [taken, handed, Multiset.add_zero, Multiset.filter_zero]
    rw [← rowsExcept_nil, ← rowsExcept_nil]
    exact (hs.wf h).rowsExcept_congr h fun r v => by rw [← hs.heap]
  | _ => exact ⟨h, rfl⟩

end Call

namespace Exec

variable {α β : Type}

/-- The rows that the run hands to the table. -/
def handed (x : Exec α) (db : Db) (t : TableId) : Multiset Bytes :=
  Prog.tally (fun (c : Call) db => c.apply db) (fun _ c => c.handed t) x db

/-- The rows that the run takes out of the table. -/
def taken (x : Exec α) (db : Db) (t : TableId) : Multiset Bytes :=
  Prog.tally (fun (c : Call) db => c.apply db) (fun db c => c.taken db t) x db

theorem tally_filter (x : Exec α) (db : Db) (t : TableId) :
    Prog.tally (fun (c : Call) db => c.apply db) (fun _ c => (c.handed t).filter Fits) x db =
      (x.handed db t).filter Fits := by
  unfold handed Prog.tally
  generalize Prog.calls _ x db = calls
  induction calls with
  | nil => rfl
  | cons c calls ih => simp only [List.map_cons, List.sum_cons, Multiset.filter_add, ih]

/-- What the run leaves of each table. -/
theorem rows_run {x : Exec α} {db : Db} (hwf : db.tables.WF) (hall : AllListed x db)
    (t : TableId) :
    (x.run db).2.tables.WF ∧ (x.run db).2.tables.rows t + x.taken db t =
      db.tables.rows t + (x.handed db t).filter Fits := by
  rw [← tally_filter]
  exact Prog.balance _ (fun db : Db => db.tables.WF) (fun db => db.tables.rows t)
    (fun _ _ h hc => Call.balance h hc t) x hwf hall

/-- No row that the run handed over is missing if and only if they all fit. -/
theorem rows_run_iff {x : Exec α} {db : Db} (hwf : db.tables.WF) (hall : AllListed x db)
    (t : TableId) :
    (x.run db).2.tables.rows t + x.taken db t = db.tables.rows t + x.handed db t ↔
      ∀ bytes ∈ x.handed db t, Fits bytes := by
  rw [(rows_run hwf hall t).2, add_right_inj, Multiset.filter_eq_self]

/-- The rows that the run hands to any table, in order. -/
def rowsHanded (x : Exec α) (db : Db) : List Bytes :=
  (x.calls (fun (c : Call) db => c.apply db) db).filterMap fun c => c.2.row?

theorem mem_rowsHanded_iff {x : Exec α} {db : Db} {P : Bytes → Prop} :
    (∀ bytes ∈ x.rowsHanded db, P bytes) ↔ ∀ t, ∀ bytes ∈ x.handed db t, P bytes := by
  unfold rowsHanded handed Prog.tally
  generalize Prog.calls _ x db = calls
  induction calls with
  | nil => simp
  | cons c calls ih =>
    simp only [List.filterMap_cons, List.map_cons, List.sum_cons, Multiset.mem_add]
    have hrow := c.2.mem_row?_iff (P := P)
    have hsplit : (∀ t, ∀ b, b ∈ c.2.handed t ∨
        b ∈ (calls.map fun c => c.2.handed t).sum → P b) ↔ (∀ b ∈ c.2.row?, P b) ∧
          ∀ b ∈ calls.filterMap (fun c => c.2.row?), P b := by
      rw [hrow, ih]
      simp only [or_imp, forall_and]
    rw [hsplit]
    cases c.2.row? <;> simp

end Exec

end Relite.Vm
