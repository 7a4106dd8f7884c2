import Relite.Txn.UndoRows
import Relite.Vm.Session

/-!
# UNDO

The rows of every table after UNDO are those before START exactly when the transaction
logged no removal at a record id that an earlier one of its records names
(`undo_restores_iff`).
-/
namespace Relite.Vm
open Lib Semantic Txn

namespace Db

/-- What the closures of the current transaction do to the heap. -/
def heapUndo (db : Db) : List Undo := ((db.active db.currentTxn).getD []).map UndoClosure.heap

/-- The log records after the first `n`. -/
def loggedSince (db : Db) (n : Nat) : List LogRecord := db.wal.records.drop n

variable {db : Db} {n : Nat}

theorem Ok.heapUndo_undoInTxn (h : db.Ok) (htxn : db.currentTxn ≠ 0) (u : UndoClosure) :
    ((db.undoInTxn u db.currentTxn).getD []).map UndoClosure.heap = db.heapUndo ++ [u.heap] := by
  obtain ⟨undo, hundo⟩ := Option.isSome_iff_exists.mp ((h.active db.currentTxn).mpr ⟨rfl, htxn⟩)
  simp [undoInTxn_current db u htxn, heapUndo, hundo]

/-- Inside a transaction the records go to the end of the log. -/
theorem records_logInTxn (htxn : db.currentTxn ≠ 0) (records : List LogRecord) :
    ∃ l : List LogRecord, (db.logInTxn records).records = db.wal.records ++ l ∧
      List.Forall₂ (fun r r' => r' = { r with lsn := r'.lsn }) records l := by
  have h : ∀ (records : List LogRecord) (wal : WriteAheadLog), ∃ l : List LogRecord,
      (records.foldl WriteAheadLog.append wal).records = wal.records ++ l ∧
        List.Forall₂ (fun r r' => r' = { r with lsn := r'.lsn }) records l := by
    intro records
    induction records with
    | nil => exact fun wal => ⟨[], by simp, .nil⟩
    | cons r records ih =>
      intro wal
      obtain ⟨l, hl, hall⟩ := ih (wal.append r)
      refine ⟨{ r with lsn := wal.nextLsn } :: l, ?_, .cons rfl hall⟩
      rw [List.foldl_cons, hl]
      simp [WriteAheadLog.append]
  simpa [logInTxn, txnActive, htxn] using h records db.wal

/-- A transaction that began with the rows `before` and the log at length `n`. -/
structure Undoing (before : TableId → Multiset Bytes) (n : Nat) (db : Db) : Prop where
  inTxn : db.currentTxn ≠ 0
  length : n ≤ db.wal.records.length
  rows : UndoRows before db.tables db.heapUndo (db.loggedSince n)

/-- A row that was read: it is still there, or the transaction has logged its record id. -/
def SeenSince (n : Nat) (db : Db) (t : TableId) (rid : RecordID) (b : Bytes) : Prop :=
  rid ∈ (db.loggedSince n).map LogRecord.rid ∨ db.tables.heap t rid = some b

variable {before : TableId → Multiset Bytes} {db' : Db}

theorem Undoing.insertRow (h : Undoing before n db) (hok : db.Ok) (t : TableId)
    (keys : List (String × Value)) (bytes : Bytes) :
    Undoing before n (db.insertRow t keys bytes) ∧
      ∀ t' r b, db.tables.Found t' r b → SeenSince n db t' r b →
        SeenSince n (db.insertRow t keys bytes) t' r b := by
  unfold Db.insertRow
  generalize hi : db.tables.insertTuple t bytes = result
  obtain ⟨tables, rid⟩ := result
  obtain ⟨-, -, hins⟩ := hok.tables.insertTuple hi
  obtain ⟨l, hl, hall⟩ := records_logInTxn h.inTxn [db.insertRecord t rid bytes]
  obtain ⟨r, rfl, hr⟩ : ∃ r, l = [r] ∧ r = { db.insertRecord t rid bytes with lsn := r.lsn } := by
    cases hall with
    | cons hr hnil => cases hnil; exact ⟨_, rfl, hr⟩
  have hlogged : (db.logInTxn [db.insertRecord t rid bytes]).records.drop n =
      db.loggedSince n ++ [r] := by
    rw [hl, List.drop_append_of_le_length h.length, loggedSince]
  refine ⟨⟨h.inTxn, ?_, ?_⟩, fun t' x b hfound hseen => ?_⟩
  · simp only [hl, List.length_append]
    have := h.length
    omega
  · simp only [heapUndo, loggedSince, hlogged, hok.heapUndo_undoInTxn h.inTxn]
    exact h.rows.insert hok.tables hi (by rw [hr]; rfl) (by rw [hr]; rfl)
  · simp only [SeenSince, loggedSince, hlogged, hins.heap_of_allocated hfound.allocated,
      List.map_append, List.mem_append]
    exact hseen.imp_left .inl

theorem Undoing.eraseRow (h : Undoing before n db) (hok : db.Ok) {t : TableId}
    (keys : List (String × Value)) {rid : RecordID} {bytes : Bytes} (staged : Bool)
    (hfound : db.tables.Found t rid bytes) (hseen : SeenSince n db t rid bytes) :
    Undoing before n (db.eraseRow t keys rid bytes staged) ∧
      ∀ t' r b, db.tables.Found t' r b → SeenSince n db t' r b →
        SeenSince n (db.eraseRow t keys rid bytes staged) t' r b := by
  unfold Db.eraseRow
  obtain ⟨l, hl, hall⟩ := records_logInTxn h.inTxn [db.deleteRecord t rid bytes]
  obtain ⟨r, rfl, hr⟩ : ∃ r, l = [r] ∧ r = { db.deleteRecord t rid bytes with lsn := r.lsn } := by
    cases hall with
    | cons hr hnil => cases hnil; exact ⟨_, rfl, hr⟩
  have hlogged : (db.logInTxn [db.deleteRecord t rid bytes]).records.drop n =
      db.loggedSince n ++ [r] := by
    rw [hl, List.drop_append_of_le_length h.length, loggedSince]
  have hrid : r.rid = rid := by rw [hr]; rfl
  obtain ⟨-, -, -, hheap⟩ := hok.tables.eraseTuple rid
  refine ⟨⟨h.inTxn, ?_, ?_⟩, fun t' x b hf hs => ?_⟩
  · simp only [hl, List.length_append]
    have := h.length
    omega
  · simp only [heapUndo, loggedSince, hlogged, hok.heapUndo_undoInTxn h.inTxn]
    exact h.rows.erase hok.tables hfound hseen (by rw [hr]; rfl) hrid (by rw [hr]; rfl)
      (by rw [hr]; rfl)
  · simp only [SeenSince, loggedSince, hlogged, hheap, List.map_append, List.mem_append,
      List.map_cons, List.map_nil, List.mem_singleton, hrid]
    by_cases hx : x = rid
    · exact .inl (.inr hx)
    · rw [if_neg hx]
      exact hs.imp_left .inl

theorem Undoing.rewriteRow (h : Undoing before n db) (hok : db.Ok) {t : TableId}
    (keys : RewriteKeys) {rid : RecordID} {oldBytes : Bytes} (newBytes : Bytes) (staged : Bool)
    (hfound : db.tables.Found t rid oldBytes) (hseen : SeenSince n db t rid oldBytes) :
    Undoing before n (db.rewriteRow t keys rid oldBytes newBytes staged) ∧
      ∀ t' r b, db.tables.Found t' r b → SeenSince n db t' r b →
        SeenSince n (db.rewriteRow t keys rid oldBytes newBytes staged) t' r b := by
  unfold Db.rewriteRow
  generalize hu : db.tables.updateTuple t rid newBytes = result
  obtain ⟨tables, nr⟩ := result
  obtain ⟨-, -, hup⟩ := hok.tables.updateTuple (fun _ => hfound.listed) hu
  obtain ⟨l, hl, hall⟩ :=
    records_logInTxn h.inTxn [db.deleteRecord t rid oldBytes, db.insertRecord t nr newBytes]
  obtain ⟨r, r', rfl, hr, hr'⟩ : ∃ r r', l = [r, r'] ∧
      r = { db.deleteRecord t rid oldBytes with lsn := r.lsn } ∧
      r' = { db.insertRecord t nr newBytes with lsn := r'.lsn } := by
    cases hall with
    | cons hr hall =>
      cases hall with
      | cons hr' hnil => cases hnil; exact ⟨_, _, rfl, hr, hr'⟩
  have hlogged : (db.logInTxn
      [db.deleteRecord t rid oldBytes, db.insertRecord t nr newBytes]).records.drop n =
      db.loggedSince n ++ [r, r'] := by
    rw [hl, List.drop_append_of_le_length h.length, loggedSince]
  have hrid : r.rid = rid := by rw [hr]; rfl
  refine ⟨⟨h.inTxn, ?_, ?_⟩, fun t' x b hf hs => ?_⟩
  · simp only [hl, List.length_append]
    have := h.length
    omega
  · simp only [heapUndo, loggedSince, hlogged, hok.heapUndo_undoInTxn h.inTxn]
    exact h.rows.rewrite hok.tables hfound hseen hu (by rw [hr]; rfl) hrid (by rw [hr]; rfl)
      (by rw [hr]; rfl) (by rw [hr']; rfl) (by rw [hr']; rfl)
  · simp only [SeenSince, loggedSince, hlogged, List.map_append, List.mem_append,
      List.map_cons, List.map_nil, List.mem_cons, hrid]
    by_cases hx : x = rid
    · exact .inl (.inr (.inl hx))
    · rw [hup.heap_of_allocated hok.tables hf.allocated hx]
      exact hs.imp_left .inl

/-- The rules for what an UNDO would leave. -/
def undoRules (before : TableId → Multiset Bytes) (n : Nat) : RowRules where
  Start := Undoing before n
  Inv := Undoing before n
  Seen := SeenSince n
  Given _ _ _ := True
  start_lock _ _ _ h := ⟨h.inTxn, h.length, h.rows⟩
  start _ h := ⟨h.inTxn, h.length, h.rows⟩
  seen_heap _ _ hb := .inr hb
  step {db db'} hok h hstep := by
    cases hstep with
    | lock rid mode => exact ⟨⟨h.inTxn, h.length, h.rows⟩, fun _ _ _ _ hs => hs⟩
    | insert t idxs row => exact h.insertRow hok t _ _
    | erase t idxs rid row staged hidxs hrow hfound hseen =>
      exact h.eraseRow hok _ staged hfound hseen
    | rewrite t idxs rid old new staged origin hidxs hold hnew hfound hseen =>
      exact h.rewriteRow hok _ _ staged hfound hseen

/-- The statements of a transaction keep what an UNDO would leave. -/
theorem Undoing.run (depth : Nat) (stmts : List Statement) (hok : db.Ok)
    (h : Undoing before n db) :
    (Lib.run (execute depth) db (stmts.map .change)).Ok ∧
      Undoing before n (Lib.run (execute depth) db (stmts.map .change)) := by
  induction stmts generalizing db with
  | nil => exact ⟨hok, h⟩
  | cons s stmts ih =>
    obtain ⟨hkeeps, -⟩ := s.exec_keeps (R := undoRules before n) depth hok h
      (.of_forall (fun _ _ _ => trivial) _ _ _)
    exact ih hkeeps.ok (hkeeps.inv_of_txn h.inTxn fun _ _ h => h)

theorem Undoing.begin (hok : db.Ok) (hout : db.currentTxn = 0) :
    Undoing (fun t => db.tables.rows t) (db.visitTransaction .Begin).1.wal.records.length
      (db.visitTransaction .Begin).1 := by
  have hpos := hok.next_pos
  refine ⟨?_, le_refl _, ?_⟩
  · simp only [visitTransaction, hout, ne_eq, not_true_eq_false, if_false, Db.begin]
    exact ne_of_gt hpos
  · simp only [loggedSince, List.drop_length, heapUndo, visitTransaction, hout, ne_eq,
      not_true_eq_false, if_false, Db.begin, Function.update_self, Option.getD_some, List.map_nil]
    exact UndoRows.start _

/-- The rows that an UNDO leaves. -/
theorem Undoing.rollback (hok : db.Ok) (h : Undoing before n db) (t : TableId) :
    (db.visitTransaction .Rollback).1.tables.rows t =
      before t + imagesOf (removedAgain [] (db.loggedSince n)) t := by
  obtain ⟨undo, hundo⟩ :=
    Option.isSome_iff_exists.mp ((hok.active db.currentTxn).mpr ⟨rfl, h.inTxn⟩)
  have htables : (db.visitTransaction .Rollback).1.tables = Txn.rollback db.heapUndo db.tables := by
    simp [visitTransaction, h.inTxn, Db.rollback, hundo, heapUndo, finish, tables_runUndo]
  rw [htables, h.rows.rollback hok.tables]

/-- UNDO gives every table its rows back if and only if no row was removed or rewritten at a
record id that the transaction had logged before. -/
theorem undo_restores_iff (depth : Nat) (db : Db) (hok : db.Ok) (hout : db.currentTxn = 0)
    (stmts : List Statement) :
    let started := (db.visitTransaction .Begin).1
    let changed := Lib.run (execute depth) started (stmts.map .change)
    let undone := (changed.visitTransaction .Rollback).1
    (∀ t, ((undone.tables.tuples t).map Prod.snd).Perm ((db.tables.tuples t).map Prod.snd)) ↔
      removedAgain [] (changed.loggedSince started.wal.records.length) = [] := by
  intro started changed undone
  obtain ⟨hok', hundoing⟩ := (Undoing.begin hok hout).run depth stmts (hok.begin hout)
  rw [← imagesOf_eq_zero_iff]
  refine forall_congr' fun t => ?_
  rw [← TableManager.rows_eq_iff, hundoing.rollback hok' t]
  exact add_eq_left

/-- START; PUT INTO t VALUES (1); UNDO. -/
theorem undo_restores_put :
    let started := (numbersDb.visitTransaction .Begin).1
    let changed := Lib.run (execute 1) started ([Statement.put [1]].map .change)
    ∀ t, (((changed.visitTransaction .Rollback).1.tables.tuples t).map Prod.snd).Perm
      ((numbersDb.tables.tuples t).map Prod.snd) :=
  (undo_restores_iff 1 numbersDb ok_numbersDb rfl [.put [1]]).mpr (by decide +kernel)

/-- START; PUT INTO t VALUES (1); REMOVE FROM t; UNDO: the row is there afterwards. -/
theorem undo_resurrects :
    let started := (numbersDb.visitTransaction .Begin).1
    let changed := Lib.run (execute 1) started ([Statement.put [1], .removeAll].map .change)
    ¬∀ t, (((changed.visitTransaction .Rollback).1.tables.tuples t).map Prod.snd).Perm
      ((numbersDb.tables.tuples t).map Prod.snd) := by
  intro started changed h
  have hlen : ((changed.visitTransaction .Rollback).1.tables.tuples 1).length = 1 := by
    decide +kernel
  have := (h 1).length_eq
  rw [List.length_map, hlen] at this
  cases this

end Db

end Relite.Vm
