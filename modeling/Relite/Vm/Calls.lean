import Relite.Vm.RowSteps

/-!
# The calls of a program

Most programs only read, or leave the rows alone. A row is written by one call, between
others that do not change any row, and a row that is rewritten lies on a page of the
table it is handed to (`AllListed`).
-/
namespace Relite.Vm
open Lib Semantic Txn

/-- The calls that change rows or pages. -/
def Call.onTables : Call → Bool
  | .insertTuple _ _ | .updateTuple _ _ _ | .eraseTuple _ | .truncateTable _ | .dropTable _
  | .registerTable _ => true
  | _ => false

namespace Call

/-- A row that is rewritten is on a page of the table it is handed to. -/
def Listed (db : Db) : Call → Prop
  | updateTuple t rid _ => rid.pageId ∈ db.tables.pageList t
  | _ => True

theorem listed_of_off {c : Call} (h : c.onTables = false) (db : Db) : c.Listed db := by
  cases c with
  | updateTuple _ _ _ => cases h
  | _ => trivial

theorem tables_of_off {c : Call} (h : c.onTables = false) (db : Db) :
    (c.apply db).1.tables = db.tables := by
  cases c <;> first | rfl | cases h

end Call

namespace Exec

variable {α β : Type}

abbrev AllListed (x : Exec α) (db : Db) : Prop :=
  Prog.All (fun (c : Call) db => c.apply db) (fun db c => c.Listed db) x db

/-! ## Programs that only read -/

/-- The program makes no call. -/
def ReadOnly (x : Exec α) : Prop := Prog.Makes (fun (c : Call) db => c.apply db) (fun _ => False) x

theorem ReadOnly.run_eq {x : Exec α} (h : ReadOnly x) (db : Db) : (x.run db).2 = db :=
  Prog.Makes.run_eq (g := id) h (fun _ _ hc => hc.elim) db

theorem readOnly_ret (a : α) : ReadOnly (Prog.ret a : Exec α) := Prog.Makes.ret a

theorem readOnly_throw (e : String) : ReadOnly (throw e : Exec α) := Prog.Makes.throw e

theorem readOnly_get : ReadOnly Exec.get := Prog.Makes.get

@[simp] theorem run_ofExcept (e : Except String α) (db : Db) : (ofExcept e).run db = (e, db) := by
  cases e <;> rfl

theorem readOnly_ofExcept (e : Except String α) : ReadOnly (ofExcept e) := by
  cases e with
  | ok a => exact readOnly_ret a
  | error e => exact readOnly_throw e

theorem ReadOnly.bind {x : Exec α} {f : α → Exec β} (hx : ReadOnly x) (hf : ∀ a, ReadOnly (f a)) :
    ReadOnly (Prog.bind x f) := Prog.Makes.bind hx hf

theorem readOnly_forM {f : α → Exec Unit} (hf : ∀ a, ReadOnly (f a)) (l : List α) :
    ReadOnly (l.forM f) := Prog.Makes.forM hf l

theorem readOnly_candidateRows (t : TableId) (column : Int) (value : Value) :
    ReadOnly (candidateRows t column value) := by
  refine readOnly_get.bind fun db => ?_
  split
  · exact readOnly_get.bind fun _ => readOnly_ret _
  · exact readOnly_get.bind fun _ => readOnly_ret _

theorem readOnly_parentHasValue (refTable refColumn : String) (value : Value) :
    ReadOnly (parentHasValue refTable refColumn value) := by
  refine readOnly_get.bind fun db => ?_
  split
  · exact readOnly_ret _
  · simp only
    split
    · exact readOnly_ret _
    · exact (readOnly_candidateRows _ _ _).bind fun rows =>
        (readOnly_ofExcept _).bind fun _ => readOnly_ret _

theorem readOnly_checkForeignKeys (schema : TableSchema) (row : Tuple) :
    ReadOnly (checkForeignKeys schema row) := by
  refine readOnly_forM (fun fk => ?_) _
  split
  · exact readOnly_ret _
  · split
    · exact readOnly_ret _
    · refine (readOnly_parentHasValue _ _ _).bind fun found => ?_
      split
      · exact readOnly_ret _
      · exact readOnly_throw _

theorem readOnly_valueExists (t : TableId) (column : Int) (value : Value) (schema : TableSchema)
    (excludeRid : Option RecordID) :
    ReadOnly (valueExists t column value schema excludeRid) :=
  (readOnly_candidateRows _ _ _).bind fun _ => (readOnly_ofExcept _).bind fun _ => readOnly_ret _

theorem readOnly_enforceColumn (schema : TableSchema) (t : TableId) (row : Tuple)
    (excludeRid : Option RecordID) (i : Nat) (col : ColumnSchema) :
    ReadOnly (enforceColumn schema t row excludeRid i col) := by
  unfold enforceColumn
  simp only
  split
  · exact readOnly_throw _
  split
  · exact readOnly_throw _
  split
  · exact readOnly_throw _
  split
  · refine (readOnly_valueExists _ _ _ _ _).bind fun found => ?_
    split
    · exact readOnly_throw _
    · exact readOnly_ret _
  · exact readOnly_ret _

theorem readOnly_enforceConstraints (schema : TableSchema) (t : TableId) (row : Tuple)
    (excludeRid : Option RecordID) :
    ReadOnly (enforceConstraints schema t row excludeRid) := by
  refine ReadOnly.bind (readOnly_forM (fun c => readOnly_enforceColumn _ _ _ _ _ _) _) fun _ => ?_
  unfold enforcePrimaryKey
  split
  · exact readOnly_ret _
  split
  · exact readOnly_ret _
  refine readOnly_get.bind fun db => (readOnly_ofExcept _).bind fun found => ?_
  split
  · exact readOnly_throw _
  · exact readOnly_ret _

/-- A loop of checks passes if and only if each of them does. -/
theorem run_forM_eq_ok {f : α → Exec Unit} (hf : ∀ a, ReadOnly (f a)) {db : Db} {l : List α} :
    (Exec.run (l.forM f) db).1 = .ok () ↔ ∀ a ∈ l, ((f a).run db).1 = .ok () := by
  induction l with
  | nil => simp [List.forM]
  | cons a l ih =>
    rw [List.forall_mem_cons, ← ih]
    change (Exec.run (Prog.bind (f a) fun _ => l.forM f) db).1 = _ ↔ _
    have hkeep := (hf a).run_eq db
    rw [run_bind]
    generalize (f a).run db = out at hkeep
    obtain ⟨outcome, db'⟩ := out
    obtain rfl : db' = db := hkeep
    cases outcome with
    | error e => simp
    | ok _ => simp

/-! ## Programs that leave the tables alone -/

/-- The program makes no call that changes rows or pages. -/
def OffTables (x : Exec α) : Prop :=
  Prog.Makes (fun (c : Call) db => c.apply db) (fun c => c.onTables = false) x

theorem ReadOnly.offTables {x : Exec α} (h : ReadOnly x) : OffTables x := h.mono fun _ hc => hc.elim

theorem offTables_ret (a : α) : OffTables (Prog.ret a : Exec α) := Prog.Makes.ret a

theorem OffTables.bind {x : Exec α} {f : α → Exec β} (hx : OffTables x) (hf : ∀ a, OffTables (f a)) :
    OffTables (Prog.bind x f) := Prog.Makes.bind hx hf

theorem offTables_call {c : Call} (hc : c.onTables = false) : OffTables (call c) :=
  OffTables.bind (Prog.Makes.perform hc) fun _ => offTables_ret _

theorem OffTables.tables_run {x : Exec α} (h : OffTables x) (db : Db) :
    (x.run db).2.tables = db.tables :=
  Prog.Makes.run_eq (g := Db.tables) h (fun _ db hc => Call.tables_of_off hc db) db

theorem OffTables.tables_eq {x : Exec α} (h : OffTables x) {db db' : Db} {r : Except String α}
    (hrun : x.run db = (r, db')) : db'.tables = db.tables := by
  rw [← h.tables_run db, hrun]

theorem ReadOnly.eq_of_run {x : Exec α} (h : ReadOnly x) {db db' : Db} {r : Except String α}
    (hrun : x.run db = (r, db')) : db' = db := by
  rw [← h.run_eq db, hrun]

theorem OffTables.listed {x : Exec α} (h : OffTables x) (db : Db) : AllListed x db :=
  .of_makes h fun db _ hc => Call.listed_of_off hc db

theorem run_bind_eq_ok {x : Exec α} {f : α → Exec β} {db db' : Db} {b : β} :
    Exec.run (Prog.bind x f) db = (.ok b, db') ↔
      ∃ a db₁, x.run db = (.ok a, db₁) ∧ (f a).run db₁ = (.ok b, db') :=
  Prog.run_bind_eq_ok _

theorem readOnly_txnActive : ReadOnly txnActive := readOnly_get.bind fun _ => readOnly_ret _

/-- The program makes no call but that it takes locks. -/
def Locking (x : Exec α) : Prop :=
  Prog.Makes (fun (c : Call) db => c.apply db) (fun c => ∃ rid mode, c = .lock rid mode) x

theorem ReadOnly.locking {x : Exec α} (h : ReadOnly x) : Locking x := h.mono fun _ hc => hc.elim

theorem Locking.bind {x : Exec α} {f : α → Exec β} (hx : Locking x) (hf : ∀ a, Locking (f a)) :
    Locking (Prog.bind x f) := Prog.Makes.bind hx hf

theorem Locking.offTables {x : Exec α} (h : Locking x) : OffTables x :=
  h.mono fun _ ⟨_, _, hc⟩ => hc ▸ rfl

theorem locking_lockOrThrow (rid : RecordID) (exclusive : Bool) :
    Locking (lockOrThrow rid exclusive) := by
  refine readOnly_get.locking.bind fun db => ?_
  simp only
  generalize (if exclusive = true then Txn.LockMode.Exclusive else Txn.LockMode.Shared) = mode
  split
  · exact Prog.Makes.bind (.perform ⟨_, _, rfl⟩) fun _ => .ret _
  · exact (readOnly_throw _).locking

theorem locking_lockInTxn (rid : RecordID) (exclusive : Bool) :
    Locking (lockInTxn rid exclusive) := by
  refine readOnly_txnActive.locking.bind fun active => ?_
  split
  · exact locking_lockOrThrow rid exclusive
  · exact (readOnly_ret _).locking

theorem locking_query (q : Query α) : Locking (query q) := by
  refine readOnly_get.locking.bind fun db => ?_
  exact (Prog.Makes.forM (fun rid => locking_lockInTxn rid false) _).bind fun _ =>
    (readOnly_ofExcept _).locking

theorem locking_gatherRows (t : TableId) (schema : Schema) (when? : Option Where) :
    Locking (gatherRows t schema when?) := by
  have hrows : ReadOnly (clauseRows t when?) := by
    refine readOnly_get.bind fun db => ?_
    split
    · exact readOnly_get.bind fun _ => readOnly_ret _
    · exact readOnly_get.bind fun _ => readOnly_ret _
  refine hrows.locking.bind fun rows => Prog.Makes.foldlM (fun acc row => ?_) _ _
  refine (readOnly_ofExcept _).locking.bind fun found => ?_
  split
  · exact (locking_lockInTxn _ _).bind fun _ => (readOnly_ret _).locking
  · exact (readOnly_ret _).locking

theorem offTables_lockOrThrow (rid : RecordID) (exclusive : Bool) :
    OffTables (lockOrThrow rid exclusive) := (locking_lockOrThrow rid exclusive).offTables

theorem offTables_lockInTxn (rid : RecordID) (exclusive : Bool) :
    OffTables (lockInTxn rid exclusive) := (locking_lockInTxn rid exclusive).offTables

theorem offTables_query (q : Query α) : OffTables (query q) := (locking_query q).offTables

theorem offTables_gatherRows (t : TableId) (schema : Schema) (when? : Option Where) :
    OffTables (gatherRows t schema when?) := (locking_gatherRows t schema when?).offTables

theorem offTables_addKeys (keys : List (String × Value)) (rid : RecordID) :
    OffTables (addKeys keys rid) := Prog.Makes.forM (fun _ => offTables_call rfl) _

theorem offTables_removeKeys (keys : List (String × Value)) (rid : RecordID) :
    OffTables (removeKeys keys rid) := Prog.Makes.forM (fun _ => offTables_call rfl) _

theorem offTables_discardOutsideTxn : OffTables discardOutsideTxn := by
  refine readOnly_txnActive.offTables.bind fun active => ?_
  split
  · exact offTables_call rfl
  · exact offTables_ret _

theorem offTables_commitOutsideTxn : OffTables commitOutsideTxn := by
  refine readOnly_txnActive.offTables.bind fun active => ?_
  split
  · exact offTables_call rfl
  · exact offTables_ret _

theorem readOnly_checkRow (ts : Option TableSchema) (t : TableId) (row : Tuple)
    (excludeRid : Option RecordID) : ReadOnly (checkRow ts t row excludeRid) := by
  unfold checkRow
  split
  · exact (readOnly_checkForeignKeys _ _).bind fun _ => readOnly_enforceConstraints _ _ _ _
  · exact readOnly_ret _

theorem readOnly_findConflict (t : TableId) (schema : Schema) (onConflict : Option OnConflict)
    (new : Tuple) : ReadOnly (findConflict t schema onConflict new) := by
  unfold findConflict
  split
  · exact readOnly_ret _
  · exact (readOnly_get.bind fun _ => readOnly_ret _).bind fun _ =>
      (readOnly_ofExcept _).bind fun _ => readOnly_ret _

/-! ## Writing one row -/

/-- One call to the tables, and then programs that leave them alone. -/
theorem listed_perform_bind {c : Call} {f : RecordID → Exec α} {db : Db} (hc : c.Listed db)
    (hf : ∀ rid, OffTables (f rid)) :
    AllListed (Prog.bind (Prog.perform c) f) db :=
  (Prog.All.perform hc).bind fun rid db' _ => (hf rid).listed db'

/-- The part of `insertRow` after the row is handed to the table. -/
theorem offTables_afterInsert (t : TableId) (keys : List (String × Value)) (bytes : Bytes)
    (rid : RecordID) : OffTables (Prog.bind (addKeys keys rid) fun _ =>
      Prog.bind (call (.stageInsert t rid bytes)) fun _ => Prog.bind txnActive fun active =>
        if active = true then Prog.bind (lockOrThrow rid true) fun _ =>
          Prog.bind (call (.logInsert t rid bytes)) fun _ =>
            call (.registerUndo (.insert keys t rid))
        else Prog.ret ()) := by
  refine (offTables_addKeys keys rid).bind fun _ => (offTables_call rfl).bind fun _ => ?_
  refine readOnly_txnActive.offTables.bind fun active => ?_
  split
  · exact (offTables_lockOrThrow rid true).bind fun _ => (offTables_call rfl).bind fun _ =>
      offTables_call rfl
  · exact offTables_ret _

theorem listed_insertRow (t : TableId) (idxs : List Index) (row : Tuple) (bytes : Bytes) (db : Db) :
    AllListed (insertRow t idxs row bytes) db :=
  listed_perform_bind trivial (offTables_afterInsert t _ bytes)

theorem listed_eraseRow (t : TableId) (idxs : List Index) (rid : RecordID) (row : Tuple)
    (bytes : Bytes) (staged : Bool) (db : Db) :
    AllListed (eraseRow t idxs rid row bytes staged) db := by
  have herase : ∀ (rest : Exec Unit) (db : Db), OffTables rest →
      AllListed (Prog.bind (call (.eraseTuple rid)) fun _ => rest) db := fun rest db hrest =>
    (listed_perform_bind (c := .eraseTuple rid) trivial fun _ => offTables_ret _).bind
      fun _ db' _ => hrest.listed db'
  have hstage : OffTables (call (.stageDelete t rid)) := offTables_call rfl
  refine ((offTables_removeKeys _ rid).listed db).bind fun _ _ _ => ?_
  refine (readOnly_txnActive.offTables.listed _).bind fun active _ _ => ?_
  cases active <;> cases staged
  · exact herase _ _ (offTables_ret _)
  · exact herase _ _ hstage
  · exact ((offTables_call rfl).listed _).bind fun _ _ _ =>
      ((offTables_call rfl).listed _).bind fun _ _ _ => herase _ _ (offTables_ret _)
  · exact ((offTables_call rfl).listed _).bind fun _ _ _ =>
      ((offTables_call rfl).listed _).bind fun _ _ _ => herase _ _ hstage

/-- The end of `rewriteRow`. -/
theorem offTables_logUpdate (t : TableId) (idxs : List Index) (rid nr : RecordID)
    (old new : Tuple) (oldBytes newBytes : Bytes) :
    OffTables (Prog.bind txnActive fun active =>
      if active = true then Prog.bind (call (.logDelete t rid oldBytes)) fun _ =>
        Prog.bind (call (.logInsert t nr newBytes)) fun _ =>
          call (.registerUndo (.update t nr oldBytes (coveredKeys idxs old old)
            (coveredKeys idxs old new)))
      else Prog.ret ()) := by
  refine readOnly_txnActive.offTables.bind fun active => ?_
  split
  · exact (offTables_call rfl).bind fun _ => (offTables_call rfl).bind fun _ => offTables_call rfl
  · exact offTables_ret _

/-- The part of `rewriteRow` after the row is handed to the table. -/
theorem offTables_afterUpdate (t : TableId) (rid nr : RecordID) (keys : List (String × Value))
    (bytes : Bytes) (staged : Bool) {rest : Exec Unit} (hrest : OffTables rest) :
    OffTables (Prog.bind (lockInTxn nr true) fun _ => Prog.bind (addKeys keys nr) fun _ =>
      if staged = true then Prog.bind (call (.stageDelete t rid)) fun _ =>
        Prog.bind (call (.stageInsert t nr bytes)) fun _ => rest
      else rest) := by
  refine (offTables_lockInTxn nr true).bind fun _ => (offTables_addKeys _ nr).bind fun _ => ?_
  split
  · exact (offTables_call rfl).bind fun _ => (offTables_call rfl).bind fun _ => hrest
  · exact hrest

theorem listed_rewriteRow {t : TableId} (idxs : List Index) {rid : RecordID} (old new : Tuple)
    (schema : Schema) (staged : Bool) {db : Db} (h : rid.pageId ∈ db.tables.pageList t) :
    AllListed (rewriteRow t idxs rid old new schema staged) db := by
  refine ((offTables_removeKeys _ rid).listed db).bind fun _ db' hrun => ?_
  refine listed_perform_bind ?_ fun nr =>
    offTables_afterUpdate t rid nr _ _ staged (offTables_logUpdate t idxs rid nr old new _ _)
  unfold Call.Listed
  rwa [(offTables_removeKeys _ rid).tables_eq hrun]

end Exec

end Relite.Vm
