import Relite.Vm.WriteSpec

/-!
# Row constraints

NOT NULL, the length of a VARCHAR and CHECK are about one row. A PUT or a MODIFY checks the
rows that it is given, before they are stored; a referential action checks nothing of the
rows that it rewrites.
-/
namespace Relite.Semantic
open Lib Vm

/-- The row satisfies the constraints that the table declares for a row. -/
structure TableSchema.Allows (ts : TableSchema) (row : Tuple) : Prop where
  notNull : ∀ c ∈ ts.columns.zipIdx, c.1.notNull ∨ c.1.primaryKey ∨ (c.2 : Int) ∈ ts.primaryKey →
    (row.getD c.2 .null).isNull = false
  length : ∀ c ∈ ts.columns.zipIdx, c.1.type = .Varchar → 0 < c.1.varcharLength →
    ((row.getD c.2 .null).textValue.length : Int) ≤ c.1.varcharLength
  check : ∀ c ∈ ts.columns, ∀ e ∈ c.checkExpr, predicateTrue e row

instance (ts : TableSchema) (row : Tuple) : Decidable (ts.Allows row) :=
  decidable_of_iff (_ ∧ _ ∧ _)
    ⟨fun ⟨notNull, length, check⟩ => ⟨notNull, length, check⟩, fun h => ⟨h.1, h.2, h.3⟩⟩

/-- The columns of a primary key are NOT NULL, as BUILD RELATION has them. -/
def Catalog.KeysNotNull (catalog : Catalog) : Prop :=
  ∀ ts ∈ catalog.tables, ∀ c ∈ ts.columns.zipIdx,
    c.1.primaryKey ∨ (c.2 : Int) ∈ ts.primaryKey → c.1.notNull

instance (catalog : Catalog) : Decidable catalog.KeysNotNull := by
  unfold Catalog.KeysNotNull
  infer_instance

/-- Each CHECK that is TRUE on the row is TRUE on what is stored of it. -/
def TableSchema.ChecksKept (ts : TableSchema) (row : Tuple) : Prop :=
  ∀ c ∈ ts.columns, ∀ e ∈ c.checkExpr, predicateTrue e row →
    predicateTrue e (Tuple.storedRow ts.schema row)

instance (ts : TableSchema) (row : Tuple) : Decidable (ts.ChecksKept row) := by
  unfold TableSchema.ChecksKept
  infer_instance

/-- What is stored of a row satisfies the constraints that the row does, if it keeps those
of its values. -/
theorem TableSchema.Allows.storedRow {ts : TableSchema} {row : Tuple} (h : ts.Allows row)
    (hrow : row.length = ts.schema.length) (hkept : ts.ChecksKept row) :
    ts.Allows (Tuple.storedRow ts.schema row) where
  notNull c hc hnull := by
    rw [Tuple.getD_storedRow hrow (ts.getElem?_schema hc), Tuple.isNull_stored]
    exact h.notNull c hc hnull
  length c hc htype hpos := by
    rw [Tuple.getD_storedRow hrow (ts.getElem?_schema hc), htype]
    have hlen := h.length c hc htype hpos
    generalize row.getD c.2 .null = v at hlen ⊢
    cases v <;> exact hlen
  check c hc e he := hkept c hc e he (h.check c hc e he)

end Relite.Semantic

namespace Relite.Vm
open Lib Semantic Txn

namespace Exec

/-- What the checks of a column have found, once they let a row pass. -/
theorem of_enforceColumn {ts : TableSchema} {t : TableId} {row : Tuple}
    {excludeRid : Option RecordID} {i : Nat} {col : ColumnSchema} {db : Db}
    (h : ((enforceColumn ts t row excludeRid i col).run db).1 = .ok ()) :
    (col.notNull → (row.getD i .null).isNull = false) ∧
    (col.type = .Varchar → 0 < col.varcharLength →
      ((row.getD i .null).textValue.length : Int) ≤ col.varcharLength) ∧
    (∀ e ∈ col.checkExpr, predicateTrue e row) ∧
    (col.primaryKey || col.unique → (row.getD i .null).isNull = false →
      ((valueExists t i (row.getD i .null) ts excludeRid).run db).1 = .ok false) := by
  unfold enforceColumn at h
  simp only at h
  split at h
  · cases h
  rename_i hnull
  split at h
  · cases h
  rename_i hlength
  split at h
  · cases h
  rename_i hcheck
  refine ⟨fun hn => by simpa [hn] using hnull, fun htype hpos => ?_, fun e he => ?_,
    fun hkey hv => ?_⟩
  · by_contra hlong
    exact hlength ⟨htype, hpos, not_le.mp hlong⟩
  · rw [Option.mem_def] at he
    simpa [he] using hcheck
  · rw [hkey, hv, if_pos (by decide)] at h
    obtain ⟨found, db', hfound, h⟩ := run_bind_eq_ok.mp (Prod.ext h rfl)
    cases found with
    | true => cases h
    | false => rw [hfound]

/-- What has passed, once the checks let a row pass. -/
theorem of_checkRow {ts : TableSchema} {t : TableId} {row : Tuple}
    {excludeRid : Option RecordID} {db : Db}
    (h : ((checkRow (some ts) t row excludeRid).run db).1 = .ok ()) :
    ((checkForeignKeys ts row).run db).1 = .ok () ∧
    (∀ c ∈ ts.columns.zipIdx, ((enforceColumn ts t row excludeRid c.2 c.1).run db).1 = .ok ()) ∧
    ((enforcePrimaryKey ts t row excludeRid).run db).1 = .ok () := by
  obtain ⟨_, db₁, hfk, h⟩ := run_bind_eq_ok.mp (Prod.ext h rfl)
  obtain rfl := (readOnly_checkForeignKeys _ _).eq_of_run hfk
  obtain ⟨_, db₂, hcols, hpk⟩ := run_bind_eq_ok.mp h
  have hread : ∀ c : ColumnSchema × Nat, ReadOnly (enforceColumn ts t row excludeRid c.2 c.1) :=
    fun c => readOnly_enforceColumn _ _ _ _ _ _
  obtain rfl := (readOnly_forM hread _).eq_of_run hcols
  exact ⟨congrArg Prod.fst hfk, (run_forM_eq_ok hread).mp (congrArg Prod.fst hcols),
    congrArg Prod.fst hpk⟩

/-- A row that has passed the checks satisfies the constraints. -/
theorem allows_of_checkRow {ts : TableSchema} {t : TableId} {row : Tuple}
    {excludeRid : Option RecordID} {db : Db}
    (hkeys : ∀ c ∈ ts.columns.zipIdx, c.1.primaryKey ∨ (c.2 : Int) ∈ ts.primaryKey → c.1.notNull)
    (h : ((checkRow (some ts) t row excludeRid).run db).1 = .ok ()) : ts.Allows row := by
  obtain ⟨-, hall, -⟩ := of_checkRow h
  refine ⟨fun c hc hnull => ?_, fun c hc => ?_, fun col hcol => ?_⟩
  · refine (of_enforceColumn (hall c hc)).1 ?_
    rcases hnull with hnull | hkey
    · exact hnull
    · exact hkeys c hc hkey
  · exact (of_enforceColumn (hall c hc)).2.1
  · obtain ⟨i, hi⟩ := List.mem_iff_getElem?.mp hcol
    have hmem : (col, i) ∈ ts.columns.zipIdx := List.mem_zipIdx_iff_getElem?.mpr hi
    exact (of_enforceColumn (hall (col, i) hmem)).2.2.1

end Exec

/-! ## The invariant -/

namespace Db

/-- Every live row can be read, and satisfies the constraints of its table. -/
def RowsAllowed (db : Db) : Prop :=
  ∀ ts ∈ db.catalog.tables, ∀ rid bytes, db.tables.heap ts.tableId rid = some bytes →
    ∃ row, Tuple.deserialize bytes ts.schema = .ok row ∧ ts.Allows row

theorem mem_toOption {α : Type} {out : Except String α} {a : α} :
    a ∈ out.toOption ↔ out = .ok a := by
  cases out <;> simp [Except.toOption]

theorem rowsAllowed_iff (db : Db) : db.RowsAllowed ↔
    ∀ ts ∈ db.catalog.tables, ∀ r ∈ db.tables.tuples ts.tableId,
      ∃ row ∈ (Tuple.deserialize r.2 ts.schema).toOption, ts.Allows row := by
  simp only [RowsAllowed, Prod.forall, TableManager.mem_tuples, mem_toOption]

instance (db : Db) : Decidable db.RowsAllowed := decidable_of_iff _ db.rowsAllowed_iff.symm

/-- A row that a referential action writes is read back as one that its table allows; a row
that was checked keeps its CHECKs. -/
def RowGiven (db : Db) (t : TableId) (bytes : Bytes) : Origin → Prop
  | .unchecked => ∀ ts ∈ db.catalog.getTableById t,
    ∀ row ∈ (Tuple.deserialize bytes ts.schema).toOption, ts.Allows row
  | .checked _ row => ∀ ts ∈ db.catalog.getTableById t, ts.ChecksKept row

instance (db : Db) (t : TableId) (bytes : Bytes) (origin : Origin) :
    Decidable (db.RowGiven t bytes origin) := by
  unfold RowGiven
  split <;> infer_instance

def ConstraintsGiven (origin : Origin) (db : Db) : Call → Prop
  | .insertTuple t bytes => db.RowGiven t bytes origin
  | .updateTuple t _ bytes => db.RowGiven t bytes origin
  | _ => True

instance (origin : Origin) (db : Db) (c : Call) : Decidable (ConstraintsGiven origin db c) :=
  match c with
  | .insertTuple t bytes | .updateTuple t _ bytes =>
    inferInstanceAs (Decidable (db.RowGiven t bytes origin))
  | .eraseTuple _ | .indexAdd .. | .indexRemove .. | .stageInsert .. | .stageDelete ..
  | .discardPending | .commitPending | .lock .. | .logInsert .. | .logDelete ..
  | .registerUndo _ | .truncateTable _ | .dropTable _ | .registerTable _ | .dropIndexes _
  | .createIndex .. | .dropIndex _ | .setCatalog _ => inferInstanceAs (Decidable True)

variable {db : Db} {t : TableId}

/-- A row that is written is allowed as it is read back. -/
theorem allows_storedRow {origin : Origin} {row : Tuple} {rid : Option RecordID}
    (hkeys : db.catalog.KeysNotNull) {ts : TableSchema} (hts : ts ∈ db.catalog.tables)
    (hrow : row.length = ts.schema.length) (hle : (row.serialize ts.schema).length ≤ 4080)
    (hpassed : origin.Passed ts.tableId rid row db)
    (hgiven : db.RowGiven ts.tableId (row.serialize ts.schema) origin) :
    ts.Allows (Tuple.storedRow ts.schema row) := by
  have hget := Catalog.getTableById_of_mem hts
  cases origin with
  | unchecked =>
    refine hgiven ts hget _ ?_
    rw [Tuple.deserialize_serialize_eq hrow (by omega)]
    rfl
  | checked db₀ row₀ =>
    obtain ⟨rfl, hext, -, hcheck⟩ := hpassed
    rw [← hext.catalog, hget] at hcheck
    exact (Exec.allows_of_checkRow (hkeys ts hts) hcheck).storedRow hrow (hgiven ts hget)

/-- After a row is written all rows are allowed if those were that were there before. -/
theorem RowsAllowed.write (h : db.RowsAllowed) (hkeys : db.catalog.KeysNotNull) {db' : Db}
    (hcat : db'.catalog = db.catalog) {origin : Origin} {row : Tuple} {rid : Option RecordID}
    (hrow : row.length = (db.catalog.loadSchema t).length) (hpassed : origin.Passed t rid row db)
    (hgiven : db.RowGiven t (row.serialize (db.catalog.loadSchema t)) origin)
    (hwrote : db.tables.Wrote t rid (row.serialize (db.catalog.loadSchema t)) db'.tables) :
    db'.RowsAllowed := by
  intro ts hts r b hb
  rw [hcat] at hts
  obtain ⟨nr, hheap⟩ := hwrote
  rcases hheap ts.tableId r b hb with ⟨hb, -⟩ | ⟨rfl, -, rfl, hle⟩
  · exact h ts hts r b hb
  · rw [Catalog.loadSchema_of_mem hts] at hrow hgiven hle ⊢
    exact ⟨_, Tuple.deserialize_serialize_eq hrow (by omega),
      allows_storedRow hkeys hts hrow hle hpassed hgiven⟩

/-- The rules of the constraints that are about one row. -/
def constraintRules : RowRules where
  Start db := db.RowsAllowed ∧ db.catalog.KeysNotNull
  Inv db := db.RowsAllowed ∧ db.catalog.KeysNotNull
  Seen _ _ _ _ := True
  Given := ConstraintsGiven
  start_lock _ _ _ h := h
  start _ h := h
  seen_heap _ _ _ := trivial
  step := by
    intro db db' hok ⟨hrows, hkeys⟩ hstep
    refine ⟨?_, fun _ _ _ _ h => h⟩
    have hkeys' : db'.catalog.KeysNotNull := (hstep.ok hok).2.catalog ▸ hkeys
    refine ⟨?_, hkeys'⟩
    cases hstep with
    | lock rid mode => exact hrows
    | insert t idxs row origin _ hrow hpassed hgiven =>
      exact hrows.write hkeys rfl hrow hpassed hgiven.insertTuple (hok.tables.wrote_insertTuple t _)
    | erase t idxs rid row staged =>
      exact fun ts hts r b hb => hrows ts hts r b (hok.tables.heap_of_eraseTuple hb)
    | rewrite t idxs rid old new staged origin _ _ hnew hfound _ hpassed hgiven =>
      exact hrows.write hkeys rfl hnew hpassed hgiven.updateTuple
        (hok.tables.wrote_updateTuple hfound.listed _)

end Db

/-- Each row that a referential action of the statement writes satisfies the constraints of
its table, and each row that the statement itself writes keeps its CHECKs as it is stored. -/
abbrev Statement.ConstraintsMet (depth : Nat) (db : Db) (s : Statement) : Prop :=
  s.Meets Db.ConstraintsGiven depth db

/-- In a run of statements that meet the condition all rows satisfy the constraints of their
tables in every state. -/
theorem Statement.rowsAllowed_run (depth : Nat) {db : Db} (hok : db.Ok)
    (hkeys : db.catalog.KeysNotNull) (hrows : db.RowsAllowed) {statements : List Statement}
    (hmet : AllSteps (fun db s => db.execute depth (.change s))
      (fun db s => s.ConstraintsMet depth db) db statements) :
    AllStates (fun db s => db.execute depth (.change s)) Db.RowsAllowed db statements :=
  (Db.constraintRules.start_run (fun _ h => h) (fun _ h => h) depth hok ⟨hrows, hkeys⟩ hmet).imp
    fun _ h => h.1

/-! ## A foreign key that becomes null -/

/-- A table p with the key a, and a table c with the foreign key a ON REMOVE SET NULL, which
may be NOT NULL. -/
def setNullDb (notNull : Bool) : Db :=
  .init
    { tables := [
        { tableId := 1, name := "p"
          columns := [{ name := "a", type := .Int, notNull := true, primaryKey := true }]
          primaryKey := [0] },
        { tableId := 2, name := "c"
          columns := [{ name := "a", type := .Int, notNull }]
          foreignKeys := [{ columnIndex := 0, refTable := "p", refColumn := "a"
                            onDelete := .SetNull }] }]
      nodup := by simp }
    [{ name := "__uq_p_a", tableId := 1, columns := [0] }]

/-- PUT INTO p VALUES (1), PUT INTO c VALUES (1), REMOVE FROM p. -/
def orphaning : List Statement :=
  [.insert { tableId := 1, rows := [[fun _ => .int 1]] },
    .insert { tableId := 2, rows := [[fun _ => .int 1]] }, .delete { tableId := 1 }]

theorem Db.keysNotNull_setNullDb (notNull : Bool) : (setNullDb notNull).catalog.KeysNotNull := by
  cases notNull <;> decide

theorem Db.ok_setNullDb (notNull : Bool) : (setNullDb notNull).Ok :=
  Db.Ok.init _ (by simp [IndexManager.shape]) (by simp)

theorem Statement.rowsAllowed_orphaning :
    AllStates (fun db s => db.execute 2 (.change s)) Db.RowsAllowed (setNullDb false) orphaning :=
  Statement.rowsAllowed_run 2 (Db.ok_setNullDb false) (Db.keysNotNull_setNullDb false)
    (by decide) (by decide +kernel)

/-- REMOVE sets the foreign key to null although the column is NOT NULL. -/
theorem Statement.not_rowsAllowed_orphaning :
    AllSteps (fun db s => db.execute 2 (.change s)) (fun db s => ((s.exec 2).run db).1.isOk)
        (setNullDb true) orphaning ∧
      ¬AllStates (fun db s => db.execute 2 (.change s)) Db.RowsAllowed (setNullDb true) orphaning := by
  refine ⟨by decide +kernel, fun h => ?_⟩
  have hlast := h.last
  revert hlast
  decide +kernel

end Relite.Vm
