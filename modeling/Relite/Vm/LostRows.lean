import Relite.Vm.Handed
import Relite.Vm.Session

/-!
# Rows that are lost

`TableManager::insertTuple` answers an invalid record id for a row that fits into no
page, and none of its callers looks at it. So PUT, BUILD RELATION AS and RESHAPE keep the
rows that they hand over exactly when every one of them fits (`keepsRows_iff`).
-/
namespace Relite.Vm
open Lib Semantic

/-- The statements that hand new rows to a table. -/
inductive RowWriter
  | put (node : InsertStatement)
  | build (node : CreateStatement)
  | reshape (node : AlterStatement)

/-- The number of rows that the statement answers to have written. -/
def ResultSet.Reports (rs : ResultSet) (what : String) (n : Nat) : Prop :=
  if rs.isQuery then rs.rows.length = n else rs.message = what ++ toString n

/-- What a FETCH of the whole table yields. -/
def TableManager.fetched (tm : TableManager) (schema : Schema) (t : TableId) :
    List (Except String Tuple) :=
  (tm.tuples t).map fun row => Tuple.deserialize row.2 schema

namespace RowWriter
open Exec

def exec : RowWriter → Exec ResultSet
  | put node => visitInsert node
  | build node => visitCreate node
  | reshape node => visitAlter node

/-- The rows that the statement handed over are in the tables that it leaves, but for
those that a PUT has itself replaced. A PUT without ON CONFLICT adds as many rows as it
answers, and a RESHAPE keeps the rows of its table. -/
def KeepsRows (db db' : Db) (rs : ResultSet) : RowWriter → Prop
  | put node =>
    (∀ t, db'.tables.rows t + (visitInsert node).taken db t =
      db.tables.rows t + (visitInsert node).handed db t) ∧
    ∃ n, rs.Reports "PUT 0 " n ∧ ((visitInsert node).handed db node.tableId).card = n ∧
      (node.onConflict = none →
        (db'.tables.rows node.tableId).card = (db.tables.rows node.tableId).card + n)
  | build node => ∀ t, db'.tables.rows t = db.tables.rows t + (visitCreate node).handed db t
  | reshape node =>
    let ts := db.catalog.getTableById node.tableId
    let oldSchema := db.catalog.loadSchema node.tableId
    (∀ t, t ≠ node.tableId → db'.tables.rows t = db.tables.rows t) ∧
    (db'.tables.fetched (newSchema ts oldSchema node.kind) node.tableId).Perm
      ((db.tables.fetched oldSchema node.tableId).map (Except.map (reshapeRow ts node.kind)))

theorem listed (w : RowWriter) (db : Db) : AllListed w.exec db := by
  cases w with
  | put node => exact listed_visitInsert node db
  | build node => exact (adds_visitCreate node).listed db
  | reshape node => exact listed_visitAlter node db

/-! ## PUT -/

theorem adds_insertRow (t : TableId) (idxs : List Index) (row : Tuple) (bytes : Bytes) :
    Adds (insertRow t idxs row bytes) :=
  (adds_perform (c := .insertTuple _ _) fun _ => ⟨trivial, fun _ => rfl⟩).bind fun rid =>
    (offTables_afterInsert t (coveredKeys idxs row row) bytes rid).adds

theorem adds_insertProvided {node : InsertStatement} (h : node.onConflict = none)
    (ts : Option TableSchema) (schema : Schema) (idxs : List Index) (targets : List Nat)
    (st : InsertState) (provided : Tuple) :
    Adds (insertProvided node ts schema idxs targets st provided) := by
  unfold insertProvided
  generalize fillAuto st.autoNext (provide _ targets provided) = filled
  obtain ⟨autoNext, row⟩ := filled
  simp only [h]
  change Adds (Prog.bind (checkRow _ _ _ _) fun _ => Prog.bind (insertRow _ _ _ _) fun _ =>
    Prog.ret _)
  exact (readOnly_checkRow _ _ _ _).offTables.adds.bind fun _ =>
    (adds_insertRow _ _ _ _).bind fun _ => (offTables_ret _).adds

/-- Without ON CONFLICT no row is replaced. -/
theorem adds_visitInsert {node : InsertStatement} (h : node.onConflict = none) :
    Adds (visitInsert node) := by
  have hrows : ∀ catalog, Adds (insertRows node catalog) := by
    intro catalog
    refine readOnly_get.offTables.adds.bind fun db => ?_
    refine (offTables_providedRows node).adds.bind fun rows => ?_
    refine (readOnly_autoNext _ _ _ _).offTables.adds.bind fun autoNext => ?_
    exact Adds.bind (Prog.Makes.foldlM (fun st row => adds_insertProvided h _ _ _ _ st row) _ _) fun _ =>
      (offTables_ret _).adds
  have hbody : ∀ catalog, Adds (autocommit (pure ()) fun _ => insertRows node catalog) := by
    intro catalog
    refine Adds.bind (offTables_ret ()).adds fun _ => ?_
    refine offTables_discardOutsideTxn.adds.bind fun _ => (hrows catalog).bind fun _ => ?_
    exact (offTables_commitOutsideTxn.bind fun _ => offTables_ret _).adds
  exact readOnly_get.offTables.adds.bind fun db => (hbody _).bind fun _ => (offTables_ret _).adds

theorem reports_result (ts : Option TableSchema) (returningStar : Bool) (returning : List Nat)
    (returned : List Tuple) (what : String) :
    (result ts returningStar returning returned (what ++ toString returned.length)).Reports what
      returned.length := by
  unfold result ResultSet.Reports
  split <;> simp

theorem put_keepsRows_iff {node : InsertStatement} {rs : ResultSet} {db db' : Db}
    (hwf : db.tables.WF) (h : (visitInsert node).run db = (.ok rs, db')) :
    KeepsRows db db' rs (put node) ↔
      ∀ t, ∀ bytes ∈ (visitInsert node).handed db t, Fits bytes := by
  have hrows := fun t => rows_run_iff hwf (listed_visitInsert node db) t
  rw [h] at hrows
  refine ⟨fun hkeeps t => (hrows t).mp (hkeeps.1 t), fun hfits => ?_⟩
  have hbalance := fun t => (hrows t).mpr (hfits t)
  have hhanded := handed_visitInsert h
  obtain rfl := answer_visitInsert h
  refine ⟨hbalance, (node.writes db).length, ?_, by simp [hhanded, images], ?_⟩
  · simpa using reports_result (db.catalog.getTableById node.tableId) node.returningStar
      node.returning ((node.writes db).map Write.new) "PUT 0 "
  intro hnone
  have := congrArg Multiset.card (hbalance node.tableId)
  simpa [(adds_visitInsert hnone).taken, hhanded, images] using this

/-! ## RESHAPE -/

theorem forall₂_eraseIdx {α β : Type} {R : α → β → Prop} {as : List α} {bs : List β}
    (h : List.Forall₂ R as bs) (i : Nat) : List.Forall₂ R (as.eraseIdx i) (bs.eraseIdx i) := by
  induction h generalizing i with
  | nil => exact .nil
  | cons hab _ ih =>
    cases i with
    | zero => assumption
    | succ i => exact .cons hab (ih i)

/-- A reshaped row has values of the types of the new columns. -/
theorem typed_reshapeRow (ts : Option TableSchema) {oldSchema : Schema} (kind : AlterKind)
    {vals : Tuple} (h : Tuple.Typed oldSchema vals) :
    Tuple.Typed (newSchema ts oldSchema kind) (reshapeRow ts kind vals) := by
  cases kind with
  | AddColumn column => exact List.rel_append h (.cons (Tuple.hasType_null _) .nil)
  | DropColumn name =>
    simp only [newSchema, reshapeRow]
    cases dropIdx ts (.DropColumn name) with
    | none => exact h
    | some i => exact forall₂_eraseIdx h i

theorem deserialize_of_deserializeRow {schema : Schema} {raw : RecordID × Bytes}
    {row : RecordID × Tuple} (h : deserializeRow schema raw = .ok row) :
    Tuple.deserialize raw.2 schema = .ok row.2 := by
  simp only [deserializeRow, bind, Except.bind, pure, Except.pure] at h
  split at h
  · cases h
  · rename_i t ht
    cases h
    exact ht

theorem fetched_of_read {tm : TableManager} {schema : Schema} {t : TableId}
    {rows : List (RecordID × Tuple)}
    (h : List.Forall₂ (fun raw row => deserializeRow schema raw = .ok row) (tm.tuples t) rows) :
    tm.fetched schema t = rows.map fun row => .ok row.2 := by
  unfold TableManager.fetched
  generalize tm.tuples t = raws at h ⊢
  induction h with
  | nil => rfl
  | cons hrow _ ih => rw [List.map_cons, List.map_cons, deserialize_of_deserializeRow hrow, ih]

theorem exists_of_read {schema : Schema} {raws : List (RecordID × Bytes)}
    {rows : List (RecordID × Tuple)} {row : RecordID × Tuple}
    (h : List.Forall₂ (fun raw row => deserializeRow schema raw = .ok row) raws rows)
    (hrow : row ∈ rows) : ∃ raw ∈ raws, deserializeRow schema raw = .ok row := by
  induction h with
  | nil => cases hrow
  | cons hraw _ ih =>
    rcases List.mem_cons.mp hrow with rfl | hrow
    · exact ⟨_, by simp, hraw⟩
    · obtain ⟨raw, hmem, hd⟩ := ih hrow
      exact ⟨raw, by simp [hmem], hd⟩

theorem reshape_keepsRows_iff {node : AlterStatement} {rs : ResultSet} {db db' : Db}
    (hwf : db.tables.WF) (h : (visitAlter node).run db = (.ok rs, db')) :
    KeepsRows db db' rs (reshape node) ↔
      ∀ t, ∀ bytes ∈ (visitAlter node).handed db t, Fits bytes := by
  have hrows := fun t => (rows_run hwf (listed_visitAlter node db) t).2
  rw [h] at hrows
  obtain ⟨rows, hread, hhanded, htaken⟩ := visitAlter_ok h
  generalize hts : db.catalog.getTableById node.tableId = ts at hhanded
  generalize hold : db.catalog.loadSchema node.tableId = oldSchema at hread hhanded
  have hself : db'.tables.rows node.tableId =
      (images (newSchema ts oldSchema node.kind)
        (rows.map fun row => reshapeRow ts node.kind row.2)).filter Fits := by
    have := hrows node.tableId
    rw [htaken, hhanded, if_pos rfl, if_pos rfl, Multiset.add_comm] at this
    exact add_left_cancel this
  have hother : ∀ t, t ≠ node.tableId → db'.tables.rows t = db.tables.rows t := by
    intro t ht
    have := hrows t
    rwa [htaken, hhanded, if_neg (Ne.symm ht), if_neg (Ne.symm ht), Multiset.add_zero,
      Multiset.filter_zero, Multiset.add_zero] at this
  have hfetched : (db.tables.fetched oldSchema node.tableId).map
      (Except.map (reshapeRow ts node.kind)) =
        rows.map fun row => .ok (reshapeRow ts node.kind row.2) := by
    rw [fetched_of_read hread, List.map_map]
    rfl
  constructor
  · rintro ⟨-, hperm⟩ t bytes hmem
    rw [hts, hold, hfetched] at hperm
    rw [hhanded] at hmem
    split at hmem
    · refine Multiset.filter_eq_self.mp (Multiset.eq_of_le_of_card_le (Multiset.filter_le Fits _) ?_)
        bytes hmem
      have hlen : (db'.tables.rows node.tableId).card = rows.length := by
        simpa [TableManager.fetched, TableManager.rows] using hperm.length_eq
      rw [← hself, hlen]
      simp [images]
    · cases Multiset.notMem_zero _ hmem
  · intro hfits
    have hall := hfits node.tableId
    rw [hhanded, if_pos rfl] at hall
    rw [Multiset.filter_eq_self.mpr hall] at hself
    refine ⟨hother, ?_⟩
    rw [hts, hold, hfetched]
    refine Multiset.coe_eq_coe.mp ?_
    have hdecode : (db'.tables.fetched (newSchema ts oldSchema node.kind) node.tableId : Multiset _) =
        (db'.tables.rows node.tableId).map fun b =>
          Tuple.deserialize b (newSchema ts oldSchema node.kind) := by
      simp [TableManager.fetched, TableManager.rows, Function.comp_def]
    rw [hdecode, hself]
    simp only [images, Multiset.map_coe, List.map_map]
    refine congrArg _ (List.map_congr_left fun row hrow => ?_)
    obtain ⟨raw, -, hraw⟩ := exists_of_read hread hrow
    refine Tuple.deserialize_of_typed (typed_reshapeRow ts node.kind
      (Tuple.typed_of_deserialize (deserialize_of_deserializeRow hraw))) ?_
    exact lt_of_le_of_lt
      (hall _ (Multiset.mem_coe.mpr (List.mem_map_of_mem (List.mem_map_of_mem hrow)))).2 (by norm_num)

theorem build_keepsRows_iff {node : CreateStatement} {rs : ResultSet} {db db' : Db}
    (hwf : db.tables.WF) (h : (visitCreate node).run db = (.ok rs, db')) :
    KeepsRows db db' rs (build node) ↔
      ∀ t, ∀ bytes ∈ (visitCreate node).handed db t, Fits bytes := by
  have hrows := fun t => rows_run_iff hwf ((adds_visitCreate node).listed db) t
  rw [h] at hrows
  simp only [(adds_visitCreate node).taken, Multiset.add_zero] at hrows
  exact forall_congr' hrows

/-- A statement that returns keeps the rows that it hands to its tables if and only if each
of them has one to 4080 bytes. -/
theorem keepsRows_iff (w : RowWriter) {rs : ResultSet} {db db' : Db} (hwf : db.tables.WF)
    (h : w.exec.run db = (.ok rs, db')) :
    w.KeepsRows db db' rs ↔ ∀ bytes ∈ w.exec.rowsHanded db, Fits bytes := by
  rw [mem_rowsHanded_iff]
  cases w with
  | put node => exact put_keepsRows_iff hwf h
  | build node => exact build_keepsRows_iff hwf h
  | reshape node => exact reshape_keepsRows_iff hwf h

/-- PUT INTO t VALUES (1), (2). -/
theorem keepsRows_put :
    let w := RowWriter.put { tableId := 1, rows := [[fun _ => .int 1], [fun _ => .int 2]] }
    w.KeepsRows numbersDb (w.exec.run numbersDb).2 { message := "PUT 0 2" } :=
  (keepsRows_iff _ ok_numbersDb.tables (Prod.ext (by decide +kernel) rfl)).mpr (by decide +kernel)

/-- A table with a column of text. -/
def textDb : Db :=
  .init
    { tables := [{ numbers with columns := [{ name := "a", type := .Text }] }], nodup := by simp } []

/-- PUT INTO t VALUES ('a…a') with 4076 letters answers that it has put a row. -/
theorem put_loses_row :
    let w := RowWriter.put { tableId := 1, rows := [[fun _ => .text (List.replicate 4076 97)]] }
    ∃ rs, (w.exec.run textDb).1 = .ok rs ∧ ¬w.KeepsRows textDb (w.exec.run textDb).2 rs := by
  intro w
  refine ⟨{ message := "PUT 0 1" }, by decide +kernel, fun ⟨_, n, _, hcard, hadded⟩ => ?_⟩
  have hhanded : Multiset.card (w.exec.handed textDb 1) = 1 := by decide +kernel
  have hlost : ((w.exec.run textDb).2.tables.tuples 1).length = 0 := by decide +kernel
  have hempty : (textDb.tables.tuples 1).length = 0 := rfl
  have := hadded rfl
  simp only [TableManager.rows, Multiset.coe_card, List.length_map] at this
  rw [hlost, hempty, ← hcard] at this
  exact absurd (hhanded ▸ this) (by decide)

end RowWriter

end Relite.Vm
