import Relite.Vm.ExpressionEval
import Relite.Vm.LostRows
import Relite.Vm.WriteSpec

/-!
# Stored values

`Tuple::serialize` writes what the type of the column asks for, whatever the value is: a
value of another type leaves a zero, FALSE or an empty text behind. `castValue` is the
conversion that the expressions have for the same purpose. A PUT or a MODIFY is read back
as these casts exactly when each of its rows fits and each value is `Kept`.
-/
namespace Relite.Vm
open Lib Semantic

/-- What `serialize` writes for a value that it has no bytes for. -/
def defaultOf : DataType → Value
  | .Int => .int 0
  | .Float => .double (ofInt64 0).toBits
  | .Bool => .bool false
  | _ => .text []

/-- The value is null, of the type of its column or an integer in a FLOAT column, or its
cast happens to be the default that is stored in its place. -/
def Kept (d : DataType) (v : Value) : Prop :=
  Tuple.HasType d v ∨ (d = .Float ∧ v.typeCode = 1) ∨ castValue v d = defaultOf d

instance (d : DataType) (v : Value) : Decidable (Kept d v) := by unfold Kept; infer_instance

theorem castValue_of_hasType {d : DataType} {v : Value} (h : Tuple.HasType d v) :
    castValue v d = v := by
  cases v <;> cases d <;> first | rfl | cases h

theorem stored_of_not_hasType {d : DataType} {v : Value} (h : ¬Tuple.HasType d v)
    (hint : ¬(d = .Float ∧ v.typeCode = 1)) : Tuple.stored d v = defaultOf d := by
  cases v <;> cases d <;> first | rfl | exact absurd trivial h | exact absurd ⟨rfl, rfl⟩ hint

/-- A value is stored as its cast to the type of the column if and only if it is kept. -/
theorem stored_eq_castValue_iff (d : DataType) (v : Value) :
    Tuple.stored d v = castValue v d ↔ Kept d v := by
  by_cases htype : Tuple.HasType d v
  · rw [Tuple.stored_of_hasType htype, castValue_of_hasType htype]
    exact iff_of_true rfl (.inl htype)
  by_cases hint : d = .Float ∧ v.typeCode = 1
  · obtain ⟨rfl, hcode⟩ := hint
    cases v with
    | int n => exact iff_of_true rfl (.inr (.inl ⟨rfl, rfl⟩))
    | null | bool b | text s | double bits => cases hcode
  · rw [stored_of_not_hasType htype hint, Kept, eq_comm]
    tauto

def castRow (schema : Schema) (t : Tuple) : Tuple :=
  List.zipWith (fun d v => castValue v d) schema t

theorem storedRow_eq_castRow_iff {schema : Schema} : ∀ {t : Tuple}, t.length = schema.length →
    (Tuple.storedRow schema t = castRow schema t ↔ List.Forall₂ Kept schema t) := by
  induction schema with
  | nil =>
    intro t ht
    rw [List.eq_nil_of_length_eq_zero ht]
    exact iff_of_true rfl .nil
  | cons d ds ih =>
    intro t ht
    cases t with
    | nil => cases ht
    | cons v vs =>
      rw [List.forall₂_cons, ← ih (by simpa using ht), ← stored_eq_castValue_iff]
      exact List.cons_eq_cons

namespace Write

/-- The database after the write. -/
def after (w : Write) : Db := (w.program.run w.before).2

/-- The row that the write takes out of the table, as a FETCH yields it. -/
def taken (w : Write) : Multiset (Except String Tuple) :=
  (w.rid.elim 0 fun rid => w.before.tables.rowAt w.tableId rid).map fun bytes =>
    Tuple.deserialize bytes w.schema

/-- A FETCH after the write yields the row with each value cast to the type of its column,
next to the rows that it yielded before. -/
def ReadsBack (w : Write) : Prop :=
  (w.after.tables.fetched w.schema w.tableId : Multiset (Except String Tuple)) + w.taken =
    w.before.tables.fetched w.schema w.tableId + {.ok (castRow w.schema w.new)}

theorem Ok.listed {w : Write} {db : Db} (h : w.Ok db) : Exec.AllListed w.program w.before := by
  unfold program
  split
  · exact Exec.listed_insertRow _ _ _ _ _
  · rename_i rid old hreplaced
    exact Exec.listed_rewriteRow _ _ _ _ _ (h.replaced (rid, old) hreplaced).2.listed

/-- A write adds its row if that fits, and takes out the one it replaces. -/
theorem Ok.rows_after {w : Write} {db : Db} (h : w.Ok db) :
    w.after.tables.rows w.tableId + (w.rid.elim 0 fun rid => w.before.tables.rowAt w.tableId rid) =
      w.before.tables.rows w.tableId +
        if Fits (w.new.serialize w.schema) then {w.new.serialize w.schema} else 0 := by
  have hrows := (Exec.rows_run h.before.tables h.listed w.tableId).2
  have hhanded : w.program.handed w.before w.tableId = {w.new.serialize w.schema} := by
    unfold program
    split <;> simp [Exec.handed_insertRow, Exec.handed_rewriteRow, TableManager.handedTo]
  have htaken : w.program.taken w.before w.tableId =
      w.rid.elim 0 fun rid => w.before.tables.rowAt w.tableId rid := by
    unfold program rid
    split <;> rename_i hreplaced <;>
      simp [hreplaced, Exec.taken_insertRow, Exec.taken_rewriteRow]
  rw [hhanded, htaken, Multiset.filter_singleton] at hrows
  exact hrows

theorem coe_fetched (tm : TableManager) (schema : Schema) (t : TableId) :
    (tm.fetched schema t : Multiset (Except String Tuple)) =
      (tm.rows t).map fun bytes => Tuple.deserialize bytes schema := by
  simp [TableManager.fetched, TableManager.rows, Function.comp_def]

/-- A row is read back as its casts if and only if it fits and its values are kept. -/
theorem Ok.readsBack_iff {w : Write} {db : Db} (h : w.Ok db) :
    w.ReadsBack ↔ Fits (w.new.serialize w.schema) ∧ List.Forall₂ Kept w.schema w.new := by
  have hrows := congrArg (Multiset.map fun bytes => Tuple.deserialize bytes w.schema) h.rows_after
  simp only [Multiset.map_add] at hrows
  unfold ReadsBack taken
  rw [coe_fetched, coe_fetched, hrows, add_right_inj]
  split
  · rename_i hfits
    have hlen : (w.new.serialize w.schema).length < 2 ^ 32 := by
      have := hfits.2
      omega
    rw [Multiset.map_singleton, Multiset.singleton_inj,
      Tuple.deserialize_serialize_eq h.length hlen, Except.ok.injEq,
      storedRow_eq_castRow_iff h.length]
    exact (and_iff_right hfits).symm
  · rename_i hfits
    simp [hfits]

end Write

theorem Statement.readsBack_iff (depth : Nat) (s : Statement) {db : Db} (hok : db.Ok) :
    (∀ w ∈ s.writes depth db, w.ReadsBack) ↔ ∀ w ∈ s.writes depth db,
      Fits (w.new.serialize w.schema) ∧ List.Forall₂ Kept w.schema w.new :=
  forall₂_congr fun _ hw => (Statement.write_ok hok hw).readsBack_iff

/-- The rows of a PUT or MODIFY as the casts of their values. -/
def casts (writes : List Write) : List (Except String Tuple) :=
  writes.map fun w => .ok (castRow w.schema w.new)

/-- The rows that a PUT or MODIFY answers are those that it wrote. A FETCH after each write
yields the row with every value cast to the type of its column, and a FETCH after a PUT
without ON CONFLICT yields all these rows. -/
def Statement.StoresValues (depth : Nat) (db db' : Db) (rs : ResultSet) (s : Statement) : Prop :=
  (∀ w ∈ s.writes depth db, w.ReadsBack) ∧
  match s with
  | insert node => rs = Exec.result (db.catalog.getTableById node.tableId) node.returningStar
      node.returning ((node.writes db).map Write.new)
      ("PUT 0 " ++ toString (node.writes db).length) ∧
    (node.onConflict = none →
      let schema := db.catalog.loadSchema node.tableId
      (db'.tables.fetched schema node.tableId).Perm
        (db.tables.fetched schema node.tableId ++ casts (node.writes db)))
  | update node => rs = Exec.result (db.catalog.getTableById node.tableId) node.returningStar
      node.returning ((node.writes depth db).map Write.new)
      ("MODIFY " ++ toString (node.writes depth db).length)
  | delete _ => True

/-- A FETCH after a PUT yields the casts of its rows. -/
theorem fetched_put {node : InsertStatement} (hconflict : node.onConflict = none)
    {rs : ResultSet} {db db' : Db} (hok : db.Ok)
    (h : (Exec.visitInsert node).run db = (.ok rs, db'))
    (hkept : ∀ w ∈ node.writes db,
      Fits (w.new.serialize w.schema) ∧ List.Forall₂ Kept w.schema w.new) :
    (db'.tables.fetched (db.catalog.loadSchema node.tableId) node.tableId).Perm
      (db.tables.fetched (db.catalog.loadSchema node.tableId) node.tableId ++
        casts (node.writes db)) := by
  generalize hschema : db.catalog.loadSchema node.tableId = schema
  have hwrite : ∀ w ∈ node.writes db, w.schema = schema ∧ w.new.length = schema.length := by
    intro w hw
    have hwok := Exec.write_ok_of_insert hok hw
    have hw' : w.schema = schema := by
      rw [hwok.schema, InsertStatement.tableId_of_mem_writes hw, hschema]
    exact ⟨hw', hw' ▸ hwok.length⟩
  have hrows := (Exec.rows_run hok.tables (Exec.listed_visitInsert node db) node.tableId).2
  rw [(RowWriter.adds_visitInsert hconflict).taken, Multiset.add_zero, h,
    Exec.handed_visitInsert h, hschema, Multiset.filter_eq_self.mpr ?_] at hrows
  · refine Multiset.coe_eq_coe.mp ?_
    rw [← Multiset.coe_add, Write.coe_fetched, Write.coe_fetched, hrows, Multiset.map_add]
    refine congrArg _ ?_
    simp only [Exec.images, Multiset.map_coe, List.map_map, casts]
    refine congrArg _ (List.map_congr_left fun w hw => ?_)
    obtain ⟨hws, hlen⟩ := hwrite w hw
    obtain ⟨hfits, hall⟩ := hkept w hw
    rw [hws] at hfits hall ⊢
    have hbytes : (w.new.serialize schema).length < 2 ^ 32 := by
      have := hfits.2
      omega
    rw [← (storedRow_eq_castRow_iff hlen).mpr hall]
    exact Tuple.deserialize_serialize_eq hlen hbytes
  · intro bytes hbytes
    obtain ⟨row, hrow, rfl⟩ := List.mem_map.mp (Multiset.mem_coe.mp hbytes)
    obtain ⟨w, hw, rfl⟩ := List.mem_map.mp hrow
    exact (hwrite w hw).1 ▸ (hkept w hw).1

/-- A PUT or MODIFY that returns stores its values faithfully if and only if each row that it
writes fits and has only values that are kept. -/
theorem Statement.storesValues_iff (depth : Nat) (s : Statement) {rs : ResultSet} {db db' : Db}
    (hok : db.Ok) (h : (s.exec depth).run db = (.ok rs, db')) :
    s.StoresValues depth db db' rs ↔ ∀ w ∈ s.writes depth db,
      Fits (w.new.serialize w.schema) ∧ List.Forall₂ Kept w.schema w.new := by
  refine ⟨fun hstores => (s.readsBack_iff depth hok).mp hstores.1, fun hkept =>
    ⟨(s.readsBack_iff depth hok).mpr hkept, ?_⟩⟩
  cases s with
  | insert node =>
    exact ⟨Exec.answer_visitInsert h, fun hconflict => fetched_put hconflict hok h hkept⟩
  | delete node => trivial
  | update node => exact Exec.answer_visitUpdate h

/-- MODIFY t SET a = e. -/
def Statement.modify (e : Value) : Statement :=
  .update { tableId := 1, targetIndices := [0], values := [fun _ => e] }

/-- The table with the one row 1. -/
def oneNumberDb : Db := numbersDb.execute 1 (.change (.put [1]))

theorem ok_oneNumberDb : oneNumberDb.Ok := ok_numbersDb.execute 1 _

/-- MODIFY t SET a = 2. -/
theorem Statement.storesValues_modify :
    let s := Statement.modify (.int 2)
    s.StoresValues 1 oneNumberDb ((s.exec 1).run oneNumberDb).2 { message := "MODIFY 1" } :=
  (storesValues_iff 1 _ ok_oneNumberDb (Prod.ext (by decide +kernel) rfl)).mpr (by decide +kernel)

/-- MODIFY t SET a = 1.5 answers as if it had stored the value, and stores 0. -/
theorem Statement.modify_not_storesValues :
    let s := Statement.modify (.double 0x3ff8000000000000)
    ((s.exec 1).run oneNumberDb).1 = .ok { message := "MODIFY 1" } ∧
      ¬s.StoresValues 1 oneNumberDb ((s.exec 1).run oneNumberDb).2 { message := "MODIFY 1" } := by
  intro s
  refine ⟨by decide +kernel, fun h => ?_⟩
  have hkept := (s.readsBack_iff 1 ok_oneNumberDb).mp h.1
  revert hkept
  decide +kernel

end Relite.Vm
