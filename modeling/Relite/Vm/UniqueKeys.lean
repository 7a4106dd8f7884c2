import Relite.Vm.RowConstraints

/-!
# Unique keys

A table has a key for each UNIQUE or PRIMARY KEY column, and one for its PRIMARY KEY
clause. The check of a row reads the rows that an index finds for the value of a column, or
all rows, and reads none for a PRIMARY KEY clause with one column. No two rows have a key
in common as long as the checks read each row that a new one would collide with, and no
referential action makes rows collide.
-/
namespace Relite.Semantic
open Lib Vm

/-- A key of a table: of a column that is declared UNIQUE or PRIMARY KEY, or of the PRIMARY
KEY clause. -/
inductive Key
  | column (i : Nat)
  | clause
  deriving DecidableEq, Repr

namespace TableSchema

def keys (ts : TableSchema) : List Key :=
  (ts.columns.zipIdx.filterMap fun (col, i) =>
    if col.primaryKey || col.unique then some (.column i) else none) ++
  if ts.primaryKey.isEmpty then [] else [.clause]

def keyColumns (ts : TableSchema) : Key → List Int
  | .column i => [(i : Int)]
  | .clause => ts.primaryKey

theorem mem_keys_column {ts : TableSchema} {i : Nat} (h : .column i ∈ ts.keys) :
    ∃ col, (col, i) ∈ ts.columns.zipIdx ∧ (col.primaryKey || col.unique) = true := by
  simp only [keys, List.mem_append, List.mem_filterMap] at h
  rcases h with ⟨⟨col, j⟩, hmem, hkey⟩ | h
  · split at hkey
    · rename_i hdeclared
      cases hkey
      exact ⟨col, hmem, hdeclared⟩
    · cases hkey
  · split at h <;> simp at h

end TableSchema

end Relite.Semantic

namespace Relite.Vm
open Lib Semantic Txn

theorem compareValues_null (v : Value) : compareValues v .null = none := by
  cases v <;> rfl

/-- The sign of a three-way comparison is zero whichever value comes first. -/
theorem ite_lt_gt_eq_comm (p q : Prop) [Decidable p] [Decidable q] :
    (some (if p then Ordering.lt else if q then .gt else .eq) = some .eq) ↔
      (some (if q then Ordering.lt else if p then .gt else .eq) = some .eq) := by
  by_cases hp : p <;> by_cases hq : q <;> simp [hp, hq]

/-- Whether values are equal does not depend on their order. -/
theorem compareValues_eq_comm (v w : Value) :
    compareValues v w = some .eq ↔ compareValues w v = some .eq := by
  have hmixed : ∀ {a b : Value}, compareValues a b = none → compareValues b a = none →
      (compareValues a b = some .eq ↔ compareValues b a = some .eq) := by
    intro a b hab hba
    simp [hab, hba]
  cases v with
  | null => exact hmixed rfl (compareValues_null w)
  | int a | double a =>
    cases w with
    | int b | double b => exact ite_lt_gt_eq_comm _ _
    | null | bool b | text b => exact hmixed rfl rfl
  | text a =>
    cases w with
    | text b => exact ite_lt_gt_eq_comm _ _
    | _ => exact hmixed rfl rfl
  | bool a =>
    cases w with
    | bool b => cases a <;> cases b <;> decide
    | _ => exact hmixed rfl rfl

/-- The rows have the same values in these columns, none of them null. -/
def sameKey (columns : List Int) (t row : Tuple) : Bool :=
  columns.all fun ci => Exec.hasValue ci ((Exec.at? row ci).getD .null) t

theorem hasValue_comm {column : Int} {t row : Tuple}
    (h : Exec.hasValue column ((Exec.at? row column).getD .null) t) :
    Exec.hasValue column ((Exec.at? t column).getD .null) row := by
  unfold Exec.hasValue at h ⊢
  cases ht : Exec.at? t column with
  | none => simp [ht] at h
  | some v =>
    cases hr : Exec.at? row column with
    | none => simp [ht, hr, compareValues_null] at h
    | some w =>
      simp only [ht, hr, Option.any_some, Option.getD_some, beq_iff_eq] at h ⊢
      exact (compareValues_eq_comm v w).mp h

theorem sameKey_comm {columns : List Int} {t row : Tuple} (h : sameKey columns t row) :
    sameKey columns row t := by
  unfold sameKey at h ⊢
  rw [List.all_eq_true] at h ⊢
  exact fun ci hci => hasValue_comm (h ci hci)

/-- A row with the same key has no null in it. -/
theorem sameKey_ne_null {columns : List Int} {t row : Tuple} (h : sameKey columns t row) {ci : Int}
    (hci : ci ∈ columns) : ((Exec.at? row ci).getD .null).isNull = false := by
  have hvalue := List.all_eq_true.mp h ci hci
  by_contra hnull
  have hv : (Exec.at? row ci).getD .null = .null := by simpa [Value.isNull] using hnull
  rw [hv] at hvalue
  simp [Exec.hasValue, compareValues_null] at hvalue

/-! ## The rows that a check reads -/

/-- The rows that `candidateRows` reads. -/
def Db.candidates (db : Db) (t : TableId) (column : Int) (value : Value) :
    List (RecordID × Bytes) :=
  match IndexManager.find db.indexes t column with
  | some idx => (idx.lookup value).filterMap fun rid =>
    (db.tables.getTuple rid).map fun bytes => (rid, bytes)
  | none => db.tables.tuples t

/-- The rows that the check of a key reads for a new row. -/
def Db.examined (db : Db) (ts : TableSchema) (row : Tuple) : Key → List (RecordID × Bytes)
  | .column i => db.candidates ts.tableId i (row.getD i .null)
  | .clause => if ts.primaryKey.length < 2 then [] else db.tables.tuples ts.tableId

namespace Exec

theorem run_candidateRows (t : TableId) (column : Int) (value : Value) (db : Db) :
    (candidateRows t column value).run db = (.ok (db.candidates t column value), db) := by
  unfold candidateRows Db.candidates
  simp only [Prog.bind_eq, run_bind, run_get]
  cases IndexManager.find db.indexes t column <;> rfl

/-- Where no row satisfies `p` all have been read. -/
theorem anyRow_none {schema : Schema} {p : RecordID → Tuple → Bool} :
    ∀ {rows : List (RecordID × Bytes)}, anyRow schema p rows = .ok none →
      ∀ row ∈ rows, ∀ t, Tuple.deserialize row.2 schema = .ok t → p row.1 t = false := by
  intro rows
  induction rows with
  | nil => exact fun _ _ h => (by cases h)
  | cons row rows ih =>
    intro h
    simp only [anyRow, bind, Except.bind, pure, Except.pure] at h
    split at h
    · cases h
    rename_i one hone
    split at h
    · cases h
    rename_i hp
    refine List.forall_mem_cons.mpr ⟨fun t ht => ?_, ih h⟩
    simp only [deserializeRow, ht, bind, Except.bind, pure, Except.pure, Except.ok.injEq] at hone
    rw [← hone] at hp
    simpa using hp

theorem at?_natCast (row : Tuple) (i : Nat) : (at? row (i : Int)).getD .null = row.getD i .null := by
  simp [at?]

theorem sameKey_column (i : Nat) (t row : Tuple) :
    sameKey [(i : Int)] t row = hasValue (i : Int) (row.getD i .null) t := by
  simp [sameKey, at?_natCast]

theorem of_valueExists {ts : TableSchema} {i : Nat} {row : Tuple} {excludeRid : Option RecordID}
    {db : Db}
    (h : ((valueExists ts.tableId i (row.getD i .null) ts excludeRid).run db).1 = .ok false) :
    ∀ r ∈ db.examined ts row (.column i), excludeRid ≠ some r.1 →
      ∀ t, Tuple.deserialize r.2 ts.schema = .ok t → sameKey [(i : Int)] t row = false := by
  intro r hr hne t ht
  obtain ⟨rows, db₁, hrows, h⟩ := run_bind_eq_ok.mp (Prod.ext h rfl)
  cases (run_candidateRows _ _ _ _).symm.trans hrows
  obtain ⟨found, db₂, hfound, h⟩ := run_bind_eq_ok.mp h
  obtain rfl : found = none := by
    cases found with
    | none => rfl
    | some row => cases h
  rw [run_ofExcept] at hfound
  have hp := anyRow_none (congrArg Prod.fst hfound) r hr t ht
  simpa [hne, sameKey_column] using hp

theorem of_enforcePrimaryKey {ts : TableSchema} {row : Tuple} {excludeRid : Option RecordID}
    {db : Db} (h : ((enforcePrimaryKey ts ts.tableId row excludeRid).run db).1 = .ok ()) :
    ∀ r ∈ db.examined ts row .clause, excludeRid ≠ some r.1 →
      ∀ t, Tuple.deserialize r.2 ts.schema = .ok t → sameKey ts.primaryKey t row = false := by
  intro r hr hne t ht
  by_contra hsame
  rw [Bool.not_eq_false] at hsame
  unfold enforcePrimaryKey at h
  unfold Db.examined at hr
  split at h
  · rename_i hlen
    rw [if_pos hlen] at hr
    cases hr
  rename_i hlen
  rw [if_neg hlen] at hr
  split at h
  · rename_i hnull
    obtain ⟨ci, hci, hnull⟩ := List.any_eq_true.mp hnull
    rw [sameKey_ne_null hsame hci] at hnull
    cases hnull
  · obtain ⟨rows, db₁, hrows, h⟩ := run_bind_eq_ok.mp (Prod.ext h rfl)
    cases hrows
    obtain ⟨found, db₂, hfound, h⟩ := run_bind_eq_ok.mp h
    cases found with
    | some row => cases h
    | none =>
      rw [run_ofExcept] at hfound
      have hp := anyRow_none (congrArg Prod.fst hfound) r hr t ht
      simp only [ne_eq, hne, not_false_eq_true, decide_true, Bool.true_and] at hp
      exact Bool.false_ne_true (hp.symm.trans hsame)

/-- A row that has passed the checks has no key of a row that they have read. -/
theorem not_sameKey_of_checkRow {ts : TableSchema} {row : Tuple} {excludeRid : Option RecordID}
    {db : Db} (h : ((checkRow (some ts) ts.tableId row excludeRid).run db).1 = .ok ()) {k : Key}
    (hk : k ∈ ts.keys) : ∀ r ∈ db.examined ts row k, excludeRid ≠ some r.1 →
      ∀ t, Tuple.deserialize r.2 ts.schema = .ok t → sameKey (ts.keyColumns k) t row = false := by
  obtain ⟨-, hcolumns, hclause⟩ := of_checkRow h
  cases k with
  | clause => exact of_enforcePrimaryKey hclause
  | column i =>
    obtain ⟨col, hcol, hdeclared⟩ := TableSchema.mem_keys_column hk
    intro r hr hne t ht
    by_contra hsame
    rw [Bool.not_eq_false] at hsame
    have hnull := sameKey_ne_null hsame (List.mem_singleton_self _)
    rw [at?_natCast] at hnull
    have hfree := (of_enforceColumn (hcolumns (col, i) hcol)).2.2.2 hdeclared hnull
    exact Bool.false_ne_true ((of_valueExists hfree r hr hne t ht).symm.trans hsame)

end Exec

/-! ## The invariant -/

/-- The row, as it is read, has the key in common with `row`. -/
def hasKey (ts : TableSchema) (k : Key) (row : Tuple) (r : RecordID × Bytes) : Bool :=
  (Tuple.deserialize r.2 ts.schema).toOption.any fun t => sameKey (ts.keyColumns k) t row

theorem hasKey_iff {ts : TableSchema} {k : Key} {row : Tuple} {r : RecordID × Bytes} :
    hasKey ts k row r ↔
      ∃ t, Tuple.deserialize r.2 ts.schema = .ok t ∧ sameKey (ts.keyColumns k) t row := by
  unfold hasKey
  cases Tuple.deserialize r.2 ts.schema <;> simp [Except.toOption]

namespace Db

/-- No two live rows of a table have a key in common. -/
def KeysDistinct (db : Db) : Prop :=
  ∀ ts ∈ db.catalog.tables, ∀ k ∈ ts.keys,
    ∀ r ∈ db.tables.tuples ts.tableId, ∀ r' ∈ db.tables.tuples ts.tableId, r.1 ≠ r'.1 →
      ∀ row ∈ (Tuple.deserialize r'.2 ts.schema).toOption, hasKey ts k row r = false

instance (db : Db) : Decidable db.KeysDistinct := by unfold KeysDistinct; infer_instance

/-- The live rows, but for the one that is replaced, that have the key in common with `row`. -/
def collisions (db : Db) (ts : TableSchema) (replaced : Option RecordID) (k : Key)
    (row : Tuple) : List (RecordID × Bytes) :=
  (db.tables.tuples ts.tableId).filter fun r => replaced ≠ some r.1 && hasKey ts k row r

/-- A row that a referential action writes collides with no other one. A row that was
checked collides only with such rows as the check has read and found equal. -/
def KeyGiven (db : Db) (t : TableId) (replaced : Option RecordID) (bytes : Bytes) : Origin → Prop
  | .unchecked => ∀ ts ∈ db.catalog.getTableById t,
    ∀ row ∈ (Tuple.deserialize bytes ts.schema).toOption, ∀ k ∈ ts.keys,
      db.collisions ts replaced k row = []
  | .checked checked row => ∀ ts ∈ db.catalog.getTableById t, ∀ k ∈ ts.keys,
    ∀ r ∈ db.collisions ts replaced k (Tuple.storedRow ts.schema row),
      r ∈ checked.examined ts row k ∧ hasKey ts k row r

instance (db : Db) (t : TableId) (replaced : Option RecordID) (bytes : Bytes) (origin : Origin) :
    Decidable (db.KeyGiven t replaced bytes origin) :=
  match origin with
  | .unchecked => inferInstanceAs (Decidable (∀ ts ∈ db.catalog.getTableById t,
    ∀ row ∈ (Tuple.deserialize bytes ts.schema).toOption, ∀ k ∈ ts.keys,
      db.collisions ts replaced k row = []))
  | .checked checked row => inferInstanceAs (Decidable (∀ ts ∈ db.catalog.getTableById t,
    ∀ k ∈ ts.keys, ∀ r ∈ db.collisions ts replaced k (Tuple.storedRow ts.schema row),
      r ∈ checked.examined ts row k ∧ hasKey ts k row r))

def KeysGiven (origin : Origin) (db : Db) : Call → Prop
  | .insertTuple t bytes => db.KeyGiven t none bytes origin
  | .updateTuple t rid bytes => db.KeyGiven t (some rid) bytes origin
  | _ => True

instance (origin : Origin) (db : Db) (c : Call) : Decidable (KeysGiven origin db c) :=
  match c with
  | .insertTuple t bytes => inferInstanceAs (Decidable (db.KeyGiven t none bytes origin))
  | .updateTuple t rid bytes => inferInstanceAs (Decidable (db.KeyGiven t (some rid) bytes origin))
  | .eraseTuple _ | .indexAdd .. | .indexRemove .. | .stageInsert .. | .stageDelete ..
  | .discardPending | .commitPending | .lock .. | .logInsert .. | .logDelete ..
  | .registerUndo _ | .truncateTable _ | .dropTable _ | .registerTable _ | .dropIndexes _
  | .createIndex .. | .dropIndex _ | .setCatalog _ => inferInstanceAs (Decidable True)

variable {db : Db} {t : TableId}

/-- A row that is written collides with no other one. -/
theorem collisions_eq_nil {origin : Origin} {row : Tuple} {replaced : Option RecordID}
    {ts : TableSchema} (hts : ts ∈ db.catalog.tables) (hrow : row.length = ts.schema.length)
    (hle : (row.serialize ts.schema).length ≤ 4080)
    (hpassed : origin.Passed ts.tableId replaced row db)
    (hgiven : db.KeyGiven ts.tableId replaced (row.serialize ts.schema) origin) {k : Key}
    (hk : k ∈ ts.keys) : db.collisions ts replaced k (Tuple.storedRow ts.schema row) = [] := by
  have hget := Catalog.getTableById_of_mem hts
  cases origin with
  | unchecked =>
    refine hgiven ts hget _ ?_ k hk
    rw [Tuple.deserialize_serialize_eq hrow (by omega)]
    rfl
  | checked db₀ row₀ =>
    obtain ⟨rfl, hext, -, hcheck⟩ := hpassed
    rw [← hext.catalog, hget] at hcheck
    refine List.eq_nil_iff_forall_not_mem.mpr fun r hr => ?_
    obtain ⟨hexamined, hsame⟩ := hgiven ts hget k hk r hr
    obtain ⟨-, hne⟩ := List.mem_filter.mp hr
    rw [Bool.and_eq_true, decide_eq_true_eq] at hne
    obtain ⟨u, hu, hsame⟩ := hasKey_iff.mp hsame
    have hfree := Exec.not_sameKey_of_checkRow hcheck hk r hexamined hne.1 u hu
    exact Bool.false_ne_true (hfree.symm.trans hsame)

theorem not_sameKey_of_collisions {ts : TableSchema} {replaced : Option RecordID} {k : Key}
    {row : Tuple} (h : db.collisions ts replaced k row = []) {r : RecordID} {b : Bytes}
    (hb : db.tables.heap ts.tableId r = some b) (hne : replaced ≠ some r) {u : Tuple}
    (hu : Tuple.deserialize b ts.schema = .ok u) : sameKey (ts.keyColumns k) u row = false := by
  by_contra hsame
  rw [Bool.not_eq_false] at hsame
  refine List.eq_nil_iff_forall_not_mem.mp h (r, b) (List.mem_filter.mpr
    ⟨TableManager.mem_tuples.mpr hb, ?_⟩)
  simpa [hne] using hasKey_iff.mpr ⟨u, hu, hsame⟩

/-- After a row is written no two rows have a key in common, if the row collides with no
other one. -/
theorem KeysDistinct.write (h : db.KeysDistinct) {db' : Db} (hcat : db'.catalog = db.catalog)
    {row : Tuple} {replaced : Option RecordID}
    (hrow : row.length = (db.catalog.loadSchema t).length)
    (hfree : ∀ ts ∈ db.catalog.tables, ts.tableId = t →
      (row.serialize ts.schema).length ≤ 4080 → ∀ k ∈ ts.keys,
        db.collisions ts replaced k (Tuple.storedRow ts.schema row) = [])
    (hwrote : db.tables.Wrote t replaced (row.serialize (db.catalog.loadSchema t)) db'.tables) :
    db'.KeysDistinct := by
  obtain ⟨nr, hheap⟩ := hwrote
  rintro ts hts k hk ⟨r, b⟩ hr ⟨r', b'⟩ hr' hne u' hu'
  rw [hcat] at hts
  rw [TableManager.mem_tuples] at hr hr'
  rw [mem_toOption] at hu'
  by_contra hsame
  rw [Bool.not_eq_false] at hsame
  obtain ⟨u, hu, hsame⟩ := hasKey_iff.mp hsame
  have hread : ∀ {w}, ts.tableId = t → (row.serialize (db.catalog.loadSchema t)).length ≤ 4080 →
      Tuple.deserialize (row.serialize (db.catalog.loadSchema t)) ts.schema = .ok w →
      w = Tuple.storedRow ts.schema row ∧
        db.collisions ts replaced k (Tuple.storedRow ts.schema row) = [] := by
    rintro w rfl hle hw
    rw [Catalog.loadSchema_of_mem hts] at hrow hle hw
    rw [Tuple.deserialize_serialize_eq hrow (by omega)] at hw
    exact ⟨(Except.ok.inj hw).symm, hfree ts hts rfl hle k hk⟩
  rcases hheap ts.tableId r b hr with ⟨hb, hrep⟩ | ⟨ht, rfl, rfl, hle⟩
  · rcases hheap ts.tableId r' b' hr' with ⟨hb', -⟩ | ⟨ht, rfl, rfl, hle⟩
    · have hold := h ts hts k hk (r, b) (TableManager.mem_tuples.mpr hb) (r', b')
        (TableManager.mem_tuples.mpr hb') hne u' (mem_toOption.mpr hu')
      rw [hasKey_iff.mpr ⟨u, hu, hsame⟩] at hold
      cases hold
    · obtain ⟨rfl, hnone⟩ := hread ht hle hu'
      exact Bool.false_ne_true
        ((not_sameKey_of_collisions hnone hb (hrep ht) hu).symm.trans hsame)
  · rcases hheap ts.tableId r' b' hr' with ⟨hb', hrep⟩ | ⟨-, rfl, -⟩
    · obtain ⟨rfl, hnone⟩ := hread ht hle hu
      exact Bool.false_ne_true ((not_sameKey_of_collisions hnone hb' (hrep ht) hu').symm.trans
        (sameKey_comm hsame))
    · exact hne rfl

/-- The rules of keys. -/
def keyRules : RowRules where
  Start := KeysDistinct
  Inv := KeysDistinct
  Seen _ _ _ _ := True
  Given := KeysGiven
  start_lock _ _ _ h := h
  start _ h := h
  seen_heap _ _ _ := trivial
  step := by
    intro db db' hok hkeys hstep
    refine ⟨?_, fun _ _ _ _ h => h⟩
    cases hstep with
    | lock rid mode => exact hkeys
    | insert t idxs row origin _ hrow hpassed hgiven =>
      refine hkeys.write rfl hrow ?_ (hok.tables.wrote_insertTuple t _)
      rintro ts hts rfl hle k hk
      rw [Catalog.loadSchema_of_mem hts] at hrow hgiven
      exact collisions_eq_nil hts hrow hle hpassed hgiven.insertTuple hk
    | erase t idxs rid row staged =>
      rintro ts hts k hk ⟨r, b⟩ hr ⟨r', b'⟩ hr'
      rw [TableManager.mem_tuples] at hr hr'
      exact hkeys ts hts k hk (r, b) (TableManager.mem_tuples.mpr (hok.tables.heap_of_eraseTuple hr))
        (r', b') (TableManager.mem_tuples.mpr (hok.tables.heap_of_eraseTuple hr'))
    | rewrite t idxs rid old new staged origin _ _ hnew hfound _ hpassed hgiven =>
      refine hkeys.write rfl hnew ?_ (hok.tables.wrote_updateTuple hfound.listed _)
      rintro ts hts rfl hle k hk
      rw [Catalog.loadSchema_of_mem hts] at hnew hgiven
      exact collisions_eq_nil hts hnew hle hpassed hgiven.updateTuple hk

end Db

/-- No row that a referential action of the statement writes collides with another one, and
each row that a row of the statement itself collides with is one that the check of the key
has read and found equal. -/
abbrev Statement.KeysMet (depth : Nat) (db : Db) (s : Statement) : Prop :=
  s.Meets Db.KeysGiven depth db

/-- A table t (a INT PRIMARY KEY). -/
def columnKeyDb : Db :=
  .init
    { tables := [{ numbers with
        columns := [{ name := "a", type := .Int, notNull := true, primaryKey := true
                      unique := true }] }]
      nodup := by simp }
    [{ name := "__uq_t_a", tableId := 1, columns := [0] }]

/-- A table t (a INT, PRIMARY KEY (a)). -/
def clauseKeyDb : Db :=
  .init
    { tables := [{ numbers with
        columns := [{ name := "a", type := .Int, notNull := true }], primaryKey := [0] }]
      nodup := by simp }
    []

end Relite.Vm
