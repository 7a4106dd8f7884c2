import Relite.Lib.Descent
import Relite.Vm.AutoIncrement

/-!
# Referential actions end

`applyReferentialActions` goes down to the rows that refer to a row before it removes
anything, and `applyUpdateReferentialActions` before it changes anything. Nothing marks a row
that is being worked on, so both end as long as no chain of rows, or of values that spread
from column to column, goes on without end; for keys that are all ON DELETE CASCADE a removal
ends only then.
-/
namespace Relite.Vm
open Lib Semantic

namespace Exec

variable {α β : Type}

/-- With room enough the program does not exhaust the stack. -/
def Terminates (x : Nat → Exec α) (db : Db) : Prop :=
  ∃ n, ∀ depth, n ≤ depth → ((x depth).run db).1 ≠ .error stackOverflow

/-- A row of a table goes along with one of its parent: it refers to it by a key that is
ON DELETE CASCADE. -/
def GoesWith (db : Db) (p c : TableSchema × Tuple) : Prop :=
  c.1 ∈ db.catalog.allTables ∧ c.2 ∈ liveRows db c.1.schema c.1.tableId ∧
    ∃ fk ∈ c.1.foreignKeys, fk.onDelete = .Cascade ∧
      ∃ v, referencedValue p.1 p.2 fk = some v ∧ hasValue fk.columnIndex v c.2 = true

/-- The values that rows of the table have in a column, or get there when it is given one of
`given`. -/
def heldValues (db : Db) (given : List Value) (ts : TableSchema) (column : Int) : List Value :=
  (liveRows db ts.schema ts.tableId).flatMap fun row =>
    (at? row column).toList ++
      (ts.schema[column.toNat]?).toList.flatMap fun d => given.map (Tuple.stored d)

/-- The new value `w` of a column spreads from there to one of a child that holds the old value,
by a key that is ON UPDATE CASCADE. -/
def Spreads (db : Db) (given : List Value) (w : Value) (p c : TableSchema × Int × Value) : Prop :=
  p.2.2.isNull = false ∧ compareValues p.2.2 w ≠ some .eq ∧ c.1 ∈ db.catalog.allTables ∧
    (∃ fk ∈ c.1.foreignKeys, fk.onUpdate = .Cascade ∧ fk.refTable = p.1.name ∧
      p.1.columnIndex fk.refColumn = p.2.1 ∧ fk.columnIndex = c.2.1) ∧
    c.2.2 ∈ heldValues db given c.1 c.2.1 ∧ compareValues c.2.2 p.2.2 = some .eq

/-- The new values of a row spread from one of its columns without end. -/
def SpreadsForever (db : Db) (parent : TableSchema) (old new : Tuple) : Prop :=
  ∃ column v, at? old column = some v ∧
    Endless (Spreads db (.null :: new) ((at? new column).getD .null)) (parent, column, v)

/-! ## Rows that referential actions have worked on -/

/-- A row as it is after some of its columns were given values of `given`. -/
def Reworked (given : List Value) (schema : Schema) (row row' : Tuple) : Prop :=
  row'.length = row.length ∧ ∀ (i : Nat) (v : Value), row'[i]? = some v →
    row[i]? = some v ∨ ∃ w ∈ given, ∃ d, schema[i]? = some d ∧ v = Tuple.stored d w

namespace Reworked

variable {given : List Value} {schema : Schema} {row row' : Tuple}

theorem refl (row : Tuple) : Reworked given schema row row := ⟨rfl, fun _ _ h => .inl h⟩

theorem column (h : Reworked given schema row row') {column : Int} {v : Value}
    (hv : at? row' column = some v) :
    at? row column = some v ∨
      ∃ w ∈ given, ∃ d, schema[column.toNat]? = some d ∧ v = Tuple.stored d w := by
  unfold at? at hv ⊢
  split at hv
  · rename_i hcolumn
    rw [if_pos hcolumn]
    exact h.2 _ v hv
  · cases hv

/-- A value that only nulls have taken the place of is the one that was there. -/
theorem column_of_nulls (h : Reworked [.null] schema row row') {column : Int} {v : Value}
    (hv : at? row' column = some v) (hnull : v.isNull = false) : at? row column = some v := by
  refine (h.column hv).resolve_right ?_
  rintro ⟨w, hw, d, -, rfl⟩
  rw [Tuple.isNull_stored, List.mem_singleton.mp hw] at hnull
  cases hnull

/-- A row that was read, once more with a new value in a column, as it is stored. -/
theorem set (h : Reworked given schema row row') (htyped : Tuple.Typed schema row') {w : Value}
    (hw : w ∈ given) (k : Nat) :
    Reworked given schema row (Tuple.storedRow schema (row'.set k w)) := by
  have hlen := htyped.length_eq
  have hset : (row'.set k w).length = schema.length := by rw [List.length_set, hlen]
  refine ⟨(Tuple.length_storedRow hset).trans (hlen.trans h.1), fun i v hv => ?_⟩
  have hi : i < schema.length := by
    have := (List.getElem?_eq_some_iff.mp hv).1
    rwa [Tuple.length_storedRow hset] at this
  have hd : schema[i]? = some schema[i] := List.getElem?_eq_getElem hi
  have hstored : v = Tuple.stored schema[i] ((row'.set k w).getD i .null) := by
    rw [← Tuple.getD_storedRow hset hd, List.getD_eq_getElem?_getD, hv, Option.getD_some]
  by_cases hki : k = i
  · subst hki
    refine .inr ⟨w, hw, _, hd, ?_⟩
    rw [hstored, List.getD_eq_getElem?_getD, List.getElem?_set_self (by omega), Option.getD_some]
  · have hrow : Tuple.storedRow schema row' = row' := Tuple.storedRow_of_typed htyped
    refine h.2 i v ?_
    rw [List.getD_eq_getElem?_getD, List.getElem?_set_ne hki, ← List.getD_eq_getElem?_getD,
      ← Tuple.getD_storedRow hlen.symm hd, hrow] at hstored
    rw [hstored, List.getD_eq_getElem?_getD, List.getElem?_eq_getElem (by omega), Option.getD_some]

end Reworked

theorem mem_liveRows_iff {db : Db} {schema : Schema} {t : TableId} {row : Tuple} :
    row ∈ liveRows db schema t ↔ ∃ rid b, db.tables.heap t rid = some b ∧
      Tuple.deserialize b schema = .ok row := by
  rw [mem_liveRows]
  constructor
  · rintro ⟨b, hb, hrow⟩
    obtain ⟨raw, hraw, rfl⟩ := List.mem_map.mp hb
    exact ⟨raw.1, raw.2, TableManager.mem_tuples.mp hraw, hrow⟩
  · rintro ⟨rid, b, hb, hrow⟩
    exact ⟨b, List.mem_map.mpr ⟨(rid, b), TableManager.mem_tuples.mpr hb, rfl⟩, hrow⟩

/-! ## The states in between -/

/-- Each row of the state is one of `db₀` with values of `given` in some columns. -/
structure Came (db₀ : Db) (given : List Value) (db : Db) : Prop where
  ok : db.Ok
  catalog : db.catalog = db₀.catalog
  rows : ∀ ts ∈ db₀.catalog.tables, ∀ row ∈ liveRows db ts.schema ts.tableId,
    ∃ row₀ ∈ liveRows db₀ ts.schema ts.tableId, Reworked given ts.schema row₀ row

abbrev Only (errors : String → Prop) (db : Db) (x : Exec α) (Q : α → Db → Prop) : Prop :=
  Prog.Only (fun (c : Call) db => c.apply db) errors db x Q

/-- A row that a loop over the rows of a child table has in hand. -/
abbrev InHand (child : TableSchema) (idxs : List Index) (row : RecordID × Tuple) (db : Db) : Prop :=
  ChildRow Db.okRules child idxs row db

theorem InHand.later {child : TableSchema} {idxs : List Index} {row : RecordID × Tuple}
    {db db' : Db} (h : InHand child idxs row db) (hext : Db.Extends db db') (hok : db'.Ok) :
    InHand child idxs row db' :=
  stable_childRow (G := fun _ _ => True) child idxs row db db' ⟨hok, trivial⟩
    ⟨hext, fun _ _ _ _ _ => trivial⟩ h

namespace Came

variable {db₀ db db' : Db} {given : List Value} {child : TableSchema} {idxs : List Index}
  {row : RecordID × Tuple} {errors : String → Prop}

theorem init (hok : db₀.Ok) : Came db₀ given db₀ where
  ok := hok
  catalog := rfl
  rows _ _ row hrow := ⟨row, hrow, .refl row⟩

theorem step (h : Came db₀ given db)
    (hstep : Db.RowStep Db.okRules.Given (Db.okRules.Seen db) db db')
    (hrows : ∀ ts ∈ db₀.catalog.tables, ∀ row ∈ liveRows db' ts.schema ts.tableId,
      row ∈ liveRows db ts.schema ts.tableId ∨
        ∃ row₀ ∈ liveRows db₀ ts.schema ts.tableId, Reworked given ts.schema row₀ row) :
    Came db₀ given db' ∧ Db.Extends db db' := by
  obtain ⟨hok, hext⟩ := hstep.ok h.ok
  refine ⟨⟨hok, hext.catalog.trans h.catalog, fun ts hts row hrow => ?_⟩, hext⟩
  exact (hrows ts hts row hrow).elim (h.rows ts hts row) id

theorem only_lock (h : Came db₀ given db) (rid : RecordID) (exclusive : Bool) :
    Only errors db (lockInTxn rid exclusive) fun _ db' =>
      Came db₀ given db' ∧ Db.Extends db db' :=
  .of_run (run_lockInTxn h.ok.only rid exclusive)
    (fun _ _ => h.step (.lock rid _) fun _ _ _ hrow => .inl hrow) fun _ he => by cases he

theorem only_eraseRow (h : Came db₀ given db) (hrow : InHand child idxs row db) (staged : Bool) :
    Only errors db (eraseRow child.tableId idxs row.1 row.2 (row.2.serialize child.schema) staged)
      fun _ db' => Came db₀ given db' ∧ Db.Extends db db' := by
  refine .of_run (run_eraseRow db _ idxs row.1 row.2 _ staged) (fun _ _ => ?_) fun _ he => by cases he
  rw [← hrow.schema]
  refine h.step (.erase child.tableId idxs row.1 row.2 staged hrow.2.1 hrow.2.2.1 hrow.2.2.2.1 trivial
    fun _ _ => trivial) fun ts _ r hr => .inl ?_
  obtain ⟨rid, b, hb, hread⟩ := mem_liveRows_iff.mp hr
  exact mem_liveRows_iff.mpr ⟨rid, b, h.ok.tables.heap_of_eraseTuple hb, hread⟩

/-- A row in hand gets a value of `given` in a column. -/
theorem only_rewriteRow (h : Came db₀ given db) (hrow : InHand child idxs row db)
    (hfrom : ∃ row₀ ∈ liveRows db₀ child.schema child.tableId,
      Reworked given child.schema row₀ row.2)
    (htyped : Tuple.Typed child.schema row.2) {w : Value} (hw : w ∈ given) (k : Nat)
    (staged : Bool) :
    Only errors db
      (rewriteRow child.tableId idxs row.1 row.2 (row.2.set k w) child.schema staged)
      fun _ db' => Came db₀ given db' ∧ Db.Extends db db' := by
  have hlen : (row.2.set k w).length = child.schema.length := by
    rw [List.length_set, htyped.length_eq]
  have hschema := hrow.schema
  refine .of_run (run_rewriteRow h.ok.only _ idxs row.1 row.2 _ _ staged) (fun _ _ => ?_)
    fun _ he => by cases he
  rw [← hschema] at hlen ⊢
  refine h.step (.rewrite child.tableId idxs row.1 row.2 _ staged .unchecked hrow.2.1 hrow.2.2.1 hlen
    hrow.2.2.2.1 trivial trivial fun _ _ => trivial) fun ts hts r hr => ?_
  obtain ⟨rid, b, hb, hread⟩ := mem_liveRows_iff.mp hr
  obtain ⟨nr, hwrote⟩ := h.ok.tables.wrote_updateTuple hrow.2.2.2.1.listed
    (Tuple.serialize (row.2.set k w) (db.catalog.loadSchema child.tableId))
  rcases hwrote ts.tableId rid b hb with ⟨hold, -⟩ | ⟨ht, -, rfl, hle⟩
  · exact .inl (mem_liveRows_iff.mpr ⟨rid, b, hold, hread⟩)
  · have hsame : ts.schema = child.schema := by
      rw [← Catalog.loadSchema_of_mem hts, ht, ← h.catalog, hschema]
    rw [hschema] at hread hle hlen
    rw [hsame, Tuple.deserialize_serialize_eq hlen (by omega)] at hread
    cases hread
    obtain ⟨row₀, hrow₀, hre⟩ := hfrom
    exact .inr ⟨row₀, by rwa [hsame, ht], hsame ▸ hre.set htyped hw k⟩

end Came

/-! ## The loops -/

theorem matchingRows_eq_ok {schema : Schema} {p : RecordID → Tuple → Bool} :
    ∀ {rows : List (RecordID × Bytes)},
      (∀ row ∈ rows, ∃ t, Tuple.deserialize row.2 schema = .ok t) →
      ∃ found, matchingRows schema p rows = .ok found ∧ ∀ rid t, (rid, t) ∈ found ↔
        (∃ b, (rid, b) ∈ rows ∧ Tuple.deserialize b schema = .ok t) ∧ p rid t = true := by
  intro rows
  induction rows with
  | nil => exact fun _ => ⟨[], rfl, by simp⟩
  | cons row rows ih =>
    intro hread
    obtain ⟨t₀, ht₀⟩ := hread row List.mem_cons_self
    obtain ⟨found, hfound, hiff⟩ := ih fun r hr => hread r (List.mem_cons_of_mem row hr)
    refine ⟨if p row.1 t₀ then (row.1, t₀) :: found else found, ?_, fun rid t => ?_⟩
    · simp [matchingRows, deserializeRow, ht₀, hfound, bind, Except.bind, pure, Except.pure]
    · have hcons : (rid, t) ∈ (if p row.1 t₀ then (row.1, t₀) :: found else found) ↔
          (rid = row.1 ∧ t = t₀) ∧ p row.1 t₀ = true ∨ (rid, t) ∈ found := by
        split <;> simp [*]
      have hrow : (∃ b, (rid, b) = row ∧ Tuple.deserialize b schema = .ok t) ↔
          rid = row.1 ∧ t = t₀ := by
        obtain ⟨r, b⟩ := row
        constructor
        · rintro ⟨b', hb', ht⟩
          cases hb'
          rw [ht₀] at ht
          exact ⟨rfl, (Except.ok.inj ht).symm⟩
        · rintro ⟨rfl, rfl⟩
          exact ⟨b, rfl, ht₀⟩
      simp only [hcons, hiff, List.mem_cons, or_and_right, exists_or, hrow]
      refine or_congr_left (and_congr_right ?_)
      rintro ⟨rfl, rfl⟩
      rfl

theorem run_referencingRows {db : Db} (hok : db.Ok) {child : TableSchema}
    (hchild : child ∈ db.catalog.tables) (fk : ForeignKey) (value : Value) :
    ∃ found, (referencingRows child fk value).run db = (.ok found, db) ∧
      ∀ rid t, (rid, t) ∈ found ↔ (∃ b, db.tables.heap child.tableId rid = some b ∧
        Tuple.deserialize b child.schema = .ok t) ∧ hasValue fk.columnIndex value t = true := by
  have hread : ∀ row ∈ db.tables.tuples child.tableId,
      ∃ t, Tuple.deserialize row.2 child.schema = .ok t := by
    intro row hrow
    obtain ⟨t, ht, -⟩ := hok.canonical _ _ _ (TableManager.mem_tuples.mp hrow)
    exact ⟨t, by rwa [Catalog.loadSchema_of_mem hchild] at ht⟩
  obtain ⟨found, hfound, hiff⟩ :=
    matchingRows_eq_ok (p := fun _ t => hasValue fk.columnIndex value t) hread
  refine ⟨found, ?_, fun rid t => by rw [hiff]; simp only [TableManager.mem_tuples]⟩
  simp [referencingRows, scanRows, hfound, ofExcept]

/-- The rows that the loop over a child gets, for a parent that holds `value`. -/
structure Referencing (db : Db) (child : TableSchema) (fk : ForeignKey) (value : Value)
    (idxs : List Index) (found : List (RecordID × Tuple)) : Prop where
  inHand : ∀ row ∈ found, InHand child idxs row db
  mem : ∀ rid t, (rid, t) ∈ found ↔ (∃ b, db.tables.heap child.tableId rid = some b ∧
    Tuple.deserialize b child.schema = .ok t) ∧ hasValue fk.columnIndex value t = true

namespace Referencing

variable {db : Db} {child : TableSchema} {fk : ForeignKey} {value : Value} {idxs : List Index}
  {found : List (RecordID × Tuple)} {row : RecordID × Tuple}

theorem live (h : Referencing db child fk value idxs found) (hrow : row ∈ found) :
    row.2 ∈ liveRows db child.schema child.tableId := by
  obtain ⟨⟨b, hb, hread⟩, -⟩ := (h.mem row.1 row.2).mp hrow
  exact mem_liveRows_iff.mpr ⟨row.1, b, hb, hread⟩

theorem hasValue (h : Referencing db child fk value idxs found) (hrow : row ∈ found) :
    Exec.hasValue fk.columnIndex value row.2 = true := ((h.mem row.1 row.2).mp hrow).2

theorem typed (h : Referencing db child fk value idxs found) (hrow : row ∈ found) :
    Tuple.Typed child.schema row.2 := by
  obtain ⟨⟨b, -, hread⟩, -⟩ := (h.mem row.1 row.2).mp hrow
  exact Tuple.typed_of_deserialize hread

end Referencing

theorem only_onReferencing {db : Db} {errors : String → Prop} {Q : Db → Prop} (hok : db.Ok)
    {child : TableSchema} (hchild : child ∈ db.catalog.tables) {fk : ForeignKey} {value : Value}
    {act : List Index → List (RecordID × Tuple) → Exec Unit}
    (hnone : ∀ idxs, Referencing db child fk value idxs [] → Q db)
    (hact : ∀ idxs found, Referencing db child fk value idxs found → found ≠ [] →
      Only errors db (act idxs found) fun _ => Q) :
    Only errors db (onReferencing child fk value act) fun _ => Q := by
  refine .get_bind ?_
  obtain ⟨found, hrun, hiff⟩ := run_referencingRows hok hchild fk value
  refine .bind (Q := fun a s => found = a ∧ db = s)
    (.of_run hrun (fun _ ha => ⟨Except.ok.inj ha, rfl⟩) fun _ he => by cases he) ?_
  rintro _ _ ⟨rfl, rfl⟩
  have hfound : Referencing db child fk value (db.indexes.forTable child.tableId) found := by
    refine ⟨fun row hrow => ⟨hchild, indexesOf_forTable _ _, ?_⟩, hiff⟩
    obtain ⟨⟨b, hb, hread⟩, -⟩ := (hiff row.1 row.2).mp hrow
    have hraw : Db.okRules.Raw child.tableId (row.1, b) db :=
      RowRules.raw_of_heap (G := fun _ _ => True) ⟨hok, trivial⟩ hb
    refine hraw.read ?_
    simp [deserializeRow, Catalog.loadSchema_of_mem hchild, hread, bind, Except.bind, pure, Except.pure]
  split
  · rename_i hempty
    rw [List.isEmpty_iff.mp hempty] at hfound
    exact .ret (hnone _ hfound)
  · rename_i hne
    exact hact _ _ hfound (by simpa using hne)

theorem only_forChildren_all {db : Db} {errors : String → Prop} {I : Db → Prop}
    {D : TableSchema → ForeignKey → Prop} {f : TableSchema → ForeignKey → Exec Unit} (hdb : I db)
    (hf : ∀ child ∈ db.catalog.tables, ∀ fk ∈ child.foreignKeys, ∀ s, I s →
      Only errors s (f child fk) fun _ s' => I s' ∧ D child fk) :
    Only errors db (Prog.bind Exec.get fun db => db.catalog.allTables.forM fun child =>
      child.foreignKeys.forM (f child)) fun _ s' =>
        I s' ∧ ∀ child ∈ db.catalog.tables, ∀ fk ∈ child.foreignKeys, D child fk :=
  .get_bind (.forM_all (fun child hchild _ hs => .forM_all (hf child hchild) hs) hdb)

theorem only_forChildren {db : Db} {errors : String → Prop} {I : Db → Prop}
    {f : TableSchema → ForeignKey → Exec Unit} (hdb : I db)
    (hf : ∀ child ∈ db.catalog.tables, ∀ fk ∈ child.foreignKeys, ∀ s, I s →
      Only errors s (f child fk) fun _ => I) :
    Only errors db (Prog.bind Exec.get fun db => db.catalog.allTables.forM fun child =>
      child.foreignKeys.forM (f child)) fun _ => I :=
  .get_bind (.forM (fun child hchild _ hs => .forM (hf child hchild) hs) hdb)

/-! ## Removals end -/

theorem append_ne {s t u : String} {c d : Char} (hs : s.toList.head? = some c)
    (hu : u.toList.head? = some d) (hne : c ≠ d) : s ++ t ≠ u := by
  intro h
  have hhead := congrArg (fun s => s.toList.head?) h
  simp only [String.toList_append, List.head?_append, hs, hu, Option.some_or] at hhead
  exact hne (Option.some.inj hhead)

theorem restricted_ne (child : TableSchema) : restricted child ≠ stackOverflow := fun h =>
  append_ne (c := 'f') (d := 's') (by decide +kernel) (by decide +kernel) (by decide)
    ((String.append_assoc ..).symm.trans h)

theorem referencedValue_eq_some {parent : TableSchema} {row : Tuple} {fk : ForeignKey} {v : Value} :
    referencedValue parent row fk = some v ↔ fk.refTable = parent.name ∧
      at? row (parent.columnIndex fk.refColumn) = some v ∧ v.isNull = false := by
  unfold referencedValue
  split
  · rename_i hne
    simp [hne]
  · rename_i heq
    simp [not_not.mp heq, Option.filter_eq_some_iff]

theorem hasValue_iff {column : Int} {value : Value} {row : Tuple} :
    hasValue column value row = true ↔
      ∃ v, at? row column = some v ∧ compareValues v value = some .eq := by
  simp [hasValue, Option.any_eq_true]

theorem isNull_of_compareValues {v w : Value} {o : Ordering} (h : compareValues v w = some o) :
    v.isNull = false := by
  cases v with
  | null => simp [compareValues, Value.isNull] at h
  | int | bool | text | double => rfl

theorem Reworked.hasValue {schema : Schema} {row row' : Tuple}
    (h : Reworked [.null] schema row row') {column : Int} {value : Value}
    (hv : Exec.hasValue column value row' = true) : Exec.hasValue column value row = true := by
  obtain ⟨v, hat, hcmp⟩ := hasValue_iff.mp hv
  exact hasValue_iff.mpr ⟨v, h.column_of_nulls hat (isNull_of_compareValues hcmp), hcmp⟩

theorem Reworked.referencedValue {schema : Schema} {row row' : Tuple}
    (h : Reworked [.null] schema row row') {parent : TableSchema} {fk : ForeignKey} {v : Value}
    (hv : Exec.referencedValue parent row' fk = some v) :
    Exec.referencedValue parent row fk = some v := by
  obtain ⟨hname, hat, hnull⟩ := referencedValue_eq_some.mp hv
  exact referencedValue_eq_some.mpr ⟨hname, h.column_of_nulls hat hnull, hnull⟩

/-- At the depth, and from every state that comes from `db₀`, the removal of what goes along
with the row ends. -/
def RemovalEnds (db₀ : Db) (depth : Nat) (p : TableSchema × Tuple) : Prop :=
  ∀ row db, Came db₀ [.null] db → Reworked [.null] p.1.schema p.2 row →
    Only (· ≠ stackOverflow) db (applyReferentialActions depth p.1 row) fun _ db' =>
      Came db₀ [.null] db' ∧ Db.Extends db db'

theorem removalEnds_succ {db₀ : Db} {depth : Nat} {p : TableSchema × Tuple}
    (hbelow : ∀ c, GoesWith db₀ p c → RemovalEnds db₀ depth c) :
    RemovalEnds db₀ (depth + 1) p := by
  intro row db hcame hrow
  refine only_forChildren (I := fun s => Came db₀ [.null] s ∧ Db.Extends db s)
    ⟨hcame, .refl db⟩ fun child hchild fk hfk s₁ ⟨hcame₁, hext₁⟩ => ?_
  split
  · exact .ret ⟨hcame₁, hext₁⟩
  rename_i value hvalue
  rw [hcame.catalog] at hchild
  refine only_onReferencing hcame₁.ok (hcame₁.catalog ▸ hchild) (fun _ _ => ⟨hcame₁, hext₁⟩)
    fun idxs found hfound _ => ?_
  have hfrom : ∀ r ∈ found, ∃ row₀ ∈ liveRows db₀ child.schema child.tableId,
      Reworked [.null] child.schema row₀ r.2 := fun r hr =>
    hcame₁.rows child hchild r.2 (hfound.live hr)
  split
  · exact .throw (restricted_ne child)
  · rename_i hcascade
    refine (Prog.Only.forM (I := fun s => Came db₀ [.null] s ∧ Db.Extends s₁ s)
      (fun r hr s₂ ⟨hcame₂, hext₂⟩ => ?_) ⟨hcame₁, .refl s₁⟩).mono (fun _ h => h)
      fun _ _ h => ⟨h.1, hext₁.trans h.2⟩
    obtain ⟨row₀, hrow₀, hre⟩ := hfrom r hr
    have hgoes : GoesWith db₀ p (child, row₀) :=
      ⟨hchild, hrow₀, fk, hfk, hcascade, value, hrow.referencedValue hvalue,
        hre.hasValue (hfound.hasValue hr)⟩
    refine (hbelow _ hgoes r.2 s₂ hcame₂ hre).bind fun _ s₃ ⟨hcame₃, hext₃⟩ => ?_
    refine (hcame₃.only_lock r.1 true).bind fun _ s₄ ⟨hcame₄, hext₄⟩ => ?_
    have hext := (hext₂.trans hext₃).trans hext₄
    exact (hcame₄.only_eraseRow ((hfound.inHand r hr).later hext hcame₄.ok) false).mono (fun _ h => h)
      fun _ _ h => ⟨h.1, hext.trans h.2⟩
  · refine (Prog.Only.forM (I := fun s => Came db₀ [.null] s ∧ Db.Extends s₁ s)
      (fun r hr s₂ ⟨hcame₂, hext₂⟩ => ?_) ⟨hcame₁, .refl s₁⟩).mono (fun _ h => h)
      fun _ _ h => ⟨h.1, hext₁.trans h.2⟩
    refine (hcame₂.only_lock r.1 true).bind fun _ s₃ ⟨hcame₃, hext₃⟩ => ?_
    have hext := hext₂.trans hext₃
    exact (hcame₃.only_rewriteRow ((hfound.inHand r hr).later hext hcame₃.ok) (hfrom r hr)
      (hfound.typed hr) (List.mem_singleton_self _) _ false).mono (fun _ h => h)
      fun _ _ h => ⟨h.1, hext.trans h.2⟩

/-- A removal ends if no endless chain of rows goes along with the row. -/
theorem terminates_of_not_endless {db : Db} (hok : db.Ok) {parent : TableSchema} {row : Tuple}
    (h : ¬Endless (GoesWith db) (parent, row)) :
    Terminates (fun depth => applyReferentialActions depth parent row) db := by
  have hnext : ∀ p c, GoesWith db p c → c ∈ db.catalog.allTables.flatMap fun ts =>
      (liveRows db ts.schema ts.tableId).map (ts, ·) := by
    rintro p ⟨ts, r⟩ ⟨hts, hr, -⟩
    exact List.mem_flatMap.mpr ⟨ts, hts, List.mem_map_of_mem hr⟩
  obtain ⟨n, hn⟩ := exists_depth (P := RemovalEnds db) (fun _ => _) hnext
    (fun _ _ hbelow => removalEnds_succ hbelow) h
  exact ⟨n, fun depth hd herror => (hn depth hd row db (.init hok) (.refl row)).of_error herror rfl⟩

/-! ## Removals that do not end -/

/-- All that refers to a row by a key goes along with it. -/
def OnlyCascades (catalog : Catalog) : Prop :=
  ∀ ts ∈ catalog.tables, ∀ fk ∈ ts.foreignKeys, fk.onDelete = .Cascade

/-- Rows have only gone, and none of them is on an endless chain. -/
structure Keeps (db db' : Db) : Prop where
  ok : db'.Ok
  extends' : Db.Extends db db'
  shrinks : ∀ t rid b, db'.tables.heap t rid = some b → db.tables.heap t rid = some b
  endless : ∀ ts ∈ db.catalog.tables, ∀ rid b row, db.tables.heap ts.tableId rid = some b →
    Tuple.deserialize b ts.schema = .ok row → Endless (GoesWith db) (ts, row) →
    db'.tables.heap ts.tableId rid = some b

namespace Keeps

variable {db db' db'' : Db} {p : TableSchema × Tuple}

theorem refl (hok : db.Ok) : Keeps db db where
  ok := hok
  extends' := .refl db
  shrinks _ _ _ h := h
  endless _ _ _ _ _ h _ _ := h

/-- A chain is endless after as before. -/
theorem endless_later (h : Keeps db db') (hend : Endless (GoesWith db) p) :
    Endless (GoesWith db') p := by
  refine Endless.of_next (P := Endless (GoesWith db)) (fun p hp => ?_) hend
  obtain ⟨c, ⟨hts, hlive, hfk⟩, hc⟩ := hp.next
  obtain ⟨rid, b, hb, hread⟩ := mem_liveRows_iff.mp hlive
  refine ⟨c, ⟨?_, ?_, hfk⟩, hc⟩
  · rwa [h.extends'.catalog]
  · exact mem_liveRows_iff.mpr ⟨rid, b, h.endless c.1 hts rid b c.2 hb hread hc, hread⟩

theorem trans (h : Keeps db db') (h' : Keeps db' db'') : Keeps db db'' where
  ok := h'.ok
  extends' := h.extends'.trans h'.extends'
  shrinks t rid b hb := h.shrinks t rid b (h'.shrinks t rid b hb)
  endless ts hts rid b row hb hread hend :=
    h'.endless ts (h.extends'.catalog ▸ hts) rid b row (h.endless ts hts rid b row hb hread hend)
      hread (h.endless_later hend)

theorem only_lock {errors : String → Prop} (hok : db.Ok) (rid : RecordID) (exclusive : Bool) :
    Only errors db (lockInTxn rid exclusive) fun _ => Keeps db :=
  .of_run (run_lockInTxn hok.only rid exclusive)
    (fun _ _ => ⟨hok.lock rid _, ⟨.refl _, rfl, rfl, rfl, rfl⟩, fun _ _ _ h => h,
      fun _ _ _ _ _ h _ _ => h⟩) fun _ he => by cases he

/-- A row of a child that is on no endless chain goes, after others. -/
theorem only_eraseRow {errors : String → Prop} {child : TableSchema} {fk : ForeignKey}
    {value : Value} {idxs : List Index} {found : List (RecordID × Tuple)}
    (hfound : Referencing db child fk value idxs found) (h : Keeps db db')
    {row : RecordID × Tuple} (hrow : row ∈ found)
    (hend : ¬Endless (GoesWith db) (child, row.2)) :
    Only errors db' (eraseRow child.tableId idxs row.1 row.2 (row.2.serialize child.schema) false)
      fun _ db'' => Keeps db db'' := by
  have hin := (hfound.inHand row hrow).later h.extends' h.ok
  refine .of_run (run_eraseRow db' _ idxs row.1 row.2 _ false) (fun _ _ => ?_) fun _ he => by cases he
  have hwritable : Writable db'.catalog child.tableId (row.2.serialize child.schema) := by
    rw [← hin.schema]
    exact writable_serialize hin.2.2.1
  obtain ⟨hok, hext⟩ := h.ok.eraseRow row.1 false (hin.2.1.keysOf row.2 row.2) hwritable
  refine ⟨hok, h.extends'.trans hext, fun t rid b hb => ?_, fun ts hts rid b r hb hread hr => ?_⟩
  · exact h.shrinks t rid b (h.ok.tables.heap_of_eraseTuple hb)
  · have hb' := h.endless ts hts rid b r hb hread hr
    change (db'.tables.eraseTuple row.1).1.heap ts.tableId rid = some b
    rw [(h.ok.tables.eraseTuple row.1).2.2.2, if_neg, hb']
    -- The row at this record id would be the one that goes.
    rintro rfl
    have hchild : child ∈ db.catalog.tables := (hfound.inHand row hrow).1
    have ht : ts.tableId = child.tableId := by
      by_contra hne
      exact h.ok.tables.disjoint _ _ hne _ (TableManager.heap_eq_some_iff.mp hb').1
        hin.2.2.2.1.listed
    obtain rfl : ts = child := List.inj_on_of_nodup_map db.catalog.nodup hts hchild ht
    obtain ⟨⟨b₁, hb₁, hread₁⟩, -⟩ := (hfound.mem row.1 row.2).mp hrow
    obtain rfl : b = b₁ := Option.some.inj (hb.symm.trans hb₁)
    rw [hread] at hread₁
    exact hend (Except.ok.inj hread₁ ▸ hr)

end Keeps

/-- Where all keys cascade a removal can only exhaust the stack, and it does where the chain
of rows that go along is endless. -/
theorem only_applyReferentialActions (depth : Nat) :
    ∀ (p : TableSchema × Tuple) {db : Db}, db.Ok → OnlyCascades db.catalog →
      Only (· = stackOverflow) db (applyReferentialActions depth p.1 p.2) fun _ db' =>
        Keeps db db' ∧ ¬Endless (GoesWith db) p := by
  induction depth with
  | zero => exact fun _ db _ _ => .throw rfl
  | succ depth ih =>
    intro p db hok hcascades
    refine (only_forChildren_all (I := Keeps db) (D := fun child fk => ∀ v row,
      referencedValue p.1 p.2 fk = some v → row ∈ liveRows db child.schema child.tableId →
      hasValue fk.columnIndex v row = true → ¬Endless (GoesWith db) (child, row)) (.refl hok)
      fun child hchild fk hfk s₁ hkeeps₁ => ?_).mono (fun _ h => h) fun _ _ h => ⟨h.1, fun hend => ?_⟩
    · -- The rows of one child, by one key.
      split
      · rename_i hnone
        exact .ret ⟨hkeeps₁, fun v _ hv => by rw [hnone] at hv; cases hv⟩
      rename_i value hvalue
      have hchild₁ : child ∈ s₁.catalog.tables := hkeeps₁.extends'.catalog ▸ hchild
      have hdone : ∀ idxs found, Referencing s₁ child fk value idxs found →
          (∀ r ∈ found, ¬Endless (GoesWith s₁) (child, r.2)) → ∀ v row,
          referencedValue p.1 p.2 fk = some v → row ∈ liveRows db child.schema child.tableId →
          hasValue fk.columnIndex v row = true → ¬Endless (GoesWith db) (child, row) := by
        intro idxs found hfound hall v row hv hrow hhas hend
        obtain rfl : value = v := Option.some.inj (hvalue.symm.trans hv)
        obtain ⟨rid, b, hb, hread⟩ := mem_liveRows_iff.mp hrow
        have hb₁ := hkeeps₁.endless child hchild rid b row hb hread hend
        exact hall (rid, row) ((hfound.mem rid row).mpr ⟨⟨b, hb₁, hread⟩, hhas⟩)
          (hkeeps₁.endless_later hend)
      refine only_onReferencing hkeeps₁.ok hchild₁
        (fun idxs hfound => ⟨hkeeps₁, hdone idxs [] hfound (by simp)⟩) fun idxs found hfound _ => ?_
      rw [hcascades child hchild fk hfk]
      refine (Prog.Only.forM_all (I := Keeps s₁)
        (D := fun r => ¬Endless (GoesWith s₁) (child, r.2)) (fun r hr s₂ hkeeps₂ => ?_)
        (.refl hkeeps₁.ok)).mono (fun _ h => h)
        fun _ _ h => ⟨hkeeps₁.trans h.1, hdone idxs found hfound h.2⟩
      have hcascades₂ : OnlyCascades s₂.catalog := by
        rwa [hkeeps₂.extends'.catalog, hkeeps₁.extends'.catalog]
      refine (ih (child, r.2) hkeeps₂.ok hcascades₂).bind fun _ s₃ ⟨hkeeps₃, hend₃⟩ => ?_
      have hend : ¬Endless (GoesWith s₁) (child, r.2) := fun h => hend₃ (hkeeps₂.endless_later h)
      refine (Keeps.only_lock hkeeps₃.ok r.1 true).bind fun _ s₄ hkeeps₄ => ?_
      exact (((hkeeps₂.trans hkeeps₃).trans hkeeps₄).only_eraseRow hfound hr hend).mono
        (fun _ h => h) fun _ _ h => ⟨h, hend⟩
    · obtain ⟨c, ⟨hts, hlive, fk, hfk, -, v, hv, hhas⟩, hc⟩ := hend.next
      exact h.2 c.1 hts fk hfk v c.2 hv hlive hhas hc

theorem not_terminates_of_endless {db : Db} (hok : db.Ok) (hcascades : OnlyCascades db.catalog)
    {parent : TableSchema} {row : Tuple} (h : Endless (GoesWith db) (parent, row)) :
    ¬Terminates (fun depth => applyReferentialActions depth parent row) db := by
  rintro ⟨n, hn⟩
  have honly := only_applyReferentialActions n (parent, row) hok hcascades
  cases hrun : ((applyReferentialActions n parent row).run db).1 with
  | error e => exact hn n le_rfl (honly.of_error hrun ▸ hrun)
  | ok a => exact (honly.of_ok (Prod.ext hrun rfl)).2 h

/-! ## Changes of keys end -/

theorem compareValues_self {v : Value} (h : v.isNull = false) : compareValues v v = some .eq := by
  cases v with
  | null => cases h
  | int n => simp [compareValues, Value.isNull, Value.isNumeric]
  | bool b => simp [compareValues, Value.isNull, Value.isNumeric]
  | text s => simp [compareValues, Value.isNull, Value.isNumeric, List.lt_irrefl]
  | double bits =>
    have hlt : ¬(Value.double bits).asDouble < (Value.double bits).asDouble :=
      fun h => float_lt_asymm h h
    simp [compareValues, Value.isNull, Value.isNumeric, hlt]

theorem getD_at?_mem (new : Tuple) (column : Int) :
    (at? new column).getD .null ∈ Value.null :: new := by
  cases hnew : at? new column with
  | none => exact List.mem_cons_self
  | some w =>
    unfold at? at hnew
    split at hnew
    · exact List.mem_cons_of_mem _ (List.mem_of_getElem? hnew)
    · cases hnew

theorem at?_set {row : Tuple} {column : Int} {v : Value} (h : at? row column = some v) (w : Value) :
    at? (row.set column.toNat w) column = some w := by
  unfold at? at h ⊢
  split at h
  · rename_i hcolumn
    rw [if_pos hcolumn, List.getElem?_set_self (List.getElem?_eq_some_iff.mp h).1]
  · cases h

theorem at?_set_ne {row : Tuple} {column column' : Int} {v v' : Value}
    (h : at? row column = some v) (h' : at? row column' = some v') (hne : column' ≠ column)
    (w : Value) : at? (row.set column.toNat w) column' = some v' := by
  unfold at? at h h' ⊢
  split at h
  · split at h'
    · rename_i hcolumn hcolumn'
      rw [if_pos hcolumn', List.getElem?_set_ne (by omega), h']
    · cases h'
  · cases h

variable {db₀ : Db} {given : List Value}

/-- At the depth, and from every state that comes from `db₀`, each change of a child to which
`w` spreads from `p` ends. -/
def SpreadEnds (db₀ : Db) (given : List Value) (w : Value) (depth : Nat)
    (p : TableSchema × Int × Value) : Prop :=
  ∀ c, Spreads db₀ given w p c → ∀ row db, Came db₀ given db → at? row c.2.1 = some c.2.2 →
    Only (· ≠ stackOverflow) db
      (applyUpdateReferentialActions depth c.1 row (row.set c.2.1.toNat w))
      fun _ db' => Came db₀ given db' ∧ Db.Extends db db'

/-- The change of a row ends one level above the changes that its columns lead to. -/
theorem only_applyUpdateReferentialActions {depth : Nat} {parent : TableSchema} {old new : Tuple}
    (hnull : .null ∈ given)
    (hgiven : ∀ column v, at? old column = some v → v.isNull = false →
      compareValues v ((at? new column).getD .null) ≠ some .eq → (at? new column).getD .null ∈ given)
    (hbelow : ∀ column v, at? old column = some v →
      SpreadEnds db₀ given ((at? new column).getD .null) depth (parent, column, v))
    {db : Db} (hcame : Came db₀ given db) :
    Only (· ≠ stackOverflow) db (applyUpdateReferentialActions (depth + 1) parent old new)
      fun _ db' => Came db₀ given db' ∧ Db.Extends db db' := by
  refine only_forChildren (I := fun s => Came db₀ given s ∧ Db.Extends db s)
    ⟨hcame, .refl db⟩ fun child hchild fk hfk s₁ ⟨hcame₁, hext₁⟩ => ?_
  split
  · exact .ret ⟨hcame₁, hext₁⟩
  rename_i value hvalue
  obtain ⟨hname, hat, hvalueNull⟩ := referencedValue_eq_some.mp hvalue
  have hspread := hbelow _ _ hat
  have hgiven := hgiven _ _ hat hvalueNull
  simp only
  generalize (at? new (parent.columnIndex fk.refColumn)).getD .null = w at hspread hgiven ⊢
  split
  · exact .ret ⟨hcame₁, hext₁⟩
  rename_i hsame
  have hw := hgiven hsame
  rw [hcame.catalog] at hchild
  refine only_onReferencing hcame₁.ok (hcame₁.catalog ▸ hchild) (fun _ _ => ⟨hcame₁, hext₁⟩)
    fun idxs found hfound _ => ?_
  split
  · exact .throw (restricted_ne child)
  refine (Prog.Only.forM (I := fun s => Came db₀ given s ∧ Db.Extends s₁ s)
    (fun r hr s₂ ⟨hcame₂, hext₂⟩ => ?_) ⟨hcame₁, .refl s₁⟩).mono (fun _ h => h)
    fun _ _ h => ⟨h.1, hext₁.trans h.2⟩
  obtain ⟨row₀, hrow₀, hre⟩ := hcame₁.rows child hchild r.2 (hfound.live hr)
  have hrest : ∀ value ∈ given, ∀ s₃, Came db₀ given s₃ → Db.Extends s₁ s₃ →
      Only (· ≠ stackOverflow) s₃ (Prog.bind (lockInTxn r.1 true) fun _ =>
        rewriteRow child.tableId idxs r.1 r.2 (r.2.set fk.columnIndex.toNat value) child.schema true)
        fun _ s => Came db₀ given s ∧ Db.Extends s₁ s := by
    intro value hvalue s₃ hcame₃ hext₃
    refine (hcame₃.only_lock r.1 true).bind fun _ s₄ ⟨hcame₄, hext₄⟩ => ?_
    have hext := hext₃.trans hext₄
    exact (hcame₄.only_rewriteRow ((hfound.inHand r hr).later hext hcame₄.ok) ⟨row₀, hrow₀, hre⟩
      (hfound.typed hr) hvalue _ true).mono (fun _ h => h) fun _ _ h => ⟨h.1, hext.trans h.2⟩
  split
  · rename_i hcascade
    obtain ⟨v, hv, hcmp⟩ := hasValue_iff.mp (hfound.hasValue hr)
    have hheld : v ∈ heldValues db₀ given child fk.columnIndex := by
      refine List.mem_flatMap.mpr ⟨row₀, hrow₀, List.mem_append.mpr ?_⟩
      refine (hre.column hv).imp (fun h => by simp [h]) ?_
      rintro ⟨w', hw', d, hd, rfl⟩
      exact List.mem_flatMap.mpr ⟨d, by simp [hd], List.mem_map_of_mem hw'⟩
    have hc : Spreads db₀ given w (parent, parent.columnIndex fk.refColumn, value)
        (child, fk.columnIndex, v) :=
      ⟨hvalueNull, hsame, hchild, ⟨fk, hfk, hcascade, hname, rfl, rfl⟩, hheld, hcmp⟩
    refine (hspread _ hc r.2 s₂ hcame₂ hv).bind fun _ s₃ ⟨hcame₃, hext₃⟩ => ?_
    exact hrest w hw s₃ hcame₃ (hext₂.trans hext₃)
  · exact hrest .null hnull s₂ hcame₂ hext₂

theorem spreadEnds_succ {w : Value} {depth : Nat} {p : TableSchema × Int × Value}
    (hnull : .null ∈ given) (hw : w ∈ given)
    (hbelow : ∀ c, Spreads db₀ given w p c → SpreadEnds db₀ given w depth c) :
    SpreadEnds db₀ given w (depth + 1) p := by
  intro c hc row db hcame hat
  -- A column other than the one that is given `w` keeps its value, so nothing spreads from it.
  have hother : ∀ column v, at? row column = some v → column ≠ c.2.1 →
      (at? (row.set c.2.1.toNat w) column).getD .null = v := by
    intro column v hv hne
    rw [at?_set_ne hat hv hne, Option.getD_some]
  have hself : (at? (row.set c.2.1.toNat w) c.2.1).getD .null = w := by
    rw [at?_set hat, Option.getD_some]
  refine only_applyUpdateReferentialActions hnull (fun column v hv hvnull hcmp => ?_)
    (fun column v hv => ?_) hcame
  · by_cases hcolumn : column = c.2.1
    · rwa [hcolumn, hself]
    · rw [hother column v hv hcolumn] at hcmp
      exact absurd (compareValues_self hvnull) hcmp
  · by_cases hcolumn : column = c.2.1
    · subst hcolumn
      obtain rfl : v = c.2.2 := Option.some.inj (hv.symm.trans hat)
      rw [hself]
      exact hbelow c hc
    · rw [hother column v hv hcolumn]
      exact fun c' hc' => absurd (compareValues_self hc'.1) hc'.2.1

/-- What the values that spread can lead to. -/
theorem spreads_mem {db : Db} {w : Value} {p c : TableSchema × Int × Value}
    (h : Spreads db given w p c) :
    c ∈ db.catalog.allTables.flatMap fun ts => ts.foreignKeys.flatMap fun fk =>
      (heldValues db given ts fk.columnIndex).map fun v => (ts, fk.columnIndex, v) := by
  obtain ⟨ts, column, v⟩ := c
  obtain ⟨-, -, hts, ⟨fk, hfk, -, -, -, rfl⟩, hheld, -⟩ := h
  exact List.mem_flatMap.mpr ⟨ts, hts, List.mem_flatMap.mpr ⟨fk, hfk, List.mem_map_of_mem hheld⟩⟩

/-- The change of a row ends if none of its new values spreads forever. -/
theorem terminates_of_not_spreadsForever {db : Db} (hok : db.Ok) {parent : TableSchema}
    {old new : Tuple} (h : ¬SpreadsForever db parent old new) :
    Terminates (fun depth => applyUpdateReferentialActions depth parent old new) db := by
  have hcolumn : ∀ i ∈ List.range old.length, ∃ n, ∀ depth, n ≤ depth → ∀ v, old[i]? = some v →
      SpreadEnds db (.null :: new) ((at? new i).getD .null) depth (parent, i, v) := by
    intro i _
    cases hv : old[i]? with
    | none => exact ⟨0, fun _ _ _ h => by cases h⟩
    | some v =>
      have hend : ¬Endless (Spreads db (.null :: new) ((at? new i).getD .null)) (parent, i, v) :=
        fun hend => h ⟨i, v, by simpa [at?] using hv, hend⟩
      obtain ⟨n, hn⟩ := exists_depth (P := SpreadEnds db (.null :: new) ((at? new i).getD .null))
        (fun _ => _) (fun _ _ => spreads_mem)
        (fun _ _ hbelow => spreadEnds_succ List.mem_cons_self (getD_at?_mem new i) hbelow) hend
      exact ⟨n, fun depth hd v' hv' => Option.some.inj hv' ▸ hn depth hd⟩
  obtain ⟨n, hn⟩ := exists_depth_of_forall hcolumn
  refine ⟨n + 1, fun depth hd herror => ?_⟩
  obtain ⟨depth, rfl⟩ : ∃ d, depth = d + 1 := ⟨depth - 1, by omega⟩
  have hinit : Came db (.null :: new) db := .init hok
  refine (only_applyUpdateReferentialActions List.mem_cons_self
    (fun column _ _ _ _ => getD_at?_mem new column) (fun column v hv => ?_) hinit).of_error herror rfl
  unfold at? at hv
  split at hv
  · obtain ⟨i, rfl⟩ := Int.eq_ofNat_of_zero_le ‹0 ≤ column›
    have hi := (List.getElem?_eq_some_iff.mp hv).1
    exact hn depth (by omega) i (List.mem_range.mpr hi) v hv
  · cases hv

/-! ## REMOVE of all rows -/

/-- A scan without a WHEN clause collects every row that can be read. -/
theorem only_scanAll {errors : String → Prop} {db : Db} {schema : Schema}
    {rows : List (RecordID × Bytes)}
    (hread : ∀ row ∈ rows, ∃ t, Tuple.deserialize row.2 schema = .ok t) :
    ∀ acc, Only errors db (rows.foldlM (fun (acc : List (RecordID × Tuple)) row =>
        Prog.bind (ofExcept (deserializeRow schema row)) fun found => Prog.ret (acc ++ [found])) acc)
      fun found db' => db = db' ∧ (∀ r ∈ acc, r ∈ found) ∧
        ∀ row ∈ rows, ∀ t, Tuple.deserialize row.2 schema = .ok t → (row.1, t) ∈ found := by
  induction rows with
  | nil => exact fun acc => .ret ⟨rfl, fun _ h => h, by simp⟩
  | cons row rows ih =>
    intro acc
    obtain ⟨t, ht⟩ := hread row List.mem_cons_self
    have hone : deserializeRow schema row = .ok (row.1, t) := by
      simp [deserializeRow, ht, bind, Except.bind, pure, Except.pure]
    rw [List.foldlM_cons, hone]
    refine (ih (fun r hr => hread r (List.mem_cons_of_mem row hr)) (acc ++ [(row.1, t)])).mono
      (fun _ h => h) ?_
    rintro found _ ⟨rfl, hacc, hrows⟩
    refine ⟨rfl, fun r hr => hacc r (List.mem_append_left _ hr), List.forall_mem_cons.mpr ⟨?_, hrows⟩⟩
    intro t' ht'
    rw [ht] at ht'
    cases ht'
    exact hacc _ (List.mem_append_right _ (List.mem_singleton_self _))

theorem goesWith_congr {db db' : Db} (htables : db'.tables = db.tables)
    (hcatalog : db'.catalog = db.catalog) : GoesWith db' = GoesWith db := by
  have hrows : liveRows db' = liveRows db := by
    funext schema t
    rw [liveRows, liveRows, htables]
  funext p c
  rw [GoesWith, GoesWith, hrows, hcatalog]

theorem only_deleteRows (depth : Nat) {db : Db} (hok : db.Ok) (hcascades : OnlyCascades db.catalog)
    {ts : TableSchema} (hts : ts ∈ db.catalog.tables) {row : Tuple}
    (hrow : row ∈ liveRows db ts.schema ts.tableId) (hend : Endless (GoesWith db) (ts, row)) :
    Only (· = stackOverflow) db (deleteRows depth { tableId := ts.tableId } db.catalog none)
      fun _ _ => False := by
  have hread : ∀ r ∈ db.tables.tuples ts.tableId,
      ∃ t, Tuple.deserialize r.2 (db.catalog.loadSchema ts.tableId) = .ok t := by
    intro r hr
    obtain ⟨t, ht, -⟩ := hok.canonical _ _ _ (TableManager.mem_tuples.mp hr)
    exact ⟨t, ht⟩
  refine .get_bind (.bind (.get_bind (only_scanAll hread [])) ?_)
  rintro victims _ ⟨rfl, -, hvictims⟩
  rw [Catalog.getTableById_of_mem hts]
  refine .bind (Prog.Only.forM_all (I := Keeps db)
    (D := fun v => ¬Endless (GoesWith db) (ts, v.2))
    (fun v _ s hkeeps => ?_) (.refl hok)) fun _ _ h => ?_
  · have hcascades' : OnlyCascades s.catalog := by rwa [hkeeps.extends'.catalog]
    exact (only_applyReferentialActions depth (ts, v.2) hkeeps.ok hcascades').mono (fun _ h => h)
      fun _ _ h => ⟨hkeeps.trans h.1, fun hend => h.2 (hkeeps.endless_later hend)⟩
  · obtain ⟨rid, b, hb, hrow⟩ := mem_liveRows_iff.mp hrow
    rw [← Catalog.loadSchema_of_mem hts] at hrow
    exact absurd hend (h.2 (rid, row) (hvictims (rid, b) (TableManager.mem_tuples.mpr hb) row hrow))

/-- REMOVE without a WHEN clause does not end where a row of the table is on an endless chain. -/
theorem not_terminates_visitDelete {db : Db} (hok : db.Ok) (hcascades : OnlyCascades db.catalog)
    {ts : TableSchema} (hts : ts ∈ db.catalog.tables) {row : Tuple}
    (hrow : row ∈ liveRows db ts.schema ts.tableId) (hend : Endless (GoesWith db) (ts, row)) :
    ¬Terminates (fun depth => visitDelete depth { tableId := ts.tableId }) db := by
  rintro ⟨n, hn⟩
  have honly : Only (· = stackOverflow) db (visitDelete n { tableId := ts.tableId })
      fun _ _ => False := by
    refine .get_bind (.bind (Q := fun _ _ => False) (.bind (Q := fun m s => none = m ∧ db = s)
      (.ret ⟨rfl, rfl⟩) ?_) fun _ _ h => h.elim)
    rintro _ _ ⟨rfl, rfl⟩
    refine .bind (Q := fun _ s => db.discardOutsideTxn = s)
      (.of_run (run_discardOutsideTxn db) (fun _ _ => rfl) fun _ he => by cases he) ?_
    rintro _ _ rfl
    have hok' : db.discardOutsideTxn.Ok := { hok with }
    refine .bind (Q := fun _ _ => False) (only_deleteRows n hok' hcascades hts hrow ?_)
      fun _ _ h => h.elim
    have hsame : GoesWith db.discardOutsideTxn = GoesWith db := goesWith_congr rfl rfl
    rwa [hsame]
  cases hrun : ((visitDelete n { tableId := ts.tableId }).run db).1 with
  | error e => exact hn n le_rfl (honly.of_error hrun ▸ hrun)
  | ok a => exact honly.of_ok (Prod.ext hrun rfl)

/-! ## All foreign-key graphs and all rows -/

/-- A table t with the key a, and the column b that refers to it ON REMOVE CASCADE and
ON MODIFY CASCADE. -/
def tree : TableSchema where
  tableId := 1
  name := "t"
  columns := [{ name := "a", type := .Int, notNull := true, primaryKey := true },
    { name := "b", type := .Int }]
  foreignKeys := [{ columnIndex := 1, refTable := "t", refColumn := "a"
                    onDelete := .Cascade, onUpdate := .Cascade }]
  primaryKey := [0]

/-- The table with the row (1, NULL). -/
def treeDb : Db :=
  (Db.init { tables := [tree], nodup := by simp }
    [{ name := "__uq_t_a", tableId := 1, columns := [0] }]).execute 2
    (.change (.insert { tableId := 1, rows := [[fun _ => .int 1, fun _ => .null]] }))

/-- MODIFY t SET b = a. -/
def setParent : Statement :=
  .update { tableId := 1, targetIndices := [1], values := [fun row => row.getD 0 .null] }

theorem ok_treeDb : treeDb.Ok :=
  (Db.Ok.init _ (by simp [IndexManager.shape]) (by simp)).execute 2 _

end Exec

end Relite.Vm
