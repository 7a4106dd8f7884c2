import Mathlib.Data.Set.List
import Relite.Frontend.RejectedStatements
import Relite.Vm.LostRows
import Relite.Vm.SharedStaging
import Relite.Vm.Snapshots

/-!
# BUILD RELATION AS

The analyzer names and types the columns of the new table before the query is run, and the
executor encodes the rows of its answer by these types. So the table holds the answer exactly
when the types that were guessed are those of the values, and the session that builds it can
see it.
-/
namespace Relite.Vm
open Lib Semantic SemanticAnalyzer

/-- BUILD RELATION AS a query, which the analyzer sees by its FETCH list and the executor by
its answer. -/
structure BuildAs where
  table : String
  asQuery : Parser.SelectStatement
  answer : Query ResultSet

/-- FETCH * of one relation. -/
def fetchStar (table : String) : Exec ResultSet := do
  match (← Exec.get).catalog.getTable table with
  | none => Exec.throw (unknownTable table)
  | some ts =>
    let rows ← sourceRows ts.tableId ((← Exec.get).catalog.loadSchema ts.tableId) none
    return { isQuery := true, columns := ts.columns.map ColumnSchema.name, rows }

/-- The columns that the analyzer makes of a query, by name, type and length. -/
def derivedColumns (catalog : Catalog) (q : Parser.SelectStatement)
    (types : List (Option DataType) × List (Option DataType)) : List Parser.ColumnDefinition :=
  if q.selectStar then (starColumns catalog q).map fun c =>
    { name := c.name, type := c.type, varcharLength := c.varcharLength }
  else (listColumns q types).map fun (name, type) => { name, type }

def derivedSchema (catalog : Catalog) (q : Parser.SelectStatement)
    (types : List (Option DataType) × List (Option DataType)) : Schema :=
  if q.selectStar then (starColumns catalog q).map ColumnSchema.type
  else (listColumns q types).map Prod.snd

theorem types_derivedColumns (catalog : Catalog) (q : Parser.SelectStatement)
    (types : List (Option DataType) × List (Option DataType)) :
    (derivedColumns catalog q types).map Parser.ColumnDefinition.type =
      derivedSchema catalog q types := by
  unfold derivedColumns derivedSchema
  split
  · rw [List.map_map]
    rfl
  · rw [List.map_map]
    rfl

/-- The database in which the query is run, with the new table in it. -/
def Db.ready (db : Db) (relations : Relations) (tableId : TableId) : Db :=
  { db with catalog := relations.catalog, tables := db.tables.registerTable tableId }

namespace BuildAs

variable (b : BuildAs)

def node : Parser.CreateStatement := { table := b.table, asQuery := some b.asQuery }

/-- The rows of the answer, which is all that is stored of it. -/
def rows : Query (List Tuple) where
  eval db := ((b.answer.eval db).1, (b.answer.eval db).2.map ResultSet.rows)

/-- The statement after its analysis, on the database with the analyzed catalog. -/
def exec (tableId : TableId) : Exec ResultSet :=
  Exec.visitCreate { tableId, asQuery := some b.rows }

/-- The statement returns, and FETCH * of its table then answers as many columns as the query
did, and the same rows. -/
def Stores (relations : Relations) (db : Db) (tableId : TableId) (answered : ResultSet) : Prop :=
  ∃ rs db' fetched, (b.exec tableId).run { db with catalog := relations.catalog } = (.ok rs, db') ∧
    ((fetchStar b.table).run db').1 = .ok fetched ∧
    fetched.columns.length = answered.columns.length ∧ fetched.rows.Perm answered.rows

end BuildAs

/-! ## The table that the analyzer makes -/

/-- A derived column refers to no table and checks nothing. -/
theorem plain_derivedColumns {catalog : Catalog} {q : Parser.SelectStatement}
    {types : List (Option DataType) × List (Option DataType)} {col : Parser.ColumnDefinition}
    (h : col ∈ derivedColumns catalog q types) : ∃ name type varcharLength,
      col = { name, type, varcharLength } := by
  unfold derivedColumns at h
  split at h
  · obtain ⟨c, -, rfl⟩ := List.mem_map.mp h
    exact ⟨_, _, _, rfl⟩
  · obtain ⟨⟨name, type⟩, -, rfl⟩ := List.mem_map.mp h
    exact ⟨name, type, 0, rfl⟩

theorem columnSchema_plain {table : String} {seen : List String} {saw : Bool} {name : String}
    {type : DataType} {varcharLength : Int} {c : ColumnSchema}
    (h : columnSchema table seen saw { name, type, varcharLength } = .ok c) :
    c = { name, type, varcharLength } := by
  simp only [columnSchema, bind_eq_ok] at h
  obtain ⟨_, -, _, -, _, -, _, -, _, -, _, -, h⟩ := h
  cases h
  rfl

theorem columnSchemas_plain {table : String} {cols : List Parser.ColumnDefinition}
    (hplain : ∀ col ∈ cols, ∃ name type varcharLength,
      col = ({ name, type, varcharLength } : Parser.ColumnDefinition)) :
    ∀ {seen : List String} {saw : Bool} {schemas : List ColumnSchema},
      columnSchemas table seen saw cols = .ok schemas →
      schemas = cols.map fun col =>
        { name := col.name, type := col.type, varcharLength := col.varcharLength } := by
  induction cols with
  | nil =>
    intro seen saw schemas h
    cases h
    rfl
  | cons col cols ih =>
    intro seen saw schemas h
    obtain ⟨name, type, varcharLength, rfl⟩ := hplain col (by simp)
    simp only [columnSchemas, bind_eq_ok] at h
    obtain ⟨c, hc, cs, hcs, h⟩ := h
    cases h
    rw [columnSchema_plain hc, ih (fun col hcol => hplain col (by simp [hcol])) hcs]
    rfl

theorem forM_eq_ret {σ o ρ ε α : Type} {f : α → Prog σ o ρ ε PUnit} {l : List α}
    (hf : ∀ a ∈ l, f a = Prog.ret ⟨⟩) : l.forM f = Prog.ret ⟨⟩ := by
  induction l with
  | nil => rfl
  | cons a l ih =>
    have hcons : (a :: l).forM f = (f a).bind fun _ => l.forM f := rfl
    rw [hcons, hf a (by simp), ih fun a' ha' => hf a' (by simp [ha'])]
    rfl

/-- An accepted BUILD RELATION AS has made a table of the derived columns. -/
theorem BuildAs.accepted {b : BuildAs} {relations relations' : Relations} {tableId : TableId}
    {types : List (Option DataType) × List (Option DataType)}
    (htypes : b.asQuery.accept relations.catalog.signature = .ok types)
    (haccepted : (visitCreate b.node).run relations = (.ok tableId, relations')) :
    tableId = relations.nextTableId ∧ relations.catalog.hasTable b.table = false ∧
      relations' = relations.createTable b.table
        ((derivedColumns relations.catalog b.asQuery types).map fun col =>
          { name := col.name, type := col.type, varcharLength := col.varcharLength }) := by
  cases hcheck : checkCreate relations.catalog b.node with
  | error e =>
    simp only [visitCreate, Analysis.run, Prog.bind_eq, Prog.run_bind, Analysis.catalog,
      Prog.pure_eq, Prog.run_get, Prog.run_ret, hcheck, Analysis.ofExcept, Prog.run_throw]
      at haccepted
    cases haccepted
  | ok made =>
    obtain ⟨columns, schemas⟩ := made
    obtain ⟨_, hnew, columns', hcolumns, schemas', hschemas, hmade⟩ := by
      simpa only [checkCreate, bind_eq_ok] using hcheck
    cases hmade
    obtain ⟨types', htypes', _, -, hcolumns⟩ := by
      simpa only [createColumns, BuildAs.node, bind_eq_ok] using hcolumns
    rw [htypes] at htypes'
    cases htypes'
    cases hcolumns
    change columnSchemas _ _ _ (derivedColumns relations.catalog b.asQuery types) = _ at hschemas
    obtain rfl := columnSchemas_plain (fun col => plain_derivedColumns) hschemas
    have hplain : ∀ col ∈ (derivedColumns relations.catalog b.asQuery types).zipIdx,
        addReference b.table col = Prog.ret () ∧ bindCheck b.table col = Prog.ret () := by
      rintro ⟨col, i⟩ hcol
      obtain ⟨name, type, varcharLength, rfl⟩ :=
        plain_derivedColumns (List.fst_mem_of_mem_zipIdx hcol)
      exact ⟨rfl, rfl⟩
    have hfree : relations.catalog.hasTable b.table = false := by
      simpa [check_eq_ok, BuildAs.node] using hnew
    have hget : (Prog.bind Prog.get fun r : Relations => Prog.ret r.catalog).run
        (fun (c : CatalogCall) relations => c.apply relations) relations =
        ((.ok relations.catalog, relations) : Except String Catalog × Relations) := rfl
    simp only [visitCreate, Analysis.run, Prog.bind_eq, Analysis.catalog, Prog.pure_eq] at haccepted
    rw [Prog.run_bind_ok _ hget, hcheck] at haccepted
    have href := forM_eq_ret fun col hcol => (hplain col hcol).1
    have hcheck := forM_eq_ret fun col hcol => (hplain col hcol).2
    simp only [Analysis.ofExcept, Prog.bind] at haccepted
    erw [href, hcheck] at haccepted
    cases haccepted
    exact ⟨rfl, hfree, rfl⟩

/-- The catalog has the new table, by its name and by its id. -/
theorem BuildAs.getTable {b : BuildAs} {relations : Relations}
    (hnew : relations.catalog.hasTable b.table = false) (schemas : List ColumnSchema) :
    (relations.createTable b.table schemas).catalog.getTable b.table =
        some (relations.newTable b.table schemas) ∧
      (relations.createTable b.table schemas).catalog.getTableById relations.nextTableId =
        some (relations.newTable b.table schemas) := by
  have hmem : relations.newTable b.table schemas ∈
      (relations.createTable b.table schemas).catalog.tables := by
    simp [Relations.createTable, hnew, Catalog.addTable]
  exact ⟨@getTable_self relations b.node schemas hnew, Catalog.getTableById_of_mem hmem⟩

/-! ## The rows that are filled in -/

/-- What staging rows of a table leaves alone in the version store. -/
structure VersionStore.Staged (vs vs' : VersionStore) : Prop where
  wf : vs'.WF
  reconstruct : vs'.reconstruct = vs.reconstruct
  version : vs'.version = vs.version
  baselineVersion : vs'.baselineVersion = vs.baselineVersion
  snapshots : vs'.txnSnapshots = vs.txnSnapshots
  retain : vs'.retainVersions = vs.retainVersions

namespace Exec

/-- What the loop over the rows of the answer has done. -/
structure Filled (t : TableId) (schema : Schema) (rows : List Tuple) (db db' : Db) : Prop where
  wf : db'.tables.WF
  rows_eq : db'.tables.rows t = db.tables.rows t + (images schema rows).filter Fits
  catalog : db'.catalog = db.catalog
  currentTxn : db'.currentTxn = db.currentTxn
  staged : db.versions.Staged db'.versions

variable {t : TableId} {schema : Schema} {idxs : List Index} {db : Db}

theorem run_buildRow (hwf : db.tables.WF) (hvs : db.versions.WF) (row : Tuple) :
    ∃ db', (buildRow t schema idxs row).run db = (.ok (), db') ∧ Filled t schema [row] db db' := by
  obtain ⟨hwf', -, hins⟩ := hwf.insertTuple (Prod.mk.eta
    (p := db.tables.insertTuple t (row.serialize schema))).symm
  let rid := (db.tables.insertTuple t (row.serialize schema)).2
  refine ⟨{ db with
    tables := (db.tables.insertTuple t (row.serialize schema)).1
    indexes := db.indexes.addKeys (coveredKeys idxs row row) rid
    versions := db.versions.stageInsert t rid (row.serialize schema) }, ?_, ?_⟩
  · simp only [buildRow, Prog.bind_eq, Exec.run_bind, run_perform, run_addKeys, run_call]
    rfl
  · refine ⟨hwf', ?_, rfl, rfl, ⟨hvs.stage _, rfl, rfl, rfl, rfl, rfl⟩⟩
    simpa [images, TableManager.handedTo, Call.apply] using hins.rows hwf hwf' t

theorem run_fill (rows : List Tuple) : ∀ {db : Db}, db.tables.WF → db.versions.WF →
    ∃ db', (rows.forM (buildRow t schema idxs)).run db = (.ok (), db') ∧
      Filled t schema rows db db' := by
  induction rows with
  | nil =>
    intro db hwf hvs
    exact ⟨db, rfl, hwf, by simp [images], rfl, rfl, ⟨hvs, rfl, rfl, rfl, rfl, rfl⟩⟩
  | cons row rows ih =>
    intro db hwf hvs
    obtain ⟨db₁, hrun₁, h₁⟩ := @run_buildRow t schema idxs db hwf hvs row
    obtain ⟨db₂, hrun₂, h₂⟩ := ih h₁.wf h₁.staged.wf
    have hcons : (row :: rows).forM (buildRow t schema idxs) =
        Prog.bind (buildRow t schema idxs row) fun _ => rows.forM (buildRow t schema idxs) := rfl
    refine ⟨db₂, ?_, h₂.wf, ?_, h₂.catalog.trans h₁.catalog, h₂.currentTxn.trans h₁.currentTxn,
      ⟨h₂.staged.wf, h₂.staged.reconstruct.trans h₁.staged.reconstruct,
        h₂.staged.version.trans h₁.staged.version,
        h₂.staged.baselineVersion.trans h₁.staged.baselineVersion,
        h₂.staged.snapshots.trans h₁.staged.snapshots,
        h₂.staged.retain.trans h₁.staged.retain⟩⟩
    · rw [hcons, Exec.run_bind, hrun₁]
      exact hrun₂
    · have himages : images schema (row :: rows) = images schema [row] + images schema rows := rfl
      rw [h₂.rows_eq, h₁.rows_eq, himages, Multiset.filter_add, Multiset.add_assoc]

end Exec

/-! ## A table that no snapshot knows -/

namespace VersionStore

variable {vs : VersionStore} {t : TableId}

theorem WF.reconstruct_unknown (h : vs.WF) (ht : t ∉ vs.knownTables) (v : Nat) :
    vs.reconstruct t v = [] := by
  have hlog : ∀ c ∈ vs.log, c.tableId ≠ t := fun c hc he => ht (he ▸ h.known_log c hc)
  have hbase : vs.baseline t = none := by
    by_contra hne
    exact ht (h.known_baseline t (Option.isSome_iff_ne_none.mpr hne))
  rw [VersionStore.reconstruct, applyLog_eq h.sorted, between_of_unknown hlog, hbase]
  rfl

theorem gc_pending (vs : VersionStore) (horizon : Nat) :
    (vs.gc horizon).pending = vs.pending := by
  unfold VersionStore.gc
  generalize (if vs.version < horizon then vs.version else horizon) = z
  simp only
  split <;> rfl

theorem txnSnapshots_commitPending (vs : VersionStore) :
    vs.commitPending.txnSnapshots = vs.txnSnapshots := by
  unfold commitPending maybeGc gc
  simp only
  split
  · rfl
  split
  · rfl
  split
  · rfl
  · split <;> split <;> rfl

/-- What a collection that keeps the last version leaves of the versions before it. -/
theorem WF.reconstruct_maybeGc (h : vs.appended.WF) (hvs : vs.WF)
    (hretain : 0 < vs.retainVersions) :
    vs.appended.maybeGc.baselineVersion ≤ vs.version ∧ vs.appended.maybeGc.pending = [] ∧
      ∀ v, vs.appended.maybeGc.baselineVersion ≤ v →
        rowMap (vs.appended.maybeGc.reconstruct t v) = rowMap (vs.appended.reconstruct t v) := by
  have hbase : vs.appended.baselineVersion ≤ vs.version := hvs.baseline_le
  unfold VersionStore.maybeGc
  split
  · exact ⟨hbase, rfl, fun _ _ => rfl⟩
  split
  · exact ⟨hbase, rfl, fun _ _ => rfl⟩
  have hversion : vs.appended.version - vs.appended.retainVersions ≤ vs.version := by
    change vs.version + 1 - vs.retainVersions ≤ vs.version
    omega
  have hmax := gc_baselineVersion vs.appended
    (vs.appended.version - vs.appended.retainVersions) (Nat.sub_le _ _)
  refine ⟨hmax ▸ max_le hversion hbase, ?_, fun v hv => h.gc_reconstruct ?_ t⟩
  · exact gc_pending _ _
  · exact (le_max_left _ _).trans (hmax ▸ hv)

/-- Rows that are committed now are not in a snapshot taken before. -/
theorem WF.snapshotForTxn_commitPending (h : vs.WF) (hretain : 0 < vs.retainVersions)
    (ht : ∀ v, v ≤ vs.version → vs.reconstruct t v = []) {snap : Nat} (hsnap : snap ≤ vs.version) :
    vs.commitPending.snapshotForTxn t snap = [] := by
  suffices hcommit : vs.commitPending.baselineVersion ≤ vs.version ∧
      vs.commitPending.pending = [] ∧
      ∀ v, vs.commitPending.baselineVersion ≤ v → v ≤ vs.version →
        vs.commitPending.reconstruct t v = [] by
    obtain ⟨hbase, hpending, hrows⟩ := hcommit
    simp only [snapshotForTxn, hpending]
    split
    · rw [hrows _ le_rfl hbase]
      rfl
    · rw [hrows snap (by omega) hsnap]
      rfl
  rw [commitPending_eq]
  split
  · exact ⟨h.baseline_le, ‹_›, fun v _ => ht v⟩
  · obtain ⟨hbase, hpending, hrows⟩ := h.appended.reconstruct_maybeGc (t := t) h hretain
    refine ⟨hbase, hpending, fun v hv hle => ?_⟩
    refine (perm_of_rowMap_eq (h.appended.maybeGc.reconstruct_spec t v).1 (by simp) ?_).eq_nil
    rw [hrows v hv, h.appended_reconstruct hle, ht v hle]

end VersionStore

/-! ## What the statement stores -/

/-- The id is in use nowhere, and a transaction that is open has a snapshot. -/
structure Db.Unused (db : Db) (t : TableId) : Prop where
  tables : db.tables.WF
  versions : db.versions.WF
  rows : db.tables.rows t = 0
  history : t ∉ db.versions.knownTables
  retain : 0 < db.versions.retainVersions
  snapshot : db.currentTxn ≠ 0 → ∃ snap, db.versions.snapshotVersionOf db.currentTxn = some snap ∧
    snap ≤ db.versions.version

namespace BuildAs

variable {b : BuildAs} {relations relations' : Relations} {db db₁ : Db} {t : TableId}
  {answered : ResultSet}

/-- The answer without the names of its columns. -/
theorem run_rows (h : (Exec.query b.answer).run db = (.ok answered, db₁)) :
    (Exec.query b.rows).run db = (.ok answered.rows, db₁) := by
  obtain ⟨_, _, hget, h⟩ := Exec.run_bind_eq_ok.mp h
  cases hget
  obtain ⟨_, db₂, hlock, h⟩ := Exec.run_bind_eq_ok.mp h
  rw [Exec.run_ofExcept] at h
  obtain ⟨houtcome, rfl⟩ := Prod.mk.inj h
  refine Exec.run_bind_eq_ok.mpr ⟨_, _, Exec.run_get db, Exec.run_bind_eq_ok.mpr ⟨_, _, hlock, ?_⟩⟩
  rw [Exec.run_ofExcept]
  exact congrArg (·, db₂) (congrArg (Except.map ResultSet.rows) houtcome)

/-- A table without keys gets no index of itself. -/
theorem createKeyIndexes_plain {ts : TableSchema} (hkey : ts.primaryKey = [])
    (hplain : ∀ c ∈ ts.columns, c.primaryKey = false ∧ c.unique = false) :
    Exec.createKeyIndexes t ts = Prog.ret () := by
  have hcolumns : ∀ col ∈ ts.columns.zipIdx, (if col.1.primaryKey || col.1.unique then
      Exec.createUnlessExists t ts ("__uq_" ++ ts.name ++ "_" ++ col.1.name) [(col.2 : Int)]
      else Prog.ret ()) = Prog.ret () := by
    intro col hcol
    obtain ⟨hprimary, hunique⟩ := hplain _ (List.fst_mem_of_mem_zipIdx hcol)
    simp [hprimary, hunique]
  have hloop := forM_eq_ret hcolumns
  unfold Exec.createKeyIndexes
  simp only [hkey]
  erw [hloop]
  rfl

/-- The statement runs the query with the new table in place, fills in the rows and commits. -/
theorem run_exec (hnew : relations.catalog.hasTable b.table = false) {schemas : List ColumnSchema}
    (hplain : ∀ c ∈ schemas, c.primaryKey = false ∧ c.unique = false)
    (hrelations : relations' = relations.createTable b.table schemas) :
    (b.exec relations.nextTableId).run { db with catalog := relations'.catalog } =
      (Exec.buildRows relations.nextTableId b.rows).run
        (db.ready relations' relations.nextTableId) := by
  have hts := (BuildAs.getTable hnew schemas).2
  have hkeys : Exec.createKeyIndexes relations.nextTableId
      (relations.newTable b.table schemas) = Prog.ret () := createKeyIndexes_plain rfl hplain
  subst hrelations
  unfold BuildAs.exec Exec.visitCreate
  simp only [Prog.bind_eq, Exec.run_bind, Exec.run_call, Exec.run_get, Call.apply, hts, hkeys,
    Prog.bind]
  rfl

/-- The loop of the statement over the rows of the answer, and the commit. -/
theorem run_buildRows (hdb : db.Unused t)
    (hanswer : (Exec.query b.answer).run (db.ready relations' t) = (.ok answered, db₁)) :
    ∃ rs db' vs, (Exec.buildRows t b.rows).run (db.ready relations' t) = (.ok rs, db') ∧
      db'.tables.rows t =
        (Exec.images (relations'.catalog.loadSchema t) answered.rows).filter Fits ∧
      db'.catalog = relations'.catalog ∧ db'.currentTxn = db.currentTxn ∧
      db.versions.Staged vs ∧ db'.versions = vs.commitPending := by
  obtain ⟨hwf, hrows⟩ := Call.balance hdb.tables (c := .registerTable t) trivial t
  have hlocks : (db₁.tables, db₁.versions, db₁.catalog, db₁.currentTxn) =
      (db.tables.registerTable t, db.versions, relations'.catalog, db.currentTxn) := by
    have := (Exec.locking_query b.answer).run_eq
      (g := fun db => (db.tables, db.versions, db.catalog, db.currentTxn))
      (fun c db ⟨_, _, hc⟩ => by subst hc; rfl) (db.ready relations' t)
    exact (congrArg (fun r : Except String ResultSet × Db =>
      (r.2.tables, r.2.versions, r.2.catalog, r.2.currentTxn)) hanswer).symm.trans this
  obtain ⟨htables, hversions, hcatalog, htxn⟩ := by simpa only [Prod.mk.injEq] using hlocks
  obtain ⟨db₂, hfill, hfilled⟩ := @Exec.run_fill t (relations'.catalog.loadSchema t)
    (IndexManager.forTable db₁.indexes t) answered.rows db₁ (htables ▸ hwf)
    (hversions ▸ hdb.versions)
  refine ⟨{ message := "BUILD RELATION AS (" ++ toString answered.rows.length ++ " rows)" },
    { db₂ with versions := db₂.versions.commitPending }, db₂.versions, ?_, ?_,
    hfilled.catalog.trans hcatalog, hfilled.currentTxn.trans htxn, hversions ▸ hfilled.staged, rfl⟩
  · unfold Exec.buildRows
    have hschema : (db.ready relations' t).catalog = relations'.catalog := rfl
    simp only [Prog.bind_eq, Exec.run_bind, Exec.run_get, run_rows hanswer, hschema, hfill]
    rfl
  · have hregistered : (db.tables.registerTable t).rows t = db.tables.rows t := by
      simpa [Call.taken, Call.handed, Call.apply] using hrows
    rw [show db₂.tables.rows t = _ from hfilled.rows_eq, htables, hregistered, hdb.rows,
      Multiset.zero_add]

/-- Outside a transaction FETCH * decodes the rows of the table. -/
theorem run_fetchStar_outside {ts : TableSchema} (hts : db.catalog.getTable b.table = some ts)
    (htxn : db.currentTxn = 0) :
    ((fetchStar b.table).run db).1 = (db.decoded ts.tableId).map fun rows =>
      { isQuery := true, columns := ts.columns.map ColumnSchema.name, rows } := by
  have hsource := @run_sourceRows db ts.tableId none (by simp [Db.txnActive, htxn]) (by simp)
  have hall : (List.filter fun row : Tuple => (none : Option Parser.Expression).all fun e =>
      predicateTrue (evalExpression e) row) = id := by
    funext rows
    simp
  rw [hall] at hsource
  unfold fetchStar
  simp only [Prog.bind_eq, Exec.run_bind, Exec.run_get, hts]
  generalize Exec.run (sourceRows _ _ none) db = run at hsource ⊢
  obtain ⟨outcome, db'⟩ := run
  obtain rfl : outcome = _ := hsource
  cases db.decoded ts.tableId <;> rfl

/-- In a transaction it answers what the snapshot has of the table. -/
theorem run_fetchStar_inside {ts : TableSchema} (hts : db.catalog.getTable b.table = some ts)
    (htxn : db.currentTxn ≠ 0) {snap : Nat}
    (hsnap : db.versions.snapshotVersionOf db.currentTxn = some snap)
    (hrows : db.versions.snapshotForTxn ts.tableId snap = []) :
    ((fetchStar b.table).run db).1 = .ok
      { isQuery := true, columns := ts.columns.map ColumnSchema.name, rows := [] } := by
  unfold fetchStar sourceRows
  simp only [Prog.bind_eq, Exec.run_bind, Exec.run_get, hts, Db.txnActive, bne_iff_ne, ne_eq, htxn,
    not_false_eq_true, if_true, hsnap, hrows]
  rfl

theorem mapM_eq_ok_iff {α β : Type} {f : α → Except String β} {l : List α} :
    ∀ {r : List β}, l.mapM f = .ok r ↔ l.map f = r.map .ok := by
  induction l with
  | nil =>
    intro r
    cases r <;> simp [pure, Except.pure]
  | cons a l ih =>
    intro r
    rw [List.mapM_cons, bind_eq_ok]
    cases r with
    | nil => simp [bind_eq_ok, pure, Except.pure]
    | cons b r =>
      simp only [bind_eq_ok, pure, Except.pure, List.map_cons, List.cons.injEq, ← ih,
        Except.ok.injEq]
      constructor
      · rintro ⟨_, hb, _, hr, rfl, rfl⟩
        exact ⟨hb, hr⟩
      · rintro ⟨hb, hr⟩
        exact ⟨b, hb, r, hr, rfl, rfl⟩

/-- The table holds the rows if and only if each of them is of its types and fits into a page. -/
theorem decoded_perm_iff {schema : Schema} (hschema : db.catalog.loadSchema t = schema)
    {rows : List Tuple} (hrows : db.tables.rows t = (Exec.images schema rows).filter Fits) :
    (∃ stored, db.decoded t = .ok stored ∧ stored.Perm rows) ↔
      ∀ row ∈ rows, Tuple.Typed schema row ∧ Fits (row.serialize schema) := by
  subst hschema
  constructor
  · rintro ⟨stored, hstored, hperm⟩ row hrow
    refine ⟨typed_of_mapM hstored row (hperm.mem_iff.mpr hrow), ?_⟩
    have hlen : (db.tables.rows t).card = rows.length := by
      have := congrArg List.length (mapM_eq_ok_iff.mp hstored)
      simpa [TableManager.rows, hperm.length_eq] using this
    have hall : (Exec.images (db.catalog.loadSchema t) rows).filter Fits =
        Exec.images (db.catalog.loadSchema t) rows := by
      refine Multiset.eq_of_le_of_card_le (Multiset.filter_le Fits _) ?_
      rw [← hrows, hlen]
      simp [Exec.images]
    exact Multiset.filter_eq_self.mp hall _ (Multiset.mem_coe.mpr (List.mem_map_of_mem hrow))
  · intro hgood
    have hfits : ∀ bytes ∈ Exec.images (db.catalog.loadSchema t) rows, Fits bytes := by
      intro bytes hbytes
      obtain ⟨row, hrow, rfl⟩ := List.mem_map.mp (Multiset.mem_coe.mp hbytes)
      exact (hgood row hrow).2
    rw [Multiset.filter_eq_self.mpr hfits] at hrows
    have hdecode : ((db.tables.tuples t).map fun raw =>
        Tuple.deserialize raw.2 (db.catalog.loadSchema t)).Perm (rows.map .ok) := by
      refine Multiset.coe_eq_coe.mp ?_
      have hmap : (((db.tables.tuples t).map fun raw =>
          Tuple.deserialize raw.2 (db.catalog.loadSchema t) : List _) : Multiset _) =
          (db.tables.rows t).map fun bytes =>
            Tuple.deserialize bytes (db.catalog.loadSchema t) := by
        simp [TableManager.rows, Function.comp_def]
      rw [hmap, hrows]
      simp only [Exec.images, Multiset.map_coe, List.map_map]
      refine congrArg _ (List.map_congr_left fun row hrow => ?_)
      obtain ⟨htyped, hfit⟩ := hgood row hrow
      exact Tuple.deserialize_of_typed htyped (lt_of_le_of_lt hfit.2 (by norm_num))
    obtain ⟨stored, hstored⟩ : ((db.tables.tuples t).map fun raw =>
        Tuple.deserialize raw.2 (db.catalog.loadSchema t)) ∈ Set.range (List.map Except.ok) := by
      rw [Set.range_list_map]
      intro x hx
      obtain ⟨row, -, rfl⟩ := List.mem_map.mp (hdecode.subset hx)
      exact ⟨row, rfl⟩
    refine ⟨stored, mapM_eq_ok_iff.mpr hstored.symm, ?_⟩
    rw [← hstored] at hdecode
    exact (List.map_perm_map_iff fun _ _ h => Except.ok.inj h).mp hdecode

/-- An accepted BUILD RELATION AS stores the answer of its query if and only if the analyzer
has derived as many columns as the query answers, each row has values of the derived types and
fits into a page, and no transaction is open or there is nothing to store. -/
theorem stores_answer_iff (b : BuildAs) {relations relations' : Relations} {db db₁ : Db}
    {tableId : TableId} {types : List (Option DataType) × List (Option DataType)}
    {answered : ResultSet} (hdb : db.Unused relations.nextTableId)
    (htypes : b.asQuery.accept relations.catalog.signature = .ok types)
    (haccepted : (visitCreate b.node).run relations = (.ok tableId, relations'))
    (hanswer : (Exec.query b.answer).run (db.ready relations' tableId) = (.ok answered, db₁)) :
    b.Stores relations' db tableId answered ↔
      answered.columns.length = (derivedSchema relations.catalog b.asQuery types).length ∧
      (∀ row ∈ answered.rows,
        Tuple.Typed (derivedSchema relations.catalog b.asQuery types) row ∧
        Fits (row.serialize (derivedSchema relations.catalog b.asQuery types))) ∧
      (db.currentTxn = 0 ∨ answered.rows = []) := by
  obtain ⟨rfl, hnew, hrelations⟩ := accepted htypes haccepted
  generalize hschemas : (derivedColumns relations.catalog b.asQuery types).map (fun col =>
    ({ name := col.name, type := col.type, varcharLength := col.varcharLength } : ColumnSchema)) =
      schemas at hrelations
  generalize hschema : derivedSchema relations.catalog b.asQuery types = schema
  have hplain : ∀ c ∈ schemas, c.primaryKey = false ∧ c.unique = false := by
    rintro c hc
    obtain ⟨col, -, rfl⟩ := List.mem_map.mp (hschemas ▸ hc)
    exact ⟨rfl, rfl⟩
  obtain ⟨hts, htsId⟩ := getTable hnew schemas
  rw [← hrelations] at hts htsId
  have htypesOf : schemas.map ColumnSchema.type = schema := by
    rw [← hschemas, ← hschema, ← types_derivedColumns, List.map_map]
    rfl
  have hload : relations'.catalog.loadSchema relations.nextTableId = schema := by
    rw [Catalog.loadSchema, htsId]
    exact htypesOf
  obtain ⟨rs, db', vs, hbuild, hrows, hcatalog, htxn, hstaged, hversions⟩ :=
    run_buildRows hdb hanswer
  have hrun : (b.exec relations.nextTableId).run { db with catalog := relations'.catalog } =
      (.ok rs, db') := (run_exec hnew hplain hrelations).trans hbuild
  have hstores : b.Stores relations' db relations.nextTableId answered ↔
      ∃ fetched, ((fetchStar b.table).run db').1 = .ok fetched ∧
        fetched.columns.length = answered.columns.length ∧ fetched.rows.Perm answered.rows := by
    constructor
    · rintro ⟨rs', db'', fetched, hrun', hfetched⟩
      cases hrun.symm.trans hrun'
      exact ⟨fetched, hfetched⟩
    · rintro ⟨fetched, hfetched⟩
      exact ⟨rs, db', fetched, hrun, hfetched⟩
  have hcolumns : ((relations.newTable b.table schemas).columns.map ColumnSchema.name).length =
      schema.length := by
    rw [← htypesOf, List.length_map, List.length_map]
    rfl
  rw [hload] at hrows
  rw [← hcatalog] at hts hload
  rw [hstores]
  by_cases hout : db.currentTxn = 0
  · have hfetch := run_fetchStar_outside (b := b) hts (htxn.trans hout)
    rw [hfetch, ← decoded_perm_iff hload hrows]
    change (∃ fetched, (db'.decoded relations.nextTableId).map _ = .ok fetched ∧ _) ↔ _
    cases db'.decoded relations.nextTableId with
    | error e =>
      constructor
      · rintro ⟨_, h, _⟩
        cases h
      · rintro ⟨_, ⟨_, h, _⟩, _⟩
        cases h
    | ok stored =>
      constructor
      · rintro ⟨fetched, hfetched, hwidth, hperm⟩
        cases hfetched
        exact ⟨hwidth.symm.trans hcolumns, ⟨stored, rfl, hperm⟩, .inl hout⟩
      · rintro ⟨hwidth, ⟨_, hstored, hperm⟩, -⟩
        cases hstored
        exact ⟨_, rfl, hcolumns.trans hwidth.symm, hperm⟩
  · obtain ⟨snap, hsnap, hle⟩ := hdb.snapshot hout
    have hempty : db'.versions.snapshotForTxn relations.nextTableId snap = [] := by
      rw [hversions]
      refine hstaged.wf.snapshotForTxn_commitPending (hstaged.retain ▸ hdb.retain)
        (fun v _ => ?_) (hstaged.version ▸ hle)
      rw [hstaged.reconstruct, hdb.versions.reconstruct_unknown hdb.history]
    have hsnap' : db'.versions.snapshotVersionOf db'.currentTxn = some snap := by
      rw [VersionStore.snapshotVersionOf, hversions, VersionStore.txnSnapshots_commitPending,
        hstaged.snapshots, htxn]
      exact hsnap
    rw [run_fetchStar_inside (b := b) hts (htxn ▸ hout) hsnap' hempty]
    constructor
    · rintro ⟨fetched, hfetched, hwidth, hperm⟩
      cases hfetched
      have hnil : answered.rows = [] := hperm.nil_eq.symm
      exact ⟨hwidth.symm.trans hcolumns, by simp [hnil], .inr hnil⟩
    · rintro ⟨hwidth, -, hnil⟩
      refine ⟨_, rfl, hcolumns.trans hwidth.symm, ?_⟩
      rw [hnil.resolve_left hout]

/-- BUILD RELATION u AS FETCH e AS x FROM t, where t has a column a of integers. -/
def ofItem (e : Parser.Expression) : BuildAs where
  table := "u"
  asQuery :=
    { selectStar := false
      table := "t"
      columns := [{ name := "", aliasName := "x" }]
      accept := fun _ => (visit { currentTable := some numbers } e).map fun e => ([e.2], []) }
  answer.eval db := ([], (db.decoded 1).map fun rows =>
    { isQuery := true, columns := ["x"], rows := rows.map fun row => [evalExpression e row] })

/-- The catalog with this table. -/
def numbersRelations : Relations where
  catalog := numbersDb.catalog
  nextTableId := 2
  fresh ts hts := by
    rw [List.mem_singleton.mp hts]
    decide

/-- The table has the row 1. -/
def oneRowDb : Db :=
  ((Exec.visitInsert { tableId := 1, rows := [[fun _ => .int 1]] }).run numbersDb).2

theorem unused_oneRowDb : oneRowDb.Unused 2 where
  tables := (Exec.rows_run ok_numbersDb.tables (Exec.listed_visitInsert _ _) 1).1
  versions := by
    have hversions : oneRowDb.versions = (({} : VersionStore).apply
        (.stageInsert 1 ⟨0, 0⟩ (Tuple.serialize [.int 1] [.Int]))).apply .commitPending := rfl
    rw [hversions]
    exact (VersionStore.wf_empty.apply _).apply _
  rows := by decide +kernel
  history := by decide +kernel
  retain := by decide +kernel
  snapshot := fun h => absurd (by decide +kernel) h

/-- BUILD RELATION u AS FETCH a AS x FROM t. -/
theorem stores_answer_column :
    let b := ofItem (.column { column := "a", columnIndex := 0 })
    b.Stores ((visitCreate b.node).run numbersRelations).2 oneRowDb 2
      { isQuery := true, columns := ["x"], rows := [[.int 1]] } :=
  (stores_answer_iff _ unused_oneRowDb (rfl : _ = Except.ok ([some DataType.Int], []))
    (Prod.ext rfl rfl) (Prod.ext (by decide +kernel) rfl)).mpr
    ⟨by decide +kernel, by decide +kernel, .inl (by decide +kernel)⟩

/-- CASE WHEN a = 2 THEN 1 ELSE 2.5 END, which is taken for an integer. -/
def caseItem : Parser.Expression :=
  .case [(.binary .Eq (.column { column := "a", columnIndex := 0 }) (.literal (.int 2)),
    .literal (.int 1))] (some (.literal (.double 0x4004000000000000)))

/-- BUILD RELATION u AS FETCH CASE WHEN a = 2 THEN 1 ELSE 2.5 END AS x FROM t stores zero for
2.5. -/
theorem build_stores_other_values : ¬∀ (b : BuildAs) (relations relations' : Relations)
    (db db₁ : Db) (tableId : TableId) (answered : ResultSet), db.Unused relations.nextTableId →
      (visitCreate b.node).run relations = (.ok tableId, relations') →
      (Exec.query b.answer).run (db.ready relations' tableId) = (.ok answered, db₁) →
      b.Stores relations' db tableId answered := by
  intro h
  let b := ofItem caseItem
  let relations' := ((visitCreate b.node).run numbersRelations).2
  obtain ⟨rs, db', fetched, hrun, hfetched, -, hrows⟩ := h b numbersRelations relations' oneRowDb
    _ 2 { isQuery := true, columns := ["x"], rows := [[.double 0x4004000000000000]] }
    unused_oneRowDb (Prod.ext rfl rfl) (Prod.ext (by decide +kernel) rfl)
  have hdb' : db' = ((b.exec 2).run { oneRowDb with catalog := relations'.catalog }).2 :=
    (congrArg Prod.snd hrun).symm
  have hzero : ((fetchStar "u").run
      ((b.exec 2).run { oneRowDb with catalog := relations'.catalog }).2).1 =
        .ok { isQuery := true, columns := ["x"], rows := [[.int 0]] } := by decide +kernel
  cases hfetched.symm.trans (hdb' ▸ hzero)
  exact absurd hrows (by decide)

end BuildAs

end Relite.Vm
