import Relite.Frontend.Connect
import Relite.Vm.ColumnStore

/-!
# The column cache

Every statement that writes clears the column store, but a query of the same statement may
run after that and before the rows are written. Such a query puts columns into the cache
that the statement itself then makes stale.
-/
namespace Relite.Vm
open Lib Backend Semantic

/-! ## A table that is not written -/

namespace TableManager

theorem pageTuples_congr {pid : Int} {p p' : Page} (h : ∀ s : Nat, p'.get s = p.get s) :
    pageTuples pid p' = pageTuples pid p := by
  have hlong : ∀ (q : Page) n, q.slotCount ≤ n → pageTuples pid q =
      (List.range n).filterMap fun (s : Nat) => (q.get s).map fun bytes => (⟨pid, s⟩, bytes) := by
    intro q n hn
    induction n, hn using Nat.le_induction with
    | base => rfl
    | succ n hn ih =>
      have hnone : q.get (n : Int) = none := by
        cases hq : q.get (n : Int) with
        | none => rfl
        | some b =>
          obtain ⟨s, hs, hlt⟩ := Page.slot_of_get hq
          omega
      rw [List.range_succ, List.filterMap_append, ← ih]
      simp [hnone]
  rw [hlong p' (max p'.slotCount p.slotCount) (le_max_left _ _),
    hlong p (max p'.slotCount p.slotCount) (le_max_right _ _)]
  simp only [h]

theorem tuples_congr {tm tm' : TableManager} {t : TableId}
    (hlist : tm'.pageList t = tm.pageList t)
    (hget : ∀ rid : RecordID, rid.pageId ∈ tm.pageList t → tm'.getTuple rid = tm.getTuple rid) :
    tm'.tuples t = tm.tuples t := by
  unfold tuples
  rw [hlist]
  simp only [List.flatMap]
  congr 1
  exact List.map_congr_left fun pid hpid => pageTuples_congr fun s => hget ⟨pid, s⟩ hpid

variable {tm : TableManager} {t u : TableId}

theorem WF.tuples_insertTuple (h : tm.WF) (hne : u ≠ t) (bytes : Bytes) :
    (tm.insertTuple u bytes).1.tuples t = tm.tuples t := by
  generalize hi : tm.insertTuple u bytes = result
  obtain ⟨tm', nr⟩ := result
  obtain ⟨hs, -, hlist, hst⟩ := h.toSound.insertTuple hi
  have hlist' : tm'.pageList t = tm.pageList t := by
    rcases hlist with ⟨-, hl⟩ | ⟨-, hl⟩
    · rw [hl]
    · rw [hl, Function.update_of_ne (Ne.symm hne)]
  refine tuples_congr hlist' fun rid hrid => ?_
  cases hst with
  | refused _ hget => rw [hget]
  | placed _ _ _ _ hmem hget =>
    have hother : rid ≠ nr := by
      rintro rfl
      exact (h.relisted hs hlist).disjoint u t hne _ hmem (hlist' ▸ hrid)
    rw [hget, Function.update_of_ne hother]

theorem WF.tuples_eraseTuple (h : tm.WF) {rid : RecordID} (hrid : rid.pageId ∉ tm.pageList t) :
    (tm.eraseTuple rid).1.tuples t = tm.tuples t := by
  obtain ⟨-, -, hlist, -, hget⟩ := h.toSound.eraseTuple rid
  refine tuples_congr (by rw [hlist]) fun r hr => ?_
  rw [hget, Function.update_of_ne]
  rintro rfl
  exact hrid hr

theorem WF.tuples_updateTuple (h : tm.WF) (hne : u ≠ t) {rid : RecordID}
    (hrid : rid.pageId ∉ tm.pageList t) (bytes : Bytes) :
    (tm.updateTuple u rid bytes).1.tuples t = tm.tuples t := by
  unfold TableManager.updateTuple
  split
  · rename_i page hup
    obtain ⟨-, -, -, hget⟩ := h.toSound.overwrite hup
    refine tuples_congr rfl fun r hr => ?_
    rw [hget, Function.update_of_ne]
    rintro rfl
    exact hrid hr
  · rw [(h.eraseTuple rid).1.tuples_insertTuple hne, h.tuples_eraseTuple hrid]

theorem SamePages.tuples {tm' : TableManager} (h : SamePages tm tm') : tm'.tuples t = tm.tuples t :=
  tuples_congr (by rw [h.pageList]) fun _ _ => by rw [h.getTuple]

theorem tuples_setPages_of_ne (hne : u ≠ t) (l : List Int) :
    (tm.setPages u l).tuples t = tm.tuples t := by
  have hlist : (tm.setPages u l).pageList t = tm.pageList t := by
    rw [pageList_setPages, if_neg (Ne.symm hne)]
  exact tuples_congr hlist fun _ _ => rfl

end TableManager

/-! ## Queries over the cache -/

/-- A query outside a transaction: it reads the database and asks for the columns of tables. -/
abbrev ColumnQuery (α : Type) := Prog Db TableId TableColumns String α

/-- `getOrBuild` for a table, with the schema of `loadSchema`. -/
def Db.getOrBuild (db : Db) (columns : ColumnStore) (t : TableId) :
    Except String (TableColumns × ColumnStore) :=
  columns.getOrBuild t (db.catalog.loadSchema t) ((db.tables.tuples t).map Prod.snd)

/-- What `getOrBuild` builds if nothing is cached. -/
def Db.freshColumns (db : Db) (t : TableId) : Except String TableColumns :=
  (db.getOrBuild (fun _ => none) t).map Prod.fst

namespace ColumnQuery

variable {α : Type}

def run (db : Db) : ColumnQuery α → ColumnStore → Except String α × ColumnStore
  | .ret a, columns => (.ok a, columns)
  | .throw message, columns => (.error message, columns)
  | .read k, columns => run db (k db) columns
  | .call t k, columns =>
    match db.getOrBuild columns t with
    | .ok (tc, columns) => run db (k tc) columns
    | .error message => (.error message, columns)

end ColumnQuery

/-- A query that has been run. -/
def Query.answered {α : Type} (answer : Except String α) : Query α where
  eval _ := ([], answer)

/-- All columns in the cache are what `getOrBuild` would build afresh. -/
def Coherent (db : Db) (columns : ColumnStore) : Prop :=
  ∀ t tc, columns t = some tc → db.freshColumns t = .ok tc

def ColumnStore.empty : ColumnStore := fun _ => none

theorem coherent_empty (db : Db) : Coherent db .empty := fun _ _ h => by cases h

theorem Coherent.of_fresh {db db' : Db} {columns : ColumnStore} (h : Coherent db columns)
    (hfresh : ∀ t, (columns t).isSome → db'.freshColumns t = db.freshColumns t) :
    Coherent db' columns := by
  intro t tc ht
  rw [hfresh t (by simp [ht]), h t tc ht]

section

variable {db : Db} {columns columns' : ColumnStore}

theorem Coherent.getOrBuild (h : Coherent db columns) (t : TableId) :
    db.getOrBuild columns t =
      (db.freshColumns t).map fun tc => (tc, Function.update columns t (some tc)) := by
  cases ht : columns t with
  | some tc =>
    have hsame : Function.update columns t (some tc) = columns := by
      rw [← ht, Function.update_eq_self]
    rw [h t tc ht, Except.map, hsame, Db.getOrBuild, ColumnStore.getOrBuild, ht]
  | none =>
    rw [Db.freshColumns, Db.getOrBuild, Db.getOrBuild, ColumnStore.getOrBuild, ht,
      ColumnStore.getOrBuild]
    simp only
    generalize ((db.tables.tuples t).map Prod.snd).mapM
      (fun bytes => Tuple.deserialize bytes (db.catalog.loadSchema t)) = tuples
    cases tuples <;> rfl

theorem Coherent.update (h : Coherent db columns) {t : TableId} {tc : TableColumns}
    (ht : db.freshColumns t = .ok tc) : Coherent db (Function.update columns t (some tc)) := by
  intro u tc' hu
  rw [Function.update_apply] at hu
  split at hu
  · rename_i hut
    cases hu
    rw [hut, ht]
  · exact h u tc' hu

/-- A query keeps the cache coherent. -/
theorem Coherent.run {α : Type} (q : ColumnQuery α) (h : Coherent db columns) :
    Coherent db (q.run db columns).2 := by
  induction q generalizing columns with
  | ret a => exact h
  | throw e => exact h
  | read k ih => exact ih db h
  | call t k ih =>
    rw [ColumnQuery.run, h.getOrBuild]
    cases ht : db.freshColumns t with
    | error message => exact h
    | ok tc => exact ih tc (h.update ht)

/-- The outcome of a query does not show which columns were cached. -/
theorem Coherent.run_eq {α : Type} (q : ColumnQuery α) (h : Coherent db columns)
    (h' : Coherent db columns') : (q.run db columns).1 = (q.run db columns').1 := by
  induction q generalizing columns columns' with
  | ret a => rfl
  | throw e => rfl
  | read k ih => exact ih db h h'
  | call t k ih =>
    rw [ColumnQuery.run, ColumnQuery.run, h.getOrBuild, h'.getOrBuild]
    cases ht : db.freshColumns t with
    | error message => rfl
    | ok tc => exact ih tc (h.update ht) (h'.update ht)

end

/-! ## Statements over the cache -/

/-- A WHEN clause whose subqueries may ask for columns. -/
structure ColumnCondition (tableId : TableId) where
  correlated : Bool
  materializeSubqueries : ColumnQuery Expression
  bindCorrelated : Tuple → ColumnQuery Expression
  indexCandidates : IndexManager → Option (List RecordID)
  candidates_held : ∀ im rids, indexCandidates im = some rids →
    ∀ rid ∈ rids, IndexManager.Holds im tableId rid

namespace ColumnCondition

variable {tableId : TableId} (w : ColumnCondition tableId)

/-- The columns cached after the correlated subqueries have been run for rows of a scan. -/
def bindRows (db : Db) : List (Except String (RecordID × Tuple)) → ColumnStore → ColumnStore
  | [], columns => columns
  | .error _ :: _, columns => columns
  | .ok row :: rest, columns =>
    match (w.bindCorrelated row.2).run db columns with
    | (.ok _, columns) => bindRows db rest columns
    | (.error _, columns) => columns

/-- The clause with what its subqueries answer; a correlated one answers the same for a row
whichever columns are cached (`Coherent.run_eq`). -/
def answered (db : Db) (materialized : Expression) : Condition tableId where
  correlated := w.correlated
  materializeSubqueries := .answered (.ok materialized)
  bindCorrelated row := .answered ((w.bindCorrelated row).run db .empty).1
  indexCandidates := w.indexCandidates
  candidates_held := w.candidates_held

theorem coherent_bindRows {db : Db} (rows : List (Except String (RecordID × Tuple)))
    {columns : ColumnStore} (h : Coherent db columns) :
    Coherent db (w.bindRows db rows columns) := by
  induction rows generalizing columns with
  | nil => exact h
  | cons row rows ih =>
    cases row with
    | error message => exact h
    | ok row =>
      have hrun := h.run (w.bindCorrelated row.2)
      rw [bindRows]
      generalize (w.bindCorrelated row.2).run db columns = out at hrun
      obtain ⟨outcome, columns'⟩ := out
      cases outcome with
      | error message => exact hrun
      | ok e => exact ih hrun

end ColumnCondition

/-- A statement outside a transaction, with its queries apart. -/
inductive ColumnStatement
  | select (q : ColumnQuery ResultSet)
  | insert (node : InsertStatement) (select : Option (ColumnQuery (List Tuple)))
  | delete (node : DeleteStatement) (when? : Option (ColumnCondition node.tableId))
  | update (node : UpdateStatement) (when? : Option (ColumnCondition node.tableId))
  | create (node : CreateStatement) (asQuery : Option (ColumnQuery (List Tuple)))
  | createIdx (node : CreateIdxStatement)
  | drop (node : DropStatement)
  | alter (node : AlterStatement)

namespace ColumnStatement

/-- PUT, MODIFY and REMOVE. -/
def changes : ColumnStatement → Bool
  | insert _ _ | delete _ _ | update _ _ => true
  | _ => false

def discards : ColumnStatement → Bool
  | drop _ => true
  | _ => false

/-- The correlated subqueries of a REMOVE are run between the rows of its scan. -/
def bindDelete (node : DeleteStatement) (w : ColumnCondition node.tableId) (db : Db) :
    ColumnStore :=
  if w.correlated then
    w.bindRows db ((db.tables.tuples node.tableId).map
      (Exec.deserializeRow (db.catalog.loadSchema node.tableId))) .empty
  else .empty

/-- Those of a MODIFY are run after its scan, and not at all in a join. -/
def bindUpdate (node : UpdateStatement) (w : ColumnCondition node.tableId) (db : Db) :
    ColumnStore :=
  if w.correlated && node.fromTableId.isNone then
    match (db.tables.tuples node.tableId).mapM
      (Exec.deserializeRow (db.catalog.loadSchema node.tableId)) with
    | .ok rows => w.bindRows db (rows.map .ok) .empty
    | .error _ => .empty
  else .empty

/-- What is left to do once the queries are answered, and the columns cached by then. -/
def program (depth : Nat) (db : Db) (columns : ColumnStore) :
    ColumnStatement → Exec ResultSet × ColumnStore
  | select q =>
    let (answer, columns) := q.run db columns
    (Exec.query (.answered answer), columns)
  | insert node none => (Exec.visitInsert { node with select := none }, .empty)
  | insert node (some q) =>
    let (answer, columns) := q.run db.discardOutsideTxn .empty
    (Exec.visitInsert { node with select := some (.answered answer) }, columns)
  | delete node none => (Exec.visitDelete depth { node with when? := none }, .empty)
  | delete node (some w) =>
    match w.materializeSubqueries.run db columns with
    | (.error message, columns) => (Exec.throw message, columns)
    | (.ok e, _) =>
      (Exec.visitDelete depth { node with when? := some (w.answered db.discardOutsideTxn e) },
        bindDelete node w db.discardOutsideTxn)
  | update node none => (Exec.visitUpdate depth { node with when? := none }, .empty)
  | update node (some w) =>
    match w.materializeSubqueries.run db columns with
    | (.error message, columns) => (Exec.throw message, columns)
    | (.ok e, _) =>
      (Exec.visitUpdate depth { node with when? := some (w.answered db.discardOutsideTxn e) },
        bindUpdate node w db.discardOutsideTxn)
  | create node none => (Exec.visitCreate { node with asQuery := none }, columns)
  | create node (some q) =>
    let built := ((Exec.visitCreate { node with asQuery := none }).run db).2
    let (answer, columns) := q.run built columns
    (Exec.visitCreate { node with asQuery := some (.answered answer) },
      if answer.isOk then .empty else columns)
  | createIdx node => (Exec.visitCreateIdx node, columns)
  | drop node => (Exec.visitDrop node, .empty)
  | alter node => (Exec.visitAlter node, .empty)

end ColumnStatement

/-- A database with its column store, outside a transaction. -/
structure ColumnEngine where
  db : Db
  columns : ColumnStore
  sane : Frontend.Sane db
  outside : db.currentTxn = 0

/-- A statement and the catalog after its analysis. -/
structure ColumnRequest where
  stmt : ColumnStatement
  catalog : Catalog

theorem Exec.currentTxn_run {α : Type} (x : Exec α) (db : Db) :
    (x.run db).2.currentTxn = db.currentTxn :=
  have hmakes : Prog.Makes (fun (c : Call) db => c.apply db) (fun _ => True) x :=
    fun _ _ _ => trivial
  hmakes.run_eq (fun c _ _ => by cases c <;> rfl) db

namespace ColumnEngine

def analyzed (s : ColumnEngine) (r : ColumnRequest) : Db := { s.db with catalog := r.catalog }

def program (depth : Nat) (s : ColumnEngine) (r : ColumnRequest) : Exec ResultSet × ColumnStore :=
  r.stmt.program depth (s.analyzed r) s.columns

theorem sane_analyzed (s : ColumnEngine) (r : ColumnRequest) : Frontend.Sane (s.analyzed r) :=
  ⟨s.sane.tables, s.sane.wal⟩

def next (depth : Nat) (s : ColumnEngine) (r : ColumnRequest) : ColumnEngine where
  db := ((s.program depth r).1.run (s.analyzed r)).2
  columns := (s.program depth r).2
  sane := (s.sane_analyzed r).run _
  outside := (Exec.currentTxn_run _ _).trans s.outside

end ColumnEngine

/-! ## Calls that change a table -/

/-- The call may change the records or the schema of the table. -/
def Call.Changes (db : Db) (t : TableId) : Call → Prop
  | insertTuple u _ => u = t
  | updateTuple u rid _ => u = t ∨ rid.pageId ∈ db.tables.pageList t
  | eraseTuple rid => rid.pageId ∈ db.tables.pageList t
  | truncateTable u | dropTable u => u = t
  | setCatalog catalog => catalog.loadSchema t ≠ db.catalog.loadSchema t
  | _ => False

instance (db : Db) (t : TableId) (c : Call) : Decidable (c.Changes db t) :=
  match c with
  | .insertTuple u _ | .truncateTable u | .dropTable u => inferInstanceAs (Decidable (u = t))
  | .updateTuple u rid _ =>
    inferInstanceAs (Decidable (u = t ∨ rid.pageId ∈ db.tables.pageList t))
  | .eraseTuple rid => inferInstanceAs (Decidable (rid.pageId ∈ db.tables.pageList t))
  | .setCatalog catalog =>
    inferInstanceAs (Decidable (catalog.loadSchema t ≠ db.catalog.loadSchema t))
  | .indexAdd .. | .indexRemove .. | .stageInsert .. | .stageDelete .. | .discardPending
  | .commitPending | .lock .. | .logInsert .. | .logDelete .. | .registerUndo _
  | .registerTable _ | .dropIndexes _ | .createIndex .. | .dropIndex _ =>
    inferInstanceAs (Decidable False)

theorem Db.freshColumns_congr {db db' : Db} {t : TableId}
    (htuples : db'.tables.tuples t = db.tables.tuples t)
    (hschema : db'.catalog.loadSchema t = db.catalog.loadSchema t) :
    db'.freshColumns t = db.freshColumns t := by
  rw [freshColumns, freshColumns, Db.getOrBuild, Db.getOrBuild, htuples, hschema]

theorem Call.freshColumns_apply {db : Db} (h : Frontend.Sane db) {t : TableId} {c : Call}
    (hc : ¬c.Changes db t) : (c.apply db).1.freshColumns t = db.freshColumns t := by
  have hwf := h.tables
  cases c with
  | insertTuple u bytes => exact Db.freshColumns_congr (hwf.tuples_insertTuple hc bytes) rfl
  | updateTuple u rid bytes =>
    obtain ⟨hne, hrid⟩ := not_or.mp hc
    exact Db.freshColumns_congr (hwf.tuples_updateTuple hne hrid bytes) rfl
  | eraseTuple rid => exact Db.freshColumns_congr (hwf.tuples_eraseTuple hc) rfl
  | truncateTable u =>
    refine Db.freshColumns_congr ?_ rfl
    exact (TableManager.samePages_truncateTable _ u).tuples.trans
      (TableManager.tuples_setPages_of_ne hc [])
  | dropTable u =>
    refine Db.freshColumns_congr ?_ rfl
    exact (TableManager.samePages_dropTable _ u).tuples.trans
      (TableManager.tuples_setPages_of_ne hc [])
  | registerTable u =>
    exact Db.freshColumns_congr (TableManager.samePages_registerTable _ u).tuples rfl
  | setCatalog catalog => exact Db.freshColumns_congr rfl (not_not.mp hc)
  | _ => rfl

namespace Exec

variable {α β : Type}

/-- The run leaves the records and the schema of the table alone. -/
abbrev Spares (x : Exec α) (t : TableId) (db : Db) : Prop :=
  Prog.All (fun (c : Call) db => c.apply db) (fun db c => ¬c.Changes db t) x db

theorem Spares.freshColumns_run {x : Exec α} {t : TableId} {db : Db} (hx : x.Spares t db)
    (h : Frontend.Sane db) : (x.run db).2.freshColumns t = db.freshColumns t := by
  have hstep : ∀ (db' : Db) (c : Call),
      (Frontend.Sane db' ∧ db'.freshColumns t = db.freshColumns t) → ¬c.Changes db' t →
      Frontend.Sane (c.apply db').1 ∧ (c.apply db').1.freshColumns t = db.freshColumns t :=
    fun db' c ⟨hsane, hfresh⟩ hc =>
      ⟨hsane.apply c, (c.freshColumns_apply hsane hc).trans hfresh⟩
  exact (Prog.All.run_inv hstep ⟨h, rfl⟩ hx).2

/-! ## Statements that leave the cache as it is -/

theorem loadSchema_createIndex (catalog : Catalog) (name table : String) (columns : List String)
    (t : TableId) :
    (catalog.createIndex name table columns).loadSchema t = catalog.loadSchema t := by
  unfold Catalog.createIndex
  split
  · rfl
  split <;> rfl

variable {t : TableId} {db : Db}

theorem spares_addKeys (keys : List (String × Value)) (rid : RecordID) :
    (addKeys keys rid).Spares t db :=
  .forM (fun _ _ => .bind (.perform id) fun _ _ _ => .ret) _

theorem spares_createUnlessExists (tableId : TableId) (ts : TableSchema) (idxName : String)
    (columns : List Int) : (createUnlessExists tableId ts idxName columns).Spares t db := by
  refine .bind (.of_makes readOnly_get fun _ _ h => h.elim) fun db₁ db₂ hget => ?_
  cases hget
  simp only
  split
  · exact .ret
  · refine .bind (.bind (.perform ?_) fun _ _ _ => .ret) fun _ _ _ =>
      .bind (.perform id) fun _ _ _ => .ret
    exact not_not.mpr (loadSchema_createIndex _ _ _ _ t)

theorem spares_createKeyIndexes (tableId : TableId) (ts : TableSchema) :
    (createKeyIndexes tableId ts).Spares t db := by
  refine .bind (.forM (fun c db₁ => ?_) _) fun _ _ _ => ?_
  · obtain ⟨col, i⟩ := c
    dsimp only
    split
    · exact spares_createUnlessExists _ _ _ _
    · exact .ret
  · split
    · exact spares_createUnlessExists _ _ _ _
    · exact .ret

theorem spares_readOnly {x : Exec α} (h : ReadOnly x) : x.Spares t db :=
  .of_makes h fun _ _ h => h.elim

/-- BUILD RELATION, without a query or with one that fails. -/
theorem spares_visitCreate (node : CreateStatement)
    (hquery : ∀ q ∈ node.asQuery, ∃ message, q = .answered (.error message)) :
    (visitCreate node).Spares t db := by
  refine .bind (.bind (.perform id) fun _ _ _ => .ret) fun _ db₁ _ => ?_
  refine .bind (spares_readOnly readOnly_get) fun _ db₂ _ => ?_
  split
  · dsimp only
    split
    · exact .bind (spares_createKeyIndexes _ _) fun _ _ _ => .ret
    · exact .ret
  · rename_i q hq
    obtain ⟨message, rfl⟩ := hquery q hq
    have hbuild : ∀ db, (buildRows node.tableId (.answered (.error message))).Spares t db := by
      intro db
      refine .bind (spares_readOnly readOnly_get) fun _ _ _ => ?_
      refine .bind (.bind (spares_readOnly readOnly_get) fun _ _ _ => ?_) fun _ _ hrun => ?_
      · exact .bind .ret fun _ _ _ => spares_readOnly (readOnly_ofExcept _)
      · cases hrun
    dsimp only
    split
    · exact .bind (spares_createKeyIndexes _ _) fun _ db₃ _ => hbuild db₃
    · exact hbuild db₂

theorem spares_visitCreateIdx (node : CreateIdxStatement) :
    (visitCreateIdx node).Spares t db := by
  refine .bind (spares_readOnly readOnly_get) fun _ _ _ => ?_
  refine .bind (.bind (.perform id) fun _ _ _ => .ret) fun _ _ _ => ?_
  split
  · refine .bind (spares_readOnly readOnly_get) fun _ _ _ => ?_
    refine .bind (spares_readOnly (readOnly_get.bind fun _ => readOnly_ret _)) fun _ _ _ => ?_
    refine .bind (.forM (fun row db' => ?_) _) fun _ _ _ => .ret
    exact .bind (spares_readOnly (readOnly_ofExcept _)) fun _ _ _ => spares_addKeys _ _
  · exact .ret

end Exec

/-! ## Runs -/

namespace ColumnEngine

variable (depth : Nat)

/-- The analysis gives a new table an id for which no query can have asked, and leaves the
columns of the other tables alone, unless the statement discards one. -/
structure Analyzed (s : ColumnEngine) (r : ColumnRequest) : Prop where
  keeps : r.stmt.discards = false → ∀ t ts, s.db.catalog.getTableById t = some ts →
    ∃ ts', r.catalog.getTableById t = some ts' ∧ ts'.schema = ts.schema
  new : ∀ t, s.db.catalog.getTableById t = none → (r.catalog.getTableById t).isSome →
    s.columns t = none

/-- A PUT, MODIFY or REMOVE does not write to a table whose columns its own queries have put
into the cache after the cache was cleared. -/
def Apart (s : ColumnEngine) (r : ColumnRequest) : Prop :=
  r.stmt.changes → ∀ t, ((s.program depth r).2 t).isSome →
    (s.program depth r).1.Spares t (s.analyzed r)

/-- The cache is coherent, and no query can tell it from an empty one. -/
def Fresh (s : ColumnEngine) : Prop :=
  Coherent s.db s.columns ∧ ∀ q : ColumnQuery ResultSet,
    (q.run s.db s.columns).1 = (q.run s.db .empty).1

variable {depth}

theorem loadSchema_analyzed {s : ColumnEngine} {r : ColumnRequest} (h : s.Analyzed r)
    (hstmt : r.stmt.discards = false) {t : TableId} (ht : (s.columns t).isSome) :
    r.catalog.loadSchema t = s.db.catalog.loadSchema t := by
  unfold Catalog.loadSchema
  cases hold : s.db.catalog.getTableById t with
  | some ts =>
    obtain ⟨ts', hnew, hschema⟩ := h.keeps hstmt t ts hold
    simp [hnew, hschema]
  | none =>
    cases hnew : r.catalog.getTableById t with
    | none => rfl
    | some ts =>
      have hnone := h.new t hold (by simp [hnew])
      simp [hnone] at ht

theorem coherent_of_discarded {db : Db} {columns : ColumnStore}
    (h : Coherent db.discardOutsideTxn columns) : Coherent db columns := h.of_fresh fun _ _ => rfl

theorem coherent_bindDelete (node : DeleteStatement) (w : ColumnCondition node.tableId) (db : Db) :
    Coherent db (ColumnStatement.bindDelete node w db) := by
  unfold ColumnStatement.bindDelete
  split
  · exact w.coherent_bindRows _ (coherent_empty db)
  · exact coherent_empty db

theorem coherent_bindUpdate (node : UpdateStatement) (w : ColumnCondition node.tableId) (db : Db) :
    Coherent db (ColumnStatement.bindUpdate node w db) := by
  unfold ColumnStatement.bindUpdate
  split
  · split
    · exact w.coherent_bindRows _ (coherent_empty db)
    · exact coherent_empty db
  · exact coherent_empty db

/-- What is cached when a statement has run its queries is coherent, and a statement that is no
PUT, MODIFY or REMOVE spares these tables. -/
theorem coherent_program (depth : Nat) {db : Db} (hsane : Frontend.Sane db) {columns : ColumnStore}
    (stmt : ColumnStatement) (h : stmt.discards = false → Coherent db columns) :
    Coherent db (stmt.program depth db columns).2 ∧
      (stmt.changes = false → ∀ t, ((stmt.program depth db columns).2 t).isSome →
        (stmt.program depth db columns).1.Spares t db) := by
  cases stmt with
  | select q =>
    refine ⟨(h rfl).run q, fun _ t _ => ?_⟩
    exact .bind (Exec.spares_readOnly Exec.readOnly_get) fun _ _ _ =>
      .bind .ret fun _ _ _ => Exec.spares_readOnly (Exec.readOnly_ofExcept _)
  | insert node select =>
    refine ⟨?_, fun hchanges => by cases hchanges⟩
    cases select with
    | none => exact coherent_empty db
    | some q => exact coherent_of_discarded ((coherent_empty _).run q)
  | delete node when? =>
    refine ⟨?_, fun hchanges => by cases hchanges⟩
    cases when? with
    | none => exact coherent_empty db
    | some w =>
      have hrun := (h rfl).run w.materializeSubqueries
      simp only [ColumnStatement.program]
      generalize w.materializeSubqueries.run db columns = out at hrun
      obtain ⟨outcome, columns'⟩ := out
      cases outcome with
      | error message => exact hrun
      | ok e => exact coherent_of_discarded (coherent_bindDelete node w _)
  | update node when? =>
    refine ⟨?_, fun hchanges => by cases hchanges⟩
    cases when? with
    | none => exact coherent_empty db
    | some w =>
      have hrun := (h rfl).run w.materializeSubqueries
      simp only [ColumnStatement.program]
      generalize w.materializeSubqueries.run db columns = out at hrun
      obtain ⟨outcome, columns'⟩ := out
      cases outcome with
      | error message => exact hrun
      | ok e => exact coherent_of_discarded (coherent_bindUpdate node w _)
  | create node asQuery =>
    cases asQuery with
    | none => exact ⟨h rfl, fun _ t _ => Exec.spares_visitCreate _ (by simp)⟩
    | some q =>
      have hplain : ∀ t, (Exec.visitCreate { node with asQuery := none }).Spares t db :=
        fun t => Exec.spares_visitCreate _ (by simp)
      have hbuilt := (h rfl).of_fresh fun t _ => (hplain t).freshColumns_run hsane
      have hrun := hbuilt.run q
      simp only [ColumnStatement.program]
      generalize q.run ((Exec.visitCreate { node with asQuery := none }).run db).2 columns = out
        at hrun
      obtain ⟨answer, columns'⟩ := out
      cases answer with
      | ok rows => exact ⟨coherent_empty db, fun _ t ht => by cases ht⟩
      | error message =>
        refine ⟨hrun.of_fresh fun t _ => ((hplain t).freshColumns_run hsane).symm, fun _ t _ => ?_⟩
        exact Exec.spares_visitCreate _ fun _ hq => ⟨message, (Option.mem_some_iff.mp hq).symm⟩
  | createIdx node => exact ⟨h rfl, fun _ t _ => Exec.spares_visitCreateIdx node⟩
  | drop node => exact ⟨coherent_empty db, fun _ t ht => by cases ht⟩
  | alter node => exact ⟨coherent_empty db, fun _ t ht => by cases ht⟩

theorem coherent_next {s : ColumnEngine} {r : ColumnRequest} (h : Coherent s.db s.columns)
    (hanalyzed : s.Analyzed r) (hapart : s.Apart depth r) :
    Coherent (s.next depth r).db (s.next depth r).columns := by
  have hstart : r.stmt.discards = false → Coherent (s.analyzed r) s.columns := fun hstmt =>
    h.of_fresh fun t ht => Db.freshColumns_congr rfl (loadSchema_analyzed hanalyzed hstmt ht)
  obtain ⟨hcached, hspares⟩ := coherent_program depth (s.sane_analyzed r) r.stmt hstart
  refine hcached.of_fresh fun t ht => ?_
  refine Exec.Spares.freshColumns_run ?_ (s.sane_analyzed r)
  cases hchanges : r.stmt.changes with
  | true => exact hapart hchanges t ht
  | false => exact hspares hchanges t ht

theorem fresh_of_coherent {s : ColumnEngine} (h : Coherent s.db s.columns) : s.Fresh :=
  ⟨h, fun q => h.run_eq q (coherent_empty s.db)⟩

/-- Whatever is run outside transactions, the cache is coherent after every statement, if no
PUT, MODIFY or REMOVE writes to a table that its own queries have cached. -/
theorem fresh_run (depth : Nat) {s : ColumnEngine} (h : Coherent s.db s.columns)
    {requests : List ColumnRequest}
    (hrun : AllSteps (next depth) (fun s r => s.Analyzed r ∧ s.Apart depth r) s requests) :
    AllStates (next depth) Fresh s requests := by
  have hcoherent : AllStates (next depth) (fun s => Coherent s.db s.columns) s requests :=
    run_invariant (P := fun s r => s.Analyzed r ∧ s.Apart depth r) _
      (fun s r hs hr => coherent_next (s := s) (r := r) hs hr.1 hr.2) h hrun
  exact hcoherent.imp fun s hs => fresh_of_coherent (s := s) hs

/-! ## A statement that aggregates the table it writes to -/

/-- A new database with one table. -/
def created : ColumnEngine where
  db := numbersDb
  columns := .empty
  sane := ⟨TableManager.wf_empty, Txn.WriteAheadLog.wf_empty⟩
  outside := rfl

/-- The statements one after the other; their analysis leaves the catalog as it is. -/
def script (s : ColumnEngine) : List ColumnStatement → List ColumnRequest
  | [] => []
  | stmt :: rest =>
    let r : ColumnRequest := { stmt, catalog := s.db.catalog }
    r :: script (s.next 1 r) rest

theorem analyzed_same (s : ColumnEngine) (stmt : ColumnStatement) :
    s.Analyzed { stmt, catalog := s.db.catalog } where
  keeps _ _ ts h := ⟨ts, h, rfl⟩
  new t h h' := by simp [h] at h'

theorem analyzed_script (s : ColumnEngine) (l : List ColumnStatement) :
    AllSteps (next 1) Analyzed s (s.script l) := by
  induction l generalizing s with
  | nil => trivial
  | cons stmt l ih => exact ⟨s.analyzed_same stmt, ih _⟩

/-- FETCH COUNT( * ) FROM a table. -/
def countRows (t : TableId) : ColumnQuery (List Tuple) :=
  .call t fun tc => .ret [columnarAggregate tc [{ kind := .CountStar }] none]

/-- PUT INTO the table the number of rows of a table. -/
def putCount (t : TableId) : ColumnStatement := .insert { tableId := 1 } (some (countRows t))

theorem fresh_putCount : AllStates (next 1) Fresh created (created.script [putCount 2]) := by
  refine fresh_run 1 (coherent_empty _) ⟨⟨created.analyzed_same _, fun _ t ht => ?_⟩, trivial⟩
  have hcached : t = 2 := by
    by_contra hne
    have hnone : ((created.program 1 { stmt := putCount 2, catalog := created.db.catalog }).2 t) =
        none := Function.update_of_ne hne _ _
    rw [hnone] at ht
    cases ht
  subst hcached
  decide +kernel

/-- PUT INTO t FETCH COUNT( * ) FROM t leaves the columns of the empty table in the cache. -/
theorem not_fresh_putCount :
    AllSteps (next 1) Analyzed created (created.script [putCount 1]) ∧
      ¬AllStates (next 1) Fresh created (created.script [putCount 1]) := by
  refine ⟨analyzed_script _ _, fun h => ?_⟩
  have hcached : ((Lib.run (next 1) created (created.script [putCount 1])).columns 1).map
      TableColumns.rows = some 0 := by decide +kernel
  have hfresh : ((Lib.run (next 1) created (created.script [putCount 1])).db.freshColumns 1).map
      TableColumns.rows = .ok 1 := by decide +kernel
  obtain ⟨tc, htc, hrows⟩ := Option.map_eq_some_iff.mp hcached
  rw [h.last.1 1 tc htc, Except.map, hrows] at hfresh
  cases hfresh

end ColumnEngine

end Relite.Vm
