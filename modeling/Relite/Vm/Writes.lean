import Relite.Vm.Calls

/-!
# The writes of PUT and MODIFY

A PUT and a MODIFY go through their rows in rounds. Each round checks a row, lets the
referential actions follow the change, and then gives the row to the table: `Write` is
this last step, with the states around it. The rows that the statement answers are those
that it wrote.
-/
namespace Relite.Vm
open Lib Semantic

/-- A row that a PUT or MODIFY gives to its table: the state it was checked in, the state it
is written in, and the row that it replaces. -/
structure Write where
  checked : Db
  before : Db
  tableId : TableId
  idxs : List Index
  schema : Schema
  replaced : Option (RecordID × Tuple)
  new : Tuple

/-- The part of the statement that writes the row. -/
def Write.program (w : Write) : Exec Unit :=
  match w.replaced with
  | none => Exec.insertRow w.tableId w.idxs w.new (w.new.serialize w.schema)
  | some (rid, old) => Exec.rewriteRow w.tableId w.idxs rid old w.new w.schema true

def Write.rid (w : Write) : Option RecordID := w.replaced.map Prod.fst

/-- The referential actions of one round of a MODIFY, with the state that they begin in. -/
structure Actions where
  before : Db
  program : Exec Unit

namespace Exec

/-- What a program returns, if it does. -/
def value? {α : Type} (x : Exec α) (db : Db) : Option α := (x.run db).1.toOption

theorem run_of_value? {α : Type} {x : Exec α} {db : Db} {a : α} (h : x.value? db = some a) :
    ∃ db', x.run db = (.ok a, db') := by
  unfold value? at h
  generalize x.run db = out at h
  obtain ⟨outcome, db'⟩ := out
  cases outcome with
  | error e => cases h
  | ok a' => cases h; exact ⟨db', rfl⟩

theorem run_of_value?_join {α : Type} {x : Exec (Option α)} {db : Db} {a : α}
    (h : (x.value? db).join = some a) : ∃ db', x.run db = (.ok (some a), db') := by
  refine run_of_value? ?_
  cases hv : x.value? db with
  | none => rw [hv] at h; cases h
  | some o => rw [hv] at h; exact congrArg some h

/-! ## PUT -/

/-- A new row with its default values. -/
def insertedRow (ts : Option TableSchema) (schema : Schema) (targets : List Nat)
    (autoNext : AutoNext) (provided : Tuple) : Tuple :=
  let row := (fillAuto autoNext (provide schema.length targets provided)).2
  (ts.map fun ts => fillDefaults ts row).getD row.1

/-- The row that an ON CONFLICT clause makes of the one it found. -/
def upsertedRow (ts : Option TableSchema) (c : OnConflict) (exRow : Tuple) : Tuple :=
  let setIdx := c.setColumns.map fun name =>
    ((ts.map fun ts => ts.columnIndex name).getD (-1)).toNat
  assign exRow setIdx c.setValues exRow

/-- A round of PUT up to the write. -/
def insertWrite (node : InsertStatement) (ts : Option TableSchema) (schema : Schema)
    (idxs : List Index) (targets : List Nat) (st : InsertState) (provided : Tuple) :
    Exec (Option Write) := do
  let t := insertedRow ts schema targets st.autoNext provided
  match ← findConflict node.tableId schema node.onConflict t with
  | some (c, exRid, exRow) =>
    if c.doNothing then return none
    else
      let new := upsertedRow ts c exRow
      let checked ← get
      checkRow ts node.tableId new (some exRid)
      lockInTxn exRid true
      let before ← get
      return some { checked, before, tableId := node.tableId, idxs, schema, new
                    replaced := some (exRid, exRow) }
  | none =>
    let checked ← get
    checkRow ts node.tableId t none
    return some { checked, before := checked, tableId := node.tableId, idxs, schema, new := t
                  replaced := none }

theorem insertProvided_eq (node : InsertStatement) (ts : Option TableSchema) (schema : Schema)
    (idxs : List Index) (targets : List Nat) (st : InsertState) (provided : Tuple) :
    insertProvided node ts schema idxs targets st provided =
      let autoNext := (fillAuto st.autoNext (provide schema.length targets provided)).1
      let t := insertedRow ts schema targets st.autoNext provided
      Prog.bind (findConflict node.tableId schema node.onConflict t) fun
        | some (c, exRid, exRow) =>
          if c.doNothing then Prog.ret { st with autoNext }
          else
            let new := upsertedRow ts c exRow
            Prog.bind (checkRow ts node.tableId new (some exRid)) fun _ =>
              Prog.bind (lockInTxn exRid true) fun _ =>
                Prog.bind (rewriteRow node.tableId idxs exRid exRow new schema true) fun _ =>
                  Prog.ret { autoNext, returned := st.returned ++ [new] }
        | none =>
          Prog.bind (checkRow ts node.tableId t none) fun _ =>
            Prog.bind (insertRow node.tableId idxs t (t.serialize schema)) fun _ =>
              Prog.ret { autoNext, returned := st.returned ++ [t] } := rfl

/-- What the loop of PUT works with. -/
structure InsertLoop where
  idxs : List Index
  targets : List Nat
  provided : List Tuple
  autoNext : AutoNext

def insertTargets (node : InsertStatement) (ts : Option TableSchema) (schema : Schema) : List Nat :=
  if node.columns.isEmpty then List.range schema.length
  else node.columns.map fun name => ((ts.map fun ts => ts.columnIndex name).getD (-1)).toNat

/-- The first value of each AUTO_INCREMENT column. -/
def startAuto (tableId : TableId) (schema : Schema) (autos : List Nat) : Exec AutoNext :=
  autos.foldlM (fun (acc : AutoNext) c => do
    let rows ← ofExcept (matchingRows schema (fun _ _ => true) (← scanRows tableId))
    return acc ++ [(c, autoStart rows c)]) []

/-- The part of `visit(InsertStatement)` before its loop. -/
def insertSetup (node : InsertStatement) (catalog : Catalog) : Exec InsertLoop := do
  let schema := catalog.loadSchema node.tableId
  let ts := catalog.getTableById node.tableId
  let idxs := IndexManager.forTable (← get).indexes node.tableId
  let provided ← providedRows node
  let autoNext ← startAuto node.tableId schema ((ts.map autoColumns).getD [])
  return { idxs, targets := insertTargets node ts schema, provided, autoNext }

section

variable {node : InsertStatement} {ts : Option TableSchema} {schema : Schema} {idxs : List Index}
  {targets : List Nat} {st : InsertState} {provided t new : Tuple} {db s : Db}

theorem value?_insertWrite_new (ht : insertedRow ts schema targets st.autoNext provided = t)
    (hfound : (findConflict node.tableId schema node.onConflict t).run db = (.ok none, db))
    (hcheck : (checkRow ts node.tableId t none).run db = (.ok (), db)) :
    ((insertWrite node ts schema idxs targets st provided).value? db).join =
      some ⟨db, db, node.tableId, idxs, schema, none, t⟩ := by
  subst ht
  simp [insertWrite, value?, hfound, hcheck, Except.toOption]

theorem value?_insertWrite_upsert {c : OnConflict} {exRid : RecordID} {exRow : Tuple}
    (ht : insertedRow ts schema targets st.autoNext provided = t)
    (hfound : (findConflict node.tableId schema node.onConflict t).run db =
      (.ok (some (c, exRid, exRow)), db)) (hdo : c.doNothing = false)
    (hnew : upsertedRow ts c exRow = new)
    (hcheck : (checkRow ts node.tableId new (some exRid)).run db = (.ok (), db))
    (hlock : (lockInTxn exRid true).run db = (.ok (), s)) :
    ((insertWrite node ts schema idxs targets st provided).value? db).join =
      some ⟨db, s, node.tableId, idxs, schema, some (exRid, exRow), new⟩ := by
  subst ht hnew
  simp [insertWrite, value?, hfound, hdo, hcheck, hlock, Except.toOption]

theorem insertRows_eq (node : InsertStatement) (catalog : Catalog) :
    insertRows node catalog = Prog.bind (insertSetup node catalog) fun loop =>
      Prog.bind (loop.provided.foldlM (insertProvided node (catalog.getTableById node.tableId)
        (catalog.loadSchema node.tableId) loop.idxs loop.targets) { autoNext := loop.autoNext })
          fun st => Prog.ret st.returned := by
  unfold insertSetup
  simp only [Prog.bind_eq, Prog.bind_assoc]
  rfl

theorem run_insertSetup {catalog : Catalog} {rows : List Tuple} {autoNext : AutoNext} {s' : Db}
    (hrows : (providedRows node).run db = (.ok rows, s))
    (hauto : (startAuto node.tableId (catalog.loadSchema node.tableId)
      (((catalog.getTableById node.tableId).map autoColumns).getD [])).run s = (.ok autoNext, s')) :
    (insertSetup node catalog).run db = (.ok
      { idxs := db.indexes.forTable node.tableId
        targets := insertTargets node (catalog.getTableById node.tableId)
          (catalog.loadSchema node.tableId)
        provided := rows, autoNext }, s') := by
  simp [insertSetup, hrows, hauto]

end

end Exec

/-- The rounds of a PUT that are begun. -/
def InsertStatement.rounds (node : InsertStatement) (db : Db) :
    List (Exec.InsertLoop × Db × Exec.InsertState × Tuple) :=
  let ts := db.catalog.getTableById node.tableId
  let schema := db.catalog.loadSchema node.tableId
  match (Exec.insertSetup node db.catalog).run db.discardOutsideTxn with
  | (.ok loop, db') => (Prog.rounds (fun (c : Call) db => c.apply db)
      (Exec.insertProvided node ts schema loop.idxs loop.targets) loop.provided
      { autoNext := loop.autoNext } db').map fun r => (loop, r)
  | (.error _, _) => []

/-- The rows that a PUT writes. -/
def InsertStatement.writes (node : InsertStatement) (db : Db) : List Write :=
  let ts := db.catalog.getTableById node.tableId
  let schema := db.catalog.loadSchema node.tableId
  (node.rounds db).filterMap fun (loop, s, st, provided) =>
    ((Exec.insertWrite node ts schema loop.idxs loop.targets st provided).value? s).join

theorem InsertStatement.mem_writes {node : InsertStatement} {db s : Db} {loop : Exec.InsertLoop}
    (hsetup : (Exec.insertSetup node db.catalog).run db.discardOutsideTxn = (.ok loop, s))
    {r : Db × Exec.InsertState × Tuple}
    (hr : r ∈ Prog.rounds (fun (c : Call) db => c.apply db)
      (Exec.insertProvided node (db.catalog.getTableById node.tableId)
        (db.catalog.loadSchema node.tableId) loop.idxs loop.targets) loop.provided
        { autoNext := loop.autoNext } s) {w : Write}
    (hw : ((Exec.insertWrite node (db.catalog.getTableById node.tableId)
      (db.catalog.loadSchema node.tableId) loop.idxs loop.targets r.2.1 r.2.2).value? r.1).join =
        some w) : w ∈ node.writes db := by
  refine List.mem_filterMap.mpr ⟨(loop, r), ?_, hw⟩
  unfold InsertStatement.rounds
  rw [hsetup]
  exact List.mem_map_of_mem hr

theorem InsertStatement.tableId_of_mem_writes {node : InsertStatement} {db : Db} {w : Write}
    (hw : w ∈ node.writes db) : w.tableId = node.tableId := by
  obtain ⟨⟨loop, s, st, provided⟩, -, hw⟩ := List.mem_filterMap.mp hw
  obtain ⟨db', h⟩ := Exec.run_of_value?_join hw
  obtain ⟨found, s₁, -, hrest⟩ := Exec.run_bind_eq_ok.mp h
  rcases found with _ | ⟨c, exRid, exRow⟩
  · obtain ⟨_, s₂, -, hcheck⟩ := Exec.run_bind_eq_ok.mp hrest
    obtain ⟨_, s₃, -, hret⟩ := Exec.run_bind_eq_ok.mp hcheck
    cases hret
    rfl
  · simp only at hrest
    split at hrest
    · cases hrest
    · obtain ⟨_, s₂, -, hcheck⟩ := Exec.run_bind_eq_ok.mp hrest
      obtain ⟨_, s₃, -, hlock⟩ := Exec.run_bind_eq_ok.mp hcheck
      obtain ⟨_, s₄, -, hget⟩ := Exec.run_bind_eq_ok.mp hlock
      obtain ⟨_, s₅, -, hret⟩ := Exec.run_bind_eq_ok.mp hget
      cases hret
      rfl

/-! ## MODIFY -/

namespace Exec

variable (depth : Nat)

/-- A round of MODIFY up to its referential actions. -/
def updateActions (node : UpdateStatement) (ts : Option TableSchema)
    (row : RecordID × Tuple × Tuple) : Exec (Option Actions) := do
  let (rid, old, matched) := row
  lockInTxn rid true
  let new := assign old node.targetIndices node.values (old ++ matched)
  checkRow ts node.tableId new (some rid)
  let before ← get
  return ts.map fun ts =>
    { before, program := applyUpdateReferentialActions depth ts old new }

/-- A round of MODIFY up to the write. -/
def updateWrite (node : UpdateStatement) (ts : Option TableSchema) (schema : Schema)
    (idxs : List Index) (row : RecordID × Tuple × Tuple) : Exec Write := do
  let (rid, old, matched) := row
  lockInTxn rid true
  let new := assign old node.targetIndices node.values (old ++ matched)
  let checked ← get
  checkRow ts node.tableId new (some rid)
  if let some ts := ts then applyUpdateReferentialActions depth ts old new
  let before ← get
  return { checked, before, tableId := node.tableId, idxs, schema, replaced := some (rid, old), new }

theorem updateRow_eq (depth : Nat) (node : UpdateStatement) (ts : Option TableSchema)
    (schema : Schema) (idxs : List Index) (returned : List Tuple) (rid : RecordID)
    (old matched : Tuple) :
    updateRow depth node ts schema idxs returned (rid, old, matched) =
      let new := assign old node.targetIndices node.values (old ++ matched)
      Prog.bind (lockInTxn rid true) fun _ =>
        Prog.bind (checkRow ts node.tableId new (some rid)) fun _ =>
          Prog.bind (ts.elim (Prog.ret ()) fun ts => applyUpdateReferentialActions depth ts old new)
            fun _ => Prog.bind (rewriteRow node.tableId idxs rid old new schema true) fun _ =>
              Prog.ret (returned ++ [new]) := by
  cases ts <;> rfl

section

variable {depth : Nat} {node : UpdateStatement} {rid : RecordID} {old matched new : Tuple}
  {db s s' : Db}

theorem value?_updateActions {ts : TableSchema}
    (hlock : (lockInTxn rid true).run db = (.ok (), s))
    (hnew : assign old node.targetIndices node.values (old ++ matched) = new)
    (hcheck : (checkRow (some ts) node.tableId new (some rid)).run s = (.ok (), s)) :
    ((updateActions depth node (some ts) (rid, old, matched)).value? db).join =
      some ⟨s, applyUpdateReferentialActions depth ts old new⟩ := by
  subst hnew
  simp [updateActions, value?, hlock, hcheck, Except.toOption]

theorem value?_updateWrite {ts : Option TableSchema} {schema : Schema} {idxs : List Index}
    (hlock : (lockInTxn rid true).run db = (.ok (), s))
    (hnew : assign old node.targetIndices node.values (old ++ matched) = new)
    (hcheck : (checkRow ts node.tableId new (some rid)).run s = (.ok (), s))
    (hactions : Exec.run (ts.elim (Prog.ret ()) fun ts =>
      applyUpdateReferentialActions depth ts old new) s = (.ok (), s')) :
    (updateWrite depth node ts schema idxs (rid, old, matched)).value? db =
      some ⟨s, s', node.tableId, idxs, schema, some (rid, old), new⟩ := by
  subst hnew
  cases ts with
  | none =>
    cases hactions
    simp [updateWrite, value?, hlock, hcheck, Except.toOption]
  | some ts =>
    rw [Option.elim_some] at hactions
    simp [updateWrite, value?, hlock, hcheck, hactions, Except.toOption]

end

/-- The part of `visit(UpdateStatement)` before its loop. -/
def updateSetup (node : UpdateStatement) (catalog : Catalog) :
    Exec (List Index × List (RecordID × Tuple × Tuple)) := do
  let materialized ← materialize node.when?
  discardOutsideTxn
  let idxs := IndexManager.forTable (← get).indexes node.tableId
  return (idxs, ← updateRows node catalog materialized)

theorem run_updateSetup {node : UpdateStatement} {catalog : Catalog} {e : Option Expression}
    {rows : List (RecordID × Tuple × Tuple)} {db s s' : Db}
    (hprepare : (materialize node.when?).run db = (.ok e, s))
    (hrows : (updateRows node catalog e).run s.discardOutsideTxn = (.ok rows, s')) :
    (updateSetup node catalog).run db =
      (.ok (s.discardOutsideTxn.indexes.forTable node.tableId, rows), s') := by
  simp [updateSetup, hprepare, run_discardOutsideTxn, hrows]

end Exec

/-- The rounds of a MODIFY that are begun. -/
def UpdateStatement.rounds (depth : Nat) (node : UpdateStatement) (db : Db) :
    List (List Index × Db × List Tuple × RecordID × Tuple × Tuple) :=
  let ts := db.catalog.getTableById node.tableId
  let schema := db.catalog.loadSchema node.tableId
  match (Exec.updateSetup node db.catalog).run db with
  | (.ok (idxs, rows), db') => (Prog.rounds (fun (c : Call) db => c.apply db)
      (Exec.updateRow depth node ts schema idxs) rows [] db').map fun r => (idxs, r)
  | (.error _, _) => []

def UpdateStatement.actions (depth : Nat) (node : UpdateStatement) (db : Db) : List Actions :=
  let ts := db.catalog.getTableById node.tableId
  (node.rounds depth db).filterMap fun (_, s, _, row) =>
    ((Exec.updateActions depth node ts row).value? s).join

/-- The rows that a MODIFY writes itself. -/
def UpdateStatement.writes (depth : Nat) (node : UpdateStatement) (db : Db) : List Write :=
  let ts := db.catalog.getTableById node.tableId
  let schema := db.catalog.loadSchema node.tableId
  (node.rounds depth db).filterMap fun (idxs, s, _, row) =>
    (Exec.updateWrite depth node ts schema idxs row).value? s

section

variable {depth : Nat} {node : UpdateStatement} {db s : Db} {idxs : List Index}
  {rows : List (RecordID × Tuple × Tuple)} {r : Db × List Tuple × RecordID × Tuple × Tuple}

theorem UpdateStatement.mem_rounds
    (hsetup : (Exec.updateSetup node db.catalog).run db = (.ok (idxs, rows), s))
    (hr : r ∈ Prog.rounds (fun (c : Call) db => c.apply db)
      (Exec.updateRow depth node (db.catalog.getTableById node.tableId)
        (db.catalog.loadSchema node.tableId) idxs) rows [] s) :
    (idxs, r) ∈ node.rounds depth db := by
  unfold UpdateStatement.rounds
  rw [hsetup]
  exact List.mem_map_of_mem hr

theorem UpdateStatement.mem_actions (hr : (idxs, r) ∈ node.rounds depth db) {a : Actions}
    (ha : ((Exec.updateActions depth node (db.catalog.getTableById node.tableId)
      r.2.2).value? r.1).join = some a) : a ∈ node.actions depth db :=
  List.mem_filterMap.mpr ⟨(idxs, r), hr, ha⟩

theorem UpdateStatement.mem_writes (hr : (idxs, r) ∈ node.rounds depth db) {w : Write}
    (hw : (Exec.updateWrite depth node (db.catalog.getTableById node.tableId)
      (db.catalog.loadSchema node.tableId) idxs r.2.2).value? r.1 = some w) :
    w ∈ node.writes depth db :=
  List.mem_filterMap.mpr ⟨(idxs, r), hr, hw⟩

end

namespace Exec

/-! ## The answers -/

theorem returned_insertProvided {node : InsertStatement} {ts : Option TableSchema}
    {schema : Schema} {idxs : List Index} {targets : List Nat} {st st' : InsertState}
    {provided : Tuple} {s s' : Db}
    (h : (insertProvided node ts schema idxs targets st provided).run s = (.ok st', s')) :
    st'.returned = st.returned ++
      (((insertWrite node ts schema idxs targets st provided).value? s).join.map Write.new).toList := by
  rw [insertProvided_eq] at h
  obtain ⟨found, s₁, hfound, hrest⟩ := run_bind_eq_ok.mp h
  clear h
  obtain rfl := (readOnly_findConflict _ _ _ _).eq_of_run hfound
  rcases found with _ | ⟨c, exRid, exRow⟩
  · obtain ⟨_, s₂, hcheck, hinsert⟩ := run_bind_eq_ok.mp hrest
    clear hrest
    obtain rfl := (readOnly_checkRow _ _ _ _).eq_of_run hcheck
    obtain ⟨_, s₃, -, hret⟩ := run_bind_eq_ok.mp hinsert
    cases hret
    rw [value?_insertWrite_new rfl hfound hcheck]
    rfl
  · simp only at hrest
    split at hrest
    · rename_i hdo
      cases hrest
      have hnone : (insertWrite node ts schema idxs targets st provided).value? s' = some none := by
        simp [insertWrite, value?, hfound, hdo, Except.toOption]
      rw [hnone]
      simp
    · rename_i hdo
      obtain ⟨_, s₂, hcheck, hwrite⟩ := run_bind_eq_ok.mp hrest
      clear hrest
      obtain rfl := (readOnly_checkRow _ _ _ _).eq_of_run hcheck
      obtain ⟨_, s₃, hlock, hrewrite⟩ := run_bind_eq_ok.mp hwrite
      obtain ⟨_, s₄, -, hret⟩ := run_bind_eq_ok.mp hrewrite
      cases hret
      rw [value?_insertWrite_upsert rfl hfound (by simpa using hdo) rfl hcheck hlock]
      rfl

theorem returned_updateRow {depth : Nat} {node : UpdateStatement} {ts : Option TableSchema}
    {schema : Schema} {idxs : List Index} {returned returned' : List Tuple}
    {row : RecordID × Tuple × Tuple} {s s' : Db}
    (h : (updateRow depth node ts schema idxs returned row).run s = (.ok returned', s')) :
    returned' = returned ++
      (((updateWrite depth node ts schema idxs row).value? s).map Write.new).toList := by
  obtain ⟨rid, old, matched⟩ := row
  rw [updateRow_eq] at h
  obtain ⟨_, s₁, hlock, hchecked⟩ := run_bind_eq_ok.mp h
  obtain ⟨_, s₂, hcheck, hrest⟩ := run_bind_eq_ok.mp hchecked
  clear h hchecked
  obtain rfl := (readOnly_checkRow _ _ _ _).eq_of_run hcheck
  obtain ⟨_, s₃, hactions, hrewrite⟩ := run_bind_eq_ok.mp hrest
  obtain ⟨_, s₄, -, hret⟩ := run_bind_eq_ok.mp hrewrite
  cases hret
  rw [value?_updateWrite hlock rfl hcheck hactions]
  rfl

/-- An autocommit statement that returns has prepared itself, and then run its body. -/
theorem autocommit_ok {α β : Type} {prepare : Exec α} {body : α → Exec β} {db db' : Db} {b : β}
    (h : (autocommit prepare body).run db = (.ok b, db')) :
    ∃ a s s', prepare.run db = (.ok a, s) ∧ (body a).run s.discardOutsideTxn = (.ok b, s') ∧
      db' = s'.commitOutsideTxn := by
  unfold autocommit at h
  obtain ⟨a, s, hprepare, h₁⟩ := run_bind_eq_ok.mp h
  obtain ⟨_, s₁, hdiscard, h₂⟩ := run_bind_eq_ok.mp h₁
  cases (run_discardOutsideTxn s).symm.trans hdiscard
  obtain ⟨b', s₂, hbody, h₃⟩ := run_bind_eq_ok.mp h₂
  obtain ⟨_, s₃, hcommit, h₄⟩ := run_bind_eq_ok.mp h₃
  cases (run_commitOutsideTxn s₂).symm.trans hcommit
  cases h₄
  exact ⟨a, s, s₂, hprepare, hbody, rfl⟩

/-- What `insertRows` returns. -/
theorem returned_insertRows {node : InsertStatement} {returned : List Tuple} {db s : Db}
    (h : (insertRows node db.catalog).run db.discardOutsideTxn = (.ok returned, s)) :
    returned = (node.writes db).map Write.new := by
  rw [insertRows_eq] at h
  obtain ⟨loop, s₁, hsetup, hloop⟩ := run_bind_eq_ok.mp h
  obtain ⟨st, s₂, hfold, hret⟩ := run_bind_eq_ok.mp hloop
  cases hret
  have hcollected := Prog.collected_foldlM _ InsertState.returned (fun r =>
    ((insertWrite node (db.catalog.getTableById node.tableId) (db.catalog.loadSchema node.tableId)
      loop.idxs loop.targets r.2.1 r.2.2).value? r.1).join.map Write.new)
    (fun _ _ _ _ _ h => returned_insertProvided h) _ hfold
  rw [hcollected, InsertStatement.writes, InsertStatement.rounds, hsetup]
  simp [List.map_filterMap, List.filterMap_map]

/-- A PUT that returns answers the rows that it wrote. -/
theorem answer_visitInsert {node : InsertStatement} {rs : ResultSet} {db db' : Db}
    (h : (visitInsert node).run db = (.ok rs, db')) :
    rs = result (db.catalog.getTableById node.tableId) node.returningStar node.returning
      ((node.writes db).map Write.new) ("PUT 0 " ++ toString (node.writes db).length) := by
  obtain ⟨_, _, hget, hrest⟩ := run_bind_eq_ok.mp h
  cases hget
  obtain ⟨returned, db₂, hbody, hret⟩ := run_bind_eq_ok.mp hrest
  cases hret
  obtain ⟨_, s, s', hprepare, hrows, rfl⟩ := autocommit_ok hbody
  cases hprepare
  rw [returned_insertRows hrows, List.length_map]

/-- A MODIFY that returns answers the rows that it wrote. -/
theorem answer_visitUpdate {depth : Nat} {node : UpdateStatement} {rs : ResultSet} {db db' : Db}
    (h : (visitUpdate depth node).run db = (.ok rs, db')) :
    rs = result (db.catalog.getTableById node.tableId) node.returningStar node.returning
      ((node.writes depth db).map Write.new)
      ("MODIFY " ++ toString (node.writes depth db).length) := by
  obtain ⟨_, _, hget, hrest⟩ := run_bind_eq_ok.mp h
  cases hget
  obtain ⟨returned, db₂, hbody, hret⟩ := run_bind_eq_ok.mp hrest
  cases hret
  obtain ⟨e, s, s', hprepare, hmodify, rfl⟩ := autocommit_ok hbody
  obtain ⟨_, _, hget, hrows⟩ := run_bind_eq_ok.mp hmodify
  cases hget
  obtain ⟨rows, s₁, hupdate, hfold⟩ := run_bind_eq_ok.mp hrows
  have hcollected := Prog.collected_foldlM _ id (fun r =>
    ((updateWrite depth node (db.catalog.getTableById node.tableId)
      (db.catalog.loadSchema node.tableId)
      (s.discardOutsideTxn.indexes.forTable node.tableId) r.2.2).value? r.1).map Write.new)
    (fun _ _ _ _ _ h => returned_updateRow h) _ hfold
  have hwrites : (node.writes depth db).map Write.new = returned := by
    rw [UpdateStatement.writes, UpdateStatement.rounds, run_updateSetup hprepare hupdate]
    refine Eq.trans ?_ (hcollected.trans (List.nil_append _)).symm
    simp [List.map_filterMap, List.filterMap_map]
  rw [← hwrites, List.length_map]

end Exec

/-- The rows that a statement writes itself. -/
def Statement.writes (depth : Nat) (db : Db) : Statement → List Write
  | insert node => node.writes db
  | delete _ => []
  | update node => node.writes depth db

end Relite.Vm
