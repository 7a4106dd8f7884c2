import Relite.Txn.Settled
import Relite.Vm.Balance
import Relite.Vm.Ddl
import Relite.Vm.Session

/-!
# What a client is told has happened

`DB::connect` writes the pages and the catalog to disk after a statement outside a
transaction, unless the statement answers rows. What a crash leaves is then read back
through the log, which still holds what transactions did since it was last emptied.
-/
namespace Relite.Frontend
open Lib Backend Vm Txn Semantic

inductive ASTNode
  | change (s : Statement)
  | transaction (kind : TransactionKind)
  | create (node : CreateStatement)
  | createIdx (node : CreateIdxStatement)
  | drop (node : DropStatement)
  | alter (node : AlterStatement)
  | select (q : Query ResultSet)

/-- A PUT, MODIFY or REMOVE. -/
def ASTNode.changes : ASTNode → Bool
  | change _ => true
  | _ => false

/-- `ExecutorEngine::run`. -/
def ASTNode.run (depth : Nat) (engine : Db) : ASTNode → Except String ResultSet × Db
  | change s => (s.exec depth).run engine
  | transaction kind =>
    let (engine, message) := engine.visitTransaction kind
    (.ok { message }, engine)
  | create node => (Exec.visitCreate node).run engine
  | createIdx node => (Exec.visitCreateIdx node).run engine
  | drop node => (Exec.visitDrop node).run engine
  | alter node => (Exec.visitAlter node).run engine
  | select q => (Exec.query q).run engine

/-- The pages as they are in the data file, and those that are newer in memory. -/
structure Pool where
  disk : Int → Page
  dirty : Int → Bool

/-- A database with its files. -/
structure DB where
  engine : Db
  pool : Pool
  metaFile : List (TableId × List Int)

/-- A statement, the catalog after its analysis, and what the buffer pool has written back
by the end of it. -/
structure Request where
  stmt : ASTNode
  catalog : Catalog
  pool : Pool

namespace DB

def kCheckpointRecords : Nat := 256

def flush (s : DB) : DB :=
  { s with pool := {
      disk := fun pid => if s.pool.dirty pid then s.engine.tables.page pid else s.pool.disk pid
      dirty := fun _ => false } }

def saveCatalog (s : DB) : DB :=
  { s with metaFile := s.engine.catalog.tables.map fun ts =>
      (ts.tableId, s.engine.tables.pageList ts.tableId) }

def checkpoint (s : DB) : DB :=
  if kCheckpointRecords ≤ s.engine.wal.pendingRecords then
    { s with engine := { s.engine with wal := s.engine.wal.reset } }
  else s

/-- The engine that a statement runs on. -/
def analyzed (s : DB) (r : Request) : Db := { s.engine with catalog := r.catalog }

/-- `DB::connect`, from the analysis of the statement on. -/
def connect (depth : Nat) (s : DB) (r : Request) : DB × Except String ResultSet :=
  let (outcome, engine) := r.stmt.run depth (s.analyzed r)
  let s : DB := { s with engine := engine, pool := r.pool }
  match outcome with
  | .ok rs =>
    if !rs.isQuery && engine.currentTxn == 0 then (s.flush.saveCatalog.checkpoint, .ok rs)
    else (s, .ok rs)
  | .error message => (s, .error message)

def next (depth : Nat) (s : DB) (r : Request) : DB := (s.connect depth r).1

/-- The tables of the data file and the meta file. -/
def image (s : DB) : TableManager where
  pool := ⟨s.pool.disk, s.engine.tables.pool.numPages⟩
  pages t := s.metaFile.lookup t
  pageFree _ := none

/-- The tables after a crash, as the constructor of `DB` rebuilds them. -/
def recovered (s : DB) : TableManager := recover s.engine.wal.readAll s.image

def tableIds (s : DB) : List TableId := s.engine.catalog.tables.map TableSchema.tableId

/-- A crash loses and brings back nothing. -/
def Durable (s : DB) : Prop :=
  ∀ t ∈ s.tableIds, s.recovered.rows t = s.engine.tables.rows t

instance (s : DB) : Decidable s.Durable := by unfold Durable; infer_instance

/-- The client is told that a PUT, MODIFY or REMOVE is done, and no transaction is open. -/
def Acknowledges (depth : Nat) (s : DB) (r : Request) : Prop :=
  r.stmt.changes ∧ (s.connect depth r).2.isOk ∧ (s.next depth r).engine.currentTxn = 0

instance (depth : Nat) (s : DB) (r : Request) : Decidable (s.Acknowledges depth r) := by
  unfold Acknowledges; infer_instance

/-- The pool has written a page back unless it holds it dirty. -/
def Possible (depth : Nat) (s : DB) (r : Request) : Prop :=
  ∀ pid, r.pool.dirty pid = false →
    r.pool.disk pid = (r.stmt.run depth (s.analyzed r)).2.tables.page pid

/-- The files hold all pages and page lists of memory. -/
structure OnDisk (s : DB) : Prop where
  page : ∀ pid, s.pool.disk pid = s.engine.tables.page pid
  lists : s.metaFile = s.saveCatalog.metaFile

/-- The log says of no record id anything else than what is there, and recovery can put
back what it says. -/
structure LogAgrees (s : DB) : Prop where
  settled : SettledLog s.engine.wal.readAll s.tableIds s.image
  noneSkipped : NoneSkipped s.engine.wal.readAll s.image
  findsRoom : FindsRoom s.engine.wal.readAll s.image

instance (s : DB) : Decidable s.LogAgrees :=
  decidable_of_iff (_ ∧ _ ∧ _)
    ⟨fun ⟨settled, noneSkipped, findsRoom⟩ => ⟨settled, noneSkipped, findsRoom⟩,
      fun h => ⟨h.1, h.2, h.3⟩⟩

end DB

/-! ## What every statement keeps -/

/-- The tables and the log of a running database. -/
structure Sane (engine : Db) : Prop where
  tables : engine.tables.WF
  wal : engine.wal.WF

theorem Sane.apply {engine : Db} (h : Sane engine) (c : Call) : Sane (c.apply engine).1 := by
  cases c with
  | updateTuple t rid bytes =>
    refine ⟨?_, h.wal⟩
    change (engine.tables.updateTuple t rid bytes).1.WF
    unfold TableManager.updateTuple
    split
    · rename_i page hup
      exact ⟨(h.tables.toSound.overwrite hup).1, h.tables.nodup, h.tables.disjoint⟩
    · exact ((h.tables.eraseTuple rid).1.insertTuple rfl).1
  | logInsert | logDelete => exact ⟨h.tables, h.wal.append _⟩
  | insertTuple | eraseTuple | truncateTable | dropTable | registerTable =>
    exact ⟨(Call.balance h.tables (by trivial) 0).1, h.wal⟩
  | _ => exact ⟨h.tables, h.wal⟩

theorem Sane.run {α : Type} {engine : Db} (h : Sane engine) (x : Exec α) : Sane (x.run engine).2 :=
  Prog.All.run_inv (fun _ c h _ => h.apply c) h
    (P := fun _ _ => True) fun _ _ => trivial

theorem Sane.runUndo {engine : Db} (h : Sane engine) (undo : List UndoClosure) :
    Sane (engine.runUndo undo) := by
  unfold Db.runUndo
  induction undo.reverse generalizing engine with
  | nil => exact h
  | cons u l ih =>
    refine ih ⟨?_, by cases u <;> exact h.wal⟩
    cases u with
    | insert _ t rid => exact (h.tables.eraseTuple rid).1
    | delete t bytes _ => exact (h.tables.insertTuple rfl).1
    | update t nr oldBytes _ _ => exact ((h.tables.eraseTuple nr).1.insertTuple rfl).1

theorem Sane.visitTransaction {engine : Db} (h : Sane engine) (kind : TransactionKind) :
    Sane (engine.visitTransaction kind).1 := by
  cases kind with
  | Begin =>
    simp only [Db.visitTransaction]
    split
    · exact h
    · exact ⟨h.tables, h.wal.append _⟩
  | Commit =>
    simp only [Db.visitTransaction, Db.commit]
    split
    · exact h
    · split
      · exact ⟨h.tables, h.wal⟩
      · exact ⟨h.tables, h.wal.append _⟩
  | Rollback =>
    simp only [Db.visitTransaction, Db.rollback]
    split
    · exact h
    · split
      · exact ⟨h.tables, h.wal⟩
      · rename_i undo _
        exact ⟨(h.runUndo undo).tables, (h.runUndo undo).wal.append _⟩

theorem Sane.node {engine : Db} (h : Sane engine) (depth : Nat) (stmt : ASTNode) :
    Sane (stmt.run depth engine).2 := by
  cases stmt with
  | transaction kind => exact h.visitTransaction kind
  | _ => exact h.run _

namespace DB

theorem sane_connect {depth : Nat} {s : DB} (h : Sane s.engine) (r : Request) :
    Sane (s.next depth r).engine := by
  have hanalyzed : Sane (s.analyzed r) := ⟨h.tables, h.wal⟩
  have hnode : Sane (r.stmt.run depth (s.analyzed r)).2 := hanalyzed.node depth r.stmt
  unfold next connect
  generalize r.stmt.run depth (s.analyzed r) = out at hnode
  obtain ⟨outcome, engine⟩ := out
  cases outcome with
  | error message => exact hnode
  | ok rs =>
    simp only
    split
    · simp only [checkpoint, saveCatalog, flush]
      split
      · exact ⟨hnode.tables, WriteAheadLog.wf_empty⟩
      · exact hnode
    · exact hnode

end DB

/-! ## What is on disk -/

theorem lookup_map_eq (l : List TableSchema) (f : TableId → List Int) (t : TableId) :
    (l.map fun ts => (ts.tableId, f ts.tableId)).lookup t =
      if t ∈ l.map TableSchema.tableId then some (f t) else none := by
  induction l with
  | nil => rfl
  | cons ts l ih =>
    rw [List.map_cons, List.lookup_cons, List.map_cons]
    by_cases ht : t = ts.tableId
    · simp [ht]
    · have hne : (t == ts.tableId) = false := by simpa using ht
      simp [hne, ht, ih]

namespace DB

variable {s : DB}

theorem OnDisk.pageList_image (h : s.OnDisk) (t : TableId) :
    s.image.pageList t = if t ∈ s.tableIds then s.engine.tables.pageList t else [] := by
  unfold TableManager.pageList image
  rw [h.lists]
  simp only [saveCatalog]
  rw [lookup_map_eq _ s.engine.tables.pageList]
  unfold tableIds
  split
  · rfl
  · rfl

theorem OnDisk.page_image (h : s.OnDisk) (pid : Int) :
    s.image.page pid = s.engine.tables.page pid := h.page pid

theorem OnDisk.sound_image (h : s.OnDisk) (hsane : Sane s.engine) : s.image.Sound where
  pageOk pid := by rw [h.page_image]; exact hsane.tables.pageOk pid
  bound t pid hmem := by
    rw [h.pageList_image] at hmem
    split at hmem
    · exact hsane.tables.bound t pid hmem
    · cases hmem
  empty pid hpid := by rw [h.page_image]; exact hsane.tables.empty pid hpid

/-- The files hold the rows of memory. -/
theorem OnDisk.rows_image (h : s.OnDisk) (hsane : Sane s.engine) {t : TableId}
    (ht : t ∈ s.tableIds) : (s.image.pageList t).Nodup ∧
      s.image.rows t = s.engine.tables.rows t := by
  have hlist : s.image.pageList t = s.engine.tables.pageList t := by
    rw [h.pageList_image, if_pos ht]
  have hnodup := hsane.tables.nodup t
  refine ⟨hlist ▸ hnodup, ?_⟩
  have hheap : s.image.heap t = s.engine.tables.heap t := by
    funext rid
    simp only [TableManager.heap, TableManager.getTuple, hlist, h.page_image]
  exact Multiset.coe_eq_coe.mpr
    ((TableManager.tuples_perm (hlist ▸ hnodup) hnodup hheap).map Prod.snd)

/-- What the files hold of the tables comes back, if the log agrees with it. -/
theorem OnDisk.durable (h : s.OnDisk) (hsane : Sane s.engine) (hlog : s.LogAgrees) :
    s.Durable := by
  intro t ht
  obtain ⟨hnodup, hrows⟩ := h.rows_image hsane ht
  exact (hlog.settled.rows_recover (h.sound_image hsane) hsane.wal.sorted hlog.noneSkipped
    hlog.findsRoom ht hnodup).trans hrows

/-- After a statement outside a transaction that answers no rows, all is on disk. -/
theorem onDisk_connect {depth : Nat} {r : Request} (hp : s.Possible depth r) {rs : ResultSet}
    {engine : Db} (hrun : r.stmt.run depth (s.analyzed r) = (.ok rs, engine))
    (hquery : rs.isQuery = false) (hout : engine.currentTxn = 0) : (s.next depth r).OnDisk := by
  have hnext : s.next depth r = (flush { s with engine, pool := r.pool }).saveCatalog.checkpoint := by
    simp [next, connect, hrun, hquery, hout]
  have hflushed : ∀ pid, (if r.pool.dirty pid then engine.tables.page pid else r.pool.disk pid) =
      engine.tables.page pid := by
    intro pid
    cases hd : r.pool.dirty pid with
    | true => rfl
    | false =>
      have hdisk := hp pid hd
      rw [hrun] at hdisk
      exact hdisk
  rw [hnext]
  unfold checkpoint
  split
  · exact ⟨hflushed, rfl⟩
  · exact ⟨hflushed, rfl⟩

end DB

/-- A PUT, MODIFY or REMOVE with a RETURNING clause. -/
def ASTNode.returning : ASTNode → Bool
  | change (.insert node) => node.returningStar || !node.returning.isEmpty
  | change (.delete node) => node.returningStar || !node.returning.isEmpty
  | change (.update node) => node.returningStar || !node.returning.isEmpty
  | _ => false

theorem isQuery_result (ts : Option TableSchema) (returningStar : Bool) (returning : List Nat)
    (returned : List Tuple) (message : String) :
    (Exec.result ts returningStar returning returned message).isQuery =
      (returningStar || !returning.isEmpty) := by
  unfold Exec.result
  split
  · rename_i h
    exact h.symm
  · rename_i h
    exact (Bool.not_eq_true _ ▸ h).symm

/-- Only a statement with a RETURNING clause answers rows. -/
theorem isQuery_of_run {depth : Nat} {statement : Statement} {engine engine' : Db} {rs : ResultSet}
    (h : (statement.exec depth).run engine = (.ok rs, engine')) :
    rs.isQuery = (ASTNode.change statement).returning := by
  cases statement with
  | insert node | delete node | update node =>
    obtain ⟨_, _, -, h⟩ := Exec.run_bind_eq_ok.mp h
    obtain ⟨_, _, -, h⟩ := Exec.run_bind_eq_ok.mp h
    cases h
    exact isQuery_result _ _ _ _ _

namespace DB

/-- What keeps an acknowledged statement: it has no RETURNING clause, or has left nothing in
memory only, and the log agrees with what is on disk. -/
def Kept (depth : Nat) (s : DB) (r : Request) : Prop :=
  (r.stmt.returning → (s.next depth r).OnDisk) ∧ (s.next depth r).LogAgrees

theorem durable_connect (depth : Nat) {s : DB} {r : Request} (h : Sane s.engine)
    (hp : s.Possible depth r) (hack : s.Acknowledges depth r) (hkept : s.Kept depth r) :
    (s.next depth r).Durable := by
  obtain ⟨hchanges, hok, hout⟩ := hack
  obtain ⟨statement, hstmt⟩ : ∃ statement, r.stmt = .change statement := by
    revert hchanges
    cases r.stmt with
    | change statement => exact fun _ => ⟨statement, rfl⟩
    | _ => exact fun h => (by cases h)
  refine OnDisk.durable ?_ (sane_connect h r) hkept.2
  cases hret : r.stmt.returning with
  | true => exact hkept.1 hret
  | false =>
    generalize hrun : r.stmt.run depth (s.analyzed r) = out
    obtain ⟨outcome, engine⟩ := out
    cases outcome with
    | error message =>
      simp [connect, hrun, Except.isOk, Except.toBool] at hok
    | ok rs =>
      have hquery : rs.isQuery = false := by
        rw [hstmt] at hrun hret
        rw [← hret]
        exact isQuery_of_run hrun
      refine onDisk_connect hp hrun hquery ?_
      have hengine : (s.next depth r).engine.currentTxn = engine.currentTxn := by
        simp only [next, connect, hrun]
        split
        · simp only [checkpoint, saveCatalog, flush]
          split <;> rfl
        · rfl
      exact hengine ▸ hout

/-- Whatever a session sends, an acknowledged PUT, MODIFY or REMOVE outside a transaction
survives a crash right after it, if it is kept. -/
theorem durable_run (depth : Nat) {s : DB} (h : Sane s.engine) {requests : List Request}
    (hrun : AllSteps (next depth)
      (fun s r => s.Possible depth r ∧ (s.Acknowledges depth r → s.Kept depth r)) s requests) :
    AllSteps (next depth) (fun s r => s.Acknowledges depth r → (s.next depth r).Durable) s
      requests :=
  @AllSteps.imp _ _ (next depth) (fun s => Sane s.engine) _ _ (fun _ r h _ => sane_connect h r)
    (fun _ r h hr hack => @durable_connect depth _ r h hr.1 hack (hr.2 hack)) _ h _ hrun

/-! ## Databases to try out -/

/-- A new database with one table. -/
def created : DB where
  engine := numbersDb
  pool := { disk := fun _ => .zero, dirty := fun _ => false }
  metaFile := [(1, [])]

/-- The statements one after the other, with a pool that never writes back by itself. -/
def script (s : DB) : List ASTNode → List Request
  | [] => []
  | stmt :: rest =>
    let r : Request :=
      { stmt, catalog := s.engine.catalog, pool := { s.pool with dirty := fun _ => true } }
    r :: script (s.next 1 r) rest

theorem sane_created : Sane created.engine := ⟨TableManager.wf_empty, WriteAheadLog.wf_empty⟩

def putReturning : ASTNode :=
  .change (.insert { tableId := 1, rows := [[fun _ => .int 1]], returningStar := true })

/-- A PUT after a transaction whose records are still in the log. -/
def putAfterSave : List ASTNode :=
  [.transaction .Begin, .change (.put [1]), .transaction .Commit, .change (.put [2])]

theorem kept_script {s : DB} {l : List ASTNode}
    (h : AllSteps (next 1) (fun s r => s.Acknowledges 1 r →
      r.stmt.returning = false ∧ (s.next 1 r).LogAgrees) s (s.script l)) :
    AllSteps (next 1) (fun s r => s.Possible 1 r ∧ (s.Acknowledges 1 r → s.Kept 1 r)) s
      (s.script l) := by
  induction l generalizing s with
  | nil => trivial
  | cons stmt l ih =>
    refine ⟨⟨fun _ h => (by cases h), fun hack => ?_⟩, ih h.2⟩
    obtain ⟨hret, hlog⟩ := h.1 hack
    exact ⟨fun h => absurd (hret.symm.trans h) Bool.false_ne_true, hlog⟩

theorem durable_putAfterSave :
    AllSteps (next 1) (fun s r => s.Acknowledges 1 r → (s.next 1 r).Durable) created
      (created.script putAfterSave) :=
  durable_run 1 sane_created (kept_script (by decide +kernel))

/-- A PUT with RETURNING is acknowledged, but nothing is written. -/
theorem not_durable_putReturning :
    AllSteps (next 1) (Possible 1) created (created.script [putReturning]) ∧
      ¬AllSteps (next 1) (fun s r => s.Acknowledges 1 r → (s.next 1 r).Durable) created
        (created.script [putReturning]) :=
  ⟨⟨fun _ h => (by cases h), trivial⟩, by decide +kernel⟩

end DB

end Relite.Frontend
