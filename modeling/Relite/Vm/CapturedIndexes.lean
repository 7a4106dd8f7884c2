import Relite.Lib.Run
import Relite.Vm.Ddl
import Relite.Vm.Handed

/-!
# The indexes that undo closures capture

An undo closure holds the indexes of its table as objects, and runs when the transaction
ends. DISCARD and RESHAPE free index objects and tables in between, without a look at the
closures. An object is told from a later one of the same name by how many indexes of that
name are gone.
-/
namespace Relite.Vm
open Lib Semantic

namespace UndoClosure

def indexNames : UndoClosure → List String
  | insert idxKeys _ _ | delete _ _ idxKeys => idxKeys.map Prod.fst
  | update _ _ _ oldKeys newKeys => oldKeys.map Prod.fst ++ newKeys.map Prod.fst

def tableId : UndoClosure → TableId
  | insert _ t _ | delete t _ _ | update t _ _ _ _ => t

end UndoClosure

/-- How many indexes of each name are gone, and the closures of the transaction, each with
these counts at the time it was registered. -/
structure Objects where
  freed : String → Nat := fun _ => 0
  closures : List (UndoClosure × (String → Nat)) := []

namespace Objects

/-- The indexes of these names go. -/
def free (o : Objects) (names : List String) : Objects :=
  { o with freed := fun name => if name ∈ names then o.freed name + 1 else o.freed name }

/-- What a call frees and what it captures. -/
def note (db : Db) (c : Call) (o : Objects) : Objects :=
  match c with
  | .registerUndo u => { o with closures := o.closures ++ [(u, o.freed)] }
  | .dropIndex name => o.free ((db.indexes.filter fun idx => idx.name = name).map Index.name)
  | .dropIndexes t => o.free ((db.indexes.forTable t).map Index.name)
  | _ => o

end Objects

/-- Each index that a closure captured is still there, as the same object, and so is the
table that it writes to. -/
structure Alive (db : Db) (o : Objects) : Prop where
  indexes : ∀ c ∈ o.closures, ∀ name ∈ c.1.indexNames,
    (name, c.1.tableId) ∈ db.indexes.shape ∧ o.freed name = c.2 name
  tables : ∀ c ∈ o.closures, (db.tables.pages c.1.tableId).isSome

/-! ## What PUT, MODIFY and REMOVE capture -/

/-- The indexes and the catalog that a statement on rows does not change. -/
def Fixed (shape : List (String × TableId)) (catalog : Catalog) (db : Db) : Prop :=
  db.indexes.shape = shape ∧ db.catalog = catalog

/-- The calls of statements on rows: what they capture are indexes of a table of the catalog. -/
def Captures (shape : List (String × TableId)) (catalog : Catalog) : Call → Prop
  | .registerUndo u => (∀ name ∈ u.indexNames, (name, u.tableId) ∈ shape) ∧
      u.tableId ∈ catalog.tables.map TableSchema.tableId
  | .truncateTable _ | .dropTable _ | .registerTable _ | .dropIndexes _ | .createIndex _ _ _
  | .dropIndex _ | .setCatalog _ => False
  | _ => True

section

variable {shape : List (String × TableId)} {catalog : Catalog}

theorem Fixed.apply (db : Db) (c : Call) (h : Fixed shape catalog db)
    (hc : Captures shape catalog c) : Fixed shape catalog (c.apply db).1 := by
  cases c with
  | indexAdd name key rid => exact ⟨(IndexManager.shape_add _ _ _ _).trans h.1, h.2⟩
  | indexRemove name key rid =>
    refine ⟨?_, h.2⟩
    simpa [IndexManager.shape_eq_map, Call.apply] using h.1
  | truncateTable | dropTable | registerTable | dropIndexes | createIndex | dropIndex
  | setCatalog => exact hc.elim
  | _ => exact h

namespace Exec

variable {α β : Type}

/-- The program captures only indexes of tables of the catalog. -/
def Capturing (shape : List (String × TableId)) (catalog : Catalog) (x : Exec α) : Prop :=
  Prog.Within (fun (c : Call) db => c.apply db) (Fixed shape catalog) (Captures shape catalog) x

/-- These are indexes of the table. -/
def Of (shape : List (String × TableId)) (t : TableId) (idxs : List Index) : Prop :=
  ∀ idx ∈ idxs, (idx.name, t) ∈ shape

variable {t : TableId} {idxs : List Index}

theorem of_forTable {db : Db} (h : Fixed shape catalog db) (t : TableId) :
    Of shape t (IndexManager.forTable db.indexes t) :=
  fun _ hidx => h.1 ▸ IndexManager.mem_shape hidx

theorem Capturing.bind {x : Exec α} {f : α → Exec β} (hx : Capturing shape catalog x)
    (hf : ∀ a, Capturing shape catalog (f a)) : Capturing shape catalog (Prog.bind x f) :=
  Prog.Within.bind Fixed.apply hx hf

theorem capturing_ret (a : α) : Capturing shape catalog (Prog.ret a : Exec α) := Prog.Within.ret a

theorem capturing_call {c : Call} (hc : Captures shape catalog c) :
    Capturing shape catalog (call c) :=
  Capturing.bind (Prog.Within.perform hc) fun _ => capturing_ret _

theorem Locking.capturing {x : Exec α} (h : Locking x) : Capturing shape catalog x :=
  Prog.Within.of_makes h fun _ ⟨_, _, hc⟩ => hc ▸ trivial

theorem ReadOnly.capturing {x : Exec α} (h : ReadOnly x) : Capturing shape catalog x :=
  h.locking.capturing

theorem capturing_addKeys (keys : List (String × Value)) (rid : RecordID) :
    Capturing shape catalog (addKeys keys rid) :=
  Prog.Within.forM Fixed.apply fun _ _ => capturing_call (by trivial)

theorem capturing_removeKeys (keys : List (String × Value)) (rid : RecordID) :
    Capturing shape catalog (removeKeys keys rid) :=
  Prog.Within.forM Fixed.apply fun _ _ => capturing_call (by trivial)

theorem coveredKeys_of (hidxs : Of shape t idxs) {width row : Tuple} {name : String}
    (h : name ∈ (coveredKeys idxs width row).map Prod.fst) : (name, t) ∈ shape := by
  obtain ⟨k, hk, rfl⟩ := List.mem_map.mp h
  obtain ⟨idx, hidx, rfl⟩ := List.mem_map.mp hk
  exact hidxs idx (List.mem_filter.mp hidx).1

variable (ht : t ∈ catalog.tables.map TableSchema.tableId) (hidxs : Of shape t idxs)
include ht hidxs

theorem capturing_insertRow (row : Tuple) (bytes : Bytes) :
    Capturing shape catalog (insertRow t idxs row bytes) := by
  refine Capturing.bind (Prog.Within.perform trivial) fun rid => ?_
  refine (capturing_addKeys _ _).bind fun _ => (capturing_call (by trivial)).bind fun _ => ?_
  refine readOnly_txnActive.capturing.bind fun active => ?_
  split
  · refine (locking_lockOrThrow _ _).capturing.bind fun _ => ?_
    refine (capturing_call (by trivial)).bind fun _ => ?_
    exact capturing_call (c := .registerUndo (.insert _ t _))
      ⟨fun name hname => coveredKeys_of hidxs hname, ht⟩
  · exact capturing_ret _

theorem capturing_eraseRow (rid : RecordID) (row : Tuple) (bytes : Bytes) (staged : Bool) :
    Capturing shape catalog (eraseRow t idxs rid row bytes staged) := by
  have hrest : Capturing shape catalog (Prog.bind (call (.eraseTuple rid)) fun _ =>
      if staged = true then call (.stageDelete t rid) else Prog.ret ()) := by
    refine (capturing_call (by trivial)).bind fun _ => ?_
    split
    · exact capturing_call (by trivial)
    · exact capturing_ret _
  refine (capturing_removeKeys _ _).bind fun _ => readOnly_txnActive.capturing.bind fun active => ?_
  dsimp only
  split
  · refine (capturing_call (by trivial)).bind fun _ => Capturing.bind ?_ fun _ => hrest
    exact capturing_call (c := .registerUndo (.delete t _ _))
      ⟨fun name hname => coveredKeys_of hidxs hname, ht⟩
  · exact hrest

theorem capturing_rewriteRow (rid : RecordID) (old new : Tuple) (schema : Schema)
    (staged : Bool) : Capturing shape catalog (rewriteRow t idxs rid old new schema staged) := by
  have hrest : ∀ nr, Capturing shape catalog (Prog.bind txnActive fun active =>
      if active = true then
        Prog.bind (call (.logDelete t rid (old.serialize schema))) fun _ =>
        Prog.bind (call (.logInsert t nr (new.serialize schema))) fun _ =>
          call (.registerUndo (.update t nr (old.serialize schema) (coveredKeys idxs old old)
            (coveredKeys idxs old new)))
      else Prog.ret ()) := by
    intro nr
    refine readOnly_txnActive.capturing.bind fun active => ?_
    split
    · refine (capturing_call (by trivial)).bind fun _ => ?_
      refine (capturing_call (by trivial)).bind fun _ => ?_
      refine capturing_call (c := .registerUndo (.update t _ _ _ _)) ⟨fun name hname => ?_, ht⟩
      exact (List.mem_append.mp hname).elim (coveredKeys_of hidxs) (coveredKeys_of hidxs)
    · exact capturing_ret _
  refine (capturing_removeKeys _ _).bind fun _ => ?_
  refine Capturing.bind (Prog.Within.perform trivial) fun nr => ?_
  refine (locking_lockInTxn _ _).capturing.bind fun _ => (capturing_addKeys _ _).bind fun _ => ?_
  dsimp only
  split
  · exact (capturing_call (by trivial)).bind fun _ => (capturing_call (by trivial)).bind fun _ =>
      hrest nr
  · exact hrest nr

omit ht hidxs

theorem capturing_onReferencing (child : TableSchema) (fk : ForeignKey) (value : Value)
    {act : List Index → List (RecordID × Tuple) → Exec Unit}
    (hact : ∀ cindexes found, Of shape child.tableId cindexes →
      Capturing shape catalog (act cindexes found)) :
    Capturing shape catalog (onReferencing child fk value act) := by
  refine Prog.Within.get_bind fun db hdb => ?_
  have hrows : ReadOnly (referencingRows child fk value) :=
    (readOnly_get.bind fun _ => readOnly_ret _).bind fun _ => readOnly_ofExcept _
  refine hrows.capturing.bind fun found => ?_
  split
  · exact capturing_ret _
  · exact hact _ _ (of_forTable hdb _)

/-- The loop of the referential actions over the foreign keys of all tables. -/
theorem capturing_forChildren {f : TableSchema → ForeignKey → Exec Unit}
    (hf : ∀ child ∈ catalog.tables, ∀ fk, Capturing shape catalog (f child fk)) :
    Capturing shape catalog (Prog.bind Exec.get fun db =>
      db.catalog.allTables.forM fun child => child.foreignKeys.forM (f child)) := by
  refine Prog.Within.get_bind fun db hdb => ?_
  rw [hdb.2]
  exact Prog.Within.forM Fixed.apply fun child hchild =>
    Prog.Within.forM Fixed.apply fun fk _ => hf child hchild fk

theorem capturing_applyReferentialActions (depth : Nat) (parent : TableSchema)
    (parentRow : Tuple) :
    Capturing shape catalog (applyReferentialActions depth parent parentRow) := by
  induction depth generalizing parent parentRow with
  | zero => exact (readOnly_throw _).capturing
  | succ depth ih =>
    refine capturing_forChildren fun child hchild fk => ?_
    have ht := List.mem_map_of_mem (f := TableSchema.tableId) hchild
    split
    · exact capturing_ret _
    · refine capturing_onReferencing _ _ _ fun cindexes found hidxs => ?_
      split
      · exact (readOnly_throw _).capturing
      · refine Prog.Within.forM Fixed.apply fun row _ => (ih _ _).bind fun _ => ?_
        exact (locking_lockInTxn _ _).capturing.bind fun _ =>
          capturing_eraseRow ht hidxs _ _ _ _
      · refine Prog.Within.forM Fixed.apply fun row _ => ?_
        exact (locking_lockInTxn _ _).capturing.bind fun _ =>
          capturing_rewriteRow ht hidxs _ _ _ _ _

theorem capturing_applyUpdateReferentialActions (depth : Nat) (parent : TableSchema)
    (oldParentRow newParentRow : Tuple) : Capturing shape catalog
      (applyUpdateReferentialActions depth parent oldParentRow newParentRow) := by
  induction depth generalizing parent oldParentRow newParentRow with
  | zero => exact (readOnly_throw _).capturing
  | succ depth ih =>
    refine capturing_forChildren fun child hchild fk => ?_
    have ht := List.mem_map_of_mem (f := TableSchema.tableId) hchild
    split
    · exact capturing_ret _
    · dsimp only
      split
      · exact capturing_ret _
      refine capturing_onReferencing _ _ _ fun cindexes found hidxs => ?_
      split
      · exact (readOnly_throw _).capturing
      · refine Prog.Within.forM Fixed.apply fun row _ => ?_
        have hwrite : ∀ value, Capturing shape catalog (Prog.bind (lockInTxn row.1 true) fun _ =>
            rewriteRow child.tableId cindexes row.1 row.2 (row.2.set fk.columnIndex.toNat value)
              child.schema true) := fun value =>
          (locking_lockInTxn _ _).capturing.bind fun _ => capturing_rewriteRow ht hidxs _ _ _ _ _
        split
        · exact (ih _ _ _).bind fun _ => hwrite _
        · exact hwrite _

/-! ### Statements -/

theorem capturing_autocommit {prepare : Exec α} {body : α → Exec β} (hprepare : Locking prepare)
    (hbody : ∀ a, Capturing shape catalog (body a)) :
    Capturing shape catalog (autocommit prepare body) := by
  refine hprepare.capturing.bind fun a => ?_
  have hpending : ∀ c : Call, (c = .discardPending ∨ c = .commitPending) →
      Capturing shape catalog (Prog.bind txnActive fun active =>
        if (!active) = true then call c else Prog.ret ()) := by
    intro c hc
    refine readOnly_txnActive.capturing.bind fun active => ?_
    split
    · rcases hc with rfl | rfl
      · exact capturing_call (by trivial)
      · exact capturing_call (by trivial)
    · exact capturing_ret _
  refine (hpending _ (.inl rfl)).bind fun _ => (hbody a).bind fun _ => ?_
  exact (hpending _ (.inr rfl)).bind fun _ => capturing_ret _

theorem capturing_insertProvided {node : InsertStatement}
    (ht : node.tableId ∈ catalog.tables.map TableSchema.tableId) {idxs : List Index}
    (hidxs : Of shape node.tableId idxs) (ts : Option TableSchema) (schema : Schema)
    (targets : List Nat) (st : InsertState) (provided : Tuple) :
    Capturing shape catalog (insertProvided node ts schema idxs targets st provided) := by
  unfold insertProvided
  generalize fillAuto st.autoNext (provide _ targets provided) = filled
  obtain ⟨autoNext, row⟩ := filled
  simp only
  refine (readOnly_findConflict _ _ _ _).capturing.bind fun found => ?_
  split
  · split
    · exact capturing_ret _
    refine (readOnly_checkRow _ _ _ _).capturing.bind fun _ => ?_
    refine (locking_lockInTxn _ _).capturing.bind fun _ => ?_
    exact (capturing_rewriteRow ht hidxs _ _ _ _ _).bind fun _ => capturing_ret _
  · refine (readOnly_checkRow _ _ _ _).capturing.bind fun _ => ?_
    exact (capturing_insertRow ht hidxs _ _).bind fun _ => capturing_ret _

theorem capturing_visitInsert {node : InsertStatement}
    (ht : node.tableId ∈ catalog.tables.map TableSchema.tableId) :
    Capturing shape catalog (visitInsert node) := by
  refine Prog.Within.get_bind fun db _ => Capturing.bind ?_ fun _ => capturing_ret _
  refine capturing_autocommit (readOnly_ret _).locking fun _ => ?_
  refine Prog.Within.get_bind fun db' hdb' => ?_
  refine (locking_providedRows node).capturing.bind fun rows => ?_
  refine (readOnly_autoNext _ _ _ _).capturing.bind fun autoNext => ?_
  refine Capturing.bind ?_ fun _ => capturing_ret _
  exact Prog.Within.foldlM Fixed.apply (fun st row =>
    capturing_insertProvided ht (of_forTable hdb' _) _ _ _ _ _) _ _

theorem locking_bindWhen {t : TableId} (w : Condition t) (materialized : Option Expression)
    (row : Tuple) : Locking (bindWhen w materialized row) := by
  unfold bindWhen
  split
  · exact locking_query _
  · exact (readOnly_ret _).locking

theorem locking_materialize {t : TableId} (when? : Option (Condition t)) :
    Locking (materialize when?) := by
  unfold materialize
  split
  · exact (readOnly_ret _).locking
  · exact (locking_query _).bind fun _ => (readOnly_ret _).locking

theorem locking_scanWhen {t : TableId} (schema : Schema) (when? : Option (Condition t))
    (materialized : Option Expression) : Locking (scanWhen t schema when? materialized) := by
  refine (readOnly_get.bind fun _ => readOnly_ret _).locking.bind fun rows => ?_
  refine Prog.Makes.foldlM (fun acc row => (readOnly_ofExcept _).locking.bind fun found => ?_) _ _
  split
  · exact (readOnly_ret _).locking
  · exact (locking_bindWhen _ _ _).bind fun _ => (readOnly_ret _).locking

theorem capturing_visitDelete (depth : Nat) {node : DeleteStatement}
    (ht : node.tableId ∈ catalog.tables.map TableSchema.tableId) :
    Capturing shape catalog (visitDelete depth node) := by
  refine Prog.Within.get_bind fun db _ => Capturing.bind ?_ fun _ => capturing_ret _
  refine capturing_autocommit (locking_materialize _) fun materialized => ?_
  refine Prog.Within.get_bind fun db' hdb' => ?_
  refine (locking_scanWhen _ _ _).capturing.bind fun victims => ?_
  have hrest : Capturing shape catalog (Prog.bind (victims.forM fun victim =>
      Prog.bind (lockInTxn victim.1 true) fun _ => eraseRow node.tableId
        (IndexManager.forTable db'.indexes node.tableId) victim.1 victim.2
        (victim.2.serialize (db.catalog.loadSchema node.tableId)) true)
      fun _ => Prog.ret victims) := by
    refine Capturing.bind (Prog.Within.forM Fixed.apply fun victim _ => ?_) fun _ =>
      capturing_ret _
    exact (locking_lockInTxn _ _).capturing.bind fun _ =>
      capturing_eraseRow ht (of_forTable hdb' _) _ _ _ _
  dsimp only
  split
  · refine Capturing.bind (Prog.Within.forM Fixed.apply fun victim _ => ?_) fun _ => hrest
    exact capturing_applyReferentialActions _ _ _
  · exact hrest

theorem locking_gatherWhen {t : TableId} (schema : Schema) (when? : Option (Condition t))
    (materialized : Option Expression) : Locking (gatherWhen schema when? materialized) := by
  unfold gatherWhen
  split
  · exact locking_gatherRows _ _ _
  split
  · refine (locking_gatherRows _ _ _).bind fun rows => Prog.Makes.foldlM (fun acc row => ?_) _ _
    exact (locking_bindWhen _ _ _).bind fun _ => (readOnly_ret _).locking
  · exact locking_gatherRows _ _ _

theorem locking_updateRows (node : UpdateStatement) (c : Catalog)
    (materialized : Option Expression) : Locking (updateRows node c materialized) := by
  unfold updateRows
  dsimp only
  split
  · exact (locking_gatherRows _ _ _).bind fun _ => (locking_gatherRows _ _ _).bind fun _ =>
      (readOnly_ret _).locking
  · exact (locking_gatherWhen _ _ _).bind fun _ => (readOnly_ret _).locking

theorem capturing_updateRow (depth : Nat) {node : UpdateStatement}
    (ht : node.tableId ∈ catalog.tables.map TableSchema.tableId) {idxs : List Index}
    (hidxs : Of shape node.tableId idxs) (ts : Option TableSchema) (schema : Schema)
    (returned : List Tuple) (row : RecordID × Tuple × Tuple) :
    Capturing shape catalog (updateRow depth node ts schema idxs returned row) := by
  obtain ⟨rid, old, matched⟩ := row
  refine (locking_lockInTxn _ _).capturing.bind fun _ => ?_
  refine (readOnly_checkRow _ _ _ _).capturing.bind fun _ => ?_
  have hrest : ∀ new, Capturing shape catalog (Prog.bind
      (rewriteRow node.tableId idxs rid old new schema true) fun _ =>
        Prog.ret (returned ++ [new])) := fun new =>
    (capturing_rewriteRow ht hidxs _ _ _ _ _).bind fun _ => capturing_ret _
  dsimp only
  split
  · exact (capturing_applyUpdateReferentialActions _ _ _ _).bind fun _ => hrest _
  · exact hrest _

theorem capturing_visitUpdate (depth : Nat) {node : UpdateStatement}
    (ht : node.tableId ∈ catalog.tables.map TableSchema.tableId) :
    Capturing shape catalog (visitUpdate depth node) := by
  refine Prog.Within.get_bind fun db _ => Capturing.bind ?_ fun _ => capturing_ret _
  refine capturing_autocommit (locking_materialize _) fun materialized => ?_
  refine Prog.Within.get_bind fun db' hdb' => ?_
  refine (locking_updateRows _ _ _).capturing.bind fun rows => ?_
  exact Prog.Within.foldlM Fixed.apply (fun returned row =>
    capturing_updateRow depth ht (of_forTable hdb' _) _ _ _ _) _ _

end Exec

end

/-! ## Tables that stay registered -/

namespace TableManager

variable {tm : TableManager} {t u : TableId}

theorem isSome_setPages (h : (tm.pages u).isSome) (l : List Int) :
    ((tm.setPages t l).pages u).isSome := by
  simp only [setPages, Function.update_apply]
  split
  · rfl
  · exact h

theorem isSome_registerTable (h : (tm.pages u).isSome) : ((tm.registerTable t).pages u).isSome := by
  unfold registerTable
  split
  · exact h
  · exact isSome_setPages h []

theorem pages_tryPages (bytes : Bytes) (l : List Int) (tm : TableManager) :
    (tryPages bytes l tm).1.pages = tm.pages := by
  induction l generalizing tm with
  | nil => rfl
  | cons pid l ih =>
    unfold tryPages
    split
    · exact ih tm
    split
    · rfl
    · exact ih _

theorem isSome_insertTuple (h : (tm.pages u).isSome) (bytes : Bytes) :
    ((tm.insertTuple t bytes).1.pages u).isSome := by
  have hreg := isSome_registerTable (t := t) h
  unfold insertTuple
  dsimp only
  generalize htry : tryPages bytes _ (tm.registerTable t) = r
  have hpages : r.1.pages = (tm.registerTable t).pages := htry ▸ pages_tryPages _ _ _
  obtain ⟨tm', found⟩ := r
  rw [← hpages] at hreg
  cases found with
  | some rid => exact hreg
  | none =>
    unfold insertNewPage
    dsimp only
    have hset := @isSome_setPages { tm' with pool := tm'.pool.newPage.1 } t u hreg
    split
    · exact hset _
    · exact hset _

theorem pages_eraseTuple (tm : TableManager) (rid : RecordID) :
    (tm.eraseTuple rid).1.pages = tm.pages := by
  unfold eraseTuple
  split <;> rfl

theorem isSome_updateTuple (h : (tm.pages u).isSome) (rid : RecordID) (bytes : Bytes) :
    ((tm.updateTuple t rid bytes).1.pages u).isSome := by
  unfold updateTuple
  split
  · exact h
  · exact isSome_insertTuple (by rwa [pages_eraseTuple]) bytes

theorem isSome_truncateTable (h : (tm.pages u).isSome) :
    ((tm.truncateTable t).pages u).isSome := by
  unfold truncateTable
  split
  · exact h
  · exact isSome_setPages h []

end TableManager

/-! ## One call -/

/-- The state of a transaction, as far as its closures are concerned. -/
structure Intact (db : Db) (o : Objects) : Prop extends Alive db o where
  registered : ∀ ts ∈ db.catalog.tables, (db.tables.pages ts.tableId).isSome
  noted : db.active db.currentTxn = some (o.closures.map Prod.fst)
  names : (db.indexes.shape.map Prod.fst).Nodup

/-- The calls that free nothing, capture what is there and keep to the tables there are. -/
def Careful (db : Db) : Call → Prop
  | .registerUndo u => (∀ name ∈ u.indexNames, (name, u.tableId) ∈ db.indexes.shape) ∧
      (db.tables.pages u.tableId).isSome
  | .setCatalog catalog => ∀ ts ∈ catalog.tables, (db.tables.pages ts.tableId).isSome
  | .dropIndex _ | .dropIndexes _ | .dropTable _ => False
  | _ => True

/-- Tables and indexes may come, but none goes. -/
theorem Intact.grow {db db' : Db} {o : Objects} (h : Intact db o)
    (htables : ∀ t, (db.tables.pages t).isSome → (db'.tables.pages t).isSome)
    (hshape : ∀ i ∈ db.indexes.shape, i ∈ db'.indexes.shape)
    (hnames : (db'.indexes.shape.map Prod.fst).Nodup) (hcatalog : db'.catalog = db.catalog)
    (hactive : db'.active = db.active) (htxn : db'.currentTxn = db.currentTxn) :
    Intact db' o where
  indexes c hc name hname := (h.indexes c hc name hname).imp_left (hshape _)
  tables c hc := htables _ (h.tables c hc)
  registered := by
    rw [hcatalog]
    exact fun ts hts => htables _ (h.registered ts hts)
  noted := by rw [hactive, htxn, h.noted]
  names := hnames

theorem shape_create (im : IndexManager) (name : String) (t : TableId) (columns : List Int) :
    (im.create name t columns).shape = im.shape ∨
      name ∉ im.shape.map Prod.fst ∧
        (im.create name t columns).shape = im.shape ++ [(name, t)] := by
  unfold IndexManager.create
  split
  · exact .inl rfl
  · rename_i hnew
    refine .inr ⟨fun hmem => hnew ?_, by simp [IndexManager.shape]⟩
    obtain ⟨_, hs, rfl⟩ := List.mem_map.mp hmem
    obtain ⟨idx, hidx, rfl⟩ := List.mem_map.mp hs
    exact List.any_eq_true.mpr ⟨idx, hidx, by simp⟩

theorem Intact.apply (db : Db) (c : Call) (o : Objects) (h : Intact db o) (hc : Careful db c) :
    Intact (c.apply db).1 (o.note db c) := by
  have hsame : ∀ db' : Db, (∀ t, (db.tables.pages t).isSome → (db'.tables.pages t).isSome) →
      db'.indexes.shape = db.indexes.shape → db'.catalog = db.catalog →
      db'.active = db.active → db'.currentTxn = db.currentTxn → Intact db' o :=
    fun db' ht hs hcat ha htxn =>
      h.grow ht (fun i hi => by rwa [hs]) (by rw [hs]; exact h.names) hcat ha htxn
  cases c with
  | insertTuple t bytes =>
    exact hsame _ (fun _ ht => TableManager.isSome_insertTuple ht bytes) rfl rfl rfl rfl
  | updateTuple t rid bytes =>
    exact hsame _ (fun _ ht => TableManager.isSome_updateTuple ht rid bytes) rfl rfl rfl rfl
  | eraseTuple rid =>
    refine hsame _ (fun t ht => ?_) rfl rfl rfl rfl
    rwa [← TableManager.pages_eraseTuple db.tables rid] at ht
  | indexAdd name key rid =>
    exact hsame _ (fun _ => id) (IndexManager.shape_add _ _ _ _) rfl rfl rfl
  | indexRemove name key rid =>
    refine hsame _ (fun _ => id) ?_ rfl rfl rfl
    simp [IndexManager.shape_eq_map, Call.apply]
  | registerUndo u =>
    obtain ⟨hindexes, htable⟩ := hc
    refine { toAlive := ⟨fun c hc name hname => ?_, fun c hc => ?_⟩
             registered := h.registered, noted := ?_, names := h.names }
    · rcases List.mem_append.mp hc with hold | hnew
      · exact h.indexes c hold name hname
      · cases List.mem_singleton.mp hnew
        exact ⟨hindexes name hname, rfl⟩
    · rcases List.mem_append.mp hc with hold | hnew
      · exact h.tables c hold
      · cases List.mem_singleton.mp hnew
        exact htable
    · simp [Call.apply, Objects.note, h.noted]
  | truncateTable t =>
    exact hsame _ (fun _ ht => TableManager.isSome_truncateTable ht) rfl rfl rfl rfl
  | registerTable t =>
    exact hsame _ (fun _ ht => TableManager.isSome_registerTable ht) rfl rfl rfl rfl
  | createIndex name t columns =>
    rcases shape_create db.indexes name t columns with hs | ⟨hnew, hs⟩
    · exact hsame _ (fun _ => id) hs rfl rfl rfl
    · refine h.grow (fun _ => id) (fun i hi => ?_) ?_ rfl rfl rfl
      · exact hs ▸ List.mem_append_left _ hi
      · change List.Nodup (List.map _ (IndexManager.shape (db.indexes.create name t columns)))
        rw [hs, List.map_append]
        exact List.Nodup.append h.names (List.nodup_singleton _)
          (List.disjoint_singleton.mpr hnew)
  | setCatalog catalog => exact { h with registered := hc }
  | dropIndex | dropIndexes | dropTable => exact hc.elim
  | _ => exact hsame _ (fun _ => id) rfl rfl rfl rfl

/-! ## Statements -/

namespace Exec

variable {α : Type}

abbrev notes (x : Exec α) (db : Db) (o : Objects) : Objects :=
  Prog.notes (fun (c : Call) db => c.apply db) Objects.note x db o

abbrev AllCareful (x : Exec α) (db : Db) : Prop :=
  Prog.All (fun (c : Call) db => c.apply db) Careful x db

theorem intact_run {x : Exec α} {db : Db} {o : Objects} (h : Intact db o) (hx : x.AllCareful db) :
    Intact (x.run db).2 (x.notes db o) := hx.notes_inv Intact.apply h

/-- What a statement on rows captures is there when it captures it. -/
theorem intact_run_of_capturing {x : Exec α} {db : Db} {o : Objects} (h : Intact db o)
    (hx : Capturing db.indexes.shape db.catalog x) :
    Intact (x.run db).2 (x.notes db o) := by
  refine ((hx db ⟨rfl, rfl⟩).notes_inv (I := fun db' o' => Intact db' o' ∧
    Fixed db.indexes.shape db.catalog db') (fun db' c o' ⟨hintact, hfixed⟩ hc => ?_)
    ⟨h, rfl, rfl⟩).1
  refine ⟨hintact.apply _ _ _ ?_, hfixed.apply _ _ hc⟩
  cases c with
  | registerUndo u =>
    obtain ⟨hindexes, htable⟩ := hc
    obtain ⟨ts, hts, hid⟩ := List.mem_map.mp htable
    rw [← hfixed.2] at hts
    exact ⟨by rw [hfixed.1]; exact hindexes, hid ▸ hintact.registered ts hts⟩
  | truncateTable | dropTable | registerTable | dropIndexes | createIndex | dropIndex
  | setCatalog => exact hc.elim
  | _ => trivial

theorem careful_readOnly {x : Exec α} (h : ReadOnly x) (db : Db) : x.AllCareful db :=
  .of_makes h fun _ _ hc => hc.elim

theorem careful_locking {x : Exec α} (h : Locking x) (db : Db) : x.AllCareful db :=
  .of_makes h fun _ _ ⟨_, _, hc⟩ => hc ▸ trivial

theorem careful_call {c : Call} {db : Db} (hc : Careful db c) : (call c).AllCareful db :=
  .bind (.perform hc) fun _ _ _ => .ret

theorem careful_visitCreateIdx (node : CreateIdxStatement) (db : Db) :
    (visitCreateIdx node).AllCareful db := by
  refine .bind (careful_readOnly readOnly_get _) fun _ _ _ => ?_
  refine .bind (careful_call (by trivial)) fun _ _ _ => ?_
  split
  · refine .bind (careful_readOnly readOnly_get _) fun _ _ _ => ?_
    refine .bind (careful_readOnly (readOnly_get.bind fun _ => readOnly_ret _) _) fun _ _ _ => ?_
    refine .bind (.forM (fun row db' => ?_) _) fun _ _ _ => .ret
    refine .bind (careful_readOnly (readOnly_ofExcept _) _) fun _ _ _ => ?_
    exact .forM (fun _ _ => careful_call (by trivial)) _
  · exact .ret

theorem careful_visitTruncate (tableId : TableId) (db : Db) :
    (visitTruncate tableId).AllCareful db := by
  have hpending : ∀ (c : Call) (db : Db), (c = .discardPending ∨ c = .commitPending) →
      Exec.AllCareful (Prog.bind txnActive fun active =>
        if (!active) = true then call c else Prog.ret ()) db := by
    intro c db hc
    refine .bind (careful_readOnly readOnly_txnActive _) fun active _ _ => ?_
    split
    · rcases hc with rfl | rfl
      · exact careful_call (by trivial)
      · exact careful_call (by trivial)
    · exact .ret
  refine .bind (careful_readOnly readOnly_get _) fun _ _ _ => ?_
  refine .bind (hpending _ _ (.inl rfl)) fun _ _ _ => ?_
  refine .bind (careful_readOnly readOnly_get _) fun _ _ _ => ?_
  refine .bind (careful_readOnly (readOnly_get.bind fun _ => readOnly_ret _) _) fun _ _ _ => ?_
  refine .bind (.forM (fun row db' => ?_) _) fun _ _ _ => ?_
  · refine .bind (careful_readOnly (readOnly_ofExcept _) _) fun _ _ _ => ?_
    refine .bind (.forM (fun _ _ => careful_call (by trivial)) _) fun _ _ _ => ?_
    exact careful_call (by trivial)
  · refine .bind (careful_call (by trivial)) fun _ _ _ => ?_
    exact .bind (hpending _ _ (.inr rfl)) fun _ _ _ => .ret

end Exec

/-! ## DISCARD and RESHAPE -/

section

variable {db : Db} {o : Objects}

theorem mem_shape_of_mem {im : IndexManager} {idx : Index} (h : idx ∈ im) :
    (idx.name, idx.tableId) ∈ im.shape := List.mem_map_of_mem h

/-- Indexes go that no closure has captured. -/
theorem Intact.free (h : Intact db o) {db' : Db} {p : Index → Bool}
    (hindexes : db'.indexes = db.indexes.filter fun idx => !p idx)
    (hspared : ∀ c ∈ o.closures, ∀ name ∈ c.1.indexNames,
      name ∉ (db.indexes.filter p).map Index.name)
    (htables : ∀ c ∈ o.closures, (db'.tables.pages c.1.tableId).isSome)
    (hregistered : ∀ ts ∈ db'.catalog.tables, (db'.tables.pages ts.tableId).isSome)
    (hactive : db'.active = db.active) (htxn : db'.currentTxn = db.currentTxn) :
    Intact db' (o.free ((db.indexes.filter p).map Index.name)) where
  indexes c hc name hname := by
    have hnot := hspared c hc name hname
    obtain ⟨hin, hcount⟩ := h.indexes c hc name hname
    refine ⟨?_, by simp only [Objects.free, if_neg hnot, hcount]⟩
    obtain ⟨idx, hidx, heq⟩ := List.mem_map.mp hin
    rw [← heq, hindexes]
    refine mem_shape_of_mem (List.mem_filter.mpr ⟨hidx, ?_⟩)
    by_contra hp
    refine hnot (List.mem_map.mpr ⟨idx, List.mem_filter.mpr ⟨hidx, by simpa using hp⟩, ?_⟩)
    exact congrArg Prod.fst heq
  tables := htables
  registered := hregistered
  noted := by rw [hactive, htxn, h.noted]; rfl
  names := by
    rw [hindexes]
    exact h.names.sublist ((List.filter_sublist.map _).map _)

/-- The indexes of a table are not captured by the closures of other tables. -/
theorem Intact.not_mem_forTable (h : Intact db o) {t : TableId} {c : UndoClosure × (String → Nat)}
    (hc : c ∈ o.closures) {name : String} (hname : name ∈ c.1.indexNames)
    (hne : c.1.tableId ≠ t) : name ∉ (db.indexes.forTable t).map Index.name := by
  intro hmem
  obtain ⟨idx, hidx, rfl⟩ := List.mem_map.mp hmem
  have hcaptured := (h.indexes c hc _ hname).1
  have heq := List.inj_on_of_nodup_map h.names hcaptured (IndexManager.mem_shape hidx) rfl
  exact hne (congrArg Prod.snd heq)

theorem Intact.dropIndex (h : Intact db o) {name : String}
    (hspared : ∀ c ∈ o.closures, name ∉ c.1.indexNames) :
    Intact (Call.apply db (.dropIndex name)).1 (o.note db (.dropIndex name)) := by
  refine h.free ?_ (fun c hc n hn hmem => ?_) h.tables h.registered rfl rfl
  · exact List.filter_congr fun idx _ => by simp
  · obtain ⟨idx, hidx, rfl⟩ := List.mem_map.mp hmem
    rw [show idx.name = name by simpa using (List.mem_filter.mp hidx).2] at hn
    exact hspared c hc hn

/-- The table without its indexes and rows, as a RESHAPE begins it anew. -/
def Db.reset (db : Db) (t : TableId) : Db :=
  { db with
    indexes := db.indexes.dropTable t
    tables := (db.tables.dropTable t).registerTable t }

theorem Intact.reset (h : Intact db o) {t : TableId}
    (hspared : ∀ c ∈ o.closures, c.1.tableId = t → c.1.indexNames = []) :
    Intact (db.reset t) (o.note db (.dropIndexes t)) := by
  have hpages : ∀ u, (db.tables.pages u).isSome →
      ((((db.tables.dropTable t).registerTable t)).pages u).isSome := by
    intro u hu
    rw [TableManager.registerTable, if_neg (by simp [TableManager.dropTable])]
    simp only [TableManager.setPages, TableManager.dropTable, Function.update_apply]
    split
    · rfl
    · exact hu
  refine h.free ?_ (fun c hc name hname => ?_) (fun c hc => hpages _ (h.tables c hc))
    (fun ts hts => hpages _ (h.registered ts hts)) rfl rfl
  · exact List.filter_congr fun idx _ => by simp
  · refine h.not_mem_forTable hc hname fun heq => ?_
    rw [hspared c hc heq] at hname
    cases hname

/-- A table goes with its indexes. -/
theorem Intact.dropTable (h : Intact db o) {t : TableId}
    (hspared : ∀ c ∈ o.closures, c.1.tableId ≠ t)
    (hcatalog : t ∉ db.catalog.tables.map TableSchema.tableId) :
    Intact { db with
        tables := db.tables.dropTable t
        indexes := db.indexes.dropTable t }
      (o.note { db with tables := db.tables.dropTable t } (.dropIndexes t)) := by
  have hpages : ∀ u, u ≠ t → (db.tables.pages u).isSome →
      ((db.tables.dropTable t).pages u).isSome := by
    intro u hne hu
    simpa only [TableManager.dropTable, Function.update_of_ne hne] using hu
  refine h.free ?_ (fun c hc name hname => h.not_mem_forTable hc hname (hspared c hc))
    (fun c hc => hpages _ (hspared c hc) (h.tables c hc))
    (fun ts hts => hpages _ (fun heq => ?_) (h.registered ts hts)) rfl rfl
  · exact List.filter_congr fun idx _ => by simp
  · exact hcatalog (heq ▸ List.mem_map_of_mem hts)

end

namespace Exec

variable {α β : Type} {db : Db} {o : Objects}

/-- Once the first program has left the closures intact, so does the second from there. -/
theorem intact_bind {x : Exec α} {f : α → Exec β} (hx : Intact (x.run db).2 (x.notes db o))
    (hf : ∀ a db', x.run db = (.ok a, db') → Intact db' (x.notes db o) →
      Intact ((f a).run db').2 ((f a).notes db' (x.notes db o))) :
    Intact (Exec.run (Prog.bind x f) db).2 (Exec.notes (Prog.bind x f) db o) := by
  rw [Exec.run, Exec.notes, Prog.run_bind, Prog.notes_bind]
  rw [Exec.run] at hx
  change ∀ a db', Prog.run _ x db = _ → _ at hf
  generalize Prog.run _ x db = r at hx hf
  obtain ⟨outcome, db'⟩ := r
  cases outcome with
  | error e => exact hx
  | ok a => exact hf a db' rfl hx

theorem ids_reshapeCatalog (catalog : Catalog) (table : String) (columns : Nat) (kind : AlterKind) :
    (reshapeCatalog catalog table columns kind).tables.map TableSchema.tableId =
      catalog.tables.map TableSchema.tableId := by
  cases kind with
  | AddColumn column =>
    unfold reshapeCatalog
    dsimp only
    split
    · exact Catalog.ids_onTable _ _ _ _
    · exact (Catalog.ids_onTable _ _ _ _).trans (Catalog.ids_onTable _ _ _ _)
  | DropColumn column =>
    refine Catalog.ids_onTable _ _ _ fun ts => ?_
    dsimp only
    split <;> rfl

theorem Intact.setCatalog (h : Intact db o) {catalog : Catalog}
    (hids : catalog.tables.map TableSchema.tableId = db.catalog.tables.map TableSchema.tableId) :
    ∀ ts ∈ catalog.tables, (db.tables.pages ts.tableId).isSome := by
  intro ts hts
  obtain ⟨ts', hts', heq⟩ := List.mem_map.mp
    (hids ▸ List.mem_map_of_mem (f := TableSchema.tableId) hts)
  exact heq ▸ h.registered ts' hts'

theorem Locking.catalog_run {x : Exec α} (h : Locking x) (db : Db) :
    (x.run db).2.catalog = db.catalog :=
  Prog.Makes.run_eq (g := Db.catalog) h (fun _ _ ⟨_, _, hc⟩ => hc ▸ rfl) db

theorem Locking.indexes_run {x : Exec α} (h : Locking x) (db : Db) :
    (x.run db).2.indexes = db.indexes :=
  Prog.Makes.run_eq (g := Db.indexes) h (fun _ _ ⟨_, _, hc⟩ => hc ▸ rfl) db

theorem Locking.notes_eq {x : Exec α} (h : Locking x) (db : Db) (o : Objects) :
    x.notes db o = o := Prog.Makes.notes_eq h (fun _ _ _ ⟨_, _, hc⟩ => hc ▸ rfl) db o

/-- The scan of a RESHAPE reads the rows of the table. -/
def ReadsRows (db : Db) (t : TableId) : Prop :=
  ∃ rows db', (gatherRows t (db.catalog.loadSchema t) none).run db = (.ok rows, db')

/-- The part of `visit(AlterStatement)` after the table is registered anew. -/
def reloadRows (node : AlterStatement) (catalog : Catalog) (rows : List (RecordID × Tuple)) :
    Exec ResultSet := do
  let ts := catalog.getTableById node.tableId
  let schema := newSchema ts (catalog.loadSchema node.tableId) node.kind
  rows.forM fun row =>
    call (.insertTuple node.tableId ((reshapeRow ts node.kind row.2).serialize schema))
  call (.setCatalog (reshapeCatalog catalog node.table schema.length node.kind))
  return { message := reshapeMessage node.kind }

/-- A RESHAPE stops at its scan or reloads the rows into the table begun anew. -/
theorem visitAlter_cases (node : AlterStatement) (db : Db) (o : Objects) :
    let gathered := (gatherRows node.tableId (db.catalog.loadSchema node.tableId) none).run db
    (∃ e, gathered.1 = .error e ∧ ((visitAlter node).run db).2 = gathered.2 ∧
        (visitAlter node).notes db o = o) ∨
      ∃ rows, gathered.1 = .ok rows ∧
        (visitAlter node).run db =
          (reloadRows node db.catalog rows).run (gathered.2.reset node.tableId) ∧
        (visitAlter node).notes db o = (reloadRows node db.catalog rows).notes
          (gathered.2.reset node.tableId) (o.note gathered.2 (.dropIndexes node.tableId)) := by
  intro gathered
  have hnotes : Prog.notes (fun (c : Call) db => c.apply db) Objects.note (gatherRows node.tableId
      (db.catalog.loadSchema node.tableId) none) db o = o :=
    (locking_gatherRows _ _ _).notes_eq db o
  have hrun : (visitAlter node).run db = Exec.run (Prog.bind (gatherRows node.tableId
      (db.catalog.loadSchema node.tableId) none) fun rows =>
        Prog.bind (call (.dropIndexes node.tableId)) fun _ =>
        Prog.bind (call (.dropTable node.tableId)) fun _ =>
        Prog.bind (call (.registerTable node.tableId)) fun _ =>
          reloadRows node db.catalog rows) db := rfl
  have hnoted : (visitAlter node).notes db o = Exec.notes (Prog.bind (gatherRows node.tableId
      (db.catalog.loadSchema node.tableId) none) fun rows =>
        Prog.bind (call (.dropIndexes node.tableId)) fun _ =>
        Prog.bind (call (.dropTable node.tableId)) fun _ =>
        Prog.bind (call (.registerTable node.tableId)) fun _ =>
          reloadRows node db.catalog rows) db o := rfl
  rw [hrun, hnoted, Exec.run, Exec.notes, Prog.run_bind, Prog.notes_bind, hnotes]
  change (∃ e, gathered.1 = _ ∧ _) ∨ _
  rw [show Prog.run (fun (c : Call) db => c.apply db) (gatherRows node.tableId
    (db.catalog.loadSchema node.tableId) none) db = gathered from rfl]
  obtain ⟨outcome, db₁⟩ := gathered
  cases outcome with
  | error e => exact .inl ⟨e, rfl, rfl, rfl⟩
  | ok rows => exact .inr ⟨rows, rfl, rfl, rfl⟩

/-- The calls that reload rows: they free nothing and leave the indexes alone. -/
theorem makes_reloadRows (node : AlterStatement) (catalog : Catalog)
    (rows : List (RecordID × Tuple)) :
    Prog.Makes (fun (c : Call) db => c.apply db)
      (fun c => (∃ t bytes, c = .insertTuple t bytes) ∨
        ∃ columns, c = .setCatalog (reshapeCatalog catalog node.table columns node.kind))
      (reloadRows node catalog rows) := by
  refine (Prog.Makes.forM (fun _ => ?_) rows).bind fun _ => Prog.Makes.bind ?_ fun _ => .ret _
  · exact Prog.Makes.bind (.perform (.inl ⟨_, _, rfl⟩)) fun _ => .ret _
  · exact Prog.Makes.bind (.perform (.inr ⟨_, rfl⟩)) fun _ => .ret _

theorem intact_reloadRows (h : Intact db o) {node : AlterStatement} {catalog : Catalog}
    (hids : catalog.tables.map TableSchema.tableId = db.catalog.tables.map TableSchema.tableId)
    (rows : List (RecordID × Tuple)) :
    Intact ((reloadRows node catalog rows).run db).2
      ((reloadRows node catalog rows).notes db o) := by
  refine (Prog.All.notes_inv (P := fun _ c => (∃ t bytes, c = .insertTuple t bytes) ∨
      ∃ columns, c = .setCatalog (reshapeCatalog catalog node.table columns node.kind))
    (I := fun db' o' => Intact db' o' ∧ db'.catalog.tables.map TableSchema.tableId =
      catalog.tables.map TableSchema.tableId) (fun db' c o' hinv hc => ?_) ⟨h, hids.symm⟩
    (.of_makes (makes_reloadRows node catalog rows) fun _ _ hc => hc)).1
  obtain ⟨hintact, hids'⟩ := hinv
  rcases hc with ⟨t, bytes, rfl⟩ | ⟨columns, rfl⟩
  · exact ⟨hintact.apply _ _ _ trivial, hids'⟩
  · have hnew := ids_reshapeCatalog catalog node.table columns node.kind
    exact ⟨hintact.apply _ _ _ (Intact.setCatalog hintact (hnew.trans hids'.symm)), hnew⟩

/-- A RESHAPE of a table of whose indexes no closure has captured one, if it comes so far as
to drop them. -/
theorem intact_visitAlter (h : Intact db o) {node : AlterStatement}
    (hspared : ReadsRows db node.tableId →
      ∀ c ∈ o.closures, c.1.tableId = node.tableId → c.1.indexNames = []) :
    Intact ((visitAlter node).run db).2 ((visitAlter node).notes db o) := by
  have hgather := locking_gatherRows node.tableId (db.catalog.loadSchema node.tableId) none
  have h₁ := intact_run h (careful_locking hgather db)
  rw [hgather.notes_eq] at h₁
  rcases visitAlter_cases node db o with ⟨e, -, hrun, hnotes⟩ | ⟨rows, hrows, hrun, hnotes⟩
  · rwa [hrun, hnotes]
  · rw [hrun, hnotes]
    refine intact_reloadRows (h₁.reset (hspared ⟨rows, _, Prod.ext hrows rfl⟩)) ?_ rows
    rw [show (Db.reset _ _).catalog = _ from hgather.catalog_run db]

/-- A RESHAPE that reads its rows drops the indexes of the table, and keeps the closures. -/
theorem dropped_visitAlter (db : Db) (o : Objects) {node : AlterStatement}
    (hreads : ReadsRows db node.tableId) :
    ((visitAlter node).run db).2.indexes = db.indexes.dropTable node.tableId ∧
      ((visitAlter node).notes db o).closures = o.closures := by
  have hgather := locking_gatherRows node.tableId (db.catalog.loadSchema node.tableId) none
  obtain ⟨rows, db₁, hrows⟩ := hreads
  have hindexes := hgather.indexes_run db
  rcases visitAlter_cases node db o with ⟨e, herror, -⟩ | ⟨rows', -, hrun, hnotes⟩
  · rw [hrows] at herror
    cases herror
  · have hmakes := makes_reloadRows node db.catalog rows'
    rw [hrun, hnotes]
    constructor
    · refine (hmakes.run_eq (g := Db.indexes) (fun c _ hc => ?_) _).trans
        (congrArg (IndexManager.dropTable · _) hindexes)
      rcases hc with ⟨_, _, rfl⟩ | ⟨_, rfl⟩ <;> rfl
    · refine (congrArg Objects.closures (hmakes.notes_eq (fun _ c _ hc => ?_) _ _)).trans rfl
      rcases hc with ⟨_, _, rfl⟩ | ⟨_, rfl⟩ <;> rfl

/-- A DISCARD that frees nothing a closure has captured. -/
theorem intact_visitDrop (h : Intact db o) {node : DropStatement}
    (hindex : node.truncate = false → node.isIndex = true →
      ∀ c ∈ o.closures, node.name ∉ c.1.indexNames)
    (htable : node.truncate = false → node.isIndex = false → node.isView = false →
      node.tableId ∉ db.catalog.tables.map TableSchema.tableId ∧
        ∀ c ∈ o.closures, c.1.tableId ≠ node.tableId) :
    Intact ((visitDrop node).run db).2 ((visitDrop node).notes db o) := by
  unfold visitDrop
  cases htruncate : node.truncate with
  | true => exact intact_run h (careful_visitTruncate _ _)
  | false =>
    cases hisIndex : node.isIndex with
    | true => exact h.dropIndex (hindex htruncate hisIndex)
    | false =>
      cases hisView : node.isView with
      | true => exact h
      | false =>
        obtain ⟨hcatalog, hspared⟩ := htable htruncate hisIndex hisView
        exact h.dropTable hspared hcatalog

end Exec

/-! ## Transactions -/

/-- The statements of a transaction after their analysis. -/
inductive TxnStatement
  | write (stmt : Statement)
  | createIdx (node : CreateIdxStatement) (table : String) (columns : List String)
  | drop (node : DropStatement)
  | alter (node : AlterStatement)

def Statement.tableId : Statement → TableId
  | insert node => node.tableId
  | delete node => node.tableId
  | update node => node.tableId

namespace TxnStatement

def program (depth : Nat) : TxnStatement → Exec ResultSet
  | write stmt => stmt.exec depth
  | createIdx node _ _ => Exec.visitCreateIdx node
  | drop node => Exec.visitDrop node
  | alter node => Exec.visitAlter node

/-- The catalog that the analysis leaves. -/
def analyze (catalog : Catalog) : TxnStatement → Catalog
  | write _ | alter _ => catalog
  | createIdx node table columns => catalog.createIndex node.indexName table columns
  | drop node =>
    if node.truncate then catalog
    else if node.isIndex then catalog.dropIndex node.name
    else if node.isView then catalog
    else catalog.dropTable node.name

/-- The analysis has taken the ids of tables from the catalog. -/
def Resolved (catalog : Catalog) : TxnStatement → Prop
  | write stmt => stmt.tableId ∈ catalog.tables.map TableSchema.tableId
  | drop node => node.truncate = false → node.isIndex = false → node.isView = false →
    ∃ ts, catalog.getTable node.name = some ts ∧ ts.tableId = node.tableId
  | createIdx .. | alter _ => True

end TxnStatement

/-- A session in a transaction, with what its closures have captured. -/
structure TxnState where
  db : Db
  objects : Objects

namespace TxnState

def analyzed (s : TxnState) (stmt : TxnStatement) : Db :=
  { s.db with catalog := stmt.analyze s.db.catalog }

def next (depth : Nat) (s : TxnState) (stmt : TxnStatement) : TxnState where
  db := ((stmt.program depth).run (s.analyzed stmt)).2
  objects := (stmt.program depth).notes (s.analyzed stmt) s.objects

/-- The statement frees no index that a closure has captured, and no table that a closure
writes to. -/
def Spares (s : TxnState) : TxnStatement → Prop
  | .drop node => (node.truncate = false → node.isIndex = true →
      ∀ c ∈ s.objects.closures, node.name ∉ c.1.indexNames) ∧
    (node.truncate = false → node.isIndex = false → node.isView = false →
      ∀ c ∈ s.objects.closures, c.1.tableId ≠ node.tableId)
  | .alter node => Exec.ReadsRows s.db node.tableId →
    ∀ c ∈ s.objects.closures, c.1.tableId = node.tableId → c.1.indexNames = []
  | .write _ | .createIdx .. => True

/-- Right after START every table of the catalog is registered and nothing is captured. -/
structure Begun (s : TxnState) : Prop where
  registered : ∀ ts ∈ s.db.catalog.tables, (s.db.tables.pages ts.tableId).isSome
  names : (s.db.indexes.shape.map Prod.fst).Nodup
  active : s.db.active s.db.currentTxn = some []
  objects : s.objects = {}

/-- UNDO runs the closures that are noted, and each finds what it has captured. -/
def CanUndo (s : TxnState) : Prop :=
  s.db.active s.db.currentTxn = some (s.objects.closures.map Prod.fst) ∧ Alive s.db s.objects

theorem tables_analyze (catalog : Catalog) (stmt : TxnStatement) :
    (stmt.analyze catalog).tables ⊆ catalog.tables := by
  cases stmt with
  | write | alter => exact fun _ => id
  | createIdx node table columns =>
    exact fun _ => (Catalog.tables_createIndex catalog _ table columns ▸ ·)
  | drop node =>
    simp only [TxnStatement.analyze]
    split
    · exact fun _ => id
    split
    · exact fun _ => id
    split
    · exact fun _ => id
    · exact List.filter_sublist.subset

theorem Intact.analyzed {s : TxnState} (h : Intact s.db s.objects) (stmt : TxnStatement) :
    Intact (s.analyzed stmt) s.objects :=
  { h with registered := fun ts hts => h.registered ts (tables_analyze _ stmt hts) }

/-- A table that is discarded has left the catalog. -/
theorem not_mem_dropTable {catalog : Catalog} {name : String} {ts : TableSchema}
    (h : catalog.getTable name = some ts) :
    ts.tableId ∉ (catalog.dropTable name).tables.map TableSchema.tableId := by
  intro hmem
  obtain ⟨ts', hts', heq⟩ := List.mem_map.mp hmem
  obtain ⟨hin, hne⟩ := List.mem_filter.mp hts'
  have hsame := List.inj_on_of_nodup_map catalog.nodup hin (List.mem_of_find?_eq_some h) heq
  have hname : ts.name = name := by simpa using List.find?_some h
  exact absurd (hsame ▸ hname) (by simpa using hne)

/-- What one statement keeps. -/
theorem intact_next (depth : Nat) {s : TxnState} (h : Intact s.db s.objects)
    {stmt : TxnStatement} (hresolved : stmt.Resolved s.db.catalog) (hspares : s.Spares stmt) :
    Intact (s.next depth stmt).db (s.next depth stmt).objects := by
  have hanalyzed := Intact.analyzed h stmt
  cases stmt with
  | write stmt =>
    refine Exec.intact_run_of_capturing hanalyzed ?_
    cases stmt with
    | insert node => exact Exec.capturing_visitInsert hresolved
    | delete node => exact Exec.capturing_visitDelete depth hresolved
    | update node => exact Exec.capturing_visitUpdate depth hresolved
  | createIdx node table columns =>
    exact Exec.intact_run hanalyzed (Exec.careful_visitCreateIdx node _)
  | drop node =>
    refine Exec.intact_visitDrop hanalyzed hspares.1 fun htruncate hindex hview => ?_
    obtain ⟨ts, hts, hid⟩ := hresolved htruncate hindex hview
    refine ⟨?_, hspares.2 htruncate hindex hview⟩
    simp only [analyzed, TxnStatement.analyze, htruncate, hindex, hview, Bool.false_eq_true,
      if_false]
    exact hid ▸ not_mem_dropTable hts
  | alter node => exact Exec.intact_visitAlter hanalyzed hspares

/-- A statement that frees what a closure has captured leaves the closure with it. -/
theorem spares_of_canUndo (depth : Nat) {s : TxnState} {stmt : TxnStatement}
    (hnext : (s.next depth stmt).CanUndo) : s.Spares stmt := by
  cases stmt with
  | write | createIdx => trivial
  | drop node =>
    constructor
    · intro htruncate hindex c hc hname
      have hrun : (s.next depth (.drop node)).db.indexes = s.db.indexes.drop node.name ∧
          (s.next depth (.drop node)).objects.closures = s.objects.closures := by
        simp only [next, TxnStatement.program, Exec.visitDrop, htruncate, hindex]
        exact ⟨rfl, rfl⟩
      have hin := (hnext.2.indexes c (hrun.2 ▸ hc) _ hname).1
      rw [hrun.1] at hin
      obtain ⟨idx, hidx, heq⟩ := List.mem_map.mp hin
      have hne := (List.mem_filter.mp hidx).2
      exact absurd (congrArg Prod.fst heq) (by simpa using hne)
    · intro htruncate hindex hview c hc heq
      have hrun : (s.next depth (.drop node)).db.tables = s.db.tables.dropTable node.tableId ∧
          (s.next depth (.drop node)).objects.closures = s.objects.closures := by
        simp only [next, TxnStatement.program, Exec.visitDrop, htruncate, hindex, hview]
        exact ⟨rfl, rfl⟩
      have htable := hnext.2.tables c (hrun.2 ▸ hc)
      rw [hrun.1, heq] at htable
      simp [TableManager.dropTable] at htable
  | alter node =>
    intro hreads c hc heq
    obtain ⟨hindexes, hclosures⟩ :=
      Exec.dropped_visitAlter (s.analyzed (.alter node)) s.objects hreads
    refine List.eq_nil_iff_forall_not_mem.mpr fun name hname => ?_
    have hin := (hnext.2.indexes c (show c ∈ _ from hclosures ▸ hc) name hname).1
    rw [show (s.next depth (.alter node)).db.indexes = _ from hindexes, heq] at hin
    obtain ⟨idx, hidx, hpair⟩ := List.mem_map.mp hin
    have hne := (List.mem_filter.mp hidx).2
    exact absurd (congrArg Prod.snd hpair) (by simpa using hne)

theorem canUndo_iff_of_intact (depth : Nat) {s : TxnState} (h : Intact s.db s.objects)
    {stmts : List TxnStatement}
    (hresolved : AllSteps (next depth) (fun s stmt => stmt.Resolved s.db.catalog) s stmts) :
    AllStates (next depth) CanUndo s stmts ↔ AllSteps (next depth) Spares s stmts := by
  induction stmts generalizing s with
  | nil => exact iff_of_true ⟨h.noted, h.toAlive⟩ trivial
  | cons stmt stmts ih =>
    constructor
    · rintro ⟨-, hrest⟩
      have hspares := spares_of_canUndo depth hrest.head
      exact ⟨hspares, (ih (intact_next depth h hresolved.1 hspares) hresolved.2).mp hrest⟩
    · rintro ⟨hspares, hrest⟩
      exact ⟨⟨h.noted, h.toAlive⟩,
        (ih (intact_next depth h hresolved.1 hspares) hresolved.2).mpr hrest⟩

theorem Begun.intact {s : TxnState} (h : s.Begun) : Intact s.db s.objects where
  indexes := by simp [h.objects]
  tables := by simp [h.objects]
  registered := h.registered
  noted := by simp [h.objects, h.active]
  names := h.names

/-- Whenever UNDO comes it finds all that the closures have captured, if and only if no
statement of the transaction frees an index that a closure has captured, or a table that a
closure writes to. -/
theorem canUndo_iff (depth : Nat) {s : TxnState} (hs : s.Begun) {stmts : List TxnStatement}
    (hresolved : AllSteps (next depth) (fun s stmt => stmt.Resolved s.db.catalog) s stmts) :
    AllStates (next depth) CanUndo s stmts ↔ AllSteps (next depth) Spares s stmts :=
  canUndo_iff_of_intact depth hs.intact hresolved

/-- A session after START, on a relation `t (a INT)` with an index on `a`. -/
def indexed : TxnState where
  db :=
    { Db.init { tables := [{ tableId := 1, name := "t"
                             columns := [{ name := "a", type := .Int }] }]
                nodup := by decide
                indexes := [⟨"i", "t", ["a"]⟩] }
        [{ name := "i", tableId := 1, columns := [0] }] with
      tables := TableManager.empty.registerTable 1
      active := Function.update (fun _ => none) 1 (some [])
      nextTxnId := 2
      currentTxn := 1 }
  objects := {}

def put : TxnStatement := .write (.insert { tableId := 1, rows := [[fun _ => .int 7]] })

def discardIndex : TxnStatement := .drop { name := "i", tableId := 0, isIndex := true }

theorem canUndo_iff_put :
    AllStates (next 1) CanUndo indexed [put] ↔ AllSteps (next 1) Spares indexed [put] :=
  canUndo_iff 1 ⟨by decide, by decide, rfl, rfl⟩ ⟨List.mem_singleton_self (1 : Int), trivial⟩

/-- A row is put and its index discarded: UNDO would take the key out of an index that is
gone. -/
theorem not_canUndo_discardIndex :
    indexed.Begun ∧
      AllSteps (next 1) (fun s stmt => stmt.Resolved s.db.catalog) indexed [put, discardIndex] ∧
      ¬AllStates (next 1) CanUndo indexed [put, discardIndex] := by
  refine ⟨⟨by decide, by decide, rfl, rfl⟩,
    ⟨List.mem_singleton_self (1 : Int), fun _ h => (by cases h), trivial⟩, ?_⟩
  rintro ⟨-, -, hlast⟩
  have halive := hlast.2.indexes
  revert halive
  decide +kernel

end TxnState

end Relite.Vm
