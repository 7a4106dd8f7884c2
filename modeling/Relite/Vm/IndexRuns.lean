import Relite.Vm.Handed
import Relite.Vm.IndexAgreement

/-!
# Indexes over whole sessions

TRUNCATE and BUILD INDEX work on the rows as they are stored, and keep the indexes in
agreement with them. UNDO runs closures with the keys that they captured.
-/
namespace Relite.Vm
open Lib Semantic Txn

/-- What a session sends that concerns indexes. -/
inductive Command
  | request (r : Request)
  | truncate (tableId : TableId)
  | createIdx (node : CreateIdxStatement)

def Db.perform (depth : Nat) (db : Db) : Command → Db
  | .request r => db.execute depth r
  | .truncate tableId => ((Exec.visitTruncate tableId).run db).2
  | .createIdx node => ((Exec.visitCreateIdx node).run db).2

/-! ## UNDO -/

/-- The closure takes away the keys of the row that it erases, and puts back those of the row
that it inserts. -/
def UndoClosure.Given (db : Db) : UndoClosure → Prop
  | insert idxKeys _ rid => db.indexes.Takes db.catalog db.tables.heap idxKeys rid
  | delete tableId bytes idxKeys =>
    let (tables, nr) := db.tables.insertTuple tableId bytes
    db.indexes.Brings db.catalog tables.heap idxKeys nr
  | update tableId nr oldBytes oldKeys newKeys =>
    db.indexes.Takes db.catalog db.tables.heap newKeys nr ∧
    let (tables, rr) := (db.tables.eraseTuple nr).1.insertTuple tableId oldBytes
    (db.indexes.removeKeys newKeys nr).Brings db.catalog tables.heap oldKeys rr

instance (db : Db) (u : UndoClosure) : Decidable (u.Given db) := by
  cases u <;> (unfold UndoClosure.Given; infer_instance)

theorem UndoClosure.agree_run {db : Db} (hwf : db.tables.WF) (h : db.IndexesAgree)
    {u : UndoClosure} (hu : u.Given db) : (u.run db).tables.WF ∧ (u.run db).IndexesAgree := by
  cases u with
  | insert idxKeys t rid =>
    refine ⟨(hwf.eraseTuple rid).1, ?_⟩
    exact (IndexManager.Agree.remove h hu).congr fun t r => (hwf.eraseTuple rid).2.2.2 t r
  | delete t bytes idxKeys =>
    have hcame := hwf.came_insertTuple t bytes
    exact ⟨(hwf.insertTuple rfl).1, IndexManager.Agree.add h hcame.other hcame.free hu⟩
  | update t nr oldBytes oldKeys newKeys =>
    have hwf' := (hwf.eraseTuple nr).1
    have hcame := hwf'.came_insertTuple t oldBytes
    rw [hwf.heap_eraseTuple_eq nr] at hcame
    exact ⟨(hwf'.insertTuple rfl).1,
      (IndexManager.Agree.remove h hu.1).add hcame.other hcame.free hu.2⟩

namespace Db

/-- What the closures of the transaction are given, as they run, last one first. -/
def UndoGiven (db : Db) : Prop :=
  ∀ closures ∈ db.active db.currentTxn,
    AllSteps UndoClosure.run (fun db u => u.Given db) db closures.reverse

instance (db : Db) : Decidable db.UndoGiven := by unfold UndoGiven; infer_instance

theorem IndexesAgree.rollback {db : Db} (h : db.IndexesAgree) (hok : db.Ok) (hu : db.UndoGiven) :
    (db.visitTransaction .Rollback).1.IndexesAgree := by
  by_cases hout : db.currentTxn = 0
  · simpa [visitTransaction, hout] using h
  obtain ⟨undo, hundo⟩ :=
    Option.isSome_iff_exists.mp ((hok.active db.currentTxn).mpr ⟨rfl, hout⟩)
  have hagree := (run_invariant (fun db => db.tables.WF ∧ db.IndexesAgree)
    (fun db u h hu => UndoClosure.agree_run h.1 h.2 hu) ⟨hok.tables, h⟩
    (hu undo hundo)).last.2
  simp only [visitTransaction, hout, if_false, Db.rollback, hundo]
  exact hagree

end Db

/-! ## TRUNCATE -/

/-- The tuples without those at these record ids. -/
def withoutAll (rows : Rows) (rids : List RecordID) : Rows :=
  fun t r => if r ∈ rids then none else rows t r

theorem without_withoutAll (rows : Rows) (rid : RecordID) (rids : List RecordID) :
    withoutAll (without rows rid) rids = withoutAll rows (rid :: rids) := by
  funext t r
  simp only [withoutAll, without, List.mem_cons]
  grind

/-- The key of a row in an index. -/
theorem keyAt_of_read {catalog : Catalog} {rows : Rows} {idx : Index} {rid : RecordID} {b : Bytes}
    (hb : rows idx.tableId rid = some b) {u : Tuple}
    (hu : Tuple.deserialize b (catalog.loadSchema idx.tableId) = .ok u) :
    keyAt catalog rows idx rid = if idx.coversRow u.length then some (idx.keyOf u) else none := by
  simp [keyAt, hb, hu, Except.toOption]

namespace Exec

theorem run_truncateRow (t : TableId) (idxs : List Index) {row : RecordID × Bytes} {schema : Schema}
    {u : Tuple} (hu : Tuple.deserialize row.2 schema = .ok u) (db : Db) :
    (truncateRow t schema idxs row).run db = (.ok (), { db with
      indexes := db.indexes.removeKeys (coveredKeys idxs u u) row.1
      versions := db.versions.stageDelete t row.1 }) := by
  simp [truncateRow, deserializeRow, hu, bind, Except.bind, pure, Except.pure, ofExcept,
    run_removeKeys, Call.apply]

/-- Each round takes the keys of a row away; no index has entries for the rows then. -/
theorem run_truncateRows {t : TableId} {idxs : List Index} {l : List (RecordID × Bytes)} {db : Db}
    {rows : Rows} (hnames : (db.indexes.shape.map Prod.fst).Nodup) (hidxs : IndexesOf t idxs db)
    (hnodup : (l.map Prod.fst).Nodup) (hagree : db.indexes.Agree db.catalog rows)
    (hl : ∀ row ∈ l, rows t row.1 = some row.2 ∧ (∀ t', t' ≠ t → rows t' row.1 = none) ∧
      ∃ u, Tuple.deserialize row.2 (db.catalog.loadSchema t) = .ok u) :
    ∃ indexes versions, Exec.run (l.forM (truncateRow t (db.catalog.loadSchema t) idxs)) db =
        (.ok (), { db with indexes, versions }) ∧ indexes.shape = db.indexes.shape ∧
      indexes.Agree db.catalog (withoutAll rows (l.map Prod.fst)) := by
  induction l generalizing db rows with
  | nil => exact ⟨db.indexes, db.versions, rfl, rfl, hagree.congr fun _ _ => by simp [withoutAll]⟩
  | cons row l ih =>
    rw [List.map_cons, List.nodup_cons] at hnodup
    obtain ⟨hrow, hforeign, u, hu⟩ := hl row (by simp)
    have htakes : db.indexes.Takes db.catalog rows (coveredKeys idxs u u) row.1 := by
      intro idx hidx k hk
      have ht : idx.tableId = t := by
        by_contra hne
        rw [keyAt_eq_none (hforeign _ hne)] at hk
        cases hk
      have hmem := @Db.mem_coveredKeys db t idxs hidxs u u (Tuple.length_deserialize hu) idx hidx ht
        rows row.1 (Option.isSome_iff_exists.mpr ⟨k, hk⟩)
      subst ht
      rw [keyAt_of_read hrow hu, Option.mem_def, Option.ite_none_right_eq_some] at hk
      rwa [← Option.some.inj hk.2]
    have hone := run_truncateRow t idxs hu db
    have hremoved := hagree.remove htakes
    have hsig : (db.indexes.removeKeys (coveredKeys idxs u u) row.1).signatures =
        db.indexes.signatures := by simp
    generalize db.indexes.removeKeys (coveredKeys idxs u u) row.1 = im at hone hremoved hsig
    have hshape : im.shape = db.indexes.shape := by
      rw [IndexManager.shape_eq_map, IndexManager.shape_eq_map, hsig]
    obtain ⟨indexes, versions, hrun, hshape', hagree'⟩ := @ih
      { db with indexes := im, versions := db.versions.stageDelete t row.1 } (without rows row.1)
      (by rwa [hshape]) (hidxs.congr hsig) hnodup.2 hremoved fun row' hrow' => by
        have hne : row'.1 ≠ row.1 := fun he => hnodup.1 (he ▸ List.mem_map_of_mem hrow')
        obtain ⟨h, hforeign, hread⟩ := hl row' (List.mem_cons_of_mem _ hrow')
        exact ⟨by simp [without, hne, h], fun t' ht => by simp [without, hforeign t' ht], hread⟩
    refine ⟨indexes, versions, ?_, hshape'.trans hshape, ?_⟩
    · exact (Prog.run_bind_ok _ hone _).trans hrun
    · rwa [List.map_cons, ← without_withoutAll]

end Exec

theorem TableManager.heap_truncateTable (tm : TableManager) (t : TableId) :
    (tm.truncateTable t).heap = Function.update tm.heap t fun _ => none :=
  (samePages_truncateTable tm t).heap.trans (heap_setPages_nil tm t)

/-- Nothing is left of a table without the rows that it had. -/
theorem TableManager.WF.withoutAll_tuples {tm : TableManager} (h : tm.WF) (t : TableId) :
    withoutAll tm.heap ((tm.tuples t).map Prod.fst) = (tm.truncateTable t).heap := by
  rw [heap_truncateTable]
  funext t' r
  have hlive : r ∈ (tm.tuples t).map Prod.fst ↔ (tm.heap t r).isSome := by
    simp [mem_tuples, Option.isSome_iff_exists]
  simp only [withoutAll, hlive, Function.update_apply]
  by_cases ht : t' = t
  · subst ht
    cases tm.heap t' r <;> simp
  · rw [if_neg ht, ite_eq_right_iff]
    intro hsome
    obtain ⟨b, hb⟩ := Option.isSome_iff_exists.mp hsome
    by_contra hother
    obtain ⟨b', hb'⟩ := Option.ne_none_iff_exists'.mp (Ne.symm hother)
    exact ht (h.owner_unique hb' hb)

namespace Db

variable {db : Db}

theorem run_visitTruncate (hok : db.Ok) (h : db.IndexesAgree) (t : TableId) :
    ∃ indexes versions, (Exec.visitTruncate t).run db = (.ok { message := "TRUNCATE RELATION" },
        { db with tables := db.tables.truncateTable t, indexes, versions }) ∧
      indexes.shape = db.indexes.shape ∧
      indexes.Agree db.catalog (db.tables.truncateTable t).heap := by
  obtain ⟨indexes, versions, hrun, hshape, hagree⟩ := @Exec.run_truncateRows t
    (db.indexes.forTable t) (db.tables.tuples t) db.discardOutsideTxn db.tables.heap hok.names
    (indexesOf_forTable db t) (hok.tables.nodup_tuples t) h fun row hrow => by
      have hb := TableManager.mem_tuples.mp hrow
      refine ⟨hb, fun t' ht => ?_, ?_⟩
      · exact hok.foreign (hok.tables.found hb) t' ht
      · obtain ⟨u, hu, -⟩ := hok.canonical t row.1 row.2 hb
        exact ⟨u, hu⟩
  rw [hok.tables.withoutAll_tuples] at hagree
  refine ⟨indexes, (commitOutsideTxn { db with versions }).versions, ?_, hshape, hagree⟩
  change Exec.run ((db.discardOutsideTxn.tables.tuples t).forM (Exec.truncateRow t
    (db.catalog.loadSchema t) (db.discardOutsideTxn.indexes.forTable t))) db.discardOutsideTxn =
      _ at hrun
  simp only [Exec.visitTruncate, Prog.bind_eq, Exec.run_bind, Exec.run_get,
    Exec.run_discardOutsideTxn, Exec.run_scanRows, hrun, Exec.run_call, Exec.run_commitOutsideTxn]
  rfl

/-- Indexes that agree with the heap lead to its rows. -/
theorem stored_of_agree {tm : TableManager} {im : IndexManager} {catalog : Catalog} (hwf : tm.WF)
    (hcanonical : ∀ t rid b, tm.heap t rid = some b → Tuple.Canonical (catalog.loadSchema t) b)
    (hnames : (im.shape.map Prod.fst).Nodup) (h : im.Agree catalog tm.heap) :
    Stored tm im catalog := by
  refine ⟨hwf, hcanonical, fun t rid ⟨idx, hidx, key, hkey⟩ => ?_, hnames⟩
  obtain ⟨hmem, rfl⟩ := IndexManager.mem_forTable.mp hidx
  have hat := (h idx hmem).entries rid
  have hsome : tm.heap idx.tableId rid ≠ none := by
    intro hnone
    rw [keyAt_eq_none hnone] at hat
    have hnil := List.forall₂_nil_right_iff.mp hat
    have hin : key ∈ idx.tree.keysAt rid :=
      List.mem_map.mpr ⟨(key, rid), List.mem_filter.mpr ⟨hkey, by simp⟩, rfl⟩
    rw [hnil] at hin
    cases hin
  obtain ⟨b, hb⟩ := Option.ne_none_iff_exists'.mp hsome
  exact .inr ⟨hwf.allocated_of_heap hb, fun _ => (TableManager.heap_eq_some_iff.mp hb).1⟩

theorem IndexesAgree.truncate (h : db.IndexesAgree) (hok : db.Ok) (t : TableId) :
    ((Exec.visitTruncate t).run db).2.Ok ∧ ((Exec.visitTruncate t).run db).2.IndexesAgree := by
  obtain ⟨indexes, versions, hrun, hshape, hagree⟩ := run_visitTruncate hok h t
  rw [hrun]
  have hwf : (db.tables.truncateTable t).WF :=
    (TableManager.samePages_truncateTable db.tables t).wf (hok.tables.setPages_nil t)
  refine ⟨{ stored_of_agree hwf ?_ (by rw [hshape]; exact hok.names) hagree with
    only := hok.only
    clear := hok.clear
    next_pos := hok.next_pos
    active := hok.active
    undoable := fun closures hc u hu => (hok.undoable closures hc u hu).congr hshape rfl }, hagree⟩
  intro t' rid b hb
  rw [TableManager.heap_truncateTable, Function.update_apply] at hb
  split at hb
  · cases hb
  · exact hok.canonical t' rid b hb

end Db

/-! ## BUILD INDEX -/

/-- The tuples at these record ids only. -/
def only (rows : Rows) (rids : List RecordID) : Rows :=
  fun t r => if r ∈ rids then rows t r else none

namespace Exec

/-- One round of the loop of `visit(CreateIdxStatement)`. -/
abbrev indexRow (idx : Index) (schema : Schema) (row : RecordID × Bytes) : Exec Unit := do
  let (rid, t) ← ofExcept (deserializeRow schema row)
  addKeys (coveredKeys [idx] t t) rid

theorem indexRow_eq {idx : Index} {row : RecordID × Bytes} {schema : Schema} {u : Tuple}
    (hu : Tuple.deserialize row.2 schema = .ok u) :
    indexRow idx schema row = addKeys (coveredKeys [idx] u u) row.1 := by
  simp only [indexRow, deserializeRow, hu, bind, Except.bind, pure, Except.pure, ofExcept]
  rfl

theorem addKeys_append {im : IndexManager} {cur : Index} {keys : List (String × Value)}
    (h : ∀ idx ∈ im, ∀ k ∈ keys, k.1 ≠ idx.name) (rid : RecordID) :
    IndexManager.addKeys (im ++ [cur]) keys rid = im ++ IndexManager.addKeys [cur] keys rid := by
  rw [IndexManager.addKeys_eq_map, IndexManager.addKeys_eq_map, List.map_append]
  refine congrArg (· ++ _) ((List.map_congr_left fun idx hidx => ?_).trans (List.map_id im))
  have hnone : IndexManager.keysFor keys idx.name = [] := by
    simpa [IndexManager.keysFor, List.filter_eq_nil_iff] using fun k v hk => h idx hidx (k, v) hk
  rw [hnone]
  rfl

/-- A round of the loop gives the new index the entry of one more row. -/
theorem run_indexRow {idx cur : Index} {im : IndexManager} {done : List RecordID}
    {row : RecordID × Bytes} {u : Tuple} {db : Db} (hindexes : db.indexes = im ++ [cur])
    (hcur : IndexManager.signatures [cur] = IndexManager.signatures [idx])
    (hnames : ∀ i ∈ im, idx.name ≠ i.name)
    (hagree : cur.Agrees db.catalog (only db.tables.heap done))
    (hrow : db.tables.heap idx.tableId row.1 = some row.2) (hdone : row.1 ∉ done)
    (hu : Tuple.deserialize row.2 (db.catalog.loadSchema idx.tableId) = .ok u)
    (hgiven : Prog.All (fun (c : Call) db => c.apply db) Db.IndexGiven
      (indexRow idx (db.catalog.loadSchema idx.tableId) row) db) :
    ∃ cur', (indexRow idx (db.catalog.loadSchema idx.tableId) row).run db =
        (.ok (), { db with indexes := im ++ [cur'] }) ∧
      IndexManager.signatures [cur'] = IndexManager.signatures [idx] ∧
      cur'.Agrees db.catalog (only db.tables.heap (row.1 :: done)) := by
  have hkeysnames : ∀ k ∈ coveredKeys [idx] u u, k.1 = idx.name := by
    intro k hk
    obtain ⟨i, hi, rfl⟩ := List.mem_map.mp hk
    rw [List.mem_singleton.mp (List.mem_of_mem_filter hi)]
  have hnodupKeys : ((coveredKeys [idx] u u).map Prod.fst).Nodup := by
    simp only [coveredKeys, List.map_map]
    exact List.Nodup.sublist (List.filter_sublist.map _) (List.nodup_singleton _)
  rw [indexRow_eq hu] at hgiven
  have hrows : ∀ t r, r ≠ row.1 →
      only db.tables.heap (row.1 :: done) t r = only db.tables.heap done t r := by
    intro t r hr
    simp [only, hr]
  have hself : keyAt db.catalog (only db.tables.heap (row.1 :: done)) cur row.1 =
      keyAt db.catalog db.tables.heap cur row.1 := keyAt_congr (by simp [only])
  simp only [IndexManager.signatures, List.map_cons, List.map_nil, List.cons.injEq, Prod.mk.injEq,
    and_true] at hcur
  obtain ⟨hname, htable, hcolumns⟩ := hcur
  have hbrings : IndexManager.Brings db.catalog (only db.tables.heap (row.1 :: done)) [cur]
      (coveredKeys [idx] u u) row.1 := by
    refine ⟨hnodupKeys, fun i hi hsome => ?_, fun k hk i hi hname' => ?_⟩
    · obtain rfl := List.mem_singleton.mp hi
      rw [hself, keyAt_of_read (by rw [htable]; exact hrow) (by rw [htable]; exact hu)] at hsome
      have hcovers : idx.coversRow u.length := by
        by_contra hno
        rw [Index.coversRow] at hno
        rw [Index.coversRow, hcolumns, if_neg hno] at hsome
        cases hsome
      simp [coveredKeys, hcovers, hname]
    · obtain rfl := List.mem_singleton.mp hi
      rw [hself]
      exact Db.given_addKeys hnodupKeys hgiven k hk i (by simp [hindexes]) hname'
  have hadded := @IndexManager.Agree.add _ _ _ [cur] _ _ (by simpa [IndexManager.Agree] using hagree)
    hrows (fun t => by simp [only, hdone]) hbrings
  obtain ⟨cur', hcur'⟩ : ∃ cur',
      IndexManager.addKeys [cur] (coveredKeys [idx] u u) row.1 = [cur'] :=
    ⟨_, IndexManager.addKeys_eq_map [cur] _ row.1⟩
  refine ⟨cur', ?_, ?_, ?_⟩
  · rw [indexRow_eq hu, run_addKeys, hindexes, addKeys_append, hcur']
    exact fun i hi k hk he => hnames i hi ((hkeysnames k hk).symm.trans he)
  · rw [← hcur', IndexManager.signatures_addKeys]
    simp [IndexManager.signatures, hname, htable, hcolumns]
  · rw [hcur'] at hadded
    exact hadded cur' (by simp)

theorem run_indexRows {idx cur : Index} {im : IndexManager} {done : List RecordID}
    {l : List (RecordID × Bytes)} {db : Db} (hindexes : db.indexes = im ++ [cur])
    (hcur : IndexManager.signatures [cur] = IndexManager.signatures [idx])
    (hnames : ∀ i ∈ im, idx.name ≠ i.name)
    (hagree : cur.Agrees db.catalog (only db.tables.heap done)) (hnodup : (l.map Prod.fst).Nodup)
    (hl : ∀ row ∈ l, db.tables.heap idx.tableId row.1 = some row.2 ∧ row.1 ∉ done ∧
      ∃ u, Tuple.deserialize row.2 (db.catalog.loadSchema idx.tableId) = .ok u)
    (hgiven : Prog.All (fun (c : Call) db => c.apply db) Db.IndexGiven
      (l.forM (indexRow idx (db.catalog.loadSchema idx.tableId))) db) :
    ∃ cur', Exec.run (l.forM (indexRow idx (db.catalog.loadSchema idx.tableId))) db =
        (.ok (), { db with indexes := im ++ [cur'] }) ∧
      IndexManager.signatures [cur'] = IndexManager.signatures [idx] ∧
      cur'.Agrees db.catalog (only db.tables.heap (l.map Prod.fst ++ done)) := by
  induction l generalizing db cur done with
  | nil => exact ⟨cur, by rw [← hindexes]; rfl, hcur, hagree⟩
  | cons row l ih =>
    rw [List.map_cons, List.nodup_cons] at hnodup
    obtain ⟨hrow, hdone, u, hu⟩ := hl row (by simp)
    obtain ⟨hfirst, hrest⟩ := Prog.All.bind_iff.mp hgiven
    obtain ⟨cur₁, hone, hsig, hadded⟩ :=
      run_indexRow hindexes hcur hnames hagree hrow hdone hu hfirst
    have hl' : ∀ row' ∈ l, db.tables.heap idx.tableId row'.1 = some row'.2 ∧
        row'.1 ∉ row.1 :: done ∧
        ∃ u, Tuple.deserialize row'.2 (db.catalog.loadSchema idx.tableId) = .ok u := by
      intro row' hrow'
      obtain ⟨hlive, hnew, hread⟩ := hl row' (List.mem_cons_of_mem _ hrow')
      refine ⟨hlive, fun hin => ?_, hread⟩
      rcases List.mem_cons.mp hin with he | hin
      · exact hnodup.1 (he ▸ List.mem_map_of_mem hrow')
      · exact hnew hin
    obtain ⟨cur', hrun, hsig', hagree'⟩ := @ih cur₁ (row.1 :: done)
      { db with indexes := im ++ [cur₁] } rfl hsig hadded hnodup.2 hl' (hrest () _ hone)
    refine ⟨cur', (Prog.run_bind_ok _ hone _).trans hrun, hsig', ?_⟩
    have hsame : only db.tables.heap ((row :: l).map Prod.fst ++ done) =
        only db.tables.heap (l.map Prod.fst ++ row.1 :: done) := by
      funext t r
      simp only [only, List.map_cons, List.mem_append, List.mem_cons, or_assoc, or_left_comm]
    rwa [hsame]

end Exec

/-- All tuples of a table are those at the record ids that a scan of it yields. -/
theorem only_tuples {tm : TableManager} (t : TableId) (r : RecordID) :
    only tm.heap ((tm.tuples t).map Prod.fst) t r = tm.heap t r := by
  have hlive : r ∈ (tm.tuples t).map Prod.fst ↔ (tm.heap t r).isSome := by
    simp [TableManager.mem_tuples, Option.isSome_iff_exists]
  simp only [only, hlive]
  cases tm.heap t r <;> simp

namespace Db

variable {db : Db}

/-- A BUILD INDEX with a new name adds an index that agrees with the rows of its table. -/
theorem run_visitCreateIdx (hok : db.Ok) {node : CreateIdxStatement}
    (hnew : (db.indexes.any fun idx => idx.name = node.indexName) = false)
    (hgiven : Prog.All (fun (c : Call) db => c.apply db) IndexGiven (Exec.visitCreateIdx node) db) :
    ∃ cur : Index, (Exec.visitCreateIdx node).run db =
        (.ok { message := "BUILD INDEX" }, { db with indexes := db.indexes ++ [cur] }) ∧
      cur.name = node.indexName ∧ cur.Agrees db.catalog db.tables.heap := by
  generalize hidx : ({ name := node.indexName, tableId := node.tableId
                       columns := node.columnIndices } : Index) = idx
  have hname : idx.name = node.indexName := by rw [← hidx]
  have htable : idx.tableId = node.tableId := by rw [← hidx]
  have hcreate : db.indexes.create node.indexName node.tableId node.columnIndices =
      db.indexes ++ [idx] := by
    rw [IndexManager.create, hnew, ← hidx]
    rfl
  have hnames : ∀ i ∈ db.indexes, idx.name ≠ i.name := by
    intro i hi he
    simp only [List.any_eq_false, decide_eq_true_eq] at hnew
    exact hnew i hi (he.symm.trans hname)
  have hempty : idx.Agrees db.catalog (only db.tables.heap []) := by
    rw [← hidx]
    refine ⟨Tree.sorted_nil, fun rid => ?_⟩
    rw [keyAt_eq_none (by simp [only])]
    exact .nil
  have hrows := (Prog.All.bind_iff.mp hgiven).2 db db rfl
  simp only [hnew, hidx] at hrows
  replace hrows := (Prog.All.bind_iff.mp hrows).2 () { db with indexes := db.indexes ++ [idx] }
    (by rw [← hcreate]; rfl)
  replace hrows := (Prog.All.bind_iff.mp hrows).2 _ _ rfl
  replace hrows := (Prog.All.bind_iff.mp ((Prog.All.bind_iff.mp hrows).2 _ _ rfl)).1
  have hl : ∀ row ∈ db.tables.tuples node.tableId,
      db.tables.heap idx.tableId row.1 = some row.2 ∧ row.1 ∉ [] ∧
        ∃ u, Tuple.deserialize row.2 (db.catalog.loadSchema idx.tableId) = .ok u := by
    intro row hrow
    have hb := TableManager.mem_tuples.mp hrow
    obtain ⟨u, hu, -⟩ := hok.canonical _ row.1 row.2 hb
    exact ⟨by rwa [htable], by simp, u, by rwa [htable]⟩
  obtain ⟨cur, hrun, hsig, hagree⟩ := @Exec.run_indexRows idx idx db.indexes []
    (db.tables.tuples node.tableId) { db with indexes := db.indexes ++ [idx] } rfl rfl hnames hempty
    (hok.tables.nodup_tuples node.tableId) hl (by rw [htable]; exact hrows)
  simp only [IndexManager.signatures, List.map_cons, List.map_nil, List.cons.injEq, Prod.mk.injEq,
    and_true] at hsig
  refine ⟨cur, ?_, hsig.1.trans hname, hagree.congr fun r => ?_⟩
  · rw [htable] at hrun
    simp only [Exec.visitCreateIdx, Prog.bind_eq, Exec.run_bind, Exec.run_get, Exec.run_call,
      Call.apply, hcreate, hnew, hidx]
    exact Prog.run_bind_ok _ hrun _
  · rw [List.append_nil, hsig.2.1, htable]
    exact (only_tuples node.tableId r).symm

theorem IndexesAgree.createIdx (h : db.IndexesAgree) (hok : db.Ok) (node : CreateIdxStatement)
    (hgiven : Prog.All (fun (c : Call) db => c.apply db) IndexGiven (Exec.visitCreateIdx node) db) :
    ((Exec.visitCreateIdx node).run db).2.Ok ∧
      ((Exec.visitCreateIdx node).run db).2.IndexesAgree := by
  cases hnew : db.indexes.any fun idx => idx.name = node.indexName with
  | true =>
    have hrun : (Exec.visitCreateIdx node).run db = (.ok { message := "BUILD INDEX" }, db) := by
      simp only [Exec.visitCreateIdx, Prog.bind_eq, Exec.run_bind, Exec.run_get, Exec.run_call,
        Call.apply, IndexManager.create, hnew]
      rfl
    rw [hrun]
    exact ⟨hok, h⟩
  | false =>
    obtain ⟨cur, hrun, hname, hagree⟩ := run_visitCreateIdx hok hnew hgiven
    have hall : (db.indexes ++ [cur]).Agree db.catalog db.tables.heap := by
      intro i hi
      rcases List.mem_append.mp hi with hi | hi
      · exact h i hi
      · exact List.mem_singleton.mp hi ▸ hagree
    have hshape : (db.indexes ++ [cur]).shape = db.indexes.shape ++ [(cur.name, cur.tableId)] :=
      List.map_append
    have hfresh : cur.name ∉ db.indexes.shape.map Prod.fst := by
      simp only [List.any_eq_false, decide_eq_true_eq] at hnew
      simpa [IndexManager.shape, hname] using hnew
    have hnames : ((db.indexes ++ [cur]).shape.map Prod.fst).Nodup := by
      rw [hshape, List.map_append]
      exact hok.names.append (List.nodup_singleton _)
        (List.disjoint_singleton.mpr hfresh)
    rw [hrun]
    refine ⟨{ stored_of_agree hok.tables hok.canonical hnames hall with
      only := hok.only
      clear := hok.clear
      next_pos := hok.next_pos
      active := hok.active
      undoable := fun closures hc u hu => ?_ }, hall⟩
    have hkeys : ∀ {t keys}, db.indexes.KeysOf t keys →
        (db.indexes ++ [cur] : IndexManager).KeysOf t keys :=
      fun hkeys k hk => hshape ▸ List.mem_append_left _ (hkeys k hk)
    have hundo := hok.undoable closures hc u hu
    cases u with
    | insert => trivial
    | delete => exact ⟨hundo.1, hkeys hundo.2⟩
    | update => exact ⟨hundo.1, hkeys hundo.2⟩

/-! ## Sessions -/

theorem IndexesAgree.change (h : db.IndexesAgree) (hok : db.Ok) (depth : Nat) {s : Statement}
    (hmeets : s.Meets IndexesGiven depth db) : (db.execute depth (.change s)).IndexesAgree :=
  indexRules.start_exec (fun _ h => h) (fun _ h => h) depth s hok h hmeets

/-- START and SAVE leave the rows and the indexes as they are. -/
theorem IndexesAgree.transaction (h : db.IndexesAgree) {kind : TransactionKind}
    (hkind : kind ≠ .Rollback) : (db.visitTransaction kind).1.IndexesAgree := by
  cases kind with
  | Rollback => exact absurd rfl hkind
  | Begin =>
    simp only [visitTransaction]
    split
    · exact h
    · exact h
  | Commit =>
    simp only [visitTransaction, Db.commit]
    split
    · exact h
    · split
      · exact h
      · exact h

/-- For each record id of a live row that it covers an index has one entry, with a key equal to
that of the row, and it has no other entry. -/
def EntriesAgree (db : Db) : Prop :=
  ∀ idx ∈ db.indexes, ∀ rid, List.Forall₂ (fun k key => keyEqual k key) (idx.tree.keysAt rid)
    (keyAt db.catalog db.tables.heap idx rid).toList

end Db

/-- The keys that a command adds and removes are those of the rows that are there. -/
def Command.Meets (depth : Nat) (db : Db) : Command → Prop
  | request (.change s) => s.Meets Db.IndexesGiven depth db
  | request (.transaction kind) => kind = .Rollback → db.UndoGiven
  | truncate _ => True
  | createIdx node =>
    Prog.All (fun (c : Call) db => c.apply db) Db.IndexGiven (Exec.visitCreateIdx node) db

instance (depth : Nat) (db : Db) (c : Command) : Decidable (c.Meets depth db) := by
  unfold Command.Meets
  split <;> infer_instance

theorem Db.IndexesAgree.perform {db : Db} (h : db.IndexesAgree) (hok : db.Ok) (depth : Nat)
    {c : Command} (hmeets : c.Meets depth db) :
    (db.perform depth c).Ok ∧ (db.perform depth c).IndexesAgree := by
  cases c with
  | request r =>
    refine ⟨hok.execute depth r, ?_⟩
    cases r with
    | change s => exact h.change hok depth hmeets
    | transaction kind =>
      by_cases hkind : kind = .Rollback
      · subst hkind
        exact h.rollback hok (hmeets rfl)
      · exact h.transaction hkind
  | truncate t => exact h.truncate hok t
  | createIdx node => exact h.createIdx hok node hmeets

/-- A PUT of one row in a transaction that is undone, with an index built before or after it. -/
def indexedPut (before : Bool) : List Command :=
  let build : Command := .createIdx { indexName := "i", tableId := 1, columnIndices := [0] }
  let put : Command := .request (.change (.put [1]))
  [.request (.transaction .Begin)] ++ (if before then [build, put] else [put, build]) ++
    [.request (.transaction .Rollback)]

end Relite.Vm
