import Relite.Vm.IndexedRows

/-!
# Index maintenance

The statements keep the indexes by hand: they remove the keys of the row that they have read
and add those of the row that they are about to store. The indexes agree with the heap as
long as these are the keys of the row that is there.
-/
namespace Relite.Vm
open Lib Semantic Txn

namespace TableManager

/-- A tuple has come to `nr` in table `t`, where there was none, or none has come. -/
structure Came (rows : Rows) (t : TableId) (tm : TableManager) (nr : RecordID) : Prop where
  other : ∀ t' r, r ≠ nr → tm.heap t' r = rows t' r
  free : ∀ t', rows t' nr = none
  foreign : ∀ t', t' ≠ t → tm.heap t' nr = none

theorem heap_eq_none_of_invalid (tm : TableManager) (t : TableId) : tm.heap t {} = none := by
  by_contra hsome
  obtain ⟨b, hb⟩ := Option.ne_none_iff_exists'.mp hsome
  have hget := (heap_eq_some_iff.mp hb).2
  rw [getTuple_eq_none_of_invalid (by decide)] at hget
  cases hget

theorem Inserted.came {tm tm' : TableManager} (hwf : tm.WF) {t : TableId} {bytes : Bytes}
    {nr : RecordID} (h : Inserted tm t bytes tm' nr) : Came tm.heap t tm' nr := by
  cases h with
  | refused _ hheap =>
    exact ⟨fun _ _ _ => hheap ▸ rfl, fun _ => heap_eq_none_of_invalid _ _,
      fun _ _ => heap_eq_none_of_invalid _ _⟩
  | placed hfresh _ _ _ hheap =>
    have hfree : ∀ t', tm.heap t' nr = none := fun t' => by
      by_contra hsome
      obtain ⟨b, hb⟩ := Option.ne_none_iff_exists'.mp hsome
      exact hfresh (hwf.allocated_of_heap hb)
    refine ⟨fun t' r hr => ?_, hfree, fun t' ht => ?_⟩
    · rw [hheap, setRow_apply, if_neg (by tauto)]
    · rw [hheap, setRow_apply, if_neg (by tauto), hfree]

theorem WF.heap_eraseTuple_eq {tm : TableManager} (h : tm.WF) (rid : RecordID) :
    (tm.eraseTuple rid).1.heap = without tm.heap rid :=
  funext fun t => funext fun r => (h.eraseTuple rid).2.2.2 t r

theorem Updated.came {tm tm' : TableManager} (hwf : tm.WF) {t : TableId} {bytes : Bytes}
    {rid nr : RecordID} (h : Updated tm t rid bytes tm' nr) :
    Came (without tm.heap rid) t tm' nr := by
  cases h with
  | inPlace hlive _ _ hheap =>
    refine ⟨fun t' r hr => ?_, fun t' => by simp [without], fun t' ht => ?_⟩
    · rw [hheap, setRow_apply, if_neg (by tauto)]
      simp [without, hr]
    · rw [hheap, setRow_apply, if_neg (by tauto)]
      by_contra hsome
      obtain ⟨b, hb⟩ := Option.ne_none_iff_exists'.mp hsome
      obtain ⟨b', hb'⟩ := Option.isSome_iff_exists.mp hlive
      exact ht (hwf.owner_unique hb hb')
  | moved hins =>
    rw [← hwf.heap_eraseTuple_eq rid]
    exact hins.came (hwf.eraseTuple rid).1

theorem WF.came_insertTuple {tm : TableManager} (h : tm.WF) (t : TableId) (bytes : Bytes) :
    Came tm.heap t (tm.insertTuple t bytes).1 (tm.insertTuple t bytes).2 :=
  (h.insertTuple rfl).2.2.came h

theorem WF.came_updateTuple {tm : TableManager} (h : tm.WF) {t : TableId} {rid : RecordID}
    (hlist : rid.pageId ∈ tm.pageList t) (bytes : Bytes) :
    Came (without tm.heap rid) t (tm.updateTuple t rid bytes).1 (tm.updateTuple t rid bytes).2 :=
  (h.updateTuple (fun _ => hlist) rfl).2.2.came h

end TableManager

/-! ## What is assumed of the calls that change indexes -/

namespace Db

abbrev IndexesAgree (db : Db) : Prop := db.indexes.Agree db.catalog db.tables.heap

/-- A key that is added is that of the row which is there, and in order with the others; a
key that is removed is that of the row, if there is one. -/
def IndexGiven (db : Db) : Call → Prop
  | .indexAdd name key rid => ∀ idx ∈ db.indexes, idx.name = name →
    Tree.Ordered (key :: idx.tree.map Prod.fst) ∧
      ∃ k ∈ keyAt db.catalog db.tables.heap idx rid, keyEqual key k
  | .indexRemove name key rid => ∀ idx ∈ db.indexes, idx.name = name →
    ∀ k ∈ keyAt db.catalog db.tables.heap idx rid, k = key
  | _ => True

instance (db : Db) (c : Call) : Decidable (db.IndexGiven c) := by
  cases c <;> (unfold IndexGiven; infer_instance)

abbrev IndexesGiven (_ : Origin) : Db → Call → Prop := IndexGiven

variable {db : Db}

theorem mem_onIndex_of_ne {im : IndexManager} {name : String} {f : Index → Index} {idx : Index}
    (h : idx ∈ im) (hne : idx.name ≠ name) : idx ∈ im.onIndex name f :=
  List.mem_map.mpr ⟨idx, h, if_neg hne⟩

/-- A loop over keys, one for each index: what each call is given holds before the loop. -/
theorem given_of_forM {c : String × Value → Call} {f : Value → Index → Index}
    (happly : ∀ k db, ((c k).apply db).1 = { db with indexes := db.indexes.onIndex k.1 (f k.2) })
    (hgiven : ∀ {db db' : Db} {k}, db'.catalog = db.catalog → db'.tables = db.tables →
      (∀ idx ∈ db.indexes, idx.name = k.1 → idx ∈ db'.indexes) → db'.IndexGiven (c k) →
      db.IndexGiven (c k)) :
    ∀ {keys : List (String × Value)} {db : Db}, (keys.map Prod.fst).Nodup →
      Prog.All (fun (c : Call) db => c.apply db) IndexGiven
        (keys.forM fun k => Exec.call (c k)) db → ∀ k ∈ keys, db.IndexGiven (c k) := by
  intro keys
  induction keys with
  | nil => exact fun _ _ k h => by cases h
  | cons k₀ keys ih =>
    intro db hnames hall
    rw [List.map_cons, List.nodup_cons] at hnames
    obtain ⟨hfirst, hrest⟩ := Prog.All.bind_iff.mp hall
    refine List.forall_mem_cons.mpr ⟨hfirst (db, c k₀) List.mem_cons_self, fun k hk => ?_⟩
    have hk' := ih hnames.2 (hrest () _ rfl) k hk
    refine hgiven ?_ ?_ (fun idx hidx hname => ?_) hk'
    · change ((c k₀).apply db).1.catalog = _
      rw [happly]
    · change ((c k₀).apply db).1.tables = _
      rw [happly]
    · change idx ∈ ((c k₀).apply db).1.indexes
      rw [happly]
      refine mem_onIndex_of_ne hidx fun he => hnames.1 ?_
      exact List.mem_map.mpr ⟨k, hk, hname.symm.trans he⟩

theorem given_addKeys {keys : List (String × Value)} {rid : RecordID}
    (hnames : (keys.map Prod.fst).Nodup)
    (h : Prog.All (fun (c : Call) db => c.apply db) IndexGiven (Exec.addKeys keys rid) db) :
    ∀ k ∈ keys, db.IndexGiven (.indexAdd k.1 k.2 rid) := by
  refine given_of_forM (c := fun k => .indexAdd k.1 k.2 rid) (f := fun k idx => idx.add k rid)
    (fun _ _ => rfl) ?_ hnames h
  intro db db' k hcat htables hmem hk idx hidx hname
  rw [IndexGiven, hcat, htables] at hk
  exact hk idx (hmem idx hidx hname) hname

theorem given_removeKeys {keys : List (String × Value)} {rid : RecordID}
    (hnames : (keys.map Prod.fst).Nodup)
    (h : Prog.All (fun (c : Call) db => c.apply db) IndexGiven (Exec.removeKeys keys rid) db) :
    ∀ k ∈ keys, db.IndexGiven (.indexRemove k.1 k.2 rid) := by
  refine given_of_forM (c := fun k => .indexRemove k.1 k.2 rid) (f := fun k idx => idx.remove k rid)
    (fun _ _ => rfl) ?_ hnames h
  intro db db' k hcat htables hmem hk idx hidx hname
  rw [IndexGiven, hcat, htables] at hk
  exact hk idx (hmem idx hidx hname) hname

/-! ## The keys of a row -/

theorem nodup_coveredKeys {t : TableId} {idxs : List Index}
    (hnodup : (db.indexes.shape.map Prod.fst).Nodup) (hidxs : IndexesOf t idxs db)
    (width row : Tuple) :
    ((Exec.coveredKeys idxs width row).map Prod.fst).Nodup := by
  have hnames : (idxs.map Index.name).Nodup := by
    have hsame : idxs.map Index.name = (db.indexes.forTable t).map Index.name := by
      have hsig := congrArg (List.map Prod.fst) hidxs
      simpa [IndexManager.signatures, Function.comp_def] using hsig
    rw [hsame]
    simp only [IndexManager.shape, List.map_map] at hnodup
    exact hnodup.sublist (List.filter_sublist.map _)
  simp only [Exec.coveredKeys, List.map_map]
  exact hnames.sublist (List.filter_sublist.map _)

/-- A row of the table has a key in each index that has one for a row of this width. -/
theorem mem_coveredKeys {t : TableId} {idxs : List Index} (hidxs : IndexesOf t idxs db)
    {width row : Tuple} (hwidth : width.length = (db.catalog.loadSchema t).length) {idx : Index}
    (hidx : idx ∈ db.indexes) (ht : idx.tableId = t) {rows : Rows} {rid : RecordID}
    (hsome : (keyAt db.catalog rows idx rid).isSome) :
    (idx.name, idx.keyOf row) ∈ Exec.coveredKeys idxs width row := by
  have hsig : (idx.name, idx.tableId, idx.columns) ∈ IndexManager.signatures idxs :=
    hidxs ▸ List.mem_map_of_mem (IndexManager.mem_forTable.mpr ⟨hidx, ht⟩)
  obtain ⟨idx', hidx', he⟩ := List.mem_map.mp hsig
  simp only [Prod.mk.injEq] at he
  obtain ⟨hname, -, hcolumns⟩ := he
  have hcovers : idx.coversRow width.length := by
    obtain ⟨k, hk⟩ := Option.isSome_iff_exists.mp hsome
    simp only [keyAt, Option.bind_eq_bind, Option.bind_eq_some_iff] at hk
    obtain ⟨bytes, -, u, hu, hk⟩ := hk
    have hlen : u.length = (db.catalog.loadSchema idx.tableId).length := by
      cases hd : Tuple.deserialize bytes (db.catalog.loadSchema idx.tableId) with
      | error e => simp [hd, Except.toOption] at hu
      | ok u' =>
        simp only [hd, Except.toOption, Option.some.injEq] at hu
        exact hu ▸ Tuple.length_deserialize hd
    rw [hwidth, ← ht, ← hlen]
    by_contra hno
    simp [hno] at hk
  refine List.mem_map.mpr ⟨idx', List.mem_filter.mpr ⟨hidx', ?_⟩, ?_⟩
  · simpa [Index.coversRow, hcolumns] using hcovers
  · simp [Index.keyOf, hcolumns, hname]

/-- What `addKeys` is given makes its keys those of the row at `nr`. -/
theorem brings_of_given {t : TableId} {idxs : List Index} {row : Tuple} {nr : RecordID}
    (hnodup : (db.indexes.shape.map Prod.fst).Nodup) (hidxs : IndexesOf t idxs db)
    (hrow : row.length = (db.catalog.loadSchema t).length)
    (hforeign : ∀ t', t' ≠ t → db.tables.heap t' nr = none)
    (hgiven : Prog.All (fun (c : Call) db => c.apply db) IndexGiven
      (Exec.addKeys (Exec.coveredKeys idxs row row) nr) db) :
    db.indexes.Brings db.catalog db.tables.heap (Exec.coveredKeys idxs row row) nr where
  names := nodup_coveredKeys hnodup hidxs row row
  covered idx hidx hsome := by
    have ht : idx.tableId = t := by
      by_contra hne
      rw [keyAt_eq_none (hforeign _ hne)] at hsome
      cases hsome
    exact List.mem_map_of_mem (f := Prod.fst) (mem_coveredKeys hidxs hrow hidx ht hsome)
  equal k hk idx hidx hname :=
    given_addKeys (nodup_coveredKeys hnodup hidxs row row) hgiven k hk idx hidx hname

/-- What `removeKeys` is given makes the key of the row at `rid` one of its keys. -/
theorem takes_of_given {t : TableId} {idxs : List Index} {row : Tuple} {rid : RecordID}
    (hnodup : (db.indexes.shape.map Prod.fst).Nodup) (hidxs : IndexesOf t idxs db)
    (hrow : row.length = (db.catalog.loadSchema t).length)
    (hforeign : ∀ t', t' ≠ t → db.tables.heap t' rid = none)
    (hgiven : Prog.All (fun (c : Call) db => c.apply db) IndexGiven
      (Exec.removeKeys (Exec.coveredKeys idxs row row) rid) db) :
    db.indexes.Takes db.catalog db.tables.heap (Exec.coveredKeys idxs row row) rid := by
  intro idx hidx k hk
  have ht : idx.tableId = t := by
    by_contra hne
    rw [keyAt_eq_none (hforeign _ hne)] at hk
    cases hk
  have hsome := Option.isSome_iff_exists.mpr ⟨k, hk⟩
  have hmem : (idx.name, idx.keyOf row) ∈ Exec.coveredKeys idxs row row :=
    mem_coveredKeys hidxs hrow hidx ht hsome
  rwa [given_removeKeys (nodup_coveredKeys hnodup hidxs row row) hgiven _ hmem idx hidx rfl k hk]

theorem Ok.foreign (hok : db.Ok) {t : TableId} {rid : RecordID} {b : Bytes}
    (hfound : db.tables.Found t rid b) : ∀ t', t' ≠ t → db.tables.heap t' rid = none := by
  intro t' ht
  by_contra hsome
  obtain ⟨b', hb'⟩ := Option.ne_none_iff_exists'.mp hsome
  exact hok.tables.disjoint t' t ht _ (TableManager.heap_eq_some_iff.mp hb').1 hfound.listed

/-! ## Row steps keep the agreement -/

theorem IndexesAgree.insertRow (h : db.IndexesAgree) (hok : db.Ok) {t : TableId}
    {idxs : List Index} {row : Tuple} {bytes : Bytes} {origin : Origin}
    (hidxs : IndexesOf t idxs db) (hrow : row.length = (db.catalog.loadSchema t).length)
    (hgiven : Meets IndexesGiven origin (Exec.insertRow t idxs row bytes) db) :
    (db.insertRow t (Exec.coveredKeys idxs row row) bytes).IndexesAgree := by
  have hcame := hok.tables.came_insertTuple t bytes
  have hadd := (Prog.All.bind_iff.mp ((Prog.All.bind_iff.mp hgiven).2
    (db.tables.insertTuple t bytes).2 { db with tables := (db.tables.insertTuple t bytes).1 } rfl)).1
  exact IndexManager.Agree.add h hcame.other hcame.free
    (@brings_of_given { db with tables := (db.tables.insertTuple t bytes).1 } t idxs row _
      hok.names hidxs hrow hcame.foreign hadd)

theorem IndexesAgree.eraseRow (h : db.IndexesAgree) (hok : db.Ok) {t : TableId}
    {idxs : List Index} {rid : RecordID} {row : Tuple} {bytes b : Bytes} (staged : Bool)
    (hidxs : IndexesOf t idxs db) (hrow : row.length = (db.catalog.loadSchema t).length)
    (hfound : db.tables.Found t rid b)
    (hgiven : Meets IndexesGiven .unchecked (Exec.eraseRow t idxs rid row bytes staged) db) :
    (db.eraseRow t (Exec.coveredKeys idxs row row) rid bytes staged).IndexesAgree := by
  have hrem := (Prog.All.bind_iff.mp hgiven).1
  have hagree := IndexManager.Agree.remove h
    (takes_of_given hok.names hidxs hrow (hok.foreign hfound) hrem)
  exact hagree.congr fun t r => (hok.tables.eraseTuple rid).2.2.2 t r

theorem IndexesAgree.rewriteRow (h : db.IndexesAgree) (hok : db.Ok) {t : TableId}
    {idxs : List Index} {rid : RecordID} {old new : Tuple} {b : Bytes} {origin : Origin}
    (staged : Bool) (hidxs : IndexesOf t idxs db)
    (hold : old.length = (db.catalog.loadSchema t).length)
    (hnew : new.length = (db.catalog.loadSchema t).length) (hfound : db.tables.Found t rid b)
    (hgiven : Meets IndexesGiven origin
      (Exec.rewriteRow t idxs rid old new (db.catalog.loadSchema t) staged) db) :
    (db.rewriteRow t (Exec.rewriteKeys idxs old new) rid (old.serialize (db.catalog.loadSchema t))
      (new.serialize (db.catalog.loadSchema t)) staged).IndexesAgree := by
  obtain ⟨hrem, hrest⟩ := Prog.All.bind_iff.mp hgiven
  have hagree := IndexManager.Agree.remove h
    (takes_of_given hok.names hidxs hold (hok.foreign hfound) hrem)
  have hsig : (db.indexes.removeKeys (Exec.coveredKeys idxs old old) rid).signatures =
      db.indexes.signatures := by simp
  unfold Db.rewriteRow Exec.rewriteKeys
  replace hrest := hrest () _ (Exec.run_removeKeys _ rid db)
  generalize new.serialize (db.catalog.loadSchema t) = bytes at hrest ⊢
  generalize db.indexes.removeKeys (Exec.coveredKeys idxs old old) rid = im at hagree hrest hsig ⊢
  have hcame := hok.tables.came_updateTuple hfound.listed bytes
  have honly : LockManager.Only { db with
      indexes := im, tables := (db.tables.updateTuple t rid bytes).1 }.locks
      { db with indexes := im, tables := (db.tables.updateTuple t rid bytes).1 }.currentTxn :=
    hok.only
  replace hrest := (Prog.All.bind_iff.mp hrest).2 _ _ rfl
  replace hrest := (Prog.All.bind_iff.mp hrest).2 () _ (Exec.run_lockInTxn honly _ true)
  have hnames : (im.shape.map Prod.fst).Nodup := by
    rw [IndexManager.shape_eq_map, hsig, ← IndexManager.shape_eq_map]
    exact hok.names
  have hbrings := fun hnames hidxs hnew hforeign => @brings_of_given _ t idxs new _ hnames hidxs hnew
    hforeign (Prog.All.bind_iff.mp hrest).1
  exact hagree.add hcame.other hcame.free
    (hbrings hnames (hidxs.congr hsig) hnew hcame.foreign)

/-- The rules of indexes. -/
def indexRules : RowRules where
  Start := IndexesAgree
  Inv := IndexesAgree
  Seen _ _ _ _ := True
  Given := IndexesGiven
  start_lock _ _ _ h := h
  start _ h := h
  seen_heap _ _ _ := trivial
  step := by
    intro db db' hok h hstep
    refine ⟨?_, fun _ _ _ _ h => h⟩
    cases hstep with
    | lock rid mode => exact h
    | insert t idxs row origin hidxs hrow _ hgiven => exact h.insertRow hok hidxs hrow hgiven
    | erase t idxs rid row staged hidxs hrow hfound _ hgiven =>
      exact h.eraseRow hok staged hidxs hrow hfound hgiven
    | rewrite t idxs rid old new staged origin hidxs hold hnew hfound _ _ hgiven =>
      exact h.rewriteRow hok staged hidxs hold hnew hfound hgiven

end Db

end Relite.Vm
