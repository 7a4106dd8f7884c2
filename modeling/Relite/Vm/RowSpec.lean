import Relite.Vm.Calls

/-!
# Row steps keep a database well formed

`Db.Ok` is the invariant of a database that one session works on. `RowStep` lists the
steps that a statement is made of, and says of each row it erases or rewrites that the
statement has read it before, in this state or in an earlier one, and of each row that a
PUT or MODIFY gives to its table that it has passed the checks.
-/
namespace Relite.Vm
open Lib Semantic Txn

namespace TableManager

/-- Where a record id from an index of the table leads: nowhere, or to a row of the table. -/
def Leads (tm : TableManager) (t : TableId) (rid : RecordID) : Prop :=
  rid = {} ∨ tm.Allocated rid ∧ ((tm.getTuple rid).isSome → rid.pageId ∈ tm.pageList t)

theorem Leads.listed {tm : TableManager} {t : TableId} {rid : RecordID} (h : tm.Leads t rid)
    {b : Bytes} (hb : tm.getTuple rid = some b) : tm.heap t rid = some b := by
  rcases h with rfl | ⟨-, h⟩
  · rw [getTuple_eq_none_of_invalid (by decide)] at hb
    cases hb
  · exact heap_eq_some_iff.mpr ⟨h (by simp [hb]), hb⟩

theorem Leads.later {tm tm' : TableManager} {t : TableId} {rid : RecordID} (h : tm.Leads t rid)
    (hl : Later tm tm') : tm'.Leads t rid := by
  refine h.imp_right fun ⟨ha, hm⟩ => ⟨hl.allocated rid ha, fun hlive => ?_⟩
  refine hl.listed t _ (hm ?_)
  by_contra hdead
  simp [hl.dead rid ha (by simpa using hdead)] at hlive

/-- A row that a scan of the table has met, now or before. -/
structure Found (tm : TableManager) (t : TableId) (rid : RecordID) (b : Bytes) : Prop where
  allocated : tm.Allocated rid
  listed : rid.pageId ∈ tm.pageList t
  ne_nil : b ≠ []
  length_le : b.length ≤ 4080

theorem WF.found {tm : TableManager} (h : tm.WF) {t : TableId} {rid : RecordID} {b : Bytes}
    (hb : tm.heap t rid = some b) : tm.Found t rid b where
  allocated := h.allocated_of_heap hb
  listed := (heap_eq_some_iff.mp hb).1
  ne_nil := ne_nil_of_heap hb
  length_le := h.length_le (heap_eq_some_iff.mp hb).2

theorem Found.later {tm tm' : TableManager} {t : TableId} {rid : RecordID} {b : Bytes}
    (h : tm.Found t rid b) (hl : Later tm tm') : tm'.Found t rid b :=
  { h with allocated := hl.allocated rid h.allocated, listed := hl.listed t _ h.listed }

theorem Inserted.leads {tm tm' : TableManager} {t : TableId} {bytes : Bytes} {rid : RecordID}
    (h : Inserted tm t bytes tm' rid) : tm'.Leads t rid := by
  cases h with
  | refused => exact .inl rfl
  | placed _ halloc _ _ hheap =>
    refine .inr ⟨halloc, fun _ => ?_⟩
    exact (heap_eq_some_iff.mp (hheap ▸ setRow_self ..)).1

/-- Every tuple after an insert was there before, or is the one inserted. -/
theorem Inserted.heap_eq_some {tm tm' : TableManager} {t : TableId} {bytes : Bytes}
    {rid : RecordID} (h : Inserted tm t bytes tm' rid) {t' : TableId} {r : RecordID} {b : Bytes}
    (hb : tm'.heap t' r = some b) :
    tm.heap t' r = some b ∨ t' = t ∧ r = rid ∧ b = bytes ∧ bytes.length ≤ 4080 := by
  cases h with
  | refused _ hheap => exact .inl (hheap ▸ hb)
  | placed _ _ _ hle hheap =>
    rw [hheap, setRow_apply] at hb
    grind

theorem WF.heap_eraseTuple {tm : TableManager} (h : tm.WF) {r : RecordID} {t : TableId}
    {rid : RecordID} {b : Bytes} (hb : (tm.eraseTuple r).1.heap t rid = some b) :
    tm.heap t rid = some b ∧ rid ≠ r := by
  rw [(h.eraseTuple r).2.2.2] at hb
  grind

theorem WF.heap_of_eraseTuple {tm : TableManager} (h : tm.WF) {r : RecordID} {t : TableId}
    {rid : RecordID} {b : Bytes} (hb : (tm.eraseTuple r).1.heap t rid = some b) :
    tm.heap t rid = some b := (h.heap_eraseTuple hb).1

theorem Updated.leads {tm tm' : TableManager} {t : TableId} {bytes : Bytes} {rid nr : RecordID}
    (hrid : tm.Allocated rid) (hlist : rid.pageId ∈ tm.pageList t) (hl : Later tm tm')
    (h : Updated tm t rid bytes tm' nr) : tm'.Leads t nr := by
  cases h with
  | inPlace => exact .inr ⟨hl.allocated rid hrid, fun _ => hl.listed t _ hlist⟩
  | moved hins => exact hins.leads

/-- Every tuple after an update was there before, at another record id, or is the new one. -/
theorem Updated.heap_eq_some {tm tm' : TableManager} (hwf : tm.WF) {t : TableId} {bytes : Bytes}
    {rid nr : RecordID} (h : Updated tm t rid bytes tm' nr) {t' : TableId} {r : RecordID}
    {b : Bytes} (hb : tm'.heap t' r = some b) :
    tm.heap t' r = some b ∧ (t' = t → r ≠ rid) ∨
      t' = t ∧ r = nr ∧ b = bytes ∧ bytes.length ≤ 4080 := by
  cases h with
  | inPlace _ _ hle hheap =>
    rw [hheap, setRow_apply] at hb
    grind
  | moved hins =>
    refine (hins.heap_eq_some hb).imp_left fun hb => ?_
    obtain ⟨hold, hne⟩ := hwf.heap_eraseTuple hb
    exact ⟨hold, fun _ => hne⟩

/-- What the tuples of `tm'` are after one was written in table `t`, in place of the one that
was `replaced`: each was there before or is the new one. -/
def Wrote (tm : TableManager) (t : TableId) (replaced : Option RecordID) (bytes : Bytes)
    (tm' : TableManager) : Prop :=
  ∃ nr, ∀ t' r b, tm'.heap t' r = some b →
    tm.heap t' r = some b ∧ (t' = t → replaced ≠ some r) ∨
      t' = t ∧ r = nr ∧ b = bytes ∧ bytes.length ≤ 4080

theorem WF.wrote_insertTuple {tm : TableManager} (h : tm.WF) (t : TableId) (bytes : Bytes) :
    tm.Wrote t none bytes (tm.insertTuple t bytes).1 := by
  refine ⟨(tm.insertTuple t bytes).2, fun t' r b hb => ?_⟩
  exact ((h.insertTuple rfl).2.2.heap_eq_some hb).imp_left fun hb => ⟨hb, fun _ he => by cases he⟩

theorem WF.wrote_updateTuple {tm : TableManager} (h : tm.WF) {t : TableId} {rid : RecordID}
    (hlist : rid.pageId ∈ tm.pageList t) (bytes : Bytes) :
    tm.Wrote t (some rid) bytes (tm.updateTuple t rid bytes).1 := by
  refine ⟨(tm.updateTuple t rid bytes).2, fun t' r b hb => ?_⟩
  refine ((h.updateTuple (fun _ => hlist) rfl).2.2.heap_eq_some h hb).imp_left ?_
  exact fun ⟨hb, hne⟩ => ⟨hb, fun ht he => hne ht (Option.some.inj he).symm⟩

/-- A record id that was handed out before keeps its tuple. -/
theorem Inserted.heap_of_allocated {tm tm' : TableManager} {t : TableId} {bytes : Bytes}
    {rid : RecordID} (h : Inserted tm t bytes tm' rid) {t' : TableId} {r : RecordID}
    (hr : tm.Allocated r) : tm'.heap t' r = tm.heap t' r := by
  cases h with
  | refused _ hheap => rw [hheap]
  | placed hfresh _ _ _ hheap =>
    rw [hheap, setRow_apply, if_neg]
    rintro ⟨-, rfl⟩
    exact hfresh hr

theorem Updated.heap_of_allocated {tm tm' : TableManager} (hwf : tm.WF) {t : TableId}
    {bytes : Bytes} {rid nr : RecordID} (h : Updated tm t rid bytes tm' nr) {t' : TableId}
    {r : RecordID} (hr : tm.Allocated r) (hne : r ≠ rid) : tm'.heap t' r = tm.heap t' r := by
  cases h with
  | inPlace _ _ _ hheap => rw [hheap, setRow_apply, if_neg (by tauto)]
  | moved hins =>
    obtain ⟨-, hgrow, -, hheap⟩ := hwf.eraseTuple rid
    rw [hins.heap_of_allocated (hgrow.allocated r hr), hheap, if_neg hne]

end TableManager

/-- The bytes of a row of the table, unless they are too many for any page. -/
def Writable (catalog : Catalog) (t : TableId) (bytes : Bytes) : Prop :=
  bytes.length ≤ 4080 → Tuple.Canonical (catalog.loadSchema t) bytes

theorem writable_serialize {catalog : Catalog} {t : TableId} {row : Tuple}
    (hrow : row.length = (catalog.loadSchema t).length) :
    Writable catalog t (row.serialize (catalog.loadSchema t)) :=
  fun hle => Tuple.canonical_serialize hrow (by omega)

/-- The indexes of the table, but for their entries. -/
def IndexesOf (t : TableId) (idxs : List Index) (db : Db) : Prop :=
  IndexManager.signatures idxs = IndexManager.signatures (db.indexes.forTable t)

theorem indexesOf_forTable (db : Db) (t : TableId) : IndexesOf t (db.indexes.forTable t) db := rfl

theorem IndexesOf.congr {t : TableId} {idxs : List Index} {db db' : Db} (h : IndexesOf t idxs db)
    (hsig : db'.indexes.signatures = db.indexes.signatures) : IndexesOf t idxs db' := by
  unfold IndexesOf at h ⊢
  rw [h, IndexManager.signatures_forTable, IndexManager.signatures_forTable, hsig]

theorem IndexesOf.keysOf {t : TableId} {idxs : List Index} {db : Db} (h : IndexesOf t idxs db)
    (width row : Tuple) : db.indexes.KeysOf t (Exec.coveredKeys idxs width row) := by
  intro k hk
  obtain ⟨idx, hidx, rfl⟩ := List.mem_map.mp hk
  have hsig : (idx.name, idx.tableId, idx.columns) ∈
      IndexManager.signatures (db.indexes.forTable t) :=
    h ▸ List.mem_map_of_mem (List.mem_of_mem_filter hidx)
  obtain ⟨idx', hidx', he⟩ := List.mem_map.mp hsig
  rw [← congrArg Prod.fst he]
  exact IndexManager.mem_shape hidx'

/-- Tables and indexes that go together. -/
structure Stored (tm : TableManager) (indexes : IndexManager) (catalog : Catalog) : Prop where
  tables : tm.WF
  canonical : ∀ t rid b, tm.heap t rid = some b → Tuple.Canonical (catalog.loadSchema t) b
  indexed : ∀ t rid, indexes.Holds t rid → tm.Leads t rid
  names : (indexes.shape.map Prod.fst).Nodup

namespace Stored

variable {tables tables' : TableManager} {indexes : IndexManager} {catalog : Catalog} {t : TableId}

theorem removeKeys (h : Stored tables indexes catalog) (keys : List (String × Value))
    (rid : RecordID) : Stored tables (indexes.removeKeys keys rid) catalog where
  tables := h.tables
  canonical := h.canonical
  indexed t' r hr := h.indexed t' r (IndexManager.holds_removeKeys hr)
  names := by simpa using h.names

theorem erase (h : Stored tables indexes catalog) (rid : RecordID) :
    Stored (tables.eraseTuple rid).1 indexes catalog where
  tables := (h.tables.eraseTuple rid).1
  canonical t' r b hb := h.canonical t' r b (h.tables.heap_of_eraseTuple hb)
  indexed t' r hr := (h.indexed t' r hr).later (h.tables.later_eraseTuple rid)
  names := h.names

theorem insert (h : Stored tables indexes catalog) {keys : List (String × Value)} {bytes : Bytes}
    {rid : RecordID} (hkeys : indexes.KeysOf t keys) (hbytes : Writable catalog t bytes)
    (hi : tables.insertTuple t bytes = (tables', rid)) :
    Stored tables' (indexes.addKeys keys rid) catalog := by
  have hlater := h.tables.later_insertTuple t bytes
  rw [hi] at hlater
  obtain ⟨hwf, -, hins⟩ := h.tables.insertTuple hi
  refine ⟨hwf, fun t' r b hb => ?_, fun t' r hr => ?_, by simpa using h.names⟩
  · rcases hins.heap_eq_some hb with hb | ⟨rfl, -, rfl, hle⟩
    · exact h.canonical t' r b hb
    · exact hbytes hle
  · rcases hkeys.holds h.names hr with hr | ⟨rfl, rfl⟩
    · exact (h.indexed t' r hr).later hlater
    · exact hins.leads

theorem update (h : Stored tables indexes catalog) {keys : List (String × Value)}
    {oldBytes newBytes : Bytes} {rid nr : RecordID} (hfound : tables.Found t rid oldBytes)
    (hkeys : indexes.KeysOf t keys) (hbytes : Writable catalog t newBytes)
    (hu : tables.updateTuple t rid newBytes = (tables', nr)) :
    Stored tables' (indexes.addKeys keys nr) catalog := by
  have hlater := h.tables.later_updateTuple t rid newBytes
  rw [hu] at hlater
  obtain ⟨hwf, -, hup⟩ := h.tables.updateTuple (fun _ => hfound.listed) hu
  refine ⟨hwf, fun t' r b hb => ?_, fun t' r hr => ?_, by simpa using h.names⟩
  · rcases hup.heap_eq_some h.tables hb with ⟨hb, -⟩ | ⟨rfl, -, rfl, hle⟩
    · exact h.canonical t' r b hb
    · exact hbytes hle
  · rcases hkeys.holds h.names hr with hr | ⟨rfl, rfl⟩
    · exact (h.indexed t' r hr).later hlater
    · exact hup.leads hfound.allocated hfound.listed hlater

end Stored

namespace Db

/-- A closure puts back rows of its table, and entries into the indexes of that table. -/
def Undoable (db : Db) : UndoClosure → Prop
  | .insert _ _ _ => True
  | .delete t bytes idxKeys => Writable db.catalog t bytes ∧ db.indexes.KeysOf t idxKeys
  | .update t _ oldBytes oldKeys _ => Writable db.catalog t oldBytes ∧ db.indexes.KeysOf t oldKeys

/-- What holds of a database between any two steps of a session that has it for itself. -/
structure Ok (db : Db) : Prop extends Stored db.tables db.indexes db.catalog where
  only : db.locks.Only db.currentTxn
  clear : db.currentTxn = 0 → db.locks.Clear
  next_pos : 0 < db.nextTxnId
  active : ∀ id, (db.active id).isSome ↔ id = db.currentTxn ∧ id ≠ 0
  undoable : ∀ closures, db.active db.currentTxn = some closures → ∀ u ∈ closures, db.Undoable u

/-- What a statement does not change, and what it only adds to. -/
structure Extends (db db' : Db) : Prop where
  tables : TableManager.Later db.tables db'.tables
  signatures : db'.indexes.signatures = db.indexes.signatures
  catalog : db'.catalog = db.catalog
  currentTxn : db'.currentTxn = db.currentTxn
  nextTxnId : db'.nextTxnId = db.nextTxnId

theorem Extends.refl (db : Db) : Extends db db := ⟨.refl _, rfl, rfl, rfl, rfl⟩

theorem Extends.trans {a b c : Db} (h : Extends a b) (h' : Extends b c) : Extends a c where
  tables := h.tables.trans h'.tables
  signatures := h'.signatures.trans h.signatures
  catalog := h'.catalog.trans h.catalog
  currentTxn := h'.currentTxn.trans h.currentTxn
  nextTxnId := h'.nextTxnId.trans h.nextTxnId

theorem Extends.shape {db db' : Db} (h : Extends db db') :
    db'.indexes.shape = db.indexes.shape := by
  rw [IndexManager.shape_eq_map, IndexManager.shape_eq_map, h.signatures]

theorem Undoable.congr {db db' : Db} {u : UndoClosure} (h : db.Undoable u)
    (hshape : db'.indexes.shape = db.indexes.shape) (hcat : db'.catalog = db.catalog) :
    db'.Undoable u := by
  unfold Undoable IndexManager.KeysOf at h ⊢
  rwa [hshape, hcat]

/-! ## Row steps -/

/-- Where a step comes from: a write of PUT or MODIFY, with the state that the row was
checked in, or a removal or a referential action, which checks nothing. -/
inductive Origin
  | unchecked
  | checked (db : Db) (row : Tuple)

/-- A row that goes to table `t` in place of the one at `rid` has passed the checks. -/
def Origin.Passed (t : TableId) (rid : Option RecordID) (row : Tuple) (db : Db) : Origin → Prop
  | unchecked => True
  | checked db₀ row₀ => row₀ = row ∧ Extends db₀ db ∧ db₀.Ok ∧
    ((Exec.checkRow (db₀.catalog.getTableById t) t row rid).run db₀).1 = .ok ()

/-- The calls of the program are as given for its origin. -/
abbrev Meets (Given : Origin → Db → Call → Prop) (origin : Origin) {α : Type} (x : Exec α)
    (db : Db) : Prop := Prog.All (fun (c : Call) db => c.apply db) (Given origin) x db

/-- A step of a statement. `Seen` is what is known of the rows it has read, and `Given`
what is assumed of the calls it makes. -/
inductive RowStep (Given : Origin → Db → Call → Prop) (Seen : TableId → RecordID → Bytes → Prop)
    (db : Db) : Db → Prop
  | lock (rid : RecordID) (mode : LockMode) :
    RowStep Given Seen db { db with locks := db.grantInTxn rid mode }
  | insert (t : TableId) (idxs : List Index) (row : Tuple) (origin : Origin)
    (hidxs : IndexesOf t idxs db) (hrow : row.length = (db.catalog.loadSchema t).length)
    (hpassed : origin.Passed t none row db)
    (hgiven : Meets Given origin
      (Exec.insertRow t idxs row (row.serialize (db.catalog.loadSchema t))) db) :
    RowStep Given Seen db
      (db.insertRow t (Exec.coveredKeys idxs row row) (row.serialize (db.catalog.loadSchema t)))
  | erase (t : TableId) (idxs : List Index) (rid : RecordID) (row : Tuple) (staged : Bool)
    (hidxs : IndexesOf t idxs db) (hrow : row.length = (db.catalog.loadSchema t).length)
    (hfound : db.tables.Found t rid (row.serialize (db.catalog.loadSchema t)))
    (hseen : Seen t rid (row.serialize (db.catalog.loadSchema t)))
    (hgiven : Meets Given .unchecked
      (Exec.eraseRow t idxs rid row (row.serialize (db.catalog.loadSchema t)) staged) db) :
    RowStep Given Seen db (db.eraseRow t (Exec.coveredKeys idxs row row) rid
      (row.serialize (db.catalog.loadSchema t)) staged)
  | rewrite (t : TableId) (idxs : List Index) (rid : RecordID) (old new : Tuple) (staged : Bool)
    (origin : Origin) (hidxs : IndexesOf t idxs db)
    (hold : old.length = (db.catalog.loadSchema t).length)
    (hnew : new.length = (db.catalog.loadSchema t).length)
    (hfound : db.tables.Found t rid (old.serialize (db.catalog.loadSchema t)))
    (hseen : Seen t rid (old.serialize (db.catalog.loadSchema t)))
    (hpassed : origin.Passed t (some rid) new db)
    (hgiven : Meets Given origin
      (Exec.rewriteRow t idxs rid old new (db.catalog.loadSchema t) staged) db) :
    RowStep Given Seen db (db.rewriteRow t (Exec.rewriteKeys idxs old new) rid
      (old.serialize (db.catalog.loadSchema t)) (new.serialize (db.catalog.loadSchema t)) staged)

variable {Given : Origin → Db → Call → Prop} {Seen : TableId → RecordID → Bytes → Prop} {db db' : Db}

theorem Meets.insertTuple {origin : Origin} {t : TableId} {idxs : List Index} {row : Tuple}
    {bytes : Bytes} (h : Meets Given origin (Exec.insertRow t idxs row bytes) db) :
    Given origin db (.insertTuple t bytes) :=
  h (db, .insertTuple t bytes) List.mem_cons_self

theorem Meets.updateTuple {origin : Origin} {t : TableId} {idxs : List Index} {rid : RecordID}
    {old new : Tuple} {schema : Schema} {staged : Bool}
    (h : Meets Given origin (Exec.rewriteRow t idxs rid old new schema staged) db) :
    Given origin { db with indexes := db.indexes.removeKeys (Exec.coveredKeys idxs old old) rid }
      (.updateTuple t rid (new.serialize schema)) := by
  have hrest := (Prog.All.bind_iff.mp h).2 () _ (Exec.run_removeKeys _ rid db)
  exact hrest (_, .updateTuple t rid (new.serialize schema)) List.mem_cons_self

theorem Ok.grantInTxn (h : db.Ok) (rid : RecordID) (mode : LockMode) :
    (db.grantInTxn rid mode).Only db.currentTxn ∧
      (db.currentTxn = 0 → (db.grantInTxn rid mode).Clear) := by
  unfold Db.grantInTxn
  split
  · rename_i ht
    exact ⟨h.only.grant rid mode, fun h₀ => by simp [Db.txnActive, h₀] at ht⟩
  · exact ⟨h.only, h.clear⟩

/-- The closures of the transaction after one more. -/
theorem undoInTxn_current (db : Db) (u : UndoClosure) (h : db.currentTxn ≠ 0) :
    db.undoInTxn u db.currentTxn = (db.active db.currentTxn).map (· ++ [u]) := by
  simp [undoInTxn, txnActive, h]

theorem Ok.undoInTxn (h : db.Ok) {u : UndoClosure} (hu : db.Undoable u) :
    (∀ id, (db.undoInTxn u id).isSome ↔ id = db.currentTxn ∧ id ≠ 0) ∧
      ∀ closures, db.undoInTxn u db.currentTxn = some closures → ∀ u ∈ closures, db.Undoable u := by
  unfold Db.undoInTxn
  split
  · refine ⟨fun id => ?_, fun closures hc v hv => ?_⟩
    · rw [Function.update_apply]
      split
      · rename_i hid
        rw [Option.isSome_map, hid, h.active]
      · exact h.active id
    · rw [Function.update_self, Option.map_eq_some_iff] at hc
      obtain ⟨closures, hc, rfl⟩ := hc
      rcases List.mem_append.mp hv with hv | hv
      · exact h.undoable closures hc v hv
      · exact List.mem_singleton.mp hv ▸ hu
  · exact ⟨h.active, h.undoable⟩

theorem Ok.lock (h : db.Ok) (rid : RecordID) (mode : LockMode) :
    Ok { db with locks := db.grantInTxn rid mode } :=
  { h with only := (h.grantInTxn rid mode).1, clear := (h.grantInTxn rid mode).2 }

theorem Ok.insertRow (h : db.Ok) {t : TableId} {keys : List (String × Value)} {bytes : Bytes}
    (hkeys : db.indexes.KeysOf t keys) (hbytes : Writable db.catalog t bytes) :
    (db.insertRow t keys bytes).Ok ∧ Extends db (db.insertRow t keys bytes) := by
  have hlater := h.tables.later_insertTuple t bytes
  unfold Db.insertRow
  generalize hi : db.tables.insertTuple t bytes = result at hlater
  obtain ⟨tables, rid⟩ := result
  obtain ⟨hactive, hundo⟩ := h.undoInTxn (u := .insert keys t rid) trivial
  exact ⟨⟨h.toStored.insert hkeys hbytes hi, (h.grantInTxn rid .Exclusive).1,
    (h.grantInTxn rid .Exclusive).2, h.next_pos, hactive,
    fun closures hc u hu => (hundo closures hc u hu).congr (by simp) rfl⟩,
    ⟨hlater, by simp, rfl, rfl, rfl⟩⟩

theorem Ok.eraseRow (h : db.Ok) {t : TableId} {keys : List (String × Value)} (rid : RecordID)
    {bytes : Bytes} (staged : Bool) (hkeys : db.indexes.KeysOf t keys)
    (hbytes : Writable db.catalog t bytes) :
    (db.eraseRow t keys rid bytes staged).Ok ∧ Extends db (db.eraseRow t keys rid bytes staged) := by
  obtain ⟨hactive, hundo⟩ := h.undoInTxn (u := .delete t bytes keys) ⟨hbytes, hkeys⟩
  have hshape : (db.eraseRow t keys rid bytes staged).indexes.shape = db.indexes.shape := by
    simp [Db.eraseRow]
  exact ⟨⟨(h.toStored.erase rid).removeKeys keys rid, h.only, h.clear, h.next_pos, hactive,
    fun closures hc u hu => (hundo closures hc u hu).congr hshape rfl⟩,
    ⟨h.tables.later_eraseTuple rid, by simp [Db.eraseRow], rfl, rfl, rfl⟩⟩

theorem Ok.rewriteRow (h : db.Ok) {t : TableId} {keys : RewriteKeys} {rid : RecordID}
    {oldBytes newBytes : Bytes} (staged : Bool) (hfound : db.tables.Found t rid oldBytes)
    (hold : db.indexes.KeysOf t keys.old) (holdBytes : Writable db.catalog t oldBytes)
    (hadded : db.indexes.KeysOf t keys.added) (hnewBytes : Writable db.catalog t newBytes) :
    (db.rewriteRow t keys rid oldBytes newBytes staged).Ok ∧
      Extends db (db.rewriteRow t keys rid oldBytes newBytes staged) := by
  have hlater := h.tables.later_updateTuple t rid newBytes
  unfold Db.rewriteRow
  generalize hu : db.tables.updateTuple t rid newBytes = result at hlater
  obtain ⟨tables, nr⟩ := result
  obtain ⟨hactive, hundo⟩ := h.undoInTxn (u := .update t nr oldBytes keys.old keys.new)
    ⟨holdBytes, hold⟩
  have hkeys : (db.indexes.removeKeys keys.old rid).KeysOf t keys.added := by
    simpa [IndexManager.KeysOf] using hadded
  exact ⟨⟨(h.toStored.removeKeys keys.old rid).update hfound hkeys hnewBytes hu,
    (h.grantInTxn nr .Exclusive).1, (h.grantInTxn nr .Exclusive).2, h.next_pos, hactive,
    fun closures hc u hu => (hundo closures hc u hu).congr (by simp) rfl⟩,
    ⟨hlater, by simp, rfl, rfl, rfl⟩⟩

theorem RowStep.ok (hs : RowStep Given Seen db db') (h : db.Ok) : db'.Ok ∧ Extends db db' := by
  cases hs with
  | lock rid mode => exact ⟨h.lock rid mode, ⟨.refl _, rfl, rfl, rfl, rfl⟩⟩
  | insert t idxs row origin hidxs hrow =>
    exact h.insertRow (hidxs.keysOf row row) (writable_serialize hrow)
  | erase t idxs rid row staged hidxs hrow =>
    exact h.eraseRow rid staged (hidxs.keysOf row row) (writable_serialize hrow)
  | rewrite t idxs rid old new staged origin hidxs hold hnew hfound =>
    exact h.rewriteRow staged hfound (hidxs.keysOf old old) (writable_serialize hold)
      (hidxs.keysOf new new) (writable_serialize hnew)

end Db

end Relite.Vm
