import Relite.Vm.Balance
import Relite.Vm.Ddl

/-!
# What statements hand to tables

PUT, BUILD RELATION AS and RESHAPE call the tables in few places: what each of them hands
over is told from what it answers, or from the rows that it has read.
-/
namespace Relite.Vm
open Lib Semantic

theorem Call.handed_of_off {c : Call} (h : c.onTables = false) (t : TableId) : c.handed t = 0 := by
  cases c with
  | insertTuple _ _ | updateTuple _ _ _ => cases h
  | _ => rfl

theorem Call.taken_of_off {c : Call} (h : c.onTables = false) (db : Db) (t : TableId) :
    c.taken db t = 0 := by
  cases c with
  | updateTuple _ _ _ | eraseTuple _ | truncateTable _ | dropTable _ => cases h
  | _ => rfl

namespace Exec

variable {α β : Type}

theorem OffTables.handed {x : Exec α} (h : OffTables x) (db : Db) (t : TableId) :
    x.handed db t = 0 :=
  Prog.tally_eq_zero _ (.of_makes h fun _ _ hc => Call.handed_of_off hc t)

theorem OffTables.taken {x : Exec α} (h : OffTables x) (db : Db) (t : TableId) :
    x.taken db t = 0 :=
  Prog.tally_eq_zero _ (.of_makes h fun db _ hc => Call.taken_of_off hc db t)

theorem handed_bind {x : Exec α} {f : α → Exec β} {db db' : Db} {a : α}
    (h : x.run db = (.ok a, db')) (t : TableId) :
    Exec.handed (Prog.bind x f) db t = x.handed db t + (f a).handed db' t :=
  Prog.tally_bind_of_run _ h

theorem OffTables.handed_bind {x : Exec α} (hx : OffTables x) {f : α → Exec β} {db db' : Db} {a : α}
    (h : x.run db = (.ok a, db')) (t : TableId) :
    Exec.handed (Prog.bind x f) db t = (f a).handed db' t := by
  rw [Exec.handed_bind h, hx.handed, Multiset.zero_add]

/-- What follows counts for nothing. -/
theorem handed_bind_off {x : Exec α} {f : α → Exec β} (hf : ∀ a, OffTables (f a)) {db : Db}
    (t : TableId) : Exec.handed (Prog.bind x f) db t = x.handed db t := by
  have h := Prog.tally_bind (fun (c : Call) db => c.apply db) (fun _ c => Call.handed c t) x f db
  refine h.trans ((congrArg _ ?_).trans (add_zero _))
  split
  · exact (hf _).handed _ t
  · rfl

theorem taken_bind {x : Exec α} {f : α → Exec β} {db db' : Db} {a : α}
    (h : x.run db = (.ok a, db')) (t : TableId) :
    Exec.taken (Prog.bind x f) db t = x.taken db t + (f a).taken db' t :=
  Prog.tally_bind_of_run _ h

@[simp] theorem handed_perform (c : Call) (db : Db) (t : TableId) :
    Exec.handed (Prog.perform c) db t = c.handed t := by
  simp [Exec.handed, Prog.tally]

@[simp] theorem taken_perform (c : Call) (db : Db) (t : TableId) :
    Exec.taken (Prog.perform c) db t = c.taken db t := by
  simp [Exec.taken, Prog.tally]

theorem OffTables.taken_bind {x : Exec α} (hx : OffTables x) {f : α → Exec β} {db db' : Db} {a : α}
    (h : x.run db = (.ok a, db')) (t : TableId) :
    Exec.taken (Prog.bind x f) db t = (f a).taken db' t := by
  rw [Exec.taken_bind h, hx.taken, Multiset.zero_add]

/-! ## Writing one row -/

section

variable {c : Call} {f : RecordID → Exec α} {db : Db} {t : TableId}

theorem handed_perform_bind (hf : ∀ rid, OffTables (f rid)) :
    Exec.handed (Prog.bind (Prog.perform c) f) db t = c.handed t := by
  rw [handed_bind (run_perform c db), handed_perform, (hf _).handed, Multiset.add_zero]

theorem taken_perform_bind (hf : ∀ rid, OffTables (f rid)) :
    Exec.taken (Prog.bind (Prog.perform c) f) db t = c.taken db t := by
  rw [taken_bind (run_perform c db), taken_perform, (hf _).taken, Multiset.add_zero]

end

section

variable (t : TableId) (idxs : List Index) (row : Tuple) (bytes : Bytes) (db : Db) (u : TableId)

theorem handed_insertRow :
    (insertRow t idxs row bytes).handed db u = TableManager.handedTo t bytes u :=
  handed_perform_bind (offTables_afterInsert t (coveredKeys idxs row row) bytes)

theorem taken_insertRow : (insertRow t idxs row bytes).taken db u = 0 :=
  taken_perform_bind (offTables_afterInsert t (coveredKeys idxs row row) bytes)

end

section

variable {t : TableId} (idxs : List Index) {rid : RecordID} (old new : Tuple) (schema : Schema)
  (staged : Bool) {db : Db}

theorem handed_rewriteRow (u : TableId) :
    (rewriteRow t idxs rid old new schema staged).handed db u =
      TableManager.handedTo t (new.serialize schema) u := by
  refine (handed_bind (run_removeKeys _ rid db) u).trans ?_
  rw [(offTables_removeKeys _ rid).handed, Multiset.zero_add]
  exact handed_perform_bind fun nr =>
    offTables_afterUpdate t rid nr _ _ staged (offTables_logUpdate t idxs rid nr old new _ _)

theorem taken_rewriteRow (u : TableId) :
    (rewriteRow t idxs rid old new schema staged).taken db u = db.tables.rowAt u rid := by
  refine (taken_bind (run_removeKeys _ rid db) u).trans ?_
  rw [(offTables_removeKeys _ rid).taken, Multiset.zero_add]
  exact taken_perform_bind fun nr =>
    offTables_afterUpdate t rid nr _ _ staged (offTables_logUpdate t idxs rid nr old new _ _)

end

/-! ## PUT -/

@[simp] theorem run_scanRows (t : TableId) (db : Db) :
    (scanRows t).run db = (.ok (db.tables.tuples t), db) := rfl

/-- The row that an ON CONFLICT clause finds is a row of the table. -/
theorem heap_of_findConflict {t : TableId} {schema : Schema} {onConflict : Option OnConflict}
    {new : Tuple} {db db' : Db} {c : OnConflict} {row : RecordID × Tuple}
    (h : (findConflict t schema onConflict new).run db = (.ok (some (c, row)), db')) :
    ∃ b, db.tables.heap t row.1 = some b ∧ Tuple.deserialize b schema = .ok row.2 := by
  cases onConflict with
  | none => cases h
  | some c' =>
    simp only [findConflict, Prog.bind_eq, run_bind, run_scanRows, run_ofExcept] at h
    split at h
    · rename_i found db₁ hfound
      simp only [Prog.pure_eq, run_ret, Prod.mk.injEq, Except.ok.injEq, Option.map_eq_some_iff] at h
      obtain ⟨⟨row', rfl, rfl, rfl⟩, -⟩ := h
      obtain ⟨⟨rid, b⟩, hraw, hd⟩ := anyRow_spec (congrArg Prod.fst hfound)
      simp only [deserializeRow, bind, Except.bind, pure, Except.pure] at hd
      split at hd
      · cases hd
      · rename_i tuple htuple
        obtain rfl : (rid, tuple) = row' := Except.ok.inj hd
        exact ⟨b, TableManager.mem_tuples.mp hraw, htuple⟩
    · cases h

section

variable (node : InsertStatement) (ts : Option TableSchema) (schema : Schema) (idxs : List Index)
  (targets : List Nat) (st : InsertState) (provided : Tuple) (db : Db)

theorem listed_insertProvided :
    AllListed (insertProvided node ts schema idxs targets st provided) db := by
  unfold insertProvided
  generalize fillAuto st.autoNext (provide _ targets provided) = filled
  obtain ⟨autoNext, row⟩ := filled
  simp only
  refine ((readOnly_findConflict _ _ _ _).offTables.listed db).bind fun found db₁ hfound => ?_
  obtain rfl := (readOnly_findConflict _ _ _ _).eq_of_run hfound
  split
  · rename_i c exRid exRow
    split
    · exact (offTables_ret _).listed _
    obtain ⟨b, hb, -⟩ := heap_of_findConflict hfound
    refine ((readOnly_checkRow _ _ _ _).offTables.listed _).bind fun _ db₂ hcheck => ?_
    obtain rfl := (readOnly_checkRow _ _ _ _).eq_of_run hcheck
    refine ((offTables_lockInTxn _ _).listed _).bind fun _ db₃ hlock => ?_
    refine (listed_rewriteRow idxs _ _ schema true ?_).bind fun _ _ _ => (offTables_ret _).listed _
    rw [(offTables_lockInTxn _ _).tables_eq hlock]
    exact (TableManager.heap_eq_some_iff.mp hb).1
  · refine ((readOnly_checkRow _ _ _ _).offTables.listed _).bind fun _ db₂ hcheck => ?_
    exact (listed_insertRow _ _ _ _ _).bind fun _ _ _ => (offTables_ret _).listed _

/-- The rows of the answer are those that were handed to the table. -/
def images (schema : Schema) (rows : List Tuple) : Multiset Bytes :=
  (rows.map fun row => row.serialize schema : List Bytes)

theorem images_snoc (rows : List Tuple) (row : Tuple) :
    images schema (rows ++ [row]) = {row.serialize schema} + images schema rows := by
  unfold images
  rw [List.map_append, ← Multiset.coe_add, Multiset.add_comm]
  rfl

variable {node ts schema idxs targets st provided db}

theorem handed_insertProvided {st' : InsertState} {db' : Db}
    (h : (insertProvided node ts schema idxs targets st provided).run db = (.ok st', db')) :
    (insertProvided node ts schema idxs targets st provided).handed db node.tableId +
      images schema st.returned = images schema st'.returned := by
  unfold insertProvided at h ⊢
  generalize fillAuto st.autoNext (provide _ targets provided) = filled at h ⊢
  obtain ⟨autoNext, row⟩ := filled
  simp only [Prog.bind_eq, Prog.pure_eq] at h ⊢
  generalize (Option.map (fun ts => fillDefaults ts row) ts).getD row.1 = new at h ⊢
  obtain ⟨found, db₁, hfound, h⟩ := run_bind_eq_ok.mp h
  rw [(readOnly_findConflict _ _ _ _).offTables.handed_bind hfound]
  rcases found with _ | ⟨c, exRid, exRow⟩
  · simp only at h ⊢
    obtain ⟨_, db₂, hcheck, h⟩ := run_bind_eq_ok.mp h
    obtain ⟨_, db₃, hinsert, h⟩ := run_bind_eq_ok.mp h
    cases h
    rw [(readOnly_checkRow _ _ _ _).offTables.handed_bind hcheck,
      handed_bind_off fun _ => offTables_ret _, handed_insertRow, images_snoc]
    simp [TableManager.handedTo]
  · simp only at h ⊢
    split at h
    · rename_i hnothing
      cases h
      rw [if_pos hnothing, (offTables_ret _).handed, Multiset.zero_add]
    · rename_i hnothing
      rw [if_neg hnothing]
      obtain ⟨_, db₂, hcheck, h⟩ := run_bind_eq_ok.mp h
      obtain ⟨_, db₃, hlock, h⟩ := run_bind_eq_ok.mp h
      obtain ⟨_, db₄, hrewrite, h⟩ := run_bind_eq_ok.mp h
      cases h
      rw [(readOnly_checkRow _ _ _ _).offTables.handed_bind hcheck,
        (offTables_lockInTxn _ _).handed_bind hlock,
        handed_bind_off fun _ => offTables_ret _, handed_rewriteRow, images_snoc]
      simp [TableManager.handedTo]

theorem handed_foldlM_insertProvided (rows : List Tuple) :
    ∀ {st st' : InsertState} {db db' : Db},
      Exec.run (rows.foldlM (insertProvided node ts schema idxs targets) st) db = (.ok st', db') →
      Exec.handed (rows.foldlM (insertProvided node ts schema idxs targets) st) db node.tableId +
        images schema st.returned = images schema st'.returned := by
  induction rows with
  | nil =>
    intro st st' db db' h
    cases h
    exact Multiset.zero_add _
  | cons row rows ih =>
    intro st st' db db' h
    simp only [List.foldlM_cons, Prog.bind_eq] at h ⊢
    obtain ⟨st₁, db₁, hround, h⟩ := run_bind_eq_ok.mp h
    rw [handed_bind hround, ← ih h, ← handed_insertProvided hround]
    ac_rfl

end

theorem locking_providedRows (node : InsertStatement) : Locking (providedRows node) := by
  unfold providedRows
  split
  · exact locking_query _
  · exact (readOnly_ret _).locking

theorem offTables_providedRows (node : InsertStatement) : OffTables (providedRows node) :=
  (locking_providedRows node).offTables

/-- The first value of each AUTO_INCREMENT column is read off the table. -/
theorem readOnly_autoNext (t : TableId) (schema : Schema) (autos : List Nat) (acc : AutoNext) :
    ReadOnly (autos.foldlM (fun (acc : AutoNext) c => Prog.bind (scanRows t) fun rows =>
      Prog.bind (ofExcept (matchingRows schema (fun _ _ => true) rows)) fun rows =>
        Prog.ret (acc ++ [(c, autoStart rows c)])) acc) :=
  Prog.Makes.foldlM (fun _ _ => (readOnly_get.bind fun _ => readOnly_ret _).bind fun _ =>
    (readOnly_ofExcept _).bind fun _ => readOnly_ret _) _ _

section

variable (node : InsertStatement) (catalog : Catalog) (db : Db)

theorem listed_insertRows : AllListed (insertRows node catalog) db := by
  refine (readOnly_get.offTables.listed db).bind fun _ _ _ => ?_
  refine ((offTables_providedRows node).listed _).bind fun rows _ _ => ?_
  refine ((readOnly_autoNext _ _ _ _).offTables.listed _).bind fun autoNext _ _ => ?_
  refine Prog.All.bind (Prog.All.foldlM (fun st row db' => ?_) _ _) fun _ _ _ =>
    (offTables_ret _).listed _
  exact listed_insertProvided node _ _ _ _ st row db'

theorem listed_autocommit {prepare : Exec α} {body : α → Exec β} (hprepare : OffTables prepare)
    (hbody : ∀ a db, AllListed (body a) db) : AllListed (autocommit prepare body) db := by
  refine (hprepare.listed db).bind fun a _ _ => ?_
  refine (offTables_discardOutsideTxn.listed _).bind fun _ _ _ => (hbody a _).bind fun _ _ _ => ?_
  exact (offTables_commitOutsideTxn.bind fun _ => offTables_ret _).listed _

theorem listed_visitInsert : AllListed (visitInsert node) db := by
  refine (readOnly_get.offTables.listed db).bind fun db₁ _ _ => ?_
  refine (listed_autocommit _ (offTables_ret _) fun _ => listed_insertRows node _).bind
    fun _ _ _ => (offTables_ret _).listed _

variable {node catalog db}

theorem handed_insertRows {returned : List Tuple} {db' : Db}
    (h : (insertRows node catalog).run db = (.ok returned, db')) :
    (insertRows node catalog).handed db node.tableId =
      images (catalog.loadSchema node.tableId) returned := by
  unfold insertRows at h ⊢
  simp only [Prog.bind_eq, Prog.pure_eq] at h ⊢
  obtain ⟨_, db₁, hget, h⟩ := run_bind_eq_ok.mp h
  obtain ⟨rows, db₂, hrows, h⟩ := run_bind_eq_ok.mp h
  obtain ⟨autoNext, db₃, hauto, h⟩ := run_bind_eq_ok.mp h
  obtain ⟨st, db₄, hfold, h⟩ := run_bind_eq_ok.mp h
  cases h
  rw [readOnly_get.offTables.handed_bind hget, (offTables_providedRows node).handed_bind hrows,
    (readOnly_autoNext _ _ _ _).offTables.handed_bind hauto,
    handed_bind_off fun _ => offTables_ret _]
  exact (add_zero _).symm.trans (handed_foldlM_insertProvided rows hfold)

/-- A PUT that returns has handed over the rows that it wrote. -/
theorem handed_visitInsert {rs : ResultSet} {db' : Db}
    (h : (visitInsert node).run db = (.ok rs, db')) :
    (visitInsert node).handed db node.tableId =
      images (db.catalog.loadSchema node.tableId) ((node.writes db).map Write.new) := by
  obtain ⟨_, db₁, hget, hrest⟩ := run_bind_eq_ok.mp h
  cases hget
  obtain ⟨returned, db₂, hbody, -⟩ := run_bind_eq_ok.mp hrest
  obtain ⟨_, s, s', hprepare, hrows, -⟩ := autocommit_ok hbody
  cases hprepare
  rw [← returned_insertRows hrows]
  unfold visitInsert autocommit
  simp only [Prog.bind_eq, Prog.pure_eq]
  rw [readOnly_get.offTables.handed_bind (run_get db), handed_bind_off fun _ => offTables_ret _,
    (offTables_ret _).handed_bind (run_ret () db),
    offTables_discardOutsideTxn.handed_bind (run_discardOutsideTxn db),
    handed_bind_off fun _ => offTables_commitOutsideTxn.bind fun _ => offTables_ret _]
  exact handed_insertRows hrows

end

/-! ## BUILD RELATION AS -/

/-- The program rewrites no row, and takes none out of a table. -/
def Adds (x : Exec α) : Prop :=
  Prog.Makes (fun (c : Call) db => c.apply db)
    (fun c => ∀ db, c.Listed db ∧ ∀ t, c.taken db t = 0) x

theorem Adds.listed {x : Exec α} (h : Adds x) (db : Db) : AllListed x db :=
  .of_makes h fun db _ hc => (hc db).1

theorem Adds.taken {x : Exec α} (h : Adds x) (db : Db) (t : TableId) : x.taken db t = 0 :=
  Prog.tally_eq_zero _ (.of_makes h fun db _ hc => (hc db).2 t)

theorem OffTables.adds {x : Exec α} (h : OffTables x) : Adds x :=
  h.mono fun _ hc db => ⟨Call.listed_of_off hc db, Call.taken_of_off hc db⟩

theorem Adds.bind {x : Exec α} {f : α → Exec β} (hx : Adds x) (hf : ∀ a, Adds (f a)) :
    Adds (Prog.bind x f) := Prog.Makes.bind hx hf

theorem adds_perform {c : Call} (hc : ∀ db, c.Listed db ∧ ∀ t, c.taken db t = 0) :
    Adds (Prog.perform c : Exec RecordID) := Prog.Makes.perform hc

theorem adds_buildRow (t : TableId) (schema : Schema) (idxs : List Index) (row : Tuple) :
    Adds (buildRow t schema idxs row) :=
  (adds_perform (c := .insertTuple _ _) fun _ => ⟨trivial, fun _ => rfl⟩).bind fun rid =>
    ((offTables_addKeys _ rid).bind fun _ => offTables_call rfl).adds

theorem offTables_createKeyIndexes (t : TableId) (ts : TableSchema) :
    OffTables (createKeyIndexes t ts) := by
  have hunless : ∀ name columns, OffTables (createUnlessExists t ts name columns) := by
    intro name columns
    refine readOnly_get.offTables.bind fun db => ?_
    simp only
    split
    · exact offTables_ret _
    · exact (offTables_call rfl).bind fun _ => offTables_call rfl
  refine OffTables.bind (Prog.Makes.forM (fun col => ?_) _) fun _ => ?_
  · simp only
    split
    · exact hunless _ _
    · exact offTables_ret _
  · split
    · exact hunless _ _
    · exact offTables_ret _

theorem adds_visitCreate (node : CreateStatement) : Adds (visitCreate node) := by
  have hbuild : ∀ q, Adds (buildRows node.tableId q) := by
    intro q
    refine readOnly_get.offTables.adds.bind fun db => (offTables_query q).adds.bind fun rows => ?_
    refine readOnly_get.offTables.adds.bind fun db' => ?_
    refine Adds.bind (Prog.Makes.forM (fun row => adds_buildRow _ _ _ row) _) fun _ => ?_
    exact ((offTables_call rfl).bind fun _ => offTables_ret _).adds
  refine Adds.bind ?_ fun _ => readOnly_get.offTables.adds.bind fun db => ?_
  · exact (adds_perform (c := .registerTable _) fun _ => ⟨trivial, fun _ => rfl⟩).bind fun _ =>
      (offTables_ret _).adds
  · simp only
    split
    · refine (offTables_createKeyIndexes _ _).adds.bind fun _ => ?_
      split
      · exact (offTables_ret _).adds
      · exact hbuild _
    · split
      · exact (offTables_ret _).adds
      · exact hbuild _

/-! ## RESHAPE -/

/-- A scan without a clause gives every row of the table. -/
theorem gatherRows_ok {t : TableId} {schema : Schema} {db db' : Db}
    {rows : List (RecordID × Tuple)}
    (h : (gatherRows t schema none).run db = (.ok rows, db')) :
    List.Forall₂ (fun raw row => deserializeRow schema raw = .ok row) (db.tables.tuples t) rows := by
  have hloop : ∀ (raws : List (RecordID × Bytes)) (acc : List (RecordID × Tuple)) (db : Db)
      (rows : List (RecordID × Tuple)) (db' : Db), Exec.run (raws.foldlM (fun acc row =>
        Prog.bind (ofExcept (deserializeRow schema row)) fun found =>
          Prog.bind (lockInTxn found.1 false) fun _ => Prog.ret (acc ++ [found])) acc) db =
        (.ok rows, db') → ∃ read, rows = acc ++ read ∧
          List.Forall₂ (fun raw row => deserializeRow schema raw = .ok row) raws read := by
    intro raws
    induction raws with
    | nil =>
      intro acc db rows db' h
      cases h
      exact ⟨[], by simp, .nil⟩
    | cons raw raws ih =>
      intro acc db rows db' h
      simp only [List.foldlM_cons, Prog.bind_eq] at h
      obtain ⟨acc', db₁, hround, h⟩ := run_bind_eq_ok.mp h
      obtain ⟨found, db₂, hfound, hround⟩ := run_bind_eq_ok.mp hround
      obtain ⟨_, db₃, -, hround⟩ := run_bind_eq_ok.mp hround
      cases hround
      rw [run_ofExcept] at hfound
      obtain ⟨read, rfl, hread⟩ := ih _ _ _ _ h
      exact ⟨found :: read, by simp, .cons (congrArg Prod.fst hfound) hread⟩
  obtain ⟨raws, db₁, hraws, h⟩ := run_bind_eq_ok.mp h
  cases hraws
  obtain ⟨read, rfl, hread⟩ := hloop _ [] _ _ _ h
  exact hread

section

variable {t u : TableId} {db : Db}

theorem handed_call (c : Call) : (call c).handed db t = c.handed t :=
  handed_perform_bind fun _ => offTables_ret _

theorem taken_call (c : Call) : (call c).taken db t = c.taken db t :=
  taken_perform_bind fun _ => offTables_ret _

theorem handed_call_bind {c : Call} {f : Unit → Exec α} :
    Exec.handed (Prog.bind (call c) f) db t = c.handed t + (f ()).handed (c.apply db).1 t := by
  rw [handed_bind (run_call c db), handed_call]

theorem taken_call_bind {c : Call} {f : Unit → Exec α} :
    Exec.taken (Prog.bind (call c) f) db t = c.taken db t + (f ()).taken (c.apply db).1 t := by
  rw [taken_bind (run_call c db), taken_call]

theorem adds_insertTuples {γ : Type} (t : TableId) (image : γ → Bytes) (rows : List γ) :
    Adds (rows.forM fun row => call (.insertTuple t (image row))) :=
  Prog.Makes.forM (fun _ => (adds_perform (c := .insertTuple _ _) fun _ =>
    ⟨trivial, fun _ => rfl⟩).bind fun _ => (offTables_ret _).adds) rows

theorem handed_insertTuples {γ : Type} (image : γ → Bytes) (rows : List γ) {db : Db} :
    Exec.handed (rows.forM fun row => call (.insertTuple t (image row))) db u =
      if t = u then (rows.map image : Multiset Bytes) else 0 := by
  induction rows generalizing db with
  | nil => exact ((offTables_ret _).handed db u).trans (by simp)
  | cons row rows ih =>
    refine handed_call_bind.trans ?_
    rw [ih]
    simp only [Call.handed, TableManager.handedTo]
    split
    · rw [List.map_cons, ← Multiset.cons_coe, Multiset.singleton_add]
    · rfl

end

/-- A RESHAPE hands its table the rows that it had, reshaped. -/
theorem visitAlter_ok {node : AlterStatement} {rs : ResultSet} {db db' : Db}
    (h : (visitAlter node).run db = (.ok rs, db')) :
    let ts := db.catalog.getTableById node.tableId
    let oldSchema := db.catalog.loadSchema node.tableId
    ∃ rows, List.Forall₂ (fun raw row => deserializeRow oldSchema raw = .ok row)
        (db.tables.tuples node.tableId) rows ∧
      (∀ u, (visitAlter node).handed db u = if node.tableId = u then
        images (newSchema ts oldSchema node.kind)
          (rows.map fun row => reshapeRow ts node.kind row.2) else 0) ∧
      ∀ u, (visitAlter node).taken db u = if node.tableId = u then db.tables.rows u else 0 := by
  intro ts oldSchema
  unfold visitAlter at h ⊢
  simp only [Prog.bind_eq, Prog.pure_eq] at h ⊢
  obtain ⟨_, db₁, hget, h⟩ := run_bind_eq_ok.mp h
  cases hget
  obtain ⟨rows, db₁, hrows, h⟩ := run_bind_eq_ok.mp h
  have htables := (offTables_gatherRows _ _ _).tables_eq hrows
  have hend : ∀ catalog (rs : ResultSet), OffTables (Prog.bind (call (.setCatalog catalog)) fun _ =>
      Prog.ret rs) := fun _ _ => (offTables_call rfl).bind fun _ => offTables_ret _
  refine ⟨rows, gatherRows_ok hrows, fun u => ?_, fun u => ?_⟩
  · rw [readOnly_get.offTables.handed_bind (run_get db),
      (offTables_gatherRows _ _ _).handed_bind hrows, handed_call_bind, handed_call_bind,
      handed_call_bind, handed_bind_off fun _ => hend _ _, handed_insertTuples]
    simp [Call.handed, images, List.map_map, Function.comp_def, ts, oldSchema]
  · rw [readOnly_get.offTables.taken_bind (run_get db),
      (offTables_gatherRows _ _ _).taken_bind hrows, taken_call_bind, taken_call_bind,
      taken_call_bind, ((adds_insertTuples _ _ rows).bind fun _ => (hend _ _).adds).taken]
    simp [Call.taken, Call.apply, htables]

theorem listed_visitAlter (node : AlterStatement) (db : Db) : AllListed (visitAlter node) db := by
  have hcall : ∀ (c : Call) (db : Db), (∀ db, c.Listed db) → AllListed (call c) db :=
    fun c db hc => listed_perform_bind (hc db) fun _ => offTables_ret _
  refine (readOnly_get.offTables.listed db).bind fun db₁ _ _ => ?_
  refine ((offTables_gatherRows _ _ _).listed _).bind fun rows _ _ => ?_
  refine Prog.All.bind (hcall _ _ fun _ => trivial) fun _ _ _ => ?_
  refine Prog.All.bind (hcall _ _ fun _ => trivial) fun _ _ _ => ?_
  refine Prog.All.bind (hcall _ _ fun _ => trivial) fun _ _ _ => ?_
  exact ((adds_insertTuples _ _ rows).bind fun _ =>
    ((offTables_call rfl).bind fun _ => offTables_ret _).adds).listed _

end Exec

end Relite.Vm
