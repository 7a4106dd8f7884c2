import Relite.Frontend.SemanticAnalyzer
import Relite.Vm.AccessPath
import Relite.Vm.IndexRuns

/-!
# Rows by way of an index

`gatherRows` with the candidates of an index against `gatherRows` over all rows of the
table. Both give the rows that the clause accepts among those they read, so they agree
exactly when the walk over the index meets each accepted row.
-/
namespace Relite.Vm
open Lib Relite.Parser
open Semantic hiding Expression

namespace Exec

section

variable {schema : Schema} {accept : Tuple → Bool} {raws : List (RecordID × Bytes)}
  {found : List (RecordID × Tuple)}

theorem deserializeRow_eq_ok {raw : RecordID × Bytes} {row : RecordID × Tuple} :
    deserializeRow schema raw = .ok row ↔
      Tuple.deserialize raw.2 schema = .ok row.2 ∧ raw.1 = row.1 := by
  obtain ⟨rid, bytes⟩ := raw
  obtain ⟨rid', row⟩ := row
  cases h : Tuple.deserialize bytes schema with
  | error e => simp [deserializeRow, h, bind, Except.bind]
  | ok t => simp [deserializeRow, h, bind, Except.bind, pure, Except.pure, and_comm]

theorem exists_matchingRows (h : ∀ raw ∈ raws, Tuple.Canonical schema raw.2) :
    ∃ found, matchingRows schema (fun _ t => accept t) raws = .ok found := by
  induction raws with
  | nil => exact ⟨[], rfl⟩
  | cons raw raws ih =>
    obtain ⟨row, hrow, -⟩ := h raw List.mem_cons_self
    obtain ⟨rest, hrest⟩ := ih fun r hr => h r (List.mem_cons_of_mem _ hr)
    refine ⟨if accept row then (raw.1, row) :: rest else rest, ?_⟩
    simp [matchingRows, deserializeRow, hrow, hrest, bind, Except.bind, pure, Except.pure]

theorem mem_matchingRows (h : matchingRows schema (fun _ t => accept t) raws = .ok found)
    {x : RecordID × Tuple} :
    x ∈ found ↔ ∃ raw ∈ raws, deserializeRow schema raw = .ok x ∧ accept x.2 := by
  induction raws generalizing found with
  | nil =>
    cases h
    simp
  | cons raw raws ih =>
    simp only [matchingRows, bind, Except.bind, pure, Except.pure] at h
    split at h
    · cases h
    rename_i one hone
    split at h
    · cases h
    rename_i rest hrest
    cases h
    rw [List.exists_mem_cons_iff, ← ih hrest, hone]
    by_cases hacc : accept one.2
    · rw [if_pos hacc, List.mem_cons]
      refine or_congr_left ⟨fun he => ⟨by rw [he], he ▸ hacc⟩, fun he => ?_⟩
      exact (Except.ok.inj he.1).symm
    · rw [if_neg hacc]
      refine ⟨.inr, fun he => he.resolve_left fun hone => hacc ?_⟩
      rw [Except.ok.inj hone.1]
      exact hone.2

theorem sublist_matchingRows (h : matchingRows schema (fun _ t => accept t) raws = .ok found) :
    (found.map Prod.fst).Sublist (raws.map Prod.fst) := by
  induction raws generalizing found with
  | nil =>
    cases h
    exact .refl _
  | cons raw raws ih =>
    simp only [matchingRows, bind, Except.bind, pure, Except.pure] at h
    split at h
    · cases h
    rename_i one hone
    split at h
    · cases h
    rename_i rest hrest
    cases h
    have hrid : one.1 = raw.1 := by
      simp only [deserializeRow, bind, Except.bind, pure, Except.pure] at hone
      split at hone
      · cases hone
      · cases hone
        rfl
    split
    · simpa [hrid] using (ih hrest).cons_cons raw.1
    · exact (ih hrest).cons _

/-- The loop of `gatherRows`: whoever reads a row gets its lock. -/
theorem run_gatherLoop {db : Db} (hlocks : db.locks.Only db.currentTxn)
    (h : matchingRows schema (fun _ t => accept t) raws = .ok found)
    (acc : List (RecordID × Tuple)) :
    (Exec.run (raws.foldlM (fun acc row =>
      Prog.bind (ofExcept (deserializeRow schema row)) fun found =>
        if accept found.2 then Prog.bind (lockInTxn found.1 false) fun _ => Prog.ret (acc ++ [found])
        else Prog.ret acc) acc) db).1 = .ok (acc ++ found) := by
  induction raws generalizing db acc found with
  | nil =>
    cases h
    simp [List.foldlM]
  | cons raw raws ih =>
    simp only [matchingRows, bind, Except.bind, pure, Except.pure] at h
    split at h
    · cases h
    rename_i one hone
    split at h
    · cases h
    rename_i rest hrest
    cases h
    simp only [List.foldlM_cons, Prog.bind_eq, run_bind, run_ofExcept, hone]
    by_cases hacc : accept one.2
    · simp only [hacc, if_true, run_bind, run_lockInTxn hlocks, run_ret]
      refine (ih ?_ hrest (acc ++ [one])).trans (by simp)
      unfold Db.grantInTxn
      split
      · exact hlocks.grant _ _
      · exact hlocks
    · simp only [hacc, if_false, Bool.false_eq_true, run_ret]
      exact ih hlocks hrest acc

/-- Outside a transaction the loop takes no locks, and stops at the first row that is not read. -/
theorem run_gatherLoop_outside {db : Db} (hout : db.txnActive = false)
    (acc : List (RecordID × Tuple)) :
    Exec.run (raws.foldlM (fun acc row =>
      Prog.bind (ofExcept (deserializeRow schema row)) fun found =>
        if accept found.2 then Prog.bind (lockInTxn found.1 false) fun _ => Prog.ret (acc ++ [found])
        else Prog.ret acc) acc) db =
      ((matchingRows schema (fun _ t => accept t) raws).map (acc ++ ·), db) := by
  induction raws generalizing acc with
  | nil => simp [matchingRows, Except.map, List.foldlM]
  | cons raw raws ih =>
    have hlock : ∀ rid, Exec.run (lockInTxn rid false) db = (.ok (), db) := fun rid => by
      simp [lockInTxn, txnActive, hout]
    simp only [List.foldlM_cons, run_bind, run_ofExcept, matchingRows, bind, Except.bind, pure,
      Except.pure]
    cases deserializeRow schema raw with
    | error message => rfl
    | ok one =>
      by_cases hacc : accept one.2
      · simp only [hacc, if_true, run_bind, hlock, run_ret, ih]
        cases matchingRows schema (fun _ t => accept t) raws <;> simp [Except.map]
      · simp only [hacc, if_false, Bool.false_eq_true, run_ret, ih]
        cases matchingRows schema (fun _ t => accept t) raws <;> rfl

end

/-- What `gatherRows` makes of the rows that it reads. -/
theorem run_gatherRows {db : Db} (hlocks : db.locks.Only db.currentTxn) {t : TableId}
    {schema : Schema} {w : Where} {raws : List (RecordID × Bytes)} {found : List (RecordID × Tuple)}
    (hraws : Exec.run (clauseRows t (some w)) db = (.ok raws, db))
    (h : matchingRows schema (fun _ row => predicateTrue w.1 row) raws = .ok found) :
    (Exec.run (gatherRows t schema (some w)) db).1 = .ok found := by
  unfold gatherRows
  simp only [Prog.bind_eq, run_bind, hraws, Option.all_some, pure]
  exact run_gatherLoop hlocks h []

theorem run_gatherRows_outside {db : Db} (hout : db.txnActive = false) {t : TableId}
    {schema : Schema} {when? : Option Where} {raws : List (RecordID × Bytes)}
    (hraws : Exec.run (clauseRows t when?) db = (.ok raws, db)) :
    Exec.run (gatherRows t schema when?) db =
      (matchingRows schema (fun _ row => when?.all fun w => predicateTrue w.1 row) raws, db) := by
  unfold gatherRows
  simp only [Prog.bind_eq, run_bind, hraws, pure]
  let accept (row : Tuple) : Bool := when?.all fun w => predicateTrue w.1 row
  refine (@run_gatherLoop_outside schema accept raws db hout []).trans ?_
  cases matchingRows schema (fun _ row => accept row) raws <;> rfl

end Exec

/-! ## The rows that a path reaches -/

/-- The walk over the index meets an entry of the row, and for a key the Bloom filter lets
it start. -/
def AccessPath.Reaches : AccessPath → RecordID → Prop
  | lookup idx key, rid =>
    idx.bloom.mightContain (keyBytes key) ∧ idx.tree.Meets (some key) (some key) rid
  | rangeScan idx lo hi, rid => idx.tree.Meets lo hi rid

theorem AccessPath.mem_rids {path : AccessPath} {rid : RecordID} :
    rid ∈ path.rids ↔ path.Reaches rid := by
  cases path with
  | lookup idx key =>
    simp only [rids, Index.lookup, Reaches]
    split
    · simp [*, Tree.mem_rangeScan_iff]
    · simp [*]
  | rangeScan idx lo hi => exact Tree.mem_rangeScan_iff

theorem AccessPath.rids_sublist (path : AccessPath) :
    path.rids.Sublist (path.index.tree.map Prod.snd) := by
  have hscan : ∀ (tree : Tree) (lo hi : Option Value),
      (tree.rangeScan lo hi).Sublist (tree.map Prod.snd) := fun tree lo hi =>
    ((List.takeWhile_sublist _).trans List.filter_sublist).map _
  cases path with
  | lookup idx key =>
    simp only [rids, Index.lookup]
    split
    · exact hscan _ _ _
    · exact List.nil_sublist _
  | rangeScan idx lo hi => exact hscan _ _ _

namespace Db

/-- The rows of a table that `gatherRows` gives for a clause, with the candidates that the
indexes have for it. -/
def gathered (db : Db) (t : TableId) (e : Expression)
    (candidates : IndexManager → Option (List RecordID)) : Except String (List (RecordID × Tuple)) :=
  (Exec.run (Exec.gatherRows t (db.catalog.loadSchema t) (some (evalExpression e, candidates))) db).1

/-- The rows by way of an index are those of the scan. -/
def GathersAsScan (db : Db) (t : TableId) (e : Expression) : Prop :=
  ∃ rows scanned, db.gathered t e (indexCandidates e t) = .ok rows ∧
    db.gathered t e (fun _ => none) = .ok scanned ∧ rows.Perm scanned

/-- The path that is chosen for the clause, if any, reaches each row that the clause accepts. -/
def PathReaches (db : Db) (t : TableId) (e : Expression) : Prop :=
  ∀ path, accessPath db.indexes t e = some path →
    ∀ rid bytes row, db.tables.heap t rid = some bytes →
      Tuple.deserialize bytes (db.catalog.loadSchema t) = .ok row →
      predicateTrue (evalExpression e) row → path.Reaches rid

variable {db : Db} {t : TableId}

/-- The entries of an index that agrees with the rows lead to rows of its table. -/
theorem heap_of_mem_rids (h : db.IndexesAgree) {path : AccessPath}
    (hpath : path.index ∈ db.indexes.forTable t) {rid : RecordID} (hrid : rid ∈ path.rids) :
    ∃ bytes, db.tables.heap t rid = some bytes := by
  obtain ⟨key, hkey⟩ := AccessPath.mem_of_rids hrid
  obtain ⟨hidx, rfl⟩ := IndexManager.mem_forTable.mp hpath
  have hentry : key ∈ path.index.tree.keysAt rid := by
    simpa [Tree.keysAt] using hkey
  cases hheap : db.tables.heap path.index.tableId rid with
  | some bytes => exact ⟨bytes, rfl⟩
  | none =>
    have hnone := (h path.index hidx).entries rid
    rw [keyAt_eq_none hheap] at hnone
    rw [List.forall₂_nil_right_iff.mp hnone] at hentry
    cases hentry

/-- The rows that a path leads to, of which `gatherRows` keeps those that the clause accepts. -/
def pathRows (db : Db) (path : AccessPath) : List (RecordID × Bytes) :=
  path.rids.filterMap fun rid => (db.tables.getTuple rid).map fun bytes => (rid, bytes)

theorem mem_pathRows (h : db.IndexesAgree) {path : AccessPath}
    (hpath : path.index ∈ db.indexes.forTable t) {raw : RecordID × Bytes} :
    raw ∈ db.pathRows path ↔ raw ∈ db.tables.tuples t ∧ path.Reaches raw.1 := by
  obtain ⟨rid, bytes⟩ := raw
  simp only [pathRows, List.mem_filterMap, Option.map_eq_some_iff, Prod.mk.injEq,
    TableManager.mem_tuples, ← AccessPath.mem_rids]
  constructor
  · rintro ⟨r, hr, b, hb, rfl, rfl⟩
    obtain ⟨b', hb'⟩ := heap_of_mem_rids h hpath hr
    have hget := (TableManager.heap_eq_some_iff.mp hb').2
    rw [hb] at hget
    cases hget
    exact ⟨hb', hr⟩
  · rintro ⟨hheap, hr⟩
    exact ⟨rid, hr, bytes, (TableManager.heap_eq_some_iff.mp hheap).2, rfl, rfl⟩

theorem nodup_pathRows (h : db.IndexesAgree) {path : AccessPath}
    (hpath : path.index ∈ db.indexes.forTable t) : ((db.pathRows path).map Prod.fst).Nodup := by
  have hidx := (IndexManager.mem_forTable.mp hpath).1
  have hrids : path.rids.Nodup := (h path.index hidx).nodup.sublist path.rids_sublist
  rw [pathRows, List.map_filterMap]
  refine hrids.filterMap ?_
  intro r r' rid hr hr'
  simp only [Option.map_map, Option.mem_def, Option.map_eq_some_iff, Function.comp] at hr hr'
  obtain ⟨_, -, rfl⟩ := hr
  obtain ⟨_, -, rfl⟩ := hr'
  rfl

/-- A clause is answered by way of an index as by a scan if and only if the path that is chosen
for it reaches each row that it accepts. -/
theorem gathersAsScan_iff (hok : db.Ok) (h : db.IndexesAgree) (t : TableId) (e : Expression) :
    db.GathersAsScan t e ↔ db.PathReaches t e := by
  have hcanonical : ∀ raw ∈ db.tables.tuples t,
      Tuple.Canonical (db.catalog.loadSchema t) raw.2 := fun raw hraw =>
    hok.canonical t raw.1 raw.2 (TableManager.mem_tuples.mp hraw)
  obtain ⟨scanned, hscanned⟩ := Exec.exists_matchingRows hcanonical
  have hscan : db.gathered t e (fun _ => none) = .ok scanned :=
    Exec.run_gatherRows hok.only rfl hscanned
  cases hpath : accessPath db.indexes t e with
  | none =>
    have hsame : db.gathered t e (indexCandidates e t) = .ok scanned := by
      refine Exec.run_gatherRows hok.only ?_ hscanned
      simp [Exec.clauseRows, indexCandidates, hpath, Exec.scanRows]
    refine iff_of_true ⟨scanned, scanned, hsame, hscan, .refl _⟩ fun path hsome => ?_
    rw [hpath] at hsome
    cases hsome
  | some path =>
    have hindex := index_of_accessPath hpath
    obtain ⟨rows, hrows⟩ := Exec.exists_matchingRows
      fun raw hraw => hcanonical raw ((mem_pathRows h hindex).mp hraw).1
    have hpathRows : db.gathered t e (indexCandidates e t) = .ok rows := by
      refine Exec.run_gatherRows hok.only ?_ hrows
      simp [Exec.clauseRows, indexCandidates, hpath, Exec.indexRows, pathRows]
    constructor
    · rintro ⟨rows', scanned', hrows', hscanned', hperm⟩ path' hpath' rid bytes row hheap hread hacc
      rw [hpathRows] at hrows'
      rw [hscan] at hscanned'
      cases hrows'
      cases hscanned'
      obtain rfl : path = path' := Option.some.inj (hpath ▸ hpath')
      have hmem : (rid, row) ∈ scanned := (Exec.mem_matchingRows hscanned).mpr
        ⟨(rid, bytes), TableManager.mem_tuples.mpr hheap,
          Exec.deserializeRow_eq_ok.mpr ⟨hread, rfl⟩, hacc⟩
      obtain ⟨raw, hraw, hread', -⟩ := (Exec.mem_matchingRows hrows).mp (hperm.mem_iff.mpr hmem)
      have hrid : raw.1 = rid := (Exec.deserializeRow_eq_ok.mp hread').2
      exact hrid ▸ ((mem_pathRows h hindex).mp hraw).2
    · intro hreaches
      refine ⟨rows, scanned, hpathRows, hscan, ?_⟩
      have hnodup := (nodup_pathRows h hindex).sublist (Exec.sublist_matchingRows hrows)
      have hnodup' := (hok.tables.nodup_tuples t).sublist (Exec.sublist_matchingRows hscanned)
      refine (List.perm_ext_iff_of_nodup hnodup.of_map hnodup'.of_map).mpr fun x => ?_
      rw [Exec.mem_matchingRows hrows, Exec.mem_matchingRows hscanned]
      constructor
      · rintro ⟨raw, hraw, hx⟩
        exact ⟨raw, ((mem_pathRows h hindex).mp hraw).1, hx⟩
      · rintro ⟨raw, hraw, hread, hacc⟩
        refine ⟨raw, (mem_pathRows h hindex).mpr ⟨hraw, ?_⟩, hread, hacc⟩
        exact hreaches path hpath raw.1 raw.2 x.2 (TableManager.mem_tuples.mp hraw)
          (Exec.deserializeRow_eq_ok.mp hread).1 hacc

/-- The table with an index on its column and the rows 1 and 5. -/
def indexedDb : Db :=
  Lib.run (Db.perform 1) numbersDb
    [.createIdx { indexName := "i", tableId := 1, columnIndices := [0] },
      .request (.change (.put [1, 5]))]

theorem agree_indexedDb : indexedDb.Ok ∧ indexedDb.IndexesAgree := by
  have hmeets : AllSteps (Db.perform 1) (fun db c => c.Meets 1 db) numbersDb
      [.createIdx { indexName := "i", tableId := 1, columnIndices := [0] },
        .request (.change (.put [1, 5]))] := by decide +kernel
  exact (run_invariant (fun db : Db => db.Ok ∧ db.IndexesAgree)
    (fun _ _ ⟨hok, h⟩ hmeets => h.perform hok 1 hmeets)
    ⟨ok_numbersDb, fun _ h => by cases h⟩ hmeets).last

/-- The WHEN clause `a = 1`, with the column of a table of that name. -/
def whenOne (table : String) : Expression :=
  .binary .Eq (.column { table, column := "a" }) (.literal (.int 1))

/-- FETCH * FROM t WHEN a = 1. -/
theorem pathReaches_own : ∃ e,
    SemanticAnalyzer.visit { currentTable := some numbers } (whenOne "") = .ok (e, some .Bool) ∧
      indexedDb.PathReaches 1 e := by
  refine ⟨_, rfl, (gathersAsScan_iff agree_indexedDb.1 agree_indexedDb.2 1 _).mp ?_⟩
  exact ⟨[(⟨0, 0⟩, [.int 1])], [(⟨0, 0⟩, [.int 1])], by decide +kernel, by decide +kernel, .refl _⟩

/-- FETCH * FROM t AS i WHEN o.a = 1, as a subquery for the row 1 of a query over t AS o: the
index is asked for the rows of the subquery that are 1. -/
theorem not_gathersAsScan_correlated : ∃ e,
    SemanticAnalyzer.visit
        { currentTable := some numbers, currentAlias := "i", outerScopes := [(numbers, "o")] }
        (whenOne "o") = .ok (e, some .Bool) ∧
      ¬indexedDb.GathersAsScan 1 (bindOuter [.int 1] e) := by
  refine ⟨_, rfl, ?_⟩
  rintro ⟨rows, scanned, hrows, hscanned, hperm⟩
  have hone : Except.ok rows = Except.ok [(⟨0, 0⟩, [.int 1])] :=
    hrows.symm.trans (by decide +kernel)
  have htwo : Except.ok scanned = Except.ok [(⟨0, 0⟩, [.int 1]), (⟨0, 1⟩, [.int 5])] :=
    hscanned.symm.trans (by decide +kernel)
  cases hone
  cases htwo
  simpa using hperm.length_eq

end Db

end Relite.Vm
