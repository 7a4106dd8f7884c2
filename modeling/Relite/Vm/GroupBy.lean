import Relite.Vm.AggregatePaths
import Relite.Vm.IndexReads
import Relite.Vm.StoredValues
import Relite.Vm.Join

/-!
# GROUP BY and joins in batches

`runVectorizedGroupAggregate` folds batches into accumulators by group, and
`runVectorizedHashJoin` looks up batches of one table in a hash table of the other. The row
engine first collects the rows of each group, and joins row by row.
-/
namespace Relite.Vm
open Lib Relite.Parser
open Semantic hiding Expression

/-! ## The row engine -/

/-- An item of the select list: a column of the table, or an expression on the row. -/
structure SelectColumn where
  columnIndex : Int := -1
  computed : Option Expression := none

/-- A FETCH from one table with GROUP BY or aggregates. HAVING is what `evalHavingBool` makes
of a group and its first row. -/
structure GroupSelect where
  tableId : TableId
  when? : Option Expression := none
  columns : List SelectColumn := []
  groupBy : List Int := []
  aggregates : List FunctionExpr := []
  having : Option (List Tuple → Tuple → Bool) := none
  offset : Int := 0
  limit : Option Int := none

/-- The rows of the table that the WHEN clause accepts: those of the snapshot in a transaction
that has one, or else those of the heap. -/
def sourceRows (tableId : TableId) (schema : Schema) (when? : Option Expression) :
    Exec (List Tuple) := do
  let db ← Exec.get
  match if db.txnActive then db.versions.snapshotVersionOf db.currentTxn else none with
  | some snap =>
    let rows ← Exec.ofExcept ((db.versions.snapshotForTxn tableId snap).mapM
      fun bytes => Tuple.deserialize bytes schema)
    return rows.filter fun row => when?.all fun e => predicateTrue (evalExpression e) row
  | none =>
    let rows ← Exec.gatherRows tableId schema
      (when?.map fun e => (evalExpression e, indexCandidates e tableId))
    return rows.map Prod.snd

/-- OFFSET and LIMIT. -/
def limited (offset : Int) (limit : Option Int) (rows : List Tuple) : List Tuple :=
  let rows := if 0 < offset then rows.drop offset.toNat else rows
  match limit with
  | some limit => if 0 ≤ limit then rows.take limit.toNat else rows
  | none => rows

/-- The part of `visit(SelectStatement)` that groups the source rows. -/
def GroupSelect.output (node : GroupSelect) (schema : Schema) (arows : List Tuple) : List Tuple :=
  let found := groupRows (node.groupBy.map Int.toNat) arows
  let groups := if node.groupBy.isEmpty && found.isEmpty then [[]] else found
  let rep (group : List Tuple) : Tuple := group.headD (List.replicate schema.length .null)
  let groups := groups.filter fun group => node.having.all fun having => having group (rep group)
  let rows := groups.map fun group =>
    (node.columns.map fun col =>
      match col.computed with
      | some e => evalExpression e (rep group)
      | none => valueAt (rep group) col.columnIndex) ++
    node.aggregates.map fun fn => computeAggregate fn group
  limited node.offset node.limit rows

def visitGroupSelect (node : GroupSelect) : Exec (List Tuple) := do
  let schema := (← Exec.get).catalog.loadSchema node.tableId
  return node.output schema (← sourceRows node.tableId schema node.when?)

/-- `joinTwo` for an inner join. -/
def joinTwo (left : List Tuple) (leftWidth : Nat) (right : List Tuple) (on : Expression) :
    List Tuple :=
  match equiKeys leftWidth on with
  | some (leftKey, rightKey) => hashJoin left leftKey right rightKey
  | none => nestedJoin left right on

/-! ## Groups in batches -/

structure Group where
  keyVals : List Value
  accs : List Acc

def groupKey (groupCols : List Int) (value : Int → Value) : Bytes :=
  groupCols.flatMap fun gc => valKey (value gc) ++ [separator]

def newGroup (groupCols : List Int) (aggs : List VecAggregate) (value : Int → Value) : Group where
  keyVals := groupCols.map value
  accs := aggs.map fun _ => {}

def Group.accumulate (aggs : List VecAggregate) (value : Int → Value) (g : Group) : Group where
  keyVals := g.keyVals
  accs := List.zipWith (fun (agg : VecAggregate) (acc : Acc) =>
    acc.accumulate agg.kind (if 0 ≤ agg.column then value agg.column else .null)) aggs g.accs

/-- The groups with the order in which they were first seen. -/
abbrev VectorGroupAggregator := Accumulators Bytes Group

namespace VectorGroupAggregator

variable (groupCols : List Int) (aggs : List VecAggregate)

/-- One row, seen as the values of its columns. -/
def addRow (groups : VectorGroupAggregator) (value : Int → Value) : VectorGroupAggregator :=
  groups.add (groupKey groupCols value) (newGroup groupCols aggs value)
    (Group.accumulate aggs value)

def consume (groups : VectorGroupAggregator) (batch : Batch) : VectorGroupAggregator :=
  batch.selection.foldl (fun groups r => groups.addRow groupCols aggs (batch.value · r)) groups

def result (groups : VectorGroupAggregator) : List Tuple :=
  groups.order.map fun key =>
    ((groups.find key).map fun g =>
      g.keyVals ++ List.zipWith (fun (agg : VecAggregate) acc => acc.finalize agg.kind) aggs
        g.accs).getD []

end VectorGroupAggregator

def runVectorizedGroupAggregate (tuples : List Tuple) (schema : Schema)
    (predicate : Option VecPredicate) (groupCols : List Int) (aggregates : List VecAggregate)
    (batchSize : Nat := 1024) : List Tuple :=
  let sink (groups : VectorGroupAggregator) (batch : Batch) : VectorGroupAggregator :=
    groups.consume groupCols aggregates (selected predicate batch)
  (scanIntoSink schema.length batchSize sink tuples (Batch.empty schema.length) 0 {}).result
    aggregates

/-! ## Joins in batches -/

/-- The rows by key. -/
abbrev HashTable := List (Bytes × List Tuple)

def HashTable.push (buildKeyColumn : Nat) (ht : HashTable) (tuple : Tuple) : HashTable :=
  match tuple[buildKeyColumn]? with
  | none => ht
  | some k => if k.isNull then ht else addToGroup (valKey k) tuple ht

/-- `VectorHashProbe::consume`. -/
def HashTable.probe (ht : HashTable) (probeKeyColumn : Nat) (out : List Tuple) (batch : Batch) :
    List Tuple :=
  batch.selection.foldl (fun out r =>
    let k := batch.value probeKeyColumn r
    if k.isNull then out
    else
      match ht.lookup (valKey k) with
      | none => out
      | some rows =>
        let probeRow := batch.columns.map fun col => col.getD r .null
        out ++ rows.map fun buildRow => probeRow ++ buildRow) out

def runVectorizedHashJoin (buildTuples : List Tuple) (buildKeyColumn : Nat)
    (probeTuples : List Tuple) (probeSchema : Schema) (probeKeyColumn : Nat)
    (batchSize : Nat := 1024) : List Tuple :=
  let ht : HashTable := buildTuples.foldl (HashTable.push buildKeyColumn) []
  scanIntoSink probeSchema.length batchSize (ht.probe probeKeyColumn) probeTuples
    (Batch.empty probeSchema.length) 0 []

/-! ## A selection is a list of rows -/

section Selection

variable {ncols : Nat} {rows : List Tuple} (hrows : ∀ row ∈ rows, row.length = ncols)
include hrows

/-- Folding over what a batch selects is folding over the rows that pass, for a fold that
looks at the columns of a row only. -/
theorem foldl_selected {σ : Type} {predicate : Option VecPredicate}
    (hpred : ∀ terms ∈ predicate, ∀ term ∈ terms, 0 ≤ term.column) {f : σ → (Int → Value) → σ}
    (hf : ∀ s value value', (∀ c, 0 ≤ c → value c = value' c) → f s value = f s value') (s : σ) :
    let batch := selected predicate (Batch.ofRows ncols rows)
    batch.selection.foldl (fun s r => f s (batch.value · r)) s =
      (acceptedRows predicate rows).foldl (fun s row => f s (valueAt row)) s := by
  have hvalue : ∀ {r row}, rows[r]? = some row → ∀ c, 0 ≤ c →
      (Batch.ofRows ncols rows).value c r = valueAt row c := by
    intro r row hrow c hc
    obtain ⟨hr, rfl⟩ := List.getElem?_eq_some_iff.mp hrow
    exact Batch.value_ofRows hrows hc hr
  have hstep : ∀ s r row, rows[r]? = some row →
      f s ((Batch.ofRows ncols rows).value · r) = f s (valueAt row) := fun s r row hrow =>
    hf s _ _ fun c hc => hvalue hrow c hc
  cases predicate with
  | none =>
    have hall := foldl_selection (p := fun _ => true) (q := fun _ => true) (fun _ _ _ => rfl)
      hstep s
    simpa [selected, acceptedRows, Batch.ofRows] using hall
  | some terms =>
    refine foldl_selection (q := fun row => passes terms row) (fun r row hrow => ?_) hstep s
    rw [Bool.eq_iff_iff, passes, List.all_eq_true, List.all_eq_true]
    refine forall₂_congr fun term hterm => ?_
    rw [hvalue hrow _ (hpred terms rfl term hterm)]

end Selection

namespace VectorGroupAggregator

variable {groupCols : List Int} {aggs : List VecAggregate}

theorem addRow_congr (hcols : ∀ gc ∈ groupCols, 0 ≤ gc) (groups : VectorGroupAggregator)
    {value value' : Int → Value} (h : ∀ c, 0 ≤ c → value c = value' c) :
    groups.addRow groupCols aggs value = groups.addRow groupCols aggs value' := by
  have hkey : groupKey groupCols value = groupKey groupCols value' :=
    List.flatMap_congr fun gc hgc => by rw [h gc (hcols gc hgc)]
  have hnew : newGroup groupCols aggs value = newGroup groupCols aggs value' := by
    simp only [newGroup, Group.mk.injEq, and_true]
    exact List.map_congr_left fun gc hgc => h gc (hcols gc hgc)
  have haccumulate : Group.accumulate aggs value = Group.accumulate aggs value' := by
    funext g
    simp only [Group.accumulate, Group.mk.injEq, true_and]
    congr 1
    funext agg acc
    split
    · rename_i hcol
      rw [h agg.column hcol]
    · rfl
  rw [addRow, addRow, hkey, hnew, haccumulate]

theorem accs_foldl_accumulate (rows : List Tuple) (keyVals : List Value)
    (accs : VecAggregate → Acc) :
    rows.foldl (fun g row => Group.accumulate aggs (valueAt row) g)
        { keyVals, accs := aggs.map accs } =
      { keyVals
        accs := aggs.map fun agg => rows.foldl (fun acc row =>
          acc.accumulate agg.kind (valueAt row agg.column)) (accs agg) } := by
  induction rows generalizing accs with
  | nil => rfl
  | cons row rows ih =>
    have hstep : Group.accumulate aggs (valueAt row) { keyVals, accs := aggs.map accs } =
        { keyVals
          accs := aggs.map fun agg =>
            (accs agg).accumulate agg.kind (valueAt row agg.column) } := by
      have hvalue : ∀ agg : VecAggregate,
          (if 0 ≤ agg.column then valueAt row agg.column else .null) =
            valueAt row agg.column := fun agg => by
        rw [ite_eq_left_iff, valueAt]
        exact fun hcol => (if_pos (by omega)).symm
      simp only [Group.accumulate, List.zipWith_map_right, List.zipWith_self, hvalue]
    rw [List.foldl_cons, hstep, ih]
    rfl

/-- The row that a group ends as. -/
def finalRow (groupCols : List Int) (aggs : List VecAggregate) (group : List Tuple) : Tuple :=
  groupCols.map (valueAt (group.headD [])) ++ aggs.map fun agg => foldAggregate agg group

/-- The result is a row for each group, in the order in which the groups come up. -/
theorem result_foldl_addRow (rows : List Tuple) :
    (rows.foldl (fun groups row => addRow groupCols aggs groups (valueAt row)) {}).result aggs =
      (groupsBy (fun row => groupKey groupCols (valueAt row)) rows).map fun group =>
        finalRow groupCols aggs group.2 := by
  have hout := Accumulators.map_order_foldl_add
    (fun row : Tuple => groupKey groupCols (valueAt row))
    (fun row => newGroup groupCols aggs (valueAt row))
    (fun row => Group.accumulate aggs (valueAt row))
    (fun o => (o.map fun g : Group =>
      g.keyVals ++ List.zipWith (fun (agg : VecAggregate) acc => acc.finalize agg.kind) aggs
        g.accs).getD []) rows
  refine hout.trans (List.map_congr_left fun group hgroup => ?_)
  obtain ⟨k, xs⟩ := group
  obtain ⟨hk, rfl⟩ := ((groupsBy_spec _ rows).2 k xs).mp hgroup
  cases hxs : rows.filter fun row => groupKey groupCols (valueAt row) = k with
  | nil =>
    obtain ⟨row, hrow, hkey⟩ := List.mem_map.mp hk
    exact absurd (decide_eq_true hkey) (List.filter_eq_nil_iff.mp hxs row hrow)
  | cons row rest =>
    have hfold : (row :: rest).foldl (fun g row => Group.accumulate aggs (valueAt row) g)
        { keyVals := groupCols.map (valueAt row), accs := aggs.map fun _ => {} } = _ :=
      accs_foldl_accumulate (row :: rest) (groupCols.map (valueAt row)) fun _ => {}
    simp only [Accumulators.ofGroup, Option.map_some, Option.getD_some, newGroup, finalRow,
      List.headD_cons, hfold, List.zipWith_map_right, List.zipWith_self]
    rfl

end VectorGroupAggregator

/-- Batches of any size give a row for each group of the rows that pass. -/
theorem runVectorizedGroupAggregate_eq {tuples : List Tuple} {schema : Schema}
    (hrows : ∀ row ∈ tuples, row.length = schema.length) {predicate : Option VecPredicate}
    (hpred : ∀ terms ∈ predicate, ∀ term ∈ terms, 0 ≤ term.column) {groupCols : List Int}
    (hcols : ∀ gc ∈ groupCols, 0 ≤ gc) (aggs : List VecAggregate) (batchSize : Nat) :
    runVectorizedGroupAggregate tuples schema predicate groupCols aggs batchSize =
      (groupsBy (fun row => groupKey groupCols (valueAt row)) (acceptedRows predicate tuples)).map
        fun group => VectorGroupAggregator.finalRow groupCols aggs group.2 := by
  let summary : List Tuple → VectorGroupAggregator := fun done =>
    (acceptedRows predicate done).foldl
      (fun groups row => VectorGroupAggregator.addRow groupCols aggs groups (valueAt row)) {}
  let sink (groups : VectorGroupAggregator) (batch : Batch) : VectorGroupAggregator :=
    groups.consume groupCols aggs (selected predicate batch)
  have hsink : ∀ done rows, (∀ row ∈ rows, row ∈ tuples) →
      sink (summary done) (Batch.ofRows schema.length rows) = summary (done ++ rows) := by
    intro done rows hmem
    have hcongr : ∀ (groups : VectorGroupAggregator) value value',
        (∀ c, 0 ≤ c → value c = value' c) →
        groups.addRow groupCols aggs value = groups.addRow groupCols aggs value' :=
      fun groups _ _ h => VectorGroupAggregator.addRow_congr hcols groups h
    refine (foldl_selected (fun row hrow => hrows row (hmem row hrow)) hpred hcongr
      (summary done)).trans ?_
    simp [summary, acceptedRows]
  have hscan : scanIntoSink schema.length batchSize sink tuples (Batch.ofRows schema.length []) 0
      (summary []) = summary tuples :=
    scanIntoSink_eq hsink fun row hrow => hrow
  rw [Batch.ofRows_nil] at hscan
  exact (congrArg (VectorGroupAggregator.result aggs) hscan).trans
    (VectorGroupAggregator.result_foldl_addRow _)

/-! ## The row engine makes the same groups -/

/-- The call of an aggregate function that the batches know. -/
def BatchCall (fn : FunctionExpr) : Prop :=
  fn.distinct = false ∧ fn.name ∈ ["COUNT", "SUM", "AVG", "MIN", "MAX"]

/-- FETCH of the group columns and the aggregates. -/
def fetchGroups (tableId : TableId) (when? : Option Expression) (groupCols : List Int)
    (aggregates : List FunctionExpr) : GroupSelect :=
  { tableId, when?, groupBy := groupCols, aggregates
    columns := groupCols.map fun gc => { columnIndex := gc } }

theorem output_fetchGroups (tableId : TableId) (when? : Option Expression) {groupCols : List Int}
    (hcols : ∀ gc ∈ groupCols, 0 ≤ gc) (hgroup : groupCols ≠ []) {fns : List FunctionExpr}
    (hfns : ∀ fn ∈ fns, BatchCall fn) (schema : Schema) (rows : List Tuple) :
    (fetchGroups tableId when? groupCols fns).output schema rows =
      (groupsBy (fun row => groupKey groupCols (valueAt row)) rows).map fun group =>
        VectorGroupAggregator.finalRow groupCols (fns.map toVecAggregate) group.2 := by
  have hkey : (fun row : Tuple => rowKey (project (groupCols.map Int.toNat) row)) =
      fun row => groupKey groupCols (valueAt row) := by
    funext row
    rw [rowKey, project, List.map_map, List.flatMap_map]
    refine List.flatMap_congr fun gc hgc => ?_
    rw [valueAt, if_neg (by have := hcols gc hgc; omega)]
    rfl
  have hempty : groupCols.isEmpty = false := by simpa using hgroup
  have hrep : ∀ (group : List Tuple) (gc : Int),
      valueAt (group.headD (List.replicate schema.length .null)) gc =
        valueAt (group.headD []) gc := by
    intro group gc
    cases group with
    | nil =>
      simp only [valueAt, List.headD_nil, List.getD_eq_getElem?_getD, List.getElem?_replicate]
      split
      · rfl
      · split <;> rfl
    | cons row rows => rfl
  have haggs : ∀ group, (fns.map fun fn => computeAggregate fn group) =
      (fns.map toVecAggregate).map fun agg => foldAggregate agg group := by
    intro group
    rw [List.map_map]
    exact List.map_congr_left fun fn hfn =>
      computeAggregate_of_name (hfns fn hfn).1 (hfns fn hfn).2 group
  simp only [GroupSelect.output, fetchGroups, groupRows, hkey, hempty, limited, Option.all_none,
    List.filter_true, Bool.false_and, Bool.false_eq_true, if_false, lt_irrefl, List.map_map]
  refine List.map_congr_left fun group _ => ?_
  simp only [VectorGroupAggregator.finalRow, haggs, hrep, Function.comp_def]

/-- The rows of a table, all of which are read. -/
def Db.decoded (db : Db) (t : TableId) : Except String (List Tuple) :=
  (db.tables.tuples t).mapM fun raw => Tuple.deserialize raw.2 (db.catalog.loadSchema t)

theorem map_matchingRows (schema : Schema) (accept : Tuple → Bool)
    (raws : List (RecordID × Bytes)) :
    (Exec.matchingRows schema (fun _ row => accept row) raws).map (List.map Prod.snd) =
      (raws.mapM fun raw => Tuple.deserialize raw.2 schema).map (List.filter accept) := by
  induction raws with
  | nil => rfl
  | cons raw raws ih =>
    simp only [Exec.matchingRows, Exec.deserializeRow, List.mapM_cons, bind, Except.bind, pure,
      Except.pure]
    cases Tuple.deserialize raw.2 schema with
    | error message => rfl
    | ok row =>
      revert ih
      cases Exec.matchingRows schema (fun _ row => accept row) raws <;>
        cases raws.mapM (m := Except String) fun raw => Tuple.deserialize raw.2 schema <;>
        cases hacc : accept row <;> simp [Except.map, hacc]

/-- Outside a transaction, where no index answers the clause, the rows are read in the order of
the heap. -/
theorem run_sourceRows {db : Db} {t : TableId} {when? : Option Expression}
    (hout : db.txnActive = false) (hscan : ∀ e ∈ when?, indexCandidates e t db.indexes = none) :
    (Exec.run (sourceRows t (db.catalog.loadSchema t) when?) db).1 =
      (db.decoded t).map (List.filter fun row =>
        when?.all fun e => predicateTrue (evalExpression e) row) := by
  have hraws : Exec.run (Exec.clauseRows t
      (when?.map fun e => (evalExpression e, indexCandidates e t))) db =
      (.ok (db.tables.tuples t), db) := by
    cases when? with
    | none => rfl
    | some e => simp [Exec.clauseRows, hscan e rfl, Exec.scanRows]
  have hgather := @Exec.run_gatherRows_outside db hout t (db.catalog.loadSchema t) _ _ hraws
  rw [sourceRows]
  simp only [Option.all_map] at hgather
  simp only [Prog.bind_eq, Exec.run_bind, Exec.run_get, hout, Bool.false_eq_true, if_false, hgather,
    Db.decoded]
  refine Eq.trans ?_ (map_matchingRows _ _ _)
  cases Exec.matchingRows _ _ _ <;> rfl

theorem length_decoded {db : Db} {t : TableId} {tuples : List Tuple}
    (h : db.decoded t = .ok tuples) :
    ∀ row ∈ tuples, row.length = (db.catalog.loadSchema t).length :=
  fun row hrow => (typed_of_mapM h row hrow).length_eq.symm

/-- Outside a transaction, and where no index answers the WHEN clause, the groups in batches
are those of the row engine, in the same order. -/
theorem run_fetchGroups {db : Db} {t : TableId} {when? : Option Expression}
    {predicate : Option VecPredicate} (hwhen : whenPredicate when? = some predicate)
    (hout : db.txnActive = false) (hscan : ∀ e ∈ when?, indexCandidates e t db.indexes = none)
    {groupCols : List Int} (hcols : ∀ gc ∈ groupCols, 0 ≤ gc) (hgroup : groupCols ≠ [])
    {fns : List FunctionExpr} (hfns : ∀ fn ∈ fns, BatchCall fn) (batchSize : Nat) :
    (Exec.run (visitGroupSelect (fetchGroups t when? groupCols fns)) db).1 =
      (db.decoded t).map fun tuples =>
        runVectorizedGroupAggregate tuples (db.catalog.loadSchema t) predicate groupCols
          (fns.map toVecAggregate) batchSize := by
  have hsource := run_sourceRows hout hscan
  rw [visitGroupSelect]
  simp only [Prog.bind_eq, Exec.run_bind, Exec.run_get]
  rw [show (fetchGroups t when? groupCols fns).tableId = t from rfl,
    show (fetchGroups t when? groupCols fns).when? = when? from rfl]
  generalize Exec.run (sourceRows t (db.catalog.loadSchema t) when?) db = run at hsource ⊢
  obtain ⟨outcome, db'⟩ := run
  obtain rfl : outcome = _ := hsource
  cases htuples : db.decoded t with
  | error message => rfl
  | ok tuples =>
    refine congrArg Except.ok ?_
    rw [filter_when_eq hwhen, output_fetchGroups t when? hcols hgroup hfns]
    exact (runVectorizedGroupAggregate_eq (length_decoded htuples) (columns_whenPredicate hwhen)
      hcols _ batchSize).symm

/-! ## The row engine makes the same join -/

theorem foldl_push (key : Nat) (rows : List Tuple) :
    rows.foldl (HashTable.push key) [] = buildTable key rows := by
  rw [buildTable, groupsBy, List.foldl_filter]
  congr 1
  funext ht row
  rw [HashTable.push, List.getD_eq_getElem?_getD]
  cases row[key]? with
  | none => rfl
  | some k => cases hnull : k.isNull <;> simp [hnull]

/-- The rows that one probe row joins to. -/
def HashTable.joined (ht : HashTable) (key : Nat) (row : Tuple) : List Tuple :=
  let kv := row.getD key .null
  if kv.isNull then []
  else
    match ht.lookup (valKey kv) with
    | none => []
    | some rows => rows.map fun r => row ++ r

theorem probe_ofRows (ht : HashTable) (key : Nat) {ncols : Nat} {rows : List Tuple}
    (hrows : ∀ row ∈ rows, row.length = ncols) (out : List Tuple) :
    ht.probe key out (Batch.ofRows ncols rows) = out ++ rows.flatMap (ht.joined key) := by
  have hstep : ∀ (out : List Tuple) (r : Nat) (row : Tuple), rows[r]? = some row →
      (let k := (Batch.ofRows ncols rows).value key r
       if k.isNull then out
       else
         match ht.lookup (valKey k) with
         | none => out
         | some found =>
           let probeRow := (Batch.ofRows ncols rows).columns.map fun col => col.getD r .null
           out ++ found.map fun buildRow => probeRow ++ buildRow) = out ++ ht.joined key row := by
    intro out r row hrow
    obtain ⟨hr, rfl⟩ := List.getElem?_eq_some_iff.mp hrow
    have hvalue : (Batch.ofRows ncols rows).value key r = rows[r].getD key .null := by
      rw [Batch.value_ofRows hrows (by omega) hr, valueAt, if_neg (by omega)]
      rfl
    have hprobe : ((Batch.ofRows ncols rows).columns.map fun col => col.getD r .null) =
        rows[r] := by
      have hlen := hrows rows[r] (List.getElem_mem hr)
      refine List.ext_getElem (by simp [Batch.ofRows, hlen]) fun i h₁ h₂ => ?_
      simp only [Batch.ofRows, List.map_map, List.getElem_map, Function.comp, List.getElem_range,
        List.getD_eq_getElem?_getD, List.getElem?_map, List.getElem?_eq_getElem hr, Option.map_some,
        Option.getD_some]
      rw [List.getElem?_eq_getElem h₂, Option.getD_some]
    dsimp only
    rw [hvalue, hprobe, HashTable.joined]
    split
    · rw [List.append_nil]
    · cases ht.lookup (valKey (rows[r].getD key .null)) with
      | none => rw [List.append_nil]
      | some found => rfl
  have hall := foldl_selection (p := fun _ => true) (q := fun _ => true) (fun _ _ _ => rfl)
    hstep out
  rw [List.filter_true, List.filter_true] at hall
  rw [HashTable.probe]
  refine hall.trans ?_
  rw [List.foldl_append_eq_append, List.flatMap_def]

theorem runVectorizedHashJoin_eq (build : List Tuple) (buildKey : Nat) {probe : List Tuple}
    {probeSchema : Schema} (hrows : ∀ row ∈ probe, row.length = probeSchema.length)
    (probeKey batchSize : Nat) :
    runVectorizedHashJoin build buildKey probe probeSchema probeKey batchSize =
      hashJoin probe probeKey build buildKey := by
  let ht : HashTable := buildTable buildKey build
  have hsink : ∀ done rows, (∀ row ∈ rows, row ∈ probe) →
      ht.probe probeKey (done.flatMap (ht.joined probeKey)) (Batch.ofRows probeSchema.length rows) =
        (done ++ rows).flatMap (ht.joined probeKey) := by
    intro done rows hmem
    rw [probe_ofRows ht probeKey fun row hrow => hrows row (hmem row hrow), List.flatMap_append]
  have hscan : scanIntoSink probeSchema.length batchSize (ht.probe probeKey) probe
      (Batch.ofRows probeSchema.length []) 0 [] = probe.flatMap (ht.joined probeKey) :=
    @scanIntoSink_eq _ _ _ _ (fun done => done.flatMap (ht.joined probeKey)) _ hsink probe [] []
      fun row hrow => hrow
  rw [Batch.ofRows_nil] at hscan
  rw [runVectorizedHashJoin, foldl_push]
  exact hscan

/-- The batches join as the inner hash path does with the probed table on the left. -/
theorem runVectorizedHashJoin_eq_joinTwo (build : List Tuple) {probe : List Tuple}
    {probeSchema : Schema} (hrows : ∀ row ∈ probe, row.length = probeSchema.length)
    {on : Expression} {probeKey buildKey : Nat}
    (hkeys : equiKeys probeSchema.length on = some (probeKey, buildKey)) (batchSize : Nat) :
    runVectorizedHashJoin build buildKey probe probeSchema probeKey batchSize =
      joinTwo probe probeSchema.length build on := by
  rw [runVectorizedHashJoin_eq build buildKey hrows, joinTwo, hkeys]

/-! ## Batches against rows -/

/-- Batches of any size give the groups and the joined rows of the row engine, in its order. -/
theorem vectorized_agree (db : Db) (batchSize : Nat) :
    (∀ (t : TableId) (when? : Option Expression) (predicate : Option VecPredicate)
        (groupCols : List Int) (fns : List FunctionExpr),
      db.txnActive = false → whenPredicate when? = some predicate →
      (∀ e ∈ when?, indexCandidates e t db.indexes = none) →
      groupCols ≠ [] → (∀ gc ∈ groupCols, 0 ≤ gc) → (∀ fn ∈ fns, BatchCall fn) →
      (Exec.run (visitGroupSelect (fetchGroups t when? groupCols fns)) db).1 =
        (db.decoded t).map fun tuples =>
          runVectorizedGroupAggregate tuples (db.catalog.loadSchema t) predicate groupCols
            (fns.map toVecAggregate) batchSize) ∧
    ∀ (buildTable probeTable : TableId) (build probe : List Tuple) (on : Expression)
        (probeKey buildKey : Nat),
      db.decoded buildTable = .ok build → db.decoded probeTable = .ok probe →
      let probeSchema := db.catalog.loadSchema probeTable
      equiKeys probeSchema.length on = some (probeKey, buildKey) →
      runVectorizedHashJoin build buildKey probe probeSchema probeKey batchSize =
        joinTwo probe probeSchema.length build on := by
  constructor
  · intro t when? predicate groupCols fns hout hwhen hscan hgroup hcols hfns
    exact run_fetchGroups hwhen hout hscan hcols hgroup hfns batchSize
  · intro _ _ build probe on probeKey buildKey _ hprobe probeSchema hkeys
    exact runVectorizedHashJoin_eq_joinTwo build (length_decoded hprobe) hkeys batchSize

/-- The column of the example table. -/
def columnA : Expression := .column { column := "a", columnIndex := 0 }

/-- FETCH a, COUNT(*) FROM t WHEN a > 0 GROUP BY a, and t joined to itself on its column, in
batches of one row. -/
theorem vectorized_agree_ones :
    (Exec.run (visitGroupSelect (fetchGroups 1 (some (.binary .Gt columnA (.literal (.int 0)))) [0]
        [countStar])) oneNumberDb).1 =
      ((oneNumberDb.decoded 1).map fun tuples =>
        runVectorizedGroupAggregate tuples (oneNumberDb.catalog.loadSchema 1)
          (some [{ column := 0, op := .Gt, literal := .int 0 }]) [0] [toVecAggregate countStar] 1) ∧
    runVectorizedHashJoin [[.int 1]] 0 [[.int 1]] (oneNumberDb.catalog.loadSchema 1) 0 1 =
      joinTwo [[.int 1]] (oneNumberDb.catalog.loadSchema 1).length [[.int 1]]
        (.binary .Eq columnA (.column { column := "a", columnIndex := 1 })) := by
  obtain ⟨hgroups, hjoin⟩ := vectorized_agree oneNumberDb 1
  have hdecoded : oneNumberDb.decoded 1 = .ok [[.int 1]] := by decide +kernel
  refine ⟨hgroups 1 _ _ [0] [countStar] (by decide +kernel) rfl ?_ (by simp) (by simp) ?_,
    hjoin 1 1 _ _ _ 0 0 hdecoded hdecoded (by decide +kernel)⟩
  · rintro e ⟨⟩
    decide +kernel
  · simp [BatchCall, countStar]

/-- The rows 1 and 2, the first of which has been removed and brought back by UNDO, in a
transaction. -/
def broughtBackDb : Db :=
  Lib.run (Db.execute 1) numbersDb
    [.change (.put [1, 2]), .transaction .Begin,
      .change (.delete
        { tableId := 1, when? := some (Condition.of (.binary .Eq columnA (.literal (.int 1))) 1) }),
      .transaction .Rollback, .transaction .Begin]

/-- By an index the groups come in the order of its keys, in a transaction in that of the
snapshot, and without a group column there is a group of no rows. -/
theorem not_vectorized_agree :
    (∃ db : Db, db.txnActive = false ∧
      (Exec.run (visitGroupSelect (fetchGroups 1 (some (.binary .Gt columnA (.literal (.int 0))))
          [0] [countStar])) db).1 = .ok [[.int 1, .int 1], [.int 5, .int 1]] ∧
      ((db.decoded 1).map fun tuples =>
        runVectorizedGroupAggregate tuples (db.catalog.loadSchema 1)
          (some [{ column := 0, op := .Gt, literal := .int 0 }]) [0] [toVecAggregate countStar]) =
        .ok [[.int 5, .int 1], [.int 1, .int 1]]) ∧
    ((Exec.run (visitGroupSelect (fetchGroups 1 none [0] [countStar])) broughtBackDb).1 =
        .ok [[.int 1, .int 1], [.int 2, .int 1]] ∧
      ((broughtBackDb.decoded 1).map fun tuples =>
        runVectorizedGroupAggregate tuples (broughtBackDb.catalog.loadSchema 1) none [0]
          [toVecAggregate countStar]) = .ok [[.int 2, .int 1], [.int 1, .int 1]]) ∧
    (Exec.run (visitGroupSelect (fetchGroups 1 none [] [countStar])) numbersDb).1 =
        .ok [[.int 0]] ∧
      ((numbersDb.decoded 1).map fun tuples =>
        runVectorizedGroupAggregate tuples (numbersDb.catalog.loadSchema 1) none []
          [toVecAggregate countStar]) = .ok [] := by
  refine ⟨⟨Lib.run (Db.perform 1) numbersDb
    [.createIdx { indexName := "i", tableId := 1, columnIndices := [0] },
      .request (.change (.put [5, 1]))], ?_, ?_, ?_⟩, ⟨?_, ?_⟩, ?_, ?_⟩ <;> decide +kernel

end Relite.Vm
