import Relite.Vm.AccessPath
import Relite.Vm.Views
import Relite.Vm.Window

/-!
# Reads of the past

A FETCH with AS OF reads its tables as they were, and inside a transaction it reads them as they
were at START, with the changes of the transaction itself. What is committed later does not show
then, unless a SELECT goes to the live tables: one with window functions always does, and so does
a subquery without AS OF outside a transaction.
-/
namespace Relite.Vm.DatedReads
open Lib Relite.Parser SortBy
open Semantic hiding Expression
open Vm.Reading (ofExcept materializeSubqueries bindCorrelated partsOf)

/-! ## The statement -/

/-- How `visit(SelectStatement)` comes by its rows. A SELECT that groups may be one for which
`isVectorizableAggregate` holds, and then has its aggregates as a function of the rows. -/
inductive Path
  | windowed
  | joined
  | grouped (vectorized : Option (List Tuple → List Tuple))
  | plain

def Path.isWindowed : Path → Bool
  | windowed => true
  | _ => false

/-- A SELECT over base tables. -/
structure Select extends SelectStatement where
  path : Path := .plain
  sources_ne_nil : sources ≠ []

/-- The first table after FROM. -/
def Select.tableId (node : Select) : TableId := node.sources.head node.sources_ne_nil

/-- The SELECTs of a FETCH, the last one first. -/
structure Text where
  nodes : List Select
  correlated : NodeId → Bool := fun _ => false
  ordered : Ordered (nodes.map Select.toSelectStatement)

/-- The same SELECTs without their paths. -/
def Text.toQueryText (text : Text) : QueryText where
  nodes := text.nodes.map Select.toSelectStatement
  correlated := text.correlated
  views _ := none
  ordered := text.ordered

/-! ## The rows of a table -/

/-- The snapshot of the transaction that is open. -/
def openSnapshot (db : Db) : Option Nat :=
  if db.txnActive then db.versions.snapshotVersionOf db.currentTxn else none

section

variable (db : Db) (tableId : TableId) (when? : Option Expression)

/-- The live rows. The locks that reading them takes are left out. -/
def gatherBaseRows : Except String (List Tuple) :=
  let schema := db.catalog.loadSchema tableId
  let rows := Exec.gatherRows tableId schema
    (when?.map fun e => (evalExpression e, indexCandidates e tableId))
  (rows.run db).1.map fun rows => rows.map Prod.snd

/-- The rows that the version store has kept of a table. -/
def keptRows (kept : List Bytes) : Except String (List Tuple) := do
  let rows ← kept.mapM fun bytes => Tuple.deserialize bytes (db.catalog.loadSchema tableId)
  return rows.filter fun row => when?.all fun e => predicateTrue (evalExpression e) row

/-- `sourceRows`, and `gatherJoinInput` where there is no clause. -/
def sourceRows (asOf : Option Nat) : Except String (List Tuple) :=
  match asOf with
  | some version => keptRows db tableId when? (db.versions.snapshotAsOf tableId version)
  | none =>
    match openSnapshot db with
    | some snap => keptRows db tableId when? (db.versions.snapshotForTxn tableId snap)
    | none => gatherBaseRows db tableId when?

end

/-! ## Running a SELECT -/

section

variable (db : Db) (text : Text) (select : NodeId → Tuple → Reading (List Tuple))

/-- The rows of the one table of a SELECT that the clause accepts. -/
def whenRows (node : Select) (parts : Reading.Parts) (when_ : Answers → Expression)
    (answers : Answers) : Reading (List Tuple) :=
  if node.bound.any text.correlated then do
    let rows ← ofExcept (sourceRows db node.tableId none node.asOf)
    rows.foldlM (fun found row => do
      let answers ← bindCorrelated text.toQueryText select node.bound row answers
      return if parts.accepts answers row then found ++ [row] else found) []
  else ofExcept (sourceRows db node.tableId (some (when_ answers)) node.asOf)

/-- Sorts and projects the rows, which have been gathered. -/
def projectRows (node : Select) (parts : Reading.Parts) (answers : Answers) (rows : List Tuple) :
    Reading (List Tuple) := do
  let projected ← (node.order rows).foldlM (fun projected row => do
    let answers ← bindCorrelated text.toQueryText select node.projected row answers
    return projected ++ [parts.project answers row]) []
  return parts.finish answers projected

/-- `visit(SelectStatement)` after the call of `optimizeSelect`. -/
def selectRows (node : Select) (outerRow : Tuple) (parts : Reading.Parts)
    (when_ : Answers → Expression) : Reading (List Tuple) := do
  let answers ← materializeSubqueries text.toQueryText select node.subqueries
  match node.path with
  | .windowed =>
    -- the version store is not asked, whatever AS OF or the transaction says
    let rows ← ofExcept (gatherBaseRows db node.tableId (some (when_ answers)))
    return parts.finish answers rows
  | .joined =>
    let inputs ← ofExcept (node.sources.mapM fun t => sourceRows db t none node.asOf)
    let rows := (node.link outerRow answers inputs).filter (parts.accepts answers)
    projectRows text select node parts answers rows
  | .grouped vectorized =>
    match if node.asOf.isSome || db.txnActive then none else vectorized with
    | some aggregate =>
      let rows ← ofExcept (gatherBaseRows db node.tableId none)
      return aggregate (rows.filter (parts.accepts answers))
    | none =>
      let rows ← whenRows db text select node parts when_ answers
      return parts.finish answers rows
  | .plain =>
    let rows ← whenRows db text select node parts when_ answers
    projectRows text select node parts answers rows

def visitSelect (node : Select) (i : NodeId) (outerRow : Tuple) : Reading (List Tuple) := do
  Prog.perform (.optimize i)
  let tree ← Prog.get
  selectRows db text select node outerRow
    (partsOf node.toSelectStatement outerRow (tree.where_ i) (tree.others i))
    fun answers => bindOuter outerRow (tree.where_ i answers)

end

/-- The SELECT with the number `i`. -/
def query (db : Db) (text : Text) : List Select → NodeId → Tuple → Reading (List Tuple)
  | [], _, _ => Prog.throw "no such query"
  | node :: rest, i, outerRow =>
    if i = rest.length then visitSelect db text (query db text rest) node i outerRow
    else query db text rest i outerRow

/-- The rows of the FETCH with the number `i`, freshly parsed. -/
def Text.answer (text : Text) (db : Db) (i : NodeId) : Except String (List Tuple) :=
  ((query db text text.nodes i []).run text.toQueryText.parsed).1

/-! ## States with the same past -/

/-- The rows of a table at the snapshot. -/
def committedRows (vs : VersionStore) (tableId : TableId) (snap : Nat) : List BaseRow :=
  vs.reconstruct tableId (if snap < vs.baselineVersion then vs.baselineVersion else snap)

/-- What is staged of a table. -/
def stagedChanges (vs : VersionStore) (tableId : TableId) : List Change :=
  vs.pending.filter fun c => c.tableId = tableId

/-- The states agree on the tables of the SELECT as of its version, or else on the snapshot of
the transaction and on what it has staged. -/
def Select.SamePast (node : Select) (db db' : Db) : Prop :=
  ∀ t ∈ node.sources,
    match node.asOf with
    | some version => db'.versions.snapshotAsOf t version = db.versions.snapshotAsOf t version
    | none => ∀ snap ∈ openSnapshot db,
      committedRows db'.versions t snap = committedRows db.versions t snap ∧
      stagedChanges db'.versions t = stagedChanges db.versions t

/-- The states are in the same transaction, if any, and agree on the past of all SELECTs. Their
live tables may differ, and so may all that is committed later. -/
structure Text.SamePast (text : Text) (db db' : Db) : Prop where
  catalog : db'.catalog = db.catalog
  currentTxn : db'.currentTxn = db.currentTxn
  openSnapshot : openSnapshot db' = openSnapshot db
  nodes : ∀ node ∈ text.nodes, node.SamePast db db'

/-- The SELECT has an AS OF or runs in a transaction. -/
def Select.Dated (node : Select) (db : Db) : Prop :=
  node.asOf.isSome ∨ (openSnapshot db).isSome

instance (node : Select) (db : Db) : Decidable (node.Dated db) :=
  inferInstanceAs (Decidable (_ ∨ _))

/-- No SELECT goes to the live tables: each, the subqueries among them, is without window
functions, and has an AS OF of its own or runs in the transaction. -/
def Text.KeepsToPast (text : Text) (db : Db) : Prop :=
  ∀ node ∈ text.nodes, node.path.isWindowed = false ∧ node.Dated db

instance (text : Text) (db : Db) : Decidable (text.KeepsToPast db) :=
  inferInstanceAs (Decidable (∀ node ∈ text.nodes, _ ∧ _))

section

variable {db db' : Db} {text : Text} {node : Select} (hcatalog : db'.catalog = db.catalog)
  (hsnapshot : openSnapshot db' = openSnapshot db) (hpast : node.SamePast db db')
  (hdated : node.Dated db)

theorem mapM_congr {f g : TableId → Except String (List Tuple)} {l : List TableId}
    (h : ∀ t ∈ l, f t = g t) : l.mapM f = l.mapM g := by
  induction l with
  | nil => rfl
  | cons t l ih =>
    obtain ⟨ht, hl⟩ := List.forall_mem_cons.mp h
    rw [List.mapM_cons, List.mapM_cons, ht, ih hl]

theorem snapshotForTxn_congr {vs vs' : VersionStore} {t : TableId} {snap : Nat}
    (hrows : committedRows vs' t snap = committedRows vs t snap)
    (hstaged : stagedChanges vs' t = stagedChanges vs t) :
    vs'.snapshotForTxn t snap = vs.snapshotForTxn t snap := by
  unfold committedRows at hrows
  unfold stagedChanges at hstaged
  unfold VersionStore.snapshotForTxn
  simp only [hrows, hstaged]

include hcatalog hsnapshot hpast hdated

/-- A table of a dated SELECT is read from the version store, which has the same of it. -/
theorem sourceRows_congr {t : TableId} (ht : t ∈ node.sources) (when? : Option Expression) :
    sourceRows db' t when? node.asOf = sourceRows db t when? node.asOf := by
  have hsame := hpast t ht
  have hkept : keptRows db' t when? = keptRows db t when? := by
    unfold keptRows
    rw [hcatalog]
  unfold sourceRows
  cases hasOf : node.asOf with
  | some version =>
    rw [hasOf] at hsame
    simp only [hkept, hsame]
  | none =>
    rw [hasOf] at hsame
    obtain ⟨snap, hopen⟩ := Option.isSome_iff_exists.mp
      (hdated.resolve_left (by rw [hasOf]; exact Bool.false_ne_true))
    obtain ⟨hrows, hstaged⟩ := hsame snap hopen
    simp only [hsnapshot, hopen, hkept, snapshotForTxn_congr hrows hstaged]

theorem whenRows_congr (select : NodeId → Tuple → Reading (List Tuple)) (parts : Reading.Parts)
    (when_ : Answers → Expression) (answers : Answers) :
    whenRows db' text select node parts when_ answers =
      whenRows db text select node parts when_ answers := by
  unfold whenRows Select.tableId
  simp only [sourceRows_congr hcatalog hsnapshot hpast hdated (List.head_mem node.sources_ne_nil)]

/-- Each path but that of window functions gets its rows from `sourceRows`. -/
theorem selectRows_congr (hactive : db'.txnActive = db.txnActive)
    (hwindow : node.path.isWindowed = false) (select : NodeId → Tuple → Reading (List Tuple))
    (outerRow : Tuple) (parts : Reading.Parts) (when_ : Answers → Expression) :
    selectRows db' text select node outerRow parts when_ =
      selectRows db text select node outerRow parts when_ := by
  have hwhen : ∀ answers, whenRows db' text select node parts when_ answers =
      whenRows db text select node parts when_ answers :=
    whenRows_congr hcatalog hsnapshot hpast hdated select parts when_
  unfold selectRows
  cases hpath : node.path with
  | windowed => simp [Path.isWindowed, hpath] at hwindow
  | joined =>
    have hinputs : node.sources.mapM (fun t => sourceRows db' t none node.asOf) =
        node.sources.mapM fun t => sourceRows db t none node.asOf :=
      mapM_congr fun t ht => sourceRows_congr hcatalog hsnapshot hpast hdated ht none
    simp only [hinputs]
  | grouped vectorized =>
    -- a dated SELECT does not take the vectorized path
    have hplain : (node.asOf.isSome || db.txnActive) = true := by
      rw [Bool.or_eq_true]
      refine hdated.imp_right fun hopen => ?_
      by_contra hout
      simp [openSnapshot, hout] at hopen
    simp only [hactive, hplain, if_true, hwhen]
  | plain => simp only [hwhen]

end

section

variable {db db' : Db} {text : Text}

/-- The SELECTs run the same, one inside the other. -/
theorem query_congr (h : text.SamePast db db') (hkeeps : text.KeepsToPast db) {l : List Select}
    (hl : ∀ node ∈ l, node ∈ text.nodes) (i : NodeId) (outerRow : Tuple) :
    query db' text l i outerRow = query db text l i outerRow := by
  induction l generalizing i outerRow with
  | nil => rfl
  | cons node rest ih =>
    have hrest : query db' text rest = query db text rest :=
      funext fun i => funext fun row => ih (fun n hn => hl n (List.mem_cons_of_mem _ hn)) i row
    have hnode := hl node List.mem_cons_self
    have hactive : db'.txnActive = db.txnActive := by rw [Db.txnActive, Db.txnActive, h.currentTxn]
    unfold query visitSelect
    simp only [hrest, selectRows_congr h.catalog h.openSnapshot (h.nodes node hnode)
      (hkeeps node hnode).2 hactive (hkeeps node hnode).1]

/-- A FETCH none of whose SELECTs goes to the live tables yields the same rows in any two states
with the same past. -/
theorem answer_eq_of_samePast (text : Text) (i : NodeId) (hkeeps : text.KeepsToPast db)
    (h : text.SamePast db db') : text.answer db' i = text.answer db i := by
  unfold Text.answer
  rw [query_congr h hkeeps (fun _ hn => hn)]

end

/-! ## Two statements to try out -/

/-- A FETCH of one table without a clause. -/
def plain (node : Fetch) (tableId : TableId) (asOf : Option Nat) : Select where
  sources := [tableId]
  asOf
  order := sortRows node.orderBy
  project _ _ := node.projected
  finish _ _ rows := cut node.offset node.limit (if node.distinct then dedupeRows rows else rows)
  sources_ne_nil := List.cons_ne_nil _ _

def windowed (node : Fetch) (tableId : TableId) (asOf : Option Nat) : Select where
  path := .windowed
  sources := [tableId]
  asOf
  finish _ _ rows := node.runWindowQuery rows
  sources_ne_nil := List.cons_ne_nil _ _

/-- The database after PUT INTO t VALUES (1). -/
def laterDb : Db := numbersDb.execute 1 (.change (.put [1]))

/-- Before any change, the table is the same in both. -/
theorem samePast_laterDb {text : Text}
    (h : ∀ node ∈ text.nodes, node.sources = [1] ∧ node.asOf = some 0) :
    text.SamePast numbersDb laterDb where
  catalog := rfl
  currentTxn := by decide +kernel
  openSnapshot := by decide +kernel
  nodes := by
    rintro node hnode t ht
    obtain ⟨hsources, hasOf⟩ := h node hnode
    rw [hsources, List.mem_singleton] at ht
    subst ht
    rw [hasOf]
    show laterDb.versions.snapshotAsOf 1 0 = numbersDb.versions.snapshotAsOf 1 0
    decide +kernel

def star : Text where
  nodes := [plain { selectStar := true } 1 (some 0)]
  ordered := by decide

/-- FETCH * FROM t AS OF 0, before and after a row is put. -/
theorem answer_star_later : star.answer laterDb 0 = star.answer numbersDb 0 :=
  answer_eq_of_samePast star 0 (by decide) (samePast_laterDb (by decide))

def rowNumbers : Text where
  nodes := [windowed { columns := [.window fun rows =>
    (WindowExpr.windowValues { name := "ROW_NUMBER" } rows).getD []] } 1 (some 0)]
  ordered := by decide

/-- FETCH ROW_NUMBER() OVER () FROM t AS OF 0 counts a row that is put later. -/
theorem rowNumbers_later : ¬∀ (text : Text) (i : NodeId) (db db' : Db),
    (∀ node ∈ text.nodes, node.Dated db) → text.SamePast db db' →
      text.answer db' i = text.answer db i := by
  intro h
  have hsame := h rowNumbers 0 numbersDb laterDb (by decide) (samePast_laterDb (by decide))
  have hbefore : rowNumbers.answer numbersDb 0 = .ok [] := by decide +kernel
  have hafter : rowNumbers.answer laterDb 0 = .ok [[.int 1]] := by decide +kernel
  rw [hbefore, hafter] at hsame
  simp at hsame

end Relite.Vm.DatedReads
