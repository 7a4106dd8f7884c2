import Relite.Frontend.StatementAnalyzer

/-!
# What a rejected statement leaves in the catalog

Every statement but BUILD RELATION is checked as a whole before the catalog is changed. BUILD
RELATION makes the relation in the midst of its checks, so that it stays when its key, a
reference or a CHECK does not resolve (`rejected_unchanged_iff`).
-/
namespace Relite.SemanticAnalyzer
open Lib Vm Relite.Parser
open Semantic hiding Expression
open Analysis

/-! ## What the analysis of an expression depends on -/

variable {scope scope' : Scope}

theorem visitAggregate_congr
    (h : ∀ node, visitColumnRef scope node = visitColumnRef scope' node)
    (name : String) (star distinct : Bool) (argument : Option ColumnRef) :
    visitAggregate scope name star distinct argument =
      visitAggregate scope' name star distinct argument := by
  simp only [visitAggregate, h]

mutual

theorem visit_congr (h : ∀ node, visitColumnRef scope node = visitColumnRef scope' node) :
    ∀ e, visit scope e = visit scope' e
  | .literal _ => by simp only [visit]
  | .column node => by simp only [visit, h]
  | .binary _ l r => by simp only [visit, visit_congr h l, visit_congr h r]
  | .logical _ l r => by simp only [visit, visit_congr h l, visit_congr h r]
  | .arithmetic _ l r => by simp only [visit, visit_congr h l, visit_congr h r]
  | .not operand => by simp only [visit, visit_congr h operand]
  | .isNull operand _ => by simp only [visit, visit_congr h operand]
  | .inList v items _ => by simp only [visit, visit_congr h v, visitItems_congr h items]
  | .inSubquery v _ _ => by simp only [visit, visit_congr h v]
  | .between v lo hi _ => by simp only [visit, visit_congr h v, visit_congr h lo, visit_congr h hi]
  | .like v pattern _ => by simp only [visit, visit_congr h v, visit_congr h pattern]
  | .call _ args => by simp only [visit, visitAll_congr h args]
  | .cast arg _ => by simp only [visit, visit_congr h arg]
  | .case branches none => by simp only [visit, visitBranches_congr h branches]
  | .case branches (some e) => by
    simp only [visit, visitBranches_congr h branches, visit_congr h e]
  | .aggregate name star distinct argument => by
    simp only [visit, visitAggregate_congr h name star distinct argument]
  | .subquery .Exists _ => by simp only [visit]
  | .subquery .Scalar _ => by simp only [visit]

theorem visitAll_congr (h : ∀ node, visitColumnRef scope node = visitColumnRef scope' node) :
    ∀ es, visitAll scope es = visitAll scope' es
  | [] => by simp only [visitAll]
  | e :: es => by simp only [visitAll, visit_congr h e, visitAll_congr h es]

theorem visitItems_congr (h : ∀ node, visitColumnRef scope node = visitColumnRef scope' node) :
    ∀ es type, visitItems scope type es = visitItems scope' type es
  | [], _ => by simp only [visitItems]
  | e :: es, _ => by simp only [visitItems, visit_congr h e, visitItems_congr h es]

theorem visitBranches_congr (h : ∀ node, visitColumnRef scope node = visitColumnRef scope' node) :
    ∀ branches, visitBranches scope branches = visitBranches scope' branches
  | [] => by simp only [visitBranches]
  | (cond, value) :: branches => by
    simp only [visitBranches, visit_congr h cond, visit_congr h value,
      visitBranches_congr h branches]

end

theorem columnIndex_congr {ts ts' : TableSchema} (h : ts.signature = ts'.signature)
    (column : String) : ts.columnIndex column = ts'.columnIndex column := by
  have hfind : ∀ ts : TableSchema, (ts.columns.findIdx? fun c => c.name = column) =
      ts.signature.2.findIdx? fun c => c.1 = column := fun ts => by
    simp [TableSchema.signature, List.findIdx?_map, Function.comp_def]
  simp only [TableSchema.columnIndex, hfind, h]

theorem typeAt_congr {ts ts' : TableSchema} (h : ts.signature = ts'.signature) (idx : Int) :
    typeAt ts idx = typeAt ts' idx := by
  have htype : ∀ ts : TableSchema, typeAt ts idx = (ts.signature.2[idx.toNat]?).map Prod.snd :=
    fun ts => by simp [typeAt, TableSchema.signature, Function.comp_def]
  rw [htype, htype, h]

/-- A CHECK is bound alike over tables of one name and the same columns. -/
theorem bindExpression_congr {ts ts' : TableSchema} (h : ts.signature = ts'.signature)
    (e : Parser.Expression) : bindExpression ts e = bindExpression ts' e := by
  have hname : ts.name = ts'.name := congrArg Prod.fst h
  have hcol : ∀ node, visitColumnRef { currentTable := some ts } node =
      visitColumnRef { currentTable := some ts' } node := by
    intro node
    simp only [visitColumnRef, resolveOuterOr, resolveOuter, hname, columnIndex_congr h,
      typeAt_congr h]
  simp only [bindExpression, checkPredicate, visit_congr hcol]

theorem getTable_congr {c c' : Catalog} (h : c.signature = c'.signature) (name : String) :
    (c.getTable name).map TableSchema.signature = (c'.getTable name).map TableSchema.signature := by
  have hfind : ∀ c : Catalog, (c.getTable name).map TableSchema.signature =
      c.signature.find? fun t => t.1 = name := fun c => by
    rw [Catalog.getTable, Catalog.signature, List.find?_map]
    rfl
  rw [hfind, hfind, h]

theorem checkReference_congr {c c' : Catalog} (h : c.signature = c'.signature)
    (col : ColumnDefinition) : checkReference c col = checkReference c' col := by
  have htable := getTable_congr h col.refTable
  unfold checkReference
  cases hc : c.getTable col.refTable with
  | none =>
    cases hc' : c'.getTable col.refTable with
    | none => rfl
    | some ts' => simp [hc, hc'] at htable
  | some ts =>
    cases hc' : c'.getTable col.refTable with
    | none => simp [hc, hc'] at htable
    | some ts' =>
      have hsig : ts.signature = ts'.signature := by simpa [hc, hc'] using htable
      simp only [columnIndex_congr hsig, typeAt_congr hsig]

theorem boundCheck_congr {c c' : Catalog} (h : c.signature = c'.signature) (table : String)
    (k : Check) : boundCheck c table k = boundCheck c' table k := by
  have htable := getTable_congr h table
  unfold boundCheck
  cases hc : c.getTable table with
  | none =>
    cases hc' : c'.getTable table with
    | none => rfl
    | some ts' => simp [hc, hc'] at htable
  | some ts =>
    cases hc' : c'.getTable table with
    | none => simp [hc, hc'] at htable
    | some ts' =>
      have hsig : ts.signature = ts'.signature := by simpa [hc, hc'] using htable
      simp only [bindExpression_congr hsig, h]

/-! ## What changes inside a table leave alone -/

theorem signature_onTable (c : Catalog) (name : String) (f : TableSchema → TableSchema)
    (hf : ∀ ts, (f ts).tableId = ts.tableId) (hsig : ∀ ts, (f ts).signature = ts.signature) :
    (c.onTable name f hf).signature = c.signature := by
  simp only [Catalog.signature, Catalog.onTable, List.map_map]
  refine List.map_congr_left fun ts _ => ?_
  simp only [Function.comp_apply]
  split
  · exact hsig ts
  · rfl

theorem signature_setPrimaryKey (c : Catalog) (table : String) (columns : List Int) :
    (c.setPrimaryKey table columns).signature = c.signature := by
  refine signature_onTable _ _ _ _ fun ts => ?_
  simp only [TableSchema.signature, List.map_map, Prod.mk.injEq, true_and]
  refine List.ext_getElem (by simp) fun i h₁ h₂ => ?_
  simp only [List.getElem_map, List.getElem_zipIdx, Function.comp_apply]
  split <;> rfl

theorem signature_addForeignKey (c : Catalog) (table : String) (fk : ForeignKey) :
    (c.addForeignKey table fk).signature = c.signature :=
  signature_onTable _ _ _ _ fun _ => rfl

theorem signature_setColumnCheckExpr (c : Catalog) (table : String) (i : Nat)
    (e : Semantic.Expression) : (c.setColumnCheckExpr table i e).signature = c.signature := by
  refine signature_onTable _ _ _ _ fun ts => ?_
  simp only [TableSchema.signature, Prod.mk.injEq, true_and]
  refine List.ext_getElem (by simp) fun j h₁ h₂ => ?_
  simp only [List.getElem_map, List.getElem_modify]
  split <;> rfl

/-! ## BUILD RELATION -/

/-- The table that a BUILD RELATION makes. -/
def newSelf (relations : Relations) (node : CreateStatement) (schemas : List ColumnSchema) :
    TableSchema := relations.newTable node.table schemas

/-- What BUILD RELATION looks at only after it has made the relation: the columns of the key
are different ones of the table, the references lead to columns of a comparable type, of the
new table or of one that was there, and the CHECKs are conditions on the columns. -/
structure Resolves (relations : Relations) (node : CreateStatement)
    (columns : List ColumnDefinition) (schemas : List ColumnSchema) : Prop where
  keys : node.primaryKeyColumns.Nodup ∧
    ∀ name ∈ node.primaryKeyColumns, 0 ≤ (newSelf relations node schemas).columnIndex name
  references : ∀ col ∈ columns, col.refTable ≠ "" →
    ∃ parent, (parent ∈ relations.catalog.getTable col.refTable ∨
        col.refTable = node.table ∧ parent = newSelf relations node schemas) ∧
      0 ≤ parent.columnIndex col.refColumn ∧
      ∃ type ∈ typeAt parent (parent.columnIndex col.refColumn), comparable col.type type
  checks : ∀ col ∈ columns, ∀ c ∈ col.checkExpr,
    c.subqueries (relations.createTable node.table schemas).catalog.signature = .ok () ∧
      ∃ e, bindExpression (newSelf relations node schemas) c.expr = .ok e

/-- A BUILD RELATION that passes the checks before the relation is made passes those after. -/
def ResolvesIfMade (relations : Relations) : Statement → Prop
  | .create node => ∀ columns schemas,
    checkCreate relations.catalog node = .ok (columns, schemas) →
      Resolves relations node columns schemas
  | _ => True

theorem check_eq_ok {cond : Bool} {message : String} {u : Unit} :
    check cond message = .ok u ↔ cond = true := by
  unfold check
  split <;> simp_all

theorem keyColumns_ok_iff (self : TableSchema) (names : List String) (seen : List String) :
    (∃ idxs, keyColumns (some self) seen names = .ok idxs) ↔
      (names.Nodup ∧ ∀ name ∈ names, name ∉ seen) ∧ ∀ name ∈ names, 0 ≤ self.columnIndex name := by
  induction names generalizing seen with
  | nil => simp [keyColumns]
  | cons name names ih =>
    have hstep : (∃ idxs, keyColumns (some self) seen (name :: names) = .ok idxs) ↔
        name ∉ seen ∧ 0 ≤ self.columnIndex name ∧
          ∃ idxs, keyColumns (some self) (name :: seen) names = .ok idxs := by
      simp [keyColumns, bind_eq_ok, check_eq_ok, pure, Except.pure]
    rw [hstep, ih]
    simp only [List.nodup_cons, List.mem_cons, not_or, forall_eq_or_imp]
    constructor
    · rintro ⟨hseen, hidx, ⟨hnodup, hnot⟩, hcols⟩
      exact ⟨⟨⟨fun hm => (hnot name hm).1 rfl, hnodup⟩, hseen, fun n hn => (hnot n hn).2⟩,
        hidx, hcols⟩
    · rintro ⟨⟨⟨hnot, hnodup⟩, hseen, hnew⟩, hidx, hcols⟩
      exact ⟨hseen, hidx, ⟨hnodup, fun n hn => ⟨fun he => hnot (he ▸ hn), hnew n hn⟩⟩, hcols⟩

theorem keyColumns_congr {ts ts' : TableSchema} (h : ts.signature = ts'.signature)
    (names : List String) : ∀ seen, keyColumns (some ts) seen names =
      keyColumns (some ts') seen names := by
  induction names with
  | nil => intro seen; rfl
  | cons name names ih =>
    intro seen
    simp only [keyColumns, Option.map_some, columnIndex_congr h, ih]

/-- The checks after the relation is made: its key, its references and its CHECKs, over the
catalog that has it. -/
def checkKey (self : TableSchema) (node : CreateStatement) : Except String Unit :=
  if node.primaryKeyColumns = [] then .ok ()
  else do
    let _ ← keyColumns (some self) [] node.primaryKeyColumns

def checkColumnReference (made : Catalog) (col : ColumnDefinition × Nat) : Except String Unit :=
  if col.1.refTable = "" then .ok () else checkReference made col.1

def checkColumnCheck (made : Catalog) (table : String) (col : ColumnDefinition × Nat) :
    Except String Unit :=
  match col.1.checkExpr with
  | none => .ok ()
  | some c => do
    let _ ← boundCheck made table c

def lateChecks (made : Catalog) (self : TableSchema) (node : CreateStatement)
    (columns : List ColumnDefinition) : Except String Unit := do
  checkKey self node
  columns.zipIdx.forM (checkColumnReference made)
  columns.zipIdx.forM (checkColumnCheck made node.table)

theorem forM_eq_ok {α : Type} {g : α → Except String Unit} {l : List α} {u : Unit} :
    l.forM g = .ok u ↔ ∀ a ∈ l, g a = .ok () := by
  induction l with
  | nil => simp [pure, Except.pure]
  | cons a l ih =>
    have hcons : (a :: l).forM g = g a >>= fun _ => l.forM g := rfl
    rw [hcons, bind_eq_ok, List.forall_mem_cons, ← ih]
    exact ⟨fun ⟨_, h, h'⟩ => ⟨h, h'⟩, fun ⟨h, h'⟩ => ⟨(), h, h'⟩⟩

section
variable {relations : Relations} {node : CreateStatement} {columns : List ColumnDefinition}
  {schemas : List ColumnSchema}

/-- The tables of the catalog once the relation is made. -/
theorem getTable_createTable (hnew : relations.catalog.hasTable node.table = false)
    (name : String) :
    (relations.createTable node.table schemas).catalog.getTable name =
      (relations.catalog.getTable name).or
        (if name = node.table then some (newSelf relations node schemas) else none) := by
  simp only [Relations.createTable, hnew, Bool.false_eq_true, if_false, Catalog.addTable,
    Catalog.getTable, List.find?_append]
  congr 1
  by_cases hname : name = node.table
  · subst hname
    simp [newSelf, Relations.newTable]
  · have : ¬node.table = name := fun h => hname h.symm
    simp [Relations.newTable, hname, this]

theorem getTable_self (hnew : relations.catalog.hasTable node.table = false) :
    (relations.createTable node.table schemas).catalog.getTable node.table =
      some (newSelf relations node schemas) := by
  have hnone : relations.catalog.getTable node.table = none := by
    simpa [Catalog.hasTable] using hnew
  rw [getTable_createTable hnew, hnone, if_pos rfl]
  rfl

theorem checkReference_ok_iff (hnew : relations.catalog.hasTable node.table = false)
    (col : ColumnDefinition) :
    checkReference (relations.createTable node.table schemas).catalog col = .ok () ↔
      ∃ parent, (parent ∈ relations.catalog.getTable col.refTable ∨
          col.refTable = node.table ∧ parent = newSelf relations node schemas) ∧
        0 ≤ parent.columnIndex col.refColumn ∧
        ∃ type ∈ typeAt parent (parent.columnIndex col.refColumn), comparable col.type type := by
  have hparent : ∀ parent, (relations.createTable node.table schemas).catalog.getTable
      col.refTable = some parent ↔ parent ∈ relations.catalog.getTable col.refTable ∨
        col.refTable = node.table ∧ parent = newSelf relations node schemas := by
    intro parent
    rw [getTable_createTable hnew]
    by_cases hself : col.refTable = node.table
    · have hnone : relations.catalog.getTable node.table = none := by
        simpa [Catalog.hasTable] using hnew
      simp [hself, hnone, eq_comm]
    · simp [hself]
  simp only [← hparent]
  unfold checkReference
  cases (relations.createTable node.table schemas).catalog.getTable col.refTable with
  | none => exact ⟨fun h => (by cases h), fun ⟨_, h, _⟩ => (by cases h)⟩
  | some parent => simp [bind_eq_ok, check_eq_ok, Option.any_eq_true]

theorem boundCheck_ok_iff (hnew : relations.catalog.hasTable node.table = false) (c : Check) :
    (∃ e, boundCheck (relations.createTable node.table schemas).catalog node.table c = .ok e) ↔
      c.subqueries (relations.createTable node.table schemas).catalog.signature = .ok () ∧
        ∃ e, bindExpression (newSelf relations node schemas) c.expr = .ok e := by
  simp only [boundCheck, getTable_self hnew, bind_eq_ok]
  constructor
  · rintro ⟨e, _, h, h'⟩
    exact ⟨h, e, h'⟩
  · rintro ⟨h, e, h'⟩
    exact ⟨e, (), h, h'⟩

/-- The late checks pass exactly when everything resolves. -/
theorem lateChecks_ok_iff (hnew : relations.catalog.hasTable node.table = false) :
    lateChecks (relations.createTable node.table schemas).catalog
      (newSelf relations node schemas) node columns = .ok () ↔
      Resolves relations node columns schemas := by
  have hmem : ∀ col ∈ columns, ∃ i, (col, i) ∈ columns.zipIdx := by
    intro col hcol
    obtain ⟨i, hi⟩ := List.mem_iff_getElem?.mp hcol
    exact ⟨i, List.mem_zipIdx_iff_getElem?.mpr hi⟩
  have hkeys : checkKey (newSelf relations node schemas) node = .ok () ↔
      node.primaryKeyColumns.Nodup ∧ ∀ name ∈ node.primaryKeyColumns,
        0 ≤ (newSelf relations node schemas).columnIndex name := by
    have h := keyColumns_ok_iff (newSelf relations node schemas) node.primaryKeyColumns []
    simp only [List.not_mem_nil, not_false_eq_true, implies_true, and_true] at h
    unfold checkKey
    split
    · rename_i hnil
      simp [hnil]
    · rw [← h]
      simp [bind_eq_ok, pure, Except.pure]
  simp only [lateChecks, bind_eq_ok, exists_and_left, exists_const, hkeys, forM_eq_ok]
  constructor
  · rintro ⟨hkey, hrefs, hchecks⟩
    refine ⟨hkey, fun col hcol hne => ?_, fun col hcol c hc => ?_⟩
    · obtain ⟨i, hi⟩ := hmem col hcol
      have := hrefs _ hi
      rw [checkColumnReference, if_neg hne] at this
      exact (checkReference_ok_iff hnew col).mp this
    · obtain ⟨i, hi⟩ := hmem col hcol
      have := hchecks _ hi
      simp only [checkColumnCheck, Option.mem_def.mp hc] at this
      obtain ⟨e, he, -⟩ := bind_eq_ok.mp this
      exact (boundCheck_ok_iff hnew c).mp ⟨e, he⟩
  · intro h
    refine ⟨h.keys, fun col hcol => ?_, fun col hcol => ?_⟩
    · unfold checkColumnReference
      split
      · rfl
      · exact (checkReference_ok_iff hnew col.1).mpr
          (h.references col.1 (List.fst_mem_of_mem_zipIdx hcol) ‹_›)
    · unfold checkColumnCheck
      cases hc : col.1.checkExpr with
      | none => rfl
      | some c =>
        obtain ⟨e, he⟩ := (boundCheck_ok_iff hnew c).mpr
          (h.checks col.1 (List.fst_mem_of_mem_zipIdx hcol) c hc)
        exact bind_eq_ok.mpr ⟨e, he, rfl⟩

/-! ## The program after the relation is made -/

/-- The relation is there, and its tables have kept their columns. -/
def Made (relations : Relations) (node : CreateStatement) (schemas : List ColumnSchema)
    (r : Relations) : Prop :=
  r.catalog.signature = (relations.createTable node.table schemas).catalog.signature ∧
    r.nextTableId = relations.nextTableId + 1

abbrev MadeYields (relations : Relations) (node : CreateStatement) (schemas : List ColumnSchema)
    {α : Type} (x : Analysis α) (e : Except String α) : Prop :=
  Prog.Yields (fun (c : CatalogCall) relations => c.apply relations)
    (Made relations node schemas) x e

theorem yields_call {c : CatalogCall}
    (hc : ∀ r : Relations, (c.apply r).1.catalog.signature = r.catalog.signature ∧
      (c.apply r).1.nextTableId = r.nextTableId) :
    MadeYields relations node schemas (do let _ ← call c) (.ok ()) :=
  fun r hr => ⟨rfl, (hc r).1.trans hr.1, (hc r).2.trans hr.2⟩

theorem yields_ofExcept {α : Type} (e : Except String α) :
    MadeYields relations node schemas (Analysis.ofExcept e) e := by
  cases e with
  | ok a => exact .ret a
  | error message => exact .throw message

/-- A program that looks at the catalog, but sees no more than its signature. -/
theorem yields_catalog {α : Type} {f : Catalog → Analysis α} {e : Except String α}
    (hf : ∀ c : Catalog,
      c.signature = (relations.createTable node.table schemas).catalog.signature →
        MadeYields relations node schemas (f c) e) :
    MadeYields relations node schemas (Prog.bind Analysis.catalog f) e :=
  fun r hr => hf r.catalog hr.1 r hr

theorem yields_addPrimaryKey (hnew : relations.catalog.hasTable node.table = false) :
    MadeYields relations node schemas (addPrimaryKey node)
      (checkKey (newSelf relations node schemas) node) := by
  unfold addPrimaryKey checkKey
  split
  · exact .ret ()
  refine yields_catalog fun c hc => ?_
  have hself := getTable_congr hc node.table
  rw [getTable_self hnew] at hself
  cases hts : c.getTable node.table with
  | none => simp [hts] at hself
  | some ts =>
    have hsig : ts.signature = (newSelf relations node schemas).signature := by
      simpa [hts] using hself
    rw [keyColumns_congr hsig]
    exact (yields_ofExcept _).bind fun pk => yields_call fun r =>
      ⟨signature_setPrimaryKey _ _ _, rfl⟩

theorem yields_addReference (col : ColumnDefinition × Nat) :
    MadeYields relations node schemas (addReference node.table col)
      (checkColumnReference (relations.createTable node.table schemas).catalog col) := by
  unfold addReference checkColumnReference
  split
  · exact .ret ()
  refine yields_catalog fun c hc => ?_
  rw [← checkReference_congr hc]
  have hcall : MadeYields relations node schemas (do
      let _ ← call (.addForeignKey node.table
        { columnIndex := col.2, refTable := col.1.refTable, refColumn := col.1.refColumn
          onDelete := col.1.refOnDelete, onUpdate := col.1.refOnUpdate })) (.ok ()) :=
    yields_call fun r => ⟨signature_addForeignKey _ _ _, rfl⟩
  have h := (yields_ofExcept (checkReference c col.1)).bind fun _ => hcall
  cases he : checkReference c col.1 <;> (rw [he] at h; exact h)

theorem yields_bindCheck (col : ColumnDefinition × Nat) :
    MadeYields relations node schemas (bindCheck node.table col)
      (checkColumnCheck (relations.createTable node.table schemas).catalog node.table col) := by
  unfold bindCheck checkColumnCheck
  cases col.1.checkExpr with
  | none => exact .ret ()
  | some k =>
    refine yields_catalog fun c hc => ?_
    rw [boundCheck_congr hc]
    exact (yields_ofExcept _).bind fun e => yields_call fun r =>
      ⟨signature_setColumnCheckExpr _ _ _ _, rfl⟩

/-- What is left of `visitCreate` once the relation is made. -/
def finishCreate (node : CreateStatement) (columns : List ColumnDefinition) : Analysis Unit := do
  addPrimaryKey node
  columns.zipIdx.forM (addReference node.table)
  columns.zipIdx.forM (bindCheck node.table)

theorem yields_finishCreate (hnew : relations.catalog.hasTable node.table = false) :
    MadeYields relations node schemas (finishCreate node columns)
      (lateChecks (relations.createTable node.table schemas).catalog
        (newSelf relations node schemas) node columns) :=
  (yields_addPrimaryKey hnew).bind fun _ =>
    (Prog.Yields.forM fun col _ => yields_addReference col).bind fun _ =>
      Prog.Yields.forM fun col _ => yields_bindCheck col

/-- A BUILD RELATION whose checks up to the making of the relation fail changes nothing; after
them the relation is made, and the late checks decide. -/
theorem run_visitCreate (relations : Relations) (node : CreateStatement) :
    (∃ e, checkCreate relations.catalog node = .error e ∧
      (visitCreate node).run relations = (.error e, relations)) ∨
    ∃ columns schemas, checkCreate relations.catalog node = .ok (columns, schemas) ∧
      ((∃ id, ((visitCreate node).run relations).1 = .ok id) ↔
        Resolves relations node columns schemas) ∧
      ((visitCreate node).run relations).2.nextTableId = relations.nextTableId + 1 := by
  cases hcheck : checkCreate relations.catalog node with
  | error e =>
    refine .inl ⟨e, rfl, ?_⟩
    simp only [visitCreate, Analysis.run, Prog.bind_eq, Prog.run_bind, Analysis.catalog,
      Prog.pure_eq, Prog.run_get, Prog.run_ret, hcheck, Analysis.ofExcept, Prog.run_throw]
  | ok made =>
    obtain ⟨columns, schemas⟩ := made
    refine .inr ⟨columns, schemas, rfl, ?_⟩
    have hnew : relations.catalog.hasTable node.table = false := by
      obtain ⟨_, hfree, -⟩ := bind_eq_ok.mp hcheck
      simpa [check_eq_ok] using hfree
    have hmade : Made relations node schemas (relations.createTable node.table schemas) := by
      refine ⟨rfl, ?_⟩
      simp [Relations.createTable, hnew]
    have hrun : (visitCreate node).run relations =
        ((finishCreate node columns).bind fun _ => .ret relations.nextTableId).run
          (fun (c : CatalogCall) relations => c.apply relations)
          (relations.createTable node.table schemas) := by
      simp only [finishCreate, Prog.bind_eq, Prog.bind_assoc]
      simp only [visitCreate, Analysis.run, Prog.bind_eq, Analysis.catalog, Prog.pure_eq]
      have hget : (Prog.bind Prog.get fun r : Relations => Prog.ret r.catalog).run
          (fun (c : CatalogCall) relations => c.apply relations) relations =
          ((.ok relations.catalog, relations) : Except String Catalog × Relations) := rfl
      rw [Prog.run_bind_ok _ hget, hcheck]
      rfl
    obtain ⟨hout, -, hid⟩ :=
      ((@yields_finishCreate _ _ columns _ hnew).bind fun _ =>
        Prog.Yields.ret relations.nextTableId) _ hmade
    rw [hrun]
    refine ⟨?_, hid⟩
    rw [hout, ← lateChecks_ok_iff hnew]
    simp only [bind_eq_ok, Except.ok.injEq]
    exact ⟨fun ⟨_, _, h, _⟩ => h, fun h => ⟨_, (), h, rfl⟩⟩

end

/-! ## All statements -/

section
variable {α β : Type}

/-- What the program throws, it throws before it changes anything. -/
def Unchanging (x : Analysis α) : Prop :=
  ∀ relations e, (x.run relations).1 = .error e → (x.run relations).2 = relations

def Reads (x : Analysis α) : Prop := ∀ relations, (x.run relations).2 = relations

def Total (x : Analysis α) : Prop := ∀ relations, ∃ a, (x.run relations).1 = .ok a

theorem run_bind (x : Analysis α) (f : α → Analysis β) (relations : Relations) :
    Analysis.run (x.bind f) relations =
      match x.run relations with
      | (.ok a, r) => (f a).run r
      | (.error e, r) => (.error e, r) := by
  unfold Analysis.run
  rw [Prog.run_bind]
  generalize Prog.run (fun (c : CatalogCall) relations => c.apply relations) x relations = out
  obtain ⟨outcome, r⟩ := out
  cases outcome <;> rfl

theorem Unchanging.bind {x : Analysis α} {f : α → Analysis β} (hx : Unchanging x)
    (hf : ∀ a, Total (f a)) : Unchanging (x.bind f) := by
  intro relations e he
  have hthrow := hx relations
  rw [run_bind] at he ⊢
  generalize x.run relations = out at he hthrow
  obtain ⟨outcome, r⟩ := out
  cases outcome with
  | error e' => exact hthrow e' rfl
  | ok a =>
    obtain ⟨b, hb⟩ := hf a r
    rw [hb] at he
    cases he

theorem Reads.bind {x : Analysis α} {f : α → Analysis β} (hx : Reads x)
    (hf : ∀ a, Unchanging (f a)) : Unchanging (x.bind f) := by
  intro relations e he
  have hread := hx relations
  rw [run_bind] at he ⊢
  generalize x.run relations = out at he hread
  obtain ⟨outcome, r⟩ := out
  cases hread
  cases outcome with
  | error e' => rfl
  | ok a => exact hf a _ e he

theorem Reads.unchanging {x : Analysis α} (hx : Reads x) : Unchanging x :=
  fun relations _ _ => hx relations

theorem reads_get : Reads Prog.get := fun _ => rfl

theorem reads_catalog : Reads Analysis.catalog := fun _ => rfl

theorem reads_ofExcept (e : Except String α) : Reads (Analysis.ofExcept e) := by
  intro relations
  cases e <;> rfl

theorem total_ret (a : α) : Total (Prog.ret a) := fun _ => ⟨a, rfl⟩

theorem total_call (c : CatalogCall) (f : TableId → α) :
    Total ((call c).bind fun id => .ret (f id)) := fun _ => ⟨_, rfl⟩

end

theorem unchanging_visitDrop (node : DropStatement) : Unchanging (visitDrop node) := by
  unfold visitDrop
  split
  · refine reads_catalog.bind fun c => ?_
    exact (reads_ofExcept _).unchanging.bind fun _ => fun _ => ⟨_, rfl⟩
  · refine reads_get.bind fun r => ?_
    refine (reads_ofExcept _).unchanging.bind fun tableId => ?_
    dsimp only
    split
    · exact fun _ => ⟨_, rfl⟩
    · exact total_ret _

/-- A statement that is rejected leaves the catalog as it was if and only if it is no BUILD
RELATION whose key, references and CHECKs are first looked at, and do not resolve, when the
relation has been made. -/
theorem rejected_unchanged_iff (relations : Relations) (s : Statement) :
    (∀ e, ((analyze s).run relations).1 = .error e →
      ((analyze s).run relations).2 = relations) ↔ ResolvesIfMade relations s := by
  have hother : Unchanging (analyze s) → ResolvesIfMade relations s →
      ((∀ e, ((analyze s).run relations).1 = .error e →
        ((analyze s).run relations).2 = relations) ↔ ResolvesIfMade relations s) :=
    fun h hr => ⟨fun _ => hr, fun _ => h relations⟩
  cases s with
  | create node =>
    have hrun : (analyze (.create node)).run relations =
        match (visitCreate node).run relations with
        | (.ok _, r) => (.ok (), r)
        | (.error e, r) => (.error e, r) := by
      refine (run_bind (visitCreate node) (fun _ => .ret ()) relations).trans ?_
      generalize (visitCreate node).run relations = out
      obtain ⟨outcome, r⟩ := out
      cases outcome <;> rfl
    rw [hrun]
    rcases run_visitCreate relations node with
      ⟨e, hcheck, hthrow⟩ | ⟨columns, schemas, hcheck, hok, hid⟩
    · rw [hthrow]
      simp [ResolvesIfMade, hcheck]
    · generalize (visitCreate node).run relations = out at hok hid
      obtain ⟨outcome, r⟩ := out
      have hres : ResolvesIfMade relations (.create node) ↔
          Resolves relations node columns schemas := by
        simp [ResolvesIfMade, hcheck]
      rw [hres, ← hok]
      cases outcome with
      | ok id => simp
      | error e =>
        simp only [Except.error.injEq, reduceCtorEq, exists_false, iff_false]
        intro h
        have hsame : r.nextTableId = relations.nextTableId :=
          congrArg Relations.nextTableId (h e rfl)
        exact absurd (hsame.symm.trans hid) (ne_of_lt (Int.lt_succ _))
  | createIdx node =>
    refine hother ?_ trivial
    refine Unchanging.bind ?_ fun _ => total_ret _
    exact reads_catalog.bind fun c =>
      (reads_ofExcept _).unchanging.bind fun _ => fun _ => ⟨_, rfl⟩
  | createView node =>
    refine hother ?_ trivial
    refine Unchanging.bind ?_ fun _ => total_ret _
    exact reads_catalog.bind fun c =>
      (reads_ofExcept _).unchanging.bind fun _ => fun _ => ⟨_, rfl⟩
  | drop node => exact hother ((unchanging_visitDrop node).bind fun _ => total_ret _) trivial
  | alter node =>
    refine hother ?_ trivial
    exact reads_catalog.bind fun c => (reads_ofExcept _).unchanging.bind fun _ => total_ret _
  | rows accept =>
    refine hother ?_ trivial
    exact reads_catalog.bind fun c => (reads_ofExcept _).unchanging

/-- A catalog without relations. -/
def noRelations : Relations where
  catalog := .empty
  nextTableId := 0
  fresh := by simp [Catalog.empty]

/-- BUILD RELATION t (a INT, PRIMARY KEY (b)): the relation stays when it is rejected. -/
theorem rejected_leaves_relation : ¬∀ (relations : Relations) (s : Statement) (e : String),
    ((analyze s).run relations).1 = .error e → ((analyze s).run relations).2 = relations := by
  intro h
  have hout := h noRelations
    (.create { table := "t", columns := [{ name := "a" }], primaryKeyColumns := ["b"] })
    "unknown column 'b' in PRIMARY KEY" (by decide)
  have hid := congrArg Relations.nextTableId hout
  exact absurd hid (by decide)

end Relite.SemanticAnalyzer
