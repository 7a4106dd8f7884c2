import Relite.Vm.Ddl
import Relite.Vm.ExpressionEval
import Relite.Vm.Calls

/-!
# The constraints of a table that loses a column

Keys, foreign keys and CHECKs hold positions of columns. RESHAPE DISCARD COLUMN moves the
columns after the one that goes, and of the positions only those of the foreign keys.
-/
namespace Relite.Vm
open Lib Semantic

mutual

/-- The references to columns in an expression. -/
def references : Parser.Expression → List Parser.ColumnRef
  | .literal _ | .subquery _ _ => []
  | .column col => [col]
  | .binary _ l r | .logical _ l r | .arithmetic _ l r | .like l r _ => references l ++ references r
  | .not operand | .isNull operand _ | .cast operand _ => references operand
  | .inList v items _ => references v ++ referencesAll items
  | .inSubquery v _ _ => references v
  | .between v lo hi _ => references v ++ references lo ++ references hi
  | .call _ args => referencesAll args
  | .case branches none => referencesBranches branches
  | .case branches (some e) => referencesBranches branches ++ references e
  | .aggregate _ _ _ argument => argument.toList

def referencesAll : List Parser.Expression → List Parser.ColumnRef
  | [] => []
  | e :: es => references e ++ referencesAll es

def referencesBranches : List (Parser.Expression × Parser.Expression) → List Parser.ColumnRef
  | [] => []
  | (cond, value) :: branches =>
    references cond ++ references value ++ referencesBranches branches

end

mutual

/-- A function that leaves the references of an expression alone leaves it alone. -/
theorem mapColumns_eq_self {f : Parser.ColumnRef → Parser.ColumnRef} : ∀ e : Parser.Expression,
    (∀ ref ∈ references e, f ref = ref) → mapColumns f e = e
  | .literal _, _ => rfl
  | .subquery _ _, _ => rfl
  | .column col, h => congrArg _ (h col (List.mem_singleton_self _))
  | .binary _ l r, h | .logical _ l r, h | .arithmetic _ l r, h | .like l r _, h => by
    simp only [references, List.forall_mem_append] at h
    simp only [mapColumns, mapColumns_eq_self l h.1, mapColumns_eq_self r h.2]
  | .not operand, h | .isNull operand _, h | .cast operand _, h => by
    simp only [references] at h
    simp only [mapColumns, mapColumns_eq_self operand h]
  | .inList v items _, h => by
    simp only [references, List.forall_mem_append] at h
    simp only [mapColumns, mapColumns_eq_self v h.1, mapAll_eq_self items h.2]
  | .inSubquery v _ _, h => by
    simp only [references] at h
    simp only [mapColumns, mapColumns_eq_self v h]
  | .between v lo hi _, h => by
    simp only [references, List.forall_mem_append] at h
    simp only [mapColumns, mapColumns_eq_self v h.1.1, mapColumns_eq_self lo h.1.2,
      mapColumns_eq_self hi h.2]
  | .call _ args, h => by
    simp only [references] at h
    simp only [mapColumns, mapAll_eq_self args h]
  | .case branches none, h => by
    simp only [references] at h
    simp only [mapColumns, mapBranches_eq_self branches h]
  | .case branches (some e), h => by
    simp only [references, List.forall_mem_append] at h
    simp only [mapColumns, mapBranches_eq_self branches h.1, mapColumns_eq_self e h.2]
  | .aggregate _ _ _ none, _ => rfl
  | .aggregate _ _ _ (some col), h => by
    simp only [mapColumns, Option.map_some, h col (List.mem_singleton_self _)]

theorem mapAll_eq_self {f : Parser.ColumnRef → Parser.ColumnRef} :
    ∀ es : List Parser.Expression, (∀ ref ∈ referencesAll es, f ref = ref) → mapAll f es = es
  | [], _ => rfl
  | e :: es, h => by
    simp only [referencesAll, List.forall_mem_append] at h
    simp only [mapAll, mapColumns_eq_self e h.1, mapAll_eq_self es h.2]

theorem mapBranches_eq_self {f : Parser.ColumnRef → Parser.ColumnRef} :
    ∀ branches : List (Parser.Expression × Parser.Expression),
      (∀ ref ∈ referencesBranches branches, f ref = ref) → mapBranches f branches = branches
  | [], _ => rfl
  | (cond, value) :: branches, h => by
    simp only [referencesBranches, List.forall_mem_append] at h
    simp only [mapBranches, mapColumns_eq_self cond h.1.1, mapColumns_eq_self value h.1.2,
      mapBranches_eq_self branches h.2]

end

end Relite.Vm

namespace Relite.Semantic
open Vm

namespace TableSchema

/-! ## The names of positions -/

/-- The name of the column at a position. -/
def columnName (ts : TableSchema) (i : Int) : Option String :=
  if 0 ≤ i then ts.columns[i.toNat]?.map ColumnSchema.name else none

/-- The schema without the column at a position, as `Catalog.dropColumn` makes it. -/
def discard (ts : TableSchema) (idx : Nat) : TableSchema :=
  { ts with
    columns := ts.columns.eraseIdx idx
    foreignKeys := Catalog.dropForeignKeys idx ts.foreignKeys }

/-- The positions that move: that of the column that goes and those of the columns after it. -/
def Moves (ts : TableSchema) (idx : Nat) (i : Int) : Prop := idx ≤ i ∧ i < ts.columns.length

instance (ts : TableSchema) (idx : Nat) (i : Int) : Decidable (ts.Moves idx i) :=
  inferInstanceAs (Decidable (_ ∧ _))

variable {ts : TableSchema} {idx : Nat} {i : Int}

theorem columnName_ofNat (ts : TableSchema) (i : Nat) :
    ts.columnName i = ts.columns[i]?.map ColumnSchema.name := by
  rw [columnName, if_pos (Int.natCast_nonneg i), Int.toNat_natCast]

theorem columnName_eq_none (h : ¬(0 ≤ i ∧ i < ts.columns.length)) : ts.columnName i = none := by
  rw [columnName]
  split
  · rw [List.getElem?_eq_none (by omega), Option.map_none]
  · rfl

theorem columnIndex_of_columnName (hnodup : (ts.columns.map ColumnSchema.name).Nodup)
    {name : String} (h : ts.columnName i = some name) : ts.columnIndex name = i := by
  rw [columnName] at h
  split at h
  case isFalse => cases h
  case isTrue hi =>
    obtain ⟨col, hget, hname⟩ := Option.map_eq_some_iff.mp h
    obtain ⟨hlt, hcol⟩ := List.getElem?_eq_some_iff.mp hget
    have hfind : ts.columns.findIdx? (fun c => c.name = name) = some i.toNat := by
      refine List.findIdx?_eq_some_iff_getElem.mpr ⟨hlt, by simp [hcol, hname], fun j hj => ?_⟩
      have hne := (List.nodup_iff_getElem?_ne_getElem?.mp hnodup) j i.toNat hj (by simpa using hlt)
      rw [List.getElem?_map, List.getElem?_map, hget, Option.map_some, hname,
        List.getElem?_eq_getElem (hj.trans hlt), Option.map_some] at hne
      simpa using hne
    rw [columnIndex, hfind]
    exact Int.toNat_of_nonneg hi

theorem columnName_columnIndex {name : String} (h : name ∈ ts.columns.map ColumnSchema.name) :
    ∃ i : Nat, ts.columnIndex name = i ∧ i < ts.columns.length ∧
      ts.columnName i = some name := by
  obtain ⟨col, hcol, hname⟩ := List.mem_map.mp h
  cases hfind : ts.columns.findIdx? fun c => c.name = name with
  | none => simpa [hname] using List.findIdx?_eq_none_iff.mp hfind col hcol
  | some i =>
    obtain ⟨hlt, hat, -⟩ := List.findIdx?_eq_some_iff_getElem.mp hfind
    refine ⟨i, by rw [columnIndex, hfind], hlt, ?_⟩
    rw [columnName_ofNat, List.getElem?_eq_getElem hlt, Option.map_some]
    simpa using hat

/-- A position before the column keeps its name. -/
theorem columnName_discard_of_lt (h : i < idx) :
    (ts.discard idx).columnName i = ts.columnName i := by
  rw [columnName, columnName]
  split
  · rw [discard, List.getElem?_eraseIdx_of_lt (by omega)]
  · rfl

/-- A position from the column on gets the name of the next one. -/
theorem columnName_discard_of_ge (h : (idx : Int) ≤ i) :
    (ts.discard idx).columnName i = ts.columnName (i + 1) := by
  rw [columnName, columnName, if_pos (by omega), if_pos (by omega), discard,
    List.getElem?_eraseIdx_of_ge (by omega), show (i + 1).toNat = i.toNat + 1 by omega]

theorem columnName_inj (hnodup : (ts.columns.map ColumnSchema.name).Nodup) {j : Int}
    {name : String} (hi : ts.columnName i = some name) (hj : ts.columnName j = some name) :
    i = j :=
  (columnIndex_of_columnName hnodup hi).symm.trans (columnIndex_of_columnName hnodup hj)

theorem exists_columnName (h0 : 0 ≤ i) (h : i < ts.columns.length) :
    ∃ name, ts.columnName i = some name := by
  rw [columnName, if_pos h0, List.getElem?_eq_getElem (by omega)]
  exact ⟨_, rfl⟩

/-- A position denotes the same column as before if and only if it does not move. -/
theorem columnName_discard_iff (hnodup : (ts.columns.map ColumnSchema.name).Nodup) :
    (ts.discard idx).columnName i = ts.columnName i ↔ ¬ts.Moves idx i := by
  constructor
  · rintro h ⟨hge, hlt⟩
    rw [columnName_discard_of_ge hge] at h
    obtain ⟨name, hname⟩ : ∃ name, ts.columnName i = some name :=
      exists_columnName (by omega) hlt
    have := columnName_inj hnodup (h.trans hname) hname
    omega
  · intro h
    by_cases hi : i < idx
    · exact columnName_discard_of_lt hi
    · have hout : ¬i < ts.columns.length := fun hlt => h ⟨by omega, hlt⟩
      rw [columnName_discard_of_ge (by omega), columnName_eq_none (by omega),
        columnName_eq_none (by omega)]

theorem columnName_eq_some_iff (hnodup : (ts.columns.map ColumnSchema.name).Nodup)
    {column : String} (h : column ∈ ts.columns.map ColumnSchema.name) :
    ts.columnName i = some column ↔ i = ts.columnIndex column := by
  constructor
  · exact fun hi => (columnIndex_of_columnName hnodup hi).symm
  · rintro rfl
    obtain ⟨j, hj, -, hname⟩ := columnName_columnIndex h
    rwa [hj]

theorem mem_names_discard (hnodup : (ts.columns.map ColumnSchema.name).Nodup)
    {column name : String} (h : column ∈ ts.columns.map ColumnSchema.name) :
    name ∈ (ts.discard (ts.columnIndex column).toNat).columns.map ColumnSchema.name ↔
      name ∈ ts.columns.map ColumnSchema.name ∧ name ≠ column := by
  obtain ⟨j, hj, hlt, hname⟩ := columnName_columnIndex h
  rw [columnName_ofNat, List.getElem?_eq_getElem hlt, Option.map_some, Option.some_inj] at hname
  have herase : (ts.columns.map ColumnSchema.name).eraseIdx j =
      (ts.columns.map ColumnSchema.name).erase column := by
    refine (List.erase_eq_eraseIdx_of_idxOf (i := j) ?_).symm
    rw [← hname, ← List.getElem_map ColumnSchema.name (h := by simpa using hlt)]
    exact List.Nodup.idxOf_getElem hnodup _ _
  rw [discard, hj, Int.toNat_natCast, ← List.eraseIdx_map, herase, hnodup.mem_erase_iff, and_comm]

/-! ## Constraints by name -/

/-- A foreign key with the name of its column. -/
def foreignKeyName (ts : TableSchema) (fk : ForeignKey) :
    Option String × String × String × Action × Action :=
  (ts.columnName fk.columnIndex, fk.refTable, fk.refColumn, fk.onDelete, fk.onUpdate)

/-- Where the column at a position of the old schema stands in the new one. -/
def moved (old new : TableSchema) (i : Int) : Int :=
  ((old.columnName i).map new.columnIndex).getD i

/-- The expression with its references moved to where their columns stand. -/
def rebind (old new : TableSchema) : Parser.Expression → Parser.Expression :=
  mapColumns fun ref =>
    if ref.outerRef then ref else { ref with columnIndex := moved old new ref.columnIndex }

/-- The new schema with the constraints of the old one, without the column, each moved to
where its columns stand. -/
def withConstraintsOf (checkExpr : String → Option Parser.Expression) (column : String)
    (old new : TableSchema) : TableSchema :=
  { new with
    columns := new.columns.map fun col =>
      { col with checkExpr := (checkExpr col.name).map fun e => evalExpression (rebind old new e) }
    primaryKey :=
      (old.primaryKey.filter fun i => old.columnName i ≠ some column).map (moved old new)
    foreignKeys :=
      (old.foreignKeys.filter fun fk => old.columnName fk.columnIndex ≠ some column).map fun fk =>
        { fk with columnIndex := moved old new fk.columnIndex } }

end TableSchema

/-- The table that lost the column has the constraints of the others, on the columns of the
same names; `checkExpr` gives the CHECK of a column as parsed. -/
structure KeepsConstraints (checkExpr : String → Option Parser.Expression) (column : String)
    (catalog catalog' : Catalog) (old new : TableSchema) : Prop where
  primaryKey : new.primaryKey.map new.columnName =
    (old.primaryKey.map old.columnName).filter fun name => name ≠ some column
  foreignKeys : new.foreignKeys.map new.foreignKeyName =
    (old.foreignKeys.map old.foreignKeyName).filter fun fk => fk.1 ≠ some column
  referenced : ∀ fk ∈ new.foreignKeys, ∀ parent, catalog.getTable fk.refTable = some parent →
    fk.refColumn ∈ parent.columns.map ColumnSchema.name →
    ∃ parent', catalog'.getTable fk.refTable = some parent' ∧
      fk.refColumn ∈ parent'.columns.map ColumnSchema.name
  checks : ∀ col ∈ new.columns, ∀ e, checkExpr col.name = some e → ∀ ref ∈ references e,
    ref.outerRef = false → new.columnName ref.columnIndex = old.columnName ref.columnIndex
  indexes : ∀ idx ∈ catalog'.indexes, idx.table = new.name → ∀ name ∈ idx.columns,
    name ∈ old.columns.map ColumnSchema.name → name ∈ new.columns.map ColumnSchema.name
  enforced : ∀ row excludeRid,
    let meant := TableSchema.withConstraintsOf checkExpr column old new
    Exec.enforceConstraints new new.tableId row excludeRid =
        Exec.enforceConstraints meant new.tableId row excludeRid ∧
      Exec.checkForeignKeys new row = Exec.checkForeignKeys meant row

/-- No key and no CHECK that stays holds a position that moves, and no index and no foreign
key names the column. -/
structure StaysInPlace (checkExpr : String → Option Parser.Expression) (column : String)
    (catalog : Catalog) (old : TableSchema) : Prop where
  primaryKey : ∀ i ∈ old.primaryKey, ¬old.Moves (old.columnIndex column).toNat i
  referenced : ∀ fk ∈ old.foreignKeys, fk.refTable = old.name → fk.refColumn = column →
    fk.columnIndex = old.columnIndex column
  checks : ∀ col ∈ old.columns, col.name ≠ column → ∀ e, checkExpr col.name = some e →
    ∀ ref ∈ references e, ref.outerRef = false →
      ¬old.Moves (old.columnIndex column).toNat ref.columnIndex
  indexes : ∀ idx ∈ catalog.indexes, idx.table = old.name → column ∉ idx.columns

section

variable {checkExpr : String → Option Parser.Expression} {column : String} {catalog : Catalog}
variable {old : TableSchema}

theorem map_columnName_discard_iff (hnodup : (old.columns.map ColumnSchema.name).Nodup)
    (hcol : column ∈ old.columns.map ColumnSchema.name) :
    old.primaryKey.map (old.discard (old.columnIndex column).toNat).columnName =
        (old.primaryKey.map old.columnName).filter (fun name => name ≠ some column) ↔
      ∀ i ∈ old.primaryKey, ¬old.Moves (old.columnIndex column).toNat i := by
  constructor
  · intro h i hi
    have hlen := congrArg List.length h
    rw [List.length_map, ← List.length_map old.columnName] at hlen
    have hall := List.filter_eq_self.mpr (List.length_filter_eq_length_iff.mp hlen.symm)
    rw [hall, List.map_inj_left] at h
    exact (TableSchema.columnName_discard_iff hnodup).mp (h i hi)
  · intro h
    have hkeep : (old.primaryKey.map old.columnName).filter (fun name => name ≠ some column) =
        old.primaryKey.map old.columnName := by
      refine List.filter_eq_self.mpr fun name hname => ?_
      obtain ⟨i, hi, rfl⟩ := List.mem_map.mp hname
      have hne : old.columnName i ≠ some column := by
        intro heq
        obtain ⟨j, hj, hlt, -⟩ := TableSchema.columnName_columnIndex hcol
        rw [TableSchema.columnName_eq_some_iff hnodup hcol, hj] at heq
        exact h i hi (by rw [hj]; exact ⟨by omega, by omega⟩)
      simpa using hne
    rw [hkeep]
    exact List.map_congr_left fun i hi => (TableSchema.columnName_discard_iff hnodup).mpr (h i hi)

/-- The key of a column goes with the column. -/
theorem kept_foreignKeys (hnodup : (old.columns.map ColumnSchema.name).Nodup)
    (hcol : column ∈ old.columns.map ColumnSchema.name) {idx : Nat}
    (hidx : old.columnIndex column = idx) :
    old.foreignKeys.filter (fun fk => old.columnName fk.columnIndex ≠ some column) =
      old.foreignKeys.filter fun fk => fk.columnIndex ≠ (idx : Int) := by
  refine List.filter_congr fun fk _ => decide_eq_decide.mpr ?_
  rw [← hidx]
  exact (TableSchema.columnName_eq_some_iff hnodup hcol).not

theorem foreignKeys_discard (hnodup : (old.columns.map ColumnSchema.name).Nodup)
    (hcol : column ∈ old.columns.map ColumnSchema.name) {idx : Nat}
    (hidx : old.columnIndex column = idx) :
    (old.discard idx).foreignKeys.map (old.discard idx).foreignKeyName =
      (old.foreignKeys.map old.foreignKeyName).filter fun fk => fk.1 ≠ some column := by
  rw [List.filter_map]
  change _ = (old.foreignKeys.filter fun fk => old.columnName fk.columnIndex ≠ some column).map _
  rw [kept_foreignKeys hnodup hcol hidx]
  simp only [TableSchema.discard, Catalog.dropForeignKeys, List.map_map]
  refine List.map_congr_left fun fk hfk => ?_
  have hne : fk.columnIndex ≠ (idx : Int) := by simpa using (List.mem_filter.mp hfk).2
  simp only [Function.comp_apply, TableSchema.foreignKeyName]
  split
  · have hname : (old.discard idx).columnName (fk.columnIndex - 1) =
        old.columnName (fk.columnIndex - 1 + 1) := TableSchema.columnName_discard_of_ge (by omega)
    rw [Int.sub_add_cancel] at hname
    exact congrArg (·, _) hname
  · exact congrArg (·, _) (TableSchema.columnName_discard_of_lt (by omega))

theorem nodup_discard (hnodup : (old.columns.map ColumnSchema.name).Nodup) (idx : Nat) :
    ((old.discard idx).columns.map ColumnSchema.name).Nodup :=
  hnodup.sublist ((List.eraseIdx_sublist _ _).map _)

theorem moved_of_stays (hnodup : (old.columns.map ColumnSchema.name).Nodup) {idx : Nat} {i : Int}
    (h : ¬old.Moves idx i) : TableSchema.moved old (old.discard idx) i = i := by
  rw [TableSchema.moved]
  cases hname : old.columnName i with
  | none => rfl
  | some name =>
    rw [← (TableSchema.columnName_discard_iff hnodup).mpr h] at hname
    exact TableSchema.columnIndex_of_columnName (nodup_discard hnodup idx) hname

theorem moved_of_after (hnodup : (old.columns.map ColumnSchema.name).Nodup) {idx : Nat} {i : Int}
    (hgt : idx < i) (hlt : i < old.columns.length) :
    TableSchema.moved old (old.discard idx) i = i - 1 := by
  obtain ⟨name, hname⟩ : ∃ name, old.columnName i = some name :=
    TableSchema.exists_columnName (by omega) hlt
  rw [TableSchema.moved, hname]
  refine TableSchema.columnIndex_of_columnName (nodup_discard hnodup idx) ?_
  rw [TableSchema.columnName_discard_of_ge (by omega), Int.sub_add_cancel, hname]

section

variable {idx : Nat} (hnodup : (old.columns.map ColumnSchema.name).Nodup)
include hnodup

theorem checks_rebound (hcol : column ∈ old.columns.map ColumnSchema.name)
    (hidx : old.columnIndex column = idx)
    (hcheck : ∀ col ∈ old.columns, col.checkExpr = (checkExpr col.name).map evalExpression)
    (h : StaysInPlace checkExpr column catalog old) :
    ((old.discard idx).columns.map fun col =>
      { col with
        checkExpr := (checkExpr col.name).map fun e =>
          evalExpression (TableSchema.rebind old (old.discard idx) e) }) =
      (old.discard idx).columns := by
  have hrefs := h.checks
  rw [hidx, Int.toNat_natCast] at hrefs
  refine (List.map_congr_left fun col hmem => ?_).trans (List.map_id _)
  have hold : col ∈ old.columns := List.mem_of_mem_eraseIdx hmem
  have hother : col.name ≠ column := by
    rw [← Int.toNat_natCast idx, ← hidx] at hmem
    exact ((TableSchema.mem_names_discard hnodup hcol).mp (List.mem_map_of_mem hmem)).2
  have hexpr : (checkExpr col.name).map (fun e =>
      evalExpression (TableSchema.rebind old (old.discard idx) e)) = col.checkExpr := by
    rw [hcheck col hold]
    refine Option.map_congr fun e he => ?_
    refine congrArg evalExpression (mapColumns_eq_self e fun ref href => ?_)
    split
    · rfl
    · rename_i houter
      rw [moved_of_stays hnodup (hrefs col hold hother e he ref href (by simpa using houter))]
  rw [hexpr]
  rfl

theorem primaryKey_moved (hcol : column ∈ old.columns.map ColumnSchema.name)
    (hidx : old.columnIndex column = idx) (hstays : ∀ i ∈ old.primaryKey, ¬old.Moves idx i) :
    (old.primaryKey.filter fun i => old.columnName i ≠ some column).map
      (TableSchema.moved old (old.discard idx)) = old.primaryKey := by
  obtain ⟨j, hj, hlt, -⟩ := TableSchema.columnName_columnIndex hcol
  have hall : old.primaryKey.filter (fun i => old.columnName i ≠ some column) =
      old.primaryKey := by
    refine List.filter_eq_self.mpr fun i hi => ?_
    have hne : old.columnName i ≠ some column := by
      rw [ne_eq, TableSchema.columnName_eq_some_iff hnodup hcol]
      exact fun heq => hstays i hi ⟨by omega, by omega⟩
    simpa using hne
  rw [hall]
  exact (List.map_congr_left fun i hi => moved_of_stays hnodup (hstays i hi)).trans (List.map_id _)

theorem foreignKeys_moved (hcol : column ∈ old.columns.map ColumnSchema.name)
    (hidx : old.columnIndex column = idx)
    (hfks : ∀ fk ∈ old.foreignKeys, fk.columnIndex < old.columns.length) :
    ((old.foreignKeys.filter fun fk => old.columnName fk.columnIndex ≠ some column).map fun fk =>
        { fk with columnIndex := TableSchema.moved old (old.discard idx) fk.columnIndex }) =
      (old.discard idx).foreignKeys := by
  rw [kept_foreignKeys hnodup hcol hidx]
  refine List.map_congr_left fun fk hfk => ?_
  obtain ⟨hmem, hne⟩ := List.mem_filter.mp hfk
  have hne : fk.columnIndex ≠ (idx : Int) := by simpa using hne
  split
  · rw [moved_of_after hnodup ‹_› (hfks fk hmem)]
  · rw [moved_of_stays hnodup fun hmoves => ?_]
    have := hmoves.1
    omega

/-- The schema that is left is the one that was meant. -/
theorem withConstraintsOf_eq (hcol : column ∈ old.columns.map ColumnSchema.name)
    (hidx : old.columnIndex column = idx)
    (hfks : ∀ fk ∈ old.foreignKeys, fk.columnIndex < old.columns.length)
    (hcheck : ∀ col ∈ old.columns, col.checkExpr = (checkExpr col.name).map evalExpression)
    (h : StaysInPlace checkExpr column catalog old) :
    TableSchema.withConstraintsOf checkExpr column old (old.discard idx) = old.discard idx := by
  have hstays := h.primaryKey
  rw [hidx, Int.toNat_natCast] at hstays
  rw [TableSchema.withConstraintsOf, checks_rebound hnodup hcol hidx hcheck h,
    foreignKeys_moved hnodup hcol hidx hfks, primaryKey_moved hnodup hcol hidx hstays]
  rfl

end

/-! ## The catalog without the column -/

section

variable {table : String} {idx : Nat}

theorem getTable_name {name : String} (h : catalog.getTable name = some old) : old.name = name := by
  simpa using List.find?_some h

theorem getTable_dropColumn (hidx : old.columnIndex column = idx)
    (hold : catalog.getTable table = some old) :
    (catalog.dropColumn table column).getTable table = some (old.discard idx) := by
  rw [Catalog.dropColumn, Catalog.getTable_onTable, hold, Option.map_some,
    if_pos (getTable_name hold)]
  · simp only [hidx, if_neg (show ¬(idx : Int) < 0 by omega), Int.toNat_natCast]
    rfl
  · intro ts
    dsimp only
    split <;> rfl

theorem getTable_dropColumn_of_ne {name : String} (hne : name ≠ table) :
    (catalog.dropColumn table column).getTable name = catalog.getTable name := by
  rw [Catalog.dropColumn, Catalog.getTable_onTable]
  · cases h : catalog.getTable name with
    | none => rfl
    | some ts => rw [Option.map_some, getTable_name h, if_neg hne]
  · intro ts
    dsimp only
    split <;> rfl

theorem getTableById_dropColumn (hidx : old.columnIndex column = idx)
    (hold : catalog.getTable table = some old) :
    (catalog.dropColumn table column).getTableById old.tableId = some (old.discard idx) := by
  rw [Catalog.dropColumn, Catalog.getTableById_onTable,
    Catalog.getTableById_of_mem (List.mem_of_find?_eq_some hold), Option.map_some,
    if_pos (getTable_name hold)]
  simp only [hidx, if_neg (show ¬(idx : Int) < 0 by omega), Int.toNat_natCast]
  rfl

/-- A foreign key that stays refers to the column only if the key that goes with it does not. -/
theorem referenced_iff (hnodup : (old.columns.map ColumnSchema.name).Nodup)
    (hcol : column ∈ old.columns.map ColumnSchema.name) (hidx : old.columnIndex column = idx)
    (hold : catalog.getTable table = some old) :
    (∀ fk ∈ (old.discard idx).foreignKeys, ∀ parent,
      catalog.getTable fk.refTable = some parent →
      fk.refColumn ∈ parent.columns.map ColumnSchema.name →
      ∃ parent', (catalog.dropColumn table column).getTable fk.refTable = some parent' ∧
        fk.refColumn ∈ parent'.columns.map ColumnSchema.name) ↔
      ∀ fk ∈ old.foreignKeys, fk.refTable = old.name → fk.refColumn = column →
        fk.columnIndex = old.columnIndex column := by
  have hname := getTable_name hold
  have hmem : ∀ name, name ∈ (old.discard idx).columns.map ColumnSchema.name ↔
      name ∈ old.columns.map ColumnSchema.name ∧ name ≠ column := fun name => by
    rw [← TableSchema.mem_names_discard hnodup hcol, hidx, Int.toNat_natCast]
  constructor
  · intro h fk hfk htable hrefers
    by_contra hne
    have hkept : ∃ fk' ∈ (old.discard idx).foreignKeys,
        fk'.refTable = fk.refTable ∧ fk'.refColumn = fk.refColumn := by
      have hin : fk ∈ old.foreignKeys.filter fun fk => fk.columnIndex ≠ (idx : Int) := by
        rw [hidx] at hne
        simpa [hne] using hfk
      refine ⟨_, List.mem_map_of_mem hin, ?_⟩
      split <;> exact ⟨rfl, rfl⟩
    obtain ⟨fk', hfk', htable', hcolumn'⟩ := hkept
    rw [htable, hname] at htable'
    rw [hrefers] at hcolumn'
    obtain ⟨parent', hparent', hin⟩ := h fk' hfk' old (by rw [htable', hold])
      (by rw [hcolumn']; exact hcol)
    rw [htable', getTable_dropColumn hidx hold] at hparent'
    cases hparent'
    exact ((hmem _).mp hin).2 hcolumn'
  · intro h fk' hfk' parent hparent hin
    by_cases htable : fk'.refTable = table
    · rw [htable, hold] at hparent
      cases hparent
      refine ⟨_, by rw [htable, getTable_dropColumn hidx hold], (hmem _).mpr ⟨hin, ?_⟩⟩
      intro hrefers
      obtain ⟨fk, hfk, rfl⟩ := List.mem_map.mp hfk'
      obtain ⟨hfk, hne⟩ := List.mem_filter.mp hfk
      have hne : fk.columnIndex ≠ (idx : Int) := by simpa using hne
      refine hne ((h fk hfk ?_ ?_).trans hidx)
      · rw [hname, ← htable]
        split <;> rfl
      · rw [← hrefers]
        split <;> rfl
    · exact ⟨parent, by rw [getTable_dropColumn_of_ne htable, hparent], hin⟩

/-- The constraints are kept if and only if nothing that stays depends on what moves. -/
theorem keepsConstraints_iff (hnodup : (old.columns.map ColumnSchema.name).Nodup)
    (hcol : column ∈ old.columns.map ColumnSchema.name)
    (hfks : ∀ fk ∈ old.foreignKeys, fk.columnIndex < old.columns.length)
    (hcheck : ∀ col ∈ old.columns, col.checkExpr = (checkExpr col.name).map evalExpression)
    (hold : catalog.getTable table = some old) (hidx : old.columnIndex column = idx) :
    KeepsConstraints checkExpr column catalog (catalog.dropColumn table column) old
        (old.discard idx) ↔ StaysInPlace checkExpr column catalog old := by
  have htoNat : (old.columnIndex column).toNat = idx := by rw [hidx, Int.toNat_natCast]
  have hmem : ∀ name, name ∈ (old.discard idx).columns.map ColumnSchema.name ↔
      name ∈ old.columns.map ColumnSchema.name ∧ name ≠ column := fun name => by
    rw [← TableSchema.mem_names_discard hnodup hcol, htoNat]
  have hkey := map_columnName_discard_iff hnodup hcol
  rw [htoNat] at hkey
  have hreferenced := referenced_iff hnodup hcol hidx hold
  constructor
  · intro h
    refine ⟨by rw [htoNat]; exact hkey.mp h.primaryKey, hreferenced.mp h.referenced, ?_, ?_⟩
    · intro col hin hother e he ref href houter
      rw [htoNat]
      obtain ⟨col', hin', hname'⟩ := List.mem_map.mp
        ((hmem col.name).mpr ⟨List.mem_map_of_mem hin, hother⟩)
      have hstays := h.checks col' hin' e (by rw [hname']; exact he) ref href houter
      exact (TableSchema.columnName_discard_iff hnodup).mp hstays
    · intro i hi htable hnames
      exact ((hmem column).mp (h.indexes i hi htable column hnames hcol)).2 rfl
  · intro h
    refine ⟨hkey.mpr (by simpa only [htoNat] using h.primaryKey),
      foreignKeys_discard hnodup hcol hidx, hreferenced.mpr h.referenced, ?_, ?_, ?_⟩
    · intro col hin e he ref href houter
      have hother := ((hmem col.name).mp (List.mem_map_of_mem hin)).2
      have hstays := h.checks col (List.mem_of_mem_eraseIdx hin) hother e he ref href houter
      rw [htoNat] at hstays
      exact (TableSchema.columnName_discard_iff hnodup).mpr hstays
    · intro i hi htable name hname hin
      refine (hmem name).mpr ⟨hin, ?_⟩
      rintro rfl
      exact h.indexes i hi htable hname
    · intro row excludeRid meant
      rw [show meant = old.discard idx from
        withConstraintsOf_eq hnodup hcol hidx hfks hcheck h]
      exact ⟨rfl, rfl⟩

end

end

end Relite.Semantic

namespace Relite.Vm
open Lib Semantic

namespace Exec

/-- Only its last call gives a RESHAPE another catalog. -/
theorem catalog_visitAlter {node : AlterStatement} {rs : ResultSet} {db db' : Db}
    (h : (visitAlter node).run db = (.ok rs, db')) :
    ∃ n, db'.catalog = reshapeCatalog db.catalog node.table n node.kind := by
  unfold visitAlter at h
  simp only [Prog.bind_eq, Prog.pure_eq] at h
  obtain ⟨_, db₁, hget, h⟩ := run_bind_eq_ok.mp h
  cases hget
  obtain ⟨rows, db₁, hrows, h⟩ := run_bind_eq_ok.mp h
  obtain ⟨_, db₂, hindexes, h⟩ := run_bind_eq_ok.mp h
  obtain ⟨_, db₃, hdrop, h⟩ := run_bind_eq_ok.mp h
  obtain ⟨_, db₄, hregister, h⟩ := run_bind_eq_ok.mp h
  obtain ⟨_, db₅, hinserts, h⟩ := run_bind_eq_ok.mp h
  obtain ⟨_, db₆, hset, h⟩ := run_bind_eq_ok.mp h
  cases hset
  cases h
  exact ⟨_, rfl⟩

/-- RESHAPE DISCARD COLUMN keeps the constraints of the other columns if and only if no key
and no CHECK of them holds a position from the column on, and no index and no foreign key
names it. -/
theorem visitAlter_keepsConstraints_iff {db db' : Db} {table column : String}
    {old : TableSchema} {checkExpr : String → Option Parser.Expression} {rs : ResultSet}
    (hold : db.catalog.getTable table = some old)
    (hnodup : (old.columns.map ColumnSchema.name).Nodup)
    (hcol : column ∈ old.columns.map ColumnSchema.name)
    (hfks : ∀ fk ∈ old.foreignKeys, fk.columnIndex < old.columns.length)
    (hcheck : ∀ col ∈ old.columns, col.checkExpr = (checkExpr col.name).map evalExpression)
    (h : (visitAlter { table, tableId := old.tableId, kind := .DropColumn column }).run db =
      (.ok rs, db')) :
    (∃ new, db'.catalog.getTableById old.tableId = some new ∧
        KeepsConstraints checkExpr column db.catalog db'.catalog old new) ↔
      StaysInPlace checkExpr column db.catalog old := by
  obtain ⟨n, hcatalog⟩ := catalog_visitAlter h
  obtain ⟨idx, hidx, -, -⟩ := TableSchema.columnName_columnIndex hcol
  have hnew := getTableById_dropColumn hidx hold
  have hiff := keepsConstraints_iff hnodup hcol hfks hcheck hold hidx
  rw [reshapeCatalog] at hcatalog
  rw [hcatalog, hnew, ← hiff]
  constructor
  · rintro ⟨new, hsome, hkeeps⟩
    cases hsome
    exact hkeeps
  · exact fun hkeeps => ⟨_, rfl, hkeeps⟩

/-- A relation `t (a INT, b INT, c INT, PRIMARY KEY (b, c))`. -/
def keyAtEnd : TableSchema where
  tableId := 1
  name := "t"
  columns := [{ name := "a", type := .Int }, { name := "b", type := .Int, notNull := true },
    { name := "c", type := .Int, notNull := true }]
  primaryKey := [1, 2]

def keyAtEndDb : Db :=
  { Db.init { tables := [keyAtEnd], nodup := by decide } [] with
    tables := TableManager.empty.registerTable 1 }

theorem visitAlter_keepsConstraints_iff_keyAtEnd :
    (∃ new, (((visitAlter { table := "t", tableId := 1, kind := .DropColumn "a" }).run
          keyAtEndDb).2.catalog.getTableById 1) = some new ∧
        KeepsConstraints (fun _ => none) "a" keyAtEndDb.catalog
          ((visitAlter { table := "t", tableId := 1, kind := .DropColumn "a" }).run
            keyAtEndDb).2.catalog keyAtEnd new) ↔
      StaysInPlace (fun _ => none) "a" keyAtEndDb.catalog keyAtEnd :=
  @visitAlter_keepsConstraints_iff keyAtEndDb _ "t" "a" keyAtEnd (fun _ => none) _ rfl (by decide)
    (by decide) (fun _ h => by cases h) (by simp [keyAtEnd]) rfl

/-- Without its first column, the key of that relation is on `c` and on no column. -/
theorem visitAlter_keyAtEnd_moved :
    ¬∃ new, (((visitAlter { table := "t", tableId := 1, kind := .DropColumn "a" }).run
          keyAtEndDb).2.catalog.getTableById 1) = some new ∧
        KeepsConstraints (fun _ => none) "a" keyAtEndDb.catalog
          ((visitAlter { table := "t", tableId := 1, kind := .DropColumn "a" }).run
            keyAtEndDb).2.catalog keyAtEnd new := by
  rintro ⟨new, hnew, hkeeps⟩
  cases hnew
  have hkey := hkeeps.primaryKey
  revert hkey
  decide

end Exec

end Relite.Vm
