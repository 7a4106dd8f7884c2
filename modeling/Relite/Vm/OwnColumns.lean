import Relite.Vm.IndexReads

/-!
# Clauses on the columns of one table

Where the comparisons of a clause are of columns of the scanned table itself, with literals
of the types of these columns, and no column is a FLOAT, every access path reaches the rows
that the clause accepts: the key of such a row is what the path asks for.
-/
namespace Relite.Vm
open Lib Relite.Parser
open Semantic hiding Expression

/-- A column of the table itself, not a FLOAT, and a literal of its type. -/
structure OwnColumn (schema : Schema) (col : ColumnRef) (v : Value) : Prop where
  own : col.outerRef = false
  nonneg : 0 ≤ col.columnIndex
  typed : ∃ d ∈ schema[col.columnIndex.toNat]?, d ≠ .Float ∧ Tuple.HasType d v

/-- The comparisons that an access path may be built from are of such columns. -/
def OwnColumns (schema : Schema) : Expression → Prop
  | .logical .And l r => OwnColumns schema l ∧ OwnColumns schema r
  | .binary op l r => ∀ c ∈ columnComparison op l r, OwnColumn schema c.1 c.2.2
  | .between (.column col) (.literal lo) (.literal hi) false =>
    OwnColumn schema col lo ∧ OwnColumn schema col hi
  | _ => True

/-! ## What an accepted row says of its columns -/

section

variable {schema : Schema} {row : Tuple} {e l r : Expression}

theorem accepts_and (h : predicateTrue (evalExpression (.logical .And l r)) row) :
    predicateTrue (evalExpression l) row ∧ predicateTrue (evalExpression r) row := by
  have htrue : ∀ v : Value, v.asBool = some true → v = .bool true := fun v hv => by
    cases v <;> cases hv
    rfl
  simp only [predicateTrue, evalExpression, evalLogical, beq_iff_eq] at h ⊢
  split at h
  · cases h
  split at h
  · rename_i hnot hsome
    rw [not_or] at hnot
    obtain ⟨a, ha⟩ := Option.isSome_iff_exists.mp hsome.1
    obtain ⟨b, hb⟩ := Option.isSome_iff_exists.mp hsome.2
    rw [ha, hb] at hnot
    refine ⟨htrue _ ?_, htrue _ ?_⟩
    · rw [ha]
      cases a <;> simp_all
    · rw [hb]
      cases b <;> simp_all
  · cases h

/-- The value in a row at a column number. -/
def columnOf (row : Tuple) (c : Int) : Value := row.getD c.toNat .null

theorem OwnColumn.evalColumn {col : ColumnRef} {v : Value} (h : OwnColumn schema col v) :
    evalColumn col row = columnOf row col.columnIndex := by
  simp [Vm.evalColumn, h.own, h.nonneg, columnOf]

theorem OwnColumn.hasType {col : ColumnRef} {v : Value} (h : OwnColumn schema col v)
    (hrow : Tuple.Typed schema row) :
    ∃ d, d ≠ .Float ∧ Tuple.HasType d v ∧ Tuple.HasType d (columnOf row col.columnIndex) ∧
      schema[col.columnIndex.toNat]? = some d := by
  obtain ⟨d, hd, hfloat, hv⟩ := h.typed
  refine ⟨d, hfloat, hv, ?_, hd⟩
  rw [Option.mem_def, List.getElem?_eq_some_iff] at hd
  obtain ⟨hlt, rfl⟩ := hd
  have hlt' : col.columnIndex.toNat < row.length := hrow.length_eq ▸ hlt
  rw [columnOf, List.getD_eq_getElem _ _ hlt']
  exact hrow.get hlt hlt'

/-- The own column of an accepted comparison is to its literal as the operator says, with the
column first. -/
theorem accepts_binary {op op' : ComparisonOp} {col : ColumnRef} {v : Value}
    (hrow : Tuple.Typed schema row) (hcol : columnComparison op l r = some (col, op', v))
    (hown : OwnColumn schema col v) (h : predicateTrue (evalExpression (.binary op l r)) row) :
    columnOf row col.columnIndex ≠ .null ∧ (op' = .Eq → columnOf row col.columnIndex = v) ∧
      (op' = .Lt ∨ op' = .Leq → valueLess v (columnOf row col.columnIndex) = false) ∧
      (op' = .Gt ∨ op' = .Geq → valueLess (columnOf row col.columnIndex) v = false) := by
  obtain ⟨d, hd, hv, ha, -⟩ := hown.hasType hrow
  simp only [predicateTrue, evalExpression, evalBinary, beq_iff_eq] at h
  unfold columnComparison at hcol
  split at hcol
  · cases hcol
    simp only [evalExpression, hown.evalColumn] at h
    split at h
    · cases h
    rename_i cmp hcmp
    obtain ⟨hless, hgreater, heq⟩ := Tree.less_of_compareValues hd ha hv hcmp
    rw [hless, hgreater]
    refine ⟨fun hnull => by simp [hnull, compareValues, Value.isNull] at hcmp, ?_⟩
    cases op <;> cases cmp <;> simp_all [compares]
  · cases hcol
    simp only [evalExpression, hown.evalColumn] at h
    split at h
    · cases h
    rename_i cmp hcmp
    obtain ⟨hless, hgreater, heq⟩ := Tree.less_of_compareValues hd hv ha hcmp
    rw [hless, hgreater]
    refine ⟨fun hnull => by simp [hnull, compareValues, Value.isNull] at hcmp, ?_⟩
    cases op <;> cases cmp <;> simp_all [compares, flipOp]
  · cases hcol

theorem accepts_between {col : ColumnRef} {lo hi : Value} (hrow : Tuple.Typed schema row)
    (hlo : OwnColumn schema col lo) (hhi : OwnColumn schema col hi)
    (h : predicateTrue (evalExpression (.between (.column col) (.literal lo) (.literal hi) false))
      row) :
    columnOf row col.columnIndex ≠ .null ∧ valueLess (columnOf row col.columnIndex) lo = false ∧
      valueLess hi (columnOf row col.columnIndex) = false := by
  obtain ⟨d, hd, hvlo, ha, -⟩ := hlo.hasType hrow
  obtain ⟨d', hd', hvhi, ha', -⟩ := hhi.hasType hrow
  simp only [predicateTrue, evalExpression, hlo.evalColumn, evalBetween, beq_iff_eq] at h
  split at h
  · rename_i cl ch hcl hch
    rw [(Tree.less_of_compareValues hd ha hvlo hcl).1,
      (Tree.less_of_compareValues hd' ha' hvhi hch).2.1]
    refine ⟨fun hnull => by simp [hnull, compareValues, Value.isNull] at hcl, ?_⟩
    cases cl <;> cases ch <;> simp_all
  · cases h

end

/-! ## The keys of the rows -/

end Relite.Vm

namespace Relite.Index
open Lib Vm Semantic

/-- The index has the keys of the rows themselves. -/
def Exact (catalog : Catalog) (rows : Rows) (idx : Index) : Prop :=
  ∀ rid, idx.tree.keysAt rid = (keyAt catalog rows idx rid).toList

/-- The Bloom filter lets all keys of the index pass. -/
def Filtered (idx : Index) : Prop := ∀ e ∈ idx.tree, idx.bloom.mightContain (keyBytes e.1)

theorem Filtered.add {idx : Index} (h : idx.Filtered) (key : Value) (rid : RecordID) :
    (idx.add key rid).Filtered := by
  intro e he
  refine mightContain_iff.mpr fun i hi => List.mem_append.mpr ?_
  rcases Tree.mem_of_mem_insert he with he | rfl
  · exact .inr (mightContain_iff.mp (h e he) i hi)
  · exact .inl (List.mem_map_of_mem (List.mem_range.mpr hi))

theorem Filtered.remove {idx : Index} (h : idx.Filtered) (key : Value) (rid : RecordID) :
    (idx.remove key rid).Filtered := fun e he => h e (List.mem_of_mem_eraseP he)

variable {catalog : Catalog} {rows : Rows} {idx : Index} {rid : RecordID}

theorem Exact.mem_tree (h : idx.Exact catalog rows) {key : Value} :
    (key, rid) ∈ idx.tree ↔ keyAt catalog rows idx rid = some key := by
  have hkeys : (key, rid) ∈ idx.tree ↔ key ∈ idx.tree.keysAt rid := by simp [Tree.keysAt]
  rw [hkeys, h rid, Option.mem_toList]

/-- A path of one key or of bounds reaches the row whose key is between them. -/
theorem Exact.meets {d : DataType} (h : idx.Exact catalog rows) (hsorted : idx.tree.Sorted)
    (hd : d ≠ .Float)
    (htyped : ∀ r key, keyAt catalog rows idx r = some key → Tuple.HasType d key)
    {lo hi : Option Value} (hhi : ∀ v ∈ hi, Tuple.HasType d v) {key : Value}
    (hkey : keyAt catalog rows idx rid = some key) (hlo : Tree.below lo key = false)
    (habove : Tree.above hi key = false) : idx.tree.Meets lo hi rid := by
  refine hsorted.meets (fun v hv => Tree.ordered_of_hasType hd fun k hk => ?_)
    (h.mem_tree.mpr hkey) hlo habove
  rcases List.mem_cons.mp hk with rfl | hk
  · exact hhi k hv
  · obtain ⟨⟨k, r⟩, he, rfl⟩ := List.mem_map.mp hk
    exact htyped r k (h.mem_tree.mp he)

end Relite.Index

namespace Relite.Vm
open Lib Relite.Parser
open Semantic hiding Expression

section

variable {catalog : Catalog} {rows : Rows} {idx : Index} {rid : RecordID}

theorem keyAt_eq_some {key : Value} :
    keyAt catalog rows idx rid = some key ↔ ∃ bytes row, rows idx.tableId rid = some bytes ∧
      Tuple.deserialize bytes (catalog.loadSchema idx.tableId) = .ok row ∧
        idx.coversRow row.length ∧ idx.keyOf row = key := by
  simp only [keyAt, bind, Option.bind_eq_some_iff]
  constructor
  · rintro ⟨bytes, hbytes, row, hrow, hkey⟩
    split at hkey
    · cases hkey
      refine ⟨bytes, row, hbytes, ?_, ‹_›, rfl⟩
      cases hread : Tuple.deserialize bytes (catalog.loadSchema idx.tableId) with
      | error e => simp [hread, Except.toOption] at hrow
      | ok row' => simp_all [Except.toOption]
    · cases hkey
  · rintro ⟨bytes, row, hbytes, hread, hcovers, rfl⟩
    exact ⟨bytes, hbytes, row, by simp [hread, Except.toOption], if_pos hcovers⟩

/-- The key of a row in an index on one column. -/
theorem keyOf_single {c : Int} (hcols : idx.columns = [c]) {row : Tuple}
    (hcovers : idx.coversRow row.length) : idx.keyOf row = columnOf row c := by
  simp only [Index.coversRow, hcols, List.all_cons, List.all_nil, Bool.and_true,
    decide_eq_true_eq] at hcovers
  simp [Index.keyOf, hcols, Index.keyFromValues, columnOf, hcovers]

theorem keyFromValues_text {vs : List Value} (h : 1 < vs.length) :
    ∃ s, Index.keyFromValues vs = .text s := by
  match vs with
  | [_] => simp at h
  | [] => exact ⟨_, rfl⟩
  | _ :: _ :: _ => exact ⟨_, rfl⟩

/-- The columns of the row are the values. -/
def Equated (row : Tuple) (eqs : List (Int × Value)) : Prop :=
  ∀ p ∈ eqs, 0 ≤ p.1 ∧ p.1 < row.length ∧ columnOf row p.1 = p.2

/-- Where an AND tree is accepted, the columns are the literals that they are equated with. -/
theorem equated_collect {schema : Schema} {row : Tuple} (hrow : Tuple.Typed schema row)
    {e : Expression} (hown : OwnColumns schema e) (hacc : predicateTrue (evalExpression e) row)
    {eqs : List (Int × Value)} (heqs : Equated row eqs) : Equated row (collect e eqs) := by
  fun_induction collect e eqs with
  | case1 l r eqs ihl ihr =>
    obtain ⟨hl, hr⟩ := accepts_and hacc
    exact ihr hown.2 hr (ihl hown.1 hl heqs)
  | case2 => exact heqs
  | case3 l r eqs col op' v hcol hnull =>
    have hown := hown _ hcol
    obtain ⟨hne, heq, -⟩ := accepts_binary hrow hcol hown hacc
    obtain ⟨_, -, -, -, hget⟩ := hown.hasType hrow
    have hlt : col.columnIndex.toNat < row.length :=
      hrow.length_eq ▸ (List.getElem?_eq_some_iff.mp hget).1
    have hop : op' = .Eq := by
      unfold columnComparison at hcol
      split at hcol <;> cases hcol <;> rfl
    intro p hp
    rcases List.mem_cons.mp hp with rfl | hp
    · exact ⟨hown.nonneg, by have := hown.nonneg; simp only; omega, heq hop⟩
    · exact heqs p hp
  | case4 => exact heqs
  | case5 => exact heqs

theorem lookup_mem {eqs : List (Int × Value)} {c : Int} {v : Value} (h : eqs.lookup c = some v) :
    (c, v) ∈ eqs := by
  obtain ⟨l₁, l₂, rfl, -⟩ := List.lookup_eq_some_iff.mp h
  simp

/-- The key of a row in an index whose columns are all equated with values. -/
theorem keyOf_equated {row : Tuple} {eqs : List (Int × Value)} (heqs : Equated row eqs)
    {keyVals : List Value} (h : idx.columns.mapM (fun c => eqs.lookup c) = some keyVals) :
    idx.coversRow row.length ∧ idx.keyOf row = Index.keyFromValues keyVals := by
  unfold Index.coversRow Index.keyOf
  generalize idx.columns = columns at h ⊢
  suffices hall : (columns.all fun c => decide (0 ≤ c ∧ c < row.length)) ∧
      (columns.map fun (c : Int) =>
        if 0 ≤ c ∧ c < row.length then row.getD c.toNat .null else .null) = keyVals from
    ⟨hall.1, congrArg Index.keyFromValues hall.2⟩
  induction columns generalizing keyVals with
  | nil =>
    cases h
    exact ⟨rfl, rfl⟩
  | cons c columns ih =>
    simp only [List.mapM_cons, bind, Option.bind_eq_some_iff, pure, Option.some.injEq] at h
    obtain ⟨v, hv, vs, hvs, rfl⟩ := h
    obtain ⟨hcovers, hmap⟩ := ih hvs
    obtain ⟨hnonneg, hlt, hval⟩ := heqs (c, v) (lookup_mem hv)
    refine ⟨by simpa [hnonneg, hlt] using hcovers, ?_⟩
    rw [List.map_cons, hmap, if_pos ⟨hnonneg, hlt⟩]
    exact congrArg (· :: vs) hval

end

namespace Db

variable {db : Db} {t : TableId}

/-- A live row that the clause accepts, where the indexes of its table have the keys of the
rows and their Bloom filters let these pass. -/
structure Accepted (db : Db) (t : TableId) (e : Expression) (rid : RecordID) (row : Tuple) :
    Prop where
  indexes : ∀ idx ∈ db.indexes.forTable t,
    idx.Exact db.catalog db.tables.heap ∧ idx.Filtered ∧ idx.tree.Sorted
  live : ∃ bytes, db.tables.heap t rid = some bytes ∧
    Tuple.deserialize bytes (db.catalog.loadSchema t) = .ok row
  own : OwnColumns (db.catalog.loadSchema t) e
  accepts : predicateTrue (evalExpression e) row

variable {e : Expression} {rid : RecordID} {row : Tuple}

theorem Accepted.typed (h : db.Accepted t e rid row) :
    Tuple.Typed (db.catalog.loadSchema t) row := by
  obtain ⟨bytes, -, hread⟩ := h.live
  exact Tuple.typed_of_deserialize hread

theorem Accepted.keyAt (h : db.Accepted t e rid row) {idx : Index}
    (hidx : idx ∈ db.indexes.forTable t) (hcovers : idx.coversRow row.length) :
    Vm.keyAt db.catalog db.tables.heap idx rid = some (idx.keyOf row) := by
  obtain ⟨bytes, hheap, hread⟩ := h.live
  obtain rfl := (IndexManager.mem_forTable.mp hidx).2
  exact keyAt_eq_some.mpr ⟨bytes, row, hheap, hread, hcovers, rfl⟩

theorem Accepted.reaches_composite (h : db.Accepted t e rid row) {path : AccessPath}
    (hpath : compositePath db.indexes t (collect e []) = some path) : path.Reaches rid := by
  obtain ⟨idx, hidx, hmany, keyVals, hvals, rfl⟩ := index_of_compositePath hpath
  obtain ⟨hcovers, hkey⟩ :=
    keyOf_equated (equated_collect h.typed h.own h.accepts fun p hp => by cases hp) hvals
  obtain ⟨hexact, hfiltered, hsorted⟩ := h.indexes idx hidx
  have hat := h.keyAt hidx hcovers
  have htext : ∀ row, ∃ s, idx.keyOf row = .text s := fun row =>
    keyFromValues_text (by rwa [List.length_map])
  obtain ⟨s, hs⟩ := htext row
  rw [← hkey, hs]
  rw [hs] at hat
  have hpass : idx.bloom.mightContain (keyBytes (.text s)) :=
    hfiltered (.text s, rid) (hexact.mem_tree.mpr hat)
  refine ⟨hpass, ?_⟩
  refine hexact.meets hsorted (d := .Text) (by decide) (fun r key hr => ?_) ?_ hat ?_ ?_
  · obtain ⟨_, row', -, -, -, rfl⟩ := keyAt_eq_some.mp hr
    obtain ⟨s', hs'⟩ := htext row'
    rw [hs']
    trivial
  · rintro v ⟨⟩
    trivial
  · simp [Tree.below, Tree.valueLess_text]
  · simp [Tree.above, Tree.valueLess_text]

/-- In an index on one column the path of bounds around the value of the row reaches it. -/
theorem Accepted.meets_single (h : db.Accepted t e rid row) {idx : Index}
    (hidx : idx ∈ db.indexes.forTable t) {col : ColumnRef} (hcols : idx.columns = [col.columnIndex])
    {v : Value} (hown : OwnColumn (db.catalog.loadSchema t) col v)
    {lo hi : Option Value} (hhi : ∀ u ∈ hi, OwnColumn (db.catalog.loadSchema t) col u)
    (hlo : Tree.below lo (columnOf row col.columnIndex) = false)
    (habove : Tree.above hi (columnOf row col.columnIndex) = false) :
    (columnOf row col.columnIndex, rid) ∈ idx.tree ∧ idx.tree.Meets lo hi rid := by
  obtain ⟨hexact, -, hsorted⟩ := h.indexes idx hidx
  obtain ⟨d, hd, -, -, hget⟩ := hown.hasType h.typed
  have hcovers : ∀ row' : Tuple, Tuple.Typed (db.catalog.loadSchema t) row' →
      idx.coversRow row'.length := fun row' hrow' => by
    have hlt := (List.getElem?_eq_some_iff.mp hget).1
    have hnonneg := hown.nonneg
    have hlen := hrow'.length_eq
    simp only [Index.coversRow, hcols, List.all_cons, List.all_nil, Bool.and_true,
      decide_eq_true_eq]
    omega
  have hat := h.keyAt hidx (hcovers row h.typed)
  rw [keyOf_single hcols (hcovers row h.typed)] at hat
  refine ⟨hexact.mem_tree.mpr hat,
    hexact.meets hsorted hd (fun r key hr => ?_) (fun u hu => ?_) hat hlo habove⟩
  · obtain ⟨bytes, row', -, hread, hcov, rfl⟩ := keyAt_eq_some.mp hr
    obtain rfl := (IndexManager.mem_forTable.mp hidx).2
    rw [keyOf_single hcols hcov]
    obtain ⟨d', -, -, htype, hget'⟩ := hown.hasType (Tuple.typed_of_deserialize hread)
    rw [hget] at hget'
    cases hget'
    exact htype
  · obtain ⟨d', -, htype, -, hget'⟩ := (hhi u hu).hasType h.typed
    rw [hget] at hget'
    cases hget'
    exact htype

theorem Accepted.reaches (h : db.Accepted t e rid row) {path : AccessPath}
    (hpath : accessPath db.indexes t e = some path) : path.Reaches rid := by
  fun_induction accessPath db.indexes t e with
  | case1 l r ihl ihr =>
    rcases Option.or_eq_some_iff.mp hpath with hpath | ⟨-, hpath⟩
    · exact h.reaches_composite hpath
    obtain ⟨hl, hr⟩ := accepts_and h.accepts
    rcases Option.or_eq_some_iff.mp hpath with hpath | ⟨-, hpath⟩
    · exact ihl ⟨h.indexes, h.live, h.own.1, hl⟩ hpath
    · exact ihr ⟨h.indexes, h.live, h.own.2, hr⟩ hpath
  | case2 op l r =>
    rcases Option.or_eq_some_iff.mp hpath with hpath | ⟨-, hpath⟩
    · exact h.reaches_composite hpath
    obtain ⟨col, op', key, idx, hcol, hidx, hcols, hchoice⟩ := index_of_comparisonPath hpath
    have hown := h.own _ hcol
    obtain ⟨-, heq, hless, hgreater⟩ := accepts_binary h.typed hcol hown h.accepts
    obtain ⟨d, hd, hkey, -⟩ := hown.hasType h.typed
    have hord : Tree.Ordered [key] := Tree.ordered_of_hasType hd (by simpa using hkey)
    have hirrefl : valueLess key key = false := hord.irrefl (by simp)
    rcases hchoice with ⟨hop, rfl⟩ | ⟨hop, rfl⟩ | ⟨hop, rfl⟩
    · have hsame : Tree.below (some key) (columnOf row col.columnIndex) = false := by
        rw [heq hop]
        exact hirrefl
      have hsame' : Tree.above (some key) (columnOf row col.columnIndex) = false := by
        rw [heq hop]
        exact hirrefl
      obtain ⟨hmem, hmeets⟩ :=
        h.meets_single hidx hcols hown (by rintro u ⟨⟩; exact hown) hsame hsame'
      rw [heq hop] at hmem
      have hpass : idx.bloom.mightContain (keyBytes key) :=
        (h.indexes idx hidx).2.1 (key, rid) hmem
      exact ⟨hpass, hmeets⟩
    · have habove : Tree.above (some key) (columnOf row col.columnIndex) = false := hless hop
      exact (h.meets_single hidx hcols hown (by rintro u ⟨⟩; exact hown) rfl habove).2
    · have hbelow : Tree.below (some key) (columnOf row col.columnIndex) = false := hgreater hop
      exact (h.meets_single hidx hcols hown (by rintro u ⟨⟩) hbelow rfl).2
  | case3 v lo hi =>
    obtain ⟨col, lo', hi', idx, rfl, rfl, rfl, hidx, hcols, rfl⟩ := index_of_betweenPath hpath
    obtain ⟨hlo, hhi⟩ := h.own
    obtain ⟨-, hbelow, habove⟩ := accepts_between h.typed hlo hhi h.accepts
    have hbelow : Tree.below (some lo') (columnOf row col.columnIndex) = false := hbelow
    have habove : Tree.above (some hi') (columnOf row col.columnIndex) = false := habove
    exact (h.meets_single hidx hcols hlo (by rintro u ⟨⟩; exact hhi) hbelow habove).2
  | case4 => cases hpath

/-- A clause on own columns other than FLOAT ones is answered by way of an index as by a scan. -/
theorem gathersAsScan_of_own (hok : db.Ok) (h : db.IndexesAgree)
    (hindexes : ∀ idx ∈ db.indexes.forTable t, idx.Exact db.catalog db.tables.heap ∧ idx.Filtered)
    (hown : OwnColumns (db.catalog.loadSchema t) e) : db.GathersAsScan t e := by
  refine (gathersAsScan_iff hok h t e).mpr fun path hpath rid bytes row hheap hread hacc => ?_
  refine Accepted.reaches ⟨fun idx hidx => ?_, ⟨bytes, hheap, hread⟩, hown, hacc⟩ hpath
  obtain ⟨hexact, hfiltered⟩ := hindexes idx hidx
  exact ⟨hexact, hfiltered, (h idx (IndexManager.mem_forTable.mp hidx).1).sorted⟩

end Db

end Relite.Vm
