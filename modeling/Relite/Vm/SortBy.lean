import Relite.Vm.OuterJoin

/-!
# SORT BY

Rows of one table, of joins and of window functions are sorted before the select list is
worked out, SKIP and TAKE cut what comes out at the end. The path that groups rows has the
same end, but no sort in it.
-/
namespace Relite.Vm.SortBy
open Lib Relite.Parser OuterJoin
open Semantic hiding Expression

/-! ## The comparison -/

structure OrderKey where
  columnIndex : Nat
  ascending : Bool := true

/-- What `std::stable_sort` is given. -/
def keyLess : List OrderKey → Tuple → Tuple → Bool
  | [], _, _ => false
  | key :: keys, a, b =>
    let va := a.getD key.columnIndex .null
    let vb := b.getD key.columnIndex .null
    if valueLess va vb then key.ascending
    else if valueLess vb va then !key.ascending
    else keyLess keys a b

/-- The values of the column of a key. -/
def keyValues (key : OrderKey) (rows : List Tuple) : List Value :=
  rows.map fun row => row.getD key.columnIndex .null

/-! ## The paths of a FETCH -/

/-- An item of the select list. What a computed one yields for a row is taken after its
subqueries have been bound to the row, and a window function has a value for each row of the
source. -/
inductive FetchColumn
  | column (columnIndex : Int)
  | computed (value : Tuple → Value)
  | window (values : List Tuple → List Value)

/-- A FETCH without groups. SKIP and TAKE are integer literals, which have no sign. -/
structure Fetch where
  selectStar : Bool := false
  columns : List FetchColumn := []
  orderBy : List OrderKey := []
  distinct : Bool := false
  offset : Int := 0
  limit : Option Int := none
  offset_nonneg : 0 ≤ offset := by decide
  limit_nonneg : ∀ limit' ∈ limit, 0 ≤ limit' := by decide

def sortRows (orderBy : List OrderKey) (rows : List Tuple) : List Tuple :=
  if orderBy.isEmpty then rows else stableSort (keyLess orderBy) rows

def cut (offset : Int) (limit : Option Int) (rows : List Tuple) : List Tuple :=
  let rows := if 0 < offset then rows.drop offset.toNat else rows
  match limit with
  | some limit =>
    let lim := if limit < 0 then 0 else limit.toNat
    if lim < rows.length then rows.take lim else rows
  | none => rows

def Fetch.projected (node : Fetch) (src : Tuple) : Tuple :=
  if node.selectStar then src
  else
    node.columns.map fun
      | .column columnIndex => valueAt src columnIndex
      | .computed value => value src
      | .window _ => .null

/-- The end of `visit(SelectStatement)`. -/
def Fetch.output (node : Fetch) (rows : List Tuple) : List Tuple :=
  let rows := (sortRows node.orderBy rows).map node.projected
  cut node.offset node.limit (if node.distinct then dedupeRows rows else rows)

/-- A table that is joined to those before it. -/
structure JoinClause where
  rows : List Tuple
  width : Nat
  kind : JoinKind
  on? : Option Expression

/-- The rows of a FETCH with LINKs. -/
def joinedRows (heap : MergeHeap) (leftRows : List Tuple) (leftWidth : Nat) (first : JoinClause)
    (extraJoins : List JoinClause) (when? : Option Expression) : List Tuple :=
  if extraJoins.isEmpty then
    selectJoin heap leftRows leftWidth first.rows first.width first.kind first.on? when?
  else
    let step (acc : List Tuple × Nat) (jc : JoinClause) : List Tuple × Nat :=
      (OuterJoin.joinTwo acc.1 acc.2 jc.rows jc.width jc.kind jc.on?, acc.2 + jc.width)
    ((first :: extraJoins).foldl step (leftRows, leftWidth)).1.filter (accepts when?)

/-- The positions of the rows, in the order in which `runWindowQuery` goes through them. -/
def windowOrder (orderBy : List OrderKey) (rows : List Tuple) : List Nat :=
  let order := List.range rows.length
  if orderBy.isEmpty then order
  else stableSort (fun a b => keyLess orderBy (rows.getD a []) (rows.getD b [])) order

def Fetch.windowRow (node : Fetch) (rows : List Tuple) (oi : Nat) : Tuple :=
  node.columns.map fun
    | .window values => (values rows).getD oi .null
    | .computed value => value (rows.getD oi [])
    | .column columnIndex => valueAt (rows.getD oi []) columnIndex

def Fetch.runWindowQuery (node : Fetch) (rows : List Tuple) : List Tuple :=
  let rows := (windowOrder node.orderBy rows).map (node.windowRow rows)
  cut node.offset node.limit (if node.distinct then dedupeRows rows else rows)

/-- A FETCH of one of the four shapes, with the rows that it is about. -/
inductive Query
  | plain (node : Fetch) (rows : List Tuple)
  | joined (node : Fetch) (heap : MergeHeap) (leftRows : List Tuple) (leftWidth : Nat)
      (first : JoinClause) (extraJoins : List JoinClause) (when? : Option Expression)
  | windowed (node : Fetch) (rows : List Tuple)
  | grouped (node : GroupSelect) (orderBy : List OrderKey) (schema : Schema) (rows : List Tuple)
      (offset_nonneg : 0 ≤ node.offset) (limit_nonneg : ∀ limit ∈ node.limit, 0 ≤ limit)

/-- The row that stands for a group. -/
def repOf (schema : Schema) (group : List Tuple) : Tuple :=
  group.headD (List.replicate schema.length .null)

/-- The groups that HAVING accepts, as they are first met. -/
def groupsOf (node : GroupSelect) (schema : Schema) (rows : List Tuple) : List (List Tuple) :=
  let found := groupRows (node.groupBy.map Int.toNat) rows
  (if node.groupBy.isEmpty && found.isEmpty then [[]] else found).filter fun group =>
    node.having.all fun having => having group (repOf schema group)

def groupRow (node : GroupSelect) (schema : Schema) (group : List Tuple) : Tuple :=
  (node.columns.map fun col =>
    match col.computed with
    | some e => evalExpression e (repOf schema group)
    | none => valueAt (repOf schema group) col.columnIndex) ++
  node.aggregates.map fun fn => computeAggregate fn group

namespace Query

def output : Query → List Tuple
  | plain node rows => node.output rows
  | joined node heap leftRows leftWidth first extraJoins when? =>
    node.output (joinedRows heap leftRows leftWidth first extraJoins when?)
  | windowed node rows => node.runWindowQuery rows
  | grouped node _ schema rows _ _ => node.output schema rows

def orderBy : Query → List OrderKey
  | plain node _ | joined node .. | windowed node _ => node.orderBy
  | grouped _ orderBy .. => orderBy

/-- The rows that the keys are about: those of the source, or those that stand for the groups. -/
def keyRows : Query → List Tuple
  | plain _ rows | windowed _ rows => rows
  | joined _ heap leftRows leftWidth first extraJoins when? =>
    joinedRows heap leftRows leftWidth first extraJoins when?
  | grouped node _ schema rows _ _ => (groupsOf node schema rows).map (repOf schema)

end Query

/-! ## What SORT BY asks for -/

/-- `arranged` has what `items` has, in the order of the keys, with ties as they stand there. -/
structure Arranged {ι : Type} (less : ι → ι → Bool) (items arranged : List ι) : Prop where
  perm : arranged.Perm items
  sorted : Sorted less arranged
  ties : ∀ c ∈ items, arranged.filter (same less c) = items.filter (same less c)

/-- The positions that SKIP and TAKE name. -/
def positions (offset : Int) (limit : Option Int) (rows : List Tuple) : List Tuple :=
  match limit with
  | some limit => (rows.drop offset.toNat).take limit.toNat
  | none => rows.drop offset.toNat

/-- The rows are those of the items in the given order, with what SKIP and TAKE name of them, and
the order is the one of the keys. -/
structure Honours {ι : Type} (orderBy : List OrderKey) (rep : ι → Tuple)
    (items listed : List ι) (rowOf : ι → Tuple) (distinct : Bool) (offset : Int)
    (limit : Option Int) (output : List Tuple) : Prop where
  arranged : Arranged (fun a b => keyLess orderBy (rep a) (rep b)) items listed
  output_eq : output = positions offset limit
    (if distinct then dedupeRows (listed.map rowOf) else listed.map rowOf)

/-- Each path goes through its rows, or its groups, in the order that SORT BY asks for. -/
def Query.Honoured (q : Query) : Prop :=
  match q with
  | plain node _ | joined node .. =>
    Honours node.orderBy id q.keyRows (sortRows node.orderBy q.keyRows) node.projected
      node.distinct node.offset node.limit q.output
  | windowed node rows =>
    Honours node.orderBy (fun i => rows.getD i []) (List.range rows.length)
      (windowOrder node.orderBy rows) (node.windowRow rows) node.distinct node.offset node.limit
      q.output
  | grouped node orderBy schema rows _ _ =>
    Honours orderBy (repOf schema) (groupsOf node schema rows) (groupsOf node schema rows)
      (groupRow node schema) false node.offset node.limit q.output

/-- A query that groups meets the groups in the order of the keys. -/
def Query.InKeyOrder : Query → Prop
  | grouped node orderBy schema rows _ _ =>
    Sorted (keyLess orderBy) ((groupsOf node schema rows).map (repOf schema))
  | _ => True

section

variable {orderBy : List OrderKey} {rows : List Tuple}

/-- Lexicographic order by several keys, if each column is in order. -/
theorem orderedOn_keyLess (h : ∀ key ∈ orderBy, Tree.Ordered (keyValues key rows)) :
    OrderedOn (keyLess orderBy) rows := by
  induction orderBy with
  | nil => exact ⟨fun _ _ _ _ h => (Bool.false_ne_true h).elim, fun _ _ _ _ _ _ h =>
      (Bool.false_ne_true h).elim⟩
  | cons key keys ih =>
    rw [List.forall_mem_cons] at h
    have hcolumn : OrderedOn (fun a b : Tuple =>
        valueLess (a.getD key.columnIndex .null) (b.getD key.columnIndex .null)) rows :=
      OrderedOn.map h.1
    cases hasc : key.ascending with
    | true =>
      refine (hcolumn.lex (ih h.2)).congr fun a _ b _ => ?_
      simp only [keyLess, hasc]
      generalize valueLess (a.getD _ _) (b.getD _ _) = ab
      generalize valueLess (b.getD _ _) (a.getD _ _) = ba
      cases ab <;> cases ba <;> simp
    | false =>
      refine (hcolumn.flip.lex (ih h.2)).congr fun a ha b hb => ?_
      have hasymm := hcolumn.1 a ha b hb
      simp only [keyLess, hasc] at hasymm ⊢
      generalize valueLess (a.getD _ _) (b.getD _ _) = ab at hasymm ⊢
      generalize valueLess (b.getD _ _) (a.getD _ _) = ba at hasymm ⊢
      cases ab <;> cases ba <;> simp at hasymm ⊢

theorem arranged_stableSort {ι : Type} {less : ι → ι → Bool} {items : List ι}
    (h : OrderedOn less items) : Arranged less items (stableSort less items) := by
  refine ⟨stableSort_perm less items, sorted_stableSort h, fun c hc => ?_⟩
  exact filter_same_stableSort (h.subset (List.cons_subset.mpr ⟨hc, List.Subset.refl _⟩))

/-- Where nothing is sorted, everything is tied. -/
theorem sorted_nil {ι : Type} (rep : ι → Tuple) (items : List ι) :
    Sorted (fun a b => keyLess [] (rep a) (rep b)) items :=
  List.pairwise_of_forall fun _ _ => rfl

theorem sortRows_eq (orderBy : List OrderKey) (rows : List Tuple) :
    sortRows orderBy rows = stableSort (keyLess orderBy) rows := by
  cases orderBy with
  | nil => exact (stableSort_of_sorted (sorted_nil id rows)).symm
  | cons key keys => rfl

theorem windowOrder_eq (orderBy : List OrderKey) (rows : List Tuple) :
    windowOrder orderBy rows =
      stableSort (fun a b => keyLess orderBy (rows.getD a []) (rows.getD b []))
        (List.range rows.length) := by
  cases orderBy with
  | nil => exact (stableSort_of_sorted (sorted_nil (fun i => rows.getD i []) _)).symm
  | cons key keys => rfl

end

/-! ## SKIP and TAKE -/

theorem drop_offset {offset : Int} (h : 0 ≤ offset) (rows : List Tuple) :
    (if 0 < offset then rows.drop offset.toNat else rows) = rows.drop offset.toNat := by
  split
  · rfl
  · rw [show offset.toNat = 0 by omega, List.drop_zero]

theorem cut_eq {offset : Int} (h : 0 ≤ offset) (limit : Option Int) (rows : List Tuple) :
    cut offset limit rows = positions offset limit rows := by
  unfold cut positions
  rw [drop_offset h]
  cases limit with
  | none => rfl
  | some limit =>
    have hlim : (if limit < 0 then 0 else limit.toNat) = limit.toNat := by
      split
      · omega
      · rfl
    simp only [hlim]
    split
    · rfl
    · exact (List.take_of_length_le (by omega)).symm

theorem limited_eq {offset : Int} (h : 0 ≤ offset) {limit : Option Int}
    (hlimit : ∀ l ∈ limit, 0 ≤ l) (rows : List Tuple) :
    limited offset limit rows = positions offset limit rows := by
  unfold limited positions
  rw [drop_offset h]
  cases limit with
  | none => rfl
  | some limit => exact if_pos (hlimit limit rfl)

/-! ## The four shapes -/

theorem honours_output (node : Fetch) {rows : List Tuple}
    (h : ∀ key ∈ node.orderBy, Tree.Ordered (keyValues key rows)) :
    Honours node.orderBy id rows (sortRows node.orderBy rows) node.projected node.distinct
      node.offset node.limit (node.output rows) where
  arranged := sortRows_eq node.orderBy rows ▸ arranged_stableSort (orderedOn_keyLess h)
  output_eq := cut_eq node.offset_nonneg node.limit _

theorem honours_runWindowQuery (node : Fetch) {rows : List Tuple}
    (h : ∀ key ∈ node.orderBy, Tree.Ordered (keyValues key rows)) :
    Honours node.orderBy (fun i => rows.getD i []) (List.range rows.length)
      (windowOrder node.orderBy rows) (node.windowRow rows) node.distinct node.offset node.limit
      (node.runWindowQuery rows) where
  arranged := by
    have hrows : (List.range rows.length).map (fun i => rows.getD i []) = rows :=
      List.ext_getElem (by simp) fun i _ hi => by simp [List.getElem?_eq_getElem hi]
    rw [windowOrder_eq]
    exact arranged_stableSort (OrderedOn.map (hrows.symm ▸ orderedOn_keyLess h))
  output_eq := cut_eq node.offset_nonneg node.limit _

theorem honours_grouped_iff (node : GroupSelect) (orderBy : List OrderKey) (schema : Schema)
    (rows : List Tuple) (hoffset : 0 ≤ node.offset) (hlimit : ∀ l ∈ node.limit, 0 ≤ l) :
    Honours orderBy (repOf schema) (groupsOf node schema rows) (groupsOf node schema rows)
      (groupRow node schema) false node.offset node.limit (node.output schema rows) ↔
      Sorted (keyLess orderBy) ((groupsOf node schema rows).map (repOf schema)) := by
  rw [Sorted, List.pairwise_map]
  refine ⟨fun h => h.arranged.sorted, fun h => ⟨⟨.refl _, h, fun _ _ => rfl⟩, ?_⟩⟩
  exact limited_eq hoffset hlimit _

/-- SORT BY is honoured unless the query groups rows and meets the groups in another order. -/
theorem Query.honoured_iff (q : Query)
    (h : ∀ key ∈ q.orderBy, Tree.Ordered (keyValues key q.keyRows)) :
    q.Honoured ↔ q.InKeyOrder := by
  cases q with
  | plain node rows => exact iff_of_true (honours_output node h) trivial
  | joined node heap leftRows leftWidth first extraJoins when? =>
    exact iff_of_true (honours_output node h) trivial
  | windowed node rows => exact iff_of_true (honours_runWindowQuery node h) trivial
  | grouped node orderBy schema rows hoffset hlimit =>
    exact honours_grouped_iff node orderBy schema rows hoffset hlimit

/-- FETCH * FROM t SORT BY a DESC, b TAKE 2 SKIP 1. -/
theorem Query.honoured_twoKeys :
    (Query.plain { selectStar := true, orderBy := [⟨0, false⟩, ⟨1, true⟩], limit := some 2,
                   offset := 1 }
      [[.int 1, .int 3], [.null, .int 2], [.int 1, .int 1], [.int 2, .null]]).Honoured :=
  (honoured_iff _ (by decide)).mpr trivial

/-- FETCH a, COUNT(*) FROM t GROUP BY a SORT BY a, from a table with the rows 2 and 1. -/
theorem Query.not_honoured_grouped :
    ¬(Query.grouped { tableId := 1, columns := [{ columnIndex := 0 }], groupBy := [0],
                      aggregates := [{ name := "COUNT", star := true }] }
        [⟨0, true⟩] [.Int] [[.int 2], [.int 1]] (by decide) (by decide)).Honoured := by
  intro h
  have hsorted := (honours_grouped_iff _ _ _ _ (by decide) (by decide)).mp h
  exact absurd hsorted (by unfold Sorted; decide +kernel)

end Relite.Vm.SortBy
