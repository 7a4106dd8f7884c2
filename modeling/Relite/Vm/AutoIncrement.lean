import Mathlib.Data.List.Induction
import Relite.Vm.StoredValues

/-!
# AUTO_INCREMENT

A PUT reads the largest value of the column once, before its loop, and counts on from there
for each row that gives none. What a row gives of its own is not looked at: the numbers are
new as long as no earlier row of the statement brings the one that is next along.
-/
namespace Relite.Vm
open Lib Semantic

namespace Exec

/-! ## The numbers of one row -/

/-- The row does not give a value for the column, or gives null. -/
def generates (row : Tuple × List Bool) (c : Nat) : Bool :=
  !row.2.getD c false || (row.1.getD c .null).isNull

/-- The next numbers after the row. -/
def advance (autoNext : AutoNext) (row : Tuple × List Bool) : AutoNext :=
  autoNext.map fun e => (e.1, if generates row e.1 then e.2 + 1 else e.2)

theorem getD_set_of_ne {α : Type} {l : List α} {c d : Nat} (h : d ≠ c) (a b : α) :
    (l.set c a).getD d b = l.getD d b := by
  rw [List.getD_eq_getElem?_getD, List.getElem?_set_ne h.symm, ← List.getD_eq_getElem?_getD]

theorem getD_set_self {α : Type} {l : List α} {c : Nat} (h : c < l.length) (a b : α) :
    (l.set c a).getD c b = a := by
  rw [List.getD_eq_getElem?_getD, List.getElem?_set_self h, Option.getD_some]

/-- One column after the other is filled, and the others do not matter to it. -/
theorem foldl_fillAuto (l : AutoNext) (hl : (l.map Prod.fst).Nodup) (done : AutoNext)
    (vals : Tuple) (isSet : List Bool) (hlen : vals.length = isSet.length) :
    let out := l.foldl (fun (done, vals, isSet) (c, next) =>
      if !isSet.getD c false || (vals.getD c .null).isNull then
        (done ++ [(c, next + 1)], vals.set c (.int next), isSet.set c true)
      else (done ++ [(c, next)], vals, isSet)) (done, vals, isSet)
    out.1 = done ++ advance l (vals, isSet) ∧
      (∀ d, d ∉ l.map Prod.fst → out.2.1.getD d .null = vals.getD d .null ∧
        out.2.2.getD d false = isSet.getD d false) ∧
      ∀ e ∈ l, e.1 < vals.length →
        out.2.1.getD e.1 .null =
          (if generates (vals, isSet) e.1 then .int e.2 else vals.getD e.1 .null) ∧
        out.2.2.getD e.1 false = true := by
  induction l generalizing done vals isSet with
  | nil => simp [advance]
  | cons e l ih =>
    obtain ⟨c, next⟩ := e
    rw [List.map_cons, List.nodup_cons] at hl
    obtain ⟨hc, hl⟩ := hl
    have hne : ∀ d ∈ l.map Prod.fst, d ≠ c := fun d hd h => hc (h ▸ hd)
    dsimp only
    rw [List.foldl_cons]
    by_cases hgen : generates (vals, isSet) c = true
    · have hkeep : ∀ d, d ≠ c →
          generates (vals.set c (.int next), isSet.set c true) d = generates (vals, isSet) d := by
        intro d hd
        simp only [generates, getD_set_of_ne hd]
      obtain ⟨hdone, hother, hown⟩ := ih hl (done ++ [(c, next + 1)]) (vals.set c (.int next))
        (isSet.set c true) (by simpa using hlen)
      rw [show (!isSet.getD c false || (vals.getD c .null).isNull) = true from hgen, if_pos rfl]
      refine ⟨?_, fun d hd => ?_, fun e he hlt => ?_⟩
      · rw [hdone, advance, advance, List.map_cons, hgen, if_pos rfl, List.append_assoc]
        refine congrArg _ (congrArg _ (List.map_congr_left fun e he => ?_))
        rw [hkeep e.1 (hne e.1 (List.mem_map_of_mem he))]
      · rw [List.map_cons, List.mem_cons, not_or] at hd
        obtain ⟨hv, hs⟩ := hother d hd.2
        exact ⟨hv.trans (getD_set_of_ne hd.1 _ _), hs.trans (getD_set_of_ne hd.1 _ _)⟩
      · rcases List.mem_cons.mp he with rfl | he
        · obtain ⟨hv, hs⟩ := hother c hc
          rw [hv, hs, hgen, if_pos rfl, getD_set_self hlt, getD_set_self (hlen ▸ hlt)]
          exact ⟨rfl, rfl⟩
        · have hd := hne e.1 (List.mem_map_of_mem he)
          obtain ⟨hv, hs⟩ := hown e he (by simpa using hlt)
          rw [hv, hkeep e.1 hd, getD_set_of_ne hd]
          exact ⟨rfl, hs⟩
    · rw [Bool.not_eq_true] at hgen
      obtain ⟨hdone, hother, hown⟩ := ih hl (done ++ [(c, next)]) vals isSet hlen
      rw [show (!isSet.getD c false || (vals.getD c .null).isNull) = false from hgen,
        if_neg Bool.false_ne_true]
      refine ⟨?_, fun d hd => ?_, fun e he hlt => ?_⟩
      · rw [hdone, advance, advance, List.map_cons, hgen, if_neg Bool.false_ne_true,
          List.append_assoc]
        rfl
      · rw [List.map_cons, List.mem_cons, not_or] at hd
        exact hother d hd.2
      · rcases List.mem_cons.mp he with rfl | he
        · obtain ⟨hv, hs⟩ := hother c hc
          have hset : isSet.getD c false = true := by
            simp only [generates, Bool.or_eq_false_iff, Bool.not_eq_false'] at hgen
            exact hgen.1
          rw [hv, hs, hgen, if_neg Bool.false_ne_true]
          exact ⟨rfl, hset⟩
        · exact hown e he hlt

theorem fillAuto_eq {autoNext : AutoNext} (hnodup : (autoNext.map Prod.fst).Nodup)
    {row : Tuple × List Bool} (hlen : row.1.length = row.2.length) :
    (fillAuto autoNext row).1 = advance autoNext row ∧
      ∀ e ∈ autoNext, e.1 < row.1.length →
        (fillAuto autoNext row).2.1.getD e.1 .null =
          (if generates row e.1 then .int e.2 else row.1.getD e.1 .null) ∧
        (fillAuto autoNext row).2.2.getD e.1 false = true := by
  obtain ⟨hdone, -, hown⟩ := foldl_fillAuto autoNext hnodup [] row.1 row.2 hlen
  exact ⟨hdone, hown⟩

/-- A value that is given or generated is not replaced by the default. -/
theorem getD_fillDefaults (ts : TableSchema) (row : Tuple × List Bool) {c : Nat}
    (hset : row.2.getD c false = true) :
    (fillDefaults ts row).getD c .null = row.1.getD c .null := by
  refine foldl_keeps (g := fun vals : Tuple => vals.getD c .null) ?_ _ _
  rintro vals ⟨col, d⟩
  simp only
  split
  · rename_i h
    refine getD_set_of_ne ?_ _ _
    rintro rfl
    rw [hset] at h
    simp at h
  · rfl

theorem length_provide_snd (n : Nat) (targets : List Nat) (provided : Tuple) :
    (provide n targets provided).2.length = n := by
  refine (foldl_keeps (g := fun row : Tuple × List Bool => row.2.length) ?_ _ _).trans (by simp)
  exact fun _ _ => by simp

/-- What a new row has in an AUTO_INCREMENT column. -/
theorem getD_insertedRow {ts : TableSchema} {schema : Schema} {targets : List Nat}
    {autoNext : AutoNext} {provided : Tuple} (hnodup : (autoNext.map Prod.fst).Nodup)
    {e : Nat × Int64} (he : e ∈ autoNext) (hlt : e.1 < schema.length) :
    (insertedRow (some ts) schema targets autoNext provided).getD e.1 .null =
      if generates (provide schema.length targets provided) e.1 then .int e.2
      else (provide schema.length targets provided).1.getD e.1 .null := by
  have hlen := length_provide schema.length targets provided
  obtain ⟨-, hown⟩ := fillAuto_eq hnodup (hlen.trans (length_provide_snd _ _ _).symm)
  obtain ⟨hv, hs⟩ := hown e he (by rw [hlen]; exact hlt)
  rw [insertedRow, Option.map_some, Option.getD_some, getD_fillDefaults ts _ hs, hv]

/-! ## The first numbers -/

/-- The largest integer in the column, at least 0. -/
def largest (rows : List Tuple) (c : Nat) : Int :=
  rows.foldl (fun m row => match row.getD c .null with
    | .int v => max m v.toInt
    | _ => m) 0

theorem foldl_largest (rows : List (RecordID × Tuple)) (c : Nat) (m : Int64) :
    (rows.foldl (fun maxVal row => match row.2.getD c .null with
      | .int v => if maxVal < v then v else maxVal
      | _ => maxVal) m).toInt =
      (rows.map Prod.snd).foldl (fun m row => match row.getD c .null with
        | .int v => max m v.toInt
        | _ => m) m.toInt := by
  induction rows generalizing m with
  | nil => rfl
  | cons row rows ih =>
    rw [List.foldl_cons, List.map_cons, List.foldl_cons, ih]
    congr 1
    split
    · rename_i v _
      split
      · rename_i h
        exact (max_eq_right (Int64.lt_iff_toInt_lt.mp h).le).symm
      · rename_i h
        exact (max_eq_left (not_lt.mp (mt Int64.lt_iff_toInt_lt.mpr h))).symm
    · rfl

theorem le_foldl_largest (rows : List Tuple) (c : Nat) (m : Int) :
    let out := rows.foldl (fun m row => match row.getD c .null with
      | .int v => max m v.toInt
      | _ => m) m
    m ≤ out ∧ ∀ row ∈ rows, ∀ v, row.getD c .null = .int v → v.toInt ≤ out := by
  induction rows generalizing m with
  | nil => simp
  | cons row rows ih =>
    dsimp only
    rw [List.foldl_cons]
    obtain ⟨hle, hrows⟩ := ih (match row.getD c .null with
      | .int v => max m v.toInt
      | _ => m)
    refine ⟨le_trans ?_ hle, fun row' hrow' v hv => ?_⟩
    · split
      · exact le_max_left _ _
      · exact le_refl _
    · rcases List.mem_cons.mp hrow' with rfl | hrow'
      · refine le_trans ?_ hle
        rw [hv]
        exact le_max_right _ _
      · exact hrows row' hrow' v hv

theorem nonneg_largest (rows : List Tuple) (c : Nat) : 0 ≤ largest rows c :=
  (le_foldl_largest rows c 0).1

theorem le_largest {rows : List Tuple} {row : Tuple} (hrow : row ∈ rows) {c : Nat} {v : Int64}
    (hv : row.getD c .null = .int v) : v.toInt ≤ largest rows c :=
  (le_foldl_largest rows c 0).2 row hrow v hv

theorem autoStart_eq (rows : List (RecordID × Tuple)) (c : Nat) :
    autoStart rows c = Int64.ofInt (largest (rows.map Prod.snd) c + 1) := by
  rw [Int64.ofInt_add, autoStart, largest, show (0 : Int) = Int64.toInt 0 from rfl,
    ← foldl_largest rows c 0, Int64.ofInt_toInt]
  rfl

/-- The number that follows `n` after `k` numbers is positive as long as it is in range. -/
theorem pos_ofInt_iff {n : Int} (hn : 0 < n) (hle : n ≤ 2 ^ 63) : 0 < Int64.ofInt n ↔ n < 2 ^ 63 := by
  rw [Int64.lt_iff_toInt_lt, Int64.toInt_ofInt, Int.bmod_def]
  simp only [Int64.toInt_zero, Int64.size]
  omega

theorem largest_lt (rows : List Tuple) (c : Nat) : largest rows c < 2 ^ 63 := by
  have hfold : ∀ m : Int, m < 2 ^ 63 →
      rows.foldl (fun m row => match row.getD c .null with
        | .int v => max m v.toInt
        | _ => m) m < 2 ^ 63 := by
    induction rows with
    | nil => exact fun _ h => h
    | cons row rows ih =>
      intro m hm
      rw [List.foldl_cons]
      refine ih _ ?_
      split
      · exact max_lt hm (by have := Int64.toInt_lt ‹Int64›; omega)
      · exact hm
  exact hfold 0 (by omega)

/-! ## The first numbers of a statement -/

/-- The rows of a table that can be read. -/
def liveRows (db : Db) (schema : Schema) (t : TableId) : List Tuple :=
  (db.tables.fetched schema t).filterMap Except.toOption

theorem mem_liveRows {db : Db} {schema : Schema} {t : TableId} {row : Tuple} :
    row ∈ liveRows db schema t ↔
      ∃ bytes ∈ db.tables.rows t, Tuple.deserialize bytes schema = .ok row := by
  have hok : ∀ x : Except String Tuple, x.toOption = some row ↔ x = .ok row := by
    intro x
    cases x <;> simp [Except.toOption]
  simp only [liveRows, TableManager.fetched, TableManager.rows, List.mem_filterMap, List.mem_map,
    hok, Multiset.mem_coe]
  aesop

theorem map_snd_matchingRows {schema : Schema} {raws : List (RecordID × Bytes)}
    {rows : List (RecordID × Tuple)}
    (h : matchingRows schema (fun _ _ => true) raws = .ok rows) :
    rows.map Prod.snd =
      (raws.map fun raw => Tuple.deserialize raw.2 schema).filterMap Except.toOption := by
  induction raws generalizing rows with
  | nil =>
    cases h
    rfl
  | cons raw raws ih =>
    simp only [matchingRows, bind, Except.bind, pure, Except.pure, if_true] at h
    split at h
    · cases h
    rename_i one hone
    split at h
    · cases h
    rename_i rest hrest
    cases h
    have hraw := RowWriter.deserialize_of_deserializeRow hone
    rw [List.map_cons, List.map_cons, List.filterMap_cons, hraw, ih hrest]
    rfl

/-- What the scan before the loop reads is left as it is. -/
theorem run_startAuto {t : TableId} {schema : Schema} {s : Db} {rows : List (RecordID × Tuple)}
    (h : matchingRows schema (fun _ _ => true) (s.tables.tuples t) = .ok rows) (autos : List Nat) :
    (startAuto t schema autos).run s =
      (.ok (autos.map fun c => (c, autoStart rows c)), s) := by
  have hfold : ∀ acc : AutoNext,
      Exec.run (autos.foldlM (fun (acc : AutoNext) c => Prog.bind (scanRows t) fun rows =>
        Prog.bind (ofExcept (matchingRows schema (fun _ _ => true) rows)) fun rows =>
          Prog.ret (acc ++ [(c, autoStart rows c)])) acc) s =
        (.ok (acc ++ autos.map fun c => (c, autoStart rows c)), s) := by
    induction autos with
    | nil =>
      intro acc
      simp
    | cons c autos ih =>
      intro acc
      simp [List.foldlM_cons, h, ih]
  exact hfold []

theorem read_of_startAuto {t : TableId} {schema : Schema} {s s' : Db} {autos : List Nat}
    {autoNext : AutoNext} (hautos : autos ≠ [])
    (h : (startAuto t schema autos).run s = (.ok autoNext, s')) :
    ∃ rows, matchingRows schema (fun _ _ => true) (s.tables.tuples t) = .ok rows := by
  cases hread : matchingRows schema (fun _ _ => true) (s.tables.tuples t) with
  | ok rows => exact ⟨rows, rfl⟩
  | error e =>
    obtain ⟨c, autos, rfl⟩ := List.exists_cons_of_ne_nil hautos
    simp [startAuto, List.foldlM_cons, hread] at h

/-! ## One round -/

section

variable {node : InsertStatement} {ts : Option TableSchema} {schema : Schema} {idxs : List Index}
  {targets : List Nat} {st st' : InsertState} {provided : Tuple} {s s' : Db}

theorem autoNext_insertProvided
    (h : (insertProvided node ts schema idxs targets st provided).run s = (.ok st', s')) :
    st'.autoNext = (fillAuto st.autoNext (provide schema.length targets provided)).1 := by
  rw [insertProvided_eq] at h
  obtain ⟨found, s₁, -, h⟩ := run_bind_eq_ok.mp h
  rcases found with _ | ⟨c, exRid, exRow⟩
  · obtain ⟨_, s₂, -, h⟩ := run_bind_eq_ok.mp h
    obtain ⟨_, s₃, -, h⟩ := run_bind_eq_ok.mp h
    cases h
    rfl
  · simp only at h
    split at h
    · cases h
      rfl
    · obtain ⟨_, s₂, -, h⟩ := run_bind_eq_ok.mp h
      obtain ⟨_, s₃, -, h⟩ := run_bind_eq_ok.mp h
      obtain ⟨_, s₄, -, h⟩ := run_bind_eq_ok.mp h
      cases h
      rfl

/-- A row that replaces none is the one that the statement gives, with its numbers. -/
theorem insertWrite_some {w : Write}
    (h : ((insertWrite node ts schema idxs targets st provided).value? s).join = some w) :
    w.schema = schema ∧
      (w.replaced = none → w.new = insertedRow ts schema targets st.autoNext provided) := by
  obtain ⟨db', h⟩ := run_of_value?_join h
  obtain ⟨found, s₁, -, hrest⟩ := run_bind_eq_ok.mp h
  rcases found with _ | ⟨c, exRid, exRow⟩
  · obtain ⟨_, s₂, -, hcheck⟩ := run_bind_eq_ok.mp hrest
    obtain ⟨_, s₃, -, hret⟩ := run_bind_eq_ok.mp hcheck
    cases hret
    exact ⟨rfl, fun _ => rfl⟩
  · simp only at hrest
    split at hrest
    · cases hrest
    · obtain ⟨_, s₂, -, hcheck⟩ := run_bind_eq_ok.mp hrest
      obtain ⟨_, s₃, -, hlock⟩ := run_bind_eq_ok.mp hcheck
      obtain ⟨_, s₄, -, hget⟩ := run_bind_eq_ok.mp hlock
      obtain ⟨_, s₅, -, hret⟩ := run_bind_eq_ok.mp hget
      cases hret
      exact ⟨rfl, fun h => by cases h⟩

/-- The table gets the row that the round writes. -/
theorem handed_round
    (h : (insertProvided node ts schema idxs targets st provided).run s = (.ok st', s')) :
    (insertProvided node ts schema idxs targets st provided).handed s node.tableId =
      images schema (((insertWrite node ts schema idxs targets st provided).value? s).join.map
        Write.new).toList := by
  have hhanded := handed_insertProvided h
  rw [returned_insertProvided h] at hhanded
  unfold images at hhanded ⊢
  rw [List.map_append, ← Multiset.coe_add, add_comm] at hhanded
  exact add_left_cancel hhanded

end

end Exec

open Exec

/-! ## The loop -/

namespace InsertStatement

/-- A round of a PUT that is begun. -/
abbrev Round := InsertLoop × Db × InsertState × Tuple

section

variable (node : InsertStatement) (db : Db) (c : Nat)

/-- The round generates a value for the column. -/
def generatesIn (r : Round) : Bool :=
  generates (provide (db.catalog.loadSchema node.tableId).length r.1.targets r.2.2.2) c

/-- The row that the round writes, if it comes to that. -/
def writeOf (r : Round) : Option Write :=
  ((insertWrite node (db.catalog.getTableById node.tableId) (db.catalog.loadSchema node.tableId)
    r.1.idxs r.1.targets r.2.2.1 r.2.2.2).value? r.2.1).join

/-- The round goes to insert its row: no ON CONFLICT clause takes it elsewhere. -/
def Inserts (r : Round) : Prop :=
  (findConflict node.tableId (db.catalog.loadSchema node.tableId) node.onConflict
    (insertedRow (db.catalog.getTableById node.tableId) (db.catalog.loadSchema node.tableId)
      r.1.targets r.2.2.1.autoNext r.2.2.2)).value? r.2.1 = some none

/-- Whenever a row is to be inserted, the number generated for it is positive and no live row has
it. -/
def FreshNumbers : Prop :=
  ∀ r ∈ node.rounds db, node.Inserts db r → node.generatesIn db c r = true →
    ∀ n, (c, n) ∈ r.2.2.1.autoNext →
      0 < n ∧ ∀ row ∈ liveRows r.2.1 (db.catalog.loadSchema node.tableId) node.tableId,
        row.getD c .null ≠ .int n

/-- The round stores a row with the value `v`, which it did not generate. -/
def Brings (r : Round) (v : Int64) : Prop :=
  ∃ w ∈ node.writeOf db r, Fits (w.new.serialize w.schema) ∧ w.new.getD c .null = .int v ∧
    (w.replaced = none → node.generatesIn db c r = false)

/-- The number that comes after those of the rounds `before`. -/
def numberAfter (before : List Round) : Int :=
  largest (liveRows db (db.catalog.loadSchema node.tableId) node.tableId) c + 1 +
    before.countP (node.generatesIn db c)

/-- The numbers stay in range, and no round brings one that a later row gets. -/
def NumbersFree : Prop :=
  ∀ before r after, node.rounds db = before ++ r :: after → node.Inserts db r →
    node.generatesIn db c r = true → node.numberAfter db c before < 2 ^ 63 ∧
      ∀ r' ∈ before, ∀ v, node.Brings db c r' v → v.toInt ≠ node.numberAfter db c before

end

variable {node : InsertStatement} {db : Db} {c : Nat}

/-- What holds where a round begins, with the rounds `before` behind it. -/
structure Counted (node : InsertStatement) (db : Db) (ts : TableSchema) (c : Nat)
    (before : List Round) (st : InsertState) (s : Db) : Prop where
  wf : s.tables.WF
  keys : st.autoNext.map Prod.fst = autoColumns ts
  next : ∀ n, (c, n) ∈ st.autoNext → n = .ofInt (node.numberAfter db c before)
  rows : ∀ bytes ∈ s.tables.rows node.tableId, bytes ∈ db.tables.rows node.tableId ∨
    ∃ r ∈ before, ∃ w ∈ node.writeOf db r, Fits bytes ∧ bytes = w.new.serialize w.schema ∧
      ((w.replaced = none → node.generatesIn db c r = false) ∨
        ∃ k < before.countP (node.generatesIn db c),
          w.new.getD c .null = .int (.ofInt (node.numberAfter db c [] + k)))
  kept : node.onConflict = none → ∀ r ∈ before, ∀ w ∈ node.writeOf db r,
    Fits (w.new.serialize w.schema) → w.new.serialize w.schema ∈ s.tables.rows node.tableId

theorem numberAfter_eq (before : List Round) :
    node.numberAfter db c before =
      node.numberAfter db c [] + before.countP (node.generatesIn db c) := by
  simp [numberAfter]

theorem filterMap_sublist {α : Type} (p : α → Bool) (l : List (α × Nat)) :
    (l.filterMap fun x => if p x.1 then some x.2 else none).Sublist (l.map Prod.snd) := by
  induction l with
  | nil => exact .slnil
  | cons x l ih =>
    rw [List.filterMap_cons, List.map_cons]
    split
    · exact ih.cons _
    · rename_i d hd
      split at hd
      · cases hd
        exact ih.cons_cons _
      · cases hd

theorem autoColumns_sublist (ts : TableSchema) :
    (autoColumns ts).Sublist (List.range ts.columns.length) := by
  have h := filterMap_sublist ColumnSchema.autoIncrement ts.columns.zipIdx
  rw [List.zipIdx_map_snd, ← List.range_eq_range'] at h
  exact h

theorem nodup_autoColumns (ts : TableSchema) : (autoColumns ts).Nodup :=
  (autoColumns_sublist ts).nodup List.nodup_range

theorem lt_of_mem_autoColumns {ts : TableSchema} (hc : c ∈ autoColumns ts) :
    c < ts.columns.length :=
  List.mem_range.mp ((autoColumns_sublist ts).subset hc)

theorem length_loadSchema {ts : TableSchema}
    (hts : db.catalog.getTableById node.tableId = some ts) :
    (db.catalog.loadSchema node.tableId).length = ts.columns.length := by
  rw [Catalog.loadSchema, hts]
  simp [TableSchema.schema]

section

variable {ts : TableSchema} {before : List Round} {st st' : InsertState} {s s' : Db}
  {loop : InsertLoop} {provided : Tuple}

theorem numberAfter_snoc (r : Round) :
    node.numberAfter db c (before ++ [r]) =
      node.numberAfter db c before + if node.generatesIn db c r then 1 else 0 := by
  rw [numberAfter, numberAfter, List.countP_append, List.countP_singleton]
  split <;> simp [add_assoc]

/-- A number that is generated is the one that is next. -/
theorem Counted.generated (hts : db.catalog.getTableById node.tableId = some ts)
    (hc : c ∈ autoColumns ts) (h : Counted node db ts c before st s) {w : Write}
    (hw : w ∈ node.writeOf db (loop, s, st, provided)) (hreplaced : w.replaced = none)
    (hgen : node.generatesIn db c (loop, s, st, provided) = true) :
    w.new.getD c .null = .int (.ofInt (node.numberAfter db c before)) := by
  rw [← h.keys] at hc
  obtain ⟨e, he, rfl⟩ := List.mem_map.mp hc
  have hlt : e.1 < (db.catalog.loadSchema node.tableId).length := by
    rw [length_loadSchema hts]
    exact lt_of_mem_autoColumns (h.keys ▸ hc)
  have hnodup : (st.autoNext.map Prod.fst).Nodup := h.keys ▸ nodup_autoColumns ts
  have hnew := (insertWrite_some hw).2 hreplaced
  rw [hts] at hnew
  rw [hnew, getD_insertedRow hnodup he hlt, show generates _ _ = true from hgen, if_pos rfl,
    h.next _ he]

theorem Counted.round (hts : db.catalog.getTableById node.tableId = some ts)
    (hc : c ∈ autoColumns ts) (h : Counted node db ts c before st s)
    (hrun : (insertProvided node (db.catalog.getTableById node.tableId)
      (db.catalog.loadSchema node.tableId) loop.idxs loop.targets st provided).run s =
        (.ok st', s')) :
    Counted node db ts c (before ++ [(loop, s, st, provided)]) st' s' := by
  have hnodup : (st.autoNext.map Prod.fst).Nodup := h.keys ▸ nodup_autoColumns ts
  have hauto : st'.autoNext = advance st.autoNext
      (provide (db.catalog.loadSchema node.tableId).length loop.targets provided) := by
    rw [autoNext_insertProvided hrun]
    exact (fillAuto_eq hnodup ((length_provide _ _ _).trans (length_provide_snd _ _ _).symm)).1
  obtain ⟨hwf, hrows⟩ := rows_run h.wf (listed_insertProvided node _ _ _ _ st provided s)
    node.tableId
  rw [hrun, handed_round hrun] at hrows
  rw [hrun] at hwf
  have hcount : ∀ r, before.countP (node.generatesIn db c) ≤
      (before ++ [r]).countP (node.generatesIn db c) := fun r => by
    rw [List.countP_append]
    omega
  refine ⟨hwf, ?_, ?_, ?_, ?_⟩
  · rw [hauto, advance, List.map_map]
    exact h.keys
  · intro n hn
    rw [hauto] at hn
    obtain ⟨e, he, heq⟩ := List.mem_map.mp hn
    obtain ⟨rfl, rfl⟩ := Prod.mk.inj heq
    rw [numberAfter_snoc, h.next e.2 he]
    change (if generates _ e.1 then _ else _) = Int64.ofInt (_ + if generates _ e.1 then 1 else 0)
    split
    · rw [Int64.ofInt_add]
      rfl
    · rw [add_zero]
  · intro bytes hbytes
    have hmem : bytes ∈ s.tables.rows node.tableId ∨
        ∃ w ∈ node.writeOf db (loop, s, st, provided), Fits bytes ∧
          bytes = w.new.serialize w.schema := by
      have hle := Multiset.mem_add.mp (hrows ▸ Multiset.mem_add.mpr (.inl hbytes))
      refine hle.imp_right fun hnew => ?_
      obtain ⟨himage, hfits⟩ := Multiset.mem_filter.mp hnew
      obtain ⟨row, hrow, rfl⟩ := List.mem_map.mp (Multiset.mem_coe.mp himage)
      obtain ⟨w, hw, rfl⟩ := Option.map_eq_some_iff.mp (Option.mem_toList.mp hrow)
      exact ⟨w, hw, hfits, by rw [(insertWrite_some hw).1]⟩
    rcases hmem with hold | ⟨w, hw, hfits, hbytes⟩
    · refine (h.rows bytes hold).imp_right fun ⟨r, hr, w, hw, hfits, hbytes, hvalue⟩ => ?_
      refine ⟨r, List.mem_append_left _ hr, w, hw, hfits, hbytes, hvalue.imp_right ?_⟩
      exact fun ⟨k, hk, hnew⟩ => ⟨k, hk.trans_le (hcount _), hnew⟩
    · refine .inr ⟨_, List.mem_append_right _ (List.mem_singleton_self _), w, hw, hfits, hbytes, ?_⟩
      by_cases hgen : w.replaced = none ∧
          node.generatesIn db c (loop, s, st, provided) = true
      · refine .inr ⟨before.countP (node.generatesIn db c), ?_, ?_⟩
        · rw [List.countP_append, List.countP_singleton, hgen.2]
          simp
        · rw [h.generated hts hc hw hgen.1 hgen.2, numberAfter_eq before]
      · exact .inl fun hreplaced => Bool.not_eq_true _ ▸ fun hg => hgen ⟨hreplaced, hg⟩
  · intro hnone r hr w hw hfits
    have htaken := (RowWriter.adds_insertProvided hnone (db.catalog.getTableById node.tableId)
      (db.catalog.loadSchema node.tableId) loop.idxs loop.targets st provided).taken s node.tableId
    rw [htaken, Multiset.add_zero] at hrows
    rw [hrows]
    rcases List.mem_append.mp hr with hr | hr
    · exact Multiset.mem_add.mpr (.inl (h.kept hnone r hr w hw hfits))
    · obtain rfl := List.mem_singleton.mp hr
      refine Multiset.mem_add.mpr (.inr (Multiset.mem_filter.mpr ⟨?_, hfits⟩))
      refine Multiset.mem_coe.mpr (List.mem_map.mpr ⟨w.new, ?_, by rw [(insertWrite_some hw).1]⟩)
      exact Option.mem_toList.mpr (Option.map_eq_some_iff.mpr ⟨w, hw, rfl⟩)

/-- The numbers with which the loop begins. -/
theorem autoNext_insertSetup (hts : db.catalog.getTableById node.tableId = some ts)
    (hc : c ∈ autoColumns ts)
    (h : (insertSetup node db.catalog).run db.discardOutsideTxn = (.ok loop, s)) :
    s.tables = db.tables ∧ loop.autoNext = (autoColumns ts).map fun d =>
      (d, .ofInt (largest (liveRows db (db.catalog.loadSchema node.tableId) node.tableId) d + 1)) := by
  obtain ⟨_, s₁, hget, h⟩ := run_bind_eq_ok.mp h
  cases hget
  obtain ⟨rows, s₂, hrows, h⟩ := run_bind_eq_ok.mp h
  obtain ⟨autoNext, s₃, hauto, h⟩ := run_bind_eq_ok.mp h
  cases h
  rw [hts, Option.map_some, Option.getD_some] at hauto
  obtain ⟨found, hfound⟩ := read_of_startAuto (List.ne_nil_of_mem hc) hauto
  cases (run_startAuto hfound _).symm.trans hauto
  have htables := (offTables_providedRows node).tables_eq hrows
  refine ⟨htables, List.map_congr_left fun d _ => ?_⟩
  rw [autoStart_eq, map_snd_matchingRows hfound, htables]
  rfl

theorem Counted.start (hok : db.Ok) (hts : db.catalog.getTableById node.tableId = some ts)
    (hc : c ∈ autoColumns ts)
    (h : (insertSetup node db.catalog).run db.discardOutsideTxn = (.ok loop, s)) :
    Counted node db ts c [] { autoNext := loop.autoNext } s := by
  obtain ⟨htables, hauto⟩ := autoNext_insertSetup hts hc h
  refine ⟨htables ▸ hok.tables, ?_, ?_, ?_, ?_⟩
  · rw [hauto, List.map_map]
    exact List.map_id _
  · intro n hn
    rw [hauto] at hn
    obtain ⟨d, -, heq⟩ := List.mem_map.mp hn
    obtain ⟨rfl, rfl⟩ := Prod.mk.inj heq
    simp [numberAfter]
  · intro bytes hbytes
    rw [htables] at hbytes
    exact .inl hbytes
  · intro _ r hr
    cases hr

/-- Where a round begins, the rows are those of before the statement and those written since, and
the number is the one after those generated since. -/
theorem counted (hok : db.Ok) (hts : db.catalog.getTableById node.tableId = some ts)
    (hc : c ∈ autoColumns ts) {r : Round} {after : List Round}
    (h : node.rounds db = before ++ r :: after) :
    Counted node db ts c before r.2.2.1 r.2.1 := by
  unfold rounds at h
  generalize hsetup : (insertSetup node db.catalog).run db.discardOutsideTxn = out at h
  obtain ⟨outcome, s⟩ := out
  cases outcome with
  | error e => simp at h
  | ok loop =>
    obtain ⟨before', rest, hrounds, rfl, hrest⟩ := List.map_eq_append_iff.mp h
    obtain ⟨r', after', rfl, rfl, rfl⟩ := List.map_eq_cons_iff.mp hrest
    have hstart : Counted node db ts c (List.map (fun r => (loop, r)) [])
        { autoNext := loop.autoNext } s := .start hok hts hc hsetup
    refine Prog.rounds_history _ (I := fun pre st s =>
      Counted node db ts c (pre.map fun r => (loop, r)) st s) ?_ loop.provided hstart hrounds
    intro pre st s provided st' s' hpre hrun
    rw [List.map_append]
    exact hpre.round hts hc hrun

end

/-! ## When numbers are new -/

section

variable {ts : TableSchema} {before after : List Round} {r : Round}

theorem int_of_stored {x : Value} {v : Int64} (h : Tuple.stored .Int x = .int v)
    (hpos : 0 < v.toInt) : x = .int v := by
  cases x with
  | null => cases h
  | int n => exact h
  | bool b | text t | double bits =>
    cases h
    exact absurd hpos (lt_irrefl (0 : Int))

theorem numberAfter_pos (before : List Round) : 0 < node.numberAfter db c before := by
  have := nonneg_largest (liveRows db (db.catalog.loadSchema node.tableId) node.tableId) c
  unfold numberAfter
  omega

/-- The row of a write is read back with what is stored of its value. -/
theorem read_of_write (hok : db.Ok) (htype : (db.catalog.loadSchema node.tableId)[c]? = some .Int)
    (hr : r ∈ node.rounds db) {w : Write} (hw : w ∈ node.writeOf db r)
    (hfits : Fits (w.new.serialize w.schema)) : ∃ row,
      Tuple.deserialize (w.new.serialize w.schema) (db.catalog.loadSchema node.tableId) = .ok row ∧
        row.getD c .null = Tuple.stored .Int (w.new.getD c .null) := by
  have hwok := write_ok_of_insert hok (List.mem_filterMap.mpr ⟨r, hr, hw⟩)
  have hschema := (insertWrite_some hw).1
  have hlen := hwok.length
  have hbytes : (w.new.serialize w.schema).length < 2 ^ 32 := by
    have := hfits.2
    omega
  rw [hschema] at hlen hbytes ⊢
  exact ⟨_, Tuple.deserialize_serialize_eq hlen hbytes, Tuple.getD_storedRow hlen htype⟩

/-- Every row that can be read where a round begins was there before the statement or has been
written by a round before. -/
theorem value_of_live (hok : db.Ok) (hts : db.catalog.getTableById node.tableId = some ts)
    (hc : c ∈ autoColumns ts) (htype : (db.catalog.loadSchema node.tableId)[c]? = some .Int)
    (h : node.rounds db = before ++ r :: after) {row : Tuple}
    (hrow : row ∈ liveRows r.2.1 (db.catalog.loadSchema node.tableId) node.tableId) {v : Int64}
    (hv : row.getD c .null = .int v) (hpos : 0 < v.toInt) :
    v.toInt < node.numberAfter db c [] ∨ (∃ r' ∈ before, node.Brings db c r' v) ∨
      ∃ k < before.countP (node.generatesIn db c),
        v = .ofInt (node.numberAfter db c [] + k) := by
  obtain ⟨bytes, hbytes, hd⟩ := mem_liveRows.mp hrow
  rcases (counted hok hts hc h).rows bytes hbytes with hold | ⟨r', hr', w, hw, hfits, rfl, hvalue⟩
  · have hle := le_largest (mem_liveRows.mpr ⟨bytes, hold, hd⟩) hv
    exact .inl (by simp only [numberAfter, List.countP_nil]; omega)
  · have hround : r' ∈ node.rounds db := h ▸ List.mem_append_left _ hr'
    obtain ⟨row', hd', hrow'⟩ := read_of_write hok htype hround hw hfits
    cases hd.symm.trans hd'
    have hnew := int_of_stored (hrow'.symm.trans hv) hpos
    refine .inr (hvalue.imp (fun hown => ⟨r', hr', w, hw, hfits, hnew, hown⟩) ?_)
    exact fun ⟨k, hk, hgen⟩ => ⟨k, hk, Value.int.inj (hnew.symm.trans hgen)⟩

theorem freshNumbers_of_free (hok : db.Ok)
    (hts : db.catalog.getTableById node.tableId = some ts) (hc : c ∈ autoColumns ts)
    (htype : (db.catalog.loadSchema node.tableId)[c]? = some .Int)
    (hfree : node.NumbersFree db c) : node.FreshNumbers db c := by
  intro r hr hinserts hgen n hn
  obtain ⟨before, after, h⟩ := List.append_of_mem hr
  obtain ⟨hlt, hbrings⟩ := hfree before r after h hinserts hgen
  have hnext := (counted hok hts hc h).next n hn
  have hpos := @numberAfter_pos node db c before
  have hint : n.toInt = node.numberAfter db c before := by
    rw [hnext, Int64.toInt_ofInt_of_le (by omega) hlt]
  refine ⟨hnext ▸ (pos_ofInt_iff hpos hlt.le).mpr hlt, fun row hrow hv => ?_⟩
  have hafter := @numberAfter_eq node db c before
  have hstart := @numberAfter_pos node db c []
  rcases value_of_live hok hts hc htype h hrow hv (hint ▸ hpos) with hold | ⟨r', hr', hown⟩ |
    ⟨k, hk, hgenerated⟩
  · omega
  · exact hbrings r' hr' n hown hint
  · have hk' := congrArg Int64.toInt hgenerated
    rw [Int64.toInt_ofInt_of_le (by omega) (by omega)] at hk'
    omega

theorem inserts_of_none (hnone : node.onConflict = none) (r : Round) : node.Inserts db r := by
  unfold Inserts findConflict
  rw [hnone]
  rfl

theorem exists_last {α : Type} (p : α → Bool) {k : Nat} (l : List α) (h : l.countP p = k + 1) :
    ∃ before x after, l = before ++ x :: after ∧ p x = true ∧ before.countP p = k := by
  induction l using List.reverseRecOn with
  | nil => simp at h
  | append_singleton l x ih =>
    rw [List.countP_append, List.countP_singleton] at h
    by_cases hx : p x = true
    · rw [if_pos hx] at h
      exact ⟨l, x, [], rfl, hx, by omega⟩
    · rw [if_neg hx] at h
      obtain ⟨before, y, after, rfl, hy, hk⟩ := ih (by omega)
      exact ⟨before, y, after ++ [x], by simp, hy, hk⟩

/-- If all numbers are positive, none has wrapped around. -/
theorem number_lt_of_fresh (hok : db.Ok)
    (hts : db.catalog.getTableById node.tableId = some ts) (hc : c ∈ autoColumns ts)
    (hnone : node.onConflict = none) (hfresh : node.FreshNumbers db c) {k : Nat} :
    ∀ {before r after}, node.rounds db = before ++ r :: after →
      node.generatesIn db c r = true → before.countP (node.generatesIn db c) = k →
        node.numberAfter db c before < 2 ^ 63 := by
  have hpositive : ∀ {before r after}, node.rounds db = before ++ r :: after →
      node.generatesIn db c r = true → 0 < Int64.ofInt (node.numberAfter db c before) := by
    intro before r after h hgen
    have hcounted := counted hok hts hc h
    obtain ⟨e, he, rfl⟩ := List.mem_map.mp (hcounted.keys ▸ hc)
    rw [← hcounted.next e.2 he]
    exact (hfresh r (h ▸ by simp) (inserts_of_none hnone r) hgen e.2 he).1
  induction k with
  | zero =>
    intro before r after h hgen hk
    refine (pos_ofInt_iff (numberAfter_pos before) ?_).mp (hpositive h hgen)
    have := largest_lt (liveRows db (db.catalog.loadSchema node.tableId) node.tableId) c
    rw [numberAfter, hk]
    omega
  | succ k ih =>
    intro before r after h hgen hk
    obtain ⟨before', r', rest, rfl, hgen', hk'⟩ := exists_last _ before hk
    have hlt := ih (h.trans (List.append_assoc _ _ _)) hgen' hk'
    refine (pos_ofInt_iff (numberAfter_pos _) ?_).mp (hpositive h hgen)
    rw [numberAfter_eq] at hlt ⊢
    rw [hk'] at hlt
    rw [hk]
    push_cast
    omega

theorem free_of_freshNumbers (hok : db.Ok)
    (hts : db.catalog.getTableById node.tableId = some ts) (hc : c ∈ autoColumns ts)
    (htype : (db.catalog.loadSchema node.tableId)[c]? = some .Int)
    (hnone : node.onConflict = none) (hfresh : node.FreshNumbers db c) :
    node.NumbersFree db c := by
  intro before r after h hinserts hgen
  have hlt := number_lt_of_fresh hok hts hc hnone hfresh h hgen rfl
  refine ⟨hlt, ?_⟩
  rintro r' hr' v ⟨w, hw, hfits, hnew, -⟩ heq
  have hcounted := counted hok hts hc h
  obtain ⟨e, he, rfl⟩ := List.mem_map.mp (hcounted.keys ▸ hc)
  obtain ⟨row, hd, hrow⟩ := read_of_write hok htype (h ▸ List.mem_append_left _ hr') hw hfits
  have hlive := hcounted.kept hnone r' hr' w hw hfits
  refine (hfresh r (h ▸ by simp) hinserts hgen e.2 he).2 row (mem_liveRows.mpr ⟨_, hlive, hd⟩) ?_
  have hv : v = e.2 := by
    rw [hcounted.next e.2 he, ← heq, Int64.ofInt_toInt]
  rw [hrow, hnew, ← hv]
  rfl

/-- The generated numbers are positive and new if they stay in range and no round brings one that
a later row gets; without ON CONFLICT only then. -/
theorem freshNumbers_iff (hok : db.Ok) (hts : db.catalog.getTableById node.tableId = some ts)
    (hc : c ∈ autoColumns ts) (htype : (db.catalog.loadSchema node.tableId)[c]? = some .Int) :
    (node.NumbersFree db c → node.FreshNumbers db c) ∧
      (node.onConflict = none → (node.FreshNumbers db c ↔ node.NumbersFree db c)) :=
  ⟨freshNumbers_of_free hok hts hc htype, fun hnone =>
    ⟨free_of_freshNumbers hok hts hc htype hnone, freshNumbers_of_free hok hts hc htype⟩⟩

end

/-! ## Numbers that are not new -/

/-- A table of one column that counts. -/
def counter : TableSchema where
  tableId := 1
  name := "t"
  columns := [{ name := "a", type := .Int, autoIncrement := true }]

def counterDb : Db := .init { tables := [counter], nodup := by simp } []

theorem ok_counterDb : counterDb.Ok := Db.Ok.init _ (by simp [IndexManager.shape]) (by simp)

/-- PUT of one row for each value. -/
def putValues (values : List Value) : InsertStatement where
  tableId := 1
  rows := values.map fun v => [fun _ => v]

/-- PUT (7), (NULL). -/
theorem freshNumbers_putSeven : (putValues [.int 7, .null]).FreshNumbers counterDb 0 := by
  refine (@freshNumbers_iff (putValues [.int 7, .null]) counterDb 0 counter ok_counterDb rfl
    (by decide) rfl).1 ?_
  intro before r after h _ _
  have hlen : before.length + (after.length + 1) = 2 := by
    rw [← List.length_cons, ← List.length_append, ← h]
    decide +kernel
  have hone : (putValues [.int 7, .null]).numberAfter counterDb 0 [] = 1 := by decide +kernel
  have hcount := List.countP_le_length
    (p := (putValues [.int 7, .null]).generatesIn counterDb 0) (l := before)
  rw [numberAfter_eq, hone]
  refine ⟨by omega, ?_⟩
  rintro r' hr' v ⟨w, hw, -, hnew, -⟩ hv
  cases before with
  | nil => cases hr'
  | cons r₁ before =>
    rw [List.length_cons] at hlen
    obtain rfl : before = [] := List.eq_nil_of_length_eq_zero (by omega)
    obtain rfl := List.mem_singleton.mp hr'
    have hfirst : (((putValues [.int 7, .null]).rounds counterDb).head?.bind
        ((putValues [.int 7, .null]).writeOf counterDb)).map Write.new = some [.int 7] := by
      decide +kernel
    rw [h, List.cons_append, List.head?_cons, Option.bind_some, Option.mem_def.mp hw] at hfirst
    rw [Option.some.inj hfirst] at hnew
    cases hnew
    rw [List.length_singleton] at hcount
    change (7 : Int) = _ at hv
    omega

/-- PUT (1), (NULL): the number of the second row is that of the first. -/
theorem not_freshNumbers_putOne : ¬(putValues [.int 1, .null]).FreshNumbers counterDb 0 := by
  intro h
  have hround : ((putValues [.int 1, .null]).rounds counterDb).any (fun r =>
      (putValues [.int 1, .null]).generatesIn counterDb 0 r && r.2.2.1.autoNext == [(0, 1)] &&
        (liveRows r.2.1 [.Int] 1).contains [.int 1]) = true := by
    decide +kernel
  obtain ⟨r, hr, hall⟩ := List.any_eq_true.mp hround
  simp only [Bool.and_eq_true, beq_iff_eq, List.contains_iff_mem] at hall
  obtain ⟨⟨hgen, hauto⟩, hlive⟩ := hall
  exact (h r hr (inserts_of_none rfl r) hgen 1 (hauto ▸ List.mem_singleton_self _)).2 _ hlive rfl

end InsertStatement

end Relite.Vm
