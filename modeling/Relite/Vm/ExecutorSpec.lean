import Relite.Vm.RowSpec
import Relite.Vm.Writes

/-!
# Statements are made of row steps

`RowRules` are the proof rules for a property of databases that each row step preserves.
A statement then preserves it as a whole, at whichever point it throws: `exec_keeps`
walks through the loops, the checks and the referential actions once for all such
properties.
-/
namespace Relite.Vm
open Lib Semantic Txn

/-- A property that row steps preserve, with what it needs to know of a row that was read,
and of the calls that write rows. `Start` is what holds before the statement drops what is
staged. -/
structure RowRules where
  Start : Db → Prop
  Inv : Db → Prop
  Seen : Db → TableId → RecordID → Bytes → Prop
  Given : Db.Origin → Db → Call → Prop
  start_lock : ∀ {db : Db} (rid : RecordID) (mode : LockMode), db.Ok → Start db →
    Start { db with locks := db.grantInTxn rid mode }
  start : ∀ {db : Db}, db.Ok → Start db → Inv db.discardOutsideTxn
  seen_heap : ∀ {db : Db} {t : TableId} {rid : RecordID} {b : Bytes}, db.Ok → Inv db →
    db.tables.heap t rid = some b → Seen db t rid b
  step : ∀ {db db' : Db}, db.Ok → Inv db → Db.RowStep Given (Seen db) db db' →
    Inv db' ∧ ∀ t rid b, db.tables.Found t rid b → Seen db t rid b → Seen db' t rid b

namespace Exec

variable {α β : Type}

abbrev Sat (F : Frame Db Call) (db : Db) (x : Exec α) (Q : α → Db → Prop) : Prop :=
  F.Sat (fun (c : Call) db => c.apply db) db x Q

/-- A program that only reads keeps every invariant. -/
theorem ReadOnly.sat {F : Frame Db Call} {db : Db} {x : Exec α} {Q : α → Db → Prop}
    (hx : ReadOnly x) (hinv : F.Inv db) (hq : ∀ a, (x.run db).1 = .ok a → Q a db) :
    Sat F db x Q := by
  have h := hx.run_eq db
  unfold Exec.run at h hq
  intro _
  rw [h]
  exact ⟨hinv, F.refl db, .of_makes hx fun _ _ hc => hc.elim, hq⟩

end Exec

/-! ## The frames of a statement -/

namespace RowRules

variable (R : RowRules)

/-- Up to the point where the statement drops what is staged. -/
def before : Frame Db Call where
  Inv db := db.Ok ∧ R.Start db
  Ext := Db.Extends
  refl := .refl
  trans := .trans
  Given _ _ := True
  Good db c := c.Listed db

/-- From there on, where all calls are as given. -/
def during (G : Db → Call → Prop) : Frame Db Call where
  Inv db := db.Ok ∧ R.Inv db
  Ext db db' := Db.Extends db db' ∧
    ∀ t rid b, db.tables.Found t rid b → R.Seen db t rid b → R.Seen db' t rid b
  refl db := ⟨.refl db, fun _ _ _ _ h => h⟩
  trans h h' := ⟨h.1.trans h'.1, fun t rid b hf hs =>
    h'.2 t rid b (hf.later h.1.tables) (h.2 t rid b hf hs)⟩
  Given := G
  Good db c := c.Listed db

/-- In a removal and in referential actions. -/
abbrev acting : Frame Db Call := R.during (R.Given Db.Origin.unchecked)

/-- A row of the table that was read, as bytes. -/
def Raw (t : TableId) (row : RecordID × Bytes) (db : Db) : Prop :=
  db.tables.Found t row.1 row.2 ∧ R.Seen db t row.1 row.2 ∧
    Tuple.Canonical (db.catalog.loadSchema t) row.2

/-- The same row as a tuple. -/
def Read (t : TableId) (row : RecordID × Tuple) (db : Db) : Prop :=
  row.2.length = (db.catalog.loadSchema t).length ∧
    db.tables.Found t row.1 (row.2.serialize (db.catalog.loadSchema t)) ∧
    R.Seen db t row.1 (row.2.serialize (db.catalog.loadSchema t))

variable {R} {G : Db → Call → Prop} {t : TableId} {db : Db}

theorem stable_raw (row : RecordID × Bytes) : (R.during G).Stable (R.Raw t row) := by
  intro s s' _ hext ⟨hfound, hseen, hcan⟩
  exact ⟨hfound.later hext.1.tables, hext.2 _ _ _ hfound hseen, hext.1.catalog ▸ hcan⟩

theorem stable_read (row : RecordID × Tuple) : (R.during G).Stable (R.Read t row) := by
  intro s s' _ hext ⟨hlen, hfound, hseen⟩
  unfold Read
  rw [hext.1.catalog]
  exact ⟨hlen, hfound.later hext.1.tables, hext.2 _ _ _ hfound hseen⟩

theorem stable_indexesOf (idxs : List Index) : (R.during G).Stable (IndexesOf t idxs) :=
  fun _ _ _ hext h => h.congr hext.1.signatures

theorem stable_catalog (P : Catalog → Prop) : (R.during G).Stable fun db => P db.catalog := by
  intro s s' _ hext h
  exact hext.1.catalog ▸ h

theorem raw_of_heap (hinv : (R.during G).Inv db) {row : RecordID × Bytes}
    (hb : db.tables.heap t row.1 = some row.2) : R.Raw t row db :=
  ⟨hinv.1.tables.found hb, R.seen_heap hinv.1 hinv.2 hb, hinv.1.canonical t _ _ hb⟩

theorem raw_of_tuples (hinv : (R.during G).Inv db) : ∀ row ∈ db.tables.tuples t, R.Raw t row db :=
  fun _ h => raw_of_heap hinv (TableManager.mem_tuples.mp h)

theorem Raw.read {row : RecordID × Bytes} (h : R.Raw t row db) {row' : RecordID × Tuple}
    (hd : Exec.deserializeRow (db.catalog.loadSchema t) row = .ok row') : R.Read t row' db := by
  simp only [Exec.deserializeRow, bind, Except.bind, pure, Except.pure] at hd
  split at hd
  · cases hd
  · rename_i u hu
    cases hd
    obtain ⟨hfound, hseen, hcan⟩ := h
    refine ⟨Tuple.length_deserialize hu, ?_, ?_⟩ <;> rw [hcan.serialize_eq hu] <;> assumption

end RowRules

namespace Exec

variable {α β : Type}

theorem matchingRows_spec {schema : Schema} {p : RecordID → Tuple → Bool} :
    ∀ {rows : List (RecordID × Bytes)} {found : List (RecordID × Tuple)},
      matchingRows schema p rows = .ok found →
      ∀ row' ∈ found, ∃ row ∈ rows, deserializeRow schema row = .ok row' := by
  intro rows
  induction rows with
  | nil =>
    rintro found h row' hrow'
    cases h
    cases hrow'
  | cons row rows ih =>
    intro found h row' hrow'
    simp only [matchingRows, bind, Except.bind, pure, Except.pure] at h
    split at h
    · cases h
    rename_i one hone
    split at h
    · cases h
    rename_i rest hrest
    cases h
    have hrec : row' ∈ rest → ∃ r ∈ row :: rows, deserializeRow schema r = .ok row' := fun hm => by
      obtain ⟨r, hr, hd⟩ := ih hrest row' hm
      exact ⟨r, by simp [hr], hd⟩
    split at hrow'
    · rcases List.mem_cons.mp hrow' with rfl | hm
      · exact ⟨row, by simp, hone⟩
      · exact hrec hm
    · exact hrec hrow'

theorem anyRow_spec {schema : Schema} {p : RecordID → Tuple → Bool} :
    ∀ {rows : List (RecordID × Bytes)} {row' : RecordID × Tuple},
      anyRow schema p rows = .ok (some row') →
      ∃ row ∈ rows, deserializeRow schema row = .ok row' := by
  intro rows
  induction rows with
  | nil => rintro row' h; cases h
  | cons row rows ih =>
    intro row' h
    simp only [anyRow, bind, Except.bind, pure, Except.pure] at h
    split at h
    · cases h
    rename_i one hone
    split at h
    · cases h
      exact ⟨row, by simp, hone⟩
    · obtain ⟨r, hr, hd⟩ := ih h
      exact ⟨r, by simp [hr], hd⟩

/-! ## Row steps in a frame -/

section Steps

variable {R : RowRules} {G : Db → Call → Prop} {t : TableId} {db : Db}

theorem sat_step {db' : Db} {x : Exec α} {a : α} {Q : α → Db → Prop} (hinv : (R.during G).Inv db)
    (hrun : x.run db = (.ok a, db')) (hlisted : AllListed x db)
    (hstep : Prog.All (fun (c : Call) db => c.apply db) G x db →
      Db.RowStep R.Given (R.Seen db) db db') (hq : Q a db') : Sat (R.during G) db x Q := by
  refine Frame.Sat.of_run hrun (fun hgiven => ?_) hlisted hq
  obtain ⟨hok, hext⟩ := (hstep hgiven).ok hinv.1
  obtain ⟨hinv', hseen⟩ := R.step hinv.1 hinv.2 (hstep hgiven)
  exact ⟨⟨hok, hinv'⟩, ⟨hext, hseen⟩⟩

theorem sat_lock (hinv : (R.during G).Inv db) (rid : RecordID) (exclusive : Bool) :
    Sat (R.during G) db (lockInTxn rid exclusive) fun _ _ => True :=
  sat_step hinv (run_lockInTxn hinv.1.only rid exclusive)
    ((offTables_lockInTxn rid exclusive).listed db) (fun _ => .lock rid _) trivial

theorem sat_lock_before (hinv : R.before.Inv db) (rid : RecordID) (exclusive : Bool) :
    Sat R.before db (lockInTxn rid exclusive) fun _ _ => True :=
  Frame.Sat.of_run (run_lockInTxn hinv.1.only rid exclusive)
    (fun _ => ⟨⟨hinv.1.lock rid _, R.start_lock rid _ hinv.1 hinv.2⟩, ⟨.refl _, rfl, rfl, rfl, rfl⟩⟩)
    ((offTables_lockInTxn rid exclusive).listed db) trivial

/-- A query takes locks, and then returns or throws. -/
theorem sat_query {F : Frame Db Call}
    (hlock : ∀ db rid exclusive, F.Inv db → Sat F db (lockInTxn rid exclusive) fun _ _ => True)
    (hinv : F.Inv db) (q : Query α) : Sat F db (query q) fun _ _ => True := by
  refine Frame.Sat.get_bind ?_
  refine Frame.Sat.bind (Frame.Sat.forM (P := fun _ _ => True) (fun _ _ _ _ _ _ => trivial)
    (fun rid s' hinv' _ => hlock s' rid false hinv') _ hinv fun _ _ => trivial) ?_
  exact fun _ s' hinv' _ _ => (readOnly_ofExcept _).sat hinv' fun _ _ => trivial

theorem sat_insertRow {idxs : List Index} {row : Tuple} {origin : Db.Origin}
    (hinv : (R.during G).Inv db) (hidxs : IndexesOf t idxs db)
    (hrow : row.length = (db.catalog.loadSchema t).length)
    (hpassed : origin.Passed t none row db)
    (hmeets : Db.Meets R.Given origin
      (insertRow t idxs row (row.serialize (db.catalog.loadSchema t))) db) :
    Sat (R.during G) db (insertRow t idxs row (row.serialize (db.catalog.loadSchema t)))
      fun _ _ => True :=
  sat_step hinv (run_insertRow hinv.1.only t idxs row _) (listed_insertRow _ _ _ _ _)
    (fun _ => .insert t idxs row origin hidxs hrow hpassed hmeets) trivial

theorem sat_eraseRow {idxs : List Index} {row : RecordID × Tuple} (staged : Bool)
    (hinv : R.acting.Inv db) (hidxs : IndexesOf t idxs db) (hrow : R.Read t row db) :
    Sat R.acting db (eraseRow t idxs row.1 row.2 (row.2.serialize (db.catalog.loadSchema t)) staged)
      fun _ _ => True :=
  sat_step hinv (run_eraseRow db t idxs row.1 row.2 _ staged) (listed_eraseRow _ _ _ _ _ _ _)
    (fun hgiven => .erase t idxs row.1 row.2 staged hidxs hrow.1 hrow.2.1 hrow.2.2 hgiven) trivial

theorem sat_rewriteRow {idxs : List Index} (row : RecordID × Tuple) {new : Tuple}
    (origin : Db.Origin) (staged : Bool) (hinv : (R.during G).Inv db)
    (hidxs : IndexesOf t idxs db) (hrow : R.Read t row db) (hnew : new.length = row.2.length)
    (hpassed : origin.Passed t (some row.1) new db)
    (hmeets : Prog.All (fun (c : Call) db => c.apply db) G
        (rewriteRow t idxs row.1 row.2 new (db.catalog.loadSchema t) staged) db →
      Db.Meets R.Given origin
        (rewriteRow t idxs row.1 row.2 new (db.catalog.loadSchema t) staged) db) :
    Sat (R.during G) db (rewriteRow t idxs row.1 row.2 new (db.catalog.loadSchema t) staged)
      fun _ _ => True :=
  sat_step hinv (run_rewriteRow hinv.1.only t idxs row.1 row.2 new _ staged)
    (listed_rewriteRow _ _ _ _ _ hrow.2.1.listed)
    (fun hgiven => .rewrite t idxs row.1 row.2 new staged origin hidxs hrow.1 (hnew.trans hrow.1)
      hrow.2.1 hrow.2.2 hpassed (hmeets hgiven)) trivial

/-- A row that a referential action rewrites. -/
theorem sat_rewriteRow_acting {idxs : List Index} {row : RecordID × Tuple} {new : Tuple}
    (staged : Bool) (hinv : R.acting.Inv db) (hidxs : IndexesOf t idxs db) (hrow : R.Read t row db)
    (hnew : new.length = row.2.length) :
    Sat R.acting db (rewriteRow t idxs row.1 row.2 new (db.catalog.loadSchema t) staged)
      fun _ _ => True :=
  sat_rewriteRow row .unchecked staged hinv hidxs hrow hnew trivial id

/-! ## Reading rows -/

theorem sat_scanRows (hinv : (R.during G).Inv db) (t : TableId) :
    Sat (R.during G) db (scanRows t) fun rows db' => ∀ row ∈ rows, R.Raw t row db' := by
  exact Frame.Sat.get_bind (Frame.Sat.ret hinv (RowRules.raw_of_tuples hinv))

theorem sat_indexRows (hinv : (R.during G).Inv db) {rids : List RecordID}
    (hrids : ∀ rid ∈ rids, db.indexes.Holds t rid) :
    Sat (R.during G) db (indexRows rids) fun rows db' => ∀ row ∈ rows, R.Raw t row db' := by
  refine Frame.Sat.get_bind (Frame.Sat.ret hinv fun row hrow => ?_)
  obtain ⟨rid, hrid, he⟩ := List.mem_filterMap.mp hrow
  obtain ⟨b, hb, rfl⟩ := Option.map_eq_some_iff.mp he
  exact RowRules.raw_of_heap hinv ((hinv.1.indexed t rid (hrids rid hrid)).listed hb)

/-- What a list of rows that have been read satisfies, in this state and in later ones. -/
abbrev AllRead (R : RowRules) (t : TableId) (rows : List (RecordID × Tuple)) (db : Db) : Prop :=
  ∀ row ∈ rows, R.Read t row db

theorem stable_allRead (rows : List (RecordID × Tuple)) : (R.during G).Stable (AllRead R t rows) :=
  fun s s' hinv hext h row hrow => RowRules.stable_read row s s' hinv hext (h row hrow)

theorem AllRead.snoc {rows : List (RecordID × Tuple)} {row : RecordID × Tuple}
    (h : AllRead R t rows db) (hrow : R.Read t row db) : AllRead R t (rows ++ [row]) db := by
  intro r hr
  rcases List.mem_append.mp hr with hr | hr
  · exact h r hr
  · exact List.mem_singleton.mp hr ▸ hrow

/-- Reading one row does not change the state. -/
theorem sat_deserializeRow (hinv : (R.during G).Inv db) {row : RecordID × Bytes}
    (hrow : R.Raw t row db) :
    Sat (R.during G) db (ofExcept (deserializeRow (db.catalog.loadSchema t) row))
      fun row' db' => db' = db ∧ R.Read t row' db' :=
  (readOnly_ofExcept _).sat hinv fun row' hd => ⟨rfl, hrow.read (by simpa using hd)⟩

theorem sat_clauseRows (hinv : (R.during G).Inv db) (when? : Option Where)
    (hheld : ∀ w ∈ when?, ∀ im rids, w.2 im = some rids → ∀ rid ∈ rids, im.Holds t rid) :
    Sat (R.during G) db (clauseRows t when?) fun rows db' => ∀ row ∈ rows, R.Raw t row db' := by
  refine Frame.Sat.get_bind ?_
  split
  · rename_i rids hrids
    obtain ⟨w, hw, hr⟩ := Option.bind_eq_some_iff.mp hrids
    exact sat_indexRows hinv (hheld w hw _ rids hr)
  · exact sat_scanRows hinv t

/-- A loop over rows that were read as bytes, which collects rows that were read. -/
theorem sat_collect {f : List (RecordID × Tuple) → RecordID × Tuple →
      Exec (List (RecordID × Tuple))} {schema : Schema} {c : Catalog} (hschema : c.loadSchema t = schema)
    (hf : ∀ acc row s, (R.during G).Inv s → AllRead R t acc s → R.Read t row s →
      Sat (R.during G) s (f acc row) (AllRead R t)) (hinv : (R.during G).Inv db) (hc : db.catalog = c)
    {rows : List (RecordID × Bytes)} (hrows : ∀ row ∈ rows, R.Raw t row db) :
    Sat (R.during G) db (rows.foldlM (fun acc row =>
      Prog.bind (ofExcept (deserializeRow schema row)) (f acc)) []) (AllRead R t) := by
  subst hschema
  refine Frame.Sat.foldlM (P := fun row db' => R.Raw t row db' ∧ db'.catalog = c)
    (fun row a b hb hab h => ⟨RowRules.stable_raw row a b hb hab h.1, hab.1.catalog.trans h.2⟩)
    ?_ rows [] hinv (by simp) fun row hrow => ⟨hrows row hrow, hc⟩
  rintro acc row s hinv' hacc ⟨hrow, rfl⟩
  refine Frame.Sat.bind (sat_deserializeRow hinv' hrow) ?_
  rintro row' s' hinv'' - ⟨rfl, hread⟩
  exact hf acc row' s' hinv'' hacc hread

theorem sat_gatherRows (hinv : (R.during G).Inv db) {schema : Schema}
    (hschema : db.catalog.loadSchema t = schema) (when? : Option Where)
    (hheld : ∀ w ∈ when?, ∀ im rids, w.2 im = some rids → ∀ rid ∈ rids, im.Holds t rid) :
    Sat (R.during G) db (gatherRows t schema when?) (AllRead R t) := by
  refine Frame.Sat.bind (sat_clauseRows hinv when? hheld) fun rows s hinv' hext hrows => ?_
  refine sat_collect hschema (fun acc row s₁ hinv₁ hacc hrow => ?_) hinv' hext.1.catalog hrows
  split
  · refine Frame.Sat.bind (sat_lock hinv₁ _ _) fun _ s₂ hinv₂ hext₂ _ => ?_
    exact Frame.Sat.ret hinv₂ (AllRead.snoc (stable_allRead acc _ _ hinv₂ hext₂ hacc)
      (RowRules.stable_read row _ _ hinv₂ hext₂ hrow))
  · exact Frame.Sat.ret hinv₁ hacc

theorem sat_referencingRows (hinv : (R.during G).Inv db) {child : TableSchema}
    (hchild : child ∈ db.catalog.tables) (fk : ForeignKey) (value : Value) :
    Sat (R.during G) db (referencingRows child fk value) (AllRead R child.tableId) := by
  refine Frame.Sat.bind (Q := fun (rows : List (RecordID × Bytes)) db' =>
    (∀ row ∈ rows, R.Raw child.tableId row db') ∧ db'.catalog = db.catalog) ?_ ?_
  · exact (sat_scanRows hinv child.tableId).mono fun rows s _ hext h => ⟨h, hext.1.catalog⟩
  rintro rows s hinv' - ⟨hrows, hcat⟩
  have hschema : s.catalog.loadSchema child.tableId = child.schema :=
    Catalog.loadSchema_of_mem (hcat ▸ hchild)
  refine (readOnly_ofExcept _).sat hinv' fun found hfound row' hrow' => ?_
  obtain ⟨row, hrow, hd⟩ := matchingRows_spec (by simpa using hfound) row' hrow'
  exact (hrows row hrow).read (hschema ▸ hd)

/-! ## Referential actions -/

/-- What the loops over the rows of a child table keep in hand. -/
def ChildRow (R : RowRules) (child : TableSchema) (idxs : List Index) (row : RecordID × Tuple)
    (db : Db) : Prop :=
  child ∈ db.catalog.tables ∧ IndexesOf child.tableId idxs db ∧ R.Read child.tableId row db

theorem stable_childRow (child : TableSchema) (idxs : List Index) (row : RecordID × Tuple) :
    (R.during G).Stable (ChildRow R child idxs row) := by
  intro s s' hinv hext ⟨hmem, hidxs, hread⟩
  exact ⟨hext.1.catalog ▸ hmem, RowRules.stable_indexesOf idxs s s' hinv hext hidxs,
    RowRules.stable_read row s s' hinv hext hread⟩

theorem ChildRow.schema {child : TableSchema} {idxs : List Index} {row : RecordID × Tuple}
    (h : ChildRow R child idxs row db) : db.catalog.loadSchema child.tableId = child.schema :=
  Catalog.loadSchema_of_mem h.1

theorem sat_lock_childRow (hinv : (R.during G).Inv db) {child : TableSchema} {idxs : List Index}
    {row : RecordID × Tuple} (hrow : ChildRow R child idxs row db) :
    Sat (R.during G) db (lockInTxn row.1 true) fun _ => ChildRow R child idxs row :=
  (sat_lock hinv _ _).mono fun _ s hinv' hext _ => stable_childRow child idxs row db s hinv' hext hrow

/-- A loop over the catalog and its foreign keys that finds the rows of each child and
works on them. -/
theorem sat_forChildren {f : TableSchema → ForeignKey → Exec Unit} (hinv : (R.during G).Inv db)
    (hf : ∀ child fk s, (R.during G).Inv s → child ∈ s.catalog.tables →
      Sat (R.during G) s (f child fk) fun _ _ => True) :
    Sat (R.during G) db (Prog.bind Exec.get fun db => db.catalog.allTables.forM fun child =>
      child.foreignKeys.forM (f child)) fun _ _ => True := by
  refine Frame.Sat.get_bind ?_
  refine Frame.Sat.forM (P := fun child db => child ∈ db.catalog.tables)
    (fun child => RowRules.stable_catalog (child ∈ ·.tables)) (fun child s₁ hinv₁ hchild => ?_)
    _ hinv fun child h => h
  exact Frame.Sat.forM (P := fun _ db => child ∈ db.catalog.tables)
    (fun _ => RowRules.stable_catalog (child ∈ ·.tables))
    (fun fk s₂ hinv₂ hchild₂ => hf child fk s₂ hinv₂ hchild₂) _ hinv₁ fun _ _ => hchild

theorem sat_onReferencing {child : TableSchema} (hinv : (R.during G).Inv db)
    (hchild : child ∈ db.catalog.tables) (fk : ForeignKey) (value : Value)
    {act : List Index → List (RecordID × Tuple) → Exec Unit}
    (hact : ∀ idxs rows s, (R.during G).Inv s → (∀ row ∈ rows, ChildRow R child idxs row s) →
      Sat (R.during G) s (act idxs rows) fun _ _ => True) :
    Sat (R.during G) db (onReferencing child fk value act) fun _ _ => True := by
  refine Frame.Sat.get_bind ?_
  refine Frame.Sat.bind (sat_referencingRows hinv hchild fk value) fun rows s₁ hinv₁ hext₁ hrows => ?_
  split
  · exact Frame.Sat.ret hinv₁ trivial
  refine hact _ rows s₁ hinv₁ fun row hrow => ⟨hext₁.1.catalog ▸ hchild, ?_, hrows row hrow⟩
  exact RowRules.stable_indexesOf _ _ _ hinv₁ hext₁ (indexesOf_forTable db child.tableId)

theorem sat_applyReferentialActions (depth : Nat) :
    ∀ (parent : TableSchema) (parentRow : Tuple) {db : Db}, R.acting.Inv db →
      Sat R.acting db (applyReferentialActions depth parent parentRow) fun _ _ => True := by
  induction depth with
  | zero => exact fun _ _ db hinv => Frame.Sat.throw hinv _
  | succ depth ih =>
    intro parent parentRow db hinv
    refine sat_forChildren hinv fun child fk s hinv' hchild => ?_
    split
    · exact Frame.Sat.ret hinv' trivial
    refine sat_onReferencing hinv' hchild fk _ fun idxs rows s₁ hinv₁ hrows => ?_
    split
    · exact Frame.Sat.throw hinv₁ _
    · refine Frame.Sat.forM (stable_childRow child idxs) (fun row s₂ hinv₂ hrow => ?_) rows hinv₁ hrows
      refine Frame.Sat.bind (ih child row.2 hinv₂) fun _ s₃ hinv₃ hext₃ _ => ?_
      refine Frame.Sat.bind (sat_lock_childRow hinv₃
        (stable_childRow child idxs row s₂ s₃ hinv₃ hext₃ hrow)) fun _ s₄ hinv₄ _ hrow₄ => ?_
      rw [← hrow₄.schema]
      exact sat_eraseRow false hinv₄ hrow₄.2.1 hrow₄.2.2
    · refine Frame.Sat.forM (stable_childRow child idxs) (fun row s₂ hinv₂ hrow => ?_) rows hinv₁ hrows
      refine Frame.Sat.bind (sat_lock_childRow hinv₂ hrow) fun _ s₃ hinv₃ _ hrow₃ => ?_
      rw [← hrow₃.schema]
      exact sat_rewriteRow_acting false hinv₃ hrow₃.2.1 hrow₃.2.2 (by simp)

theorem sat_applyUpdateReferentialActions (depth : Nat) :
    ∀ (parent : TableSchema) (oldRow newRow : Tuple) {db : Db}, R.acting.Inv db →
      Sat R.acting db (applyUpdateReferentialActions depth parent oldRow newRow)
        fun _ _ => True := by
  induction depth with
  | zero => exact fun _ _ _ db hinv => Frame.Sat.throw hinv _
  | succ depth ih =>
    intro parent oldRow newRow db hinv
    refine sat_forChildren hinv fun child fk s hinv' hchild => ?_
    split
    · exact Frame.Sat.ret hinv' trivial
    simp only
    split
    · exact Frame.Sat.ret hinv' trivial
    refine sat_onReferencing hinv' hchild fk _ fun idxs rows s₁ hinv₁ hrows => ?_
    split
    · exact Frame.Sat.throw hinv₁ _
    refine Frame.Sat.forM (stable_childRow child idxs) (fun row s₂ hinv₂ hrow => ?_) rows hinv₁ hrows
    have hrest : ∀ new : Tuple, new.length = row.2.length → ∀ s₃, R.acting.Inv s₃ →
        ChildRow R child idxs row s₃ →
        Sat R.acting s₃ (Prog.bind (lockInTxn row.1 true) fun _ =>
          rewriteRow child.tableId idxs row.1 row.2 new child.schema true) fun _ _ => True := by
      intro new hnew s₃ hinv₃ hrow₃
      refine Frame.Sat.bind (sat_lock_childRow hinv₃ hrow₃) fun _ s₄ hinv₄ _ hrow₄ => ?_
      rw [← hrow₄.schema]
      exact sat_rewriteRow_acting true hinv₄ hrow₄.2.1 hrow₄.2.2 hnew
    split
    · refine Frame.Sat.bind (ih child row.2 _ hinv₂) fun _ s₃ hinv₃ hext₃ _ => ?_
      exact hrest _ (by simp) s₃ hinv₃ (stable_childRow child idxs row s₂ s₃ hinv₃ hext₃ hrow)
    · exact hrest _ (by simp) s₂ hinv₂ hrow

/-! ## Statements -/

theorem sat_query_during (hinv : (R.during G).Inv db) (q : Query α) :
    Sat (R.during G) db (query q) fun _ _ => True :=
  sat_query (fun _ rid exclusive hinv => sat_lock hinv rid exclusive) hinv q

theorem sat_bindWhen (hinv : (R.during G).Inv db) (w : Condition t) (materialized : Option Expression)
    (row : Tuple) : Sat (R.during G) db (bindWhen w materialized row) fun _ _ => True := by
  unfold bindWhen
  split
  · exact sat_query_during hinv _
  · exact Frame.Sat.ret hinv trivial

/-- One round of a loop that keeps the rows a correlated clause selects. -/
theorem sat_keepWhen (hinv : (R.during G).Inv db) (w : Condition t) (materialized : Option Expression)
    {acc : List (RecordID × Tuple)} {row : RecordID × Tuple} (hacc : AllRead R t acc db)
    (hrow : R.Read t row db) :
    Sat (R.during G) db (Prog.bind (bindWhen w materialized row.2) fun e =>
      Prog.ret (if predicateTrue e row.2 then acc ++ [row] else acc)) (AllRead R t) := by
  refine Frame.Sat.bind (sat_bindWhen hinv w materialized row.2) fun e s hinv' hext _ => ?_
  have hacc' := stable_allRead acc _ _ hinv' hext hacc
  refine Frame.Sat.ret hinv' ?_
  split
  · exact hacc'.snoc (RowRules.stable_read row _ _ hinv' hext hrow)
  · exact hacc'

theorem sat_scanWhen (hinv : (R.during G).Inv db) {schema : Schema}
    (hschema : db.catalog.loadSchema t = schema) (when? : Option (Condition t))
    (materialized : Option Expression) :
    Sat (R.during G) db (scanWhen t schema when? materialized) (AllRead R t) := by
  refine Frame.Sat.bind (sat_scanRows hinv t) fun rows s hinv' hext hrows => ?_
  refine sat_collect hschema (fun acc row s₁ hinv₁ hacc hrow => ?_) hinv' hext.1.catalog hrows
  split
  · exact Frame.Sat.ret hinv₁ (hacc.snoc hrow)
  · exact sat_keepWhen hinv₁ _ materialized hacc hrow

theorem sat_gatherWhen (hinv : (R.during G).Inv db) {schema : Schema}
    (hschema : db.catalog.loadSchema t = schema) (when? : Option (Condition t))
    (materialized : Option Expression) :
    Sat (R.during G) db (gatherWhen schema when? materialized) (AllRead R t) := by
  unfold gatherWhen
  split
  · exact sat_gatherRows hinv hschema none (by simp)
  rename_i w
  split
  · refine Frame.Sat.bind (sat_gatherRows hinv hschema none (by simp)) fun rows s hinv' _ hrows => ?_
    exact Frame.Sat.foldlM RowRules.stable_read
      (fun acc row s' hinv₁ hacc hrow => sat_keepWhen hinv₁ w materialized hacc hrow)
      rows [] hinv' (by simp) hrows
  · refine sat_gatherRows hinv hschema _ fun w' hw' im rids hrids => ?_
    cases hw'
    exact w.candidates_held im rids hrids

theorem mem_joinRows {e : Option Expression} {targetRows fromRows : List (RecordID × Tuple)}
    {row : RecordID × Tuple × Tuple} (h : row ∈ joinRows e targetRows fromRows) :
    (row.1, row.2.1) ∈ targetRows := by
  obtain ⟨target, htarget, he⟩ := List.mem_filterMap.mp h
  obtain ⟨fr, -, rfl⟩ := Option.map_eq_some_iff.mp he
  exact htarget

theorem sat_updateRows (hinv : (R.during G).Inv db) {node : UpdateStatement}
    (materialized : Option Expression) :
    Sat (R.during G) db (updateRows node db.catalog materialized) fun rows db' =>
      ∀ row ∈ rows, R.Read node.tableId (row.1, row.2.1) db' := by
  unfold updateRows
  simp only
  split
  · refine Frame.Sat.bind (sat_gatherRows hinv rfl none (by simp)) fun fromRows s hinv' hext _ => ?_
    refine Frame.Sat.bind (sat_gatherRows (t := node.tableId) hinv'
      (by rw [hext.1.catalog]) none (by simp)) fun targetRows s' hinv'' _ hrows => ?_
    exact Frame.Sat.ret hinv'' fun row hrow => hrows _ (mem_joinRows hrow)
  · refine Frame.Sat.bind (sat_gatherWhen hinv rfl node.when? materialized)
      fun rows s hinv' _ hrows => ?_
    refine Frame.Sat.ret hinv' fun row hrow => ?_
    obtain ⟨r, hr, rfl⟩ := List.mem_map.mp hrow
    exact hrows r hr

/-- What the loops of a statement over the rows of its table keep in hand. -/
def TargetRow (R : RowRules) (c : Catalog) (t : TableId) (idxs : List Index)
    (row : RecordID × Tuple) (db : Db) : Prop :=
  db.catalog = c ∧ IndexesOf t idxs db ∧ R.Read t row db

theorem stable_targetRow (c : Catalog) (idxs : List Index) (row : RecordID × Tuple) :
    (R.during G).Stable (TargetRow R c t idxs row) := by
  intro s s' hinv hext ⟨hcat, hidxs, hread⟩
  exact ⟨hext.1.catalog.trans hcat, RowRules.stable_indexesOf idxs s s' hinv hext hidxs,
    RowRules.stable_read row s s' hinv hext hread⟩

theorem sat_lock_targetRow (hinv : (R.during G).Inv db) {c : Catalog} {idxs : List Index}
    (row : RecordID × Tuple) (hrow : TargetRow R c t idxs row db) :
    Sat (R.during G) db (lockInTxn row.1 true) fun _ => TargetRow R c t idxs row :=
  (sat_lock hinv _ _).mono fun _ s hinv' hext _ => stable_targetRow c idxs row db s hinv' hext hrow

theorem sat_deleteRows (depth : Nat) (hinv : R.acting.Inv db) (node : DeleteStatement)
    (materialized : Option Expression) :
    Sat R.acting db (deleteRows depth node db.catalog materialized) fun _ _ => True := by
  refine Frame.Sat.get_bind ?_
  refine Frame.Sat.bind (sat_scanWhen hinv rfl node.when? materialized)
    fun victims s hinv' hext hrows => ?_
  have htarget : ∀ row ∈ victims, TargetRow R db.catalog node.tableId
      (db.indexes.forTable node.tableId) row s := fun row hrow =>
    ⟨hext.1.catalog, RowRules.stable_indexesOf _ _ _ hinv' hext
      (indexesOf_forTable db node.tableId), hrows row hrow⟩
  have herase : ∀ s₁, R.acting.Inv s₁ → (∀ row ∈ victims, TargetRow R db.catalog node.tableId
      (db.indexes.forTable node.tableId) row s₁) → Sat R.acting s₁
      (Prog.bind (victims.forM fun row => Prog.bind (lockInTxn row.1 true) fun _ =>
        eraseRow node.tableId (db.indexes.forTable node.tableId) row.1 row.2
          (row.2.serialize (db.catalog.loadSchema node.tableId)) true) fun _ => Prog.ret victims)
      fun _ _ => True := by
    intro s₁ hinv₁ hrows₁
    refine Frame.Sat.bind (Frame.Sat.forM (stable_targetRow _ _) (fun row s₂ hinv₂ hrow => ?_)
      victims hinv₁ hrows₁) fun _ s₂ hinv₂ _ _ => Frame.Sat.ret hinv₂ trivial
    refine Frame.Sat.bind (sat_lock_targetRow hinv₂ _ hrow) fun _ s₃ hinv₃ _ hrow₃ => ?_
    rw [← hrow₃.1]
    exact sat_eraseRow true hinv₃ hrow₃.2.1 hrow₃.2.2
  simp only
  split
  · rename_i ts _
    refine Frame.Sat.bind (Frame.Sat.forM (P := fun _ _ => True) (fun _ _ _ _ _ h => h)
      (fun row s₁ hinv₁ _ => sat_applyReferentialActions depth ts row.2 hinv₁) victims hinv'
      fun _ _ => trivial) fun _ s₁ hinv₁ hext₁ _ => ?_
    exact herase s₁ hinv₁ fun row hrow =>
      stable_targetRow _ _ row s s₁ hinv₁ hext₁ (htarget row hrow)
  · exact herase s hinv' htarget

/-- What no round of a loop changes, the loop does not change. -/
theorem foldl_keeps {γ δ : Type*} {f : β → γ → β} {g : β → δ} (h : ∀ b c, g (f b c) = g b)
    (l : List γ) (b : β) : g (l.foldl f b) = g b := by
  induction l generalizing b with
  | nil => rfl
  | cons c l ih => exact (ih _).trans (h b c)

@[simp] theorem length_assign (row : Tuple) (targets : List Nat) (values : List Expression)
    (source : Tuple) : (assign row targets values source).length = row.length :=
  foldl_keeps (g := List.length) (fun _ _ => by simp) _ _

theorem sat_checks (hinv : (R.during G).Inv db) (ts : Option TableSchema) (row : Tuple)
    (excludeRid : Option RecordID) :
    Sat (R.during G) db (checkRow ts t row excludeRid) fun _ db' => db' = db := by
  unfold checkRow
  split
  · exact ((readOnly_checkForeignKeys _ _).bind fun _ =>
      readOnly_enforceConstraints _ _ _ _).sat hinv fun _ _ => rfl
  · exact Frame.Sat.ret hinv rfl

/-- A row that has passed the checks in a state has passed them in later ones. -/
theorem passed_checked {db₀ : Db} {row : Tuple} {excludeRid : Option RecordID} (hok : db₀.Ok)
    (hext : Db.Extends db₀ db)
    (hcheck : (checkRow (db₀.catalog.getTableById t) t row excludeRid).run db₀ = (.ok (), db₀)) :
    (Db.Origin.checked db₀ row).Passed t excludeRid row db :=
  ⟨rfl, hext, hok, congrArg Prod.fst hcheck⟩

theorem sat_updateRow (depth : Nat) (hinv : (R.during G).Inv db) {node : UpdateStatement}
    {idxs : List Index} (returned : List Tuple) {row : RecordID × Tuple × Tuple}
    (hrow : TargetRow R db.catalog node.tableId idxs (row.1, row.2.1) db)
    (hactions : ∀ a, ((updateActions depth node (db.catalog.getTableById node.tableId)
      row).value? db).join = some a → Db.Meets R.Given .unchecked a.program a.before)
    (hwrites : ∀ w, (updateWrite depth node (db.catalog.getTableById node.tableId)
      (db.catalog.loadSchema node.tableId) idxs row).value? db = some w →
        Db.Meets R.Given (.checked w.checked w.new) w.program w.before) :
    Sat (R.during G) db (updateRow depth node (db.catalog.getTableById node.tableId)
      (db.catalog.loadSchema node.tableId) idxs returned row) fun _ _ => True := by
  obtain ⟨rid, old, matched⟩ := row
  rw [updateRow_eq]
  generalize hnew : assign old node.targetIndices node.values (old ++ matched) = new
  have hlen : new.length = old.length := by rw [← hnew]; simp
  refine Frame.Sat.bind_run (sat_lock_targetRow hinv _ hrow) fun _ s hlock hinv' hext hrow' => ?_
  refine Frame.Sat.bind_run (sat_checks hinv' (db.catalog.getTableById node.tableId) _ _) ?_
  rintro _ s₁ hcheck hinv₁ - rfl
  refine Frame.Sat.bind_run (Q := fun _ _ => True) ?_ fun _ s₂ hrun hinv₂ hext₂ _ => ?_
  · cases hts : db.catalog.getTableById node.tableId with
    | none => exact Frame.Sat.ret hinv₁ trivial
    | some ts =>
      rw [hts] at hcheck hactions
      exact (sat_applyUpdateReferentialActions depth ts old new (R := R) hinv₁).of_given
        (hactions _ (value?_updateActions hlock hnew hcheck))
  obtain ⟨hcat, hidxs, hread⟩ := stable_targetRow _ _ _ s₁ s₂ hinv₂ hext₂ hrow'
  have hmeets : Db.Meets R.Given (.checked s₁ new)
      (rewriteRow node.tableId idxs rid old new (db.catalog.loadSchema node.tableId) true) s₂ :=
    hwrites _ (value?_updateWrite hlock hnew hcheck hrun)
  rw [← hrow'.1] at hcheck
  rw [← hcat] at hmeets ⊢
  exact Frame.Sat.bind (sat_rewriteRow (rid, old) (.checked s₁ new) true hinv₂
    hidxs hread hlen (passed_checked hinv₁.1 hext₂.1 hcheck) fun _ => hmeets)
    fun _ s₃ hinv₃ _ _ => Frame.Sat.ret hinv₃ trivial

theorem sat_modifyRows (depth : Nat) (hinv : (R.during G).Inv db) (node : UpdateStatement)
    (materialized : Option Expression)
    (hrounds : ∀ rows s, (updateRows node db.catalog materialized).run db = (.ok rows, s) →
      ∀ r ∈ Prog.rounds (fun (c : Call) db => c.apply db)
          (updateRow depth node (db.catalog.getTableById node.tableId)
            (db.catalog.loadSchema node.tableId) (db.indexes.forTable node.tableId)) rows [] s,
        (∀ a, ((updateActions depth node (db.catalog.getTableById node.tableId)
          r.2.2).value? r.1).join = some a → Db.Meets R.Given .unchecked a.program a.before) ∧
        ∀ w, (updateWrite depth node (db.catalog.getTableById node.tableId)
          (db.catalog.loadSchema node.tableId) (db.indexes.forTable node.tableId) r.2.2).value? r.1 =
            some w → Db.Meets R.Given (.checked w.checked w.new) w.program w.before) :
    Sat (R.during G) db (modifyRows depth node db.catalog materialized) fun _ _ => True := by
  refine Frame.Sat.get_bind ?_
  refine Frame.Sat.bind_run (sat_updateRows hinv materialized) fun rows s hrun hinv' hext hrows => ?_
  refine Frame.Sat.foldlM_rounds (P := fun row => TargetRow R db.catalog node.tableId
    (db.indexes.forTable node.tableId) (row.1, row.2.1)) (J := fun _ _ => True)
    (fun row => stable_targetRow _ _ _) (fun returned row s₁ hinv₁ _ hrow hC => ?_) rows [] hinv'
    trivial (fun row hrow => ⟨hext.1.catalog, RowRules.stable_indexesOf _ _ _ hinv' hext
      (indexesOf_forTable db node.tableId), hrows row hrow⟩) (hrounds rows s hrun)
  have hcat := hrow.1
  simp only at hC
  rw [← hcat] at hrow hC ⊢
  exact sat_updateRow depth hinv₁ returned hrow hC.1 hC.2

theorem length_provide (n : Nat) (targets : List Nat) (provided : Tuple) :
    (provide n targets provided).1.length = n := by
  refine (foldl_keeps (g := fun row : Tuple × List Bool => row.1.length) ?_ _ _).trans (by simp)
  exact fun _ _ => by simp

theorem length_fillAuto (autoNext : AutoNext) (row : Tuple × List Bool) :
    (fillAuto autoNext row).2.1.length = row.1.length := by
  refine foldl_keeps (g := fun st : AutoNext × Tuple × List Bool => st.2.1.length) ?_ _ _
  rintro ⟨done, vals, isSet⟩ ⟨c, next⟩
  simp only
  split <;> simp

theorem length_fillDefaults (ts : TableSchema) (row : Tuple × List Bool) :
    (fillDefaults ts row).length = row.1.length := by
  refine foldl_keeps (g := List.length) ?_ _ _
  rintro vals ⟨col, c⟩
  simp only
  split <;> simp

theorem sat_findConflict (hinv : (R.during G).Inv db) (onConflict : Option OnConflict) (new : Tuple) :
    Sat (R.during G) db (findConflict t (db.catalog.loadSchema t) onConflict new)
      fun found db' => db' = db ∧ ∀ c row, found = some (c, row) → R.Read t row db' := by
  unfold findConflict
  split
  · exact Frame.Sat.ret hinv ⟨rfl, by simp⟩
  rename_i c
  refine Frame.Sat.bind_run (sat_scanRows hinv t) fun rows s hscan hinv' hext hrows => ?_
  cases hscan
  refine Frame.Sat.bind ((readOnly_ofExcept _).sat (Q := fun found s' => s' = db ∧
    ∀ row, found = some row → R.Read t row s') hinv' ?_) ?_
  · refine fun found hfound => ⟨rfl, fun row he => ?_⟩
    subst he
    obtain ⟨raw, hraw, hd⟩ := anyRow_spec (by simpa using hfound)
    exact (hrows raw hraw).read hd
  · rintro found s' hinv'' - ⟨rfl, hread⟩
    refine Frame.Sat.ret hinv'' ⟨rfl, ?_⟩
    intro c' row he
    obtain ⟨row', hrow', he⟩ := Option.map_eq_some_iff.mp he
    cases he
    exact hread _ hrow'

theorem length_insertedRow (ts : Option TableSchema) (schema : Schema) (targets : List Nat)
    (autoNext : AutoNext) (provided : Tuple) :
    (insertedRow ts schema targets autoNext provided).length = schema.length := by
  have hrow := length_fillAuto autoNext (provide schema.length targets provided)
  rw [length_provide] at hrow
  cases ts with
  | none => exact hrow
  | some ts => exact (length_fillDefaults ts _).trans hrow

theorem sat_insertProvided (hinv : (R.during G).Inv db) {node : InsertStatement}
    {idxs : List Index} (targets : List Nat) (st : InsertState) (provided : Tuple)
    (hidxs : IndexesOf node.tableId idxs db)
    (hwrites : ∀ w, ((insertWrite node (db.catalog.getTableById node.tableId)
      (db.catalog.loadSchema node.tableId) idxs targets st provided).value? db).join = some w →
        Db.Meets R.Given (.checked w.checked w.new) w.program w.before) :
    Sat (R.during G) db (insertProvided node (db.catalog.getTableById node.tableId)
      (db.catalog.loadSchema node.tableId) idxs targets st provided) fun _ _ => True := by
  generalize ht : insertedRow (db.catalog.getTableById node.tableId)
    (db.catalog.loadSchema node.tableId) targets st.autoNext provided = t
  have hlen : t.length = (db.catalog.loadSchema node.tableId).length :=
    ht ▸ length_insertedRow _ _ _ _ _
  rw [insertProvided_eq]
  simp only [ht]
  refine Frame.Sat.bind_run (sat_findConflict hinv node.onConflict t) ?_
  rintro found s hfound hinv' - ⟨rfl, hread⟩
  split
  · rename_i c exRid exRow
    split
    · exact Frame.Sat.ret hinv' trivial
    rename_i hdo
    generalize hnew : upsertedRow (s.catalog.getTableById node.tableId) c exRow = new
    have hnewlen : new.length = exRow.length := by rw [← hnew]; simp [upsertedRow]
    refine Frame.Sat.bind_run (sat_checks hinv' (s.catalog.getTableById node.tableId) _ _) ?_
    rintro _ s₁ hcheck hinv₁ - rfl
    refine Frame.Sat.bind_run (sat_lock_targetRow hinv₁ (exRid, exRow)
      ⟨rfl, hidxs, hread c (exRid, exRow) rfl⟩) ?_
    rintro _ s₂ hlock hinv₂ hext₂ ⟨hcat₂, hidxs₂, hread₂⟩
    have hmeets : Db.Meets R.Given (.checked s₁ new) (rewriteRow node.tableId idxs exRid exRow new
        (s₁.catalog.loadSchema node.tableId) true) s₂ :=
      hwrites _ (value?_insertWrite_upsert ht hfound (by simpa using hdo) hnew hcheck hlock)
    rw [← hcat₂] at hmeets ⊢
    exact Frame.Sat.bind (sat_rewriteRow (exRid, exRow) (.checked s₁ new) true
      hinv₂ hidxs₂ hread₂ hnewlen (passed_checked hinv₁.1 hext₂.1 hcheck) fun _ => hmeets)
      fun _ s₃ hinv₃ _ _ => Frame.Sat.ret hinv₃ trivial
  · refine Frame.Sat.bind_run (sat_checks hinv' (s.catalog.getTableById node.tableId) _ _) ?_
    rintro _ s₁ hcheck hinv₁ - rfl
    exact Frame.Sat.bind (sat_insertRow hinv₁ hidxs hlen
      (passed_checked hinv₁.1 (.refl s₁) hcheck)
      (hwrites _ (value?_insertWrite_new ht hfound hcheck)))
      fun _ s₂ hinv₂ _ _ => Frame.Sat.ret hinv₂ trivial

theorem sat_insertSetup (hinv : (R.during G).Inv db) (node : InsertStatement) :
    Sat (R.during G) db (insertSetup node db.catalog) fun loop db' =>
      loop.idxs = db.indexes.forTable node.tableId ∧ IndexesOf node.tableId loop.idxs db' := by
  refine Frame.Sat.get_bind ?_
  refine Frame.Sat.bind (Q := fun _ _ => True) ?_ fun provided s hinv' hext _ => ?_
  · unfold providedRows
    split
    · exact sat_query_during hinv _
    · exact Frame.Sat.ret hinv trivial
  refine Frame.Sat.bind (Q := fun _ _ => True) ?_ fun autoNext s₁ hinv₁ hext₁ _ => ?_
  · refine Frame.Sat.foldlM (P := fun _ _ => True) (fun _ _ _ _ _ _ => trivial)
      (fun acc c s' hinv'' _ _ => ?_) _ _ hinv' trivial fun _ _ => trivial
    refine Frame.Sat.bind (sat_scanRows hinv'' node.tableId) fun rows s'' hinv₃ _ _ => ?_
    exact (ReadOnly.bind (readOnly_ofExcept _) fun _ => readOnly_ret _).sat hinv₃ fun _ _ => trivial
  exact Frame.Sat.ret hinv₁ ⟨rfl, (indexesOf_forTable db node.tableId).congr
    ((R.during G).trans hext hext₁).1.signatures⟩

theorem sat_insertRows (hinv : (R.during G).Inv db) (node : InsertStatement)
    (hrounds : ∀ loop s, (insertSetup node db.catalog).run db = (.ok loop, s) →
      ∀ r ∈ Prog.rounds (fun (c : Call) db => c.apply db)
          (insertProvided node (db.catalog.getTableById node.tableId)
            (db.catalog.loadSchema node.tableId) loop.idxs loop.targets) loop.provided
            { autoNext := loop.autoNext } s,
        ∀ w, ((insertWrite node (db.catalog.getTableById node.tableId)
          (db.catalog.loadSchema node.tableId) loop.idxs loop.targets r.2.1 r.2.2).value? r.1).join =
            some w → Db.Meets R.Given (.checked w.checked w.new) w.program w.before) :
    Sat (R.during G) db (insertRows node db.catalog) fun _ _ => True := by
  rw [insertRows_eq]
  refine Frame.Sat.bind_run (sat_insertSetup hinv node) ?_
  rintro loop s hsetup hinv' hext ⟨-, hidxs⟩
  refine Frame.Sat.bind (Frame.Sat.foldlM_rounds (P := fun _ db' => db'.catalog = db.catalog ∧
    IndexesOf node.tableId loop.idxs db') (J := fun _ _ => True) ?_ ?_ _ _ hinv' trivial
    (fun _ _ => ⟨hext.1.catalog, hidxs⟩) (hrounds loop s hsetup))
    fun st s₂ hinv₂ _ _ => Frame.Sat.ret hinv₂ trivial
  · rintro _ a b hb hab ⟨hcat, hidxs⟩
    exact ⟨hab.1.catalog.trans hcat, RowRules.stable_indexesOf _ _ _ hb hab hidxs⟩
  · rintro st row s₂ hinv₂ - ⟨hcat, hidxs⟩ hC
    simp only at hC
    rw [← hcat] at hC ⊢
    exact sat_insertProvided hinv₂ _ st row hidxs hC

end Steps

end Exec

/-- How a statement ends: it throws before it has dropped what was staged, or while it
changes rows, or it returns when what it staged is committed. -/
inductive RowRules.Ended (R : RowRules) {α : Type} : Except String α × Db → Prop
  | early (e : String) {db : Db} (hstart : R.Start db) : R.Ended (.error e, db)
  | late (e : String) {db : Db} (hinv : R.Inv db) : R.Ended (.error e, db)
  | returned (a : α) {db : Db} (hok : db.Ok) (hinv : R.Inv db) :
    R.Ended (.ok a, db.commitOutsideTxn)

/-- What a statement keeps from `db` on. -/
structure RowRules.Keeps (R : RowRules) (db : Db) {α : Type} (out : Except String α × Db) :
    Prop where
  ok : out.2.Ok
  ext : Db.Extends db out.2
  ended : R.Ended out

section Statements

variable {α β : Type} {R : RowRules} {db : Db}

theorem Db.Ok.discardOutsideTxn (h : db.Ok) : db.discardOutsideTxn.Ok := { h with }

theorem Db.Ok.commitOutsideTxn (h : db.Ok) : db.commitOutsideTxn.Ok := { h with }

theorem Db.extends_discardOutsideTxn (db : Db) : Db.Extends db db.discardOutsideTxn :=
  ⟨.refl _, rfl, rfl, rfl, rfl⟩

theorem Db.extends_commitOutsideTxn (db : Db) : Db.Extends db db.commitOutsideTxn :=
  ⟨.refl _, rfl, rfl, rfl, rfl⟩

theorem Db.discardOutsideTxn_of_txn (db : Db) (h : db.currentTxn ≠ 0) :
    db.discardOutsideTxn = db := by
  simp [Db.discardOutsideTxn, Db.txnActive, h]

theorem Db.commitOutsideTxn_of_txn (db : Db) (h : db.currentTxn ≠ 0) :
    db.commitOutsideTxn = db := by
  simp [Db.commitOutsideTxn, Db.txnActive, h]

theorem RowRules.Keeps.map {x : Exec α} (h : R.Keeps db (x.run db)) (f : α → β) :
    R.Keeps db (Exec.run (Prog.bind x fun a => Prog.ret (f a)) db) := by
  rw [Exec.run_bind]
  generalize x.run db = out at h
  obtain ⟨hok, hext, hended⟩ := h
  cases hended with
  | early e hstart => exact ⟨hok, hext, .early e hstart⟩
  | late e hinv => exact ⟨hok, hext, .late e hinv⟩
  | returned a hok' hinv => exact ⟨hok, hext, .returned (f a) hok' hinv⟩

namespace Exec

theorem autocommit_keeps {prepare : Exec α} {body : α → Exec β}
    (hprepare : Sat R.before db prepare fun _ _ => True)
    (hbody : ∀ a s, prepare.run db = (.ok a, s) → (R.during G).Inv s.discardOutsideTxn →
      s.catalog = db.catalog → Sat (R.during G) s.discardOutsideTxn (body a) fun _ _ => True)
    (hgiven : Prog.All (fun (c : Call) db => c.apply db) G (autocommit prepare body) db) :
    R.Keeps db ((autocommit prepare body).run db) ∧ AllListed (autocommit prepare body) db := by
  obtain ⟨⟨hok₁, hstart₁⟩, hext₁, hlisted₁, -⟩ := hprepare fun _ _ => trivial
  change (prepare.run db).2.Ok at hok₁
  change R.Start (prepare.run db).2 at hstart₁
  change Db.Extends db (prepare.run db).2 at hext₁
  have hdiscard : ∀ s, AllListed discardOutsideTxn s := offTables_discardOutsideTxn.listed
  have hcommit : ∀ s, AllListed commitOutsideTxn s := offTables_commitOutsideTxn.listed
  simp only [autocommit, Prog.bind_eq, Prog.All.bind_iff, Prog.pure_eq] at hgiven ⊢
  obtain ⟨-, hgiven⟩ := hgiven
  generalize hrun : prepare.run db = out at hok₁ hstart₁ hext₁ hbody
  obtain ⟨outcome, db₁⟩ := out
  simp only [run_bind, hrun]
  cases outcome with
  | error e =>
    exact ⟨⟨hok₁, hext₁, .early e hstart₁⟩, hlisted₁, fun _ _ h => by cases hrun.symm.trans h⟩
  | ok a =>
    have hext₂ := hext₁.trans db₁.extends_discardOutsideTxn
    obtain ⟨hgivenBody, -⟩ := (hgiven a db₁ hrun).2 () _ (run_discardOutsideTxn db₁)
    obtain ⟨⟨hok₂, hinv₂⟩, ⟨hext₃, -⟩, hlisted₂, -⟩ :=
      hbody a db₁ rfl ⟨hok₁.discardOutsideTxn, R.start hok₁ hstart₁⟩ hext₁.catalog hgivenBody
    change ((body a).run db₁.discardOutsideTxn).2.Ok at hok₂
    change R.Inv ((body a).run db₁.discardOutsideTxn).2 at hinv₂
    change Db.Extends _ ((body a).run db₁.discardOutsideTxn).2 at hext₃
    simp only [run_discardOutsideTxn]
    refine ⟨?_, hlisted₁, ?_⟩
    · generalize (body a).run db₁.discardOutsideTxn = out at hok₂ hinv₂ hext₃ ⊢
      obtain ⟨outcome, db₂⟩ := out
      cases outcome with
      | error e => exact ⟨hok₂, hext₂.trans hext₃, .late e hinv₂⟩
      | ok b =>
        simp only [run_commitOutsideTxn, run_ret]
        exact ⟨hok₂.commitOutsideTxn, (hext₂.trans hext₃).trans db₂.extends_commitOutsideTxn,
          .returned b hok₂ hinv₂⟩
    · intro a' s h
      cases hrun.symm.trans h
      refine ⟨hdiscard db₁, fun _ s₁ h₁ => ?_⟩
      cases (run_discardOutsideTxn db₁).symm.trans h₁
      exact ⟨hlisted₂, fun _ s₂ _ => ⟨hcommit s₂, fun _ s₃ _ => Prog.All.ret⟩⟩

theorem sat_materialize {t : TableId} (hinv : R.before.Inv db) (when? : Option (Condition t)) :
    Sat R.before db (materialize when?) fun _ _ => True := by
  unfold materialize
  split
  · exact Frame.Sat.ret hinv trivial
  · refine Frame.Sat.bind (sat_query (fun _ rid exclusive hinv => sat_lock_before hinv rid exclusive)
      hinv _) fun _ s hinv' _ _ => Frame.Sat.ret hinv' trivial

end Exec

/-- What is given of the calls that write rows holds of those that the statement makes. -/
def Statement.Meets (Given : Db.Origin → Db → Call → Prop) (depth : Nat) (db : Db) :
    Statement → Prop
  | insert node =>
    ∀ w ∈ node.writes db, Db.Meets Given (.checked w.checked w.new) w.program w.before
  | delete node => Db.Meets Given .unchecked (Exec.visitDelete depth node) db
  | update node =>
    (∀ a ∈ node.actions depth db, Db.Meets Given .unchecked a.program a.before) ∧
    ∀ w ∈ node.writes depth db, Db.Meets Given (.checked w.checked w.new) w.program w.before

instance Statement.Meets.decidable (Given : Db.Origin → Db → Call → Prop)
    [∀ origin db c, Decidable (Given origin db c)] (depth : Nat) (db : Db) :
    (s : Statement) → Decidable (s.Meets Given depth db)
  | insert node => inferInstanceAs (Decidable
      (∀ w ∈ node.writes db, Db.Meets Given (.checked w.checked w.new) w.program w.before))
  | delete node => inferInstanceAs (Decidable
      (Db.Meets Given .unchecked (Exec.visitDelete depth node) db))
  | update node => inferInstanceAs (Decidable
      ((∀ a ∈ node.actions depth db, Db.Meets Given .unchecked a.program a.before) ∧
      ∀ w ∈ node.writes depth db, Db.Meets Given (.checked w.checked w.new) w.program w.before))

theorem Statement.Meets.of_forall {Given : Db.Origin → Db → Call → Prop}
    (h : ∀ origin db c, Given origin db c) (depth : Nat) (db : Db) (s : Statement) :
    s.Meets Given depth db := by
  cases s with
  | insert node => exact fun w _ c _ => h _ _ _
  | delete node => exact fun c _ => h _ _ _
  | update node => exact ⟨fun a _ c _ => h _ _ _, fun w _ c _ => h _ _ _⟩

/-- Every statement keeps what the row steps keep. -/
theorem Statement.exec_keeps (depth : Nat) (s : Statement) (hok : db.Ok) (hstart : R.Start db)
    (hmeets : s.Meets R.Given depth db) :
    R.Keeps db ((s.exec depth).run db) ∧ Exec.AllListed (s.exec depth) db := by
  have hinv : R.before.Inv db := ⟨hok, hstart⟩
  cases s with
  | insert node =>
    have hbody : ∀ (_ : Unit) s, Exec.run (Prog.ret ()) db = (.ok (), s) →
        (R.during fun _ _ => True).Inv s.discardOutsideTxn → s.catalog = db.catalog →
        Exec.Sat (R.during fun _ _ => True) s.discardOutsideTxn (Exec.insertRows node db.catalog)
          fun _ _ => True := by
      rintro _ s h hs -
      cases h
      exact Exec.sat_insertRows hs node fun loop s hsetup r hr w hw =>
        hmeets w (InsertStatement.mem_writes hsetup hr hw)
    obtain ⟨hkeeps, hlisted⟩ := Exec.autocommit_keeps (Frame.Sat.ret hinv (a := ()) trivial) hbody
      fun _ _ => trivial
    exact ⟨hkeeps.map _, hlisted.bind fun _ _ _ => .ret⟩
  | delete node =>
    have hbody : ∀ e s, (Exec.materialize node.when?).run db = (.ok e, s) →
        R.acting.Inv s.discardOutsideTxn → s.catalog = db.catalog →
        Exec.Sat R.acting s.discardOutsideTxn (Exec.deleteRows depth node db.catalog e)
          fun _ _ => True := fun e s _ hs hcat =>
      hcat ▸ Exec.sat_deleteRows depth hs node e
    obtain ⟨hkeeps, hlisted⟩ := Exec.autocommit_keeps (Exec.sat_materialize hinv node.when?) hbody
      (Prog.All.bind_iff.mp ((Prog.All.bind_iff.mp hmeets).2 db db rfl)).1
    exact ⟨hkeeps.map _, hlisted.bind fun _ _ _ => .ret⟩
  | update node =>
    have hbody : ∀ e s, (Exec.materialize node.when?).run db = (.ok e, s) →
        (R.during fun _ _ => True).Inv s.discardOutsideTxn → s.catalog = db.catalog →
        Exec.Sat (R.during fun _ _ => True) s.discardOutsideTxn
          (Exec.modifyRows depth node db.catalog e) fun _ _ => True := by
      intro e s hprepare hs hcat
      have hcat' : s.discardOutsideTxn.catalog = db.catalog := hcat
      refine hcat' ▸ Exec.sat_modifyRows depth hs node e fun rows s' hrows r hr => ?_
      rw [hcat'] at hrows hr ⊢
      have hround := UpdateStatement.mem_rounds (Exec.run_updateSetup hprepare hrows) hr
      exact ⟨fun a ha => hmeets.1 a (UpdateStatement.mem_actions hround ha),
        fun w hw => hmeets.2 w (UpdateStatement.mem_writes hround hw)⟩
    obtain ⟨hkeeps, hlisted⟩ := Exec.autocommit_keeps (Exec.sat_materialize hinv node.when?) hbody
      fun _ _ => trivial
    exact ⟨hkeeps.map _, hlisted.bind fun _ _ _ => .ret⟩

/-- In a transaction nothing is dropped or committed. -/
theorem RowRules.Keeps.inv_of_txn {out : Except String α × Db} (h : R.Keeps db out)
    (htxn : db.currentTxn ≠ 0) (hstart : ∀ db, db.currentTxn ≠ 0 → R.Start db → R.Inv db) :
    R.Inv out.2 := by
  obtain ⟨-, hext, hended⟩ := h
  have htxn' := hext.currentTxn
  cases hended with
  | early e hs => exact hstart _ (htxn' ▸ htxn) hs
  | late e hinv => exact hinv
  | returned a hok hinv =>
    rename_i db'
    have hne : db'.currentTxn ≠ 0 := htxn' ▸ htxn
    rwa [db'.commitOutsideTxn_of_txn hne]

/-- What holds before and within statements holds after them, if dropping and committing what
is staged keep it. -/
theorem RowRules.start_exec (hlate : ∀ db, R.Inv db → R.Start db)
    (hcommit : ∀ db, R.Inv db → R.Start db.commitOutsideTxn) (depth : Nat) (s : Statement)
    (hok : db.Ok) (hstart : R.Start db) (hmeets : s.Meets R.Given depth db) :
    R.Start ((s.exec depth).run db).2 := by
  have hkeeps := (s.exec_keeps depth hok hstart hmeets).1
  generalize (s.exec depth).run db = out at hkeeps
  obtain ⟨-, -, hended⟩ := hkeeps
  cases hended with
  | early e hstart => exact hstart
  | late e hinv => exact hlate _ hinv
  | returned a _ hinv => exact hcommit _ hinv

end Statements

end Relite.Vm
