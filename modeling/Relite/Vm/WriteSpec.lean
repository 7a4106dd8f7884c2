import Relite.Vm.Session

/-!
# What is known of the writes of a statement

Each row that a PUT or a MODIFY gives to its table is written in a well formed database, has
the width of its table, has passed the checks, and replaces a row that was read
(`Statement.write_ok`).
-/
namespace Relite.Vm
open Lib Semantic Txn

/-- A write of a statement that began in `db`. -/
structure Write.Ok (db : Db) (w : Write) : Prop where
  before : w.before.Ok
  extends_db : Db.Extends db w.before
  schema : w.schema = db.catalog.loadSchema w.tableId
  idxs : IndexesOf w.tableId w.idxs w.before
  length : w.new.length = w.schema.length
  replaced : ∀ row ∈ w.replaced, row.2.length = w.schema.length ∧
    w.before.tables.Found w.tableId row.1 (row.2.serialize w.schema)
  passed : (Db.Origin.checked w.checked w.new).Passed w.tableId w.rid w.new w.before

namespace Exec

/-- The frame of a statement that nothing is assumed of. -/
abbrev plain : Frame Db Call := Db.okRules.during fun _ _ => True

theorem extends_of_sat {α : Type} {x : Exec α} {db db' : Db} {a : α} {Q : α → Db → Prop}
    (h : Sat plain db x Q) (hrun : x.run db = (.ok a, db')) :
    db'.Ok ∧ Db.Extends db db' ∧ Q a db' := by
  obtain ⟨⟨hok, -⟩, ⟨hext, -⟩, -, hq⟩ := h fun _ _ => trivial
  have hq := hq a (congrArg Prod.fst hrun)
  change (x.run db).2.Ok at hok
  change Db.Extends db (x.run db).2 at hext
  change Q a (x.run db).2 at hq
  rw [hrun] at hok hext hq
  exact ⟨hok, hext, hq⟩

section

variable {db s : Db}

/-! ## PUT -/

theorem write_ok_of_insertWrite {node : InsertStatement} {idxs : List Index} {targets : List Nat}
    {st : InsertState} {provided : Tuple} {w : Write} (hinv : plain.Inv s)
    (hext : Db.Extends db s) (hidxs : IndexesOf node.tableId idxs s)
    (hw : ((insertWrite node (db.catalog.getTableById node.tableId)
      (db.catalog.loadSchema node.tableId) idxs targets st provided).value? s).join = some w) :
    w.Ok db := by
  have hcat := hext.catalog
  obtain ⟨db', h⟩ := run_of_value?_join hw
  unfold insertWrite at h
  rw [← hcat] at h
  obtain ⟨found, s₁, hfound, h⟩ := run_bind_eq_ok.mp h
  obtain ⟨-, -, rfl, hread⟩ := extends_of_sat (sat_findConflict hinv node.onConflict _) hfound
  rcases found with _ | ⟨c, exRid, exRow⟩
  · obtain ⟨_, _, hget, h⟩ := run_bind_eq_ok.mp h
    cases hget
    obtain ⟨_, s₂, hcheck, h⟩ := run_bind_eq_ok.mp h
    obtain rfl := (readOnly_checkRow _ _ _ _).eq_of_run hcheck
    cases h
    exact ⟨hinv.1, hext, hcat ▸ rfl, hidxs, length_insertedRow _ _ _ _ _, fun _ h => (by cases h),
      passed_checked hinv.1 (.refl _) hcheck⟩
  · simp only at h
    split at h
    · cases h
    obtain ⟨_, _, hget, h⟩ := run_bind_eq_ok.mp h
    cases hget
    obtain ⟨_, s₂, hcheck, h⟩ := run_bind_eq_ok.mp h
    obtain rfl := (readOnly_checkRow _ _ _ _).eq_of_run hcheck
    obtain ⟨_, s₃, hlock, h⟩ := run_bind_eq_ok.mp h
    obtain ⟨_, _, hget, h⟩ := run_bind_eq_ok.mp h
    cases hget
    cases h
    obtain ⟨hok₃, hext₃, hcat₃, hidxs₃, hread₃⟩ := extends_of_sat (sat_lock_targetRow hinv
      (exRid, exRow) ⟨rfl, hidxs, hread c (exRid, exRow) rfl⟩) hlock
    unfold RowRules.Read at hread₃
    rw [hcat₃] at hread₃
    refine ⟨hok₃, hext.trans hext₃, hcat ▸ rfl, hidxs₃, ?_, ?_, passed_checked hinv.1 hext₃ hcheck⟩
    · simpa [upsertedRow] using hread₃.1
    · rintro row hrow
      cases hrow
      exact ⟨hread₃.1, hread₃.2.1⟩

theorem write_ok_of_insert {node : InsertStatement} (hok : db.Ok) {w : Write}
    (hw : w ∈ node.writes db) : w.Ok db := by
  obtain ⟨⟨loop, r⟩, hr, hw⟩ := List.mem_filterMap.mp hw
  unfold InsertStatement.rounds at hr
  have hinv : plain.Inv db.discardOutsideTxn := ⟨hok.discardOutsideTxn, trivial⟩
  generalize hsetup : (insertSetup node db.catalog).run db.discardOutsideTxn = out at hr
  obtain ⟨outcome, s⟩ := out
  cases outcome with
  | error e => cases hr
  | ok loop' =>
    obtain ⟨r', hr, he⟩ := List.mem_map.mp hr
    cases he
    obtain ⟨hoks, hexts, -, hidxs⟩ := extends_of_sat (sat_insertSetup hinv node) hsetup
    have hexts' := db.extends_discardOutsideTxn.trans hexts
    have hround := Frame.Sat.rounds (F := plain) (J := fun _ _ => True)
      (P := fun _ db' => db'.catalog = db.catalog ∧ IndexesOf node.tableId loop.idxs db')
      ?_ ?_ loop.provided { autoNext := loop.autoNext } (s := s)
      ⟨hoks, trivial⟩ trivial (fun _ _ => ⟨hexts'.catalog, hidxs⟩) (fun _ _ => trivial) r hr
    · obtain ⟨hinv', hext', -, hidxs'⟩ := hround
      exact write_ok_of_insertWrite hinv' (hexts'.trans hext'.1) hidxs' hw
    · rintro _ a b hb hab ⟨hcat, hidxs⟩
      exact ⟨hab.1.catalog.trans hcat, RowRules.stable_indexesOf _ _ _ hb hab hidxs⟩
    · rintro st row s₁ hinv₁ - ⟨hcat, hidxs⟩
      rw [← hcat]
      exact sat_insertProvided hinv₁ _ st row hidxs fun _ _ _ _ => trivial

/-! ## MODIFY -/

theorem sat_updateSetup (hinv : plain.Inv db) (node : UpdateStatement) :
    Sat plain db (updateSetup node db.catalog) fun loop db' => ∀ row ∈ loop.2,
      TargetRow Db.okRules db.catalog node.tableId loop.1 (row.1, row.2.1) db' := by
  refine Frame.Sat.bind (Q := fun _ _ => True) ?_ fun e s₁ hinv₁ hext₁ _ => ?_
  · unfold materialize
    split
    · exact Frame.Sat.ret hinv trivial
    · exact Frame.Sat.bind (sat_query_during hinv _) fun _ s hinv' _ _ =>
        Frame.Sat.ret hinv' trivial
  refine Frame.Sat.bind (Q := fun _ _ => True) ?_ fun _ s₂ hinv₂ hext₂ _ => ?_
  · exact Frame.Sat.of_run (run_discardOutsideTxn s₁)
      (fun _ => ⟨⟨hinv₁.1.discardOutsideTxn, trivial⟩,
        ⟨s₁.extends_discardOutsideTxn, fun _ _ _ _ h => h⟩⟩)
      (offTables_discardOutsideTxn.listed s₁) trivial
  have hcat : s₂.catalog = db.catalog := hext₂.1.catalog.trans hext₁.1.catalog
  refine Frame.Sat.get_bind ?_
  rw [← hcat]
  refine Frame.Sat.bind (sat_updateRows hinv₂ e) fun rows s₃ hinv₃ hext₃ hrows => ?_
  exact Frame.Sat.ret hinv₃ fun row hrow => ⟨hext₃.1.catalog,
    (indexesOf_forTable s₂ node.tableId).congr hext₃.1.signatures, hrows row hrow⟩

theorem write_ok_of_updateWrite {depth : Nat} {node : UpdateStatement} {idxs : List Index}
    {row : RecordID × Tuple × Tuple} {w : Write} (hinv : plain.Inv s) (hext : Db.Extends db s)
    (hrow : TargetRow Db.okRules db.catalog node.tableId idxs (row.1, row.2.1) s)
    (hw : (updateWrite depth node (db.catalog.getTableById node.tableId)
      (db.catalog.loadSchema node.tableId) idxs row).value? s = some w) : w.Ok db := by
  obtain ⟨rid, old, matched⟩ := row
  obtain ⟨db', h⟩ := run_of_value? hw
  unfold updateWrite at h
  obtain ⟨_, s₁, hlock, h⟩ := run_bind_eq_ok.mp h
  obtain ⟨hok₁, hext₁, hrow₁⟩ := extends_of_sat (sat_lock_targetRow hinv _ hrow) hlock
  obtain ⟨_, _, hget, h⟩ := run_bind_eq_ok.mp h
  cases hget
  obtain ⟨_, s₂, hcheck, h⟩ := run_bind_eq_ok.mp h
  obtain rfl := (readOnly_checkRow _ _ _ _).eq_of_run hcheck
  have hinv₂ : plain.Inv s₂ := ⟨hok₁, trivial⟩
  have hdone : ∀ (x : Exec Unit), Sat plain s₂ x (fun _ _ => True) →
      Exec.run (Prog.bind x fun _ => Prog.bind get fun before => Prog.ret
        { checked := s₂, before, tableId := node.tableId, idxs
          schema := db.catalog.loadSchema node.tableId, replaced := some (rid, old)
          new := assign old node.targetIndices node.values (old ++ matched) }) s₂ = (.ok w, db') →
      w.Ok db := by
    intro x hx h
    obtain ⟨_, s₃, hrun, h⟩ := run_bind_eq_ok.mp h
    cases h
    obtain ⟨hok₃, hext₃, -⟩ := extends_of_sat hx hrun
    obtain ⟨hcat, hidxs, hread⟩ := stable_targetRow (G := fun _ _ => True) _ _ _ s₂ db' ⟨hok₃, trivial⟩
      ⟨hext₃, fun _ _ _ _ h => h⟩ hrow₁
    unfold RowRules.Read at hread
    rw [hcat] at hread
    refine ⟨hok₃, (hext.trans hext₁).trans hext₃, rfl, hidxs, by simpa using hread.1, ?_, ?_⟩
    · rintro row hrow'
      cases hrow'
      exact ⟨hread.1, hread.2.1⟩
    · exact passed_checked hok₁ hext₃ (hrow₁.1 ▸ hcheck)
  cases hts : db.catalog.getTableById node.tableId with
  | none =>
    rw [hts] at h
    exact hdone (Prog.ret ()) (Frame.Sat.ret hinv₂ trivial) h
  | some ts =>
    rw [hts] at h
    exact hdone _ ((sat_applyUpdateReferentialActions depth ts old _ (R := Db.okRules)
      hinv₂).of_given fun _ _ => trivial) h

theorem write_ok_of_update {depth : Nat} {node : UpdateStatement} (hok : db.Ok) {w : Write}
    (hw : w ∈ node.writes depth db) : w.Ok db := by
  obtain ⟨⟨idxs, r⟩, hr, hw⟩ := List.mem_filterMap.mp hw
  unfold UpdateStatement.rounds at hr
  generalize hsetup : (updateSetup node db.catalog).run db = out at hr
  obtain ⟨outcome, s⟩ := out
  cases outcome with
  | error e => cases hr
  | ok loop =>
    obtain ⟨r', hr, he⟩ := List.mem_map.mp hr
    cases he
    obtain ⟨hoks, hexts, hrows⟩ := extends_of_sat (sat_updateSetup ⟨hok, trivial⟩ node) hsetup
    have hround := Frame.Sat.rounds (F := plain) (J := fun _ _ => True)
      (P := fun row => TargetRow Db.okRules db.catalog node.tableId loop.1 (row.1, row.2.1))
      (fun row => stable_targetRow _ _ _) (fun returned row s₁ hinv₁ _ hrow => ?_) loop.2 []
      ⟨hoks, trivial⟩ trivial hrows (fun _ _ => trivial) r hr
    · obtain ⟨hinv', hext', hrow'⟩ := hround
      exact write_ok_of_updateWrite hinv' (hexts.trans hext'.1) hrow' hw
    · have hcat := hrow.1
      rw [← hcat] at hrow ⊢
      exact sat_updateRow depth hinv₁ returned hrow (fun _ _ _ _ => trivial) fun _ _ _ _ => trivial

end

end Exec

theorem Statement.write_ok {depth : Nat} {s : Statement} {db : Db} (hok : db.Ok) {w : Write}
    (hw : w ∈ s.writes depth db) : w.Ok db := by
  cases s with
  | insert node => exact Exec.write_ok_of_insert hok hw
  | delete node => cases hw
  | update node => exact Exec.write_ok_of_update hok hw

end Relite.Vm
