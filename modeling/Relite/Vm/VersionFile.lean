import Relite.Lib.ChangeLog
import Relite.Lib.TextStream
import Relite.Vm.Value
import Relite.Vm.VersionStore

/-!
# The version file

The version store is written as decimal numbers between blanks, and the images of rows as
they are, each behind its length. What is written is read back, whatever bytes the images
hold.
-/
namespace Relite.Vm
open Lib IStream

/-! ## Writing -/

def writeBytes (s : Bytes) : Bytes := decimal s.length ++ 32 :: (s ++ [10])

def serializeBaseRow (row : BaseRow) : Bytes :=
  decimal row.1.pageId ++ 32 :: (decimal row.1.slotId ++ 32 :: writeBytes row.2)

def serializeTable (entry : TableId × List BaseRow) : Bytes :=
  decimal entry.1 ++ 32 :: (decimal entry.2.length ++ 10 :: entry.2.flatMap serializeBaseRow)

def serializeChange (c : Change) : Bytes :=
  decimal c.version ++ 32 :: (decimal c.tableId ++ 32 :: (decimal (if c.isDelete then 1 else 0) ++
    32 :: (decimal c.rid.pageId ++ 32 :: (decimal c.rid.slotId ++ 32 :: writeBytes c.bytes))))

namespace VersionStore

/-- The entries are those of the baselines, in the order that the map goes through them. -/
structure Lists (vs : VersionStore) (entries : List (TableId × List BaseRow)) : Prop where
  nodup : (entries.map Prod.fst).Nodup
  mem_iff : ∀ t rows, (t, rows) ∈ entries ↔ vs.baseline t = some rows

def serialize (vs : VersionStore) (entries : List (TableId × List BaseRow)) : Bytes :=
  ascii "RVS1" ++ 10 :: (decimal vs.version ++ 32 :: (decimal vs.baselineVersion ++ 10 ::
    (decimal entries.length ++ 10 :: (entries.flatMap serializeTable ++
      (decimal vs.log.length ++ 10 :: vs.log.flatMap serializeChange)))))

end VersionStore

/-! ## Reading -/

def readBytes : StateM IStream Bytes := do
  let len ← readInt .longLong 0
  skip
  if 0 < len then read len.toNat else return []

def deserializeBaseRow (rows : List BaseRow) : StateM IStream (List BaseRow) := do
  let pageId ← readInt .int (-1)
  let slotId ← readInt .int (-1)
  skip
  let bytes ← readBytes
  return rows ++ [(⟨pageId, slotId⟩, bytes)]

namespace VersionStore

def deserializeTable (vs : VersionStore) : StateM IStream VersionStore := do
  let tableId ← readInt .int 0
  let nrows ← readInt .uint64 0
  let rows ← loop deserializeBaseRow nrows.toNat []
  return { vs with
    baseline := Function.update vs.baseline tableId (some rows)
    knownTables := vs.knownTables.insert tableId }

def deserializeChange (vs : VersionStore) : StateM IStream VersionStore := do
  let version ← readInt .uint64 0
  let tableId ← readInt .int 0
  let del ← readInt .int 0
  let pageId ← readInt .int (-1)
  let slotId ← readInt .int (-1)
  skip
  let bytes ← readBytes
  let c : Change :=
    { version := version.toNat, tableId, isDelete := del != 0, rid := ⟨pageId, slotId⟩, bytes }
  return { vs with
    log := vs.log ++ [c]
    knownTables := vs.knownTables.insert tableId }

/-- What `deserialize` reads behind the first word. -/
def deserializeStore (vs : VersionStore) : StateM IStream VersionStore := do
  let vs := { vs with log := [], pending := [], baseline := fun _ => none, knownTables := [] }
  let version ← readInt .uint64 vs.version
  let baselineVersion ← readInt .uint64 vs.baselineVersion
  let vs := { vs with version := version.toNat, baselineVersion := baselineVersion.toNat }
  let nbase ← readInt .uint64 0
  let vs ← loop deserializeTable nbase.toNat vs
  let nlog ← readInt .uint64 0
  loop deserializeChange nlog.toNat vs

def deserialize (vs : VersionStore) : StateM IStream VersionStore := do
  let magic ← readWord
  if magic ≠ ascii "RVS1" then return vs else vs.deserializeStore

end VersionStore

/-! ## What is written is read back -/

theorem readBytes_run {bytes : Bytes} (h : IntType.longLong.Holds bytes.length) (tail : Bytes) :
    readBytes ⟨decimal bytes.length ++ 32 :: (bytes ++ tail), false⟩ = (bytes, ⟨tail, false⟩) := by
  have hlen : readInt .longLong 0 ⟨[] ++ (decimal bytes.length ++ 32 :: (bytes ++ tail)), false⟩ =
      (_, ⟨32 :: (bytes ++ tail), false⟩) :=
    readInt_decimal h 0 (List.forall_mem_nil _) (Blank.not_digit ⟨32, bytes ++ tail, rfl, rfl⟩)
  rw [List.nil_append] at hlen
  show (match readInt .longLong 0 ⟨decimal bytes.length ++ 32 :: (bytes ++ tail), false⟩ with
    | (len, s) => match skip s with
      | ((), s) => (if 0 < len then read len.toNat else return []) s) = _
  rw [hlen]
  simp only [skip_cons]
  split
  · exact read_append bytes tail
  · rename_i hzero
    obtain rfl := List.length_eq_zero_iff.mp (show bytes.length = 0 by omega)
    rfl

theorem reads_bytes {α : Type} {f : Bytes → StateM IStream α} {bytes text : Bytes} {a : α}
    (h : IntType.longLong.Holds bytes.length) (hf : Reads (f bytes) text a) :
    Reads (skip >>= fun _ => readBytes >>= f) (32 :: (decimal bytes.length ++ 32 :: bytes) ++ text)
      a where
  blank tail _ := ⟨32, _, rfl, rfl⟩
  run tail htail := by
    rw [List.append_assoc, List.cons_append, List.append_assoc, List.cons_append]
    show (match readBytes ⟨decimal bytes.length ++ 32 :: (bytes ++ (text ++ tail)), false⟩ with
      | (bytes, s) => f bytes s) = (a, ⟨tail, false⟩)
    rw [readBytes_run h]
    exact hf.run tail htail

/-- The numbers of the row fit their fields. -/
structure RowInRange (row : BaseRow) : Prop where
  pageId : IntType.int.Holds row.1.pageId
  slotId : IntType.int.Holds row.1.slotId
  length : IntType.longLong.Holds row.2.length

/-- The numbers of the table's entry fit their fields. -/
structure TableInRange (entry : TableId × List BaseRow) : Prop where
  tableId : IntType.int.Holds entry.1
  count : IntType.uint64.Holds entry.2.length
  rows : ∀ row ∈ entry.2, RowInRange row

/-- The numbers of the change fit their fields. -/
structure Change.InRange (c : Change) : Prop where
  version : IntType.uint64.Holds c.version
  tableId : IntType.int.Holds c.tableId
  pageId : IntType.int.Holds c.rid.pageId
  slotId : IntType.int.Holds c.rid.slotId
  length : IntType.longLong.Holds c.bytes.length

/-- A row, with a newline before it instead of behind it. -/
def rowText (row : BaseRow) : Bytes :=
  10 :: decimal row.1.pageId ++ (32 :: decimal row.1.slotId ++
    (32 :: (decimal row.2.length ++ 32 :: row.2) ++ []))

def tableText (entry : TableId × List BaseRow) : Bytes :=
  10 :: decimal entry.1 ++ (32 :: decimal entry.2.length ++ (entry.2.flatMap rowText ++ []))

def changeText (c : Change) : Bytes :=
  10 :: decimal c.version ++ (32 :: decimal c.tableId ++
    (32 :: decimal (if c.isDelete then 1 else 0) ++ (32 :: decimal c.rid.pageId ++
      (32 :: decimal c.rid.slotId ++ (32 :: (decimal c.bytes.length ++ 32 :: c.bytes) ++ [])))))

theorem newline_serializeBaseRow (row : BaseRow) : 10 :: serializeBaseRow row = rowText row ++ [10] := by
  simp [serializeBaseRow, rowText, writeBytes]

theorem newline_serializeTable (entry : TableId × List BaseRow) :
    10 :: serializeTable entry = tableText entry ++ [10] := by
  rw [serializeTable, newline_flatMap newline_serializeBaseRow]
  simp [tableText]

theorem newline_serializeChange (c : Change) : 10 :: serializeChange c = changeText c ++ [10] := by
  simp [serializeChange, changeText, writeBytes]

theorem reads_row {row : BaseRow} (h : RowInRange row) (rows : List BaseRow) :
    Reads (deserializeBaseRow rows) (rowText row) (rows ++ [row]) :=
  (Reads.int h.pageId _ rfl).bind ((Reads.int h.slotId _ rfl).bind
    (reads_bytes h.length (Reads.pure _)))

namespace VersionStore

/-- The store with the baseline of a table. -/
def withTable (vs : VersionStore) (entry : TableId × List BaseRow) : VersionStore :=
  { vs with
    baseline := Function.update vs.baseline entry.1 (some entry.2)
    knownTables := vs.knownTables.insert entry.1 }

/-- The store with one more change. -/
def withChange (vs : VersionStore) (c : Change) : VersionStore :=
  { vs with log := vs.log ++ [c], knownTables := vs.knownTables.insert c.tableId }

theorem reads_table {entry : TableId × List BaseRow} (h : TableInRange entry)
    (vs : VersionStore) : Reads vs.deserializeTable (tableText entry) (vs.withTable entry) := by
  refine (Reads.int h.tableId _ rfl).bind ((Reads.int h.count _ rfl).bind ?_)
  have hrows := Reads.loop (fun rows row hrow => reads_row (h.rows row hrow) rows) []
  rw [List.foldl_append_eq_append, List.nil_append, ← List.flatMap_def,
    List.flatMap_singleton'] at hrows
  exact hrows.bind (Reads.pure _)

theorem reads_change {c : Change} (h : c.InRange) (vs : VersionStore) :
    Reads vs.deserializeChange (changeText c) (vs.withChange c) := by
  have hdel : IntType.int.Holds (if c.isDelete then 1 else 0) := by
    split <;> decide
  refine (Reads.int h.version _ rfl).bind ((Reads.int h.tableId _ rfl).bind
    ((Reads.int hdel _ rfl).bind ((Reads.int h.pageId _ rfl).bind
      ((Reads.int h.slotId _ rfl).bind (reads_bytes h.length ?_)))))
  obtain ⟨version, tableId, isDelete, rid, bytes⟩ := c
  cases isDelete <;> exact Reads.pure _

/-- The numbers of the store fit their fields, and there are no more entries, rows, changes
and bytes than a number of the file can tell. -/
structure InRange (vs : VersionStore) (entries : List (TableId × List BaseRow)) : Prop where
  version : IntType.uint64.Holds vs.version
  baselineVersion : IntType.uint64.Holds vs.baselineVersion
  count : IntType.uint64.Holds entries.length
  tables : ∀ entry ∈ entries, TableInRange entry
  logCount : IntType.uint64.Holds vs.log.length
  log : ∀ c ∈ vs.log, c.InRange

/-- The store that is read over another one. -/
def restored (vs old : VersionStore) (entries : List (TableId × List BaseRow)) : VersionStore :=
  let cleared : VersionStore :=
    { old with
      log := [], pending := [], baseline := fun _ => none, knownTables := []
      version := vs.version, baselineVersion := vs.baselineVersion }
  vs.log.foldl withChange (entries.foldl withTable cleared)

theorem deserialize_run {vs : VersionStore} {entries : List (TableId × List BaseRow)}
    (h : vs.InRange entries) (old : VersionStore) :
    old.deserialize ⟨vs.serialize entries, false⟩ = (vs.restored old entries, ⟨[10], false⟩) := by
  let text := 10 :: decimal vs.version ++ (32 :: decimal vs.baselineVersion ++
    (10 :: decimal entries.length ++ (entries.flatMap tableText ++
      (10 :: decimal vs.log.length ++ vs.log.flatMap changeText))))
  have htext : vs.serialize entries = ascii "RVS1" ++ (text ++ [10]) := by
    have htables : ∀ rest, 10 :: (entries.flatMap serializeTable ++ rest) =
        entries.flatMap tableText ++ 10 :: rest := by
      intro rest
      rw [← List.cons_append, newline_flatMap newline_serializeTable, List.append_assoc,
        List.singleton_append]
    rw [serialize, htables, newline_flatMap newline_serializeChange]
    simp [text]
  have hlast : Blank [10] := ⟨10, [], rfl, rfl⟩
  have hreads : Reads old.deserializeStore text (vs.restored old entries) := by
    refine (Reads.int h.version _ rfl).bind ((Reads.int h.baselineVersion _ rfl).bind
      ((Reads.int h.count _ rfl).bind ((Reads.loop ?_ _).bind ((Reads.int h.logCount _ rfl).bind
        (Reads.loop ?_ _)))))
    · exact fun vs entry hentry => reads_table (h.tables entry hentry) vs
    · exact fun vs c hc => reads_change (h.log c hc) vs
  rw [htext]
  show (match readWord ⟨ascii "RVS1" ++ (text ++ [10]), false⟩ with
    | (magic, s) => (if magic ≠ ascii "RVS1" then return old else old.deserializeStore) s) = _
  have hmagic : (ascii "RVS1").all fun b => !IStream.isSpace b := by decide
  rw [readWord_append (by decide) (by simpa using List.all_eq_true.mp hmagic)
    (hreads.blank _ hlast)]
  exact hreads.run _ hlast

theorem foldl_withChange (cs : List Change) (vs : VersionStore) :
    ∃ known, cs.foldl withChange vs = { vs with log := vs.log ++ cs, knownTables := known } := by
  induction cs generalizing vs with
  | nil => exact ⟨vs.knownTables, by rw [List.append_nil]; rfl⟩
  | cons c cs ih =>
    obtain ⟨known, heq⟩ := ih (vs.withChange c)
    exact ⟨known, by rw [List.foldl_cons, heq]; simp [withChange]⟩

theorem foldl_withTable (entries : List (TableId × List BaseRow)) (vs : VersionStore) :
    ∃ known, entries.foldl withTable vs =
      { vs with
        baseline := replay vs.baseline (entries.map fun e => (e.1, some e.2))
        knownTables := known } := by
  induction entries generalizing vs with
  | nil => exact ⟨vs.knownTables, rfl⟩
  | cons entry entries ih =>
    obtain ⟨known, heq⟩ := ih (vs.withTable entry)
    exact ⟨known, by rw [List.foldl_cons, heq]; rfl⟩

/-- The baselines are what the entries make of no baselines. -/
theorem Lists.replay_eq {vs : VersionStore} {entries : List (TableId × List BaseRow)}
    (h : vs.Lists entries) :
    replay (fun _ => none) (entries.map fun e => (e.1, some e.2)) = vs.baseline := by
  have hother : ∀ {entries : List (TableId × List BaseRow)} {t : TableId},
      t ∉ entries.map Prod.fst → ∀ c ∈ entries.map (fun e => (e.1, some e.2)), c.1 ≠ t := by
    intro entries t ht c hc heq
    obtain ⟨e, he, rfl⟩ := List.mem_map.mp hc
    exact ht (heq ▸ List.mem_map_of_mem he)
  funext t
  by_cases ht : t ∈ entries.map Prod.fst
  · obtain ⟨⟨t, rows⟩, hmem, rfl⟩ := List.mem_map.mp ht
    obtain ⟨front, behind, heq⟩ := List.append_of_mem hmem
    have hnodup := h.nodup
    rw [heq, List.map_append, List.map_cons] at hnodup
    have hlast := (List.nodup_cons.mp (List.nodup_append.mp hnodup).2.1).1
    have hbaseline := (h.mem_iff t rows).mp hmem
    rw [hbaseline, heq, List.map_append, replay_append, List.map_cons, replay_cons,
      replay_of_not_mem _ (hother hlast), Function.update_self]
  · rw [replay_of_not_mem _ (hother ht)]
    cases hb : vs.baseline t with
    | none => rfl
    | some rows => exact absurd (List.mem_map.mpr ⟨_, (h.mem_iff t rows).mpr hb, rfl⟩) ht

/-- A store without pending changes is restored over any other one, from what it is written
as: its versions, its baselines, its changes, and with these what every version reads. -/
theorem serialize_restores {vs : VersionStore} {entries : List (TableId × List BaseRow)}
    (hentries : vs.Lists entries) (hrange : vs.InRange entries) (hpending : vs.pending = [])
    (old : VersionStore) :
    let read := (old.deserialize ⟨vs.serialize entries, false⟩).1
    read.version = vs.version ∧ read.baselineVersion = vs.baselineVersion ∧
      read.baseline = vs.baseline ∧ read.log = vs.log ∧ read.pending = vs.pending ∧
      ∀ tableId version, read.snapshotAsOf tableId version = vs.snapshotAsOf tableId version := by
  intro read
  have hread : read = vs.restored old entries :=
    congrArg Prod.fst (deserialize_run hrange old)
  obtain ⟨known, htables⟩ := foldl_withTable entries
    { old with
      log := [], pending := [], baseline := fun _ => none, knownTables := []
      version := vs.version, baselineVersion := vs.baselineVersion }
  rw [restored, htables] at hread
  obtain ⟨known', hlog⟩ := foldl_withChange vs.log _
  rw [hlog, hentries.replay_eq] at hread
  have hbaseline : read.baseline = vs.baseline := by rw [hread]
  have hversion : read.baselineVersion = vs.baselineVersion := by rw [hread]
  have hchanges : read.log = vs.log := by rw [hread]; rfl
  refine ⟨by rw [hread], hversion, hbaseline, hchanges, by rw [hread, hpending], ?_⟩
  intro tableId version
  simp only [snapshotAsOf, reconstruct, hbaseline, hversion, hchanges]

/-- A table with a negative id, whose row is a blank, a digit and a newline, and the change
of its row to nothing. -/
theorem serialize_restores_blank :
    let rows : List BaseRow := [(⟨-1, 3⟩, [32, 49, 10])]
    let change : Change := { version := 2, tableId := -4, isDelete := false, rid := ⟨-1, 3⟩ }
    let vs : VersionStore :=
      { version := 2, baselineVersion := 1, log := [change], knownTables := [-4]
        baseline := fun t => if t = -4 then some rows else none }
    let read := (({} : VersionStore).deserialize ⟨vs.serialize [(-4, rows)], false⟩).1
    read.version = vs.version ∧ read.baselineVersion = vs.baselineVersion ∧
      read.baseline = vs.baseline ∧ read.log = vs.log ∧ read.pending = vs.pending ∧
      ∀ tableId version, read.snapshotAsOf tableId version = vs.snapshotAsOf tableId version := by
  intro rows change vs
  have hlists : vs.Lists [(-4, rows)] := by
    refine ⟨by decide, fun t rows' => ?_⟩
    by_cases ht : t = -4
    · simp [vs, ht, eq_comm]
    · simp [vs, ht]
  have hrow : TableInRange (-4, rows) :=
    ⟨by decide, by decide, List.forall_mem_singleton.mpr ⟨by decide, by decide, by decide⟩⟩
  have hchange : change.InRange := ⟨by decide, by decide, by decide, by decide, by decide⟩
  exact serialize_restores hlists
    ⟨by decide, by decide, by decide, List.forall_mem_singleton.mpr hrow, by decide,
      List.forall_mem_singleton.mpr hchange⟩ rfl {}

end VersionStore

end Relite.Vm
