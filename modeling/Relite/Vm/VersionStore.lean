import Relite.Vm.TableManager

/-!
# The version store

An append-only log of row changes with a logical version each. History up to
`baselineVersion` is folded into a baseline per table. Writes are staged in `pending`
until the statement or the transaction commits. There is one such list for all
transactions.
-/
namespace Relite.Vm
open Lib

structure Change where
  version : Nat := 0
  tableId : TableId
  isDelete : Bool
  rid : RecordID
  bytes : Bytes := []
  deriving DecidableEq, Repr

abbrev BaseRow := RecordID × Bytes

structure VersionStore where
  log : List Change := []
  pending : List Change := []
  baseline : TableId → Option (List BaseRow) := fun _ => none
  knownTables : List TableId := []
  txnSnapshots : Int → Option Nat := fun _ => none
  baselineVersion : Nat := 0
  version : Nat := 0
  maxChanges : Nat := 2000000
  retainVersions : Nat := 200000

/-- The rows `reconstruct` and `snapshotForTxn` build up, with the position of each
record id and a flag that a delete takes down. -/
structure RowBuffer where
  pos : RecordID → Option Nat := fun _ => none
  rows : List (BaseRow × Bool) := []

namespace RowBuffer

def push (b : RowBuffer) (row : BaseRow) : RowBuffer :=
  { pos := Function.update b.pos row.1 (some b.rows.length), rows := b.rows ++ [(row, true)] }

def ofRows (rows : List BaseRow) : RowBuffer := rows.foldl push {}

def apply (b : RowBuffer) (c : Change) : RowBuffer :=
  match b.pos c.rid with
  | some i =>
    if c.isDelete then { b with rows := b.rows.modify i fun row => (row.1, false) }
    else { b with rows := b.rows.modify i fun row => ((row.1.1, c.bytes), true) }
  | none => if c.isDelete then b else b.push (c.rid, c.bytes)

/-- The rows that are still live, in the order they came. -/
def out (b : RowBuffer) : List BaseRow := (b.rows.filter Prod.snd).map Prod.fst

end RowBuffer

namespace VersionStore

def stageInsert (vs : VersionStore) (tableId : TableId) (rid : RecordID) (bytes : Bytes) :
    VersionStore :=
  { vs with
    pending := vs.pending ++ [{ tableId, isDelete := false, rid, bytes }]
    knownTables := vs.knownTables.insert tableId }

def stageDelete (vs : VersionStore) (tableId : TableId) (rid : RecordID) : VersionStore :=
  { vs with
    pending := vs.pending ++ [{ tableId, isDelete := true, rid }]
    knownTables := vs.knownTables.insert tableId }

def discardPending (vs : VersionStore) : VersionStore := { vs with pending := [] }

def seedBaseline (vs : VersionStore) (tableId : TableId) (rows : List BaseRow) : VersionStore :=
  { vs with
    baseline := Function.update vs.baseline tableId (some rows)
    knownTables := vs.knownTables.insert tableId }

def hasHistory (vs : VersionStore) (tableId : TableId) : Bool := vs.knownTables.contains tableId

def setRetention (vs : VersionStore) (maxChanges retainVersions : Nat) : VersionStore :=
  { vs with maxChanges, retainVersions }

/-- The loop of `reconstruct` over the log, which stops at the first later change. -/
def applyLog (tableId : TableId) (baselineVersion version : Nat) :
    List Change → RowBuffer → RowBuffer
  | [], b => b
  | c :: log, b =>
    if c.version ≤ baselineVersion then applyLog tableId baselineVersion version log b
    else if version < c.version then b
    else if c.tableId ≠ tableId then applyLog tableId baselineVersion version log b
    else applyLog tableId baselineVersion version log (b.apply c)

def reconstruct (vs : VersionStore) (tableId : TableId) (version : Nat) : List BaseRow :=
  (applyLog tableId vs.baselineVersion version vs.log
    (.ofRows ((vs.baseline tableId).getD []))).out

def snapshotAsOf (vs : VersionStore) (tableId : TableId) (version : Nat) : List Bytes :=
  let version := if version < vs.baselineVersion then vs.baselineVersion else version
  (vs.reconstruct tableId version).map Prod.snd

def beginSnapshot (vs : VersionStore) (txnId : Int) : VersionStore :=
  { vs with txnSnapshots := Function.update vs.txnSnapshots txnId (some vs.version) }

def endSnapshot (vs : VersionStore) (txnId : Int) : VersionStore :=
  { vs with txnSnapshots := Function.update vs.txnSnapshots txnId none }

def snapshotVersionOf (vs : VersionStore) (txnId : Int) : Option Nat := vs.txnSnapshots txnId

/-- The committed rows as of the snapshot, overlaid with whatever is pending. -/
def snapshotForTxn (vs : VersionStore) (tableId : TableId) (snapshotVersion : Nat) : List Bytes :=
  let version :=
    if snapshotVersion < vs.baselineVersion then vs.baselineVersion else snapshotVersion
  let rows := RowBuffer.ofRows (vs.reconstruct tableId version)
  let rows := (vs.pending.filter fun c => c.tableId = tableId).foldl RowBuffer.apply rows
  rows.out.map Prod.snd

def gc (vs : VersionStore) (horizon : Nat) : VersionStore :=
  let horizon := if vs.version < horizon then vs.version else horizon
  if horizon ≤ vs.baselineVersion then vs
  else
    { vs with
      baseline := fun t =>
        if t ∈ vs.knownTables then some (vs.reconstruct t horizon) else none
      log := vs.log.filter fun c => horizon < c.version
      baselineVersion := horizon }

def maybeGc (vs : VersionStore) : VersionStore :=
  if vs.log.length ≤ vs.maxChanges then vs
  else if vs.version ≤ vs.retainVersions then vs
  else vs.gc (vs.version - vs.retainVersions)

def commitPending (vs : VersionStore) : VersionStore :=
  if vs.pending = [] then vs
  else
    let version := vs.version + 1
    maybeGc { vs with
      version
      log := vs.log ++ vs.pending.map fun c => { c with version }
      pending := [] }

end VersionStore

end Relite.Vm
