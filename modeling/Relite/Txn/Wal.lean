import Relite.Vm.TableManager

/-!
# The write-ahead log

The log is the list of its records; `append` numbers them. `reset` empties the log file
and starts the numbers again at 1.
-/
namespace Relite.Txn
open Lib Vm

abbrev TxnId := Int

inductive LogType
  | Begin
  | Insert
  | Delete
  | Update
  | Commit
  | Abort
  deriving DecidableEq, Repr

structure LogRecord where
  lsn : Nat := 0
  txnId : TxnId
  type : LogType
  tableId : TableId := -1
  rid : RecordID := {}
  beforeImage : Bytes := []
  afterImage : Bytes := []
  deriving DecidableEq, Repr

structure WriteAheadLog where
  records : List LogRecord := []
  nextLsn : Nat := 1
  appendsSinceReset : Nat := 0

namespace WriteAheadLog

def append (wal : WriteAheadLog) (record : LogRecord) : WriteAheadLog where
  records := wal.records ++ [{ record with lsn := wal.nextLsn }]
  nextLsn := wal.nextLsn + 1
  appendsSinceReset := wal.appendsSinceReset + 1

def readAll (wal : WriteAheadLog) : List LogRecord := wal.records

def reset (_wal : WriteAheadLog) : WriteAheadLog := {}

/-- Opening a log goes on after the highest number it finds in the file. -/
def reopen (wal : WriteAheadLog) : WriteAheadLog where
  records := wal.records
  nextLsn := wal.records.foldl (fun n r => if n ≤ r.lsn then r.lsn + 1 else n) 1

def pendingRecords (wal : WriteAheadLog) : Nat := wal.appendsSinceReset

/-- The numbers of a log grow from 1. -/
structure WF (wal : WriteAheadLog) : Prop where
  sorted : wal.records.Pairwise fun a b => a.lsn < b.lsn
  pos : ∀ r ∈ wal.records, 0 < r.lsn
  lt_next : ∀ r ∈ wal.records, r.lsn < wal.nextLsn
  next_pos : 0 < wal.nextLsn

theorem wf_empty : WF {} where
  sorted := List.Pairwise.nil
  pos r h := by simp at h
  lt_next r h := by simp at h
  next_pos := Nat.one_pos

theorem WF.append {wal : WriteAheadLog} (h : wal.WF) (record : LogRecord) :
    (wal.append record).WF where
  sorted := by
    refine List.pairwise_append.mpr ⟨h.sorted, List.pairwise_singleton _ _, ?_⟩
    intro a ha b hb
    rw [List.mem_singleton.mp hb]
    exact h.lt_next a ha
  pos r hr := by
    rcases List.mem_append.mp hr with hr | hr
    · exact h.pos r hr
    · rw [List.mem_singleton.mp hr]
      exact h.next_pos
  lt_next r hr := by
    have hnext : (wal.append record).nextLsn = wal.nextLsn + 1 := rfl
    rcases List.mem_append.mp hr with hr | hr
    · have := h.lt_next r hr
      omega
    · rw [List.mem_singleton.mp hr]
      exact Nat.lt_succ_self _
  next_pos := Nat.succ_pos _

theorem readAll_append (wal : WriteAheadLog) (record : LogRecord) :
    (wal.append record).readAll = wal.readAll ++ [{ record with lsn := wal.nextLsn }] := rfl

end WriteAheadLog

end Relite.Txn
