import Relite.Txn.Crash

/-!
# Crash cycles

A database is opened, runs transactions, crashes and is opened again. Each recovery
stamps the pages it redoes with the numbers of the log, and then empties the log, whose
numbers start again at 1. A later redo is skipped for a number of an earlier log.
-/
namespace Relite.Txn
open Lib Vm Backend

/-- What happens between opening the database and opening it again. A log that lost its
unflushed tail is the complete log of a shorter history. -/
structure Cycle where
  ops : List HeapOp
  crash : Crash

/-- The database opened again: recovered, and with an empty log. -/
def reopen (v : Volatile) (c : Cycle) : Volatile :=
  match v.runOps c.ops with
  | some v' =>
    { tables := recover v'.wal.readAll (v.crashImage c.ops c.crash)
      wal := v'.wal.reset
      holder := fun _ => none
      nextTxnId := 1
      active := fun _ => none }
  | none => v

/-- No page carries the number of a committed record of the cycle, or a higher one, and
each record that recovery puts back finds room. -/
def StampedBelow (v : Volatile) (c : Cycle) : Prop :=
  match v.runOps c.ops with
  | some v' => NoneSkipped v'.wal.readAll (v.crashImage c.ops c.crash) ∧
      FindsRoom v'.wal.readAll (v.crashImage c.ops c.crash)
  | none => True

/-- The recovery of the cycle skips a record only if the page holds its effect, and it
loses no committed insert or delete. -/
def KeepsCommitted (v : Volatile) (c : Cycle) : Prop :=
  match v.runOps c.ops with
  | some v' =>
    AllSteps (redoRecord (committedTxns v'.wal.readAll)) (SkipSound (committedTxns v'.wal.readAll))
        (v.crashImage c.ops c.crash) v'.wal.readAll ∧
      ∀ u ∈ updates v'.wal.readAll, committedTxns v'.wal.readAll u.txn = true →
        (reopen v c).tables.getTuple u.key = committedOnly v'.wal.readAll (fun _ => none) u.key
  | none => True

instance (v : Volatile) (c : Cycle) : Decidable (StampedBelow v c) := by
  unfold StampedBelow; split <;> infer_instance

instance (v : Volatile) (c : Cycle) : Decidable (KeepsCommitted v c) := by
  unfold KeepsCommitted; split <;> infer_instance

/-- What a committed transaction has written does not depend on what was there before. -/
theorem committedOnly_of_committed {records : List LogRecord}
    {u : Update TxnId RecordID Bytes} (hu : u ∈ updates records)
    (hc : committedTxns records u.txn = true) (m m' : RecordID → Option Bytes) :
    committedOnly records m u.key = committedOnly records m' u.key := by
  have hmem : u ∈ winnersAt (committedTxns records) (updates records) u.key := by
    simp [winnersAt, hu, hc]
  rw [committedOnly, committedOnly, redoMap_apply, redoMap_apply]
  cases hl : (winnersAt (committedTxns records) (updates records) u.key).getLast? with
  | some w => rfl
  | none => rw [List.getLast?_eq_none_iff.mp hl] at hmem; simp at hmem

/-- A database that has just been opened. -/
def Fresh (v : Volatile) : Prop := v.tables.Sound ∧ v = .opened v.tables

theorem Fresh.reopen {v : Volatile} (h : Fresh v) {c : Cycle} (hc : StampedBelow v c) :
    Fresh (reopen v c) ∧ KeepsCommitted v c := by
  have hist := History.opened h.1
  rw [← h.2] at hist
  unfold StampedBelow at hc
  unfold KeepsCommitted Txn.reopen
  cases hrun : v.runOps c.ops with
  | none => exact ⟨h, trivial⟩
  | some v' =>
    simp only [hrun] at hc ⊢
    obtain ⟨hsound, hskips, m', -, hget⟩ := hist.recover_crashImage hrun c.crash hc.1 hc.2
    refine ⟨⟨hsound, rfl⟩, hskips, fun u hu hcommitted => ?_⟩
    rw [hget u.key (.inl ⟨u, hu, rfl⟩)]
    exact committedOnly_of_committed hu hcommitted _ _

/-- Over any number of crash cycles, redo skips only what a page already holds and keeps
all that was committed, as long as no page is stamped with a number that the log of the
cycle uses again. -/
theorem reopen_keepsCommitted {tables : TableManager} (h : tables.Sound) {cycles : List Cycle}
    (hcycles : AllSteps reopen StampedBelow (.opened tables) cycles) :
    AllSteps reopen KeepsCommitted (.opened tables) cycles := by
  have hfresh : Fresh (.opened tables) := ⟨h, rfl⟩
  exact hcycles.imp (fun _ _ hfresh hc => (hfresh.reopen hc).1)
    (fun _ _ hfresh hc => (hfresh.reopen hc).2) hfresh

def nothingFlushed : Crash := ⟨fun _ => 0, 0⟩

/-- The second of these cycles has inserted at a number above those of the first. -/
def quietCycles : List Cycle :=
  [⟨[.start, .insert 1 0 [7], .commit 1], nothingFlushed⟩,
   ⟨[.start, .start, .insert 2 0 [8], .commit 2], nothingFlushed⟩]

theorem reopen_keepsCommitted_quietCycles :
    AllSteps reopen KeepsCommitted (.opened .empty) quietCycles :=
  reopen_keepsCommitted TableManager.wf_empty.toSound (by decide +kernel)

/-- Here the second insert gets the number that the page is stamped with. -/
def lossyCycles : List Cycle :=
  [⟨[.start, .insert 1 0 [7], .commit 1], nothingFlushed⟩,
   ⟨[.start, .insert 1 0 [8], .commit 1], nothingFlushed⟩]

theorem reopen_loses_committed :
    ¬AllSteps reopen KeepsCommitted (.opened .empty) lossyCycles ∧
      (run reopen (.opened .empty) lossyCycles).tables.getTuple ⟨0, 1⟩ = none := by
  decide +kernel

end Relite.Txn
