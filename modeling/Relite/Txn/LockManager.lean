import Relite.Txn.Wal

/-!
# The lock table

Shared and exclusive locks on record ids. A request that cannot be granted waits for
five seconds; between statements nobody gives a lock back, so it then fails.
-/
namespace Relite.Txn
open Lib Vm

inductive LockMode
  | Shared
  | Exclusive
  deriving DecidableEq, Repr

structure LockManager where
  table : RecordID → List (TxnId × LockMode) := fun _ => []
  heldByTxn : TxnId → List RecordID := fun _ => []

namespace LockManager

def canGrant (locks : LockManager) (rid : RecordID) (txnId : TxnId) (mode : LockMode) : Bool :=
  (locks.table rid).all fun (holder, held) =>
    holder == txnId || !(mode == .Exclusive || held == .Exclusive)

def grant (locks : LockManager) (rid : RecordID) (txnId : TxnId) (mode : LockMode) : LockManager :=
  let holders := locks.table rid
  if holders.any fun h => h.1 == txnId then
    if mode = .Exclusive then
      let holders := holders.map fun h => if h.1 = txnId then (h.1, LockMode.Exclusive) else h
      { locks with table := Function.update locks.table rid holders }
    else locks
  else
    { table := Function.update locks.table rid ((txnId, mode) :: holders)
      heldByTxn := Function.update locks.heldByTxn txnId (locks.heldByTxn txnId ++ [rid]) }

def unlockAll (locks : LockManager) (txnId : TxnId) : LockManager where
  table := fun rid =>
    if rid ∈ locks.heldByTxn txnId then (locks.table rid).filter fun h => h.1 ≠ txnId
    else locks.table rid
  heldByTxn := Function.update locks.heldByTxn txnId []

/-- Nobody but `txnId` holds a lock, and all of its locks are on its list. -/
structure Only (locks : LockManager) (txnId : TxnId) : Prop where
  holder : ∀ rid, ∀ h ∈ locks.table rid, h.1 = txnId
  listed : ∀ rid, locks.table rid ≠ [] → rid ∈ locks.heldByTxn txnId

theorem Only.canGrant {locks : LockManager} {txnId : TxnId} (h : locks.Only txnId) (rid : RecordID)
    (mode : LockMode) : locks.canGrant rid txnId mode = true := by
  simp only [LockManager.canGrant, List.all_eq_true]
  intro e he
  simp [h.holder rid e he]

theorem Only.grant {locks : LockManager} {txnId : TxnId} (h : locks.Only txnId) (rid : RecordID)
    (mode : LockMode) : (locks.grant rid txnId mode).Only txnId := by
  unfold LockManager.grant
  simp only
  split
  · rename_i hany
    have hne : locks.table rid ≠ [] := by
      intro hnil
      simp [hnil] at hany
    split
    · constructor
      · intro r e he
        simp only [Function.update_apply] at he
        split at he
        · obtain ⟨e₀, h₀, rfl⟩ := List.mem_map.mp he
          have := h.holder rid e₀ h₀
          simp [this]
        · exact h.holder r e he
      · intro r hr
        simp only [Function.update_apply] at hr
        split at hr
        · rename_i hrid
          exact hrid ▸ h.listed rid hne
        · exact h.listed r hr
    · exact h
  · constructor
    · intro r e he
      simp only [Function.update_apply] at he
      split at he
      · rcases List.mem_cons.mp he with rfl | he
        · rfl
        · exact h.holder rid e he
      · exact h.holder r e he
    · intro r hr
      simp only [Function.update_apply, if_true, List.mem_append, List.mem_singleton] at hr ⊢
      split at hr
      · exact .inr ‹_›
      · exact .inl (h.listed r hr)

/-- The lock table without any lock. -/
def Clear (locks : LockManager) : Prop := ∀ rid, locks.table rid = []

theorem Clear.only {locks : LockManager} (h : locks.Clear) (txnId : TxnId) : locks.Only txnId :=
  ⟨fun rid e he => by simp [h rid] at he, fun rid hr => absurd (h rid) hr⟩

theorem Only.unlockAll {locks : LockManager} {txnId : TxnId} (h : locks.Only txnId) :
    (locks.unlockAll txnId).Clear := by
  intro rid
  simp only [LockManager.unlockAll]
  split
  · refine List.filter_eq_nil_iff.mpr fun e he => ?_
    simp [h.holder rid e he]
  · rename_i hnot
    by_contra hne
    exact hnot (h.listed rid hne)

end LockManager

end Relite.Txn
