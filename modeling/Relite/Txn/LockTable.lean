import Mathlib.Data.List.Nodup
import Relite.Lib.Run
import Relite.Txn.LockManager

/-!
# The safety of the lock table

Requests, waits and releases of any transactions in any order. The two maps of the lock
manager stay inverse to each other, and an exclusive lock has no company.
-/
namespace Relite.Txn
open Lib Vm

/-- Holding a lock in mode `m'` is as good as holding it in mode `m`. -/
def LockMode.Covers (m' m : LockMode) : Prop := m' = m ∨ m' = .Exclusive

namespace LockManager
variable {locks : LockManager} {rid r : RecordID} {txnId t : TxnId} {mode m : LockMode}

def tryLock (locks : LockManager) (txnId : TxnId) (rid : RecordID) (mode : LockMode) :
    Bool × LockManager :=
  if locks.canGrant rid txnId mode then (true, locks.grant rid txnId mode) else (false, locks)

def unlock (locks : LockManager) (txnId : TxnId) (rid : RecordID) : LockManager where
  table := Function.update locks.table rid ((locks.table rid).filter fun h => h.1 ≠ txnId)
  heldByTxn := Function.update locks.heldByTxn txnId
    ((locks.heldByTxn txnId).filter fun r => r ≠ rid)

/-! ## The holders of one record -/

/-- What `grant` makes of the holders of a record. -/
def granted (holders : List (TxnId × LockMode)) (txnId : TxnId) (mode : LockMode) :
    List (TxnId × LockMode) :=
  if holders.any fun h => h.1 == txnId then
    if mode = .Exclusive then
      holders.map fun h => if h.1 = txnId then (h.1, LockMode.Exclusive) else h
    else holders
  else (txnId, mode) :: holders

theorem grant_table : (locks.grant rid txnId mode).table =
    Function.update locks.table rid (granted (locks.table rid) txnId mode) := by
  unfold grant granted
  simp only
  split
  · split
    · rfl
    · exact (Function.update_eq_self rid locks.table).symm
  · rfl

theorem grant_heldByTxn : (locks.grant rid txnId mode).heldByTxn =
    if txnId ∈ (locks.table rid).map Prod.fst then locks.heldByTxn
    else Function.update locks.heldByTxn txnId (locks.heldByTxn txnId ++ [rid]) := by
  have hany : ((locks.table rid).any fun h => h.1 == txnId) = true ↔
      txnId ∈ (locks.table rid).map Prod.fst := by
    simp
  unfold grant
  simp only
  split
  · rename_i h
    rw [if_pos (hany.mp h)]
    split <;> rfl
  · rename_i h
    rw [if_neg (fun hm => h (hany.mpr hm))]

/-- Granting adds the requester to the holders and keeps everybody else. -/
theorem map_fst_granted (holders : List (TxnId × LockMode)) (txnId : TxnId) (mode : LockMode) :
    (granted holders txnId mode).map Prod.fst =
      if txnId ∈ holders.map Prod.fst then holders.map Prod.fst
      else txnId :: holders.map Prod.fst := by
  have hany : (holders.any fun h => h.1 == txnId) = true ↔ txnId ∈ holders.map Prod.fst := by
    simp
  unfold granted
  split
  · rename_i h
    rw [if_pos (hany.mp h)]
    split
    · rw [List.map_map]
      refine List.map_congr_left fun h _ => ?_
      simp only [Function.comp]
      split <;> rfl
    · rfl
  · rename_i h
    rw [if_neg (fun hm => h (hany.mpr hm))]
    rfl

theorem mem_granted {holders : List (TxnId × LockMode)} {h : TxnId × LockMode}
    (hmem : h ∈ granted holders txnId mode) : h ∈ holders ∨ h.1 = txnId := by
  unfold granted at hmem
  split at hmem
  · split at hmem
    · obtain ⟨h₀, h₀mem, rfl⟩ := List.mem_map.mp hmem
      split
      · exact .inr ‹_›
      · exact .inl h₀mem
    · exact .inl hmem
  · rcases List.mem_cons.mp hmem with rfl | hmem
    · exact .inr rfl
    · exact .inl hmem

/-- Whose lock a grant makes exclusive. -/
theorem exclusive_mem_granted {holders : List (TxnId × LockMode)}
    (hmem : (t, .Exclusive) ∈ granted holders txnId mode) :
    (t, .Exclusive) ∈ holders ∨ t = txnId ∧ mode = .Exclusive := by
  unfold granted at hmem
  split at hmem
  · split at hmem
    · rename_i hmode
      obtain ⟨h₀, h₀mem, heq⟩ := List.mem_map.mp hmem
      split at heq
      · rename_i hid
        exact .inr ⟨(congrArg Prod.fst heq).symm.trans hid, hmode⟩
      · exact .inl (heq ▸ h₀mem)
    · exact .inl hmem
  · rcases List.mem_cons.mp hmem with heq | hmem
    · simp only [Prod.mk.injEq] at heq
      exact .inr ⟨heq.1, heq.2.symm⟩
    · exact .inl hmem

/-! ## What a lock table keeps -/

/-- No exclusive lock has company, nobody is twice a holder of a record, and the lists of
the transactions name exactly the records they hold. -/
structure Safe (locks : LockManager) : Prop where
  alone : ∀ rid txnId, (txnId, .Exclusive) ∈ locks.table rid → ∀ h ∈ locks.table rid, h.1 = txnId
  unique : ∀ rid, ((locks.table rid).map Prod.fst).Nodup
  listed : ∀ txnId rid, rid ∈ locks.heldByTxn txnId ↔ txnId ∈ (locks.table rid).map Prod.fst
  once : ∀ txnId, (locks.heldByTxn txnId).Nodup

theorem Safe.empty : Safe {} := by
  constructor <;> simp

theorem Safe.eq_singleton (hsafe : locks.Safe) (h : (txnId, .Exclusive) ∈ locks.table rid) :
    locks.table rid = [(txnId, .Exclusive)] := by
  have halone := hsafe.alone rid txnId h
  have hunique := hsafe.unique rid
  cases hholders : locks.table rid with
  | nil => simp [hholders] at h
  | cons h₁ rest =>
    rw [hholders] at h halone hunique
    cases rest with
    | nil => rw [List.mem_singleton.mp h]
    | cons h₂ rest =>
      have h₁₂ : h₁.1 = h₂.1 := (halone h₁ (by simp)).trans (halone h₂ (by simp)).symm
      simp [h₁₂] at hunique

/-- Somebody else's lock is compatible with what is granted. -/
theorem canGrant_iff : locks.canGrant rid txnId mode = true ↔
    ∀ h ∈ locks.table rid, h.1 = txnId ∨ mode ≠ .Exclusive ∧ h.2 ≠ .Exclusive := by
  simp [canGrant]

theorem Safe.grant (hsafe : locks.Safe) (hcan : locks.canGrant rid txnId mode = true) :
    (locks.grant rid txnId mode).Safe := by
  rw [canGrant_iff] at hcan
  constructor
  · intro r t hex h hmem
    simp only [grant_table, Function.update_apply] at hex hmem
    split at hex
    · rename_i hr
      rw [if_pos hr] at hmem
      rcases exclusive_mem_granted hex with hex | ⟨rfl, hmode⟩
      · -- an exclusive lock that was there belongs to the requester
        have ht : t = txnId := (hcan _ hex).resolve_right fun hne => hne.2 rfl
        rcases mem_granted hmem with hmem | hid
        · exact hsafe.alone rid t hex h hmem
        · exact hid.trans ht.symm
      · rcases mem_granted hmem with hmem | hid
        · exact (hcan h hmem).resolve_right fun hne => hne.1 hmode
        · exact hid
    · rename_i hr
      rw [if_neg hr] at hmem
      exact hsafe.alone r t hex h hmem
  · intro r
    simp only [grant_table, Function.update_apply]
    split
    · rw [map_fst_granted]
      split
      · exact hsafe.unique rid
      · exact List.nodup_cons.mpr ⟨‹_›, hsafe.unique rid⟩
    · exact hsafe.unique r
  · intro t r
    simp only [grant_table, grant_heldByTxn, Function.update_apply]
    by_cases hr : r = rid
    · subst hr
      rw [if_pos rfl, map_fst_granted]
      split
      · rename_i hin
        exact hsafe.listed t r
      · rename_i hnot
        simp only [Function.update_apply]
        split
        · rename_i ht
          simp [ht]
        · rename_i ht
          rw [hsafe.listed t r, List.mem_cons, or_iff_right ht]
    · rw [if_neg hr]
      split
      · exact hsafe.listed t r
      · simp only [Function.update_apply]
        split
        · rename_i ht
          rw [List.mem_append, List.mem_singleton, or_iff_left hr, ht]
          exact hsafe.listed txnId r
        · exact hsafe.listed t r
  · intro t
    simp only [grant_heldByTxn]
    split
    · exact hsafe.once t
    · rename_i hnot
      simp only [Function.update_apply]
      split
      · have hnew : rid ∉ locks.heldByTxn txnId := fun hin =>
          hnot ((hsafe.listed txnId rid).mp hin)
        exact (hsafe.once txnId).append (List.nodup_singleton rid) (List.disjoint_singleton.mpr hnew)
      · exact hsafe.once t

theorem mem_map_fst_filter {holders : List (TxnId × LockMode)} :
    t ∈ (holders.filter fun h => h.1 ≠ txnId).map Prod.fst ↔
      t ∈ holders.map Prod.fst ∧ t ≠ txnId := by
  simp only [List.mem_map, List.mem_filter, decide_eq_true_eq]
  constructor
  · rintro ⟨h, ⟨hmem, hne⟩, rfl⟩
    exact ⟨⟨h, hmem, rfl⟩, hne⟩
  · rintro ⟨⟨h, hmem, rfl⟩, hne⟩
    exact ⟨h, ⟨hmem, hne⟩, rfl⟩

theorem Safe.unlock (hsafe : locks.Safe) : (locks.unlock txnId rid).Safe := by
  constructor
  · intro r t hex h hmem
    simp only [LockManager.unlock, Function.update_apply] at hex hmem
    split at hex
    · rename_i hr
      rw [if_pos hr] at hmem
      exact hsafe.alone rid t (List.mem_of_mem_filter hex) h (List.mem_of_mem_filter hmem)
    · rename_i hr
      rw [if_neg hr] at hmem
      exact hsafe.alone r t hex h hmem
  · intro r
    simp only [LockManager.unlock, Function.update_apply]
    split
    · exact (hsafe.unique rid).sublist (List.Sublist.map _ List.filter_sublist)
    · exact hsafe.unique r
  · intro t r
    simp only [LockManager.unlock, Function.update_apply]
    by_cases hr : r = rid
    · subst hr
      rw [if_pos rfl, mem_map_fst_filter]
      split
      · rename_i ht
        simp [ht]
      · rename_i ht
        rw [hsafe.listed t r, and_iff_left ht]
    · rw [if_neg hr]
      split
      · rename_i ht
        subst ht
        simp only [List.mem_filter, decide_eq_true_eq, and_iff_left hr, hsafe.listed]
      · exact hsafe.listed t r
  · intro t
    simp only [LockManager.unlock, Function.update_apply]
    split
    · exact (hsafe.once txnId).filter _
    · exact hsafe.once t

/-- All locks of a transaction are on its list, so `unlockAll` finds every one. -/
theorem Safe.unlockAll_table (hsafe : locks.Safe) (rid : RecordID) :
    (locks.unlockAll txnId).table rid = (locks.table rid).filter fun h => h.1 ≠ txnId := by
  simp only [LockManager.unlockAll]
  split
  · rfl
  · rename_i hnot
    rw [hsafe.listed, List.mem_map] at hnot
    refine (List.filter_eq_self.mpr fun h hmem => ?_).symm
    exact decide_eq_true fun hid => hnot ⟨h, hmem, hid⟩

theorem Safe.unlockAll (hsafe : locks.Safe) : (locks.unlockAll txnId).Safe := by
  constructor
  · intro r t hex h hmem
    rw [hsafe.unlockAll_table] at hex hmem
    exact hsafe.alone r t (List.mem_of_mem_filter hex) h (List.mem_of_mem_filter hmem)
  · intro r
    rw [hsafe.unlockAll_table]
    exact (hsafe.unique r).sublist (List.Sublist.map _ List.filter_sublist)
  · intro t r
    rw [hsafe.unlockAll_table, mem_map_fst_filter]
    simp only [LockManager.unlockAll, Function.update_apply]
    split
    · rename_i ht
      simp [ht]
    · rename_i ht
      rw [hsafe.listed t r, and_iff_left ht]
  · intro t
    simp only [LockManager.unlockAll, Function.update_apply]
    split
    · exact List.nodup_nil
    · exact hsafe.once t

/-! ## Modes do not weaken -/

theorem granted_covers (txnId : TxnId) (mode : LockMode) {holders : List (TxnId × LockMode)}
    (h : (t, m) ∈ holders) :
    ∃ m', m'.Covers m ∧ (t, m') ∈ granted holders txnId mode := by
  unfold granted
  split
  · split
    · by_cases ht : t = txnId
      · exact ⟨.Exclusive, .inr rfl, List.mem_map.mpr ⟨(t, m), h, if_pos ht⟩⟩
      · exact ⟨m, .inl rfl, List.mem_map.mpr ⟨(t, m), h, if_neg ht⟩⟩
    · exact ⟨m, .inl rfl, h⟩
  · exact ⟨m, .inl rfl, List.mem_cons_of_mem _ h⟩

theorem requester_granted (holders : List (TxnId × LockMode)) :
    ∃ m', m'.Covers mode ∧ (txnId, m') ∈ granted holders txnId mode := by
  unfold granted
  split
  · rename_i hany
    obtain ⟨⟨t, m⟩, hmem, hid⟩ := List.any_eq_true.mp hany
    obtain rfl : t = txnId := by simpa using hid
    split
    · exact ⟨.Exclusive, .inr rfl, List.mem_map.mpr ⟨(t, m), hmem, if_pos rfl⟩⟩
    · rename_i hmode
      refine ⟨m, ?_, hmem⟩
      cases mode with
      | Shared => cases m with
        | Shared => exact .inl rfl
        | Exclusive => exact .inr rfl
      | Exclusive => exact absurd rfl hmode
  · exact ⟨mode, .inl rfl, List.mem_cons_self⟩

/-- `txnId` holds `rid` in a mode as good as `mode`. -/
def Holds (locks : LockManager) (txnId : TxnId) (rid : RecordID) (mode : LockMode) : Prop :=
  ∃ m, m.Covers mode ∧ (txnId, m) ∈ locks.table rid

theorem Holds.grant (h : locks.Holds t r m) : (locks.grant rid txnId mode).Holds t r m := by
  obtain ⟨m₁, hcov, hmem⟩ := h
  simp only [Holds, grant_table, Function.update_apply]
  split
  · rename_i hr
    obtain ⟨m₂, hcov₂, hmem₂⟩ := granted_covers txnId mode (hr ▸ hmem)
    refine ⟨m₂, ?_, hmem₂⟩
    rcases hcov₂ with rfl | rfl
    · exact hcov
    · exact .inr rfl
  · exact ⟨m₁, hcov, hmem⟩

theorem holds_grant : (locks.grant rid txnId mode).Holds txnId rid mode := by
  simp only [Holds, grant_table, Function.update_self]
  exact requester_granted (locks.table rid)

theorem Holds.unlock (h : locks.Holds t r m) (hne : ¬(txnId = t ∧ rid = r)) :
    (locks.unlock txnId rid).Holds t r m := by
  obtain ⟨m₁, hcov, hmem⟩ := h
  refine ⟨m₁, hcov, ?_⟩
  simp only [LockManager.unlock, Function.update_apply]
  split
  · rename_i hr
    refine List.mem_filter.mpr ⟨hr ▸ hmem, decide_eq_true fun ht => hne ⟨ht.symm, hr.symm⟩⟩
  · exact hmem

theorem Holds.unlockAll (h : locks.Holds t r m) (hne : txnId ≠ t) :
    (locks.unlockAll txnId).Holds t r m := by
  obtain ⟨m₁, hcov, hmem⟩ := h
  refine ⟨m₁, hcov, ?_⟩
  simp only [LockManager.unlockAll]
  split
  · exact List.mem_filter.mpr ⟨hmem, decide_eq_true fun ht => hne ht.symm⟩
  · exact hmem

end LockManager

/-! ## Requests that wait -/

/-- A call of `lock` that has not returned yet. -/
structure LockRequest where
  txnId : TxnId
  rid : RecordID
  mode : LockMode

structure LockCalls where
  locks : LockManager := {}
  waiting : List LockRequest := []

inductive LockStep
  | tryLock (request : LockRequest)
  | lock (request : LockRequest)
  /-- The `i`-th call that waits looks at the table once more. -/
  | wake (i : Nat)
  /-- The `i`-th call that waits has its five seconds over and looks for the last time. -/
  | timeout (i : Nat)
  | unlock (txnId : TxnId) (rid : RecordID)
  | unlockAll (txnId : TxnId)

def LockStep.Releases (txnId : TxnId) (rid : RecordID) : LockStep → Prop
  | .unlock t r => t = txnId ∧ r = rid
  | .unlockAll t => t = txnId
  | _ => False

namespace LockCalls
open LockManager

/-- The next state, and the call that returns with its answer. -/
def answer (s : LockCalls) : LockStep → LockCalls × Option (LockRequest × Bool)
  | .tryLock q =>
    let (granted, locks) := s.locks.tryLock q.txnId q.rid q.mode
    ({ s with locks }, some (q, granted))
  | .lock q =>
    if s.locks.canGrant q.rid q.txnId q.mode then
      ({ s with locks := s.locks.grant q.rid q.txnId q.mode }, some (q, true))
    else ({ s with waiting := s.waiting ++ [q] }, none)
  | .wake i =>
    match s.waiting[i]? with
    | none => (s, none)
    | some q =>
      if s.locks.canGrant q.rid q.txnId q.mode then
        ({ locks := s.locks.grant q.rid q.txnId q.mode, waiting := s.waiting.eraseIdx i },
          some (q, true))
      else (s, none)
  | .timeout i =>
    match s.waiting[i]? with
    | none => (s, none)
    | some q =>
      let (granted, locks) := s.locks.tryLock q.txnId q.rid q.mode
      ({ locks, waiting := s.waiting.eraseIdx i }, some (q, granted))
  | .unlock txnId rid => ({ s with locks := s.locks.unlock txnId rid }, none)
  | .unlockAll txnId => ({ s with locks := s.locks.unlockAll txnId }, none)

def step (s : LockCalls) (o : LockStep) : LockCalls := (s.answer o).1

/-- All that a step can do to the locks: nothing, a grant that the table allows and the
call is told of, or a release. -/
theorem answer_cases (s : LockCalls) (o : LockStep) :
    ((s.step o).locks = s.locks ∧ ∀ q, (s.answer o).2 ≠ some (q, true)) ∨
    (∃ q, s.locks.canGrant q.rid q.txnId q.mode = true ∧
      (s.step o).locks = s.locks.grant q.rid q.txnId q.mode ∧ (s.answer o).2 = some (q, true)) ∨
    (∃ txnId rid, o = .unlock txnId rid ∧ (s.step o).locks = s.locks.unlock txnId rid ∧
      (s.answer o).2 = none) ∨
    (∃ txnId, o = .unlockAll txnId ∧ (s.step o).locks = s.locks.unlockAll txnId ∧
      (s.answer o).2 = none) := by
  unfold step
  cases o with
  | tryLock q =>
    simp only [answer, LockManager.tryLock]
    by_cases hcan : s.locks.canGrant q.rid q.txnId q.mode = true
    · rw [if_pos hcan]
      exact .inr (.inl ⟨q, hcan, rfl, rfl⟩)
    · rw [if_neg hcan]
      exact .inl ⟨rfl, by simp⟩
  | lock q =>
    simp only [answer]
    by_cases hcan : s.locks.canGrant q.rid q.txnId q.mode = true
    · rw [if_pos hcan]
      exact .inr (.inl ⟨q, hcan, rfl, rfl⟩)
    · rw [if_neg hcan]
      exact .inl ⟨rfl, by simp⟩
  | wake i =>
    simp only [answer]
    cases hq : s.waiting[i]? with
    | none => exact .inl ⟨rfl, by simp⟩
    | some q =>
      by_cases hcan : s.locks.canGrant q.rid q.txnId q.mode = true
      · simp only [if_pos hcan]
        exact .inr (.inl ⟨q, hcan, rfl, rfl⟩)
      · simp only [if_neg hcan]
        exact .inl ⟨trivial, by simp⟩
  | timeout i =>
    simp only [answer, LockManager.tryLock]
    cases hq : s.waiting[i]? with
    | none => exact .inl ⟨rfl, by simp⟩
    | some q =>
      by_cases hcan : s.locks.canGrant q.rid q.txnId q.mode = true
      · simp only [if_pos hcan]
        exact .inr (.inl ⟨q, hcan, rfl, rfl⟩)
      · simp only [if_neg hcan]
        exact .inl ⟨trivial, by simp⟩
  | unlock txnId rid => exact .inr (.inr (.inl ⟨txnId, rid, rfl, rfl, rfl⟩))
  | unlockAll txnId => exact .inr (.inr (.inr ⟨txnId, rfl, rfl, rfl⟩))

theorem safe_step {s : LockCalls} {o : LockStep} (hsafe : s.locks.Safe) :
    (s.step o).locks.Safe := by
  obtain ⟨h, -⟩ | ⟨q, hcan, h, -⟩ | ⟨txnId, rid, -, h, -⟩ | ⟨txnId, -, h, -⟩ := s.answer_cases o <;>
    rw [h]
  · exact hsafe
  · exact hsafe.grant hcan
  · exact hsafe.unlock
  · exact hsafe.unlockAll

theorem holds_step {s : LockCalls} {o : LockStep} {txnId : TxnId} {rid : RecordID}
    {mode : LockMode} (hkept : ¬o.Releases txnId rid) (hheld : s.locks.Holds txnId rid mode) :
    (s.step o).locks.Holds txnId rid mode := by
  obtain ⟨h, -⟩ | ⟨q, -, h, -⟩ | ⟨t, r, rfl, h, -⟩ | ⟨t, rfl, h, -⟩ := s.answer_cases o <;> rw [h]
  · exact hheld
  · exact hheld.grant
  · exact hheld.unlock hkept
  · exact hheld.unlockAll hkept

theorem safe_run {s : LockCalls} (hsafe : s.locks.Safe) (ops : List LockStep) :
    (run step s ops).locks.Safe := by
  induction ops generalizing s with
  | nil => exact hsafe
  | cons o ops ih => exact ih (safe_step hsafe)

theorem holds_run {s : LockCalls} {txnId : TxnId} {rid : RecordID} {mode : LockMode}
    (hheld : s.locks.Holds txnId rid mode) {ops : List LockStep}
    (hkept : ∀ o ∈ ops, ¬o.Releases txnId rid) : (run step s ops).locks.Holds txnId rid mode := by
  induction ops generalizing s with
  | nil => exact hheld
  | cons o ops ih =>
    refine ih (holds_step (hkept o List.mem_cons_self) hheld) fun o' h => ?_
    exact hkept o' (List.mem_cons_of_mem o h)

/-- In every reachable state an exclusive holder is the only holder, the list of a
transaction names each record it holds once and no other, what a call is told it was
granted it holds, in that mode or a stronger one, until it is released, and `unlockAll`
leaves a transaction with nothing. -/
theorem lock_table_safe (ops : List LockStep) :
    let s := run step {} ops
    (∀ rid txnId, (txnId, .Exclusive) ∈ s.locks.table rid →
      s.locks.table rid = [(txnId, .Exclusive)]) ∧
    (∀ txnId, (s.locks.heldByTxn txnId).Nodup ∧
      ∀ rid, rid ∈ s.locks.heldByTxn txnId ↔ ∃ mode, (txnId, mode) ∈ s.locks.table rid) ∧
    (∀ o q, (s.answer o).2 = some (q, true) → (s.step o).locks.Holds q.txnId q.rid q.mode) ∧
    (∀ txnId rid mode ops', s.locks.Holds txnId rid mode →
      (∀ o ∈ ops', ¬o.Releases txnId rid) → (run step s ops').locks.Holds txnId rid mode) ∧
    (∀ txnId rid, rid ∉ (s.step (.unlockAll txnId)).locks.heldByTxn txnId ∧
      ∀ mode, (txnId, mode) ∉ (s.step (.unlockAll txnId)).locks.table rid) := by
  intro s
  have hsafe : s.locks.Safe := safe_run Safe.empty ops
  refine ⟨?_, ?_, ?_, ?_, ?_⟩
  · intro rid txnId hex
    exact hsafe.eq_singleton hex
  · intro txnId
    refine ⟨hsafe.once txnId, fun rid => ?_⟩
    rw [hsafe.listed txnId rid]
    simp
  · intro o q hq
    obtain ⟨-, h⟩ | ⟨q', -, h, hq'⟩ | ⟨-, -, -, -, h⟩ | ⟨-, -, -, h⟩ := s.answer_cases o
    · exact absurd hq (h q)
    · obtain rfl : q' = q := by simpa [hq'] using hq
      rw [h]
      exact holds_grant
    · rw [h] at hq
      exact absurd hq (by simp)
    · rw [h] at hq
      exact absurd hq (by simp)
  · intro txnId rid mode ops' hheld hkept
    exact holds_run hheld hkept
  · intro txnId rid
    have hnot : rid ∉ (s.locks.unlockAll txnId).heldByTxn txnId := by
      simp [LockManager.unlockAll]
    refine ⟨hnot, fun mode hmem => hnot ?_⟩
    exact (hsafe.unlockAll.listed txnId rid).mpr (List.mem_map.mpr ⟨_, hmem, rfl⟩)

end LockCalls

end Relite.Txn
