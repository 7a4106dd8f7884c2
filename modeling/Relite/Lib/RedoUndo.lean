import Relite.Lib.ChangeLog

/-!
# Redo and undo of a keyed log

Recovery repeats the updates of committed transactions in log order and then takes back
those of the losers in reverse. A key ends up with what the first loser's update found
there, or else with what the last committed update left, or else unchanged
(`recoverMap_apply`). When each update was made to the value it names, and a loser keeps
its keys to itself, that is what the committed updates alone lead to, whatever part of
the history the recovered map already held (`recoverMap_of_history`).
-/
namespace Relite.Lib

variable {T K V : Type*} [DecidableEq K]

structure Update (T K V : Type*) where
  txn : T
  key : K
  before : Option V
  after : Option V

namespace Update

def redo (u : Update T K V) : K × Option V := (u.key, u.after)

def undo (u : Update T K V) : K × Option V := (u.key, u.before)

end Update

def redoMap (committed : T → Bool) (log : List (Update T K V)) (m : K → Option V) : K → Option V :=
  replay m ((log.filter fun u => committed u.txn).map Update.redo)

def undoMap (committed : T → Bool) (log : List (Update T K V)) (m : K → Option V) : K → Option V :=
  replay m ((log.filter fun u => !committed u.txn).reverse.map Update.undo)

def recoverMap (committed : T → Bool) (log : List (Update T K V)) (m : K → Option V) :
    K → Option V :=
  undoMap committed log (redoMap committed log m)

/-- The updates of one key by winners, and by losers. -/
def winnersAt (committed : T → Bool) (log : List (Update T K V)) (k : K) : List (Update T K V) :=
  log.filter fun u => committed u.txn ∧ u.key = k

def losersAt (committed : T → Bool) (log : List (Update T K V)) (k : K) : List (Update T K V) :=
  log.filter fun u => !committed u.txn ∧ u.key = k

theorem redoMap_apply (committed : T → Bool) (log : List (Update T K V)) (m : K → Option V)
    (k : K) : redoMap committed log m k =
      match (winnersAt committed log k).getLast? with
      | some u => u.after
      | none => m k := by
  rw [redoMap, replay_apply, List.filter_map, List.getLast?_map, List.filter_filter]
  have : (log.filter fun u => ((fun c : K × Option V => decide (c.1 = k)) ∘ Update.redo) u &&
      committed u.txn) = winnersAt committed log k := by
    apply List.filter_congr
    intro u _
    simp only [Update.redo, Function.comp, Bool.decide_and, Bool.decide_eq_true, Bool.and_comm]
    rfl
  rw [this]
  cases (winnersAt committed log k).getLast? <;> rfl

theorem undoMap_apply (committed : T → Bool) (log : List (Update T K V)) (m : K → Option V)
    (k : K) : undoMap committed log m k =
      match (losersAt committed log k).head? with
      | some u => u.before
      | none => m k := by
  rw [undoMap, replay_apply, List.filter_map, List.getLast?_map, List.filter_reverse,
    List.getLast?_reverse, List.filter_filter]
  have : (log.filter fun u => ((fun c : K × Option V => decide (c.1 = k)) ∘ Update.undo) u &&
      !committed u.txn) = losersAt committed log k := by
    apply List.filter_congr
    intro u _
    simp only [Update.undo, Function.comp, Bool.decide_and, Bool.decide_eq_true, Bool.and_comm]
    rfl
  rw [this]
  cases (losersAt committed log k).head? <;> rfl

theorem recoverMap_apply (committed : T → Bool) (log : List (Update T K V)) (m : K → Option V)
    (k : K) : recoverMap committed log m k =
      match (losersAt committed log k).head? with
      | some u => u.before
      | none => match (winnersAt committed log k).getLast? with
        | some u => u.after
        | none => m k := by
  rw [recoverMap, undoMap_apply, redoMap_apply]

/-! ## Histories -/

/-- Each update is made to the value it names. -/
def Consistent : (K → Option V) → List (Update T K V) → Prop
  | _, [] => True
  | m, u :: log => u.before = m u.key ∧ Consistent (Function.update m u.key u.after) log

/-- What a loser has written, nobody else writes later. -/
def LosersHold (committed : T → Bool) (log : List (Update T K V)) : Prop :=
  log.Pairwise fun u u' => committed u.txn = false → u'.key = u.key → u'.txn = u.txn

omit [DecidableEq K] in
/-- More commits make fewer losers. -/
theorem LosersHold.mono {committed committed' : T → Bool} {log : List (Update T K V)}
    (h : LosersHold committed log) (hle : ∀ t, committed t = true → committed' t = true) :
    LosersHold committed' log := by
  refine List.Pairwise.imp ?_ h
  intro u u' hold hu hk
  refine hold ?_ hk
  cases hc : committed u.txn with
  | false => rfl
  | true => rw [hle _ hc] at hu; cases hu

theorem consistent_append {m : K → Option V} {log log' : List (Update T K V)} :
    Consistent m (log ++ log') ↔
      Consistent m log ∧ Consistent (replay m (log.map Update.redo)) log' := by
  induction log generalizing m with
  | nil => simp [Consistent]
  | cons u log ih => simp [Consistent, ih, and_assoc, Update.redo]

/-- A history only depends on the keys it names. -/
theorem Consistent.congr {log : List (Update T K V)} {m m' : K → Option V} (h : Consistent m log)
    (hm : ∀ u ∈ log, m' u.key = m u.key) : Consistent m' log := by
  induction log generalizing m m' with
  | nil => trivial
  | cons u log ih =>
    refine ⟨h.1.trans (hm u (by simp)).symm, ih h.2 fun w hw => ?_⟩
    simp only [Function.update_apply]
    split
    · rfl
    · exact hm w (by simp [hw])

theorem replay_redo_apply (log : List (Update T K V)) (m : K → Option V) (k : K) :
    replay m (log.map Update.redo) k =
      match (log.filter fun u => u.key = k).getLast? with
      | some u => u.after
      | none => m k := by
  rw [replay_apply, List.filter_map, List.getLast?_map]
  have : ((fun c : K × Option V => decide (c.1 = k)) ∘ Update.redo) =
      fun u : Update T K V => decide (u.key = k) := rfl
  rw [this]
  cases (log.filter fun u => decide (u.key = k)).getLast? <;> rfl

/-- When a loser has updated a key, the committed updates of the key are those before. -/
theorem winnersAt_of_loser {committed : T → Bool} {pre post : List (Update T K V)}
    {u : Update T K V} (hhold : LosersHold committed (pre ++ u :: post))
    (hfirst : losersAt committed pre u.key = []) (hu : committed u.txn = false) :
    winnersAt committed (pre ++ u :: post) u.key = pre.filter fun v => v.key = u.key := by
  have hpre : winnersAt committed pre u.key = pre.filter fun v => v.key = u.key := by
    apply List.filter_congr
    intro v hv
    have hnot := List.filter_eq_nil_iff.mp hfirst v hv
    by_cases hk : v.key = u.key <;> cases hc : committed v.txn <;> simp_all
  have hpost : winnersAt committed (u :: post) u.key = [] := by
    rw [winnersAt, List.filter_eq_nil_iff]
    intro v hv
    have hpair := (List.pairwise_append.mp hhold).2.1
    rcases List.mem_cons.mp hv with rfl | hv
    · simp [hu]
    · have hsame := (List.pairwise_cons.mp hpair).1 v hv hu
      by_cases hk : v.key = u.key
      · simp [hsame hk, hu]
      · simp [hk]
  rw [winnersAt, List.filter_append, ← winnersAt, hpre]
  exact (congrArg _ hpost).trans (List.append_nil _)

/-- Recovery of a key the log names, whatever part of the history the key already shows. -/
theorem recoverMap_of_history {committed : T → Bool} {log : List (Update T K V)}
    {m disk : K → Option V} (hcons : Consistent m log) (hhold : LosersHold committed log) (k : K)
    (hdisk : (log.filter fun u => u.key = k) = [] → disk k = m k) :
    recoverMap committed log disk k = redoMap committed log m k := by
  rw [recoverMap_apply, redoMap_apply]
  cases hl : (losersAt committed log k).head? with
  | none =>
    have hnil : losersAt committed log k = [] := List.head?_eq_none_iff.mp hl
    simp only
    cases hw : (winnersAt committed log k).getLast? with
    | some u => rfl
    | none =>
      refine hdisk ?_
      have hnil' := List.getLast?_eq_none_iff.mp hw
      rw [List.filter_eq_nil_iff]
      intro u hu
      have h₁ := List.filter_eq_nil_iff.mp hnil u hu
      have h₂ := List.filter_eq_nil_iff.mp hnil' u hu
      cases hc : committed u.txn <;> simp_all
  | some u =>
    -- split the log at the first update of `k` by a loser
    obtain ⟨rest, hrest⟩ : ∃ rest, losersAt committed log k = u :: rest := by
      cases h : losersAt committed log k with
      | nil => rw [h] at hl; cases hl
      | cons v rest => rw [h] at hl; cases hl; exact ⟨rest, rfl⟩
    obtain ⟨pre, post, rfl, hpre, hu, -⟩ := List.filter_eq_cons_iff.mp hrest
    have hu' : committed u.txn = false ∧ u.key = k := by simpa using hu
    obtain ⟨hu₁, rfl⟩ := hu'
    have hfirst : losersAt committed pre u.key = [] := List.filter_eq_nil_iff.mpr hpre
    have hbefore := (consistent_append.mp hcons).2.1
    rw [winnersAt_of_loser hhold hfirst hu₁]
    simp only [hbefore, replay_redo_apply]

/-! ## Logs that have nothing to change -/

/-- What recovery makes of a key that the log names. -/
def lastWord (committed : T → Bool) (log : List (Update T K V)) (k : K) : Option (Option V) :=
  ((losersAt committed log k).head?.map Update.before).or
    ((winnersAt committed log k).getLast?.map Update.after)

/-- Each key that the log names holds what recovery makes of it. -/
def Settled (committed : T → Bool) (log : List (Update T K V)) (m : K → Option V) : Prop :=
  ∀ u ∈ log, lastWord committed log u.key = some (m u.key)

instance [DecidableEq V] (committed : T → Bool) (log : List (Update T K V)) (m : K → Option V) :
    Decidable (Settled committed log m) := by
  unfold Settled; infer_instance

theorem recoverMap_of_settled {committed : T → Bool} {log : List (Update T K V)}
    {m : K → Option V} (h : Settled committed log m) : recoverMap committed log m = m := by
  funext k
  have hnamed : ∀ u ∈ log, u.key = k → lastWord committed log k = some (m k) := by
    rintro u hu rfl
    exact h u hu
  rw [recoverMap_apply]
  cases hl : (losersAt committed log k).head? with
  | some u =>
    obtain ⟨hu, hk⟩ := List.mem_filter.mp (List.mem_of_mem_head? hl)
    have hlast := hnamed u hu (by simp at hk; exact hk.2)
    simpa [lastWord, hl] using hlast
  | none =>
    cases hw : (winnersAt committed log k).getLast? with
    | some u =>
      obtain ⟨hu, hk⟩ := List.mem_filter.mp (List.mem_of_getLast? hw)
      have hlast := hnamed u hu (by simp at hk; exact hk.2)
      simpa [lastWord, hl, hw] using hlast
    | none => rfl

end Relite.Lib
