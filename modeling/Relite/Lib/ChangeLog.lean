import Mathlib.Logic.Function.Basic
import Mathlib.Data.List.Perm.Basic
import Mathlib.Data.List.Nodup
import Mathlib.Data.List.Induction

/-!
# Keyed change logs

A change log is a list of writes to a partial map, each of which sets a key to a value
or removes it. `replay` applies one in order. A list of keyed rows without duplicate
keys is the other way to hold such a map, and two of them that hold the same map are
permutations of each other.
-/
namespace Relite.Lib

variable {K V : Type*} [DecidableEq K]

/-- The map after the writes of a log. -/
def replay (m : K → Option V) (log : List (K × Option V)) : K → Option V :=
  log.foldl (fun m c => Function.update m c.1 c.2) m

@[simp] theorem replay_nil (m : K → Option V) : replay m [] = m := rfl

@[simp] theorem replay_cons (m : K → Option V) (c : K × Option V) (log : List (K × Option V)) :
    replay m (c :: log) = replay (Function.update m c.1 c.2) log := rfl

theorem replay_append (m : K → Option V) (log log' : List (K × Option V)) :
    replay m (log ++ log') = replay (replay m log) log' := by
  simp [replay]

theorem replay_concat (m : K → Option V) (log : List (K × Option V)) (c : K × Option V) :
    replay m (log ++ [c]) = Function.update (replay m log) c.1 c.2 := by
  simp [replay]

/-- A key is what the last write to it says. -/
theorem replay_apply (m : K → Option V) (log : List (K × Option V)) (k : K) :
    replay m log k =
      match (log.filter fun c => c.1 = k).getLast? with
      | some c => c.2
      | none => m k := by
  induction log using List.reverseRecOn with
  | nil => rfl
  | append_singleton log c ih =>
    rw [replay_concat, List.filter_append]
    by_cases hk : c.1 = k
    · simp [hk]
    · simp [hk, Ne.symm hk, ih]

theorem replay_of_not_mem (m : K → Option V) {log : List (K × Option V)} {k : K}
    (h : ∀ c ∈ log, c.1 ≠ k) : replay m log k = m k := by
  rw [replay_apply, List.filter_eq_nil_iff.mpr (by simpa using h)]
  rfl

/-- Only the writes to a key matter to what it holds. -/
theorem replay_congr {m m' : K → Option V} {log log' : List (K × Option V)} {k : K}
    (hm : m k = m' k) (hl : (log.filter fun c => c.1 = k) = log'.filter fun c => c.1 = k) :
    replay m log k = replay m' log' k := by
  rw [replay_apply, replay_apply, hl, hm]

/-! ## Keyed rows -/

/-- The map that a list of keyed rows holds. -/
def rowMap (rows : List (K × V)) (k : K) : Option V :=
  (rows.find? fun row => row.1 = k).map Prod.snd

@[simp] theorem rowMap_nil (k : K) : rowMap ([] : List (K × V)) k = none := rfl

theorem rowMap_eq_some_iff {rows : List (K × V)} (h : (rows.map Prod.fst).Nodup) (k : K) (v : V) :
    rowMap rows k = some v ↔ (k, v) ∈ rows := by
  induction rows with
  | nil => simp
  | cons row rows ih =>
    obtain ⟨k', v'⟩ := row
    simp only [List.map_cons, List.nodup_cons] at h
    by_cases hk : k' = k
    · subst hk
      have hnot : ∀ w, (k', w) ∉ rows := fun w hw => h.1 (List.mem_map_of_mem hw)
      simp [rowMap, hnot, eq_comm]
    · have : rowMap ((k', v') :: rows) k = rowMap rows k := by simp [rowMap, hk]
      rw [this, ih h.2]
      simp [Ne.symm hk]

theorem perm_of_rowMap_eq {rows rows' : List (K × V)} (h : (rows.map Prod.fst).Nodup)
    (h' : (rows'.map Prod.fst).Nodup) (he : rowMap rows = rowMap rows') : rows.Perm rows' := by
  refine (List.perm_ext_iff_of_nodup h.of_map h'.of_map).mpr ?_
  rintro ⟨k, v⟩
  rw [← rowMap_eq_some_iff h, ← rowMap_eq_some_iff h', he]

end Relite.Lib
