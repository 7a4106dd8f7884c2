import Mathlib.Init

/-!
# Runs of a deterministic system

A run is the fold of a step function over a list of operations. `AllStates` says that
every state of a run has a property, `AllSteps` that every step meets a condition in
the state it is taken from, and `run_invariant` leads from the one to the other.
-/
namespace Relite.Lib

variable {σ op : Type*} (step : σ → op → σ)

def run (s : σ) (ops : List op) : σ := ops.foldl step s

def AllStates (Q : σ → Prop) : σ → List op → Prop
  | s, [] => Q s
  | s, o :: ops => Q s ∧ AllStates Q (step s o) ops

def AllSteps (P : σ → op → Prop) : σ → List op → Prop
  | _, [] => True
  | s, o :: ops => P s o ∧ AllSteps P (step s o) ops

instance AllSteps.decidable (P : σ → op → Prop) [∀ s o, Decidable (P s o)] :
    (s : σ) → (ops : List op) → Decidable (AllSteps step P s ops)
  | _, [] => isTrue trivial
  | s, o :: ops =>
    have := AllSteps.decidable P (step s o) ops
    inferInstanceAs (Decidable (P s o ∧ AllSteps step P (step s o) ops))

@[simp] theorem run_nil (s : σ) : run step s [] = s := rfl

@[simp] theorem run_cons (s : σ) (o : op) (ops : List op) :
    run step s (o :: ops) = run step (step s o) ops := rfl

theorem run_append (s : σ) (ops ops' : List op) :
    run step s (ops ++ ops') = run step (run step s ops) ops' := by
  simp [run]

variable {step}

theorem AllStates.head {Q : σ → Prop} {s : σ} {ops : List op} (h : AllStates step Q s ops) : Q s := by
  cases ops with
  | nil => exact h
  | cons o ops => exact h.1

theorem AllStates.last {Q : σ → Prop} {s : σ} {ops : List op} (h : AllStates step Q s ops) :
    Q (run step s ops) := by
  induction ops generalizing s with
  | nil => exact h
  | cons o ops ih => exact ih h.2

theorem AllStates.imp {Q Q' : σ → Prop} (hQ : ∀ s, Q s → Q' s) {s : σ} {ops : List op}
    (h : AllStates step Q s ops) : AllStates step Q' s ops := by
  induction ops generalizing s with
  | nil => exact hQ s h
  | cons o ops ih => exact ⟨hQ s h.1, ih h.2⟩

/-- What every step preserves under its condition holds along the whole run. -/
theorem run_invariant (Inv : σ → Prop) {P : σ → op → Prop}
    (hstep : ∀ s o, Inv s → P s o → Inv (step s o)) {s : σ} (h : Inv s) {ops : List op}
    (hP : AllSteps step P s ops) : AllStates step Inv s ops := by
  induction ops generalizing s with
  | nil => exact h
  | cons o ops ih => exact ⟨h, ih (hstep s o h hP.1) hP.2⟩

/-- What every step entails under its condition holds at all steps of the run. -/
theorem AllSteps.imp {Inv : σ → Prop} {P P' : σ → op → Prop}
    (hinv : ∀ s o, Inv s → P s o → Inv (step s o)) (hP : ∀ s o, Inv s → P s o → P' s o) {s : σ}
    (hs : Inv s) {ops : List op} (h : AllSteps step P s ops) : AllSteps step P' s ops := by
  induction ops generalizing s with
  | nil => trivial
  | cons o ops ih => exact ⟨hP s o hs h.1, ih (hinv s o hs h.1) h.2⟩

theorem AllSteps.append_iff {P : σ → op → Prop} {s : σ} {ops ops' : List op} :
    AllSteps step P s (ops ++ ops') ↔
      AllSteps step P s ops ∧ AllSteps step P (run step s ops) ops' := by
  induction ops generalizing s with
  | nil => simp [AllSteps]
  | cons o ops ih => exact (and_congr_right fun _ => ih).trans and_assoc.symm

/-- A condition that the state after a step forces on the state before it holds at every
step of a run. -/
theorem AllStates.allSteps {Q : σ → Prop} {P : σ → op → Prop} {s : σ} {ops : List op}
    (h : AllStates step Q s ops) (Inv : σ → Prop)
    (hinv : ∀ s o, Inv s → P s o → Inv (step s o))
    (hback : ∀ s o, Inv s → Q (step s o) → P s o) (hs : Inv s) : AllSteps step P s ops := by
  induction ops generalizing s with
  | nil => trivial
  | cons o ops ih =>
    have hP := hback s o hs h.2.head
    exact ⟨hP, ih h.2 (hinv s o hs hP)⟩

/-- A reading that every step keeps or lowers is kept by the run exactly when each of its
steps keeps it. -/
theorem run_fixed_iff {β : Type*} {R : β → β → Prop} (hrefl : ∀ x, R x x)
    (htrans : ∀ x y z, R x y → R y z → R x z) (hanti : ∀ x y, R x y → R y x → x = y) (f : σ → β)
    {s : σ} {ops : List op} (h : AllSteps step (fun s o => R (f s) (f (step s o))) s ops) :
    R (f s) (f (run step s ops)) ∧
      (f (run step s ops) = f s ↔ AllSteps step (fun s o => f (step s o) = f s) s ops) := by
  induction ops generalizing s with
  | nil => exact ⟨hrefl _, by simp [AllSteps]⟩
  | cons o ops ih =>
    obtain ⟨hstep, hrest⟩ := h
    obtain ⟨hdown, hiff⟩ := ih hrest
    refine ⟨htrans _ _ _ hstep hdown, fun heq => ?_, fun hall => ?_⟩
    · rw [run_cons] at heq
      have hkept : f (step s o) = f s := (hanti _ _ hstep (heq ▸ hdown)).symm
      exact ⟨hkept, hiff.mp (heq.trans hkept.symm)⟩
    · rw [run_cons, hiff.mpr hall.2, hall.1]

end Relite.Lib
