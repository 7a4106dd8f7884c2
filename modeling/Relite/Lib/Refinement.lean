import Relite.Lib.Run

/-!
# Refinement of a specification that follows the answers

An implementation answers each operation. Its specification says which answers are allowed
and which state comes next, given the answer, so the two can be run side by side. What the
states are to have in common is then an invariant of the pair.
-/
namespace Relite.Lib

variable {σ τ op ρ : Type*}

/-- A system that answers operations. -/
structure Machine (σ op ρ : Type*) where
  step : σ → op → σ
  answer : σ → op → ρ

/-- Which operations may be asked for, which answers are right, and the state after each. -/
structure Specification (τ op ρ : Type*) where
  Valid : τ → op → Prop
  Allowed : τ → op → ρ → Prop
  next : τ → op → ρ → τ

/-- A step of both, of the specification by the answer of the machine. -/
def sideBySide (M : Machine σ op ρ) (S : Specification τ op ρ) (p : σ × τ) (o : op) : σ × τ :=
  (M.step p.1 o, S.next p.2 o (M.answer p.1 o))

/-- In a run of valid operations all answers are allowed and all states related. -/
def Refines (M : Machine σ op ρ) (S : Specification τ op ρ) (R : σ → τ → Prop) (s : σ) (t : τ)
    (ops : List op) : Prop :=
  AllSteps (sideBySide M S) (fun p o => S.Allowed p.2 o (M.answer p.1 o)) (s, t) ops ∧
    AllStates (sideBySide M S) (fun p => R p.1 p.2) (s, t) ops

/-- The operations are valid when they are asked for. -/
def ValidRun (M : Machine σ op ρ) (S : Specification τ op ρ) (s : σ) (t : τ) (ops : List op) :
    Prop := AllSteps (sideBySide M S) (fun p o => S.Valid p.2 o) (s, t) ops

/-- A forward simulation, which each valid step keeps. -/
theorem refines_of_simulation {M : Machine σ op ρ} {S : Specification τ op ρ}
    {Sim R : σ → τ → Prop} (himp : ∀ s t, Sim s t → R s t)
    (hstep : ∀ s t o, Sim s t → S.Valid t o →
      S.Allowed t o (M.answer s o) ∧ Sim (M.step s o) (S.next t o (M.answer s o)))
    {s : σ} {t : τ} (hs : Sim s t) {ops : List op} (hops : ValidRun M S s t ops) :
    Refines M S R s t ops := by
  have hkeep : ∀ (p : σ × τ) (o : op), Sim p.1 p.2 → S.Valid p.2 o →
      Sim (sideBySide M S p o).1 (sideBySide M S p o).2 := fun p o h hv => (hstep p.1 p.2 o h hv).2
  have hinv : AllStates (sideBySide M S) (fun p => Sim p.1 p.2) (s, t) ops :=
    run_invariant (fun p => Sim p.1 p.2) hkeep hs hops
  have hallowed : ∀ (p : σ × τ) (o : op), Sim p.1 p.2 → S.Valid p.2 o →
      S.Allowed p.2 o (M.answer p.1 o) := fun p o h hv => (hstep p.1 p.2 o h hv).1
  exact ⟨hops.imp hkeep hallowed hs, hinv.imp fun p h => himp p.1 p.2 h⟩

/-! ## Machines as specifications -/

namespace Machine

variable (M : Machine σ op ρ) (N : Machine τ op ρ)

/-- What another machine does and answers, for all operations. -/
def specification : Specification τ op ρ where
  Valid _ _ := True
  Allowed t o a := a = N.answer t o
  next t o _ := N.step t o

variable {M N}

/-- A forward simulation between machines. -/
theorem refines {Sim : σ → τ → Prop}
    (hstep : ∀ s t o, Sim s t →
      M.answer s o = N.answer t o ∧ Sim (M.step s o) (N.step t o))
    {s : σ} {t : τ} (hs : Sim s t) (ops : List op) : Refines M N.specification Sim s t ops := by
  refine refines_of_simulation (fun _ _ h => h) (fun s t o h _ => hstep s t o h) hs ?_
  induction ops generalizing s t with
  | nil => trivial
  | cons o ops ih => exact ⟨trivial, ih (hstep s t o hs).2⟩

end Machine

end Relite.Lib
