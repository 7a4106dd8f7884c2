import Mathlib.Algebra.Order.Ring.Int
import Mathlib.Algebra.Order.Group.Unbundled.Int

/-!
# Operations on signed 64-bit integers

What an operation yields exactly, and when it may be done: its exact result is a 64-bit
integer, and a division neither divides by zero nor the least integer by minus one. Values
that are worked out with exact integers, and given up where one is out of range, are those
of an evaluation whose operations may all be done.
-/
namespace Relite.Lib

/-- A 64-bit integer. -/
def InInt64 (n : Int) : Prop := -2 ^ 63 ≤ n ∧ n < 2 ^ 63

instance (n : Int) : Decidable (InInt64 n) := inferInstanceAs (Decidable (_ ∧ _))

theorem inInt64_toInt (n : Int64) : InInt64 n.toInt := ⟨n.le_toInt, n.toInt_lt⟩

theorem toInt_ofInt_of_inRange {n : Int} (h : InInt64 n) : (Int64.ofInt n).toInt = n :=
  Int64.toInt_ofInt_of_le h.1 h.2

inductive SignedOp
  | add (a b : Int64)
  | sub (a b : Int64)
  | mul (a b : Int64)
  | div (a b : Int64)
  | rem (a b : Int64)
  | neg (a : Int64)
  deriving DecidableEq, Repr

namespace SignedOp

/-- The result over all integers. -/
def exact : SignedOp → Int
  | add a b => a.toInt + b.toInt
  | sub a b => a.toInt - b.toInt
  | mul a b => a.toInt * b.toInt
  | div a b => a.toInt.tdiv b.toInt
  | rem a b => a.toInt.tmod b.toInt
  | neg a => -a.toInt

/-- The result that wraps around. -/
def result : SignedOp → Int64
  | add a b => a + b
  | sub a b => a - b
  | mul a b => a * b
  | div a b => a / b
  | rem a b => a % b
  | neg a => -a

/-- A division that the machine traps on. -/
def Traps : SignedOp → Prop
  | div a b | rem a b => b.toInt = 0 ∨ a.toInt = -2 ^ 63 ∧ b.toInt = -1
  | _ => False

instance (op : SignedOp) : Decidable op.Traps := by
  cases op <;> unfold Traps <;> infer_instance

/-- The operation may be done. -/
def Safe (op : SignedOp) : Prop := InInt64 op.exact ∧ ¬op.Traps

instance (op : SignedOp) : Decidable op.Safe := inferInstanceAs (Decidable (_ ∧ _))

theorem ofInt_exact (op : SignedOp) : Int64.ofInt op.exact = op.result := by
  have hbounds : ∀ a : Int64, Int64.minValue.toInt ≤ a.toInt ∧ a.toInt ≤ Int64.maxValue.toInt :=
    fun a => ⟨a.minValue_le_toInt, a.toInt_le⟩
  cases op with
  | add a b => rw [exact, result, Int64.ofInt_add, Int64.ofInt_toInt, Int64.ofInt_toInt]
  | sub a b => rw [exact, result, Int64.ofInt_sub, Int64.ofInt_toInt, Int64.ofInt_toInt]
  | mul a b => rw [exact, result, Int64.ofInt_mul, Int64.ofInt_toInt, Int64.ofInt_toInt]
  | div a b =>
    rw [exact, result, Int64.ofInt_tdiv (hbounds a).1 (hbounds a).2 (hbounds b).1 (hbounds b).2,
      Int64.ofInt_toInt, Int64.ofInt_toInt]
  | rem a b =>
    rw [exact, result, Int64.ofInt_tmod (hbounds a).1 (hbounds a).2 (hbounds b).1 (hbounds b).2,
      Int64.ofInt_toInt, Int64.ofInt_toInt]
  | neg a => rw [exact, result, Int64.ofInt_neg, Int64.ofInt_toInt]

/-- A remainder is never out of range. -/
theorem inInt64_rem (a b : Int64) : InInt64 (rem a b).exact := by
  rw [exact, ← Int64.toInt_mod]
  exact inInt64_toInt (a % b)

end SignedOp

/-! ## Values with the operations that they took -/

variable {α β : Type}

/-- The value, if all the operations may be done. -/
def guarded (ops : List SignedOp) (a : α) : Option α :=
  if ∀ op ∈ ops, op.Safe then some a else none

theorem guarded_nil (a : α) : guarded [] a = some a := if_pos nofun

theorem isSome_guarded (ops : List SignedOp) (a : α) :
    (guarded ops a).isSome ↔ ∀ op ∈ ops, op.Safe := by
  rw [guarded]
  split <;> simp_all

/-- One evaluation after the other takes the operations of both. -/
theorem guarded_bind {as bs : List SignedOp} {a : α} {b : β} {f : α → Option β}
    (hf : f a = guarded bs b) : (guarded as a).bind f = guarded (as ++ bs) b := by
  unfold guarded at *
  by_cases ha : ∀ op ∈ as, op.Safe
  · have hboth : (∀ op ∈ as ++ bs, op.Safe) ↔ ∀ op ∈ bs, op.Safe :=
      List.forall_mem_append.trans (and_iff_right ha)
    rw [if_pos ha, Option.bind_some, hf]
    simp only [hboth]
  · rw [if_neg ha, Option.bind_none, if_neg fun h => ha fun op hop => h op (by simp [hop])]

theorem guarded_map {as : List SignedOp} {a : α} (f : α → β) :
    (guarded as a).map f = guarded as (f a) := by
  unfold guarded
  split <;> rfl

/-- One operation, with what its exact result is turned into. -/
theorem guarded_singleton {op : SignedOp} {a : α} {o : Option α}
    (hsafe : op.Safe → o = some a) (hnot : ¬op.Safe → o = none) : o = guarded [op] a := by
  unfold guarded
  by_cases h : op.Safe
  · rw [hsafe h, if_pos (by simpa using h)]
  · rw [hnot h, if_neg (by simpa using h)]

end Relite.Lib
