import Mathlib

/-!
# The order of the doubles

Doubles that are numbers are ordered as a rank in a linear order, and one that is not a
number is not less than any double nor greater.
-/
namespace Relite.Lib
open Float.Model Float.Model.UnpackedFloat

/-- Where a number stands in the order: by its sign, then its exponent, then its mantissa. -/
def floatRank : UnpackedFloat → Int ×ₗ Int ×ₗ Int
  | .infinity .positive => toLex (2, toLex (0, 0))
  | .infinity .negative => toLex (-2, toLex (0, 0))
  | .notANumber | .zero _ => toLex (0, toLex (0, 0))
  | .finite .positive m e _ => toLex (1, toLex (e, m))
  | .finite .negative m e _ => toLex (-1, toLex (-e, -(m : Int)))

theorem lt_iff_floatRank {a b : UnpackedFloat} (ha : a ≠ .notANumber) (hb : b ≠ .notANumber) :
    a.lt b ↔ floatRank a < floatRank b := by
  cases a with
  | notANumber => exact absurd rfl ha
  | infinity s =>
    cases b with
    | notANumber => exact absurd rfl hb
    | infinity s' | zero s' => cases s <;> cases s' <;> decide
    | finite s' m e h =>
      cases s <;> cases s' <;>
        simp [UnpackedFloat.lt, UnpackedFloat.compare, floatRank, Prod.Lex.toLex_lt_toLex]
  | zero s =>
    cases b with
    | notANumber => exact absurd rfl hb
    | infinity s' | zero s' => cases s <;> cases s' <;> decide
    | finite s' m e h =>
      cases s <;> cases s' <;>
        simp [UnpackedFloat.lt, UnpackedFloat.compare, floatRank, Prod.Lex.toLex_lt_toLex]
  | finite s m e h =>
    cases b with
    | notANumber => exact absurd rfl hb
    | infinity s' | zero s' =>
      cases s <;> cases s' <;>
        simp [UnpackedFloat.lt, UnpackedFloat.compare, floatRank, Prod.Lex.toLex_lt_toLex]
    | finite s' m' e' h' =>
      cases s <;> cases s' <;>
        simp [UnpackedFloat.lt, UnpackedFloat.compare, floatRank, Prod.Lex.toLex_lt_toLex,
          Ordering.then_eq_lt, Ordering.then_eq_gt, compare_lt_iff_lt, compare_gt_iff_gt]

theorem not_lt_notANumber (a b : UnpackedFloat) (h : a = .notANumber ∨ b = .notANumber) :
    a.lt b = false := by
  rcases h with rfl | rfl
  · rfl
  · cases a <;> rfl

/-! ## Which bits are a number -/

theorem unpack_eq_notANumber {b : BitVec Format.binary64.numBits} :
    UnpackedFloat.unpack Format.binary64 b = .notANumber ↔
      unpackExponent b = -1#11 ∧ unpackMantissa b ≠ 0#52 := by
  unfold UnpackedFloat.unpack
  simp only
  split
  · rename_i hexp
    split
    · rename_i hmant
      simp [hmant]
    · rename_i hmant
      exact ⟨fun _ => ⟨hexp, hmant⟩, fun _ => rfl⟩
  · rename_i hexp
    refine iff_of_false ?_ fun h => hexp h.1
    split
    · split <;> exact nofun
    · exact nofun

/-- Packing does not make a number into none. -/
theorem unpack_pack_eq_notANumber (f : UnpackedFloat) :
    UnpackedFloat.unpack Format.binary64 (UnpackedFloat.pack Format.binary64 f) = .notANumber ↔
      f = .notANumber := by
  rw [unpack_eq_notANumber]
  fun_cases UnpackedFloat.pack Format.binary64 f with
  | case1 => simp [packedNaN]
  | case2 s => simp [packedInfinity]
  | case3 s => simp [packedZero]
  | case4 s m e hm biasedExponent h => simp [packedInfinity]
  | case5 s m e hm actualMantissaBits biasedExponent h₁ h₂ =>
    have hpow : (2 : Nat) ^ 11 = 2048 := rfl
    have hlt : biasedExponent < 2047 := by
      simp only [hpow] at h₁
      omega
    simp only [unpackExponent_packComponents, ← BitVec.toNat_inj, BitVec.toNat_ofNat, hpow]
    simp
    omega
  | case6 s m e hm actualMantissaBits biasedExponent h₁ h₂ => simp

/-- The double of the bits is no number. -/
def NotANumber (bits : UInt64) : Prop :=
  (bits.toNat >>> 52) % 2048 = 2047 ∧ bits.toNat % 2 ^ 52 ≠ 0

instance (bits : UInt64) : Decidable (NotANumber bits) :=
  inferInstanceAs (Decidable ((bits.toNat >>> 52) % 2048 = 2047 ∧ bits.toNat % 2 ^ 52 ≠ 0))

theorem unpack_ofBits (bits : UInt64) :
    (Float.ofBits bits).toModel.unpack = .notANumber ↔ NotANumber bits := by
  have hexp : (@unpackExponent Format.binary64 bits.toBitVec).toNat =
      (bits.toNat >>> 52) % 2048 := by
    simp [unpackExponent]
  have hmant : (@unpackMantissa Format.binary64 bits.toBitVec).toNat =
      bits.toNat % 2 ^ 52 := by
    simp [unpackMantissa]
  rw [Float.ofBits, Float.Model.ofBits, Float.Model.unpack, Float.Model.pack,
    unpack_pack_eq_notANumber, unpack_eq_notANumber, NotANumber, ← hexp, ← hmant]
  simp [← BitVec.toNat_inj]

/-! ## How doubles compare -/

/-- The place of a double in the order. -/
def rank (x : Float) : Int ×ₗ Int ×ₗ Int := floatRank x.toModel.unpack

section Compare

variable {x y : Float}

theorem lt_iff_rank (hx : x.toModel.unpack ≠ .notANumber) (hy : y.toModel.unpack ≠ .notANumber) :
    x < y ↔ rank x < rank y := by
  rw [rank, rank, ← lt_iff_floatRank hx hy]
  exact decide_eq_true_iff

theorem not_lt_of_notANumber (h : x.toModel.unpack = .notANumber ∨ y.toModel.unpack = .notANumber) :
    ¬x < y := by
  have hlt := not_lt_notANumber _ _ h
  intro hxy
  have hxy : x.toModel.unpack.lt y.toModel.unpack := decide_eq_true_iff.mp hxy
  exact Bool.false_ne_true (hlt.symm.trans hxy)

theorem float_lt_asymm (h : x < y) : ¬y < x := by
  by_cases hnot : x.toModel.unpack = .notANumber ∨ y.toModel.unpack = .notANumber
  · exact absurd h (not_lt_of_notANumber hnot)
  · rw [not_or] at hnot
    rw [lt_iff_rank hnot.2 hnot.1]
    exact lt_asymm ((lt_iff_rank hnot.1 hnot.2).mp h)

end Compare

theorem ofBits_lt_iff {a b : UInt64} (ha : ¬NotANumber a) (hb : ¬NotANumber b) :
    Float.ofBits a < Float.ofBits b ↔ rank (Float.ofBits a) < rank (Float.ofBits b) := by
  rw [← unpack_ofBits] at ha hb
  exact lt_iff_rank ha hb

theorem not_ofBits_lt {a b : UInt64} (h : NotANumber a ∨ NotANumber b) :
    ¬Float.ofBits a < Float.ofBits b := by
  rw [← unpack_ofBits, ← unpack_ofBits] at h
  exact not_lt_of_notANumber h

end Relite.Lib
