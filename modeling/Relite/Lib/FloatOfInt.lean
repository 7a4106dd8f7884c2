import Relite.Lib.FloatOrder
import Mathlib.Data.Nat.Log
import Mathlib.Tactic.Ring
import Mathlib.Tactic.NormNum

/-!
# Integers as doubles

The double nearest to a 64-bit integer, ties to even, is a number, and the larger the
integer the larger it is.
-/
namespace Relite.Lib
open Float.Model Float.Model.UnpackedFloat

/-! ## Rounding -/

/-- The mantissa is `n` divided by `2 ^ k`, and the two bits say where the rest stands
against one half. -/
def Represents (em : ExtendedMantissa) (n k : Nat) : Prop :=
  ∃ rest, n = em.mantissa * 2 ^ k + rest ∧
    match em.roundBit, em.stickyBit with
    | false, false => rest = 0
    | false, true => 0 < rest ∧ 2 * rest < 2 ^ k
    | true, false => 2 * rest = 2 ^ k
    | true, true => 2 ^ k < 2 * rest ∧ rest < 2 ^ k

theorem Represents.shiftRightOne {em : ExtendedMantissa} {n k : Nat} (h : Represents em n k) :
    Represents em.shiftRightOne n (k + 1) := by
  obtain ⟨rest, hn, hbits⟩ := h
  obtain ⟨m, r, s⟩ := em
  have hpos : 0 < 2 ^ k := Nat.two_pow_pos k
  have hm := Nat.mod_add_div m 2
  have hprod : m * 2 ^ k = (m / 2) * (2 * 2 ^ k) + (m % 2) * 2 ^ k := by
    conv_lhs => rw [← hm]
    ring
  have hpow : 2 ^ (k + 1) = 2 * 2 ^ k := by ring
  refine ⟨m % 2 * 2 ^ k + rest, ?_, ?_⟩
  · simp only [ExtendedMantissa.shiftRightOne] at hn ⊢
    rw [hn, hprod, hpow, Nat.add_assoc]
  · rw [hpow]
    rcases Nat.mod_two_eq_zero_or_one m with hmod | hmod <;> cases r <;> cases s <;>
      simp only [ExtendedMantissa.shiftRightOne, hmod] at hbits ⊢ <;>
      simp at hbits ⊢ <;> omega

theorem represents_exact (n : Nat) :
    Represents (ExtendedMantissa.ofMantissaAndAccuracy n .exact) n 0 :=
  ⟨0, by simp [ExtendedMantissa.ofMantissaAndAccuracy], rfl⟩

theorem represents_shiftRight (n k : Nat) :
    Represents (ExtendedMantissa.ofMantissaAndAccuracy n .exact >>> k) n k := by
  change Represents (k.repeat ExtendedMantissa.shiftRightOne _) n k
  induction k with
  | zero => exact represents_exact n
  | succ k ih => exact ih.shiftRightOne

theorem Represents.rest_lt {em : ExtendedMantissa} {n k : Nat} (h : Represents em n k) :
    em.mantissa = n / 2 ^ k := by
  obtain ⟨rest, hn, hbits⟩ := h
  have hpos : 0 < 2 ^ k := Nat.two_pow_pos k
  have hlt : rest < 2 ^ k := by
    obtain ⟨m, r, s⟩ := em
    cases r <;> cases s <;> simp at hbits <;> omega
  rw [hn, Nat.mul_comm, Nat.mul_add_div hpos, Nat.div_eq_of_lt hlt, Nat.add_zero]

theorem roundedMantissa_bounds (em : ExtendedMantissa) :
    em.mantissa ≤ em.roundedMantissa ∧ em.roundedMantissa ≤ em.mantissa + 1 := by
  obtain ⟨m, r, s⟩ := em
  cases r <;> cases s <;>
    simp [ExtendedMantissa.roundedMantissa, ExtendedMantissa.accuracy, Accuracy.roundToNearestEven]
  omega

/-- Rounding at one place is monotone. -/
theorem Represents.roundedMantissa_le {em em' : ExtendedMantissa} {n n' k : Nat}
    (h : Represents em n k) (h' : Represents em' n' k) (hle : n ≤ n') :
    em.roundedMantissa ≤ em'.roundedMantissa := by
  have hmant : em.mantissa ≤ em'.mantissa := by
    rw [h.rest_lt, h'.rest_lt]
    exact Nat.div_le_div_right hle
  rcases Nat.lt_or_eq_of_le hmant with hlt | heq
  · exact (roundedMantissa_bounds em).2.trans
      ((Nat.succ_le_of_lt hlt).trans (roundedMantissa_bounds em').1)
  · obtain ⟨rest, hn, hbits⟩ := h
    obtain ⟨rest', hn', hbits'⟩ := h'
    obtain ⟨m, r, s⟩ := em
    obtain ⟨m', r', s'⟩ := em'
    obtain rfl : m = m' := heq
    have hrest : rest ≤ rest' := by
      simp only at hn hn'
      omega
    have hpos : 0 < 2 ^ k := Nat.two_pow_pos k
    cases r <;> cases s <;> cases r' <;> cases s' <;>
      simp [ExtendedMantissa.roundedMantissa, ExtendedMantissa.accuracy,
        Accuracy.roundToNearestEven] at hbits hbits' ⊢ <;> omega

/-! ## The nearest double -/

/-- The number, widened to 53 bits if it has less. -/
def widened (n : Nat) : Nat := n <<< (52 - n.log2)

/-- The number rounded to 53 bits. -/
def rounded (n : Nat) : Nat :=
  (ExtendedMantissa.ofMantissaAndAccuracy (widened n) .exact >>> (n.log2 - 52)).roundedMantissa

theorem log2_widened {n : Nat} (hn : n ≠ 0) : (widened n).log2 = max n.log2 52 := by
  have hshift : ∀ k, (n <<< k).log2 = n.log2 + k := by
    intro k
    induction k with
    | zero => rfl
    | succ k ih =>
      have hne : n <<< k ≠ 0 := by
        rw [Nat.shiftLeft_eq]
        exact Nat.mul_ne_zero hn (Nat.two_pow_pos k).ne'
      rw [Nat.shiftLeft_succ, Nat.log2_two_mul hne, ih, Nat.add_assoc]
  rw [widened, hshift]
  omega

theorem widened_div (n : Nat) (hn : n ≠ 0) :
    2 ^ 52 ≤ widened n / 2 ^ (n.log2 - 52) ∧ widened n / 2 ^ (n.log2 - 52) < 2 ^ 53 := by
  have hne : widened n ≠ 0 := by
    rw [widened, Nat.shiftLeft_eq]
    exact Nat.mul_ne_zero hn (Nat.two_pow_pos _).ne'
  have hlog := log2_widened hn
  have hlow : 2 ^ (max n.log2 52) ≤ widened n := hlog ▸ Nat.log2_self_le hne
  have hhigh : widened n < 2 ^ (max n.log2 52 + 1) := hlog ▸ Nat.lt_log2_self
  have hpos : 0 < 2 ^ (n.log2 - 52) := Nat.two_pow_pos _
  constructor
  · rw [Nat.le_div_iff_mul_le hpos, ← pow_add]
    exact (Nat.pow_le_pow_right (by omega) (by omega)).trans hlow
  · rw [Nat.div_lt_iff_lt_mul hpos, ← pow_add]
    exact hhigh.trans_le (Nat.pow_le_pow_right (by omega) (by omega))

theorem rounded_bounds {n : Nat} (hn : n ≠ 0) : 2 ^ 52 ≤ rounded n ∧ rounded n ≤ 2 ^ 53 := by
  have hmant := (represents_shiftRight (widened n) (n.log2 - 52)).rest_lt
  have hbounds := roundedMantissa_bounds
    (ExtendedMantissa.ofMantissaAndAccuracy (widened n) .exact >>> (n.log2 - 52))
  have hdiv := widened_div n hn
  rw [hmant] at hbounds
  rw [rounded]
  omega

theorem rounded_le {n n' : Nat} (hle : n ≤ n') (hlog : n.log2 = n'.log2) :
    rounded n ≤ rounded n' := by
  have h := represents_shiftRight (widened n) (n.log2 - 52)
  have h' := represents_shiftRight (widened n') (n'.log2 - 52)
  rw [hlog] at h
  rw [rounded, rounded, hlog]
  refine h.roundedMantissa_le h' ?_
  rw [widened, widened, hlog, Nat.shiftLeft_eq, Nat.shiftLeft_eq]
  exact Nat.mul_le_mul_right _ hle

/-- Mantissa and exponent of the nearest double. -/
def nearest (n : Nat) : Nat × Int :=
  if rounded n = 2 ^ 53 then (2 ^ 52, n.log2 - 51) else (rounded n, n.log2 - 52)

theorem round_eq (s : Sign) {n : Nat} (hn : n ≠ 0) :
    ∃ h, round Format.binary64 s n 0 = .finite s (nearest n).1 (nearest n).2 h := by
  have hbounds := rounded_bounds hn
  have htarget : ∀ (m : Nat) (e : Int), -1000 ≤ m.log2 + e →
      Format.binary64.targetExponent (totalExponent m e) = m.log2 + e - 52 := by
    intro m e h
    simp only [Format.targetExponent, totalExponent, Format.minExponent, Format.mantissaBits]
    norm_num
    omega
  have hdec : decreaseExponent n 0 (n.log2 - 52) = (widened n, -((52 - n.log2 : Nat) : Int)) := by
    simp only [decreaseExponent, widened]
    congr 2 <;> omega
  have hfirst : shiftToTargetExponent Format.binary64 (widened n) (-((52 - n.log2 : Nat) : Int))
      .exact = (ExtendedMantissa.ofMantissaAndAccuracy (widened n) .exact >>> (n.log2 - 52),
        (n.log2 : Int) - 52) := by
    rw [shiftToTargetExponent, htarget _ _ (by rw [log2_widened hn]; omega), log2_widened hn,
      shiftToExponent]
    have hshift : ((max n.log2 52 : Nat) + -((52 - n.log2 : Nat) : Int) - 52 -
        -((52 - n.log2 : Nat) : Int)).toNat = n.log2 - 52 := by omega
    simp only [hshift]
    congr 1
    omega
  have hrounded : rounded n ≠ 0 := by omega
  have hlog : (rounded n).log2 = if rounded n = 2 ^ 53 then 53 else 52 := by
    split
    · rename_i h
      rw [h, Nat.log2_two_pow]
    · rw [Nat.log2_eq_iff hrounded]
      omega
  have hsecond : shiftToTargetExponent Format.binary64 (rounded n) ((n.log2 : Int) - 52) .exact =
      (ExtendedMantissa.ofMantissaAndAccuracy (rounded n) .exact >>> ((rounded n).log2 - 52),
        (n.log2 : Int) - 52 + ((rounded n).log2 - 52 : Nat)) := by
    rw [shiftToTargetExponent, htarget _ _ (by omega), shiftToExponent]
    have hshift : (((rounded n).log2 : Int) + ((n.log2 : Int) - 52) - 52 -
        ((n.log2 : Int) - 52)).toNat = (rounded n).log2 - 52 := by omega
    simp only [hshift]
  have hmant : (ExtendedMantissa.ofMantissaAndAccuracy (rounded n) .exact >>>
      ((rounded n).log2 - 52)).mantissa = (nearest n).1 := by
    rw [(represents_shiftRight _ _).rest_lt, nearest, hlog]
    split
    · rename_i h
      rw [h]
      rfl
    · simp
  have hexp : (n.log2 : Int) - 52 + ((rounded n).log2 - 52 : Nat) = (nearest n).2 := by
    rw [nearest, hlog]
    split <;> simp
    omega
  have hpos : 0 < (nearest n).1 := by
    rw [nearest]
    split <;> simp
    omega
  refine ⟨hpos, ?_⟩
  have htot := htarget n 0 (by omega)
  rw [add_zero] at htot
  rw [UnpackedFloat.round]
  have hround : (ExtendedMantissa.ofMantissaAndAccuracy (widened n) .exact >>>
      (n.log2 - 52)).roundedMantissa = rounded n := rfl
  simp only [htot, hdec, roundWithAccuracy, hfirst, hround, hsecond, hexp, hmant]
  rw [dif_neg hpos.ne']

theorem nearest_bounds {n : Nat} (hn : n ≠ 0) : 2 ^ 52 ≤ (nearest n).1 ∧ (nearest n).1 < 2 ^ 53 ∧
    (n.log2 : Int) - 52 ≤ (nearest n).2 ∧ (nearest n).2 ≤ n.log2 - 51 := by
  have hbounds := rounded_bounds hn
  rw [nearest]
  split <;> refine ⟨?_, ?_, ?_, ?_⟩ <;> simp only <;> omega

/-- Rounding to the nearest double is monotone. -/
theorem nearest_le {n n' : Nat} (hn : n ≠ 0) (hle : n ≤ n') :
    (nearest n).2 < (nearest n').2 ∨
      (nearest n).2 = (nearest n').2 ∧ (nearest n).1 ≤ (nearest n').1 := by
  have hn' : n' ≠ 0 := by omega
  have hb := rounded_bounds hn
  have hb' := rounded_bounds hn'
  have hlog : n.log2 ≤ n'.log2 := (Nat.le_log2 hn').mpr ((Nat.log2_self_le hn).trans hle)
  rcases Nat.lt_or_eq_of_le hlog with hlt | heq
  · rw [nearest, nearest]
    split <;> split <;> simp only <;> omega
  · have hround := rounded_le hle heq
    rw [nearest, nearest, heq]
    split <;> split <;> dsimp only
    all_goals omega

/-! ## Packing -/

theorem unpackSign_packComponents {spec : Format} {s : Sign} {e : BitVec spec.exponentBits}
    {m : BitVec spec.mantissaBitsWithoutImplicit} :
    Sign.ofBitVec (unpackSign (packComponents spec s e m)) = s := by
  have hbits : unpackSign (packComponents spec s e m) = s.toBitVec := by
    ext i hi
    obtain rfl : i = 0 := by omega
    simp [unpackSign, packComponents, BitVec.getLsbD_append, BitVec.getElem_append]
  rw [hbits]
  cases s <;> rfl

/-- A normal double is packed without loss. -/
theorem unpack_pack_normal (s : Sign) {m : Nat} {e : Int} (h : 0 < m) (hlow : 2 ^ 52 ≤ m)
    (hhigh : m < 2 ^ 53) (he : -1000 ≤ e ∧ e ≤ 900) :
    UnpackedFloat.unpack Format.binary64 (UnpackedFloat.pack Format.binary64 (.finite s m e h)) =
      .finite s m e h := by
  have hlog : m.log2 = 52 := (Nat.log2_eq_iff h.ne').mpr ⟨hlow, hhigh⟩
  have hbias : Format.binary64.exponentBias = 1023 := rfl
  obtain ⟨b, hb⟩ : ∃ b : Nat, e + 1023 + 52 = b := ⟨(e + 1023 + 52).toNat, by omega⟩
  have hpack : UnpackedFloat.pack Format.binary64 (.finite s m e h) =
      packComponents Format.binary64 s (BitVec.ofNat 11 b) (BitVec.ofNat 52 m) := by
    simp only [UnpackedFloat.pack, hlog, hbias]
    norm_num
    rw [hb, Int.toNat_natCast, if_neg (by omega), if_pos (by rfl)]
  have hbits : (BitVec.ofNat 11 b).toNat = b := by
    rw [BitVec.toNat_ofNat, Nat.mod_eq_of_lt (by omega)]
  have hmant : (1#1 ++ BitVec.ofNat 52 m).toNat = m := by
    rw [BitVec.toNat_append, BitVec.toNat_ofNat, BitVec.toNat_ofNat,
      ← Nat.shiftLeft_add_eq_or_of_lt (Nat.mod_lt _ (by omega))]
    norm_num [Nat.shiftLeft_eq]
    omega
  have hnot : BitVec.ofNat 11 b ≠ -1#11 := fun h => by
    have := congrArg BitVec.toNat h
    rw [hbits] at this
    norm_num at this
    omega
  have hne : BitVec.ofNat 11 b ≠ 0#11 := fun h => by
    have := congrArg BitVec.toNat h
    rw [hbits] at this
    norm_num at this
    omega
  rw [hpack, UnpackedFloat.unpack]
  simp only [unpackExponent_packComponents, unpackMantissa_packComponents,
    unpackSign_packComponents, hnot, hne, if_false, hbits, hbias, hmant]
  congr 1
  norm_num
  omega

/-! ## The double of an integer -/

/-- The conversion of a 64-bit integer to the nearest double. -/
def ofInt64 (n : Int64) : Float := .ofModel (Float.Model.ofInt64 n)

theorem nearest_pos {n : Nat} (hn : n ≠ 0) : 0 < (nearest n).1 :=
  lt_of_lt_of_le (Nat.two_pow_pos 52) (nearest_bounds hn).1

theorem unpack_round (s : Sign) {n : Nat} (hn : n ≠ 0) (hle : n ≤ 2 ^ 63) :
    UnpackedFloat.unpack Format.binary64
        (UnpackedFloat.pack Format.binary64 (round Format.binary64 s n 0)) =
      .finite s (nearest n).1 (nearest n).2 (nearest_pos hn) := by
  obtain ⟨hpos, hround⟩ := round_eq s hn
  obtain ⟨hlow, hhigh, helow, hehigh⟩ := nearest_bounds hn
  have hlog : n.log2 ≤ 63 := Nat.le_of_lt_succ ((Nat.log2_lt hn).mpr (by omega))
  rw [hround, unpack_pack_normal s hpos hlow hhigh (by omega)]

/-- The rank of the double nearest to an integer. -/
def intRank (n : Int) : Int ×ₗ Int ×ₗ Int :=
  let (m, e) := nearest n.natAbs
  if n < 0 then toLex (-1, toLex (-e, -(m : Int)))
  else if n = 0 then toLex (0, toLex (0, 0))
  else toLex (1, toLex (e, m))

theorem rank_ofInt64 (n : Int64) :
    (ofInt64 n).toModel.unpack ≠ .notANumber ∧ rank (ofInt64 n) = intRank n.toInt := by
  have hlow := n.le_toInt
  have hhigh := n.toInt_lt
  rw [rank, ofInt64, Float.Model.ofInt64, Float.Model.unpack, Float.Model.pack,
    UnpackedFloat.ofInt64, UnpackedFloat.ofInt, UnpackedFloat.normalize, intRank]
  split
  · rename_i hlt
    have hlt := compare_lt_iff_lt.mp hlt
    have hn : n.toInt.natAbs ≠ 0 := by omega
    rw [show (-n.toInt).toNat = n.toInt.natAbs by omega, unpack_round _ hn (by omega)]
    exact ⟨by rintro ⟨⟩, by simp [floatRank, hlt]⟩
  · rename_i heq
    rw [compare_eq_iff_eq.mp heq]
    exact ⟨by rintro ⟨⟩, rfl⟩
  · rename_i hgt
    have hgt := compare_gt_iff_gt.mp hgt
    have hn : n.toInt.natAbs ≠ 0 := by omega
    rw [show n.toInt.toNat = n.toInt.natAbs by omega, unpack_round _ hn (by omega)]
    exact ⟨by rintro ⟨⟩, by simp [floatRank, show ¬n.toInt < 0 by omega, show n.toInt ≠ 0 by omega]⟩

theorem intRank_le {m n : Int} (h : m ≤ n) : intRank m ≤ intRank n := by
  rw [intRank, intRank]
  dsimp only
  rcases lt_trichotomy m 0 with hm | hm | hm
  · rw [if_pos hm]
    split
    · have habs : n.natAbs ≤ m.natAbs := by omega
      have hle := nearest_le (by omega) habs
      refine Prod.Lex.toLex_le_toLex.mpr (.inr ⟨rfl, Prod.Lex.toLex_le_toLex.mpr ?_⟩)
      dsimp only
      omega
    · split <;> simp [Prod.Lex.toLex_le_toLex]
  · rw [if_neg (by omega), if_pos hm, if_neg (by omega)]
    split <;> simp [Prod.Lex.toLex_le_toLex]
  · have habs : m.natAbs ≤ n.natAbs := by omega
    have hle := nearest_le (by omega) habs
    rw [if_neg (by omega), if_neg (by omega), if_neg (by omega), if_neg (by omega)]
    refine Prod.Lex.toLex_le_toLex.mpr (.inr ⟨rfl, Prod.Lex.toLex_le_toLex.mpr ?_⟩)
    dsimp only
    omega

theorem rank_ofInt64_le {m n : Int64} (h : m ≤ n) : rank (ofInt64 m) ≤ rank (ofInt64 n) := by
  rw [(rank_ofInt64 m).2, (rank_ofInt64 n).2]
  exact intRank_le (Int64.le_iff_toInt_le.mp h)

end Relite.Lib
