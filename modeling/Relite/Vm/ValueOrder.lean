import Relite.Index.Entries

/-!
# Where values are in order

`valueLess` compares two integers exactly, an integer and a double after rounding the
integer, and values of unlike types by the position of their types, where a number may be
before or after the truth values and the texts. Two integers that round to one double, and
an integer that is not below a double with a truth value or a text at hand, are the sets on
which these three do not fit together.
-/
namespace Relite.Vm
open Lib Tree

/-- Neither value is less than the other. -/
def Tied (a b : Value) : Prop := valueLess a b = false ∧ valueLess b a = false

/-- `valueLess` is a strict weak order on a set of values. -/
structure StrictWeak (S : Set Value) : Prop where
  irrefl : ∀ a ∈ S, valueLess a a = false
  trans : ∀ a ∈ S, ∀ b ∈ S, ∀ c ∈ S, valueLess a b → valueLess b c → valueLess a c
  tied : ∀ a ∈ S, ∀ b ∈ S, ∀ c ∈ S, Tied a b → Tied b c → Tied a c

/-- A double of the set is a number. -/
def Numbers (S : Set Value) : Prop := ∀ d, .double d ∈ S → ¬NotANumber d

/-- The integer rounds to the double. -/
def RoundsTo (n : Int64) (d : UInt64) : Prop :=
  ¬ofInt64 n < Float.ofBits d ∧ ¬Float.ofBits d < ofInt64 n

/-- No two integers of the set round to one of its doubles. -/
def RoundsApart (S : Set Value) : Prop :=
  ∀ m n d, .int m ∈ S → .int n ∈ S → .double d ∈ S → RoundsTo m d → RoundsTo n d → m = n

/-- A truth value or a text, whose type is between those of the numbers. -/
def Between (v : Value) : Prop := v.isNull = false ∧ v.isNumeric = false

/-- With a truth value or a text in the set, its integers are below its doubles. -/
def TypesApart (S : Set Value) : Prop :=
  ∀ v ∈ S, Between v → ∀ n d, .int n ∈ S → .double d ∈ S → ofInt64 n < Float.ofBits d

/-! ## How two values compare -/

theorem valueLess_int_double (n : Int64) (d : UInt64) :
    valueLess (.int n) (.double d) = decide (ofInt64 n < Float.ofBits d) := by
  by_cases hlt : ofInt64 n < Float.ofBits d <;> by_cases hgt : Float.ofBits d < ofInt64 n <;>
    simp [valueLess, compareValues, Value.isNull, Value.isNumeric, Value.asDouble,
      Value.intValue, hlt, hgt]

theorem valueLess_double_int (n : Int64) (d : UInt64) :
    valueLess (.double d) (.int n) = decide (Float.ofBits d < ofInt64 n) := by
  by_cases hlt : Float.ofBits d < ofInt64 n <;> by_cases hgt : ofInt64 n < Float.ofBits d <;>
    simp [valueLess, compareValues, Value.isNull, Value.isNumeric, Value.asDouble,
      Value.intValue, hlt, hgt]

theorem valueLess_double (d e : UInt64) :
    valueLess (.double d) (.double e) = decide (Float.ofBits d < Float.ofBits e) := by
  by_cases hlt : Float.ofBits d < Float.ofBits e <;>
    by_cases hgt : Float.ofBits e < Float.ofBits d <;>
    simp [valueLess, compareValues, Value.isNull, Value.isNumeric, Value.asDouble, hlt, hgt]

theorem tied_int_double {n : Int64} {d : UInt64} : Tied (.int n) (.double d) ↔ RoundsTo n d := by
  rw [Tied, valueLess_int_double, valueLess_double_int, decide_eq_false_iff_not,
    decide_eq_false_iff_not, RoundsTo]

theorem Tied.symm {a b : Value} (h : Tied a b) : Tied b a := ⟨h.2, h.1⟩

theorem valueLess_of_between {v : Value} (h : Between v) (n : Int64) (d : UInt64) :
    valueLess (.int n) v ∧ valueLess v (.double d) := by
  cases v with
  | null | int _ | double _ => exact absurd h (by simp [Between, Value.isNull, Value.isNumeric])
  | bool _ | text _ => exact ⟨rfl, rfl⟩

/-- No value is below one that is below it. -/
theorem valueLess_asymm {a b : Value} (h : valueLess a b) : valueLess b a = false := by
  cases a with
  | null => cases b <;> rfl
  | int m =>
    cases b with
    | int n =>
      rw [valueLess_int, decide_eq_true_iff] at h
      rw [valueLess_int, decide_eq_false_iff_not]
      exact Int64.lt_asymm h
    | double d =>
      rw [valueLess_int_double, decide_eq_true_iff] at h
      rw [valueLess_double_int, decide_eq_false_iff_not]
      exact float_lt_asymm h
    | _ => first | rfl | cases h
  | bool m => cases b with
    | bool n => cases m <;> cases n <;> first | rfl | cases h
    | _ => first | rfl | cases h
  | text m => cases b with
    | text n =>
      rw [valueLess_text, decide_eq_true_iff] at h
      rw [valueLess_text, decide_eq_false_iff_not]
      exact List.lt_asymm h
    | _ => first | rfl | cases h
  | double d =>
    cases b with
    | int n =>
      rw [valueLess_double_int, decide_eq_true_iff] at h
      rw [valueLess_int_double, decide_eq_false_iff_not]
      exact float_lt_asymm h
    | double e =>
      rw [valueLess_double, decide_eq_true_iff] at h
      rw [valueLess_double, decide_eq_false_iff_not]
      exact float_lt_asymm h
    | _ => first | rfl | cases h

/-! ## The numbers of a set -/

/-- The place of a number among the doubles. -/
def place (v : Value) : Int ×ₗ Int ×ₗ Int := rank v.asDouble

section Numbers

variable {S : Set Value} {a b c : Value}

theorem Numbers.lt_iff (h : Numbers S) (ha : a ∈ S) (hb : b ∈ S) (hna : a.isNumeric)
    (hnb : b.isNumeric) : a.asDouble < b.asDouble ↔ place a < place b := by
  have hnumber : ∀ v ∈ S, v.isNumeric → v.asDouble.toModel.unpack ≠ .notANumber := by
    intro v hv hn
    cases v with
    | int n => exact (rank_ofInt64 n).1
    | double d => exact (unpack_ofBits d).not.mpr (h d hv)
    | _ => cases hn
  exact lt_iff_rank (hnumber a ha hna) (hnumber b hb hnb)

/-- Unless both are integers, two numbers are as their places are. -/
theorem Numbers.less_iff (h : Numbers S) (ha : a ∈ S) (hb : b ∈ S) (hna : a.isNumeric)
    (hnb : b.isNumeric) (hdouble : (∃ d, a = .double d) ∨ ∃ d, b = .double d) :
    valueLess a b ↔ place a < place b := by
  rw [← h.lt_iff ha hb hna hnb]
  cases a with
  | int m =>
    obtain ⟨d, hd⟩ | ⟨d, rfl⟩ := hdouble
    · cases hd
    · rw [valueLess_int_double, decide_eq_true_iff]
      rfl
  | double d =>
    cases b with
    | int n =>
      rw [valueLess_double_int, decide_eq_true_iff]
      rfl
    | double e =>
      rw [valueLess_double, decide_eq_true_iff]
      rfl
    | _ => cases hnb
  | _ => cases hna

/-- A number below another has no place above it. -/
theorem Numbers.place_le (h : Numbers S) (ha : a ∈ S) (hb : b ∈ S) (hna : a.isNumeric)
    (hnb : b.isNumeric) (hless : valueLess a b) : place a ≤ place b := by
  by_cases hdouble : (∃ d, a = .double d) ∨ ∃ d, b = .double d
  · exact ((h.less_iff ha hb hna hnb hdouble).mp hless).le
  · cases a with
    | int m =>
      cases b with
      | int n =>
        rw [valueLess_int, decide_eq_true_iff] at hless
        exact rank_ofInt64_le (Int64.le_of_lt hless)
      | double d => exact absurd (.inr ⟨d, rfl⟩) hdouble
      | _ => cases hnb
    | double d => exact absurd (.inl ⟨d, rfl⟩) hdouble
    | _ => cases hna

theorem Numbers.less_of_place (h : Numbers S) (ha : a ∈ S) (hb : b ∈ S) (hna : a.isNumeric)
    (hnb : b.isNumeric) (hlt : place a < place b) : valueLess a b := by
  by_cases hdouble : (∃ d, a = .double d) ∨ ∃ d, b = .double d
  · exact (h.less_iff ha hb hna hnb hdouble).mpr hlt
  · cases a with
    | int m =>
      cases b with
      | int n =>
        rw [valueLess_int, decide_eq_true_iff]
        by_contra hle
        exact absurd hlt (rank_ofInt64_le (Int64.not_lt.mp hle)).not_gt
      | double d => exact absurd (.inr ⟨d, rfl⟩) hdouble
      | _ => cases hnb
    | double d => exact absurd (.inl ⟨d, rfl⟩) hdouble
    | _ => cases hna

theorem Numbers.roundsTo_iff (h : Numbers S) {n : Int64} {d : UInt64} (hn : .int n ∈ S)
    (hd : .double d ∈ S) : RoundsTo n d ↔ place (.int n) = place (.double d) := by
  have hlt := h.lt_iff hn hd rfl rfl
  have hgt := h.lt_iff hd hn rfl rfl
  simp only [Value.asDouble, Value.intValue] at hlt hgt
  rw [RoundsTo, hlt, hgt, not_lt, not_lt, le_antisymm_iff, and_comm]

/-- Every number is on one side of a step up. -/
theorem Numbers.split (h : Numbers S) (happart : RoundsApart S) (ha : a ∈ S) (hb : b ∈ S)
    (hc : c ∈ S) (hna : a.isNumeric) (hnb : b.isNumeric) (hnc : c.isNumeric)
    (hac : valueLess a c) : valueLess a b ∨ valueLess b c := by
  rcases lt_or_ge (place a) (place b) with hab | hba
  · exact .inl (h.less_of_place ha hb hna hnb hab)
  rcases lt_or_ge (place b) (place c) with hbc | hcb
  · exact .inr (h.less_of_place hb hc hnb hnc hbc)
  -- all three have one place, so the outer two are integers that round alike
  have hle := h.place_le ha hc hna hnc hac
  have hnot : ¬((∃ d, a = .double d) ∨ ∃ d, c = .double d) := fun hdouble =>
    absurd ((h.less_iff ha hc hna hnc hdouble).mp hac) (hcb.trans hba).not_gt
  cases a with
  | int m =>
    cases c with
    | int n =>
      rw [valueLess_int, decide_eq_true_iff] at hac
      cases b with
      | int k =>
        rw [valueLess_int, valueLess_int, decide_eq_true_iff, decide_eq_true_iff,
          or_iff_not_imp_left, Int64.not_lt]
        exact fun hkm => Int64.lt_of_le_of_lt hkm hac
      | double d =>
        have hm := (h.roundsTo_iff ha hb).mpr (le_antisymm (hle.trans hcb) hba)
        have hn := (h.roundsTo_iff hc hb).mpr (le_antisymm hcb (hba.trans hle))
        exact absurd (happart m n d ha hc hb hm hn) (Int64.ne_of_lt hac)
      | _ => cases hnb
    | double d => exact absurd (.inr ⟨d, rfl⟩) hnot
    | _ => cases hnc
  | double d => exact absurd (.inl ⟨d, rfl⟩) hnot
  | _ => cases hna

end Numbers

/-! ## Sets that are in order -/

/-- With a truth value or a text in a set that is kept apart, a value is below every one of
a later type. -/
theorem TypesApart.less_of_typeCode {S : Set Value} (h : TypesApart S) {v a b : Value}
    (hv : v ∈ S) (hbetween : Between v) (ha : a ∈ S) (hb : b ∈ S)
    (hcode : a.typeCode < b.typeCode) : valueLess a b := by
  cases a with
  | null => cases b <;> first | rfl | exact absurd hcode (by decide)
  | int n =>
    cases b with
    | double d =>
      rw [valueLess_int_double, decide_eq_true_iff]
      exact h v hv hbetween n d ha hb
    | bool _ | text _ => rfl
    | _ => exact absurd hcode (by simp [Value.typeCode])
  | bool _ | text _ => cases b <;> first | rfl | exact absurd hcode (by simp [Value.typeCode])
  | double _ => cases b <;> exact absurd hcode (by simp [Value.typeCode])

/-- The values of one type of a set are in order. -/
theorem Numbers.split_of_typeCode {S : Set Value} (h : Numbers S) {a b c : Value} (ha : a ∈ S)
    (hb : b ∈ S) (hc : c ∈ S) (hab : a.typeCode = b.typeCode) (hbc : b.typeCode = c.typeCode)
    (hac : valueLess a c) : valueLess a b ∨ valueLess b c := by
  have hordered : ∀ d ≠ DataType.Float, (∀ v ∈ [a, b, c], Tuple.HasType d v) →
      valueLess a b ∨ valueLess b c := fun d hd htype =>
    (ordered_of_hasType hd htype).2 a (by simp) b (by simp) c (by simp) hac
  cases a with
  | null =>
    obtain rfl : c = .null := by cases c <;> first | rfl | cases hab.trans hbc
    cases hac
  | int m =>
    obtain ⟨k, rfl⟩ : ∃ k, b = .int k := by cases b <;> first | exact ⟨_, rfl⟩ | cases hab
    obtain ⟨n, rfl⟩ : ∃ n, c = .int n := by cases c <;> first | exact ⟨_, rfl⟩ | cases hbc
    exact hordered .Int nofun (by simp [Tuple.HasType])
  | bool m =>
    obtain ⟨k, rfl⟩ : ∃ k, b = .bool k := by cases b <;> first | exact ⟨_, rfl⟩ | cases hab
    obtain ⟨n, rfl⟩ : ∃ n, c = .bool n := by cases c <;> first | exact ⟨_, rfl⟩ | cases hbc
    exact hordered .Bool nofun (by simp [Tuple.HasType])
  | text m =>
    obtain ⟨k, rfl⟩ : ∃ k, b = .text k := by cases b <;> first | exact ⟨_, rfl⟩ | cases hab
    obtain ⟨n, rfl⟩ : ∃ n, c = .text n := by cases c <;> first | exact ⟨_, rfl⟩ | cases hbc
    exact hordered .Text nofun (by simp [Tuple.HasType])
  | double d =>
    obtain ⟨k, rfl⟩ : ∃ k, b = .double k := by cases b <;> first | exact ⟨_, rfl⟩ | cases hab
    obtain ⟨n, rfl⟩ : ∃ n, c = .double n := by cases c <;> first | exact ⟨_, rfl⟩ | cases hbc
    have hlt := (h.less_iff ha hc rfl rfl (.inl ⟨d, rfl⟩)).mp hac
    rcases lt_or_ge (place (.double d)) (place (.double k)) with hdk | hkd
    · exact .inl (h.less_of_place ha hb rfl rfl hdk)
    · exact .inr (h.less_of_place hb hc rfl rfl (hkd.trans_lt hlt))

theorem typeCode_le_of_valueLess {S : Set Value} (h : TypesApart S) {v a b : Value} (hv : v ∈ S)
    (hbetween : Between v) (ha : a ∈ S) (hb : b ∈ S) (hless : valueLess a b) :
    a.typeCode ≤ b.typeCode := by
  by_contra hlt
  have hback := h.less_of_typeCode hv hbetween hb ha (not_le.mp hlt)
  exact Bool.false_ne_true ((valueLess_asymm hless).symm.trans hback)

/-- In a set that is kept apart, every value is on one side of a step up. -/
theorem split_of_apart {S : Set Value} (hnum : Numbers S) (hround : RoundsApart S)
    (htypes : TypesApart S) {a b c : Value} (ha : a ∈ S) (hb : b ∈ S) (hc : c ∈ S)
    (hac : valueLess a c) : valueLess a b ∨ valueLess b c := by
  by_cases hmixed : ∃ v ∈ S, Between v
  · obtain ⟨v, hv, hbetween⟩ := hmixed
    have hle := typeCode_le_of_valueLess htypes hv hbetween ha hc hac
    rcases lt_or_ge a.typeCode b.typeCode with hab | hba
    · exact .inl (htypes.less_of_typeCode hv hbetween ha hb hab)
    rcases lt_or_ge b.typeCode c.typeCode with hbc | hcb
    · exact .inr (htypes.less_of_typeCode hv hbetween hb hc hbc)
    exact hnum.split_of_typeCode ha hb hc (by omega) (by omega) hac
  · have hnumeric : ∀ v ∈ S, v.isNull = false → v.isNumeric := by
      intro v hv hnull
      by_contra hn
      exact hmixed ⟨v, hv, hnull, Bool.not_eq_true _ ▸ hn⟩
    by_cases hna : a = .null
    · subst hna
      cases b with
      | null => exact .inr hac
      | _ => exact .inl rfl
    by_cases hnb : b = .null
    · subst hnb
      cases c <;> first | exact .inr rfl | (cases a <;> cases hac)
    by_cases hnc : c = .null
    · subst hnc
      cases a <;> cases hac
    have hnull : ∀ v : Value, v ≠ .null → v.isNull = false := fun v hv => by
      cases v <;> first | rfl | exact absurd rfl hv
    exact hnum.split hround ha hb hc (hnumeric a ha (hnull a hna)) (hnumeric b hb (hnull b hnb))
      (hnumeric c hc (hnull c hnc)) hac

theorem StrictWeak.of_apart {S : Set Value} (hnum : Numbers S) (hround : RoundsApart S)
    (htypes : TypesApart S) : StrictWeak S := by
  have hordered : ∀ a ∈ S, ∀ b ∈ S, ∀ c ∈ S, Tree.Ordered [a, b, c] := by
    intro a ha b hb c hc
    have hmem : ∀ v ∈ [a, b, c], v ∈ S := by
      intro v hv
      simp only [List.mem_cons, List.not_mem_nil, or_false] at hv
      rcases hv with rfl | rfl | rfl
      exacts [ha, hb, hc]
    exact ⟨fun _ _ _ _ => valueLess_asymm, fun x hx y hy z hz =>
      split_of_apart hnum hround htypes (hmem x hx) (hmem y hy) (hmem z hz)⟩
  refine ⟨fun a ha => ?_, fun a ha b hb c hc => ?_, fun a ha b hb c hc hab hbc => ?_⟩
  · exact (hordered a ha a ha a ha).irrefl (by simp)
  · exact (hordered a ha b hb c hc).trans (by simp) (by simp) (by simp)
  · have h := hordered a ha b hb c hc
    exact ⟨h.not_less (by simp) (by simp) (by simp) hbc.1 hab.1,
      h.not_less (by simp) (by simp) (by simp) hab.2 hbc.2⟩

/-! ## Sets that are not -/

theorem StrictWeak.roundsApart {S : Set Value} (h : StrictWeak S) : RoundsApart S := by
  intro m n d hm hn hd hmd hnd
  have htied := h.tied _ hm _ hd _ hn (tied_int_double.mpr hmd) (tied_int_double.mpr hnd).symm
  rw [Tied, valueLess_int, valueLess_int, decide_eq_false_iff_not, decide_eq_false_iff_not,
    Int64.not_lt, Int64.not_lt] at htied
  exact Int64.le_antisymm htied.2 htied.1

theorem StrictWeak.typesApart {S : Set Value} (h : StrictWeak S) : TypesApart S := by
  intro v hv hbetween n d hn hd
  obtain ⟨hlow, hhigh⟩ := valueLess_of_between hbetween n d
  have hless := h.trans _ hn _ hv _ hd hlow hhigh
  rwa [valueLess_int_double, decide_eq_true_iff] at hless

/-- `valueLess` is a strict weak order on a set of numbers, truth values, texts and nulls
exactly when no two of its integers round to one of its doubles and, with a truth value or
a text in it, its integers are all below its doubles. -/
theorem strictWeak_iff_apart (S : Set Value) (h : Numbers S) :
    StrictWeak S ↔ RoundsApart S ∧ TypesApart S :=
  ⟨fun hweak => ⟨hweak.roundsApart, hweak.typesApart⟩,
    fun hparts => .of_apart h hparts.1 hparts.2⟩

/-- What an INT or FLOAT column holds besides nulls. -/
theorem typesApart_of_isNumeric {S : Set Value} (h : ∀ v ∈ S, v.isNull ∨ v.isNumeric) :
    TypesApart S := by
  intro v hv hbetween
  rcases h v hv with hnull | hnum
  · exact absurd hnull (by simp [hbetween.1])
  · exact absurd hnum (by simp [hbetween.2])

theorem strictWeak_iff_apart_ints : StrictWeak {.null, .int 1, .int 2, .double 0x4008000000000000} ↔
    RoundsApart {.null, .int 1, .int 2, .double 0x4008000000000000} ∧
      TypesApart {.null, .int 1, .int 2, .double 0x4008000000000000} :=
  strictWeak_iff_apart _ fun d hd => by
    obtain rfl : d = 0x4008000000000000 := by simpa using hd
    decide

/-- A double that is neither infinite nor no number. -/
def FiniteDouble (d : UInt64) : Prop := (d.toNat >>> 52) % 2048 ≠ 2047

instance (d : UInt64) : Decidable (FiniteDouble d) :=
  inferInstanceAs (Decidable (_ ≠ _))

theorem FiniteDouble.not_notANumber {d : UInt64} (h : FiniteDouble d) : ¬NotANumber d :=
  fun hnot => h hnot.1

/-- Two integers beyond 53 bits are both tied to the double of the first, and not to each
other. -/
theorem not_strictWeak_finite :
    ¬StrictWeak {v | ∀ d, v = .double d → FiniteDouble d} := by
  intro h
  have hdouble : ∀ d, Value.double 0x4340000000000000 = .double d → FiniteDouble d := by
    rintro d ⟨⟩
    decide
  have htied := h.tied (.int (2 ^ 53)) nofun (.double 0x4340000000000000) hdouble
    (.int (2 ^ 53 + 1)) nofun ⟨by decide +kernel, by decide +kernel⟩
    ⟨by decide +kernel, by decide +kernel⟩
  exact absurd htied.1 (by decide +kernel)

end Relite.Vm
