import Relite.Vm.ExpressionEval

/-!
# BETWEEN and IN written out

What BETWEEN and IN stand for as comparisons joined with AND and OR. IN has the value of
what it stands for. BETWEEN is null as soon as one of its comparisons is, where AND is
already false by the other.
-/
namespace Relite.Vm
open Lib Relite.Parser

/-- `e` or `NOT e`. -/
def negateIf (negated : Bool) (e : Expression) : Expression := if negated then .not e else e

/-- `v >= lo AND v <= hi`. -/
def expandBetween (v lo hi : Expression) (negated : Bool) : Expression :=
  negateIf negated (.logical .And (.binary .Geq v lo) (.binary .Leq v hi))

/-- `v = e OR v = e₁ OR ...`. -/
def expandIn (v e : Expression) (es : List Expression) (negated : Bool) : Expression :=
  negateIf negated
    (es.foldl (fun acc item => .logical .Or acc (.binary .Eq v item)) (.binary .Eq v e))

/-- Two values compare unless one of them is null. -/
def Comparable (a b : Value) : Prop := a.isNull ∨ b.isNull ∨ (compareValues a b).isSome

theorem Comparable.eq_none_iff {a b : Value} (h : Comparable a b) (ha : a.isNull = false) :
    compareValues a b = none ↔ b.isNull := by
  rcases h with hnull | hnull | hsome
  · exact absurd hnull (by simp [ha])
  · exact ⟨fun _ => hnull, fun _ => by simp [compareValues, hnull]⟩
  · refine ⟨fun hnone => absurd hsome (by simp [hnone]), fun hnull => ?_⟩
    simp [compareValues, hnull]

theorem evalExpression_negateIf (negated : Bool) (e : Expression) (t : Tuple) :
    evalExpression (negateIf negated e) t =
      if negated then evalNot (evalExpression e t) else evalExpression e t := by
  cases negated <;> rfl

/-! ## IN -/

/-- What the items that come to nothing, to equality and to a difference make together. -/
def anyEqual (cmps : List (Option Ordering)) : Value :=
  if some .eq ∈ cmps then .bool true else if none ∈ cmps then .null else .bool false

theorem asBool_evalBinary_eq (v item : Value) :
    (evalBinary .Eq v item).asBool = (compareValues v item).map (· == .eq) := by
  rw [evalBinary]
  cases compareValues v item <;> rfl

theorem evalLogical_or_anyEqual (cmps : List (Option Ordering)) (cmp : Option Ordering) :
    evalLogical .Or (anyEqual cmps).asBool (cmp.map (· == .eq)) = anyEqual (cmps ++ [cmp]) := by
  have hmem : ∀ x, x ∈ cmps ++ [cmp] ↔ x ∈ cmps ∨ x = cmp := by simp
  rw [anyEqual, anyEqual]
  simp only [hmem]
  by_cases heq : some .eq ∈ cmps
  · simp [heq, evalLogical, Value.asBool]
  · by_cases hnone : none ∈ cmps <;> rcases cmp with _ | _ | _ | _ <;>
      simp [heq, hnone, evalLogical, Value.asBool]

/-- The comparisons, joined from the left. -/
theorem evalExpression_foldl_or (v acc : Expression) (es : List Expression) (t : Tuple)
    (cmps : List (Option Ordering)) (hacc : evalExpression acc t = anyEqual cmps) :
    evalExpression (es.foldl (fun acc item => .logical .Or acc (.binary .Eq v item)) acc) t =
      anyEqual (cmps ++ (evalAll es t).map (compareValues (evalExpression v t))) := by
  induction es generalizing acc cmps with
  | nil => simpa [evalAll] using hacc
  | cons item es ih =>
    have hnext : evalExpression (.logical .Or acc (.binary .Eq v item)) t =
        anyEqual (cmps ++ [compareValues (evalExpression v t) (evalExpression item t)]) := by
      rw [evalExpression, evalExpression, hacc, asBool_evalBinary_eq, evalLogical_or_anyEqual]
    rw [List.foldl_cons, ih _ _ hnext, evalAll, List.map_cons, List.append_assoc,
      List.singleton_append]

theorem evalIn_false_eq_anyEqual {v : Value} {items : List Value} (hne : items ≠ [])
    (h : ∀ item ∈ items, Comparable v item) :
    evalIn v items false = anyEqual (items.map (compareValues v)) := by
  rw [evalIn]
  by_cases hv : v.isNull = true
  · have hall : ∀ item, compareValues v item = none := fun item => by simp [compareValues, hv]
    obtain ⟨item, hitem⟩ := List.exists_mem_of_ne_nil items hne
    have hnone : none ∈ items.map (compareValues v) := List.mem_map.mpr ⟨item, hitem, hall item⟩
    have heq : some .eq ∉ items.map (compareValues v) := by
      intro hmem
      obtain ⟨item, _, hcmp⟩ := List.mem_map.mp hmem
      cases (hall item).symm.trans hcmp
    rw [if_pos hv, anyEqual, if_neg heq, if_pos hnone]
  · have heq : (items.any fun item => compareValues v item == some .eq) = true ↔
        some .eq ∈ items.map (compareValues v) := by
      simp [List.any_eq_true]
    have hnone : items.any Value.isNull = true ↔ none ∈ items.map (compareValues v) := by
      rw [List.any_eq_true, List.mem_map]
      refine exists_congr fun item => and_congr_right fun hitem => ?_
      exact ((h item hitem).eq_none_iff (Bool.not_eq_true _ ▸ hv)).symm
    rw [if_neg hv, anyEqual]
    simp only [heq, hnone]
    rfl

theorem evalIn_true (v : Value) (items : List Value) :
    evalIn v items true = evalNot (evalIn v items false) := by
  rw [evalIn, evalIn]
  split
  · rfl
  · split
    · rfl
    · split <;> rfl

theorem evalAll_eq_map (es : List Expression) (t : Tuple) :
    evalAll es t = es.map fun e => evalExpression e t := by
  induction es with
  | nil => rfl
  | cons e es ih => rw [evalAll, ih, List.map_cons]

/-- IN has the value of what it stands for. -/
theorem evalExpression_inList (v e : Expression) (es : List Expression) (negated : Bool)
    (t : Tuple) (h : ∀ item ∈ e :: es,
      Comparable (evalExpression v t) (evalExpression item t)) :
    evalExpression (.inList v (e :: es) negated) t =
      evalExpression (expandIn v e es negated) t := by
  have hcomp : ∀ item ∈ evalAll (e :: es) t, Comparable (evalExpression v t) item := by
    rw [evalAll_eq_map]
    exact List.forall_mem_map.mpr h
  have hfirst : evalExpression (.binary .Eq v e) t =
      anyEqual [compareValues (evalExpression v t) (evalExpression e t)] := by
    rw [evalExpression, evalBinary]
    rcases compareValues (evalExpression v t) (evalExpression e t) with _ | _ | _ | _ <;> rfl
  have hjoined := evalExpression_foldl_or v (.binary .Eq v e) es t _ hfirst
  have hin : evalIn (evalExpression v t) (evalAll (e :: es) t) false =
      evalExpression (expandIn v e es false) t :=
    (evalIn_false_eq_anyEqual (by simp [evalAll]) hcomp).trans hjoined.symm
  rw [evalExpression, expandIn, evalExpression_negateIf]
  cases negated with
  | false => exact hin
  | true => exact (evalIn_true _ _).trans (congrArg evalNot hin)

/-! ## BETWEEN -/

/-- One comparison of BETWEEN has no value and the other one fails. -/
def Undecided (v lo hi : Value) : Prop :=
  compareValues v lo = none ∧ compareValues v hi = some .gt ∨
    compareValues v lo = some .lt ∧ compareValues v hi = none

instance (v lo hi : Value) : Decidable (Undecided v lo hi) :=
  inferInstanceAs (Decidable (_ ∨ _))

theorem evalBetween_false_iff (v lo hi : Value) :
    evalBetween v lo hi false =
      evalLogical .And (evalBinary .Geq v lo).asBool (evalBinary .Leq v hi).asBool ↔
    ¬Undecided v lo hi := by
  unfold evalBetween evalBinary Undecided
  rcases compareValues v lo with _ | _ | _ | _ <;>
    rcases compareValues v hi with _ | _ | _ | _ <;>
    simp [compares, evalLogical, Value.asBool]

theorem evalBetween_true (v lo hi : Value) :
    evalBetween v lo hi true = evalNot (evalBetween v lo hi false) := by
  unfold evalBetween
  rcases compareValues v lo with _ | cl <;> rcases compareValues v hi with _ | ch <;> try rfl
  cases hin : (cl != .lt && ch != .gt) <;> simp [evalNot]

theorem evalNot_inj {a b : Value} (ha : a = .null ∨ ∃ x, a = .bool x)
    (hb : b = .null ∨ ∃ x, b = .bool x) : evalNot a = evalNot b ↔ a = b := by
  rcases ha with rfl | ⟨x, rfl⟩ <;> rcases hb with rfl | ⟨y, rfl⟩ <;> simp [evalNot]

/-- BETWEEN has the value of what it stands for unless one comparison has no value and the
other one fails. -/
theorem evalExpression_between_iff (v lo hi : Expression) (negated : Bool) (t : Tuple) :
    evalExpression (.between v lo hi negated) t =
      evalExpression (expandBetween v lo hi negated) t ↔
    ¬Undecided (evalExpression v t) (evalExpression lo t) (evalExpression hi t) := by
  have hbetween : ∀ a b c,
      evalBetween a b c false = .null ∨ ∃ x, evalBetween a b c false = .bool x := by
    intro a b c
    unfold evalBetween
    split
    · exact .inr ⟨_, rfl⟩
    · exact .inl rfl
  have hand : ∀ l r, evalLogical .And l r = .null ∨ ∃ x, evalLogical .And l r = .bool x := by
    intro l r
    rcases l with _ | _ | _ <;> rcases r with _ | _ | _ <;>
      first | exact .inl rfl | exact .inr ⟨_, rfl⟩
  rw [evalExpression, expandBetween, evalExpression_negateIf, evalExpression, evalExpression,
    evalExpression, ← evalBetween_false_iff]
  cases negated with
  | false => rfl
  | true =>
    rw [evalBetween_true, if_pos rfl]
    exact evalNot_inj (hbetween _ _ _) (hand _ _)

/-! ## Both -/

/-- BETWEEN and IN, negated or not, have the values of what they stand for. -/
def ExpansionsAgree (v lo hi e : Expression) (es : List Expression) (t : Tuple) : Prop :=
  ∀ negated,
    evalExpression (.between v lo hi negated) t =
      evalExpression (expandBetween v lo hi negated) t ∧
    evalExpression (.inList v (e :: es) negated) t = evalExpression (expandIn v e es negated) t

/-- On operands that compare, the two forms have the same value exactly if the value is not
outside one bound of a BETWEEN while the other bound is null. -/
theorem expansionsAgree_iff (v lo hi e : Expression) (es : List Expression) (t : Tuple)
    (hlo : Comparable (evalExpression v t) (evalExpression lo t))
    (hhi : Comparable (evalExpression v t) (evalExpression hi t))
    (hitems : ∀ item ∈ e :: es, Comparable (evalExpression v t) (evalExpression item t)) :
    ExpansionsAgree v lo hi e es t ↔
      ¬((evalExpression lo t).isNull ∧
          compareValues (evalExpression v t) (evalExpression hi t) = some .gt) ∧
      ¬((evalExpression hi t).isNull ∧
          compareValues (evalExpression v t) (evalExpression lo t) = some .lt) := by
  have hundecided : ExpansionsAgree v lo hi e es t ↔
      ¬Undecided (evalExpression v t) (evalExpression lo t) (evalExpression hi t) := by
    constructor
    · exact fun h => (evalExpression_between_iff v lo hi false t).mp (h false).1
    · exact fun h negated => ⟨(evalExpression_between_iff v lo hi negated t).mpr h,
        evalExpression_inList v e es negated t hitems⟩
  have hnot : ∀ {a b c : Value} {cmp : Ordering}, Comparable a b →
      compareValues a c = some cmp → (compareValues a b = none ↔ b.isNull) := by
    intro a b c cmp hcomp hc
    refine hcomp.eq_none_iff (Bool.eq_false_iff.mpr fun hnull => ?_)
    simp [compareValues, hnull] at hc
  rw [hundecided, Undecided, not_or]
  refine and_congr (not_congr ?_) (not_congr ?_)
  · exact and_congr_left fun hgt => hnot hlo hgt
  · rw [and_comm]
    exact and_congr_left fun hlt => hnot hhi hlt

theorem expansionsAgree_iff_five :
    ExpansionsAgree (.literal (.int 5)) (.literal .null) (.literal (.int 6)) (.literal (.int 5))
      [.literal .null] [] ↔
      ¬((Value.null).isNull ∧ compareValues (.int 5) (.int 6) = some .gt) ∧
      ¬((Value.int 6).isNull ∧ compareValues (.int 5) .null = some .lt) :=
  expansionsAgree_iff _ _ _ _ _ [] (.inr (.inl rfl)) (.inr (.inr rfl)) fun item hitem => by
    simp only [List.mem_cons, List.not_mem_nil, or_false] at hitem
    rcases hitem with rfl | rfl
    · exact .inr (.inr rfl)
    · exact .inr (.inl rfl)

/-- `5 BETWEEN 6 AND NULL` is null, and `5 >= 6 AND 5 <= NULL` is false. -/
theorem between_ne_expandBetween :
    evalExpression (.between (.literal (.int 5)) (.literal (.int 6)) (.literal .null) false) [] ≠
      evalExpression (expandBetween (.literal (.int 5)) (.literal (.int 6)) (.literal .null) false)
        [] := by
  decide

end Relite.Vm
