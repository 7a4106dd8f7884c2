import Relite.Lib.SignedOps
import Relite.Vm.Having
import Relite.Vm.Rewrite

/-!
# Signed operations of an evaluation

The operations on signed integers that evaluating an expression, folding constants, a
HAVING clause and a SUM perform, next to an evaluation with exact integers that is given up
as soon as one is out of range. Only a divisor of zero is looked for, so the operations may
be done exactly as long as the exact integers stay in range.
-/
namespace Relite.Vm
open Lib Relite.Parser

/-! ## The operations -/

def arithmeticOps (op : ArithmeticOp) (l r : Value) : List SignedOp :=
  match l, r with
  | .int a, .int b =>
    match op with
    | .Add => [.add a b]
    | .Sub => [.sub a b]
    | .Mul => [.mul a b]
    | .Div => if b = 0 then [] else [.div a b]
  | _, _ => []

def callOps (name : String) (args : List Value) : List SignedOp :=
  let a0 := args.getD 0 .null
  let a1 := args.getD 1 .null
  if name = "SUBSTR" then
    if a0.isNull || a1.isNull then []
    else [.sub (if a1.intValue < 1 then 1 else a1.intValue) 1]
  else if name = "ABS" then
    match a0 with
    | .null | .double _ => []
    | a0 => if a0.intValue < 0 then [.neg a0.intValue] else []
  else if name = "MOD" then
    if a0.isNull || a1.isNull || a1.intValue == 0 then [] else [.rem a0.intValue a1.intValue]
  else []

mutual

/-- The operations of `evalExpression`, in its order. -/
def signedOps : Expression → Tuple → List SignedOp
  | .literal _, _ | .column _, _ | .aggregate .., _ | .subquery .., _ => []
  | .binary _ l r, t | .logical _ l r, t => signedOps l t ++ signedOps r t
  | .arithmetic op l r, t =>
    signedOps l t ++ (signedOps r t ++ arithmeticOps op (evalExpression l t) (evalExpression r t))
  | .not operand, t | .isNull operand _, t => signedOps operand t
  | .inList v items _, t =>
    signedOps v t ++
      if (evalExpression v t).isNull then [] else itemOps (evalExpression v t) items t
  | .inSubquery v _ _, t => signedOps v t
  | .between v lo hi _, t => signedOps v t ++ (signedOps lo t ++ signedOps hi t)
  | .like v pattern _, t => signedOps v t ++ signedOps pattern t
  | .call name args, t => argumentOps args t ++ callOps name (evalAll args t)
  | .cast arg _, t => signedOps arg t
  | .case branches none, t => branchOps branches t
  | .case branches (some e), t =>
    branchOps branches t ++ if (evalBranches branches t).isSome then [] else signedOps e t

/-- The items of an IN are evaluated up to the first that is equal. -/
def itemOps (v : Value) : List Expression → Tuple → List SignedOp
  | [], _ => []
  | e :: es, t =>
    signedOps e t ++
      if compareValues v (evalExpression e t) = some .eq then [] else itemOps v es t

def argumentOps : List Expression → Tuple → List SignedOp
  | [], _ => []
  | e :: es, t => signedOps e t ++ argumentOps es t

def branchOps : List (Expression × Expression) → Tuple → List SignedOp
  | [], _ => []
  | (cond, value) :: branches, t =>
    signedOps cond t ++
      if evalExpression cond t = .bool true then signedOps value t else branchOps branches t

end

/-! ## With exact integers -/

/-- An exact integer as a value, if it is in range. -/
def ofExact (n : Int) : Option Value := if InInt64 n then some (.int (Int64.ofInt n)) else none

def exactArithmetic (op : ArithmeticOp) (l r : Value) : Option Value :=
  match l, r with
  | .int a, .int b =>
    match op with
    | .Add => ofExact (a.toInt + b.toInt)
    | .Sub => ofExact (a.toInt - b.toInt)
    | .Mul => ofExact (a.toInt * b.toInt)
    | .Div => if b.toInt = 0 then some .null else ofExact (a.toInt.tdiv b.toInt)
  | l, r => some (evalArithmetic op l r)

/-- A remainder of the least integer by minus one cannot be had. -/
def exactCall (name : String) (args : List Value) : Option Value :=
  let a0 := args.getD 0 .null
  let a1 := args.getD 1 .null
  if name = "ABS" then
    match a0 with
    | .null => some .null
    | .double bits => some (.ofFloat (Float.ofBits bits).abs)
    | a0 => ofExact |a0.intValue.toInt|
  else if name = "MOD" then
    if a0.isNull || a1.isNull || a1.intValue.toInt == 0 then some .null
    else if a0.intValue.toInt = -2 ^ 63 ∧ a1.intValue.toInt = -1 then none
    else ofExact (a0.intValue.toInt.tmod a1.intValue.toInt)
  else some (evalCall name args)

mutual

/-- The value of an expression by exact integers, none once one of them is out of range. -/
def evalExact : Expression → Tuple → Option Value
  | .literal v, _ => some v
  | .column col, t => some (evalColumn col t)
  | .binary op l r, t =>
    (evalExact l t).bind fun l => (evalExact r t).map fun r => evalBinary op l r
  | .logical op l r, t =>
    (evalExact l t).bind fun l => (evalExact r t).map fun r => evalLogical op l.asBool r.asBool
  | .arithmetic op l r, t =>
    (evalExact l t).bind fun l => (evalExact r t).bind fun r => exactArithmetic op l r
  | .not operand, t => (evalExact operand t).map evalNot
  | .isNull operand negated, t => (evalExact operand t).map fun v => .bool (v.isNull != negated)
  | .inList v items negated, t =>
    (evalExact v t).bind fun v =>
      if v.isNull then some .null
      else (exactItems v items t).map fun items => evalIn v items negated
  | .inSubquery v results negated, t => (evalExact v t).map fun v => evalIn v results negated
  | .between v lo hi negated, t =>
    (evalExact v t).bind fun v => (evalExact lo t).bind fun lo => (evalExact hi t).map fun hi =>
      evalBetween v lo hi negated
  | .like v pattern negated, t =>
    (evalExact v t).bind fun v => (evalExact pattern t).map fun pattern =>
      evalLike v pattern negated
  | .call name args, t => (exactAll args t).bind (exactCall name)
  | .cast arg target, t => (evalExact arg t).map fun v => castValue v target
  | .case branches none, t => (exactBranches branches t).map fun v => v.getD .null
  | .case branches (some e), t =>
    (exactBranches branches t).bind fun
      | some v => some v
      | none => evalExact e t
  | .aggregate .., _ => some .null
  | .subquery .Scalar results, _ => some (results.headD .null)
  | .subquery .Exists results, _ => some (.bool !results.isEmpty)

/-- The items up to the first that is equal to the value. -/
def exactItems (v : Value) : List Expression → Tuple → Option (List Value)
  | [], _ => some []
  | e :: es, t =>
    (evalExact e t).bind fun item =>
      if compareValues v item = some .eq then some [item]
      else (exactItems v es t).map (item :: ·)

def exactAll : List Expression → Tuple → Option (List Value)
  | [], _ => some []
  | e :: es, t => (evalExact e t).bind fun v => (exactAll es t).map (v :: ·)

/-- The value of the first branch whose condition is true, if there is one. -/
def exactBranches : List (Expression × Expression) → Tuple → Option (Option Value)
  | [], _ => some none
  | (cond, value) :: branches, t =>
    (evalExact cond t).bind fun c =>
      if c = .bool true then (evalExact value t).map some else exactBranches branches t

end

/-! ## One operation -/

theorem ofExact_eq (op : SignedOp) {n : Int} (hn : op.exact = n) (htraps : InInt64 n → ¬op.Traps) :
    ofExact n = guarded [op] (.int op.result) := by
  subst hn
  refine guarded_singleton (fun h => ?_) fun h => ?_
  · rw [ofExact, if_pos h.1, op.ofInt_exact]
  · exact if_neg fun hrange => h ⟨hrange, htraps hrange⟩

theorem exactArithmetic_eq (op : ArithmeticOp) (l r : Value) :
    exactArithmetic op l r = guarded (arithmeticOps op l r) (evalArithmetic op l r) := by
  cases l with
  | int a =>
    cases r with
    | int b =>
      cases op with
      | Add => exact ofExact_eq (.add a b) rfl fun _ h => h
      | Sub => exact ofExact_eq (.sub a b) rfl fun _ h => h
      | Mul => exact ofExact_eq (.mul a b) rfl fun _ h => h
      | Div =>
        have hzero : b.toInt = 0 ↔ b = 0 := by
          rw [← Int64.toInt_zero, Int64.toInt_inj]
        rw [exactArithmetic, arithmeticOps, evalArithmetic]
        simp only [hzero]
        by_cases hb : b = 0
        · rw [if_pos hb, if_pos hb, if_pos hb, guarded_nil]
        · rw [if_neg hb, if_neg hb, if_neg hb]
          refine ofExact_eq (.div a b) rfl fun hrange htraps => ?_
          rcases htraps with h | ⟨ha, hb'⟩
          · exact hb (hzero.mp h)
          · rw [ha, hb'] at hrange
            exact absurd hrange (by decide)
    | _ => exact (guarded_nil _).symm
  | _ => exact (guarded_nil _).symm

theorem guarded_substr (v w : Value) (a : Value) :
    guarded (if v.isNull || w.isNull then []
      else [.sub (if w.intValue < 1 then 1 else w.intValue) 1]) a = some a := by
  refine if_pos fun op hop => ?_
  split at hop
  · cases hop
  · obtain rfl := List.mem_singleton.mp hop
    refine ⟨?_, id⟩
    have hlt := w.intValue.toInt_lt
    have hone : (1 : Int64).toInt = 1 := rfl
    rw [SignedOp.exact, hone]
    split
    · decide
    · rename_i hge
      rw [Int64.lt_iff_toInt_lt, hone] at hge
      exact ⟨by omega, by omega⟩

theorem exactAbs_eq (n : Int64) :
    ofExact |n.toInt| =
      guarded (if n < 0 then [.neg n] else []) (.int (if n < 0 then -n else n)) := by
  have hneg : n < 0 ↔ n.toInt < 0 := Int64.lt_iff_toInt_lt
  by_cases h : n < 0
  · rw [if_pos h, if_pos h]
    exact ofExact_eq (.neg n) (abs_of_neg (hneg.mp h)).symm fun _ h => h
  · rw [if_neg h, if_neg h, guarded_nil, abs_of_nonneg (not_lt.mp (hneg.not.mp h)), ofExact,
      if_pos (inInt64_toInt n), Int64.ofInt_toInt]

theorem exactMod_eq (a b : Int64) (hb : b ≠ 0) :
    (if a.toInt = -2 ^ 63 ∧ b.toInt = -1 then none else ofExact (a.toInt.tmod b.toInt)) =
      guarded [.rem a b] (.int (a % b)) := by
  have hzero : b.toInt ≠ 0 := by
    rwa [← Int64.toInt_zero, Ne, Int64.toInt_inj]
  by_cases htraps : a.toInt = -2 ^ 63 ∧ b.toInt = -1
  · rw [if_pos htraps]
    refine guarded_singleton (fun h => absurd (.inr htraps) h.2) fun _ => rfl
  · rw [if_neg htraps]
    exact ofExact_eq (.rem a b) rfl fun _ h => h.elim hzero htraps

theorem exactCall_eq (name : String) (args : List Value) :
    exactCall name args = guarded (callOps name args) (evalCall name args) := by
  generalize ha0 : args.getD 0 .null = a0
  generalize ha1 : args.getD 1 .null = a1
  by_cases habs : name = "ABS"
  · have hcall : evalCall "ABS" args = match args.getD 0 .null with
        | .null => .null
        | .double bits => .ofFloat (Float.ofBits bits).abs
        | a0 => .int (if a0.intValue < 0 then -a0.intValue else a0.intValue) := rfl
    have hops : callOps "ABS" args = match args.getD 0 .null with
        | .null | .double _ => []
        | a0 => if a0.intValue < 0 then [.neg a0.intValue] else [] := rfl
    rw [habs, exactCall, if_pos rfl, hcall, hops, ha0]
    cases a0 with
    | null | double bits => exact (guarded_nil _).symm
    | int n => exact exactAbs_eq n
    | bool _ | text _ => exact exactAbs_eq 0
  by_cases hmod : name = "MOD"
  · have hcall : evalCall "MOD" args =
        if (args.getD 0 .null).isNull || (args.getD 1 .null).isNull ||
          (args.getD 1 .null).intValue == 0 then .null
        else .int ((args.getD 0 .null).intValue % (args.getD 1 .null).intValue) := rfl
    have hops : callOps "MOD" args =
        if (args.getD 0 .null).isNull || (args.getD 1 .null).isNull ||
          (args.getD 1 .null).intValue == 0 then []
        else [.rem (args.getD 0 .null).intValue (args.getD 1 .null).intValue] := rfl
    have hzero : (a1.intValue.toInt == 0) = (a1.intValue == 0) := by
      rw [Bool.eq_iff_iff, beq_iff_eq, beq_iff_eq, ← Int64.toInt_zero, Int64.toInt_inj]
    rw [hmod, exactCall, if_neg (by decide), if_pos rfl, hcall, hops, ha0, ha1, hzero]
    split
    · exact (guarded_nil _).symm
    · rename_i h
      refine exactMod_eq _ _ fun hb => h ?_
      simp [hb]
  have hother : exactCall name args = some (evalCall name args) := by
    rw [exactCall, if_neg habs, if_neg hmod]
  rw [hother]
  by_cases hsubstr : name = "SUBSTR"
  · rw [hsubstr]
    exact (guarded_substr _ _ _).symm
  · rw [callOps, if_neg hsubstr, if_neg habs, if_neg hmod, guarded_nil]

/-! ## Whole expressions -/

/-- The values up to the first that is equal. -/
def upTo (v : Value) : List Value → List Value
  | [] => []
  | item :: items => if compareValues v item = some .eq then [item] else item :: upTo v items

theorem any_upTo (v : Value) (items : List Value) :
    (upTo v items).any (fun item => compareValues v item == some .eq) =
      items.any fun item => compareValues v item == some .eq := by
  induction items with
  | nil => rfl
  | cons item items ih =>
    rw [upTo]
    split
    · rename_i h
      simp [h]
    · rw [List.any_cons, List.any_cons, ih]

theorem upTo_eq_self {v : Value} {items : List Value}
    (h : (items.any fun item => compareValues v item == some .eq) = false) :
    upTo v items = items := by
  induction items with
  | nil => rfl
  | cons item items ih =>
    rw [List.any_cons, Bool.or_eq_false_iff, beq_eq_false_iff_ne] at h
    rw [upTo, if_neg h.1, ih h.2]

/-- What comes after an equal item does not matter. -/
theorem evalIn_upTo (v : Value) (items : List Value) (negated : Bool) :
    evalIn v (upTo v items) negated = evalIn v items negated := by
  rw [evalIn, evalIn, any_upTo]
  cases h : items.any fun item => compareValues v item == some .eq with
  | true => rfl
  | false => rw [upTo_eq_self h]

mutual

theorem evalExact_eq : ∀ (e : Expression) (t : Tuple),
    evalExact e t = guarded (signedOps e t) (evalExpression e t)
  | .literal _, _ | .column _, _ | .aggregate .., _ => by
    simp only [evalExact, signedOps, evalExpression, guarded_nil]
  | .subquery .Scalar _, _ | .subquery .Exists _, _ => by
    simp only [evalExact, signedOps, evalExpression, guarded_nil]
  | .binary _ l r, t | .logical _ l r, t => by
    rw [evalExact, signedOps, evalExpression, evalExact_eq l t, evalExact_eq r t]
    exact guarded_bind (guarded_map _)
  | .arithmetic op l r, t => by
    rw [evalExact, signedOps, evalExpression, evalExact_eq l t, evalExact_eq r t]
    exact guarded_bind (guarded_bind (exactArithmetic_eq op _ _))
  | .not operand, t | .isNull operand _, t | .inSubquery operand _ _, t | .cast operand _, t => by
    rw [evalExact, signedOps, evalExpression, evalExact_eq operand t]
    exact guarded_map _
  | .inList v items negated, t => by
    rw [evalExact, signedOps, evalExpression, evalExact_eq v t]
    refine guarded_bind ?_
    split
    · rename_i hnull
      rw [guarded_nil, evalIn, if_pos hnull]
    · rw [exactItems_eq _ items t, guarded_map, evalIn_upTo]
  | .between v lo hi _, t => by
    rw [evalExact, signedOps, evalExpression, evalExact_eq v t, evalExact_eq lo t,
      evalExact_eq hi t]
    exact guarded_bind (guarded_bind (guarded_map _))
  | .like v pattern _, t => by
    rw [evalExact, signedOps, evalExpression, evalExact_eq v t, evalExact_eq pattern t]
    exact guarded_bind (guarded_map _)
  | .call name args, t => by
    rw [evalExact, signedOps, evalExpression, exactAll_eq args t]
    exact guarded_bind (exactCall_eq name _)
  | .case branches none, t => by
    rw [evalExact, signedOps, evalExpression, exactBranches_eq branches t]
    exact guarded_map _
  | .case branches (some e), t => by
    rw [evalExact, signedOps, evalExpression, exactBranches_eq branches t]
    refine guarded_bind ?_
    cases evalBranches branches t with
    | some v => exact (guarded_nil v).symm
    | none => exact evalExact_eq e t

theorem exactItems_eq (v : Value) : ∀ (items : List Expression) (t : Tuple),
    exactItems v items t = guarded (itemOps v items t) (upTo v (evalAll items t))
  | [], _ => (guarded_nil _).symm
  | e :: es, t => by
    rw [exactItems, itemOps, evalAll, upTo, evalExact_eq e t]
    refine guarded_bind ?_
    split
    · exact (guarded_nil _).symm
    · rw [exactItems_eq v es t]
      exact guarded_map _

theorem exactAll_eq : ∀ (es : List Expression) (t : Tuple),
    exactAll es t = guarded (argumentOps es t) (evalAll es t)
  | [], _ => (guarded_nil _).symm
  | e :: es, t => by
    rw [exactAll, argumentOps, evalAll, evalExact_eq e t, exactAll_eq es t]
    exact guarded_bind (guarded_map _)

theorem exactBranches_eq : ∀ (branches : List (Expression × Expression)) (t : Tuple),
    exactBranches branches t = guarded (branchOps branches t) (evalBranches branches t)
  | [], _ => (guarded_nil _).symm
  | (cond, value) :: branches, t => by
    rw [exactBranches, branchOps, evalBranches, evalExact_eq cond t]
    refine guarded_bind ?_
    split
    · rw [evalExact_eq value t]
      exact guarded_map _
    · exact exactBranches_eq branches t

end

/-- The operations of an expression may be done exactly if its exact integers stay in range,
and then its value is the exact one. -/
theorem safe_iff_evalExact (e : Expression) (t : Tuple) :
    (∀ op ∈ signedOps e t, op.Safe) ↔ (evalExact e t).isSome := by
  rw [evalExact_eq, isSome_guarded]

/-! ## Folding -/

/-- The largest constant parts, which `rewriteExpression` evaluates. -/
def constants : Expression → List Expression
  | .arithmetic op l r =>
    if isFoldable (.arithmetic op l r) then [.arithmetic op l r] else constants l ++ constants r
  | .logical op l r =>
    if isFoldable (.logical op l r) then [.logical op l r] else constants l ++ constants r
  | .binary op l r =>
    if isFoldable (.binary op l r) then [.binary op l r] else constants l ++ constants r
  | .not operand => if isFoldable (.not operand) then [.not operand] else constants operand
  | e => if isFoldable e then [e] else []

/-! ## Sums -/

/-- What the loop for SUM and AVG adds up for a value, and the count. -/
def addOps (s : Sums) (v : Value) : List SignedOp :=
  match v with
  | .double _ => []
  | v => [.add s.isum v.intValue]

def sumOps : Sums → List Value → List SignedOp
  | _, [] => []
  | s, v :: vals => addOps s v ++ .add s.n 1 :: sumOps (s.add v) vals

/-- The values that an aggregate takes into account. -/
def aggregated (fn : FunctionExpr) (rows : List Tuple) : List Value :=
  let vals := presentValues ((fn.argument.map ColumnRef.columnIndex).getD (-1)) rows
  if fn.distinct then firstsBy valKey vals [] else vals

def aggregateOps (fn : FunctionExpr) (rows : List Tuple) : List SignedOp :=
  if fn.name = "SUM" ∨ fn.name = "AVG" then sumOps {} (aggregated fn rows) else []

/-- What a value adds to the sum of the integers. -/
def addend (v : Value) : Int :=
  match v with
  | .double _ => 0
  | v => v.intValue.toInt

/-- The sums of the values so far are in range all the way, from some sum and count on. -/
def SumsInRange (sum count : Int) (vals : List Value) : Prop :=
  count + vals.length < 2 ^ 63 ∧
    ∀ k ≤ vals.length, InInt64 (sum + ((vals.take k).map addend).sum)

theorem addOps_safe_iff (s : Sums) (v : Value) :
    (∀ op ∈ addOps s v, op.Safe) ↔ InInt64 (s.isum.toInt + addend v) := by
  have hone : ∀ n : Int64, (∀ op ∈ [SignedOp.add s.isum n], op.Safe) ↔
      InInt64 (s.isum.toInt + n.toInt) := by
    intro n
    rw [List.forall_mem_singleton]
    exact and_iff_left id
  cases v with
  | double bits =>
    refine iff_of_true nofun ?_
    rw [addend, add_zero]
    exact inInt64_toInt _
  | _ => exact hone _

theorem toInt_add {a b : Int64} (h : InInt64 (a.toInt + b.toInt)) :
    (a + b).toInt = a.toInt + b.toInt := by
  have hexact := toInt_ofInt_of_inRange h
  rwa [Int64.ofInt_add, Int64.ofInt_toInt, Int64.ofInt_toInt] at hexact

theorem toInt_succ {n : Int64} (h : n.toInt + 1 < 2 ^ 63) : (n + 1).toInt = n.toInt + 1 := by
  have hlow := n.le_toInt
  have hone : (1 : Int64).toInt = 1 := rfl
  have hadd : (n + 1).toInt = n.toInt + (1 : Int64).toInt := toInt_add ⟨by omega, by omega⟩
  rw [hadd, hone]

theorem toInt_isum_add {s : Sums} {v : Value} (h : InInt64 (s.isum.toInt + addend v)) :
    (s.add v).isum.toInt = s.isum.toInt + addend v := by
  cases v with
  | double bits => exact (add_zero _).symm
  | _ => exact toInt_add h

theorem sumOps_safe_iff (vals : List Value) (s : Sums) :
    (∀ op ∈ sumOps s vals, op.Safe) ↔ SumsInRange s.isum.toInt s.n.toInt vals := by
  induction vals generalizing s with
  | nil =>
    refine iff_of_true nofun ⟨by simpa using s.n.toInt_lt, fun k _ => ?_⟩
    simpa using inInt64_toInt s.isum
  | cons v vals ih =>
    have hn : (s.add v).n = s.n + 1 := by cases v <;> rfl
    have hcount : (SignedOp.add s.n 1).Safe ↔ s.n.toInt + 1 < 2 ^ 63 := by
      have hlow := s.n.le_toInt
      have hexact : (SignedOp.add s.n 1).exact = s.n.toInt + 1 := rfl
      rw [SignedOp.Safe, hexact]
      exact ⟨fun h => h.1.2, fun h => ⟨⟨by omega, h⟩, id⟩⟩
    rw [sumOps, List.forall_mem_append, List.forall_mem_cons, addOps_safe_iff, hcount, ih,
      SumsInRange, SumsInRange, hn, List.length_cons]
    constructor
    · rintro ⟨hsum, hone, hlen, hsums⟩
      rw [toInt_isum_add hsum] at hsums
      rw [toInt_succ hone] at hlen
      refine ⟨by push_cast; omega, fun k hk => ?_⟩
      cases k with
      | zero => simpa using inInt64_toInt s.isum
      | succ k =>
        rw [List.take_succ_cons, List.map_cons, List.sum_cons, ← add_assoc]
        exact hsums k (by omega)
    · rintro ⟨hlen, hsums⟩
      have hsum : InInt64 (s.isum.toInt + addend v) := by
        simpa using hsums 1 (by omega)
      have hone : s.n.toInt + 1 < 2 ^ 63 := by
        push_cast at hlen
        omega
      refine ⟨hsum, hone, ?_, fun k hk => ?_⟩
      · rw [toInt_succ hone]
        push_cast at hlen
        omega
      · have hk' := hsums (k + 1) (by omega)
        rw [List.take_succ_cons, List.map_cons, List.sum_cons, ← add_assoc] at hk'
        rwa [toInt_isum_add hsum]

/-- The sums of an aggregate are in range all the way. -/
def AggregateInRange (fn : FunctionExpr) (rows : List Tuple) : Prop :=
  fn.name = "SUM" ∨ fn.name = "AVG" → SumsInRange 0 0 (aggregated fn rows)

theorem aggregateOps_safe_iff (fn : FunctionExpr) (rows : List Tuple) :
    (∀ op ∈ aggregateOps fn rows, op.Safe) ↔ AggregateInRange fn rows := by
  rw [aggregateOps, AggregateInRange]
  split
  · rename_i h
    rw [sumOps_safe_iff, forall_prop_of_true h]
    rfl
  · rename_i h
    exact iff_of_true nofun fun hname => absurd hname h

/-! ## HAVING -/

/-- The operations of `evalHavingValue`. -/
def havingValueOps : Expression → List Tuple → Tuple → List SignedOp
  | .aggregate name star distinct argument, rows, _ =>
    aggregateOps { name, star, distinct, argument } rows
  | .arithmetic op l r, rows, rep =>
    havingValueOps l rows rep ++ (havingValueOps r rows rep ++
      arithmeticOps op (Having.evalHavingValue l rows rep) (Having.evalHavingValue r rows rep))
  | e, _, rep => signedOps e rep

/-- The operations of `evalHavingBool`. -/
def havingOps : Expression → List Tuple → Tuple → List SignedOp
  | .logical _ l r, rows, rep => havingOps l rows rep ++ havingOps r rows rep
  | .not operand, rows, rep => havingOps operand rows rep
  | .binary _ l r, rows, rep => havingValueOps l rows rep ++ havingValueOps r rows rep
  | e, rows, rep => havingValueOps e rows rep

instance (sum count : Int) (vals : List Value) : Decidable (SumsInRange sum count vals) :=
  inferInstanceAs (Decidable (_ ∧ _))

instance (fn : FunctionExpr) (rows : List Tuple) : Decidable (AggregateInRange fn rows) :=
  inferInstanceAs (Decidable (_ → _))

/-- The value of an operand of the clause by exact integers. -/
def exactHavingValue : Expression → List Tuple → Tuple → Option Value
  | .aggregate name star distinct argument, rows, _ =>
    if AggregateInRange { name, star, distinct, argument } rows then
      some (computeAggregate { name, star, distinct, argument } rows)
    else none
  | .arithmetic op l r, rows, rep =>
    (exactHavingValue l rows rep).bind fun l => (exactHavingValue r rows rep).bind fun r =>
      exactArithmetic op l r
  | e, _, rep => evalExact e rep

/-- All operands of the clause have values by exact integers. -/
def HavingInRange : Expression → List Tuple → Tuple → Prop
  | .logical _ l r, rows, rep => HavingInRange l rows rep ∧ HavingInRange r rows rep
  | .not operand, rows, rep => HavingInRange operand rows rep
  | .binary _ l r, rows, rep =>
    (exactHavingValue l rows rep).isSome ∧ (exactHavingValue r rows rep).isSome
  | e, rows, rep => (exactHavingValue e rows rep).isSome

theorem exactHavingValue_eq (e : Expression) (rows : List Tuple) (rep : Tuple) :
    exactHavingValue e rows rep =
      guarded (havingValueOps e rows rep) (Having.evalHavingValue e rows rep) := by
  induction e, rows, rep using havingValueOps.induct with
  | case1 name star distinct argument rows rep =>
    rw [exactHavingValue, havingValueOps, Having.evalHavingValue, guarded]
    simp only [aggregateOps_safe_iff]
  | case2 op l r rows rep ihl ihr =>
    rw [exactHavingValue, havingValueOps, Having.evalHavingValue, ihl, ihr]
    exact guarded_bind (guarded_bind (exactArithmetic_eq op _ _))
  | case3 e rows rep haggregate harithmetic =>
    cases e with
    | aggregate name star distinct argument => exact absurd rfl (haggregate _ _ _ _)
    | arithmetic op l r => exact absurd rfl (harithmetic _ _ _)
    | _ => simp only [exactHavingValue, havingValueOps, Having.evalHavingValue, evalExact_eq]

theorem havingValueOps_safe_iff (e : Expression) (rows : List Tuple) (rep : Tuple) :
    (∀ op ∈ havingValueOps e rows rep, op.Safe) ↔ (exactHavingValue e rows rep).isSome := by
  rw [exactHavingValue_eq, isSome_guarded]

theorem havingOps_safe_iff (e : Expression) (rows : List Tuple) (rep : Tuple) :
    (∀ op ∈ havingOps e rows rep, op.Safe) ↔ HavingInRange e rows rep := by
  induction e, rows, rep using havingOps.induct with
  | case1 op l r rows rep ihl ihr =>
    rw [havingOps, HavingInRange, List.forall_mem_append, ihl, ihr]
  | case2 operand rows rep ih => rw [havingOps, HavingInRange, ih]
  | case3 op l r rows rep =>
    rw [havingOps, HavingInRange, List.forall_mem_append, havingValueOps_safe_iff,
      havingValueOps_safe_iff]
  | case4 e rows rep hlogical hnot hbinary =>
    cases e with
    | logical op l r => exact absurd rfl (hlogical _ _ _)
    | not operand => exact absurd rfl (hnot _)
    | binary op l r => exact absurd rfl (hbinary _ _ _)
    | _ =>
      simp only [havingOps, HavingInRange]
      exact havingValueOps_safe_iff _ rows rep

/-! ## Every evaluation -/

/-- What can be evaluated: an expression on a tuple, the constant parts of an expression that
is rewritten, a HAVING clause on a group, and an aggregate over rows. -/
inductive Evaluation
  | expression (e : Expression) (t : Tuple)
  | rewriting (e : Expression)
  | having (e : Expression) (rows : List Tuple) (rep : Tuple)
  | aggregate (fn : FunctionExpr) (rows : List Tuple)

namespace Evaluation

def ops : Evaluation → List SignedOp
  | expression e t => signedOps e t
  | rewriting e => (constants e).flatMap (signedOps · [])
  | having e rows rep => havingOps e rows rep
  | aggregate fn rows => aggregateOps fn rows

/-- With exact integers the evaluation stays in range. -/
def StaysInRange : Evaluation → Prop
  | expression e t => (evalExact e t).isSome
  | rewriting e => ∀ c ∈ constants e, (evalExact c []).isSome
  | having e rows rep => HavingInRange e rows rep
  | aggregate fn rows => AggregateInRange fn rows

/-- An evaluation leaves the range of an operation exactly if its exact integers leave the
64-bit integers, or the least of them is divided by minus one. -/
theorem ops_safe_iff (ev : Evaluation) : (∀ op ∈ ev.ops, op.Safe) ↔ ev.StaysInRange := by
  cases ev with
  | expression e t => exact safe_iff_evalExact e t
  | rewriting e =>
    rw [ops, StaysInRange, List.forall_mem_flatMap]
    exact forall₂_congr fun c _ => safe_iff_evalExact c []
  | having e rows rep => exact havingOps_safe_iff e rows rep
  | aggregate fn rows => exact aggregateOps_safe_iff fn rows

/-- `9223372036854775807 + 1` is folded by adding. -/
theorem not_safe_add : ¬∀ op ∈ (rewriting (.arithmetic .Add (.literal (.int Int64.maxValue))
    (.literal (.int 1)))).ops, op.Safe := by
  decide

end Evaluation

end Relite.Vm
