import Relite.Vm.GroupBy

/-!
# Outer and cross joins

The nested loops of a join of two inputs: whether a pair matches is decided by ON alone, the
flags of the right rows are shared by all left rows, and WHEN only holds back what is output.
The loops are written twice, in `joinTwo` and in the SELECT of two tables.
-/
namespace Relite.Vm.OuterJoin
open Lib Relite.Parser
open Semantic hiding Expression

inductive JoinKind
  | Inner
  | Left
  | Right
  | Full
  | Cross
  deriving DecidableEq

def JoinKind.keepLeft (kind : JoinKind) : Bool := kind = .Left ∨ kind = .Full

def JoinKind.keepRight (kind : JoinKind) : Bool := kind = .Right ∨ kind = .Full

/-- A predicate that may be left out. -/
def accepts (e? : Option Expression) (row : Tuple) : Bool :=
  e?.all fun e => predicateTrue (evalExpression e) row

/-! ## The loops -/

/-- What the loops have so far: the rows, and which right rows have matched. -/
structure Joined where
  rows : List Tuple
  rightMatched : List Bool

/-- Outputs a row unless `emit` holds it back. -/
def Joined.emit (emit : Tuple → Bool) (combined : Tuple) (s : Joined) : Joined :=
  if emit combined then { s with rows := s.rows ++ [combined] } else s

/-- One pass of the inner loop, with the flag `matched` of the left row. -/
def matchStep (on emit : Tuple → Bool) (l : Tuple) : Joined × Bool → Tuple × Nat → Joined × Bool
  | (s, matched), (r, ri) =>
    let combined := l ++ r
    if on combined then
      (Joined.emit emit combined { s with rightMatched := s.rightMatched.set ri true }, true)
    else (s, matched)

def matchRight (on emit : Tuple → Bool) (l : Tuple) (rightRows : List Tuple) (s : Joined) :
    Joined × Bool :=
  rightRows.zipIdx.foldl (matchStep on emit l) (s, false)

/-- One pass of the outer loop. -/
def leftStep (on emit : Tuple → Bool) (rightRows : List Tuple) (rightWidth : Nat)
    (kind : JoinKind) (s : Joined) (l : Tuple) : Joined :=
  let (s, matched) := matchRight on emit l rightRows s
  if !matched && kind.keepLeft then s.emit emit (l ++ List.replicate rightWidth .null) else s

/-- One pass of the loop over the right rows that have not matched. -/
def rightStep (emit : Tuple → Bool) (leftWidth : Nat) (s : Joined) : Tuple × Nat → Joined
  | (r, ri) =>
    if s.rightMatched.getD ri false then s
    else s.emit emit (List.replicate leftWidth .null ++ r)

def joinLoops (on emit : Tuple → Bool) (leftRows : List Tuple) (leftWidth : Nat)
    (rightRows : List Tuple) (rightWidth : Nat) (kind : JoinKind) : List Tuple :=
  let s := leftRows.foldl (leftStep on emit rightRows rightWidth kind)
    ⟨[], List.replicate rightRows.length false⟩
  if kind.keepRight then (rightRows.zipIdx.foldl (rightStep emit leftWidth) s).rows else s.rows

/-- The loops of a cross join. -/
def crossLoops (emit : Tuple → Bool) (leftRows rightRows : List Tuple) : List Tuple :=
  leftRows.flatMap fun l => (rightRows.map (l ++ ·)).filter emit

/-- The key columns of an inner join on a comparison of one column from each side. -/
def innerKeys (kind : JoinKind) (leftWidth : Nat) (on? : Option Expression) : Option (Nat × Nat) :=
  if kind = .Inner then on?.bind (equiKeys leftWidth) else none

def joinTwo (leftRows : List Tuple) (leftWidth : Nat) (rightRows : List Tuple) (rightWidth : Nat)
    (kind : JoinKind) (on? : Option Expression) : List Tuple :=
  if kind = .Cross then crossLoops (fun _ => true) leftRows rightRows
  else
    match innerKeys kind leftWidth on? with
    | some (leftKey, rightKey) => hashJoin leftRows leftKey rightRows rightKey
    | none => joinLoops (accepts on?) (fun _ => true) leftRows leftWidth rightRows rightWidth kind

/-- The join of two tables in the SELECT itself. -/
def selectJoin (heap : MergeHeap) (leftRows : List Tuple) (leftWidth : Nat)
    (rightRows : List Tuple) (rightWidth : Nat) (kind : JoinKind) (on? when? : Option Expression) :
    List Tuple :=
  if kind = .Cross then crossLoops (accepts when?) leftRows rightRows
  else
    match innerKeys kind leftWidth on? with
    | some (leftKey, rightKey) =>
      let rows :=
        match chooseEquiJoin leftRows.length rightRows.length with
        | .Merge => mergeJoinInner heap leftRows leftKey rightRows rightKey
        | _ => hashJoin leftRows leftKey rightRows rightKey
      rows.filter (accepts when?)
    | none =>
      joinLoops (accepts on?) (accepts when?) leftRows leftWidth rightRows rightWidth kind

/-! ## What the loops yield -/

section Loops

variable {on emit : Tuple → Bool} {l : Tuple} {leftRows rightRows : List Tuple}

theorem emit_eq (combined : Tuple) (s : Joined) :
    s.emit emit combined = ⟨s.rows ++ [combined].filter emit, s.rightMatched⟩ := by
  rw [Joined.emit, List.filter_singleton]
  cases emit combined
  · exact congrArg (Joined.mk · s.rightMatched) (List.append_nil _).symm
  · rfl

/-- The pairs of a left row, in the order of the right rows. -/
def pairsOf (on : Tuple → Bool) (rightRows : List Tuple) (l : Tuple) : List Tuple :=
  (rightRows.map (l ++ ·)).filter on

-- the flags are those of the rows before and of the rows that are left
theorem foldl_matchStep (rs rows : List Tuple) (before : List Bool) (flag : Tuple → Bool)
    (matched : Bool) :
    (rs.zipIdx before.length).foldl (matchStep on emit l)
        (⟨rows, before ++ rs.map flag⟩, matched) =
      (⟨rows ++ (pairsOf on rs l).filter emit, before ++ rs.map fun r => flag r || on (l ++ r)⟩,
        matched || rs.any fun r => on (l ++ r)) := by
  induction rs generalizing rows before matched with
  | nil => simp [pairsOf]
  | cons r rs ih =>
    have hnext := fun (rows : List Tuple) (f matched : Bool) => ih rows (before ++ [f]) matched
    simp only [List.length_append, List.length_singleton, List.append_assoc,
      List.singleton_append] at hnext
    rw [List.zipIdx_cons, List.foldl_cons, matchStep, List.map_cons]
    by_cases hon : on (l ++ r)
    · have hset : (before ++ flag r :: rs.map flag).set before.length true =
          before ++ true :: rs.map flag := by simp
      simp only [hon, if_true, hset, emit_eq]
      rw [hnext]
      simp only [pairsOf, List.map_cons, List.filter_cons_of_pos hon, List.append_assoc,
        ← List.filter_append, List.singleton_append, List.any_cons, hon, Bool.or_true,
        Bool.true_or]
    · rw [Bool.not_eq_true] at hon
      simp only [hon, Bool.false_eq_true, if_false]
      rw [hnext]
      simp [pairsOf, hon]

theorem matchRight_eq (rows : List Tuple) (flag : Tuple → Bool) :
    matchRight on emit l rightRows ⟨rows, rightRows.map flag⟩ =
      (⟨rows ++ (pairsOf on rightRows l).filter emit,
        rightRows.map fun r => flag r || on (l ++ r)⟩, rightRows.any fun r => on (l ++ r)) :=
  foldl_matchStep rightRows rows [] flag false

/-- What one left row contributes. -/
def leftRowsOf (on : Tuple → Bool) (rightRows : List Tuple) (rightWidth : Nat) (kind : JoinKind)
    (l : Tuple) : List Tuple :=
  pairsOf on rightRows l ++
    if !(rightRows.any fun r => on (l ++ r)) && kind.keepLeft then
      [l ++ List.replicate rightWidth .null]
    else []

theorem foldl_leftStep (rightWidth : Nat) (kind : JoinKind) (rows : List Tuple)
    (flag : Tuple → Bool) :
    leftRows.foldl (leftStep on emit rightRows rightWidth kind) ⟨rows, rightRows.map flag⟩ =
      ⟨rows ++ (leftRows.flatMap (leftRowsOf on rightRows rightWidth kind)).filter emit,
        rightRows.map fun r => flag r || leftRows.any fun l => on (l ++ r)⟩ := by
  induction leftRows generalizing rows flag with
  | nil => simp
  | cons l leftRows ih =>
    have hstep : leftStep on emit rightRows rightWidth kind ⟨rows, rightRows.map flag⟩ l =
        ⟨rows ++ (leftRowsOf on rightRows rightWidth kind l).filter emit,
          rightRows.map fun r => flag r || on (l ++ r)⟩ := by
      rw [leftStep, matchRight_eq]
      dsimp only
      rw [leftRowsOf]
      split
      · rw [emit_eq, List.filter_append, List.append_assoc]
      · rw [List.append_nil]
    rw [List.foldl_cons, hstep, ih]
    simp only [List.flatMap_cons, List.filter_append, List.append_assoc, List.any_cons,
      Bool.or_assoc]

theorem foldl_rightStep (leftWidth : Nat) (flag : Tuple → Bool) (rs rows : List Tuple)
    (before : List Bool) :
    ((rs.zipIdx before.length).foldl (rightStep emit leftWidth)
        ⟨rows, before ++ rs.map flag⟩).rows =
      rows ++ ((rs.filter fun r => !flag r).map (List.replicate leftWidth .null ++ ·)).filter
        emit := by
  induction rs generalizing rows before with
  | nil => simp
  | cons r rs ih =>
    have hnext := fun rows => ih rows (before ++ [flag r])
    simp only [List.length_append, List.length_singleton, List.append_assoc,
      List.singleton_append] at hnext
    have hget : (before ++ flag r :: rs.map flag).getD before.length false = flag r := by simp
    rw [List.zipIdx_cons, List.foldl_cons, List.map_cons, rightStep]
    simp only [hget, emit_eq]
    split
    · rename_i hflag
      rw [hnext, List.filter_cons_of_neg (p := fun r => !flag r) (by simp [hflag])]
    · rename_i hflag
      rw [hnext, List.filter_cons_of_pos (p := fun r => !flag r) (by simp [hflag]), List.map_cons,
        List.append_assoc, ← List.filter_append, List.singleton_append]

/-- The rows of the loops before `emit`: each left row with its matches or padded, and the right
rows that no left row matches, padded. -/
theorem joinLoops_eq (leftWidth rightWidth : Nat) (kind : JoinKind) :
    joinLoops on emit leftRows leftWidth rightRows rightWidth kind =
      (leftRows.flatMap (leftRowsOf on rightRows rightWidth kind) ++
        if kind.keepRight then
          (rightRows.filter fun r => !leftRows.any fun l => on (l ++ r)).map
            (List.replicate leftWidth .null ++ ·)
        else []).filter emit := by
  have hstart : List.replicate rightRows.length false = rightRows.map fun _ => false := by simp
  rw [joinLoops, hstart, foldl_leftStep]
  simp only [Bool.false_or, List.nil_append]
  split
  · have hright := @foldl_rightStep emit leftWidth
      (fun r => leftRows.any fun l => on (l ++ r)) rightRows
      ((leftRows.flatMap (leftRowsOf on rightRows rightWidth kind)).filter emit) []
    rw [List.filter_append]
    exact hright
  · rw [List.append_nil]

end Loops

/-! ## What the joins are for -/

/-- Whether a pair matches: a cross join has no ON. -/
def matchesOn (kind : JoinKind) (on? : Option Expression) (row : Tuple) : Bool :=
  kind = .Cross ∨ accepts on? row

/-- The pairs that match, the left rows without a match, padded, as far as the kind keeps them,
and the right rows likewise. -/
def outerJoin (on : Tuple → Bool) (leftRows : List Tuple) (leftWidth : Nat)
    (rightRows : List Tuple) (rightWidth : Nat) (kind : JoinKind) : List Tuple :=
  (nestedLoop (fun l r => on (l ++ r)) leftRows rightRows).map (fun p => p.1 ++ p.2) ++
    (if kind.keepLeft then
      (leftRows.filter fun l => ∀ r ∈ rightRows, on (l ++ r) = false).map
        (· ++ List.replicate rightWidth .null)
    else []) ++
    if kind.keepRight then
      (rightRows.filter fun r => ∀ l ∈ leftRows, on (l ++ r) = false).map
        (List.replicate leftWidth .null ++ ·)
    else []

section Exact

variable {on emit : Tuple → Bool} {leftRows rightRows : List Tuple} {leftWidth rightWidth : Nat}
  {kind : JoinKind}

theorem flatMap_pairsOf :
    leftRows.flatMap (pairsOf on rightRows) =
      (nestedLoop (fun l r => on (l ++ r)) leftRows rightRows).map fun p => p.1 ++ p.2 := by
  rw [nestedLoop, List.map_flatMap]
  refine List.flatMap_congr fun l _ => ?_
  rw [pairsOf, List.filter_map, List.map_map]
  rfl

theorem flatMap_padded :
    (leftRows.flatMap fun l =>
        if !(rightRows.any fun r => on (l ++ r)) && kind.keepLeft then
          [l ++ List.replicate rightWidth .null]
        else []) =
      if kind.keepLeft then
        (leftRows.filter fun l => ∀ r ∈ rightRows, on (l ++ r) = false).map
          (· ++ List.replicate rightWidth .null)
      else [] := by
  cases kind.keepLeft with
  | false => simp
  | true =>
    rw [if_pos rfl]
    induction leftRows with
    | nil => rfl
    | cons l leftRows ih =>
      have hany : (!(rightRows.any fun r => on (l ++ r)) && true) =
          decide (∀ r ∈ rightRows, on (l ++ r) = false) := by
        rw [Bool.and_true, Bool.eq_iff_iff]
        simp
      rw [List.flatMap_cons, ih, List.filter_cons, hany]
      split <;> rfl

theorem joinLoops_perm :
    (joinLoops on (fun _ => true) leftRows leftWidth rightRows rightWidth kind).Perm
      (outerJoin on leftRows leftWidth rightRows rightWidth kind) := by
  have hright : (rightRows.filter fun r => !leftRows.any fun l => on (l ++ r)) =
      rightRows.filter fun r => ∀ l ∈ leftRows, on (l ++ r) = false := by
    refine List.filter_congr fun r _ => ?_
    rw [Bool.eq_iff_iff]
    simp
  rw [joinLoops_eq, List.filter_true, outerJoin, hright, ← flatMap_pairsOf, ← flatMap_padded]
  exact (List.flatMap_append_perm leftRows _ _).symm.append_right _

theorem joinLoops_filter :
    joinLoops on emit leftRows leftWidth rightRows rightWidth kind =
      (joinLoops on (fun _ => true) leftRows leftWidth rightRows rightWidth kind).filter emit := by
  rw [joinLoops_eq, joinLoops_eq, List.filter_true]

theorem crossLoops_eq :
    crossLoops emit leftRows rightRows =
      (crossLoops (fun _ => true) leftRows rightRows).filter emit := by
  simp only [crossLoops, List.filter_flatMap, List.filter_true]

theorem crossLoops_eq_outerJoin (on? : Option Expression) :
    crossLoops (fun _ => true) leftRows rightRows =
      outerJoin (matchesOn .Cross on?) leftRows leftWidth rightRows rightWidth .Cross := by
  have hon : matchesOn .Cross on? = fun _ => true := by
    funext row
    simp [matchesOn]
  have hpairs := @flatMap_pairsOf (fun _ => true) leftRows rightRows
  rw [outerJoin, hon]
  simp only [JoinKind.keepLeft, JoinKind.keepRight, reduceCtorEq, or_self, decide_false,
    Bool.false_eq_true, if_false, List.append_nil]
  exact hpairs

end Exact

/-- For an inner join the loops are those over the pairs alone. -/
theorem joinLoops_inner (left : List Tuple) (leftWidth : Nat) (right : List Tuple)
    (rightWidth : Nat) (on : Expression) :
    joinLoops (accepts (some on)) (fun _ => true) left leftWidth right rightWidth .Inner =
      nestedJoin left right on := by
  have hone : leftRowsOf (accepts (some on)) right rightWidth .Inner =
      pairsOf (accepts (some on)) right := by
    funext l
    simp [leftRowsOf, JoinKind.keepLeft]
  rw [joinLoops_eq, List.filter_true, hone, if_neg (by decide), List.append_nil]
  exact flatMap_pairsOf

theorem joinTwo_inner (left : List Tuple) (leftWidth : Nat) (right : List Tuple)
    (rightWidth : Nat) (on : Expression) :
    joinTwo left leftWidth right rightWidth .Inner (some on) =
      Vm.joinTwo left leftWidth right on := by
  have hkeys : innerKeys .Inner leftWidth (some on) = equiKeys leftWidth on := rfl
  rw [joinTwo, if_neg (by decide), hkeys, Vm.joinTwo]
  cases equiKeys leftWidth on with
  | none => exact joinLoops_inner left leftWidth right rightWidth on
  | some keys => rfl

theorem selectJoin_inner (heap : MergeHeap) (left : List Tuple) (leftWidth : Nat)
    (right : List Tuple) (rightWidth : Nat) (on : Expression) (when? : Option Expression) :
    selectJoin heap left leftWidth right rightWidth .Inner (some on) when? =
      innerJoin heap left leftWidth right on when? := by
  have hkeys : innerKeys .Inner leftWidth (some on) = equiKeys leftWidth on := rfl
  rw [selectJoin, if_neg (by decide), hkeys, innerJoin]
  cases equiKeys leftWidth on with
  | none =>
    exact joinLoops_filter.trans
      (congrArg _ (joinLoops_inner left leftWidth right rightWidth on))
  | some keys => rfl

end Relite.Vm.OuterJoin
