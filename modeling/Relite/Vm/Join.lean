import Relite.Vm.ExpressionEval
import Relite.Vm.Optimizer
import Relite.Vm.RowIdentity
import Relite.Vm.ValueOrder

/-!
# Joining two inputs

An inner join on a comparison of one column from each side takes a hash table, or the merge
join once both sides are large; every other inner join takes nested loops over the ON
predicate. The three have their own notions of equal keys.
-/
namespace Relite.Vm
open Lib Relite.Parser
open Semantic hiding Expression

/-- The key columns of the two sides, if the predicate compares one of each. -/
def equiKeys (leftWidth : Nat) (on : Expression) : Option (Nat × Nat) :=
  match on with
  | .binary .Eq (.column a) (.column b) =>
    let ai := a.columnIndex
    let bi := b.columnIndex
    let (leftKey, rightKey) : Int × Int :=
      if ai < leftWidth ∧ leftWidth ≤ bi then (ai, bi - leftWidth)
      else if bi < leftWidth ∧ leftWidth ≤ ai then (bi, ai - leftWidth)
      else (-1, -1)
    if 0 ≤ leftKey ∧ 0 ≤ rightKey then some (leftKey.toNat, rightKey.toNat) else none
  | _ => none

/-- The hash table of the rows whose key is not null, by `keyOf`, which is `valKey`. -/
def buildTable (key : Nat) (rows : List Tuple) : List (Bytes × List Tuple) :=
  groupsBy (fun row => valKey (row.getD key .null))
    (rows.filter fun row => !(row.getD key .null).isNull)

def hashJoin (left : List Tuple) (leftKey : Nat) (right : List Tuple) (rightKey : Nat) :
    List Tuple :=
  let ht := buildTable rightKey right
  left.flatMap fun l =>
    let kv := l.getD leftKey .null
    if kv.isNull then []
    else
      match ht.lookup (valKey kv) with
      | none => []
      | some rows => rows.map fun r => l ++ r

def nestedJoin (left right : List Tuple) (on : Expression) : List Tuple :=
  let pairs := nestedLoop (fun l r => predicateTrue (evalExpression on) (l ++ r)) left right
  pairs.map fun p => p.1 ++ p.2

/-- The rows of an inner join that the WHEN predicate accepts. -/
def innerJoin (heap : MergeHeap) (left : List Tuple) (leftWidth : Nat) (right : List Tuple)
    (on : Expression) (when? : Option Expression) : List Tuple :=
  let rows :=
    match equiKeys leftWidth on with
    | none => nestedJoin left right on
    | some (leftKey, rightKey) =>
      match chooseEquiJoin left.length right.length with
      | .Merge => mergeJoinInner heap left leftKey right rightKey
      | _ => hashJoin left leftKey right rightKey
  rows.filter fun row => when?.all fun e => predicateTrue (evalExpression e) row

/-! ## When two keys join -/

def hashAccepts (a b : Value) : Bool := !a.isNull && !b.isNull && valKey a == valKey b

theorem lookup_groupsBy {α κ : Type} [DecidableEq κ] [BEq κ] [LawfulBEq κ] (key : α → κ)
    (l : List α) (k : κ) :
    ((groupsBy key l).lookup k).getD [] = l.filter fun x => key x = k := by
  obtain ⟨-, hmem⟩ := groupsBy_spec key l
  cases hlook : (groupsBy key l).lookup k with
  | none =>
    refine (List.filter_eq_nil_iff.mpr fun x hx hk => ?_).symm
    have hgroup := (hmem (key x) _).mpr ⟨List.mem_map_of_mem hx, rfl⟩
    rw [of_decide_eq_true hk] at hgroup
    exact absurd (List.lookup_eq_none_iff.mp hlook _ hgroup) (by simp)
  | some xs =>
    obtain ⟨front, rest, heq, -⟩ := List.lookup_eq_some_iff.mp hlook
    have hgroup : (k, xs) ∈ groupsBy key l := by
      rw [heq]
      exact List.mem_append_right _ List.mem_cons_self
    exact ((hmem k xs).mp hgroup).2

theorem hashJoin_eq (left right : List Tuple) (leftKey rightKey : Nat) :
    hashJoin left leftKey right rightKey =
      (nestedLoop (fun l r => hashAccepts (l.getD leftKey .null) (r.getD rightKey .null)) left
        right).map fun p => p.1 ++ p.2 := by
  unfold hashJoin nestedLoop
  rw [List.map_flatMap]
  refine List.flatMap_congr fun l _ => ?_
  dsimp only
  generalize l.getD leftKey .null = kv
  split
  · rename_i hnull
    simp only [hashAccepts, hnull, Bool.not_true, Bool.false_and]
    simp
  · rename_i hnull
    have hlook := lookup_groupsBy (fun row : Tuple => valKey (row.getD rightKey .null))
      (right.filter fun row => !(row.getD rightKey .null).isNull) (valKey kv)
    have hmatch : ∀ o : Option (List Tuple), (match o with
        | none => []
        | some rows => rows.map fun r => l ++ r) = (o.getD []).map fun r => l ++ r := fun o => by
      cases o <;> rfl
    rw [hmatch, buildTable, hlook, List.filter_filter, List.map_map]
    refine congrArg (List.map _) (List.filter_congr fun r _ => ?_)
    generalize r.getD rightKey .null = v
    simp [hashAccepts, hnull, Bool.and_comm, eq_comm, beq_eq_decide]

/-- The merge join and the comparison have one notion of equal keys. -/
theorem joins_eq_valuesEqual (a b : Value) :
    joins valueLess Value.isNull a b = valuesEqual a b := by
  cases a <;> cases b
  case int.int m n =>
    by_cases hlt : m < n <;> by_cases hgt : n < m <;>
      simp [joins, same, valueLess, valuesEqual, compareValues, Value.isNull, Value.isNumeric, hlt,
        hgt]
  case int.double m n =>
    by_cases hlt : ofInt64 m < Float.ofBits n <;> by_cases hgt : Float.ofBits n < ofInt64 m <;>
      simp [joins, same, valueLess, valuesEqual, compareValues, Value.isNull, Value.isNumeric,
        Value.asDouble, Value.intValue, hlt, hgt]
  case double.int m n =>
    by_cases hlt : Float.ofBits m < ofInt64 n <;> by_cases hgt : ofInt64 n < Float.ofBits m <;>
      simp [joins, same, valueLess, valuesEqual, compareValues, Value.isNull, Value.isNumeric,
        Value.asDouble, Value.intValue, hlt, hgt]
  case double.double m n =>
    by_cases hlt : Float.ofBits m < Float.ofBits n <;>
      by_cases hgt : Float.ofBits n < Float.ofBits m <;>
      simp [joins, same, valueLess, valuesEqual, compareValues, Value.isNull, Value.isNumeric,
        Value.asDouble, hlt, hgt]
  case bool.bool m n => cases m <;> cases n <;> rfl
  case text.text m n =>
    by_cases hlt : m < n <;> by_cases hgt : n < m <;>
      simp [joins, same, valueLess, valuesEqual, compareValues, Value.isNull, Value.isNumeric,
        Value.typeCode, hlt, hgt]
  all_goals rfl

theorem valuesEqual_comm (a b : Value) : valuesEqual a b = valuesEqual b a := by
  rw [← joins_eq_valuesEqual, ← joins_eq_valuesEqual, joins, joins, same, same,
    Bool.and_comm (!a.isNull), Bool.and_comm (!valueLess a b)]

/-! ## Doubles that are no number -/

theorem ofNumbers_ne_a : OfNumbers (· ≠ 'a') :=
  ⟨fun c hdigit hc => absurd (hc ▸ hdigit) (by decide), forall_of_all (by decide)⟩

/-- Only what is not a number prints with an `a`. -/
theorem mem_formatDouble_iff (bits : UInt64) :
    'a' ∈ (formatDouble bits).toList ↔ NotANumber bits := by
  have hsign : ∀ c ∈ (if bits.toNat < 2 ^ 63 then "" else "-").toList, c ≠ 'a' := by
    split <;> exact forall_of_all (by decide)
  unfold formatDouble NotANumber
  simp only
  generalize (if bits.toNat < 2 ^ 63 then "" else "-") = sign at hsign ⊢
  split
  · rename_i hexp
    rw [String.toList_append, List.mem_append]
    split
    · rename_i hmant
      refine iff_of_false (fun h => ?_) fun h => h.2 hmant
      exact h.elim (fun h => hsign _ h rfl) (by decide)
    · rename_i hmant
      exact iff_of_true (.inr (by decide)) ⟨hexp, hmant⟩
  · rename_i hexp
    refine iff_of_false (fun h => ?_) fun h => hexp h.1
    split at h
    · refine forall_append (forall_append ?_ (ofNumbers_ne_a.nat _)) (forall_of_all (by decide)) _ h
        rfl
      split
      · exact forall_of_all (by decide)
      · exact hsign
    · exact forall_append hsign (ofNumbers_ne_a.streamDigits _ _) _ h rfl

theorem notANumber_of_formatDouble {a b : UInt64} (h : formatDouble a = formatDouble b) :
    NotANumber a ↔ NotANumber b := by
  rw [← mem_formatDouble_iff, ← mem_formatDouble_iff, h]

/-- What is not a number equals every double. -/
theorem valuesEqual_notANumber {a b : UInt64} (h : NotANumber a ∨ NotANumber b) :
    valuesEqual (.double a) (.double b) := by
  rw [← joins_eq_valuesEqual]
  simp [joins, same, Value.isNull, valueLess_double, not_ofBits_lt h, not_ofBits_lt h.symm]

theorem hasType_float {v : Value} (h : Tuple.HasType .Float v) (hv : v ≠ .null) :
    ∃ bits, v = .double bits := by
  cases v <;> first | exact absurd rfl hv | exact ⟨_, rfl⟩ | cases h

def bitsOf : Value → UInt64
  | .double bits => bits
  | _ => 0

/-- FLOAT keys are in order if all of them are numbers, and if none is. -/
theorem ordered_floats {keys : List Value} (htype : ∀ k ∈ keys, Tuple.HasType .Float k)
    (h : (∀ bits, .double bits ∈ keys → ¬NotANumber bits) ∨
      ∀ bits, .double bits ∈ keys → NotANumber bits) : Tree.Ordered keys := by
  rcases h with hnum | hnot
  · refine Tree.ordered_of_rank (· < ·) (fun v => rank (Float.ofBits (bitsOf v))) (fun a b => lt_asymm)
      (fun a b c hac => ?_) fun a ha b hb hna hnb => ?_
    · exact (lt_or_ge a b).imp_right fun hba => lt_of_le_of_lt hba hac
    · obtain ⟨m, rfl⟩ := hasType_float (htype a ha) hna
      obtain ⟨n, rfl⟩ := hasType_float (htype b hb) hnb
      rw [valueLess_double, decide_eq_true_iff]
      exact ofBits_lt_iff (hnum m ha) (hnum n hb)
  · refine Tree.ordered_of_rank (fun _ _ => False) id (fun _ _ h => h.elim)
      (fun _ _ _ => False.elim) fun a ha b hb hna hnb => ?_
    obtain ⟨m, rfl⟩ := hasType_float (htype a ha) hna
    obtain ⟨n, rfl⟩ := hasType_float (htype b hb) hnb
    rw [valueLess_double, decide_eq_true_iff]
    exact iff_of_false (not_ofBits_lt (.inl (hnot m ha))) id

/-! ## When the keys agree -/

/-- The hash table takes two keys for equal exactly if the comparison does. -/
def KeysAgree : Value → Value → Prop
  | .double a, .double b => formatDouble a = formatDouble b ↔ valuesEqual (.double a) (.double b)
  | .int a, .double b => valuesEqual (.int a) (.double b) = false
  | .double a, .int b => valuesEqual (.double a) (.int b) = false
  | _, _ => True

theorem hashAccepts_iff (a b : Value) :
    hashAccepts a b ↔ a ≠ .null ∧ b ≠ .null ∧ Alike a b := by
  simp [hashAccepts, valKey_eq_iff, Value.isNull, and_assoc]

theorem valuesEqual_self {v : Value} (hnull : v ≠ .null) (hdouble : ∀ bits, v ≠ .double bits) :
    valuesEqual v v := by
  rw [← joins_eq_valuesEqual]
  cases v with
  | null => exact absurd rfl hnull
  | double bits => exact absurd rfl (hdouble bits)
  | int n => simp [joins, same, Value.isNull, Tree.valueLess_int]
  | bool b => cases b <;> rfl
  | text s => simp [joins, same, Value.isNull, Tree.valueLess_text]

/-- On keys of one type other than FLOAT all three notions are equality. -/
theorem valuesEqual_iff_eq {d : DataType} (hd : d ≠ .Float) {a b : Value}
    (ha : Tuple.HasType d a) (hb : Tuple.HasType d b) (hnull : a ≠ .null) :
    valuesEqual a b ↔ a = b := by
  constructor
  · intro h
    exact (Tree.less_of_compareValues hd ha hb (by simpa [valuesEqual] using h)).2.2 rfl
  · rintro rfl
    refine valuesEqual_self hnull fun bits hbits => ?_
    subst hbits
    cases d <;> first | exact absurd rfl hd | exact ha

theorem keysAgree_iff (a b : Value) : KeysAgree a b ↔ hashAccepts a b = valuesEqual a b := by
  rw [Bool.eq_iff_iff, hashAccepts_iff]
  have hequal : ∀ {d : DataType}, d ≠ .Float → Tuple.HasType d a → Tuple.HasType d b →
      a ≠ .null → b ≠ .null → (∀ bits, a ≠ .double bits) →
      (a ≠ .null ∧ b ≠ .null ∧ Alike a b ↔ valuesEqual a b) := by
    intro d hd ha hb hna hnb hdouble
    rw [valuesEqual_iff_eq hd ha hb hna]
    refine ⟨?_, fun h => ⟨hna, hnb, .inl h⟩⟩
    rintro ⟨-, -, h | ⟨bits, -, h, -⟩⟩
    · exact h
    · exact absurd h (hdouble bits)
  cases a <;> cases b
  case int.int m n =>
    exact iff_of_true trivial (hequal (d := .Int) nofun trivial trivial nofun nofun nofun)
  case bool.bool m n =>
    exact iff_of_true trivial (hequal (d := .Bool) nofun trivial trivial nofun nofun nofun)
  case text.text m n =>
    exact iff_of_true trivial (hequal (d := .Text) nofun trivial trivial nofun nofun nofun)
  case double.double m n =>
    have halike : Alike (.double m) (.double n) ↔ formatDouble m = formatDouble n := by
      constructor
      · rintro (h | ⟨_, _, ⟨⟩, ⟨⟩, h⟩)
        · rw [Value.double.inj h]
        · exact h
      · exact fun h => .inr ⟨m, n, rfl, rfl, h⟩
    simp [KeysAgree, halike]
  case int.double | double.int => simp [KeysAgree, Alike]
  all_goals simp [KeysAgree, Alike, valuesEqual, compareValues, Value.isNull, Value.isNumeric]

section Keys

variable {dl dr : DataType} {lkeys rkeys : List Value}

/-- If one key is not a number then no key that it is compared with is, nor any other. -/
theorem notANumber_of_keysAgree (hagree : ∀ a ∈ lkeys, ∀ b ∈ rkeys, KeysAgree a b)
    {m n : UInt64} (hm : .double m ∈ lkeys) (hn : .double n ∈ rkeys)
    {bits : UInt64} (hbits : .double bits ∈ lkeys ++ rkeys) (hnot : NotANumber bits) :
    ∀ bits', .double bits' ∈ lkeys ++ rkeys → NotANumber bits' := by
  have hstep : ∀ {a b : UInt64}, .double a ∈ lkeys → .double b ∈ rkeys →
      NotANumber a ∨ NotANumber b → NotANumber a ∧ NotANumber b := by
    intro a b ha hb hab
    have hformat := (hagree _ ha _ hb).mpr (valuesEqual_notANumber hab)
    have hiff := notANumber_of_formatDouble hformat
    exact hab.elim (fun h => ⟨h, hiff.mp h⟩) fun h => ⟨hiff.mpr h, h⟩
  have hboth : NotANumber m ∧ NotANumber n := by
    rcases List.mem_append.mp hbits with hbits | hbits
    · exact hstep hm hn (.inr (hstep hbits hn (.inl hnot)).2)
    · exact hstep hm hn (.inl (hstep hm hbits (.inr hnot)).1)
  intro bits' h'
  rcases List.mem_append.mp h' with h' | h'
  · exact (hstep h' hn (.inr hboth.2)).1
  · exact (hstep hm h' (.inl hboth.1)).2

/-- Where the keys agree and two of them are equal, the keys of both sides are in order. -/
theorem ordered_of_keysAgree (hl : ∀ k ∈ lkeys, Tuple.HasType dl k)
    (hr : ∀ k ∈ rkeys, Tuple.HasType dr k) (hagree : ∀ a ∈ lkeys, ∀ b ∈ rkeys, KeysAgree a b)
    {a b : Value} (ha : a ∈ lkeys) (hb : b ∈ rkeys) (heq : valuesEqual a b) :
    Tree.Ordered (lkeys ++ rkeys) := by
  have hall : ∀ {d : DataType}, (∀ k, Tuple.HasType dl k → Tuple.HasType d k) →
      (∀ k, Tuple.HasType dr k → Tuple.HasType d k) →
      ∀ k ∈ lkeys ++ rkeys, Tuple.HasType d k := fun hdl hdr k hk =>
    (List.mem_append.mp hk).elim (fun hk => hdl k (hl k hk)) fun hk => hdr k (hr k hk)
  have hta := hl a ha
  have htb := hr b hb
  have hab := hagree a ha b hb
  cases a <;> cases b
  case int.int m n =>
    obtain rfl : dl = .Int := by cases dl <;> first | rfl | exact hta.elim
    obtain rfl : dr = .Int := by cases dr <;> first | rfl | exact htb.elim
    exact Tree.ordered_ints (hall (fun _ h => h) fun _ h => h)
  case bool.bool m n =>
    obtain rfl : dl = .Bool := by cases dl <;> first | rfl | exact hta.elim
    obtain rfl : dr = .Bool := by cases dr <;> first | rfl | exact htb.elim
    exact Tree.ordered_bools (hall (fun _ h => h) fun _ h => h)
  case text.text m n =>
    exact Tree.ordered_texts (hall (fun _ h => Tree.hasType_text_of hta h)
      fun _ h => Tree.hasType_text_of htb h)
  case double.double m n =>
    obtain rfl : dl = .Float := by cases dl <;> first | rfl | exact hta.elim
    obtain rfl : dr = .Float := by cases dr <;> first | rfl | exact htb.elim
    refine ordered_floats (hall (fun _ h => h) fun _ h => h) ?_
    by_cases hnone : ∀ bits, .double bits ∈ lkeys ++ rkeys → ¬NotANumber bits
    · exact .inl hnone
    · push Not at hnone
      obtain ⟨bits, hbits, hnot⟩ := hnone
      exact .inr (notANumber_of_keysAgree hagree ha hb hbits hnot)
  case int.double m n => exact absurd heq (by simp [show valuesEqual _ _ = false from hab])
  case double.int m n => exact absurd heq (by simp [show valuesEqual _ _ = false from hab])
  all_goals
    exact absurd heq (by simp [valuesEqual, compareValues, Value.isNull, Value.isNumeric])

end Keys

/-! ## The three joins -/

/-- The two inputs of an inner join on a column of each side: rows of the widths of the two
tables, with keys of the types of the two columns. -/
structure EquiInput (leftWidth rightWidth : Nat) (dl dr : DataType) (a b : ColumnRef)
    (leftKey rightKey : Nat) (left right : List Tuple) : Prop where
  keys : equiKeys leftWidth (.binary .Eq (.column a) (.column b)) = some (leftKey, rightKey)
  own : a.outerRef = false ∧ b.outerRef = false
  left : ∀ l ∈ left, l.length = leftWidth ∧ Tuple.HasType dl (l.getD leftKey .null) ∧ Spillable l
  right : ∀ r ∈ right, r.length = rightWidth ∧ Tuple.HasType dr (r.getD rightKey .null) ∧
    Spillable r

theorem equiKeys_eq_some {leftWidth leftKey rightKey : Nat} {a b : ColumnRef}
    (h : equiKeys leftWidth (.binary .Eq (.column a) (.column b)) = some (leftKey, rightKey)) :
    leftKey < leftWidth ∧
      (a.columnIndex = leftKey ∧ b.columnIndex = (leftWidth + rightKey : Nat) ∨
        b.columnIndex = leftKey ∧ a.columnIndex = (leftWidth + rightKey : Nat)) := by
  simp only [equiKeys] at h
  split at h <;> [skip; split at h] <;> split at h <;> simp at h <;> omega

theorem predicateTrue_eq (a b : ColumnRef) (row : Tuple) :
    predicateTrue (evalExpression (.binary .Eq (.column a) (.column b))) row =
      valuesEqual (evalColumn a row) (evalColumn b row) := by
  rw [predicateTrue, evalExpression, evalExpression, evalExpression, evalBinary, valuesEqual]
  cases compareValues (evalColumn a row) (evalColumn b row) with
  | none => rfl
  | some cmp => cases cmp <;> rfl

section Inner

variable {leftWidth rightWidth : Nat} {dl dr : DataType} {a b : ColumnRef}
  {leftKey rightKey : Nat} {left right : List Tuple}

theorem EquiInput.accepts (h : EquiInput leftWidth rightWidth dl dr a b leftKey rightKey left right)
    {l r : Tuple} (hl : l ∈ left) :
    predicateTrue (evalExpression (.binary .Eq (.column a) (.column b))) (l ++ r) =
      valuesEqual (l.getD leftKey .null) (r.getD rightKey .null) := by
  obtain ⟨hlen, -⟩ := h.left l hl
  obtain ⟨hlt, hcols⟩ := equiKeys_eq_some h.keys
  have hleft : ∀ c : ColumnRef, c.outerRef = false → c.columnIndex = leftKey →
      evalColumn c (l ++ r) = l.getD leftKey .null := by
    intro c hown hc
    rw [evalColumn, hown, if_neg (by simp), hc, if_pos (by omega), Int.toNat_natCast,
      List.getD_append _ _ _ _ (by omega)]
  have hright : ∀ c : ColumnRef, c.outerRef = false → c.columnIndex = (leftWidth + rightKey : Nat) →
      evalColumn c (l ++ r) = r.getD rightKey .null := by
    intro c hown hc
    rw [evalColumn, hown, if_neg (by simp), hc, if_pos (by omega), Int.toNat_natCast,
      List.getD_append_right _ _ _ _ (by omega), hlen, Nat.add_sub_cancel_left]
  rw [predicateTrue_eq]
  rcases hcols with ⟨ha, hb⟩ | ⟨hb, ha⟩
  · rw [hleft a h.own.1 ha, hright b h.own.2 hb]
  · rw [hright a h.own.1 ha, hleft b h.own.2 hb, valuesEqual_comm]

theorem EquiInput.nestedJoin_eq
    (h : EquiInput leftWidth rightWidth dl dr a b leftKey rightKey left right) :
    nestedJoin left right (.binary .Eq (.column a) (.column b)) =
      (nestedLoop (fun l r => valuesEqual (l.getD leftKey .null) (r.getD rightKey .null)) left
        right).map fun p => p.1 ++ p.2 := by
  rw [nestedJoin, nestedLoop_congr fun l hl r _ => h.accepts hl]

/-- The pair of rows can be read off the combined row. -/
theorem EquiInput.mem_joined
    (h : EquiInput leftWidth rightWidth dl dr a b leftKey rightKey left right)
    {accept : Tuple → Tuple → Bool} {l r : Tuple} (hl : l ∈ left) (hr : r ∈ right) :
    l ++ r ∈ (nestedLoop accept left right).map (fun p => p.1 ++ p.2) ↔ accept l r := by
  rw [List.mem_map]
  constructor
  · rintro ⟨⟨l', r'⟩, hmem, heq⟩
    obtain ⟨hl', -, haccept⟩ := mem_nestedLoop.mp hmem
    have hlen : l'.length = l.length := (h.left l' hl').1.trans (h.left l hl).1.symm
    obtain ⟨rfl, rfl⟩ := List.append_inj heq hlen
    exact haccept
  · exact fun haccept => ⟨(l, r), mem_nestedLoop.mpr ⟨hl, hr, haccept⟩, rfl⟩

theorem rowLess_single (col : Nat) :
    rowLess [col] [true] = fun x y => valueLess (x.getD col .null) (y.getD col .null) := by
  funext x y
  simp only [rowLess]
  split <;> simp_all

theorem isNull_of_same {a b : Value} (h : same valueLess a b) : a.isNull = b.isNull := by
  by_cases ha : a = .null <;> by_cases hb : b = .null
  · rw [ha, hb]
  · subst ha
    cases b <;>
      first | exact absurd rfl hb | exact absurd h (by simp [same, valueLess, Value.isNull])
  · subst hb
    cases a <;>
      first | exact absurd rfl ha | exact absurd h (by simp [same, valueLess, Value.isNull])
  · simp [Value.isNull, ha, hb]

theorem sorted_side (heap : MergeHeap) {memLimitRows : Nat} {rows : List Tuple} {col : Nat}
    {keys : List Value} (hsort : Sortable memLimitRows rows) (hkeys : OrderedOn valueLess keys)
    (hsub : ∀ row ∈ rows, row.getD col .null ∈ keys) :
    Sorted (fun x y => valueLess (x.getD col .null) (y.getD col .null))
      (externalSort heap rows [col] [true] memLimitRows) := by
  rw [← rowLess_single]
  refine sorted_externalSort heap _ _ hsort ?_
  rw [rowLess_single]
  refine OrderedOn.map (f := fun row : Tuple => row.getD col .null) (hkeys.subset fun k hk => ?_)
  obtain ⟨row, hrow, rfl⟩ := List.mem_map.mp hk
  exact hsub row hrow

/-- The merge join is right where the keys of both sides are in order. -/
theorem mergeJoinInner_perm_joins (heap : MergeHeap) {memLimitRows : Nat}
    (hleft : Sortable memLimitRows left) (hright : Sortable memLimitRows right)
    (hkeys : OrderedOn valueLess
      (left.map (·.getD leftKey .null) ++ right.map (·.getD rightKey .null))) :
    (mergeJoinInner heap left leftKey right rightKey memLimitRows).Perm
      ((nestedLoop (fun l r => joins valueLess Value.isNull (l.getD leftKey .null)
        (r.getD rightKey .null)) left right).map fun p => p.1 ++ p.2) := by
  have hlperm := externalSort_perm heap [leftKey] [true] hleft
  have hrperm := externalSort_perm heap [rightKey] [true] hright
  have hlsub : ∀ l ∈ left, l.getD leftKey .null ∈
      left.map (·.getD leftKey .null) ++ right.map (·.getD rightKey .null) := fun l hl =>
    List.mem_append_left _ (List.mem_map.mpr ⟨l, hl, rfl⟩)
  have hrsub : ∀ r ∈ right, r.getD rightKey .null ∈
      left.map (·.getD leftKey .null) ++ right.map (·.getD rightKey .null) := fun r hr =>
    List.mem_append_right _ (List.mem_map.mpr ⟨r, hr, rfl⟩)
  rw [mergeJoinInner, mergeJoin_eq_nestedLoop hkeys (fun l hl => hlsub l (hlperm.mem_iff.mp hl))
    (fun r hr => hrsub r (hrperm.mem_iff.mp hr)) (fun _ _ _ _ => isNull_of_same)
    (sorted_side heap hleft hkeys hlsub) (sorted_side heap hright hkeys hrsub)]
  exact (nestedLoop_perm _ hlperm hrperm).map _

/-- The pairs of the merge join are those that nested loops find equal. -/
theorem mergeJoinInner_perm (heap : MergeHeap) {memLimitRows : Nat}
    (hleft : Sortable memLimitRows left) (hright : Sortable memLimitRows right)
    (hkeys : OrderedOn valueLess
      (left.map (·.getD leftKey .null) ++ right.map (·.getD rightKey .null))) :
    (mergeJoinInner heap left leftKey right rightKey memLimitRows).Perm
      ((nestedLoop (fun l r => valuesEqual (l.getD leftKey .null) (r.getD rightKey .null)) left
        right).map fun p => p.1 ++ p.2) := by
  simpa only [joins_eq_valuesEqual] using mergeJoinInner_perm_joins heap hleft hright hkeys

/-- Where no two keys are equal the merge join yields nothing, whatever the sort does. -/
theorem mergeJoinInner_eq_nil (heap : MergeHeap) {memLimitRows : Nat}
    (hleft : Sortable memLimitRows left) (hright : Sortable memLimitRows right)
    (hnone : ∀ l ∈ left, ∀ r ∈ right,
      valuesEqual (l.getD leftKey .null) (r.getD rightKey .null) = false) :
    mergeJoinInner heap left leftKey right rightKey memLimitRows = [] := by
  rw [mergeJoinInner, mergeJoin_eq_nil fun l hl r hr => ?_]
  · rfl
  · rw [joins_eq_valuesEqual]
    exact hnone l ((externalSort_perm heap _ _ hleft).mem_iff.mp hl) r
      ((externalSort_perm heap _ _ hright).mem_iff.mp hr)

/-- The merge join is the equi-join: every pair of rows whose keys are not null and not less
than each other, once. -/
theorem mergeJoinInner_equiJoin (heap : MergeHeap) {memLimitRows : Nat}
    (hleft : Sortable memLimitRows left) (hright : Sortable memLimitRows right)
    (hkeys : OrderedOn valueLess
      (left.map (·.getD leftKey .null) ++ right.map (·.getD rightKey .null))) :
    (mergeJoinInner heap left leftKey right rightKey memLimitRows).Perm
      (left.flatMap fun l => (right.filter fun r =>
        let lk := l.getD leftKey .null
        let rk := r.getD rightKey .null
        !lk.isNull && !rk.isNull && (!valueLess lk rk && !valueLess rk lk)).map (l ++ ·)) := by
  refine (mergeJoinInner_perm_joins heap hleft hright hkeys).trans (.of_eq ?_)
  simp only [nestedLoop, joins, same, List.map_flatMap, List.map_map, Function.comp_def]

/-- Two rows on each side have the key 1, and every row is a run of its own. -/
theorem mergeJoinInner_equiJoin_duplicates :
    (mergeJoinInner (fun less => listQueue (frontierLess less))
        [[.int 1, .int 10], [.null, .int 11], [.int 1, .int 12]] 0
        [[.int 2], [.int 1], [.null], [.int 1]] 0 1).Perm
      [[.int 1, .int 10, .int 1], [.int 1, .int 10, .int 1], [.int 1, .int 12, .int 1],
        [.int 1, .int 12, .int 1]] := by
  have hspill : ∀ row : Tuple, row.length < 2 ^ 32 → (∀ s, .text s ∉ row) → Spillable row :=
    fun row hwidth htext => ⟨hwidth, fun s hs => absurd hs (htext s)⟩
  have hkeys : OrderedOn valueLess [.int 1, .null, .int 1, .int 2, .int 1, .null, .int 1] := by
    constructor <;> decide
  refine (mergeJoinInner_equiJoin _ (.inr ?_) (.inr ?_) ?_).trans (.of_eq (by decide))
  · simp [hspill]
  · simp [hspill]
  · exact hkeys

/-- Exactly when the hash join and the merge join return what nested loops return. -/
theorem join_agrees_iff (heap : MergeHeap) (memLimitRows : Nat)
    (h : EquiInput leftWidth rightWidth dl dr a b leftKey rightKey left right) :
    (hashJoin left leftKey right rightKey).Perm
        (nestedJoin left right (.binary .Eq (.column a) (.column b))) ∧
      (mergeJoinInner heap left leftKey right rightKey memLimitRows).Perm
        (nestedJoin left right (.binary .Eq (.column a) (.column b))) ↔
    ∀ l ∈ left, ∀ r ∈ right, KeysAgree (l.getD leftKey .null) (r.getD rightKey .null) := by
  rw [h.nestedJoin_eq, hashJoin_eq]
  refine ⟨fun hperm l hl r hr => ?_, fun hagree => ⟨?_, ?_⟩⟩
  · rw [keysAgree_iff, Bool.eq_iff_iff]
    have hmem := hperm.1.mem_iff (a := l ++ r)
    rwa [h.mem_joined hl hr, h.mem_joined hl hr] at hmem
  · rw [nestedLoop_congr fun l hl r hr => (keysAgree_iff _ _).mp (hagree l hl r hr)]
  · have hleft := fun l hl => (h.left l hl).2.2
    have hright := fun r hr => (h.right r hr).2.2
    by_cases hnone : ∀ l ∈ left, ∀ r ∈ right,
        valuesEqual (l.getD leftKey .null) (r.getD rightKey .null) = false
    · rw [mergeJoinInner_eq_nil heap (.inr hleft) (.inr hright) hnone, ← List.append_nil left,
        nestedLoop_none_left _ hnone]
      rfl
    · push Not at hnone
      obtain ⟨l, hl, r, hr, heq⟩ := hnone
      refine mergeJoinInner_perm heap (.inr hleft) (.inr hright) ?_
      have hlkeys : ∀ k ∈ left.map (·.getD leftKey .null), Tuple.HasType dl k :=
        List.forall_mem_map.mpr fun l hl => (h.left l hl).2.1
      have hrkeys : ∀ k ∈ right.map (·.getD rightKey .null), Tuple.HasType dr k :=
        List.forall_mem_map.mpr fun r hr => (h.right r hr).2.1
      refine ordered_of_keysAgree hlkeys hrkeys ?_ (List.mem_map.mpr ⟨l, hl, rfl⟩)
        (List.mem_map.mpr ⟨r, hr, rfl⟩) (by simpa using heq)
      simpa only [List.forall_mem_map] using hagree

/-- Key `a` of the left row and key `b` of the right row, one column each. -/
def exampleOn : ColumnRef × ColumnRef :=
  ({ column := "a", columnIndex := 0 }, { column := "b", columnIndex := 1 })

theorem join_agrees_ints :
    (hashJoin [[.int 1], [.null]] 0 [[.int 1], [.int 2], [.int 1]] 0).Perm
        (nestedJoin [[.int 1], [.null]] [[.int 1], [.int 2], [.int 1]]
          (.binary .Eq (.column exampleOn.1) (.column exampleOn.2))) ∧
      (mergeJoinInner (fun less => listQueue (frontierLess less)) [[.int 1], [.null]] 0
          [[.int 1], [.int 2], [.int 1]] 0 1).Perm
        (nestedJoin [[.int 1], [.null]] [[.int 1], [.int 2], [.int 1]]
          (.binary .Eq (.column exampleOn.1) (.column exampleOn.2))) := by
  have hspill : ∀ v : Value, (∀ s, v ≠ .text s) → Spillable [v] := fun v hv =>
    ⟨show 1 < 2 ^ 32 by decide, fun s hs => absurd (List.mem_singleton.mp hs).symm (hv s)⟩
  have hinput : EquiInput 1 1 .Int .Int exampleOn.1 exampleOn.2 0 0 [[.int 1], [.null]]
      [[.int 1], [.int 2], [.int 1]] :=
    ⟨by decide, by decide, by simp [Tuple.HasType, hspill], by simp [Tuple.HasType, hspill]⟩
  refine (join_agrees_iff (fun less => listQueue (frontierLess less)) 1 hinput).mpr ?_
  simp [KeysAgree]

/-- The FLOAT keys 1.0000001 and 1.0000002 both print as 1. -/
theorem not_join_agrees :
    ¬(hashJoin [[.double 0x3ff000001ad7f29b]] 0 [[.double 0x3ff0000035afe535]] 0).Perm
      (nestedJoin [[.double 0x3ff000001ad7f29b]] [[.double 0x3ff0000035afe535]]
        (.binary .Eq (.column exampleOn.1) (.column exampleOn.2))) := by
  have hhash : hashJoin [[.double 0x3ff000001ad7f29b]] 0 [[.double 0x3ff0000035afe535]] 0 =
      [[.double 0x3ff000001ad7f29b, .double 0x3ff0000035afe535]] := by decide +kernel
  have hnested : nestedJoin [[.double 0x3ff000001ad7f29b]] [[.double 0x3ff0000035afe535]]
      (.binary .Eq (.column exampleOn.1) (.column exampleOn.2)) = [] := by decide +kernel
  rw [hhash, hnested]
  exact fun h => absurd h.length_eq (by decide)

/-- The rows of the join do not depend on which side of the budget the inputs fall. -/
theorem innerJoin_perm (heap : MergeHeap)
    (h : EquiInput leftWidth rightWidth dl dr a b leftKey rightKey left right)
    (hagree : ∀ l ∈ left, ∀ r ∈ right, KeysAgree (l.getD leftKey .null) (r.getD rightKey .null))
    (when? : Option Expression) :
    (innerJoin heap left leftWidth right (.binary .Eq (.column a) (.column b)) when?).Perm
      ((nestedJoin left right (.binary .Eq (.column a) (.column b))).filter fun row =>
        when?.all fun e => predicateTrue (evalExpression e) row) := by
  obtain ⟨hhash, hmerge⟩ := (join_agrees_iff heap 100000 h).mpr hagree
  unfold innerJoin
  rw [h.keys]
  refine List.Perm.filter _ ?_
  dsimp only
  split
  · exact hmerge
  · exact hhash

end Inner

end Relite.Vm
