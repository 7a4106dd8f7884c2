import Relite.Vm.ColumnStore

/-!
# Zone maps

A block is left out by its zone map when no row in it can pass. That is so unless a value of
the block is not a number: such a value equals every number, and it is neither replaced as
the least or greatest value nor does it replace another.
-/
namespace Relite.Vm
open Lib Relite.Parser
open Semantic hiding Expression

/-! ## Values in order -/

/-- The value is the double that is no number. -/
def Value.NaN : Value → Prop
  | .double bits => NotANumber bits
  | _ => False

instance (v : Value) : Decidable v.NaN :=
  match v with
  | .double bits => inferInstanceAs (Decidable (NotANumber bits))
  | .null | .int _ | .bool _ | .text _ => inferInstanceAs (Decidable False)

/-- The first value is less than the second. -/
def Below : Value → Value → Prop
  | .int m, .int n => m < n
  | .int m, .double y => ofInt64 m < Float.ofBits y
  | .double x, .int n => Float.ofBits x < ofInt64 n
  | .double x, .double y => Float.ofBits x < Float.ofBits y
  | .bool a, .bool b => compare a b = .lt
  | .text s, .text t => s < t
  | _, _ => False

theorem compareValues_eq_lt (a b : Value) : compareValues a b = some .lt ↔ Below a b := by
  have hthree : ∀ {p q : Prop} [Decidable p] [Decidable q],
      some (if p then Ordering.lt else if q then .gt else .eq) = some .lt ↔ p := by
    intro p q _ _
    by_cases hp : p
    · simp [hp]
    · by_cases hq : q <;> simp [hp, hq]
  cases a <;> cases b
  case int.int | int.double | double.int | double.double => exact hthree
  case text.text => exact hthree
  case bool.bool => exact Option.some_inj
  all_goals exact iff_of_false nofun id

theorem compareValues_eq_gt (a b : Value) : compareValues a b = some .gt ↔ Below b a := by
  rw [compareValues_swap b a, ← compareValues_eq_lt]
  cases h : compareValues b a with
  | none => simp
  | some o => cases o <;> simp

instance (a b : Value) : Decidable (Below a b) := decidable_of_iff _ (compareValues_eq_lt a b)

theorem Below.asymm {a b : Value} (h : Below a b) : ¬Below b a := by
  rw [← compareValues_eq_lt] at h
  rw [← compareValues_eq_gt, h]
  nofun

/-- A value of the type with a place in its order. -/
structure Proper (d : DataType) (v : Value) : Prop where
  typed : Tuple.HasType d v
  notNull : v.isNull = false
  notNaN : ¬v.NaN

section Floats

variable {x y z : Float} (hy : y.toModel.unpack ≠ .notANumber) (hz : z.toModel.unpack ≠ .notANumber)
include hy hz

theorem float_lt_or_lt_of_lt (hxy : x < y) : x < z ∨ z < y := by
  have hx : x.toModel.unpack ≠ .notANumber := fun hx => not_lt_of_notANumber (.inl hx) hxy
  rw [lt_iff_rank hx hz, lt_iff_rank hz hy]
  exact (lt_or_ge _ _).imp_right fun hzx => lt_of_le_of_lt hzx ((lt_iff_rank hx hy).mp hxy)

theorem float_lt_or_lt_of_gt (hyx : y < x) : z < x ∨ y < z := by
  have hx : x.toModel.unpack ≠ .notANumber := fun hx => not_lt_of_notANumber (.inr hx) hyx
  rw [lt_iff_rank hz hx, lt_iff_rank hy hz]
  exact (lt_or_ge _ _).imp_right fun hxz => lt_of_lt_of_le ((lt_iff_rank hy hx).mp hyx) hxz

end Floats

theorem lt_of_ofInt64_lt {m n : Int64} (h : ofInt64 m < ofInt64 n) : m < n := by
  rw [lt_iff_rank (rank_ofInt64 m).1 (rank_ofInt64 n).1] at h
  by_contra hle
  exact absurd h (not_lt_of_ge (rank_ofInt64_le (Int64.not_lt.mp hle)))

section Order

variable {d : DataType} {a b : Value} (ha : Proper d a) (hb : Proper d b) {v : Value}
include ha hb

/-- Two values of a column have the same form. -/
theorem Proper.forms {motive : Value → Value → Prop}
    (int : ∀ m n, motive (.int m) (.int n)) (bool : ∀ p q, motive (.bool p) (.bool q))
    (text : ∀ s t, motive (.text s) (.text t))
    (double : ∀ x y, ¬NotANumber x → ¬NotANumber y → motive (.double x) (.double y)) :
    motive a b := by
  obtain ⟨hta, hna, hNa⟩ := ha
  obtain ⟨htb, hnb, hNb⟩ := hb
  cases a with
  | null => cases hna
  | int m =>
    cases d <;> cases hta
    cases b <;> first | exact int m _ | exact htb.elim | exact absurd hnb (by decide)
  | bool p =>
    cases d <;> cases hta
    cases b <;> first | exact bool p _ | exact htb.elim | exact absurd hnb (by decide)
  | text s =>
    cases d <;> cases hta <;> cases b <;>
      first | exact text s _ | exact htb.elim | exact absurd hnb (by decide)
  | double x =>
    cases d <;> cases hta
    cases b <;> first | exact double x _ hNa hNb | exact htb.elim | exact absurd hnb (by decide)

/-- What is below a value of the column is below every value that is not below this one. -/
theorem Below.lt_or_lt (h : Below v a) : Below v b ∨ Below b a := by
  refine Proper.forms (motive := fun a b => Below v a → Below v b ∨ Below b a) ha hb
    (fun m n h => ?_) (fun p q h => ?_) (fun s t h => ?_) (fun x y hx hy h => ?_) h
  · cases v with
    | int l => exact (Int64.lt_or_le l n).imp_right fun hle => Int64.lt_of_le_of_lt hle h
    | double l =>
      exact (float_lt_or_lt_of_lt (rank_ofInt64 m).1 (rank_ofInt64 n).1 h).imp_right
        lt_of_ofInt64_lt
    | _ => exact h.elim
  · cases v with
    | bool l => cases l <;> cases p <;> cases q <;> first | exact .inl h | exact .inr h | cases h
    | _ => exact h.elim
  · cases v with
    | text l =>
      refine or_iff_not_imp_left.mpr fun hlt => ?_
      by_contra hts
      exact List.not_lt.mpr (List.le_trans (List.not_lt.mp hts) (List.not_lt.mp hlt)) h
    | _ => exact h.elim
  · rw [← unpack_ofBits] at hx hy
    cases v with
    | int l => exact float_lt_or_lt_of_lt hx hy h
    | double l => exact float_lt_or_lt_of_lt hx hy h
    | _ => exact h.elim

theorem Below.gt_or_lt (h : Below a v) : Below b v ∨ Below a b := by
  refine Proper.forms (motive := fun a b => Below a v → Below b v ∨ Below a b) ha hb
    (fun m n h => ?_) (fun p q h => ?_) (fun s t h => ?_) (fun x y hx hy h => ?_) h
  · cases v with
    | int l => exact (Int64.lt_or_le n l).imp_right fun hle => Int64.lt_of_lt_of_le h hle
    | double l =>
      exact (float_lt_or_lt_of_gt (rank_ofInt64 m).1 (rank_ofInt64 n).1 h).imp_right
        lt_of_ofInt64_lt
    | _ => cases h
  · cases v with
    | bool l => cases l <;> cases p <;> cases q <;> first | exact .inl h | exact .inr h | cases h
    | _ => cases h
  · cases v with
    | text l =>
      refine or_iff_not_imp_left.mpr fun hlt => ?_
      by_contra hst
      exact List.not_lt.mpr (List.le_trans (List.not_lt.mp hlt) (List.not_lt.mp hst)) h
    | _ => cases h
  · rw [← unpack_ofBits] at hx hy
    cases v with
    | int l => exact float_lt_or_lt_of_gt hx hy h
    | double l => exact float_lt_or_lt_of_gt hx hy h
    | _ => cases h

end Order

/-- Values of which one is below the other are neither null nor no number. -/
theorem Below.ranked {a b : Value} (h : Below a b) :
    (a.isNull = false ∧ ¬a.NaN) ∧ b.isNull = false ∧ ¬b.NaN := by
  have hint : ∀ n, (ofInt64 n).toModel.unpack ≠ .notANumber := fun n => (rank_ofInt64 n).1
  cases a <;> cases b
  case double.double =>
    have hnot := fun hnan => not_ofBits_lt hnan h
    rw [imp_false, not_or] at hnot
    exact ⟨⟨rfl, hnot.1⟩, rfl, hnot.2⟩
  case int.double =>
    refine ⟨⟨rfl, id⟩, rfl, fun hnan => ?_⟩
    exact not_lt_of_notANumber (.inr ((unpack_ofBits _).mpr hnan)) h
  case double.int =>
    refine ⟨⟨rfl, fun hnan => ?_⟩, rfl, id⟩
    exact not_lt_of_notANumber (.inl ((unpack_ofBits _).mpr hnan)) h
  case int.int | bool.bool | text.text => exact ⟨⟨rfl, id⟩, rfl, id⟩
  all_goals exact h.elim

/-! ## The zone of a block -/

/-- The zone that `buildZones` makes of the values of a block. -/
def zoneOf (vals : List Value) : ColumnZone := vals.foldl ColumnZone.extend {}

/-- The zone has the least and the greatest of the values with a place in the order. -/
structure ColumnZone.Bounds (z : ColumnZone) (d : DataType) (vals : List Value) : Prop where
  hasNonNull : z.hasNonNull = true
  min_mem : z.min ∈ vals
  max_mem : z.max ∈ vals
  min : Proper d z.min
  max : Proper d z.max
  least : ∀ v ∈ vals, ¬Below v z.min
  greatest : ∀ v ∈ vals, ¬Below z.max v

theorem ColumnZone.Bounds.extend {z : ColumnZone} {d : DataType} {vals : List Value}
    (h : z.Bounds d vals) {v : Value} (hv : Tuple.HasType d v) :
    (z.extend v).Bounds d (vals ++ [v]) := by
  have hmem : ∀ {w}, w ∈ vals → w ∈ vals ++ [v] := List.mem_append_left [v]
  have hlast : v ∈ vals ++ [v] := List.mem_append_right vals List.mem_cons_self
  have hmin : ∃ m ∈ vals ++ [v], Proper d m ∧ (∀ w ∈ vals ++ [v], ¬Below w m) ∧
      m = if compareValues v z.min = some .lt then v else z.min := by
    split
    · rename_i hlt
      rw [compareValues_eq_lt] at hlt
      have hproper : Proper d v := ⟨hv, hlt.ranked.1.1, hlt.ranked.1.2⟩
      refine ⟨v, hlast, hproper, fun w hw hwv => ?_, rfl⟩
      rcases List.mem_append.mp hw with hw | hw
      · exact (hwv.lt_or_lt hproper h.min).elim (h.least w hw) hlt.asymm
      · cases List.mem_singleton.mp hw
        exact hwv.asymm hwv
    · rename_i hlt
      rw [compareValues_eq_lt] at hlt
      refine ⟨z.min, hmem h.min_mem, h.min, fun w hw => ?_, rfl⟩
      rcases List.mem_append.mp hw with hw | hw
      · exact h.least w hw
      · cases List.mem_singleton.mp hw
        exact hlt
  have hmax : ∃ m ∈ vals ++ [v], Proper d m ∧ (∀ w ∈ vals ++ [v], ¬Below m w) ∧
      m = if compareValues v z.max = some .gt then v else z.max := by
    split
    · rename_i hgt
      rw [compareValues_eq_gt] at hgt
      have hproper : Proper d v := ⟨hv, hgt.ranked.2.1, hgt.ranked.2.2⟩
      refine ⟨v, hlast, hproper, fun w hw hvw => ?_, rfl⟩
      rcases List.mem_append.mp hw with hw | hw
      · exact (hvw.gt_or_lt hproper h.max).elim (h.greatest w hw) hgt.asymm
      · cases List.mem_singleton.mp hw
        exact hvw.asymm hvw
    · rename_i hgt
      rw [compareValues_eq_gt] at hgt
      refine ⟨z.max, hmem h.max_mem, h.max, fun w hw => ?_, rfl⟩
      rcases List.mem_append.mp hw with hw | hw
      · exact h.greatest w hw
      · cases List.mem_singleton.mp hw
        exact hgt
  obtain ⟨m, hm, hmp, hleast, hmeq⟩ := hmin
  obtain ⟨n, hn, hnp, hgreatest, hneq⟩ := hmax
  have hzone : z.extend v = { hasNonNull := true, min := m, max := n } := by
    rw [ColumnZone.extend, hmeq, hneq]
    cases hnull : v.isNull with
    | true =>
      obtain rfl : v = .null := by simpa [Value.isNull] using hnull
      simp [compareValues, Value.isNull, ← h.hasNonNull]
    | false => simp [h.hasNonNull]
  rw [hzone]
  exact ⟨rfl, hm, hn, hmp, hnp, hleast, hgreatest⟩

/-- The first value that is not null starts the zone of a block. -/
theorem zoneOf_eq {vals : List Value} {w : Value} (h : vals.find? (fun v => !v.isNull) = some w) :
    ∃ front rest, vals = front ++ w :: rest ∧ (∀ v ∈ front, v.isNull) ∧
      zoneOf vals = rest.foldl ColumnZone.extend { hasNonNull := true, min := w, max := w } := by
  obtain ⟨hw, front, rest, rfl, hnulls⟩ := List.find?_eq_some_iff_append.mp h
  have hfront : ∀ v ∈ front, v.isNull := fun v hv => by simpa using hnulls v hv
  refine ⟨front, rest, rfl, hfront, ?_⟩
  have hnone : front.foldl ColumnZone.extend {} = {} := by
    clear h hnulls
    induction front with
    | nil => rfl
    | cons u front ih =>
      rw [List.foldl_cons, ColumnZone.extend, if_pos (hfront u List.mem_cons_self)]
      exact ih fun a ha => hfront a (List.mem_cons_of_mem u ha)
  rw [zoneOf, List.foldl_append, hnone, List.foldl_cons, ColumnZone.extend,
    if_neg (by simpa using hw), if_pos (by decide)]

/-- A block whose first value is a number has a zone that bounds its numbers. -/
theorem zoneOf_bounds {d : DataType} {vals : List Value} (htyped : ∀ v ∈ vals, Tuple.HasType d v)
    {w : Value} (h : vals.find? (fun v => !v.isNull) = some w) (hw : ¬w.NaN) :
    (zoneOf vals).Bounds d vals := by
  obtain ⟨front, rest, rfl, hfront, hzone⟩ := zoneOf_eq h
  rw [hzone]
  have hproper : Proper d w := ⟨htyped w (by simp), by simpa using List.find?_some h, hw⟩
  have hstart : ({ hasNonNull := true, min := w, max := w } : ColumnZone).Bounds d (front ++ [w]) := by
    have hseen : ∀ v ∈ front ++ [w], ¬Below v w ∧ ¬Below w v := by
      intro v hv
      rcases List.mem_append.mp hv with hv | hv
      · have hnull := hfront v hv
        exact ⟨fun h => by simp [h.ranked.1.1] at hnull, fun h => by simp [h.ranked.2.1] at hnull⟩
      · cases List.mem_singleton.mp hv
        exact ⟨fun h => h.asymm h, fun h => h.asymm h⟩
    exact ⟨rfl, by simp, by simp, hproper, hproper, fun v hv => (hseen v hv).1,
      fun v hv => (hseen v hv).2⟩
  have hrun : ∀ (rest : List Value) {z : ColumnZone} {seen : List Value}, z.Bounds d seen →
      (∀ v ∈ rest, Tuple.HasType d v) → (rest.foldl ColumnZone.extend z).Bounds d (seen ++ rest) := by
    intro rest
    induction rest with
    | nil => simp
    | cons v rest ih =>
      intro z seen hz hrest
      have hstep := ih (hz.extend (hrest v List.mem_cons_self))
        fun u hu => hrest u (List.mem_cons_of_mem v hu)
      simpa using hstep
  have hall := hrun rest hstart fun v hv => htyped v (by simp [hv])
  simpa using hall

/-- A block whose first value is no number has a zone of that value alone. -/
theorem zoneOf_nan {vals : List Value} {w : Value}
    (h : vals.find? (fun v => !v.isNull) = some w) (hw : w.NaN) :
    zoneOf vals = { hasNonNull := true, min := w, max := w } := by
  obtain ⟨front, rest, rfl, -, hzone⟩ := zoneOf_eq h
  rw [hzone]
  have hsame : ∀ v, ¬Below v w ∧ ¬Below w v := fun v =>
    ⟨fun h => h.ranked.2.2 hw, fun h => h.ranked.1.2 hw⟩
  clear hzone h
  induction rest with
  | nil => rfl
  | cons v rest ih =>
    have hstep : ColumnZone.extend { hasNonNull := true, min := w, max := w } v =
        { hasNonNull := true, min := w, max := w } := by
      rw [ColumnZone.extend]
      simp [compareValues_eq_lt, compareValues_eq_gt, hsame v]
    rw [List.foldl_cons, hstep, ih]

/-! ## What a zone excludes -/

/-- The first value that is not null is no number and the term orders or tells apart; or the
value is no number, and the literal is below or above all the numbers. -/
def PrunedByNaN (vals : List Value) (term : Term) (v : Value) : Prop :=
  ∃ w ∈ vals.find? (fun w => !w.isNull),
    if w.NaN then term.op ∈ [.Lt, .Gt, .Neq]
    else
      v.NaN ∧
        (term.op ∈ [.Eq, .Leq] ∧ (∀ u ∈ vals, u.isNull = false → ¬u.NaN → Below term.literal u) ∨
          term.op ∈ [.Eq, .Geq] ∧ ∀ u ∈ vals, u.isNull = false → ¬u.NaN → Below u term.literal)

/-- The value has the order to the literal that the operator asks for. -/
def Satisfies (op : ComparisonOp) (v literal : Value) : Prop :=
  match op with
  | .Eq => ¬Below v literal ∧ ¬Below literal v
  | .Neq => Below v literal ∨ Below literal v
  | .Lt => Below v literal
  | .Leq => ¬Below literal v
  | .Gt => Below literal v
  | .Geq => ¬Below v literal

theorem satisfies_of_termPasses {term : Term} {v : Value} (h : termPasses term v) :
    (compareValues v term.literal).isSome ∧ Satisfies term.op v term.literal := by
  rw [termPasses] at h
  split at h
  · cases h
  · rename_i cmp hcmp
    refine ⟨by rw [hcmp]; rfl, ?_⟩
    have hlt := compareValues_eq_lt v term.literal
    have hgt := compareValues_eq_gt v term.literal
    rw [hcmp] at hlt hgt
    cases hop : term.op <;> cases cmp <;>
      simp_all [Satisfies, compares]

/-- Values of one type compare to the same literals. -/
theorem compareValues_isSome {d : DataType} {u v literal : Value} (hu : Tuple.HasType d u)
    (hnull : u.isNull = false) (hv : Tuple.HasType d v) (h : (compareValues v literal).isSome) :
    (compareValues literal u).isSome := by
  have hcode : v.typeCode = u.typeCode := by
    cases d <;> cases u <;> cases v <;>
      first | rfl | exact hu.elim | exact hv.elim | exact absurd hnull (by decide) | cases h
  cases v <;> cases u <;> cases hcode <;> cases literal <;> first | rfl | cases h

theorem blockExcludesTerm_iff {term : Term} {z : ColumnZone} (hz : z.hasNonNull = true)
    (hmin : (compareValues term.literal z.min).isSome)
    (hmax : (compareValues term.literal z.max).isSome) :
    blockExcludesTerm term z ↔
      match term.op with
      | .Eq => Below term.literal z.min ∨ Below z.max term.literal
      | .Lt => ¬Below z.min term.literal
      | .Leq => Below term.literal z.min
      | .Gt => ¬Below term.literal z.max
      | .Geq => Below z.max term.literal
      | .Neq => compareValues z.min z.max = some .eq ∧ compareValues term.literal z.min = some .eq := by
  obtain ⟨lMin, hmin⟩ := Option.isSome_iff_exists.mp hmin
  obtain ⟨lMax, hmax⟩ := Option.isSome_iff_exists.mp hmax
  have hltMin := compareValues_eq_lt term.literal z.min
  have hgtMin := compareValues_eq_gt term.literal z.min
  have hltMax := compareValues_eq_lt term.literal z.max
  have hgtMax := compareValues_eq_gt term.literal z.max
  rw [hmin] at hltMin hgtMin
  rw [hmax] at hltMax hgtMax
  simp only [blockExcludesTerm, hz, hmin, hmax, ← hltMin, ← hgtMin, ← hltMax, ← hgtMax]
  cases term.op <;> simp

/-- A zone with bounds does not exclude a value between them that passes. -/
theorem ColumnZone.Bounds.not_excludes {z : ColumnZone} {d : DataType} {vals : List Value}
    (h : z.Bounds d vals) {term : Term} {v : Value} (hv : v ∈ vals) (hproper : Proper d v)
    (hpass : termPasses term v) : ¬blockExcludesTerm term z := by
  obtain ⟨hsome, hsat⟩ := satisfies_of_termPasses hpass
  have hcomparable : ∀ {u}, Proper d u → (compareValues term.literal u).isSome := fun hu =>
    compareValues_isSome hu.typed hu.notNull hproper.typed hsome
  have hleast := h.least v hv
  have hgreatest := h.greatest v hv
  have habove : ∀ {l}, Below l z.min → Below l v := fun hl =>
    (hl.lt_or_lt h.min hproper).resolve_right hleast
  have hbelow : ∀ {l}, Below z.max l → Below v l := fun hl =>
    (hl.gt_or_lt h.max hproper).resolve_right hgreatest
  have hmin : ∀ {l}, Below v l → Below z.min l := fun hl =>
    (hl.gt_or_lt hproper h.min).resolve_right hleast
  have hmax : ∀ {l}, Below l v → Below l z.max := fun hl =>
    (hl.lt_or_lt hproper h.max).resolve_right hgreatest
  rw [blockExcludesTerm_iff h.hasNonNull (hcomparable h.min) (hcomparable h.max)]
  unfold Satisfies at hsat
  cases hop : term.op with
  | Eq =>
    rw [hop] at hsat
    exact fun hex => hex.elim (fun hl => hsat.2 (habove hl)) fun hl => hsat.1 (hbelow hl)
  | Lt =>
    rw [hop] at hsat
    exact not_not_intro (hmin hsat)
  | Leq =>
    rw [hop] at hsat
    exact fun hl => hsat (habove hl)
  | Gt =>
    rw [hop] at hsat
    exact not_not_intro (hmax hsat)
  | Geq =>
    rw [hop] at hsat
    exact fun hl => hsat (hbelow hl)
  | Neq =>
    rw [hop] at hsat
    rintro ⟨hspan, hlmin⟩
    have hnone : ∀ {a b : Value}, compareValues a b = some .eq → ¬Below a b ∧ ¬Below b a := by
      intro a b hab
      rw [← compareValues_eq_lt, ← compareValues_eq_gt, hab]
      exact ⟨nofun, nofun⟩
    rcases hsat with hsat | hsat
    · exact (hnone hlmin).2 (hmin hsat)
    · exact ((hmax hsat).lt_or_lt h.max h.min).elim (hnone hlmin).1 (hnone hspan).1

/-- A block with a row that passes is excluded only on account of what is no number. -/
theorem excludes_iff_prunedByNaN {d : DataType} {vals : List Value}
    (htyped : ∀ v ∈ vals, Tuple.HasType d v) {term : Term} {v : Value} (hv : v ∈ vals)
    (hpass : termPasses term v) :
    blockExcludesTerm term (zoneOf vals) ↔ PrunedByNaN vals term v := by
  obtain ⟨hsome, hsat⟩ := satisfies_of_termPasses hpass
  have hvnull : v.isNull = false := by
    cases v <;> first | rfl | cases hsome
  obtain ⟨w, hw⟩ : ∃ w, vals.find? (fun w => !w.isNull) = some w := by
    rw [← Option.isSome_iff_exists, List.find?_isSome]
    exact ⟨v, hv, by simp [hvnull]⟩
  have hcomparable : ∀ {u}, u ∈ vals → u.isNull = false →
      (compareValues term.literal u).isSome := fun hu hnull =>
    compareValues_isSome (htyped _ hu) hnull (htyped v hv) hsome
  rw [PrunedByNaN, hw]
  simp only [Option.mem_def, Option.some_inj, exists_eq_left']
  have hwnull : w.isNull = false := by simpa using List.find?_some hw
  have hwmem : w ∈ vals := List.mem_of_find?_eq_some hw
  have hnotBelow : ∀ {u l : Value}, u.NaN → ¬Below u l ∧ ¬Below l u := fun hu =>
    ⟨fun h => h.ranked.1.2 hu, fun h => h.ranked.2.2 hu⟩
  split
  · rename_i hnan
    rw [zoneOf_nan hw hnan, blockExcludesTerm_iff rfl (hcomparable hwmem hwnull)
      (hcomparable hwmem hwnull)]
    have heq : ∀ {u}, (compareValues u w).isSome → compareValues u w = some .eq := fun {u} hu => by
      have hlt := mt (compareValues_eq_lt u w).mp (hnotBelow hnan).2
      have hgt := mt (compareValues_eq_gt u w).mp (hnotBelow hnan).1
      obtain ⟨cmp, hcmp⟩ := Option.isSome_iff_exists.mp hu
      rw [hcmp] at hlt hgt ⊢
      cases cmp <;> simp_all
    have hself : compareValues w w = some .eq := heq (by cases w <;> first | rfl | exact hnan.elim)
    cases hop : term.op <;> simp [hnotBelow hnan, hself, heq (hcomparable hwmem hwnull)]
  · rename_i hnum
    have hbounds := zoneOf_bounds htyped hw hnum
    by_cases hvnan : v.NaN
    · rw [blockExcludesTerm_iff hbounds.hasNonNull
        (hcomparable hbounds.min_mem hbounds.min.notNull)
        (hcomparable hbounds.max_mem hbounds.max.notNull)]
      have hmin : Below term.literal (zoneOf vals).min ↔
          ∀ u ∈ vals, u.isNull = false → ¬u.NaN → Below term.literal u :=
        ⟨fun hl u hu hunull hunan =>
          (hl.lt_or_lt hbounds.min ⟨htyped u hu, hunull, hunan⟩).resolve_right (hbounds.least u hu),
        fun hl => hl _ hbounds.min_mem hbounds.min.notNull hbounds.min.notNaN⟩
      have hmax : Below (zoneOf vals).max term.literal ↔
          ∀ u ∈ vals, u.isNull = false → ¬u.NaN → Below u term.literal :=
        ⟨fun hl u hu hunull hunan =>
          (hl.gt_or_lt hbounds.max ⟨htyped u hu, hunull, hunan⟩).resolve_right
            (hbounds.greatest u hu),
        fun hl => hl _ hbounds.max_mem hbounds.max.notNull hbounds.max.notNaN⟩
      unfold Satisfies at hsat
      cases hop : term.op <;> simp only [hop, hnotBelow hvnan, or_self] at hsat <;>
        simp [hvnan, hmin, hmax]
    · refine iff_of_false (hbounds.not_excludes hv ⟨htyped v hv, hvnull, hvnan⟩ hpass) fun h => ?_
      exact hvnan h.1

/-! ## Blocks of the table -/

/-- The rows of a block. -/
def block (b : Nat) (tuples : List Tuple) : List Tuple :=
  (tuples.drop (b * kBlockRows)).take kBlockRows

theorem map_blockRows {β : Type} {tuples : List Tuple} {f : Nat → β} {g : Tuple → β}
    (h : ∀ r row, tuples[r]? = some row → f r = g row) (b : Nat) :
    (blockRows tuples.length b).map f = (block b tuples).map g := by
  refine List.ext_getElem (by simp [blockRows, block]; omega) fun i h₁ h₂ => ?_
  rw [List.length_map, block, List.length_take, List.length_drop] at h₂
  have hlt : b * kBlockRows + i < tuples.length := by omega
  simp only [List.getElem_map, blockRows, List.getElem_range', block, List.getElem_take,
    List.getElem_drop, one_mul]
  exact h _ _ (List.getElem?_eq_getElem hlt)

theorem mem_block {tuples : List Tuple} {r : Nat} {row : Tuple} (h : tuples[r]? = some row) :
    row ∈ block (r / kBlockRows) tuples := by
  obtain ⟨hlt, rfl⟩ := List.getElem?_eq_some_iff.mp h
  have hdiv := Nat.div_add_mod r kBlockRows
  have hmod := Nat.mod_lt r (show 0 < kBlockRows by decide)
  rw [Nat.mul_comm] at hdiv
  refine List.mem_iff_getElem.mpr ⟨r % kBlockRows, ?_, ?_⟩
  · rw [block, List.length_take, List.length_drop]
    omega
  · simp [block, hdiv]

section Table

variable {schema : Schema} {tuples : List Tuple} (htyped : ∀ t ∈ tuples, Tuple.Typed schema t)
include htyped

theorem zones_of_column? {c : Int} {col : Column}
    (h : (buildColumns schema tuples).column? c = some col) {b : Nat}
    (hb : b < blockCount tuples.length) :
    col.zones[b]? = some (zoneOf ((block b tuples).map fun row => valueAt row c)) := by
  have hvalues : (blockRows tuples.length b).map (columnValue col) =
      (block b tuples).map fun row => valueAt row c :=
    map_blockRows (fun r row hrow => (holds_of_column? htyped h hrow).columnValue) b
  rw [column?_build] at h
  split at h
  · cases h
  · obtain ⟨d, hd, rfl⟩ := Option.map_eq_some_iff.mp h
    rw [← hvalues, zoneOf, List.foldl_map]
    simp only [buildZones, List.getElem?_map, List.getElem?_range hb, Option.map_some]
    rfl

/-- The values of the rows at a column all have the type of the column. -/
theorem hasType_of_column? {c : Int} {col : Column}
    (h : (buildColumns schema tuples).column? c = some col) :
    ∀ row ∈ tuples, Tuple.HasType col.type (valueAt row c) := fun row hrow => by
  obtain ⟨r, hr⟩ := List.mem_iff_getElem?.mp hrow
  exact (holds_of_column? htyped h hr).typed

/-- The block of a row that passes is skipped only on account of what is no number. -/
theorem blockSkippable_iff {terms : VecPredicate} {r : Nat} {row : Tuple}
    (hrow : tuples[r]? = some row) (hpass : passes terms row) :
    (buildColumns schema tuples).blockSkippable terms (r / kBlockRows) ↔
      ∃ term ∈ terms, PrunedByNaN
        ((block (r / kBlockRows) tuples).map fun row => valueAt row term.column) term
        (valueAt row term.column) := by
  have hb : r / kBlockRows < blockCount tuples.length := by
    have hr := (List.getElem?_eq_some_iff.mp hrow).1
    rw [blockCount, Nat.div_lt_iff_lt_mul (by decide)]
    have hmod := Nat.div_add_mod (tuples.length + kBlockRows - 1) kBlockRows
    have hlt := Nat.mod_lt (tuples.length + kBlockRows - 1) (show 0 < kBlockRows by decide)
    rw [Nat.mul_comm] at hmod
    omega
  rw [TableColumns.blockSkippable, List.any_eq_true]
  refine exists_congr fun term => and_congr_right fun hterm => ?_
  have hterm := List.all_eq_true.mp hpass term hterm
  cases hcol : (buildColumns schema tuples).column? term.column with
  | none =>
    rw [valueAt_of_column?_none htyped hcol (List.mem_of_getElem? hrow)] at hterm
    cases hterm
  | some col =>
    dsimp only
    rw [zones_of_column? htyped hcol hb]
    refine excludes_iff_prunedByNaN (d := col.type) ?_ ?_ hterm
    · intro v hv
      obtain ⟨row', hrow', rfl⟩ := List.mem_map.mp hv
      exact hasType_of_column? htyped hcol row' (List.mem_of_mem_drop (List.mem_of_mem_take hrow'))
    · exact List.mem_map_of_mem (mem_block hrow)

end Table

end Relite.Vm
