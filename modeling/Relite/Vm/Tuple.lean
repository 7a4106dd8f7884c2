import Relite.Vm.Value
import Mathlib.Data.List.Forall2
import Mathlib.Data.Nat.Bitwise

/-!
# Tuples

A row is stored as a null bitmap followed by its non-null fields. What `serialize`
writes for a row of the width of its schema is read back by `deserialize` as a row that
`serialize` writes in the same way, whatever values it held (`deserialize_serialize`).
-/
namespace Relite.Vm
open Lib

abbrev Schema := List DataType

abbrev Tuple := List Value

namespace Tuple

def bitmapBytes (n : Nat) : Nat := (n + 7) / 8

def bitmap (nulls : Nat → Bool) (n : Nat) : Bytes :=
  (List.range (bitmapBytes n)).map fun j =>
    UInt8.ofNat (Nat.ofBits fun k : Fin 8 => nulls (8 * j + k))

def nullBit (bytes : Bytes) (i : Nat) : Bool := (bytes.getD (i / 8) 0).toNat.testBit (i % 8)

def writeField : DataType → Value → Bytes
  | .Int, v => toLE 8 v.intValue.toUInt64.toNat
  | .Float, .double bits => toLE 8 bits.toNat
  | .Float, v => toLE 8 (ofInt64 v.intValue).toBits.toNat
  | .Bool, v => [if v.boolValue then 1 else 0]
  | _, v => toLE 4 v.textValue.length ++ v.textValue

def isNullAt (t : Tuple) (i : Nat) : Bool := decide (i < t.length) && (t.getD i .null).isNull

/-- The fields of a row against its schema. A missing value counts as null here, but not
in the bitmap. -/
def writeFields : Schema → Tuple → Bytes
  | [], _ => []
  | _ :: ds, [] => writeFields ds []
  | d :: ds, v :: vs => (if v.isNull then [] else writeField d v) ++ writeFields ds vs

def serialize (t : Tuple) (schema : Schema) : Bytes :=
  bitmap (fun i => decide (i < schema.length) && t.isNullAt i) schema.length ++
    writeFields schema t

def readLE (w : Nat) (what : String) (bytes : Bytes) : Except String (Nat × Bytes) :=
  if bytes.length < w then .error ("tuple: truncated " ++ what)
  else .ok (ofLE (bytes.take w), bytes.drop w)

def readField : DataType → Bytes → Except String (Value × Bytes)
  | .Int, bytes => do
    let (n, rest) ← readLE 8 "i64" bytes
    return (.int (UInt64.ofNat n).toInt64, rest)
  | .Float, bytes => do
    let (n, rest) ← readLE 8 "f64" bytes
    return (.double (UInt64.ofNat n), rest)
  | .Bool, [] => .error "tuple: truncated bool"
  | .Bool, b :: rest => .ok (.bool (b != 0), rest)
  | _, bytes => do
    let (len, rest) ← readLE 4 "u32" bytes
    if rest.length < len then .error "tuple: truncated text"
    else return (.text (rest.take len), rest.drop len)

/-- The loop over the schema from column `i` on, at the bytes that are left. -/
def readFields (nulls : Nat → Bool) : Nat → Schema → Bytes → Except String Tuple
  | _, [], _ => .ok []
  | i, d :: ds, bytes =>
    if nulls i then do
      let vs ← readFields nulls (i + 1) ds bytes
      return .null :: vs
    else do
      let (v, rest) ← readField d bytes
      let vs ← readFields nulls (i + 1) ds rest
      return v :: vs

def deserialize (bytes : Bytes) (schema : Schema) : Except String Tuple :=
  if bytes.length < bitmapBytes schema.length then .error "tuple: truncated null bitmap"
  else readFields (nullBit bytes) 0 schema (bytes.drop (bitmapBytes schema.length))

/-! ## The bitmap -/

@[simp] theorem length_bitmap (nulls : Nat → Bool) (n : Nat) :
    (bitmap nulls n).length = bitmapBytes n := by
  simp [bitmap]

theorem nullBit_bitmap (nulls : Nat → Bool) {n i : Nat} (hi : i < n) (rest : Bytes) :
    nullBit (bitmap nulls n ++ rest) i = nulls i := by
  have hj : i / 8 < bitmapBytes n := by unfold bitmapBytes; omega
  have hk : i % 8 < 8 := Nat.mod_lt _ (by omega)
  have hlt : (Nat.ofBits fun k : Fin 8 => nulls (8 * (i / 8) + k)) < 256 := Nat.ofBits_lt_two_pow _
  have hget : (bitmap nulls n ++ rest).getD (i / 8) 0 =
      UInt8.ofNat (Nat.ofBits fun k : Fin 8 => nulls (8 * (i / 8) + k)) := by
    rw [List.getD_append _ _ _ _ (by simpa using hj)]
    simp [bitmap, hj]
  rw [nullBit, hget, UInt8.toNat_ofNat_of_lt' hlt, Nat.testBit_ofBits_lt _ _ hk]
  simp only
  congr 1
  omega

/-! ## Reading back -/

theorem readLE_toLE (w : Nat) (what : String) (n : Nat) (rest : Bytes) :
    readLE w what (toLE w n ++ rest) = .ok (n % 256 ^ w, rest) := by
  have hlen := length_toLE w n
  rw [readLE, if_neg (by simp), List.take_left' hlen, List.drop_left' hlen, ofLE_toLE]

theorem readField_writeField (d : DataType) {v : Value} (hlen : (writeField d v).length < 2 ^ 32)
    (rest : Bytes) : ∃ v', readField d (writeField d v ++ rest) = .ok (v', rest) ∧
      v'.isNull = false ∧ writeField d v' = writeField d v := by
  have hint : ∀ n : UInt64, UInt64.ofNat (n.toNat % 256 ^ 8) = n := by
    intro n
    have := n.toNat_lt
    rw [Nat.mod_eq_of_lt (by omega), UInt64.ofNat_toNat]
  have htext : ∀ s : Bytes, (toLE 4 s.length ++ s).length < 2 ^ 32 →
      readLE 4 "u32" (toLE 4 s.length ++ (s ++ rest)) = .ok (s.length, s ++ rest) := by
    intro s hs
    simp only [List.length_append, length_toLE] at hs
    rw [readLE_toLE, Nat.mod_eq_of_lt (by omega)]
  cases d with
  | Int =>
    refine ⟨.int v.intValue, ?_, rfl, rfl⟩
    simp [writeField, readField, readLE_toLE, bind, Except.bind, pure, Except.pure]
  | Float =>
    cases v with
    | double bits =>
      refine ⟨.double bits, ?_, rfl, rfl⟩
      simp [writeField, readField, readLE_toLE, bind, Except.bind, pure, Except.pure]
    | _ =>
      refine ⟨.double (ofInt64 (Value.intValue _)).toBits, ?_, rfl, rfl⟩
      simp only [writeField, readField, readLE_toLE, hint, bind, Except.bind, pure, Except.pure]
  | Bool =>
    refine ⟨.bool v.boolValue, ?_, rfl, rfl⟩
    cases hb : v.boolValue <;> simp [writeField, readField, hb]
  | Text | Varchar | Date | Timestamp =>
    refine ⟨.text v.textValue, ?_, rfl, rfl⟩
    simp only [writeField] at hlen ⊢
    simp [readField, htext _ hlen, bind, Except.bind, pure, Except.pure]

theorem readFields_writeFields (nulls : Nat → Bool) (schema : Schema) :
    ∀ (i : Nat) (t : Tuple) (rest : Bytes), t.length = schema.length →
      (∀ j, j < t.length → nulls (i + j) = t.isNullAt j) →
      (writeFields schema t).length < 2 ^ 32 →
      ∃ t', readFields nulls i schema (writeFields schema t ++ rest) = .ok t' ∧
        t'.length = schema.length ∧ (∀ j, t'.isNullAt j = t.isNullAt j) ∧
        writeFields schema t' = writeFields schema t := by
  induction schema with
  | nil =>
    intro i t rest ht _ _
    have : t = [] := List.eq_nil_of_length_eq_zero ht
    subst this
    exact ⟨[], rfl, rfl, fun _ => rfl, rfl⟩
  | cons d ds ih =>
    intro i t rest ht hnulls hlen
    cases t with
    | nil => cases ht
    | cons v vs =>
      have hv : nulls i = v.isNull := by simpa [isNullAt] using hnulls 0 (by simp)
      have hrest : ∀ j, j < vs.length → nulls (i + 1 + j) = isNullAt vs j := by
        intro j hj
        have := hnulls (j + 1) (by simpa using hj)
        rw [show i + (j + 1) = i + 1 + j by omega] at this
        simpa [isNullAt] using this
      have hcons : ∀ (w : Value) (ws : Tuple), w.isNull = v.isNull →
          (∀ j, isNullAt ws j = isNullAt vs j) →
          ∀ j, isNullAt (w :: ws) j = isNullAt (v :: vs) j := by
        intro w ws hw hws j
        cases j with
        | zero => simp [isNullAt, hw]
        | succ j => simpa [isNullAt] using hws j
      simp only [writeFields, List.length_append] at hlen
      obtain ⟨vs', hread, hlen', hnull', hwrite⟩ := ih (i + 1) vs rest (by simpa using ht) hrest
        (by omega)
      cases hn : v.isNull with
      | true =>
        refine ⟨.null :: vs', ?_, by simp [hlen'], hcons _ _ (by rw [hn]; rfl) hnull', ?_⟩
        · simp [readFields, writeFields, hv, hn, hread, bind, Except.bind, pure, Except.pure]
        · simp only [writeFields, hn, hwrite, show Value.null.isNull = true from rfl, if_true]
      | false =>
        simp only [hn, Bool.false_eq_true, if_false] at hlen
        obtain ⟨v', hfield, hnull, hwritev⟩ :=
          readField_writeField d (v := v) (by omega) (writeFields ds vs ++ rest)
        refine ⟨v' :: vs', ?_, by simp [hlen'], hcons _ _ (hnull.trans hn.symm) hnull', ?_⟩
        · simp [readFields, writeFields, hv, hn, hfield, hread, bind, Except.bind, pure,
            Except.pure]
        · simp [writeFields, hn, hnull, hwritev, hwrite]

/-- What is written for a row is read back as a row that is written in the same way. -/
theorem deserialize_serialize {t : Tuple} {schema : Schema} (ht : t.length = schema.length)
    (hlen : (t.serialize schema).length < 2 ^ 32) :
    ∃ t', deserialize (t.serialize schema) schema = .ok t' ∧ t'.length = schema.length ∧
      t'.serialize schema = t.serialize schema := by
  have hbits : ∀ i, i < schema.length → nullBit (t.serialize schema) i = t.isNullAt i := by
    intro i hi
    rw [serialize, nullBit_bitmap _ hi]
    simp [hi]
  simp only [serialize, List.length_append, length_bitmap] at hlen
  obtain ⟨t', hread, hlen', hnull, hwrite⟩ := readFields_writeFields
    (nullBit (t.serialize schema)) schema 0 t [] ht
    (fun j hj => by rw [Nat.zero_add]; exact hbits j (by omega)) (by omega)
  refine ⟨t', ?_, hlen', ?_⟩
  · rw [deserialize, if_neg (by simp [serialize])]
    rw [List.append_nil] at hread
    rw [← hread, serialize, List.drop_left' (length_bitmap _ _)]
  · simp only [serialize, hnull, hwrite]

/-! ## Values of the types of their columns -/

/-- The values that `deserialize` reads for a column of the type. -/
def HasType : DataType → Value → Prop
  | _, .null => True
  | .Int, .int _ => True
  | .Bool, .bool _ => True
  | .Float, .double _ => True
  | .Text, .text _ | .Varchar, .text _ | .Date, .text _ | .Timestamp, .text _ => True
  | _, _ => False

instance (d : DataType) (v : Value) : Decidable (HasType d v) := by
  cases d <;> cases v <;> first | exact .isTrue trivial | exact .isFalse id

abbrev Typed (schema : Schema) (t : Tuple) : Prop := List.Forall₂ HasType schema t

theorem hasType_null (d : DataType) : HasType d .null := by cases d <;> trivial

/-- A value of the type of its column is read back as it is. -/
theorem readField_of_hasType {d : DataType} {v : Value} (h : HasType d v) (hv : v.isNull = false)
    (hlen : (writeField d v).length < 2 ^ 32) (rest : Bytes) :
    readField d (writeField d v ++ rest) = .ok (v, rest) := by
  cases v with
  | null => cases hv
  | int n =>
    cases d <;> cases h
    simp [writeField, readField, readLE_toLE, Value.intValue, bind, Except.bind, pure, Except.pure]
  | bool b =>
    cases d <;> cases h
    cases b <;> simp [writeField, readField, Value.boolValue]
  | double bits =>
    cases d <;> cases h
    simp [writeField, readField, readLE_toLE, bind, Except.bind, pure, Except.pure]
  | text s =>
    have htext : (toLE 4 s.length ++ s).length < 2 ^ 32 →
        readField .Text (toLE 4 s.length ++ s ++ rest) = .ok (.text s, rest) := by
      intro hs
      rw [List.length_append] at hs
      have hmod : s.length % 4294967296 = s.length := Nat.mod_eq_of_lt (by omega)
      simp [readField, readLE_toLE, hmod, bind, Except.bind, pure, Except.pure]
    cases d with
    | Text | Varchar | Date | Timestamp => exact htext hlen
    | Int | Bool | Float => cases h

theorem hasType_of_readField {d : DataType} {bytes rest : Bytes} {v : Value}
    (h : readField d bytes = .ok (v, rest)) : HasType d v := by
  cases d with
  | Bool =>
    cases bytes with
    | nil => cases h
    | cons b bytes => cases h; trivial
  | Int | Float | Text | Varchar | Date | Timestamp =>
    simp only [readField, bind, Except.bind, pure, Except.pure] at h
    split at h
    · cases h
    · first
      | (cases h; trivial)
      | (split at h
         · cases h
         · cases h; trivial)

theorem typed_of_readFields {nulls : Nat → Bool} {schema : Schema} :
    ∀ {i : Nat} {bytes : Bytes} {t : Tuple}, readFields nulls i schema bytes = .ok t →
      Typed schema t := by
  induction schema with
  | nil =>
    rintro i bytes t h
    cases h
    exact .nil
  | cons d ds ih =>
    intro i bytes t h
    simp only [readFields, bind, Except.bind, pure, Except.pure] at h
    split at h
    · split at h
      · cases h
      · rename_i vs hvs
        cases h
        exact .cons (hasType_null d) (ih hvs)
    · split at h
      · cases h
      rename_i field hfield
      split at h
      · cases h
      · rename_i vs hvs
        cases h
        exact .cons (hasType_of_readField hfield) (ih hvs)

theorem typed_of_deserialize {bytes : Bytes} {schema : Schema} {t : Tuple}
    (h : deserialize bytes schema = .ok t) : Typed schema t := by
  unfold deserialize at h
  split at h
  · cases h
  · exact typed_of_readFields h

theorem readFields_of_typed (nulls : Nat → Bool) {schema : Schema} {t : Tuple}
    (ht : Typed schema t) : ∀ (i : Nat) (rest : Bytes),
      (∀ j, j < t.length → nulls (i + j) = t.isNullAt j) →
      (writeFields schema t).length < 2 ^ 32 →
      readFields nulls i schema (writeFields schema t ++ rest) = .ok t := by
  induction ht with
  | nil => exact fun _ _ _ _ => rfl
  | @cons d v ds vs hv _ ih =>
    intro i rest hnulls hlen
    have hfirst : nulls i = v.isNull := by simpa [isNullAt] using hnulls 0 (by simp)
    have hrest : ∀ j, j < vs.length → nulls (i + 1 + j) = isNullAt vs j := by
      intro j hj
      have := hnulls (j + 1) (by simpa using hj)
      rw [show i + (j + 1) = i + 1 + j by omega] at this
      simpa [isNullAt] using this
    simp only [writeFields, List.length_append] at hlen
    have hread := ih (i + 1) rest hrest (by omega)
    cases hn : v.isNull with
    | true =>
      obtain rfl : v = .null := by simpa [Value.isNull] using hn
      simp [readFields, writeFields, hfirst, hn, hread, bind, Except.bind, pure, Except.pure]
    | false =>
      simp only [hn, Bool.false_eq_true, if_false] at hlen
      have hfield := readField_of_hasType hv hn (by omega) (writeFields ds vs ++ rest)
      simp [readFields, writeFields, hfirst, hn, hfield, hread, bind, Except.bind, pure,
        Except.pure]

/-- A row of values of the types of its columns is read back as it is. -/
theorem deserialize_of_typed {t : Tuple} {schema : Schema} (ht : Typed schema t)
    (hlen : (t.serialize schema).length < 2 ^ 32) :
    deserialize (t.serialize schema) schema = .ok t := by
  have hbits : ∀ i, i < schema.length → nullBit (t.serialize schema) i = t.isNullAt i := by
    intro i hi
    rw [serialize, nullBit_bitmap _ hi]
    simp [hi]
  simp only [serialize, List.length_append, length_bitmap] at hlen
  have hread := readFields_of_typed (nullBit (t.serialize schema)) ht 0 []
    (fun j hj => by rw [Nat.zero_add]; exact hbits j (ht.length_eq ▸ hj)) (by omega)
  rw [deserialize, if_neg (by simp [serialize])]
  rw [List.append_nil] at hread
  rw [← hread, serialize, List.drop_left' (length_bitmap _ _)]

/-! ## What is stored of a row -/

/-- What is read back of a value that was written into a column of the type. -/
def stored : DataType → Value → Value
  | _, .null => .null
  | .Int, v => .int v.intValue
  | .Float, .double bits => .double bits
  | .Float, v => .double (ofInt64 v.intValue).toBits
  | .Bool, v => .bool v.boolValue
  | _, v => .text v.textValue

def storedRow (schema : Schema) (t : Tuple) : Tuple := List.zipWith stored schema t

theorem isNull_stored (d : DataType) (v : Value) : (stored d v).isNull = v.isNull := by
  cases v <;> cases d <;> rfl

theorem hasType_stored (d : DataType) (v : Value) : HasType d (stored d v) := by
  cases v <;> cases d <;> trivial

theorem writeField_stored {d : DataType} {v : Value} (hv : v.isNull = false) :
    writeField d (stored d v) = writeField d v := by
  cases v with
  | null => cases hv
  | int n => cases d <;> rfl
  | bool b => cases d <;> rfl
  | text s => cases d <;> rfl
  | double bits => cases d <;> rfl

theorem stored_of_hasType {d : DataType} {v : Value} (h : HasType d v) : stored d v = v := by
  cases v <;> cases d <;> first | rfl | cases h

@[simp] theorem length_storedRow {schema : Schema} {t : Tuple} (ht : t.length = schema.length) :
    (storedRow schema t).length = schema.length := by
  simp [storedRow, ht]

theorem getD_storedRow {schema : Schema} {row : Tuple} (hrow : row.length = schema.length)
    {i : Nat} {d : DataType} (hi : schema[i]? = some d) :
    (storedRow schema row).getD i .null = stored d (row.getD i .null) := by
  obtain ⟨hlt, rfl⟩ := List.getElem?_eq_some_iff.mp hi
  simp [storedRow, hlt, hrow ▸ hlt]

theorem typed_storedRow {schema : Schema} :
    ∀ {t : Tuple}, t.length = schema.length → Typed schema (storedRow schema t) := by
  induction schema with
  | nil => exact fun _ => .nil
  | cons d ds ih =>
    intro t ht
    cases t with
    | nil => cases ht
    | cons v vs => exact .cons (hasType_stored d v) (ih (by simpa using ht))

theorem storedRow_of_typed {schema : Schema} {t : Tuple} (h : Typed schema t) :
    storedRow schema t = t := by
  induction h with
  | nil => rfl
  | cons hv _ ih => exact congrArg₂ List.cons (stored_of_hasType hv) ih

theorem writeFields_storedRow {schema : Schema} : ∀ {t : Tuple}, t.length = schema.length →
    writeFields schema (storedRow schema t) = writeFields schema t := by
  induction schema with
  | nil => intro t ht; rw [List.eq_nil_of_length_eq_zero ht]; rfl
  | cons d ds ih =>
    intro t ht
    cases t with
    | nil => cases ht
    | cons v vs =>
      have hvs := ih (t := vs) (by simpa using ht)
      change (if (stored d v).isNull then [] else writeField d (stored d v)) ++
        writeFields ds (storedRow ds vs) = _
      rw [hvs, isNull_stored, writeFields]
      cases hn : v.isNull with
      | true => rfl
      | false => rw [writeField_stored hn]

theorem isNullAt_storedRow {schema : Schema} {t : Tuple} (ht : t.length = schema.length) (i : Nat) :
    (storedRow schema t).isNullAt i = t.isNullAt i := by
  have hlen : (storedRow schema t).length = t.length := (length_storedRow ht).trans ht.symm
  by_cases hi : i < t.length
  · simp only [isNullAt, hlen, hi, decide_true, Bool.true_and, List.getD_eq_getElem?_getD]
    simp [storedRow, hi, ht ▸ hi, isNull_stored]
  · simp [isNullAt, hlen, hi]

theorem serialize_storedRow {schema : Schema} {t : Tuple} (ht : t.length = schema.length) :
    (storedRow schema t).serialize schema = t.serialize schema := by
  simp only [serialize, writeFields_storedRow ht, isNullAt_storedRow ht]

/-- A row is read back as what is stored of each of its values. -/
theorem deserialize_serialize_eq {schema : Schema} {t : Tuple} (ht : t.length = schema.length)
    (hlen : (t.serialize schema).length < 2 ^ 32) :
    deserialize (t.serialize schema) schema = .ok (storedRow schema t) := by
  rw [← serialize_storedRow ht] at hlen ⊢
  exact deserialize_of_typed (typed_storedRow ht) hlen

theorem length_readFields {nulls : Nat → Bool} {schema : Schema} :
    ∀ {i : Nat} {bytes : Bytes} {t : Tuple}, readFields nulls i schema bytes = .ok t →
      t.length = schema.length := by
  induction schema with
  | nil =>
    rintro i bytes t h
    cases h
    rfl
  | cons d ds ih =>
    intro i bytes t h
    simp only [readFields, bind, Except.bind, pure, Except.pure] at h
    grind

theorem length_deserialize {bytes : Bytes} {schema : Schema} {t : Tuple}
    (h : deserialize bytes schema = .ok t) : t.length = schema.length := by
  unfold deserialize at h
  split at h
  · cases h
  · exact length_readFields h

/-- Bytes that are read as a row which is written as these bytes. -/
def Canonical (schema : Schema) (bytes : Bytes) : Prop :=
  ∃ t, deserialize bytes schema = .ok t ∧ t.serialize schema = bytes

theorem canonical_serialize {t : Tuple} {schema : Schema} (ht : t.length = schema.length)
    (hlen : (t.serialize schema).length < 2 ^ 32) : Canonical schema (t.serialize schema) := by
  obtain ⟨t', hread, -, hwrite⟩ := deserialize_serialize ht hlen
  exact ⟨t', hread, hwrite⟩

theorem Canonical.serialize_eq {schema : Schema} {bytes : Bytes} (h : Canonical schema bytes)
    {t : Tuple} (ht : deserialize bytes schema = .ok t) : t.serialize schema = bytes := by
  obtain ⟨t', hread, hwrite⟩ := h
  rw [hread] at ht
  cases ht
  exact hwrite

end Tuple

end Relite.Vm
