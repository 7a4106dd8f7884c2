import Relite.Vm.Tuple

/-!
# The tuple codec, byte by byte

`Tuple::deserialize` with its read position: each field checks that its bytes are there, and
then reads them. A read outside of the string would be `outside`; it never comes to that, and
a row that was serialized is read back to its last byte.
-/
namespace Relite.Vm.Tuple
open Lib

/-- Why a read ends without a row: the error that is thrown, or a byte that is not there. -/
inductive ReadError
  | thrown (message : String)
  | outside
  deriving DecidableEq, Repr

/-- The byte at an index of the string. -/
def byteAt (bytes : Bytes) (i : Nat) : Except ReadError UInt8 :=
  match bytes[i]? with
  | some b => .ok b
  | none => .error .outside

/-- The `w` bytes from `pos` on. -/
def copy (bytes : Bytes) (pos w : Nat) : Except ReadError Bytes :=
  if pos + w ≤ bytes.length then .ok ((bytes.drop pos).take w) else .error .outside

/-- `readU32`, `readI64` and `readF64`: the number at `pos`, and where it ends. -/
def readWord (w : Nat) (what : String) (bytes : Bytes) (pos : Nat) : Except ReadError (Nat × Nat) :=
  if bytes.length < pos + w then .error (.thrown ("tuple: truncated " ++ what))
  else do return (ofLE (← copy bytes pos w), pos + w)

/-- A field that is not null. -/
def readColumn (bytes : Bytes) (pos : Nat) : DataType → Except ReadError (Value × Nat)
  | .Int => do
    let (n, pos) ← readWord 8 "i64" bytes pos
    return (.int (UInt64.ofNat n).toInt64, pos)
  | .Float => do
    let (n, pos) ← readWord 8 "f64" bytes pos
    return (.double (UInt64.ofNat n), pos)
  | .Bool =>
    if bytes.length < pos + 1 then .error (.thrown "tuple: truncated bool")
    else do return (.bool ((← byteAt bytes pos) != 0), pos + 1)
  | .Text | .Varchar | .Date | .Timestamp => do
    let (len, pos) ← readWord 4 "u32" bytes pos
    if bytes.length < pos + len then .error (.thrown "tuple: truncated text")
    else return (.text (← copy bytes pos len), pos + len)

/-- The loop over the columns, from column `i` and position `pos` on. -/
def readColumns (bytes : Bytes) : Nat → Schema → Nat → Except ReadError (Tuple × Nat)
  | _, [], pos => .ok ([], pos)
  | i, d :: ds, pos => do
    if (← byteAt bytes (i / 8)).toNat.testBit (i % 8) then
      let (vs, pos) ← readColumns bytes (i + 1) ds pos
      return (.null :: vs, pos)
    else
      let (v, pos) ← readColumn bytes pos d
      let (vs, pos) ← readColumns bytes (i + 1) ds pos
      return (v :: vs, pos)

/-- `Tuple::deserialize`, with the position that it has come to. -/
def readTuple (bytes : Bytes) (schema : Schema) : Except ReadError (Tuple × Nat) :=
  if bytes.length < bitmapBytes schema.length then .error (.thrown "tuple: truncated null bitmap")
  else readColumns bytes 0 schema (bitmapBytes schema.length)

/-! ## Reading inside the string -/

/-- A read comes to a result that satisfies `Q` or throws; it reads nothing that is not there. -/
def Inside {α : Type} (Q : α → Prop) : Except ReadError α → Prop
  | .ok a => Q a
  | .error (.thrown _) => True
  | .error .outside => False

theorem Inside.imp {α : Type} {Q R : α → Prop} {x : Except ReadError α} (h : Inside Q x)
    (hqr : ∀ a, Q a → R a) : Inside R x := by
  cases x with
  | ok a => exact hqr a h
  | error e =>
    cases e with
    | thrown message => trivial
    | outside => exact h

theorem Inside.bind {α β : Type} {Q : α → Prop} {R : β → Prop} {x : Except ReadError α}
    (h : Inside Q x) {f : α → Except ReadError β} (hf : ∀ a, Q a → Inside R (f a)) :
    Inside R (x >>= f) := by
  cases x with
  | ok a => exact hf a h
  | error e =>
    cases e with
    | thrown message => trivial
    | outside => exact h

theorem inside_byteAt {bytes : Bytes} {i : Nat} (h : i < bytes.length) :
    Inside (fun _ => True) (byteAt bytes i) := by
  simp [byteAt, h, Inside]

theorem copy_eq {bytes : Bytes} {pos w : Nat} (h : pos + w ≤ bytes.length) :
    copy bytes pos w = .ok ((bytes.drop pos).take w) := if_pos h

theorem inside_readWord (w : Nat) (what : String) (bytes : Bytes) (pos : Nat) :
    Inside (fun r => r.2 = pos + w ∧ r.2 ≤ bytes.length) (readWord w what bytes pos) := by
  unfold readWord
  split
  · trivial
  · rename_i hlen
    rw [copy_eq (Nat.le_of_not_lt hlen)]
    exact ⟨rfl, Nat.le_of_not_lt hlen⟩

theorem inside_readColumn (bytes : Bytes) {pos : Nat} (d : DataType) :
    Inside (fun r => HasType d r.1 ∧ r.2 ≤ bytes.length) (readColumn bytes pos d) := by
  cases d with
  | Int => exact (inside_readWord 8 "i64" bytes pos).bind fun r hr => ⟨trivial, hr.2⟩
  | Float => exact (inside_readWord 8 "f64" bytes pos).bind fun r hr => ⟨trivial, hr.2⟩
  | Bool =>
    rw [readColumn]
    split
    · trivial
    · rename_i hlen
      refine (inside_byteAt (i := pos) (by omega)).bind fun b _ => ?_
      exact ⟨trivial, Nat.le_of_not_lt hlen⟩
  | Text | Varchar | Date | Timestamp =>
    refine (inside_readWord 4 "u32" bytes pos).bind fun r _ => ?_
    dsimp only
    split
    · trivial
    · rename_i hlen
      rw [copy_eq (Nat.le_of_not_lt hlen)]
      exact ⟨trivial, Nat.le_of_not_lt hlen⟩

theorem inside_readColumns {bytes : Bytes} {schema : Schema} :
    ∀ {i pos : Nat}, bitmapBytes (i + schema.length) ≤ bytes.length → pos ≤ bytes.length →
      Inside (fun r => Typed schema r.1 ∧ r.2 ≤ bytes.length) (readColumns bytes i schema pos) := by
  induction schema with
  | nil => exact fun _ hpos => ⟨.nil, hpos⟩
  | cons d ds ih =>
    intro i pos hbitmap hpos
    have hbit : i / 8 < bytes.length := by
      rw [bitmapBytes, List.length_cons] at hbitmap
      omega
    have hrest : bitmapBytes (i + 1 + ds.length) ≤ bytes.length := by
      rwa [Nat.add_assoc, Nat.add_comm 1]
    refine (inside_byteAt hbit).bind fun b _ => ?_
    split
    · exact (ih hrest hpos).bind fun r hr => ⟨.cons (hasType_null d) hr.1, hr.2⟩
    · exact (inside_readColumn bytes d).bind fun v hv =>
        (ih hrest hv.2).bind fun r hr => ⟨.cons hv.1 hr.1, hr.2⟩

/-- Whatever the bytes are, they are read as a row of the schema or an error is thrown. -/
theorem inside_readTuple (bytes : Bytes) (schema : Schema) :
    Inside (fun r => Typed schema r.1 ∧ r.2 ≤ bytes.length) (readTuple bytes schema) := by
  unfold readTuple
  split
  · trivial
  · rename_i hlen
    exact inside_readColumns (by simpa using Nat.le_of_not_lt hlen) (Nat.le_of_not_lt hlen)

/-! ## The position and the rest of the string -/

/-- Both readers come to the same value, one at the position where the rest of the other begins,
or throw the same error. -/
inductive Follows {α : Type} (bytes : Bytes) :
    Except ReadError (α × Nat) → Except String (α × Bytes) → Prop
  | ok (a : α) {pos : Nat} (hpos : pos ≤ bytes.length) :
    Follows bytes (.ok (a, pos)) (.ok (a, bytes.drop pos))
  | thrown (message : String) : Follows bytes (.error (.thrown message)) (.error message)

section

variable {α β : Type} {bytes : Bytes} {pos : Nat}

theorem Follows.bind {x : Except ReadError (α × Nat)} {y : Except String (α × Bytes)}
    (h : Follows bytes x y) {f : α × Nat → Except ReadError (β × Nat)}
    {g : α × Bytes → Except String (β × Bytes)}
    (hfg : ∀ a pos, pos ≤ bytes.length → Follows bytes (f (a, pos)) (g (a, bytes.drop pos))) :
    Follows bytes (x >>= f) (y >>= g) := by
  cases h with
  | ok a hpos => exact hfg a _ hpos
  | thrown message => exact .thrown message

theorem follows_readWord (w : Nat) (what : String) (hpos : pos ≤ bytes.length) :
    Follows bytes (readWord w what bytes pos) (readLE w what (bytes.drop pos)) := by
  unfold readWord readLE
  rw [List.length_drop]
  split
  · rw [if_pos (by omega)]
    exact .thrown _
  · rename_i hlen
    rw [if_neg (by omega), copy_eq (Nat.le_of_not_lt hlen), List.drop_drop]
    exact .ok _ (Nat.le_of_not_lt hlen)

theorem follows_readColumn (hpos : pos ≤ bytes.length) (d : DataType) :
    Follows bytes (readColumn bytes pos d) (readField d (bytes.drop pos)) := by
  cases d with
  | Int => exact (follows_readWord 8 "i64" hpos).bind fun n _ hpos => .ok _ hpos
  | Float => exact (follows_readWord 8 "f64" hpos).bind fun n _ hpos => .ok _ hpos
  | Bool =>
    rw [readColumn]
    split
    · rename_i hlen
      rw [List.drop_of_length_le (by omega)]
      exact .thrown _
    · rename_i hlen
      have hlt : pos < bytes.length := by omega
      rw [List.drop_eq_getElem_cons hlt]
      have hbyte : byteAt bytes pos = .ok bytes[pos] := by simp [byteAt, hlt]
      rw [hbyte]
      exact .ok _ (Nat.le_of_not_lt hlen)
  | Text | Varchar | Date | Timestamp =>
    refine (follows_readWord 4 "u32" hpos).bind fun len pos hpos => ?_
    dsimp only
    rw [List.length_drop]
    split
    · rw [if_pos (by omega)]
      exact .thrown _
    · rename_i hlen
      rw [if_neg (by omega), copy_eq (Nat.le_of_not_lt hlen), List.drop_drop]
      exact .ok _ (Nat.le_of_not_lt hlen)

/-- The loop over the columns gives the row that `readFields` gives. -/
theorem readColumns_eq {schema : Schema} : ∀ {i pos : Nat}, pos ≤ bytes.length →
    bitmapBytes (i + schema.length) ≤ bytes.length →
      (readColumns bytes i schema pos).map Prod.fst =
        (readFields (nullBit bytes) i schema (bytes.drop pos)).mapError .thrown := by
  induction schema with
  | nil => exact fun _ _ => rfl
  | cons d ds ih =>
    intro i pos hpos hbitmap
    have hbit : i / 8 < bytes.length := by
      rw [bitmapBytes, List.length_cons] at hbitmap
      omega
    have hrest : bitmapBytes (i + 1 + ds.length) ≤ bytes.length := by
      rwa [Nat.add_assoc, Nat.add_comm 1]
    have hbyte : byteAt bytes (i / 8) = .ok (bytes.getD (i / 8) 0) := by simp [byteAt, hbit]
    have hcons : ∀ (v : Value) (x : Except ReadError (Tuple × Nat)) (y : Except String Tuple),
        x.map Prod.fst = y.mapError .thrown →
          (x >>= fun r => pure (v :: r.1, r.2)).map Prod.fst =
            (y >>= fun vs => pure (v :: vs)).mapError .thrown := by
      intro v x y h
      cases x <;> cases y <;> simp_all [Except.map, Except.mapError, bind, Except.bind, pure,
        Except.pure]
    have hstep : readColumns bytes i (d :: ds) pos =
        if nullBit bytes i then
          readColumns bytes (i + 1) ds pos >>= fun r => pure (.null :: r.1, r.2)
        else readColumn bytes pos d >>= fun c =>
          readColumns bytes (i + 1) ds c.2 >>= fun r => pure (c.1 :: r.1, r.2) := by
      rw [readColumns, hbyte]
      rfl
    rw [hstep, readFields]
    split
    · exact hcons _ _ _ (ih hpos hrest)
    · have hcolumn := follows_readColumn hpos d
      generalize readColumn bytes pos d = x at hcolumn ⊢
      generalize readField d (bytes.drop pos) = y at hcolumn ⊢
      cases hcolumn with
      | ok v hpos => exact hcons _ _ _ (ih hpos hrest)
      | thrown message => rfl

/-- The row is the one that `deserialize` gives, and the errors are its errors. -/
theorem readTuple_eq (bytes : Bytes) (schema : Schema) :
    (readTuple bytes schema).map Prod.fst = (deserialize bytes schema).mapError .thrown := by
  unfold readTuple deserialize
  split
  · rfl
  · rename_i hlen
    exact readColumns_eq (Nat.le_of_not_lt hlen) (by simpa using Nat.le_of_not_lt hlen)

end

/-! ## Reading what was written -/

theorem readWord_toLE (w : Nat) (what : String) (pre rest : Bytes) (n : Nat) :
    readWord w what (pre ++ (toLE w n ++ rest)) pre.length = .ok (n % 256 ^ w, pre.length + w) := by
  have hlen := length_toLE w n
  have hle : pre.length + w ≤ (pre ++ (toLE w n ++ rest)).length := by
    simp only [List.length_append, hlen]
    omega
  rw [readWord, if_neg (by omega), copy_eq hle, List.drop_left, List.take_left' hlen, ← ofLE_toLE]
  rfl

/-- A field is read as it was written, and what comes next is behind it. -/
theorem readColumn_writeField {d : DataType} {v : Value} (h : HasType d v) (hv : v.isNull = false)
    (htext : v.textValue.length < 2 ^ 32) (pre rest : Bytes) :
    readColumn (pre ++ (writeField d v ++ rest)) pre.length d =
      .ok (v, pre.length + (writeField d v).length) := by
  cases v with
  | null => cases hv
  | int n =>
    cases d <;> cases h
    simp [readColumn, writeField, readWord_toLE, Value.intValue, bind, Except.bind, pure,
      Except.pure]
  | bool b =>
    cases d <;> cases h
    cases b <;>
      simp [readColumn, writeField, byteAt, Value.boolValue, bind, Except.bind, pure, Except.pure]
  | double bits =>
    cases d <;> cases h
    simp [readColumn, writeField, readWord_toLE, bind, Except.bind, pure, Except.pure]
  | text s =>
    have hread : readColumn (pre ++ (toLE 4 s.length ++ s ++ rest)) pre.length .Text =
        .ok (.text s, pre.length + (toLE 4 s.length ++ s).length) := by
      have hmod : s.length % 256 ^ 4 = s.length := Nat.mod_eq_of_lt (by simpa [Value.textValue] using htext)
      have hword := readWord_toLE 4 "u32" pre (s ++ rest) s.length
      have hskip : pre ++ (toLE 4 s.length ++ (s ++ rest)) =
          (pre ++ toLE 4 s.length) ++ (s ++ rest) := by simp
      have hle : pre.length + 4 + s.length ≤
          (pre ++ (toLE 4 s.length ++ (s ++ rest))).length := by
        simp only [List.length_append, length_toLE]
        omega
      rw [hmod] at hword
      rw [List.append_assoc (toLE 4 s.length), readColumn, hword]
      simp only [bind, Except.bind, pure, Except.pure]
      rw [if_neg (by omega), copy_eq hle, hskip, List.drop_left' (by simp), List.take_left]
      simp [Nat.add_assoc]
    cases d with
    | Text | Varchar | Date | Timestamp => exact hread
    | Int | Bool | Float => cases h

/-- The columns of a row are read as they were written, up to where they end. -/
theorem readColumns_writeFields {schema : Schema} {t : Tuple} (ht : Typed schema t) :
    ∀ {bytes pre rest : Bytes} {i : Nat}, bytes = pre ++ (writeFields schema t ++ rest) →
      bitmapBytes (i + t.length) ≤ bytes.length →
      (∀ j, j < t.length → nullBit bytes (i + j) = t.isNullAt j) →
      (∀ v ∈ t, v.textValue.length < 2 ^ 32) →
      readColumns bytes i schema pre.length =
        .ok (t, pre.length + (writeFields schema t).length) := by
  induction ht with
  | nil => exact fun _ _ _ _ => rfl
  | @cons d v ds vs hv _ ih =>
    intro bytes pre rest i hbytes hbitmap hnulls htexts
    rw [List.length_cons] at hbitmap
    have hfirst : nullBit bytes i = v.isNull := by simpa [isNullAt] using hnulls 0 (by simp)
    have hrest : ∀ j, j < vs.length → nullBit bytes (i + 1 + j) = isNullAt vs j := by
      intro j hj
      have := hnulls (j + 1) (by simpa using hj)
      rw [show i + (j + 1) = i + 1 + j by omega] at this
      simpa [isNullAt] using this
    have hbitmap' : bitmapBytes (i + 1 + vs.length) ≤ bytes.length := by
      rwa [Nat.add_assoc, Nat.add_comm 1]
    have hbit : i / 8 < bytes.length := by
      rw [bitmapBytes] at hbitmap
      omega
    have hbyte : byteAt bytes (i / 8) = .ok (bytes.getD (i / 8) 0) := by
      simp [byteAt, hbit]
    obtain ⟨hvText, hvsTexts⟩ := List.forall_mem_cons.mp htexts
    rw [readColumns, hbyte]
    simp only [bind, Except.bind, pure, Except.pure]
    rw [show (bytes.getD (i / 8) 0).toNat.testBit (i % 8) = v.isNull from hfirst]
    cases hnull : v.isNull with
    | true =>
      obtain rfl : v = .null := by simpa [Value.isNull] using hnull
      rw [writeFields, if_pos hnull, List.nil_append] at hbytes ⊢
      rw [if_pos rfl, ih hbytes hbitmap' hrest hvsTexts]
    | false =>
      rw [writeFields, hnull, if_neg (by simp)] at hbytes ⊢
      rw [List.append_assoc] at hbytes
      have hcolumn := readColumn_writeField hv hnull hvText pre (writeFields ds vs ++ rest)
      have hnext := @ih bytes (pre ++ writeField d v) rest (i + 1) (by rw [hbytes]; simp) hbitmap'
        hrest hvsTexts
      rw [List.length_append] at hnext
      rw [if_neg (by simp), ← hbytes] at *
      rw [hcolumn]
      simp only
      rw [hnext, List.length_append, Nat.add_assoc]

/-- A row of values of the types of its columns is read back, up to the last byte. -/
theorem readTuple_serialize {schema : Schema} {t : Tuple} (ht : Typed schema t)
    (htexts : ∀ v ∈ t, v.textValue.length < 2 ^ 32) :
    readTuple (t.serialize schema) schema = .ok (t, (t.serialize schema).length) := by
  have hlen : bitmapBytes schema.length ≤ (t.serialize schema).length := by simp [serialize]
  have hbits : ∀ j, j < t.length → nullBit (t.serialize schema) (0 + j) = t.isNullAt j := by
    intro j hj
    rw [Nat.zero_add, serialize, nullBit_bitmap _ (ht.length_eq ▸ hj)]
    simp [ht.length_eq ▸ hj]
  rw [readTuple, if_neg (by omega)]
  generalize hmap : bitmap (fun i => decide (i < schema.length) && t.isNullAt i) schema.length = map
  have hmapLen : map.length = bitmapBytes schema.length := hmap ▸ length_bitmap _ _
  have hbytes : t.serialize schema = map ++ (writeFields schema t ++ []) := by
    rw [List.append_nil, serialize, hmap]
  have hread := readColumns_writeFields ht (i := 0) hbytes
    (by simpa [ht.length_eq] using hlen) hbits htexts
  rw [← hmapLen, hread, hbytes]
  simp

/-- A row of the schema comes back from its bytes, which are read up to the last one, and any
bytes are read as a row of the width of the schema or an error is thrown, and nothing outside
of them is read. -/
theorem deserialize_exact :
    (∀ (schema : Schema) (t : Tuple), Typed schema t → (∀ v ∈ t, v.textValue.length < 2 ^ 32) →
      deserialize (t.serialize schema) schema = .ok t ∧
        readTuple (t.serialize schema) schema = .ok (t, (t.serialize schema).length)) ∧
    ∀ (schema : Schema) (bytes : Bytes),
      (readTuple bytes schema).map Prod.fst = (deserialize bytes schema).mapError .thrown ∧
        Inside (fun r => r.1.length = schema.length ∧ r.2 ≤ bytes.length)
          (readTuple bytes schema) := by
  refine ⟨fun schema t ht htexts => ?_, fun schema bytes => ⟨readTuple_eq bytes schema, ?_⟩⟩
  · have hread := readTuple_serialize ht htexts
    refine ⟨?_, hread⟩
    have heq := readTuple_eq (t.serialize schema) schema
    rw [hread] at heq
    cases hd : deserialize (t.serialize schema) schema with
    | ok t' =>
      rw [hd] at heq
      exact congrArg Except.ok (Except.ok.inj heq).symm
    | error message => rw [hd] at heq; cases heq
  · exact (inside_readTuple bytes schema).imp fun r hr => ⟨hr.1.length_eq.symm, hr.2⟩

end Relite.Vm.Tuple
