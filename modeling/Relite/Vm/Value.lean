import Relite.Lib.Bytes
import Relite.Lib.FloatOfInt
import Mathlib.Data.Nat.Log

/-!
# Values

The values of a row and how they compare. A double is kept as its 64 bits, and computed
with as a `Float`.
-/
namespace Relite.Vm
open Lib

inductive DataType
  | Int
  | Bool
  | Text
  | Varchar
  | Float
  | Date
  | Timestamp
  deriving DecidableEq, Repr

inductive Value
  | null
  | int (v : Int64)
  | bool (b : Bool)
  | text (s : Bytes)
  | double (bits : UInt64)
  deriving DecidableEq, Repr

instance : Inhabited Value := ⟨.null⟩

namespace Value

def isNull (v : Value) : Bool := v == .null

/-- The fields of a `Value` that are not its own hold zero, false and the empty text. -/
def intValue : Value → Int64
  | int v => v
  | _ => 0

def boolValue : Value → Bool
  | bool b => b
  | _ => false

def textValue : Value → Bytes
  | text s => s
  | _ => []

def isNumeric : Value → Bool
  | int _ => true
  | double _ => true
  | _ => false

def asDouble : Value → Float
  | double bits => Float.ofBits bits
  | v => ofInt64 v.intValue

end Value

/-! ## Text -/

def ascii (s : String) : Bytes := s.toList.map fun c => UInt8.ofNat c.toNat

/-- Division rounded to the nearest integer, ties to even. -/
def divRound (a b : Nat) : Nat :=
  let q := a / b
  let r := 2 * (a % b)
  if r < b ∨ r = b ∧ q % 2 = 0 then q else q + 1

/-- A finite double `bits` is `num / den` up to its sign. -/
def doubleFraction (bits : UInt64) : Nat × Nat :=
  let expo := (bits.toNat >>> 52) % 2048
  let mant := bits.toNat % 2 ^ 52
  let m := if expo = 0 then mant else 2 ^ 52 + mant
  let e : Int := (if expo = 0 then 1 else expo : Nat) - 1075
  (m * 2 ^ e.toNat, 2 ^ (-e).toNat)

def stripZeros (digits : List Char) : List Char :=
  (digits.reverse.dropWhile (· == '0')).reverse

/-- How an output stream writes `num / den > 0`: six significant digits, without
trailing zeros, in scientific form outside of the exponents -4 to 5. -/
def streamDigits (num den : Nat) : String :=
  let expo : Int :=
    if den ≤ num then Nat.log 10 (num / den) else -(Nat.clog 10 ((den + num - 1) / num) : Int)
  let scaled := divRound (num * 10 ^ (5 - expo).toNat) (den * 10 ^ (expo - 5).toNat)
  let (scaled, expo) := if scaled = 10 ^ 6 then (10 ^ 5, expo + 1) else (scaled, expo)
  let digits := (toString scaled).toList
  let join (whole frac : List Char) : String :=
    let frac := stripZeros frac
    String.ofList (if frac.isEmpty then whole else whole ++ '.' :: frac)
  if expo < -4 ∨ 6 ≤ expo then
    let e := toString expo.natAbs
    join (digits.take 1) (digits.drop 1) ++ "e" ++ (if expo < 0 then "-" else "+") ++
      (if e.length < 2 then "0" ++ e else e)
  else if expo < 0 then join ['0'] (List.replicate (-expo - 1).toNat '0' ++ digits)
  else join (digits.take (expo + 1).toNat) (digits.drop (expo + 1).toNat)

def formatDouble (bits : UInt64) : String :=
  let sign := if bits.toNat < 2 ^ 63 then "" else "-"
  if (bits.toNat >>> 52) % 2048 = 2047 then
    sign ++ (if bits.toNat % 2 ^ 52 = 0 then "inf" else "nan")
  else
    let (num, den) := doubleFraction bits
    if num % den = 0 ∧ num / den < 10 ^ 15 then
      (if num = 0 then "" else sign) ++ toString (num / den) ++ ".0"
    else sign ++ streamDigits num den

def Value.toString : Value → Bytes
  | null => ascii "NULL"
  | int v => ascii (ToString.toString v.toInt)
  | bool b => ascii (if b then "TRUE" else "FALSE")
  | text s => s
  | double bits => ascii (formatDouble bits)

/-- The position of the type of a value in `ValueType`. -/
def Value.typeCode : Value → Nat
  | null => 0
  | int _ => 1
  | bool _ => 2
  | text _ => 3
  | double _ => 4

/-- The sign of a three-way comparison, `none` when the values do not compare. -/
def compareValues (a b : Value) : Option Ordering :=
  if a.isNull || b.isNull then none
  else if a.isNumeric && b.isNumeric then
    match a, b with
    | .int a, .int b => some (if a < b then .lt else if b < a then .gt else .eq)
    | a, b =>
      some (if a.asDouble < b.asDouble then .lt else if b.asDouble < a.asDouble then .gt else .eq)
  else
    match a, b with
    | .bool a, .bool b => some (compare a b)
    | .text a, .text b => some (if a < b then .lt else if b < a then .gt else .eq)
    | _, _ => none

def valuesEqual (a b : Value) : Bool := compareValues a b == some .eq

def valueLess (a b : Value) : Bool :=
  if a.isNull || b.isNull then a.isNull && !b.isNull
  else if a.isNumeric && b.isNumeric then compareValues a b == some .lt
  else if a.typeCode ≠ b.typeCode then decide (a.typeCode < b.typeCode)
  else compareValues a b == some .lt

/-! ## Comparing the other way round -/

theorem swap_of_threeWay {p q : Prop} [Decidable p] [Decidable q] (h : p → ¬q) :
    (if q then Ordering.lt else if p then .gt else .eq) =
      (if p then Ordering.lt else if q then .gt else .eq).swap := by
  by_cases hp : p
  · simp [hp, h hp]
  · by_cases hq : q <;> simp [hp, hq]

theorem compareValues_swap (a b : Value) :
    compareValues b a = (compareValues a b).map Ordering.swap := by
  cases a <;> cases b
  case int.int m n => exact congrArg some (swap_of_threeWay Int64.lt_asymm)
  case int.double m n => exact congrArg some (swap_of_threeWay float_lt_asymm)
  case double.int m n => exact congrArg some (swap_of_threeWay float_lt_asymm)
  case double.double m n => exact congrArg some (swap_of_threeWay float_lt_asymm)
  case bool.bool m n => cases m <;> cases n <;> rfl
  case text.text m n => exact congrArg some (swap_of_threeWay List.lt_asymm)
  all_goals rfl

end Relite.Vm
