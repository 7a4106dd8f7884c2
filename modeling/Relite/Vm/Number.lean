import Relite.Vm.Value

/-!
# Numbers as text

`std::stoll`, `std::stod` and `std::to_string` of a double, and the conversion of a double
to an integer. All of them compute with the exact value of a double, a fraction.
-/
namespace Relite.Vm
open Lib

def isSpace (b : UInt8) : Bool := b == 32 || (9 ≤ b && b ≤ 13)

def isDigit (b : UInt8) : Bool := 48 ≤ b && b ≤ 57

def digitsValue (base : Nat) (digits : List Nat) : Nat := digits.foldl (fun n d => base * n + d) 0

/-- The sign that a number starts with, and what follows. -/
def takeSign : Bytes → Bool × Bytes
  | 45 :: s => (true, s)
  | 43 :: s => (false, s)
  | s => (false, s)

def stoll (s : Bytes) : Option Int64 :=
  let (negative, s) := takeSign (s.dropWhile isSpace)
  let digits := s.takeWhile isDigit
  if digits.isEmpty then none
  else
    let n := digitsValue 10 (digits.map fun b => b.toNat - 48)
    let v : Int := if negative then -n else n
    if -2 ^ 63 ≤ v ∧ v < 2 ^ 63 then some (.ofInt v) else none

/-! ## Doubles -/

def signBit : UInt64 := 0x8000000000000000

def infinity : UInt64 := 0x7ff0000000000000

def quietNaN : UInt64 := 0x7ff8000000000000

def isFinite (bits : UInt64) : Bool := (bits.toNat >>> 52) % 2048 ≠ 2047

def isNegative (bits : UInt64) : Bool := 2 ^ 63 ≤ bits.toNat

/-- `static_cast<std::int64_t>` of a double. The language leaves open what becomes of a
value that is out of range; x86-64 yields the smallest integer. -/
def toInt64 (bits : UInt64) : Int64 :=
  let (num, den) := doubleFraction bits
  let n : Int := if isNegative bits then -(num / den : Nat) else (num / den : Nat)
  if isFinite bits ∧ -2 ^ 63 ≤ n ∧ n < 2 ^ 63 then .ofInt n else Int64.minValue

/-- The exponent of two of the last digit of the double nearest to `num / den > 0`. -/
def lastDigit (num den : Nat) : Int :=
  let k : Int := Nat.log2 num - Nat.log2 den
  let floor := if num * 2 ^ (-k).toNat < den * 2 ^ k.toNat then k - 1 else k
  max (floor - 52) (-1074)

/-- The double nearest to `num / den`, and none where `strtod` reports a range error: the
value is too large, or too small and not exact. -/
def roundDouble (num den : Nat) : Option UInt64 :=
  if num = 0 then some 0
  else
    let e := lastDigit num den
    let a := num * 2 ^ (-e).toNat
    let b := den * 2 ^ e.toNat
    let m := divRound a b
    let (m, e) := if m = 2 ^ 53 then (2 ^ 52, e + 1) else (m, e)
    if 971 < e ∨ m < 2 ^ 52 ∧ a % b ≠ 0 then none
    else if m < 2 ^ 52 then some (.ofNat m)
    else some (.ofNat ((e + 1075).toNat * 2 ^ 52 + (m - 2 ^ 52)))

/-- Digits with a point among them, as a number of digits after it and their value. -/
def takeDigits (base : Nat) (digit? : UInt8 → Option Nat) (s : Bytes) :
    Option (Nat × Nat × Bytes) :=
  let isDigit b := (digit? b).isSome
  let whole := s.takeWhile isDigit
  let rest := s.dropWhile isDigit
  let (frac, rest) :=
    match rest with
    | 46 :: t => (t.takeWhile isDigit, t.dropWhile isDigit)
    | _ => ([], rest)
  let digits := (whole ++ frac).filterMap digit?
  if digits.isEmpty then none else some (frac.length, digitsValue base digits, rest)

/-- An exponent after the letter `mark`, if there is one. -/
def takeExponent (mark : UInt8) (s : Bytes) : Int :=
  match s with
  | c :: t =>
    if c = mark ∨ c + 32 = mark then
      let (negative, t) := takeSign t
      let n := digitsValue 10 ((t.takeWhile isDigit).map fun b => b.toNat - 48)
      if negative then -n else n
    else 0
  | [] => 0

def digit? (b : UInt8) : Option Nat := if isDigit b then some (b.toNat - 48) else none

def hexDigit? (b : UInt8) : Option Nat :=
  if isDigit b then some (b.toNat - 48)
  else if 97 ≤ b && b ≤ 102 then some (b.toNat - 87)
  else if 65 ≤ b && b ≤ 70 then some (b.toNat - 55)
  else none

def lower (b : UInt8) : UInt8 := if 65 ≤ b && b ≤ 90 then b + 32 else b

def upper (b : UInt8) : UInt8 := if 97 ≤ b && b ≤ 122 then b - 32 else b

/-- What `strtod` reads after spaces and sign: nothing, a value out of range, or a double. -/
def readDouble (s : Bytes) : Option (Option UInt64) :=
  let word := s.map lower
  if (ascii "inf").isPrefixOf word then some infinity
  else if (ascii "nan").isPrefixOf word then some quietNaN
  else
    match (if (ascii "0x").isPrefixOf word then takeDigits 16 hexDigit? (s.drop 2) else none) with
    | some (frac, n, rest) =>
      let e := takeExponent 112 rest - 4 * frac
      some (roundDouble (n * 2 ^ e.toNat) (2 ^ (-e).toNat))
    | none =>
      (takeDigits 10 digit? s).map fun (frac, n, rest) =>
        let e := takeExponent 101 rest - frac
        roundDouble (n * 10 ^ e.toNat) (10 ^ (-e).toNat)

def stod (s : Bytes) : Option UInt64 :=
  let (negative, s) := takeSign (s.dropWhile isSpace)
  (readDouble s).join.map fun bits => if negative then bits ||| signBit else bits

/-- The digits of `num / den` with six of them after the point. -/
def fixedDigits (num den : Nat) : String :=
  let scaled := divRound (num * 10 ^ 6) den
  let frac := toString (scaled % 10 ^ 6)
  toString (scaled / 10 ^ 6) ++ "." ++ String.ofList (List.replicate (6 - frac.length) '0') ++ frac

/-- `std::to_string` of a double. -/
def doubleToString (bits : UInt64) : String :=
  let sign := if isNegative bits then "-" else ""
  if isFinite bits then
    let (num, den) := doubleFraction bits
    sign ++ fixedDigits num den
  else sign ++ (if bits.toNat % 2 ^ 52 = 0 then "inf" else "nan")

example : stod (ascii " -1.5e1x") = some 0xc02e000000000000 := by decide +kernel

example : doubleToString 0x3fb999999999999a = "0.100000" := by decide +kernel

end Relite.Vm
