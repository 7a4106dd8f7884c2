import Relite.Lib.Bytes
import Mathlib.Data.Nat.Digits.Defs

/-!
# Text streams

An input stream from which decimal numbers are extracted, blanks before them skipped, and
single bytes and runs of bytes taken as they are. An extraction that fails leaves the stream
failed, and a failed stream gives nothing more. What is written with a blank before each
field is read back field by field, as long as a blank follows.
-/
namespace Relite.Lib

structure IStream where
  rest : Bytes
  fail : Bool := false

/-- The values of an integer type. -/
structure IntType where
  low : Int
  high : Int

namespace IntType

def int : IntType := ⟨-2 ^ 31, 2 ^ 31 - 1⟩

def longLong : IntType := ⟨-2 ^ 63, 2 ^ 63 - 1⟩

def uint64 : IntType := ⟨0, 2 ^ 64 - 1⟩

def Holds (type : IntType) (v : Int) : Prop := type.low ≤ v ∧ v ≤ type.high

instance (type : IntType) (v : Int) : Decidable (type.Holds v) :=
  inferInstanceAs (Decidable (_ ∧ _))

end IntType

/-- A number as a stream writes it. -/
def decimal (v : Int) : Bytes :=
  let digits := (Nat.toDigits 10 v.natAbs).map fun c => UInt8.ofNat c.toNat
  if v < 0 then 45 :: digits else digits

namespace IStream

def isSpace (b : UInt8) : Bool := b == 32 || (9 ≤ b && b ≤ 13)

def isDigit (b : UInt8) : Bool := 48 ≤ b && b ≤ 57

def digitsValue (digits : Bytes) : Nat := digits.foldl (fun n b => 10 * n + (b.toNat - 48)) 0

def takeSign : Bytes → Bool × Bytes
  | 45 :: s => (true, s)
  | 43 :: s => (false, s)
  | s => (false, s)

/-- What a sign and digits give of a type: the value, and that it is in range. A minus
sign before a number of a type without one counts down from the type's modulus. -/
def convert (type : IntType) (negative : Bool) (n : Nat) : Int × Bool :=
  if negative && decide (type.low < 0) then
    if type.low ≤ -n then (-n, true) else (type.low, false)
  else if n ≤ type.high then
    (if negative then (type.high + 1 - n) % (type.high + 1) else n, true)
  else (type.high, false)

/-- `in >> v` for an integer. -/
def readInt (type : IntType) (v : Int) : StateM IStream Int := fun s =>
  if s.fail then (v, s)
  else
    match s.rest.dropWhile isSpace with
    | [] => (v, ⟨[], true⟩)
    | b :: rest =>
      let (negative, rest) := takeSign (b :: rest)
      let digits := rest.takeWhile isDigit
      let rest := rest.dropWhile isDigit
      if digits.isEmpty then (0, ⟨rest, true⟩)
      else
        let (v, inRange) := convert type negative (digitsValue digits)
        (v, ⟨rest, !inRange⟩)

/-- `in >> word` for a string. -/
def readWord : StateM IStream Bytes := fun s =>
  if s.fail then ([], s)
  else
    let rest := s.rest.dropWhile isSpace
    let word := rest.takeWhile fun b => !isSpace b
    (word, ⟨rest.dropWhile fun b => !isSpace b, word.isEmpty⟩)

/-- `in.get()`, whose result is not used. -/
def skip : StateM IStream Unit := fun s =>
  if s.fail then ((), s)
  else
    match s.rest with
    | [] => ((), ⟨[], true⟩)
    | _ :: rest => ((), ⟨rest, false⟩)

/-- `in.read` into a buffer of `n` zeros. -/
def read (n : Nat) : StateM IStream Bytes := fun s =>
  if s.fail then (List.replicate n 0, s)
  else if s.rest.length < n then
    (s.rest ++ List.replicate (n - s.rest.length) 0, ⟨[], true⟩)
  else (s.rest.take n, ⟨s.rest.drop n, false⟩)

/-- A loop of `n` rounds. -/
def loop {σ : Type} (step : σ → StateM IStream σ) : Nat → σ → StateM IStream σ
  | 0, x => pure x
  | n + 1, x => do loop step n (← step x)

/-! ## Decimal numbers -/

theorem isDigit_of_char {c : Char} (hc : c.isDigit) :
    isDigit (UInt8.ofNat c.toNat) ∧ (UInt8.ofNat c.toNat).toNat = c.toNat := by
  obtain ⟨hlow, hhigh⟩ : 48 ≤ c.toNat ∧ c.toNat ≤ 57 := by
    simpa [Char.isDigit, UInt32.le_iff_toNat_le] using hc
  have hnat : (UInt8.ofNat c.toNat).toNat = c.toNat := by
    rw [UInt8.toNat_ofNat', Nat.mod_eq_of_lt (by omega)]
  refine ⟨?_, hnat⟩
  simp only [isDigit, Bool.and_eq_true, decide_eq_true_eq, UInt8.le_iff_toNat_le, hnat]
  exact ⟨hlow, hhigh⟩

/-- The digits of a number: there are some, and they are read as the number. -/
theorem digits_spec (n : Nat) :
    let digits := (Nat.toDigits 10 n).map fun c => UInt8.ofNat c.toNat
    digits ≠ [] ∧ (∀ b ∈ digits, isDigit b) ∧ digitsValue digits = n := by
  have hchar : ∀ c ∈ Nat.toDigits 10 n, c.isDigit := fun c hc =>
    Nat.isDigit_of_mem_toDigits (by decide) (by decide) hc
  refine ⟨by simp [Nat.toDigits_ne_nil], ?_, ?_⟩
  · intro b hb
    obtain ⟨c, hc, rfl⟩ := List.mem_map.mp hb
    exact (isDigit_of_char (hchar c hc)).1
  · have hfold : ∀ (cs : List Char) (init : Nat), (∀ c ∈ cs, c.isDigit) →
        (cs.map fun c => UInt8.ofNat c.toNat).foldl (fun n b => 10 * n + (b.toNat - 48)) init =
          Nat.ofDigitChars 10 cs init := by
      intro cs
      induction cs with
      | nil => exact fun _ _ => rfl
      | cons c cs ih =>
        intro init hcs
        rw [List.map_cons, List.foldl_cons, (isDigit_of_char (hcs c (by simp))).2,
          ih _ fun c' hc' => hcs c' (by simp [hc'])]
        simp [Nat.ofDigitChars_eq_foldl]
    rw [digitsValue, hfold _ _ hchar, Nat.ofDigitChars_ten_toDigits]

theorem takeSign_of_digit {b : UInt8} (hb : isDigit b) (rest : Bytes) :
    takeSign (b :: rest) = (false, b :: rest) := by
  simp only [isDigit, Bool.and_eq_true, decide_eq_true_eq, UInt8.le_iff_toNat_le] at hb
  rw [takeSign.eq_3]
  · rintro s ⟨rfl, -⟩
    exact absurd hb.1 (by decide)
  · rintro s ⟨rfl, -⟩
    exact absurd hb.1 (by decide)

theorem not_isSpace_of_isDigit {b : UInt8} (hb : isDigit b) : ¬ isSpace b := by
  simp only [isDigit, isSpace, Bool.and_eq_true, Bool.or_eq_true, decide_eq_true_eq,
    UInt8.le_iff_toNat_le, beq_iff_eq, ← UInt8.toNat_inj] at *
  have : (48 : UInt8).toNat = 48 := rfl
  have : (13 : UInt8).toNat = 13 := rfl
  have : (32 : UInt8).toNat = 32 := rfl
  omega

theorem dropWhile_append_of_all {p : UInt8 → Bool} {front : Bytes} (hfront : ∀ b ∈ front, p b)
    {tail : Bytes} (htail : ∀ b ∈ tail.head?, ¬ p b) : (front ++ tail).dropWhile p = tail := by
  rw [List.dropWhile_append_of_pos hfront]
  cases tail with
  | nil => rfl
  | cons b tail => simp [htail b rfl]

theorem takeWhile_append_of_all {p : UInt8 → Bool} {front : Bytes} (hfront : ∀ b ∈ front, p b)
    {tail : Bytes} (htail : ∀ b ∈ tail.head?, ¬ p b) : (front ++ tail).takeWhile p = front := by
  rw [List.takeWhile_append_of_pos hfront]
  cases tail with
  | nil => simp
  | cons b tail => simp [htail b rfl]

/-- A sign or none and digits are read as what they convert to, up to where the digits end. -/
theorem readInt_digits {type : IntType} {v : Int} {negative : Bool} (old : Int)
    {ws digits tail : Bytes} {b : UInt8} {text : Bytes} (hws : ∀ b ∈ ws, isSpace b)
    (hb : ¬ isSpace b) (hsign : takeSign (b :: text) = (negative, digits ++ tail))
    (hne : digits ≠ []) (hdigits : ∀ b ∈ digits, isDigit b)
    (hconvert : convert type negative (digitsValue digits) = (v, true))
    (htail : ∀ b ∈ tail.head?, ¬ isDigit b) :
    readInt type old ⟨ws ++ b :: text, false⟩ = (v, ⟨tail, false⟩) := by
  have hdrop : (ws ++ b :: text).dropWhile isSpace = b :: text :=
    dropWhile_append_of_all hws (by simpa using hb)
  simp only [readInt, Bool.false_eq_true, if_false, hdrop, hsign,
    takeWhile_append_of_all hdigits htail, dropWhile_append_of_all hdigits htail, hconvert,
    List.isEmpty_iff, if_neg hne, Bool.not_true]

/-- A number of the type is read off the stream where something else than a digit follows. -/
theorem readInt_decimal {type : IntType} {v : Int} (hv : type.Holds v) (old : Int) {ws : Bytes}
    (hws : ∀ b ∈ ws, isSpace b) {tail : Bytes} (htail : ∀ b ∈ tail.head?, ¬ isDigit b) :
    readInt type old ⟨ws ++ (decimal v ++ tail), false⟩ = (v, ⟨tail, false⟩) := by
  obtain ⟨hne, hdigits, hvalue⟩ := digits_spec v.natAbs
  obtain ⟨hlow, hhigh⟩ := hv
  rw [decimal]
  split
  · rename_i hneg
    refine readInt_digits old hws (by decide) rfl hne hdigits ?_ htail
    rw [hvalue, convert, if_pos (by simp; omega), if_pos (by omega)]
    simp only [Prod.mk.injEq, and_true]
    omega
  · rename_i hpos
    obtain ⟨b, digits, heq⟩ := List.exists_cons_of_ne_nil hne
    have hb := hdigits b (by simp [heq])
    rw [heq] at hne hdigits hvalue ⊢
    refine readInt_digits old hws (not_isSpace_of_isDigit hb) (takeSign_of_digit hb _) hne hdigits
      ?_ htail
    rw [hvalue, convert, if_neg (by simp), if_pos (by omega)]
    simp only [Bool.false_eq_true, if_false, Prod.mk.injEq, and_true]
    omega

/-! ## Reading fields -/

/-- A blank comes next. -/
def Blank (tail : Bytes) : Prop := ∃ b rest, tail = b :: rest ∧ isSpace b

theorem Blank.not_digit {tail : Bytes} (h : Blank tail) : ∀ b ∈ tail.head?, ¬ isDigit b := by
  obtain ⟨b, rest, rfl, hb⟩ := h
  intro b' hb' hdigit
  obtain rfl := Option.some.inj hb'
  exact not_isSpace_of_isDigit hdigit hb

/-- The reader takes the text off any stream where a blank follows it, and gives `a`; the text
is empty or begins with a blank itself. -/
structure Reads {α : Type} (p : StateM IStream α) (text : Bytes) (a : α) : Prop where
  blank : ∀ tail, Blank tail → Blank (text ++ tail)
  run : ∀ tail, Blank tail → p ⟨text ++ tail, false⟩ = (a, ⟨tail, false⟩)

namespace Reads

variable {α β σ : Type}

theorem pure (a : α) : Reads (Pure.pure a) [] a where
  blank _ h := h
  run _ _ := rfl

theorem bind {p : StateM IStream α} {f : α → StateM IStream β} {text text' : Bytes} {a : α} {b : β}
    (hp : Reads p text a) (hf : Reads (f a) text' b) : Reads (p >>= f) (text ++ text') b where
  blank tail h := by
    rw [List.append_assoc]
    exact hp.blank _ (hf.blank tail h)
  run tail h := by
    rw [List.append_assoc]
    show (match p ⟨text ++ (text' ++ tail), false⟩ with | (a, s) => f a s) = (b, ⟨tail, false⟩)
    rw [hp.run _ (hf.blank tail h)]
    exact hf.run tail h

theorem loop {step : σ → StateM IStream σ} {f : σ → α → σ} {text : α → Bytes} {xs : List α}
    (h : ∀ s, ∀ x ∈ xs, Reads (step s) (text x) (f s x)) (s : σ) :
    Reads (IStream.loop step xs.length s) (xs.flatMap text) (xs.foldl f s) := by
  induction xs generalizing s with
  | nil => exact Reads.pure s
  | cons x xs ih =>
    have hrest := fun s x' (hx' : x' ∈ xs) => h s x' (List.mem_cons_of_mem _ hx')
    exact (h s x (by simp)).bind (ih hrest (f s x))

theorem int {type : IntType} {v : Int} (hv : type.Holds v) (old : Int) {b : UInt8}
    (hb : isSpace b) : Reads (readInt type old) (b :: decimal v) v where
  blank _ _ := ⟨b, _, rfl, hb⟩
  run _ h := readInt_decimal hv old (List.forall_mem_singleton.mpr hb) h.not_digit

end Reads

theorem readWord_append {word tail : Bytes} (hne : word ≠ []) (hword : ∀ b ∈ word, ¬ isSpace b)
    (htail : Blank tail) : readWord ⟨word ++ tail, false⟩ = (word, ⟨tail, false⟩) := by
  obtain ⟨b, rest, rfl⟩ := List.exists_cons_of_ne_nil hne
  obtain ⟨b', rest', rfl, hb'⟩ := htail
  have hdrop : (b :: rest ++ b' :: rest').dropWhile isSpace = b :: rest ++ b' :: rest' := by
    simp [hword b (by simp)]
  have hall : ∀ c ∈ b :: rest, (fun b => !isSpace b) c := fun c hc => by simp [hword c hc]
  have hstop : ∀ c ∈ (b' :: rest').head?, ¬ (fun b => !isSpace b) c := by simp [hb']
  simp only [readWord, Bool.false_eq_true, if_false, hdrop, takeWhile_append_of_all hall hstop,
    dropWhile_append_of_all hall hstop, List.isEmpty_cons]

theorem skip_cons (b : UInt8) (rest : Bytes) : skip ⟨b :: rest, false⟩ = ((), ⟨rest, false⟩) := rfl

theorem read_append (bytes tail : Bytes) :
    read bytes.length ⟨bytes ++ tail, false⟩ = (bytes, ⟨tail, false⟩) := by
  simp [read]

/-! ## Lines -/

/-- Texts that end in a newline each, with one before them, are texts that begin with one. -/
theorem newline_flatMap {α : Type} {f g : α → Bytes} {nl : UInt8} {xs : List α}
    (h : ∀ x, nl :: f x = g x ++ [nl]) : nl :: xs.flatMap f = xs.flatMap g ++ [nl] := by
  induction xs with
  | nil => rfl
  | cons x xs ih =>
    rw [List.flatMap_cons, List.flatMap_cons, ← List.cons_append, h, List.append_assoc,
      List.singleton_append, ih, List.append_assoc]

end IStream

end Relite.Lib
