import Relite.Lib.Keyed
import Relite.Vm.Tuple

/-!
# Which rows count as the same

FETCH UNIQUEONLY, the set operations, GROUP BY and PARTITION BY tell rows apart by one
text: for each value its type, what it prints as and the byte 30.
-/
namespace Relite.Vm
open Lib

def separator : UInt8 := 30

/-- `valKey`. -/
def valKey (v : Value) : Bytes := ascii (toString v.typeCode) ++ ascii ":" ++ v.toString

def rowKey (row : Tuple) : Bytes := row.flatMap fun v => valKey v ++ [separator]

def dedupeRows (rows : List Tuple) : List Tuple := firstsBy rowKey rows []

inductive SetOp
  | Union
  | Intersect
  | Except
  deriving DecidableEq

/-- The rows that `visit(SetOpStatement)` yields, UNION ALL among them. -/
def setOpRows (op : SetOp) (all : Bool) (left right : List Tuple) : List Tuple :=
  match op with
  | .Union => if all then left ++ right else dedupeRows (left ++ right)
  | .Intersect => commonBy rowKey true left right
  | .Except => commonBy rowKey false left right

def project (cols : List Nat) (row : Tuple) : Tuple := cols.map fun c => row.getD c .null

/-- The groups of rows that GROUP BY makes. -/
def groupRows (cols : List Nat) (rows : List Tuple) : List (List Tuple) :=
  (groupsBy (fun row => rowKey (project cols row)) rows).map Prod.snd

/-- The positions of the rows in each partition of PARTITION BY. -/
def partitionRows (cols : List Nat) (rows : List Tuple) : List (List Nat) :=
  (groupsBy (fun i => rowKey (project cols (rows.getD i []))) (List.range rows.length)).map Prod.snd

/-! ## What a value prints as -/

def PrintableChar (c : Char) : Prop := 32 ≤ c.toNat ∧ c.toNat < 128

instance (c : Char) : Decidable (PrintableChar c) :=
  inferInstanceAs (Decidable (32 ≤ c.toNat ∧ c.toNat < 128))

/-- Printable characters, which no separator is. -/
def Printable (s : String) : Prop := ∀ c ∈ s.toList, PrintableChar c

/-- A property of the characters of a string, by looking at each of them. -/
theorem forall_of_all {p : Char → Prop} [DecidablePred p] {l : List Char}
    (h : l.all fun c => decide (p c)) : ∀ c ∈ l, p c := fun c hc =>
  of_decide_eq_true (List.all_eq_true.mp h c hc)

theorem Printable.not_mem {s : String} (h : Printable s) : separator ∉ ascii s := by
  intro hmem
  obtain ⟨c, hc, hbyte⟩ := List.mem_map.mp hmem
  obtain ⟨hlow, hhigh⟩ := h c hc
  have : (UInt8.ofNat c.toNat).toNat = 30 := by rw [hbyte]; rfl
  rw [UInt8.toNat_ofNat'] at this
  omega

theorem mem_of_mem_stripZeros {c : Char} {digits : List Char} (h : c ∈ stripZeros digits) :
    c ∈ digits := by
  rw [stripZeros, List.mem_reverse] at h
  exact List.mem_reverse.mp ((List.dropWhile_sublist _).mem h)

theorem forall_append {p : Char → Prop} {s t : String} (hs : ∀ c ∈ s.toList, p c)
    (ht : ∀ c ∈ t.toList, p c) : ∀ c ∈ (s ++ t).toList, p c := by
  intro c hc
  rw [String.toList_append, List.mem_append] at hc
  exact hc.elim (hs c) (ht c)

theorem Printable.append {s t : String} (hs : Printable s) (ht : Printable t) :
    Printable (s ++ t) := forall_append hs ht

/-- The property holds of the characters that finite numbers are written with. -/
structure OfNumbers (p : Char → Prop) : Prop where
  digit : ∀ c : Char, c.isDigit → p c
  mark : ∀ c ∈ ['.', 'e', '+', '-'], p c

section Numbers

variable {p : Char → Prop} (hp : OfNumbers p)
include hp

theorem OfNumbers.nat (n : Nat) : ∀ c ∈ (toString n).toList, p c := by
  intro c hc
  rw [Nat.toString_eq_ofList_toDigits, String.toList_ofList] at hc
  exact hp.digit c (Nat.isDigit_of_mem_toDigits (by decide) (by decide) hc)

theorem OfNumbers.streamDigits (num den : Nat) : ∀ c ∈ (Vm.streamDigits num den).toList, p c := by
  have hmark : ∀ s : String, (∀ c ∈ s.toList, c.isDigit ∨ c ∈ ['.', 'e', '+', '-']) →
      ∀ c ∈ s.toList, p c := fun s hs c hc => (hs c hc).elim (hp.digit c) (hp.mark c)
  have hjoin : ∀ whole frac : List Char, (∀ c ∈ whole, p c) → (∀ c ∈ frac, p c) →
      ∀ c ∈ (String.ofList (if (stripZeros frac).isEmpty then whole
        else whole ++ '.' :: stripZeros frac)).toList, p c := by
    intro whole frac hwhole hfrac c hc
    rw [String.toList_ofList] at hc
    split at hc
    · exact hwhole c hc
    · rcases List.mem_append.mp hc with hc | hc
      · exact hwhole c hc
      · rcases List.mem_cons.mp hc with rfl | hc
        · exact hp.mark _ (by decide)
        · exact hfrac c (mem_of_mem_stripZeros hc)
  have hdigits : ∀ (n k : Nat), (∀ c ∈ (toString n).toList.take k, p c) ∧
      ∀ c ∈ (toString n).toList.drop k, p c := by
    intro n k
    exact ⟨fun c hc => hp.nat n c (List.mem_of_mem_take hc),
      fun c hc => hp.nat n c (List.mem_of_mem_drop hc)⟩
  unfold Vm.streamDigits
  extract_lets expo scaled join
  generalize (if scaled = 10 ^ 6 then (10 ^ 5, expo + 1) else (scaled, expo)) = p
  obtain ⟨scaled', expo'⟩ := p
  dsimp only
  split
  · refine forall_append (forall_append (forall_append (hjoin _ _ (hdigits _ _).1 (hdigits _ _).2)
      (hmark _ (forall_of_all (by decide)))) ?_) ?_
    · split <;> exact hmark _ (forall_of_all (by decide))
    · split
      · exact forall_append (hmark _ (forall_of_all (by decide))) (hp.nat _)
      · exact hp.nat _
  · split
    · refine hjoin _ _ (fun c hc => hp.digit c (by simp_all)) fun c hc => ?_
      rcases List.mem_append.mp hc with hc | hc
      · rw [List.eq_of_mem_replicate hc]
        exact hp.digit _ (by decide)
      · exact hp.nat _ c hc
    · exact hjoin _ _ (hdigits _ _).1 (hdigits _ _).2

end Numbers

theorem ofNumbers_printable : OfNumbers PrintableChar := by
  refine ⟨fun c hdigit => ?_, forall_of_all (by decide)⟩
  simp only [Char.isDigit, Bool.and_eq_true, decide_eq_true_eq, UInt32.le_iff_toNat_le] at hdigit
  exact ⟨le_trans (by decide) hdigit.1, lt_of_le_of_lt hdigit.2 (by decide)⟩

theorem printable_nat (n : Nat) : Printable (toString n) := ofNumbers_printable.nat n

theorem printable_int (n : Int) : Printable (toString n) := by
  cases n with
  | ofNat n => exact printable_nat n
  | negSucc n => exact Printable.append (forall_of_all (by decide)) (printable_nat (n + 1))

theorem printable_streamDigits (num den : Nat) : Printable (streamDigits num den) :=
  ofNumbers_printable.streamDigits num den

theorem printable_formatDouble (bits : UInt64) : Printable (formatDouble bits) := by
  have hsign : Printable (if bits.toNat < 2 ^ 63 then "" else "-") := by
    split <;> exact forall_of_all (by decide)
  unfold formatDouble
  simp only
  split
  · refine hsign.append ?_
    split <;> exact forall_of_all (by decide)
  · split
    · refine (Printable.append ?_ (printable_nat _)).append (forall_of_all (by decide))
      split
      · exact forall_of_all (by decide)
      · exact hsign
    · exact hsign.append (printable_streamDigits _ _)

/-! ## When two values have one key -/

theorem toList_of_ascii {s : String} (hs : Printable s) :
    (ascii s).map (fun b => Char.ofNat b.toNat) = s.toList := by
  rw [ascii, List.map_map]
  refine (List.map_congr_left fun c hc => ?_).trans (List.map_id s.toList)
  have hlt := (hs c hc).2
  rw [Function.comp, UInt8.toNat_ofNat', Nat.mod_eq_of_lt (by omega), Char.ofNat_toNat, id_eq]

theorem ascii_injective {s t : String} (hs : Printable s) (ht : Printable t)
    (h : ascii s = ascii t) : s = t := by
  rw [← String.toList_inj, ← toList_of_ascii hs, ← toList_of_ascii ht, h]

theorem toString_nat_injective {m n : Nat} (h : toString m = toString n) : m = n := by
  rw [Nat.toString_eq_ofList_toDigits, Nat.toString_eq_ofList_toDigits] at h
  have hdigits := congrArg (fun s : String => Nat.ofDigitChars 10 s.toList 0) h
  simpa [Nat.ofDigitChars_ten_toDigits] using hdigits

theorem minus_not_digit {m n : Nat} : toString m ≠ "-" ++ toString n := by
  intro h
  have hmem : '-' ∈ (toString m).toList := by
    rw [h, String.toList_append]
    exact List.mem_append_left _ (by decide)
  rw [Nat.toString_eq_ofList_toDigits, String.toList_ofList] at hmem
  exact absurd (Nat.isDigit_of_mem_toDigits (by decide) (by decide) hmem) (by decide)

theorem toString_int_injective {m n : Int} (h : toString m = toString n) : m = n := by
  cases m with
  | ofNat m =>
    cases n with
    | ofNat n => exact congrArg Int.ofNat (toString_nat_injective h)
    | negSucc n => exact absurd h minus_not_digit
  | negSucc m =>
    cases n with
    | ofNat n => exact absurd h.symm minus_not_digit
    | negSucc n =>
      have h : "-" ++ toString (m + 1) = "-" ++ toString (n + 1) := h
      have hnat : toString (m + 1) = toString (n + 1) := by
        rw [← String.toList_inj] at h ⊢
        simpa [String.toList_append] using h
      exact congrArg Int.negSucc (Nat.succ.inj (toString_nat_injective hnat))

/-- The same value, or doubles that the output stream does not tell apart. -/
def Alike (v w : Value) : Prop :=
  v = w ∨ ∃ a b, v = .double a ∧ w = .double b ∧ formatDouble a = formatDouble b

theorem typeCode_lt (v : Value) : v.typeCode < 5 := by
  cases v <;> simp [Value.typeCode]

theorem valKey_eq (v : Value) : valKey v = UInt8.ofNat (48 + v.typeCode) :: 58 :: v.toString := by
  have hcode : ∀ k < 5, ascii (toString k) ++ ascii ":" = [UInt8.ofNat (48 + k), 58] := by decide
  rw [valKey, hcode _ (typeCode_lt v)]
  rfl

/-- The type is the first byte of the key. -/
theorem typeCode_of_valKey {v w : Value} {a b : Bytes} (h : valKey v ++ a = valKey w ++ b) :
    v.typeCode = w.typeCode ∧ v.toString ++ a = w.toString ++ b := by
  have hinj : ∀ j < 5, ∀ k < 5, UInt8.ofNat (48 + j) = UInt8.ofNat (48 + k) → j = k := by decide
  rw [valKey_eq, valKey_eq] at h
  simp only [List.cons_append, List.cons.injEq, true_and] at h
  exact ⟨hinj _ (typeCode_lt v) _ (typeCode_lt w) h.1, h.2⟩

theorem valKey_eq_iff (v w : Value) : valKey v = valKey w ↔ Alike v w := by
  constructor
  · intro h
    obtain ⟨hcode, htext⟩ := typeCode_of_valKey (a := []) (b := []) (by simpa using h)
    simp only [List.append_nil] at htext
    cases v <;> cases w <;> try (simp [Value.typeCode] at hcode; done)
    case null.null => exact .inl rfl
    case int.int a b =>
      have := ascii_injective (printable_int _) (printable_int _) htext
      exact .inl (congrArg Value.int (Int64.toInt_inj.mp (toString_int_injective this)))
    case bool.bool a b =>
      cases a <;> cases b <;> first | exact .inl rfl | exact absurd htext (by decide)
    case text.text a b => exact .inl (congrArg Value.text htext)
    case double.double a b =>
      exact .inr ⟨a, b, rfl, rfl, ascii_injective (printable_formatDouble a)
        (printable_formatDouble b) htext⟩
  · rintro (rfl | ⟨a, b, rfl, rfl, h⟩)
    · rfl
    · simp only [valKey_eq, Value.toString, Value.typeCode, h]

/-- A key without a text in it has no separator inside. -/
theorem separator_not_mem {v : Value} (h : ∀ s, v ≠ .text s) : separator ∉ valKey v := by
  have htext : separator ∉ v.toString := by
    cases v with
    | null => exact Printable.not_mem (forall_of_all (by decide))
    | int n => exact (printable_int _).not_mem
    | bool b => cases b <;> exact Printable.not_mem (forall_of_all (by decide))
    | text s => exact absurd rfl (h s)
    | double bits => exact (printable_formatDouble bits).not_mem
  have hcode : ∀ k < 5, separator ≠ UInt8.ofNat (48 + k) := by decide
  rw [valKey_eq, List.mem_cons, List.mem_cons]
  rintro (hsep | hsep | hsep)
  · exact hcode _ (typeCode_lt v) hsep
  · exact absurd hsep (by decide)
  · exact htext hsep

/-! ## When two rows have one key -/

theorem rowKey_cons (v : Value) (row : Tuple) :
    rowKey (v :: row) = valKey v ++ separator :: rowKey row := by
  simp [rowKey]

/-- The rows are alike up to a column where the text of `s` goes on where that of `r` ends,
with a separator and the key of further columns of `r`. -/
def RunsInto (r s : Tuple) : Prop :=
  ∃ front front' x y rest rest', r = front ++ .text x :: rest ∧
    s = front' ++ .text (x ++ separator :: y) :: rest' ∧ List.Forall₂ Alike front front' ∧
    rowKey rest = y ++ separator :: rowKey rest'

theorem RunsInto.cons {r s : Tuple} (h : RunsInto r s) {v w : Value} (halike : Alike v w) :
    RunsInto (v :: r) (w :: s) := by
  obtain ⟨front, front', x, y, rest, rest', rfl, rfl, hfront, hkey⟩ := h
  exact ⟨v :: front, w :: front', x, y, rest, rest', rfl, rfl, .cons halike hfront, hkey⟩

/-- Keys that agree although one value's key is longer: both values are texts. -/
theorem runsInto_of_append {v w : Value} {r s : Tuple} {rest : Bytes}
    (hkey : valKey w = valKey v ++ separator :: rest)
    (htail : rowKey r = rest ++ separator :: rowKey s) : RunsInto (v :: r) (w :: s) := by
  obtain ⟨hcode, htext⟩ := typeCode_of_valKey (a := []) (b := separator :: rest)
    (show valKey w ++ [] = valKey v ++ separator :: rest by simpa using hkey)
  have hw : ∃ y, w = .text y := by
    by_contra hno
    refine separator_not_mem (fun y hy => hno ⟨y, hy⟩) (v := w) ?_
    rw [hkey]
    exact List.mem_append_right _ List.mem_cons_self
  obtain ⟨y, rfl⟩ := hw
  cases v <;> try (simp [Value.typeCode] at hcode; done)
  case text x =>
    have hy : y = x ++ separator :: rest := by simpa [Value.toString] using htext
    exact ⟨[], [], x, rest, r, s, rfl, by rw [hy]; rfl, .nil, htail⟩

theorem rowKey_eq_of_alike {r s : Tuple} (h : List.Forall₂ Alike r s) : rowKey r = rowKey s := by
  induction h with
  | nil => rfl
  | cons halike _ ih => rw [rowKey_cons, rowKey_cons, (valKey_eq_iff _ _).mpr halike, ih]

theorem rowKey_append (r s : Tuple) : rowKey (r ++ s) = rowKey r ++ rowKey s := by
  simp [rowKey]

theorem RunsInto.rowKey_eq {r s : Tuple} (h : RunsInto r s) : rowKey r = rowKey s := by
  obtain ⟨front, front', x, y, rest, rest', rfl, rfl, hfront, hkey⟩ := h
  rw [rowKey_append, rowKey_append, rowKey_eq_of_alike hfront, rowKey_cons, rowKey_cons, hkey]
  simp [valKey_eq, Value.toString, Value.typeCode]

/-- Exactly which rows of one width have the same key. -/
theorem rowKey_eq_iff {r s : Tuple} (hlen : r.length = s.length) :
    rowKey r = rowKey s ↔ List.Forall₂ Alike r s ∨ RunsInto r s ∨ RunsInto s r := by
  refine ⟨fun h => ?_, ?_⟩
  · induction r generalizing s with
    | nil =>
      cases s with
      | nil => exact .inl .nil
      | cons w s => cases hlen
    | cons v r ih =>
      cases s with
      | nil => cases hlen
      | cons w s =>
        rw [rowKey_cons, rowKey_cons, List.append_eq_append_iff] at h
        -- one of the two keys begins with the other
        obtain ⟨rest, hkey, htail⟩ | ⟨rest, hkey, htail⟩ := h
        · cases rest with
          | nil =>
            have halike : Alike v w := (valKey_eq_iff v w).mp (by simpa using hkey.symm)
            rcases ih (Nat.succ.inj hlen) (by simpa using htail) with h | h | h
            · exact .inl (.cons halike h)
            · exact .inr (.inl (h.cons halike))
            · have halike' : Alike w v := (valKey_eq_iff w v).mp (by simpa using hkey)
              exact .inr (.inr (h.cons halike'))
          | cons b rest =>
            simp only [List.cons_append, List.cons.injEq] at htail
            obtain ⟨rfl, htail⟩ := htail
            exact .inr (.inl (runsInto_of_append hkey htail))
        · cases rest with
          | nil =>
            have halike : Alike v w := (valKey_eq_iff v w).mp (by simpa using hkey)
            rcases ih (Nat.succ.inj hlen) (by simpa using htail.symm) with h | h | h
            · exact .inl (.cons halike h)
            · exact .inr (.inl (h.cons halike))
            · have halike' : Alike w v := (valKey_eq_iff w v).mp (by simpa using hkey.symm)
              exact .inr (.inr (h.cons halike'))
          | cons b rest =>
            simp only [List.cons_append, List.cons.injEq] at htail
            obtain ⟨rfl, htail⟩ := htail
            exact .inr (.inr (runsInto_of_append hkey htail))
  · rintro (h | h | h)
    · exact rowKey_eq_of_alike h
    · exact h.rowKey_eq
    · exact h.rowKey_eq.symm

/-- No two different rows are alike, and none runs into another one. -/
def ToldApart (rows : List Tuple) : Prop :=
  ∀ r ∈ rows, ∀ s ∈ rows, r ≠ s → ¬List.Forall₂ Alike r s ∧ ¬RunsInto r s

theorem injOn_rowKey_iff {n : Nat} {rows : List Tuple} (hlen : ∀ r ∈ rows, r.length = n) :
    Set.InjOn rowKey {r | r ∈ rows} ↔ ToldApart rows := by
  constructor
  · intro h r hr s hs hne
    have hkey : rowKey r ≠ rowKey s := fun hkey => hne (h hr hs hkey)
    rw [Ne, rowKey_eq_iff ((hlen r hr).trans (hlen s hs).symm)] at hkey
    exact ⟨fun ha => hkey (.inl ha), fun hi => hkey (.inr (.inl hi))⟩
  · intro h r hr s hs hkey
    by_contra hne
    rcases (rowKey_eq_iff ((hlen r hr).trans (hlen s hs).symm)).mp hkey with ha | hi | hi
    · exact (h r hr s hs hne).1 ha
    · exact (h r hr s hs hne).2 hi
    · exact (h s hs r hr (Ne.symm hne)).2 hi

/-! ## The operations -/

theorem length_project (cols : List Nat) (row : Tuple) :
    (project cols row).length = cols.length := by
  simp [project]

theorem length_of_mem_project {cols : List Nat} {rows : List Tuple} :
    ∀ r ∈ rows.map (project cols), r.length = cols.length := by
  intro r hr
  obtain ⟨row, -, rfl⟩ := List.mem_map.mp hr
  exact length_project cols row

theorem map_getD_range (cols : List Nat) (rows : List Tuple) :
    (List.range rows.length).map (fun i => project cols (rows.getD i [])) =
      rows.map (project cols) := by
  refine List.ext_getElem (by simp) fun i h₁ h₂ => ?_
  have hi : i < rows.length := by simpa using h₂
  simp [List.getD, hi]

/-- FETCH UNIQUEONLY, UNION, GROUP BY and PARTITION BY tell rows apart as equality does
exactly if the key tells all rows apart, and so do INTERSECT and EXCEPT on any two rows. -/
theorem row_identity_iff {n : Nat} {left right : List Tuple} (cols : List Nat)
    (hleft : ∀ r ∈ left, r.length = n) (hright : ∀ r ∈ right, r.length = n) :
    (dedupeRows left = firstsBy id left [] ↔ ToldApart left) ∧
    (setOpRows .Union false left right = firstsBy id (left ++ right) [] ↔
      ToldApart (left ++ right)) ∧
    (ToldApart (left ++ right) →
      setOpRows .Intersect false left right = commonBy id true left right ∧
      setOpRows .Except false left right = commonBy id false left right) ∧
    (∀ r ∈ left, ∀ s ∈ right,
      (setOpRows .Intersect false [r] [s] = (if r = s then [r] else []) ∧
        setOpRows .Except false [r] [s] = (if r = s then [] else [r])) ↔ ToldApart [r, s]) ∧
    (groupRows cols left = (groupsBy (project cols) left).map Prod.snd ↔
      ToldApart (left.map (project cols))) ∧
    (partitionRows cols left =
        (groupsBy (fun i => project cols (left.getD i [])) (List.range left.length)).map Prod.snd ↔
      ToldApart (left.map (project cols))) := by
  have hboth : ∀ r ∈ left ++ right, r.length = n := by
    intro r hr
    exact (List.mem_append.mp hr).elim (hleft r) (hright r)
  refine ⟨?_, ?_, ?_, ?_, ?_, ?_⟩
  · exact (firstsBy_eq_iff rowKey left).trans (injOn_rowKey_iff hleft)
  · exact (firstsBy_eq_iff rowKey (left ++ right)).trans (injOn_rowKey_iff hboth)
  · intro h
    have hinj := (injOn_rowKey_iff hboth).mpr h
    exact ⟨commonBy_of_injOn true hinj, commonBy_of_injOn false hinj⟩
  · intro r hr s hs
    have hpair : ∀ t ∈ [r, s], t.length = n := by
      intro t ht
      rcases List.mem_cons.mp ht with rfl | ht
      · exact hleft t hr
      · rw [List.mem_singleton.mp ht]
        exact hright s hs
    refine Iff.trans ?_ (injOn_rowKey_iff hpair)
    simp only [setOpRows, commonBy_pair]
    have hinj : Set.InjOn rowKey {t | t ∈ [r, s]} ↔ (rowKey r = rowKey s → r = s) := by
      constructor
      · intro h hkey
        exact h (by simp) (by simp) hkey
      · intro h a (ha : a ∈ [r, s]) b (hb : b ∈ [r, s]) hkey
        simp only [List.mem_cons, List.not_mem_nil, or_false] at ha hb
        rcases ha with rfl | rfl <;> rcases hb with rfl | rfl
        · rfl
        · exact h hkey
        · exact (h hkey.symm).symm
        · rfl
    rw [hinj]
    by_cases hkey : rowKey r = rowKey s
    · by_cases heq : r = s <;> simp [hkey, heq]
    · have hne : r ≠ s := fun heq => hkey (heq ▸ rfl)
      simp [hkey, hne]
  · exact (groupsBy_eq_iff rowKey (project cols) left).trans
      (injOn_rowKey_iff length_of_mem_project)
  · refine (groupsBy_eq_iff rowKey (fun i => project cols (left.getD i [])) _).trans ?_
    rw [map_getD_range]
    exact injOn_rowKey_iff length_of_mem_project

theorem row_identity_ints :
    (dedupeRows [[.int 1], [.int 1], [.null]] =
      firstsBy id [[.int 1], [.int 1], [.null]] [] ↔ ToldApart [[.int 1], [.int 1], [.null]]) := by
  have hright : ∀ r ∈ ([] : List Tuple), r.length = 1 := by decide
  exact (row_identity_iff [0] (by decide) hright).1

/-- The texts `a`, 30, `3:b` and `c` in one row, `a` and `b`, 30, `3:c` in the other: FETCH
UNIQUEONLY yields the first row only. -/
theorem not_row_identity :
    ∃ r s : Tuple, r.length = s.length ∧ r ≠ s ∧ dedupeRows [r, s] = [r] := by
  refine ⟨[.text (ascii "a" ++ separator :: ascii "3:b"), .text (ascii "c")],
    [.text (ascii "a"), .text (ascii "b" ++ separator :: ascii "3:c")], rfl, by decide, by decide⟩

/-! ## Rows that are told apart -/

theorem count_rowKey {row : Tuple} (h : ∀ v ∈ row, ∀ s, v ≠ .text s) :
    (rowKey row).count separator = row.length := by
  induction row with
  | nil => rfl
  | cons v row ih =>
    have hv : (valKey v).count separator = 0 :=
      List.count_eq_zero.mpr (separator_not_mem (h v List.mem_cons_self))
    rw [rowKey_cons, List.count_append, List.count_cons_self, hv,
      ih fun w hw => h w (List.mem_cons_of_mem v hw), List.length_cons, Nat.zero_add]

theorem eq_of_alike {r s : Tuple} (h : List.Forall₂ Alike r s)
    (hdouble : ∀ bits, Value.double bits ∉ r) : r = s := by
  induction h with
  | nil => rfl
  | cons halike _ ih =>
    rcases halike with rfl | ⟨a, b, rfl, rfl, -⟩
    · rw [ih fun bits hb => hdouble bits (List.mem_cons_of_mem _ hb)]
    · exact absurd List.mem_cons_self (hdouble a)

/-- Rows without doubles and with texts in one column only are told apart. -/
theorem toldApart_of_one_text {n col : Nat} {rows : List Tuple}
    (hlen : ∀ r ∈ rows, r.length = n)
    (htext : ∀ r ∈ rows, ∀ i s, r[i]? = some (.text s) → i = col)
    (hdouble : ∀ r ∈ rows, ∀ bits, Value.double bits ∉ r) : ToldApart rows := by
  intro r hr s hs hne
  refine ⟨fun halike => hne (eq_of_alike halike (hdouble r hr)), ?_⟩
  rintro ⟨front, front', x, y, rest, rest', rfl, rfl, hfront, hkey⟩
  have hplain : ∀ (front rest : Tuple) (x : Bytes), front ++ .text x :: rest ∈ rows →
      ∀ v ∈ rest, ∀ u, v ≠ .text u := by
    rintro front rest x hmem v hv u rfl
    obtain ⟨j, hj⟩ := List.getElem?_of_mem hv
    have hx := htext _ hmem front.length x (by simp)
    have hu := htext _ hmem (front.length + 1 + j) u (by
      rw [List.getElem?_append_right (by omega)]
      simpa [show front.length + 1 + j - front.length = j + 1 by omega] using hj)
    omega
  -- the text has swallowed at least one separator, and the columns after it are as many
  have hcount := congrArg (List.count separator) hkey
  rw [count_rowKey (hplain front rest x hr), List.count_append, List.count_cons_self,
    count_rowKey (hplain front' rest' _ hs)] at hcount
  have hr' := hlen _ hr
  have hs' := hlen _ hs
  have hfl := hfront.length_eq
  simp only [List.length_append, List.length_cons] at hr' hs'
  omega

end Relite.Vm
