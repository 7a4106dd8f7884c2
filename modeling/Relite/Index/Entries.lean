import Relite.Index.IndexManager
import Mathlib.Data.List.TakeWhile

/-!
# The entries of an index

What an index has for one record id, and that its entries stay in order. `valueLess` is no
order on all values (NaN equals every number, and a large integer compares with a double
after rounding), so `Ordered` asks for one on the keys that there are.
-/
namespace Relite
open Lib Vm

namespace Tree

/-- `valueLess` is a strict weak order on the keys. -/
def Ordered (keys : List Value) : Prop :=
  (∀ a ∈ keys, ∀ b ∈ keys, valueLess a b → valueLess b a = false) ∧
  ∀ a ∈ keys, ∀ b ∈ keys, ∀ c ∈ keys, valueLess a c → valueLess a b ∨ valueLess b c

instance (keys : List Value) : Decidable (Ordered keys) := by unfold Ordered; infer_instance

theorem Ordered.subset {keys keys' : List Value} (h : Ordered keys) (hsub : keys' ⊆ keys) :
    Ordered keys' :=
  ⟨fun a ha b hb => h.1 a (hsub ha) b (hsub hb),
    fun a ha b hb c hc => h.2 a (hsub ha) b (hsub hb) c (hsub hc)⟩

theorem keyEqual_comm (a b : Value) : keyEqual a b = keyEqual b a := Bool.and_comm _ _

section Order

variable {keys : List Value} {a b c : Value}

theorem Ordered.irrefl (h : Ordered keys) (ha : a ∈ keys) : valueLess a a = false := by
  by_contra hlt
  rw [Bool.not_eq_false] at hlt
  exact Bool.false_ne_true ((h.1 a ha a ha hlt).symm.trans hlt)

theorem Ordered.keyEqual_self (h : Ordered keys) (ha : a ∈ keys) : keyEqual a a := by
  simp [keyEqual, h.irrefl ha]

theorem Ordered.trans (h : Ordered keys) (ha : a ∈ keys) (hb : b ∈ keys) (hc : c ∈ keys)
    (hab : valueLess a b) (hbc : valueLess b c) : valueLess a c := by
  rcases h.2 a ha c hc b hb hab with hac | hcb
  · exact hac
  · exact absurd hcb (by simp [h.1 b hb c hc hbc])

/-- What is not less stays so below. -/
theorem Ordered.not_less (h : Ordered keys) (ha : a ∈ keys) (hb : b ∈ keys) (hc : c ∈ keys)
    (hba : valueLess b a = false) (hcb : valueLess c b = false) : valueLess c a = false := by
  by_contra hca
  rw [Bool.not_eq_false] at hca
  rcases h.2 c hc b hb a ha hca with h | h
  · exact Bool.false_ne_true (hcb.symm.trans h)
  · exact Bool.false_ne_true (hba.symm.trans h)

end Order

/-! ## Keys of one type -/

/-- Null comes first, and the other keys are as their ranks are. -/
theorem ordered_of_rank {α : Type} (less : α → α → Prop) (rank : Value → α)
    (hasymm : ∀ a b, less a b → ¬less b a) (hsplit : ∀ a b c, less a c → less a b ∨ less b c)
    {keys : List Value} (h : ∀ a ∈ keys, ∀ b ∈ keys, a ≠ .null → b ≠ .null →
      (valueLess a b ↔ less (rank a) (rank b))) : Ordered keys := by
  have hleft : ∀ b : Value, b ≠ .null → valueLess .null b := fun b hb => by
    cases b <;> first | rfl | exact absurd rfl hb
  have hright : ∀ a : Value, valueLess a .null = false := fun a => by cases a <;> rfl
  refine ⟨fun a ha b hb hab => ?_, fun a ha b hb c hc hac => ?_⟩
  · by_cases hna : a = .null
    · exact hna ▸ hright b
    by_cases hnb : b = .null
    · exact absurd hab (by simp [hnb, hright])
    rw [← Bool.not_eq_true, h b hb a ha hnb hna]
    exact hasymm _ _ ((h a ha b hb hna hnb).mp hab)
  · by_cases hnc : c = .null
    · exact absurd hac (by simp [hnc, hright])
    by_cases hnb : b = .null
    · exact .inr (hnb ▸ hleft c hnc)
    by_cases hna : a = .null
    · exact .inl (hna ▸ hleft b hnb)
    rw [h a ha b hb hna hnb, h b hb c hc hnb hnc]
    exact hsplit _ _ _ ((h a ha c hc hna hnc).mp hac)

theorem hasType_int {v : Value} (h : Tuple.HasType .Int v) (hv : v ≠ .null) : ∃ n, v = .int n := by
  cases v <;> first | exact absurd rfl hv | exact ⟨_, rfl⟩ | cases h

theorem hasType_bool {v : Value} (h : Tuple.HasType .Bool v) (hv : v ≠ .null) :
    ∃ b, v = .bool b := by
  cases v <;> first | exact absurd rfl hv | exact ⟨_, rfl⟩ | cases h

theorem hasType_text {v : Value} (h : Tuple.HasType .Text v) (hv : v ≠ .null) :
    ∃ s, v = .text s := by
  cases v <;> first | exact absurd rfl hv | exact ⟨_, rfl⟩ | cases h

theorem valueLess_int (m n : Int64) : valueLess (.int m) (.int n) = decide (m < n) := by
  by_cases hlt : m < n <;> by_cases hgt : n < m <;>
    simp [valueLess, compareValues, Value.isNull, Value.isNumeric, hlt, hgt]

theorem valueLess_text (m n : Bytes) : valueLess (.text m) (.text n) = decide (m < n) := by
  by_cases hlt : m < n <;> by_cases hgt : n < m <;>
    simp [valueLess, compareValues, Value.isNull, Value.isNumeric, Value.typeCode, hlt, hgt]

theorem ordered_ints {keys : List Value} (h : ∀ k ∈ keys, Tuple.HasType .Int k) : Ordered keys := by
  refine ordered_of_rank (· < ·) Value.intValue (fun a b => Int64.lt_asymm) (fun a b c hac => ?_)
    fun a ha b hb hna hnb => ?_
  · rw [or_iff_not_imp_left, Int64.not_lt]
    exact fun hle => Int64.lt_of_le_of_lt hle hac
  · obtain ⟨m, rfl⟩ := hasType_int (h a ha) hna
    obtain ⟨n, rfl⟩ := hasType_int (h b hb) hnb
    rw [valueLess_int, decide_eq_true_iff]
    rfl

theorem ordered_bools {keys : List Value} (h : ∀ k ∈ keys, Tuple.HasType .Bool k) :
    Ordered keys := by
  refine ordered_of_rank (· < ·) Value.boolValue (fun a b => lt_asymm) (by decide)
    fun a ha b hb hna hnb => ?_
  obtain ⟨m, rfl⟩ := hasType_bool (h a ha) hna
  obtain ⟨n, rfl⟩ := hasType_bool (h b hb) hnb
  cases m <;> cases n <;> decide

theorem ordered_texts {keys : List Value} (h : ∀ k ∈ keys, Tuple.HasType .Text k) :
    Ordered keys := by
  refine ordered_of_rank (· < ·) Value.textValue (fun a b => List.lt_asymm) (fun a b c hac => ?_)
    fun a ha b hb hna hnb => ?_
  · by_contra hnot
    rw [not_or, List.not_lt, List.not_lt] at hnot
    exact List.not_lt.mpr (List.le_trans hnot.2 hnot.1) hac
  · obtain ⟨m, rfl⟩ := hasType_text (h a ha) hna
    obtain ⟨n, rfl⟩ := hasType_text (h b hb) hnb
    rw [valueLess_text, decide_eq_true_iff]
    rfl

/-- The values of one type other than FLOAT are in order. -/
theorem ordered_of_hasType {d : DataType} (hd : d ≠ .Float) {keys : List Value}
    (h : ∀ k ∈ keys, Tuple.HasType d k) : Ordered keys := by
  cases d with
  | Float => exact absurd rfl hd
  | Int => exact ordered_ints h
  | Bool => exact ordered_bools h
  | Text => exact ordered_texts h
  | Varchar | Date | Timestamp =>
    refine ordered_texts fun k hk => ?_
    have htype := h k hk
    cases k <;> trivial

theorem of_threeWay {p q : Prop} [Decidable p] [Decidable q] (hpq : p → ¬q) {cmp : Ordering}
    (h : (if p then .lt else if q then .gt else .eq) = cmp) :
    (decide p = (cmp == .lt)) ∧ (decide q = (cmp == .gt)) ∧ (cmp = .eq → ¬p ∧ ¬q) := by
  subst h
  by_cases hp : p
  · simp [hp, hpq hp]
  · by_cases hq : q <;> simp [hp, hq]

theorem hasType_text_of {d : DataType} {s : Bytes} {v : Value} (hs : Tuple.HasType d (.text s))
    (h : Tuple.HasType d v) : Tuple.HasType .Text v := by
  cases d <;> first | exact hs.elim | (cases v <;> trivial)

/-- How values of one type other than FLOAT compare. -/
theorem less_of_compareValues {d : DataType} (hd : d ≠ .Float) {a b : Value}
    (ha : Tuple.HasType d a) (hb : Tuple.HasType d b) {cmp : Ordering}
    (h : compareValues a b = some cmp) :
    (valueLess a b = (cmp == .lt)) ∧ (valueLess b a = (cmp == .gt)) ∧ (cmp = .eq → a = b) := by
  have hb' : b ≠ .null := by
    rintro rfl
    cases a <;> cases h
  cases a with
  | null => cases h
  | double m => cases d <;> first | exact absurd rfl hd | exact False.elim ha
  | int m =>
    obtain rfl : d = .Int := by cases d <;> first | rfl | exact False.elim ha
    cases b with
    | int n =>
      obtain ⟨hlt, hgt, heq⟩ := of_threeWay Int64.lt_asymm (Option.some.inj h)
      rw [valueLess_int, valueLess_int]
      refine ⟨hlt, hgt, fun he => congrArg Value.int ?_⟩
      exact Int64.le_antisymm (Int64.not_lt.mp (heq he).2) (Int64.not_lt.mp (heq he).1)
    | null => exact absurd rfl hb'
    | _ => exact hb.elim
  | bool m =>
    obtain rfl : d = .Bool := by cases d <;> first | rfl | exact False.elim ha
    cases b with
    | bool n => cases m <;> cases n <;> cases h <;> decide
    | null => exact absurd rfl hb'
    | _ => exact hb.elim
  | text m =>
    cases b with
    | text n =>
      obtain ⟨hlt, hgt, heq⟩ := of_threeWay List.lt_asymm (Option.some.inj h)
      rw [valueLess_text, valueLess_text]
      refine ⟨hlt, hgt, fun he => congrArg Value.text ?_⟩
      exact List.le_antisymm (List.not_lt.mp (heq he).2) (List.not_lt.mp (heq he).1)
    | null => exact absurd rfl hb'
    | _ => exact (hasType_text_of ha hb).elim

/-! ## Entries in order -/

theorem ridLess_trans {a b c : RecordID} (hab : ridLess a b) (hbc : ridLess b c) : ridLess a c := by
  unfold ridLess at hab hbc ⊢
  split at hab <;> split at hbc <;> split <;> simp only [decide_eq_true_eq] at * <;> omega

theorem ridLess_total {a b : RecordID} (hne : a ≠ b) (h : ridLess a b = false) : ridLess b a := by
  have hne' : a.pageId = b.pageId → a.slotId ≠ b.slotId := by
    intro hp hs
    exact hne (by cases a; cases b; simp_all)
  unfold ridLess at h ⊢
  split at h <;> split <;> simp only [decide_eq_true_eq, decide_eq_false_iff_not] at * <;> omega

theorem entryLess_iff (a b : Entry) : entryLess a b ↔
    valueLess a.1 b.1 ∨ valueLess b.1 a.1 = false ∧ ridLess a.2 b.2 := by
  unfold entryLess
  split
  · simp [*]
  · split <;> simp [*]

theorem Ordered.entryLess_trans {keys : List Value} (h : Ordered keys) {a b c : Entry}
    (ha : a.1 ∈ keys) (hb : b.1 ∈ keys) (hc : c.1 ∈ keys) (hab : entryLess a b)
    (hbc : entryLess b c) : entryLess a c := by
  rw [entryLess_iff] at hab hbc ⊢
  rcases hab with hab | ⟨hba, hrab⟩
  · refine .inl ?_
    rcases hbc with hbc | ⟨hcb, -⟩
    · exact h.trans ha hb hc hab hbc
    · rcases h.2 a.1 ha c.1 hc b.1 hb hab with hac | hlt
      · exact hac
      · exact absurd hlt (by simp [hcb])
  · rcases hbc with hbc | ⟨hcb, hrbc⟩
    · refine .inl ?_
      rcases h.2 b.1 hb a.1 ha c.1 hc hbc with hlt | hac
      · exact absurd hlt (by simp [hba])
      · exact hac
    · exact .inr ⟨h.not_less ha hb hc hba hcb, ridLess_trans hrab hrbc⟩

/-- Entries in order, with keys that are ordered. -/
structure Sorted (tree : Tree) : Prop where
  ordered : Ordered (tree.map Prod.fst)
  pairwise : tree.Pairwise fun a b => entryLess a b

theorem sorted_nil : Sorted [] := ⟨by decide, .nil⟩

theorem Sorted.sublist {tree tree' : Tree} (h : tree.Sorted) (hsub : tree'.Sublist tree) :
    tree'.Sorted :=
  ⟨h.ordered.subset (hsub.map Prod.fst).subset, h.pairwise.sublist hsub⟩

theorem Sorted.erase {tree : Tree} (h : tree.Sorted) (key : Value) (rid : RecordID) :
    (tree.erase key rid).Sorted := h.sublist List.eraseP_sublist

/-- Of two different entries one is less. -/
theorem entryLess_total {a b : Entry} (h : entryLess a b = false)
    (hne : ¬(keyEqual a.1 b.1 ∧ a.2 = b.2)) : entryLess b a := by
  have hnot : ¬(valueLess a.1 b.1 ∨ valueLess b.1 a.1 = false ∧ ridLess a.2 b.2) := by
    rw [← entryLess_iff, h]
    exact Bool.false_ne_true
  rw [not_or, Bool.not_eq_true] at hnot
  rw [entryLess_iff]
  cases hba : valueLess b.1 a.1 with
  | true => exact .inl rfl
  | false =>
    have hrid : ridLess a.2 b.2 = false := by simpa [hba] using hnot.2
    refine .inr ⟨hnot.1, ridLess_total (fun he => hne ⟨?_, he⟩) hrid⟩
    simp [keyEqual, hba, hnot.1]

theorem Sorted.insert {tree : Tree} (h : tree.Sorted) {key : Value} (rid : RecordID)
    (hkey : Ordered (key :: tree.map Prod.fst)) : (tree.insert key rid).Sorted := by
  unfold Tree.insert
  split
  · exact h
  rename_i hnew
  generalize hless : (fun e : Entry => entryLess e (key, rid)) = less
  have hsplit : tree.takeWhile less ++ tree.dropWhile less = tree := List.takeWhile_append_dropWhile
  have hpair := h.pairwise
  rw [← hsplit, List.pairwise_append] at hpair
  obtain ⟨hbelow, habove, hacross⟩ := hpair
  have hkeys : ∀ e ∈ tree, e.1 ∈ key :: tree.map Prod.fst := fun e he =>
    List.mem_cons_of_mem _ (List.mem_map_of_mem he)
  have hgreater : ∀ b ∈ tree.dropWhile less, entryLess (key, rid) b := by
    have hsub : tree.dropWhile less ⊆ tree := List.dropWhile_subset _
    have hhead := List.head?_dropWhile_not less tree
    generalize tree.dropWhile less = above at habove hsub hhead
    cases above with
    | nil => exact fun _ h => (by cases h)
    | cons b₀ above =>
      have hnot : entryLess b₀ (key, rid) = false := by
        rw [← hless] at hhead
        simpa using hhead
      have hfirst : entryLess (key, rid) b₀ := by
        refine entryLess_total hnot fun ⟨heq, hrid⟩ => hnew ?_
        exact List.any_eq_true.mpr ⟨b₀, hsub (by simp), by simp [heq, hrid]⟩
      refine List.forall_mem_cons.mpr ⟨hfirst, fun b hb => ?_⟩
      exact hkey.entryLess_trans (by simp) (hkeys b₀ (hsub (by simp))) (hkeys b (hsub (by simp [hb])))
        hfirst ((List.pairwise_cons.mp habove).1 b hb)
  refine ⟨hkey.subset fun k hk => ?_, List.pairwise_append.mpr
    ⟨hbelow, List.pairwise_cons.mpr ⟨hgreater, habove⟩, fun a ha b hb => ?_⟩⟩
  · rw [← hsplit]
    simp only [List.map_append, List.map_cons, List.mem_append, List.mem_cons] at hk ⊢
    tauto
  · rcases List.mem_cons.mp hb with rfl | hb
    · have hsat := List.mem_takeWhile_imp ha
      rw [← hless] at hsat
      exact hsat
    · exact hacross a ha b hb

/-! ## The entries of one record id -/

def keysAt (tree : Tree) (rid : RecordID) : List Value :=
  (tree.filter fun e => e.2 == rid).map Prod.fst

theorem keysAt_erase_of_ne (tree : Tree) (key : Value) {rid r : RecordID} (hne : r ≠ rid) :
    (tree.erase key rid).keysAt r = tree.keysAt r := by
  unfold keysAt Tree.erase
  induction tree with
  | nil => rfl
  | cons e tree ih =>
    rw [List.eraseP_cons]
    cases he : keyEqual e.1 key && e.2 == rid with
    | true =>
      have hrid : e.2 = rid := by simpa using (Bool.and_eq_true_iff.mp he).2
      rw [cond_true, List.filter_cons_of_neg (by simp [hrid, Ne.symm hne])]
    | false =>
      rw [cond_false, List.filter_cons, List.filter_cons]
      split
      · rw [List.map_cons, List.map_cons, ih]
      · exact ih

theorem keysAt_erase_self (tree : Tree) (key : Value) (rid : RecordID) :
    (tree.erase key rid).keysAt rid = (tree.keysAt rid).eraseP fun k => keyEqual k key := by
  unfold keysAt Tree.erase
  induction tree with
  | nil => rfl
  | cons e tree ih =>
    rw [List.eraseP_cons]
    by_cases hrid : e.2 = rid
    · rw [List.filter_cons_of_pos (by simpa using hrid), List.map_cons, List.eraseP_cons]
      cases he : keyEqual e.1 key with
      | true => simp [hrid]
      | false => simp [hrid, ← ih]
    · have hno : (keyEqual e.1 key && e.2 == rid) = false := by simp [hrid]
      rw [hno, cond_false, List.filter_cons_of_neg (by simpa using hrid),
        List.filter_cons_of_neg (by simpa using hrid)]
      exact ih

theorem keysAt_insert_of_ne (tree : Tree) (key : Value) {rid r : RecordID} (hne : r ≠ rid) :
    (tree.insert key rid).keysAt r = tree.keysAt r := by
  unfold keysAt Tree.insert
  split
  · rfl
  · rw [List.filter_append, List.filter_cons_of_neg (by simpa using Ne.symm hne),
      ← List.filter_append, List.takeWhile_append_dropWhile]

theorem keysAt_insert_self {tree : Tree} {rid : RecordID} (h : tree.keysAt rid = [])
    (key : Value) : (tree.insert key rid).keysAt rid = [key] := by
  have hnone : ∀ e ∈ tree, e.2 ≠ rid := by
    simpa [keysAt] using h
  have hfilter : ∀ l : Tree, l ⊆ tree → l.filter (fun e => e.2 == rid) = [] := by
    intro l hl
    rw [List.filter_eq_nil_iff]
    exact fun e he => by simpa using hnone e (hl he)
  unfold keysAt Tree.insert
  rw [if_neg]
  · rw [List.filter_append, List.filter_cons_of_pos (by simp),
      hfilter _ (List.takeWhile_subset _), hfilter _ (List.dropWhile_subset _)]
    rfl
  · rw [List.any_eq_true]
    rintro ⟨e, he, hsame⟩
    exact hnone e he (by simpa using (Bool.and_eq_true_iff.mp hsame).2)

end Tree

end Relite
