import Mathlib.Data.List.Nodup
import Mathlib.Logic.Function.Basic

/-!
# Doubly linked lists

Cells under numbers, each with a pointer to the one before and one to the next. A cell is put
in behind another one, or taken out, by changing the pointers of its neighbours.
-/
namespace Relite.Lib

/-- The pointers of the cells, to the one before and to the next; `none` where there is no cell. -/
abbrev Links := Int → Option (Option Int × Option Int)

/-- The cells of the list follow each other, between `before` and `after`. -/
def Chain (link : Links) : Option Int → List Int → Option Int → Prop
  | _, [], _ => True
  | before, a :: l, after => link a = some (before, l.head?.or after) ∧ Chain link (some a) l after

/-- The next pointer of a cell, if there is one, changed. -/
def setNext (link : Links) (p next : Option Int) : Links :=
  match p with
  | none => link
  | some a => Function.update link a ((link a).map fun x => (x.1, next))

/-- The pointer to the cell before changed. -/
def setPrev (link : Links) (p prev : Option Int) : Links :=
  match p with
  | none => link
  | some a => Function.update link a ((link a).map fun x => (prev, x.2))

variable {link link' : Links} {before after : Option Int} {l l' : List Int} {a b : Int}

theorem setNext_of_ne {p next : Option Int} (h : p ≠ some a) : setNext link p next a = link a := by
  cases p with
  | none => rfl
  | some b => exact Function.update_of_ne (fun he => h (congrArg some he.symm)) _ _

theorem setPrev_of_ne {p prev : Option Int} (h : p ≠ some a) : setPrev link p prev a = link a := by
  cases p with
  | none => rfl
  | some b => exact Function.update_of_ne (fun he => h (congrArg some he.symm)) _ _

theorem Chain.congr (h : Chain link before l after) (hsame : ∀ a ∈ l, link' a = link a) :
    Chain link' before l after := by
  induction l generalizing before with
  | nil => trivial
  | cons a l ih =>
    rw [List.forall_mem_cons] at hsame
    exact ⟨hsame.1.trans h.1, ih h.2 hsame.2⟩

theorem chain_append : Chain link before (l ++ l') after ↔
    Chain link before l (l'.head?.or after) ∧ Chain link (l.getLast?.or before) l' after := by
  induction l generalizing before with
  | nil => simp [Chain]
  | cons a l ih =>
    have hlast : (a :: l).getLast?.or before = l.getLast?.or (some a) := by
      cases l with
      | nil => rfl
      | cons b l => simp [List.getLast?_cons]
    have hhead : (l ++ l').head?.or after = l.head?.or (l'.head?.or after) := by
      rw [List.head?_append, Option.or_assoc]
    rw [List.cons_append, Chain, Chain, ih, hlast, hhead, and_assoc]

theorem Chain.isSome (h : Chain link before l after) (ha : a ∈ l) : (link a).isSome := by
  induction l generalizing before with
  | nil => cases ha
  | cons b l ih =>
    rcases List.mem_cons.mp ha with rfl | ha
    · rw [h.1]
      rfl
    · exact ih h.2 ha

/-- What comes behind a list may change with the next pointer of its last cell. -/
theorem Chain.setNext_last (h : Chain link before l after) (hl : l.Nodup) (after' : Option Int) :
    Chain (setNext link l.getLast? after') before l after' := by
  induction l generalizing before with
  | nil => trivial
  | cons a l ih =>
    obtain ⟨ha, hl⟩ := List.nodup_cons.mp hl
    cases l with
    | nil =>
      refine ⟨?_, trivial⟩
      rw [List.getLast?_singleton, setNext, Function.update_self, h.1]
      rfl
    | cons b l =>
      rw [List.getLast?_cons_cons]
      refine ⟨?_, ih h.2 hl⟩
      rw [setNext_of_ne fun hlast => ha (List.mem_of_getLast? hlast), h.1]
      rfl

theorem Chain.setPrev_head (h : Chain link before l after) (hl : l.Nodup) (before' : Option Int) :
    Chain (setPrev link l.head? before') before' l after := by
  cases l with
  | nil => trivial
  | cons a l =>
    obtain ⟨ha, hl⟩ := List.nodup_cons.mp hl
    refine ⟨?_, h.2.congr fun b hb => ?_⟩
    · rw [List.head?_cons, setPrev, Function.update_self, h.1]
      rfl
    · refine setPrev_of_ne fun hab => ha ?_
      rw [Option.some.inj hab]
      exact hb

/-- What a cell in the midst of a list is linked with. -/
theorem Chain.middle {front back : List Int} (h : Chain link none (front ++ a :: back) none) :
    Chain link none front (some a) ∧ link a = some (front.getLast?, back.head?) ∧
      Chain link (some a) back none := by
  rw [chain_append, Chain] at h
  simpa using h

/-- A cell more, behind another one. -/
theorem Chain.insert_after {front back : List Int} (h : Chain link none (front ++ a :: back) none)
    (hnodup : (front ++ a :: back).Nodup) {new : Int} (hnew : new ∉ front ++ a :: back)
    (hlink : link' new = some (some a, back.head?)) (hsame : ∀ b, b ≠ new → link' b = link b) :
    Chain (setNext (setPrev link' back.head? (some new)) (some a) (some new)) none
      (front ++ a :: new :: back) none := by
  obtain ⟨hfront, ha, hback⟩ := h.middle
  rw [List.nodup_append', List.nodup_cons, List.disjoint_cons_right] at hnodup
  obtain ⟨-, ⟨haback, hbackNodup⟩, hafront, hdisj⟩ := hnodup
  simp only [List.mem_append, List.mem_cons, not_or] at hnew
  obtain ⟨hnfront, hna, hnback⟩ := hnew
  have hhead : ∀ b, b ∉ back → back.head? ≠ some b := fun b hb he => hb (List.mem_of_head? he)
  have hkeep : ∀ b, b ≠ a → b ≠ new → b ∉ back →
      setNext (setPrev link' back.head? (some new)) (some a) (some new) b = link b := by
    intro b hba hbn hb
    rw [setNext_of_ne fun he => hba (Option.some.inj he).symm, setPrev_of_ne (hhead b hb),
      hsame b hbn]
  have hback' : Chain (setPrev link' back.head? (some new)) (some new) back none :=
    (hback.congr fun b hb => hsame b fun he => hnback (he ▸ hb)).setPrev_head hbackNodup _
  rw [chain_append]
  refine ⟨hfront.congr fun b hb => hkeep b (fun he => hafront (he ▸ hb)) (fun he => hnfront (he ▸ hb))
    fun hb' => hdisj hb hb', ?_, ?_, hback'.congr fun b hb => ?_⟩
  · rw [setNext, Function.update_self, setPrev_of_ne (hhead a haback), hsame a (Ne.symm hna), ha]
    simp
  · rw [setNext_of_ne fun he => hna (Option.some.inj he).symm, setPrev_of_ne (hhead new hnback),
      hlink]
    simp
  · exact setNext_of_ne fun he => haback (Option.some.inj he ▸ hb)

/-- A cell less. -/
theorem Chain.remove {front back : List Int} (h : Chain link none (front ++ a :: back) none)
    (hnodup : (front ++ a :: back).Nodup) :
    Chain (setPrev (setNext link front.getLast? back.head?) back.head? front.getLast?) none
      (front ++ back) none := by
  obtain ⟨hfront, -, hback⟩ := h.middle
  rw [List.nodup_append', List.nodup_cons, List.disjoint_cons_right] at hnodup
  obtain ⟨hfrontNodup, ⟨-, hbackNodup⟩, -, hdisj⟩ := hnodup
  have hfront' := hfront.setNext_last hfrontNodup back.head?
  have hback' : Chain (setNext link front.getLast? back.head?) (some a) back none :=
    hback.congr fun b hb => setNext_of_ne fun he => hdisj (List.mem_of_getLast? he) hb
  rw [chain_append, Option.or_none, Option.or_none]
  refine ⟨hfront'.congr fun b hb => setPrev_of_ne fun he => ?_, hback'.setPrev_head hbackNodup _⟩
  exact hdisj hb (List.mem_of_head? he)

end Relite.Lib
