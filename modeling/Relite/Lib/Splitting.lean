import Mathlib

/-!
# Text cut at a separator

The pieces that end in the separator, and what comes after the last of them. Pieces that were
written one after another are cut where they were put together, if none has a separator of
its own.
-/
namespace Relite.Lib

variable {α : Type} [DecidableEq α]

/-- The pieces of a text and its rest, where `pending` has been read of the first piece. -/
def cut (sep : α) (pending : List α) : List α → List (List α) × List α
  | [] => ([], pending)
  | c :: text =>
    if c = sep then (pending :: (cut sep [] text).1, (cut sep [] text).2)
    else cut sep (pending ++ [c]) text

/-- Each piece with the separator after it. -/
def joinWith (sep : α) (pieces : List (List α)) : List α := pieces.flatMap (· ++ [sep])

variable {sep : α} {pending : List α}

theorem cut_append (text text' : List α) :
    cut sep pending (text ++ text') =
      ((cut sep pending text).1 ++ (cut sep (cut sep pending text).2 text').1,
        (cut sep (cut sep pending text).2 text').2) := by
  induction text generalizing pending with
  | nil => simp [cut]
  | cons c text ih =>
    rw [List.cons_append, cut, cut]
    split
    · rw [ih, List.cons_append]
    · exact ih

theorem cut_of_not_mem {text : List α} (h : sep ∉ text) :
    cut sep pending text = ([], pending ++ text) := by
  induction text generalizing pending with
  | nil => rw [cut, List.append_nil]
  | cons c text ih =>
    rw [List.mem_cons, not_or] at h
    rw [cut, if_neg (Ne.symm h.1), ih h.2, List.append_assoc, List.singleton_append]

/-- Text without a separator of its own goes to the first piece. -/
theorem cut_pending {text : List α} (h : sep ∉ text) (rest : List α) :
    cut sep pending (text ++ rest) = cut sep (pending ++ text) rest := by
  rw [cut_append, cut_of_not_mem h, List.nil_append]

theorem cut_joinWith {pieces : List (List α)} (h : ∀ piece ∈ pieces, sep ∉ piece) (rest : List α) :
    cut sep [] (joinWith sep pieces ++ rest) =
      (pieces ++ (cut sep [] rest).1, (cut sep [] rest).2) := by
  induction pieces with
  | nil => rfl
  | cons piece pieces ih =>
    rw [List.forall_mem_cons] at h
    rw [joinWith, List.flatMap_cons, ← joinWith, List.append_assoc, List.append_assoc,
      cut_pending h.1, List.nil_append, List.singleton_append, cut, if_pos rfl, ih h.2]
    rfl

theorem sep_not_mem_of_mem_cut (hpending : sep ∉ pending) (text : List α) :
    (∀ piece ∈ (cut sep pending text).1, sep ∉ piece) ∧ sep ∉ (cut sep pending text).2 := by
  induction text generalizing pending with
  | nil => exact ⟨by simp [cut], hpending⟩
  | cons c text ih =>
    rw [cut]
    split
    · obtain ⟨hpieces, hrest⟩ := ih List.not_mem_nil
      exact ⟨List.forall_mem_cons.mpr ⟨hpending, hpieces⟩, hrest⟩
    · rename_i hc
      exact ih (by simp [hpending, Ne.symm hc])

/-- What is counted in a text is counted in its pieces and its rest, save the separators. -/
theorem countP_cut {p : α → Bool} (hsep : p sep = false) (text : List α) :
    (((cut sep pending text).1.map (List.countP p)).sum + (cut sep pending text).2.countP p) =
      pending.countP p + text.countP p := by
  induction text generalizing pending with
  | nil => simp [cut]
  | cons c text ih =>
    rw [cut]
    split
    · rename_i hc
      subst hc
      have hrest := @ih []
      rw [List.countP_nil, Nat.zero_add] at hrest
      rw [List.map_cons, List.sum_cons, List.countP_cons_of_neg (by simp [hsep]), Nat.add_assoc,
        hrest]
    · rw [ih]
      simp only [List.countP_append, List.countP_cons, List.countP_nil]
      omega

end Relite.Lib
