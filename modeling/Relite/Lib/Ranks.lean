import Relite.Lib.SortMerge

/-!
# Ranks in a sorted list

Going through a sorted list with two counters, one of which follows the position and the
other one steps, whenever an element is not tied with the one before it. What comes out is
how many elements, and how many different ones, are less.
-/
namespace Relite.Lib

variable {α : Type}

/-- The counters after the next element, which stands at position `r`. -/
def nextRank (tied : α → α → Bool) (r : Nat) (prev : Option α) (counters : Nat × Nat) (x : α) :
    Nat × Nat :=
  match prev with
  | some p => if tied p x then counters else (r + 1, counters.2 + 1)
  | none => (r + 1, counters.2 + 1)

/-- Each element with its two counters. -/
def rankLoop (tied : α → α → Bool) :
    Nat → Option α → Nat × Nat → List α → List (α × Nat × Nat)
  | _, _, _, [] => []
  | r, prev, counters, x :: l =>
    let counters := nextRank tied r prev counters x
    (x, counters) :: rankLoop tied (r + 1) (some x) counters l

theorem map_fst_rankLoop (tied : α → α → Bool) (l : List α) :
    ∀ r prev counters, (rankLoop tied r prev counters l).map Prod.fst = l := by
  induction l with
  | nil => exact fun _ _ _ => rfl
  | cons x l ih => exact fun r prev counters => congrArg (x :: ·) (ih _ _ _)

/-- One element for each class of tied ones. -/
structure Representatives (less : α → α → Bool) (l reps : List α) : Prop where
  subset : reps ⊆ l
  apart : reps.Pairwise fun a b => same less a b = false
  covers : ∀ x ∈ l, ∃ y ∈ reps, same less x y

theorem Representatives.congr {less : α → α → Bool} {l l' reps : List α}
    (h : Representatives less l reps) (hmem : ∀ x, x ∈ l ↔ x ∈ l') :
    Representatives less l' reps :=
  ⟨fun x hx => (hmem x).mp (h.subset hx), h.apart, fun x hx => h.covers x ((hmem x).mpr hx)⟩

/-- The counters of an element of a list. -/
structure Ranked (less : α → α → Bool) (l : List α) (x : α) (counters : Nat × Nat) : Prop where
  rank : counters.1 = 1 + (l.filter fun y => less y x).length
  dense : ∃ reps, Representatives less (l.filter fun y => less y x) reps ∧
    counters.2 = 1 + reps.length

theorem Ranked.congr {less : α → α → Bool} {l l' : List α} {x : α} {counters : Nat × Nat}
    (h : Ranked less l x counters) (hperm : l.Perm l') : Ranked less l' x counters := by
  have hfilter := hperm.filter fun y => less y x
  obtain ⟨reps, hreps, hdense⟩ := h.dense
  exact ⟨h.rank.trans (by rw [hfilter.length_eq]),
    reps, hreps.congr fun y => hfilter.mem_iff, hdense⟩

/-- The counters that go with the last of the elements seen so far. -/
def Counting (less : α → α → Bool) (seen : List α) (counters : Nat × Nat) : Prop :=
  match seen.getLast? with
  | some p => Ranked less seen p counters
  | none => counters.2 = 0

section

variable {less : α → α → Bool} {seen : List α} {x : α}

/-- Nothing that follows is less. -/
theorem filter_less_append {post : List α} (hsorted : Sorted less (seen ++ x :: post)) :
    (seen ++ x :: post).filter (fun y => less y x) =
      (seen ++ [x]).filter fun y => less y x := by
  have hpost : ∀ y ∈ post, less y x = false := by
    obtain ⟨-, hx, -⟩ := List.pairwise_append.mp hsorted
    exact (List.pairwise_cons.mp hx).1
  have hnil : post.filter (fun y => less y x) = [] :=
    List.filter_eq_nil_iff.mpr fun y hy => by simp [hpost y hy]
  rw [List.filter_append, List.filter_append, List.filter_cons, List.filter_cons, hnil]
  rfl

theorem filter_less_snoc (hirrefl : less x x = false) :
    (seen ++ [x]).filter (fun y => less y x) = seen.filter fun y => less y x := by
  simp [List.filter_append, hirrefl]

/-- The element next to those seen gets its counters. -/
theorem Counting.nextRank {counters : Nat × Nat} (h : Counting less seen counters)
    (hordered : OrderedOn less (seen ++ [x])) (hsorted : Sorted less (seen ++ [x])) :
    Ranked less (seen ++ [x]) x
      (nextRank (same less) seen.length seen.getLast? counters x) := by
  have hx : x ∈ seen ++ [x] := by simp
  have hbefore : ∀ y ∈ seen, less x y = false := fun y hy =>
    (List.pairwise_append.mp hsorted).2.2 y hy x List.mem_cons_self
  have hfilter : (seen ++ [x]).filter (fun y => less y x) = seen.filter fun y => less y x :=
    filter_less_snoc (hordered.irrefl hx)
  unfold Counting at h
  cases hlast : seen.getLast? with
  | none =>
    obtain rfl := List.getLast?_eq_none_iff.mp hlast
    rw [hlast] at h
    refine ⟨by rw [hfilter]; rfl, [], ?_, by simp [Lib.nextRank, h]⟩
    rw [hfilter]
    exact ⟨List.Subset.refl _, List.Pairwise.nil, fun y hy => by cases hy⟩
  | some p =>
    rw [hlast] at h
    have hp : p ∈ seen := List.mem_of_getLast? hlast
    have hp' : p ∈ seen ++ [x] := List.mem_append_left _ hp
    have hmem : ∀ y ∈ seen, y ∈ seen ++ [x] := fun y hy => List.mem_append_left _ hy
    have hlastmax : ∀ y ∈ seen, less p y = false := by
      obtain ⟨front, rfl⟩ := List.getLast?_eq_some_iff.mp hlast
      intro y hy
      rcases List.mem_append.mp hy with hy | hy
      · exact (List.pairwise_append.mp (List.pairwise_append.mp hsorted).1).2.2 y hy p
          List.mem_cons_self
      · obtain rfl := List.mem_singleton.mp hy
        exact hordered.irrefl hp'
    obtain ⟨hrank, reps, hreps, hdense⟩ := h
    rw [Lib.nextRank]
    by_cases htied : same less p x = true
    · -- what is less than the one is less than the other
      rw [if_pos htied]
      have hsame : seen.filter (fun y => less y x) = seen.filter fun y => less y p := by
        refine List.filter_congr fun y hy => ?_
        simp only [same, Bool.and_eq_true, Bool.not_eq_true'] at htied
        rw [Bool.eq_iff_iff]
        exact ⟨fun hyx => hordered.less_of_not_less (hmem y hy) hx hp' hyx htied.1,
          fun hyp => hordered.less_of_not_less (hmem y hy) hp' hx hyp htied.2⟩
      exact ⟨by rw [hfilter, hsame]; exact hrank, reps, by rwa [hfilter, hsame], hdense⟩
    · -- all that was seen is less
      rw [if_neg htied]
      have hpx : less p x := by
        by_contra hnot
        rw [Bool.not_eq_true] at hnot
        exact htied (by simp [same, hnot, hbefore p hp])
      have hall : seen.filter (fun y => less y x) = seen := List.filter_eq_self.mpr fun y hy => by
        rcases hordered.2 p hp' y (hmem y hy) x hx hpx with h | h
        · exact absurd h (by simp [hlastmax y hy])
        · exact h
      refine ⟨?_, reps ++ [p], ?_, ?_⟩
      · rw [hfilter, hall, Nat.add_comm]
      · rw [hfilter, hall]
        refine ⟨?_, ?_, fun y hy => ?_⟩
        · refine List.append_subset.mpr ⟨fun y hy => ?_, List.cons_subset.mpr ⟨hp, List.nil_subset _⟩⟩
          exact (List.mem_filter.mp (hreps.subset hy)).1
        · refine List.pairwise_append.mpr ⟨hreps.apart, List.pairwise_singleton _ _, ?_⟩
          intro a ha b hb
          obtain rfl := List.mem_singleton.mp hb
          simp [same, (List.mem_filter.mp (hreps.subset ha)).2]
        · by_cases hyp : less y p = true
          · obtain ⟨z, hz, htie⟩ := hreps.covers y (List.mem_filter.mpr ⟨hy, hyp⟩)
            exact ⟨z, List.mem_append_left _ hz, htie⟩
          · exact ⟨p, by simp, by simp [same, hlastmax y hy, Bool.not_eq_true _ ▸ hyp]⟩
      · simp only [hdense, List.length_append, List.length_singleton]
        omega

end

/-- On a sorted list the loop counts, for each element, those that are less. -/
theorem rankLoop_ranked {less : α → α → Bool} (l : List α) :
    ∀ (seen : List α) (counters : Nat × Nat), Counting less seen counters →
      OrderedOn less (seen ++ l) → Sorted less (seen ++ l) →
      ∀ e ∈ rankLoop (same less) seen.length seen.getLast? counters l,
        Ranked less (seen ++ l) e.1 e.2 := by
  induction l with
  | nil => exact fun seen counters _ _ _ e he => by cases he
  | cons x l ih =>
    intro seen counters hcount hordered hsorted e he
    have happend : seen ++ x :: l = (seen ++ [x]) ++ l := by simp
    have hsub : seen ++ [x] ⊆ seen ++ x :: l := fun y hy => by
      rw [happend]
      exact List.mem_append_left l hy
    have hsublist : (seen ++ [x]).Sublist (seen ++ x :: l) := by
      rw [happend]
      exact List.sublist_append_left _ _
    have hnext := hcount.nextRank (hordered.subset hsub) (hsorted.sublist hsublist)
    rw [rankLoop, List.mem_cons] at he
    rcases he with rfl | he
    · have hfilter := filter_less_append hsorted
      exact ⟨by rw [hfilter]; exact hnext.rank, by rw [hfilter]; exact hnext.dense⟩
    · rw [happend] at hordered hsorted ⊢
      refine ih (seen ++ [x]) _ ?_ hordered hsorted e (by simpa using he)
      rw [Counting, List.getLast?_concat]
      exact hnext

theorem rankLoop_start {less : α → α → Bool} {l : List α} (hordered : OrderedOn less l)
    (hsorted : Sorted less l) :
    ∀ e ∈ rankLoop (same less) 0 none (0, 0) l, Ranked less l e.1 e.2 :=
  rankLoop_ranked l [] (0, 0) rfl hordered hsorted

end Relite.Lib
