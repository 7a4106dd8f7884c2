import Relite.Lib.SortMerge

/-!
# The outcomes of a merge

A priority queue may have any of several least elements on top. The lists that a merge of
sorted runs can yield are those that take one least head after the other; they are all the
same exactly if tied elements of different runs are equal, and then the merge is stable.
-/
namespace Relite.Lib

variable {α : Type} {less : α → α → Bool} {runs : List (List α)} {out : List α}

/-- No head of a run is less than `x`. -/
def LeastHead (less : α → α → Bool) (runs : List (List α)) (x : α) : Prop :=
  ∀ run ∈ runs, ∀ y ∈ run.head?, less y x = false

/-- A list that a merge of the runs can yield. -/
inductive Merges (less : α → α → Bool) : List (List α) → List α → Prop
  | done {runs : List (List α)} (hdone : ∀ run ∈ runs, run = []) : Merges less runs []
  | take {runs : List (List α)} {out rest : List α} {x : α} (k : Nat)
      (hrun : runs[k]? = some (x :: rest)) (hleast : LeastHead less runs x)
      (hout : Merges less (runs.set k rest) out) : Merges less runs (x :: out)

theorem exists_split {k : Nat} {run : List α} (h : runs[k]? = some run) :
    ∃ before after, runs = before ++ run :: after ∧
      ∀ run', runs.set k run' = before ++ run' :: after := by
  obtain ⟨hk, rfl⟩ := List.getElem?_eq_some_iff.mp h
  refine ⟨runs.take k, runs.drop (k + 1), by simp, fun run' => ?_⟩
  rw [List.set_eq_take_append_cons_drop, if_pos hk]

/-! ## What every outcome is -/

theorem Merges.perm (h : Merges less runs out) : out.Perm runs.flatten := by
  induction h with
  | done hdone => rw [List.flatten_eq_nil_iff.mpr hdone]
  | take k hrun hleast hout ih =>
    obtain ⟨before, after, rfl, hset⟩ := exists_split hrun
    rw [hset] at ih
    simp only [List.flatten_append, List.flatten_cons, List.cons_append] at ih ⊢
    exact (ih.cons _).trans List.perm_middle.symm

/-- A least head of sorted runs is least of all. -/
theorem LeastHead.least {x : α} (hleast : LeastHead less runs x)
    (hsorted : ∀ run ∈ runs, Sorted less run) (h : OrderedOn less runs.flatten)
    (hx : x ∈ runs.flatten) : ∀ y ∈ runs.flatten, less y x = false := by
  intro y hy
  obtain ⟨run, hrun, hyrun⟩ := List.mem_flatten.mp hy
  cases run with
  | nil => cases hyrun
  | cons z run =>
    have hz : less z x = false := hleast _ hrun z rfl
    rcases List.mem_cons.mp hyrun with rfl | htail
    · exact hz
    · have hyz := (List.pairwise_cons.mp (hsorted _ hrun)).1 y htail
      exact h.not_less hx (List.mem_flatten.mpr ⟨_, hrun, List.mem_cons_self⟩) hy hz hyz

/-- What a step of the merge leaves behind. -/
theorem subset_set {k : Nat} {rest : List α} {x : α} (hrun : runs[k]? = some (x :: rest)) :
    (runs.set k rest).flatten ⊆ runs.flatten := by
  obtain ⟨before, after, rfl, hset⟩ := exists_split hrun
  rw [hset]
  intro y hy
  simp only [List.flatten_append, List.flatten_cons, List.mem_append, List.mem_cons] at hy ⊢
  grind

theorem length_set {k : Nat} {x : α} {rest : List α} (hrun : runs[k]? = some (x :: rest)) :
    runs.flatten.length = (runs.set k rest).flatten.length + 1 := by
  obtain ⟨before, after, rfl, hset⟩ := exists_split hrun
  rw [hset]
  simp only [List.flatten_append, List.flatten_cons, List.length_append, List.length_cons]
  omega

theorem sorted_set {k : Nat} {rest : List α} {x : α} (hrun : runs[k]? = some (x :: rest))
    (hsorted : ∀ run ∈ runs, Sorted less run) : ∀ run ∈ runs.set k rest, Sorted less run := by
  intro run hmem
  rcases List.mem_or_eq_of_mem_set hmem with hmem | rfl
  · exact hsorted run hmem
  · exact (List.pairwise_cons.mp (hsorted _ (List.mem_of_getElem? hrun))).2

theorem Merges.sorted (hout : Merges less runs out) (hsorted : ∀ run ∈ runs, Sorted less run)
    (h : OrderedOn less runs.flatten) : Sorted less out := by
  induction hout with
  | done hdone => exact .nil
  | take k hrun hleast hout ih =>
    have hx := List.mem_flatten.mpr ⟨_, List.mem_of_getElem? hrun, List.mem_cons_self⟩
    refine List.pairwise_cons.mpr ⟨fun y hy => ?_,
      ih (sorted_set hrun hsorted) (h.subset (subset_set hrun))⟩
    exact hleast.least hsorted h hx y (subset_set hrun (hout.perm.mem_iff.mp hy))

/-! ## When the merge is stable -/

/-- Tied elements of different runs are equal. -/
def TiesAgree (less : α → α → Bool) (runs : List (List α)) : Prop :=
  runs.Pairwise fun r s => ∀ a ∈ r, ∀ b ∈ s, same less a b → a = b

theorem TiesAgree.set {k : Nat} {rest : List α} {x : α} (hties : TiesAgree less runs)
    (hrun : runs[k]? = some (x :: rest)) : TiesAgree less (runs.set k rest) := by
  obtain ⟨before, after, rfl, hset⟩ := exists_split hrun
  rw [hset]
  unfold TiesAgree at hties ⊢
  simp only [List.pairwise_append, List.pairwise_cons, List.mem_cons] at hties ⊢
  grind

/-- Every outcome has the tied elements in the order of the runs. -/
theorem Merges.filter_same {c : α} (hout : Merges less runs out) (hties : TiesAgree less runs)
    (h : OrderedOn less (c :: runs.flatten)) :
    out.filter (same less c) = runs.flatten.filter (same less c) := by
  induction hout with
  | done hdone => rw [List.flatten_eq_nil_iff.mpr hdone]
  | @take runs out rest x k hrun hleast hout ih =>
    have hnext := ih (hties.set hrun)
      (h.subset (List.cons_subset_cons c (subset_set hrun)))
    obtain ⟨before, after, rfl, hset⟩ := exists_split hrun
    rw [hset] at hnext
    simp only [List.flatten_append, List.flatten_cons, List.filter_append, List.cons_append,
      List.filter_cons] at hnext ⊢
    split
    · rename_i hcx
      -- what is tied in the runs before is equal to the head
      have heq : ∀ y ∈ before.flatten.filter (same less c), y = x := by
        intro y hy
        obtain ⟨hy, hcy⟩ := List.mem_filter.mp hy
        obtain ⟨run, hrun', hyrun⟩ := List.mem_flatten.mp hy
        have hpair := (List.pairwise_append.mp hties).2.2 run hrun' (x :: rest) List.mem_cons_self
        refine hpair y hyrun x List.mem_cons_self ?_
        have hmem : ∀ z ∈ before.flatten ++ [x],
            z ∈ c :: (before ++ (x :: rest) :: after).flatten :=
          fun z hz => List.mem_cons_of_mem c (by simp at hz ⊢; grind)
        exact h.same_trans (hmem y (by simp [hy])) List.mem_cons_self (hmem x (by simp))
          (same_comm hcy) hcx
      rw [hnext, List.eq_replicate_of_mem heq, ← List.cons_append, ← List.cons_append,
        ← List.replicate_succ, List.replicate_succ', List.append_assoc]
      rfl
    · exact hnext

/-- Where tied elements of different runs are equal there is one outcome, the stable sort. -/
theorem Merges.eq_stableSort {l : List α} (hout : Merges less runs out)
    (hsorted : ∀ run ∈ runs, Sorted less run) (hperm : runs.flatten.Perm l)
    (h : OrderedOn less l) (hties : TiesAgree less runs)
    (hfilter : ∀ c ∈ l, runs.flatten.filter (same less c) = l.filter (same less c)) :
    out = stableSort less l := by
  have hflat : OrderedOn less runs.flatten := h.subset fun x hx => hperm.mem_iff.mp hx
  have hl := hout.perm.trans hperm
  refine Sorted.eq_of_filter_same (hout.sorted hsorted hflat) (sorted_stableSort h)
    (hl.trans (stableSort_perm less l).symm) (h.subset fun x hx => hl.mem_iff.mp hx) fun c hc => ?_
  have hc := hl.mem_iff.mp hc
  rw [hout.filter_same hties (h.subset ?_), hfilter c hc, filter_same_stableSort (h.subset ?_)]
  · exact List.cons_subset.mpr ⟨hc, List.Subset.refl l⟩
  · exact List.cons_subset.mpr ⟨hc, fun x hx => hperm.mem_iff.mp hx⟩

/-! ## A queue yields an outcome -/

section Queue

variable {heap : PriorityQueue (frontierLess less)} {q : heap.State}

/-- The runs in the queue and the empty ones. -/
def Holding (heap : PriorityQueue (frontierLess less)) (q : heap.State) (runs : List (List α)) :
    Prop :=
  ((heap.elems q).map fun f => f.1 :: f.2).Perm (runs.filter fun run => !run.isEmpty)

theorem Holding.pushRun {run : List α} (h : Holding heap q runs) :
    Holding heap (pushRun heap run q) (run :: runs) := by
  cases run with
  | nil => exact h
  | cons x rest =>
    refine ((heap.elems_push (x, rest) q).map _).trans ?_
    rw [List.filter_cons_of_pos (by simp)]
    exact h.cons (x :: rest)

theorem Holding.perm {runs' : List (List α)} (h : Holding heap q runs) (hperm : runs.Perm runs') :
    Holding heap q runs' :=
  List.Perm.trans h (hperm.filter _)

theorem Holding.mem_iff (h : Holding heap q runs) {x : α} {rest : List α} :
    (x, rest) ∈ heap.elems q ↔ x :: rest ∈ runs := by
  have hmem := List.Perm.mem_iff (a := x :: rest) h
  simp only [List.mem_map, List.mem_filter, List.isEmpty_cons, Bool.not_false, and_true,
    List.cons.injEq] at hmem
  rw [← hmem]
  constructor
  · exact fun hin => ⟨(x, rest), hin, rfl, rfl⟩
  · rintro ⟨f, hf, rfl, rfl⟩
    exact hf

theorem Holding.pop {x : α} {rest : List α} {q' : heap.State} {k : Nat}
    (h : Holding heap q runs) (hpop : heap.pop q = some ((x, rest), q'))
    (hrun : runs[k]? = some (x :: rest)) :
    Holding heap (Lib.pushRun heap rest q') (runs.set k rest) := by
  obtain ⟨before, after, rfl, hset⟩ := exists_split hrun
  have hothers : Holding heap q' (before ++ after) := by
    have helems := (heap.elems_pop q _ q' hpop).map fun f : Frontier α => f.1 :: f.2
    have hperm := helems.symm.trans (h.perm List.perm_middle)
    rw [List.filter_cons_of_pos (by simp)] at hperm
    exact hperm.cons_inv
  rw [hset]
  exact hothers.pushRun.perm List.perm_middle.symm

/-- The next `n` elements of a queue are an outcome of its runs. -/
theorem merges_drain {n : Nat} (hn : runs.flatten.length = n) (hholding : Holding heap q runs)
    (hmerging : Merging heap q) (h : OrderedOn less (queued heap q)) :
    Merges less runs (drain heap n q) := by
  have hlen : (queued heap q).length = runs.flatten.length := by
    have hflat := List.Perm.flatten hholding
    have hnonempty : ∀ runs : List (List α),
        (runs.filter fun run => !run.isEmpty).flatten = runs.flatten := fun runs =>
      List.flatten_filter_not_isEmpty
    rw [hnonempty, ← List.flatMap_def] at hflat
    exact hflat.length_eq
  induction n generalizing q runs with
  | zero =>
    exact .done (List.flatten_eq_nil_iff.mp (List.length_eq_zero_iff.mp hn))
  | succ n ih =>
    rw [drain]
    cases hpop : heap.pop q with
    | none =>
      have hnil := heap.elems_none q hpop
      simp [queued, hnil, hn] at hlen
    | some p =>
      obtain ⟨⟨x, rest⟩, q'⟩ := p
      have helems := heap.elems_pop q _ q' hpop
      obtain ⟨k, hk⟩ := List.mem_iff_getElem?.mp
        (hholding.mem_iff.mp (helems.mem_iff.mpr List.mem_cons_self))
      have hperm := queued_pop hpop
      have hlen' := hperm.length_eq
      rw [hlen, hn, List.length_cons] at hlen'
      obtain ⟨hleast, hmerging'⟩ := least_of_pop hmerging h hpop
      have hnext := hholding.pop hpop hk
      have hrest := length_set hk
      refine .take k hk ?_ (ih (by omega) hnext hmerging' (h.subset fun y hy =>
        hperm.mem_iff.mpr (List.mem_cons_of_mem x hy)) (by omega))
      intro run hrun y hy
      obtain ⟨ys, rfl⟩ := List.head?_eq_some_iff.mp hy
      rcases List.mem_cons.mp (helems.mem_iff.mp (hholding.mem_iff.mpr hrun)) with heq | hmem
      · cases heq
        exact h.irrefl (hperm.mem_iff.mpr List.mem_cons_self)
      · refine hleast y ((queued_pushRun rest).mem_iff.mpr (List.mem_append_right _ ?_))
        exact List.mem_flatMap.mpr ⟨_, hmem, List.mem_cons_self⟩

theorem holding_foldl (runs' : List (List α)) (h : Holding heap q runs) :
    Holding heap (runs'.foldl (fun q run => Lib.pushRun heap run q) q) (runs' ++ runs) := by
  induction runs' generalizing q runs with
  | nil => exact h
  | cons run runs' ih => exact (ih h.pushRun).perm List.perm_middle

theorem merges_mergeRuns (heap : PriorityQueue (frontierLess less))
    (hsorted : ∀ run ∈ runs, Sorted less run) (h : OrderedOn less runs.flatten) :
    Merges less runs (mergeRuns heap runs) := by
  have hempty : Merging heap heap.empty :=
    ⟨heap.heap_empty, fun f hf => by simp [heap.elems_empty] at hf⟩
  have hholding : Holding heap heap.empty [] := by simp [Holding, heap.elems_empty]
  have hqueued := @queued_foldl _ _ heap heap.empty runs
  rw [queued_empty, List.append_nil] at hqueued
  have hall := holding_foldl runs hholding
  rw [List.append_nil] at hall
  refine merges_drain rfl hall (hempty.foldl hsorted ?_)
    (h.subset fun x hx => hqueued.mem_iff.mp hx)
  rwa [queued_empty, List.append_nil]

theorem drain_of_pop {q' : heap.State} {x : α} {rest : List α}
    (h : heap.pop q = some ((x, rest), q')) (n : Nat) :
    drain heap (n + 1) q = x :: drain heap n (Lib.pushRun heap rest q') := by
  rw [drain, h]

end Queue

/-! ## Every outcome is that of some queue -/

section Script

variable [DecidableEq α]

/-- The next element of the script if it is a least one, or else the first least one. -/
def popScripted (less : α → α → Bool) (q : List α × List α) : Option (α × List α × List α) :=
  match q.2 with
  | [] => (popLeast less q.1).map fun p => (p.1, p.2, [])
  | x :: script =>
    if x ∈ q.1 ∧ ∀ y ∈ q.1, less y x = false then some (x, q.1.erase x, script)
    else (popLeast less q.1).map fun p => (p.1, p.2, script)

theorem popScripted_cases {q : List α × List α} {p : α × List α × List α}
    (h : popScripted less q = some p) :
    popLeast less q.1 = some (p.1, p.2.1) ∨
      p.1 ∈ q.1 ∧ (∀ y ∈ q.1, less y p.1 = false) ∧ p.2.1 = q.1.erase p.1 := by
  unfold popScripted at h
  split at h
  · obtain ⟨r, hr, rfl⟩ := Option.map_eq_some_iff.mp h
    exact .inl hr
  · split at h
    · rename_i hx
      cases h
      exact .inr ⟨hx.1, hx.2, rfl⟩
    · obtain ⟨r, hr, rfl⟩ := Option.map_eq_some_iff.mp h
      exact .inl hr

theorem popScripted_eq_none {q : List α × List α} (h : popScripted less q = none) : q.1 = [] := by
  unfold popScripted at h
  split at h
  · exact popLeast_eq_none (Option.map_eq_none_iff.mp h)
  · split at h
    · cases h
    · exact popLeast_eq_none (Option.map_eq_none_iff.mp h)

/-- The queue that takes its elements in the order of a script, as far as they are least. -/
def scriptQueue (less : α → α → Bool) (script : List α) : PriorityQueue less where
  State := List α × List α
  elems q := q.1
  Heap _ := True
  empty := ([], script)
  push x q := (x :: q.1, q.2)
  pop := popScripted less
  elems_empty := rfl
  elems_push _ _ := .refl _
  elems_none _ := popScripted_eq_none
  elems_pop q x q' h := by
    rcases popScripted_cases h with h | ⟨hx, -, heq⟩
    · exact popLeast_perm h
    · exact heq ▸ List.perm_cons_erase hx
  heap_empty := trivial
  heap_push _ _ _ _ := trivial
  heap_pop _ _ _ _ _ _ := trivial
  least q x q' hordered _ h := by
    rcases popScripted_cases h with h | ⟨-, hleast, heq⟩
    · exact least_of_popLeast hordered h
    · exact fun y hy => hleast y (List.mem_of_mem_erase (heq ▸ hy))

/-- The rest of the script. -/
def remaining {script : List α} (q : (scriptQueue less script).State) : List α := Prod.snd q

theorem remaining_pushRun {script : List (Frontier α)} (run : List α)
    (q : (scriptQueue (frontierLess less) script).State) :
    remaining (pushRun (scriptQueue (frontierLess less) script) run q) = remaining q := by
  cases run <;> rfl

theorem remaining_foldl {script : List (Frontier α)} (runs : List (List α))
    (q : (scriptQueue (frontierLess less) script).State) :
    remaining (runs.foldl (fun q run => pushRun (scriptQueue (frontierLess less) script) run q) q) =
      remaining q := by
  induction runs generalizing q with
  | nil => rfl
  | cons run runs ih =>
    rw [List.foldl_cons, ih, remaining_pushRun]

theorem pop_script {first script : List α} {x : α} {q : (scriptQueue less first).State}
    (hq : remaining q = x :: script) (hmem : x ∈ (scriptQueue less first).elems q)
    (hleast : ∀ y ∈ (scriptQueue less first).elems q, less y x = false) :
    ∃ q', (scriptQueue less first).pop q = some (x, q') ∧ remaining q' = script := by
  obtain ⟨elems, rest⟩ := q
  obtain rfl : rest = x :: script := hq
  have hpop : popScripted less (elems, x :: script) = some (x, elems.erase x, script) := by
    simp only [popScripted]
    rw [if_pos ⟨hmem, hleast⟩]
  exact ⟨(elems.erase x, script), hpop, rfl⟩

/-- A script yields the outcome from any queue that holds the runs. -/
theorem Merges.exists_drain (hout : Merges less runs out) :
    ∃ script, ∀ first (q : (scriptQueue (frontierLess less) first).State), remaining q = script →
      Holding (scriptQueue (frontierLess less) first) q runs →
      drain (scriptQueue (frontierLess less) first) runs.flatten.length q = out := by
  induction hout with
  | done hdone =>
    refine ⟨[], fun first q _ _ => ?_⟩
    rw [List.flatten_eq_nil_iff.mpr hdone]
    rfl
  | @take runs out rest x k hrun hleast hout ih =>
    obtain ⟨script, hscript⟩ := ih
    refine ⟨(x, rest) :: script, fun first q hq hholding => ?_⟩
    have hmem := hholding.mem_iff.mpr (List.mem_of_getElem? hrun)
    obtain ⟨q', hpop, hq'⟩ := pop_script hq hmem fun f hf =>
      hleast _ (hholding.mem_iff.mp hf) f.1 rfl
    rw [length_set hrun, drain_of_pop hpop]
    exact congrArg (x :: ·) (hscript first _ ((remaining_pushRun rest q').trans hq')
      (hholding.pop hpop hrun))

/-- Whatever a merge can yield, some queue does. -/
theorem Merges.exists_queue (hout : Merges less runs out) :
    ∃ script, mergeRuns (scriptQueue (frontierLess less) script) runs = out := by
  obtain ⟨script, hscript⟩ := hout.exists_drain
  have hholding := @holding_foldl _ _ [] (scriptQueue (frontierLess less) script)
    (scriptQueue (frontierLess less) script).empty runs (.refl _)
  rw [List.append_nil] at hholding
  exact ⟨script, hscript script _ (remaining_foldl runs _) hholding⟩

end Script

/-! ## When there is one outcome -/

theorem exists_merges (hsorted : ∀ run ∈ runs, Sorted less run)
    (h : OrderedOn less runs.flatten) : ∃ out, Merges less runs out :=
  ⟨_, merges_mergeRuns (listQueue _) hsorted h⟩

/-- All outcomes are the same. -/
def Determined (less : α → α → Bool) (runs : List (List α)) : Prop :=
  ∀ {out out'}, Merges less runs out → Merges less runs out' → out = out'

theorem Determined.set {k : Nat} {x : α} {rest : List α} (h : Determined less runs)
    (hrun : runs[k]? = some (x :: rest)) (hleast : LeastHead less runs x) :
    Determined less (runs.set k rest) := fun hout hout' =>
  (List.cons.inj (h (.take k hrun hleast hout) (.take k hrun hleast hout'))).2

/-- Some run has a least head. -/
theorem exists_leastHead (hsorted : ∀ run ∈ runs, Sorted less run)
    (h : OrderedOn less runs.flatten) (hne : runs.flatten ≠ []) :
    ∃ (k : Nat) (x : α) (rest : List α), runs[k]? = some (x :: rest) ∧ LeastHead less runs x := by
  obtain ⟨out, hout⟩ := exists_merges hsorted h
  cases hout with
  | done hdone => exact absurd (List.flatten_eq_nil_iff.mpr hdone) hne
  | take k hrun hleast hout => exact ⟨k, _, _, hrun, hleast⟩

/-- Where the outcome is determined, tied elements of different runs are equal. -/
theorem Determined.eq_of_same {n : Nat} (hn : runs.flatten.length = n)
    (hdet : Determined less runs) (hsorted : ∀ run ∈ runs, Sorted less run)
    (h : OrderedOn less runs.flatten) {i j : Nat} (hij : i ≠ j) {r s : List α}
    (hr : runs[i]? = some r) (hs : runs[j]? = some s) {a b : α} (ha : a ∈ r) (hb : b ∈ s)
    (hab : same less a b) : a = b := by
  induction n generalizing runs i j r s a b with
  | zero =>
    have hnil := List.flatten_eq_nil_iff.mp (List.length_eq_zero_iff.mp hn)
    exact absurd ha (by simp [hnil r (List.mem_of_getElem? hr)])
  | succ n ih =>
    have hmem : ∀ {k : Nat} {run : List α} {x : α}, runs[k]? = some run → x ∈ run →
        x ∈ runs.flatten := fun hrun hx => List.mem_flatten.mpr ⟨_, List.mem_of_getElem? hrun, hx⟩
    have htake : ∀ {k : Nat} {x : α} {rest : List α}, runs[k]? = some (x :: rest) →
        ∃ out, Merges less (runs.set k rest) out := fun hrun =>
      exists_merges (sorted_set hrun hsorted) (h.subset (subset_set hrun))
    -- once a head is taken that is neither of the two, the induction applies
    have hnext : ∀ {k i j : Nat} {x a b : α} {rest r s : List α}, runs[k]? = some (x :: rest) →
        LeastHead less runs x → i ≠ j → (runs.set k rest)[i]? = some r →
        (runs.set k rest)[j]? = some s → a ∈ r → b ∈ s → same less a b → a = b :=
      fun hrun hleast hij hr hs ha hb hab =>
        ih (by have := length_set hrun; omega) (hdet.set hrun hleast) (sorted_set hrun hsorted)
          (h.subset (subset_set hrun)) hij hr hs ha hb hab
    have hhead : ∀ {i j : Nat} {x a b : α} {rest s : List α}, runs[i]? = some (x :: rest) →
        LeastHead less runs x → i ≠ j → runs[j]? = some s → a ∈ x :: rest → b ∈ s →
        same less a b → a = b := by
      intro i j x a b rest s hr hleast hij hs ha hb hab
      have hak := hmem hr ha
      have hbk := hmem hs hb
      rcases List.mem_cons.mp ha with rfl | ha
      · -- the head of the other run is least too
        cases s with
        | nil => cases hb
        | cons y s =>
          have hyk := hmem hs List.mem_cons_self
          simp only [same, Bool.and_eq_true, Bool.not_eq_true'] at hab
          have hby : less b y = false := by
            rcases List.mem_cons.mp hb with rfl | hb
            · exact h.irrefl hbk
            · exact (List.pairwise_cons.mp (hsorted _ (List.mem_of_getElem? hs))).1 b hb
          have hay : less a y = false := h.not_less hyk hbk hak hby hab.1
          have hleast' : LeastHead less runs y := fun run hrun z hz =>
            h.not_less hyk hak (List.mem_flatten.mpr ⟨run, hrun, List.mem_of_mem_head? hz⟩) hay
              (hleast run hrun z hz)
          rcases List.mem_cons.mp hb with rfl | hb
          · obtain ⟨out, hout⟩ := htake hr
            obtain ⟨out', hout'⟩ := htake hs
            exact (List.cons.inj (hdet (.take i hr hleast hout) (.take j hs hleast' hout'))).1
          · refine hnext hs hleast' hij (r := a :: rest) (s := s) ?_ ?_ ha hb (by simp [same, hab])
            · rw [List.getElem?_set_ne hij.symm, hr]
            · exact List.getElem?_set_self (List.getElem?_eq_some_iff.mp hs).1
      · refine hnext hr hleast hij (r := rest) (s := s) ?_ ?_ ha hb hab
        · exact List.getElem?_set_self (List.getElem?_eq_some_iff.mp hr).1
        · rw [List.getElem?_set_ne hij, hs]
    have hne : runs.flatten ≠ [] := by
      rintro hnil
      simp [hnil] at hn
    obtain ⟨k, x, rest, hrun, hleast⟩ := exists_leastHead hsorted h hne
    by_cases hki : k = i
    · subst hki
      obtain rfl : r = x :: rest := Option.some.inj (hr.symm.trans hrun)
      exact hhead hrun hleast hij hs ha hb hab
    by_cases hkj : k = j
    · subst hkj
      obtain rfl : s = x :: rest := Option.some.inj (hs.symm.trans hrun)
      exact (hhead hrun hleast hij.symm hr hb ha (same_comm hab)).symm
    refine hnext hrun hleast hij (r := r) (s := s) ?_ ?_ ha hb hab
    · rw [List.getElem?_set_ne hki, hr]
    · rw [List.getElem?_set_ne hkj, hs]

theorem Determined.tiesAgree (hdet : Determined less runs)
    (hsorted : ∀ run ∈ runs, Sorted less run) (h : OrderedOn less runs.flatten) :
    TiesAgree less runs := by
  refine List.pairwise_iff_getElem.mpr fun i j hi hj hij a ha b hb hab => ?_
  exact hdet.eq_of_same rfl hsorted h (Nat.ne_of_lt hij) (List.getElem?_eq_getElem hi)
    (List.getElem?_eq_getElem hj) ha hb hab

/-- Whatever the queue, the merge is the stable sort, exactly if tied elements of different runs
are equal. -/
theorem mergeRuns_eq_stableSort_iff [DecidableEq α] {l : List α}
    (hsorted : ∀ run ∈ runs, Sorted less run) (hperm : runs.flatten.Perm l)
    (h : OrderedOn less l)
    (hfilter : ∀ c ∈ l, runs.flatten.filter (same less c) = l.filter (same less c)) :
    (∀ heap : PriorityQueue (frontierLess less), mergeRuns heap runs = stableSort less l) ↔
      TiesAgree less runs := by
  have hflat : OrderedOn less runs.flatten := h.subset fun x hx => hperm.mem_iff.mp hx
  constructor
  · intro hstable
    refine Determined.tiesAgree (fun hout hout' => ?_) hsorted hflat
    obtain ⟨script, rfl⟩ := hout.exists_queue
    obtain ⟨script', rfl⟩ := hout'.exists_queue
    rw [hstable, hstable]
  · exact fun hties heap => (merges_mergeRuns heap hsorted hflat).eq_stableSort hsorted hperm h
      hties hfilter

end Relite.Lib
