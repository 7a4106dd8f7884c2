import Mathlib.Data.List.Perm.Basic
import Mathlib.Data.List.TakeWhile

/-!
# Sorting in runs and joining sorted lists

A stable sort, the merge of sorted runs through a priority queue and the merge join of two
sorted lists, by a comparison that need only be a strict weak order on the elements at hand.
-/
namespace Relite.Lib

variable {α β γ κ : Type}

/-- `less` is a strict weak order on the elements of `l`. -/
def OrderedOn (less : α → α → Bool) (l : List α) : Prop :=
  (∀ a ∈ l, ∀ b ∈ l, less a b → less b a = false) ∧
  ∀ a ∈ l, ∀ b ∈ l, ∀ c ∈ l, less a c → less a b ∨ less b c

/-- No element is less than one before it. -/
def Sorted (less : α → α → Bool) (l : List α) : Prop := l.Pairwise fun a b => less b a = false

section Order

variable {less : α → α → Bool} {l : List α} {a b c : α}

theorem OrderedOn.subset {l' : List α} (h : OrderedOn less l) (hsub : l' ⊆ l) : OrderedOn less l' :=
  ⟨fun a ha b hb => h.1 a (hsub ha) b (hsub hb),
    fun a ha b hb c hc => h.2 a (hsub ha) b (hsub hb) c (hsub hc)⟩

theorem OrderedOn.map {f : β → α} {l : List β} (h : OrderedOn less (l.map f)) :
    OrderedOn (fun x y => less (f x) (f y)) l :=
  ⟨fun _ hx _ hy => h.1 _ (List.mem_map_of_mem hx) _ (List.mem_map_of_mem hy),
    fun _ hx _ hy _ hz => h.2 _ (List.mem_map_of_mem hx) _ (List.mem_map_of_mem hy) _
      (List.mem_map_of_mem hz)⟩

theorem OrderedOn.congr {less' : α → α → Bool} (h : OrderedOn less l)
    (heq : ∀ a ∈ l, ∀ b ∈ l, less' a b = less a b) : OrderedOn less' l := by
  refine ⟨fun a ha b hb hlt => ?_, fun a ha b hb c hc hlt => ?_⟩
  · rw [heq b hb a ha]
    exact h.1 a ha b hb (heq a ha b hb ▸ hlt)
  · rw [heq a ha b hb, heq b hb c hc]
    exact h.2 a ha b hb c hc (heq a ha c hc ▸ hlt)

/-- What is not less stays so below. -/
theorem OrderedOn.not_less (h : OrderedOn less l) (ha : a ∈ l) (hb : b ∈ l) (hc : c ∈ l)
    (hba : less b a = false) (hcb : less c b = false) : less c a = false := by
  by_contra hca
  rw [Bool.not_eq_false] at hca
  rcases h.2 c hc b hb a ha hca with h | h
  · exact Bool.false_ne_true (hcb.symm.trans h)
  · exact Bool.false_ne_true (hba.symm.trans h)

/-- What is less stays so from above. -/
theorem OrderedOn.less_of_not_less (h : OrderedOn less l) (ha : a ∈ l) (hb : b ∈ l) (hc : c ∈ l)
    (hab : less a b) (hcb : less c b = false) : less a c := by
  rcases h.2 a ha c hc b hb hab with hac | hcb'
  · exact hac
  · exact absurd hcb' (by simp [hcb])

theorem OrderedOn.irrefl (h : OrderedOn less l) (ha : a ∈ l) : less a a = false := by
  by_contra hlt
  rw [Bool.not_eq_false] at hlt
  exact Bool.false_ne_true ((h.1 a ha a ha hlt).symm.trans hlt)

/-- Neither is less than the other. -/
def same (less : α → α → Bool) (a b : α) : Bool := !less a b && !less b a

theorem same_comm (h : same less a b) : same less b a := by
  rwa [same, Bool.and_comm]

theorem OrderedOn.same_refl (h : OrderedOn less l) (ha : a ∈ l) : same less a a := by
  simp [same, h.irrefl ha]

theorem OrderedOn.same_trans (h : OrderedOn less l) (ha : a ∈ l) (hb : b ∈ l) (hc : c ∈ l)
    (hab : same less a b) (hbc : same less b c) : same less a c := by
  simp only [same, Bool.and_eq_true, Bool.not_eq_true'] at hab hbc ⊢
  exact ⟨h.not_less hc hb ha hbc.1 hab.1, h.not_less ha hb hc hab.2 hbc.2⟩

theorem OrderedOn.less_of_same (h : OrderedOn less l) (ha : a ∈ l) (hb : b ∈ l) (hc : c ∈ l)
    (hab : same less a b) (hbc : less b c) : less a c := by
  simp only [same, Bool.and_eq_true, Bool.not_eq_true'] at hab
  rcases h.2 b hb a ha c hc hbc with hba | hac
  · exact absurd hba (by simp [hab.2])
  · exact hac

theorem OrderedOn.flip (h : OrderedOn less l) : OrderedOn (fun a b => less b a) l := by
  refine ⟨fun a ha b hb => h.1 b hb a ha, fun a ha b hb c hc hlt => ?_⟩
  exact (h.2 c hc b hb a ha hlt).symm

/-- One order first, and another one among what is tied. -/
theorem OrderedOn.lex {less' : α → α → Bool} (h : OrderedOn less l) (h' : OrderedOn less' l) :
    OrderedOn (fun a b => less a b || (!less b a && less' a b)) l := by
  constructor
  · intro a ha b hb hlt
    simp only [Bool.or_eq_true, Bool.and_eq_true, Bool.not_eq_true'] at hlt
    rcases hlt with hlt | ⟨hba, hlt⟩
    · simp [h.1 a ha b hb hlt, hlt]
    · simp [hba, h'.1 a ha b hb hlt]
  · intro a ha b hb c hc hlt
    simp only [Bool.or_eq_true, Bool.and_eq_true, Bool.not_eq_true'] at hlt ⊢
    rcases hlt with hac | ⟨hca, hac⟩
    · exact (h.2 a ha b hb c hc hac).imp .inl .inl
    · by_cases hab : less a b = true
      · exact .inl (.inl hab)
      · by_cases hbc : less b c = true
        · exact .inr (.inl hbc)
        · rw [Bool.not_eq_true] at hab hbc
          have hba := h.not_less ha hc hb hca hbc
          have hcb := h.not_less hb ha hc hab hca
          exact (h'.2 a ha b hb c hc hac).imp (fun h => .inr ⟨hba, h⟩) fun h => .inr ⟨hcb, h⟩

end Order

/-! ## A stable sort -/

def stableSort (less : α → α → Bool) (l : List α) : List α := l.mergeSort fun a b => !less b a

theorem stableSort_perm (less : α → α → Bool) (l : List α) : (stableSort less l).Perm l :=
  List.mergeSort_perm l _

theorem map_attach_mergeSort (less : α → α → Bool) (l : List α) :
    (l.attach.mergeSort fun a b => !less b.1 a.1).map Subtype.val = stableSort less l := by
  rw [List.map_mergeSort (s := fun a b => !less b a) fun a _ b _ => rfl, List.attach_map_subtype_val]
  rfl

section

variable {less : α → α → Bool} {l : List α}

-- the order is total and transitive on the elements of the list only
theorem OrderedOn.le_trans (h : OrderedOn less l) (a b c : {x // x ∈ l}) (hab : !less b.1 a.1)
    (hbc : !less c.1 b.1) : !less c.1 a.1 := by
  simp only [Bool.not_eq_true'] at hab hbc ⊢
  exact h.not_less a.2 b.2 c.2 hab hbc

theorem OrderedOn.le_total (h : OrderedOn less l) (a b : {x // x ∈ l}) :
    !less b.1 a.1 || !less a.1 b.1 := by
  simp only [Bool.or_eq_true, Bool.not_eq_true']
  by_cases hlt : less b.1 a.1
  · exact .inr (h.1 _ b.2 _ a.2 hlt)
  · exact .inl (by simpa using hlt)

theorem sorted_stableSort (h : OrderedOn less l) : Sorted less (stableSort less l) := by
  have hsorted := List.pairwise_mergeSort h.le_trans h.le_total l.attach
  rw [← map_attach_mergeSort, Sorted, List.pairwise_map]
  exact hsorted.imp fun hle => by simpa using hle

theorem stableSort_of_sorted (h : Sorted less l) : stableSort less l = l :=
  List.mergeSort_of_pairwise (h.imp fun hle => by simpa using hle)

/-- Tied elements keep their order. -/
theorem filter_same_stableSort {c : α} (h : OrderedOn less (c :: l)) :
    (stableSort less l).filter (same less c) = l.filter (same less c) := by
  have hl := h.subset (List.subset_cons_self c l)
  have hties : (l.attach.filter fun x => same less c x.1).Pairwise fun a b => !less b.1 a.1 := by
    refine List.pairwise_filter.mpr (List.pairwise_of_forall fun a b ha hb => ?_)
    have hab := h.same_trans (List.mem_cons_of_mem c a.2) List.mem_cons_self
      (List.mem_cons_of_mem c b.2) (same_comm ha) hb
    simp only [same, Bool.and_eq_true] at hab
    exact hab.2
  have hclass : (l.attach.filter fun x => same less c x.1).map Subtype.val =
      l.filter (same less c) := by
    conv_rhs => rw [← List.attach_map_subtype_val l, List.filter_map]
    rfl
  have hsub : (l.filter (same less c)).Sublist (stableSort less l) := by
    rw [← hclass, ← map_attach_mergeSort]
    exact (List.sublist_mergeSort hl.le_trans hl.le_total hties List.filter_sublist).map Subtype.val
  have hfilter := hsub.filter (same less c)
  simp only [List.filter_filter, Bool.and_self] at hfilter
  exact (hfilter.eq_of_length ((stableSort_perm less l).filter _).length_eq.symm).symm

/-- A sorted list is determined by the order within each class of tied elements. -/
theorem Sorted.eq_of_filter_same {l l' : List α} (hl : Sorted less l) (hl' : Sorted less l')
    (hperm : l.Perm l') (h : OrderedOn less l)
    (hfilter : ∀ c ∈ l, l.filter (same less c) = l'.filter (same less c)) : l = l' := by
  induction l generalizing l' with
  | nil => exact (hperm.nil_eq).symm ▸ rfl
  | cons x l ih =>
    cases l' with
    | nil => exact absurd hperm (by simp)
    | cons y l' =>
      have hy : y ∈ x :: l := hperm.mem_iff.mpr List.mem_cons_self
      have hx : x ∈ y :: l' := hperm.mem_iff.mp List.mem_cons_self
      have hyx : less y x = false := by
        rcases List.mem_cons.mp hy with rfl | hy
        · exact h.irrefl List.mem_cons_self
        · exact (List.pairwise_cons.mp hl).1 y hy
      have hxy : less x y = false := by
        rcases List.mem_cons.mp hx with rfl | hx
        · exact h.irrefl List.mem_cons_self
        · exact (List.pairwise_cons.mp hl').1 x hx
      have hsame : same less x y := by simp [same, hxy, hyx]
      have hhead := hfilter x List.mem_cons_self
      rw [List.filter_cons_of_pos (h.same_refl List.mem_cons_self), List.filter_cons_of_pos hsame]
        at hhead
      obtain ⟨rfl, -⟩ := List.cons.inj hhead
      refine congrArg (x :: ·) (ih (List.pairwise_cons.mp hl).2 (List.pairwise_cons.mp hl').2
        hperm.cons_inv (h.subset (List.subset_cons_self x l)) fun c hc => ?_)
      have htail := hfilter c (List.mem_cons_of_mem x hc)
      rw [List.filter_cons, List.filter_cons] at htail
      split at htail
      · exact (List.cons.inj htail).2
      · exact htail

end

/-! ## The merge of runs -/

/-- A priority queue with the least element on top. `Heap` is what holds inside as long as
`less` is an order on the elements. -/
structure PriorityQueue (less : α → α → Bool) where
  State : Type
  elems : State → List α
  Heap : State → Prop
  empty : State
  push : α → State → State
  pop : State → Option (α × State)
  elems_empty : elems empty = []
  elems_push : ∀ x q, (elems (push x q)).Perm (x :: elems q)
  elems_none : ∀ q, pop q = none → elems q = []
  elems_pop : ∀ q x q', pop q = some (x, q') → (elems q).Perm (x :: elems q')
  heap_empty : Heap empty
  heap_push : ∀ x q, OrderedOn less (x :: elems q) → Heap q → Heap (push x q)
  heap_pop : ∀ q x q', OrderedOn less (elems q) → Heap q → pop q = some (x, q') → Heap q'
  least : ∀ q x q', OrderedOn less (elems q) → Heap q → pop q = some (x, q') →
    ∀ y ∈ elems q', less y x = false

section Least

variable (less : α → α → Bool)

/-- The first of the least elements, and the others. -/
def popLeast : List α → Option (α × List α)
  | [] => none
  | x :: l =>
    match popLeast l with
    | none => some (x, [])
    | some (y, rest) => if less y x then some (y, x :: rest) else some (x, l)

variable {less} {l l' : List α} {x : α}

theorem popLeast_eq_none (h : popLeast less l = none) : l = [] := by
  cases l with
  | nil => rfl
  | cons x l =>
    rw [popLeast] at h
    split at h
    · cases h
    · split at h <;> cases h

theorem popLeast_perm (h : popLeast less l = some (x, l')) : l.Perm (x :: l') := by
  induction l generalizing x l' with
  | nil => cases h
  | cons z l ih =>
    rw [popLeast] at h
    split at h
    · rename_i hnone
      cases h
      rw [popLeast_eq_none hnone]
    · rename_i y rest hpop
      split at h
      · cases h
        exact ((ih hpop).cons z).trans (.swap _ _ _)
      · cases h
        exact .refl _

theorem least_of_popLeast (hordered : OrderedOn less l) (h : popLeast less l = some (x, l')) :
    ∀ y ∈ l', less y x = false := by
  induction l generalizing x l' with
  | nil => cases h
  | cons z l ih =>
    have hl := hordered.subset (List.subset_cons_self z l)
    rw [popLeast] at h
    split at h
    · cases h
      exact fun y hy => absurd hy List.not_mem_nil
    · rename_i y rest hpop
      have hmem : ∀ w ∈ y :: rest, w ∈ z :: l := fun w hw =>
        List.mem_cons_of_mem z ((popLeast_perm hpop).mem_iff.mpr hw)
      have hyz := hmem y List.mem_cons_self
      split at h
      · rename_i hless
        cases h
        intro w hw
        rcases List.mem_cons.mp hw with rfl | hw
        · exact hordered.1 _ hyz _ List.mem_cons_self hless
        · exact ih hl hpop w hw
      · rename_i hless
        cases h
        intro w hw
        rw [Bool.not_eq_true] at hless
        rcases List.mem_cons.mp ((popLeast_perm hpop).mem_iff.mp hw) with rfl | hrest
        · exact hless
        · exact hordered.not_less List.mem_cons_self hyz (List.mem_cons_of_mem _ hw) hless
            (ih hl hpop w hrest)

/-- The queue that looks through all of its elements. -/
def listQueue (less : α → α → Bool) : PriorityQueue less where
  State := List α
  elems := id
  Heap _ := True
  empty := []
  push x q := x :: q
  pop := popLeast less
  elems_empty := rfl
  elems_push _ _ := .refl _
  elems_none _ := popLeast_eq_none
  elems_pop _ _ _ := popLeast_perm
  heap_empty := trivial
  heap_push _ _ _ _ := trivial
  heap_pop _ _ _ _ _ _ := trivial
  least _ _ _ hordered _ h := least_of_popLeast hordered h

end Least

/-- The first element of a run with the rest of the run. -/
abbrev Frontier (α : Type) := α × List α

def frontierLess (less : α → α → Bool) (a b : Frontier α) : Bool := less a.1 b.1

section Merge

variable {less : α → α → Bool} (heap : PriorityQueue (frontierLess less))

def pushRun (run : List α) (q : heap.State) : heap.State :=
  match run with
  | [] => q
  | x :: rest => heap.push (x, rest) q

/-- Takes the next `n` elements off the queue, and puts back the rest of their runs. -/
def drain : Nat → heap.State → List α
  | 0, _ => []
  | n + 1, q =>
    match heap.pop q with
    | none => []
    | some ((x, rest), q) => x :: drain n (pushRun heap rest q)

def mergeRuns (runs : List (List α)) : List α :=
  drain heap runs.flatten.length (runs.foldl (fun q run => pushRun heap run q) heap.empty)

/-- The elements of the queue with the rest of their runs. -/
def queued (q : heap.State) : List α := (heap.elems q).flatMap fun f => f.1 :: f.2

variable {heap} {q : heap.State}

theorem queued_pushRun (run : List α) :
    (queued heap (pushRun heap run q)).Perm (run ++ queued heap q) := by
  cases run with
  | nil => exact .refl _
  | cons x rest =>
    have hperm := (heap.elems_push (x, rest) q).flatMap_right fun f : Frontier α => f.1 :: f.2
    simpa [queued, pushRun] using hperm

theorem queued_pop {x : α} {rest : List α} {q' : heap.State}
    (h : heap.pop q = some ((x, rest), q')) :
    (queued heap q).Perm (x :: queued heap (pushRun heap rest q')) := by
  have hperm := (heap.elems_pop q _ q' h).flatMap_right fun f : Frontier α => f.1 :: f.2
  rw [List.flatMap_cons, List.cons_append] at hperm
  exact hperm.trans ((queued_pushRun rest).symm.cons x)

theorem drain_perm {n : Nat} (hn : (queued heap q).length = n) :
    (drain heap n q).Perm (queued heap q) := by
  induction n generalizing q with
  | zero => rw [drain, List.length_eq_zero_iff.mp hn]
  | succ n ih =>
    rw [drain]
    cases hpop : heap.pop q with
    | none =>
      have hnil := heap.elems_none q hpop
      simp [queued, hnil] at hn
    | some p =>
      obtain ⟨⟨x, rest⟩, q'⟩ := p
      have hperm := queued_pop hpop
      have hlen := hperm.length_eq
      rw [hn, List.length_cons] at hlen
      exact ((ih (Nat.succ.inj hlen).symm).cons x).trans hperm.symm

/-- The queue holds its runs in order. -/
structure Merging (heap : PriorityQueue (frontierLess less)) (q : heap.State) : Prop where
  valid : heap.Heap q
  runs : ∀ f ∈ heap.elems q, Sorted less (f.1 :: f.2)

theorem orderedOn_elems (h : OrderedOn less (queued heap q)) :
    OrderedOn (frontierLess less) (heap.elems q) := by
  refine OrderedOn.map (f := Prod.fst) (h.subset fun x hx => ?_)
  obtain ⟨f, hf, rfl⟩ := List.mem_map.mp hx
  exact List.mem_flatMap.mpr ⟨f, hf, List.mem_cons_self⟩

theorem Merging.pushRun {run : List α} (hmerging : Merging heap q) (hsorted : Sorted less run)
    (h : OrderedOn less (run ++ queued heap q)) : Merging heap (pushRun heap run q) := by
  cases run with
  | nil => exact hmerging
  | cons x rest =>
    refine ⟨heap.heap_push _ q ?_ hmerging.valid, fun f hf => ?_⟩
    · refine OrderedOn.map (f := Prod.fst) (h.subset fun y hy => ?_)
      rw [List.map_cons] at hy
      rcases List.mem_cons.mp hy with rfl | hy
      · exact List.mem_cons_self
      · obtain ⟨f, hf, rfl⟩ := List.mem_map.mp hy
        exact List.mem_append_right _ (List.mem_flatMap.mpr ⟨f, hf, List.mem_cons_self⟩)
    · rcases List.mem_cons.mp ((heap.elems_push _ q).mem_iff.mp hf) with rfl | hf
      · exact hsorted
      · exact hmerging.runs f hf

/-- What is taken off the queue is least of all that is left. -/
theorem least_of_pop {x : α} {rest : List α} {q' : heap.State} (hmerging : Merging heap q)
    (h : OrderedOn less (queued heap q)) (hpop : heap.pop q = some ((x, rest), q')) :
    (∀ y ∈ queued heap (pushRun heap rest q'), less y x = false) ∧
      Merging heap (pushRun heap rest q') := by
  have helems := heap.elems_pop q _ q' hpop
  have hperm := queued_pop hpop
  have hx : x ∈ queued heap q := hperm.mem_iff.mpr List.mem_cons_self
  have hrun : Sorted less (x :: rest) := hmerging.runs _ (helems.mem_iff.mpr List.mem_cons_self)
  have hruns : ∀ f ∈ heap.elems q', f ∈ heap.elems q := fun f hf =>
    helems.mem_iff.mpr (List.mem_cons_of_mem _ hf)
  have hmem : ∀ f ∈ heap.elems q', ∀ y ∈ f.1 :: f.2, y ∈ queued heap q := fun f hf y hy =>
    List.mem_flatMap.mpr ⟨f, hruns f hf, hy⟩
  constructor
  · intro y hy
    rcases List.mem_append.mp ((queued_pushRun rest).mem_iff.mp hy) with hy | hy
    · exact (List.pairwise_cons.mp hrun).1 y hy
    · obtain ⟨f, hf, hy⟩ := List.mem_flatMap.mp hy
      have hhead : less f.1 x = false :=
        heap.least q _ q' (orderedOn_elems h) hmerging.valid hpop f hf
      rcases List.mem_cons.mp hy with rfl | htail
      · exact hhead
      · have hle := (List.pairwise_cons.mp (hmerging.runs f (hruns f hf))).1 y htail
        exact h.not_less hx (hmem f hf _ List.mem_cons_self) (hmem f hf y hy) hhead hle
  · have hleft : Merging heap q' :=
      ⟨heap.heap_pop q _ q' (orderedOn_elems h) hmerging.valid hpop,
        fun f hf => hmerging.runs f (hruns f hf)⟩
    refine hleft.pushRun (List.pairwise_cons.mp hrun).2 (h.subset fun y hy => ?_)
    exact hperm.mem_iff.mpr (List.mem_cons_of_mem x ((queued_pushRun rest).mem_iff.mpr hy))

theorem sorted_drain {n : Nat} (hn : (queued heap q).length = n) (hmerging : Merging heap q)
    (h : OrderedOn less (queued heap q)) : Sorted less (drain heap n q) := by
  induction n generalizing q with
  | zero => exact .nil
  | succ n ih =>
    rw [drain]
    cases hpop : heap.pop q with
    | none => exact .nil
    | some p =>
      obtain ⟨⟨x, rest⟩, q'⟩ := p
      have hperm := queued_pop hpop
      have hlen := hperm.length_eq
      rw [hn, List.length_cons] at hlen
      obtain ⟨hleast, hmerging⟩ := least_of_pop hmerging h hpop
      have hrest := ih (Nat.succ.inj hlen).symm hmerging
        (h.subset fun y hy => hperm.mem_iff.mpr (List.mem_cons_of_mem x hy))
      refine List.pairwise_cons.mpr ⟨fun y hy => hleast y ?_, hrest⟩
      exact (drain_perm (Nat.succ.inj hlen).symm).mem_iff.mp hy

theorem queued_foldl (runs : List (List α)) :
    (queued heap (runs.foldl (fun q run => pushRun heap run q) q)).Perm
      (runs.flatten ++ queued heap q) := by
  induction runs generalizing q with
  | nil => exact .refl _
  | cons run runs ih =>
    have hperm : (runs.flatten ++ (run ++ queued heap q)).Perm
        (run ++ runs.flatten ++ queued heap q) := by
      rw [← List.append_assoc]
      exact List.perm_append_comm.append_right _
    exact ih.trans (((queued_pushRun run).append_left _).trans hperm)

theorem queued_empty : queued heap heap.empty = [] := by simp [queued, heap.elems_empty]

theorem length_queued_foldl (runs : List (List α)) :
    (queued heap (runs.foldl (fun q run => pushRun heap run q) heap.empty)).length =
      runs.flatten.length := by
  rw [(queued_foldl runs).length_eq, queued_empty, List.append_nil]

/-- The merge keeps every element. -/
theorem mergeRuns_perm (runs : List (List α)) : (mergeRuns heap runs).Perm runs.flatten := by
  refine (drain_perm (length_queued_foldl runs)).trans ((queued_foldl runs).trans ?_)
  rw [queued_empty, List.append_nil]

theorem Merging.foldl {runs : List (List α)} (hmerging : Merging heap q)
    (hruns : ∀ run ∈ runs, Sorted less run) (h : OrderedOn less (runs.flatten ++ queued heap q)) :
    Merging heap (runs.foldl (fun q run => Lib.pushRun heap run q) q) := by
  induction runs generalizing q with
  | nil => exact hmerging
  | cons run runs ih =>
    have hnext : Merging heap (Lib.pushRun heap run q) :=
      hmerging.pushRun (hruns run List.mem_cons_self) (h.subset fun x hx => by
        simp only [List.flatten_cons, List.mem_append] at hx ⊢
        exact hx.imp_left .inl)
    refine ih hnext (fun run' h' => hruns run' (List.mem_cons_of_mem run h'))
      (h.subset fun x hx => ?_)
    simp only [List.flatten_cons, List.mem_append, (queued_pushRun run).mem_iff] at hx ⊢
    rcases hx with hx | hx | hx
    · exact .inl (.inr hx)
    · exact .inl (.inl hx)
    · exact .inr hx

/-- The merge of sorted runs is sorted. -/
theorem sorted_mergeRuns {runs : List (List α)} (hruns : ∀ run ∈ runs, Sorted less run)
    (h : OrderedOn less runs.flatten) : Sorted less (mergeRuns heap runs) := by
  have hempty : Merging heap heap.empty :=
    ⟨heap.heap_empty, fun f hf => by simp [heap.elems_empty] at hf⟩
  have hall : OrderedOn less (runs.flatten ++ queued heap heap.empty) := by
    rwa [queued_empty, List.append_nil]
  refine sorted_drain (length_queued_foldl runs) (hempty.foldl hruns hall) ?_
  exact hall.subset fun x hx => (queued_foldl runs).mem_iff.mp hx

end Merge

/-! ## The merge join -/

/-- The pairs of elements with the same key that is not null, of two sorted lists. The runs
of one key begin with the elements that were compared. -/
def mergeJoin (less : κ → κ → Bool) (isNull : κ → Bool) (lkey : α → κ) (rkey : β → κ) :
    List α → List β → List (α × β)
  | [], _ => []
  | _, [] => []
  | l :: left, r :: right =>
    if isNull (lkey l) then mergeJoin less isNull lkey rkey left (r :: right)
    else if isNull (rkey r) then mergeJoin less isNull lkey rkey (l :: left) right
    else if less (lkey l) (rkey r) then mergeJoin less isNull lkey rkey left (r :: right)
    else if less (rkey r) (lkey l) then mergeJoin less isNull lkey rkey (l :: left) right
    else
      (l :: left.takeWhile fun x => same less (lkey l) (lkey x)).flatMap (fun a =>
          (r :: right.takeWhile fun y => same less (rkey r) (rkey y)).map fun b => (a, b)) ++
        mergeJoin less isNull lkey rkey (left.dropWhile fun x => same less (lkey l) (lkey x))
          (right.dropWhile fun y => same less (rkey r) (rkey y))
termination_by left right => left.length + right.length
decreasing_by
  all_goals simp only [List.length_cons]
  all_goals try omega
  have hleft := (left.dropWhile_sublist fun x => same less (lkey l) (lkey x)).length_le
  have hright := (right.dropWhile_sublist fun y => same less (rkey r) (rkey y)).length_le
  omega

section Join

variable {less : κ → κ → Bool} {isNull : κ → Bool} {lkey : α → κ} {rkey : β → κ}

/-- Two keys join: none is null and neither is less. -/
def joins (less : κ → κ → Bool) (isNull : κ → Bool) (a b : κ) : Bool :=
  !isNull a && !isNull b && same less a b

/-- All pairs that a condition accepts, in the order of nested loops. -/
def nestedLoop (accept : α → β → Bool) (left : List α) (right : List β) : List (α × β) :=
  left.flatMap fun l => (right.filter (accept l)).map fun r => (l, r)

theorem mem_nestedLoop {accept : α → β → Bool} {left : List α} {right : List β} {p : α × β} :
    p ∈ nestedLoop accept left right ↔ p.1 ∈ left ∧ p.2 ∈ right ∧ accept p.1 p.2 := by
  simp only [nestedLoop, List.mem_flatMap, List.mem_map, List.mem_filter]
  constructor
  · rintro ⟨l, hl, r, ⟨hr, haccept⟩, rfl⟩
    exact ⟨hl, hr, haccept⟩
  · rintro ⟨hl, hr, haccept⟩
    exact ⟨p.1, hl, p.2, ⟨hr, haccept⟩, rfl⟩

theorem nestedLoop_congr {f g : α → β → Bool} {left : List α} {right : List β}
    (h : ∀ l ∈ left, ∀ r ∈ right, f l r = g l r) :
    nestedLoop f left right = nestedLoop g left right := by
  unfold nestedLoop
  refine List.flatMap_congr fun l hl => ?_
  rw [List.filter_congr fun r hr => h l hl r hr]

theorem nestedLoop_perm (accept : α → β → Bool) {left left' : List α} {right right' : List β}
    (hleft : left.Perm left') (hright : right.Perm right') :
    (nestedLoop accept left right).Perm (nestedLoop accept left' right') :=
  hleft.flatMap fun l _ => ((hright.filter (accept l)).map _)

/-- Without a pair that joins the merge join yields nothing, sorted or not. -/
theorem mergeJoin_eq_nil {left : List α} {right : List β}
    (h : ∀ l ∈ left, ∀ r ∈ right, joins less isNull (lkey l) (rkey r) = false) :
    mergeJoin less isNull lkey rkey left right = [] := by
  fun_induction mergeJoin less isNull lkey rkey left right with
  | case1 | case2 => rfl
  | case3 l left r right _ ih | case5 l left r right _ _ _ ih =>
    exact ih fun x hx => h x (List.mem_cons_of_mem l hx)
  | case4 l left r right _ _ ih | case6 l left r right _ _ _ _ ih =>
    exact ih fun x hx y hy => h x hx y (List.mem_cons_of_mem r hy)
  | case7 l left r right hl hr hlt hgt =>
    have hjoins := h l List.mem_cons_self r List.mem_cons_self
    simp [joins, same, hl, hr, hlt, hgt] at hjoins

/-! ## What the merge join of sorted lists yields -/

theorem nestedLoop_nil_right (accept : α → β → Bool) (left : List α) :
    nestedLoop accept left [] = [] := by
  simp [nestedLoop]

theorem nestedLoop_append_left (accept : α → β → Bool) (left left' : List α) (right : List β) :
    nestedLoop accept (left ++ left') right =
      nestedLoop accept left right ++ nestedLoop accept left' right := by
  simp [nestedLoop]

theorem nestedLoop_none_left {accept : α → β → Bool} (left : List α) {left' : List α}
    {right : List β} (h : ∀ l ∈ left, ∀ r ∈ right, accept l r = false) :
    nestedLoop accept (left ++ left') right = nestedLoop accept left' right := by
  have hnil : nestedLoop accept left right = [] := by
    refine List.eq_nil_iff_forall_not_mem.mpr fun p hp => ?_
    obtain ⟨hl, hr, haccept⟩ := mem_nestedLoop.mp hp
    exact Bool.false_ne_true ((h _ hl _ hr).symm.trans haccept)
  rw [nestedLoop_append_left, hnil, List.nil_append]

theorem nestedLoop_none_right {accept : α → β → Bool} {left : List α} (right : List β)
    {right' : List β} (h : ∀ l ∈ left, ∀ r ∈ right, accept l r = false) :
    nestedLoop accept left (right ++ right') = nestedLoop accept left right' := by
  unfold nestedLoop
  refine List.flatMap_congr fun l hl => ?_
  have hnil : right.filter (accept l) = [] := by
    refine List.filter_eq_nil_iff.mpr fun r hr haccept => ?_
    exact Bool.false_ne_true ((h l hl r hr).symm.trans haccept)
  rw [List.filter_append, hnil, List.nil_append]

theorem nestedLoop_all {accept : α → β → Bool} {left : List α} {right right' : List β}
    (h : ∀ l ∈ left, ∀ r ∈ right, accept l r)
    (hnot : ∀ l ∈ left, ∀ r ∈ right', accept l r = false) :
    nestedLoop accept left (right ++ right') =
      left.flatMap fun l => right.map fun r => (l, r) := by
  unfold nestedLoop
  refine List.flatMap_congr fun l hl => ?_
  have hnil : right'.filter (accept l) = [] := by
    refine List.filter_eq_nil_iff.mpr fun r hr haccept => ?_
    exact Bool.false_ne_true ((hnot l hl r hr).symm.trans haccept)
  rw [List.filter_append, hnil, List.append_nil, List.filter_eq_self.mpr (h l hl)]

/-- In a sorted list, what comes after the run of a least key is greater than the key. -/
theorem less_of_mem_dropWhile {key : α → κ} {l : List α} {k : κ} {keys : List κ}
    (h : OrderedOn less keys) (hsub : ∀ x ∈ l, key x ∈ keys) (hk : k ∈ keys)
    (hsorted : Sorted (fun a b => less (key a) (key b)) l) (hle : ∀ x ∈ l, less (key x) k = false) :
    ∀ x ∈ l.dropWhile fun x => same less k (key x), less k (key x) := by
  induction l with
  | nil => exact fun x hx => absurd hx List.not_mem_nil
  | cons y l ih =>
    obtain ⟨hy, hl⟩ := List.pairwise_cons.mp hsorted
    rw [List.dropWhile_cons]
    split
    · exact ih (fun x hx => hsub x (List.mem_cons_of_mem y hx)) hl
        fun x hx => hle x (List.mem_cons_of_mem y hx)
    · rename_i hdiff
      have hless : less k (key y) := by
        have := hle y List.mem_cons_self
        simpa [same, this] using hdiff
      intro x hx
      rcases List.mem_cons.mp hx with rfl | hx
      · exact hless
      · exact h.less_of_not_less hk (hsub y List.mem_cons_self)
          (hsub x (List.mem_cons_of_mem y hx)) hless (hy x hx)

theorem same_of_mem_run {key : α → κ} {x : α} {l : List α} {keys : List κ}
    (h : OrderedOn less keys) (hsub : ∀ y ∈ x :: l, key y ∈ keys) :
    ∀ y ∈ x :: l.takeWhile (fun y => same less (key x) (key y)),
      key y ∈ keys ∧ same less (key x) (key y) := by
  intro y hy
  rcases List.mem_cons.mp hy with rfl | hy
  · exact ⟨hsub y List.mem_cons_self, h.same_refl (hsub y List.mem_cons_self)⟩
  · exact ⟨hsub y (List.mem_cons_of_mem x ((l.takeWhile_sublist _).mem hy)),
      List.mem_takeWhile_imp (p := fun y => same less (key x) (key y)) hy⟩

theorem joins_eq_false_of_less {a b : κ} (h : less a b ∨ less b a) :
    joins less isNull a b = false := by
  rcases h with h | h <;> simp [joins, same, h]

/-- The merge join of sorted lists yields what nested loops do, in the same order. -/
theorem mergeJoin_eq_nestedLoop {left : List α} {right : List β} {keys : List κ}
    (h : OrderedOn less keys) (hlsub : ∀ x ∈ left, lkey x ∈ keys)
    (hrsub : ∀ y ∈ right, rkey y ∈ keys)
    (hnull : ∀ a ∈ keys, ∀ b ∈ keys, same less a b → isNull a = isNull b)
    (hleft : Sorted (fun a b => less (lkey a) (lkey b)) left)
    (hright : Sorted (fun a b => less (rkey a) (rkey b)) right) :
    mergeJoin less isNull lkey rkey left right =
      nestedLoop (fun l r => joins less isNull (lkey l) (rkey r)) left right := by
  fun_induction mergeJoin less isNull lkey rkey left right with
  | case1 => rfl
  | case2 left => exact (nestedLoop_nil_right _ left).symm
  | case3 l left r right hl ih =>
    rw [ih (fun x hx => hlsub x (List.mem_cons_of_mem l hx)) hrsub (List.pairwise_cons.mp hleft).2
      hright]
    refine (nestedLoop_none_left [l] fun x hx y _ => ?_).symm
    rw [List.mem_singleton.mp hx]
    simp [joins, hl]
  | case4 l left r right _ hr ih =>
    rw [ih hlsub (fun y hy => hrsub y (List.mem_cons_of_mem r hy)) hleft
      (List.pairwise_cons.mp hright).2]
    refine (nestedLoop_none_right [r] fun x _ y hy => ?_).symm
    rw [List.mem_singleton.mp hy]
    simp [joins, hr]
  | case5 l left r right _ _ hlt ih =>
    rw [ih (fun x hx => hlsub x (List.mem_cons_of_mem l hx)) hrsub (List.pairwise_cons.mp hleft).2
      hright]
    refine (nestedLoop_none_left [l] fun x hx y hy => ?_).symm
    rw [List.mem_singleton.mp hx]
    refine joins_eq_false_of_less (.inl ?_)
    rcases List.mem_cons.mp hy with rfl | hmem
    · exact hlt
    · exact h.less_of_not_less (hlsub l List.mem_cons_self) (hrsub r List.mem_cons_self)
        (hrsub y hy) hlt ((List.pairwise_cons.mp hright).1 y hmem)
  | case6 l left r right _ _ _ hgt ih =>
    rw [ih hlsub (fun y hy => hrsub y (List.mem_cons_of_mem r hy)) hleft
      (List.pairwise_cons.mp hright).2]
    refine (nestedLoop_none_right [r] fun x hx y hy => ?_).symm
    rw [List.mem_singleton.mp hy]
    refine joins_eq_false_of_less (.inr ?_)
    rcases List.mem_cons.mp hx with rfl | hmem
    · exact hgt
    · exact h.less_of_not_less (hrsub r List.mem_cons_self) (hlsub l List.mem_cons_self)
        (hlsub x hx) hgt ((List.pairwise_cons.mp hleft).1 x hmem)
  | case7 l left r right hl hr hlt hgt ih =>
    have hlt : less (lkey l) (rkey r) = false := by simpa using hlt
    have hgt : less (rkey r) (lkey l) = false := by simpa using hgt
    have hlk := hlsub l List.mem_cons_self
    have hrk := hrsub r List.mem_cons_self
    have hleft' := List.pairwise_cons.mp hleft
    have hright' := List.pairwise_cons.mp hright
    have hlsub' : ∀ x ∈ left, lkey x ∈ keys := fun x hx => hlsub x (List.mem_cons_of_mem l hx)
    have hrsub' : ∀ y ∈ right, rkey y ∈ keys := fun y hy => hrsub y (List.mem_cons_of_mem r hy)
    have hldrop := (left.dropWhile_sublist fun x => same less (lkey l) (lkey x))
    have hrdrop := (right.dropWhile_sublist fun y => same less (rkey r) (rkey y))
    have hlr : same less (lkey l) (rkey r) := by simp [same, hlt, hgt]
    -- the two runs have one key, and what comes after either of them is greater
    have hlrun := same_of_mem_run h hlsub
    have hrrun := same_of_mem_run h hrsub
    have hlrest : ∀ x ∈ left.dropWhile (fun x => same less (lkey l) (lkey x)),
        less (lkey l) (lkey x) := less_of_mem_dropWhile h hlsub' hlk hleft'.2 hleft'.1
    have hrrest : ∀ y ∈ right.dropWhile (fun y => same less (rkey r) (rkey y)),
        less (rkey r) (rkey y) := less_of_mem_dropWhile h hrsub' hrk hright'.2 hright'.1
    rw [ih (fun x hx => hlsub' x (hldrop.mem hx)) (fun y hy => hrsub' y (hrdrop.mem hy))
      (hleft'.2.sublist hldrop) (hright'.2.sublist hrdrop)]
    conv_rhs =>
      rw [← List.takeWhile_append_dropWhile (l := left) (p := fun x => same less (lkey l) (lkey x)),
        ← List.takeWhile_append_dropWhile (l := right) (p := fun y => same less (rkey r) (rkey y)),
        ← List.cons_append, ← List.cons_append, nestedLoop_append_left]
    congr 1
    · refine (nestedLoop_all (fun x hx y hy => ?_) fun x hx y hy => ?_).symm
      · obtain ⟨hxk, hx⟩ := hlrun x hx
        obtain ⟨hyk, hy⟩ := hrrun y hy
        have hxnull := hnull _ hlk _ hxk hx
        have hynull := hnull _ hrk _ hyk hy
        have hxy : same less (lkey x) (rkey y) :=
          h.same_trans hxk hlk hyk (same_comm hx) (h.same_trans hlk hrk hyk hlr hy)
        simp only [joins, ← hxnull, ← hynull, hxy]
        simp [hl, hr]
      · obtain ⟨hxk, hx⟩ := hlrun x hx
        have hyk := hrsub' y (hrdrop.mem hy)
        have hxr : same less (lkey x) (rkey r) := h.same_trans hxk hlk hrk (same_comm hx) hlr
        exact joins_eq_false_of_less (.inl (h.less_of_same hxk hrk hyk hxr (hrrest y hy)))
    · refine (nestedLoop_none_right _ fun x hx y hy => ?_).symm
      obtain ⟨hyk, hy⟩ := hrrun y hy
      have hxk := hlsub' x (hldrop.mem hx)
      have hyl : same less (rkey y) (lkey l) :=
        h.same_trans hyk hrk hlk (same_comm hy) (same_comm hlr)
      exact joins_eq_false_of_less (.inr (h.less_of_same hyk hlk hxk hyl (hlrest x hx)))

end Join

end Relite.Lib
