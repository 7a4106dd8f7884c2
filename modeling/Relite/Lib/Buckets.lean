import Relite.Lib.Ranks
import Relite.Lib.Separators

/-!
# Multimaps

Pairs of a key and an element in the order in which they were added, with keys that count as
one where neither is less than the other. A sorted list with one bucket of elements for each
key holds the same.
-/
namespace Relite.Lib

variable {κ ρ : Type}

/-! ## Pairs -/

namespace Multimap

section

variable (less : κ → κ → Bool)

def add (k : κ) (r : ρ) (m : List (κ × ρ)) : List (κ × ρ) := m ++ [(k, r)]

/-- The elements under a key, the first one added first. -/
def find (k : κ) (m : List (κ × ρ)) : List ρ := (m.filter fun p => same less p.1 k).map Prod.snd

/-- Whether the element has been added under the key. -/
def contains [DecidableEq ρ] (k : κ) (r : ρ) (m : List (κ × ρ)) : Bool :=
  m.any fun p => same less p.1 k && decide (p.2 = r)

/-- Without one pair, the first of those that are alike. -/
def remove [DecidableEq ρ] (k : κ) (r : ρ) (m : List (κ × ρ)) : List (κ × ρ) :=
  m.eraseP fun p => same less p.1 k && decide (p.2 = r)

/-- Not less than the lower bound and not more than the upper one. -/
def within (lo hi : Option κ) (k : κ) : Bool :=
  !(lo.any fun lo => less k lo) && !hi.any fun hi => less hi k

/-- The elements between two bounds, by their keys. -/
def scan (lo hi : Option κ) (m : List (κ × ρ)) : List ρ :=
  (stableSort (fun p q => less p.1 q.1) (m.filter fun p => within less lo hi p.1)).map Prod.snd

end

variable {less : κ → κ → Bool} {keys : List κ} {k k' : κ} {r : ρ} {m : List (κ × ρ)}

theorem find_add : find less k' (add k r m) =
    find less k' m ++ if same less k k' then [r] else [] := by
  rw [find, add, List.filter_append, List.map_append, ← find]
  congr 1
  by_cases h : same less k k' <;> simp [h]

theorem remove_of_not_contains [DecidableEq ρ] (h : contains less k r m = false) :
    remove less k r m = m :=
  List.eraseP_of_forall_not fun p hp => by simpa using List.any_eq_false.mp h p hp

theorem find_cons (p : κ × ρ) : find less k (p :: m) =
    if same less p.1 k then p.2 :: find less k m else find less k m := by
  rw [find, List.filter_cons]
  split <;> rfl

theorem find_congr (hless : OrderedOn less keys) (hk : k ∈ keys) (hk' : k' ∈ keys)
    (hm : ∀ p ∈ m, p.1 ∈ keys) (hsame : same less k k') : find less k m = find less k' m := by
  rw [find, find, List.filter_congr fun p hp => Bool.eq_iff_iff.mpr ⟨fun h => ?_, fun h => ?_⟩]
  · exact hless.same_trans (hm p hp) hk hk' h hsame
  · exact hless.same_trans (hm p hp) hk' hk h (same_comm hsame)

theorem mem_find [DecidableEq ρ] : r ∈ find less k m ↔ contains less k r m := by
  simp only [find, contains, List.mem_map, List.mem_filter, List.any_eq_true, Bool.and_eq_true,
    decide_eq_true_eq, and_assoc]

theorem remove_cons [DecidableEq ρ] (p : κ × ρ) : remove less k r (p :: m) =
    if same less p.1 k ∧ p.2 = r then m else p :: remove less k r m := by
  by_cases hp : same less p.1 k ∧ p.2 = r
  · rw [if_pos hp, remove, List.eraseP_cons_of_pos (by simpa using hp)]
  · rw [if_neg hp, remove, List.eraseP_cons_of_neg (by simpa using hp), remove]

/-- Removing under a key takes the first occurrence out of what is found there. -/
theorem find_remove_same [DecidableEq ρ] (hless : OrderedOn less keys) (hk : k ∈ keys)
    (hk' : k' ∈ keys) (hm : ∀ p ∈ m, p.1 ∈ keys) (hsame : same less k k') :
    find less k' (remove less k r m) = (find less k' m).erase r := by
  induction m with
  | nil => rfl
  | cons p m ih =>
    rw [List.forall_mem_cons] at hm
    have hboth : same less p.1 k = same less p.1 k' := Bool.eq_iff_iff.mpr
      ⟨fun h => hless.same_trans hm.1 hk hk' h hsame,
        fun h => hless.same_trans hm.1 hk' hk h (same_comm hsame)⟩
    rw [remove_cons, find_cons, hboth]
    by_cases hp : same less p.1 k'
    · by_cases hr : p.2 = r
      · rw [if_pos ⟨hp, hr⟩, if_pos hp, hr, List.erase_cons_head]
      · rw [if_neg fun h => hr h.2, if_pos hp, find_cons, if_pos hp, ih hm.2,
          List.erase_cons_tail (by simpa using hr)]
    · rw [if_neg fun h => hp h.1, if_neg hp, find_cons, if_neg hp, ih hm.2]

theorem find_remove_other [DecidableEq ρ] (hless : OrderedOn less keys) (hk : k ∈ keys)
    (hk' : k' ∈ keys) (hm : ∀ p ∈ m, p.1 ∈ keys) (hother : same less k k' = false) :
    find less k' (remove less k r m) = find less k' m := by
  induction m with
  | nil => rfl
  | cons p m ih =>
    rw [List.forall_mem_cons] at hm
    rw [remove_cons, find_cons]
    split
    · rename_i hp
      rw [if_neg fun h => ?_]
      have htrans := hless.same_trans hk hm.1 hk' (same_comm hp.1) h
      exact Bool.false_ne_true (hother.symm.trans htrans)
    · rw [find_cons, ih hm.2]

end Multimap

/-! ## Buckets -/

section

variable (less : κ → κ → Bool)

/-- An element more: in the bucket of its key, or in a new one. -/
def addTo (k : κ) (r : ρ) : List (κ × List ρ) → List (κ × List ρ)
  | [] => [(k, [r])]
  | b :: l =>
    if less b.1 k then b :: addTo k r l
    else if less k b.1 then (k, [r]) :: b :: l
    else (b.1, b.2 ++ [r]) :: l

/-- An element less, and its bucket as well if nothing else was in it. -/
def removeFrom [DecidableEq ρ] (k : κ) (r : ρ) : List (κ × List ρ) → List (κ × List ρ)
  | [] => []
  | b :: l =>
    if same less b.1 k then if b.2.erase r = [] then l else (b.1, b.2.erase r) :: l
    else b :: removeFrom k r l

/-- The bucket of a key. -/
def bucketOf (k : κ) (l : List (κ × List ρ)) : List ρ :=
  ((l.find? fun b => same less b.1 k).map Prod.snd).getD []

/-- The buckets hold the pairs: one bucket for each key, in order, and none of them empty. -/
structure Holds (keys : List κ) (l : List (κ × List ρ)) (m : List (κ × ρ)) : Prop where
  sorted : l.Pairwise fun a b => less a.1 b.1
  keyed : ∀ b ∈ l, b.1 ∈ keys
  pairs : ∀ p ∈ m, p.1 ∈ keys
  lists : ∀ b ∈ l, b.2 = Multimap.find less b.1 m
  filled : ∀ b ∈ l, b.2 ≠ []
  covered : ∀ p ∈ m, ∃ b ∈ l, same less b.1 p.1

end

variable {less : κ → κ → Bool} {keys : List κ} {k k' : κ} {r : ρ} {l : List (κ × List ρ)}
  {m : List (κ × ρ)}

theorem OrderedOn.strictWeakOn (h : OrderedOn less keys) : StrictWeakOn (· ∈ keys) less :=
  ⟨fun a b ha hb => h.1 a ha b hb, fun a b c ha hb hc => h.2 a ha b hb c hc⟩

theorem holds_nil (less : κ → κ → Bool) (keys : List κ) :
    Holds less keys ([] : List (κ × List ρ)) [] :=
  ⟨.nil, by simp, by simp, by simp, by simp, by simp⟩

/-- Neither before nor behind its place is there a bucket of a key. -/
theorem same_eq_false_of_apart {x : κ × List ρ} (h : less x.1 k ∨ less k x.1) :
    same less x.1 k = false := by
  rcases h with h | h <;> simp [same, h]

theorem mem_find_self (hless : OrderedOn less keys) {p : κ × ρ} (hp : p ∈ m) (hk : p.1 ∈ keys) :
    p.2 ∈ Multimap.find less p.1 m :=
  List.mem_map_of_mem (List.mem_filter.mpr ⟨hp, hless.same_refl hk⟩)

theorem Holds.find_eq_nil (hless : OrderedOn less keys) (h : Holds less keys l m) (hk : k ∈ keys)
    (hnone : ∀ b ∈ l, same less b.1 k = false) : Multimap.find less k m = [] := by
  rw [Multimap.find, List.map_eq_nil_iff, List.filter_eq_nil_iff]
  intro p hp hsame
  obtain ⟨b, hb, hbp⟩ := h.covered p hp
  have htrans := hless.same_trans (h.keyed b hb) (h.pairs p hp) hk hbp hsame
  exact Bool.false_ne_true ((hnone b hb).symm.trans htrans)

/-- The bucket of one key may become another one, when the pairs change at this key only. -/
theorem Holds.replace (hless : OrderedOn less keys) (hk : k ∈ keys) {front back : List (κ × List ρ)}
    (old new : Option (κ × List ρ)) {m' : List (κ × ρ)}
    (h : Holds less keys (front ++ (old.toList ++ back)) m) (hfront : ∀ x ∈ front, less x.1 k)
    (hback : ∀ x ∈ back, less k x.1) (hold : ∀ b ∈ old, same less b.1 k)
    (hnew : ∀ b ∈ new, b.1 ∈ keys ∧ same less b.1 k ∧ b.2 = Multimap.find less b.1 m' ∧ b.2 ≠ [])
    (hpairs : ∀ p ∈ m', p.1 ∈ keys)
    (hothers : ∀ k' ∈ keys, same less k k' = false →
      Multimap.find less k' m' = Multimap.find less k' m)
    (hcovered : ∀ p ∈ m', same less k p.1 → new.isSome) :
    Holds less keys (front ++ (new.toList ++ back)) m' := by
  have hmem : ∀ x, x ∈ front ++ (new.toList ++ back) → x ∈ new ∨
      x ∈ front ++ (old.toList ++ back) ∧ same less k x.1 = false := by
    intro x hx
    simp only [List.mem_append, Option.mem_toList] at hx ⊢
    have hapart : x ∈ front ∨ x ∈ back → same less k x.1 = false := fun h => by
      have hfalse := same_eq_false_of_apart (h.imp (hfront x) (hback x))
      rw [same, Bool.and_comm] at hfalse
      exact hfalse
    tauto
  refine ⟨?_, fun x hx => ?_, hpairs, fun x hx => ?_, fun x hx => ?_, fun p hp => ?_⟩
  · have hsub : (front ++ back).Sublist (front ++ (old.toList ++ back)) :=
      (List.sublist_append_right _ _).append_left front
    have hsorted := List.pairwise_append.mp (h.sorted.sublist hsub)
    have hfrontKeys : ∀ x ∈ front, x.1 ∈ keys := fun x hx => h.keyed x (List.mem_append_left _ hx)
    have hbackKeys : ∀ x ∈ back, x.1 ∈ keys := fun x hx => h.keyed x (by simp [hx])
    cases new with
    | none => exact List.pairwise_append.mpr hsorted
    | some b =>
      obtain ⟨hb, hsame, -⟩ := hnew b rfl
      simp only [same, Bool.and_eq_true, Bool.not_eq_true'] at hsame
      rw [List.pairwise_append]
      refine ⟨hsorted.1, List.pairwise_cons.mpr ⟨fun y hy => ?_, hsorted.2.1⟩, fun x hx y hy => ?_⟩
      · exact hless.strictWeakOn.less_of_not_less_left hb hk (hbackKeys y hy) hsame.2 (hback y hy)
      · rcases List.mem_cons.mp hy with rfl | hy
        · exact hless.strictWeakOn.less_of_not_less (hfrontKeys x hx) hk hb (hfront x hx) hsame.1
        · exact hsorted.2.2 x hx y hy
  · exact (hmem x hx).elim (fun hx => (hnew x hx).1) fun hx => h.keyed x hx.1
  · rcases hmem x hx with hx | ⟨hx, hnot⟩
    · exact (hnew x hx).2.2.1
    · rw [hothers x.1 (h.keyed x hx) hnot, h.lists x hx]
  · exact (hmem x hx).elim (fun hx => (hnew x hx).2.2.2) fun hx => h.filled x hx.1
  · by_cases hsame : same less k p.1
    · obtain ⟨b, hb⟩ := Option.isSome_iff_exists.mp (hcovered p hp hsame)
      obtain ⟨hbk, hbsame, -⟩ := hnew b hb
      exact ⟨b, by simp [hb], hless.same_trans hbk hk (hpairs p hp) hbsame hsame⟩
    · -- the key of the pair is another one, under which nothing has changed
      rw [Bool.not_eq_true] at hsame
      have hfound := mem_find_self hless hp (hpairs p hp)
      rw [hothers p.1 (hpairs p hp) hsame, Multimap.find, List.mem_map] at hfound
      obtain ⟨p', hp', -⟩ := hfound
      obtain ⟨hp', hpp'⟩ := List.mem_filter.mp hp'
      obtain ⟨b, hb, hbp'⟩ := h.covered p' hp'
      have hbp := hless.same_trans (h.keyed b hb) (h.pairs p' hp') (hpairs p hp) hbp' hpp'
      refine ⟨b, ?_, hbp⟩
      have hnot : b ∉ old := fun hb' => by
        have htrans := hless.same_trans hk (h.keyed b hb) (hpairs p hp) (same_comm (hold b hb')) hbp
        exact Bool.false_ne_true (hsame.symm.trans htrans)
      simp only [List.mem_append, Option.mem_toList] at hb ⊢
      tauto

/-! ### An element more -/

theorem addTo_cases (hless : OrderedOn less keys) (hk : k ∈ keys)
    (hl : l.Pairwise fun a b => less a.1 b.1) (hkeys : ∀ b ∈ l, b.1 ∈ keys) (r : ρ) :
    ∃ front back, (∀ x ∈ front, less x.1 k) ∧ (∀ x ∈ back, less k x.1) ∧
      ((l = front ++ back ∧ addTo less k r l = front ++ (k, [r]) :: back) ∨
        ∃ b, l = front ++ b :: back ∧ same less b.1 k ∧
          addTo less k r l = front ++ (b.1, b.2 ++ [r]) :: back) := by
  induction l with
  | nil => exact ⟨[], [], by simp, by simp, .inl ⟨rfl, rfl⟩⟩
  | cons b l ih =>
    rw [List.pairwise_cons] at hl
    rw [List.forall_mem_cons] at hkeys
    rw [addTo]
    split
    · rename_i hb
      obtain ⟨front, back, hfront, hback, h⟩ := ih hl.2 hkeys.2
      refine ⟨b :: front, back, List.forall_mem_cons.mpr ⟨hb, hfront⟩, hback, ?_⟩
      rcases h with ⟨hl, hadd⟩ | ⟨b', hl, hsame, hadd⟩
      · exact .inl ⟨by rw [hl, List.cons_append], by rw [hadd, List.cons_append]⟩
      · exact .inr ⟨b', by rw [hl, List.cons_append], hsame, by rw [hadd, List.cons_append]⟩
    · rename_i hb
      rw [Bool.not_eq_true] at hb
      split
      · rename_i hkb
        refine ⟨[], b :: l, by simp, List.forall_mem_cons.mpr ⟨hkb, fun x hx => ?_⟩,
          .inl ⟨rfl, rfl⟩⟩
        exact hless.strictWeakOn.trans hk hkeys.1 (hkeys.2 x hx) hkb (hl.1 x hx)
      · rename_i hkb
        rw [Bool.not_eq_true] at hkb
        refine ⟨[], l, by simp, fun x hx => ?_, .inr ⟨b, rfl, by simp [same, hb, hkb], rfl⟩⟩
        exact hless.strictWeakOn.less_of_not_less_left hk hkeys.1 (hkeys.2 x hx) hb (hl.1 x hx)

theorem addTo_ne_nil (less : κ → κ → Bool) (k : κ) (r : ρ) (l : List (κ × List ρ)) : addTo less k r l ≠ [] := by
  cases l with
  | nil => exact List.cons_ne_nil _ _
  | cons b l =>
    rw [addTo]
    split
    · exact List.cons_ne_nil _ _
    · split <;> exact List.cons_ne_nil _ _

theorem length_addTo_le (less : κ → κ → Bool) (k : κ) (r : ρ) (l : List (κ × List ρ)) :
    (addTo less k r l).length ≤ l.length + 1 := by
  induction l with
  | nil => exact le_rfl
  | cons b l ih =>
    rw [addTo]
    split
    · simpa using ih
    · split <;> simp

/-- In lists of keys and elements the place is behind the keys that are less. -/
theorem addTo_position (less : κ → κ → Bool) (k : κ) (r : ρ) (l : List (κ × List ρ)) :
    let pos := ((l.map Prod.fst).takeWhile fun x => less x k).length
    if (l.map Prod.fst)[pos]?.any fun x => same less x k then
      (addTo less k r l).map Prod.fst = l.map Prod.fst ∧
        ∃ rs, (l.map Prod.snd)[pos]? = some rs ∧
          (addTo less k r l).map Prod.snd = (l.map Prod.snd).set pos (rs ++ [r])
    else (addTo less k r l).map Prod.fst = (l.map Prod.fst).insertIdx pos k ∧
      (addTo less k r l).map Prod.snd = (l.map Prod.snd).insertIdx pos [r] := by
  induction l with
  | nil => exact ⟨rfl, rfl⟩
  | cons b l ih =>
    by_cases hb : less b.1 k
    · simp only [addTo, List.map_cons, hb, if_true, List.takeWhile_cons, List.length_cons,
        List.getElem?_cons_succ, List.insertIdx_succ_cons, List.set_cons_succ] at ih ⊢
      split at ih
      · rename_i hsame
        obtain ⟨hkeys, rs, hrs, hvalues⟩ := ih
        rw [if_pos hsame]
        exact ⟨by rw [hkeys], rs, hrs, by rw [hvalues]⟩
      · rename_i hsame
        rw [if_neg hsame]
        exact ⟨by rw [ih.1], by rw [ih.2]⟩
    · by_cases hk : less k b.1 <;> simp [addTo, hb, hk, same]

/-- An element goes between the buckets that are less and those that are more. -/
theorem addTo_append (hless : OrderedOn less keys) (hk : k ∈ keys) {front back : List (κ × List ρ)}
    (hfront : ∀ x ∈ front, less x.1 k) (hback : ∀ x ∈ back, x.1 ∈ keys ∧ less k x.1) (r : ρ)
    (l : List (κ × List ρ)) :
    addTo less k r (front ++ l ++ back) = front ++ addTo less k r l ++ back := by
  induction front with
  | nil =>
    rw [List.nil_append, List.nil_append]
    induction l with
    | nil =>
      cases back with
      | nil => rfl
      | cons x back =>
        obtain ⟨hx, hkx⟩ := hback x List.mem_cons_self
        simp [addTo, hkx, hless.1 _ hk _ hx hkx]
    | cons b l ih =>
      rw [List.cons_append, addTo, addTo]
      split
      · rw [ih, List.cons_append]
      · split <;> rfl
  | cons x front ih =>
    rw [List.forall_mem_cons] at hfront
    rw [List.cons_append, List.cons_append, addTo, if_pos hfront.1, ih hfront.2]
    rfl

theorem Holds.add (hless : OrderedOn less keys) (h : Holds less keys l m) (hk : k ∈ keys) (r : ρ) :
    Holds less keys (addTo less k r l) (Multimap.add k r m) := by
  obtain ⟨front, back, hfront, hback, hcases⟩ := addTo_cases hless hk h.sorted h.keyed r
  have hpairs : ∀ p ∈ Multimap.add k r m, p.1 ∈ keys := by
    intro p hp
    rcases List.mem_append.mp hp with hp | hp
    · exact h.pairs p hp
    · rw [List.mem_singleton.mp hp]
      exact hk
  have hothers : ∀ k' ∈ keys, same less k k' = false →
      Multimap.find less k' (Multimap.add k r m) = Multimap.find less k' m := by
    intro k' _ hnot
    rw [Multimap.find_add, hnot]
    exact List.append_nil _
  rcases hcases with ⟨rfl, hadd⟩ | ⟨b, rfl, hsame, hadd⟩
  · have hnone : Multimap.find less k m = [] := h.find_eq_nil hless hk fun x hx =>
      same_eq_false_of_apart ((List.mem_append.mp hx).imp (hfront x) (hback x))
    rw [hadd]
    refine Holds.replace hless hk none (some (k, [r])) h hfront hback (by simp) ?_
      hpairs hothers fun _ _ _ => rfl
    rintro b ⟨⟩
    refine ⟨hk, hless.same_refl hk, ?_, List.cons_ne_nil _ _⟩
    rw [Multimap.find_add, hnone, hless.same_refl hk]
    rfl
  · rw [hadd]
    refine Holds.replace hless hk (some b) (some (b.1, b.2 ++ [r])) h hfront hback
      (by simpa using hsame) ?_ hpairs hothers fun _ _ _ => rfl
    rintro b' ⟨⟩
    refine ⟨h.keyed b (by simp), hsame, ?_, by simp⟩
    rw [Multimap.find_add, if_pos (same_comm hsame), ← h.lists b (by simp)]

/-! ### An element less -/

theorem removeFrom_cases [DecidableEq ρ] (hless : OrderedOn less keys) (hk : k ∈ keys)
    (hl : l.Pairwise fun a b => less a.1 b.1) (hkeys : ∀ b ∈ l, b.1 ∈ keys) (r : ρ) :
    ((∀ b ∈ l, same less b.1 k = false) ∧ removeFrom less k r l = l) ∨
      ∃ front b back, (∀ x ∈ front, less x.1 k) ∧ (∀ x ∈ back, less k x.1) ∧
        l = front ++ b :: back ∧ same less b.1 k ∧ removeFrom less k r l =
          front ++ ((if b.2.erase r = [] then none else some (b.1, b.2.erase r)).toList ++ back) := by
  induction l with
  | nil => exact .inl ⟨by simp, rfl⟩
  | cons b l ih =>
    rw [List.pairwise_cons] at hl
    rw [List.forall_mem_cons] at hkeys
    rw [removeFrom]
    by_cases hsame : same less b.1 k
    · have hparts := hsame
      simp only [same, Bool.and_eq_true, Bool.not_eq_true'] at hparts
      refine .inr ⟨[], b, l, by simp, fun x hx => ?_, rfl, hsame, ?_⟩
      · exact hless.strictWeakOn.less_of_not_less_left hk hkeys.1 (hkeys.2 x hx) hparts.1 (hl.1 x hx)
      · rw [if_pos hsame]
        split <;> simp
    · rw [if_neg hsame]
      rcases ih hl.2 hkeys.2 with ⟨hnone, heq⟩ | ⟨front, b', back, hfront, hback, hl', hsame', heq⟩
      · exact .inl ⟨List.forall_mem_cons.mpr ⟨by simpa using hsame, hnone⟩, by rw [heq]⟩
      · refine .inr ⟨b :: front, b', back, List.forall_mem_cons.mpr ⟨?_, hfront⟩, hback,
          by rw [hl', List.cons_append], hsame', by rw [heq, List.cons_append]⟩
        have hb' : b' ∈ l := by simp [hl']
        simp only [same, Bool.and_eq_true, Bool.not_eq_true'] at hsame'
        exact hless.strictWeakOn.less_of_not_less hkeys.1 (hkeys.2 b' hb') hk (hl.1 b' hb') hsame'.2

theorem removeFrom_position [DecidableEq ρ] (less : κ → κ → Bool) (k : κ) (r : ρ) (l : List (κ × List ρ)) :
    match (l.map Prod.fst).findIdx? fun x => same less x k with
    | none => ∀ b ∈ l, same less b.1 k = false
    | some pos => ∃ b, l[pos]? = some b ∧ same less b.1 k ∧ bucketOf less k l = b.2 ∧
        removeFrom less k r l =
          if b.2.erase r = [] then l.eraseIdx pos else l.set pos (b.1, b.2.erase r) := by
  induction l with
  | nil => simp
  | cons b l ih =>
    rw [List.map_cons, List.findIdx?_cons]
    by_cases hb : same less b.1 k
    · rw [if_pos hb]
      refine ⟨b, rfl, hb, by simp [bucketOf, hb], ?_⟩
      rw [removeFrom, if_pos hb]
      rfl
    · rw [if_neg hb]
      cases hfind : (l.map Prod.fst).findIdx? fun x => same less x k with
      | none =>
        rw [hfind] at ih
        exact List.forall_mem_cons.mpr ⟨by simpa using hb, ih⟩
      | some pos =>
        rw [hfind] at ih
        obtain ⟨b', hb', hsame, hbucket, hremove⟩ := ih
        refine ⟨b', hb', hsame, ?_, ?_⟩
        · simp [← hbucket, bucketOf, hb]
        · rw [removeFrom, if_neg hb, hremove]
          split <;> rfl

theorem removeFrom_cons_of_ne [DecidableEq ρ] {b : κ × List ρ} (hb : same less b.1 k = false) :
    removeFrom less k r (b :: l) = b :: removeFrom less k r l := by
  rw [removeFrom, hb]
  rfl

theorem removeFrom_append [DecidableEq ρ] {front back : List (κ × List ρ)}
    (hfront : ∀ x ∈ front, less x.1 k) (hback : ∀ x ∈ back, less k x.1) (r : ρ)
    (l : List (κ × List ρ)) :
    removeFrom less k r (front ++ l ++ back) = front ++ removeFrom less k r l ++ back := by
  induction front with
  | nil =>
    rw [List.nil_append, List.nil_append]
    induction l with
    | nil =>
      induction back with
      | nil => rfl
      | cons x back ih =>
        rw [List.forall_mem_cons] at hback
        rw [List.nil_append, removeFrom_cons_of_ne (same_eq_false_of_apart (.inr hback.1))]
        exact congrArg (x :: ·) (ih hback.2)
    | cons b l ih =>
      rw [List.cons_append, removeFrom, removeFrom]
      split
      · split <;> rfl
      · rw [ih, List.cons_append]
  | cons x front ih =>
    rw [List.forall_mem_cons] at hfront
    rw [List.cons_append, List.cons_append,
      removeFrom_cons_of_ne (same_eq_false_of_apart (.inl hfront.1)), ih hfront.2]
    rfl

theorem map_fst_removeFrom [DecidableEq ρ] (less : κ → κ → Bool) (k : κ) (r : ρ)
    (l : List (κ × List ρ)) : ((removeFrom less k r l).map Prod.fst).Sublist (l.map Prod.fst) := by
  induction l with
  | nil => exact .refl _
  | cons b l ih =>
    rw [removeFrom]
    split
    · split
      · exact List.sublist_cons_self _ _
      · exact .refl _
    · exact ih.cons_cons _

theorem length_removeFrom_le [DecidableEq ρ] (less : κ → κ → Bool) (k : κ) (r : ρ) (l : List (κ × List ρ)) :
    (removeFrom less k r l).length ≤ l.length := by
  induction l with
  | nil => exact le_rfl
  | cons b l ih =>
    rw [removeFrom]
    split
    · split <;> simp
    · simpa using ih

theorem Holds.remove [DecidableEq ρ] (hless : OrderedOn less keys) (h : Holds less keys l m)
    (hk : k ∈ keys) (r : ρ) : Holds less keys (removeFrom less k r l) (Multimap.remove less k r m) := by
  have hpairs : ∀ p ∈ Multimap.remove less k r m, p.1 ∈ keys := fun p hp =>
    h.pairs p (List.mem_of_mem_eraseP hp)
  have hothers : ∀ k' ∈ keys, same less k k' = false →
      Multimap.find less k' (Multimap.remove less k r m) = Multimap.find less k' m :=
    fun k' hk' hnot => Multimap.find_remove_other hless hk hk' h.pairs hnot
  rcases removeFrom_cases hless hk h.sorted h.keyed r with
    ⟨hnone, heq⟩ | ⟨front, b, back, hfront, hback, rfl, hsame, heq⟩
  · have hempty : Multimap.contains less k r m = false := by
      rw [← Bool.not_eq_true, ← Multimap.mem_find, h.find_eq_nil hless hk hnone]
      exact List.not_mem_nil
    rwa [heq, Multimap.remove_of_not_contains hempty]
  · have hb : b.1 ∈ keys := h.keyed b (by simp)
    have hlist : b.2.erase r = Multimap.find less b.1 (Multimap.remove less k r m) := by
      rw [Multimap.find_remove_same hless hk hb h.pairs (same_comm hsame), ← h.lists b (by simp)]
    rw [heq]
    refine Holds.replace hless hk (some b) _ h hfront hback (by simpa using hsame) ?_ hpairs
      hothers fun p hp hpk => ?_
    · intro b' hb'
      split at hb'
      · cases hb'
      · rename_i hne
        obtain rfl := Option.some.inj hb'
        exact ⟨hb, hsame, hlist, hne⟩
    · have hpb := hless.same_trans (hpairs p hp) hk hb (same_comm hpk) (same_comm hsame)
      have hmem := mem_find_self hless hp (hpairs p hp)
      rw [Multimap.find_congr hless (hpairs p hp) hb hpairs hpb, ← hlist] at hmem
      rw [if_neg (List.ne_nil_of_mem hmem)]
      rfl

/-! ### What is found -/

theorem Holds.bucketOf_eq (hless : OrderedOn less keys) (h : Holds less keys l m) (hk : k ∈ keys) :
    bucketOf less k l = Multimap.find less k m := by
  rw [bucketOf]
  cases hfind : l.find? fun b => same less b.1 k with
  | none =>
    refine (h.find_eq_nil hless hk fun b hb => ?_).symm
    simpa using List.find?_eq_none.mp hfind b hb
  | some b =>
    have hb := List.mem_of_find?_eq_some hfind
    have hsame : same less b.1 k := by simpa using List.find?_some hfind
    rw [← Multimap.find_congr hless (h.keyed b hb) hk h.pairs hsame, ← h.lists b hb]
    rfl

/-- A bucket is found among those that may be it. -/
theorem bucketOf_append {front back : List (κ × List ρ)} (hfront : ∀ x ∈ front, less x.1 k)
    (hback : ∀ x ∈ back, less k x.1) (l : List (κ × List ρ)) :
    bucketOf less k (front ++ l ++ back) = bucketOf less k l := by
  have hnone : ∀ l' : List (κ × List ρ), (∀ x ∈ l', less x.1 k ∨ less k x.1) →
      (l'.find? fun b => same less b.1 k) = none := by
    intro l' hl'
    refine List.find?_eq_none.mpr fun x hx => ?_
    rw [same_eq_false_of_apart (hl' x hx)]
    exact Bool.false_ne_true
  rw [bucketOf, List.find?_append, List.find?_append, hnone front fun x hx => .inl (hfront x hx),
    hnone back fun x hx => .inr (hback x hx), Option.none_or, Option.or_none, bucketOf]

theorem Holds.exists_pair (h : Holds less keys l m) {b : κ × List ρ} (hb : b ∈ l) :
    ∃ p ∈ m, same less p.1 b.1 := by
  have hne := h.filled b hb
  rw [h.lists b hb, Multimap.find, ne_eq, List.map_eq_nil_iff, List.filter_eq_nil_iff] at hne
  simpa using hne

/-- There is one bucket for each key. -/
theorem Holds.representatives (hless : OrderedOn less keys) (h : Holds less keys l m) :
    ∃ reps, Representatives less (m.map Prod.fst) reps ∧ l.length = reps.length := by
  -- the key of a bucket may have been added with a pair that is gone
  choose pick hpick using fun b : {b // b ∈ l} => h.exists_pair b.2
  have hkey : ∀ b : {b // b ∈ l}, (pick b).1 ∈ keys := fun b => h.pairs _ (hpick b).1
  refine ⟨l.attach.map fun b => (pick b).1, ⟨fun k hk => ?_, ?_, fun k hk => ?_⟩, by simp⟩
  · obtain ⟨b, -, rfl⟩ := List.mem_map.mp hk
    exact List.mem_map_of_mem (hpick b).1
  · have hsorted : l.attach.Pairwise fun a b => less a.1.1 b.1.1 := by
      rw [← List.pairwise_map (f := Subtype.val) (R := fun a b : κ × List ρ => less a.1 b.1),
        List.attach_map_subtype_val]
      exact h.sorted
    refine List.pairwise_map.mpr (hsorted.imp fun {a b} hab => ?_)
    by_contra hsame
    rw [Bool.not_eq_false] at hsame
    have ha := h.keyed a.1 a.2
    have hb := h.keyed b.1 b.2
    have htrans := hless.same_trans ha (hkey a) (hkey b) (same_comm (hpick a).2) hsame
    have hab' := hless.same_trans ha (hkey b) hb htrans (hpick b).2
    simp [same, hab] at hab'
  · obtain ⟨p, hp, rfl⟩ := List.mem_map.mp hk
    obtain ⟨b, hb, hbp⟩ := h.covered p hp
    refine ⟨_, List.mem_map_of_mem (List.mem_attach l ⟨b, hb⟩), ?_⟩
    exact hless.same_trans (h.pairs p hp) (h.keyed b hb) (hkey ⟨b, hb⟩) (same_comm hbp)
      (same_comm (hpick ⟨b, hb⟩).2)

/-- Where each element belongs to one class, the classes make up the whole. -/
theorem perm_flatMap_filter {α β : Type} {f : β → α → Bool} (l : List β) (m : List α)
    (hone : ∀ x ∈ m, ∃ b ∈ l, f b x) (hapart : l.Pairwise fun a b => ∀ x ∈ m, f a x → f b x = false) :
    (l.flatMap fun b => m.filter (f b)).Perm m := by
  induction l generalizing m with
  | nil =>
    cases m with
    | nil => exact .nil
    | cons x m => exact absurd (hone x List.mem_cons_self) (by simp)
  | cons b l ih =>
    rw [List.pairwise_cons] at hapart
    have hrest : (l.flatMap fun b' => m.filter (f b')) =
        l.flatMap fun b' => (m.filter fun x => !f b x).filter (f b') := by
      refine List.flatMap_congr fun b' hb' => ?_
      rw [List.filter_filter]
      refine List.filter_congr fun x hx => ?_
      have hnot := hapart.1 b' hb' x hx
      cases hfb : f b x
      · simp
      · simp [hnot hfb]
    have hperm := ih (m.filter fun x => !f b x) (fun x hx => ?_) (hapart.2.imp fun hab x hx =>
      hab x (List.mem_of_mem_filter hx))
    · rw [List.flatMap_cons, hrest]
      exact (hperm.append_left _).trans (List.filter_append_perm (f b) m)
    · obtain ⟨hx, hnot⟩ := List.mem_filter.mp hx
      obtain ⟨b', hb', hfb'⟩ := hone x hx
      rcases List.mem_cons.mp hb' with rfl | hb'
      · simp [hfb'] at hnot
      · exact ⟨b', hb', hfb'⟩

theorem within_congr (hless : OrderedOn less keys) {lo hi : Option κ} (hlo : ∀ k ∈ lo, k ∈ keys)
    (hhi : ∀ k ∈ hi, k ∈ keys) (hk : k ∈ keys) (hk' : k' ∈ keys) (hsame : same less k k') :
    Multimap.within less lo hi k = Multimap.within less lo hi k' := by
  have hleft : ∀ a ∈ keys, less k a = less k' a := fun a ha => Bool.eq_iff_iff.mpr
    ⟨hless.less_of_same hk' hk ha (same_comm hsame), hless.less_of_same hk hk' ha hsame⟩
  have hright : ∀ a ∈ keys, less a k = less a k' := fun a ha => Bool.eq_iff_iff.mpr
    ⟨hless.flip.less_of_same hk' hk ha hsame, hless.flip.less_of_same hk hk' ha (same_comm hsame)⟩
  rw [Multimap.within, Multimap.within]
  congr 1
  · cases lo with
    | none => rfl
    | some a => simp [hleft a (hlo a rfl)]
  · cases hi with
    | none => rfl
    | some a => simp [hright a (hhi a rfl)]

/-- What is the same as an element stands in its class only. -/
theorem filter_class (hless : OrderedOn less keys) (hm : ∀ p ∈ m, p.1 ∈ keys)
    (hl : ∀ b ∈ l, b.1 ∈ keys)
    (hapart : l.Pairwise fun a b => ∀ p ∈ m, same less p.1 a.1 → same less p.1 b.1 = false)
    {c : κ × ρ} (hc : c ∈ l.flatMap fun b => m.filter fun p => same less p.1 b.1) :
    (l.flatMap fun b => m.filter fun p => same less p.1 b.1).filter
        (same (fun p q => less p.1 q.1) c) =
      m.filter (same (fun p q => less p.1 q.1) c) := by
  obtain ⟨b, hb, hcb⟩ := List.mem_flatMap.mp hc
  obtain ⟨hcm, hcb⟩ := List.mem_filter.mp hcb
  obtain ⟨front, back, rfl⟩ := List.append_of_mem hb
  rw [List.pairwise_append, List.pairwise_cons] at hapart
  obtain ⟨-, ⟨hback, -⟩, hfront⟩ := hapart
  have hnone : ∀ l' : List (κ × List ρ), (∀ a ∈ l', a.1 ∈ keys) →
      (∀ a ∈ l', same less c.1 a.1 = false) →
      (l'.flatMap fun b => m.filter fun p => same less p.1 b.1).filter
        (same (fun p q => less p.1 q.1) c) = [] := by
    intro l' hkeys hnot
    rw [List.filter_eq_nil_iff]
    intro p hp hcp
    obtain ⟨a, ha, hpa⟩ := List.mem_flatMap.mp hp
    obtain ⟨hpm, hpa⟩ := List.mem_filter.mp hpa
    have hca := hless.same_trans (hm c hcm) (hm p hpm) (hkeys a ha) hcp hpa
    exact Bool.false_ne_true ((hnot a ha).symm.trans hca)
  rw [List.flatMap_append, List.flatMap_cons, List.filter_append, List.filter_append,
    hnone front (fun a ha => hl a (List.mem_append_left _ ha)) fun a ha => ?_,
    hnone back (fun a ha => hl a (by simp [ha])) fun a ha => hback a ha c hcm hcb,
    List.nil_append, List.append_nil, List.filter_filter]
  · refine List.filter_congr fun p hp => ?_
    by_cases hcp : same (fun p q : κ × ρ => less p.1 q.1) c p
    · have hpb := hless.same_trans (hm p hp) (hm c hcm) (hl b hb) (same_comm hcp) hcb
      rw [hcp, hpb]
      rfl
    · rw [Bool.not_eq_true] at hcp
      rw [hcp, Bool.false_and]
  · by_contra hca
    rw [Bool.not_eq_false] at hca
    have hnot := hfront a ha b List.mem_cons_self c hcm hca
    exact Bool.false_ne_true (hnot.symm.trans hcb)

/-- The buckets between two bounds, one after another, are the elements by their keys. -/
theorem Holds.scan (hless : OrderedOn less keys) (h : Holds less keys l m) {lo hi : Option κ}
    (hlo : ∀ k ∈ lo, k ∈ keys) (hhi : ∀ k ∈ hi, k ∈ keys) :
    (l.filter fun b => Multimap.within less lo hi b.1).flatMap Prod.snd =
      Multimap.scan less lo hi m := by
  set l' := l.filter fun b => Multimap.within less lo hi b.1 with hl'
  set m' := m.filter fun p => Multimap.within less lo hi p.1 with hm'
  have hsub : ∀ b ∈ l', b ∈ l := fun b hb => List.mem_of_mem_filter hb
  have hpairs : ∀ p ∈ m', p.1 ∈ keys := fun p hp => h.pairs p (List.mem_of_mem_filter hp)
  have hclass : ∀ b ∈ l', (m'.filter fun p => same less p.1 b.1).map Prod.snd = b.2 := by
    intro b hb
    rw [h.lists b (hsub b hb), Multimap.find, hm', List.filter_filter]
    refine congrArg _ (List.filter_congr fun p hp => ?_)
    by_cases hsame : same less p.1 b.1
    · have hin := (List.mem_filter.mp hb).2
      rw [← within_congr hless hlo hhi (h.pairs p hp) (h.keyed b (hsub b hb)) hsame] at hin
      rw [hsame, hin, Bool.and_true]
    · rw [Bool.not_eq_true] at hsame
      rw [hsame, Bool.false_and]
  have hsorted : l'.Pairwise fun a b => less a.1 b.1 := h.sorted.filter _
  have hapart : l'.Pairwise fun a b =>
      ∀ p ∈ m', same less p.1 a.1 → same less p.1 b.1 = false := by
    refine hsorted.imp_of_mem fun {a b} ha hb hab p hp hpa => ?_
    by_contra hpb
    rw [Bool.not_eq_false] at hpb
    have hboth := hless.same_trans (h.keyed a (hsub a ha)) (hpairs p hp) (h.keyed b (hsub b hb))
      (same_comm hpa) hpb
    simp [same, hab] at hboth
  have hone : ∀ p ∈ m', ∃ b ∈ l', same less p.1 b.1 := by
    intro p hp
    obtain ⟨hpm, hin⟩ := List.mem_filter.mp hp
    obtain ⟨b, hb, hbp⟩ := h.covered p hpm
    refine ⟨b, List.mem_filter.mpr ⟨hb, ?_⟩, same_comm hbp⟩
    rw [within_congr hless hlo hhi (h.keyed b hb) (h.pairs p hpm) hbp]
    exact hin
  have hperm := perm_flatMap_filter (f := fun b p => same less p.1 b.1) l' m' hone hapart
  have hmap : (l'.flatMap fun b => m'.filter fun p => same less p.1 b.1).map Prod.snd =
      l'.flatMap Prod.snd := by
    rw [List.map_flatMap]
    exact List.flatMap_congr hclass
  have hord : OrderedOn (fun p q : κ × ρ => less p.1 q.1) m' :=
    OrderedOn.map (hless.subset (List.forall_mem_map.mpr hpairs))
  have hsortedAll : Sorted (fun p q : κ × ρ => less p.1 q.1)
      (l'.flatMap fun b => m'.filter fun p => same less p.1 b.1) := by
    rw [Sorted, List.pairwise_flatMap]
    refine ⟨fun b hb => ?_, hsorted.imp_of_mem fun {a b} ha hb hab p hp q hq => ?_⟩
    · refine List.pairwise_iff_forall_sublist.mpr fun {p q} hsub' => ?_
      obtain ⟨hp, hpb⟩ := List.mem_filter.mp (hsub'.subset (by simp : p ∈ [p, q]))
      obtain ⟨hq, hqb⟩ := List.mem_filter.mp (hsub'.subset (by simp : q ∈ [p, q]))
      have hpq := hless.same_trans (hpairs p hp) (h.keyed b (hsub b hb)) (hpairs q hq) hpb
        (same_comm hqb)
      simp only [same, Bool.and_eq_true, Bool.not_eq_true'] at hpq
      exact hpq.2
    · obtain ⟨hp, hpa⟩ := List.mem_filter.mp hp
      obtain ⟨hq, hqb⟩ := List.mem_filter.mp hq
      have hka := h.keyed a (hsub a ha)
      have hkb := h.keyed b (hsub b hb)
      have hpb := hless.less_of_same (hpairs p hp) hka hkb hpa hab
      have hpq := hless.flip.less_of_same (hpairs q hq) hkb (hpairs p hp) (same_comm hqb) hpb
      exact hless.1 _ (hpairs p hp) _ (hpairs q hq) hpq
  have heq : (l'.flatMap fun b => m'.filter fun p => same less p.1 b.1) =
      stableSort (fun p q => less p.1 q.1) m' := by
    refine hsortedAll.eq_of_filter_same (sorted_stableSort hord)
      (hperm.trans (stableSort_perm _ _).symm)
      (hord.subset fun p hp => hperm.mem_iff.mp hp) fun c hc => ?_
    have hcm : c ∈ m' := hperm.mem_iff.mp hc
    rw [filter_same_stableSort (hord.subset (List.cons_subset.mpr ⟨hcm, List.Subset.refl _⟩))]
    exact filter_class hless hpairs (fun b hb => h.keyed b (hsub b hb)) hapart hc
  rw [← hmap, heq, Multimap.scan]

end Relite.Lib
