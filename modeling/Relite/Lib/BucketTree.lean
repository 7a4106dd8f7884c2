import Relite.Lib.Buckets
import Mathlib.Data.List.Nodup
import Mathlib.Data.List.Perm.Basic

/-!
# Search trees with buckets

A search tree of any height whose leaves hold buckets, with the number of a node at each of
its places. A bucket may be added, which may make two subtrees of one, or go, and what is left
empty goes with it. In both cases one leaf changes, and what is before and behind it stays.
-/
namespace Relite.Lib

/-! ## One child and the others -/

namespace Children

variable {ε α β : Type} (less : ε → ε → Bool) (e : ε)

/-- The children before the one that an entry belongs into. -/
def before : Children ε α → List α
  | last _ => []
  | more c s rest => if less e s then [] else c :: rest.before

/-- The children behind it. -/
def behind : Children ε α → List α
  | last _ => []
  | more _ s rest => if less e s then rest.kids else rest.behind

/-- The children, with one in front of which there is a separator, without the one that an entry
belongs into and the separator before it. -/
def removeAfter (c : α) (s : ε) : Children ε α → Children ε α
  | last _ => last c
  | more c' s' rest => if less e s' then more c s' rest else more c s (removeAfter c' s' rest)

/-- The children without the one that an entry belongs into, with one separator less. -/
def remove : Children ε α → Option (Children ε α)
  | last _ => none
  | more c s rest => if less e s then some rest else some (rest.removeAfter less e c s)

variable {less e}

theorem kids_eq (less : ε → ε → Bool) (e : ε) (ks : Children ε α) :
    ks.kids = ks.before less e ++ ks.childFor less e :: ks.behind less e := by
  fun_induction childFor less e ks with
  | case1 c => rfl
  | case2 c s rest h => simp [kids, before, behind, h]
  | case3 c s rest h ih => simp [kids, before, behind, h, ih]

theorem length_takeWhile_seps (ks : Children ε α) :
    (ks.seps.takeWhile fun s => !less e s).length = (ks.before less e).length := by
  fun_induction before less e ks with
  | case1 c => rfl
  | case2 c s rest h => simp [seps, h]
  | case3 c s rest h ih => simp [seps, h, ih]

theorem length_kids (ks : Children ε α) : ks.kids.length = ks.seps.length + 1 := by
  induction ks with
  | last c => rfl
  | more c s rest ih => simp [kids, seps, ih]

theorem kids_update_one (c' : α) (ks : Children ε α) :
    (ks.update less e c' none).kids = ks.before less e ++ c' :: ks.behind less e := by
  induction ks with
  | last c => rfl
  | more c s rest ih =>
    by_cases h : less e s <;> simp [update, kids, before, behind, h, ih]

theorem kids_update_two (c' : α) (up : ε) (r : α) (ks : Children ε α) :
    (ks.update less e c' (some (up, r))).kids =
      ks.before less e ++ c' :: r :: ks.behind less e := by
  induction ks with
  | last c => rfl
  | more c s rest ih =>
    by_cases h : less e s <;> simp [update, kids, before, behind, h, ih]

theorem seps_update_two (c' : α) (up : ε) (r : α) (ks : Children ε α) :
    (ks.update less e c' (some (up, r))).seps =
      ks.seps.insertIdx (ks.before less e).length up := by
  induction ks with
  | last c => rfl
  | more c s rest ih =>
    by_cases h : less e s <;> simp [update, seps, before, h, ih]

theorem kids_removeAfter (c : α) (s : ε) (ks : Children ε α) :
    (ks.removeAfter less e c s).kids = c :: (ks.before less e ++ ks.behind less e) := by
  induction ks generalizing c s with
  | last c' => rfl
  | more c' s' rest ih =>
    by_cases h : less e s' <;> simp [removeAfter, kids, before, behind, h, ih]

theorem seps_removeAfter (c : α) (s : ε) (ks : Children ε α) :
    (ks.removeAfter less e c s).seps = (s :: ks.seps).eraseIdx (ks.before less e).length := by
  induction ks generalizing c s with
  | last c' => rfl
  | more c' s' rest ih =>
    by_cases h : less e s' <;> simp [removeAfter, seps, before, h, ih]

/-- The only child of a node leaves nothing behind. -/
theorem remove_cases (less : ε → ε → Bool) (e : ε) (ks : Children ε α) :
    (ks.remove less e = none ∧ ks = last (ks.childFor less e)) ∨
      ∃ ks', ks.remove less e = some ks' ∧ ks.seps ≠ [] ∧
        ks'.kids = ks.before less e ++ ks.behind less e ∧
        ks'.seps = ks.seps.eraseIdx ((ks.before less e).length - 1) := by
  cases ks with
  | last c => exact .inl ⟨rfl, rfl⟩
  | more c s rest =>
    refine .inr ?_
    by_cases h : less e s
    · exact ⟨rest, by simp [remove, h], by simp [seps], by simp [before, behind, h],
        by simp [seps, before, h]⟩
    · refine ⟨rest.removeAfter less e c s, by simp [remove, h], by simp [seps], ?_, ?_⟩
      · simp [kids_removeAfter, before, behind, h]
      · simp [seps_removeAfter, seps, before, h]

/-- Where one child has taken the place of another, everything else is as before. -/
theorem update_one_spec (less : ε → ε → Bool) (e : ε) (c' : α) (ks : Children ε α) :
    (ks.update less e c' none).childFor less e = c' ∧
      (ks.update less e c' none).before less e = ks.before less e ∧
      (ks.update less e c' none).behind less e = ks.behind less e := by
  induction ks with
  | last c => exact ⟨rfl, rfl, rfl⟩
  | more c s rest ih =>
    by_cases h : less e s
    · simp [update, childFor, before, behind, h]
    · simp [update, childFor, before, behind, h, ih]

section Bounded

variable {P : ε → Prop} {W : Option ε → Option ε → α → Prop}

theorem Bounded.before (h : StrictWeakOn P less) {f : α → List ε}
    (hW : ∀ lo hi c, (∀ l ∈ lo, P l) → (∀ u ∈ hi, P u) → W lo hi c →
      (f c).Pairwise (fun a b => less a b) ∧ ∀ x ∈ f c, P x ∧ From less lo x ∧ Below less hi x)
    (he : P e) {ks : Children ε α} {lo hi : Option ε} (hlo : ∀ l ∈ lo, P l)
    (hhi : ∀ u ∈ hi, P u) (hks : ks.Bounded P less W lo hi) :
    (∀ x ∈ (ks.before less e).flatMap f, less x e) ∧
      ∀ x ∈ (ks.behind less e).flatMap f, less e x := by
  induction ks generalizing lo with
  | last c => simp [Children.before, behind]
  | more c s rest ih =>
    obtain ⟨hc, hs, hsl, hsu, hrest⟩ := hks
    have hsP : ∀ l ∈ some s, P l := by simpa using hs
    rw [Children.before, behind]
    by_cases hes : less e s
    · rw [if_pos hes, if_pos hes]
      refine ⟨by simp, fun x hx => ?_⟩
      rw [← flat_eq_flatMap] at hx
      obtain ⟨hPx, hfrom, -⟩ := (hrest.flat h hW hsP hhi).2 x hx
      exact h.less_of_not_less he hs hPx hes (hfrom s rfl)
    · rw [if_neg hes, if_neg hes, List.flatMap_cons]
      obtain ⟨hbefore, hbehind⟩ := ih hsP hrest
      refine ⟨fun x hx => ?_, hbehind⟩
      rcases List.mem_append.mp hx with hx | hx
      · obtain ⟨hPx, -, hbelow⟩ := (hW lo (some s) c hlo hsP hc).2 x hx
        exact h.less_of_not_less hPx hs he (hbelow s rfl) (by simpa using hes)
      · exact hbefore x hx

variable (hupper : ∀ lo hi s c, P s → (∀ u ∈ hi, P u) → Below less hi s → W lo (some s) c → W lo hi c)
  (hlower : ∀ lo hi s c, P s → (∀ l ∈ lo, P l) → Above less lo s → W (some s) hi c → W lo hi c)

include hlower in
theorem Bounded.lower (h : StrictWeakOn P less) {ks : Children ε α} {lo hi : Option ε} {s : ε}
    (hs : P s) (hlo : ∀ l ∈ lo, P l) (hsl : Above less lo s)
    (hks : ks.Bounded P less W (some s) hi) : ks.Bounded P less W lo hi := by
  cases ks with
  | last c => exact hlower lo hi s c hs hlo hsl hks
  | more c s' rest =>
    obtain ⟨hc, hs', hsl', hsu', hrest⟩ := hks
    exact ⟨hlower lo _ s c hs hlo hsl hc, hs', fun l hl => h.trans (hlo l hl) hs hs' (hsl l hl)
      (hsl' s rfl), hsu', hrest⟩

include hupper in
theorem Bounded.removeAfter (h : StrictWeakOn P less) {c : α} {s : ε} {ks : Children ε α}
    {lo hi : Option ε} (hlo : ∀ l ∈ lo, P l) (hhi : ∀ u ∈ hi, P u)
    (hks : (more c s ks).Bounded P less W lo hi) :
    (ks.removeAfter less e c s).Bounded P less W lo hi := by
  induction ks generalizing c s lo with
  | last c' =>
    obtain ⟨hc, hs, -, hsu, -⟩ := hks
    exact hupper lo hi s c hs hhi hsu hc
  | more c' s' rest ih =>
    obtain ⟨hc, hs, hsl, hsu, hrest⟩ := hks
    rw [Children.removeAfter]
    split
    · obtain ⟨-, hs', hsl', hsu', hrest'⟩ := hrest
      refine ⟨hupper lo (some s') s c hs (by simpa using hs') ?_ hc, hs',
        fun l hl => h.trans (hlo l hl) hs hs' (hsl l hl) (hsl' s rfl), hsu', hrest'⟩
      rintro u ⟨⟩
      exact hsl' s rfl
    · exact ⟨hc, hs, hsl, hsu, ih (by simpa using hs) hrest⟩

include hupper hlower in
/-- What is left keeps to the bounds. -/
theorem Bounded.remove (h : StrictWeakOn P less) {ks ks' : Children ε α} {lo hi : Option ε}
    (hlo : ∀ l ∈ lo, P l) (hhi : ∀ u ∈ hi, P u) (hks : ks.Bounded P less W lo hi)
    (hremove : ks.remove less e = some ks') : ks'.Bounded P less W lo hi := by
  cases ks with
  | last c => cases hremove
  | more c s rest =>
    rw [Children.remove] at hremove
    split at hremove
    · cases hremove
      exact hks.2.2.2.2.lower hlower h hks.2.1 hlo hks.2.2.1
    · cases hremove
      exact hks.removeAfter hupper h hlo hhi

end Bounded

end Children

/-! ## Trees -/

/-- A leaf with its buckets, or an inner node with its children, beside its number. -/
def BucketTree (κ ρ : Type) : Nat → Type
  | 0 => Int × List (κ × List ρ)
  | h + 1 => Int × Children κ (BucketTree κ ρ h)

namespace BucketTree

variable {κ ρ : Type}

def root : {h : Nat} → BucketTree κ ρ h → Int
  | 0, t => t.1
  | _ + 1, t => t.1

/-- The leaves from left to right. -/
def leaves : {h : Nat} → BucketTree κ ρ h → List (Int × List (κ × List ρ))
  | 0, t => [(t.1, t.2)]
  | _ + 1, t => t.2.flat leaves

def numbers : {h : Nat} → BucketTree κ ρ h → List Int
  | 0, t => [t.1]
  | _ + 1, t => t.1 :: t.2.flat numbers

def bucketsOf (leaves : List (Int × List (κ × List ρ))) : List (κ × List ρ) :=
  leaves.flatMap Prod.snd

def keysOf (leaves : List (Int × List (κ × List ρ))) : List κ := (bucketsOf leaves).map Prod.fst

/-- The keys are in order and between the bounds, and each separator tells its neighbours apart. -/
def Within (P : κ → Prop) (less : κ → κ → Bool) :
    {h : Nat} → Option κ → Option κ → BucketTree κ ρ h → Prop
  | 0, lo, hi, t =>
    (t.2.map Prod.fst).Pairwise (fun a b => less a b) ∧
      ∀ x ∈ t.2.map Prod.fst, P x ∧ From less lo x ∧ Below less hi x
  | _ + 1, lo, hi, t => t.2.Bounded P less (Within P less) lo hi

/-- No inner node has more separators than the order allows. -/
def Small (order : Int) : {h : Nat} → BucketTree κ ρ h → Prop
  | 0, _ => True
  | _ + 1, t => (t.2.seps.length : Int) ≤ order ∧ ∀ c ∈ t.2.kids, Small order c

section Leaves

variable {h : Nat}

theorem leaves_succ (t : BucketTree κ ρ (h + 1)) : t.leaves = t.2.kids.flatMap leaves :=
  Children.flat_eq_flatMap _ _

theorem leaves_inner (i : Int) (ks : Children κ (BucketTree κ ρ h)) :
    leaves (h := h + 1) (i, ks) = ks.kids.flatMap leaves := Children.flat_eq_flatMap _ _

theorem numbers_inner (i : Int) (ks : Children κ (BucketTree κ ρ h)) :
    numbers (h := h + 1) (i, ks) = i :: ks.kids.flatMap numbers :=
  congrArg (i :: ·) (Children.flat_eq_flatMap _ _)

theorem numbers_succ (t : BucketTree κ ρ (h + 1)) : t.numbers = t.1 :: t.2.kids.flatMap numbers :=
  congrArg (t.1 :: ·) (Children.flat_eq_flatMap _ _)

theorem keysOf_append (l l' : List (Int × List (κ × List ρ))) :
    keysOf (l ++ l') = keysOf l ++ keysOf l' := by
  simp [keysOf, bucketsOf]

theorem keysOf_singleton (i : Int) (l : List (κ × List ρ)) : keysOf [(i, l)] = l.map Prod.fst := by
  simp [keysOf, bucketsOf]

theorem keysOf_flatMap {α : Type} (l : List α) (f : α → List (Int × List (κ × List ρ))) :
    keysOf (l.flatMap f) = l.flatMap fun c => keysOf (f c) := by
  rw [keysOf, bucketsOf, List.flatMap_assoc, List.map_flatMap]
  rfl

theorem root_mem_numbers (t : BucketTree κ ρ h) : t.root ∈ t.numbers := by
  cases h <;> simp [root, numbers]

theorem leaves_ne_nil (t : BucketTree κ ρ h) : t.leaves ≠ [] := by
  induction h with
  | zero => exact List.cons_ne_nil _ _
  | succ h ih =>
    obtain ⟨i, ks⟩ := t
    cases ks with
    | last c => exact ih c
    | more c s rest => exact List.append_ne_nil_of_left_ne_nil (ih c) _

/-- The leaves begin with those of the first child. -/
theorem head?_leaves_inner (i : Int) (ks : Children κ (BucketTree κ ρ h)) :
    (leaves (h := h + 1) (i, ks)).head? = ks.first.leaves.head? := by
  cases ks with
  | last c => rfl
  | more c s rest =>
    change (c.leaves ++ rest.flat leaves).head? = c.leaves.head?
    rw [List.head?_append_of_ne_nil _ c.leaves_ne_nil]

/-- The leaves stand among the nodes. -/
theorem leaves_sublist (t : BucketTree κ ρ h) : (t.leaves.map Prod.fst).Sublist t.numbers := by
  induction h with
  | zero => exact .refl _
  | succ h ih =>
    rw [leaves_succ, numbers_succ, List.map_flatMap]
    refine .cons _ ?_
    induction t.2.kids with
    | nil => exact .slnil
    | cons c l ih' => exact (ih c).append ih'

/-- A tree of a height has more nodes than that. -/
theorem height_lt (t : BucketTree κ ρ h) : h < t.numbers.length := by
  induction h with
  | zero => exact Nat.zero_lt_one
  | succ h ih =>
    have hfirst : t.2.first ∈ t.2.kids := t.2.first_mem_kids
    have hle : (numbers t.2.first).length ≤ (t.2.kids.flatMap numbers).length := by
      obtain ⟨l, l', hkids⟩ := List.append_of_mem hfirst
      simp only [hkids, List.flatMap_append, List.flatMap_cons, List.length_append]
      omega
    have hlt := ih t.2.first
    rw [numbers_succ, List.length_cons]
    omega

variable {P : κ → Prop} {less : κ → κ → Bool}

theorem within_keys (hless : StrictWeakOn P less) {lo hi : Option κ} {t : BucketTree κ ρ h}
    (hlo : ∀ l ∈ lo, P l) (hhi : ∀ u ∈ hi, P u) (ht : t.Within P less lo hi) :
    (keysOf t.leaves).Pairwise (fun a b => less a b) ∧
      ∀ x ∈ keysOf t.leaves, P x ∧ From less lo x ∧ Below less hi x := by
  induction h generalizing lo hi with
  | zero =>
    rw [leaves, keysOf_singleton]
    exact ht
  | succ h ih =>
    have hflat := Children.Bounded.flat (f := fun c : BucketTree κ ρ h => keysOf c.leaves) hless
      (fun lo hi c hl hu hc => ih hl hu hc) hlo hhi ht
    rwa [Children.flat_eq_flatMap, ← keysOf_flatMap, ← leaves_succ] at hflat

/-- The bounds of a tree may be wider. -/
theorem within_upper (hless : StrictWeakOn P less) (lo hi : Option κ) (s : κ)
    (t : BucketTree κ ρ h) (hs : P s) (hhi : ∀ u ∈ hi, P u) (hsu : Below less hi s)
    (ht : t.Within P less lo (some s)) : t.Within P less lo hi := by
  induction h generalizing lo with
  | zero =>
    refine ⟨ht.1, fun x hx => ?_⟩
    obtain ⟨hPx, hfrom, hbelow⟩ := ht.2 x hx
    exact ⟨hPx, hfrom, fun u hu => hless.trans hPx hs (hhi u hu) (hbelow s rfl) (hsu u hu)⟩
  | succ h ih =>
    obtain ⟨i, ks⟩ := t
    change ks.Bounded P less (Within P less) lo (some s) at ht
    change ks.Bounded P less (Within P less) lo hi
    induction ks generalizing lo with
    | last c => exact ih lo c ht
    | more c s' rest ih' =>
      obtain ⟨hc, hs', hsl', hsu', hrest⟩ := ht
      exact ⟨hc, hs', hsl', fun u hu => hless.trans hs' hs (hhi u hu) (hsu' s rfl) (hsu u hu),
        ih' (some s') hrest⟩

theorem within_lower (hless : StrictWeakOn P less) (lo hi : Option κ) (s : κ)
    (t : BucketTree κ ρ h) (hs : P s) (hlo : ∀ l ∈ lo, P l) (hsl : Above less lo s)
    (ht : t.Within P less (some s) hi) : t.Within P less lo hi := by
  induction h generalizing lo hi s with
  | zero =>
    refine ⟨ht.1, fun x hx => ?_⟩
    obtain ⟨hPx, hfrom, hbelow⟩ := ht.2 x hx
    refine ⟨hPx, fun l hl => hless.asymm l x (hlo l hl) hPx ?_, hbelow⟩
    exact hless.less_of_not_less (hlo l hl) hs hPx (hsl l hl) (hfrom s rfl)
  | succ h ih => exact Children.Bounded.lower ih hless hs hlo hsl ht

end Leaves

/-! ### The leaf of a key -/

section LeafFor

variable (less : κ → κ → Bool) (k : κ)

def leafFor : {h : Nat} → BucketTree κ ρ h → Int × List (κ × List ρ)
  | 0, t => (t.1, t.2)
  | _ + 1, t => leafFor (t.2.childFor less k)

def leavesBefore : {h : Nat} → BucketTree κ ρ h → List (Int × List (κ × List ρ))
  | 0, _ => []
  | _ + 1, t => (t.2.before less k).flatMap leaves ++ leavesBefore (t.2.childFor less k)

def leavesBehind : {h : Nat} → BucketTree κ ρ h → List (Int × List (κ × List ρ))
  | 0, _ => []
  | _ + 1, t => leavesBehind (t.2.childFor less k) ++ (t.2.behind less k).flatMap leaves

variable {less k} {h : Nat}

theorem leaves_eq (less : κ → κ → Bool) (k : κ) (t : BucketTree κ ρ h) :
    t.leaves = t.leavesBefore less k ++ t.leafFor less k :: t.leavesBehind less k := by
  induction h with
  | zero => rfl
  | succ h ih =>
    rw [leaves_succ, Children.kids_eq less k, List.flatMap_append,
      List.flatMap_cons, ih (t.2.childFor less k), leavesBefore, leavesBehind, leafFor]
    simp only [List.append_assoc, List.cons_append]

variable {P : κ → Prop} {lo hi : Option κ}

/-- The child that a key belongs into, with its bounds. -/
theorem exists_slot (hless : StrictWeakOn P less) {t : BucketTree κ ρ (h + 1)}
    (hlo : ∀ l ∈ lo, P l) (hhi : ∀ u ∈ hi, P u) (hfrom : From less lo k)
    (hbelow : Below less hi k) (ht : t.Within P less lo hi) :
    ∃ lo' hi', Children.Slot P less (Within P less) lo hi k t.2 lo' hi' :=
  Children.Bounded.slot hless hlo hhi hfrom hbelow ht

/-- What is not in the leaf of a key is less, or more. -/
theorem leavesBefore_less (hless : StrictWeakOn P less) (hk : P k) {t : BucketTree κ ρ h}
    (hlo : ∀ l ∈ lo, P l) (hhi : ∀ u ∈ hi, P u) (hfrom : From less lo k)
    (hbelow : Below less hi k) (ht : t.Within P less lo hi) :
    (∀ x ∈ keysOf (t.leavesBefore less k), less x k) ∧
      ∀ x ∈ keysOf (t.leavesBehind less k), less k x := by
  induction h generalizing lo hi with
  | zero => exact ⟨by simp [leavesBefore, keysOf, bucketsOf], by simp [leavesBehind, keysOf, bucketsOf]⟩
  | succ h ih =>
    obtain ⟨lo', hi', hslot⟩ := exists_slot hless hlo hhi hfrom hbelow ht
    obtain ⟨hbefore, hbehind⟩ := ih hslot.lower hslot.upper hslot.from_ hslot.below hslot.child
    obtain ⟨hleft, hright⟩ := Children.Bounded.before (f := fun c : BucketTree κ ρ h => keysOf c.leaves)
      hless (fun lo hi c hl hu hc => within_keys hless hl hu hc) hk hlo hhi ht
    rw [leavesBefore, leavesBehind, keysOf_append, keysOf_append, keysOf_flatMap, keysOf_flatMap]
    exact ⟨List.forall_mem_append.mpr ⟨hleft, hbefore⟩,
      List.forall_mem_append.mpr ⟨hbehind, hright⟩⟩

end LeafFor

/-! ### A bucket more -/

/-- Puts an element into its bucket. A node with more keys than the order allows becomes two; the
right one gets the number `n`, or the one that is next by then. -/
def insertIn (less : κ → κ → Bool) (order : Int) (k : κ) (r : ρ) :
    {h : Nat} → Nat → BucketTree κ ρ h → Nat × BucketTree κ ρ h × Option (κ × BucketTree κ ρ h)
  | 0, n, t =>
    let l := addTo less k r t.2
    if order < l.length then
      match (l.drop (l.length / 2)).head? with
      | none => (n, (t.1, l), none)
      | some b => (n + 1, (t.1, l.take (l.length / 2)), some (b.1, ((n : Int), l.drop (l.length / 2))))
    else (n, (t.1, l), none)
  | _ + 1, n, t =>
    match insertIn less order k r n (t.2.childFor less k) with
    | (n, c, none) => (n, (t.1, t.2.update less k c none), none)
    | (n, c, some p) =>
      let ks := t.2.update less k c (some p)
      if order < ks.seps.length then
        match ks.splitAt (ks.seps.length / 2) with
        | none => (n, (t.1, ks), none)
        | some (left, up, right) => (n + 1, (t.1, left), some (up, ((n : Int), right)))
      else (n, (t.1, ks), none)

/-- The leaves that one has become. -/
def leafGrown (order : Int) (n : Nat) (i : Int) (l : List (κ × List ρ)) :
    List (Int × List (κ × List ρ)) :=
  if order < l.length then [(i, l.take (l.length / 2)), ((n : Int), l.drop (l.length / 2))]
  else [(i, l)]

/-- One tree, or two that a separator tells apart, between the bounds. -/
def GrownWithin (P : κ → Prop) (less : κ → κ → Bool) (lo hi : Option κ) {h : Nat}
    (t : BucketTree κ ρ h) : Option (κ × BucketTree κ ρ h) → Prop
  | none => t.Within P less lo hi
  | some (up, r) => P up ∧ Above less lo up ∧ Below less hi up ∧ t.Within P less lo (some up) ∧
      r.Within P less (some up) hi

section Insert

variable {less : κ → κ → Bool} {keys : List κ} {k : κ} {r : ρ} {h : Nat} {lo hi : Option κ}
  {order : Int}

theorem within_addTo (hless : OrderedOn less keys) (hk : k ∈ keys) (hfrom : From less lo k)
    (hbelow : Below less hi k) {i : Int} {l : List (κ × List ρ)}
    (hl : Within (· ∈ keys) less (h := 0) lo hi (i, l)) :
    Within (· ∈ keys) less (h := 0) lo hi (i, addTo less k r l) := by
  obtain ⟨hsorted, hin⟩ := hl
  dsimp only at hsorted hin
  obtain ⟨front, back, hfront, hback, hcases⟩ := addTo_cases hless hk (List.pairwise_map.mp hsorted)
    (fun b hb => (hin b.1 (List.mem_map_of_mem hb)).1) r
  rcases hcases with ⟨rfl, hadd⟩ | ⟨b, rfl, -, hadd⟩
  · rw [List.map_append] at hsorted hin
    have hmap : (addTo less k r (front ++ back)).map Prod.fst =
        front.map Prod.fst ++ k :: back.map Prod.fst := by simp [hadd]
    obtain ⟨hf, hb, hcross⟩ := List.pairwise_append.mp hsorted
    have hfront' : ∀ x ∈ front.map Prod.fst, less x k := List.forall_mem_map.mpr hfront
    refine ⟨?_, fun x hx => ?_⟩
    · dsimp only
      rw [hmap, List.pairwise_append]
      refine ⟨hf, List.pairwise_cons.mpr ⟨List.forall_mem_map.mpr hback, hb⟩, fun x hx y hy => ?_⟩
      rcases List.mem_cons.mp hy with rfl | hy
      · exact hfront' x hx
      · exact hcross x hx y hy
    · dsimp only at hx
      rw [hmap, List.mem_append, List.mem_cons] at hx
      rcases hx with hx | rfl | hx
      · exact hin x (List.mem_append_left _ hx)
      · exact ⟨hk, hfrom, hbelow⟩
      · exact hin x (List.mem_append_right _ hx)
  · have hmap : (addTo less k r (front ++ b :: back)).map Prod.fst =
        (front ++ b :: back).map Prod.fst := by simp [hadd]
    refine ⟨?_, fun x hx => ?_⟩
    · dsimp only
      rw [hmap]
      exact hsorted
    · dsimp only at hx
      exact hin x (hmap ▸ hx)

/-- The upper half begins with a key above the lower bound, unless all keys are in it. -/
theorem within_halves (hless : OrderedOn less keys) (hlo : ∀ l ∈ lo, l ∈ keys) {i j : Int}
    {l : List (κ × List ρ)} (hl : Within (· ∈ keys) less (h := 0) lo hi (i, l)) {mid : Nat}
    (hmid : 0 < mid) {b : κ × List ρ} (hb : (l.drop mid).head? = some b) :
    b.1 ∈ keys ∧ Above less lo b.1 ∧ Below less hi b.1 ∧
      Within (· ∈ keys) less (h := 0) lo (some b.1) (i, l.take mid) ∧
      Within (· ∈ keys) less (h := 0) (some b.1) hi (j, l.drop mid) := by
  obtain ⟨hsorted, hin⟩ := hl
  dsimp only at hsorted hin
  obtain ⟨back, hback⟩ := List.head?_eq_some_iff.mp hb
  have hsplit : l.map Prod.fst = (l.take mid).map Prod.fst ++ b.1 :: back.map Prod.fst := by
    rw [← List.map_cons, ← hback, ← List.map_append, List.take_append_drop]
  have hdrop : (l.drop mid).map Prod.fst = b.1 :: back.map Prod.fst := by rw [hback, List.map_cons]
  rw [hsplit] at hsorted hin
  obtain ⟨htake, hrest, hcross⟩ := List.pairwise_append.mp hsorted
  obtain ⟨hkb, hfromb, hbelowb⟩ := hin b.1 (by simp)
  have hswo := hless.strictWeakOn
  refine ⟨hkb, fun a ha => ?_, hbelowb, ⟨htake, fun x hx => ?_⟩, ⟨hdrop ▸ hrest, fun x hx => ?_⟩⟩
  · have hne : (l.take mid).map Prod.fst ≠ [] := by
      rw [ne_eq, List.map_eq_nil_iff, List.take_eq_nil_iff]
      rintro (hzero | rfl)
      · omega
      · simp at hb
    obtain ⟨x, rest, hx⟩ := List.exists_cons_of_ne_nil hne
    have hmem : x ∈ (l.take mid).map Prod.fst := hx ▸ List.mem_cons_self
    obtain ⟨hkx, hfromx, -⟩ := hin x (List.mem_append_left _ hmem)
    exact hswo.less_of_not_less_left (hlo a ha) hkx hkb (hfromx a ha)
      (hcross x hmem b.1 List.mem_cons_self)
  · obtain ⟨hkx, hfromx, -⟩ := hin x (List.mem_append_left _ hx)
    refine ⟨hkx, hfromx, ?_⟩
    rintro u ⟨⟩
    exact hcross x hx b.1 List.mem_cons_self
  · dsimp only at hx
    rw [hdrop] at hx
    obtain ⟨hkx, -, hbelowx⟩ := hin x (List.mem_append_right _ hx)
    refine ⟨hkx, ?_, hbelowx⟩
    rintro u ⟨⟩
    rcases List.mem_cons.mp hx with rfl | hx
    · exact hless.irrefl hkb
    · exact hswo.asymm _ _ hkb hkx ((List.pairwise_cons.mp hrest).1 x hx)

theorem insertIn_within (hless : OrderedOn less keys) (horder : 0 < order) (hk : k ∈ keys) (n : Nat)
    {t : BucketTree κ ρ h} (hlo : ∀ l ∈ lo, l ∈ keys) (hhi : ∀ u ∈ hi, u ∈ keys)
    (hfrom : From less lo k) (hbelow : Below less hi k) (ht : t.Within (· ∈ keys) less lo hi) :
    GrownWithin (· ∈ keys) less lo hi (insertIn less order k r n t).2.1
      (insertIn less order k r n t).2.2 := by
  induction h generalizing lo hi with
  | zero =>
    obtain ⟨i, l⟩ := t
    have hadd := within_addTo (r := r) hless hk hfrom hbelow ht
    dsimp only [insertIn]
    split
    · rename_i hsize
      split
      · exact hadd
      · rename_i b hb
        exact within_halves hless hlo hadd (by omega) hb
    · exact hadd
  | succ h ih =>
    obtain ⟨lo', hi', hslot⟩ := exists_slot hless.strictWeakOn hlo hhi hfrom hbelow ht
    have hchild := ih hslot.lower hslot.upper hslot.from_ hslot.below hslot.child
    rw [insertIn]
    generalize insertIn less order k r n (t.2.childFor less k) = res at hchild ⊢
    rcases res with ⟨n', c, _ | ⟨up, right⟩⟩
    · exact hslot.one c hchild
    · obtain ⟨hup, hal, hbe, hc, hr⟩ := hchild
      have hks := hslot.two c up right hup hal hbe hc hr
      dsimp only
      split
      · split
        · exact hks
        · rename_i hsplit
          exact hks.splitAt hless.strictWeakOn hsplit hlo
      · exact hks

theorem insertIn_root (less : κ → κ → Bool) (order : Int) (k : κ) (r : ρ) (n : Nat) (t : BucketTree κ ρ h) :
    (insertIn less order k r n t).2.1.root = t.root := by
  cases h with
  | zero =>
    dsimp only [insertIn]
    split
    · split <;> rfl
    · rfl
  | succ h =>
    rw [insertIn]
    generalize insertIn less order k r n (t.2.childFor less k) = res
    rcases res with ⟨n', c, _ | p⟩
    · rfl
    · dsimp only
      split
      · split <;> rfl
      · rfl

/-- What one tree, or two, are made of. -/
def grown {β : Type} (f : {h : Nat} → BucketTree κ ρ h → List β) (t : BucketTree κ ρ h)
    (o : Option (κ × BucketTree κ ρ h)) : List β :=
  f t ++ (o.map fun p => f p.2).getD []

theorem insertIn_leaves (horder : 0 ≤ order) (n : Nat) (t : BucketTree κ ρ h) :
    grown leaves (insertIn less order k r n t).2.1 (insertIn less order k r n t).2.2 =
      t.leavesBefore less k ++
        (leafGrown order n (t.leafFor less k).1 (addTo less k r (t.leafFor less k).2) ++
          t.leavesBehind less k) := by
  induction h with
  | zero =>
    obtain ⟨i, l⟩ := t
    dsimp only [insertIn, leafFor, leavesBefore, leavesBehind, leafGrown]
    split
    · rename_i hsize
      split
      · rename_i hnone
        rw [List.head?_eq_none_iff, List.drop_eq_nil_iff] at hnone
        omega
      · rfl
    · rfl
  | succ h ih =>
    obtain ⟨i, ks⟩ := t
    have hchild := ih (ks.childFor less k)
    dsimp only [insertIn, leavesBefore, leavesBehind, leafFor]
    generalize insertIn less order k r n (ks.childFor less k) = res at hchild ⊢
    rcases res with ⟨n', c, _ | p⟩
    · simp only [grown, Option.map_none, Option.getD_none, List.append_nil] at hchild ⊢
      rw [leaves_inner, Children.kids_update_one, List.flatMap_append, List.flatMap_cons, hchild]
      simp only [List.append_assoc]
    · simp only [grown, Option.map_some, Option.getD_some] at hchild
      have hboth : (ks.update less k c (some p)).flat leaves =
          (ks.before less k).flatMap leaves ++ (ks.childFor less k).leavesBefore less k ++
            (leafGrown order n ((ks.childFor less k).leafFor less k).1
                (addTo less k r ((ks.childFor less k).leafFor less k).2) ++
              ((ks.childFor less k).leavesBehind less k ++
                (ks.behind less k).flatMap leaves)) := by
        rw [Children.flat_eq_flatMap, Children.kids_update_two, List.flatMap_append,
          List.flatMap_cons, List.flatMap_cons, ← List.append_assoc (leaves c), hchild]
        simp only [List.append_assoc]
      dsimp only
      split
      · split
        · exact (List.append_nil _).trans hboth
        · rename_i hsplit
          exact (Children.flat_of_splitAt hsplit).symm.trans hboth
      · exact (List.append_nil _).trans hboth

theorem bucketsOf_append (l l' : List (Int × List (κ × List ρ))) :
    bucketsOf (l ++ l') = bucketsOf l ++ bucketsOf l' := List.flatMap_append

theorem bucketsOf_cons (x : Int × List (κ × List ρ)) (l : List (Int × List (κ × List ρ))) :
    bucketsOf (x :: l) = x.2 ++ bucketsOf l := List.flatMap_cons

theorem leafGrown_spec (horder : 0 < order) (n : Nat) (i : Int) {l : List (κ × List ρ)}
    (hne : l ≠ []) (hsize : (l.length : Int) ≤ order + 1) :
    bucketsOf (leafGrown order n i l) = l ∧
      ∀ x ∈ leafGrown order n i l, x.2 ≠ [] ∧ (x.2.length : Int) ≤ order := by
  have hpos : 0 < l.length := List.length_pos_iff.mpr hne
  rw [leafGrown]
  split
  · refine ⟨by simp [bucketsOf], fun x hx => ?_⟩
    simp only [List.mem_cons, List.not_mem_nil, or_false] at hx
    rcases hx with rfl | rfl
    · refine ⟨fun h => ?_, ?_⟩
      · rw [List.take_eq_nil_iff] at h
        rcases h with h | h
        · omega
        · exact hne h
      · rw [List.length_take]
        omega
    · refine ⟨fun h => ?_, ?_⟩
      · rw [List.drop_eq_nil_iff] at h
        omega
      · rw [List.length_drop]
        omega
  · refine ⟨by simp [bucketsOf], fun x hx => ?_⟩
    obtain rfl := List.mem_singleton.mp hx
    exact ⟨hne, by dsimp only; omega⟩

theorem buckets_parts (less : κ → κ → Bool) (k : κ) (t : BucketTree κ ρ h) :
    bucketsOf t.leaves = bucketsOf (t.leavesBefore less k) ++ (t.leafFor less k).2 ++
      bucketsOf (t.leavesBehind less k) := by
  rw [leaves_eq less k, bucketsOf_append, bucketsOf_cons, List.append_assoc]

/-- The buckets before and behind the leaf of a key. -/
theorem buckets_apart (hless : OrderedOn less keys) (hk : k ∈ keys) {t : BucketTree κ ρ h}
    (ht : t.Within (· ∈ keys) less none none) :
    (∀ x ∈ bucketsOf (t.leavesBefore less k), less x.1 k) ∧
      ∀ x ∈ bucketsOf (t.leavesBehind less k), x.1 ∈ keys ∧ less k x.1 := by
  have hnone : ∀ l ∈ (none : Option κ), l ∈ keys := fun l hl => by cases hl
  have hfrom : From less none k := fun l hl => by cases hl
  have hbelow : Below less none k := fun l hl => by cases hl
  obtain ⟨hbefore, hbehind⟩ := leavesBefore_less hless.strictWeakOn hk hnone hnone hfrom hbelow ht
  obtain ⟨-, hin⟩ := within_keys hless.strictWeakOn hnone hnone ht
  refine ⟨fun x hx => hbefore x.1 (List.mem_map_of_mem hx), fun x hx =>
    ⟨(hin x.1 ?_).1, hbehind x.1 (List.mem_map_of_mem hx)⟩⟩
  rw [leaves_eq less k, keysOf, bucketsOf_append, bucketsOf_cons]
  exact List.mem_map_of_mem (by simp [hx])

/-- There are as many buckets more as in the leaf of the key. -/
theorem leaf_addTo_length (hless : OrderedOn less keys) (hk : k ∈ keys) {t : BucketTree κ ρ h}
    (ht : t.Within (· ∈ keys) less none none) (r : ρ) :
    (bucketsOf t.leaves).length + (addTo less k r (t.leafFor less k).2).length =
      (t.leafFor less k).2.length + (addTo less k r (bucketsOf t.leaves)).length := by
  obtain ⟨hbefore, hbehind⟩ := buckets_apart hless hk ht
  rw [buckets_parts less k t, addTo_append hless hk hbefore hbehind]
  simp only [List.length_append]
  omega

/-- The buckets of the tree become those of a list. -/
theorem insertIn_buckets (hless : OrderedOn less keys) (horder : 0 < order) (hk : k ∈ keys) (n : Nat)
    {t : BucketTree κ ρ h} (ht : t.Within (· ∈ keys) less none none)
    (hsize : ∀ x ∈ t.leaves, (x.2.length : Int) ≤ order) :
    bucketsOf (grown leaves (insertIn less order k r n t).2.1 (insertIn less order k r n t).2.2) =
      addTo less k r (bucketsOf t.leaves) ∧
    (∀ x ∈ grown leaves (insertIn less order k r n t).2.1 (insertIn less order k r n t).2.2,
      (x.2.length : Int) ≤ order) ∧
    ((0 < h → ∀ x ∈ t.leaves, x.2 ≠ []) →
      ∀ x ∈ grown leaves (insertIn less order k r n t).2.1 (insertIn less order k r n t).2.2,
        x.2 ≠ []) := by
  have hleaves := leaves_eq less k t
  have hlen := length_addTo_le less k r (t.leafFor less k).2
  have hleaf := hsize (t.leafFor less k) (by rw [hleaves]; simp)
  obtain ⟨hbuckets, hgrown⟩ := leafGrown_spec horder n (t.leafFor less k).1
    (addTo_ne_nil less k r (t.leafFor less k).2) (by omega)
  obtain ⟨hbefore, hbehind⟩ := buckets_apart hless hk ht
  have hadd := addTo_append hless hk hbefore hbehind r (t.leafFor less k).2
  rw [insertIn_leaves (by omega)]
  refine ⟨?_, fun x hx => ?_, fun hfilled x hx => ?_⟩
  · rw [hleaves, bucketsOf_append, bucketsOf_append, bucketsOf_append, bucketsOf_cons, hbuckets,
      ← List.append_assoc, ← hadd, List.append_assoc]
  · rcases List.mem_append.mp hx with hx | hx
    · exact hsize x (by rw [hleaves]; simp [hx])
    · rcases List.mem_append.mp hx with hx | hx
      · exact (hgrown x hx).2
      · exact hsize x (by rw [hleaves]; simp [hx])
  · have hrest : x ∈ t.leavesBefore less k ∨ x ∈ t.leavesBehind less k → x.2 ≠ [] := by
      intro hmem
      cases h with
      | zero => rcases hmem with hmem | hmem <;> cases hmem
      | succ h =>
        refine hfilled (Nat.succ_pos h) x ?_
        rw [hleaves]
        rcases hmem with hmem | hmem <;> simp [hmem]
    rcases List.mem_append.mp hx with hx | hx
    · exact hrest (.inl hx)
    · rcases List.mem_append.mp hx with hx | hx
      · exact (hgrown x hx).1
      · exact hrest (.inr hx)

theorem small_update {t : BucketTree κ ρ (h + 1)} (ht : t.Small order)
    {c : BucketTree κ ρ h} (hc : c.Small order) :
    Small (h := h + 1) order (t.1, t.2.update less k c none) := by
  refine ⟨?_, fun c' hc' => ?_⟩
  · dsimp only
    rw [Children.seps_update_none]
    exact ht.1
  · dsimp only at hc'
    rw [Children.kids_update_one, List.mem_append, List.mem_cons] at hc'
    have hold : ∀ x ∈ t.2.before less k ++ t.2.childFor less k :: t.2.behind less k,
        x.Small order := Children.kids_eq less k t.2 ▸ ht.2
    rcases hc' with hc' | rfl | hc'
    · exact hold c' (List.mem_append_left _ hc')
    · exact hc
    · exact hold c' (by simp [hc'])

theorem insertIn_small (less : κ → κ → Bool) (k : κ) (r : ρ) (horder : 0 ≤ order) (n : Nat)
    {t : BucketTree κ ρ h} (ht : t.Small order) :
    (insertIn less order k r n t).2.1.Small order ∧
      ∀ p ∈ (insertIn less order k r n t).2.2, p.2.Small order := by
  induction h with
  | zero =>
    exact ⟨trivial, fun _ _ => trivial⟩
  | succ h ih =>
    have hkids : ∀ c ∈ t.2.kids, c.Small order := ht.2
    have hchild := ih (hkids _ (t.2.mem_kids_childFor less k))
    rw [insertIn]
    generalize insertIn less order k r n (t.2.childFor less k) = res at hchild ⊢
    rcases res with ⟨n', c, _ | p⟩
    · exact ⟨small_update ht hchild.1, fun p hp => by cases hp⟩
    · obtain ⟨up, right⟩ := p
      have hlen : (t.2.update less k c (some (up, right))).seps.length = t.2.seps.length + 1 := by
        have hboth := Children.length_kids (t.2.update less k c (some (up, right)))
        have hold := Children.length_kids t.2
        rw [Children.kids_update_two] at hboth
        rw [Children.kids_eq less k] at hold
        simp only [List.length_append, List.length_cons] at hboth hold
        omega
      have hall : ∀ x ∈ (t.2.update less k c (some (up, right))).kids, x.Small order := by
        intro x hx
        rw [Children.kids_update_two, List.mem_append, List.mem_cons, List.mem_cons] at hx
        rw [Children.kids_eq less k] at hkids
        rcases hx with hx | rfl | rfl | hx
        · exact hkids x (List.mem_append_left _ hx)
        · exact hchild.1
        · exact hchild.2 _ rfl
        · exact hkids x (by simp [hx])
      have hle : (t.2.seps.length : Int) ≤ order := ht.1
      dsimp only
      split
      · rename_i hsize
        obtain ⟨left, up', right', hsplit, hleft, -, hright, hleftKids, hrightKids, -⟩ :=
          Children.splitAt_spec (show (t.2.update less k c (some (up, right))).seps.length / 2 <
            (t.2.update less k c (some (up, right))).seps.length by omega)
        rw [hsplit]
        refine ⟨⟨?_, fun x hx => hall x (List.mem_of_mem_take (hleftKids ▸ hx))⟩, ?_⟩
        · dsimp only
          rw [hleft, List.length_take]
          omega
        · rintro p ⟨⟩
          refine ⟨?_, fun x hx => hall x (List.mem_of_mem_drop (hrightKids ▸ hx))⟩
          dsimp only
          rw [hright, List.length_drop]
          omega
      · rename_i hsize
        exact ⟨⟨by dsimp only; omega, hall⟩, fun p hp => by cases hp⟩

/-- The numbers from `n` on, up to `n'`. -/
def fresh (n n' : Nat) : List Int := (List.range' n (n' - n)).map (↑)

theorem mem_fresh {n n' : Nat} {i : Int} : i ∈ fresh n n' ↔ (n : Int) ≤ i ∧ i < n' := by
  simp only [fresh, List.mem_map, List.mem_range']
  constructor
  · rintro ⟨_, ⟨j, hj, rfl⟩, rfl⟩
    push_cast
    omega
  · rintro ⟨hle, hlt⟩
    exact ⟨i.toNat, ⟨i.toNat - n, by omega, by omega⟩, by omega⟩

theorem nodup_fresh (n n' : Nat) : (fresh n n').Nodup :=
  List.Nodup.map (fun _ _ h => Int.ofNat_inj.mp h) List.nodup_range'

theorem fresh_self (n : Nat) : fresh n n = [] := by simp [fresh]

theorem fresh_succ {n n' : Nat} (h : n ≤ n') : fresh n (n' + 1) = fresh n n' ++ [(n' : Int)] := by
  have hlen : n' + 1 - n = n' - n + 1 := by omega
  have hlast : n + 1 * (n' - n) = n' := by omega
  rw [fresh, hlen, List.range'_concat, List.map_append, fresh, hlast]
  rfl

/-- The nodes stay where they are, and new ones are numbered in turn. -/
theorem insertIn_numbers (less : κ → κ → Bool) (order : Int) (k : κ) (r : ρ) (n : Nat)
    (t : BucketTree κ ρ h) :
    n ≤ (insertIn less order k r n t).1 ∧
      (grown numbers (insertIn less order k r n t).2.1 (insertIn less order k r n t).2.2).Perm
        (t.numbers ++ fresh n (insertIn less order k r n t).1) := by
  induction h with
  | zero =>
    obtain ⟨i, l⟩ := t
    dsimp only [insertIn]
    split
    · split
      · exact ⟨le_rfl, by rw [fresh_self]; exact .refl _⟩
      · refine ⟨Nat.le_succ n, ?_⟩
        rw [fresh_succ le_rfl, fresh_self]
        exact .refl _
    · exact ⟨le_rfl, by rw [fresh_self]; exact .refl _⟩
  | succ h ih =>
    obtain ⟨i, ks⟩ := t
    obtain ⟨hle, hchild⟩ := ih (ks.childFor less k)
    dsimp only [insertIn]
    generalize insertIn less order k r n (ks.childFor less k) = res at hle hchild ⊢
    have hcount : ∀ a, (numbers (h := h + 1) (i, ks)).count a = (if i = a then 1 else 0) +
        ((ks.before less k).flatMap numbers).count a + (ks.childFor less k).numbers.count a +
        ((ks.behind less k).flatMap numbers).count a := by
      intro a
      rw [numbers_inner, Children.kids_eq less k, List.flatMap_append,
        List.flatMap_cons, List.count_cons, List.count_append, List.count_append]
      simp only [beq_iff_eq]
      omega
    rw [List.perm_iff_count] at hchild
    rcases res with ⟨n', c, _ | p⟩
    · simp only [grown, Option.map_none, Option.getD_none, List.append_nil] at hle hchild ⊢
      refine ⟨hle, List.perm_iff_count.mpr fun a => ?_⟩
      have hc := hchild a
      rw [List.count_append] at hc ⊢
      rw [hcount, numbers_inner, Children.kids_update_one, List.flatMap_append, List.flatMap_cons,
        List.count_cons, List.count_append, List.count_append]
      simp only [beq_iff_eq]
      omega
    · simp only [grown, Option.map_some, Option.getD_some] at hle hchild
      have hboth : ∀ a, ((ks.update less k c (some p)).kids.flatMap numbers).count a +
          (if i = a then 1 else 0) =
            (numbers (h := h + 1) (i, ks)).count a + (fresh n n').count a := by
        intro a
        have hc := hchild a
        rw [List.count_append, List.count_append] at hc
        rw [hcount, Children.kids_update_two, List.flatMap_append, List.flatMap_cons,
          List.flatMap_cons, List.count_append, List.count_append, List.count_append]
        omega
      have hwhole : n ≤ n' ∧ (grown numbers (h := h + 1) (i, ks.update less k c (some p)) none).Perm
          (numbers (h := h + 1) (i, ks) ++ fresh n n') := by
        refine ⟨hle, List.perm_iff_count.mpr fun a => ?_⟩
        have hb := hboth a
        simp only [grown]
        rw [Option.map_none, Option.getD_none, List.append_nil, numbers_inner,
          List.count_cons, List.count_append]
        simp only [beq_iff_eq]
        omega
      dsimp only
      split
      · split
        · exact hwhole
        · rename_i left up right hsplit
          refine ⟨hle.trans (Nat.le_succ n'), List.perm_iff_count.mpr fun a => ?_⟩
          have hb := hboth a
          rw [← Children.flat_eq_flatMap, Children.flat_of_splitAt hsplit,
            Children.flat_eq_flatMap, Children.flat_eq_flatMap, List.count_append] at hb
          simp only [grown]
          rw [fresh_succ hle, Option.map_some, Option.getD_some, numbers_inner,
            numbers_inner, List.count_append, List.count_append, List.count_append,
            List.count_cons, List.count_cons, List.count_singleton]
          simp only [beq_iff_eq]
          omega
      · exact hwhole

end Insert

/-! ### A bucket less -/

/-- Other buckets in the leaf of a key. -/
def editLeaf (less : κ → κ → Bool) (k : κ) (f : List (κ × List ρ) → List (κ × List ρ)) :
    {h : Nat} → BucketTree κ ρ h → BucketTree κ ρ h
  | 0, t => (t.1, f t.2)
  | _ + 1, t => (t.1, t.2.update less k (editLeaf less k f (t.2.childFor less k)) none)

/-- The tree without the leaf of a key, and without what would be left empty, if it is empty. -/
def trim (less : κ → κ → Bool) (k : κ) : {h : Nat} → BucketTree κ ρ h → Option (BucketTree κ ρ h)
  | 0, t => if t.2.isEmpty then none else some t
  | _ + 1, t =>
    match trim less k (t.2.childFor less k) with
    | some c => some (t.1, t.2.update less k c none)
    | none => (t.2.remove less k).map fun ks => (t.1, ks)

/-- Below the nodes with a single child. -/
def collapse : {h : Nat} → BucketTree κ ρ h → (h : Nat) × BucketTree κ ρ h
  | 0, t => ⟨0, t⟩
  | h + 1, (i, ks) =>
    match ks with
    | .last c => collapse c
    | .more c s rest => ⟨h + 1, (i, .more c s rest)⟩

section Remove

variable {less : κ → κ → Bool} {keys : List κ} {k : κ} {h : Nat} {lo hi : Option κ}
  {order : Int} {f : List (κ × List ρ) → List (κ × List ρ)}

theorem editLeaf_spec (less : κ → κ → Bool) (k : κ)
    (f : List (κ × List ρ) → List (κ × List ρ)) (t : BucketTree κ ρ h) :
    (t.editLeaf less k f).leavesBefore less k = t.leavesBefore less k ∧
      (t.editLeaf less k f).leafFor less k =
        ((t.leafFor less k).1, f (t.leafFor less k).2) ∧
      (t.editLeaf less k f).leavesBehind less k = t.leavesBehind less k ∧
      (t.editLeaf less k f).root = t.root := by
  induction h with
  | zero => exact ⟨rfl, rfl, rfl, rfl⟩
  | succ h ih =>
    obtain ⟨i, ks⟩ := t
    obtain ⟨hbefore, hleaf, hbehind, -⟩ := ih (ks.childFor less k)
    obtain ⟨hc, hl, hr⟩ :=
      Children.update_one_spec less k ((ks.childFor less k).editLeaf less k f) ks
    dsimp only [editLeaf, leavesBefore, leavesBehind, leafFor]
    rw [hc, hl, hr, hbefore, hleaf, hbehind]
    exact ⟨rfl, rfl, rfl, rfl⟩

theorem editLeaf_leaves (less : κ → κ → Bool) (k : κ)
    (f : List (κ × List ρ) → List (κ × List ρ)) (t : BucketTree κ ρ h) :
    (t.editLeaf less k f).leaves = t.leavesBefore less k ++
      ((t.leafFor less k).1, f (t.leafFor less k).2) :: t.leavesBehind less k := by
  obtain ⟨hbefore, hleaf, hbehind, -⟩ := editLeaf_spec less k f t
  rw [leaves_eq less k, hbefore, hleaf, hbehind]

theorem editLeaf_numbers (less : κ → κ → Bool) (k : κ)
    (f : List (κ × List ρ) → List (κ × List ρ)) (t : BucketTree κ ρ h) :
    (t.editLeaf less k f).numbers = t.numbers := by
  induction h with
  | zero => rfl
  | succ h ih =>
    obtain ⟨i, ks⟩ := t
    dsimp only [editLeaf]
    rw [numbers_inner, numbers_inner, Children.kids_update_one,
      Children.kids_eq less k ks]
    simp only [List.flatMap_append, List.flatMap_cons, ih]

theorem editLeaf_small {t : BucketTree κ ρ h} (ht : t.Small order) :
    (t.editLeaf less k f).Small order := by
  induction h with
  | zero => trivial
  | succ h ih => exact small_update ht (ih (ht.2 _ (t.2.mem_kids_childFor less k)))

theorem editLeaf_within (hless : OrderedOn less keys) {t : BucketTree κ ρ h}
    (hlo : ∀ l ∈ lo, l ∈ keys) (hhi : ∀ u ∈ hi, u ∈ keys) (hfrom : From less lo k)
    (hbelow : Below less hi k) (hf : ∀ l, (f l).map Prod.fst |>.Sublist (l.map Prod.fst))
    (ht : t.Within (· ∈ keys) less lo hi) :
    (t.editLeaf less k f).Within (· ∈ keys) less lo hi := by
  induction h generalizing lo hi with
  | zero => exact ⟨ht.1.sublist (hf _), fun x hx => ht.2 x ((hf _).subset hx)⟩
  | succ h ih =>
    obtain ⟨lo', hi', hslot⟩ := exists_slot hless.strictWeakOn hlo hhi hfrom hbelow ht
    exact hslot.one _ (ih hslot.lower hslot.upper hslot.from_ hslot.below hslot.child)

theorem trim_leaves (less : κ → κ → Bool) (k : κ) (t : BucketTree κ ρ h) :
    ((t.trim less k).map leaves).getD [] = t.leavesBefore less k ++
      ((if (t.leafFor less k).2.isEmpty then [] else [t.leafFor less k]) ++
        t.leavesBehind less k) := by
  induction h with
  | zero =>
    obtain ⟨i, l⟩ := t
    cases l <;> rfl
  | succ h ih =>
    obtain ⟨i, ks⟩ := t
    have hparts : leavesBefore (h := h + 1) less k (i, ks) ++
        ((if (leafFor (h := h + 1) less k (i, ks)).2.isEmpty then []
          else [leafFor (h := h + 1) less k (i, ks)]) ++ leavesBehind (h := h + 1) less k (i, ks)) =
        (ks.before less k).flatMap leaves ++
          (((trim less k (ks.childFor less k)).map leaves).getD [] ++
            (ks.behind less k).flatMap leaves) := by
      rw [ih (ks.childFor less k)]
      simp only [leafFor, leavesBefore, leavesBehind, List.append_assoc]
      rfl
    rw [hparts]
    cases htrim : trim less k (ks.childFor less k) with
    | some c =>
      simp only [trim, htrim]
      change leaves (h := h + 1) (i, ks.update less k c none) = _
      rw [leaves_inner, Children.kids_update_one, List.flatMap_append, List.flatMap_cons]
      rfl
    | none =>
      rcases ks.remove_cases less k with ⟨hremove, heq⟩ | ⟨ks', hremove, -, hkids, -⟩
      · simp only [trim, htrim, hremove]
        rw [heq]
        rfl
      · simp only [trim, htrim, hremove]
        change leaves (h := h + 1) (i, ks') = _
        rw [leaves_inner, hkids, List.flatMap_append]
        rfl

/-- Only buckets that there are none of go with the leaf. -/
theorem bucketsOf_trim (less : κ → κ → Bool) (k : κ) (t : BucketTree κ ρ h) :
    bucketsOf (((t.trim less k).map leaves).getD []) = bucketsOf t.leaves := by
  rw [trim_leaves, leaves_eq less k t, bucketsOf_append, bucketsOf_append, bucketsOf_append,
    bucketsOf_cons]
  split
  · rename_i hempty
    rw [List.isEmpty_iff.mp hempty]
    rfl
  · rw [bucketsOf_cons, List.append_assoc]
    rfl

/-- No other leaf is left empty than the one of the key was. -/
theorem filled_of_trim {t t' : BucketTree κ ρ h} (htrim : t.trim less k = some t')
    (hrest : ∀ x ∈ t.leavesBefore less k ++ t.leavesBehind less k, x.2 ≠ []) :
    ∀ x ∈ t'.leaves, x.2 ≠ [] := by
  have hleaves := trim_leaves less k t
  rw [htrim] at hleaves
  change t'.leaves = _ at hleaves
  rw [hleaves]
  intro x hx
  rw [List.mem_append, List.mem_append] at hx
  rcases hx with hx | hx | hx
  · exact hrest x (List.mem_append_left _ hx)
  · split at hx
    · cases hx
    · rename_i hne
      rw [List.mem_singleton.mp hx]
      exact fun h => hne (List.isEmpty_iff.mpr h)
  · exact hrest x (List.mem_append_right _ hx)

theorem bucketOf_leaves (hless : OrderedOn less keys) (hk : k ∈ keys) {t : BucketTree κ ρ h}
    (ht : t.Within (· ∈ keys) less none none) :
    bucketOf less k (bucketsOf t.leaves) = bucketOf less k (t.leafFor less k).2 := by
  obtain ⟨hbefore, hbehind⟩ := buckets_apart hless hk ht
  rw [buckets_parts less k, bucketOf_append hbefore fun x hx => (hbehind x hx).2]

theorem removeFrom_buckets [DecidableEq ρ] (hless : OrderedOn less keys) (hk : k ∈ keys) (r : ρ)
    {t : BucketTree κ ρ h} (ht : t.Within (· ∈ keys) less none none) :
    bucketsOf (t.editLeaf less k (removeFrom less k r)).leaves =
      removeFrom less k r (bucketsOf t.leaves) := by
  obtain ⟨hbefore, hbehind⟩ := buckets_apart hless hk ht
  rw [buckets_parts less k t, removeFrom_append hbefore fun x hx => (hbehind x hx).2,
    editLeaf_leaves, bucketsOf_append, bucketsOf_cons, List.append_assoc]

theorem trim_within (hless : OrderedOn less keys) {t t' : BucketTree κ ρ h}
    (hlo : ∀ l ∈ lo, l ∈ keys) (hhi : ∀ u ∈ hi, u ∈ keys) (hfrom : From less lo k)
    (hbelow : Below less hi k) (ht : t.Within (· ∈ keys) less lo hi)
    (htrim : t.trim less k = some t') : t'.Within (· ∈ keys) less lo hi := by
  induction h generalizing lo hi with
  | zero =>
    rw [trim] at htrim
    split at htrim
    · cases htrim
    · cases htrim
      exact ht
  | succ h ih =>
    obtain ⟨i, ks⟩ := t
    obtain ⟨lo', hi', hslot⟩ := exists_slot hless.strictWeakOn hlo hhi hfrom hbelow ht
    dsimp only [trim] at htrim
    split at htrim
    · rename_i c hc
      cases htrim
      exact hslot.one c (ih hslot.lower hslot.upper hslot.from_ hslot.below hslot.child hc)
    · obtain ⟨ks', hremove, rfl⟩ := Option.map_eq_some_iff.mp htrim
      exact Children.Bounded.remove
        (fun lo hi s c hs hu hsu hc => within_upper hless.strictWeakOn lo hi s c hs hu hsu hc)
        (fun lo hi s c hs hl hsl hc => within_lower hless.strictWeakOn lo hi s c hs hl hsl hc)
        hless.strictWeakOn hlo hhi ht hremove

theorem trim_small {t t' : BucketTree κ ρ h} (ht : t.Small order) (htrim : t.trim less k = some t') :
    t'.Small order := by
  induction h with
  | zero => trivial
  | succ h ih =>
    obtain ⟨i, ks⟩ := t
    have hkids : ∀ c ∈ ks.kids, c.Small order := ht.2
    dsimp only [trim] at htrim
    split at htrim
    · rename_i c hc
      cases htrim
      exact small_update ht (ih (hkids _ (ks.mem_kids_childFor less k)) hc)
    · obtain ⟨ks', hremove, rfl⟩ := Option.map_eq_some_iff.mp htrim
      rcases ks.remove_cases less k with ⟨hnone, -⟩ | ⟨ks'', hsome, -, hkids', hseps⟩
      · rw [hnone] at hremove
        cases hremove
      · obtain rfl : ks'' = ks' := Option.some.inj (hsome.symm.trans hremove)
        have hle : (ks.seps.length : Int) ≤ order := ht.1
        refine ⟨?_, fun c hc => hkids c ?_⟩
        · have herase := List.length_eraseIdx_le ks.seps ((ks.before less k).length - 1)
          dsimp only
          rw [hseps]
          omega
        · dsimp only at hc
          rw [hkids', List.mem_append] at hc
          rw [Children.kids_eq less k ks]
          exact List.mem_append.mpr (hc.imp_right (List.mem_cons_of_mem _))

theorem trim_root {t t' : BucketTree κ ρ h} (htrim : t.trim less k = some t') :
    t'.root = t.root := by
  cases h with
  | zero =>
    rw [trim] at htrim
    split at htrim
    · cases htrim
    · cases htrim
      rfl
  | succ h =>
    obtain ⟨i, ks⟩ := t
    dsimp only [trim] at htrim
    split at htrim
    · cases htrim
      rfl
    · obtain ⟨ks', -, rfl⟩ := Option.map_eq_some_iff.mp htrim
      rfl

theorem trim_numbers {t t' : BucketTree κ ρ h} (htrim : t.trim less k = some t') :
    t'.numbers.Sublist t.numbers := by
  induction h with
  | zero =>
    rw [trim] at htrim
    split at htrim
    · cases htrim
    · cases htrim
      exact .refl _
  | succ h ih =>
    obtain ⟨i, ks⟩ := t
    dsimp only [trim] at htrim
    rw [numbers_inner, Children.kids_eq less k ks, List.flatMap_append,
      List.flatMap_cons]
    split at htrim
    · rename_i c hc
      cases htrim
      rw [numbers_inner, Children.kids_update_one, List.flatMap_append, List.flatMap_cons]
      exact .cons_cons i (.append (.refl _) (.append (ih hc) (.refl _)))
    · obtain ⟨ks', hremove, rfl⟩ := Option.map_eq_some_iff.mp htrim
      rcases ks.remove_cases less k with ⟨hnone, -⟩ | ⟨ks'', hsome, -, hkids', -⟩
      · rw [hnone] at hremove
        cases hremove
      · obtain rfl : ks'' = ks' := Option.some.inj (hsome.symm.trans hremove)
        rw [numbers_inner, hkids', List.flatMap_append]
        exact .cons_cons i (.append (.refl _) (List.sublist_append_right _ _))

theorem collapse_spec (keys : List κ) (t : BucketTree κ ρ h) :
    t.collapse.2.leaves = t.leaves ∧ t.collapse.2.numbers.Sublist t.numbers ∧
      (∀ order, t.Small order → t.collapse.2.Small order) ∧
      ∀ less lo hi, t.Within (· ∈ keys) less lo hi → t.collapse.2.Within (· ∈ keys) less lo hi := by
  induction h with
  | zero => exact ⟨rfl, .refl _, fun _ h => h, fun _ _ _ h => h⟩
  | succ h ih =>
    obtain ⟨i, ks⟩ := t
    cases ks with
    | last c =>
      obtain ⟨hleaves, hnumbers, hsmall, hwithin⟩ := ih c
      exact ⟨hleaves, hnumbers.cons i, fun order hs => hsmall order (hs.2 c (by simp [Children.kids])),
        fun less lo hi hw => hwithin less lo hi hw⟩
    | more c s rest => exact ⟨rfl, .refl _, fun _ h => h, fun _ _ _ h => h⟩

end Remove

end BucketTree

end Relite.Lib
