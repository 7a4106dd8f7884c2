import Mathlib.Data.List.Induction
import Mathlib.Data.List.Nodup
import Mathlib.Data.Set.Function
import Mathlib.Logic.Function.Basic

/-!
# Operations that tell elements apart by a key

Duplicates, set operations and groups, where two elements count as the same when their
keys agree. With a key that is injective on the elements at hand the operations are those
by equality, and duplicates and groups show every other key.
-/
namespace Relite.Lib

variable {α κ : Type} [DecidableEq κ] {key : α → κ}

/-! ## The first element of each key -/

/-- The elements whose key comes for the first time; those in `seen` have come. -/
def firstsBy (key : α → κ) : List α → List κ → List α
  | [], _ => []
  | x :: l, seen =>
    if key x ∈ seen then firstsBy key l seen else x :: firstsBy key l (key x :: seen)

theorem mem_of_mem_firstsBy {l : List α} {seen : List κ} {x : α} (h : x ∈ firstsBy key l seen) :
    x ∈ l ∧ key x ∉ seen := by
  induction l generalizing seen with
  | nil => cases h
  | cons y l ih =>
    rw [firstsBy] at h
    split at h
    · obtain ⟨hmem, hseen⟩ := ih h
      exact ⟨List.mem_cons_of_mem y hmem, hseen⟩
    · rename_i hy
      rcases List.mem_cons.mp h with rfl | h
      · exact ⟨List.mem_cons_self, hy⟩
      · obtain ⟨hmem, hseen⟩ := ih h
        exact ⟨List.mem_cons_of_mem y hmem, fun hx => hseen (List.mem_cons_of_mem _ hx)⟩

theorem nodup_map_firstsBy (key : α → κ) (l : List α) (seen : List κ) :
    ((firstsBy key l seen).map key).Nodup := by
  induction l generalizing seen with
  | nil => exact List.nodup_nil
  | cons y l ih =>
    rw [firstsBy]
    split
    · exact ih seen
    · rw [List.map_cons, List.nodup_cons]
      refine ⟨fun hmem => ?_, ih _⟩
      obtain ⟨x, hx, hkey⟩ := List.mem_map.mp hmem
      exact (mem_of_mem_firstsBy hx).2 (hkey ▸ List.mem_cons_self)

theorem mem_firstsBy_id [DecidableEq α] {l seen : List α} {x : α} :
    x ∈ firstsBy id l seen ↔ x ∈ l ∧ x ∉ seen := by
  refine ⟨mem_of_mem_firstsBy, fun h => ?_⟩
  induction l generalizing seen with
  | nil => cases h.1
  | cons y l ih =>
    obtain ⟨hmem, hseen⟩ := h
    rw [firstsBy, id_eq]
    rcases List.mem_cons.mp hmem with rfl | hmem
    · rw [if_neg hseen]
      exact List.mem_cons_self
    · split
      · exact ih ⟨hmem, hseen⟩
      · by_cases hxy : x = y
        · exact hxy ▸ List.mem_cons_self
        · exact List.mem_cons_of_mem y (ih ⟨hmem, by simp [hxy, hseen]⟩)

theorem firstsBy_of_injOn [DecidableEq α] {l seen : List α}
    (h : Set.InjOn key {x | x ∈ l ∨ x ∈ seen}) :
    firstsBy key l (seen.map key) = firstsBy id l seen := by
  induction l generalizing seen with
  | nil => rfl
  | cons y l ih =>
    have hseen : key y ∈ seen.map key ↔ y ∈ seen := by
      refine ⟨fun hy => ?_, List.mem_map_of_mem⟩
      obtain ⟨x, hx, hkey⟩ := List.mem_map.mp hy
      have hxy : x = y := h (.inr hx) (.inl List.mem_cons_self) hkey
      exact hxy ▸ hx
    simp only [firstsBy, id_eq, hseen]
    split
    · refine ih (h.mono fun x hx => ?_)
      exact hx.imp_left (List.mem_cons_of_mem y)
    · rw [← List.map_cons]
      congr 1
      refine ih (h.mono fun x hx => ?_)
      rcases hx with hx | hx
      · exact .inl (List.mem_cons_of_mem y hx)
      · rcases List.mem_cons.mp hx with rfl | hx
        · exact .inl List.mem_cons_self
        · exact .inr hx

/-- Duplicates by key are the duplicates exactly if the key tells the elements apart. -/
theorem firstsBy_eq_iff [DecidableEq α] (key : α → κ) (l : List α) :
    firstsBy key l [] = firstsBy id l [] ↔ Set.InjOn key {x | x ∈ l} := by
  refine ⟨fun h x hx y hy hkey => ?_, fun h => ?_⟩
  · have hx' : x ∈ firstsBy key l [] := h ▸ mem_firstsBy_id.mpr ⟨hx, by simp⟩
    have hy' : y ∈ firstsBy key l [] := h ▸ mem_firstsBy_id.mpr ⟨hy, by simp⟩
    exact List.inj_on_of_nodup_map (nodup_map_firstsBy key l []) hx' hy' hkey
  · have hnone : ∀ x, x ∈ l ∨ x ∈ ([] : List α) → x ∈ l := fun x hx => hx.elim id (by simp)
    exact firstsBy_of_injOn (h.mono hnone)

/-! ## Common elements -/

/-- The elements of `left`, once each, whose key is or is not one of `right`. -/
def commonBy (key : α → κ) (want : Bool) (left right : List α) : List α :=
  firstsBy key (left.filter fun x => decide (key x ∈ right.map key) == want) []

theorem commonBy_of_injOn [DecidableEq α] (want : Bool) {left right : List α}
    (h : Set.InjOn key {x | x ∈ left ++ right}) :
    commonBy key want left right = commonBy id want left right := by
  have hfilter : (left.filter fun x => decide (key x ∈ right.map key) == want) =
      left.filter fun x => decide (x ∈ right) == want := by
    refine List.filter_congr fun x hx => ?_
    have hmem : key x ∈ right.map key ↔ x ∈ right := by
      refine ⟨fun hy => ?_, List.mem_map_of_mem⟩
      obtain ⟨y, hy, hkey⟩ := List.mem_map.mp hy
      have hxy : y = x :=
        h (List.mem_append_right left hy) (List.mem_append_left right hx) hkey
      exact hxy ▸ hy
    simp only [hmem]
  rw [commonBy, hfilter, commonBy]
  simp only [List.map_id_fun, id_eq]
  refine (firstsBy_eq_iff key _).mpr (h.mono fun x hx => ?_)
  exact List.mem_append_left right (List.mem_of_mem_filter hx)

/-- Of two single elements the operations tell whether their keys agree. -/
theorem commonBy_pair (key : α → κ) (want : Bool) (x y : α) :
    commonBy key want [x] [y] = if decide (key x = key y) = want then [x] else [] := by
  by_cases h : key x = key y <;> cases want <;> simp [commonBy, firstsBy, h]

/-! ## Groups -/

/-- Puts `x` into the group of its key, a new one if there is none. -/
def addToGroup (k : κ) (x : α) : List (κ × List α) → List (κ × List α)
  | [] => [(k, [x])]
  | (k', xs) :: groups =>
    if k' = k then (k', xs ++ [x]) :: groups else (k', xs) :: addToGroup k x groups

def groupsBy (key : α → κ) (l : List α) : List (κ × List α) :=
  l.foldl (fun groups x => addToGroup (key x) x groups) []

theorem mem_addToGroup {k k' : κ} {x : α} {xs : List α} {groups : List (κ × List α)}
    (hnodup : (groups.map Prod.fst).Nodup) :
    (k', xs) ∈ addToGroup k x groups ↔
      if k' = k then (∃ ys, (k, ys) ∈ groups ∧ xs = ys ++ [x]) ∨
        k ∉ groups.map Prod.fst ∧ xs = [x]
      else (k', xs) ∈ groups := by
  induction groups with
  | nil =>
    by_cases hk : k' = k <;> simp [addToGroup, hk]
  | cons g groups ih =>
    obtain ⟨k₀, ys₀⟩ := g
    rw [List.map_cons, List.nodup_cons] at hnodup
    rw [addToGroup]
    by_cases hg : k₀ = k
    · subst hg
      have hnone : ∀ ys, (k₀, ys) ∉ groups := fun ys h =>
        hnodup.1 (List.mem_map.mpr ⟨_, h, rfl⟩)
      by_cases hk : k' = k₀
      · subst hk
        simp [hnone]
      · simp [hk]
    · rw [if_neg hg, List.mem_cons, ih hnodup.2]
      by_cases hk : k' = k
      · subst hk
        simp [Ne.symm hg]
      · simp [hk]

theorem map_fst_addToGroup (k : κ) (x : α) (groups : List (κ × List α)) :
    (addToGroup k x groups).map Prod.fst =
      if k ∈ groups.map Prod.fst then groups.map Prod.fst else groups.map Prod.fst ++ [k] := by
  induction groups with
  | nil => rfl
  | cons g groups ih =>
    obtain ⟨k₀, ys₀⟩ := g
    rw [addToGroup]
    by_cases hg : k₀ = k
    · simp [hg]
    · rw [if_neg hg, List.map_cons, ih]
      by_cases hk : k ∈ groups.map Prod.fst <;> simp [hk, Ne.symm hg]

/-- The groups are the elements with one key, in the order of the elements. -/
theorem groupsBy_spec (key : α → κ) (l : List α) :
    ((groupsBy key l).map Prod.fst).Nodup ∧
    ∀ k xs, (k, xs) ∈ groupsBy key l ↔ k ∈ l.map key ∧ xs = l.filter fun x => key x = k := by
  induction l using List.reverseRecOn with
  | nil => simp [groupsBy]
  | append_singleton l x ih =>
    obtain ⟨hnodup, hmem⟩ := ih
    have hstep : groupsBy key (l ++ [x]) = addToGroup (key x) x (groupsBy key l) := by
      simp [groupsBy]
    have hkeys : ∀ k, k ∈ (groupsBy key l).map Prod.fst ↔ k ∈ l.map key := by
      intro k
      rw [List.mem_map]
      constructor
      · rintro ⟨⟨k, xs⟩, hk, rfl⟩
        exact ((hmem k xs).mp hk).1
      · intro hk
        exact ⟨(k, _), (hmem k _).mpr ⟨hk, rfl⟩, rfl⟩
    rw [hstep]
    refine ⟨?_, fun k xs => ?_⟩
    · rw [map_fst_addToGroup]
      split
      · exact hnodup
      · rename_i hnew
        exact hnodup.append (List.nodup_singleton _) (List.disjoint_singleton.mpr hnew)
    · rw [mem_addToGroup hnodup]
      by_cases hk : k = key x
      · subst hk
        simp only [if_true, hmem, hkeys, List.map_append, List.map_cons, List.map_nil,
          List.filter_append, List.mem_append, List.mem_singleton, or_true, true_and]
        by_cases hin : key x ∈ l.map key
        · simp [hin]
        · have hnil : (l.filter fun y => key y = key x) = [] := by
            refine List.filter_eq_nil_iff.mpr fun y hy hkey => hin ?_
            exact List.mem_map.mpr ⟨y, hy, of_decide_eq_true hkey⟩
          simp [hin, hnil]
      · rw [if_neg hk, hmem]
        simp [hk, Ne.symm hk]

theorem groupsBy_snoc (key : α → κ) (l : List α) (x : α) :
    groupsBy key (l ++ [x]) = addToGroup (key x) x (groupsBy key l) := by
  simp [groupsBy]

theorem mem_keys_groupsBy {l : List α} {k : κ} :
    k ∈ (groupsBy key l).map Prod.fst ↔ k ∈ l.map key := by
  obtain ⟨-, hmem⟩ := groupsBy_spec key l
  rw [List.mem_map]
  constructor
  · rintro ⟨⟨k, xs⟩, hk, rfl⟩
    exact ((hmem k xs).mp hk).1
  · intro hk
    exact ⟨(k, _), (hmem k _).mpr ⟨hk, rfl⟩, rfl⟩

/-! ## Accumulators by key -/

/-- An accumulator for each key, with the keys in the order in which they have come. -/
structure Accumulators (κ σ : Type) where
  order : List κ := []
  find : κ → Option σ := fun _ => none

namespace Accumulators

variable {σ : Type}

/-- `f` on the accumulator of a key, on a fresh one if there is none. -/
def add (t : Accumulators κ σ) (k : κ) (fresh : σ) (f : σ → σ) : Accumulators κ σ :=
  match t.find k with
  | some s => { t with find := Function.update t.find k (some (f s)) }
  | none => { order := t.order ++ [k], find := Function.update t.find k (some (f fresh)) }

/-- What the accumulator of a group comes to. -/
def ofGroup (fresh : α → σ) (f : α → σ → σ) : List α → Option σ
  | [] => none
  | x :: xs => some ((x :: xs).foldl (fun s y => f y s) (fresh x))

theorem ofGroup_snoc (fresh : α → σ) (f : α → σ → σ) (xs : List α) (x : α) :
    ofGroup fresh f (xs ++ [x]) = some (f x ((ofGroup fresh f xs).getD (fresh x))) := by
  cases xs with
  | nil => rfl
  | cons y ys => simp [ofGroup]

/-- The accumulators of the elements are those of their groups. -/
theorem foldl_add (key : α → κ) (fresh : α → σ) (f : α → σ → σ) (l : List α) :
    let t := l.foldl (fun t x => t.add (key x) (fresh x) (f x)) ({} : Accumulators κ σ)
    t.order = (groupsBy key l).map Prod.fst ∧
      ∀ k, t.find k = ofGroup fresh f (l.filter fun x => key x = k) := by
  induction l using List.reverseRecOn with
  | nil => exact ⟨rfl, fun _ => rfl⟩
  | append_singleton l x ih =>
    obtain ⟨horder, hfind⟩ := ih
    simp only [List.foldl_append, List.foldl_cons, List.foldl_nil] at horder hfind ⊢
    generalize List.foldl _ _ l = t at horder hfind ⊢
    have hold : t.find (key x) = none ↔ key x ∉ (groupsBy key l).map Prod.fst := by
      rw [mem_keys_groupsBy, hfind]
      cases hgroup : l.filter fun y => key y = key x with
      | nil =>
        refine iff_of_true rfl fun hmem => ?_
        obtain ⟨y, hy, hkey⟩ := List.mem_map.mp hmem
        exact absurd hkey (by simpa using List.filter_eq_nil_iff.mp hgroup y hy)
      | cons y ys =>
        refine iff_of_false (by simp [ofGroup]) (not_not.mpr ?_)
        have hy : y ∈ l.filter fun y => key y = key x := hgroup ▸ List.mem_cons_self
        obtain ⟨hmem, hkey⟩ := List.mem_filter.mp hy
        exact List.mem_map.mpr ⟨y, hmem, of_decide_eq_true hkey⟩
    have hadd : ∀ k, (t.add (key x) (fresh x) (f x)).find k =
        if k = key x then some (f x ((t.find (key x)).getD (fresh x))) else t.find k := by
      intro k
      unfold add
      split <;> simp_all [Function.update_apply]
    constructor
    · rw [groupsBy_snoc, map_fst_addToGroup]
      unfold add
      split
      · rename_i s hs
        rw [if_pos (by by_contra hnew; simp [hold.mpr hnew] at hs)]
        exact horder
      · rename_i hnone
        rw [if_neg (hold.mp hnone), horder]
    · intro k
      rw [hadd, List.filter_append]
      split
      · rename_i hk
        subst hk
        rw [List.filter_singleton, decide_eq_true rfl, cond_true, ofGroup_snoc, hfind]
      · rename_i hk
        rw [List.filter_singleton, decide_eq_false (Ne.symm hk), cond_false, List.append_nil, hfind]

/-- Read out in the order of the keys, the accumulators are those of the groups. -/
theorem map_order_foldl_add {δ : Type} (key : α → κ) (fresh : α → σ) (f : α → σ → σ)
    (out : Option σ → δ) (l : List α) :
    let t := l.foldl (fun t x => t.add (key x) (fresh x) (f x)) ({} : Accumulators κ σ)
    (t.order.map fun k => out (t.find k)) =
      (groupsBy key l).map fun group => out (ofGroup fresh f group.2) := by
  intro t
  obtain ⟨horder, hfind⟩ := foldl_add key fresh f l
  rw [show t.order = _ from horder, List.map_map]
  refine List.map_congr_left fun group hgroup => ?_
  obtain ⟨k, xs⟩ := group
  obtain ⟨-, rfl⟩ := ((groupsBy_spec key l).2 k xs).mp hgroup
  exact congrArg out (hfind k)

end Accumulators

section Finer
variable {β : Type} [DecidableEq β] {g : α → β} {f : β → κ}

theorem groupsBy_of_injOn {l : List α} (h : Set.InjOn f {y | y ∈ l.map g}) :
    groupsBy (fun x => f (g x)) l = (groupsBy g l).map fun group => (f group.1, group.2) := by
  induction l using List.reverseRecOn with
  | nil => rfl
  | append_singleton l x ih =>
    have hstep : ∀ {κ' : Type} [DecidableEq κ'] (k : α → κ'),
        groupsBy k (l ++ [x]) = addToGroup (k x) x (groupsBy k l) := by
      intro κ' _ k
      simp [groupsBy]
    have hold : ∀ y ∈ l.map g, y ∈ (l ++ [x]).map g := by
      intro y hy
      rw [List.map_append]
      exact List.mem_append_left _ hy
    have hnew : g x ∈ (l ++ [x]).map g :=
      List.mem_map_of_mem (List.mem_append_right l List.mem_cons_self)
    rw [hstep, hstep, ih (h.mono hold)]
    have hkeys : ∀ group ∈ groupsBy g l, f group.1 = f (g x) → group.1 = g x := by
      rintro ⟨y, ys⟩ hgroup hkey
      obtain ⟨hy, -⟩ := ((groupsBy_spec g l).2 y ys).mp hgroup
      exact h (hold y hy) hnew hkey
    generalize groupsBy g l = groups at hkeys
    induction groups with
    | nil => rfl
    | cons group groups ihg =>
      rw [List.map_cons, addToGroup, addToGroup]
      by_cases hg : group.1 = g x
      · simp [hg]
      · have hkey : f group.1 ≠ f (g x) := fun hkey => hg (hkeys group List.mem_cons_self hkey)
        rw [if_neg hkey, if_neg hg, List.map_cons,
          ihg fun group' h' => hkeys group' (List.mem_cons_of_mem group h')]

/-- Groups by the key `f` of `g` are those by `g` exactly if the key tells apart what `g`
tells apart. -/
theorem groupsBy_eq_iff (f : β → κ) (g : α → β) (l : List α) :
    (groupsBy (fun x => f (g x)) l).map Prod.snd = (groupsBy g l).map Prod.snd ↔
      Set.InjOn f {y | y ∈ l.map g} := by
  refine ⟨fun h => ?_, fun h => ?_⟩
  · rintro _ hx _ hy hkey
    obtain ⟨x, hxl, rfl⟩ := List.mem_map.mp hx
    obtain ⟨y, hyl, rfl⟩ := List.mem_map.mp hy
    -- the group of `x` by `g` is also one by the key, and `y` is in that
    have hgroup : (l.filter fun z => g z = g x) ∈
        (groupsBy (fun x => f (g x)) l).map Prod.snd := by
      rw [h]
      exact List.mem_map.mpr
        ⟨(g x, _), ((groupsBy_spec g l).2 _ _).mpr ⟨List.mem_map_of_mem hxl, rfl⟩, rfl⟩
    obtain ⟨⟨k, xs⟩, hk, heq⟩ := List.mem_map.mp hgroup
    obtain ⟨-, hxs⟩ := ((groupsBy_spec _ l).2 k xs).mp hk
    have heq : xs = l.filter fun z => g z = g x := heq
    rw [hxs] at heq
    have hxk : f (g x) = k := by
      have hmem : x ∈ l.filter fun z => f (g z) = k := by
        rw [heq]
        simpa using hxl
      exact of_decide_eq_true (List.mem_filter.mp hmem).2
    have hmem : y ∈ l.filter fun z => g z = g x := by
      rw [← heq]
      exact List.mem_filter.mpr ⟨hyl, decide_eq_true (hkey ▸ hxk)⟩
    exact (of_decide_eq_true (List.mem_filter.mp hmem).2).symm
  · rw [groupsBy_of_injOn h, List.map_map]
    rfl

end Finer

end Relite.Lib
