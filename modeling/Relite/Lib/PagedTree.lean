import Relite.Lib.Separators
import Mathlib.Data.List.Nodup
import Mathlib.Data.List.Perm.Subperm
import Mathlib.Logic.Function.Basic

/-!
# Search trees whose nodes are numbered

A tree with its entries in the leaves and separators in the inner nodes. The nodes stand
under numbers, and each leaf names the next one. The shape of such a tree tells which node
stands where; it is kept by whoever writes the nodes of one subtree only.
-/
namespace Relite.Lib

structure PagedNode (ε : Type) where
  leaf : Bool := true
  nextLeaf : Int := -1
  entries : List ε := []
  children : List Int := []
  deriving DecidableEq

/-! ## Nodes under numbers -/

section Numbered

variable {ν : Type}

/-- The nodes in `l` have become those in `l'`: nodes with numbers of their own, or with new ones
from `n` on, while other nodes have not changed. -/
structure Rewritten (nodes nodes' : Int → ν) (n n' : Nat) (l l' : List Int) : Prop where
  le : n ≤ n'
  nodup : l'.Nodup
  mem : ∀ i ∈ l', i ∈ l ∨ (n : Int) ≤ i ∧ i < n'
  frame : ∀ i : Int, i < n → i ∉ l → nodes' i = nodes i

namespace Rewritten

variable {nodes nodes₁ nodes' : Int → ν} {n n₁ n' : Nat} {l l₁ l' : List Int}

theorem refl (hl : l.Nodup) : Rewritten nodes nodes n n l l :=
  ⟨le_rfl, hl, fun _ h => .inl h, fun _ _ _ => rfl⟩

theorem trans (h : Rewritten nodes nodes₁ n n₁ l l₁) (h' : Rewritten nodes₁ nodes' n₁ n' l₁ l') :
    Rewritten nodes nodes' n n' l l' where
  le := h.le.trans h'.le
  nodup := h'.nodup
  mem i hi := by
    have hle := h.le
    have hle' := h'.le
    rcases h'.mem i hi with hi | hi
    · exact (h.mem i hi).imp_right fun hi => ⟨hi.1, by omega⟩
    · exact .inr ⟨by omega, hi.2⟩
  frame i hi hmem := by
    have hle := h.le
    rw [h'.frame i (by omega) fun hi' => ?_, h.frame i hi hmem]
    rcases h.mem i hi' with hi' | hi'
    · exact hmem hi'
    · omega

theorem perm (h : Rewritten nodes nodes' n n' l l') {k k' : List Int} (hk : l.Perm k)
    (hk' : l'.Perm k') : Rewritten nodes nodes' n n' k k' where
  le := h.le
  nodup := hk'.nodup_iff.mp h.nodup
  mem i hi := (h.mem i (hk'.mem_iff.mpr hi)).imp_left hk.mem_iff.mp
  frame i hi hmem := h.frame i hi fun hi' => hmem (hk.mem_iff.mp hi')

/-- Nodes that stay as they are. -/
theorem append (h : Rewritten nodes nodes' n n' l l') {k : List Int} (hk : (l ++ k).Nodup)
    (hlt : ∀ i ∈ k, i < (n : Int)) : Rewritten nodes nodes' n n' (l ++ k) (l' ++ k) where
  le := h.le
  nodup := by
    rw [List.nodup_append'] at hk ⊢
    refine ⟨h.nodup, hk.2.1, fun i hi hik => ?_⟩
    rcases h.mem i hi with hi | hi
    · exact hk.2.2 hi hik
    · have := hlt i hik
      omega
  mem i hi := by
    rcases List.mem_append.mp hi with hi | hi
    · exact (h.mem i hi).imp_left (List.mem_append_left k)
    · exact .inl (List.mem_append_right l hi)
  frame i hi hmem := h.frame i hi fun hi' => hmem (List.mem_append_left k hi')

theorem write (hl : l.Nodup) {i : Int} (hi : i ∈ l) (node : ν) :
    Rewritten nodes (Function.update nodes i node) n n l l where
  le := le_rfl
  nodup := hl
  mem _ h := .inl h
  frame j _ hj := Function.update_of_ne (fun he : j = i => hj (he.symm ▸ hi)) _ _

theorem alloc (hl : l.Nodup) (hlt : ∀ i ∈ l, i < (n : Int)) (node : ν) :
    Rewritten nodes (Function.update nodes n node) n (n + 1) l ((n : Int) :: l) where
  le := Nat.le_succ n
  nodup := List.nodup_cons.mpr ⟨fun h => absurd (hlt _ h) (by omega), hl⟩
  mem i hi := by
    rcases List.mem_cons.mp hi with rfl | hi
    · exact .inr (by omega)
    · exact .inl hi
  frame i hi _ := Function.update_of_ne (by omega) _ _

theorem lt (h : Rewritten nodes nodes' n n' l l') (hlt : ∀ i ∈ l, i < (n : Int)) :
    ∀ i ∈ l', i < (n' : Int) := by
  intro i hi
  have hle := h.le
  rcases h.mem i hi with hi | hi
  · have := hlt i hi
    omega
  · exact hi.2

end Rewritten

end Numbered

/-! ## Shapes -/

def leafNode {ε : Type} (next : Int) (entries : List ε) : PagedNode ε :=
  { leaf := true, nextLeaf := next, entries }

def innerNode {ε : Type} (seps : List ε) (children : List Int) : PagedNode ε :=
  { leaf := false, entries := seps, children }

/-- A tree of a height, with the numbers of its nodes. -/
def Shape (ε : Type) : Nat → Type
  | 0 => Int × List ε
  | h + 1 => Int × Children ε (Shape ε h)

namespace Shape

variable {ε : Type}

def root : {h : Nat} → Shape ε h → Int
  | 0, t => t.1
  | _ + 1, t => t.1

def contents : {h : Nat} → Shape ε h → List ε
  | 0, t => t.2
  | _ + 1, t => t.2.flat contents

def numbers : {h : Nat} → Shape ε h → List Int
  | 0, t => [t.1]
  | _ + 1, t => t.1 :: t.2.flat numbers

def firstLeaf : {h : Nat} → Shape ε h → Int
  | 0, t => t.1
  | _ + 1, t => t.2.first.firstLeaf

/-- The entries are in order and between the bounds, and each separator tells its neighbours
apart. -/
def Within (P : ε → Prop) (less : ε → ε → Bool) :
    {h : Nat} → Option ε → Option ε → Shape ε h → Prop
  | 0, lo, hi, t =>
    t.2.Pairwise (fun a b => less a b) ∧ ∀ x ∈ t.2, P x ∧ From less lo x ∧ Below less hi x
  | _ + 1, lo, hi, t => t.2.Bounded P less (Within P less) lo hi

/-- The nodes stand under their numbers, and the last leaf is followed by `after`. -/
def Stored (nodes : Int → PagedNode ε) : {h : Nat} → Int → Shape ε h → Prop
  | 0, after, t => nodes t.1 = leafNode after t.2
  | _ + 1, after, t =>
    nodes t.1 = innerNode t.2.seps (t.2.kids.map root) ∧ t.2.Linked firstLeaf (Stored nodes) after

variable {P : ε → Prop} {less : ε → ε → Bool}

theorem root_mem_numbers {h : Nat} (t : Shape ε h) : t.root ∈ t.numbers := by
  cases h <;> simp [root, numbers]

theorem within_contents (hless : StrictWeakOn P less) {h : Nat} {lo hi : Option ε}
    {t : Shape ε h} (hlo : ∀ l ∈ lo, P l) (hhi : ∀ u ∈ hi, P u) (ht : t.Within P less lo hi) :
    t.contents.Pairwise (fun a b => less a b) ∧
      ∀ x ∈ t.contents, P x ∧ From less lo x ∧ Below less hi x := by
  induction h generalizing lo hi with
  | zero => exact ht
  | succ h ih => exact ht.flat hless (fun lo hi c hl hu hc => ih hl hu hc) hlo hhi

theorem Stored.congr {nodes nodes' : Int → PagedNode ε} {h : Nat} {t : Shape ε h} {after : Int}
    (ht : t.Stored nodes after) (hsame : ∀ i ∈ t.numbers, nodes' i = nodes i) :
    t.Stored nodes' after := by
  induction h generalizing after with
  | zero => exact (hsame t.1 (by simp [numbers])).trans ht
  | succ h ih =>
    rw [numbers, List.forall_mem_cons, Children.flat_eq_flatMap] at hsame
    refine ⟨hsame.1.trans ht.1, ht.2.imp fun c hc a hca => ih hca fun i hi => ?_⟩
    exact hsame.2 i (List.mem_flatMap.mpr ⟨c, hc, hi⟩)

/-! ### A subtree with an entry more -/

/-- What a subtree has become: one, or two with a separator between them. -/
inductive Grown (ε : Type) (h : Nat)
  | whole (t : Shape ε h)
  | split (t : Shape ε h) (up : ε) (r : Shape ε h)

namespace Grown

def numbers {h : Nat} : Grown ε h → List Int
  | whole t => t.numbers
  | split t _ r => t.numbers ++ r.numbers

/-- The separator and the number of the second subtree. -/
def upper {h : Nat} : Grown ε h → Option (ε × Int)
  | whole _ => none
  | split _ up r => some (up, r.root)

/-- The nodes hold the subtree with the entry `e` more, in its bounds and in its place. -/
def Holds (P : ε → Prop) (less : ε → ε → Bool) (nodes : Int → PagedNode ε) (lo hi : Option ε)
    (after : Int) {h : Nat} (t : Shape ε h) (e : ε) : Grown ε h → Prop
  | whole t' =>
    t'.root = t.root ∧ t'.firstLeaf = t.firstLeaf ∧ t'.Within P less lo hi ∧
      t'.Stored nodes after ∧ t'.contents = insertEntry less e t.contents
  | split t' up r =>
    t'.root = t.root ∧ t'.firstLeaf = t.firstLeaf ∧ P up ∧ Above less lo up ∧ Below less hi up ∧
      t'.Within P less lo (some up) ∧ r.Within P less (some up) hi ∧
      t'.Stored nodes r.firstLeaf ∧ r.Stored nodes after ∧
      t'.contents ++ r.contents = insertEntry less e t.contents

end Grown

section Leaf

variable {nodes : Int → PagedNode ε} {lo hi : Option ε} {after : Int} {t : Shape ε 0} {e : ε}
  (hless : StrictWeakOn P less) (he : P e) (hfrom : From less lo e) (hbelow : Below less hi e)
  (ht : t.Within P less lo hi) (hnew : ∀ x ∈ t.contents, less x e ∨ less e x)
include hless he hfrom hbelow ht hnew

theorem within_insertEntry :
    Within P less (h := 0) lo hi (t.1, insertEntry less e t.2) := by
  refine ⟨pairwise_insertEntry hless he ht.1 (fun x hx => (ht.2 x hx).1) hnew, fun x hx => ?_⟩
  rcases mem_insertEntry.mp hx with rfl | hx
  · exact ⟨he, hfrom, hbelow⟩
  · exact ht.2 x hx

theorem leaf_whole {nodes' : Int → PagedNode ε}
    (hnode : nodes' t.1 = leafNode after (insertEntry less e t.2)) :
    Grown.Holds P less nodes' lo hi after t e (.whole (t.1, insertEntry less e t.2)) :=
  ⟨rfl, rfl, within_insertEntry hless he hfrom hbelow ht hnew, hnode, rfl⟩

/-- The upper half begins with an entry above the lower bound, unless all entries are in it. -/
theorem leaf_split (hlo : ∀ l ∈ lo, P l) {nodes' : Int → PagedNode ε} {mid : Nat} {right : Int}
    {up : ε} (hmid : 0 < mid) (hup : (insertEntry less e t.2)[mid]? = some up)
    (hleft : nodes' t.1 = leafNode right ((insertEntry less e t.2).take mid))
    (hright : nodes' right = leafNode after ((insertEntry less e t.2).drop mid)) :
    Grown.Holds P less nodes' lo hi after t e
      (.split (t.1, (insertEntry less e t.2).take mid) up
        (right, (insertEntry less e t.2).drop mid)) := by
  obtain ⟨hsorted, hin⟩ := within_insertEntry hless he hfrom hbelow ht hnew
  dsimp only at hsorted hin
  generalize hl : insertEntry less e t.2 = l at *
  obtain ⟨hlt, rfl⟩ := List.getElem?_eq_some_iff.mp hup
  obtain ⟨hPup, hfromUp, hbelowUp⟩ := hin l[mid] (List.getElem_mem hlt)
  have hcons : l.drop mid = l[mid] :: l.drop (mid + 1) := List.drop_eq_getElem_cons hlt
  have hboth := hsorted
  rw [← List.take_append_drop mid l, hcons, List.pairwise_append, List.pairwise_cons] at hboth
  obtain ⟨htake, ⟨hdropFirst, hdrop⟩, hcross⟩ := hboth
  refine ⟨rfl, rfl, hPup, fun a ha => ?_, hbelowUp, ⟨htake, fun x hx => ?_⟩,
    ⟨hcons ▸ List.pairwise_cons.mpr ⟨hdropFirst, hdrop⟩, fun x hx => ?_⟩, hleft, hright,
    (List.take_append_drop mid l).trans hl.symm⟩
  · have hzero : l[0] ∈ l.take mid := by
      rw [List.mem_take_iff_getElem]
      exact ⟨0, by omega, rfl⟩
    have hPzero := hin l[0] (List.getElem_mem _)
    exact hless.less_of_not_less_left (hlo a ha) hPzero.1 hPup (hPzero.2.1 a ha)
      (hcross _ hzero _ List.mem_cons_self)
  · obtain ⟨hPx, hfromx, -⟩ := hin x (List.mem_of_mem_take hx)
    refine ⟨hPx, hfromx, ?_⟩
    rintro u ⟨⟩
    exact hcross x hx _ List.mem_cons_self
  · obtain ⟨hPx, -, hbelowx⟩ := hin x (List.mem_of_mem_drop hx)
    refine ⟨hPx, ?_, hbelowx⟩
    rintro u ⟨⟩
    rw [hcons] at hx
    rcases List.mem_cons.mp hx with rfl | hx
    · cases hself : less l[mid] l[mid] with
      | false => rfl
      | true => exact hself.symm.trans (hless.asymm _ _ hPup hPup hself)
    · exact hless.asymm _ _ hPup hPx (hdropFirst x hx)

end Leaf

section Parent

variable {nodes nodes' : Int → PagedNode ε} {n n' : Nat} {h : Nat} {lo hi : Option ε}
  {after : Int} {t : Shape ε (h + 1)} {e : ε}

/-- The child that the entry belongs into is one of the nodes, and stands beside the others. -/
theorem numbers_perm (less : ε → ε → Bool) (e : ε) (t : Shape ε (h + 1)) :
    t.numbers.Perm ((t.2.childFor less e).numbers ++
      (t.1 :: (t.2.others less e).flatMap numbers)) := by
  have hkids := (t.2.kids_perm less e).flatMap_right numbers
  rw [List.flatMap_cons] at hkids
  rw [numbers, Children.flat_eq_flatMap]
  exact (hkids.cons t.1).trans List.perm_middle.symm

theorem numbers_update_perm (less : ε → ε → Bool) (e : ε) (t : Shape ε (h + 1))
    (c' : Shape ε h) (o : Option (ε × Shape ε h)) :
    (numbers (h := h + 1) (t.1, t.2.update less e c' o)).Perm
      ((c'.numbers ++ (o.map Prod.snd).toList.flatMap numbers) ++
        (t.1 :: (t.2.others less e).flatMap numbers)) := by
  have hkids := (t.2.kids_update_perm less e c' o).flatMap_right numbers
  rw [List.cons_append, List.flatMap_cons, List.flatMap_append, ← List.append_assoc] at hkids
  change (t.1 :: (t.2.update less e c' o).flat numbers).Perm _
  rw [Children.flat_eq_flatMap]
  exact (hkids.cons t.1).trans List.perm_middle.symm

variable (hstored : t.Stored nodes after)
  (hnodup : t.numbers.Nodup) (hlt : ∀ i ∈ t.numbers, i < (n : Int))

section

include hnodup hlt

/-- What a child becomes, the subtree becomes, as long as its own node is left alone. -/
theorem rewritten_of_child {l' : List Int}
    (hchild : Rewritten nodes nodes' n n' (t.2.childFor less e).numbers l') :
    Rewritten nodes nodes' n n' t.numbers
      (l' ++ (t.1 :: (t.2.others less e).flatMap numbers)) := by
  have hperm := numbers_perm less e t
  refine (hchild.append (hperm.nodup_iff.mp hnodup) fun i hi => hlt i ?_).perm hperm.symm (.refl _)
  exact hperm.mem_iff.mpr (List.mem_append_right _ hi)

theorem node_of_child {l' : List Int}
    (hchild : Rewritten nodes nodes' n n' (t.2.childFor less e).numbers l') :
    nodes' t.1 = nodes t.1 := by
  have hperm := numbers_perm less e t
  have hsplit := hperm.nodup_iff.mp hnodup
  rw [List.nodup_append'] at hsplit
  refine hchild.frame t.1 (hlt t.1 (root_mem_numbers t)) fun hmem => ?_
  exact hsplit.2.2 hmem List.mem_cons_self

theorem stored_others {l' : List Int}
    (hchild : Rewritten nodes nodes' n n' (t.2.childFor less e).numbers l') :
    ∀ c ∈ t.2.others less e, ∀ a, c.Stored nodes a → c.Stored nodes' a := by
  intro c hc a hca
  have hperm := numbers_perm less e t
  have hsplit := hperm.nodup_iff.mp hnodup
  rw [List.nodup_append'] at hsplit
  refine hca.congr fun i hi => ?_
  have hmem : i ∈ t.1 :: (t.2.others less e).flatMap numbers :=
    List.mem_cons_of_mem _ (List.mem_flatMap.mpr ⟨c, hc, hi⟩)
  refine hchild.frame i (hlt i (hperm.mem_iff.mpr (List.mem_append_right _ hmem))) fun hi' => ?_
  exact hsplit.2.2 hi' hmem

end

variable (P less nodes lo hi after t e) in
/-- The place of the child that the entry belongs into: its bounds, what follows it, and what the
subtree has besides it. -/
structure Place (lo' hi' : Option ε) (after' : Int) (front back : List (Shape ε h)) : Prop where
  slot : Children.Slot P less (Within P less) lo hi e t.2 lo' hi'
  stored : (t.2.childFor less e).Stored nodes after'
  linked : ∀ nodes' : Int → PagedNode ε,
    (∀ c ∈ t.2.others less e, ∀ a, c.Stored nodes a → c.Stored nodes' a) →
    ∀ c', firstLeaf c' = firstLeaf (t.2.childFor less e) →
      (c'.Stored nodes' after' →
        (t.2.update less e c' none).Linked firstLeaf (Stored nodes') after) ∧
      ∀ up r, c'.Stored nodes' r.firstLeaf → r.Stored nodes' after' →
        (t.2.update less e c' (some (up, r))).Linked firstLeaf (Stored nodes') after
  kids : t.2.kids = front ++ t.2.childFor less e :: back
  before : ∀ x ∈ front.flatMap contents, P x ∧ less x e
  behind : ∀ x ∈ back.flatMap contents, P x ∧ less e x
  one : ∀ c', (t.2.update less e c' none).flat contents =
    front.flatMap contents ++ c'.contents ++ back.flatMap contents
  two : ∀ c' up r, (t.2.update less e c' (some (up, r))).flat contents =
    front.flatMap contents ++ (c'.contents ++ r.contents) ++ back.flatMap contents

/-- What the children hold, with `f c` standing for what the child `c` holds. -/
theorem Place.flat {lo' hi' : Option ε} {after' : Int} {front back : List (Shape ε h)}
    (hplace : Place P less nodes lo hi after t e lo' hi' after' front back) {β : Type}
    (f : Shape ε h → List β) :
    t.2.flat f = front.flatMap f ++ f (t.2.childFor less e) ++ back.flatMap f := by
  rw [Children.flat_eq_flatMap, hplace.kids, List.flatMap_append, List.flatMap_cons,
    List.append_assoc]

theorem Place.holds {lo' hi' : Option ε} {after' : Int} {front back : List (Shape ε h)}
    (hplace : Place P less nodes lo hi after t e lo' hi' after' front back) :
    t.contents = front.flatMap contents ++ (t.2.childFor less e).contents ++
      back.flatMap contents := hplace.flat contents

theorem exists_place (hless : StrictWeakOn P less) (he : P e) (hlo : ∀ l ∈ lo, P l)
    (hhi : ∀ u ∈ hi, P u) (hfrom : From less lo e) (hbelow : Below less hi e)
    (ht : t.Within P less lo hi) (hstored : t.Stored nodes after) :
    ∃ lo' hi' after' front back, Place P less nodes lo hi after t e lo' hi' after' front back := by
  obtain ⟨lo', hi', hslot⟩ := Children.Bounded.slot hless hlo hhi hfrom hbelow ht
  obtain ⟨after', hchild, hlinked⟩ := hstored.2.update less e
  obtain ⟨front, back, hkids, hfront, hback, hone, htwo⟩ := ht.exists_kids hless
    (fun _ _ _ hl hu hc => within_contents hless hl hu hc) he hlo hhi
  refine ⟨lo', hi', after', front, back, hslot, hchild, fun nodes' => hlinked (Stored nodes'),
    hkids, hfront, hback, fun c' => ?_, fun c' up r => ?_⟩
  · rw [Children.flat_eq_flatMap, hone, List.flatMap_append, List.flatMap_cons, List.append_assoc]
  · rw [Children.flat_eq_flatMap, htwo, List.flatMap_append, List.flatMap_cons, List.flatMap_cons]
    simp only [List.append_assoc]

section

variable {nodes₁ : Int → PagedNode ε} {n₁ : Nat} {lo' hi' : Option ε} {after' : Int}
  {front back : List (Shape ε h)} (hplace : Place P less nodes lo hi after t e lo' hi' after' front back)
include hstored hnodup hlt hplace

/-- The child may give way to another one that begins where it did. -/
theorem parent_replace {c' : Shape ε h} (hroot : c'.root = (t.2.childFor less e).root)
    (hfirst : c'.firstLeaf = (t.2.childFor less e).firstLeaf)
    (hwithin : c'.Within P less lo' hi') (hstored' : c'.Stored nodes₁ after')
    (hchild : Rewritten nodes nodes₁ n n₁ (t.2.childFor less e).numbers c'.numbers) :
    Within (h := h + 1) P less lo hi (t.1, t.2.update less e c' none) ∧
      Stored (h := h + 1) nodes₁ after (t.1, t.2.update less e c' none) ∧
      Rewritten nodes nodes₁ n n₁ t.numbers
        (numbers (h := h + 1) (t.1, t.2.update less e c' none)) := by
  refine ⟨hplace.slot.one c' hwithin, ⟨?_, ?_⟩, ?_⟩
  · dsimp only
    rw [node_of_child hnodup hlt hchild, hstored.1, Children.seps_update_none,
      Children.kids_update_none hroot]
  · exact (hplace.linked nodes₁ (stored_others hnodup hlt hchild) c' hfirst).1 hstored'
  · refine (rewritten_of_child hnodup hlt hchild).perm (.refl _) ?_
    have hperm := numbers_update_perm less e t c' none
    rw [Option.map_none, Option.toList_none, List.flatMap_nil, List.append_nil] at hperm
    exact hperm.symm

/-- The child stays one: so does the subtree. -/
theorem parent_whole (hless : StrictWeakOn P less) (he : P e) {c' : Shape ε h}
    (hchild : Rewritten nodes nodes₁ n n₁ (t.2.childFor less e).numbers c'.numbers)
    (hholds : Grown.Holds P less nodes₁ lo' hi' after' (t.2.childFor less e) e (.whole c')) :
    Grown.Holds P less nodes₁ lo hi after t e (.whole (t.1, t.2.update less e c' none)) ∧
      Rewritten nodes nodes₁ n n₁ t.numbers
        (Grown.numbers (h := h + 1) (.whole (t.1, t.2.update less e c' none))) := by
  obtain ⟨hroot, hfirst, hwithin, hstored', hcontents⟩ := hholds
  obtain ⟨hw, hs, hrewritten⟩ :=
    parent_replace hstored hnodup hlt hplace hroot hfirst hwithin hstored' hchild
  refine ⟨⟨rfl, Children.head_first_update none hfirst, hw, hs, ?_⟩, hrewritten⟩
  refine (hplace.one c').trans ?_
  rw [hcontents, hplace.holds, insertEntry_append hless he hplace.before hplace.behind]

section Split

variable (hless : StrictWeakOn P less) (he : P e) {c' r : Shape ε h} {up : ε}
  (hchild : Rewritten nodes nodes₁ n n₁ (t.2.childFor less e).numbers (c'.numbers ++ r.numbers))
  (hholds : Grown.Holds P less nodes₁ lo' hi' after' (t.2.childFor less e) e (.split c' up r))
include hless he hchild hholds
omit hstored

/-- The child has become two, and there is room for the separator. -/
theorem parent_grow {nodes' : Int → PagedNode ε}
    (hnodes : nodes' = Function.update nodes₁ t.1
      (innerNode (t.2.update less e c' (some (up, r))).seps
        ((t.2.update less e c' (some (up, r))).kids.map root))) :
    Grown.Holds P less nodes' lo hi after t e
        (.whole (t.1, t.2.update less e c' (some (up, r)))) ∧
      Rewritten nodes nodes' n n₁ t.numbers
        (Grown.numbers (h := h + 1) (.whole (t.1, t.2.update less e c' (some (up, r))))) := by
  obtain ⟨hroot, hfirst, hPup, hlup, huup, hwc, hwr, hsc, hsr, hcontents⟩ := hholds
  have hperm := numbers_update_perm less e t c' (some (up, r))
  rw [Option.map_some, Option.toList_some, List.flatMap_singleton] at hperm
  have hrewritten := (rewritten_of_child hnodup hlt hchild).perm (.refl _) hperm.symm
  have hnd : (t.1 :: (t.2.update less e c' (some (up, r))).flat numbers).Nodup := hrewritten.nodup
  have hkids : ∀ c ∈ (t.2.update less e c' (some (up, r))).kids, ∀ a, c.Stored nodes₁ a →
      c.Stored nodes' a := by
    intro c hc a hca
    refine hca.congr fun i hi => ?_
    rw [hnodes, Function.update_of_ne]
    rintro rfl
    rw [Children.flat_eq_flatMap] at hnd
    exact (List.nodup_cons.mp hnd).1 (List.mem_flatMap.mpr ⟨c, hc, hi⟩)
  refine ⟨⟨rfl, Children.head_first_update _ hfirst,
    hplace.slot.two c' up r hPup hlup huup hwc hwr, ⟨?_, ?_⟩, ?_⟩, ?_⟩
  · rw [hnodes, Function.update_self]
  · exact ((hplace.linked nodes₁ (stored_others hnodup hlt hchild) c' hfirst).2 up r hsc hsr).imp
      hkids
  · refine (hplace.two c' up r).trans ?_
    rw [hcontents, hplace.holds, insertEntry_append hless he hplace.before hplace.behind]
  · rw [hnodes]
    exact hrewritten.trans (.write hrewritten.nodup List.mem_cons_self _)

/-- The child has become two, and the separators with the new one are shared between two nodes,
except for the middle one. -/
theorem parent_split {pmid : Nat} {kl kr : Children ε (Shape ε h)} {sep : ε}
    (hsplit : (t.2.update less e c' (some (up, r))).splitAt pmid = some (kl, sep, kr))
    (hlo : ∀ l ∈ lo, P l) {nodes' : Int → PagedNode ε}
    (hnodes : nodes' = Function.update
      (Function.update nodes₁ n₁ (innerNode kr.seps (kr.kids.map root))) t.1
      (innerNode kl.seps (kl.kids.map root))) :
    Grown.Holds P less nodes' lo hi after t e (.split (t.1, kl) sep ((n₁ : Int), kr)) ∧
      Rewritten nodes nodes' n (n₁ + 1) t.numbers
        (Grown.numbers (h := h + 1) (.split (t.1, kl) sep ((n₁ : Int), kr))) := by
  obtain ⟨hroot, hfirst, hPup, hlup, huup, hwc, hwr, hsc, hsr, hcontents⟩ := hholds
  have hperm := numbers_update_perm less e t c' (some (up, r))
  rw [Option.map_some, Option.toList_some, List.flatMap_singleton] at hperm
  have hrewritten := (rewritten_of_child hnodup hlt hchild).perm (.refl _) hperm.symm
  generalize hks : t.2.update less e c' (some (up, r)) = ks at *
  have hnumbers : numbers (h := h + 1) (t.1, ks) = t.1 :: ks.flat numbers := rfl
  rw [hnumbers] at hrewritten
  have hltks : ∀ i ∈ t.1 :: ks.flat numbers, i < (n₁ : Int) := hrewritten.lt hlt
  have hnd := hrewritten.nodup
  have hkids : ∀ c ∈ ks.kids, ∀ a, c.Stored nodes₁ a → c.Stored nodes' a := by
    intro c hc a hca
    have hmem : ∀ i ∈ c.numbers, i ∈ ks.flat numbers := fun i hi => by
      rw [Children.flat_eq_flatMap]
      exact List.mem_flatMap.mpr ⟨c, hc, hi⟩
    refine hca.congr fun i hi => ?_
    have hin := hltks i (List.mem_cons_of_mem _ (hmem i hi))
    rw [hnodes, Function.update_of_ne, Function.update_of_ne (by omega)]
    rintro rfl
    exact (List.nodup_cons.mp hnd).1 (hmem t.1 hi)
  have hlinked := ((hplace.linked nodes₁ (stored_others hnodup hlt hchild) c' hfirst).2 up r hsc
    hsr)
  rw [hks] at hlinked
  obtain ⟨hll, hlr⟩ := (hlinked.imp hkids).splitAt hsplit
  have hbounded := hplace.slot.two c' up r hPup hlup huup hwc hwr
  rw [hks] at hbounded
  obtain ⟨hPsep, hlsep, husep, hbl, hbr⟩ := hbounded.splitAt hless hsplit hlo
  obtain ⟨l₀, m₀, r₀, hsplit₀, -, -, -, -, -, hfirstl⟩ :=
    Children.splitAt_spec (Children.lt_of_splitAt hsplit)
  rw [hsplit] at hsplit₀
  cases hsplit₀
  have hne : t.1 ≠ (n₁ : Int) := by
    have := hltks t.1 List.mem_cons_self
    omega
  refine ⟨⟨rfl, ?_, hPsep, hlsep, husep, hbl, hbr, ⟨?_, hll⟩, ⟨?_, hlr⟩, ?_⟩, ?_⟩
  · change firstLeaf kl.first = firstLeaf t.2.first
    rw [hfirstl, ← hks]
    exact Children.head_first_update _ hfirst
  · rw [hnodes, Function.update_self]
  · rw [hnodes, Function.update_of_ne hne.symm, Function.update_self]
  · change kl.flat contents ++ kr.flat contents = _
    rw [← Children.flat_of_splitAt hsplit, ← hks]
    refine (hplace.two c' up r).trans ?_
    rw [hcontents, hplace.holds, insertEntry_append hless he hplace.before hplace.behind]
  · rw [hnodes]
    have halloc := hrewritten.trans (.alloc hrewritten.nodup hltks
      (innerNode kr.seps (kr.kids.map root)))
    have hwrite := halloc.trans (.write halloc.nodup
      (List.mem_cons_of_mem _ List.mem_cons_self) (innerNode kl.seps (kl.kids.map root)))
    refine hwrite.perm (.refl _) ?_
    change List.Perm _ ((t.1 :: kl.flat numbers) ++ ((n₁ : Int) :: kr.flat numbers))
    rw [Children.flat_of_splitAt hsplit, ← List.cons_append]
    exact List.perm_middle.symm

end Split

end

end Parent

/-! ### The way to an entry -/

/-- The leaf that an entry belongs into. -/
def leafFor (less : ε → ε → Bool) (e : ε) : {h : Nat} → Shape ε h → Int × List ε
  | 0, t => t
  | _ + 1, t => (t.2.childFor less e).leafFor less e

/-- The inner nodes on the way to that leaf, the lowest one first. -/
def pathFor (less : ε → ε → Bool) (e : ε) : {h : Nat} → Shape ε h → List Int
  | 0, _ => []
  | _ + 1, t => (t.2.childFor less e).pathFor less e ++ [t.1]

def leaves : {h : Nat} → Shape ε h → List (Int × List ε)
  | 0, t => [t]
  | _ + 1, t => t.2.flat leaves

theorem flatMap_leaves {h : Nat} (t : Shape ε h) : t.leaves.flatMap Prod.snd = t.contents := by
  induction h with
  | zero => exact List.flatMap_singleton _ _
  | succ h ih =>
    change (t.2.flat leaves).flatMap Prod.snd = t.2.flat contents
    rw [Children.flat_eq_flatMap, Children.flat_eq_flatMap, List.flatMap_assoc]
    exact List.flatMap_congr fun c _ => ih c

theorem length_leaves_le {h : Nat} (t : Shape ε h) : t.leaves.length ≤ t.numbers.length := by
  induction h with
  | zero => exact le_rfl
  | succ h ih =>
    change (t.2.flat leaves).length ≤ (t.1 :: t.2.flat numbers).length
    exact Nat.le_succ_of_le (Children.length_flat_le ih t.2)

theorem mem_numbers_of_leaves {h : Nat} {t : Shape ε h} : ∀ l ∈ t.leaves, l.1 ∈ t.numbers := by
  induction h with
  | zero =>
    intro l hl
    obtain rfl : l = t := List.mem_singleton.mp hl
    exact List.mem_cons_self
  | succ h ih =>
    intro l hl
    change l ∈ t.2.flat leaves at hl
    change l.1 ∈ t.1 :: t.2.flat numbers
    rw [Children.flat_eq_flatMap] at hl ⊢
    obtain ⟨c, hc, hl⟩ := List.mem_flatMap.mp hl
    exact List.mem_cons_of_mem _ (List.mem_flatMap.mpr ⟨c, hc, ih l hl⟩)

theorem height_lt_numbers {h : Nat} (t : Shape ε h) : h < t.numbers.length := by
  induction h with
  | zero => exact Nat.zero_lt_one
  | succ h ih =>
    change h + 1 < (t.1 :: t.2.flat numbers).length
    exact Nat.succ_lt_succ ((ih t.2.first).trans_le (Children.length_first_le numbers t.2))

section Leaves

variable {nodes : Int → PagedNode ε} {lo hi : Option ε} {after : Int} {h : Nat} {t : Shape ε h}
  {e : ε}

/-- The leaves before the one of an entry hold what is less, those behind it what is greater. -/
theorem exists_leaves (hless : StrictWeakOn P less) (he : P e) (hlo : ∀ l ∈ lo, P l)
    (hhi : ∀ u ∈ hi, P u) (hfrom : From less lo e) (hbelow : Below less hi e)
    (ht : t.Within P less lo hi) (hstored : t.Stored nodes after) :
    ∃ front back, t.leaves = front ++ t.leafFor less e :: back ∧
      (∀ x ∈ front.flatMap Prod.snd, P x ∧ less x e) ∧
      ∀ x ∈ back.flatMap Prod.snd, P x ∧ less e x := by
  induction h generalizing lo hi after with
  | zero => exact ⟨[], [], rfl, by simp, by simp⟩
  | succ h ih =>
    obtain ⟨lo', hi', after', front, back, hplace⟩ :=
      exists_place hless he hlo hhi hfrom hbelow ht hstored
    obtain ⟨front', back', hleaves, hfront, hback⟩ := ih hplace.slot.lower hplace.slot.upper
      hplace.slot.from_ hplace.slot.below hplace.slot.child hplace.stored
    have hheld : ∀ cs : List (Shape ε h),
        (cs.flatMap leaves).flatMap Prod.snd = cs.flatMap contents := fun cs => by
      rw [List.flatMap_assoc]
      exact List.flatMap_congr fun c _ => flatMap_leaves c
    refine ⟨front.flatMap leaves ++ front', back' ++ back.flatMap leaves, ?_, fun x hx => ?_,
      fun x hx => ?_⟩
    · change t.2.flat leaves = _ ++ (t.2.childFor less e).leafFor less e :: _
      rw [hplace.flat, hleaves]
      simp only [List.append_assoc, List.cons_append]
    · rw [List.flatMap_append, hheld] at hx
      exact (List.mem_append.mp hx).elim (hplace.before x) (hfront x)
    · rw [List.flatMap_append, hheld] at hx
      exact (List.mem_append.mp hx).elim (hback x) (hplace.behind x)

/-- Where the leaves begin. -/
def start (after : Int) : List (Int × List ε) → Int
  | [] => after
  | l :: _ => l.1

/-- Each leaf names the next one. -/
def Chained (nodes : Int → PagedNode ε) (after : Int) : List (Int × List ε) → Prop
  | [] => True
  | l :: ls => nodes l.1 = leafNode (start after ls) l.2 ∧ Chained nodes after ls

theorem start_append (after : Int) (ls ls' : List (Int × List ε)) :
    start after (ls ++ ls') = start (start after ls') ls := by
  cases ls <;> rfl

theorem Chained.append {ls ls' : List (Int × List ε)} :
    Chained nodes after (ls ++ ls') ↔
      Chained nodes (start after ls') ls ∧ Chained nodes after ls' := by
  induction ls with
  | nil => simp [Chained]
  | cons l ls ih => rw [List.cons_append, Chained, Chained, start_append, ih, and_assoc]

theorem chained_leaves (hstored : t.Stored nodes after) :
    Chained nodes after t.leaves ∧ start after t.leaves = t.firstLeaf := by
  induction h generalizing after with
  | zero => exact ⟨⟨hstored, trivial⟩, rfl⟩
  | succ h ih =>
    obtain ⟨i, ks⟩ := t
    have hlinked : ks.Linked firstLeaf (Stored nodes) after := hstored.2
    change Chained nodes after (ks.flat leaves) ∧ start after (ks.flat leaves) = ks.first.firstLeaf
    clear hstored
    induction ks with
    | last c => exact ih hlinked
    | more c s rest ihr =>
      obtain ⟨hrest, hstart⟩ := ihr hlinked.2
      obtain ⟨hc, hfirst⟩ := ih hlinked.1
      rw [Children.flat, Chained.append, start_append, hstart]
      exact ⟨⟨hc, hrest⟩, hfirst⟩

end Leaves

/-- The leaf of an entry, and the subtree that there is when some of its entries have gone. -/
theorem exists_without {nodes : Int → PagedNode ε} {n h : Nat} {lo hi : Option ε} {after : Int}
    {t : Shape ε h} {e : ε} (hless : StrictWeakOn P less) (he : P e) (hlo : ∀ l ∈ lo, P l)
    (hhi : ∀ u ∈ hi, P u) (hfrom : From less lo e) (hbelow : Below less hi e)
    (ht : t.Within P less lo hi) (hstored : t.Stored nodes after) (hnodup : t.numbers.Nodup)
    (hlt : ∀ i ∈ t.numbers, i < (n : Int)) :
    ∃ next front back, nodes (t.leafFor less e).1 = leafNode next (t.leafFor less e).2 ∧
      t.contents = front ++ (t.leafFor less e).2 ++ back ∧ (∀ x ∈ front, P x ∧ less x e) ∧
      (∀ x ∈ back, P x ∧ less e x) ∧
      ∀ l' : List ε, l'.Sublist (t.leafFor less e).2 →
        ∀ nodes', nodes' = Function.update nodes (t.leafFor less e).1 (leafNode next l') →
        ∃ t' : Shape ε h, t'.root = t.root ∧ t'.firstLeaf = t.firstLeaf ∧
          t'.Within P less lo hi ∧ t'.Stored nodes' after ∧ t'.contents = front ++ l' ++ back ∧
          Rewritten nodes nodes' n n t.numbers t'.numbers := by
  induction h generalizing lo hi after with
  | zero =>
    refine ⟨after, [], [], hstored, by simp [contents, leafFor], by simp, by simp,
      fun l' hsub nodes' hnodes => ⟨(t.1, l'), rfl, rfl,
        ⟨ht.1.sublist hsub, fun x hx => ht.2 x (hsub.subset hx)⟩, ?_, by simp [contents], ?_⟩⟩
    · rw [hnodes]
      exact Function.update_self _ _ _
    · rw [hnodes]
      exact .write hnodup List.mem_cons_self _
  | succ h ih =>
    obtain ⟨lo', hi', after', front, back, hplace⟩ :=
      exists_place hless he hlo hhi hfrom hbelow ht hstored
    have hperm := numbers_perm less e t
    have hsplit := List.nodup_append'.mp (hperm.nodup_iff.mp hnodup)
    obtain ⟨next, front', back', hnode, hheld, hfront, hback, hput⟩ := ih hplace.slot.lower
      hplace.slot.upper hplace.slot.from_ hplace.slot.below hplace.slot.child hplace.stored
      hsplit.1 fun i hi => hlt i (hperm.mem_iff.mpr (List.mem_append_left _ hi))
    refine ⟨next, front.flatMap contents ++ front', back' ++ back.flatMap contents, hnode, ?_,
      fun x hx => ?_, fun x hx => ?_, fun l' hsub nodes' hnodes => ?_⟩
    · rw [hplace.holds, hheld, leafFor]
      simp only [List.append_assoc]
    · exact (List.mem_append.mp hx).elim (hplace.before x) (hfront x)
    · exact (List.mem_append.mp hx).elim (hback x) (hplace.behind x)
    · obtain ⟨c', hroot, hfirst, hwithin, hstored', hcontents, hchild⟩ := hput l' hsub nodes' hnodes
      obtain ⟨hw, hs, hrewritten⟩ :=
        parent_replace hstored hnodup hlt hplace hroot hfirst hwithin hstored' hchild
      refine ⟨(t.1, t.2.update less e c' none), rfl, Children.head_first_update none hfirst, hw, hs,
        ?_, hrewritten⟩
      refine (hplace.one c').trans ?_
      rw [hcontents]
      simp only [List.append_assoc]

/-! ### Whole trees -/

/-- A tree that is laid down in the nodes below `n`. -/
structure Laid (P : ε → Prop) (less : ε → ε → Bool) (nodes : Int → PagedNode ε) (n : Nat) {h : Nat}
    (t : Shape ε h) : Prop where
  within : t.Within P less none none
  stored : t.Stored nodes (-1)
  nodup : t.numbers.Nodup
  nonneg : ∀ i ∈ t.numbers, 0 ≤ i
  lt : ∀ i ∈ t.numbers, i < (n : Int)

namespace Laid

variable {nodes nodes' : Int → PagedNode ε} {n n' h : Nat} {t : Shape ε h} {e : ε}

theorem of_rewritten (ht : t.Laid P less nodes n) {h' : Nat} {t' : Shape ε h'}
    (hwithin : t'.Within P less none none) (hstored : t'.Stored nodes' (-1))
    (hrewritten : Rewritten nodes nodes' n n' t.numbers t'.numbers) : t'.Laid P less nodes' n' where
  within := hwithin
  stored := hstored
  nodup := hrewritten.nodup
  nonneg i hi := (hrewritten.mem i hi).elim (ht.nonneg i) fun h => by omega
  lt := hrewritten.lt ht.lt

theorem length_numbers_le (ht : t.Laid P less nodes n) : t.numbers.length ≤ n := by
  have hinj : ∀ i ∈ t.numbers, ∀ j ∈ t.numbers, i.toNat = j.toNat → i = j := fun i hi j hj hij => by
    have := ht.nonneg i hi
    have := ht.nonneg j hj
    omega
  have hsub : t.numbers.map Int.toNat ⊆ List.range n := fun k hk => by
    obtain ⟨i, hi, rfl⟩ := List.mem_map.mp hk
    have := ht.nonneg i hi
    have := ht.lt i hi
    rw [List.mem_range]
    omega
  have hle := (List.subperm_of_subset (ht.nodup.map_on hinj) hsub).length_le
  rwa [List.length_map, List.length_range] at hle

/-- A single leaf. -/
theorem leaf (hnode : nodes n = leafNode (-1) [e]) (he : P e) :
    Laid (h := 0) P less nodes (n + 1) ((n : Int), [e]) where
  within := ⟨List.pairwise_singleton _ _, by simpa [From, Below] using he⟩
  stored := hnode
  nodup := List.nodup_singleton _
  nonneg i hi := by
    rw [List.mem_singleton.mp hi]
    exact Int.natCast_nonneg n
  lt i hi := by
    rw [List.mem_singleton.mp hi]
    omega

/-- Two halves of a tree under a new root. -/
theorem rooted (ht : t.Laid P less nodes n) {nodes₁ : Int → PagedNode ε} {n₁ : Nat}
    {t' r : Shape ε h} {up : ε}
    (hholds : Grown.Holds P less nodes₁ none none (-1) t e (.split t' up r))
    (hrewritten : Rewritten nodes nodes₁ n n₁ t.numbers (t'.numbers ++ r.numbers))
    (hnodes : nodes' = Function.update nodes₁ n₁ (innerNode [up] [t'.root, r.root])) :
    Laid (h := h + 1) P less nodes' (n₁ + 1) ((n₁ : Int), .more t' up (.last r)) := by
  obtain ⟨-, -, hup, hlup, huup, hwt, hwr, hst, hsr, -⟩ := hholds
  have hlt := hrewritten.lt ht.lt
  have hsame : ∀ c : Shape ε h, c.numbers ⊆ t'.numbers ++ r.numbers → ∀ a, c.Stored nodes₁ a →
      c.Stored nodes' a := fun c hc a hca => hca.congr fun i hi => by
    have := hlt i (hc hi)
    rw [hnodes, Function.update_of_ne (by omega)]
  refine ht.of_rewritten ⟨hwt, hup, hlup, huup, hwr⟩ ⟨?_, ?_, ?_⟩ ?_
  · rw [hnodes]
    exact Function.update_self _ _ _
  · exact hsame t' (List.subset_append_left _ _) _ hst
  · exact hsame r (List.subset_append_right _ _) _ hsr
  · rw [hnodes]
    exact hrewritten.trans (.alloc hrewritten.nodup hlt _)

end Laid

end Shape

end Relite.Lib
