import Relite.Index.BPlusTreeNodes

/-!
# Freeing the nodes of the B+ tree in memory

An erasure goes down to a leaf, and up again from one that it leaves empty: the nodes become
those of the tree without its empty leaf, and the other ones of the path are freed.
-/
namespace Relite
open Lib Vm

namespace BPlusTree

/-! ## Descending -/

section Descend

variable {t : BPlusTree} {key : Value} {h : Nat} {s : Shape h}

/-- The inner nodes above the leaf of a key, the lowest one first, with the index of the child. -/
def pathFor (key : Value) : {h : Nat} → Shape h → List (Int × Nat)
  | 0, _ => []
  | _ + 1, s => pathFor key (s.2.childFor valueLess key) ++ [(s.1, childIndex key s.2.seps)]

theorem descend_eq (hstored : Stored (bodies t.nodes) s) {fuel : Nat} (hfuel : h < fuel)
    (path : List (Int × Nat)) : t.descend key fuel s.root path =
      some ((s.leafFor valueLess key).1, pathFor key s ++ path) := by
  induction h generalizing fuel path with
  | zero =>
    obtain ⟨i, l⟩ := s
    obtain ⟨fuel, rfl⟩ := Nat.exists_eq_add_of_lt hfuel
    obtain ⟨next, prev, hnode, -⟩ := exists_leaf hstored
    simp only [descend, BucketTree.root, hnode, Option.bind_eq_bind, Option.bind_some]
    rfl
  | succ h ih =>
    obtain ⟨i, ks⟩ := s
    obtain ⟨fuel, rfl⟩ := Nat.exists_eq_add_of_lt hfuel
    obtain ⟨hnode, -⟩ := exists_inner hstored.1
    have hroot : BucketTree.root (h := h + 1) ((i, ks) : Shape (h + 1)) = i := rfl
    have hchild := ih (hstored.2 _ (ks.mem_kids_childFor valueLess key))
      (show h < h + 1 + fuel by omega) ((i, childIndex key ks.seps) :: path)
    rw [hroot]
    simp only [descend, hnode, innerBody, Option.bind_eq_bind, Option.bind_some,
      Bool.false_eq_true, if_false, child_at, hchild]
    simp only [pathFor, BucketTree.leafFor, List.append_assoc, List.cons_append, List.nil_append]

theorem findLeaf_eq (hstored : Stored (bodies t.nodes) s) {fuel : Nat} (hfuel : h < fuel) :
    t.findLeaf key fuel s.root = some (s.leafFor valueLess key).1 := by
  induction h generalizing fuel with
  | zero =>
    obtain ⟨i, l⟩ := s
    obtain ⟨fuel, rfl⟩ := Nat.exists_eq_add_of_lt hfuel
    obtain ⟨next, prev, hnode, -⟩ := exists_leaf hstored
    simp only [findLeaf, BucketTree.root, hnode, Option.bind_eq_bind, Option.bind_some]
    rfl
  | succ h ih =>
    obtain ⟨i, ks⟩ := s
    obtain ⟨fuel, rfl⟩ := Nat.exists_eq_add_of_lt hfuel
    obtain ⟨hnode, -⟩ := exists_inner hstored.1
    have hroot : BucketTree.root (h := h + 1) ((i, ks) : Shape (h + 1)) = i := rfl
    have hchild := ih (hstored.2 _ (ks.mem_kids_childFor valueLess key))
      (show h < h + 1 + fuel by omega)
    rw [hroot]
    simp only [findLeaf, hnode, innerBody, Option.bind_eq_bind, Option.bind_some,
      Bool.false_eq_true, if_false, child_at, hchild]
    rfl

theorem firstLeaf_eq (hstored : Stored (bodies t.nodes) s) {fuel : Nat} (hfuel : h < fuel) :
    t.firstLeaf fuel s.root = (s.leaves.map Prod.fst).head? := by
  induction h generalizing fuel with
  | zero =>
    obtain ⟨i, l⟩ := s
    obtain ⟨fuel, rfl⟩ := Nat.exists_eq_add_of_lt hfuel
    obtain ⟨next, prev, hnode, -⟩ := exists_leaf hstored
    simp only [firstLeaf, BucketTree.root, hnode, Option.bind_eq_bind, Option.bind_some]
    rfl
  | succ h ih =>
    obtain ⟨i, ks⟩ := s
    obtain ⟨fuel, rfl⟩ := Nat.exists_eq_add_of_lt hfuel
    obtain ⟨hnode, -⟩ := exists_inner hstored.1
    have hroot : BucketTree.root (h := h + 1) ((i, ks) : Shape (h + 1)) = i := rfl
    have hchild := ih (hstored.2 _ ks.first_mem_kids) (show h < h + 1 + fuel by omega)
    have hat : (ks.kids.map BucketTree.root)[0]? = some ks.first.root := by
      rw [← List.head?_eq_getElem?, List.head?_map, Children.head?_kids]
      rfl
    rw [hroot]
    simp only [firstLeaf, hnode, innerBody, Option.bind_eq_bind, Option.bind_some,
      Bool.false_eq_true, if_false, hat, hchild]
    rw [List.head?_map, List.head?_map, BucketTree.head?_leaves_inner]

end Descend

/-! ## Going up -/

section Prune

variable {t : BPlusTree}

/-- The loop ends at a node in which something is left. -/
theorem prune_of_filled {n : Int} {node : Node} (hnode : t.nodes n = some node)
    (hfilled : (if node.leaf then node.keys.isEmpty else node.children.isEmpty) = false)
    (path : List (Int × Nat)) : t.prune n path = some t := by
  cases path with
  | nil => rfl
  | cons p path =>
    obtain ⟨parent, ci⟩ := p
    rw [prune]
    split
    · rfl
    · simp only [hnode, Option.bind_eq_bind, Option.bind_some, hfilled, Bool.not_false, if_true]
      rfl

theorem dropChild_eq {child parent : Int} (hne : child ≠ parent) {c : Node}
    (hchild : t.nodes child = some c) {seps : List Value} {children : List Int} {ci : Nat}
    (hparent : bodies t.nodes parent = some (innerBody seps children))
    (hci : ci < children.length) (hseps : seps = [] ∨ ci - 1 < seps.length) :
    ∃ nodes, t.dropChild child parent ci = some { t with nodes } ∧
      bodies nodes = Function.update (Function.update (bodies t.nodes) parent
        (some (innerBody (seps.eraseIdx (ci - 1)) (children.eraseIdx ci)))) child none ∧
      ∀ i, i ≠ child → links nodes i = links t.nodes i := by
  obtain ⟨hnode, hlink⟩ := exists_inner hparent
  have hki : (if 0 < ci then ci - 1 else 0) = ci - 1 := by
    split <;> omega
  have hkeys : (if seps.isEmpty then seps else seps.eraseIdx (ci - 1)) = seps.eraseIdx (ci - 1) := by
    cases seps <;> rfl
  have hguard : (!seps.isEmpty && seps[ci - 1]?.isNone) = false := by
    rcases hseps with rfl | hlt
    · rfl
    · rw [List.getElem?_eq_getElem hlt]
      simp
  refine ⟨Function.update (Function.update t.nodes parent
    (some (innerBody (seps.eraseIdx (ci - 1)) (children.eraseIdx ci)))) child none,
    ?_, ?_, fun i hi => ?_⟩
  · simp only [dropChild, hnode, innerBody, Option.bind_eq_bind, Option.bind_some,
      List.getElem?_eq_getElem hci, hki, hguard, hkeys, put, delete, Function.update_of_ne hne, hchild,
      Bool.false_eq_true, if_false]
    rfl
  · rw [bodies_update, bodies_update]
    rfl
  · rw [links_update_of_ne hi]
    exact congrFun (links_put hlink) i

/-- A leaf goes out of the list of the leaves. -/
theorem unlinkLeaf_eq {n : Int} {next prev : Option Int} {front back : List Int} {b : Node}
    (hlink : links t.nodes n = some (prev, next))
    (hchain : Chain (links t.nodes) none (front ++ n :: back) none)
    (hnodup : (front ++ n :: back).Nodup) :
    ∃ nodes, t.unlinkLeaf (linked b next prev) = some { t with nodes } ∧
      bodies nodes = bodies t.nodes ∧ Chain (links nodes) none (front ++ back) none := by
  obtain ⟨-, hmiddle, -⟩ := hchain.middle
  obtain ⟨rfl, rfl⟩ : prev = front.getLast? ∧ next = back.head? := by
    simpa using hlink.symm.trans hmiddle
  obtain ⟨nodes₁, hmodify₁, hbodies₁, hlinks₁⟩ := modify_next (t := t) (p := front.getLast?)
    (q := back.head?) fun m hm => hchain.isSome (List.mem_append_left _ (List.mem_of_getLast? hm))
  obtain ⟨nodes₂, hmodify₂, hbodies₂, hlinks₂⟩ := modify_prev (t := { t with nodes := nodes₁ })
    (p := back.head?) (q := front.getLast?) fun m hm => by
      have hmem := List.mem_of_head? hm
      rw [hlinks₁, setNext_of_ne fun he => ?_]
      · exact hchain.isSome (by simp [hmem])
      · rw [List.nodup_append'] at hnodup
        exact hnodup.2.2 (List.mem_of_getLast? he) (List.mem_cons_of_mem n hmem)
  refine ⟨nodes₂, ?_, hbodies₂.trans hbodies₁, ?_⟩
  · rw [unlinkLeaf]
    dsimp only [linked]
    rw [hmodify₁]
    exact hmodify₂
  · rw [hlinks₂, hlinks₁]
    exact hchain.remove hnodup

/-- A node in which nothing is left. -/
def emptyBody : Nat → Node
  | 0 => leafBody []
  | _ + 1 => innerBody [] []

/-- The links of a leaf, until it is unlinked. -/
def pending {h : Nat} (s : Shape h) : List Int := if h = 0 then [s.root] else []

/-- One turn of the loop: the empty child goes. -/
theorem prune_step {key : Value} {h : Nat} {i : Int} {ks : Children Value (Shape h)}
    {front back : List Int} (path : List (Int × Nat))
    (hnum : (BucketTree.numbers (h := h + 1) (i, ks)).Nodup)
    (hroot : (ks.childFor valueLess key).root ≠ t.root)
    (hi : bodies t.nodes i = some (innerBody ks.seps (ks.kids.map BucketTree.root)))
    (hc : bodies t.nodes (ks.childFor valueLess key).root = some (emptyBody h))
    (hchain : Chain (links t.nodes) none
      (front ++ (pending (ks.childFor valueLess key) ++ back)) none)
    (hnodup : (front ++ (pending (ks.childFor valueLess key) ++ back)).Nodup)
    (hnot : (ks.childFor valueLess key).root ∉ front ++ back) :
    ∃ nodes, t.prune (ks.childFor valueLess key).root
        ((i, childIndex key ks.seps) :: path) = ({ t with nodes } : BPlusTree).prune i path ∧
      bodies nodes = Function.update (Function.update (bodies t.nodes) i
        (some (innerBody (ks.seps.eraseIdx ((ks.before valueLess key).length - 1))
          ((ks.before valueLess key ++ ks.behind valueLess key).map BucketTree.root))))
        (ks.childFor valueLess key).root none ∧
      Chain (links nodes) none (front ++ back) none := by
  obtain ⟨-, hic, -⟩ := apart_of_nodup key hnum
  have hne : (ks.childFor valueLess key).root ≠ i := fun he =>
    hic (he ▸ (ks.childFor valueLess key).root_mem_numbers)
  have hidx : childIndex key ks.seps = (ks.before valueLess key).length :=
    Children.length_takeWhile_seps ks
  have hkids := Children.kids_eq valueLess key ks
  have hlen : ks.kids.length = ks.seps.length + 1 := Children.length_kids ks
  have herase : (ks.kids.map BucketTree.root).eraseIdx (ks.before valueLess key).length =
      (ks.before valueLess key ++ ks.behind valueLess key).map BucketTree.root := by
    rw [hkids, List.map_append, ← List.length_map (f := BucketTree.root),
      List.eraseIdx_append_of_length_le le_rfl, Nat.sub_self]
    simp
  have hci : (ks.before valueLess key).length < ks.kids.length := by
    rw [hkids, List.length_append, List.length_cons]
    omega
  have hseps : ks.seps = [] ∨ (ks.before valueLess key).length - 1 < ks.seps.length := by
    cases hs : ks.seps with
    | nil => exact .inl rfl
    | cons s l =>
      rw [hs, List.length_cons] at hlen
      exact .inr (by rw [List.length_cons]; omega)
  -- a leaf is unlinked first
  obtain ⟨node, hnode, hempty, nodes₁, hunlink, hbodies₁, hchain₁⟩ :
      ∃ node, t.nodes (ks.childFor valueLess key).root = some node ∧
        (if node.leaf then node.keys.isEmpty else node.children.isEmpty) = true ∧
        ∃ nodes₁, (if node.leaf then t.unlinkLeaf node else some t) =
          some { t with nodes := nodes₁ } ∧ bodies nodes₁ = bodies t.nodes ∧
          Chain (links nodes₁) none (front ++ back) none := by
    cases h with
    | zero =>
      obtain ⟨next, prev, hnode, hlink⟩ := exists_leaf hc
      exact ⟨_, hnode, rfl, unlinkLeaf_eq hlink hchain hnodup⟩
    | succ h => exact ⟨_, (exists_inner hc).1, rfl, t.nodes, rfl, rfl, hchain⟩
  obtain ⟨c, hc₁⟩ : ∃ c, nodes₁ (ks.childFor valueLess key).root = some c := by
    have hbody := congrFun hbodies₁ (ks.childFor valueLess key).root
    rw [hc] at hbody
    obtain ⟨c, hc, -⟩ := Option.map_eq_some_iff.mp hbody
    exact ⟨c, hc⟩
  obtain ⟨nodes₂, hdrop, hbodies₂, hlinks₂⟩ := dropChild_eq (t := { t with nodes := nodes₁ })
    hne hc₁ ((congrFun hbodies₁ i).trans hi)
    (show childIndex key ks.seps < _ by rw [hidx, List.length_map]; exact hci) (hidx ▸ hseps)
  refine ⟨nodes₂, ?_, ?_, hchain₁.congr fun j hj => hlinks₂ j fun he => hnot (he ▸ hj)⟩
  · rw [prune, if_neg hroot]
    simp only [hnode, Option.bind_eq_bind, Option.bind_some, hempty, Bool.not_true,
      Bool.false_eq_true, if_false]
    split at hunlink
    · rename_i hleaf
      rw [if_pos hleaf, hunlink, Option.bind_some, hdrop]
      rfl
    · rename_i hleaf
      have hsame := Option.some.inj hunlink
      rw [if_neg hleaf]
      rw [← hsame] at hdrop
      rw [hdrop]
      rfl
  · rw [hbodies₂, hidx, herase]
    exact congrArg (fun b => Function.update (Function.update b i _) _ none) hbodies₁

/-- The nodes of a subtree are those of the subtree without its empty leaf, and the others of it
have been freed. -/
structure Trimmed (t : BPlusTree) (front back : List Int) {h : Nat} (s s' : Shape h)
    (nodes : Int → Option Node) : Prop where
  stored : Stored (bodies nodes) s'
  frame : ∀ i, i ∉ s.numbers → bodies nodes i = bodies t.nodes i
  freed : ∀ i ∈ s.numbers, i ∉ s'.numbers → bodies nodes i = none
  chain : Chain (links nodes) none (front ++ (s'.leaves.map Prod.fst ++ back)) none

/-- Nothing is left of a subtree but the node at its root, which is empty. -/
structure Emptied (t : BPlusTree) (front back : List Int) {h : Nat} (s : Shape h)
    (nodes : Int → Option Node) : Prop where
  stored : bodies nodes s.root = some (emptyBody h)
  frame : ∀ i, i ∉ s.numbers → bodies nodes i = bodies t.nodes i
  freed : ∀ i ∈ s.numbers, i ≠ s.root → bodies nodes i = none
  chain : Chain (links nodes) none (front ++ (pending s ++ back)) none

/-- What is below a node apart from the child of a key stands apart from what is around that. -/
theorem apart_child {key : Value} {h : Nat} {i : Int} {ks : Children Value (Shape h)}
    {front back : List Int} (hnum : (BucketTree.numbers (h := h + 1) (i, ks)).Nodup)
    (hapart : ∀ j ∈ BucketTree.numbers (h := h + 1) (i, ks), j ∉ front ++ back) :
    ∀ j ∈ (ks.childFor valueLess key).numbers,
      j ∉ (front ++ ((ks.before valueLess key).flatMap BucketTree.leaves).map Prod.fst) ++
        (((ks.behind valueLess key).flatMap BucketTree.leaves).map Prod.fst ++ back) := by
  obtain ⟨-, -, hothers⟩ := apart_of_nodup key hnum
  intro j hj hmem
  have hout := hapart j ((mem_numbers_inner key).mpr (.inr (.inl hj)))
  have hsib : ∀ c ∈ ks.before valueLess key ++ ks.behind valueLess key,
      j ∉ c.leaves.map Prod.fst := fun c hc hjc =>
    (hothers c hc j (c.leaves_sublist.subset hjc)).2 hj
  simp only [List.map_flatMap, List.mem_append, List.mem_flatMap, not_or] at hmem hout
  rcases hmem with (hmem | ⟨c, hc, hjc⟩) | ⟨c, hc, hjc⟩ | hmem
  · exact hout.1 hmem
  · exact hsib c (List.mem_append_left _ hc) hjc
  · exact hsib c (List.mem_append_right _ hc) hjc
  · exact hout.2 hmem

section Child

variable {key : Value} {h : Nat} {i : Int} {ks : Children Value (Shape h)} {front back : List Int}
  {nodes nodes₂ : Int → Option Node}

/-- A node whose child is still there. -/
theorem Trimmed.child {c' : Shape h} (hstored : Stored (h := h + 1) (bodies t.nodes) (i, ks))
    (hnum : (BucketTree.numbers (h := h + 1) (i, ks)).Nodup)
    (htrim : (ks.childFor valueLess key).trim valueLess key = some c')
    (hc : Trimmed t (front ++ ((ks.before valueLess key).flatMap BucketTree.leaves).map Prod.fst)
      (((ks.behind valueLess key).flatMap BucketTree.leaves).map Prod.fst ++ back)
      (ks.childFor valueLess key) c' nodes) :
    Trimmed t front back (h := h + 1) (i, ks) (i, ks.update valueLess key c' none) nodes := by
  obtain ⟨hcstored, hframe, hfreed, hchain⟩ := hc
  have hbeside : Beside key (bodies nodes) i ks := hstored.beside hnum fun j _ hjc => hframe j hjc
  refine ⟨hbeside.one hcstored (BucketTree.trim_root htrim),
    fun j hj => hframe j fun hjc => hj ((mem_numbers_inner key).mpr (.inr (.inl hjc))),
    fun j hj hj' => ?_, ?_⟩
  · rw [BucketTree.numbers_inner, List.mem_cons, List.mem_flatMap, not_or, not_exists] at hj'
    rcases (mem_numbers_inner key).mp hj with rfl | hjc | ⟨c, hc, hjc⟩
    · exact absurd rfl hj'.1
    · exact hfreed j hjc fun hjc' => hj'.2 c' ⟨mem_kids_update_one.mpr (.inl rfl), hjc'⟩
    · exact absurd ⟨mem_kids_update_one.mpr (.inr hc), hjc⟩ (hj'.2 c)
  · rw [BucketTree.leaves_inner, Children.kids_update_one, List.flatMap_append,
      List.flatMap_cons]
    simpa only [List.map_append, List.append_assoc] using hchain

/-- What the nodes are once an empty child has gone. -/
structure Dropped (key : Value) (t : BPlusTree) (front back : List Int) (i : Int)
    (ks : Children Value (Shape h)) (nodes : Int → Option Node) : Prop where
  node : bodies nodes i = some (innerBody (ks.seps.eraseIdx ((ks.before valueLess key).length - 1))
    ((ks.before valueLess key ++ ks.behind valueLess key).map BucketTree.root))
  siblings : ∀ c ∈ ks.before valueLess key ++ ks.behind valueLess key, Stored (bodies nodes) c
  frame : ∀ j, j ∉ BucketTree.numbers (h := h + 1) (i, ks) → bodies nodes j = bodies t.nodes j
  freed : ∀ j ∈ (ks.childFor valueLess key).numbers, bodies nodes j = none
  chain : Chain (links nodes) none
    (front ++ (((ks.before valueLess key ++ ks.behind valueLess key).flatMap
      BucketTree.leaves).map Prod.fst ++ back)) none

/-- The child of a node is empty, and goes. -/
theorem Emptied.step (path : List (Int × Nat))
    (hstored : Stored (h := h + 1) (bodies t.nodes) (i, ks))
    (hnum : (BucketTree.numbers (h := h + 1) (i, ks)).Nodup)
    (hnodup : (front ++ ((BucketTree.leaves (h := h + 1) (i, ks)).map Prod.fst ++ back)).Nodup)
    (hapart : ∀ j ∈ BucketTree.numbers (h := h + 1) (i, ks), j ∉ front ++ back)
    (hroot : t.root ∉ (ks.childFor valueLess key).numbers)
    (hc : Emptied t (front ++ ((ks.before valueLess key).flatMap BucketTree.leaves).map Prod.fst)
      (((ks.behind valueLess key).flatMap BucketTree.leaves).map Prod.fst ++ back)
      (ks.childFor valueLess key) nodes) :
    ∃ nodes₂, ({ t with nodes } : BPlusTree).prune (ks.childFor valueLess key).root
        ((i, childIndex key ks.seps) :: path) = ({ t with nodes := nodes₂ } : BPlusTree).prune i path ∧
      Dropped key t front back i ks nodes₂ := by
  obtain ⟨hcstored, hframe, hfreed, hchain⟩ := hc
  obtain ⟨-, hic, hothers⟩ := apart_of_nodup key hnum
  have hcroot := (ks.childFor valueLess key).root_mem_numbers
  have hpending : (pending (ks.childFor valueLess key)).Sublist
      ((ks.childFor valueLess key).leaves.map Prod.fst) := by
    rw [pending]
    split
    · subst h
      exact .refl _
    · exact List.nil_sublist _
  rw [leaves_inner_map key, List.append_assoc, List.append_assoc, ← List.append_assoc front]
    at hnodup
  obtain ⟨nodes₂, hstep, hbodies, hchain₂⟩ := prune_step (t := { t with nodes }) path hnum
    (fun he => hroot (he ▸ hcroot)) ((hframe i hic).trans hstored.1) hcstored hchain
    (hnodup.sublist ((hpending.append_right _).append_left _)) (apart_child hnum hapart _ hcroot)
  have hbodies' : ∀ j, j ≠ i → j ∉ (ks.childFor valueLess key).numbers →
      bodies nodes₂ j = bodies t.nodes j := fun j hji hjc => by
    have hjroot : j ≠ (ks.childFor valueLess key).root := fun he => hjc (he ▸ hcroot)
    rw [hbodies, Function.update_of_ne hjroot, Function.update_of_ne hji, hframe j hjc]
  have hne : i ≠ (ks.childFor valueLess key).root := fun he => hic (he.symm ▸ hcroot)
  refine ⟨nodes₂, hstep, ?_, fun c hc => ?_, fun j hj => ?_, fun j hj => ?_, ?_⟩
  · rw [hbodies, Function.update_of_ne hne, Function.update_self]
  · refine (hstored.2 c ((mem_kids key ks).mpr (.inr hc))).congr fun j hj => ?_
    exact hbodies' j (hothers c hc j hj).1 (hothers c hc j hj).2
  · rw [mem_numbers_inner key, not_or, not_or] at hj
    exact hbodies' j hj.1 hj.2.1
  · by_cases hjc : j = (ks.childFor valueLess key).root
    · rw [hjc, hbodies, Function.update_self]
    · have hji : j ≠ i := fun he => hic (he ▸ hj)
      rw [hbodies, Function.update_of_ne hjc, Function.update_of_ne hji]
      exact hfreed j hj hjc
  · simpa only [List.flatMap_append, List.map_append, List.append_assoc] using hchain₂

/-- Nothing is left of a node whose only child has gone. -/
theorem Dropped.emptied (hdropped : Dropped key t front back i ks nodes)
    (honly : ks = .last (ks.childFor valueLess key)) :
    Emptied t front back (h := h + 1) (i, ks) nodes := by
  have hnone : ks.before valueLess key = [] ∧ ks.behind valueLess key = [] ∧ ks.seps = [] := by
    rw [honly]
    exact ⟨rfl, rfl, rfl⟩
  obtain ⟨hnode, -, hframe, hfreed, hchain⟩ := hdropped
  rw [hnone.1, hnone.2.1, hnone.2.2] at hnode
  rw [hnone.1, hnone.2.1] at hchain
  refine ⟨hnode, hframe, fun j hj hji => ?_, by simpa [pending] using hchain⟩
  rcases (mem_numbers_inner key).mp hj with rfl | hjc | ⟨c, hc, -⟩
  · exact absurd rfl hji
  · exact hfreed j hjc
  · rw [hnone.1, hnone.2.1] at hc
    cases hc

/-- A node that has other children left. -/
theorem Dropped.trimmed {ks' : Children Value (Shape h)}
    (hdropped : Dropped key t front back i ks nodes)
    (hkids : ks'.kids = ks.before valueLess key ++ ks.behind valueLess key)
    (hseps : ks'.seps = ks.seps.eraseIdx ((ks.before valueLess key).length - 1)) :
    Trimmed t front back (h := h + 1) (i, ks) (i, ks') nodes := by
  obtain ⟨hnode, hsiblings, hframe, hfreed, hchain⟩ := hdropped
  rw [← hkids, ← hseps] at hnode
  rw [← hkids] at hchain
  refine ⟨⟨hnode, fun c hc => hsiblings c (hkids ▸ hc)⟩, hframe, fun j hj hj' => ?_, ?_⟩
  · rw [BucketTree.numbers_inner, List.mem_cons, List.mem_flatMap, not_or, not_exists, hkids] at hj'
    rcases (mem_numbers_inner key).mp hj with rfl | hjc | hjc
    · exact absurd rfl hj'.1
    · exact hfreed j hjc
    · obtain ⟨c, hc, hjc⟩ := hjc
      exact absurd ⟨hc, hjc⟩ (hj'.2 c)
  · rw [BucketTree.leaves_inner]
    exact hchain

end Child

/-- The loop up the path. -/
theorem prune_eq (key : Value) {h : Nat} {s : Shape h} (front back : List Int)
    (path : List (Int × Nat)) (hstored : Stored (bodies t.nodes) s)
    (hchain : Chain (links t.nodes) none (front ++ (s.leaves.map Prod.fst ++ back)) none)
    (hnodup : (front ++ (s.leaves.map Prod.fst ++ back)).Nodup) (hnum : s.numbers.Nodup)
    (hapart : ∀ i ∈ s.numbers, i ∉ front ++ back) (hroot : t.root ∈ s.numbers → t.root = s.root) :
    (∃ s' nodes, s.trim valueLess key = some s' ∧
        t.prune (s.leafFor valueLess key).1 (pathFor key s ++ path) = some { t with nodes } ∧
        Trimmed t front back s s' nodes) ∨
      ∃ nodes, s.trim valueLess key = none ∧
        t.prune (s.leafFor valueLess key).1 (pathFor key s ++ path) =
          ({ t with nodes } : BPlusTree).prune s.root path ∧
        Emptied t front back s nodes := by
  induction h generalizing t front back path with
  | zero =>
    obtain ⟨i, l⟩ := s
    obtain ⟨next, prev, hnode, -⟩ := exists_leaf hstored
    cases l with
    | nil =>
      refine .inr ⟨t.nodes, rfl, rfl, hstored, fun _ _ => rfl, fun j hj hne => ?_, hchain⟩
      exact absurd (List.mem_singleton.mp hj) hne
    | cons b l =>
      refine .inl ⟨(i, b :: l), t.nodes, rfl, ?_, hstored, fun _ _ => rfl, fun j hj hne => ?_, hchain⟩
      · exact prune_of_filled hnode rfl path
      · exact absurd hj hne
  | succ h ih =>
    obtain ⟨i, ks⟩ := s
    have hroot' : BucketTree.root (h := h + 1) ((i, ks) : Shape (h + 1)) = i := rfl
    have hpath : pathFor (h := h + 1) key (i, ks) ++ path =
        pathFor key (ks.childFor valueLess key) ++ ((i, childIndex key ks.seps) :: path) := by
      simp [pathFor]
    have hleaf : (BucketTree.leafFor (h := h + 1) valueLess key (i, ks)) =
        (ks.childFor valueLess key).leafFor valueLess key := rfl
    obtain ⟨hcnum, hic, -⟩ := apart_of_nodup key hnum
    have hcroot : t.root ∉ (ks.childFor valueLess key).numbers := by
      intro hmem
      have heq : t.root = i := hroot ((mem_numbers_inner key).mpr (.inr (.inl hmem)))
      exact hic (heq ▸ hmem)
    have hchain' := hchain
    have hnodup' := hnodup
    rw [leaves_inner_map key, List.append_assoc, List.append_assoc, ← List.append_assoc front]
      at hchain' hnodup'
    rw [hleaf, hpath, hroot']
    rcases ih _ _ ((i, childIndex key ks.seps) :: path)
      (hstored.2 _ (ks.mem_kids_childFor valueLess key)) hchain' hnodup' hcnum
      (apart_child hnum hapart) (fun hmem => absurd hmem hcroot) with
      ⟨c', nodes, htrim, hprune, hchild⟩ | ⟨nodes, htrim, hprune, hchild⟩
    · exact .inl ⟨(i, ks.update valueLess key c' none), nodes, by simp only [BucketTree.trim, htrim],
        hprune, hchild.child hstored hnum htrim⟩
    · obtain ⟨nodes₂, hstep, hdropped⟩ := hchild.step path hstored hnum hnodup hapart hcroot
      rw [hprune, hstep]
      rcases ks.remove_cases valueLess key with ⟨hremove, honly⟩ | ⟨ks', hremove, -, hkids, hseps⟩
      · exact .inr ⟨nodes₂, by simp only [BucketTree.trim, htrim, hremove]; rfl, rfl,
          hdropped.emptied honly⟩
      · have htrimmed := hdropped.trimmed hkids hseps
        have hfilled : ks'.kids.isEmpty = false := by
          rw [List.isEmpty_eq_false_iff, ← List.length_pos_iff, Children.length_kids]
          omega
        obtain ⟨hnode, -⟩ := exists_inner htrimmed.stored.1
        refine .inl ⟨(i, ks'), nodes₂, by simp only [BucketTree.trim, htrim, hremove]; rfl,
          prune_of_filled hnode ?_ path, htrimmed⟩
        simpa [innerBody] using hfilled

end Prune

end BPlusTree

end Relite
