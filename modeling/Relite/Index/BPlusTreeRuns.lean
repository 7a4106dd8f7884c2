import Relite.Index.BPlusTreeRefinement

/-!
# Runs of the B+ tree in memory

After any insertions and erasures the tree answers as the multimap of the pairs does, its nodes
are no larger than the order allows, and freeing the root frees every node once.
-/
namespace Relite
open Lib Vm

namespace BPlusTree

/-- The pairs after the operations, and what the erasures among them returned. -/
def pairsAfter : List (Value × RecordID) → List TreeOp → List (Value × RecordID) × List Bool
  | m, [] => (m, [])
  | m, .insert key rid :: ops => pairsAfter (Multimap.add key rid m) ops
  | m, .erase key rid :: ops =>
    let (m', answers) := pairsAfter (Multimap.remove valueLess key rid m) ops
    (m', Multimap.contains valueLess key rid m :: answers)

section Runs

variable {keys : List Value} {t : BPlusTree} {h : Nat} {s : Shape h}
  {m : List (Value × RecordID)}

theorem run_represents (hkeys : OrderedOn valueLess keys) {ops : List TreeOp}
    (hops : ∀ op ∈ ops, op.key ∈ keys) (hrep : Represents keys t s m) :
    ∃ t', t.run ops = some (t', (pairsAfter m ops).2) ∧ t'.order = t.order ∧
      ∃ h', ∃ s' : Shape h', Represents keys t' s' (pairsAfter m ops).1 := by
  induction ops generalizing t h m with
  | nil => exact ⟨t, rfl, rfl, h, s, hrep⟩
  | cons op ops ih =>
    rw [List.forall_mem_cons] at hops
    cases op with
    | insert key rid =>
      have hkey : key ∈ keys := hops.1
      obtain ⟨t₁, hinsert, hord₁, h₁, s₁, hrep₁⟩ := insert_represents hkeys hrep hkey rid
      obtain ⟨t₂, hrun, hord₂, hrest⟩ := ih hops.2 hrep₁
      refine ⟨t₂, ?_, hord₂.trans hord₁, hrest⟩
      rw [run, hinsert]
      exact hrun
    | erase key rid =>
      have hkey : key ∈ keys := hops.1
      obtain ⟨t₁, herase, hord₁, h₁, s₁, hrep₁⟩ := erase_represents hkeys hrep hkey rid
      obtain ⟨t₂, hrun, hord₂, hrest⟩ := ih hops.2 hrep₁
      refine ⟨t₂, ?_, hord₂.trans hord₁, hrest⟩
      simp only [run, herase, Option.bind_eq_bind, Option.bind_some, hrun]
      rfl

/-- A new tree and what is put into it. -/
theorem make_represents (hkeys : Tree.Ordered keys) {ops : List TreeOp}
    (hops : ops.map TreeOp.key ⊆ keys) (order : Int) :
    ∃ t, (make order).run ops = some (t, (pairsAfter [] ops).2) ∧ t.order = max order 3 ∧
      ∃ h, ∃ s : Shape h, Represents keys t s (pairsAfter [] ops).1 := by
  obtain ⟨t, hrun, hord, hrest⟩ := run_represents hkeys
    (fun op hop => hops (List.mem_map_of_mem hop)) (represents_make keys order)
  refine ⟨t, hrun, hord.trans ?_, hrest⟩
  rw [make]
  dsimp only
  split <;> omega

/-! ## Freeing -/

/-- A subtree is freed, and nothing else. -/
theorem freeNode_eq {fuel : Nat} (hstored : Stored (bodies t.nodes) s) (hnum : s.numbers.Nodup)
    (hfuel : h < fuel) :
    ∃ nodes, freeNode fuel t s.root = some { t with nodes } ∧ (∀ i ∈ s.numbers, nodes i = none) ∧
      ∀ i, i ∉ s.numbers → nodes i = t.nodes i := by
  induction h generalizing t fuel with
  | zero =>
    obtain ⟨i, l⟩ := s
    obtain ⟨fuel, rfl⟩ := Nat.exists_eq_add_of_lt hfuel
    obtain ⟨next, prev, hnode, -⟩ := exists_leaf hstored
    refine ⟨Function.update t.nodes i none, ?_, fun j hj => ?_, fun j hj => ?_⟩
    · simp [freeNode, BucketTree.root, hnode, linked, leafBody, delete]
    · rw [List.mem_singleton.mp hj, Function.update_self]
    · exact Function.update_of_ne (fun he => hj (List.mem_singleton.mpr he)) _ _
  | succ h ih =>
    obtain ⟨i, ks⟩ := s
    obtain ⟨fuel, rfl⟩ := Nat.exists_eq_add_of_lt hfuel
    obtain ⟨hnode, -⟩ := exists_inner hstored.1
    rw [BucketTree.numbers_inner, List.nodup_cons] at hnum
    -- one child after the other
    have hfold : ∀ (cs : List (Shape h)) (t : BPlusTree), (∀ c ∈ cs, Stored (bodies t.nodes) c) →
        (cs.flatMap BucketTree.numbers).Nodup →
        ∃ nodes, (cs.map BucketTree.root).foldlM (freeNode (h + 1 + fuel)) t =
            some { t with nodes } ∧
          (∀ j ∈ cs.flatMap BucketTree.numbers, nodes j = none) ∧
          ∀ j, j ∉ cs.flatMap BucketTree.numbers → nodes j = t.nodes j := by
      intro cs
      induction cs with
      | nil => exact fun t _ _ => ⟨t.nodes, rfl, by simp, fun _ _ => rfl⟩
      | cons c cs ihcs =>
        intro t hcs hnodup
        rw [List.forall_mem_cons] at hcs
        rw [List.flatMap_cons, List.nodup_append'] at hnodup
        obtain ⟨nodes₁, hfree, hgone, hkept⟩ := ih hcs.1 hnodup.1
          (show h < h + 1 + fuel by omega)
        have hothers : ∀ c' ∈ cs, Stored (bodies nodes₁) c' := fun c' hc' =>
          (hcs.2 c' hc').congr fun j hj => by
            rw [bodies, bodies, hkept j fun hin =>
              hnodup.2.2 hin (List.mem_flatMap.mpr ⟨c', hc', hj⟩)]
        obtain ⟨nodes₂, hrest, hgone₂, hkept₂⟩ :=
          ihcs { t with nodes := nodes₁ } hothers hnodup.2.1
        refine ⟨nodes₂, ?_, fun j hj => ?_, fun j hj => ?_⟩
        · rw [List.map_cons, List.foldlM_cons, hfree]
          exact hrest
        · rw [List.flatMap_cons, List.mem_append] at hj
          by_cases hin : j ∈ cs.flatMap BucketTree.numbers
          · exact hgone₂ j hin
          · exact (hkept₂ j hin).trans (hgone j (hj.resolve_right hin))
        · rw [List.flatMap_cons, List.mem_append, not_or] at hj
          exact (hkept₂ j hj.2).trans (hkept j hj.1)
    obtain ⟨nodes, hfree, hgone, hkept⟩ := hfold ks.kids t hstored.2 hnum.2
    refine ⟨Function.update nodes i none, ?_, fun j hj => ?_, fun j hj => ?_⟩
    · have hi : nodes i = some (innerBody ks.seps (ks.kids.map BucketTree.root)) :=
        (hkept i hnum.1).trans hnode
      simp only [freeNode, BucketTree.root, hnode, innerBody, Option.bind_eq_bind,
        Option.bind_some, Bool.false_eq_true, if_false, hfree, delete]
      rw [hi]
      rfl
    · rw [BucketTree.numbers_inner, List.mem_cons] at hj
      by_cases hji : j = i
      · rw [hji, Function.update_self]
      · exact (Function.update_of_ne hji _ _).trans (hgone j (hj.resolve_left hji))
    · rw [BucketTree.numbers_inner, List.mem_cons, not_or] at hj
      exact (Function.update_of_ne hj.1 _ _).trans (hkept j hj.2)

/-! ## Nodes -/

/-- No more keys than the order allows. A leaf has a list for each of its keys, which ascend, and
none of the lists is empty; an inner node has one child more than keys. -/
def WellFormed (order : Int) (node : Node) : Prop :=
  (node.keys.length : Int) ≤ order ∧
    if node.leaf then node.keys.Pairwise (fun a b => valueLess a b) ∧
      node.values.length = node.keys.length ∧ ∀ list ∈ node.values, list ≠ []
    else node.children.length = node.keys.length + 1

/-- A node of the tree is a leaf of it, or an inner node. -/
theorem Stored.exists_of_mem {b : Int → Option Node} {order : Int} {h : Nat} {s : Shape h}
    (hs : Stored b s) (hsmall : s.Small order) {i : Int} (hi : i ∈ s.numbers) :
    (∃ l, (i, l) ∈ s.leaves ∧ b i = some (leafBody l)) ∨
      ∃ seps children, b i = some (innerBody seps children) ∧ (seps.length : Int) ≤ order ∧
        children.length = seps.length + 1 := by
  induction h with
  | zero =>
    obtain rfl := List.mem_singleton.mp hi
    exact .inl ⟨s.2, List.mem_singleton_self _, hs⟩
  | succ h ih =>
    obtain ⟨j, ks⟩ := s
    rw [BucketTree.numbers_inner, List.mem_cons] at hi
    rcases hi with rfl | hi
    · exact .inr ⟨ks.seps, ks.kids.map BucketTree.root, hs.1, hsmall.1,
        by rw [List.length_map, Children.length_kids]⟩
    · obtain ⟨c, hc, hi⟩ := List.mem_flatMap.mp hi
      refine (ih (hs.2 c hc) (hsmall.2 c hc) hi).imp_left ?_
      rintro ⟨l, hl, hb⟩
      refine ⟨l, ?_, hb⟩
      rw [BucketTree.leaves_inner]
      exact List.mem_flatMap.mpr ⟨c, hc, hl⟩

theorem Represents.wellFormed (hrep : Represents keys t s m) {i : Int} {node : Node}
    (hnode : t.nodes i = some node) :
    WellFormed t.order node ∧ (node.leaf → i ≠ t.root → node.keys ≠ []) := by
  have hi : i ∈ s.numbers := by
    by_contra hi
    rw [hrep.live i hi] at hnode
    cases hnode
  rcases hrep.stored.exists_of_mem hrep.small hi with ⟨l, hl, hb⟩ | ⟨seps, children, hb, hle, hlen⟩
  · obtain ⟨next, prev, hnode', -⟩ := exists_leaf hb
    obtain rfl := Option.some.inj (hnode.symm.trans hnode')
    have hsub : l.Sublist (BucketTree.bucketsOf s.leaves) :=
      List.sublist_flatten_of_mem (List.mem_map_of_mem (f := Prod.snd) hl)
    have hsize := hrep.sizes (i, l) hl
    refine ⟨⟨?_, ?_, ?_, fun list hlist => ?_⟩, fun _ hne => ?_⟩
    · simpa [linked, leafBody] using hsize
    · exact List.pairwise_map.mpr (hrep.holds.sorted.sublist hsub)
    · simp [linked, leafBody]
    · obtain ⟨b, hb, rfl⟩ := List.mem_map.mp hlist
      exact hrep.holds.filled b (hsub.subset hb)
    · have hpos : 0 < h := by
        cases h with
        | zero =>
          refine absurd ?_ hne
          rw [hrep.root]
          exact List.mem_singleton.mp hi
        | succ h => exact h.succ_pos
      simpa [linked, leafBody] using hrep.filled hpos (i, l) hl
  · obtain ⟨hnode', -⟩ := exists_inner hb
    obtain rfl := Option.some.inj (hnode.symm.trans hnode')
    exact ⟨⟨hle, hlen⟩, fun hleaf => by cases hleaf⟩

end Runs

end BPlusTree

end Relite
