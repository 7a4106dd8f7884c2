import Relite.Index.BPlusTree
import Relite.Lib.BucketTree
import Relite.Lib.DoublyLinked

/-!
# The nodes of the B+ tree in memory

What a node holds and what it is linked with are looked at one by one: the contents of the
nodes are those of a tree with buckets in its leaves, and the leaves are a doubly linked list.
An insertion does to the nodes what it does to the tree.
-/
namespace Relite
open Lib Vm

namespace BPlusTree

abbrev Shape := BucketTree Value RecordID

/-! ## Contents and links -/

def linked (b : Node) (next prev : Option Int) : Node := { b with next, prev }

/-- A node, a leaf but for its links. -/
def body (node : Node) : Node :=
  if node.leaf then { node with next := none, prev := none } else node

def bodies (nodes : Int → Option Node) (n : Int) : Option Node := (nodes n).map body

/-- What a leaf is linked with. -/
def linkOf (node : Node) : Option (Option Int × Option Int) :=
  if node.leaf then some (node.prev, node.next) else none

def links (nodes : Int → Option Node) : Links := fun n => (nodes n).bind linkOf

def leafBody (l : List (Value × List RecordID)) : Node :=
  { leaf := true, keys := l.map Prod.fst, values := l.map Prod.snd }

def innerBody (seps : List Value) (children : List Int) : Node :=
  { leaf := false, keys := seps, children }

/-- The nodes hold the tree. -/
def Stored (bodies : Int → Option Node) : {h : Nat} → Shape h → Prop
  | 0, s => bodies s.1 = some (leafBody s.2)
  | _ + 1, s => bodies s.1 = some (innerBody s.2.seps (s.2.kids.map BucketTree.root)) ∧
      ∀ c ∈ s.2.kids, Stored bodies c

theorem Stored.congr {b b' : Int → Option Node} {h : Nat} {s : Shape h} (hs : Stored b s)
    (hsame : ∀ i ∈ s.numbers, b' i = b i) : Stored b' s := by
  induction h with
  | zero => exact (hsame s.1 (by simp [BucketTree.numbers])).trans hs
  | succ h ih =>
    obtain ⟨i, ks⟩ := s
    rw [BucketTree.numbers_inner, List.forall_mem_cons] at hsame
    refine ⟨hsame.1.trans hs.1, fun c hc => ih (hs.2 c hc) fun j hj => hsame.2 j ?_⟩
    exact List.mem_flatMap.mpr ⟨c, hc, hj⟩

theorem bodies_eq_none {nodes : Int → Option Node} {n : Int} :
    bodies nodes n = none ↔ nodes n = none := Option.map_eq_none_iff

/-- A leaf has the contents and some links. -/
theorem exists_leaf {nodes : Int → Option Node} {n : Int} {l : List (Value × List RecordID)}
    (h : bodies nodes n = some (leafBody l)) :
    ∃ next prev, nodes n = some (linked (leafBody l) next prev) ∧
      links nodes n = some (prev, next) := by
  obtain ⟨node, hnode, hbody⟩ := Option.map_eq_some_iff.mp h
  rw [body] at hbody
  split at hbody
  · rename_i hleaf
    have heq : node = linked (leafBody l) node.next node.prev := by rw [← hbody]; rfl
    refine ⟨node.next, node.prev, hnode.trans (congrArg some heq), ?_⟩
    rw [links, hnode, Option.bind_some, linkOf, if_pos hleaf]
  · rename_i hleaf
    rw [hbody] at hleaf
    exact absurd rfl hleaf

/-- An inner node is linked with nothing. -/
theorem exists_inner {nodes : Int → Option Node} {n : Int} {seps : List Value}
    {children : List Int} (h : bodies nodes n = some (innerBody seps children)) :
    nodes n = some (innerBody seps children) ∧ links nodes n = none := by
  obtain ⟨node, hnode, hbody⟩ := Option.map_eq_some_iff.mp h
  rw [body] at hbody
  split at hbody
  · rename_i hleaf
    exact absurd ((congrArg Node.leaf hbody).symm.trans hleaf) Bool.false_ne_true
  · rw [hbody] at hnode
    exact ⟨hnode, by rw [links, hnode]; rfl⟩

section Put

variable {nodes : Int → Option Node} {n : Int} {node : Node}

theorem bodies_update (o : Option Node) :
    bodies (Function.update nodes n o) = Function.update (bodies nodes) n (o.map body) := by
  funext i
  by_cases hi : i = n
  · subst hi
    simp [bodies]
  · simp [bodies, Function.update_of_ne hi]

theorem links_update_of_ne {o : Option Node} {i : Int} (h : i ≠ n) :
    links (Function.update nodes n o) i = links nodes i := by
  rw [links, links, Function.update_of_ne h]

theorem links_update_self (o : Option Node) : links (Function.update nodes n o) n = o.bind linkOf := by
  rw [links, Function.update_self]

/-- A node with other contents is linked as it was. -/
theorem links_put (h : links nodes n = linkOf node) :
    links (Function.update nodes n (some node)) = links nodes := by
  funext i
  by_cases hi : i = n
  · subst hi
    rw [links_update_self, h]
    rfl
  · exact links_update_of_ne hi

/-- What is linked is a leaf. -/
theorem exists_of_isSome (h : (links nodes n).isSome) :
    ∃ node, nodes n = some node ∧ node.leaf = true := by
  obtain ⟨link, hlink⟩ := Option.isSome_iff_exists.mp h
  obtain ⟨node, hnode, hlink⟩ := Option.bind_eq_some_iff.mp hlink
  refine ⟨node, hnode, ?_⟩
  by_contra hleaf
  rw [linkOf, if_neg hleaf] at hlink
  cases hlink

theorem modify_next {t : BPlusTree} {p q : Option Int}
    (hp : ∀ n ∈ p, (links t.nodes n).isSome) :
    ∃ nodes, (t.modify p fun node => { node with next := q }) = some { t with nodes } ∧
      bodies nodes = bodies t.nodes ∧ links nodes = setNext (links t.nodes) p q := by
  cases p with
  | none => exact ⟨t.nodes, rfl, rfl, rfl⟩
  | some n =>
    obtain ⟨node, hnode, hleaf⟩ := exists_of_isSome (hp n rfl)
    refine ⟨Function.update t.nodes n (some { node with next := q }), by simp [modify, hnode, put],
      ?_, ?_⟩
    · rw [bodies_update]
      exact Function.update_eq_self_iff.mpr (by simp [bodies, hnode, body, hleaf])
    · funext i
      by_cases hi : i = n
      · subst hi
        rw [links_update_self, setNext, Function.update_self, links, hnode]
        simp [linkOf, hleaf]
      · rw [links_update_of_ne hi, setNext, Function.update_of_ne hi]

theorem modify_prev {t : BPlusTree} {p q : Option Int}
    (hp : ∀ n ∈ p, (links t.nodes n).isSome) :
    ∃ nodes, (t.modify p fun node => { node with prev := q }) = some { t with nodes } ∧
      bodies nodes = bodies t.nodes ∧ links nodes = setPrev (links t.nodes) p q := by
  cases p with
  | none => exact ⟨t.nodes, rfl, rfl, rfl⟩
  | some n =>
    obtain ⟨node, hnode, hleaf⟩ := exists_of_isSome (hp n rfl)
    refine ⟨Function.update t.nodes n (some { node with prev := q }), by simp [modify, hnode, put],
      ?_, ?_⟩
    · rw [bodies_update]
      exact Function.update_eq_self_iff.mpr (by simp [bodies, hnode, body, hleaf])
    · funext i
      by_cases hi : i = n
      · subst hi
        rw [links_update_self, setPrev, Function.update_self, links, hnode]
        simp [linkOf, hleaf]
      · rw [links_update_of_ne hi, setPrev, Function.update_of_ne hi]

end Put

/-! ## Splitting -/

section Split

variable {t : BPlusTree} {n : Int} {next prev : Option Int}

theorem splitLeaf_eq {l : List (Value × List RecordID)} {front back : List Int}
    (hnode : t.nodes n = some (linked (leafBody l) next prev))
    (hchain : Chain (links t.nodes) none (front ++ n :: back) none)
    (hnodup : (front ++ n :: back).Nodup) (hlt : ∀ i ∈ front ++ n :: back, i < (t.allocated : Int))
    {b : Value × List RecordID} (hb : (l.drop (l.length / 2)).head? = some b) :
    ∃ nodes, t.splitLeaf n =
        some ({ t with nodes, allocated := t.allocated + 1 }, b.1, (t.allocated : Int)) ∧
      bodies nodes = Function.update
        (Function.update (bodies t.nodes) t.allocated (some (leafBody (l.drop (l.length / 2)))))
        n (some (leafBody (l.take (l.length / 2)))) ∧
      Chain (links nodes) none (front ++ n :: (t.allocated : Int) :: back) none := by
  have hnew : (t.allocated : Int) ∉ front ++ n :: back := fun hmem => by
    have := hlt _ hmem
    omega
  have hne : n ≠ (t.allocated : Int) := fun he => hnew (he ▸ by simp)
  obtain ⟨-, hlink, -⟩ := hchain.middle
  have hnext : links t.nodes n = some (prev, next) := by rw [links, hnode]; rfl
  obtain ⟨rfl, rfl⟩ : prev = front.getLast? ∧ next = back.head? := by
    simpa using hnext.symm.trans hlink
  have hlen : ((l.map Prod.fst).length) / 2 = l.length / 2 := by rw [List.length_map]
  have hup : ((l.map Prod.fst).drop (l.length / 2)).head? = some b.1 := by
    rw [← List.map_drop, List.head?_map, hb]
    rfl
  obtain ⟨nodes₁, hnodes₁⟩ : ∃ nodes₁, nodes₁ = Function.update t.nodes t.allocated (some
      (linked (leafBody (l.drop (l.length / 2))) back.head? (some n))) := ⟨_, rfl⟩
  obtain ⟨nodes₂, hnodes₂⟩ : ∃ nodes₂, nodes₂ = Function.update nodes₁ n (some
      (linked (leafBody (l.take (l.length / 2))) back.head? front.getLast?)) :=
    ⟨_, rfl⟩
  have hlinks₁ : ∀ i, i ≠ (t.allocated : Int) → links nodes₁ i = links t.nodes i := fun i hi => by
    rw [hnodes₁, links_update_of_ne hi]
  have hlinks₂ : links nodes₂ = links nodes₁ := by
    rw [hnodes₂]
    exact links_put ((hlinks₁ n hne).trans hlink)
  obtain ⟨nodes₃, hmodify₃, hbodies₃, hlinks₃⟩ := modify_prev
    (t := { t with nodes := nodes₂, allocated := t.allocated + 1 }) (p := back.head?)
    (q := some (t.allocated : Int)) fun m hm => by
      have hmem : m ∈ front ++ n :: back := by simp [List.mem_of_head? hm]
      rw [hlinks₂, hlinks₁ m fun he => hnew (he ▸ hmem)]
      exact hchain.isSome hmem
  obtain ⟨nodes₄, hmodify₄, hbodies₄, hlinks₄⟩ := modify_next
    (t := { t with nodes := nodes₃, allocated := t.allocated + 1 }) (p := some n)
    (q := some (t.allocated : Int)) fun m hm => by
      obtain rfl := Option.some.inj hm
      rw [hlinks₃, setPrev_of_ne fun he => ?_, hlinks₂, hlinks₁ n hne, hlink]
      · rfl
      · rw [List.nodup_append', List.nodup_cons] at hnodup
        exact hnodup.2.1.1 (List.mem_of_head? he)
  refine ⟨nodes₄, ?_, ?_, ?_⟩
  · rw [splitLeaf, hnode]
    simp only [linked, leafBody, hlen, hup, new, put, Option.bind_eq_bind, Option.bind_some]
    simp only [hnodes₂, hnodes₁, linked, leafBody, List.map_drop, List.map_take] at hmodify₃
    rw [hmodify₃, Option.bind_some, hmodify₄]
    rfl
  · rw [hbodies₄, hbodies₃, hnodes₂, bodies_update, hnodes₁, bodies_update]
    rfl
  · rw [hlinks₄, hlinks₃, hlinks₂]
    refine hchain.insert_after hnodup hnew ?_ hlinks₁
    rw [hnodes₁, links_update_self]
    rfl

theorem splitInternal_eq {seps : List Value} {children : List Int}
    (hnode : t.nodes n = some (innerBody seps children))
    (hne : n ≠ (t.allocated : Int)) {up : Value} (hup : seps[seps.length / 2]? = some up) :
    ∃ nodes, t.splitInternal n =
        some ({ t with nodes, allocated := t.allocated + 1 }, up, (t.allocated : Int)) ∧
      bodies nodes = Function.update
        (Function.update (bodies t.nodes) t.allocated (some
          (innerBody (seps.drop (seps.length / 2 + 1)) (children.drop (seps.length / 2 + 1)))))
        n (some (innerBody (seps.take (seps.length / 2)) (children.take (seps.length / 2 + 1)))) ∧
      ∀ i, i ≠ (t.allocated : Int) → links nodes i = links t.nodes i := by
  refine ⟨Function.update (Function.update t.nodes t.allocated (some
    (innerBody (seps.drop (seps.length / 2 + 1)) (children.drop (seps.length / 2 + 1))))) n (some
      (innerBody (seps.take (seps.length / 2)) (children.take (seps.length / 2 + 1)))),
    ?_, ?_, fun i hi => ?_⟩
  · rw [splitInternal, hnode]
    simp only [innerBody, hup, new, put, Option.bind_eq_bind, Option.bind_some]
    rfl
  · rw [bodies_update, bodies_update]
    rfl
  · rw [links_put, links_update_of_ne hi]
    rw [links_update_of_ne hne]
    rw [links, hnode]
    rfl

end Split

/-! ## Inserting -/

/-- What a subtree becomes with a record id more, where `n` is the next number of a node. -/
abbrev grow (order : Int) (key : Value) (rid : RecordID) {h : Nat} (n : Nat) (s : Shape h) :
    Nat × Shape h × Option (Value × Shape h) :=
  s.insertIn valueLess order key rid n

/-- The nodes hold what the subtree has become, between the leaves `front` and `back`, and other
nodes have changed their links at most. -/
structure Inserted (key : Value) (rid : RecordID) (t : BPlusTree) (front back : List Int) {h : Nat}
    (s : Shape h) (t' : BPlusTree) (split : Option Split) : Prop where
  root : t'.root = t.root
  order : t'.order = t.order
  allocated : t'.allocated = (grow t.order key rid t.allocated s).1
  distinctKeys : t'.distinctKeys + (s.leafFor valueLess key).2.length =
    t.distinctKeys + (addTo valueLess key rid (s.leafFor valueLess key).2).length
  split : split = (grow t.order key rid t.allocated s).2.2.map fun p => (p.1, p.2.root)
  stored : Stored (bodies t'.nodes) (grow t.order key rid t.allocated s).2.1
  right : ∀ p ∈ (grow t.order key rid t.allocated s).2.2, Stored (bodies t'.nodes) p.2
  frame : ∀ i, i ∉ BucketTree.grown BucketTree.numbers (grow t.order key rid t.allocated s).2.1
    (grow t.order key rid t.allocated s).2.2 → bodies t'.nodes i = bodies t.nodes i
  chain : Chain (links t'.nodes) none (front ++
    ((BucketTree.grown BucketTree.leaves (grow t.order key rid t.allocated s).2.1
      (grow t.order key rid t.allocated s).2.2).map Prod.fst ++ back)) none

section Insert

variable {t : BPlusTree} {n : Int} {next prev : Option Int} {front back : List Int}

/-- A leaf with a record id more. -/
theorem insertIntoLeaf_eq (key : Value) (rid : RecordID) {l : List (Value × List RecordID)}
    (hnode : t.nodes n = some (linked (leafBody l) next prev))
    (hchain : Chain (links t.nodes) none (front ++ n :: back) none)
    (hnodup : (front ++ n :: back).Nodup) (hlt : ∀ i ∈ front ++ n :: back, i < (t.allocated : Int))
    (horder : 0 < t.order) (hsize : (l.length : Int) ≤ t.order) :
    ∃ t' split, t.insertIntoLeaf key rid n (linked (leafBody l) next prev) = some (t', split) ∧
      Inserted key rid t front back (h := 0) (n, l) t' split := by
  have hpos := addTo_position valueLess key rid l
  have hequal : (fun k => same valueLess k key) = fun k => keyEqual k key := rfl
  have hlink : links t.nodes n = some (prev, next) := by rw [links, hnode]; rfl
  dsimp only at hpos
  rw [hequal] at hpos
  split at hpos
  · -- the key is there already
    rename_i hany
    obtain ⟨hkeys, rs, hrs, hvalues⟩ := hpos
    have hlen : (addTo valueLess key rid l).length = l.length := by
      rw [← List.length_map (f := Prod.fst), hkeys, List.length_map]
    have hgrow : grow t.order key rid (h := 0) t.allocated (n, l) =
        (t.allocated, (n, addTo valueLess key rid l), none) := by
      simp only [grow, BucketTree.insertIn]
      rw [if_neg (by omega)]
      rfl
    refine ⟨t.put n (linked (leafBody (addTo valueLess key rid l)) next prev), none, ?_, ?_⟩
    · simp only [insertIntoLeaf, linked, leafBody, hany, if_true, hrs, Option.bind_eq_bind,
        Option.bind_some, hkeys, hvalues]
      rfl
    · refine ⟨rfl, rfl, by rw [hgrow]; rfl, ?_, by rw [hgrow]; rfl, ?_, ?_, ?_, ?_⟩
      · simp only [BucketTree.leafFor, hlen, put]
      · rw [hgrow, put, Stored, bodies_update]
        exact Function.update_self _ _ _
      · rw [hgrow]
        simp
      · intro i hi
        rw [hgrow] at hi
        rw [put, bodies_update]
        refine Function.update_of_ne (fun he => hi ?_) _ _
        simp [BucketTree.grown, BucketTree.numbers, he]
      · rw [hgrow, put, links_put hlink]
        simpa [BucketTree.grown, BucketTree.leaves] using hchain
  · rename_i hany
    obtain ⟨hkeys, hvalues⟩ := hpos
    have hlen : (addTo valueLess key rid l).length = l.length + 1 := by
      have hmap := congrArg List.length hkeys
      rw [List.length_map, List.length_insertIdx_of_le_length, List.length_map] at hmap
      · exact hmap
      · exact (List.takeWhile_prefix _).length_le
    obtain ⟨t₁, ht₁⟩ : ∃ t₁ : BPlusTree, t₁ = { t.put n (linked (leafBody
      (addTo valueLess key rid l)) next prev) with distinctKeys := t.distinctKeys + 1 } := ⟨_, rfl⟩
    have hunfold : t.insertIntoLeaf key rid n (linked (leafBody l) next prev) =
        if t.order < ((addTo valueLess key rid l).length : Int) then
          (t₁.splitLeaf n).map fun p => (p.1, some p.2)
        else some (t₁, none) := by
      rw [Bool.not_eq_true] at hany
      simp only [insertIntoLeaf, linked, leafBody, hany, Bool.false_eq_true, if_false, ← hkeys,
        ← hvalues, List.length_map, ht₁, put]
      split
      · cases splitLeaf _ n <;> rfl
      · rfl
    have hnode₁ : t₁.nodes n =
        some (linked (leafBody (addTo valueLess key rid l)) next prev) := by
      rw [ht₁]
      exact Function.update_self _ _ _
    have hlinks₁ : links t₁.nodes = links t.nodes := by
      rw [ht₁]
      exact links_put hlink
    have hbodies₁ : bodies t₁.nodes = Function.update (bodies t.nodes) n
        (some (leafBody (addTo valueLess key rid l))) := by
      rw [ht₁]
      exact bodies_update _
    obtain ⟨hroot₁, horder₁, halloc₁, hdistinct₁⟩ : t₁.root = t.root ∧ t₁.order = t.order ∧
        t₁.allocated = t.allocated ∧ t₁.distinctKeys = t.distinctKeys + 1 := by
      rw [ht₁]
      exact ⟨rfl, rfl, rfl, rfl⟩
    rw [hunfold]
    split
    · rename_i hsplit
      obtain ⟨b, hb⟩ : ∃ b, ((addTo valueLess key rid l).drop
          ((addTo valueLess key rid l).length / 2)).head? = some b := by
        rw [List.head?_drop]
        exact ⟨_, List.getElem?_eq_getElem (by omega)⟩
      obtain ⟨nodes, heq, hbodies, hchain'⟩ := splitLeaf_eq hnode₁ (hlinks₁ ▸ hchain) hnodup
        (halloc₁ ▸ hlt) hb
      have hne : n ≠ (t.allocated : Int) := fun he => by
        have := hlt n (by simp)
        omega
      have hgrow : grow t.order key rid (h := 0) t.allocated (n, l) = (t.allocated + 1,
          (n, (addTo valueLess key rid l).take ((addTo valueLess key rid l).length / 2)),
          some (b.1, ((t.allocated : Int),
            (addTo valueLess key rid l).drop ((addTo valueLess key rid l).length / 2)))) := by
        simp only [grow, BucketTree.insertIn]
        rw [if_pos hsplit, hb]
        rfl
      refine ⟨_, _, by rw [heq]; rfl, ?_⟩
      rw [halloc₁] at hbodies hchain' ⊢
      refine ⟨hroot₁, horder₁, by rw [hgrow], ?_, by rw [hgrow]; rfl, ?_, ?_, ?_, ?_⟩
      · simp only [BucketTree.leafFor, hlen, hdistinct₁]
        omega
      · rw [hgrow, Stored, hbodies]
        exact Function.update_self _ _ _
      · rw [hgrow, hbodies]
        rintro p ⟨⟩
        exact (Function.update_of_ne (Ne.symm hne) _ _).trans (Function.update_self _ _ _)
      · intro i hi
        rw [hgrow] at hi
        change i ∉ [n, (t.allocated : Int)] at hi
        simp only [List.mem_cons, List.not_mem_nil, or_false, not_or] at hi
        rw [hbodies, Function.update_of_ne hi.1, Function.update_of_ne hi.2, hbodies₁,
          Function.update_of_ne hi.1]
      · rw [hgrow]
        exact hchain'
    · rename_i hsplit
      have hgrow : grow t.order key rid (h := 0) t.allocated (n, l) =
          (t.allocated, (n, addTo valueLess key rid l), none) := by
        simp only [grow, BucketTree.insertIn]
        rw [if_neg hsplit]
        rfl
      refine ⟨t₁, none, rfl, hroot₁, horder₁, by rw [hgrow, halloc₁], ?_, by rw [hgrow]; rfl, ?_, ?_,
        ?_, ?_⟩
      · simp only [BucketTree.leafFor, hlen, hdistinct₁]
        omega
      · rw [hgrow, Stored, hbodies₁]
        exact Function.update_self _ _ _
      · rw [hgrow]
        simp
      · intro i hi
        rw [hgrow] at hi
        rw [hbodies₁]
        refine Function.update_of_ne (fun he => hi ?_) _ _
        simp [BucketTree.grown, BucketTree.numbers, he]
      · rw [hgrow, hlinks₁]
        simpa [BucketTree.grown, BucketTree.leaves] using hchain

end Insert

/-! ### An inner node and its children -/

section Inner

variable {key : Value} {h : Nat} {i j : Int} {ks : Children Value (Shape h)} {c c' r : Shape h}
  {b b' : Int → Option Node}

/-- The child of a key among the children of a node. -/
theorem child_at (key : Value) (ks : Children Value (Shape h)) :
    (ks.kids.map BucketTree.root)[childIndex key ks.seps]? =
      some (ks.childFor valueLess key).root := by
  rw [childIndex, Children.length_takeWhile_seps, Children.kids_eq valueLess key,
    List.map_append, List.getElem?_append_right (by simp)]
  simp

theorem insertIdx_append_succ {α : Type} (l l' : List α) (a x : α) :
    (l ++ a :: l').insertIdx (l.length + 1) x = l ++ a :: x :: l' := by
  induction l with
  | nil => rfl
  | cons b l ih => simpa using ih

theorem children_update_two (hc : c'.root = (ks.childFor valueLess key).root) (up : Value)
    (r : Shape h) : (ks.update valueLess key c' (some (up, r))).kids.map BucketTree.root =
      (ks.kids.map BucketTree.root).insertIdx (childIndex key ks.seps + 1) r.root := by
  rw [childIndex, Children.length_takeWhile_seps, Children.kids_update_two,
    Children.kids_eq valueLess key]
  simp only [List.map_append, List.map_cons, hc]
  rw [← List.length_map (f := BucketTree.root), insertIdx_append_succ]

theorem children_update_one (hc : c'.root = (ks.childFor valueLess key).root) :
    (ks.update valueLess key c' none).kids.map BucketTree.root = ks.kids.map BucketTree.root := by
  rw [Children.kids_update_one, Children.kids_eq valueLess key ks]
  simp only [List.map_append, List.map_cons, hc]

theorem mem_kids (key : Value) (ks : Children Value (Shape h)) :
    c ∈ ks.kids ↔
      c = ks.childFor valueLess key ∨ c ∈ ks.before valueLess key ++ ks.behind valueLess key := by
  rw [Children.kids_eq valueLess key ks]
  simp only [List.mem_append, List.mem_cons]
  tauto

theorem mem_kids_update_one : c ∈ (ks.update valueLess key c' none).kids ↔
    c = c' ∨ c ∈ ks.before valueLess key ++ ks.behind valueLess key := by
  rw [Children.kids_update_one]
  simp only [List.mem_append, List.mem_cons]
  tauto

theorem mem_kids_update_two {up : Value} :
    c ∈ (ks.update valueLess key c' (some (up, r))).kids ↔
      (c = c' ∨ c = r) ∨ c ∈ ks.before valueLess key ++ ks.behind valueLess key := by
  rw [Children.kids_update_two]
  simp only [List.mem_append, List.mem_cons]
  tauto

/-- The number of a node itself, those below its child for a key, and those beside that. -/
theorem mem_numbers_inner (key : Value) : j ∈ BucketTree.numbers (h := h + 1) (i, ks) ↔
    j = i ∨ j ∈ (ks.childFor valueLess key).numbers ∨
      ∃ c ∈ ks.before valueLess key ++ ks.behind valueLess key, j ∈ c.numbers := by
  simp only [BucketTree.numbers_inner, List.mem_cons, List.mem_flatMap, mem_kids key,
    or_and_right, exists_or, exists_eq_left]

/-- A node and the other children of it stand apart from the child of a key. -/
theorem apart_of_nodup (key : Value) (hnum : (BucketTree.numbers (h := h + 1) (i, ks)).Nodup) :
    (ks.childFor valueLess key).numbers.Nodup ∧ i ∉ (ks.childFor valueLess key).numbers ∧
      ∀ c ∈ ks.before valueLess key ++ ks.behind valueLess key, ∀ j ∈ c.numbers,
        j ≠ i ∧ j ∉ (ks.childFor valueLess key).numbers := by
  rw [BucketTree.numbers_inner, Children.kids_eq valueLess key,
    List.flatMap_append, List.flatMap_cons, List.nodup_cons, List.nodup_append', List.nodup_append',
    List.disjoint_append_right] at hnum
  obtain ⟨hi, -, ⟨hc, -, hbehind⟩, hbefore, -⟩ := hnum
  simp only [List.mem_append, not_or] at hi
  refine ⟨hc, hi.2.1, fun c hmem j hj => ?_⟩
  rcases List.mem_append.mp hmem with hmem | hmem
  · have hj' : j ∈ (ks.before valueLess key).flatMap BucketTree.numbers :=
      List.mem_flatMap.mpr ⟨c, hmem, hj⟩
    exact ⟨fun he => hi.1 (he ▸ hj'), fun hjc => hbefore hj' hjc⟩
  · have hj' : j ∈ (ks.behind valueLess key).flatMap BucketTree.numbers :=
      List.mem_flatMap.mpr ⟨c, hmem, hj⟩
    exact ⟨fun he => hi.2.2 (he ▸ hj'), fun hjc => hbehind hjc hj'⟩

theorem leaves_inner_map (key : Value) (i : Int) (ks : Children Value (Shape h)) :
    (BucketTree.leaves (h := h + 1) (i, ks)).map Prod.fst =
      ((ks.before valueLess key).flatMap BucketTree.leaves).map Prod.fst ++
        ((ks.childFor valueLess key).leaves.map Prod.fst ++
          ((ks.behind valueLess key).flatMap BucketTree.leaves).map Prod.fst) := by
  rw [BucketTree.leaves_inner, Children.kids_eq valueLess key,
    List.flatMap_append, List.flatMap_cons, List.map_append, List.map_append]

/-- A node and what is below it, but for the child of a key. -/
structure Beside (key : Value) (b : Int → Option Node) {h : Nat} (i : Int)
    (ks : Children Value (Shape h)) : Prop where
  node : b i = some (innerBody ks.seps (ks.kids.map BucketTree.root))
  siblings : ∀ c ∈ ks.before valueLess key ++ ks.behind valueLess key, Stored b c

/-- What is done below the child of a key leaves the rest as it is. -/
theorem Stored.beside (hs : Stored (h := h + 1) b (i, ks))
    (hnum : (BucketTree.numbers (h := h + 1) (i, ks)).Nodup)
    (hkept : ∀ j ∈ BucketTree.numbers (h := h + 1) (i, ks),
      j ∉ (ks.childFor valueLess key).numbers → b' j = b j) : Beside key b' i ks := by
  obtain ⟨-, hic, hothers⟩ := apart_of_nodup key hnum
  refine ⟨(hkept i ((mem_numbers_inner key).mpr (.inl rfl)) hic).trans hs.1, fun c hc => ?_⟩
  refine (hs.2 c ((mem_kids key ks).mpr (.inr hc))).congr fun j hj => ?_
  exact hkept j ((mem_numbers_inner key).mpr (.inr (.inr ⟨c, hc, hj⟩))) (hothers c hc j hj).2

/-- With another child in the place of the one of the key. -/
theorem Beside.one (hbeside : Beside key b i ks) (hc' : Stored b c')
    (hroot : c'.root = (ks.childFor valueLess key).root) :
    Stored (h := h + 1) b (i, ks.update valueLess key c' none) := by
  refine ⟨?_, fun c hc => ?_⟩
  · dsimp only
    rw [Children.seps_update_none, children_update_one hroot]
    exact hbeside.node
  · rcases mem_kids_update_one.mp hc with rfl | hc
    · exact hc'
    · exact hbeside.siblings c hc

end Inner

/-! ### Up the tree -/

section Up

variable {key : Value} {rid : RecordID} {h : Nat} {t t₁ : BPlusTree} {i : Int}
  {ks : Children Value (Shape h)} {c' r : Shape h} {n₁ : Nat} {up : Value} {front back : List Int}

/-- A node that takes in what its child has been split into. -/
theorem insertSeparator_small {seps : List Value} {children : List Int} {idx : Nat} {right : Int}
    (hnode : bodies t.nodes i = some (innerBody seps children)) {seps' : List Value}
    (hseps : seps.insertIdx idx up = seps') {children' : List Int}
    (hchildren : children.insertIdx (idx + 1) right = children')
    (hsize : (seps'.length : Int) ≤ t.order) :
    ∃ nodes, t.insertSeparator i idx up right = some ({ t with nodes }, none) ∧
      bodies nodes = Function.update (bodies t.nodes) i (some (innerBody seps' children')) ∧
      links nodes = links t.nodes := by
  subst hseps hchildren
  obtain ⟨hnode, hlink⟩ := exists_inner hnode
  refine ⟨Function.update t.nodes i
    (some (innerBody (seps.insertIdx idx up) (children.insertIdx (idx + 1) right))), ?_,
    bodies_update _, links_put hlink⟩
  simp only [insertSeparator, hnode, innerBody, Option.bind_eq_bind, Option.bind_some, put]
  exact if_neg (Int.not_lt.mpr hsize)

/-- A node that is split in its turn. -/
theorem insertSeparator_large {seps : List Value} {children : List Int} {idx : Nat} {right : Int}
    (hnode : bodies t.nodes i = some (innerBody seps children)) (hne : i ≠ (t.allocated : Int))
    {seps' : List Value} (hseps : seps.insertIdx idx up = seps')
    {children' : List Int} (hchildren : children.insertIdx (idx + 1) right = children')
    (hsize : t.order < (seps'.length : Int)) {m : Value} (hm : seps'[seps'.length / 2]? = some m) :
    ∃ nodes, t.insertSeparator i idx up right =
        some ({ t with nodes, allocated := t.allocated + 1 }, some (m, (t.allocated : Int))) ∧
      bodies nodes = Function.update
        (Function.update (bodies t.nodes) t.allocated (some
          (innerBody (seps'.drop (seps'.length / 2 + 1)) (children'.drop (seps'.length / 2 + 1)))))
        i (some (innerBody (seps'.take (seps'.length / 2)) (children'.take (seps'.length / 2 + 1)))) ∧
      ∀ j, j ≠ (t.allocated : Int) → links nodes j = links t.nodes j := by
  subst hseps hchildren
  obtain ⟨hnode, hlink⟩ := exists_inner hnode
  obtain ⟨t₂, ht₂⟩ : ∃ t₂, t₂ = t.put i (innerBody (seps.insertIdx idx up)
    (children.insertIdx (idx + 1) right)) := ⟨_, rfl⟩
  obtain ⟨nodes, hsplit, hbodies, hlinks⟩ := splitInternal_eq (t := t₂) (n := i)
    (by rw [ht₂]; exact Function.update_self _ _ _) (by rw [ht₂]; exact hne) hm
  have hlinks₂ : links t₂.nodes = links t.nodes := by
    rw [ht₂]
    exact links_put hlink
  have hbodies₂ : bodies t₂.nodes = Function.update (bodies t.nodes) i
      (some (innerBody (seps.insertIdx idx up) (children.insertIdx (idx + 1) right))) := by
    rw [ht₂]
    exact bodies_update _
  have halloc : t₂.allocated = t.allocated := by
    rw [ht₂]
    rfl
  rw [halloc, hbodies₂, Function.update_comm hne, Function.update_idem] at hbodies
  rw [halloc, hlinks₂] at hlinks
  rw [ht₂] at hsplit
  refine ⟨nodes, ?_, hbodies, hlinks⟩
  simp only [insertSeparator, hnode, innerBody, Option.bind_eq_bind, Option.bind_some]
  exact (if_pos hsize).trans (congrArg (fun o => Option.bind o _) hsplit)

/-- Nothing but the child has become another one. -/
theorem Inserted.one (hbeside : Beside key (bodies t₁.nodes) i ks)
    (hgrow : grow t.order key rid t.allocated (ks.childFor valueLess key) = (n₁, c', none))
    {split : Option Split}
    (hins : Inserted key rid t
      (front ++ ((ks.before valueLess key).flatMap BucketTree.leaves).map Prod.fst)
      (((ks.behind valueLess key).flatMap BucketTree.leaves).map Prod.fst ++ back)
      (ks.childFor valueLess key) t₁ split) :
    split = none ∧ Inserted key rid t front back (h := h + 1) (i, ks) t₁ none := by
  have hcroot := BucketTree.insertIn_root valueLess t.order key rid t.allocated
    (ks.childFor valueLess key)
  have hgrow' : grow t.order key rid (h := h + 1) t.allocated (i, ks) =
      (n₁, (i, ks.update valueLess key c' none), none) := by
    simp only [grow, BucketTree.insertIn] at hgrow ⊢
    rw [hgrow]
    rfl
  obtain ⟨hroot, hord, halloc, hdist, hsplit, hstored, -, hframe, hchain⟩ := hins
  rw [grow] at hgrow
  simp only [grow, hgrow, BucketTree.grown, Option.map_none, Option.getD_none,
    List.append_nil] at hcroot halloc hsplit hstored hframe hchain
  refine ⟨hsplit, hroot, hord, by rw [hgrow']; exact halloc, hdist, by rw [hgrow']; rfl, ?_,
    by rw [hgrow']; simp, fun j hj => ?_, ?_⟩
  · rw [hgrow']
    exact hbeside.one hstored hcroot
  · rw [hgrow'] at hj
    refine hframe j fun hjc => hj ?_
    simp only [BucketTree.grown, Option.map_none, Option.getD_none, List.append_nil]
    rw [BucketTree.numbers_inner]
    exact List.mem_cons_of_mem i (List.mem_flatMap.mpr ⟨c', mem_kids_update_one.mpr (.inl rfl), hjc⟩)
  · rw [hgrow']
    simp only [BucketTree.grown, Option.map_none, Option.getD_none, List.append_nil]
    rw [BucketTree.leaves_inner, Children.kids_update_one, List.flatMap_append,
      List.flatMap_cons]
    simpa only [List.map_append, List.append_assoc] using hchain

/-- The children of a node of which one has been split. -/
structure Parted (t t₁ : BPlusTree) (n₁ : Nat) (front back : List Int) {h : Nat} (i : Int)
    (ks : Children Value (Shape h)) : Prop where
  stored : ∀ c ∈ ks.kids, Stored (bodies t₁.nodes) c
  apart : ∀ c ∈ ks.kids, i ∉ c.numbers ∧ ∀ j ∈ c.numbers, j < (n₁ : Int)
  chain : Chain (links t₁.nodes) none
    (front ++ ((ks.kids.flatMap BucketTree.leaves).map Prod.fst ++ back)) none
  frame : ∀ j, j ∉ ks.kids.flatMap BucketTree.numbers → bodies t₁.nodes j = bodies t.nodes j

theorem Inserted.parted (hbeside : Beside key (bodies t₁.nodes) i ks)
    (hnum : (BucketTree.numbers (h := h + 1) (i, ks)).Nodup)
    (hnumlt : ∀ j ∈ BucketTree.numbers (h := h + 1) (i, ks), j < (t.allocated : Int))
    (hgrow : grow t.order key rid t.allocated (ks.childFor valueLess key) = (n₁, c', some (up, r)))
    {split : Option Split}
    (hins : Inserted key rid t
      (front ++ ((ks.before valueLess key).flatMap BucketTree.leaves).map Prod.fst)
      (((ks.behind valueLess key).flatMap BucketTree.leaves).map Prod.fst ++ back)
      (ks.childFor valueLess key) t₁ split) :
    Parted t t₁ n₁ front back i (ks.update valueLess key c' (some (up, r))) := by
  obtain ⟨-, hic, hothers⟩ := apart_of_nodup key hnum
  obtain ⟨hle, hperm⟩ := BucketTree.insertIn_numbers valueLess t.order key rid t.allocated
    (ks.childFor valueLess key)
  rw [grow] at hgrow
  have hstored := hins.stored
  have hright := hins.right
  have hframe := hins.frame
  have hchain := hins.chain
  simp only [hgrow, BucketTree.grown, Option.map_some, Option.getD_some] at hle hperm
  simp only [grow, hgrow, BucketTree.grown, Option.map_some, Option.getD_some]
    at hstored hright hframe hchain
  have hgrown : ∀ j ∈ c'.numbers ++ r.numbers, j ≠ i ∧ j < (n₁ : Int) := by
    intro j hj
    have hi := hnumlt i ((mem_numbers_inner key).mpr (.inl rfl))
    rcases List.mem_append.mp (hperm.mem_iff.mp hj) with hj | hj
    · have hlt := hnumlt j ((mem_numbers_inner key).mpr (.inr (.inl hj)))
      exact ⟨fun he => hic (he ▸ hj), by omega⟩
    · have hnew := BucketTree.mem_fresh.mp hj
      exact ⟨by omega, hnew.2⟩
  have hpart : ∀ c, c = c' ∨ c = r → ∀ j ∈ c.numbers, j ∈ c'.numbers ++ r.numbers := by
    rintro c (rfl | rfl) j hj
    · exact List.mem_append_left _ hj
    · exact List.mem_append_right _ hj
  refine ⟨fun c hc => ?_, fun c hc => ?_, ?_, fun j hj => hframe j fun hjc => hj ?_⟩
  · rcases mem_kids_update_two.mp hc with (rfl | rfl) | hc
    · exact hstored
    · exact hright (up, c) rfl
    · exact hbeside.siblings c hc
  · rcases mem_kids_update_two.mp hc with hc | hc
    · exact ⟨fun hi => (hgrown i (hpart c hc i hi)).1 rfl, fun j hj => (hgrown j (hpart c hc j hj)).2⟩
    · refine ⟨fun hi => (hothers c hc i hi).1 rfl, fun j hj => ?_⟩
      have hlt := hnumlt j ((mem_numbers_inner key).mpr (.inr (.inr ⟨c, hc, hj⟩)))
      omega
  · rw [Children.kids_update_two, List.flatMap_append, List.flatMap_cons, List.flatMap_cons]
    simpa only [List.map_append, List.append_assoc] using hchain
  · rcases List.mem_append.mp hjc with hjc | hjc
    · exact List.mem_flatMap.mpr ⟨c', mem_kids_update_two.mpr (.inl (.inl rfl)), hjc⟩
    · exact List.mem_flatMap.mpr ⟨r, mem_kids_update_two.mpr (.inl (.inr rfl)), hjc⟩

/-- What a node has become that takes in what its child has been split into. -/
theorem Inserted.two (horder : 0 < t.order)
    (hi : bodies t₁.nodes i = some (innerBody ks.seps (ks.kids.map BucketTree.root)))
    (hgrow : grow t.order key rid t.allocated (ks.childFor valueLess key) = (n₁, c', some (up, r)))
    {split : Option Split}
    (hins : Inserted key rid t
      (front ++ ((ks.before valueLess key).flatMap BucketTree.leaves).map Prod.fst)
      (((ks.behind valueLess key).flatMap BucketTree.leaves).map Prod.fst ++ back)
      (ks.childFor valueLess key) t₁ split)
    (hparted : Parted t t₁ n₁ front back i (ks.update valueLess key c' (some (up, r))))
    (hlt : ∀ j ∈ front ++ back, j < (n₁ : Int)) (hilt : i < (n₁ : Int)) :
    split = some (up, r.root) ∧ ∃ t' split',
      t₁.insertSeparator i (childIndex key ks.seps) up r.root = some (t', split') ∧
        Inserted key rid t front back (h := h + 1) (i, ks) t' split' := by
  have hcroot := BucketTree.insertIn_root valueLess t.order key rid t.allocated
    (ks.childFor valueLess key)
  obtain ⟨hroot, hord, halloc, hdist, hsplit, -, -, -, -⟩ := hins
  rw [grow] at hgrow
  simp only [grow, hgrow] at hcroot halloc hsplit
  refine ⟨hsplit, ?_⟩
  have hseps : ks.seps.insertIdx (childIndex key ks.seps) up =
      (ks.update valueLess key c' (some (up, r))).seps := by
    rw [Children.seps_update_two, childIndex, Children.length_takeWhile_seps]
  have hkids := (children_update_two hcroot up r).symm
  obtain ⟨ks', hks'⟩ : ∃ ks', ks' = ks.update valueLess key c' (some (up, r)) := ⟨_, rfl⟩
  rw [← hks'] at hparted hseps hkids
  obtain ⟨hstored, hapart, hchain, hframe⟩ := hparted
  by_cases hsize : t.order < (ks'.seps.length : Int)
  · obtain ⟨left, m, right, hparts, hleft, hm, hright, hleftKids, hrightKids, -⟩ :=
      Children.splitAt_spec (show ks'.seps.length / 2 < ks'.seps.length by omega)
    have hgrow' : grow t.order key rid (h := h + 1) t.allocated (i, ks) =
        (n₁ + 1, (i, left), some (m, ((n₁ : Int), right))) := by
      simp only [grow, BucketTree.insertIn, hgrow, ← hks']
      rw [if_pos hsize, hparts]
      rfl
    obtain ⟨nodes, heq, hbodies, hlinks⟩ := insertSeparator_large hi (by omega) hseps hkids
      (hord ▸ hsize) hm
    rw [halloc] at heq hbodies hlinks
    have hstored' : ∀ c ∈ ks'.kids, Stored (bodies nodes) c := fun c hc =>
      (hstored c hc).congr fun j hj => by
        have hne : j ≠ i := fun he => (hapart c hc).1 (he ▸ hj)
        have hnew : j ≠ (n₁ : Int) := ((hapart c hc).2 j hj).ne
        rw [hbodies, Function.update_of_ne hne, Function.update_of_ne hnew]
    have hnumbers := Children.flat_of_splitAt (f := BucketTree.numbers) hparts
    have hleaves := Children.flat_of_splitAt (f := BucketTree.leaves) hparts
    simp only [Children.flat_eq_flatMap] at hnumbers hleaves
    refine ⟨{ t₁ with nodes, allocated := n₁ + 1 }, some (m, (n₁ : Int)), heq, hroot, hord,
      by rw [hgrow'], hdist, by rw [hgrow']; rfl, ?_, ?_, fun j hj => ?_, ?_⟩
    · rw [hgrow']
      refine ⟨?_, fun c hc => hstored' c (List.mem_of_mem_take (hleftKids ▸ hc))⟩
      dsimp only
      rw [hbodies, Function.update_self, hleft, hleftKids, List.map_take]
    · rw [hgrow']
      rintro p ⟨⟩
      refine ⟨?_, fun c hc => hstored' c (List.mem_of_mem_drop (hrightKids ▸ hc))⟩
      dsimp only
      rw [hbodies, Function.update_of_ne hilt.ne', Function.update_self, hright, hrightKids,
        List.map_drop]
    · rw [hgrow'] at hj
      change j ∉ BucketTree.numbers (h := h + 1) (i, left) ++
        BucketTree.numbers (h := h + 1) ((n₁ : Int), right) at hj
      simp only [BucketTree.numbers_inner, List.mem_append, List.mem_cons, not_or] at hj
      dsimp only
      rw [hbodies, Function.update_of_ne hj.1.1, Function.update_of_ne hj.2.1]
      refine hframe j fun hmem => ?_
      rw [hnumbers] at hmem
      exact (List.mem_append.mp hmem).elim hj.1.2 hj.2.2
    · rw [hgrow']
      change Chain (links nodes) none (front ++ ((BucketTree.leaves (h := h + 1) (i, left) ++
        BucketTree.leaves (h := h + 1) ((n₁ : Int), right)).map Prod.fst ++ back)) none
      rw [BucketTree.leaves_inner, BucketTree.leaves_inner, ← hleaves]
      refine hchain.congr fun j hj => hlinks j (Int.ne_of_lt ?_)
      rw [List.mem_append, List.mem_append, List.map_flatMap] at hj
      rcases hj with hj | hj | hj
      · exact hlt j (List.mem_append_left _ hj)
      · obtain ⟨c, hc, hjc⟩ := List.mem_flatMap.mp hj
        exact (hapart c hc).2 j (c.leaves_sublist.subset hjc)
      · exact hlt j (List.mem_append_right _ hj)
  · have hgrow' : grow t.order key rid (h := h + 1) t.allocated (i, ks) = (n₁, (i, ks'), none) := by
      simp only [grow, BucketTree.insertIn, hgrow, ← hks']
      exact if_neg hsize
    obtain ⟨nodes, heq, hbodies, hlinks⟩ := insertSeparator_small hi hseps hkids
      (by rw [hord]; omega)
    refine ⟨{ t₁ with nodes }, none, heq, hroot, hord, by rw [hgrow']; exact halloc, hdist,
      by rw [hgrow']; rfl, ?_, by rw [hgrow']; simp, fun j hj => ?_, ?_⟩
    · rw [hgrow']
      refine ⟨?_, fun c hc => (hstored c hc).congr fun j hj => ?_⟩
      · dsimp only
        rw [hbodies]
        exact Function.update_self _ _ _
      · dsimp only
        have hne : j ≠ i := fun he => (hapart c hc).1 (he ▸ hj)
        rw [hbodies, Function.update_of_ne hne]
    · rw [hgrow'] at hj
      simp only [BucketTree.grown, Option.map_none, Option.getD_none, List.append_nil] at hj
      rw [BucketTree.numbers_inner, List.mem_cons, not_or] at hj
      dsimp only
      rw [hbodies, Function.update_of_ne hj.1]
      exact hframe j hj.2
    · rw [hgrow']
      simp only [BucketTree.grown, Option.map_none, Option.getD_none, List.append_nil]
      rw [BucketTree.leaves_inner, hlinks]
      exact hchain

/-- An insertion does to the nodes what it does to the tree, and no pointer leads astray. -/
theorem insertRec_eq (key : Value) (rid : RecordID) {s : Shape h} (front back : List Int)
    {fuel : Nat} (hstored : Stored (bodies t.nodes) s)
    (hchain : Chain (links t.nodes) none (front ++ (s.leaves.map Prod.fst ++ back)) none)
    (hnodup : (front ++ (s.leaves.map Prod.fst ++ back)).Nodup)
    (hlt : ∀ i ∈ front ++ (s.leaves.map Prod.fst ++ back), i < (t.allocated : Int))
    (hnum : s.numbers.Nodup) (hnumlt : ∀ i ∈ s.numbers, i < (t.allocated : Int))
    (horder : 0 < t.order) (hsize : ∀ x ∈ s.leaves, (x.2.length : Int) ≤ t.order)
    (hfuel : h < fuel) :
    ∃ t' split, insertRec key rid fuel s.root t = some (t', split) ∧
      Inserted key rid t front back s t' split := by
  induction h generalizing t front back fuel with
  | zero =>
    obtain ⟨i, l⟩ := s
    obtain ⟨fuel, rfl⟩ := Nat.exists_eq_add_of_lt hfuel
    obtain ⟨next, prev, hnode, -⟩ := exists_leaf hstored
    simp only [insertRec, BucketTree.root, hnode, Option.bind_eq_bind, Option.bind_some]
    exact insertIntoLeaf_eq key rid hnode hchain hnodup hlt horder (hsize (i, l) (by
      simp [BucketTree.leaves]))
  | succ h ih =>
    obtain ⟨i, ks⟩ := s
    obtain ⟨fuel, rfl⟩ := Nat.exists_eq_add_of_lt hfuel
    obtain ⟨hnode, -⟩ := exists_inner hstored.1
    have hmem := ks.mem_kids_childFor valueLess key
    have hroot : BucketTree.root (h := h + 1) ((i, ks) : Shape (h + 1)) = i := rfl
    rw [leaves_inner_map key, List.append_assoc, List.append_assoc, ← List.append_assoc front]
      at hchain hnodup hlt
    have hcsize : ∀ x ∈ (ks.childFor valueLess key).leaves, (x.2.length : Int) ≤ t.order := by
      intro x hx
      refine hsize x ?_
      rw [BucketTree.leaves_inner]
      exact List.mem_flatMap.mpr ⟨_, hmem, hx⟩
    obtain ⟨t₁, split₁, hrec, hins⟩ := ih _ _ (hstored.2 _ hmem) hchain hnodup hlt
      (apart_of_nodup key hnum).1 (fun j hj => hnumlt j ((mem_numbers_inner key).mpr (.inr (.inl hj))))
      horder hcsize (show h < h + 1 + fuel by omega)
    obtain ⟨hle, hperm⟩ := BucketTree.insertIn_numbers valueLess t.order key rid t.allocated
      (ks.childFor valueLess key)
    -- what is not below the child stays as it is
    have hbeside : Beside key (bodies t₁.nodes) i ks := by
      refine hstored.beside hnum fun j hj hjc => hins.frame j fun hmem => ?_
      rcases List.mem_append.mp (hperm.mem_iff.mp hmem) with hmem | hmem
      · exact hjc hmem
      · have hlt := hnumlt j hj
        have hnew := BucketTree.mem_fresh.mp hmem
        omega
    have hunfold : insertRec key rid (h + 1 + fuel + 1) i t =
        split₁.elim (some (t₁, none)) fun p =>
          t₁.insertSeparator i (childIndex key ks.seps) p.1 p.2 := by
      simp only [insertRec, hnode, innerBody, Option.bind_eq_bind, Option.bind_some,
        Bool.false_eq_true, if_false, child_at, hrec]
      cases split₁ <;> rfl
    rw [hroot, hunfold]
    obtain ⟨⟨n₁, c', o⟩, hgrow⟩ : ∃ res,
      grow t.order key rid t.allocated (ks.childFor valueLess key) = res := ⟨_, rfl⟩
    cases o with
    | none =>
      obtain ⟨rfl, hone⟩ := Inserted.one hbeside hgrow hins
      exact ⟨t₁, none, rfl, hone⟩
    | some p =>
      obtain ⟨up, r⟩ := p
      have hle' : t.allocated ≤ n₁ := by
        rw [grow] at hgrow
        simpa only [hgrow] using hle
      have hi := hnumlt i ((mem_numbers_inner key).mpr (.inl rfl))
      have hout : ∀ j ∈ front ++ back, j < (n₁ : Int) := fun j hj => by
        have := hlt j (by
          simp only [List.mem_append] at hj ⊢
          tauto)
        omega
      obtain ⟨rfl, t', split', hsep, htwo⟩ := Inserted.two horder hbeside.node hgrow hins
        (Inserted.parted hbeside hnum hnumlt hgrow hins) hout (by omega)
      exact ⟨t', split', hsep, htwo⟩

end Up

end BPlusTree

end Relite
