import Mathlib.Algebra.Order.BigOperators.Group.List
import Relite.Index.TreeRefinement

/-!
# The sizes of nodes

A node that no longer fits its page is divided in the middle of its entries, however long they
are, and the half with the long ones may not fit a page either. What an insertion divides are
the nodes on the way to its leaf, from below, until one takes up the separator. As long as in
each insertion the halves of these fit, every node that is written does.
-/
namespace Relite
open Lib Vm Backend Txn

/-! ## Which insertions fit -/

/-- The nodes above a divided one, the lowest first, take up its separator: up to the first
with room for it, they have halves that fit, and a new root has room for it. -/
def ClimbFits : List NodeView → Entry → Prop
  | [], up => measure [up] false ≤ PAGE_SIZE
  | parent :: above, up =>
    let entries := parent.entries.insertIdx
      (parent.entries.takeWhile fun s => entryLess s up).length up
    let pmid := entries.length / 2
    PAGE_SIZE < measure entries false →
      measure (entries.take pmid) false ≤ PAGE_SIZE ∧
        measure (entries.drop (pmid + 1)) false ≤ PAGE_SIZE ∧
        ClimbFits above (entries.getD pmid up)

/-- The entries of a leaf with the new one fit, or else their halves do, and the nodes above
take up the separator. -/
def LeafFits (entries : List Entry) (e : Entry) (above : List NodeView) : Prop :=
  let mid := entries.length / 2
  PAGE_SIZE < measure entries true →
    measure (entries.take mid) true ≤ PAGE_SIZE ∧ measure (entries.drop mid) true ≤ PAGE_SIZE ∧
      ClimbFits above ((entries.drop mid).headD e)

namespace DiskBPlusTree

/-- The nodes that an insertion divides have halves that fit a page. -/
def InsertFits (tree : DiskBPlusTree) (key : Value) (rid : RecordID) : Prop :=
  ∀ leafId path, tree.rootId ≠ -1 →
    findLeaf tree.pool (key, rid) (tree.pool.numPages + 1) tree.rootId [] = .ok (leafId, path) →
      let leaf := readNode tree.pool leafId
      let pos := (leaf.entries.takeWhile fun x => entryLess x (key, rid)).length
      LeafFits (leaf.entries.insertIdx pos (key, rid)) (key, rid) (path.map (readNode tree.pool))

/-- Each insertion of the run fits, in the tree that it finds. -/
def RunFits : DiskBPlusTree → List TreeOp → Prop
  | _, [] => True
  | tree, .insert key rid :: ops =>
    tree.InsertFits key rid ∧ ∀ tree', tree.insert key rid = .ok tree' → tree'.RunFits ops
  | tree, .erase key rid :: ops =>
    ∀ tree' found, tree.erase key rid = .ok (tree', found) → tree'.RunFits ops

end DiskBPlusTree

/-! ## Writing nodes that fit -/

/-- `x` writes no node that is too large, and where it comes to an end `Q` holds. -/
inductive Fitting {α : Type} (Q : α → Prop) : Except Fault α → Prop
  | ok {a : α} (h : Q a) : Fitting Q (.ok a)
  | error {fault : Fault} (h : fault ≠ .NodeTooLarge) : Fitting Q (.error fault)

namespace Fitting

variable {α β : Type} {x : Except Fault α} {Q : α → Prop}

theorem bind (h : Fitting Q x) {f : α → Except Fault β} {R : β → Prop}
    (hf : ∀ a, x = .ok a → Q a → Fitting R (f a)) : Fitting R (x >>= f) := by
  cases h with
  | ok h => exact hf _ rfl h
  | error h => exact .error h

theorem ne (h : Fitting Q x) : x ≠ .error .NodeTooLarge := by
  cases h with
  | ok => exact fun heq => Except.noConfusion rfl rfl (heq_of_eq heq)
  | error h => exact fun heq => h (Except.error.inj heq)

theorem of_le (h : Fitting Q x) {R : α → Prop} (hR : ∀ a, Q a → R a) : Fitting R x := by
  cases h with
  | ok h => exact .ok (hR _ h)
  | error h => exact .error h

/-- What is known of an outcome, if that is not a node too large. -/
theorem of_yields (h : Yields Q x) (hne : x ≠ .error .NodeTooLarge) : Fitting Q x := by
  cases h with
  | ok h => exact .ok h
  | error => exact .error fun heq => hne (heq ▸ rfl)

end Fitting

theorem writeNode_fitting {pool : PageStore} {pid : Int} {view : NodeView}
    (hview : WellFormed view) (hfits : measure view.entries view.leaf ≤ PAGE_SIZE) :
    Fitting (fun pool' => readNode pool' = Function.update (readNode pool) pid view ∧
      pool'.numPages = pool.numPages ∧ (encodeNode view).length ≤ PAGE_SIZE)
      (writeNode pool pid view) := by
  refine .of_yields (writeNode_yields hview) ?_
  rw [measure_eq hview] at hfits
  rw [writeNode, if_neg (by omega)]
  simp

theorem allocNode_fitting {pool : PageStore} {view : NodeView} (hview : WellFormed view)
    (hfits : measure view.entries view.leaf ≤ PAGE_SIZE) :
    Fitting (fun p : PageStore × Int =>
      p.2 = pool.numPages ∧ readNode p.1 = Function.update (readNode pool) pool.numPages view ∧
        p.1.numPages = pool.numPages + 1 ∧ pool.numPages < 2 ^ 31 ∧
        (encodeNode view).length ≤ PAGE_SIZE) (allocNode pool view) := by
  refine .of_yields (allocNode_yields hview) ?_
  unfold allocNode
  split
  · simp
  · exact Fitting.ne (Q := fun _ => True)
      ((writeNode_fitting hview hfits).bind fun pool' _ _ => .ok trivial)

/-! ## What stands on the pages -/

section Pages

variable (base : Nat) (P : Entry → Prop)

/-- The node fits a page, its entries satisfy `P`, and its children are pages of the tree. -/
structure Holds (numPages : Nat) (view : NodeView) : Prop where
  fits : measure view.entries view.leaf ≤ PAGE_SIZE
  entries : ∀ e ∈ view.entries, P e
  children : ∀ c ∈ view.children, (base : Int) ≤ c ∧ c < numPages

/-- The pages from `base` on are nodes of the tree. -/
def Pages (pool : PageStore) : Prop :=
  ∀ pid : Int, base ≤ pid → pid < pool.numPages → Holds base P pool.numPages (readNode pool pid)

/-- Only a page and new ones have changed, and all are nodes. -/
structure Changed (pool pool' : PageStore) (pid : Int) : Prop where
  pages : Pages base P pool'
  le : pool.numPages ≤ pool'.numPages
  frame : ∀ i : Int, i < pool.numPages → i ≠ pid → readNode pool' i = readNode pool i

/-- A separator and the page that it is to stand before. -/
structure Separates (pool : PageStore) (split : Entry × Int) : Prop where
  entry : P split.1
  range : InRange split.1
  low : (base : Int) ≤ split.2
  high : split.2 < pool.numPages
  number : IsInt32 split.2

end Pages

variable {base : Nat} {P : Entry → Prop}

theorem Holds.mono {numPages numPages' : Nat} {view : NodeView} (h : Holds base P numPages view)
    (hle : numPages ≤ numPages') : Holds base P numPages' view where
  fits := h.fits
  entries := h.entries
  children c hc := ⟨(h.children c hc).1, by have := (h.children c hc).2; omega⟩

/-- One page of the tree is written. -/
theorem changed_write {pool pool' : PageStore} {pid : Int} {view : NodeView}
    (hpages : Pages base P pool) (hview : Holds base P pool.numPages view)
    (hnodes : readNode pool' = Function.update (readNode pool) pid view)
    (hnum : pool'.numPages = pool.numPages) : Changed base P pool pool' pid where
  pages i hlow hhigh := by
    rw [hnum] at hhigh ⊢
    rw [hnodes, Function.update_apply]
    split
    · exact hview
    · exact hpages i hlow hhigh
  le := hnum.ge
  frame i _ hne := by rw [hnodes, Function.update_of_ne hne]

/-- A new page gets a node, and a page of the tree is written. -/
theorem changed_split {pool pool' : PageStore} {pid : Int} {view right : NodeView}
    (hpages : Pages base P pool) (hview : Holds base P (pool.numPages + 1) view)
    (hright : Holds base P (pool.numPages + 1) right)
    (hnodes : readNode pool' = Function.update
      (Function.update (readNode pool) pool.numPages right) pid view)
    (hnum : pool'.numPages = pool.numPages + 1) : Changed base P pool pool' pid where
  pages i hlow hhigh := by
    rw [hnum] at hhigh ⊢
    rw [hnodes, Function.update_apply, Function.update_apply]
    split
    · exact hview
    split
    · exact hright
    · rename_i hne
      exact (hpages i hlow (by omega)).mono (Nat.le_succ _)
  le := by omega
  frame i hlt hne := by
    rw [hnodes, Function.update_of_ne hne, Function.update_of_ne (by omega)]

/-! ## Inserting -/

theorem insertLeaf_fitting {pool : PageStore} {leafId : Int} {pos : Nat} {e : Entry}
    (hpages : Pages base P pool) (hlow : (base : Int) ≤ leafId) (hhigh : leafId < pool.numPages)
    (hleaf : (readNode pool leafId).leaf) (he : InRange e) (hP : P e) {above : List NodeView}
    (hfits : LeafFits ((readNode pool leafId).entries.insertIdx pos e) e above) :
    Fitting (fun p : PageStore × Option (Entry × Int) => Changed base P pool p.1 leafId ∧
      ∀ split ∈ p.2, Separates base P p.1 split ∧ ClimbFits above split.1)
        (insertLeaf pool leafId pos e) := by
  have hwf := wellFormed_readNode pool leafId
  have hholds := hpages leafId hlow hhigh
  unfold insertLeaf
  generalize readNode pool leafId = leaf at *
  have hrange : ∀ x ∈ leaf.entries.insertIdx pos e, InRange x ∧ P x := by
    intro x hx
    rcases List.eq_or_mem_of_mem_insertIdx hx with rfl | hx
    · exact ⟨he, hP⟩
    · exact ⟨hwf.entries x hx, hholds.entries x hx⟩
  dsimp only
  generalize leaf.entries.insertIdx pos e = entries at *
  -- a leaf with other entries, and another leaf behind it
  have hview : ∀ (es : List Entry) (next : Int), (∀ x ∈ es, x ∈ entries) → IsInt32 next →
      WellFormed { leaf with entries := es, nextLeaf := next } := fun es next hsub hnext =>
    ⟨hnext, fun x hx => (hrange x (hsub x hx)).1, hwf.children, by
      have := hwf.counts
      rwa [if_pos hleaf] at this ⊢⟩
  have hnone : leaf.children = [] := by
    have := hwf.counts
    rwa [if_pos hleaf, List.length_eq_zero_iff] at this
  split
  · rename_i hsmall
    have hsmall' : measure entries leaf.leaf ≤ PAGE_SIZE := by rwa [hleaf]
    refine (writeNode_fitting (hview entries leaf.nextLeaf (fun _ h => h) hwf.next) hsmall').bind ?_
    rintro pool' - ⟨hnodes, hnum, -⟩
    refine .ok ⟨changed_write hpages ⟨hsmall', fun x hx => (hrange x hx).2, ?_⟩ hnodes hnum, ?_⟩
    · exact fun c hc => hholds.children c hc
    · simp
  · rename_i hlarge
    obtain ⟨hlower, hupper, hclimb⟩ := hfits (Nat.lt_of_not_le hlarge)
    generalize entries.length / 2 = mid at *
    have hdrop : ∀ x ∈ entries.drop mid, InRange x ∧ P x :=
      fun x hx => hrange x (List.mem_of_mem_drop hx)
    have hright : WellFormed { entries := entries.drop mid, nextLeaf := leaf.nextLeaf } :=
      ⟨hwf.next, fun x hx => (hdrop x hx).1, List.forall_mem_nil _, rfl⟩
    refine (allocNode_fitting hright hupper).bind ?_
    rintro ⟨pool₁, rightId⟩ - ⟨hid, hnodes₁, hnum₁, hlt, -⟩
    obtain rfl : rightId = pool.numPages := hid
    dsimp only at *
    have hnumber : IsInt32 pool.numPages := isInt32_of_lt hlt
    have hlower' : measure (entries.take mid) leaf.leaf ≤ PAGE_SIZE := by rwa [hleaf]
    refine (writeNode_fitting (hview _ _ (fun _ hx => List.mem_of_mem_take hx) hnumber)
      hlower').bind ?_
    rintro pool' - ⟨hnodes, hnum, -⟩
    rw [hnodes₁] at hnodes
    rw [hnum₁] at hnum
    refine .ok ⟨changed_split hpages
      ⟨hlower', fun x hx => (hrange x (List.mem_of_mem_take hx)).2, ?_⟩
      ⟨hupper, fun x hx => (hdrop x hx).2, List.forall_mem_nil _⟩ hnodes hnum, ?_⟩
    · rw [hnone]
      exact List.forall_mem_nil _
    · rintro split ⟨⟩
      have hup : InRange ((entries.drop mid).headD e) ∧ P ((entries.drop mid).headD e) := by
        cases hcases : entries.drop mid with
        | nil => exact ⟨he, hP⟩
        | cons x rest => exact hdrop x (by rw [hcases]; exact List.mem_cons_self)
      exact ⟨⟨hup.2, hup.1, by dsimp only; omega, by dsimp only; omega, hnumber⟩, hclimb⟩

theorem insertChild_fitting {pool : PageStore} {parentId : Int} {up : Entry} {childId : Int}
    (hpages : Pages base P pool) (hlow : (base : Int) ≤ parentId)
    (hhigh : parentId < pool.numPages) (hinner : ¬ (readNode pool parentId).leaf)
    (hsplit : Separates base P pool (up, childId)) {above : List NodeView}
    (hfits : ClimbFits (readNode pool parentId :: above) up) :
    Fitting (fun p : PageStore × Option (Entry × Int) => Changed base P pool p.1 parentId ∧
      ∀ split ∈ p.2, Separates base P p.1 split ∧ ClimbFits above split.1)
        (insertChild pool parentId up childId) := by
  have hwf := wellFormed_readNode pool parentId
  have hholds := hpages parentId hlow hhigh
  rw [ClimbFits] at hfits
  unfold insertChild
  generalize readNode pool parentId = parent at *
  have hcount := hwf.counts
  rw [if_neg hinner] at hcount
  have hpos := (List.takeWhile_prefix fun s => entryLess s up : _ <+: parent.entries).length_le
  dsimp only at hfits ⊢
  generalize (parent.entries.takeWhile fun s => entryLess s up).length = ip at *
  have hrange : ∀ x ∈ parent.entries.insertIdx ip up, InRange x ∧ P x :=
    forall_mem_insertIdx (fun x hx => ⟨hwf.entries x hx, hholds.entries x hx⟩)
      ⟨hsplit.range, hsplit.entry⟩ ip
  have hkids : ∀ c ∈ parent.children.insertIdx (ip + 1) childId,
      IsInt32 c ∧ (base : Int) ≤ c ∧ c < pool.numPages :=
    forall_mem_insertIdx (fun c hc => ⟨hwf.children c hc, hholds.children c hc⟩)
      ⟨hsplit.number, hsplit.low, hsplit.high⟩ (ip + 1)
  have hcounts : (parent.children.insertIdx (ip + 1) childId).length =
      (parent.entries.insertIdx ip up).length + 1 := by
    rw [List.length_insertIdx_of_le_length (by omega), List.length_insertIdx_of_le_length hpos,
      hcount]
  have hlong : 0 < (parent.entries.insertIdx ip up).length := by
    rw [List.length_insertIdx_of_le_length hpos]
    omega
  generalize parent.entries.insertIdx ip up = l at *
  generalize parent.children.insertIdx (ip + 1) childId = cs at *
  have hmeasure : ∀ es, measure es parent.leaf = measure es false := by
    intro es
    rw [Bool.eq_false_iff.mpr hinner]
  -- an inner node with some of the separators and children
  have hview : ∀ (es : List Entry) (kids : List Int), (∀ x ∈ es, x ∈ l) → (∀ c ∈ kids, c ∈ cs) →
      kids.length = es.length + 1 → WellFormed { parent with entries := es, children := kids } :=
    fun es kids hes hks hlen => ⟨hwf.next, fun x hx => (hrange x (hes x hx)).1,
      fun c hc => (hkids c (hks c hc)).1, by rwa [if_neg hinner]⟩
  have hpage : ∀ (numPages : Nat) (es : List Entry) (kids : List Int) (leaf : Bool) (next : Int),
      pool.numPages ≤ numPages → (∀ x ∈ es, x ∈ l) → (∀ c ∈ kids, c ∈ cs) →
      measure es leaf ≤ PAGE_SIZE → Holds base P numPages ⟨leaf, next, es, kids⟩ :=
    fun numPages es kids leaf next hle hes hks hfits => ⟨hfits, fun x hx => (hrange x (hes x hx)).2,
      fun c hc => ⟨(hkids c (hks c hc)).2.1, by have := (hkids c (hks c hc)).2.2; omega⟩⟩
  split
  · rename_i hsmall
    rw [← hmeasure] at hsmall
    refine (writeNode_fitting (hview l cs (fun _ h => h) (fun _ h => h) hcounts) hsmall).bind ?_
    rintro pool' - ⟨hnodes, hnum, -⟩
    refine .ok ⟨changed_write hpages ?_ hnodes hnum, by simp⟩
    exact hpage _ _ _ _ _ le_rfl (fun _ h => h) (fun _ h => h) hsmall
  · rename_i hlarge
    obtain ⟨hlower, hupper, hclimb⟩ := hfits (Nat.lt_of_not_le hlarge)
    have hmid : l.length / 2 < l.length := by omega
    have hmiddle : l.getD (l.length / 2) up ∈ l := by
      rw [List.getD_eq_getElem?_getD, List.getElem?_eq_getElem hmid, Option.getD_some]
      exact List.getElem_mem hmid
    generalize l.length / 2 = pmid at *
    have hright : WellFormed
        { leaf := false, entries := l.drop (pmid + 1), children := cs.drop (pmid + 1) } :=
      ⟨(by decide : IsInt32 (-1)), fun x hx => (hrange x (List.mem_of_mem_drop hx)).1,
        fun c hc => (hkids c (List.mem_of_mem_drop hc)).1, by
          rw [if_neg Bool.false_ne_true, List.length_drop, List.length_drop]
          omega⟩
    refine (allocNode_fitting hright hupper).bind ?_
    rintro ⟨pool₁, rightId⟩ - ⟨hid, hnodes₁, hnum₁, hlt, -⟩
    obtain rfl : rightId = pool.numPages := hid
    dsimp only at *
    have hnumber : IsInt32 pool.numPages := isInt32_of_lt hlt
    rw [← hmeasure] at hlower
    refine (writeNode_fitting (hview _ _ (fun _ h => List.mem_of_mem_take h)
      (fun _ h => List.mem_of_mem_take h) (by rw [List.length_take, List.length_take]; omega))
      hlower).bind ?_
    rintro pool' - ⟨hnodes, hnum, -⟩
    rw [hnodes₁] at hnodes
    rw [hnum₁] at hnum
    refine .ok ⟨changed_split hpages ?_ ?_ hnodes hnum, ?_⟩
    · exact hpage _ _ _ _ _ (Nat.le_succ _) (fun _ h => List.mem_of_mem_take h)
        (fun _ h => List.mem_of_mem_take h) hlower
    · exact hpage _ _ _ _ _ (Nat.le_succ _) (fun _ h => List.mem_of_mem_drop h)
        (fun _ h => List.mem_of_mem_drop h) hupper
    · rintro split ⟨⟩
      obtain ⟨hrangeUp, hPUp⟩ := hrange _ hmiddle
      exact ⟨⟨hPUp, hrangeUp, by dsimp only; omega, by dsimp only; omega, hnumber⟩, hclimb⟩

theorem climb_fitting {pool : PageStore} {path : List Int} {split : Option (Entry × Int)}
    (hpages : Pages base P pool) (hnodup : path.Nodup)
    (hpath : ∀ i ∈ path, (base : Int) ≤ i ∧ i < pool.numPages ∧ ¬ (readNode pool i).leaf)
    (hsplit : ∀ s ∈ split, Separates base P pool s ∧ ClimbFits (path.map (readNode pool)) s.1) :
    Fitting (fun p : PageStore × Option (Entry × Int) => Pages base P p.1 ∧
      pool.numPages ≤ p.1.numPages ∧
      ∀ s ∈ p.2, Separates base P p.1 s ∧ measure [s.1] false ≤ PAGE_SIZE)
        (climb pool path split) := by
  induction path generalizing pool split with
  | nil =>
    cases split with
    | none => exact .ok ⟨hpages, le_rfl, by simp⟩
    | some s => exact .ok ⟨hpages, le_rfl, hsplit⟩
  | cons i path ih =>
    cases split with
    | none => exact .ok ⟨hpages, le_rfl, by simp⟩
    | some s =>
      obtain ⟨hi, hpath⟩ := List.forall_mem_cons.mp hpath
      obtain ⟨hnew, hnodup⟩ := List.nodup_cons.mp hnodup
      obtain ⟨hsep, hclimb⟩ := hsplit s rfl
      rw [climb]
      refine (insertChild_fitting hpages hi.1 hi.2.1 hi.2.2 hsep hclimb).bind ?_
      rintro ⟨pool', split'⟩ - ⟨hchanged, hsplit'⟩
      -- the pages further up are as they were
      have hsame : ∀ j ∈ path, readNode pool' j = readNode pool j := fun j hj =>
        hchanged.frame j (hpath j hj).2.1 fun heq => hnew (heq ▸ hj)
      have hpath' : ∀ j ∈ path,
          (base : Int) ≤ j ∧ j < pool'.numPages ∧ ¬ (readNode pool' j).leaf := by
        intro j hj
        obtain ⟨hlow, hhigh, hinner⟩ := hpath j hj
        have hle : pool.numPages ≤ pool'.numPages := hchanged.le
        exact ⟨hlow, by omega, by rwa [hsame j hj]⟩
      rw [← List.map_congr_left hsame] at hsplit'
      refine .of_le (ih hchanged.pages hnodup hpath' hsplit') ?_
      exact fun p h => ⟨h.1, hchanged.le.trans h.2.1, h.2.2⟩

/-! ## The way to a leaf -/

/-- The child of an inner node that an entry belongs into. -/
def nextNode (pool : PageStore) (e : Entry) (cur : Int) : Int :=
  let view := readNode pool cur
  view.children.getD (view.entries.takeWhile fun s => !entryLess e s).length (-1)

/-- The way to a leaf is a walk that ends at the first leaf. -/
theorem findLeaf_walk {pool : PageStore} {e : Entry} {fuel : Nat} {cur leafId : Int}
    {path path' : List Int} (h : findLeaf pool e fuel cur path = .ok (leafId, path')) :
    ∃ k, (nextNode pool e)^[k] cur = leafId ∧
      path' = ((List.range k).map fun i => (nextNode pool e)^[i] cur).reverse ++ path ∧
      (readNode pool leafId).leaf ∧ ∀ i < k, ¬ (readNode pool ((nextNode pool e)^[i] cur)).leaf := by
  induction fuel generalizing cur path with
  | zero => cases h
  | succ fuel ih =>
    rw [findLeaf] at h
    by_cases hleaf : (readNode pool cur).leaf
    · rw [if_pos hleaf] at h
      cases h
      exact ⟨0, rfl, rfl, hleaf, fun i hi => absurd hi (Nat.not_lt_zero i)⟩
    · rw [if_neg hleaf] at h
      obtain ⟨k, hend, hpath, hlast, hinner⟩ := ih h
      refine ⟨k + 1, hend, ?_, hlast, fun i hi => ?_⟩
      · rw [hpath, List.range_succ_eq_map, List.map_cons, List.map_map, List.reverse_cons,
          List.append_assoc]
        rfl
      · cases i with
        | zero => exact hleaf
        | succ i => exact hinner i (Nat.lt_of_succ_lt_succ hi)

theorem nextNode_mem {pool : PageStore} (e : Entry) {cur : Int}
    (h : ¬ (readNode pool cur).leaf) : nextNode pool e cur ∈ (readNode pool cur).children := by
  have hcounts := (wellFormed_readNode pool cur).counts
  rw [if_neg h] at hcounts
  have hle := (List.takeWhile_prefix fun s => !entryLess e s :
    _ <+: (readNode pool cur).entries).length_le
  rw [nextNode, List.getD_eq_getElem?_getD, List.getElem?_eq_getElem (by omega), Option.getD_some]
  exact List.getElem_mem _

/-- What the way to a leaf goes through: inner nodes, none of them twice. -/
theorem findLeaf_spec {pool : PageStore} {e : Entry} {fuel : Nat} {root leafId : Int}
    {path : List Int} (hpages : Pages base P pool) (hlow : (base : Int) ≤ root)
    (hhigh : root < pool.numPages) (h : findLeaf pool e fuel root [] = .ok (leafId, path)) :
    ((base : Int) ≤ leafId ∧ leafId < pool.numPages ∧ (readNode pool leafId).leaf) ∧ path.Nodup ∧
      ∀ i ∈ path, (base : Int) ≤ i ∧ i < pool.numPages ∧ ¬ (readNode pool i).leaf := by
  obtain ⟨k, hend, hpath, hleaf, hinner⟩ := findLeaf_walk h
  have hrange : ∀ i ≤ k, (base : Int) ≤ (nextNode pool e)^[i] root ∧
      (nextNode pool e)^[i] root < pool.numPages := by
    intro i
    induction i with
    | zero => exact fun _ => ⟨hlow, hhigh⟩
    | succ i ih =>
      intro hi
      obtain ⟨hlow, hhigh⟩ := ih (by omega)
      rw [Function.iterate_succ_apply']
      exact (hpages _ hlow hhigh).children _ (nextNode_mem e (hinner i hi))
  rw [List.append_nil] at hpath
  subst hpath hend
  refine ⟨⟨(hrange k le_rfl).1, (hrange k le_rfl).2, hleaf⟩, ?_, fun i hi => ?_⟩
  · -- a walk that came back to a node would never have got to a leaf
    have hne : ∀ i j, i < j → j < k → (nextNode pool e)^[i] root ≠ (nextNode pool e)^[j] root := by
      intro i j hij hjk heq
      have hlast : (nextNode pool e)^[k - j + i] root = (nextNode pool e)^[k] root := by
        rw [Function.iterate_add_apply, heq, ← Function.iterate_add_apply, Nat.sub_add_cancel hjk.le]
      exact hinner (k - j + i) (by omega) (hlast ▸ hleaf)
    rw [List.nodup_reverse]
    refine List.Nodup.map_on ?_ List.nodup_range
    intro i hi j hj heq
    rw [List.mem_range] at hi hj
    rcases Nat.lt_trichotomy i j with hlt | rfl | hlt
    · exact absurd heq (hne i j hlt hj)
    · rfl
    · exact absurd heq.symm (hne j i hlt hi)
  · rw [List.mem_reverse, List.mem_map] at hi
    obtain ⟨j, hj, rfl⟩ := hi
    rw [List.mem_range] at hj
    exact ⟨(hrange j hj.le).1, (hrange j hj.le).2, hinner j hj⟩

theorem findLeaf_fitting (pool : PageStore) (e : Entry) (fuel : Nat) (cur : Int)
    (path : List Int) : Fitting (fun _ => True) (findLeaf pool e fuel cur path) := by
  induction fuel generalizing cur path with
  | zero => exact .error Fault.noConfusion
  | succ fuel ih =>
    rw [findLeaf]
    split
    · exact .ok trivial
    · exact ih _ _

/-! ## Steps and runs -/

/-- The pages of the tree are nodes, and its root is one of them. -/
structure Sized (base : Nat) (P : Entry → Prop) (tree : DiskBPlusTree) : Prop where
  pages : Pages base P tree.pool
  base_le : base ≤ tree.pool.numPages
  root : tree.rootId ≠ -1 → (base : Int) ≤ tree.rootId ∧ tree.rootId < tree.pool.numPages ∧
    IsInt32 tree.rootId

/-- The bytes of an entry in its node. -/
def entrySize (e : Entry) : Nat := (encodeValue e.1).length + 10

theorem measure_eq_sum (entries : List Entry) (leaf : Bool) :
    measure entries leaf =
      8 + (entries.map entrySize).sum + if leaf then 0 else (entries.length + 1) * 4 := by
  have hfold : ∀ (entries : List Entry) (k : Nat),
      entries.foldl (fun bytes e => bytes + (2 + (encodeValue e.1).length + 8)) k =
        k + (entries.map entrySize).sum := by
    intro entries
    induction entries with
    | nil => exact fun k => rfl
    | cons e entries ih =>
      intro k
      rw [List.foldl_cons, ih, List.map_cons, List.sum_cons, entrySize]
      omega
  rw [measure, hfold]
  split <;> rfl

/-- A new page gets a node. -/
theorem pages_alloc {pool pool' : PageStore} {view : NodeView} (hpages : Pages base P pool)
    (hview : Holds base P (pool.numPages + 1) view)
    (hnodes : readNode pool' = Function.update (readNode pool) pool.numPages view)
    (hnum : pool'.numPages = pool.numPages + 1) : Pages base P pool' := by
  intro i hlow hhigh
  rw [hnum] at hhigh ⊢
  rw [hnodes, Function.update_apply]
  split
  · exact hview
  · exact (hpages i hlow (by omega)).mono (Nat.le_succ _)

namespace DiskBPlusTree

theorem insert_fitting {tree : DiskBPlusTree} {key : Value} {rid : RecordID}
    (h : Sized base P tree) (he : InRange (key, rid)) (hP : P (key, rid))
    (hsize : (encodeValue key).length ≤ 4076) (hfits : tree.InsertFits key rid) :
    Fitting (Sized base P) (tree.insert key rid) := by
  have hbase := h.base_le
  unfold DiskBPlusTree.insert
  dsimp only
  split
  · have hroot : measure [(key, rid)] true ≤ PAGE_SIZE := by
      rw [measure_eq_sum, List.map_singleton, List.sum_singleton, entrySize, if_pos rfl]
      change _ ≤ 4096
      dsimp only
      omega
    have hleaf : WellFormed { entries := [(key, rid)] } :=
      ⟨(by decide : IsInt32 (-1)), List.forall_mem_singleton.mpr he, List.forall_mem_nil _, rfl⟩
    refine (allocNode_fitting hleaf hroot).bind ?_
    rintro ⟨pool', rootId⟩ - ⟨hid, hnodes, hnum, hlt, -⟩
    obtain rfl : rootId = tree.pool.numPages := hid
    dsimp only at hnodes hnum
    refine .ok ⟨pages_alloc h.pages ⟨hroot, List.forall_mem_singleton.mpr hP,
      List.forall_mem_nil _⟩ hnodes hnum, by dsimp only; omega, fun _ => ?_⟩
    exact ⟨by dsimp only; omega, by dsimp only; omega, isInt32_of_lt hlt⟩
  rename_i hroot
  obtain ⟨hlow, hhigh, hrootNumber⟩ := h.root hroot
  refine (findLeaf_fitting _ _ _ _ _).bind ?_
  rintro ⟨leafId, path⟩ hfind -
  obtain ⟨⟨hleafLow, hleafHigh, hleaf⟩, hnodup, hpath⟩ := findLeaf_spec h.pages hlow hhigh hfind
  dsimp only
  split
  · exact .ok h
  refine (insertLeaf_fitting h.pages hleafLow hleafHigh hleaf he hP
    (hfits leafId path hroot hfind)).bind ?_
  rintro ⟨pool₁, split₁⟩ - ⟨hchanged, hsplit⟩
  have hle : tree.pool.numPages ≤ pool₁.numPages := hchanged.le
  -- the leaf is none of the nodes above it
  have hsame : ∀ i ∈ path, readNode pool₁ i = readNode tree.pool i := fun i hi =>
    hchanged.frame i (hpath i hi).2.1 fun heq => (hpath i hi).2.2 (heq ▸ hleaf)
  have hpath₁ : ∀ i ∈ path,
      (base : Int) ≤ i ∧ i < pool₁.numPages ∧ ¬ (readNode pool₁ i).leaf := by
    intro i hi
    obtain ⟨hlow, hhigh, hinner⟩ := hpath i hi
    exact ⟨hlow, by omega, by rwa [hsame i hi]⟩
  rw [← List.map_congr_left hsame] at hsplit
  refine (climb_fitting hchanged.pages hnodup hpath₁ hsplit).bind ?_
  rintro ⟨pool₂, split₂⟩ - ⟨hpages₂, hle₂, hsplit₂⟩
  dsimp only at hpages₂ hle₂ hsplit₂ ⊢
  cases split₂ with
  | none =>
    exact .ok ⟨hpages₂, by dsimp only; omega, fun _ =>
      ⟨hlow, by dsimp only; omega, hrootNumber⟩⟩
  | some split =>
    obtain ⟨up, childId⟩ := split
    obtain ⟨hsep, hnewRoot⟩ := hsplit₂ _ rfl
    have hkids : ∀ c ∈ [tree.rootId, childId], IsInt32 c ∧ (base : Int) ≤ c ∧ c < pool₂.numPages :=
      List.forall_mem_cons.mpr ⟨⟨hrootNumber, hlow, by omega⟩,
        List.forall_mem_singleton.mpr ⟨hsep.number, hsep.low, hsep.high⟩⟩
    have hroot₂ : WellFormed
        { leaf := false, entries := [up], children := [tree.rootId, childId] } :=
      ⟨(by decide : IsInt32 (-1)), List.forall_mem_singleton.mpr hsep.range,
        fun c hc => (hkids c hc).1, rfl⟩
    refine (allocNode_fitting hroot₂ hnewRoot).bind ?_
    rintro ⟨pool', rootId⟩ - ⟨hid, hnodes, hnum, hlt, -⟩
    obtain rfl : rootId = pool₂.numPages := hid
    dsimp only at hnodes hnum
    refine .ok ⟨pages_alloc hpages₂ ⟨hnewRoot, List.forall_mem_singleton.mpr hsep.entry,
      fun c hc => ⟨(hkids c hc).2.1, by have := (hkids c hc).2.2; omega⟩⟩ hnodes hnum,
      by dsimp only; omega, fun _ => ?_⟩
    exact ⟨by dsimp only; omega, by dsimp only; omega, isInt32_of_lt hlt⟩

theorem measure_eraseIdx_le (entries : List Entry) (i : Nat) (leaf : Bool) :
    measure (entries.eraseIdx i) leaf ≤ measure entries leaf := by
  have hsum := ((List.eraseIdx_sublist entries i).map entrySize).sum_le_sum fun _ _ => Nat.zero_le _
  have hlen := List.length_eraseIdx_le entries i
  rw [measure_eq_sum, measure_eq_sum]
  split <;> omega

theorem erase_fitting {tree : DiskBPlusTree} (h : Sized base P tree) (key : Value)
    (rid : RecordID) : Fitting (fun p => Sized base P p.1) (tree.erase key rid) := by
  unfold DiskBPlusTree.erase
  split
  · exact .ok h
  rename_i hroot
  obtain ⟨hlow, hhigh, hrootNumber⟩ := h.root hroot
  refine (findLeaf_fitting _ _ _ _ _).bind ?_
  rintro ⟨leafId, path⟩ hfind -
  obtain ⟨⟨hleafLow, hleafHigh, hleaf⟩, -, -⟩ := findLeaf_spec h.pages hlow hhigh hfind
  have hwf := wellFormed_readNode tree.pool leafId
  have hholds := h.pages leafId hleafLow hleafHigh
  dsimp only
  generalize readNode tree.pool leafId = leaf at *
  split
  · exact .ok h
  · rename_i i _
    have hsub : ∀ x ∈ leaf.entries.eraseIdx i, x ∈ leaf.entries :=
      fun x hx => List.mem_of_mem_eraseIdx hx
    have hfits : measure (leaf.entries.eraseIdx i) leaf.leaf ≤ PAGE_SIZE :=
      (measure_eraseIdx_le _ _ _).trans hholds.fits
    have hview : WellFormed { leaf with entries := leaf.entries.eraseIdx i } :=
      ⟨hwf.next, fun x hx => hwf.entries x (hsub x hx), hwf.children, by
        have := hwf.counts
        rwa [if_pos hleaf] at this ⊢⟩
    have hpage : Holds base P tree.pool.numPages { leaf with entries := leaf.entries.eraseIdx i } :=
      ⟨hfits, fun x hx => hholds.entries x (hsub x hx), hholds.children⟩
    refine (writeNode_fitting hview hfits).bind ?_
    rintro pool' - ⟨hnodes, hnum, -⟩
    refine .ok ⟨(changed_write h.pages hpage hnodes hnum).pages, ?_, fun _ => ?_⟩
    · exact hnum.symm ▸ h.base_le
    · exact ⟨hlow, hnum.symm ▸ hhigh, hrootNumber⟩

theorem run_fitting {tree : DiskBPlusTree} (h : Sized base P tree) {ops : List TreeOp}
    (hops : ∀ op ∈ ops, InRange (op.key, op.rid) ∧ P (op.key, op.rid) ∧
      (encodeValue op.key).length ≤ 4076) (hfits : tree.RunFits ops) :
    Fitting (fun p => Sized base P p.1) (tree.run ops) := by
  induction ops generalizing tree with
  | nil => exact .ok h
  | cons op ops ih =>
    obtain ⟨⟨hrange, hP, hsize⟩, hrest⟩ := List.forall_mem_cons.mp hops
    cases op with
    | insert key rid =>
      refine (insert_fitting h hrange hP hsize hfits.1).bind fun tree' heq h' => ?_
      exact ih h' hrest (hfits.2 tree' heq)
    | erase key rid =>
      refine (erase_fitting h key rid).bind fun ⟨tree', found⟩ heq h' => ?_
      exact (ih h' hrest (hfits tree' found heq)).bind fun _ _ h'' => .ok h''

theorem sized_empty (pool : PageStore) (P : Entry → Prop) :
    Sized pool.numPages P ({ pool } : DiskBPlusTree) :=
  ⟨fun i hlow hhigh => absurd hhigh (by dsimp only; omega), le_rfl, fun h => absurd rfl h⟩

/-- A text of a byte and four thousand zeros. -/
def longText (b : UInt8) : Value := .text (b :: List.replicate 4000 0)

/-- A short key and two long ones. -/
def shortAndLong : List TreeOp :=
  [.insert (.text [0]) ⟨0, 0⟩, .insert (longText 1) ⟨0, 1⟩, .insert (longText 2) ⟨0, 2⟩]

def faultOf {α : Type} : Except Fault α → Option Fault
  | .ok _ => none
  | .error fault => some fault

end DiskBPlusTree

/-! ## Short keys -/

/-- Of numbers from `a` to `b`, one too many for a bound `C`, a half is within the bound: the
other half makes up for that one, or it is of so few numbers that neither reaches it. -/
theorem sum_half_le {a b C : Nat} {half rest : List Nat} (hhalf : ∀ x ∈ half, x ≤ b)
    (hrest : ∀ x ∈ rest, a ≤ x) (htotal : half.sum + rest.sum ≤ C + b)
    (hlen : half.length ≤ rest.length + 1) (hfew : ((b - 1) / a + 1) * b ≤ C) (ha : 0 < a) :
    half.sum ≤ C := by
  have hlow : rest.length * a ≤ rest.sum := by simpa using List.card_nsmul_le_sum rest a hrest
  have hhigh : half.sum ≤ half.length * b := by simpa using List.sum_le_card_nsmul half b hhalf
  by_cases hmany : b ≤ rest.length * a
  · omega
  · have hcount : rest.length ≤ (b - 1) / a := (Nat.le_div_iff_mul_le ha).mpr (by omega)
    calc half.sum ≤ half.length * b := hhigh
      _ ≤ ((b - 1) / a + 1) * b := Nat.mul_le_mul_right b (hlen.trans (Nat.succ_le_succ hcount))
      _ ≤ C := hfew

/-- The key takes at most 199 bytes. -/
def Short (e : Entry) : Prop := (encodeValue e.1).length ≤ 199

theorem length_encodeValue_pos (v : Value) : 0 < (encodeValue v).length := by
  simp [encodeValue]

theorem sum_map_insertIdx_le {α : Type} (f : α → Nat) (l : List α) (i : Nat) (x : α) :
    ((l.insertIdx i x).map f).sum ≤ (l.map f).sum + f x := by
  by_cases hi : i ≤ l.length
  · rw [((List.perm_insertIdx x l hi).map f).sum_eq, List.map_cons, List.sum_cons, Nat.add_comm]
  · rw [List.insertIdx_of_length_lt (by omega)]
    exact Nat.le_add_right _ _

/-- What an entry adds to the size of its node: an inner node has a child with it. -/
def nodeShare (leaf : Bool) (e : Entry) : Nat := entrySize e + if leaf then 0 else 4

theorem measure_eq_share (entries : List Entry) (leaf : Bool) :
    measure entries leaf = (if leaf then 8 else 12) + (entries.map (nodeShare leaf)).sum := by
  rw [measure_eq_sum]
  induction entries with
  | nil => cases leaf <;> rfl
  | cons e entries ih =>
    simp only [List.map_cons, List.sum_cons, List.length_cons, nodeShare] at ih ⊢
    split at ih <;> simp_all
    omega

theorem nodeShare_of_short {e : Entry} (h : Short e) (leaf : Bool) :
    (if leaf then 11 else 15) ≤ nodeShare leaf e ∧
      nodeShare leaf e ≤ if leaf then 209 else 213 := by
  have hpos := length_encodeValue_pos e.1
  have hle : (encodeValue e.1).length ≤ 199 := h
  rw [nodeShare, entrySize]
  split <;> omega

/-- Of short keys that were one too many for their page, half fit one. -/
theorem half_fits {entries half : List Entry} {e : Entry} {leaf : Bool} (pos : Nat)
    (rest : List Entry) (hfits : measure entries leaf ≤ PAGE_SIZE)
    (hshort : ∀ x ∈ entries, Short x) (he : Short e)
    (hperm : (half ++ rest).Perm (entries.insertIdx pos e)) (hlen : half.length ≤ rest.length + 1) :
    measure half leaf ≤ PAGE_SIZE := by
  have hshare : ∀ es : List Entry, (∀ x ∈ es, x ∈ half ++ rest) → ∀ n ∈ es.map (nodeShare leaf),
      (if leaf then 11 else 15) ≤ n ∧ n ≤ if leaf then 209 else 213 := by
    intro es hes n hn
    obtain ⟨x, hx, rfl⟩ := List.mem_map.mp hn
    exact nodeShare_of_short
      (forall_mem_insertIdx hshort he pos x (hperm.subset (hes x hx))) leaf
  have hhalf := hshare half fun _ hx => List.mem_append_left _ hx
  have hrest := hshare rest fun _ hx => List.mem_append_right _ hx
  have hsum := (hperm.map (nodeShare leaf)).sum_eq
  have hinsert := sum_map_insertIdx_le (nodeShare leaf) entries pos e
  have hnew := (nodeShare_of_short he leaf).2
  rw [List.map_append, List.sum_append] at hsum
  rw [measure_eq_share] at hfits ⊢
  change _ ≤ 4096 at hfits ⊢
  have hheader : (if leaf then 8 else 12) ≤ 12 := by split <;> omega
  have hle : (half.map (nodeShare leaf)).sum ≤ 4096 - if leaf then 8 else 12 := by
    refine sum_half_le (fun n hn => (hhalf n hn).2) (fun n hn => (hrest n hn).1) (by omega)
      (by rwa [List.length_map, List.length_map]) ?_ ?_
    all_goals cases leaf <;> decide
  omega

theorem climbFits_of_short {above : List NodeView} {up : Entry}
    (habove : ∀ v ∈ above, measure v.entries false ≤ PAGE_SIZE ∧ ∀ x ∈ v.entries, Short x)
    (hup : Short up) : ClimbFits above up := by
  induction above generalizing up with
  | nil =>
    have hle : (encodeValue up.1).length ≤ 199 := hup
    rw [ClimbFits, measure_eq_sum]
    change _ ≤ 4096
    simp only [List.map_singleton, List.sum_singleton, entrySize, List.length_singleton]
    split <;> omega
  | cons parent above ih =>
    obtain ⟨⟨hfits, hshort⟩, habove⟩ := List.forall_mem_cons.mp habove
    rw [ClimbFits]
    generalize (parent.entries.takeWhile fun s => entryLess s up).length = ip
    generalize hl : parent.entries.insertIdx ip up = l
    intro _
    have hall : ∀ x ∈ l, Short x := hl ▸ forall_mem_insertIdx hshort hup ip
    refine ⟨half_fits ip (l.drop (l.length / 2)) hfits hshort hup ?_ ?_,
      half_fits ip (l.take (l.length / 2 + 1)) hfits hshort hup ?_ ?_, ih habove ?_⟩
    · rw [List.take_append_drop, hl]
    · rw [List.length_take, List.length_drop]
      omega
    · exact List.perm_append_comm.trans (by rw [List.take_append_drop, hl])
    · rw [List.length_take, List.length_drop]
      omega
    · rw [List.getD_eq_getElem?_getD]
      cases hget : l[l.length / 2]? with
      | none => exact hup
      | some x => exact hall x (List.mem_of_getElem? hget)

theorem leafFits_of_short {entries : List Entry} {e : Entry} {pos : Nat} {above : List NodeView}
    (hfits : measure entries true ≤ PAGE_SIZE) (hshort : ∀ x ∈ entries, Short x) (he : Short e)
    (habove : ∀ v ∈ above, measure v.entries false ≤ PAGE_SIZE ∧ ∀ x ∈ v.entries, Short x) :
    LeafFits (entries.insertIdx pos e) e above := by
  rw [LeafFits]
  generalize hl : entries.insertIdx pos e = l
  intro _
  have hall : ∀ x ∈ l, Short x := hl ▸ forall_mem_insertIdx hshort he pos
  refine ⟨half_fits pos (l.drop (l.length / 2)) hfits hshort he ?_ ?_,
    half_fits pos (l.take (l.length / 2)) hfits hshort he ?_ ?_, climbFits_of_short habove ?_⟩
  · rw [List.take_append_drop, hl]
  · rw [List.length_take, List.length_drop]
    omega
  · exact List.perm_append_comm.trans (by rw [List.take_append_drop, hl])
  · rw [List.length_take, List.length_drop]
    omega
  · cases hdrop : l.drop (l.length / 2) with
    | nil => exact he
    | cons x rest => exact hall x (List.mem_of_mem_drop (hdrop ▸ List.mem_cons_self))

namespace DiskBPlusTree

theorem insertFits_of_short {base : Nat} {tree : DiskBPlusTree} {key : Value} {rid : RecordID}
    (h : Sized base Short tree) (hkey : Short (key, rid)) : tree.InsertFits key rid := by
  intro leafId path hroot hfind
  obtain ⟨hlow, hhigh, -⟩ := h.root hroot
  obtain ⟨⟨hleafLow, hleafHigh, hleaf⟩, -, hpath⟩ := findLeaf_spec h.pages hlow hhigh hfind
  have hholds := h.pages leafId hleafLow hleafHigh
  refine leafFits_of_short (by rw [← hleaf]; exact hholds.fits) hholds.entries hkey ?_
  intro v hv
  obtain ⟨i, hi, rfl⟩ := List.mem_map.mp hv
  obtain ⟨hlow, hhigh, hinner⟩ := hpath i hi
  have hnode := h.pages i hlow hhigh
  exact ⟨by rw [← Bool.eq_false_iff.mpr hinner]; exact hnode.fits, hnode.entries⟩

/-- As long as all keys are short, what is divided has halves that fit. -/
theorem runFits_of_short {base : Nat} {tree : DiskBPlusTree} (h : Sized base Short tree)
    {ops : List TreeOp} (hops : ∀ op ∈ ops, InRange (op.key, op.rid) ∧ Short (op.key, op.rid)) :
    tree.RunFits ops := by
  induction ops generalizing tree with
  | nil => exact trivial
  | cons op ops ih =>
    obtain ⟨⟨hrange, hshort⟩, hrest⟩ := List.forall_mem_cons.mp hops
    cases op with
    | insert key rid =>
      have hfits := insertFits_of_short h hshort
      have hsize : (encodeValue key).length ≤ 4076 := le_trans hshort (by decide)
      refine ⟨hfits, fun tree' heq => ih ?_ hrest⟩
      cases heq ▸ insert_fitting h hrange hshort hsize hfits with
      | ok h' => exact h'
    | erase key rid =>
      intro tree' found heq
      refine ih ?_ hrest
      cases heq ▸ erase_fitting h key rid with
      | ok h' => exact h'

/-- In a run of short keys every node that is written fits its page. -/
theorem run_short_ne_nodeTooLarge (pool : PageStore) {ops : List TreeOp}
    (hops : ∀ op ∈ ops, InRange (op.key, op.rid) ∧ Short (op.key, op.rid)) :
    DiskBPlusTree.run { pool } ops ≠ .error .NodeTooLarge := by
  have hempty := sized_empty pool Short
  have hops' : ∀ op ∈ ops, InRange (op.key, op.rid) ∧ Short (op.key, op.rid) ∧
      (encodeValue op.key).length ≤ 4076 := fun op hop =>
    ⟨(hops op hop).1, (hops op hop).2, le_trans (hops op hop).2 (by decide)⟩
  exact (run_fitting hempty hops' (runFits_of_short hempty hops)).ne

end DiskBPlusTree

end Relite
