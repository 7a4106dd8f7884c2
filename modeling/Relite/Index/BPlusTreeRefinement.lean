import Relite.Index.BPlusTreeErase

/-!
# The B+ tree in memory is a multimap

The nodes hold a tree whose buckets are those of a multimap. Insertions, erasures and scans do
to the nodes what they do to the multimap, no pointer is followed that leads nowhere, and the
nodes that the tree consists of are those that have not been freed.
-/
namespace Relite
open Lib Vm

namespace BPlusTree

/-- The nodes are those of a tree, and there are no others. -/
structure Consists (keys : List Value) (t : BPlusTree) {h : Nat} (s : Shape h) : Prop where
  root : t.root = s.root
  order : 3 ≤ t.order
  stored : Stored (bodies t.nodes) s
  chain : Chain (links t.nodes) none (s.leaves.map Prod.fst) none
  nodup : s.numbers.Nodup
  mem : ∀ i ∈ s.numbers, 0 ≤ i ∧ i < (t.allocated : Int)
  live : ∀ i, i ∉ s.numbers → t.nodes i = none
  within : s.Within (· ∈ keys) valueLess none none
  small : s.Small t.order
  sizes : ∀ x ∈ s.leaves, (x.2.length : Int) ≤ t.order

/-- The buckets of the tree are those of a multimap. -/
structure Represents (keys : List Value) (t : BPlusTree) {h : Nat} (s : Shape h)
    (m : List (Value × RecordID)) : Prop extends Consists keys t s where
  filled : 0 < h → ∀ x ∈ s.leaves, x.2 ≠ []
  holds : Holds valueLess keys (BucketTree.bucketsOf s.leaves) m
  distinctKeys : t.distinctKeys = (BucketTree.bucketsOf s.leaves).length

theorem represents_make (keys : List Value) (order : Int) :
    Represents keys (make order) (h := 0) (0, []) [] where
  root := rfl
  order := by
    rw [make]
    dsimp only
    split <;> omega
  stored := by
    simp [make, Stored, bodies, body, leafBody]
  chain := by
    simp [make, BucketTree.leaves, Chain, links, linkOf]
  nodup := List.nodup_singleton _
  mem i hi := by
    rw [List.mem_singleton.mp hi]
    exact ⟨le_rfl, Int.zero_lt_one⟩
  live i hi := by
    have hne : i ≠ 0 := fun he => hi (he ▸ List.mem_singleton_self _)
    simp [make, Function.update_of_ne hne]
  within := ⟨.nil, fun x hx => by cases hx⟩
  small := trivial
  sizes x hx := by
    rw [List.mem_singleton.mp hx, make]
    dsimp only
    split <;> simp <;> omega
  filled hlt := absurd hlt (Nat.lt_irrefl 0)
  holds := holds_nil valueLess keys
  distinctKeys := rfl

section Operations

variable {keys : List Value} {t : BPlusTree} {h : Nat} {s : Shape h}
  {m : List (Value × RecordID)}

/-- All nodes have been allocated. -/
theorem Consists.length_le (hrep : Consists keys t s) : s.numbers.length ≤ t.allocated := by
  have hsub : s.numbers ⊆ (List.range t.allocated).map (fun n : Nat => (n : Int)) := by
    intro i hi
    obtain ⟨hpos, hlt⟩ := hrep.mem i hi
    exact List.mem_map.mpr ⟨i.toNat, List.mem_range.mpr (by omega), by omega⟩
  have hle := (hrep.nodup.subperm hsub).length_le
  rwa [List.length_map, List.length_range] at hle

theorem Consists.height_lt (hrep : Consists keys t s) : h < t.allocated :=
  Nat.lt_of_lt_of_le s.height_lt hrep.length_le

theorem none_mem {keys : List Value} : ∀ l ∈ (none : Option Value), l ∈ keys :=
  fun l hl => by cases hl

theorem from_none (key : Value) : From valueLess none key := fun l hl => by cases hl

theorem below_none (key : Value) : Below valueLess none key := fun l hl => by cases hl

/-! ## Inserting -/

theorem insert_represents (hkeys : OrderedOn valueLess keys) (hrep : Represents keys t s m)
    {key : Value} (hkey : key ∈ keys) (rid : RecordID) :
    ∃ t', t.insert key rid = some t' ∧ t'.order = t.order ∧
      ∃ h', ∃ s' : Shape h', Represents keys t' s' (Multimap.add key rid m) := by
  have horder := hrep.order
  have hpos : 0 < t.order := by omega
  have hids : (s.leaves.map Prod.fst).Nodup := hrep.nodup.sublist s.leaves_sublist
  obtain ⟨t₁, split, hrec, hins⟩ := insertRec_eq key rid [] [] hrep.stored
    (by simpa using hrep.chain) (by simpa using hids)
    (fun i hi => (hrep.mem i (s.leaves_sublist.subset (by simpa using hi))).2) hrep.nodup
    (fun i hi => (hrep.mem i hi).2) (by omega) hrep.sizes hrep.height_lt
  have hwithin := BucketTree.insertIn_within (r := rid) hkeys hpos hkey
    t.allocated none_mem none_mem (from_none key) (below_none key) hrep.within
  obtain ⟨hbuckets, hsizes, hfilled⟩ := BucketTree.insertIn_buckets (r := rid) hkeys
    hpos hkey t.allocated hrep.within hrep.sizes
  have hsmall := BucketTree.insertIn_small valueLess key rid hpos.le t.allocated hrep.small
  obtain ⟨hle, hperm⟩ := BucketTree.insertIn_numbers valueLess t.order key rid t.allocated s
  have hroot' := BucketTree.insertIn_root valueLess t.order key rid t.allocated s
  have hadd := BucketTree.leaf_addTo_length hkeys hkey hrep.within rid
  obtain ⟨hroot, hord, halloc, hdist, hsplit, hstored, hright, hframe, hchain⟩ := hins
  dsimp only [grow] at halloc hdist hsplit hstored hright hframe hchain
  generalize BucketTree.insertIn valueLess t.order key rid t.allocated s = res at *
  obtain ⟨n, s₁, o⟩ := res
  dsimp only at hwithin hbuckets hsizes hfilled hsmall hle hperm hroot' halloc hsplit hstored hright hframe hchain
  have hlive : ∀ i, i ∉ BucketTree.grown BucketTree.numbers s₁ o → t₁.nodes i = none := by
    intro i hi
    have hold : i ∉ s.numbers := fun hmem => hi (hperm.mem_iff.mpr (List.mem_append_left _ hmem))
    rw [← bodies_eq_none, hframe i hi, bodies_eq_none]
    exact hrep.live i hold
  have hmem : ∀ i ∈ BucketTree.grown BucketTree.numbers s₁ o, 0 ≤ i ∧ i < (n : Int) := by
    intro i hi
    rcases List.mem_append.mp (hperm.mem_iff.mp hi) with hi | hi
    · have := hrep.mem i hi
      omega
    · have := BucketTree.mem_fresh.mp hi
      omega
  have hnodup : (BucketTree.grown BucketTree.numbers s₁ o).Nodup := by
    rw [hperm.nodup_iff, List.nodup_append']
    refine ⟨hrep.nodup, BucketTree.nodup_fresh _ _, fun i hi hnew => ?_⟩
    have hlt := (hrep.mem i hi).2
    have := BucketTree.mem_fresh.mp hnew
    omega
  have hholds : Holds valueLess keys (BucketTree.bucketsOf (BucketTree.grown BucketTree.leaves s₁ o))
      (Multimap.add key rid m) := hbuckets ▸ hrep.holds.add hkeys hkey rid
  have hcount : t₁.distinctKeys =
      (BucketTree.bucketsOf (BucketTree.grown BucketTree.leaves s₁ o)).length := by
    have hold := hrep.distinctKeys
    rw [hbuckets]
    omega
  cases o with
  | none =>
    obtain rfl : split = none := hsplit
    simp only [BucketTree.grown, Option.map_none, Option.getD_none, List.append_nil,
      List.nil_append] at hlive hmem hnodup hholds hcount hsizes hfilled hchain
    refine ⟨t₁, by simp [insert, hrep.root, hrec], hord, h, s₁, ⟨⟨?_, hord ▸ horder, hstored,
      hchain, hnodup, fun i hi => halloc ▸ hmem i hi, hlive, hwithin, hord ▸ hsmall.1, hord ▸ hsizes⟩,
      fun hpos => hfilled fun _ => hrep.filled hpos, hholds, hcount⟩⟩
    rw [hroot, hrep.root, hroot']
  | some p =>
    obtain ⟨up, r⟩ := p
    obtain rfl : split = some (up, r.root) := hsplit
    have hr : Stored (bodies t₁.nodes) r := hright (up, r) rfl
    simp only [BucketTree.grown, Option.map_some, Option.getD_some, List.nil_append,
      List.append_nil] at hlive hmem hnodup hholds hcount hsizes hfilled hchain
    obtain ⟨hup, hal, hbe, hleft, hrightWithin⟩ := hwithin
    have hroot₁ : t₁.root = s₁.root := (hroot.trans hrep.root).trans hroot'.symm
    have hnew : ∀ i ∈ s₁.numbers ++ r.numbers, i ≠ (n : Int) := fun i hi => by
      have := hmem i hi
      omega
    have hkids : ∀ c ∈ (Children.more s₁ up (.last r)).kids, c = s₁ ∨ c = r := by
      simp [Children.kids]
    have hnumbers : BucketTree.numbers (h := h + 1) ((n : Int), Children.more s₁ up (.last r)) =
        (n : Int) :: (s₁.numbers ++ r.numbers) := rfl
    have hleaves : BucketTree.leaves (h := h + 1) ((n : Int), Children.more s₁ up (.last r)) =
        s₁.leaves ++ r.leaves := rfl
    obtain ⟨nodes, hnodes⟩ : ∃ nodes, nodes = Function.update t₁.nodes n
      (some (innerBody [up] [s₁.root, r.root])) := ⟨_, rfl⟩
    have hbodies : ∀ i, i ≠ (n : Int) → bodies nodes i = bodies t₁.nodes i := fun i hi => by
      rw [hnodes, bodies_update, Function.update_of_ne hi]
    refine ⟨{ t₁ with nodes, allocated := n + 1, root := (n : Int) }, ?_, hord, h + 1,
      ((n : Int), .more s₁ up (.last r)), ?_⟩
    · simp only [insert, hrep.root, hrec, Option.bind_eq_bind, Option.bind_some, new, put, hroot₁,
        hnodes, halloc]
      rfl
    · refine ⟨⟨rfl, hord ▸ horder, ⟨?_, fun c hc => ?_⟩, ?_, ?_, ?_, fun i hi => ?_,
        ⟨hleft, hup, hal, hbe, hrightWithin⟩, ⟨?_, fun c hc => ?_⟩, ?_⟩, fun _ => ?_, ?_, ?_⟩
      · rw [hnodes, bodies_update, Function.update_self]
        rfl
      · rcases hkids c hc with rfl | rfl
        · exact hstored.congr fun i hi => hbodies i (hnew i (List.mem_append_left _ hi))
        · exact hr.congr fun i hi => hbodies i (hnew i (List.mem_append_right _ hi))
      · rw [hleaves]
        refine hchain.congr fun i hi => ?_
        rw [hnodes, links_update_of_ne (hnew i ?_)]
        rw [List.map_append] at hi
        exact (s₁.leaves_sublist.append r.leaves_sublist).subset hi
      · rw [hnumbers]
        exact List.nodup_cons.mpr ⟨fun hi => hnew _ hi rfl, hnodup⟩
      · rw [hnumbers]
        intro i hi
        dsimp only
        rcases List.mem_cons.mp hi with rfl | hi
        · omega
        · have := hmem i hi
          omega
      · rw [hnumbers, List.mem_cons, not_or] at hi
        dsimp only
        rw [hnodes, Function.update_of_ne hi.1]
        exact hlive i hi.2
      · dsimp only [Children.seps]
        rw [hord]
        simp only [List.length_cons, List.length_nil]
        omega
      · dsimp only
        rw [hord]
        rcases hkids c hc with rfl | rfl
        · exact hsmall.1
        · exact hsmall.2 (up, c) rfl
      · rw [hleaves]
        exact hord ▸ hsizes
      · rw [hleaves]
        exact hfilled hrep.filled
      · rw [hleaves]
        exact hholds
      · rw [hleaves]
        exact hcount

/-! ## Searching -/

theorem findValues_eq (key : Value) (l : List (Value × List RecordID)) :
    findValues key (l.map Prod.fst) (l.map Prod.snd) = some (bucketOf valueLess key l) := by
  induction l with
  | nil => rfl
  | cons b l ih =>
    rw [List.map_cons, List.map_cons, findValues]
    by_cases hb : keyEqual b.1 key
    · have hsame : same valueLess b.1 key := hb
      simp [hb, bucketOf, hsame]
    · have hsame : ¬same valueLess b.1 key := hb
      rw [if_neg hb, List.drop_one, List.tail_cons, ih]
      simp [bucketOf, hsame]

theorem Stored.leaves {b : Int → Option Node} {h : Nat} {s : Shape h} (hs : Stored b s) :
    ∀ x ∈ s.leaves, b x.1 = some (leafBody x.2) := by
  induction h with
  | zero =>
    intro x hx
    rw [List.mem_singleton.mp hx]
    exact hs
  | succ h ih =>
    intro x hx
    rw [BucketTree.leaves_succ] at hx
    obtain ⟨c, hc, hx⟩ := List.mem_flatMap.mp hx
    exact ih (hs.2 c hc) x hx

/-- The leaf of a key is one of the nodes. -/
theorem Stored.leafFor {b : Int → Option Node} {h : Nat} {s : Shape h} (hs : Stored b s)
    (key : Value) : b (s.leafFor valueLess key).1 = some (leafBody (s.leafFor valueLess key).2) :=
  hs.leaves _ (by simp [BucketTree.leaves_eq valueLess key s])

theorem lookup_eq (hkeys : OrderedOn valueLess keys) (hrep : Represents keys t s m) {key : Value}
    (hkey : key ∈ keys) : t.lookup key = some (Multimap.find valueLess key m) := by
  obtain ⟨next, prev, hnode, -⟩ := exists_leaf (hrep.stored.leafFor key)
  simp only [lookup, hrep.root, findLeaf_eq hrep.stored hrep.height_lt, hnode, linked, leafBody,
    Option.bind_eq_bind, Option.bind_some]
  rw [findValues_eq, ← BucketTree.bucketOf_leaves hkeys hkey hrep.within, hrep.holds.bucketOf_eq hkeys hkey]

/-! ### Scanning -/

/-- Before the lower bound. -/
def skipped (lo : Option Value) (b : Value × List RecordID) : Bool :=
  lo.any fun lo => valueLess b.1 lo

/-- Behind the upper bound, where a scan ends. -/
def passed (hi : Option Value) (b : Value × List RecordID) : Bool :=
  hi.any fun hi => valueLess hi b.1

/-- What a scan collects: up to the first key that is neither skipped nor within the bounds. -/
def scanned (lo hi : Option Value) (l : List (Value × List RecordID)) : List RecordID :=
  ((l.takeWhile fun b => skipped lo b || !passed hi b).filter fun b => !skipped lo b).flatMap Prod.snd

theorem scanned_append (lo hi : Option Value) (l l' : List (Value × List RecordID)) :
    scanned lo hi (l ++ l') = if l.any fun b => !skipped lo b && passed hi b then scanned lo hi l
      else scanned lo hi l ++ scanned lo hi l' := by
  induction l with
  | nil => rfl
  | cons b l ih =>
    simp only [scanned] at ih ⊢
    cases hany : l.any fun b => !skipped lo b && passed hi b <;> cases hs : skipped lo b <;>
      cases hp : passed hi b <;> simp [hs, hp, ih, hany]

theorem scanLeaf_eq (lo hi : Option Value) (l : List (Value × List RecordID))
    (out : List RecordID) : scanLeaf lo hi (l.map Prod.fst) (l.map Prod.snd) out =
      some (out ++ scanned lo hi l, l.any fun b => !skipped lo b && passed hi b) := by
  induction l generalizing out with
  | nil => simp [scanLeaf, scanned]
  | cons b l ih =>
    have hs : (lo.any fun lo => valueLess b.1 lo) = skipped lo b := rfl
    have hp : (hi.any fun hi => valueLess hi b.1) = passed hi b := rfl
    rw [List.map_cons, List.map_cons, scanLeaf, hs, hp]
    simp only [scanned] at ih ⊢
    cases hs : skipped lo b <;> cases hp : passed hi b <;> simp [hs, hp, ih]

/-- The walk from leaf to leaf. -/
theorem scan_eq (lo hi : Option Value) {leaves : List (Int × List (Value × List RecordID))}
    {before : Option Int}
    (hstored : ∀ x ∈ leaves, bodies t.nodes x.1 = some (leafBody x.2))
    (hchain : Chain (links t.nodes) before (leaves.map Prod.fst) none) {fuel : Nat}
    (hfuel : leaves.length ≤ fuel) (out : List RecordID) :
    t.scan lo hi fuel (leaves.map Prod.fst).head? out =
      some (out ++ scanned lo hi (BucketTree.bucketsOf leaves)) := by
  induction leaves generalizing before fuel out with
  | nil => simp [scan, scanned, BucketTree.bucketsOf]
  | cons x leaves ih =>
    obtain ⟨i, l⟩ := x
    rw [List.forall_mem_cons] at hstored
    obtain ⟨fuel, rfl⟩ := Nat.exists_eq_add_of_le' (Nat.lt_of_lt_of_le (Nat.succ_pos _) hfuel)
    obtain ⟨next, prev, hnode, hlink⟩ := exists_leaf hstored.1
    obtain ⟨hi', hrest⟩ := hchain
    obtain ⟨-, rfl⟩ : prev = before ∧ next = (leaves.map Prod.fst).head? := by
      simpa using hlink.symm.trans hi'
    rw [List.map_cons, List.head?_cons, scan]
    simp only [hnode, linked, leafBody, Option.bind_eq_bind, Option.bind_some, scanLeaf_eq]
    rw [BucketTree.bucketsOf_cons, scanned_append]
    split
    · rfl
    · rw [ih hstored.2 hrest (by simpa using hfuel), List.append_assoc]

/-- Nothing that comes behind a passed bucket is within the bounds. -/
theorem scanned_eq (hkeys : OrderedOn valueLess keys) {l : List (Value × List RecordID)}
    (hsorted : l.Pairwise fun a b => valueLess a.1 b.1) (hin : ∀ b ∈ l, b.1 ∈ keys)
    {lo hi : Option Value} (hhi : ∀ k ∈ hi, k ∈ keys) :
    scanned lo hi l = (l.filter fun b => Multimap.within valueLess lo hi b.1).flatMap Prod.snd := by
  induction l with
  | nil => rfl
  | cons b l ih =>
    rw [List.forall_mem_cons] at hin
    obtain ⟨hb, hsorted⟩ := List.pairwise_cons.mp hsorted
    have hwithin : Multimap.within valueLess lo hi b.1 = (!skipped lo b && !passed hi b) := rfl
    have ih := ih hsorted hin.2
    rw [List.filter_cons, hwithin]
    simp only [scanned] at ih ⊢
    cases hs : skipped lo b <;> cases hp : passed hi b
    case false.true =>
      have hrest : (l.filter fun b => Multimap.within valueLess lo hi b.1) = [] := by
        refine List.filter_eq_nil_iff.mpr fun x hx => ?_
        obtain ⟨u, rfl, hless⟩ : ∃ u, hi = some u ∧ valueLess u b.1 := by
          cases hi with
          | none => cases hp
          | some u => exact ⟨u, rfl, hp⟩
        have hxu := hkeys.strictWeakOn.trans (hhi u rfl) hin.1 (hin.2 x hx) hless (hb x hx)
        simp [Multimap.within, hxu]
      simp [hs, hp, hrest]
    all_goals simp [hs, hp, ih]

/-- What comes in the leaves before the one of the lower bound is skipped. -/
theorem scan_leafFor (hkeys : OrderedOn valueLess keys) (hrep : Represents keys t s m)
    {lo : Value} (hlo : lo ∈ keys) {hi : Option Value} (hhi : ∀ k ∈ hi, k ∈ keys) :
    scanned (some lo) hi
        ((s.leafFor valueLess lo).2 ++ BucketTree.bucketsOf (s.leavesBehind valueLess lo)) =
      Multimap.scan valueLess (some lo) hi m := by
  have hparts := BucketTree.buckets_parts valueLess lo s
  obtain ⟨hbefore, -⟩ := BucketTree.buckets_apart hkeys hlo hrep.within
  have hsorted := hrep.holds.sorted
  have hin := hrep.holds.keyed
  rw [hparts, List.append_assoc] at hsorted hin
  have hskip : ((BucketTree.bucketsOf (s.leavesBefore valueLess lo)).filter fun b =>
      Multimap.within valueLess (some lo) hi b.1) = [] :=
    List.filter_eq_nil_iff.mpr fun x hx => by simp [Multimap.within, hbefore x hx]
  rw [← hrep.holds.scan hkeys (fun k hk => by cases hk; exact hlo) hhi, hparts, List.append_assoc,
    List.filter_append, hskip, List.nil_append, scanned_eq hkeys
      (List.pairwise_append.mp hsorted).2.1 (fun b hb => hin b (List.mem_append_right _ hb)) hhi]

/-- A scan finds the elements between the bounds, by their keys and those of one key in the order
in which they were put in. -/
theorem rangeScan_eq (hkeys : OrderedOn valueLess keys) (hrep : Represents keys t s m)
    {lo hi : Option Value} (hlo : ∀ k ∈ lo, k ∈ keys) (hhi : ∀ k ∈ hi, k ∈ keys) :
    t.rangeScan lo hi = some (Multimap.scan valueLess lo hi m) := by
  have hstored := hrep.stored.leaves
  have hfuel : s.leaves.length ≤ t.allocated := by
    have hle := s.leaves_sublist.length_le
    rw [List.length_map] at hle
    exact hle.trans hrep.length_le
  cases lo with
  | none =>
    obtain ⟨n, hn⟩ : ∃ n, (s.leaves.map Prod.fst).head? = some n :=
      Option.isSome_iff_exists.mp (by simp [BucketTree.leaves_ne_nil])
    simp only [rangeScan, hrep.root, firstLeaf_eq hrep.stored hrep.height_lt, hn,
      Option.bind_eq_bind, Option.bind_some]
    rw [← hn, scan_eq none hi hstored hrep.chain hfuel, List.nil_append,
      scanned_eq hkeys hrep.holds.sorted hrep.holds.keyed hhi, hrep.holds.scan hkeys hlo hhi]
  | some lo =>
    have hleaves := BucketTree.leaves_eq valueLess lo s
    have hchain := hrep.chain
    rw [hleaves, List.map_append, chain_append] at hchain
    rw [hleaves] at hstored hfuel
    simp only [rangeScan, hrep.root, findLeaf_eq hrep.stored hrep.height_lt,
      Option.bind_eq_bind, Option.bind_some]
    have hbehind : (s.leafFor valueLess lo :: s.leavesBehind valueLess lo).length ≤
        t.allocated := by
      rw [List.length_append] at hfuel
      omega
    have hscan := scan_eq (some lo) hi (fun x hx => hstored x (List.mem_append_right _ hx))
      hchain.2 hbehind []
    rw [List.map_cons, List.head?_cons] at hscan
    rw [hscan, List.nil_append, BucketTree.bucketsOf_cons,
      scan_leafFor hkeys hrep (hlo lo rfl) hhi]

/-! ## Erasing -/

/-- Other buckets in a leaf of the tree. -/
theorem Stored.editLeaf {b : Int → Option Node} {h : Nat} {s : Shape h} (hs : Stored b s)
    (hnum : s.numbers.Nodup) (key : Value)
    (f : List (Value × List RecordID) → List (Value × List RecordID)) :
    Stored (Function.update b (s.leafFor valueLess key).1
      (some (leafBody (f (s.leafFor valueLess key).2)))) (s.editLeaf valueLess key f) := by
  induction h with
  | zero => exact Function.update_self _ _ _
  | succ h ih =>
    obtain ⟨i, ks⟩ := s
    have hleaf : ((ks.childFor valueLess key).leafFor valueLess key).1 ∈
        (ks.childFor valueLess key).numbers :=
      BucketTree.leaves_sublist _ |>.subset (by simp [BucketTree.leaves_eq valueLess key])
    have hbeside : Beside key (Function.update b
        ((ks.childFor valueLess key).leafFor valueLess key).1
        (some (leafBody (f ((ks.childFor valueLess key).leafFor valueLess key).2)))) i ks :=
      hs.beside hnum fun j _ hj => by
        have hne : j ≠ ((ks.childFor valueLess key).leafFor valueLess key).1 := fun he =>
          hj (he ▸ hleaf)
        exact Function.update_of_ne hne _ _
    exact hbeside.one (ih (hs.2 _ (ks.mem_kids_childFor valueLess key)) (apart_of_nodup key hnum).1)
      (BucketTree.editLeaf_spec valueLess key f _).2.2.2

/-- How many keys there are is not said by the nodes. -/
theorem Consists.withCount (hcon : Consists keys t s) (n : Int) :
    Consists keys { t with distinctKeys := n } s :=
  ⟨hcon.root, hcon.order, hcon.stored, hcon.chain, hcon.nodup, hcon.mem, hcon.live, hcon.within,
    hcon.small, hcon.sizes⟩

theorem pathFor_editLeaf (key : Value)
    (f : List (Value × List RecordID) → List (Value × List RecordID)) {h : Nat} (s : Shape h) :
    pathFor key (s.editLeaf valueLess key f) = pathFor key s := by
  induction h with
  | zero => rfl
  | succ h ih =>
    obtain ⟨i, ks⟩ := s
    have hchild := (Children.update_one_spec valueLess key
      ((ks.childFor valueLess key).editLeaf valueLess key f) ks).1
    dsimp only [BucketTree.editLeaf, pathFor]
    rw [Children.seps_update_none, hchild, ih]

/-- A leaf with fewer buckets. -/
theorem Consists.editLeaf (hkeys : OrderedOn valueLess keys) (hcon : Consists keys t s)
    {key : Value} {next prev : Option Int}
    {f : List (Value × List RecordID) → List (Value × List RecordID)}
    (hf : ∀ l, (f l).map Prod.fst |>.Sublist (l.map Prod.fst))
    (hlink : links t.nodes (s.leafFor valueLess key).1 = some (prev, next)) :
    Consists keys (t.put (s.leafFor valueLess key).1
      (linked (leafBody (f (s.leafFor valueLess key).2)) next prev)) (s.editLeaf valueLess key f) := by
  have hnumbers := BucketTree.editLeaf_numbers valueLess key f s
  have hleaves := BucketTree.editLeaf_leaves valueLess key f s
  have hids : (s.editLeaf valueLess key f).leaves.map Prod.fst = s.leaves.map Prod.fst := by
    rw [hleaves, BucketTree.leaves_eq valueLess key s, List.map_append, List.map_append,
      List.map_cons, List.map_cons]
  have hlinks : links (t.put (s.leafFor valueLess key).1
      (linked (leafBody (f (s.leafFor valueLess key).2)) next prev)).nodes = links t.nodes :=
    links_put hlink
  have hin : ∀ i, i ∉ s.numbers → i ≠ (s.leafFor valueLess key).1 := fun i hi he =>
    hi (s.leaves_sublist.subset (by rw [he]; simp [BucketTree.leaves_eq valueLess key s]))
  refine ⟨hcon.root.trans (BucketTree.editLeaf_spec valueLess key f s).2.2.2.symm, hcon.order, ?_, ?_,
    hnumbers ▸ hcon.nodup, hnumbers ▸ hcon.mem, fun i hi => ?_,
    BucketTree.editLeaf_within hkeys none_mem none_mem (from_none key) (below_none key) hf
      hcon.within, BucketTree.editLeaf_small hcon.small, ?_⟩
  · rw [put, bodies_update]
    exact hcon.stored.editLeaf hcon.nodup key f
  · rw [hids, hlinks]
    exact hcon.chain
  · rw [hnumbers] at hi
    exact (Function.update_of_ne (hin i hi) _ _).trans (hcon.live i hi)
  · have hsizes := hcon.sizes
    rw [BucketTree.leaves_eq valueLess key s] at hsizes
    rw [hleaves]
    intro x hx
    rw [List.mem_append, List.mem_cons] at hx
    rcases hx with hx | rfl | hx
    · exact hsizes x (by simp [hx])
    · have hlen := (hf (s.leafFor valueLess key).2).length_le
      rw [List.length_map, List.length_map] at hlen
      have := hsizes (s.leafFor valueLess key) (by simp)
      simp only [put]
      omega
    · exact hsizes x (by simp [hx])

/-- Nothing is left but an empty root. -/
structure Vacated (t : BPlusTree) (h : Nat) : Prop where
  order : 3 ≤ t.order
  root : bodies t.nodes t.root = some (emptyBody h)
  mem : 0 ≤ t.root ∧ t.root < (t.allocated : Int)
  live : ∀ i, i ≠ t.root → t.nodes i = none
  chain : h = 0 → links t.nodes t.root = some (none, none)

/-- What a loop has done that only frees and relinks nodes. -/
def Relinked (t t' : BPlusTree) : Prop :=
  t'.order = t.order ∧ t'.allocated = t.allocated ∧ t'.distinctKeys = t.distinctKeys

theorem Consists.prune (hkeys : OrderedOn valueLess keys) (hcon : Consists keys t s) (key : Value) :
    ∃ t', t.prune (s.leafFor valueLess key).1 (pathFor key s) = some t' ∧ Relinked t t' ∧
      ((∃ s', s.trim valueLess key = some s' ∧ Consists keys t' s') ∨
        s.trim valueLess key = none ∧ Vacated t' h) := by
  have hrootMem := s.root_mem_numbers
  rcases prune_eq key [] [] [] hcon.stored (by simpa using hcon.chain)
    (by simpa using hcon.nodup.sublist s.leaves_sublist) hcon.nodup (by simp)
    (fun _ => hcon.root) with
    ⟨s', nodes, htrim, hprune, hstored, hframe, hfreed, hchain⟩ |
    ⟨nodes, htrim, hprune, hstored, hframe, hfreed, hchain⟩
  · rw [List.append_nil] at hprune
    have hsub := BucketTree.trim_numbers htrim
    have hleaves := BucketTree.trim_leaves valueLess key s
    rw [htrim] at hleaves
    refine ⟨_, hprune, ⟨rfl, rfl, rfl⟩, .inl ⟨s', htrim,
      hcon.root.trans (BucketTree.trim_root htrim).symm, hcon.order, hstored, by simpa using hchain,
      hcon.nodup.sublist hsub, fun i hi => hcon.mem i (hsub.subset hi), fun i hi => ?_,
      BucketTree.trim_within hkeys none_mem none_mem (from_none key) (below_none key) hcon.within
        htrim, BucketTree.trim_small hcon.small htrim, fun x hx => hcon.sizes x ?_⟩⟩
    · rw [← bodies_eq_none]
      by_cases hin : i ∈ s.numbers
      · exact hfreed i hin hi
      · exact (hframe i hin).trans (bodies_eq_none.mpr (hcon.live i hin))
    · change s'.leaves = _ at hleaves
      rw [hleaves] at hx
      rw [BucketTree.leaves_eq valueLess key]
      rw [List.mem_append, List.mem_append] at hx
      rw [List.mem_append, List.mem_cons]
      refine hx.imp_right (Or.imp_left fun hx => ?_)
      split at hx
      · cases hx
      · exact List.mem_singleton.mp hx
  · rw [List.append_nil] at hprune
    refine ⟨_, hprune, ⟨rfl, rfl, rfl⟩, .inr ⟨htrim, hcon.order, by rw [hcon.root]; exact hstored,
      by rw [hcon.root]; exact hcon.mem _ hrootMem, fun i hi => ?_, fun hh => ?_⟩⟩
    · rw [hcon.root] at hi
      rw [← bodies_eq_none]
      by_cases hin : i ∈ s.numbers
      · exact hfreed i hin hi
      · exact (hframe i hin).trans (bodies_eq_none.mpr (hcon.live i hin))
    · subst hh
      rw [hcon.root]
      exact hchain.1

/-- The root goes as long as it has a single child. -/
theorem Consists.collapse (hcon : Consists keys t s) {fuel : Nat} (hfuel : h < fuel) :
    ∃ t', BPlusTree.collapse fuel t = some t' ∧ Relinked t t' ∧ Consists keys t' s.collapse.2 := by
  induction h generalizing t fuel with
  | zero =>
    obtain ⟨fuel, rfl⟩ := Nat.exists_eq_add_of_lt hfuel
    obtain ⟨next, prev, hnode, -⟩ := exists_leaf hcon.stored
    refine ⟨t, ?_, ⟨rfl, rfl, rfl⟩, hcon⟩
    rw [← show t.root = s.1 from hcon.root] at hnode
    simp [BPlusTree.collapse, hnode, linked, leafBody]
  | succ h ih =>
    obtain ⟨i, ks⟩ := s
    obtain ⟨fuel, rfl⟩ := Nat.exists_eq_add_of_lt hfuel
    obtain ⟨hnode, hlink⟩ := exists_inner hcon.stored.1
    have hroot : t.root = i := hcon.root
    cases ks with
    | last c =>
      have hnumbers : BucketTree.numbers (h := h + 1) (i, Children.last c) = i :: c.numbers := by
        simp [BucketTree.numbers_inner, Children.kids]
      have hnum := hcon.nodup
      have hin := hcon.mem
      have hlive := hcon.live
      rw [hnumbers] at hnum hin hlive
      obtain ⟨hic, hcnum⟩ := List.nodup_cons.mp hnum
      have hkept : ∀ j ∈ c.numbers, j ≠ i := fun j hj he => hic (he ▸ hj)
      have hc : Consists keys { t with nodes := Function.update t.nodes i none, root := c.root } c := by
        refine ⟨rfl, hcon.order, ?_, ?_, hcnum, fun j hj => hin j (List.mem_cons_of_mem i hj),
          fun j hj => ?_, hcon.within, hcon.small.2 c (by simp [Children.kids]), hcon.sizes⟩
        · refine (hcon.stored.2 c (by simp [Children.kids])).congr fun j hj => ?_
          rw [bodies_update, Function.update_of_ne (hkept j hj)]
        · exact hcon.chain.congr fun j hj =>
            links_update_of_ne (hkept j (c.leaves_sublist.subset hj))
        · by_cases hji : j = i
          · rw [hji]
            exact Function.update_self _ _ _
          · exact (Function.update_of_ne hji _ _).trans (hlive j (by simp [hji, hj]))
      obtain ⟨t', hcollapse, hrelinked, ht'⟩ := ih hc (show h < h + 1 + fuel by omega)
      refine ⟨t', ?_, hrelinked, ht'⟩
      rw [← hcollapse, BPlusTree.collapse, hroot]
      simp [hnode, innerBody, Children.kids, delete]
    | more c s rest =>
      refine ⟨t, ?_, ⟨rfl, rfl, rfl⟩, hcon⟩
      have hlen : (Children.more c s rest).kids.length ≠ 1 ∧
          (Children.more c s rest).kids.length ≠ 0 := by
        rw [Children.length_kids]
        simp [Children.seps]
      rw [BPlusTree.collapse, hroot]
      simp only [hnode, innerBody, Option.bind_eq_bind, Option.bind_some, Bool.not_false,
        Bool.true_and, List.isEmpty_iff_length_eq_zero, List.length_map, beq_iff_eq, hlen.1,
        hlen.2, if_false]
      rfl

/-- An empty root becomes an empty leaf. -/
theorem Vacated.collapse (hvac : Vacated t h) {fuel : Nat} (hfuel : 0 < fuel) :
    ∃ t', BPlusTree.collapse fuel t = some t' ∧ Relinked t t' ∧
      Consists keys t' (h := 0) (t.root, []) := by
  obtain ⟨fuel, rfl⟩ := Nat.exists_eq_add_of_le' hfuel
  have horder := hvac.order
  have hmem : ∀ i ∈ BucketTree.numbers (κ := Value) (ρ := RecordID) (h := 0) (t.root, []),
      i = t.root := fun i hi => List.mem_singleton.mp hi
  -- what is left to say once there is a leaf that is linked with nothing
  have hleaf : ∀ t' : BPlusTree, t'.root = t.root → t'.order = t.order →
      t'.allocated = t.allocated → bodies t'.nodes t.root = some (leafBody []) →
      links t'.nodes t.root = some (none, none) → (∀ i, i ≠ t.root → t'.nodes i = none) →
      Consists keys t' (h := 0) (t.root, []) := by
    intro t' hroot hord halloc hbody hlink hlive
    refine ⟨hroot, hord ▸ horder, hbody, ⟨hlink, trivial⟩, List.nodup_singleton _, fun i hi => ?_,
      fun i hi => hlive i fun he => hi (he ▸ List.mem_singleton_self _),
      ⟨.nil, fun x hx => by cases hx⟩, trivial, fun x hx => ?_⟩
    · rw [hmem i hi, halloc]
      exact hvac.mem
    · rw [List.mem_singleton.mp hx]
      simp only [List.length_nil]
      omega
  cases h with
  | zero =>
    obtain ⟨next, prev, hnode, -⟩ := exists_leaf hvac.root
    refine ⟨t, ?_, ⟨rfl, rfl, rfl⟩, hleaf t rfl rfl rfl hvac.root (hvac.chain rfl) hvac.live⟩
    simp [BPlusTree.collapse, hnode, linked, leafBody]
  | succ h =>
    obtain ⟨hnode, -⟩ := exists_inner hvac.root
    refine ⟨t.put t.root (leafBody []), ?_, ⟨rfl, rfl, rfl⟩,
      hleaf _ rfl rfl rfl ?_ ?_ fun i hi => (Function.update_of_ne hi _ _).trans (hvac.live i hi)⟩
    · simp [BPlusTree.collapse, hnode, innerBody, leafBody]
    · rw [put, bodies_update, Function.update_self]
      rfl
    · rw [put, links_update_self]
      rfl

/-- The buckets of the tree with one pair less in a leaf. -/
theorem Represents.editLeaf (hkeys : OrderedOn valueLess keys) (hrep : Represents keys t s m)
    {key : Value} (hkey : key ∈ keys) (rid : RecordID) :
    Holds valueLess keys
        (BucketTree.bucketsOf (s.editLeaf valueLess key (removeFrom valueLess key rid)).leaves)
        (Multimap.remove valueLess key rid m) ∧
      (BucketTree.bucketsOf (s.editLeaf valueLess key (removeFrom valueLess key rid)).leaves).length +
          (s.leafFor valueLess key).2.length =
        (BucketTree.bucketsOf s.leaves).length +
          (removeFrom valueLess key rid (s.leafFor valueLess key).2).length := by
  constructor
  · rw [BucketTree.removeFrom_buckets hkeys hkey rid hrep.within]
    exact hrep.holds.remove hkeys hkey rid
  · rw [BucketTree.editLeaf_leaves, BucketTree.buckets_parts valueLess key s,
      BucketTree.bucketsOf_append, BucketTree.bucketsOf_cons]
    simp only [List.length_append]
    omega

/-- What is left of the tree once a bucket has gone and the nodes left empty have been freed. -/
theorem Represents.pruned (hkeys : OrderedOn valueLess keys) (hrep : Represents keys t s m)
    {key : Value} (hkey : key ∈ keys) (rid : RecordID) (t₁ : BPlusTree)
    (hcon : Consists keys t₁ (s.editLeaf valueLess key (removeFrom valueLess key rid)))
    (hcount : t₁.distinctKeys =
      (BucketTree.bucketsOf (s.editLeaf valueLess key (removeFrom valueLess key rid)).leaves).length) :
    ∃ t₂ t₃, t₁.prune (s.leafFor valueLess key).1 (pathFor key s) = some t₂ ∧
      collapse t₂.allocated t₂ = some t₃ ∧ t₃.order = t₁.order ∧
      ∃ h', ∃ s' : Shape h', Represents keys t₃ s' (Multimap.remove valueLess key rid m) := by
  obtain ⟨hholds, -⟩ := hrep.editLeaf hkeys hkey rid
  obtain ⟨hbefore, hleaf, hbehind, -⟩ := BucketTree.editLeaf_spec valueLess key
    (removeFrom valueLess key rid) s
  have hpath : pathFor key (s.editLeaf valueLess key (removeFrom valueLess key rid)) =
      pathFor key s := pathFor_editLeaf key _ s
  have hbuckets := BucketTree.bucketsOf_trim valueLess key
    (s.editLeaf valueLess key (removeFrom valueLess key rid))
  have hrest : ∀ x ∈ (s.editLeaf valueLess key (removeFrom valueLess key rid)).leavesBefore
        valueLess key ++
      (s.editLeaf valueLess key (removeFrom valueLess key rid)).leavesBehind valueLess key,
      x.2 ≠ [] := by
    rw [hbefore, hbehind]
    cases h with
    | zero => simp [BucketTree.leavesBefore, BucketTree.leavesBehind]
    | succ h =>
      intro x hx
      refine hrep.filled h.succ_pos x ?_
      rw [BucketTree.leaves_eq valueLess key]
      simp only [List.mem_append, List.mem_cons] at hx ⊢
      tauto
  obtain ⟨t₂, hprune, ⟨hord₂, -, hdist₂⟩, hcase⟩ := hcon.prune hkeys key
  rw [hleaf, hpath] at hprune
  rcases hcase with ⟨s₂, htrim, hcon₂⟩ | ⟨htrim, hvac⟩
  · obtain ⟨t₃, hcollapse, ⟨hord₃, -, hdist₃⟩, hcon₃⟩ := hcon₂.collapse hcon₂.height_lt
    have hleaves := (BucketTree.collapse_spec keys s₂).1
    rw [htrim] at hbuckets
    change BucketTree.bucketsOf s₂.leaves = _ at hbuckets
    rw [← hbuckets, ← hleaves] at hholds hcount
    refine ⟨t₂, t₃, hprune, hcollapse, hord₃.trans hord₂, _, s₂.collapse.2, hcon₃, fun _ => ?_,
      hholds, (hdist₃.trans hdist₂).trans hcount⟩
    rw [hleaves]
    exact BucketTree.filled_of_trim htrim hrest
  · have hpos : 0 < t₂.allocated := by
      have := hvac.mem
      omega
    obtain ⟨t₃, hcollapse, ⟨hord₃, -, hdist₃⟩, hcon₃⟩ := hvac.collapse hpos
    rw [htrim] at hbuckets
    change [] = _ at hbuckets
    rw [← hbuckets] at hholds hcount
    exact ⟨t₂, t₃, hprune, hcollapse, hord₃.trans hord₂, 0, (t₂.root, []), hcon₃,
      fun hlt => absurd hlt (Nat.lt_irrefl 0), hholds, (hdist₃.trans hdist₂).trans hcount⟩

/-- The answer is whether there has been such a pair, and one of them goes. -/
theorem erase_represents (hkeys : OrderedOn valueLess keys) (hrep : Represents keys t s m)
    {key : Value} (hkey : key ∈ keys) (rid : RecordID) :
    ∃ t', t.erase key rid = some (t', Multimap.contains valueLess key rid m) ∧ t'.order = t.order ∧
      ∃ h', ∃ s' : Shape h', Represents keys t' s' (Multimap.remove valueLess key rid m) := by
  obtain ⟨next, prev, hnode, hlink⟩ := exists_leaf (hrep.stored.leafFor key)
  have hbucket : bucketOf valueLess key (s.leafFor valueLess key).2 =
      Multimap.find valueLess key m := by
    rw [← hrep.holds.bucketOf_eq hkeys hkey, BucketTree.bucketOf_leaves hkeys hkey hrep.within]
  have hcontains : rid ∈ bucketOf valueLess key (s.leafFor valueLess key).2 ↔
      Multimap.contains valueLess key rid m := by
    rw [hbucket]
    exact Multimap.mem_find
  have hstay : rid ∉ bucketOf valueLess key (s.leafFor valueLess key).2 →
      Multimap.contains valueLess key rid m = false ∧
      Multimap.remove valueLess key rid m = m := fun hnot => by
    rw [hcontains, Bool.not_eq_true] at hnot
    exact ⟨hnot, Multimap.remove_of_not_contains hnot⟩
  have hcon := hrep.toConsists.editLeaf hkeys (f := removeFrom valueLess key rid)
    (map_fst_removeFrom valueLess key rid) hlink
  obtain ⟨hholds, hlength⟩ := hrep.editLeaf hkeys hkey rid
  have hpruned := hrep.pruned hkeys hkey rid
  have hleaves := BucketTree.editLeaf_leaves valueLess key
    (removeFrom valueLess key rid) s
  have hdist := hrep.distinctKeys
  have hpos := removeFrom_position valueLess key rid (s.leafFor valueLess key).2
  have hequal : (fun k => same valueLess k key) = fun k => keyEqual k key := rfl
  rw [hequal] at hpos
  rw [erase, hrep.root, descend_eq hrep.stored hrep.height_lt, List.append_nil]
  simp only [hnode, linked, leafBody, Option.bind_eq_bind, Option.bind_some]
  cases hfind : ((s.leafFor valueLess key).2.map Prod.fst).findIdx? fun k => keyEqual k key with
  | none =>
    rw [hfind] at hpos
    obtain ⟨hfalse, hremove⟩ := hstay (by
      rw [bucketOf, List.find?_eq_none.mpr fun b hb => by simp [hpos b hb]]
      exact List.not_mem_nil)
    rw [hfalse, hremove]
    exact ⟨t, rfl, rfl, h, s, hrep⟩
  | some pos =>
    rw [hfind] at hpos
    obtain ⟨b, hb, -, hlist, hremoved⟩ := hpos
    rw [hlist] at hcontains hstay
    have hvalue : ((s.leafFor valueLess key).2.map Prod.snd)[pos]? = some b.2 := by
      rw [List.getElem?_map, hb]
      rfl
    simp only [hvalue, Option.bind_some]
    by_cases hrid : rid ∈ b.2
    · rw [if_neg (not_not_intro hrid), hcontains.mp hrid]
      obtain ⟨hlt, hat⟩ := List.getElem?_eq_some_iff.mp hb
      by_cases hempty : b.2.erase rid = []
      · -- the bucket goes, and the leaf as well if that was all
        rw [if_pos hempty] at hremoved
        have hlen := List.length_eraseIdx_of_lt hlt
        rw [hremoved] at hcon hlength
        obtain ⟨t₂, t₃, hprune, hcollapse, hord, hrest⟩ := hpruned
          { t.put (s.leafFor valueLess key).1 (linked
              (leafBody ((s.leafFor valueLess key).2.eraseIdx pos)) next prev) with
            distinctKeys := t.distinctKeys - 1 }
          (hcon.withCount _) (by dsimp only; omega)
        refine ⟨t₃, ?_, hord, hrest⟩
        rw [if_neg (not_not_intro hempty), List.eraseIdx_map, List.eraseIdx_map]
        refine (congrArg (fun o => Option.bind o _) hprune).trans ?_
        rw [Option.bind_some, hcollapse]
        rfl
      · rw [if_neg hempty] at hremoved
        rw [if_pos hempty]
        rw [hremoved] at hcon hlength hleaves
        have hkept : ((s.leafFor valueLess key).2.set pos (b.1, b.2.erase rid)).map Prod.fst =
            (s.leafFor valueLess key).2.map Prod.fst := by
          have hfst : ((s.leafFor valueLess key).2.map Prod.fst)[pos]? = some b.1 := by
            rw [List.getElem?_map, hb]
            rfl
          obtain ⟨hpos, hself⟩ := List.getElem?_eq_some_iff.mp hfst
          rw [List.map_set, ← hself, List.set_getElem_self]
        rw [List.length_set] at hlength
        refine ⟨t.put (s.leafFor valueLess key).1 (linked
          (leafBody ((s.leafFor valueLess key).2.set pos (b.1, b.2.erase rid))) next prev), ?_, rfl, h,
          _, ⟨hcon, fun hh x hx => ?_, hholds, ?_⟩⟩
        · rw [linked, leafBody, hkept, List.map_set]
          rfl
        · rw [hleaves, List.mem_append, List.mem_cons] at hx
          have hfilled := hrep.filled hh
          rw [BucketTree.leaves_eq valueLess key] at hfilled
          rcases hx with hx | rfl | hx
          · exact hfilled x (by simp [hx])
          · rw [ne_eq, ← List.length_eq_zero_iff, List.length_set]
            omega
          · exact hfilled x (by simp [hx])
        · simp only [put]
          omega
    · obtain ⟨hfalse, hremove⟩ := hstay hrid
      rw [if_pos hrid, hfalse, hremove]
      exact ⟨t, rfl, rfl, h, s, hrep⟩

end Operations

end BPlusTree

end Relite
