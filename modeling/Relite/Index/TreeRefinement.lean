import Relite.Index.NodePages

/-!
# The tree on pages is a sorted list of entries

What a walk from the root finds, what an insertion makes of the nodes on its path, and from
these that every run of insertions and erasures leaves the entries that a sorted list has.
-/
namespace Relite
open Lib Vm Backend Txn
open DiskBPlusTree (scanLeaf scan)

/-! ## The order of the entries -/

/-- An entry with one of the keys, and with numbers that an `int` holds. -/
def Keyed (keys : List Value) (e : Entry) : Prop := e.1 ∈ keys ∧ InRange e

theorem ridLess_asymm {a b : RecordID} (h : ridLess a b) : ridLess b a = false := by
  unfold ridLess at h ⊢
  split at h <;> split <;> simp only [decide_eq_true_eq, decide_eq_false_iff_not] at * <;> omega

theorem ridLess_split {a b c : RecordID} (h : ridLess a c) : ridLess a b ∨ ridLess b c := by
  unfold ridLess at h ⊢
  split at h <;> split <;> split <;> simp only [decide_eq_true_eq] at * <;> omega

theorem strictWeakOn_entryLess {keys : List Value} (h : Tree.Ordered keys) :
    StrictWeakOn (Keyed keys) entryLess where
  asymm a b ha hb hab := by
    rw [Tree.entryLess_iff] at hab
    by_contra hba
    rw [Bool.not_eq_false, Tree.entryLess_iff] at hba
    rcases hab with hab | ⟨hba', hrab⟩
    · rcases hba with hba | ⟨hab', -⟩
      · exact absurd hba (by simp [h.1 _ ha.1 _ hb.1 hab])
      · exact absurd hab (by simp [hab'])
    · rcases hba with hba | ⟨-, hrba⟩
      · exact absurd hba (by simp [hba'])
      · exact absurd hrba (by simp [ridLess_asymm hrab])
  split a b c ha hb hc hac := by
    simp only [Tree.entryLess_iff] at hac ⊢
    rcases hac with hac | ⟨hca, hrac⟩
    · exact (h.2 _ ha.1 _ hb.1 _ hc.1 hac).imp .inl .inl
    · by_cases hab : valueLess a.1 b.1
      · exact .inl (.inl hab)
      by_cases hbc : valueLess b.1 c.1
      · exact .inr (.inl hbc)
      -- neither key separates the two, so the record ids decide
      have hba : valueLess b.1 a.1 = false := by
        by_contra hba
        rw [Bool.not_eq_false] at hba
        exact (h.2 _ hb.1 _ hc.1 _ ha.1 hba).elim hbc (by simp [hca])
      have hcb : valueLess c.1 b.1 = false := by
        by_contra hcb
        rw [Bool.not_eq_false] at hcb
        exact (h.2 _ hc.1 _ ha.1 _ hb.1 hcb).elim (by simp [hca]) hab
      exact (ridLess_split hrac).imp (fun h => .inr ⟨hba, h⟩) (fun h => .inr ⟨hcb, h⟩)

/-- The same entry is neither less nor greater. -/
theorem sameEntry_iff {a b : Entry} :
    sameEntry a b ↔ entryLess a b = false ∧ entryLess b a = false := by
  constructor
  · intro h
    obtain ⟨hkey, hrid⟩ := Bool.and_eq_true_iff.mp h
    obtain ⟨hab, hba⟩ := Bool.and_eq_true_iff.mp hkey
    rw [Bool.not_eq_true'] at hab hba
    rw [beq_iff_eq] at hrid
    simp [entryLess, hab, hba, hrid, ridLess]
  · rintro ⟨hab, hba⟩
    by_contra hnot
    refine Bool.false_ne_true (hba.symm.trans (Tree.entryLess_total hab fun ⟨hkey, hrid⟩ => hnot ?_))
    simp [sameEntry, hkey, hrid]

/-! ## Walks from the root -/

section Walk

variable {pool : PageStore} {h : Nat} {t : Shape Entry h} {after : Int}

theorem findLeaf_eq (hstored : t.Stored (readNode pool) after) (e : Entry) {fuel : Nat}
    (hfuel : h < fuel) (path : List Int) : findLeaf pool e fuel t.root path =
      .ok ((t.leafFor entryLess e).1, t.pathFor entryLess e ++ path) := by
  obtain ⟨fuel, rfl⟩ : ∃ k, fuel = k + 1 := ⟨fuel - 1, by omega⟩
  induction h generalizing fuel path after with
  | zero =>
    have hnode : readNode pool t.root = leafNode after t.2 := hstored
    rw [findLeaf, hnode]
    rfl
  | succ h ih =>
    obtain ⟨i, ks⟩ := t
    have hnode : readNode pool i = innerNode ks.seps (ks.kids.map Shape.root) := hstored.1
    have hlinked : ks.Linked Shape.firstLeaf (Shape.Stored (readNode pool)) after := hstored.2
    obtain ⟨after', hchild, -⟩ := hlinked.update entryLess e
    obtain ⟨fuel, rfl⟩ : ∃ k, fuel = k + 1 := ⟨fuel - 1, by omega⟩
    have hnext : (ks.kids.map Shape.root).getD
        (ks.seps.takeWhile fun s => !entryLess e s).length (-1) =
          (ks.childFor entryLess e).root := by
      rw [List.getD_eq_getElem?_getD, List.getElem?_map, Children.kids_childFor]
      rfl
    change findLeaf pool e (fuel + 1 + 1) i path =
      .ok (((ks.childFor entryLess e).leafFor entryLess e).1,
        (ks.childFor entryLess e).pathFor entryLess e ++ [i] ++ path)
    rw [findLeaf, hnode, if_neg (by exact Bool.false_ne_true)]
    refine (congrArg (fun c => findLeaf pool e (fuel + 1) c (i :: path)) hnext).trans ?_
    rw [ih hchild _ fuel (by omega), List.append_assoc, List.singleton_append]

theorem firstLeaf_eq (hstored : t.Stored (readNode pool) after) {fuel : Nat} (hfuel : h < fuel) :
    firstLeaf pool fuel t.root = .ok t.firstLeaf := by
  obtain ⟨fuel, rfl⟩ : ∃ k, fuel = k + 1 := ⟨fuel - 1, by omega⟩
  induction h generalizing fuel after with
  | zero =>
    have hnode : readNode pool t.root = leafNode after t.2 := hstored
    rw [firstLeaf, hnode]
    rfl
  | succ h ih =>
    obtain ⟨i, ks⟩ := t
    have hnode : readNode pool i = innerNode ks.seps (ks.kids.map Shape.root) := hstored.1
    have hlinked : ks.Linked Shape.firstLeaf (Shape.Stored (readNode pool)) after := hstored.2
    obtain ⟨after', hfirst⟩ : ∃ after', ks.first.Stored (readNode pool) after' := by
      cases ks with
      | last c => exact ⟨after, hlinked⟩
      | more c s rest => exact ⟨_, hlinked.1⟩
    obtain ⟨fuel, rfl⟩ : ∃ k, fuel = k + 1 := ⟨fuel - 1, by omega⟩
    have hnext : (ks.kids.map Shape.root).headD (-1) = ks.first.root := by
      rw [List.headD_eq_head?_getD, List.head?_map, Children.head?_kids]
      rfl
    change firstLeaf pool (fuel + 1 + 1) i = .ok ks.first.firstLeaf
    rw [firstLeaf, hnode, if_neg (by exact Bool.false_ne_true)]
    exact (congrArg (firstLeaf pool (fuel + 1)) hnext).trans (ih hfirst fuel (by omega))

end Walk

/-! ## Scans -/

theorem scanLeaf_append (lo hi : Option Value) (es es' : List Entry) (out : List RecordID) :
    scanLeaf lo hi (es ++ es') out =
      if (scanLeaf lo hi es out).2 then scanLeaf lo hi es out
      else scanLeaf lo hi es' (scanLeaf lo hi es out).1 := by
  fun_induction scanLeaf lo hi es out <;> simp_all [scanLeaf]

theorem scanLeaf_eq (lo hi : Option Value) (es : List Entry) (out : List RecordID) :
    (scanLeaf lo hi es out).1 = out ++ Tree.rangeScan es lo hi := by
  fun_induction scanLeaf lo hi es out with
  | case1 out => simp [Tree.rangeScan]
  | case2 out e es hlo ih =>
    rw [ih, Tree.rangeScan, Tree.rangeScan, List.filter_cons_of_neg (by simpa using hlo)]
  | case3 out e es hlo hhi =>
    rw [Tree.rangeScan, List.filter_cons_of_pos (by simpa using hlo)]
    simp [hhi]
  | case4 out e es hlo hhi ih =>
    rw [ih, Tree.rangeScan, Tree.rangeScan, List.filter_cons_of_pos (by simpa using hlo)]
    simp [hhi]

/-- A scan from a leaf goes through what the leaves from there on hold. -/
theorem scan_eq {pool : PageStore} {leaves : List (Int × List Entry)}
    (hchained : Shape.Chained (readNode pool) (-1) leaves) (hne : ∀ l ∈ leaves, l.1 ≠ -1)
    (lo hi : Option Value) {fuel : Nat} (hfuel : leaves.length < fuel) (out : List RecordID) :
    scan pool lo hi fuel (Shape.start (-1) leaves) out =
      .ok (out ++ Tree.rangeScan (leaves.flatMap Prod.snd) lo hi) := by
  rw [← scanLeaf_eq]
  obtain ⟨fuel, rfl⟩ : ∃ k, fuel = k + 1 := ⟨fuel - 1, by omega⟩
  induction leaves generalizing fuel out with
  | nil => rfl
  | cons leaf leaves ih =>
    rw [List.forall_mem_cons] at hne
    rw [List.length_cons] at hfuel
    obtain ⟨fuel, rfl⟩ : ∃ k, fuel = k + 1 := ⟨fuel - 1, by omega⟩
    rw [scan, Shape.start, if_neg hne.1, hchained.1, List.flatMap_cons, scanLeaf_append]
    dsimp only [leafNode]
    split
    · rfl
    · exact ih hchained.2 hne.2 _ _ (by omega)

theorem ridLess_kMinRid {rid : RecordID} (h : rid.valid) : ridLess rid kMinRid = false := by
  have hvalid : 0 ≤ rid.pageId ∧ 0 ≤ rid.slotId := by simpa [RecordID.valid] using h
  unfold ridLess kMinRid
  dsimp only
  rw [if_pos (by omega)]
  simp only [decide_eq_false_iff_not]
  omega

/-- What is below the lower bound is not scanned. -/
theorem rangeScan_append {lo hi : Option Value} {front : List Entry}
    (hfront : ∀ x ∈ front, ∀ v ∈ lo, valueLess x.1 v) (hlo : lo = none → front = [])
    (es : List Entry) : Tree.rangeScan (front ++ es) lo hi = Tree.rangeScan es lo hi := by
  cases lo with
  | none => rw [hlo rfl, List.nil_append]
  | some v =>
    have hnone : front.filter (fun e => !(some v).any fun lo => valueLess e.1 lo) = [] := by
      rw [List.filter_eq_nil_iff]
      exact fun x hx => by simp [hfront x hx v rfl]
    rw [Tree.rangeScan, Tree.rangeScan, List.filter_append, hnone, List.nil_append]

/-! ## Nodes that are written -/

/-- What a leaf that is to have these entries has become: it stays one, or gives the upper half of
them to a new page. -/
inductive PutLeaf (pool pool' : PageStore) (pid next : Int) (entries : List Entry) :
    Option (Entry × Int) → Prop
  | whole (nodes : readNode pool' = Function.update (readNode pool) pid (leafNode next entries))
      (pages : pool'.numPages = pool.numPages) : PutLeaf pool pool' pid next entries none
  | split {mid : Nat} {up : Entry} (pos : 0 < mid) (first : entries[mid]? = some up)
      (nodes : readNode pool' = Function.update
        (Function.update (readNode pool) pool.numPages (leafNode next (entries.drop mid))) pid
        (leafNode pool.numPages (entries.take mid)))
      (pages : pool'.numPages = pool.numPages + 1) (number : IsInt32 pool.numPages) :
      PutLeaf pool pool' pid next entries (some (up, pool.numPages))

/-- The same of an inner node, whose middle separator goes to neither half. -/
inductive PutInner (pool pool' : PageStore) (pid : Int) (seps : List Entry) (children : List Int) :
    Option (Entry × Int) → Prop
  | whole (nodes : readNode pool' = Function.update (readNode pool) pid (innerNode seps children))
      (pages : pool'.numPages = pool.numPages) : PutInner pool pool' pid seps children none
  | split {mid : Nat} {up : Entry} (middle : seps[mid]? = some up)
      (nodes : readNode pool' = Function.update
        (Function.update (readNode pool) pool.numPages
          (innerNode (seps.drop (mid + 1)) (children.drop (mid + 1)))) pid
        (innerNode (seps.take mid) (children.take (mid + 1))))
      (pages : pool'.numPages = pool.numPages + 1) (number : IsInt32 pool.numPages) :
      PutInner pool pool' pid seps children (some (up, pool.numPages))

theorem wellFormed_leafNode {next : Int} {entries : List Entry} :
    WellFormed (leafNode next entries) ↔ IsInt32 next ∧ ∀ e ∈ entries, InRange e :=
  ⟨fun h => ⟨h.next, h.entries⟩, fun h => ⟨h.1, h.2, List.forall_mem_nil _, rfl⟩⟩

theorem wellFormed_innerNode {seps : List Entry} {children : List Int} :
    WellFormed (innerNode seps children) ↔ (∀ e ∈ seps, InRange e) ∧
      (∀ c ∈ children, IsInt32 c) ∧ children.length = seps.length + 1 :=
  ⟨fun h => ⟨h.entries, h.children, h.counts⟩,
    fun h => ⟨(by decide : IsInt32 (-1)), h.1, h.2.1, h.2.2⟩⟩

theorem isInt32_of_lt {n : Nat} (h : n < 2 ^ 31) : IsInt32 n := by
  unfold IsInt32
  norm_num at h ⊢
  omega

theorem forall_mem_insertIdx {α : Type} {p : α → Prop} {l : List α} {a : α} (hl : ∀ x ∈ l, p x)
    (ha : p a) (i : Nat) : ∀ x ∈ l.insertIdx i a, p x := fun _ hx =>
  (List.eq_or_mem_of_mem_insertIdx hx).elim (fun h => h ▸ ha) (hl _)

theorem insertLeaf_yields {pool : PageStore} {leafId : Int} {entries : List Entry} {next : Int}
    (hnode : readNode pool leafId = leafNode next entries) (pos : Nat) {e : Entry}
    (he : InRange e) : Yields (fun p : PageStore × Option (Entry × Int) =>
      PutLeaf pool p.1 leafId next (entries.insertIdx pos e) p.2)
        (insertLeaf pool leafId pos e) := by
  have hread := wellFormed_leafNode.mp (hnode ▸ wellFormed_readNode pool leafId)
  have hrange : ∀ x ∈ entries.insertIdx pos e, InRange x := forall_mem_insertIdx hread.2 he pos
  unfold insertLeaf
  rw [hnode]
  dsimp only [leafNode]
  generalize entries.insertIdx pos e = l at *
  have hwhole : WellFormed (leafNode next l) := wellFormed_leafNode.mpr ⟨hread.1, hrange⟩
  split
  · refine (writeNode_yields hwhole).bind fun pool' ⟨hnodes, hpages, _⟩ => ?_
    exact .ok (.whole hnodes hpages)
  rename_i hlarge
  have hright : WellFormed (leafNode next (l.drop (l.length / 2))) :=
    wellFormed_leafNode.mpr ⟨hread.1, fun x hx => hrange x (List.mem_of_mem_drop hx)⟩
  refine (allocNode_yields hright).bind fun ⟨pool₁, rightId⟩ ⟨hid, hnodes₁, hpages₁, hlt, hfits⟩ => ?_
  obtain rfl : rightId = pool.numPages := hid
  have hleft : WellFormed (leafNode pool.numPages (l.take (l.length / 2))) :=
    wellFormed_leafNode.mpr ⟨isInt32_of_lt hlt, fun x hx => hrange x (List.mem_of_mem_take hx)⟩
  refine (writeNode_yields hleft).bind fun pool' ⟨hnodes, hpages, _⟩ => ?_
  -- a leaf of one entry, too large for a page, would have gone to the new page whole
  have hmid : 0 < l.length / 2 := by
    rw [Nat.pos_iff_ne_zero]
    intro hzero
    rw [hzero, List.drop_zero, ← measure_eq hwhole] at hfits
    exact hlarge hfits
  have hget : l.drop (l.length / 2) = l[l.length / 2] :: l.drop (l.length / 2 + 1) :=
    List.drop_eq_getElem_cons (by omega)
  have hfirst : (l.drop (l.length / 2)).headD e = l[l.length / 2] := by rw [hget]; rfl
  rw [hfirst]
  refine .ok (.split hmid (List.getElem?_eq_getElem _) ?_ (hpages.trans hpages₁) (isInt32_of_lt hlt))
  rw [hnodes, hnodes₁]

theorem insertChild_yields {pool : PageStore} {parentId : Int} {seps : List Entry}
    {children : List Int} (hnode : readNode pool parentId = innerNode seps children) {up : Entry}
    (hup : InRange up) {childId : Int} (hchild : IsInt32 childId) :
    Yields (fun p : PageStore × Option (Entry × Int) => PutInner pool p.1 parentId
        (seps.insertIdx (seps.takeWhile fun s => entryLess s up).length up)
        (children.insertIdx ((seps.takeWhile fun s => entryLess s up).length + 1) childId) p.2)
      (insertChild pool parentId up childId) := by
  obtain ⟨hseps, hkids, hcount⟩ := wellFormed_innerNode.mp (hnode ▸ wellFormed_readNode pool parentId)
  have hpos := (List.takeWhile_prefix fun s => entryLess s up : _ <+: seps).length_le
  unfold insertChild
  rw [hnode]
  dsimp only [innerNode]
  generalize (seps.takeWhile fun s => entryLess s up).length = ip at *
  have hrange : ∀ x ∈ seps.insertIdx ip up, InRange x := forall_mem_insertIdx hseps hup ip
  have hints : ∀ c ∈ children.insertIdx (ip + 1) childId, IsInt32 c :=
    forall_mem_insertIdx hkids hchild (ip + 1)
  have hcounts : (children.insertIdx (ip + 1) childId).length =
      (seps.insertIdx ip up).length + 1 := by
    rw [List.length_insertIdx_of_le_length (by omega), List.length_insertIdx_of_le_length hpos,
      hcount]
  have hlong : 0 < (seps.insertIdx ip up).length := by
    rw [List.length_insertIdx_of_le_length hpos]
    omega
  generalize seps.insertIdx ip up = l at *
  generalize children.insertIdx (ip + 1) childId = cs at *
  split
  · have hwhole : WellFormed (innerNode l cs) := wellFormed_innerNode.mpr ⟨hrange, hints, hcounts⟩
    refine (writeNode_yields hwhole).bind fun pool' ⟨hnodes, hpages, _⟩ => ?_
    exact .ok (.whole hnodes hpages)
  have hright : WellFormed (innerNode (l.drop (l.length / 2 + 1)) (cs.drop (l.length / 2 + 1))) :=
    wellFormed_innerNode.mpr ⟨fun x hx => hrange x (List.mem_of_mem_drop hx),
      fun c hc => hints c (List.mem_of_mem_drop hc), by rw [List.length_drop, List.length_drop]; omega⟩
  refine (allocNode_yields hright).bind fun ⟨pool₁, rightId⟩ ⟨hid, hnodes₁, hpages₁, hlt, _⟩ => ?_
  obtain rfl : rightId = pool.numPages := hid
  have hleft : WellFormed (innerNode (l.take (l.length / 2)) (cs.take (l.length / 2 + 1))) :=
    wellFormed_innerNode.mpr ⟨fun x hx => hrange x (List.mem_of_mem_take hx),
      fun c hc => hints c (List.mem_of_mem_take hc), by rw [List.length_take, List.length_take]; omega⟩
  refine (writeNode_yields hleft).bind fun pool' ⟨hnodes, hpages, _⟩ => ?_
  have hmid : l.length / 2 < l.length := by omega
  have hmiddle : l.getD (l.length / 2) up = l[l.length / 2] := by
    rw [List.getD_eq_getElem?_getD, List.getElem?_eq_getElem hmid, Option.getD_some]
  rw [hmiddle]
  refine .ok (.split (List.getElem?_eq_getElem hmid) ?_ (hpages.trans hpages₁) (isInt32_of_lt hlt))
  rw [hnodes, hnodes₁]

/-! ## Insertion -/

theorem climb_append (pool : PageStore) (path path' : List Int) (split : Option (Entry × Int)) :
    climb pool (path ++ path') split =
      climb pool path split >>= fun p => climb p.1 path' p.2 := by
  induction path generalizing pool split with
  | nil =>
    cases split with
    | none => cases path' <;> rfl
    | some p =>
      rw [List.nil_append, climb]
      dsimp only [bind, Except.bind]
  | cons i path ih =>
    cases split with
    | none => cases path' <;> rfl
    | some p =>
      rw [List.cons_append, climb, climb, bind_assoc]
      exact congrArg _ (funext fun q => ih q.1 q.2)

section Grow

variable {keys : List Value} (hless : StrictWeakOn (Keyed keys) entryLess) {pool : PageStore}
include hless

/-- What the insertion of a new entry makes of a subtree on the way to its leaf. -/
theorem grow_yields {h : Nat} {t : Shape Entry h} {lo hi : Option Entry} {after : Int} {e : Entry}
    (he : Keyed keys e) (hlo : ∀ l ∈ lo, Keyed keys l) (hhi : ∀ u ∈ hi, Keyed keys u)
    (hfrom : From entryLess lo e) (hbelow : Below entryLess hi e)
    (ht : t.Within (Keyed keys) entryLess lo hi) (hstored : t.Stored (readNode pool) after)
    (hnodup : t.numbers.Nodup) (hlt : ∀ i ∈ t.numbers, i < (pool.numPages : Int))
    (hnew : ∀ x ∈ t.contents, entryLess x e ∨ entryLess e x) :
    Yields (fun p : PageStore × Option (Entry × Int) => ∃ g : Shape.Grown Entry h,
        g.Holds (Keyed keys) entryLess (readNode p.1) lo hi after t e ∧
        Rewritten (readNode pool) (readNode p.1) pool.numPages p.1.numPages t.numbers g.numbers ∧
        p.2 = g.upper ∧ ∀ q ∈ p.2, IsInt32 q.2 ∧ (pool.numPages : Int) ≤ q.2)
      (insertLeaf pool (t.leafFor entryLess e).1
          ((t.leafFor entryLess e).2.takeWhile fun x => entryLess x e).length e >>=
        fun p => climb p.1 (t.pathFor entryLess e) p.2) := by
  induction h generalizing lo hi after with
  | zero =>
    obtain ⟨i, l⟩ := t
    have hnode : readNode pool i = leafNode after l := hstored
    have hi : i < (pool.numPages : Int) := hlt i List.mem_cons_self
    have hleaf := insertLeaf_yields hnode (l.takeWhile fun x => entryLess x e).length he.2
    rw [← insertEntry_eq] at hleaf
    refine hleaf.bind fun ⟨pool', split⟩ hput => ?_
    cases hput with
    | whole hnodes hpages =>
      refine .ok ⟨.whole (i, insertEntry entryLess e l), ?_, ?_, rfl, by simp⟩
      · refine Shape.leaf_whole hless he hfrom hbelow ht hnew ?_
        exact hnodes ▸ Function.update_self _ _ _
      · rw [hnodes, hpages]
        exact .write hnodup List.mem_cons_self _
    | @split mid up hmid hfirst hnodes hpages hnum =>
      refine .ok ⟨.split (i, (insertEntry entryLess e l).take mid) up
        (pool.numPages, (insertEntry entryLess e l).drop mid), ?_, ?_, rfl, by simpa using hnum⟩
      · refine Shape.leaf_split hless he hfrom hbelow ht hnew hlo hmid hfirst ?_ ?_
        · exact hnodes ▸ Function.update_self _ _ _
        · rw [hnodes, Function.update_of_ne hi.ne', Function.update_self]
      · have halloc : Rewritten (readNode pool) _ _ _ _ _ :=
          .alloc hnodup hlt (leafNode after ((insertEntry entryLess e l).drop mid))
        rw [hnodes, hpages]
        exact (halloc.trans (.write halloc.nodup (List.mem_cons_of_mem _ List.mem_cons_self) _)).perm
          (.refl _) (List.Perm.swap _ _ _)
  | succ h ih =>
    obtain ⟨lo', hi', after', front, back, hplace⟩ :=
      Shape.exists_place hless he hlo hhi hfrom hbelow ht hstored
    obtain ⟨i, ks⟩ := t
    have hperm := Shape.numbers_perm (h := h) entryLess e (i, ks)
    have hsplit := List.nodup_append'.mp (hperm.nodup_iff.mp hnodup)
    have hchild := ih hplace.slot.lower hplace.slot.upper hplace.slot.from_ hplace.slot.below
      hplace.slot.child hplace.stored hsplit.1
      (fun j hj => hlt j (hperm.mem_iff.mpr (List.mem_append_left _ hj))) fun x hx => by
        refine hnew x ?_
        rw [hplace.holds]
        exact List.mem_append_left _ (List.mem_append_right _ hx)
    have hpath : ∀ p : PageStore × Option (Entry × Int),
        climb p.1 ((ks.childFor entryLess e).pathFor entryLess e ++ [i]) p.2 =
          climb p.1 ((ks.childFor entryLess e).pathFor entryLess e) p.2 >>=
            fun p => climb p.1 [i] p.2 := fun p => climb_append _ _ _ _
    change Yields _ (_ >>= fun p : PageStore × Option (Entry × Int) =>
      climb p.1 ((ks.childFor entryLess e).pathFor entryLess e ++ [i]) p.2)
    simp only [hpath, ← bind_assoc]
    refine hchild.bind fun ⟨pool₁, split⟩ ⟨g, hholds, hrewritten, hupper, hnum⟩ => ?_
    cases g with
    | whole c' =>
      obtain rfl : split = none := hupper
      obtain ⟨hg, hr⟩ := Shape.parent_whole hstored hnodup hlt hplace hless he hrewritten hholds
      exact .ok ⟨_, hg, hr, rfl, by simp⟩
    | split c' up r =>
      obtain rfl : split = some (up, r.root) := hupper
      obtain ⟨hroot, -, hup, hlup, huup, -⟩ := id hholds
      have hnode : readNode pool₁ i = innerNode ks.seps (ks.kids.map Shape.root) :=
        (Shape.node_of_child hnodup hlt hrewritten).trans hstored.1
      have hput := insertChild_yields hnode hup.2 (hnum _ rfl).1
      rw [← hplace.slot.seps c' up r hup hlup huup,
        ← hplace.slot.kids c' up r hup hlup huup Shape.root hroot] at hput
      refine hput.bind fun ⟨pool', split⟩ hput => ?_
      cases hput with
      | whole hnodes hpages =>
        obtain ⟨hg, hr⟩ :=
          Shape.parent_grow hnodup hlt hplace hless he hrewritten hholds hnodes
        exact .ok ⟨_, hg, hpages ▸ hr, rfl, by simp⟩
      | @split mid sep hmiddle hnodes hpages hnum' =>
        obtain ⟨kl, m, kr, hsplitAt, hlseps, hm, hrseps, hlkids, hrkids, -⟩ :=
          Children.splitAt_spec (List.getElem?_eq_some_iff.mp hmiddle).1
        obtain rfl : sep = m := Option.some.inj (hmiddle.symm.trans hm)
        rw [← hlseps, ← hrseps, ← List.map_take, ← List.map_drop, ← hlkids, ← hrkids] at hnodes
        obtain ⟨hg, hr⟩ :=
          Shape.parent_split hnodup hlt hplace hless he hrewritten hholds hsplitAt hlo hnodes
        have hle := hrewritten.le
        exact .ok ⟨_, hg, hpages ▸ hr, rfl, by simpa using ⟨hnum', hle⟩⟩

end Grow

/-! ## Whole trees -/

/-- The pages hold a tree with the entries of a list, in their order. -/
structure Represents (keys : List Value) (tree : DiskBPlusTree) (l : Tree) : Prop where
  valid : ∀ e ∈ l, e.2.valid
  laid : (tree.rootId = -1 ∧ l = []) ∨ ∃ (h : Nat) (t : Shape Entry h),
    t.Laid (Keyed keys) entryLess (readNode tree.pool) tree.pool.numPages ∧
      t.root = tree.rootId ∧ t.contents = l

theorem represents_nil (keys : List Value) (pool : PageStore) : Represents keys { pool } [] :=
  ⟨List.forall_mem_nil _, .inl ⟨rfl, rfl⟩⟩

section Laid

variable {keys : List Value} (hless : StrictWeakOn (Keyed keys) entryLess) {pool : PageStore}
  {h : Nat} {t : Shape Entry h}
  (ht : t.Laid (Keyed keys) entryLess (readNode pool) pool.numPages)
include ht

theorem root_ne : t.root ≠ -1 := fun hroot => by
  have := ht.nonneg _ (Shape.root_mem_numbers t)
  omega

theorem height_lt : h < pool.numPages + 1 := by
  have := Shape.height_lt_numbers t
  have := ht.length_numbers_le
  omega

include hless

theorem pairwise_contents : t.contents.Pairwise (fun a b => entryLess a b) ∧
    ∀ x ∈ t.contents, Keyed keys x := by
  obtain ⟨hsorted, hin⟩ := Shape.within_contents hless (by simp) (by simp) ht.within
  exact ⟨hsorted, fun x hx => (hin x hx).1⟩

/-- The leaf of an entry, and what the tree holds before and after it. -/
theorem exists_leafFor {e : Entry} (he : Keyed keys e) :
    ∃ next front back, readNode pool (t.leafFor entryLess e).1 =
        leafNode next (t.leafFor entryLess e).2 ∧
      t.contents = front ++ (t.leafFor entryLess e).2 ++ back ∧
      (∀ x ∈ front, Keyed keys x ∧ entryLess x e) ∧ (∀ x ∈ back, Keyed keys x ∧ entryLess e x) ∧
      ∀ l' : List Entry, l'.Sublist (t.leafFor entryLess e).2 →
        ∀ nodes', nodes' = Function.update (readNode pool) (t.leafFor entryLess e).1
          (leafNode next l') →
        ∃ t' : Shape Entry h, t'.root = t.root ∧ t'.contents = front ++ l' ++ back ∧
          t'.Laid (Keyed keys) entryLess nodes' pool.numPages := by
  obtain ⟨next, front, back, hnode, hcontents, hfront, hback, hput⟩ := Shape.exists_without hless he
    (by simp) (by simp) (by simp [From]) (by simp [Below]) ht.within ht.stored ht.nodup ht.lt
  refine ⟨next, front, back, hnode, hcontents, hfront, hback, fun l' hsub nodes' hnodes => ?_⟩
  obtain ⟨t', hroot, -, hwithin, hstored, hcontents', hrewritten⟩ := hput l' hsub nodes' hnodes
  exact ⟨t', hroot, hcontents', ht.of_rewritten hwithin hstored hrewritten⟩

end Laid

/-! ### Operations -/

section Operations

variable {keys : List Value} (hkeys : Tree.Ordered keys) {tree : DiskBPlusTree} {l : Tree}
  (hrep : Represents keys tree l)
include hkeys hrep

omit hrep in
/-- Whether an entry is stored shows at its place in its leaf. -/
theorem any_leaf {h : Nat} {t : Shape Entry h}
    (ht : t.Laid (Keyed keys) entryLess (readNode tree.pool) tree.pool.numPages)
    (hcontents : t.contents = l) {e : Entry} (he : Keyed keys e) :
    (t.leafFor entryLess e).2.any (fun x => sameEntry x e) = l.any (fun x => sameEntry x e) ∧
      (t.leafFor entryLess e).2[((t.leafFor entryLess e).2.takeWhile
        fun x => entryLess x e).length]?.any (fun x => sameEntry x e) =
        l.any (fun x => sameEntry x e) := by
  have hless := strictWeakOn_entryLess hkeys
  obtain ⟨next, front, back, -, hheld, hfront, hback, -⟩ := exists_leafFor hless ht he
  obtain ⟨hsorted, hP⟩ := pairwise_contents hless ht
  generalize (t.leafFor entryLess e).2 = leaf at *
  have hnone : ∀ es : List Entry, (∀ x ∈ es, Keyed keys x ∧ (entryLess x e ∨ entryLess e x)) →
      es.any (fun x => sameEntry x e) = false := fun es hes => by
    rw [List.any_eq_false]
    intro x hx hsame
    obtain ⟨hxe, hex⟩ := sameEntry_iff.mp hsame
    exact (hes x hx).2.elim (by simp [hxe]) (by simp [hex])
  have hany : leaf.any (fun x => sameEntry x e) = l.any (fun x => sameEntry x e) := by
    rw [← hcontents, hheld, List.any_append, List.any_append,
      hnone front fun x hx => ⟨(hfront x hx).1, .inl (hfront x hx).2⟩,
      hnone back fun x hx => ⟨(hback x hx).1, .inr (hback x hx).2⟩, Bool.false_or, Bool.or_false]
  refine ⟨hany, ?_⟩
  rw [hheld, List.append_assoc, List.pairwise_append, List.pairwise_append] at hsorted
  rw [← hany]
  refine any_same hless he hsorted.2.1.1 (fun x hx => hP x ?_) fun x => sameEntry_iff
  rw [hheld]
  exact List.mem_append_left _ (List.mem_append_right _ hx)

/-- The insertion of a stored entry writes nothing. -/
theorem insert_of_stored {key : Value} {rid : RecordID} (he : Keyed keys (key, rid))
    (hstored : l.any fun x => sameEntry x (key, rid)) : tree.insert key rid = .ok tree := by
  have hless := strictWeakOn_entryLess hkeys
  unfold DiskBPlusTree.insert
  rcases hrep.laid with ⟨-, rfl⟩ | ⟨h, t, ht, hroot, hcontents⟩
  · cases hstored
  have hne : tree.rootId ≠ -1 := hroot ▸ root_ne ht
  have hplace := (any_leaf hkeys ht hcontents he).2
  obtain ⟨next, -, -, hnode, -⟩ := exists_leafFor hless ht he
  rw [if_neg hne, ← hroot, findLeaf_eq ht.stored _ (height_lt ht)]
  dsimp only [bind, Except.bind]
  rw [hnode, if_pos (by exact hplace.trans hstored)]
  rfl

theorem insert_yields {key : Value} {rid : RecordID} (he : Keyed keys (key, rid))
    (hrid : rid.valid) :
    Yields (fun tree' => Represents keys tree' (l.insert key rid)) (tree.insert key rid) := by
  by_cases hany : l.any fun x => sameEntry x (key, rid)
  · rw [insert_of_stored hkeys hrep he hany]
    have hsame : l.insert key rid = l := if_pos hany
    exact .ok (hsame.symm ▸ hrep)
  have hless := strictWeakOn_entryLess hkeys
  unfold DiskBPlusTree.insert
  rcases hrep.laid with ⟨hroot, rfl⟩ | ⟨h, t, ht, hroot, hcontents⟩
  · rw [if_pos hroot]
    have hleaf : WellFormed (leafNode (-1) [(key, rid)]) :=
      wellFormed_leafNode.mpr ⟨by decide, by simpa using he.2⟩
    refine (allocNode_yields hleaf).bind ?_
    rintro ⟨pool, rootId⟩ ⟨hid, hnodes, hpages, -⟩
    obtain rfl : rootId = tree.pool.numPages := hid
    refine .ok ⟨by simpa [Tree.insert] using hrid, .inr ⟨0, (tree.pool.numPages, [(key, rid)]), ?_, rfl,
      by simp [Tree.insert, Shape.contents]⟩⟩
    have hlaid : Shape.Laid (h := 0) (Keyed keys) entryLess (readNode pool) (tree.pool.numPages + 1)
        ((tree.pool.numPages : Int), [(key, rid)]) :=
      .leaf (by rw [hnodes, Function.update_self]) he
    exact hpages ▸ hlaid
  have hne : tree.rootId ≠ -1 := hroot ▸ root_ne ht
  have hplace := (any_leaf hkeys ht hcontents he).2
  obtain ⟨next, -, -, hnode, -⟩ := exists_leafFor hless ht he
  rw [if_neg hne, ← hroot, findLeaf_eq ht.stored _ (height_lt ht)]
  refine Yields.ok_bind ?_
  rw [List.append_nil]
  dsimp only
  rw [hnode, if_neg (by exact fun hfound => hany (hplace.symm.trans hfound))]
  have hinsert : l.insert key rid = insertEntry entryLess (key, rid) l := by
    rw [Tree.insert, if_neg (by exact hany)]
    rfl
  have hnew : ∀ x ∈ t.contents, entryLess x (key, rid) ∨ entryLess (key, rid) x := by
    intro x hx
    rw [or_iff_not_imp_left, Bool.not_eq_true]
    refine fun hless => Tree.entryLess_total hless fun hsame => hany (List.any_eq_true.mpr ⟨x, ?_, ?_⟩)
    · exact hcontents ▸ hx
    · simp [sameEntry, hsame.1, hsame.2]
  have hvalid : ∀ x ∈ l.insert key rid, x.2.valid := by
    rw [hinsert]
    intro x hx
    rcases mem_insertEntry.mp hx with rfl | hx
    · exact hrid
    · exact hrep.valid x hx
  have hgrow := grow_yields hless he (by simp) (by simp) (by simp [From]) (by simp [Below]) ht.within
    ht.stored ht.nodup ht.lt hnew
  refine hgrow.bind_bind ?_
  rintro ⟨pool, split⟩ ⟨g, hholds, hrewritten, hupper, hnum⟩
  cases g with
  | whole t' =>
    obtain rfl : split = none := hupper
    obtain ⟨hroot', -, hwithin, hstored, hcontents'⟩ := hholds
    refine .ok ⟨hvalid, .inr ⟨h, t', ht.of_rewritten hwithin hstored hrewritten, hroot', ?_⟩⟩
    rw [hcontents', hcontents, hinsert]
  | split t' up r =>
    obtain rfl : split = some (up, r.root) := hupper
    have hroot' : t'.root = t.root := hholds.1
    have hup : Keyed keys up := hholds.2.2.1
    obtain ⟨hright, hle⟩ := hnum _ rfl
    have hrootInt : IsInt32 t.root := by
      have := ht.lt _ (Shape.root_mem_numbers t)
      have := ht.nonneg _ (Shape.root_mem_numbers t)
      unfold IsInt32 at hright ⊢
      dsimp only at hright hle
      omega
    have hwf : WellFormed (innerNode [up] [t.root, r.root]) :=
      wellFormed_innerNode.mpr ⟨by simpa using hup.2, by simpa using ⟨hrootInt, hright⟩, rfl⟩
    refine (allocNode_yields hwf).bind ?_
    rintro ⟨pool', rootId⟩ ⟨hid, hnodes, hpages, -⟩
    obtain rfl : rootId = pool.numPages := hid
    rw [← hroot'] at hnodes
    refine .ok ⟨hvalid, .inr ⟨h + 1, _, hpages ▸ ht.rooted hholds hrewritten hnodes, rfl, ?_⟩⟩
    change t'.contents ++ r.contents = _
    rw [hholds.2.2.2.2.2.2.2.2.2, hcontents, hinsert]

theorem erase_yields {key : Value} {rid : RecordID} (he : Keyed keys (key, rid)) :
    Yields (fun p => Represents keys p.1 (l.erase key rid) ∧
      p.2 = l.any fun x => sameEntry x (key, rid)) (tree.erase key rid) := by
  have hless := strictWeakOn_entryLess hkeys
  unfold DiskBPlusTree.erase
  rcases hrep.laid with ⟨hroot, rfl⟩ | ⟨h, t, ht, hroot, hcontents⟩
  · rw [if_pos hroot]
    exact .ok ⟨hrep, rfl⟩
  have hne : tree.rootId ≠ -1 := hroot ▸ root_ne ht
  have hany := (any_leaf hkeys ht hcontents he).1
  obtain ⟨next, front, back, hnode, hheld, hfront, -, hput⟩ := exists_leafFor hless ht he
  rw [if_neg hne, ← hroot, findLeaf_eq ht.stored _ (height_lt ht)]
  refine Yields.ok_bind ?_
  dsimp only
  rw [hnode]
  have hwf := wellFormed_leafNode.mp (hnode ▸ wellFormed_readNode tree.pool
    (t.leafFor entryLess (key, rid)).1)
  generalize (t.leafFor entryLess (key, rid)).1 = leafId at *
  generalize (t.leafFor entryLess (key, rid)).2 = leaf at *
  dsimp only [leafNode]
  cases hidx : leaf.findIdx? fun x => sameEntry x (key, rid) with
  | none =>
    have hnone : ∀ x ∈ leaf, sameEntry x (key, rid) = false := List.findIdx?_eq_none_iff.mp hidx
    have hfalse : l.any (fun x => sameEntry x (key, rid)) = false := by
      rw [← hany, List.any_eq_false]
      simpa using hnone
    refine .ok ⟨?_, hfalse.symm⟩
    have hkeep : l.erase key rid = l :=
      List.eraseP_of_forall_not fun x hx => List.any_eq_false.mp hfalse x hx
    rw [hkeep]
    exact hrep
  | some i =>
    have herase : leaf.eraseP (fun x => sameEntry x (key, rid)) = leaf.eraseIdx i := by
      rw [List.eraseP_eq_eraseIdx, hidx]
    have htrue : leaf.any fun x => sameEntry x (key, rid) := by
      obtain ⟨hi, hsame, -⟩ := List.findIdx?_eq_some_iff_getElem.mp hidx
      exact List.any_eq_true.mpr ⟨leaf[i], List.getElem_mem hi, hsame⟩
    have hwf' : WellFormed (leafNode next (leaf.eraseIdx i)) := wellFormed_leafNode.mpr
      ⟨hwf.1, fun x hx => hwf.2 x ((List.eraseIdx_sublist leaf i).subset hx)⟩
    refine (writeNode_yields hwf').bind fun pool' ⟨hnodes, hpages, _⟩ => ?_
    obtain ⟨t', hroot', hcontents', ht'⟩ := hput _ (List.eraseIdx_sublist leaf i) _ hnodes
    have hl : l.erase key rid = front ++ leaf.eraseIdx i ++ back := by
      obtain ⟨x, hx, hsame⟩ := List.any_eq_true.mp htrue
      change l.eraseP (fun x => sameEntry x (key, rid)) = _
      rw [← hcontents, hheld, List.append_assoc, List.eraseP_append_right _ fun y hy hsame => ?_,
        @List.eraseP_append_left _ (fun x => sameEntry x (key, rid)) x hsame _ _ hx, herase,
        List.append_assoc]
      exact Bool.false_ne_true ((sameEntry_iff.mp hsame).1.symm.trans (hfront y hy).2)
    refine .ok ⟨⟨fun x hx => hrep.valid x (List.eraseP_subset hx), .inr ⟨h, t', ?_, hroot', ?_⟩⟩,
      htrue.symm.trans hany⟩
    · exact hpages ▸ ht'
    · rw [hcontents', hl]

theorem rangeScan_eq {lo : Option Value} (hlo : ∀ v ∈ lo, v ∈ keys) (hi : Option Value) :
    tree.rangeScan lo hi = .ok (l.rangeScan lo hi) := by
  have hless := strictWeakOn_entryLess hkeys
  unfold DiskBPlusTree.rangeScan
  rcases hrep.laid with ⟨hroot, rfl⟩ | ⟨h, t, ht, hroot, hcontents⟩
  · rw [if_pos hroot]
    rfl
  have hne : tree.rootId ≠ -1 := hroot ▸ root_ne ht
  obtain ⟨hchained, hstart⟩ := Shape.chained_leaves ht.stored
  have hids : ∀ leaf ∈ t.leaves, leaf.1 ≠ -1 := fun leaf hleaf => by
    have := ht.nonneg _ (Shape.mem_numbers_of_leaves leaf hleaf)
    omega
  have hlen : t.leaves.length < tree.pool.numPages + 1 :=
    Nat.lt_succ_of_le ((Shape.length_leaves_le t).trans ht.length_numbers_le)
  rw [if_neg hne, ← hroot]
  cases lo with
  | none =>
    dsimp only
    rw [firstLeaf_eq ht.stored (height_lt ht), ← hstart]
    refine (scan_eq hchained hids none hi hlen []).trans ?_
    rw [Shape.flatMap_leaves, hcontents, List.nil_append]
  | some v =>
    have he : Keyed keys (v, kMinRid) := ⟨hlo v rfl, (by decide : IsInt32 (-1)), (by decide : IsInt32 (-1))⟩
    obtain ⟨front, back, hleaves, hfront, -⟩ := Shape.exists_leaves hless he (by simp) (by simp)
      (by simp [From]) (by simp [Below]) ht.within ht.stored
    dsimp only
    rw [findLeaf_eq ht.stored _ (height_lt ht)]
    rw [hleaves, Shape.Chained.append] at hchained
    rw [hleaves, List.length_append] at hlen
    have hids' : ∀ leaf ∈ t.leafFor entryLess (v, kMinRid) :: back, leaf.1 ≠ -1 :=
      fun leaf hleaf => hids leaf (by rw [hleaves]; exact List.mem_append_right _ hleaf)
    refine (scan_eq hchained.2 hids' (some v) hi (by omega) []).trans ?_
    rw [List.nil_append, ← hcontents, ← Shape.flatMap_leaves, hleaves, List.flatMap_append,
      rangeScan_append (fun x hx w hw => ?_) (by simp)]
    obtain rfl : v = w := Option.some.inj hw
    have hxless := (hfront x hx).2
    have hvalid := hrep.valid x (by
      rw [← hcontents, ← Shape.flatMap_leaves, hleaves, List.flatMap_append]
      exact List.mem_append_left _ hx)
    rw [Tree.entryLess_iff, ridLess_kMinRid hvalid] at hxless
    simpa using hxless

end Operations

/-! ## Runs -/

theorem run_yields {keys : List Value} (hkeys : Tree.Ordered keys) {tree : DiskBPlusTree} {l : Tree}
    (hrep : Represents keys tree l) {ops : List TreeOp}
    (hops : ∀ op ∈ ops, Keyed keys (op.key, op.rid) ∧ op.rid.valid) :
    Yields (fun p => Represents keys p.1 (Tree.run l ops).1 ∧ p.2 = (Tree.run l ops).2)
      (tree.run ops) := by
  induction ops generalizing tree l with
  | nil => exact .ok ⟨hrep, rfl⟩
  | cons op ops ih =>
    rw [List.forall_mem_cons] at hops
    cases op with
    | insert key rid =>
      exact (insert_yields hkeys hrep hops.1.1 hops.1.2).bind fun tree' h => ih h hops.2
    | erase key rid =>
      refine (erase_yields hkeys hrep hops.1.1).bind fun ⟨tree', found⟩ h => ?_
      refine (ih h.1 hops.2).bind fun ⟨tree'', answers⟩ h' => .ok ⟨h'.1, ?_⟩
      exact congrArg₂ List.cons h.2 h'.2

theorem takeWhile_eq_filter {α : Type} {p : α → Bool} {l : List α}
    (h : l.Pairwise fun a b => p b → p a) : l.takeWhile p = l.filter p := by
  induction l with
  | nil => rfl
  | cons a l ih =>
    rw [List.pairwise_cons] at h
    by_cases ha : p a
    · rw [List.takeWhile_cons_of_pos ha, List.filter_cons_of_pos ha, ih h.2]
    · rw [List.takeWhile_cons_of_neg ha, List.filter_cons_of_neg ha, eq_comm,
        List.filter_eq_nil_iff]
      exact fun b hb hpb => ha (h.1 b hb hpb)

theorem eraseP_eq_filter {α : Type} {p : α → Bool} {l : List α}
    (h : l.Pairwise fun a b => p a → p b = false) : l.eraseP p = l.filter fun x => !p x := by
  induction l with
  | nil => rfl
  | cons a l ih =>
    rw [List.pairwise_cons] at h
    by_cases ha : p a
    · rw [List.eraseP_cons_of_pos ha, List.filter_cons_of_neg (by simp [ha]), eq_comm,
        List.filter_eq_self]
      exact fun b hb => by simp [h.1 b hb ha]
    · rw [List.eraseP_cons_of_neg ha, List.filter_cons_of_pos (by simp [ha]), ih h.2]

/-- Neither below the lower nor above the upper bound. -/
def between (lo hi : Option Value) (e : Entry) : Bool :=
  !(lo.any fun lo => valueLess e.1 lo) && !(hi.any fun hi => valueLess hi e.1)

/-- A scan of entries in order, with bounds that are in order with them, stops where it may. -/
theorem rangeScan_eq_filter {keys : List Value} (hkeys : Tree.Ordered keys) {l : Tree}
    (hsorted : l.Pairwise fun a b => entryLess a b) (hl : ∀ e ∈ l, e.1 ∈ keys) {lo hi : Option Value}
    (hhi : ∀ v ∈ hi, v ∈ keys) : l.rangeScan lo hi = (l.filter (between lo hi)).map Prod.snd := by
  have hfilter : l.filter (between lo hi) =
      (l.filter fun e => !(lo.any fun lo => valueLess e.1 lo)).filter
        fun e => !(hi.any fun hi => valueLess hi e.1) := by
    rw [List.filter_filter]
    exact List.filter_congr fun e _ => Bool.and_comm _ _
  rw [Tree.rangeScan, hfilter, takeWhile_eq_filter]
  refine ((List.pairwise_iff_forall_sublist.mpr fun {a b} hab => ?_).sublist List.filter_sublist :
    List.Pairwise _ _)
  have hmem := hab.subset
  have ha := hl a (hmem (by simp))
  have hb := hl b (hmem (by simp))
  have hless : entryLess a b := List.pairwise_iff_forall_sublist.mp hsorted hab
  cases hi with
  | none => simp
  | some v =>
    have hnot : valueLess b.1 a.1 = false := by
      rw [Tree.entryLess_iff] at hless
      exact hless.elim (hkeys.1 _ ha _ hb) (·.1)
    intro hbelow
    have hle : valueLess v b.1 = false := by simpa using hbelow
    simpa using hkeys.not_less ha hb (hhi v rfl) hnot hle

theorem represents_run {pool : PageStore} {ops : List TreeOp}
    (hrids : ∀ op ∈ ops, op.rid.valid ∧ IsInt32 op.rid.pageId ∧ IsInt32 op.rid.slotId)
    {tree : DiskBPlusTree} {answers : List Bool}
    (hrun : ({ pool } : DiskBPlusTree).run ops = .ok (tree, answers)) {keys : List Value}
    (hkeys : Tree.Ordered keys) (hsub : ops.map TreeOp.key ⊆ keys) :
    Represents keys tree (Tree.run [] ops).1 ∧ answers = (Tree.run [] ops).2 :=
  (run_yields hkeys (represents_nil keys pool) fun op hop =>
    ⟨⟨hsub (List.mem_map_of_mem hop), (hrids op hop).2⟩, (hrids op hop).1⟩).of_eq_ok hrun

/-- From the empty tree on, the tree holds the entries that a sorted list holds after the same
operations: erasures find what is stored, scans return what is between their bounds, in order, and
an entry that is stored may be inserted again. Nodes have to fit their pages, and pages to have
numbers. -/
theorem diskBPlusTree_refines (pool : PageStore) {ops : List TreeOp}
    (hkeys : Tree.Ordered (ops.map TreeOp.key))
    (hrids : ∀ op ∈ ops, op.rid.valid ∧ IsInt32 op.rid.pageId ∧ IsInt32 op.rid.slotId)
    (hfits : ({ pool } : DiskBPlusTree).run ops ≠ .error .NodeTooLarge)
    (hpages : ({ pool } : DiskBPlusTree).run ops ≠ .error .NoPageNumber) :
    ∃ tree, ({ pool } : DiskBPlusTree).run ops = .ok (tree, (Tree.run [] ops).2) ∧
      ∀ l, l = (Tree.run [] ops).1 →
        l.Pairwise (fun a b => entryLess a b) ∧
        (∀ lo hi, Tree.Ordered (lo.toList ++ hi.toList ++ ops.map TreeOp.key) →
          tree.rangeScan lo hi = .ok ((l.filter (between lo hi)).map Prod.snd)) ∧
        (∀ key rid, Tree.Ordered (key :: ops.map TreeOp.key) →
          l.any (fun x => sameEntry x (key, rid)) → tree.insert key rid = .ok tree) ∧
        (∀ key rid, Tree.Ordered (key :: ops.map TreeOp.key) →
          l.erase key rid = l.filter fun x => !sameEntry x (key, rid)) ∧
        ∀ key, tree.lookup key = tree.rangeScan (some key) (some key) := by
  have hkeyed : ∀ op ∈ ops, Keyed (ops.map TreeOp.key) (op.key, op.rid) ∧ op.rid.valid :=
    fun op hop => ⟨⟨List.mem_map_of_mem hop, (hrids op hop).2⟩, (hrids op hop).1⟩
  have hyields := run_yields hkeys (represents_nil _ pool) hkeyed
  cases hrun : ({ pool } : DiskBPlusTree).run ops with
  | error fault =>
    rw [hrun] at hyields hfits hpages
    cases fault with
    | NodeTooLarge => exact absurd rfl hfits
    | NoPageNumber => exact absurd rfl hpages
    | Endless =>
      cases hyields with
      | error h => exact absurd rfl h
  | ok p =>
    obtain ⟨tree, answers⟩ := p
    obtain ⟨hrep, rfl⟩ := represents_run hrids hrun hkeys (List.Subset.refl _)
    refine ⟨tree, rfl, fun l hl => ?_⟩
    subst hl
    have hless := strictWeakOn_entryLess hkeys
    have hsorted : (Tree.run [] ops).1.Pairwise (fun a b => entryLess a b) ∧
        ∀ e ∈ (Tree.run [] ops).1, Keyed (ops.map TreeOp.key) e := by
      rcases hrep.laid with ⟨-, hnil⟩ | ⟨h, t, ht, -, hcontents⟩
      · simp [hnil]
      · exact hcontents ▸ pairwise_contents hless ht
    refine ⟨hsorted.1, fun lo hi hord => ?_, fun key rid hord hstored => ?_, fun key rid hord => ?_,
      fun key => rfl⟩
    · have hrep' := (represents_run hrids hrun hord (List.subset_append_right _ _)).1
      rw [rangeScan_eq hord hrep' (fun v hv => by simp [Option.mem_def.mp hv]) hi,
        rangeScan_eq_filter hord hsorted.1 (fun e he => List.mem_append_right _ (hsorted.2 e he).1)
          (fun v hv => by simp [Option.mem_def.mp hv])]
    · have hrep' := (represents_run hrids hrun hord (List.subset_cons_self _ _)).1
      obtain ⟨x, hx, hsame⟩ := List.any_eq_true.mp hstored
      have hrid : x.2 = rid := by
        simpa using (Bool.and_eq_true_iff.mp hsame).2
      have he : Keyed (key :: ops.map TreeOp.key) (key, rid) :=
        ⟨List.mem_cons_self, hrid ▸ (hsorted.2 x hx).2⟩
      exact insert_of_stored hord hrep' he hstored
    · refine eraseP_eq_filter (hsorted.1.imp_of_mem fun {a b} ha hb hab hsame => ?_)
      -- an entry that is less than another one is not the same as what that one is the same as
      by_contra hsame'
      rw [Bool.not_eq_false] at hsame'
      obtain ⟨hkeya, hrida⟩ := Bool.and_eq_true_iff.mp hsame
      obtain ⟨hkeyb, hridb⟩ := Bool.and_eq_true_iff.mp hsame'
      have hka := List.mem_cons_of_mem key (hsorted.2 a ha).1
      have hkb := List.mem_cons_of_mem key (hsorted.2 b hb).1
      have hkey : key ∈ key :: ops.map TreeOp.key := List.mem_cons_self
      obtain ⟨ha₁, ha₂⟩ := Bool.and_eq_true_iff.mp hkeya
      obtain ⟨hb₁, hb₂⟩ := Bool.and_eq_true_iff.mp hkeyb
      rw [Bool.not_eq_true'] at ha₁ ha₂ hb₁ hb₂
      rw [Tree.entryLess_iff] at hab
      rcases hab with hab | ⟨-, hab⟩
      · rcases hord.2 _ hka _ hkey _ hkb hab with h | h
        · exact Bool.false_ne_true (ha₁.symm.trans h)
        · exact Bool.false_ne_true (hb₂.symm.trans h)
      · rw [beq_iff_eq.mp hrida, beq_iff_eq.mp hridb] at hab
        exact Bool.false_ne_true ((ridLess_asymm hab).symm.trans hab)

/-- Two keys, of which the smaller one is erased. -/
theorem diskBPlusTree_refines_pair : ∃ tree,
    ({ pool := .empty } : DiskBPlusTree).run
      [.insert (.int 2) ⟨0, 1⟩, .insert (.int 1) ⟨0, 0⟩, .erase (.int 1) ⟨0, 0⟩] =
        .ok (tree, [true]) ∧
    tree.rangeScan (some (.int 1)) none = .ok [⟨0, 1⟩] := by
  have hok : (({ pool := .empty } : DiskBPlusTree).run
      [.insert (.int 2) ⟨0, 1⟩, .insert (.int 1) ⟨0, 0⟩, .erase (.int 1) ⟨0, 0⟩]).isOk := by
    decide +kernel
  obtain ⟨tree, hrun, hspec⟩ := @diskBPlusTree_refines .empty
    [.insert (.int 2) ⟨0, 1⟩, .insert (.int 1) ⟨0, 0⟩, .erase (.int 1) ⟨0, 0⟩] (by decide) (by decide)
    (fun h => by rw [h] at hok; cases hok) (fun h => by rw [h] at hok; cases hok)
  obtain ⟨-, hscan, -⟩ := hspec _ rfl
  exact ⟨tree, hrun, (hscan (some (.int 1)) none (by decide)).trans (by decide)⟩

end Relite
