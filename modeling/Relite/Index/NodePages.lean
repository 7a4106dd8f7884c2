import Relite.Index.DiskBPlusTree

/-!
# Nodes on their pages

A node is read from its page as it was written to it, so what the pages of a pool hold may be
seen as nodes under page numbers.
-/
namespace Relite
open Lib Vm Backend Txn

/-! ## Bytes at an address -/

/-- The bytes at an address. -/
def At (d : Mem) (off : Nat) (bs : Bytes) : Prop := d.slice off bs.length = bs

theorem At.append {d : Mem} {off : Nat} {bs bs' : Bytes} :
    At d off (bs ++ bs') ↔ At d off bs ∧ At d (off + bs.length) bs' := by
  have hslice : d.slice off (bs.length + bs'.length) =
      d.slice off bs.length ++ d.slice (off + bs.length) bs'.length := by
    simp only [Mem.slice, List.range_add, List.map_append, List.map_map]
    refine congrArg _ (List.map_congr_left fun i _ => ?_)
    simp [Nat.add_assoc]
  rw [At, List.length_append, hslice]
  constructor
  · exact fun h => List.append_inj h (by simp)
  · rintro ⟨h, h'⟩
    rw [At] at h h'
    rw [h, h']

theorem At.cons {d : Mem} {off : Nat} {b : UInt8} {bs : Bytes} :
    At d off (b :: bs) ↔ d off = b ∧ At d (off + 1) bs := by
  rw [← List.singleton_append, At.append]
  simp [At, Mem.slice]

theorem At.readLE {d : Mem} {off w v : Nat} (h : At d off (toLE w v)) (hv : v < 256 ^ w) :
    d.readLE w off = v := by
  rw [At, length_toLE] at h
  rw [Mem.readLE, h, ofLE_toLE, Nat.mod_eq_of_lt hv]

theorem length_putI32 (n : Int) : (putI32 n).length = 4 := length_toLE _ _

theorem At.getI32 {d : Mem} {off : Nat} {n : Int} (h : At d off (putI32 n)) (hn : IsInt32 n) :
    getI32 d off = n := by
  have hlt := (bmod_toNat hn).1
  have hback := (bmod_toNat hn).2
  have hread : d.readLE 4 off = (n % 2 ^ 32).toNat := At.readLE h hlt
  unfold Relite.getI32
  rw [hread]
  exact hback

/-! ## Keys, entries and nodes -/

theorem decodeValue_encodeValue (v : Value) : decodeValue (encodeValue v) = v := by
  have hword : ∀ n : UInt64, ofLE ((toLE 8 n.toNat).take 8) = n.toNat := fun n => by
    rw [List.take_of_length_le (by simp), ofLE_toLE, Nat.mod_eq_of_lt (by simpa using n.toNat_lt)]
  cases v with
  | null => rfl
  | int n =>
    change Value.int (UInt64.ofNat (ofLE ((toLE 8 n.toUInt64.toNat).take 8))).toInt64 = _
    rw [hword, UInt64.ofNat_toNat]
    simp
  | bool b => cases b <;> rfl
  | text s => rfl
  | double bits =>
    change Value.double (UInt64.ofNat (ofLE ((toLE 8 bits.toNat).take 8))) = _
    rw [hword, UInt64.ofNat_toNat]

theorem length_encodeEntry (e : Entry) :
    (encodeEntry e).length = 2 + (encodeValue e.1).length + 8 := by
  simp only [encodeEntry, List.length_append, length_toLE, length_putI32]
  omega

/-- Entries with numbers that an `int` holds. -/
def InRange (e : Entry) : Prop := IsInt32 e.2.pageId ∧ IsInt32 e.2.slotId

theorem readEntries_of_at {d : Mem} {entries : List Entry} {pos : Nat}
    (h : At d pos (entries.flatMap encodeEntry)) (hrange : ∀ e ∈ entries, InRange e)
    (hshort : ∀ e ∈ entries, (encodeValue e.1).length < 2 ^ 16) :
    readEntries d entries.length pos =
      (entries, pos + (entries.flatMap encodeEntry).length) := by
  induction entries generalizing pos with
  | nil => rfl
  | cons e entries ih =>
    rw [List.forall_mem_cons] at hrange hshort
    have hlen := length_encodeEntry e
    rw [List.flatMap_cons, At.append, hlen, encodeEntry, At.append, At.append, At.append,
      length_toLE, length_putI32] at h
    obtain ⟨⟨hklen, hkey, hpage, hslot⟩, hrest⟩ := h
    have hk := hklen.readLE (by simpa using hshort.1)
    have hkey' : d.slice (pos + 2) (encodeValue e.1).length = encodeValue e.1 := hkey
    rw [← Nat.add_assoc, ← Nat.add_assoc] at hrest
    rw [List.length_cons, readEntries, hk, hkey', hpage.getI32 hrange.1.1,
      hslot.getI32 hrange.1.2, decodeValue_encodeValue, ih hrest hrange.2 hshort.2,
      List.flatMap_cons, List.length_append, hlen]
    simp only [Prod.mk.injEq, true_and]
    omega

theorem readChildren_of_at {d : Mem} {children : List Int} {pos : Nat}
    (h : At d pos (children.flatMap putI32)) (hrange : ∀ c ∈ children, IsInt32 c) :
    readChildren d children.length pos = children := by
  induction children generalizing pos with
  | nil => rfl
  | cons c children ih =>
    rw [List.forall_mem_cons] at hrange
    rw [List.flatMap_cons, At.append, length_putI32] at h
    rw [List.length_cons, readChildren, h.1.getI32 hrange.1, ih h.2 hrange.2]

/-- The numbers of a node are in range, and an inner node has a child more than separators. -/
structure WellFormed (view : NodeView) : Prop where
  next : IsInt32 view.nextLeaf
  entries : ∀ e ∈ view.entries, InRange e
  children : ∀ c ∈ view.children, IsInt32 c
  counts : view.children.length = if view.leaf then 0 else view.entries.length + 1

theorem isInt32_getI32 (d : Mem) (off : Nat) : IsInt32 (getI32 d off) := by
  have hlow := Int.le_bmod (x := (d.readLE 4 off : Int)) (m := 2 ^ 32) (by norm_num)
  have hhigh := Int.bmod_lt (x := (d.readLE 4 off : Int)) (m := 2 ^ 32) (by norm_num)
  unfold IsInt32 getI32
  norm_num at hlow hhigh ⊢
  omega

/-- Whatever is on a page, the node that is read from it is well formed. -/
theorem wellFormed_readNode (pool : PageStore) (pid : Int) : WellFormed (readNode pool pid) := by
  have hentries : ∀ (d : Mem) (n pos : Nat), ∀ e ∈ (readEntries d n pos).1, InRange e := by
    intro d n
    induction n with
    | zero => exact fun pos e he => by cases he
    | succ n ih =>
      intro pos e he
      rcases List.mem_cons.mp he with rfl | he
      · dsimp only [InRange]
        exact ⟨isInt32_getI32 _ _, isInt32_getI32 _ _⟩
      · exact ih _ e he
  have hlength : ∀ (d : Mem) (n pos : Nat), (readEntries d n pos).1.length = n := by
    intro d n
    induction n with
    | zero => exact fun _ => rfl
    | succ n ih => exact fun pos => congrArg (· + 1) (ih _)
  have hchildren : ∀ (d : Mem) (n pos : Nat), (readChildren d n pos).length = n ∧
      ∀ c ∈ readChildren d n pos, IsInt32 c := by
    intro d n
    induction n with
    | zero => exact fun pos => ⟨rfl, fun c hc => by cases hc⟩
    | succ n ih =>
      intro pos
      rw [readChildren, List.length_cons, List.forall_mem_cons]
      exact ⟨congrArg (· + 1) (ih _).1, isInt32_getI32 _ _, (ih _).2⟩
  unfold readNode
  constructor <;> dsimp only
  · exact isInt32_getI32 _ _
  · exact hentries _ _ _
  · intro c hc
    split at hc
    · cases hc
    · exact (hchildren _ _ _).2 c hc
  · split
    · rfl
    · rw [(hchildren _ _ _).1, hlength]

theorem length_encodeNode (view : NodeView) : (encodeNode view).length =
    8 + ((view.entries.flatMap encodeEntry).length +
      if view.leaf then 0 else (view.children.flatMap putI32).length) := by
  unfold encodeNode
  split <;> simp [length_putI32] <;> omega

theorem length_flatMap_putI32 (children : List Int) :
    (children.flatMap putI32).length = children.length * 4 := by
  induction children with
  | nil => rfl
  | cons c children ih => rw [List.flatMap_cons, List.length_append, ih, length_putI32]; simp; omega

theorem length_entries_le (entries : List Entry) :
    entries.length ≤ (entries.flatMap encodeEntry).length ∧
      ∀ e ∈ entries, (encodeValue e.1).length ≤ (entries.flatMap encodeEntry).length := by
  induction entries with
  | nil => simp
  | cons e entries ih =>
    have hlen := length_encodeEntry e
    rw [List.flatMap_cons, List.length_append, List.forall_mem_cons, List.length_cons]
    refine ⟨by omega, by omega, fun x hx => ?_⟩
    have := ih.2 x hx
    omega

/-- What `measure` counts is what is written. -/
theorem measure_eq {view : NodeView} (h : WellFormed view) :
    measure view.entries view.leaf = (encodeNode view).length := by
  have hfold : ∀ (entries : List Entry) (k : Nat),
      entries.foldl (fun bytes e => bytes + (2 + (encodeValue e.1).length + 8)) k =
        k + (entries.flatMap encodeEntry).length := by
    intro entries
    induction entries with
    | nil => exact fun k => rfl
    | cons e entries ih =>
      intro k
      rw [List.foldl_cons, ih, List.flatMap_cons, List.length_append, length_encodeEntry]
      omega
  have hcounts := h.counts
  rw [length_encodeNode, length_flatMap_putI32]
  rw [measure, hfold]
  split
  · omega
  · rw [if_neg (by assumption)] at hcounts
    omega

theorem readNode_of_at {pool : PageStore} {pid : Int} {view : NodeView} (h : WellFormed view)
    (hat : At (pool.page pid).bytes 0 (encodeNode view)) (hlen : (encodeNode view).length ≤ PAGE_SIZE) :
    readNode pool pid = view := by
  generalize hd : (pool.page pid).bytes = d at hat
  have hle := length_entries_le view.entries
  have hsize : (view.entries.flatMap encodeEntry).length < 2 ^ 16 := by
    rw [length_encodeNode] at hlen
    change _ ≤ 4096 at hlen
    omega
  rw [encodeNode, At.cons, At.cons, At.append, At.append, At.append, length_toLE, length_putI32] at hat
  obtain ⟨hleaf, -, hn, hnext, hentries, hchildren⟩ := hat
  have hcount : d.readLE 2 2 = view.entries.length := hn.readLE (by norm_num; omega)
  have hread := readEntries_of_at hentries h.entries fun e he => by
    have := hle.2 e he
    omega
  have hleaf' : (d 0 != 0) = view.leaf := by
    rw [hleaf]
    cases view.leaf <;> rfl
  have hnext' : getI32 d 4 = view.nextLeaf := hnext.getI32 h.next
  unfold readNode
  rw [hd]
  dsimp only
  rw [hcount, hread, hleaf', hnext']
  have hcounts := h.counts
  obtain ⟨leaf, next, entries, children⟩ := view
  dsimp only at *
  cases leaf with
  | true => simp [List.eq_nil_of_length_eq_zero hcounts]
  | false =>
    rw [if_neg (by simp)] at hchildren hcounts
    have hkids := readChildren_of_at hchildren h.children
    rw [hcounts] at hkids
    simpa using hkids

/-! ## Writing and allocating -/

/-- `x` comes to an end, with a result that satisfies `Q` unless a node or a number is too large. -/
inductive Yields {α : Type} (Q : α → Prop) : Except Fault α → Prop
  | ok {a : α} (h : Q a) : Yields Q (.ok a)
  | error {fault : Fault} (h : fault ≠ .Endless) : Yields Q (.error fault)

namespace Yields

variable {α β : Type} {x : Except Fault α} {Q : α → Prop}

theorem bind (h : Yields Q x) {f : α → Except Fault β} {R : β → Prop}
    (hf : ∀ a, Q a → Yields R (f a)) : Yields R (x >>= f) := by
  cases h with
  | ok h => exact hf _ h
  | error h => exact .error h

theorem ok_bind {a : α} {f : α → Except Fault β} {R : β → Prop} (h : Yields R (f a)) :
    Yields R (Except.ok a >>= f) := h

theorem bind_bind {γ : Type} {f : α → Except Fault β} {R : β → Prop} (h : Yields R (x >>= f))
    {g : β → Except Fault γ} {S : γ → Prop} (hg : ∀ b, R b → Yields S (g b)) :
    Yields S (x >>= fun a => f a >>= g) := by
  rw [← bind_assoc]
  exact h.bind hg

theorem of_eq_ok (h : Yields Q x) {a : α} (hx : x = .ok a) : Q a := by
  subst hx
  cases h with
  | ok h => exact h

end Yields

theorem writeNode_yields {pool : PageStore} {pid : Int} {view : NodeView}
    (hview : WellFormed view) : Yields (fun pool' =>
      readNode pool' = Function.update (readNode pool) pid view ∧
        pool'.numPages = pool.numPages ∧ (encodeNode view).length ≤ PAGE_SIZE)
      (writeNode pool pid view) := by
  unfold writeNode
  split
  · exact .error Fault.noConfusion
  rename_i hlen
  refine .ok ⟨funext fun i => ?_, rfl, Nat.le_of_not_lt hlen⟩
  by_cases hi : i = pid
  · subst hi
    rw [Function.update_self]
    refine readNode_of_at hview ?_ (Nat.le_of_not_lt hlen)
    simp only [PageStore.setPage, Function.update_self]
    exact Mem.slice_blit_self _ _ _
  · rw [Function.update_of_ne hi]
    simp only [readNode, PageStore.setPage, Function.update_of_ne hi]

theorem allocNode_yields {pool : PageStore} {view : NodeView} (hview : WellFormed view) :
    Yields (fun p : PageStore × Int =>
      p.2 = pool.numPages ∧ readNode p.1 = Function.update (readNode pool) pool.numPages view ∧
        p.1.numPages = pool.numPages + 1 ∧ pool.numPages < 2 ^ 31 ∧
        (encodeNode view).length ≤ PAGE_SIZE) (allocNode pool view) := by
  unfold allocNode
  split
  · exact .error Fault.noConfusion
  rename_i hnum
  refine (writeNode_yields hview).bind fun pool' ⟨hnodes, hpages, hfits⟩ =>
    .ok ⟨rfl, ?_, hpages, by omega, hfits⟩
  rw [hnodes]
  funext i
  by_cases hi : i = (pool.numPages : Int)
  · subst hi
    rw [Function.update_self (pool.numPages : Int) view (readNode pool)]
    exact Function.update_self _ _ _
  · simp only [Function.update_of_ne hi, readNode]

/-- A node that is measured to fit its page is read back as it was written. -/
theorem readNode_writeNode (pool : PageStore) (pid : Int) {view : NodeView} (h : WellFormed view)
    (hfits : measure view.entries view.leaf ≤ PAGE_SIZE) :
    ∃ pool', writeNode pool pid view = .ok pool' ∧ readNode pool' pid = view := by
  have hlen : ¬PAGE_SIZE < (encodeNode view).length := by
    rw [← measure_eq h]
    omega
  have hwrite : writeNode pool pid view = .ok _ := if_neg hlen
  refine ⟨_, hwrite, ?_⟩
  have hread := (Yields.of_eq_ok (writeNode_yields h) hwrite).1
  rw [hread, Function.update_self]

/-- An inner node with a number, a NaN and a text between its four children. -/
def mixedNode : NodeView where
  leaf := false
  nextLeaf := -1
  entries := [(.int (-1), ⟨7, 0⟩), (.double 0x7ff8000000000000, ⟨-1, -1⟩), (.text [0, 255], ⟨7, 3⟩)]
  children := [1, 2, 3, 4]

theorem readNode_writeNode_mixed : ∃ pool, writeNode .empty 5 mixedNode = .ok pool ∧
    readNode pool 5 = mixedNode :=
  readNode_writeNode .empty 5 ⟨by decide, by simp [mixedNode, InRange, IsInt32], by decide, by decide⟩
    (by decide)

end Relite
