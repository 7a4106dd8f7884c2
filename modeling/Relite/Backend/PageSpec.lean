import Relite.Backend.Compact

/-!
# The slotted page as a map from slots to records

`get` is the abstraction of a page: each operation is described by what it does to
`get`, to the slot count and to the page LSN. A page whose first write never reached
the disk reads as zeros; such a blank page holds no record and every operation
accepts it.
-/
namespace Relite.Backend
open Lib

namespace Page

structure Blank (p : Page) : Prop where
  slotCount_eq : p.slotCount = 0
  freeEnd_lt : p.freeEnd < HEADER_SIZE

/-- The pages the heap can hold. -/
def Ok (p : Page) : Prop := p.WF ∨ p.Blank

theorem Blank.get {p : Page} (h : p.Blank) (s : Nat) : p.get s = none :=
  get_of_ge p (by rw [h.slotCount_eq]; omega)

theorem blank_zero : Blank zero := ⟨rfl, by decide⟩

theorem pageLSN_zero : zero.pageLSN = 0 := by decide

@[simp] theorem slotCount_init : init.slotCount = 0 := rfl

@[simp] theorem freeEnd_init : init.freeEnd = 4096 := rfl

@[simp] theorem pageLSN_init : init.pageLSN = 0 := rfl

theorem wf_init : init.WF where
  arrayEnd_le := by simp
  freeEnd_le := by simp
  inside s h := by simp at h
  disjoint s t h := by simp at h

theorem get_init (s : Nat) : init.get s = none := get_of_ge _ (by simp)

/-- A dead slot does not matter to well-formedness. -/
theorem WF.of_fields {p q : Page} (h : p.WF) (hc : q.slotCount = p.slotCount)
    (hf : q.freeEnd = p.freeEnd)
    (hs : ∀ s : Nat, s < p.slotCount → q.slotAt s = p.slotAt s ∨ (q.slotAt s).2 = 0) : q.WF where
  arrayEnd_le := by rw [hc, hf]; exact h.arrayEnd_le
  freeEnd_le := by rw [hf]; exact h.freeEnd_le
  inside s hlt hl := by
    rw [hc] at hlt
    rcases hs s hlt with he | he
    · rw [he] at hl ⊢
      rw [hf]
      exact h.inside s hlt hl
    · exact absurd he hl
  disjoint s t hlt hlt' hst hl hl' := by
    rw [hc] at hlt hlt'
    rcases hs s hlt with he | he
    · rcases hs t hlt' with he' | he'
      · rw [he] at hl ⊢
        rw [he'] at hl' ⊢
        exact h.disjoint s t hlt hlt' hst hl hl'
      · exact absurd he' hl'
    · exact absurd he hl

/-! ## Page LSN stamps and formatting -/

theorem WF.setPageLSN {p : Page} (h : p.WF) (lsn : Nat) : (p.setPageLSN lsn).WF :=
  h.of_fields (by simp) (by simp) fun s _ => .inl (by simp)

theorem WF.slot_ge {p : Page} (h : p.WF) {s : Nat} (hs : s < p.slotCount)
    (hl : (p.slotAt s).2 ≠ 0) : 12 + 4 * p.slotCount ≤ (p.slotAt s).1 :=
  h.arrayEnd_le.trans (h.inside s hs hl).1

theorem WF.get_setPageLSN {p : Page} (h : p.WF) (lsn s : Nat) :
    (p.setPageLSN lsn).get s = p.get s := by
  refine get_congr (by simp) (by simp) fun hs hl => ?_
  have := h.slot_ge hs hl
  exact slice_setPageLSN _ _ (by omega)

theorem WF.stampLSN {p : Page} (h : p.WF) (lsn : Nat) : (p.stampLSN lsn).WF := by
  unfold Page.stampLSN
  split
  · exact h.setPageLSN lsn
  · exact h

theorem WF.get_stampLSN {p : Page} (h : p.WF) (lsn s : Nat) :
    (p.stampLSN lsn).get s = p.get s := by
  unfold Page.stampLSN
  split
  · exact h.get_setPageLSN lsn s
  · rfl

@[simp] theorem slotCount_stampLSN (p : Page) (lsn : Nat) :
    (p.stampLSN lsn).slotCount = p.slotCount := by
  unfold stampLSN
  split <;> simp

theorem pageLSN_stampLSN (p : Page) (lsn : Nat) :
    (p.stampLSN lsn).pageLSN = if lsn ≠ 0 then lsn % 2 ^ 64 else p.pageLSN := by
  unfold stampLSN
  split
  · exact pageLSN_setPageLSN p lsn
  · rfl

theorem WF.format {p : Page} (h : p.WF) : p.format = p := by
  have hle := h.arrayEnd_le
  unfold Page.format
  rw [if_neg]
  show ¬p.freeEnd < 12
  omega

theorem Blank.format {p : Page} (h : p.Blank) : p.format = init := by
  unfold Page.format
  rw [if_pos]
  exact h.freeEnd_lt

theorem Ok.wf_format {p : Page} (h : p.Ok) : p.format.WF := by
  rcases h with h | h
  · rwa [h.format]
  · rw [h.format]; exact wf_init

theorem Ok.get_format {p : Page} (h : p.Ok) (s : Nat) : p.format.get s = p.get s := by
  rcases h with h | h
  · rw [h.format]
  · rw [h.format, get_init, h.get]

theorem Ok.slotCount_format {p : Page} (h : p.Ok) : p.format.slotCount = p.slotCount := by
  rcases h with h | h
  · rw [h.format]
  · rw [h.format, slotCount_init, h.slotCount_eq]

theorem Ok.pageLSN_format {p : Page} (h : p.Ok) : p.format.pageLSN ≤ p.pageLSN := by
  rcases h with h | h
  · rw [h.format]
  · rw [h.format, pageLSN_init]
    exact Nat.zero_le _

/-! ## Placing a record -/

/-- What it takes for `q` to be `p` with `record` put into `slot`, below the old records. -/
theorem WF.of_placed {p q : Page} {record : Bytes} (h : p.WF) (slot n : Nat)
    (hrec : record ≠ []) (hn : p.slotCount ≤ n) (hslot : slot < n)
    (hfill : ∀ s, s < n → s ≠ slot → s < p.slotCount)
    (hroom : 12 + 4 * n + record.length ≤ p.freeEnd) (hcount : q.slotCount = n)
    (hfree : q.freeEnd = p.freeEnd - record.length)
    (hself : q.slotAt slot = (p.freeEnd - record.length, record.length))
    (hother : ∀ s : Nat, s < n → s ≠ slot → q.slotAt s = p.slotAt s)
    (hslice : ∀ off len, 12 + 4 * n ≤ off → q.bytes.slice off len =
      (p.bytes.blit (p.freeEnd - record.length) record).slice off len) :
    q.WF ∧ ∀ s : Nat, q.get s = if s = slot then some record else p.get s := by
  have hle := h.freeEnd_le
  have hlen : record.length ≠ 0 := by simpa using hrec
  refine ⟨⟨by omega, by omega, ?_, ?_⟩, ?_⟩
  · intro s hs hl
    rw [hcount] at hs
    by_cases he : s = slot
    · subst he
      rw [hself]
      exact ⟨by simp only; omega, by simp only; omega⟩
    · rw [hother s hs he] at hl ⊢
      have := h.inside s (hfill s hs he) hl
      omega
  · intro s t hs ht hst hls hlt
    rw [hcount] at hs ht
    by_cases hes : s = slot <;> by_cases het : t = slot
    · omega
    · subst hes
      rw [hother t ht het] at hlt ⊢
      have := h.inside t (hfill t ht het) hlt
      rw [hself]
      left; simp only; omega
    · subst het
      rw [hother s hs hes] at hls ⊢
      have := h.inside s (hfill s hs hes) hls
      rw [hself]
      right; simp only; omega
    · rw [hother s hs hes] at hls ⊢
      rw [hother t ht het] at hlt ⊢
      exact h.disjoint s t (hfill s hs hes) (hfill t ht het) hst hls hlt
  · intro s
    split
    · rename_i he
      subst he
      rw [get_eq_some_iff, hself]
      refine ⟨by omega, hlen, ?_⟩
      rw [hslice _ _ (by omega), Mem.slice_blit_self]
    · rename_i he
      by_cases hs : s < n
      · refine get_congr (by simp only [hcount, hs, hfill s hs he]) (hother s hs he) ?_
        intro hs' hl
        have := h.inside s hs' hl
        rw [hslice _ _ (by omega), Mem.slice_blit_of_disjoint _ _ (.inr (by omega))]
      · rw [get_of_ge q (by omega), get_of_ge p (by omega)]

theorem place_fields (p : Page) (slot n : Nat) (record : Bytes) (hslot : slot < n)
    (hroom : 12 + 4 * n + record.length ≤ p.freeEnd) :
    (p.place slot record).slotCount = p.slotCount ∧
      (p.place slot record).pageLSN = p.pageLSN ∧
      (p.place slot record).slotAt slot = (p.freeEnd - record.length, record.length) ∧
      (∀ s : Nat, s < n → s ≠ slot → (p.place slot record).slotAt s = p.slotAt s) ∧
      ∀ off len, 12 + 4 * n ≤ off → (p.place slot record).bytes.slice off len =
        (p.bytes.blit (p.freeEnd - record.length) record).slice off len := by
  have hlt := p.freeEnd_lt
  have ho : toU16 ((p.readU16 2 : Int) - record.length) = p.freeEnd - record.length :=
    toU16_sub (by show _ ≤ p.freeEnd; omega) hlt
  have hl : toU16 (record.length : Int) = record.length := toU16_ofNat (by omega)
  simp only [place, ho, hl]
  refine ⟨?_, ?_, ?_, ?_, ?_⟩
  · rw [slotCount_setSlot, slotCount_blit _ _ (by omega)]
  · rw [pageLSN_setSlot, pageLSN_blit _ _ (by omega)]
  · exact slotAt_setSlot_self _ _ (by omega) (by omega)
  · intro s hs hne
    rw [slotAt_setSlot_of_ne _ _ _ hne, slotAt_blit _ _ (by omega)]
  · intro off len hoff
    exact slice_setSlot _ _ _ (by omega)

/-! ## Insert -/

theorem WF.not_blank {p : Page} (h : p.WF) : ¬p.Blank := fun hb => by
  have h₁ := h.arrayEnd_le
  have h₂ : p.freeEnd < 12 := hb.freeEnd_lt
  omega

theorem freeSpace_eq (p : Page) : p.freeSpace = (p.freeEnd : Int) - (12 + 4 * p.slotCount) := by
  simp only [freeSpace, freeEnd, HEADER_SIZE, SLOT_SIZE]; omega

theorem usableSpace_eq (p : Page) :
    p.usableSpace = 4096 - (12 + 4 * p.slotCount) - (p.liveBytes : Int) := by
  simp only [usableSpace, PAGE_SIZE, HEADER_SIZE, SLOT_SIZE]; omega

/-- Making room by compaction, as `insert` and `redoSet` do once they know it suffices. -/
theorem makeRoom {p q : Page} (h : 12 + 4 * p.slotCount ≤ p.freeEnd → p.WF) {need : Int}
    (hneed : 0 ≤ need)
    (hroom : ¬(p.freeSpace < need ∧ p.usableSpace < need))
    (hq : q = if p.freeSpace < need then p.compact else p) :
    q.WF ∧ q.slotCount = p.slotCount ∧ q.pageLSN = p.pageLSN ∧ (∀ s : Nat, q.get s = p.get s) ∧
      12 + 4 * p.slotCount + need ≤ q.freeEnd := by
  have hf := p.freeSpace_eq
  have hu := p.usableSpace_eq
  by_cases hlt : p.freeSpace < need
  · rw [if_pos hlt] at hq
    subst hq
    have hfit : 12 + 4 * p.slotCount + p.liveBytes + need ≤ 4096 := by omega
    obtain ⟨hwf, hcount, hlsn, hfree, hget⟩ :=
      p.compact_spec (by simp only [PAGE_SIZE]; omega)
    refine ⟨hwf, hcount, hlsn, hget, ?_⟩
    simp only [PAGE_SIZE] at hfree
    omega
  · rw [if_neg hlt] at hq
    subst hq
    exact ⟨h (by omega), rfl, rfl, fun _ => rfl, by omega⟩

theorem Ok.wf_of_arrayEnd {p : Page} (h : p.Ok) (hle : 12 + 4 * p.slotCount ≤ p.freeEnd) :
    p.WF := by
  rcases h with h | h
  · exact h
  · have : p.freeEnd < 12 := h.freeEnd_lt
    omega

theorem insert_spec {p q : Page} {record : Bytes} {n : Nat} (h : p.Ok)
    (hins : p.insert record = some (q, n)) :
    n = p.slotCount ∧ record ≠ [] ∧ q.WF ∧ q.slotCount = p.slotCount + 1 ∧
      q.pageLSN = p.pageLSN ∧ record.length ≤ 4080 ∧
      ∀ s : Nat, q.get s = if s = n then some record else p.get s := by
  simp only [insert] at hins
  split at hins
  · cases hins
  rename_i hlen
  split at hins
  · cases hins
  rename_i hroom
  obtain ⟨p', hp'⟩ : ∃ p', p' = if p.freeSpace < (record.length : Int) + (SLOT_SIZE : Int)
      then p.compact else p := ⟨_, rfl⟩
  obtain ⟨hwf, hcount, hlsn, hget, hfree⟩ := makeRoom h.wf_of_arrayEnd (by omega) hroom hp'
  rw [← hp'] at hins
  simp only [SLOT_SIZE] at hfree
  have hrec : record ≠ [] := by rintro rfl; simp at hlen
  have hle := hwf.freeEnd_le
  simp only [PAGE_SIZE] at hle
  obtain ⟨hpcount, hplsn, hself, hother, hslice⟩ :=
    place_fields p' p'.slotCount (p'.slotCount + 1) record (by omega)
      (by omega)
  have hlt := p'.slotCount_lt
  have ho : toU16 ((p'.readU16 2 : Int) - record.length) = p'.freeEnd - record.length :=
    toU16_sub (by show _ ≤ p'.freeEnd; omega) p'.freeEnd_lt
  have hc : toU16 ((p'.slotCount : Int) + 1) = p'.slotCount + 1 := by
    have := toU16_ofNat (n := p'.slotCount + 1) (by omega)
    simpa using this
  obtain ⟨rfl, rfl⟩ : _ = q ∧ p'.slotCount = n := by simpa using hins
  rw [ho, hc]
  have hplaced := hwf.of_placed p'.slotCount (p'.slotCount + 1)
    (q := ((p'.place p'.slotCount record).writeU16 0 (p'.slotCount + 1)).writeU16 2
      (p'.freeEnd - record.length)) hrec
    (by omega) (by omega) (fun s hs hne => by omega) (by omega)
    (by rw [slotCount_writeFreeEnd, slotCount_writeCount _ (by omega)])
    (freeEnd_writeFreeEnd _ (by omega)) (by simpa using hself)
    (fun s hs hne => by simpa using hother s hs hne)
    (fun off len hoff => by
      rw [slice_writeU16 _ _ (by omega), slice_writeU16 _ _ (by omega), hslice off len hoff])
  refine ⟨hcount, hrec, hplaced.1, ?_, ?_, by omega, fun s => ?_⟩
  · rw [slotCount_writeFreeEnd, slotCount_writeCount _ (by omega), hcount]
  · rw [pageLSN_writeFreeEnd, pageLSN_writeCount, hplsn, hlsn]
  · rw [hplaced.2 s, hget s]

theorem insert_eq_none_iff (p : Page) (record : Bytes) :
    p.insert record = none ↔ record = [] ∨ 0xFFFF < record.length ∨
      (p.freeSpace < record.length + 4 ∧ p.usableSpace < record.length + 4) := by
  have hrec : record.length = 0 ↔ record = [] := List.length_eq_zero_iff
  simp only [insert, SLOT_SIZE]
  split
  · rename_i h
    simp only [true_iff]
    rcases h with h | h
    · exact .inl (hrec.mp h)
    · exact .inr (.inl h)
  · rename_i h
    split
    · rename_i h'
      simp only [true_iff]
      exact .inr (.inr (by simpa using h'))
    · rename_i h'
      simp only [reduceCtorEq, false_iff]
      rintro (h₁ | h₁ | h₁)
      · exact h (.inl (hrec.mpr h₁))
      · exact h (.inr h₁)
      · exact h' (by simpa using h₁)

/-- A record of 1 to 4080 bytes fits on a fresh page. -/
theorem insert_init_isSome {record : Bytes} (hne : record ≠ []) (hle : record.length ≤ 4080) :
    ∃ q, init.insert record = some (q, 0) := by
  have hsome : init.insert record ≠ none := by
    rw [Ne, insert_eq_none_iff]
    rintro (h | h | ⟨h, -⟩)
    · exact hne h
    · omega
    · rw [freeSpace_eq, freeEnd_init, slotCount_init] at h; omega
  obtain ⟨⟨q, n⟩, hq⟩ := Option.ne_none_iff_exists'.mp hsome
  obtain ⟨rfl, -⟩ := insert_spec (.inl wf_init) hq
  exact ⟨q, hq⟩

/-- The first record of a page lies at its end. -/
theorem freeEnd_insert_init {record : Bytes} {q : Page} {n : Nat} (hle : record.length ≤ 4080)
    (hins : init.insert record = some (q, n)) : q.freeEnd = 4096 - record.length := by
  have hroom : ¬init.freeSpace < (record.length : Int) + (SLOT_SIZE : Int) := by
    simp only [freeSpace_eq, freeEnd_init, slotCount_init, SLOT_SIZE]
    omega
  simp only [insert, hroom, false_and, if_false] at hins
  split at hins
  · cases hins
  · have hend : toU16 ((init.readU16 2 : Int) - record.length) = 4096 - record.length :=
      toU16_sub (a := 4096) (by omega) (by omega)
    simp only [hend, Option.some.injEq, Prod.mk.injEq] at hins
    rw [← hins.1, freeEnd_writeFreeEnd _ (by omega)]

/-! ## Erase and update in place -/

theorem WF.setSlot_dead {p : Page} (h : p.WF) (slot off : Nat) (hoff : off < 65536)
    (hslot : slot < p.slotCount) :
    (p.setSlot slot off 0).WF ∧
      ∀ s : Nat, (p.setSlot slot off 0).get s = if s = slot then none else p.get s := by
  have hself := slotAt_setSlot_self p slot hoff (by omega : 0 < 65536)
  refine ⟨h.of_fields (by simp) (by simp) fun s hs => ?_, fun s => ?_⟩
  · by_cases hss : s = slot
    · subst hss; right; rw [hself]
    · left; exact slotAt_setSlot_of_ne _ _ _ hss
  · split
    · rename_i he
      subst he
      rw [get_natCast, hself, if_neg (by simp)]
    · rename_i he
      refine get_congr (by simp) (slotAt_setSlot_of_ne _ _ _ he) fun hs hl => ?_
      have := h.slot_ge hs hl
      exact slice_setSlot _ _ _ (by omega)

theorem slot_of_get {p : Page} {slot : Int} {r : Bytes} (h : p.get slot = some r) :
    ∃ s : Nat, slot = s ∧ s < p.slotCount := by
  rcases Int.lt_or_le slot 0 with hneg | hpos
  · rw [get_of_neg p hneg] at h; cases h
  · obtain ⟨s, rfl⟩ := Int.eq_ofNat_of_zero_le hpos
    exact ⟨s, rfl, ((p.get_eq_some_iff s r).mp h).1⟩

theorem erase_eq_none_iff (p : Page) (slot : Int) : p.erase slot = none ↔ p.get slot = none := by
  simp [erase, get]

theorem Ok.wf_of_get {p : Page} (h : p.Ok) {slot : Int} {r : Bytes} (hr : p.get slot = some r) :
    p.WF := by
  rcases h with h | h
  · exact h
  · obtain ⟨s, rfl, hs⟩ := slot_of_get hr
    rw [h.slotCount_eq] at hs
    omega

theorem Ok.length_le_of_get {p : Page} (h : p.Ok) {slot : Int} {r : Bytes}
    (hr : p.get slot = some r) : r.length ≤ 4080 := by
  obtain ⟨s, rfl, hs⟩ := slot_of_get hr
  have hwf := h.wf_of_get hr
  obtain ⟨-, hl, rfl⟩ := (p.get_eq_some_iff s r).mp hr
  have hin := hwf.inside s hs hl
  have hend := hwf.arrayEnd_le
  simp only [PAGE_SIZE] at hin
  rw [Mem.length_slice]
  omega

theorem erase_spec {p q : Page} {slot : Int} (h : p.Ok) (he : p.erase slot = some q) :
    (∃ s : Nat, slot = s) ∧ q.WF ∧ q.slotCount = p.slotCount ∧ q.pageLSN = p.pageLSN ∧
      ∀ s : Nat, q.get s = if (s : Int) = slot then none else p.get s := by
  have hlive : ∃ r, p.get slot = some r := by
    rw [← Option.ne_none_iff_exists', Ne, ← erase_eq_none_iff, he]
    simp
  obtain ⟨r, hr⟩ := hlive
  obtain ⟨s, rfl, hs⟩ := slot_of_get hr
  have hwf := h.wf_of_get hr
  simp only [erase] at he
  split at he
  · cases he
    obtain ⟨hwf', hget⟩ := hwf.setSlot_dead s (p.slotAt s).1 (p.slotAt_fst_lt s) hs
    exact ⟨⟨s, rfl⟩, hwf', by simp, by simp, by simpa using hget⟩
  · cases he

theorem update_spec {p q : Page} {slot : Int} {record : Bytes} (h : p.Ok)
    (hu : p.update slot record = some q) :
    (∃ s : Nat, slot = s) ∧ record ≠ [] ∧ (p.get slot).isSome ∧ q.WF ∧
      q.slotCount = p.slotCount ∧ q.pageLSN = p.pageLSN ∧
      ∀ s : Nat, q.get s = if (s : Int) = slot then some record else p.get s := by
  simp only [update] at hu
  split at hu
  swap
  · cases hu
  rename_i hlive
  obtain ⟨r, hr⟩ := Option.isSome_iff_exists.mp ((p.isLive_iff slot).mp hlive)
  obtain ⟨s, rfl, hs⟩ := slot_of_get hr
  have hwf := h.wf_of_get hr
  obtain ⟨-, hl, -⟩ := (p.get_eq_some_iff s r).mp hr
  split at hu
  · cases hu
  rename_i hlen
  have hrec : record ≠ [] := by rintro rfl; simp at hlen
  have hge := hwf.slot_ge hs hl
  obtain ⟨hlow, hhigh⟩ := hwf.inside s hs hl
  simp only [PAGE_SIZE] at hhigh
  have hneed : toU16 (record.length : Int) = record.length := toU16_ofNat (by omega)
  rw [hneed] at hu
  cases hu
  have hself := slotAt_setSlot_self (Page.mk (p.bytes.blit (p.slotAt s).1 record)) s
    (p.slotAt_fst_lt s) (by omega : record.length < 65536)
  have hother : ∀ t : Nat, t < p.slotCount → t ≠ s →
      ((Page.mk (p.bytes.blit (p.slotAt s).1 record)).setSlot s (p.slotAt s).1
        record.length).slotAt t = p.slotAt t := by
    intro t ht hts
    rw [slotAt_setSlot_of_ne _ _ _ hts, slotAt_blit _ _ (by omega)]
  have hcount : ((Page.mk (p.bytes.blit (p.slotAt s).1 record)).setSlot s (p.slotAt s).1
      record.length).slotCount = p.slotCount := by
    rw [slotCount_setSlot, slotCount_blit _ _ (by omega)]
  have hfree : ((Page.mk (p.bytes.blit (p.slotAt s).1 record)).setSlot s (p.slotAt s).1
      record.length).freeEnd = p.freeEnd := by
    rw [freeEnd_setSlot, freeEnd_blit _ _ (by omega)]
  refine ⟨⟨s, rfl⟩, hrec, by simp [hr], ⟨?_, ?_, ?_, ?_⟩, hcount, ?_, fun t => ?_⟩
  · rw [hcount, hfree]; exact hwf.arrayEnd_le
  · rw [hfree]; exact hwf.freeEnd_le
  · intro t ht htl
    rw [hcount] at ht
    rw [hfree]
    by_cases hts : t = s
    · subst hts
      rw [hself]
      exact ⟨hlow, by simp only [PAGE_SIZE]; omega⟩
    · rw [hother t ht hts] at htl ⊢
      exact hwf.inside t ht htl
  · intro t u ht hu htu htl hul
    rw [hcount] at ht hu
    by_cases hts : t = s <;> by_cases hus : u = s
    · omega
    · subst hts
      rw [hother u hu hus] at hul ⊢
      have := hwf.disjoint t u ht hu htu hl hul
      rw [hself]
      simp only; omega
    · subst hus
      rw [hother t ht hts] at htl ⊢
      have := hwf.disjoint t u ht hu htu htl hl
      rw [hself]
      simp only; omega
    · rw [hother t ht hts] at htl ⊢
      rw [hother u hu hus] at hul ⊢
      exact hwf.disjoint t u ht hu htu htl hul
  · rw [pageLSN_setSlot, pageLSN_blit _ _ (by omega)]
  · simp only [Nat.cast_inj]
    split
    · rename_i hts
      subst hts
      rw [get_eq_some_iff, hcount, hself]
      refine ⟨hs, by simpa using hrec, ?_⟩
      rw [slice_setSlot _ _ _ (by omega), Mem.slice_blit_self]
    · rename_i hts
      by_cases ht : t < p.slotCount
      · refine get_congr (by rw [hcount]) (hother t ht hts) fun _ htl => ?_
        have hd := hwf.disjoint t s ht hs hts htl hl
        have := hwf.slot_ge ht htl
        rw [slice_setSlot _ _ _ (by omega), Mem.slice_blit_of_disjoint _ _ (by omega)]
      · rw [get_of_ge _ (by omega), get_of_ge _ (by omega)]

end Page

end Relite.Backend
