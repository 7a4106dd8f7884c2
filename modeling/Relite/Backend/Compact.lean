import Relite.Backend.PageFields
import Mathlib.Data.List.Nodup

/-!
# Well-formed pages and compaction

In a well-formed page the slot array ends before the record area, and the live records
lie in the record area without overlap. Compaction keeps every slot's record and leaves
all of the dead space in one piece; it needs nothing of the page but that the live
records fit next to the slot array.
-/
namespace Relite.Backend
open Lib

namespace Page

structure WF (p : Page) : Prop where
  arrayEnd_le : 12 + 4 * p.slotCount ≤ p.freeEnd
  freeEnd_le : p.freeEnd ≤ PAGE_SIZE
  inside : ∀ s : Nat, s < p.slotCount → (p.slotAt s).2 ≠ 0 →
    p.freeEnd ≤ (p.slotAt s).1 ∧ (p.slotAt s).1 + (p.slotAt s).2 ≤ PAGE_SIZE
  disjoint : ∀ s t : Nat, s < p.slotCount → t < p.slotCount → s ≠ t →
    (p.slotAt s).2 ≠ 0 → (p.slotAt t).2 ≠ 0 →
    (p.slotAt s).1 + (p.slotAt s).2 ≤ (p.slotAt t).1 ∨
      (p.slotAt t).1 + (p.slotAt t).2 ≤ (p.slotAt s).1

theorem get_of_neg (p : Page) {slot : Int} (h : slot < 0) : p.get slot = none := by
  simp [get, isLive, h]

theorem get_natCast (p : Page) (s : Nat) :
    p.get s = if s < p.slotCount ∧ (p.slotAt s).2 ≠ 0 then
      some (p.bytes.slice (p.slotAt s).1 (p.slotAt s).2) else none := by
  by_cases hs : s < p.slotCount
  · by_cases hl : (p.slotAt s).2 = 0 <;> simp [get, isLive, hs, hl]
  · simp [get, isLive, hs]

theorem get_of_ge (p : Page) {s : Nat} (h : p.slotCount ≤ s) : p.get s = none := by
  rw [get_natCast, if_neg (by omega)]

theorem isLive_iff (p : Page) (slot : Int) : p.isLive slot = true ↔ (p.get slot).isSome := by
  simp only [get]
  split <;> simp_all

theorem get_eq_some_iff (p : Page) (s : Nat) (r : Bytes) :
    p.get s = some r ↔ s < p.slotCount ∧ (p.slotAt s).2 ≠ 0 ∧
      p.bytes.slice (p.slotAt s).1 (p.slotAt s).2 = r := by
  rw [get_natCast]
  split
  · simp_all
  · simp only [reduceCtorEq, false_iff]
    tauto

theorem length_of_get {p : Page} {s : Nat} {r : Bytes} (h : p.get s = some r) :
    r.length = (p.slotAt s).2 := by
  obtain ⟨-, -, hr⟩ := (p.get_eq_some_iff s r).mp h
  rw [← hr, Mem.length_slice]

theorem ne_nil_of_get {p : Page} {s : Nat} {r : Bytes} (h : p.get s = some r) : r ≠ [] := by
  obtain ⟨-, hl, -⟩ := (p.get_eq_some_iff s r).mp h
  intro hr
  exact hl (by rw [← length_of_get h, hr, List.length_nil])

/-- Two pages hold the same record in a slot that both read alike. -/
theorem get_congr {p q : Page} {s : Nat} (hc : s < q.slotCount ↔ s < p.slotCount)
    (hs : q.slotAt s = p.slotAt s)
    (hd : s < p.slotCount → (p.slotAt s).2 ≠ 0 →
      q.bytes.slice (p.slotAt s).1 (p.slotAt s).2 = p.bytes.slice (p.slotAt s).1 (p.slotAt s).2) :
    q.get s = p.get s := by
  rw [get_natCast, get_natCast, hs]
  by_cases h : s < p.slotCount ∧ (p.slotAt s).2 ≠ 0
  · rw [if_pos ⟨hc.mpr h.1, h.2⟩, if_pos h, hd h.1 h.2]
  · rw [if_neg (by rwa [hc]), if_neg h]

/-! ## Compaction -/

def recordBytes (live : List (Nat × Bytes)) : Nat := (live.map fun rec => rec.2.length).sum

@[simp] theorem recordBytes_nil : recordBytes [] = 0 := rfl

@[simp] theorem recordBytes_cons (rec : Nat × Bytes) (live : List (Nat × Bytes)) :
    recordBytes (rec :: live) = rec.2.length + recordBytes live := by
  simp [recordBytes]

theorem mem_liveRecords (p : Page) (s : Nat) (r : Bytes) :
    (s, r) ∈ p.liveRecords ↔ p.get s = some r := by
  simp only [liveRecords, List.mem_filterMap, List.mem_range, get_eq_some_iff]
  constructor
  · rintro ⟨t, ht, h⟩
    split at h
    · cases h
    · cases h; exact ⟨ht, ‹_›, rfl⟩
  · rintro ⟨hs, hl, hr⟩
    exact ⟨s, hs, by rw [if_neg hl, hr]⟩

theorem nodup_liveRecords (p : Page) : (p.liveRecords.map Prod.fst).Nodup := by
  rw [liveRecords, List.map_filterMap]
  refine List.nodup_range.filterMap ?_
  intro a b s ha hb
  simp only [Option.mem_def] at ha hb
  split at ha <;> split at hb <;> simp_all

private theorem foldl_add_eq (g : Nat → Nat) (l : List Nat) (a : Nat) :
    l.foldl (fun acc s => acc + g s) a = a + (l.map g).sum := by
  induction l generalizing a with
  | nil => simp
  | cons x l ih => simp [ih, Nat.add_assoc]

theorem liveBytes_eq_sum (p : Page) :
    p.liveBytes = ((List.range p.slotCount).map fun s : Nat => (p.slotAt s).2).sum := by
  rw [liveBytes, foldl_add_eq, Nat.zero_add]

theorem recordBytes_liveRecords (p : Page) : recordBytes p.liveRecords = p.liveBytes := by
  rw [liveBytes_eq_sum, liveRecords]
  induction List.range p.slotCount with
  | nil => rfl
  | cons s l ih =>
    by_cases h : (p.slotAt s).2 = 0
    · rw [List.filterMap_cons_none (by simp [h]), ih]
      simp [h]
    · rw [List.filterMap_cons_some (by rw [if_neg h])]
      simp [ih]

/-- The live bytes are those of the records that the slots hold. -/
theorem liveBytes_eq_get (p : Page) : p.liveBytes =
    ((List.range p.slotCount).map fun s : Nat => ((p.get s).map List.length).getD 0).sum := by
  rw [liveBytes_eq_sum]
  congr 1
  apply List.map_congr_left
  intro s hs
  rw [get_natCast]
  by_cases hl : (p.slotAt s).2 = 0 <;> simp_all

/-- What compaction has done to `p` once the records of `live` are moved. -/
structure Packed (p : Page) (live : List (Nat × Bytes)) (q : Page) (freeEnd : Nat) : Prop where
  count : q.slotCount = p.slotCount
  lsn : q.pageLSN = p.pageLSN
  total : freeEnd + recordBytes live = PAGE_SIZE
  bound : ∀ s r, (s, r) ∈ live → s < p.slotCount
  rest : ∀ s : Nat, s < p.slotCount → s ∉ live.map Prod.fst → q.slotAt s = p.slotAt s
  moved : ∀ s r, (s, r) ∈ live → (q.slotAt s).2 = r.length ∧ freeEnd ≤ (q.slotAt s).1 ∧
    (q.slotAt s).1 + r.length ≤ PAGE_SIZE ∧ q.bytes.slice (q.slotAt s).1 r.length = r
  apart : ∀ s r t r', (s, r) ∈ live → (t, r') ∈ live → s ≠ t →
    (q.slotAt s).1 + r.length ≤ (q.slotAt t).1 ∨ (q.slotAt t).1 + r'.length ≤ (q.slotAt s).1

theorem Packed.start (p : Page) : Packed p [] p PAGE_SIZE where
  count := rfl
  lsn := rfl
  total := rfl
  bound _ _ h := by simp at h
  rest _ _ _ := rfl
  moved _ _ h := by simp at h
  apart _ _ _ _ h := by simp at h

theorem recordBytes_append (a b : List (Nat × Bytes)) :
    recordBytes (a ++ b) = recordBytes a + recordBytes b := by
  simp [recordBytes]

theorem Packed.step {p q : Page} {live : List (Nat × Bytes)} {freeEnd s : Nat} {r : Bytes}
    (h : Packed p live q freeEnd) (hnew : s ∉ live.map Prod.fst) (hs : s < p.slotCount)
    (hroom : 12 + 4 * p.slotCount + r.length ≤ freeEnd) :
    Packed p (live ++ [(s, r)]) (compactStep (q, freeEnd) (s, r)).1
      (compactStep (q, freeEnd) (s, r)).2 := by
  have htotal : freeEnd + recordBytes live = 4096 := h.total
  have hfe : toU16 ((freeEnd : Int) - r.length) = freeEnd - r.length :=
    toU16_sub (by omega) (by omega)
  simp only [compactStep, hfe]
  set o := freeEnd - r.length with ho
  have hself := slotAt_setSlot_self (Page.mk (q.bytes.blit o r)) s
    (by omega : o < 65536) (by omega : r.length < 65536)
  -- the slots moved before keep their place, since `s` is not one of them
  have hother : ∀ t : Nat, t ≠ s → t < p.slotCount →
      ((Page.mk (q.bytes.blit o r)).setSlot s o r.length).slotAt t = q.slotAt t := by
    intro t hts ht
    rw [slotAt_setSlot_of_ne _ _ _ hts, slotAt_blit _ _ (by omega)]
  have hold : ∀ t r', (t, r') ∈ live → t ≠ s := by
    rintro t r' ht rfl
    exact hnew (List.mem_map_of_mem ht)
  have hslice : ∀ off len, 12 + 4 * (s + 1) ≤ off →
      ((Page.mk (q.bytes.blit o r)).setSlot s o r.length).bytes.slice off len =
        (q.bytes.blit o r).slice off len := fun off len hoff => slice_setSlot _ _ _ hoff
  refine ⟨?_, ?_, ?_, ?_, ?_, ?_, ?_⟩
  · rw [slotCount_setSlot, slotCount_blit _ _ (by omega), h.count]
  · rw [pageLSN_setSlot, pageLSN_blit _ _ (by omega), h.lsn]
  · simp only [recordBytes_append, recordBytes_cons, recordBytes_nil, PAGE_SIZE]
    omega
  · intro t r' ht
    rcases List.mem_append.mp ht with ht | ht
    · exact h.bound t r' ht
    · simp only [List.mem_singleton, Prod.mk.injEq] at ht
      omega
  · intro t ht hmem
    have hts : t ≠ s := by rintro rfl; exact hmem (by simp)
    rw [hother t hts ht]
    exact h.rest t ht fun hm => hmem (by simp [hm])
  · intro t r' ht
    rcases List.mem_append.mp ht with ht | ht
    · obtain ⟨hlen, hlow, hhigh, hdata⟩ := h.moved t r' ht
      rw [hother t (hold t r' ht) (h.bound t r' ht)]
      refine ⟨hlen, by omega, hhigh, ?_⟩
      rw [hslice _ _ (by omega), Mem.slice_blit_of_disjoint _ _ (.inr (by omega)), hdata]
    · obtain ⟨rfl, rfl⟩ : t = s ∧ r' = r := by simpa using ht
      rw [hself]
      refine ⟨rfl, le_refl _, by simp only [PAGE_SIZE]; omega, ?_⟩
      rw [hslice _ _ (by omega), Mem.slice_blit_self]
  · intro t r₁ u r₂ ht hu htu
    rcases List.mem_append.mp ht with hold₁ | hnew₁ <;>
      rcases List.mem_append.mp hu with hold₂ | hnew₂
    · rw [hother t (hold t r₁ hold₁) (h.bound t r₁ hold₁),
        hother u (hold u r₂ hold₂) (h.bound u r₂ hold₂)]
      exact h.apart t r₁ u r₂ hold₁ hold₂ htu
    · obtain ⟨rfl, rfl⟩ : u = s ∧ r₂ = r := by simpa using hnew₂
      obtain ⟨-, hlow, -, -⟩ := h.moved t r₁ hold₁
      rw [hself, hother t htu (h.bound t r₁ hold₁)]
      right; show o + r₂.length ≤ _; omega
    · obtain ⟨rfl, rfl⟩ : t = s ∧ r₁ = r := by simpa using hnew₁
      obtain ⟨-, hlow, -, -⟩ := h.moved u r₂ hold₂
      rw [hself, hother u (hold u r₂ hold₂) (h.bound u r₂ hold₂)]
      left; show o + r₁.length ≤ _; omega
    · simp_all

theorem Packed.foldl {p : Page} (rest : List (Nat × Bytes)) :
    ∀ {live : List (Nat × Bytes)} {q : Page} {freeEnd : Nat}, Packed p live q freeEnd →
      ((live ++ rest).map Prod.fst).Nodup → (∀ s r, (s, r) ∈ rest → s < p.slotCount) →
      12 + 4 * p.slotCount + recordBytes rest ≤ freeEnd →
      Packed p (live ++ rest) (rest.foldl compactStep (q, freeEnd)).1
        (rest.foldl compactStep (q, freeEnd)).2 := by
  induction rest with
  | nil => intro live q freeEnd h _ _ _; simpa using h
  | cons rec rest ih =>
    obtain ⟨s, r⟩ := rec
    intro live q freeEnd h hnodup hbound hroom
    have hnew : s ∉ live.map Prod.fst := by
      simp only [List.map_append, List.map_cons] at hnodup
      intro hm
      exact (List.nodup_append.mp hnodup).2.2 s hm s (by simp) rfl
    simp only [recordBytes_cons] at hroom
    have hstep := h.step hnew (hbound s r (by simp)) (by omega : _ + r.length ≤ freeEnd)
    have htotal := hstep.total
    have htotal' := h.total
    simp only [recordBytes_append, recordBytes_cons, recordBytes_nil] at htotal
    have := ih hstep (by simpa using hnodup) (fun t r' ht => hbound t r' (by simp [ht])) (by omega)
    simpa using this

/-- Compaction of a page whose live records fit next to the slot array. -/
theorem packed_compact (p : Page) (h : 12 + 4 * p.slotCount + p.liveBytes ≤ PAGE_SIZE) :
    ∃ q, p.compact = q.writeU16 2 (PAGE_SIZE - p.liveBytes) ∧
      Packed p p.liveRecords q (PAGE_SIZE - p.liveBytes) := by
  have hbytes := recordBytes_liveRecords p
  have hpacked := (Packed.start p).foldl p.liveRecords (by simpa using nodup_liveRecords p)
    (fun s r hr => ((p.get_eq_some_iff s r).mp ((p.mem_liveRecords s r).mp hr)).1) (by omega)
  have hstart : toU16 PAGE_SIZE = PAGE_SIZE := rfl
  have hfe := hpacked.total
  simp only [List.nil_append] at hpacked hfe
  have hfe' : (p.liveRecords.foldl compactStep (p, PAGE_SIZE)).2 = PAGE_SIZE - p.liveBytes := by
    omega
  refine ⟨_, ?_, hfe' ▸ hpacked⟩
  simp only [compact, hstart]
  rw [hfe']

/-- Compaction leaves every slot's record alone and joins all dead space. -/
theorem compact_spec (p : Page) (h : 12 + 4 * p.slotCount + p.liveBytes ≤ PAGE_SIZE) :
    p.compact.WF ∧ p.compact.slotCount = p.slotCount ∧ p.compact.pageLSN = p.pageLSN ∧
      p.compact.freeEnd = PAGE_SIZE - p.liveBytes ∧ ∀ s : Nat, p.compact.get s = p.get s := by
  obtain ⟨q, hq, hpacked⟩ := p.packed_compact h
  have hlive : ∀ s : Nat, s < p.slotCount → (p.slotAt s).2 ≠ 0 →
      (s, p.bytes.slice (p.slotAt s).1 (p.slotAt s).2) ∈ p.liveRecords := by
    intro s hs hl
    exact (p.mem_liveRecords s _).mpr ((p.get_eq_some_iff s _).mpr ⟨hs, hl, rfl⟩)
  have hmoved : ∀ s : Nat, s < p.slotCount → (p.slotAt s).2 ≠ 0 →
      (q.slotAt s).2 = (p.slotAt s).2 ∧ PAGE_SIZE - p.liveBytes ≤ (q.slotAt s).1 ∧
        (q.slotAt s).1 + (p.slotAt s).2 ≤ PAGE_SIZE ∧
        q.bytes.slice (q.slotAt s).1 (p.slotAt s).2 =
          p.bytes.slice (p.slotAt s).1 (p.slotAt s).2 := by
    intro s hs hl
    simpa using hpacked.moved s _ (hlive s hs hl)
  have hdead : ∀ s : Nat, s < p.slotCount → (p.slotAt s).2 = 0 → (q.slotAt s).2 = 0 := by
    intro s hs hl
    rw [hpacked.rest s hs ?_, hl]
    intro hm
    obtain ⟨⟨t, r⟩, hr, rfl⟩ := List.mem_map.mp hm
    exact ((p.get_eq_some_iff t r).mp ((p.mem_liveRecords t r).mp hr)).2.1 hl
  have hlen : ∀ s : Nat, s < p.slotCount → (q.slotAt s).2 = (p.slotAt s).2 := by
    intro s hs
    by_cases hl : (p.slotAt s).2 = 0
    · rw [hl, hdead s hs hl]
    · exact (hmoved s hs hl).1
  have hfree : p.compact.freeEnd = PAGE_SIZE - p.liveBytes := by
    rw [hq, freeEnd_writeFreeEnd _ (by simp only [PAGE_SIZE]; omega)]
  have hcount : p.compact.slotCount = p.slotCount := by
    rw [hq, slotCount_writeFreeEnd, hpacked.count]
  refine ⟨⟨by omega, by omega, ?_, ?_⟩, hcount, by rw [hq, pageLSN_writeFreeEnd, hpacked.lsn],
    hfree, ?_⟩
  · intro s hs hl
    rw [hcount] at hs
    rw [hfree]
    rw [hq, slotAt_writeFreeEnd] at hl ⊢
    rw [hlen s hs] at hl ⊢
    obtain ⟨-, hlow, hhigh, -⟩ := hmoved s hs hl
    exact ⟨hlow, hhigh⟩
  · intro s t hs ht hst hls hlt
    rw [hcount] at hs ht
    rw [hq, slotAt_writeFreeEnd] at hls hlt ⊢
    rw [slotAt_writeFreeEnd]
    rw [hlen s hs] at hls ⊢
    rw [hlen t ht] at hlt ⊢
    simpa using hpacked.apart s _ t _ (hlive s hs hls) (hlive t ht hlt) hst
  · intro s
    by_cases hs : s < p.slotCount ∧ (p.slotAt s).2 ≠ 0
    · obtain ⟨hl, hlow, -, hdata⟩ := hmoved s hs.1 hs.2
      rw [get_natCast, get_natCast, hcount, if_pos hs, hq, slotAt_writeFreeEnd, hl, if_pos hs,
        slice_writeU16 _ _ (by omega), hdata]
    · have hd : ¬(s < p.compact.slotCount ∧ (p.compact.slotAt s).2 ≠ 0) := by
        rw [hcount, hq, slotAt_writeFreeEnd]
        rintro ⟨hc, hl⟩
        exact hs ⟨hc, by rwa [hlen s hc] at hl⟩
      rw [get_natCast, get_natCast, if_neg hd, if_neg hs]

end Page

end Relite.Backend
