import Relite.Backend.PageSpec

/-!
# Redo on a page

`redoSet` can refuse a record for lack of room, and it has then already added slots;
worse, it adds them before it looks at the room, so that they can run into live
records. `RedoRoom` is the state of a page in which neither happens, and under it the
two redo operations are exact on `get`.
-/
namespace Relite.Backend
open Lib

namespace Page

theorem foldl_setSlot_zero (l : List Nat) (p : Page) :
    let q := l.foldl (fun q s => q.setSlot (s : Nat) 0 0) p
    q.slotCount = p.slotCount ∧ q.freeEnd = p.freeEnd ∧ q.pageLSN = p.pageLSN ∧
      (∀ s ∈ l, q.slotAt s = (0, 0)) ∧ (∀ s : Nat, s ∉ l → q.slotAt s = p.slotAt s) ∧
      ∀ off len, (∀ s ∈ l, 12 + 4 * (s + 1) ≤ off) →
        q.bytes.slice off len = p.bytes.slice off len := by
  induction l generalizing p with
  | nil => simp
  | cons t l ih =>
    obtain ⟨hc, hf, hl, hin, hout, hslice⟩ := ih (p.setSlot (t : Nat) 0 0)
    simp only [List.foldl_cons]
    refine ⟨by rw [hc, slotCount_setSlot], by rw [hf, freeEnd_setSlot],
      by rw [hl, pageLSN_setSlot], fun s hs => ?_, fun s hs => ?_, fun off len hoff => ?_⟩
    · by_cases hsl : s ∈ l
      · exact hin s hsl
      · have hst : s = t := by simpa [hsl] using hs
        subst hst
        rw [hout s hsl, slotAt_setSlot_self _ _ (by omega) (by omega)]
    · rw [List.mem_cons, not_or] at hs
      rw [hout s hs.2, slotAt_setSlot_of_ne _ _ _ hs.1]
    · rw [hslice off len fun s hs => hoff s (by simp [hs]),
        slice_setSlot _ _ _ (hoff t (by simp))]

/-- Slots up to `slot` can be added without running into a live record. -/
def SlotsFit (p : Page) (slot : Nat) : Prop :=
  12 + 4 * (slot + 1) ≤ PAGE_SIZE ∧
    ∀ s : Nat, s < p.slotCount → (p.slotAt s).2 ≠ 0 → 12 + 4 * (slot + 1) ≤ (p.slotAt s).1

instance (p : Page) (slot : Nat) : Decidable (p.SlotsFit slot) := by
  unfold SlotsFit; infer_instance

theorem WF.slotsFit {p : Page} (h : p.WF) {slot : Nat} (hs : slot < p.slotCount) :
    p.SlotsFit slot := by
  have hle := h.arrayEnd_le
  have hle' := h.freeEnd_le
  refine ⟨by omega, fun s hs' hl => ?_⟩
  have := h.slot_ge hs' hl
  omega

theorem WF.extend {p : Page} (h : p.WF) {slot : Nat} (hroom : p.SlotsFit slot) :
    (p.extend slot).slotCount = max p.slotCount (slot + 1) ∧
      (p.extend slot).freeEnd = p.freeEnd ∧ (p.extend slot).pageLSN = p.pageLSN ∧
      (∀ s : Nat, (p.extend slot).get s = p.get s) ∧
      (12 + 4 * (p.extend slot).slotCount ≤ (p.extend slot).freeEnd → (p.extend slot).WF) := by
  unfold Page.extend
  by_cases hlt : slot < p.slotCount
  · simp only [show ¬((p.slotCount : Int) ≤ slot) by omega, if_false]
    exact ⟨by omega, by simp, by simp, by simp, fun _ => h⟩
  · simp only [show (p.slotCount : Int) ≤ slot by omega, if_true]
    obtain ⟨hslot, hfit⟩ := hroom
    simp only [PAGE_SIZE] at hslot
    have hn : toU16 ((slot : Int) + 1) = slot + 1 := by
      have := toU16_ofNat (n := slot + 1) (by omega)
      simpa using this
    rw [hn, Int.toNat_natCast]
    set l := List.range' p.slotCount (slot + 1 - p.slotCount)
    have hmem : ∀ s, s ∈ l ↔ p.slotCount ≤ s ∧ s ≤ slot := by
      intro s
      simp only [l, List.mem_range'_1]
      omega
    obtain ⟨hc, hf, hl, hin, hout, hslice⟩ := foldl_setSlot_zero l p
    set q := l.foldl (fun q s => q.setSlot (s : Nat) 0 0) p
    have hcount : (q.writeU16 0 (slot + 1)).slotCount = slot + 1 :=
      slotCount_writeCount _ (by omega)
    have hold : ∀ s : Nat, s < p.slotCount → (q.writeU16 0 (slot + 1)).slotAt s = p.slotAt s := by
      intro s hs
      rw [slotAt_writeCount, hout s fun hm => by have := (hmem s).mp hm; omega]
    have hnew : ∀ s : Nat, p.slotCount ≤ s → s ≤ slot →
        (q.writeU16 0 (slot + 1)).slotAt s = (0, 0) := by
      intro s hs hs'
      rw [slotAt_writeCount, hin s ((hmem s).mpr ⟨hs, hs'⟩)]
    refine ⟨by omega, by rw [freeEnd_writeCount, hf], by rw [pageLSN_writeCount, hl],
      fun s => ?_, fun hend => ?_⟩
    · by_cases hsp : s < p.slotCount
      · refine get_congr (by rw [hcount]; omega) (hold s hsp) fun hs hsl => ?_
        have := hfit s hs hsl
        rw [slice_writeU16 _ _ (by omega),
          hslice _ _ fun t ht => by have := (hmem t).mp ht; omega]
      · rw [get_of_ge p (by omega), get_natCast]
        by_cases hss : s ≤ slot
        · rw [hnew s (by omega) hss]; simp
        · rw [if_neg (by rw [hcount]; omega)]
    refine ⟨hend, ?_, ?_, ?_⟩
    · rw [freeEnd_writeCount, hf]; exact h.freeEnd_le
    · intro s hs hsl
      rw [hcount] at hs
      by_cases hsp : s < p.slotCount
      · rw [hold s hsp] at hsl ⊢
        rw [freeEnd_writeCount, hf]
        exact h.inside s hsp hsl
      · exact absurd (by rw [hnew s (by omega) (by omega)]) hsl
    · intro s t hs ht hst hsl htl
      rw [hcount] at hs ht
      by_cases hsp : s < p.slotCount
      · by_cases htp : t < p.slotCount
        · rw [hold s hsp] at hsl ⊢
          rw [hold t htp] at htl ⊢
          exact h.disjoint s t hsp htp hst hsl htl
        · exact absurd (by rw [hnew t (by omega) (by omega)]) htl
      · exact absurd (by rw [hnew s (by omega) (by omega)]) hsl

/-- `redoSet` places `record` without running into live records or out of room. -/
def RedoRoom (p : Page) (slot : Nat) (record : Bytes) : Prop :=
  p.format.get slot = some record ∨
    p.format.SlotsFit slot ∧
      ¬((p.format.extend slot).freeSpace < record.length ∧
        (p.format.extend slot).usableSpace < record.length)

instance (p : Page) (slot : Nat) (record : Bytes) : Decidable (p.RedoRoom slot record) := by
  unfold RedoRoom; infer_instance

/-- The LSN guard of the redo operations. -/
def Skips (p : Page) (lsn : Nat) : Prop := lsn ≠ 0 ∧ lsn ≤ p.format.pageLSN

instance (p : Page) (lsn : Nat) : Decidable (p.Skips lsn) := by
  unfold Skips; infer_instance

theorem redoSet_of_skips {p : Page} {lsn : Nat} (h : p.Skips lsn) (slot : Int) (record : Bytes) :
    p.redoSet slot record lsn = (p.format, true) := by
  have h' : lsn ≠ 0 ∧ lsn ≤ p.format.pageLSN := h
  simp only [redoSet]
  rw [if_pos h']

theorem redoSet_spec {p : Page} (h : p.Ok) {slot lsn : Nat} {record : Bytes}
    (hrec : record ≠ []) (hskip : ¬p.Skips lsn) (hroom : p.RedoRoom slot record) :
    (p.redoSet slot record lsn).2 = true ∧ (p.redoSet slot record lsn).1.WF ∧
      p.slotCount ≤ (p.redoSet slot record lsn).1.slotCount ∧
      (p.redoSet slot record lsn).1.pageLSN =
        (if lsn ≠ 0 then lsn % 2 ^ 64 else p.format.pageLSN) ∧
      ∀ s : Nat, (p.redoSet slot record lsn).1.get s =
        if s = slot then some record else p.get s := by
  have hwf := h.wf_format
  have hget := h.get_format
  have hcount := h.slotCount_format
  have hskip' : ¬(lsn ≠ 0 ∧ lsn ≤ p.format.pageLSN) := hskip
  unfold RedoRoom at hroom
  simp only [redoSet]
  rw [if_neg hskip']
  generalize p.format = p₀ at *
  by_cases hcur : p₀.get slot = some record
  · rw [if_pos hcur]
    refine ⟨rfl, hwf.stampLSN lsn, by simp [hcount], pageLSN_stampLSN _ lsn, ?_⟩
    intro s
    rw [hwf.get_stampLSN]
    split
    · rename_i hs; rw [hs, hcur]
    · exact hget s
  rw [if_neg hcur]
  obtain hroom | ⟨hslot, hfit⟩ := hroom
  · exact absurd hroom hcur
  obtain ⟨hcount₁, -, hlsn₁, hget₁, hwf₁⟩ := hwf.extend hslot
  generalize p₀.extend slot = p₁ at *
  obtain ⟨p₂, hp₂⟩ : ∃ p₂, p₂ = if p₁.freeSpace < (record.length : Int) then p₁.compact else p₁ :=
    ⟨_, rfl⟩
  obtain ⟨hwf₂, hcount₂, hlsn₂, hget₂, hfree₂⟩ :=
    makeRoom hwf₁ (by omega) hfit hp₂
  have hle := hwf₂.freeEnd_le
  simp only [PAGE_SIZE] at hle
  have hlen : ¬(record.length = 0 ∨ 0xFFFF < record.length) := by
    have : record.length ≠ 0 := by simpa using hrec
    omega
  rw [if_neg hlen, if_neg hfit, ← hp₂]
  obtain ⟨hpcount, hplsn, hself, hother, hslice⟩ :=
    place_fields p₂ slot p₂.slotCount record (by omega) (by omega)
  have ho : toU16 ((p₂.readU16 2 : Int) - record.length) = p₂.freeEnd - record.length :=
    toU16_sub (by show _ ≤ p₂.freeEnd; omega) p₂.freeEnd_lt
  rw [ho]
  have hplaced := hwf₂.of_placed slot p₂.slotCount
    (q := (p₂.place slot record).writeU16 2 (p₂.freeEnd - record.length)) hrec
    (le_refl _) (by omega) (fun s hs _ => hs) (by omega) (by rw [slotCount_writeFreeEnd, hpcount])
    (freeEnd_writeFreeEnd _ (by omega)) (by simpa using hself)
    (fun s hs hne => by simpa using hother s hs hne)
    (fun off len hoff => by rw [slice_writeU16 _ _ (by omega), hslice off len hoff])
  refine ⟨rfl, hplaced.1.stampLSN lsn, ?_, ?_, fun s => ?_⟩
  · rw [slotCount_stampLSN, slotCount_writeFreeEnd, hpcount]; omega
  · rw [pageLSN_stampLSN, pageLSN_writeFreeEnd, hplsn, hlsn₂, hlsn₁]
  · rw [hplaced.1.get_stampLSN, hplaced.2 s, hget₂ s, hget₁ s, hget s]

/-- Without room `redoSet` leaves the record out, and keeps the slots it has added. -/
theorem redoSet_refused {p : Page} {slot : Int} {record : Bytes} {lsn : Nat}
    (hformat : p.format = p) (hskip : ¬p.Skips lsn) (hcur : p.get slot ≠ some record)
    (hfree : (p.extend slot).freeSpace < record.length)
    (husable : (p.extend slot).usableSpace < record.length) :
    (p.redoSet slot record lsn).1 = p ∨ p.redoSet slot record lsn = (p.extend slot, false) := by
  have hskip' : ¬(lsn ≠ 0 ∧ lsn ≤ p.pageLSN) := by rwa [Skips, hformat] at hskip
  simp only [redoSet, hformat]
  rw [if_neg hskip', if_neg hcur]
  split
  · exact .inl rfl
  · rw [if_pos ⟨hfree, husable⟩]
    exact .inr rfl

theorem redoClear_of_skips {p : Page} {lsn : Nat} (h : p.Skips lsn) (slot : Int) :
    p.redoClear slot lsn = p.format := by
  have h' : lsn ≠ 0 ∧ lsn ≤ p.format.pageLSN := h
  simp only [redoClear]
  rw [if_pos h']

theorem redoClear_spec {p : Page} (h : p.Ok) {slot : Int} {lsn : Nat} (hskip : ¬p.Skips lsn) :
    (p.redoClear slot lsn).WF ∧ (p.redoClear slot lsn).slotCount = p.slotCount ∧
      (p.redoClear slot lsn).pageLSN =
        (if lsn ≠ 0 then lsn % 2 ^ 64 else p.format.pageLSN) ∧
      ∀ s : Nat, (p.redoClear slot lsn).get s = if (s : Int) = slot then none else p.get s := by
  have hwf := h.wf_format
  have hget := h.get_format
  have hcount := h.slotCount_format
  have hskip' : ¬(lsn ≠ 0 ∧ lsn ≤ p.format.pageLSN) := hskip
  simp only [redoClear]
  rw [if_neg hskip']
  generalize p.format = p₀ at *
  by_cases hin : 0 ≤ slot ∧ slot < p₀.slotCount
  · rw [if_pos hin]
    obtain ⟨t, rfl⟩ := Int.eq_ofNat_of_zero_le hin.1
    obtain ⟨hwf', hget'⟩ := hwf.setSlot_dead t (p₀.slotAt t).1 (p₀.slotAt_fst_lt t) (by omega)
    refine ⟨hwf'.stampLSN lsn, by simp [hcount], ?_, fun s => ?_⟩
    · rw [pageLSN_stampLSN, pageLSN_setSlot]
    · rw [hwf'.get_stampLSN, hget' s, hget s]
      simp only [Nat.cast_inj]
  · rw [if_neg hin]
    refine ⟨hwf.stampLSN lsn, by simp [hcount], pageLSN_stampLSN _ lsn, fun s => ?_⟩
    rw [hwf.get_stampLSN, hget s]
    split
    · rename_i hs
      exact get_of_ge p (by omega)
    · rfl

end Page

end Relite.Backend
