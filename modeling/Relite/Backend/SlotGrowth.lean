import Relite.Backend.PageRedo

/-!
# Slots that run into records

`redoSet` adds slots before it asks for room, so that they can run into live records of a
page whose dead space lies above them. It then still succeeds when compaction finds the
room: the page is well formed again, but the records that were run into have lost bytes to
zeros.
-/
namespace Relite.Backend
open Lib

/-- Some bytes of the record are turned to zero. -/
def Blots (old new : Bytes) : Prop := List.Forall₂ (fun a b => b = a ∨ b = 0) old new

theorem Blots.refl (r : Bytes) : Blots r r := List.forall₂_same.mpr fun _ _ => .inl rfl

theorem Blots.trans {r₁ r₂ r₃ : Bytes} (h : Blots r₁ r₂) (h' : Blots r₂ r₃) : Blots r₁ r₃ := by
  unfold Blots at *
  induction h generalizing r₃ with
  | nil => exact h'
  | cons hab _ ih =>
    cases h' with
    | cons hbc h' =>
      refine .cons ?_ (ih h')
      rcases hbc with rfl | rfl
      · exact hab
      · exact .inr rfl

/-- A zero never turns back. -/
theorem Blots.antisymm {r₁ r₂ : Bytes} (h : Blots r₁ r₂) (h' : Blots r₂ r₁) : r₁ = r₂ := by
  unfold Blots at *
  induction h with
  | nil => rfl
  | cons hab _ ih =>
    cases h' with
    | cons hba h' =>
      rw [ih h']
      congr 1
      rcases hab with rfl | rfl
      · rfl
      · rcases hba with rfl | rfl <;> rfl

/-- What a slot holds under the same wear; a slot does not come or go by it. -/
def Worn (old new : Option Bytes) : Prop := Option.Rel Blots old new

theorem Worn.refl : (v : Option Bytes) → Worn v v
  | none => .none
  | some r => .some (Blots.refl r)

theorem Worn.trans {v₁ v₂ v₃ : Option Bytes} (h : Worn v₁ v₂) (h' : Worn v₂ v₃) : Worn v₁ v₃ := by
  cases h with
  | none => exact h'
  | some hab =>
    cases h' with
    | some hbc => exact .some (hab.trans hbc)

theorem Worn.antisymm {v₁ v₂ : Option Bytes} (h : Worn v₁ v₂) (h' : Worn v₂ v₁) : v₁ = v₂ := by
  cases h with
  | none => rfl
  | some hab =>
    cases h' with
    | some hba => rw [hab.antisymm hba]

theorem blots_slice {m n : Mem} {off len : Nat}
    (h : ∀ a, off ≤ a → a < off + len → n a = m a ∨ n a = 0) :
    Blots (m.slice off len) (n.slice off len) := by
  unfold Blots Mem.slice
  rw [List.forall₂_map_left_iff, List.forall₂_map_right_iff]
  refine List.forall₂_same.mpr fun i hi => ?_
  have : i < len := by simpa using hi
  exact h _ (by omega) (by omega)

namespace Page

theorem writeU16_zero_apply (p : Page) (o a : Nat) :
    (p.writeU16 o 0).bytes a = p.bytes a ∨ (p.writeU16 o 0).bytes a = 0 := by
  simp only [writeU16, Mem.writeLE, Mem.blit]
  split
  · refine .inr ?_
    have h : ∀ i, (toLE 2 0).getD i 0 = 0 := by
      rintro (_ | _ | i) <;> rfl
    exact h _
  · exact .inl rfl

theorem writeU16_apply_of_ge (p : Page) {o a : Nat} (v : Nat) (h : o + 2 ≤ a) :
    (p.writeU16 o v).bytes a = p.bytes a :=
  Mem.blit_of_ge _ _ (by simpa using h)

theorem setSlot_zero_apply (p : Page) (slot : Int) (a : Nat) :
    (p.setSlot slot 0 0).bytes a = p.bytes a ∨ (p.setSlot slot 0 0).bytes a = 0 := by
  rcases writeU16_zero_apply (p.writeU16 (slotBase slot) 0) (slotBase slot + 2) a with h | h
  · rcases writeU16_zero_apply p (slotBase slot) a with h' | h'
    · exact .inl (h.trans h')
    · exact .inr (h.trans h')
  · exact .inr h

theorem foldl_setSlot_zero_apply (l : List Nat) (p : Page) (a : Nat) :
    let q := l.foldl (fun q s => q.setSlot (s : Nat) 0 0) p
    q.bytes a = p.bytes a ∨ q.bytes a = 0 := by
  induction l generalizing p with
  | nil => exact .inl rfl
  | cons s l ih =>
    rcases ih (p.setSlot (s : Nat) 0 0) with h | h
    · rcases setSlot_zero_apply p s a with h' | h'
      · exact .inl (h.trans h')
      · exact .inr (h.trans h')
    · exact .inr h

theorem extend_of_lt (p : Page) {slot : Int} (h : slot < p.slotCount) : p.extend slot = p := by
  simp only [extend]
  rw [if_neg (by omega)]

/-- Adding slots keeps the slots that are there, and wears down what they hold. -/
theorem WF.extend_worn {p : Page} (h : p.WF) {slot : Nat} (hslot : 12 + 4 * (slot + 1) ≤ PAGE_SIZE) :
    (p.extend slot).slotCount = max p.slotCount (slot + 1) ∧
      (p.extend slot).pageLSN = p.pageLSN ∧
      (∀ s : Nat, Worn (p.get s) ((p.extend slot).get s)) ∧
      (12 + 4 * (p.extend slot).slotCount ≤ (p.extend slot).freeEnd → (p.extend slot).WF) := by
  by_cases hlt : slot < p.slotCount
  · rw [extend_of_lt p (by omega)]
    exact ⟨by omega, rfl, fun s => Worn.refl _, fun _ => h⟩
  have hfit : 12 + 4 * (p.extend slot).slotCount ≤ (p.extend slot).freeEnd →
      (p.extend slot).slotCount = slot + 1 → (p.extend slot).freeEnd = p.freeEnd →
      (p.extend slot).WF := by
    intro hend hcount hfree
    refine (h.extend ⟨hslot, fun s hs hl => ?_⟩).2.2.2.2 hend
    have := h.slot_ge hs hl
    have := (h.inside s hs hl).1
    omega
  simp only [PAGE_SIZE] at hslot
  have hdef : p.extend slot = ((List.range' p.slotCount (slot + 1 - p.slotCount)).foldl
      (fun q s => q.setSlot (s : Nat) 0 0) p).writeU16 0 (slot + 1) := by
    have hn : toU16 ((slot : Int) + 1) = slot + 1 := by
      have := toU16_ofNat (n := slot + 1) (by omega)
      simpa using this
    simp only [Page.extend]
    rw [if_pos (by omega), hn, Int.toNat_natCast]
  obtain ⟨hc, hf, hl, hin, hout, -⟩ :=
    foldl_setSlot_zero (List.range' p.slotCount (slot + 1 - p.slotCount)) p
  have hzero := foldl_setSlot_zero_apply (List.range' p.slotCount (slot + 1 - p.slotCount)) p
  have hmem : ∀ s, s ∈ List.range' p.slotCount (slot + 1 - p.slotCount) ↔
      p.slotCount ≤ s ∧ s ≤ slot := by
    intro s
    simp only [List.mem_range'_1]
    omega
  have hcount : (p.extend slot).slotCount = slot + 1 := by
    rw [hdef, slotCount_writeCount _ (by omega)]
  have hfree : (p.extend slot).freeEnd = p.freeEnd := by rw [hdef, freeEnd_writeCount, hf]
  refine ⟨by omega, by rw [hdef, pageLSN_writeCount, hl], fun s => ?_,
    fun hend => hfit hend hcount hfree⟩
  by_cases hs : s < p.slotCount
  · have hat : (p.extend slot).slotAt s = p.slotAt s := by
      rw [hdef, slotAt_writeCount, hout s fun hm => by have := (hmem s).mp hm; omega]
    rw [get_natCast, get_natCast, hcount, hat]
    by_cases hlive : (p.slotAt s).2 = 0
    · rw [if_neg (by simp [hlive]), if_neg (by simp [hlive])]
      exact .none
    · rw [if_pos ⟨hs, hlive⟩, if_pos ⟨by omega, hlive⟩]
      refine .some (blots_slice fun a ha _ => ?_)
      have := h.slot_ge hs hlive
      rw [hdef, writeU16_apply_of_ge _ _ (by omega)]
      exact hzero a
  · rw [get_of_ge p (by omega), get_natCast]
    rw [if_neg]
    · exact .none
    · rintro ⟨hs', hl'⟩
      rw [hcount] at hs'
      rw [hdef, slotAt_writeCount, hin s ((hmem s).mpr ⟨by omega, by omega⟩)] at hl'
      exact hl' rfl

/-- A `redoSet` that is not skipped and does not fail. -/
theorem redoSet_of_true {p : Page} (h : p.Ok) {slot lsn : Nat} {record : Bytes}
    (hslot : 12 + 4 * (slot + 1) ≤ PAGE_SIZE) (hrec : record ≠ []) (hskip : ¬p.Skips lsn)
    (htrue : (p.redoSet slot record lsn).2 = true) :
    (p.redoSet slot record lsn).1.WF ∧
      (p.redoSet slot record lsn).1.slotCount = max p.slotCount (slot + 1) ∧
      (p.redoSet slot record lsn).1.pageLSN =
        (if lsn ≠ 0 then lsn % 2 ^ 64 else p.format.pageLSN) ∧
      ∀ s : Nat, (p.redoSet slot record lsn).1.get s =
        if s = slot then some record else (p.format.extend slot).get s := by
  have hwf := h.wf_format
  have hcount := h.slotCount_format
  have hskip' : ¬(lsn ≠ 0 ∧ lsn ≤ p.format.pageLSN) := hskip
  simp only [redoSet] at htrue ⊢
  rw [if_neg hskip'] at htrue ⊢
  generalize p.format = p₀ at *
  by_cases hcur : p₀.get slot = some record
  · obtain ⟨hlt, -⟩ := (p₀.get_eq_some_iff _ _).mp hcur
    rw [if_pos hcur, extend_of_lt _ (by omega)]
    refine ⟨hwf.stampLSN lsn, by simp; omega, pageLSN_stampLSN _ lsn, fun s => ?_⟩
    rw [hwf.get_stampLSN]
    split
    · rename_i hs; rw [hs, hcur]
    · rfl
  rw [if_neg hcur] at htrue ⊢
  obtain ⟨hcount₁, hlsn₁, -, hwf₁⟩ := hwf.extend_worn hslot
  generalize p₀.extend slot = p₁ at *
  split at htrue
  · cases htrue
  rename_i hlen
  split at htrue
  · cases htrue
  rename_i hfit
  obtain ⟨p₂, hp₂⟩ : ∃ p₂, p₂ = if p₁.freeSpace < (record.length : Int) then p₁.compact else p₁ :=
    ⟨_, rfl⟩
  obtain ⟨hwf₂, hcount₂, hlsn₂, hget₂, hfree₂⟩ :=
    makeRoom hwf₁ (by omega) hfit hp₂
  have hle := hwf₂.freeEnd_le
  simp only [PAGE_SIZE] at hle
  rw [if_neg hlen, if_neg hfit, ← hp₂]
  obtain ⟨hpcount, hplsn, hself, hother, hslice⟩ :=
    place_fields p₂ slot p₂.slotCount record (by omega) (by omega)
  have ho : toU16 ((p₂.readU16 2 : Int) - record.length) = p₂.freeEnd - record.length :=
    toU16_sub (by show _ ≤ p₂.freeEnd; omega) p₂.freeEnd_lt
  rw [ho]
  have hplaced := hwf₂.of_placed slot p₂.slotCount
    (q := (p₂.place slot record).writeU16 2 (p₂.freeEnd - record.length)) hrec
    (le_refl _) (by omega) (fun s hs _ => hs) (by omega) (by rw [slotCount_writeFreeEnd, hpcount])
    (freeEnd_writeFreeEnd _ (by omega)) (by simpa using hself)
    (fun s hs hne => by simpa using hother s hs hne)
    (fun off len hoff => by rw [slice_writeU16 _ _ (by omega), hslice off len hoff])
  refine ⟨hplaced.1.stampLSN lsn, ?_, ?_, fun s => ?_⟩
  · rw [slotCount_stampLSN, slotCount_writeFreeEnd, hpcount]; omega
  · rw [pageLSN_stampLSN, pageLSN_writeFreeEnd, hplsn, hlsn₂, hlsn₁]
  · rw [hplaced.1.get_stampLSN, hplaced.2 s, hget₂ s]

end Page

end Relite.Backend
