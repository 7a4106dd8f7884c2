import Relite.Backend.PageSpec
import Relite.Lib.Refinement
import Mathlib.Algebra.BigOperators.Group.Finset.Basic
import Mathlib.Order.Interval.Finset.Nat
import Mathlib.Data.List.GetD

/-!
# A page as a list of records

A page is a list that has a record or none for each slot. An insertion appends a record if its
bytes and a slot fit into what the header, the slots and the records leave of the page, an
erasure empties a slot, and an update replaces a record by one that is not longer. On the bytes
of the page the slots, the free area and the records lie apart throughout.
-/
namespace Relite.Backend
open Lib

/-! ## The list of records -/

/-- The records of the slots, none where the slot is dead. -/
abbrev Slots : Type := List (Option Bytes)

namespace Slots

/-- The record at a slot id. -/
def record (slots : Slots) (slot : Int) : Option Bytes :=
  if slot < 0 then none else slots.getD slot.toNat none

/-- The bytes of the live records. -/
def liveBytes (slots : Slots) : Nat := (slots.map fun r => (r.map List.length).getD 0).sum

/-- Some bytes, with a slot for them, fit next to the header, the slots and the live records. -/
def Fits (slots : Slots) (r : Bytes) : Prop :=
  r ≠ [] ∧ (r.length + 4 : Int) ≤ 4096 - 12 - 4 * slots.length - slots.liveBytes

instance (slots : Slots) (r : Bytes) : Decidable (slots.Fits r) := by
  unfold Fits
  infer_instance

/-- The slot is live, and some bytes fit into the place of its record. -/
def Replaces (slots : Slots) (slot : Int) (r : Bytes) : Prop :=
  r ≠ [] ∧ ∃ old ∈ slots.record slot, r.length ≤ old.length

instance (slots : Slots) (slot : Int) (r : Bytes) : Decidable (slots.Replaces slot r) := by
  unfold Replaces
  infer_instance

end Slots

/-! ## Both as machines -/

inductive PageOp
  | insert (record : Bytes)
  | erase (slot : Int)
  | update (slot : Int) (record : Bytes)

inductive PageAnswer
  /-- The slot of an insertion that is not refused. -/
  | inserted (slot : Option Nat)
  | done (ok : Bool)

def pageMachine : Machine Page PageOp PageAnswer where
  step p
    | .insert r => ((p.insert r).map Prod.fst).getD p
    | .erase slot => (p.erase slot).getD p
    | .update slot r => (p.update slot r).getD p
  answer p
    | .insert r => .inserted ((p.insert r).map Prod.snd)
    | .erase slot => .done (p.erase slot).isSome
    | .update slot r => .done (p.update slot r).isSome

def slotsMachine : Machine Slots PageOp PageAnswer where
  step slots
    | .insert r => if slots.Fits r then slots ++ [some r] else slots
    | .erase slot => if (slots.record slot).isSome then slots.set slot.toNat none else slots
    | .update slot r =>
      if slots.Replaces slot r then slots.set slot.toNat (some r) else slots
  answer slots
    | .insert r => .inserted (if slots.Fits r then some slots.length else none)
    | .erase slot => .done (slots.record slot).isSome
    | .update slot r => .done (decide (slots.Replaces slot r))

namespace Page

/-- The page has the records and the LSN, with the slots, the free area and the records apart
from each other: this is what `WF` says. -/
structure Holds (lsn : Nat) (p : Page) (slots : Slots) : Prop where
  wf : p.WF
  pageLSN : p.pageLSN = lsn
  slotCount : p.slotCount = slots.length
  get : ∀ s : Nat, p.get s = slots.getD s none

/-! ## The room on a page -/

/-- The live records lie apart behind the free area. -/
theorem WF.liveBytes_le {p : Page} (h : p.WF) : p.freeEnd + p.liveBytes ≤ PAGE_SIZE := by
  have hsum : p.liveBytes = ∑ s ∈ Finset.range p.slotCount, (p.slotAt s).2 := by
    rw [liveBytes_eq_sum]
    rfl
  have hdisjoint : ∀ s ∈ Finset.range p.slotCount, ∀ t ∈ Finset.range p.slotCount, s ≠ t →
      Disjoint (Finset.Ico (p.slotAt s).1 ((p.slotAt s).1 + (p.slotAt s).2))
        (Finset.Ico (p.slotAt t).1 ((p.slotAt t).1 + (p.slotAt t).2)) := by
    intro s hs t ht hst
    rw [Finset.disjoint_left]
    intro a ha ha'
    rw [Finset.mem_Ico] at ha ha'
    have hapart := h.disjoint s t (Finset.mem_range.mp hs) (Finset.mem_range.mp ht) hst
      (by omega) (by omega)
    omega
  have hinside : (Finset.range p.slotCount).biUnion (fun s =>
      Finset.Ico (p.slotAt s).1 ((p.slotAt s).1 + (p.slotAt s).2)) ⊆
      Finset.Ico p.freeEnd PAGE_SIZE := by
    intro a ha
    obtain ⟨s, hs, ha⟩ := Finset.mem_biUnion.mp ha
    rw [Finset.mem_Ico] at ha
    have hin := h.inside s (Finset.mem_range.mp hs) (by omega)
    exact Finset.mem_Ico.mpr (by omega)
  have hcard := Finset.card_le_card hinside
  rw [Finset.card_biUnion hdisjoint] at hcard
  simp only [Nat.card_Ico, Nat.add_sub_cancel_left] at hcard
  have hfree := h.freeEnd_le
  omega

/-- An erasure gives back the bytes of the record. -/
theorem usableSpace_erase {p q : Page} {slot : Int} {r : Bytes} (h : p.erase slot = some q)
    (hr : p.get slot = some r) : q.usableSpace = p.usableSpace + r.length := by
  obtain ⟨s, rfl, hs⟩ := slot_of_get hr
  rw [Page.erase] at h
  split at h
  swap
  · cases h
  cases h
  have hself := slotAt_setSlot_self p s (p.slotAt_fst_lt s) (by omega : 0 < 65536)
  have hsum : ∀ p : Page, p.liveBytes = ∑ s ∈ Finset.range p.slotCount, (p.slotAt s).2 :=
    fun p => liveBytes_eq_sum p
  have hmem : s ∈ Finset.range p.slotCount := Finset.mem_range.mpr hs
  rw [usableSpace_eq, usableSpace_eq, slotCount_setSlot, hsum, hsum p, slotCount_setSlot,
    ← Finset.add_sum_erase _ _ hmem, ← Finset.add_sum_erase _ _ hmem, hself, length_of_get hr]
  have hrest : ∑ t ∈ (Finset.range p.slotCount).erase s, ((p.setSlot s (p.slotAt s).1 0).slotAt t).2 =
      ∑ t ∈ (Finset.range p.slotCount).erase s, (p.slotAt t).2 :=
    Finset.sum_congr rfl fun t ht => by
      rw [slotAt_setSlot_of_ne _ _ _ (Finset.ne_of_mem_erase ht)]
  rw [hrest]
  omega

/-- A page has room for a record exactly if it has that many usable bytes. -/
theorem Ok.insert_eq_none_iff {p : Page} (h : p.Ok) {r : Bytes} (hr : r ≠ []) :
    p.insert r = none ↔ p.usableSpace < r.length + 4 := by
  have hle : p.freeSpace ≤ p.usableSpace := by
    rw [freeSpace_eq, usableSpace_eq]
    rcases h with hwf | hblank
    · have hlive := hwf.liveBytes_le
      rw [PAGE_SIZE] at hlive
      omega
    · have hfree : p.freeEnd < 12 := hblank.freeEnd_lt
      have hlive : p.liveBytes = 0 := by rw [liveBytes_eq_sum, hblank.slotCount_eq]; rfl
      omega
  have husable := p.usableSpace_eq
  rw [Page.insert_eq_none_iff]
  simp only [hr, false_or]
  omega

namespace Holds

variable {lsn : Nat} {p : Page} {slots : Slots}

theorem get_slot (h : p.Holds lsn slots) (slot : Int) : p.get slot = slots.record slot := by
  rw [Slots.record]
  split
  · rename_i hneg
    exact get_of_neg p hneg
  · obtain ⟨s, rfl⟩ := Int.eq_ofNat_of_zero_le (show 0 ≤ slot by omega)
    exact h.get s

theorem liveBytes (h : p.Holds lsn slots) : p.liveBytes = slots.liveBytes := by
  rw [liveBytes_eq_get, Slots.liveBytes, h.slotCount]
  congr 1
  refine List.ext_getElem (by simp) fun s hs _ => ?_
  have hlt : s < slots.length := by simpa using hs
  rw [List.getElem_map, List.getElem_map, List.getElem_range, h.get,
    List.getD_eq_getElem _ _ hlt]

/-- An insertion is refused exactly if the record does not fit. -/
theorem insert_eq_none_iff (h : p.Holds lsn slots) (r : Bytes) :
    p.insert r = none ↔ ¬slots.Fits r := by
  by_cases hr : r = []
  · simp [Page.insert_eq_none_iff, Slots.Fits, hr]
  · rw [Ok.insert_eq_none_iff (.inl h.wf) hr, usableSpace_eq, Slots.Fits, ← h.liveBytes,
      ← h.slotCount]
    simp only [hr, ne_eq, not_false_eq_true, true_and, not_le]
    omega

theorem insert (h : p.Holds lsn slots) (r : Bytes) :
    pageMachine.answer p (.insert r) = slotsMachine.answer slots (.insert r) ∧
      (pageMachine.step p (.insert r)).Holds lsn (slotsMachine.step slots (.insert r)) := by
  have hnone := h.insert_eq_none_iff r
  simp only [pageMachine, slotsMachine]
  cases hins : p.insert r with
  | none =>
    rw [if_neg (hnone.mp hins), if_neg (hnone.mp hins)]
    exact ⟨rfl, h⟩
  | some qn =>
    obtain ⟨q, n⟩ := qn
    obtain ⟨rfl, -, hwf, hcount, hlsn, -, hget⟩ := insert_spec (.inl h.wf) hins
    have hfits : slots.Fits r := by
      by_contra hnot
      rw [hnone.mpr hnot] at hins
      cases hins
    rw [if_pos hfits, if_pos hfits]
    refine ⟨by simp [h.slotCount], hwf, by simpa [h.pageLSN] using hlsn,
      by simpa [h.slotCount] using hcount, fun s => ?_⟩
    rw [Option.map_some, Option.getD_some, hget s, h.slotCount, h.get s]
    simp only [List.getD_eq_getElem?_getD, List.getElem?_append]
    rcases Nat.lt_trichotomy s slots.length with hlt | rfl | hgt
    · rw [if_neg (by omega), if_pos hlt]
    · simp
    · rw [if_neg (by omega), if_neg (by omega), List.getElem?_eq_none (by omega),
        List.getElem?_eq_none (by simp; omega)]

/-- Changing one slot. -/
theorem set (h : p.Holds lsn slots) {q : Page} {slot : Int} {r : Option Bytes}
    (hslot : ∃ s : Nat, slot = s) (hlive : (p.get slot).isSome) (hwf : q.WF)
    (hcount : q.slotCount = p.slotCount) (hlsn : q.pageLSN = p.pageLSN)
    (hget : ∀ s : Nat, q.get s = if (s : Int) = slot then r else p.get s) :
    q.Holds lsn (slots.set slot.toNat r) := by
  obtain ⟨n, rfl⟩ := hslot
  have hlt : n < slots.length := by
    obtain ⟨old, hold⟩ := Option.isSome_iff_exists.mp hlive
    rw [← h.slotCount]
    exact ((p.get_eq_some_iff n old).mp hold).1
  refine ⟨hwf, hlsn.trans h.pageLSN, by rw [hcount, h.slotCount, List.length_set], fun s => ?_⟩
  rw [hget s, h.get s]
  simp only [Nat.cast_inj, Int.toNat_natCast, List.getD_eq_getElem?_getD, List.getElem?_set]
  by_cases hs : s = n
  · subst hs
    simp [hlt]
  · rw [if_neg hs, if_neg (Ne.symm hs)]

theorem erase (h : p.Holds lsn slots) (slot : Int) :
    pageMachine.answer p (.erase slot) = slotsMachine.answer slots (.erase slot) ∧
      (pageMachine.step p (.erase slot)).Holds lsn (slotsMachine.step slots (.erase slot)) := by
  have hnone := erase_eq_none_iff p slot
  rw [h.get_slot] at hnone
  simp only [pageMachine, slotsMachine]
  cases her : p.erase slot with
  | none =>
    rw [hnone.mp her]
    exact ⟨rfl, h⟩
  | some q =>
    obtain ⟨hslot, hwf, hcount, hlsn, hget⟩ := erase_spec (.inl h.wf) her
    have hlive : (slots.record slot).isSome := by
      rw [Option.isSome_iff_ne_none, Ne, ← hnone, her]
      exact Option.some_ne_none q
    rw [if_pos hlive, hlive]
    exact ⟨rfl, h.set hslot (h.get_slot slot ▸ hlive) hwf hcount hlsn hget⟩

/-- An update is refused exactly if the slot is dead or the record empty or longer. -/
theorem update_eq_none_iff (h : p.Holds lsn slots) (slot : Int) (r : Bytes) :
    p.update slot r = none ↔ ¬slots.Replaces slot r := by
  have hrec : r.length = 0 ↔ r = [] := List.length_eq_zero_iff
  rw [Slots.Replaces, ← h.get_slot]
  cases hget : p.get slot with
  | none =>
    have hdead : ¬p.isLive slot := by
      rw [isLive_iff, hget]
      nofun
    simp [Page.update, hdead]
  | some old =>
    have hlive : p.isLive slot := by rw [isLive_iff, hget]; rfl
    obtain ⟨s, rfl, -⟩ := slot_of_get hget
    rw [Page.update, if_pos hlive]
    simp only [← length_of_get hget, Option.mem_def, Option.some_inj, exists_eq_left',
      ite_eq_left_iff, reduceCtorEq, imp_false, not_not, hrec, not_and_or, ne_eq, not_le]

theorem update (h : p.Holds lsn slots) (slot : Int) (r : Bytes) :
    pageMachine.answer p (.update slot r) = slotsMachine.answer slots (.update slot r) ∧
      (pageMachine.step p (.update slot r)).Holds lsn
        (slotsMachine.step slots (.update slot r)) := by
  have hnone := h.update_eq_none_iff slot r
  simp only [pageMachine, slotsMachine]
  cases hupd : p.update slot r with
  | none =>
    rw [if_neg (hnone.mp hupd), decide_eq_false (hnone.mp hupd)]
    exact ⟨rfl, h⟩
  | some q =>
    obtain ⟨hslot, -, hlive, hwf, hcount, hlsn, hget⟩ := update_spec (.inl h.wf) hupd
    have hreplaces : slots.Replaces slot r := by
      by_contra hnot
      rw [hnone.mpr hnot] at hupd
      cases hupd
    rw [if_pos hreplaces, decide_eq_true hreplaces]
    exact ⟨rfl, h.set hslot hlive hwf hcount hlsn hget⟩

end Holds

theorem holds_init : init.Holds 0 [] := ⟨wf_init, rfl, rfl, get_init⟩

end Page

/-- From a page that is initialized, every run of insertions, erasures and updates answers as
the list of records does, and the page holds that list all along. -/
theorem page_refines_slots (ops : List PageOp) :
    Refines pageMachine slotsMachine.specification (Page.Holds 0) Page.init [] ops := by
  refine Machine.refines (fun p slots op h => ?_) Page.holds_init ops
  cases op with
  | insert r => exact h.insert r
  | erase slot => exact h.erase slot
  | update slot r => exact h.update slot r

end Relite.Backend
