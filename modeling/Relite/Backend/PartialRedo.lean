import Relite.Backend.PageRefinement
import Relite.Backend.SlotGrowth

/-!
# Redo that is neither all nor nothing

`redoSet` adds the slots up to its own before it looks for room. Where the room is missing it
refuses the record and keeps the slots; where there is room, the slots may have run into records;
and slots with large numbers lie behind the page. This is exactly how it can fail to be all or
nothing.
-/
namespace Relite.Backend
open Lib

namespace Page

/-! ## The statement -/

/-- The page with something else behind it. -/
def followedBy (p : Page) (behind : Mem) : Page :=
  ⟨fun a => if a < PAGE_SIZE then p.bytes a else behind a⟩

/-- What lies behind the page is left alone. -/
def Within (p q : Page) : Prop := ∀ a, PAGE_SIZE ≤ a → q.bytes a = p.bytes a

/-- The slot has the record, and no live slot has changed; or nothing has changed at all. -/
def AllOrNothing (p : Page) (slot : Nat) (record : Bytes) (lsn : Nat) : Prop :=
  let (q, ok) := p.redoSet slot record lsn
  p.Within q ∧
    if ok then
      q.get slot = some record ∧ (∀ s : Nat, s ≠ slot → (p.get s).isSome → q.get s = p.get s) ∧ q.WF
    else (∀ s : Nat, q.get s = p.get s) ∧ q.slotCount = p.slotCount

/-- The bytes of live records that slots up to `slot` overlap are zeros. -/
def Spares (p : Page) (slot : Nat) : Prop :=
  ∀ s : Nat, s < p.slotCount → ∀ a, (p.slotAt s).1 ≤ a → a < (p.slotAt s).1 + (p.slotAt s).2 →
    a < 12 + 4 * (slot + 1) → p.bytes a = 0

/-- The slot is there, or the record too long for any page, or the page has room for the record,
the live records and the slots up to `slot`, which spare the records. -/
def RedoFits (p : Page) (slot : Nat) (record : Bytes) : Prop :=
  slot < p.slotCount ∨ 0xFFFF < record.length ∨
    12 + 4 * (slot + 1) + p.liveBytes + record.length ≤ PAGE_SIZE ∧ p.Spares slot

/-! ## What lies behind a page -/

section Over

variable {p : Page} (behind : Mem)

theorem followedBy_of_lt {a : Nat} (h : a < PAGE_SIZE) :
    (p.followedBy behind).bytes a = p.bytes a := if_pos h

theorem followedBy_of_ge {a : Nat} (h : PAGE_SIZE ≤ a) : (p.followedBy behind).bytes a = behind a :=
  if_neg (by omega)

theorem readU16_followedBy {o : Nat} (h : o + 2 ≤ PAGE_SIZE) :
    (p.followedBy behind).readU16 o = p.readU16 o := by
  have hslice : (p.followedBy behind).bytes.slice o 2 = p.bytes.slice o 2 :=
    Mem.slice_congr fun a _ ha => followedBy_of_lt behind (by omega)
  exact congrArg ofLE hslice

theorem slotCount_followedBy : (p.followedBy behind).slotCount = p.slotCount :=
  readU16_followedBy behind (by decide)

theorem freeEnd_followedBy : (p.followedBy behind).freeEnd = p.freeEnd :=
  readU16_followedBy behind (by decide)

theorem pageLSN_followedBy : (p.followedBy behind).pageLSN = p.pageLSN := by
  have hslice : (p.followedBy behind).bytes.slice LSN_OFFSET 8 = p.bytes.slice LSN_OFFSET 8 :=
    Mem.slice_congr fun a _ ha => followedBy_of_lt behind (lt_trans ha (by decide))
  exact congrArg ofLE hslice

theorem slotAt_followedBy {s : Nat} (h : 12 + 4 * (s + 1) ≤ PAGE_SIZE) :
    (p.followedBy behind).slotAt s = p.slotAt s := by
  rw [slotAt, slotAt, slotBase_natCast, readU16_followedBy behind (by omega),
    readU16_followedBy behind (by omega)]

theorem WF.slot_le (h : p.WF) {s : Nat} (hs : s < p.slotCount) : 12 + 4 * (s + 1) ≤ PAGE_SIZE := by
  have hend := h.arrayEnd_le.trans h.freeEnd_le
  omega

theorem WF.followedBy (h : p.WF) : (p.followedBy behind).WF := by
  have hslot : ∀ s : Nat, s < p.slotCount → (p.followedBy behind).slotAt s = p.slotAt s :=
    fun s hs => slotAt_followedBy behind (h.slot_le hs)
  exact h.of_fields (slotCount_followedBy behind) (freeEnd_followedBy behind) fun s hs => .inl (hslot s hs)

theorem WF.liveBytes_followedBy (h : p.WF) : (p.followedBy behind).liveBytes = p.liveBytes := by
  rw [liveBytes_eq_sum, liveBytes_eq_sum, slotCount_followedBy]
  congr 1
  refine List.map_congr_left fun s hs => ?_
  rw [slotAt_followedBy behind (h.slot_le (List.mem_range.mp hs))]

theorem WF.redoFits_followedBy (h : p.WF) {slot : Nat} {record : Bytes} :
    (p.followedBy behind).RedoFits slot record ↔ p.RedoFits slot record := by
  have hspares : (p.followedBy behind).Spares slot ↔ p.Spares slot := by
    unfold Spares
    rw [slotCount_followedBy]
    refine forall₂_congr fun s hs => ?_
    rw [slotAt_followedBy behind (h.slot_le hs)]
    refine forall₄_congr fun a _ hlt _ => ?_
    have hin := (h.inside s hs (by omega)).2
    rw [followedBy_of_lt behind (by omega)]
  rw [RedoFits, RedoFits, slotCount_followedBy, h.liveBytes_followedBy, hspares]

end Over

/-! ## What the slots are written over -/

theorem writeU16_bytes_of_not (p : Page) {o a : Nat} (v : Nat) (h : ¬(o ≤ a ∧ a < o + 2)) :
    (p.writeU16 o v).bytes a = p.bytes a := by
  simp only [writeU16, Mem.writeLE, Mem.blit, length_toLE]
  rw [if_neg h]

theorem writeU16_zero_bytes (p : Page) (o a : Nat) :
    (p.writeU16 o 0).bytes a = if o ≤ a ∧ a < o + 2 then 0 else p.bytes a := by
  split
  · rename_i h
    have hzero : ∀ i, (toLE 2 0).getD i 0 = 0
      | 0 | 1 => rfl
      | _ + 2 => rfl
    simp only [writeU16, Mem.writeLE, Mem.blit, length_toLE]
    rw [if_pos h, hzero]
  · rename_i h
    exact p.writeU16_bytes_of_not 0 h

theorem setSlot_zero_bytes (p : Page) (s a : Nat) :
    (p.setSlot s 0 0).bytes a =
      if 12 + 4 * s ≤ a ∧ a < 12 + 4 * (s + 1) then 0 else p.bytes a := by
  rw [setSlot, slotBase_natCast, writeU16_zero_bytes, writeU16_zero_bytes]
  split
  · rw [if_pos (by omega)]
  · split
    · rw [if_pos (by omega)]
    · rw [if_neg (by omega)]

theorem foldl_setSlot_zero_bytes (p : Page) (s n a : Nat) :
    ((List.range' s n).foldl (fun q s => q.setSlot (s : Nat) 0 0) p).bytes a =
      if 12 + 4 * s ≤ a ∧ a < 12 + 4 * (s + n) then 0 else p.bytes a := by
  induction n with
  | zero => rw [if_neg (by omega)]; rfl
  | succ n ih =>
    rw [List.range'_1_concat, List.foldl_append, List.foldl_cons, List.foldl_nil,
      setSlot_zero_bytes, ih]
    split
    · rw [if_pos (by omega)]
    · split
      · rw [if_pos (by omega)]
      · rw [if_neg (by omega)]

/-- The bytes from the end of the slots on to the end of the new ones become zeros. -/
theorem extend_bytes {p : Page} {slot : Nat} (h : p.slotCount ≤ slot) {a : Nat} (ha : 2 ≤ a) :
    (p.extend slot).bytes a =
      if 12 + 4 * p.slotCount ≤ a ∧ a < 12 + 4 * (slot + 1) then 0 else p.bytes a := by
  simp only [extend]
  rw [if_pos (by omega), writeU16_bytes_of_not _ _ (by omega), foldl_setSlot_zero_bytes,
    Int.toNat_natCast, show p.slotCount + (slot + 1 - p.slotCount) = slot + 1 by omega]

/-- The fields of a page to which slots are added, also of one too small for them. -/
theorem extend_fields {p : Page} {slot : Nat} (h : p.slotCount ≤ slot) (hlt : slot < 65535) :
    (p.extend slot).slotCount = slot + 1 ∧ (p.extend slot).freeEnd = p.freeEnd ∧
      (∀ s : Nat, s < p.slotCount → (p.extend slot).slotAt s = p.slotAt s) ∧
      ∀ s : Nat, p.slotCount ≤ s → s ≤ slot → (p.extend slot).slotAt s = (0, 0) := by
  obtain ⟨-, hfree, -, hin, hout, -⟩ :=
    foldl_setSlot_zero (List.range' p.slotCount (slot + 1 - p.slotCount)) p
  have hcount : toU16 ((slot : Int) + 1) = slot + 1 := by
    have hcast := toU16_ofNat (n := slot + 1) (by omega)
    simpa using hcast
  simp only [extend]
  rw [if_pos (by omega), hcount, Int.toNat_natCast]
  refine ⟨slotCount_writeCount _ (by omega), by rw [freeEnd_writeCount, hfree], fun s hs => ?_,
    fun s hs hle => ?_⟩
  · rw [slotAt_writeCount, hout s fun hmem => by rw [List.mem_range'_1] at hmem; omega]
  · rw [slotAt_writeCount, hin s (List.mem_range'_1.mpr (by omega))]

theorem liveBytes_extend {p : Page} {slot : Nat} (h : p.slotCount ≤ slot) (hlt : slot < 65535) :
    (p.extend slot).liveBytes = p.liveBytes := by
  obtain ⟨hcount, -, hold, hnew⟩ := extend_fields h hlt
  rw [liveBytes_eq_sum, liveBytes_eq_sum, hcount,
    show slot + 1 = p.slotCount + (slot + 1 - p.slotCount) by omega, List.range_add,
    List.map_append, List.sum_append]
  have hzeros : ((List.range (slot + 1 - p.slotCount)).map (p.slotCount + ·)).map
      (fun s : Nat => ((p.extend slot).slotAt s).2) =
      (List.range (slot + 1 - p.slotCount)).map fun _ => 0 := by
    rw [List.map_map]
    refine List.map_congr_left fun s hs => ?_
    rw [List.mem_range] at hs
    simp only [Function.comp_apply]
    rw [hnew _ (by omega) (by omega)]
  have hsum : ((List.range (slot + 1 - p.slotCount)).map fun _ => 0).sum = 0 := by simp
  rw [hzeros, hsum, Nat.add_zero]
  congr 1
  refine List.map_congr_left fun s hs => ?_
  rw [hold s (List.mem_range.mp hs)]

/-! ## Writes within the page -/

theorem Within.refl (p : Page) : p.Within p := fun _ _ => rfl

theorem Within.trans {p q r : Page} (h : p.Within q) (h' : q.Within r) : p.Within r :=
  fun a ha => (h' a ha).trans (h a ha)

theorem within_blit (p : Page) {o : Nat} {bs : Bytes} (h : o + bs.length ≤ PAGE_SIZE) :
    p.Within ⟨p.bytes.blit o bs⟩ := fun _ ha => Mem.blit_of_ge _ bs (h.trans ha)

theorem within_writeU16 (p : Page) {o : Nat} (v : Nat) (h : o + 2 ≤ PAGE_SIZE) :
    p.Within (p.writeU16 o v) := p.within_blit (by simpa using h)

theorem within_setSlot (p : Page) {s : Nat} (o l : Nat) (h : 12 + 4 * (s + 1) ≤ PAGE_SIZE) :
    p.Within (p.setSlot s o l) := by
  rw [setSlot, slotBase_natCast]
  exact (p.within_writeU16 o (by omega)).trans (within_writeU16 _ l (by omega))

theorem within_stampLSN (p : Page) (lsn : Nat) : p.Within (p.stampLSN lsn) := by
  unfold stampLSN
  split
  · refine p.within_blit ?_
    rw [length_toLE]
    decide
  · exact .refl p

theorem within_compact {p : Page} (h : 12 + 4 * p.slotCount + p.liveBytes ≤ PAGE_SIZE) :
    p.Within p.compact := by
  have hfold : ∀ (live : List (Nat × Bytes)) (q : Page) (freeEnd : Nat), freeEnd ≤ PAGE_SIZE →
      recordBytes live ≤ freeEnd → (∀ s r, (s, r) ∈ live → 12 + 4 * (s + 1) ≤ PAGE_SIZE) →
      q.Within (live.foldl compactStep (q, freeEnd)).1 := by
    intro live
    induction live with
    | nil => exact fun q _ _ _ _ => .refl q
    | cons rec live ih =>
      obtain ⟨s, r⟩ := rec
      intro q freeEnd hle hbytes hslots
      rw [recordBytes_cons] at hbytes
      dsimp only at hbytes
      have hsize : PAGE_SIZE = 4096 := rfl
      have hoffset : toU16 ((freeEnd : Int) - r.length) = freeEnd - r.length :=
        toU16_sub (by omega) (by omega)
      rw [List.foldl_cons, compactStep]
      dsimp only
      rw [hoffset]
      refine ((q.within_blit (by omega)).trans (within_setSlot _ _ _
        (hslots s r List.mem_cons_self))).trans (ih _ _ (by omega) (by omega) fun t r' ht => ?_)
      exact hslots t r' (List.mem_cons_of_mem _ ht)
  have hstart : toU16 PAGE_SIZE = PAGE_SIZE := rfl
  rw [compact, hstart]
  refine (hfold p.liveRecords p PAGE_SIZE le_rfl ?_ fun s r hr => ?_).trans
    (within_writeU16 _ _ (by decide))
  · rw [recordBytes_liveRecords]
    omega
  · have hs := ((p.get_eq_some_iff s r).mp ((p.mem_liveRecords s r).mp hr)).1
    omega

theorem within_place (p : Page) {slot : Nat} {record : Bytes}
    (hslot : 12 + 4 * (slot + 1) ≤ PAGE_SIZE) (hlen : record.length ≤ p.freeEnd)
    (hfree : p.freeEnd ≤ PAGE_SIZE) : p.Within (p.place slot record) := by
  have hoffset : toU16 ((p.readU16 2 : Int) - record.length) = p.freeEnd - record.length :=
    toU16_sub hlen p.freeEnd_lt
  rw [place, hoffset]
  exact (p.within_blit (by omega)).trans (within_setSlot _ _ _ hslot)

theorem within_extend {p : Page} {slot : Nat} (hslot : 12 + 4 * (slot + 1) ≤ PAGE_SIZE) :
    p.Within (p.extend slot) := by
  intro a ha
  by_cases h : p.slotCount ≤ slot
  · rw [extend_bytes h (by omega), if_neg (by omega)]
  · rw [extend_of_lt p (by omega)]

/-! ## The cases of `redoSet` -/

section Cases

variable {p : Page} (hwf : p.WF) {slot lsn : Nat} {record : Bytes}
  (hlsn : lsn = 0 ∨ p.pageLSN < lsn)
include hwf hlsn

theorem WF.not_skips : ¬p.Skips lsn := by
  rw [Skips, hwf.format]
  omega

theorem redoSet_of_get (hget : p.get slot = some record) :
    p.redoSet slot record lsn = (p.stampLSN lsn, true) := by
  have hskip : ¬(lsn ≠ 0 ∧ lsn ≤ p.pageLSN) := by omega
  simp only [redoSet, hwf.format]
  rw [if_neg hskip, if_pos hget]

theorem redoSet_of_long (hget : p.get slot ≠ some record) (hlen : 0xFFFF < record.length) :
    p.redoSet slot record lsn = (p, false) := by
  have hskip : ¬(lsn ≠ 0 ∧ lsn ≤ p.pageLSN) := by omega
  simp only [redoSet, hwf.format]
  rw [if_neg hskip, if_neg hget, if_pos (.inr hlen)]

/-- A record that does not fit is refused after the slots are added. -/
theorem redoSet_of_not_fits (hget : p.get slot ≠ some record) (hrec : record ≠ [])
    (hlen : record.length ≤ 0xFFFF)
    (hfits : (p.extend slot).freeSpace < record.length ∧
      (p.extend slot).usableSpace < record.length) :
    p.redoSet slot record lsn = (p.extend slot, false) := by
  have hskip : ¬(lsn ≠ 0 ∧ lsn ≤ p.pageLSN) := by omega
  have hrec : record.length ≠ 0 := by simpa using hrec
  simp only [redoSet, hwf.format]
  rw [if_neg hskip, if_neg hget, if_neg (by omega), if_pos hfits]

/-- A record that fits is placed. -/
theorem redoSet_of_fits (hget : p.get slot ≠ some record) (hrec : record ≠ [])
    (hlen : record.length ≤ 0xFFFF)
    (hfits : ¬((p.extend slot).freeSpace < record.length ∧
      (p.extend slot).usableSpace < record.length)) :
    ∃ q, p.redoSet slot record lsn = (q, true) ∧
      (12 + 4 * (slot + 1) ≤ PAGE_SIZE → p.Within q) := by
  have hskip : ¬(lsn ≠ 0 ∧ lsn ≤ p.pageLSN) := by omega
  have hrec' : record.length ≠ 0 := by simpa using hrec
  simp only [redoSet, hwf.format]
  rw [if_neg hskip, if_neg hget, if_neg (by omega), if_neg hfits]
  refine ⟨_, rfl, fun hslot => ?_⟩
  obtain ⟨-, -, -, hwf₁⟩ := hwf.extend_worn hslot
  obtain ⟨p₂, hp₂⟩ : ∃ p₂, p₂ = if (p.extend slot).freeSpace < (record.length : Int) then
      (p.extend slot).compact else p.extend slot := ⟨_, rfl⟩
  obtain ⟨hwf₂, -, -, -, hfree₂⟩ := makeRoom hwf₁ (by omega) hfits hp₂
  have hmade : (p.extend slot).Within p₂ := by
    rw [hp₂]
    split
    · refine within_compact ?_
      rename_i hlt
      have husable := (p.extend slot).usableSpace_eq
      rw [PAGE_SIZE]
      omega
    · exact .refl _
  rw [← hp₂]
  exact (within_extend hslot).trans (hmade.trans ((p₂.within_place hslot (by omega)
    hwf₂.freeEnd_le).trans ((within_writeU16 _ _ (by decide)).trans (within_stampLSN _ lsn))))

end Cases

section Added

variable {p : Page} (hwf : p.WF) {slot : Nat} (hge : p.slotCount ≤ slot) (hlt : slot < 65535)
include hwf hge hlt

theorem WF.fits_extend_iff (record : Bytes) :
    ¬((p.extend slot).freeSpace < record.length ∧ (p.extend slot).usableSpace < record.length) ↔
      12 + 4 * (slot + 1) + p.liveBytes + record.length ≤ PAGE_SIZE := by
  obtain ⟨hcount, hfree, -, -⟩ := extend_fields hge hlt
  have hlive := hwf.liveBytes_le
  rw [freeSpace_eq, usableSpace_eq, hcount, hfree, liveBytes_extend hge hlt]
  rw [PAGE_SIZE] at *
  omega

theorem WF.get_extend_iff :
    (∀ s : Nat, s ≠ slot → (p.get s).isSome → (p.extend slot).get s = p.get s) ↔
      p.Spares slot := by
  obtain ⟨hcount, -, hold, -⟩ := extend_fields hge hlt
  have hslice : ∀ s : Nat, s < p.slotCount → (p.slotAt s).2 ≠ 0 →
      ((p.extend slot).get s = p.get s ↔ ∀ a, (p.slotAt s).1 ≤ a →
        a < (p.slotAt s).1 + (p.slotAt s).2 → a < 12 + 4 * (slot + 1) → p.bytes a = 0) := by
    intro s hs hl
    have hend := hwf.slot_ge hs hl
    rw [get_natCast, get_natCast, hcount, hold s hs, if_pos ⟨by omega, hl⟩, if_pos ⟨hs, hl⟩,
      Option.some_inj]
    constructor
    · intro hsame a ha hlt' hslot
      have hbyte := List.map_inj_left.mp hsame (a - (p.slotAt s).1) (List.mem_range.mpr (by omega))
      rw [Nat.add_sub_cancel' ha, extend_bytes hge (by omega), if_pos ⟨by omega, hslot⟩] at hbyte
      exact hbyte.symm
    · intro hzero
      refine Mem.slice_congr fun a ha hlt' => ?_
      rw [extend_bytes hge (by omega)]
      split
      · rename_i hin
        exact (hzero a ha hlt' hin.2).symm
      · rfl
  constructor
  · intro hsame s hs a ha hlt' hslot
    have hl : (p.slotAt s).2 ≠ 0 := by omega
    have hget : (p.get s).isSome := by rw [get_natCast, if_pos ⟨hs, hl⟩]; rfl
    exact (hslice s hs hl).mp (hsame s (by omega) hget) a ha hlt' hslot
  · intro hspares s _ hget
    obtain ⟨r, hr⟩ := Option.isSome_iff_exists.mp hget
    obtain ⟨hs, hl, -⟩ := (p.get_eq_some_iff s r).mp hr
    exact (hslice s hs hl).mpr (hspares s hs)

end Added

/-! ## When it is all or nothing -/

section Exact

variable {p : Page} (hwf : p.WF) {slot lsn : Nat} {record : Bytes}
  (hlsn : lsn = 0 ∨ p.pageLSN < lsn) (hrec : record ≠ [])
include hwf hlsn hrec

theorem allOrNothing_of_redoFits (h : p.RedoFits slot record) :
    p.AllOrNothing slot record lsn := by
  unfold AllOrNothing
  by_cases hget : p.get slot = some record
  · rw [redoSet_of_get hwf hlsn hget]
    exact ⟨within_stampLSN p lsn, (hwf.get_stampLSN lsn slot).trans hget,
      fun s _ _ => hwf.get_stampLSN lsn s, hwf.stampLSN lsn⟩
  by_cases hlen : 0xFFFF < record.length
  · rw [redoSet_of_long hwf hlsn hget hlen]
    exact ⟨.refl p, fun _ => rfl, rfl⟩
  -- the slots spare the records, and the record is placed unless no slot is added
  have hslot : 12 + 4 * (slot + 1) ≤ PAGE_SIZE := by
    rcases h with hlt | hlong | ⟨hroom, -⟩
    · exact hwf.slot_le hlt
    · exact absurd hlong hlen
    · omega
  by_cases hfits : (p.extend slot).freeSpace < record.length ∧
      (p.extend slot).usableSpace < record.length
  · rw [redoSet_of_not_fits hwf hlsn hget hrec (by omega) hfits]
    rcases Nat.lt_or_ge slot p.slotCount with hlt | hge
    · rw [extend_of_lt p (by omega)]
      exact ⟨.refl p, fun _ => rfl, rfl⟩
    · rcases h with hlt | hlong | ⟨hroom, -⟩
      · omega
      · exact absurd hlong hlen
      · rw [PAGE_SIZE] at hslot
        exact absurd hfits ((hwf.fits_extend_iff hge (by omega) record).mpr hroom)
  · obtain ⟨q, hq, hwithin⟩ := redoSet_of_fits hwf hlsn hget hrec (by omega) hfits
    have htrue : (p.redoSet slot record lsn).2 = true := by rw [hq]
    obtain ⟨hwf', -, -, hget'⟩ :=
      redoSet_of_true (.inl hwf) hslot hrec (hwf.not_skips hlsn) htrue
    rw [hq] at hwf' hget' ⊢
    rw [hwf.format] at hget'
    refine ⟨hwithin hslot, (hget' slot).trans (if_pos rfl), fun s hs hlive => ?_, hwf'⟩
    rw [hget' s, if_neg hs]
    rcases Nat.lt_or_ge slot p.slotCount with hlt | hge
    · rw [extend_of_lt p (by omega)]
    · rcases h with hlt | hlong | ⟨-, hspares⟩
      · omega
      · exact absurd hlong hlen
      · rw [PAGE_SIZE] at hslot
        exact (hwf.get_extend_iff hge (by omega)).mpr hspares s hs hlive

theorem redoFits_of_allOrNothing (h : p.AllOrNothing slot record lsn) (hlt : slot < 65535) :
    p.RedoFits slot record := by
  rcases Nat.lt_or_ge slot p.slotCount with hs | hge
  · exact .inl hs
  rcases Nat.lt_or_ge 0xFFFF record.length with hlong | hlen
  · exact .inr (.inl hlong)
  have hget : p.get slot ≠ some record := by
    rw [get_of_ge p hge]
    nofun
  unfold AllOrNothing at h
  have hfits : ¬((p.extend slot).freeSpace < record.length ∧
      (p.extend slot).usableSpace < record.length) := by
    intro hnot
    rw [redoSet_of_not_fits hwf hlsn hget hrec hlen hnot] at h
    have hcount := (extend_fields hge hlt).1
    have hsame := h.2.2
    omega
  have hroom := (hwf.fits_extend_iff hge hlt record).mp hfits
  obtain ⟨q, hq, -⟩ := redoSet_of_fits hwf hlsn hget hrec hlen hfits
  have htrue : (p.redoSet slot record lsn).2 = true := by rw [hq]
  obtain ⟨-, -, -, hget'⟩ :=
    redoSet_of_true (.inl hwf) (by omega) hrec (hwf.not_skips hlsn) htrue
  rw [hq] at h hget'
  rw [hwf.format] at hget'
  refine .inr (.inr ⟨hroom, (hwf.get_extend_iff hge hlt).mp fun s hs hlive => ?_⟩)
  rw [← h.2.2.1 s hs hlive, hget' s, if_neg hs]

/-- A slot behind the page is written there, unless its number does not fit into the count. -/
theorem not_allOrNothing_behind (hge : 65535 ≤ slot) (hlen : record.length ≤ 0xFFFF) :
    ¬(p.followedBy fun _ => 1).AllOrNothing slot record lsn := by
  have hwf' := hwf.followedBy fun _ => 1
  have hlsn' : lsn = 0 ∨ (p.followedBy fun _ => 1).pageLSN < lsn := by rwa [pageLSN_followedBy]
  have hcount : (p.followedBy fun _ => 1).slotCount ≤ 1021 := by
    have hend := hwf'.arrayEnd_le.trans hwf'.freeEnd_le
    rw [PAGE_SIZE] at hend
    omega
  have hbehind : (p.followedBy fun _ => 1).bytes PAGE_SIZE = 1 := followedBy_of_ge _ le_rfl
  generalize p.followedBy (fun _ => 1) = q at *
  have hget : q.get slot ≠ some record := by
    rw [get_of_ge q (by omega)]
    exact (Option.some_ne_none record).symm
  intro h
  unfold AllOrNothing at h
  by_cases hfits : (q.extend slot).freeSpace < record.length ∧
      (q.extend slot).usableSpace < record.length
  · rw [redoSet_of_not_fits hwf' hlsn' hget hrec hlen hfits] at h
    have hbyte := h.1 PAGE_SIZE le_rfl
    rw [hbehind, extend_bytes (by omega) (by decide), PAGE_SIZE, if_pos (by omega)] at hbyte
    exact absurd hbyte (by decide)
  · obtain ⟨q', hq', -⟩ := redoSet_of_fits hwf' hlsn' hget hrec hlen hfits
    rw [hq'] at h
    obtain ⟨hlive, -, -⟩ := (q'.get_eq_some_iff slot record).mp h.2.1
    have hmax := q'.slotCount_lt
    omega

/-- `redoSet` is all or nothing, whatever lies behind the page, exactly if it places the record in
a slot that is there, or gives it up before it adds slots, or has room and spares the records. -/
theorem allOrNothing_iff :
    (∀ behind, (p.followedBy behind).AllOrNothing slot record lsn) ↔ p.RedoFits slot record := by
  have hlsn' : ∀ behind, lsn = 0 ∨ (p.followedBy behind).pageLSN < lsn := fun behind => by
    rwa [pageLSN_followedBy]
  constructor
  · intro h
    rcases Nat.lt_or_ge slot 65535 with hlt | hge
    · exact (hwf.redoFits_followedBy p.bytes).mp
        (redoFits_of_allOrNothing (hwf.followedBy _) (hlsn' _) hrec (h p.bytes) hlt)
    · rcases Nat.lt_or_ge 0xFFFF record.length with hlong | hlen
      · exact .inr (.inl hlong)
      exact absurd (h fun _ => 1) (not_allOrNothing_behind hwf hlsn hrec hge hlen)
  · exact fun h behind => allOrNothing_of_redoFits (hwf.followedBy behind) (hlsn' behind) hrec
      ((hwf.redoFits_followedBy behind).mpr h)

end Exact

theorem allOrNothing_init : init.WF ∧ ∀ behind, (init.followedBy behind).AllOrNothing 1 [7] 3 := by
  refine ⟨wf_init, ?_⟩
  have hlive : init.liveBytes = 0 := by rw [liveBytes_eq_sum, slotCount_init]; rfl
  have hspares : init.Spares 1 := by
    intro s hs
    rw [slotCount_init] at hs
    exact absurd hs (Nat.not_lt_zero s)
  have hfits : init.RedoFits 1 [7] := by
    rw [RedoFits, hlive]
    exact .inr (.inr ⟨by decide, hspares⟩)
  have hlsn : init.pageLSN < 3 := by rw [pageLSN_init]; decide
  rw [allOrNothing_iff wf_init (.inr hlsn) (List.cons_ne_nil 7 [])]
  exact hfits

/-- A record of 4077 bytes does not fit with two slots, and the page keeps these. -/
theorem not_allOrNothing_init : init.WF ∧ ¬init.AllOrNothing 1 (List.replicate 4077 1) 0 := by
  have hlen := List.length_replicate (n := 4077) (a := (1 : UInt8))
  generalize List.replicate 4077 (1 : UInt8) = record at hlen ⊢
  refine ⟨wf_init, fun h => ?_⟩
  have hrec : record ≠ [] := by
    rintro rfl
    cases hlen
  have hfits := redoFits_of_allOrNothing wf_init (.inl rfl) hrec h (by omega)
  rw [RedoFits, hlen, slotCount_init, PAGE_SIZE] at hfits
  omega

end Page

end Relite.Backend
