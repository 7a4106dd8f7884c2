import Relite.Backend.Page
import Mathlib.Tactic.Linarith

/-!
# Header fields and slots under page writes

Every write of `Page` touches one interval of bytes. These lemmas say what a header
field, a slot or a record area reads after each of them, so that no later proof goes
back to byte addresses.
-/
namespace Relite.Backend
open Lib

theorem toU16_ofNat {n : Nat} (h : n < 65536) : toU16 n = n := by
  unfold toU16; omega

theorem toU16_sub {a b : Nat} (h : b ≤ a) (ha : a < 65536) : toU16 ((a : Int) - b) = a - b := by
  unfold toU16; omega

namespace Page

/-- The lowest address of the record area. -/
def freeEnd (p : Page) : Nat := p.readU16 2

theorem slotBase_natCast (s : Nat) : slotBase s = 12 + 4 * s := by
  simp only [slotBase, HEADER_SIZE, SLOT_SIZE]; omega

theorem readU16_lt (p : Page) (o : Nat) : p.readU16 o < 65536 := by
  exact p.bytes.readLE_lt 2 o

@[simp] theorem readU16_writeU16_self (p : Page) (o v : Nat) :
    (p.writeU16 o v).readU16 o = v % 65536 := by
  exact p.bytes.readLE_writeLE_self 2 o v

theorem readU16_writeU16_of_disjoint (p : Page) {o o' : Nat} (v : Nat)
    (h : o + 2 ≤ o' ∨ o' + 2 ≤ o) : (p.writeU16 o' v).readU16 o = p.readU16 o :=
  p.bytes.readLE_writeLE_of_disjoint v h

theorem readU16_blit (p : Page) {o o' : Nat} (bs : Bytes) (h : o + 2 ≤ o') :
    (Page.mk (p.bytes.blit o' bs)).readU16 o = p.readU16 o :=
  p.bytes.readLE_blit_of_disjoint bs (.inl h)

theorem readU16_setPageLSN (p : Page) {o : Nat} (lsn : Nat) (h : o + 2 ≤ 4 ∨ 12 ≤ o) :
    (p.setPageLSN lsn).readU16 o = p.readU16 o :=
  p.bytes.readLE_writeLE_of_disjoint lsn (by simp only [LSN_OFFSET]; omega)

/-! ## The slot count -/

theorem slotCount_lt (p : Page) : p.slotCount < 65536 := p.readU16_lt 0

theorem slotCount_writeCount (p : Page) {n : Nat} (h : n < 65536) :
    (p.writeU16 0 n).slotCount = n := by
  simp only [slotCount, readU16_writeU16_self]; omega

@[simp] theorem slotCount_writeFreeEnd (p : Page) (v : Nat) :
    (p.writeU16 2 v).slotCount = p.slotCount :=
  p.readU16_writeU16_of_disjoint v (.inl (by omega))

@[simp] theorem slotCount_setSlot (p : Page) (s : Nat) (o l : Nat) :
    (p.setSlot s o l).slotCount = p.slotCount := by
  simp only [slotCount, setSlot, slotBase_natCast]
  rw [readU16_writeU16_of_disjoint _ _ (.inl (by omega)),
    readU16_writeU16_of_disjoint _ _ (.inl (by omega))]

theorem slotCount_blit (p : Page) {o : Nat} (bs : Bytes) (h : 2 ≤ o) :
    (Page.mk (p.bytes.blit o bs)).slotCount = p.slotCount :=
  p.readU16_blit bs h

@[simp] theorem slotCount_setPageLSN (p : Page) (lsn : Nat) :
    (p.setPageLSN lsn).slotCount = p.slotCount :=
  p.readU16_setPageLSN lsn (.inl (by omega))

/-! ## The start of the record area -/

theorem freeEnd_lt (p : Page) : p.freeEnd < 65536 := p.readU16_lt 2

theorem freeEnd_writeFreeEnd (p : Page) {v : Nat} (h : v < 65536) :
    (p.writeU16 2 v).freeEnd = v := by
  simp only [freeEnd, readU16_writeU16_self]; omega

@[simp] theorem freeEnd_writeCount (p : Page) (n : Nat) : (p.writeU16 0 n).freeEnd = p.freeEnd :=
  p.readU16_writeU16_of_disjoint n (.inr (by omega))

@[simp] theorem freeEnd_setSlot (p : Page) (s : Nat) (o l : Nat) :
    (p.setSlot s o l).freeEnd = p.freeEnd := by
  simp only [freeEnd, setSlot, slotBase_natCast]
  rw [readU16_writeU16_of_disjoint _ _ (.inl (by omega)),
    readU16_writeU16_of_disjoint _ _ (.inl (by omega))]

theorem freeEnd_blit (p : Page) {o : Nat} (bs : Bytes) (h : 4 ≤ o) :
    (Page.mk (p.bytes.blit o bs)).freeEnd = p.freeEnd :=
  p.readU16_blit bs h

@[simp] theorem freeEnd_setPageLSN (p : Page) (lsn : Nat) :
    (p.setPageLSN lsn).freeEnd = p.freeEnd :=
  p.readU16_setPageLSN lsn (.inl (by omega))

/-! ## The page LSN -/

theorem pageLSN_setPageLSN (p : Page) (lsn : Nat) :
    (p.setPageLSN lsn).pageLSN = lsn % 2 ^ 64 := by
  have h := p.bytes.readLE_writeLE_self 8 LSN_OFFSET lsn
  rw [pageLSN, setPageLSN, h, show (256 : Nat) ^ 8 = 2 ^ 64 by norm_num]

theorem pageLSN_writeU16 (p : Page) {o : Nat} (v : Nat) (h : o + 2 ≤ 4 ∨ 12 ≤ o) :
    (p.writeU16 o v).pageLSN = p.pageLSN :=
  p.bytes.readLE_writeLE_of_disjoint v (by simp only [LSN_OFFSET]; omega)

@[simp] theorem pageLSN_writeCount (p : Page) (v : Nat) : (p.writeU16 0 v).pageLSN = p.pageLSN :=
  p.pageLSN_writeU16 v (.inl (by omega))

@[simp] theorem pageLSN_writeFreeEnd (p : Page) (v : Nat) :
    (p.writeU16 2 v).pageLSN = p.pageLSN :=
  p.pageLSN_writeU16 v (.inl (by omega))

@[simp] theorem pageLSN_setSlot (p : Page) (s : Nat) (o l : Nat) :
    (p.setSlot s o l).pageLSN = p.pageLSN := by
  rw [setSlot, pageLSN_writeU16 _ _ (.inr (by rw [slotBase_natCast]; omega)),
    pageLSN_writeU16 _ _ (.inr (by rw [slotBase_natCast]; omega))]

theorem pageLSN_blit (p : Page) {o : Nat} (bs : Bytes) (h : 12 ≤ o) :
    (Page.mk (p.bytes.blit o bs)).pageLSN = p.pageLSN :=
  p.bytes.readLE_blit_of_disjoint bs (.inl (by simpa [LSN_OFFSET] using h))

/-! ## Slots -/

theorem slotAt_setSlot_self (p : Page) (s : Nat) {o l : Nat} (ho : o < 65536) (hl : l < 65536) :
    (p.setSlot s o l).slotAt s = (o, l) := by
  simp only [slotAt, setSlot]
  rw [readU16_writeU16_of_disjoint _ _ (.inl (by omega)), readU16_writeU16_self,
    readU16_writeU16_self, Nat.mod_eq_of_lt ho, Nat.mod_eq_of_lt hl]

theorem slotAt_setSlot_of_ne (p : Page) {s t : Nat} (o l : Nat) (h : s ≠ t) :
    (p.setSlot t o l).slotAt s = p.slotAt s := by
  simp only [slotAt, setSlot, slotBase_natCast]
  have hst : s < t ∨ t < s := by omega
  congr 1 <;>
    rw [readU16_writeU16_of_disjoint _ _ (by omega), readU16_writeU16_of_disjoint _ _ (by omega)]

theorem slotAt_writeU16 (p : Page) {o : Nat} (s v : Nat) (h : o + 2 ≤ 12) :
    (p.writeU16 o v).slotAt s = p.slotAt s := by
  simp only [slotAt, slotBase_natCast]
  rw [readU16_writeU16_of_disjoint _ _ (.inr (by omega)),
    readU16_writeU16_of_disjoint _ _ (.inr (by omega))]

@[simp] theorem slotAt_writeCount (p : Page) (s v : Nat) :
    (p.writeU16 0 v).slotAt s = p.slotAt s := p.slotAt_writeU16 s v (by omega)

@[simp] theorem slotAt_writeFreeEnd (p : Page) (s v : Nat) :
    (p.writeU16 2 v).slotAt s = p.slotAt s := p.slotAt_writeU16 s v (by omega)

@[simp] theorem slotAt_setPageLSN (p : Page) (s lsn : Nat) :
    (p.setPageLSN lsn).slotAt s = p.slotAt s := by
  simp only [slotAt, slotBase_natCast]
  rw [readU16_setPageLSN _ _ (.inr (by omega)), readU16_setPageLSN _ _ (.inr (by omega))]

theorem slotAt_blit (p : Page) {o s : Nat} (bs : Bytes) (h : 12 + 4 * (s + 1) ≤ o) :
    (Page.mk (p.bytes.blit o bs)).slotAt s = p.slotAt s := by
  simp only [slotAt, slotBase_natCast]
  rw [readU16_blit _ _ (by omega), readU16_blit _ _ (by omega)]

theorem slotAt_snd_lt (p : Page) (s : Int) : (p.slotAt s).2 < 65536 := p.readU16_lt _

theorem slotAt_fst_lt (p : Page) (s : Int) : (p.slotAt s).1 < 65536 := p.readU16_lt _

/-! ## Record bytes -/

theorem slice_writeU16 (p : Page) {o off len : Nat} (v : Nat) (h : o + 2 ≤ off) :
    (p.writeU16 o v).bytes.slice off len = p.bytes.slice off len :=
  p.bytes.slice_writeLE_of_disjoint v (.inr h)

theorem slice_setSlot (p : Page) {s off len : Nat} (o l : Nat) (h : 12 + 4 * (s + 1) ≤ off) :
    (p.setSlot s o l).bytes.slice off len = p.bytes.slice off len := by
  rw [setSlot, slotBase_natCast, slice_writeU16 _ _ (by omega), slice_writeU16 _ _ (by omega)]

theorem slice_setPageLSN (p : Page) {off len : Nat} (lsn : Nat) (h : 12 ≤ off) :
    (p.setPageLSN lsn).bytes.slice off len = p.bytes.slice off len :=
  p.bytes.slice_writeLE_of_disjoint lsn (.inr (by simpa [LSN_OFFSET] using h))

end Page

end Relite.Backend
