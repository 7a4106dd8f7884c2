import Mathlib.Data.List.Basic
import Mathlib.Tactic.Ring

/-!
# Byte memory

A byte memory is a total map from addresses to bytes. `slice` reads an interval,
`blit` overwrites one, and fixed-width little-endian numbers are read and written
through them. Each write lemma comes in two forms: what the written interval holds
afterwards, and that a disjoint interval is unchanged.
-/
namespace Relite.Lib

abbrev Bytes := List UInt8

abbrev Mem := Nat → UInt8

/-- The `w` low-order bytes of `v`, least significant first. -/
def toLE : Nat → Nat → Bytes
  | 0, _ => []
  | w + 1, v => UInt8.ofNat v :: toLE w (v / 256)

def ofLE : Bytes → Nat
  | [] => 0
  | b :: bs => b.toNat + 256 * ofLE bs

@[simp] theorem length_toLE (w v : Nat) : (toLE w v).length = w := by
  induction w generalizing v with
  | zero => rfl
  | succ w ih => simp [toLE, ih]

theorem ofLE_toLE (w v : Nat) : ofLE (toLE w v) = v % 256 ^ w := by
  induction w generalizing v with
  | zero => simp [toLE, ofLE, Nat.mod_one]
  | succ w ih =>
    have hb : (UInt8.ofNat v).toNat = v % 256 := by simp [UInt8.toNat_ofNat']
    rw [toLE, ofLE, ih, hb, pow_succ, Nat.mul_comm (256 ^ w) 256, Nat.mod_mul]

theorem ofLE_lt (bs : Bytes) : ofLE bs < 256 ^ bs.length := by
  induction bs with
  | nil => simp [ofLE]
  | cons b bs ih =>
    have hb : b.toNat < 256 := b.toNat_lt
    simp only [ofLE, List.length_cons, pow_succ]
    omega

theorem toLE_ofLE (bs : Bytes) : toLE bs.length (ofLE bs) = bs := by
  induction bs with
  | nil => rfl
  | cons b bs ih =>
    have hb : b.toNat < 256 := b.toNat_lt
    have hd : (b.toNat + 256 * ofLE bs) / 256 = ofLE bs := by omega
    have hm : UInt8.ofNat (b.toNat + 256 * ofLE bs) = b := by
      apply UInt8.toNat_inj.mp
      simp only [UInt8.toNat_ofNat']
      omega
    simp only [List.length_cons, toLE, ofLE, hd, hm, ih]

namespace Mem

def slice (m : Mem) (off len : Nat) : Bytes :=
  (List.range len).map fun i => m (off + i)

def blit (m : Mem) (off : Nat) (bs : Bytes) : Mem :=
  fun a => if off ≤ a ∧ a < off + bs.length then bs.getD (a - off) 0 else m a

/-- The unsigned `w`-byte number stored at `off`. -/
def readLE (m : Mem) (w off : Nat) : Nat := ofLE (m.slice off w)

def writeLE (m : Mem) (w off v : Nat) : Mem := m.blit off (toLE w v)

@[simp] theorem length_slice (m : Mem) (off len : Nat) : (m.slice off len).length = len := by
  simp [slice]

@[simp] theorem slice_zero (m : Mem) (off : Nat) : m.slice off 0 = [] := rfl

theorem slice_congr {m n : Mem} {off len : Nat}
    (h : ∀ a, off ≤ a → a < off + len → m a = n a) : m.slice off len = n.slice off len := by
  apply List.map_congr_left
  intro i hi
  have : i < len := by simpa using hi
  exact h _ (by omega) (by omega)

theorem blit_of_lt (m : Mem) {off a : Nat} (bs : Bytes) (h : a < off) :
    m.blit off bs a = m a := by
  simp only [blit]
  rw [if_neg (by omega)]

theorem blit_of_ge (m : Mem) {off a : Nat} (bs : Bytes) (h : off + bs.length ≤ a) :
    m.blit off bs a = m a := by
  simp only [blit]
  rw [if_neg (by omega)]

/-- Reading back the interval just written. -/
theorem slice_blit_self (m : Mem) (off : Nat) (bs : Bytes) :
    (m.blit off bs).slice off bs.length = bs := by
  apply List.ext_getElem (by simp)
  intro i h₁ h₂
  simp [slice, blit, h₂]

theorem slice_blit_of_disjoint (m : Mem) {off len off' : Nat} (bs : Bytes)
    (h : off + len ≤ off' ∨ off' + bs.length ≤ off) :
    (m.blit off' bs).slice off len = m.slice off len := by
  apply slice_congr
  intro a h₁ h₂
  rcases h with h | h
  · exact blit_of_lt m bs (by omega)
  · exact blit_of_ge m bs (by omega)

theorem readLE_lt (m : Mem) (w off : Nat) : m.readLE w off < 256 ^ w := by
  have h := ofLE_lt (m.slice off w)
  rwa [length_slice] at h

theorem readLE_writeLE_self (m : Mem) (w off v : Nat) :
    (m.writeLE w off v).readLE w off = v % 256 ^ w := by
  have h := slice_blit_self m off (toLE w v)
  rw [length_toLE] at h
  rw [readLE, writeLE, h, ofLE_toLE]

theorem readLE_blit_of_disjoint (m : Mem) {w off off' : Nat} (bs : Bytes)
    (h : off + w ≤ off' ∨ off' + bs.length ≤ off) :
    (m.blit off' bs).readLE w off = m.readLE w off := by
  rw [readLE, readLE, slice_blit_of_disjoint m bs h]

theorem readLE_writeLE_of_disjoint (m : Mem) {w off w' off' : Nat} (v : Nat)
    (h : off + w ≤ off' ∨ off' + w' ≤ off) :
    (m.writeLE w' off' v).readLE w off = m.readLE w off :=
  readLE_blit_of_disjoint m _ (by simpa using h)

theorem slice_writeLE_of_disjoint (m : Mem) {off len w' off' : Nat} (v : Nat)
    (h : off + len ≤ off' ∨ off' + w' ≤ off) :
    (m.writeLE w' off' v).slice off len = m.slice off len :=
  slice_blit_of_disjoint m _ (by simpa using h)

end Mem

end Relite.Lib
