import Relite.Lib.Bytes

/-!
# Slotted pages

A page is 4096 bytes: the slot count at 0, the start of the record area (`freeEnd`)
at 2, the page LSN at 4, then four bytes a slot (offset, length), with the records
growing down from the end. A slot of length 0 is dead, and no operation removes a
slot again.
-/
namespace Relite.Backend
open Lib

abbrev PAGE_SIZE : Nat := 4096

namespace Page

abbrev HEADER_SIZE : Nat := 12
abbrev SLOT_SIZE : Nat := 4
abbrev LSN_OFFSET : Nat := 4

end Page

/-- The bytes of a page. Addresses from `PAGE_SIZE` on lie behind the array. -/
structure Page where
  bytes : Mem

/-- The narrowing conversion to `std::uint16_t`. -/
def toU16 (x : Int) : Nat := (x % 65536).toNat

namespace Page

def readU16 (p : Page) (offset : Nat) : Nat := p.bytes.readLE 2 offset

def writeU16 (p : Page) (offset value : Nat) : Page := ⟨p.bytes.writeLE 2 offset value⟩

/-- The all-zero page, which is what reading a page behind the end of the file gives. -/
def zero : Page := ⟨fun _ => 0⟩

def init : Page := (zero.writeU16 0 0).writeU16 2 (toU16 PAGE_SIZE)

def pageLSN (p : Page) : Nat := p.bytes.readLE 8 LSN_OFFSET

def setPageLSN (p : Page) (lsn : Nat) : Page := ⟨p.bytes.writeLE 8 LSN_OFFSET lsn⟩

/-- The address of a slot. Slot ids are C++ `int`s: -1 to -3 fall into the header. -/
def slotBase (slot : Int) : Nat := (HEADER_SIZE + slot * SLOT_SIZE).toNat

def slotAt (p : Page) (slot : Int) : Nat × Nat :=
  (p.readU16 (slotBase slot), p.readU16 (slotBase slot + 2))

def setSlot (p : Page) (slot : Int) (offset length : Nat) : Page :=
  (p.writeU16 (slotBase slot) offset).writeU16 (slotBase slot + 2) length

def slotCount (p : Page) : Nat := p.readU16 0

def freeSpace (p : Page) : Int :=
  (p.readU16 2 : Int) - (HEADER_SIZE + p.slotCount * SLOT_SIZE : Nat)

def isLive (p : Page) (slot : Int) : Bool :=
  if slot < 0 ∨ (p.slotCount : Int) ≤ slot then false else (p.slotAt slot).2 != 0

/-- The bytes of all records that are still live. -/
def liveBytes (p : Page) : Nat :=
  (List.range p.slotCount).foldl (fun acc (s : Nat) => acc + (p.slotAt s).2) 0

def usableSpace (p : Page) : Int :=
  (PAGE_SIZE : Int) - (HEADER_SIZE + p.slotCount * SLOT_SIZE : Nat) - p.liveBytes

def freeBytes (p : Page) : Int := p.usableSpace

/-- The records `compact` copies out before it moves anything. -/
def liveRecords (p : Page) : List (Nat × Bytes) :=
  (List.range p.slotCount).filterMap fun (s : Nat) =>
    if (p.slotAt s).2 = 0 then none
    else some (s, p.bytes.slice (p.slotAt s).1 (p.slotAt s).2)

def compactStep (acc : Page × Nat) (rec : Nat × Bytes) : Page × Nat :=
  let freeEnd := toU16 ((acc.2 : Int) - rec.2.length)
  ((Page.mk (acc.1.bytes.blit freeEnd rec.2)).setSlot rec.1 freeEnd rec.2.length, freeEnd)

def compact (p : Page) : Page :=
  let (q, freeEnd) := p.liveRecords.foldl compactStep (p, toU16 PAGE_SIZE)
  q.writeU16 2 freeEnd

/-- The common end of `insert` and `redoSet`: the record goes below `freeEnd`. -/
def place (p : Page) (slot : Int) (record : Bytes) : Page :=
  let dataOffset := toU16 ((p.readU16 2 : Int) - record.length)
  (Page.mk (p.bytes.blit dataOffset record)).setSlot slot dataOffset (toU16 record.length)

def insert (p : Page) (record : Bytes) : Option (Page × Nat) :=
  let need := record.length
  if need = 0 ∨ 0xFFFF < need then none
  else if p.freeSpace < need + SLOT_SIZE ∧ p.usableSpace < need + SLOT_SIZE then none
  else
    let p := if p.freeSpace < need + SLOT_SIZE then p.compact else p
    let count := p.slotCount
    let dataOffset := toU16 ((p.readU16 2 : Int) - need)
    some (((p.place count record).writeU16 0 (toU16 (count + 1))).writeU16 2 dataOffset, count)

def get (p : Page) (slot : Int) : Option Bytes :=
  if p.isLive slot then some (p.bytes.slice (p.slotAt slot).1 (p.slotAt slot).2) else none

def erase (p : Page) (slot : Int) : Option Page :=
  if p.isLive slot then some (p.setSlot slot (p.slotAt slot).1 0) else none

def update (p : Page) (slot : Int) (record : Bytes) : Option Page :=
  if p.isLive slot then
    let (offset, length) := p.slotAt slot
    let need := record.length
    if need = 0 ∨ length < need then none
    else some ((Page.mk (p.bytes.blit offset record)).setSlot slot offset (toU16 need))
  else none

/-- `redoSet` and `redoClear` first format a page that was never written. -/
def format (p : Page) : Page := if p.readU16 2 < HEADER_SIZE then init else p

def stampLSN (p : Page) (lsn : Nat) : Page := if lsn ≠ 0 then p.setPageLSN lsn else p

/-- The loop of `redoSet` that adds dead slots up to and including `slot`. -/
def extend (p : Page) (slot : Int) : Page :=
  let count := p.slotCount
  if (count : Int) ≤ slot then
    let q := (List.range' count (slot.toNat + 1 - count)).foldl (fun q s => q.setSlot s 0 0) p
    q.writeU16 0 (toU16 (slot + 1))
  else p

/-- Idempotently place a record at an exact slot. A refusal still leaves the slots
that `extend` added. -/
def redoSet (p : Page) (slot : Int) (record : Bytes) (lsn : Nat) : Page × Bool :=
  let p := p.format
  if lsn ≠ 0 ∧ lsn ≤ p.pageLSN then (p, true)
  else if p.get slot = some record then (p.stampLSN lsn, true)
  else
    let need := record.length
    if need = 0 ∨ 0xFFFF < need then (p, false)
    else
      let p := p.extend slot
      if p.freeSpace < need ∧ p.usableSpace < need then (p, false)
      else
        let p := if p.freeSpace < need then p.compact else p
        let dataOffset := toU16 ((p.readU16 2 : Int) - need)
        (((p.place slot record).writeU16 2 dataOffset).stampLSN lsn, true)

def redoClear (p : Page) (slot : Int) (lsn : Nat) : Page :=
  let p := p.format
  if lsn ≠ 0 ∧ lsn ≤ p.pageLSN then p
  else
    let p :=
      if 0 ≤ slot ∧ slot < p.slotCount then p.setSlot slot (p.slotAt slot).1 0 else p
    p.stampLSN lsn

end Page

end Relite.Backend
