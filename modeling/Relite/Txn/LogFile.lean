import Relite.Lib.Framing
import Relite.Txn.Wal
import Mathlib.Data.List.Induction

/-!
# The bytes of the log

A record is encoded field by field behind its length. However a crash cuts the file, what
is read back are the records that are wholly before the cut.
-/
namespace Relite.Txn
open Lib Vm

def putU64 (v : Nat) : Bytes := toLE 8 v

/-- The two's complement of a number, which an `int` of the source holds. -/
def putI32 (v : Int) : Bytes := toLE 4 (v % 2 ^ 32).toNat

def putStr (s : Bytes) : Bytes := toLE 4 s.length ++ s

namespace LogType

def code : LogType → UInt8
  | Begin => 0
  | Insert => 1
  | Delete => 2
  | Update => 3
  | Commit => 4
  | Abort => 5

def ofCode (b : UInt8) : Option LogType :=
  [Begin, Insert, Delete, Update, Commit, Abort][b.toNat]?

theorem ofCode_code (type : LogType) : ofCode type.code = some type := by
  cases type <;> rfl

end LogType

/-- What `encode` puts behind the length. -/
def encodeBody (r : LogRecord) : Bytes :=
  putU64 r.lsn ++ (putI32 r.txnId ++ (r.type.code :: (putI32 r.tableId ++
    (putI32 r.rid.pageId ++ (putI32 r.rid.slotId ++ (putStr r.beforeImage ++
      putStr r.afterImage))))))

def encode (r : LogRecord) : Bytes := frame 4 (encodeBody r)

/-! ## Reading a body -/

/-- The number in the next `w` bytes, if there are that many. -/
def readWord (w : Nat) (body : Bytes) : Option (Nat × Bytes) :=
  if body.length < w then none else some (ofLE (body.take w), body.drop w)

def readI32 (body : Bytes) : Option (Int × Bytes) :=
  (readWord 4 body).map fun p => ((p.1 : Int).bmod (2 ^ 32), p.2)

def readType : Bytes → Option (LogType × Bytes)
  | [] => none
  | b :: body => (LogType.ofCode b).map fun type => (type, body)

/-- The string behind its length, or what there is of it. -/
def readStr (body : Bytes) : Option (Bytes × Bytes) :=
  (readWord 4 body).map fun p => (p.2.take p.1, p.2.drop p.1)

/-- The record in a body; none for bytes that no record was encoded as. -/
def decodeBody (body : Bytes) : Option LogRecord := do
  let (lsn, body) ← readWord 8 body
  let (txnId, body) ← readI32 body
  let (type, body) ← readType body
  let (tableId, body) ← readI32 body
  let (pageId, body) ← readI32 body
  let (slotId, body) ← readI32 body
  let (beforeImage, body) ← readStr body
  let (afterImage, _) ← readStr body
  return { lsn, txnId, type, tableId, rid := ⟨pageId, slotId⟩, beforeImage, afterImage }

/-- The values of an `int`. -/
def IsInt32 (n : Int) : Prop := -2 ^ 31 ≤ n ∧ n < 2 ^ 31

instance (n : Int) : Decidable (IsInt32 n) := inferInstanceAs (Decidable (_ ∧ _))

/-- The record has numbers that its fields hold, and its body a length below 2^32. -/
structure LogRecord.InRange (r : LogRecord) : Prop where
  txnId : IsInt32 r.txnId
  tableId : IsInt32 r.tableId
  pageId : IsInt32 r.rid.pageId
  slotId : IsInt32 r.rid.slotId
  length : (encodeBody r).length < 2 ^ 32

theorem readWord_toLE {w n : Nat} (hn : n < 256 ^ w) (rest : Bytes) :
    readWord w (toLE w n ++ rest) = some (n, rest) := by
  have hw := length_toLE w n
  rw [readWord, if_neg (by simp), List.take_left' hw, List.drop_left' hw, ofLE_toLE,
    Nat.mod_eq_of_lt hn]

/-- The two's complement of a number gives the number back. -/
theorem bmod_toNat {n : Int} (hn : IsInt32 n) :
    (n % 2 ^ 32).toNat < 256 ^ 4 ∧ ((n % 2 ^ 32).toNat : Int).bmod (2 ^ 32) = n := by
  have hnat : ((n % 2 ^ 32).toNat : Int) = n % 2 ^ 32 := by omega
  refine ⟨by omega, ?_⟩
  obtain ⟨hlow, hhigh⟩ := hn
  rw [hnat, Int.bmod_def]
  norm_num
  split <;> omega

theorem readI32_putI32 {n : Int} (hn : IsInt32 n) (rest : Bytes) :
    readI32 (putI32 n ++ rest) = some (n, rest) := by
  obtain ⟨hlt, hback⟩ := bmod_toNat hn
  rw [readI32, putI32, readWord_toLE hlt, Option.map_some, hback]

theorem readType_code (type : LogType) (rest : Bytes) :
    readType (type.code :: rest) = some (type, rest) := by
  rw [readType, LogType.ofCode_code, Option.map_some]

theorem readStr_putStr {s : Bytes} (hs : s.length < 2 ^ 32) (rest : Bytes) :
    readStr (putStr s ++ rest) = some (s, rest) := by
  rw [readStr, putStr, List.append_assoc, readWord_toLE (by norm_num; omega)]
  simp

/-- What was encoded is read back, every field of it. -/
theorem decodeBody_encodeBody {r : LogRecord} (hr : r.InRange) (hlsn : r.lsn < 2 ^ 64) :
    decodeBody (encodeBody r) = some r := by
  have hlen := hr.length
  simp only [encodeBody, putStr, List.length_append, List.length_cons] at hlen
  have hlast := readStr_putStr (s := r.afterImage) (by omega) []
  rw [List.append_nil] at hlast
  rw [decodeBody, encodeBody, putU64, readWord_toLE (by norm_num; omega), Option.bind_eq_bind,
    Option.bind_some]
  simp only [readI32_putI32 hr.txnId, readI32_putI32 hr.tableId, readI32_putI32 hr.pageId,
    readI32_putI32 hr.slotId, readType_code, hlast,
    readStr_putStr (s := r.beforeImage) (by omega), Option.bind_eq_bind, Option.bind_some]
  rfl

/-! ## The file -/

structure LogFile where
  bytes : Bytes := []
  nextLsn : Nat := 1

namespace LogFile

def append (file : LogFile) (record : LogRecord) : LogFile where
  bytes := file.bytes ++ encode { record with lsn := file.nextLsn }
  nextLsn := file.nextLsn + 1

/-- The records of the whole frames that the file begins with. -/
def readAll (bytes : Bytes) : Option (List LogRecord) :=
  (unframe 4 bytes.length bytes).mapM decodeBody

/-- The file of a log. -/
def ofLog (wal : WriteAheadLog) : LogFile where
  bytes := frames 4 (wal.records.map encodeBody)
  nextLsn := wal.nextLsn

/-- The file grows as its log does. -/
theorem ofLog_append (wal : WriteAheadLog) (record : LogRecord) :
    (ofLog wal).append record = ofLog (wal.append record) := by
  simp [LogFile.append, ofLog, WriteAheadLog.append, frames_append, encode]

/-- The file after records are appended to an empty log. -/
def ofRecords (records : List LogRecord) : LogFile := records.foldl append {}

/-- The records with the numbers that they get. -/
def numbered (records : List LogRecord) : List LogRecord :=
  records.mapIdx fun i r => { r with lsn := i + 1 }

theorem log_ofRecords (records : List LogRecord) :
    records.foldl WriteAheadLog.append {} =
      { records := numbered records
        nextLsn := records.length + 1
        appendsSinceReset := records.length } := by
  induction records using List.reverseRecOn with
  | nil => rfl
  | append_singleton records r ih =>
    rw [List.foldl_append, ih]
    simp [WriteAheadLog.append, numbered, List.mapIdx_append]

theorem ofRecords_eq (records : List LogRecord) :
    ofRecords records = ofLog (records.foldl WriteAheadLog.append {}) := by
  have hfold : ∀ (records : List LogRecord) (wal : WriteAheadLog),
      records.foldl append (ofLog wal) = ofLog (records.foldl WriteAheadLog.append wal) := by
    intro records
    induction records with
    | nil => exact fun _ => rfl
    | cons r records ih => exact fun wal => by rw [List.foldl_cons, ofLog_append, ih]; rfl
  exact hfold records {}

theorem bytes_ofRecords (records : List LogRecord) :
    (ofRecords records).bytes = frames 4 ((numbered records).map encodeBody) := by
  rw [ofRecords_eq, log_ofRecords]
  rfl

theorem take_numbered (records : List LogRecord) (n : Nat) :
    (numbered records).take n = numbered (records.take n) := by
  apply List.ext_getElem?
  intro i
  simp only [numbered, List.getElem?_take, List.getElem?_mapIdx]
  split <;> rfl

theorem mapM_decode {records : List LogRecord}
    (h : ∀ r ∈ records, decodeBody (encodeBody r) = some r) :
    (records.map encodeBody).mapM decodeBody = some records := by
  induction records with
  | nil => rfl
  | cons r records ih =>
    obtain ⟨hr, hrest⟩ := List.forall_mem_cons.mp h
    simp [List.mapM_cons, hr, ih hrest]

/-- However the file is cut, just the records whose encoding is wholly before the cut are
read, in order, with the numbers from 1 on. -/
theorem readAll_cut (records : List LogRecord) (hrange : ∀ r ∈ records, r.InRange)
    (hcount : records.length < 2 ^ 64) (k : Nat) :
    ∃ n ≤ records.length,
      (∀ m ≤ records.length, (ofRecords (records.take m)).bytes.length ≤ k ↔ m ≤ n) ∧
      readAll ((ofRecords records).bytes.take k) = some (numbered (records.take n)) := by
  have hdecode : ∀ r ∈ numbered records,
      (encodeBody r).length < 256 ^ 4 ∧ decodeBody (encodeBody r) = some r := by
    intro r hr
    obtain ⟨i, hi, rfl⟩ := List.mem_mapIdx.mp hr
    have hr := hrange _ (List.getElem_mem hi)
    exact ⟨hr.length, decodeBody_encodeBody ⟨hr.txnId, hr.tableId, hr.pageId, hr.slotId, hr.length⟩
      (by simp only; omega)⟩
  have hlen : ((numbered records).map encodeBody).length = records.length := by simp [numbered]
  obtain ⟨hle, hlargest⟩ := wholeFrames_spec (w := 4) ((numbered records).map encodeBody) k
  rw [hlen] at hle hlargest
  refine ⟨_, hle, fun m hm => ?_, ?_⟩
  · rw [bytes_ofRecords, ← take_numbered, List.map_take]
    exact hlargest m hm
  · have hbounds : ∀ b ∈ (numbered records).map encodeBody, b.length < 256 ^ 4 := by
      intro b hb
      obtain ⟨r, hr, rfl⟩ := List.mem_map.mp hb
      exact (hdecode r hr).1
    rw [readAll, bytes_ofRecords,
      unframe_take (by norm_num) hbounds (wholeFrames_le (by norm_num) _ k), ← List.map_take,
      ← take_numbered]
    exact mapM_decode fun r hr => (hdecode r (List.mem_of_mem_take hr)).2

/-- Two records, the second of which is cut off. -/
theorem readAll_cut_second :
    let records : List LogRecord :=
      [{ txnId := 1, type := .Begin },
        { txnId := 1, type := .Insert, tableId := 0, rid := ⟨2, 3⟩, afterImage := [7, 8] }]
    ∃ n ≤ records.length,
      (∀ m ≤ records.length, (ofRecords (records.take m)).bytes.length ≤ 50 ↔ m ≤ n) ∧
      readAll ((ofRecords records).bytes.take 50) = some (numbered (records.take n)) :=
  readAll_cut _ (List.forall_mem_cons.mpr
    ⟨⟨by decide, by decide, by decide, by decide, by decide⟩, List.forall_mem_singleton.mpr
      ⟨by decide, by decide, by decide, by decide, by decide⟩⟩) (by decide) 50

end LogFile

end Relite.Txn
