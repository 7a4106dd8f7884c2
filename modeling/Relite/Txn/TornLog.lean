import Relite.Txn.LogFile

/-!
# A torn log

A crash leaves a prefix of the log file, whose last record is torn. The log is opened again
and recovery runs; where it finds a record it empties the file, and where it finds none it
leaves the file as it is, with the bytes of the torn record in it. Whatever is appended then
comes behind these bytes.
-/
namespace Relite.Txn
open Lib

namespace LogFile

/-! ## What a body is at least -/

theorem length_encodeBody (r : LogRecord) :
    (encodeBody r).length = 33 + r.beforeImage.length + r.afterImage.length := by
  simp only [encodeBody, putU64, putI32, putStr, List.length_append, List.length_cons, length_toLE]
  omega

theorem readWord_eq_some {w v : Nat} {body rest : Bytes} (h : readWord w body = some (v, rest)) :
    v = ofLE (body.take w) ∧ body.length = w + rest.length := by
  rw [readWord] at h
  split at h
  · cases h
  · cases h
    exact ⟨rfl, by rw [List.length_drop]; omega⟩

theorem readI32_eq_some {v : Int} {body rest : Bytes} (h : readI32 body = some (v, rest)) :
    body.length = 4 + rest.length := by
  obtain ⟨p, hread, hv⟩ := Option.map_eq_some_iff.mp h
  obtain ⟨-, rfl⟩ := Prod.mk.inj hv
  exact (readWord_eq_some hread).2

theorem readType_eq_some {type : LogType} {body rest : Bytes}
    (h : readType body = some (type, rest)) : body.length = 1 + rest.length := by
  cases body with
  | nil => cases h
  | cons b body =>
    obtain ⟨_, _, hrest⟩ := Option.map_eq_some_iff.mp h
    cases hrest
    rw [List.length_cons, Nat.add_comm]

theorem readStr_eq_some {s body rest : Bytes} (h : readStr body = some (s, rest)) :
    body.length = 4 + s.length + rest.length := by
  obtain ⟨⟨n, tail⟩, hread, hs⟩ := Option.map_eq_some_iff.mp h
  cases hs
  have := (readWord_eq_some hread).2
  simp only [List.length_take, List.length_drop]
  omega

/-- A record is read only from a body as long as its own, which begins with its number. -/
theorem of_decodeBody {body : Bytes} {r : LogRecord} (h : decodeBody body = some r) :
    (encodeBody r).length ≤ body.length ∧ r.lsn = ofLE (body.take 8) := by
  simp only [decodeBody, Option.bind_eq_bind, Option.bind_eq_some_iff, Prod.exists,
    Option.pure_def, Option.some.injEq] at h
  obtain ⟨lsn, b₁, h₁, txnId, b₂, h₂, type, b₃, h₃, tableId, b₄, h₄, pageId, b₅, h₅, slotId, b₆,
    h₆, before, b₇, h₇, after, b₈, h₈, rfl⟩ := h
  obtain ⟨hlsn, hlen⟩ := readWord_eq_some h₁
  have := readI32_eq_some h₂
  have := readType_eq_some h₃
  have := readI32_eq_some h₄
  have := readI32_eq_some h₅
  have := readI32_eq_some h₆
  have := readStr_eq_some h₇
  have := readStr_eq_some h₈
  rw [length_encodeBody]
  exact ⟨by simp only; omega, hlsn⟩

/-! ## Opening a log -/

/-- Opening a log without truncating it; none where its frames are not of records. -/
def reopen (bytes : Bytes) : Option LogFile :=
  (readAll bytes).map fun existing =>
    { bytes, nextLsn := existing.foldl (fun n r => if n ≤ r.lsn then r.lsn + 1 else n) 1 }

def reset (_file : LogFile) : LogFile := {}

/-- What recovery does to the log: it resets it, unless there is nothing to recover. -/
def recover (file : LogFile) : Option LogFile :=
  (readAll file.bytes).map fun records => if records.isEmpty then file else file.reset

/-- The record is read from the file, whatever else is. -/
def Returns (bytes : Bytes) (r : LogRecord) : Prop :=
  ∃ body ∈ unframe 4 bytes.length bytes, decodeBody body = some r

/-- The file is opened and recovered from, and whatever records are appended to it then, the
next look at the file returns each of them, with the number it got. -/
def AppendsReturned (bytes : Bytes) : Prop :=
  ∃ file, (reopen bytes).bind recover = some file ∧
    ∀ appended : List LogRecord, (∀ r ∈ appended, r.InRange) → appended.length < 2 ^ 64 →
      ∀ (i : Nat) (hi : i < appended.length),
        Returns (appended.foldl append file).bytes { appended[i] with lsn := file.nextLsn + i }

theorem returns_iff {bytes : Bytes} {records : List LogRecord} {r : LogRecord}
    (h : readAll bytes = some records) : Returns bytes r ↔ r ∈ records := by
  rw [readAll] at h
  rw [Returns]
  generalize unframe 4 bytes.length bytes = bodies at h ⊢
  induction bodies generalizing records with
  | nil =>
    cases h
    simp
  | cons body bodies ih =>
    simp only [List.mapM_cons, Option.bind_eq_bind, Option.bind_eq_some_iff, Option.pure_def,
      Option.some.injEq] at h
    obtain ⟨r', hr', rest, hrest, rfl⟩ := h
    simp only [List.mem_cons, exists_eq_or_imp, ih hrest, hr', Option.some.injEq]
    rw [eq_comm]

/-! ## Appending to an empty log -/

theorem append_bytes (file : LogFile) (appended : List LogRecord) :
    (appended.foldl append file).bytes = file.bytes ++
      frames 4 ((appended.mapIdx fun i r => { r with lsn := file.nextLsn + i }).map encodeBody) := by
  induction appended generalizing file with
  | nil => simp
  | cons r appended ih =>
    rw [List.foldl_cons, ih]
    simp [append, encode, List.mapIdx_cons, Nat.add_right_comm, Nat.add_assoc]

/-- All the records of a log that no crash has cut are read. -/
theorem readAll_ofRecords (records : List LogRecord) (hrange : ∀ r ∈ records, r.InRange)
    (hcount : records.length < 2 ^ 64) :
    readAll (ofRecords records).bytes = some (numbered records) := by
  obtain ⟨n, hn, hlargest, hread⟩ :=
    readAll_cut records hrange hcount (ofRecords records).bytes.length
  have hall := (hlargest records.length le_rfl).mp (by rw [List.take_length])
  rwa [List.take_length, show n = records.length by omega, List.take_length] at hread

/-- After a reset every record that is appended is returned. -/
theorem returns_reset {appended : List LogRecord} (hrange : ∀ r ∈ appended, r.InRange)
    (hcount : appended.length < 2 ^ 64) {i : Nat} (hi : i < appended.length) :
    Returns (appended.foldl append {}).bytes { appended[i] with lsn := 1 + i } := by
  refine (returns_iff (readAll_ofRecords appended hrange hcount)).mpr ?_
  refine List.mem_mapIdx.mpr ⟨i, hi, ?_⟩
  rw [Nat.add_comm]

/-! ## Appending behind a torn record -/

/-- Where the length itself is torn, the record appended behind it is not found: in the
garbled frame the rest of its own length stands where its number would. -/
theorem not_returns_garbled {residue : Bytes} {r : LogRecord} (hpos : 0 < residue.length)
    (hshort : residue.length < 4) (hlen : (encodeBody r).length < 256) (hlsn : r.lsn % 256 ≠ 0) :
    ¬ Returns (residue ++ encode r) r := by
  rintro ⟨body, hbody, hdecode⟩
  obtain ⟨hlong, hnumber⟩ := of_decodeBody hdecode
  rcases mem_unframe hbody with rfl | hfits
  · have hzero : ∃ rest, (residue ++ encode r).drop 4 = 0 :: rest := by
      have hdiv : (encodeBody r).length / 256 = 0 := Nat.div_eq_of_lt hlen
      rw [List.drop_append, List.drop_of_length_le (by omega), List.nil_append, encode, frame]
      obtain h | h | h : 4 - residue.length = 1 ∨ 4 - residue.length = 2 ∨
        4 - residue.length = 3 := by omega
      all_goals
        rw [h]
        simp [toLE, hdiv]
    obtain ⟨rest, hrest⟩ := hzero
    rw [hrest] at hnumber
    cases hcount : ofLE ((residue ++ encode r).take 4) with
    | zero =>
      rw [hcount] at hnumber
      simp [ofLE] at hnumber
      omega
    | succ n =>
      rw [hcount, List.take_succ_cons, List.take_succ_cons, ofLE] at hnumber
      simp at hnumber
      omega
  · rw [List.length_append, encode, length_frame] at hfits
    omega

/-- Where the body is torn, the record appended behind it can be nothing but what the frame
of the torn record is filled up to. -/
theorem decode_filled {last r : LogRecord} {k : Nat} (hlow : 4 ≤ k)
    (hcut : k < (encode last).length) (hlast : (encodeBody last).length < 2 ^ 32)
    (h : Returns ((encode last).take k ++ encode r) r) :
    decodeBody ((((encode last).take k ++ encode r).drop 4).take (encodeBody last).length) =
      some r := by
  obtain ⟨body, hbody, hdecode⟩ := h
  have hlong := (of_decodeBody hdecode).1
  have hcount : ofLE (((encode last).take k ++ encode r).take 4) = (encodeBody last).length := by
    rw [List.take_append_of_le_length (by rw [List.length_take]; omega), List.take_take,
      Nat.min_eq_left hlow, encode, frame, List.take_left' (length_toLE 4 _), ofLE_toLE,
      Nat.mod_eq_of_lt (by norm_num; omega)]
  rcases mem_unframe hbody with rfl | hfits
  · rwa [hcount] at hdecode
  · rw [hcount, List.length_append, List.length_take] at hfits
    simp only [encode, length_frame] at hfits hcut
    omega

/-- Of two records whose encodings differ in the last byte only, one is lost: the torn frame
is filled up before that byte, in both files to the same body. -/
theorem not_returns_both {last r r' : LogRecord} {k : Nat} {common : Bytes} {b b' : UInt8}
    (hlow : 4 ≤ k) (hcut : k < (encode last).length) (hlast : (encodeBody last).length < 2 ^ 32)
    (hr : encode r = common ++ [b]) (hr' : encode r' = common ++ [b'])
    (hcommon : (encode last).length ≤ k + common.length) (hne : r ≠ r')
    (h : Returns ((encode last).take k ++ encode r) r) :
    ¬ Returns ((encode last).take k ++ encode r') r' := by
  intro h'
  have hsame : ∀ tail : Bytes, (((encode last).take k ++ (common ++ tail)).drop 4).take
      (encodeBody last).length =
        (((encode last).take k ++ common).drop 4).take (encodeBody last).length := by
    intro tail
    have hlen : (encode last).length = 4 + (encodeBody last).length := length_frame 4 _
    rw [← List.append_assoc, List.drop_append_of_le_length (by simp; omega),
      List.take_append_of_le_length (by simp; omega)]
  have hread := decode_filled hlow hcut hlast h
  have hread' := decode_filled hlow hcut hlast h'
  rw [hr, hsame] at hread
  rw [hr', hsame, hread] at hread'
  exact hne (Option.some.inj hread')

/-- A record whose encoding is longer than `m` bytes and ends in `b`. -/
def filler (m : Nat) (b : UInt8) : LogRecord where
  lsn := 1
  txnId := 0
  type := .Begin
  afterImage := List.replicate (m - 37) 0 ++ [b]

theorem length_encodeBody_filler (m : Nat) (b : UInt8) :
    (encodeBody (filler m b)).length = 34 + (m - 37) := by
  simp only [length_encodeBody, filler, List.length_append, List.length_replicate,
    List.length_cons, List.length_nil]
  omega

theorem encode_filler (m : Nat) : ∃ common : Bytes, m ≤ common.length ∧
    ∀ b, encode (filler m b) = common ++ [b] := by
  obtain ⟨front, hfront⟩ : ∃ front : Bytes, ∀ b, encodeBody (filler m b) = front ++ [b] :=
    ⟨putU64 1 ++ (putI32 0 ++ (LogType.Begin.code :: (putI32 (-1) ++ (putI32 (-1) ++
      (putI32 (-1) ++ (putStr [] ++ (toLE 4 (m - 37 + 1) ++ List.replicate (m - 37) 0))))))),
      fun b => by simp [encodeBody, filler, putStr]⟩
  have hlen := length_encodeBody_filler m 0
  rw [hfront, List.length_append, List.length_singleton] at hlen
  refine ⟨toLE 4 (34 + (m - 37)) ++ front, ?_, fun b => ?_⟩
  · rw [List.length_append, length_toLE]
    omega
  · rw [encode, frame, length_encodeBody_filler, hfront, List.append_assoc]

theorem inRange_filler {m : Nat} (hm : m < 2 ^ 32) (b : UInt8) : (filler m b).InRange where
  txnId := show IsInt32 0 by decide
  tableId := show IsInt32 (-1) by decide
  pageId := show IsInt32 (-1) by decide
  slotId := show IsInt32 (-1) by decide
  length := by
    rw [length_encodeBody_filler]
    omega

/-! ## Which torn logs lose records -/

theorem reopen_recover_of_records {bytes : Bytes} {r : LogRecord} {records : List LogRecord}
    (h : readAll bytes = some (r :: records)) : (reopen bytes).bind recover = some {} := by
  rw [reopen, h, Option.map_some, Option.bind_some, recover, h]
  rfl

theorem reopen_recover_of_none {bytes : Bytes} (h : readAll bytes = some []) :
    (reopen bytes).bind recover = some { bytes } := by
  rw [reopen, h, Option.map_some, Option.bind_some, recover, h]
  rfl

theorem length_encode (r : LogRecord) :
    (encode r).length = 37 + r.beforeImage.length + r.afterImage.length := by
  rw [encode, length_frame, length_encodeBody]
  omega

theorem ofRecords_concat (records : List LogRecord) (last : LogRecord) :
    (ofRecords (records ++ [last])).bytes = (ofRecords records).bytes ++
      encode { last with lsn := records.length + 1 } := by
  simp [bytes_ofRecords, numbered, List.mapIdx_append, frames_append, encode]

/-- What is read of a log whose last record is torn is the records before that one. -/
theorem readAll_torn {records : List LogRecord} {last : LogRecord}
    (hrange : ∀ r ∈ records ++ [last], r.InRange) (hcount : records.length + 1 < 2 ^ 64) {k : Nat}
    (hk : k < (encode last).length) :
    readAll ((ofRecords (records ++ [last])).bytes.take ((ofRecords records).bytes.length + k)) =
      some (numbered records) := by
  obtain ⟨n, hn, hlargest, hread⟩ := readAll_cut (records ++ [last]) hrange
    (by simpa using hcount) ((ofRecords records).bytes.length + k)
  have hbefore := (hlargest records.length (by simp)).mp (by rw [List.take_left]; omega)
  have hafter : ¬ records.length + 1 ≤ n := by
    rw [← hlargest (records.length + 1) (by simp), List.take_of_length_le (by simp),
      ofRecords_concat, List.length_append, length_encode]
    rw [length_encode] at hk
    simp only
    omega
  rwa [show n = records.length by omega, List.take_left] at hread

/-- What is left of a torn record that the log begins with stays in the file, and costs some
record that is appended behind it. -/
theorem not_appendsReturned {last : LogRecord} {k : Nat}
    (hlast : (encodeBody last).length < 2 ^ 32) (hpos : 0 < k) (hk : k < (encode last).length)
    (hread : readAll ((encode last).take k) = some []) :
    ¬ AppendsReturned ((encode last).take k) := by
  rintro ⟨file, hfile, hall⟩
  rw [reopen_recover_of_none hread] at hfile
  obtain rfl := Option.some.inj hfile
  have hone : ∀ m < 2 ^ 32, ∀ b,
      Returns ((encode last).take k ++ encode (filler m b)) (filler m b) := fun m hm b =>
    hall [filler m b] (List.forall_mem_singleton.mpr (inRange_filler hm b))
      (by rw [List.length_singleton]; norm_num) 0 (by simp)
  have hlen : ((encode last).take k).length = k := by
    rw [List.length_take]
    omega
  rcases Nat.lt_or_ge k 4 with hshort | hlow
  · exact not_returns_garbled (by omega) (by omega) (by rw [length_encodeBody_filler]; decide)
      (by decide) (hone 0 (by decide) 0)
  · obtain ⟨common, hcommon, hfiller⟩ := encode_filler ((encode last).length - k)
    have hlt : (encode last).length - k < 2 ^ 32 := by
      rw [encode, length_frame]
      omega
    refine not_returns_both hlow hk hlast (hfiller 0) (hfiller 1) (by omega) ?_
      (hone _ hlt 0) (hone _ hlt 1)
    intro heq
    have := congrArg LogRecord.afterImage heq
    simp [filler] at this

/-- Records that are appended to a torn log are all returned just when there is a whole record
before the torn one, or nothing is left of that. -/
theorem appendsReturned_iff {records : List LogRecord} {last : LogRecord}
    (hrange : ∀ r ∈ records ++ [last], r.InRange) (hcount : records.length + 1 < 2 ^ 64) {k : Nat}
    (hk : k < (encode last).length) :
    AppendsReturned ((ofRecords (records ++ [last])).bytes.take
      ((ofRecords records).bytes.length + k)) ↔ records ≠ [] ∨ k = 0 := by
  have hread := readAll_torn hrange hcount hk
  constructor
  · intro h
    by_contra! hnot
    obtain ⟨rfl, hpos⟩ := hnot
    have hfile : (ofRecords ([] ++ [last])).bytes.take ((ofRecords []).bytes.length + k) =
        (encode { last with lsn := 1 }).take k := by
      rw [ofRecords_concat, bytes_ofRecords]
      simp [numbered]
    rw [hfile] at hread h
    refine not_appendsReturned ?_ (Nat.pos_of_ne_zero hpos) (by rwa [length_encode] at hk ⊢) hread h
    have := (hrange last (by simp)).length
    rwa [length_encodeBody] at this ⊢
  · intro h
    refine ⟨{}, ?_, fun appended happended hlen i hi => returns_reset happended hlen hi⟩
    cases records with
    | nil =>
      obtain rfl := h.resolve_left (fun hne => hne rfl)
      rfl
    | cons r records =>
      rw [numbered, List.mapIdx_cons] at hread
      exact reopen_recover_of_records hread

/-- Two records, the second of which is torn in the middle. -/
theorem appendsReturned_second :
    let records : List LogRecord := [{ txnId := 1, type := .Begin }]
    let last : LogRecord :=
      { txnId := 1, type := .Insert, tableId := 0, rid := ⟨2, 3⟩, afterImage := [7, 8] }
    AppendsReturned ((ofRecords (records ++ [last])).bytes.take
      ((ofRecords records).bytes.length + 20)) ↔ records ≠ [] ∨ 20 = 0 :=
  appendsReturned_iff (List.forall_mem_cons.mpr
    ⟨⟨by decide, by decide, by decide, by decide, by decide⟩, List.forall_mem_singleton.mpr
      ⟨by decide, by decide, by decide, by decide, by decide⟩⟩) (by decide) (by decide)

/-- A log whose only record is torn behind its first byte. -/
theorem not_appendsReturned_first :
    ¬ AppendsReturned ((ofRecords [{ txnId := 1, type := .Begin }]).bytes.take 1) :=
  let last : LogRecord := { lsn := 1, txnId := 1, type := .Begin }
  show ¬ AppendsReturned ((encode last).take 1) from
    not_appendsReturned (by decide) (by decide) (by decide) (by decide)

end LogFile

end Relite.Txn
