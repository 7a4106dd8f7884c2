import Relite.Lib.Bytes

/-!
# Frames

A stream of byte strings, each after its length as a little-endian number of `w` bytes. A
reader takes frames as long as they are whole, so what it makes of a prefix of the stream is
a prefix of the byte strings: those whose frames end before the cut.
-/
namespace Relite.Lib

def frame (w : Nat) (body : Bytes) : Bytes := toLE w body.length ++ body

def frames (w : Nat) (bodies : List Bytes) : Bytes := bodies.flatMap (frame w)

/-- At most `n` frames, up to the first that is cut off. -/
def unframe (w : Nat) : Nat → Bytes → List Bytes
  | 0, _ => []
  | n + 1, s =>
    if s.length < w then []
    else
      let len := ofLE (s.take w)
      let rest := s.drop w
      if rest.length < len then [] else rest.take len :: unframe w n (rest.drop len)

/-- How many of the byte strings have frames that end within the first `k` bytes. -/
def wholeFrames (w : Nat) : List Bytes → Nat → Nat
  | [], _ => 0
  | body :: bodies, k =>
    if (frame w body).length ≤ k then wholeFrames w bodies (k - (frame w body).length) + 1 else 0

variable {w : Nat}

@[simp] theorem length_frame (w : Nat) (body : Bytes) :
    (frame w body).length = w + body.length := by
  simp [frame]

@[simp] theorem frames_nil (w : Nat) : frames w [] = [] := rfl

@[simp] theorem frames_cons (w : Nat) (body : Bytes) (bodies : List Bytes) :
    frames w (body :: bodies) = frame w body ++ frames w bodies := rfl

theorem frames_append (w : Nat) (bodies bodies' : List Bytes) :
    frames w (bodies ++ bodies') = frames w bodies ++ frames w bodies' :=
  List.flatMap_append

/-- A whole frame is read off and the rest of the stream goes on behind it. -/
theorem unframe_frame {body : Bytes} (hbody : body.length < 256 ^ w) (n : Nat) (rest : Bytes) :
    unframe w (n + 1) (frame w body ++ rest) = body :: unframe w n rest := by
  have hw := length_toLE w body.length
  have hlen : ofLE ((frame w body ++ rest).take w) = body.length := by
    rw [frame, List.append_assoc, List.take_left' hw, ofLE_toLE, Nat.mod_eq_of_lt hbody]
  have hrest : (frame w body ++ rest).drop w = body ++ rest := by
    rw [frame, List.append_assoc, List.drop_left' hw]
  rw [unframe, if_neg (by simp; omega)]
  simp only [hlen, hrest]
  rw [if_neg (by simp), List.take_left' rfl, List.drop_left' rfl]

/-- A frame that is cut off is not read, wherever the cut is. -/
theorem unframe_cut {body : Bytes} (hbody : body.length < 256 ^ w) (n : Nat) {k : Nat}
    (hk : k < (frame w body).length) : unframe w n ((frame w body).take k) = [] := by
  rw [length_frame] at hk
  cases n with
  | zero => rfl
  | succ n =>
    rw [unframe]
    rcases Nat.lt_or_ge k w with hshort | hlong
    · -- the cut is within the length
      rw [if_pos (by simp; omega)]
    · have hw := length_toLE w body.length
      have htake : ((frame w body).take k).take w = toLE w body.length := by
        rw [List.take_take, Nat.min_eq_left hlong, frame, List.take_left' hw]
      rw [if_neg (by simp; omega)]
      simp only [htake, ofLE_toLE, Nat.mod_eq_of_lt hbody]
      rw [if_pos (by simp; omega)]

/-- What is read had room behind a length. -/
theorem length_of_mem_unframe {n : Nat} {s body : Bytes} (h : body ∈ unframe w n s) :
    w + body.length ≤ s.length := by
  induction n generalizing s with
  | zero => cases h
  | succ n ih =>
    rw [unframe] at h
    split at h
    · cases h
    simp only [List.length_drop] at h
    split at h
    · cases h
    rcases List.mem_cons.mp h with rfl | h
    · simp only [List.length_take, List.length_drop]
      omega
    · have := ih h
      simp only [List.length_drop] at this
      omega

/-- What is read is the first frame, or it fits behind that. -/
theorem mem_unframe {n : Nat} {s body : Bytes} (h : body ∈ unframe w n s) :
    body = (s.drop w).take (ofLE (s.take w)) ∨
      2 * w + ofLE (s.take w) + body.length ≤ s.length := by
  cases n with
  | zero => cases h
  | succ n =>
    rw [unframe] at h
    split at h
    · cases h
    simp only [List.length_drop] at h
    split at h
    · cases h
    rcases List.mem_cons.mp h with h | h
    · exact .inl h
    · have := length_of_mem_unframe h
      simp only [List.length_drop] at this
      omega

/-- A stream that is cut off anywhere is read as its whole frames. -/
theorem unframe_take (hw : 0 < w) {bodies : List Bytes} (hall : ∀ b ∈ bodies, b.length < 256 ^ w)
    {n k : Nat} (hn : wholeFrames w bodies k ≤ n) :
    unframe w n ((frames w bodies).take k) = bodies.take (wholeFrames w bodies k) := by
  induction bodies generalizing n k with
  | nil =>
    cases n with
    | zero => rfl
    | succ n => simp [unframe, wholeFrames, hw]
  | cons body bodies ih =>
    obtain ⟨hbody, hrest⟩ := List.forall_mem_cons.mp hall
    rw [wholeFrames] at hn
    rw [frames_cons, wholeFrames]
    split
    · rename_i hwhole
      rw [if_pos hwhole] at hn
      cases n with
      | zero => cases hn
      | succ n =>
        rw [List.take_append, List.take_of_length_le hwhole, unframe_frame hbody,
          ih hrest (Nat.le_of_succ_le_succ hn), List.take_succ_cons]
    · rename_i hcut
      rw [List.take_append_of_le_length (by omega), unframe_cut hbody n (by omega)]
      rfl

/-- There are no more whole frames than bytes before the cut. -/
theorem wholeFrames_le (hw : 0 < w) (bodies : List Bytes) (k : Nat) :
    wholeFrames w bodies k ≤ ((frames w bodies).take k).length := by
  induction bodies generalizing k with
  | nil => exact Nat.zero_le _
  | cons body bodies ih =>
    have := ih (k - (frame w body).length)
    rw [wholeFrames]
    split
    · simp only [frames_cons, List.length_take, List.length_append, length_frame] at *
      omega
    · exact Nat.zero_le _

/-- The count in `wholeFrames` is the largest number of frames that end before the cut. -/
theorem wholeFrames_spec (bodies : List Bytes) (k : Nat) :
    wholeFrames w bodies k ≤ bodies.length ∧ ∀ m ≤ bodies.length,
      ((frames w (bodies.take m)).length ≤ k ↔ m ≤ wholeFrames w bodies k) := by
  induction bodies generalizing k with
  | nil => exact ⟨le_rfl, fun m hm => by simp at hm; simp [hm]⟩
  | cons body bodies ih =>
    rw [wholeFrames]
    split
    · rename_i hwhole
      obtain ⟨hle, hiff⟩ := ih (k - (frame w body).length)
      refine ⟨Nat.succ_le_succ hle, fun m hm => ?_⟩
      cases m with
      | zero => simp
      | succ m =>
        have := hiff m (by simpa using hm)
        rw [List.take_succ_cons, frames_cons, List.length_append]
        omega
    · refine ⟨Nat.zero_le _, fun m hm => ?_⟩
      cases m with
      | zero => simp
      | succ m =>
        rw [List.take_succ_cons, frames_cons, List.length_append]
        omega

end Relite.Lib
