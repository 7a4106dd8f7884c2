import Relite.Frontend.Lexer
import Relite.Lib.Splitting
import Mathlib.Data.List.DropRight

/-!
# The prompt

`DB::run` reads lines, takes the text before each semicolon for a statement and calls
`connect` with it. The lexer knows semicolons inside of string literals and comments that end
no statement, `DB::run` does not.
-/
namespace Relite.Repl
open Lib Vm Relite.Parser

def semicolon : UInt8 := byte ';'

def newline : UInt8 := 10

def trim (s : Bytes) : Bytes := (s.dropWhile isBlank).rdropWhile isBlank

/-- The database, and the statements that `connect` has been called with. -/
structure Session (σ : Type) where
  db : σ
  calls : List Bytes := []

/-- The variables of the loop. -/
structure Loop (σ : Type) where
  session : Session σ
  buffer : Bytes := []
  inStatement : Bool := false

def appended (buffer line : Bytes) : Bytes :=
  if buffer = [] then line else buffer ++ newline :: line

section Run

variable {σ : Type} (connect : σ → Bytes → Option σ)

/-- A call of `connect`, which may throw. -/
def Session.call (s : Session σ) (statement : Bytes) : Except (Session σ) (Session σ) :=
  let calls := s.calls ++ [statement]
  match connect s.db statement with
  | some db => .ok { db, calls }
  | none => .error { s with calls }

def Session.send (s : Session σ) (statement : Bytes) : Except (Session σ) (Session σ) :=
  let stmtTrimmed := trim statement
  if stmtTrimmed = [] then .ok s else s.call connect stmtTrimmed

/-- What is done with a line. The loop ends at `\q`, and with what `connect` throws. -/
def Loop.next (r : Loop σ) (line : Bytes) : Except (Session σ) (Loop σ) :=
  let trimmed := trim line
  if r.inStatement = false ∧ trimmed.head? = some (byte '\\') then
    if trimmed = ascii "\\q" then .error r.session else .ok r
  else do
    let (statements, buffer) := cut semicolon [] (appended r.buffer line)
    let session ← statements.foldlM (Session.send connect) r.session
    return { session, buffer, inStatement := trim buffer ≠ [] }

/-- The lines that `std::getline` reads. -/
def getlines (input : Bytes) : List Bytes :=
  let (lines, last) := cut newline [] input
  if last = [] then lines else lines ++ [last]

/-- The calls up to where the loop has come. -/
def calls : Except (Session σ) (Session σ) → List Bytes
  | .ok s | .error s => s.calls

/-- `DB::run`: the statements that `connect` is called with. -/
def run (db : σ) (input : Bytes) : List Bytes :=
  calls (((getlines input).foldlM (Loop.next connect) { session := { db } }).map Loop.session)

end Run

/-! ## Trimmed text -/

theorem exists_trim (s : Bytes) :
    ∃ front back, s = front ++ trim s ++ back ∧ (∀ b ∈ front, isBlank b) ∧
      ∀ b ∈ back, isBlank b := by
  refine ⟨s.takeWhile isBlank, (s.dropWhile isBlank).rtakeWhile isBlank, ?_,
    fun b hb => List.mem_takeWhile_imp hb, fun b hb => List.mem_rtakeWhile_imp hb⟩
  rw [trim, List.append_assoc, List.rdropWhile_append_rtakeWhile, List.takeWhile_append_dropWhile]

theorem trim_eq_nil_iff {s : Bytes} : trim s = [] ↔ ∀ b ∈ s, isBlank b := by
  constructor
  · intro h
    obtain ⟨front, back, hs, hfront, hback⟩ := exists_trim s
    rw [hs, h, List.append_nil]
    exact List.forall_mem_append.mpr ⟨hfront, hback⟩
  · intro h
    rw [trim, List.dropWhile_eq_nil_iff.mpr h, List.rdropWhile_nil]

theorem mem_trim {s : Bytes} {b : UInt8} (hb : isBlank b = false) : b ∈ trim s ↔ b ∈ s := by
  obtain ⟨front, back, hs, hfront, hback⟩ := exists_trim s
  constructor
  · intro h
    rw [hs]
    simp [h]
  · intro h
    rw [hs, List.mem_append, List.mem_append] at h
    rcases h with (h | h) | h
    · simp [hfront b h] at hb
    · exact h
    · simp [hback b h] at hb

theorem countP_trim {p : UInt8 → Bool} (hp : ∀ b, isBlank b → p b = false) (s : Bytes) :
    (trim s).countP p = s.countP p := by
  obtain ⟨front, back, hs, hfront, hback⟩ := exists_trim s
  have hnone : ∀ l : Bytes, (∀ b ∈ l, isBlank b) → l.countP p = 0 := fun l hl =>
    List.countP_eq_zero.mpr fun b hb => by simp [hp b (hl b hb)]
  conv_rhs => rw [hs, List.countP_append, List.countP_append, hnone front hfront, hnone back hback]
  omega

theorem trim_append_of_blank {front : Bytes} (h : ∀ b ∈ front, isBlank b) (s : Bytes) :
    trim (front ++ s) = trim s := by
  rw [trim, List.dropWhile_append_of_pos h, trim]

theorem head?_trim (s : Bytes) : (trim s).head? = (s.dropWhile isBlank).head? := by
  rw [trim]
  cases hs : s.dropWhile isBlank with
  | nil => rfl
  | cons c t =>
    have hc : isBlank c = false := by
      have hhead := List.head?_dropWhile_not isBlank s
      simpa [hs] using hhead
    obtain ⟨back, hback⟩ := List.rdropWhile_prefix isBlank (c :: t)
    cases htrim : (c :: t).rdropWhile isBlank with
    | nil =>
      have := List.rdropWhile_eq_nil_iff.mp htrim c List.mem_cons_self
      simp [hc] at this
    | cons c' t' =>
      rw [htrim, List.cons_append] at hback
      cases hback
      rfl

/-! ## Where a line is a command -/

/-- Some line starts with a backslash where no statement is pending. `fresh` and `lineStart`
tell whether there have been blanks only since the last semicolon and since the last newline. -/
def hasCommand (fresh lineStart : Bool) : Bytes → Bool
  | [] => false
  | c :: text =>
    if isBlank c then hasCommand fresh (c = newline || lineStart) text
    else if c = semicolon then hasCommand true false text
    else fresh && lineStart && c = byte '\\' || hasCommand false false text

/-- The statement starts with a backslash, at the start of a line. -/
def StartsCommand (lineStart : Bool) (statement : Bytes) : Prop :=
  (statement.dropWhile isBlank).head? = some (byte '\\') ∧
    (lineStart ∨ newline ∈ statement.takeWhile isBlank)

theorem hasCommand_statement {statement : Bytes} (hwhole : semicolon ∉ statement)
    (hblank : trim statement ≠ []) (lineStart : Bool) (text : Bytes) :
    hasCommand true lineStart (statement ++ semicolon :: text) ↔
      StartsCommand lineStart statement ∨ hasCommand true false text := by
  have hpending : ∀ {s : Bytes}, semicolon ∉ s → ∀ b,
      hasCommand false b (s ++ semicolon :: text) = hasCommand true false text := by
    intro s hs
    induction s with
    | nil => intro b; rfl
    | cons c s ih =>
      intro b
      rw [List.mem_cons, not_or] at hs
      rw [List.cons_append, hasCommand, if_neg (Ne.symm hs.1), Bool.false_and, Bool.false_and,
        Bool.false_or]
      split <;> exact ih hs.2 _
  induction statement generalizing lineStart with
  | nil => exact absurd (trim_eq_nil_iff.mpr (by simp)) hblank
  | cons c s ih =>
    rw [List.mem_cons, not_or] at hwhole
    rw [List.cons_append, hasCommand]
    by_cases hc : isBlank c
    · have hrest : trim s ≠ [] := fun h =>
        hblank (trim_eq_nil_iff.mpr (List.forall_mem_cons.mpr ⟨hc, trim_eq_nil_iff.mp h⟩))
      rw [if_pos hc]
      refine (ih hwhole.2 hrest _).trans ?_
      simp only [StartsCommand, List.dropWhile_cons_of_pos hc, List.takeWhile_cons_of_pos hc,
        List.mem_cons, Bool.or_eq_true, decide_eq_true_eq, @eq_comm _ newline c]
      tauto
    · rw [if_neg hc, if_neg (Ne.symm hwhole.1), hpending hwhole.2]
      simp [StartsCommand, hc, and_comm]

theorem hasCommand_blank {s : Bytes} (h : ∀ b ∈ s, isBlank b) (fresh lineStart : Bool) :
    hasCommand fresh lineStart s = false := by
  induction s generalizing lineStart with
  | nil => rfl
  | cons c s ih =>
    rw [List.forall_mem_cons] at h
    rw [hasCommand, if_pos h.1]
    exact ih h.2 _

theorem hasCommand_append_blank (text : Bytes) {s : Bytes} (h : ∀ b ∈ s, isBlank b)
    (fresh lineStart : Bool) :
    hasCommand fresh lineStart (text ++ s) = hasCommand fresh lineStart text := by
  induction text generalizing fresh lineStart with
  | nil => exact hasCommand_blank h fresh lineStart
  | cons c text ih =>
    rw [List.cons_append, hasCommand, hasCommand, ih, ih, ih]

/-- No statement of the list is taken for a command. -/
def NoCommand (statements : List Bytes) : Prop :=
  (∀ s ∈ statements.head?, ¬StartsCommand true s) ∧
    ∀ s ∈ statements.tail, ¬StartsCommand false s

theorem hasCommand_joinWith {statements : List Bytes}
    (hwhole : ∀ s ∈ statements, semicolon ∉ s) (hblank : ∀ s ∈ statements, trim s ≠ [])
    {tail : Bytes} (htail : ∀ b ∈ tail, isBlank b) :
    hasCommand true true (joinWith semicolon statements ++ tail) = false ↔
      NoCommand statements := by
  have hlater : ∀ {l : List Bytes}, (∀ s ∈ l, semicolon ∉ s) → (∀ s ∈ l, trim s ≠ []) →
      (hasCommand true false (joinWith semicolon l ++ tail) = false ↔
        ∀ s ∈ l, ¬StartsCommand false s) := by
    intro l hwhole hblank
    induction l with
    | nil => simp [joinWith, hasCommand_blank htail]
    | cons s l ih =>
      rw [List.forall_mem_cons] at hwhole hblank
      rw [joinWith, List.flatMap_cons, ← joinWith, List.append_assoc, List.append_assoc,
        List.singleton_append, ← Bool.not_eq_true, hasCommand_statement hwhole.1 hblank.1, not_or,
        Bool.not_eq_true, ih hwhole.2 hblank.2, List.forall_mem_cons]
  cases statements with
  | nil => simp [joinWith, hasCommand_blank htail, NoCommand]
  | cons s l =>
    rw [List.forall_mem_cons] at hwhole hblank
    rw [joinWith, List.flatMap_cons, ← joinWith, List.append_assoc, List.append_assoc,
      List.singleton_append, ← Bool.not_eq_true, hasCommand_statement hwhole.1 hblank.1, not_or,
      Bool.not_eq_true, hlater hwhole.2 hblank.2, NoCommand]
    simp

/-! ## The lines of a text -/

/-- No line is a command, after the text in the buffer. -/
def Plain : Bytes → List Bytes → Prop
  | _, [] => True
  | buffer, line :: lines =>
    ¬(trim buffer = [] ∧ (trim line).head? = some (byte '\\')) ∧
      Plain (cut semicolon [] (appended buffer line)).2 lines

/-- The text of the lines, each after a newline. -/
def linesText (lines : List Bytes) : Bytes := lines.flatMap (newline :: ·)

theorem joinWith_cut {α : Type} [DecidableEq α] {sep : α} (pending text : List α) :
    joinWith sep (cut sep pending text).1 ++ (cut sep pending text).2 = pending ++ text := by
  induction text generalizing pending with
  | nil => exact (List.append_nil pending).symm
  | cons c text ih =>
    rw [cut]
    split
    · rename_i hc
      subst hc
      dsimp only
      rw [joinWith, List.flatMap_cons, ← joinWith, List.append_assoc, ih, List.nil_append,
        List.append_assoc, List.singleton_append]
    · rw [ih, List.append_assoc, List.singleton_append]

theorem newline_cons_joinWith (lines : List Bytes) :
    newline :: joinWith newline lines = linesText lines ++ [newline] := by
  induction lines with
  | nil => rfl
  | cons line lines ih =>
    have htext : linesText (line :: lines) = newline :: line ++ linesText lines := rfl
    rw [joinWith, List.flatMap_cons, ← joinWith, List.append_assoc, List.singleton_append, ih,
      htext, List.cons_append, List.cons_append, List.append_assoc]

/-- The lines are those of the text, up to a newline at its end. -/
theorem linesText_getlines (input : Bytes) :
    ∃ back, newline :: input = linesText (getlines input) ++ back ∧ ∀ b ∈ back, b = newline := by
  have hjoin := @joinWith_cut _ _ newline [] input
  rw [List.nil_append] at hjoin
  rw [getlines]
  dsimp only
  split
  · rename_i hlast
    rw [hlast, List.append_nil] at hjoin
    exact ⟨[newline], by rw [← newline_cons_joinWith, hjoin], by simp⟩
  · refine ⟨[], ?_, by simp⟩
    rw [List.append_nil, linesText, List.flatMap_append, ← linesText]
    conv_lhs => rw [← hjoin, ← List.cons_append, newline_cons_joinWith]
    simp

theorem newline_not_mem_getlines (input : Bytes) :
    ∀ line ∈ getlines input, newline ∉ line := by
  obtain ⟨hlines, hlast⟩ := @sep_not_mem_of_mem_cut _ _ newline [] List.not_mem_nil input
  rw [getlines]
  dsimp only
  split
  · exact hlines
  · exact List.forall_mem_append.mpr ⟨hlines, by simpa using hlast⟩

/-- What is left of a line after its last semicolon decides whether the next is a command. -/
theorem hasCommand_line {line : Bytes} (hline : newline ∉ line) (buffer : Bytes)
    (lineStart : Bool) (lines : List Bytes) :
    hasCommand (buffer.all isBlank) lineStart (line ++ linesText lines) =
      (buffer.all isBlank && lineStart && (line.dropWhile isBlank).head? == some (byte '\\') ||
        hasCommand ((cut semicolon buffer line).2.all isBlank) true (linesText lines)) := by
  induction line generalizing buffer lineStart with
  | nil =>
    rw [List.nil_append, cut]
    cases lines with
    | nil => simp [linesText, hasCommand]
    | cons line lines =>
      have htext : linesText (line :: lines) = newline :: line ++ linesText lines := rfl
      simp [htext, hasCommand, isBlank, newline]
  | cons c line ih =>
    rw [List.mem_cons, not_or] at hline
    rw [List.cons_append, hasCommand]
    by_cases hc : isBlank c
    · have hsemi : c ≠ semicolon := fun h => by simp [h, semicolon, isBlank, byte] at hc
      have hnext := ih hline.2 (buffer ++ [c]) lineStart
      simp only [List.all_append, List.all_cons, hc, List.all_nil, Bool.and_true] at hnext
      rw [if_pos hc, cut, if_neg hsemi, List.dropWhile_cons_of_pos hc,
        decide_eq_false (Ne.symm hline.1), Bool.false_or]
      exact hnext
    · rw [if_neg hc, List.dropWhile_cons_of_neg hc, List.head?_cons]
      by_cases hsemi : c = semicolon
      · have hnext := ih hline.2 [] false
        subst hsemi
        rw [if_pos rfl, cut, if_pos rfl]
        simpa [semicolon, byte] using hnext
      · have hnext := ih hline.2 (buffer ++ [c]) false
        simp only [List.all_append, List.all_cons, hc, Bool.false_and, Bool.and_false,
          Bool.false_or] at hnext
        rw [if_neg hsemi, cut, if_neg hsemi, hnext]
        rfl

/-! ## The loop cuts the text at its semicolons -/

/-- Blanks in front of what is pending go to the first piece or to the rest. -/
theorem cut_front {front : Bytes} (hfront : ∀ b ∈ front, isBlank b) (pending text : Bytes) :
    (cut semicolon (front ++ pending) text).1.map trim = (cut semicolon pending text).1.map trim ∧
    ∃ front', (cut semicolon (front ++ pending) text).2 =
      front' ++ (cut semicolon pending text).2 ∧ ∀ b ∈ front', isBlank b := by
  induction text generalizing pending with
  | nil => exact ⟨rfl, front, rfl, hfront⟩
  | cons c text ih =>
    rw [cut, cut]
    split
    · refine ⟨?_, [], rfl, by simp⟩
      rw [List.map_cons, List.map_cons, trim_append_of_blank hfront]
    · rw [List.append_assoc]
      exact ih (pending ++ [c])

/-- A line is put after the buffer as in the text, up to blanks in front. -/
theorem cut_appended {front buffer : Bytes} (hfront : ∀ b ∈ front, isBlank b)
    (hbuffer : semicolon ∉ buffer) (line : Bytes) :
    (cut semicolon (front ++ buffer) (newline :: line)).1.map trim =
      (cut semicolon [] (appended buffer line)).1.map trim ∧
    ∃ front', (cut semicolon (front ++ buffer) (newline :: line)).2 =
      front' ++ (cut semicolon [] (appended buffer line)).2 ∧ ∀ b ∈ front', isBlank b := by
  rw [appended]
  split
  · rename_i hnil
    subst hnil
    have hmore : ∀ b ∈ front ++ [newline], isBlank b :=
      List.forall_mem_append.mpr ⟨hfront, by simp [isBlank, newline]⟩
    have hcut := cut_front hmore [] line
    rw [List.append_nil] at hcut ⊢
    rw [cut, if_neg (by decide)]
    exact hcut
  · rw [cut_pending hbuffer, List.nil_append]
    exact cut_front hfront buffer (newline :: line)

theorem linesText_cons (line : Bytes) (lines : List Bytes) :
    linesText (line :: lines) = newline :: line ++ linesText lines := rfl

theorem semicolon_not_mem_rest (buffer line : Bytes) :
    semicolon ∉ (cut semicolon [] (appended buffer line)).2 :=
  (sep_not_mem_of_mem_cut List.not_mem_nil _).2

theorem all_isBlank_iff {s : Bytes} : s.all isBlank ↔ trim s = [] := by
  rw [trim_eq_nil_iff, List.all_eq_true]

theorem plain_iff {lines : List Bytes} (hlines : ∀ line ∈ lines, newline ∉ line)
    {front buffer : Bytes} (hfront : ∀ b ∈ front, isBlank b) (hbuffer : semicolon ∉ buffer)
    (lineStart : Bool) :
    Plain buffer lines ↔
      hasCommand ((front ++ buffer).all isBlank) lineStart (linesText lines) = false := by
  induction lines generalizing front buffer lineStart with
  | nil => simp [Plain, linesText, hasCommand]
  | cons line lines ih =>
    rw [List.forall_mem_cons] at hlines
    obtain ⟨-, front', hrest, hfront'⟩ := cut_appended hfront hbuffer line
    rw [cut, if_neg (by decide)] at hrest
    have hall : (front ++ buffer).all isBlank = ((front ++ buffer) ++ [newline]).all isBlank := by
      simp [isBlank, newline]
    have hempty : (front ++ buffer).all isBlank = true ↔ trim buffer = [] := by
      rw [all_isBlank_iff, trim_append_of_blank hfront]
    rw [linesText_cons, List.cons_append, hasCommand, if_pos (by decide), decide_eq_true rfl,
      Bool.true_or, hall, hasCommand_line hlines.1, hrest, ← hall, Bool.or_eq_false_iff,
      ← ih hlines.2 hfront' (semicolon_not_mem_rest buffer line), Plain, ← head?_trim, ← hempty]
    simp

/-- The pieces that the loop takes from the lines. -/
def pieces : Bytes → List Bytes → List Bytes
  | _, [] => []
  | buffer, line :: lines =>
    (cut semicolon [] (appended buffer line)).1 ++
      pieces (cut semicolon [] (appended buffer line)).2 lines

theorem map_trim_pieces (lines : List Bytes) {front buffer : Bytes}
    (hfront : ∀ b ∈ front, isBlank b) (hbuffer : semicolon ∉ buffer) :
    (pieces buffer lines).map trim =
      (cut semicolon (front ++ buffer) (linesText lines)).1.map trim := by
  induction lines generalizing front buffer with
  | nil => simp [pieces, linesText, cut]
  | cons line lines ih =>
    obtain ⟨hpieces, front', hrest, hfront'⟩ := cut_appended hfront hbuffer line
    rw [pieces, linesText_cons, cut_append, List.map_append, List.map_append, hpieces, hrest,
      ih hfront' (semicolon_not_mem_rest buffer line)]

/-- The pieces of written statements are the statements. -/
theorem map_trim_pieces_getlines {statements : List Bytes}
    (hwhole : ∀ s ∈ statements, semicolon ∉ s) {tail : Bytes} (htail : ∀ b ∈ tail, isBlank b) :
    (pieces [] (getlines (joinWith semicolon statements ++ tail))).map trim =
      statements.map trim := by
  have hblank : ∀ {s : Bytes}, (∀ b ∈ s, isBlank b) → semicolon ∉ s := fun hs h => by
    have := hs _ h
    simp [semicolon, isBlank, byte] at this
  have hnewline : ∀ b ∈ [newline], isBlank b := by simp [isBlank, newline]
  generalize hinput : joinWith semicolon statements ++ tail = input
  obtain ⟨back, hlines, hback⟩ := linesText_getlines input
  have hfront := (cut_front hnewline [] input).1
  have hcut : cut semicolon ([newline] ++ []) input = cut semicolon [] (newline :: input) := by
    rw [cut, if_neg (by decide)]
    rfl
  have hbackBlank : ∀ b ∈ back, isBlank b := fun b hb => hback b hb ▸ by decide
  rw [hcut, hlines, cut_append, cut_of_not_mem (hblank hbackBlank), List.append_nil] at hfront
  have hnil : ∀ b ∈ ([] : Bytes), isBlank b := by simp
  refine (map_trim_pieces _ hnil List.not_mem_nil).trans (hfront.trans ?_)
  rw [← hinput, cut_joinWith hwhole, cut_of_not_mem (hblank htail), List.append_nil]

section Calls

variable {σ : Type} {connect : σ → Bytes → Option σ}

/-- The loop sends the pieces, as long as no line is a command. -/
theorem foldlM_next {lines : List Bytes} {r : Loop σ}
    (hstate : r.inStatement = decide (trim r.buffer ≠ [])) (hplain : Plain r.buffer lines) :
    (lines.foldlM (Loop.next connect) r).map Loop.session =
      (pieces r.buffer lines).foldlM (Session.send connect) r.session := by
  induction lines generalizing r with
  | nil => rfl
  | cons line lines ih =>
    obtain ⟨hline, hrest⟩ := hplain
    have hnot : ¬(r.inStatement = false ∧ (trim line).head? = some (byte '\\')) := by
      rw [hstate]
      simpa using hline
    rw [List.foldlM_cons, Loop.next, pieces, List.foldlM_append]
    simp only [if_neg hnot]
    cases hsent : (cut semicolon [] (appended r.buffer line)).1.foldlM (Session.send connect)
        r.session with
    | error s => rfl
    | ok s => exact ih rfl hrest

/-- Statements that are not blank are sent as they are. -/
theorem foldlM_send {statements : List Bytes} (hblank : ∀ s ∈ statements, trim s ≠ [])
    (s : Session σ) :
    statements.foldlM (Session.send connect) s =
      (statements.map trim).foldlM (Session.call connect) s := by
  rw [List.foldlM_map]
  induction statements generalizing s with
  | nil => rfl
  | cons statement statements ih =>
    rw [List.forall_mem_cons] at hblank
    rw [List.foldlM_cons, List.foldlM_cons, Session.send, if_neg hblank.1]
    exact bind_congr fun s' => ih hblank.2 s'

/-- All statements are called if and only if `connect` returns from all but the last. -/
theorem calls_foldlM_call (statements : List Bytes) (s : Session σ) :
    calls (statements.foldlM (Session.call connect) s) = s.calls ++ statements ↔
      (statements.dropLast.foldlM connect s.db).isSome := by
  induction statements generalizing s with
  | nil => exact iff_of_true (List.append_nil s.calls).symm rfl
  | cons statement statements ih =>
    rw [List.foldlM_cons, Session.call]
    cases hdb : connect s.db statement with
    | none =>
      change s.calls ++ [statement] = s.calls ++ statement :: statements ↔ _
      cases statements with
      | nil => exact iff_of_true rfl rfl
      | cons t l => simp [hdb]
    | some db =>
      have hrest := ih { db, calls := s.calls ++ [statement] }
      rw [List.append_assoc, List.singleton_append] at hrest
      refine hrest.trans ?_
      cases statements with
      | nil => simp
      | cons t l => simp [hdb]

/-! ## A command takes text away -/

/-- What is neither blank nor a semicolon. -/
def isInk (b : UInt8) : Bool := !isBlank b && b != semicolon

def ink (s : Bytes) : Nat := s.countP isInk

def inks (l : List Bytes) : Nat := (l.map ink).sum

theorem inks_append (l l' : List Bytes) : inks (l ++ l') = inks l + inks l' := by
  rw [inks, List.map_append, List.sum_append, inks, inks]

theorem ink_trim (s : Bytes) : ink (trim s) = ink s :=
  countP_trim (fun b hb => by simp [isInk, hb]) s

theorem ink_cut (buffer line : Bytes) :
    inks (cut semicolon [] (appended buffer line)).1 +
      ink (cut semicolon [] (appended buffer line)).2 = ink buffer + ink line := by
  have hcount := @countP_cut _ _ semicolon [] isInk (by decide) (appended buffer line)
  have happended : (appended buffer line).countP isInk = ink buffer + ink line := by
    rw [appended]
    split
    · rename_i hnil
      simp [hnil, ink]
    · rw [List.countP_append, List.countP_cons_of_neg (by decide), ink, ink]
  rw [happended, List.countP_nil, Nat.zero_add] at hcount
  exact hcount

theorem ink_command {line : Bytes} (h : (trim line).head? = some (byte '\\')) : 0 < ink line := by
  rw [← ink_trim, ink, List.countP_pos_iff]
  exact ⟨byte '\\', List.mem_of_mem_head? h, by decide⟩

theorem ink_of_not_plain {lines : List Bytes} {buffer : Bytes} (h : ¬Plain buffer lines) :
    0 < inks lines := by
  induction lines generalizing buffer with
  | nil => exact absurd trivial h
  | cons line lines ih =>
    have hcons : inks (line :: lines) = ink line + inks lines := rfl
    rw [Plain, not_and_or, not_not] at h
    rcases h with h | h
    · have := ink_command h.2
      omega
    · have := ih h
      omega

theorem ink_send (statements : List Bytes) (s : Session σ) :
    match statements.foldlM (Session.send connect) s with
    | .ok s' => inks s'.calls = inks s.calls + inks statements
    | .error s' => inks s'.calls ≤ inks s.calls + inks statements := by
  induction statements generalizing s with
  | nil => rfl
  | cons statement statements ih =>
    have hcons : inks (statement :: statements) = ink statement + inks statements := rfl
    have hone : inks (s.calls ++ [trim statement]) = inks s.calls + ink statement := by
      rw [inks_append, ← ink_trim statement]
      rfl
    rw [List.foldlM_cons, Session.send]
    by_cases hblank : trim statement = []
    · have hzero : ink statement = 0 := by rw [← ink_trim, hblank]; rfl
      have hrest := ih s
      rw [if_pos hblank, hcons, hzero, Nat.zero_add]
      exact hrest
    · rw [if_neg hblank, Session.call]
      cases connect s.db (trim statement) with
      | none =>
        change inks (s.calls ++ [trim statement]) ≤ _
        omega
      | some db =>
        have hrest := ih { db, calls := s.calls ++ [trim statement] }
        rw [hone, Nat.add_assoc] at hrest
        exact hrest

/-- Less is called than was written, if a line is a command. -/
theorem ink_next {lines : List Bytes} {r : Loop σ}
    (hstate : r.inStatement = decide (trim r.buffer ≠ [])) :
    let called := inks (calls ((lines.foldlM (Loop.next connect) r).map Loop.session))
    called ≤ inks r.session.calls + ink r.buffer + inks lines ∧
      (¬Plain r.buffer lines → called < inks r.session.calls + ink r.buffer + inks lines) := by
  induction lines generalizing r with
  | nil => exact ⟨Nat.le_add_right _ _, fun h => absurd trivial h⟩
  | cons line lines ih =>
    have hcons : inks (line :: lines) = ink line + inks lines := rfl
    have hhead : (r.inStatement = false ∧ (trim line).head? = some (byte '\\')) ↔
        (trim r.buffer = [] ∧ (trim line).head? = some (byte '\\')) := by
      rw [hstate]
      simp
    rw [List.foldlM_cons, Loop.next]
    dsimp only
    by_cases hcommand : trim r.buffer = [] ∧ (trim line).head? = some (byte '\\')
    · have hpos := ink_command hcommand.2
      rw [if_pos (hhead.mpr hcommand)]
      split
      · change inks r.session.calls ≤ _ ∧ (_ → inks r.session.calls < _)
        omega
      · obtain ⟨hle, -⟩ := ih hstate
        change inks (calls ((lines.foldlM (Loop.next connect) r).map Loop.session)) ≤ _ ∧
          (_ → inks (calls ((lines.foldlM (Loop.next connect) r).map Loop.session)) < _)
        omega
    · rw [if_neg (mt hhead.mp hcommand), Plain, not_and_or, not_not]
      have hcut := ink_cut r.buffer line
      generalize cut semicolon [] (appended r.buffer line) = found at hcut ⊢
      obtain ⟨found, buffer⟩ := found
      have hsend := @ink_send _ connect found r.session
      dsimp only at hcut ⊢
      cases hsent : found.foldlM (Session.send connect) r.session with
      | error s =>
        rw [hsent] at hsend
        change inks s.calls ≤ _ ∧ (_ → inks s.calls < _)
        refine ⟨by dsimp only at hsend; omega, fun h => ?_⟩
        have := ink_of_not_plain (h.resolve_left hcommand)
        dsimp only at hsend
        omega
      | ok s =>
        rw [hsent] at hsend
        obtain ⟨hle, hlt⟩ := @ih ⟨s, buffer, decide (trim buffer ≠ [])⟩ rfl
        dsimp only at hsend hle hlt
        refine ⟨le_trans hle (by omega), fun h => ?_⟩
        exact lt_of_lt_of_le (hlt (h.resolve_left hcommand)) (by omega)

/-! ## What is called -/

/-- The calls that the loop makes are trimmed pieces. -/
def Pieces (x : Except (Session σ) (Session σ)) : Prop :=
  ∀ c ∈ calls x, semicolon ∉ c ∧ c ≠ []

theorem pieces_send {statements : List Bytes} (hwhole : ∀ s ∈ statements, semicolon ∉ s)
    {s : Session σ} (hs : Pieces (.ok s)) :
    Pieces (statements.foldlM (Session.send connect) s) := by
  induction statements generalizing s with
  | nil => exact hs
  | cons statement statements ih =>
    rw [List.forall_mem_cons] at hwhole
    rw [List.foldlM_cons, Session.send]
    split
    · exact ih hwhole.2 hs
    · rename_i hblank
      have hmore : ∀ c ∈ s.calls ++ [trim statement], semicolon ∉ c ∧ c ≠ [] := by
        refine List.forall_mem_append.mpr ⟨hs, ?_⟩
        rw [List.forall_mem_singleton, mem_trim (by decide)]
        exact ⟨hwhole.1, hblank⟩
      rw [Session.call]
      cases connect s.db (trim statement) with
      | none => exact hmore
      | some db => exact ih hwhole.2 hmore

theorem pieces_next (lines : List Bytes) {r : Loop σ} (hr : Pieces (.ok r.session)) :
    Pieces ((lines.foldlM (Loop.next connect) r).map Loop.session) := by
  induction lines generalizing r with
  | nil => exact hr
  | cons line lines ih =>
    have hwhole := (@sep_not_mem_of_mem_cut _ _ semicolon [] List.not_mem_nil
      (appended r.buffer line)).1
    have hsend := @pieces_send _ connect _ hwhole _ hr
    rw [List.foldlM_cons, Loop.next]
    dsimp only
    split
    · split
      · exact hr
      · exact ih hr
    · cases hsent : (cut semicolon [] (appended r.buffer line)).1.foldlM (Session.send connect)
          r.session with
      | error s =>
        rw [hsent] at hsend
        exact hsend
      | ok s =>
        rw [hsent] at hsend
        exact ih hsend

variable (connect) in
/-- No statement has a semicolon in a literal or a comment, none is blank or taken for a command,
and `connect` returns from all but the last. -/
structure CutAtEnds (db : σ) (statements : List Bytes) : Prop where
  whole : ∀ s ∈ statements, semicolon ∉ s
  notBlank : ∀ s ∈ statements, trim s ≠ []
  noCommand : NoCommand statements
  returns : ((statements.map trim).dropLast.foldlM connect db).isSome

end Calls

theorem plain_getlines {statements : List Bytes} (hwhole : ∀ s ∈ statements, semicolon ∉ s)
    (hblank : ∀ s ∈ statements, trim s ≠ []) {tail : Bytes} (htail : ∀ b ∈ tail, isBlank b) :
    Plain [] (getlines (joinWith semicolon statements ++ tail)) ↔ NoCommand statements := by
  rw [← hasCommand_joinWith hwhole hblank htail]
  generalize joinWith semicolon statements ++ tail = input
  obtain ⟨back, hlines, hback⟩ := linesText_getlines input
  have hbackBlank : ∀ b ∈ back, isBlank b := fun b hb => hback b hb ▸ by decide
  have hnil : ∀ b ∈ ([] : Bytes), isBlank b := by simp
  have hinput : hasCommand true true input = hasCommand true true (newline :: input) := by
    rw [hasCommand, if_pos (by decide), decide_eq_true rfl, Bool.true_or]
  rw [hinput, hlines, hasCommand_append_blank _ hbackBlank]
  exact plain_iff (newline_not_mem_getlines input) hnil List.not_mem_nil true

theorem ink_blank {s : Bytes} (h : ∀ b ∈ s, isBlank b) : ink s = 0 :=
  List.countP_eq_zero.mpr fun b hb => by simp [isInk, h b hb]

/-- The lines hold what the statements hold. -/
theorem inks_getlines (statements : List Bytes) {tail : Bytes} (htail : ∀ b ∈ tail, isBlank b) :
    inks (getlines (joinWith semicolon statements ++ tail)) = inks statements := by
  have hparts : ∀ (f : Bytes → Bytes) (l : List Bytes), (∀ s, ink (f s) = ink s) →
      ink (l.flatMap f) = inks l := by
    intro f l hf
    rw [ink, List.countP_flatMap, inks]
    exact congrArg List.sum (List.map_congr_left fun s _ => hf s)
  have hjoin : ink (joinWith semicolon statements) = inks statements :=
    hparts _ _ fun s => by
      rw [ink, List.countP_append, List.countP_cons_of_neg (by decide), List.countP_nil, ink,
        Nat.add_zero]
  generalize hinput : joinWith semicolon statements ++ tail = input
  obtain ⟨back, hlines, hback⟩ := linesText_getlines input
  have hbackInk : ink back = 0 := ink_blank fun b hb => hback b hb ▸ by decide
  have htext : ink (linesText (getlines input)) = inks (getlines input) :=
    hparts _ _ fun s => List.countP_cons_of_neg (by decide)
  have hboth := congrArg ink hlines
  rw [← hinput] at hboth
  simp only [ink, List.countP_append, List.countP_cons_of_neg (show ¬isInk newline by decide)]
    at hboth
  have htailInk := ink_blank htail
  rw [hinput] at hboth
  simp only [ink] at hjoin hbackInk htext htailInk
  omega

/-- `connect` is called once for each statement, in order, exactly if the input is cut at the
ends of the statements. -/
theorem run_eq_iff {σ : Type} (connect : σ → Bytes → Option σ) (db : σ) (statements : List Bytes)
    {tail : Bytes} (htail : ∀ b ∈ tail, isBlank b) :
    run connect db (joinWith semicolon statements ++ tail) = statements.map trim ↔
      CutAtEnds connect db statements := by
  have hreturns : (∀ s ∈ statements, semicolon ∉ s) → (∀ s ∈ statements, trim s ≠ []) →
      Plain [] (getlines (joinWith semicolon statements ++ tail)) →
      (run connect db (joinWith semicolon statements ++ tail) = statements.map trim ↔
        ((statements.map trim).dropLast.foldlM connect db).isSome) := by
    intro hwhole hblank hplain
    have hpieces := map_trim_pieces_getlines hwhole htail
    have hsent : ∀ s ∈ pieces [] (getlines (joinWith semicolon statements ++ tail)),
        trim s ≠ [] := by
      rw [← List.forall_mem_map (P := fun s => s ≠ []), hpieces, List.forall_mem_map]
      exact hblank
    rw [run, foldlM_next rfl hplain, foldlM_send hsent, hpieces]
    exact calls_foldlM_call _ _
  constructor
  · intro h
    have hpieces : Pieces _ := @pieces_next _ connect
      (getlines (joinWith semicolon statements ++ tail)) { session := { db } }
      (by simp [Pieces, calls])
    rw [Pieces, ← run, h, List.forall_mem_map] at hpieces
    have hwhole : ∀ s ∈ statements, semicolon ∉ s := fun s hs => by
      rw [← mem_trim (by decide)]
      exact (hpieces s hs).1
    have hblank : ∀ s ∈ statements, trim s ≠ [] := fun s hs => (hpieces s hs).2
    have hplain : Plain [] (getlines (joinWith semicolon statements ++ tail)) := by
      by_contra hnot
      have hlt := (@ink_next _ connect (getlines (joinWith semicolon statements ++ tail))
        { session := { db } } rfl).2 hnot
      have hsame : inks (statements.map trim) = inks statements := by
        rw [inks, List.map_map, inks]
        exact congrArg List.sum (List.map_congr_left fun s _ => ink_trim s)
      rw [← run, h, hsame, inks_getlines statements htail] at hlt
      exact absurd hlt (by simp [inks, ink])
    exact ⟨hwhole, hblank, (plain_getlines hwhole hblank htail).mp hplain,
      (hreturns hwhole hblank hplain).mp h⟩
  · intro h
    have hplain := (plain_getlines h.whole h.notBlank htail).mpr h.noCommand
    exact (hreturns h.whole h.notBlank hplain).mpr h.returns

/-- Two statements over three lines. -/
def twoStatements : List Bytes := [ascii "FETCH *\n FROM t", ascii "\n\nREMOVE FROM t "]

theorem run_eq_iff_twoStatements :
    run (fun (_ : Unit) _ => some ()) () (joinWith semicolon twoStatements ++ [newline]) =
      [ascii "FETCH *\n FROM t", ascii "REMOVE FROM t"] := by
  have hrun := (run_eq_iff (fun (_ : Unit) _ => some ()) () twoStatements
    (List.forall_mem_singleton.mpr (show isBlank newline by decide))).mpr
  refine (hrun ⟨by decide, by decide, ⟨?_, ?_⟩, rfl⟩).trans (by decide)
  · rintro s ⟨⟩ ⟨h, -⟩
    exact absurd h (by decide)
  · simp only [twoStatements, List.tail_cons, List.forall_mem_singleton]
    exact fun h => absurd h.1 (by decide)

/-- `PUT INTO t VALUES ('a;b');` has one statement for the lexer, and two for `DB::run`. -/
theorem run_literal :
    (∀ token ∈ tokenize (ascii "PUT INTO t VALUES ('a;b')"), token.type ≠ .SEMICOLON) ∧
      run (fun (_ : Unit) _ => some ()) () (ascii "PUT INTO t VALUES ('a;b');") =
        [ascii "PUT INTO t VALUES ('a", ascii "b')"] := by
  decide +kernel

end Relite.Repl
