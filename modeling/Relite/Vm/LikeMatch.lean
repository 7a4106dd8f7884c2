import Relite.Lib.Wildcard
import Relite.Vm.ExpressionEval

/-!
# What LIKE matches

`likeMatch` compares a character before it looks for a `%` in the pattern, so a `%` of the
pattern that meets a `%` of the text takes that one character and is not remembered. It
always ends, and it matches what `Taking` says.
-/
namespace Relite.Vm
open Lib

/-- The two cursors of the loop, with the last `%` of the pattern and where the text stood
when it was read. -/
structure LikeCursors where
  si : Nat
  pi : Nat
  star : Option Nat
  mark : Nat
  mark_le : mark ≤ si

namespace LikeCursors

def start : LikeCursors := ⟨0, 0, none, 0, le_rfl⟩

def advance (c : LikeCursors) : LikeCursors :=
  { c with si := c.si + 1, pi := c.pi + 1, mark_le := c.mark_le.trans (Nat.le_succ _) }

def remember (c : LikeCursors) : LikeCursors := ⟨c.si, c.pi + 1, some c.pi, c.si, le_rfl⟩

def goBack (c : LikeCursors) (star : Nat) : LikeCursors :=
  ⟨c.mark + 1, star + 1, some star, c.mark + 1, le_rfl⟩

end LikeCursors

/-- The loop of `likeMatch`. Going back moves the mark on, and every other round moves one
of the cursors on. -/
def likeLoop (s p : Bytes) (c : LikeCursors) : Bool :=
  if hs : c.si < s.length then
    if hmatch : p[c.pi]? = some 95 ∨ p[c.pi]? = some s[c.si] then likeLoop s p c.advance
    else if hstar : p[c.pi]? = some 37 then likeLoop s p c.remember
    else
      match c.star with
      | some star => likeLoop s p (c.goBack star)
      | none => false
  else ((p.drop c.pi).dropWhile (· == 37)).isEmpty
termination_by (s.length - c.mark, (s.length - c.si) + (p.length - c.pi))
decreasing_by
  · have hpi : c.pi < p.length := by
      rcases hmatch with h | h <;> exact (List.getElem?_eq_some_iff.mp h).1
    refine Prod.Lex.right _ ?_
    simp only [LikeCursors.advance]
    omega
  · have hpi : c.pi < p.length := (List.getElem?_eq_some_iff.mp hstar).1
    have hmark := c.mark_le
    simp only [LikeCursors.remember, Prod.lex_def]
    omega
  · have hmark := c.mark_le
    refine Prod.Lex.left _ _ ?_
    simp only [LikeCursors.goBack]
    omega

/-! ## The loop and its alternatives -/

/-- What going back from here gives. -/
def LikeCursors.otherwise (s p : Bytes) (c : LikeCursors) : Bool :=
  match c.star with
  | none => false
  | some star =>
    if c.mark < s.length then
      (s.drop (c.mark + 1)).tails.foldr (likeFrom (p.drop (star + 1))) false
    else false

theorem LikeCursors.otherwise_of_lt {s p : Bytes} {c : LikeCursors} {star : Nat}
    (hc : c.star = some star) (h : c.mark < s.length) :
    c.otherwise s p = (s.drop (c.mark + 1)).tails.foldr (likeFrom (p.drop (star + 1))) false := by
  rw [otherwise, hc]
  exact if_pos h

theorem LikeCursors.otherwise_of_le {s p : Bytes} {c : LikeCursors} {star : Nat}
    (hc : c.star = some star) (h : s.length ≤ c.mark) : c.otherwise s p = false := by
  rw [otherwise, hc]
  exact if_neg (Nat.not_lt.mpr h)

theorem likeFrom_nil (p : Bytes) (otherwise : Bool) :
    likeFrom p [] otherwise = p.all (· == 37) := by
  cases p with
  | nil => rfl
  | cons x p => rfl

theorem drop_of_getElem? {p : Bytes} {i : Nat} {x : UInt8} (h : p[i]? = some x) :
    p.drop i = x :: p.drop (i + 1) := by
  obtain ⟨hi, rfl⟩ := List.getElem?_eq_some_iff.mp h
  exact List.drop_eq_getElem_cons hi

/-- Where the characters differ and the pattern has no `%`, going back is what remains. -/
theorem likeFrom_of_mismatch {p s : Bytes} {c : UInt8} {i : Nat} {otherwise : Bool}
    (hmatch : ¬(p[i]? = some 95 ∨ p[i]? = some c)) (hstar : p[i]? ≠ some 37) :
    likeFrom (p.drop i) (c :: s) otherwise = otherwise := by
  cases hp : p[i]? with
  | none =>
    rw [List.drop_eq_nil_of_le (List.getElem?_eq_none_iff.mp hp)]
    rfl
  | some x =>
    rw [hp, Option.some_inj, Option.some_inj] at hmatch
    rw [hp, Ne, Option.some_inj] at hstar
    rw [drop_of_getElem? hp, likeFrom, if_neg hmatch, if_neg hstar]

theorem isEmpty_dropWhile (p : Bytes) : (p.dropWhile (· == 37)).isEmpty = p.all (· == 37) := by
  induction p with
  | nil => rfl
  | cons x p ih =>
    rw [List.dropWhile_cons, List.all_cons]
    split
    · rename_i h
      rw [ih, h, Bool.true_and]
    · rename_i h
      simp [h]

theorem foldr_tails (f : Bytes → Bool → Bool) (x : UInt8) (s : Bytes) :
    (x :: s).tails.foldr f false = f (x :: s) (s.tails.foldr f false) := rfl

theorem likeLoop_eq (s p : Bytes) (c : LikeCursors) :
    likeLoop s p c = likeFrom (p.drop c.pi) (s.drop c.si) (c.otherwise s p) := by
  fun_induction likeLoop s p c with
  | case1 c hs hmatch ih =>
    have hotherwise : c.advance.otherwise s p = c.otherwise s p := rfl
    rw [ih, hotherwise, List.drop_eq_getElem_cons hs]
    rcases hmatch with h | h
    · rw [drop_of_getElem? h, likeFrom, if_pos (.inl rfl)]
      rfl
    · rw [drop_of_getElem? h, likeFrom, if_pos (.inr rfl)]
      rfl
  | case2 c hs hmatch hstar ih =>
    rw [hstar, Option.some_inj, Option.some_inj] at hmatch
    rw [ih, LikeCursors.otherwise_of_lt rfl hs, drop_of_getElem? hstar,
      List.drop_eq_getElem_cons hs, likeFrom, if_neg hmatch, if_pos rfl, foldr_tails,
      ← List.drop_eq_getElem_cons hs]
    rfl
  | case3 c hs hmatch hstar star hc ih =>
    have hmark : c.mark < s.length := lt_of_le_of_lt c.mark_le hs
    rw [ih, List.drop_eq_getElem_cons hs, likeFrom_of_mismatch hmatch hstar,
      LikeCursors.otherwise_of_lt hc hmark]
    by_cases hnext : c.mark + 1 < s.length
    · rw [LikeCursors.otherwise_of_lt rfl hnext, List.drop_eq_getElem_cons hnext, foldr_tails,
        ← List.drop_eq_getElem_cons hnext]
      rfl
    · have hle : s.length ≤ c.mark + 1 := Nat.le_of_not_lt hnext
      rw [LikeCursors.otherwise_of_le rfl hle, List.drop_eq_nil_of_le hle]
      exact congrArg (likeFrom _ · false) (List.drop_eq_nil_of_le hle)
  | case4 c hs hmatch hstar hc =>
    rw [List.drop_eq_getElem_cons hs, likeFrom_of_mismatch hmatch hstar, LikeCursors.otherwise, hc]
  | case5 c hs =>
    rw [List.drop_eq_nil_of_le (Nat.le_of_not_lt hs), likeFrom_nil, isEmpty_dropWhile]

theorem likeLoop_start (s p : Bytes) : likeLoop s p .start = likeMatch s p := likeLoop_eq s p .start

/-! ## What the alternatives come to -/

/-- One of the tails is matched if the first is, or if going on finds one. -/
theorem foldr_tails_iff {p : Bytes}
    (ih : ∀ (s : Bytes) (otherwise : Bool), (otherwise → ∃ t, t <:+ s ∧ Taking 37 95 t p) →
      (likeFrom p s otherwise ↔ Taking 37 95 s p ∨ otherwise)) (s : Bytes) :
    s.tails.foldr (likeFrom p) false = true ↔ ∃ t, t <:+ s ∧ Taking 37 95 t p := by
  induction s with
  | nil =>
    have hnil : ([] : Bytes).tails.foldr (likeFrom p) false = likeFrom p [] false := rfl
    rw [hnil, ih [] false nofun]
    simp
  | cons x s ihs =>
    have hlater : s.tails.foldr (likeFrom p) false = true → ∃ t, t <:+ x :: s ∧ Taking 37 95 t p := by
      intro h
      obtain ⟨t, ht, htaking⟩ := ihs.mp h
      exact ⟨t, ht.trans (List.suffix_cons x s), htaking⟩
    rw [foldr_tails, ih (x :: s) _ hlater, ihs]
    constructor
    · rintro (h | ⟨t, ht, h⟩)
      · exact ⟨x :: s, List.suffix_rfl, h⟩
      · exact ⟨t, ht.trans (List.suffix_cons x s), h⟩
    · rintro ⟨t, ht, h⟩
      rcases List.suffix_cons_iff.mp ht with rfl | hsuf
      · exact .inl h
      · exact .inr ⟨t, hsuf, h⟩

/-- As long as the alternatives match a later part of the text, the loop takes what can be
taken or falls back on them. -/
theorem likeFrom_iff (p s : Bytes) (otherwise : Bool)
    (h : otherwise → ∃ t, t <:+ s ∧ Taking 37 95 t p) :
    likeFrom p s otherwise ↔ Taking 37 95 s p ∨ otherwise := by
  induction p generalizing s otherwise with
  | nil =>
    rw [likeFrom, Bool.or_eq_true, List.isEmpty_iff, taking_nil_right]
  | cons x p ih =>
    have hone : (95 : UInt8) ≠ 37 := by decide
    cases s with
    | nil =>
      have hnil : Taking 37 95 [] (x :: p) ↔ (x :: p).all (· == 37) := by
        rw [taking_nil_left]
        rfl
      rw [likeFrom_nil, ← hnil]
      refine ⟨.inl, fun hor => hor.elim id fun hother => ?_⟩
      obtain ⟨t, ht, htaking⟩ := h hother
      exact List.suffix_nil.mp ht ▸ htaking
    | cons c s =>
      rw [likeFrom]
      split
      · rename_i hx
        rw [ih s otherwise fun hother => by
          obtain ⟨t, ht, htaking⟩ := h hother
          exact htaking.exists_suffix hone ht hx]
        have hstep : Taking 37 95 (c :: s) (x :: p) ↔ Taking 37 95 s p := by
          rcases hx with rfl | rfl
          · exact taking_one hone
          · by_cases h37 : x = 37
            · subst h37
              exact taking_take hone
            · by_cases h95 : x = 95
              · subst h95
                exact taking_one hone
              · rw [taking_self h37 h95, eq_self, true_and]
        rw [hstep]
      · rename_i hx
        rw [not_or] at hx
        split
        · rename_i hstar
          subst hstar
          have hfirst : (c :: s).head? ≠ some 37 := fun hc => hx.2 (Option.some.inj hc).symm
          rw [foldr_tails_iff ih, taking_many hone hfirst]
          refine ⟨.inl, fun hor => hor.elim id fun hother => ?_⟩
          -- what the last `%` may still match, this one may match too
          obtain ⟨t, ht, htaking⟩ := h hother
          by_cases ht37 : t.head? = some 37
          · obtain ⟨u, rfl⟩ := List.head?_eq_some_iff.mp ht37
            exact ⟨u, (List.suffix_cons 37 u).trans ht, (taking_take hone).mp htaking⟩
          · obtain ⟨u, hu, htaking⟩ := (taking_many hone ht37).mp htaking
            exact ⟨u, hu.trans ht, htaking⟩
        · rename_i hstar
          rw [taking_self hstar hx.1]
          exact ⟨.inr, fun hor => hor.elim (fun hself => absurd hself.1.symm hx.2) id⟩

theorem likeMatch_iff_taking (s p : Bytes) : likeMatch s p ↔ Taking 37 95 s p := by
  rw [likeMatch, likeFrom_iff p s false nofun]
  exact or_iff_left Bool.false_ne_true

/-- LIKE matches what it should exactly on the texts that the pattern, when it matches them
at all, matches taking every `%` that it meets. -/
theorem likeLoop_iff_like (s p : Bytes) :
    (likeLoop s p .start ↔ Like 37 95 s p) ↔ (Like 37 95 s p → Taking 37 95 s p) := by
  rw [likeLoop_start, likeMatch_iff_taking]
  exact ⟨fun h => h.mpr, fun h => ⟨Taking.like, h⟩⟩

/-- So it does on every text without a `%`. -/
theorem likeLoop_of_not_mem {s : Bytes} (p : Bytes) (h : 37 ∉ s) :
    likeLoop s p .start ↔ Like 37 95 s p := by
  rw [likeLoop_start, likeMatch_iff_taking]
  exact ⟨Taking.like, fun hlike => hlike.taking (by decide) h⟩

/-- `'%a' LIKE '%'` is false. -/
theorem likeLoop_ne_like : ¬(likeLoop (ascii "%a") (ascii "%") .start ↔
    Like 37 95 (ascii "%a") (ascii "%")) := by
  have hlike : Like 37 95 (ascii "%a") (ascii "%") := .many (ascii "%a") .nil
  rw [likeLoop_start]
  exact fun h => absurd (h.mpr hlike) (by decide)

end Relite.Vm
