import Mathlib.Data.List.Infix

/-!
# Patterns with wildcards

A pattern is a list in which `many` stands for any run of elements, `one` for any one
element, and every other element for itself. `Like` is what a pattern matches, and `Taking`
what it matches when a `many` that meets a `many` of the text takes just that element.
-/
namespace Relite.Lib

variable {α : Type*} {many one : α} {s t p : List α} {x c : α}

inductive Like (many one : α) : List α → List α → Prop
  | nil : Like many one [] []
  | many {s p : List α} (t : List α) (h : Like many one s p) : Like many one (t ++ s) (many :: p)
  | one {s p : List α} (c : α) (h : Like many one s p) : Like many one (c :: s) (one :: p)
  | self {s p : List α} (x : α) (hmany : x ≠ many) (hone : x ≠ one) (h : Like many one s p) :
    Like many one (x :: s) (x :: p)

inductive Taking (many one : α) : List α → List α → Prop
  | nil : Taking many one [] []
  | take {s p : List α} (h : Taking many one s p) : Taking many one (many :: s) (many :: p)
  | many {s p : List α} (t : List α) (hfirst : (t ++ s).head? ≠ some many)
    (h : Taking many one s p) : Taking many one (t ++ s) (many :: p)
  | one {s p : List α} (c : α) (hmany : one ≠ many) (h : Taking many one s p) :
    Taking many one (c :: s) (one :: p)
  | self {s p : List α} (x : α) (hmany : x ≠ many) (hone : x ≠ one) (h : Taking many one s p) :
    Taking many one (x :: s) (x :: p)

theorem Taking.like (h : Taking many one s p) : Like many one s p := by
  induction h with
  | nil => exact .nil
  | take _ ih => exact .many [many] ih
  | many t _ _ ih => exact .many t ih
  | one c _ _ ih => exact .one c ih
  | self x hmany hone _ ih => exact .self x hmany hone ih

/-- Without a `many` in the text there is nothing to take. -/
theorem Like.taking (h : Like many one s p) (hne : one ≠ many) (hs : many ∉ s) :
    Taking many one s p := by
  induction h with
  | nil => exact .nil
  | @many s p t _ ih =>
    refine .many t (fun hfirst => hs (List.mem_of_mem_head? ?_)) (ih fun hmem => hs ?_)
    · exact hfirst
    · exact List.mem_append_right t hmem
  | one c _ ih => exact .one c hne (ih fun hmem => hs (List.mem_cons_of_mem c hmem))
  | self x hmany hone _ ih =>
    exact .self x hmany hone (ih fun hmem => hs (List.mem_cons_of_mem x hmem))

/-! ## What the first element of a pattern says -/

theorem taking_nil_right : Taking many one s [] ↔ s = [] := by
  constructor
  · intro h
    cases h
    rfl
  · rintro rfl
    exact .nil

theorem taking_nil_left [DecidableEq α] : Taking many one [] p ↔ p.all (· = many) := by
  induction p with
  | nil => simpa using Taking.nil
  | cons x p ih =>
    rw [List.all_cons, Bool.and_eq_true, decide_eq_true_iff, ← ih]
    constructor
    · intro h
      generalize hs : ([] : List α) = s at h
      cases h with
      | many t hfirst h =>
        obtain ⟨rfl, rfl⟩ := List.append_eq_nil_iff.mp hs.symm
        exact ⟨rfl, h⟩
      | _ => cases hs
    · rintro ⟨rfl, h⟩
      exact .many [] nofun h

theorem taking_one (hne : one ≠ many) :
    Taking many one (c :: s) (one :: p) ↔ Taking many one s p := by
  constructor
  · intro h
    generalize hs : c :: s = s' at h
    cases h with
    | take => exact absurd rfl hne
    | many => exact absurd rfl hne
    | one c' _ h =>
      cases hs
      exact h
    | self x _ hone => exact absurd rfl hone
  · exact .one c hne

theorem taking_self (hmany : x ≠ many) (hone : x ≠ one) :
    Taking many one (c :: s) (x :: p) ↔ c = x ∧ Taking many one s p := by
  constructor
  · intro h
    generalize hs : c :: s = s' at h
    cases h with
    | take => exact absurd rfl hmany
    | many => exact absurd rfl hmany
    | one => exact absurd rfl hone
    | self _ _ _ h =>
      cases hs
      exact ⟨rfl, h⟩
  · rintro ⟨rfl, h⟩
    exact .self c hmany hone h

theorem taking_take (hne : one ≠ many) :
    Taking many one (many :: s) (many :: p) ↔ Taking many one s p := by
  constructor
  · intro h
    generalize hs : many :: s = s' at h
    cases h with
    | take h =>
      cases hs
      exact h
    | many t hfirst h => exact absurd (hs ▸ rfl) hfirst
    | one => exact absurd rfl hne
    | self _ hmany => exact absurd rfl hmany
  · exact .take

theorem taking_many (hne : one ≠ many) (hfirst : s.head? ≠ some many) :
    Taking many one s (many :: p) ↔ ∃ t, t <:+ s ∧ Taking many one t p := by
  constructor
  · intro h
    generalize hp : many :: p = p' at h
    cases h with
    | nil => cases hp
    | take => exact absurd rfl hfirst
    | many t _ h =>
      cases hp
      exact ⟨_, List.suffix_append t _, h⟩
    | one => exact absurd (List.cons.inj hp).1.symm hne
    | self x hmany => exact absurd (List.cons.inj hp).1.symm hmany
  · rintro ⟨t, ⟨u, rfl⟩, h⟩
    exact .many u hfirst h

/-- What a pattern matches somewhere at the end of a text, all but its first element
matches there too, after the first element of the text. -/
theorem Taking.exists_suffix (hne : one ≠ many) (ht : t <:+ c :: s)
    (h : Taking many one t (x :: p)) (hx : x = one ∨ x = c) :
    ∃ u, u <:+ s ∧ Taking many one u p := by
  have htail : ∀ {y : α} {u : List α}, t = y :: u → u <:+ s := by
    rintro y u rfl
    rcases List.suffix_cons_iff.mp ht with heq | hsuf
    · cases heq
      exact List.suffix_rfl
    · exact (List.suffix_cons y u).trans hsuf
  by_cases hmany : x = many
  · subst hmany
    by_cases hfirst : t.head? = some x
    · obtain ⟨u, rfl⟩ := List.head?_eq_some_iff.mp hfirst
      exact ⟨u, htail rfl, (taking_take hne).mp h⟩
    · obtain ⟨u, hu, h⟩ := (taking_many hne hfirst).mp h
      rcases List.suffix_cons_iff.mp ht with rfl | hsuf
      · -- the whole text begins with the `many` that the pattern takes
        rcases hx with rfl | rfl
        · exact absurd rfl hne
        · exact absurd rfl hfirst
      · exact ⟨u, hu.trans hsuf, h⟩
  · cases h with
    | take => exact absurd rfl hmany
    | many => exact absurd rfl hmany
    | one _ _ h => exact ⟨_, htail rfl, h⟩
    | self _ _ _ h => exact ⟨_, htail rfl, h⟩

end Relite.Lib
