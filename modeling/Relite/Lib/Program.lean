import Mathlib.Algebra.BigOperators.Group.List.Basic

/-!
# Programs over a stateful interface

A program reads a state, calls operations on it, and returns a value or throws an error;
a thrown error keeps the state reached so far. `Frame` is a proof rule set for such
programs: an invariant together with a preorder that says how a state may have grown
since, so that facts gathered before a loop still hold in its later rounds.
-/
namespace Relite.Lib

/-- Programs that read states `σ`, call operations `o` and get answers `ρ`, and throw `ε`. -/
inductive Prog (σ o ρ ε α : Type)
  | ret (a : α)
  | throw (e : ε)
  | read (k : σ → Prog σ o ρ ε α)
  | call (c : o) (k : ρ → Prog σ o ρ ε α)

namespace Prog

variable {σ o ρ ε α β : Type}

def bind : Prog σ o ρ ε α → (α → Prog σ o ρ ε β) → Prog σ o ρ ε β
  | ret a, f => f a
  | throw e, _ => throw e
  | read k, f => read fun s => (k s).bind f
  | call c k, f => call c fun r => (k r).bind f

instance : Monad (Prog σ o ρ ε) where
  pure := ret
  bind := bind

/-- The state, seen without changing it. -/
def get : Prog σ o ρ ε σ := read ret

def perform (c : o) : Prog σ o ρ ε ρ := call c ret

variable (apply : o → σ → σ × ρ)

/-- The outcome and the state left, also when the outcome is an error. -/
def run : Prog σ o ρ ε α → σ → Except ε α × σ
  | ret a, s => (.ok a, s)
  | throw e, s => (.error e, s)
  | read k, s => (k s).run s
  | call c k, s => (k (apply c s).2).run (apply c s).1

/-- The calls that a run makes, each with the state it is made in. -/
def calls : Prog σ o ρ ε α → σ → List (σ × o)
  | ret _, _ => []
  | throw _, _ => []
  | read k, s => (k s).calls s
  | call c k, s => (s, c) :: (k (apply c s).2).calls (apply c s).1

/-- Whether a run throws before it makes a call of the given kind. -/
def throwsBefore (kind : o → Bool) : Prog σ o ρ ε α → σ → Bool
  | ret _, _ => false
  | throw _, _ => true
  | read k, s => (k s).throwsBefore kind s
  | call c k, s =>
    if kind c then false else (k (apply c s).2).throwsBefore kind (apply c s).1

@[simp] theorem pure_eq (a : α) : (pure a : Prog σ o ρ ε α) = ret a := rfl

@[simp] theorem bind_eq (x : Prog σ o ρ ε α) (f : α → Prog σ o ρ ε β) : x >>= f = x.bind f := rfl

@[simp] theorem run_ret (a : α) (s : σ) :
    (ret a : Prog σ o ρ ε α).run apply s = (.ok a, s) := rfl

@[simp] theorem run_throw (e : ε) (s : σ) :
    (throw e : Prog σ o ρ ε α).run apply s = (.error e, s) := rfl

@[simp] theorem run_read (k : σ → Prog σ o ρ ε α) (s : σ) :
    (read k).run apply s = (k s).run apply s := rfl

@[simp] theorem run_call (c : o) (k : ρ → Prog σ o ρ ε α) (s : σ) :
    (call c k).run apply s = (k (apply c s).2).run apply (apply c s).1 := rfl

@[simp] theorem run_get (s : σ) : (get : Prog σ o ρ ε σ).run apply s = (.ok s, s) := rfl

@[simp] theorem run_perform (c : o) (s : σ) :
    (perform c : Prog σ o ρ ε ρ).run apply s = (.ok (apply c s).2, (apply c s).1) := rfl

theorem run_bind (x : Prog σ o ρ ε α) (f : α → Prog σ o ρ ε β) (s : σ) :
    (x.bind f).run apply s =
      match x.run apply s with
      | (.ok a, s') => (f a).run apply s'
      | (.error e, s') => (.error e, s') := by
  induction x generalizing s with
  | ret a => rfl
  | throw e => rfl
  | read k ih => exact ih s s
  | call c k ih => exact ih _ _

theorem bind_assoc {γ : Type} (x : Prog σ o ρ ε α) (f : α → Prog σ o ρ ε β)
    (g : β → Prog σ o ρ ε γ) : (x.bind f).bind g = x.bind fun a => (f a).bind g := by
  induction x with
  | ret a => rfl
  | throw e => rfl
  | read k ih => exact congrArg read (funext ih)
  | call c k ih => exact congrArg (call c) (funext ih)

/-- Once the first program is done, the second goes on from the state it left. -/
theorem run_bind_ok {x : Prog σ o ρ ε α} {a : α} {s s' : σ} (h : x.run apply s = (.ok a, s'))
    (f : α → Prog σ o ρ ε β) : (x.bind f).run apply s = (f a).run apply s' := by
  rw [run_bind, h]

/-- A run that throws before it makes a call of the kind keeps what the other calls keep. -/
theorem run_of_throwsBefore {kind : o → Bool} {Keeps : σ → σ → Prop} (hrefl : ∀ s, Keeps s s)
    (hstep : ∀ c s s', kind c = false → Keeps (apply c s).1 s' → Keeps s s')
    (x : Prog σ o ρ ε α) {s : σ} (h : x.throwsBefore apply kind s = true) :
    (∃ e, (x.run apply s).1 = .error e) ∧ Keeps s (x.run apply s).2 := by
  induction x generalizing s with
  | ret a => cases h
  | throw e => exact ⟨⟨e, rfl⟩, hrefl s⟩
  | read k ih => exact ih s h
  | call c k ih =>
    simp only [throwsBefore] at h
    split at h
    · cases h
    · rename_i hkind
      obtain ⟨herror, hkeeps⟩ := ih _ h
      exact ⟨herror, hstep c s _ (by simpa using hkind) hkeeps⟩

/-- A run of two programs that returns is a run of each that returns. -/
theorem run_bind_eq_ok {x : Prog σ o ρ ε α} {f : α → Prog σ o ρ ε β} {s s' : σ} {b : β} :
    (x.bind f).run apply s = (.ok b, s') ↔
      ∃ a s₁, x.run apply s = (.ok a, s₁) ∧ (f a).run apply s₁ = (.ok b, s') := by
  rw [run_bind]
  generalize x.run apply s = r
  obtain ⟨outcome, s₁⟩ := r
  cases outcome with
  | error e => simp
  | ok a => simp

/-! ## The calls of a run -/

@[simp] theorem calls_ret (a : α) (s : σ) : (ret a : Prog σ o ρ ε α).calls apply s = [] := rfl

@[simp] theorem calls_throw (e : ε) (s : σ) :
    (throw e : Prog σ o ρ ε α).calls apply s = [] := rfl

@[simp] theorem calls_get (s : σ) : (get : Prog σ o ρ ε σ).calls apply s = [] := rfl

@[simp] theorem calls_perform (c : o) (s : σ) :
    (perform c : Prog σ o ρ ε ρ).calls apply s = [(s, c)] := rfl

theorem calls_bind (x : Prog σ o ρ ε α) (f : α → Prog σ o ρ ε β) (s : σ) :
    (x.bind f).calls apply s = x.calls apply s ++
      match x.run apply s with
      | (.ok a, s') => (f a).calls apply s'
      | (.error _, _) => [] := by
  induction x generalizing s with
  | ret a => rfl
  | throw e => rfl
  | read k ih => exact ih s s
  | call c k ih => exact congrArg ((s, c) :: ·) (ih _ _)

/-- Every call that the program makes, from whichever state, is of the kind. -/
def Makes (kind : o → Prop) (x : Prog σ o ρ ε α) : Prop := ∀ s, ∀ c ∈ x.calls apply s, kind c.2

namespace Makes

variable {apply} {kind kind' : o → Prop}

theorem ret (a : α) : Makes apply kind (.ret a : Prog σ o ρ ε α) := fun _ _ h => by cases h

theorem throw (e : ε) : Makes apply kind (.throw e : Prog σ o ρ ε α) := fun _ _ h => by cases h

theorem get : Makes apply kind (.get : Prog σ o ρ ε σ) := fun _ _ h => by cases h

theorem perform {c : o} (hc : kind c) : Makes apply kind (.perform c : Prog σ o ρ ε ρ) := by
  intro s c' h
  cases List.mem_singleton.mp h
  exact hc

theorem mono {x : Prog σ o ρ ε α} (h : Makes apply kind x) (hkind : ∀ c, kind c → kind' c) :
    Makes apply kind' x := fun s c hc => hkind _ (h s c hc)

theorem bind {x : Prog σ o ρ ε α} {f : α → Prog σ o ρ ε β} (hx : Makes apply kind x)
    (hf : ∀ a, Makes apply kind (f a)) : Makes apply kind (x.bind f) := by
  intro s c hc
  rw [calls_bind] at hc
  rcases List.mem_append.mp hc with hc | hc
  · exact hx s c hc
  · generalize x.run apply s = r at hc
    obtain ⟨outcome, s'⟩ := r
    cases outcome with
    | error e => cases hc
    | ok a => exact hf a s' c hc

theorem forM {f : α → Prog σ o ρ ε PUnit} (hf : ∀ a, Makes apply kind (f a)) (l : List α) :
    Makes apply kind (l.forM f) := by
  induction l with
  | nil => exact ret _
  | cons a l ih => exact (hf a).bind fun _ => ih

theorem foldlM {f : β → α → Prog σ o ρ ε β} (hf : ∀ b a, Makes apply kind (f b a)) (l : List α) :
    ∀ b, Makes apply kind (l.foldlM f b) := by
  induction l with
  | nil => exact fun b => ret b
  | cons a l ih => exact fun b => (hf b a).bind ih

/-- What no call of the kind changes, the run does not change. -/
theorem run_eq {δ : Type*} {g : σ → δ} {x : Prog σ o ρ ε α} (h : Makes apply kind x)
    (hkeep : ∀ c s, kind c → g (apply c s).1 = g s) (s : σ) : g (x.run apply s).2 = g s := by
  have hcalls := h s
  clear h
  induction x generalizing s with
  | ret a => rfl
  | throw e => rfl
  | read k ih => exact ih s s hcalls
  | call c k ih =>
    have hc : kind c := hcalls (s, c) List.mem_cons_self
    exact (ih _ _ fun c' hc' => hcalls c' (List.mem_cons_of_mem _ hc')).trans (hkeep c s hc)

end Makes

/-- The calls of the run from `s` have the property, each in the state it is made in. -/
def All (P : σ → o → Prop) (x : Prog σ o ρ ε α) (s : σ) : Prop :=
  ∀ c ∈ x.calls apply s, P c.1 c.2

instance (P : σ → o → Prop) [∀ s c, Decidable (P s c)] (x : Prog σ o ρ ε α) (s : σ) :
    Decidable (All apply P x s) :=
  inferInstanceAs (Decidable (∀ c ∈ x.calls apply s, P c.1 c.2))

namespace All

variable {apply} {P : σ → o → Prop} {s : σ}

theorem of_makes {x : Prog σ o ρ ε α} {kind : o → Prop} (h : Makes apply kind x)
    (hP : ∀ s c, kind c → P s c) : All apply P x s := fun c hc => hP _ _ (h s c hc)

theorem perform {c : o} (hc : P s c) : All apply P (.perform c : Prog σ o ρ ε ρ) s := by
  intro c' h
  cases List.mem_singleton.mp h
  exact hc

theorem bind_iff {x : Prog σ o ρ ε α} {f : α → Prog σ o ρ ε β} :
    All apply P (x.bind f) s ↔
      All apply P x s ∧ ∀ a s', x.run apply s = (.ok a, s') → All apply P (f a) s' := by
  unfold All
  rw [calls_bind]
  generalize x.run apply s = r
  obtain ⟨outcome, s'⟩ := r
  cases outcome with
  | error e => simp
  | ok a =>
    simp only [List.mem_append, or_imp, forall_and, Prod.mk.injEq, Except.ok.injEq, and_imp]
    exact and_congr_right fun _ => ⟨by rintro h _ _ rfl rfl; exact h, fun h => h a s' rfl rfl⟩

theorem bind {x : Prog σ o ρ ε α} {f : α → Prog σ o ρ ε β} (hx : All apply P x s)
    (hf : ∀ a s', x.run apply s = (.ok a, s') → All apply P (f a) s') :
    All apply P (x.bind f) s := bind_iff.mpr ⟨hx, hf⟩

theorem mono {Q : σ → o → Prop} {x : Prog σ o ρ ε α} (h : All apply P x s)
    (hpq : ∀ s c, P s c → Q s c) : All apply Q x s := fun c hc => hpq _ _ (h c hc)

theorem ret {a : α} : All apply P (.ret a : Prog σ o ρ ε α) s := fun _ h => by cases h

/-- What each call keeps, the run keeps. -/
theorem run_inv {Inv : σ → Prop} (hstep : ∀ s c, Inv s → P s c → Inv (apply c s).1)
    {x : Prog σ o ρ ε α} (hs : Inv s) (h : All apply P x s) : Inv (x.run apply s).2 := by
  induction x generalizing s with
  | ret a => exact hs
  | throw e => exact hs
  | read k ih => exact ih s hs h
  | call c k ih =>
    exact ih _ (hstep s c hs (h (s, c) List.mem_cons_self))
      fun c' hc' => h c' (List.mem_cons_of_mem _ hc')

theorem forM {f : α → Prog σ o ρ ε PUnit} (hf : ∀ a s, All apply P (f a) s) (l : List α) :
    All apply P (l.forM f) s := by
  induction l generalizing s with
  | nil => exact ret
  | cons a l ih => exact (hf a s).bind fun _ s' _ => ih

theorem foldlM {f : β → α → Prog σ o ρ ε β} (hf : ∀ b a s, All apply P (f b a) s) (l : List α) :
    ∀ {s} b, All apply P (l.foldlM f b) s := by
  induction l with
  | nil => exact fun b => ret
  | cons a l ih => exact fun b => (hf b a _).bind fun b' s' _ => ih b'

end All

/-! ## What is noted of the calls of a run -/

section

variable {δ : Type*}

/-- What is kept beside the state, as each call of the run changes it. -/
def notes (note : σ → o → δ → δ) (x : Prog σ o ρ ε α) (s : σ) (d : δ) : δ :=
  (x.calls apply s).foldl (fun d c => note c.1 c.2 d) d

theorem notes_bind (note : σ → o → δ → δ) (x : Prog σ o ρ ε α) (f : α → Prog σ o ρ ε β) (s : σ)
    (d : δ) : (x.bind f).notes apply note s d =
      match x.run apply s with
      | (.ok a, s') => (f a).notes apply note s' (x.notes apply note s d)
      | (.error _, _) => x.notes apply note s d := by
  simp only [notes, calls_bind, List.foldl_append]
  generalize x.run apply s = r
  obtain ⟨outcome, s'⟩ := r
  cases outcome <;> rfl

variable {apply} in
/-- Calls that change nothing of what is noted. -/
theorem Makes.notes_eq {kind : o → Prop} {note : σ → o → δ → δ} {x : Prog σ o ρ ε α}
    (h : Makes apply kind x) (hkeep : ∀ s c d, kind c → note s c d = d) (s : σ) (d : δ) :
    x.notes apply note s d = d := by
  have hcalls := h s
  unfold notes
  generalize x.calls apply s = l at hcalls
  induction l generalizing d with
  | nil => rfl
  | cons c l ih =>
    rw [List.foldl_cons, hkeep c.1 c.2 d (hcalls c List.mem_cons_self)]
    exact ih d fun c' hc' => hcalls c' (List.mem_cons_of_mem _ hc')

variable {apply} in
/-- What each call keeps of the state and of what is noted, the run keeps. -/
theorem All.notes_inv {P : σ → o → Prop} {I : σ → δ → Prop} {note : σ → o → δ → δ}
    (hstep : ∀ s c d, I s d → P s c → I (apply c s).1 (note s c d)) {x : Prog σ o ρ ε α}
    {s : σ} {d : δ} (hs : I s d) (h : All apply P x s) :
    I (x.run apply s).2 (x.notes apply note s d) := by
  induction x generalizing s d with
  | ret a => exact hs
  | throw e => exact hs
  | read k ih => exact ih s hs h
  | call c k ih =>
    exact ih _ (hstep s c d hs (h (s, c) List.mem_cons_self))
      fun c' hc' => h c' (List.mem_cons_of_mem _ hc')

end

/-! ## Programs within an invariant -/

/-- From every state of the invariant the run makes calls of the kind only. -/
def Within (Inv : σ → Prop) (kind : o → Prop) (x : Prog σ o ρ ε α) : Prop :=
  ∀ s, Inv s → All apply (fun _ c => kind c) x s

namespace Within

variable {apply} {Inv : σ → Prop} {kind : o → Prop}

theorem of_makes {x : Prog σ o ρ ε α} {kind' : o → Prop} (h : Makes apply kind' x)
    (hkind : ∀ c, kind' c → kind c) : Within apply Inv kind x :=
  fun _ _ => .of_makes h fun _ => hkind

theorem ret (a : α) : Within apply Inv kind (.ret a : Prog σ o ρ ε α) := fun _ _ => .ret

theorem perform {c : o} (hc : kind c) : Within apply Inv kind (.perform c : Prog σ o ρ ε ρ) :=
  fun _ _ => .perform hc

theorem get_bind {f : σ → Prog σ o ρ ε α} (h : ∀ s, Inv s → Within apply Inv kind (f s)) :
    Within apply Inv kind (Prog.get.bind f) := fun s hs => h s hs s hs

theorem bind {x : Prog σ o ρ ε α} {f : α → Prog σ o ρ ε β}
    (hstep : ∀ s c, Inv s → kind c → Inv (apply c s).1) (hx : Within apply Inv kind x)
    (hf : ∀ a, Within apply Inv kind (f a)) : Within apply Inv kind (x.bind f) := by
  intro s hs
  refine (hx s hs).bind fun a s' hrun => hf a s' ?_
  have hinv := (hx s hs).run_inv hstep hs
  rwa [hrun] at hinv

theorem forM {f : α → Prog σ o ρ ε PUnit} (hstep : ∀ s c, Inv s → kind c → Inv (apply c s).1)
    {l : List α} (hf : ∀ a ∈ l, Within apply Inv kind (f a)) :
    Within apply Inv kind (l.forM f) := by
  induction l with
  | nil => exact ret _
  | cons a l ih =>
    exact (hf a List.mem_cons_self).bind hstep fun _ =>
      ih fun b hb => hf b (List.mem_cons_of_mem _ hb)

theorem foldlM {f : β → α → Prog σ o ρ ε β} (hstep : ∀ s c, Inv s → kind c → Inv (apply c s).1)
    (hf : ∀ b a, Within apply Inv kind (f b a)) (l : List α) :
    ∀ b, Within apply Inv kind (l.foldlM f b) := by
  induction l with
  | nil => exact fun b => ret b
  | cons a l ih => exact fun b => (hf b a).bind hstep ih

end Within

/-! ## The rounds of a loop -/

/-- The rounds of a loop that are begun, each with the state and the accumulator it begins
with. -/
def rounds (f : β → α → Prog σ o ρ ε β) : List α → β → σ → List (σ × β × α)
  | [], _, _ => []
  | a :: l, b, s => (s, b, a) ::
    match (f b a).run apply s with
    | (.ok b', s') => rounds f l b' s'
    | (.error _, _) => []

theorem All.foldlM_iff {P : σ → o → Prop} {f : β → α → Prog σ o ρ ε β} {l : List α} {b : β}
    {s : σ} : All apply P (l.foldlM f b) s ↔
      ∀ r ∈ rounds apply f l b s, All apply P (f r.2.1 r.2.2) r.1 := by
  induction l generalizing b s with
  | nil => simpa [rounds] using All.ret
  | cons a l ih =>
    rw [List.foldlM_cons, bind_eq, All.bind_iff, rounds, List.forall_mem_cons]
    refine and_congr_right fun _ => ?_
    generalize (f b a).run apply s = r
    obtain ⟨outcome, s'⟩ := r
    cases outcome with
    | error e => simp
    | ok b' => simp [ih]

/-- What each round keeps, of the rounds before and of the state and the accumulator that they
leave behind, holds where a round begins. -/
theorem rounds_history {f : β → α → Prog σ o ρ ε β} {I : List (σ × β × α) → β → σ → Prop}
    (hround : ∀ pre b s a b' s', I pre b s → (f b a).run apply s = (.ok b', s') →
      I (pre ++ [(s, b, a)]) b' s') (l : List α) {pre : List (σ × β × α)} {b : β} {s : σ}
    (h : I pre b s) {before after : List (σ × β × α)} {r : σ × β × α}
    (hrounds : rounds apply f l b s = before ++ r :: after) : I (pre ++ before) r.2.1 r.1 := by
  induction l generalizing pre b s before with
  | nil => simp [rounds] at hrounds
  | cons a l ih =>
    rw [rounds] at hrounds
    cases before with
    | nil =>
      obtain ⟨rfl, -⟩ := List.cons.inj hrounds
      rwa [List.append_nil]
    | cons r' before =>
      obtain ⟨rfl, hrest⟩ := List.cons.inj hrounds
      split at hrest
      · rename_i b' s' hrun
        have hnext := ih (hround pre b s a b' s' h hrun) hrest
        rwa [List.append_assoc] at hnext
      · simp at hrest

/-! ## What the calls of a run come to -/

section

variable {M : Type*} [AddCommMonoid M]

/-- The sum of what each call of the run counts for. -/
def tally (count : σ → o → M) (x : Prog σ o ρ ε α) (s : σ) : M :=
  ((x.calls apply s).map fun c => count c.1 c.2).sum

theorem tally_bind (count : σ → o → M) (x : Prog σ o ρ ε α) (f : α → Prog σ o ρ ε β) (s : σ) :
    (x.bind f).tally apply count s = x.tally apply count s +
      match x.run apply s with
      | (.ok a, s') => (f a).tally apply count s'
      | (.error _, _) => 0 := by
  simp only [tally, calls_bind, List.map_append, List.sum_append]
  generalize x.run apply s = r
  obtain ⟨outcome, s'⟩ := r
  cases outcome <;> simp

/-- A run of two programs that returns counts for what each of them counts for. -/
theorem tally_bind_of_run {count : σ → o → M} {x : Prog σ o ρ ε α} {f : α → Prog σ o ρ ε β}
    {s s' : σ} {a : α} (h : x.run apply s = (.ok a, s')) :
    (x.bind f).tally apply count s = x.tally apply count s + (f a).tally apply count s' := by
  rw [tally_bind, h]

theorem tally_eq_zero {count : σ → o → M} {x : Prog σ o ρ ε α} {s : σ}
    (h : All apply (fun s c => count s c = 0) x s) : x.tally apply count s = 0 := by
  refine List.sum_eq_zero fun m hm => ?_
  obtain ⟨c, hc, rfl⟩ := List.mem_map.mp hm
  exact h c hc

/-- Where each call changes a level by what it gains and loses, so does the run. -/
theorem balance (Inv : σ → Prop) (level : σ → M) {P : σ → o → Prop} {gain loss : σ → o → M}
    (hstep : ∀ s c, Inv s → P s c →
      Inv (apply c s).1 ∧ level (apply c s).1 + loss s c = level s + gain s c)
    (x : Prog σ o ρ ε α) {s : σ} (hinv : Inv s) (hall : All apply P x s) :
    Inv (x.run apply s).2 ∧
      level (x.run apply s).2 + x.tally apply loss s = level s + x.tally apply gain s := by
  induction x generalizing s with
  | ret a => exact ⟨hinv, by simp [tally]⟩
  | throw e => exact ⟨hinv, by simp [tally]⟩
  | read k ih => exact ih s hinv hall
  | call c k ih =>
    obtain ⟨hinv', hlevel⟩ := hstep s c hinv (hall (s, c) List.mem_cons_self)
    obtain ⟨hinv'', hrest⟩ := ih _ hinv' fun c' hc' => hall c' (List.mem_cons_of_mem _ hc')
    refine ⟨hinv'', ?_⟩
    simp only [tally, calls, List.map_cons, List.sum_cons, run_call] at hrest ⊢
    rw [← add_assoc, add_right_comm, hrest, add_right_comm, hlevel, add_assoc]

end

/-- What a loop that returns has collected, round by round. -/
theorem collected_foldlM {γ : Type} {f : β → α → Prog σ o ρ ε β} (collected : β → List γ)
    (one : σ × β × α → Option γ)
    (hround : ∀ b a s b' s', (f b a).run apply s = (.ok b', s') →
      collected b' = collected b ++ (one (s, b, a)).toList) :
    ∀ (l : List α) {b b' : β} {s s' : σ}, (l.foldlM f b).run apply s = (.ok b', s') →
      collected b' = collected b ++ (rounds apply f l b s).filterMap one := by
  intro l
  induction l with
  | nil =>
    intro b b' s s' h
    cases h
    simp [rounds]
  | cons a l ih =>
    intro b b' s s' h
    rw [List.foldlM_cons, bind_eq, run_bind_eq_ok] at h
    obtain ⟨b₁, s₁, hone, hrest⟩ := h
    rw [rounds, hone, List.filterMap_cons, ih hrest, hround b a s b₁ s₁ hone]
    cases one (s, b, a) <;> simp

/-! ## Programs whose outcome does not show the state -/

/-- From every state of the invariant the program has this outcome and keeps the invariant. -/
def Yields (Inv : σ → Prop) (x : Prog σ o ρ ε α) (e : Except ε α) : Prop :=
  ∀ s, Inv s → (x.run apply s).1 = e ∧ Inv (x.run apply s).2

namespace Yields

variable {apply} {Inv : σ → Prop}

theorem ret (a : α) : Yields apply Inv (.ret a : Prog σ o ρ ε α) (.ok a) := fun _ h => ⟨rfl, h⟩

theorem throw (e : ε) : Yields apply Inv (.throw e : Prog σ o ρ ε α) (.error e) :=
  fun _ h => ⟨rfl, h⟩

theorem bind {x : Prog σ o ρ ε α} {f : α → Prog σ o ρ ε β} {e : Except ε α} {g : α → Except ε β}
    (hx : Yields apply Inv x e) (hf : ∀ a, Yields apply Inv (f a) (g a)) :
    Yields apply Inv (x.bind f) (e >>= g) := by
  intro s h
  obtain ⟨hout, hinv⟩ := hx s h
  rw [run_bind]
  generalize x.run apply s = r at hout hinv
  obtain ⟨outcome, s'⟩ := r
  subst hout
  cases outcome with
  | error e => exact ⟨rfl, hinv⟩
  | ok a => exact hf a s' hinv

theorem forM {f : α → Prog σ o ρ ε PUnit} {g : α → Except ε PUnit} {l : List α}
    (hf : ∀ a ∈ l, Yields apply Inv (f a) (g a)) : Yields apply Inv (l.forM f) (l.forM g) := by
  induction l with
  | nil => exact ret _
  | cons a l ih =>
    exact (hf a List.mem_cons_self).bind fun _ => ih fun b hb => hf b (List.mem_cons_of_mem _ hb)

end Yields

/-- The outcome is the same from every state of the invariant. -/
def Determined (Inv : σ → Prop) (x : Prog σ o ρ ε α) : Prop := ∃ e, Yields apply Inv x e

namespace Determined

variable {apply} {Inv : σ → Prop}

theorem ret (a : α) : Determined apply Inv (.ret a : Prog σ o ρ ε α) :=
  ⟨.ok a, fun _ h => ⟨rfl, h⟩⟩

theorem throw (e : ε) : Determined apply Inv (.throw e : Prog σ o ρ ε α) :=
  ⟨.error e, fun _ h => ⟨rfl, h⟩⟩

theorem perform {c : o} {r : ρ} (hr : ∀ s, (apply c s).2 = r)
    (hc : ∀ s, Inv s → Inv (apply c s).1) :
    Determined apply Inv (.perform c : Prog σ o ρ ε ρ) :=
  ⟨.ok r, fun s h => ⟨congrArg _ (hr s), hc s h⟩⟩

theorem bind {x : Prog σ o ρ ε α} {f : α → Prog σ o ρ ε β} (hx : Determined apply Inv x)
    (hf : ∀ a, Determined apply Inv (f a)) : Determined apply Inv (x.bind f) := by
  obtain ⟨e, hx⟩ := hx
  choose g hg using hf
  exact ⟨e >>= g, hx.bind hg⟩

theorem foldlM {f : β → α → Prog σ o ρ ε β} {l : List α}
    (hf : ∀ b, ∀ a ∈ l, Determined apply Inv (f b a)) :
    ∀ b, Determined apply Inv (l.foldlM f b) := by
  induction l with
  | nil => exact fun b => ret b
  | cons a l ih =>
    exact fun b => (hf b a List.mem_cons_self).bind fun b' =>
      ih (fun b a ha => hf b a (List.mem_cons_of_mem _ ha)) b'

/-- The outcome is the one from a state at hand. -/
theorem yields {x : Prog σ o ρ ε α} (h : Determined apply Inv x) {s : σ} (hs : Inv s) :
    Yields apply Inv x (x.run apply s).1 := by
  obtain ⟨e, he⟩ := h
  exact (he s hs).1 ▸ he

end Determined

end Prog

/-- An invariant, what does not get lost from one state to a later one, what the calls of a
program are taken to satisfy, and what they are shown to satisfy. -/
structure Frame (σ o : Type) where
  Inv : σ → Prop
  Ext : σ → σ → Prop
  refl : ∀ s, Ext s s
  trans : ∀ {a b c}, Ext a b → Ext b c → Ext a c
  Given : σ → o → Prop
  Good : σ → o → Prop

namespace Frame

variable {σ o ρ ε α β : Type} (apply : o → σ → σ × ρ) (F : Frame σ o)

/-- From `s` the program keeps the invariant and grows the state, whether it returns or
throws, its calls are good, and what it returns satisfies `Q`. -/
def Sat (s : σ) (x : Prog σ o ρ ε α) (Q : α → σ → Prop) : Prop :=
  x.All apply F.Given s → F.Inv (x.run apply s).2 ∧ F.Ext s (x.run apply s).2 ∧
    x.All apply F.Good s ∧ ∀ a, (x.run apply s).1 = .ok a → Q a (x.run apply s).2

variable {apply F} {s : σ}

theorem Sat.ret {Q : α → σ → Prop} (hinv : F.Inv s) {a : α} (hq : Q a s) :
    F.Sat apply s (.ret a : Prog σ o ρ ε α) Q :=
  fun _ => ⟨hinv, F.refl s, .ret, fun _ ha => by cases ha; exact hq⟩

theorem Sat.throw {Q : α → σ → Prop} (hinv : F.Inv s) (e : ε) :
    F.Sat apply s (.throw e : Prog σ o ρ ε α) Q :=
  fun _ => ⟨hinv, F.refl s, fun _ h => (by cases h), fun _ ha => by cases ha⟩

theorem Sat.mono {Q R : α → σ → Prop} {x : Prog σ o ρ ε α} (h : F.Sat apply s x Q)
    (hqr : ∀ a s', F.Inv s' → F.Ext s s' → Q a s' → R a s') : F.Sat apply s x R := by
  intro hgiven
  obtain ⟨hinv, hext, hgood, hq⟩ := h hgiven
  exact ⟨hinv, hext, hgood, fun a ha => hqr a _ hinv hext (hq a ha)⟩

/-- What is known of the calls of the program need not be asked for. -/
theorem Sat.of_given {Q : α → σ → Prop} {x : Prog σ o ρ ε α} {G : σ → o → Prop}
    (h : F.Sat apply s x Q) (hgiven : x.All apply F.Given s) :
    ({ F with Given := G } : Frame σ o).Sat apply s x Q := fun _ => h hgiven

theorem Sat.bind_run {Q : α → σ → Prop} {R : β → σ → Prop} {x : Prog σ o ρ ε α}
    {f : α → Prog σ o ρ ε β} (hx : F.Sat apply s x Q)
    (hf : ∀ a s', x.run apply s = (.ok a, s') → F.Inv s' → F.Ext s s' → Q a s' →
      F.Sat apply s' (f a) R) : F.Sat apply s (x.bind f) R := by
  intro hgiven
  obtain ⟨hgivenx, hgivenf⟩ := Prog.All.bind_iff.mp hgiven
  obtain ⟨hinv, hext, hgood, hq⟩ := hx hgivenx
  rw [Prog.All.bind_iff, Prog.run_bind]
  generalize hr : x.run apply s = r at hinv hext hq hf hgivenf
  obtain ⟨outcome, s'⟩ := r
  cases outcome with
  | error e => exact ⟨hinv, hext, ⟨hgood, fun _ _ h => (by cases h)⟩, fun _ ha => by cases ha⟩
  | ok a =>
    obtain ⟨hinv', hext', hgood', hq'⟩ :=
      hf a s' rfl hinv hext (hq a rfl) (hgivenf a s' rfl)
    exact ⟨hinv', F.trans hext hext', ⟨hgood, fun _ _ h => by cases h; exact hgood'⟩, hq'⟩

theorem Sat.bind {Q : α → σ → Prop} {R : β → σ → Prop} {x : Prog σ o ρ ε α}
    {f : α → Prog σ o ρ ε β} (hx : F.Sat apply s x Q)
    (hf : ∀ a s', F.Inv s' → F.Ext s s' → Q a s' → F.Sat apply s' (f a) R) :
    F.Sat apply s (x.bind f) R := hx.bind_run fun a s' _ => hf a s'

/-- A program that reads the state first goes on with the state it is in. -/
theorem Sat.get_bind {Q : α → σ → Prop} {f : σ → Prog σ o ρ ε α} (h : F.Sat apply s (f s) Q) :
    F.Sat apply s (Prog.get.bind f) Q := h

/-- A program whose run is known. -/
theorem Sat.of_run {Q : α → σ → Prop} {x : Prog σ o ρ ε α} {a : α} {s' : σ}
    (hrun : x.run apply s = (.ok a, s'))
    (h : x.All apply F.Given s → F.Inv s' ∧ F.Ext s s') (hgood : x.All apply F.Good s)
    (hq : Q a s') : F.Sat apply s x Q := by
  intro hgiven
  rw [hrun]
  obtain ⟨hinv, hext⟩ := h hgiven
  exact ⟨hinv, hext, hgood, fun _ ha => by cases ha; exact hq⟩

/-- A fact about a list element that growth of the state does not take away. -/
def Stable (P : σ → Prop) : Prop := ∀ s s', F.Inv s' → F.Ext s s' → P s → P s'

/-- A loop over a list, each element of which comes with a stable fact. -/
theorem Sat.forM {P : α → σ → Prop} {f : α → Prog σ o ρ ε PUnit}
    (hstable : ∀ a, F.Stable (P a))
    (hf : ∀ a s', F.Inv s' → P a s' → F.Sat apply s' (f a) fun _ _ => True) :
    ∀ {s : σ} (l : List α), F.Inv s → (∀ a ∈ l, P a s) →
      F.Sat apply s (l.forM f) fun _ _ => True := by
  intro s l
  induction l generalizing s with
  | nil => exact fun hinv _ => Sat.ret hinv trivial
  | cons a l ih =>
    intro hinv hP
    refine Sat.bind (hf a s hinv (hP a (by simp))) fun _ s' hinv' hext _ => ?_
    exact ih hinv' fun b hb => hstable b s s' hinv' hext (hP b (by simp [hb]))

/-- The same for a loop with an accumulator, which has a stable fact as well, where each
round that is begun meets a condition. -/
theorem Sat.foldlM_rounds {P : α → σ → Prop} {J : β → σ → Prop} {C : σ × β × α → Prop}
    {f : β → α → Prog σ o ρ ε β} (hP : ∀ a, F.Stable (P a))
    (hf : ∀ b a s', F.Inv s' → J b s' → P a s' → C (s', b, a) → F.Sat apply s' (f b a) J) :
    ∀ {s : σ} (l : List α) (b : β), F.Inv s → J b s → (∀ a ∈ l, P a s) →
      (∀ r ∈ Prog.rounds apply f l b s, C r) → F.Sat apply s (l.foldlM f b) J := by
  intro s l
  induction l generalizing s with
  | nil => exact fun b hinv hJ _ _ => Sat.ret hinv hJ
  | cons a l ih =>
    intro b hinv hJ hall hC
    rw [Prog.rounds, List.forall_mem_cons] at hC
    rw [List.foldlM_cons]
    refine Sat.bind_run (hf b a s hinv hJ (hall a (by simp)) hC.1)
      fun _ s' hrun hinv' hext hJ' => ?_
    have hrest := hC.2
    rw [hrun] at hrest
    exact ih _ hinv' hJ' (fun c hc => hP c s s' hinv' hext (hall c (by simp [hc]))) hrest

theorem Sat.foldlM {P : α → σ → Prop} {J : β → σ → Prop} {f : β → α → Prog σ o ρ ε β}
    (hP : ∀ a, F.Stable (P a)) (hf : ∀ b a s', F.Inv s' → J b s' → P a s' → F.Sat apply s' (f b a) J)
    {s : σ} (l : List α) (b : β) (hinv : F.Inv s) (hJ : J b s) (hall : ∀ a ∈ l, P a s) :
    F.Sat apply s (l.foldlM f b) J :=
  Sat.foldlM_rounds (C := fun _ => True) hP (fun b a s' hinv hJ hP _ => hf b a s' hinv hJ hP) l b
    hinv hJ hall fun _ _ => trivial

/-- What holds whenever a round of the loop is begun. -/
theorem Sat.rounds {P : α → σ → Prop} {J : β → σ → Prop} {f : β → α → Prog σ o ρ ε β}
    (hP : ∀ a, F.Stable (P a)) (hf : ∀ b a s', F.Inv s' → J b s' → P a s' → F.Sat apply s' (f b a) J) :
    ∀ {s : σ} (l : List α) (b : β), F.Inv s → J b s → (∀ a ∈ l, P a s) →
      (l.foldlM f b).All apply F.Given s →
      ∀ r ∈ Prog.rounds apply f l b s, F.Inv r.1 ∧ F.Ext s r.1 ∧ P r.2.2 r.1 := by
  intro s l
  induction l generalizing s with
  | nil => exact fun b _ _ _ _ r hr => by cases hr
  | cons a l ih =>
    intro b hinv hJ hall hgiven r hr
    rw [List.foldlM_cons] at hgiven
    obtain ⟨hgivena, hgivenl⟩ := Prog.All.bind_iff.mp hgiven
    have hfirst := hf b a s hinv hJ (hall a (by simp)) hgivena
    rw [Prog.rounds] at hr
    rcases List.mem_cons.mp hr with rfl | hr
    · exact ⟨hinv, F.refl s, hall a (by simp)⟩
    · generalize hrun : (f b a).run apply s = out at hr hfirst
      obtain ⟨outcome, s'⟩ := out
      cases outcome with
      | error e => cases hr
      | ok b' =>
        obtain ⟨hinv', hext, -, hJ'⟩ := hfirst
        have hall' : ∀ c ∈ l, P c s' := fun c hc => hP c s s' hinv' hext (hall c (by simp [hc]))
        obtain ⟨hinvr, hextr, hPr⟩ := ih b' hinv' (hJ' b' rfl) hall' (hgivenl b' s' hrun) r hr
        exact ⟨hinvr, F.trans hext hextr, hPr⟩

end Frame

end Relite.Lib
