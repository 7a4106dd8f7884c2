import Relite.Lib.Program
import Mathlib.Order.WellFounded

/-!
# Recursion along a relation

A recursion goes from `a` to each `b` with `r a b`, and is cut off at a depth. Where no
endless path starts and each element leads to finitely many others, some depth is enough
(`exists_depth`). `Prog.Only` says which errors a run may end with, and what holds when it
returns.
-/
namespace Relite.Lib

section Endless

variable {α : Type*} {r : α → α → Prop} {a : α}

/-- An endless path along `r` starts at `a`. -/
def Endless (r : α → α → Prop) (a : α) : Prop :=
  ∃ f : Nat → α, f 0 = a ∧ ∀ n, r (f n) (f (n + 1))

theorem Endless.cons {b : α} (hb : r a b) (h : Endless r b) : Endless r a := by
  obtain ⟨f, rfl, hf⟩ := h
  refine ⟨fun n => n.casesOn a f, rfl, fun n => ?_⟩
  cases n with
  | zero => exact hb
  | succ n => exact hf n

theorem Endless.next (h : Endless r a) : ∃ b, r a b ∧ Endless r b := by
  obtain ⟨f, rfl, hf⟩ := h
  exact ⟨f 1, hf 0, fun n => f (n + 1), rfl, fun n => hf (n + 1)⟩

/-- What leads to one that has it again has an endless path. -/
theorem Endless.of_next {P : α → Prop} (hnext : ∀ a, P a → ∃ b, r a b ∧ P b) (ha : P a) :
    Endless r a := by
  choose f hf using fun x : {a // P a} => hnext x.1 x.2
  let path : Nat → {a // P a} := fun n => (fun x => ⟨f x, (hf x).2⟩)^[n] ⟨a, ha⟩
  refine ⟨fun n => (path n).1, rfl, fun n => ?_⟩
  have hsucc : path (n + 1) = ⟨f (path n), (hf (path n)).2⟩ := Function.iterate_succ_apply' ..
  change r (path n).1 (path (n + 1)).1
  rw [hsucc]
  exact (hf (path n)).1

theorem acc_of_not_endless (h : ¬Endless r a) : Acc (fun b a => r a b) a := by
  by_contra hacc
  obtain ⟨f, h₀, hf⟩ := not_acc_iff_exists_descending_chain.mp hacc
  exact h ⟨f, h₀, hf⟩

/-- A depth that is enough for all elements of a list. -/
theorem exists_depth_of_forall {P : Nat → α → Prop} {l : List α}
    (h : ∀ a ∈ l, ∃ n, ∀ d, n ≤ d → P d a) : ∃ n, ∀ d, n ≤ d → ∀ a ∈ l, P d a := by
  induction l with
  | nil => exact ⟨0, fun _ _ _ h => by cases h⟩
  | cons a l ih =>
    obtain ⟨n, hn⟩ := h a List.mem_cons_self
    obtain ⟨m, hm⟩ := ih fun b hb => h b (List.mem_cons_of_mem a hb)
    refine ⟨max n m, fun d hd => List.forall_mem_cons.mpr ⟨?_, ?_⟩⟩
    · exact hn d (le_trans (le_max_left n m) hd)
    · exact hm d (le_trans (le_max_right n m) hd)

/-- A recursion that goes along `r` is through at some depth. -/
theorem exists_depth {P : Nat → α → Prop} (next : α → List α) (hnext : ∀ a b, r a b → b ∈ next a)
    (hstep : ∀ a d, (∀ b, r a b → P d b) → P (d + 1) a) (h : ¬Endless r a) :
    ∃ n, ∀ d, n ≤ d → P d a := by
  induction acc_of_not_endless h with
  | intro a _ ih =>
    have hbelow : ∀ b ∈ next a, ∃ n, ∀ d, n ≤ d → r a b → P d b := by
      intro b _
      by_cases hb : r a b
      · obtain ⟨n, hn⟩ := ih b hb fun hend => h (hend.cons hb)
        exact ⟨n, fun d hd _ => hn d hd⟩
      · exact ⟨0, fun _ _ hr => absurd hr hb⟩
    obtain ⟨n, hn⟩ := exists_depth_of_forall hbelow
    refine ⟨n + 1, fun d hd => ?_⟩
    obtain ⟨d, rfl⟩ : ∃ d', d = d' + 1 := ⟨d - 1, by omega⟩
    exact hstep a d fun b hb => hn d (by omega) b (hnext a b hb) hb

end Endless

/-! ## The errors of a run -/

namespace Prog

variable {σ o ρ ε α β : Type} (apply : o → σ → σ × ρ)

/-- A run from `s` that throws throws one of the `errors`, and one that returns satisfies `Q`. -/
def Only (errors : ε → Prop) (s : σ) (x : Prog σ o ρ ε α) (Q : α → σ → Prop) : Prop :=
  match x.run apply s with
  | (.ok a, s') => Q a s'
  | (.error e, _) => errors e

namespace Only

variable {apply} {errors : ε → Prop} {s : σ} {Q : α → σ → Prop} {x : Prog σ o ρ ε α}

theorem ret {a : α} (h : Q a s) : Only apply errors s (.ret a : Prog σ o ρ ε α) Q := h

theorem throw {e : ε} (h : errors e) : Only apply errors s (.throw e : Prog σ o ρ ε α) Q := h

theorem of_run {r : Except ε α} {s' : σ} (hrun : x.run apply s = (r, s'))
    (hok : ∀ a, r = .ok a → Q a s') (herror : ∀ e, r = .error e → errors e) :
    Only apply errors s x Q := by
  unfold Only
  rw [hrun]
  cases r with
  | ok a => exact hok a rfl
  | error e => exact herror e rfl

theorem of_ok (h : Only apply errors s x Q) {a : α} {s' : σ} (hrun : x.run apply s = (.ok a, s')) :
    Q a s' := by
  unfold Only at h
  rwa [hrun] at h

theorem of_error (h : Only apply errors s x Q) {e : ε} (hrun : (x.run apply s).1 = .error e) :
    errors e := by
  unfold Only at h
  generalize x.run apply s = r at h hrun
  obtain ⟨r, s'⟩ := r
  cases hrun
  exact h

theorem mono {errors' : ε → Prop} {R : α → σ → Prop} (h : Only apply errors s x Q)
    (herror : ∀ e, errors e → errors' e) (hq : ∀ a s', Q a s' → R a s') :
    Only apply errors' s x R :=
  of_run rfl (fun _ hr => hq _ _ (h.of_ok (Prod.ext hr rfl))) fun _ hr => herror _ (h.of_error hr)

theorem bind {R : β → σ → Prop} {f : α → Prog σ o ρ ε β} (hx : Only apply errors s x Q)
    (hf : ∀ a s', Q a s' → Only apply errors s' (f a) R) : Only apply errors s (x.bind f) R := by
  unfold Only at hx ⊢
  rw [run_bind]
  generalize x.run apply s = r at hx
  obtain ⟨outcome, s'⟩ := r
  cases outcome with
  | error e => exact hx
  | ok a => exact hf a s' hx

theorem get_bind {f : σ → Prog σ o ρ ε α} (h : Only apply errors s (f s) Q) :
    Only apply errors s (Prog.get.bind f) Q := h

/-- A loop that keeps an invariant and finds out something of each element. -/
theorem forM_all {I : σ → Prop} {D : β → Prop} {f : β → Prog σ o ρ ε PUnit} {l : List β}
    (hf : ∀ b ∈ l, ∀ s, I s → Only apply errors s (f b) fun _ s' => I s' ∧ D b) (hs : I s) :
    Only apply errors s (l.forM f) fun _ s' => I s' ∧ ∀ b ∈ l, D b := by
  induction l generalizing s with
  | nil => exact ⟨hs, by simp⟩
  | cons b l ih =>
    refine (hf b List.mem_cons_self s hs).bind fun _ s' ⟨hs', hb⟩ => ?_
    exact (ih (fun b' hb' => hf b' (List.mem_cons_of_mem b hb')) hs').mono (fun _ h => h)
      fun _ _ h => ⟨h.1, List.forall_mem_cons.mpr ⟨hb, h.2⟩⟩

theorem forM {I : σ → Prop} {f : β → Prog σ o ρ ε PUnit} {l : List β}
    (hf : ∀ b ∈ l, ∀ s, I s → Only apply errors s (f b) fun _ => I) (hs : I s) :
    Only apply errors s (l.forM f) fun _ => I :=
  (forM_all (D := fun _ => True) (fun b hb s hs => (hf b hb s hs).mono (fun _ h => h)
    fun _ _ h => ⟨h, trivial⟩) hs).mono (fun _ h => h) fun _ _ h => h.1

end Only

end Prog

end Relite.Lib
