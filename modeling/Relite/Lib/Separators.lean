import Mathlib.Data.List.Basic
import Mathlib.Data.List.TakeWhile

/-!
# Separators between children

The entries of a search tree stand in order, and each two children of an inner node have a
separator between them: what is less than it belongs to the left of it. An entry more goes
into one child, which may become two then, and the children may be shared between two nodes.
-/
namespace Relite.Lib

/-! ## Entries in order -/

section Order

variable {ε : Type} (P : ε → Prop) (less : ε → ε → Bool)

/-- `less` is a strict weak order on the entries with `P`. -/
structure StrictWeakOn : Prop where
  asymm : ∀ a b, P a → P b → less a b → less b a = false
  split : ∀ a b c, P a → P b → P c → less a c → less a b ∨ less b c

/-- At or after the lower bound, if there is one. -/
def From (lo : Option ε) (e : ε) : Prop := ∀ l ∈ lo, less e l = false

/-- After the lower bound. -/
def Above (lo : Option ε) (e : ε) : Prop := ∀ l ∈ lo, less l e

/-- Before the upper bound. -/
def Below (hi : Option ε) (e : ε) : Prop := ∀ h ∈ hi, less e h

variable {P less}

theorem StrictWeakOn.trans (h : StrictWeakOn P less) {a b c : ε} (ha : P a) (hb : P b) (hc : P c)
    (hab : less a b) (hbc : less b c) : less a c :=
  (h.split a c b ha hc hb hab).resolve_right (by simp [h.asymm b c hb hc hbc])

/-- What is less than an entry is less than all that are not less than it. -/
theorem StrictWeakOn.less_of_not_less (h : StrictWeakOn P less) {a b c : ε} (ha : P a) (hb : P b)
    (hc : P c) (hab : less a b) (hcb : less c b = false) : less a c :=
  (h.split a c b ha hc hb hab).resolve_right (by simp [hcb])

theorem StrictWeakOn.less_of_not_less_left (h : StrictWeakOn P less) {a b c : ε} (ha : P a)
    (hb : P b) (hc : P c) (hba : less b a = false) (hbc : less b c) : less a c :=
  (h.split b a c hb ha hc hbc).resolve_left (by simp [hba])

theorem Above.from_ (h : StrictWeakOn P less) {lo : Option ε} (hlo : ∀ l ∈ lo, P l) {e : ε}
    (he : P e) (hab : Above less lo e) : From less lo e :=
  fun l hl => h.asymm l e (hlo l hl) he (hab l hl)

end Order

/-! ## The children of an inner node -/

/-- Nodes with a separator between each two. -/
inductive Children (ε α : Type)
  | last (child : α)
  | more (child : α) (sep : ε) (rest : Children ε α)

namespace Children

variable {ε α β : Type}

def kids : Children ε α → List α
  | last c => [c]
  | more c _ rest => c :: rest.kids

def seps : Children ε α → List ε
  | last _ => []
  | more _ s rest => s :: rest.seps

def first : Children ε α → α
  | last c => c
  | more c _ _ => c

/-- Lists made of the children, one after another. -/
def flat (f : α → List β) : Children ε α → List β
  | last c => f c
  | more c _ rest => f c ++ rest.flat f

/-- Each child satisfies `W` with the bounds that its separators are. -/
def Bounded (P : ε → Prop) (less : ε → ε → Bool) (W : Option ε → Option ε → α → Prop) :
    Option ε → Option ε → Children ε α → Prop
  | lo, hi, last c => W lo hi c
  | lo, hi, more c s rest =>
    W lo (some s) c ∧ P s ∧ Above less lo s ∧ Below less hi s ∧ Bounded P less W (some s) hi rest

/-- Each child satisfies `L` with what comes first in the next one. -/
def Linked (head : α → Int) (L : Int → α → Prop) (after : Int) : Children ε α → Prop
  | last c => L after c
  | more c _ rest => L (head rest.first) c ∧ Linked head L after rest

/-- The child that an entry belongs into. -/
def childFor (less : ε → ε → Bool) (e : ε) : Children ε α → α
  | last c => c
  | more c s rest => if less e s then c else rest.childFor less e

/-- That child replaced by one or by two. -/
def update (less : ε → ε → Bool) (e : ε) (c' : α) (o : Option (ε × α)) :
    Children ε α → Children ε α
  | last _ =>
    match o with
    | none => last c'
    | some (up, r) => more c' up (last r)
  | more c s rest =>
    if less e s then
      match o with
      | none => more c' s rest
      | some (up, r) => more c' up (more r s rest)
    else more c s (rest.update less e c' o)

/-- The children before and after the separator of a number. -/
def splitAt : Nat → Children ε α → Option (Children ε α × ε × Children ε α)
  | _, last _ => none
  | 0, more c s rest => some (last c, s, rest)
  | n + 1, more c s rest => (splitAt n rest).map fun p => (more c s p.1, p.2.1, p.2.2)

theorem kids_childFor (less : ε → ε → Bool) (e : ε) (ks : Children ε α) :
    ks.kids[(ks.seps.takeWhile fun s => !less e s).length]? = some (ks.childFor less e) := by
  fun_induction childFor less e ks with
  | case1 c => rfl
  | case2 c s rest h => simp [kids, seps, h]
  | case3 c s rest h ih => simp [kids, seps, h, ih]

theorem mem_kids_childFor (less : ε → ε → Bool) (e : ε) (ks : Children ε α) :
    ks.childFor less e ∈ ks.kids := List.mem_of_getElem? (kids_childFor less e ks)

theorem first_mem_kids (ks : Children ε α) : ks.first ∈ ks.kids := by
  cases ks <;> simp [first, kids]

theorem head?_kids (ks : Children ε α) : ks.kids.head? = some ks.first := by
  cases ks <;> rfl

section Slot

variable {P : ε → Prop} {less : ε → ε → Bool} {W : Option ε → Option ε → α → Prop}

variable (P less W) in
/-- The bounds of the child that an entry belongs into, with what may take its place. -/
structure Slot (lo hi : Option ε) (e : ε) (ks : Children ε α) (lo' hi' : Option ε) : Prop where
  lower : ∀ l ∈ lo', P l
  upper : ∀ u ∈ hi', P u
  from_ : From less lo' e
  below : Below less hi' e
  child : W lo' hi' (ks.childFor less e)
  above : ∀ up, P up → Above less lo' up → Above less lo up
  one : ∀ c', W lo' hi' c' → (ks.update less e c' none).Bounded P less W lo hi
  two : ∀ c' up r, P up → Above less lo' up → Below less hi' up → W lo' (some up) c' →
    W (some up) hi' r → (ks.update less e c' (some (up, r))).Bounded P less W lo hi
  seps : ∀ c' up r, P up → Above less lo' up → Below less hi' up →
    (ks.update less e c' (some (up, r))).seps =
      ks.seps.insertIdx (ks.seps.takeWhile fun s => less s up).length up
  kids : ∀ c' up r, P up → Above less lo' up → Below less hi' up → ∀ g : α → Int,
    g c' = g (ks.childFor less e) →
    (ks.update less e c' (some (up, r))).kids.map g =
      (ks.kids.map g).insertIdx ((ks.seps.takeWhile fun s => less s up).length + 1) (g r)

theorem Bounded.slot (h : StrictWeakOn P less) {e : ε} {ks : Children ε α}
    {lo hi : Option ε} (hlo : ∀ l ∈ lo, P l) (hhi : ∀ u ∈ hi, P u) (hfrom : From less lo e)
    (hbelow : Below less hi e) (hks : ks.Bounded P less W lo hi) :
    ∃ lo' hi', Slot P less W lo hi e ks lo' hi' := by
  induction ks generalizing lo with
  | last c =>
    refine ⟨lo, hi, ⟨hlo, hhi, hfrom, hbelow, hks, fun _ _ h => h, fun _ h => h, ?_, ?_, ?_⟩⟩
    · exact fun c' up r hup hl hu hc hr => ⟨hc, hup, hl, hu, hr⟩
    · exact fun _ _ _ _ _ _ => rfl
    · exact fun c' up r _ _ _ g hg => by simp [update, Children.kids, Children.seps, hg, childFor]
  | more c s rest ih =>
    obtain ⟨hc, hs, hsl, hsu, hrest⟩ := hks
    by_cases hes : less e s
    · refine ⟨lo, some s, ⟨hlo, by simpa using hs, hfrom, by simpa [Below] using hes, ?_,
        fun _ _ h => h, fun c' hc' => ?_, fun c' up r hup hl hu hc' hr => ?_,
        fun c' up r hup hl hu => ?_, fun c' up r hup hl hu g hg => ?_⟩⟩
      · rwa [childFor, if_pos hes]
      · rw [update, if_pos hes]
        exact ⟨hc', hs, hsl, hsu, hrest⟩
      · rw [update, if_pos hes]
        have hups : less up s := hu s rfl
        refine ⟨hc', hup, hl, fun u hu' => h.trans hup hs (hhi u hu') hups (hsu u hu'), hr, hs, ?_,
          hsu, hrest⟩
        rintro l ⟨⟩
        exact hups
      · have hups : less s up = false := h.asymm up s hup hs (hu s rfl)
        simp [update, hes, Children.seps, hups]
      · have hups : less s up = false := h.asymm up s hup hs (hu s rfl)
        rw [childFor, if_pos hes] at hg
        simp [update, hes, Children.seps, Children.kids, hups, hg]
    · have hfrom' : From less (some s) e := by
        rintro l ⟨⟩
        simpa using hes
      obtain ⟨lo', hi', hslot⟩ := ih (by simpa using hs) hfrom' hrest
      have hsup : ∀ up, P up → Above less lo' up → less s up := fun up hup hl =>
        hslot.above up hup hl s rfl
      refine ⟨lo', hi', ⟨hslot.lower, hslot.upper, hslot.from_, hslot.below, ?_,
        fun up hup hl l hmem => ?_, fun c' hc' => ?_, fun c' up r hup hl hu hc' hr => ?_,
        fun c' up r hup hl hu => ?_, fun c' up r hup hl hu g hg => ?_⟩⟩
      · rw [childFor, if_neg hes]
        exact hslot.child
      · exact h.trans (hlo l hmem) hs hup (hsl l hmem) (hsup up hup hl)
      · rw [update, if_neg hes]
        exact ⟨hc, hs, hsl, hsu, hslot.one c' hc'⟩
      · rw [update, if_neg hes]
        exact ⟨hc, hs, hsl, hsu, hslot.two c' up r hup hl hu hc' hr⟩
      · rw [update, if_neg hes]
        simp [Children.seps, hsup up hup hl, hslot.seps c' up r hup hl hu]
      · rw [childFor, if_neg hes] at hg
        rw [update, if_neg hes]
        simp [Children.kids, Children.seps, hsup up hup hl, hslot.kids c' up r hup hl hu g hg]

end Slot

theorem seps_update_none (less : ε → ε → Bool) (e : ε) (c' : α) (ks : Children ε α) :
    (ks.update less e c' none).seps = ks.seps := by
  induction ks with
  | last c => rfl
  | more c s rest ih =>
    rw [update]
    split
    · rfl
    · rw [seps, ih, seps]

theorem kids_update_none {less : ε → ε → Bool} {e : ε} {c' : α} {ks : Children ε α} {g : α → Int}
    (hg : g c' = g (ks.childFor less e)) :
    (ks.update less e c' none).kids.map g = ks.kids.map g := by
  induction ks with
  | last c => simpa [update, kids, childFor] using hg
  | more c s rest ih =>
    rw [update]
    rw [childFor] at hg
    split
    · rename_i hes
      rw [if_pos hes] at hg
      simp [kids, hg]
    · rename_i hes
      rw [if_neg hes] at hg
      simp [kids, ih hg]

/-- The children that an entry does not belong into. -/
def others (less : ε → ε → Bool) (e : ε) : Children ε α → List α
  | last _ => []
  | more c s rest => if less e s then rest.kids else c :: rest.others less e

theorem kids_perm (less : ε → ε → Bool) (e : ε) (ks : Children ε α) :
    ks.kids.Perm (ks.childFor less e :: ks.others less e) := by
  induction ks with
  | last c => exact .refl _
  | more c s rest ih =>
    rw [kids, childFor, others]
    split
    · exact .refl _
    · exact (ih.cons c).trans (.swap _ _ _)

theorem kids_update_perm (less : ε → ε → Bool) (e : ε) (c' : α) (o : Option (ε × α))
    (ks : Children ε α) :
    (ks.update less e c' o).kids.Perm (c' :: (o.map Prod.snd).toList ++ ks.others less e) := by
  induction ks with
  | last c => cases o <;> exact .refl _
  | more c s rest ih =>
    by_cases hes : less e s
    · cases o <;> simp [update, others, hes, kids]
    · have hmore : (more c s rest).update less e c' o = more c s (rest.update less e c' o) := by
        cases o <;> simp [update, hes]
      rw [hmore, others, if_neg hes]
      exact (ih.cons c).trans List.perm_middle.symm

theorem flat_eq_flatMap (f : α → List β) (ks : Children ε α) : ks.flat f = ks.kids.flatMap f := by
  induction ks with
  | last c => simp [flat, kids]
  | more c s rest ih => rw [flat, ih, kids, List.flatMap_cons]

theorem length_flat_le {γ : Type} {f : α → List β} {g : α → List γ}
    (h : ∀ c, (f c).length ≤ (g c).length) (ks : Children ε α) :
    (ks.flat f).length ≤ (ks.flat g).length := by
  induction ks with
  | last c => exact h c
  | more c s rest ih =>
    rw [flat, flat, List.length_append, List.length_append]
    exact Nat.add_le_add (h c) ih

theorem length_first_le (f : α → List β) (ks : Children ε α) :
    (f ks.first).length ≤ (ks.flat f).length := by
  cases ks <;> simp [first, flat]

/-- What holds of the lists of the children, in order and between the bounds, holds of all. -/
theorem Bounded.flat {P : ε → Prop} {less : ε → ε → Bool} {W : Option ε → Option ε → α → Prop}
    (h : StrictWeakOn P less) {f : α → List ε}
    (hW : ∀ lo hi c, (∀ l ∈ lo, P l) → (∀ u ∈ hi, P u) → W lo hi c →
      (f c).Pairwise (fun a b => less a b) ∧ ∀ x ∈ f c, P x ∧ From less lo x ∧ Below less hi x)
    {ks : Children ε α} {lo hi : Option ε} (hlo : ∀ l ∈ lo, P l) (hhi : ∀ u ∈ hi, P u)
    (hks : ks.Bounded P less W lo hi) :
    (ks.flat f).Pairwise (fun a b => less a b) ∧
      ∀ x ∈ ks.flat f, P x ∧ From less lo x ∧ Below less hi x := by
  induction ks generalizing lo with
  | last c => exact hW lo hi c hlo hhi hks
  | more c s rest ih =>
    obtain ⟨hc, hs, hsl, hsu, hrest⟩ := hks
    have hsP : ∀ l ∈ some s, P l := by simpa using hs
    obtain ⟨hpc, hxc⟩ := hW lo (some s) c hlo hsP hc
    obtain ⟨hpr, hxr⟩ := ih hsP hrest
    refine ⟨List.pairwise_append.mpr ⟨hpc, hpr, fun a ha b hb => ?_⟩, fun x hx => ?_⟩
    · obtain ⟨hPa, -, hbelow⟩ := hxc a ha
      obtain ⟨hPb, hfrom, -⟩ := hxr b hb
      exact h.less_of_not_less hPa hs hPb (hbelow s rfl) (hfrom s rfl)
    · rcases List.mem_append.mp hx with hx | hx
      · obtain ⟨hPx, hfrom, hbelow⟩ := hxc x hx
        exact ⟨hPx, hfrom, fun u hu => h.trans hPx hs (hhi u hu) (hbelow s rfl) (hsu u hu)⟩
      · obtain ⟨hPx, hfrom, hbelow⟩ := hxr x hx
        refine ⟨hPx, fun l hl => ?_, hbelow⟩
        exact h.asymm l x (hlo l hl) hPx
          (h.less_of_not_less (hlo l hl) hs hPx (hsl l hl) (hfrom s rfl))

/-- The children before and after the one that an entry belongs into. -/
theorem Bounded.exists_kids {P : ε → Prop} {less : ε → ε → Bool}
    {W : Option ε → Option ε → α → Prop} (h : StrictWeakOn P less) {f : α → List ε}
    (hW : ∀ lo hi c, (∀ l ∈ lo, P l) → (∀ u ∈ hi, P u) → W lo hi c →
      (f c).Pairwise (fun a b => less a b) ∧ ∀ x ∈ f c, P x ∧ From less lo x ∧ Below less hi x)
    {e : ε} (he : P e) {ks : Children ε α} {lo hi : Option ε} (hlo : ∀ l ∈ lo, P l)
    (hhi : ∀ u ∈ hi, P u) (hks : ks.Bounded P less W lo hi) :
    ∃ front back, ks.kids = front ++ ks.childFor less e :: back ∧
      (∀ x ∈ front.flatMap f, P x ∧ less x e) ∧ (∀ x ∈ back.flatMap f, P x ∧ less e x) ∧
      (∀ c', (ks.update less e c' none).kids = front ++ c' :: back) ∧
      ∀ c' up r, (ks.update less e c' (some (up, r))).kids = front ++ c' :: r :: back := by
  induction ks generalizing lo with
  | last c => exact ⟨[], [], by simp [kids, childFor], by simp, by simp, by simp [update, kids],
      by simp [update, kids]⟩
  | more c s rest ih =>
    obtain ⟨hc, hs, hsl, hsu, hrest⟩ := hks
    have hsP : ∀ l ∈ some s, P l := by simpa using hs
    by_cases hes : less e s
    · refine ⟨[], rest.kids, by simp [kids, childFor, hes], by simp, fun x hx => ?_,
        by simp [update, kids, hes], by simp [update, kids, hes]⟩
      rw [← flat_eq_flatMap] at hx
      obtain ⟨hPx, hfrom, -⟩ := (hrest.flat h hW hsP hhi).2 x hx
      exact ⟨hPx, h.less_of_not_less he hs hPx hes (hfrom s rfl)⟩
    · obtain ⟨front, back, heq, hfront, hback, hone, htwo⟩ := ih hsP hrest
      refine ⟨c :: front, back, by simp [kids, childFor, hes, heq], fun x hx => ?_, hback,
        by simp [update, kids, hes, hone], by simp [update, kids, hes, htwo]⟩
      rcases List.mem_append.mp (List.flatMap_cons ▸ hx) with hx | hx
      · obtain ⟨hPx, -, hbelow⟩ := (hW lo (some s) c hlo hsP hc).2 x hx
        exact ⟨hPx, h.less_of_not_less hPx hs he (hbelow s rfl) (by simpa using hes)⟩
      · exact hfront x hx

theorem Linked.imp {head : α → Int} {L L' : Int → α → Prop} {after : Int} {ks : Children ε α}
    (hks : ks.Linked head L after) (h : ∀ c ∈ ks.kids, ∀ a, L a c → L' a c) :
    ks.Linked head L' after := by
  induction ks with
  | last c => exact h c (by simp [kids]) after hks
  | more c s rest ih =>
    rw [kids, List.forall_mem_cons] at h
    exact ⟨h.1 _ hks.1, ih hks.2 h.2⟩

theorem head_first_update {head : α → Int} {less : ε → ε → Bool} {e : ε} {c' : α}
    (o : Option (ε × α)) {ks : Children ε α} (hc' : head c' = head (ks.childFor less e)) :
    head (ks.update less e c' o).first = head ks.first := by
  cases ks with
  | last c => cases o <;> exact hc'
  | more c s rest =>
    rw [childFor] at hc'
    by_cases hes : less e s
    · rw [if_pos hes] at hc'
      cases o <;> simp [update, hes, first, hc']
    · cases o <;> simp [update, hes, first]

/-- The links go on where a child is replaced, by one that begins as it did. -/
theorem Linked.update {head : α → Int} {L : Int → α → Prop} {after : Int} {ks : Children ε α}
    (hks : ks.Linked head L after) (less : ε → ε → Bool) (e : ε) :
    ∃ after', L after' (ks.childFor less e) ∧
      ∀ L' : Int → α → Prop, (∀ c ∈ ks.others less e, ∀ a, L a c → L' a c) →
      ∀ c', head c' = head (ks.childFor less e) →
        (L' after' c' → (ks.update less e c' none).Linked head L' after) ∧
        ∀ up r, L' (head r) c' → L' after' r →
          (ks.update less e c' (some (up, r))).Linked head L' after := by
  induction ks with
  | last c => exact ⟨after, hks, fun _ _ c' _ => ⟨fun h => h, fun up r hc hr => ⟨hc, hr⟩⟩⟩
  | more c s rest ih =>
    obtain ⟨hc, hrest⟩ := hks
    by_cases hes : less e s
    · refine ⟨head rest.first, by rwa [childFor, if_pos hes], fun L' hothers c' _ => ?_⟩
      rw [others, if_pos hes] at hothers
      have hrest' := hrest.imp hothers
      refine ⟨fun h => ?_, fun up r hc' hr => ?_⟩
      · rw [Children.update, if_pos hes]
        exact ⟨h, hrest'⟩
      · rw [Children.update, if_pos hes]
        exact ⟨hc', hr, hrest'⟩
    · obtain ⟨after', hchild, hput⟩ := ih hrest
      refine ⟨after', by rwa [childFor, if_neg hes], fun L' hothers c' hc' => ?_⟩
      rw [others, if_neg hes, List.forall_mem_cons] at hothers
      rw [childFor, if_neg hes] at hc'
      refine ⟨fun h => ?_, fun up r hl hr => ?_⟩
      · rw [Children.update, if_neg hes]
        refine ⟨?_, (hput L' hothers.2 c' hc').1 h⟩
        rw [head_first_update none hc']
        exact hothers.1 _ hc
      · rw [Children.update, if_neg hes]
        refine ⟨?_, (hput L' hothers.2 c' hc').2 up r hl hr⟩
        rw [head_first_update _ hc']
        exact hothers.1 _ hc

/-! ### Two halves -/

theorem splitAt_spec {n : Nat} {ks : Children ε α} (hn : n < ks.seps.length) :
    ∃ l m r, ks.splitAt n = some (l, m, r) ∧ l.seps = ks.seps.take n ∧ ks.seps[n]? = some m ∧
      r.seps = ks.seps.drop (n + 1) ∧ l.kids = ks.kids.take (n + 1) ∧
      r.kids = ks.kids.drop (n + 1) ∧ l.first = ks.first := by
  induction ks generalizing n with
  | last c => exact absurd hn (by simp [seps])
  | more c s rest ih =>
    cases n with
    | zero => exact ⟨last c, s, rest, rfl, by simp [seps, kids, first]⟩
    | succ n =>
      obtain ⟨l, m, r, heq, hl, hm, hr, hlk, hrk, -⟩ := ih (by simpa [seps] using hn)
      exact ⟨more c s l, m, r, by simp [splitAt, heq], by simp [seps, hl], by simpa [seps] using hm,
        by simp [seps, hr], by simp [kids, hlk], by simp [kids, hrk], rfl⟩

theorem lt_of_splitAt {n : Nat} {ks : Children ε α} {p : Children ε α × ε × Children ε α}
    (h : ks.splitAt n = some p) : n < ks.seps.length := by
  induction ks generalizing n p with
  | last c => cases n <;> cases h
  | more c s rest ih =>
    cases n with
    | zero => exact Nat.succ_pos _
    | succ n =>
      obtain ⟨q, hq, -⟩ := Option.map_eq_some_iff.mp h
      exact Nat.succ_lt_succ (ih hq)

theorem flat_of_splitAt {f : α → List β} {n : Nat} {ks l r : Children ε α} {m : ε}
    (h : ks.splitAt n = some (l, m, r)) : ks.flat f = l.flat f ++ r.flat f := by
  induction ks generalizing n l with
  | last c => cases n <;> cases h
  | more c s rest ih =>
    cases n with
    | zero =>
      cases h
      rfl
    | succ n =>
      obtain ⟨⟨l', m', r'⟩, hsplit, heq⟩ := Option.map_eq_some_iff.mp h
      cases heq
      rw [flat, ih hsplit, flat, List.append_assoc]

theorem Bounded.splitAt {P : ε → Prop} {less : ε → ε → Bool}
    {W : Option ε → Option ε → α → Prop} (h : StrictWeakOn P less) {n : Nat}
    {ks l r : Children ε α} {m : ε} (hsplit : ks.splitAt n = some (l, m, r)) {lo hi : Option ε}
    (hlo : ∀ l ∈ lo, P l) (hks : ks.Bounded P less W lo hi) :
    P m ∧ Above less lo m ∧ Below less hi m ∧ l.Bounded P less W lo (some m) ∧
      r.Bounded P less W (some m) hi := by
  induction ks generalizing n l lo with
  | last c => cases n <;> cases hsplit
  | more c s rest ih =>
    obtain ⟨hc, hs, hsl, hsu, hrest⟩ := hks
    cases n with
    | zero =>
      cases hsplit
      exact ⟨hs, hsl, hsu, hc, hrest⟩
    | succ n =>
      obtain ⟨⟨l', m', r'⟩, hsplit', heq⟩ := Option.map_eq_some_iff.mp hsplit
      cases heq
      obtain ⟨hm, hml, hmu, hl, hr⟩ := ih hsplit' (by simpa using hs) hrest
      refine ⟨hm, fun a ha => h.trans (hlo a ha) hs hm (hsl a ha) (hml s rfl), hmu,
        ⟨hc, hs, hsl, ?_, hl⟩, hr⟩
      rintro u ⟨⟩
      exact hml s rfl

theorem Linked.splitAt {head : α → Int} {L : Int → α → Prop} {after : Int} {n : Nat}
    {ks l r : Children ε α} {m : ε} (hsplit : ks.splitAt n = some (l, m, r))
    (hks : ks.Linked head L after) : l.Linked head L (head r.first) ∧ r.Linked head L after := by
  induction ks generalizing n l with
  | last c => cases n <;> cases hsplit
  | more c s rest ih =>
    cases n with
    | zero =>
      cases hsplit
      exact hks
    | succ n =>
      obtain ⟨⟨l', m', r'⟩, hsplit', heq⟩ := Option.map_eq_some_iff.mp hsplit
      cases heq
      obtain ⟨hl, hr⟩ := ih hsplit' hks.2
      have hfirst : l'.first = rest.first := by
        cases rest with
        | last d => cases n <;> cases hsplit'
        | more d s' rest =>
          cases n with
          | zero =>
            cases hsplit'
            rfl
          | succ n =>
            obtain ⟨p, -, hp⟩ := Option.map_eq_some_iff.mp hsplit'
            cases hp
            rfl
      refine ⟨⟨?_, hl⟩, hr⟩
      rw [hfirst]
      exact hks.1

end Children

/-! ## An entry more -/

section Insert

variable {ε : Type} {P : ε → Prop} {less : ε → ε → Bool}

/-- The list with an entry before the first that is not less. -/
def insertEntry (less : ε → ε → Bool) (e : ε) (l : List ε) : List ε :=
  l.takeWhile (fun x => less x e) ++ e :: l.dropWhile fun x => less x e

theorem insertEntry_eq (e : ε) (l : List ε) :
    insertEntry less e l = l.insertIdx (l.takeWhile fun x => less x e).length e := by
  induction l with
  | nil => rfl
  | cons x l ih =>
    by_cases hx : less x e
    · have hcons : insertEntry less e (x :: l) = x :: insertEntry less e l := by
        simp [insertEntry, hx]
      rw [hcons, ih]
      simp [hx]
    · simp [insertEntry, hx]

theorem mem_insertEntry {e x : ε} {l : List ε} : x ∈ insertEntry less e l ↔ x = e ∨ x ∈ l := by
  conv_rhs => rw [← List.takeWhile_append_dropWhile (p := fun x => less x e) (l := l)]
  simp only [insertEntry, List.mem_append, List.mem_cons]
  tauto

theorem length_insertEntry (e : ε) (l : List ε) : (insertEntry less e l).length = l.length + 1 := by
  conv_rhs => rw [← List.takeWhile_append_dropWhile (p := fun x => less x e) (l := l)]
  simp only [insertEntry, List.length_append, List.length_cons]
  omega

/-- An entry goes between those that are less and those that it is less than. -/
theorem insertEntry_append (h : StrictWeakOn P less) {e : ε} (he : P e) {front back : List ε}
    (hfront : ∀ x ∈ front, P x ∧ less x e) (hback : ∀ x ∈ back, P x ∧ less e x) (l : List ε) :
    insertEntry less e (front ++ l ++ back) = front ++ insertEntry less e l ++ back := by
  have hstop : ∀ x ∈ back, less x e = false := fun x hx =>
    h.asymm e x he (hback x hx).1 (hback x hx).2
  have hright : insertEntry less e (l ++ back) = insertEntry less e l ++ back := by
    have hnone : back.takeWhile (fun x => less x e) = [] ∧ back.dropWhile (fun x => less x e) = back := by
      cases back with
      | nil => exact ⟨rfl, rfl⟩
      | cons x back => simp [hstop x List.mem_cons_self]
    by_cases hall : ∀ x ∈ l, less x e
    · simp only [insertEntry, List.takeWhile_append_of_pos hall, List.dropWhile_append_of_pos hall,
        hnone, List.takeWhile_eq_self_iff.mpr hall, List.dropWhile_eq_nil_iff.mpr hall,
        List.append_nil, List.append_assoc, List.cons_append, List.nil_append]
    · have htake : (l ++ back).takeWhile (fun x => less x e) = l.takeWhile fun x => less x e := by
        rw [List.takeWhile_append, if_neg]
        intro hlen
        refine hall (List.takeWhile_eq_self_iff.mp ?_)
        exact (List.takeWhile_prefix _).eq_of_length hlen
      have hdrop : (l ++ back).dropWhile (fun x => less x e) =
          l.dropWhile (fun x => less x e) ++ back := by
        rw [List.dropWhile_append, if_neg]
        simpa [List.isEmpty_iff] using hall
      simp only [insertEntry, htake, hdrop, List.append_assoc, List.cons_append]
  have hfront' : ∀ x ∈ front, less x e := fun x hx => (hfront x hx).2
  rw [List.append_assoc, List.append_assoc, ← hright]
  simp only [insertEntry, List.takeWhile_append_of_pos hfront',
    List.dropWhile_append_of_pos hfront', List.append_assoc]

/-- Entries in order stay so. -/
theorem pairwise_insertEntry (h : StrictWeakOn P less) {e : ε} (he : P e) {l : List ε}
    (hl : l.Pairwise fun a b => less a b) (hP : ∀ x ∈ l, P x)
    (hnew : ∀ x ∈ l, less x e ∨ less e x) :
    (insertEntry less e l).Pairwise fun a b => less a b := by
  induction l with
  | nil => exact List.pairwise_singleton _ _
  | cons x l ih =>
    rw [List.pairwise_cons] at hl
    rw [List.forall_mem_cons] at hP hnew
    by_cases hx : less x e
    · have hcons : insertEntry less e (x :: l) = x :: insertEntry less e l := by
        simp [insertEntry, hx]
      rw [hcons, List.pairwise_cons]
      refine ⟨fun y hy => ?_, ih hl.2 hP.2 hnew.2⟩
      rcases mem_insertEntry.mp hy with rfl | hy
      · exact hx
      · exact hl.1 y hy
    · have hex := hnew.1.resolve_left hx
      have hcons : insertEntry less e (x :: l) = e :: x :: l := by simp [insertEntry, hx]
      rw [hcons, List.pairwise_cons, List.pairwise_cons]
      refine ⟨List.forall_mem_cons.mpr ⟨hex, fun y hy => ?_⟩, hl⟩
      exact h.trans he hP.1 (hP.2 y hy) hex (hl.1 y hy)

/-- An entry that is neither less nor greater can only be the first that is not less. -/
theorem any_same (h : StrictWeakOn P less) {e : ε} (he : P e) {l : List ε}
    (hl : l.Pairwise fun a b => less a b) (hP : ∀ x ∈ l, P x) {same : ε → Bool}
    (hsame : ∀ x, same x ↔ less x e = false ∧ less e x = false) :
    l[(l.takeWhile fun x => less x e).length]?.any same = l.any same := by
  induction l with
  | nil => rfl
  | cons x l ih =>
    rw [List.pairwise_cons] at hl
    rw [List.forall_mem_cons] at hP
    by_cases hx : less x e
    · have hnot : same x = false := by
        rw [← Bool.not_eq_true, hsame]
        simp [hx]
      have hstep := ih hl.2 hP.2
      simpa [hx, hnot] using hstep
    · have hrest : l.any same = false := by
        rw [List.any_eq_false]
        intro y hy hsy
        rw [hsame] at hsy
        rw [Bool.not_eq_true] at hx
        rcases h.split x e y hP.1 he (hP.2 y hy) (hl.1 y hy) with hxe | hey
        · exact Bool.false_ne_true (hx.symm.trans hxe)
        · exact Bool.false_ne_true (hsy.2.symm.trans hey)
      simp [hx, hrest]

end Insert

end Relite.Lib
