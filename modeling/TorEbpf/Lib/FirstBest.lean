import Mathlib.Data.List.Basic
import Mathlib.Data.List.Induction
import Mathlib.Order.Defs.Unbundled

/-!
# The first best of a list

A loop that keeps the best element it has met, and a process that takes elements off from the front of the
order in which such a loop would choose them.

* `firstBest_spec` — the loop chooses what comes before every other element, for a strict weak order;
* `Released.all_blocked_iff` — if what is taken off is not blocked and the process stops at a blocked
  element, then everything that is left is blocked exactly if what comes after a blocked element is.
-/

namespace TorEbpf.Lib

variable {α : Type*}

/-! ### The loop -/

/-- Keep the first element, and change it for one that is better. -/
def keepBest (better : α → α → Bool) (p : α → Bool) (best : Option α) (a : α) : Option α :=
  if p a then
    match best with
    | none => some a
    | some b => if better a b then some a else some b
  else best

/-- The best of the elements with a property, and the first of them. -/
def firstBest (better : α → α → Bool) (p : α → Bool) (l : List α) : Option α :=
  l.foldl (keepBest better p) none

variable {better : α → α → Bool} {p : α → Bool} {l : List α}

theorem firstBest_concat (a : α) :
    firstBest better p (l ++ [a]) = keepBest better p (firstBest better p l) a := by
  unfold firstBest
  rw [List.foldl_append]
  rfl

theorem keepBest_eq_none {best : Option α} {a : α} (h : keepBest better p best a = none) :
    best = none ∧ p a = false := by
  unfold keepBest at h
  cases hp : p a with
  | false => simpa [hp] using h
  | true =>
    cases best with
    | none => simp [hp] at h
    | some b =>
      simp only [hp, if_true] at h
      split at h
      · cases h
      · cases h

theorem firstBest_eq_none (h : firstBest better p l = none) : ∀ a ∈ l, p a = false := by
  induction l using List.reverseRecOn with
  | nil =>
    intro a ha
    cases ha
  | append_singleton l b ih =>
    rw [firstBest_concat] at h
    obtain ⟨hl, hb⟩ := keepBest_eq_none h
    intro a ha
    rcases List.mem_append.mp ha with ha | ha
    · exact ih hl a ha
    · rw [List.mem_singleton.mp ha]
      exact hb

variable [DecidableEq α]

/-- The order of choice: what is better first, and the first of two that are as good as each other. -/
def Before (better : α → α → Bool) (l : List α) (a b : α) : Prop :=
  better a b = true ∨ (better b a = false ∧ l.idxOf a < l.idxOf b)

instance (better : α → α → Bool) (l : List α) (a b : α) : Decidable (Before better l a b) :=
  inferInstanceAs (Decidable (_ ∨ _))

theorem Before.concat {a b c : α} (ha : a ∈ l) (hb : b ∈ l) (h : Before better l a b) :
    Before better (l ++ [c]) a b := by
  unfold Before at h ⊢
  rw [List.idxOf_append_of_mem ha, List.idxOf_append_of_mem hb]
  exact h

omit [DecidableEq α] in
/-- Where one is better than another, a third is better than the other or the one better than it. -/
theorem better_or (hord : IsStrictWeakOrder α fun a b => better a b = true) {a b : α} (c : α)
    (h : better a b = true) : better a c = true ∨ better c b = true := by
  by_contra hnot
  obtain ⟨hac, hcb⟩ := not_or.mp hnot
  have hasymm : ∀ {x y : α}, better x y = true → ¬better y x = true := by
    intro x y hxy hyx
    exact hord.irrefl x (hord.trans x y x hxy hyx)
  -- without either, the third would be as good as both
  by_cases hca : better c a = true
  · exact hcb (hord.trans c a b hca h)
  · by_cases hbc : better b c = true
    · exact hac (hord.trans a b c h hbc)
    · exact (hord.incomp_trans a c b ⟨hac, hca⟩ ⟨hcb, hbc⟩).1 h

theorem Before.asymm (hord : IsStrictWeakOrder α fun a b => better a b = true) {a b : α}
    (h : Before better l a b) : ¬Before better l b a := by
  obtain hab | ⟨hba, hlt⟩ := h
  · rintro (hba | ⟨hab', _⟩)
    · exact hord.irrefl a (hord.trans a b a hab hba)
    · rw [hab] at hab'
      cases hab'
  · rintro (hba' | ⟨_, hgt⟩)
    · rw [hba] at hba'
      cases hba'
    · exact absurd hlt (Nat.lt_asymm hgt)

/-- **The loop** chooses what comes before everything else. -/
theorem firstBest_spec (hord : IsStrictWeakOrder α fun a b => better a b = true) {b : α}
    (h : firstBest better p l = some b) :
    b ∈ l ∧ p b = true ∧ ∀ a ∈ l, p a = true → a = b ∨ Before better l b a := by
  induction l using List.reverseRecOn generalizing b with
  | nil => cases h
  | append_singleton l c ih =>
    rw [firstBest_concat] at h
    unfold keepBest at h
    -- an element of the front, once the front has a choice
    have hfront : ∀ {b' : α}, firstBest better p l = some b' → ∀ a ∈ l, p a = true →
        a = b' ∨ Before better (l ++ [c]) b' a := by
      intro b' hb' a ha hpa
      obtain ⟨hmem, _, hfirst⟩ := ih hb'
      exact (hfirst a ha hpa).imp id (Before.concat hmem ha)
    cases hp : p c with
    | false =>
      simp only [hp, Bool.false_eq_true, if_false] at h
      obtain ⟨hmem, hpb, _⟩ := ih h
      refine ⟨List.mem_append_left _ hmem, hpb, ?_⟩
      intro a ha hpa
      rcases List.mem_append.mp ha with ha | ha
      · exact hfront h a ha hpa
      · rw [List.mem_singleton.mp ha, hp] at hpa
        cases hpa
    | true =>
      simp only [hp, if_true] at h
      cases hl : firstBest better p l with
      | none =>
        rw [hl] at h
        cases h
        refine ⟨List.mem_append_right _ (List.mem_singleton.mpr rfl), hp, ?_⟩
        intro a ha hpa
        rcases List.mem_append.mp ha with ha | ha
        · rw [firstBest_eq_none hl a ha] at hpa
          cases hpa
        · exact .inl (List.mem_singleton.mp ha)
      | some b' =>
        obtain ⟨hmem, hpb, _⟩ := ih hl
        simp only [hl] at h
        split at h
        · -- the last element is better than the choice of the front
          rename_i hbetter
          cases h
          refine ⟨List.mem_append_right _ (List.mem_singleton.mpr rfl), hp, ?_⟩
          intro a ha hpa
          rcases List.mem_append.mp ha with ha | ha
          · obtain rfl | hbefore := hfront hl a ha hpa
            · exact .inr (.inl hbetter)
            · obtain hba | ⟨hab, _⟩ := hbefore
              · exact .inr (.inl (hord.trans c b' a hbetter hba))
              · refine .inr (.inl ((better_or hord a hbetter).resolve_right ?_))
                rw [hab]
                exact Bool.false_ne_true
          · exact .inl (List.mem_singleton.mp ha)
        · rename_i hbetter
          cases h
          refine ⟨List.mem_append_left _ hmem, hpb, ?_⟩
          intro a ha hpa
          by_cases hal : a ∈ l
          · exact hfront hl a hal hpa
          · have hac : a = c := List.mem_singleton.mp ((List.mem_append.mp ha).resolve_left hal)
            subst hac
            refine .inr (.inr ⟨Bool.eq_false_iff.mpr hbetter, ?_⟩)
            rw [List.idxOf_append_of_mem hmem, List.idxOf_append_of_notMem hal]
            exact Nat.lt_of_lt_of_le (List.idxOf_lt_length_of_mem hmem) (Nat.le_add_right _ _)

/-! ### Taking off from the front -/

omit [DecidableEq α]

theorem countP_lt_countP {p q : α → Bool} {l : List α} (himp : ∀ a ∈ l, q a = true → p a = true) {b : α}
    (hb : b ∈ l) (hp : p b = true) (hq : ¬q b = true) : l.countP q < l.countP p := by
  obtain ⟨l₁, l₂, rfl⟩ := List.append_of_mem hb
  rw [List.countP_append, List.countP_append, List.countP_cons_of_pos hp, List.countP_cons_of_neg hq]
  have h₁ := List.countP_mono_left (l := l₁) fun a ha => himp a (List.mem_append_left _ ha)
  have h₂ := List.countP_mono_left (l := l₂) fun a ha =>
    himp a (List.mem_append_right _ (List.mem_cons_of_mem b ha))
  omega

/-- What is left of the elements that waited, after some that were not blocked were taken off from the
front. -/
structure Released (before : α → α → Prop) (blocked waiting left : α → Prop) : Prop where
  subset : ∀ a, left a → waiting a
  unblocked : ∀ a, waiting a → ¬left a → ¬blocked a
  initial : ∀ a, waiting a → ¬left a → ∀ b, waiting b → before b a → ¬left b

variable {before : α → α → Prop} {blocked waiting left left' : α → Prop}

theorem Released.refl : Released before blocked waiting waiting where
  subset := fun _ h => h
  unblocked := fun _ h hnot => absurd h hnot
  initial := fun _ h hnot => absurd h hnot

/-- **One step.** -/
theorem Released.step (h : Released before blocked waiting left) (hsub : ∀ a, left' a → left a)
    (hfree : ∀ a, left a → ¬left' a → ¬blocked a)
    (hfront : ∀ a, left a → ¬left' a → ∀ b, left b → before b a → ¬left' b) :
    Released before blocked waiting left' where
  subset := fun a ha => h.subset a (hsub a ha)
  unblocked := by
    intro a ha hnot
    by_cases hl : left a
    · exact hfree a hl hnot
    · exact h.unblocked a ha hl
  initial := by
    intro a ha hnot b hb hbefore hlb
    by_cases hl : left a
    · exact hfront a hl hnot b (hsub b hlb) hbefore hlb
    · exact h.initial a ha hl b hb hbefore (hsub b hlb)

/-- **When all that is left is blocked**, if the first of it is. -/
theorem Released.all_blocked_iff (h : Released before blocked waiting left)
    (hstop : ∀ a, left a → ∃ b, left b ∧ blocked b ∧ (a = b ∨ before b a)) :
    (∀ a, left a → blocked a) ↔
      ∀ b, waiting b → blocked b → ∀ a, waiting a → before b a → blocked a := by
  constructor
  · intro hall b hb hblocked a ha hbefore
    by_contra hnot
    have hgone : ¬left a := fun hl => hnot (hall a hl)
    exact h.unblocked b hb (h.initial a ha hgone b hb hbefore) hblocked
  · intro hafter a ha
    obtain ⟨b, hb, hblocked, rfl | hbefore⟩ := hstop a ha
    · exact hblocked
    · exact hafter b (h.subset b hb) hblocked a (h.subset a ha) hbefore

end TorEbpf.Lib
