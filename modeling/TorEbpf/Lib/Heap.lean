import Mathlib.Algebra.Order.Ring.Int
import Mathlib.Order.Basic
import Mathlib.Tactic.Common

/-!
# Binary heaps in arrays

The order of a binary heap that is stored in an array, with a three-way comparison.  A heap with a hole
is one whose order is broken at one position: `HoleDown` where the item may be greater than its children,
`HoleUp` where it may be less than its parent.  An exchange moves the hole down or up the tree.

* `HoleDown.swap`, `HoleDown.ordered` — the exchange with the least child, and when it can stop;
* `HoleUp.swap`, `HoleUp.ordered` — the same on the way up;
* `HeapOrdered.root_le` — the root is least.
-/

namespace TorEbpf.Lib

variable {α : Type*}

/-- A three-way comparison by a total preorder: negative for less, zero for equivalent. -/
structure TotalPreorder (compare : α → α → ℤ) : Prop where
  swap : ∀ a b, compare a b < 0 ↔ 0 < compare b a
  trans : ∀ {a b c}, compare a b ≤ 0 → compare b c ≤ 0 → compare a c ≤ 0

namespace TotalPreorder

variable {compare : α → α → ℤ} (hc : TotalPreorder compare)
include hc

theorem refl (a : α) : compare a a ≤ 0 := by
  have := hc.swap a a
  omega

theorem not_lt {a b : α} : ¬compare a b < 0 ↔ compare b a ≤ 0 := by
  have := hc.swap a b
  omega

end TotalPreorder

def parent (i : ℕ) : ℕ := (i - 1) / 2

theorem parent_lt {i : ℕ} (h : 0 < i) : parent i < i := by
  unfold parent
  omega

theorem parent_eq_iff {i k : ℕ} (h : 0 < i) : parent i = k ↔ i = 2 * k + 1 ∨ i = 2 * k + 2 := by
  unfold parent
  omega

variable {compare : α → α → ℤ} {l : Array α}

/-- The order of a heap: no item is less than its parent. -/
def HeapOrdered (compare : α → α → ℤ) (l : Array α) : Prop :=
  ∀ i, 0 < i → ∀ (hp : parent i < l.size) (hi : i < l.size), compare l[parent i] l[i] ≤ 0

theorem HeapOrdered.root_le (hc : TotalPreorder compare) (ho : HeapOrdered compare l)
    (h0 : 0 < l.size) : ∀ i (hi : i < l.size), compare l[0] l[i] ≤ 0 := by
  intro i
  induction i using Nat.strong_induction_on with
  | h i ih =>
    intro hi
    rcases Nat.eq_zero_or_pos i with rfl | hpos
    · exact hc.refl _
    · have hp : parent i < l.size := (parent_lt hpos).trans hi
      exact hc.trans (ih (parent i) (parent_lt hpos) hp) (ho i hpos hp hi)

theorem HeapOrdered.congr {compare' : α → α → ℤ} (ho : HeapOrdered compare l)
    (h : ∀ a ∈ l, ∀ b ∈ l, compare' a b = compare a b) : HeapOrdered compare' l := by
  intro i h0 hp hi
  rw [h _ (Array.getElem_mem hp) _ (Array.getElem_mem hi)]
  exact ho i h0 hp hi

/-! ### The hole on its way down -/

/-- A heap whose item at `k` may be greater than its children. -/
structure HoleDown (compare : α → α → ℤ) (l : Array α) (k : ℕ) : Prop where
  pairs : ∀ i, 0 < i → parent i ≠ k →
    ∀ (hp : parent i < l.size) (hi : i < l.size), compare l[parent i] l[i] ≤ 0
  grand : 0 < k → ∀ i, 0 < i → parent i = k →
    ∀ (hp : parent k < l.size) (hi : i < l.size), compare l[parent k] l[i] ≤ 0

theorem HoleDown.congr {compare' : α → α → ℤ} {k : ℕ} (hh : HoleDown compare l k)
    (h : ∀ a ∈ l, ∀ b ∈ l, compare' a b = compare a b) : HoleDown compare' l k where
  pairs := by
    intro i h0 hne hp hi
    rw [h _ (Array.getElem_mem hp) _ (Array.getElem_mem hi)]
    exact hh.pairs i h0 hne hp hi
  grand := by
    intro hk i h0 hpi hp hi
    rw [h _ (Array.getElem_mem hp) _ (Array.getElem_mem hi)]
    exact hh.grand hk i h0 hpi hp hi

theorem HoleDown.ordered {k : ℕ} (h : HoleDown compare l k)
    (hstop : ∀ i, 0 < i → parent i = k → ∀ (hk : k < l.size) (hi : i < l.size),
      compare l[k] l[i] ≤ 0) : HeapOrdered compare l := by
  intro i h0 hp hi
  by_cases hk : parent i = k
  · subst hk
    exact hstop i h0 rfl hp hi
  · exact h.pairs i h0 hk hp hi

/-- The exchange with a child that is not greater than the item or the other child. -/
theorem HoleDown.swap {k b : ℕ} (h : HoleDown compare l k) (hb0 : 0 < b) (hb : parent b = k)
    (hk : k < l.size) (hbs : b < l.size) (hle : compare l[b] l[k] ≤ 0)
    (hleast : ∀ i, 0 < i → parent i = k → ∀ hi : i < l.size, compare l[b] l[i] ≤ 0) :
    HoleDown compare (l.swap k b hk hbs) b := by
  have hkb : k < b := hb ▸ parent_lt hb0
  constructor
  · intro i h0 hne hp hi
    rw [Array.size_swap] at hp hi
    have hpi := parent_lt h0
    rcases eq_or_ne i b with rfl | hib
    · simp only [hb, Array.getElem_swap_left, Array.getElem_swap_right]
      exact hle
    rcases eq_or_ne i k with rfl | hik
    · rw [Array.getElem_swap_left, Array.getElem_swap_of_ne (by omega) (by omega)]
      exact h.grand h0 b hb0 hb (hpi.trans hk) hbs
    · rw [Array.getElem_swap_of_ne hik hib]
      by_cases hpk : parent i = k
      · simp only [hpk, Array.getElem_swap_left]
        exact hleast i h0 hpk hi
      · rw [Array.getElem_swap_of_ne hpk hne]
        exact h.pairs i h0 hpk hp hi
  · intro _ i h0 hpi hp hi
    rw [Array.size_swap] at hp hi
    have hlt := parent_lt h0
    simp only [hb, Array.getElem_swap_left]
    rw [Array.getElem_swap_of_ne (by omega) (by omega)]
    have := h.pairs i h0 (by omega) (by omega) hi
    simpa only [hpi] using this

/-! ### The hole on its way up -/

/-- A heap whose item at `k` may be less than its parent. -/
structure HoleUp (compare : α → α → ℤ) (l : Array α) (k : ℕ) : Prop where
  pairs : ∀ i, 0 < i → i ≠ k →
    ∀ (hp : parent i < l.size) (hi : i < l.size), compare l[parent i] l[i] ≤ 0
  grand : 0 < k → ∀ i, 0 < i → parent i = k →
    ∀ (hp : parent k < l.size) (hi : i < l.size), compare l[parent k] l[i] ≤ 0

theorem HoleUp.ordered {k : ℕ} (h : HoleUp compare l k)
    (hstop : 0 < k → ∀ (hp : parent k < l.size) (hk : k < l.size), compare l[parent k] l[k] ≤ 0) :
    HeapOrdered compare l := by
  intro i h0 hp hi
  rcases eq_or_ne i k with rfl | hik
  · exact hstop h0 hp hi
  · exact h.pairs i h0 hik hp hi

theorem HoleUp.swap (hc : TotalPreorder compare) {k : ℕ} (h : HoleUp compare l k) (h0 : 0 < k)
    (hp : parent k < l.size) (hk : k < l.size) (hlt : compare l[k] l[parent k] < 0) :
    HoleUp compare (l.swap (parent k) k hp hk) (parent k) := by
  have hpk := parent_lt h0
  constructor
  · intro i hi0 hne hpi hi
    rw [Array.size_swap] at hpi hi
    have hpi' := parent_lt hi0
    rcases eq_or_ne i k with rfl | hik
    · rw [Array.getElem_swap_left, Array.getElem_swap_right]
      exact hlt.le
    · rw [Array.getElem_swap_of_ne hne hik]
      rcases eq_or_ne (parent i) k with hpik | hpik
      · simp only [hpik, Array.getElem_swap_right]
        exact h.grand h0 i hi0 hpik hp hi
      rcases eq_or_ne (parent i) (parent k) with hpp | hpp
      · simp only [hpp, Array.getElem_swap_left]
        have := h.pairs i hi0 hik hpi hi
        simp only [hpp] at this
        exact hc.trans hlt.le this
      · rw [Array.getElem_swap_of_ne hpp hpik]
        exact h.pairs i hi0 hik hpi hi
  · intro hp0 i hi0 hpi hpp hi
    rw [Array.size_swap] at hpp hi
    have hup := h.pairs (parent k) hp0 (by omega) hpp hp
    have hpp' := parent_lt hp0
    rw [Array.getElem_swap_of_ne (by omega) (by omega)]
    rcases eq_or_ne i k with rfl | hik
    · rw [Array.getElem_swap_right]
      exact hup
    · have hi' := parent_lt hi0
      rw [Array.getElem_swap_of_ne (by omega) hik]
      have := h.pairs i hi0 hik (by omega) hi
      simp only [hpi] at this
      exact hc.trans hup this

end TorEbpf.Lib
