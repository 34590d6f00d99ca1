import Mathlib.Tactic.Common
import Mathlib.Logic.Function.Basic

/-!
# Moving a range of cells

`moved m d s n` is the memory `m` after `n` cells were copied from `s` on to `d` on, all at once.

* `moved_append` — towards lower addresses, a move is made in pieces from the front;
* `moved_prepend` — towards higher addresses, from the back;
* `moved_apply`, `moved_frame` — what it leaves in the range and outside of it.
-/

namespace TorEbpf.Lib

variable {α : Type*} {m : ℕ → α} {d s k n x : ℕ}

/-- `n` cells from `s` on, moved to `d` on. -/
def moved (m : ℕ → α) (d s n : ℕ) : ℕ → α := fun x => if d ≤ x ∧ x < d + n then m (s + (x - d)) else m x

theorem moved_apply {i : ℕ} (h : i < n) : moved m d s n (d + i) = m (s + i) := by
  have hmem : d ≤ d + i ∧ d + i < d + n := ⟨Nat.le_add_right d i, by omega⟩
  rw [moved, if_pos hmem, Nat.add_sub_cancel_left]

theorem moved_frame (h : ¬(d ≤ x ∧ x < d + n)) : moved m d s n x = m x := if_neg h

@[simp] theorem moved_zero : moved m d s 0 = m := by
  funext x
  exact moved_frame (by omega)

theorem moved_self : moved m d d n = m := by
  funext x
  rw [moved]
  split_ifs with h
  · rw [Nat.add_sub_cancel' h.1]
  · rfl

theorem moved_one : moved m d s 1 = Function.update m d (m s) := by
  funext x
  by_cases hx : x = d
  · subst hx
    rw [Function.update_self]
    exact moved_apply Nat.one_pos
  · rw [Function.update_of_ne hx]
    exact moved_frame (by omega)

/-- **From the front**: what is written first lies below what is still to be read. -/
theorem moved_append (h : d ≤ s) : moved (moved m d s k) (d + k) (s + k) n = moved m d s (k + n) := by
  funext x
  by_cases hlow : d ≤ x ∧ x < d + k
  · obtain ⟨i, rfl⟩ := Nat.exists_eq_add_of_le hlow.1
    rw [moved_frame (by omega), moved_apply (by omega), moved_apply (by omega)]
  · by_cases hhigh : d + k ≤ x ∧ x < d + k + n
    · obtain ⟨i, rfl⟩ := Nat.exists_eq_add_of_le hhigh.1
      have hread : moved m d s k (s + k + i) = m (s + k + i) := moved_frame (by omega)
      rw [moved_apply (by omega), hread, Nat.add_assoc d, moved_apply (by omega), Nat.add_assoc s]
    · rw [moved_frame hhigh, moved_frame hlow, moved_frame (by omega)]

/-- **From the back**: what is written first lies above what is still to be read. -/
theorem moved_prepend (h : s ≤ d) : moved (moved m (d + n) (s + n) k) d s n = moved m d s (n + k) := by
  funext x
  by_cases hlow : d ≤ x ∧ x < d + n
  · obtain ⟨i, rfl⟩ := Nat.exists_eq_add_of_le hlow.1
    have hread : moved m (d + n) (s + n) k (s + i) = m (s + i) := moved_frame (by omega)
    rw [moved_apply (by omega), hread, moved_apply (by omega)]
  · by_cases hhigh : d + n ≤ x ∧ x < d + n + k
    · obtain ⟨i, rfl⟩ := Nat.exists_eq_add_of_le hhigh.1
      rw [moved_frame hlow, moved_apply (by omega), Nat.add_assoc d, moved_apply (by omega),
        Nat.add_assoc s]
    · rw [moved_frame hlow, moved_frame hhigh, moved_frame (by omega)]

end TorEbpf.Lib
