import Mathlib.Algebra.BigOperators.Group.List.Basic
import Mathlib.Algebra.Order.Field.Basic
import Mathlib.Algebra.Order.Ring.Rat
import Mathlib.Tactic.Ring

/-!
# Decaying sums

Amounts that were added at some ticks and lose a constant factor at every tick since.  The sum can be kept
at the scale of one tick and rescaled to another when it is needed there.

* `decayed_mul_zpow` — rescaling;
* `decayed_concat` — adding an amount;
* `decayed_le_iff` — two sums compare the same at every tick.
-/

namespace TorEbpf.Lib

variable {K : Type*} [Field K] {F : K}

/-- The sum of some amounts, decayed until a tick. -/
def decayed (F : K) (l : List (ℤ × K)) (tick : ℤ) : K := (l.map fun p => p.2 * F ^ (tick - p.1)).sum

@[simp] theorem decayed_nil (F : K) (tick : ℤ) : decayed F [] tick = 0 := rfl

@[simp] theorem decayed_cons (F : K) (p : ℤ × K) (l : List (ℤ × K)) (tick : ℤ) :
    decayed F (p :: l) tick = p.2 * F ^ (tick - p.1) + decayed F l tick := by
  unfold decayed
  rw [List.map_cons, List.sum_cons]

theorem decayed_concat (l : List (ℤ × K)) (tick : ℤ) (x : K) :
    decayed F (l ++ [(tick, x)]) tick = decayed F l tick + x := by
  unfold decayed
  simp

/-- **Rescaling.** -/
theorem decayed_mul_zpow (hF : F ≠ 0) (l : List (ℤ × K)) (tick tick' : ℤ) :
    decayed F l tick * F ^ (tick' - tick) = decayed F l tick' := by
  induction l with
  | nil => rw [decayed_nil, decayed_nil, zero_mul]
  | cons p l ih =>
    have hpow : F ^ (tick - p.1) * F ^ (tick' - tick) = F ^ (tick' - p.1) := by
      rw [← zpow_add₀ hF]
      congr 1
      ring
    rw [decayed_cons, decayed_cons, add_mul, ih, mul_assoc, hpow]

variable [LinearOrder K] [IsStrictOrderedRing K]

/-- **Which of two sums is less** does not depend on the tick. -/
theorem decayed_le_iff (hF : 0 < F) (l l' : List (ℤ × K)) (tick tick' : ℤ) :
    decayed F l tick ≤ decayed F l' tick ↔ decayed F l tick' ≤ decayed F l' tick' := by
  rw [← decayed_mul_zpow hF.ne' l tick tick', ← decayed_mul_zpow hF.ne' l' tick tick']
  exact (mul_le_mul_iff_left₀ (zpow_pos hF _)).symm

end TorEbpf.Lib
