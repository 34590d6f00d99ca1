import Mathlib.Algebra.Order.Monoid.Defs
import Mathlib.Algebra.Order.Group.Unbundled.Basic
import Mathlib.Algebra.Order.Group.Defs
import Mathlib.Algebra.Order.Group.MinMax

/-!
# Filling a vessel of bounded capacity

`topUp cap gain x` is the level of a vessel that held `x` after `gain` has been poured into it, what is
above the capacity `cap` being lost.

* `topUp_topUp` — pouring in two portions is pouring the sum;
* `topUp_eq_topUp_iff` — two amounts leave the same level iff they are equal or both fill the vessel.
-/

namespace TorEbpf.Lib

variable {α : Type*} [AddCommGroup α] [LinearOrder α]

/-- The level after `gain` is poured on top of the level `x`. -/
def topUp (cap gain x : α) : α := min cap (x + gain)

theorem topUp_le_cap (cap gain x : α) : topUp cap gain x ≤ cap := min_le_left _ _

theorem topUp_eq_cap_iff {cap gain x : α} : topUp cap gain x = cap ↔ cap ≤ x + gain := min_eq_left_iff

theorem topUp_of_le {cap gain x : α} (h : x + gain ≤ cap) : topUp cap gain x = x + gain :=
  min_eq_right h

@[simp] theorem topUp_zero {cap x : α} (h : x ≤ cap) : topUp cap 0 x = x := by
  rw [topUp_of_le (by rwa [add_zero]), add_zero]

variable [IsOrderedAddMonoid α]

/-- **Portions.** -/
theorem topUp_topUp (cap gain x : α) {gain' : α} (h : 0 ≤ gain') :
    topUp cap gain' (topUp cap gain x) = topUp cap (gain + gain') x := by
  have hcap : cap ≤ cap + gain' := le_add_of_nonneg_right h
  unfold topUp
  rw [← min_add_add_right, ← min_assoc, min_eq_left hcap, add_assoc]

/-- **Different amounts** show unless the smaller one fills the vessel. -/
theorem topUp_eq_topUp_iff {cap gain gain' x : α} (h : gain < gain') :
    topUp cap gain x = topUp cap gain' x ↔ cap ≤ x + gain := by
  constructor
  · intro heq
    by_contra hlt
    have hlt : x + gain < cap := not_le.mp hlt
    rw [topUp_of_le hlt.le] at heq
    have hmore : x + gain < topUp cap gain' x := lt_min hlt (add_lt_add_right h x)
    exact absurd heq hmore.ne
  · intro hfull
    have hfull' : cap ≤ x + gain' := hfull.trans (add_le_add_right h.le x)
    rw [topUp_eq_cap_iff.mpr hfull, topUp_eq_cap_iff.mpr hfull']

end TorEbpf.Lib
