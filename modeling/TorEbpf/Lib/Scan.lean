import Mathlib.Order.Bounds.Basic
import Mathlib.Tactic.Common

/-!
# Scans over an interval

A scan looks for the first index with a property, upwards in an interval or downwards to zero.

* `scanUp_eq_some_iff` — an upward scan finds the least index;
* `scanDown_eq_some_iff` — a downward scan finds the greatest one.
-/

namespace TorEbpf.Lib

variable {p : ℕ → Bool} {b n i : ℕ}

/-- The first index from `b` on and below `n` with the property. -/
def scanUp (p : ℕ → Bool) (b n : ℕ) : Option ℕ := (List.range' b (n - b)).find? p

/-- The first index from `b` downwards with the property. -/
def scanDown (p : ℕ → Bool) : ℕ → Option ℕ
  | 0 => if p 0 then some 0 else none
  | b + 1 => if p (b + 1) then some (b + 1) else scanDown p b

/-- **Upwards.** -/
theorem scanUp_eq_some_iff : scanUp p b n = some i ↔ IsLeast {c | b ≤ c ∧ c < n ∧ p c = true} i := by
  unfold scanUp
  rw [List.find?_range'_eq_some, List.mem_range'_1]
  constructor
  · intro ⟨hp, ⟨hb, hn⟩, hfirst⟩
    refine ⟨⟨hb, by omega, hp⟩, ?_⟩
    intro c ⟨hbc, _, hpc⟩
    by_contra hlt
    have hnot := hfirst c hbc (Nat.lt_of_not_le hlt)
    rw [hpc] at hnot
    cases hnot
  · intro ⟨⟨hb, hn, hp⟩, hleast⟩
    refine ⟨hp, ⟨hb, by omega⟩, ?_⟩
    intro c hbc hci
    rw [Bool.not_eq_true']
    by_contra hpc
    rw [Bool.not_eq_false] at hpc
    exact absurd (hleast ⟨hbc, hci.trans hn, hpc⟩) (Nat.not_le.mpr hci)

theorem scanUp_eq_none_iff : scanUp p b n = none ↔ ∀ c, b ≤ c → c < n → p c = false := by
  unfold scanUp
  rw [List.find?_eq_none]
  constructor
  · intro hall c hb hn
    exact Bool.eq_false_of_not_eq_true (hall c (List.mem_range'_1.mpr ⟨hb, by omega⟩))
  · intro hall c hc
    obtain ⟨hb, hn⟩ := List.mem_range'_1.mp hc
    rw [hall c hb (by omega)]
    exact Bool.false_ne_true

/-- **Downwards.** -/
theorem scanDown_eq_some_iff : scanDown p b = some i ↔ IsGreatest {c | c ≤ b ∧ p c = true} i := by
  induction b with
  | zero =>
    rw [scanDown]
    by_cases hp : p 0 = true
    · rw [if_pos hp, Option.some_inj]
      constructor
      · rintro rfl
        exact ⟨⟨Nat.le_refl 0, hp⟩, fun c hc => hc.1⟩
      · intro hi
        exact (Nat.le_zero.mp hi.1.1).symm
    · rw [if_neg hp]
      constructor
      · intro h
        cases h
      · intro ⟨⟨hi, hpi⟩, _⟩
        rw [Nat.le_zero.mp hi] at hpi
        exact absurd hpi hp
  | succ b ih =>
    rw [scanDown]
    by_cases hp : p (b + 1) = true
    · rw [if_pos hp, Option.some_inj]
      constructor
      · rintro rfl
        exact ⟨⟨Nat.le_refl _, hp⟩, fun c hc => hc.1⟩
      · intro ⟨⟨hi, _⟩, hgreatest⟩
        exact Nat.le_antisymm (hgreatest ⟨Nat.le_refl _, hp⟩) hi
    · have hset : {c | c ≤ b + 1 ∧ p c = true} = {c | c ≤ b ∧ p c = true} := by
        ext c
        constructor
        · intro ⟨hc, hpc⟩
          refine ⟨Nat.le_of_lt_succ (Nat.lt_of_le_of_ne hc ?_), hpc⟩
          rintro rfl
          exact hp hpc
        · intro ⟨hc, hpc⟩
          exact ⟨Nat.le_succ_of_le hc, hpc⟩
      rw [if_neg hp, ih, hset]

theorem scanDown_eq_none_iff : scanDown p b = none ↔ ∀ c, c ≤ b → p c = false := by
  induction b with
  | zero =>
    rw [scanDown]
    constructor
    · intro h c hc
      rw [Nat.le_zero.mp hc]
      by_contra hp
      rw [Bool.not_eq_false] at hp
      rw [if_pos hp] at h
      cases h
    · intro hall
      rw [hall 0 (Nat.le_refl 0)]
      rfl
  | succ b ih =>
    rw [scanDown]
    by_cases hp : p (b + 1) = true
    · rw [if_pos hp]
      constructor
      · intro h
        cases h
      · intro hall
        rw [hall (b + 1) (Nat.le_refl _)] at hp
        cases hp
    · rw [if_neg hp, ih]
      constructor
      · intro hall c hc
        rcases Nat.lt_or_eq_of_le hc with hlt | rfl
        · exact hall c (Nat.le_of_lt_succ hlt)
        · exact Bool.eq_false_of_not_eq_true hp
      · intro hall c hc
        exact hall c (Nat.le_succ_of_le hc)

end TorEbpf.Lib
