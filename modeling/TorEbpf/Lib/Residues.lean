import Mathlib

/-!
# Counting by residues

* `card_filter_mod` — among the numbers below a multiple of `n`, each set of residues occurs equally often;
* `pick` — the position in which running totals first exceed a number, with `pick_eq_some_iff`;
* `card_filter_pick` — and how many residues pick a position.
-/

namespace TorEbpf.Lib

/-- **Residues** below a multiple of `n`. -/
theorem card_filter_mod (n q : ℕ) (p : ℕ → Prop) [DecidablePred p] :
    ((Finset.range (n * q)).filter fun v => p (v % n)).card = ((Finset.range n).filter p).card * q := by
  have hperiod : Function.Periodic (fun v => p (v % n)) n := fun v => by simp
  induction q with
  | zero => simp
  | succ q ih =>
    have hsplit : (Finset.range (n * (q + 1))).filter (fun v => p (v % n)) =
        ((Finset.range (n * q)).filter fun v => p (v % n)) ∪
          ((Finset.Ico (n * q) (n * q + n)).filter fun v => p (v % n)) := by
      rw [← Finset.filter_union, Nat.mul_succ, Finset.range_eq_Ico, Finset.range_eq_Ico,
        Finset.Ico_union_Ico_eq_Ico (Nat.zero_le _) (Nat.le_add_right _ _)]
    have hdisjoint : Disjoint ((Finset.range (n * q)).filter fun v => p (v % n))
        ((Finset.Ico (n * q) (n * q + n)).filter fun v => p (v % n)) := by
      refine Finset.disjoint_filter_filter ?_
      rw [Finset.range_eq_Ico]
      exact Finset.Ico_disjoint_Ico_consecutive 0 (n * q) (n * q + n)
    have hlast : ((Finset.Ico (n * q) (n * q + n)).filter fun v => p (v % n)).card =
        ((Finset.range n).filter p).card := by
      rw [Nat.filter_Ico_card_eq_of_periodic (n * q) n (fun v => p (v % n)) hperiod,
        Nat.count_eq_card_filter_range]
      refine congrArg Finset.card (Finset.filter_congr fun v hv => ?_)
      rw [Nat.mod_eq_of_lt (Finset.mem_range.mp hv)]
    rw [hsplit, Finset.card_union_of_disjoint hdisjoint, ih, hlast]
    ring

/-- The first position up to which the total exceeds `r`. -/
def pick : List ℕ → ℕ → Option ℕ
  | [], _ => none
  | w :: ws, r => if r < w then some 0 else (pick ws (r - w)).map (· + 1)

variable {ws : List ℕ} {r i : ℕ}

/-- **What is picked**: the total in front of the position does not exceed `r`, and with it it does. -/
theorem pick_eq_some_iff : pick ws r = some i ↔
    (ws.take i).sum ≤ r ∧ r < (ws.take i).sum + ws.getD i 0 := by
  induction ws generalizing r i with
  | nil => simp [pick]
  | cons w ws ih =>
    rw [pick]
    split_ifs with hlt
    · cases i with
      | zero => simp [hlt]
      | succ i =>
        simp only [Option.some.injEq, List.take_succ_cons, List.sum_cons]
        omega
    · cases i with
      | zero =>
        simp only [Option.map_eq_some_iff, List.take_zero, List.sum_nil, List.getD_cons_zero]
        constructor
        · rintro ⟨j, -, hj⟩
          omega
        · omega
      | succ i =>
        have hstep : (pick ws (r - w)).map (· + 1) = some (i + 1) ↔ pick ws (r - w) = some i := by
          cases pick ws (r - w) <;> simp
        rw [hstep, ih, List.take_succ_cons, List.sum_cons, List.getD_cons_succ]
        omega

theorem exists_pick (h : r < ws.sum) : ∃ i < ws.length, pick ws r = some i := by
  induction ws generalizing r with
  | nil => cases h
  | cons w ws ih =>
    rw [pick]
    split_ifs with hlt
    · exact ⟨0, by simp, rfl⟩
    · obtain ⟨i, hi, hpick⟩ := @ih (r - w) (by rw [List.sum_cons] at h; omega)
      exact ⟨i + 1, by simpa using hi, by rw [hpick]; rfl⟩

/-- **How many** numbers below the total pick a position: as many as its weight. -/
theorem card_filter_pick (hi : i < ws.length) :
    ((Finset.range ws.sum).filter fun r => pick ws r = some i).card = ws.getD i 0 := by
  have hle : (ws.take i).sum + ws.getD i 0 ≤ ws.sum := by
    have hsplit : ws.sum = (ws.take i).sum + (ws.drop i).sum := by
      rw [← List.sum_append, List.take_append_drop]
    rw [hsplit, List.drop_eq_getElem_cons hi, List.sum_cons, List.getD_eq_getElem _ _ hi]
    omega
  have hset : (Finset.range ws.sum).filter (fun r => pick ws r = some i) =
      Finset.Ico (ws.take i).sum ((ws.take i).sum + ws.getD i 0) := by
    ext r
    rw [Finset.mem_filter, Finset.mem_range, Finset.mem_Ico, pick_eq_some_iff]
    omega
  rw [hset, Nat.card_Ico]
  omega

end TorEbpf.Lib
