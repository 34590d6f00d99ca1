import TorEbpf.Ubpf.ControlFlow

/-!
# Programs whose jumps lead to instructions

A walk over a program that takes both halves of an `LDDW` at once, as `translate` makes it, stops where
instructions begin.  The jumps of what `validate` accepts lead there.

* `Begins` — the places of the walk;
* `Shape` — programs whose jumps lead to such places;
* `Accepted.shape` — accepted programs.
-/

namespace TorEbpf.Ubpf

open TorEbpf.Lib

/-- The places where `translate` stops: at an instruction, or behind the last. -/
inductive Begins (insts : List EbpfInst) : ℕ → Prop where
  | zero : Begins insts 0
  | next {i : ℕ} {inst : EbpfInst} (h : Begins insts i) (hget : insts[i]? = some inst) :
      Begins insts (i + inst.slots)

/-- A program whose jumps lead to instructions. -/
structure Shape (insts : List EbpfInst) : Prop where
  length_lt : insts.length < maxInsts
  target : ∀ i inst, Begins insts i → insts[i]? = some inst → inst.opcode.isJump = true →
    ∃ t : ℕ, (t : ℤ) = i + 1 + inst.offset.toInt ∧ t < insts.length ∧ Begins insts t

theorem Own.begins {vm : UbpfVm} {insts : List EbpfInst} {pcs : List ℕ} {j : ℕ} {inst : EbpfInst}
    (ho : Own insts j inst) (hacc : Accepted vm insts pcs) : Begins insts j := by
  have hwalk : ∀ k i first, k + i = j → Begins insts i → Own insts i first → Begins insts j := by
    intro k
    induction k using Nat.strong_induction_on with
    | _ k ih =>
      intro i first hk hb hfirst
      rcases Nat.eq_zero_or_pos k with rfl | hpos
      · rwa [show j = i by omega]
      · obtain ⟨hj, -⟩ := List.getElem?_eq_some_iff.mp ho.1
        have hslots : first.slots ≤ k := by
          rw [EbpfInst.slots]
          split
          · rename_i hl
            -- the place behind an `LDDW` is its second half
            by_contra hlt
            exact ho.not_lddwHigh hacc ⟨i, first, by omega, hfirst.1, hl⟩
          · exact hpos
        have hnext := Begins.next hb hfirst.1
        have hone : 1 ≤ first.slots := by
          rw [EbpfInst.slots]
          split <;> omega
        rcases hacc.successor hfirst with hend | ⟨second, hsecond⟩
        · omega
        · exact ih (k - first.slots) (by omega) (i + first.slots) second (by omega) hnext hsecond
  obtain ⟨first, hfirst⟩ := hacc.own_zero
  exact hwalk j 0 first rfl .zero hfirst

/-- Every instruction of the walk of an accepted program stands on its own. -/
theorem Begins.own {vm : UbpfVm} {insts : List EbpfInst} {pcs : List ℕ} (hacc : Accepted vm insts pcs) {i : ℕ}
    (hb : Begins insts i) : i = insts.length ∨ ∃ inst, Own insts i inst := by
  induction hb with
  | zero => exact .inr hacc.own_zero
  | next h hget ih =>
    rename_i i inst
    rcases ih with hend | ⟨inst', ho⟩
    · rw [hend, List.getElem?_eq_none le_rfl] at hget
      cases hget
    · obtain rfl : inst' = inst := Option.some.inj (ho.1.symm.trans hget)
      exact hacc.successor ho

theorem Accepted.shape {vm : UbpfVm} {insts : List EbpfInst} {pcs : List ℕ} (hacc : Accepted vm insts pcs) :
    Shape insts where
  length_lt := hacc.length_lt
  target i inst hb hget hjump := by
    have ho : Own insts i inst := by
      rcases hb.own hacc with hend | ⟨inst', ho⟩
      · rw [hend, List.getElem?_eq_none le_rfl] at hget
        cases hget
      · obtain rfl : inst' = inst := Option.some.inj (ho.1.symm.trans hget)
        exact ho
    obtain ⟨t, target, ht, htarget⟩ := hacc.own_target ho hjump
    obtain ⟨hlt, -⟩ := List.getElem?_eq_some_iff.mp htarget.1
    exact ⟨t, ht, hlt, htarget.begins hacc⟩

end TorEbpf.Ubpf
