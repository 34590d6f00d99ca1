import TorEbpf.Ubpf.Layout

/-!
# Running a check block

The 20 instructions that `rewrite_with_memchecks` puts before an access, executed.  `Memcheck` is the
test they perform: the address is at most `memory_size` below the top of the heap, or at most
`STACK_SIZE` below the stack pointer.  For a block that stands anywhere in a program

* the `BlockAt.step*` lemmas are its single steps;
* `BlockAt.step_inv` — the block is left only at its end, and the end is reached only with the test
  passed: the run invariant `BlockInv` says what `r11` holds at each place;
* `BlockAt.run_pass` — if the test passes, the block runs to its end and changes nothing but `r11`.
-/

namespace TorEbpf.Ubpf

open TorEbpf.Lib

def HeapTest (memoryPtr : BitVec 64) (memorySize : BitVec 32) (a : BitVec 64) : Prop :=
  0 ≤ (memoryPtr + memorySize.setWidth 64 - a).toInt ∧
    memoryPtr + memorySize.setWidth 64 - a ≤ memorySize.setWidth 64

def StackTest (r10 a : BitVec 64) : Prop := a ≤ r10 ∧ r10 ≤ a + BitVec.ofNat 64 stackSize

/-- The test of a check block for an access through `base` at `offset`. -/
def Memcheck (memoryPtr : BitVec 64) (memorySize : BitVec 32) (base : Fin 16) (offset : BitVec 16)
    (s : State) : Prop :=
  HeapTest memoryPtr memorySize (effAddr s base offset) ∨
    StackTest (s.reg 10) (effAddr s base offset)

/-! ### Constants -/

/-- The two halves of an `LDDW` put a 64-bit constant together again. -/
theorem lddw_halves (x : BitVec 64) :
    (x.setWidth 32).setWidth 64 ||| (((x >>> 32).setWidth 32).signExtend 64 <<< 32) = x := by
  apply BitVec.eq_of_getLsbD_eq
  intro i hi
  simp only [BitVec.getLsbD_or, BitVec.getLsbD_setWidth, BitVec.getLsbD_shiftLeft,
    BitVec.getLsbD_signExtend, BitVec.getLsbD_ushiftRight]
  by_cases h : i < 32
  · simp [h, hi]
  · have h₁ : i - 32 < 32 := by omega
    have h₂ : 32 + (i - 32) = i := by omega
    have h₃ : i - 32 < 64 := by omega
    simp [h, hi, h₁, h₂, h₃]

/-- Extending an offset in two steps, as an immediate and then as an operand. -/
theorem signExtend_offset (offset : BitVec 16) :
    (offset.signExtend 32).signExtend 64 = offset.signExtend 64 := by
  apply BitVec.eq_of_toInt_eq
  rw [BitVec.toInt_signExtend_of_le (by decide), BitVec.toInt_signExtend_of_le (by decide),
    BitVec.toInt_signExtend_of_le (by decide)]

/-! ### Single steps -/

/-- A check block stands at `p`, within reach of a 16-bit program counter. -/
structure BlockAt (out : List EbpfInst) (memoryPtr : BitVec 64) (memorySize : BitVec 32)
    (base : Fin 16) (offset : BitVec 16) (p : ℕ) : Prop where
  getElem : ∀ k < 20, out[p + k]? = (checkBlock memoryPtr memorySize base offset)[k]?
  small : p + 20 < 65536
  base_le : base ≤ 10

namespace BlockAt

variable {out : List EbpfInst} {memoryPtr : BitVec 64} {memorySize : BitVec 32} {base : Fin 16}
  {offset : BitVec 16} {p : ℕ} {s : State}

theorem step_eq (hb : BlockAt out memoryPtr memorySize base offset p) (h : Host) (k : Fin 20)
    (hpc : s.pc = p + k) :
    step h out s = execInst h out s ((checkBlock memoryPtr memorySize base offset).get k) := by
  apply step_of_fetch
  rw [hpc, hb.getElem k k.isLt]
  exact List.getElem?_eq_getElem k.isLt

theorem incPc_eq (hb : BlockAt out memoryPtr memorySize base offset p) {k : ℕ} (hk : k < 20)
    (hpc : s.pc = p + k) : incPc s.pc = p + (k + 1) := by
  have := hb.small
  rw [hpc, incPc_of_lt (by omega)]
  rfl

theorem jumpPc_eq (hb : BlockAt out memoryPtr memorySize base offset p) {k : ℕ} (hk : k < 20)
    (hpc : s.pc = p + k) {d : ℕ} (hd : k + 1 + d ≤ 20) :
    jumpPc (incPc s.pc) (BitVec.ofNat 16 d) = p + (k + 1 + d) := by
  have := hb.small
  rw [hb.incPc_eq hk hpc]
  apply Ubpf.jumpPc_eq _ (by omega)
  rw [BitVec.toInt_ofNat', Int.bmod_eq_of_le (by omega) (by omega)]
  omega

theorem step0 (hb : BlockAt out memoryPtr memorySize base offset p) (h : Host) (hpc : s.pc = p) :
    step h out s = .next (s.set (p + 2) 11 (memoryPtr + memorySize.setWidth 64)) := by
  have hsmall := hb.small
  have hhi := hb.getElem 1 (by omega)
  have hinc : incPc s.pc = p + 1 := hb.incPc_eq (k := 0) (by omega) hpc
  rw [hb.step_eq h 0 hpc, execInst_lddw rfl (by rw [hinc, hhi]; rfl), hinc, incPc_of_lt (by omega)]
  exact congrArg (fun v => Result.next (s.set (p + 2) 11 v)) (lddw_halves _)

theorem step2 (hb : BlockAt out memoryPtr memorySize base offset p) (h : Host)
    (hpc : s.pc = p + 2) :
    step h out s = .next (s.set (p + 3) 11 (s.reg 11 - s.reg base)) := by
  rw [hb.step_eq h 2 hpc]
  show Result.next (s.set (incPc s.pc) 11 (s.reg 11 - s.reg base)) = _
  rw [hb.incPc_eq (by omega) hpc]

theorem step3 (hb : BlockAt out memoryPtr memorySize base offset p) (h : Host)
    (hpc : s.pc = p + 3) :
    step h out s = .next (s.set (p + 4) 11 (s.reg 11 - offset.signExtend 64)) := by
  rw [hb.step_eq h 3 hpc]
  show Result.next (s.set (incPc s.pc) 11 (s.reg 11 - (offset.signExtend 32).signExtend 64)) = _
  rw [hb.incPc_eq (by omega) hpc, signExtend_offset]

/-- The jumps of the block: to `k + 1 + d` if the condition holds, else to the next instruction. -/
theorem branch_eq (hb : BlockAt out memoryPtr memorySize base offset p) {k : ℕ} (hk : k < 20)
    (hpc : s.pc = p + k) {d : ℕ} (hd : k + 1 + d ≤ 20) (c : Prop) [Decidable c] :
    (if decide c = true then
        (Result.next (s.goto (jumpPc (incPc s.pc) (BitVec.ofNat 16 d))) : Result State Halt)
      else Result.next (s.goto (incPc s.pc)))
      = .next (s.goto (p + if c then k + 1 + d else k + 1)) := by
  rw [hb.jumpPc_eq hk hpc hd, hb.incPc_eq hk hpc]
  simp only [decide_eq_true_eq]
  split <;> rfl

theorem step4 (hb : BlockAt out memoryPtr memorySize base offset p) (h : Host)
    (hpc : s.pc = p + 4) :
    step h out s = .next (s.goto (p + if 0 ≤ (s.reg 11).toInt then 6 else 5)) := by
  rw [hb.step_eq h 4 hpc]
  exact hb.branch_eq (d := 1) (by omega) hpc (by omega) _

theorem step5 (hb : BlockAt out memoryPtr memorySize base offset p) (h : Host)
    (hpc : s.pc = p + 5) : step h out s = .next (s.goto (p + 7)) := by
  rw [hb.step_eq h 5 hpc]
  show Result.next (s.goto (jumpPc (incPc s.pc) (BitVec.ofNat 16 1))) = _
  rw [hb.jumpPc_eq (by omega) hpc (by omega)]

theorem step6 (hb : BlockAt out memoryPtr memorySize base offset p) (h : Host)
    (hpc : s.pc = p + 6) :
    step h out s = .next (s.goto (p + if s.reg 11 ≤ memorySize.setWidth 64 then 20 else 7)) := by
  rw [hb.step_eq h 6 hpc]
  exact hb.branch_eq (d := 13) (by omega) hpc (by omega) _

theorem step7 (hb : BlockAt out memoryPtr memorySize base offset p) (h : Host)
    (hpc : s.pc = p + 7) : step h out s = .next (s.set (p + 8) 11 (s.reg base)) := by
  rw [hb.step_eq h 7 hpc]
  show Result.next (s.set (incPc s.pc) 11 (s.reg base)) = _
  rw [hb.incPc_eq (by omega) hpc]

theorem step8 (hb : BlockAt out memoryPtr memorySize base offset p) (h : Host)
    (hpc : s.pc = p + 8) :
    step h out s = .next (s.set (p + 9) 11 (s.reg 11 + offset.signExtend 64)) := by
  rw [hb.step_eq h 8 hpc]
  show Result.next (s.set (incPc s.pc) 11 (s.reg 11 + (offset.signExtend 32).signExtend 64)) = _
  rw [hb.incPc_eq (by omega) hpc, signExtend_offset]

theorem step9 (hb : BlockAt out memoryPtr memorySize base offset p) (h : Host)
    (hpc : s.pc = p + 9) :
    step h out s = .next (s.goto (p + if s.reg 11 ≤ s.reg 10 then 11 else 10)) := by
  rw [hb.step_eq h 9 hpc]
  exact hb.branch_eq (d := 1) (by omega) hpc (by omega) _

theorem step10 (hb : BlockAt out memoryPtr memorySize base offset p) (h : Host)
    (hpc : s.pc = p + 10) : step h out s = .next (s.goto (p + 13)) := by
  rw [hb.step_eq h 10 hpc]
  show Result.next (s.goto (jumpPc (incPc s.pc) (BitVec.ofNat 16 2))) = _
  rw [hb.jumpPc_eq (by omega) hpc (by omega)]

theorem step11 (hb : BlockAt out memoryPtr memorySize base offset p) (h : Host)
    (hpc : s.pc = p + 11) :
    step h out s = .next (s.set (p + 12) 11 (s.reg 11 + BitVec.ofNat 64 stackSize)) := by
  rw [hb.step_eq h 11 hpc]
  show Result.next (s.set (incPc s.pc) 11 (s.reg 11 + (BitVec.ofNat 32 stackSize).signExtend 64)) = _
  rw [hb.incPc_eq (by omega) hpc]
  rfl

theorem step12 (hb : BlockAt out memoryPtr memorySize base offset p) (h : Host)
    (hpc : s.pc = p + 12) :
    step h out s = .next (s.goto (p + if s.reg 10 ≤ s.reg 11 then 20 else 13)) := by
  rw [hb.step_eq h 12 hpc]
  exact hb.branch_eq (d := 7) (by omega) hpc (by omega) _

theorem step_exit (hb : BlockAt out memoryPtr memorySize base offset p) (h : Host)
    (hpc : s.pc = p + 19) : step h out s = .halt (.exit (s.reg 0)) := by
  rw [hb.step_eq h 19 hpc]
  rfl

end BlockAt

/-! ### Registers under `set` and `goto` -/

@[simp] theorem State.set_pc (s : State) (pc : ℕ) (r : Fin 16) (v : BitVec 64) :
    (s.set pc r v).pc = pc := rfl

@[simp] theorem State.goto_pc (s : State) (pc : ℕ) : (s.goto pc).pc = pc := rfl

@[simp] theorem State.goto_reg (s : State) (pc : ℕ) : (s.goto pc).reg = s.reg := rfl

@[simp] theorem State.set_reg_self (s : State) (pc : ℕ) (r : Fin 16) (v : BitVec 64) :
    (s.set pc r v).reg r = v := Function.update_self _ _ _

theorem State.set_reg_of_ne (s : State) (pc : ℕ) {r r' : Fin 16} (v : BitVec 64) (h : r' ≠ r) :
    (s.set pc r v).reg r' = s.reg r' := Function.update_of_ne h _ _

@[simp] theorem State.set_set (s : State) (pc pc' : ℕ) (r : Fin 16) (v v' : BitVec 64) :
    (s.set pc r v).set pc' r v' = s.set pc' r v' := by
  simp only [State.set, Function.update_idem]

@[simp] theorem State.set_goto (s : State) (pc pc' : ℕ) (r : Fin 16) (v : BitVec 64) :
    (s.set pc r v).goto pc' = s.set pc' r v := rfl

@[simp] theorem effAddr_goto (s : State) (pc : ℕ) (base : Fin 16) (offset : BitVec 16) :
    effAddr (s.goto pc) base offset = effAddr s base offset := rfl

theorem effAddr_set (s : State) (pc : ℕ) (v : BitVec 64) {base : Fin 16} (hb : base ≤ 10)
    (offset : BitVec 16) : effAddr (s.set pc 11 v) base offset = effAddr s base offset := by
  rw [effAddr, State.set_reg_of_ne _ _ _ (by omega), effAddr]

/-! ### The run invariant -/

/-- What holds when control stands `k` instructions into a check block.  The places 1 and 16 are the
second halves of the two `LDDW`s. -/
def BlockInv (memoryPtr : BitVec 64) (memorySize : BitVec 32) (base : Fin 16) (offset : BitVec 16)
    (k : ℕ) (s : State) : Prop :=
  let top := memoryPtr + memorySize.setWidth 64
  let a := effAddr s base offset
  match k with
  | 0 | 5 | 7 | 10 | 13 | 14 | 15 | 17 | 18 | 19 => True
  | 2 => s.reg 11 = top
  | 3 => s.reg 11 = top - s.reg base
  | 4 => s.reg 11 = top - a
  | 6 => s.reg 11 = top - a ∧ 0 ≤ (top - a).toInt
  | 8 => s.reg 11 = s.reg base
  | 9 => s.reg 11 = a
  | 11 => s.reg 11 = a ∧ a ≤ s.reg 10
  | 12 => s.reg 11 = a + BitVec.ofNat 64 stackSize ∧ a ≤ s.reg 10
  | 20 => Memcheck memoryPtr memorySize base offset s
  | _ => False

namespace BlockAt

variable {out : List EbpfInst} {memoryPtr : BitVec 64} {memorySize : BitVec 32} {base : Fin 16}
  {offset : BitVec 16} {p : ℕ} {s s' : State}

theorem step_failure (hb : BlockAt out memoryPtr memorySize base offset p) {h : Host} {k k' : ℕ}
    (hk : (k, k') ∈ [(13, 14), (14, 15), (15, 17), (17, 18), (18, 19)]) (hpc : s.pc = p + k)
    (hs : step h out s = .next s') : s'.pc = p + k' ∧ s'.reg 10 = s.reg 10 := by
  have hsmall := hb.small
  have hkind : k < 19 ∧ ∃ inst, (checkBlock memoryPtr memorySize base offset)[k]? = some inst ∧
      inst.opcode.isJump = false ∧ (10 : Fin 16) ≠ inst.dst ∧
      (inst.opcode = .lddw ∧ k' = k + 2 ∨ inst.opcode ≠ .lddw ∧ k' = k + 1) := by
    simp only [List.mem_cons, Prod.mk.injEq, List.not_mem_nil, or_false] at hk
    rcases hk with ⟨rfl, rfl⟩ | ⟨rfl, rfl⟩ | ⟨rfl, rfl⟩ | ⟨rfl, rfl⟩ | ⟨rfl, rfl⟩ <;>
      exact ⟨by omega, _, rfl, rfl, by simp, by simp⟩
  obtain ⟨hlt, inst, hget, hj, hdst, hnext⟩ := hkind
  rw [step_of_fetch (by rw [hpc, hb.getElem k (by omega), hget])] at hs
  have hinc : incPc s.pc = p + (k + 1) := hb.incPc_eq (by omega) hpc
  refine ⟨?_, execInst_reg hs (by decide) (.inl hdst)⟩
  rcases execInst_pc hs with ⟨hj', _⟩ | ⟨hl, hpc'⟩ | ⟨hl, _, _, hpc'⟩
  · rw [hj] at hj'
    cases hj'
  · rcases hnext with ⟨_, rfl⟩ | ⟨hl', _⟩
    · rw [hpc', hinc, incPc_of_lt (by omega)]
      omega
    · exact absurd hl hl'
  · rcases hnext with ⟨hl', _⟩ | ⟨_, rfl⟩
    · exact absurd hl' hl
    · rw [hpc', hinc]

/-- A step of the failure path, for which the invariant says nothing more. -/
theorem step_failure_inv (hb : BlockAt out memoryPtr memorySize base offset p) {h : Host} {k k' : ℕ}
    (hk' : (k, k') ∈ [(13, 14), (14, 15), (15, 17), (17, 18), (18, 19)]) (hpc : s.pc = p + k)
    (hs : step h out s = .next s') :
    ∃ k', k' ≤ 20 ∧ s'.pc = p + k' ∧ BlockInv memoryPtr memorySize base offset k' s' ∧
      s'.reg 10 = s.reg 10 := by
  obtain ⟨hpc', hr⟩ := hb.step_failure hk' hpc hs
  simp only [List.mem_cons, Prod.mk.injEq, List.not_mem_nil, or_false] at hk'
  rcases hk' with ⟨_, rfl⟩ | ⟨_, rfl⟩ | ⟨_, rfl⟩ | ⟨_, rfl⟩ | ⟨_, rfl⟩ <;>
    exact ⟨_, by omega, hpc', trivial, hr⟩

/-- **One step inside a block** keeps the invariant, and leaves the block only at its end. -/
theorem step_inv (hb : BlockAt out memoryPtr memorySize base offset p) {h : Host} {k : ℕ}
    (hk : k < 20) (hpc : s.pc = p + k) (hinv : BlockInv memoryPtr memorySize base offset k s)
    (hs : step h out s = .next s') :
    ∃ k', k' ≤ 20 ∧ s'.pc = p + k' ∧ BlockInv memoryPtr memorySize base offset k' s' ∧
      s'.reg 10 = s.reg 10 := by
  have hbase := hb.base_le
  have h10 : ∀ pc v, (s.set pc 11 v).reg 10 = s.reg 10 := fun pc v =>
    s.set_reg_of_ne pc v (by decide)
  have hreg : ∀ pc v, (s.set pc 11 v).reg base = s.reg base := fun pc v =>
    s.set_reg_of_ne pc v (by omega)
  have heff : ∀ pc v, effAddr (s.set pc 11 v) base offset = effAddr s base offset := fun pc v =>
    effAddr_set s pc v hbase offset
  match k, hk with
  | 0, _ =>
    cases (hb.step0 h hpc).symm.trans hs
    exact ⟨2, by omega, rfl, State.set_reg_self _ _ _ _, h10 _ _⟩
  | 2, _ =>
    cases (hb.step2 h hpc).symm.trans hs
    refine ⟨3, by omega, rfl, ?_, h10 _ _⟩
    show _ = _
    rw [State.set_reg_self, hreg, show s.reg 11 = _ from hinv]
  | 3, _ =>
    cases (hb.step3 h hpc).symm.trans hs
    refine ⟨4, by omega, rfl, ?_, h10 _ _⟩
    show _ = _
    rw [State.set_reg_self, heff, show s.reg 11 = _ from hinv, effAddr, BitVec.sub_sub]
  | 4, _ =>
    cases (hb.step4 h hpc).symm.trans hs
    by_cases hc : 0 ≤ (s.reg 11).toInt
    · rw [if_pos hc]
      refine ⟨6, by omega, rfl, ⟨hinv, ?_⟩, rfl⟩
      rw [effAddr_goto, ← show s.reg 11 = _ from hinv]
      exact hc
    · rw [if_neg hc]
      exact ⟨5, by omega, rfl, trivial, rfl⟩
  | 5, _ =>
    cases (hb.step5 h hpc).symm.trans hs
    exact ⟨7, by omega, rfl, trivial, rfl⟩
  | 6, _ =>
    cases (hb.step6 h hpc).symm.trans hs
    obtain ⟨hr, hnn⟩ := hinv
    by_cases hc : s.reg 11 ≤ memorySize.setWidth 64
    · rw [if_pos hc]
      refine ⟨20, by omega, rfl, .inl ⟨hnn, ?_⟩, rfl⟩
      rw [effAddr_goto, ← hr]
      exact hc
    · rw [if_neg hc]
      exact ⟨7, by omega, rfl, trivial, rfl⟩
  | 7, _ =>
    cases (hb.step7 h hpc).symm.trans hs
    refine ⟨8, by omega, rfl, ?_, h10 _ _⟩
    show _ = _
    rw [State.set_reg_self, hreg]
  | 8, _ =>
    cases (hb.step8 h hpc).symm.trans hs
    refine ⟨9, by omega, rfl, ?_, h10 _ _⟩
    show _ = _
    rw [State.set_reg_self, heff, show s.reg 11 = _ from hinv, effAddr]
  | 9, _ =>
    cases (hb.step9 h hpc).symm.trans hs
    by_cases hc : s.reg 11 ≤ s.reg 10
    · rw [if_pos hc]
      refine ⟨11, by omega, rfl, ⟨hinv, ?_⟩, rfl⟩
      rw [effAddr_goto, ← show s.reg 11 = _ from hinv]
      exact hc
    · rw [if_neg hc]
      exact ⟨10, by omega, rfl, trivial, rfl⟩
  | 10, _ =>
    cases (hb.step10 h hpc).symm.trans hs
    exact ⟨13, by omega, rfl, trivial, rfl⟩
  | 11, _ =>
    cases (hb.step11 h hpc).symm.trans hs
    obtain ⟨hr, hle⟩ := hinv
    refine ⟨12, by omega, rfl, ⟨?_, ?_⟩, h10 _ _⟩
    · rw [State.set_reg_self, heff, hr]
    · rw [heff, h10]
      exact hle
  | 12, _ =>
    cases (hb.step12 h hpc).symm.trans hs
    obtain ⟨hr, hle⟩ := hinv
    by_cases hc : s.reg 10 ≤ s.reg 11
    · rw [if_pos hc]
      exact ⟨20, by omega, rfl, .inr ⟨hle, by rw [effAddr_goto, ← hr]; exact hc⟩, rfl⟩
    · rw [if_neg hc]
      exact ⟨13, by omega, rfl, trivial, rfl⟩
  | 13, _ => exact hb.step_failure_inv (show (13, 14) ∈ _ by simp) hpc hs
  | 14, _ => exact hb.step_failure_inv (show (14, 15) ∈ _ by simp) hpc hs
  | 15, _ => exact hb.step_failure_inv (show (15, 17) ∈ _ by simp) hpc hs
  | 17, _ => exact hb.step_failure_inv (show (17, 18) ∈ _ by simp) hpc hs
  | 18, _ => exact hb.step_failure_inv (show (18, 19) ∈ _ by simp) hpc hs
  | 19, _ =>
    rw [hb.step_exit h hpc] at hs
    cases hs
  | 1, _ => exact hinv.elim
  | 16, _ => exact hinv.elim
  | k + 20, hk => omega

/-! ### Whole runs of a block -/

/-- The first four instructions leave the distance to the top of the heap in `r11`. -/
theorem reaches_distance (hb : BlockAt out memoryPtr memorySize base offset p) (h : Host)
    (hpc : s.pc = p) :
    Reaches (step h out) s
      (s.set (p + 4) 11 (memoryPtr + memorySize.setWidth 64 - effAddr s base offset)) := by
  have hbase := hb.base_le
  refine (Reaches.single (hb.step0 h hpc)).trans ?_
  refine (Reaches.single (hb.step2 h rfl)).trans ?_
  rw [State.set_set, State.set_reg_self, State.set_reg_of_ne _ _ _ (by omega)]
  have hstep := hb.step3 (s := s.set (p + 3) 11 (memoryPtr + memorySize.setWidth 64 - s.reg base))
    h rfl
  rw [State.set_set, State.set_reg_self, BitVec.sub_sub] at hstep
  exact Reaches.single hstep

/-- An address that passes the heap half of the test: the block ends at once. -/
theorem reaches_of_heapTest (hb : BlockAt out memoryPtr memorySize base offset p) (h : Host)
    (hpc : s.pc = p) (ht : HeapTest memoryPtr memorySize (effAddr s base offset)) :
    ∃ v, Reaches (step h out) s (s.set (p + 20) 11 v) := by
  obtain ⟨hnn, hle⟩ := ht
  refine ⟨memoryPtr + memorySize.setWidth 64 - effAddr s base offset,
    (hb.reaches_distance h hpc).trans ?_⟩
  refine (Reaches.single (hb.step4 h rfl)).trans ?_
  rw [State.set_reg_self, if_pos hnn, State.set_goto]
  refine (Reaches.single (hb.step6 h rfl)).trans ?_
  rw [State.set_reg_self, if_pos hle, State.set_goto]
  exact Reaches.refl _

/-- An address that fails the heap half: the block goes on to compare it with `r10`. -/
theorem reaches_of_not_heapTest (hb : BlockAt out memoryPtr memorySize base offset p) (h : Host)
    (hpc : s.pc = p) (ht : ¬HeapTest memoryPtr memorySize (effAddr s base offset)) :
    Reaches (step h out) s (s.set (p + 9) 11 (effAddr s base offset)) := by
  have hbase := hb.base_le
  have hseven : ∃ v, Reaches (step h out) s (s.set (p + 7) 11 v) := by
    refine ⟨memoryPtr + memorySize.setWidth 64 - effAddr s base offset,
      (hb.reaches_distance h hpc).trans ?_⟩
    refine (Reaches.single (hb.step4 h rfl)).trans ?_
    rw [State.set_reg_self, State.set_goto]
    split
    · rename_i hnn
      refine (Reaches.single (hb.step6 h rfl)).trans ?_
      rw [State.set_reg_self, if_neg (fun hle => ht ⟨hnn, hle⟩), State.set_goto]
      exact Reaches.refl _
    · exact Reaches.single (hb.step5 h rfl)
  obtain ⟨v, hv⟩ := hseven
  refine hv.trans ((Reaches.single (hb.step7 h rfl)).trans ?_)
  rw [State.set_set, State.set_reg_of_ne _ _ _ (by omega)]
  have hstep := hb.step8 (s := s.set (p + 8) 11 (s.reg base)) h rfl
  rw [State.set_set, State.set_reg_self] at hstep
  exact Reaches.single hstep

/-- **A block whose test passes** runs to its end and changes nothing but `r11`. -/
theorem run_pass (hb : BlockAt out memoryPtr memorySize base offset p) (h : Host) (hpc : s.pc = p)
    (ht : Memcheck memoryPtr memorySize base offset s) :
    ∃ v, Reaches (step h out) s (s.set (p + 20) 11 v) := by
  by_cases hheap : HeapTest memoryPtr memorySize (effAddr s base offset)
  · exact hb.reaches_of_heapTest h hpc hheap
  · obtain ⟨hle, hge⟩ := ht.resolve_left hheap
    refine ⟨effAddr s base offset + BitVec.ofNat 64 stackSize,
      (hb.reaches_of_not_heapTest h hpc hheap).trans ?_⟩
    refine (Reaches.single (hb.step9 h rfl)).trans ?_
    rw [State.set_reg_self, State.set_reg_of_ne _ _ _ (by decide), if_pos hle, State.set_goto]
    refine (Reaches.single (hb.step11 h rfl)).trans ?_
    rw [State.set_set, State.set_reg_self]
    refine (Reaches.single (hb.step12 h rfl)).trans ?_
    rw [State.set_reg_self, State.set_reg_of_ne _ _ _ (by decide), if_pos hge, State.set_goto]
    exact Reaches.refl _

end BlockAt

end TorEbpf.Ubpf
