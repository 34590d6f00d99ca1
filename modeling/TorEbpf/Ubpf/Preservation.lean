import TorEbpf.Ubpf.ControlFlow

/-!
# The memory checks preserve meaning

`rewrite_with_memchecks` as a compiler pass: source and target are run by the same step function, and
a run of the source whose checked accesses all pass their test is matched by a run of the target.

* `Agree` — two states that differ at most in the program counter and the registers above `r10`.
* `simulates_step` — one step of the source is matched by the check block and one step of the target.
* `rewrite_preserves` — the whole pass: where the jumps go, the halves of an `LDDW`, and every run.
-/

namespace TorEbpf.Ubpf

open TorEbpf.Lib

/-- The states agree on `r0` to `r10`, memory and the history of external calls. -/
structure Agree (s t : State) : Prop where
  reg : ∀ r ≤ 10, t.reg r = s.reg r
  mem : t.mem = s.mem
  calls : t.calls = s.calls

/-- An outcome without the program counter that an error message mentions. -/
def Halt.forgetPc : Halt → Halt
  | .exit r0 => .exit r0
  | .error (.divisionByZero _) => .error (.divisionByZero 0)
  | .error (.outOfBounds type _ addr size) => .error (.outOfBounds type 0 addr size)
  | .fault (.fetch _) => .fault (.fetch 0)
  | .fault f => .fault f

def SameOutcome (o o' : Halt) : Prop := o.forgetPc = o'.forgetPc ∧ o.returned = o'.returned

theorem SameOutcome.refl (o : Halt) : SameOutcome o o := ⟨rfl, rfl⟩

/-! ### One instruction -/

namespace Agree

variable {s t : State}

theorem refl (s : State) : Agree s s := ⟨fun _ _ => rfl, rfl, rfl⟩

theorem set (h : Agree s t) (pc pc' : ℕ) (r : Fin 16) (v : BitVec 64) :
    Agree (s.set pc r v) (t.set pc' r v) := by
  refine ⟨?_, h.mem, h.calls⟩
  intro q hq
  by_cases hqr : q = r
  · rw [hqr, State.set_reg_self, State.set_reg_self]
  · rw [State.set_reg_of_ne _ _ _ hqr, State.set_reg_of_ne _ _ _ hqr, h.reg q hq]

theorem goto (h : Agree s t) (pc pc' : ℕ) : Agree (s.goto pc) (t.goto pc') :=
  ⟨h.reg, h.mem, h.calls⟩

theorem set_scratch (h : Agree s t) (pc : ℕ) (v : BitVec 64) : Agree s (t.set pc 11 v) := by
  refine ⟨?_, h.mem, h.calls⟩
  intro q hq
  rw [State.set_reg_of_ne _ _ _ (by omega), h.reg q hq]

theorem effAddr_eq (h : Agree s t) {base : Fin 16} (hb : base ≤ 10) (offset : BitVec 16) :
    effAddr t base offset = effAddr s base offset := by
  rw [effAddr, h.reg base hb, effAddr]

theorem memcheck (h : Agree s t) {memoryPtr : BitVec 64} {memorySize : BitVec 32} {base : Fin 16}
    {offset : BitVec 16} (hb : base ≤ 10) (hm : Memcheck memoryPtr memorySize base offset s) :
    Memcheck memoryPtr memorySize base offset t := by
  unfold Memcheck at hm ⊢
  rw [h.effAddr_eq hb, h.reg 10 (by omega)]
  exact hm

theorem taken_eq (h : Agree s t) {inst : EbpfInst} (hsrc : inst.src ≤ 10) (hdst : inst.dst ≤ 10) :
    inst.taken t = inst.taken s := by
  unfold EbpfInst.taken
  rw [h.reg _ hsrc, h.reg _ hdst]

end Agree

/-- **One instruction from agreeing states.**  The copy may have another offset if it is a jump, and
an `LDDW` has to find the same second half. -/
theorem execInst_agree {h : Host} {code code' : List EbpfInst} {s t : State} {inst : EbpfInst}
    {pcs : List ℕ} {i : ℕ} (hag : Agree s t) (hsrc : inst.src ≤ 10) (hdst : inst.dst ≤ 10)
    (hhigh : inst.opcode = .lddw → code'[incPc t.pc]? = code[incPc s.pc]?) :
    Result.Rel Agree SameOutcome (execInst h code s inst)
      (execInst h code' t (moved pcs i inst)) := by
  have hs := hag.reg _ hsrc
  have hd := hag.reg _ hdst
  cases hj : inst.opcode.isJump with
  | true =>
    rw [moved, if_pos hj]
    unfold execInst
    cases hop : inst.opcode <;> simp only [hop, Opcode.isJump, Bool.false_eq_true] at hj ⊢
    · exact .next (hag.goto _ _)
    · simp only [hs, hd]
      split
      · exact .next (hag.goto _ _)
      · exact .next (hag.goto _ _)
  | false =>
    rw [moved_of_not_jump hj]
    unfold execInst
    cases hop : inst.opcode with
    | alu wd op k =>
      simp only [hs, hd]
      split
      · exact .next (hag.set _ _ _ _)
      · exact .halt ⟨rfl, rfl⟩
      · exact .halt (.refl _)
    | neg wd =>
      cases wd <;> simp only [hd] <;> exact .next (hag.set _ _ _ _)
    | le | be =>
      simp only [hd]
      exact .next (hag.set _ _ _ _)
    | ldx sz =>
      simp only [hag.effAddr_eq hsrc, hag.mem]
      split
      · exact .next (hag.set _ _ _ _)
      · exact .halt ⟨rfl, rfl⟩
    | st sz | stx sz =>
      simp only [hag.effAddr_eq hdst, hag.mem, hs]
      split
      · exact .next ⟨hag.reg, rfl, hag.calls⟩
      · exact .halt ⟨rfl, rfl⟩
    | lddw =>
      simp only [hhigh hop]
      split
      · exact .halt ⟨rfl, rfl⟩
      · exact .next (hag.set _ _ _ _)
    | ja | jcc c k => simp [hop, Opcode.isJump] at hj
    | exit =>
      simp only [hag.reg 0 (by decide)]
      exact .halt (.refl _)
    | call =>
      simp only [hag.mem, hag.calls, hag.reg 1 (by decide), hag.reg 2 (by decide),
        hag.reg 3 (by decide), hag.reg 4 (by decide), hag.reg 5 (by decide)]
      split
      · refine .next ⟨?_, rfl, rfl⟩
        intro q hq
        by_cases hq0 : q = 0
        · rw [hq0]
          simp only [Function.update_self]
        · simp only [Function.update_of_ne hq0, hag.reg q hq]
      · exact .halt (.refl _)
    | unknown b => exact .next (hag.goto _ _)

/-! ### The simulation -/

/-- The access at which control stands, if it is a checked one, passes the inserted test. -/
def Passes (insts : List EbpfInst) (memoryPtr : BitVec 64) (memorySize : BitVec 32) (s : State) :
    Prop :=
  ∀ inst base sz, insts[s.pc]? = some inst → inst.access? = some (base, sz) → base ≠ 10 →
    Memcheck memoryPtr memorySize base inst.offset s

/-- The states agree, and control of the target stands at the first instruction emitted for the one
at which control of the source stands; or both have left the program. -/
structure Matches (insts : List EbpfInst) (s t : State) : Prop where
  agree : Agree s t
  pc : t.pc = shifted insts s.pc
  own : s.pc = insts.length ∨ ∃ inst, Own insts s.pc inst

section Simulation

variable {vm : UbpfVm} {insts : List EbpfInst} {pcs : List ℕ} {memoryPtr : BitVec 64}
  {memorySize : BitVec 32} {h : Host} {s t : State} {inst : EbpfInst}

/-- The check block, if there is one, is passed: control of the target gets to the copy of the
instruction. -/
theorem reaches_place (hacc : Accepted vm insts pcs) (hfit : FitsFields insts)
    (hm : Matches insts s t) (ho : Own insts s.pc inst)
    (hp : Passes insts memoryPtr memorySize s) :
    ∃ t', Reaches (step h (rewriteWithMemchecks memoryPtr memorySize insts pcs)) t t' ∧
      Agree s t' ∧ t'.pc = place insts s.pc := by
  cases hc : inst.checked with
  | true =>
    obtain ⟨base, sz, ha, hb⟩ := EbpfInst.access_of_checked hc
    have hblock : BlockAt (rewriteWithMemchecks memoryPtr memorySize insts pcs) memoryPtr memorySize
      base inst.offset (shifted insts s.pc) := blockAt_of_access hacc hfit ho ha hb
    have hpass := hm.agree.memcheck hblock.base_le (hp inst base sz ho.1 ha hb)
    obtain ⟨v, hv⟩ := hblock.run_pass h hm.pc hpass
    exact ⟨_, hv, hm.agree.set_scratch _ v, (place_of_access ho.1 ha hb).symm⟩
  | false =>
    exact ⟨t, .refl t, hm.agree, by rw [hm.pc, place_of_not_checked ho.1 hc]⟩

/-- The copy of an instruction goes where the instruction goes. -/
theorem execInst_pc_shifted (hacc : Accepted vm insts pcs) (hfit : FitsFields insts)
    (hag : Agree s t) (ho : Own insts s.pc inst) (hpc : t.pc = place insts s.pc) {s' t' : State}
    {code' : List EbpfInst} (hs : execInst h insts s inst = .next s')
    (ht : execInst h code' t (moved pcs s.pc inst) = .next t') : t'.pc = shifted insts s'.pc := by
  have hlen : insts.length < 65536 := hacc.length_lt
  obtain ⟨hi, _⟩ := List.getElem?_eq_some_iff.mp ho.1
  obtain ⟨hlddw, hinc, hjump⟩ := place_successor hacc hfit ho
  have hok := hacc.ok_of_own ho
  have htaken := hag.taken_eq hok.src_le (by rcases hok.dst_le with hd | ⟨_, hd⟩ <;> omega)
  have ht' := execInst_pc ht
  rw [moved_opcode, moved_taken, htaken] at ht'
  rcases execInst_pc hs with ⟨hj, htk, hpc₁⟩ | ⟨hl, hpc₁⟩ | ⟨hl, hx, htk, hpc₁⟩
  · obtain ⟨q, target, hq, htarget⟩ := hacc.own_target ho hj
    obtain ⟨hql, _⟩ := List.getElem?_eq_some_iff.mp htarget.1
    have hne : inst.opcode ≠ .lddw := by
      intro hl
      rw [hl] at hj
      cases hj
    rw [incPc_of_lt (by omega), jumpPc_eq (t := q) (by omega) (by omega)] at hpc₁
    rcases ht' with ⟨_, _, hpc₂⟩ | ⟨hl, _⟩ | ⟨_, _, htk', _⟩
    · rw [hpc₂, hpc, hjump q hj hq, hpc₁]
    · exact absurd hl hne
    · rw [htk] at htk'
      cases htk'
  · obtain ⟨hi', hget', _⟩ := hok.lddw_high hl
    obtain ⟨hlt, _⟩ := List.getElem?_eq_some_iff.mp hget'
    rw [incPc_of_lt (show s.pc + 1 < 65536 by omega), incPc_of_lt (by omega)] at hpc₁
    rcases ht' with ⟨hj, _⟩ | ⟨_, hpc₂⟩ | ⟨hl', _⟩
    · rw [hl] at hj
      cases hj
    · rw [hpc₂, hpc, hlddw hl, hpc₁]
    · exact absurd hl hl'
  · rw [incPc_of_lt (by omega)] at hpc₁
    rcases ht' with ⟨_, htk', _⟩ | ⟨hl', _⟩ | ⟨_, _, _, hpc₂⟩
    · rw [htk] at htk'
      cases htk'
    · exact absurd hl' hl
    · rw [hpc₂, hpc, hinc, hpc₁]

/-- **One step of the source** is matched by a run of the target. -/
theorem simulates_step (hacc : Accepted vm insts pcs) (hfit : FitsFields insts)
    (hm : Matches insts s t) (hp : Passes insts memoryPtr memorySize s) :
    ∃ k, Result.Rel (Matches insts) SameOutcome (step h insts s)
      (run (step h (rewriteWithMemchecks memoryPtr memorySize insts pcs)) k t) := by
  have hlen : insts.length < 65536 := hacc.length_lt
  rcases hm.own with hend | ⟨inst, ho⟩
  · -- both fetch past the end
    refine ⟨1, ?_⟩
    rw [run_one, step, List.getElem?_eq_none (by omega), step,
      List.getElem?_eq_none (by rw [rewrite_length, hm.pc, hend])]
    exact .halt ⟨rfl, rfl⟩
  · obtain ⟨t₁, ⟨n, hn⟩, hag, hpc⟩ := reaches_place (h := h) hacc hfit hm ho hp
    have hok := hacc.ok_of_own ho
    have hfetch : (rewriteWithMemchecks memoryPtr memorySize insts pcs)[t₁.pc]?
        = some (moved pcs s.pc inst) := by
      rw [hpc]
      exact rewrite_getElem?_place ho.1
    have hhigh : inst.opcode = .lddw →
        (rewriteWithMemchecks memoryPtr memorySize insts pcs)[incPc t₁.pc]?
          = insts[incPc s.pc]? := by
      intro hl
      obtain ⟨hi', hget', hz⟩ := hok.lddw_high hl
      obtain ⟨hlt, _⟩ := List.getElem?_eq_some_iff.mp hget'
      rw [hpc, (place_successor hacc hfit ho).2.1, incPc_of_lt (by omega), hget']
      exact rewrite_getElem?_other hget' (by simp [EbpfInst.checked, EbpfInst.access?, hz])
        (by simp [Opcode.isJump, hz])
    have hrel : Result.Rel Agree SameOutcome (execInst h insts s inst)
        (execInst h (rewriteWithMemchecks memoryPtr memorySize insts pcs) t₁
          (moved pcs s.pc inst)) :=
      execInst_agree hag hok.src_le (by rcases hok.dst_le with hd | ⟨_, hd⟩ <;> omega) hhigh
    refine ⟨n + 1, ?_⟩
    rw [run_add hn, run_one, step_of_fetch ho.1, step_of_fetch hfetch]
    apply hrel.imp
    intro s' t' hs ht hag'
    refine ⟨hag', execInst_pc_shifted hacc hfit hag ho hpc hs ht, ?_⟩
    have hstep : step h insts s = .next s' := by rw [step_of_fetch ho.1, hs]
    by_cases hoff : FallsOff insts s
    · exact .inl (hoff.pc_eq hlen hstep)
    · exact .inr (ho.step hacc hoff hstep)

end Simulation

/-- **The rewriting preserves meaning.**  Each jump of the original stands at its shifted place and
jumps to the shifted place of its target, where a checked access has its check block; the halves of
an `LDDW` stay adjacent; and every run of the original whose checked accesses pass the inserted test
is matched, step for step, by a run of the rewritten program. -/
theorem rewrite_preserves {vm : UbpfVm} {insts : List EbpfInst} {pcs : List ℕ}
    (hv : validate vm insts = .ok pcs)
    (hlen : insts.length + addedLoadStoreInsts * pcs.length ≤ 32767) (memoryPtr : BitVec 64)
    (memorySize : BitVec 32) :
    let out := rewriteWithMemchecks memoryPtr memorySize insts pcs
    (∀ (i t : ℕ) (inst : EbpfInst), insts[i]? = some inst → inst.opcode.isJump = true →
      (t : ℤ) = i + 1 + inst.offset.toInt →
      ∃ offset : BitVec 16, out[shifted insts i]? = some { inst with offset := offset } ∧
        (shifted insts t : ℤ) = shifted insts i + 1 + offset.toInt) ∧
    (∀ (t : ℕ) (inst : EbpfInst) (base : Fin 16) (sz : Size), insts[t]? = some inst →
      inst.access? = some (base, sz) → base ≠ 10 →
      (∀ k < 20, out[shifted insts t + k]?
        = (checkBlock memoryPtr memorySize base inst.offset)[k]?) ∧
      out[shifted insts t + 20]? = some inst) ∧
    (∀ (i : ℕ) (lo : EbpfInst), insts[i]? = some lo → lo.opcode = .lddw →
      ∃ hi, insts[i + 1]? = some hi ∧ out[shifted insts i]? = some lo ∧
        out[shifted insts i + 1]? = some hi) ∧
    ∀ (h : Host) (s₀ t₀ : State), s₀.pc = 0 → t₀.pc = 0 → Agree s₀ t₀ →
      ∀ n, (∀ k < n, ∀ s, run (step h insts) k s₀ = .next s → Passes insts memoryPtr memorySize s) →
        ∃ m, Result.Rel (Matches insts) SameOutcome (run (step h insts) n s₀)
          (run (step h out) m t₀) := by
  have hacc := validate_spec hv
  have hfit := hacc.fitsFields hlen
  refine ⟨?_, ?_, ?_, ?_⟩
  · intro i t inst hget hj ht
    refine ⟨_, rewrite_getElem?_jump hget hj, ?_⟩
    have hc : inst.checked = false := by
      cases hop : inst.opcode <;> simp_all [Opcode.isJump, EbpfInst.checked, EbpfInst.access?]
    have hsucc : shifted insts (i + 1) = shifted insts i + 1 := by
      rw [shifted_succ, checkedAt_of_getElem hget, hc]
      rfl
    rw [(hacc.retarget_toInt_iff hget hj ht).mpr (hfit.2 i t inst hget hj ht),
      hacc.integerOffset_jump hget hj ht]
    omega
  · intro t inst base sz hget ha hb
    exact ⟨fun k hk => rewrite_getElem?_block hget ha hb hk, rewrite_getElem?_access hget ha hb⟩
  · intro i lo hget hl
    have ho : Own insts i lo := ⟨hget, by rw [hl]; exact fun hc => Opcode.noConfusion hc⟩
    obtain ⟨hi, hget', hz⟩ := (hacc.ok_of_own ho).lddw_high hl
    have hc : lo.checked = false := by simp [EbpfInst.checked, EbpfInst.access?, hl]
    refine ⟨hi, hget', rewrite_getElem?_other hget hc (by simp [Opcode.isJump, hl]), ?_⟩
    rw [← place_of_not_checked hget hc, ← shifted_succ_eq_place]
    exact rewrite_getElem?_other hget' (by simp [EbpfInst.checked, EbpfInst.access?, hz])
      (by simp [Opcode.isJump, hz])
  · intro h s₀ t₀ hs₀ ht₀ hag n hp
    apply forward_simulation (fun s t hm hp => simulates_step hacc hfit hm hp) n s₀ t₀ _ hp
    obtain ⟨inst, ho⟩ := hacc.own_zero
    exact ⟨hag, by rw [ht₀, hs₀]; rfl, .inr ⟨inst, by rw [hs₀]; exact ho⟩⟩

/-- A load of the first word of the heap and an `EXIT`: two steps of the source. -/
theorem rewrite_preserves_loadR1 :
    validate ubpfCreate [loadR1, { opcode := .exit }] = .ok [0] ∧
      ∃ m, Result.Rel (Matches [loadR1, { opcode := .exit }]) SameOutcome
        (run (step bareHost [loadR1, { opcode := .exit }]) 2 (bareStart.set 0 1 0x10000))
        (run (step bareHost (rewriteWithMemchecks 0x10000 4096 [loadR1, { opcode := .exit }] [0])) m
          (bareStart.set 0 1 0x10000)) := by
  have hv : validate ubpfCreate [loadR1, { opcode := .exit }] = .ok [0] := by decide
  refine ⟨hv, (rewrite_preserves hv (by decide) 0x10000 4096).2.2.2 bareHost _ _ rfl rfl
    (.refl _) 2 ?_⟩
  intro k hk s hs inst base sz hget ha hb
  rcases (by omega : k = 0 ∨ k = 1) with rfl | rfl
  · cases hs
    cases hget
    cases ha
    exact .inl ⟨by decide, by decide⟩
  · cases hs
    cases hget
    cases ha

end TorEbpf.Ubpf
