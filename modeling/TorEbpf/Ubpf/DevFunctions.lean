import TorEbpf.Ubpf.ControlFlow

/-!
# The external functions of a plugin

`register_dev_functions` fills the first entries of `ext_funcs` in order.  `validate` checks the calls
of a program against the table; the calls that the check blocks make are put in afterwards.

* `registered_iff` — the registered indices are exactly those of the list.
* `calls_registered_iff` — every call of a rewritten program is registered iff no block was put in.
* `faults_of_not_memcheck` — and where a test fails, the run ends in a call through `NULL`.
-/

namespace TorEbpf.Ubpf

open TorEbpf.Lib

/-- The names in the order in which `register_dev_functions` registers them. -/
def devFunctions : List String :=
  [ "invoke_plugin_operation_or_default", "get", "set", "call_host_func",
    "my_ntohl", "my_htonl",
    "my_plugin_malloc", "my_plugin_free", "my_plugin_memset", "my_plugin_memcpy",
    "log_fn_",
    "circpad_machine_spec_transition",
    "trunnel_set_uint8", "trunnel_set_uint16", "trunnel_set_uint32",
    "trunnel_get_uint8", "trunnel_get_uint16", "trunnel_get_uint32",
    "strcmp" ]

/-- Register a list of functions from index `idx` on; `none` is a failed assertion. -/
def registerFrom (vm : UbpfVm) : ℕ → List String → Option UbpfVm
  | _, [] => some vm
  | idx, name :: names =>
      match ubpfRegister vm idx name with
      | none => none
      | some vm' => registerFrom vm' (idx + 1) names

def registerDevFunctions (vm : UbpfVm) : Option UbpfVm := registerFrom vm 0 devFunctions

/-! ### Which indices are registered -/

theorem ubpfRegister_registered {vm vm' : UbpfVm} {idx : ℕ} {name : String}
    (h : ubpfRegister vm idx name = some vm') (imm : BitVec 32) :
    vm'.registered imm = (decide (imm.toNat = idx) || vm.registered imm) := by
  unfold ubpfRegister at h
  split at h
  · rename_i hidx
    cases h
    unfold UbpfVm.registered
    by_cases himm : imm.toNat < maxExtFuncs
    · simp only [himm, dif_pos]
      by_cases heq : imm.toNat = idx
      · subst heq
        simp
      · rw [Function.update_of_ne (by simpa using heq)]
        simp [heq]
    · simp only [himm, dif_neg, not_false_eq_true]
      have : imm.toNat ≠ idx := by omega
      simp [this]
  · cases h

theorem registerFrom_registered (names : List String) :
    ∀ {vm vm' : UbpfVm} {idx : ℕ}, registerFrom vm idx names = some vm' → ∀ imm : BitVec 32,
      vm'.registered imm = true ↔
        vm.registered imm = true ∨ (idx ≤ imm.toNat ∧ imm.toNat < idx + names.length) := by
  induction names with
  | nil =>
    intro vm vm' idx h imm
    cases h
    simp only [List.length_nil, Nat.add_zero]
    constructor
    · exact .inl
    · rintro (hr | ⟨h₁, h₂⟩)
      · exact hr
      · omega
  | cons name names ih =>
    intro vm vm' idx h imm
    rw [registerFrom] at h
    cases hreg : ubpfRegister vm idx name with
    | none => rw [hreg] at h; cases h
    | some vm₁ =>
      rw [hreg] at h
      rw [ih h imm, ubpfRegister_registered hreg imm, Bool.or_eq_true, decide_eq_true_eq,
        List.length_cons]
      constructor
      · rintro ((heq | hr) | ⟨h₁, h₂⟩)
        · exact .inr (by omega)
        · exact .inl hr
        · exact .inr (by omega)
      · rintro (hr | ⟨h₁, h₂⟩)
        · exact .inl (.inr hr)
        · by_cases heq : imm.toNat = idx
          · exact .inl (.inl heq)
          · exact .inr (by omega)

/-- **The registered indices** of a prepared VM are the first nineteen. -/
theorem registered_iff {vm : UbpfVm} (h : registerDevFunctions ubpfCreate = some vm)
    (imm : BitVec 32) : vm.registered imm = true ↔ imm.toNat < devFunctions.length := by
  rw [registerFrom_registered devFunctions h imm]
  have hnone : ubpfCreate.registered imm = false := by
    unfold UbpfVm.registered
    split <;> rfl
  rw [hnone, Nat.zero_add]
  simp only [Bool.false_eq_true, false_or]
  exact and_iff_right (Nat.zero_le _)

theorem not_registered_oobCall {vm : UbpfVm} (h : registerDevFunctions ubpfCreate = some vm) :
    vm.registered oobCall = false := by
  rw [← Bool.not_eq_true, registered_iff h]
  decide

/-! ### The calls of a rewritten program -/

/-- **Every call of the rewritten program is registered** iff the program has no checked access. -/
theorem calls_registered_iff {vm : UbpfVm} {insts : List EbpfInst} {pcs : List ℕ}
    (hvm : registerDevFunctions ubpfCreate = some vm) (hv : validate vm insts = .ok pcs)
    (memoryPtr : BitVec 64) (memorySize : BitVec 32) :
    (∀ inst ∈ rewriteWithMemchecks memoryPtr memorySize insts pcs, inst.opcode = .call →
        vm.registered inst.imm = true) ↔
      ∀ inst ∈ insts, inst.checked = false := by
  have hacc := validate_spec hv
  constructor
  · intro hall inst hmem
    by_contra hc
    rw [Bool.not_eq_false] at hc
    obtain ⟨base, sz, ha, hb⟩ := EbpfInst.access_of_checked hc
    obtain ⟨i, hi, rfl⟩ := List.mem_iff_getElem.mp hmem
    -- the call on the failure path of its check block
    have hcall : (rewriteWithMemchecks memoryPtr memorySize insts pcs)[shifted insts i + 18]?
        = some { opcode := .call, imm := oobCall } :=
      rewrite_getElem?_block (List.getElem?_eq_getElem hi) ha hb (by omega)
    have hreg := hall _ (List.mem_of_getElem? hcall) rfl
    rw [not_registered_oobCall hvm] at hreg
    cases hreg
  · intro hnone inst hmem hop
    obtain ⟨q, hget⟩ := List.mem_iff_getElem?.mp hmem
    obtain ⟨hq, _⟩ := List.getElem?_eq_some_iff.mp hget
    obtain ⟨i, inst', k, hget', hk, hpos⟩ := exists_of_lt_expand hq
    obtain ⟨hlt, _⟩ := List.getElem?_eq_some_iff.mp hget'
    have hc : inst'.checked = false := hnone inst' (List.mem_of_getElem? hget')
    have hplace : q = place insts i := by
      rw [rewriteInst_length, hc] at hk
      simp only [Bool.false_eq_true, if_false] at hk
      rw [hpos, pos_rewriteInst (Nat.le_of_lt hlt), place_of_not_checked hget' hc]
      omega
    rw [hplace, rewrite_getElem?_place hget', Option.some.injEq] at hget
    have hop' : inst'.opcode = .call := by rw [← moved_opcode pcs i, hget, hop]
    rw [moved_of_not_jump (by simp [Opcode.isJump, hop'])] at hget
    subst hget
    have ho : Own insts i inst' := ⟨hget', by rw [hop']; exact fun hc => Opcode.noConfusion hc⟩
    exact (hacc.ok_of_own ho).call_registered hop'

/-! ### What a failed test leads to -/

namespace BlockAt

variable {out : List EbpfInst} {memoryPtr : BitVec 64} {memorySize : BitVec 32} {base : Fin 16}
  {offset : BitVec 16} {p : ℕ} {s : State}

theorem reaches_failure (hb : BlockAt out memoryPtr memorySize base offset p) (h : Host)
    (hpc : s.pc = p) (ht : ¬Memcheck memoryPtr memorySize base offset s) :
    ∃ t, Reaches (step h out) s t ∧ t.pc = p + 13 := by
  obtain ⟨hheap, hstack⟩ := not_or.mp ht
  have hnine := hb.reaches_of_not_heapTest h hpc hheap
  by_cases hle : effAddr s base offset ≤ s.reg 10
  · have hge : ¬s.reg 10 ≤ effAddr s base offset + BitVec.ofNat 64 stackSize := fun hge =>
      hstack ⟨hle, hge⟩
    refine ⟨s.set (p + 13) 11 (effAddr s base offset + BitVec.ofNat 64 stackSize),
      hnine.trans ?_, rfl⟩
    refine (Reaches.single (hb.step9 h rfl)).trans ?_
    rw [State.set_reg_self, State.set_reg_of_ne _ _ _ (by decide), if_pos hle, State.set_goto]
    refine (Reaches.single (hb.step11 h rfl)).trans ?_
    rw [State.set_set, State.set_reg_self]
    refine (Reaches.single (hb.step12 h rfl)).trans ?_
    rw [State.set_reg_self, State.set_reg_of_ne _ _ _ (by decide), if_neg hge, State.set_goto]
    exact Reaches.refl _
  · refine ⟨s.set (p + 13) 11 (effAddr s base offset), hnine.trans ?_, rfl⟩
    refine (Reaches.single (hb.step9 h rfl)).trans ?_
    rw [State.set_reg_self, State.set_reg_of_ne _ _ _ (by decide), if_neg hle, State.set_goto]
    exact Reaches.single (hb.step10 h rfl)

theorem failure_next (hb : BlockAt out memoryPtr memorySize base offset p) (h : Host) (k k' : ℕ)
    (hk : (k, k') ∈ [(13, 14), (14, 15), (15, 17), (17, 18)]) (hpc : s.pc = p + k) :
    ∃ s', step h out s = .next s' ∧ s'.pc = p + k' := by
  have hnext : ∃ s', step h out s = .next s' := by
    simp only [List.mem_cons, Prod.mk.injEq, List.not_mem_nil, or_false] at hk
    rcases hk with ⟨rfl, _⟩ | ⟨rfl, _⟩ | ⟨rfl, _⟩ | ⟨rfl, _⟩
    · exact ⟨_, by rw [hb.step_eq h 13 hpc]; rfl⟩
    · exact ⟨_, by rw [hb.step_eq h 14 hpc]; rfl⟩
    · have hhi := hb.getElem 16 (by omega)
      have hinc : incPc s.pc = p + 16 := hb.incPc_eq (by omega) hpc
      exact ⟨_, by rw [hb.step_eq h 15 hpc, execInst_lddw rfl (by rw [hinc, hhi]; rfl)]⟩
    · exact ⟨_, by rw [hb.step_eq h 17 hpc]; rfl⟩
  obtain ⟨s', hs⟩ := hnext
  have hk₁ : (k, k') ∈ [(13, 14), (14, 15), (15, 17), (17, 18), (18, 19)] :=
    List.mem_append_left [(18, 19)] hk
  exact ⟨s', hs, (hb.step_failure hk₁ hpc hs).1⟩

/-- **A block whose test fails** ends in a call through `NULL` where `OOB_CALL` is not registered. -/
theorem faults_of_not_memcheck (hb : BlockAt out memoryPtr memorySize base offset p) {h : Host}
    (hreg : h.registered oobCall = false) (hpc : s.pc = p)
    (ht : ¬Memcheck memoryPtr memorySize base offset s) :
    ∃ n, run (step h out) n s = .halt (.fault (.nullCall oobCall)) := by
  obtain ⟨t, ⟨n, hn⟩, hpc₁₃⟩ := hb.reaches_failure h hpc ht
  obtain ⟨t₁, ht₁, hpc₁₄⟩ := hb.failure_next h 13 14 (by simp) hpc₁₃
  obtain ⟨t₂, ht₂, hpc₁₅⟩ := hb.failure_next h 14 15 (by simp) hpc₁₄
  obtain ⟨t₃, ht₃, hpc₁₇⟩ := hb.failure_next h 15 17 (by simp) hpc₁₅
  obtain ⟨t₄, ht₄, hpc₁₈⟩ := hb.failure_next h 17 18 (by simp) hpc₁₇
  have hcall : step h out t₄ = .halt (.fault (.nullCall oobCall)) := by
    rw [hb.step_eq h 18 hpc₁₈]
    show (if h.registered oobCall = true then _ else Result.halt (Halt.fault (.nullCall oobCall))) = _
    rw [hreg]
    rfl
  refine ⟨n + 5, ?_⟩
  rw [run_add hn, run_succ_of_next ht₁, run_succ_of_next ht₂, run_succ_of_next ht₃,
    run_succ_of_next ht₄, run_succ_of_halt hcall]

end BlockAt

/-! ### A program with a check -/

/-- A program that calls the helper 1 and has no access to check. -/
theorem calls_registered_call :
    ∃ vm, registerDevFunctions ubpfCreate = some vm ∧
      validate vm [{ opcode := .call, imm := 1 }, { opcode := .exit }] = .ok [] ∧
      (∃ inst ∈ rewriteWithMemchecks 0x10000 4096 [{ opcode := .call, imm := 1 }, { opcode := .exit }] [],
        inst.opcode = .call) ∧
      ∀ inst ∈ rewriteWithMemchecks 0x10000 4096 [{ opcode := .call, imm := 1 }, { opcode := .exit }] [],
        inst.opcode = .call → vm.registered inst.imm = true := by
  refine ⟨_, rfl, by decide, ⟨{ opcode := .call, imm := 1 }, by decide, rfl⟩, ?_⟩
  exact (calls_registered_iff rfl (by decide) 0x10000 4096).mpr (by decide)

/-- **The check of a load calls an unregistered function**: the rewritten program contains the call,
and a run that fails the test ends in it. -/
theorem not_calls_registered_loadR1 :
    ∃ vm, registerDevFunctions ubpfCreate = some vm ∧
      validate vm [loadR1, { opcode := .exit }] = .ok [0] ∧
      (∃ inst ∈ rewriteWithMemchecks 0x10000 4096 [loadR1, { opcode := .exit }] [0],
        inst.opcode = .call ∧ vm.registered inst.imm = false) ∧
      ∀ ext, ∃ n, run (step (Host.jit vm.registered ext)
          (rewriteWithMemchecks 0x10000 4096 [loadR1, { opcode := .exit }] [0])) n
            (bareStart.set 0 10 0x7fff0000)
        = .halt (.fault (.nullCall oobCall)) := by
  obtain ⟨vm, hvm⟩ : ∃ vm, registerDevFunctions ubpfCreate = some vm := ⟨_, rfl⟩
  have hreg := not_registered_oobCall hvm
  have hv : validate vm [loadR1, { opcode := .exit }] = .ok [0] := rfl
  have hacc := validate_spec hv
  have hget : [loadR1, { opcode := .exit }][0]? = some loadR1 := rfl
  have hblock : BlockAt (rewriteWithMemchecks 0x10000 4096 [loadR1, { opcode := .exit }] [0])
      0x10000 4096 1 0 (shifted [loadR1, { opcode := .exit }] 0) :=
    blockAt_of_access hacc (hacc.fitsFields (by decide)) ⟨hget, by decide⟩ rfl (by decide)
  refine ⟨vm, hvm, hv, ⟨{ opcode := .call, imm := oobCall }, ?_, rfl, hreg⟩, ?_⟩
  · exact List.mem_of_getElem? (hblock.getElem 18 (by omega))
  · intro ext
    apply hblock.faults_of_not_memcheck hreg rfl
    unfold Memcheck HeapTest StackTest
    decide

end TorEbpf.Ubpf
