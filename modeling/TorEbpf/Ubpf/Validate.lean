import TorEbpf.Lib.Marks
import TorEbpf.Ubpf.Exec

/-!
# The validator

`ubpf_create`, `ubpf_register` and `validate`.  `validate` walks once over the instructions, skips the
second half of every `LDDW`, and records in `rewrite_pcs` the loads and stores that the rewriting
pass has to put a check before.  It stops at the first instruction it refuses.

The main result is `validate_spec`: a program that is accepted meets `Accepted`, which says of every
index what the walk established there.  Everything later about accepted programs is drawn from
`Accepted` and not from the walk.
-/

namespace TorEbpf.Ubpf

open TorEbpf.Lib

def maxInsts : ℕ := 65536

def maxLoadStore : ℕ := 2048

/-! ### The virtual machine -/

/-- `struct ubpf_vm`: the loaded code with its 16-bit count, the external functions by name, and the
strings the ELF loader allocated. -/
structure UbpfVm where
  insts : Option (List EbpfInst)
  numInsts : ℕ
  extFuncs : Fin maxExtFuncs → Option String
  staticMem : List (List UInt8)

/-- `ubpf_create`: no code, no function. -/
def ubpfCreate : UbpfVm := ⟨none, 0, fun _ => none, []⟩

/-- `ubpf_register`; `none` is the return value `-1`. -/
def ubpfRegister (vm : UbpfVm) (idx : ℕ) (name : String) : Option UbpfVm :=
  if h : idx < maxExtFuncs then
    some { vm with extFuncs := Function.update vm.extFuncs ⟨idx, h⟩ (some name) }
  else none

/-- Whether `ext_funcs[imm]` is a non-`NULL` entry. -/
def UbpfVm.registered (vm : UbpfVm) (imm : BitVec 32) : Bool :=
  if h : imm.toNat < maxExtFuncs then (vm.extFuncs ⟨imm.toNat, h⟩).isSome else false

/-! ### Errors -/

/-- What `validate` can complain about. -/
inductive ValidateError where
  | tooManyInstructions
  | noExit
  | invalidEndian (pc : ℕ)
  | tooManyLoadStore
  | crushesStack (type : AccessKind) (offset : ℤ) (pc : ℕ)
  | incompleteLddw (pc : ℕ)
  | infiniteLoop (pc : ℕ)
  | jumpOutOfBounds (pc : ℕ)
  | jumpToMiddleOfLddw (pc : ℕ)
  | invalidCall (pc : ℕ) (imm : ℤ)
  | nonexistentFunction (imm : ℕ) (pc : ℕ)
  | divisionByZero (pc : ℕ)
  | unknownOpcode (byte : BitVec 8) (pc : ℕ)
  | invalidSource (pc : ℕ)
  | invalidDestination (pc : ℕ)
  deriving DecidableEq, Repr

/-- `%02x`. -/
def hex2 (b : BitVec 8) : String :=
  String.ofList [Nat.digitChar (b.toNat / 16), Nat.digitChar (b.toNat % 16)]

/-- The text stored in `*errmsg`. -/
def ValidateError.message : ValidateError → String
  | .tooManyInstructions => "too many instructions (max " ++ toString maxInsts ++ ")"
  | .noExit => "no exit in instructions"
  | .invalidEndian pc => "invalid endian immediate at PC " ++ toString pc
  | .tooManyLoadStore =>
      "Too many load and store, currently limited to " ++ toString maxLoadStore
  | .crushesStack .load offset pc =>
      "Load crushes stack with offset " ++ toString offset ++ " at PC " ++ toString pc
  | .crushesStack .store offset pc =>
      "Store crushes stack with offset " ++ toString offset ++ " at PC " ++ toString pc
  | .incompleteLddw pc => "incomplete lddw at PC " ++ toString pc
  | .infiniteLoop pc => "infinite loop at PC " ++ toString pc
  | .jumpOutOfBounds pc => "jump out of bounds at PC " ++ toString pc
  | .jumpToMiddleOfLddw pc => "jump to middle of lddw at PC " ++ toString pc
  | .invalidCall pc imm =>
      "invalid call immediate at PC " ++ toString pc ++ ", inst.imm=" ++ toString imm
  | .nonexistentFunction imm pc =>
      "call to nonexistent function " ++ toString imm ++ " at PC " ++ toString pc
  | .divisionByZero pc => "division by zero at PC " ++ toString pc
  | .unknownOpcode byte pc => "unknown opcode 0x" ++ hex2 byte ++ " at PC " ++ toString pc
  | .invalidSource pc => "invalid source register at PC " ++ toString pc
  | .invalidDestination pc => "invalid destination register at PC " ++ toString pc

/-! ### The walk -/

/-- A load or store: record it, or check an offset from `r10` at once. -/
def validateAccess (type : AccessKind) (i : ℕ) (base : Fin 16) (offset : BitVec 16)
    (pcs : List ℕ) : Except ValidateError (List ℕ) :=
  if base ≠ 10 then
    if maxLoadStore ≤ pcs.length then .error .tooManyLoadStore
    else .ok (pcs ++ [i])
  else if 0 < offset.toInt ∨ offset.toInt < -(stackSize : ℤ) then
    .error (.crushesStack type offset.toInt i)
  else .ok pcs

/-- A jump: `new_pc = i + 1 + inst.offset`. -/
def validateJump (insts : List EbpfInst) (i : ℕ) (offset : BitVec 16) :
    Except ValidateError Unit :=
  if offset = -1 then .error (.infiniteLoop i)
  else
    let newPc : ℤ := i + 1 + offset.toInt
    if newPc < 0 then .error (.jumpOutOfBounds i)
    else
      match insts[newPc.toNat]? with
      | none => .error (.jumpOutOfBounds i)
      | some target =>
          if target.opcode = .unknown 0 then .error (.jumpToMiddleOfLddw i) else .ok ()

/-- The `switch` of `validate`; the result is `rewrite_pcs`, whose length is `*num_load_store`. -/
def validateOpcode (vm : UbpfVm) (insts : List EbpfInst) (i : ℕ) (inst : EbpfInst)
    (pcs : List ℕ) : Except ValidateError (List ℕ) :=
  match inst.opcode with
  | .alu _ .div .imm => if inst.imm = 0 then .error (.divisionByZero i) else .ok pcs
  | .alu _ .mod .imm => if inst.imm = 0 then .error (.divisionByZero i) else .ok pcs
  | .alu _ _ _ => .ok pcs
  | .neg _ => .ok pcs
  | .le => if inst.imm ≠ 16 ∧ inst.imm ≠ 32 ∧ inst.imm ≠ 64 then .error (.invalidEndian i) else .ok pcs
  | .be => if inst.imm ≠ 16 ∧ inst.imm ≠ 32 ∧ inst.imm ≠ 64 then .error (.invalidEndian i) else .ok pcs
  | .ldx _ => validateAccess .load i inst.src inst.offset pcs
  | .st _ => validateAccess .store i inst.dst inst.offset pcs
  | .stx _ => validateAccess .store i inst.dst inst.offset pcs
  | .lddw =>
      match insts[i + 1]? with
      | none => .error (.incompleteLddw i)
      | some hi => if hi.opcode ≠ .unknown 0 then .error (.incompleteLddw i) else .ok pcs
  | .ja => (validateJump insts i inst.offset).map fun _ => pcs
  | .jcc _ _ => (validateJump insts i inst.offset).map fun _ => pcs
  | .call =>
      if inst.imm.toInt < 0 ∨ (maxExtFuncs : ℤ) ≤ inst.imm.toInt then
        .error (.invalidCall i inst.imm.toInt)
      else if vm.registered inst.imm then .ok pcs
      else .error (.nonexistentFunction inst.imm.toNat i)
  | .exit => .ok pcs
  | .unknown byte => .error (.unknownOpcode byte i)

/-- Where `i` is after the `switch`: an `LDDW` has skipped the instruction behind it. -/
def pcAfter (i : ℕ) (inst : EbpfInst) : ℕ := if inst.opcode = .lddw then i + 1 else i

def validateRegs (i : ℕ) (inst : EbpfInst) : Except ValidateError Unit :=
  if 10 < inst.src then .error (.invalidSource (pcAfter i inst))
  else if 9 < inst.dst ∧ ¬(inst.opcode.isStore ∧ inst.dst = 10) then
    .error (.invalidDestination (pcAfter i inst))
  else .ok ()

/-- The loop of `validate` from index `i` on, where `rest` are the instructions from there. -/
def validateLoop (vm : UbpfVm) (insts : List EbpfInst) :
    ℕ → List EbpfInst → List ℕ → Except ValidateError (List ℕ)
  | _, [], pcs => .ok pcs
  | i, inst :: rest, pcs =>
      match validateOpcode vm insts i inst pcs with
      | .error e => .error e
      | .ok pcs' =>
          match validateRegs i inst with
          | .error e => .error e
          | .ok _ =>
              match inst.opcode, rest with
              | .lddw, _ :: rest' => validateLoop vm insts (i + 2) rest' pcs'
              | _, rest => validateLoop vm insts (i + 1) rest pcs'

def validate (vm : UbpfVm) (insts : List EbpfInst) : Except ValidateError (List ℕ) :=
  if maxInsts ≤ insts.length then .error .tooManyInstructions
  else if insts.all fun inst => inst.opcode ≠ .exit then .error .noExit
  else validateLoop vm insts 0 insts []

/-! ### What acceptance means -/

/-- Whether the instruction at an index is a checked load or store. -/
def checkedAt (insts : List EbpfInst) (i : ℕ) : Bool :=
  match insts[i]? with
  | some inst => inst.checked
  | none => false

/-- The second half of an `LDDW`. -/
def LddwHigh (insts : List EbpfInst) (i : ℕ) : Prop :=
  ∃ j lo, i = j + 1 ∧ insts[j]? = some lo ∧ lo.opcode = .lddw

/-- What the walk establishes at an instruction it visits. -/
structure InstOk (vm : UbpfVm) (insts : List EbpfInst) (i : ℕ) (inst : EbpfInst) : Prop where
  opcode : ∃ pcs pcs', validateOpcode vm insts i inst pcs = .ok pcs'
  regs : validateRegs i inst = .ok ()

/-- An accepted program with its `rewrite_pcs`. -/
structure Accepted (vm : UbpfVm) (insts : List EbpfInst) (pcs : List ℕ) : Prop where
  length_lt : insts.length < maxInsts
  exit_mem : ∃ inst ∈ insts, inst.opcode = .exit
  inst_ok : ∀ i inst, insts[i]? = some inst →
    (inst.opcode = .unknown 0 ∧ LddwHigh insts i) ∨ InstOk vm insts i inst
  pcs_eq : pcs = marks (checkedAt insts) insts.length
  pcs_le : pcs.length ≤ maxLoadStore

/-! ### One instruction -/

theorem validateAccess_pcs {type : AccessKind} {i : ℕ} {base : Fin 16} {offset : BitVec 16}
    {pcs pcs' : List ℕ} (h : validateAccess type i base offset pcs = .ok pcs') :
    pcs' = pcs ++ (if base ≠ 10 then [i] else []) ∧
      (pcs.length ≤ maxLoadStore → pcs'.length ≤ maxLoadStore) := by
  unfold validateAccess at h
  split at h
  · rename_i hb
    split at h
    · cases h
    · rename_i hlen
      cases h
      rw [if_pos hb]
      refine ⟨rfl, fun _ => ?_⟩
      rw [List.length_append, List.length_singleton]
      omega
  · rename_i hb
    split at h
    · cases h
    · cases h
      rw [if_neg hb, List.append_nil]
      exact ⟨rfl, id⟩

/-- What the `switch` does to `rewrite_pcs`: a checked access is appended, and nothing else is. -/
theorem validateOpcode_pcs {vm : UbpfVm} {insts : List EbpfInst} {i : ℕ} {inst : EbpfInst}
    {pcs pcs' : List ℕ} (h : validateOpcode vm insts i inst pcs = .ok pcs') :
    pcs' = pcs ++ (if inst.checked then [i] else []) ∧
      (pcs.length ≤ maxLoadStore → pcs'.length ≤ maxLoadStore) := by
  unfold validateOpcode at h
  cases hop : inst.opcode with
  | ldx sz =>
    simp only [hop] at h
    simpa [EbpfInst.checked, EbpfInst.access?, hop] using validateAccess_pcs h
  | st sz =>
    simp only [hop] at h
    simpa [EbpfInst.checked, EbpfInst.access?, hop] using validateAccess_pcs h
  | stx sz =>
    simp only [hop] at h
    simpa [EbpfInst.checked, EbpfInst.access?, hop] using validateAccess_pcs h
  | _ =>
    have hc : inst.checked = false := by simp [EbpfInst.checked, EbpfInst.access?, hop]
    simp only [hop] at h
    rw [hc]
    suffices hp : pcs' = pcs by simp [hp]
    revert h
    repeat' (first | split | (simp only [Except.map]))
    all_goals simp_all

theorem InstOk.access_offset {vm : UbpfVm} {insts : List EbpfInst} {i : ℕ} {inst : EbpfInst}
    (h : InstOk vm insts i inst) {sz : Size} (ha : inst.access? = some (10, sz)) :
    inst.offset.toInt ≤ 0 ∧ -(stackSize : ℤ) ≤ inst.offset.toInt := by
  obtain ⟨pcs, pcs', ho⟩ := h.opcode
  have key : ∀ type, validateAccess type i 10 inst.offset pcs = .ok pcs' →
      inst.offset.toInt ≤ 0 ∧ -(stackSize : ℤ) ≤ inst.offset.toInt := by
    intro type hv
    unfold validateAccess at hv
    rw [if_neg (by simp)] at hv
    split at hv
    · cases hv
    · omega
  unfold validateOpcode at ho
  unfold EbpfInst.access? at ha
  cases hop : inst.opcode <;> simp only [hop, Option.some.injEq, Prod.mk.injEq, reduceCtorEq] at ha ho
  · exact key .load (by rw [← ha.1]; exact ho)
  · exact key .store (by rw [← ha.1]; exact ho)
  · exact key .store (by rw [← ha.1]; exact ho)

theorem InstOk.jump_target {vm : UbpfVm} {insts : List EbpfInst} {i : ℕ} {inst : EbpfInst}
    (h : InstOk vm insts i inst) (hj : inst.opcode.isJump = true) :
    ∃ (t : ℕ) (target : EbpfInst), (t : ℤ) = i + 1 + inst.offset.toInt ∧
      insts[t]? = some target ∧ target.opcode ≠ .unknown 0 := by
  obtain ⟨pcs, pcs', ho⟩ := h.opcode
  have hv : validateJump insts i inst.offset = .ok () := by
    unfold validateOpcode at ho
    cases hop : inst.opcode <;> simp only [hop, Opcode.isJump, Bool.false_eq_true] at hj ho
    all_goals
      cases hv : validateJump insts i inst.offset with
      | error e => simp [hv, Except.map] at ho
      | ok u => rfl
  unfold validateJump at hv
  split at hv
  · cases hv
  · dsimp only at hv
    split at hv
    · cases hv
    · split at hv
      · cases hv
      · rename_i target ht
        split at hv
        · cases hv
        · rename_i hne
          exact ⟨_, target, by omega, ht, hne⟩

theorem InstOk.lddw_high {vm : UbpfVm} {insts : List EbpfInst} {i : ℕ} {inst : EbpfInst}
    (h : InstOk vm insts i inst) (hl : inst.opcode = .lddw) :
    ∃ hi, insts[i + 1]? = some hi ∧ hi.opcode = .unknown 0 := by
  obtain ⟨pcs, pcs', ho⟩ := h.opcode
  simp only [validateOpcode, hl] at ho
  split at ho
  · cases ho
  · rename_i hi hget
    split at ho
    · cases ho
    · rename_i hne
      exact ⟨hi, hget, by simpa using hne⟩

theorem InstOk.call_registered {vm : UbpfVm} {insts : List EbpfInst} {i : ℕ} {inst : EbpfInst}
    (h : InstOk vm insts i inst) (hc : inst.opcode = .call) : vm.registered inst.imm = true := by
  obtain ⟨pcs, pcs', ho⟩ := h.opcode
  simp only [validateOpcode, hc] at ho
  split at ho
  · cases ho
  · split at ho
    · assumption
    · cases ho

theorem InstOk.opcode_ne_unknown {vm : UbpfVm} {insts : List EbpfInst} {i : ℕ} {inst : EbpfInst}
    (h : InstOk vm insts i inst) (b : BitVec 8) : inst.opcode ≠ .unknown b := by
  intro hb
  obtain ⟨pcs, pcs', ho⟩ := h.opcode
  simp [validateOpcode, hb] at ho

theorem InstOk.src_le {vm : UbpfVm} {insts : List EbpfInst} {i : ℕ} {inst : EbpfInst}
    (h : InstOk vm insts i inst) : inst.src ≤ 10 := by
  have hr := h.regs
  unfold validateRegs at hr
  split at hr
  · cases hr
  · omega

/-- Only a store may name `r10` as its destination, and no instruction names a register above. -/
theorem InstOk.dst_le {vm : UbpfVm} {insts : List EbpfInst} {i : ℕ} {inst : EbpfInst}
    (h : InstOk vm insts i inst) :
    inst.dst ≤ 9 ∨ (inst.opcode.isStore = true ∧ inst.dst = 10) := by
  have hr := h.regs
  unfold validateRegs at hr
  split at hr
  · cases hr
  · split at hr
    · cases hr
    · rename_i hn
      by_cases hd : inst.dst ≤ 9
      · exact .inl hd
      · exact .inr (by simpa [show 9 < inst.dst from by omega] using hn)

/-! ### The whole walk -/

theorem checkedAt_of_getElem {insts : List EbpfInst} {i : ℕ} {inst : EbpfInst}
    (h : insts[i]? = some inst) : checkedAt insts i = inst.checked := by
  simp only [checkedAt, h]

theorem getElem_of_drop {insts rest : List EbpfInst} {i : ℕ} {inst : EbpfInst}
    (h : inst :: rest = insts.drop i) : insts[i]? = some inst ∧ rest = insts.drop (i + 1) := by
  constructor
  · rw [← List.head?_drop, ← h]
    rfl
  · rw [← List.tail_drop, ← h]
    rfl

theorem validateLoop_spec {vm : UbpfVm} {insts : List EbpfInst} (i : ℕ) (rest : List EbpfInst)
    (pcs pcs' : List ℕ) (hrest : rest = insts.drop i) (hlen : pcs.length ≤ maxLoadStore)
    (h : validateLoop vm insts i rest pcs = .ok pcs') :
    pcs' = pcs ++ (List.range' i rest.length).filter (checkedAt insts) ∧
      pcs'.length ≤ maxLoadStore ∧
      ∀ j inst, i ≤ j → insts[j]? = some inst →
        (inst.opcode = .unknown 0 ∧ LddwHigh insts j) ∨ InstOk vm insts j inst := by
  fun_induction validateLoop vm insts i rest pcs with
  | case1 i pcs =>
    cases h
    refine ⟨by simp, hlen, ?_⟩
    intro j inst hj hget
    have hi : insts.length ≤ i := List.drop_eq_nil_iff.mp hrest.symm
    obtain ⟨hj', _⟩ := List.getElem?_eq_some_iff.mp hget
    omega
  | case2 => cases h
  | case3 => cases h
  | case4 i inst pcs pcs₁ ho u hr hi rest' hl ih =>
    -- an `LDDW`: this instruction is visited, the next one is its second half
    obtain ⟨hget, hrest₁⟩ := getElem_of_drop hrest
    obtain ⟨hget₁, hrest₂⟩ := getElem_of_drop hrest₁
    have hok : InstOk vm insts i inst := ⟨⟨pcs, pcs₁, ho⟩, hr⟩
    obtain ⟨hi', hget', hhi⟩ := hok.lddw_high hl
    obtain rfl : hi' = hi := Option.some.inj (hget'.symm.trans hget₁)
    obtain ⟨hpcs, hle⟩ := validateOpcode_pcs ho
    have hc : inst.checked = false := by simp [EbpfInst.checked, EbpfInst.access?, hl]
    have hc' : hi'.checked = false := by simp [EbpfInst.checked, EbpfInst.access?, hhi]
    rw [hc] at hpcs
    simp only [Bool.false_eq_true, if_false, List.append_nil] at hpcs
    obtain ⟨h₁, h₂, h₃⟩ := ih hrest₂ (hle hlen) h
    refine ⟨?_, h₂, ?_⟩
    · rw [h₁, hpcs]
      simp [List.range'_succ, checkedAt_of_getElem hget, checkedAt_of_getElem hget₁, hc, hc']
    · intro j inst' hj hgetj
      rcases Nat.lt_or_ge j (i + 2) with hlt | hge
      · rcases (by omega : j = i ∨ j = i + 1) with rfl | rfl
        · obtain rfl : inst' = inst := Option.some.inj (hgetj.symm.trans hget)
          exact .inr hok
        · obtain rfl : inst' = hi' := Option.some.inj (hgetj.symm.trans hget₁)
          exact .inl ⟨hhi, i, inst, rfl, hget, hl⟩
      · exact h₃ j inst' hge hgetj
  | case5 i inst pcs pcs₁ ho u hr rest hne ih =>
    obtain ⟨hget, hrest₁⟩ := getElem_of_drop hrest
    have hok : InstOk vm insts i inst := ⟨⟨pcs, pcs₁, ho⟩, hr⟩
    obtain ⟨hpcs, hle⟩ := validateOpcode_pcs ho
    obtain ⟨h₁, h₂, h₃⟩ := ih hrest₁ (hle hlen) h
    refine ⟨?_, h₂, ?_⟩
    · rw [h₁, hpcs, List.length_cons, List.range'_succ, List.filter_cons,
        checkedAt_of_getElem hget]
      cases inst.checked <;> simp
    · intro j inst' hj hgetj
      rcases Nat.lt_or_ge i j with hlt | hge
      · exact h₃ j inst' hlt hgetj
      · obtain rfl : j = i := by omega
        obtain rfl : inst' = inst := Option.some.inj (hgetj.symm.trans hget)
        exact .inr hok

/-- **What `validate` establishes.** -/
theorem validate_spec {vm : UbpfVm} {insts : List EbpfInst} {pcs : List ℕ}
    (h : validate vm insts = .ok pcs) : Accepted vm insts pcs := by
  unfold validate at h
  split at h
  · cases h
  · rename_i hlen
    split at h
    · cases h
    · rename_i hexit
      obtain ⟨h₁, h₂, h₃⟩ :=
        validateLoop_spec 0 insts [] pcs (by simp) (by simp [maxLoadStore]) h
      refine ⟨by omega, ?_, fun i inst => h₃ i inst (Nat.zero_le i), ?_, h₂⟩
      · simpa using hexit
      · rw [h₁, List.nil_append, marks, List.range_eq_range']

end TorEbpf.Ubpf
