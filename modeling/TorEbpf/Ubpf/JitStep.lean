import TorEbpf.Ubpf.JitAlu

/-!
# An instruction and its code

The state of the interpreter and the one of the machine are related by `Rel`: registers that are live have
their values in the registers of `register_map`, and the memory agrees but for the stack of the compiled
code.  The code of an instruction keeps this relation where the instruction is `Portable`.

* `Linked` — what the addresses in the code stand for: external functions that keep to the calling
  convention and do what the host says;
* `Portable` — where the compiler and the interpreter agree;
* `step_next`, `step_exit` — the code of an instruction that goes on, and of the one that ends the run.
-/

namespace TorEbpf.Ubpf.Jit

open TorEbpf.Lib
open TorEbpf.Lib.X86

variable {ω : Type*}

/-! ### Registers of the source -/

theorem mapRegister_ne : ∀ r : Fin 16, mapRegister r ≠ rcx ∧ mapRegister r ≠ rsp := by decide

theorem mapRegister_inj : ∀ r q : Fin 16, r.val < registerMapSize → q.val < registerMapSize →
    mapRegister r = mapRegister q → r = q := by
  decide

theorem mapRegister_base : ∀ r : Fin 16, r.val < registerMapSize → r ≠ 12 → (mapRegister r).val % 8 ≠ 4 := by
  decide

def reads (arity : BitVec 32 → ℕ) (inst : EbpfInst) : List (Fin 16) :=
  match inst.opcode with
  | .alu _ op k => (if op = .mov then [] else [inst.dst]) ++ (if k = .reg then [inst.src] else [])
  | .neg _ | .le | .be | .st _ => [inst.dst]
  | .ldx _ => [inst.src]
  | .stx _ => [inst.dst, inst.src]
  | .jcc _ k => inst.dst :: (if k = .reg then [inst.src] else [])
  | .call => [1, 2, 3, 4, 5].take (arity inst.imm)
  | .exit => [0]
  | .lddw | .ja | .unknown _ => []

/-- The registers that a call keeps. -/
def preserved : List (Fin 16) := [6, 7, 8, 9, 10, 12]

/-- The registers whose values are known behind an instruction. -/
def liveAfter (inst : EbpfInst) (live : List (Fin 16)) : List (Fin 16) :=
  match inst.opcode with
  | .alu _ _ _ | .neg _ | .le | .be | .ldx _ | .lddw => inst.dst :: live
  | .call => 0 :: live.filter (· ∈ preserved)
  | _ => live

/-- The states of the interpreter and of the machine. -/
structure Rel (f : Frame) (kept : X86.Memory) (view : List Call → ω → Prop) (live : List (Fin 16)) (s : State)
    (x : X86.State ω) : Prop where
  live_lt : ∀ r ∈ live, r.val < registerMapSize
  reg : ∀ r ∈ live, x.reg (mapRegister r) = s.reg r
  rsp : x.reg X86.rsp = f.base
  mem : ∀ a, ¬f.Private a → x.mem a = s.mem a
  saved : ∀ a, f.Saved a → x.mem a = kept a
  world : view s.calls x.world

variable {f : Frame} {kept : X86.Memory} {view : List Call → ω → Prop} {live : List (Fin 16)} {s : State}
  {x x' : X86.State ω} {v : Word}

theorem Rel.writes (h : Rel f kept view live s x) {dst : Fin 16} (hdst : dst.val < registerMapSize)
    (hw : Writes f x x' (mapRegister dst) v) (pc : ℕ) : Rel f kept view (dst :: live) (s.set pc dst v) x' where
  live_lt r hr := by
    rcases List.mem_cons.mp hr with rfl | hr
    · exact hdst
    · exact h.live_lt r hr
  reg r hr := by
    show x'.reg (mapRegister r) = Function.update s.reg dst v r
    by_cases hrd : r = dst
    · rw [hrd, Function.update_self, hw.value]
    · have hlive : r ∈ live := (List.mem_cons.mp hr).resolve_left hrd
      have hne : mapRegister r ≠ mapRegister dst := fun heq =>
        hrd (mapRegister_inj r dst (h.live_lt r hlive) hdst heq)
      rw [Function.update_of_ne hrd, hw.others _ hne (mapRegister_ne r).1, h.reg r hlive]
  rsp := (hw.others _ (mapRegister_ne dst).2.symm (by decide)).trans h.rsp
  mem a ha := (hw.mem a fun hb => ha (.inl hb)).trans (h.mem a ha)
  saved a ha := (hw.mem a fun hb => f.not_saved_of_below hb ha).trans (h.saved a ha)
  world := by
    rw [hw.world]
    exact h.world

/-- Nothing is written on the side of the interpreter. -/
theorem Rel.untouched (h : Rel f kept view live s x) (hreg : x'.reg = x.reg) (hmem : x'.mem = x.mem)
    (hworld : x'.world = x.world) (pc : ℕ) : Rel f kept view live (s.goto pc) x' where
  live_lt := h.live_lt
  reg r hr := by
    rw [hreg]
    exact h.reg r hr
  rsp := by
    rw [hreg]
    exact h.rsp
  mem a ha := by
    rw [hmem]
    exact h.mem a ha
  saved a ha := by
    rw [hmem]
    exact h.saved a ha
  world := by
    rw [hworld]
    exact h.world

/-! ### Memory -/

theorem load_eq (mem : Mem) (n : ℕ) : ∀ a, Ubpf.load mem a n = X86.Memory.load mem a n := by
  induction n with
  | zero => exact fun _ => rfl
  | succ n ih =>
    intro a
    rw [Ubpf.load, X86.Memory.load, ih]

theorem store_eq (mem : Mem) (n : ℕ) : ∀ a v, Ubpf.store mem a v n = X86.Memory.store mem a v n := by
  induction n with
  | zero => exact fun _ _ => rfl
  | succ n ih =>
    intro a v
    rw [Ubpf.store, X86.Memory.store, ih]

theorem operandSize_bytes (sz : Size) : (operandSize sz).bytes = sz.bytes := by
  cases sz <;> rfl

/-- The bytes of an access are none of the private ones. -/
def Public (f : Frame) (a : Word) (n : ℕ) : Prop := ∀ k < n, ¬f.Private (a + BitVec.ofNat 64 k)

theorem Rel.load (h : Rel f kept view live s x) {a : Word} {n : ℕ} (ha : Public f a n) :
    x.mem.load a n = Ubpf.load s.mem a n := by
  rw [load_eq]
  exact Memory.load_congr fun k hk => h.mem _ (ha k hk)

theorem Rel.store (h : Rel f kept view live s x) {a : Word} {n : ℕ} (ha : Public f a n) {v v' : Word}
    (hv : ∀ k < n, (v' >>> (8 * k)).setWidth 8 = (v >>> (8 * k)).setWidth 8) (pc : ℕ) :
    Rel f kept view live { s with pc := pc, mem := Ubpf.store s.mem a v n }
      (x.setMem (x.mem.store a v' n)) where
  live_lt := h.live_lt
  reg := h.reg
  rsp := h.rsp
  mem b hb := by
    show x.mem.store a v' n b = Ubpf.store s.mem a v n b
    rw [Memory.store_congr x.mem a hv, store_eq, Memory.store_apply, Memory.store_apply, h.mem b hb]
  saved b hb := by
    show x.mem.store a v' n b = kept b
    rw [Memory.store_apply]
    split
    · rename_i hk
      have hab : a + BitVec.ofNat 64 (b - a).toNat = b := by
        rw [BitVec.ofNat_toNat, BitVec.setWidth_eq, BitVec.add_comm, BitVec.sub_add_cancel]
      exact absurd (.inr (hab.symm ▸ hb)) (ha _ hk)
    · exact h.saved b hb
  world := h.world

theorem signExtend_signExtend (offset : BitVec 16) : (offset.signExtend 32).signExtend 64 =
    offset.signExtend 64 := by
  apply BitVec.eq_of_toInt_eq
  rw [BitVec.toInt_signExtend_of_le (by decide), BitVec.toInt_signExtend_of_le (by decide),
    BitVec.toInt_signExtend_of_le (by decide)]

/-- What `emit_store_imm32` stores is the immediate, as far as it is stored. -/
theorem stored_bytes (sz : Size) (imm : BitVec 32) : ∀ k < sz.bytes,
    (((stored (operandSize sz) imm).signExtend 64) >>> (8 * k)).setWidth 8 =
      ((imm.signExtend 64) >>> (8 * k)).setWidth 8 := by
  intro k hk
  cases sz with
  | w => rfl
  | dw => rfl
  | h =>
    apply BitVec.eq_of_getLsbD_eq
    intro i hi
    have hlt : 8 * k + i < 16 := by
      have hk' : k < 2 := hk
      omega
    simp only [stored, operandSize, BitVec.getLsbD_setWidth, BitVec.getLsbD_ushiftRight,
      BitVec.getLsbD_signExtend]
    simp [hi, hlt, show 8 * k + i < 64 by omega, show 8 * k + i < 32 by omega]
  | b =>
    apply BitVec.eq_of_getLsbD_eq
    intro i hi
    have hlt : 8 * k + i < 8 := by
      have hk' : k < 1 := hk
      omega
    simp only [stored, operandSize, BitVec.getLsbD_setWidth, BitVec.getLsbD_ushiftRight,
      BitVec.getLsbD_signExtend]
    simp [hi, hlt, show 8 * k + i < 64 by omega, show 8 * k + i < 32 by omega]

/-! ### External functions -/

/-- What the calling convention says of a call: registers are kept, and the stack above the return address
is left alone. -/
structure Returns (f : Frame) (reg reg' : Reg → Word) (m m' : X86.Memory) : Prop where
  kept : ∀ q ∈ [rbx, rsp, rbp, r12, r13, r14, r15], reg' q = reg q
  saved : ∀ a, f.Saved a → m' a = m a
  word : ∀ k < 8, m' (reg rsp + BitVec.ofNat 64 k) = m (reg rsp + BitVec.ofNat 64 k)

def argRegs : List Reg := [rdi, rsi, rdx, rcx, r8]

/-- The addresses in the code stand for external functions that do what the host says, with the first
arguments of a call. -/
structure Linked (a : Addresses) (registered : BitVec 32 → Bool)
    (ext : List Call → Call → Mem → BitVec 64 × Mem)
    (callee : Callee ω) (f : Frame) (arity : BitVec 32 → ℕ) (view : List Call → ω → Prop) : Prop where
  call : ∀ calls c mem reg m w, registered c.idx = true → view calls w → reg rsp = f.base - 8 →
    (∀ i < arity c.idx, i < 5 → reg (argRegs.getD i 0) = c.args.getD i 0) → (∀ b, ¬f.Private b → m b = mem b) →
    (callee (a.extFuncs c.idx) reg m w).1 rax = (ext calls c mem).1 ∧
      Returns f reg (callee (a.extFuncs c.idx) reg m w).1 m (callee (a.extFuncs c.idx) reg m w).2.1 ∧
      (∀ b, ¬f.Private b → (callee (a.extFuncs c.idx) reg m w).2.1 b = (ext calls c mem).2 b) ∧
      view (calls ++ [c]) (callee (a.extFuncs c.idx) reg m w).2.2

/-! ### Instructions that go on -/

def sourceOperand (k : Operand) (s : State) (inst : EbpfInst) : BitVec 64 :=
  match k with
  | .imm => inst.imm.signExtend 64
  | .reg => s.reg inst.src

/-- Where compiled code does what the interpreter does: it reads registers whose values are known, and
memory that is not its own; compiled arithmetic agrees, `EBPF_OP_LE` has nothing to cut off, and an unsigned
comparison with a constant does not depend on its sign. -/
structure Portable (f : Frame) (registered : BitVec 32 → Bool) (arity : BitVec 32 → ℕ) (live : List (Fin 16))
    (s : State) (inst : EbpfInst) : Prop where
  known : ∀ r ∈ reads arity inst, r ∈ live
  alu : ∀ wd op k, inst.opcode = .alu wd op k → AluAgrees wd op k (sourceOperand k s inst) inst.imm
  le : inst.opcode = .le → toLe inst.imm (s.reg inst.dst) = s.reg inst.dst
  constant : ∀ c, inst.opcode = .jcc c .imm → c ∈ [Cond.gt, .ge, .lt, .le] → 0 ≤ inst.imm.toInt
  access : ∀ base sz, inst.access? = some (base, sz) →
    base ≠ 12 ∧ Public f (effAddr s base inst.offset) sz.bytes
  call : inst.opcode = .call → registered inst.imm = true

variable {callee : Callee ω}

/-- The rotation and the mask of `EBPF_OP_BE`. -/
theorem rotate16_mask (a : Word) :
    widen false (rotate16 a 8 &&& (0xffff#32).signExtend 64) = swapBytes 2 a := by
  have hswap : swapBytes 2 a = ((a &&& 0xff) <<< 8) ||| ((a >>> 8) &&& 0xff) := by
    show (0 ||| (((a >>> 0) &&& 0xff) <<< 8)) ||| (((a >>> 8) &&& 0xff) <<< 0) = _
    simp
  have hmask : (0xffff#32).signExtend 64 = (BitVec.allOnes 16).setWidth 64 := by decide
  have hlow : (0xff : Word) = (BitVec.allOnes 8).setWidth 64 := by decide
  have hones : 0xffff#64 = (BitVec.allOnes 16).setWidth 64 := by decide
  rw [hswap, hmask, hlow, widen, if_neg Bool.false_ne_true, rotate16, hones]
  apply BitVec.eq_of_getLsbD_eq
  intro i hi
  simp only [BitVec.getLsbD_setWidth, BitVec.getLsbD_and, BitVec.getLsbD_or, BitVec.getLsbD_shiftLeft,
    BitVec.getLsbD_ushiftRight, BitVec.getLsbD_rotateLeft, BitVec.getLsbD_not,
    BitVec.getLsbD_allOnes]
  rcases (by omega : i < 8 ∨ 8 ≤ i ∧ i < 16 ∨ 16 ≤ i) with h | ⟨h, h'⟩ | h
  · simp [hi, h, show i < 16 by omega, show i < 32 by omega, show 8 + i < 16 by omega]
  · simp [hi, h', show ¬i < 8 by omega, show i < 32 by omega, show i - 8 < 8 by omega, show i - 8 < 16 by omega,
      show i - 8 < 64 by omega]
  · simp [hi, show ¬i < 16 by omega, show ¬i < 8 by omega, show ¬i - 8 < 8 by omega]

theorem translateBe_writes (callee : Callee ω) (f : Frame) (x : X86.State ω) (dst : Reg) (imm : BitVec 32) :
    ∃ x', RunsTo callee (translateBe dst imm) x x' none ∧ Writes f x x' dst (toBe imm (x.reg dst)) := by
  rw [translateBe, toBe]
  by_cases h16 : imm = 16
  · rw [if_pos h16, if_pos h16]
    set y := (x.setReg dst (rotate16 (x.reg dst) 8)).setFlags none with hy
    have hmask : effect callee y (.aluImm false .and dst 0xffff#32) =
        some ((y.setReg dst (swapBytes 2 (x.reg dst))).setFlags none) := by
      rw [← rotate16_mask]
      have hself : y.reg dst = rotate16 (x.reg dst) 8 := setReg_self
      rw [← hself]
      rfl
    refine ⟨_, ((decodes_rol16 dst 8#8).runsTo rfl).append
      ((decodes_aluImm rfl false dst 0xffff#32).runsTo hmask), ?_⟩
    exact ⟨setReg_self, fun q hq _ => (setReg_of_ne hq).trans (setReg_of_ne hq), fun _ _ => rfl, rfl⟩
  · rw [if_neg h16, if_neg h16]
    by_cases h32 : imm = 32
    · rw [if_pos (.inl h32), if_pos h32, h32]
      exact ⟨_, (decodes_bswap false dst).runsTo rfl, writes_setReg f x dst _⟩
    · rw [if_neg h32]
      by_cases h64 : imm = 64
      · rw [if_pos (.inr h64), if_pos h64, h64]
        exact ⟨_, (decodes_bswap true dst).runsTo rfl, writes_setReg f x dst _⟩
      · rw [if_neg (not_or_intro h32 h64), if_neg h64]
        exact ⟨x, .nil x, rfl, fun _ _ _ => rfl, fun _ _ => rfl, rfl⟩

/-! ### Jumps -/

def compared (c : Cond) (a b : Word) : Flags := if c = .set then testFlags a b else cmpFlags a b

def ccOfCond : Cond → Cc
  | .eq => .e
  | .gt => .a
  | .ge => .ae
  | .lt => .b
  | .le => .be
  | .set => .ne
  | .ne => .ne
  | .sgt => .g
  | .sge => .ge
  | .slt => .l
  | .sle => .le

theorem ccByte_spec (c : Cond) : ccByte c >>> 4 = 8#8 ∧ ccOf ((ccByte c).toNat % 16) = some (ccOfCond c) := by
  cases c <;> exact ⟨by decide, rfl⟩

theorem digit_cmp : aluOf ((7 : Reg).val % 8) = some .cmp := rfl

theorem translateCmp_runsTo (c : Cond) (k : Operand) (src dst : Reg) (imm : BitVec 32) (x : X86.State ω) :
    RunsTo callee (translateCmp c k src dst imm) x
      (x.setFlags (some (compared c (x.reg dst) (operand k x src imm)))) none := by
  by_cases hset : c = .set
  · rw [compared, if_pos hset, hset]
    cases k with
    | imm => exact (decodes_testImm true dst imm).runsTo rfl
    | reg => exact (decodes_test true src dst).runsTo rfl
  · have hcode : translateCmp c k src dst imm =
        match k with
        | .imm => emitCmpImm32 dst imm
        | .reg => emitCmp src dst := by
      cases c <;> cases k <;> first | rfl | exact absurd rfl hset
    rw [compared, if_neg hset, hcode]
    cases k with
    | imm => exact (decodes_aluImm digit_cmp true dst imm).runsTo rfl
    | reg => exact (decodes_cmp true src dst).runsTo rfl

/-- The unsigned comparisons do not depend on how a constant is extended. -/
theorem setWidth_eq_signExtend {imm : BitVec 32} (h : 0 ≤ imm.toInt) : imm.setWidth 64 = imm.signExtend 64 := by
  apply BitVec.eq_of_toInt_eq
  rw [BitVec.toInt_signExtend_of_le (by decide)]
  have hmsb : imm.toInt = imm.toNat := by
    rw [BitVec.toInt_eq_toNat_cond] at h ⊢
    split_ifs at h ⊢
    · rfl
    · omega
  rw [hmsb, BitVec.toInt_eq_toNat_of_lt, BitVec.toNat_setWidth]
  · omega
  · rw [BitVec.toNat_setWidth]
    omega

/-- The second operand of a comparison, signed and unsigned. -/
def signedWord (k : Operand) (imm : BitVec 32) (r : Word) : Word :=
  match k with
  | .imm => imm.signExtend 64
  | .reg => r

def unsignedWord (k : Operand) (imm : BitVec 32) (r : Word) : Word :=
  match k with
  | .imm => imm.setWidth 64
  | .reg => r

/-- **The conditions of jumps.** -/
theorem cond_holds (c : Cond) (k : Operand) (a : Word) (imm : BitVec 32) (r b : Word)
    (hb : b = signedWord k imm r)
    (hconst : k = .imm → c ∈ [Cond.gt, .ge, .lt, .le] → 0 ≤ imm.toInt) :
    (ccOfCond c).holds (compared c a b) = c.holds k a imm r := by
  have hunsigned : c ∈ [Cond.gt, .ge, .lt, .le] → unsignedWord k imm r = b := by
    intro hc
    rw [hb]
    cases k with
    | imm => exact setWidth_eq_signExtend (hconst rfl hc)
    | reg => rfl
  cases c with
  | eq =>
    rw [hb]
    rfl
  | ne =>
    rw [hb]
    exact (decide_not).symm
  | set =>
    rw [hb]
    exact (decide_not).symm
  | gt =>
    show (!(decide (a < b) || decide (a = b))) = decide (unsignedWord k imm r < a)
    rw [hunsigned (by decide), Bool.eq_iff_iff]
    simp only [Bool.not_eq_true', Bool.or_eq_false_iff, decide_eq_true_eq, decide_eq_false_iff_not]
    constructor <;> intro h <;> bv_omega
  | ge =>
    show (!decide (a < b)) = decide (unsignedWord k imm r ≤ a)
    rw [hunsigned (by decide), Bool.eq_iff_iff]
    simp only [Bool.not_eq_true', decide_eq_true_eq, decide_eq_false_iff_not]
    constructor <;> intro h <;> bv_omega
  | lt =>
    show decide (a < b) = decide (a < unsignedWord k imm r)
    rw [hunsigned (by decide)]
  | le =>
    show (decide (a < b) || decide (a = b)) = decide (a ≤ unsignedWord k imm r)
    rw [hunsigned (by decide), Bool.eq_iff_iff]
    simp only [Bool.or_eq_true, decide_eq_true_eq]
    constructor <;> intro h <;> bv_omega
  | sgt =>
    show (!(decide (a.toInt < b.toInt) || decide (a = b))) = decide ((signedWord k imm r).toInt < a.toInt)
    rw [← hb, Bool.eq_iff_iff]
    simp only [Bool.not_eq_true', Bool.or_eq_false_iff, decide_eq_true_eq, decide_eq_false_iff_not,
      ← BitVec.toInt_inj]
    omega
  | sge =>
    show (!decide (a.toInt < b.toInt)) = decide ((signedWord k imm r).toInt ≤ a.toInt)
    rw [← hb, Bool.eq_iff_iff]
    simp only [Bool.not_eq_true', decide_eq_true_eq, decide_eq_false_iff_not]
    omega
  | slt =>
    show decide (a.toInt < b.toInt) = decide (a.toInt < (signedWord k imm r).toInt)
    rw [← hb]
  | sle =>
    show (decide (a.toInt < b.toInt) || decide (a = b)) = decide (a.toInt ≤ (signedWord k imm r).toInt)
    rw [← hb, Bool.eq_iff_iff]
    simp only [Bool.or_eq_true, decide_eq_true_eq, ← BitVec.toInt_inj]
    omega

theorem jcc_runsTo (callee : Callee ω) (c : Cond) (k : Operand) (src dst : Reg) (imm : BitVec 32)
    (t : BitVec 32) (x : X86.State ω)
    (r : Word) (hr : k = .reg → x.reg src = r)
    (hconst : k = .imm → c ∈ [Cond.gt, .ge, .lt, .le] → 0 ≤ imm.toInt) :
    ∃ fl, RunsTo callee (translateCmp c k src dst imm ++ emitJcc (ccByte c) t) x (x.setFlags fl)
      (if c.holds k (x.reg dst) imm r then some t else none) := by
  obtain ⟨hop, hcc⟩ := ccByte_spec c
  have hb : operand k x src imm = signedWord k imm r := by
    cases k with
    | imm => rfl
    | reg => exact hr rfl
  refine ⟨some (compared c (x.reg dst) (operand k x src imm)),
    (translateCmp_runsTo c k src dst imm x).append ⟨_, encodes_jcc hop hcc t, ?_⟩⟩
  rw [← cond_holds c k (x.reg dst) imm r _ hb hconst]
  show (if (ccOfCond c).holds _ then some (_, some t) else some (_, none)) = _
  split <;> rfl

/-! ### Calls -/

variable {a : Addresses} {registered : BitVec 32 → Bool} {ext : List Call → Call → Mem → BitVec 64 × Mem}
  {arity : BitVec 32 → ℕ}

/-- The code of `EBPF_OP_CALL`. -/
def callCode (target : Word) : Code := emitPush r12 ++ emitMov 9 rcx ++ emitCall target ++ emitPop r12

def beforeCall (x : X86.State ω) (target : Word) : X86.State ω :=
  ((pushed x r12).setReg rcx ((pushed x r12).reg 9)).setReg rax target

def afterCall (callee : Callee ω) (x : X86.State ω) (target : Word) : X86.State ω :=
  let p := beforeCall x target
  let r := callee target p.reg p.mem p.world
  { p with reg := r.1, mem := r.2.1, flags := none, world := r.2.2 }

theorem call_runsTo (target : Word) (x : X86.State ω)
    (hret : Returns f (beforeCall x target).reg (afterCall callee x target).reg (beforeCall x target).mem
      (afterCall callee x target).mem) :
    RunsTo callee (callCode target) x
      (((afterCall callee x target).setReg rsp (x.reg rsp)).setReg r12 (x.reg r12)) none := by
  have hrsp : (beforeCall x target).reg rsp = x.reg rsp - 8 := by
    rw [beforeCall, setReg_of_ne (by decide), setReg_of_ne (by decide), pushed_rsp]
  have hmov : RunsTo callee (emitMov 9 rcx) (pushed x r12)
      ((pushed x r12).setReg rcx ((pushed x r12).reg 9)) none := runsTo_mov 9 rcx _
  have hload : RunsTo callee (emitLoadImm rax target) ((pushed x r12).setReg rcx ((pushed x r12).reg 9))
      (beforeCall x target) none := runsTo_loadImm rax target _
  have hrax : (beforeCall x target).reg rax = target := setReg_self
  have heffect : effect callee (beforeCall x target) (.call rax) = some (afterCall callee x target) := by
    rw [effect, hrax]
    rfl
  have hcall := decodes_callRax.runsTo heffect
  have hsp : (afterCall callee x target).reg rsp = x.reg rsp - 8 := (hret.kept rsp (by decide)).trans hrsp
  have hword : ∀ k < 8, (afterCall callee x target).mem (x.reg rsp - 8 + BitVec.ofNat 64 k) =
      (pushed x r12).mem (x.reg rsp - 8 + BitVec.ofNat 64 k) := fun k hk => by
    have hk' := hret.word k hk
    rwa [hrsp] at hk'
  have hrun := bracket (hmov.append (hload.append hcall)) hsp hword
  have hcode : callCode target = emitPush r12 ++ (emitMov 9 rcx ++ (emitLoadImm rax target ++
      (emit1 0xff#8 ++ emit1 0xd0#8))) ++ emitPop r12 := by
    simp only [callCode, emitCall, List.append_assoc]
  rw [hcode]
  exact hrun

theorem beforeCall_args (h : Rel f kept view live s x) {n : ℕ}
    (hread : ∀ r ∈ ([1, 2, 3, 4, 5] : List (Fin 16)).take n, r ∈ live)
    (target : Word) : ∀ i < n, i < 5 → (beforeCall x target).reg (argRegs.getD i 0) =
      [s.reg 1, s.reg 2, s.reg 3, s.reg 4, s.reg 5].getD i 0 := by
  intro i hi h5
  have hmem : ∀ j : Fin 5, j.val < n → ([1, 2, 3, 4, 5] : List (Fin 16)).getD j.val 0 ∈ live := fun j hj => by
    refine hread _ (List.mem_take_iff_getElem.mpr ⟨j.val, ?_, ?_⟩)
    · have hj5 : j.val < 5 := j.isLt
      exact Nat.lt_min.mpr ⟨hj, hj5⟩
    · exact List.getElem_eq_getD 0
  have hreg : ∀ q, q ≠ rax → q ≠ rcx → q ≠ rsp → (beforeCall x target).reg q = x.reg q := fun q h1 h2 h3 => by
    rw [beforeCall, setReg_of_ne h1, setReg_of_ne h2, pushed_of_ne x h3]
  rcases (by omega : i = 0 ∨ i = 1 ∨ i = 2 ∨ i = 3 ∨ i = 4) with rfl | rfl | rfl | rfl | rfl
  · exact (hreg rdi (by decide) (by decide) (by decide)).trans (h.reg 1 (hmem 0 hi))
  · exact (hreg rsi (by decide) (by decide) (by decide)).trans (h.reg 2 (hmem 1 hi))
  · exact (hreg rdx (by decide) (by decide) (by decide)).trans (h.reg 3 (hmem 2 hi))
  · have hrcx : (beforeCall x target).reg rcx = x.reg 9 := by
      rw [beforeCall, setReg_of_ne (by decide), setReg_self, pushed_of_ne x (by decide)]
    exact hrcx.trans (h.reg 4 (hmem 3 hi))
  · exact (hreg X86.r8 (by decide) (by decide) (by decide)).trans (h.reg 5 (hmem 4 hi))

theorem mapRegister_preserved : ∀ r ∈ preserved, mapRegister r ∈ [rbx, rsp, rbp, r12, r13, r14, r15] ∧
    mapRegister r ≠ rax ∧ r ≠ 0 := by
  decide

/-- **Calls.** -/
theorem call_step (hlink : Linked a registered ext callee f arity view) (h : Rel f kept view live s x)
    {inst : EbpfInst}
    (hregistered : registered inst.imm = true)
    (hread : ∀ r ∈ ([1, 2, 3, 4, 5] : List (Fin 16)).take (arity inst.imm), r ∈ live) (pc : ℕ) :
    ∃ x', RunsTo callee (callCode (a.extFuncs inst.imm)) x x' none ∧
      Rel f kept view (0 :: live.filter (· ∈ preserved))
        { pc := pc
          reg := Function.update s.reg 0
            (ext s.calls ⟨inst.imm, [s.reg 1, s.reg 2, s.reg 3, s.reg 4, s.reg 5]⟩ s.mem).1
          mem := (ext s.calls ⟨inst.imm, [s.reg 1, s.reg 2, s.reg 3, s.reg 4, s.reg 5]⟩ s.mem).2
          calls := s.calls ++ [⟨inst.imm, [s.reg 1, s.reg 2, s.reg 3, s.reg 4, s.reg 5]⟩] } x' := by
  set c : Call := ⟨inst.imm, [s.reg 1, s.reg 2, s.reg 3, s.reg 4, s.reg 5]⟩
  set t := a.extFuncs inst.imm
  set p := beforeCall x t with hp
  set y := afterCall callee x t with hy
  have hrsp : p.reg rsp = f.base - 8 := by
    rw [hp, beforeCall, setReg_of_ne (by decide), setReg_of_ne (by decide), pushed_rsp, h.rsp]
  have hpmem : ∀ b, ¬f.Below b → p.mem b = x.mem b := fun b hb =>
    pushed_mem x r12 b (h.rsp ▸ (f.push_below hb).1)
  have hmem : ∀ b, ¬f.Private b → p.mem b = s.mem b := fun b hb =>
    (hpmem b fun hbelow => hb (.inl hbelow)).trans (h.mem b hb)
  obtain ⟨hrax, hret, hmem', hview⟩ := hlink.call s.calls c s.mem p.reg p.mem p.world hregistered h.world hrsp
    (beforeCall_args h hread t) hmem
  refine ⟨_, call_runsTo t x hret, ⟨fun r hr => ?_, fun r hr => ?_, ?_, hmem', fun b hb => ?_, hview⟩⟩
  · rcases List.mem_cons.mp hr with rfl | hr
    · decide
    · exact h.live_lt r (List.mem_of_mem_filter hr)
  · rcases List.mem_cons.mp hr with rfl | hr
    · show ((y.setReg rsp (x.reg rsp)).setReg r12 (x.reg r12)).reg rax = Function.update s.reg 0 _ 0
      rw [setReg_of_ne (by decide), setReg_of_ne (by decide), Function.update_self]
      exact hrax
    · obtain ⟨hlive, hpres⟩ := List.mem_filter.mp hr
      have hpres' : r ∈ preserved := by simpa using hpres
      obtain ⟨hkept, hne, hr0⟩ := mapRegister_preserved r hpres'
      have hsp := (mapRegister_ne r).2
      show ((y.setReg rsp (x.reg rsp)).setReg r12 (x.reg r12)).reg (mapRegister r) = Function.update s.reg 0 _ r
      rw [Function.update_of_ne hr0, ← h.reg r hlive]
      by_cases h12 : mapRegister r = r12
      · rw [h12, setReg_self]
      · rw [setReg_of_ne h12, setReg_of_ne hsp]
        refine (hret.kept _ hkept).trans ?_
        rw [hp, beforeCall, setReg_of_ne hne, setReg_of_ne (mapRegister_ne r).1, pushed_of_ne x hsp]
  · show ((y.setReg rsp (x.reg rsp)).setReg r12 (x.reg r12)).reg rsp = f.base
    rw [setReg_of_ne (by decide), setReg_self, h.rsp]
  · refine (hret.saved b hb).trans ?_
    rw [hpmem b fun hbelow => f.not_saved_of_below hbelow hb]
    exact h.saved b hb

/-! ### The step -/

section Step

variable {insts : List EbpfInst} {n : ℕ} {inst : EbpfInst} {code : Code}

/-- A jump that is taken, or none. -/
def jumpOf (s : State) (inst : EbpfInst) : Option (BitVec 32) :=
  if inst.taken s then some (BitVec.ofInt 32 (s.pc + inst.offset.toInt + 1)) else none

theorem translateInst_regs {extFuncs : BitVec 32 → Word} {i : ℕ} {next : Option EbpfInst}
    (h : translateInst extFuncs n i inst next = some code) :
    inst.dst.val < registerMapSize ∧ inst.src.val < registerMapSize := by
  rw [translateInst] at h
  split at h
  · cases h
  · omega

theorem operand_eq (hrel : Rel f kept view live s x) (k : Operand) (hsrc : k = .reg → inst.src ∈ live) :
    operand k x (mapRegister inst.src) inst.imm = sourceOperand k s inst := by
  cases k with
  | imm => rfl
  | reg => exact hrel.reg _ (hsrc rfl)

theorem alu_step (hrel : Rel f kept view live s x) (hport : Portable f registered arity live s inst)
    {wd : Width} {op : AluOp} {k : Operand} (hop : inst.opcode = .alu wd op k)
    (hdst : inst.dst.val < registerMapSize)
    (hv : aluResult wd op k (s.reg inst.dst) (sourceOperand k s inst) = .ok v) (pc : ℕ) :
    ∃ x', RunsTo callee (translateAlu s.pc wd op k (mapRegister inst.src) (mapRegister inst.dst) inst.imm) x x'
        none ∧ Rel f kept view (inst.dst :: live) (s.set pc inst.dst v) x' := by
  obtain ⟨hdcx, hdsp⟩ := mapRegister_ne inst.dst
  obtain ⟨hscx, hssp⟩ := mapRegister_ne inst.src
  have hknown := hport.known
  simp only [reads, hop] at hknown
  have hread : (op ≠ .mov → inst.dst ∈ live) ∧ (k = .reg → inst.src ∈ live) := by
    constructor
    · intro hmov
      exact hknown _ (List.mem_append_left _ (by rw [if_neg hmov]; exact List.mem_singleton_self _))
    · intro hk
      exact hknown _ (List.mem_append_right _ (by rw [if_pos hk]; exact List.mem_singleton_self _))
  have hoperand := operand_eq hrel k hread.2
  have hv' : aluResult wd op k (x.reg (mapRegister inst.dst)) (operand k x (mapRegister inst.src) inst.imm) =
      .ok v := by
    rw [hoperand]
    by_cases hmov : op = .mov
    · subst hmov
      cases wd <;> exact hv
    · rw [hrel.reg _ (hread.1 hmov)]
      exact hv
  have hagrees := hport.alu wd op k hop
  rw [← hoperand] at hagrees
  obtain ⟨x', hrun, hwrites⟩ := translateAlu_writes callee s.pc hssp hscx hdcx hdsp hagrees hv' hrel.rsp
  exact ⟨x', hrun, hrel.writes hdst hwrites pc⟩

theorem neg_step (hrel : Rel f kept view live s x) (wide : Bool) (hdst : inst.dst.val < registerMapSize)
    (hread : inst.dst ∈ live) (pc : ℕ) :
    ∃ x', RunsTo callee (emitAlu wide 0xf7#8 3 (mapRegister inst.dst)) x x' none ∧
      Rel f kept view (inst.dst :: live) (s.set pc inst.dst (widen wide (-s.reg inst.dst))) x' := by
  have hwrites := writes_setReg_setFlags f x (mapRegister inst.dst) (widen wide (-s.reg inst.dst)) none
  exact ⟨_, (decodes_neg wide _).runsTo (by rw [effect, hrel.reg _ hread]), hrel.writes hdst hwrites pc⟩

theorem le_step (hrel : Rel f kept view live s x) (hport : Portable f registered arity live s inst)
    (hop : inst.opcode = .le) (hdst : inst.dst.val < registerMapSize) (hread : inst.dst ∈ live) (pc : ℕ) :
    Rel f kept view (inst.dst :: live) (s.set pc inst.dst (toLe inst.imm (s.reg inst.dst))) x := by
  refine hrel.writes hdst ⟨?_, fun _ _ _ => rfl, fun _ _ => rfl, rfl⟩ pc
  rw [hrel.reg _ hread, hport.le hop]

theorem be_step (hrel : Rel f kept view live s x) (hdst : inst.dst.val < registerMapSize)
    (hread : inst.dst ∈ live) (pc : ℕ) :
    ∃ x', RunsTo callee (translateBe (mapRegister inst.dst) inst.imm) x x' none ∧
      Rel f kept view (inst.dst :: live) (s.set pc inst.dst (toBe inst.imm (s.reg inst.dst))) x' := by
  obtain ⟨x', hrun, hwrites⟩ := translateBe_writes callee f x (mapRegister inst.dst) inst.imm
  rw [hrel.reg _ hread] at hwrites
  exact ⟨x', hrun, hrel.writes hdst hwrites pc⟩

theorem jcc_step (hrel : Rel f kept view live s x) (hport : Portable f registered arity live s inst) {c : Cond}
    {k : Operand} (hop : inst.opcode = .jcc c k) (t : BitVec 32) (pc : ℕ) :
    ∃ x', RunsTo callee (translateCmp c k (mapRegister inst.src) (mapRegister inst.dst) inst.imm ++
        emitJcc (ccByte c) t) x x'
        (if c.holds k (s.reg inst.dst) inst.imm (s.reg inst.src) then some t else none) ∧
      Rel f kept view live (s.goto pc) x' := by
  have hknown := hport.known
  simp only [reads, hop] at hknown
  have hreg := hrel.reg _ (hknown inst.dst List.mem_cons_self)
  have hr : k = .reg → x.reg (mapRegister inst.src) = s.reg inst.src := fun hk =>
    hrel.reg _ (hknown _ (List.mem_cons_of_mem _ (by rw [if_pos hk]; exact List.mem_singleton_self _)))
  have hconst : k = .imm → c ∈ [Cond.gt, .ge, .lt, .le] → 0 ≤ inst.imm.toInt := fun hk hc =>
    hport.constant c (hk ▸ hop) hc
  obtain ⟨fl, hrun⟩ := jcc_runsTo callee c k (mapRegister inst.src) (mapRegister inst.dst) inst.imm t x
    (s.reg inst.src) hr hconst
  rw [hreg] at hrun
  exact ⟨_, hrun, hrel.untouched (setFlags_reg fl) (setFlags_mem fl) (setFlags_world fl) pc⟩

theorem ldx_step (hrel : Rel f kept view live s x) (hport : Portable f registered arity live s inst) {sz : Size}
    (hop : inst.opcode = .ldx sz) (hdst : inst.dst.val < registerMapSize)
    (hsrc : inst.src.val < registerMapSize) (pc : ℕ) :
    ∃ x', RunsTo callee (emitLoad (operandSize sz) (mapRegister inst.src) (mapRegister inst.dst)
        (inst.offset.signExtend 32)) x x' none ∧
      Rel f kept view (inst.dst :: live)
        (s.set pc inst.dst (Ubpf.load s.mem (effAddr s inst.src inst.offset) sz.bytes)) x' := by
  have hknown := hport.known
  simp only [reads, hop] at hknown
  have hreg := hrel.reg _ (hknown inst.src (List.mem_singleton_self _))
  obtain ⟨hbase, hpublic⟩ := hport.access inst.src sz (by simp only [EbpfInst.access?, hop])
  have hvalue := hrel.load hpublic
  have heffect : effect callee x (.load (operandSize sz) (mapRegister inst.dst) (mapRegister inst.src)
      (inst.offset.signExtend 32)) = some (x.setReg (mapRegister inst.dst)
        (Ubpf.load s.mem (effAddr s inst.src inst.offset) sz.bytes)) := by
    rw [effect, hreg, signExtend_signExtend, operandSize_bytes]
    exact congrArg (fun v => some (x.setReg (mapRegister inst.dst) v)) hvalue
  exact ⟨_, (decodes_load _ _ _ (mapRegister_base _ hsrc hbase) _).runsTo heffect,
    hrel.writes hdst (writes_setReg f x _ _) pc⟩

theorem st_step (hrel : Rel f kept view live s x) (hport : Portable f registered arity live s inst) {sz : Size}
    (hop : inst.opcode = .st sz) (hdst : inst.dst.val < registerMapSize) (pc : ℕ) :
    ∃ x', RunsTo callee (emitStoreImm32 (operandSize sz) (mapRegister inst.dst) (inst.offset.signExtend 32)
        inst.imm) x x' none ∧
      Rel f kept view live { s with
        pc := pc
        mem := store s.mem (effAddr s inst.dst inst.offset) (inst.imm.signExtend 64) sz.bytes } x' := by
  have hknown := hport.known
  simp only [reads, hop] at hknown
  have hreg := hrel.reg _ (hknown inst.dst (List.mem_singleton_self _))
  obtain ⟨hbase, hpublic⟩ := hport.access inst.dst sz (by simp only [EbpfInst.access?, hop])
  have heffect : effect callee x
    (.storeImm (operandSize sz) (mapRegister inst.dst) (inst.offset.signExtend 32)
      (stored (operandSize sz) inst.imm)) = some (x.setMem (x.mem.store (effAddr s inst.dst inst.offset)
        ((stored (operandSize sz) inst.imm).signExtend 64) sz.bytes)) := by
    rw [effect, hreg, signExtend_signExtend, operandSize_bytes]
    rfl
  exact ⟨_, (decodes_storeImm _ _ (mapRegister_base _ hdst hbase) _ _).runsTo heffect,
    hrel.store hpublic (stored_bytes sz inst.imm) pc⟩

theorem stx_step (hrel : Rel f kept view live s x) (hport : Portable f registered arity live s inst) {sz : Size}
    (hop : inst.opcode = .stx sz) (hdst : inst.dst.val < registerMapSize) (pc : ℕ) :
    ∃ x', RunsTo callee (emitStore (operandSize sz) (mapRegister inst.src) (mapRegister inst.dst)
        (inst.offset.signExtend 32)) x x' none ∧
      Rel f kept view live { s with
        pc := pc, mem := store s.mem (effAddr s inst.dst inst.offset) (s.reg inst.src) sz.bytes } x' := by
  have hknown := hport.known
  simp only [reads, hop] at hknown
  have hreg := hrel.reg _ (hknown inst.dst List.mem_cons_self)
  have hreg' := hrel.reg _ (hknown inst.src (List.mem_cons_of_mem _ (List.mem_singleton_self _)))
  obtain ⟨hbase, hpublic⟩ := hport.access inst.dst sz (by simp only [EbpfInst.access?, hop])
  have heffect : effect callee x (.store (operandSize sz) (mapRegister inst.src) (mapRegister inst.dst)
      (inst.offset.signExtend 32)) = some (x.setMem (x.mem.store (effAddr s inst.dst inst.offset)
        (s.reg inst.src) sz.bytes)) := by
    rw [effect, hreg, hreg', signExtend_signExtend, operandSize_bytes]
    rfl
  exact ⟨_, (decodes_store _ _ _ (mapRegister_base _ hdst hbase) _).runsTo heffect,
    hrel.store hpublic (fun _ _ => rfl) pc⟩

/-- **An instruction that goes on.** -/
theorem step_next (hlink : Linked a registered ext callee f arity view)
    (hcode : translateInst a.extFuncs n s.pc inst insts[incPc s.pc]? = some code)
    (hrel : Rel f kept view live s x) (hport : Portable f registered arity live s inst) {s' : State}
    (hs : execInst (Host.jit registered ext) insts s inst = .next s') :
    ∃ x', RunsTo callee code x x' (jumpOf s inst) ∧ Rel f kept view (liveAfter inst live) s' x' := by
  obtain ⟨hdst, hsrc⟩ := translateInst_regs hcode
  have hregs : ¬(registerMapSize ≤ inst.dst.val ∨ registerMapSize ≤ inst.src.val) := by omega
  have hknown := hport.known
  rw [translateInst, if_neg hregs] at hcode
  unfold execInst at hs
  unfold jumpOf EbpfInst.taken liveAfter
  unfold reads at hknown
  cases hop : inst.opcode with
  | alu wd op k =>
    simp only [hop] at hs hcode
    obtain rfl := Option.some.inj hcode
    split at hs <;> cases hs
    rename_i v heq
    have hv : aluResult wd op k (s.reg inst.dst) (sourceOperand k s inst) = .ok v := by
      cases wd <;> cases k <;> exact heq
    exact alu_step hrel hport hop hdst hv _
  | neg wd =>
    simp only [hop] at hs hcode hknown
    have hread := hknown inst.dst (List.mem_singleton_self _)
    cases wd
    all_goals
      obtain rfl := Option.some.inj hcode
      cases hs
    · exact neg_step hrel false hdst hread _
    · exact neg_step hrel true hdst hread _
  | le =>
    simp only [hop] at hs hcode hknown
    obtain rfl := Option.some.inj hcode
    cases hs
    exact ⟨x, .nil x, le_step hrel hport hop hdst (hknown _ (List.mem_singleton_self _)) _⟩
  | be =>
    simp only [hop] at hs hcode hknown
    obtain rfl := Option.some.inj hcode
    cases hs
    exact be_step hrel hdst (hknown _ (List.mem_singleton_self _)) _
  | ja =>
    simp only [hop] at hs hcode
    obtain rfl := Option.some.inj hcode
    cases hs
    exact ⟨x, ⟨_, encodes_jmp _, rfl⟩, hrel.untouched rfl rfl rfl _⟩
  | jcc c k =>
    simp only [hop] at hs hcode
    obtain rfl := Option.some.inj hcode
    split at hs
    all_goals
      cases hs
      exact jcc_step hrel hport hop _ _
  | ldx sz =>
    simp only [hop] at hs hcode
    obtain rfl := Option.some.inj hcode
    cases hs
    exact ldx_step hrel hport hop hdst hsrc _
  | st sz =>
    simp only [hop] at hs hcode
    obtain rfl := Option.some.inj hcode
    cases hs
    exact st_step hrel hport hop hdst _
  | stx sz =>
    simp only [hop] at hs hcode
    obtain rfl := Option.some.inj hcode
    cases hs
    exact stx_step hrel hport hop hdst _
  | lddw =>
    simp only [hop] at hs hcode
    split at hs
    · cases hs
    · rename_i hi hget
      cases hs
      rw [hget] at hcode
      obtain rfl := Option.some.inj hcode
      exact ⟨_, runsTo_loadImm _ _ x, hrel.writes hdst (writes_setReg f x _ _) _⟩
  | call =>
    simp only [hop] at hs hcode hknown
    have hregistered := hport.call hop
    have hjit : (Host.jit registered ext).registered inst.imm = true := hregistered
    rw [if_pos hjit] at hs
    cases hs
    obtain rfl := Option.some.inj hcode
    exact call_step hlink hrel hregistered hknown _
  | exit =>
    simp only [hop] at hs
    cases hs
  | unknown b =>
    simp only [hop] at hcode
    cases hcode

theorem execInst_exit {h : Host} {r0 : BitVec 64} (hs : execInst h insts s inst = .halt (.exit r0)) :
    inst.opcode = .exit ∧ s.reg 0 = r0 := by
  unfold execInst at hs
  cases hop : inst.opcode with
  | exit =>
    simp only [hop] at hs
    cases hs
    exact ⟨rfl, rfl⟩
  | neg wd => cases wd <;> simp only [hop] at hs <;> cases hs
  | le | be | ja | unknown b =>
    simp only [hop] at hs
    cases hs
  | _ =>
    simp only [hop] at hs
    split at hs <;> cases hs

/-- **The instruction that ends a run.** -/
theorem step_exit (callee : Callee ω)
    (hcode : translateInst a.extFuncs n s.pc inst insts[incPc s.pc]? = some code)
    (hrel : Rel f kept view live s x) (hknown : ∀ r ∈ reads arity inst, r ∈ live) {r0 : BitVec 64} {h : Host}
    (hs : execInst h insts s inst = .halt (.exit r0)) : inst.opcode = .exit ∧ x.reg rax = r0 ∧
      RunsTo callee code x x (if s.pc ≠ n - 1 then some targetPcExit else none) := by
  obtain ⟨hdst, hsrc⟩ := translateInst_regs hcode
  have hregs : ¬(registerMapSize ≤ inst.dst.val ∨ registerMapSize ≤ inst.src.val) := by omega
  obtain ⟨hop, hr0⟩ := execInst_exit hs
  rw [translateInst, if_neg hregs] at hcode
  simp only [hop, reads] at hcode hknown
  obtain rfl := Option.some.inj hcode
  refine ⟨hop, ?_, ?_⟩
  · exact (hrel.reg 0 (hknown 0 (List.mem_singleton_self _))).trans hr0
  · split
    · exact ⟨_, encodes_jmp _, rfl⟩
    · exact .nil x

end Step

end TorEbpf.Ubpf.Jit
