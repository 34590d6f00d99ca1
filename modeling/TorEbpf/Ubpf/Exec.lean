import Mathlib.Data.Int.Notation
import Mathlib.Logic.Function.Basic
import TorEbpf.Lib.Machine
import TorEbpf.Ubpf.Instruction

/-!
# The interpreter

`ubpf_exec_with_arg` as a step machine.  A state holds what the loop of the interpreter keeps: the
16-bit program counter, the sixteen 64-bit registers and the memory, and the history of external
calls.  What surrounds the run is a `Host`: which entries of `ext_funcs` are registered, what the
external functions answer (an oracle that may depend on the whole history), and the runtime bounds
check.  The interpreter uses `boundsCheck`; the JIT, which `exec_loaded_code` uses, has none
(`Host.jit`).

* A step halts with `exit` at `EBPF_OP_EXIT`, with `error` where the interpreter stores a message in
  `error_msg` and returns `UINT64_MAX`, and with `fault` where the behaviour of the C code is
  undefined: a fetch outside `insts`, a call through `NULL`, a division trap.
* Out-of-range shift counts, undefined in C, are taken modulo the width as the x86-64 shifts do.
* Memory is little-endian, as on the only host the JIT is written for.
-/

namespace TorEbpf.Ubpf

open TorEbpf.Lib

def stackSize : ℕ := 2048

def maxExtFuncs : ℕ := 128

abbrev Mem := BitVec 64 → BitVec 8

/-- One external call: the index in `ext_funcs` and the values of `r1` to `r5`. -/
structure Call where
  idx : BitVec 32
  args : List (BitVec 64)
  deriving DecidableEq, Repr

structure State where
  pc : ℕ
  reg : Fin 16 → BitVec 64
  mem : Mem
  calls : List Call

/-- Which access the runtime bounds check refused. -/
inductive AccessKind where
  | load | store
  deriving DecidableEq, Repr

/-- The messages stored in `error_msg`. -/
inductive ExecError where
  | divisionByZero (pc : ℕ)
  | outOfBounds (type : AccessKind) (pc : ℕ) (addr : BitVec 64) (size : ℕ)
  deriving DecidableEq, Repr

inductive Fault where
  | fetch (pc : ℕ)
  | nullCall (idx : BitVec 32)
  | divide
  deriving DecidableEq, Repr

inductive Halt where
  | exit (r0 : BitVec 64)
  | error (e : ExecError)
  | fault (f : Fault)
  deriving DecidableEq, Repr

structure Host where
  registered : BitVec 32 → Bool
  ext : List Call → Call → Mem → BitVec 64 × Mem
  boundsCheck : BitVec 64 → ℕ → Bool

/-- `bounds_check` of the interpreter, for the context `[mem, mem + mem_len)` and the stack.  The
pointer arithmetic wraps. -/
def boundsCheck (mem memLen stack : BitVec 64) (addr : BitVec 64) (size : ℕ) : Bool :=
  (mem ≠ 0 ∧ mem ≤ addr ∧ addr + BitVec.ofNat 64 size ≤ mem + memLen)
    ∨ (stack ≤ addr ∧ addr + BitVec.ofNat 64 size ≤ stack + BitVec.ofNat 64 stackSize)

def Host.interp (registered : BitVec 32 → Bool) (ext : List Call → Call → Mem → BitVec 64 × Mem)
    (mem memLen stack : BitVec 64) : Host :=
  ⟨registered, ext, Ubpf.boundsCheck mem memLen stack⟩

/-- The host of jitted code, which has no runtime bounds check.  Compiled code differs from the interpreter in more than
this, which runs with this host leave out: the constants of unsigned comparisons are sign-extended, in the test of an
address also the size of a heap of `2^31` bytes or more; `EBPF_OP_LE` cuts nothing off; 32-bit moves and shifts to the
left keep upper bits; `muldivmod` goes by the constant where a register is meant; register 12 is no base of an access.
`Portable` says where none of these matters. -/
def Host.jit (registered : BitVec 32 → Bool) (ext : List Call → Call → Mem → BitVec 64 × Mem) :
    Host :=
  ⟨registered, ext, fun _ _ => true⟩

/-! ### Arithmetic -/

def u32 (x : BitVec 64) : BitVec 32 := x.setWidth 32

/-- What an ALU instruction yields. -/
inductive AluResult where
  | ok (v : BitVec 64)
  | divisionByZero
  | trap
  deriving DecidableEq, Repr

/-- `DIV` and `MOD`.  With a register operand the interpreter compares the whole 64-bit divisor with
zero before it divides; with an immediate it divides at once. -/
def divide (k : Operand) (divisor : BitVec 64) (isZero : Bool) (q : BitVec 64) : AluResult :=
  if k = .reg ∧ divisor = 0 then .divisionByZero
  else if isZero then .trap
  else .ok q

/-- The 32-bit operations on the destination `a` and the operand `v`. -/
def alu32 (op : AluOp) (k : Operand) (a v : BitVec 64) : AluResult :=
  match op with
  | .add => .ok ((u32 (a + v)).setWidth 64)
  | .sub => .ok ((u32 (a - v)).setWidth 64)
  | .mul => .ok ((u32 (a * v)).setWidth 64)
  | .div => divide k v (u32 v = 0) ((u32 a / u32 v).setWidth 64)
  | .or => .ok ((u32 (a ||| v)).setWidth 64)
  | .and => .ok ((u32 (a &&& v)).setWidth 64)
  | .lsh => .ok ((u32 (a <<< (v.toNat % 64))).setWidth 64)
  | .rsh => .ok ((u32 a >>> (v.toNat % 32)).setWidth 64)
  | .mod => divide k v (u32 v = 0) ((u32 a % u32 v).setWidth 64)
  | .xor => .ok ((u32 (a ^^^ v)).setWidth 64)
  | .mov => .ok ((u32 v).setWidth 64)
  | .arsh => .ok (((u32 a).sshiftRight (v.toNat % 32)).setWidth 64)

def alu64 (op : AluOp) (k : Operand) (a v : BitVec 64) : AluResult :=
  match op with
  | .add => .ok (a + v)
  | .sub => .ok (a - v)
  | .mul => .ok (a * v)
  | .div => divide k v (v = 0) (a / v)
  | .or => .ok (a ||| v)
  | .and => .ok (a &&& v)
  | .lsh => .ok (a <<< (v.toNat % 64))
  | .rsh => .ok (a >>> (v.toNat % 64))
  | .mod => divide k v (v = 0) (a % v)
  | .xor => .ok (a ^^^ v)
  | .mov => .ok v
  | .arsh => .ok (a.sshiftRight (v.toNat % 64))

/-- Reverse the low `n` bytes of a word. -/
def swapBytes (n : ℕ) (a : BitVec 64) : BitVec 64 :=
  (List.range n).foldl
    (fun acc i => acc ||| (((a >>> (8 * i)) &&& 0xff) <<< (8 * (n - 1 - i)))) 0

/-- `EBPF_OP_LE` on a little-endian host: `htole16`, `htole32` and `htole64` truncate. -/
def toLe (imm : BitVec 32) (a : BitVec 64) : BitVec 64 :=
  if imm = 16 then (a.setWidth 16).setWidth 64
  else if imm = 32 then (a.setWidth 32).setWidth 64
  else a

/-- `EBPF_OP_BE`: `htobe16`, `htobe32` and `htobe64`. -/
def toBe (imm : BitVec 32) (a : BitVec 64) : BitVec 64 :=
  if imm = 16 then swapBytes 2 a
  else if imm = 32 then swapBytes 4 a
  else if imm = 64 then swapBytes 8 a
  else a

/-- The condition of a jump.  The unsigned comparisons cast an immediate to `uint32_t`, the others
extend its sign. -/
def Cond.holds (c : Cond) (k : Operand) (a : BitVec 64) (imm : BitVec 32) (r : BitVec 64) : Bool :=
  let s := match k with
    | .imm => imm.signExtend 64
    | .reg => r
  let u := match k with
    | .imm => imm.setWidth 64
    | .reg => r
  match c with
  | .eq => a = s
  | .ne => a ≠ s
  | .set => a &&& s ≠ 0
  | .gt => u < a
  | .ge => u ≤ a
  | .lt => a < u
  | .le => a ≤ u
  | .sgt => s.toInt < a.toInt
  | .sge => s.toInt ≤ a.toInt
  | .slt => a.toInt < s.toInt
  | .sle => a.toInt ≤ s.toInt

/-! ### Memory -/

/-- Read `n` bytes, the lowest address least significant. -/
def load (mem : Mem) (addr : BitVec 64) : ℕ → BitVec 64
  | 0 => 0
  | n + 1 => (load mem (addr + 1) n <<< 8) ||| (mem addr).setWidth 64

/-- Write the low `n` bytes of a word. -/
def store (mem : Mem) (addr : BitVec 64) (v : BitVec 64) : ℕ → Mem
  | 0 => mem
  | n + 1 => Function.update (store mem (addr + 1) (v >>> 8) n) addr (v.setWidth 8)

/-- The address of a load or store: base register plus signed offset, modulo `2^64`. -/
def effAddr (s : State) (base : Fin 16) (offset : BitVec 16) : BitVec 64 :=
  s.reg base + offset.signExtend 64

/-! ### The step function -/

/-- `pc++` on a `uint16_t`. -/
def incPc (pc : ℕ) : ℕ := (pc + 1) % 65536

/-- `pc += inst.offset` on a `uint16_t`. -/
def jumpPc (pc : ℕ) (offset : BitVec 16) : ℕ := (((pc : ℤ) + offset.toInt) % 65536).toNat

/-- Set a register and continue at `pc`. -/
def State.set (s : State) (pc : ℕ) (r : Fin 16) (v : BitVec 64) : State :=
  { s with pc := pc, reg := Function.update s.reg r v }

/-- Continue at `pc` with nothing else changed. -/
def State.goto (s : State) (pc : ℕ) : State := { s with pc := pc }

/-- The `switch` of `ubpf_exec_with_arg`, for the instruction fetched at `s.pc`. -/
def execInst (h : Host) (insts : List EbpfInst) (s : State) (inst : EbpfInst) :
    Result State Halt :=
  let pc := incPc s.pc
  match inst.opcode with
  | .alu wd op k =>
      let v := match k with
        | .imm => inst.imm.signExtend 64
        | .reg => s.reg inst.src
      let r := match wd with
        | .w32 => alu32 op k (s.reg inst.dst) v
        | .w64 => alu64 op k (s.reg inst.dst) v
      match r with
      | .ok v => .next (s.set pc inst.dst v)
      | .divisionByZero => .halt (.error (.divisionByZero s.pc))
      | .trap => .halt (.fault .divide)
  | .neg .w32 => .next (s.set pc inst.dst ((u32 (-s.reg inst.dst)).setWidth 64))
  | .neg .w64 => .next (s.set pc inst.dst (-s.reg inst.dst))
  | .le => .next (s.set pc inst.dst (toLe inst.imm (s.reg inst.dst)))
  | .be => .next (s.set pc inst.dst (toBe inst.imm (s.reg inst.dst)))
  | .ldx sz =>
      let a := effAddr s inst.src inst.offset
      if h.boundsCheck a sz.bytes then .next (s.set pc inst.dst (load s.mem a sz.bytes))
      else .halt (.error (.outOfBounds .load s.pc a sz.bytes))
  | .st sz =>
      let a := effAddr s inst.dst inst.offset
      if h.boundsCheck a sz.bytes then
        .next { s with pc := pc, mem := store s.mem a (inst.imm.signExtend 64) sz.bytes }
      else .halt (.error (.outOfBounds .store s.pc a sz.bytes))
  | .stx sz =>
      let a := effAddr s inst.dst inst.offset
      if h.boundsCheck a sz.bytes then
        .next { s with pc := pc, mem := store s.mem a (s.reg inst.src) sz.bytes }
      else .halt (.error (.outOfBounds .store s.pc a sz.bytes))
  | .lddw =>
      -- the high half is read from the next instruction, which is skipped
      match insts[pc]? with
      | none => .halt (.fault (.fetch pc))
      | some hi =>
          .next (s.set (incPc pc) inst.dst
            (inst.imm.setWidth 64 ||| (hi.imm.signExtend 64 <<< 32)))
  | .ja => .next (s.goto (jumpPc pc inst.offset))
  | .jcc c k =>
      if c.holds k (s.reg inst.dst) inst.imm (s.reg inst.src) then
        .next (s.goto (jumpPc pc inst.offset))
      else .next (s.goto pc)
  | .exit => .halt (.exit (s.reg 0))
  | .call =>
      if h.registered inst.imm then
        let c : Call := ⟨inst.imm, [s.reg 1, s.reg 2, s.reg 3, s.reg 4, s.reg 5]⟩
        let r := h.ext s.calls c s.mem
        .next { pc := pc, reg := Function.update s.reg 0 r.1, mem := r.2, calls := s.calls ++ [c] }
      else .halt (.fault (.nullCall inst.imm))
  -- the `switch` has no default case
  | .unknown _ => .next (s.goto pc)

/-- One turn of the interpreter's loop. -/
def step (h : Host) (insts : List EbpfInst) (s : State) : Result State Halt :=
  match insts[s.pc]? with
  | none => .halt (.fault (.fetch s.pc))
  | some inst => execInst h insts s inst

/-- The value `ubpf_exec_with_arg` returns, where it returns one. -/
def Halt.returned : Halt → Option (BitVec 64)
  | .exit r0 => some r0
  | .error _ => some (BitVec.allOnes 64)
  | .fault _ => none

theorem step_of_fetch {h : Host} {insts : List EbpfInst} {s : State} {inst : EbpfInst}
    (hf : insts[s.pc]? = some inst) : step h insts s = execInst h insts s inst := by
  simp only [step, hf]

theorem execInst_lddw {h : Host} {insts : List EbpfInst} {s : State} {inst hi : EbpfInst}
    (hl : inst.opcode = .lddw) (hhi : insts[incPc s.pc]? = some hi) :
    execInst h insts s inst = .next (s.set (incPc (incPc s.pc)) inst.dst
      (inst.imm.setWidth 64 ||| (hi.imm.signExtend 64 <<< 32))) := by
  simp only [execInst, hl, hhi]

theorem incPc_of_lt {pc : ℕ} (h : pc + 1 < 65536) : incPc pc = pc + 1 := by
  rw [incPc, Nat.mod_eq_of_lt h]

theorem jumpPc_eq {pc t : ℕ} {offset : BitVec 16} (ht : (t : ℤ) = pc + offset.toInt)
    (hlt : t < 65536) : jumpPc pc offset = t := by
  rw [jumpPc, ← ht]
  omega

/-! ### What a step can do -/

/-- Whether an instruction transfers control to its target. -/
def EbpfInst.taken (inst : EbpfInst) (s : State) : Bool :=
  match inst.opcode with
  | .ja => true
  | .jcc c k => c.holds k (s.reg inst.dst) inst.imm (s.reg inst.src)
  | _ => false

/-- Where control goes: to the target of a jump that is taken, past both halves of an `LDDW`, or to
the next instruction. -/
theorem execInst_pc {h : Host} {insts : List EbpfInst} {s s' : State} {inst : EbpfInst}
    (hs : execInst h insts s inst = .next s') :
    (inst.opcode.isJump = true ∧ inst.taken s = true ∧ s'.pc = jumpPc (incPc s.pc) inst.offset) ∨
    (inst.opcode = .lddw ∧ s'.pc = incPc (incPc s.pc)) ∨
    (inst.opcode ≠ .lddw ∧ inst.opcode ≠ .exit ∧ inst.taken s = false ∧ s'.pc = incPc s.pc) := by
  unfold execInst at hs
  unfold EbpfInst.taken
  cases hop : inst.opcode with
  | alu wd op k =>
    simp only [hop] at hs
    refine .inr (.inr ⟨by simp, by simp, rfl, ?_⟩)
    split at hs <;> cases hs
    rfl
  | neg wd =>
    refine .inr (.inr ⟨by simp, by simp, rfl, ?_⟩)
    cases wd <;> simp only [hop] at hs <;> cases hs <;> rfl
  | jcc c k =>
    simp only [hop] at hs
    split at hs <;> rename_i hc <;> cases hs
    · exact .inl ⟨rfl, hc, rfl⟩
    · exact .inr (.inr ⟨by simp, by simp, by simpa using hc, rfl⟩)
  | ja =>
    simp only [hop] at hs
    cases hs
    exact .inl ⟨rfl, rfl, rfl⟩
  | lddw =>
    simp only [hop] at hs
    split at hs <;> cases hs
    exact .inr (.inl ⟨rfl, rfl⟩)
  | exit => simp only [hop] at hs; cases hs
  | le | be | unknown b =>
    simp only [hop] at hs
    cases hs
    exact .inr (.inr ⟨by simp, by simp, rfl, rfl⟩)
  | ldx sz | st sz | stx sz | call =>
    simp only [hop] at hs
    split at hs <;> cases hs
    exact .inr (.inr ⟨by simp, by simp, rfl, rfl⟩)

/-- **Frame.**  A step writes `r0` at most by a call, and otherwise only the destination; a store
leaves the registers alone. -/
theorem execInst_reg {h : Host} {insts : List EbpfInst} {s s' : State} {inst : EbpfInst}
    (hs : execInst h insts s inst = .next s') {r : Fin 16} (hr : r ≠ 0)
    (hd : r ≠ inst.dst ∨ inst.opcode.isStore = true) : s'.reg r = s.reg r := by
  have hset : ∀ pc v, r ≠ inst.dst → (s.set pc inst.dst v).reg r = s.reg r := by
    intro pc v hne
    exact Function.update_of_ne hne _ _
  unfold execInst at hs
  cases hop : inst.opcode with
  | alu wd op k =>
    simp only [hop] at hs
    split at hs <;> cases hs
    exact hset _ _ (by simpa [hop, Opcode.isStore] using hd)
  | neg wd =>
    have hne : r ≠ inst.dst := by simpa [hop, Opcode.isStore] using hd
    cases wd <;> simp only [hop] at hs <;> cases hs <;> exact hset _ _ hne
  | le | be =>
    simp only [hop] at hs
    cases hs
    exact hset _ _ (by simpa [hop, Opcode.isStore] using hd)
  | ldx sz | lddw =>
    simp only [hop] at hs
    split at hs <;> cases hs
    exact hset _ _ (by simpa [hop, Opcode.isStore] using hd)
  | st sz | stx sz =>
    simp only [hop] at hs
    split at hs <;> cases hs
    rfl
  | ja | unknown b => simp only [hop] at hs; cases hs; rfl
  | jcc c k => simp only [hop] at hs; split at hs <;> cases hs <;> rfl
  | exit => simp only [hop] at hs; cases hs
  | call =>
    simp only [hop] at hs
    split at hs <;> cases hs
    exact Function.update_of_ne hr _ _

/-! ### The runtime check -/

/-- Without its check the interpreter does the same, unless the check ends the run. -/
theorem execInst_interp (registered : BitVec 32 → Bool) (ext : List Call → Call → Mem → BitVec 64 × Mem)
    (mem memLen stack : BitVec 64) (insts : List EbpfInst) (s : State) (inst : EbpfInst) :
    execInst (Host.interp registered ext mem memLen stack) insts s inst =
        execInst (Host.jit registered ext) insts s inst ∨
      ∃ type pc addr size, execInst (Host.interp registered ext mem memLen stack) insts s inst =
        .halt (.error (.outOfBounds type pc addr size)) := by
  unfold execInst Host.interp Host.jit
  cases inst.opcode with
  | ldx sz =>
    dsimp only
    split
    · exact .inl rfl
    · exact .inr ⟨_, _, _, _, rfl⟩
  | st sz =>
    dsimp only
    split
    · exact .inl rfl
    · exact .inr ⟨_, _, _, _, rfl⟩
  | stx sz =>
    dsimp only
    split
    · exact .inl rfl
    · exact .inr ⟨_, _, _, _, rfl⟩
  | neg wd => cases wd <;> exact .inl rfl
  | _ => exact .inl rfl

/-- **The runtime check** can only end a run: what the interpreter returns with it, it returns without it. -/
theorem run_interp {registered : BitVec 32 → Bool} {ext : List Call → Call → Mem → BitVec 64 × Mem}
    {mem memLen stack : BitVec 64} {insts : List EbpfInst} {n : ℕ} : ∀ {s : State} {r0 : BitVec 64},
    run (step (Host.interp registered ext mem memLen stack) insts) n s = .halt (.exit r0) →
      run (step (Host.jit registered ext) insts) n s = .halt (.exit r0) := by
  induction n with
  | zero =>
    intro s r0 h
    cases h
  | succ n ih =>
    intro s r0 h
    cases hget : insts[s.pc]? with
    | none =>
      have hfetch : ∀ h : Host, step h insts s = .halt (.fault (.fetch s.pc)) := fun h => by simp only [step, hget]
      rw [run_succ_of_halt (hfetch _)] at h
      cases h
    | some inst =>
      have hstep : step (Host.interp registered ext mem memLen stack) insts s =
          execInst (Host.interp registered ext mem memLen stack) insts s inst := step_of_fetch hget
      rcases execInst_interp registered ext mem memLen stack insts s inst with heq | ⟨_, _, _, _, herror⟩
      · rw [heq, ← step_of_fetch hget] at hstep
        cases hs : step (Host.jit registered ext) insts s with
        | halt o =>
          rw [run_succ_of_halt (hstep.trans hs)] at h
          rw [run_succ_of_halt hs]
          exact h
        | next s' =>
          rw [run_succ_of_next (hstep.trans hs)] at h
          rw [run_succ_of_next hs]
          exact ih h
      · rw [run_succ_of_halt (hstep.trans herror)] at h
        cases h

end TorEbpf.Ubpf
