import TorEbpf.Lib.X86
import TorEbpf.Ubpf.Validate

/-!
# The compiler

`ubpf_jit_x86_64.c` with the code generation functions of its header.  Every one of them appends to the
buffer, so it is the `Code` that it appends: bytes, and the four bytes of a `struct jump`, which
`resolve_jumps` fills in when all places are known.

* `emit1` to `emitJmp` — the code generation functions;
* `muldivmod`, `translateInst` — what an instruction is compiled to;
* `translate`, `resolveJumps`, `ubpfCompile` — the program: prologue, instructions, epilogue and the
  handler for divisions by zero.
-/

namespace TorEbpf.Ubpf.Jit

open TorEbpf.Lib
open TorEbpf.Lib.X86 (Byte Word Reg rax rcx rdx rbx rsp rbp rsi rdi r12 r13 r14 r15)

/-! ### Code generation -/

/-- What stands in the buffer: a byte, or a `struct jump` with its target. -/
inductive Piece where
  | byte (x : Byte)
  | jump (targetPc : BitVec 32)
  deriving DecidableEq

abbrev Code := List Piece

def emit1 (x : Byte) : Code := [.byte x]

def emit2 (x : BitVec 16) : Code := emit1 (x.setWidth 8) ++ emit1 ((x >>> 8).setWidth 8)

def emit4 (x : BitVec 32) : Code := emit2 (x.setWidth 16) ++ emit2 ((x >>> 16).setWidth 16)

def emit8 (x : Word) : Code := emit4 (x.setWidth 32) ++ emit4 ((x >>> 32).setWidth 32)

def emitJumpOffset (targetPc : BitVec 32) : Code := [.jump targetPc]

/-- The byte of `emit_modrm`. -/
def modrm (mod : Byte) (r m : Reg) : Byte :=
  (mod &&& 0xc0#8) ||| (BitVec.ofNat 8 (r.val % 8) <<< 3) ||| BitVec.ofNat 8 (m.val % 8)

def emitModrm (mod : Byte) (r m : Reg) : Code := emit1 (modrm mod r m)

def emitModrmReg2reg (r m : Reg) : Code := emitModrm 0xc0#8 r m

def emitModrmAndDisplacement (r m : Reg) (d : BitVec 32) : Code :=
  if d = 0 ∧ m.val % 8 ≠ 5 then emitModrm 0x00#8 r m
  else if -128 ≤ d.toInt ∧ d.toInt ≤ 127 then emitModrm 0x40#8 r m ++ emit1 (d.setWidth 8)
  else emitModrm 0x80#8 r m ++ emit4 d

/-- The byte of `emit_rex`. -/
def rex (w r x b : Bool) : Byte :=
  0x40#8 ||| ((BitVec.ofBool w).setWidth 8 <<< 3) ||| ((BitVec.ofBool r).setWidth 8 <<< 2) |||
    ((BitVec.ofBool x).setWidth 8 <<< 1) ||| (BitVec.ofBool b).setWidth 8

def emitRex (w r x b : Bool) : Code := emit1 (rex w r x b)

def top (r : Reg) : Bool := 8 ≤ r.val

def emitBasicRex (w : Bool) (src dst : Reg) : Code :=
  if w ∨ top src ∨ top dst then emitRex w (top src) false (top dst) else []

def emitPush (r : Reg) : Code := emitBasicRex false 0 r ++ emit1 (0x50#8 ||| BitVec.ofNat 8 (r.val % 8))

def emitPop (r : Reg) : Code := emitBasicRex false 0 r ++ emit1 (0x58#8 ||| BitVec.ofNat 8 (r.val % 8))

/-- `emit_alu32` and `emit_alu64`. -/
def emitAlu (w : Bool) (op : Byte) (src dst : Reg) : Code :=
  emitBasicRex w src dst ++ emit1 op ++ emitModrmReg2reg src dst

def emitAlu32 (op : Byte) (src dst : Reg) : Code := emitAlu false op src dst

def emitAlu64 (op : Byte) (src dst : Reg) : Code := emitAlu true op src dst

def emitAlu32Imm32 (op : Byte) (src dst : Reg) (imm : BitVec 32) : Code := emitAlu32 op src dst ++ emit4 imm

def emitAlu32Imm8 (op : Byte) (src dst : Reg) (imm : Byte) : Code := emitAlu32 op src dst ++ emit1 imm

def emitAlu64Imm32 (op : Byte) (src dst : Reg) (imm : BitVec 32) : Code := emitAlu64 op src dst ++ emit4 imm

def emitMov (src dst : Reg) : Code := emitAlu64 0x89#8 src dst

def emitCmpImm32 (dst : Reg) (imm : BitVec 32) : Code := emitAlu64Imm32 0x81#8 7 dst imm

def emitCmp (src dst : Reg) : Code := emitAlu64 0x39#8 src dst

def emitJcc (code : Byte) (targetPc : BitVec 32) : Code := emit1 0x0f#8 ++ emit1 code ++ emitJumpOffset targetPc

def emitLoad (size : X86.Size) (src dst : Reg) (offset : BitVec 32) : Code :=
  emitBasicRex (size = .s64) dst src ++
    (match size with
      | .s8 => emit1 0x0f#8 ++ emit1 0xb6#8
      | .s16 => emit1 0x0f#8 ++ emit1 0xb7#8
      | .s32 | .s64 => emit1 0x8b#8) ++
    emitModrmAndDisplacement dst src offset

def emitLoadImm (dst : Reg) (imm : Word) : Code :=
  if -2147483648 ≤ imm.toInt ∧ imm.toInt ≤ 2147483647 then emitAlu64Imm32 0xc7#8 0 dst (imm.setWidth 32)
  else emitBasicRex true 0 dst ++ emit1 (0xb8#8 ||| BitVec.ofNat 8 (dst.val % 8)) ++ emit8 imm

def emitStore (size : X86.Size) (src dst : Reg) (offset : BitVec 32) : Code :=
  (if size = .s16 then emit1 0x66#8 else []) ++
    (if size = .s64 ∨ top src ∨ top dst ∨ size = .s8 then emitRex (size = .s64) (top src) false (top dst)
      else []) ++
    emit1 (if size = .s8 then 0x88#8 else 0x89#8) ++ emitModrmAndDisplacement src dst offset

/-- The immediate of `emit_store_imm32`. -/
def emitStoreTail (size : X86.Size) (imm : BitVec 32) : Code :=
  match size with
  | .s32 | .s64 => emit4 imm
  | .s16 => emit2 (imm.setWidth 16)
  | .s8 => emit1 (imm.setWidth 8)

def emitStoreImm32 (size : X86.Size) (dst : Reg) (offset imm : BitVec 32) : Code :=
  (if size = .s16 then emit1 0x66#8 else []) ++ emitBasicRex (size = .s64) 0 dst ++
    emit1 (if size = .s8 then 0xc6#8 else 0xc7#8) ++ emitModrmAndDisplacement 0 dst offset ++
    emitStoreTail size imm

def emitCall (target : Word) : Code := emitLoadImm rax target ++ emit1 0xff#8 ++ emit1 0xd0#8

def emitJmp (targetPc : BitVec 32) : Code := emit1 0xe9#8 ++ emitJumpOffset targetPc

/-! ### Instructions -/

def registerMapSize : ℕ := 13

def registerMap : List Reg := [0, 7, 6, 2, 9, 8, 3, 13, 14, 15, 5, 10, 12]

/-- `map_register`, where its assertion holds. -/
def mapRegister (r : Fin 16) : Reg := registerMap.getD (r.val % registerMapSize) 0

def targetPcExit : BitVec 32 := -1

def targetPcDivByZero : BitVec 32 := -2

/-- The test of a divisor in `muldivmod`. -/
def emitDivisorTest (pc : ℕ) (is64 reg : Bool) (src : Reg) (imm : BitVec 32) : Code :=
  emitLoadImm rcx (BitVec.ofNat 64 pc) ++
    (if reg && is64 then emitAlu64 0x85#8 src src
      else if reg then emitAlu32 0x85#8 src src
      else emitLoadImm src (imm.signExtend 64) ++ emitAlu32 0x85#8 src src) ++
    emitJcc 0x84#8 targetPcDivByZero

/-- `muldivmod`; the operation is a multiplication where it is neither of the other two. -/
def muldivmod (pc : ℕ) (wd : Width) (op : AluOp) (k : Operand) (src dst : Reg) (imm : BitVec 32) : Code :=
  let mul : Bool := op = .mul
  let div : Bool := op = .div
  let mod : Bool := op = .mod
  let is64 : Bool := wd = .w64
  let reg : Bool := k = .reg
  (if (div || mod) && (reg || imm = 0) then emitDivisorTest pc is64 reg src imm else []) ++
    (if dst ≠ rax then emitPush rax else []) ++
    (if dst ≠ rdx then emitPush rdx else []) ++
    (if imm ≠ 0 then emitLoadImm rcx (imm.signExtend 64) else emitMov src rcx) ++
    emitMov dst rax ++
    (if div || mod then emitAlu32 0x31#8 rdx rdx else []) ++
    (if is64 then emitRex true false false false else []) ++
    emitAlu32 0xf7#8 (if mul then 4 else 6) rcx ++
    (if dst ≠ rdx then (if mod then emitMov rdx dst else []) ++ emitPop rdx else []) ++
    (if dst ≠ rax then (if div || mul then emitMov rax dst else []) ++ emitPop rax else [])

def aluByte : AluOp → Byte
  | .add => 0x01#8
  | .sub => 0x29#8
  | .or => 0x09#8
  | .and => 0x21#8
  | .xor => 0x31#8
  | _ => 0x00#8

/-- The digit of an operation with an immediate, or of a shift. -/
def aluDigit : AluOp → Reg
  | .sub => 5
  | .or => 1
  | .and => 4
  | .xor => 6
  | .lsh => 4
  | .rsh => 5
  | .arsh => 7
  | _ => 0

/-- The code of a condition in `emit_jcc`. -/
def ccByte : Cond → Byte
  | .eq => 0x84#8
  | .gt => 0x87#8
  | .ge => 0x83#8
  | .lt => 0x82#8
  | .le => 0x86#8
  | .set => 0x85#8
  | .ne => 0x85#8
  | .sgt => 0x8f#8
  | .sge => 0x8d#8
  | .slt => 0x8c#8
  | .sle => 0x8e#8

/-- The arithmetic cases of `translate`: the two widths differ in `emit_alu32` and `emit_alu64`, and in
the way an immediate is moved. -/
def translateAlu (pc : ℕ) (wd : Width) (op : AluOp) (k : Operand) (src dst : Reg) (imm : BitVec 32) : Code :=
  let w : Bool := wd = .w64
  match op with
  | .mul | .div | .mod => muldivmod pc wd op k src dst imm
  | .add | .sub | .or | .and | .xor =>
      match k with
      | .imm => emitAlu w 0x81#8 (aluDigit op) dst ++ emit4 imm
      | .reg => emitAlu w (aluByte op) src dst
  | .lsh | .rsh | .arsh =>
      match k with
      | .imm => emitAlu w 0xc1#8 (aluDigit op) dst ++ emit1 (imm.setWidth 8)
      | .reg => emitMov src rcx ++ emitAlu w 0xd3#8 (aluDigit op) dst
  | .mov =>
      match k with
      | .imm =>
          match wd with
          | .w32 => emitAlu32Imm32 0xc7#8 0 dst imm
          | .w64 => emitLoadImm dst (imm.signExtend 64)
      | .reg => emitMov src dst

/-- `EBPF_OP_BE`. -/
def translateBe (dst : Reg) (imm : BitVec 32) : Code :=
  if imm = 16 then emit1 0x66#8 ++ emitAlu32Imm8 0xc1#8 0 dst 8#8 ++ emitAlu32Imm32 0x81#8 4 dst 0xffff#32
  else if imm = 32 ∨ imm = 64 then
    emitBasicRex (imm = 64) 0 dst ++ emit1 0x0f#8 ++ emit1 (0xc8#8 ||| BitVec.ofNat 8 (dst.val % 8))
  else []

def translateCmp (c : Cond) (k : Operand) (src dst : Reg) (imm : BitVec 32) : Code :=
  match c, k with
  | .set, .imm => emitAlu64Imm32 0xf7#8 0 dst imm
  | .set, .reg => emitAlu64 0x85#8 src dst
  | _, .imm => emitCmpImm32 dst imm
  | _, .reg => emitCmp src dst

/-- `enum operand_size` of an access. -/
def operandSize : Size → X86.Size
  | .w => .s32
  | .h => .s16
  | .b => .s8
  | .dw => .s64

/-- The constant of an `LDDW`. -/
def lddwImm (inst inst2 : EbpfInst) : BitVec 64 := inst.imm.setWidth 64 ||| (inst2.imm.signExtend 64 <<< 32)

/-- The `switch` of `translate`, for the instruction `i` of `numInsts` and what is behind it; `none` where
an assertion of `map_register` fails, where the opcode is unknown, or where an `LDDW` ends the program. -/
def translateInst (extFuncs : BitVec 32 → Word) (numInsts i : ℕ) (inst : EbpfInst) (next : Option EbpfInst) :
    Option Code :=
  let dst := mapRegister inst.dst
  let src := mapRegister inst.src
  let targetPc := BitVec.ofInt 32 (i + inst.offset.toInt + 1)
  if registerMapSize ≤ inst.dst.val ∨ registerMapSize ≤ inst.src.val then none
  else
    match inst.opcode with
    | .alu wd op k => some (translateAlu i wd op k src dst inst.imm)
    | .neg .w32 => some (emitAlu32 0xf7#8 3 dst)
    | .neg .w64 => some (emitAlu64 0xf7#8 3 dst)
    | .le => some []
    | .be => some (translateBe dst inst.imm)
    | .ja => some (emitJmp targetPc)
    | .jcc c k => some (translateCmp c k src dst inst.imm ++ emitJcc (ccByte c) targetPc)
    | .call => some (emitPush r12 ++ emitMov 9 rcx ++ emitCall (extFuncs inst.imm) ++ emitPop r12)
    | .exit => some (if i ≠ numInsts - 1 then emitJmp targetPcExit else [])
    | .ldx sz => some (emitLoad (operandSize sz) src dst (inst.offset.signExtend 32))
    | .st sz => some (emitStoreImm32 (operandSize sz) dst (inst.offset.signExtend 32) inst.imm)
    | .stx sz => some (emitStore (operandSize sz) src dst (inst.offset.signExtend 32))
    | .lddw => next.map fun inst2 => emitLoadImm dst (lddwImm inst inst2)
    | .unknown _ => none

/-! ### Programs -/

def Piece.size : Piece → ℕ
  | .byte _ => 1
  | .jump _ => 4

def codeSize (c : Code) : ℕ := (c.map Piece.size).sum

def prologue : Code :=
  emitPush rbp ++ emitPush rbx ++ emitPush r12 ++ emitPush r13 ++ emitPush r14 ++ emitPush r15 ++
    (if mapRegister 1 ≠ rdi then emitMov rdi (mapRegister 1) else []) ++
    emitMov rsp (mapRegister 10) ++ emitAlu64Imm32 0x81#8 5 rsp (BitVec.ofNat 32 stackSize)

def epilogue : Code :=
  (if mapRegister 0 ≠ rax then emitMov (mapRegister 0) rax else []) ++
    emitAlu64Imm32 0x81#8 0 rsp (BitVec.ofNat 32 stackSize) ++
    emitPop r15 ++ emitPop r14 ++ emitPop r13 ++ emitPop r12 ++ emitPop rbx ++ emitPop rbp ++ emit1 0xc3#8

/-- The handler for divisions by zero; `stderr`, the format and `fprintf` are addresses. -/
def divByZeroHandler (stderr fmt fprintf : Word) : Code :=
  emitLoadImm rdi stderr ++ emitLoadImm rsi fmt ++ emitMov rcx rdx ++ emitCall fprintf ++
    emitLoadImm (mapRegister 0) (-1) ++ emitJmp targetPcExit

/-- The loop of `translate`: the instructions with their indices. -/
def translateLoop (extFuncs : BitVec 32 → Word) (numInsts : ℕ) :
    ℕ → List EbpfInst → Option (List (ℕ × Code))
  | _, [] => some []
  | i, inst :: rest =>
      match translateInst extFuncs numInsts i inst rest.head? with
      | none => none
      | some code =>
          match inst.opcode, rest with
          | .lddw, _ :: rest' => (translateLoop extFuncs numInsts (i + 2) rest').map ((i, code) :: ·)
          | _, rest => (translateLoop extFuncs numInsts (i + 1) rest).map ((i, code) :: ·)

/-- `struct jit_state` behind `translate`: the buffer and the places. -/
structure JitState where
  buf : Code
  pcLocs : ℕ → ℕ
  exitLoc : ℕ
  divByZeroLoc : ℕ

/-- The places of the instructions: zero where none begins. -/
def pcLocsFrom : ℕ → List (ℕ × Code) → ℕ → ℕ
  | _, [], _ => 0
  | offset, (i, code) :: chunks, pc => if pc = i then offset else pcLocsFrom (offset + codeSize code) chunks pc

/-- The addresses that the compiled code uses. -/
structure Addresses where
  extFuncs : BitVec 32 → Word
  stderr : Word
  divByZeroFmt : Word
  fprintf : Word

def translate (a : Addresses) (insts : List EbpfInst) : Option JitState :=
  (translateLoop a.extFuncs insts.length 0 insts).map fun chunks =>
    let body := chunks.flatMap (·.2)
    { buf := prologue ++ body ++ epilogue ++ divByZeroHandler a.stderr a.divByZeroFmt a.fprintf
      pcLocs := pcLocsFrom (codeSize prologue) chunks
      exitLoc := codeSize prologue + codeSize body
      divByZeroLoc := codeSize prologue + codeSize body + codeSize epilogue }

def JitState.targetLoc (state : JitState) (targetPc : BitVec 32) : ℕ :=
  if targetPc = targetPcExit then state.exitLoc
  else if targetPc = targetPcDivByZero then state.divByZeroLoc
  else state.pcLocs targetPc.toNat

/-- `resolve_jumps`: the bytes of the code at a place. -/
def resolveJumps (state : JitState) : ℕ → Code → List Byte
  | _, [] => []
  | offset, .byte x :: code => x :: resolveJumps state (offset + 1) code
  | offset, .jump targetPc :: code =>
      let rel := BitVec.ofNat 32 (state.targetLoc targetPc) - BitVec.ofNat 32 (offset + 4)
      rel.setWidth 8 :: (rel >>> 8).setWidth 8 :: (rel >>> 16).setWidth 8 :: (rel >>> 24).setWidth 8 ::
        resolveJumps state (offset + 4) code

def bufferSize : ℕ := 4 * 65536

/-- `ubpf_compile`: the code; `none` where no code was loaded, where `translate` fails, or where the buffer
is too small, which is a failed assertion of `emit_bytes`. -/
def ubpfCompile (a : Addresses) (vm : UbpfVm) : Option (List Byte) :=
  vm.insts.bind fun insts =>
    (translate a (insts.take vm.numInsts)).bind fun state =>
      if codeSize state.buf ≤ bufferSize then some (resolveJumps state 0 state.buf) else none

end TorEbpf.Ubpf.Jit
