import Mathlib.Data.BitVec
import TorEbpf.Lib.Machine

/-!
# A part of the x86-64 instruction set

The 64-bit machine on byte-addressed memory, with the integer instructions that compilers of small
languages use: arithmetic between registers and with immediates, shifts, loads and stores with a
displacement, the stack, near jumps, and calls of code that is not looked into.

* `decode` — an instruction from its bytes: the operand size prefix, REX, the opcode, ModRM, and what
  follows.  What is not here (SIB, addresses relative to `rip`, other opcodes) is not decoded;
* `exec` — what an instruction does.  Flags are kept as the conditions they make up, and only after a
  comparison: an instruction that leaves others leaves `none`;
* `step` — an instruction is fetched from the code, which is not in memory, and executed;
* `Placed.reaches` — instructions and jumps to labels that stand in the code are executed.
-/

namespace TorEbpf.Lib.X86

abbrev Word := BitVec 64

abbrev Byte := BitVec 8

abbrev Reg := Fin 16

abbrev rax : Reg := 0
abbrev rcx : Reg := 1
abbrev rdx : Reg := 2
abbrev rbx : Reg := 3
abbrev rsp : Reg := 4
abbrev rbp : Reg := 5
abbrev rsi : Reg := 6
abbrev rdi : Reg := 7
abbrev r8 : Reg := 8
abbrev r9 : Reg := 9
abbrev r10 : Reg := 10
abbrev r11 : Reg := 11
abbrev r12 : Reg := 12
abbrev r13 : Reg := 13
abbrev r14 : Reg := 14
abbrev r15 : Reg := 15

/-! ### Instructions -/

/-- The operations with two operands that share their encodings. -/
inductive Alu where
  | add | or | and | sub | xor | cmp
  deriving DecidableEq

inductive Shift where
  | shl | shr | sar
  deriving DecidableEq

inductive Cc where
  | b | ae | e | ne | be | a | l | ge | le | g
  deriving DecidableEq

inductive Size where
  | s8 | s16 | s32 | s64
  deriving DecidableEq

def Size.bytes : Size → ℕ
  | .s8 => 1
  | .s16 => 2
  | .s32 => 4
  | .s64 => 8

/-- Instructions; `w` is whether 64 bits are meant, and not 32. -/
inductive Instr where
  | alu (w : Bool) (op : Alu) (dst src : Reg)
  | aluImm (w : Bool) (op : Alu) (dst : Reg) (imm : BitVec 32)
  | test (w : Bool) (dst src : Reg)
  | testImm (w : Bool) (dst : Reg) (imm : BitVec 32)
  | neg (w : Bool) (dst : Reg)
  | mul (w : Bool) (src : Reg)
  | div (w : Bool) (src : Reg)
  | mov (w : Bool) (dst src : Reg)
  | movImm (w : Bool) (dst : Reg) (imm : BitVec 32)
  | movabs (dst : Reg) (imm : Word)
  | shiftImm (w : Bool) (op : Shift) (dst : Reg) (count : Byte)
  | shiftCl (w : Bool) (op : Shift) (dst : Reg)
  | rol16 (dst : Reg) (count : Byte)
  | bswap (w : Bool) (dst : Reg)
  | load (size : Size) (dst base : Reg) (disp : BitVec 32)
  | store (size : Size) (src base : Reg) (disp : BitVec 32)
  | storeImm (size : Size) (base : Reg) (disp imm : BitVec 32)
  | push (r : Reg)
  | pop (r : Reg)
  | jmp (rel : BitVec 32)
  | jcc (cc : Cc) (rel : BitVec 32)
  | call (r : Reg)
  | ret
  deriving DecidableEq

/-! ### Decoding -/

structure Rex where
  present : Bool
  w : Bool
  r : Bool
  b : Bool
  deriving DecidableEq

def Rex.none : Rex := ⟨false, false, false, false⟩

def decodeRex : List Byte → Rex × List Byte
  | [] => (Rex.none, [])
  | c :: rest =>
      if c >>> 4 = 4#8 then (⟨true, c.getLsbD 3, c.getLsbD 2, c.getLsbD 0⟩, rest) else (Rex.none, c :: rest)

/-- The operand size prefix, and REX behind it. -/
def decodePrefix : List Byte → Bool × Rex × List Byte
  | [] => (false, Rex.none, [])
  | c :: rest => if c = 0x66#8 then (true, decodeRex rest) else (false, decodeRex (c :: rest))

/-- A register number of three bits, with the one of REX. -/
def extend (ext : Bool) (n : ℕ) : Reg := ⟨(if ext then 8 else 0) + n % 8, by split <;> omega⟩

/-- The field `mod` of a ModRM byte. -/
def modOf (m : Byte) : ℕ := m.toNat / 64

/-- The field `reg` of a ModRM byte, as a number. -/
def digitOf (m : Byte) : ℕ := m.toNat / 8 % 8

def Rex.reg (rex : Rex) (m : Byte) : Reg := extend rex.r (digitOf m)

def Rex.rm (rex : Rex) (m : Byte) : Reg := extend rex.b m.toNat

def imm8 : List Byte → Option (Byte × List Byte)
  | a :: rest => some (a, rest)
  | [] => Option.none

def imm16 : List Byte → Option (BitVec 16 × List Byte)
  | a :: b :: rest => some (b ++ a, rest)
  | _ => Option.none

def imm32 : List Byte → Option (BitVec 32 × List Byte)
  | a :: b :: c :: d :: rest => some (d ++ c ++ b ++ a, rest)
  | _ => Option.none

def imm64 (l : List Byte) : Option (Word × List Byte) := do
  let (lo, l) ← imm32 l
  let (hi, l) ← imm32 l
  return (hi ++ lo, l)

/-- A memory operand: the register and the displacement. -/
def decodeMem (rex : Rex) (m : Byte) (l : List Byte) : Option (Reg × BitVec 32 × List Byte) :=
  -- 4 stands for a SIB byte
  if m.toNat % 8 = 4 then Option.none
  else if modOf m = 0 then if m.toNat % 8 = 5 then Option.none else some (rex.rm m, 0, l)
  else if modOf m = 1 then (imm8 l).map fun d => (rex.rm m, d.1.signExtend 32, d.2)
  else if modOf m = 2 then (imm32 l).map fun d => (rex.rm m, d)
  else Option.none

/-- The operations by the digit of opcode `81`. -/
def aluOf : ℕ → Option Alu
  | 0 => some .add
  | 1 => some .or
  | 4 => some .and
  | 5 => some .sub
  | 6 => some .xor
  | 7 => some .cmp
  | _ => Option.none

def shiftOf : ℕ → Option Shift
  | 4 => some .shl
  | 5 => some .shr
  | 7 => some .sar
  | _ => Option.none

/-- The conditions by the low digit of the opcode. -/
def ccOf : ℕ → Option Cc
  | 2 => some .b
  | 3 => some .ae
  | 4 => some .e
  | 5 => some .ne
  | 6 => some .be
  | 7 => some .a
  | 12 => some .l
  | 13 => some .ge
  | 14 => some .le
  | 15 => some .g
  | _ => Option.none

/-- Opcodes with a ModRM byte `m` for two registers. -/
def decodeReg (rex : Rex) (op : Byte) (m : Byte) (l : List Byte) : Option (Instr × List Byte) :=
  if op.toNat < 64 then
    -- the operations in the form that stores to `rm`
    if op.toNat % 8 = 1 then (aluOf (op.toNat / 8)).map fun alu => (.alu rex.w alu (rex.rm m) (rex.reg m), l)
    else Option.none
  else if op = 0x85#8 then some (.test rex.w (rex.rm m) (rex.reg m), l)
  else if op = 0x89#8 then some (.mov rex.w (rex.rm m) (rex.reg m), l)
  else if op = 0x81#8 then do
    let alu ← aluOf (digitOf m)
    let (imm, l) ← imm32 l
    return (.aluImm rex.w alu (rex.rm m) imm, l)
  else if op = 0xc1#8 then do
    let shift ← shiftOf (digitOf m)
    let (count, l) ← imm8 l
    return (.shiftImm rex.w shift (rex.rm m) count, l)
  else if op = 0xd3#8 then (shiftOf (digitOf m)).map fun shift => (.shiftCl rex.w shift (rex.rm m), l)
  else if op = 0xf7#8 then
    if digitOf m = 0 then (imm32 l).map fun imm => (.testImm rex.w (rex.rm m) imm.1, imm.2)
    else if digitOf m = 3 then some (.neg rex.w (rex.rm m), l)
    else if digitOf m = 4 then some (.mul rex.w (rex.rm m), l)
    else if digitOf m = 6 then some (.div rex.w (rex.rm m), l)
    else Option.none
  else if op = 0xc7#8 then
    if digitOf m = 0 then (imm32 l).map fun imm => (.movImm rex.w (rex.rm m) imm.1, imm.2) else Option.none
  else if op = 0xff#8 then if digitOf m = 2 then some (.call (rex.rm m), l) else Option.none
  else Option.none

/-- The width of a memory operand of a whole word. -/
def wholeSize (opsize : Bool) (rex : Rex) : Size :=
  if rex.w then .s64 else if opsize then .s16 else .s32

/-- Opcodes with a ModRM byte `m` for a register and a memory operand. -/
def decodeMemOp (opsize : Bool) (rex : Rex) (op : Byte) (m : Byte) (l : List Byte) :
    Option (Instr × List Byte) := do
  let (base, disp, l) ← decodeMem rex m l
  if op = 0x8b#8 then
    if opsize then Option.none else some (.load (wholeSize false rex) (rex.reg m) base disp, l)
  else if op = 0x89#8 then some (.store (wholeSize opsize rex) (rex.reg m) base disp, l)
  else if op = 0x88#8 then
    -- without REX the numbers 4 to 7 stand for `ah` to `bh`
    if ¬rex.present ∧ 4 ≤ digitOf m then Option.none else some (.store .s8 (rex.reg m) base disp, l)
  else if op = 0xc7#8 then
    if digitOf m ≠ 0 then Option.none
    else if opsize ∧ ¬rex.w then (imm16 l).map fun imm =>
      (.storeImm .s16 base disp (imm.1.signExtend 32), imm.2)
    else (imm32 l).map fun imm => (.storeImm (wholeSize opsize rex) base disp imm.1, imm.2)
  else if op = 0xc6#8 then
    if digitOf m ≠ 0 then Option.none
    else (imm8 l).map fun imm => (.storeImm .s8 base disp (imm.1.signExtend 32), imm.2)
  else Option.none

/-- A load that clears the upper bytes, behind `0f`. -/
def decodeMovzx (rex : Rex) (op : Byte) : List Byte → Option (Instr × List Byte)
  | [] => Option.none
  | m :: l => do
      let (base, disp, l) ← decodeMem rex m l
      if op = 0xb6#8 then some (.load .s8 (rex.reg m) base disp, l)
      else if op = 0xb7#8 then some (.load .s16 (rex.reg m) base disp, l)
      else Option.none

/-- Opcodes of two bytes, behind `0f`. -/
def decodeTwo (rex : Rex) : List Byte → Option (Instr × List Byte)
  | [] => Option.none
  | op :: l =>
      if op >>> 4 = 8#8 then do
        let cc ← ccOf (op.toNat % 16)
        let (rel, l) ← imm32 l
        return (.jcc cc rel, l)
      else if op >>> 3 = 0x19#8 then some (.bswap rex.w (extend rex.b op.toNat), l)
      else decodeMovzx rex op l

def decodeModrm (opsize : Bool) (rex : Rex) (op : Byte) : List Byte → Option (Instr × List Byte)
  | [] => Option.none
  | m :: l =>
      if modOf m ≠ 3 then decodeMemOp opsize rex op m l
      else if opsize then
        -- with 16 bits only the rotation to the left is here
        if op = 0xc1#8 ∧ digitOf m = 0 ∧ ¬rex.w then
          (imm8 l).map fun count => (.rol16 (rex.rm m) count.1, count.2)
        else Option.none
      else decodeReg rex op m l

def decodeOpcode (opsize : Bool) (rex : Rex) : List Byte → Option (Instr × List Byte)
  | [] => Option.none
  | op :: l =>
      if op = 0x0f#8 then if opsize then Option.none else decodeTwo rex l
      else if op >>> 3 = 0x0a#8 then some (.push (extend rex.b op.toNat), l)
      else if op >>> 3 = 0x0b#8 then some (.pop (extend rex.b op.toNat), l)
      else if op >>> 3 = 0x17#8 then
        if rex.w then (imm64 l).map fun imm => (.movabs (extend rex.b op.toNat) imm.1, imm.2) else Option.none
      else if op = 0xe9#8 then (imm32 l).map fun rel => (.jmp rel.1, rel.2)
      else if op = 0xc3#8 then some (.ret, l)
      else decodeModrm opsize rex op l

/-- The instruction at the beginning of some bytes, and the bytes behind it. -/
def decode (l : List Byte) : Option (Instr × List Byte) :=
  let (opsize, rex, l) := decodePrefix l
  decodeOpcode opsize rex l

/-! ### Memory -/

abbrev Memory := Word → Byte

/-- Read `n` bytes, the lowest address least significant. -/
def Memory.load (mem : Memory) (addr : Word) : ℕ → Word
  | 0 => 0
  | n + 1 => (Memory.load mem (addr + 1) n <<< 8) ||| (mem addr).setWidth 64

/-- Write the low `n` bytes of a word. -/
def Memory.store (mem : Memory) (addr : Word) (v : Word) : ℕ → Memory
  | 0 => mem
  | n + 1 => Function.update (Memory.store mem (addr + 1) (v >>> 8) n) addr (v.setWidth 8)

/-! ### Execution -/

/-- The flags as what they say of the last comparison: equal, below, less. -/
structure Flags where
  eq : Bool
  below : Bool
  less : Bool
  deriving DecidableEq

/-- A state; `world` is what the code outside has done, and `rip` a place in the code. -/
structure State (ω : Type*) where
  reg : Reg → Word
  mem : Memory
  flags : Option Flags
  rip : ℕ
  world : ω

variable {ω : Type*}

/-- The code outside, by address: what it makes of the registers, the memory and its own state until it
returns.  Its return address is below the stack pointer then. -/
abbrev Callee (ω : Type*) := Word → (Reg → Word) → Memory → ω → (Reg → Word) × Memory × ω

/-- A result of 64 bits, or of 32, which clears the upper half. -/
def widen (w : Bool) (v : Word) : Word := if w then v else (v.setWidth 32).setWidth 64

/-- The flags after `cmp`. -/
def cmpFlags {n : ℕ} (a b : BitVec n) : Flags := ⟨a = b, a < b, a.toInt < b.toInt⟩

/-- The flags after `test`. -/
def testFlags {n : ℕ} (a b : BitVec n) : Flags := ⟨a &&& b = 0, false, (a &&& b).msb⟩

def Cc.holds (f : Flags) : Cc → Bool
  | .b => f.below
  | .ae => !f.below
  | .e => f.eq
  | .ne => !f.eq
  | .be => f.below || f.eq
  | .a => !(f.below || f.eq)
  | .l => f.less
  | .ge => !f.less
  | .le => f.less || f.eq
  | .g => !(f.less || f.eq)

namespace State

def setReg (s : State ω) (r : Reg) (v : Word) : State ω := { s with reg := Function.update s.reg r v }

def setFlags (s : State ω) (f : Option Flags) : State ω := { s with flags := f }

def setMem (s : State ω) (m : Memory) : State ω := { s with mem := m }

def goto (s : State ω) (rip : ℕ) : State ω := { s with rip := rip }

end State

/-- An operation with its operands `a` and `b`. -/
def Alu.apply (w : Bool) (op : Alu) (s : State ω) (dst : Reg) (b : Word) : State ω :=
  let a := s.reg dst
  match op with
  | .add => (s.setReg dst (widen w (a + b))).setFlags none
  | .or => (s.setReg dst (widen w (a ||| b))).setFlags none
  | .and => (s.setReg dst (widen w (a &&& b))).setFlags none
  | .sub => (s.setReg dst (widen w (a - b))).setFlags none
  | .xor => (s.setReg dst (widen w (a ^^^ b))).setFlags none
  | .cmp => s.setFlags (some (if w then cmpFlags a b else cmpFlags (a.setWidth 32) (b.setWidth 32)))

/-- A shift; the count is taken modulo the width. -/
def Shift.apply (w : Bool) (op : Shift) (a : Word) (count : ℕ) : Word :=
  match op, w with
  | .shl, true => a <<< (count % 64)
  | .shl, false => widen false (a <<< (count % 32))
  | .shr, true => a >>> (count % 64)
  | .shr, false => (a.setWidth 32 >>> (count % 32)).setWidth 64
  | .sar, true => a.sshiftRight (count % 64)
  | .sar, false => ((a.setWidth 32).sshiftRight (count % 32)).setWidth 64

/-- The lower sixteen bits are rotated to the left. -/
def rotate16 (a : Word) (count : ℕ) : Word :=
  (a &&& ~~~0xffff#64) ||| ((a.setWidth 16).rotateLeft count).setWidth 64

/-- The lowest `n` bytes in the other order. -/
def reverseBytes (n : ℕ) (a : Word) : Word :=
  (List.range n).foldl (fun acc i => acc ||| (((a >>> (8 * i)) &&& 0xff) <<< (8 * (n - 1 - i)))) 0

/-- The quotient and the remainder of a double word, if the quotient has room. -/
def quotient {n : ℕ} (hi lo b : BitVec n) : Option (BitVec n × BitVec n) :=
  let dividend := hi ++ lo
  let divisor := b.setWidth (n + n)
  if b = 0 ∨ 2 ^ n ≤ (dividend / divisor).toNat then none
  else some ((dividend / divisor).setWidth n, (dividend % divisor).setWidth n)

/-- The halves of a product of 64 bits, or of 32. -/
def productLow (w : Bool) (a b : Word) : Word := widen w (a * b)

def productHigh (w : Bool) (a b : Word) : Word :=
  if w then ((a.setWidth 128 * b.setWidth 128) >>> 64).setWidth 64
  else ((a.setWidth 32).setWidth 64 * (b.setWidth 32).setWidth 64) >>> 32

namespace State

/-- `rax` and `rdx` are written. -/
def setPair (s : State ω) (a d : Word) : State ω := ((s.setReg rax a).setReg rdx d).setFlags none

end State

/-- `div`. -/
def divide (w : Bool) (s : State ω) (b : Word) : Option (State ω) :=
  if w then (quotient (s.reg rdx) (s.reg rax) b).map fun r => s.setPair r.1 r.2
  else
    (quotient ((s.reg rdx).setWidth 32) ((s.reg rax).setWidth 32) (b.setWidth 32)).map fun r =>
      s.setPair (r.1.setWidth 64) (r.2.setWidth 64)

/-- `mul`. -/
def multiply (w : Bool) (s : State ω) (b : Word) : State ω :=
  s.setPair (productLow w (s.reg rax) b) (productHigh w (s.reg rax) b)

/-- What an instruction does that is no jump; `none` is a trap, or a jump. -/
def effect (callee : Callee ω) (s : State ω) : Instr → Option (State ω)
  | .alu w op dst src => some (op.apply w s dst (s.reg src))
  | .aluImm w op dst imm => some (op.apply w s dst (imm.signExtend 64))
  | .test w dst src =>
      some (s.setFlags (some (if w then testFlags (s.reg dst) (s.reg src)
        else testFlags ((s.reg dst).setWidth 32) ((s.reg src).setWidth 32))))
  | .testImm w dst imm =>
      some (s.setFlags (some (if w then testFlags (s.reg dst) (imm.signExtend 64)
        else testFlags ((s.reg dst).setWidth 32) imm)))
  | .neg w dst => some ((s.setReg dst (widen w (-s.reg dst))).setFlags none)
  | .mul w src => some (multiply w s (s.reg src))
  | .div w src => divide w s (s.reg src)
  | .mov w dst src => some (s.setReg dst (widen w (s.reg src)))
  | .movImm w dst imm => some (s.setReg dst (widen w (imm.signExtend 64)))
  | .movabs dst imm => some (s.setReg dst imm)
  | .shiftImm w op dst count => some ((s.setReg dst (op.apply w (s.reg dst) count.toNat)).setFlags none)
  | .shiftCl w op dst =>
      some ((s.setReg dst (op.apply w (s.reg dst) (s.reg rcx).toNat)).setFlags none)
  | .rol16 dst count => some ((s.setReg dst (rotate16 (s.reg dst) count.toNat)).setFlags none)
  | .bswap w dst => some (s.setReg dst (reverseBytes (if w then 8 else 4) (s.reg dst)))
  | .load size dst base disp =>
      some (s.setReg dst (s.mem.load (s.reg base + disp.signExtend 64) size.bytes))
  | .store size src base disp =>
      some (s.setMem (s.mem.store (s.reg base + disp.signExtend 64) (s.reg src) size.bytes))
  | .storeImm size base disp imm =>
      some (s.setMem (s.mem.store (s.reg base + disp.signExtend 64) (imm.signExtend 64) size.bytes))
  | .push r =>
      some ((s.setMem (s.mem.store (s.reg rsp - 8) (s.reg r) 8)).setReg rsp (s.reg rsp - 8))
  | .pop r => some ((s.setReg rsp (s.reg rsp + 8)).setReg r (s.mem.load (s.reg rsp) 8))
  | .call r =>
      let (reg, mem, world) := callee (s.reg r) s.reg s.mem s.world
      some { s with reg := reg, mem := mem, flags := none, world := world }
  | .jmp _ | .jcc _ _ | .ret => none

/-- How a run ends: the code returns to an address, or something is wrong. -/
inductive Outcome (ω : Type*) where
  | returned (addr : Word) (s : State ω)
  | trap

def relative (rip : ℕ) (rel : BitVec 32) : ℕ := (rip + rel.toInt).toNat

/-- A conditional jump, which must follow a comparison. -/
def branch (s : State ω) (cc : Cc) (rel : BitVec 32) : Result (State ω) (Outcome ω) :=
  match s.flags with
  | none => .halt .trap
  | some f => .next (if cc.holds f then s.goto (relative s.rip rel) else s)

/-- A jump, with `rip` behind it. -/
def transfer (s : State ω) : Instr → Result (State ω) (Outcome ω)
  | .jmp rel => .next (s.goto (relative s.rip rel))
  | .jcc cc rel => branch s cc rel
  | .ret => .halt (.returned (s.mem.load (s.reg rsp) 8) (s.setReg rsp (s.reg rsp + 8)))
  | _ => .halt .trap

/-- An instruction, with `rip` behind it. -/
def exec (callee : Callee ω) (s : State ω) (i : Instr) : Result (State ω) (Outcome ω) :=
  match effect callee s i with
  | some s' => .next s'
  | none => transfer s i

/-- An instruction is fetched and executed. -/
def step (callee : Callee ω) (code : List Byte) (s : State ω) : Result (State ω) (Outcome ω) :=
  match decode (code.drop s.rip) with
  | none => .halt .trap
  | some (i, rest) => exec callee (s.goto (code.length - rest.length)) i

/-! ### Memory, byte by byte -/

theorem Memory.store_apply (mem : Memory) (a v b : Word) (n : ℕ) :
    mem.store a v n b = if (b - a).toNat < n then (v >>> (8 * (b - a).toNat)).setWidth 8 else mem b := by
  induction n generalizing a v with
  | zero => rfl
  | succ n ih =>
    rw [Memory.store]
    by_cases hab : b = a
    · rw [hab, Function.update_self, BitVec.sub_self]
      rfl
    · have hne : b - a ≠ 0 := fun h => hab <| by
        rw [← BitVec.sub_add_cancel b a, h]
        exact BitVec.zero_add a
      have hpos : 0 < (b - a).toNat := Nat.pos_of_ne_zero fun h => hne (BitVec.eq_of_toNat_eq h)
      have hnext : (b - (a + 1)).toNat = (b - a).toNat - 1 := by
        rw [← BitVec.sub_sub, BitVec.toNat_sub_of_le]
        · rfl
        · exact hpos
      rw [Function.update_of_ne hab, ih, hnext, ← BitVec.shiftRight_add]
      have hshift : 8 + 8 * ((b - a).toNat - 1) = 8 * (b - a).toNat := by omega
      rw [hshift]
      refine if_congr ?_ rfl rfl
      omega

theorem Memory.load_congr {mem mem' : Memory} {n : ℕ} :
    ∀ {a : Word}, (∀ k < n, mem (a + BitVec.ofNat 64 k) = mem' (a + BitVec.ofNat 64 k)) →
      mem.load a n = mem'.load a n := by
  induction n with
  | zero => exact fun _ => rfl
  | succ n ih =>
    intro a h
    have hfirst : mem a = mem' a := by
      have h0 := h 0 n.succ_pos
      rwa [BitVec.add_zero] at h0
    have hrest : mem.load (a + 1) n = mem'.load (a + 1) n := ih fun k hk => by
      have hk' := h (k + 1) (Nat.succ_lt_succ hk)
      rwa [BitVec.ofNat_add, BitVec.add_comm (BitVec.ofNat 64 k), ← BitVec.add_assoc] at hk'
    rw [Memory.load, Memory.load, hfirst, hrest]

theorem Memory.getLsbD_load (mem : Memory) (n : ℕ) : ∀ (a : Word) {i : ℕ}, i < 64 →
    (mem.load a n).getLsbD i = (decide (i < 8 * n) && (mem (a + BitVec.ofNat 64 (i / 8))).getLsbD (i % 8)) := by
  induction n with
  | zero =>
    intro a i _
    exact BitVec.getLsbD_zero
  | succ n ih =>
    intro a i hi
    rw [Memory.load, BitVec.getLsbD_or, BitVec.getLsbD_shiftLeft, BitVec.getLsbD_setWidth]
    by_cases h8 : i < 8
    · have hzero : i / 8 = 0 := by omega
      have hmod : i % 8 = i := by omega
      simp [h8, hi, hzero, hmod, show i < 8 * (n + 1) by omega]
    · have hdiv : BitVec.ofNat 64 (i / 8) = 1 + BitVec.ofNat 64 ((i - 8) / 8) := by
        rw [show i / 8 = 1 + (i - 8) / 8 by omega, BitVec.ofNat_add]
        rfl
      have hlow : (mem a).getLsbD i = false := BitVec.getLsbD_of_ge _ _ (by omega)
      rw [ih (a + 1) (by omega), hlow, hdiv, ← BitVec.add_assoc, show (i - 8) % 8 = i % 8 by omega]
      simp only [hi, h8, decide_true, decide_false, Bool.not_false, Bool.true_and, Bool.and_false,
        Bool.or_false]
      congr 1
      exact decide_eq_decide.mpr (by omega)

theorem Memory.load_store (mem : Memory) (a v : Word) : (mem.store a v 8).load a 8 = v := by
  apply BitVec.eq_of_getLsbD_eq
  intro i hi
  have hk : (a + BitVec.ofNat 64 (i / 8) - a).toNat = i / 8 := by
    rw [BitVec.add_comm, BitVec.add_sub_cancel, BitVec.toNat_ofNat]
    omega
  rw [Memory.getLsbD_load _ _ _ hi, Memory.store_apply, hk, if_pos (by omega), BitVec.getLsbD_setWidth,
    BitVec.getLsbD_ushiftRight, show 8 * (i / 8) + i % 8 = i by omega]
  simp [show i < 8 * 8 by omega, Nat.mod_lt]

theorem Memory.store_congr (mem : Memory) (a : Word) {v v' : Word} {n : ℕ}
    (h : ∀ k < n, (v >>> (8 * k)).setWidth 8 = (v' >>> (8 * k)).setWidth 8) :
    mem.store a v n = mem.store a v' n := by
  funext b
  rw [Memory.store_apply, Memory.store_apply]
  split
  · rename_i hk
    exact h _ hk
  · rfl

/-! ### Division -/

theorem quotient_zero {n : ℕ} (lo b : BitVec n) (hb : b ≠ 0) : quotient 0 lo b = some (lo / b, lo % b) := by
  have hdividend : ((0 : BitVec n) ++ lo).toNat = lo.toNat := by
    rw [BitVec.toNat_append]
    simp
  have hdivisor : (b.setWidth (n + n)).toNat = b.toNat := by
    rw [BitVec.toNat_setWidth, Nat.mod_eq_of_lt]
    exact b.isLt.trans_le (Nat.pow_le_pow_right (by decide) (Nat.le_add_left n n))
  have hlt : lo.toNat / b.toNat < 2 ^ n := (Nat.div_le_self _ _).trans_lt lo.isLt
  have hmod : lo.toNat % b.toNat < 2 ^ n := (Nat.mod_le _ _).trans_lt lo.isLt
  have hroom : ¬(b = 0 ∨ 2 ^ n ≤ (((0 : BitVec n) ++ lo) / b.setWidth (n + n)).toNat) := by
    rw [BitVec.toNat_udiv, hdividend, hdivisor]
    exact not_or_intro hb (Nat.not_le.mpr hlt)
  rw [quotient, if_neg hroom]
  refine congrArg some (Prod.ext ?_ ?_)
  · apply BitVec.eq_of_toNat_eq
    rw [BitVec.toNat_setWidth, BitVec.toNat_udiv, hdividend, hdivisor, BitVec.toNat_udiv, Nat.mod_eq_of_lt hlt]
  · apply BitVec.eq_of_toNat_eq
    rw [BitVec.toNat_setWidth, BitVec.toNat_umod, hdividend, hdivisor, BitVec.toNat_umod, Nat.mod_eq_of_lt hmod]

/-! ### Instructions one after the other -/

theorem effect_goto (callee : Callee ω) (s : State ω) (i : Instr) (rip : ℕ) :
    effect callee (s.goto rip) i = (effect callee s i).map (·.goto rip) := by
  cases i with
  | alu w op dst src => cases op <;> rfl
  | aluImm w op dst imm => cases op <;> rfl
  | div w src =>
    rw [effect, effect, divide, divide]
    cases w
    · simp only [Bool.false_eq_true, if_false, Option.map_map]
      rfl
    · simp only [if_true, Option.map_map]
      rfl
  | _ => rfl

theorem exec_of_effect {callee : Callee ω} {s s' : State ω} {i : Instr} (h : effect callee s i = some s') :
    exec callee s i = .next s' := by
  rw [exec, h]

theorem exec_of_transfer {callee : Callee ω} {s : State ω} {i : Instr} (h : effect callee s i = none) :
    exec callee s i = transfer s i := by
  rw [exec, h]

theorem exec_jmp (callee : Callee ω) (s : State ω) (rel : BitVec 32) :
    exec callee s (.jmp rel) = .next (s.goto (relative s.rip rel)) :=
  exec_of_transfer rfl

theorem exec_ret (callee : Callee ω) (s : State ω) : exec callee s .ret =
    .halt (.returned (s.mem.load (s.reg rsp) 8) (s.setReg rsp (s.reg rsp + 8))) :=
  exec_of_transfer rfl

theorem exec_jcc (callee : Callee ω) {s : State ω} {f : Flags} (h : s.flags = some f) (cc : Cc)
    (rel : BitVec 32) : exec callee s (.jcc cc rel) =
      .next (if cc.holds f then s.goto (relative s.rip rel) else s) := by
  have hexec : exec callee s (.jcc cc rel) = branch s cc rel := exec_of_transfer rfl
  rw [hexec, branch, h]

/-- Instructions, and jumps to labels. -/
inductive Item (τ : Type*) where
  | instr (i : Instr)
  | jmp (t : τ)
  | jcc (cc : Cc) (t : τ)

variable {τ : Type*}

/-- The effect of items up to the first jump that is taken, and its label. -/
def runItems (callee : Callee ω) : List (Item τ) → State ω → Option (State ω × Option τ)
  | [], s => some (s, none)
  | .instr i :: items, s => (effect callee s i).bind (runItems callee items)
  | .jmp t :: _, s => some (s, some t)
  | .jcc cc t :: items, s =>
      s.flags.bind fun f => if cc.holds f then some (s, some t) else runItems callee items s

/-- Items that end behind the last one, and then others. -/
theorem runItems_append_of_none {callee : Callee ω} {items : List (Item τ)} (items' : List (Item τ)) :
    ∀ {s s' : State ω}, runItems callee items s = some (s', none) →
      runItems callee (items ++ items') s = runItems callee items' s' := by
  induction items with
  | nil =>
    intro s s' h
    cases h
    rfl
  | cons item items ih =>
    intro s s' h
    cases item with
    | jmp t => cases h
    | instr i =>
      obtain ⟨s₁, heffect, hrest⟩ := Option.bind_eq_some_iff.mp h
      rw [List.cons_append, runItems, heffect]
      exact ih hrest
    | jcc cc t =>
      obtain ⟨f, hflags, hrest⟩ := Option.bind_eq_some_iff.mp h
      rw [List.cons_append, runItems, hflags, Option.bind_some]
      split at hrest
      · cases hrest
      · rename_i hcc
        rw [if_neg hcc]
        exact ih hrest

inductive Placed (code : List Byte) (loc : τ → ℕ) : ℕ → List (Item τ) → ℕ → Prop where
  | nil (p : ℕ) : Placed code loc p [] p
  | instr {p q r : ℕ} {i : Instr} {items : List (Item τ)} (hq : q ≤ code.length)
      (hdecode : decode (code.drop p) = some (i, code.drop q)) (h : Placed code loc q items r) :
      Placed code loc p (.instr i :: items) r
  | jmp {p q r : ℕ} {rel : BitVec 32} {t : τ} {items : List (Item τ)} (hq : q ≤ code.length)
      (hdecode : decode (code.drop p) = some (.jmp rel, code.drop q)) (hrel : relative q rel = loc t)
      (h : Placed code loc q items r) : Placed code loc p (.jmp t :: items) r
  | jcc {p q r : ℕ} {cc : Cc} {rel : BitVec 32} {t : τ} {items : List (Item τ)} (hq : q ≤ code.length)
      (hdecode : decode (code.drop p) = some (.jcc cc rel, code.drop q)) (hrel : relative q rel = loc t)
      (h : Placed code loc q items r) : Placed code loc p (.jcc cc t :: items) r

theorem step_of_decode {code : List Byte} {callee : Callee ω} {s : State ω} {i : Instr} {q : ℕ}
    (hq : q ≤ code.length) (hdecode : decode (code.drop s.rip) = some (i, code.drop q)) :
    step callee code s = exec callee (s.goto q) i := by
  have hlen : code.length - (code.drop q).length = q := by
    rw [List.length_drop]
    omega
  rw [step, hdecode]
  dsimp only
  rw [hlen]

theorem runItems_goto (callee : Callee ω) (items : List (Item τ)) (s : State ω) (rip : ℕ) :
    runItems callee items (s.goto rip) = (runItems callee items s).map fun r => (r.1.goto rip, r.2) := by
  induction items generalizing s with
  | nil => rfl
  | cons item items ih =>
    cases item with
    | jmp t => rfl
    | instr i =>
      rw [runItems, runItems, effect_goto]
      cases effect callee s i with
      | none => rfl
      | some s' => exact ih s'
    | jcc cc t =>
      rw [runItems, runItems]
      have hflags : (s.goto rip).flags = s.flags := rfl
      rw [hflags]
      cases s.flags with
      | none => rfl
      | some f =>
        simp only [Option.bind_some]
        split
        · rfl
        · exact ih s

/-- **Items are executed.** -/
theorem Placed.reaches {code : List Byte} {loc : τ → ℕ} {callee : Callee ω} {p q : ℕ}
    {items : List (Item τ)} (h : Placed code loc p items q) :
    ∀ {s s' : State ω} {o : Option τ}, s.rip = p → runItems callee items s = some (s', o) →
      Reaches (step callee code) s (s'.goto (o.elim q loc)) := by
  induction h with
  | nil p =>
    intro s s' o hrip hrun
    cases hrun
    rw [← hrip]
    exact Reaches.refl s
  | instr hq hdecode h ih =>
    rename_i p q r i items
    intro s s' o hrip hrun
    obtain ⟨s₁, heffect, hrest⟩ := Option.bind_eq_some_iff.mp hrun
    have hstep : step callee code s = .next (s₁.goto q) := by
      rw [step_of_decode hq (hrip ▸ hdecode)]
      apply exec_of_effect
      rw [effect_goto, heffect]
      rfl
    have hrest' : runItems callee items (s₁.goto q) = some (s'.goto q, o) := by
      rw [runItems_goto, hrest]
      rfl
    have hreach := ih rfl hrest'
    exact Reaches.head hstep hreach
  | jmp hq hdecode hrel h ih =>
    intro s s' o hrip hrun
    cases hrun
    refine Reaches.single ?_
    rw [step_of_decode hq (hrip ▸ hdecode), exec_jmp]
    exact congrArg (fun r => Result.next (s.goto r)) hrel
  | jcc hq hdecode hrel h ih =>
    rename_i p q r cc rel t items
    intro s s' o hrip hrun
    obtain ⟨f, hflags, hrun⟩ := Option.bind_eq_some_iff.mp hrun
    have hexec : step callee code s =
        .next (if cc.holds f then s.goto (relative q rel) else s.goto q) := by
      have hflags' : (s.goto q).flags = some f := hflags
      rw [step_of_decode hq (hrip ▸ hdecode), exec_jcc callee hflags']
      rfl
    by_cases hcc : cc.holds f = true
    · rw [if_pos hcc] at hrun hexec
      cases hrun
      rw [hrel] at hexec
      exact Reaches.single hexec
    · rw [if_neg hcc] at hrun hexec
      have hrest' : runItems callee items (s.goto q) = some (s'.goto q, o) := by
        rw [runItems_goto, hrun]
        rfl
      have hreach := ih rfl hrest'
      exact Reaches.head hexec hreach

end TorEbpf.Lib.X86
