import Mathlib.Algebra.GroupWithZero.Nat
import Mathlib.Tactic.Common

/-!
# eBPF instructions

The instruction format of `ebpf.h`: `struct ebpf_inst` and the opcodes.  The `#define`s of the header
build each opcode byte from a class, a source bit and an operation; `Opcode` keeps that structure, so
that a family of opcodes of the source (the twelve ALU operations in two widths and with two kinds of
operand, say) is one constructor with parameters, and `Opcode.byte` gives back the byte the header
assigns.  A byte that the header does not define is kept as `Opcode.unknown`; the byte `0`, which
`validate` requires of the second half of an `LDDW`, is one of these.
-/

namespace TorEbpf.Ubpf

/-- The access widths `EBPF_SIZE_*`. -/
inductive Size where
  | w | h | b | dw
  deriving DecidableEq, Repr

/-- The number of bytes an access of a given width touches. -/
def Size.bytes : Size → ℕ
  | .w => 4
  | .h => 2
  | .b => 1
  | .dw => 8

/-- The two ALU classes, `EBPF_CLS_ALU` and `EBPF_CLS_ALU64`. -/
inductive Width where
  | w32 | w64
  deriving DecidableEq, Repr

/-- Whether the second operand is the immediate (`EBPF_SRC_IMM`) or a register (`EBPF_SRC_REG`). -/
inductive Operand where
  | imm | reg
  deriving DecidableEq, Repr

inductive AluOp where
  | add | sub | mul | div | or | and | lsh | rsh | mod | xor | mov | arsh
  deriving DecidableEq, Repr

inductive Cond where
  | eq | gt | ge | set | ne | sgt | sge | lt | le | slt | sle
  deriving DecidableEq, Repr

/-- The opcodes of `ebpf.h`, and every other byte as `unknown`. -/
inductive Opcode where
  | alu (wd : Width) (op : AluOp) (k : Operand)
  | neg (wd : Width)
  | le
  | be
  | ldx (sz : Size)
  | st (sz : Size)
  | stx (sz : Size)
  | lddw
  | ja
  | jcc (c : Cond) (k : Operand)
  | call
  | exit
  | unknown (byte : BitVec 8)
  deriving DecidableEq, Repr

/-- A register number is written as a literal of `Fin 16`. -/
instance neZero_sixteen : NeZero 16 := ⟨by decide⟩

/-- `struct ebpf_inst`: two four-bit register numbers, a signed 16-bit offset and a signed 32-bit
immediate. -/
@[ext] structure EbpfInst where
  opcode : Opcode
  dst : Fin 16 := 0
  src : Fin 16 := 0
  offset : BitVec 16 := 0
  imm : BitVec 32 := 0
  deriving DecidableEq, Repr

/-! ### The bytes of the header -/

/-- `EBPF_SIZE_*`. -/
def Size.bits : Size → BitVec 8
  | .w => 0x00
  | .h => 0x08
  | .b => 0x10
  | .dw => 0x18

/-- `EBPF_CLS_ALU` and `EBPF_CLS_ALU64`. -/
def Width.bits : Width → BitVec 8
  | .w32 => 0x04
  | .w64 => 0x07

/-- `EBPF_SRC_IMM` and `EBPF_SRC_REG`. -/
def Operand.bits : Operand → BitVec 8
  | .imm => 0x00
  | .reg => 0x08

def AluOp.bits : AluOp → BitVec 8
  | .add => 0x00
  | .sub => 0x10
  | .mul => 0x20
  | .div => 0x30
  | .or => 0x40
  | .and => 0x50
  | .lsh => 0x60
  | .rsh => 0x70
  | .mod => 0x90
  | .xor => 0xa0
  | .mov => 0xb0
  | .arsh => 0xc0

def Cond.bits : Cond → BitVec 8
  | .eq => 0x10
  | .gt => 0x20
  | .ge => 0x30
  | .set => 0x40
  | .ne => 0x50
  | .sgt => 0x60
  | .sge => 0x70
  | .lt => 0xa0
  | .le => 0xb0
  | .slt => 0xc0
  | .sle => 0xd0

/-- The byte of an opcode (`EBPF_CLS_LD = 0`, `LDX = 1`, `ST = 2`, `STX = 3`, `JMP = 5`,
`EBPF_MODE_MEM = 0x60`). -/
def Opcode.byte : Opcode → BitVec 8
  | .alu wd op k => wd.bits ||| k.bits ||| op.bits
  | .neg wd => wd.bits ||| 0x80
  | .le => 0x04 ||| 0x00 ||| 0xd0
  | .be => 0x04 ||| 0x08 ||| 0xd0
  | .ldx sz => 0x01 ||| 0x60 ||| sz.bits
  | .st sz => 0x02 ||| 0x60 ||| sz.bits
  | .stx sz => 0x03 ||| 0x60 ||| sz.bits
  | .lddw => 0x00 ||| 0x00 ||| 0x18
  | .ja => 0x05 ||| 0x00
  | .jcc c k => 0x05 ||| k.bits ||| c.bits
  | .call => 0x05 ||| 0x80
  | .exit => 0x05 ||| 0x90
  | .unknown b => b

/-- Every opcode the header defines. -/
def Opcode.defined : List Opcode :=
  let sizes := [Size.w, .h, .b, .dw]
  let widths := [Width.w32, .w64]
  let operands := [Operand.imm, .reg]
  let aluOps := [AluOp.add, .sub, .mul, .div, .or, .and, .lsh, .rsh, .mod, .xor, .mov, .arsh]
  let conds := [Cond.eq, .gt, .ge, .set, .ne, .sgt, .sge, .lt, .le, .slt, .sle]
  (widths.flatMap fun wd => aluOps.flatMap fun op => operands.map fun k => Opcode.alu wd op k)
    ++ widths.map Opcode.neg ++ [Opcode.le, .be]
    ++ sizes.map Opcode.ldx ++ sizes.map Opcode.st ++ sizes.map Opcode.stx ++ [Opcode.lddw, .ja]
    ++ (conds.flatMap fun c => operands.map fun k => Opcode.jcc c k) ++ [Opcode.call, .exit]

def Opcode.ofByte (b : BitVec 8) : Opcode :=
  (Opcode.defined.find? fun op => op.byte = b).getD (.unknown b)

theorem Opcode.byte_ofByte (b : BitVec 8) : (Opcode.ofByte b).byte = b := by
  unfold Opcode.ofByte
  cases h : Opcode.defined.find? fun op => op.byte = b with
  | none => rfl
  | some op => simpa using List.find?_some h

/-- No two opcodes of the header share a byte, so each is read back from its byte. -/
theorem Opcode.ofByte_byte : ∀ op ∈ Opcode.defined, Opcode.ofByte op.byte = op := by
  decide +kernel

/-! ### Families of opcodes -/

/-- The 23 jumps that `validate` and the rewriting passes treat alike. -/
def Opcode.isJump : Opcode → Bool
  | .ja => true
  | .jcc _ _ => true
  | _ => false

/-- The stores, for which `validate` allows `r10` as destination. -/
def Opcode.isStore : Opcode → Bool
  | .st _ => true
  | .stx _ => true
  | _ => false

/-- The base register and width of a load or store. -/
def EbpfInst.access? (inst : EbpfInst) : Option (Fin 16 × Size) :=
  match inst.opcode with
  | .ldx sz => some (inst.src, sz)
  | .st sz => some (inst.dst, sz)
  | .stx sz => some (inst.dst, sz)
  | _ => none

/-- A load or store through a register other than `r10`: `validate` records it in `rewrite_pcs` and
`rewrite_with_memchecks` puts a check block before it. -/
def EbpfInst.checked (inst : EbpfInst) : Bool :=
  match inst.access? with
  | some (base, _) => base ≠ 10
  | none => false

theorem EbpfInst.access_of_checked {inst : EbpfInst} (h : inst.checked = true) :
    ∃ base sz, inst.access? = some (base, sz) ∧ base ≠ 10 := by
  unfold EbpfInst.checked at h
  cases ha : inst.access? with
  | none => simp [ha] at h
  | some p => exact ⟨p.1, p.2, rfl, by simpa [ha] using h⟩

theorem EbpfInst.not_isJump_of_access {inst : EbpfInst} {p : Fin 16 × Size}
    (h : inst.access? = some p) : inst.opcode.isJump = false := by
  unfold EbpfInst.access? at h
  cases hop : inst.opcode <;> simp_all [Opcode.isJump]

end TorEbpf.Ubpf
