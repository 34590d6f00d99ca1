import TorEbpf.Lib.Expand
import TorEbpf.Ubpf.Validate

/-!
# The rewriting passes and `ubpf_load`

`rewrite_with_memchecks` puts a block of 20 instructions before each load or store whose base is not
`r10`, and re-targets every jump by counting the blocks it crosses.  `rewrite_with_ctx` puts 12
instructions around each external call.  `ubpf_load` runs `validate`, then the passes.

Where the blocks end up and what the counting loops compute is in `Layout`.
-/

namespace TorEbpf.Ubpf

open TorEbpf.Lib

def addedLoadStoreInsts : ℕ := 20

def oobCall : BitVec 32 := 0x3f

def addedCtxCall : ℕ := 12

def maxCall : ℕ := 2048

/-! ### Re-targeting jumps -/

/-- The two counting loops over `rewrite_pcs`, for the jump at `i`.  Each stops at the first recorded
index beyond the range it is interested in. -/
def retargetWith {α : Type} (inc dec : α → α) (pcs : List ℕ) (i : ℕ) (offset : ℤ) (start : α) : α :=
  let next : ℤ := i + 1
  if 0 < offset then
    (pcs.takeWhile fun p : ℕ => (p : ℤ) < next + offset).foldl
      (fun o (p : ℕ) => if next ≤ p ∧ (p : ℤ) < next + offset then inc o else o) start
  else if offset < 0 then
    (pcs.takeWhile fun p : ℕ => (p : ℤ) < next).foldl
      (fun o (p : ℕ) => if next + offset ≤ p ∧ (p : ℤ) < next then dec o else o) start
  else start

/-- The offset stored in a re-targeted jump: `new_offset` is narrowed to 16 bits at each addition. -/
def retarget (added : ℕ) (pcs : List ℕ) (i : ℕ) (offset : BitVec 16) : BitVec 16 :=
  retargetWith (· + BitVec.ofNat 16 added) (· - BitVec.ofNat 16 added) pcs i offset.toInt offset

/-- The offset the loops compute over the integers. -/
def integerOffset (added : ℕ) (pcs : List ℕ) (i : ℕ) (offset : BitVec 16) : ℤ :=
  retargetWith (· + (added : ℤ)) (· - (added : ℤ)) pcs i offset.toInt offset.toInt

/-! ### The memory checks -/

/-- The 20 instructions before a load or store through register `base`. -/
def checkBlock (memoryPtr : BitVec 64) (memorySize : BitVec 32) (base : Fin 16)
    (offset : BitVec 16) : List EbpfInst :=
  let memoryPtrTop := memoryPtr + memorySize.setWidth 64
  let off := offset.signExtend 32
  [ -- step 1: the accessed pointer is at most the top of the heap
    { opcode := .lddw, dst := 11, imm := memoryPtrTop.setWidth 32 },
    { opcode := .unknown 0, imm := (memoryPtrTop >>> 32).setWidth 32 },
    { opcode := .alu .w64 .sub .reg, dst := 11, src := base },
    { opcode := .alu .w64 .sub .imm, dst := 11, imm := off },
    { opcode := .jcc .sge .imm, dst := 11, offset := 1 },
    { opcode := .ja, offset := 1 },
    -- step 2: it is at most `memory_size` below the top
    { opcode := .jcc .le .imm, dst := 11, offset := 13, imm := memorySize },
    -- step 3: it is at most the stack pointer
    { opcode := .alu .w64 .mov .reg, dst := 11, src := base },
    { opcode := .alu .w64 .add .imm, dst := 11, imm := off },
    { opcode := .jcc .le .reg, dst := 11, src := 10, offset := 1 },
    { opcode := .ja, offset := 2 },
    -- step 4: it is at most `STACK_SIZE` below the stack pointer
    { opcode := .alu .w64 .add .imm, dst := 11, imm := BitVec.ofNat 32 stackSize },
    { opcode := .jcc .ge .reg, dst := 11, src := 10, offset := 7 },
    -- the failure path
    { opcode := .alu .w64 .mov .reg, dst := 1, src := base },
    { opcode := .alu .w64 .add .imm, dst := 1, imm := off },
    { opcode := .lddw, dst := 2, imm := memoryPtr.setWidth 32 },
    { opcode := .unknown 0, imm := (memoryPtr >>> 32).setWidth 32 },
    { opcode := .alu .w64 .mov .reg, dst := 3, src := 10 },
    { opcode := .call, imm := oobCall },
    { opcode := .exit } ]

/-- What the pass emits for the instruction at `i`. -/
def rewriteInst (memoryPtr : BitVec 64) (memorySize : BitVec 32) (pcs : List ℕ) (i : ℕ)
    (inst : EbpfInst) : List EbpfInst :=
  match inst.opcode with
  | .ldx _ =>
      (if inst.src ≠ 10 then checkBlock memoryPtr memorySize inst.src inst.offset else []) ++ [inst]
  | .st _ =>
      (if inst.dst ≠ 10 then checkBlock memoryPtr memorySize inst.dst inst.offset else []) ++ [inst]
  | .stx _ =>
      (if inst.dst ≠ 10 then checkBlock memoryPtr memorySize inst.dst inst.offset else []) ++ [inst]
  | .ja => [{ inst with offset := retarget addedLoadStoreInsts pcs i inst.offset }]
  | .jcc _ _ => [{ inst with offset := retarget addedLoadStoreInsts pcs i inst.offset }]
  | _ => [inst]

def rewriteWithMemchecks (memoryPtr : BitVec 64) (memorySize : BitVec 32) (insts : List EbpfInst)
    (pcs : List ℕ) : List EbpfInst :=
  expand (rewriteInst memoryPtr memorySize pcs) insts

/-! ### The context pass -/

/-- What `rewrite_with_ctx` emits for the instruction at `i`. -/
def ctxInst (ctxId : BitVec 64) (calls : List ℕ) (i : ℕ) (inst : EbpfInst) : List EbpfInst :=
  match inst.opcode with
  | .call =>
      [ { opcode := .alu .w64 .mov .reg, dst := 12, src := 5 },
        { opcode := .alu .w64 .mov .reg, dst := 5, src := 4 },
        { opcode := .alu .w64 .mov .reg, dst := 4, src := 3 },
        { opcode := .alu .w64 .mov .reg, dst := 3, src := 2 },
        { opcode := .alu .w64 .mov .reg, dst := 2, src := 1 },
        { opcode := .lddw, dst := 1, imm := ctxId.setWidth 32 },
        { opcode := .unknown 0, imm := (ctxId >>> 32).setWidth 32 },
        inst,
        { opcode := .alu .w64 .mov .reg, dst := 1, src := 2 },
        { opcode := .alu .w64 .mov .reg, dst := 2, src := 3 },
        { opcode := .alu .w64 .mov .reg, dst := 3, src := 4 },
        { opcode := .alu .w64 .mov .reg, dst := 4, src := 5 },
        { opcode := .alu .w64 .mov .reg, dst := 5, src := 12 } ]
  | .ja => [{ inst with offset := retarget addedCtxCall calls i inst.offset }]
  | .jcc _ _ => [{ inst with offset := retarget addedCtxCall calls i inst.offset }]
  | _ => [inst]

/-- The indices of the external calls, as the first pass of `rewrite_with_ctx` collects them. -/
def callPcs (insts : List EbpfInst) : List ℕ :=
  (List.range insts.length).filter fun i => (insts[i]?.map EbpfInst.opcode) = some .call

/-- `rewrite_with_ctx`; `none` is "Too many calls (EBPF_OP_CALL)". -/
def rewriteWithCtx (vm : UbpfVm) (insts : List EbpfInst) (ctxId : BitVec 64) : Option UbpfVm :=
  let calls := callPcs insts
  if maxCall ≤ calls.length then none
  else some
    { vm with
      insts := some (expand (ctxInst ctxId calls) insts)
      numInsts := (vm.numInsts + calls.length * addedCtxCall) % 65536 }

/-! ### Loading -/

/-- A 16-bit word from its bytes, the least significant first. -/
def word16 (b₀ b₁ : UInt8) : BitVec 16 := b₁.toBitVec ++ b₀.toBitVec

/-- `struct ebpf_inst` from its eight bytes; the two register numbers share a byte. -/
def decodeInst (b₀ b₁ b₂ b₃ b₄ b₅ b₆ b₇ : UInt8) : EbpfInst where
  opcode := Opcode.ofByte b₀.toBitVec
  dst := ⟨b₁.toNat % 16, Nat.mod_lt _ (by decide)⟩
  src := ⟨b₁.toNat / 16, by have := b₁.toNat_lt; omega⟩
  offset := word16 b₂ b₃
  imm := word16 b₆ b₇ ++ word16 b₄ b₅

def decodeInsts : List UInt8 → List EbpfInst
  | b₀ :: b₁ :: b₂ :: b₃ :: b₄ :: b₅ :: b₆ :: b₇ :: rest =>
      decodeInst b₀ b₁ b₂ b₃ b₄ b₅ b₆ b₇ :: decodeInsts rest
  | _ => []

/-- Why `ubpf_load` fails. -/
inductive LoadError where
  | alreadyLoaded
  | badCodeLen
  | invalid (e : ValidateError)
  | tooManyCalls
  deriving DecidableEq, Repr

/-- The text stored in `*errmsg`. -/
def LoadError.message : LoadError → String
  | .alreadyLoaded => "code has already been loaded into this VM"
  | .badCodeLen => "code_len must be a multiple of 8"
  | .invalid e => e.message
  | .tooManyCalls => "Too many calls (EBPF_OP_CALL)"

/-- The part of `ubpf_load` that stores the code, rewritten if there is a heap.  The count is kept in
a `uint16_t`, and the size of the heap is passed on as a `uint32_t`. -/
def storeCode (vm : UbpfVm) (insts : List EbpfInst) (pcs : List ℕ) (memoryPtr memorySize : BitVec 64) :
    UbpfVm :=
  if memoryPtr ≠ 0 ∧ memorySize ≠ 0 then
    { vm with
      insts := some (rewriteWithMemchecks memoryPtr (memorySize.setWidth 32) insts pcs)
      numInsts := (insts.length + addedLoadStoreInsts * pcs.length) % 65536 }
  else
    { vm with insts := some insts, numInsts := insts.length % 65536 }

def ubpfLoad (vm : UbpfVm) (code : List UInt8) (memoryPtr memorySize ctxId : BitVec 64) :
    Except LoadError UbpfVm :=
  if vm.insts.isSome then .error .alreadyLoaded
  else if code.length % 8 ≠ 0 then .error .badCodeLen
  else
    match validate vm (decodeInsts code) with
    | .error e => .error (.invalid e)
    | .ok pcs =>
        let vm' := storeCode vm (decodeInsts code) pcs memoryPtr memorySize
        if ctxId = 0 then .ok vm'
        else
          -- the context pass reads as many instructions as the stored count says
          match rewriteWithCtx vm' ((vm'.insts.getD []).take vm'.numInsts) ctxId with
          | none => .error .tooManyCalls
          | some vm'' => .ok vm''

end TorEbpf.Ubpf
