import TorEbpf.Ubpf.JitDecode

/-!
# What compiled arithmetic computes

The code of an arithmetic instruction leaves in the destination what the interpreter computes, and no
other register changed but `rcx`, which no register of the source is kept in.

* `RunsTo` — some code leads from one state of the machine to another, to its end or by a jump;
* `Frame` — the stack of compiled code;
* `Writes` — a register is written, and nothing else changed that matters;
* `muldivmod_writes`, `translateAlu_writes` — arithmetic instructions.
-/

namespace TorEbpf.Ubpf.Jit

open TorEbpf.Lib
open TorEbpf.Lib.X86

variable {ω : Type*} {callee : Callee ω}

/-! ### Code that runs -/

/-- Some code leads from one state to another, and to a target where it jumps. -/
def RunsTo (callee : Callee ω) (c : Code) (x x' : X86.State ω) (o : Option (BitVec 32)) : Prop :=
  ∃ items, Encodes c items ∧ runItems callee items x = some (x', o)

theorem RunsTo.nil (x : X86.State ω) : RunsTo callee [] x x none := ⟨[], .nil, rfl⟩

theorem RunsTo.append {c c' : Code} {x y z : X86.State ω} {o : Option (BitVec 32)}
    (h : RunsTo callee c x y none)
    (h' : RunsTo callee c' y z o) : RunsTo callee (c ++ c') x z o := by
  obtain ⟨items, hitems, hrun⟩ := h
  obtain ⟨items', hitems', hrun'⟩ := h'
  refine ⟨items ++ items', hitems.append hitems', ?_⟩
  rw [runItems_append_of_none items' hrun]
  exact hrun'

theorem Decodes.runsTo {c : Code} {i : Instr} {x x' : X86.State ω} (h : Decodes c i)
    (heffect : effect callee x i = some x') : RunsTo callee c x x' none := by
  refine ⟨[.instr i], h.encodes, ?_⟩
  rw [runItems, heffect]
  rfl

theorem runsTo_loadImm (dst : Reg) (imm : Word) (x : X86.State ω) :
    RunsTo callee (emitLoadImm dst imm) x (x.setReg dst imm) none := by
  obtain ⟨i, hdecodes, heffect⟩ := decodes_loadImm callee dst imm
  exact hdecodes.runsTo (heffect x)

theorem runsTo_mov (src dst : Reg) (x : X86.State ω) :
    RunsTo callee (emitMov src dst) x (x.setReg dst (x.reg src)) none :=
  (decodes_mov src dst).runsTo rfl

/-! ### Registers -/

section Registers

variable {x : X86.State ω} {r q : Reg} {v : Word}

@[simp] theorem setFlags_reg (fl : Option Flags) : (x.setFlags fl).reg = x.reg := rfl
@[simp] theorem setFlags_mem (fl : Option Flags) : (x.setFlags fl).mem = x.mem := rfl
@[simp] theorem setFlags_world (fl : Option Flags) : (x.setFlags fl).world = x.world := rfl

theorem setReg_self : (x.setReg r v).reg r = v := by
  show Function.update x.reg r v r = v
  exact Function.update_self _ _ _

theorem setReg_of_ne (h : q ≠ r) : (x.setReg r v).reg q = x.reg q := by
  show Function.update x.reg r v q = x.reg q
  exact Function.update_of_ne h _ _

end Registers

/-! ### The stack of compiled code -/

/-- The stack of compiled code: the stack pointer while instructions run, and the bytes below it that the
code and what it calls use.  Above is `STACK_SIZE`, then six saved registers, and then the return address. -/
structure Frame where
  base : Word
  depth : ℕ
  depth_ge : 16 ≤ depth
  depth_le : depth + stackSize + 56 ≤ 2 ^ 64

namespace Frame

variable (f : Frame)

def Below (a : Word) : Prop := (f.base - 1 - a).toNat < f.depth

def Saved (a : Word) : Prop := (a - (f.base + BitVec.ofNat 64 stackSize)).toNat < 56

/-- The part of the memory that the compiled program itself may not use. -/
def Private (a : Word) : Prop := f.Below a ∨ f.Saved a

theorem not_saved_of_below {a : Word} (h : f.Below a) : ¬f.Saved a := by
  have hle := f.depth_le
  rw [Below] at h
  rw [Saved]
  rw [stackSize] at hle ⊢
  bv_omega

/-- What is not below the stack pointer is touched by none of two pushes. -/
theorem push_below {a : Word} (h : ¬f.Below a) :
    8 ≤ (a - (f.base - 8)).toNat ∧ 8 ≤ (a - (f.base - 8 - 8)).toNat := by
  have hge := f.depth_ge
  rw [Below] at h
  constructor <;> bv_omega

end Frame

/-- A register is written; `rcx` and what is below the stack pointer are not kept. -/
structure Writes (f : Frame) (x x' : X86.State ω) (r : Reg) (v : Word) : Prop where
  value : x'.reg r = v
  others : ∀ q, q ≠ r → q ≠ rcx → x'.reg q = x.reg q
  mem : ∀ a, ¬f.Below a → x'.mem a = x.mem a
  world : x'.world = x.world

variable {f : Frame} {x : X86.State ω} {r : Reg} {v : Word}

theorem writes_setReg (f : Frame) (x : X86.State ω) (r : Reg) (v : Word) : Writes f x (x.setReg r v) r v where
  value := setReg_self
  others _ hq _ := setReg_of_ne hq
  mem _ _ := rfl
  world := rfl

theorem writes_setReg_setFlags (f : Frame) (x : X86.State ω) (r : Reg) (v : Word) (fl : Option Flags) :
    Writes f x ((x.setReg r v).setFlags fl) r v where
  value := setReg_self
  others _ hq _ := setReg_of_ne hq
  mem _ _ := rfl
  world := rfl

/-- Registers that differ in `rcx` only. -/
theorem Writes.of_agree {x y x' : X86.State ω} (h : Writes f y x' r v) (hreg : ∀ q, q ≠ rcx → y.reg q = x.reg q)
    (hmem : y.mem = x.mem) (hworld : y.world = x.world) : Writes f x x' r v where
  value := h.value
  others q hq hrcx := (h.others q hq hrcx).trans (hreg q hrcx)
  mem a ha := (h.mem a ha).trans (congrFun hmem a)
  world := h.world.trans hworld

/-! ### Push and pop -/

def pushed (x : X86.State ω) (r : Reg) : X86.State ω :=
  (x.setMem (x.mem.store (x.reg rsp - 8) (x.reg r) 8)).setReg rsp (x.reg rsp - 8)

theorem runsTo_push (r : Reg) (x : X86.State ω) : RunsTo callee (emitPush r) x (pushed x r) none :=
  (decodes_push r).runsTo rfl

/-- **Code between a `push` and a `pop`** that leaves the stack pointer and the word there as they are. -/
theorem bracket {c : Code} {x y : X86.State ω} {r : Reg} (h : RunsTo callee c (pushed x r) y none)
    (hrsp : y.reg rsp = x.reg rsp - 8)
    (hmem : ∀ k < 8, y.mem (x.reg rsp - 8 + BitVec.ofNat 64 k) =
      (pushed x r).mem (x.reg rsp - 8 + BitVec.ofNat 64 k)) :
    RunsTo callee (emitPush r ++ c ++ emitPop r) x ((y.setReg rsp (x.reg rsp)).setReg r (x.reg r)) none := by
  have hpop : effect callee y (.pop r) = some ((y.setReg rsp (x.reg rsp)).setReg r (x.reg r)) := by
    have hload : y.mem.load (y.reg rsp) 8 = x.reg r := by
      rw [hrsp, Memory.load_congr hmem]
      exact Memory.load_store _ _ _
    have hsp : y.reg rsp + 8 = x.reg rsp := by
      rw [hrsp]
      exact BitVec.sub_add_cancel _ _
    rw [effect, hload, hsp]
  exact ((runsTo_push r x).append h).append ((decodes_pop r).runsTo hpop)

/-! ### Multiplication and division -/

/-- An arithmetic instruction of the interpreter. -/
def aluResult (wd : Width) (op : AluOp) (k : Operand) (a v : Word) : AluResult :=
  match wd with
  | .w32 => alu32 op k a v
  | .w64 => alu64 op k a v

theorem divide_ok {k : Operand} {d q v : Word} {isZero : Bool} (h : Ubpf.divide k d isZero q = .ok v) :
    isZero = false ∧ q = v := by
  rw [Ubpf.divide] at h
  split_ifs at h with h1 h2
  · exact ⟨by simpa using h2, by cases h; rfl⟩

/-- The part of `muldivmod` between saving registers and restoring them. -/
def mulCore (wd : Width) (op : AluOp) (src dst : Reg) (imm : BitVec 32) : Code :=
  (if imm ≠ 0 then emitLoadImm rcx (imm.signExtend 64) else emitMov src rcx) ++ emitMov dst rax ++
    (if op = .div ∨ op = .mod then emitAlu32 0x31#8 rdx rdx else []) ++
    (if wd = .w64 then emitRex true false false false else []) ++
    emitAlu32 0xf7#8 (if op = .mul then 4 else 6) rcx

/-- The operand in `rcx`. -/
def factor (x : X86.State ω) (src : Reg) (imm : BitVec 32) : Word :=
  if imm ≠ 0 then imm.signExtend 64 else x.reg src

/-- `rax`, `rdx` and `rcx` are written. -/
structure Pair (y z : X86.State ω) (lo hi : Word) : Prop where
  rax : z.reg rax = lo
  rdx : z.reg rdx = hi
  others : ∀ q, q ≠ X86.rax → q ≠ X86.rdx → q ≠ rcx → z.reg q = y.reg q
  mem : z.mem = y.mem
  world : z.world = y.world

theorem Pair.of_setPair {y y₂ : X86.State ω} (h : ∀ q, q ≠ X86.rax → q ≠ X86.rdx → q ≠ rcx → y₂.reg q = y.reg q)
    (hmem : y₂.mem = y.mem) (hworld : y₂.world = y.world) (lo hi : Word) : Pair y (y₂.setPair lo hi) lo hi where
  rax := by
    show ((y₂.setReg X86.rax lo).setReg X86.rdx hi).reg X86.rax = lo
    rw [setReg_of_ne (by decide), setReg_self]
  rdx := by
    show ((y₂.setReg X86.rax lo).setReg X86.rdx hi).reg X86.rdx = hi
    exact setReg_self
  others q h1 h2 h3 := by
    show ((y₂.setReg X86.rax lo).setReg X86.rdx hi).reg q = y.reg q
    rw [setReg_of_ne h2, setReg_of_ne h1, h q h1 h2 h3]
  mem := hmem
  world := hworld

/-- The operands are moved to `rcx` and `rax`. -/
theorem runsTo_operands (src : Reg) {dst : Reg} (hdst : dst ≠ rcx) (imm : BitVec 32) (y : X86.State ω) :
    RunsTo callee ((if imm ≠ 0 then emitLoadImm rcx (imm.signExtend 64) else emitMov src rcx) ++
      emitMov dst rax) y
      ((y.setReg rcx (factor y src imm)).setReg rax (y.reg dst)) none := by
  have hfactor : RunsTo callee (if imm ≠ 0 then emitLoadImm rcx (imm.signExtend 64) else emitMov src rcx) y
      (y.setReg rcx (factor y src imm)) none := by
    rw [factor]
    split
    · exact runsTo_loadImm _ _ _
    · exact runsTo_mov _ _ _
  have hmov : RunsTo callee (emitMov dst rax) (y.setReg rcx (factor y src imm))
      ((y.setReg rcx (factor y src imm)).setReg rax ((y.setReg rcx (factor y src imm)).reg dst)) none :=
    runsTo_mov dst rax _
  rw [setReg_of_ne hdst] at hmov
  exact hfactor.append hmov

theorem emit_f7 (wd : Width) (digit : Reg) (h : top digit = false) :
    (if wd = .w64 then emitRex true false false false else []) ++ emitAlu32 0xf7#8 digit rcx =
      emitAlu (decide (wd = .w64)) 0xf7#8 digit rcx := by
  have hrcx : top rcx = false := rfl
  cases wd
  · rfl
  · rw [emitAlu32, emitAlu, emitAlu, emitBasicRex, emitBasicRex, h, hrcx]
    rfl

theorem mulCore_mul {wd : Width} {k : Operand} (src : Reg) {dst : Reg} (hdst : dst ≠ rcx) (imm : BitVec 32)
    (y : X86.State ω) {v : Word} (hv : aluResult wd .mul k (y.reg dst) (factor y src imm) = .ok v) :
    ∃ z hi, RunsTo callee (mulCore wd .mul src dst imm) y z none ∧ Pair y z v hi := by
  set b := factor y src imm
  set y₂ := (y.setReg rcx b).setReg rax (y.reg dst)
  have hv' : productLow (decide (wd = .w64)) (y.reg dst) b = v := by
    cases wd <;> exact AluResult.ok.inj hv
  have heffect : effect callee y₂ (.mul (decide (wd = .w64)) rcx) =
      some (y₂.setPair v (productHigh (decide (wd = .w64)) (y.reg dst) b)) := by
    rw [← hv']
    rfl
  have hcode : mulCore wd .mul src dst imm = ((if imm ≠ 0 then emitLoadImm rcx (imm.signExtend 64)
      else emitMov src rcx) ++ emitMov dst rax) ++ emitAlu (decide (wd = .w64)) 0xf7#8 4 rcx := by
    rw [← emit_f7 wd 4 rfl, mulCore]
    simp
  have hrun : RunsTo callee (mulCore wd .mul src dst imm) y
      (y₂.setPair v (productHigh (decide (wd = .w64)) (y.reg dst) b)) none := by
    rw [hcode]
    exact (runsTo_operands src hdst imm y).append ((decodes_mul _ rcx).runsTo heffect)
  have hothers : ∀ q, q ≠ rax → q ≠ rdx → q ≠ rcx → y₂.reg q = y.reg q := fun q h1 _ h3 =>
    (setReg_of_ne h1).trans (setReg_of_ne h3)
  exact ⟨_, _, hrun, Pair.of_setPair hothers rfl rfl v _⟩

/-- A single word is divided where the interpreter divides. -/
theorem divide_spec {wd : Width} {op : AluOp} {k : Operand} (hop : op = .div ∨ op = .mod) {a b v : Word}
    (hv : aluResult wd op k a b = .ok v) : ∃ lo hi, v = (if op = .mod then hi else lo) ∧
      ∀ s : X86.State ω, s.reg rdx = 0 → s.reg rax = a →
        X86.divide (decide (wd = .w64)) s b = some (s.setPair lo hi) := by
  cases wd with
  | w32 =>
    have hres : u32 b ≠ 0 ∧
        v = if op = .mod then (u32 a % u32 b).setWidth 64 else (u32 a / u32 b).setWidth 64 := by
      rcases hop with rfl | rfl
      · obtain ⟨hzero, rfl⟩ := divide_ok hv
        exact ⟨of_decide_eq_false hzero, rfl⟩
      · obtain ⟨hzero, rfl⟩ := divide_ok hv
        exact ⟨of_decide_eq_false hzero, rfl⟩
    refine ⟨_, _, hres.2, fun s hrdx hrax => ?_⟩
    have hquotient := quotient_zero (u32 a) (u32 b) hres.1
    have hdivide : X86.divide false s b =
        (quotient ((s.reg rdx).setWidth 32) ((s.reg rax).setWidth 32) (b.setWidth 32)).map fun r =>
          s.setPair (r.1.setWidth 64) (r.2.setWidth 64) := rfl
    have hlow : (0 : Word).setWidth 32 = 0 := rfl
    rw [show decide (Width.w32 = .w64) = false from rfl, hdivide, hrdx, hrax, hlow]
    exact congrArg (Option.map _) hquotient
  | w64 =>
    have hres : b ≠ 0 ∧ v = if op = .mod then a % b else a / b := by
      rcases hop with rfl | rfl
      · obtain ⟨hzero, rfl⟩ := divide_ok hv
        exact ⟨of_decide_eq_false hzero, rfl⟩
      · obtain ⟨hzero, rfl⟩ := divide_ok hv
        exact ⟨of_decide_eq_false hzero, rfl⟩
    refine ⟨_, _, hres.2, fun s hrdx hrax => ?_⟩
    have hdivide : X86.divide true s b =
        (quotient (s.reg rdx) (s.reg rax) b).map fun r => s.setPair r.1 r.2 := rfl
    rw [show decide (Width.w64 = .w64) = true from rfl, hdivide, hrdx, hrax]
    exact congrArg (Option.map _) (quotient_zero a b hres.1)

theorem mulCore_div {wd : Width} {op : AluOp} {k : Operand} (hop : op = .div ∨ op = .mod) (src : Reg)
    {dst : Reg}
    (hdst : dst ≠ rcx) (imm : BitVec 32) (y : X86.State ω) {v : Word}
    (hv : aluResult wd op k (y.reg dst) (factor y src imm) = .ok v) :
    ∃ z lo hi, RunsTo callee (mulCore wd op src dst imm) y z none ∧ Pair y z lo hi ∧
      v = if op = .mod then hi else lo := by
  set b := factor y src imm
  set y₂ := (y.setReg rcx b).setReg rax (y.reg dst)
  set y₃ := (y₂.setReg rdx 0).setFlags none
  have hxor : effect callee y₂ (.alu false .xor rdx rdx) = some y₃ := by
    have hzero : widen false (y₂.reg rdx ^^^ y₂.reg rdx) = 0 := by
      rw [BitVec.xor_self]
      rfl
    have heffect : effect callee y₂ (.alu false .xor rdx rdx) =
        some ((y₂.setReg rdx (widen false (y₂.reg rdx ^^^ y₂.reg rdx))).setFlags none) := rfl
    rw [heffect, hzero]
  have hrax : y₃.reg rax = y.reg dst := by
    show (y₂.setReg rdx 0).reg rax = y.reg dst
    rw [setReg_of_ne (by decide), setReg_self]
  have hrcx : y₃.reg rcx = b := by
    show (y₂.setReg rdx 0).reg rcx = b
    rw [setReg_of_ne (by decide), setReg_of_ne (by decide), setReg_self]
  have hrdx : y₃.reg rdx = 0 := by
    show (y₂.setReg rdx 0).reg rdx = 0
    exact setReg_self
  obtain ⟨lo, hi, hres, hdivide⟩ := divide_spec (ω := ω) hop hv
  have heffect : effect callee y₃ (.div (decide (wd = .w64)) rcx) = some (y₃.setPair lo hi) := by
    rw [effect, hrcx]
    exact hdivide y₃ hrdx hrax
  have hcode : mulCore wd op src dst imm = (((if imm ≠ 0 then emitLoadImm rcx (imm.signExtend 64)
      else emitMov src rcx) ++ emitMov dst rax) ++ emitAlu false 0x31#8 rdx rdx) ++
        emitAlu (decide (wd = .w64)) 0xf7#8 6 rcx := by
    have hmul : op ≠ .mul := by rcases hop with rfl | rfl <;> decide
    rw [← emit_f7 wd 6 rfl, mulCore, if_pos hop, if_neg hmul, List.append_assoc]
    rfl
  have hrun : RunsTo callee (mulCore wd op src dst imm) y (y₃.setPair lo hi) none := by
    rw [hcode]
    exact ((runsTo_operands src hdst imm y).append ((decodes_xor false rdx rdx).runsTo hxor)).append
      ((decodes_div _ rcx).runsTo heffect)
  have hothers : ∀ q, q ≠ rax → q ≠ rdx → q ≠ rcx → y₃.reg q = y.reg q := fun q h1 h2 h3 =>
    (setReg_of_ne h2).trans ((setReg_of_ne h1).trans (setReg_of_ne h3))
  exact ⟨_, lo, hi, hrun, Pair.of_setPair hothers rfl rfl lo hi, hres⟩

/-- The operations of `muldivmod`. -/
def IsMul (op : AluOp) : Prop := op = .mul ∨ op = .div ∨ op = .mod

theorem mulCore_spec (callee : Callee ω) {wd : Width} {op : AluOp} {k : Operand} (hop : IsMul op) (src : Reg)
    {dst : Reg}
    (hdst : dst ≠ rcx) (imm : BitVec 32) (y : X86.State ω) {v : Word}
    (hv : aluResult wd op k (y.reg dst) (factor y src imm) = .ok v) :
    ∃ z lo hi, RunsTo callee (mulCore wd op src dst imm) y z none ∧ Pair y z lo hi ∧
      v = if op = .mod then hi else lo := by
  rcases hop with rfl | hop
  · obtain ⟨z, hi, hrun, hpair⟩ := mulCore_mul src hdst imm y hv
    exact ⟨z, v, hi, hrun, hpair, rfl⟩
  · exact mulCore_div hop src hdst imm y hv

/-- The state behind a `mov` that is there or not. -/
def moveIf (m : Prop) [Decidable m] (src dst : Reg) (x : X86.State ω) : X86.State ω :=
  if m then x.setReg dst (x.reg src) else x

section MoveIf

variable (m : Prop) [Decidable m] (src dst : Reg) (x : X86.State ω)

theorem runsTo_moveIf :
    RunsTo callee (if m then emitMov src dst else []) x (moveIf m src dst x) none := by
  rw [moveIf]
  split
  · exact runsTo_mov src dst x
  · exact .nil x

theorem moveIf_of_ne {q : Reg} (h : q ≠ dst) : (moveIf m src dst x).reg q = x.reg q := by
  rw [moveIf]
  split
  · exact setReg_of_ne h
  · rfl

theorem moveIf_mem : (moveIf m src dst x).mem = x.mem := by
  rw [moveIf]
  split <;> rfl

theorem moveIf_world : (moveIf m src dst x).world = x.world := by
  rw [moveIf]
  split <;> rfl

theorem moveIf_self (h : m) : (moveIf m src dst x).reg dst = x.reg src := by
  rw [moveIf, if_pos h, setReg_self]

end MoveIf

def mulBody (wd : Width) (op : AluOp) (src dst : Reg) (imm : BitVec 32) : Code :=
  (if dst ≠ rax then emitPush rax else []) ++
    (if dst ≠ rdx then emitPush rdx else []) ++ mulCore wd op src dst imm ++
    (if dst ≠ rdx then (if op = .mod then emitMov rdx dst else []) ++ emitPop rdx else []) ++
    (if dst ≠ rax then (if op = .div ∨ op = .mul then emitMov rax dst else []) ++ emitPop rax else [])

theorem pushed_of_ne (x : X86.State ω) {r q : Reg} (h : q ≠ rsp) : (pushed x r).reg q = x.reg q :=
  setReg_of_ne h

theorem pushed_rsp (x : X86.State ω) (r : Reg) : (pushed x r).reg rsp = x.reg rsp - 8 := setReg_self

theorem pushed_mem (x : X86.State ω) (r : Reg) (a : Word) (h : 8 ≤ (a - (x.reg rsp - 8)).toNat) :
    (pushed x r).mem a = x.mem a := by
  show x.mem.store (x.reg rsp - 8) (x.reg r) 8 a = x.mem a
  rw [Memory.store_apply, if_neg (Nat.not_lt.mpr h)]

/-- The operands of `muldivmod` are not touched by pushing. -/
theorem factor_pushed (x : X86.State ω) (r : Reg) {src : Reg} (h : src ≠ rsp) (imm : BitVec 32) :
    factor (pushed x r) src imm = factor x src imm := by
  rw [factor, factor, pushed_of_ne x h]

section Body

variable {wd : Width} {op : AluOp} {k : Operand} {src dst : Reg} {imm : BitVec 32}

/-- The destination is `rax` or `rdx`: the other one is saved, and the result moved if it is there. -/
theorem mulBody_one (callee : Callee ω) (hop : IsMul op) {other : Reg} (hsrc : src ≠ rsp) (hdst : dst ≠ rcx)
    (hrsp : dst ≠ rsp)
    (hv : aluResult wd op k (x.reg dst) (factor x src imm) = .ok v) (m : Prop) [Decidable m]
    (hpair : dst = rax ∧ other = rdx ∧ (m ↔ op = .mod) ∨ dst = rdx ∧ other = rax ∧ (m ↔ op ≠ .mod))
    (hbase : x.reg rsp = f.base) :
    ∃ x', RunsTo callee (emitPush other ++ (mulCore wd op src dst imm ++ if m then emitMov other dst else []) ++
      emitPop other) x x' none ∧ Writes f x x' dst v := by
  have hv' : aluResult wd op k ((pushed x other).reg dst) (factor (pushed x other) src imm) = .ok v := by
    rw [factor_pushed x other hsrc, pushed_of_ne x hrsp]
    exact hv
  obtain ⟨z, lo, hi, hcore, hz, hres⟩ := mulCore_spec callee hop src hdst imm (pushed x other) hv'
  have hne : dst ≠ other := by
    rcases hpair with ⟨rfl, rfl, -⟩ | ⟨rfl, rfl, -⟩ <;> decide
  have hmem : (moveIf m other dst z).mem = (pushed x other).mem := (moveIf_mem m other dst z).trans hz.mem
  have hsp : (moveIf m other dst z).reg rsp = x.reg rsp - 8 := by
    rw [moveIf_of_ne m other dst z hrsp.symm, hz.others rsp (by decide) (by decide) (by decide), pushed_rsp]
  have hrun := bracket (hcore.append (runsTo_moveIf m other dst z)) hsp fun k _ => by rw [hmem]
  refine ⟨_, hrun, ⟨?_, fun q hq hrcx => ?_, fun a ha => ?_, (moveIf_world m other dst z).trans hz.world⟩⟩
  · rw [setReg_of_ne hne, setReg_of_ne hrsp, hres]
    by_cases hm : m
    · rw [moveIf_self m other dst z hm]
      rcases hpair with ⟨-, rfl, hmod⟩ | ⟨-, rfl, hmod⟩
      · rw [if_pos (hmod.mp hm), hz.rdx]
      · rw [if_neg (hmod.mp hm), hz.rax]
    · rw [moveIf, if_neg hm]
      rcases hpair with ⟨rfl, -, hmod⟩ | ⟨rfl, -, hmod⟩
      · rw [if_neg fun h => hm (hmod.mpr h), hz.rax]
      · rw [if_pos (not_not.mp fun h => hm (hmod.mpr h)), hz.rdx]
  · by_cases hqo : q = other
    · rw [hqo, setReg_self]
    · rw [setReg_of_ne hqo]
      by_cases hqs : q = rsp
      · rw [hqs, setReg_self]
      · have hq' : q ≠ rax ∧ q ≠ rdx := by
          rcases hpair with ⟨rfl, rfl, -⟩ | ⟨rfl, rfl, -⟩
          · exact ⟨hq, hqo⟩
          · exact ⟨hqo, hq⟩
        rw [setReg_of_ne hqs, moveIf_of_ne m other dst z hq, hz.others q hq'.1 hq'.2 hrcx, pushed_of_ne x hqs]
  · show (moveIf m other dst z).mem a = x.mem a
    rw [hmem]
    exact pushed_mem x other a (hbase ▸ (f.push_below ha).1)

/-- The destination is neither `rax` nor `rdx`: both are saved. -/
theorem mulBody_two (callee : Callee ω) (hop : IsMul op) (hsrc : src ≠ rsp) (hdst : dst ≠ rcx)
    (hrsp : dst ≠ rsp) (hrax : dst ≠ rax)
    (hrdx : dst ≠ rdx) (hv : aluResult wd op k (x.reg dst) (factor x src imm) = .ok v)
    (hbase : x.reg rsp = f.base) :
    ∃ x', RunsTo callee (emitPush rax ++ (emitPush rdx ++ (mulCore wd op src dst imm ++
      if op = .mod then emitMov rdx dst else []) ++ emitPop rdx ++
        if op = .div ∨ op = .mul then emitMov rax dst else []) ++ emitPop rax) x x' none ∧
          Writes f x x' dst v := by
  set p := pushed x rax with hp
  have hv' : aluResult wd op k ((pushed p rdx).reg dst) (factor (pushed p rdx) src imm) = .ok v := by
    rw [factor_pushed p rdx hsrc, factor_pushed x rax hsrc, pushed_of_ne p hrsp, pushed_of_ne x hrsp]
    exact hv
  obtain ⟨z, lo, hi, hcore, hz, hres⟩ := mulCore_spec callee hop src hdst imm (pushed p rdx) hv'
  -- behind the inner `pop`
  set y := moveIf (op = .mod) rdx dst z with hy
  have hmem : y.mem = (pushed p rdx).mem := (moveIf_mem _ _ _ z).trans hz.mem
  have hsp : y.reg rsp = p.reg rsp - 8 := by
    rw [hy, moveIf_of_ne _ _ _ z hrsp.symm, hz.others rsp (by decide) (by decide) (by decide), pushed_rsp]
  have hinner := bracket (hcore.append (runsTo_moveIf (op = .mod) rdx dst z)) hsp fun k _ => by rw [← hmem]
  set y₁ := (y.setReg rsp (p.reg rsp)).setReg rdx (p.reg rdx) with hy₁
  -- behind the outer one
  set y₂ := moveIf (op = .div ∨ op = .mul) rax dst y₁ with hy₂
  have hmem₂ : y₂.mem = (pushed p rdx).mem := (moveIf_mem _ _ _ y₁).trans hmem
  have hsp₂ : y₂.reg rsp = x.reg rsp - 8 := by
    rw [hy₂, moveIf_of_ne _ _ _ y₁ hrsp.symm, hy₁, setReg_of_ne (by decide), setReg_self, hp, pushed_rsp]
  have hword : ∀ k < 8, y₂.mem (x.reg rsp - 8 + BitVec.ofNat 64 k) =
      (pushed x rax).mem (x.reg rsp - 8 + BitVec.ofNat 64 k) := fun k hk => by
    rw [hmem₂]
    refine pushed_mem p rdx _ ?_
    rw [hp, pushed_rsp]
    bv_omega
  have hrun := bracket (hinner.append (runsTo_moveIf (op = .div ∨ op = .mul) rax dst y₁)) hsp₂ hword
  have hworld : y₂.world = x.world :=
    (moveIf_world _ _ _ y₁).trans ((moveIf_world _ _ _ z).trans hz.world)
  refine ⟨_, hrun, ⟨?_, fun q hq hrcx => ?_, fun a ha => ?_, hworld⟩⟩
  · rw [setReg_of_ne hrax, setReg_of_ne hrsp, hres]
    by_cases hmod : op = .mod
    · have hnot : ¬(op = .div ∨ op = .mul) := by
        rw [hmod]
        decide
      rw [moveIf, if_neg hnot, if_pos hmod, hy₁, setReg_of_ne hrdx, setReg_of_ne hrsp, hy,
        moveIf_self _ _ _ z hmod, hz.rdx]
    · have hdiv : op = .div ∨ op = .mul := by
        rcases hop with h | h | h
        · exact .inr h
        · exact .inl h
        · exact absurd h hmod
      rw [moveIf_self _ _ _ y₁ hdiv, if_neg hmod, hy₁, setReg_of_ne (by decide), setReg_of_ne (by decide), hy,
        moveIf_of_ne _ _ _ z hrax.symm, hz.rax]
  · by_cases hqa : q = rax
    · rw [hqa, setReg_self]
    · rw [setReg_of_ne hqa]
      by_cases hqs : q = rsp
      · rw [hqs, setReg_self]
      · rw [setReg_of_ne hqs, moveIf_of_ne _ _ _ y₁ hq, hy₁]
        by_cases hqd : q = rdx
        · rw [hqd, setReg_self, hp, pushed_of_ne x (by decide)]
        · rw [setReg_of_ne hqd, setReg_of_ne hqs, hy, moveIf_of_ne _ _ _ z hq, hz.others q hqa hqd hrcx,
            pushed_of_ne p hqs, pushed_of_ne x hqs]
  · show y₂.mem a = x.mem a
    obtain ⟨hfirst, hsecond⟩ := f.push_below ha
    rw [hmem₂, pushed_mem p rdx a (by rw [hp, pushed_rsp, hbase]; exact hsecond), hp,
      pushed_mem x rax a (by rw [hbase]; exact hfirst)]

/-- **The operation of `muldivmod`**, where the operand is not zero. -/
theorem mulBody_writes (callee : Callee ω) (hop : IsMul op) (hsrc : src ≠ rsp) (hdst : dst ≠ rcx)
    (hrsp : dst ≠ rsp)
    (hv : aluResult wd op k (x.reg dst) (factor x src imm) = .ok v) (hbase : x.reg rsp = f.base) :
    ∃ x', RunsTo callee (mulBody wd op src dst imm) x x' none ∧ Writes f x x' dst v := by
  by_cases hrax : dst = rax
  · have hne : dst ≠ rdx := by rw [hrax]; decide
    obtain ⟨x', hrun, hwrites⟩ := mulBody_one callee hop hsrc hdst hrsp hv (op = .mod)
      (.inl ⟨hrax, rfl, Iff.rfl⟩) hbase
    refine ⟨x', ?_, hwrites⟩
    rw [mulBody, if_neg (not_not_intro hrax), if_pos hne, if_pos hne, if_neg (not_not_intro hrax),
      List.nil_append,
      List.append_nil, List.append_assoc, ← List.append_assoc (mulCore _ _ _ _ _), ← List.append_assoc]
    exact hrun
  · by_cases hrdx : dst = rdx
    · have hiff : (op = .div ∨ op = .mul) ↔ op ≠ .mod := by
        rcases hop with rfl | rfl | rfl <;> decide
      obtain ⟨x', hrun, hwrites⟩ := mulBody_one callee hop hsrc hdst hrsp hv (op = .div ∨ op = .mul)
        (.inr ⟨hrdx, rfl, hiff⟩) hbase
      refine ⟨x', ?_, hwrites⟩
      rw [mulBody, if_pos hrax, if_neg (not_not_intro hrdx), if_neg (not_not_intro hrdx), if_pos hrax,
        List.append_nil, List.append_nil, List.append_assoc, ← List.append_assoc (mulCore _ _ _ _ _),
        ← List.append_assoc]
      exact hrun
    · obtain ⟨x', hrun, hwrites⟩ := mulBody_two callee hop hsrc hdst hrsp hrax hrdx hv hbase
      refine ⟨x', ?_, hwrites⟩
      rw [mulBody, if_pos hrax, if_pos hrdx, if_pos hrdx, if_pos hrax]
      simpa only [List.append_assoc] using hrun

end Body

/-! ### The test of a divisor -/

theorem u32_signExtend (imm : BitVec 32) : u32 (imm.signExtend 64) = imm := by
  apply BitVec.eq_of_getLsbD_eq
  intro i hi
  rw [u32, BitVec.getLsbD_setWidth, BitVec.getLsbD_signExtend]
  simp [hi, show i < 64 by omega]

def isZero (wd : Width) (v : Word) : Bool :=
  match wd with
  | .w32 => u32 v = 0
  | .w64 => v = 0

theorem ccOf_je : ccOf ((0x84#8).toNat % 16) = some .e := rfl

theorem runsTo_jz {y : X86.State ω} {fl : Flags} (h : y.flags = some fl) : RunsTo callee
    (emitJcc 0x84#8 targetPcDivByZero) y y (if fl.eq then some targetPcDivByZero else none) := by
  refine ⟨_, encodes_jcc (by decide) ccOf_je targetPcDivByZero, ?_⟩
  rw [runItems, h, Option.bind_some, Cc.holds]
  cases fl.eq <;> rfl

theorem test_self (callee : Callee ω) (wd : Width) (y : X86.State ω) (src : Reg) :
    ∃ fl : Flags, fl.eq = isZero wd (y.reg src) ∧
    effect callee y (.test (decide (wd = .w64)) src src) = some (y.setFlags (some fl)) := by
  cases wd
  · refine ⟨testFlags (u32 (y.reg src)) (u32 (y.reg src)), ?_, rfl⟩
    rw [testFlags, BitVec.and_self]
    rfl
  · refine ⟨testFlags (y.reg src) (y.reg src), ?_, rfl⟩
    rw [testFlags, BitVec.and_self]
    rfl

theorem divisorTest_reg (callee : Callee ω) (pc : ℕ) (wd : Width) (src : Reg) (hsrc : src ≠ rcx)
    (imm : BitVec 32) (x : X86.State ω) :
    ∃ fl, RunsTo callee (emitDivisorTest pc (decide (wd = .w64)) true src imm) x
      ((x.setReg rcx (BitVec.ofNat 64 pc)).setFlags fl)
      (if isZero wd (x.reg src) then some targetPcDivByZero else none) := by
  obtain ⟨fl, hfl, htest⟩ := test_self callee wd (x.setReg rcx (BitVec.ofNat 64 pc)) src
  rw [setReg_of_ne hsrc] at hfl
  have hcode : emitDivisorTest pc (decide (wd = .w64)) true src imm = emitLoadImm rcx (BitVec.ofNat 64 pc) ++
      emitAlu (decide (wd = .w64)) 0x85#8 src src ++ emitJcc 0x84#8 targetPcDivByZero := by
    cases wd <;> rfl
  refine ⟨some fl, ?_⟩
  rw [hcode, ← hfl]
  exact ((runsTo_loadImm _ _ _).append ((decodes_test _ _ _).runsTo htest)).append (runsTo_jz rfl)

theorem muldivmod_eq {pc : ℕ} {wd : Width} {op : AluOp} (hop : IsMul op) (k : Operand) (src dst : Reg)
    (imm : BitVec 32) : muldivmod pc wd op k src dst imm =
      (if op ≠ .mul ∧ (k = .reg ∨ imm = 0) then
        emitDivisorTest pc (decide (wd = .w64)) (decide (k = .reg)) src imm else []) ++
        mulBody wd op src dst imm := by
  rcases hop with rfl | rfl | rfl <;> simp [muldivmod, mulBody, mulCore, or_comm]

section Muldivmod

variable {wd : Width} {op : AluOp} {k : Operand} {src dst : Reg} {imm : BitVec 32}

def operand (k : Operand) (x : X86.State ω) (src : Reg) (imm : BitVec 32) : Word :=
  match k with
  | .imm => imm.signExtend 64
  | .reg => x.reg src

theorem isZero_of_ok (hop : IsMul op) (hmul : op ≠ .mul) {a b : Word} (hv : aluResult wd op k a b = .ok v) :
    isZero wd b = false := by
  rcases hop with rfl | rfl | rfl
  · exact absurd rfl hmul
  · cases wd <;> exact (divide_ok hv).1
  · cases wd <;> exact (divide_ok hv).1

/-- **Multiplication and division.** -/
theorem muldivmod_writes (callee : Callee ω) (pc : ℕ) (hop : IsMul op) (hsrc : src ≠ rsp) (hsrc' : src ≠ rcx)
    (hdst : dst ≠ rcx)
    (hrsp : dst ≠ rsp) (hfactor : factor x src imm = operand k x src imm)
    (hv : aluResult wd op k (x.reg dst) (operand k x src imm) = .ok v) (hbase : x.reg rsp = f.base) :
    ∃ x', RunsTo callee (muldivmod pc wd op k src dst imm) x x' none ∧ Writes f x x' dst v := by
  rw [muldivmod_eq hop]
  rw [← hfactor] at hv
  split
  · rename_i htest
    have hzero := isZero_of_ok hop htest.1 hv
    cases k with
    | imm =>
      have himm : imm = 0 := htest.2.resolve_left (by decide)
      rw [hfactor, operand, himm] at hzero
      cases wd <;> cases hzero
    | reg =>
      obtain ⟨fl, hrun⟩ := divisorTest_reg callee pc wd src hsrc' imm x
      rw [hfactor, operand] at hzero
      rw [hzero, if_neg Bool.false_ne_true] at hrun
      set x₁ := (x.setReg rcx (BitVec.ofNat 64 pc)).setFlags fl with hx₁
      have hregs : ∀ q, q ≠ rcx → x₁.reg q = x.reg q := fun q hq => setReg_of_ne hq
      have hv₁ : aluResult wd op .reg (x₁.reg dst) (factor x₁ src imm) = .ok v := by
        rw [factor, hregs src hsrc', hregs dst hdst]
        exact hv
      obtain ⟨x', hbody, hwrites⟩ := mulBody_writes callee hop hsrc hdst hrsp hv₁
        ((hregs rsp (by decide)).trans hbase)
      exact ⟨x', hrun.append hbody, hwrites.of_agree hregs rfl rfl⟩
  · exact mulBody_writes callee hop hsrc hdst hrsp hv hbase

end Muldivmod

/-! ### Arithmetic instructions -/

/-- Where compiled arithmetic agrees with the interpreter: a 32-bit shift to the left does not depend on
bits above the lower half, a 32-bit move moves all bits, and `muldivmod` takes a constant that is not zero
for the operand, also where a register is meant. -/
structure AluAgrees (wd : Width) (op : AluOp) (k : Operand) (v : Word) (imm : BitVec 32) : Prop where
  shift : wd = .w32 → op = .lsh → v.toNat % 64 < 32
  move : wd = .w32 → op = .mov → k = .reg → v.toNat < 2 ^ 32
  register : IsMul op → k = .reg → imm = 0
  product : op = .mul → k = .imm → imm ≠ 0

/-- An instruction that writes a register and leaves no flags. -/
theorem Decodes.writes {c : Code} {i : Instr} (h : Decodes c i)
    (heffect : effect callee x i = some ((x.setReg r v).setFlags none)) :
    ∃ x', RunsTo callee c x x' none ∧ Writes f x x' r v :=
  ⟨_, h.runsTo heffect, writes_setReg_setFlags f x r v none⟩

def shiftKind : AluOp → Shift
  | .rsh => .shr
  | .arsh => .sar
  | _ => .shl

theorem shift_value {wd : Width} {op : AluOp} (hop : op = .lsh ∨ op = .rsh ∨ op = .arsh) {k : Operand}
    {a b : Word}
    {n : ℕ} (hn : n % 64 = b.toNat % 64) (hsmall : wd = .w32 → op = .lsh → b.toNat % 64 < 32)
    (hv : aluResult wd op k a b = .ok v) : (shiftKind op).apply (decide (wd = .w64)) a n = v := by
  have hn' : n % 32 = b.toNat % 32 := by omega
  cases wd with
  | w32 =>
    rcases hop with rfl | rfl | rfl
    · cases hv
      have hcount : n % 32 = b.toNat % 64 := by
        have := hsmall rfl rfl
        omega
      show widen false (a <<< (n % 32)) = _
      rw [hcount]
      rfl
    · cases hv
      show (a.setWidth 32 >>> (n % 32)).setWidth 64 = _
      rw [hn']
      rfl
    · cases hv
      show ((a.setWidth 32).sshiftRight (n % 32)).setWidth 64 = _
      rw [hn']
      rfl
  | w64 =>
    rcases hop with rfl | rfl | rfl
    · cases hv
      show a <<< (n % 64) = _
      rw [hn]
    · cases hv
      show a >>> (n % 64) = _
      rw [hn]
    · cases hv
      show a.sshiftRight (n % 64) = _
      rw [hn]

theorem toNat_signExtend_mod (imm : BitVec 32) : (imm.setWidth 8).toNat % 64 =
    (imm.signExtend 64).toNat % 64 := by
  have hlow : (imm.signExtend 64).setWidth 32 = imm := u32_signExtend imm
  have htoNat : (imm.signExtend 64).toNat % 2 ^ 32 = imm.toNat := by
    rw [← BitVec.toNat_setWidth, hlow]
  rw [BitVec.toNat_setWidth]
  omega

def kindCode (wd : Width) (op : AluOp) (k : Operand) (src dst : Reg) (imm : BitVec 32) : Code :=
  match k with
  | .imm => emitAlu (decide (wd = .w64)) 0x81#8 (aluDigit op) dst ++ emit4 imm
  | .reg => emitAlu (decide (wd = .w64)) (aluByte op) src dst

def shiftCode (wd : Width) (op : AluOp) (k : Operand) (src dst : Reg) (imm : BitVec 32) : Code :=
  match k with
  | .imm => emitAlu (decide (wd = .w64)) 0xc1#8 (aluDigit op) dst ++ emit1 (imm.setWidth 8)
  | .reg => emitMov src rcx ++ emitAlu (decide (wd = .w64)) 0xd3#8 (aluDigit op) dst

section Alu

variable {wd : Width} {op : AluOp} {k : Operand} {src dst : Reg} {imm : BitVec 32}

theorem shiftOf_digit (hop : op = .lsh ∨ op = .rsh ∨ op = .arsh) :
    shiftOf ((aluDigit op).val % 8) = some (shiftKind op) := by
  rcases hop with rfl | rfl | rfl <;> rfl

/-- **Shifts.** -/
theorem shift_writes (hop : op = .lsh ∨ op = .rsh ∨ op = .arsh) (hdst : dst ≠ rcx)
    (hsmall : wd = .w32 → op = .lsh → (operand k x src imm).toNat % 64 < 32)
    (hv : aluResult wd op k (x.reg dst) (operand k x src imm) = .ok v) :
    ∃ x', RunsTo callee (shiftCode wd op k src dst imm) x x' none ∧ Writes f x x' dst v := by
  cases k with
  | imm =>
    have hvalue := shift_value hop (toNat_signExtend_mod imm) hsmall hv
    refine Decodes.writes (decodes_shiftImm (shiftOf_digit hop) (decide (wd = .w64)) dst (imm.setWidth 8)) ?_
    rw [effect, hvalue]
  | reg =>
    have hvalue := shift_value hop rfl hsmall hv
    have heffect : effect callee (x.setReg rcx (x.reg src)) (.shiftCl (decide (wd = .w64)) (shiftKind op) dst) =
        some (((x.setReg rcx (x.reg src)).setReg dst v).setFlags none) := by
      rw [effect, setReg_self, setReg_of_ne hdst]
      exact congrArg (fun v => some (((x.setReg rcx (x.reg src)).setReg dst v).setFlags none)) hvalue
    obtain ⟨x', hrun, hwrites⟩ := Decodes.writes (f := f)
      (decodes_shiftCl (shiftOf_digit hop) (decide (wd = .w64)) dst) heffect
    exact ⟨x', (runsTo_mov src rcx x).append hrun, hwrites.of_agree (fun q hq => setReg_of_ne hq) rfl rfl⟩

/-- **Operations of one instruction.** -/
theorem kind_writes {alu : Alu} (h : aluKind op = some alu)
    (hv : aluResult wd op k (x.reg dst) (operand k x src imm) = .ok v) :
    ∃ x', RunsTo callee (kindCode wd op k src dst imm) x x' none ∧ Writes f x x' dst v := by
  have happly : alu.apply (decide (wd = .w64)) x dst (operand k x src imm) = (x.setReg dst v).setFlags none := by
    cases op <;> cases h <;> cases wd <;> cases hv <;> rfl
  cases k with
  | imm => exact (decodes_aluImm (digit_kind h) (decide (wd = .w64)) dst imm).writes (congrArg some happly)
  | reg => exact (decodes_kind h (decide (wd = .w64)) src dst).writes (congrArg some happly)

/-- **Arithmetic instructions.** -/
theorem translateAlu_writes (callee : Callee ω) (pc : ℕ) (hsrc : src ≠ rsp) (hsrc' : src ≠ rcx)
    (hdst : dst ≠ rcx)
    (hrsp : dst ≠ rsp) (hagrees : AluAgrees wd op k (operand k x src imm) imm)
    (hv : aluResult wd op k (x.reg dst) (operand k x src imm) = .ok v) (hbase : x.reg rsp = f.base) :
    ∃ x', RunsTo callee (translateAlu pc wd op k src dst imm) x x' none ∧ Writes f x x' dst v := by
  have hmul : IsMul op → ∃ x', RunsTo callee (muldivmod pc wd op k src dst imm) x x' none ∧
    Writes f x x' dst v := by
    intro hop
    refine muldivmod_writes callee pc hop hsrc hsrc' hdst hrsp ?_ hv hbase
    cases k with
    | reg => rw [factor, if_neg (not_not_intro (hagrees.register hop rfl)), operand]
    | imm =>
      by_cases himm : imm = 0
      · by_cases hprod : op = .mul
        · exact absurd himm (hagrees.product hprod rfl)
        · have hzero := isZero_of_ok hop hprod hv
          rw [operand, himm] at hzero
          cases wd <;> cases hzero
      · rw [factor, if_pos himm, operand]
  cases op with
  | mul => exact hmul (.inl rfl)
  | div => exact hmul (.inr (.inl rfl))
  | mod => exact hmul (.inr (.inr rfl))
  | lsh => exact shift_writes (.inl rfl) hdst hagrees.shift hv
  | rsh => exact shift_writes (.inr (.inl rfl)) hdst hagrees.shift hv
  | arsh => exact shift_writes (.inr (.inr rfl)) hdst hagrees.shift hv
  | add => exact kind_writes rfl hv
  | sub => exact kind_writes rfl hv
  | or => exact kind_writes rfl hv
  | and => exact kind_writes rfl hv
  | xor => exact kind_writes rfl hv
  | mov =>
    cases k with
    | imm =>
      cases wd with
      | w32 =>
        cases hv
        exact ⟨_, (decodes_movImm false dst imm).runsTo rfl, writes_setReg f x dst _⟩
      | w64 =>
        cases hv
        exact ⟨_, runsTo_loadImm dst _ x, writes_setReg f x dst _⟩
    | reg =>
      have hvalue : x.reg src = v := by
        cases wd with
        | w32 =>
          cases hv
          apply BitVec.eq_of_toNat_eq
          have hlt : (x.reg src).toNat < 2 ^ 32 := hagrees.move rfl rfl rfl
          rw [BitVec.toNat_setWidth, u32, BitVec.toNat_setWidth]
          show (x.reg src).toNat = (x.reg src).toNat % 2 ^ 32 % 2 ^ 64
          omega
        | w64 =>
          cases hv
          rfl
      rw [← hvalue]
      exact ⟨_, runsTo_mov src dst x, writes_setReg f x dst _⟩

end Alu

end TorEbpf.Ubpf.Jit
