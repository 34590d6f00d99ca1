import TorEbpf.Ubpf.Jit

/-!
# What the code generation functions generate

The bytes of every code generation function are decoded as the instruction that is meant.

* `Decodes` — some code is one instruction;
* `Encodes` — some code is a list of instructions and of jumps to targets;
* `Encodes.placed` — such code stands in the resolved bytes as these items, with the jumps leading to the
  places of their targets.
-/

namespace TorEbpf.Ubpf.Jit

open TorEbpf.Lib
open TorEbpf.Lib.X86

/-- Some code is an instruction, whatever follows. -/
def Decodes (c : Code) (i : Instr) : Prop :=
  ∃ bytes : List Byte, c = bytes.map .byte ∧ ∀ rest, decode (bytes ++ rest) = some (i, rest)

/-! ### Immediates -/

theorem emit4_eq (x : BitVec 32) : emit4 x = [x.setWidth 8, (x >>> 8).setWidth 8, (x >>> 16).setWidth 8,
    (x >>> 24).setWidth 8].map .byte := by
  have h8 : ((x.setWidth 16) >>> 8).setWidth 8 = (x >>> 8).setWidth 8 := by
    apply BitVec.eq_of_getLsbD_eq
    intro i hi
    simp [hi, show 8 + i < 16 by omega]
  have h24 : (((x >>> 16).setWidth 16) >>> 8).setWidth 8 = (x >>> 24).setWidth 8 := by
    apply BitVec.eq_of_getLsbD_eq
    intro i hi
    simp [hi, show 8 + i < 16 by omega, show 16 + (8 + i) = 24 + i by omega]
  have h0 : (x.setWidth 16).setWidth 8 = x.setWidth 8 := BitVec.setWidth_setWidth_of_le _ (by decide)
  have h16 : ((x >>> 16).setWidth 16).setWidth 8 = (x >>> 16).setWidth 8 :=
    BitVec.setWidth_setWidth_of_le _ (by decide)
  rw [emit4, emit2, emit2, h0, h8, h16, h24]
  rfl

theorem imm32_bytes (x : BitVec 32) (rest : List Byte) :
    imm32 (x.setWidth 8 :: (x >>> 8).setWidth 8 :: (x >>> 16).setWidth 8 :: (x >>> 24).setWidth 8 :: rest) =
      some (x, rest) := by
  have hx : (x >>> 24).setWidth 8 ++ (x >>> 16).setWidth 8 ++ (x >>> 8).setWidth 8 ++ x.setWidth 8 = x := by
    apply BitVec.eq_of_getLsbD_eq
    intro i hi
    simp only [BitVec.getLsbD_append, BitVec.getLsbD_setWidth, BitVec.getLsbD_ushiftRight]
    split_ifs with h1 h2 h3
    · simp [h1]
    · simp [h2, show 8 + (i - 8) = i by omega]
    · simp [h3, show 16 + (i - 8 - 8) = i by omega]
    · simp [show i - 8 - 8 - 8 < 8 by omega, show 24 + (i - 8 - 8 - 8) = i by omega]
  rw [imm32, hx]

theorem imm64_bytes (x : Word) :
    ∃ bytes : List Byte, emit8 x = bytes.map .byte ∧ ∀ rest, imm64 (bytes ++ rest) = some (x, rest) := by
  have hx : (x >>> 32).setWidth 32 ++ x.setWidth 32 = x := by
    apply BitVec.eq_of_getLsbD_eq
    intro i hi
    simp only [BitVec.getLsbD_append, BitVec.getLsbD_setWidth, BitVec.getLsbD_ushiftRight]
    split_ifs with h
    · simp [h]
    · simp [show i - 32 < 32 by omega, show 32 + (i - 32) = i by omega]
  refine ⟨_, by rw [emit8, emit4_eq, emit4_eq, ← List.map_append], fun rest => ?_⟩
  simp only [List.cons_append, List.nil_append]
  rw [imm64, imm32_bytes]
  simp only [Option.bind_eq_bind, Option.bind_some, imm32_bytes, hx]
  rfl

/-! ### Prefixes and ModRM -/

/-- The bytes of `emit_basic_rex`. -/
def rexBytes (w : Bool) (src dst : Reg) : List Byte :=
  if w ∨ top src ∨ top dst then [rex w (top src) false (top dst)] else []

theorem emitBasicRex_eq (w : Bool) (src dst : Reg) : emitBasicRex w src dst =
    (rexBytes w src dst).map .byte := by
  rw [emitBasicRex, rexBytes]
  split_ifs <;> rfl

/-- What `emit_basic_rex` stands for. -/
def rexOf (w : Bool) (src dst : Reg) : Rex := ⟨w || top src || top dst, w, top src, top dst⟩

theorem rex_spec : ∀ w r b : Bool, rex w r false b ≠ 0x66#8 ∧ rex w r false b >>> 4 = 4#8 ∧
    (rex w r false b).getLsbD 3 = w ∧ (rex w r false b).getLsbD 2 = r ∧ (rex w r false b).getLsbD 0 = b := by
  decide

theorem decodeRex_rex (w r b : Bool) (rest : List Byte) :
    decodeRex (rex w r false b :: rest) = (⟨true, w, r, b⟩, rest) := by
  obtain ⟨-, h4, hw, hr, hb⟩ := rex_spec w r b
  rw [decodeRex, if_pos h4, hw, hr, hb]

def NoPrefix (op : Byte) : Prop := op ≠ 0x66#8 ∧ op >>> 4 ≠ 4#8

instance decidableNoPrefix (op : Byte) : Decidable (NoPrefix op) := inferInstanceAs (Decidable (_ ∧ _))

theorem decodeRex_rexBytes {op : Byte} (h : NoPrefix op) (w : Bool) (src dst : Reg) (rest : List Byte) :
    decodeRex (rexBytes w src dst ++ op :: rest) = (rexOf w src dst, op :: rest) := by
  rw [rexBytes]
  split_ifs with hany
  · have hpresent : (w || top src || top dst) = true := by
      simpa [or_assoc] using hany
    rw [rexOf, hpresent]
    exact decodeRex_rex w (top src) (top dst) (op :: rest)
  · simp only [not_or, Bool.not_eq_true] at hany
    obtain ⟨hw, hr, hb⟩ := hany
    rw [rexOf, hw, hr, hb, List.nil_append, decodeRex, if_neg h.2]
    rfl

theorem decodePrefix_rexBytes {op : Byte} (h : NoPrefix op) (w : Bool) (src dst : Reg) (rest : List Byte) :
    decodePrefix (rexBytes w src dst ++ op :: rest) = (false, rexOf w src dst, op :: rest) := by
  rw [← decodeRex_rexBytes h w src dst rest, rexBytes]
  split_ifs
  · rw [List.singleton_append, decodePrefix, if_neg (rex_spec _ _ _).1]
  · rw [List.nil_append, decodePrefix, if_neg h.1]

theorem decodePrefix_opsize (rest : List Byte) : decodePrefix (0x66#8 :: rest) = (true, decodeRex rest) := rfl

theorem extend_top (r : Reg) {n : ℕ} (h : n % 8 = r.val % 8) : extend (top r) n = r := by
  have hr := r.isLt
  apply Fin.ext
  rw [extend, top]
  simp only [decide_eq_true_eq]
  split_ifs <;> omega

theorem toNat_modrm {k : ℕ} (hk : k < 4) (r m : Reg) :
    (modrm (BitVec.ofNat 8 (64 * k)) r m).toNat = 64 * k + 8 * (r.val % 8) + m.val % 8 := by
  have hmod : (BitVec.ofNat 8 (64 * k) &&& 0xc0#8).toNat = k <<< 6 := by
    rcases (by omega : k = 0 ∨ k = 1 ∨ k = 2 ∨ k = 3) with rfl | rfl | rfl | rfl <;> rfl
  have hr : (BitVec.ofNat 8 (r.val % 8) <<< 3).toNat = (r.val % 8) <<< 3 := by
    rw [BitVec.toNat_shiftLeft, BitVec.toNat_ofNat, Nat.mod_eq_of_lt (by omega : r.val % 8 < 2 ^ 8),
      Nat.shiftLeft_eq]
    omega
  have hm : (BitVec.ofNat 8 (m.val % 8)).toNat = m.val % 8 := by
    rw [BitVec.toNat_ofNat]
    omega
  have hlt : (r.val % 8) <<< 3 < 2 ^ 6 := by
    rw [Nat.shiftLeft_eq]
    omega
  have hjoin : k <<< 6 + (r.val % 8) <<< 3 = (8 * k + r.val % 8) <<< 3 := by
    simp only [Nat.shiftLeft_eq]
    omega
  rw [modrm, BitVec.toNat_or, BitVec.toNat_or, hmod, hr, hm, ← Nat.shiftLeft_add_eq_or_of_lt hlt, hjoin,
    ← Nat.shiftLeft_add_eq_or_of_lt (by omega : m.val % 8 < 2 ^ 3), Nat.shiftLeft_eq]
  omega

theorem modOf_modrm {k : ℕ} (hk : k < 4) (r m : Reg) : modOf (modrm (BitVec.ofNat 8 (64 * k)) r m) = k := by
  rw [modOf, toNat_modrm hk]
  omega

theorem digitOf_modrm {k : ℕ} (hk : k < 4) (r m : Reg) :
    digitOf (modrm (BitVec.ofNat 8 (64 * k)) r m) = r.val % 8 := by
  rw [digitOf, toNat_modrm hk]
  omega

theorem rm_modrm (w : Bool) {k : ℕ} (hk : k < 4) (r m : Reg) :
    (rexOf w r m).rm (modrm (BitVec.ofNat 8 (64 * k)) r m) = m := by
  refine extend_top m ?_
  rw [toNat_modrm hk]
  omega

theorem reg_modrm (w : Bool) {k : ℕ} (hk : k < 4) (r m : Reg) :
    (rexOf w r m).reg (modrm (BitVec.ofNat 8 (64 * k)) r m) = r := by
  refine extend_top r ?_
  rw [digitOf_modrm hk, Nat.mod_mod]

def HasModrm (op : Byte) : Prop := NoPrefix op ∧ op ≠ 0x0f#8 ∧ op >>> 3 ≠ 0x0a#8 ∧ op >>> 3 ≠ 0x0b#8 ∧
  op >>> 3 ≠ 0x17#8 ∧ op ≠ 0xe9#8 ∧ op ≠ 0xc3#8

instance decidableHasModrm (op : Byte) : Decidable (HasModrm op) := inferInstanceAs (Decidable (_ ∧ _))

theorem decodeOpcode_modrm {op : Byte} (h : HasModrm op) (opsize : Bool) (rex : Rex) (l : List Byte) :
    decodeOpcode opsize rex (op :: l) = decodeModrm opsize rex op l := by
  obtain ⟨-, h0f, h0a, h0b, h17, he9, hc3⟩ := h
  rw [decodeOpcode, if_neg h0f, if_neg h0a, if_neg h0b, if_neg h17, if_neg he9, if_neg hc3]

theorem decode_reg {op : Byte} (h : HasModrm op) (w : Bool) (src dst : Reg) (rest : List Byte) :
    decode (rexBytes w src dst ++ op :: modrm 0xc0#8 src dst :: rest) =
      decodeReg (rexOf w src dst) op (modrm 0xc0#8 src dst) rest := by
  rw [decode, decodePrefix_rexBytes h.1]
  dsimp only
  have hmod : modOf (modrm 0xc0#8 src dst) = 3 := modOf_modrm (by decide : 3 < 4) src dst
  rw [decodeOpcode_modrm h, decodeModrm, if_neg (not_not_intro hmod), if_neg Bool.false_ne_true]

theorem emitAlu_eq (w : Bool) (op : Byte) (src dst : Reg) :
    emitAlu w op src dst = (rexBytes w src dst ++ [op, modrm 0xc0#8 src dst]).map .byte := by
  rw [emitAlu, emitBasicRex_eq, List.map_append, List.append_assoc]
  rfl

/-- An opcode for two registers, or a register and a digit, and what follows. -/
theorem decodes_emitAlu {op : Byte} (h : HasModrm op) {w : Bool} {src dst : Reg} {tail : List Byte} {i : Instr}
    (hi : ∀ rest, decodeReg (rexOf w src dst) op (modrm 0xc0#8 src dst) (tail ++ rest) = some (i, rest)) :
    Decodes (emitAlu w op src dst ++ tail.map .byte) i := by
  refine ⟨rexBytes w src dst ++ op :: modrm 0xc0#8 src dst :: tail, ?_, fun rest => ?_⟩
  · rw [emitAlu_eq, ← List.map_append, List.append_assoc]
    rfl
  · rw [List.append_assoc, List.cons_append, List.cons_append, decode_reg h]
    exact hi rest

/-! ### Operations on registers -/

theorem rm_reg (w : Bool) (src dst : Reg) : (rexOf w src dst).rm (modrm 0xc0#8 src dst) = dst :=
  rm_modrm w (by decide : 3 < 4) src dst

theorem reg_reg (w : Bool) (src dst : Reg) : (rexOf w src dst).reg (modrm 0xc0#8 src dst) = src :=
  reg_modrm w (by decide : 3 < 4) src dst

theorem digit_reg (src dst : Reg) : digitOf (modrm 0xc0#8 src dst) = src.val % 8 :=
  digitOf_modrm (by decide : 3 < 4) src dst

theorem emitAlu_nil (w : Bool) (op : Byte) (src dst : Reg) :
    emitAlu w op src dst = emitAlu w op src dst ++ ([] : List Byte).map .byte := (List.append_nil _).symm

theorem decodes_alu {op : Byte} {alu : Alu} (h : HasModrm op) (hlt : op.toNat < 64) (h1 : op.toNat % 8 = 1)
    (halu : aluOf (op.toNat / 8) = some alu) (w : Bool) (src dst : Reg) :
    Decodes (emitAlu w op src dst) (.alu w alu dst src) := by
  rw [emitAlu_nil]
  refine decodes_emitAlu h fun rest => ?_
  rw [decodeReg, if_pos hlt, if_pos h1, halu, rm_reg, reg_reg]
  rfl

/-- The operations that compiled code leaves to one instruction. -/
def aluKind : AluOp → Option Alu
  | .add => some .add
  | .or => some .or
  | .and => some .and
  | .sub => some .sub
  | .xor => some .xor
  | _ => Option.none

theorem decodes_kind {op : AluOp} {alu : Alu} (h : aluKind op = some alu) (w : Bool) (src dst : Reg) :
    Decodes (emitAlu w (aluByte op) src dst) (.alu w alu dst src) := by
  cases op <;> cases h <;> exact decodes_alu (by decide) (by decide) (by decide) rfl w src dst

theorem decodes_xor (w : Bool) (src dst : Reg) : Decodes (emitAlu w 0x31#8 src dst) (.alu w .xor dst src) :=
  decodes_alu (by decide) (by decide) (by decide) rfl w src dst

theorem decodes_cmp (w : Bool) (src dst : Reg) : Decodes (emitAlu w 0x39#8 src dst) (.alu w .cmp dst src) :=
  decodes_alu (by decide) (by decide) (by decide) rfl w src dst

theorem decodes_test (w : Bool) (src dst : Reg) : Decodes (emitAlu w 0x85#8 src dst) (.test w dst src) := by
  rw [emitAlu_nil]
  refine decodes_emitAlu (by decide) fun rest => ?_
  have hdecode : decodeReg (rexOf w src dst) 0x85#8 (modrm 0xc0#8 src dst) rest =
      some (.test w ((rexOf w src dst).rm (modrm 0xc0#8 src dst))
        ((rexOf w src dst).reg (modrm 0xc0#8 src dst)), rest) := rfl
  rw [List.nil_append, hdecode, rm_reg, reg_reg]

theorem decodes_mov (src dst : Reg) : Decodes (emitMov src dst) (.mov true dst src) := by
  rw [emitMov, emitAlu64, emitAlu_nil]
  refine decodes_emitAlu (by decide) fun rest => ?_
  have hdecode : decodeReg (rexOf true src dst) 0x89#8 (modrm 0xc0#8 src dst) rest =
      some (.mov true ((rexOf true src dst).rm (modrm 0xc0#8 src dst))
        ((rexOf true src dst).reg (modrm 0xc0#8 src dst)), rest) := rfl
  rw [List.nil_append, hdecode, rm_reg, reg_reg]

theorem decodes_aluImm {digit : Reg} {alu : Alu} (halu : aluOf (digit.val % 8) = some alu) (w : Bool)
    (dst : Reg)
    (imm : BitVec 32) : Decodes (emitAlu w 0x81#8 digit dst ++ emit4 imm) (.aluImm w alu dst imm) := by
  rw [emit4_eq]
  refine decodes_emitAlu (by decide) fun rest => ?_
  have hdecode : ∀ l, decodeReg (rexOf w digit dst) 0x81#8 (modrm 0xc0#8 digit dst) l =
      ((aluOf (digitOf (modrm 0xc0#8 digit dst))).bind fun alu => (imm32 l).bind fun r =>
        some (.aluImm w alu ((rexOf w digit dst).rm (modrm 0xc0#8 digit dst)) r.1, r.2)) := fun _ => rfl
  rw [hdecode, digit_reg, halu, rm_reg, Option.bind_some]
  simp only [List.cons_append, List.nil_append, imm32_bytes, Option.bind_some]

theorem digit_kind {op : AluOp} {alu : Alu} (h : aluKind op = some alu) :
    aluOf ((aluDigit op).val % 8) = some alu := by
  cases op <;> cases h <;> rfl

theorem decodes_shiftImm {digit : Reg} {shift : Shift} (hshift : shiftOf (digit.val % 8) = some shift)
    (w : Bool)
    (dst : Reg) (count : Byte) :
    Decodes (emitAlu w 0xc1#8 digit dst ++ emit1 count) (.shiftImm w shift dst count) := by
  have htail : emit1 count = [count].map .byte := rfl
  rw [htail]
  refine decodes_emitAlu (by decide) fun rest => ?_
  have hdecode : decodeReg (rexOf w digit dst) 0xc1#8 (modrm 0xc0#8 digit dst) ([count] ++ rest) =
      ((shiftOf (digitOf (modrm 0xc0#8 digit dst))).bind fun shift =>
        some (.shiftImm w shift ((rexOf w digit dst).rm (modrm 0xc0#8 digit dst)) count, rest)) := rfl
  rw [hdecode, digit_reg, hshift, rm_reg, Option.bind_some]

theorem decodes_shiftCl {digit : Reg} {shift : Shift} (hshift : shiftOf (digit.val % 8) = some shift) (w : Bool)
    (dst : Reg) : Decodes (emitAlu w 0xd3#8 digit dst) (.shiftCl w shift dst) := by
  rw [emitAlu_nil]
  refine decodes_emitAlu (by decide) fun rest => ?_
  have hdecode : decodeReg (rexOf w digit dst) 0xd3#8 (modrm 0xc0#8 digit dst) rest =
      (shiftOf (digitOf (modrm 0xc0#8 digit dst))).map fun shift =>
        (.shiftCl w shift ((rexOf w digit dst).rm (modrm 0xc0#8 digit dst)), rest) := rfl
  rw [List.nil_append, hdecode, digit_reg, hshift, rm_reg]
  rfl

theorem decodeReg_f7 (rex : Rex) (m : Byte) (l : List Byte) : decodeReg rex 0xf7#8 m l =
    if digitOf m = 0 then (imm32 l).map fun r => (.testImm rex.w (rex.rm m) r.1, r.2)
    else if digitOf m = 3 then some (.neg rex.w (rex.rm m), l)
    else if digitOf m = 4 then some (.mul rex.w (rex.rm m), l)
    else if digitOf m = 6 then some (.div rex.w (rex.rm m), l)
    else none := rfl

theorem decodes_neg (w : Bool) (dst : Reg) : Decodes (emitAlu w 0xf7#8 3 dst) (.neg w dst) := by
  rw [emitAlu_nil]
  refine decodes_emitAlu (by decide) fun rest => ?_
  rw [List.nil_append, decodeReg_f7, digit_reg, rm_reg]
  rfl

theorem decodes_mul (w : Bool) (src : Reg) : Decodes (emitAlu w 0xf7#8 4 src) (.mul w src) := by
  rw [emitAlu_nil]
  refine decodes_emitAlu (by decide) fun rest => ?_
  rw [List.nil_append, decodeReg_f7, digit_reg, rm_reg]
  rfl

theorem decodes_div (w : Bool) (src : Reg) : Decodes (emitAlu w 0xf7#8 6 src) (.div w src) := by
  rw [emitAlu_nil]
  refine decodes_emitAlu (by decide) fun rest => ?_
  rw [List.nil_append, decodeReg_f7, digit_reg, rm_reg]
  rfl

theorem decodes_testImm (w : Bool) (dst : Reg) (imm : BitVec 32) :
    Decodes (emitAlu w 0xf7#8 0 dst ++ emit4 imm) (.testImm w dst imm) := by
  rw [emit4_eq]
  refine decodes_emitAlu (by decide) fun rest => ?_
  rw [decodeReg_f7, digit_reg, rm_reg]
  simp only [List.cons_append, List.nil_append, imm32_bytes, Option.map_some]
  rfl

theorem decodes_movImm (w : Bool) (dst : Reg) (imm : BitVec 32) :
    Decodes (emitAlu w 0xc7#8 0 dst ++ emit4 imm) (.movImm w dst imm) := by
  rw [emit4_eq]
  refine decodes_emitAlu (by decide) fun rest => ?_
  have hdecode : ∀ l, digitOf (modrm 0xc0#8 0 dst) = 0 →
      decodeReg (rexOf w 0 dst) 0xc7#8 (modrm 0xc0#8 0 dst) l =
        (imm32 l).map fun r => (.movImm w ((rexOf w 0 dst).rm (modrm 0xc0#8 0 dst)) r.1, r.2) :=
    fun _ h => if_pos h
  rw [hdecode _ (digit_reg 0 dst), rm_reg]
  simp only [List.cons_append, List.nil_append, imm32_bytes, Option.map_some]

/-! ### Opcodes with a register -/

theorem opReg_spec : ∀ n < 8, (0x50#8 ||| BitVec.ofNat 8 n) >>> 3 = 0x0a#8 ∧
    (0x58#8 ||| BitVec.ofNat 8 n) >>> 3 = 0x0b#8 ∧ (0xb8#8 ||| BitVec.ofNat 8 n) >>> 3 = 0x17#8 ∧
    (0xc8#8 ||| BitVec.ofNat 8 n) >>> 3 = 0x19#8 ∧ (0xc8#8 ||| BitVec.ofNat 8 n) >>> 4 ≠ 8#8 ∧
    ∀ op ∈ [0x50#8, 0x58#8, 0xb8#8, 0xc8#8], (op ||| BitVec.ofNat 8 n).toNat % 8 = n ∧
      NoPrefix (op ||| BitVec.ofNat 8 n) ∧ op ||| BitVec.ofNat 8 n ≠ 0x0f#8 := by
  decide +kernel

theorem mod8_lt (r : Reg) : r.val % 8 < 8 := Nat.mod_lt _ (by decide)

theorem extend_opReg {op : Byte} (h : op ∈ [0x50#8, 0x58#8, 0xb8#8, 0xc8#8]) (r : Reg) :
    extend (top r) (op ||| BitVec.ofNat 8 (r.val % 8)).toNat = r :=
  extend_top r ((opReg_spec _ (mod8_lt r)).2.2.2.2.2 op h).1

theorem decodes_push (r : Reg) : Decodes (emitPush r) (.push r) := by
  obtain ⟨h0a, -, -, -, -, hop⟩ := opReg_spec _ (mod8_lt r)
  obtain ⟨-, hprefix, h0f⟩ := hop 0x50#8 (by decide)
  refine ⟨rexBytes false 0 r ++ [0x50#8 ||| BitVec.ofNat 8 (r.val % 8)], ?_, fun rest => ?_⟩
  · rw [emitPush, emitBasicRex_eq, List.map_append]
    rfl
  · rw [List.append_assoc, List.singleton_append, decode, decodePrefix_rexBytes hprefix]
    dsimp only
    rw [decodeOpcode, if_neg h0f, if_pos h0a]
    exact congrArg (fun r => some (Instr.push r, rest)) (extend_opReg (by decide) r)

theorem decodes_pop (r : Reg) : Decodes (emitPop r) (.pop r) := by
  obtain ⟨-, h0b, -, -, -, hop⟩ := opReg_spec _ (mod8_lt r)
  obtain ⟨-, hprefix, h0f⟩ := hop 0x58#8 (by decide)
  have h0a : (0x58#8 ||| BitVec.ofNat 8 (r.val % 8)) >>> 3 ≠ 0x0a#8 := by
    rw [h0b]
    decide
  refine ⟨rexBytes false 0 r ++ [0x58#8 ||| BitVec.ofNat 8 (r.val % 8)], ?_, fun rest => ?_⟩
  · rw [emitPop, emitBasicRex_eq, List.map_append]
    rfl
  · rw [List.append_assoc, List.singleton_append, decode, decodePrefix_rexBytes hprefix]
    dsimp only
    rw [decodeOpcode, if_neg h0f, if_neg h0a, if_pos h0b]
    exact congrArg (fun r => some (Instr.pop r, rest)) (extend_opReg (by decide) r)

theorem decodes_movabs (dst : Reg) (imm : Word) :
    Decodes (emitBasicRex true 0 dst ++ emit1 (0xb8#8 ||| BitVec.ofNat 8 (dst.val % 8)) ++ emit8 imm)
      (.movabs dst imm) := by
  obtain ⟨-, -, h17, -, -, hop⟩ := opReg_spec _ (mod8_lt dst)
  obtain ⟨-, hprefix, h0f⟩ := hop 0xb8#8 (by decide)
  have h0a : (0xb8#8 ||| BitVec.ofNat 8 (dst.val % 8)) >>> 3 ≠ 0x0a#8 := by
    rw [h17]
    decide
  have h0b : (0xb8#8 ||| BitVec.ofNat 8 (dst.val % 8)) >>> 3 ≠ 0x0b#8 := by
    rw [h17]
    decide
  have hw : (rexOf true 0 dst).w = true := rfl
  obtain ⟨bytes, hbytes, himm⟩ := imm64_bytes imm
  refine ⟨rexBytes true 0 dst ++ (0xb8#8 ||| BitVec.ofNat 8 (dst.val % 8)) :: bytes, ?_, fun rest => ?_⟩
  · rw [emitBasicRex_eq, hbytes, List.append_assoc, List.map_append]
    rfl
  · rw [List.append_assoc, List.cons_append, decode, decodePrefix_rexBytes hprefix]
    dsimp only
    rw [decodeOpcode, if_neg h0f, if_neg h0a, if_neg h0b, if_pos h17, if_pos hw, himm]
    exact congrArg (fun r => some (Instr.movabs r imm, rest)) (extend_opReg (by decide) dst)

/-- A constant is moved to a register, in the one way or the other. -/
theorem decodes_loadImm {ω : Type*} (callee : Callee ω) (dst : Reg) (imm : Word) :
    ∃ i, Decodes (emitLoadImm dst imm) i ∧ ∀ s, effect callee s i = some (s.setReg dst imm) := by
  rw [emitLoadImm]
  split_ifs with h
  · refine ⟨_, decodes_movImm true dst (imm.setWidth 32), fun s => ?_⟩
    have himm : (imm.setWidth 32).signExtend 64 = imm := by
      apply BitVec.eq_of_toInt_eq
      rw [BitVec.toInt_signExtend_of_le (by decide), BitVec.toInt_setWidth]
      have htoInt : imm.toInt = (imm.toNat : ℤ).bmod (2 ^ 64) := BitVec.toInt_eq_toNat_bmod imm
      rw [Int.bmod_def] at htoInt ⊢
      split_ifs at htoInt ⊢ <;> omega
    rw [effect, widen, if_pos rfl, himm]
  · exact ⟨_, decodes_movabs dst imm, fun s => rfl⟩

theorem decodes_bswap (w : Bool) (dst : Reg) :
    Decodes (emitBasicRex w 0 dst ++ emit1 0x0f#8 ++ emit1 (0xc8#8 ||| BitVec.ofNat 8 (dst.val % 8)))
      (.bswap w dst) := by
  obtain ⟨-, -, -, h19, h8, -⟩ := opReg_spec _ (mod8_lt dst)
  refine ⟨rexBytes w 0 dst ++ [0x0f#8, 0xc8#8 ||| BitVec.ofNat 8 (dst.val % 8)], ?_, fun rest => ?_⟩
  · rw [emitBasicRex_eq, List.append_assoc, List.map_append]
    rfl
  · have hprefix : NoPrefix 0x0f#8 := by decide
    rw [List.append_assoc, List.cons_append, List.singleton_append, decode, decodePrefix_rexBytes hprefix]
    dsimp only
    rw [decodeOpcode, if_pos rfl, if_neg Bool.false_ne_true, decodeTwo, if_neg h8, if_pos h19]
    exact congrArg (fun r => some (Instr.bswap w r, rest)) (extend_opReg (by decide) dst)

theorem decodes_rol16 (dst : Reg) (count : Byte) :
    Decodes (emit1 0x66#8 ++ emitAlu32Imm8 0xc1#8 0 dst count) (.rol16 dst count) := by
  refine ⟨0x66#8 :: (rexBytes false 0 dst ++ [0xc1#8, modrm 0xc0#8 0 dst, count]), ?_, fun rest => ?_⟩
  · rw [emitAlu32Imm8, emitAlu32, emitAlu_eq, List.map_cons, List.map_append, List.map_append,
    List.append_assoc]
    rfl
  · have hprefix : NoPrefix 0xc1#8 := by decide
    have hmod : modOf (modrm 0xc0#8 0 dst) = 3 := modOf_modrm (by decide : 3 < 4) 0 dst
    have hdigit : digitOf (modrm 0xc0#8 0 dst) = 0 := digit_reg 0 dst
    rw [List.cons_append, List.append_assoc, decode, decodePrefix_opsize]
    simp only [List.cons_append, List.nil_append]
    rw [decodeRex_rexBytes hprefix, decodeOpcode_modrm (by decide), decodeModrm, if_neg (not_not_intro hmod),
      if_pos rfl, if_pos ⟨rfl, hdigit, Bool.false_ne_true⟩, rm_reg]
    rfl

theorem decodes_callRax : Decodes (emit1 0xff#8 ++ emit1 0xd0#8) (.call rax) :=
  ⟨[0xff#8, 0xd0#8], rfl, fun _ => rfl⟩

/-! ### Memory operands -/

theorem signExtend_disp8 {d : BitVec 32} (h : -128 ≤ d.toInt ∧ d.toInt ≤ 127) :
    (d.setWidth 8).signExtend 32 = d := by
  apply BitVec.eq_of_toInt_eq
  rw [BitVec.toInt_signExtend_of_le (by decide), BitVec.toInt_setWidth]
  have htoInt : d.toInt = (d.toNat : ℤ).bmod (2 ^ 32) := BitVec.toInt_eq_toNat_bmod d
  rw [Int.bmod_def] at htoInt ⊢
  split_ifs at htoInt ⊢ <;> omega

/-- **A register and a displacement**, for every register but the two whose number stands for a SIB byte. -/
theorem decodeMem_emit (r m : Reg) (hm : m.val % 8 ≠ 4) (d : BitVec 32) :
    ∃ (c : Byte) (bytes : List Byte), emitModrmAndDisplacement r m d = (c :: bytes).map .byte ∧ modOf c ≠ 3 ∧
      digitOf c = r.val % 8 ∧ ∀ rex : Rex, rex.r = top r → rex.b = top m → rex.reg c = r ∧
        ∀ rest, decodeMem rex c (bytes ++ rest) = some (m, d, rest) := by
  have hreg : ∀ {k : ℕ}, k < 4 → ∀ rex : Rex, rex.r = top r →
      rex.reg (modrm (BitVec.ofNat 8 (64 * k)) r m) = r := by
    intro k hk rex hr
    rw [Rex.reg, hr, digitOf_modrm hk]
    exact extend_top r (Nat.mod_mod _ _)
  have hrm : ∀ {k : ℕ}, k < 4 → ∀ rex : Rex, rex.b = top m →
      rex.rm (modrm (BitVec.ofNat 8 (64 * k)) r m) = m := by
    intro k hk rex hb
    rw [Rex.rm, hb]
    refine extend_top m ?_
    rw [toNat_modrm hk]
    omega
  have hlow : ∀ {k : ℕ}, k < 4 → (modrm (BitVec.ofNat 8 (64 * k)) r m).toNat % 8 = m.val % 8 := by
    intro k hk
    rw [toNat_modrm hk]
    omega
  rw [emitModrmAndDisplacement]
  split_ifs with h0 h8
  · have hk : 0 < 4 := by decide
    refine ⟨modrm (BitVec.ofNat 8 (64 * 0)) r m, [], rfl, ?_, digitOf_modrm hk r m, fun rex hr hb =>
      ⟨hreg hk rex hr, fun rest => ?_⟩⟩
    · rw [modOf_modrm hk]
      decide
    · have h4 : (modrm (BitVec.ofNat 8 (64 * 0)) r m).toNat % 8 ≠ 4 := by rwa [hlow hk]
      have h5 : (modrm (BitVec.ofNat 8 (64 * 0)) r m).toNat % 8 ≠ 5 := by rw [hlow hk]; exact h0.2
      rw [decodeMem, if_neg h4, if_pos (modOf_modrm hk r m), if_neg h5, hrm hk rex hb, h0.1]
      rfl
  · have hk : 1 < 4 := by decide
    refine ⟨modrm (BitVec.ofNat 8 (64 * 1)) r m, [d.setWidth 8], rfl, ?_, digitOf_modrm hk r m,
      fun rex hr hb => ⟨hreg hk rex hr, fun rest => ?_⟩⟩
    · rw [modOf_modrm hk]
      decide
    · have h4 : (modrm (BitVec.ofNat 8 (64 * 1)) r m).toNat % 8 ≠ 4 := by rwa [hlow hk]
      have hmod : modOf (modrm (BitVec.ofNat 8 (64 * 1)) r m) ≠ 0 := by
        rw [modOf_modrm hk]
        decide
      rw [decodeMem, if_neg h4, if_neg hmod, if_pos (modOf_modrm hk r m), hrm hk rex hb, List.singleton_append,
        imm8, Option.map_some]
      simp only [signExtend_disp8 h8]
  · have hk : 2 < 4 := by decide
    refine ⟨modrm (BitVec.ofNat 8 (64 * 2)) r m, [d.setWidth 8, (d >>> 8).setWidth 8, (d >>> 16).setWidth 8,
      (d >>> 24).setWidth 8], ?_, ?_, digitOf_modrm hk r m, fun rex hr hb =>
        ⟨hreg hk rex hr, fun rest => ?_⟩⟩
    · rw [emit4_eq]
      rfl
    · rw [modOf_modrm hk]
      decide
    · have h4 : (modrm (BitVec.ofNat 8 (64 * 2)) r m).toNat % 8 ≠ 4 := by rwa [hlow hk]
      have hmod : modOf (modrm (BitVec.ofNat 8 (64 * 2)) r m) ≠ 0 := by
        rw [modOf_modrm hk]
        decide
      have hmod' : modOf (modrm (BitVec.ofNat 8 (64 * 2)) r m) ≠ 1 := by
        rw [modOf_modrm hk]
        decide
      rw [decodeMem, if_neg h4, if_neg hmod, if_neg hmod', if_pos (modOf_modrm hk r m), hrm hk rex hb]
      simp only [List.cons_append, List.nil_append, imm32_bytes, Option.map_some]

/-- An opcode with a memory operand, a size prefix or none, and what follows. -/
theorem decodes_mem (op : Byte) (h : HasModrm op) (opsize : Bool) {pre : List Byte} (tail : List Byte)
    {rex : Rex}
    {r m : Reg} (hm : m.val % 8 ≠ 4) (hr : rex.r = top r) (hb : rex.b = top m) (d : BitVec 32) {i : Instr}
    (hpre : ∀ rest, decodePrefix (pre ++ op :: rest) = (opsize, rex, op :: rest))
    (hi : ∀ c l rest, digitOf c = r.val % 8 → rex.reg c = r → decodeMem rex c l = some (m, d, tail ++ rest) →
      decodeMemOp opsize rex op c l = some (i, rest)) :
    Decodes (pre.map .byte ++ emit1 op ++ emitModrmAndDisplacement r m d ++ tail.map .byte) i := by
  obtain ⟨c, bytes, hbytes, hmod, hdigit, hdecode⟩ := decodeMem_emit r m hm d
  obtain ⟨hreg, hmem⟩ := hdecode rex hr hb
  refine ⟨pre ++ op :: c :: (bytes ++ tail), ?_, fun rest => ?_⟩
  · rw [hbytes, List.map_append, List.append_assoc, List.append_assoc, List.map_cons, List.map_cons,
      List.map_cons, List.map_append]
    rfl
  · rw [List.append_assoc, List.cons_append, List.cons_append, decode, hpre]
    dsimp only
    rw [decodeOpcode_modrm h, decodeModrm, if_pos hmod, List.append_assoc]
    exact hi c _ rest hdigit hreg (hmem (tail ++ rest))

theorem decodePrefix_plain {op : Byte} (h : NoPrefix op) (w : Bool) (r m : Reg) (rest : List Byte) :
    decodePrefix (rexBytes w r m ++ op :: rest) = (false, rexOf w r m, op :: rest) :=
  decodePrefix_rexBytes h w r m rest

theorem decodePrefix_half {op : Byte} (h : NoPrefix op) (w : Bool) (r m : Reg) (rest : List Byte) :
    decodePrefix ((0x66#8 :: rexBytes w r m) ++ op :: rest) = (true, rexOf w r m, op :: rest) := by
  rw [List.cons_append, decodePrefix_opsize, decodeRex_rexBytes h]

theorem decodePrefix_rex {op : Byte} (r m : Reg) (rest : List Byte) :
    decodePrefix ([rex false (top r) false (top m)] ++ op :: rest) =
      (false, ⟨true, false, top r, top m⟩, op :: rest) := by
  rw [List.singleton_append, decodePrefix, if_neg (rex_spec _ _ _).1, decodeRex_rex]

/-- `emit_load`, for every register but the two whose number stands for a SIB byte. -/
theorem decodes_load (size : X86.Size) (src dst : Reg) (hsrc : src.val % 8 ≠ 4) (offset : BitVec 32) :
    Decodes (emitLoad size src dst offset) (.load size dst src offset) := by
  have hmovzx : ∀ op ∈ [0xb6#8, 0xb7#8], op >>> 4 ≠ 8#8 ∧ op >>> 3 ≠ 0x19#8 := by decide
  have hzero : ∀ {size : X86.Size} {op : Byte}, op ∈ [0xb6#8, 0xb7#8] →
      (∀ rex c l rest, decodeMem rex c l = some (src, offset, rest) → rex.reg c = dst →
        decodeMovzx rex op (c :: l) = some (.load size dst src offset, rest)) →
      Decodes (emitBasicRex false dst src ++ (emit1 0x0f#8 ++ emit1 op) ++
        emitModrmAndDisplacement dst src offset) (.load size dst src offset) := by
    intro size op hop hdecode
    obtain ⟨c, bytes, hbytes, -, -, hmem⟩ := decodeMem_emit dst src hsrc offset
    obtain ⟨hreg, hdisp⟩ := hmem (rexOf false dst src) rfl rfl
    refine ⟨rexBytes false dst src ++ 0x0f#8 :: op :: c :: bytes, ?_, fun rest => ?_⟩
    · rw [hbytes, emitBasicRex_eq, List.append_assoc, List.map_append]
      rfl
    · have hprefix : NoPrefix 0x0f#8 := by decide
      rw [List.append_assoc, List.cons_append, decode, decodePrefix_rexBytes hprefix]
      dsimp only
      rw [decodeOpcode, if_pos rfl, if_neg Bool.false_ne_true, List.cons_append, decodeTwo,
        if_neg (hmovzx op hop).1, if_neg (hmovzx op hop).2]
      exact hdecode _ c _ rest (hdisp rest) hreg
  have hword : ∀ {size : X86.Size} {w : Bool}, wholeSize false (rexOf w dst src) = size →
      Decodes (emitBasicRex w dst src ++ emit1 0x8b#8 ++ emitModrmAndDisplacement dst src offset)
        (.load size dst src offset) := by
    intro size w hsize
    have hdecodes := decodes_mem 0x8b#8 (by decide) false [] hsrc rfl rfl offset
      (decodePrefix_plain (by decide) w dst src) (i := .load size dst src offset) ?_
    · rwa [List.map_nil, List.append_nil, ← emitBasicRex_eq] at hdecodes
    · intro c l rest _ hreg hmem
      rw [decodeMemOp, hmem, Option.bind_eq_bind, Option.bind_some]
      dsimp only
      rw [if_pos rfl, if_neg Bool.false_ne_true, hreg, hsize]
      rfl
  cases size with
  | s8 =>
    refine hzero (by decide) fun rex c l rest hmem hreg => ?_
    rw [decodeMovzx, hmem, Option.bind_eq_bind, Option.bind_some, hreg]
    rfl
  | s16 =>
    refine hzero (by decide) fun rex c l rest hmem hreg => ?_
    rw [decodeMovzx, hmem, Option.bind_eq_bind, Option.bind_some, hreg]
    rfl
  | s32 => exact hword rfl
  | s64 => exact hword rfl

theorem emitStore_byte (src dst : Reg) (offset : BitVec 32) : emitStore .s8 src dst offset =
    [rex false (top src) false (top dst)].map .byte ++ emit1 0x88#8 ++
      emitModrmAndDisplacement src dst offset := by
  rw [emitStore, if_neg (by decide), if_pos (Or.inr (Or.inr (Or.inr rfl))), if_pos rfl]
  rfl

theorem emitStore_word {size : X86.Size} (h : size ≠ .s8) (src dst : Reg) (offset : BitVec 32) :
    emitStore size src dst offset =
      ((if size = .s16 then [0x66#8] else []) ++ rexBytes (decide (size = .s64)) src dst).map .byte ++
        emit1 0x89#8 ++ emitModrmAndDisplacement src dst offset := by
  have hrex : (if size = .s64 ∨ top src ∨ top dst ∨ size = .s8
      then emitRex (decide (size = .s64)) (top src) false (top dst) else []) =
      (rexBytes (decide (size = .s64)) src dst).map .byte := by
    rw [← emitBasicRex_eq, emitBasicRex]
    simp only [h, or_false, decide_eq_true_eq]
  rw [emitStore, hrex, if_neg h, List.map_append]
  split_ifs <;> rfl

/-- `emit_store`, for every register but the two whose number stands for a SIB byte. -/
theorem decodes_store (size : X86.Size) (src dst : Reg) (hdst : dst.val % 8 ≠ 4) (offset : BitVec 32) :
    Decodes (emitStore size src dst offset) (.store size src dst offset) := by
  have hword : ∀ {size : X86.Size} {opsize w : Bool} {pre : List Byte},
      wholeSize opsize (rexOf w src dst) = size →
      (∀ rest, decodePrefix (pre ++ 0x89#8 :: rest) = (opsize, rexOf w src dst, 0x89#8 :: rest)) →
      Decodes (pre.map .byte ++ emit1 0x89#8 ++ emitModrmAndDisplacement src dst offset)
        (.store size src dst offset) := by
    intro size opsize w pre hsize hpre
    have hdecodes := decodes_mem 0x89#8 (by decide) opsize [] hdst rfl rfl offset hpre
      (i := .store size src dst offset) ?_
    · rwa [List.map_nil, List.append_nil] at hdecodes
    · intro c l rest _ hreg hmem
      rw [decodeMemOp, hmem, Option.bind_eq_bind, Option.bind_some, hreg, hsize]
      rfl
  cases size with
  | s8 =>
    have hdecodes := decodes_mem 0x88#8 (by decide) false [] hdst rfl rfl offset (decodePrefix_rex src dst)
      (i := .store .s8 src dst offset) ?_
    · rwa [List.map_nil, List.append_nil, ← emitStore_byte] at hdecodes
    · intro c l rest _ hreg hmem
      rw [decodeMemOp, hmem, Option.bind_eq_bind, Option.bind_some, hreg]
      rfl
  | s16 =>
    rw [emitStore_word (by decide)]
    exact hword rfl (decodePrefix_half (by decide) false src dst)
  | s32 =>
    rw [emitStore_word (by decide)]
    exact hword rfl (decodePrefix_plain (by decide) false src dst)
  | s64 =>
    rw [emitStore_word (by decide)]
    exact hword rfl (decodePrefix_plain (by decide) true src dst)

theorem emitStoreImm32_eq (size : X86.Size) (dst : Reg) (offset imm : BitVec 32) :
    emitStoreImm32 size dst offset imm =
      ((if size = .s16 then [0x66#8] else []) ++ rexBytes (decide (size = .s64)) 0 dst).map .byte ++
        emit1 (if size = .s8 then 0xc6#8 else 0xc7#8) ++ emitModrmAndDisplacement 0 dst offset ++
          emitStoreTail size imm := by
  rw [emitStoreImm32, emitBasicRex_eq, List.map_append]
  cases size <;> rfl

/-- An immediate, as it is stored. -/
def stored (size : X86.Size) (imm : BitVec 32) : BitVec 32 :=
  match size with
  | .s32 | .s64 => imm
  | .s16 => (imm.setWidth 16).signExtend 32
  | .s8 => (imm.setWidth 8).signExtend 32

theorem emit2_eq (x : BitVec 16) : emit2 x = [x.setWidth 8, (x >>> 8).setWidth 8].map .byte := rfl

theorem imm16_bytes (x : BitVec 16) (rest : List Byte) :
    imm16 (x.setWidth 8 :: (x >>> 8).setWidth 8 :: rest) = some (x, rest) := by
  have hx : (x >>> 8).setWidth 8 ++ x.setWidth 8 = x := by
    apply BitVec.eq_of_getLsbD_eq
    intro i hi
    simp only [BitVec.getLsbD_append, BitVec.getLsbD_setWidth, BitVec.getLsbD_ushiftRight]
    split_ifs with h
    · simp [h]
    · simp [show i - 8 < 8 by omega, show 8 + (i - 8) = i by omega]
  rw [imm16, hx]

theorem decodeMemOp_c7 {opsize : Bool} {rex : Rex} {c : Byte} {l rest : List Byte} {m : Reg} {d : BitVec 32}
    (hdigit : digitOf c = 0) (hmem : decodeMem rex c l = some (m, d, rest)) :
    decodeMemOp opsize rex 0xc7#8 c l =
      if opsize = true ∧ ¬rex.w = true then
        (imm16 rest).map fun imm => (.storeImm .s16 m d (imm.1.signExtend 32), imm.2)
      else (imm32 rest).map fun imm => (.storeImm (wholeSize opsize rex) m d imm.1, imm.2) := by
  rw [decodeMemOp, hmem, Option.bind_eq_bind, Option.bind_some]
  exact if_neg (not_not_intro hdigit)

/-- `emit_store_imm32`, for every register but the two whose number stands for a SIB byte. -/
theorem decodes_storeImm (size : X86.Size) (dst : Reg) (hdst : dst.val % 8 ≠ 4) (offset imm : BitVec 32) :
    Decodes (emitStoreImm32 size dst offset imm) (.storeImm size dst offset (stored size imm)) := by
  have hword : ∀ {w : Bool}, Decodes ((rexBytes w 0 dst).map .byte ++ emit1 0xc7#8 ++
      emitModrmAndDisplacement 0 dst offset ++ emit4 imm)
        (.storeImm (wholeSize false (rexOf w 0 dst)) dst offset imm) := by
    intro w
    rw [emit4_eq]
    refine decodes_mem 0xc7#8 (by decide) false _ hdst rfl rfl offset
      (decodePrefix_plain (by decide) w 0 dst) fun c l rest hzero _ hmem => ?_
    rw [decodeMemOp_c7 hzero hmem, if_neg fun h => Bool.false_ne_true h.1]
    simp only [List.cons_append, List.nil_append, imm32_bytes, Option.map_some]
  rw [emitStoreImm32_eq]
  cases size with
  | s8 =>
    refine decodes_mem 0xc6#8 (by decide) false [imm.setWidth 8] hdst rfl rfl offset
      (decodePrefix_plain (by decide) false 0 dst) fun c l rest hzero _ hmem => ?_
    rw [decodeMemOp, hmem, Option.bind_eq_bind, Option.bind_some]
    exact if_neg (not_not_intro hzero)
  | s16 =>
    rw [emitStoreTail, emit2_eq]
    refine decodes_mem 0xc7#8 (by decide) true _ hdst rfl rfl offset
      (decodePrefix_half (by decide) false 0 dst) fun c l rest hzero _ hmem => ?_
    rw [decodeMemOp_c7 hzero hmem, if_pos ⟨rfl, Bool.false_ne_true⟩]
    simp only [List.cons_append, List.nil_append, imm16_bytes, Option.map_some]
    rfl
  | s32 => exact hword (w := false)
  | s64 => exact hword (w := true)

/-! ### Items -/

/-- Some code is a list of instructions and of jumps to targets. -/
inductive Encodes : Code → List (Item (BitVec 32)) → Prop where
  | nil : Encodes [] []
  | instr {c c' : Code} {i : Instr} {items : List (Item (BitVec 32))} (hc : Decodes c i)
    (h : Encodes c' items) :
      Encodes (c ++ c') (.instr i :: items)
  | jmp (t : BitVec 32) {c : Code} {items : List (Item (BitVec 32))} (h : Encodes c items) :
      Encodes (emitJmp t ++ c) (.jmp t :: items)
  | jcc {op : Byte} {cc : Cc} (hop : op >>> 4 = 8#8) (hcc : ccOf (op.toNat % 16) = some cc) (t : BitVec 32)
      {c : Code} {items : List (Item (BitVec 32))} (h : Encodes c items) :
      Encodes (emitJcc op t ++ c) (.jcc cc t :: items)

theorem Encodes.append {c c' : Code} {items items' : List (Item (BitVec 32))} (h : Encodes c items)
    (h' : Encodes c' items') : Encodes (c ++ c') (items ++ items') := by
  induction h with
  | nil => exact h'
  | instr hc _ ih =>
    rw [List.append_assoc]
    exact .instr hc ih
  | jmp t _ ih =>
    rw [List.append_assoc]
    exact .jmp t ih
  | jcc hop hcc t _ ih =>
    rw [List.append_assoc]
    exact .jcc hop hcc t ih

theorem Decodes.encodes {c : Code} {i : Instr} (h : Decodes c i) : Encodes c [.instr i] := by
  have hsingle := Encodes.instr h .nil
  rwa [List.append_nil] at hsingle

theorem encodes_jmp (t : BitVec 32) : Encodes (emitJmp t) [.jmp t] := Encodes.jmp t .nil

theorem encodes_jcc {op : Byte} {cc : Cc} (hop : op >>> 4 = 8#8) (hcc : ccOf (op.toNat % 16) = some cc)
    (t : BitVec 32) : Encodes (emitJcc op t) [.jcc cc t] := Encodes.jcc hop hcc t .nil

/-! ### Places -/

theorem codeSize_append (c c' : Code) : codeSize (c ++ c') = codeSize c + codeSize c' := by
  rw [codeSize, List.map_append, List.sum_append]
  rfl

theorem codeSize_bytes (bytes : List Byte) : codeSize (bytes.map .byte) = bytes.length := by
  induction bytes with
  | nil => rfl
  | cons x bytes ih =>
    have hcons : codeSize ((x :: bytes).map .byte) = 1 + codeSize (bytes.map .byte) := List.sum_cons
    rw [hcons, ih, List.length_cons, Nat.add_comm]

variable {state : JitState}

theorem length_resolveJumps (c : Code) (offset : ℕ) : (resolveJumps state offset c).length = codeSize c := by
  induction c generalizing offset with
  | nil => rfl
  | cons piece c ih =>
    have hcons : codeSize (piece :: c) = piece.size + codeSize c := List.sum_cons
    cases piece with
    | byte x =>
      rw [resolveJumps, List.length_cons, ih, hcons, Piece.size, Nat.add_comm]
    | jump t =>
      rw [resolveJumps, hcons, Piece.size]
      simp only [List.length_cons, ih]
      omega

theorem resolveJumps_append (c c' : Code) (offset : ℕ) : resolveJumps state offset (c ++ c') =
    resolveJumps state offset c ++ resolveJumps state (offset + codeSize c) c' := by
  induction c generalizing offset with
  | nil => rfl
  | cons piece c ih =>
    have hcons : codeSize (piece :: c) = piece.size + codeSize c := List.sum_cons
    cases piece with
    | byte x =>
      rw [List.cons_append, resolveJumps, resolveJumps, ih, hcons, Piece.size, List.cons_append, Nat.add_assoc]
    | jump t =>
      rw [List.cons_append, resolveJumps, resolveJumps, ih, hcons, Piece.size, Nat.add_assoc]
      rfl

theorem resolveJumps_bytes (bytes : List Byte) (offset : ℕ) :
    resolveJumps state offset (bytes.map .byte) = bytes := by
  induction bytes generalizing offset with
  | nil => rfl
  | cons x bytes ih => rw [List.map_cons, resolveJumps, ih]

theorem relative_eq {target q : ℕ} (ht : target ≤ bufferSize) (hq : q ≤ bufferSize) :
    relative q (BitVec.ofNat 32 target - BitVec.ofNat 32 q) = target := by
  rw [bufferSize] at ht hq
  have htoInt : (BitVec.ofNat 32 target - BitVec.ofNat 32 q).toInt = target - q := by
    have hofNat : ∀ n : ℕ, n ≤ 4 * 65536 → (BitVec.ofNat 32 n).toInt = n := fun n hn => by
      rw [BitVec.toInt_eq_toNat_of_lt, BitVec.toNat_ofNat, Nat.mod_eq_of_lt (by omega)]
      rw [BitVec.toNat_ofNat, Nat.mod_eq_of_lt (by omega)]
      omega
    rw [BitVec.toInt_sub, hofNat target ht, hofNat q hq, Int.bmod_def]
    split_ifs <;> omega
  rw [relative, htoInt]
  omega

theorem drop_behind {total bytes rest : List Byte} {p : ℕ} (h : total.drop p = bytes ++ rest) :
    total.drop (p + bytes.length) = rest := by
  rw [← List.drop_drop, h, List.drop_left]

theorem behind_le {total bytes rest : List Byte} {p : ℕ} (hp : p ≤ total.length)
    (h : total.drop p = bytes ++ rest) : p + bytes.length ≤ total.length := by
  have hlen := congrArg List.length h
  rw [List.length_drop, List.length_append] at hlen
  omega

theorem decode_jmp_bytes (rel : BitVec 32) (rest : List Byte) :
    decode (0xe9#8 :: rel.setWidth 8 :: (rel >>> 8).setWidth 8 :: (rel >>> 16).setWidth 8 ::
      (rel >>> 24).setWidth 8 :: rest) = some (.jmp rel, rest) := by
  have hdecode : ∀ l, decode (0xe9#8 :: l) = (imm32 l).map fun r => (.jmp r.1, r.2) := fun _ => rfl
  rw [hdecode, imm32_bytes]
  rfl

theorem decode_jcc_bytes {op : Byte} {cc : Cc} (hop : op >>> 4 = 8#8) (hcc : ccOf (op.toNat % 16) = some cc)
    (rel : BitVec 32) (rest : List Byte) :
    decode (0x0f#8 :: op :: rel.setWidth 8 :: (rel >>> 8).setWidth 8 :: (rel >>> 16).setWidth 8 ::
      (rel >>> 24).setWidth 8 :: rest) = some (.jcc cc rel, rest) := by
  have hdecode : ∀ l, decode (0x0f#8 :: l) = decodeTwo Rex.none l := fun _ => rfl
  rw [hdecode, decodeTwo, if_pos hop, hcc, imm32_bytes]
  rfl

/-- **Code stands in the resolved bytes** as its items. -/
theorem Encodes.placed {c : Code} {items : List (Item (BitVec 32))} (h : Encodes c items) {total : List Byte}
    (hsmall : total.length ≤ bufferSize) (hloc : ∀ t, state.targetLoc t ≤ bufferSize) :
    ∀ {p : ℕ} {rest : List Byte}, p ≤ total.length → total.drop p = resolveJumps state p c ++ rest →
      Placed total state.targetLoc p items (p + codeSize c) := by
  induction h with
  | nil =>
    intro p rest _ _
    exact .nil p
  | instr hc _ ih =>
    intro p rest hp hdrop
    obtain ⟨bytes, rfl, hdecode⟩ := hc
    rw [resolveJumps_append, resolveJumps_bytes, codeSize_bytes, List.append_assoc] at hdrop
    have hbehind := drop_behind hdrop
    have hle := behind_le hp hdrop
    rw [codeSize_append, codeSize_bytes, ← Nat.add_assoc]
    refine .instr hle ?_ (ih hle hbehind)
    rw [hdrop, hbehind]
    exact hdecode _
  | jmp t _ ih =>
    intro p rest hp hdrop
    have hsize : codeSize (emitJmp t) = 5 := rfl
    rw [resolveJumps_append, List.append_assoc] at hdrop
    have hlen : (resolveJumps state p (emitJmp t)).length = 5 := length_resolveJumps _ _
    have hbehind := drop_behind hdrop
    have hle := behind_le hp hdrop
    rw [hlen] at hbehind hle
    rw [hsize] at hbehind
    rw [codeSize_append, hsize, ← Nat.add_assoc]
    refine .jmp hle ?_ (relative_eq (hloc t) (hle.trans hsmall)) (ih hle hbehind)
    rw [hdrop, hbehind]
    exact decode_jmp_bytes _ _
  | jcc hop hcc t _ ih =>
    intro p rest hp hdrop
    have hsize : ∀ op, codeSize (emitJcc op t) = 6 := fun _ => rfl
    rw [resolveJumps_append, List.append_assoc] at hdrop
    have hlen : ∀ op, (resolveJumps state p (emitJcc op t)).length = 6 := fun _ => length_resolveJumps _ _
    have hbehind := drop_behind hdrop
    have hle := behind_le hp hdrop
    rw [hlen] at hbehind hle
    rw [hsize] at hbehind
    rw [codeSize_append, hsize, ← Nat.add_assoc]
    refine .jcc hle ?_ (relative_eq (hloc t) (hle.trans hsmall)) (ih hle hbehind)
    rw [hdrop, hbehind]
    exact decode_jcc_bytes hop hcc _ _

end TorEbpf.Ubpf.Jit
