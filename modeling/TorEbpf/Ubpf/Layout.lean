import Mathlib.Tactic.IntervalCases
import TorEbpf.Ubpf.Rewrite

/-!
# Where the rewritten code stands

`shifted insts x = x + 20 * (checked accesses below x)` is the place of instruction `x` in the output
of `rewrite_with_memchecks`.  The results of this file are

* `integerOffset_eq` — the two counting loops compute exactly the distance between shifted places;
* `retarget_toInt_iff` — the stored 16-bit offset is that distance iff the distance fits;
* `fieldsStored_iff_fitsFields` — for an accepted program, when the stored count and offsets are what the
  pass computed.
-/

namespace TorEbpf.Ubpf

open TorEbpf.Lib

/-- How many checked accesses stand below an index. -/
def checkedBelow (insts : List EbpfInst) (x : ℕ) : ℕ := (marks (checkedAt insts) x).length

/-- The place of instruction `x` in the rewritten program. -/
def shifted (insts : List EbpfInst) (x : ℕ) : ℕ := x + addedLoadStoreInsts * checkedBelow insts x

theorem checkedBelow_succ (insts : List EbpfInst) (x : ℕ) :
    checkedBelow insts (x + 1) = checkedBelow insts x + if checkedAt insts x then 1 else 0 := by
  rw [checkedBelow, marks_succ, List.length_append, checkedBelow]
  cases checkedAt insts x <;> rfl

@[simp] theorem shifted_zero (insts : List EbpfInst) : shifted insts 0 = 0 := rfl

theorem shifted_succ (insts : List EbpfInst) (x : ℕ) :
    shifted insts (x + 1) = shifted insts x + 1 + if checkedAt insts x then 20 else 0 := by
  simp only [shifted, checkedBelow_succ, addedLoadStoreInsts]
  split <;> omega

theorem checkedBelow_mono (insts : List EbpfInst) {x y : ℕ} (h : x ≤ y) :
    checkedBelow insts x ≤ checkedBelow insts y :=
  length_marks_le h

theorem shifted_mono (insts : List EbpfInst) {x y : ℕ} (h : x ≤ y) :
    shifted insts x ≤ shifted insts y := by
  have hmono := checkedBelow_mono insts h
  simp only [shifted, addedLoadStoreInsts]
  omega

/-! ### What the pass emits for an instruction -/

section Emit

variable (memoryPtr : BitVec 64) (memorySize : BitVec 32) (pcs : List ℕ) (i : ℕ)

@[simp] theorem checkBlock_length (base : Fin 16) (offset : BitVec 16) :
    (checkBlock memoryPtr memorySize base offset).length = 20 := rfl

theorem rewriteInst_checked {inst : EbpfInst} {base : Fin 16} {sz : Size}
    (ha : inst.access? = some (base, sz)) (hb : base ≠ 10) :
    rewriteInst memoryPtr memorySize pcs i inst
      = checkBlock memoryPtr memorySize base inst.offset ++ [inst] := by
  unfold EbpfInst.access? at ha
  unfold rewriteInst
  cases hop : inst.opcode <;>
    simp only [hop, reduceCtorEq, Option.some.injEq, Prod.mk.injEq] at ha ⊢
  all_goals
    rw [ha.1, if_pos hb]

theorem rewriteInst_jump {inst : EbpfInst} (hj : inst.opcode.isJump = true) :
    rewriteInst memoryPtr memorySize pcs i inst
      = [{ inst with offset := retarget addedLoadStoreInsts pcs i inst.offset }] := by
  unfold rewriteInst
  cases hop : inst.opcode <;> simp_all [Opcode.isJump]

theorem rewriteInst_other {inst : EbpfInst} (hc : inst.checked = false)
    (hj : inst.opcode.isJump = false) :
    rewriteInst memoryPtr memorySize pcs i inst = [inst] := by
  unfold EbpfInst.checked EbpfInst.access? at hc
  unfold rewriteInst
  cases hop : inst.opcode <;> simp_all [Opcode.isJump]

theorem rewriteInst_length (inst : EbpfInst) :
    (rewriteInst memoryPtr memorySize pcs i inst).length = 1 + if inst.checked then 20 else 0 := by
  cases hc : inst.checked with
  | true =>
    obtain ⟨base, sz, ha, hb⟩ := EbpfInst.access_of_checked hc
    rw [rewriteInst_checked memoryPtr memorySize pcs i ha hb]
    simp
  | false =>
    cases hj : inst.opcode.isJump with
    | true => rw [rewriteInst_jump memoryPtr memorySize pcs i hj]; simp
    | false => rw [rewriteInst_other memoryPtr memorySize pcs i hc hj]; simp

end Emit

/-! ### The places of the output -/

section Places

variable {memoryPtr : BitVec 64} {memorySize : BitVec 32} {insts : List EbpfInst} {pcs : List ℕ}

/-- **The blocks of the pass stand where `shifted` says.** -/
theorem pos_rewriteInst {x : ℕ} (hx : x ≤ insts.length) :
    pos (rewriteInst memoryPtr memorySize pcs) insts x = shifted insts x := by
  induction x with
  | zero => simp
  | succ x ih =>
    have hget : insts[x]? = some insts[x] := List.getElem?_eq_getElem (by omega)
    rw [pos_succ hget, ih (by omega), rewriteInst_length, shifted_succ,
      checkedAt_of_getElem hget]
    omega

theorem rewrite_length :
    (rewriteWithMemchecks memoryPtr memorySize insts pcs).length = shifted insts insts.length := by
  rw [rewriteWithMemchecks, ← pos_length, pos_rewriteInst (Nat.le_refl _)]

theorem rewrite_getElem? {i : ℕ} {inst : EbpfInst} (h : insts[i]? = some inst) {k : ℕ}
    (hk : k < (rewriteInst memoryPtr memorySize pcs i inst).length) :
    (rewriteWithMemchecks memoryPtr memorySize insts pcs)[shifted insts i + k]?
      = (rewriteInst memoryPtr memorySize pcs i inst)[k]? := by
  obtain ⟨hi, _⟩ := List.getElem?_eq_some_iff.mp h
  have hpos : pos (rewriteInst memoryPtr memorySize pcs) insts i = shifted insts i :=
    pos_rewriteInst (Nat.le_of_lt hi)
  rw [← hpos]
  exact expand_getElem? h hk

theorem rewrite_getElem?_block {i : ℕ} {inst : EbpfInst} (h : insts[i]? = some inst)
    {base : Fin 16} {sz : Size} (ha : inst.access? = some (base, sz)) (hb : base ≠ 10) {k : ℕ}
    (hk : k < 20) :
    (rewriteWithMemchecks memoryPtr memorySize insts pcs)[shifted insts i + k]?
      = (checkBlock memoryPtr memorySize base inst.offset)[k]? := by
  have he := rewriteInst_checked memoryPtr memorySize pcs i ha hb
  rw [rewrite_getElem? h (by rw [he]; simp; omega), he,
    List.getElem?_append_left (by simpa using hk)]

/-- The access itself, after its check block. -/
theorem rewrite_getElem?_access {i : ℕ} {inst : EbpfInst} (h : insts[i]? = some inst)
    {base : Fin 16} {sz : Size} (ha : inst.access? = some (base, sz)) (hb : base ≠ 10) :
    (rewriteWithMemchecks memoryPtr memorySize insts pcs)[shifted insts i + 20]? = some inst := by
  have he := rewriteInst_checked memoryPtr memorySize pcs i ha hb
  rw [rewrite_getElem? h (by rw [he]; simp), he,
    List.getElem?_append_right (by simp), checkBlock_length]
  rfl

theorem rewrite_getElem?_jump {i : ℕ} {inst : EbpfInst} (h : insts[i]? = some inst)
    (hj : inst.opcode.isJump = true) :
    (rewriteWithMemchecks memoryPtr memorySize insts pcs)[shifted insts i]?
      = some { inst with offset := retarget addedLoadStoreInsts pcs i inst.offset } := by
  have he := rewriteInst_jump memoryPtr memorySize pcs i hj
  have hget : (rewriteWithMemchecks memoryPtr memorySize insts pcs)[shifted insts i + 0]?
      = (rewriteInst memoryPtr memorySize pcs i inst)[0]? := rewrite_getElem? h (by rw [he]; simp)
  rw [Nat.add_zero, he] at hget
  exact hget

theorem rewrite_getElem?_other {i : ℕ} {inst : EbpfInst} (h : insts[i]? = some inst)
    (hc : inst.checked = false) (hj : inst.opcode.isJump = false) :
    (rewriteWithMemchecks memoryPtr memorySize insts pcs)[shifted insts i]? = some inst := by
  have he := rewriteInst_other memoryPtr memorySize pcs i hc hj
  have hget : (rewriteWithMemchecks memoryPtr memorySize insts pcs)[shifted insts i + 0]?
      = (rewriteInst memoryPtr memorySize pcs i inst)[0]? := rewrite_getElem? h (by rw [he]; simp)
  rw [Nat.add_zero, he] at hget
  exact hget

end Places

/-! ### The counting loops -/

section Loops

variable {insts : List EbpfInst} {i t : ℕ} {offset : BitVec 16}

/-- The loops count the recorded accesses between the instruction after the jump and its target. -/
theorem retargetWith_eq {α : Type} (inc dec : α → α) (start : α) (hi : i + 1 ≤ insts.length)
    (ht : t ≤ insts.length) (htarget : (t : ℤ) = i + 1 + offset.toInt) :
    retargetWith inc dec (marks (checkedAt insts) insts.length) i offset.toInt start
      = if i + 1 ≤ t then inc^[checkedBelow insts t - checkedBelow insts (i + 1)] start
        else dec^[checkedBelow insts (i + 1) - checkedBelow insts t] start := by
  unfold retargetWith
  rcases Int.lt_trichotomy offset.toInt 0 with hneg | hzero | hpos
  · rw [if_neg (by omega), if_pos hneg, if_neg (by omega)]
    have hwalk : (fun p : ℕ => decide ((p : ℤ) < (i : ℤ) + 1)) = fun p => decide (p < i + 1) := by
      funext p
      exact decide_eq_decide.mpr (by omega)
    have hcount : (fun p : ℕ => decide ((i : ℤ) + 1 + offset.toInt ≤ p ∧ (p : ℤ) < (i : ℤ) + 1))
        = fun p => decide (t ≤ p ∧ p < i + 1) := by
      funext p
      exact decide_eq_decide.mpr (by omega)
    rw [hwalk, takeWhile_marks _ hi, foldl_ite_iterate, hcount, countP_marks _ (by omega)]
    rfl
  · have hit : i + 1 = t := by omega
    rw [if_neg (by omega), if_neg (by omega), if_pos (by omega), hit, Nat.sub_self]
    rfl
  · rw [if_pos hpos, if_pos (by omega)]
    have hwalk : (fun p : ℕ => decide ((p : ℤ) < (i : ℤ) + 1 + offset.toInt))
        = fun p => decide (p < t) := by
      funext p
      exact decide_eq_decide.mpr (by omega)
    have hcount : (fun p : ℕ => decide ((i : ℤ) + 1 ≤ p ∧ (p : ℤ) < (i : ℤ) + 1 + offset.toInt))
        = fun p => decide (i + 1 ≤ p ∧ p < t) := by
      funext p
      exact decide_eq_decide.mpr (by omega)
    rw [hwalk, takeWhile_marks _ ht, foldl_ite_iterate, hcount, countP_marks _ (by omega)]
    rfl

/-- **The loops compute the distance between shifted places.** -/
theorem integerOffset_eq (hi : i + 1 ≤ insts.length) (ht : t ≤ insts.length)
    (htarget : (t : ℤ) = i + 1 + offset.toInt) :
    integerOffset addedLoadStoreInsts (marks (checkedAt insts) insts.length) i offset
      = (shifted insts t : ℤ) - shifted insts (i + 1) := by
  have hadd : ∀ (c : ℤ) (k : ℕ) (z : ℤ), (· + c)^[k] z = z + c * k := by
    intro c k
    induction k with
    | zero => simp
    | succ k ih => intro z; rw [Function.iterate_succ_apply, ih]; push_cast; rw [Int.mul_add]; omega
  have hsub : ∀ (c : ℤ) (k : ℕ) (z : ℤ), (· - c)^[k] z = z - c * k := by
    intro c k
    induction k with
    | zero => simp
    | succ k ih => intro z; rw [Function.iterate_succ_apply, ih]; push_cast; rw [Int.mul_add]; omega
  unfold integerOffset
  rw [retargetWith_eq _ _ _ hi ht htarget]
  simp only [hadd, hsub, shifted, addedLoadStoreInsts]
  split
  · have := checkedBelow_mono insts ‹i + 1 ≤ t›
    omega
  · have := checkedBelow_mono insts (show t ≤ i + 1 by omega)
    omega

end Loops

/-- The loops commute with a map that commutes with their two steps. -/
theorem retargetWith_map {α β : Type} {inc dec : α → α} (inc' dec' : β → β) (g : α → β)
    (hinc : ∀ a, g (inc a) = inc' (g a)) (hdec : ∀ a, g (dec a) = dec' (g a)) (pcs : List ℕ) (i : ℕ)
    (offset : ℤ) (start : α) :
    g (retargetWith inc dec pcs i offset start) = retargetWith inc' dec' pcs i offset (g start) := by
  have hfold : ∀ {f : α → α} {f' : β → β}, (∀ a, g (f a) = f' (g a)) →
      ∀ (q : ℕ → Prop) [DecidablePred q] (l : List ℕ) (a : α),
        g (l.foldl (fun o p => if q p then f o else o) a)
          = l.foldl (fun o p => if q p then f' o else o) (g a) := by
    intro f f' hf q _ l
    induction l with
    | nil => intro a; rfl
    | cons p l ih =>
      intro a
      rw [List.foldl_cons, List.foldl_cons, ih]
      by_cases hq : q p
      · rw [if_pos hq, if_pos hq, hf]
      · rw [if_neg hq, if_neg hq]
  unfold retargetWith
  dsimp only
  split
  · exact hfold hinc (fun p : ℕ => (i : ℤ) + 1 ≤ p ∧ (p : ℤ) < i + 1 + offset) _ _
  · split
    · exact hfold hdec (fun p : ℕ => (i : ℤ) + 1 + offset ≤ p ∧ (p : ℤ) < i + 1) _ _
    · rfl

theorem retarget_eq_ofInt (added : ℕ) (pcs : List ℕ) (i : ℕ) (offset : BitVec 16) :
    retarget added pcs i offset = BitVec.ofInt 16 (integerOffset added pcs i offset) := by
  unfold retarget integerOffset
  have hinc : ∀ z : ℤ, BitVec.ofInt 16 (z + added) = BitVec.ofInt 16 z + BitVec.ofNat 16 added := by
    intro z
    rw [BitVec.ofInt_add, BitVec.ofInt_natCast]
  have hdec : ∀ z : ℤ, BitVec.ofInt 16 (z - added) = BitVec.ofInt 16 z - BitVec.ofNat 16 added := by
    intro z
    rw [BitVec.sub_eq_add_neg, Int.sub_eq_add_neg, BitVec.ofInt_add, BitVec.ofInt_neg,
      BitVec.ofInt_natCast]
  rw [retargetWith_map (· + BitVec.ofNat 16 added) (· - BitVec.ofNat 16 added) (BitVec.ofInt 16)
    hinc hdec, BitVec.ofInt_toInt]

theorem ofInt16_toInt_iff (z : ℤ) :
    (BitVec.ofInt 16 z).toInt = z ↔ -32768 ≤ z ∧ z ≤ 32767 := by
  constructor
  · intro h
    have h₁ := (BitVec.ofInt 16 z).toInt_lt
    have h₂ := (BitVec.ofInt 16 z).le_toInt
    omega
  · intro h
    rw [BitVec.toInt_ofInt]
    exact Int.bmod_eq_of_le (by omega) (by omega)

/-! ### The 16-bit fields -/

/-- The rewritten program fits the fields that describe it: its length a `uint16_t`, and the distance
from the instruction after each jump to its target, in the rewritten program, an `int16_t`. -/
def FitsFields (insts : List EbpfInst) : Prop :=
  insts.length + addedLoadStoreInsts * checkedBelow insts insts.length ≤ 65535 ∧
    ∀ (i t : ℕ) (inst : EbpfInst), insts[i]? = some inst → inst.opcode.isJump = true →
      (t : ℤ) = i + 1 + inst.offset.toInt →
      -32768 ≤ (shifted insts t : ℤ) - shifted insts (i + 1) ∧
        (shifted insts t : ℤ) - shifted insts (i + 1) ≤ 32767

/-- What the stored fields have to say: the count is the number of instructions emitted, and the
offset stored in each re-targeted jump is the one the loops computed. -/
def FieldsStored (vm : UbpfVm) (insts : List EbpfInst) (pcs : List ℕ)
    (memoryPtr memorySize : BitVec 64) : Prop :=
  let out := rewriteWithMemchecks memoryPtr (memorySize.setWidth 32) insts pcs
  (storeCode vm insts pcs memoryPtr memorySize).numInsts = out.length ∧
    ∀ (i : ℕ) (inst : EbpfInst), insts[i]? = some inst → inst.opcode.isJump = true →
      ∃ inst', out[shifted insts i]? = some inst' ∧ inst'.opcode = inst.opcode ∧
        inst'.offset.toInt = integerOffset addedLoadStoreInsts pcs i inst.offset

namespace Accepted

variable {vm : UbpfVm} {insts : List EbpfInst} {pcs : List ℕ}

theorem jump_ok (h : Accepted vm insts pcs) {i : ℕ} {inst : EbpfInst}
    (hget : insts[i]? = some inst) (hj : inst.opcode.isJump = true) : InstOk vm insts i inst := by
  rcases h.inst_ok i inst hget with ⟨hz, _⟩ | hok
  · rw [hz] at hj
    cases hj
  · exact hok

theorem jump_target (h : Accepted vm insts pcs) {i : ℕ} {inst : EbpfInst}
    (hget : insts[i]? = some inst) (hj : inst.opcode.isJump = true) :
    ∃ (t : ℕ) (target : EbpfInst), (t : ℤ) = i + 1 + inst.offset.toInt ∧
      insts[t]? = some target ∧ target.opcode ≠ .unknown 0 :=
  (h.jump_ok hget hj).jump_target hj

/-- What the loops compute for a jump of an accepted program. -/
theorem integerOffset_jump (h : Accepted vm insts pcs) {i t : ℕ} {inst : EbpfInst}
    (hget : insts[i]? = some inst) (hj : inst.opcode.isJump = true)
    (ht : (t : ℤ) = i + 1 + inst.offset.toInt) :
    integerOffset addedLoadStoreInsts pcs i inst.offset
      = (shifted insts t : ℤ) - shifted insts (i + 1) := by
  obtain ⟨t', target, ht', htget, _⟩ := h.jump_target hget hj
  obtain rfl : t' = t := by omega
  obtain ⟨hi, _⟩ := List.getElem?_eq_some_iff.mp hget
  obtain ⟨htl, _⟩ := List.getElem?_eq_some_iff.mp htget
  rw [h.pcs_eq]
  exact integerOffset_eq (by omega) (by omega) ht

theorem retarget_toInt_iff (h : Accepted vm insts pcs) {i t : ℕ} {inst : EbpfInst}
    (hget : insts[i]? = some inst) (hj : inst.opcode.isJump = true)
    (ht : (t : ℤ) = i + 1 + inst.offset.toInt) :
    (retarget addedLoadStoreInsts pcs i inst.offset).toInt
        = integerOffset addedLoadStoreInsts pcs i inst.offset ↔
      -32768 ≤ (shifted insts t : ℤ) - shifted insts (i + 1) ∧
        (shifted insts t : ℤ) - shifted insts (i + 1) ≤ 32767 := by
  rw [retarget_eq_ofInt, ofInt16_toInt_iff, h.integerOffset_jump hget hj ht]

/-- A rewritten program of at most 32767 instructions fits every field. -/
theorem fitsFields (hacc : Accepted vm insts pcs)
    (hlen : insts.length + addedLoadStoreInsts * pcs.length ≤ 32767) : FitsFields insts := by
  have hshift : shifted insts insts.length ≤ 32767 := by
    rw [shifted, checkedBelow, ← hacc.pcs_eq]
    exact hlen
  refine ⟨by rw [shifted] at hshift; omega, ?_⟩
  intro i t inst hget hj ht
  obtain ⟨hi, _⟩ := List.getElem?_eq_some_iff.mp hget
  obtain ⟨t', target, ht', htget, _⟩ := hacc.jump_target hget hj
  obtain rfl : t' = t := by omega
  obtain ⟨htl, _⟩ := List.getElem?_eq_some_iff.mp htget
  have h₁ := shifted_mono insts (show i + 1 ≤ insts.length from hi)
  have h₂ := shifted_mono insts (Nat.le_of_lt htl)
  omega

end Accepted

/-- **When the stored fields say what the pass computed**: exactly when the rewritten program fits
them.  Neither `MAX_INSTS` nor `MAX_LOAD_STORE` alone ensures it. -/
theorem fieldsStored_iff_fitsFields {vm : UbpfVm} {insts : List EbpfInst} {pcs : List ℕ}
    {memoryPtr memorySize : BitVec 64} (h : validate vm insts = .ok pcs)
    (hptr : memoryPtr ≠ 0) (hsize : memorySize ≠ 0) :
    FieldsStored vm insts pcs memoryPtr memorySize ↔ FitsFields insts := by
  have hacc := validate_spec h
  have hcount : (storeCode vm insts pcs memoryPtr memorySize).numInsts
        = (rewriteWithMemchecks memoryPtr (memorySize.setWidth 32) insts pcs).length ↔
      insts.length + addedLoadStoreInsts * checkedBelow insts insts.length ≤ 65535 := by
    rw [storeCode, if_pos ⟨hptr, hsize⟩, rewrite_length]
    simp only [shifted, checkedBelow, hacc.pcs_eq]
    omega
  constructor
  · rintro ⟨hn, hoff⟩
    refine ⟨hcount.mp hn, ?_⟩
    intro i t inst hget hj ht
    obtain ⟨inst', hget', _, hstored⟩ := hoff i inst hget hj
    rw [rewrite_getElem?_jump hget hj, Option.some.injEq] at hget'
    subst hget'
    exact (hacc.retarget_toInt_iff hget hj ht).mp hstored
  · rintro ⟨hn, hoff⟩
    refine ⟨hcount.mpr hn, ?_⟩
    intro i inst hget hj
    obtain ⟨t, _, ht, _⟩ := hacc.jump_target hget hj
    exact ⟨_, rewrite_getElem?_jump hget hj, rfl,
      (hacc.retarget_toInt_iff hget hj ht).mpr (hoff i t inst hget hj ht)⟩

/-! ### A family of programs -/

def loadR1 : EbpfInst := { opcode := .ldx .w, src := 1 }

/-- A jump over `k` checked loads. -/
def jumpOverLoads (k : ℕ) : List EbpfInst :=
  { opcode := .ja, offset := BitVec.ofNat 16 k } ::
    (List.replicate k loadR1 ++ [{ opcode := .exit }])

theorem jumpOverLoads_length (k : ℕ) : (jumpOverLoads k).length = k + 2 := by
  simp [jumpOverLoads]

theorem jumpOverLoads_getElem?_target (k : ℕ) :
    (jumpOverLoads k)[k + 1]? = some { opcode := .exit } := by
  rw [jumpOverLoads, List.getElem?_cons_succ, List.getElem?_append_right (by simp)]
  simp

theorem validateLoop_loads (vm : UbpfVm) (insts rest : List EbpfInst) (k : ℕ) :
    ∀ (i : ℕ) (pcs : List ℕ), pcs.length + k ≤ maxLoadStore →
      validateLoop vm insts i (List.replicate k loadR1 ++ rest) pcs
        = validateLoop vm insts (i + k) rest (pcs ++ List.range' i k) := by
  induction k with
  | zero =>
    intro i pcs _
    simp
  | succ k ih =>
    intro i pcs hk
    have ho : validateOpcode vm insts i loadR1 pcs = .ok (pcs ++ [i]) := by
      show validateAccess .load i 1 0 pcs = _
      rw [validateAccess, if_pos (by decide), if_neg (by omega)]
    rw [List.replicate_succ, List.cons_append, validateLoop, ho]
    show validateLoop vm insts (i + 1) _ (pcs ++ [i]) = _
    rw [ih (i + 1) (pcs ++ [i]) (by rw [List.length_append, List.length_singleton]; omega),
      List.range'_succ, List.append_assoc, show i + 1 + k = i + (k + 1) from by omega]
    rfl

theorem offset_toInt {k : ℕ} (hk : k ≤ maxLoadStore) : (BitVec.ofNat 16 k).toInt = k := by
  have : k ≤ 2048 := hk
  rw [BitVec.toInt_ofNat', Int.bmod_eq_of_le (by omega) (by omega)]

/-- The family is accepted up to the limit on loads and stores. -/
theorem validate_jumpOverLoads {k : ℕ} (hk : k ≤ maxLoadStore) :
    validate ubpfCreate (jumpOverLoads k) = .ok (List.range' 1 k) := by
  have hk' : k ≤ 2048 := hk
  have hne : BitVec.ofNat 16 k ≠ -1 := by
    intro h
    have := congrArg BitVec.toInt h
    rw [offset_toInt hk] at this
    simp at this
  have hjump : validateJump (jumpOverLoads k) 0 (BitVec.ofNat 16 k) = .ok () := by
    unfold validateJump
    have hpc : (((0 : ℕ) : ℤ) + 1 + (k : ℤ)).toNat = k + 1 := by omega
    rw [if_neg hne]
    dsimp only
    rw [offset_toInt hk, if_neg (by omega), hpc, jumpOverLoads_getElem?_target]
    rfl
  have hexit : ¬((jumpOverLoads k).all fun inst => inst.opcode ≠ .exit) = true := by
    simp [jumpOverLoads]
  rw [validate, if_neg (by rw [jumpOverLoads_length, maxInsts]; omega), if_neg hexit]
  conv_lhs => rw [jumpOverLoads, validateLoop, ← jumpOverLoads]
  simp only [validateOpcode, hjump, Except.map]
  show validateLoop ubpfCreate (jumpOverLoads k) 1 _ [] = _
  rw [validateLoop_loads _ _ _ _ _ _ (by simpa using hk)]
  rfl

theorem checkedBelow_jumpOverLoads {k : ℕ} (hk : k ≤ maxLoadStore) :
    checkedBelow (jumpOverLoads k) (k + 1) = k := by
  have hpcs := (validate_spec (validate_jumpOverLoads hk)).pcs_eq
  have hlast : checkedAt (jumpOverLoads k) (k + 1) = false := by
    rw [checkedAt_of_getElem (jumpOverLoads_getElem?_target k)]
    rfl
  have hcount : checkedBelow (jumpOverLoads k) (k + 1 + 1) = k := by
    rw [checkedBelow, ← jumpOverLoads_length k, ← hpcs, List.length_range']
  rw [checkedBelow_succ, hlast] at hcount
  exact hcount

/-- The jump has to cross `21 * k` rewritten instructions. -/
theorem jumpOverLoads_distance {k : ℕ} (hk : k ≤ maxLoadStore) :
    (shifted (jumpOverLoads k) (k + 1) : ℤ) - shifted (jumpOverLoads k) (0 + 1) = 21 * k := by
  have h₁ : shifted (jumpOverLoads k) (0 + 1) = 1 := by
    rw [shifted_succ, checkedAt_of_getElem (show (jumpOverLoads k)[0]? = some _ from rfl)]
    rfl
  rw [h₁, shifted, checkedBelow_jumpOverLoads hk, addedLoadStoreInsts]
  omega

/-- Over enough loads the distance leaves the range of an `int16_t`. -/
theorem jumpOverLoads_wraps {k : ℕ} (hk : k ≤ maxLoadStore) (hbig : 32767 < 21 * k)
    (memoryPtr memorySize : BitVec 64) :
    ¬FieldsStored ubpfCreate (jumpOverLoads k) (List.range' 1 k) memoryPtr memorySize := by
  rintro ⟨_, hoff⟩
  have hget : (jumpOverLoads k)[0]? = some { opcode := .ja, offset := BitVec.ofNat 16 k } := rfl
  obtain ⟨inst', hget', _, hstored⟩ := hoff 0 _ hget rfl
  rw [rewrite_getElem?_jump hget rfl, Option.some.injEq] at hget'
  subst hget'
  have ht : ((k + 1 : ℕ) : ℤ) = (0 : ℕ) + 1 + (BitVec.ofNat 16 k).toInt := by
    rw [offset_toInt hk]
    omega
  have hfit := ((validate_spec (validate_jumpOverLoads hk)).retarget_toInt_iff hget rfl ht).mp hstored
  rw [jumpOverLoads_distance hk] at hfit
  omega

theorem fitsFields_jumpOverLoads : FitsFields (jumpOverLoads 1) :=
  (validate_spec (validate_jumpOverLoads (k := 1) (by decide))).fitsFields (by decide)

theorem fieldsStored_jumpOverLoads :
    validate ubpfCreate (jumpOverLoads 1) = .ok [1] ∧
      FieldsStored ubpfCreate (jumpOverLoads 1) [1] 0x10000 4096 := by
  have hv : validate ubpfCreate (jumpOverLoads 1) = .ok [1] := validate_jumpOverLoads (by decide)
  exact ⟨hv, (fieldsStored_iff_fitsFields hv (by decide) (by decide)).mpr fitsFields_jumpOverLoads⟩

/-- **The fields can wrap.**  Over 1639 loads the jump has to cross 34419 rewritten instructions,
which no `int16_t` holds, and the program is accepted. -/
theorem not_fieldsStored_jumpOverLoads :
    validate ubpfCreate (jumpOverLoads 1639) = .ok (List.range' 1 1639) ∧
      ¬FieldsStored ubpfCreate (jumpOverLoads 1639) (List.range' 1 1639) 0x10000 4096 :=
  ⟨validate_jumpOverLoads (by decide), jumpOverLoads_wraps (by decide) (by decide) _ _⟩

end TorEbpf.Ubpf
