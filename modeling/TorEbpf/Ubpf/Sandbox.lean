import TorEbpf.Lib.Region
import TorEbpf.Ubpf.ControlFlow

/-!
# The sandbox of a loaded plugin

Which memory the loads and stores of a plugin touch when it runs as `ubpf_load` stored it, with a heap.
The check block compares the address of an access with the ends of the heap and of the stack, the
validator does the same statically for an access through `r10`, and neither looks at the width.

* `near_of_access` — every access that executes starts in the heap or the stack, or at the end of one.
* `inSandbox_of_not_overruns` — so it stays inside unless it starts closer to an end than it is wide.
-/

namespace TorEbpf.Ubpf

open TorEbpf.Lib

/-- The heap `[memory_ptr, memory_ptr + memory_size)`. -/
def heap (memoryPtr memorySize : BitVec 64) : Region 64 :=
  ⟨memoryPtr, memorySize.toNat, memorySize.isLt⟩

/-- The stack `[r10 - STACK_SIZE, r10)`. -/
def stack (r10 : BitVec 64) : Region 64 :=
  ⟨r10 - BitVec.ofNat 64 stackSize, stackSize, by decide⟩

/-- The bytes of an access lie wholly in the heap or wholly in the stack. -/
def InSandbox (memoryPtr memorySize r10 : BitVec 64) (a : BitVec 64) (w : ℕ) : Prop :=
  (heap memoryPtr memorySize).Contains a w ∨ (stack r10).Contains a w

/-- The access starts fewer bytes below the end of the heap, or of the stack, than it is wide. -/
def Overruns (memoryPtr memorySize r10 : BitVec 64) (a : BitVec 64) (w : ℕ) : Prop :=
  (memoryPtr + memorySize - a).toNat < w ∨ (r10 - a).toNat < w

/-- From `s` a load or store of `w` bytes at `a` executes. -/
def Executes (h : Host) (code : List EbpfInst) (s : State) (a : BitVec 64) (w : ℕ) : Prop :=
  ∃ inst base sz, code[s.pc]? = some inst ∧ inst.access? = some (base, sz) ∧
    a = effAddr s base inst.offset ∧ w = sz.bytes ∧ h.boundsCheck a w = true

theorem Size.bytes_pos (sz : Size) : 0 < sz.bytes := by
  cases sz <;> decide

/-! ### Passing a test -/

theorem heap_top (memoryPtr memorySize : BitVec 64) :
    (heap memoryPtr memorySize).top = memoryPtr + memorySize := by
  rw [Region.top, heap, BitVec.ofNat_toNat, BitVec.setWidth_eq]

theorem stack_top (r10 : BitVec 64) : (stack r10).top = r10 := by
  rw [Region.top, stack, BitVec.sub_add_cancel]

/-- The heap test bounds the distance to the end of the heap.  A size of `2^32` or more is narrowed,
which only moves the end that is tested down. -/
theorem near_of_heapTest {memoryPtr memorySize a : BitVec 64}
    (ht : HeapTest memoryPtr (memorySize.setWidth 32) a) : (heap memoryPtr memorySize).Near a := by
  obtain ⟨_, hle⟩ := ht
  unfold Region.Near
  rw [heap_top]
  show (memoryPtr + memorySize - a).toNat ≤ memorySize.toNat
  have hnarrow : ((memorySize.setWidth 32).setWidth 64).toNat = memorySize.toNat % 2 ^ 32 := by
    rw [BitVec.toNat_setWidth, BitVec.toNat_setWidth, Nat.mod_eq_of_lt (by omega)]
  rw [BitVec.le_def] at hle
  simp only [BitVec.toNat_sub, BitVec.toNat_add, hnarrow] at hle ⊢
  have := memorySize.isLt
  have := memoryPtr.isLt
  have := a.isLt
  omega

theorem near_of_stackTest {r10 a : BitVec 64} (ht : StackTest r10 a) : (stack r10).Near a := by
  obtain ⟨hle, hge⟩ := ht
  unfold Region.Near
  rw [stack_top]
  show (r10 - a).toNat ≤ 2048
  have hge' : r10 ≤ a + 2048#64 := hge
  bv_omega

/-- The static check of an access through `r10`. -/
theorem near_of_offset {r10 : BitVec 64} {offset : BitVec 16} (hle : offset.toInt ≤ 0)
    (hge : -(stackSize : ℤ) ≤ offset.toInt) : (stack r10).Near (r10 + offset.signExtend 64) := by
  unfold Region.Near
  rw [stack_top]
  show (r10 - (r10 + offset.signExtend 64)).toNat ≤ 2048
  have hge' : -2048 ≤ offset.toInt := hge
  have hneg : r10 - (r10 + offset.signExtend 64) = BitVec.ofNat 64 (-offset.toInt).toNat := by
    have hext : offset.signExtend 64 = BitVec.ofInt 64 offset.toInt := rfl
    rw [← BitVec.sub_sub, BitVec.sub_self, BitVec.zero_sub, hext, ← BitVec.ofInt_neg,
      ← BitVec.ofInt_natCast, Int.toNat_of_nonneg (by omega)]
  rw [hneg, BitVec.toNat_ofNat, Nat.mod_eq_of_lt (by omega)]
  omega

/-! ### Whole runs -/

theorem checkBlock_access {memoryPtr : BitVec 64} {memorySize : BitVec 32} {base : Fin 16}
    {offset : BitVec 16} {k : ℕ} {inst : EbpfInst}
    (hget : (checkBlock memoryPtr memorySize base offset)[k]? = some inst) :
    inst.access? = none := by
  obtain ⟨hk, _⟩ := List.getElem?_eq_some_iff.mp hget
  rw [checkBlock_length] at hk
  interval_cases k <;> cases hget <;> rfl

theorem ubpfLoad_spec {vm vm' : UbpfVm} {bytes : List UInt8} {memoryPtr memorySize : BitVec 64}
    (hload : ubpfLoad vm bytes memoryPtr memorySize 0 = .ok vm') :
    ∃ pcs, validate vm (decodeInsts bytes) = .ok pcs ∧
      vm' = storeCode vm (decodeInsts bytes) pcs memoryPtr memorySize := by
  unfold ubpfLoad at hload
  split at hload
  · cases hload
  · split at hload
    · cases hload
    · split at hload
      · cases hload
      · rename_i pcs hv
        rw [if_pos rfl] at hload
        cases hload
        exact ⟨pcs, hv, rfl⟩

section Runs

variable {vm : UbpfVm} {insts : List EbpfInst} {pcs : List ℕ} {memoryPtr memorySize : BitVec 64}

/-- Along every run of the rewritten program control is located, or has left the program, and `r10`
is what it was at the start. -/
theorem located_of_reaches (hacc : Accepted vm insts pcs) (hfit : FitsFields insts) {h : Host}
    {s₀ s : State} (hpc : s₀.pc = 0)
    (hr : Reaches
      (step h (rewriteWithMemchecks memoryPtr (memorySize.setWidth 32) insts pcs)) s₀ s) :
    s.reg 10 = s₀.reg 10 ∧
      (Located insts memoryPtr (memorySize.setWidth 32) s ∨
        s.pc = (rewriteWithMemchecks memoryPtr (memorySize.setWidth 32) insts pcs).length) := by
  have hlen : (rewriteWithMemchecks memoryPtr (memorySize.setWidth 32) insts pcs).length < 65536 := by
    have hmax := hfit.1
    rw [rewrite_length, shifted]
    omega
  refine hr.via.invariant
    (I := fun t => t.reg 10 = s₀.reg 10 ∧
      (Located insts memoryPtr (memorySize.setWidth 32) t ∨
        t.pc = (rewriteWithMemchecks memoryPtr (memorySize.setWidth 32) insts pcs).length)) ?_ ?_
  · obtain ⟨inst₀, ho₀⟩ := hacc.own_zero
    exact ⟨rfl, .inl (.arrive ho₀ (by rw [hpc]; rfl))⟩
  · rintro t t' ⟨h10, hl | hend⟩ _ ht
    · obtain ⟨hr', hoff | hl'⟩ := hl.step hacc hfit ht
      · exact ⟨hr'.trans h10, .inr (hoff.pc_eq hlen ht)⟩
      · exact ⟨hr'.trans h10, .inl hl'⟩
    · -- nothing is fetched past the end
      rw [Ubpf.step, List.getElem?_eq_none (by rw [hend])] at ht
      cases ht

/-- **Every access that executes** starts in the heap or the stack, or at the end of one of them. -/
theorem near_of_access (hacc : Accepted vm insts pcs) (hfit : FitsFields insts) {h : Host}
    {s₀ s : State} (hpc : s₀.pc = 0)
    (hr : Reaches
      (step h (rewriteWithMemchecks memoryPtr (memorySize.setWidth 32) insts pcs)) s₀ s)
    {a : BitVec 64} {w : ℕ}
    (hx : Executes h (rewriteWithMemchecks memoryPtr (memorySize.setWidth 32) insts pcs) s a w) :
    (heap memoryPtr memorySize).Near a ∨ (stack (s₀.reg 10)).Near a := by
  obtain ⟨inst, base, sz, hget, ha, rfl, _, _⟩ := hx
  obtain ⟨h10, hl | hend⟩ := located_of_reaches hacc hfit hpc hr
  · cases hl with
    | block i inst' base' sz' k ho ha' hb hk hpc' hinv =>
      rw [hpc', rewrite_getElem?_block ho.1 ha' hb hk] at hget
      rw [checkBlock_access hget] at ha
      cases ha
    | own i inst' ho hpc' ht =>
      rw [hpc', rewrite_getElem?_place ho.1, Option.some.injEq] at hget
      have hj : inst'.opcode.isJump = false := by
        rw [← moved_opcode pcs i, hget]
        exact EbpfInst.not_isJump_of_access ha
      rw [moved_of_not_jump hj] at hget
      subst hget
      by_cases hb : base = 10
      · -- the static check
        subst hb
        obtain ⟨hle, hge⟩ := (hacc.ok_of_own ho).access_offset ha
        rw [effAddr, h10]
        exact .inr (near_of_offset hle hge)
      · -- the check block
        rcases ht base sz ha hb with hheap | hstack
        · exact .inl (near_of_heapTest hheap)
        · rw [h10] at hstack
          exact .inr (near_of_stackTest hstack)
  · rw [hend, List.getElem?_eq_none (Nat.le_refl _)] at hget
    cases hget

end Runs

/-- **The sandbox.**  In every run of a loaded program that fits the 16-bit fields, an access that
executes stays inside the heap or the stack if it does not start closer to the end of one of them
than it is wide; where the two are apart, only then. -/
theorem inSandbox_of_not_overruns {vm vm' : UbpfVm} {bytes : List UInt8}
    {memoryPtr memorySize : BitVec 64} {code : List EbpfInst}
    (hload : ubpfLoad vm bytes memoryPtr memorySize 0 = .ok vm') (hptr : memoryPtr ≠ 0)
    (hsize : memorySize ≠ 0) (hfit : FitsFields (decodeInsts bytes)) (hcode : vm'.insts = some code)
    (h : Host) (s₀ s : State) (hpc : s₀.pc = 0) (hr : Reaches (step h code) s₀ s) (a : BitVec 64)
    (w : ℕ) (hx : Executes h code s a w) :
    (¬Overruns memoryPtr memorySize (s₀.reg 10) a w →
        InSandbox memoryPtr memorySize (s₀.reg 10) a w) ∧
      ((heap memoryPtr memorySize).Apart (stack (s₀.reg 10)) →
        InSandbox memoryPtr memorySize (s₀.reg 10) a w →
          ¬Overruns memoryPtr memorySize (s₀.reg 10) a w) := by
  obtain ⟨pcs, hv, rfl⟩ := ubpfLoad_spec hload
  rw [storeCode, if_pos ⟨hptr, hsize⟩] at hcode
  cases hcode
  have hnear := near_of_access (validate_spec hv) hfit hpc hr hx
  obtain ⟨_, _, sz, _, _, _, rfl, _⟩ := hx
  have hw := sz.bytes_pos
  have hheap := Region.contains_iff (heap memoryPtr memorySize) a hw
  have hstack := Region.contains_iff (stack (s₀.reg 10)) a hw
  rw [heap_top] at hheap
  rw [stack_top] at hstack
  refine ⟨?_, ?_⟩
  · intro hover
    unfold Overruns at hover
    rcases hnear with hn | hn
    · exact .inl (hheap.mpr ⟨hn, by omega⟩)
    · exact .inr (hstack.mpr ⟨hn, by omega⟩)
  · rintro hapart (hc | hc) hover
    · have h₁ := (hheap.mp hc).2
      have h₂ := hapart.symm.le_distance hw hc
      rw [stack_top] at h₂
      unfold Overruns at hover
      omega
    · have h₁ := (hstack.mp hc).2
      have h₂ := hapart.le_distance hw hc
      rw [heap_top] at h₂
      unfold Overruns at hover
      omega

/-! ### An access across the end of the heap -/

/-- `ldxdw r0, [r1]; exit`. -/
def loadWord : List UInt8 := [0x79, 0x10, 0, 0, 0, 0, 0, 0, 0x95, 0, 0, 0, 0, 0, 0, 0]

/-- A start with `r1 = p` and a stack far from the heap `[0x10000, 0x11000)`. -/
def startWith (p : BitVec 64) : State :=
  ⟨0, fun r => if r = 1 then p else if r = 10 then 0x7fff0000 else 0, fun _ => 0, []⟩

theorem validate_loadWord : validate ubpfCreate (decodeInsts loadWord) = .ok [0] := by
  decide

theorem fitsFields_loadWord : FitsFields (decodeInsts loadWord) :=
  (validate_spec validate_loadWord).fitsFields (by decide)

def loadWordCode : List EbpfInst :=
  rewriteWithMemchecks 0x10000 ((4096 : BitVec 64).setWidth 32) (decodeInsts loadWord) [0]

theorem ubpfLoad_loadWord :
    ∃ vm', ubpfLoad ubpfCreate loadWord 0x10000 4096 0 = .ok vm' ∧ vm'.insts = some loadWordCode :=
  ⟨_, rfl, rfl⟩

/-- The load is reached whenever its address passes the test of its check block. -/
theorem loadWord_reaches {p : BitVec 64}
    (ht : HeapTest 0x10000 ((4096 : BitVec 64).setWidth 32) p) :
    ∃ s, Reaches (step bareHost loadWordCode) (startWith p) s ∧
      Executes bareHost loadWordCode s p 8 := by
  have hacc := validate_spec validate_loadWord
  have hget : (decodeInsts loadWord)[0]? = some { opcode := .ldx .dw, src := 1 } := by decide
  have ha : EbpfInst.access? { opcode := .ldx .dw, src := 1 } = some (1, .dw) := rfl
  have hblock : BlockAt loadWordCode 0x10000 ((4096 : BitVec 64).setWidth 32) 1 0
      (shifted (decodeInsts loadWord) 0) :=
    blockAt_of_access hacc fitsFields_loadWord ⟨hget, fun hc => Opcode.noConfusion hc⟩ ha (by decide)
  have haddr : effAddr (startWith p) 1 0 = p := by
    show p + BitVec.signExtend 64 0#16 = p
    simp
  have hm : Memcheck 0x10000 ((4096 : BitVec 64).setWidth 32) 1 0 (startWith p) := by
    refine .inl ?_
    rw [haddr]
    exact ht
  obtain ⟨v, hv⟩ := hblock.run_pass bareHost rfl hm
  refine ⟨_, hv, _, 1, .dw, rewrite_getElem?_access hget ha (by decide), ha, ?_, rfl, rfl⟩
  rw [effAddr_set _ _ _ (by decide), haddr]

/-- A load of the first word of the heap. -/
theorem inSandbox_loadWord :
    ∃ s, Reaches (step bareHost loadWordCode) (startWith 0x10000) s ∧
      Executes bareHost loadWordCode s 0x10000 8 ∧ InSandbox 0x10000 4096 0x7fff0000 0x10000 8 := by
  obtain ⟨vm', hload, hcode⟩ := ubpfLoad_loadWord
  obtain ⟨s, hr, hx⟩ := loadWord_reaches (show HeapTest _ _ 0x10000 by unfold HeapTest; decide)
  exact ⟨s, hr, hx, (inSandbox_of_not_overruns hload (by decide) (by decide) fitsFields_loadWord hcode
    bareHost (startWith 0x10000) s rfl hr _ _ hx).1 (by unfold Overruns; decide)⟩

/-- **The check block admits an access beyond the heap**: eight bytes at its end. -/
theorem not_inSandbox_loadWord :
    ∃ vm' s, ubpfLoad ubpfCreate loadWord 0x10000 4096 0 = .ok vm' ∧
      vm'.insts = some loadWordCode ∧
      Reaches (step bareHost loadWordCode) (startWith 0x11000) s ∧
      Executes bareHost loadWordCode s 0x11000 8 ∧
      ¬InSandbox 0x10000 4096 0x7fff0000 0x11000 8 := by
  obtain ⟨vm', hload, hcode⟩ := ubpfLoad_loadWord
  obtain ⟨s, hr, hx⟩ := loadWord_reaches (show HeapTest _ _ 0x11000 by unfold HeapTest; decide)
  refine ⟨vm', s, hload, hcode, hr, hx, ?_⟩
  rintro (hc | hc)
  · exact absurd (hc 0 (by omega)) (by decide)
  · exact absurd (hc 0 (by omega)) (by decide)

end TorEbpf.Ubpf
