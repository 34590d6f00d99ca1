import TorEbpf.Ubpf.CheckBlock

/-!
# Control flow of accepted programs

Where control can be in a run of an accepted program, as it was written and after
`rewrite_with_memchecks`.

* `Accepted.successor` — in the program as written, every way out of an instruction that is not a
  second half leads to another one, or past the end.
* `Located` — where control stands in the rewritten program: inside a check block with the block's
  invariant, or on an instruction of the original with its test passed.
* `Located.step` — one step keeps `Located` and `r10`, unless it runs past the end.
* `fetchOk_of_not_fallsOff` — the run result: fetches stay in range and off the second halves as long
  as no step falls off the end, and a step that does is followed by a fetch out of range.
-/

namespace TorEbpf.Ubpf

open TorEbpf.Lib

/-! ### Successors in the program as written -/

/-- How many places an instruction takes. -/
def EbpfInst.slots (inst : EbpfInst) : ℕ := if inst.opcode = .lddw then 2 else 1

/-- Control stands on an instruction other than `EXIT` that is the last one and transfers control
nowhere else. -/
def FallsOff (code : List EbpfInst) (s : State) : Prop :=
  ∃ inst, code[s.pc]? = some inst ∧ inst.opcode ≠ .exit ∧ inst.taken s = false ∧
    s.pc + inst.slots = code.length

/-- An instruction that stands on its own: not the second half of an `LDDW`. -/
def Own (insts : List EbpfInst) (i : ℕ) (inst : EbpfInst) : Prop :=
  insts[i]? = some inst ∧ inst.opcode ≠ .unknown 0

namespace Accepted

variable {vm : UbpfVm} {insts : List EbpfInst} {pcs : List ℕ} {i : ℕ} {inst : EbpfInst}

theorem ok_of_own (h : Accepted vm insts pcs) (ho : Own insts i inst) : InstOk vm insts i inst :=
  (h.inst_ok i inst ho.1).resolve_left fun hz => ho.2 hz.1

/-- An instruction that no `LDDW` precedes stands on its own. -/
theorem own_of_not_lddwHigh (h : Accepted vm insts pcs) (hget : insts[i]? = some inst)
    (hn : ¬LddwHigh insts i) : Own insts i inst := by
  rcases h.inst_ok i inst hget with ⟨_, hhigh⟩ | hok
  · exact absurd hhigh hn
  · exact ⟨hget, hok.opcode_ne_unknown 0⟩

theorem own_zero (h : Accepted vm insts pcs) : ∃ inst, Own insts 0 inst := by
  obtain ⟨inst, hmem, _⟩ := h.exit_mem
  have hlen : 0 < insts.length := List.length_pos_of_mem hmem
  refine ⟨insts[0], h.own_of_not_lddwHigh (List.getElem?_eq_getElem hlen) ?_⟩
  rintro ⟨j, _, hj, _⟩
  omega

/-- The instruction after `inst`, past both halves of an `LDDW`. -/
theorem successor (h : Accepted vm insts pcs) (ho : Own insts i inst) :
    i + inst.slots = insts.length ∨ ∃ inst', Own insts (i + inst.slots) inst' := by
  obtain ⟨hi, _⟩ := List.getElem?_eq_some_iff.mp ho.1
  by_cases hl : inst.opcode = .lddw
  · rw [EbpfInst.slots, if_pos hl]
    obtain ⟨hi', hget', hz⟩ := (h.ok_of_own ho).lddw_high hl
    obtain ⟨hlt, _⟩ := List.getElem?_eq_some_iff.mp hget'
    rcases (by omega : i + 2 = insts.length ∨ i + 2 < insts.length) with hend | hlt'
    · exact .inl hend
    · refine .inr ⟨insts[i + 2], h.own_of_not_lddwHigh (List.getElem?_eq_getElem hlt') ?_⟩
      rintro ⟨j, lo, hj, hlo, hop⟩
      obtain rfl : j = i + 1 := by omega
      obtain rfl : lo = hi' := Option.some.inj (hlo.symm.trans hget')
      rw [hz] at hop
      cases hop
  · rw [EbpfInst.slots, if_neg hl]
    rcases (by omega : i + 1 = insts.length ∨ i + 1 < insts.length) with hend | hlt'
    · exact .inl hend
    · refine .inr ⟨insts[i + 1], h.own_of_not_lddwHigh (List.getElem?_eq_getElem hlt') ?_⟩
      rintro ⟨j, lo, hj, hlo, hop⟩
      obtain rfl : j = i := by omega
      obtain rfl : lo = inst := Option.some.inj (hlo.symm.trans ho.1)
      exact hl hop

theorem own_target (h : Accepted vm insts pcs) (ho : Own insts i inst)
    (hj : inst.opcode.isJump = true) :
    ∃ (t : ℕ) (target : EbpfInst), (t : ℤ) = i + 1 + inst.offset.toInt ∧ Own insts t target := by
  obtain ⟨t, target, ht, hget, hne⟩ := h.jump_target ho.1 hj
  exact ⟨t, target, ht, hget, hne⟩

end Accepted

/-- A second half of an accepted program has the byte `0`, so what stands on its own is none. -/
theorem Own.not_lddwHigh {vm : UbpfVm} {insts : List EbpfInst} {pcs : List ℕ} {i : ℕ}
    {inst : EbpfInst} (ho : Own insts i inst) (h : Accepted vm insts pcs) : ¬LddwHigh insts i := by
  rintro ⟨j, lo, rfl, hlo, hop⟩
  have hlow : Own insts j lo := ⟨hlo, by rw [hop]; exact fun hc => Opcode.noConfusion hc⟩
  obtain ⟨hi, hget, hz⟩ := (h.ok_of_own hlow).lddw_high hop
  obtain rfl : hi = inst := Option.some.inj (hget.symm.trans ho.1)
  exact ho.2 hz

/-- **Control in the program as written.**  A step from an instruction of its own leads to another,
or falls off. -/
theorem Own.step {vm : UbpfVm} {insts : List EbpfInst} {pcs : List ℕ} {h : Host} {s s' : State}
    {inst : EbpfInst} (ho : Own insts s.pc inst) (hacc : Accepted vm insts pcs)
    (hn : ¬FallsOff insts s) (hs : Ubpf.step h insts s = .next s') :
    ∃ inst', Own insts s'.pc inst' := by
  have hlen : insts.length < 65536 := hacc.length_lt
  obtain ⟨hi, _⟩ := List.getElem?_eq_some_iff.mp ho.1
  rw [step_of_fetch ho.1] at hs
  have hnext : ∀ q, q = s.pc + inst.slots → inst.opcode ≠ .exit → inst.taken s = false →
      ∃ inst', Own insts q inst' := by
    rintro q rfl hx ht
    rcases hacc.successor ho with hend | hown
    · exact absurd ⟨inst, ho.1, hx, ht, hend⟩ hn
    · exact hown
  rcases execInst_pc hs with ⟨hj, _, hpc⟩ | ⟨hl, hpc⟩ | ⟨hl, hx, ht, hpc⟩
  · obtain ⟨t, target, ht, htarget⟩ := hacc.own_target ho hj
    obtain ⟨htl, _⟩ := List.getElem?_eq_some_iff.mp htarget.1
    rw [incPc_of_lt (by omega), jumpPc_eq (t := t) (by omega) (by omega)] at hpc
    exact ⟨target, by rw [hpc]; exact htarget⟩
  · obtain ⟨hi', hget', _⟩ := (hacc.ok_of_own ho).lddw_high hl
    obtain ⟨hlt, _⟩ := List.getElem?_eq_some_iff.mp hget'
    rw [hpc]
    refine hnext _ ?_ (by rw [hl]; exact fun hc => Opcode.noConfusion hc)
      (by rw [EbpfInst.taken, hl])
    rw [EbpfInst.slots, if_pos hl, incPc_of_lt (show s.pc + 1 < 65536 by omega),
      incPc_of_lt (by omega)]
  · rw [hpc]
    refine hnext _ ?_ hx ht
    rw [EbpfInst.slots, if_neg hl, incPc_of_lt (by omega)]

/-! ### Places in the rewritten program -/

/-- The place of instruction `i` itself, after its check block if it has one. -/
def place (insts : List EbpfInst) (i : ℕ) : ℕ :=
  shifted insts i + if checkedAt insts i then 20 else 0

def moved (pcs : List ℕ) (i : ℕ) (inst : EbpfInst) : EbpfInst :=
  if inst.opcode.isJump then { inst with offset := retarget addedLoadStoreInsts pcs i inst.offset }
  else inst

theorem shifted_succ_eq_place (insts : List EbpfInst) (i : ℕ) :
    shifted insts (i + 1) = place insts i + 1 := by
  rw [shifted_succ, place]
  omega

@[simp] theorem moved_opcode (pcs : List ℕ) (i : ℕ) (inst : EbpfInst) :
    (moved pcs i inst).opcode = inst.opcode := by
  unfold moved
  split <;> rfl

@[simp] theorem moved_dst (pcs : List ℕ) (i : ℕ) (inst : EbpfInst) :
    (moved pcs i inst).dst = inst.dst := by
  unfold moved
  split <;> rfl

theorem moved_of_not_jump {pcs : List ℕ} {i : ℕ} {inst : EbpfInst}
    (hj : inst.opcode.isJump = false) : moved pcs i inst = inst := by
  rw [moved, if_neg (by simp [hj])]

theorem moved_taken (pcs : List ℕ) (i : ℕ) (inst : EbpfInst) (s : State) :
    (moved pcs i inst).taken s = inst.taken s := by
  unfold moved
  split <;> rfl

theorem moved_slots (pcs : List ℕ) (i : ℕ) (inst : EbpfInst) :
    (moved pcs i inst).slots = inst.slots := by
  rw [EbpfInst.slots, moved_opcode, EbpfInst.slots]

section Places

variable {memoryPtr : BitVec 64} {memorySize : BitVec 32} {insts : List EbpfInst} {pcs : List ℕ}

/-- **Each instruction is at its place.** -/
theorem rewrite_getElem?_place {i : ℕ} {inst : EbpfInst} (h : insts[i]? = some inst) :
    (rewriteWithMemchecks memoryPtr memorySize insts pcs)[place insts i]?
      = some (moved pcs i inst) := by
  rw [place, checkedAt_of_getElem h]
  cases hc : inst.checked with
  | true =>
    obtain ⟨base, sz, ha, hb⟩ := EbpfInst.access_of_checked hc
    rw [moved_of_not_jump (EbpfInst.not_isJump_of_access ha)]
    exact rewrite_getElem?_access h ha hb
  | false =>
    cases hj : inst.opcode.isJump with
    | true =>
      rw [moved, if_pos hj]
      exact rewrite_getElem?_jump h hj
    | false =>
      rw [moved_of_not_jump hj]
      exact rewrite_getElem?_other h hc hj

theorem blockAt_of_access {vm : UbpfVm} (hacc : Accepted vm insts pcs) (hfit : FitsFields insts)
    {i : ℕ} {inst : EbpfInst} {base : Fin 16} {sz : Size} (ho : Own insts i inst)
    (ha : inst.access? = some (base, sz)) (hb : base ≠ 10) :
    BlockAt (rewriteWithMemchecks memoryPtr memorySize insts pcs) memoryPtr memorySize base
      inst.offset (shifted insts i) := by
  obtain ⟨hi, _⟩ := List.getElem?_eq_some_iff.mp ho.1
  refine ⟨fun k hk => rewrite_getElem?_block ho.1 ha hb hk, ?_, ?_⟩
  · have hc : checkedAt insts i = true := by
      rw [checkedAt_of_getElem ho.1, EbpfInst.checked, ha]
      simpa using hb
    have hle := shifted_mono insts (show i + 1 ≤ insts.length from hi)
    have hmax : shifted insts insts.length ≤ 65535 := hfit.1
    rw [shifted_succ, if_pos hc] at hle
    omega
  · have hsrc := (hacc.ok_of_own ho).src_le
    have hdst : inst.dst ≤ 10 := by
      rcases (hacc.ok_of_own ho).dst_le with h | ⟨_, h⟩
      · omega
      · omega
    unfold EbpfInst.access? at ha
    cases hop : inst.opcode <;>
      simp only [hop, reduceCtorEq, Option.some.injEq, Prod.mk.injEq] at ha
    · rw [← ha.1]; exact hsrc
    · rw [← ha.1]; exact hdst
    · rw [← ha.1]; exact hdst

/-- The two halves of an `LDDW` stay adjacent: the place after an instruction and its second half is
the first one emitted for what follows. -/
theorem shifted_slots {vm : UbpfVm} (hacc : Accepted vm insts pcs) {i : ℕ} {inst : EbpfInst}
    (ho : Own insts i inst) : shifted insts (i + inst.slots) = place insts i + inst.slots := by
  by_cases hl : inst.opcode = .lddw
  · obtain ⟨hi', hget', hz⟩ := (hacc.ok_of_own ho).lddw_high hl
    have hc : checkedAt insts (i + 1) = false := by
      rw [checkedAt_of_getElem hget']
      simp [EbpfInst.checked, EbpfInst.access?, hz]
    rw [EbpfInst.slots, if_pos hl, show i + 2 = i + 1 + 1 from rfl, shifted_succ, hc,
      shifted_succ_eq_place]
    rfl
  · rw [EbpfInst.slots, if_neg hl, shifted_succ_eq_place]

/-- **Where control goes from a place.**  If the instruction at `i` goes to `t`, its copy goes to the
first instruction emitted for `t`. -/
theorem place_successor {vm : UbpfVm} (hacc : Accepted vm insts pcs) (hfit : FitsFields insts)
    {i : ℕ} {inst : EbpfInst} (ho : Own insts i inst) :
    (inst.opcode = .lddw → incPc (incPc (place insts i)) = shifted insts (i + 2)) ∧
    incPc (place insts i) = shifted insts (i + 1) ∧
    ∀ t : ℕ, inst.opcode.isJump = true → (t : ℤ) = i + 1 + inst.offset.toInt →
      jumpPc (incPc (place insts i)) (moved pcs i inst).offset = shifted insts t := by
  obtain ⟨hi, _⟩ := List.getElem?_eq_some_iff.mp ho.1
  have hmax : shifted insts insts.length ≤ 65535 := hfit.1
  have hle := shifted_mono insts (show i + 1 ≤ insts.length from hi)
  have hsucc := shifted_succ_eq_place insts i
  have hinc : incPc (place insts i) = shifted insts (i + 1) := by
    rw [incPc_of_lt (by omega), hsucc]
  refine ⟨?_, hinc, ?_⟩
  · intro hl
    obtain ⟨hi', hget', hz⟩ := (hacc.ok_of_own ho).lddw_high hl
    obtain ⟨hlt, _⟩ := List.getElem?_eq_some_iff.mp hget'
    have hle₂ := shifted_mono insts (show i + 2 ≤ insts.length from hlt)
    have hsl := shifted_slots hacc ho
    rw [EbpfInst.slots, if_pos hl] at hsl
    rw [hinc, hsucc, incPc_of_lt (by omega), hsl]
  · intro t hj ht
    obtain ⟨t', target, ht', htarget⟩ := hacc.own_target ho hj
    obtain rfl : t' = t := by omega
    obtain ⟨htl, _⟩ := List.getElem?_eq_some_iff.mp htarget.1
    have hle₂ := shifted_mono insts (Nat.le_of_lt htl)
    have hoff : (retarget addedLoadStoreInsts pcs i inst.offset).toInt
        = (shifted insts t' : ℤ) - shifted insts (i + 1) := by
      rw [(hacc.retarget_toInt_iff ho.1 hj ht).mpr (hfit.2 i t' inst ho.1 hj ht)]
      exact hacc.integerOffset_jump ho.1 hj ht
    rw [hinc, moved, if_pos hj]
    exact jumpPc_eq (by simp only [hoff]; omega) (by omega)

end Places

/-! ### Control in the rewritten program -/

/-- Where control stands in a run of the rewritten program: inside a check block, or on an
instruction of the original whose test, if it has one, has passed. -/
inductive Located (insts : List EbpfInst) (memoryPtr : BitVec 64) (memorySize : BitVec 32)
    (s : State) : Prop
  | block (i : ℕ) (inst : EbpfInst) (base : Fin 16) (sz : Size) (k : ℕ) (ho : Own insts i inst)
      (ha : inst.access? = some (base, sz)) (hb : base ≠ 10) (hk : k < 20)
      (hpc : s.pc = shifted insts i + k)
      (hinv : BlockInv memoryPtr memorySize base inst.offset k s)
  | own (i : ℕ) (inst : EbpfInst) (ho : Own insts i inst) (hpc : s.pc = place insts i)
      (ht : ∀ base sz, inst.access? = some (base, sz) → base ≠ 10 →
        Memcheck memoryPtr memorySize base inst.offset s)

section Run

variable {memoryPtr : BitVec 64} {memorySize : BitVec 32} {insts : List EbpfInst} {pcs : List ℕ}
  {vm : UbpfVm}

theorem place_of_not_checked {i : ℕ} {inst : EbpfInst} (hget : insts[i]? = some inst)
    (hc : inst.checked = false) : place insts i = shifted insts i := by
  rw [place, checkedAt_of_getElem hget, hc]
  rfl

theorem place_of_access {i : ℕ} {inst : EbpfInst} {base : Fin 16} {sz : Size}
    (hget : insts[i]? = some inst) (ha : inst.access? = some (base, sz)) (hb : base ≠ 10) :
    place insts i = shifted insts i + 20 := by
  have hc : inst.checked = true := by
    rw [EbpfInst.checked, ha]
    simpa using hb
  rw [place, checkedAt_of_getElem hget, hc]
  rfl

/-- Control that arrives at the first instruction emitted for `t` is located. -/
theorem Located.arrive {t : ℕ} {target : EbpfInst} {s : State} (ho : Own insts t target)
    (hpc : s.pc = shifted insts t) : Located insts memoryPtr memorySize s := by
  cases hc : target.checked with
  | true =>
    obtain ⟨base, sz, ha, hb⟩ := EbpfInst.access_of_checked hc
    exact .block t target base sz 0 ho ha hb (by omega) hpc trivial
  | false =>
    refine .own t target ho (by rw [hpc, place_of_not_checked ho.1 hc]) ?_
    intro base sz ha hb
    rw [EbpfInst.checked, ha] at hc
    exact absurd hb (by simpa using hc)

/-- **Control in the rewritten program.**  A step from a located state leads to another and keeps
`r10`, unless it falls off. -/
theorem Located.step (hacc : Accepted vm insts pcs) (hfit : FitsFields insts) {h : Host}
    {s s' : State} (hl : Located insts memoryPtr memorySize s)
    (hs : Ubpf.step h (rewriteWithMemchecks memoryPtr memorySize insts pcs) s = .next s') :
    s'.reg 10 = s.reg 10 ∧
      (FallsOff (rewriteWithMemchecks memoryPtr memorySize insts pcs) s ∨
        Located insts memoryPtr memorySize s') := by
  cases hl with
  | block i inst base sz k ho ha hb hk hpc hinv =>
    obtain ⟨k', hk', hpc', hinv', hr⟩ :=
      (blockAt_of_access hacc hfit ho ha hb).step_inv hk hpc hinv hs
    refine ⟨hr, .inr ?_⟩
    rcases Nat.lt_or_ge k' 20 with hlt | hge
    · exact .block i inst base sz k' ho ha hb hlt hpc' hinv'
    · obtain rfl : k' = 20 := by omega
      refine .own i inst ho (by rw [hpc', place_of_access ho.1 ha hb]) ?_
      intro base' sz' ha' _
      rw [ha] at ha'
      cases ha'
      exact hinv'
  | own i inst ho hpc ht =>
    have hfetch : (rewriteWithMemchecks memoryPtr memorySize insts pcs)[s.pc]?
        = some (moved pcs i inst) := by
      rw [hpc]
      exact rewrite_getElem?_place ho.1
    obtain ⟨hlddw, hinc, hjump⟩ := place_successor hacc hfit ho
    rw [step_of_fetch hfetch] at hs
    refine ⟨?_, ?_⟩
    · apply execInst_reg hs (by decide)
      rw [moved_dst, moved_opcode]
      rcases (hacc.ok_of_own ho).dst_le with hd | ⟨hst, _⟩
      · exact .inl (by omega)
      · exact .inr hst
    · -- past the instruction: either it was the last one, or control arrives at the next
      have hnext : s'.pc = shifted insts (i + inst.slots) → inst.opcode ≠ .exit →
          inst.taken s = false → FallsOff (rewriteWithMemchecks memoryPtr memorySize insts pcs) s ∨
            Located insts memoryPtr memorySize s' := by
        intro hpc' hx htk
        rcases hacc.successor ho with hend | ⟨inst', ho'⟩
        · refine .inl ⟨_, hfetch, by rwa [moved_opcode], by rwa [moved_taken], ?_⟩
          rw [moved_slots, rewrite_length, ← hend, hpc]
          exact (shifted_slots hacc ho).symm
        · exact .inr (.arrive ho' hpc')
      rcases execInst_pc hs with ⟨hj, _, hpc'⟩ | ⟨hl, hpc'⟩ | ⟨hl, hx, htk, hpc'⟩
      · rw [moved_opcode] at hj
        obtain ⟨t, target, ht, htarget⟩ := hacc.own_target ho hj
        rw [hpc, hjump t hj ht] at hpc'
        exact .inr (.arrive htarget hpc')
      · rw [moved_opcode] at hl
        rw [hpc, hlddw hl] at hpc'
        apply hnext
        · rw [hpc', EbpfInst.slots, if_pos hl]
        · rw [hl]
          exact fun hc => Opcode.noConfusion hc
        · rw [EbpfInst.taken, hl]
      · rw [moved_opcode] at hl hx
        rw [moved_taken] at htk
        rw [hpc, hinc] at hpc'
        apply hnext _ hx htk
        rw [hpc', EbpfInst.slots, if_neg hl]

theorem checkBlock_lddw_high {base : Fin 16} {offset : BitVec 16} {k : ℕ} {lo : EbpfInst}
    (hget : (checkBlock memoryPtr memorySize base offset)[k]? = some lo) (hl : lo.opcode = .lddw) :
    k + 1 < 20 ∧ ∃ hi, (checkBlock memoryPtr memorySize base offset)[k + 1]? = some hi ∧
      hi.opcode = .unknown 0 := by
  obtain ⟨hk, _⟩ := List.getElem?_eq_some_iff.mp hget
  rw [checkBlock_length] at hk
  interval_cases k <;> cases hget <;> first | exact ⟨by omega, _, rfl, rfl⟩ | cases hl

theorem checkBlock_opcode {base : Fin 16} {offset : BitVec 16} {k : ℕ} {s : State} (hk : k < 20)
    (hinv : BlockInv memoryPtr memorySize base offset k s) :
    ∃ inst, (checkBlock memoryPtr memorySize base offset)[k]? = some inst ∧
      inst.opcode ≠ .unknown 0 := by
  interval_cases k <;>
    first | exact hinv.elim | exact ⟨_, rfl, fun hc => Opcode.noConfusion hc⟩

/-- An `LDDW` of the rewritten program is followed by its second half. -/
theorem rewrite_lddw_high (hacc : Accepted vm insts pcs) {q : ℕ} {lo : EbpfInst}
    (hget : (rewriteWithMemchecks memoryPtr memorySize insts pcs)[q]? = some lo)
    (hl : lo.opcode = .lddw) :
    ∃ hi, (rewriteWithMemchecks memoryPtr memorySize insts pcs)[q + 1]? = some hi ∧
      hi.opcode = .unknown 0 := by
  obtain ⟨hq, _⟩ := List.getElem?_eq_some_iff.mp hget
  obtain ⟨i, inst, k, hi, hk, rfl⟩ := exists_of_lt_expand hq
  obtain ⟨hlt, _⟩ := List.getElem?_eq_some_iff.mp hi
  rw [pos_rewriteInst (Nat.le_of_lt hlt)] at hget ⊢
  -- control is on the instruction itself, which is then an `LDDW` of the original
  have hplace : shifted insts i + k = place insts i → ∃ hi,
      (rewriteWithMemchecks memoryPtr memorySize insts pcs)[shifted insts i + k + 1]? = some hi ∧
        hi.opcode = .unknown 0 := by
    intro hp
    rw [hp, rewrite_getElem?_place hi, Option.some.injEq] at hget
    rw [← hget, moved_opcode] at hl
    have ho : Own insts i inst := ⟨hi, by rw [hl]; exact fun hc => Opcode.noConfusion hc⟩
    obtain ⟨hi', hget', hz⟩ := (hacc.ok_of_own ho).lddw_high hl
    have hc' : hi'.checked = false := by simp [EbpfInst.checked, EbpfInst.access?, hz]
    have hj' : hi'.opcode.isJump = false := by simp [Opcode.isJump, hz]
    rw [hp, ← shifted_succ_eq_place]
    exact ⟨hi', rewrite_getElem?_other hget' hc' hj', hz⟩
  cases hc : inst.checked with
  | true =>
    obtain ⟨base, sz, ha, hb⟩ := EbpfInst.access_of_checked hc
    rcases Nat.lt_or_ge k 20 with hk' | hk'
    · rw [rewrite_getElem?_block hi ha hb hk'] at hget
      obtain ⟨hk₁, hi', hget', hz⟩ := checkBlock_lddw_high hget hl
      refine ⟨hi', ?_, hz⟩
      rw [Nat.add_assoc, rewrite_getElem?_block hi ha hb hk₁]
      exact hget'
    · rw [rewriteInst_length, hc] at hk
      apply hplace
      rw [place_of_access hi ha hb]
      simp only [if_true] at hk
      omega
  | false =>
    rw [rewriteInst_length, hc] at hk
    apply hplace
    rw [place_of_not_checked hi hc]
    simp only [Bool.false_eq_true, if_false] at hk
    omega

theorem Located.fetch (hacc : Accepted vm insts pcs) {s : State}
    (hl : Located insts memoryPtr memorySize s) :
    s.pc < (rewriteWithMemchecks memoryPtr memorySize insts pcs).length ∧
      ¬LddwHigh (rewriteWithMemchecks memoryPtr memorySize insts pcs) s.pc := by
  have hfetch : ∃ inst, (rewriteWithMemchecks memoryPtr memorySize insts pcs)[s.pc]? = some inst ∧
      inst.opcode ≠ .unknown 0 := by
    cases hl with
    | block i inst base sz k ho ha hb hk hpc hinv =>
      rw [hpc, rewrite_getElem?_block ho.1 ha hb hk]
      exact checkBlock_opcode hk hinv
    | own i inst ho hpc ht =>
      rw [hpc]
      exact ⟨_, rewrite_getElem?_place ho.1, by rw [moved_opcode]; exact ho.2⟩
  obtain ⟨inst, hget, hne⟩ := hfetch
  obtain ⟨hlt, _⟩ := List.getElem?_eq_some_iff.mp hget
  refine ⟨hlt, ?_⟩
  rintro ⟨j, lo, hj, hlo, hop⟩
  obtain ⟨hi, hget', hz⟩ := rewrite_lddw_high hacc hlo hop
  rw [← hj, hget, Option.some.injEq] at hget'
  rw [hget'] at hne
  exact hne hz

end Run

/-! ### Whole runs -/

/-- A fetch that control-flow safety allows: in range, and not of the second half of an `LDDW`. -/
def FetchOk (vm : UbpfVm) (s : State) : Prop :=
  s.pc < vm.numInsts ∧ ¬LddwHigh (vm.insts.getD []) s.pc

theorem FallsOff.pc_eq {code : List EbpfInst} (hlen : code.length < 65536) {h : Host} {s s' : State}
    (hoff : FallsOff code s) (hs : step h code s = .next s') : s'.pc = code.length := by
  obtain ⟨inst, hget, _, htk, hend⟩ := hoff
  rw [step_of_fetch hget] at hs
  rcases execInst_pc hs with ⟨_, htk', _⟩ | ⟨hl, hpc⟩ | ⟨hl, _, _, hpc⟩
  · rw [htk] at htk'
    cases htk'
  · rw [EbpfInst.slots, if_pos hl] at hend
    rw [hpc, incPc_of_lt (show s.pc + 1 < 65536 by omega), incPc_of_lt (by omega), ← hend]
  · rw [EbpfInst.slots, if_neg hl] at hend
    rw [hpc, incPc_of_lt (by omega), hend]

section Stored

variable {vm : UbpfVm} {insts code : List EbpfInst} {pcs : List ℕ} {memoryPtr memorySize : BitVec 64}

/-- The stored code is the program itself or its rewriting, and the stored count is its length. -/
theorem storeCode_cases (hacc : Accepted vm insts pcs)
    (hfit : memoryPtr ≠ 0 ∧ memorySize ≠ 0 → FitsFields insts)
    (hcode : (storeCode vm insts pcs memoryPtr memorySize).insts = some code) :
    (storeCode vm insts pcs memoryPtr memorySize).numInsts = code.length ∧ code.length < 65536 ∧
      (code = insts ∨
        (FitsFields insts ∧
          code = rewriteWithMemchecks memoryPtr (memorySize.setWidth 32) insts pcs)) := by
  have hlen : insts.length < 65536 := hacc.length_lt
  unfold storeCode at hcode ⊢
  by_cases hheap : memoryPtr ≠ 0 ∧ memorySize ≠ 0
  · rw [if_pos hheap] at hcode ⊢
    cases hcode
    have hmax := (hfit hheap).1
    refine ⟨?_, ?_, .inr ⟨hfit hheap, rfl⟩⟩
    · rw [rewrite_length, shifted, hacc.pcs_eq, ← checkedBelow]
      exact Nat.mod_eq_of_lt (by omega)
    · rw [rewrite_length, shifted]
      omega
  · rw [if_neg hheap] at hcode ⊢
    cases hcode
    exact ⟨Nat.mod_eq_of_lt hlen, hlen, .inl rfl⟩

/-- **Control-flow safety.**  In every run of an accepted program, as written or rewritten within the
16-bit fields, every fetch is in range and off the second halves as long as no step falls off the
end; and a step that falls off is followed by a fetch out of range. -/
theorem fetchOk_of_not_fallsOff (hv : validate vm insts = .ok pcs)
    (hfit : memoryPtr ≠ 0 ∧ memorySize ≠ 0 → FitsFields insts)
    (hcode : (storeCode vm insts pcs memoryPtr memorySize).insts = some code) (h : Host)
    (s₀ : State) (hpc : s₀.pc = 0) :
    (∀ s, ReachesVia (step h code) (fun t => ¬FallsOff code t) s₀ s →
        FetchOk (storeCode vm insts pcs memoryPtr memorySize) s) ∧
      ∀ s s', FallsOff code s → step h code s = .next s' →
        ¬FetchOk (storeCode vm insts pcs memoryPtr memorySize) s' := by
  have hacc := validate_spec hv
  obtain ⟨hnum, hlen, hkind⟩ := storeCode_cases hacc hfit hcode
  unfold FetchOk
  rw [hnum, hcode, Option.getD_some]
  refine ⟨?_, ?_⟩
  · obtain ⟨inst₀, ho₀⟩ := hacc.own_zero
    intro s hs
    rcases hkind with rfl | ⟨hfits, rfl⟩
    · -- the program as written: control stays on instructions of their own
      obtain ⟨inst, ho⟩ : ∃ inst, Own code s.pc inst := by
        apply hs.invariant
        · exact ⟨inst₀, by rw [hpc]; exact ho₀⟩
        · rintro t t' ⟨inst, ho⟩ hn ht
          exact ho.step hacc hn ht
      obtain ⟨hlt, _⟩ := List.getElem?_eq_some_iff.mp ho.1
      exact ⟨hlt, ho.not_lddwHigh hacc⟩
    · -- the rewritten program: control stays located
      have hl : Located insts memoryPtr (memorySize.setWidth 32) s := by
        apply hs.invariant
        · exact .arrive ho₀ (by rw [hpc]; rfl)
        · intro t t' hl hn ht
          exact (hl.step hacc hfits ht).2.resolve_left hn
      exact hl.fetch hacc
  · intro s s' hoff hs
    rw [hoff.pc_eq hlen hs]
    exact fun hok => Nat.lt_irrefl _ hok.1

end Stored

/-! ### A program that falls off -/

/-- No external function, no memory protection, memory and registers zero. -/
def bareHost : Host := Host.jit (fun _ => false) fun _ _ mem => (0, mem)

/-- The start of a run: `pc = 0` and cleared registers. -/
def bareStart : State := ⟨0, fun _ => 0, fun _ => 0, []⟩

/-- A jump over the only `EXIT` to a last instruction that is none. -/
def jumpOverExit : List EbpfInst :=
  [{ opcode := .ja, offset := 1 }, { opcode := .exit }, { opcode := .alu .w64 .mov .imm }]

/-- The jump of `jumpOverLoads` lands on the `EXIT` behind the check block and the load. -/
theorem fetchOk_jumpOverLoads :
    validate ubpfCreate (jumpOverLoads 1) = .ok [1] ∧
      FetchOk (storeCode ubpfCreate (jumpOverLoads 1) [1] 0x10000 4096) (bareStart.goto 22) := by
  have hv : validate ubpfCreate (jumpOverLoads 1) = .ok [1] := validate_jumpOverLoads (by decide)
  refine ⟨hv, (fetchOk_of_not_fallsOff hv (fun _ => fitsFields_jumpOverLoads) rfl bareHost bareStart
    rfl).1 _ ⟨1, rfl, ?_⟩⟩
  intro k hk t ht
  obtain rfl : k = 0 := by omega
  cases ht
  rintro ⟨inst, hget, _, htk, _⟩
  cases hget
  cases htk

/-- **Control can leave the program**: an accepted program fetches at `num_insts`. -/
theorem not_fetchOk_jumpOverExit :
    validate ubpfCreate jumpOverExit = .ok [] ∧
      (storeCode ubpfCreate jumpOverExit [] 0 0).insts = some jumpOverExit ∧
      ∃ s, Reaches (step bareHost jumpOverExit) bareStart s ∧
        ¬FetchOk (storeCode ubpfCreate jumpOverExit [] 0 0) s := by
  refine ⟨by decide, rfl, (bareStart.goto 2).set 3 0 0, ⟨2, rfl⟩, ?_⟩
  rintro ⟨hlt, _⟩
  exact absurd hlt (by decide)

end TorEbpf.Ubpf
