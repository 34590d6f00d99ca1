import TorEbpf.Ubpf.JitLayout
import TorEbpf.Ubpf.JitStep

/-!
# Whole runs of compiled code

Compiled code is entered with the context in `rdi`; the prologue saves registers and sets up the stack, the
code of one instruction leads to the code of the next, and the epilogue gives the registers back.

* `pushes_spec`, `pops_spec` — a row of `push`, and a row of `pop`;
* `prologue_runsTo`, `epilogue_returns` — the parts around the instructions;
* `compiled_run` — a run of the interpreter whose steps are portable is a run of the compiled code.
-/

namespace TorEbpf.Ubpf.Jit

open TorEbpf.Lib
open TorEbpf.Lib.X86

variable {ω : Type*} {callee : Callee ω}

/-! ### Words on the stack -/

/-- Words are in memory one after the other. -/
def Holds (m : X86.Memory) : Word → List Word → Prop
  | _, [] => True
  | p, v :: vs => m.load p 8 = v ∧ Holds m (p + 8) vs

theorem Holds.congr {m m' : X86.Memory} {vs : List Word} : ∀ {p : Word}, Holds m p vs →
    (∀ k < 8 * vs.length, m' (p + BitVec.ofNat 64 k) = m (p + BitVec.ofNat 64 k)) → Holds m' p vs := by
  induction vs with
  | nil => exact fun _ _ => trivial
  | cons v vs ih =>
    intro p h hm
    rw [List.length_cons] at hm
    refine ⟨?_, ih h.2 fun k hk => ?_⟩
    · rw [← h.1]
      exact Memory.load_congr fun k hk => hm k (by omega)
    · have hk' := hm (k + 8) (by omega)
      have haddr : p + BitVec.ofNat 64 (k + 8) = p + 8 + BitVec.ofNat 64 k := by
        rw [BitVec.ofNat_add, BitVec.add_comm (BitVec.ofNat 64 k), ← BitVec.add_assoc]
        rfl
      rwa [haddr] at hk'

theorem Holds.pushed {x : X86.State ω} {vs : List Word} (h : Holds x.mem (x.reg rsp) vs)
    (hlen : 8 * vs.length + 8 ≤ 2 ^ 64) (r : Reg) :
    Holds (pushed x r).mem ((pushed x r).reg rsp) (x.reg r :: vs) := by
  rw [pushed_rsp]
  refine ⟨Memory.load_store _ _ _, ?_⟩
  have hsp : x.reg rsp - 8 + 8 = x.reg rsp := BitVec.sub_add_cancel _ _
  rw [hsp]
  refine h.congr fun k hk => pushed_mem x r _ ?_
  bv_omega

theorem pushes_runsTo (rs : List Reg) : ∀ x : X86.State ω,
    RunsTo callee (rs.flatMap emitPush) x (rs.foldl pushed x) none := by
  induction rs with
  | nil => exact fun x => .nil x
  | cons r rs ih => exact fun x => (runsTo_push r x).append (ih _)

/-- **A row of pushes.** -/
theorem pushes_spec (rs : List Reg) (hrs : rsp ∉ rs) : ∀ (x : X86.State ω) (vs : List Word),
    Holds x.mem (x.reg rsp) vs → 8 * (vs.length + rs.length) ≤ 2 ^ 64 →
      Holds (rs.foldl pushed x).mem ((rs.foldl pushed x).reg rsp) ((rs.map x.reg).reverse ++ vs) ∧
      (rs.foldl pushed x).reg rsp = x.reg rsp - BitVec.ofNat 64 (8 * rs.length) ∧
      (∀ q, q ≠ rsp → (rs.foldl pushed x).reg q = x.reg q) ∧ (rs.foldl pushed x).world = x.world ∧
      ∀ b, 8 * rs.length ≤ (x.reg rsp - 1 - b).toNat → (rs.foldl pushed x).mem b = x.mem b := by
  induction rs with
  | nil =>
    intro x vs h _
    exact ⟨h, (BitVec.sub_zero _).symm, fun _ _ => rfl, rfl, fun _ _ => rfl⟩
  | cons r rs ih =>
    intro x vs h hlen
    rw [List.length_cons] at hlen
    have hr : r ≠ rsp := fun heq => hrs (heq ▸ List.mem_cons_self)
    have hrs' : rsp ∉ rs := fun hmem => hrs (List.mem_cons_of_mem r hmem)
    obtain ⟨hholds, hsp, hreg, hworld, hmem⟩ := ih hrs' (pushed x r) (x.reg r :: vs) (h.pushed (by omega) r)
      (by rw [List.length_cons]; omega)
    refine ⟨?_, ?_, fun q hq => (hreg q hq).trans (pushed_of_ne x hq), hworld, fun b hb => ?_⟩
    · have hmap : rs.map (pushed x r).reg = rs.map x.reg := List.map_congr_left fun q hq =>
        pushed_of_ne x fun heq => hrs' (heq ▸ hq)
      rw [hmap] at hholds
      rw [List.map_cons, List.reverse_cons, List.append_assoc, List.singleton_append]
      exact hholds
    · refine hsp.trans ?_
      rw [pushed_rsp, List.length_cons, show 8 * (rs.length + 1) = 8 + 8 * rs.length by omega, BitVec.ofNat_add,
        ← BitVec.sub_sub]
      rfl
    · rw [List.length_cons] at hb
      refine (hmem b ?_).trans (pushed_mem x r b ?_)
      · rw [pushed_rsp]
        bv_omega
      · bv_omega

/-- **A row of pops.** -/
theorem pops_spec (rs : List Reg) (hrs : rsp ∉ rs) (hnodup : rs.Nodup) :
    ∀ (y : X86.State ω) (vs ws : List Word), vs.length = rs.length → Holds y.mem (y.reg rsp) (vs ++ ws) →
      ∃ z, RunsTo callee (rs.flatMap emitPop) y z none ∧ z.mem = y.mem ∧ z.world = y.world ∧ z.reg rsp = y.reg rsp + BitVec.ofNat 64 (8 * rs.length) ∧
      (∀ q, q ∉ rs → q ≠ rsp → z.reg q = y.reg q) ∧ rs.map z.reg = vs ∧ Holds z.mem (z.reg rsp) ws := by
  induction rs with
  | nil =>
    intro y vs ws hvs h
    obtain rfl := List.length_eq_zero_iff.mp hvs
    exact ⟨y, .nil y, rfl, rfl, (BitVec.add_zero _).symm, fun _ _ _ => rfl, rfl, h⟩
  | cons r rs ih =>
    intro y vs ws hvs h
    obtain ⟨v, vs, rfl⟩ := List.exists_cons_of_length_eq_add_one hvs
    have hr : r ≠ rsp := fun heq => hrs (heq ▸ List.mem_cons_self)
    have hrs' : rsp ∉ rs := fun hmem => hrs (List.mem_cons_of_mem r hmem)
    obtain ⟨hnotin, hnodup'⟩ := List.nodup_cons.mp hnodup
    set y₁ := (y.setReg rsp (y.reg rsp + 8)).setReg r v with hy₁
    have hsp₁ : y₁.reg rsp = y.reg rsp + 8 := by
      rw [hy₁, setReg_of_ne hr.symm, setReg_self]
    have hpop : effect callee y (.pop r) = some y₁ := by
      rw [effect, h.1]
    have hholds : Holds y₁.mem (y₁.reg rsp) (vs ++ ws) := by
      rw [hsp₁]
      exact h.2
    obtain ⟨z, hrun, hmem, hworld, hsp, hothers, hmap, hrest⟩ := ih hrs' hnodup' y₁ vs ws (Nat.succ.inj hvs)
      hholds
    refine ⟨z, ((decodes_pop r).runsTo hpop).append hrun, hmem, hworld, ?_, fun q hq hqs => ?_, ?_, hrest⟩
    · rw [hsp, hsp₁, List.length_cons, show 8 * (rs.length + 1) = 8 + 8 * rs.length by omega, BitVec.ofNat_add,
        ← BitVec.add_assoc]
      rfl
    · obtain ⟨hqr, hqrs⟩ := not_or.mp fun hor => hq (List.mem_cons.mpr hor)
      rw [hothers q hqrs hqs, hy₁, setReg_of_ne hqr, setReg_of_ne hqs]
    · have hv : z.reg r = v := by
        rw [hothers r hnotin hr, hy₁, setReg_self]
      rw [List.map_cons, hv, hmap]

/-! ### Prologue and epilogue -/

def savedRegs : List Reg := [rbp, rbx, r12, r13, r14, r15]

variable {f : Frame}

/-- The top of the stack, where the saved registers begin. -/
def Frame.top (f : Frame) : Word := f.base + BitVec.ofNat 64 stackSize

theorem prologue_eq : prologue = savedRegs.flatMap emitPush ++ (emitMov rsp rbp ++
    (emitAlu true 0x81#8 5 rsp ++ emit4 (BitVec.ofNat 32 stackSize))) := rfl

/-- The immediate of the two instructions that move the stack pointer. -/
theorem signExtend_stackSize : (BitVec.ofNat 32 stackSize).signExtend 64 = BitVec.ofNat 64 stackSize := by
  decide

/-- What the prologue leaves above the stack: the saved registers, and the address to return to. -/
def savedWords (x : X86.State ω) : List Word := (savedRegs.map x.reg).reverse ++ [x.mem.load (x.reg rsp) 8]

/-- **The prologue** saves registers and points `rbp` to the top of the stack. -/
theorem prologue_runsTo (x : X86.State ω) (hsp : x.reg rsp = f.top + 48) :
    ∃ y, RunsTo callee prologue x y none ∧ y.reg rsp = f.base ∧ y.reg rbp = f.top ∧
      y.reg rdi = x.reg rdi ∧ y.world = x.world ∧ (∀ b, ¬f.Private b → y.mem b = x.mem b) ∧
      Holds y.mem f.top (savedWords x) := by
  obtain ⟨hholds, hpsp, hreg, hworld, hmem⟩ := pushes_spec savedRegs (by decide) x
    [x.mem.load (x.reg rsp) 8] ⟨rfl, trivial⟩ (by rw [List.length_singleton]; decide)
  have hpushes : RunsTo callee (savedRegs.flatMap emitPush) x (savedRegs.foldl pushed x) none :=
    pushes_runsTo savedRegs x
  generalize savedRegs.foldl pushed x = p at hholds hpsp hreg hworld hmem hpushes
  have htop : p.reg rsp = f.top := by
    rw [hpsp, hsp]
    exact BitVec.add_sub_cancel _ _
  set q := p.setReg rbp (p.reg rsp)
  have hsub : effect callee q (.aluImm true .sub rsp (BitVec.ofNat 32 stackSize)) =
      some ((q.setReg rsp f.base).setFlags none) := by
    have hbase : q.reg rsp - (BitVec.ofNat 32 stackSize).signExtend 64 = f.base := by
      have hq : q.reg rsp = f.top := (setReg_of_ne (by decide)).trans htop
      rw [hq, signExtend_stackSize]
      exact BitVec.add_sub_cancel _ _
    have heffect : effect callee q (.aluImm true .sub rsp (BitVec.ofNat 32 stackSize)) =
        some ((q.setReg rsp (q.reg rsp - (BitVec.ofNat 32 stackSize).signExtend 64)).setFlags none) := rfl
    rw [heffect, hbase]
  have hrun : RunsTo callee prologue x ((q.setReg rsp f.base).setFlags none) none := by
    rw [prologue_eq]
    exact hpushes.append ((runsTo_mov rsp rbp p).append
      ((decodes_aluImm rfl true rsp _).runsTo hsub))
  refine ⟨_, hrun, ?_, ?_, ?_, hworld, fun b hb => hmem b ?_, ?_⟩
  · show (q.setReg rsp f.base).reg rsp = f.base
    exact setReg_self
  · show (q.setReg rsp f.base).reg rbp = f.top
    rw [setReg_of_ne (by decide), setReg_self, htop]
  · show (q.setReg rsp f.base).reg rdi = x.reg rdi
    rw [setReg_of_ne (by decide), setReg_of_ne (by decide), hreg rdi (by decide)]
  · have hsaved : ¬f.Saved b := fun h => hb (.inr h)
    rw [Frame.Saved] at hsaved
    show 48 ≤ (x.reg rsp - 1 - b).toNat
    rw [hsp, Frame.top]
    bv_omega
  · rw [htop] at hholds
    exact hholds

def epilogueBody : Code :=
  (emitAlu true 0x81#8 0 rsp ++ emit4 (BitVec.ofNat 32 stackSize)) ++ savedRegs.reverse.flatMap emitPop

/-- **The epilogue** gives the registers back. -/
theorem epilogue_runsTo (callee : Callee ω) {x : X86.State ω} (hsp : x.reg rsp = f.base) {vs ws : List Word}
    (hvs : vs.length = savedRegs.length) (h : Holds x.mem f.top (vs ++ ws)) :
    ∃ z, RunsTo callee epilogueBody x z none ∧ z.mem = x.mem ∧ z.world = x.world ∧ z.reg rsp = f.top + 48 ∧
      z.reg rax = x.reg rax ∧ savedRegs.reverse.map z.reg = vs ∧ Holds z.mem (z.reg rsp) ws := by
  set y := (x.setReg rsp f.top).setFlags none
  have hadd : effect callee x (.aluImm true .add rsp (BitVec.ofNat 32 stackSize)) = some y := by
    have heffect : effect callee x (.aluImm true .add rsp (BitVec.ofNat 32 stackSize)) =
        some ((x.setReg rsp (x.reg rsp + (BitVec.ofNat 32 stackSize).signExtend 64)).setFlags none) := rfl
    rw [heffect, hsp, signExtend_stackSize]
    rfl
  have hysp : y.reg rsp = f.top := by
    show (x.setReg rsp f.top).reg rsp = f.top
    exact setReg_self
  have hholds : Holds y.mem (y.reg rsp) (vs ++ ws) := by
    rw [hysp]
    exact h
  obtain ⟨z, hrun, hmem, hworld, hzsp, hothers, hmap, hrest⟩ := pops_spec savedRegs.reverse (by decide)
    (by decide) y vs ws (by rw [hvs]; rfl) hholds
  refine ⟨z, ((decodes_aluImm rfl true rsp _).runsTo hadd).append hrun, hmem, hworld, ?_, ?_, hmap, hrest⟩
  · rw [hzsp, hysp]
    rfl
  · rw [hothers rax (by decide) (by decide)]
    show (x.setReg rsp f.top).reg rax = x.reg rax
    exact setReg_of_ne (by decide)

/-! ### The end of the instructions -/

variable {a : Addresses} {registered : BitVec 32 → Bool} {ext : List Call → Call → Mem → BitVec 64 × Mem}
  {arity : BitVec 32 → ℕ} {view : List Call → ω → Prop} {kept : X86.Memory}

/-! ### Places -/

variable {insts : List EbpfInst} {chunks : List (ℕ × Code)}

def bytesOf (a : Addresses) (chunks : List (ℕ × Code)) : List Byte :=
  resolveJumps (stateOf a chunks) 0 (stateOf a chunks).buf

theorem At.append {state : JitState} {c c' : Code} {p : ℕ} (h : At state (c ++ c') p) :
    At state c p ∧ At state c' (p + codeSize c) := by
  obtain ⟨before, behind, hbuf, rfl⟩ := h
  refine ⟨⟨before, c' ++ behind, ?_, rfl⟩, ⟨before ++ c, behind, ?_, codeSize_append _ _⟩⟩
  · rw [hbuf]
    simp only [List.append_assoc]
  · rw [hbuf]
    simp only [List.append_assoc]

theorem RunsTo.reaches {c : Code} {p : ℕ} (hat : At (stateOf a chunks) c p)
    (hsize : codeSize (stateOf a chunks).buf ≤ bufferSize) {x x' : X86.State ω} {o : Option (BitVec 32)}
    (h : RunsTo callee c x x' o) (hrip : x.rip = p) :
    Reaches (X86.step callee (bytesOf a chunks)) x
      (x'.goto (o.elim (p + codeSize c) (stateOf a chunks).targetLoc)) := by
  obtain ⟨items, hitems, hrun⟩ := h
  exact (hat.placed hitems hsize).reaches hrip hrun

theorem decodes_ret : Decodes (emit1 0xc3#8) .ret := ⟨[0xc3#8], rfl, fun _ => rfl⟩

/-- The registers and the memory behind the return. -/
structure Returned (f : Frame) (view : List Call → ω → Prop) (s : State) (r0 : Word) (x₀ z : X86.State ω) :
    Prop where
  rax : z.reg X86.rax = r0
  rsp : z.reg X86.rsp = x₀.reg X86.rsp + 8
  saved : ∀ q ∈ savedRegs, z.reg q = x₀.reg q
  mem : ∀ b, ¬f.Private b → z.mem b = s.mem b
  world : view s.calls z.world

/-- **From the end of the instructions to the caller.** -/
theorem epilogue_returns (callee : Callee ω) (hsize : codeSize (stateOf a chunks).buf ≤ bufferSize)
    {live : List (Fin 16)} {s : State} {x₀ x : X86.State ω} (h : Rel f kept view live s x) (hrip : x.rip = (stateOf a chunks).exitLoc)
    (hsp : x₀.reg rsp = f.top + 48) (hkept : Holds kept f.top (savedWords x₀)) :
    ∃ n z, run (X86.step callee (bytesOf a chunks)) n x = .halt (.returned (x₀.mem.load (x₀.reg rsp) 8) z) ∧
      Returned f view s (x.reg rax) x₀ z := by
  have hholds : Holds x.mem f.top (savedWords x₀) := hkept.congr fun k hk => by
    refine h.saved _ ?_
    have hk' : k < 56 := hk
    rw [Frame.Saved, Frame.top]
    bv_omega
  obtain ⟨z, hrun, hmem, hworld, hzsp, hrax, hmap, hword, -⟩ := epilogue_runsTo callee h.rsp (by rfl) hholds
  have hat : At (stateOf a chunks) (epilogueBody ++ emit1 0xc3#8) (stateOf a chunks).exitLoc := at_epilogue
  obtain ⟨hbody, hret⟩ := hat.append
  have hreach := hrun.reaches hbody hsize hrip
  obtain ⟨q, hstep⟩ : ∃ q, X86.step callee (bytesOf a chunks)
      (z.goto ((stateOf a chunks).exitLoc + codeSize epilogueBody)) =
        .halt (.returned (z.mem.load (z.reg rsp) 8) ((z.goto q).setReg rsp (z.reg rsp + 8))) := by
    cases hret.placed decodes_ret.encodes hsize with
    | instr hq hdecode _ => exact ⟨_, (step_of_decode hq hdecode).trans (exec_ret callee _)⟩
  have hregs : ∀ r, r ≠ rsp → ((z.goto q).setReg rsp (z.reg rsp + 8)).reg r = z.reg r :=
    fun _ hr => setReg_of_ne hr
  obtain ⟨n, hn⟩ := hreach
  refine ⟨n + 1, (z.goto q).setReg rsp (z.reg rsp + 8), ?_,
    ⟨(hregs rax (by decide)).trans (hrax), ?_, fun r hr => ?_, fun b hb => ?_, ?_⟩⟩
  · rw [run_add hn, run_one, ← hword]
    exact hstep
  · rw [hsp, ← hzsp]
    exact setReg_self
  · have hback : savedRegs.map z.reg = savedRegs.map x₀.reg := by
      rw [List.map_reverse] at hmap
      exact List.reverse_injective hmap
    have hne : ∀ r ∈ savedRegs, r ≠ rsp := by decide
    exact (hregs r (hne r hr)).trans (List.map_inj_left.mp hback r hr)
  · show z.mem b = s.mem b
    rw [hmem]
    exact h.mem b hb
  · show view s.calls z.world
    rw [hworld]
    exact h.world

/-! ### Runs -/

/-- The interpreter without a bounds check, with the registers whose values compiled code knows, and with the
state in which a run ends. -/
def knownStep (registered : BitVec 32 → Bool) (ext : List Call → Call → Mem → BitVec 64 × Mem)
    (insts : List EbpfInst) (t : List (Fin 16) × State) : Result (List (Fin 16) × State) (State × Halt) :=
  match Ubpf.step (Host.jit registered ext) insts t.2 with
  | .next s => .next ((insts[t.2.pc]?.map fun inst => liveAfter inst t.1).getD t.1, s)
  | .halt o => .halt (t.2, o)

def PortableAt (f : Frame) (registered : BitVec 32 → Bool) (arity : BitVec 32 → ℕ) (insts : List EbpfInst)
    (t : List (Fin 16) × State) : Prop :=
  ∃ inst, insts[t.2.pc]? = some inst ∧ Portable f registered arity t.1 t.2 inst

/-- The interpreter runs in the same way with the additional data. -/
theorem knownStep_run {n : ℕ} {o : Halt} : ∀ (live : List (Fin 16)) {s : State},
    run (Ubpf.step (Host.jit registered ext) insts) n s = .halt o →
      ∃ s', run (knownStep registered ext insts) n (live, s) = .halt (s', o) ∧
        Reaches (Ubpf.step (Host.jit registered ext) insts) s s' ∧
        Ubpf.step (Host.jit registered ext) insts s' = .halt o := by
  induction n with
  | zero =>
    intro live s h
    cases h
  | succ n ih =>
    intro live s h
    cases hstep : Ubpf.step (Host.jit registered ext) insts s with
    | next s₁ =>
      rw [run_succ_of_next hstep] at h
      obtain ⟨s', hrun, hreach, hhalt⟩ :=
        ih ((insts[s.pc]?.map fun inst => liveAfter inst live).getD live) h
      refine ⟨s', ?_, .head hstep hreach, hhalt⟩
      have hknown : knownStep registered ext insts (live, s) =
          .next ((insts[s.pc]?.map fun inst => liveAfter inst live).getD live, s₁) := by
        rw [knownStep, hstep]
      rw [run_succ_of_next hknown]
      exact hrun
    | halt o' =>
      rw [run_succ_of_halt hstep] at h
      cases h
      have hknown : knownStep registered ext insts (live, s) = .halt (s, o) := by
        rw [knownStep, hstep]
      exact ⟨s, run_succ_of_halt hknown n, .refl s, hstep⟩

structure Between (f : Frame) (kept : X86.Memory) (view : List Call → ω → Prop) (insts : List EbpfInst)
    (state : JitState) (t : List (Fin 16) × State) (x : X86.State ω) : Prop where
  rel : Rel f kept view t.1 t.2 x
  begins : Begins insts t.2.pc
  rip : x.rip = state.behind insts t.2.pc

theorem Rel.goto {live : List (Fin 16)} {s : State} {x : X86.State ω} (h : Rel f kept view live s x) (p : ℕ) :
    Rel f kept view live s (x.goto p) :=
  ⟨h.live_lt, h.reg, h.rsp, h.mem, h.saved, h.world⟩

theorem next_place (hshape : Shape insts) {s s' : State} {inst : EbpfInst} {code : Code}
    (hb : Begins insts s.pc) (hget : insts[s.pc]? = some inst)
    (hcode : translateInst a.extFuncs insts.length s.pc inst insts[s.pc + 1]? = some code)
    (hbehind : (stateOf a chunks).behind insts (s.pc + inst.slots) =
    (stateOf a chunks).pcLocs s.pc + codeSize code)
    {h : Host} (hs : execInst h insts s inst = .next s') :
    Begins insts s'.pc ∧ (jumpOf s inst).elim ((stateOf a chunks).pcLocs s.pc + codeSize code)
      (stateOf a chunks).targetLoc = (stateOf a chunks).behind insts s'.pc := by
  have hlen := hshape.length_lt
  rw [maxInsts] at hlen
  obtain ⟨hlt, -⟩ := List.getElem?_eq_some_iff.mp hget
  have hfall : inst.taken s = false → s'.pc = s.pc + inst.slots →
      Begins insts s'.pc ∧ (jumpOf s inst).elim ((stateOf a chunks).pcLocs s.pc + codeSize code)
        (stateOf a chunks).targetLoc = (stateOf a chunks).behind insts s'.pc := by
    intro htaken hpc
    rw [jumpOf, htaken, if_neg Bool.false_ne_true, hpc]
    exact ⟨hb.next hget, hbehind.symm⟩
  rcases execInst_pc hs with ⟨hj, htaken, hpc⟩ | ⟨hl, hpc⟩ | ⟨hl, -, htaken, hpc⟩
  · obtain ⟨t, ht, htlt, htb⟩ := hshape.target s.pc inst hb hget hj
    have hpc' : s'.pc = t := by
      rw [hpc, incPc_of_lt (by omega), jumpPc_eq (t := t) (by omega) (by omega)]
    have htarget : BitVec.ofInt 32 (s.pc + inst.offset.toInt + 1) = BitVec.ofNat 32 t := by
      rw [show (s.pc : ℤ) + inst.offset.toInt + 1 = (t : ℤ) by omega]
      exact BitVec.ofInt_natCast 32 t
    rw [jumpOf, if_pos htaken, hpc', htarget]
    exact ⟨htb, targetLoc_of_lt hshape.length_lt htlt⟩
  · have hnext : s.pc + 1 < insts.length := by
      by_contra hge
      rw [List.getElem?_eq_none (by omega), translateInst, hl] at hcode
      split at hcode <;> cases hcode
    refine hfall (by rw [EbpfInst.taken, hl]) ?_
    rw [hpc, EbpfInst.slots, if_pos hl, incPc_of_lt (by omega : s.pc + 1 < 65536), incPc_of_lt (by omega)]
  · refine hfall htaken ?_
    rw [hpc, EbpfInst.slots, if_neg hl, incPc_of_lt (by omega)]

/-- The ends of the two runs: the compiled code returns to where it was called from, with the value. -/
def EndsAlike (f : Frame) (view : List Call → ω → Prop) (x₀ : X86.State ω) (so : State × Halt)
    (out : Outcome ω) : Prop :=
  ∃ r0 z, so.2 = .exit r0 ∧ out = .returned (x₀.mem.load (x₀.reg rsp) 8) z ∧ Returned f view so.1 r0 x₀ z

/-- **One instruction**: to the next one, or to the caller. -/
theorem simulates (hshape : Shape insts) (hloop : translateLoop a.extFuncs insts.length 0 insts = some chunks)
    (hsize : codeSize (stateOf a chunks).buf ≤ bufferSize) (hlink : Linked a registered ext callee f arity view)
    {x₀ : X86.State ω} (hsp : x₀.reg rsp = f.top + 48) (hkept : Holds kept f.top (savedWords x₀))
    (t : List (Fin 16) × State) (x : X86.State ω) (hR : Between f kept view insts (stateOf a chunks) t x)
    (hC : PortableAt f registered arity insts t ∧
      ∀ o, Ubpf.step (Host.jit registered ext) insts t.2 = .halt o → ∃ r0, o = .exit r0) :
    ∃ k, Result.Rel (Between f kept view insts (stateOf a chunks)) (EndsAlike f view x₀)
      (knownStep registered ext insts t) (run (X86.step callee (bytesOf a chunks)) k x) := by
  obtain ⟨⟨inst, hget, hport⟩, hexits⟩ := hC
  obtain ⟨hlt, -⟩ := List.getElem?_eq_some_iff.mp hget
  have hlen := hshape.length_lt
  rw [maxInsts] at hlen
  obtain ⟨code, hcode, hat, hbehind⟩ := chunk_at hloop hR.begins hget
  have hrip : x.rip = (stateOf a chunks).pcLocs t.2.pc := by
    rw [hR.rip, JitState.behind, if_pos hlt]
  have hcode' : translateInst a.extFuncs insts.length t.2.pc inst insts[incPc t.2.pc]? = some code := by
    rw [incPc_of_lt (by omega)]
    exact hcode
  have hstep : Ubpf.step (Host.jit registered ext) insts t.2 =
      execInst (Host.jit registered ext) insts t.2 inst := step_of_fetch hget
  cases hs : execInst (Host.jit registered ext) insts t.2 inst with
  | next s' =>
    obtain ⟨x', hrun, hrel⟩ := step_next hlink hcode' hR.rel hport hs
    obtain ⟨hbegins, hplace⟩ := next_place hshape hR.begins hget hcode hbehind hs
    obtain ⟨k, hk⟩ := hrun.reaches hat hsize hrip
    refine ⟨k, ?_⟩
    rw [hk, hplace, knownStep, hstep, hs, hget]
    exact .next ⟨hrel.goto _, hbegins, rfl⟩
  | halt o =>
    obtain ⟨r0, rfl⟩ := hexits o (hstep.trans hs)
    obtain ⟨hexit, hr0, hrun⟩ := step_exit callee hcode' hR.rel hport.known hs
    obtain ⟨m, hm⟩ := hrun.reaches hat hsize hrip
    -- the last instruction falls through to the epilogue
    have hplace : (if t.2.pc ≠ insts.length - 1 then some targetPcExit else none).elim
        ((stateOf a chunks).pcLocs t.2.pc + codeSize code) (stateOf a chunks).targetLoc =
          (stateOf a chunks).exitLoc := by
      split
      · rfl
      · rename_i hlast
        have hslots : inst.slots = 1 := by
          rw [EbpfInst.slots, if_neg (by rw [hexit]; exact fun h => Opcode.noConfusion h)]
        rw [hslots] at hbehind
        show (stateOf a chunks).pcLocs t.2.pc + codeSize code = (stateOf a chunks).exitLoc
        rw [← hbehind, JitState.behind, if_neg (by omega)]
    rw [hplace] at hm
    obtain ⟨n, z, hreturn, hz⟩ := epilogue_returns callee hsize (hR.rel.goto (stateOf a chunks).exitLoc) rfl
      hsp hkept
    refine ⟨m + n, ?_⟩
    rw [run_add hm, hreturn, knownStep, hstep, hs]
    exact .halt ⟨r0, z, rfl, rfl, hr0 ▸ hz⟩

/-- **Compiled code does what the interpreter does.**  It is what `ubpf_compile` makes of a program whose
jumps lead to instructions, and it is entered as a function with the context as its argument; where the run of
the interpreter comes to `EBPF_OP_EXIT` and every instruction of it is portable, the code returns to its
caller, with the same value, with the same memory but for its own stack, after the same calls, and with the
registers of the caller as they were. -/
theorem compiled_run {vm : UbpfVm} (hinsts : vm.insts = some insts) (hnum : vm.numInsts = insts.length)
    (hshape : Shape insts) {code : List Byte} (hcompile : ubpfCompile a vm = some code)
    (hlink : Linked a registered ext callee f arity view) {s₀ : State} {x₀ : X86.State ω} (hpc : s₀.pc = 0)
    (hrip : x₀.rip = 0) (hsp : x₀.reg rsp = f.top + 48) (hctx : x₀.reg rdi = s₀.reg 1)
    (hstack : s₀.reg 10 = f.top) (hmem : ∀ b, ¬f.Private b → x₀.mem b = s₀.mem b)
    (hview : view s₀.calls x₀.world) {n : ℕ} {r0 : BitVec 64}
    (hrun : run (Ubpf.step (Host.jit registered ext) insts) n s₀ = .halt (.exit r0))
    (hport : ∀ k < n, ∀ t, run (knownStep registered ext insts) k ([1, 10], s₀) = .next t →
      PortableAt f registered arity insts t) :
    ∃ s m z, Reaches (Ubpf.step (Host.jit registered ext) insts) s₀ s ∧
      Ubpf.step (Host.jit registered ext) insts s = .halt (.exit r0) ∧
      run (X86.step callee code) m x₀ = .halt (.returned (x₀.mem.load (x₀.reg rsp) 8) z) ∧
      Returned f view s r0 x₀ z := by
  rw [ubpfCompile, hinsts, Option.bind_some, hnum, List.take_length] at hcompile
  obtain ⟨state, htranslate, hcode⟩ := Option.bind_eq_some_iff.mp hcompile
  obtain ⟨chunks, hloop, rfl⟩ := translate_eq_some htranslate
  have hsize : codeSize (stateOf a chunks).buf ≤ bufferSize := by
    by_contra hge
    rw [if_neg hge] at hcode
    cases hcode
  rw [if_pos hsize] at hcode
  obtain rfl : bytesOf a chunks = code := Option.some.inj hcode
  have hpos : 0 < n := by
    rcases Nat.eq_zero_or_pos n with rfl | hpos
    · cases hrun
    · exact hpos
  obtain ⟨first, hfirst, -⟩ := hport 0 hpos ([1, 10], s₀) rfl
  have hfirst' : insts[0]? = some first := hpc ▸ hfirst
  -- the first instruction stands behind the prologue
  have hplace : (stateOf a chunks).behind insts 0 = 0 + codeSize prologue := by
    obtain ⟨hlt, -⟩ := List.getElem?_eq_some_iff.mp hfirst'
    obtain ⟨c, rest, rfl, -, -⟩ := translateLoop_cons (i := 0) hloop hfirst'
    have hself : pcLocsFrom (codeSize prologue) ((0, c) :: rest) 0 = codeSize prologue := if_pos rfl
    rw [JitState.behind, if_pos hlt, Nat.zero_add]
    exact hself
  obtain ⟨y, hprologue, hbase, hrbp, hrdi, hworld, hymem, hkept⟩ := prologue_runsTo x₀ hsp
  obtain ⟨m₀, hm₀⟩ := hprologue.reaches at_prologue hsize hrip
  have hstart : Between f y.mem view insts (stateOf a chunks) ([1, 10], s₀)
      (y.goto (0 + codeSize prologue)) := by
    have hlt : ∀ r ∈ ([1, 10] : List (Fin 16)), r.val < registerMapSize := by decide
    refine ⟨⟨hlt, fun r hr => ?_, hbase, fun b hb => (hymem b hb).trans (hmem b hb), fun _ _ => rfl, ?_⟩,
      ?_, ?_⟩
    · rcases List.mem_cons.mp hr with rfl | hr
      · exact hrdi.trans hctx
      · rw [List.mem_singleton.mp hr]
        exact hrbp.trans hstack.symm
    · show view s₀.calls y.world
      rw [hworld]
      exact hview
    · show Begins insts s₀.pc
      rw [hpc]
      exact .zero
    · show 0 + codeSize prologue = (stateOf a chunks).behind insts s₀.pc
      rw [hpc, hplace]
  obtain ⟨s, hknown, hreach, hhalt⟩ := knownStep_run [1, 10] hrun
  -- an instruction that ends the run is the one at its end
  have hexits : ∀ k < n, ∀ t, run (knownStep registered ext insts) k ([1, 10], s₀) = .next t →
      PortableAt f registered arity insts t ∧
        ∀ o, Ubpf.step (Host.jit registered ext) insts t.2 = .halt o → ∃ r0, o = .exit r0 := by
    intro k hk t ht
    refine ⟨hport k hk t ht, fun o ho => ⟨r0, ?_⟩⟩
    have hstop : knownStep registered ext insts t = .halt (t.2, o) := by
      rw [knownStep, ho]
    have hend : run (knownStep registered ext insts) (k + 1) ([1, 10], s₀) = .halt (t.2, o) := by
      rw [run_add ht, run_one, hstop]
    have heq := (run_halt_of_le hend hk).symm.trans hknown
    cases heq
    rfl
  obtain ⟨m, hm⟩ := forward_simulation (simulates hshape hloop hsize hlink hsp hkept) n ([1, 10], s₀) _
    hstart hexits
  rw [hknown] at hm
  cases hz : run (X86.step callee (bytesOf a chunks)) m (y.goto (0 + codeSize prologue)) with
  | next z =>
    rw [hz] at hm
    cases hm
  | halt z =>
    rw [hz] at hm
    cases hm with
    | halt hQ =>
      obtain ⟨r1, z', hr, rfl, hret⟩ := hQ
      cases hr
      refine ⟨s, m₀ + m, z', hreach, hhalt, ?_, hret⟩
      rw [run_add hm₀]
      exact hz

/-- `call 1; add r0, 7; exit`. -/
def callThenAdd : List EbpfInst :=
  [{ opcode := .call, imm := 1 }, { opcode := .alu .w64 .add .imm, imm := 7 }, { opcode := .exit }]

def smallVm : UbpfVm := { ubpfCreate with extFuncs := fun _ => some "f" }

def smallAddresses : Addresses := ⟨fun _ => 0x1000, 0x2000, 0x3000, 0x4000⟩

/-- External functions that return zero, and count their calls. -/
def countingCallee : Callee ℕ := fun _ reg m calls => (Function.update reg rax 0, m, calls + 1)

def smallFrame : Frame := ⟨0x10000, 256, by decide, by decide⟩

def smallStart : State := ⟨0, fun r => if r = 10 then smallFrame.top else 0, fun _ => 0, []⟩

def smallEntry : X86.State ℕ := ⟨fun r => if r = rsp then smallFrame.top + 48 else 0, fun _ => 0, none, 0, 0⟩

theorem linked_counting : Linked smallAddresses (fun _ => true) (fun _ _ mem => (0, mem)) countingCallee
    smallFrame (fun _ => 0) (fun calls count => count = calls.length) where
  call calls c mem reg m w _ hview _ _ hmem := by
    have hne : ∀ q ∈ [rbx, rsp, rbp, r12, r13, r14, r15], q ≠ rax := by decide
    have hrax : Function.update reg rax 0 rax = 0 := Function.update_self _ _ _
    refine ⟨hrax, ⟨fun q hq => Function.update_of_ne (hne q hq) _ _, fun _ _ => rfl, fun _ _ => rfl⟩, hmem, ?_⟩
    rw [List.length_append, ← hview]
    rfl

theorem compiled_run_callThenAdd : ∃ code m z,
    ubpfCompile smallAddresses (storeCode smallVm callThenAdd [] 0 0) = some code ∧
      run (X86.step countingCallee code) m smallEntry = .halt (.returned 0 z) ∧ z.reg rax = 7 ∧
        z.world = 1 := by
  have hsome : (ubpfCompile smallAddresses (storeCode smallVm callThenAdd [] 0 0)).isSome = true := by
    decide +kernel
  obtain ⟨code, hcode⟩ := Option.isSome_iff_exists.mp hsome
  have hv : validate smallVm callThenAdd = .ok [] := by decide
  have hseven : run (Ubpf.step (Host.jit (fun _ => true) fun _ _ mem => (0, mem)) callThenAdd) 3 smallStart =
      .halt (.exit 7) := rfl
  have hport : ∀ k < 3, ∀ t, run (knownStep (fun _ => true) (fun _ _ mem => (0, mem)) callThenAdd) k
      ([1, 10], smallStart) = .next t → PortableAt smallFrame (fun _ => true) (fun _ => 0) callThenAdd t := by
    intro k hk t ht
    rcases (by omega : k = 0 ∨ k = 1 ∨ k = 2) with rfl | rfl | rfl
    · cases ht
      exact ⟨_, rfl, ⟨by decide, by simp, by simp, by simp, by simp [EbpfInst.access?], fun _ => rfl⟩⟩
    · cases ht
      refine ⟨_, rfl, ⟨by decide, fun wd op k h => ?_, by simp, by simp, by simp [EbpfInst.access?], by simp⟩⟩
      cases h
      exact ⟨by simp, by simp, by simp, by simp⟩
    · cases ht
      exact ⟨_, rfl, ⟨by decide, by simp, by simp, by simp, by simp [EbpfInst.access?], by simp⟩⟩
  obtain ⟨s, m, z, hreach, hhalt, hrun, hret⟩ := compiled_run
    (show (storeCode smallVm callThenAdd [] 0 0).insts = some callThenAdd from rfl) rfl (validate_spec hv).shape
    hcode linked_counting (show smallStart.pc = 0 from rfl) (show smallEntry.rip = 0 from rfl) rfl rfl rfl
    (fun _ _ => rfl) rfl hseven hport
  have hcalls : s.calls.length = 1 := by
    obtain ⟨k, hk⟩ := hreach
    rcases (by omega : k = 0 ∨ k = 1 ∨ k = 2 ∨ 3 ≤ k) with rfl | rfl | rfl | hle
    · cases hk
      cases hhalt
    · cases hk
      cases hhalt
    · cases hk
      rfl
    · rw [run_halt_of_le hseven hle] at hk
      cases hk
  exact ⟨code, m, z, hcode, hrun, hret.rax, hret.world.trans hcalls⟩

end TorEbpf.Ubpf.Jit
