import TorEbpf.Ubpf.JitDecode
import TorEbpf.Ubpf.Shape

/-!
# Where everything is in compiled code

`translate` walks over the instructions and appends the code of each; an instruction begins where this
walk stops.

* `chunk_at` — the code of an instruction stands at its place, and the next one behind it;
* `targetLoc_of_lt` — a jump to an instruction leads to its code;
* `At.placed` — a part of the buffer stands in the compiled code as its items.
-/

namespace TorEbpf.Ubpf.Jit

open TorEbpf.Lib
open TorEbpf.Lib.X86 (Item Placed)

variable {a : Addresses} {insts : List EbpfInst} {state : JitState}

/-! ### The loop -/

theorem translateLoop_cons {extFuncs : BitVec 32 → X86.Word} {n i : ℕ} {inst : EbpfInst}
    {chunks : List (ℕ × Code)} (h : translateLoop extFuncs n i (insts.drop i) = some chunks)
    (hget : insts[i]? = some inst) : ∃ code rest, chunks = (i, code) :: rest ∧
      translateInst extFuncs n i inst insts[i + 1]? = some code ∧
      translateLoop extFuncs n (i + inst.slots) (insts.drop (i + inst.slots)) = some rest := by
  obtain ⟨hi, rfl⟩ := List.getElem?_eq_some_iff.mp hget
  rw [List.drop_eq_getElem_cons hi, translateLoop, List.head?_drop] at h
  cases hcode : translateInst extFuncs n i insts[i] insts[i + 1]? with
  | none => simp [hcode] at h
  | some code =>
    simp only [hcode] at h
    by_cases hl : insts[i].opcode = .lddw
    · have hnext : i + 1 < insts.length := by
        by_contra hlt
        rw [List.getElem?_eq_none (by omega), translateInst, hl] at hcode
        split at hcode <;> cases hcode
      rw [List.drop_eq_getElem_cons hnext] at h
      simp only [hl, Option.map_eq_some_iff] at h
      obtain ⟨rest, hrest, rfl⟩ := h
      exact ⟨code, rest, rfl, rfl, by rwa [EbpfInst.slots, if_pos hl]⟩
    · have hsingle : (translateLoop extFuncs n (i + 1) (insts.drop (i + 1))).map ((i, code) :: ·) =
          some chunks := by
        rw [← h]
        split
        · rename_i hl' _
          exact absurd hl' hl
        · rfl
      obtain ⟨rest, hrest, rfl⟩ := Option.map_eq_some_iff.mp hsingle
      exact ⟨code, rest, rfl, rfl, by rwa [EbpfInst.slots, if_neg hl]⟩

theorem chunks_of_begins {extFuncs : BitVec 32 → X86.Word} {n : ℕ} {chunks : List (ℕ × Code)}
    (h : translateLoop extFuncs n 0 insts = some chunks) {i : ℕ} (hb : Begins insts i) :
    ∃ before rest, chunks = before ++ rest ∧ (∀ c ∈ before, c.1 < i) ∧
      translateLoop extFuncs n i (insts.drop i) = some rest := by
  induction hb with
  | zero => exact ⟨[], chunks, rfl, fun c hc => absurd hc List.not_mem_nil, h⟩
  | next hb hget ih =>
    rename_i i inst
    obtain ⟨before, rest, rfl, hlt, hrest⟩ := ih
    obtain ⟨code, rest', rfl, -, hrest'⟩ := translateLoop_cons hrest hget
    have hslots : i < i + inst.slots := by
      rw [EbpfInst.slots]
      split <;> omega
    refine ⟨before ++ [(i, code)], rest', by rw [List.append_assoc]; rfl, fun c hc => ?_, hrest'⟩
    rcases List.mem_append.mp hc with hc | hc
    · exact (hlt c hc).trans hslots
    · rw [List.mem_singleton.mp hc]
      exact hslots

theorem pcLocsFrom_append (offset : ℕ) (before rest : List (ℕ × Code)) {i : ℕ} (hlt : ∀ c ∈ before, c.1 < i) :
    pcLocsFrom offset (before ++ rest) i = pcLocsFrom (offset + codeSize (before.flatMap (·.2))) rest i := by
  induction before generalizing offset with
  | nil => rfl
  | cons c before ih =>
    have hne : i ≠ c.1 := (hlt c List.mem_cons_self).ne'
    rw [List.cons_append, pcLocsFrom, if_neg hne, ih _ fun d hd => hlt d (List.mem_cons_of_mem c hd),
      List.flatMap_cons, codeSize_append, Nat.add_assoc]

theorem pcLocsFrom_le (offset : ℕ) (chunks : List (ℕ × Code)) (i : ℕ) :
    pcLocsFrom offset chunks i ≤ offset + codeSize (chunks.flatMap (·.2)) := by
  induction chunks generalizing offset with
  | nil => exact Nat.zero_le _
  | cons c chunks ih =>
    rw [pcLocsFrom, List.flatMap_cons, codeSize_append]
    split
    · omega
    · have := ih (offset + codeSize c.2)
      omega

/-! ### The buffer -/

/-- A part of the buffer is at a place. -/
def At (state : JitState) (c : Code) (p : ℕ) : Prop :=
  ∃ before behind, state.buf = before ++ c ++ behind ∧ codeSize before = p

variable {chunks : List (ℕ × Code)}

/-- What `translate` leaves, by the chunks of its loop. -/
def stateOf (a : Addresses) (chunks : List (ℕ × Code)) : JitState :=
  let body := chunks.flatMap (·.2)
  { buf := prologue ++ body ++ epilogue ++ divByZeroHandler a.stderr a.divByZeroFmt a.fprintf
    pcLocs := pcLocsFrom (codeSize prologue) chunks
    exitLoc := codeSize prologue + codeSize body
    divByZeroLoc := codeSize prologue + codeSize body + codeSize epilogue }

theorem translate_eq_some (h : translate a insts = some state) : ∃ chunks,
    translateLoop a.extFuncs insts.length 0 insts = some chunks ∧ state = stateOf a chunks := by
  obtain ⟨chunks, hchunks, hstate⟩ := Option.map_eq_some_iff.mp h
  exact ⟨chunks, hchunks, hstate.symm⟩

theorem at_prologue : At (stateOf a chunks) prologue 0 :=
  ⟨[], chunks.flatMap (·.2) ++ epilogue ++ divByZeroHandler a.stderr a.divByZeroFmt a.fprintf,
    by simp only [stateOf, List.nil_append, List.append_assoc], rfl⟩

theorem at_epilogue : At (stateOf a chunks) epilogue (stateOf a chunks).exitLoc :=
  ⟨prologue ++ chunks.flatMap (·.2), divByZeroHandler a.stderr a.divByZeroFmt a.fprintf, rfl,
    codeSize_append _ _⟩

theorem targetLoc_le (t : BitVec 32) : (stateOf a chunks).targetLoc t ≤ codeSize (stateOf a chunks).buf := by
  have hlocs := pcLocsFrom_le (codeSize prologue) chunks t.toNat
  have hbuf : codeSize (stateOf a chunks).buf = codeSize prologue + codeSize (chunks.flatMap (·.2)) +
      codeSize epilogue + codeSize (divByZeroHandler a.stderr a.divByZeroFmt a.fprintf) := by
    rw [← codeSize_append, ← codeSize_append, ← codeSize_append]
    rfl
  rw [hbuf, JitState.targetLoc]
  split_ifs
  · exact Nat.le_add_right_of_le (Nat.le_add_right _ _)
  · exact Nat.le_add_right _ _
  · exact hlocs.trans (Nat.le_add_right_of_le (Nat.le_add_right _ _))

/-- The place behind an instruction: the next one, or the epilogue. -/
def JitState.behind (state : JitState) (insts : List EbpfInst) (i : ℕ) : ℕ :=
  if i < insts.length then state.pcLocs i else state.exitLoc

/-- **The code of an instruction** stands at its place, and what comes next behind it. -/
theorem chunk_at (h : translateLoop a.extFuncs insts.length 0 insts = some chunks) {i : ℕ} {inst : EbpfInst}
    (hb : Begins insts i) (hget : insts[i]? = some inst) : ∃ code,
      translateInst a.extFuncs insts.length i inst insts[i + 1]? = some code ∧
      At (stateOf a chunks) code ((stateOf a chunks).pcLocs i) ∧
      (stateOf a chunks).behind insts (i + inst.slots) = (stateOf a chunks).pcLocs i + codeSize code := by
  obtain ⟨before, rest, rfl, hlt, hrest⟩ := chunks_of_begins h hb
  obtain ⟨code, rest', rfl, hcode, hrest'⟩ := translateLoop_cons hrest hget
  have hloc : (stateOf a (before ++ (i, code) :: rest')).pcLocs i =
      codeSize prologue + codeSize (before.flatMap (·.2)) := by
    have hself : ∀ offset, pcLocsFrom offset ((i, code) :: rest') i = offset := fun _ => if_pos rfl
    exact (pcLocsFrom_append _ _ _ hlt).trans (hself _)
  have hbody : (before ++ (i, code) :: rest').flatMap (·.2) =
      before.flatMap (·.2) ++ code ++ rest'.flatMap (·.2) := by
    rw [List.flatMap_append, List.flatMap_cons, List.append_assoc]
  refine ⟨code, hcode, ⟨prologue ++ before.flatMap (·.2), rest'.flatMap (·.2) ++ epilogue ++
    divByZeroHandler a.stderr a.divByZeroFmt a.fprintf, ?_, ?_⟩, ?_⟩
  · rw [stateOf, hbody]
    simp only [List.append_assoc]
  · rw [hloc, codeSize_append]
  · have hslots : i < i + inst.slots := by
      rw [EbpfInst.slots]
      split <;> omega
    have hlt' : ∀ c ∈ before ++ [(i, code)], c.1 < i + inst.slots := fun c hc => by
      rcases List.mem_append.mp hc with hc | hc
      · exact (hlt c hc).trans hslots
      · rw [List.mem_singleton.mp hc]
        exact hslots
    rw [hloc, JitState.behind]
    split
    · rename_i hnext
      obtain ⟨code', rest'', rfl, -, -⟩ := translateLoop_cons hrest' (List.getElem?_eq_getElem hnext)
      have hsplit : before ++ (i, code) :: (i + inst.slots, code') :: rest'' =
          (before ++ [(i, code)]) ++ (i + inst.slots, code') :: rest'' := by rw [List.append_assoc]; rfl
      have hself : ∀ offset, pcLocsFrom offset ((i + inst.slots, code') :: rest'') (i + inst.slots) = offset :=
        fun _ => if_pos rfl
      rw [hsplit]
      refine (pcLocsFrom_append _ _ _ hlt').trans ?_
      rw [hself, List.flatMap_append, codeSize_append, ← Nat.add_assoc, List.flatMap_singleton]
    · rename_i hend
      rw [List.drop_eq_nil_of_le (by omega)] at hrest'
      obtain rfl : rest' = [] := (Option.some.inj hrest').symm
      have hexit : (stateOf a (before ++ [(i, code)])).exitLoc =
          codeSize prologue + codeSize ((before ++ [(i, code)]).flatMap (·.2)) := rfl
      rw [hexit, List.flatMap_append, codeSize_append, ← Nat.add_assoc, List.flatMap_singleton]

theorem targetLoc_of_lt (hlen : insts.length < maxInsts) {t : ℕ} (ht : t < insts.length) :
    state.targetLoc (BitVec.ofNat 32 t) = state.behind insts t := by
  have htoNat : (BitVec.ofNat 32 t).toNat = t := by
    rw [BitVec.toNat_ofNat, Nat.mod_eq_of_lt]
    rw [maxInsts] at hlen
    omega
  have hne : ∀ x : BitVec 32, maxInsts ≤ x.toNat → BitVec.ofNat 32 t ≠ x := by
    rintro x hx rfl
    rw [htoNat] at hx
    omega
  rw [JitState.targetLoc, if_neg (hne _ (by decide)), if_neg (hne _ (by decide)), htoNat, JitState.behind,
    if_pos ht]

/-- **Parts of the buffer** stand in the compiled code as their items. -/
theorem At.placed {c : Code} {p : ℕ} (h : At (stateOf a chunks) c p) {items : List (Item (BitVec 32))}
    (hitems : Encodes c items) (hsize : codeSize (stateOf a chunks).buf ≤ bufferSize) :
    Placed (resolveJumps (stateOf a chunks) 0 (stateOf a chunks).buf) (stateOf a chunks).targetLoc p items
      (p + codeSize c) := by
  obtain ⟨before, behind, hbuf, rfl⟩ := h
  set total := resolveJumps (stateOf a chunks) 0 (stateOf a chunks).buf with htotal
  have hlen : total.length = codeSize (stateOf a chunks).buf := length_resolveJumps _ _
  have hle : codeSize before ≤ total.length := by
    rw [hlen, hbuf, codeSize_append, codeSize_append]
    omega
  have hdrop : total.drop (codeSize before) = resolveJumps (stateOf a chunks) (codeSize before) c ++
      resolveJumps (stateOf a chunks) (codeSize before + codeSize c) behind := by
    have hbefore : (resolveJumps (stateOf a chunks) 0 before).length = codeSize before :=
      length_resolveJumps _ _
    rw [htotal, hbuf, List.append_assoc, resolveJumps_append, resolveJumps_append, Nat.zero_add, ← hbefore,
      List.drop_left]
  exact hitems.placed (hlen.trans_le hsize) (fun t => (targetLoc_le t).trans hsize) hle hdrop

end TorEbpf.Ubpf.Jit
