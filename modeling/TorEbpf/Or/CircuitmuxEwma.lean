import Mathlib.Data.List.Basic
import TorEbpf.Container.Pqueue
import TorEbpf.Lib.Decay
import TorEbpf.Lib.Events

/-!
# The EWMA policy of a circuit multiplexer

Every circuit has a count of the cells that were sent on it, which loses a factor at every tick.  The active
circuits are in a priority queue by their counts, all at the scale of one tick; the count of an inactive
circuit stays at the scale it had.  Counts are rational numbers here, and ticks wrap around.

* `scaleActiveCircuits_ok` — rescaling the active circuits keeps the queue in order;
* `ewmaInv_step` — what every call keeps;
* `ewma_ok_of_run` — the queue is a heap at one scale along every run whose removals leave one, and the
  circuit that is picked has the least decayed count.
-/

namespace TorEbpf.Or.Ewma

open TorEbpf.Container TorEbpf.Lib

/-! ### The code -/

/-- `cell_ewma_t`; its index is in the queue. -/
structure CellEwma where
  lastAdjustedTick : BitVec 32
  cellCount : ℚ
  deriving DecidableEq

/-- `ewma_policy_data_t`, with the data of the circuits and which circuits have some. -/
structure EwmaPolicyData (κ : Type) where
  activeCircuitPqueue : Pqueue κ
  activeCircuitPqueueLastRecalibrated : BitVec 32
  cellEwma : κ → CellEwma
  allocated : List κ

variable {κ : Type} [DecidableEq κ]

/-- `get_scale_factor`; the difference of the ticks is an `int`. -/
def getScaleFactor (ewmaScaleFactor : ℚ) (fromTick toTick : BitVec 32) : ℚ :=
  ewmaScaleFactor ^ (toTick - fromTick).toInt

def scaleSingleCellEwma (F : ℚ) (ewma : CellEwma) (curTick : BitVec 32) : CellEwma where
  lastAdjustedTick := curTick
  cellCount := ewma.cellCount * getScaleFactor F ewma.lastAdjustedTick curTick

def compareCellEwmaCounts (cellEwma : κ → CellEwma) (e₁ e₂ : κ) : ℤ :=
  if (cellEwma e₁).cellCount < (cellEwma e₂).cellCount then -1
  else if (cellEwma e₂).cellCount < (cellEwma e₁).cellCount then 1
  else 0

/-- The loop of `scale_active_circuits`; `none` is its assertion. -/
def scaleActiveLoop (factor : ℚ) (lastRecalibrated curTick : BitVec 32) :
    List κ → (κ → CellEwma) → Option (κ → CellEwma)
  | [], cellEwma => some cellEwma
  | e :: l, cellEwma =>
    if (cellEwma e).lastAdjustedTick = lastRecalibrated then
      scaleActiveLoop factor lastRecalibrated curTick l
        (Function.update cellEwma e ⟨curTick, (cellEwma e).cellCount * factor⟩)
    else none

def scaleActiveCircuits (F : ℚ) (pol : EwmaPolicyData κ) (curTick : BitVec 32) :
    Option (EwmaPolicyData κ) :=
  let factor := getScaleFactor F pol.activeCircuitPqueueLastRecalibrated curTick
  match scaleActiveLoop factor pol.activeCircuitPqueueLastRecalibrated curTick
      pol.activeCircuitPqueue.list.toList pol.cellEwma with
  | none => none
  | some cellEwma => some { pol with cellEwma, activeCircuitPqueueLastRecalibrated := curTick }

/-- `add_cell_ewma`; `none` is one of the assertions. -/
def addCellEwma (F : ℚ) (pol : EwmaPolicyData κ) (ewma : κ) : Option (EwmaPolicyData κ) :=
  if pol.activeCircuitPqueue.idx ewma = -1 then
    let cellEwma := Function.update pol.cellEwma ewma
      (scaleSingleCellEwma F (pol.cellEwma ewma) pol.activeCircuitPqueueLastRecalibrated)
    match smartlistPqueueAdd (compareCellEwmaCounts cellEwma) pol.activeCircuitPqueue ewma with
    | none => none
    | some activeCircuitPqueue => some { pol with cellEwma, activeCircuitPqueue }
  else none

def removeCellEwma (pol : EwmaPolicyData κ) (ewma : κ) : Option (EwmaPolicyData κ) :=
  if pol.activeCircuitPqueue.idx ewma ≠ -1 then
    match smartlistPqueueRemove (compareCellEwmaCounts pol.cellEwma) pol.activeCircuitPqueue ewma with
    | none => none
    | some activeCircuitPqueue => some { pol with activeCircuitPqueue }
  else none

def popFirstCellEwma (pol : EwmaPolicyData κ) : Option (κ × EwmaPolicyData κ) :=
  match smartlistPqueuePop (compareCellEwmaCounts pol.cellEwma) pol.activeCircuitPqueue with
  | none => none
  | some (top, activeCircuitPqueue) => some (top, { pol with activeCircuitPqueue })

def ewmaAllocCmuxData (κ : Type) (tick : BitVec 32) : EwmaPolicyData κ where
  activeCircuitPqueue := Pqueue.empty
  activeCircuitPqueueLastRecalibrated := tick
  cellEwma := fun _ => ⟨0, 0⟩
  allocated := []

def ewmaAllocCircData (pol : EwmaPolicyData κ) (circ : κ) (tick : BitVec 32) : EwmaPolicyData κ :=
  { pol with
    activeCircuitPqueue := pol.activeCircuitPqueue.forget circ
    cellEwma := Function.update pol.cellEwma circ ⟨tick, 0⟩
    allocated := circ :: pol.allocated }

def ewmaNotifyCircActive (F : ℚ) (pol : EwmaPolicyData κ) (circ : κ) : Option (EwmaPolicyData κ) :=
  addCellEwma F pol circ

def ewmaNotifyCircInactive (pol : EwmaPolicyData κ) (circ : κ) : Option (EwmaPolicyData κ) :=
  removeCellEwma pol circ

/-- The rescaling of `ewma_notify_xmit_cells`. -/
def rescaleIfNeeded (F : ℚ) (pol : EwmaPolicyData κ) (tick : BitVec 32) : Option (EwmaPolicyData κ) :=
  if tick ≠ pol.activeCircuitPqueueLastRecalibrated then scaleActiveCircuits F pol tick else some pol

/-- `cell_ewma->cell_count += ewma_increment`. -/
def addIncrement (pol : EwmaPolicyData κ) (circ : κ) (ewmaIncrement : ℚ) : EwmaPolicyData κ :=
  { pol with
    cellEwma := Function.update pol.cellEwma circ
      { pol.cellEwma circ with cellCount := (pol.cellEwma circ).cellCount + ewmaIncrement } }

/-- `ewma_notify_xmit_cells` in a tick, for cells that count for some amount at its start; `none` is one of
the assertions. -/
def ewmaNotifyXmitCells (F : ℚ) (pol : EwmaPolicyData κ) (circ : κ) (tick : BitVec 32)
    (ewmaIncrement : ℚ) : Option (EwmaPolicyData κ) :=
  match rescaleIfNeeded F pol tick with
  | none => none
  | some pol =>
    match popFirstCellEwma (addIncrement pol circ ewmaIncrement) with
    | none => none
    | some (tmp, pol) => if tmp = circ then addCellEwma F pol circ else none

def ewmaPickActiveCircuit (pol : EwmaPolicyData κ) : Option κ := pol.activeCircuitPqueue.list[0]?

/-! ### Runs -/

/-- The calls, with the tick they are made in where they read it. -/
inductive EwmaEvent (κ : Type) where
  | alloc (circ : κ) (tick : ℤ)
  | active (circ : κ)
  | inactive (circ : κ)
  | xmit (circ : κ) (tick : ℤ) (increment : ℚ)

def tickNum (tick : ℤ) : BitVec 32 := BitVec.ofInt 32 tick

/-- A call; `none` if an assertion fails. -/
def EwmaEvent.apply (F : ℚ) (pol : EwmaPolicyData κ) : EwmaEvent κ → Option (EwmaPolicyData κ)
  | .alloc circ tick => some (ewmaAllocCircData pol circ (tickNum tick))
  | .active circ => ewmaNotifyCircActive F pol circ
  | .inactive circ => ewmaNotifyCircInactive pol circ
  | .xmit circ tick increment => ewmaNotifyXmitCells F pol circ (tickNum tick) increment

/-- What the callers see to: new data, inactive circuits with data, active circuits, and the circuit that
was just picked. -/
def Legal (pol : EwmaPolicyData κ) : EwmaEvent κ → Prop
  | .alloc circ _ => circ ∉ pol.allocated
  | .active circ => circ ∈ pol.allocated ∧ circ ∉ pol.activeCircuitPqueue.list
  | .inactive circ => circ ∈ pol.activeCircuitPqueue.list
  | .xmit circ _ increment => ewmaPickActiveCircuit pol = some circ ∧ 0 < increment

def EwmaEvent.ticks : EwmaEvent κ → List ℤ
  | .alloc _ tick => [tick]
  | .xmit _ tick _ => [tick]
  | .active _ | .inactive _ => []

/-- The queue has room for a circuit, and the last one can take the place of one that goes. -/
def Meets (pol : EwmaPolicyData κ) : EwmaEvent κ → Prop
  | .active _ => pol.activeCircuitPqueue.list.size < maxCapacity
  | .inactive circ =>
    Restores (compareCellEwmaCounts pol.cellEwma) pol.activeCircuitPqueue circ
  | .alloc _ _ | .xmit _ _ _ => True

def EwmaCall (F : ℚ) (ticks : Set ℤ) (pol : EwmaPolicyData κ) (e : EwmaEvent κ)
    (pol' : EwmaPolicyData κ) : Prop :=
  Legal pol e ∧ (∀ tick ∈ e.ticks, tick ∈ ticks) ∧ e.apply F pol = some pol'

/-- A call that finds room, or a circuit that can take the place. -/
def EwmaStep (F : ℚ) (ticks : Set ℤ) (pol : EwmaPolicyData κ) (e : EwmaEvent κ)
    (pol' : EwmaPolicyData κ) : Prop :=
  EwmaCall F ticks pol e pol' ∧ Meets pol e

/-- What a call sends on a circuit. -/
def EwmaEvent.sentOn (circ : κ) : EwmaEvent κ → List (ℤ × ℚ)
  | .xmit circ' tick increment => if circ' = circ then [(tick, increment)] else []
  | .alloc _ _ | .active _ | .inactive _ => []

def sentOn (events : List (EwmaEvent κ)) (circ : κ) : List (ℤ × ℚ) := events.flatMap (EwmaEvent.sentOn circ)

/-- Whether a circuit is active after a call. -/
def EwmaEvent.isActive (circ : κ) (active : Bool) : EwmaEvent κ → Bool
  | .active circ' => if circ' = circ then true else active
  | .inactive circ' => if circ' = circ then false else active
  | .alloc _ _ | .xmit _ _ _ => active

/-- Whether a circuit is active after some calls. -/
def isActive (events : List (EwmaEvent κ)) (circ : κ) : Bool :=
  events.foldl (EwmaEvent.isActive circ) false

/-- The ticks are less than `2 ^ 31` apart. -/
def Near (ticks : Set ℤ) : Prop := ∀ tick ∈ ticks, ∀ tick' ∈ ticks, |tick - tick'| < 2 ^ 31

/-! ### Ticks -/

theorem toInt_tickNum_sub {tick tick' : ℤ} (h : |tick - tick'| < 2 ^ 31) :
    (tickNum tick - tickNum tick').toInt = tick - tick' := by
  unfold tickNum
  rw [BitVec.toInt_sub, BitVec.toInt_ofInt, BitVec.toInt_ofInt, ← Int.sub_bmod]
  have hbounds := abs_lt.mp h
  exact Int.bmod_eq_of_le (by omega) (by omega)

theorem tickNum_inj {tick tick' : ℤ} (h : |tick - tick'| < 2 ^ 31) (he : tickNum tick = tickNum tick') :
    tick = tick' := by
  have hsub := toInt_tickNum_sub h
  rw [he, BitVec.sub_self, BitVec.toInt_zero] at hsub
  omega

theorem getScaleFactor_tickNum (F : ℚ) {tick tick' : ℤ} (h : |tick' - tick| < 2 ^ 31) :
    getScaleFactor F (tickNum tick) (tickNum tick') = F ^ (tick' - tick) := by
  unfold getScaleFactor
  rw [toInt_tickNum_sub h]

/-! ### Comparing counts -/

section Compare

variable {cellEwma cellEwma' : κ → CellEwma}

omit [DecidableEq κ] in
theorem compareCellEwmaCounts_le_zero_iff (e₁ e₂ : κ) :
    compareCellEwmaCounts cellEwma e₁ e₂ ≤ 0 ↔ (cellEwma e₁).cellCount ≤ (cellEwma e₂).cellCount := by
  unfold compareCellEwmaCounts
  split
  · rename_i hlt
    exact iff_of_true (by decide) hlt.le
  · split
    · rename_i hgt
      exact iff_of_false (by decide) (not_le.mpr hgt)
    · rename_i hgt
      exact iff_of_true le_rfl (not_lt.mp hgt)

omit [DecidableEq κ] in
theorem totalPreorder_compareCellEwmaCounts (cellEwma : κ → CellEwma) :
    TotalPreorder (compareCellEwmaCounts cellEwma) where
  swap := by
    intro e₁ e₂
    rw [← not_le, ← not_le, not_iff_not, compareCellEwmaCounts_le_zero_iff]
    unfold compareCellEwmaCounts
    split
    · rename_i hlt
      exact iff_of_false (by decide) (not_le.mpr hlt)
    · rename_i hlt
      split
      · exact iff_of_true (by decide) (not_lt.mp hlt)
      · exact iff_of_true le_rfl (not_lt.mp hlt)
  trans := by
    intro e₁ e₂ e₃ h₁₂ h₂₃
    rw [compareCellEwmaCounts_le_zero_iff] at h₁₂ h₂₃ ⊢
    exact h₁₂.trans h₂₃

omit [DecidableEq κ] in
theorem compareCellEwmaCounts_scale {factor : ℚ} (hfactor : 0 < factor) {e₁ e₂ : κ}
    (h₁ : (cellEwma' e₁).cellCount = (cellEwma e₁).cellCount * factor)
    (h₂ : (cellEwma' e₂).cellCount = (cellEwma e₂).cellCount * factor) :
    compareCellEwmaCounts cellEwma' e₁ e₂ = compareCellEwmaCounts cellEwma e₁ e₂ := by
  unfold compareCellEwmaCounts
  rw [h₁, h₂]
  simp only [mul_lt_mul_iff_left₀ hfactor]

theorem compareCellEwmaCounts_update {circ e₁ e₂ : κ} (h₁ : e₁ ≠ circ) (h₂ : e₂ ≠ circ) (ewma : CellEwma) :
    compareCellEwmaCounts (Function.update cellEwma circ ewma) e₁ e₂ =
      compareCellEwmaCounts cellEwma e₁ e₂ := by
  unfold compareCellEwmaCounts
  rw [Function.update_of_ne h₁, Function.update_of_ne h₂]

end Compare

/-! ### The history -/

theorem isActive_concat (events : List (EwmaEvent κ)) (e : EwmaEvent κ) (circ : κ) :
    isActive (events ++ [e]) circ = e.isActive circ (isActive events circ) := by
  unfold isActive
  rw [List.foldl_append]
  rfl

theorem sentOn_concat (events : List (EwmaEvent κ)) (e : EwmaEvent κ) (circ : κ) :
    sentOn (events ++ [e]) circ = sentOn events circ ++ e.sentOn circ := by
  unfold sentOn
  rw [List.flatMap_append, List.flatMap_singleton]

/-- The invariant of the policy after some calls. -/
structure EwmaInv (F : ℚ) (ticks : Set ℤ) (events : List (EwmaEvent κ)) (pol : EwmaPolicyData κ) : Prop where
  valid : pol.activeCircuitPqueue.Valid (compareCellEwmaCounts pol.cellEwma)
  active : ∀ circ, circ ∈ pol.activeCircuitPqueue.list ↔ isActive events circ = true
  allocated : ∀ circ ∈ pol.activeCircuitPqueue.list, circ ∈ pol.allocated
  unsent : ∀ circ, circ ∉ pol.allocated → sentOn events circ = []
  queued : ∀ circ ∈ pol.activeCircuitPqueue.list,
    (pol.cellEwma circ).lastAdjustedTick = pol.activeCircuitPqueueLastRecalibrated
  recalibrated : ∃ tick ∈ ticks, pol.activeCircuitPqueueLastRecalibrated = tickNum tick
  count : ∀ circ ∈ pol.allocated, ∃ tick ∈ ticks, (pol.cellEwma circ).lastAdjustedTick = tickNum tick ∧
    (pol.cellEwma circ).cellCount = decayed F (sentOn events circ) tick

section Steps

variable {F : ℚ} {ticks : Set ℤ} {events : List (EwmaEvent κ)} {pol pol' : EwmaPolicyData κ}

theorem ewmaInv_allocCmuxData {tick : ℤ} (htick : tick ∈ ticks) :
    EwmaInv F ticks [] (ewmaAllocCmuxData κ (tickNum tick)) where
  valid := valid_empty
  active := by
    intro circ
    exact iff_of_false (Array.not_mem_empty circ) Bool.false_ne_true
  allocated := fun circ h => absurd h (Array.not_mem_empty circ)
  unsent := fun _ _ => rfl
  queued := fun circ h => absurd h (Array.not_mem_empty circ)
  recalibrated := ⟨tick, htick, rfl⟩
  count := fun circ h => absurd h List.not_mem_nil

/-- The count of a queued circuit is at the scale of the queue. -/
theorem EwmaInv.count_queued (h : EwmaInv F ticks events pol) (hnear : Near ticks) {circ : κ}
    (hcirc : circ ∈ pol.activeCircuitPqueue.list) {tick : ℤ} (htick : tick ∈ ticks)
    (hrecal : pol.activeCircuitPqueueLastRecalibrated = tickNum tick) :
    (pol.cellEwma circ).cellCount = decayed F (sentOn events circ) tick := by
  obtain ⟨tick', htick', hlast, hcount⟩ := h.count circ (h.allocated circ hcirc)
  rw [h.queued circ hcirc, hrecal] at hlast
  rw [hcount, tickNum_inj (hnear tick htick tick' htick') hlast]

/-- **New data** of a circuit. -/
theorem ewmaInv_alloc (h : EwmaInv F ticks events pol) {circ : κ} {tick : ℤ}
    (hlegal : circ ∉ pol.allocated) (htick : tick ∈ ticks) :
    EwmaInv F ticks (events ++ [.alloc circ tick]) (ewmaAllocCircData pol circ (tickNum tick)) := by
  have hnot : circ ∉ pol.activeCircuitPqueue.list := fun hmem => hlegal (h.allocated circ hmem)
  have hforget : pol.activeCircuitPqueue.forget circ = pol.activeCircuitPqueue := by
    unfold Pqueue.forget
    rw [← h.valid.absent circ hnot, Function.update_eq_self]
  have hne : ∀ circ' ∈ pol.activeCircuitPqueue.list, circ' ≠ circ := by
    rintro circ' hmem rfl
    exact hnot hmem
  unfold ewmaAllocCircData
  rw [hforget]
  constructor
  · exact h.valid.congr fun a ha b hb => compareCellEwmaCounts_update (hne a ha) (hne b hb) _
  · intro circ'
    rw [isActive_concat]
    exact h.active circ'
  · exact fun circ' hmem => List.mem_cons_of_mem _ (h.allocated circ' hmem)
  · intro circ' hnew
    rw [sentOn_concat, h.unsent circ' fun hmem => hnew (List.mem_cons_of_mem _ hmem)]
    rfl
  · intro circ' hmem
    dsimp only
    rw [Function.update_of_ne (hne circ' hmem)]
    exact h.queued circ' hmem
  · exact h.recalibrated
  · intro circ' hmem
    dsimp only
    rw [sentOn_concat, EwmaEvent.sentOn, List.append_nil]
    by_cases hc : circ' = circ
    · subst hc
      rw [Function.update_self, h.unsent circ' hlegal]
      exact ⟨tick, htick, rfl, rfl⟩
    · rw [Function.update_of_ne hc]
      exact h.count circ' ((List.mem_cons.mp hmem).resolve_left hc)

omit [DecidableEq κ] in
theorem mem_list_of_perm {q q' : Pqueue κ} {circ : κ} (h : q'.list.toList.Perm (circ :: q.list.toList))
    (circ' : κ) : circ' ∈ q'.list ↔ circ' = circ ∨ circ' ∈ q.list := by
  rw [← Array.mem_toList_iff, h.mem_iff, List.mem_cons, Array.mem_toList_iff]

/-- **Adding** a circuit that is not queued. -/
theorem addCellEwma_ok (F : ℚ) (pol : EwmaPolicyData κ)
    (hvalid : pol.activeCircuitPqueue.Valid (compareCellEwmaCounts pol.cellEwma)) {circ : κ}
    (hcirc : circ ∉ pol.activeCircuitPqueue.list)
    (hroom : pol.activeCircuitPqueue.list.size < maxCapacity) :
    ∃ q', addCellEwma F pol circ = some
        { pol with
          activeCircuitPqueue := q'
          cellEwma := Function.update pol.cellEwma circ
            (scaleSingleCellEwma F (pol.cellEwma circ) pol.activeCircuitPqueueLastRecalibrated) } ∧
      q'.Valid (compareCellEwmaCounts (Function.update pol.cellEwma circ
        (scaleSingleCellEwma F (pol.cellEwma circ) pol.activeCircuitPqueueLastRecalibrated))) ∧
      ∀ circ', circ' ∈ q'.list ↔ circ' = circ ∨ circ' ∈ pol.activeCircuitPqueue.list := by
  have hne : ∀ circ' ∈ pol.activeCircuitPqueue.list, circ' ≠ circ := by
    rintro circ' hmem rfl
    exact hcirc hmem
  have hvalid' := hvalid.congr fun a ha b hb => compareCellEwmaCounts_update (hne a ha) (hne b hb)
    (scaleSingleCellEwma F (pol.cellEwma circ) pol.activeCircuitPqueueLastRecalibrated)
  have hidx := hvalid.absent circ hcirc
  obtain ⟨q', hadd⟩ : ∃ q', smartlistPqueueAdd (compareCellEwmaCounts (Function.update pol.cellEwma circ
      (scaleSingleCellEwma F (pol.cellEwma circ) pol.activeCircuitPqueueLastRecalibrated)))
      pol.activeCircuitPqueue circ = some q' := by
    unfold smartlistPqueueAdd
    rw [dif_pos hroom]
    exact ⟨_, rfl⟩
  obtain ⟨hq', hperm⟩ := smartlistPqueueAdd_ok (totalPreorder_compareCellEwmaCounts _) hvalid' hidx hadd
  refine ⟨q', ?_, hq', mem_list_of_perm hperm⟩
  unfold addCellEwma
  rw [if_pos hidx]
  dsimp only
  rw [hadd]

/-- **Activation** of an inactive circuit. -/
theorem ewmaInv_active (hF : 0 < F) (hnear : Near ticks) (h : EwmaInv F ticks events pol) {circ : κ}
    (hlegal : circ ∈ pol.allocated ∧ circ ∉ pol.activeCircuitPqueue.list)
    (hroom : pol.activeCircuitPqueue.list.size < maxCapacity) :
    ∃ pol', ewmaNotifyCircActive F pol circ = some pol' ∧
      EwmaInv F ticks (events ++ [.active circ]) pol' := by
  obtain ⟨halloc, hcirc⟩ := hlegal
  obtain ⟨q', hadd, hvalid, hmem⟩ := addCellEwma_ok F pol h.valid hcirc hroom
  obtain ⟨recal, hrecal, hlast⟩ := h.recalibrated
  obtain ⟨tick, htick, hadjusted, hcount⟩ := h.count circ halloc
  refine ⟨_, hadd, hvalid, ?_, ?_, ?_, ?_, h.recalibrated, ?_⟩
  · intro circ'
    rw [isActive_concat, EwmaEvent.isActive, hmem, h.active]
    by_cases hc : circ' = circ
    · rw [if_pos hc.symm]
      exact iff_of_true (.inl hc) rfl
    · rw [if_neg fun he => hc he.symm]
      exact or_iff_right hc
  · intro circ' hq
    obtain rfl | hq := (hmem circ').mp hq
    · exact halloc
    · exact h.allocated circ' hq
  · intro circ' hnew
    rw [sentOn_concat, h.unsent circ' hnew]
    rfl
  · intro circ' hq
    dsimp only
    by_cases hc : circ' = circ
    · subst hc
      rw [Function.update_self]
      rfl
    · rw [Function.update_of_ne hc]
      exact h.queued circ' (((hmem circ').mp hq).resolve_left hc)
  · intro circ' hmem'
    dsimp only
    rw [sentOn_concat, EwmaEvent.sentOn, List.append_nil]
    by_cases hc : circ' = circ
    · subst hc
      rw [Function.update_self]
      refine ⟨recal, hrecal, hlast, ?_⟩
      show (pol.cellEwma circ').cellCount * getScaleFactor F _ _ = _
      rw [hcount, hadjusted, hlast, getScaleFactor_tickNum F (hnear recal hrecal tick htick),
        decayed_mul_zpow hF.ne']
    · rw [Function.update_of_ne hc]
      exact h.count circ' hmem'

/-- **Deactivation**, where the last circuit can take the place. -/
theorem ewmaInv_inactive (h : EwmaInv F ticks events pol) {circ : κ}
    (hlegal : circ ∈ pol.activeCircuitPqueue.list)
    (hrest : Restores (compareCellEwmaCounts pol.cellEwma) pol.activeCircuitPqueue circ)
    (hcall : ewmaNotifyCircInactive pol circ = some pol') :
    EwmaInv F ticks (events ++ [.inactive circ]) pol' := by
  unfold ewmaNotifyCircInactive removeCellEwma at hcall
  split at hcall
  · split at hcall
    · cases hcall
    · rename_i q' hremove
      cases hcall
      obtain ⟨hvalid, hperm⟩ := smartlistPqueueRemove_ok (totalPreorder_compareCellEwmaCounts _) h.valid
        hlegal hrest hremove
      have hmem := mem_list_of_perm hperm.symm
      have hgone : circ ∉ q'.list := by
        have hnodup := hperm.nodup_iff.mpr h.valid.nodup
        rw [← Array.mem_toList_iff]
        exact (List.nodup_cons.mp hnodup).1
      refine ⟨hvalid, ?_, ?_, ?_, ?_, h.recalibrated, ?_⟩
      · intro circ'
        rw [isActive_concat, EwmaEvent.isActive]
        by_cases hc : circ' = circ
        · subst hc
          rw [if_pos rfl]
          exact iff_of_false hgone Bool.false_ne_true
        · rw [if_neg fun he => hc he.symm, ← h.active, hmem]
          exact (or_iff_right hc).symm
      · exact fun circ' hq => h.allocated circ' ((hmem circ').mpr (.inr hq))
      · intro circ' hnew
        rw [sentOn_concat, h.unsent circ' hnew]
        rfl
      · exact fun circ' hq => h.queued circ' ((hmem circ').mpr (.inr hq))
      · intro circ' halloc
        rw [sentOn_concat, EwmaEvent.sentOn, List.append_nil]
        exact h.count circ' halloc
  · cases hcall

/-! ### Transmissions -/

/-- The loop over circuits that are all at the scale of the queue. -/
theorem scaleActiveLoop_eq (factor : ℚ) (recal curTick : BitVec 32) {l : List κ} (hnodup : l.Nodup) :
    ∀ {cellEwma : κ → CellEwma}, (∀ e ∈ l, (cellEwma e).lastAdjustedTick = recal) →
      scaleActiveLoop factor recal curTick l cellEwma = some fun e =>
        if e ∈ l then ⟨curTick, (cellEwma e).cellCount * factor⟩ else cellEwma e := by
  induction l with
  | nil =>
    intro cellEwma _
    simp [scaleActiveLoop]
  | cons a l ih =>
    intro cellEwma hlast
    obtain ⟨ha, hnodup⟩ := List.nodup_cons.mp hnodup
    have hne : ∀ e ∈ l, e ≠ a := by
      rintro e he rfl
      exact ha he
    rw [scaleActiveLoop, if_pos (hlast a List.mem_cons_self), ih hnodup]
    · congr 1
      funext e
      by_cases hea : e = a
      · subst hea
        rw [if_neg ha, if_pos List.mem_cons_self, Function.update_self]
      · rw [Function.update_of_ne hea]
        simp only [List.mem_cons, hea, false_or]
    · intro e he
      rw [Function.update_of_ne (hne e he)]
      exact hlast e (List.mem_cons_of_mem a he)

/-- **Rescaling the active circuits** to another tick. -/
theorem scaleActiveCircuits_ok (hF : 0 < F) (hnear : Near ticks) (h : EwmaInv F ticks events pol)
    {tick : ℤ} (htick : tick ∈ ticks) :
    ∃ pol', scaleActiveCircuits F pol (tickNum tick) = some pol' ∧ EwmaInv F ticks events pol' ∧
      pol'.activeCircuitPqueue = pol.activeCircuitPqueue ∧
      pol'.activeCircuitPqueueLastRecalibrated = tickNum tick := by
  obtain ⟨recal, hrecal, hlast⟩ := h.recalibrated
  have hfactor : getScaleFactor F pol.activeCircuitPqueueLastRecalibrated (tickNum tick) =
      F ^ (tick - recal) := by
    rw [hlast, getScaleFactor_tickNum F (hnear tick htick recal hrecal)]
  have hqueued : ∀ e ∈ pol.activeCircuitPqueue.list.toList,
      (pol.cellEwma e).lastAdjustedTick = pol.activeCircuitPqueueLastRecalibrated := by
    intro e he
    exact h.queued e (Array.mem_toList_iff.mp he)
  have hloop := scaleActiveLoop_eq (F ^ (tick - recal)) pol.activeCircuitPqueueLastRecalibrated
    (tickNum tick) h.valid.nodup hqueued
  simp only [Array.mem_toList_iff] at hloop
  unfold scaleActiveCircuits
  rw [hfactor]
  dsimp only
  rw [hloop]
  refine ⟨_, rfl, ?_, rfl, rfl⟩
  constructor
  · refine h.valid.congr fun a ha b hb => ?_
    exact compareCellEwmaCounts_scale (zpow_pos hF (tick - recal)) (by simp [ha]) (by simp [hb])
  · exact h.active
  · exact h.allocated
  · exact h.unsent
  · intro circ hq
    dsimp only
    rw [if_pos hq]
  · exact ⟨tick, htick, rfl⟩
  · intro circ halloc
    dsimp only
    by_cases hq : circ ∈ pol.activeCircuitPqueue.list
    · rw [if_pos hq]
      refine ⟨tick, htick, rfl, ?_⟩
      rw [h.count_queued hnear hq hrecal hlast]
      exact decayed_mul_zpow hF.ne' _ _ _
    · rw [if_neg hq]
      exact h.count circ halloc

theorem scaleSingleCellEwma_self (F : ℚ) (ewma : CellEwma) :
    scaleSingleCellEwma F ewma ewma.lastAdjustedTick = ewma := by
  unfold scaleSingleCellEwma getScaleFactor
  rw [BitVec.sub_self, BitVec.toInt_zero, zpow_zero, mul_one]

/-- **A transmission** on the circuit at the head. -/
theorem ewmaInv_xmit (hF : 0 < F) (hnear : Near ticks) (h : EwmaInv F ticks events pol) {circ : κ}
    {tick : ℤ} (increment : ℚ) (hpick : ewmaPickActiveCircuit pol = some circ) (htick : tick ∈ ticks) :
    ∃ pol', ewmaNotifyXmitCells F pol circ (tickNum tick) increment = some pol' ∧
      EwmaInv F ticks (events ++ [.xmit circ tick increment]) pol' := by
  obtain ⟨pol₁, hscale, h₁, hqueue, hrecal⟩ : ∃ pol₁, rescaleIfNeeded F pol (tickNum tick) = some pol₁ ∧
      EwmaInv F ticks events pol₁ ∧ pol₁.activeCircuitPqueue = pol.activeCircuitPqueue ∧
      pol₁.activeCircuitPqueueLastRecalibrated = tickNum tick := by
    unfold rescaleIfNeeded
    split
    · exact scaleActiveCircuits_ok hF hnear h htick
    · rename_i heq
      exact ⟨pol, rfl, h, rfl, (not_not.mp heq).symm⟩
  have hhead : pol₁.activeCircuitPqueue.list[0]? = some circ := by
    rw [hqueue]
    exact hpick
  have hmem : circ ∈ pol₁.activeCircuitPqueue.list := Array.mem_of_getElem? hhead
  -- the key of the head is raised in place
  let raised : CellEwma :=
    { pol₁.cellEwma circ with cellCount := (pol₁.cellEwma circ).cellCount + increment }
  have hraised : raised.lastAdjustedTick = tickNum tick := (h₁.queued circ hmem).trans hrecal
  obtain ⟨q', hpop, hvalid, hperm⟩ := smartlistPqueuePop_head_changed
    (totalPreorder_compareCellEwmaCounts pol₁.cellEwma)
    (totalPreorder_compareCellEwmaCounts (Function.update pol₁.cellEwma circ raised)) h₁.valid hhead
    fun a _ b _ hane hbne => compareCellEwmaCounts_update hane hbne raised
  have hgone : circ ∉ q'.list := by
    rw [← Array.mem_toList_iff]
    exact (List.nodup_cons.mp (hperm.nodup_iff.mpr h₁.valid.nodup)).1
  have hroom : q'.list.size < maxCapacity := by
    have hlen := hperm.length_eq
    rw [List.length_cons, Array.length_toList, Array.length_toList] at hlen
    have := pol₁.activeCircuitPqueue.bound
    omega
  let pol₂ : EwmaPolicyData κ :=
    { pol₁ with activeCircuitPqueue := q', cellEwma := Function.update pol₁.cellEwma circ raised }
  have hself : pol₂.cellEwma circ = raised := Function.update_self _ _ _
  have hsingle : scaleSingleCellEwma F (pol₂.cellEwma circ) pol₂.activeCircuitPqueueLastRecalibrated =
      pol₂.cellEwma circ := by
    show scaleSingleCellEwma F _ pol₁.activeCircuitPqueueLastRecalibrated = _
    rw [hself, hrecal, ← hraised, scaleSingleCellEwma_self]
  obtain ⟨q'', hadd, hvalid'', hmem''⟩ := addCellEwma_ok F pol₂ hvalid hgone hroom
  rw [hsingle, Function.update_eq_self] at hadd hvalid''
  have hqueued : ∀ circ', circ' ∈ q''.list ↔ circ' ∈ pol₁.activeCircuitPqueue.list := by
    intro circ'
    rw [hmem'', mem_list_of_perm hperm.symm]
  refine ⟨{ pol₂ with activeCircuitPqueue := q'' }, ?_, hvalid'', ?_, ?_, ?_, ?_, h₁.recalibrated, ?_⟩
  · have hfirst : popFirstCellEwma (addIncrement pol₁ circ increment) = some (circ, pol₂) := by
      unfold popFirstCellEwma addIncrement
      dsimp only
      rw [hpop]
    unfold ewmaNotifyXmitCells
    rw [hscale]
    dsimp only
    rw [hfirst]
    dsimp only
    rw [if_pos rfl, hadd]
  · intro circ'
    rw [isActive_concat]
    exact (hqueued circ').trans (h₁.active circ')
  · exact fun circ' hq => h₁.allocated circ' ((hqueued circ').mp hq)
  · intro circ' hnew
    have hne : circ ≠ circ' := by
      rintro rfl
      exact hnew (h₁.allocated circ hmem)
    rw [sentOn_concat, h₁.unsent circ' hnew, EwmaEvent.sentOn, if_neg hne]
    rfl
  · intro circ' hq
    by_cases hc : circ' = circ
    · subst hc
      show (pol₂.cellEwma circ').lastAdjustedTick = pol₁.activeCircuitPqueueLastRecalibrated
      rw [hself, hraised, hrecal]
    · show (Function.update pol₁.cellEwma circ raised circ').lastAdjustedTick = _
      rw [Function.update_of_ne hc]
      exact h₁.queued circ' ((hqueued circ').mp hq)
  · intro circ' halloc
    rw [sentOn_concat, EwmaEvent.sentOn]
    by_cases hc : circ' = circ
    · subst hc
      rw [if_pos rfl, hself]
      refine ⟨tick, htick, hraised, ?_⟩
      rw [decayed_concat, ← h₁.count_queued hnear hmem htick hrecal]
    · rw [if_neg fun he => hc he.symm, List.append_nil]
      show ∃ tick ∈ ticks, (Function.update pol₁.cellEwma circ raised circ').lastAdjustedTick = _ ∧
        (Function.update pol₁.cellEwma circ raised circ').cellCount = _
      rw [Function.update_of_ne hc]
      exact h₁.count circ' halloc

/-- **One call.** -/
theorem ewmaInv_step (hF : 0 < F) (hnear : Near ticks) (h : EwmaInv F ticks events pol) {e : EwmaEvent κ}
    (hstep : EwmaStep F ticks pol e pol') : EwmaInv F ticks (events ++ [e]) pol' := by
  obtain ⟨⟨hlegal, hticks, hcall⟩, hmeets⟩ := hstep
  cases e with
  | alloc circ tick =>
    cases hcall
    exact ewmaInv_alloc h hlegal (hticks tick (List.mem_singleton.mpr rfl))
  | active circ =>
    obtain ⟨pol₁, hcall₁, h₁⟩ := ewmaInv_active hF hnear h hlegal hmeets
    obtain rfl : pol₁ = pol' := Option.some.inj (hcall₁.symm.trans hcall)
    exact h₁
  | inactive circ => exact ewmaInv_inactive h hlegal hmeets hcall
  | xmit circ tick increment =>
    obtain ⟨pol₁, hcall₁, h₁⟩ := ewmaInv_xmit hF hnear h increment hlegal.1
      (hticks tick (List.mem_singleton.mpr rfl))
    obtain rfl : pol₁ = pol' := Option.some.inj (hcall₁.symm.trans hcall)
    exact h₁

/-- **A run.** -/
theorem ewmaInv_run (hF : 0 < F) (hnear : Near ticks) {more : List (EwmaEvent κ)}
    (hrun : Run (EwmaStep F ticks) pol more pol') :
    ∀ {events : List (EwmaEvent κ)}, EwmaInv F ticks events pol →
      EwmaInv F ticks (events ++ more) pol' := by
  induction hrun with
  | nil =>
    intro events h
    rwa [List.append_nil]
  | @cons pol pol₁ pol' e more hstep _ ih =>
    intro events h
    have := ih (ewmaInv_step hF hnear h hstep)
    rwa [List.append_assoc] at this

/-- **No assertion fails** in a call that finds room in the queue. -/
theorem apply_isSome (hF : 0 < F) (hnear : Near ticks) (h : EwmaInv F ticks events pol) {e : EwmaEvent κ}
    (hlegal : Legal pol e) (hticks : ∀ tick ∈ e.ticks, tick ∈ ticks)
    (hroom : ∀ circ, e = .active circ → pol.activeCircuitPqueue.list.size < maxCapacity) :
    ∃ pol', e.apply F pol = some pol' := by
  cases e with
  | alloc circ tick => exact ⟨_, rfl⟩
  | active circ =>
    obtain ⟨pol', hcall, _⟩ := ewmaInv_active hF hnear h hlegal (hroom circ rfl)
    exact ⟨pol', hcall⟩
  | inactive circ =>
    obtain ⟨q', hremove, _⟩ :=
      assertOk_remove_iff (totalPreorder_compareCellEwmaCounts pol.cellEwma) h.valid hlegal
    have hidx : pol.activeCircuitPqueue.idx circ ≠ -1 := fun he => h.valid.not_mem he hlegal
    show ∃ pol', removeCellEwma pol circ = some pol'
    unfold removeCellEwma
    rw [if_pos hidx, hremove]
    exact ⟨_, rfl⟩
  | xmit circ tick increment =>
    obtain ⟨pol', hcall, _⟩ := ewmaInv_xmit hF hnear h increment hlegal.1
      (hticks tick (List.mem_singleton.mpr rfl))
    exact ⟨pol', hcall⟩

end Steps

/-- **The circuit priorities.**  Along every run in ticks that are less than `2 ^ 31` apart whose removals
find a last circuit that does not have a lower count than the parent of the one that goes: the queued
circuits are at the scale of the queue, the queue is a heap and holds the active circuits, the circuit that
is picked is active and has the least decayed count at every tick, and no assertion fails in a further call
that finds room.  From there a removal leaves a heap exactly if it is such a removal. -/
theorem ewma_ok_of_run {F : ℚ} (hF : 0 < F) {ticks : Set ℤ} (hnear : Near ticks) {start : ℤ}
    (hstart : start ∈ ticks) {events : List (EwmaEvent κ)} {pol : EwmaPolicyData κ}
    (hrun : Run (EwmaStep F ticks) (ewmaAllocCmuxData κ (tickNum start)) events pol) :
    (∀ circ ∈ pol.activeCircuitPqueue.list,
      (pol.cellEwma circ).lastAdjustedTick = pol.activeCircuitPqueueLastRecalibrated) ∧
    pol.activeCircuitPqueue.AssertOk (compareCellEwmaCounts pol.cellEwma) ∧
    (∀ circ, circ ∈ pol.activeCircuitPqueue.list ↔ isActive events circ = true) ∧
    (ewmaPickActiveCircuit pol = none ↔ ∀ circ, isActive events circ = false) ∧
    (∀ circ, ewmaPickActiveCircuit pol = some circ → isActive events circ = true ∧
      ∀ circ', isActive events circ' = true → ∀ tick,
        decayed F (sentOn events circ) tick ≤ decayed F (sentOn events circ') tick) ∧
    (∀ e, Legal pol e → (∀ tick ∈ e.ticks, tick ∈ ticks) →
      (∀ circ, e = .active circ → pol.activeCircuitPqueue.list.size < maxCapacity) →
      ∃ pol', e.apply F pol = some pol') ∧
    ∀ circ ∈ pol.activeCircuitPqueue.list, ∃ pol', ewmaNotifyCircInactive pol circ = some pol' ∧
      (pol'.activeCircuitPqueue.AssertOk (compareCellEwmaCounts pol'.cellEwma) ↔
        Restores (compareCellEwmaCounts pol.cellEwma) pol.activeCircuitPqueue circ) := by
  have h : EwmaInv F ticks events pol := ewmaInv_run hF hnear hrun (ewmaInv_allocCmuxData hstart)
  have hc := totalPreorder_compareCellEwmaCounts pol.cellEwma
  refine ⟨h.queued, ⟨h.valid.ordered, h.valid.indexed⟩, h.active, ?_, ?_, ?_, ?_⟩
  · unfold ewmaPickActiveCircuit
    rw [Array.getElem?_eq_none_iff, Nat.le_zero, Array.size_eq_zero_iff]
    constructor
    · intro hempty circ
      rw [← Bool.not_eq_true, ← h.active, hempty]
      exact Array.not_mem_empty circ
    · intro hnone
      refine Array.eq_empty_iff_forall_not_mem.mpr fun circ hmem => ?_
      rw [h.active, hnone] at hmem
      cases hmem
  · intro circ hpick
    obtain ⟨h0, hhead⟩ := Array.getElem?_eq_some_iff.mp hpick
    have hmem : circ ∈ pol.activeCircuitPqueue.list := Array.mem_of_getElem? hpick
    refine ⟨(h.active circ).mp hmem, ?_⟩
    intro circ' hactive tick
    have hmem' := (h.active circ').mpr hactive
    obtain ⟨recal, hrecal, hlast⟩ := h.recalibrated
    obtain ⟨i, hi, rfl⟩ := Array.mem_iff_getElem.mp hmem'
    have hroot := h.valid.ordered.root_le hc h0 i hi
    rw [hhead, compareCellEwmaCounts_le_zero_iff, h.count_queued hnear hmem hrecal hlast,
      h.count_queued hnear hmem' hrecal hlast] at hroot
    exact (decayed_le_iff hF _ _ recal tick).mp hroot
  · exact fun e hlegal hticks hroom => apply_isSome hF hnear h hlegal hticks hroom
  · intro circ hmem
    obtain ⟨q', hremove, hiff⟩ := assertOk_remove_iff hc h.valid hmem
    refine ⟨{ pol with activeCircuitPqueue := q' }, ?_, hiff⟩
    unfold ewmaNotifyCircInactive removeCellEwma
    rw [if_pos fun he => h.valid.not_mem he hmem, hremove]

/-! ### Some runs -/

def callRun (F : ℚ) (ok : EwmaPolicyData κ → EwmaEvent κ → Bool) :
    List (EwmaEvent κ) → EwmaPolicyData κ → Option (EwmaPolicyData κ)
  | [], pol => some pol
  | e :: events, pol => if ok pol e then (e.apply F pol).bind (callRun F ok events) else none

theorem run_of_callRun {F : ℚ} {ok : EwmaPolicyData κ → EwmaEvent κ → Bool}
    {R : EwmaPolicyData κ → EwmaEvent κ → EwmaPolicyData κ → Prop}
    (hok : ∀ pol e pol', ok pol e = true → e.apply F pol = some pol' → R pol e pol')
    {events : List (EwmaEvent κ)} :
    ∀ {pol pol' : EwmaPolicyData κ}, callRun F ok events pol = some pol' → Run R pol events pol' := by
  induction events with
  | nil =>
    intro pol pol' h
    cases h
    exact .nil pol
  | cons e events ih =>
    intro pol pol' h
    rw [callRun] at h
    split at h
    · rename_i htest
      obtain ⟨pol₁, hcall, hrest⟩ := Option.bind_eq_some_iff.mp h
      exact .cons (hok pol e pol₁ htest hcall) (ih hrest)
    · cases h

instance (pol : EwmaPolicyData κ) : (e : EwmaEvent κ) → Decidable (Legal pol e)
  | .alloc _ _ => inferInstanceAs (Decidable (_ ∉ pol.allocated))
  | .active _ => inferInstanceAs (Decidable (_ ∧ _))
  | .inactive _ => inferInstanceAs (Decidable (_ ∈ pol.activeCircuitPqueue.list))
  | .xmit _ _ _ => inferInstanceAs (Decidable (_ ∧ _))

/-- A call of a run in the tick `0`. -/
def legalInTickZero (pol : EwmaPolicyData ℕ) (e : EwmaEvent ℕ) : Bool :=
  decide (Legal pol e) && e.ticks.all fun tick => tick = 0

theorem ewmaCall_of_legal {F : ℚ} {pol pol' : EwmaPolicyData ℕ} {e : EwmaEvent ℕ}
    (h : legalInTickZero pol e = true) (hcall : e.apply F pol = some pol') : EwmaCall F {0} pol e pol' := by
  unfold legalInTickZero at h
  rw [Bool.and_eq_true, decide_eq_true_eq, List.all_eq_true] at h
  exact ⟨h.1, fun tick htick => of_decide_eq_true (h.2 tick htick), hcall⟩

/-- Six circuits, of which `1`, `3` and `4` have sent; all are active, and then `3` is not. -/
def lastBelowParent : List (EwmaEvent ℕ) :=
  [.alloc 0 0, .alloc 1 0, .alloc 2 0, .alloc 3 0, .alloc 4 0, .alloc 5 0,
    .active 1, .xmit 1 0 1, .inactive 1, .active 3, .xmit 3 0 1, .inactive 3,
    .active 4, .xmit 4 0 1, .inactive 4,
    .active 0, .active 1, .active 2, .active 3, .active 4, .active 5, .inactive 3]

/-- **A removal after which the queue is no heap**, and two transmissions later the circuit that is picked
has not the least count. -/
theorem not_ok_lastBelowParent :
    (∃ pol, Run (EwmaCall (1 / 2) {0}) (ewmaAllocCmuxData ℕ (tickNum 0)) lastBelowParent pol ∧
      ¬pol.activeCircuitPqueue.AssertOk (compareCellEwmaCounts pol.cellEwma)) ∧
    ∃ pol, Run (EwmaCall (1 / 2) {0}) (ewmaAllocCmuxData ℕ (tickNum 0))
        (lastBelowParent ++ [.xmit 0 0 5, .xmit 2 0 5]) pol ∧
      ewmaPickActiveCircuit pol = some 1 ∧
      isActive (lastBelowParent ++ [.xmit 0 0 5, .xmit 2 0 5]) 5 = true ∧
      decayed (1 / 2) (sentOn (lastBelowParent ++ [.xmit 0 0 5, .xmit 2 0 5]) 5) 0 <
        decayed (1 / 2 : ℚ) (sentOn (lastBelowParent ++ [.xmit 0 0 5, .xmit 2 0 5]) 1) 0 := by
  constructor
  · have hrun : (callRun (1 / 2) legalInTickZero lastBelowParent (ewmaAllocCmuxData ℕ (tickNum 0))).map
        (fun pol => (pol.activeCircuitPqueue.list, (pol.cellEwma 1).cellCount,
          (pol.cellEwma 5).cellCount)) = some (#[0, 1, 2, 5, 4], 1, 0) := by decide +kernel
    obtain ⟨pol, hpol, heq⟩ := Option.map_eq_some_iff.mp hrun
    simp only [Prod.mk.injEq] at heq
    obtain ⟨hlist, hone, hfive⟩ := heq
    refine ⟨pol, run_of_callRun (fun _ _ _ => ewmaCall_of_legal) hpol, ?_⟩
    intro hok
    have hordered := hok.1
    rw [hlist] at hordered
    have hle := hordered 3 (by decide) (by decide) (by decide)
    rw [compareCellEwmaCounts_le_zero_iff] at hle
    have hle' : (pol.cellEwma 1).cellCount ≤ (pol.cellEwma 5).cellCount := hle
    rw [hone, hfive] at hle'
    exact absurd hle' (by decide)
  · have hrun : (callRun (1 / 2) legalInTickZero (lastBelowParent ++ [.xmit 0 0 5, .xmit 2 0 5])
        (ewmaAllocCmuxData ℕ (tickNum 0))).map ewmaPickActiveCircuit = some (some 1) := by decide +kernel
    obtain ⟨pol, hpol, hpick⟩ := Option.map_eq_some_iff.mp hrun
    exact ⟨pol, run_of_callRun (fun _ _ _ => ewmaCall_of_legal) hpol, hpick, by decide +kernel,
      by decide +kernel⟩

/-- Two circuits; the first sends, the ticks wrap around, and it is inactive for a while. -/
def wrappingTicks : List (EwmaEvent ℕ) :=
  [.alloc 0 (2 ^ 32 - 1), .alloc 1 (2 ^ 32 - 1), .active 0, .xmit 0 (2 ^ 32 - 1) 5, .inactive 0, .active 1,
    .xmit 1 (2 ^ 32 + 1) 1, .active 0]

/-- A call of a run in these ticks, with a short queue from which the head is removed only. -/
def legalWrapping (pol : EwmaPolicyData ℕ) (e : EwmaEvent ℕ) : Bool :=
  decide (Legal pol e) && (e.ticks.all fun tick => tick = 2 ^ 32 - 1 ∨ tick = 2 ^ 32 + 1) &&
    match e with
    | .inactive circ => pol.activeCircuitPqueue.idx circ = 0
    | .alloc _ _ | .active _ | .xmit _ _ _ => pol.activeCircuitPqueue.list.size < 2

theorem ewma_ok_wrappingTicks :
    ∃ pol, Run (EwmaStep (1 / 2) {2 ^ 32 - 1, 2 ^ 32 + 1}) (ewmaAllocCmuxData ℕ (tickNum (2 ^ 32 - 1)))
        wrappingTicks pol ∧
      pol.activeCircuitPqueue.AssertOk (compareCellEwmaCounts pol.cellEwma) := by
  have hok : ∀ pol e pol', legalWrapping pol e = true → e.apply (1 / 2) pol = some pol' →
      EwmaStep (1 / 2) {2 ^ 32 - 1, 2 ^ 32 + 1} pol e pol' := by
    intro pol e pol' htest hcall
    unfold legalWrapping at htest
    simp only [Bool.and_eq_true, decide_eq_true_eq, List.all_eq_true] at htest
    obtain ⟨⟨hlegal, hticks⟩, hqueue⟩ := htest
    refine ⟨⟨hlegal, hticks, hcall⟩, ?_⟩
    cases e with
    | alloc circ tick => trivial
    | active circ => exact (of_decide_eq_true hqueue).trans (by decide)
    | inactive circ =>
      intro h0
      rw [of_decide_eq_true hqueue] at h0
      exact absurd h0 (by decide)
    | xmit circ tick increment => trivial
  have hrun : (callRun (1 / 2) legalWrapping wrappingTicks
      (ewmaAllocCmuxData ℕ (tickNum (2 ^ 32 - 1)))).isSome = true := by decide +kernel
  obtain ⟨pol, hpol⟩ := Option.isSome_iff_exists.mp hrun
  have hsteps := run_of_callRun hok hpol
  have hnear : Near ({2 ^ 32 - 1, 2 ^ 32 + 1} : Set ℤ) := by
    rintro tick (rfl | rfl) tick' (rfl | rfl) <;> decide
  exact ⟨pol, hsteps, (ewma_ok_of_run (by decide +kernel) hnear (Set.mem_insert _ _) hsteps).2.1⟩

end TorEbpf.Or.Ewma
