import TorEbpf.Lib.Checked
import Mathlib.Tactic.Common

/-!
# Padding machines

A padding machine is a state machine on a circuit that decides when to send padding cells.  The
specification of a machine (`circpad_machine_spec_t`) is immutable and shared; what a circuit keeps of a
machine that runs on it is its `circpad_machine_runtime_t`.  A state that spends tokens has a runtime
histogram: a copy of the histogram in the specification, set up as the machine enters the state.

* `increasing_of_stateIsValid` — a state with a histogram that is accepted has increasing edges;
* `HasTokens`, `Tokens` — a machine that is in a (valid) state with a runtime histogram.
-/

namespace TorEbpf.Or.Circpad

open TorEbpf.Lib

/-- What must not happen: a read outside an array, an assertion that fails, a division by zero. -/
inductive Fault where
  | read
  | assertion
  | divideByZero
  deriving DecidableEq, Repr

abbrev Outcome (α : Type) := Checked Unit Fault α

/-! ### Specifications -/

/-- `circpad_removal_t`. -/
inductive Removal where
  | none
  | higher
  | lower
  | closest
  | closestUsec
  | exact
  deriving DecidableEq, Repr

/-- `circpad_distribution_type_t`. -/
inductive DistributionType where
  | none
  | uniform
  | logistic
  | logLogistic
  | geometric
  | weibull
  | pareto
  deriving DecidableEq, Repr

def maxHistogramLen : ℕ := 100

def delayInfinite : UInt32 := 4294967295

def stateLengthInfinite : UInt64 := 18446744073709551615

/-- `CIRCPAD_STATE_END`, `CIRCPAD_STATE_IGNORE` and `CIRCPAD_STATE_CANCEL`. -/
def stateEnd : UInt16 := 65535
def stateIgnore : UInt16 := stateEnd - 1
def stateCancel : UInt16 := stateEnd - 2

/-- `circpad_state_t`; of the arrays the first `histogram_len` entries. -/
structure State where
  histogram : List UInt32
  histogramEdges : List UInt32
  length_histogramEdges : histogramEdges.length = histogram.length
  length_histogram_le : histogram.length ≤ maxHistogramLen
  histogramTotalTokens : UInt32
  iatDist : DistributionType
  distAddedShiftUsec : UInt32
  lengthDist : DistributionType
  lengthIncludesNonpadding : Bool
  nextState : List UInt16
  useRttEstimate : Bool
  tokenRemoval : Removal

def State.histogramLen (state : State) : ℕ := state.histogram.length

/-- `circpad_machine_spec_t`. -/
structure MachineSpec where
  isOriginSide : Bool
  shouldNegotiateEnd : Bool
  allowedPaddingCount : UInt16
  maxPaddingPercent : UInt8
  states : List State

/-- `padding_machine_state_is_valid`: the loop over the bins. -/
def binsAreValid : ℕ → UInt32 → UInt32 → List (UInt32 × UInt32) → Option UInt32
  | _, _, tokensCount, [] => some tokensCount
  | b, prevBinEdge, tokensCount, (tokens, edge) :: bins =>
      if edge ≤ prevBinEdge ∧ 0 < b then none
      else binsAreValid (b + 1) edge (tokensCount + tokens) bins

/-- `padding_machine_state_is_valid`. -/
def stateIsValid (state : State) : Bool :=
  if state.histogramLen = 0 then true
  else if state.histogramLen < 2 then false
  else
    match binsAreValid 0 0 0 (state.histogram.zip state.histogramEdges) with
    | none => false
    | some tokensCount => tokensCount == state.histogramTotalTokens

/-! ### Machines that run -/

/-- `circpad_machine_runtime_t`; the histogram has `histogram_len` entries, none if it is `NULL`. -/
structure Runtime where
  histogram : Option (List UInt32)
  chosenBin : ℕ
  stateLength : UInt64
  paddingSent : UInt16
  nonpaddingSent : UInt16
  rttEstimateUsec : UInt32
  paddingScheduledAtUsec : UInt64
  currentState : UInt16
  isPaddingTimerScheduled : Bool
  deriving DecidableEq, Repr

def machineinfoNew : Runtime where
  histogram := none
  chosenBin := 0
  stateLength := 0
  paddingSent := 0
  nonpaddingSent := 0
  rttEstimateUsec := 0
  paddingScheduledAtUsec := 0
  currentState := 0
  isPaddingTimerScheduled := false

/-- `circpad_machine_current_state`; `none` in the end state and in an invalid state. -/
def machineCurrentState (machine : MachineSpec) (mi : Runtime) : Option State :=
  if mi.currentState = stateEnd then none else machine.states[mi.currentState.toNat]?

/-! ### Valid states -/

section Valid

variable {machine : MachineSpec} {mi : Runtime} {state : State} {h : List UInt32}

/-- The edges increase from bin to bin. -/
def Increasing (edges : List UInt32) : Prop :=
  ∀ b, b + 1 < edges.length → edges.getD b 0 < edges.getD (b + 1) 0

theorem increasing_of_binsAreValid {bins : List (UInt32 × UInt32)} {b : ℕ} {prev count total : UInt32}
    (hvalid : binsAreValid (b + 1) prev count bins = some total) :
    Increasing (prev :: bins.map Prod.snd) := by
  induction bins generalizing b prev count with
  | nil =>
    intro b hb
    simp only [List.map_nil, List.length_singleton] at hb
    omega
  | cons bin bins ih =>
    obtain ⟨tokens, edge⟩ := bin
    rw [binsAreValid] at hvalid
    split at hvalid
    · cases hvalid
    · rename_i hedge
      have hrest := ih hvalid
      intro i hi
      cases i with
      | zero =>
        have hlt : prev < edge := by
          by_contra hle
          exact hedge ⟨UInt32.not_lt.mp hle, Nat.succ_pos b⟩
        exact hlt
      | succ i => exact hrest i (Nat.lt_of_succ_lt_succ hi)

/-- **Validation.**  A state with a histogram that is accepted has at least two bins, and their edges
increase. -/
theorem increasing_of_stateIsValid (hvalid : stateIsValid state = true) (hlen : state.histogramLen ≠ 0) :
    2 ≤ state.histogramLen ∧ Increasing state.histogramEdges := by
  unfold stateIsValid at hvalid
  rw [if_neg hlen] at hvalid
  split at hvalid
  · cases hvalid
  · rename_i htwo
    refine ⟨Nat.le_of_not_lt htwo, ?_⟩
    have hedges := state.length_histogramEdges
    cases hh : state.histogram with
    | nil => exact absurd (by rw [State.histogramLen, hh]; rfl) hlen
    | cons tokens histogram =>
      cases he : state.histogramEdges with
      | nil =>
        rw [hh, he] at hedges
        cases hedges
      | cons edge edges =>
        rw [hh, he] at hvalid hedges
        rw [List.zip_cons_cons, binsAreValid, if_neg fun h => absurd h.2 (Nat.lt_irrefl 0)] at hvalid
        cases hbins : binsAreValid 1 edge (0 + tokens) (histogram.zip edges) with
        | none =>
          rw [hbins] at hvalid
          cases hvalid
        | some total =>
          have hinc := increasing_of_binsAreValid hbins
          rwa [List.map_snd_zip (Nat.le_of_eq (Nat.succ_inj.mp hedges))] at hinc

structure HasTokens (machine : MachineSpec) (mi : Runtime) (state : State) (h : List UInt32) : Prop where
  current : machineCurrentState machine mi = some state
  removal : state.tokenRemoval ≠ .none
  histogram : mi.histogram = some h
  length : h.length = state.histogramLen

/-- A machine that is in a valid state with a runtime histogram. -/
structure Tokens (machine : MachineSpec) (mi : Runtime) (state : State) (h : List UInt32) : Prop
    extends HasTokens machine mi state h where
  valid : stateIsValid state = true
  bins : state.histogramLen ≠ 0

theorem Tokens.two_le (ht : Tokens machine mi state h) : 2 ≤ state.histogramLen :=
  (increasing_of_stateIsValid ht.valid ht.bins).1

theorem Tokens.increasing (ht : Tokens machine mi state h) : Increasing state.histogramEdges :=
  (increasing_of_stateIsValid ht.valid ht.bins).2

end Valid

end TorEbpf.Or.Circpad
