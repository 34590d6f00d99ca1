import TorEbpf.Or.Circpad

/-!
# The bins of a histogram

The edges of a histogram cut the delays into bins.  The last bin is the infinity bin, and a lookup never
returns it.  A state can ask for an estimate of the round-trip time to be added to its edges.  The lower
bound of a bin includes the estimate, and so does its upper bound, which is the lower bound of the next bin
less one; the lookup adds the estimate to the upper bound once more.

* `toNat_binToUsec`, `toNat_upperBound` — the bounds of a bin;
* `usecToBin_eq`, `usecToBin_last` — what the lookup returns;
* `inverts_iff` — the lookup inverts the edges exactly if nothing is added to them, or if there is one bin
  to find.
-/

namespace TorEbpf.Or.Circpad

open TorEbpf.Lib

/-! ### Edges and lookups -/

/-- The estimate that is added to the edges, if the state asks for it. -/
def rttAddUsec (state : State) (mi : Runtime) : UInt32 :=
  if state.useRttEstimate then mi.rttEstimateUsec else 0

def histogramBinToUsec (machine : MachineSpec) (mi : Runtime) (bin : ℕ) : UInt32 :=
  match machineCurrentState machine mi with
  | none => delayInfinite
  | some state =>
      -- `bin > CIRCPAD_INFINITY_BIN(state)`
      if state.histogramLen ≤ bin then delayInfinite
      else state.histogramEdges.getD bin 0 + rttAddUsec state mi

def histogramGetBinUpperBound (machine : MachineSpec) (mi : Runtime) (bin : ℕ) : UInt32 :=
  histogramBinToUsec machine mi (bin + 1) - 1

def getHistogramBinMidpoint (machine : MachineSpec) (mi : Runtime) (bin : ℕ) : UInt32 :=
  let leftBound := histogramBinToUsec machine mi bin
  let rightBound := histogramGetBinUpperBound machine mi bin
  leftBound + (rightBound - leftBound) / 2

/-- `circpad_histogram_usec_to_bin`, for a histogram with at least two bins. -/
def histogramUsecToBin (machine : MachineSpec) (mi : Runtime) (usec : UInt32) : ℕ :=
  match machineCurrentState machine mi with
  | none => 0
  | some state =>
      ((List.range (state.histogramLen - 1)).find? fun bin =>
        usec ≤ histogramGetBinUpperBound machine mi bin + rttAddUsec state mi).getD
          (state.histogramLen - 1 - 1)

/-- What a lookup is for: the bin that the delay lies in, the first bin for a delay below the bins, and the
last one for a delay above them. -/
def Inverts (machine : MachineSpec) (mi : Runtime) (state : State) (usec : UInt32) : Prop :=
  (∀ b, b < state.histogramLen - 1 → histogramBinToUsec machine mi b ≤ usec →
    usec ≤ histogramGetBinUpperBound machine mi b → histogramUsecToBin machine mi usec = b) ∧
  ((∀ b, b < state.histogramLen - 1 → usec < histogramBinToUsec machine mi b) →
    histogramUsecToBin machine mi usec = 0) ∧
  ((∀ b, b < state.histogramLen - 1 → histogramGetBinUpperBound machine mi b < usec) →
    histogramUsecToBin machine mi usec = state.histogramLen - 1 - 1)

section Bins

variable {machine : MachineSpec} {mi : Runtime} {state : State} {usec : UInt32} {b c : ℕ}

/-! ### The bounds as numbers -/

def State.edge (state : State) (b : ℕ) : ℕ := (state.histogramEdges.getD b 0).toNat

theorem edge_lt_size : state.edge b < 4294967296 := UInt32.toNat_lt _

theorem edge_lt (hinc : Increasing state.histogramEdges) (hbc : b < c) (hc : c < state.histogramLen) :
    state.edge b < state.edge c := by
  induction hbc with
  | refl =>
    have hlt := hinc b (by rwa [state.length_histogramEdges])
    exact UInt32.lt_iff_toNat_lt.mp hlt
  | @step c hbc ih =>
    have hlt := hinc c (by rwa [state.length_histogramEdges])
    exact Nat.lt_trans (ih (by omega)) (UInt32.lt_iff_toNat_lt.mp hlt)

theorem edge_le (hinc : Increasing state.histogramEdges) (hbc : b ≤ c) (hc : c < state.histogramLen) :
    state.edge b ≤ state.edge c := by
  rcases Nat.lt_or_eq_of_le hbc with hlt | rfl
  · exact Nat.le_of_lt (edge_lt hinc hlt hc)
  · exact Nat.le_refl _

theorem toNat_binToUsec (hcurrent : machineCurrentState machine mi = some state)
    (hb : b < state.histogramLen) :
    (histogramBinToUsec machine mi b).toNat
      = (state.edge b + (rttAddUsec state mi).toNat) % 4294967296 := by
  unfold histogramBinToUsec
  rw [hcurrent]
  dsimp only
  rw [if_neg (Nat.not_le.mpr hb), UInt32.toNat_add]
  rfl

theorem toNat_upperBound (hcurrent : machineCurrentState machine mi = some state)
    (hb : b + 1 < state.histogramLen) :
    (histogramGetBinUpperBound machine mi b).toNat
      = ((state.edge (b + 1) + (rttAddUsec state mi).toNat) % 4294967296 + 4294967295) % 4294967296 := by
  unfold histogramGetBinUpperBound
  rw [UInt32.toNat_sub, toNat_binToUsec hcurrent hb, Nat.add_comm]
  rfl

def lookupBound (machine : MachineSpec) (mi : Runtime) (state : State) (b : ℕ) : UInt32 :=
  histogramGetBinUpperBound machine mi b + rttAddUsec state mi

theorem toNat_lookupBound (hcurrent : machineCurrentState machine mi = some state)
    (hb : b + 1 < state.histogramLen) :
    (lookupBound machine mi state b).toNat
      = (((state.edge (b + 1) + (rttAddUsec state mi).toNat) % 4294967296 + 4294967295) % 4294967296
          + (rttAddUsec state mi).toNat) % 4294967296 := by
  unfold lookupBound
  rw [UInt32.toNat_add, toNat_upperBound hcurrent hb]

/-! ### The lookup -/

theorem usecToBin_def (hcurrent : machineCurrentState machine mi = some state) :
    histogramUsecToBin machine mi usec =
      ((List.range (state.histogramLen - 1)).find? fun bin => usec ≤ lookupBound machine mi state bin).getD
        (state.histogramLen - 1 - 1) := by
  unfold histogramUsecToBin
  rw [hcurrent]
  rfl

/-- The lookup returns the first bin whose bound it does not exceed. -/
theorem usecToBin_eq (hcurrent : machineCurrentState machine mi = some state)
    (hb : b < state.histogramLen - 1) (hle : usec ≤ lookupBound machine mi state b)
    (hfirst : ∀ c, c < b → lookupBound machine mi state c < usec) :
    histogramUsecToBin machine mi usec = b := by
  have hfind : (List.range (state.histogramLen - 1)).find?
      (fun bin => usec ≤ lookupBound machine mi state bin) = some b := by
    rw [List.find?_range_eq_some]
    refine ⟨decide_eq_true hle, List.mem_range.mpr hb, ?_⟩
    intro c hc
    simp only [Bool.not_eq_eq_eq_not, Bool.not_true, decide_eq_false_iff_not, UInt32.not_le]
    exact hfirst c hc
  rw [usecToBin_def hcurrent, hfind]
  rfl

/-- The lookup returns the last bin before the infinity bin if there is no such bin. -/
theorem usecToBin_last (hcurrent : machineCurrentState machine mi = some state)
    (hlt : ∀ b, b < state.histogramLen - 1 → lookupBound machine mi state b < usec) :
    histogramUsecToBin machine mi usec = state.histogramLen - 1 - 1 := by
  have hfind : (List.range (state.histogramLen - 1)).find?
      (fun bin => usec ≤ lookupBound machine mi state bin) = none := by
    rw [List.find?_range_eq_none]
    intro b hb
    simp only [Bool.not_eq_eq_eq_not, Bool.not_true, decide_eq_false_iff_not, UInt32.not_le]
    exact hlt b hb
  rw [usecToBin_def hcurrent, hfind]
  rfl

/-- The lookup either finds a bin, or it returns the last one before the infinity bin. -/
theorem usecToBin_cases (hcurrent : machineCurrentState machine mi = some state) (usec : UInt32) :
    (usec ≤ lookupBound machine mi state (histogramUsecToBin machine mi usec) ∧
      ∀ c, c < histogramUsecToBin machine mi usec → lookupBound machine mi state c < usec) ∨
    histogramUsecToBin machine mi usec = state.histogramLen - 1 - 1 ∧
      ∀ c, c < state.histogramLen - 1 → lookupBound machine mi state c < usec := by
  rw [usecToBin_def hcurrent]
  cases hfind : (List.range (state.histogramLen - 1)).find?
      (fun bin => usec ≤ lookupBound machine mi state bin) with
  | none =>
    rw [List.find?_range_eq_none] at hfind
    refine .inr ⟨rfl, fun c hc => ?_⟩
    have hnot := hfind c hc
    simpa only [Bool.not_eq_eq_eq_not, Bool.not_true, decide_eq_false_iff_not, UInt32.not_le] using hnot
  | some b =>
    rw [List.find?_range_eq_some] at hfind
    obtain ⟨hle, _, hfirst⟩ := hfind
    refine .inl ⟨of_decide_eq_true hle, fun c hc => ?_⟩
    have hnot := hfirst c hc
    simpa only [Bool.not_eq_eq_eq_not, Bool.not_true, decide_eq_false_iff_not, UInt32.not_le] using hnot

theorem usecToBin_lt (hcurrent : machineCurrentState machine mi = some state)
    (htwo : 2 ≤ state.histogramLen) (usec : UInt32) :
    histogramUsecToBin machine mi usec < state.histogramLen - 1 := by
  rw [usecToBin_def hcurrent]
  cases hfind : (List.range (state.histogramLen - 1)).find?
      (fun bin => usec ≤ lookupBound machine mi state bin) with
  | none =>
    rw [Option.getD_none]
    omega
  | some b =>
    rw [Option.getD_some]
    exact List.mem_range.mp (List.mem_of_find?_eq_some hfind)

/-- With two bins to find, the lookup returns the first one exactly up to its bound. -/
theorem usecToBin_eq_zero_iff (hcurrent : machineCurrentState machine mi = some state)
    (hthree : 3 ≤ state.histogramLen) :
    histogramUsecToBin machine mi usec = 0 ↔ usec ≤ lookupBound machine mi state 0 := by
  constructor
  · intro hzero
    by_contra hle
    rw [usecToBin_def hcurrent] at hzero
    cases hfind : (List.range (state.histogramLen - 1)).find?
        (fun bin => usec ≤ lookupBound machine mi state bin) with
    | none =>
      rw [hfind, Option.getD_none] at hzero
      omega
    | some b =>
      rw [hfind, Option.getD_some] at hzero
      have hb := List.find?_some hfind
      rw [hzero] at hb
      exact hle (of_decide_eq_true hb)
  · intro hle
    exact usecToBin_eq hcurrent (by omega) hle fun c hc => absurd hc (Nat.not_lt_zero c)

/-! ### Nothing added -/

section NothingAdded

variable (hcurrent : machineCurrentState machine mi = some state) (hrtt : rttAddUsec state mi = 0)
include hcurrent hrtt

theorem toNat_binToUsec_of_zero (hb : b < state.histogramLen) :
    (histogramBinToUsec machine mi b).toNat = state.edge b := by
  have hzero : (0 : UInt32).toNat = 0 := rfl
  rw [toNat_binToUsec hcurrent hb, hrtt, hzero, Nat.add_zero, Nat.mod_eq_of_lt edge_lt_size]

theorem toNat_upperBound_of_zero (hinc : Increasing state.histogramEdges)
    (hb : b + 1 < state.histogramLen) :
    (histogramGetBinUpperBound machine mi b).toNat = state.edge (b + 1) - 1 := by
  have hpos : state.edge b < state.edge (b + 1) := edge_lt hinc (Nat.lt_succ_self b) hb
  have hsize : state.edge (b + 1) < 4294967296 := edge_lt_size
  have hzero : (0 : UInt32).toNat = 0 := rfl
  rw [toNat_upperBound hcurrent hb, hrtt, hzero]
  omega

omit hcurrent in
theorem lookupBound_of_zero : lookupBound machine mi state b = histogramGetBinUpperBound machine mi b := by
  unfold lookupBound
  rw [hrtt, UInt32.add_zero]

theorem upperBound_lt_of_mem (hinc : Increasing state.histogramEdges)
    (hb : b < state.histogramLen - 1) (hle : histogramBinToUsec machine mi b ≤ usec) (hc : c < b) :
    histogramGetBinUpperBound machine mi c < usec := by
  rw [UInt32.lt_iff_toNat_lt, toNat_upperBound_of_zero hcurrent hrtt hinc (by omega)]
  rw [UInt32.le_iff_toNat_le, toNat_binToUsec_of_zero hcurrent hrtt (by omega)] at hle
  have hpos : state.edge c < state.edge (c + 1) := edge_lt hinc (Nat.lt_succ_self c) (by omega)
  rcases Nat.lt_or_eq_of_le (Nat.succ_le_of_lt hc) with hlt | rfl
  · have hedge : state.edge (c + 1) < state.edge b := edge_lt hinc hlt (by omega)
    omega
  · rw [Nat.succ_eq_add_one] at hle
    omega

/-- **Without an estimate** the lookup inverts the edges. -/
theorem inverts_of_rttAddUsec_eq_zero (hinc : Increasing state.histogramEdges)
    (htwo : 2 ≤ state.histogramLen) : Inverts machine mi state usec := by
  refine ⟨?_, ?_, ?_⟩
  · intro b hb hlower hupper
    refine usecToBin_eq hcurrent hb ?_ ?_
    · rwa [lookupBound_of_zero hrtt]
    · intro c hc
      rw [lookupBound_of_zero hrtt]
      exact upperBound_lt_of_mem hcurrent hrtt hinc hb hlower hc
  · intro hbelow
    have hlower := UInt32.lt_iff_toNat_lt.mp (hbelow 0 (by omega))
    rw [toNat_binToUsec_of_zero hcurrent hrtt (by omega)] at hlower
    have hedge : state.edge 0 < state.edge (0 + 1) := edge_lt hinc Nat.zero_lt_one (by omega)
    refine usecToBin_eq hcurrent (by omega) ?_ fun c hc => absurd hc (Nat.not_lt_zero c)
    rw [lookupBound_of_zero hrtt, UInt32.le_iff_toNat_le,
      toNat_upperBound_of_zero hcurrent hrtt hinc (by omega)]
    omega
  · intro habove
    refine usecToBin_last hcurrent fun b hb => ?_
    rw [lookupBound_of_zero hrtt]
    exact habove b hb

end NothingAdded

/-! ### Edges that wrap around

The bounds are 32-bit numbers.  `e` is an edge and `r` the estimate that is added to it. -/

section Wrapping

variable {e e₀ e₁ e₂ r : ℕ}

/-- If the second bin wraps around, the upper bounds of all bins are below its lower bound. -/
theorem upper_lt_lower_of_wrapped (h12 : e₁ < e₂) (he : e = e₁ ∨ e₂ ≤ e) (hsize : e < 4294967296)
    (h : ((e₂ + r) % 4294967296 + 4294967295) % 4294967296 < (e₁ + r) % 4294967296) :
    ((e + r) % 4294967296 + 4294967295) % 4294967296 < (e₁ + r) % 4294967296 := by
  omega

/-- If the first bin wraps around, its upper bound is below the lower bounds of all bins. -/
theorem upper_lt_lower_of_first_wrapped (h01 : e₀ < e₁) (he : e = e₀ ∨ e₁ ≤ e) (hsize : e < 4294967296)
    (h : ((e₁ + r) % 4294967296 + 4294967295) % 4294967296 < (e₀ + r) % 4294967296) :
    ((e₁ + r) % 4294967296 + 4294967295) % 4294967296 < (e + r) % 4294967296 := by
  omega

/-- If the second addition takes the upper bound below the next lower bound, it wraps around. -/
theorem lookup_lt_upper (hr : r < 4294967296) (hne : r ≠ 0)
    (h : (((e + r) % 4294967296 + 4294967295) % 4294967296 + r) % 4294967296 < (e + r) % 4294967296) :
    (((e + r) % 4294967296 + 4294967295) % 4294967296 + r) % 4294967296
      < ((e + r) % 4294967296 + 4294967295) % 4294967296 := by
  omega

end Wrapping

/-! ### An estimate added -/

/-- With one bin to find there is nothing to look up. -/
theorem inverts_of_histogramLen_eq_two (hcurrent : machineCurrentState machine mi = some state)
    (htwo : state.histogramLen = 2) : Inverts machine mi state usec := by
  have hzero : histogramUsecToBin machine mi usec = 0 := by
    have hlt := usecToBin_lt hcurrent (Nat.le_of_eq htwo.symm) usec
    omega
  refine ⟨?_, ?_, ?_⟩
  · intro b hb _ _
    omega
  · intro _
    exact hzero
  · intro _
    rw [hzero, htwo]

/-- A delay that the lookup takes for one in the first bin, and that is in the second one or above all. -/
theorem not_inverts_of_eq_zero (hthree : 3 ≤ state.histogramLen)
    (hzero : histogramUsecToBin machine mi usec = 0)
    (hmem : histogramBinToUsec machine mi 1 ≤ usec ∧ usec ≤ histogramGetBinUpperBound machine mi 1 ∨
      ∀ b, b < state.histogramLen - 1 → histogramGetBinUpperBound machine mi b < usec) :
    ¬Inverts machine mi state usec := by
  intro ⟨hinside, _, habove⟩
  rcases hmem with ⟨hlower, hupper⟩ | hall
  · have hone := hinside 1 (by omega) hlower hupper
    omega
  · have hlast := habove hall
    omega

/-- A delay that the lookup does not take for one in the first bin, and that is in it or below all. -/
theorem not_inverts_of_ne_zero (hthree : 3 ≤ state.histogramLen)
    (hzero : histogramUsecToBin machine mi usec ≠ 0)
    (hmem : histogramBinToUsec machine mi 0 ≤ usec ∧ usec ≤ histogramGetBinUpperBound machine mi 0 ∨
      ∀ b, b < state.histogramLen - 1 → usec < histogramBinToUsec machine mi b) :
    ¬Inverts machine mi state usec := by
  intro ⟨hinside, hbelow, _⟩
  rcases hmem with ⟨hlower, hupper⟩ | hall
  · exact hzero (hinside 0 (by omega) hlower hupper)
  · exact hzero (hbelow hall)

/-- **With an estimate** there is a delay that the lookup takes for one in a wrong bin: the lower bound of
the second bin, or where the second addition wraps around the upper bound of the first one. -/
theorem exists_not_inverts (hcurrent : machineCurrentState machine mi = some state)
    (hinc : Increasing state.histogramEdges) (hthree : 3 ≤ state.histogramLen)
    (hrtt : rttAddUsec state mi ≠ 0) : ∃ usec, ¬Inverts machine mi state usec := by
  have hr : (rttAddUsec state mi).toNat ≠ 0 := by
    intro hzero
    exact hrtt (UInt32.toNat_inj.mp hzero)
  have hrlt : (rttAddUsec state mi).toNat < 4294967296 := UInt32.toNat_lt _
  have h01 : state.edge 0 < state.edge 1 := edge_lt hinc Nat.zero_lt_one (by omega)
  have h12 : state.edge 1 < state.edge 2 := edge_lt hinc Nat.one_lt_two (by omega)
  have hlower : ∀ b, b < state.histogramLen → (histogramBinToUsec machine mi b).toNat
      = (state.edge b + (rttAddUsec state mi).toNat) % 4294967296 := fun b => toNat_binToUsec hcurrent
  have hupper : ∀ b, b + 1 < state.histogramLen → (histogramGetBinUpperBound machine mi b).toNat
      = ((state.edge (b + 1) + (rttAddUsec state mi).toNat) % 4294967296 + 4294967295) % 4294967296 :=
    fun b => toNat_upperBound hcurrent
  have hbound := toNat_lookupBound hcurrent (show 0 + 1 < state.histogramLen by omega)
  by_cases hle : histogramBinToUsec machine mi 1 ≤ lookupBound machine mi state 0
  · refine ⟨histogramBinToUsec machine mi 1, not_inverts_of_eq_zero hthree
      ((usecToBin_eq_zero_iff hcurrent hthree).mpr hle) ?_⟩
    by_cases hmem : histogramBinToUsec machine mi 1 ≤ histogramGetBinUpperBound machine mi 1
    · exact .inl ⟨UInt32.le_refl _, hmem⟩
    · rw [UInt32.not_le, UInt32.lt_iff_toNat_lt, hlower 1 (by omega), hupper 1 (by omega)] at hmem
      refine .inr fun b hb => ?_
      rw [UInt32.lt_iff_toNat_lt, hlower 1 (by omega), hupper b (by omega)]
      refine upper_lt_lower_of_wrapped h12 ?_ edge_lt_size hmem
      cases b with
      | zero => exact .inl rfl
      | succ b => exact .inr (edge_le hinc (by omega) (by omega))
  · rw [UInt32.not_le, UInt32.lt_iff_toNat_lt, hlower 1 (by omega), hbound] at hle
    refine ⟨histogramGetBinUpperBound machine mi 0, not_inverts_of_ne_zero hthree ?_ ?_⟩
    · rw [Ne, usecToBin_eq_zero_iff hcurrent hthree, UInt32.not_le, UInt32.lt_iff_toNat_lt, hbound,
        hupper 0 (by omega)]
      exact lookup_lt_upper hrlt hr hle
    by_cases hmem : histogramBinToUsec machine mi 0 ≤ histogramGetBinUpperBound machine mi 0
    · exact .inl ⟨hmem, UInt32.le_refl _⟩
    · rw [UInt32.not_le, UInt32.lt_iff_toNat_lt, hlower 0 (by omega), hupper 0 (by omega)] at hmem
      refine .inr fun b hb => ?_
      rw [UInt32.lt_iff_toNat_lt, hupper 0 (by omega), hlower b (by omega)]
      refine upper_lt_lower_of_first_wrapped h01 ?_ edge_lt_size hmem
      cases b with
      | zero => exact .inl rfl
      | succ b => exact .inr (edge_le hinc (by omega) (by omega))

/-- **Lookups.**  For a state with increasing edges the lookup inverts the edges, for every delay, exactly if
nothing is added to the edges or there is only one bin to find. -/
theorem inverts_iff (hcurrent : machineCurrentState machine mi = some state)
    (hinc : Increasing state.histogramEdges) (htwo : 2 ≤ state.histogramLen) :
    (∀ usec, Inverts machine mi state usec) ↔ rttAddUsec state mi = 0 ∨ state.histogramLen = 2 := by
  constructor
  · intro hall
    by_contra hne
    obtain ⟨hrtt, hlen⟩ := not_or.mp hne
    obtain ⟨usec, hnot⟩ := exists_not_inverts hcurrent hinc (by omega) hrtt
    exact hnot (hall usec)
  · rintro (hrtt | hlen) usec
    · exact inverts_of_rttAddUsec_eq_zero hcurrent hrtt hinc htwo
    · exact inverts_of_histogramLen_eq_two hcurrent hlen

end Bins

/-! ### A state that asks for an estimate -/

/-- A state with two bins to find and an estimate added to its edges. -/
def rttState : State where
  histogram := [1, 1, 0]
  histogramEdges := [0, 100, 200]
  length_histogramEdges := rfl
  length_histogram_le := by decide
  histogramTotalTokens := 2
  iatDist := .none
  distAddedShiftUsec := 0
  lengthDist := .none
  lengthIncludesNonpadding := false
  nextState := [65534, 65534, 65534, 65534, 65534, 65534, 65534]
  useRttEstimate := true
  tokenRemoval := .closest

def rttMachine : MachineSpec where
  isOriginSide := false
  shouldNegotiateEnd := false
  allowedPaddingCount := 0
  maxPaddingPercent := 0
  states := [rttState]

theorem increasing_rttState : Increasing rttState.histogramEdges :=
  (increasing_of_stateIsValid (by decide) (by decide)).2

/-- Without a measured round trip the lookup of this state inverts its edges. -/
theorem inverts_iff_rttState :
    (∀ usec, Inverts rttMachine machineinfoNew rttState usec) ↔
      rttAddUsec rttState machineinfoNew = 0 ∨ rttState.histogramLen = 2 :=
  inverts_iff rfl increasing_rttState (by decide)

/-- With a round trip of 50 microseconds the second bin starts at 150, and the lookup of 150 returns the
first one. -/
theorem not_inverts_rttState :
    stateIsValid rttState = true ∧
      histogramBinToUsec rttMachine { machineinfoNew with rttEstimateUsec := 50 } 1 ≤ 150 ∧
      150 ≤ histogramGetBinUpperBound rttMachine { machineinfoNew with rttEstimateUsec := 50 } 1 ∧
      histogramUsecToBin rttMachine { machineinfoNew with rttEstimateUsec := 50 } 150 = 0 ∧
      ¬Inverts rttMachine { machineinfoNew with rttEstimateUsec := 50 } rttState 150 := by
  refine ⟨by decide, by decide, by decide, by decide, ?_⟩
  intro h
  exact absurd (h.1 1 (by decide) (by decide) (by decide)) (by decide)

end TorEbpf.Or.Circpad
