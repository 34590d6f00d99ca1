import TorEbpf.Lib.Scan
import TorEbpf.Or.CircpadBins

/-!
# Removing tokens

When a cell is sent that is not padding, a token is removed from the bin of the delay since the last cell.
If that bin is empty, the strategy of the state says which bin is taken instead.

* `between` — without an estimate, each bin with tokens is behind what one of the scans has found;
* `performRemoval_spec` — what each strategy takes, and that nothing else changes;
* `not_firstAtOrAbove` — with a delay above the bins nothing is taken from the highest one.
-/

namespace TorEbpf.Or.Circpad

open TorEbpf.Lib

/-! ### The runtime histogram -/

/-- `mi->histogram[bin]`. -/
def Runtime.tokensAt (mi : Runtime) (bin : ℕ) : UInt32 := (mi.histogram.getD []).getD bin 0

def Runtime.histogramLen (mi : Runtime) : ℕ := (mi.histogram.getD []).length

/-- `mi->histogram[bin]--`. -/
def Runtime.takeToken (mi : Runtime) (bin : ℕ) : Runtime :=
  { mi with histogram := mi.histogram.map fun h => h.set bin (h.getD bin 0 - 1) }

/-! ### Strategies -/

/-- `circpad_machine_first_higher_index`; `none` for `histogram_len`. -/
def machineFirstHigherIndex (machine : MachineSpec) (mi : Runtime) (targetBinUsec : UInt32) : Option ℕ :=
  scanUp (fun bin => mi.tokensAt bin ≠ 0 ∧ targetBinUsec ≤ histogramGetBinUpperBound machine mi bin)
    (histogramUsecToBin machine mi targetBinUsec) (mi.histogramLen - 1)

/-- `circpad_machine_first_lower_index`; `none` for `-1`. -/
def machineFirstLowerIndex (machine : MachineSpec) (mi : Runtime) (targetBinUsec : UInt32) : Option ℕ :=
  scanDown (fun bin => mi.tokensAt bin ≠ 0 ∧ histogramBinToUsec machine mi bin ≤ targetBinUsec)
    (histogramUsecToBin machine mi targetBinUsec)

/-- The last check of `circpad_machine_remove_higher_token` and `circpad_machine_remove_lower_token`. -/
def removeChecked (mi : Runtime) : Option ℕ → Runtime
  | none => mi
  | some bin => if bin < mi.histogramLen - 1 ∧ mi.tokensAt bin ≠ 0 then mi.takeToken bin else mi

def machineRemoveHigherToken (machine : MachineSpec) (mi : Runtime) (targetBinUsec : UInt32) : Runtime :=
  removeChecked mi (machineFirstHigherIndex machine mi targetBinUsec)

def machineRemoveLowerToken (machine : MachineSpec) (mi : Runtime) (targetBinUsec : UInt32) : Runtime :=
  removeChecked mi (machineFirstLowerIndex machine mi targetBinUsec)

/-- `ENSURE_BIN_CAPACITY`, and the removal behind it. -/
def removeEnsured (mi : Runtime) (bin : ℕ) : Runtime :=
  if mi.tokensAt bin = 0 then mi else mi.takeToken bin

def machineRemoveClosestToken (machine : MachineSpec) (mi : Runtime) (targetBinUsec : UInt32)
    (useUsec : Bool) : Runtime :=
  let lower := machineFirstLowerIndex machine mi targetBinUsec
  let higher := machineFirstHigherIndex machine mi targetBinUsec
  let current := histogramUsecToBin machine mi targetBinUsec
  if (∃ l ∈ lower, current < l) ∨ ∃ k ∈ higher, k < current then mi
  else
    match lower, higher with
    | none, none => mi
    | some lower, none => removeEnsured mi lower
    | none, some higher => removeEnsured mi higher
    | some lower, some higher =>
        if useUsec then
          let lowerUsec := getHistogramBinMidpoint machine mi lower
          let higherUsec := getHistogramBinMidpoint machine mi higher
          if targetBinUsec < lowerUsec then removeEnsured mi lower
          else if higherUsec < targetBinUsec then removeEnsured mi higher
          else if higherUsec - targetBinUsec < targetBinUsec - lowerUsec then removeEnsured mi higher
          else removeEnsured mi lower
        else if higher - current < current - lower then removeEnsured mi higher
        else removeEnsured mi lower

def machineRemoveExact (machine : MachineSpec) (mi : Runtime) (targetBinUsec : UInt32) : Runtime :=
  let bin := histogramUsecToBin machine mi targetBinUsec
  if 0 < mi.tokensAt bin then mi.takeToken bin else mi

/-- The switch of `circpad_machine_remove_token`. -/
def performRemoval (removal : Removal) (machine : MachineSpec) (mi : Runtime) (targetBinUsec : UInt32) :
    Runtime :=
  match removal with
  | .closestUsec => machineRemoveClosestToken machine mi targetBinUsec true
  | .closest => machineRemoveClosestToken machine mi targetBinUsec false
  | .lower => machineRemoveLowerToken machine mi targetBinUsec
  | .higher => machineRemoveHigherToken machine mi targetBinUsec
  | .exact => machineRemoveExact machine mi targetBinUsec
  | .none => mi

/-- `circpad_machine_remove_token`; the time is what `monotime_absolute_usec` returns. -/
def machineRemoveToken (machine : MachineSpec) (currentTime : UInt64) (mi : Runtime) : Runtime :=
  if mi.paddingScheduledAtUsec = 0 then mi
  else
    match machineCurrentState machine mi with
    | none => mi
    | some state =>
        if state.tokenRemoval = .none then mi
        else
          let delay := currentTime - mi.paddingScheduledAtUsec
          let targetBinUsec := (if delay < 4294967294 then delay else 4294967294).toUInt32
          performRemoval state.tokenRemoval machine
            { mi with paddingScheduledAtUsec := 0, isPaddingTimerScheduled := false } targetBinUsec

/-! ### What a strategy takes -/

/-- The tokens are removed from one bin at most. -/
def Runtime.takeToken? (mi : Runtime) : Option ℕ → Runtime
  | none => mi
  | some bin => mi.takeToken bin

def distance (a b : ℕ) : ℕ := max a b - min a b

/-- What each strategy says about the bin that it takes, if it takes one; `t` is the bin of the delay. -/
def Takes (machine : MachineSpec) (mi : Runtime) (state : State) (usec : UInt32) (t : ℕ) (bin : Option ℕ) :
    Removal → Prop
  | .none => bin = none
  | .higher => ∀ b, bin = some b ↔
      IsLeast {c | t ≤ c ∧ c < state.histogramLen - 1 ∧ mi.tokensAt c ≠ 0 ∧
        usec ≤ histogramGetBinUpperBound machine mi c} b
  | .lower => ∀ b, bin = some b ↔
      IsGreatest {c | c ≤ t ∧ mi.tokensAt c ≠ 0 ∧ histogramBinToUsec machine mi c ≤ usec} b
  | .exact => ∀ b, bin = some b ↔ b = t ∧ mi.tokensAt t ≠ 0
  | .closest => rttAddUsec state mi = 0 →
      (bin = none ↔ ∀ c, c < state.histogramLen - 1 → mi.tokensAt c = 0) ∧
      ∀ b, bin = some b → ∀ c, c < state.histogramLen - 1 → mi.tokensAt c ≠ 0 →
        distance b t ≤ distance c t
  | .closestUsec => rttAddUsec state mi = 0 →
      (bin = none ↔ ∀ c, c < state.histogramLen - 1 → mi.tokensAt c = 0) ∧
      ∀ b, bin = some b → (mi.tokensAt t ≠ 0 → b = t) ∧
        (mi.tokensAt t = 0 → ∀ c, c < state.histogramLen - 1 → mi.tokensAt c ≠ 0 →
          distance (getHistogramBinMidpoint machine mi b).toNat usec.toNat
            ≤ distance (getHistogramBinMidpoint machine mi c).toNat usec.toNat)

section Scans

variable {machine : MachineSpec} {mi : Runtime} {state : State} {h : List UInt32} {usec : UInt32}
  {b c l k : ℕ}

theorem HasTokens.tokensAt (ht : HasTokens machine mi state h) : mi.tokensAt b = h.getD b 0 := by
  rw [Runtime.tokensAt, ht.histogram]
  rfl

theorem HasTokens.histogramLen (ht : HasTokens machine mi state h) :
    mi.histogramLen = state.histogramLen := by
  rw [Runtime.histogramLen, ht.histogram, ← ht.length]
  rfl

theorem HasTokens.takeToken (ht : HasTokens machine mi state h) :
    mi.takeToken b = { mi with histogram := some (h.set b (h.getD b 0 - 1)) } := by
  rw [Runtime.takeToken, ht.histogram]
  rfl

theorem firstHigherIndex_eq_some_iff (ht : HasTokens machine mi state h) :
    machineFirstHigherIndex machine mi usec = some b ↔
      IsLeast {c | histogramUsecToBin machine mi usec ≤ c ∧ c < state.histogramLen - 1 ∧
        mi.tokensAt c ≠ 0 ∧ usec ≤ histogramGetBinUpperBound machine mi c} b := by
  rw [machineFirstHigherIndex, scanUp_eq_some_iff, ht.histogramLen]
  simp only [decide_eq_true_eq]

theorem firstHigherIndex_eq_none_iff (ht : HasTokens machine mi state h) :
    machineFirstHigherIndex machine mi usec = none ↔
      ∀ c, histogramUsecToBin machine mi usec ≤ c → c < state.histogramLen - 1 →
        ¬(mi.tokensAt c ≠ 0 ∧ usec ≤ histogramGetBinUpperBound machine mi c) := by
  rw [machineFirstHigherIndex, scanUp_eq_none_iff, ht.histogramLen]
  simp only [decide_eq_false_iff_not]

theorem firstLowerIndex_eq_some_iff :
    machineFirstLowerIndex machine mi usec = some b ↔
      IsGreatest {c | c ≤ histogramUsecToBin machine mi usec ∧ mi.tokensAt c ≠ 0 ∧
        histogramBinToUsec machine mi c ≤ usec} b := by
  rw [machineFirstLowerIndex, scanDown_eq_some_iff]
  simp only [decide_eq_true_eq]

theorem firstLowerIndex_eq_none_iff :
    machineFirstLowerIndex machine mi usec = none ↔
      ∀ c, c ≤ histogramUsecToBin machine mi usec →
        ¬(mi.tokensAt c ≠ 0 ∧ histogramBinToUsec machine mi c ≤ usec) := by
  rw [machineFirstLowerIndex, scanDown_eq_none_iff]
  simp only [decide_eq_false_iff_not]

/-- What the downward scan finds is not above the bin of the delay, and has tokens. -/
theorem firstLowerIndex_spec (hl : machineFirstLowerIndex machine mi usec = some l) :
    l ≤ histogramUsecToBin machine mi usec ∧ mi.tokensAt l ≠ 0 ∧ histogramBinToUsec machine mi l ≤ usec :=
  (firstLowerIndex_eq_some_iff.mp hl).1

/-- What the upward scan finds is not below the bin of the delay, and has tokens. -/
theorem firstHigherIndex_spec (ht : HasTokens machine mi state h)
    (hk : machineFirstHigherIndex machine mi usec = some k) :
    histogramUsecToBin machine mi usec ≤ k ∧ k < state.histogramLen - 1 ∧ mi.tokensAt k ≠ 0 ∧
      usec ≤ histogramGetBinUpperBound machine mi k :=
  ((firstHigherIndex_eq_some_iff ht).mp hk).1

end Scans

/-! ### Without an estimate -/

section NothingAdded

variable {machine : MachineSpec} {mi : Runtime} {state : State} {h : List UInt32} {usec : UInt32}
  {b c l k : ℕ}
variable (ht : Tokens machine mi state h) (hrtt : rttAddUsec state mi = 0)
include ht hrtt

theorem binToUsec_le_iff (hb : b < state.histogramLen) :
    histogramBinToUsec machine mi b ≤ usec ↔ state.edge b ≤ usec.toNat := by
  rw [UInt32.le_iff_toNat_le, toNat_binToUsec_of_zero ht.current hrtt hb]

theorem le_upperBound_iff (hb : b + 1 < state.histogramLen) :
    usec ≤ histogramGetBinUpperBound machine mi b ↔ usec.toNat < state.edge (b + 1) := by
  have hpos : state.edge b < state.edge (b + 1) := edge_lt ht.increasing (Nat.lt_succ_self b) hb
  rw [UInt32.le_iff_toNat_le, toNat_upperBound_of_zero ht.current hrtt ht.increasing hb]
  omega

/-- Where the delay is: in its bin, below the first bin, or above the last one before the infinity bin. -/
theorem located (usec : UInt32) :
    histogramUsecToBin machine mi usec + 1 < state.histogramLen ∧
      (state.edge (histogramUsecToBin machine mi usec) ≤ usec.toNat ∧
          usec.toNat < state.edge (histogramUsecToBin machine mi usec + 1) ∨
        histogramUsecToBin machine mi usec = 0 ∧ usec.toNat < state.edge 0 ∨
        histogramUsecToBin machine mi usec + 1 = state.histogramLen - 1 ∧
          state.edge (state.histogramLen - 1) ≤ usec.toNat) := by
  have htwo := ht.two_le
  have hlt := usecToBin_lt ht.current htwo usec
  have hbound : ∀ c, c + 1 < state.histogramLen →
      (usec ≤ lookupBound machine mi state c ↔ usec.toNat < state.edge (c + 1)) := by
    intro c hc
    rw [lookupBound_of_zero hrtt, le_upperBound_iff ht hrtt hc]
  refine ⟨by omega, ?_⟩
  rcases usecToBin_cases ht.current usec with ⟨hle, hfirst⟩ | ⟨hlast, hall⟩
  · rw [hbound _ (by omega)] at hle
    by_cases hlower : state.edge (histogramUsecToBin machine mi usec) ≤ usec.toNat
    · exact .inl ⟨hlower, hle⟩
    · refine .inr (.inl ?_)
      cases hzero : histogramUsecToBin machine mi usec with
      | zero =>
        rw [hzero] at hlower
        exact ⟨rfl, Nat.lt_of_not_le hlower⟩
      | succ t =>
        have hbefore := hfirst t (by omega)
        rw [← UInt32.not_le, hbound t (by omega)] at hbefore
        rw [hzero] at hlower
        exact absurd (Nat.le_of_not_lt hbefore) hlower
  · have habove := hall (state.histogramLen - 1 - 1) (by omega)
    have hone : state.histogramLen - 1 - 1 + 1 = state.histogramLen - 1 := by omega
    rw [← UInt32.not_le, hbound _ (by omega), hone] at habove
    exact .inr (.inr ⟨by omega, Nat.le_of_not_lt habove⟩)

/-- **Between the scans.**  A bin with tokens is at or below what the downward scan has found, or at or
above what the upward scan has found. -/
theorem between (usec : UInt32) (hc : c < state.histogramLen - 1) (hne : mi.tokensAt c ≠ 0) :
    (∃ l, machineFirstLowerIndex machine mi usec = some l ∧ c ≤ l) ∨
      ∃ k, machineFirstHigherIndex machine mi usec = some k ∧ k ≤ c := by
  have hside : c ≤ histogramUsecToBin machine mi usec ∧ histogramBinToUsec machine mi c ≤ usec ∨
      histogramUsecToBin machine mi usec ≤ c ∧ usec ≤ histogramGetBinUpperBound machine mi c := by
    rw [binToUsec_le_iff ht hrtt (by omega), le_upperBound_iff ht hrtt (by omega)]
    obtain ⟨hlt, ⟨hlower, hupper⟩ | ⟨hzero, hbelow⟩ | ⟨hlast, habove⟩⟩ := located ht hrtt usec
    · rcases Nat.lt_or_ge (histogramUsecToBin machine mi usec) c |>.symm with hle | hgt
      · exact .inl ⟨hle, (edge_le ht.increasing hle (by omega)).trans hlower⟩
      · exact .inr ⟨Nat.le_of_lt hgt, hupper.trans_le (edge_le ht.increasing (by omega) (by omega))⟩
    · exact .inr ⟨by omega, hbelow.trans_le (edge_le ht.increasing (by omega) (by omega))⟩
    · exact .inl ⟨by omega, (edge_le ht.increasing (by omega) (by omega)).trans habove⟩
  rcases hside with ⟨hle, hlower⟩ | ⟨hle, hupper⟩
  · refine .inl ?_
    cases hl : machineFirstLowerIndex machine mi usec with
    | none => exact absurd ⟨hne, hlower⟩ (firstLowerIndex_eq_none_iff.mp hl c hle)
    | some l => exact ⟨l, rfl, (firstLowerIndex_eq_some_iff.mp hl).2 ⟨hle, hne, hlower⟩⟩
  · refine .inr ?_
    cases hk : machineFirstHigherIndex machine mi usec with
    | none => exact absurd ⟨hne, hupper⟩ ((firstHigherIndex_eq_none_iff ht.toHasTokens).mp hk c hle hc)
    | some k => exact ⟨k, rfl, ((firstHigherIndex_eq_some_iff ht.toHasTokens).mp hk).2 ⟨hle, hc, hne, hupper⟩⟩

theorem midpoint_mem (hb : b + 1 < state.histogramLen) :
    state.edge b ≤ (getHistogramBinMidpoint machine mi b).toNat ∧
      (getHistogramBinMidpoint machine mi b).toNat < state.edge (b + 1) := by
  have hpos : state.edge b < state.edge (b + 1) := edge_lt ht.increasing (Nat.lt_succ_self b) hb
  have hsize : state.edge (b + 1) < 4294967296 := edge_lt_size
  have hleft := toNat_binToUsec_of_zero ht.current hrtt (show b < state.histogramLen by omega)
  have hright := toNat_upperBound_of_zero ht.current hrtt ht.increasing hb
  have hle : histogramBinToUsec machine mi b ≤ histogramGetBinUpperBound machine mi b := by
    rw [UInt32.le_iff_toNat_le, hleft, hright]
    omega
  have htwo : (2 : UInt32).toNat = 2 := rfl
  unfold getHistogramBinMidpoint
  dsimp only
  rw [UInt32.toNat_add, UInt32.toNat_div, UInt32.toNat_sub_of_le _ _ hle, hleft, hright, htwo]
  rw [Nat.mod_eq_of_lt (by omega)]
  omega

theorem midpoint_le (hbc : b ≤ c) (hc : c + 1 < state.histogramLen) :
    (getHistogramBinMidpoint machine mi b).toNat ≤ (getHistogramBinMidpoint machine mi c).toNat := by
  rcases Nat.lt_or_eq_of_le hbc with hlt | rfl
  · have hfirst := (midpoint_mem ht hrtt (show b + 1 < state.histogramLen by omega)).2
    have hsecond := (midpoint_mem ht hrtt hc).1
    have hedge := edge_le ht.increasing (Nat.succ_le_of_lt hlt) (by omega)
    exact Nat.le_trans (Nat.le_of_lt hfirst) (Nat.le_trans hedge hsecond)
  · exact Nat.le_refl _

end NothingAdded

/-! ### The closest bin -/

/-- The choice of `circpad_machine_remove_closest_token` between two bins. -/
def pickBin (machine : MachineSpec) (mi : Runtime) (usec : UInt32) (useUsec : Bool) (lower higher : ℕ) : ℕ :=
  if useUsec then
    if usec < getHistogramBinMidpoint machine mi lower then lower
    else if getHistogramBinMidpoint machine mi higher < usec then higher
    else if getHistogramBinMidpoint machine mi higher - usec < usec - getHistogramBinMidpoint machine mi lower
      then higher
    else lower
  else if higher - histogramUsecToBin machine mi usec < histogramUsecToBin machine mi usec - lower then higher
  else lower

/-- The bin that `circpad_machine_remove_closest_token` takes, if it takes one. -/
def closestBin (machine : MachineSpec) (mi : Runtime) (usec : UInt32) (useUsec : Bool) : Option ℕ :=
  match machineFirstLowerIndex machine mi usec, machineFirstHigherIndex machine mi usec with
  | none, none => none
  | some lower, none => some lower
  | none, some higher => some higher
  | some lower, some higher => some (pickBin machine mi usec useUsec lower higher)

section Closest

variable {machine : MachineSpec} {mi : Runtime} {state : State} {h : List UInt32} {usec : UInt32}
  {useUsec : Bool} {b c l k : ℕ}

theorem pickBin_eq_or : pickBin machine mi usec useUsec l k = l ∨ pickBin machine mi usec useUsec l k = k := by
  unfold pickBin
  split_ifs
  · exact .inl rfl
  · exact .inr rfl
  · exact .inr rfl
  · exact .inl rfl
  · exact .inr rfl
  · exact .inl rfl

theorem removeEnsured_of_ne (hne : mi.tokensAt b ≠ 0) : removeEnsured mi b = mi.takeToken b := if_neg hne

theorem removeClosestToken_eq (ht : HasTokens machine mi state h) :
    machineRemoveClosestToken machine mi usec useUsec = mi.takeToken? (closestBin machine mi usec useUsec) := by
  have hsane : ¬((∃ l ∈ machineFirstLowerIndex machine mi usec, histogramUsecToBin machine mi usec < l) ∨
      ∃ k ∈ machineFirstHigherIndex machine mi usec, k < histogramUsecToBin machine mi usec) := by
    rintro (⟨l, hl, hlt⟩ | ⟨k, hk, hlt⟩)
    · exact Nat.not_lt.mpr (firstLowerIndex_spec hl).1 hlt
    · exact Nat.not_lt.mpr (firstHigherIndex_spec ht hk).1 hlt
  unfold machineRemoveClosestToken closestBin
  rw [if_neg hsane]
  cases hl : machineFirstLowerIndex machine mi usec with
  | none =>
    cases hk : machineFirstHigherIndex machine mi usec with
    | none => rfl
    | some k => exact removeEnsured_of_ne (firstHigherIndex_spec ht hk).2.2.1
  | some l =>
    have hlne := removeEnsured_of_ne (firstLowerIndex_spec hl).2.1
    cases hk : machineFirstHigherIndex machine mi usec with
    | none => exact hlne
    | some k =>
      have hkne := removeEnsured_of_ne (firstHigherIndex_spec ht hk).2.2.1
      dsimp only
      rw [hlne, hkne]
      simp only [Runtime.takeToken?, pickBin, apply_ite mi.takeToken]

theorem found_of_closestBin (hb : closestBin machine mi usec useUsec = some b) :
    machineFirstLowerIndex machine mi usec = some b ∨ machineFirstHigherIndex machine mi usec = some b := by
  unfold closestBin at hb
  cases hl : machineFirstLowerIndex machine mi usec with
  | none =>
    cases hk : machineFirstHigherIndex machine mi usec with
    | none =>
      rw [hl, hk] at hb
      cases hb
    | some k =>
      rw [hl, hk] at hb
      exact .inr hb
  | some l =>
    cases hk : machineFirstHigherIndex machine mi usec with
    | none =>
      rw [hl, hk] at hb
      exact .inl hb
    | some k =>
      rw [hl, hk] at hb
      rcases @pickBin_eq_or machine mi usec useUsec l k with hpick | hpick
      · rw [← hpick]
        exact .inl hb
      · rw [← hpick]
        exact .inr hb

theorem closestBin_eq_none_iff : closestBin machine mi usec useUsec = none ↔
    machineFirstLowerIndex machine mi usec = none ∧ machineFirstHigherIndex machine mi usec = none := by
  unfold closestBin
  cases machineFirstLowerIndex machine mi usec with
  | none =>
    cases machineFirstHigherIndex machine mi usec with
    | none => exact ⟨fun _ => ⟨rfl, rfl⟩, fun _ => rfl⟩
    | some k => exact ⟨nofun, fun hnone => absurd hnone.2 nofun⟩
  | some l =>
    cases machineFirstHigherIndex machine mi usec with
    | none => exact ⟨nofun, fun hnone => absurd hnone.1 nofun⟩
    | some k => exact ⟨nofun, fun hnone => absurd hnone.1 nofun⟩

/-- The bin that is taken has tokens, and it is not the infinity bin. -/
theorem closestBin_spec (ht : Tokens machine mi state h)
    (hb : closestBin machine mi usec useUsec = some b) :
    b < state.histogramLen - 1 ∧ mi.tokensAt b ≠ 0 := by
  rcases found_of_closestBin hb with hl | hk
  · obtain ⟨hle, hne, _⟩ := firstLowerIndex_spec hl
    exact ⟨Nat.lt_of_le_of_lt hle (usecToBin_lt ht.current ht.two_le _), hne⟩
  · obtain ⟨_, hlt, hne, _⟩ := firstHigherIndex_spec ht.toHasTokens hk
    exact ⟨hlt, hne⟩

theorem closestBin_eq_none_iff_empty (ht : Tokens machine mi state h) (hrtt : rttAddUsec state mi = 0) :
    closestBin machine mi usec useUsec = none ↔ ∀ c, c < state.histogramLen - 1 → mi.tokensAt c = 0 := by
  rw [closestBin_eq_none_iff]
  constructor
  · intro ⟨hl, hk⟩ c hc
    by_contra hne
    rcases between ht hrtt usec hc hne with ⟨l, hl', _⟩ | ⟨k, hk', _⟩
    · rw [hl] at hl'
      cases hl'
    · rw [hk] at hk'
      cases hk'
  · intro hall
    constructor
    · cases hl : machineFirstLowerIndex machine mi usec with
      | none => rfl
      | some l =>
        obtain ⟨hle, hne, _⟩ := firstLowerIndex_spec hl
        exact absurd (hall l (Nat.lt_of_le_of_lt hle (usecToBin_lt ht.current ht.two_le _))) hne
    · cases hk : machineFirstHigherIndex machine mi usec with
      | none => rfl
      | some k =>
        obtain ⟨_, hlt, hne, _⟩ := firstHigherIndex_spec ht.toHasTokens hk
        exact absurd (hall k hlt) hne

/-- A measure of the distance that grows away from the delay on both sides.  What is taken has the least
distance of all bins with tokens if the choice between two bins goes by this measure. -/
theorem closestBin_least (ht : Tokens machine mi state h) (hrtt : rttAddUsec state mi = 0) (d : ℕ → ℕ)
    (hlower : ∀ l, machineFirstLowerIndex machine mi usec = some l → ∀ c, c ≤ l → d l ≤ d c)
    (hhigher : ∀ k, machineFirstHigherIndex machine mi usec = some k → ∀ c, k ≤ c →
      c < state.histogramLen - 1 → d k ≤ d c)
    (hpick : ∀ l k, machineFirstLowerIndex machine mi usec = some l →
      machineFirstHigherIndex machine mi usec = some k →
        d (pickBin machine mi usec useUsec l k) ≤ d l ∧ d (pickBin machine mi usec useUsec l k) ≤ d k)
    (hb : closestBin machine mi usec useUsec = some b) (hc : c < state.histogramLen - 1)
    (hne : mi.tokensAt c ≠ 0) : d b ≤ d c := by
  unfold closestBin at hb
  rcases between ht hrtt usec hc hne with ⟨l, hl, hle⟩ | ⟨k, hk, hle⟩
  · have hlc := hlower l hl c hle
    rw [hl] at hb
    cases hk : machineFirstHigherIndex machine mi usec with
    | none =>
      rw [hk] at hb
      cases hb
      exact hlc
    | some k =>
      rw [hk] at hb
      cases hb
      exact (hpick l k hl hk).1.trans hlc
  · have hkc := hhigher k hk c hle hc
    rw [hk] at hb
    cases hl : machineFirstLowerIndex machine mi usec with
    | none =>
      rw [hl] at hb
      cases hb
      exact hkc
    | some l =>
      rw [hl] at hb
      cases hb
      exact (hpick l k hl hk).2.trans hkc

theorem closestBin_distance (ht : Tokens machine mi state h) (hrtt : rttAddUsec state mi = 0)
    (hb : closestBin machine mi usec false = some b) (hc : c < state.histogramLen - 1)
    (hne : mi.tokensAt c ≠ 0) :
    distance b (histogramUsecToBin machine mi usec) ≤ distance c (histogramUsecToBin machine mi usec) := by
  refine closestBin_least ht hrtt (fun c => distance c (histogramUsecToBin machine mi usec)) ?_ ?_ ?_ hb hc hne
  · intro l hl c hle
    have hlt := (firstLowerIndex_spec hl).1
    simp only [distance]
    omega
  · intro k hk c hle _
    have hkt := (firstHigherIndex_spec ht.toHasTokens hk).1
    simp only [distance]
    omega
  · intro l k hl hk
    have hlt := (firstLowerIndex_spec hl).1
    have hkt := (firstHigherIndex_spec ht.toHasTokens hk).1
    rw [pickBin, if_neg Bool.false_ne_true]
    simp only [distance]
    split_ifs with hlt'
    · omega
    · omega

/-- What the downward scan has found is below an empty bin of the delay, with its midpoint. -/
theorem midpoint_lower_le (ht : Tokens machine mi state h) (hrtt : rttAddUsec state mi = 0)
    (hempty : mi.tokensAt (histogramUsecToBin machine mi usec) = 0)
    (hl : machineFirstLowerIndex machine mi usec = some l) :
    l + 1 < state.histogramLen ∧ (getHistogramBinMidpoint machine mi l).toNat ≤ usec.toNat := by
  obtain ⟨hle, hne, hlower⟩ := firstLowerIndex_spec hl
  have hlt : l < histogramUsecToBin machine mi usec := by
    refine Nat.lt_of_le_of_ne hle ?_
    rintro rfl
    exact hne hempty
  obtain ⟨hlen, hwhere⟩ := located ht hrtt usec
  have hmid := (midpoint_mem ht hrtt (show l + 1 < state.histogramLen by omega)).2
  have hnext : state.edge (l + 1) ≤ state.edge (histogramUsecToBin machine mi usec) :=
    edge_le ht.increasing hlt (by omega)
  refine ⟨by omega, ?_⟩
  rcases hwhere with ⟨hinside, _⟩ | ⟨hzero, _⟩ | ⟨hlast, habove⟩
  · omega
  · omega
  · have hedge : state.edge (histogramUsecToBin machine mi usec) ≤ state.edge (state.histogramLen - 1) :=
      edge_le ht.increasing (by omega) (by omega)
    omega

/-- What the upward scan has found is above an empty bin of the delay, with its midpoint. -/
theorem le_midpoint_higher (ht : Tokens machine mi state h) (hrtt : rttAddUsec state mi = 0)
    (hempty : mi.tokensAt (histogramUsecToBin machine mi usec) = 0)
    (hk : machineFirstHigherIndex machine mi usec = some k) :
    k + 1 < state.histogramLen ∧ usec.toNat ≤ (getHistogramBinMidpoint machine mi k).toNat := by
  obtain ⟨hle, hlen, hne, hupper⟩ := firstHigherIndex_spec ht.toHasTokens hk
  have hlt : histogramUsecToBin machine mi usec < k := by
    refine Nat.lt_of_le_of_ne hle ?_
    rintro rfl
    exact hne hempty
  obtain ⟨_, hwhere⟩ := located ht hrtt usec
  have hmid := (midpoint_mem ht hrtt (show k + 1 < state.histogramLen by omega)).1
  have hnext : state.edge (histogramUsecToBin machine mi usec + 1) ≤ state.edge k :=
    edge_le ht.increasing hlt (by omega)
  refine ⟨by omega, ?_⟩
  rcases hwhere with ⟨_, hinside⟩ | ⟨_, hbelow⟩ | ⟨hlast, _⟩
  · omega
  · have hedge : state.edge 0 ≤ state.edge k := edge_le ht.increasing (Nat.zero_le k) (by omega)
    omega
  · omega

theorem closestBin_usec_distance (ht : Tokens machine mi state h) (hrtt : rttAddUsec state mi = 0)
    (hempty : mi.tokensAt (histogramUsecToBin machine mi usec) = 0)
    (hb : closestBin machine mi usec true = some b) (hc : c < state.histogramLen - 1)
    (hne : mi.tokensAt c ≠ 0) :
    distance (getHistogramBinMidpoint machine mi b).toNat usec.toNat
      ≤ distance (getHistogramBinMidpoint machine mi c).toNat usec.toNat := by
  refine closestBin_least ht hrtt
    (fun c => distance (getHistogramBinMidpoint machine mi c).toNat usec.toNat) ?_ ?_ ?_ hb hc hne
  · intro l hl c hle
    obtain ⟨hlen, hmid⟩ := midpoint_lower_le ht hrtt hempty hl
    have hmono := midpoint_le ht hrtt hle hlen
    simp only [distance]
    omega
  · intro k hk c hle hc
    obtain ⟨_, hmid⟩ := le_midpoint_higher ht hrtt hempty hk
    have hmono := midpoint_le ht hrtt hle (by omega)
    simp only [distance]
    omega
  · intro l k hl hk
    obtain ⟨_, hlower⟩ := midpoint_lower_le ht hrtt hempty hl
    obtain ⟨_, hhigher⟩ := le_midpoint_higher ht hrtt hempty hk
    rw [pickBin, if_pos rfl, if_neg (by rw [UInt32.lt_iff_toNat_lt]; omega),
      if_neg (by rw [UInt32.lt_iff_toNat_lt]; omega)]
    simp only [UInt32.lt_iff_toNat_lt, UInt32.toNat_sub_of_le _ _ (UInt32.le_iff_toNat_le.mpr hlower),
      UInt32.toNat_sub_of_le _ _ (UInt32.le_iff_toNat_le.mpr hhigher), distance]
    split_ifs with hlt
    · omega
    · omega

theorem closestBin_eq_self (ht : Tokens machine mi state h) (hrtt : rttAddUsec state mi = 0)
    (hne : mi.tokensAt (histogramUsecToBin machine mi usec) ≠ 0)
    (hb : closestBin machine mi usec useUsec = some b) : b = histogramUsecToBin machine mi usec := by
  obtain ⟨hlen, hwhere⟩ := located ht hrtt usec
  rcases found_of_closestBin hb with hl | hk
  · obtain ⟨⟨hle, _, _⟩, hgreatest⟩ := firstLowerIndex_eq_some_iff.mp hl
    by_cases hlower : histogramBinToUsec machine mi (histogramUsecToBin machine mi usec) ≤ usec
    · exact Nat.le_antisymm hle (hgreatest ⟨Nat.le_refl _, hne, hlower⟩)
    · rw [binToUsec_le_iff ht hrtt (by omega)] at hlower
      rcases hwhere with ⟨hinside, _⟩ | ⟨hzero, _⟩ | ⟨hlast, habove⟩
      · exact absurd hinside hlower
      · omega
      · have hedge := edge_le ht.increasing (show histogramUsecToBin machine mi usec
          ≤ state.histogramLen - 1 by omega) (by omega)
        exact absurd (hedge.trans habove) hlower
  · obtain ⟨⟨hle, hlt, _, _⟩, hleast⟩ := (firstHigherIndex_eq_some_iff ht.toHasTokens).mp hk
    by_cases hupper : usec ≤ histogramGetBinUpperBound machine mi (histogramUsecToBin machine mi usec)
    · exact Nat.le_antisymm (hleast ⟨Nat.le_refl _, by omega, hne, hupper⟩) hle
    · rw [le_upperBound_iff ht hrtt (by omega)] at hupper
      rcases hwhere with ⟨_, hinside⟩ | ⟨hzero, hbelow⟩ | ⟨hlast, _⟩
      · exact absurd hinside hupper
      · have hedge := edge_le ht.increasing (show 0 ≤ histogramUsecToBin machine mi usec + 1 by omega) hlen
        exact absurd (hbelow.trans_le hedge) hupper
      · omega

end Closest

/-! ### Every strategy -/

section Removal

variable {machine : MachineSpec} {mi : Runtime} {state : State} {h : List UInt32} {usec : UInt32}
  {b : ℕ}

theorem removeChecked_some (ht : HasTokens machine mi state h) (hlt : b < state.histogramLen - 1)
    (hne : mi.tokensAt b ≠ 0) : removeChecked mi (some b) = mi.takeToken? (some b) :=
  if_pos ⟨by rwa [ht.histogramLen], hne⟩

theorem performRemoval_takes (ht : Tokens machine mi state h) (usec : UInt32) (removal : Removal) :
    ∃ bin : Option ℕ, performRemoval removal machine mi usec = mi.takeToken? bin ∧
      (∀ b, bin = some b → b < state.histogramLen - 1 ∧ mi.tokensAt b ≠ 0) ∧
      Takes machine mi state usec (histogramUsecToBin machine mi usec) bin removal := by
  cases removal with
  | none => exact ⟨none, rfl, nofun, rfl⟩
  | higher =>
    have hspec : ∀ b, machineFirstHigherIndex machine mi usec = some b →
        b < state.histogramLen - 1 ∧ mi.tokensAt b ≠ 0 := by
      intro b hb
      obtain ⟨_, hlt, hne, _⟩ := firstHigherIndex_spec ht.toHasTokens hb
      exact ⟨hlt, hne⟩
    refine ⟨machineFirstHigherIndex machine mi usec, ?_, hspec, fun b =>
      firstHigherIndex_eq_some_iff ht.toHasTokens⟩
    unfold performRemoval machineRemoveHigherToken
    cases hbin : machineFirstHigherIndex machine mi usec with
    | none => rfl
    | some b =>
      obtain ⟨hlt, hne⟩ := hspec b hbin
      exact removeChecked_some ht.toHasTokens hlt hne
  | lower =>
    have hspec : ∀ b, machineFirstLowerIndex machine mi usec = some b →
        b < state.histogramLen - 1 ∧ mi.tokensAt b ≠ 0 := by
      intro b hb
      obtain ⟨hle, hne, _⟩ := firstLowerIndex_spec hb
      exact ⟨Nat.lt_of_le_of_lt hle (usecToBin_lt ht.current ht.two_le _), hne⟩
    refine ⟨machineFirstLowerIndex machine mi usec, ?_, hspec, fun b => firstLowerIndex_eq_some_iff⟩
    unfold performRemoval machineRemoveLowerToken
    cases hbin : machineFirstLowerIndex machine mi usec with
    | none => rfl
    | some b =>
      obtain ⟨hlt, hne⟩ := hspec b hbin
      exact removeChecked_some ht.toHasTokens hlt hne
  | closest =>
    refine ⟨closestBin machine mi usec false, removeClosestToken_eq ht.toHasTokens,
      fun b hb => closestBin_spec ht hb, fun hrtt => ⟨closestBin_eq_none_iff_empty ht hrtt, ?_⟩⟩
    intro b hb c hc hne
    exact closestBin_distance ht hrtt hb hc hne
  | closestUsec =>
    refine ⟨closestBin machine mi usec true, removeClosestToken_eq ht.toHasTokens,
      fun b hb => closestBin_spec ht hb, fun hrtt => ⟨closestBin_eq_none_iff_empty ht hrtt, ?_⟩⟩
    intro b hb
    refine ⟨fun hne => closestBin_eq_self ht hrtt hne hb, fun hempty c hc hne => ?_⟩
    exact closestBin_usec_distance ht hrtt hempty hb hc hne
  | exact =>
    have hlt := usecToBin_lt ht.current ht.two_le usec
    unfold performRemoval machineRemoveExact
    by_cases hne : mi.tokensAt (histogramUsecToBin machine mi usec) = 0
    · refine ⟨none, if_neg ?_, nofun, fun b => ⟨nofun, fun hb => absurd hne hb.2⟩⟩
      rw [hne]
      exact UInt32.lt_irrefl 0
    · refine ⟨some (histogramUsecToBin machine mi usec), ?_, ?_, ?_⟩
      · exact if_pos (UInt32.pos_iff_ne_zero.mpr hne)
      · rintro b ⟨⟩
        exact ⟨hlt, hne⟩
      · intro b
        rw [Option.some_inj]
        exact ⟨fun hb => ⟨hb.symm, hne⟩, fun hb => hb.1.symm⟩

/-- **Removal.**  Each strategy takes a token from one bin at most, which has one and is not the infinity
bin, and leaves the others as they are; and it takes the bin that it is meant to. -/
theorem performRemoval_spec (ht : Tokens machine mi state h) (usec : UInt32) (removal : Removal) :
    ∃ bin : Option ℕ,
      performRemoval removal machine mi usec
        = (match bin with
          | none => mi
          | some b => { mi with histogram := some (h.set b (h.getD b 0 - 1)) }) ∧
      (∀ b, bin = some b → b < state.histogramLen - 1 ∧ h.getD b 0 ≠ 0) ∧
      Takes machine mi state usec (histogramUsecToBin machine mi usec) bin removal := by
  obtain ⟨bin, hremoval, hbin, htakes⟩ := performRemoval_takes ht usec removal
  refine ⟨bin, ?_, ?_, htakes⟩
  · rw [hremoval]
    cases bin with
    | none => rfl
    | some b => exact ht.toHasTokens.takeToken
  · intro b hb
    rw [← ht.toHasTokens.tokensAt]
    exact hbin b hb

/-- Whatever the state of the machine, at most one bin is touched. -/
theorem removeChecked_eq_or (mi : Runtime) (bin : Option ℕ) :
    removeChecked mi bin = mi ∨ ∃ b, removeChecked mi bin = mi.takeToken b := by
  cases bin with
  | none => exact .inl rfl
  | some b =>
    rw [removeChecked]
    split_ifs
    · exact .inr ⟨b, rfl⟩
    · exact .inl rfl

theorem removeEnsured_eq_or (mi : Runtime) (b : ℕ) :
    removeEnsured mi b = mi ∨ ∃ c, removeEnsured mi b = mi.takeToken c := by
  rw [removeEnsured]
  split_ifs
  · exact .inl rfl
  · exact .inr ⟨b, rfl⟩

theorem removeClosestToken_eq_or (machine : MachineSpec) (mi : Runtime) (usec : UInt32) (useUsec : Bool) :
    machineRemoveClosestToken machine mi usec useUsec = mi ∨
      ∃ b, machineRemoveClosestToken machine mi usec useUsec = removeEnsured mi b := by
  unfold machineRemoveClosestToken
  dsimp only
  split_ifs with hsane huse
  · exact .inl rfl
  · cases machineFirstLowerIndex machine mi usec with
    | none =>
      cases machineFirstHigherIndex machine mi usec with
      | none => exact .inl rfl
      | some k => exact .inr ⟨k, rfl⟩
    | some l =>
      cases machineFirstHigherIndex machine mi usec with
      | none => exact .inr ⟨l, rfl⟩
      | some k =>
        dsimp only
        split_ifs
        · exact .inr ⟨l, rfl⟩
        · exact .inr ⟨k, rfl⟩
        · exact .inr ⟨k, rfl⟩
        · exact .inr ⟨l, rfl⟩
  · cases machineFirstLowerIndex machine mi usec with
    | none =>
      cases machineFirstHigherIndex machine mi usec with
      | none => exact .inl rfl
      | some k => exact .inr ⟨k, rfl⟩
    | some l =>
      cases machineFirstHigherIndex machine mi usec with
      | none => exact .inr ⟨l, rfl⟩
      | some k =>
        dsimp only
        split_ifs
        · exact .inr ⟨k, rfl⟩
        · exact .inr ⟨l, rfl⟩

theorem performRemoval_eq_or (removal : Removal) (machine : MachineSpec) (mi : Runtime) (usec : UInt32) :
    performRemoval removal machine mi usec = mi ∨
      ∃ b, performRemoval removal machine mi usec = mi.takeToken b := by
  have hclosest : ∀ useUsec, machineRemoveClosestToken machine mi usec useUsec = mi ∨
      ∃ b, machineRemoveClosestToken machine mi usec useUsec = mi.takeToken b := by
    intro useUsec
    rcases removeClosestToken_eq_or machine mi usec useUsec with heq | ⟨b, heq⟩
    · exact .inl heq
    · rw [heq]
      exact removeEnsured_eq_or mi b
  cases removal with
  | none => exact .inl rfl
  | higher => exact removeChecked_eq_or mi _
  | lower => exact removeChecked_eq_or mi _
  | closest => exact hclosest false
  | closestUsec => exact hclosest true
  | exact =>
    by_cases hpos : 0 < mi.tokensAt (histogramUsecToBin machine mi usec)
    · exact .inr ⟨_, if_pos hpos⟩
    · exact .inl (if_neg hpos)

end Removal

/-! ### A delay above the bins -/

/-- A state with two bins to find, with one token in each bin. -/
def fullState (removal : Removal) : State where
  histogram := [1, 1, 1]
  histogramEdges := [0, 10, 20]
  length_histogramEdges := rfl
  length_histogram_le := by decide
  histogramTotalTokens := 3
  iatDist := .none
  distAddedShiftUsec := 0
  lengthDist := .none
  lengthIncludesNonpadding := false
  nextState := [65534, 65534, 65534, 65534, 65534, 65534, 65534]
  useRttEstimate := false
  tokenRemoval := removal

def fullMachine (removal : Removal) : MachineSpec where
  isOriginSide := false
  shouldNegotiateEnd := false
  allowedPaddingCount := 0
  maxPaddingPercent := 0
  states := [fullState removal]

def fullRuntime : Runtime := { machineinfoNew with histogram := some [1, 1, 1] }

theorem tokens_full : Tokens (fullMachine .higher) fullRuntime (fullState .higher) [1, 1, 1] :=
  ⟨⟨rfl, nofun, rfl, rfl⟩, by decide, by decide⟩

/-- What the strategies take at a delay of 5 microseconds. -/
theorem performRemoval_spec_full :
    ∃ bin : Option ℕ,
      performRemoval .higher (fullMachine .higher) fullRuntime 5
        = (match bin with
          | none => fullRuntime
          | some b => { fullRuntime with histogram := some ([1, 1, 1].set b ([1, 1, 1].getD b 0 - 1)) }) ∧
      (∀ b, bin = some b → b < (fullState .higher).histogramLen - 1 ∧ [1, 1, 1].getD b (0 : UInt32) ≠ 0) ∧
      Takes (fullMachine .higher) fullRuntime (fullState .higher) 5
        (histogramUsecToBin (fullMachine .higher) fullRuntime 5) bin .higher :=
  performRemoval_spec tokens_full 5 .higher

/-- At a delay of 100 microseconds the bin of the delay has a token, and the bin above it is the infinity
bin; but the strategy that looks upwards takes nothing. -/
theorem not_firstAtOrAbove :
    Tokens (fullMachine .higher) fullRuntime (fullState .higher) [1, 1, 1] ∧
      histogramUsecToBin (fullMachine .higher) fullRuntime 100 = 1 ∧ fullRuntime.tokensAt 1 = 1 ∧
      performRemoval .higher (fullMachine .higher) fullRuntime 100 = fullRuntime :=
  ⟨⟨⟨rfl, nofun, rfl, rfl⟩, by decide, by decide⟩, by decide, by decide, by decide⟩

end TorEbpf.Or.Circpad
