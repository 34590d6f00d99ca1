import TorEbpf.Dirauth.BwWeightsInt64

/-!
# Totals of bandwidth

`update_total_bandwidth_weights` adds the bandwidth of a relay to the total of its position and to the total of
all.  The bandwidth of a guard with a guardfraction is divided between two positions, but only its guard part is
added to the total of all.

* `ProductsFit` — no product of `networkstatus_compute_bw_weights_v10` overflows;
* `productsFit_of_le` — this holds for the totals of a network of at most `maxTotal`;
* `totalsSound_of_run` — the totals of a list of relays, if each has a bandwidth that fits, and nothing is
  divided.
-/

namespace TorEbpf.Dirauth

open TorEbpf.Lib

/-! ### Totals -/

/-- What is read of a `routerstatus_t`, with its flags. -/
structure RelayBandwidth where
  isExit : Bool
  isGuard : Bool
  hasBandwidth : Bool
  bandwidthKb : UInt32
  hasGuardfraction : Bool
  guardfractionPercentage : ℕ
  deriving DecidableEq, Repr

section Update

variable (lround : ℤ → ℕ → ℤ)

/-- `guard_get_guardfraction_bandwidth`: the bandwidth as a guard, and the rest.  What
`tor_lround(guardfraction_percentage / 100.0 * orig_bandwidth)` yields is a parameter. -/
def guardGetGuardfractionBandwidth (origBandwidth : ℤ) (percentage : ℕ) : Checked Unit Trouble (ℤ × ℤ) :=
  if 100 < percentage then fault .assertion
  else
    let guardBw := lround origBandwidth percentage
    if 2 ^ 31 - 1 < guardBw then fault .assertion
    else .ok (toInt32 guardBw, origBandwidth - toInt32 guardBw)

/-- `default_bandwidth` and `guardfraction_bandwidth`. -/
def bandwidthParts (rs : RelayBandwidth) : Checked Unit Trouble (ℤ × ℤ) :=
  if rs.hasGuardfraction then
    if !rs.isGuard then fault .assertion
    else guardGetGuardfractionBandwidth lround (toInt32 rs.bandwidthKb.toNat) rs.guardfractionPercentage
  else .ok (toInt32 rs.bandwidthKb.toNat, 0)

def addToPosition (rs : RelayBandwidth) (b : Totals) (defaultBandwidth guardfractionBandwidth : ℤ) : Totals :=
  if rs.isExit && rs.isGuard then
    { b with
      D := b.D + defaultBandwidth
      E := if rs.hasGuardfraction then b.E + guardfractionBandwidth else b.E }
  else if rs.isExit then { b with E := b.E + defaultBandwidth }
  else if rs.isGuard then
    { b with
      G := b.G + defaultBandwidth
      M := if rs.hasGuardfraction then b.M + guardfractionBandwidth else b.M }
  else { b with M := b.M + defaultBandwidth }

def updateTotalBandwidthWeights (b : Totals) (rs : RelayBandwidth) : Checked Unit Trouble Totals :=
  if !rs.hasBandwidth then .ok b
  else do
    let (defaultBandwidth, guardfractionBandwidth) ← bandwidthParts lround rs
    return addToPosition rs { b with T := b.T + defaultBandwidth } defaultBandwidth guardfractionBandwidth

def noTotals : Totals := ⟨0, 0, 0, 0, 0⟩

def totalsOf (relays : List RelayBandwidth) : Checked Unit Trouble Totals :=
  relays.foldlM (updateTotalBandwidthWeights lround) noTotals

end Update

/-- **No product** of `networkstatus_compute_bw_weights_v10` exceeds 64 bits, with any `weight_scale`. -/
def ProductsFit (b : Totals) : Prop :=
  ∀ scale : ℤ, 0 < scale → scale ≤ 2 ^ 31 - 1 → networkstatusComputeBwWeightsV10 int64Mul b scale ≠ fault .overflow

structure TotalsSound (b : Totals) : Prop where
  nonneg : 0 ≤ b.G ∧ 0 ≤ b.M ∧ 0 ≤ b.E ∧ 0 ≤ b.D
  total : b.T = b.G + b.M + b.E + b.D
  fit : ProductsFit b

/-! ### Products that fit -/

/-- The greatest total for which all products fit, whatever the positions and the scale. -/
def maxTotal : ℤ := 2 ^ 31 + 4

/-- A small network is small enough for every scale. -/
theorem fits_of_le {b : Totals} {scale : ℤ} (hb : Network b) (hle : b.T ≤ maxTotal) (hs0 : 0 < scale)
    (hs : scale ≤ 2 ^ 31 - 1) : Fits b scale := by
  have hmax : maxTotal = 2147483652 := rfl
  have hbound : (2 ^ 31 - 1) * (2 * maxTotal - 7) < 2 ^ 63 := by decide
  obtain ⟨hG, hM, hE, hD, hT⟩ := hb
  refine ⟨⟨hG, hM, hE, hD, hT⟩, hs0, by omega, lt_of_le_of_lt ?_ hbound⟩
  exact mul_le_mul hs (by omega) (by omega) (by decide)

/-- **Small totals**: no product overflows. -/
theorem productsFit_of_le {b : Totals} (hsum : b.T = b.G + b.M + b.E + b.D) (hle : b.T ≤ maxTotal) :
    ProductsFit b := by
  intro scale hs0 hs
  unfold networkstatusComputeBwWeightsV10
  by_cases hpos : b.G ≤ 0 ∨ b.M ≤ 0 ∨ b.E ≤ 0 ∨ b.D ≤ 0
  · unfold chosenWeights
    rw [if_pos hpos]
    exact nofun
  · have hb : Fits b scale := fits_of_le ⟨by omega, by omega, by omega, by omega, hsum⟩ hle hs0 hs
    obtain ⟨r, hr, -⟩ := chooses ⟨hb.G, hb.M, hb.E, hb.D⟩ hs0.le
    rw [chosenWeights_int64 hb, hr, ok_bind]
    cases r with
    | none => exact nofun
    | some c =>
      dsimp only
      rw [if_pos ⟨hs0, hs⟩]
      exact nofun

/-- With one more than the greatest total a product overflows. -/
example : ¬ProductsFit ⟨715827884, 1, 1, 1431655767, maxTotal + 1⟩ := fun h =>
  h (2 ^ 31 - 1) (by decide) le_rfl (by decide +kernel)

/-! ### Runs -/

section Runs

variable {lround : ℤ → ℕ → ℤ}

/-- A relay that is added as it should be: its bandwidth fits into an `int`; if it has a guardfraction it is a
guard, and all of its bandwidth counts as that of a guard; and the total does not grow too large. -/
structure StepFits (lround : ℤ → ℕ → ℤ) (b : Totals) (rs : RelayBandwidth) : Prop where
  bandwidth : rs.bandwidthKb.toNat < 2 ^ 31
  guardfraction : rs.hasGuardfraction = true → rs.isGuard = true ∧ rs.guardfractionPercentage ≤ 100 ∧
    lround rs.bandwidthKb.toNat rs.guardfractionPercentage = rs.bandwidthKb.toNat
  total : b.T + rs.bandwidthKb.toNat ≤ maxTotal

def RunFits (lround : ℤ → ℕ → ℤ) (b : Totals) : List RelayBandwidth → Prop
  | [] => True
  | rs :: relays => (rs.hasBandwidth = true → StepFits lround b rs) ∧
      ∀ b', updateTotalBandwidthWeights lround b rs = .ok b' → RunFits lround b' relays

structure TotalsOk (b : Totals) : Prop where
  nonneg : 0 ≤ b.G ∧ 0 ≤ b.M ∧ 0 ≤ b.E ∧ 0 ≤ b.D
  total : b.T = b.G + b.M + b.E + b.D
  le : b.T ≤ maxTotal

theorem TotalsOk.sound {b : Totals} (h : TotalsOk b) : TotalsSound b :=
  ⟨h.nonneg, h.total, productsFit_of_le h.total h.le⟩

theorem bandwidthParts_of_fits {b : Totals} {rs : RelayBandwidth} (h : StepFits lround b rs) :
    bandwidthParts lround rs = .ok (rs.bandwidthKb.toNat, 0) := by
  have hint : toInt32 rs.bandwidthKb.toNat = rs.bandwidthKb.toNat := by
    have := h.bandwidth
    exact toInt32_of_range (by omega) (by omega)
  unfold bandwidthParts
  rw [hint]
  cases hfraction : rs.hasGuardfraction with
  | false => rfl
  | true =>
    obtain ⟨hguard, hpercentage, hround⟩ := h.guardfraction hfraction
    have := h.bandwidth
    unfold guardGetGuardfractionBandwidth
    simp only [hguard, hround, Bool.not_true, Bool.false_eq_true, if_true, if_false]
    rw [if_neg (by omega), if_neg (by omega), hint, sub_self]

/-- **Step.** -/
theorem TotalsOk.update {b : Totals} {rs : RelayBandwidth} (hb : TotalsOk b)
    (h : rs.hasBandwidth = true → StepFits lround b rs) :
    ∃ b', updateTotalBandwidthWeights lround b rs = .ok b' ∧ TotalsOk b' := by
  unfold updateTotalBandwidthWeights
  cases hbandwidth : rs.hasBandwidth with
  | false => exact ⟨b, rfl, hb⟩
  | true =>
    have hfits := h hbandwidth
    rw [bandwidthParts_of_fits hfits]
    refine ⟨_, rfl, ?_⟩
    obtain ⟨⟨hG, hM, hE, hD⟩, hT, -⟩ := hb
    have hle := hfits.total
    unfold addToPosition
    split_ifs <;> exact ⟨by dsimp only; omega, by dsimp only; omega, by dsimp only; omega⟩

/-- **Run.** -/
theorem TotalsOk.run {b : Totals} (hb : TotalsOk b) {relays : List RelayBandwidth} (h : RunFits lround b relays) :
    ∃ b', relays.foldlM (updateTotalBandwidthWeights lround) b = .ok b' ∧ TotalsOk b' := by
  induction relays generalizing b with
  | nil => exact ⟨b, rfl, hb⟩
  | cons rs relays ih =>
    obtain ⟨b', hstep, hb'⟩ := hb.update h.1
    rw [List.foldlM_cons, hstep, ok_bind]
    exact ih hb' (h.2 b' hstep)

end Runs

theorem totalsOk_noTotals : TotalsOk noTotals := ⟨by decide, rfl, by decide⟩

/-- **The totals of a list of relays are sound** if each relay is added as it should be. -/
theorem totalsSound_of_run (lround : ℤ → ℕ → ℤ) (relays : List RelayBandwidth)
    (h : RunFits lround noTotals relays) : ∃ b, totalsOf lround relays = .ok b ∧ TotalsSound b := by
  obtain ⟨b, hrun, hb⟩ := totalsOk_noTotals.run h
  exact ⟨b, hrun, hb.sound⟩

/-- Rounding of the exact product, half away from zero, for what is not negative. -/
def lroundExact (origBandwidth : ℤ) (percentage : ℕ) : ℤ := (percentage * origBandwidth + 50) / 100

def twoRelays : List RelayBandwidth := [⟨false, true, true, 10, true, 100⟩, ⟨true, false, true, 7, false, 0⟩]

theorem update_twoRelays :
    updateTotalBandwidthWeights lroundExact noTotals ⟨false, true, true, 10, true, 100⟩ =
        .ok ⟨10, 0, 0, 0, 10⟩ ∧
      updateTotalBandwidthWeights lroundExact ⟨10, 0, 0, 0, 10⟩ ⟨true, false, true, 7, false, 0⟩ =
        .ok ⟨10, 0, 7, 0, 17⟩ := by
  decide +kernel

theorem totalsSound_of_run_two : ∃ b, totalsOf lroundExact twoRelays = .ok b ∧ TotalsSound b := by
  refine totalsSound_of_run lroundExact twoRelays ⟨fun _ => ?_, fun b hb => ?_⟩
  · exact ⟨by decide +kernel, by decide +kernel, by decide +kernel⟩
  · rw [update_twoRelays.1] at hb
    cases hb
    refine ⟨fun _ => ?_, fun b hb => ?_⟩
    · exact ⟨by decide +kernel, by decide +kernel, by decide +kernel⟩
    · rw [update_twoRelays.2] at hb
      cases hb
      trivial

def halfGuard : RelayBandwidth := ⟨false, true, true, 10, true, 50⟩

/-- Half of the bandwidth of this guard is missing in the total. -/
theorem not_totalsSound : ¬∀ (relays : List RelayBandwidth) (b : Totals),
    totalsOf lroundExact relays = .ok b → TotalsSound b := by
  intro hall
  have h := hall [halfGuard] ⟨5, 5, 0, 0, 5⟩ (by decide)
  exact absurd h.total (by decide)

end TorEbpf.Dirauth
