import TorEbpf.Dirauth.BwWeightsSound

/-!
# Bandwidth weights and `int64_t`

The products of `networkstatus_compute_bw_weights_v10` are products of `int64_t`.

* `chosenWeights_below` — where no product overflows, the weights are those of unbounded integers;
* `chosenWeights_int64` — none does in a network that is not too large.
-/

namespace TorEbpf.Dirauth

open TorEbpf.Lib

variable {b : Totals} {scale : ℤ} {w : Weights}

/-! ### Products that may overflow -/

/-- The totals of a network that is not too large for the scale. -/
structure Fits (b : Totals) (scale : ℤ) : Prop extends Network b where
  pos : 0 < scale
  margin : 10 * b.T < 2 ^ 63
  scaled : scale * max b.T (2 * b.T - 7) < 2 ^ 63

section Fit

variable (hb : Fits b scale)

include hb

theorem int64Mul_small {c x : ℤ} (hc0 : 0 ≤ c) (hc : c ≤ 10) (hx0 : 0 ≤ x) (hx : x ≤ b.T) :
    int64Mul c x = .ok (c * x) := by
  have hlo : 0 ≤ c * x := mul_nonneg hc0 hx0
  have hhi : c * x ≤ 10 * b.T := mul_le_mul hc hx hx0 (by decide)
  have hmax := hb.margin
  exact if_pos ⟨by omega, by omega⟩

theorem int64Mul_scale {x : ℤ} (hlo : -max b.T (2 * b.T - 7) ≤ x) (hhi : x ≤ max b.T (2 * b.T - 7)) :
    int64Mul scale x = .ok (scale * x) := by
  have hbound := hb.scaled
  have hupper : scale * x ≤ scale * max b.T (2 * b.T - 7) := mul_le_mul_of_nonneg_left hhi hb.pos.le
  have hlower : scale * -max b.T (2 * b.T - 7) ≤ scale * x := mul_le_mul_of_nonneg_left hlo hb.pos.le
  rw [mul_neg] at hlower
  exact if_pos ⟨by omega, by omega⟩

/-- A weight and a total are multiplied without overflow. -/
theorem int64Mul_weight {c x : ℤ} (hc0 : 0 ≤ c) (hc : c ≤ scale) (hx0 : 0 ≤ x) (hx : x ≤ b.T) :
    int64Mul c x = .ok (c * x) := by
  have hbound := hb.scaled
  have hlo : 0 ≤ c * x := mul_nonneg hc0 hx0
  have hhi : c * x ≤ scale * max b.T (2 * b.T - 7) := mul_le_mul hc (le_max_of_le_left hx) hx0 hb.pos.le
  exact if_pos ⟨by omega, by omega⟩

/-- **The check** of weights: they are multiplied only if they are in range. -/
theorem checkWeights_int64 : networkstatusCheckWeights int64Mul w scale b 10 true =
    networkstatusCheckWeights exactMul w scale b 10 true := by
  have hsmall := int64Mul_small hb (c := 10) (x := b.T)
  have hfit := @int64Mul_weight b scale hb
  obtain ⟨⟨hG, hM, hE, hD, hT⟩, hs0, -, -⟩ := hb
  unfold networkstatusCheckWeights
  by_cases hrange : rangeCheck w scale = true
  · have hall : ∀ x ∈ [w.wgg, w.wgd, w.wmg, w.wme, w.wmd, w.wed, w.wee], 0 ≤ x ∧ x ≤ scale := by
      simpa [rangeCheck] using hrange
    have hweight : ∀ x ∈ [w.wgg, w.wgd, w.wmg, w.wme, w.wmd, w.wed, w.wee], ∀ y, 0 ≤ y → y ≤ b.T →
        int64Mul x y = .ok (x * y) := fun x hx y hy0 hy =>
      hfit (hall x hx).1 (hall x hx).2 hy0 hy
    have hguard : guardBandwidth int64Mul w b = guardBandwidth exactMul w b := by
      simp only [guardBandwidth, exactMul_eq, ok_bind, hweight w.wgg (by simp) b.G (by omega) (by omega),
        hweight w.wgd (by simp) b.D (by omega) (by omega)]
    have hexit : exitBandwidth int64Mul w b = exitBandwidth exactMul w b := by
      simp only [exitBandwidth, exactMul_eq, ok_bind, hweight w.wee (by simp) b.E (by omega) (by omega),
        hweight w.wed (by simp) b.D (by omega) (by omega)]
    have hmm : int64Mul b.M scale = .ok (b.M * scale) := by
      have h := hfit hs0.le le_rfl (show 0 ≤ b.M by omega) (by omega)
      unfold int64Mul at h ⊢
      rwa [mul_comm b.M]
    have hmiddle : middleBandwidth int64Mul w scale b = middleBandwidth exactMul w scale b := by
      simp only [middleBandwidth, exactMul_eq, ok_bind, hmm, hweight w.wmd (by simp) b.D (by omega) (by omega),
        hweight w.wme (by simp) b.E (by omega) (by omega), hweight w.wmg (by simp) b.G (by omega) (by omega)]
    have hmargin : int64Mul 10 b.T = exactMul 10 b.T :=
      hsmall (by decide) le_rfl (by omega) le_rfl
    rw [hguard, hexit, hmiddle, hmargin]
  · rw [Bool.not_eq_true] at hrange
    simp only [hrange, Bool.not_false, if_true]

theorem int64Mul_total {c x : ℤ} (hc0 : 0 ≤ c) (hc : c ≤ 10) (hx : x ∈ [b.G, b.M, b.E, b.D, b.T]) :
    int64Mul c x = .ok (c * x) := by
  have hrange : 0 ≤ x ∧ x ≤ b.T := by
    obtain ⟨⟨hG, hM, hE, hD, hT⟩, -⟩ := hb
    simp only [List.mem_cons, List.not_mem_nil, or_false] at hx
    omega
  exact int64Mul_small hb hc0 hc hrange.1 hrange.2

theorem case1Weights_int64 : case1Weights int64Mul b scale = case1Weights exactMul b scale := by
  have h3E := int64Mul_total hb (c := 3) (x := b.E) (by decide) (by decide) (by simp)
  have h2G := int64Mul_total hb (c := 2) (x := b.G) (by decide) (by decide) (by simp)
  have h3G := int64Mul_total hb (c := 3) (x := b.G) (by decide) (by decide) (by simp)
  have hscale := @int64Mul_scale b scale hb
  obtain ⟨⟨hG, hM, hE, hD, hT⟩, -⟩ := hb
  have hee := hscale (x := b.E + b.G + b.M) (by omega) (by omega)
  have hmg := hscale (x := 2 * b.G - b.E - b.M) (by omega) (by omega)
  simp only [case1Weights, exactMul_eq, ok_bind, h3E, h2G, h3G, hee, hmg]

theorem case2b1Weights_int64 (hg : 3 * b.G < b.T) :
    case2b1Weights int64Mul b scale = case2b1Weights exactMul b scale := by
  have h2E := int64Mul_total hb (c := 2) (x := b.E) (by decide) (by decide) (by simp)
  have h4G := int64Mul_total hb (c := 4) (x := b.G) (by decide) (by decide) (by simp)
  have h2M := int64Mul_total hb (c := 2) (x := b.M) (by decide) (by decide) (by simp)
  have h3D := int64Mul_total hb (c := 3) (x := b.D) (by decide) (by decide) (by simp)
  have hscale := @int64Mul_scale b scale hb
  obtain ⟨⟨hG, hM, hE, hD, hT⟩, -⟩ := hb
  have hee := hscale (x := b.E - b.G + b.M) (by omega) (by omega)
  -- the largest of the products: close to twice the total if there is much of `G` and of `D`
  have hed := hscale (x := b.D - 2 * b.E + 4 * b.G - 2 * b.M) (by omega) (by omega)
  have hme := hscale (x := b.G - b.M) (by omega) (by omega)
  simp only [case2b1Weights, exactMul_eq, ok_bind, h2E, h4G, h2M, h3D, hee, hed, hme]

theorem case2b2Weights_int64 : case2b2Weights int64Mul b scale = case2b2Weights exactMul b scale := by
  have h2E := int64Mul_total hb (c := 2) (x := b.E) (by decide) (by decide) (by simp)
  have h2M := int64Mul_total hb (c := 2) (x := b.M) (by decide) (by decide) (by simp)
  have h3D := int64Mul_total hb (c := 3) (x := b.D) (by decide) (by decide) (by simp)
  have hscale := @int64Mul_scale b scale hb
  obtain ⟨⟨hG, hM, hE, hD, hT⟩, -⟩ := hb
  have hed := hscale (x := b.D - 2 * b.E + b.G + b.M) (by omega) (by omega)
  have hmd := hscale (x := b.D - 2 * b.M + b.G + b.E) (by omega) (by omega)
  simp only [case2b2Weights, exactMul_eq, ok_bind, h2E, h2M, h3D, hed, hmd]

theorem case3aWeights_int64 : case3aWeights int64Mul b scale = case3aWeights exactMul b scale := by
  have hsurplus : ∀ x ∈ [b.G, b.E], case3aSurplus int64Mul b scale x = case3aSurplus exactMul b scale x := by
    intro x hx
    have h2 := int64Mul_total hb (c := 2) (x := x) (by decide) (by decide) (by simp at hx ⊢; tauto)
    have hscale := @int64Mul_scale b scale hb
    obtain ⟨⟨hG, hM, hE, hD, hT⟩, -⟩ := hb
    simp only [List.mem_cons, List.not_mem_nil, or_false] at hx
    have hx' := hscale (x := x - b.M) (by omega) (by omega)
    simp only [case3aSurplus, exactMul_eq, ok_bind, h2, hx']
  unfold case3aWeights
  rw [hsurplus b.G (by simp), hsurplus b.E (by simp)]

/-- The scarce bandwidth is `s`, and the other one is `o`. -/
theorem case3bNumbers_int64 {s o : ℤ} (hso : s = b.G ∧ o = b.E ∨ s = b.E ∧ o = b.G) :
    case3bNumbers int64Mul b scale s o = case3bNumbers exactMul b scale s o := by
  have hmem : s ∈ [b.G, b.M, b.E, b.D, b.T] ∧ o ∈ [b.G, b.M, b.E, b.D, b.T] := by
    rcases hso with ⟨rfl, rfl⟩ | ⟨rfl, rfl⟩ <;> simp
  have h2s := int64Mul_total hb (c := 2) (by decide) (by decide) hmem.1
  have h2o := int64Mul_total hb (c := 2) (by decide) (by decide) hmem.2
  have h3D := int64Mul_total hb (c := 3) (x := b.D) (by decide) (by decide) (by simp)
  have hscale := @int64Mul_scale b scale hb
  obtain ⟨⟨hG, hM, hE, hD, hT⟩, -⟩ := hb
  have hsd := hscale (x := b.D - 2 * s + o + b.M) (by omega) (by omega)
  have hoo := hscale (x := o + b.M) (by omega) (by omega)
  simp only [case3bNumbers, exactMul_eq, ok_bind, h2s, h2o, h3D, hsd, hoo]

theorem case3bWeights_int64 : case3bWeights int64Mul b scale = case3bWeights exactMul b scale := by
  unfold case3bWeights
  rw [case3bNumbers_int64 hb (.inl ⟨rfl, rfl⟩), case3bNumbers_int64 hb (.inr ⟨rfl, rfl⟩)]

theorem checked_int64 (casename : BwCase) (w : Weights) :
    checked int64Mul b scale casename w = checked exactMul b scale casename w := by
  unfold checked
  rw [checkWeights_int64 hb]

theorem case2b_int64 (hg : 3 * b.G < b.T) : case2b int64Mul b scale = case2b exactMul b scale := by
  unfold case2b checkedButMiddle
  rw [case2b1Weights_int64 hb hg, case2b2Weights_int64 hb]
  simp only [checkWeights_int64 hb]

/-- **The weights** are those of unbounded integers. -/
theorem chosenWeights_int64 : chosenWeights int64Mul b scale = chosenWeights exactMul b scale := by
  have h3E := int64Mul_total hb (c := 3) (x := b.E) (by decide) (by decide) (by simp)
  have h3G := int64Mul_total hb (c := 3) (x := b.G) (by decide) (by decide) (by simp)
  have h3 : int64Mul 3 (min b.E b.G + b.D) = .ok (3 * (min b.E b.G + b.D)) := by
    have hsmall := int64Mul_small hb (c := 3) (x := min b.E b.G + b.D) (by decide) (by decide)
    obtain ⟨⟨hG, hM, hE, hD, hT⟩, -⟩ := hb
    exact hsmall (by omega) (by omega)
  unfold chosenWeights
  simp only [exactMul_eq, ok_bind, h3E, h3G, h3, case1Weights_int64 hb, case3aWeights_int64 hb,
    case3bWeights_int64 hb, checked_int64 hb]
  by_cases h2 : 3 * b.E < b.T ∧ 3 * b.G < b.T
  · rw [case2b_int64 hb h2.2]
  · simp only [h2, if_false]

end Fit

end TorEbpf.Dirauth
