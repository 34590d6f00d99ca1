import TorEbpf.Dirauth.BwWeights

/-!
# Bandwidth weights are sound

The computation with unbounded integers.

* `checkWeights_exact` — what `networkstatus_check_weights` checks;
* `balanced_of_chosen` — the weights of the checked cases balance the network;
* `bandwidthWeights_sound` — the weights that are printed.
-/

namespace TorEbpf.Dirauth

open TorEbpf.Lib

variable {b : Totals} {scale : ℤ} {w : Weights}

/-! ### Divisions -/

theorem divide_of_pos {m n : ℤ} (hn : 0 < n) : divide m n = .ok (m.tdiv n) := if_neg hn.ne'

@[simp] theorem exactMul_eq (m n : ℤ) : exactMul m n = .ok (m * n) := rfl

theorem tdiv_near (m : ℤ) {n : ℤ} (hn : 0 < n) : -n < m - n * m.tdiv n ∧ m - n * m.tdiv n < n := by
  have hmod : m - n * m.tdiv n = m.tmod n := by
    have := Int.mul_tdiv_add_tmod m n
    omega
  rw [hmod]
  have hlt := Int.tmod_lt_of_pos m hn
  have hgt := Int.lt_tmod_of_pos m hn
  exact ⟨hgt, hlt⟩

theorem tdiv_nonneg_le {m n c : ℤ} (hn : 0 < n) (hm : 0 ≤ m) (hle : m ≤ c * n) :
    0 ≤ m.tdiv n ∧ m.tdiv n ≤ c := by
  rw [Int.tdiv_eq_ediv_of_nonneg hm]
  exact ⟨Int.ediv_nonneg hm hn.le, Int.ediv_le_of_le_mul hn hle⟩

theorem half_near (m : ℤ) : -1 ≤ m - 2 * m.tdiv 2 ∧ m - 2 * m.tdiv 2 ≤ 1 := by
  have h := tdiv_near m (n := 2) (by decide)
  omega

/-! ### Checks -/

theorem checkEq_iff {x y m : ℤ} : checkEq x y m = true ↔ |x - y| ≤ m := by
  unfold checkEq
  split_ifs with h
  · rw [decide_eq_true_iff, abs_of_nonneg h]
  · rw [decide_eq_true_iff, abs_of_neg (not_le.mp h), neg_sub]

/-- The weights are in range, and those of a flag add up to the scale, up to 10. -/
structure WeightsOk (scale : ℤ) (w : Weights) : Prop where
  sumd : |w.wed + w.wmd + w.wgd - scale| ≤ 10
  sumg : |w.wmg + w.wgg - scale| ≤ 10
  sume : |w.wme + w.wee - scale| ≤ 10
  range : ∀ x ∈ [w.wgg, w.wgd, w.wmg, w.wme, w.wmd, w.wed, w.wee], 0 ≤ x ∧ x ≤ scale

def guardOf (w : Weights) (b : Totals) : ℤ := w.wgg * b.G + w.wgd * b.D

def exitOf (w : Weights) (b : Totals) : ℤ := w.wee * b.E + w.wed * b.D

def middleOf (w : Weights) (scale : ℤ) (b : Totals) : ℤ := b.M * scale + w.wmd * b.D + w.wme * b.E + w.wmg * b.G

def tolerance (b : Totals) : ℤ := (10 * b.T).tdiv 3

/-- What `networkstatus_check_weights` finds, with a margin of 10. -/
structure CheckFinds (b : Totals) (scale : ℤ) (w : Weights) (berr : BwWeightsError) : Prop where
  eq : networkstatusCheckWeights exactMul w scale b 10 true = .ok berr
  noError : berr = .noError ↔ WeightsOk scale w ∧ |guardOf w b - exitOf w b| ≤ tolerance b ∧
    |guardOf w b - middleOf w scale b| ≤ tolerance b
  middle : berr = .noError ∨ berr = .balanceMidError ↔
    WeightsOk scale w ∧ |guardOf w b - exitOf w b| ≤ tolerance b

/-- **The check**, with unbounded integers. -/
theorem checkWeights_exact (b : Totals) (scale : ℤ) (w : Weights) : ∃ berr, CheckFinds b scale w berr := by
  have hrange : rangeCheck w scale = true ↔
      ∀ x ∈ [w.wgg, w.wgd, w.wmg, w.wme, w.wmd, w.wed, w.wee], 0 ≤ x ∧ x ≤ scale := by
    simp [rangeCheck]
  by_cases hd : checkEq (w.wed + w.wmd + w.wgd) scale 10 = true
  swap
  · have hnot : ¬WeightsOk scale w := fun hok => hd (checkEq_iff.mpr hok.sumd)
    exact ⟨.sumdError, by simp [networkstatusCheckWeights, hd], by simp [hnot], by simp [hnot]⟩
  by_cases hg : checkEq (w.wmg + w.wgg) scale 10 = true
  swap
  · have hnot : ¬WeightsOk scale w := fun hok => hg (checkEq_iff.mpr hok.sumg)
    exact ⟨.sumgError, by simp [networkstatusCheckWeights, hd, hg], by simp [hnot], by simp [hnot]⟩
  by_cases he : checkEq (w.wme + w.wee) scale 10 = true
  swap
  · have hnot : ¬WeightsOk scale w := fun hok => he (checkEq_iff.mpr hok.sume)
    exact ⟨.sumeError, by simp [networkstatusCheckWeights, hd, hg, he], by simp [hnot], by simp [hnot]⟩
  by_cases hr : rangeCheck w scale = true
  swap
  · have hnot : ¬WeightsOk scale w := fun hok => hr (hrange.mpr hok.range)
    exact ⟨.rangeError, by simp [networkstatusCheckWeights, hd, hg, he, hr], by simp [hnot], by simp [hnot]⟩
  have hok : WeightsOk scale w :=
    ⟨checkEq_iff.mp hd, checkEq_iff.mp hg, checkEq_iff.mp he, hrange.mp hr⟩
  have heq : networkstatusCheckWeights exactMul w scale b 10 true =
      if !checkEq (guardOf w b) (exitOf w b) (tolerance b) then .ok .balanceEgError
      else if !checkEq (guardOf w b) (middleOf w scale b) (tolerance b) then .ok .balanceMidError
      else .ok .noError := by
    rw [networkstatusCheckWeights, hd, hg, he, hr]
    rfl
  by_cases heg : checkEq (guardOf w b) (exitOf w b) (tolerance b) = true
  swap
  · have hnot : ¬|guardOf w b - exitOf w b| ≤ tolerance b := fun h => heg (checkEq_iff.mpr h)
    exact ⟨.balanceEgError, by rw [heq]; simp [heg], by simp [hnot], by simp [hnot]⟩
  have heg' := checkEq_iff.mp heg
  by_cases hm : checkEq (guardOf w b) (middleOf w scale b) (tolerance b) = true
  · exact ⟨.noError, by rw [heq]; simp [heg, hm], by simp [hok, heg', checkEq_iff.mp hm], by simp [hok, heg']⟩
  · have hnot : ¬|guardOf w b - middleOf w scale b| ≤ tolerance b := fun h => hm (checkEq_iff.mpr h)
    exact ⟨.balanceMidError, by rw [heq]; simp [heg, hm], by simp [hnot], by simp [hok, heg']⟩

/-! ### Balance -/

structure Network (b : Totals) : Prop where
  G : 0 < b.G
  M : 0 < b.M
  E : 0 < b.E
  D : 0 < b.D
  T : b.T = b.G + b.M + b.E + b.D

theorem le_tolerance {x y : ℤ} (hb : Network b) (hlo : -(9 * b.T) ≤ 3 * (x - y)) (hhi : 3 * (x - y) ≤ 9 * b.T) :
    |x - y| ≤ tolerance b := by
  obtain ⟨hG, hM, hE, hD, hT⟩ := hb
  have hq := tdiv_near (10 * b.T) (n := 3) (by decide)
  rw [abs_le]
  unfold tolerance
  constructor <;> omega

/-- Guard, middle and exit bandwidth agree after weighting. -/
structure Balanced (b : Totals) (scale : ℤ) (w : Weights) : Prop where
  guardExit : |guardOf w b - exitOf w b| ≤ tolerance b
  guardMiddle : |guardOf w b - middleOf w scale b| ≤ tolerance b
  middleExit : |middleOf w scale b - exitOf w b| ≤ tolerance b

theorem half_mul_near (m : ℤ) {n : ℤ} (hn : 0 < n) :
    -n ≤ (m - 2 * m.tdiv 2) * n ∧ (m - 2 * m.tdiv 2) * n ≤ n := by
  obtain ⟨hlo, hhi⟩ := half_near m
  constructor <;> nlinarith

def weights1 (b : Totals) (scale : ℤ) : Weights :=
  let wmg := (scale * (2 * b.G - b.E - b.M)).tdiv (3 * b.G)
  let wee := (scale * (b.E + b.G + b.M)).tdiv (3 * b.E)
  ⟨scale - wmg, scale.tdiv 3, wmg, scale - wee, scale.tdiv 3, scale.tdiv 3, wee⟩

theorem case1Weights_exact (hE : 0 < b.E) (hG : 0 < b.G) :
    case1Weights exactMul b scale = .ok (weights1 b scale) := by
  simp only [case1Weights, exactMul_eq, ok_bind, divide_of_pos (show 0 < 3 * b.E by omega),
    divide_of_pos (show 0 < 3 * b.G by omega)]
  rfl

theorem balanced1 (hb : Network b) : Balanced b scale (weights1 b scale) := by
  have hmg := tdiv_near (scale * (2 * b.G - b.E - b.M)) (show 0 < 3 * b.G by have := hb.G; omega)
  have hee := tdiv_near (scale * (b.E + b.G + b.M)) (show 0 < 3 * b.E by have := hb.E; omega)
  have hT := hb.T
  have hM := hb.M
  have hD := hb.D
  unfold weights1
  generalize (scale * (2 * b.G - b.E - b.M)).tdiv (3 * b.G) = wmg at *
  generalize (scale * (b.E + b.G + b.M)).tdiv (3 * b.E) = wee at *
  constructor
  · refine le_tolerance hb ?_ ?_ <;> simp only [guardOf, exitOf] <;> linarith
  · refine le_tolerance hb ?_ ?_ <;> simp only [guardOf, middleOf] <;> linarith
  · refine le_tolerance hb ?_ ?_ <;> simp only [exitOf, middleOf] <;> linarith

def weights2b1 (b : Totals) (scale : ℤ) : Weights :=
  let wee := (scale * (b.E - b.G + b.M)).tdiv b.E
  let wed := (scale * (b.D - 2 * b.E + 4 * b.G - 2 * b.M)).tdiv (3 * b.D)
  ⟨scale, (scale - wed).tdiv 2, 0, (scale * (b.G - b.M)).tdiv b.E, (scale - wed).tdiv 2, wed, wee⟩

theorem case2b1Weights_exact (hE : 0 < b.E) (hD : 0 < b.D) :
    case2b1Weights exactMul b scale = .ok (weights2b1 b scale) := by
  simp only [case2b1Weights, exactMul_eq, ok_bind, divide_of_pos hE,
    divide_of_pos (show 0 < 3 * b.D by omega)]
  rfl

theorem balanced2b1 (hb : Network b) : Balanced b scale (weights2b1 b scale) := by
  have hee := tdiv_near (scale * (b.E - b.G + b.M)) hb.E
  have hed := tdiv_near (scale * (b.D - 2 * b.E + 4 * b.G - 2 * b.M)) (show 0 < 3 * b.D by have := hb.D; omega)
  have hme := tdiv_near (scale * (b.G - b.M)) hb.E
  have hT := hb.T
  have hG := hb.G
  have hM := hb.M
  unfold weights2b1
  generalize (scale * (b.E - b.G + b.M)).tdiv b.E = wee at *
  generalize (scale * (b.D - 2 * b.E + 4 * b.G - 2 * b.M)).tdiv (3 * b.D) = wed at *
  generalize (scale * (b.G - b.M)).tdiv b.E = wme at *
  have hhalf := half_mul_near (scale - wed) hb.D
  dsimp only
  generalize (scale - wed).tdiv 2 = half at *
  constructor
  · refine le_tolerance hb ?_ ?_ <;> simp only [guardOf, exitOf] <;> linarith
  · refine le_tolerance hb ?_ ?_ <;> simp only [guardOf, middleOf] <;> linarith
  · refine le_tolerance hb ?_ ?_ <;> simp only [exitOf, middleOf] <;> linarith

/-- The weight of `D` for exits in case 2b2. -/
def wed2b2 (b : Totals) (scale : ℤ) : ℤ := (scale * (b.D - 2 * b.E + b.G + b.M)).tdiv (3 * b.D)

/-- The weight of `D` in the middle in case 2b2, unless it is negative. -/
def wmd2b2 (b : Totals) (scale : ℤ) : ℤ := (scale * (b.D - 2 * b.M + b.G + b.E)).tdiv (3 * b.D)

def weights2b2 (b : Totals) (scale : ℤ) : Weights :=
  ⟨scale, scale - wed2b2 b scale - wmd2b2 b scale, 0, 0, wmd2b2 b scale, wed2b2 b scale, scale⟩

def weights2b3 (b : Totals) (scale : ℤ) : Weights :=
  ⟨scale, scale - wed2b2 b scale - 0, 0, 0, 0, wed2b2 b scale, scale⟩

theorem case2b2Weights_exact (hD : 0 < b.D) : case2b2Weights exactMul b scale =
    .ok (if wmd2b2 b scale < 0 then (.case2b3, weights2b3 b scale) else (.case2b2, weights2b2 b scale)) := by
  simp only [case2b2Weights, exactMul_eq, ok_bind, divide_of_pos (show 0 < 3 * b.D by omega)]
  split_ifs with h h' h'
  · rfl
  · exact absurd h h'
  · exact absurd h' h
  · rfl

theorem balanced2b2 (hb : Network b) : Balanced b scale (weights2b2 b scale) := by
  have hed := tdiv_near (scale * (b.D - 2 * b.E + b.G + b.M)) (show 0 < 3 * b.D by have := hb.D; omega)
  have hmd := tdiv_near (scale * (b.D - 2 * b.M + b.G + b.E)) (show 0 < 3 * b.D by have := hb.D; omega)
  have hT := hb.T
  have hG := hb.G
  have hM := hb.M
  have hE := hb.E
  unfold weights2b2 wed2b2 wmd2b2
  generalize (scale * (b.D - 2 * b.E + b.G + b.M)).tdiv (3 * b.D) = wed at *
  generalize (scale * (b.D - 2 * b.M + b.G + b.E)).tdiv (3 * b.D) = wmd at *
  constructor
  · refine le_tolerance hb ?_ ?_ <;> simp only [guardOf, exitOf] <;> linarith
  · refine le_tolerance hb ?_ ?_ <;> simp only [guardOf, middleOf] <;> linarith
  · refine le_tolerance hb ?_ ?_ <;> simp only [exitOf, middleOf] <;> linarith

/-- In case 2b3 there is more middle bandwidth than half of the other one. -/
theorem middle_of_wmd_neg (hD : 0 < b.D) (hscale : 0 ≤ scale) (h : wmd2b2 b scale < 0) :
    b.D + b.G + b.E < 2 * b.M := by
  unfold wmd2b2 at h
  by_contra hle
  have hnum : 0 ≤ scale * (b.D - 2 * b.M + b.G + b.E) := mul_nonneg hscale (by omega)
  exact absurd (Int.tdiv_nonneg hnum (by omega : (0 : ℤ) ≤ 3 * b.D)) (not_le.mpr h)

/-- In case 2b3 the check of the other two balances is enough: exits are in between. -/
theorem balanced2b3 (hb : Network b) (hscale : 0 ≤ scale) (hwmd : wmd2b2 b scale < 0)
    (hexit : |guardOf (weights2b3 b scale) b - exitOf (weights2b3 b scale) b| ≤ tolerance b)
    (hmiddle : |guardOf (weights2b3 b scale) b - middleOf (weights2b3 b scale) scale b| ≤ tolerance b) :
    Balanced b scale (weights2b3 b scale) := by
  refine ⟨hexit, hmiddle, ?_⟩
  have hed := tdiv_near (scale * (b.D - 2 * b.E + b.G + b.M)) (show 0 < 3 * b.D by have := hb.D; omega)
  have hmore := middle_of_wmd_neg hb.D hscale hwmd
  have hsurplus : 0 ≤ scale * (2 * b.M - b.D - b.G - b.E) := mul_nonneg hscale (by omega)
  have hq := tdiv_near (10 * b.T) (n := 3) (by decide)
  have hT := hb.T
  have hG := hb.G
  have hM := hb.M
  have hE := hb.E
  obtain ⟨hlo, -⟩ := abs_le.mp hmiddle
  unfold weights2b3 wed2b2 at *
  generalize (scale * (b.D - 2 * b.E + b.G + b.M)).tdiv (3 * b.D) = wed at *
  simp only [guardOf, middleOf, tolerance] at hlo
  refine le_tolerance hb ?_ ?_ <;> simp only [exitOf, middleOf] <;> linarith

/-- The weights of case 3b: of `D` for the scarce one, and of the other one. -/
def weights3b (b : Totals) (scale s o : ℤ) : ℤ × ℤ :=
  ((scale * (b.D - 2 * s + o + b.M)).tdiv (3 * b.D), (scale * (o + b.M)).tdiv (2 * o))

theorem case3bNumbers_exact {s o : ℤ} (hD : 0 < b.D) (ho : 0 < o) :
    case3bNumbers exactMul b scale s o = .ok (weights3b b scale s o) := by
  simp only [case3bNumbers, exactMul_eq, ok_bind, divide_of_pos (show 0 < 3 * b.D by omega),
    divide_of_pos (show 0 < 2 * o by omega)]
  rfl

/-- The weights of case 3b when guards are scarce. -/
def weights3bg (b : Totals) (scale : ℤ) : Weights :=
  let r := weights3b b scale b.G b.E
  ⟨scale, r.1, 0, scale - r.2, (scale - r.1).tdiv 2, (scale - r.1).tdiv 2, r.2⟩

/-- The weights of case 3b when exits are scarce. -/
def weights3be (b : Totals) (scale : ℤ) : Weights :=
  let r := weights3b b scale b.E b.G
  ⟨r.2, (scale - r.1).tdiv 2, scale - r.2, 0, (scale - r.1).tdiv 2, r.1, scale⟩

theorem case3bWeights_exact (hG : 0 < b.G) (hE : 0 < b.E) (hD : 0 < b.D) : case3bWeights exactMul b scale =
    .ok (if b.G < b.E then weights3bg b scale else weights3be b scale) := by
  unfold case3bWeights
  split_ifs
  · rw [case3bNumbers_exact hD hE]
    rfl
  · rw [case3bNumbers_exact hD hG]
    rfl

theorem balanced3bg (hb : Network b) : Balanced b scale (weights3bg b scale) := by
  have hgd := tdiv_near (scale * (b.D - 2 * b.G + b.E + b.M)) (show 0 < 3 * b.D by have := hb.D; omega)
  have hee := tdiv_near (scale * (b.E + b.M)) (show 0 < 2 * b.E by have := hb.E; omega)
  have hT := hb.T
  have hG := hb.G
  have hM := hb.M
  have hE := hb.E
  unfold weights3bg weights3b
  generalize (scale * (b.D - 2 * b.G + b.E + b.M)).tdiv (3 * b.D) = wgd at *
  generalize (scale * (b.E + b.M)).tdiv (2 * b.E) = wee at *
  have hhalf := half_mul_near (scale - wgd) hb.D
  dsimp only
  generalize (scale - wgd).tdiv 2 = half at *
  constructor
  · refine le_tolerance hb ?_ ?_ <;> simp only [guardOf, exitOf] <;> linarith
  · refine le_tolerance hb ?_ ?_ <;> simp only [guardOf, middleOf] <;> linarith
  · refine le_tolerance hb ?_ ?_ <;> simp only [exitOf, middleOf] <;> linarith

theorem balanced3be (hb : Network b) : Balanced b scale (weights3be b scale) := by
  have hed := tdiv_near (scale * (b.D - 2 * b.E + b.G + b.M)) (show 0 < 3 * b.D by have := hb.D; omega)
  have hgg := tdiv_near (scale * (b.G + b.M)) (show 0 < 2 * b.G by have := hb.G; omega)
  have hT := hb.T
  have hG := hb.G
  have hM := hb.M
  have hE := hb.E
  unfold weights3be weights3b
  generalize (scale * (b.D - 2 * b.E + b.G + b.M)).tdiv (3 * b.D) = wed at *
  generalize (scale * (b.G + b.M)).tdiv (2 * b.G) = wgg at *
  have hhalf := half_mul_near (scale - wed) hb.D
  dsimp only
  generalize (scale - wed).tdiv 2 = half at *
  constructor
  · refine le_tolerance hb ?_ ?_ <;> simp only [guardOf, exitOf] <;> linarith
  · refine le_tolerance hb ?_ ?_ <;> simp only [guardOf, middleOf] <;> linarith
  · refine le_tolerance hb ?_ ?_ <;> simp only [exitOf, middleOf] <;> linarith

/-! ### What is chosen -/

theorem checked_exact (casename : BwCase) (w : Weights) : ∃ berr, CheckFinds b scale w berr ∧
    checked exactMul b scale casename w = .ok (if berr = .noError then some ⟨casename, w, berr⟩ else none) := by
  obtain ⟨berr, h⟩ := checkWeights_exact b scale w
  refine ⟨berr, h, ?_⟩
  rw [checked, h.eq]
  rfl

theorem checkedButMiddle_exact (casename : BwCase) (w : Weights) : ∃ berr, CheckFinds b scale w berr ∧
    checkedButMiddle exactMul b scale casename w =
      .ok (if berr = .noError ∨ berr = .balanceMidError then some ⟨casename, w, berr⟩ else none) := by
  obtain ⟨berr, h⟩ := checkWeights_exact b scale w
  refine ⟨berr, h, ?_⟩
  rw [checkedButMiddle, h.eq]
  rfl

theorem case3aSurplus_exact {s : ℤ} (hs : 0 < s) (hM : 0 < b.M) (hscale : 0 ≤ scale) :
    ∃ x, case3aSurplus exactMul b scale s = .ok x ∧ 0 ≤ x ∧ x ≤ scale := by
  unfold case3aSurplus
  split_ifs with h
  · exact ⟨0, rfl, le_rfl, hscale⟩
  · have hpos : 0 < 2 * s := by omega
    refine ⟨(scale * (s - b.M)).tdiv (2 * s), ?_, tdiv_nonneg_le hpos ?_ ?_⟩
    · rw [exactMul_eq, ok_bind, exactMul_eq, ok_bind, divide_of_pos hpos]
    · exact mul_nonneg hscale (by omega)
    · exact mul_le_mul_of_nonneg_left (by omega) hscale

theorem weightsOk_of_exact {w : Weights} (hd : w.wed + w.wmd + w.wgd = scale) (hg : w.wmg + w.wgg = scale)
    (he : w.wme + w.wee = scale)
    (hr : ∀ x ∈ [w.wgg, w.wgd, w.wmg, w.wme, w.wmd, w.wed, w.wee], 0 ≤ x ∧ x ≤ scale) : WeightsOk scale w := by
  refine ⟨?_, ?_, ?_, hr⟩
  · rw [hd, sub_self]
    decide
  · rw [hg, sub_self]
    decide
  · rw [he, sub_self]
    decide

theorem weightsOk2a (hscale : 0 ≤ scale) : WeightsOk scale (case2aWeights b scale) := by
  unfold case2aWeights
  split_ifs
  · exact weightsOk_of_exact (by ring) (by ring) (by ring) (by simp [hscale])
  · exact weightsOk_of_exact (by ring) (by ring) (by ring) (by simp [hscale])

theorem case3aWeights_exact (hG : 0 < b.G) (hE : 0 < b.E) (hM : 0 < b.M) (hscale : 0 ≤ scale) :
    ∃ w, case3aWeights exactMul b scale = .ok w ∧ WeightsOk scale w := by
  unfold case3aWeights
  split_ifs
  · obtain ⟨x, hx, h0, hle⟩ := case3aSurplus_exact hE hM hscale
    refine ⟨_, by rw [hx]; rfl, weightsOk_of_exact (by ring) (by ring) (by ring) ?_⟩
    simp [hscale, h0, hle]
  · obtain ⟨x, hx, h0, hle⟩ := case3aSurplus_exact hG hM hscale
    refine ⟨_, by rw [hx]; rfl, weightsOk_of_exact (by ring) (by ring) (by ring) ?_⟩
    simp [hscale, h0, hle]

theorem case2b_exact (hE : 0 < b.E) (hD : 0 < b.D) : ∃ berr1 berr2,
    CheckFinds b scale (weights2b1 b scale) berr1 ∧
    CheckFinds b scale (if wmd2b2 b scale < 0 then weights2b3 b scale else weights2b2 b scale) berr2 ∧
    case2b exactMul b scale = .ok (if berr1 = .noError then some ⟨.case2b1, weights2b1 b scale, berr1⟩
      else if berr2 = .noError ∨ berr2 = .balanceMidError then
        some ⟨if wmd2b2 b scale < 0 then .case2b3 else .case2b2,
          if wmd2b2 b scale < 0 then weights2b3 b scale else weights2b2 b scale, berr2⟩
      else none) := by
  obtain ⟨berr1, h1⟩ := checkWeights_exact b scale (weights2b1 b scale)
  obtain ⟨berr2, h2, heq⟩ := @checkedButMiddle_exact b scale (if wmd2b2 b scale < 0 then .case2b3 else .case2b2)
    (if wmd2b2 b scale < 0 then weights2b3 b scale else weights2b2 b scale)
  refine ⟨berr1, berr2, h1, h2, ?_⟩
  have hpair : (if wmd2b2 b scale < 0 then (BwCase.case2b3, weights2b3 b scale)
      else (.case2b2, weights2b2 b scale)) = (if wmd2b2 b scale < 0 then .case2b3 else .case2b2,
        if wmd2b2 b scale < 0 then weights2b3 b scale else weights2b2 b scale) := by
    split_ifs <;> rfl
  rw [case2b, case2b1Weights_exact hE hD, ok_bind, h1.eq, ok_bind]
  by_cases hok : berr1 = .noError
  · rw [if_pos hok, if_pos hok]
    rfl
  · rw [if_neg hok, if_neg hok, case2b2Weights_exact hD, ok_bind, hpair, heq]

/-- Guards, middle nodes, exits and nodes that are both have bandwidth. -/
def AllPositive (b : Totals) : Prop := 0 < b.G ∧ 0 < b.M ∧ 0 < b.E ∧ 0 < b.D

/-- **The cases** of `networkstatus_compute_bw_weights_v10`. -/
inductive Chooses (b : Totals) (scale : ℤ) : Option Chosen → Prop
  | case1 {berr : BwWeightsError} (hE : b.T ≤ 3 * b.E) (hG : b.T ≤ 3 * b.G)
      (h : CheckFinds b scale (weights1 b scale) berr) :
      Chooses b scale (if berr = .noError then some ⟨.case1, weights1 b scale, berr⟩ else none)
  | case2a (hE : 3 * b.E < b.T) (hG : 3 * b.G < b.T) (hD : min b.E b.G + b.D < max b.E b.G) :
      Chooses b scale (some ⟨.case2a, case2aWeights b scale, .noError⟩)
  | case2b {r : Option Chosen} (hE : 3 * b.E < b.T) (hG : 3 * b.G < b.T) (hD : max b.E b.G ≤ min b.E b.G + b.D)
      (h : case2b exactMul b scale = .ok r) : Chooses b scale r
  | case3a {w : Weights} (hmax : b.T ≤ 3 * max b.E b.G)
    (hw : WeightsOk scale w) : Chooses b scale (some ⟨.case3a, w, .noError⟩)
  | case3b {berr : BwWeightsError} (hmax : b.T ≤ 3 * max b.E b.G) (hmin : 3 * min b.E b.G < b.T)
      (hD : b.T ≤ 3 * (min b.E b.G + b.D))
      (h : CheckFinds b scale (if b.G < b.E then weights3bg b scale else weights3be b scale) berr) :
      Chooses b scale (if berr = .noError then
        some ⟨.case3b, if b.G < b.E then weights3bg b scale else weights3be b scale, berr⟩ else none)

/-- The computation with unbounded integers does not fault. -/
theorem chooses (hb : AllPositive b) (hscale : 0 ≤ scale) :
    ∃ r, chosenWeights exactMul b scale = .ok r ∧ Chooses b scale r := by
  obtain ⟨hG, hM, hE, hD⟩ := hb
  unfold chosenWeights
  rw [if_neg (by omega)]
  simp only [exactMul_eq, ok_bind]
  by_cases h1 : b.T ≤ 3 * b.E ∧ b.T ≤ 3 * b.G
  · obtain ⟨berr, hfind, heq⟩ := @checked_exact b scale .case1 (weights1 b scale)
    rw [if_pos h1, case1Weights_exact hE hG, ok_bind, heq]
    exact ⟨_, rfl, .case1 h1.1 h1.2 hfind⟩
  rw [if_neg h1]
  by_cases h2 : 3 * b.E < b.T ∧ 3 * b.G < b.T
  · rw [if_pos h2]
    by_cases ha : min b.E b.G + b.D < max b.E b.G
    · rw [if_pos ha]
      exact ⟨_, rfl, .case2a h2.1 h2.2 ha⟩
    · rw [if_neg ha]
      obtain ⟨berr1, berr2, -, -, heq⟩ := @case2b_exact b scale hE hD
      exact ⟨_, heq, .case2b h2.1 h2.2 (not_lt.mp ha) heq⟩
  rw [if_neg h2]
  by_cases ha : 3 * (min b.E b.G + b.D) < b.T
  · obtain ⟨w, heq, hw⟩ := case3aWeights_exact hG hE hM hscale
    rw [if_pos ha, heq]
    exact ⟨_, rfl, .case3a (by omega) hw⟩
  · obtain ⟨berr, hfind, heq⟩ :=
      @checked_exact b scale .case3b (if b.G < b.E then weights3bg b scale else weights3be b scale)
    rw [if_neg ha, case3bWeights_exact hG hE hD, ok_bind, heq]
    exact ⟨_, rfl, .case3b (by omega) (by omega) (not_lt.mp ha) hfind⟩

theorem CheckFinds.of_some {berr : BwWeightsError} {c : Chosen} {casename : BwCase}
    (h : CheckFinds b scale w berr)
    (hc : some c = if berr = .noError then some ⟨casename, w, berr⟩ else none) :
    berr = .noError ∧ c = ⟨casename, w, berr⟩ ∧ WeightsOk scale w := by
  split_ifs at hc with hok
  · exact ⟨hok, Option.some.inj hc, (h.noError.mp hok).1⟩

/-- **Weights are in range** and add up. -/
theorem weightsOk_of_chosen {c : Chosen} (hb : AllPositive b) (hscale : 0 ≤ scale)
    (h : Chooses b scale (some c)) : WeightsOk scale c.weights := by
  obtain ⟨-, -, hE, hD⟩ := hb
  generalize hr : some c = r at h
  cases h with
  | case1 _ _ hfind =>
    obtain ⟨-, rfl, hok⟩ := hfind.of_some hr
    exact hok
  | case2a =>
    cases hr
    exact weightsOk2a hscale
  | case2b _ _ _ heq =>
    obtain ⟨berr1, berr2, h1, h2, heq'⟩ := @case2b_exact b scale hE hD
    rw [heq', Except.ok.injEq, ← hr] at heq
    split_ifs at heq with hok hok2 hwmd
    · cases heq
      exact (h1.noError.mp hok).1
    · cases heq
      rw [if_pos hwmd] at h2
      exact (h2.middle.mp hok2).1
    · cases heq
      rw [if_neg hwmd] at h2
      exact (h2.middle.mp hok2).1
  | case3a _ hw =>
    cases hr
    exact hw
  | case3b _ _ _ hfind =>
    obtain ⟨-, rfl, hok⟩ := hfind.of_some hr
    exact hok

/-- **The network is balanced** in the checked cases, if no error is passed over. -/
theorem balanced_of_chosen {c : Chosen} (hb : Network b) (hscale : 0 ≤ scale)
    (h : Chooses b scale (some c)) (hberr : c.berr ≠ .balanceMidError) :
    Balanced b scale c.weights ∨ c.casename = .case2a ∨ c.casename = .case3a := by
  generalize hr : some c = r at h
  cases h with
  | case1 _ _ hfind =>
    obtain ⟨-, rfl, -⟩ := hfind.of_some hr
    exact Or.inl (balanced1 hb)
  | case2a =>
    cases hr
    exact Or.inr (Or.inl rfl)
  | case2b hE hG _ heq =>
    obtain ⟨berr1, berr2, h1, h2, heq'⟩ := @case2b_exact b scale hb.E hb.D
    rw [heq', Except.ok.injEq, ← hr] at heq
    left
    split_ifs at heq with hok hok2 hwmd
    · cases heq
      exact balanced2b1 hb
    · cases heq
      rw [if_pos hwmd] at h2
      have hok2' := hok2.resolve_right hberr
      obtain ⟨-, hexit, hmiddle⟩ := h2.noError.mp hok2'
      exact balanced2b3 hb hscale hwmd hexit hmiddle
    · cases heq
      exact balanced2b2 hb
  | case3a _ hw =>
    cases hr
    exact Or.inr (Or.inr rfl)
  | case3b _ _ _ hfind =>
    obtain ⟨-, rfl, -⟩ := hfind.of_some hr
    left
    dsimp only
    split_ifs
    · exact balanced3bg hb
    · exact balanced3be hb

/-! ### What is printed -/

theorem toInt32_of_range {x : ℤ} (h0 : 0 ≤ x) (hx : x ≤ 2 ^ 31 - 1) : toInt32 x = x := by
  rw [toInt32, Int.bmod_def]
  omega

/-- **Bandwidth weights are sound.**  For any total, what is printed lies between 0 and the scale, and the
weights of guards, of exits and of nodes that are both add up to the scale,
  up to 10.  Nothing is divided by zero.
For the total of the four, unless an imbalance of the middle bandwidth was passed over,
  or all of `D` went to one
position (cases 2a and 3a), guard, middle and exit bandwidth differ by at most `10*T/3`. -/
theorem bandwidthWeights_sound (b : Totals) (scale : ℤ) (hb : AllPositive b) (hpos : 0 < scale)
    (hmax : scale ≤ 2 ^ 31 - 1) :
    (∀ line, networkstatusComputeBwWeightsV10 exactMul b scale = .ok (some line) →
      ∃ c, chosenWeights exactMul b scale = .ok (some c) ∧ line = bandwidthWeights scale c.weights ∧
        (∀ p ∈ line, 0 ≤ p.2 ∧ p.2 ≤ scale) ∧
        ("Wgg", c.weights.wgg) ∈ line ∧ ("Wmg", c.weights.wmg) ∈ line ∧ ("Wee", c.weights.wee) ∈ line ∧
        ("Wme", c.weights.wme) ∈ line ∧ ("Wed", c.weights.wed) ∈ line ∧ ("Wmd", c.weights.wmd) ∈ line ∧
        ("Wgd", c.weights.wgd) ∈ line ∧
        |c.weights.wgg + c.weights.wmg - scale| ≤ 10 ∧ |c.weights.wee + c.weights.wme - scale| ≤ 10 ∧
        |c.weights.wed + c.weights.wmd + c.weights.wgd - scale| ≤ 10 ∧
        (b.T = b.G + b.M + b.E + b.D → c.berr ≠ .balanceMidError →
          Balanced b scale c.weights ∨ c.casename = .case2a ∨ c.casename = .case3a)) ∧
    NoFault (networkstatusComputeBwWeightsV10 exactMul b scale) := by
  obtain ⟨r, heq, hr⟩ := chooses hb hpos.le
  have hcompute : networkstatusComputeBwWeightsV10 exactMul b scale =
      .ok (r.map fun c => bandwidthWeights scale c.weights) := by
    rw [networkstatusComputeBwWeightsV10, heq, ok_bind]
    cases r with
    | none => rfl
    | some c => exact if_pos ⟨hpos, hmax⟩
  refine ⟨fun line hline => ?_, by rw [hcompute]; exact noFault_ok _⟩
  rw [hcompute, Except.ok.injEq] at hline
  obtain ⟨c, rfl, rfl⟩ := Option.map_eq_some_iff.mp hline
  have hok := weightsOk_of_chosen hb hpos.le hr
  have hcast : ∀ x ∈ [c.weights.wgg, c.weights.wgd, c.weights.wmg, c.weights.wme, c.weights.wmd, c.weights.wed,
      c.weights.wee], toInt32 x = x := fun x hx =>
    toInt32_of_range (hok.range x hx).1 ((hok.range x hx).2.trans hmax)
  have hrange := hok.range
  have hscale := toInt32_of_range hpos.le hmax
  simp only [List.forall_mem_cons, List.not_mem_nil, false_implies, implies_true, and_true] at hcast hrange
  obtain ⟨hgg, hgd, hmg, hme, hmd, hed, hee⟩ := hcast
  refine ⟨c, heq, rfl, ?_, ?_, ?_, ?_, ?_, ?_, ?_, ?_, ?_, ?_, hok.sumd, ?_⟩
  · simp only [bandwidthWeights, hgg, hgd, hmg, hme, hmd, hed, hee, hscale, List.forall_mem_cons,
      List.not_mem_nil, false_implies, implies_true, and_true]
    omega
  iterate 7
    · simp [bandwidthWeights, hgg, hgd, hmg, hme, hmd, hed, hee]
  · rw [add_comm c.weights.wgg]
    exact hok.sumg
  · rw [add_comm c.weights.wee]
    exact hok.sume
  · intro hT hberr
    exact balanced_of_chosen ⟨hb.1, hb.2.1, hb.2.2.1, hb.2.2.2, hT⟩ hpos.le hr hberr

/-- A network with ten times as much guard and exit bandwidth as other. -/
theorem bandwidthWeights_sound_ten :
    ∃ c, chosenWeights exactMul ⟨10, 1, 10, 1, 22⟩ 10000 = .ok (some c) ∧
      (Balanced ⟨10, 1, 10, 1, 22⟩ 10000 c.weights ∨ c.casename = .case2a ∨ c.casename = .case3a) := by
  have hline : networkstatusComputeBwWeightsV10 exactMul ⟨10, 1, 10, 1, 22⟩ 10000 =
      .ok (some (bandwidthWeights 10000 ⟨7000, 3333, 3000, 3000, 3333, 3333, 7000⟩)) := by
    decide +kernel
  have hchosen : chosenWeights exactMul ⟨10, 1, 10, 1, 22⟩ 10000 =
      .ok (some ⟨.case1, ⟨7000, 3333, 3000, 3000, 3333, 3333, 7000⟩, .noError⟩) := by
    decide +kernel
  obtain ⟨c, hc, -, -, -, -, -, -, -, -, -, -, -, -, hbalanced⟩ :=
    (bandwidthWeights_sound ⟨10, 1, 10, 1, 22⟩ 10000 (by simp [AllPositive]) (by decide) (by decide)).1 _ hline
  refine ⟨c, hc, hbalanced (by decide) ?_⟩
  rw [hchosen] at hc
  cases hc
  decide

end TorEbpf.Dirauth
