import Mathlib
import TorEbpf.Lib.Checked

/-!
# Bandwidth weights

`networkstatus_check_weights` and `networkstatus_compute_bw_weights_v10` of `dirvote.c`.  The multiplication is
a parameter: that of the integers, or that of `int64_t`, which may overflow.

* `chosenWeights` — the cases and their formulas;
* `networkstatusComputeBwWeightsV10` — what is printed.
-/

namespace TorEbpf.Dirauth

open TorEbpf.Lib

/-! ### Arithmetic -/

inductive Trouble where
  | divByZero
  | overflow
  | assertion
  deriving DecidableEq, Repr

abbrev Mul := ℤ → ℤ → Checked Unit Trouble ℤ

/-- The multiplication of unbounded integers. -/
def exactMul : Mul := fun a b => .ok (a * b)

/-- The multiplication of `int64_t`. -/
def int64Mul : Mul := fun a b => if -2 ^ 63 ≤ a * b ∧ a * b < 2 ^ 63 then .ok (a * b) else fault .overflow

def divide (a b : ℤ) : Checked Unit Trouble ℤ := if b = 0 then fault .divByZero else .ok (a.tdiv b)

/-! ### Checking weights -/

/-- `G`, `M`, `E`, `D` and `T`. -/
structure Totals where
  G : ℤ
  M : ℤ
  E : ℤ
  D : ℤ
  T : ℤ
  deriving DecidableEq, Repr

/-- `Wgg`, `Wgd`, `Wmg`, `Wme`, `Wmd`, `Wed` and `Wee`. -/
structure Weights where
  wgg : ℤ
  wgd : ℤ
  wmg : ℤ
  wme : ℤ
  wmd : ℤ
  wed : ℤ
  wee : ℤ
  deriving DecidableEq, Repr

inductive BwWeightsError where
  | noError
  | rangeError
  | sumgError
  | sumeError
  | sumdError
  | balanceMidError
  | balanceEgError
  deriving DecidableEq, Repr

def checkEq (a b margin : ℤ) : Bool := if 0 ≤ a - b then a - b ≤ margin else b - a ≤ margin

def rangeCheck (w : Weights) (mx : ℤ) : Bool :=
  [w.wgg, w.wgd, w.wmg, w.wme, w.wmd, w.wed, w.wee].all fun x => 0 ≤ x && x ≤ mx

/-- `Wgg*G + Wgd*D`. -/
def guardBandwidth (mul : Mul) (w : Weights) (b : Totals) : Checked Unit Trouble ℤ := do
  let gg ← mul w.wgg b.G
  let gd ← mul w.wgd b.D
  return gg + gd

/-- `Wee*E + Wed*D`. -/
def exitBandwidth (mul : Mul) (w : Weights) (b : Totals) : Checked Unit Trouble ℤ := do
  let ee ← mul w.wee b.E
  let ed ← mul w.wed b.D
  return ee + ed

/-- `M*scale + Wmd*D + Wme*E + Wmg*G`. -/
def middleBandwidth (mul : Mul) (w : Weights) (scale : ℤ) (b : Totals) : Checked Unit Trouble ℤ := do
  let mm ← mul b.M scale
  let md ← mul w.wmd b.D
  let me ← mul w.wme b.E
  let mg ← mul w.wmg b.G
  return mm + md + me + mg

def networkstatusCheckWeights (mul : Mul) (w : Weights) (scale : ℤ) (b : Totals) (margin : ℤ)
    (doBalance : Bool) : Checked Unit Trouble BwWeightsError :=
  if !checkEq (w.wed + w.wmd + w.wgd) scale margin then .ok .sumdError
  else if !checkEq (w.wmg + w.wgg) scale margin then .ok .sumgError
  else if !checkEq (w.wme + w.wee) scale margin then .ok .sumeError
  else if !rangeCheck w scale then .ok .rangeError
  else if !doBalance then .ok .noError
  else do
    let g ← guardBandwidth mul w b
    let e ← exitBandwidth mul w b
    let mt ← mul margin b.T
    if !checkEq g e (mt.tdiv 3) then return .balanceEgError
    else do
      let m ← middleBandwidth mul w scale b
      if !checkEq g m (mt.tdiv 3) then return .balanceMidError else return .noError

/-! ### The cases -/

inductive BwCase where
  | case1
  | case2a
  | case2b1
  | case2b2
  | case2b3
  | case3a
  | case3b
  deriving DecidableEq, Repr

/-- What is printed and how it was found. -/
structure Chosen where
  casename : BwCase
  weights : Weights
  berr : BwWeightsError
  deriving DecidableEq, Repr

section Cases

variable (mul : Mul) (b : Totals) (scale : ℤ)

/-- Case 1: neither guards nor exits are scarce. -/
def case1Weights : Checked Unit Trouble Weights := do
  let e3 ← mul 3 b.E
  let nee ← mul scale (b.E + b.G + b.M)
  let wee ← divide nee e3
  let g2 ← mul 2 b.G
  let nmg ← mul scale (g2 - b.E - b.M)
  let g3 ← mul 3 b.G
  let wmg ← divide nmg g3
  return ⟨scale - wmg, scale.tdiv 3, wmg, scale - wee, scale.tdiv 3, scale.tdiv 3, wee⟩

/-- Case 2a: both are scarce, and all of `D` goes to the scarcer ones. -/
def case2aWeights : Weights :=
  if b.E < b.G then ⟨scale, 0, 0, 0, 0, scale, scale⟩ else ⟨scale, scale, 0, 0, 0, 0, scale⟩

def case2b1Weights : Checked Unit Trouble Weights := do
  let nee ← mul scale (b.E - b.G + b.M)
  let wee ← divide nee b.E
  let e2 ← mul 2 b.E
  let g4 ← mul 4 b.G
  let m2 ← mul 2 b.M
  let ned ← mul scale (b.D - e2 + g4 - m2)
  let d3 ← mul 3 b.D
  let wed ← divide ned d3
  let nme ← mul scale (b.G - b.M)
  let wme ← divide nme b.E
  return ⟨scale, (scale - wed).tdiv 2, 0, wme, (scale - wed).tdiv 2, wed, wee⟩

/-- Case 2b2, and 2b3 if there is too much middle bandwidth. -/
def case2b2Weights : Checked Unit Trouble (BwCase × Weights) := do
  let e2 ← mul 2 b.E
  let ned ← mul scale (b.D - e2 + b.G + b.M)
  let d3 ← mul 3 b.D
  let wed ← divide ned d3
  let m2 ← mul 2 b.M
  let nmd ← mul scale (b.D - m2 + b.G + b.E)
  let wmd ← divide nmd d3
  if wmd < 0 then return (.case2b3, ⟨scale, scale - wed - 0, 0, 0, 0, wed, scale⟩)
  else return (.case2b2, ⟨scale, scale - wed - wmd, 0, 0, wmd, wed, scale⟩)

/-- The surplus of the one that is not scarce, in case 3a. -/
def case3aSurplus (s : ℤ) : Checked Unit Trouble ℤ :=
  if s < b.M then .ok 0
  else do
    let n ← mul scale (s - b.M)
    let s2 ← mul 2 s
    divide n s2

/-- Case 3a: one of them is scarce, and gets all of `D`. -/
def case3aWeights : Checked Unit Trouble Weights :=
  if b.G < b.E then (fun wme => ⟨scale, scale, 0, wme, 0, 0, scale - wme⟩) <$> case3aSurplus mul b scale b.E
  else (fun wmg => ⟨scale - wmg, 0, wmg, 0, 0, scale, scale⟩) <$> case3aSurplus mul b scale b.G

/-- Case 3b, with the scarce bandwidth `s` and the other one `o`: the weight of `D` in the position of `s`, and
that of `o` in its own. -/
def case3bNumbers (s o : ℤ) : Checked Unit Trouble (ℤ × ℤ) := do
  let s2 ← mul 2 s
  let nsd ← mul scale (b.D - s2 + o + b.M)
  let d3 ← mul 3 b.D
  let wsd ← divide nsd d3
  let noo ← mul scale (o + b.M)
  let o2 ← mul 2 o
  let woo ← divide noo o2
  return (wsd, woo)

/-- Case 3b: one of them is scarce, and `D` is divided. -/
def case3bWeights : Checked Unit Trouble Weights :=
  if b.G < b.E then
    (fun r => ⟨scale, r.1, 0, scale - r.2, (scale - r.1).tdiv 2, (scale - r.1).tdiv 2, r.2⟩) <$>
      case3bNumbers mul b scale b.G b.E
  else
    (fun r => ⟨r.2, (scale - r.1).tdiv 2, scale - r.2, 0, (scale - r.1).tdiv 2, r.1, scale⟩) <$>
      case3bNumbers mul b scale b.E b.G

def checked (casename : BwCase) (w : Weights) : Checked Unit Trouble (Option Chosen) :=
  (fun berr => if berr = .noError then some ⟨casename, w, berr⟩ else none) <$>
    networkstatusCheckWeights mul w scale b 10 true

/-- Weights that are used even if the middle bandwidth is out of balance. -/
def checkedButMiddle (casename : BwCase) (w : Weights) : Checked Unit Trouble (Option Chosen) :=
  (fun berr => if berr = .noError ∨ berr = .balanceMidError then some ⟨casename, w, berr⟩ else none) <$>
    networkstatusCheckWeights mul w scale b 10 true

/-- Case 2b: 2b1, and if its weights do not fit, 2b2 or 2b3. -/
def case2b : Checked Unit Trouble (Option Chosen) := do
  let w1 ← case2b1Weights mul b scale
  let berr ← networkstatusCheckWeights mul w1 scale b 10 true
  if berr = .noError then return some ⟨.case2b1, w1, berr⟩
  else do
    let r ← case2b2Weights mul b scale
    checkedButMiddle mul b scale r.1 r.2

/-- The weights of `networkstatus_compute_bw_weights_v10`; none if it returns 0. -/
def chosenWeights : Checked Unit Trouble (Option Chosen) :=
  if b.G ≤ 0 ∨ b.M ≤ 0 ∨ b.E ≤ 0 ∨ b.D ≤ 0 then .ok none
  else do
    let e3 ← mul 3 b.E
    let g3 ← mul 3 b.G
    if b.T ≤ e3 ∧ b.T ≤ g3 then do
      let w ← case1Weights mul b scale
      checked mul b scale .case1 w
    else if e3 < b.T ∧ g3 < b.T then
      if min b.E b.G + b.D < max b.E b.G then return some ⟨.case2a, case2aWeights b scale, .noError⟩
      else case2b mul b scale
    else do
      let sd3 ← mul 3 (min b.E b.G + b.D)
      if sd3 < b.T then do
        let w ← case3aWeights mul b scale
        return some ⟨.case3a, w, .noError⟩
      else do
        let w ← case3bWeights mul b scale
        checked mul b scale .case3b w

/-- `(int) x`. -/
def toInt32 (x : ℤ) : ℤ := x.bmod (2 ^ 32)

def bandwidthWeights (w : Weights) : List (String × ℤ) :=
  [("Wbd", toInt32 w.wmd), ("Wbe", toInt32 w.wme), ("Wbg", toInt32 w.wmg), ("Wbm", toInt32 scale),
    ("Wdb", toInt32 scale), ("Web", toInt32 scale), ("Wed", toInt32 w.wed), ("Wee", toInt32 w.wee),
    ("Weg", toInt32 w.wed), ("Wem", toInt32 w.wee), ("Wgb", toInt32 scale), ("Wgd", toInt32 w.wgd),
    ("Wgg", toInt32 w.wgg), ("Wgm", toInt32 w.wgg), ("Wmb", toInt32 scale), ("Wmd", toInt32 w.wmd),
    ("Wme", toInt32 w.wme), ("Wmg", toInt32 w.wmg), ("Wmm", toInt32 scale)]

/-- `networkstatus_compute_bw_weights_v10`: the line that it adds to `chunks` when it returns 1. -/
def networkstatusComputeBwWeightsV10 : Checked Unit Trouble (Option (List (String × ℤ))) := do
  let chosen ← chosenWeights mul b scale
  match chosen with
  | none => return none
  | some c =>
    if 0 < scale ∧ scale ≤ 2 ^ 31 - 1 then return some (bandwidthWeights scale c.weights)
    else fault .assertion

end Cases

/-- A network with ten times as much guard and exit bandwidth as other. -/
example : networkstatusComputeBwWeightsV10 exactMul ⟨10, 1, 10, 1, 22⟩ 10000 =
    .ok (some (bandwidthWeights 10000 ⟨7000, 3333, 3000, 3000, 3333, 3333, 7000⟩)) := by
  decide +kernel

end TorEbpf.Dirauth
