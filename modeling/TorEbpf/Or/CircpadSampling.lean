import Mathlib
import TorEbpf.Or.CircpadBins

/-!
# Sampling a delay

A delay is sampled in two steps: a bin is chosen, and then a delay in it.  For the first step a number below
the number of tokens is drawn, and the bins are added up until the sum reaches it.  The sum starts with the
first bin that has a token, and it goes on as long as it is *below* the number that has been drawn; so the
first such bin is chosen for one number more than it has tokens.

* `selectBin_spec` — the bin that is chosen has tokens, whatever is drawn, and no other memory is read;
* `chosenBin_eq` — the machine remembers it;
* `sampledByWeight_iff` — every bin is chosen for as many numbers as it has tokens exactly if only one bin
  has tokens.
-/

namespace TorEbpf.Or.Circpad

open TorEbpf.Lib

/-! ### Selecting a bin -/

/-- The tokens in a histogram; there are less than `2 ^ 40`, so that the 64-bit sum does not overflow. -/
def totalTokens (histogram : List UInt32) : ℕ := (histogram.map UInt32.toNat).sum

/-- The loop that skips the initial zero bins; the list holds the bins from `currBin` on. -/
def skipZeroBins : List UInt32 → ℕ → Outcome ℕ
  | [], _ => fault .read
  | tokens :: bins, currBin => if tokens = 0 then skipZeroBins bins (currBin + 1) else pure currBin

/-- The loop that adds up the bins; the list holds the bins behind `currBin`.  `none` is the way out past the
end of the histogram. -/
def weighBins (histogramLen binChoice : ℕ) : List UInt32 → ℕ → ℕ → Outcome (Option ℕ)
  | [], currBin, currWeight =>
      if currWeight < binChoice then
        if histogramLen ≤ currBin + 1 then pure none else fault .read
      else pure (some currBin)
  | tokens :: bins, currBin, currWeight =>
      if currWeight < binChoice then
        if histogramLen ≤ currBin + 1 then pure none
        else weighBins histogramLen binChoice bins (currBin + 1) (currWeight + tokens.toNat)
      else pure (some currBin)

/-- The two loops of `circpad_machine_sample_delay`. -/
def selectBin (histogramLen binChoice : ℕ) (histogram : List UInt32) : Outcome (Option ℕ) := do
  let currBin ← skipZeroBins histogram 0
  weighBins histogramLen binChoice (histogram.drop (currBin + 1)) currBin (histogram.getD currBin 0).toNat

/-! ### Sampling -/

/-- What a call draws: `crypto_fast_rng_get_uint64`, `crypto_fast_rng_uint64_range` and
`circpad_distribution_sample_iat_delay`, which samples in floating point. -/
structure Rng where
  uint64 : ℕ → ℕ
  uint64Range : UInt32 → UInt32 → UInt32
  iatDelay : State → UInt32 → UInt32

/-- The loop over `state->histogram_len` bins of the runtime histogram. -/
def sumTokens (histogramLen : ℕ) (histogram : List UInt32) : Outcome ℕ :=
  if histogram.length < histogramLen then fault .read
  else pure (totalTokens (histogram.take histogramLen))

/-- The histogram that is sampled from, and its number of tokens. -/
def sampledHistogram (state : State) (mi : Runtime) : Outcome (List UInt32 × ℕ) :=
  match mi.histogram with
  | some histogram => do
      let total ← sumTokens state.histogramLen histogram
      return (histogram, total)
  | none => return (state.histogram, state.histogramTotalTokens.toNat)

/-- `circpad_machine_sample_delay` after a bin has been chosen. -/
def sampleFromBin (rng : Rng) (machine : MachineSpec) (state : State) (histogram : List UInt32)
    (currBin : ℕ) (mi : Runtime) : Outcome (UInt32 × Runtime) :=
  if state.histogramLen ≤ currBin ∨ histogram.getD currBin 0 = 0 then pure (delayInfinite, mi)
  else
    let mi := if state.tokenRemoval ≠ .none then { mi with chosenBin := currBin } else mi
    if state.histogramLen ≤ currBin + 1 then
      if state.tokenRemoval ≠ .none then
        match mi.histogram with
        | none => fault .read
        | some h =>
            if 0 < h.getD currBin 0 then
              pure (delayInfinite, { mi with histogram := some (h.set currBin (h.getD currBin 0 - 1)) })
            else pure (delayInfinite, mi)
      else pure (delayInfinite, mi)
    else
      let binStart := histogramBinToUsec machine mi currBin
      let binEnd := histogramBinToUsec machine mi (currBin + 1)
      if binEnd ≤ binStart then pure (binStart, mi) else pure (rng.uint64Range binStart binEnd, mi)

def machineSampleDelay (rng : Rng) (machine : MachineSpec) (mi : Runtime) : Outcome (UInt32 × Runtime) :=
  match machineCurrentState machine mi with
  | none => fault .assertion
  | some state =>
      if state.iatDist ≠ .none then
        let iatDelayShift :=
          if state.useRttEstimate then mi.rttEstimateUsec + state.distAddedShiftUsec
          else state.distAddedShiftUsec
        pure (rng.iatDelay state iatDelayShift, mi)
      else do
        let (histogram, total) ← sampledHistogram state mi
        if total = 0 then pure (delayInfinite, mi)
        else
          let bin ← selectBin state.histogramLen (rng.uint64 total) histogram
          match bin with
          | none => pure (delayInfinite, mi)
          | some currBin => sampleFromBin rng machine state histogram currBin mi

/-! ### Sums of tokens -/

section Sums

variable {h bins : List UInt32} {a b k c w n : ℕ}

@[simp] theorem totalTokens_nil : totalTokens [] = 0 := rfl

@[simp] theorem totalTokens_cons (t : UInt32) : totalTokens (t :: h) = t.toNat + totalTokens h :=
  List.sum_cons

theorem toNat_eq_zero_iff {t : UInt32} : t.toNat = 0 ↔ t = 0 := by
  rw [← UInt32.toNat_inj]
  rfl

theorem totalTokens_eq_zero_iff : totalTokens h = 0 ↔ ∀ b, h.getD b 0 = 0 := by
  induction h with
  | nil => simp
  | cons t h ih =>
    rw [totalTokens_cons, Nat.add_eq_zero_iff, toNat_eq_zero_iff, ih]
    constructor
    · intro ⟨ht, hh⟩ b
      cases b with
      | zero => exact ht
      | succ b => exact hh b
    · intro hall
      exact ⟨hall 0, fun b => hall (b + 1)⟩

theorem totalTokens_set (h : List UInt32) (a : ℕ) :
    totalTokens h = (h.getD a 0).toNat + totalTokens (h.set a 0) := by
  induction h generalizing a with
  | nil => rfl
  | cons t h ih =>
    cases a with
    | zero =>
      rw [List.getD_cons_zero, List.set_cons_zero, totalTokens_cons, totalTokens_cons]
      exact (Nat.add_left_cancel_iff.mpr (Nat.zero_add _)).symm
    | succ a =>
      rw [List.getD_cons_succ, List.set_cons_succ, totalTokens_cons, totalTokens_cons, ih a]
      omega

/-- A bin has all the tokens exactly if the others have none. -/
theorem totalTokens_eq_iff : totalTokens h = (h.getD a 0).toNat ↔ ∀ b, b ≠ a → h.getD b 0 = 0 := by
  have hset : ∀ b, b ≠ a → (h.set a 0).getD b 0 = h.getD b 0 := by
    intro b hb
    rw [List.getD_eq_getElem?_getD, List.getD_eq_getElem?_getD, List.getElem?_set_ne (Ne.symm hb)]
  have hself : (h.set a 0).getD a 0 = 0 := by
    rw [List.getD_eq_getElem?_getD, List.getElem?_set_self']
    cases h[a]? with
    | none => rfl
    | some t => rfl
  rw [totalTokens_set h a, Nat.add_eq_left, totalTokens_eq_zero_iff]
  constructor
  · intro hall b hb
    rw [← hset b hb]
    exact hall b
  · intro hall b
    rcases eq_or_ne b a with rfl | hb
    · exact hself
    · rw [hset b hb]
      exact hall b hb

theorem totalTokens_drop (hzero : ∀ b, b < a → h.getD b 0 = 0) :
    totalTokens h = (h.getD a 0).toNat + totalTokens (h.drop (a + 1)) := by
  induction h generalizing a with
  | nil => rfl
  | cons t h ih =>
    cases a with
    | zero => exact totalTokens_cons t
    | succ a =>
      have ht : t = 0 := hzero 0 (Nat.succ_pos a)
      rw [totalTokens_cons, List.getD_cons_succ, List.drop_succ_cons,
        ← ih fun b hb => hzero (b + 1) (Nat.succ_lt_succ hb), ht]
      exact Nat.zero_add _

end Sums

/-! ### The two loops -/

section Loops

variable {h bins : List UInt32} {n c k w : ℕ}

theorem skipZeroBins_spec (hpos : totalTokens bins ≠ 0) (k : ℕ) :
    ∃ i, i < bins.length ∧ skipZeroBins bins k = .ok (k + i) ∧ bins.getD i 0 ≠ 0 ∧
      ∀ j, j < i → bins.getD j 0 = 0 := by
  induction bins generalizing k with
  | nil => exact absurd rfl hpos
  | cons t bins ih =>
    by_cases ht : t = 0
    · have hrest : totalTokens bins ≠ 0 := by
        intro hzero
        apply hpos
        rw [totalTokens_cons, ht, hzero]
        rfl
      obtain ⟨i, hi, hskip, hne, hbefore⟩ := ih hrest (k + 1)
      refine ⟨i + 1, Nat.succ_lt_succ hi, ?_, hne, ?_⟩
      · rw [skipZeroBins, if_pos ht, hskip, Nat.add_assoc, Nat.add_comm 1 i]
      · intro j hj
        cases j with
        | zero => exact ht
        | succ j => exact hbefore j (Nat.lt_of_succ_lt_succ hj)
    · refine ⟨0, Nat.succ_pos _, ?_, ht, fun j hj => absurd hj (Nat.not_lt_zero j)⟩
      rw [skipZeroBins, if_neg ht]
      rfl

/-- The second loop stops at once if the sum is large enough. -/
theorem weighBins_of_le (hle : c ≤ w) : weighBins n c bins k w = .ok (some k) := by
  cases bins with
  | nil => exact if_neg (Nat.not_lt.mpr hle)
  | cons t bins => exact if_neg (Nat.not_lt.mpr hle)

/-- The second loop stops before the end of the histogram, at a bin that has a token. -/
theorem weighBins_spec (hlen : k + 1 + bins.length = n) (hc : c < w + totalTokens bins) :
    ∃ b, weighBins n c bins k w = .ok (some b) ∧
      (b = k ∧ c ≤ w ∨ ∃ i, i < bins.length ∧ b = k + 1 + i ∧ bins.getD i 0 ≠ 0) := by
  induction bins generalizing k w with
  | nil => exact ⟨k, weighBins_of_le (Nat.le_of_lt hc), .inl ⟨rfl, Nat.le_of_lt hc⟩⟩
  | cons t bins ih =>
    by_cases hlt : w < c
    · rw [List.length_cons] at hlen
      rw [totalTokens_cons] at hc
      obtain ⟨b, hweigh, hb⟩ := @ih (k + 1) (w + t.toNat) (by omega) (by omega)
      have hstep : weighBins n c (t :: bins) k w = weighBins n c bins (k + 1) (w + t.toNat) := by
        rw [weighBins, if_pos hlt, if_neg (by omega)]
      refine ⟨b, hstep.trans hweigh, .inr ?_⟩
      rcases hb with ⟨rfl, hle⟩ | ⟨i, hi, rfl, hne⟩
      · -- the loop has stopped here, so this bin has made the difference
        refine ⟨0, Nat.succ_pos _, rfl, ?_⟩
        intro ht
        rw [List.getD_cons_zero] at ht
        rw [ht] at hle
        exact Nat.not_lt.mpr hle hlt
      · exact ⟨i + 1, Nat.succ_lt_succ hi, by omega, hne⟩
    · exact ⟨k, weighBins_of_le (Nat.le_of_not_lt hlt), .inl ⟨rfl, Nat.le_of_not_lt hlt⟩⟩

/-- **Selection.**  The bin that is selected has a token, and nothing is read past the last bin. -/
theorem selectBin_spec (hlen : h.length = n) (hc : c < totalTokens h) :
    ∃ b, selectBin n c h = .ok (some b) ∧ b < h.length ∧ h.getD b 0 ≠ 0 := by
  obtain ⟨a, ha, hskip, hne, hbefore⟩ := skipZeroBins_spec (Nat.ne_zero_of_lt hc) 0
  rw [Nat.zero_add] at hskip
  have hdrop := List.length_drop (i := a + 1) (l := h)
  obtain ⟨b, hweigh, hb⟩ := @weighBins_spec (h.drop (a + 1)) n c a (h.getD a 0).toNat (by omega)
    (by rwa [← totalTokens_drop hbefore])
  refine ⟨b, ?_, ?_⟩
  · rw [selectBin, hskip, ok_bind, hweigh]
  · rcases hb with ⟨rfl, _⟩ | ⟨i, hi, rfl, hnei⟩
    · exact ⟨ha, hne⟩
    · rw [List.getD_eq_getElem?_getD, List.getElem?_drop, ← List.getD_eq_getElem?_getD] at hnei
      exact ⟨by omega, hnei⟩

/-- The first bin that has a token is selected for all numbers up to its own, that one included. -/
theorem exists_first (n : ℕ) (hpos : totalTokens h ≠ 0) :
    ∃ a, a < h.length ∧ h.getD a 0 ≠ 0 ∧
      ∀ c, c ≤ (h.getD a 0).toNat → selectBin n c h = .ok (some a) := by
  obtain ⟨a, ha, hskip, hne, hbefore⟩ := skipZeroBins_spec hpos 0
  rw [Nat.zero_add] at hskip
  refine ⟨a, ha, hne, fun c hc => ?_⟩
  rw [selectBin, hskip, ok_bind]
  exact weighBins_of_le hc

end Loops

/-! ### Weights -/

/-- The bin that a machine remembers when a number has been drawn. -/
def chosenBin (rng : Rng) (machine : MachineSpec) (mi : Runtime) (binChoice : ℕ) : Option ℕ :=
  match machineSampleDelay { rng with uint64 := fun _ => binChoice } machine mi with
  | .ok (_, mi') => some mi'.chosenBin
  | .error _ => none

/-- Every bin is chosen for as many of the numbers as it has tokens, and an empty one never is. -/
def SampledByWeight (rng : Rng) (machine : MachineSpec) (mi : Runtime) (h : List UInt32) : Prop :=
  (∀ c, c < totalTokens h → ∃ b, chosenBin rng machine mi c = some b ∧ b < h.length ∧ h.getD b 0 ≠ 0) ∧
  ∀ b, b < h.length →
    Nat.count (fun c => chosenBin rng machine mi c = some b) (totalTokens h) = (h.getD b 0).toNat

section Weights

variable {rng : Rng} {machine : MachineSpec} {mi : Runtime} {state : State} {h : List UInt32} {b c : ℕ}

theorem sampleFromBin_spec (ht : HasTokens machine mi state h) (hb : b < h.length) (hne : h.getD b 0 ≠ 0) :
    ∃ delay mi', sampleFromBin rng machine state h b mi = .ok (delay, mi') ∧ mi'.chosenBin = b := by
  unfold sampleFromBin
  simp only [if_neg (not_or.mpr ⟨Nat.not_le.mpr (ht.length ▸ hb), hne⟩), if_pos ht.removal, ht.histogram]
  split_ifs with hinfinity hpos hempty
  · exact ⟨_, { mi with chosenBin := b, histogram := some _ }, rfl, rfl⟩
  · exact ⟨_, { mi with chosenBin := b, histogram := some h }, rfl, rfl⟩
  · exact ⟨_, { mi with chosenBin := b, histogram := some h }, rfl, rfl⟩
  · exact ⟨_, { mi with chosenBin := b, histogram := some h }, rfl, rfl⟩

/-- **Sampling.**  The machine remembers the bin that is selected. -/
theorem chosenBin_eq (rng : Rng) (ht : HasTokens machine mi state h) (hdist : state.iatDist = .none)
    (hc : c < totalTokens h) :
    ∃ b, chosenBin rng machine mi c = some b ∧ selectBin state.histogramLen c h = .ok (some b) ∧
      b < h.length ∧ h.getD b 0 ≠ 0 := by
  obtain ⟨b, hselect, hb, hne⟩ := selectBin_spec ht.length hc
  obtain ⟨delay, mi', hsample, hchosen⟩ :=
    @sampleFromBin_spec { rng with uint64 := fun _ => c } machine mi state h b ht hb hne
  have hhist : sampledHistogram state mi = .ok (h, totalTokens h) := by
    rw [sampledHistogram, ht.histogram]
    dsimp only
    rw [sumTokens, if_neg (by rw [ht.length]; exact lt_irrefl _), ← ht.length, List.take_length]
    rfl
  have hcall : machineSampleDelay { rng with uint64 := fun _ => c } machine mi = .ok (delay, mi') := by
    unfold machineSampleDelay
    rw [ht.current]
    dsimp only
    rw [if_neg (not_not.mpr hdist), hhist, ok_bind]
    dsimp only
    rw [if_neg (Nat.ne_zero_of_lt hc), hselect, ok_bind]
    exact hsample
  refine ⟨b, ?_, hselect, hb, hne⟩
  rw [chosenBin, hcall, ← hchosen]

/-- **Weights.**  With a runtime histogram every bin is chosen for as many of the numbers that can be drawn
as it has tokens exactly if only one bin has tokens. -/
theorem sampledByWeight_iff (ht : HasTokens machine mi state h) (hdist : state.iatDist = .none)
    (hpos : 0 < totalTokens h) :
    SampledByWeight rng machine mi h ↔ ∃! b, h.getD b 0 ≠ 0 := by
  obtain ⟨a, ha, hne, hfirst⟩ := exists_first state.histogramLen (Nat.ne_of_gt hpos)
  constructor
  · intro ⟨_, hcount⟩
    have htotal : totalTokens h = (h.getD a 0).toNat := by
      by_contra hother
      have hlt : (h.getD a 0).toNat + 1 ≤ totalTokens h := by
        have hsum := totalTokens_set h a
        omega
      -- the numbers up to the tokens of the first bin select it, and there is one more of them
      have hall : Nat.count (fun c => chosenBin rng machine mi c = some a) ((h.getD a 0).toNat + 1)
          = (h.getD a 0).toNat + 1 := by
        rw [Nat.count_iff_forall]
        intro c hc
        obtain ⟨b, hchosen, hselect, _⟩ := chosenBin_eq rng ht hdist (Nat.lt_of_lt_of_le hc hlt)
        rw [hfirst c (Nat.lt_succ_iff.mp hc)] at hselect
        cases hselect
        exact hchosen
      have hmono := Nat.count_monotone (fun c => chosenBin rng machine mi c = some a) hlt
      rw [hall, hcount a ha] at hmono
      omega
    refine ⟨a, hne, fun b hb => ?_⟩
    by_contra hba
    exact hb (totalTokens_eq_iff.mp htotal b hba)
  · rintro ⟨b₀, hb₀, hunique⟩
    have htotal : totalTokens h = (h.getD b₀ 0).toNat := by
      rw [totalTokens_eq_iff]
      intro b hb
      by_contra hbne
      exact hb (hunique b hbne)
    have hall : ∀ c, c < totalTokens h → chosenBin rng machine mi c = some b₀ := by
      intro c hc
      obtain ⟨b, hchosen, _, _, hbne⟩ := chosenBin_eq rng ht hdist hc
      rw [hchosen, hunique b hbne]
    refine ⟨fun c hc => ?_, fun b hb => ?_⟩
    · obtain ⟨b, hchosen, _, hb, hbne⟩ := chosenBin_eq rng ht hdist hc
      exact ⟨b, hchosen, hb, hbne⟩
    · rcases eq_or_ne b b₀ with rfl | hbb
      · rw [← htotal, Nat.count_iff_forall]
        exact hall
      · have hzero : h.getD b 0 = 0 := by
          by_contra hbne
          exact hbb (hunique b hbne)
        rw [hzero]
        refine Nat.count_of_forall_not fun c hc => ?_
        rw [hall c hc]
        intro heq
        exact hbb (Option.some.inj heq).symm

end Weights

/-! ### Two bins with one token each -/

/-- A state whose bins have one token each, but for the infinity bin, and no estimate is added. -/
def evenState : State := { rttState with useRttEstimate := false }

/-- The machine with this state only. -/
def evenMachine : MachineSpec := { rttMachine with states := [evenState] }

/-- Draws that are always the least ones. -/
def leastRng : Rng where
  uint64 _ := 0
  uint64Range lower _ := lower
  iatDelay _ shift := shift

theorem hasTokens_even (h : List UInt32) (hlen : h.length = 3) :
    HasTokens evenMachine { machineinfoNew with histogram := some h } evenState h :=
  ⟨rfl, nofun, rfl, hlen⟩

/-- Once the first bin is empty, the other one is chosen by weight. -/
theorem sampledByWeight_one_left :
    SampledByWeight leastRng evenMachine { machineinfoNew with histogram := some [0, 1, 0] } [0, 1, 0] :=
  (sampledByWeight_iff (hasTokens_even _ rfl) rfl (by decide)).mpr ⟨1, by decide, fun b hb => by
    match b with
    | 0 => exact absurd rfl hb
    | 1 => rfl
    | 2 => exact absurd rfl hb
    | _ + 3 => exact absurd rfl hb⟩

/-- Both numbers that can be drawn choose the first bin. -/
theorem not_sampledByWeight_even :
    chosenBin leastRng evenMachine { machineinfoNew with histogram := some [1, 1, 0] } 0 = some 0 ∧
      chosenBin leastRng evenMachine { machineinfoNew with histogram := some [1, 1, 0] } 1 = some 0 ∧
      ¬SampledByWeight leastRng evenMachine { machineinfoNew with histogram := some [1, 1, 0] }
        [1, 1, 0] := by
  refine ⟨by decide, by decide, fun h => ?_⟩
  exact absurd (h.2 1 (by decide)) (by decide)

end TorEbpf.Or.Circpad
