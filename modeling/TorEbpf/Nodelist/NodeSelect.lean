import TorEbpf.Lib.Checked
import TorEbpf.Lib.Residues

/-!
# Choosing an element by weight

`choose_array_element_by_weight` draws a number below the total of the weights, by rejection of random 64-bit
values, and finds the element in which the running total first exceeds it, in a loop that does not stop there.

* `gtI64Timei32_eq` — the comparison without branches is the plain one, below 2^63;
* `select_eq_pick` — the loop yields the element that is picked;
* `chooseArrayElementByWeight_exact` — each element is chosen for as many random values as its weight asks for.
-/

namespace TorEbpf.Nodelist

open TorEbpf.Lib

/-! ### The code -/

/-- `UINT64_MAX` and `INT64_MAX`. -/
def uint64Max : UInt64 := 0xffffffffffffffff
def int64Max : UInt64 := 0x7fffffffffffffff

inductive RandFault where
  | assertion
  deriving DecidableEq, Repr

/-- `gt_i64_timei`, if pointers have 64 bits. -/
def gtI64Timei (a b : UInt64) : Bool := b < a

/-- `gt_i64_timei` otherwise: the sign bit of `b - a`. -/
def gtI64Timei32 (a b : UInt64) : Bool :=
  let diff := (b - a).toBitVec
  let res : BitVec 32 := (diff.sshiftRight 63).setWidth 32
  res &&& 1#32 != 0#32

/-- The local variables of the loop of `select_array_member_cumulative_timei`. -/
structure SelectState where
  i : ℤ
  totalSoFar : UInt64
  randVal : UInt64
  iChosen : ℤ
  nChosen : ℤ
  deriving DecidableEq, Repr

section Code

variable (gt : UInt64 → UInt64 → Bool)

def selectStep (st : SelectState) (entry : UInt64) : SelectState :=
  let totalSoFar := st.totalSoFar + entry
  if gt totalSoFar st.randVal then ⟨st.i + 1, totalSoFar, int64Max, st.i, st.nChosen + 1⟩
  else { st with i := st.i + 1, totalSoFar := totalSoFar }

def selectArrayMemberCumulativeTimei (entries : List UInt64) (total randVal : UInt64) :
    Checked Unit RandFault ℤ :=
  let st := entries.foldl (selectStep gt) ⟨0, 0, randVal, -1, 0⟩
  if st.totalSoFar = total ∧ st.nChosen = 1 ∧ 0 ≤ st.iChosen ∧ st.iChosen < entries.length then .ok st.iChosen
  else fault .assertion

/-- `cutoff` of `IMPLEMENT_RAND_UNSIGNED`. -/
def cutoff (limit : UInt64) : UInt64 := uint64Max - uint64Max % limit

/-- `crypto_rand_uint64`, with the values that `crypto_rand` fills in; nothing if all of them are rejected. -/
def cryptoRandUint64 (max : UInt64) (vals : List UInt64) : Checked Unit RandFault (Option UInt64) :=
  if ¬max < uint64Max then fault .assertion
  else if ¬0 < max then fault .assertion
  else .ok ((vals.find? (· < cutoff max)).map (· % max))

/-- `choose_array_element_by_weight`; `cryptoRandInt` is `crypto_rand_int`. -/
def chooseArrayElementByWeight (cryptoRandInt : ℕ → ℤ) (entries : List UInt64) (vals : List UInt64) :
    Checked Unit RandFault (Option ℤ) :=
  let total := entries.foldl (· + ·) 0
  if entries.length < 1 then .ok (some (-1))
  else if total = 0 then .ok (some (cryptoRandInt entries.length))
  else if ¬total < int64Max then fault .assertion
  else do
    match ← cryptoRandUint64 total vals with
    | none => return none
    | some randVal => return some (← selectArrayMemberCumulativeTimei gt entries total randVal)

end Code

/-! ### Comparing -/

/-- A comparison that is right below 2^63. -/
def GtOk (gt : UInt64 → UInt64 → Bool) : Prop :=
  ∀ a b : UInt64, a.toNat < 2 ^ 63 → b.toNat < 2 ^ 63 → gt a b = decide (b.toNat < a.toNat)

theorem gtOk_gtI64Timei : GtOk gtI64Timei := by
  intro a b _ _
  exact decide_eq_decide.mpr UInt64.lt_iff_toNat_lt

theorem sign_eq (x : BitVec 64) : ((x.sshiftRight 63).setWidth 32 &&& 1#32 != 0#32) = x.msb := by
  have hbit : ((x.sshiftRight 63).setWidth 32).getLsbD 0 = x.msb := by
    rw [BitVec.getLsbD_setWidth, BitVec.getLsbD_sshiftRight, BitVec.msb_eq_getLsbD_last]
    simp
  rw [BitVec.and_one_eq_setWidth_ofBool_getLsbD, hbit]
  cases x.msb <;> decide

/-- **The comparison without branches.** -/
theorem gtI64Timei32_eq : GtOk gtI64Timei32 := by
  intro a b ha hb
  have hsign : gtI64Timei32 a b = (b - a).toBitVec.msb := sign_eq _
  rw [hsign, BitVec.msb_eq_decide, UInt64.toNat_toBitVec, UInt64.toNat_sub]
  congr 1
  rw [eq_iff_iff]
  omega

/-! ### The loop -/

def weights (entries : List UInt64) : List ℕ := entries.map UInt64.toNat

section Loop

variable {gt : UInt64 → UInt64 → Bool} {entries : List UInt64}

theorem selectStep_of_gt {st : SelectState} {e : UInt64} (h : gt (st.totalSoFar + e) st.randVal = true) :
    selectStep gt st e = ⟨st.i + 1, st.totalSoFar + e, int64Max, st.i, st.nChosen + 1⟩ := by
  simp only [selectStep, h, if_true]

theorem selectStep_of_not_gt {st : SelectState} {e : UInt64} (h : gt (st.totalSoFar + e) st.randVal = false) :
    selectStep gt st e = { st with i := st.i + 1, totalSoFar := st.totalSoFar + e } := by
  simp only [selectStep, h, Bool.false_eq_true, if_false]

/-- What the loop does behind the chosen element: the total goes on, and nothing else is chosen. -/
theorem foldl_selectStep_chosen (hgt : GtOk gt) (st : SelectState) (hrand : st.randVal = int64Max)
    (hsum : st.totalSoFar.toNat + (weights entries).sum < 2 ^ 63 - 1) :
    (entries.foldl (selectStep gt) st).iChosen = st.iChosen ∧
      (entries.foldl (selectStep gt) st).nChosen = st.nChosen ∧
        (entries.foldl (selectStep gt) st).totalSoFar.toNat = st.totalSoFar.toNat + (weights entries).sum := by
  induction entries generalizing st with
  | nil => simp [weights]
  | cons e entries ih =>
    simp only [weights, List.map_cons, List.sum_cons] at hsum
    have htotal : (st.totalSoFar + e).toNat = st.totalSoFar.toNat + e.toNat := by
      rw [UInt64.toNat_add]
      omega
    have hmax : int64Max.toNat = 2 ^ 63 - 1 := rfl
    have hnot : gt (st.totalSoFar + e) st.randVal = false := by
      rw [hrand, hgt _ _ (by omega) (by omega), decide_eq_false (by omega)]
    rw [List.foldl_cons, selectStep_of_not_gt hnot]
    obtain ⟨h1, h2, h3⟩ := ih { st with i := st.i + 1, totalSoFar := st.totalSoFar + e } hrand
      (by dsimp only; unfold weights; omega)
    refine ⟨h1, h2, ?_⟩
    rw [h3]
    simp only [weights, List.map_cons, List.sum_cons]
    omega

/-- **The loop** chooses the element that is picked by what is left of the random value. -/
theorem foldl_selectStep (hgt : GtOk gt) (st : SelectState) {r k : ℕ}
    (hr : st.randVal.toNat = st.totalSoFar.toNat + r)
    (hsum : st.totalSoFar.toNat + (weights entries).sum < 2 ^ 63 - 1) (hlt : st.randVal.toNat < 2 ^ 63)
    (hpick : pick (weights entries) r = some k) :
    (entries.foldl (selectStep gt) st).iChosen = st.i + k ∧
      (entries.foldl (selectStep gt) st).nChosen = st.nChosen + 1 ∧
        (entries.foldl (selectStep gt) st).totalSoFar.toNat = st.totalSoFar.toNat + (weights entries).sum := by
  induction entries generalizing st r k with
  | nil => cases hpick
  | cons e entries ih =>
    simp only [weights, List.map_cons, List.sum_cons] at hsum
    have htotal : (st.totalSoFar + e).toNat = st.totalSoFar.toNat + e.toNat := by
      rw [UInt64.toNat_add]
      omega
    rw [List.foldl_cons]
    change (if r < e.toNat then some 0 else (pick (weights entries) (r - e.toNat)).map (· + 1)) = some k at hpick
    by_cases hchosen : r < e.toNat
    · rw [if_pos hchosen] at hpick
      cases hpick
      have hgreater : gt (st.totalSoFar + e) st.randVal = true := by
        rw [hgt _ _ (by omega) hlt, decide_eq_true (by omega)]
      rw [selectStep_of_gt hgreater]
      obtain ⟨h1, h2, h3⟩ := @foldl_selectStep_chosen gt entries hgt
        ⟨st.i + 1, st.totalSoFar + e, int64Max, st.i, st.nChosen + 1⟩ rfl
        (by dsimp only; unfold weights; omega)
      refine ⟨by rw [h1]; simp, h2, ?_⟩
      rw [h3]
      simp only [weights, List.map_cons, List.sum_cons]
      omega
    · rw [if_neg hchosen] at hpick
      obtain ⟨j, hj, rfl⟩ := Option.map_eq_some_iff.mp hpick
      have hnot : gt (st.totalSoFar + e) st.randVal = false := by
        rw [hgt _ _ (by omega) hlt, decide_eq_false (by omega)]
      rw [selectStep_of_not_gt hnot]
      obtain ⟨h1, h2, h3⟩ := ih { st with i := st.i + 1, totalSoFar := st.totalSoFar + e } (r := r - e.toNat)
        (by dsimp only; omega) (by dsimp only; unfold weights; omega) hlt hj
      refine ⟨?_, h2, ?_⟩
      · rw [h1]
        push_cast
        ring
      · rw [h3]
        simp only [weights, List.map_cons, List.sum_cons]
        omega

theorem toNat_foldl_add (entries : List UInt64) (a : UInt64) (h : a.toNat + (weights entries).sum < 2 ^ 64) :
    (entries.foldl (· + ·) a).toNat = a.toNat + (weights entries).sum := by
  induction entries generalizing a with
  | nil => simp [weights]
  | cons e entries ih =>
    simp only [weights, List.map_cons, List.sum_cons] at h
    have hadd : (a + e).toNat = a.toNat + e.toNat := by
      rw [UInt64.toNat_add]
      omega
    rw [List.foldl_cons, ih (a + e) (by unfold weights; omega), hadd]
    simp only [weights, List.map_cons, List.sum_cons]
    omega

/-- **The selection** yields what is picked, and its assertions hold. -/
theorem select_eq_pick (hgt : GtOk gt) {total randVal : UInt64} (htotal : total.toNat = (weights entries).sum)
    (hmax : total.toNat < 2 ^ 63 - 1) {k : ℕ} (hpick : pick (weights entries) randVal.toNat = some k)
    (hrand : randVal.toNat < total.toNat) (hk : k < entries.length) :
    selectArrayMemberCumulativeTimei gt entries total randVal = .ok (k : ℤ) := by
  have hrun := @foldl_selectStep gt entries hgt ⟨0, 0, randVal, -1, 0⟩ randVal.toNat k
    (by simp) (by simp; omega) (by dsimp only; omega) hpick
  obtain ⟨h1, h2, h3⟩ := hrun
  have hsum : (entries.foldl (selectStep gt) ⟨0, 0, randVal, -1, 0⟩).totalSoFar = total := by
    apply UInt64.toNat_inj.mp
    rw [h3, htotal]
    simp
  unfold selectArrayMemberCumulativeTimei
  dsimp only
  rw [hsum, h1, h2, if_pos (by simp; omega), zero_add]

end Loop

/-! ### The choice -/

/-- The element that is chosen for a random value. -/
def indexOf (entries : List UInt64) (v : UInt64) : ℕ :=
  (pick (weights entries) (v.toNat % (weights entries).sum)).getD 0

def accepted (entries : List UInt64) (v : UInt64) : Bool := v < cutoff (entries.foldl (· + ·) 0)

/-- The random values that satisfy a condition, as numbers. -/
def randomValues (p : UInt64 → Bool) : Finset ℕ := (Finset.range (2 ^ 64)).filter fun v => p v.toUInt64

/-- **An exact choice**: what is returned for the values that `crypto_rand` fills in is the element of the first
one that is accepted, and each element is that of as many accepted values as its weight asks for. -/
structure ChoiceExact (gt : UInt64 → UInt64 → Bool) (cryptoRandInt : ℕ → ℤ) (entries : List UInt64) : Prop where
  returns : ∀ vals, chooseArrayElementByWeight gt cryptoRandInt entries vals =
    .ok ((vals.find? (accepted entries)).map fun v => (indexOf entries v : ℤ))
  index_lt : ∀ v, indexOf entries v < entries.length
  weight_pos : ∀ v, 0 < (weights entries).getD (indexOf entries v) 0
  count : ∀ i < entries.length,
    (randomValues fun v => accepted entries v && indexOf entries v == i).card =
      (weights entries).getD i 0 * ((2 ^ 64 - 1) / (weights entries).sum)
  probability : ∀ i < entries.length,
    ((randomValues fun v => accepted entries v && indexOf entries v == i).card : ℚ) /
        (randomValues (accepted entries)).card =
      (weights entries).getD i 0 / (weights entries).sum

section Choice

variable {entries : List UInt64} (hpos : 0 < (weights entries).sum) (hmax : (weights entries).sum < 2 ^ 63 - 1)

include hpos in
theorem pick_indexOf (v : UInt64) : indexOf entries v < entries.length ∧
    pick (weights entries) (v.toNat % (weights entries).sum) = some (indexOf entries v) := by
  obtain ⟨i, hi, hpick⟩ := exists_pick (Nat.mod_lt v.toNat hpos)
  have hindex : indexOf entries v = i := by
    unfold indexOf
    rw [hpick]
    rfl
  rw [hindex]
  exact ⟨by simpa [weights] using hi, hpick⟩

include hmax in
theorem toNat_total : (entries.foldl (· + ·) 0).toNat = (weights entries).sum := by
  rw [toNat_foldl_add entries 0 (by simp; omega)]
  simp

include hmax

/-- The accepted values are those below a multiple of the total. -/
theorem accepted_iff (v : UInt64) : accepted entries v = true ↔
    v.toNat < (weights entries).sum * ((2 ^ 64 - 1) / (weights entries).sum) := by
  have htotal := toNat_total hmax
  have hcut : (cutoff (entries.foldl (· + ·) 0)).toNat =
      (weights entries).sum * ((2 ^ 64 - 1) / (weights entries).sum) := by
    have hdiv := Nat.div_add_mod (2 ^ 64 - 1) (weights entries).sum
    have hle : uint64Max % entries.foldl (· + ·) 0 ≤ uint64Max := by
      rw [UInt64.le_iff_toNat_le, UInt64.toNat_mod]
      exact Nat.mod_le _ _
    have hval : uint64Max.toNat = 2 ^ 64 - 1 := rfl
    unfold cutoff
    rw [UInt64.toNat_sub_of_le _ _ hle, UInt64.toNat_mod, htotal, hval]
    omega
  unfold accepted
  rw [decide_eq_true_eq, UInt64.lt_iff_toNat_lt, hcut]

theorem card_randomValues (p : ℕ → Bool) :
    (randomValues fun v => accepted entries v && p (v.toNat % (weights entries).sum)).card =
      ((Finset.range (weights entries).sum).filter fun r => p r = true).card *
        ((2 ^ 64 - 1) / (weights entries).sum) := by
  have hle : (weights entries).sum * ((2 ^ 64 - 1) / (weights entries).sum) ≤ 2 ^ 64 - 1 := Nat.mul_div_le _ _
  rw [← card_filter_mod]
  refine congrArg Finset.card ?_
  ext v
  simp only [randomValues, Finset.mem_filter, Finset.mem_range, Bool.and_eq_true, accepted_iff hmax]
  constructor
  · rintro ⟨hv, hacc, hp⟩
    have hnat : v.toUInt64.toNat = v := UInt64.toNat_ofNat_of_lt' hv
    rw [hnat] at hacc hp
    exact ⟨hacc, hp⟩
  · rintro ⟨hacc, hp⟩
    have hv : v < 2 ^ 64 := by omega
    have hnat : v.toUInt64.toNat = v := UInt64.toNat_ofNat_of_lt' hv
    rw [hnat]
    exact ⟨hv, hacc, hp⟩

theorem card_accepted :
    (randomValues (accepted entries)).card = (weights entries).sum * ((2 ^ 64 - 1) / (weights entries).sum) := by
  have h := card_randomValues hmax fun _ => true
  simp only [Bool.and_true, Finset.filter_true, Finset.card_range] at h
  exact h

include hpos

/-- **Counting**: as many accepted values as the weight asks for. -/
theorem card_chosen {i : ℕ} (hi : i < entries.length) :
    (randomValues fun v => accepted entries v && indexOf entries v == i).card =
      (weights entries).getD i 0 * ((2 ^ 64 - 1) / (weights entries).sum) := by
  have hindex : ∀ v : UInt64, (indexOf entries v == i) =
      decide (pick (weights entries) (v.toNat % (weights entries).sum) = some i) := by
    intro v
    rw [(pick_indexOf hpos v).2, Bool.beq_eq_decide_eq]
    simp
  simp only [hindex]
  rw [card_randomValues hmax fun r => decide (pick (weights entries) r = some i)]
  simp only [decide_eq_true_eq]
  rw [card_filter_pick (by simpa [weights] using hi)]

theorem choose_eq {gt : UInt64 → UInt64 → Bool} (hgt : GtOk gt) (cryptoRandInt : ℕ → ℤ) (vals : List UInt64) :
    chooseArrayElementByWeight gt cryptoRandInt entries vals =
      .ok ((vals.find? (accepted entries)).map fun v => (indexOf entries v : ℤ)) := by
  have htotal := toNat_total hmax
  have hne : entries ≠ [] := by
    rintro rfl
    exact absurd hpos (by simp [weights])
  have hlen : ¬entries.length < 1 := by
    rw [Nat.lt_one_iff, List.length_eq_zero_iff]
    exact hne
  have hzero : ¬entries.foldl (· + ·) 0 = 0 := by
    intro h
    rw [h] at htotal
    simp at htotal
    omega
  have hlt : entries.foldl (· + ·) 0 < int64Max := by
    rw [UInt64.lt_iff_toNat_lt, htotal]
    exact hmax
  have hlt' : entries.foldl (· + ·) 0 < uint64Max := by
    rw [UInt64.lt_iff_toNat_lt, htotal]
    have hval : uint64Max.toNat = 2 ^ 64 - 1 := rfl
    omega
  have hpos' : 0 < entries.foldl (· + ·) 0 := by
    rw [UInt64.lt_iff_toNat_lt, htotal]
    exact hpos
  unfold chooseArrayElementByWeight cryptoRandUint64
  dsimp only
  rw [if_neg hlen, if_neg hzero, if_neg (not_not.mpr hlt), if_neg (not_not.mpr hlt'), if_neg (not_not.mpr hpos'),
    ok_bind]
  change (match ((vals.find? (accepted entries)).map (· % entries.foldl (· + ·) 0)) with
    | none => _
    | some randVal => _) = _
  cases vals.find? (accepted entries) with
  | none => rfl
  | some v =>
    obtain ⟨hi, hpick⟩ := pick_indexOf hpos v
    have hmod : (v % entries.foldl (· + ·) 0).toNat = v.toNat % (weights entries).sum := by
      rw [UInt64.toNat_mod, htotal]
    have hselect := @select_eq_pick gt entries hgt (entries.foldl (· + ·) 0) (v % entries.foldl (· + ·) 0) htotal
      (by omega) (indexOf entries v) (by rw [hmod]; exact hpick)
      (by rw [hmod, htotal]; exact Nat.mod_lt _ hpos) hi
    rw [Option.map_some]
    dsimp only
    rw [hselect]
    rfl

end Choice

/-- **Weighted choice is exact**, whichever comparison is compiled. -/
theorem chooseArrayElementByWeight_exact (cryptoRandInt : ℕ → ℤ) (entries : List UInt64)
    (hpos : 0 < (weights entries).sum) (hmax : (weights entries).sum < 2 ^ 63 - 1) :
    ∀ gt ∈ [gtI64Timei, gtI64Timei32], ChoiceExact gt cryptoRandInt entries := by
  intro gt hmem
  have hgt : GtOk gt := by
    rcases List.mem_pair.mp hmem with rfl | rfl
    · exact gtOk_gtI64Timei
    · exact gtI64Timei32_eq
  have hquot : 0 < (2 ^ 64 - 1) / (weights entries).sum := Nat.div_pos (by omega) hpos
  refine ⟨choose_eq hpos hmax hgt cryptoRandInt, fun v => (pick_indexOf hpos v).1, fun v => ?_,
    fun i hi => card_chosen hpos hmax hi, fun i hi => ?_⟩
  · have hpicked := pick_eq_some_iff.mp (pick_indexOf hpos v).2
    omega
  · rw [card_chosen hpos hmax hi, card_accepted hmax]
    push_cast
    rw [mul_div_mul_right]
    exact_mod_cast hquot.ne'

/-- Weights 1, 0 and 2. -/
theorem chooseArrayElementByWeight_exact_three :
    ChoiceExact gtI64Timei (fun _ => 0) [1, 0, 2] ∧ ChoiceExact gtI64Timei32 (fun _ => 0) [1, 0, 2] := by
  have hexact := chooseArrayElementByWeight_exact (fun _ => 0) [1, 0, 2] (by decide) (by decide)
  exact ⟨hexact gtI64Timei (by simp), hexact gtI64Timei32 (by simp)⟩

end TorEbpf.Nodelist
