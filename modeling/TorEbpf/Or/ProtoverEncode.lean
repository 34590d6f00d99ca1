import TorEbpf.Lib.Checked
import TorEbpf.Or.Protover

/-!
# Writing protocol lists

An entry is written range by range: the lowest versions that are not in the mask are shifted out of it, and
then the run of versions that are.  To find the length of a run, the encoder counts the trailing zeros of the
complement; that is only defined while the complement is not zero, and it is zero if the mask has all the 64
versions.

* `encodeRanges_spec` — any other mask is written as ranges that have this mask;
* `encodeRanges_full` — the mask with all versions leads to the undefined count;
* `parse_encode` — what has been written is read back as the same entries.
-/

namespace TorEbpf.Or.Protover

open TorEbpf.Lib

/-! ### The encoder -/

/-- What the encoder must not do: count the trailing zeros of zero, or shift by 64 or more. -/
inductive EncodeFault where
  | trailingZeros
  | shift
  deriving DecidableEq, Repr

abbrev Encoding (α : Type) := Checked Unit EncodeFault α

def trailingZeros (x : BitVec 64) : Encoding ℕ :=
  if x = 0 then fault .trailingZeros else pure x.ctz.toNat

def shiftRight (x : BitVec 64) (n : ℕ) : Encoding (BitVec 64) :=
  if 64 ≤ n then fault .shift else pure (x >>> n)

/-- The loop of `proto_entry_encode_into`; there are at most 64 runs. -/
def encodeRanges : ℕ → BitVec 64 → ℕ → Bool → Encoding (List UInt8)
  | 0, _, _, _ => reject ()
  | fuel + 1, mask, shift, first =>
      if mask = 0 then pure []
      else do
        let separator := if first then [] else [comma]
        let zeros ← trailingZeros mask
        let mask ← shiftRight mask zeros
        let shift := shift + zeros
        let ones ← if mask = 0 then pure 64 else trailingZeros (~~~mask)
        let range :=
          if ones = 1 then separator ++ decimal shift
          else separator ++ decimal shift ++ hyphen :: decimal (shift + ones - 1)
        if ones = 64 then return range
        else do
          let mask ← shiftRight mask ones
          let rest ← encodeRanges fuel mask (shift + ones) false
          return range ++ rest

/-- `proto_entry_encode_into`. -/
def protoEntryEncode (entry : ProtoEntry) : Encoding (List UInt8) := do
  let ranges ← encodeRanges 65 entry.bitmask 0 true
  return entry.name ++ equals :: ranges

/-- `encode_protocol_list`, with the separator that the next entry has. -/
def encodeEntries : List UInt8 → List ProtoEntry → Encoding (List UInt8)
  | _, [] => pure []
  | separator, entry :: entries => do
      let chunk ← protoEntryEncode entry
      let rest ← encodeEntries [space] entries
      return separator ++ chunk ++ rest

def encodeProtocolList (sl : List ProtoEntry) : Encoding (List UInt8) := encodeEntries [] sl

/-! ### Runs of ones -/

section Runs

variable {mask m : BitVec 64} {shift z o i : ℕ}

/-- The mask has no bits that the shift has moved past the end. -/
def Fits (mask : BitVec 64) (shift : ℕ) : Prop := ∀ i, 64 ≤ shift + i → mask.getLsbD i = false

theorem ctz_lt (h : mask ≠ 0) : mask.ctz.toNat < 64 := by
  have hlt := BitVec.ctz_lt_iff_ne_zero.mpr h
  exact BitVec.lt_def.mp hlt

theorem trailingZeros_eq (h : mask ≠ 0) : trailingZeros mask = .ok mask.ctz.toNat := if_neg h

theorem shiftRight_eq (h : z < 64) : shiftRight mask z = .ok (mask >>> z) := if_neg (Nat.not_le.mpr h)

theorem ne_zero_of_getLsbD (h : mask.getLsbD i = true) : mask ≠ 0 := by
  rintro rfl
  rw [BitVec.ofNat_eq_ofNat, BitVec.getLsbD_zero] at h
  cases h

/-- A run: after `z` zeros there are `o` ones, and then a zero. -/
structure IsRun (mask : BitVec 64) (z o : ℕ) : Prop where
  zeros : ∀ i, i < z → mask.getLsbD i = false
  ones : ∀ i, z ≤ i → i < z + o → mask.getLsbD i = true
  stop : mask.getLsbD (z + o) = false
  pos : 0 < o

/-- **The first run** of a mask: what the two counts of the encoder give. -/
theorem isRun_ctz (hne : mask ≠ 0) (hz : z = mask.ctz.toNat) (hfull : ~~~(mask >>> z) ≠ 0)
    (ho : o = (~~~(mask >>> z)).ctz.toNat) : IsRun mask z o := by
  subst hz ho
  have hone := BitVec.getLsbD_true_ctz_of_ne_zero hne
  have hstop := BitVec.getLsbD_true_ctz_of_ne_zero hfull
  have hshift : ∀ i, i < 64 → (~~~(mask >>> mask.ctz.toNat)).getLsbD i
      = !mask.getLsbD (mask.ctz.toNat + i) := by
    intro i hi
    rw [BitVec.getLsbD_not, BitVec.getLsbD_ushiftRight, decide_eq_true hi, Bool.true_and]
  have hlt := ctz_lt hfull
  have hpos : 0 < (~~~(mask >>> mask.ctz.toNat)).ctz.toNat := by
    by_contra hzero
    rw [Nat.eq_zero_of_not_pos hzero, hshift 0 (by omega), Nat.add_zero, hone] at hstop
    cases hstop
  refine ⟨fun i hi => BitVec.getLsbD_false_of_lt_ctz hi, fun i hle hi => ?_, ?_, hpos⟩
  · have hbefore := BitVec.getLsbD_false_of_lt_ctz (x := ~~~(mask >>> mask.ctz.toNat))
      (i := i - mask.ctz.toNat) (by omega)
    rw [hshift _ (by omega), Nat.add_sub_cancel' hle, Bool.not_eq_false'] at hbefore
    exact hbefore
  · rw [hshift _ hlt, Bool.not_eq_true'] at hstop
    exact hstop

/-- The complement is zero only for the mask with all versions, at the start. -/
theorem not_shifted_ne_zero (hfits : Fits mask shift)
    (hfull : shift = 0 → mask ≠ BitVec.allOnes 64) (z : ℕ) : ~~~(mask >>> z) ≠ 0 := by
  by_cases hzero : shift = 0 ∧ z = 0
  · intro h
    apply hfull hzero.1
    rw [hzero.2, BitVec.ushiftRight_zero] at h
    rw [← @BitVec.not_not 64 mask, h]
    rfl
  · apply ne_zero_of_getLsbD (i := 63)
    rw [BitVec.getLsbD_not, BitVec.getLsbD_ushiftRight, hfits _ (by omega)]
    rfl

/-- The rest of the mask behind a run. -/
theorem Fits.shiftRight (hfits : Fits mask shift) (z o : ℕ) :
    Fits (mask >>> z >>> o) (shift + z + o) := by
  intro i hi
  rw [BitVec.getLsbD_ushiftRight, BitVec.getLsbD_ushiftRight]
  exact hfits _ (by omega)

theorem IsRun.le (h : IsRun mask z o) (hfits : Fits mask shift) : shift + z + o ≤ 64 := by
  by_contra hgt
  have hpos := h.pos
  have hone := h.ones (z + o - 1) (by omega) (by omega)
  rw [hfits _ (by omega)] at hone
  cases hone

/-- The bits of a mask are its first run, and the bits of the rest. -/
theorem IsRun.getLsbD (h : IsRun mask z o) (i : ℕ) :
    mask.getLsbD i
      = (decide (z ≤ i ∧ i < z + o) || (decide (z + o ≤ i) && (mask >>> z >>> o).getLsbD (i - (z + o)))) := by
  rw [BitVec.getLsbD_ushiftRight, BitVec.getLsbD_ushiftRight]
  by_cases hbefore : i < z
  · rw [h.zeros i hbefore, decide_eq_false (by omega), decide_eq_false (by omega)]
    rfl
  · by_cases hin : i < z + o
    · rw [h.ones i (by omega) hin, decide_eq_true (by omega)]
      rfl
    · have hback : z + (o + (i - (z + o))) = i := by omega
      rw [decide_eq_false (by omega), decide_eq_true (by omega), hback]
      rfl

theorem isVersion_decimal {v : ℕ} (h : v ≤ maxProtocolVersion) : IsVersion (decimal v) v :=
  ⟨decimal_ne_nil v, fun _ hc => isDigit_of_mem_decimal hc, decimalValue_decimal v, h⟩

def runText (a o : ℕ) : List UInt8 :=
  if o = 1 then decimal a else decimal a ++ hyphen :: decimal (a + o - 1)

theorem isRange_runText {a : ℕ} (ho : 0 < o) (hle : a + o ≤ 64) : IsRange (runText a o) a (a + o - 1) := by
  have hmax : maxProtocolVersion = 63 := rfl
  unfold runText
  by_cases hone : o = 1
  · rw [if_pos hone, hone, Nat.add_sub_cancel]
    exact .single (isVersion_decimal (by omega))
  · rw [if_neg hone]
    exact .pair (isVersion_decimal (by omega)) (isVersion_decimal (by omega)) (by omega)

theorem encodeRanges_step {fuel : ℕ} {first : Bool} (hne : mask ≠ 0) (hz : z = mask.ctz.toNat)
    (hfull : ~~~(mask >>> z) ≠ 0) (ho : o = (~~~(mask >>> z)).ctz.toNat) :
    encodeRanges (fuel + 1) mask shift first = do
      let rest ← encodeRanges fuel (mask >>> z >>> o) (shift + z + o) false
      return (if first then [] else [comma]) ++ runText (shift + z) o ++ rest := by
  have hrun := isRun_ctz hne hz hfull ho
  have hz64 : z < 64 := hz ▸ ctz_lt hne
  have ho64 : o < 64 := ho ▸ ctz_lt hfull
  have hshifted : mask >>> z ≠ 0 := by
    apply ne_zero_of_getLsbD (i := 0)
    rw [BitVec.getLsbD_ushiftRight]
    exact hrun.ones z (Nat.le_refl z) (Nat.lt_add_of_pos_right hrun.pos)
  rw [encodeRanges, if_neg hne]
  dsimp only
  rw [trailingZeros_eq hne, ok_bind, ← hz, shiftRight_eq hz64, ok_bind, if_neg hshifted,
    trailingZeros_eq hfull, ok_bind, ← ho, if_neg (Nat.ne_of_lt ho64), shiftRight_eq ho64, ok_bind]
  unfold runText
  split_ifs <;> simp only [List.append_assoc]

end Runs

/-! ### Round trips -/

section RoundTrip

variable {mask : BitVec 64} {shift fuel : ℕ} {first : Bool} {entry : ProtoEntry}
  {entries : List ProtoEntry}

/-- **Ranges** are written for every mask but the full one, and their mask is this mask. -/
theorem encodeRanges_spec (hfits : Fits mask shift) (hfull : shift = 0 → mask ≠ BitVec.allOnes 64)
    (hshift : shift ≤ 64) (hfuel : 64 < fuel + shift) :
    ∃ text, encodeRanges fuel mask shift first = .ok text ∧
      (mask = 0 ∧ text = [] ∨
        ∃ r m, text = (if first then [] else [comma]) ++ r ∧ IsRanges r m ∧
          ∀ i, i < 64 → m.getLsbD i = (decide (shift ≤ i) && mask.getLsbD (i - shift))) := by
  induction fuel generalizing mask shift first with
  | zero => omega
  | succ fuel ih =>
    by_cases hzero : mask = 0
    · refine ⟨[], ?_, .inl ⟨hzero, rfl⟩⟩
      rw [encodeRanges, if_pos hzero]
      rfl
    obtain ⟨z, hz⟩ : ∃ z, z = mask.ctz.toNat := ⟨_, rfl⟩
    obtain ⟨o, ho⟩ : ∃ o, o = (~~~(mask >>> z)).ctz.toNat := ⟨_, rfl⟩
    have hne := not_shifted_ne_zero hfits hfull z
    have hrun := isRun_ctz hzero hz hne ho
    have hle := hrun.le hfits
    have hpos := hrun.pos
    have hrange := isRange_runText hpos (show shift + z + o ≤ 64 from hle)
    obtain ⟨text, htext, hspec⟩ := @ih (mask >>> z >>> o) (shift + z + o) false (hfits.shiftRight z o)
      (fun h => absurd h (by omega)) hle (by omega)
    refine ⟨(if first then [] else [comma]) ++ runText (shift + z) o ++ text, ?_, .inr ?_⟩
    · rw [encodeRanges_step hzero hz hne ho, htext, ok_bind]
      rfl
    have hbit : ∀ i, i < 64 → (bitmaskForRange (shift + z) (shift + z + o - 1)).getLsbD i
        = decide (shift + z ≤ i ∧ i < shift + z + o) := by
      intro i hi
      rw [getLsbD_bitmaskForRange (by omega) (by omega) hi, decide_eq_decide]
      omega
    rcases hspec with ⟨hmask, rfl⟩ | ⟨r, m, rfl, hr, hm⟩
    · refine ⟨runText (shift + z) o, bitmaskForRange (shift + z) (shift + z + o - 1),
        List.append_nil _, .one hrange, fun i hi => ?_⟩
      rw [hbit i hi, hrun.getLsbD (i - shift), hmask]
      simp only [BitVec.ofNat_eq_ofNat, BitVec.getLsbD_zero, Bool.and_false, Bool.or_false]
      rw [Bool.eq_iff_iff, Bool.and_eq_true, decide_eq_true_eq, decide_eq_true_eq, decide_eq_true_eq]
      omega
    · refine ⟨runText (shift + z) o ++ comma :: r, bitmaskForRange (shift + z) (shift + z + o - 1) ||| m,
        List.append_assoc _ _ _, .cons hrange hr, fun i hi => ?_⟩
      have hsub : i - shift - (z + o) = i - (shift + z + o) := by omega
      rw [BitVec.getLsbD_or, hbit i hi, hm i hi, hrun.getLsbD (i - shift), hsub]
      generalize (mask >>> z >>> o).getLsbD (i - (shift + z + o)) = bit
      rw [Bool.eq_iff_iff]
      simp only [Bool.or_eq_true, Bool.and_eq_true, decide_eq_true_eq]
      cases bit with
      | false => simp only [Bool.false_eq_true, and_false, or_false]; omega
      | true => simp only [and_true]; omega

theorem encodeRanges_full : encodeRanges 65 (BitVec.allOnes 64) 0 true = fault .trailingZeros := by
  have hctz : (BitVec.allOnes 64).ctz.toNat = 0 := by decide +kernel
  have hne : BitVec.allOnes 64 ≠ 0 := by decide
  rw [encodeRanges, if_neg hne]
  dsimp only
  rw [trailingZeros_eq hne, ok_bind, hctz, shiftRight_eq (by decide), ok_bind, BitVec.ushiftRight_zero,
    if_neg hne]
  rfl

/-- **Entries.** -/
theorem protoEntryEncode_spec (hname : IsName entry.name) (hfull : entry.bitmask ≠ BitVec.allOnes 64) :
    ∃ text, protoEntryEncode entry = .ok text ∧ IsEntry text entry := by
  have hfits : Fits entry.bitmask 0 := by
    intro i hi
    exact BitVec.getLsbD_of_ge _ _ (by omega)
  obtain ⟨text, htext, hspec⟩ := @encodeRanges_spec entry.bitmask 0 65 true hfits (fun _ => hfull) (by decide)
    (by decide)
  refine ⟨entry.name ++ equals :: text, ?_, hname, text, rfl, ?_⟩
  · rw [protoEntryEncode, htext, ok_bind]
    rfl
  · rcases hspec with ⟨hmask, rfl⟩ | ⟨r, m, rfl, hr, hm⟩
    · exact .inl ⟨rfl, hmask⟩
    · have heq : m = entry.bitmask := by
        apply BitVec.eq_of_getLsbD_eq
        intro i hi
        rw [hm i hi, decide_eq_true (Nat.zero_le i), Bool.true_and, Nat.sub_zero]
      rw [← heq]
      exact .inr hr

theorem encodeEntries_spec {separator : List UInt8} (hname : ∀ e ∈ entries, IsName e.name)
    (hfull : ∀ e ∈ entries, e.bitmask ≠ BitVec.allOnes 64) (hne : entries ≠ []) :
    ∃ text, encodeEntries separator entries = .ok (separator ++ text) ∧ IsList text entries ∧ text ≠ [] := by
  induction entries generalizing separator with
  | nil => exact absurd rfl hne
  | cons entry entries ih =>
    obtain ⟨chunk, hchunk, hentry⟩ := protoEntryEncode_spec (hname entry List.mem_cons_self)
      (hfull entry List.mem_cons_self)
    by_cases hrest : entries = []
    · refine ⟨chunk, ?_, ?_, hentry.ne_nil⟩
      · rw [hrest, encodeEntries, hchunk, ok_bind, encodeEntries]
        exact congrArg Except.ok (List.append_nil _)
      · have hlast := IsList.last hentry 0
        rwa [List.replicate_zero, List.append_nil, ← hrest] at hlast
    · obtain ⟨text, htext, hlist, htne⟩ := @ih [space] (fun e he => hname e (List.mem_cons_of_mem entry he))
        (fun e he => hfull e (List.mem_cons_of_mem entry he)) hrest
      refine ⟨chunk ++ space :: text, ?_, ?_, ?_⟩
      · rw [encodeEntries, hchunk, ok_bind, htext, ok_bind]
        exact congrArg Except.ok (List.append_assoc _ _ _)
      · have hcons := IsList.cons hentry Nat.zero_lt_one htne hlist
        rwa [List.append_assoc] at hcons
      · exact fun hnil => hentry.ne_nil (List.append_eq_nil_iff.mp hnil).1

theorem isName_of_isList {s : List UInt8} (h : IsList s entries) : ∀ e ∈ entries, IsName e.name := by
  induction h with
  | nil => exact nofun
  | last hl _ =>
    intro e he
    rw [List.mem_singleton.mp he]
    exact hl.1
  | cons hl _ _ _ ih =>
    intro e he
    rcases List.mem_cons.mp he with rfl | he
    · exact hl.1
    · exact ih e he

/-- **Round trip.**  What has been parsed is written and read back, and a string is parsed exactly if it is a
list, possibly with spaces behind it. -/
theorem parse_encode (s : List UInt8) :
    (∀ entries, parseProtocolList s = some entries → (∀ e ∈ entries, e.bitmask ≠ BitVec.allOnes 64) →
      ∃ text, encodeProtocolList entries = .ok text ∧ parseProtocolList text = some entries) ∧
    ((parseProtocolList s).isSome = true ↔ ∃ entries, IsList s entries) := by
  constructor
  · intro entries hparse hfull
    by_cases hne : entries = []
    · rw [hne]
      exact ⟨[], rfl, rfl⟩
    · obtain ⟨text, htext, hlist, _⟩ := @encodeEntries_spec entries []
        (isName_of_isList (parseProtocolList_iff.mp hparse)) hfull hne
      exact ⟨text, htext, parseProtocolList_iff.mpr hlist⟩
  · rw [Option.isSome_iff_exists]
    simp only [parseProtocolList_iff]

/-- `Link=1-5`. -/
theorem parse_encode_link :
    ∃ text, encodeProtocolList [⟨[76, 105, 110, 107], 62⟩] = .ok text ∧
      parseProtocolList text = some [⟨[76, 105, 110, 107], 62⟩] :=
  (parse_encode [76, 105, 110, 107, 61, 49, 45, 53]).1 _ (by decide) (by decide)

end RoundTrip

/-- `Link=0-63`. -/
def allVersions : List UInt8 := [76, 105, 110, 107, 61, 48, 45, 54, 51]

/-- `Link=1` and a space. -/
def trailingSpace : List UInt8 := [76, 105, 110, 107, 61, 49, 32]

/-- The list of all versions of a protocol is parsed but cannot be written; and a space behind the last entry
is accepted. -/
theorem not_parse_encode :
    (∃ entries, parseProtocolList allVersions = some entries ∧
      encodeProtocolList entries = fault .trailingZeros) ∧
    parseProtocolList trailingSpace = some [⟨[76, 105, 110, 107], 2⟩] := by
  refine ⟨⟨[⟨[76, 105, 110, 107], BitVec.allOnes 64⟩], by decide, ?_⟩, by decide⟩
  unfold encodeProtocolList encodeEntries protoEntryEncode
  dsimp only
  rw [encodeRanges_full]
  rfl

end TorEbpf.Or.Protover
