import TorEbpf.Or.ExtendCell
import TorEbpf.Or.Sendme

/-!
# Randomness for authenticated `SENDME` cells

A `SENDME` cell carries a digest of the cells it acknowledges, and a peer that has not seen them should not
be able to guess it.  So from time to time a `DATA` cell has to leave room for random padding.  A circuit
counts down the cells that it packages; if none of them has left room by itself,
`connection_edge_get_inbuf_bytes_to_package` makes one do so before the count starts again.

* `exists_random_of_interval` — between two resets at least one cell has room;
* `random_of_run` — so has one in any 200 cells one after the other, and the count never underflows;
* `not_exactlyOne` — there can be more than one between two resets.
-/

namespace TorEbpf.Or

open TorEbpf.Lib Sendme

/-! ### Packaging -/

/-- `circuit_t`: the two fields. -/
structure RandomCircuit where
  haveSentSufficientlyRandomCell : Bool
  sendRandomnessAfterNCells : UInt16
  deriving DecidableEq, Repr

/-- `circuit_reset_sendme_randomness`, with what the random generator draws. -/
def circuitResetSendmeRandomness (drawn : Fin (circwindowIncrement.toNat / 2)) : RandomCircuit where
  haveSentSufficientlyRandomCell := false
  sendRandomnessAfterNCells := UInt16.ofNat (circwindowIncrement.toNat / 2 + drawn.val)

def cellPaddingGap : ℕ := 4

def relayPayloadLengthForRandomSendmes : ℕ := relayPayloadSize - cellPaddingGap - 16

/-- What a call returns: the number of bytes, and if the circuit has been reset; and the circuit. -/
structure Packaging where
  length : ℕ
  reset : Bool
  circ : RandomCircuit
  deriving DecidableEq, Repr

/-- `connection_edge_get_inbuf_bytes_to_package`; `drawn` is used if it resets the circuit. -/
def connectionEdgeGetInbufBytesToPackage (nAvailable : ℕ) (packagePartial : Bool)
    (drawn : Fin (circwindowIncrement.toNat / 2)) (circ : RandomCircuit) : Step Packaging :=
  if nAvailable = 0 then pure ⟨0, false, circ⟩
  else
    let forceRandomBytes := circ.sendRandomnessAfterNCells == 0 && !circ.haveSentSufficientlyRandomCell
    let targetLength := if forceRandomBytes then relayPayloadLengthForRandomSendmes else relayPayloadSize
    if nAvailable < targetLength ∧ packagePartial = false then pure ⟨0, false, circ⟩
    else do
      let packageLength := if targetLength ≤ nAvailable then targetLength else nAvailable
      torAssert (0 < packageLength)
      let circ :=
        if packageLength ≤ relayPayloadLengthForRandomSendmes then
          { circ with haveSentSufficientlyRandomCell := true }
        else circ
      if circ.sendRandomnessAfterNCells = 0 then do
        torAssert (circ.haveSentSufficientlyRandomCell = true)
        let circ := circuitResetSendmeRandomness drawn
        return ⟨packageLength, true,
          { circ with sendRandomnessAfterNCells := circ.sendRandomnessAfterNCells - 1 }⟩
      else
        return ⟨packageLength, false,
          { circ with sendRandomnessAfterNCells := circ.sendRandomnessAfterNCells - 1 }⟩

/-! ### Runs -/

structure PackageCall where
  nAvailable : ℕ
  packagePartial : Bool
  drawn : Fin (circwindowIncrement.toNat / 2)

/-- A cell that is packaged, and if the circuit has been reset with it. -/
structure PackagedCell where
  length : ℕ
  reset : Bool
  deriving DecidableEq, Repr

/-- One call after the other: the cells, and the circuit after them. -/
def packageAll : List PackageCall → RandomCircuit → Step (List PackagedCell × RandomCircuit)
  | [], circ => pure ([], circ)
  | call :: calls, circ => do
      let p ← connectionEdgeGetInbufBytesToPackage call.nAvailable call.packagePartial call.drawn circ
      let (cells, circ) ← packageAll calls p.circ
      return (if p.length = 0 then cells else ⟨p.length, p.reset⟩ :: cells, circ)

/-- The cell leaves at least 16 bytes behind the four zero bytes. -/
def PackagedCell.random (c : PackagedCell) : Bool := c.length ≤ relayPayloadSize - 20

/-- Some cells from one reset to the next, the one that the latter comes with included. -/
def Interval (cells mid : List PackagedCell) : Prop :=
  ∃ pre post, cells = pre ++ mid ++ post ∧ (∀ c ∈ pre.getLast?, c.reset = true) ∧
    ∃ init last, mid = init ++ [last] ∧ last.reset = true ∧ ∀ c ∈ init, c.reset = false

section Packaging

variable {circ circ' : RandomCircuit} {call : PackageCall} {calls : List PackageCall} {c : PackagedCell}
  {cells mid : List PackagedCell} {n : ℕ}

inductive PackageStep (circ : RandomCircuit) : PackagedCell → RandomCircuit → Prop where
  | count {c : PackagedCell} (hn : circ.sendRandomnessAfterNCells ≠ 0) (hreset : c.reset = false) :
      PackageStep circ c ⟨circ.haveSentSufficientlyRandomCell || c.random, circ.sendRandomnessAfterNCells - 1⟩
  | reset {c : PackagedCell} (drawn : Fin (circwindowIncrement.toNat / 2))
      (hn : circ.sendRandomnessAfterNCells = 0) (hreset : c.reset = true)
      (hrandom : circ.haveSentSufficientlyRandomCell = true ∨ c.random = true) :
      PackageStep circ c
        ⟨false, (circuitResetSendmeRandomness drawn).sendRandomnessAfterNCells - 1⟩

/-- **One call** packages nothing and leaves the circuit as it is, or it packages a cell; no assertion
fails. -/
theorem getInbufBytesToPackage_spec (call : PackageCall) (circ : RandomCircuit) :
    ∃ p, connectionEdgeGetInbufBytesToPackage call.nAvailable call.packagePartial call.drawn circ = .ok p ∧
      (p.length = 0 ∧ p.circ = circ ∨ p.length ≠ 0 ∧ PackageStep circ ⟨p.length, p.reset⟩ p.circ) := by
  unfold connectionEdgeGetInbufBytesToPackage
  by_cases hnone : call.nAvailable = 0
  · exact ⟨⟨0, false, circ⟩, by rw [if_pos hnone]; rfl, .inl ⟨rfl, rfl⟩⟩
  rw [if_neg hnone]
  dsimp only
  generalize htarget : (if (circ.sendRandomnessAfterNCells == 0 && !circ.haveSentSufficientlyRandomCell) = true
    then relayPayloadLengthForRandomSendmes else relayPayloadSize) = target
  by_cases hwait : call.nAvailable < target ∧ call.packagePartial = false
  · exact ⟨⟨0, false, circ⟩, by rw [if_pos hwait]; rfl, .inl ⟨rfl, rfl⟩⟩
  rw [if_neg hwait]
  generalize hlength : (if target ≤ call.nAvailable then target else call.nAvailable) = length
  have hforced : circ.sendRandomnessAfterNCells = 0 → circ.haveSentSufficientlyRandomCell = false →
      length ≤ relayPayloadLengthForRandomSendmes := by
    intro hn hhave
    rw [hn, hhave, if_pos (by decide)] at htarget
    rw [← hlength, htarget]
    split_ifs
    · exact le_rfl
    · omega
  have hpos : 0 < length := by
    have htarget : 0 < target := by
      rw [← htarget]
      split_ifs
      · decide
      · decide
    rw [← hlength]
    split_ifs
    · exact htarget
    · exact Nat.pos_of_ne_zero hnone
  have hcirc : (if length ≤ relayPayloadLengthForRandomSendmes then
      { circ with haveSentSufficientlyRandomCell := true } else circ) =
      (⟨circ.haveSentSufficientlyRandomCell || decide (length ≤ relayPayloadLengthForRandomSendmes),
        circ.sendRandomnessAfterNCells⟩ : RandomCircuit) := by
    split_ifs with hle
    · rw [decide_eq_true hle, Bool.or_true]
    · rw [decide_eq_false hle, Bool.or_false]
  rw [torAssert_of hpos, ok_bind, hcirc]
  by_cases hn : circ.sendRandomnessAfterNCells = 0
  · have hhave : circ.haveSentSufficientlyRandomCell = true ∨
        decide (length ≤ relayPayloadLengthForRandomSendmes) = true := by
      cases h : circ.haveSentSufficientlyRandomCell with
      | true => exact .inl rfl
      | false => exact .inr (decide_eq_true (hforced hn h))
    rw [if_pos hn, torAssert_of (Bool.or_eq_true_iff.mpr hhave), ok_bind]
    exact ⟨_, rfl, .inr ⟨hpos.ne', .reset call.drawn hn rfl hhave⟩⟩
  · rw [if_neg hn]
    exact ⟨_, rfl, .inr ⟨hpos.ne', .count hn rfl⟩⟩

/-- **A run of calls** is a run of packaged cells. -/
theorem packageAll_spec : ∀ (calls : List PackageCall) (circ : RandomCircuit),
    ∃ cells circ', packageAll calls circ = .ok (cells, circ') ∧ Run PackageStep circ cells circ' := by
  intro calls
  induction calls with
  | nil => exact fun circ => ⟨[], circ, rfl, .nil circ⟩
  | cons call calls ih =>
    intro circ
    obtain ⟨p, hp, hstep⟩ := getInbufBytesToPackage_spec call circ
    obtain ⟨cells, circ', hcells, hrun⟩ := ih p.circ
    rw [packageAll, hp, ok_bind, hcells, ok_bind]
    dsimp only
    rcases hstep with ⟨hnone, hsame⟩ | ⟨hsome, hstep⟩
    · rw [hsame] at hrun
      exact ⟨cells, circ', by rw [if_pos hnone]; rfl, hrun⟩
    · exact ⟨⟨p.length, p.reset⟩ :: cells, circ', by rw [if_neg hsome]; rfl, .cons hstep hrun⟩

/-! ### The count -/

def Counting (circ : RandomCircuit) : Prop := circ.sendRandomnessAfterNCells.toNat ≤ 99

theorem toNat_reset (drawn : Fin (circwindowIncrement.toNat / 2)) :
    (circuitResetSendmeRandomness drawn).sendRandomnessAfterNCells.toNat = 50 + drawn.val := by
  have hlt : drawn.val < 50 := drawn.isLt
  have hhalf : circwindowIncrement.toNat / 2 = 50 := rfl
  rw [circuitResetSendmeRandomness, UInt16.toNat_ofNat']
  omega

theorem counting_reset (drawn : Fin (circwindowIncrement.toNat / 2)) :
    Counting (circuitResetSendmeRandomness drawn) := by
  have hlt : drawn.val < 50 := drawn.isLt
  rw [Counting, toNat_reset]
  omega

theorem toNat_pred {v : UInt16} (h : v ≠ 0) : (v - 1).toNat = v.toNat - 1 := by
  have hpos : v.toNat ≠ 0 := fun h0 => h (UInt16.toNat_inj.mp h0)
  have hlt := v.toNat_lt
  rw [UInt16.toNat_sub, show (1 : UInt16).toNat = 1 from rfl]
  omega

theorem toNat_pred_reset (drawn : Fin (circwindowIncrement.toNat / 2)) :
    ((circuitResetSendmeRandomness drawn).sendRandomnessAfterNCells - 1).toNat = 49 + drawn.val := by
  have hreset := toNat_reset drawn
  rw [toNat_pred (fun h => by rw [h] at hreset; exact absurd hreset.symm (by simp)), hreset]
  omega

/-- **One cell** keeps the count in its range. -/
theorem PackageStep.counting (hc : Counting circ) (h : PackageStep circ c circ') : Counting circ' := by
  unfold Counting at hc ⊢
  cases h with
  | count hn hreset =>
    rw [toNat_pred hn]
    omega
  | reset drawn hn hreset hrandom =>
    have hlt : drawn.val < 50 := drawn.isLt
    rw [toNat_pred_reset]
    omega

theorem counting_of_run (hrun : Run PackageStep circ cells circ') (hc : Counting circ) : Counting circ' :=
  hrun.invariant (fun _ _ _ hc hstep => hstep.counting hc) hc

/-! ### Random cells -/

/-- **From one reset to the next**: one of the cells has room, or an earlier one has had. -/
theorem exists_random_of_run {last : PackagedCell} {init : List PackagedCell} (hlast : last.reset = true)
    (hinit : ∀ c ∈ init, c.reset = false) (hrun : Run PackageStep circ (init ++ [last]) circ') :
    circ.haveSentSufficientlyRandomCell = true ∨ ∃ c ∈ init ++ [last], c.random = true := by
  induction init generalizing circ with
  | nil =>
    obtain _ | ⟨hstep, hrun⟩ := hrun
    cases hstep with
    | count hn hreset =>
      rw [hreset] at hlast
      cases hlast
    | reset drawn hn hreset hrandom =>
      exact hrandom.imp_right fun hrandom => ⟨last, List.mem_cons_self, hrandom⟩
  | cons c init ih =>
    obtain _ | ⟨hstep, hrun⟩ := hrun
    cases hstep with
    | count hn hreset =>
      rcases ih (fun c' hc' => hinit c' (List.mem_cons_of_mem c hc')) hrun with hhave | ⟨c', hc', hrandom⟩
      · exact (Bool.or_eq_true_iff.mp hhave).imp_right fun hrandom => ⟨c, List.mem_cons_self, hrandom⟩
      · exact .inr ⟨c', List.mem_cons_of_mem c hc', hrandom⟩
    | reset drawn hn hreset hrandom =>
      rw [hinit c List.mem_cons_self] at hreset
      cases hreset

/-- A circuit that has just been reset, or is new, has not sent a random cell. -/
theorem have_of_run (hrun : Run PackageStep circ cells circ') (hcells : ∀ c ∈ cells.getLast?, c.reset = true)
    (hhave : circ.haveSentSufficientlyRandomCell = false) :
    circ'.haveSentSufficientlyRandomCell = false := by
  rcases List.eq_nil_or_concat cells with rfl | ⟨init, last, rfl⟩
  · cases hrun
    exact hhave
  · rw [List.concat_eq_append] at hrun hcells
    have hlast : last.reset = true := hcells last (by rw [List.getLast?_concat]; rfl)
    obtain ⟨s, -, hrun⟩ := hrun.of_append
    obtain _ | ⟨hstep, hrun⟩ := hrun
    cases hrun
    cases hstep with
    | count hn hreset =>
      rw [hreset] at hlast
      cases hlast
    | reset drawn hn hreset hrandom => rfl

/-- **Between two resets** a cell has room. -/
theorem exists_random_of_interval (hrun : Run PackageStep circ cells circ')
    (hhave : circ.haveSentSufficientlyRandomCell = false) (hmid : Interval cells mid) :
    ∃ c ∈ mid, c.random = true := by
  obtain ⟨pre, post, rfl, hpre, init, last, rfl, hlast, hinit⟩ := hmid
  obtain ⟨s, hrun, -⟩ := hrun.of_append
  obtain ⟨s₁, hfirst, hrun⟩ := hrun.of_append
  refine (exists_random_of_run hlast hinit hrun).resolve_left ?_
  rw [have_of_run hfirst hpre hhave]
  exact Bool.false_ne_true

/-- A circuit that has not sent a random cell sends one before its count has run down. -/
theorem exists_random_of_length (hrun : Run PackageStep circ cells circ')
    (hhave : circ.haveSentSufficientlyRandomCell = false)
    (hlen : circ.sendRandomnessAfterNCells.toNat < cells.length) : ∃ c ∈ cells, c.random = true := by
  induction hrun with
  | nil circ => exact absurd hlen (Nat.not_lt_zero _)
  | @cons circ circ₁ circ' c cells hstep hrun ih =>
    cases hstep with
    | count hn hreset =>
      cases hrandom : c.random with
      | true => exact ⟨c, List.mem_cons_self, hrandom⟩
      | false =>
        rw [List.length_cons] at hlen
        have hpos : circ.sendRandomnessAfterNCells.toNat ≠ 0 := fun h0 => hn (UInt16.toNat_inj.mp h0)
        obtain ⟨c', hc', hrandom'⟩ := ih (by rw [hhave, hrandom]; rfl) (by rw [toNat_pred hn]; omega)
        exact ⟨c', List.mem_cons_of_mem c hc', hrandom'⟩
    | reset drawn hn hreset hrandom =>
      rw [hhave] at hrandom
      exact ⟨c, List.mem_cons_self, hrandom.resolve_left Bool.false_ne_true⟩

/-- **A reset comes** when the count has run down. -/
theorem exists_reset_of_length (hrun : Run PackageStep circ cells circ')
    (hlen : circ.sendRandomnessAfterNCells.toNat < cells.length) :
    ∃ pre post s, cells = pre ++ post ∧ pre.length = circ.sendRandomnessAfterNCells.toNat + 1 ∧
      Run PackageStep s post circ' ∧ s.haveSentSufficientlyRandomCell = false ∧
      s.sendRandomnessAfterNCells.toNat ≤ 98 := by
  induction hrun with
  | nil circ => exact absurd hlen (Nat.not_lt_zero _)
  | @cons circ circ₁ circ' c cells hstep hrun ih =>
    cases hstep with
    | count hn hreset =>
      rw [List.length_cons] at hlen
      have hpos : circ.sendRandomnessAfterNCells.toNat ≠ 0 := fun h0 => hn (UInt16.toNat_inj.mp h0)
      obtain ⟨pre, post, s, rfl, hpre, hpost, hhave, hs⟩ := ih (by rw [toNat_pred hn]; omega)
      rw [toNat_pred hn] at hpre
      exact ⟨c :: pre, post, s, rfl, by rw [List.length_cons]; omega, hpost, hhave, hs⟩
    | reset drawn hn hreset hrandom =>
      have hlt : drawn.val < 50 := drawn.isLt
      refine ⟨[c], cells, _, rfl, ?_, hrun, rfl, ?_⟩
      · rw [hn]
        rfl
      · rw [toNat_pred_reset]
        omega

/-- **Any 200 cells** one after the other. -/
theorem exists_random_of_window (hc : Counting circ) (hrun : Run PackageStep circ cells circ')
    (hlen : 200 ≤ cells.length) : ∃ c ∈ cells, c.random = true := by
  unfold Counting at hc
  obtain ⟨pre, post, s, rfl, hpre, hpost, hhave, hs⟩ := exists_reset_of_length hrun (by omega)
  rw [List.length_append] at hlen
  obtain ⟨c, hcpost, hrandom⟩ := exists_random_of_length hpost hhave (by omega)
  exact ⟨c, List.mem_append_right pre hcpost, hrandom⟩

/-- **Runs of calls** on a circuit that starts with a reset: no assertion fails, the count does not
underflow, between two resets a cell leaves room for randomness, and so does one of any 200 cells. -/
theorem random_of_run (start : Fin (circwindowIncrement.toNat / 2)) (calls : List PackageCall) :
    ∃ cells circ', packageAll calls (circuitResetSendmeRandomness start) = .ok (cells, circ') ∧
      circ'.sendRandomnessAfterNCells.toNat < circwindowIncrement.toNat ∧
      (∀ mid, Interval cells mid → ∃ c ∈ mid, c.random = true) ∧
      ∀ w, w <:+: cells → w.length = 200 → ∃ c ∈ w, c.random = true := by
  obtain ⟨cells, circ', hcells, hrun⟩ := packageAll_spec calls (circuitResetSendmeRandomness start)
  refine ⟨cells, circ', hcells, ?_, fun mid hmid => exists_random_of_interval hrun rfl hmid, ?_⟩
  · exact Nat.lt_succ_of_le (counting_of_run hrun (counting_reset start))
  · rintro w ⟨pre, post, rfl⟩ hw
    obtain ⟨s, hrun, -⟩ := hrun.of_append
    obtain ⟨s₁, hfirst, hrun⟩ := hrun.of_append
    exact exists_random_of_window (counting_of_run hfirst (counting_reset start)) hrun hw.ge

/-- **There can be more than one** such cell between two resets. -/
theorem not_exactlyOne : ¬∀ start calls cells circ',
    packageAll calls (circuitResetSendmeRandomness start) = .ok (cells, circ') →
      ∀ mid, Interval cells mid → mid.countP PackagedCell.random = 1 := by
  intro h
  have hrun : packageAll (List.replicate 51 ⟨1, true, ⟨0, by decide⟩⟩)
      (circuitResetSendmeRandomness ⟨0, by decide⟩) =
        .ok (List.replicate 50 ⟨1, false⟩ ++ [⟨1, true⟩], ⟨false, 49⟩) := by
    decide +kernel
  have hone := h _ _ _ _ hrun (List.replicate 50 ⟨1, false⟩ ++ [⟨1, true⟩])
    ⟨[], [], rfl, by simp, _, _, rfl, rfl, fun c hc => by rw [List.eq_of_mem_replicate hc]⟩
  exact absurd hone (by decide)

end Packaging

end TorEbpf.Or
