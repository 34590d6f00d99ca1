import Mathlib
import TorEbpf.Dircommon.EdDiff
import TorEbpf.Lib.Lines
import TorEbpf.Strings.Scanf

/-!
# Consensus diffs as texts

The rest of `consdiff.c`: a diff is a text, with two header lines in front of the ed script.  The two
digests of a text, over all of it and over its signed part, are parameters; either may fail.

* `consensusDiffGenerate`, `consensusDiffApply` — from two texts to a diff, and from a text and a diff
  to the other text;
* `consdiffGetDigests_header` — the header gives the digests back;
* `consensusDiffApply_of_generate` — a diff that was generated applies, and gives the target.
-/

namespace TorEbpf.Dircommon

open TorEbpf.Lib
open TorEbpf.Strings (hexDecodeDigit)

/-- A C string: what a reader sees of some bytes, up to the first zero byte. -/
def cString (s : List UInt8) : List UInt8 := s.takeWhile (· ≠ 0)

/-- The assertion of `smartlist_ensure_capacity`: no list is longer than this. -/
def smartlistFits (list : List Line) : Option (List Line) :=
  if list.length ≤ int32Max then some list else none

def consensusLineMaxLen : ℕ := 1048576

def consensusSplitLines (s : List UInt8) : Option (List Line) :=
  (splitLines 10 consensusLineMaxLen s).bind smartlistFits

def consensusJoinLines (inp : List Line) : List UInt8 := cString (joinLines 10 inp)

def base16Decode : List UInt8 → Option (List UInt8)
  | [] => some []
  | [_] => none
  | c1 :: c2 :: src =>
    match hexDecodeDigit c1, hexDecodeDigit c2 with
    | some v1, some v2 => (base16Decode src).map ((16 * v1 + v2).toUInt8 :: ·)
    | _, _ => none

def consdiffGetDigests (diff : List Line) : Option (List UInt8 × List UInt8) :=
  match diff with
  | format :: line2 :: _ =>
    if format ≠ nsDiffVersion then none
    else
      match (cString line2).splitOn 32 with
      | [word, cons1HashHex, cons2HashHex] =>
        if word ≠ hashToken then none
        else if cons1HashHex.length ≠ 64 ∨ cons2HashHex.length ≠ 64 then none
        else do
          let cons1Hash ← base16Decode cons1HashHex
          let cons2Hash ← base16Decode cons2HashHex
          return (cons1Hash, cons2Hash)
      | _ => none
  | _ => none

section Digests

variable (computeDigest computeDigestAsSigned : List UInt8 → Option ConsensusDigest)

def consdiffApplyDiff (cons1 diff : List Line) (digests1 : ConsensusDigest) :
    Option (List UInt8) := do
  let (eCons1Hash, eCons2Hash) ← consdiffGetDigests diff
  if digests1.sha3256 ≠ eCons1Hash then none
  else
    let cons2 ← (applyEdDiff cons1 diff 2).bind smartlistFits
    let cons2Digests ← computeDigest (consensusJoinLines cons2)
    if cons2Digests.sha3256 ≠ eCons2Hash then none
    else return consensusJoinLines cons2

def consensusDiffGenerate (cons1 cons2 : List UInt8) : Option (List UInt8) := do
  let d1 ← computeDigestAsSigned cons1
  let d2 ← computeDigest cons2
  let lines1 ← consensusSplitLines cons1
  let lines2 ← consensusSplitLines cons2
  let resultLines ← (consdiffGenDiff lines1 lines2 d1 d2).toOption.bind smartlistFits
  return consensusJoinLines resultLines

def consensusDiffApply (consensus diff : List UInt8) : Option (List UInt8) := do
  let d1 ← computeDigestAsSigned consensus
  let lines1 ← consensusSplitLines consensus
  let lines2 ← consensusSplitLines diff
  consdiffApplyDiff computeDigest lines1 lines2 d1

end Digests

/-! ### The header -/

theorem hexDecodeDigit_base16Digit {n : ℕ} (h : n < 16) : hexDecodeDigit (base16Digit n) = some n := by
  interval_cases n <;> rfl

theorem base16Digit_printable {n : ℕ} (h : n < 16) : 48 ≤ (base16Digit n).toNat := by
  interval_cases n <;> decide

theorem base16Decode_encode (src : List UInt8) : base16Decode (base16Encode src) = some src := by
  induction src with
  | nil => rfl
  | cons b src ih =>
    have hb := b.toNat_lt
    have hcons : base16Encode (b :: src) =
        base16Digit (b.toNat / 16) :: base16Digit (b.toNat % 16) :: base16Encode src := rfl
    have hbyte : (16 * (b.toNat / 16) + b.toNat % 16).toUInt8 = b := by
      rw [Nat.div_add_mod]
      exact UInt8.ofNat_toNat
    rw [hcons, base16Decode, hexDecodeDigit_base16Digit (by omega),
      hexDecodeDigit_base16Digit (by omega), ih]
    simp only [Option.map_some, hbyte]

theorem length_base16Encode (src : List UInt8) : (base16Encode src).length = 2 * src.length := by
  induction src with
  | nil => rfl
  | cons b src ih =>
    have hcons : base16Encode (b :: src) =
        base16Digit (b.toNat / 16) :: base16Digit (b.toNat % 16) :: base16Encode src := rfl
    rw [hcons, List.length_cons, List.length_cons, List.length_cons, ih]
    omega

theorem printable_of_mem_base16Encode {src : List UInt8} {c : UInt8} (h : c ∈ base16Encode src) :
    48 ≤ c.toNat := by
  obtain ⟨b, -, hc⟩ := List.mem_flatMap.mp h
  have hb := b.toNat_lt
  simp only [List.mem_cons, List.not_mem_nil, or_false] at hc
  rcases hc with rfl | rfl
  · exact base16Digit_printable (by omega)
  · exact base16Digit_printable (by omega)

def hashLine (digests1 digests2 : ConsensusDigest) : Line :=
  hashToken ++ [32] ++ base16Encode digests1.sha3256 ++ [32] ++ base16Encode digests2.sha3256

/-- A line of plain characters, as a number, a digest or a command is. -/
def Plain (line : Line) : Prop := ∀ c ∈ line, 32 < c.toNat

instance (line : Line) : Decidable (Plain line) :=
  inferInstanceAs (Decidable (∀ c ∈ line, 32 < c.toNat))

theorem Plain.append {l l' : Line} (h : Plain l) (h' : Plain l') : Plain (l ++ l') := by
  intro c hc
  rcases List.mem_append.mp hc with hc | hc
  · exact h c hc
  · exact h' c hc

theorem plain_base16Encode (src : List UInt8) : Plain (base16Encode src) := by
  intro c hc
  have := printable_of_mem_base16Encode hc
  omega

theorem plain_decimal (n : ℕ) : Plain (decimal n) := by
  intro c hc
  have hdigit := isDigit_of_mem_decimal hc
  simp only [isDigit, Bool.and_eq_true, decide_eq_true_eq, UInt8.le_iff_toNat_le] at hdigit
  exact lt_of_lt_of_le (by decide) hdigit.1

theorem Plain.not_mem {l : Line} (h : Plain l) {c : UInt8} (hc : c.toNat ≤ 32) : c ∉ l := by
  intro hmem
  have := h c hmem
  omega

theorem cString_eq {s : List UInt8} (h : 0 ∉ s) : cString s = s :=
  takeWhile_ne_zero fun _ hc heq => h (heq ▸ hc)

theorem splitOn_hashLine (digests1 digests2 : ConsensusDigest) :
    (hashLine digests1 digests2).splitOn 32 =
      [hashToken, base16Encode digests1.sha3256, base16Encode digests2.sha3256] := by
  have hwords : hashLine digests1 digests2 = [32].intercalate
      [hashToken, base16Encode digests1.sha3256, base16Encode digests2.sha3256] := by
    simp [hashLine, List.intercalate]
  rw [hwords]
  apply List.splitOn_intercalate
  · simp only [List.mem_cons, List.not_mem_nil, or_false]
    rintro word (rfl | rfl | rfl)
    · decide
    · exact (plain_base16Encode _).not_mem (by decide)
    · exact (plain_base16Encode _).not_mem (by decide)
  · simp

theorem mem_hashLine {digests1 digests2 : ConsensusDigest} {c : UInt8}
    (h : c ∈ hashLine digests1 digests2) : 32 ≤ c.toNat := by
  have htoken : ∀ c ∈ hashToken, 32 ≤ c.toNat := by decide +kernel
  simp only [hashLine, List.mem_append, List.mem_singleton] at h
  rcases h with (((h | rfl) | h) | rfl) | h
  · exact htoken c h
  · decide
  · exact (plain_base16Encode _ c h).le
  · decide
  · exact (plain_base16Encode _ c h).le

theorem length_hashLine (digests1 digests2 : ConsensusDigest) :
    (hashLine digests1 digests2).length = 134 := by
  simp only [hashLine, List.length_append, List.length_singleton, length_base16Encode,
    digests1.length_eq, digests2.length_eq]
  rfl

/-- **The header of a diff gives its digests back.** -/
theorem consdiffGetDigests_header (digests1 digests2 : ConsensusDigest) (edDiff : List Line) :
    consdiffGetDigests (nsDiffVersion :: hashLine digests1 digests2 :: edDiff) =
      some (digests1.sha3256, digests2.sha3256) := by
  have hzero : (0 : UInt8) ∉ hashLine digests1 digests2 := by
    intro h
    exact absurd (mem_hashLine h) (by decide)
  have hlen1 : (base16Encode digests1.sha3256).length = 64 := by
    rw [length_base16Encode, digests1.length_eq]
  have hlen2 : (base16Encode digests2.sha3256).length = 64 := by
    rw [length_base16Encode, digests2.length_eq]
  simp only [consdiffGetDigests, cString_eq hzero, splitOn_hashLine, ne_eq, not_true_eq_false,
    if_false, hlen1, hlen2, or_self, base16Decode_encode]
  rfl

/-! ### The lines of a diff -/

/-- A line of a script: of the target, or a command. -/
def ScriptLine (cons2 : List Line) (line : Line) : Prop :=
  line ∈ cons2 ∨ (Plain line ∧ line.length ≤ 127)

theorem scriptLine_single {cons2 : List Line} {n : ℕ} {letter : UInt8} (hn : n ≤ int32Max)
    (hletter : 32 < letter.toNat) : ScriptLine cons2 (decimal n ++ [letter]) := by
  have hlen := length_decimal_le_ten hn
  refine Or.inr ⟨(plain_decimal n).append (by simpa [Plain] using hletter), ?_⟩
  rw [List.length_append, List.length_singleton]
  omega

theorem scriptLine_range {cons2 : List Line} {n m : ℕ} {letter : UInt8} (hn : n ≤ int32Max)
    (hm : m ≤ int32Max) (hletter : 32 < letter.toNat) :
    ScriptLine cons2 (decimal n ++ [44] ++ decimal m ++ [letter]) := by
  have hlen := length_decimal_le_ten hn
  have hlen' := length_decimal_le_ten hm
  have hcomma : Plain [44] := by simp [Plain]
  refine Or.inr ⟨(((plain_decimal n).append hcomma).append (plain_decimal m)).append
    (by simpa [Plain] using hletter), ?_⟩
  simp only [List.length_append, List.length_singleton]
  omega

theorem edLines_scriptLine {cons2 lines : List Line} {start1x end1 start2x end2 : ℕ}
    (h : edLines cons2 start1x end1 start2x end2 = some lines) (h1 : start1x ≤ end1)
    (hne : start1x < end1 ∨ start2x < end2) (hmax : end1 ≤ int32Max) :
    ∀ line ∈ lines, ScriptLine cons2 line := by
  obtain ⟨deleted, rfl⟩ := Nat.exists_eq_add_of_le h1
  have hdot : ScriptLine cons2 (bytes ".") := Or.inr ⟨by decide +kernel, by decide⟩
  have hadded : ∀ line ∈ (cons2.take end2).drop start2x, ScriptLine cons2 line := fun line hline =>
    Or.inl (List.mem_of_mem_take (List.mem_of_mem_drop hline))
  have hcommand : ∀ {command line : Line}, ScriptLine cons2 command →
      line ∈ command :: (cons2.take end2).drop start2x ++ [bytes "."] → ScriptLine cons2 line := by
    intro command line hcommand hline
    rcases List.mem_append.mp hline with hline | hline
    · rcases List.mem_cons.mp hline with rfl | hline
      · exact hcommand
      · exact hadded line hline
    · rw [List.mem_singleton.mp hline]
      exact hdot
  simp only [edLines, Nat.add_sub_cancel_left] at h
  intro line hline
  split_ifs at h with hzero hone hmem hdel0 hdel1
  all_goals cases h
  · rw [List.mem_singleton.mp hline]
    exact scriptLine_single (by omega) (by decide)
  · rw [List.mem_singleton.mp hline]
    exact scriptLine_range (by omega) (by omega) (by decide)
  · exact hcommand (scriptLine_single (by omega) (by decide)) hline
  · exact hcommand (scriptLine_single (by omega) (by decide)) hline
  · exact hcommand (scriptLine_range (by omega) (by omega) (by decide)) hline

theorem navigate_scriptLine {cons2 diff : List Line} {changed1 changed2 : Bits} {n1 n2 : ℕ}
    (h : navigate cons2 changed1 changed2 n1 n2 = some diff) (hmax : n1 ≤ int32Max) :
    ∀ line ∈ diff, ScriptLine cons2 line := by
  induction n1, n2 using navigate.induct changed1 changed2 generalizing diff with
  | case1 n1 n2 hzero =>
    rw [navigate, if_pos hzero] at h
    cases h
    simp
  | case2 n1 n2 hne hch ih =>
    rw [navigate, if_neg hne, dif_pos hch] at h
    exact ih h (by omega)
  | case3 n1 n2 hne hch ih =>
    rw [navigate, if_neg hne, dif_neg hch] at h
    simp only [Option.bind_eq_bind, Option.bind_eq_some_iff, Option.pure_def, Option.some.injEq] at h
    obtain ⟨lines, hlines, rest, hrest, rfl⟩ := h
    have hle := changedFrom_le changed1 n1
    intro line hline
    rcases List.mem_append.mp hline with hline | hline
    · exact edLines_scriptLine hlines hle (changedFrom_lt_or_lt hch) hmax line hline
    · exact ih hrest (by omega) line hline

/-- Every line of a script is a line of the target or a command. -/
theorem genEdDiff_scriptLine {cons1 cons2 diff : List Line} (hlen : cons1.length ≤ int32Max)
    (h : genEdDiff cons1 cons2 = some diff) : ∀ line ∈ diff, ScriptLine cons2 line := by
  obtain ⟨changed, result, -, hnavigate, rfl⟩ := genEdDiff_eq_some h
  have hpre : (preprocessConsensus cons1).1.length ≤ cons1.length := by
    unfold preprocessConsensus
    split
    · exact List.length_take_le' _ _
    · exact le_rfl
  intro line hline
  rcases List.mem_append.mp hline with hline | hline
  · unfold preprocessConsensus at hline
    split at hline
    · next idx hidx =>
      have hlt := dirsigIdx_lt hidx
      have hdecimal := length_decimal_le_ten (show idx + 1 ≤ int32Max by omega)
      obtain rfl : line = decimal (idx + 1) ++ bytes ",$d" := by simpa using hline
      refine Or.inr ⟨(plain_decimal _).append (by decide +kernel), ?_⟩
      rw [List.length_append]
      exact (Nat.add_le_add_right hdecimal _).trans (by decide)
    · cases hline
  · exact navigate_scriptLine hnavigate (hpre.trans hlen) line hline

/-! ### The round trip -/

variable {computeDigest computeDigestAsSigned : List UInt8 → Option ConsensusDigest}

theorem consensusSplitLines_eq_some {s : List UInt8} {lines : List Line}
    (h : consensusSplitLines s = some lines) :
    joinLines 10 lines = s ∧ (∀ line ∈ lines, IsLine 10 consensusLineMaxLen line) ∧
      lines.length ≤ int32Max := by
  simp only [consensusSplitLines, Option.bind_eq_some_iff, smartlistFits, Option.ite_none_right_eq_some,
    Option.some.injEq] at h
  obtain ⟨_, hsplit, hfits, rfl⟩ := h
  obtain ⟨hjoin, hlines⟩ := joinLines_of_splitLines hsplit
  exact ⟨hjoin, hlines, hfits⟩

theorem consdiffGenDiff_eq_some {cons1 cons2 result : List Line} {digests1 digests2 : ConsensusDigest}
    (h : (consdiffGenDiff cons1 cons2 digests1 digests2).toOption = some result) :
    ∃ edDiff, genEdDiff cons1 cons2 = some edDiff ∧ applyEdDiff cons1 edDiff 0 = some cons2 ∧
      result = nsDiffVersion :: hashLine digests1 digests2 :: edDiff := by
  unfold consdiffGenDiff at h
  split at h
  · cases h
  · next edDiff hgen =>
    split at h
    · cases h
    · next edCons2 happly =>
      split_ifs at h with heq
      · cases h
      rw [not_not] at heq
      exact ⟨edDiff, hgen, heq ▸ happly, (Option.some.inj h).symm⟩

def DiffLine (line : Line) : Prop := IsLine 10 consensusLineMaxLen line ∧ 0 ∉ line

theorem cString_joinLines {lines : List Line} (h : ∀ line ∈ lines, DiffLine line) :
    cString (joinLines 10 lines) = joinLines 10 lines := by
  apply cString_eq
  intro hzero
  rcases mem_joinLines hzero with heq | ⟨line, hline, hmem⟩
  · exact absurd heq (by decide)
  · exact (h line hline).2 hmem

theorem Plain.diffLine {line : Line} (h : Plain line) (hlen : line.length ≤ 127) : DiffLine line := by
  refine ⟨⟨h.not_mem (by decide), ?_⟩, h.not_mem (by decide)⟩
  exact hlen.trans (by decide)

theorem diffLine_of_genEdDiff {lines1 lines2 edDiff : List Line} {d1 d2 : ConsensusDigest}
    (hlen : lines1.length ≤ int32Max) (h : genEdDiff lines1 lines2 = some edDiff)
    (hlines2 : ∀ line ∈ lines2, IsLine 10 consensusLineMaxLen line) (hnul : 0 ∉ joinLines 10 lines2) :
    ∀ line ∈ nsDiffVersion :: hashLine d1 d2 :: edDiff, DiffLine line := by
  intro line hline
  rcases List.mem_cons.mp hline with rfl | hline
  · exact ⟨⟨by decide, by decide⟩, by decide⟩
  rcases List.mem_cons.mp hline with rfl | hline
  · have hlow : ∀ c : UInt8, c.toNat < 32 → c ∉ hashLine d1 d2 := by
      intro c hc hmem
      have := mem_hashLine hmem
      omega
    refine ⟨⟨hlow 10 (by decide), ?_⟩, hlow 0 (by decide)⟩
    rw [length_hashLine]
    decide
  rcases genEdDiff_scriptLine hlen h line hline with hmem | ⟨hplain, hshort⟩
  · refine ⟨hlines2 line hmem, fun hzero => hnul ?_⟩
    exact List.mem_flatMap.mpr ⟨line, hmem, List.mem_append_left _ hzero⟩
  · exact hplain.diffLine hshort

/-- **A generated diff leads from one text to the other.** -/
theorem consensusDiffApply_of_generate {cons1 cons2 diff : List UInt8} (hnul : 0 ∉ cons2)
    (h : consensusDiffGenerate computeDigest computeDigestAsSigned cons1 cons2 = some diff) :
    consensusDiffApply computeDigest computeDigestAsSigned cons1 diff = some cons2 := by
  simp only [consensusDiffGenerate, Option.bind_eq_bind, Option.bind_eq_some_iff, Option.pure_def,
    Option.some.injEq] at h
  obtain ⟨d1, hd1, d2, hd2, lines1, hlines1, lines2, hlines2, result, ⟨gen, hgen, hfits⟩, rfl⟩ := h
  obtain ⟨hjoin1, -, hlen1⟩ := consensusSplitLines_eq_some hlines1
  obtain ⟨hjoin2, hisLine2, hlen2⟩ := consensusSplitLines_eq_some hlines2
  obtain ⟨edDiff, hed, happly, rfl⟩ := consdiffGenDiff_eq_some hgen
  simp only [smartlistFits, Option.ite_none_right_eq_some, Option.some.injEq] at hfits
  obtain ⟨hfits, rfl⟩ := hfits
  have hdiff : ∀ line ∈ nsDiffVersion :: hashLine d1 d2 :: edDiff, DiffLine line :=
    diffLine_of_genEdDiff hlen1 hed hisLine2 (by rwa [hjoin2])
  have htext : cString (joinLines 10 (nsDiffVersion :: hashLine d1 d2 :: edDiff)) =
      joinLines 10 (nsDiffVersion :: hashLine d1 d2 :: edDiff) := cString_joinLines hdiff
  have hsplit : consensusSplitLines (joinLines 10 (nsDiffVersion :: hashLine d1 d2 :: edDiff)) =
      some (nsDiffVersion :: hashLine d1 d2 :: edDiff) := by
    rw [consensusSplitLines, splitLines_joinLines fun line hline => (hdiff line hline).1]
    exact if_pos hfits
  have hcons2 : consensusJoinLines lines2 = cons2 := by
    rw [consensusJoinLines, hjoin2, cString_eq hnul]
  have happly2 : applyEdDiff lines1 (nsDiffVersion :: hashLine d1 d2 :: edDiff) 2 = some lines2 :=
    happly
  rw [consensusDiffApply, consensusJoinLines, htext]
  simp only [Option.bind_eq_bind, Option.pure_def, hd1, hlines1, hsplit, Option.bind_some,
    consdiffApplyDiff, consdiffGetDigests_header, happly2, smartlistFits, if_pos hlen2, hcons2, hd2,
    ne_eq, not_true_eq_false, if_false]

/-- A digest that only counts the bytes. -/
def countingDigest (s : List UInt8) : Option ConsensusDigest :=
  some ⟨List.replicate 32 s.length.toUInt8, List.length_replicate⟩

theorem consensusDiffApply_replaced :
    consensusDiffApply countingDigest countingDigest (bytes "a\nr\n")
      (joinLines 10 [nsDiffVersion, hashToken ++ [32] ++ base16Encode (List.replicate 32 4) ++ [32] ++
        base16Encode (List.replicate 32 5), bytes "1c", bytes "b", bytes "", bytes "."]) =
      some (bytes "b\n\nr\n") := by
  apply consensusDiffApply_of_generate
  · decide
  · decide +kernel

end TorEbpf.Dircommon
