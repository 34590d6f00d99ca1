import Mathlib
import TorEbpf.Lib.Alignment

/-!
# The changes between two lists of lines

`calc_changes` of `consdiff.c`.  A line is its bytes, without the newline; the changed lines of a list
are a bit array.

* `trimSlices`, `setChanged`, `optimalColumnToSplit` — the pieces of the algorithm, which splits the
  first slice in half and the second one where the common subsequences are longest;
* `Aligned` — the marks change nothing outside of the slices, and the unmarked lines are the same;
* `calcChanges_aligned` — `calcChanges` aligns any two slices.
-/

namespace TorEbpf.Dircommon

open TorEbpf.Lib

/-- A line of a document (`cdline_t`). -/
abbrev Line := List UInt8

/-- A bit array (`bitarray_t`). -/
abbrev Bits := ℕ → Bool

def bitarraySet (b : Bits) (i : ℕ) : Bits := fun k => k == i || b k

/-! ### Slices -/

/-- A slice of a list: its first position and its lines (`smartlist_slice_t`). -/
structure Slice where
  offset : ℕ
  lines : List Line
deriving DecidableEq

/-- `smartlist_slice`; the end is not part of it. -/
def smartlistSlice (list : List Line) (start stop : ℕ) : Slice :=
  ⟨start, (list.take stop).drop start⟩

/-- The entries `j + 1` and on of a row of `lcs_lengths`, from the entry `j` of the same row and the
entries `j` and on of the row before. -/
def lcsRow (line1 : Line) : ℕ → List ℕ → List Line → List ℕ
  | left, prevJ :: prevJ1 :: prev, line2 :: lines2 =>
    let entry := if line1 = line2 then prevJ + 1 else max left prevJ1
    entry :: lcsRow line1 entry (prevJ1 :: prev) lines2
  | _, _, _ => []

/-- `lcs_lengths` in direction 1; direction -1 is the same on the reversed lines. -/
def lcsLengths (lines1 lines2 : List Line) : List ℕ :=
  lines1.foldl (fun prev line1 => 0 :: lcsRow line1 0 prev lines2)
    (List.replicate (lines2.length + 1) 0)

/-- The lines of two slices behind those that both start with. -/
def skipCommon : List Line → List Line → List Line × List Line
  | line1 :: lines1, line2 :: lines2 =>
    if line1 = line2 then skipCommon lines1 lines2 else (line1 :: lines1, line2 :: lines2)
  | lines1, lines2 => (lines1, lines2)

/-- `trim_slices`: first the lines at the start, then those at the end. -/
def trimSlices (slice1 slice2 : Slice) : Slice × Slice :=
  let front := skipCommon slice1.lines slice2.lines
  let back := skipCommon front.1.reverse front.2.reverse
  (⟨slice1.offset + (slice1.lines.length - front.1.length), back.1.reverse⟩,
    ⟨slice2.offset + (slice2.lines.length - front.2.length), back.2.reverse⟩)

def smartlistSliceStringPos (slice : Slice) (string : Line) : Option ℕ :=
  (slice.lines.findIdx? fun el => el = string).map (slice.offset + ·)

/-- The loop of `set_changed`: all the lines of the slice but one. -/
def setAllBut (changed : Bits) (slice : Slice) (toskip : Option ℕ) : Bits :=
  (List.range' slice.offset slice.lines.length).foldl
    (fun changed i => if some i = toskip then changed else bitarraySet changed i) changed

/-- `set_changed`, for a first slice of at most one line. -/
def setChanged (changed1 changed2 : Bits) (slice1 slice2 : Slice) : Bits × Bits :=
  match slice1.lines with
  | [lineCommon] =>
    match smartlistSliceStringPos slice2 lineCommon with
    | some toskip => (changed1, setAllBut changed2 slice2 (some toskip))
    | none => (bitarraySet changed1 slice1.offset, setAllBut changed2 slice2 none)
  | _ => (changed1, setAllBut changed2 slice2 none)

/-- `optimal_column_to_split`: the first column with the largest sum. -/
def optimalColumnToSplit (top bot slice2 : List Line) : ℕ :=
  let lensTop := lcsLengths top slice2
  let lensBot := lcsLengths bot.reverse slice2.reverse
  ((List.range (slice2.length + 1)).foldl
    (fun (best : ℕ × ℤ) i =>
      let sum : ℤ := lensTop.getD i 0 + lensBot.getD (slice2.length - i) 0
      if sum > best.2 then (i, sum) else best)
    (0, -1)).1

theorem length_skipCommon_le (lines1 lines2 : List Line) :
    (skipCommon lines1 lines2).1.length ≤ lines1.length := by
  induction lines1, lines2 using skipCommon.induct with
  | case1 line1 lines1 lines2 ih =>
    rw [skipCommon, if_pos rfl, List.length_cons]
    omega
  | case2 line1 lines1 line2 lines2 h => rw [skipCommon, if_neg h]
  | case3 lines1 lines2 h => rw [skipCommon]; exact h

theorem length_trimSlices_le (slice1 slice2 : Slice) :
    (trimSlices slice1 slice2).1.lines.length ≤ slice1.lines.length := by
  have hfront := length_skipCommon_le slice1.lines slice2.lines
  have hback := length_skipCommon_le (skipCommon slice1.lines slice2.lines).1.reverse
    (skipCommon slice1.lines slice2.lines).2.reverse
  simp only [trimSlices, List.length_reverse] at *
  omega

def calcChanges (slice1 slice2 : Slice) (changed1 changed2 : Bits) : Bits × Bits :=
  let s1 := (trimSlices slice1 slice2).1
  let s2 := (trimSlices slice1 slice2).2
  if s1.lines.length ≤ 1 then
    setChanged changed1 changed2 s1 s2
  else if s2.lines.length ≤ 1 then
    (setChanged changed2 changed1 s2 s1).swap
  else
    let mid := s1.lines.length / 2
    let top : Slice := ⟨s1.offset, s1.lines.take mid⟩
    let bot : Slice := ⟨s1.offset + mid, s1.lines.drop mid⟩
    let mid2 := optimalColumnToSplit top.lines bot.lines s2.lines
    let left : Slice := ⟨s2.offset, s2.lines.take mid2⟩
    let right : Slice := ⟨s2.offset + mid2, s2.lines.drop mid2⟩
    let changed := calcChanges top left changed1 changed2
    calcChanges bot right changed.1 changed.2
termination_by slice1.lines.length
decreasing_by
  all_goals
    have hlen : s1.lines.length ≤ slice1.lines.length := length_trimSlices_le slice1 slice2
    simp only [List.length_take, List.length_drop, ← show s1 = (trimSlices slice1 slice2).1 from rfl]
    omega

/-! ### The changes of two slices -/

/-- No line of the slice is marked. -/
def Slice.Clear (slice : Slice) (changed : Bits) : Prop :=
  ∀ k, slice.offset ≤ k → k < slice.offset + slice.lines.length → changed k = false

/-- The marks outside of the slice are the same. -/
def Slice.Frame (slice : Slice) (before after : Bits) : Prop :=
  ∀ k, k < slice.offset ∨ slice.offset + slice.lines.length ≤ k → after k = before k

/-- **What marking two slices does**: it touches nothing else, and the unmarked lines are the same. -/
structure Aligned (slice1 slice2 : Slice) (before after : Bits × Bits) : Prop where
  frame1 : slice1.Frame before.1 after.1
  frame2 : slice2.Frame before.2 after.2
  same : kept after.1 slice1.offset slice1.lines = kept after.2 slice2.offset slice2.lines

theorem Aligned.swap {slice1 slice2 : Slice} {before after : Bits × Bits}
    (h : Aligned slice1 slice2 before after) : Aligned slice2 slice1 before.swap after.swap :=
  ⟨h.frame2, h.frame1, h.same.symm⟩

theorem skipCommon_spec (lines1 lines2 : List Line) :
    ∃ common, lines1 = common ++ (skipCommon lines1 lines2).1 ∧
      lines2 = common ++ (skipCommon lines1 lines2).2 := by
  induction lines1, lines2 using skipCommon.induct with
  | case1 lines1 line lines2 ih =>
    obtain ⟨common, h1, h2⟩ := ih
    refine ⟨line :: common, ?_, ?_⟩
    · rw [skipCommon, if_pos rfl, List.cons_append, ← h1]
    · rw [skipCommon, if_pos rfl, List.cons_append, ← h2]
  | case2 line1 lines1 line2 lines2 h =>
    rw [skipCommon, if_neg h]
    exact ⟨[], rfl, rfl⟩
  | case3 lines1 lines2 h =>
    rw [skipCommon]
    · exact ⟨[], rfl, rfl⟩
    · exact h

theorem trimSlices_spec (slice1 slice2 : Slice) :
    ∃ front back : List Line,
      slice1.lines = front ++ (trimSlices slice1 slice2).1.lines ++ back ∧
      slice2.lines = front ++ (trimSlices slice1 slice2).2.lines ++ back ∧
      (trimSlices slice1 slice2).1.offset = slice1.offset + front.length ∧
      (trimSlices slice1 slice2).2.offset = slice2.offset + front.length := by
  obtain ⟨front, h1, h2⟩ := skipCommon_spec slice1.lines slice2.lines
  obtain ⟨back, h3, h4⟩ := skipCommon_spec (skipCommon slice1.lines slice2.lines).1.reverse
    (skipCommon slice1.lines slice2.lines).2.reverse
  have hlen1 := congrArg List.length h1
  have hlen2 := congrArg List.length h2
  rw [List.reverse_eq_iff, List.reverse_append] at h3 h4
  rw [List.length_append] at hlen1 hlen2
  refine ⟨front, back.reverse, ?_, ?_, ?_, ?_⟩
  · rw [List.append_assoc, trimSlices, ← h3, ← h1]
  · rw [List.append_assoc, trimSlices, ← h4, ← h2]
  · simp only [trimSlices]
    omega
  · simp only [trimSlices]
    omega

/-- What was trimmed off is unmarked and the same in both slices. -/
theorem Aligned.of_trimSlices {slice1 slice2 : Slice} {before after : Bits × Bits}
    (hc1 : slice1.Clear before.1) (hc2 : slice2.Clear before.2)
    (h : Aligned (trimSlices slice1 slice2).1 (trimSlices slice1 slice2).2 before after) :
    Aligned slice1 slice2 before after := by
  obtain ⟨front, back, h1, h2, ho1, ho2⟩ := trimSlices_spec slice1 slice2
  generalize (trimSlices slice1 slice2).1 = s1 at *
  generalize (trimSlices slice1 slice2).2 = s2 at *
  have hlen1 := congrArg List.length h1
  have hlen2 := congrArg List.length h2
  simp only [List.length_append] at hlen1 hlen2
  have hframe1 := h.frame1
  have hframe2 := h.frame2
  unfold Slice.Frame at hframe1 hframe2
  unfold Slice.Clear at hc1 hc2
  have hfront1 : kept after.1 slice1.offset front = front :=
    kept_of_unmarked fun k hk hk' => by rw [hframe1 k (by omega), hc1 k (by omega) (by omega)]
  have hfront2 : kept after.2 slice2.offset front = front :=
    kept_of_unmarked fun k hk hk' => by rw [hframe2 k (by omega), hc2 k (by omega) (by omega)]
  have hback1 : kept after.1 (s1.offset + s1.lines.length) back = back :=
    kept_of_unmarked fun k hk hk' => by rw [hframe1 k (by omega), hc1 k (by omega) (by omega)]
  have hback2 : kept after.2 (s2.offset + s2.lines.length) back = back :=
    kept_of_unmarked fun k hk hk' => by rw [hframe2 k (by omega), hc2 k (by omega) (by omega)]
  refine ⟨fun k hk => hframe1 k (by omega), fun k hk => hframe2 k (by omega), ?_⟩
  rw [h1, h2, List.append_assoc, List.append_assoc, kept_append, kept_append, kept_append,
    kept_append, hfront1, hfront2, ← ho1, ← ho2, hback1, hback2, h.same]

theorem setAllBut_apply (changed : Bits) (slice : Slice) (toskip : Option ℕ) (k : ℕ) :
    setAllBut changed slice toskip k = true ↔
      changed k = true ∨ (slice.offset ≤ k ∧ k < slice.offset + slice.lines.length ∧
        some k ≠ toskip) := by
  unfold setAllBut
  generalize slice.lines.length = n
  induction n with
  | zero => 
    simp
    omega
  | succ n ih =>
    rw [List.range'_concat, List.foldl_append]
    simp only [List.foldl_cons, List.foldl_nil, Nat.one_mul]
    split
    · next hskip =>
      rw [ih]
      constructor
      · rintro (h | ⟨h1, h2, h3⟩)
        · exact Or.inl h
        · exact Or.inr ⟨h1, by omega, h3⟩
      · rintro (h | ⟨h1, h2, h3⟩)
        · exact Or.inl h
        · have hne : k ≠ slice.offset + n := fun heq => h3 (heq ▸ hskip)
          exact Or.inr ⟨h1, by omega, h3⟩
    · next hskip =>
      simp only [bitarraySet, Bool.or_eq_true, beq_iff_eq, ih]
      constructor
      · rintro (rfl | h | ⟨h1, h2, h3⟩)
        · exact Or.inr ⟨by omega, by omega, hskip⟩
        · exact Or.inl h
        · exact Or.inr ⟨h1, by omega, h3⟩
      · rintro (h | ⟨h1, h2, h3⟩)
        · exact Or.inr (Or.inl h)
        · rcases Nat.lt_or_ge k (slice.offset + n) with hlt | hge
          · exact Or.inr (Or.inr ⟨h1, hlt, h3⟩)
          · exact Or.inl (by omega)

theorem setAllBut_frame (changed : Bits) (slice : Slice) (toskip : Option ℕ) :
    slice.Frame changed (setAllBut changed slice toskip) := by
  intro k hk
  rw [Bool.eq_iff_iff, setAllBut_apply]
  constructor
  · rintro (h | ⟨h1, h2, -⟩)
    · exact h
    · omega
  · exact Or.inl

theorem kept_setAllBut_none (changed : Bits) (slice : Slice) :
    kept (setAllBut changed slice none) slice.offset slice.lines = [] := by
  apply kept_of_marked
  intro k hk hk'
  exact (setAllBut_apply _ _ _ _).mpr (Or.inr ⟨hk, hk', by simp⟩)

theorem kept_setAllBut_some {changed : Bits} {slice : Slice} {line : Line} {toskip : ℕ}
    (hclear : slice.Clear changed) (hpos : smartlistSliceStringPos slice line = some toskip) :
    kept (setAllBut changed slice (some toskip)) slice.offset slice.lines = [line] := by
  obtain ⟨idx, hidx, rfl⟩ := Option.map_eq_some_iff.mp hpos
  obtain ⟨hlt, hline, -⟩ := List.findIdx?_eq_some_iff_getElem.mp hidx
  have hlines : slice.lines = slice.lines.take idx ++ line :: slice.lines.drop (idx + 1) := by
    conv_lhs => rw [← List.take_append_drop idx slice.lines, List.drop_eq_getElem_cons hlt,
      of_decide_eq_true hline]
  have hfront : (slice.lines.take idx).length = idx := List.length_take_of_le hlt.le
  unfold Slice.Clear at hclear
  rw [hlines] at hclear ⊢
  apply kept_singleMark
  intro k hk hk'
  rw [← Bool.not_eq_true, setAllBut_apply, hclear k hk hk', hfront]
  rw [← hlines] at hk'
  simp [hk, hk']

theorem setChanged_aligned {changed1 changed2 : Bits} {slice1 slice2 : Slice}
    (hc1 : slice1.Clear changed1) (hc2 : slice2.Clear changed2) (hlen : slice1.lines.length ≤ 1) :
    Aligned slice1 slice2 (changed1, changed2) (setChanged changed1 changed2 slice1 slice2) := by
  unfold setChanged
  split
  · next line hline =>
    have hmine : slice1.offset + slice1.lines.length = slice1.offset + 1 := by rw [hline]; rfl
    split
    · next toskip hpos =>
      refine ⟨fun k _ => rfl, setAllBut_frame _ _ _, ?_⟩
      rw [kept_setAllBut_some hc2 hpos, ← hline]
      exact kept_of_unmarked hc1
    · refine ⟨?_, setAllBut_frame _ _ _, ?_⟩
      · intro k hk
        have hne : k ≠ slice1.offset := by omega
        simp [bitarraySet, hne]
      · rw [kept_setAllBut_none]
        apply kept_of_marked
        intro k hk hk'
        obtain rfl : k = slice1.offset := by omega
        simp [bitarraySet]
  · next hlines =>
    have hnil : slice1.lines = [] := by
      match hl : slice1.lines with
      | [] => rfl
      | [line] => exact absurd hl (hlines line)
      | _ :: _ :: _ => rw [hl] at hlen; simp at hlen
    refine ⟨fun k _ => rfl, setAllBut_frame _ _ _, ?_⟩
    rw [kept_setAllBut_none, hnil, kept_nil]

theorem Aligned.append {s1 s2 : Slice} {mid mid2 : ℕ} {before middle after : Bits × Bits}
    (hmid : mid ≤ s1.lines.length) (hmid2 : mid2 ≤ s2.lines.length)
    (htop : Aligned ⟨s1.offset, s1.lines.take mid⟩ ⟨s2.offset, s2.lines.take mid2⟩ before middle)
    (hbot : Aligned ⟨s1.offset + mid, s1.lines.drop mid⟩ ⟨s2.offset + mid2, s2.lines.drop mid2⟩
      middle after) : Aligned s1 s2 before after := by
  obtain ⟨ht1, ht2, htop⟩ := htop
  obtain ⟨hb1, hb2, hbot⟩ := hbot
  simp only [Slice.Frame, List.length_take, List.length_drop] at *
  refine ⟨fun k hk => ?_, fun k hk => ?_, ?_⟩
  · rw [hb1 k (by omega), ht1 k (by omega)]
  · rw [hb2 k (by omega), ht2 k (by omega)]
  · have htop1 : kept after.1 s1.offset (s1.lines.take mid) =
        kept middle.1 s1.offset (s1.lines.take mid) := kept_congr fun k hk hk' => by
      rw [List.length_take] at hk'
      exact hb1 k (by omega)
    have htop2 : kept after.2 s2.offset (s2.lines.take mid2) =
        kept middle.2 s2.offset (s2.lines.take mid2) := kept_congr fun k hk hk' => by
      rw [List.length_take] at hk'
      exact hb2 k (by omega)
    calc kept after.1 s1.offset s1.lines
        = kept after.1 s1.offset (s1.lines.take mid) ++
            kept after.1 (s1.offset + mid) (s1.lines.drop mid) := by
          conv_lhs => rw [← List.take_append_drop mid s1.lines, kept_append,
            List.length_take_of_le hmid]
      _ = kept after.2 s2.offset (s2.lines.take mid2) ++
            kept after.2 (s2.offset + mid2) (s2.lines.drop mid2) := by
          rw [htop1, htop2, htop, hbot]
      _ = kept after.2 s2.offset s2.lines := by
          conv_rhs => rw [← List.take_append_drop mid2 s2.lines, kept_append,
            List.length_take_of_le hmid2]

theorem optimalColumnToSplit_le (top bot slice2 : List Line) :
    optimalColumnToSplit top bot slice2 ≤ slice2.length := by
  unfold optimalColumnToSplit
  apply List.foldlRecOn (motive := fun best : ℕ × ℤ => best.1 ≤ slice2.length)
  · exact Nat.zero_le _
  · intro best hbest i hi
    have hlt := List.mem_range.mp hi
    dsimp only
    split
    · exact Nat.lt_succ_iff.mp hlt
    · exact hbest

theorem Slice.Clear.part {slice part : Slice} {changed : Bits} (h : slice.Clear changed)
    (hstart : slice.offset ≤ part.offset)
    (hstop : part.offset + part.lines.length ≤ slice.offset + slice.lines.length) :
    part.Clear changed := by
  intro k hk hk'
  exact h k (by omega) (by omega)

theorem Slice.Clear.take {slice : Slice} {changed : Bits} (h : slice.Clear changed) (n : ℕ) :
    (Slice.mk slice.offset (slice.lines.take n)).Clear changed := by
  refine h.part (Nat.le_refl slice.offset) ?_
  simp only [List.length_take]
  omega

theorem Slice.Clear.drop {slice : Slice} {changed : Bits} (h : slice.Clear changed) {n : ℕ}
    (hn : n ≤ slice.lines.length) :
    (Slice.mk (slice.offset + n) (slice.lines.drop n)).Clear changed := by
  refine h.part (Nat.le_add_right slice.offset n) ?_
  simp only [List.length_drop]
  omega

theorem Slice.Clear.frame {slice other : Slice} {before after : Bits} (h : slice.Clear before)
    (hframe : other.Frame before after) (hstop : other.offset + other.lines.length ≤ slice.offset) :
    slice.Clear after := by
  intro k hk hk'
  rw [hframe k (Or.inr (by omega))]
  exact h k hk hk'

theorem trimSlices_part (slice1 slice2 : Slice) :
    (slice1.offset ≤ (trimSlices slice1 slice2).1.offset ∧
      (trimSlices slice1 slice2).1.offset + (trimSlices slice1 slice2).1.lines.length ≤
        slice1.offset + slice1.lines.length) ∧
    (slice2.offset ≤ (trimSlices slice1 slice2).2.offset ∧
      (trimSlices slice1 slice2).2.offset + (trimSlices slice1 slice2).2.lines.length ≤
        slice2.offset + slice2.lines.length) := by
  obtain ⟨front, back, h1, h2, ho1, ho2⟩ := trimSlices_spec slice1 slice2
  have hlen1 := congrArg List.length h1
  have hlen2 := congrArg List.length h2
  simp only [List.length_append] at hlen1 hlen2
  omega

/-- **The unmarked lines of two slices are the same.** -/
theorem calcChanges_aligned {slice1 slice2 : Slice} {changed1 changed2 : Bits}
    (hc1 : slice1.Clear changed1) (hc2 : slice2.Clear changed2) :
    Aligned slice1 slice2 (changed1, changed2) (calcChanges slice1 slice2 changed1 changed2) := by
  induction hn : slice1.lines.length using Nat.strong_induction_on
    generalizing slice1 slice2 changed1 changed2 with
  | _ n ih =>
    apply Aligned.of_trimSlices hc1 hc2
    obtain ⟨hpart1, hpart2⟩ := trimSlices_part slice1 slice2
    have hs1 := hc1.part hpart1.1 hpart1.2
    have hs2 := hc2.part hpart2.1 hpart2.2
    have hlen := length_trimSlices_le slice1 slice2
    rw [calcChanges]
    dsimp only
    generalize (trimSlices slice1 slice2).1 = s1 at hs1 hlen ⊢
    generalize (trimSlices slice1 slice2).2 = s2 at hs2 ⊢
    split_ifs with h1 h2
    · exact setChanged_aligned hs1 hs2 h1
    · exact (setChanged_aligned hs2 hs1 h2).swap
    · -- both halves are shorter; what the first one marks lies in front of the second one
      have hmid : s1.lines.length / 2 ≤ s1.lines.length := Nat.div_le_self _ _
      have hmid2 := optimalColumnToSplit_le (s1.lines.take (s1.lines.length / 2))
        (s1.lines.drop (s1.lines.length / 2)) s2.lines
      generalize hm : s1.lines.length / 2 = mid at *
      generalize optimalColumnToSplit (s1.lines.take mid) (s1.lines.drop mid) s2.lines = mid2 at *
      have htop := ih mid (by omega) (hs1.take mid) (hs2.take mid2) (List.length_take_of_le hmid)
      refine Aligned.append hmid hmid2 htop (ih (s1.lines.length - mid) (by omega) ?_ ?_
        List.length_drop)
      · apply (hs1.drop hmid).frame htop.frame1
        simp only [List.length_take]
        omega
      · apply (hs2.drop hmid2).frame htop.frame2
        simp only [List.length_take]
        omega

end TorEbpf.Dircommon
