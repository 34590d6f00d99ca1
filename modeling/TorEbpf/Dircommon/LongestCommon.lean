import Mathlib
import TorEbpf.Dircommon.CalcChanges
import TorEbpf.Lib.CommonSubsequence

/-!
# The changes are the fewest

`calc_changes` of `consdiff.c` leaves a longest common subsequence of the two slices unmarked.

* `lcsLengths_spec` — a row of `lcs_lengths` holds the lengths for the parts of the second slice;
* `calcChanges_longest` — the number of unmarked lines, for any two slices;
* `calcChanges_correct` — what the marks of two slices are, from none on.
-/

namespace TorEbpf.Dircommon

open TorEbpf.Lib

/-! ### The rows -/

/-- The entries of a row, for the lines `lines1` and what `front` becomes with more and more of `lines2`. -/
def IsRow (lines1 front lines2 : List Line) (row : List ℕ) : Prop :=
  row.length = lines2.length + 1 ∧
    ∀ i ≤ lines2.length, LcsLength lines1 (front ++ lines2.take i) (row.getD i 0)

theorem IsRow.of_cons {lines1 front lines2 : List Line} {line2 : Line} {row : List ℕ} {entry : ℕ}
    (h : IsRow lines1 front (line2 :: lines2) (entry :: row)) :
    IsRow lines1 (front ++ [line2]) lines2 row := by
  obtain ⟨hlen, hentries⟩ := h
  refine ⟨?_, ?_⟩
  · simpa using hlen
  · intro i hi
    have hentry := hentries (i + 1) (by rw [List.length_cons]; omega)
    rwa [List.take_succ_cons, List.append_cons, List.getD_cons_succ] at hentry

theorem IsRow.cons {lines1 front lines2 : List Line} {line2 : Line} {row : List ℕ} {entry : ℕ}
    (hentry : LcsLength lines1 front entry) (h : IsRow lines1 (front ++ [line2]) lines2 row) :
    IsRow lines1 front (line2 :: lines2) (entry :: row) := by
  obtain ⟨hlen, hentries⟩ := h
  refine ⟨?_, ?_⟩
  · rw [List.length_cons, List.length_cons, hlen]
  · intro i hi
    cases i with
    | zero =>
      rw [List.take_zero, List.append_nil]
      exact hentry
    | succ i =>
      rw [List.take_succ_cons, List.append_cons, List.getD_cons_succ]
      exact hentries i (Nat.le_of_succ_le_succ hi)

/-- **A row** from the row before it. -/
theorem lcsRow_spec (line1 : Line) (lines1 lines2 : List Line) :
    ∀ (front : List Line) (left : ℕ) (prev : List ℕ), LcsLength (lines1 ++ [line1]) front left →
      IsRow lines1 front lines2 prev →
      IsRow (lines1 ++ [line1]) front lines2 (left :: lcsRow line1 left prev lines2) := by
  induction lines2 with
  | nil =>
    intro front left prev hleft hprev
    have hrow : lcsRow line1 left prev [] = [] := by
      rw [lcsRow]
      simp
    rw [hrow]
    refine ⟨rfl, ?_⟩
    intro i hi
    obtain rfl : i = 0 := Nat.le_zero.mp hi
    rw [List.take_nil, List.append_nil]
    exact hleft
  | cons line2 lines2 ih =>
    intro front left prev hleft hprev
    have hlen := hprev.1
    rw [List.length_cons] at hlen
    match prev, hlen with
    | prevJ :: prevJ1 :: prev, _ =>
      have hj := hprev.2 0 (Nat.zero_le _)
      rw [List.take_zero, List.append_nil] at hj
      have hnext := hprev.of_cons
      have hj1 := hnext.2 0 (Nat.zero_le _)
      rw [List.take_zero, List.append_nil] at hj1
      have hentry : LcsLength (lines1 ++ [line1]) (front ++ [line2])
          (if line1 = line2 then prevJ + 1 else max left prevJ1) := by
        split_ifs with heq
        · rw [heq]
          exact hj.concat_same line2
        · exact hleft.concat_ne hj1 heq
      exact IsRow.cons hleft (ih (front ++ [line2]) _ (prevJ1 :: prev) hentry hnext)

/-- **The rows of `lcs_lengths`.** -/
theorem lcsLengths_spec (lines1 lines2 : List Line) : IsRow lines1 [] lines2 (lcsLengths lines1 lines2) := by
  induction lines1 using List.reverseRecOn with
  | nil =>
    refine ⟨List.length_replicate, ?_⟩
    intro i hi
    have hzero : (lcsLengths [] lines2).getD i 0 = 0 := by
      simp [lcsLengths, List.getD_eq_getElem?_getD, Nat.lt_succ_of_le hi]
    rw [hzero]
    exact (lcsLength_nil _).symm
  | append_singleton lines1 line1 ih =>
    have hrow : lcsLengths (lines1 ++ [line1]) lines2 =
        0 :: lcsRow line1 0 (lcsLengths lines1 lines2) lines2 := by
      rw [lcsLengths, List.foldl_append]
      rfl
    rw [hrow]
    exact lcsRow_spec line1 lines1 lines2 [] 0 _ (lcsLength_nil _) ih

/-! ### The column -/

/-- The loop that looks for the largest sum. -/
theorem foldl_largest (h : ℕ → ℤ) (hpos : ∀ i, 0 ≤ h i) (n : ℕ) :
    let best := (List.range (n + 1)).foldl (fun (best : ℕ × ℤ) i => if h i > best.2 then (i, h i) else best)
      (0, -1)
    best.2 = h best.1 ∧ ∀ i ≤ n, h i ≤ best.2 := by
  induction n with
  | zero =>
    have hzero : h 0 > -1 := lt_of_lt_of_le (by decide) (hpos 0)
    simp [hzero]
  | succ n ih =>
    rw [List.range_succ, List.foldl_append]
    generalize (List.range (n + 1)).foldl
      (fun (best : ℕ × ℤ) i => if h i > best.2 then (i, h i) else best) (0, -1) = best at ih
    obtain ⟨hval, hmax⟩ := ih
    simp only [List.foldl_cons, List.foldl_nil]
    split_ifs with hgt
    · refine ⟨rfl, ?_⟩
      intro i hi
      rcases Nat.le_succ_iff.mp hi with hle | rfl
      · exact (hmax i hle).trans hgt.le
      · exact le_rfl
    · refine ⟨hval, ?_⟩
      intro i hi
      rcases Nat.le_succ_iff.mp hi with hle | rfl
      · exact hmax i hle
      · exact not_lt.mp hgt

/-- The entry of the second row for what is behind a column. -/
theorem lcsLengths_behind (bot slice2 : List Line) {i : ℕ} (hi : i ≤ slice2.length) :
    LcsLength bot (slice2.drop i) ((lcsLengths bot.reverse slice2.reverse).getD (slice2.length - i) 0) := by
  have hentry := (lcsLengths_spec bot.reverse slice2.reverse).2 (slice2.length - i)
    (by rw [List.length_reverse]; exact Nat.sub_le _ i)
  rw [List.nil_append, List.take_reverse, Nat.sub_sub_self hi] at hentry
  exact hentry.of_reverse

/-- **The column** at which the second slice is split is the best one. -/
theorem optimalColumnToSplit_split (top bot slice2 : List Line) {m n : ℕ}
    (htop : LcsLength top (slice2.take (optimalColumnToSplit top bot slice2)) m)
    (hbot : LcsLength bot (slice2.drop (optimalColumnToSplit top bot slice2)) n) :
    LcsLength (top ++ bot) slice2 (m + n) := by
  let f : ℕ → ℕ := fun i => (lcsLengths top slice2).getD i 0
  let g : ℕ → ℕ := fun i => (lcsLengths bot.reverse slice2.reverse).getD (slice2.length - i) 0
  have hf : ∀ i ≤ slice2.length, LcsLength top (slice2.take i) (f i) := (lcsLengths_spec top slice2).2
  have hg : ∀ i ≤ slice2.length, LcsLength bot (slice2.drop i) (g i) :=
    fun i hi => lcsLengths_behind bot slice2 hi
  have hle := optimalColumnToSplit_le top bot slice2
  obtain ⟨hval, hmax⟩ := foldl_largest (fun i => (f i : ℤ) + g i)
    (fun i => add_nonneg (Int.natCast_nonneg _) (Int.natCast_nonneg _)) slice2.length
  have hcolumn : ∀ i ≤ slice2.length, f i + g i ≤
      f (optimalColumnToSplit top bot slice2) + g (optimalColumnToSplit top bot slice2) := by
    intro i hi
    have hi' := hmax i hi
    rw [hval] at hi'
    exact Int.ofNat_le.mp (by push_cast; exact hi')
  rw [htop.unique (hf _ hle), hbot.unique (hg _ hle)]
  exact LcsLength.split hf hg hle hcolumn

/-! ### The unmarked lines -/

/-- The unmarked lines of two slices are a longest common subsequence. -/
def Longest (slice1 slice2 : Slice) (after : Bits × Bits) : Prop :=
  LcsLength slice1.lines slice2.lines (kept after.1 slice1.offset slice1.lines).length

theorem Longest.swap {slice1 slice2 : Slice} {before after : Bits × Bits}
    (h : Longest slice2 slice1 after) (hal : Aligned slice2 slice1 before after) :
    Longest slice1 slice2 after.swap := by
  unfold Longest at h ⊢
  rw [hal.same] at h
  exact h.symm

/-- What was trimmed off belongs to every longest common subsequence. -/
theorem Longest.of_trimSlices {slice1 slice2 : Slice} {before after : Bits × Bits}
    (hclear : slice1.Clear before.1)
    (hframe : (trimSlices slice1 slice2).1.Frame before.1 after.1)
    (h : Longest (trimSlices slice1 slice2).1 (trimSlices slice1 slice2).2 after) :
    Longest slice1 slice2 after := by
  obtain ⟨front, back, h1, h2, ho1, _⟩ := trimSlices_spec slice1 slice2
  unfold Longest at h ⊢
  generalize (trimSlices slice1 slice2).1 = s1 at *
  generalize (trimSlices slice1 slice2).2 = s2 at *
  have hlen1 := congrArg List.length h1
  simp only [List.length_append] at hlen1
  unfold Slice.Frame at hframe
  unfold Slice.Clear at hclear
  have hfront : kept after.1 slice1.offset front = front :=
    kept_of_unmarked fun k hk hk' => by rw [hframe k (by omega), hclear k (by omega) (by omega)]
  have hback : kept after.1 (s1.offset + s1.lines.length) back = back :=
    kept_of_unmarked fun k hk hk' => by rw [hframe k (by omega), hclear k (by omega) (by omega)]
  have hkept : (kept after.1 slice1.offset slice1.lines).length =
      front.length + (kept after.1 s1.offset s1.lines).length + back.length := by
    rw [h1, List.append_assoc, kept_append, kept_append, hfront, ← ho1, hback, List.length_append,
      List.length_append, Nat.add_assoc]
  rw [hkept, h1, h2]
  exact (h.append_left front).append_right back

theorem setChanged_longest {changed1 changed2 : Bits} {slice1 slice2 : Slice}
    (hc1 : slice1.Clear changed1) (hlen : slice1.lines.length ≤ 1) :
    Longest slice1 slice2 (setChanged changed1 changed2 slice1 slice2) := by
  unfold Longest setChanged
  split
  · next line hline =>
    split
    · next toskip hpos =>
      obtain ⟨idx, hidx, _⟩ := Option.map_eq_some_iff.mp hpos
      obtain ⟨hlt, hsame, -⟩ := List.findIdx?_eq_some_iff_getElem.mp hidx
      have hmem : line ∈ slice2.lines := by
        rw [← of_decide_eq_true hsame]
        exact List.getElem_mem hlt
      have hkept : kept changed1 slice1.offset slice1.lines = slice1.lines := kept_of_unmarked hc1
      show LcsLength slice1.lines slice2.lines (kept changed1 slice1.offset slice1.lines).length
      rw [hkept, hline]
      exact lcsLength_singleton hmem
    · next hpos =>
      have hnotMem : line ∉ slice2.lines := by
        intro hmem
        have hnone := List.findIdx?_eq_none_iff.mp (Option.map_eq_none_iff.mp hpos) line hmem
        simp at hnone
      have hkept : kept (bitarraySet changed1 slice1.offset) slice1.offset slice1.lines = [] := by
        apply kept_of_marked
        intro k hk hk'
        rw [hline, List.length_singleton] at hk'
        obtain rfl : k = slice1.offset := by omega
        simp [bitarraySet]
      show LcsLength slice1.lines slice2.lines
        (kept (bitarraySet changed1 slice1.offset) slice1.offset slice1.lines).length
      rw [hkept, hline]
      exact lcsLength_singleton_of_notMem hnotMem
  · next hlines =>
    have hnil : slice1.lines = [] := by
      rcases Nat.le_one_iff_eq_zero_or_eq_one.mp hlen with hzero | hone
      · exact List.length_eq_zero_iff.mp hzero
      · obtain ⟨line, hline⟩ := List.length_eq_one_iff.mp hone
        exact absurd hline (hlines line)
    rw [hnil]
    exact (lcsLength_nil _).symm

theorem Longest.append {s1 s2 : Slice} {mid mid2 : ℕ} {middle after : Bits × Bits}
    (hmid : mid ≤ s1.lines.length)
    (hcolumn : mid2 = optimalColumnToSplit (s1.lines.take mid) (s1.lines.drop mid) s2.lines)
    (htop : Longest ⟨s1.offset, s1.lines.take mid⟩ ⟨s2.offset, s2.lines.take mid2⟩ middle)
    (hbot : Longest ⟨s1.offset + mid, s1.lines.drop mid⟩ ⟨s2.offset + mid2, s2.lines.drop mid2⟩ after)
    (hframe : (Slice.mk (s1.offset + mid) (s1.lines.drop mid)).Frame middle.1 after.1) :
    Longest s1 s2 after := by
  unfold Longest at *
  simp only [Slice.Frame] at hframe
  have hfront : kept after.1 s1.offset (s1.lines.take mid) = kept middle.1 s1.offset (s1.lines.take mid) := by
    apply kept_congr
    intro k hk hk'
    rw [List.length_take] at hk'
    exact hframe k (.inl (by omega))
  have hkept : (kept after.1 s1.offset s1.lines).length =
      (kept middle.1 s1.offset (s1.lines.take mid)).length +
        (kept after.1 (s1.offset + mid) (s1.lines.drop mid)).length := by
    conv_lhs => rw [← List.take_append_drop mid s1.lines, kept_append, List.length_take_of_le hmid, hfront,
      List.length_append]
  subst hcolumn
  have hsplit := optimalColumnToSplit_split _ _ _ htop hbot
  rwa [List.take_append_drop, ← hkept] at hsplit

/-- **The unmarked lines are as many as can be.** -/
theorem calcChanges_longest {slice1 slice2 : Slice} {changed1 changed2 : Bits}
    (hc1 : slice1.Clear changed1) (hc2 : slice2.Clear changed2) :
    Longest slice1 slice2 (calcChanges slice1 slice2 changed1 changed2) := by
  induction hn : slice1.lines.length using Nat.strong_induction_on
    generalizing slice1 slice2 changed1 changed2 with
  | _ n ih =>
    obtain ⟨hpart1, hpart2⟩ := trimSlices_part slice1 slice2
    have hs1 := hc1.part hpart1.1 hpart1.2
    have hs2 := hc2.part hpart2.1 hpart2.2
    have hlen := length_trimSlices_le slice1 slice2
    suffices hboth : ∀ after, calcChanges slice1 slice2 changed1 changed2 = after →
        Aligned (trimSlices slice1 slice2).1 (trimSlices slice1 slice2).2 (changed1, changed2) after ∧
          Longest (trimSlices slice1 slice2).1 (trimSlices slice1 slice2).2 after by
      obtain ⟨haligned, hlongest⟩ := hboth _ rfl
      exact @Longest.of_trimSlices slice1 slice2 (changed1, changed2) _ hc1 haligned.frame1 hlongest
    rintro after rfl
    rw [calcChanges]
    dsimp only
    generalize (trimSlices slice1 slice2).1 = s1 at hs1 hlen ⊢
    generalize (trimSlices slice1 slice2).2 = s2 at hs2 ⊢
    split_ifs with h1 h2
    · exact ⟨setChanged_aligned hs1 hs2 h1, setChanged_longest hs1 h1⟩
    · have haligned := setChanged_aligned hs2 hs1 h2
      exact ⟨haligned.swap, (setChanged_longest hs2 h2).swap haligned⟩
    · have hmid : s1.lines.length / 2 ≤ s1.lines.length := Nat.div_le_self _ _
      have hmid2 := optimalColumnToSplit_le (s1.lines.take (s1.lines.length / 2))
        (s1.lines.drop (s1.lines.length / 2)) s2.lines
      generalize hm : s1.lines.length / 2 = mid at *
      generalize hcolumn : optimalColumnToSplit (s1.lines.take mid) (s1.lines.drop mid) s2.lines = mid2 at *
      have htopClear1 := hs1.take mid
      have htopClear2 := hs2.take mid2
      have htop := calcChanges_aligned htopClear1 htopClear2
      have hbotClear1 := (hs1.drop hmid).frame htop.frame1 (by simp only [List.length_take]; omega)
      have hbotClear2 := (hs2.drop hmid2).frame htop.frame2 (by simp only [List.length_take]; omega)
      have hbot := calcChanges_aligned hbotClear1 hbotClear2
      have htopLongest := ih mid (by omega) htopClear1 htopClear2 (List.length_take_of_le hmid)
      have hbotLongest := ih (s1.lines.length - mid) (by omega) hbotClear1 hbotClear2 List.length_drop
      exact ⟨Aligned.append hmid hmid2 htop hbot,
        Longest.append hmid hcolumn.symm htopLongest hbotLongest hbot.frame1⟩

/-- **The changes of two slices**, from no marks on: the unmarked lines of the one are those of the other,
no common subsequence of the slices is longer, and nothing is marked outside of them. -/
theorem calcChanges_correct (slice1 slice2 : Slice) :
    let changed := calcChanges slice1 slice2 (fun _ => false) (fun _ => false)
    let unchanged := kept changed.1 slice1.offset slice1.lines
    unchanged = kept changed.2 slice2.offset slice2.lines ∧
      Common slice1.lines slice2.lines unchanged ∧
      (∀ c, Common slice1.lines slice2.lines c → c.length ≤ unchanged.length) ∧
      (∀ k, changed.1 k = true → slice1.offset ≤ k ∧ k < slice1.offset + slice1.lines.length) ∧
      ∀ k, changed.2 k = true → slice2.offset ≤ k ∧ k < slice2.offset + slice2.lines.length := by
  have hc1 : slice1.Clear fun _ => false := fun _ _ _ => rfl
  have hc2 : slice2.Clear fun _ => false := fun _ _ _ => rfl
  have haligned := calcChanges_aligned hc1 hc2
  have hlongest := calcChanges_longest hc1 hc2
  have hinside : ∀ {slice : Slice} {after : Bits}, slice.Frame (fun _ => false) after → ∀ k,
      after k = true → slice.offset ≤ k ∧ k < slice.offset + slice.lines.length := by
    intro slice after hframe k hk
    by_contra hout
    rw [hframe k (by omega)] at hk
    cases hk
  refine ⟨haligned.same, ⟨kept_sublist, ?_⟩, hlongest.bound, hinside haligned.frame1,
    hinside haligned.frame2⟩
  rw [haligned.same]
  exact kept_sublist

end TorEbpf.Dircommon
