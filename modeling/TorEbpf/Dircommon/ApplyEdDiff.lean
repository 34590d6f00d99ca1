import Mathlib
import TorEbpf.Dircommon.EdDiff
import TorEbpf.Lib.Checked
import TorEbpf.Lib.Ed

/-!
# `apply_ed_diff` as an editor

`apply_ed_diff` of `consdiff.c` once more, now with its indices: the lines of the base and of the script
are read one by one, from the end of the base, and an index that no line stands at is a fault.

* `applyLoop_eq` — no index is outside of the lists, and the lines come out as in `applyFrom`;
* `applyFrom_eq_onePass` — an accepted script works upwards, and what comes out is one pass over the base;
* `applyEdDiff_script` — when this is what an editor makes of the base.
-/

namespace TorEbpf.Dircommon

open TorEbpf.Lib

/-! ### The loops -/

/-- `smartlist_get`; the index that no line stands at is the fault. -/
def smartlistGet (sl : List Line) (idx : ℤ) : Checked Unit ℤ Line :=
  if 0 ≤ idx then
    match sl[idx.toNat]? with
    | some line => .ok line
    | none => fault idx
  else fault idx

/-- "Add unchanged lines": `for (; j && j > end; --j)`; with 0 for `end` also the loop behind the commands. -/
def addUnchanged (cons1 : List Line) (stop j : ℤ) (cons2 : List Line) : Checked Unit ℤ (ℤ × List Line) :=
  if _h : j ≠ 0 ∧ stop < j then do
    let consLine ← smartlistGet cons1 (j - 1)
    addUnchanged cons1 stop (j - 1) (cons2 ++ [consLine])
  else pure (j, cons2)
termination_by (j - stop).toNat

/-- "Ignore removed lines": `while (--j >= start)`. -/
def skipRemoved (start j : ℤ) : ℤ :=
  if _h : start ≤ j - 1 then skipRemoved start (j - 1) else j - 1
termination_by (j - start).toNat

/-- The loop that looks for the "." behind the lines to be inserted; to reach the end without it is an
error. -/
def findDot (diff : List Line) (i : ℤ) : Checked Unit ℤ ℤ :=
  if _h : i < diff.length then do
    let line ← smartlistGet diff i
    if line = bytes "." then pure i
    else if i + 1 = diff.length then reject ()
    else findDot diff (i + 1)
  else pure i
termination_by (diff.length - i).toNat

/-- `while (added_i > added_end)`, which adds the lines from the last one on. -/
def addLines (diff : List Line) (addedEnd addedI : ℤ) (cons2 : List Line) : Checked Unit ℤ (List Line) :=
  if _h : addedEnd < addedI then do
    let addedLine ← smartlistGet diff addedI
    addLines diff addedEnd (addedI - 1) (cons2 ++ [addedLine])
  else pure cons2
termination_by (addedI - addedEnd).toNat

/-- "Add new lines in reverse order", for the command at `i`: where its "." is, and the result. -/
def addNewLines (diff : List Line) (i : ℤ) (cons2 : List Line) : Checked Unit ℤ (ℤ × List Line) := do
  let dot ← findDot diff (i + 1)
  if dot - 1 = i then reject ()
  else
    let cons2 ← addLines diff i (dot - 1) cons2
    return (dot, cons2)

theorem findDot_le {diff : List Line} {i dot : ℤ} (h : findDot diff i = .ok dot) : i ≤ dot := by
  induction i using findDot.induct diff with
  | case1 i hlt ih =>
    rw [findDot, dif_pos hlt] at h
    obtain ⟨line, _, h⟩ := bind_eq_ok.mp h
    split_ifs at h with hdot hend
    · cases h
      exact le_rfl
    · cases h
    · have hle := ih h
      omega
  | case2 i hlt =>
    rw [findDot, dif_neg hlt] at h
    cases h
    exact le_rfl

theorem lt_of_addNewLines {diff cons2 : List Line} {i : ℤ} {r : ℤ × List Line}
    (h : addNewLines diff i cons2 = .ok r) : i < r.1 := by
  obtain ⟨dot, hdot, h⟩ := bind_eq_ok.mp h
  have hle := findDot_le hdot
  split_ifs at h
  · cases h
  · obtain ⟨cons2, _, h⟩ := bind_eq_ok.mp h
    cases h
    show i < dot
    omega

/-- The loop over the commands, from the line `i` of the script on: `j` lines of the base are left, and the
result is in reverse order. -/
def applyLoop (cons1 diff : List Line) (i j : ℤ) (cons2 : List Line) : Checked Unit ℤ (List Line) :=
  if _h : i < diff.length then
    match smartlistGet diff i with
    | .error e => .error e
    | .ok diffLine =>
        match readCommand cons1.length j diffLine with
        | none => reject ()
        | some command =>
            match addUnchanged cons1 command.stop j cons2 with
            | .error e => .error e
            | .ok (j, cons2) =>
                match command.action with
                | .d => applyLoop cons1 diff (i + 1) (skipRemoved command.start j) cons2
                | .a =>
                    match _hadd : addNewLines diff i cons2 with
                    | .error e => .error e
                    | .ok (dot, cons2) => applyLoop cons1 diff (dot + 1) j cons2
                | .c =>
                    match _hadd : addNewLines diff i cons2 with
                    | .error e => .error e
                    | .ok (dot, cons2) => applyLoop cons1 diff (dot + 1) (skipRemoved command.start j) cons2
  else do
    let (_, cons2) ← addUnchanged cons1 0 j cons2
    return cons2.reverse
termination_by (diff.length - i).toNat
decreasing_by
  · omega
  · have hlt := lt_of_addNewLines _hadd
    dsimp only at hlt
    omega
  · have hlt := lt_of_addNewLines _hadd
    dsimp only at hlt
    omega

/-- `apply_ed_diff`, line by line. -/
def applyEdDiffLines (cons1 diff : List Line) (diffStartingLine : ℕ) : Checked Unit ℤ (List Line) :=
  applyLoop cons1 diff diffStartingLine cons1.length []

/-! ### What the loops do -/

theorem smartlistGet_eq {sl : List Line} {idx : ℕ} {line : Line} (h : sl[idx]? = some line) :
    smartlistGet sl idx = .ok line := by
  rw [smartlistGet, if_pos (Int.natCast_nonneg idx), Int.toNat_natCast, h]

theorem addUnchanged_eq (cons1 : List Line) (stop n : ℕ) :
    ∀ cons2 : List Line, stop + n ≤ cons1.length →
      addUnchanged cons1 stop (stop + n : ℕ) cons2 =
        .ok ((stop : ℤ), cons2 ++ ((cons1.take (stop + n)).drop stop).reverse) := by
  induction n with
  | zero =>
    intro cons2 _
    have hnil : (cons1.take (stop + 0)).drop stop = [] := List.drop_of_length_le (by simp)
    rw [addUnchanged, dif_neg (by omega), hnil, List.reverse_nil, List.append_nil]
    rfl
  | succ n ih =>
    intro cons2 hlen
    have hlt : stop + n < cons1.length := by omega
    have hline : cons1[stop + n]? = some cons1[stop + n] := List.getElem?_eq_getElem hlt
    have hindex : ((stop + (n + 1) : ℕ) : ℤ) - 1 = (stop + n : ℕ) := by omega
    have htake : (cons1.take (stop + (n + 1))).drop stop =
        (cons1.take (stop + n)).drop stop ++ [cons1[stop + n]] := by
      rw [← Nat.add_assoc, List.take_add_one, hline, Option.toList_some,
        List.drop_append_of_le_length (by rw [List.length_take]; omega)]
    rw [addUnchanged, dif_pos (by omega), hindex, smartlistGet_eq hline, ok_bind, ih _ hlt.le, htake]
    simp

theorem skipRemoved_eq {start j : ℤ} (h : start ≤ j) : skipRemoved start j = start - 1 := by
  induction j using skipRemoved.induct start with
  | case1 j hle ih => rw [skipRemoved, dif_pos hle, ih hle]
  | case2 j hlt =>
    rw [skipRemoved, dif_neg hlt]
    omega

/-- The "." behind the lines from `i` on, if there is one. -/
theorem findDot_eq (diff : List Line) (n : ℕ) :
    ∀ i : ℕ, i + n = diff.length → 0 < n →
      findDot diff i =
        if bytes "." ∈ diff.drop i then
          .ok ((i + ((diff.drop i).takeWhile (· ≠ bytes ".")).length : ℕ) : ℤ)
        else reject () := by
  induction n with
  | zero =>
    intro i _ hpos
    exact absurd hpos (lt_irrefl 0)
  | succ n ih =>
    intro i hlen _
    have hlt : i < diff.length := by omega
    have hline : diff[i]? = some diff[i] := List.getElem?_eq_getElem hlt
    have hdrop : diff.drop i = diff[i] :: diff.drop (i + 1) := List.drop_eq_getElem_cons hlt
    rw [findDot, dif_pos (by omega), smartlistGet_eq hline, ok_bind, hdrop]
    by_cases hdot : diff[i] = bytes "."
    · have hnil : (diff[i] :: diff.drop (i + 1)).takeWhile (· ≠ bytes ".") = [] :=
        List.takeWhile_cons_of_neg (by simp [hdot])
      rw [if_pos hdot, hnil, if_pos (by rw [hdot]; exact List.mem_cons_self)]
      rfl
    · have hmem : bytes "." ∈ diff[i] :: diff.drop (i + 1) ↔ bytes "." ∈ diff.drop (i + 1) := by
        rw [List.mem_cons]
        exact or_iff_right fun heq => hdot heq.symm
      have htake : (diff[i] :: diff.drop (i + 1)).takeWhile (· ≠ bytes ".") =
          diff[i] :: (diff.drop (i + 1)).takeWhile (· ≠ bytes ".") :=
        List.takeWhile_cons_of_pos (decide_eq_true hdot)
      rw [if_neg hdot, htake, List.length_cons]
      simp only [hmem]
      by_cases hend : i + 1 = diff.length
      · have hnil : diff.drop (i + 1) = [] := List.drop_of_length_le hend.ge
        rw [if_pos (by omega), hnil]
        simp
      · have hnext := ih (i + 1) (by omega) (by omega)
        rw [Nat.cast_add, Nat.cast_one] at hnext
        rw [if_neg (by omega), hnext]
        simp only [Nat.add_assoc, Nat.add_comm 1]

theorem addLines_eq (diff : List Line) (e n : ℕ) :
    ∀ cons2 : List Line, e + n < diff.length →
      addLines diff e (e + n : ℕ) cons2 = .ok (cons2 ++ ((diff.drop (e + 1)).take n).reverse) := by
  induction n with
  | zero =>
    intro cons2 _
    rw [addLines, dif_neg (by omega), List.take_zero, List.reverse_nil, List.append_nil]
    rfl
  | succ n ih =>
    intro cons2 hlen
    have hline : diff[e + (n + 1)]? = some diff[e + (n + 1)] := List.getElem?_eq_getElem hlen
    have hindex : ((e + (n + 1) : ℕ) : ℤ) - 1 = (e + n : ℕ) := by omega
    have htake : (diff.drop (e + 1)).take (n + 1) = (diff.drop (e + 1)).take n ++ [diff[e + (n + 1)]] := by
      rw [List.take_add_one, List.getElem?_drop, show e + 1 + n = e + (n + 1) by omega, hline,
        Option.toList_some]
    rw [addLines, dif_pos (by omega), smartlistGet_eq hline, ok_bind, hindex, ih _ (by omega), htake]
    simp

theorem addNewLines_cases {diff : List Line} {i : ℕ} (hi : i < diff.length) (cons2 : List Line) :
    (readAdded (diff.drop (i + 1)) = none ∧ addNewLines diff i cons2 = reject ()) ∨
      ∃ (added : List Line) (dot : ℕ), readAdded (diff.drop (i + 1)) = some (added, diff.drop (dot + 1)) ∧
        addNewLines diff i cons2 = .ok ((dot : ℤ), cons2 ++ added.reverse) ∧ i < dot := by
  by_cases hend : i + 1 = diff.length
  · -- the script ends with the command
    have hnil : diff.drop (i + 1) = [] := List.drop_of_length_le hend.ge
    have hdot : findDot diff (i + 1) = .ok ((i : ℤ) + 1) := by
      rw [findDot, dif_neg (by omega)]
      rfl
    rw [hnil, addNewLines, hdot, ok_bind, if_pos (by omega)]
    exact .inl ⟨rfl, rfl⟩
  have hdot := findDot_eq diff (diff.length - (i + 1)) (i + 1) (by omega) (by omega)
  rw [Nat.cast_add, Nat.cast_one] at hdot
  rw [addNewLines, hdot, readAdded]
  generalize hrest : diff.drop (i + 1) = rest at *
  by_cases hmem : bytes "." ∈ rest
  · rw [if_pos hmem, ok_bind]
    have hsplit : rest.takeWhile (fun line => decide (line ≠ bytes ".")) ++
        rest.dropWhile (fun line => decide (line ≠ bytes ".")) = rest := List.takeWhile_append_dropWhile
    generalize hadded : rest.takeWhile (fun line => decide (line ≠ bytes ".")) = added at *
    cases hdrop : rest.dropWhile (fun line => decide (line ≠ bytes ".")) with
    | nil =>
      have hnone := List.dropWhile_eq_nil_iff.mp hdrop _ hmem
      simp at hnone
    | cons line rest' =>
      rw [hdrop] at hsplit
      by_cases hempty : added = []
      · rw [hempty, if_pos (by simp)]
        exact .inl ⟨rfl, rfl⟩
      · have hpos : 0 < added.length := List.length_pos_iff.mpr hempty
        have hlen : rest.length = added.length + (rest'.length + 1) := by
          rw [← hsplit, List.length_append, List.length_cons]
        have htotal : rest.length = diff.length - (i + 1) := by
          rw [← hrest, List.length_drop]
        have htake : rest.take added.length = added := by
          rw [← hsplit, List.take_left]
        have hindex : ((i + 1 + added.length : ℕ) : ℤ) - 1 = (i + added.length : ℕ) := by omega
        have hlines := addLines_eq diff i added.length cons2 (by omega)
        rw [hrest, htake] at hlines
        have hdrop' : diff.drop (i + 1 + added.length + 1) = rest' := by
          rw [show i + 1 + added.length + 1 = i + 1 + (added.length + 1) by omega, ← List.drop_drop, hrest,
            ← hsplit, List.drop_append]
          simp
        simp only [if_neg hempty]
        refine .inr ⟨added, i + 1 + added.length, by rw [hdrop'], ?_, by omega⟩
        rw [if_neg (by omega), hindex, hlines]
        rfl
  · rw [if_neg hmem, reject_bind]
    have hnone : rest.dropWhile (· ≠ bytes ".") = [] := by
      rw [List.dropWhile_eq_nil_iff]
      intro line hline
      exact decide_eq_true fun heq => hmem (heq ▸ hline)
    rw [hnone]
    exact .inl ⟨rfl, rfl⟩

/-! ### The commands of a script -/

/-- What follows the first number of a command: the address, and the rest. -/
def readAddress (start : ℕ) (ptr : Line) : Option (Ed.Address × Line) :=
  match ptr with
  | 44 :: 36 :: ptr => some (.toEnd start, ptr)
  | 44 :: ptr => (getLinenum ptr).map fun (stop, ptr) => (.lines start stop, ptr)
  | ptr => some (.line start, ptr)

/-- A command, without the checks that depend on where it stands. -/
def readCommandLine (diffLine : Line) : Option (Ed.Address × EdAction) := do
  let (start, ptr) ← getLinenum (diffLine.takeWhile (· ≠ 0))
  let (address, ptr) ← readAddress start ptr
  match ptr with
  | [letter] => (edAction letter).map fun action => (address, action)
  | _ => none

/-- The commands that a script is made of, with their lines. -/
def readScript (diff : List Line) : Option (List (Ed.Command Line)) :=
  match diff with
  | [] => some []
  | line :: diff =>
      match readCommandLine line with
      | none => none
      | some (address, .d) => (readScript diff).map (⟨address, .delete⟩ :: ·)
      | some (address, .a) =>
          match _hadd : readAdded diff with
          | none => none
          | some (added, diff) => (readScript diff).map (⟨address, .append added⟩ :: ·)
      | some (address, .c) =>
          match _hadd : readAdded diff with
          | none => none
          | some (added, diff) => (readScript diff).map (⟨address, .change added⟩ :: ·)
termination_by diff.length
decreasing_by
  · exact Nat.lt_succ_self _
  · exact Nat.lt_succ_of_lt (length_readAdded _hadd)
  · exact Nat.lt_succ_of_lt (length_readAdded _hadd)

theorem readRange_spec {len1 start stop : ℕ} {ptr rest : Line} {hadRange endWasEof : Bool}
    (h : readRange len1 start ptr = some (stop, hadRange, endWasEof, rest)) :
    ∃ address : Ed.Address, readAddress start ptr = some (address, rest) ∧ address.first = start ∧
      address.last len1 = stop ∧ start ≤ stop ∧ (hadRange = false → address = .line start) ∧
      (address.isToEnd = true → endWasEof = true) := by
  unfold readRange at h
  split at h
  · split_ifs at h with hle
    cases h
    exact ⟨.toEnd start, rfl, rfl, rfl, by omega, by simp, by simp⟩
  · next ptr hne =>
    split at h
    · cases h
    · next stop' ptr' hnum =>
      split_ifs at h with hle
      cases h
      refine ⟨.lines start stop, ?_, rfl, rfl, by omega, by simp, by simp [Ed.Address.isToEnd]⟩
      unfold readAddress
      split
      · next ptr'' heq =>
        cases heq
        exact absurd rfl (hne ptr'')
      · next ptr'' _ heq =>
        cases heq
        rw [hnum]
        rfl
      · next hnot => exact absurd rfl (hnot ptr)
  · next hne hne' =>
    cases h
    refine ⟨.line start, ?_, rfl, rfl, le_rfl, fun _ => rfl, by simp [Ed.Address.isToEnd]⟩
    unfold readAddress
    split
    · next ptr'' => exact absurd rfl (hne ptr'')
    · next ptr'' _ => exact absurd rfl (hne' ptr'')
    · rfl

/-- **The checks** of a command: it is in front of what has been changed, an append is at a single line,
and only a deletion goes up to the end. -/
theorem readCommand_spec {len1 : ℕ} {j : ℤ} {diffLine : Line} {command : EdCommand}
    (h : readCommand len1 j diffLine = some command) :
    ∃ address : Ed.Address, readCommandLine diffLine = some (address, command.action) ∧
      address.first = command.start ∧ address.last len1 = command.stop ∧ command.start ≤ command.stop ∧
      (command.stop : ℤ) ≤ j ∧ (command.action = .a → address = .line command.start) ∧
      (address.isToEnd = true → command.action = .d) := by
  unfold readCommand at h
  split_ifs at h
  split at h
  · cases h
  · next start ptr hstart =>
    unfold readCommandFrom at h
    split at h
    · cases h
    · next stop hadRange endWasEof ptr' hrange =>
      split_ifs at h with hsorted
      split at h
      · cases h
      · next action haction =>
        cases h
        unfold readAction at haction
        split at haction
        · next letter =>
          split at haction
          · cases haction
          · next action' hletter =>
            split_ifs at haction with heof happend
            cases haction
            obtain ⟨address, haddress, hfirst, hlast, hle, hline, htoEnd⟩ := readRange_spec hrange
            refine ⟨address, ?_, hfirst, hlast, hle, not_lt.mp hsorted, ?_, ?_⟩
            · rw [readCommandLine, hstart]
              simp only [Option.bind_eq_bind, Option.bind_some, haddress, hletter, Option.map_some]
            · intro ha
              exact hline (eq_false_of_ne_true fun hhad => happend ⟨hhad, ha⟩)
            · intro hend
              by_contra hd
              exact heof ⟨htoEnd hend, hd⟩
        · cases haction

/-! ### The indices -/

theorem addUnchanged_zero {cons1 : List Line} {j : ℤ} (hle : j ≤ cons1.length) (cons2 : List Line) :
    ∃ j' : ℤ, addUnchanged cons1 0 j cons2 = .ok (j', cons2 ++ (cons1.take j.toNat).reverse) := by
  by_cases hpos : 0 ≤ j
  · obtain ⟨n, rfl⟩ := Int.eq_ofNat_of_zero_le hpos
    have hloop := addUnchanged_eq cons1 0 n cons2 (by omega)
    rw [Nat.zero_add, List.drop_zero] at hloop
    exact ⟨0, hloop⟩
  · refine ⟨j, ?_⟩
    rw [addUnchanged, dif_neg (by omega), Int.toNat_of_nonpos (by omega), List.take_zero, List.reverse_nil,
      List.append_nil]
    rfl

theorem addUnchanged_stop {cons1 : List Line} {stop : ℕ} {j : ℤ} (hstop : (stop : ℤ) ≤ j)
    (hle : j ≤ cons1.length) (cons2 : List Line) :
    addUnchanged cons1 stop j cons2 =
      .ok ((stop : ℤ), cons2 ++ ((cons1.take j.toNat).drop stop).reverse) := by
  obtain ⟨n, hn⟩ := Nat.exists_eq_add_of_le (show stop ≤ j.toNat by omega)
  have hj : j = (stop + n : ℕ) := by omega
  have hloop := addUnchanged_eq cons1 stop n cons2 (by omega)
  rw [hj, hloop, Int.toNat_natCast]

/-- How many lines of the base a command leaves in front. -/
def EdCommand.left (command : EdCommand) : ℤ :=
  if command.action = .a then command.stop else command.start - 1

/-- The lines that an action puts in, and the rest of the script. -/
def addedBy (action : EdAction) (diff : List Line) : Option (List Line × List Line) :=
  if action = .d then some ([], diff) else readAdded diff

theorem applyFrom_cons (cons1 diff cons2 : List Line) (line : Line) (j : ℤ) :
    applyFrom cons1 (line :: diff) j cons2 =
      (readCommand cons1.length j line).bind fun command =>
        (addedBy command.action diff).bind fun r =>
          applyFrom cons1 r.2 command.left
            (r.1 ++ ((cons1.take j.toNat).drop command.stop ++ cons2)) := by
  rw [applyFrom]
  cases readCommand cons1.length j line with
  | none => rfl
  | some command =>
    obtain ⟨start, stop, action⟩ := command
    cases action with
    | d => rfl
    | a =>
      simp only [Option.bind_some, addedBy, EdCommand.left]
      split
      · next hnone =>
        rw [hnone]
        rfl
      · next hsome =>
        rw [hsome]
        rfl
    | c =>
      simp only [Option.bind_some, addedBy, EdCommand.left]
      split
      · next hnone =>
        rw [hnone]
        rfl
      · next hsome =>
        rw [hsome]
        rfl

/-- The part of the loop that puts lines in. -/
def loopAdds (action : EdAction) (diff : List Line) (i : ℤ) (cons2 : List Line) :
    Checked Unit ℤ (ℤ × List Line) :=
  if action = .d then pure (i, cons2) else addNewLines diff i cons2

theorem loopAdds_cases {diff : List Line} {i : ℕ} (hi : i < diff.length) (action : EdAction)
    (cons2 : List Line) :
    (addedBy action (diff.drop (i + 1)) = none ∧ loopAdds action diff i cons2 = reject ()) ∨
      ∃ (added : List Line) (dot : ℕ), addedBy action (diff.drop (i + 1)) = some (added, diff.drop (dot + 1)) ∧
        loopAdds action diff i cons2 = .ok ((dot : ℤ), cons2 ++ added.reverse) ∧ i ≤ dot := by
  by_cases hd : action = .d
  · refine .inr ⟨[], i, if_pos hd, ?_, le_rfl⟩
    rw [loopAdds, if_pos hd, List.reverse_nil, List.append_nil]
    rfl
  · rw [loopAdds, if_neg hd, addedBy, if_neg hd]
    rcases addNewLines_cases hi cons2 with hnone | ⟨added, dot, hadded, hloop, hlt⟩
    · exact .inl hnone
    · exact .inr ⟨added, dot, hadded, hloop, hlt.le⟩

theorem applyLoop_cons {cons1 diff cons2 : List Line} {i : ℕ} {j : ℤ} {line : Line}
    (hline : diff[i]? = some line) :
    applyLoop cons1 diff i j cons2 =
      (readCommand cons1.length j line).elim (reject ()) fun command =>
        addUnchanged cons1 command.stop j cons2 >>= fun p =>
          loopAdds command.action diff i p.2 >>= fun r =>
            applyLoop cons1 diff (r.1 + 1) (if command.action = .a then p.1 else skipRemoved command.start p.1)
              r.2 := by
  have hlt : i < diff.length := by
    by_contra hge
    rw [List.getElem?_eq_none (not_lt.mp hge)] at hline
    cases hline
  rw [applyLoop, dif_pos (by omega), smartlistGet_eq hline]
  dsimp only
  cases readCommand cons1.length j line with
  | none => rfl
  | some command =>
    obtain ⟨start, stop, action⟩ := command
    dsimp only [Option.elim_some]
    cases addUnchanged cons1 stop j cons2 with
    | error e => rfl
    | ok p =>
      cases action with
      | d => rfl
      | a =>
        rw [ok_bind, loopAdds, if_neg (by decide)]
        dsimp only
        split
        · next he =>
          rw [he]
          rfl
        · next he =>
          rw [he]
          rfl
      | c =>
        rw [ok_bind, loopAdds, if_neg (by decide)]
        dsimp only
        split
        · next he =>
          rw [he]
          rfl
        · next he =>
          rw [he]
          rfl

/-- **The indices are right**: no line outside of the lists is read, and what comes out is what `applyFrom`
says. -/
theorem applyLoop_eq {cons1 diff : List Line} (n : ℕ) :
    ∀ (i : ℕ) (j : ℤ) (cons2 : List Line), diff.length - i ≤ n → j ≤ cons1.length →
      applyLoop cons1 diff i j cons2 =
        (applyFrom cons1 (diff.drop i) j cons2.reverse).elim (reject ()) Except.ok := by
  have hend : ∀ (i : ℕ) (j : ℤ) (cons2 : List Line), diff.length ≤ i → j ≤ cons1.length →
      applyLoop cons1 diff i j cons2 =
        (applyFrom cons1 (diff.drop i) j cons2.reverse).elim (reject ()) Except.ok := by
    intro i j cons2 hi hle
    obtain ⟨j', hloop⟩ := addUnchanged_zero hle cons2
    rw [List.drop_of_length_le hi, applyFrom, applyLoop, dif_neg (by omega), hloop, ok_bind]
    show Except.ok _ = Except.ok _
    rw [List.reverse_append, List.reverse_reverse]
  induction n with
  | zero =>
    intro i j cons2 hlen hle
    exact hend i j cons2 (by omega) hle
  | succ n ih =>
    intro i j cons2 hlen hle
    rcases Nat.lt_or_ge i diff.length with hi | hi
    · have hline : diff[i]? = some diff[i] := List.getElem?_eq_getElem hi
      rw [applyLoop_cons hline, List.drop_eq_getElem_cons hi, applyFrom_cons]
      cases hcommand : readCommand cons1.length j diff[i] with
      | none => rfl
      | some command =>
        obtain ⟨_, _, _, _, hfirst, hstop, _, _⟩ := readCommand_spec hcommand
        have hgap := addUnchanged_stop hstop hle cons2
        have hleft : (if command.action = .a then (command.stop : ℤ)
            else skipRemoved command.start command.stop) = command.left := by
          rw [skipRemoved_eq (by omega), EdCommand.left]
        have hadds := loopAdds_cases hi command.action
          (cons2 ++ ((cons1.take j.toNat).drop command.stop).reverse)
        rw [Option.elim_some, hgap, ok_bind, Option.bind_some]
        dsimp only
        rcases hadds with ⟨hnone, hloop⟩ | ⟨added, dot, hadded, hloop, hdot⟩
        · rw [hnone, hloop]
          rfl
        · have hle' : command.left ≤ cons1.length := by
            rw [EdCommand.left]
            split_ifs <;> omega
          have hnext := ih (dot + 1) command.left
            (cons2 ++ ((cons1.take j.toNat).drop command.stop).reverse ++ added.reverse) (by omega) hle'
          rw [Nat.cast_add, Nat.cast_one] at hnext
          rw [hadded, hloop, ok_bind, hleft, hnext]
          simp
    · exact hend i j cons2 hi hle

/-! ### The commands -/

/-- What an action does with its lines. -/
def editorAction (added : List Line) : EdAction → Ed.Action Line
  | .a => .append added
  | .c => .change added
  | .d => .delete

theorem readScript_cons (line : Line) (diff : List Line) :
    readScript (line :: diff) =
      (readCommandLine line).bind fun r =>
        (addedBy r.2 diff).bind fun q =>
          (readScript q.2).map (⟨r.1, editorAction q.1 r.2⟩ :: ·) := by
  rw [readScript]
  cases readCommandLine line with
  | none => rfl
  | some r =>
    obtain ⟨address, action⟩ := r
    cases action with
    | d => rfl
    | a =>
      simp only [Option.bind_some, addedBy, editorAction]
      split
      · next hnone =>
        rw [hnone]
        rfl
      · next hsome =>
        rw [hsome]
        rfl
    | c =>
      simp only [Option.bind_some, addedBy, editorAction]
      split
      · next hnone =>
        rw [hnone]
        rfl
      · next hsome =>
        rw [hsome]
        rfl

theorem length_addedBy {action : EdAction} {diff added rest : List Line}
    (h : addedBy action diff = some (added, rest)) : rest.length ≤ diff.length := by
  unfold addedBy at h
  split_ifs at h
  · cases h
    exact le_rfl
  · exact (length_readAdded h).le

theorem addedBy_ne_nil {action : EdAction} {diff added rest : List Line}
    (h : addedBy action diff = some (added, rest)) (hd : action ≠ .d) : added ≠ [] := by
  rw [addedBy, if_neg hd] at h
  unfold readAdded at h
  split at h
  · cases h
  · dsimp only at h
    split_ifs at h with hempty
    cases h
    exact hempty

structure Accepted (len1 : ℕ) (j : ℤ) (script : List (Ed.Command Line)) : Prop where
  upwards : Ed.Upwards len1 j script
  wellFormed : Ed.WellFormed script
  line : ∀ c ∈ script, c.action.isAppend = true → c.address.first = c.address.last len1

/-- **An accepted script** works upwards, and what comes out is one pass over the base. -/
theorem applyFrom_eq_onePass {cons1 : List Line} (n : ℕ) :
    ∀ {diff : List Line} {j : ℤ} {acc out : List Line}, diff.length ≤ n → j ≤ cons1.length →
      applyFrom cons1 diff j acc = some out →
      ∃ script, readScript diff = some script ∧ Accepted cons1.length j script ∧
        out = Ed.onePass script (cons1.take j.toNat) acc := by
  have hnil : ∀ {j : ℤ} {acc out : List Line}, applyFrom cons1 [] j acc = some out →
      ∃ script, readScript [] = some script ∧ Accepted cons1.length j script ∧
        out = Ed.onePass script (cons1.take j.toNat) acc := by
    intro j acc out h
    rw [applyFrom] at h
    cases h
    exact ⟨[], by rw [readScript], ⟨trivial, ⟨by simp, by simp⟩, by simp⟩, rfl⟩
  induction n with
  | zero =>
    intro diff j acc out hlen _ h
    rw [List.length_eq_zero_iff.mp (Nat.le_zero.mp hlen)] at h ⊢
    exact hnil h
  | succ n ih =>
    intro diff j acc out hlen hle h
    cases diff with
    | nil => exact hnil h
    | cons line diff =>
      rw [applyFrom_cons] at h
      obtain ⟨command, hcommand, h⟩ := Option.bind_eq_some_iff.mp h
      obtain ⟨⟨added, rest⟩, hadded, h⟩ := Option.bind_eq_some_iff.mp h
      obtain ⟨address, hread, hfirst, hlast, hrange, hstop, hline, hend⟩ := readCommand_spec hcommand
      have hleft : command.left ≤ cons1.length := by
        rw [EdCommand.left]
        split_ifs <;> omega
      have hshort := length_addedBy hadded
      rw [List.length_cons] at hlen
      obtain ⟨script, hscript, haccepted, hout⟩ :=
        ih (hshort.trans (Nat.le_of_succ_le_succ hlen)) hleft h
      have happend : (editorAction added command.action).isAppend = true ↔ command.action = .a := by
        cases command.action <;> simp [editorAction, Ed.Action.isAppend]
      have htext : (editorAction added command.action).text = added := by
        cases haction : command.action with
        | a => rfl
        | c => rfl
        | d =>
          rw [haction] at hadded
          cases hadded
          rfl
      refine ⟨⟨address, editorAction added command.action⟩ :: script, ?_, ⟨⟨⟨?_, ?_⟩, ?_⟩, ⟨?_, ?_⟩, ?_⟩, ?_⟩
      · rw [readScript_cons, hread, Option.bind_some, hadded, Option.bind_some, hscript]
        rfl
      · show address.first ≤ address.last cons1.length
        rw [hfirst, hlast]
        exact hrange
      · show (address.last cons1.length : ℤ) ≤ j
        rw [hlast]
        exact hstop
      · have hbound : (if (editorAction added command.action).isAppend then
            (address.last cons1.length : ℤ) else address.first - 1) = command.left := by
          simp only [happend, hfirst, hlast, EdCommand.left]
        show Ed.Upwards cons1.length (if (editorAction added command.action).isAppend then
            (address.last cons1.length : ℤ) else address.first - 1) script
        rw [hbound]
        exact haccepted.upwards
      · refine List.forall_mem_cons.mpr ⟨fun ha => ?_, haccepted.wellFormed.appended⟩
        rw [htext]
        exact addedBy_ne_nil hadded (by rw [happend.mp ha]; decide)
      · refine List.forall_mem_cons.mpr ⟨fun he => ?_, haccepted.wellFormed.deletes⟩
        show editorAction added command.action = .delete
        rw [hend he]
        rfl
      · refine List.forall_mem_cons.mpr ⟨fun ha => ?_, haccepted.line⟩
        show address.first = address.last cons1.length
        rw [hline (happend.mp ha)]
        rfl
      · have hlen' : (cons1.take j.toNat).length = j.toNat := List.length_take_of_le (by omega)
        have hlasteq : address.last (cons1.take j.toNat).length = command.stop := by
          rw [← hlast]
          refine Ed.Command.last_eq (c := ⟨address, editorAction added command.action⟩) fun he => ?_
          have hlenlast : address.last cons1.length = cons1.length := by
            cases address with
            | line k => cases he
            | lines k m => cases he
            | toEnd k => rfl
          omega
        have hkeeps : Ed.Command.keeps ⟨address, editorAction added command.action⟩
            (cons1.take j.toNat).length = command.left.toNat := by
          rw [Ed.Command.keeps, EdCommand.left]
          simp only [happend, hlasteq, hfirst]
          split_ifs <;> omega
        have hmin : min command.left.toNat j.toNat = command.left.toNat := by
          rw [EdCommand.left]
          split_ifs <;> omega
        rw [Ed.onePass, hkeeps, List.take_take, hmin, Ed.Command.behind, hlasteq]
        show out = Ed.onePass script (cons1.take command.left.toNat)
          ((editorAction added command.action).text ++ _)
        rw [htext]
        exact hout

/-- Which accepted scripts lead to what an editor makes of the base. -/
theorem execute_iff_regular {cons1 diff out : List Line} {i : ℕ} (h : applyEdDiff cons1 diff i = some out) :
    ∃ script, readScript (diff.drop i) = some script ∧ Accepted cons1.length cons1.length script ∧
      (Ed.execute script cons1 = some out ↔ Ed.Regular script) := by
  obtain ⟨script, hscript, haccepted, hout⟩ := applyFrom_eq_onePass _ le_rfl le_rfl h
  refine ⟨script, hscript, haccepted, ?_⟩
  rw [hout, Int.toNat_natCast, List.take_length]
  exact Ed.execute_eq_onePass_iff haccepted.upwards haccepted.wellFormed

/-- **`apply_ed_diff` is an editor**: no line outside of the lists is read.  The commands of a script that
it accepts stand in the base from its end on, each in front of the one before it, only behind an append
maybe at the same line; and if no deletion or change starts in front of the first line and only the first
command goes up to the end, what comes out is what an editor makes of the base. -/
theorem applyEdDiff_script (cons1 diff : List Line) (i : ℕ) :
    applyEdDiffLines cons1 diff i = (applyEdDiff cons1 diff i).elim (reject ()) Except.ok ∧
      ∀ out, applyEdDiff cons1 diff i = some out →
        ∃ script, readScript (diff.drop i) = some script ∧
          (∀ c ∈ script, c.address.first ≤ c.address.last cons1.length ∧
            c.address.last cons1.length ≤ cons1.length) ∧
          (script.Pairwise fun c c' => c'.address.last cons1.length < c.address.first ∨
            c.action.isAppend = true ∧ c'.address.last cons1.length = c.address.first) ∧
          (Ed.Regular script → Ed.execute script cons1 = some out) := by
  refine ⟨?_, ?_⟩
  · exact applyLoop_eq _ i cons1.length [] le_rfl le_rfl
  · intro out h
    obtain ⟨script, hscript, haccepted, hiff⟩ := execute_iff_regular h
    obtain ⟨hranges, hpairs⟩ := Ed.pairwise_of_upwards haccepted.upwards haccepted.line
    refine ⟨script, hscript, ?_, hpairs, hiff.mpr⟩
    intro c hc
    obtain ⟨hle, hlast⟩ := hranges c hc
    exact ⟨hle, Int.ofNat_le.mp hlast⟩

/-- Three scripts that are accepted: one goes up to the end behind an append, one deletes the line in front
of the first one, and one has two appends at the same line.  The first two are no scripts of an editor that
lead to what comes out, the third does not descend. -/
theorem not_script_irregular :
    (∀ diff ∈ [[bytes "2a", bytes "z", bytes ".", bytes "1,$d"], [bytes "0d"]],
      ∃ out script, applyEdDiff [bytes "x", bytes "y"] diff 0 = some out ∧ readScript diff = some script ∧
        Ed.execute script [bytes "x", bytes "y"] ≠ some out) ∧
      ∃ out script, applyEdDiff [bytes "x", bytes "y"]
          [bytes "1a", bytes "z", bytes ".", bytes "1a", bytes "w", bytes "."] 0 = some out ∧
        readScript [bytes "1a", bytes "z", bytes ".", bytes "1a", bytes "w", bytes "."] = some script ∧
        ¬script.Pairwise fun c c' => c'.address.last 2 < c.address.first := by
  refine ⟨?_, ?_⟩
  · intro diff hdiff
    rcases List.mem_cons.mp hdiff with rfl | hdiff
    · refine ⟨[bytes "z"], [⟨.line 2, .append [bytes "z"]⟩, ⟨.toEnd 1, .delete⟩], ?_, ?_, ?_⟩
      · decide +kernel
      · decide +kernel
      · decide +kernel
    · obtain rfl := List.mem_singleton.mp hdiff
      refine ⟨[bytes "x", bytes "y"], [⟨.line 0, .delete⟩], ?_, ?_, ?_⟩
      · decide +kernel
      · decide +kernel
      · decide +kernel
  · refine ⟨[bytes "x", bytes "w", bytes "z", bytes "y"],
      [⟨.line 1, .append [bytes "z"]⟩, ⟨.line 1, .append [bytes "w"]⟩], ?_, ?_, ?_⟩
    · decide +kernel
    · decide +kernel
    · decide +kernel

end TorEbpf.Dircommon
