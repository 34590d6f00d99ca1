import Mathlib
import TorEbpf.Dircommon.CalcChanges
import TorEbpf.Lib.Decimal

/-!
# Consensus diffs as ed scripts

`gen_ed_diff` and `apply_ed_diff` of `consdiff.c`, over lists of lines.

* `genEdDiff` marks the changes section by section, a section ending at a router that both lists have
  (`markChanges_aligned`), and writes a script from the marks, the last command first;
* `applyEdDiff` reads a script back (`applyFrom_navigate`);
* `consdiffGenDiff` tries its own script before it hands it out;
* `reconstructs_iff` — the script leads from one list to the other, unless the signatures of the base
  are a single line, the last one.
-/

namespace TorEbpf.Dircommon

open TorEbpf.Lib

/-- `INT32_MAX`, which bounds a line number of a script and the length of a list. -/
def int32Max : ℕ := 2147483647

def bytes (s : String) : Line := s.toList.map fun c => c.toNat.toUInt8

def lineStartsWithStr (a b : Line) : Bool := b.isPrefixOf a

/-! ### Router entries -/

/-- `base64_compare_table`; nothing is `NOT_VALID_BASE64`. -/
def base64CompareTable (c : UInt8) : Option ℕ :=
  if c = 43 then some 62
  else if c = 47 then some 63
  else if 48 ≤ c ∧ c ≤ 57 then some (c.toNat - 48 + 52)
  else if 65 ≤ c ∧ c ≤ 90 then some (c.toNat - 65)
  else if 97 ≤ c ∧ c ≤ 122 then some (c.toNat - 97 + 26)
  else none

/-- `get_id_hash`: what follows the first blank behind the two first bytes, up to the first byte that
is not base64; there has to be some. -/
def getIdHash (line : Line) : Option Line :=
  if line.length < 2 then none
  else
    match (line.drop 2).dropWhile (· ≠ 32) with
    | [] => none
    | _ :: hash =>
      let id := hash.takeWhile fun c => (base64CompareTable c).isSome
      if id = [] then none else some id

/-- `is_valid_router_entry`: a line that starts with "r " and has an identity. -/
def isValidRouterEntry (line : Line) : Bool :=
  lineStartsWithStr line [114, 32] && (getIdHash line).isSome

/-- `next_router`: the next router entry behind `cur`, or the length of the list. -/
def nextRouter (cons : List Line) (cur : ℤ) : ℤ :=
  let next := (cur + 1).toNat
  (next + (cons.drop next).findIdx isValidRouterEntry : ℕ)

def base64cmpFrom : Line → Line → ℤ
  | a :: as, b :: bs =>
    match base64CompareTable a, base64CompareTable b with
    | none, none => 0
    | none, some _ => -1
    | some _, none => 1
    | some av, some bv =>
      if av < bv then -1
      else if av > bv then 1
      else
        match as, bs with
        | [], [] => 0
        | [], _ :: _ => -1
        | _ :: _, [] => 1
        | _ :: _, _ :: _ => base64cmpFrom as bs
  -- an identity is not empty
  | _, _ => 0

/-- `base64cmp`; no identity is the lowest. -/
def base64cmp : Option Line → Option Line → ℤ
  | none, none => 0
  | none, some _ => -1
  | some _, none => 1
  | some hash1, some hash2 => base64cmpFrom hash1 hash2

/-- The identities of the last two router entries (`router_id_iterator_t`). -/
structure RouterIdIterator where
  lastHash : Option Line
  hash : Option Line
deriving DecidableEq

/-- `find_next_router_line`: the next entry has to have a higher identity than the last one. -/
def findNextRouterLine (cons : List Line) (idx : ℤ) (iter : RouterIdIterator) :
    Option (ℤ × RouterIdIterator) :=
  let next := nextRouter cons idx
  match cons[next.toNat]? with
  | none => some (next, iter)
  | some line =>
    match getIdHash line with
    | none => none
    | some hash =>
      if base64cmp (some hash) iter.hash ≤ 0 then none
      else some (next, ⟨iter.hash, some hash⟩)

theorem nextRouter_bounds {cons : List Line} {cur : ℤ} (hlt : cur < cons.length) :
    cur < nextRouter cons cur ∧ nextRouter cons cur ≤ cons.length := by
  have hidx : (cons.drop (cur + 1).toNat).findIdx isValidRouterEntry ≤
      (cons.drop (cur + 1).toNat).length := List.findIdx_le_length
  rw [List.length_drop] at hidx
  simp only [nextRouter]
  omega

theorem findNextRouterLine_bounds {cons : List Line} {idx idx' : ℤ} {iter iter' : RouterIdIterator}
    (hlt : idx < cons.length) (h : findNextRouterLine cons idx iter = some (idx', iter')) :
    idx < idx' ∧ idx' ≤ cons.length := by
  have hnext : idx' = nextRouter cons idx := by
    unfold findNextRouterLine at h
    grind
  rw [hnext]
  exact nextRouter_bounds hlt

/-! ### Sections -/

/-- Where the generator stands in both lists. -/
structure Position where
  i1 : ℤ
  iter1 : RouterIdIterator
  i2 : ℤ
  iter2 : RouterIdIterator
deriving DecidableEq

/-- Before the first line of both lists. -/
def Position.start : Position := ⟨-1, ⟨none, none⟩, -1, ⟨none, none⟩⟩

/-- The inner loop of `gen_ed_diff`: the lower of the two positions moves on until the identities are
the same. -/
def matchRouters (cons1 cons2 : List Line) (p : Position) : Option Position :=
  let cmp := base64cmp p.iter1.hash p.iter2.hash
  if cmp = 0 then some p
  else if _hlt : p.i1 < cons1.length ∧ cmp < 0 then
    match _h : findNextRouterLine cons1 p.i1 p.iter1 with
    | none => none
    | some (i1, iter1) =>
      if i1 = cons1.length then some ⟨i1, iter1, cons2.length, p.iter2⟩
      else matchRouters cons1 cons2 ⟨i1, iter1, p.i2, p.iter2⟩
  else if _hlt : p.i2 < cons2.length ∧ cmp > 0 then
    match _h : findNextRouterLine cons2 p.i2 p.iter2 with
    | none => none
    | some (i2, iter2) =>
      if i2 = cons2.length then some ⟨cons1.length, p.iter1, i2, iter2⟩
      else matchRouters cons1 cons2 ⟨p.i1, p.iter1, i2, iter2⟩
  else some ⟨cons1.length, p.iter1, cons2.length, p.iter2⟩
termination_by (cons1.length - p.i1).toNat + (cons2.length - p.i2).toNat
decreasing_by
  all_goals
    have hbounds := findNextRouterLine_bounds _hlt.1 _h
    omega

/-- One of the two positions moves on by a router entry, if it is not at the end. -/
def nextIfAny (cons : List Line) (idx : ℤ) (iter : RouterIdIterator) :
    Option (ℤ × RouterIdIterator) :=
  if idx < cons.length then findNextRouterLine cons idx iter else some (idx, iter)

/-- An iteration of the outer loop of `gen_ed_diff`, up to where the slices are made. -/
def nextSection (cons1 cons2 : List Line) (p : Position) : Option Position := do
  let (i1, iter1) ← nextIfAny cons1 p.i1 p.iter1
  let (i2, iter2) ← nextIfAny cons2 p.i2 p.iter2
  if i1 < cons1.length ∨ i2 < cons2.length then
    matchRouters cons1 cons2 ⟨i1, iter1, i2, iter2⟩
  else
    some ⟨i1, iter1, i2, iter2⟩

/-- Where a position can get to in a list. -/
def Reaches (len : ℕ) (i i' : ℤ) : Prop := i' = i ∨ i' = len ∨ (i < i' ∧ i' ≤ len)

theorem matchRouters_reaches {cons1 cons2 : List Line} {p q : Position}
    (h : matchRouters cons1 cons2 p = some q) :
    Reaches cons1.length p.i1 q.i1 ∧ Reaches cons2.length p.i2 q.i2 := by
  unfold Reaches
  induction p using matchRouters.induct cons1 cons2 with
  | case4 p cmp hcmp hlt i1 iter1 hfind hend ih =>
    have hbounds := findNextRouterLine_bounds hlt.1 hfind
    rw [matchRouters] at h
    grind
  | case7 p cmp hcmp hlt hlt' i2 iter2 hfind hend ih =>
    have hbounds := findNextRouterLine_bounds hlt'.1 hfind
    rw [matchRouters] at h
    grind
  | _ =>
    rw [matchRouters] at h
    grind

theorem nextIfAny_reaches {cons : List Line} {idx idx' : ℤ} {iter iter' : RouterIdIterator}
    (h : nextIfAny cons idx iter = some (idx', iter')) :
    Reaches cons.length idx idx' ∧ (idx < cons.length → idx < idx') := by
  unfold nextIfAny at h
  split at h
  · next hlt =>
    have hbounds := findNextRouterLine_bounds hlt h
    exact ⟨Or.inr (Or.inr hbounds), fun _ => hbounds.1⟩
  · next hlt =>
    cases h
    exact ⟨Or.inl rfl, fun h => absurd h hlt⟩

/-- A section takes something of each list that is not at its end, and nothing beyond it. -/
theorem nextSection_reaches {cons1 cons2 : List Line} {p q : Position}
    (h : nextSection cons1 cons2 p = some q) :
    (Reaches cons1.length p.i1 q.i1 ∧ (p.i1 < cons1.length → p.i1 < q.i1)) ∧
      (Reaches cons2.length p.i2 q.i2 ∧ (p.i2 < cons2.length → p.i2 < q.i2)) := by
  simp only [nextSection, Option.bind_eq_bind, Option.bind_eq_some_iff, Prod.exists] at h
  obtain ⟨i1, iter1, h1, i2, iter2, h2, h⟩ := h
  have hr1 := nextIfAny_reaches h1
  have hr2 := nextIfAny_reaches h2
  split at h
  · have hm := matchRouters_reaches h
    unfold Reaches at *
    grind
  · cases h
    exact ⟨hr1, hr2⟩

def maxLineCount : ℕ := 10000

/-- The outer loop of `gen_ed_diff`: the changes of one section after the other. -/
def markChanges (cons1 cons2 : List Line) (p : Position) (start1 start2 : ℕ)
    (changed1 changed2 : Bits) : Option (Bits × Bits) :=
  if _hlt : p.i1 < cons1.length ∨ p.i2 < cons2.length then
    match _h : nextSection cons1 cons2 p with
    | none => none
    | some q =>
      if q.i1 - start1 > maxLineCount ∨ q.i2 - start2 > maxLineCount then none
      else
        let changed := calcChanges (smartlistSlice cons1 start1 q.i1.toNat)
          (smartlistSlice cons2 start2 q.i2.toNat) changed1 changed2
        markChanges cons1 cons2 q q.i1.toNat q.i2.toNat changed.1 changed.2
  else some (changed1, changed2)
termination_by (cons1.length - p.i1).toNat + (cons2.length - p.i2).toNat
decreasing_by
  have hreaches := nextSection_reaches _h
  unfold Reaches at hreaches
  omega

/-! ### The script -/

def startOfSignaturesSection : Line := bytes "directory-signature "

/-- Where the signatures of a consensus start. -/
def dirsigIdx (cons : List Line) : Option ℕ :=
  cons.findIdx? fun line => lineStartsWithStr line startOfSignaturesSection

/-- `preprocess_consensus`: the lines in front of the signatures, and the command that deletes these. -/
def preprocessConsensus (cons : List Line) : List Line × Option Line :=
  match dirsigIdx cons with
  | some idx => (cons.take idx, some (decimal (idx + 1) ++ bytes ",$d"))
  | none => (cons, none)

/-- The start of the changed lines that end in front of `n`. -/
def changedFrom (changed : Bits) : ℕ → ℕ
  | 0 => 0
  | n + 1 => if changed n then changedFrom changed n else n + 1

/-- The line in front of `n` is there and changed. -/
def changedBelow (changed : Bits) : ℕ → Bool
  | 0 => false
  | n + 1 => changed n

theorem changedFrom_le (changed : Bits) (n : ℕ) : changedFrom changed n ≤ n := by
  induction n with
  | zero => exact le_rfl
  | succ n ih =>
    rw [changedFrom]
    split <;> omega

theorem changedFrom_lt {changed : Bits} {n : ℕ} (h : changedBelow changed n = true) :
    changedFrom changed n < n := by
  cases n with
  | zero => cases h
  | succ n =>
    have hle := changedFrom_le changed n
    have hn : changed n = true := h
    rw [changedFrom, if_pos hn]
    omega

/-- Where a line is changed, there is something to be done. -/
theorem changedFrom_lt_or_lt {changed1 changed2 : Bits} {n1 n2 : ℕ}
    (h : ¬ (¬ changedBelow changed1 n1 ∧ ¬ changedBelow changed2 n2)) :
    changedFrom changed1 n1 < n1 ∨ changedFrom changed2 n2 < n2 := by
  cases hch : changedBelow changed1 n1 with
  | true => exact Or.inl (changedFrom_lt hch)
  | false => exact Or.inr (changedFrom_lt (by simpa [hch] using h))

/-- The command for the lines of the base from `start1x` to `end1` and those of the target from
`start2x` to `end2` (which are not part of them). -/
def edLines (cons2 : List Line) (start1x end1 start2x end2 : ℕ) : Option (List Line) :=
  let added := end2 - start2x
  let deleted := end1 - start1x
  if added = 0 then
    if deleted = 1 then some [decimal (start1x + 1) ++ bytes "d"]
    else some [decimal (start1x + 1) ++ bytes "," ++ decimal (start1x + deleted) ++ bytes "d"]
  else
    let command :=
      if deleted = 0 then decimal start1x ++ bytes "a"
      else if deleted = 1 then decimal (start1x + 1) ++ bytes "c"
      else decimal (start1x + 1) ++ bytes "," ++ decimal (start1x + deleted) ++ bytes "c"
    let lines := (cons2.take end2).drop start2x
    if lines.any fun line => line = bytes "." then none
    else some (command :: lines ++ [bytes "."])

/-- The last loop of `gen_ed_diff`, when `n1` and `n2` lines are left (`i1 + 1` and `i2 + 1`). -/
def navigate (cons2 : List Line) (changed1 changed2 : Bits) (n1 n2 : ℕ) : Option (List Line) :=
  if n1 = 0 ∧ n2 = 0 then some []
  else if _h : ¬ changedBelow changed1 n1 ∧ ¬ changedBelow changed2 n2 then
    navigate cons2 changed1 changed2 (n1 - 1) (n2 - 1)
  else do
    let lines ← edLines cons2 (changedFrom changed1 n1) n1 (changedFrom changed2 n2) n2
    let result ← navigate cons2 changed1 changed2 (changedFrom changed1 n1) (changedFrom changed2 n2)
    return lines ++ result
termination_by n1 + n2
decreasing_by
  · omega
  · have hle1 := changedFrom_le changed1 n1
    have hle2 := changedFrom_le changed2 n2
    have hlt := changedFrom_lt_or_lt _h
    omega

def genEdDiff (cons1Orig cons2 : List Line) : Option (List Line) := do
  let cons1 := (preprocessConsensus cons1Orig).1
  let removeTrailer := (preprocessConsensus cons1Orig).2
  let changed ← markChanges cons1 cons2 .start 0 0 (fun _ => false) (fun _ => false)
  let result ← navigate cons2 changed.1 changed.2 cons1.length cons2.length
  return removeTrailer.toList ++ result

/-! ### Applying a script -/

def getLinenum (s : Line) : Option (ℕ × Line) :=
  match readDecimal s with
  | none => none
  | some (num, next) => if num ≤ int32Max then some (num, next) else none

inductive EdAction
  | a
  | c
  | d
deriving DecidableEq

def edAction (letter : UInt8) : Option EdAction :=
  if letter = 97 then some .a
  else if letter = 99 then some .c
  else if letter = 100 then some .d
  else none

structure EdCommand where
  start : ℕ
  stop : ℕ
  action : EdAction
deriving DecidableEq

/-- The range at the start of a command, behind its first number: its end, whether there was one and
whether it was `$`, and what follows.  A single number is a range of one line. -/
def readRange (len1 start : ℕ) (ptr : Line) : Option (ℕ × Bool × Bool × Line) :=
  match ptr with
  | 44 :: 36 :: ptr => if len1 ≤ start then none else some (len1, true, true, ptr)
  | 44 :: ptr =>
    match getLinenum ptr with
    | none => none
    | some (stop, ptr) => if stop ≤ start then none else some (stop, true, false, ptr)
  | ptr => some (start, false, false, ptr)

/-- The single letter at the end of a command. -/
def readAction (hadRange endWasEof : Bool) (ptr : Line) : Option EdAction :=
  match ptr with
  | [letter] =>
    match edAction letter with
    | none => none
    | some action =>
      if endWasEof ∧ action ≠ .d then none
      else if hadRange ∧ action = .a then none
      else some action
  | _ => none

/-- A command behind its first number, when the lines of the base in front of `j` are left. -/
def readCommandFrom (len1 : ℕ) (j : ℤ) (start : ℕ) (ptr : Line) : Option EdCommand :=
  match readRange len1 start ptr with
  | none => none
  | some (stop, hadRange, endWasEof, ptr) =>
    if stop > j then none
    else
      match readAction hadRange endWasEof ptr with
      | none => none
      | some action => some ⟨start, stop, action⟩

/-- The part of an iteration of `apply_ed_diff` that reads a command. -/
def readCommand (len1 : ℕ) (j : ℤ) (diffLine : Line) : Option EdCommand :=
  if diffLine.length > 127 then none
  else
    -- the copy of the line ends at its first zero byte
    match getLinenum (diffLine.takeWhile (· ≠ 0)) with
    | none => none
    | some (start, ptr) => readCommandFrom len1 j start ptr

/-- The lines to be inserted and the rest of the script behind the "." that ends them. -/
def readAdded (diff : List Line) : Option (List Line × List Line) :=
  match diff.dropWhile (· ≠ bytes ".") with
  | [] => none
  | _ :: rest =>
    let added := diff.takeWhile (· ≠ bytes ".")
    if added = [] then none else some (added, rest)

theorem length_readAdded {diff added rest : List Line} (h : readAdded diff = some (added, rest)) :
    rest.length < diff.length := by
  have hsuffix := (List.dropWhile_suffix (fun line => decide (line ≠ bytes "."))
    (l := diff)).length_le
  unfold readAdded at h
  grind

/-- The loop of `apply_ed_diff` over the commands: `j` lines of the base are left, and `cons2` is what
stands behind them. -/
def applyFrom (cons1 : List Line) (diff : List Line) (j : ℤ) (cons2 : List Line) :
    Option (List Line) :=
  match diff with
  | [] => some (cons1.take j.toNat ++ cons2)
  | line :: diff =>
    match readCommand cons1.length j line with
    | none => none
    | some command =>
      let cons2 := (cons1.take j.toNat).drop command.stop ++ cons2
      match command.action with
      | .d => applyFrom cons1 diff (command.start - 1) cons2
      | .a =>
        match _h : readAdded diff with
        | none => none
        | some (added, diff) => applyFrom cons1 diff command.stop (added ++ cons2)
      | .c =>
        match _h : readAdded diff with
        | none => none
        | some (added, diff) => applyFrom cons1 diff (command.start - 1) (added ++ cons2)
termination_by diff.length
decreasing_by
  · simp
  · have := length_readAdded _h
    simp only [List.length_cons]
    omega
  · have := length_readAdded _h
    simp only [List.length_cons]
    omega

def applyEdDiff (cons1 diff : List Line) (diffStartingLine : ℕ) : Option (List Line) :=
  applyFrom cons1 (diff.drop diffStartingLine) cons1.length []

/-! ### The marks of a whole run -/

/-- The lines in front of `n1` and `n2` are aligned, and none behind them is marked yet. -/
structure AlignedUpTo (cons1 cons2 : List Line) (n1 n2 : ℕ) (changed1 changed2 : Bits) : Prop where
  clear1 : ∀ k, n1 ≤ k → changed1 k = false
  clear2 : ∀ k, n2 ≤ k → changed2 k = false
  same : kept changed1 0 (cons1.take n1) = kept changed2 0 (cons2.take n2)

/-- The part of a list that a slice adds to what is in front of it. -/
theorem kept_take_slice {cons : List Line} {before after : Bits} {n m : ℕ} (hn : n ≤ m)
    (hm : m ≤ cons.length) (hframe : (smartlistSlice cons n m).Frame before after) :
    kept after 0 (cons.take m) =
      kept before 0 (cons.take n) ++ kept after n (smartlistSlice cons n m).lines := by
  have hsplit : cons.take m = cons.take n ++ (cons.take m).drop n := by
    conv_lhs => rw [← List.take_append_drop n (cons.take m), List.take_take, min_eq_left hn]
  have hlen : (cons.take n).length = n := List.length_take_of_le (hn.trans hm)
  have hfront : kept after 0 (cons.take n) = kept before 0 (cons.take n) := by
    apply kept_congr
    intro k _ hk
    exact hframe k (Or.inl (show k < n by omega))
  rw [hsplit, kept_append, hlen, hfront, Nat.zero_add]
  rfl

/-- **One section more.** -/
theorem AlignedUpTo.section {cons1 cons2 : List Line} {n1 n2 m1 m2 : ℕ} {changed1 changed2 : Bits}
    (h : AlignedUpTo cons1 cons2 n1 n2 changed1 changed2) (h1 : n1 ≤ m1) (h2 : n2 ≤ m2)
    (hm1 : m1 ≤ cons1.length) (hm2 : m2 ≤ cons2.length) {changed : Bits × Bits}
    (hchanged : changed = calcChanges (smartlistSlice cons1 n1 m1) (smartlistSlice cons2 n2 m2)
      changed1 changed2) :
    AlignedUpTo cons1 cons2 m1 m2 changed.1 changed.2 := by
  have haligned : Aligned (smartlistSlice cons1 n1 m1) (smartlistSlice cons2 n2 m2)
      (changed1, changed2) changed := by
    rw [hchanged]
    exact calcChanges_aligned (fun k hk _ => h.clear1 k hk) (fun k hk _ => h.clear2 k hk)
  have hstop : ∀ {cons : List Line} {n m : ℕ}, m ≤ cons.length → n ≤ m →
      n + (smartlistSlice cons n m).lines.length = m := by
    intro cons n m hm hn
    simp only [smartlistSlice, List.length_drop, List.length_take]
    omega
  refine ⟨fun k hk => ?_, fun k hk => ?_, ?_⟩
  · rw [haligned.frame1 k (Or.inr ((hstop hm1 h1).le.trans hk))]
    exact h.clear1 k (h1.trans hk)
  · rw [haligned.frame2 k (Or.inr ((hstop hm2 h2).le.trans hk))]
    exact h.clear2 k (h2.trans hk)
  · rw [kept_take_slice h1 hm1 haligned.frame1, kept_take_slice h2 hm2 haligned.frame2, h.same]
    exact congrArg _ haligned.same

/-- The position `i` of a list of which the lines in front of `start` are done. -/
def StandsAt (cons : List Line) (i : ℤ) (start : ℕ) : Prop :=
  i ≤ cons.length ∧ start ≤ cons.length ∧ (i = start ∨ (i = -1 ∧ start = 0))

theorem StandsAt.next {cons : List Line} {i i' : ℤ} {start : ℕ} (h : StandsAt cons i start)
    (hreaches : Reaches cons.length i i' ∧ (i < cons.length → i < i')) :
    StandsAt cons i' i'.toNat ∧ start ≤ i'.toNat := by
  unfold StandsAt Reaches at *
  omega

/-- **The unmarked lines of the two lists are the same.** -/
theorem markChanges_aligned {cons1 cons2 : List Line} {p : Position} {start1 start2 : ℕ}
    {changed1 changed2 : Bits} {changed : Bits × Bits}
    (h : markChanges cons1 cons2 p start1 start2 changed1 changed2 = some changed)
    (hp1 : StandsAt cons1 p.i1 start1) (hp2 : StandsAt cons2 p.i2 start2)
    (haligned : AlignedUpTo cons1 cons2 start1 start2 changed1 changed2) :
    kept changed.1 0 cons1 = kept changed.2 0 cons2 := by
  induction p, start1, start2, changed1, changed2 using markChanges.induct cons1 cons2 with
  | case1 p start1 start2 changed1 changed2 hlt hsection =>
    rw [markChanges, dif_pos hlt] at h
    grind
  | case2 p start1 start2 changed1 changed2 hlt q hsection hlong =>
    rw [markChanges, dif_pos hlt] at h
    grind
  | case3 p start1 start2 changed1 changed2 hlt q hsection hshort marked ih =>
    have hrest : markChanges cons1 cons2 q q.i1.toNat q.i2.toNat marked.1 marked.2 =
        some changed := by
      rw [markChanges, dif_pos hlt] at h
      grind
    obtain ⟨hreach1, hreach2⟩ := nextSection_reaches hsection
    obtain ⟨hq1, hle1⟩ := hp1.next hreach1
    obtain ⟨hq2, hle2⟩ := hp2.next hreach2
    exact ih hrest hq1 hq2 (haligned.section hle1 hle2 hq1.2.1 hq2.2.1 rfl)
  | case4 p start1 start2 changed1 changed2 hlt =>
    rw [markChanges, dif_neg hlt] at h
    cases h
    have hend1 : start1 = cons1.length := by
      unfold StandsAt at hp1
      omega
    have hend2 : start2 = cons2.length := by
      unfold StandsAt at hp2
      omega
    simpa [hend1, hend2] using haligned.same

/-! ### Reading a command back -/

theorem length_decimal_le_ten {n : ℕ} (h : n ≤ int32Max) : (decimal n).length ≤ 10 := by
  apply length_decimal_le (by omega)
  unfold int32Max at h
  omega

theorem getLinenum_decimal {n : ℕ} {rest : Line} (hn : n ≤ int32Max)
    (hrest : ∀ c ∈ rest.head?, isDigit c = false) :
    getLinenum (decimal n ++ rest) = some (n, rest) := by
  rw [getLinenum, readDecimal_decimal n hrest]
  exact if_pos hn

theorem ne_zero_of_mem_decimal {n : ℕ} {c : UInt8} (h : c ∈ decimal n) : c ≠ 0 := by
  rintro rfl
  have := isDigit_of_mem_decimal h
  revert this
  decide

/-- A line without a zero byte is the string it is copied to. -/
theorem takeWhile_ne_zero {line : Line} (h : ∀ c ∈ line, c ≠ 0) :
    line.takeWhile (· ≠ 0) = line := by
  rw [List.takeWhile_eq_self_iff]
  intro c hc
  exact decide_eq_true (h c hc)

theorem readCommand_decimal {len1 n : ℕ} {j : ℤ} {tail : Line} (hn : n ≤ int32Max)
    (hlen : tail.length ≤ 12) (hzero : ∀ c ∈ tail, c ≠ 0)
    (hhead : ∀ c ∈ tail.head?, isDigit c = false) :
    readCommand len1 j (decimal n ++ tail) = readCommandFrom len1 j n tail := by
  have hline : (decimal n ++ tail).takeWhile (· ≠ 0) = decimal n ++ tail := by
    apply takeWhile_ne_zero
    intro c hc
    rcases List.mem_append.mp hc with hc | hc
    · exact ne_zero_of_mem_decimal hc
    · exact hzero c hc
  have hshort : ¬ (decimal n ++ tail).length > 127 := by
    have hdecimal := length_decimal_le_ten hn
    rw [List.length_append]
    omega
  simp only [readCommand, if_neg hshort, hline, getLinenum_decimal hn hhead]

theorem edAction_letter {letter : UInt8} {action : EdAction} (h : edAction letter = some action) :
    letter ≠ 0 ∧ letter ≠ 44 ∧ isDigit letter = false := by
  unfold edAction at h
  split_ifs at h with ha hc hd
  · subst ha
    decide
  · subst hc
    decide
  · subst hd
    decide

theorem readCommand_single {len1 n : ℕ} {j : ℤ} {letter : UInt8} {action : EdAction}
    (hn : n ≤ int32Max) (hj : n ≤ j) (hletter : edAction letter = some action) :
    readCommand len1 j (decimal n ++ [letter]) = some ⟨n, n, action⟩ := by
  obtain ⟨hzero, hcomma, hdigit⟩ := edAction_letter hletter
  have hrange : readRange len1 n [letter] = some (n, false, false, [letter]) := by
    unfold readRange
    grind
  have hsorted : ¬ (n : ℤ) > j := by omega
  rw [readCommand_decimal hn (by simp) (by simpa using hzero) (by simpa using hdigit)]
  simp only [readCommandFrom, hrange, if_neg hsorted]
  simp [readAction, hletter]

theorem readRange_decimal {len1 n m : ℕ} {rest : Line} (hn : n < m) (hm : m ≤ int32Max)
    (hrest : ∀ c ∈ rest.head?, isDigit c = false) :
    readRange len1 n (44 :: (decimal m ++ rest)) = some (m, true, false, rest) := by
  have hnum := getLinenum_decimal hm hrest
  obtain ⟨d, ds, hds⟩ := List.exists_cons_of_ne_nil (decimal_ne_nil m)
  have hdigit : isDigit d = true := isDigit_of_mem_decimal (hds ▸ List.mem_cons_self)
  have hdollar : d ≠ 36 := by
    rintro rfl
    exact absurd hdigit (by decide)
  rw [hds, List.cons_append] at hnum ⊢
  unfold readRange
  grind

theorem readCommand_range {len1 n m : ℕ} {j : ℤ} {letter : UInt8} {action : EdAction}
    (hn : n < m) (hm : m ≤ int32Max) (hj : m ≤ j) (hletter : edAction letter = some action)
    (haction : action ≠ .a) :
    readCommand len1 j (decimal n ++ [44] ++ decimal m ++ [letter]) = some ⟨n, m, action⟩ := by
  obtain ⟨hzero, hcomma, hdigit⟩ := edAction_letter hletter
  have hlen : (44 :: (decimal m ++ [letter])).length ≤ 12 := by
    have hdecimal := length_decimal_le_ten hm
    simp only [List.length_cons, List.length_append, List.length_nil]
    omega
  have hzeros : ∀ c ∈ 44 :: (decimal m ++ [letter]), c ≠ 0 := by
    simp only [List.mem_cons, List.mem_append, List.not_mem_nil, or_false]
    rintro c (rfl | hc | rfl)
    · decide
    · exact ne_zero_of_mem_decimal hc
    · exact hzero
  have hcommaDigit : ∀ c ∈ (44 :: (decimal m ++ [letter])).head?, isDigit c = false := by
    rintro c ⟨⟩
    decide
  have hsorted : ¬ (m : ℤ) > j := by omega
  rw [List.append_assoc, List.append_assoc, List.singleton_append,
    readCommand_decimal (by omega) hlen hzeros hcommaDigit]
  have hrange : readRange len1 n (44 :: (decimal m ++ [letter])) = some (m, true, false, [letter]) :=
    readRange_decimal hn hm (by simpa using hdigit)
  simp only [readCommandFrom, hrange, if_neg hsorted]
  simp [readAction, hletter, haction]

/-- The command that deletes up to the end. -/
theorem readCommand_eof {len1 n : ℕ} (hn : n ≤ int32Max) :
    readCommand len1 len1 (decimal n ++ [44, 36, 100]) =
      if len1 ≤ n then none else some ⟨n, len1, .d⟩ := by
  rw [readCommand_decimal hn (by simp) (by simp) (by rintro c ⟨⟩; decide)]
  simp only [readCommandFrom, readRange]
  split_ifs with hle
  · rfl
  · simp [readAction, edAction]

/-! ### Applying what was generated -/

theorem changedFrom_marked (changed : Bits) (n : ℕ) :
    ∀ k, changedFrom changed n ≤ k → k < n → changed k = true := by
  induction n with
  | zero => intro k _ hk; omega
  | succ n ih =>
    intro k hk hk'
    rw [changedFrom] at hk
    split at hk
    · next hn =>
      rcases Nat.lt_succ_iff_lt_or_eq.mp hk' with hlt | rfl
      · exact ih k hk hlt
      · exact hn
    · omega

theorem take_drop_append_drop {l : List Line} {m n : ℕ} (h : m ≤ n) :
    (l.take n).drop m ++ l.drop n = l.drop m := by
  rcases Nat.le_total n l.length with hn | hn
  · conv_rhs => rw [← List.take_append_drop n l, List.drop_append_of_le_length
      (by rw [List.length_take_of_le hn]; exact h)]
  · rw [List.take_of_length_le hn, List.drop_of_length_le hn, List.append_nil]

theorem readAdded_append {added rest : List Line} (hne : added ≠ []) (hdot : bytes "." ∉ added) :
    readAdded (added ++ [bytes "."] ++ rest) = some (added, rest) := by
  have hall : ∀ line ∈ added, decide (line ≠ bytes ".") = true := by
    intro line hline
    exact decide_eq_true fun heq => hdot (heq ▸ hline)
  rw [readAdded, List.append_assoc, List.dropWhile_append_of_pos hall,
    List.takeWhile_append_of_pos hall]
  simp [hne]

theorem applyFrom_of_none {cons1 diff acc : List Line} {line : Line} {j : ℤ}
    (h : readCommand cons1.length j line = none) : applyFrom cons1 (line :: diff) j acc = none := by
  rw [applyFrom]
  simp [h]

theorem applyFrom_delete {cons1 diff acc : List Line} {line : Line} {start stop j : ℕ}
    (h : readCommand cons1.length j line = some ⟨start + 1, stop, .d⟩) :
    applyFrom cons1 (line :: diff) j acc =
      applyFrom cons1 diff start ((cons1.take j).drop stop ++ acc) := by
  rw [applyFrom]
  simp [h]

theorem applyFrom_change {cons1 added diff acc : List Line} {line : Line} {start stop j : ℕ}
    (h : readCommand cons1.length j line = some ⟨start + 1, stop, .c⟩) (hne : added ≠ [])
    (hdot : bytes "." ∉ added) :
    applyFrom cons1 (line :: added ++ [bytes "."] ++ diff) j acc =
      applyFrom cons1 diff start (added ++ ((cons1.take j).drop stop ++ acc)) := by
  have hadded : readAdded (added ++ [bytes "."] ++ diff) = some (added, diff) :=
    readAdded_append hne hdot
  rw [List.cons_append, List.cons_append, applyFrom]
  simp only [h]
  grind

theorem applyFrom_append {cons1 added diff acc : List Line} {line : Line} {start j : ℕ}
    (h : readCommand cons1.length j line = some ⟨start, start, .a⟩) (hne : added ≠ [])
    (hdot : bytes "." ∉ added) :
    applyFrom cons1 (line :: added ++ [bytes "."] ++ diff) j acc =
      applyFrom cons1 diff start (added ++ ((cons1.take j).drop start ++ acc)) := by
  have hadded : readAdded (added ++ [bytes "."] ++ diff) = some (added, diff) :=
    readAdded_append hne hdot
  rw [List.cons_append, List.cons_append, applyFrom]
  simp only [h]
  grind

/-- **What a command of the script does**: the lines of the base from `start1x` to `end1` are replaced
by those of the target from `start2x` to `end2`. -/
theorem applyFrom_edLines {cons1 cons2 lines rest acc : List Line} {start1x end1 start2x end2 j : ℕ}
    (h : edLines cons2 start1x end1 start2x end2 = some lines) (h1 : start1x ≤ end1)
    (h2 : start2x ≤ end2) (hne : start1x < end1 ∨ start2x < end2) (hj : end1 ≤ j)
    (hend2 : end2 ≤ cons2.length) (hmax : j ≤ int32Max) :
    applyFrom cons1 (lines ++ rest) j acc =
      applyFrom cons1 rest start1x
        ((cons2.take end2).drop start2x ++ ((cons1.take j).drop end1 ++ acc)) := by
  obtain ⟨deleted, rfl⟩ := Nat.exists_eq_add_of_le h1
  have hadded : ((cons2.take end2).drop start2x).length = end2 - start2x := by
    rw [List.length_drop, List.length_take_of_le hend2]
  simp only [edLines, Nat.add_sub_cancel_left] at h
  generalize (cons2.take end2).drop start2x = added at *
  split_ifs at h with hzero hone hdot hdel0 hdel1
  · cases h
    obtain rfl : added = [] := List.length_eq_zero_iff.mp (by omega)
    subst hone
    exact applyFrom_delete (readCommand_single (by omega) (by omega) rfl)
  · cases h
    obtain rfl : added = [] := List.length_eq_zero_iff.mp (by omega)
    exact applyFrom_delete (readCommand_range (by omega) (by omega) (by omega) rfl (by simp))
  all_goals
    cases h
    replace hdot : bytes "." ∉ added := fun hmem =>
      hdot (List.any_eq_true.mpr ⟨_, hmem, decide_eq_true rfl⟩)
    have hsome : added ≠ [] := by
      rintro rfl
      simp at hadded
      omega
  · subst hdel0
    exact applyFrom_append (readCommand_single (by omega) (by omega) rfl) hsome hdot
  · subst hdel1
    exact applyFrom_change (readCommand_single (by omega) (by omega) rfl) hsome hdot
  · exact applyFrom_change (readCommand_range (by omega) (by omega) (by omega) rfl (by simp)) hsome hdot

/-- **The script leads to the target**, from any point of the last loop of the generator. -/
theorem applyFrom_navigate {cons1 cons2 diff acc : List Line} {changed1 changed2 : Bits}
    {n1 n2 j : ℕ} (h : navigate cons2 changed1 changed2 n1 n2 = some diff) (hn1 : n1 ≤ j)
    (hj : j ≤ cons1.length) (hmax : j ≤ int32Max) (hn2 : n2 ≤ cons2.length)
    (hkept : kept changed1 0 (cons1.take n1) = kept changed2 0 (cons2.take n2))
    (hacc : (cons1.take j).drop n1 ++ acc = cons2.drop n2) :
    applyFrom cons1 diff j acc = some cons2 := by
  induction n1, n2 using navigate.induct changed1 changed2 generalizing diff acc j with
  | case1 n1 n2 hzero =>
    obtain ⟨rfl, rfl⟩ := hzero
    rw [navigate, if_pos ⟨rfl, rfl⟩] at h
    cases h
    rw [applyFrom]
    simpa using hacc
  | case2 n1 n2 hne hch ih =>
    rw [navigate, if_neg hne, dif_pos hch] at h
    -- a line without a mark stands in both lists, or one of them would have a line more
    match n1, n2, hne, hch with
    | 0, 0, hne, _ => exact absurd ⟨rfl, rfl⟩ hne
    | n1 + 1, 0, _, hch =>
      have hlt : n1 < cons1.length := by omega
      have hmark : changed1 n1 = false := by simpa [changedBelow] using hch.1
      rw [kept_take_succ hlt, hmark] at hkept
      simp at hkept
    | 0, n2 + 1, _, hch =>
      have hlt : n2 < cons2.length := by omega
      have hmark : changed2 n2 = false := by simpa [changedBelow] using hch.2
      rw [kept_take_succ hlt, hmark] at hkept
      simp at hkept
    | n1 + 1, n2 + 1, _, hch =>
      have hlt1 : n1 < cons1.length := by omega
      have hlt2 : n2 < cons2.length := by omega
      have hmark1 : changed1 n1 = false := by simpa [changedBelow] using hch.1
      have hmark2 : changed2 n2 = false := by simpa [changedBelow] using hch.2
      obtain ⟨hline, hinit⟩ := last_eq_of_kept_eq hlt1 hlt2 hmark1 hmark2 hkept
      apply ih h (by omega) hj hmax (by omega) hinit
      have hdrop1 : (cons1.take j).drop n1 = cons1.get ⟨n1, hlt1⟩ :: (cons1.take j).drop (n1 + 1) := by
        rw [List.drop_eq_getElem_cons (by rw [List.length_take]; omega)]
        simp
      have hdrop2 : cons2.drop n2 = cons2.get ⟨n2, hlt2⟩ :: cons2.drop (n2 + 1) :=
        List.drop_eq_getElem_cons hlt2
      simp only [Nat.add_sub_cancel]
      rw [hdrop1, hdrop2, List.cons_append, hacc, hline]
  | case3 n1 n2 hne hch ih =>
    rw [navigate, if_neg hne, dif_neg hch] at h
    simp only [Option.bind_eq_bind, Option.bind_eq_some_iff, Option.pure_def, Option.some.injEq] at h
    obtain ⟨lines, hlines, rest, hrest, rfl⟩ := h
    have hle1 := changedFrom_le changed1 n1
    have hle2 := changedFrom_le changed2 n2
    rw [applyFrom_edLines hlines hle1 hle2 (changedFrom_lt_or_lt hch) hn1 hn2 hmax]
    apply ih hrest le_rfl (by omega) (by omega) (by omega)
    · rw [← kept_take_of_marked hle1 (changedFrom_marked changed1 n1), hkept,
        kept_take_of_marked hle2 (changedFrom_marked changed2 n2)]
    · rw [hacc, take_drop_append_drop hle2, List.drop_of_length_le (by simp), List.nil_append]

/-! ### Consensus diffs -/

/-- A digest of a consensus (`consensus_digest_t`). -/
structure ConsensusDigest where
  sha3256 : List UInt8
  length_eq : sha3256.length = 32
deriving DecidableEq

def nsDiffVersion : Line := bytes "network-status-diff-version 1"

def hashToken : Line := bytes "hash"

/-- A digit of `base16_encode`. -/
def base16Digit (n : ℕ) : UInt8 := if n < 10 then (48 + n).toUInt8 else (55 + n).toUInt8

def base16Encode (src : List UInt8) : Line :=
  src.flatMap fun b => [base16Digit (b.toNat / 16), base16Digit (b.toNat % 16)]

/-- How `consdiff_gen_diff` fails: without a script, and in the two branches that are marked as
impossible. -/
inductive GenError
  | noEdDiff
  | notApplicable
  | resultDiffers
deriving DecidableEq

def consdiffGenDiff (cons1 cons2 : List Line) (digests1 digests2 : ConsensusDigest) :
    Except GenError (List Line) :=
  match genEdDiff cons1 cons2 with
  | none => .error .noEdDiff
  | some edDiff =>
    match applyEdDiff cons1 edDiff 0 with
    | none => .error .notApplicable
    | some edCons2 =>
      if cons2 ≠ edCons2 then .error .resultDiffers
      else
        .ok (nsDiffVersion :: (hashToken ++ [32] ++ base16Encode digests1.sha3256 ++ [32] ++
          base16Encode digests2.sha3256) :: edDiff)

/-- **What a diff is for**: applied to the base it gives the target, and the generator does not have
to give up on it. -/
def Reconstructs (cons1 cons2 : List Line) : Prop :=
  (∀ diff, genEdDiff cons1 cons2 = some diff → applyEdDiff cons1 diff 0 = some cons2) ∧
    ∀ digests1 digests2, consdiffGenDiff cons1 cons2 digests1 digests2 ≠ .error .notApplicable ∧
      consdiffGenDiff cons1 cons2 digests1 digests2 ≠ .error .resultDiffers

/-- The signatures are a single line, the last one: the command that deletes them is a range whose end
is its start. -/
def SignatureIsLastLine (cons : List Line) : Prop :=
  ∃ idx, dirsigIdx cons = some idx ∧ idx + 1 = cons.length

theorem dirsigIdx_lt {cons : List Line} {idx : ℕ} (h : dirsigIdx cons = some idx) :
    idx < cons.length := by
  rw [dirsigIdx, List.findIdx?_eq_some_iff_findIdx_eq] at h
  exact h.1

/-- The script of the generator starts with the command that deletes the signatures, if there are
any. -/
theorem genEdDiff_eq_some {cons1 cons2 diff : List Line} (h : genEdDiff cons1 cons2 = some diff) :
    ∃ changed : Bits × Bits, ∃ result,
      kept changed.1 0 (preprocessConsensus cons1).1 = kept changed.2 0 cons2 ∧
      navigate cons2 changed.1 changed.2 (preprocessConsensus cons1).1.length cons2.length =
        some result ∧
      diff = (preprocessConsensus cons1).2.toList ++ result := by
  simp only [genEdDiff, Option.bind_eq_bind, Option.bind_eq_some_iff, Option.pure_def,
    Option.some.injEq] at h
  obtain ⟨changed, hmark, result, hnavigate, rfl⟩ := h
  refine ⟨changed, result, ?_, hnavigate, rfl⟩
  apply markChanges_aligned hmark
  · simp [StandsAt, Position.start]
  · simp [StandsAt, Position.start]
  · exact ⟨fun _ _ => rfl, fun _ _ => rfl, rfl⟩

/-- **The script can be applied and gives the target**, or the signatures are the last line. -/
theorem applyEdDiff_genEdDiff {cons1 cons2 diff : List Line} (hlen : cons1.length ≤ int32Max)
    (h : genEdDiff cons1 cons2 = some diff) :
    (¬ SignatureIsLastLine cons1 → applyEdDiff cons1 diff 0 = some cons2) ∧
      (SignatureIsLastLine cons1 → applyEdDiff cons1 diff 0 = none) := by
  obtain ⟨changed, result, hkept, hnavigate, rfl⟩ := genEdDiff_eq_some h
  unfold preprocessConsensus at hkept hnavigate ⊢
  cases hidx : dirsigIdx cons1 with
  | none =>
    have hnot : ¬ SignatureIsLastLine cons1 := by
      rintro ⟨idx, hsome, -⟩
      rw [hidx] at hsome
      cases hsome
    simp only [hidx] at hkept hnavigate ⊢
    refine ⟨fun _ => ?_, fun hlast => absurd hlast hnot⟩
    exact applyFrom_navigate hnavigate le_rfl le_rfl hlen le_rfl (by simpa using hkept) (by simp)
  | some idx =>
    have hlt := dirsigIdx_lt hidx
    have hlast : SignatureIsLastLine cons1 ↔ cons1.length ≤ idx + 1 := by
      constructor
      · rintro ⟨idx', hidx', hend⟩
        rw [hidx] at hidx'
        cases hidx'
        omega
      · exact fun hle => ⟨idx, hidx, by omega⟩
    simp only [hidx, List.length_take_of_le hlt.le] at hkept hnavigate ⊢
    have hcommand : readCommand cons1.length cons1.length (decimal (idx + 1) ++ [44, 36, 100]) =
        if cons1.length ≤ idx + 1 then none else some ⟨idx + 1, cons1.length, .d⟩ :=
      readCommand_eof (by omega)
    have happly : applyEdDiff cons1 ((some (decimal (idx + 1) ++ bytes ",$d")).toList ++ result) 0 =
        applyFrom cons1 ((decimal (idx + 1) ++ [44, 36, 100]) :: result) cons1.length [] := rfl
    rw [hlast, happly]
    constructor
    · intro hnot
      rw [if_neg hnot] at hcommand
      rw [applyFrom_delete hcommand]
      exact applyFrom_navigate hnavigate le_rfl hlt.le (by omega) le_rfl (by simpa using hkept)
        (by simp)
    · intro hle
      rw [if_pos hle] at hcommand
      exact applyFrom_of_none hcommand

/-- **Diffs reconstruct the target**, except where the signatures of the base are its last line. -/
theorem reconstructs_iff {cons1 cons2 diff : List Line} (hlen : cons1.length ≤ int32Max)
    (h : genEdDiff cons1 cons2 = some diff) :
    Reconstructs cons1 cons2 ↔ ¬ SignatureIsLastLine cons1 := by
  obtain ⟨hgood, hbad⟩ := applyEdDiff_genEdDiff hlen h
  constructor
  · intro hrec hlast
    have := hrec.1 diff h
    rw [hbad hlast] at this
    cases this
  · intro hnot
    have happly := hgood hnot
    refine ⟨?_, ?_⟩
    · intro diff' h'
      rw [h] at h'
      cases h'
      exact happly
    · intro digests1 digests2
      simp [consdiffGenDiff, h, happly]

def signatureLine : Line := bytes "directory-signature x"

theorem reconstructs_signed :
    genEdDiff [bytes "a", signatureLine, bytes "x"] [bytes "b"] =
        some [bytes "2,$d", bytes "1c", bytes "b", bytes "."] ∧
      Reconstructs [bytes "a", signatureLine, bytes "x"] [bytes "b"] := by
  have hgen : genEdDiff [bytes "a", signatureLine, bytes "x"] [bytes "b"] =
      some [bytes "2,$d", bytes "1c", bytes "b", bytes "."] := by decide +kernel
  refine ⟨hgen, (reconstructs_iff (by decide) hgen).mpr ?_⟩
  rintro ⟨idx, hidx, hend⟩
  have hone : dirsigIdx [bytes "a", signatureLine, bytes "x"] = some 1 := by decide +kernel
  rw [hone] at hidx
  cases hidx
  cases hend

theorem not_reconstructs_signature : ¬ Reconstructs [signatureLine] [] := by
  intro h
  have hgen : genEdDiff [signatureLine] [] = some [bytes "1,$d"] := by decide +kernel
  have happly : applyEdDiff [signatureLine] [bytes "1,$d"] 0 = none := by decide +kernel
  have hsome := h.1 _ hgen
  rw [happly] at hsome
  cases hsome

end TorEbpf.Dircommon
