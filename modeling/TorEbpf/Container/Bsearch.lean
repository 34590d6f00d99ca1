import Mathlib
import TorEbpf.Lib.Checked
import TorEbpf.Lib.Machine

/-!
# Binary search, with its assertions

The loop of `smartlist_bsearch_idx` as a machine on the signed bounds, with the assertions of the loop and
those behind it.

* `exists_halt_of_inv` — the loop ends, in one of three ways;
* `smartlistBsearchIdx_correct` — what is returned, for every list that is sorted for the key;
* `smartlistBsearchIdx_located_of_ordered` — the member that matches, or its place, in a list in order.
-/

namespace TorEbpf.Container

open TorEbpf.Lib

variable {α κ : Type*}

/-! ### The search -/

/-- What must not happen: an assertion that fails, or an index outside of the list. -/
inductive BsearchFault where
  | assertion
  | outside
  deriving DecidableEq, Repr

/-- `lo` and `hi`. -/
structure Bounds where
  lo : ℤ
  hi : ℤ
  deriving DecidableEq, Repr

inductive BsearchEnd where
  | found (mid : ℤ)
  | first
  | crossed (b : Bounds)
  | fault (f : BsearchFault)
  deriving DecidableEq, Repr

/-- `sl->list[i]`. -/
def memberAt (l : List α) (i : ℤ) : Option α := if 0 ≤ i then l[i.toNat]? else none

section Search

variable (compare : α → ℤ) (l : List α)

/-- A round of the loop; `compare` compares the key to a member. -/
def bsearchStep (b : Bounds) : Result Bounds BsearchEnd :=
  if b.lo ≤ b.hi then
    let mid := b.lo + (b.hi - b.lo).tdiv 2
    match memberAt l mid with
    | none => .halt (.fault .outside)
    | some x =>
      if compare x = 0 then .halt (.found mid)
      else if 0 < compare x then
        if mid < l.length then .next { b with lo := mid + 1 } else .halt (.fault .assertion)
      else if 0 < mid then .next { b with hi := mid - 1 }
      else if mid = b.lo ∧ mid = 0 then .halt .first
      else .halt (.fault .assertion)
  else .halt (.crossed b)

/-- What follows the loop: five assertions, and the comparison with a neighbour under another one. -/
def bsearchFinish (b : Bounds) : Checked Unit BsearchFault (ℤ × Bool) :=
  if ¬(b.lo = b.hi + 1 ∧ 0 ≤ b.lo ∧ b.lo ≤ l.length ∧ 0 ≤ b.hi ∧ b.hi ≤ l.length) then fault .assertion
  else if b.lo < l.length then
    match memberAt l b.lo with
    | none => fault .outside
    | some x => if compare x < 0 then .ok (b.lo, false) else fault .assertion
  else
    match memberAt l (l.length - 1) with
    | none => fault .outside
    | some x => if 0 < compare x then .ok (b.lo, false) else fault .assertion

/-- The value returned and `*found_out`. -/
def bsearchResult : BsearchEnd → Checked Unit BsearchFault (ℤ × Bool)
  | .found mid => .ok (mid, true)
  | .first => .ok (0, false)
  | .crossed b => bsearchFinish compare l b
  | .fault f => fault f

end Search

/-- `smartlist_bsearch_idx`, with a bound on the rounds of its loop; nothing if they are not enough. -/
def smartlistBsearchIdxIn (compare : κ → α → ℤ) (rounds : ℕ) (l : List α) (key : κ) :
    Option (Checked Unit BsearchFault (ℤ × Bool)) :=
  if l.length = 0 then some (.ok (0, false))
  else
    match run (bsearchStep (compare key) l) rounds ⟨0, l.length - 1⟩ with
    | .next _ => none
    | .halt o => some (bsearchResult (compare key) l o)

/-- The same where no assertion fails. -/
def smartlistBsearchIdx (compare : α → ℤ) (l : List α) : ℕ × Bool :=
  match smartlistBsearchIdxIn (fun _ : Unit => compare) (l.length + 1) l () with
  | some (.ok r) => (r.1.toNat, r.2)
  | _ => (0, false)

def smartlistBsearch (compare : α → ℤ) (l : List α) : Option α :=
  if (smartlistBsearchIdx compare l).2 then l[(smartlistBsearchIdx compare l).1]? else none

/-! ### The invariant -/

/-- **A list is sorted** for a key: the signs of the comparisons do not increase along the list. -/
def SortedFor (compare : α → ℤ) (l : List α) : Prop :=
  l.Pairwise fun a b => (compare b).sign ≤ (compare a).sign

/-- What is below `lo` is less than the key, and what is above `hi` is greater. -/
structure BsearchInv (compare : α → ℤ) (l : List α) (b : Bounds) : Prop where
  lo_nonneg : 0 ≤ b.lo
  lo_le : b.lo ≤ b.hi + 1
  hi_nonneg : 0 ≤ b.hi
  hi_lt : b.hi < l.length
  below : ∀ (i : ℕ) (x : α), l[i]? = some x → (i : ℤ) < b.lo → 0 < compare x
  above : ∀ (i : ℕ) (x : α), l[i]? = some x → b.hi < i → compare x < 0

/-- An end of the loop that is as it should be. -/
def EndOk (compare : α → ℤ) (l : List α) : BsearchEnd → Prop
  | .found mid => ∃ (i : ℕ) (x : α), mid = i ∧ l[i]? = some x ∧ compare x = 0
  | .first => ∀ (i : ℕ) (x : α), l[i]? = some x → compare x < 0
  | .crossed b => BsearchInv compare l b ∧ b.hi < b.lo
  | .fault _ => False

section Invariant

variable {compare : α → ℤ} {l : List α} {b : Bounds}

theorem memberAt_eq {i : ℕ} {x : α} (h : l[i]? = some x) : memberAt l i = some x := by
  rw [memberAt, if_pos (Int.natCast_nonneg i), Int.toNat_natCast]
  exact h

/-- Members in front of one that is less than the key are less too. -/
theorem SortedFor.pos_of_le (h : SortedFor compare l) {i j : ℕ} {x y : α} (hx : l[i]? = some x)
    (hy : l[j]? = some y) (hij : i ≤ j) (hpos : 0 < compare y) : 0 < compare x := by
  obtain ⟨hi, rfl⟩ := List.getElem?_eq_some_iff.mp hx
  obtain ⟨hj, rfl⟩ := List.getElem?_eq_some_iff.mp hy
  rcases Nat.lt_or_eq_of_le hij with hlt | rfl
  · have hsign := List.pairwise_iff_getElem.mp h i j hi hj hlt
    rw [Int.sign_eq_one_of_pos hpos] at hsign
    exact Int.sign_pos_iff.mp (by omega)
  · exact hpos

/-- Members behind one that is greater than the key are greater too. -/
theorem SortedFor.neg_of_le (h : SortedFor compare l) {i j : ℕ} {x y : α} (hx : l[i]? = some x)
    (hy : l[j]? = some y) (hij : i ≤ j) (hneg : compare x < 0) : compare y < 0 := by
  obtain ⟨hi, rfl⟩ := List.getElem?_eq_some_iff.mp hx
  obtain ⟨hj, rfl⟩ := List.getElem?_eq_some_iff.mp hy
  rcases Nat.lt_or_eq_of_le hij with hlt | rfl
  · have hsign := List.pairwise_iff_getElem.mp h i j hi hj hlt
    rw [Int.sign_eq_neg_one_of_neg hneg] at hsign
    exact Int.sign_neg_iff.mp (by omega)
  · exact hneg

/-- **A round** either ends the loop as it should, or keeps the invariant and brings the bounds together. -/
theorem BsearchInv.step (hsorted : SortedFor compare l) (h : BsearchInv compare l b) :
    (∃ o, bsearchStep compare l b = .halt o ∧ EndOk compare l o) ∨
      ∃ b', bsearchStep compare l b = .next b' ∧ BsearchInv compare l b' ∧
        b'.hi + 1 - b'.lo < b.hi + 1 - b.lo := by
  unfold bsearchStep
  by_cases hle : b.lo ≤ b.hi
  · have hlo := h.lo_nonneg
    have hhi := h.hi_lt
    have hdiv : (b.hi - b.lo).tdiv 2 = (b.hi - b.lo) / 2 := Int.tdiv_eq_ediv_of_nonneg (by omega)
    obtain ⟨mid, hmid⟩ : ∃ mid : ℕ, b.lo + (b.hi - b.lo).tdiv 2 = mid :=
      ⟨(b.lo + (b.hi - b.lo).tdiv 2).toNat, by omega⟩
    obtain ⟨x, hx⟩ : ∃ x, l[mid]? = some x := ⟨_, List.getElem?_eq_getElem (show mid < l.length by omega)⟩
    simp only [if_pos hle, hmid, memberAt_eq hx]
    split_ifs with hzero hpos hlen hmid0 hfirst
    · exact .inl ⟨_, rfl, mid, x, rfl, hx, hzero⟩
    · right
      refine ⟨_, rfl, ⟨by dsimp only; omega, by dsimp only; omega, h.hi_nonneg, hhi, ?_, h.above⟩, ?_⟩
      · intro i y hy hi'
        exact hsorted.pos_of_le hy hx (by dsimp only at hi'; omega) hpos
      · dsimp only
        omega
    · omega
    · right
      refine ⟨_, rfl, ⟨hlo, by dsimp only; omega, by dsimp only; omega, by dsimp only; omega, h.below, ?_⟩, ?_⟩
      · intro i y hy hi'
        exact hsorted.neg_of_le hx hy (by dsimp only at hi'; omega) (by omega)
      · dsimp only
        omega
    · left
      refine ⟨_, rfl, fun i y hy => ?_⟩
      exact hsorted.neg_of_le hx hy (by omega) (by omega)
    · omega
  · rw [if_neg hle]
    exact .inl ⟨_, rfl, h, by omega⟩

/-- **The loop ends**, as it should. -/
theorem exists_halt_of_inv (hsorted : SortedFor compare l) (rounds : ℕ) (h : BsearchInv compare l b)
    (hrounds : b.hi + 1 - b.lo < rounds) :
    ∃ o, run (bsearchStep compare l) rounds b = .halt o ∧ EndOk compare l o := by
  refine halts_of_measure (I := BsearchInv compare l) (fun b => (b.hi + 1 - b.lo).toNat) ?_ ?_ h ?_
  · intro b b' hb hstep
    rcases hb.step hsorted with ⟨o, hhalt, -⟩ | ⟨b'', hnext, hb'', hless⟩
    · rw [hstep] at hhalt
      cases hhalt
    · rw [hstep] at hnext
      cases hnext
      have := hb''.lo_le
      exact ⟨hb'', by omega⟩
  · intro b o hb hstep
    rcases hb.step hsorted with ⟨o', hhalt, ho'⟩ | ⟨b'', hnext, -⟩
    · rw [hstep] at hhalt
      cases hhalt
      exact ho'
    · rw [hstep] at hnext
      cases hnext
  · have := h.lo_le
    omega

/-! ### What is returned -/

/-- A match, if there is one; otherwise the number of members that are less than the key. -/
def SearchOk (compare : α → ℤ) (l : List α) (r : ℤ × Bool) : Prop :=
  (r.2 = true ↔ ∃ x ∈ l, compare x = 0) ∧
    (r.2 = true → ∃ (i : ℕ) (x : α), r.1 = i ∧ l[i]? = some x ∧ compare x = 0) ∧
      (r.2 = false → r.1 = l.countP fun x => 0 < compare x)

/-- The members that are less than the key are the first ones. -/
theorem countP_eq_of_split (k : ℕ) (hk : k ≤ l.length)
    (hbelow : ∀ (i : ℕ) (x : α), l[i]? = some x → i < k → 0 < compare x)
    (habove : ∀ (i : ℕ) (x : α), l[i]? = some x → k ≤ i → compare x < 0) :
    (l.countP fun x => 0 < compare x) = k ∧ ¬∃ x ∈ l, compare x = 0 := by
  have htake : ∀ x ∈ l.take k, 0 < compare x := by
    intro x hx
    obtain ⟨i, hi⟩ := List.mem_iff_getElem?.mp hx
    obtain ⟨hlt, -⟩ := List.getElem?_eq_some_iff.mp hi
    rw [List.length_take] at hlt
    rw [List.getElem?_take_of_lt (by omega)] at hi
    exact hbelow i x hi (by omega)
  have hdrop : ∀ x ∈ l.drop k, compare x < 0 := by
    intro x hx
    obtain ⟨i, hi⟩ := List.mem_iff_getElem?.mp hx
    rw [List.getElem?_drop] at hi
    exact habove (k + i) x hi (by omega)
  constructor
  · have hfirst : ((l.take k).countP fun x => 0 < compare x) = (l.take k).length :=
      List.countP_eq_length.mpr fun x hx => decide_eq_true (htake x hx)
    have hrest : ((l.drop k).countP fun x => 0 < compare x) = 0 :=
      List.countP_eq_zero.mpr fun x hx => by have := hdrop x hx; simp; omega
    rw [← List.take_append_drop k l, List.countP_append, hfirst, hrest, List.length_take]
    omega
  · rintro ⟨x, hx, hzero⟩
    rw [← List.take_append_drop k l] at hx
    rcases List.mem_append.mp hx with hx | hx
    · have := htake x hx
      omega
    · have := hdrop x hx
      omega

theorem bsearchFinish_ok (h : BsearchInv compare l b) (hcross : b.hi < b.lo) :
    bsearchFinish compare l b = .ok (b.lo, false) := by
  have hlo := h.lo_le
  have hhi := h.hi_lt
  have hhi0 := h.hi_nonneg
  unfold bsearchFinish
  rw [if_neg (by omega)]
  obtain ⟨k, hk⟩ : ∃ k : ℕ, b.lo = k := ⟨b.lo.toNat, by omega⟩
  split
  · obtain ⟨x, hx⟩ : ∃ x, l[k]? = some x := ⟨_, List.getElem?_eq_getElem (show k < l.length by omega)⟩
    have hneg := h.above k x hx (by omega)
    rw [hk, memberAt_eq hx]
    exact if_pos hneg
  · obtain ⟨x, hx⟩ : ∃ x, l[l.length - 1]? = some x :=
      ⟨_, List.getElem?_eq_getElem (show l.length - 1 < l.length by omega)⟩
    have hpos := h.below (l.length - 1) x hx (by omega)
    have hlast : memberAt l (l.length - 1) = some x := by
      rw [← memberAt_eq hx]
      congr
      omega
    rw [hlast]
    exact if_pos hpos

/-- What a search finds out: a match, or the place where one would stand. -/
def Located (compare : α → ℤ) (l : List α) (r : ℕ × Bool) : Prop :=
  (r.2 = true ∧ ∃ x, l[r.1]? = some x ∧ compare x = 0) ∨
    (r.2 = false ∧ (∀ (i : ℕ) (x : α), l[i]? = some x → i < r.1 → 0 < compare x) ∧
      (∀ (i : ℕ) (x : α), l[i]? = some x → r.1 ≤ i → compare x < 0) ∧ r.1 ≤ l.length)

theorem Located.searchOk {r : ℕ × Bool} (h : Located compare l r) : SearchOk compare l (r.1, r.2) := by
  rcases h with ⟨hfound, x, hx, hzero⟩ | ⟨hfound, hbelow, habove, hle⟩
  · refine ⟨iff_of_true hfound ⟨x, List.mem_of_getElem? hx, hzero⟩, fun _ => ⟨r.1, x, rfl, hx, hzero⟩, ?_⟩
    exact fun hnot => absurd (hfound.symm.trans hnot) (by decide)
  · obtain ⟨hcount, hnone⟩ := countP_eq_of_split r.1 hle hbelow habove
    refine ⟨iff_of_false (ne_true_of_eq_false hfound) hnone, ?_, fun _ => by rw [hcount]⟩
    exact fun hnot => absurd (hfound.symm.trans hnot) (by decide)

theorem located_of_endOk {o : BsearchEnd} (h : EndOk compare l o) :
    ∃ r : ℕ × Bool, bsearchResult compare l o = .ok (r.1, r.2) ∧ Located compare l r := by
  cases o with
  | found mid =>
    obtain ⟨i, x, rfl, hx, hzero⟩ := h
    exact ⟨(i, true), rfl, .inl ⟨rfl, x, hx, hzero⟩⟩
  | first =>
    refine ⟨(0, false), rfl, .inr ⟨rfl, ?_, fun i x hx _ => h i x hx, Nat.zero_le _⟩⟩
    exact fun i _ _ hi => absurd hi (Nat.not_lt_zero i)
  | crossed b =>
    obtain ⟨hinv, hcross⟩ := h
    have hlo := hinv.lo_le
    have hhi := hinv.hi_lt
    obtain ⟨k, hk⟩ : ∃ k : ℕ, b.lo = k := ⟨b.lo.toNat, by have := hinv.lo_nonneg; omega⟩
    refine ⟨(k, false), ?_, .inr ⟨rfl, ?_, ?_, ?_⟩⟩
    · rw [bsearchResult, bsearchFinish_ok hinv hcross, hk]
    · exact fun i x hx hi => hinv.below i x hx (by dsimp only at hi; omega)
    · exact fun i x hx hi => hinv.above i x hx (by dsimp only at hi; omega)
    · dsimp only
      omega
  | fault f => exact h.elim

end Invariant

/-- For a list that is sorted for the key, the loop ends after at most as many rounds as there are members, and
one, and no assertion fails. -/
theorem smartlistBsearchIdxIn_located (compare : κ → α → ℤ) (l : List α) (key : κ)
    (hsorted : SortedFor (compare key) l) :
    ∃ r : ℕ × Bool, smartlistBsearchIdxIn compare (l.length + 1) l key = some (.ok (r.1, r.2)) ∧
      Located (compare key) l r := by
  unfold smartlistBsearchIdxIn
  split_ifs with hlen
  · obtain rfl := List.length_eq_zero_iff.mp hlen
    exact ⟨(0, false), rfl, .inr ⟨rfl, by simp, by simp, Nat.zero_le _⟩⟩
  · have hinv : BsearchInv (compare key) l ⟨0, l.length - 1⟩ :=
      { lo_nonneg := le_rfl
        lo_le := by dsimp only; omega
        hi_nonneg := by dsimp only; omega
        hi_lt := by dsimp only; omega
        below := fun i x _ hi => by dsimp only at hi; omega
        above := fun i x hx hi => by
          obtain ⟨hlt, -⟩ := List.getElem?_eq_some_iff.mp hx
          dsimp only at hi
          omega }
    obtain ⟨o, hrun, ho⟩ := exists_halt_of_inv hsorted (l.length + 1) hinv (by dsimp only; omega)
    obtain ⟨r, hr, hloc⟩ := located_of_endOk ho
    rw [hrun]
    dsimp only
    exact ⟨r, by rw [hr], hloc⟩

/-- **Binary search**: for every list that is sorted for the key, the loop ends after at most as many rounds as
there are members, and one; no assertion fails; and the result is right. -/
theorem smartlistBsearchIdx_correct (compare : κ → α → ℤ) (l : List α) (key : κ)
    (hsorted : SortedFor (compare key) l) :
    ∃ r, smartlistBsearchIdxIn compare (l.length + 1) l key = some (.ok r) ∧ SearchOk (compare key) l r := by
  obtain ⟨r, hr, hloc⟩ := smartlistBsearchIdxIn_located compare l key hsorted
  exact ⟨_, hr, hloc.searchOk⟩

/-- The list 1, 3, 3, 5 and the key 3. -/
theorem smartlistBsearchIdx_correct_three :
    ∃ r, smartlistBsearchIdxIn (fun key x : ℤ => key - x) 5 [1, 3, 3, 5] 3 = some (.ok r) ∧
      SearchOk (fun x : ℤ => 3 - x) [1, 3, 3, 5] r :=
  smartlistBsearchIdx_correct (fun key x : ℤ => key - x) [1, 3, 3, 5] 3 (by unfold SortedFor; decide)

/-! ### Lists in the order of their keys -/

section Ordered

variable {compare : α → ℤ} {l : List α}

/-- The members are in the order of their keys, as far as the key that is searched for can tell. -/
def OrderedFor (compare : α → ℤ) (l : List α) : Prop :=
  l.Pairwise fun a b => (compare a ≤ 0 → compare b < 0) ∧ (0 ≤ compare b → 0 < compare a)

theorem OrderedFor.sortedFor (h : OrderedFor compare l) : SortedFor compare l := by
  refine h.imp fun {a b} hab => ?_
  rcases lt_or_ge 0 (compare a) with hpos | hneg
  · rw [Int.sign_eq_one_of_pos hpos]
    rcases Int.sign_trichotomy (compare b) with hb | hb | hb <;> omega
  · rw [Int.sign_eq_neg_one_of_neg (hab.1 hneg)]
    rcases Int.sign_trichotomy (compare a) with ha | ha | ha <;> omega

/-- **Binary search** in a list in the order of its keys. -/
theorem smartlistBsearchIdx_located_of_ordered (hsorted : OrderedFor compare l) :
    Located compare l (smartlistBsearchIdx compare l) := by
  obtain ⟨r, hr, hloc⟩ := smartlistBsearchIdxIn_located (fun _ : Unit => compare) l () hsorted.sortedFor
  rw [smartlistBsearchIdx, hr]
  exact hloc

theorem smartlistBsearchIdx_located (hsorted : l.Pairwise fun a b => compare b < compare a) :
    Located compare l (smartlistBsearchIdx compare l) := by
  refine smartlistBsearchIdx_located_of_ordered (hsorted.imp fun hlt => ?_)
  exact ⟨fun h => by omega, fun h => by omega⟩

end Ordered

end TorEbpf.Container
