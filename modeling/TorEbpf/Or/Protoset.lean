import TorEbpf.Lib.Checked
import Mathlib.Data.List.Destutter
import Mathlib.Tactic.Linarith
import Mathlib.Data.List.Sort

/-!
# Sets of versions

The Rust code keeps the versions of a protocol as a list of ranges, ordered and disjoint.  Its arithmetic is
on 32 bits, where an overflow is a panic; so no range has the last version in it, and there is always a next
one.

* `isOk_iff` — which lists of ranges are well formed;
* `andNotIn_spec` — the difference of two sets;
* `findRangeFrom_spec` — a run of versions that follow each other;
* `ofVec_spec` — the set of the versions in a vector, in as few ranges as can be.
-/

namespace TorEbpf.Or.Protoset

open TorEbpf.Lib

/-! ### Ranges -/

abbrev Version := UInt32

inductive Panic where
  | overflow
  | expect
  | outOfBounds
  | assertion
  deriving DecidableEq, Repr

/-- A computation that can panic; it is rejected if a loop has taken all the steps it may take. -/
abbrev Run (α : Type) := Checked Unit Panic α

/-- `u32::MAX`. -/
def maxVersion : Version := 4294967295

/-- `v + 1`. -/
def next (v : Version) : Run Version := if v = maxVersion then fault .overflow else pure (v + 1)

/-- `v - 1`. -/
def prev (v : Version) : Run Version := if v = 0 then fault .overflow else pure (v - 1)

structure ProtoSet where
  pairs : List (Version × Version)
  deriving DecidableEq, Repr

/-- The errors of `is_ok`. -/
inductive ProtoverError where
  | exceedsMax
  | overlap
  | lowGreaterThanHigh
  deriving DecidableEq, Repr

/-- The loop of `ProtoSet::is_ok`. -/
def isOkFrom (lastHigh : Version) : List (Version × Version) → Except ProtoverError Unit
  | [] => pure ()
  | (low, high) :: pairs =>
      if low = maxVersion ∨ high = maxVersion then .error .exceedsMax
      else if low ≤ lastHigh then .error .overlap
      else if high < low then .error .lowGreaterThanHigh
      else isOkFrom high pairs

/-- `ProtoSet::is_ok`. -/
def isOk (self : ProtoSet) : Except ProtoverError ProtoSet := do
  isOkFrom 0 self.pairs
  return self

/-- `ProtoSet::is_empty`. -/
def isEmpty (self : ProtoSet) : Bool := self.pairs.length = 0

/-- `ProtoSet::contains`. -/
def contains (self : ProtoSet) (version : Version) : Bool :=
  self.pairs.any fun p => p.1 ≤ version && version ≤ p.2

/-! ### The difference -/

/-- What is left of a range between the excluded ranges. -/
def cut (nextlo : Version) : List (Version × Version) → Run (List (Version × Version))
  | [] => pure []
  | (excludedLo, excludedHi) :: excluded => do
      let pair ← if nextlo < excludedLo then do
          let hi ← prev excludedLo
          pure [(nextlo, hi)]
        else pure []
      let nextlo ← next (min excludedHi (maxVersion - 1))
      let rest ← cut nextlo excluded
      return pair ++ rest

/-- The ranges that overlap `lo` to `hi`, out of ordered ones. -/
def overlapping (other : List (Version × Version)) (lo hi : Version) : List (Version × Version) :=
  (other.dropWhile fun p => p.2 < lo).takeWhile fun p => p.1 ≤ hi

/-- One range of `ProtoSet::and_not_in`. -/
def subtract (other : List (Version × Version)) (lo hi : Version) : Run (List (Version × Version)) := do
  let theEnd ← next hi
  cut lo (overlapping other lo hi ++ [(theEnd, theEnd)])

def subtractAll (other : List (Version × Version)) :
    List (Version × Version) → Run (List (Version × Version))
  | [] => pure []
  | (lo, hi) :: pairs => do
      let left ← subtract other lo hi
      let rest ← subtractAll other pairs
      return left ++ rest

/-- `ProtoSet::and_not_in`. -/
def andNotIn (self other : ProtoSet) : Run ProtoSet :=
  if isEmpty self || isEmpty other then pure self
  else do
    let pairs ← subtractAll other.pairs self.pairs
    match isOk ⟨pairs⟩ with
    | .ok s => return s
    | .error _ => fault .expect

/-! ### From a vector -/

def pairLe (p q : Version × Version) : Bool := p.1 < q.1 || (p.1 = q.1 && p.2 ≤ q.2)

/-- `ProtoSet::from_slice`; `dedup` drops the elements that repeat the one in front of them. -/
def fromSlice (lowHighPairs : List (Version × Version)) : Except ProtoverError ProtoSet :=
  isOk ⟨(lowHighPairs.mergeSort pairLe).destutter (· ≠ ·)⟩

def findRangeFrom (rangeEnd : Version) (hasRange : Bool) (index : ℕ) :
    List Version → Run (Bool × Version × ℕ)
  | [] => pure (hasRange, rangeEnd, index)
  | n :: list => do
      let following ← next rangeEnd
      if n ≠ following then return (hasRange, rangeEnd, index)
      else findRangeFrom n true (index + 1) list

def findRange : List Version → Run (Bool × Version × ℕ)
  | [] => pure (false, 0, 0)
  | first :: list => findRangeFrom first false 0 list

/-- The loop of `From<Vec<Version>>`. -/
def fromLoop : ℕ → List Version → List (Version × Version) → Run (List (Version × Version))
  | 0, _, _ => reject ()
  | fuel + 1, v, versionPairs =>
      if v = [] then pure versionPairs
      else do
        let (hasRange, last', index) ← findRange v
        if hasRange then
          match v.head?, v[index]? with
          | some first, some last =>
              if last ≠ last' then fault .assertion
              else if v.length < index + 1 then fault .outOfBounds
              else
                let v := v.drop (index + 1)
                if v = [] then pure (versionPairs ++ [(first, last)])
                else fromLoop fuel v (versionPairs ++ [(first, last)])
          | _, _ => fromLoop fuel v versionPairs
        else
          match v[index]? with
          | some last => fromLoop fuel (v.eraseIdx index) (versionPairs ++ [(last, last)])
          | none => fromLoop fuel v versionPairs

/-- `From<Vec<Version>>`. -/
def ofVec (v : List Version) : Run ProtoSet := do
  let v := (v.mergeSort (· ≤ ·)).destutter (· ≠ ·)
  let versionPairs ← fromLoop (v.length + 1) v []
  return (fromSlice versionPairs).toOption.getD ⟨[]⟩

/-! ### Well-formed sets -/

/-- The ranges are not empty, none has the first or the last number in it, and each is behind the one
in front of it. -/
structure WellFormed (l : List (Version × Version)) : Prop where
  bounds : ∀ p ∈ l, 0 < p.1.toNat ∧ p.1.toNat ≤ p.2.toNat ∧ p.2.toNat < maxVersion.toNat
  sorted : l.Pairwise fun p q => p.2.toNat < q.1.toNat

/-- A number is in one of the ranges. -/
def Covers (l : List (Version × Version)) (n : ℕ) : Prop := ∃ p ∈ l, p.1.toNat ≤ n ∧ n ≤ p.2.toNat

section Basic

variable {l l' : List (Version × Version)} {p : Version × Version} {s s' : ProtoSet} {v w : Version} {n : ℕ}

@[simp] theorem toNat_maxVersion : maxVersion.toNat = 4294967295 := rfl

theorem Covers.nil : ¬Covers [] n := nofun

theorem covers_cons : Covers (p :: l) n ↔ (p.1.toNat ≤ n ∧ n ≤ p.2.toNat) ∨ Covers l n := by
  unfold Covers
  rw [List.exists_mem_cons_iff]

theorem covers_append : Covers (l ++ l') n ↔ Covers l n ∨ Covers l' n := by
  induction l with
  | nil => rw [List.nil_append, or_iff_right Covers.nil]
  | cons p l ih => rw [List.cons_append, covers_cons, covers_cons, ih, or_assoc]

theorem contains_iff : contains s v = true ↔ Covers s.pairs v.toNat := by
  unfold contains Covers
  simp only [List.any_eq_true, Bool.and_eq_true, decide_eq_true_eq, UInt32.le_iff_toNat_le]

theorem isOkFrom_iff {lastHigh : Version} : isOkFrom lastHigh l = .ok () ↔
    (∀ p ∈ l, lastHigh.toNat < p.1.toNat ∧ p.1.toNat ≤ p.2.toNat ∧ p.2.toNat < maxVersion.toNat) ∧
      l.Pairwise fun p q => p.2.toNat < q.1.toNat := by
  induction l generalizing lastHigh with
  | nil => simp [isOkFrom, pure, Except.pure]
  | cons p l ih =>
    obtain ⟨low, high⟩ := p
    have hlt := high.toNat_lt
    rw [isOkFrom, List.forall_mem_cons, List.pairwise_cons]
    simp only [← UInt32.toNat_inj, UInt32.le_iff_toNat_le, UInt32.lt_iff_toNat_lt, toNat_maxVersion] at *
    split_ifs with hmax hlast hlow
    · refine iff_of_false nofun fun h => ?_
      omega
    · refine iff_of_false nofun fun h => ?_
      omega
    · refine iff_of_false nofun fun h => ?_
      omega
    · rw [ih]
      constructor
      · rintro ⟨hbounds, hsorted⟩
        refine ⟨⟨by omega, fun p hp => ?_⟩, fun p hp => (hbounds p hp).1, hsorted⟩
        have hbound := hbounds p hp
        omega
      · rintro ⟨⟨_, hbounds⟩, hhead, hsorted⟩
        exact ⟨fun p hp => ⟨hhead p hp, (hbounds p hp).2⟩, hsorted⟩

/-- **Well-formed sets** are those that `is_ok` accepts. -/
theorem isOk_iff : isOk s = .ok s ↔ WellFormed s.pairs := by
  have hfrom : isOk s = .ok s ↔ isOkFrom 0 s.pairs = .ok () := by
    unfold isOk
    cases isOkFrom 0 s.pairs with
    | error e => exact iff_of_false nofun nofun
    | ok u => exact iff_of_true rfl rfl
  rw [hfrom, isOkFrom_iff]
  exact ⟨fun h => ⟨h.1, h.2⟩, fun h => ⟨h.bounds, h.sorted⟩⟩

theorem next_eq (h : v.toNat < maxVersion.toNat) : ∃ w, next v = .ok w ∧ w.toNat = v.toNat + 1 := by
  have hone : (1 : UInt32).toNat = 1 := rfl
  rw [toNat_maxVersion] at h
  refine ⟨v + 1, if_neg fun heq => ?_, ?_⟩
  · rw [heq, toNat_maxVersion] at h
    omega
  · rw [UInt32.toNat_add, hone, Nat.mod_eq_of_lt (by omega)]

theorem prev_eq (h : 0 < v.toNat) : ∃ w, prev v = .ok w ∧ w.toNat + 1 = v.toNat := by
  have hone : (1 : UInt32).toNat = 1 := rfl
  refine ⟨v - 1, if_neg fun heq => ?_, ?_⟩
  · rw [heq] at h
    cases h
  · rw [UInt32.toNat_sub_of_le v 1 (UInt32.le_iff_toNat_le.mpr (hone.symm ▸ h)), hone]
    omega

/-- The start of what is behind an excluded range; never an overflow. -/
theorem next_min_eq (v : Version) : ∃ w, next (min v (maxVersion - 1)) = .ok w ∧
    (v.toNat < maxVersion.toNat → w.toNat = v.toNat + 1) := by
  have hpred : (maxVersion - 1).toNat = 4294967294 := rfl
  have hmin : (min v (maxVersion - 1)).toNat = min v.toNat 4294967294 := by
    have hdef : min v (maxVersion - 1) = if v ≤ maxVersion - 1 then v else maxVersion - 1 := rfl
    rw [hdef, ← hpred, Nat.min_def]
    simp only [UInt32.le_iff_toNat_le]
    split_ifs <;> rfl
  obtain ⟨w, hw, hvalue⟩ := @next_eq (min v (maxVersion - 1)) (by rw [hmin, toNat_maxVersion]; omega)
  refine ⟨w, hw, fun h => ?_⟩
  rw [toNat_maxVersion] at h
  rw [hvalue, hmin]
  omega

end Basic

/-! ### Differences -/

section Difference

variable {other pairs excluded l : List (Version × Version)} {lo hi theEnd nextlo : Version} {n : ℕ}

theorem cut_cons (nextlo a b : Version) (excluded : List (Version × Version)) :
    ∃ w, (b.toNat < maxVersion.toNat → w.toNat = b.toNat + 1) ∧
      ∀ l, cut w excluded = .ok l → ∃ front, cut nextlo ((a, b) :: excluded) = .ok (front ++ l) ∧
        ((nextlo.toNat < a.toNat ∧ ∃ c, c.toNat + 1 = a.toNat ∧ front = [(nextlo, c)]) ∨
          (a.toNat ≤ nextlo.toNat ∧ front = [])) := by
  obtain ⟨w, hw, hvalue⟩ := next_min_eq b
  refine ⟨w, hvalue, fun l hl => ?_⟩
  rw [cut]
  by_cases hlt : nextlo.toNat < a.toNat
  · obtain ⟨c, hc, hcvalue⟩ := @prev_eq a (by omega)
    refine ⟨[(nextlo, c)], ?_, .inl ⟨hlt, c, hcvalue, rfl⟩⟩
    rw [if_pos (UInt32.lt_iff_toNat_lt.mpr hlt), hc, hw]
    simp only [ok_bind, hl, pure_bind]
    rfl
  · refine ⟨[], ?_, .inr ⟨Nat.le_of_not_lt hlt, rfl⟩⟩
    rw [if_neg fun h => hlt (UInt32.lt_iff_toNat_lt.mp h), hw]
    simp only [ok_bind, hl, pure_bind]
    rfl

/-- **What is left** of a range between the excluded ranges. -/
theorem cut_spec (hend : theEnd.toNat = hi.toNat + 1)
    (hbounds : ∀ e ∈ excluded, e.1.toNat ≤ e.2.toNat ∧ nextlo.toNat ≤ e.2.toNat ∧ e.1.toNat ≤ hi.toNat ∧
      e.2.toNat < maxVersion.toNat)
    (hsorted : excluded.Pairwise fun p q => p.2.toNat < q.1.toNat) :
    ∃ l, cut nextlo (excluded ++ [(theEnd, theEnd)]) = .ok l ∧
      (∀ p ∈ l, nextlo.toNat ≤ p.1.toNat ∧ p.1.toNat ≤ p.2.toNat ∧ p.2.toNat ≤ hi.toNat) ∧
      (l.Pairwise fun p q => p.2.toNat < q.1.toNat) ∧
      ∀ n, Covers l n ↔ nextlo.toNat ≤ n ∧ n ≤ hi.toNat ∧ ¬Covers excluded n := by
  induction excluded generalizing nextlo with
  | nil =>
    obtain ⟨w, _, hcut⟩ := cut_cons nextlo theEnd theEnd []
    obtain ⟨front, hfront, hcases⟩ := hcut [] rfl
    refine ⟨front ++ [], hfront, ?_⟩
    rw [List.append_nil]
    rcases hcases with ⟨hlt, c, hc, rfl⟩ | ⟨hle, rfl⟩
    · refine ⟨fun p hp => ?_, List.pairwise_singleton _ _, fun n => ?_⟩
      · rw [List.mem_singleton.mp hp]
        dsimp only
        omega
      · rw [covers_cons, or_iff_left Covers.nil, and_iff_left Covers.nil]
        dsimp only
        omega
    · refine ⟨nofun, List.Pairwise.nil, fun n => iff_of_false Covers.nil fun h => ?_⟩
      omega
  | cons e excluded ih =>
    obtain ⟨a, b⟩ := e
    obtain ⟨hhead, hbounds⟩ := List.forall_mem_cons.mp hbounds
    obtain ⟨hnext, hsorted⟩ := List.pairwise_cons.mp hsorted
    dsimp only at hhead hnext
    obtain ⟨w, hw, hcut⟩ := cut_cons nextlo a b (excluded ++ [(theEnd, theEnd)])
    have hwvalue := hw hhead.2.2.2
    obtain ⟨l, hl, hlbounds, hlsorted, hlcovers⟩ := @ih w
      (fun e he => by
        have hbound := hbounds e he
        have hafter := hnext e he
        omega) hsorted
    obtain ⟨front, hfront, hcases⟩ := hcut l hl
    refine ⟨front ++ l, hfront, ?_⟩
    have hcovers : ∀ n, Covers ((a, b) :: excluded) n ↔
        (a.toNat ≤ n ∧ n ≤ b.toNat) ∨ Covers excluded n := fun n => covers_cons
    -- what is excluded later is behind this range
    have hlater : ∀ n, Covers excluded n → b.toNat < n := by
      rintro n ⟨e, he, hle, _⟩
      exact Nat.lt_of_lt_of_le (hnext e he) hle
    rcases hcases with ⟨hlt, c, hc, rfl⟩ | ⟨hle, rfl⟩
    · refine ⟨fun p hp => ?_, List.pairwise_cons.mpr ⟨fun p hp => ?_, hlsorted⟩, fun n => ?_⟩
      · rcases List.mem_cons.mp hp with rfl | hp
        · dsimp only
          omega
        · have hbound := hlbounds p hp
          omega
      · have hbound := hlbounds p hp
        dsimp only
        omega
      · rw [List.singleton_append, covers_cons, hlcovers, hcovers]
        have hlate := hlater n
        dsimp only
        by_cases hex : Covers excluded n
        · simp only [hex, forall_const] at hlate
          simp only [hex, or_true, not_true_eq_false, and_false, or_false, iff_false]
          omega
        · simp only [hex, or_false, not_false_eq_true, and_true]
          omega
    · refine ⟨fun p hp => ?_, hlsorted, fun n => ?_⟩
      · have hbound := hlbounds p hp
        omega
      · rw [List.nil_append, hlcovers, hcovers]
        have hlate := hlater n
        by_cases hex : Covers excluded n
        · simp only [hex, or_true, not_true_eq_false, and_false]
        · simp only [hex, or_false, not_false_eq_true, and_true]
          omega

theorem overlapping_sublist (other : List (Version × Version)) (lo hi : Version) :
    (overlapping other lo hi).Sublist other :=
  (List.takeWhile_sublist _).trans (List.dropWhile_sublist _)

theorem mem_overlapping (hother : WellFormed other) {e : Version × Version} :
    e ∈ overlapping other lo hi ↔ e ∈ other ∧ lo.toNat ≤ e.2.toNat ∧ e.1.toNat ≤ hi.toNat := by
  obtain ⟨hbounds, hsorted⟩ := hother
  have htake : ∀ l : List (Version × Version), (∀ p ∈ l, p.1.toNat ≤ p.2.toNat) →
      (l.Pairwise fun p q => p.2.toNat < q.1.toNat) →
      (e ∈ l.takeWhile (fun p => p.1 ≤ hi) ↔ e ∈ l ∧ e.1.toNat ≤ hi.toNat) := by
    intro l hl hlsorted
    induction l with
    | nil => simp
    | cons p l ih =>
      obtain ⟨hnext, hlsorted⟩ := List.pairwise_cons.mp hlsorted
      obtain ⟨hp, hl⟩ := List.forall_mem_cons.mp hl
      rw [List.takeWhile_cons]
      by_cases hle : p.1.toNat ≤ hi.toNat
      · rw [if_pos (decide_eq_true (UInt32.le_iff_toNat_le.mpr hle)), List.mem_cons, List.mem_cons,
          ih hl hlsorted]
        constructor
        · rintro (rfl | h)
          · exact ⟨.inl rfl, hle⟩
          · exact ⟨.inr h.1, h.2⟩
        · rintro ⟨rfl | h, hhi⟩
          · exact .inl rfl
          · exact .inr ⟨h, hhi⟩
      · rw [if_neg (by rw [decide_eq_true_eq, UInt32.le_iff_toNat_le]; exact hle)]
        refine iff_of_false List.not_mem_nil ?_
        rintro ⟨hmem, hhi⟩
        rcases List.mem_cons.mp hmem with rfl | hmem
        · exact hle hhi
        · have hafter := hnext e hmem
          omega
  have hdrop : ∀ l : List (Version × Version), (∀ p ∈ l, p.1.toNat ≤ p.2.toNat) →
      (l.Pairwise fun p q => p.2.toNat < q.1.toNat) →
      (e ∈ l.dropWhile (fun p => p.2 < lo) ↔ e ∈ l ∧ lo.toNat ≤ e.2.toNat) := by
    intro l hl hlsorted
    induction l with
    | nil => simp
    | cons p l ih =>
      obtain ⟨hnext, hlsorted⟩ := List.pairwise_cons.mp hlsorted
      obtain ⟨hp, hl⟩ := List.forall_mem_cons.mp hl
      rw [List.dropWhile_cons]
      by_cases hlt : p.2.toNat < lo.toNat
      · rw [if_pos (decide_eq_true (UInt32.lt_iff_toNat_lt.mpr hlt)), ih hl hlsorted, List.mem_cons]
        constructor
        · exact fun h => ⟨.inr h.1, h.2⟩
        · rintro ⟨rfl | h, hlo⟩
          · exact absurd hlt (Nat.not_lt.mpr hlo)
          · exact ⟨h, hlo⟩
      · rw [if_neg (by rw [decide_eq_true_eq, UInt32.lt_iff_toNat_lt]; exact hlt)]
        refine ⟨fun h => ⟨h, ?_⟩, fun h => h.1⟩
        rcases List.mem_cons.mp h with rfl | hmem
        · exact Nat.le_of_not_lt hlt
        · have hafter := hnext e hmem
          have hrange := hl e hmem
          omega
  have hrange : ∀ p ∈ other, p.1.toNat ≤ p.2.toNat := fun p hp => (hbounds p hp).2.1
  have hsub := List.dropWhile_sublist (l := other) fun p => p.2 < lo
  rw [overlapping, htake _ (fun p hp => hrange p (hsub.subset hp)) (hsorted.sublist hsub),
    hdrop _ hrange hsorted, and_assoc]

/-- **One range**: it is taken apart without a panic, and what is left are its versions that the other set
does not have. -/
theorem subtract_spec (hother : WellFormed other) (hhi : hi.toNat < maxVersion.toNat) :
    ∃ l, subtract other lo hi = .ok l ∧
      (∀ p ∈ l, lo.toNat ≤ p.1.toNat ∧ p.1.toNat ≤ p.2.toNat ∧ p.2.toNat ≤ hi.toNat) ∧
      (l.Pairwise fun p q => p.2.toNat < q.1.toNat) ∧
      ∀ n, Covers l n ↔ lo.toNat ≤ n ∧ n ≤ hi.toNat ∧ ¬Covers other n := by
  obtain ⟨theEnd, hend, hvalue⟩ := next_eq hhi
  have hbounds : ∀ e ∈ overlapping other lo hi, e.1.toNat ≤ e.2.toNat ∧ lo.toNat ≤ e.2.toNat ∧
      e.1.toNat ≤ hi.toNat ∧ e.2.toNat < maxVersion.toNat := by
    intro e he
    obtain ⟨hmem, hlo, hhi⟩ := (mem_overlapping hother).mp he
    have hbound := hother.bounds e hmem
    exact ⟨hbound.2.1, hlo, hhi, hbound.2.2⟩
  obtain ⟨l, hl, hlbounds, hlsorted, hlcovers⟩ := cut_spec hvalue hbounds
    (hother.sorted.sublist (overlapping_sublist other lo hi))
  refine ⟨l, ?_, hlbounds, hlsorted, fun n => ?_⟩
  · rw [subtract, hend, ok_bind, hl]
  · rw [hlcovers]
    refine and_congr_right fun hlon => and_congr_right fun hnhi => not_congr ?_
    constructor
    · rintro ⟨e, he, hin⟩
      exact ⟨e, (overlapping_sublist other lo hi).subset he, hin⟩
    · rintro ⟨e, he, hin⟩
      exact ⟨e, (mem_overlapping hother).mpr ⟨he, by omega, by omega⟩, hin⟩

theorem subtractAll_spec (hother : WellFormed other) (hpairs : WellFormed pairs) :
    ∃ l, subtractAll other pairs = .ok l ∧ WellFormed l ∧
      (∀ p ∈ l, ∃ q ∈ pairs, q.1.toNat ≤ p.1.toNat) ∧
      ∀ n, Covers l n ↔ Covers pairs n ∧ ¬Covers other n := by
  induction pairs with
  | nil =>
    exact ⟨[], rfl, ⟨nofun, List.Pairwise.nil⟩, nofun,
      fun n => iff_of_false Covers.nil fun h => Covers.nil h.1⟩
  | cons p pairs ih =>
    obtain ⟨lo, hi⟩ := p
    obtain ⟨hbounds, hsorted⟩ := hpairs
    obtain ⟨hhead, hbounds⟩ := List.forall_mem_cons.mp hbounds
    obtain ⟨hnext, hsorted⟩ := List.pairwise_cons.mp hsorted
    dsimp only at hhead hnext
    obtain ⟨front, hfront, hfbounds, hfsorted, hfcovers⟩ := subtract_spec hother hhead.2.2
    obtain ⟨l, hl, hwell, hfrom, hcovers⟩ := ih ⟨hbounds, hsorted⟩
    refine ⟨front ++ l, ?_, ⟨fun p hp => ?_, ?_⟩, fun p hp => ?_, fun n => ?_⟩
    · rw [subtractAll, hfront, ok_bind, hl]
      rfl
    · rcases List.mem_append.mp hp with hp | hp
      · have hbound := hfbounds p hp
        omega
      · exact hwell.bounds p hp
    · refine List.pairwise_append.mpr ⟨hfsorted, hwell.sorted, fun p hp q hq => ?_⟩
      have hbound := hfbounds p hp
      obtain ⟨r, hr, hle⟩ := hfrom q hq
      have hafter := hnext r hr
      omega
    · rcases List.mem_append.mp hp with hp | hp
      · exact ⟨(lo, hi), List.mem_cons_self, (hfbounds p hp).1⟩
      · obtain ⟨r, hr, hle⟩ := hfrom p hp
        exact ⟨r, List.mem_cons_of_mem _ hr, hle⟩
    · rw [covers_append, hfcovers, hcovers, covers_cons, or_and_right, and_assoc]

/-- **The difference** of well-formed sets. -/
theorem andNotIn_spec {a b : ProtoSet} (ha : WellFormed a.pairs) (hb : WellFormed b.pairs) :
    ∃ c, andNotIn a b = .ok c ∧ WellFormed c.pairs ∧
      ∀ n, Covers c.pairs n ↔ Covers a.pairs n ∧ ¬Covers b.pairs n := by
  unfold andNotIn
  by_cases hempty : (isEmpty a || isEmpty b) = true
  · rw [if_pos hempty]
    refine ⟨a, rfl, ha, fun n => ?_⟩
    rcases Bool.or_eq_true_iff.mp hempty with h | h
    · have hnil := List.eq_nil_of_length_eq_zero (of_decide_eq_true h)
      rw [hnil]
      exact iff_of_false Covers.nil fun h => Covers.nil h.1
    · have hnil := List.eq_nil_of_length_eq_zero (of_decide_eq_true h)
      rw [hnil, and_iff_left Covers.nil]
  · rw [if_neg hempty]
    obtain ⟨l, hl, hwell, _, hcovers⟩ := subtractAll_spec hb ha
    have hok : isOk ⟨l⟩ = .ok ⟨l⟩ := isOk_iff.mpr hwell
    refine ⟨⟨l⟩, ?_, hwell, hcovers⟩
    rw [hl, ok_bind, hok]
    rfl

end Difference

/-! ### The set of a vector -/

section FromVec

variable {v list : List Version} {first rangeEnd : Version} {fuel index : ℕ} {hasRange : Bool}
  {versionPairs : List (Version × Version)}

/-- In order, and without the numbers that cannot be in a set. -/
structure Increasing (v : List Version) : Prop where
  bounds : ∀ x ∈ v, 0 < x.toNat ∧ x.toNat < maxVersion.toNat
  sorted : v.Pairwise fun x y => x.toNat < y.toNat

theorem Increasing.tail (h : Increasing (first :: v)) : Increasing v :=
  ⟨fun x hx => h.bounds x (List.mem_cons_of_mem first hx), (List.pairwise_cons.mp h.sorted).2⟩

/-- **A run**: what follows each other without a gap, up to a number that is further away. -/
theorem findRangeFrom_spec (h : Increasing (rangeEnd :: list)) :
    ∃ run rest last, list = run ++ rest ∧
      findRangeFrom rangeEnd hasRange index list
        = .ok (hasRange || decide (run ≠ []), last, index + run.length) ∧
      run.map UInt32.toNat = List.range' (rangeEnd.toNat + 1) run.length ∧
      (rangeEnd :: run)[run.length]? = some last ∧ last.toNat = rangeEnd.toNat + run.length ∧
      ∀ n ∈ rest, last.toNat + 1 < n.toNat := by
  induction list generalizing rangeEnd hasRange index with
  | nil =>
    refine ⟨[], [], rangeEnd, rfl, ?_, rfl, rfl, rfl, nofun⟩
    rw [findRangeFrom]
    simp [pure, Except.pure]
  | cons n list ih =>
    obtain ⟨following, hfollowing, hvalue⟩ := next_eq (h.bounds rangeEnd List.mem_cons_self).2
    have hlt := (List.pairwise_cons.mp h.sorted).1 n List.mem_cons_self
    rw [findRangeFrom, hfollowing, ok_bind]
    by_cases heq : n = following
    · obtain ⟨run, rest, last, rfl, hrun, hvalues, hlast, hlastValue, hrest⟩ :=
        @ih n (index + 1) true h.tail
      have hn : n.toNat = rangeEnd.toNat + 1 := by rw [heq, hvalue]
      refine ⟨n :: run, rest, last, rfl, ?_, ?_, hlast, ?_, hrest⟩
      · rw [if_neg (not_not.mpr heq), hrun, List.length_cons]
        simp only [Bool.true_or, ne_eq, reduceCtorEq, not_false_eq_true, decide_true, Bool.or_true]
        rw [Nat.add_assoc, Nat.add_comm 1]
      · rw [List.map_cons, hvalues, hn, List.length_cons, List.range'_succ]
      · rw [hlastValue, hn, List.length_cons]
        omega
    · refine ⟨[], n :: list, rangeEnd, rfl, ?_, rfl, rfl, rfl, fun m hm => ?_⟩
      · rw [if_pos heq]
        simp [pure, Except.pure]
      · have hgap : n.toNat ≠ rangeEnd.toNat + 1 := fun h => heq (UInt32.toNat_inj.mp (by rw [h, hvalue]))
        rcases List.mem_cons.mp hm with rfl | hm
        · omega
        · have hafter := (List.pairwise_cons.mp h.tail.sorted).1 m hm
          omega

theorem fromLoop_nil (hfuel : 0 < fuel) : fromLoop fuel [] versionPairs = .ok versionPairs := by
  obtain ⟨n, rfl⟩ : ∃ n, fuel = n + 1 := ⟨fuel - 1, by omega⟩
  rfl

/-- **A step of the loop** takes one run. -/
theorem fromLoop_cons (h : Increasing (first :: list)) (hfuel : 0 < fuel) :
    ∃ run rest last, list = run ++ rest ∧
      fromLoop (fuel + 1) (first :: list) versionPairs
        = fromLoop fuel rest (versionPairs ++ [(first, last)]) ∧
      run.map UInt32.toNat = List.range' (first.toNat + 1) run.length ∧
      last ∈ first :: run ∧ last.toNat = first.toNat + run.length ∧
      ∀ n ∈ rest, last.toNat + 1 < n.toNat := by
  obtain ⟨run, rest, last, rfl, hrun, hvalues, hlast, hlastValue, hrest⟩ :=
    @findRangeFrom_spec list first 0 false h
  refine ⟨run, rest, last, rfl, ?_, hvalues, List.mem_of_getElem? hlast, hlastValue, hrest⟩
  have hfind : findRange (first :: (run ++ rest)) = .ok (decide (run ≠ []), last, run.length) := by
    rw [findRange, hrun, Bool.false_or, Nat.zero_add]
  have hget : (first :: (run ++ rest))[run.length]? = some last := by
    rw [← List.cons_append, List.getElem?_append_left (by rw [List.length_cons]; omega), hlast]
  rw [fromLoop, if_neg (List.cons_ne_nil first _), hfind, ok_bind]
  dsimp only
  rw [hget]
  by_cases hnil : run = []
  · subst hnil
    obtain rfl : first = last := Option.some.inj hlast
    rw [if_neg (by simp)]
    rfl
  · have hdrop : (first :: (run ++ rest)).drop (run.length + 1) = rest := by
      rw [List.drop_succ_cons, List.drop_left]
    rw [if_pos (decide_eq_true hnil), List.head?_cons]
    dsimp only
    rw [if_neg (not_not.mpr rfl), if_neg (by rw [List.length_cons, List.length_append]; omega), hdrop]
    by_cases hend : rest = []
    · rw [if_pos hend, hend, fromLoop_nil hfuel]
      rfl
    · rw [if_neg hend]

/-- The versions of a run are the numbers from the first to the last. -/
theorem exists_mem_run {run : List Version} {last : Version} {n : ℕ}
    (hvalues : run.map UInt32.toNat = List.range' (first.toNat + 1) run.length)
    (hlast : last.toNat = first.toNat + run.length) :
    (∃ x ∈ first :: run, x.toNat = n) ↔ first.toNat ≤ n ∧ n ≤ last.toNat := by
  have hmem : (∃ x ∈ run, x.toNat = n) ↔ n ∈ run.map UInt32.toNat := by
    rw [List.mem_map]
  rw [List.exists_mem_cons_iff, hmem, hvalues, List.mem_range'_1, hlast]
  omega

/-- **The loop** ends, and its ranges have the versions of the vector, with a gap between each two. -/
theorem fromLoop_spec (h : Increasing v) (hfuel : v.length < fuel) :
    ∃ l, fromLoop fuel v versionPairs = .ok (versionPairs ++ l) ∧
      (∀ p ∈ l, p.1 ∈ v ∧ p.2 ∈ v ∧ p.1.toNat ≤ p.2.toNat) ∧
      (l.Pairwise fun p q => p.2.toNat + 1 < q.1.toNat) ∧ ∀ n, Covers l n ↔ ∃ x ∈ v, x.toNat = n := by
  induction fuel generalizing v versionPairs with
  | zero => omega
  | succ fuel ih =>
    cases v with
    | nil =>
      refine ⟨[], ?_, nofun, List.Pairwise.nil, fun n => iff_of_false Covers.nil nofun⟩
      rw [fromLoop_nil hfuel, List.append_nil]
    | cons first list =>
      rw [List.length_cons] at hfuel
      obtain ⟨run, rest, last, rfl, hstep, hvalues, hmem, hlastValue, hrest⟩ :=
        @fromLoop_cons list first fuel versionPairs h (by omega)
      have htail : Increasing rest := by
        have hsub : rest.Sublist (first :: (run ++ rest)) :=
          (List.sublist_append_right run rest).trans (List.sublist_cons_self first _)
        exact ⟨fun x hx => h.bounds x (hsub.subset hx), h.sorted.sublist hsub⟩
      obtain ⟨l, hl, hlmem, hlsorted, hlcovers⟩ := @ih rest (versionPairs ++ [(first, last)]) htail
        (by rw [List.length_append] at hfuel; omega)
      refine ⟨(first, last) :: l, ?_, fun p hp => ?_, List.pairwise_cons.mpr ⟨fun p hp => ?_, hlsorted⟩,
        fun n => ?_⟩
      · rw [hstep, hl, List.append_assoc]
        rfl
      · rw [← List.cons_append]
        rcases List.mem_cons.mp hp with rfl | hp
        · exact ⟨List.mem_append_left _ List.mem_cons_self, List.mem_append_left _ hmem, by
            dsimp only
            omega⟩
        · obtain ⟨hfst, hsnd, hle⟩ := hlmem p hp
          exact ⟨List.mem_append_right _ hfst, List.mem_append_right _ hsnd, hle⟩
      · exact hrest p.1 (hlmem p hp).1
      · rw [covers_cons, hlcovers, ← exists_mem_run hvalues hlastValue, ← List.cons_append]
        simp only [List.mem_append, or_and_right, exists_or]

/-- Ranges in order are left as they are by `from_slice`. -/
theorem fromSlice_eq {l : List (Version × Version)} (h : WellFormed l) : fromSlice l = .ok ⟨l⟩ := by
  have hlt : l.Pairwise fun p q => p.1.toNat < q.1.toNat := by
    refine h.sorted.imp_of_mem fun hp _ hpq => ?_
    have hbound := h.bounds _ hp
    omega
  have hsort : l.mergeSort pairLe = l := by
    refine List.mergeSort_of_pairwise (hlt.imp fun {p q} hpq => ?_)
    rw [pairLe, decide_eq_true (UInt32.lt_iff_toNat_lt.mpr hpq), Bool.true_or]
  have hdistinct : l.Pairwise (· ≠ ·) := by
    refine hlt.imp fun {p q} hpq heq => ?_
    rw [heq] at hpq
    exact Nat.lt_irrefl _ hpq
  rw [fromSlice, hsort, List.destutter_of_isChain _ _ hdistinct.isChain]
  exact isOk_iff.mpr h

theorem increasing_sort (hv : ∀ x ∈ v, 0 < x.toNat ∧ x.toNat < maxVersion.toNat) :
    Increasing ((v.mergeSort (· ≤ ·)).destutter (· ≠ ·)) ∧
      ∀ x, x ∈ (v.mergeSort (· ≤ ·)).destutter (· ≠ ·) ↔ x ∈ v := by
  have hsorted : (v.mergeSort (· ≤ ·)).Pairwise (· ≤ ·) := List.pairwise_mergeSort' (· ≤ ·) v
  have hdedup : (v.mergeSort (· ≤ ·)).destutter (· ≠ ·) = (v.mergeSort (· ≤ ·)).dedup :=
    hsorted.destutter_eq_dedup
  have hmem : ∀ x, x ∈ (v.mergeSort (· ≤ ·)).dedup ↔ x ∈ v := fun x => by
    rw [List.mem_dedup, List.mem_mergeSort]
  rw [hdedup]
  refine ⟨⟨fun x hx => hv x ((hmem x).mp hx), ?_⟩, hmem⟩
  have hle := hsorted.sublist (List.dedup_sublist (v.mergeSort (· ≤ ·)))
  refine (hle.and (List.nodup_dedup _)).imp fun {x y} hxy => ?_
  have hne : x.toNat ≠ y.toNat := fun heq => hxy.2 (UInt32.toNat_inj.mp heq)
  have hxyle := UInt32.le_iff_toNat_le.mp hxy.1
  omega

/-- **The set of a vector**, in ranges that cannot be joined. -/
theorem ofVec_spec (hv : ∀ x ∈ v, 0 < x.toNat ∧ x.toNat < maxVersion.toNat) :
    ∃ c, ofVec v = .ok c ∧ WellFormed c.pairs ∧ (c.pairs.Pairwise fun p q => p.2.toNat + 1 < q.1.toNat) ∧
      ∀ x, Covers c.pairs x ↔ ∃ y ∈ v, y.toNat = x := by
  obtain ⟨hincreasing, hmem⟩ := increasing_sort hv
  obtain ⟨l, hl, hlmem, hgaps, hcovers⟩ :=
    @fromLoop_spec _ ((v.mergeSort (· ≤ ·)).destutter (· ≠ ·)).length.succ [] hincreasing (Nat.lt_succ_self _)
  have hwell : WellFormed l := by
    refine ⟨fun p hp => ?_, hgaps.imp fun {p q} h => by omega⟩
    obtain ⟨hfst, hsnd, hle⟩ := hlmem p hp
    exact ⟨(hincreasing.bounds _ hfst).1, hle, (hincreasing.bounds _ hsnd).2⟩
  refine ⟨⟨l⟩, ?_, hwell, hgaps, fun x => ?_⟩
  · unfold ofVec
    dsimp only
    rw [List.nil_append] at hl
    rw [← Nat.succ_eq_add_one, hl, ok_bind, fromSlice_eq hwell]
    rfl
  · rw [hcovers]
    simp only [hmem]

end FromVec

/-- **The algebra of sets.**  The difference of two sets that are well formed is one too, and has the versions
of the first that the second does not have; the set of a vector is well formed and in as few ranges as can
be, and has the versions of the vector. -/
theorem protoset_spec :
    (∀ a b : ProtoSet, isOk a = .ok a → isOk b = .ok b →
      ∃ c, andNotIn a b = .ok c ∧ isOk c = .ok c ∧
        ∀ v, contains c v = true ↔ contains a v = true ∧ contains b v = false) ∧
    ∀ v : List Version, (∀ x ∈ v, 1 ≤ x ∧ x ≤ maxVersion - 1) →
      ∃ c, ofVec v = .ok c ∧ isOk c = .ok c ∧ (c.pairs.Pairwise fun p q => p.2 + 1 < q.1) ∧
        ∀ x, contains c x = true ↔ x ∈ v := by
  constructor
  · intro a b ha hb
    obtain ⟨c, hc, hwell, hcovers⟩ := andNotIn_spec (isOk_iff.mp ha) (isOk_iff.mp hb)
    refine ⟨c, hc, isOk_iff.mpr hwell, fun v => ?_⟩
    rw [← Bool.not_eq_true, contains_iff, contains_iff, contains_iff, hcovers]
  · intro v hv
    have hone : (1 : UInt32).toNat = 1 := rfl
    have hpred : (maxVersion - 1).toNat = 4294967294 := rfl
    have hbounds : ∀ x ∈ v, 0 < x.toNat ∧ x.toNat < maxVersion.toNat := by
      intro x hx
      obtain ⟨hlow, hhigh⟩ := hv x hx
      rw [UInt32.le_iff_toNat_le] at hlow hhigh
      rw [toNat_maxVersion]
      omega
    obtain ⟨c, hc, hwell, hgaps, hcovers⟩ := ofVec_spec hbounds
    refine ⟨c, hc, isOk_iff.mpr hwell, hgaps.imp_of_mem fun {p q} hp _ hpq => ?_, fun x => ?_⟩
    · have hbound := (hwell.bounds p hp).2.2
      rw [toNat_maxVersion] at hbound
      rw [UInt32.lt_iff_toNat_lt, UInt32.toNat_add, hone, Nat.mod_eq_of_lt (by omega)]
      exact hpq
    · rw [contains_iff, hcovers]
      simp only [UInt32.toNat_inj, exists_eq_right]

/-- From 1 to 3 without 2, and the set of 5, 4, 1 and 4. -/
theorem protoset_spec_example :
    (∃ c, andNotIn ⟨[(1, 3)]⟩ ⟨[(2, 2)]⟩ = .ok c ∧ isOk c = .ok c ∧
      ∀ v, contains c v = true ↔ contains ⟨[(1, 3)]⟩ v = true ∧ contains ⟨[(2, 2)]⟩ v = false) ∧
    ∃ c, ofVec [5, 4, 1, 4] = .ok c ∧ isOk c = .ok c ∧ (c.pairs.Pairwise fun p q => p.2 + 1 < q.1) ∧
      ∀ x, contains c x = true ↔ x ∈ [5, 4, 1, 4] := by
  refine ⟨protoset_spec.1 ⟨[(1, 3)]⟩ ⟨[(2, 2)]⟩ rfl rfl, protoset_spec.2 [5, 4, 1, 4] ?_⟩
  intro x hx
  simp only [List.mem_cons, List.not_mem_nil, or_false] at hx
  obtain rfl | rfl | rfl | rfl := hx <;> decide

end TorEbpf.Or.Protoset
