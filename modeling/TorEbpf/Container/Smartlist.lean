import Mathlib
import TorEbpf.Lib.Sorting

/-!
# Sorted lists

`smartlist_get_most_frequent_` and `smartlist_uniq` of `smartlist.c` scan a sorted list for runs of
elements that compare equal.

* `isWinner_mostFrequent` — the first of them finds the element that occurs most, the largest of those if
  there are several, and how often it occurs;
* `smartlistUniq_pairwise`, `exists_mem_smartlistUniq` — the second leaves one element of every run.
-/

namespace TorEbpf.Container

open TorEbpf.Lib

variable {α : Type*}

/-! ### The most frequent member -/

/-- The local variables of `smartlist_get_most_frequent_`. -/
structure Scan (α : Type*) where
  mostFrequent : Option α
  mostFrequentCount : ℕ
  cur : Option α
  count : ℕ

/-- The run that ends here may be the longest. -/
def Scan.close (s : Scan α) : Scan α :=
  match s.cur with
  | some cur =>
      if s.mostFrequentCount ≤ s.count then
        { s with mostFrequent := some cur, mostFrequentCount := s.count }
      else s
  | none => s

def Scan.step (cmp : α → α → Ordering) (s : Scan α) (item : α) : Scan α :=
  match s.cur with
  | some cur =>
      if cmp cur item = .eq then { s with count := s.count + 1 }
      else { s.close with cur := some item, count := 1 }
  | none => { s with cur := some item, count := 1 }

/-- `smartlist_get_most_frequent_`: the member, and `count_out`. -/
def smartlistGetMostFrequent (cmp : α → α → Ordering) (sl : List α) : Option α × ℕ :=
  let s := (sl.foldl (Scan.step cmp) ⟨none, 0, none, 0⟩).close
  (s.mostFrequent, s.mostFrequentCount)

/-- How many members compare equal to `a`. -/
def tally (cmp : α → α → Ordering) (l : List α) (a : α) : ℕ := l.countP fun x => cmp x a == .eq

/-- `a` stands in front of its equals and there are `c` of them; others are fewer, or as many and
smaller. -/
structure IsWinner (cmp : α → α → Ordering) (l : List α) (a : α) (c : ℕ) : Prop where
  first : l.find? (fun x => cmp x a == .eq) = some a
  count : c = tally cmp l a
  most : ∀ y ∈ l, tally cmp l y < c ∨ tally cmp l y = c ∧ (cmp y a).isLE = true

/-- The longest run among those that have ended. -/
def Leads (cmp : α → α → Ordering) (l : List α) (m : Option α) (c : ℕ) : Prop :=
  (l = [] ∧ m = none ∧ c = 0) ∨ ∃ x, m = some x ∧ IsWinner cmp l x c

structure At (cmp : α → α → Ordering) (l pre : List α) (a : α) (grp : List α) (s : Scan α) :
    Prop where
  eq : l = pre ++ a :: grp
  cur : s.cur = some a
  count : s.count = grp.length + 1
  run : ∀ y ∈ grp, cmp y a = .eq
  below : ∀ y ∈ pre, cmp y a = .lt
  best : Leads cmp pre s.mostFrequent s.mostFrequentCount

variable {cmp : α → α → Ordering}

theorem tally_append (l l' : List α) (a : α) :
    tally cmp (l ++ l') a = tally cmp l a + tally cmp l' a := List.countP_append

theorem tally_eq_zero {l : List α} {a : α} (h : ∀ x ∈ l, cmp x a ≠ .eq) : tally cmp l a = 0 := by
  rw [tally, List.countP_eq_zero]
  intro x hx
  simpa using h x hx

theorem tally_perm {l l' : List α} (h : l.Perm l') (a : α) : tally cmp l a = tally cmp l' a :=
  h.countP_eq _

theorem IsWinner.mem {l : List α} {a : α} {c : ℕ} (h : IsWinner cmp l a c) : a ∈ l :=
  List.mem_of_find?_eq_some h.first

variable [Std.TransCmp cmp]

theorem tally_congr {a b : α} (l : List α) (h : cmp a b = .eq) : tally cmp l a = tally cmp l b := by
  unfold tally
  congr 1
  funext x
  rw [Std.TransCmp.congr_right h]

structure LastRun (cmp : α → α → Ordering) (l pre : List α) (a : α) (grp : List α) : Prop where
  eq : l = pre ++ a :: grp
  run : ∀ y ∈ grp, cmp y a = .eq
  below : ∀ y ∈ pre, cmp y a = .lt

section LastRun

variable {l pre grp : List α} {cur x y : α}

theorem LastRun.eq_of_mem (h : LastRun cmp l pre cur grp) (hy : y ∈ cur :: grp) : cmp y cur = .eq := by
  rcases List.mem_cons.mp hy with rfl | hy
  · exact Std.ReflCmp.compare_self
  · exact h.run y hy

omit [Std.TransCmp cmp] in
theorem LastRun.mem (h : LastRun cmp l pre cur grp) : cur ∈ l := by
  rw [h.eq]
  simp

omit [Std.TransCmp cmp] in
theorem LastRun.mem_iff (h : LastRun cmp l pre cur grp) : y ∈ l ↔ y ∈ pre ∨ y ∈ cur :: grp := by
  rw [h.eq, List.mem_append]

/-- The last run is where all that are equal to its first member stand. -/
theorem LastRun.tally_self (h : LastRun cmp l pre cur grp) : tally cmp l cur = grp.length + 1 := by
  rw [h.eq, tally_append, tally_eq_zero fun x hx => by rw [h.below x hx]; exact Ordering.noConfusion,
    Nat.zero_add, tally, List.countP_eq_length.mpr fun x hx => by simp [h.eq_of_mem hx], List.length_cons]

theorem LastRun.tally_run (h : LastRun cmp l pre cur grp) (hy : y ∈ cur :: grp) :
    tally cmp l y = grp.length + 1 := by
  rw [tally_congr l (h.eq_of_mem hy), h.tally_self]

/-- In the last run there is none of what is in front of it. -/
theorem LastRun.tally_pre (h : LastRun cmp l pre cur grp) (hy : y ∈ pre) :
    tally cmp l y = tally cmp pre y := by
  have hlt : ∀ z ∈ cur :: grp, cmp z y ≠ .eq := by
    intro z hz heq
    have hyc := h.below y hy
    rw [← Std.TransCmp.congr_left heq, h.eq_of_mem hz] at hyc
    cases hyc
  rw [h.eq, tally_append, tally_eq_zero hlt, Nat.add_zero]

theorem LastRun.snoc (h : LastRun cmp l pre cur grp) (heq : cmp cur x = .eq) :
    LastRun cmp (l ++ [x]) pre cur (grp ++ [x]) where
  eq := by rw [h.eq, List.append_assoc, List.cons_append]
  run y hy := by
    rcases List.mem_append.mp hy with hy | hy
    · exact h.run y hy
    · rw [List.mem_singleton.mp hy, Std.OrientedCmp.eq_comm]
      exact heq
  below := h.below

theorem LastRun.next (h : LastRun cmp l pre cur grp) (hne : cmp cur x ≠ .eq) (hle : (cmp cur x).isLE = true) :
    LastRun cmp (l ++ [x]) l x [] where
  eq := rfl
  run := by simp
  below y hy := by
    have hcurx : cmp cur x = .lt := by
      revert hle hne
      cases cmp cur x <;> simp
    rcases h.mem_iff.mp hy with hy | hy
    · exact Std.TransCmp.lt_trans (h.below y hy) hcurx
    · rw [Std.TransCmp.congr_left (h.eq_of_mem hy), hcurx]

omit [Std.TransCmp cmp] in
theorem lastRun_singleton (x : α) : LastRun cmp [x] [] x [] := ⟨rfl, by simp, by simp⟩

end LastRun

omit [Std.TransCmp cmp] in
theorem At.lastRun {l pre grp : List α} {cur : α} {s : Scan α} (h : At cmp l pre cur grp s) :
    LastRun cmp l pre cur grp := ⟨h.eq, h.run, h.below⟩

/-- **Closing** the last run: what has been found is the winner. -/
theorem At.isWinner {l pre grp : List α} {cur : α} {s : Scan α} (h : At cmp l pre cur grp s) :
    ∃ x, s.close.mostFrequent = some x ∧ IsWinner cmp l x s.close.mostFrequentCount := by
  have hrun := h.lastRun
  have htcur : tally cmp l cur = s.count := by rw [hrun.tally_self, h.count]
  have hprefind : pre.find? (fun x => cmp x cur == .eq) = none := by
    rw [List.find?_eq_none]
    intro x hx
    simp [h.below x hx]
  unfold Scan.close
  rw [h.cur]
  dsimp only
  split_ifs with hle
  · refine ⟨cur, rfl, ?_, htcur.symm, ?_⟩
    · rw [h.eq, List.find?_append, hprefind, Option.none_or, List.find?_cons_of_pos]
      simp [@Std.ReflCmp.compare_self _ cmp]
    · intro y hy
      rcases hrun.mem_iff.mp hy with hy | hy
      · rw [hrun.tally_pre hy]
        rcases h.best with ⟨rfl, _, _⟩ | ⟨x, _, hwin⟩
        · cases hy
        · have hyle : tally cmp pre y ≤ s.mostFrequentCount := by
            rcases hwin.most y hy with hlt' | ⟨heq, _⟩
            · exact hlt'.le
            · exact heq.le
          rcases Nat.lt_or_eq_of_le (hyle.trans hle) with hlt' | heq
          · exact .inl hlt'
          · refine .inr ⟨heq, ?_⟩
            rw [h.below y hy]
            rfl
      · refine .inr ⟨by rw [hrun.tally_run hy, h.count], ?_⟩
        rw [hrun.eq_of_mem hy]
        rfl
  · rcases h.best with ⟨_, _, hzero⟩ | ⟨x, hx, hwin⟩
    · rw [hzero] at hle
      omega
    · have hxpre : x ∈ pre := List.mem_of_find?_eq_some hwin.first
      refine ⟨x, hx, ?_, ?_, ?_⟩
      · rw [h.eq, List.find?_append, hwin.first]
        rfl
      · rw [hrun.tally_pre hxpre]
        exact hwin.count
      · intro y hy
        rcases hrun.mem_iff.mp hy with hy | hy
        · rw [hrun.tally_pre hy]
          exact hwin.most y hy
        · rw [hrun.tally_run hy, ← h.count]
          exact .inl (by omega)

/-- **One item** of a sorted list. -/
theorem At.step {l pre grp : List α} {cur x : α} {s : Scan α} (h : At cmp l pre cur grp s)
    (hx : ∀ y ∈ l, (cmp y x).isLE = true) :
    ∃ pre' cur' grp', At cmp (l ++ [x]) pre' cur' grp' (s.step cmp x) := by
  by_cases heq : cmp cur x = .eq
  · have hstep : s.step cmp x = { s with count := s.count + 1 } := by
      simp only [Scan.step, h.cur, heq, if_true]
    have hrun := h.lastRun.snoc heq
    refine ⟨pre, cur, grp ++ [x], ?_⟩
    rw [hstep]
    refine ⟨hrun.eq, h.cur, ?_, hrun.run, hrun.below, h.best⟩
    rw [List.length_append, List.length_singleton]
    exact congrArg (· + 1) h.count
  · have hstep : s.step cmp x = { s.close with cur := some x, count := 1 } := by
      simp only [Scan.step, h.cur, heq, if_false]
    have hrun := h.lastRun.next heq (hx cur h.lastRun.mem)
    refine ⟨l, x, [], ?_⟩
    rw [hstep]
    obtain ⟨y, hy, hwin⟩ := h.isWinner
    exact ⟨hrun.eq, rfl, rfl, hrun.run, hrun.below, .inr ⟨y, hy, hwin⟩⟩

theorem at_foldl (l : List α) (hne : l ≠ []) (hsorted : l.Pairwise fun a b => (cmp a b).isLE = true) :
    ∃ pre cur grp, At cmp l pre cur grp (l.foldl (Scan.step cmp) ⟨none, 0, none, 0⟩) := by
  induction l using List.reverseRecOn with
  | nil => exact absurd rfl hne
  | append_singleton l x ih =>
    rw [List.foldl_append]
    obtain ⟨hl, _, hx⟩ := List.pairwise_append.mp hsorted
    by_cases hnil : l = []
    · subst hnil
      exact ⟨[], x, [], rfl, rfl, rfl, by simp, by simp, .inl ⟨rfl, rfl, rfl⟩⟩
    · obtain ⟨pre, cur, grp, hat⟩ := ih hnil hl
      exact hat.step fun y hy => hx y hy x (List.mem_singleton_self x)

/-- **What `smartlist_get_most_frequent_` finds** in a sorted list. -/
theorem isWinner_mostFrequent {l : List α} (hne : l ≠ [])
    (hsorted : l.Pairwise fun a b => (cmp a b).isLE = true) :
    ∃ x c, smartlistGetMostFrequent cmp l = (some x, c) ∧ IsWinner cmp l x c := by
  obtain ⟨pre, cur, grp, hat⟩ := at_foldl l hne hsorted
  obtain ⟨x, hx, hwin⟩ := hat.isWinner
  refine ⟨x, _, ?_, hwin⟩
  simp only [smartlistGetMostFrequent, hx]

/-! ### Removing duplicates -/

/-- The loop of `smartlist_uniq` behind the member `prev`. -/
def smartlistUniqFrom (cmp : α → α → Ordering) (prev : α) : List α → List α
  | [] => []
  | x :: l => if cmp prev x = .eq then smartlistUniqFrom cmp prev l else x :: smartlistUniqFrom cmp x l

def smartlistUniq (cmp : α → α → Ordering) : List α → List α
  | [] => []
  | x :: l => x :: smartlistUniqFrom cmp x l

section Uniq

variable {cmp : α → α → Ordering} {l : List α}

theorem smartlistUniqFrom_sublist (prev : α) (l : List α) : (smartlistUniqFrom cmp prev l).Sublist l := by
  induction l generalizing prev with
  | nil => exact .slnil
  | cons x l ih =>
    unfold smartlistUniqFrom
    split_ifs
    · exact (ih prev).cons x
    · exact (ih x).cons_cons x

theorem smartlistUniq_sublist (l : List α) : (smartlistUniq cmp l).Sublist l := by
  cases l with
  | nil => exact .slnil
  | cons x l => exact (smartlistUniqFrom_sublist x l).cons_cons x

theorem smartlistUniqFrom_pairwise {prev : α} (h : ConsistentOn cmp (prev :: l))
    (hsorted : (prev :: l).Pairwise fun a b => (cmp a b).isLE = true) :
    (prev :: smartlistUniqFrom cmp prev l).Pairwise fun a b => cmp a b = .lt := by
  induction l generalizing prev with
  | nil => exact List.pairwise_singleton _ _
  | cons x l ih =>
    unfold smartlistUniqFrom
    split_ifs with heq
    · have hsub : (prev :: l).Sublist (prev :: x :: l) := (List.sublist_cons_self x l).cons_cons prev
      exact ih (h.subset hsub.subset) (hsorted.sublist hsub)
    · obtain ⟨hprev, hrest⟩ := List.pairwise_cons.mp hsorted
      have hih := ih (h.subset (List.subset_cons_self prev _)) hrest
      have hlt : cmp prev x = .lt := by
        have hle := hprev x List.mem_cons_self
        revert hle heq
        cases cmp prev x <;> simp
      refine List.pairwise_cons.mpr ⟨?_, hih⟩
      intro y hy
      have hy' : y ∈ x :: l := (smartlistUniqFrom_sublist x l).cons_cons x |>.subset hy
      refine h.lt_of_lt_of_isLE (by simp) (by simp) (List.mem_cons_of_mem _ hy') hlt ?_
      rcases List.mem_cons.mp hy' with rfl | hy'
      · rw [h.self (by simp)]
        rfl
      · exact (List.pairwise_cons.mp hrest).1 y hy'

/-- Of a sorted list `smartlist_uniq` leaves a strictly sorted one. -/
theorem smartlistUniq_pairwise (h : ConsistentOn cmp l)
    (hsorted : l.Pairwise fun a b => (cmp a b).isLE = true) :
    (smartlistUniq cmp l).Pairwise fun a b => cmp a b = .lt := by
  cases l with
  | nil => exact .nil
  | cons x l => exact smartlistUniqFrom_pairwise h hsorted

theorem mem_smartlistUniqFrom {prev x : α} (pre post : List α) (hprev : cmp prev x ≠ .eq)
    (hpre : ∀ y ∈ pre, cmp y x ≠ .eq) : x ∈ smartlistUniqFrom cmp prev (pre ++ x :: post) := by
  induction pre generalizing prev with
  | nil =>
    rw [List.nil_append, smartlistUniqFrom, if_neg hprev]
    exact List.mem_cons_self
  | cons y pre ih =>
    rw [List.cons_append, smartlistUniqFrom]
    have hpre' : ∀ z ∈ pre, cmp z x ≠ .eq := fun z hz => hpre z (List.mem_cons_of_mem y hz)
    split_ifs
    · exact ih hprev hpre'
    · exact List.mem_cons_of_mem y (ih (hpre y List.mem_cons_self) hpre')

theorem mem_smartlistUniq {x : α} (pre post : List α) (hpre : ∀ y ∈ pre, cmp y x ≠ .eq) :
    x ∈ smartlistUniq cmp (pre ++ x :: post) := by
  cases pre with
  | nil => exact List.mem_cons_self
  | cons y pre =>
    refine List.mem_cons_of_mem y (mem_smartlistUniqFrom pre post (hpre y List.mem_cons_self) ?_)
    exact fun z hz => hpre z (List.mem_cons_of_mem y hz)

/-- **Every element has an equal one that stays.** -/
theorem exists_mem_smartlistUniq {x : α} (h : ConsistentOn cmp l) (hx : x ∈ l) :
    ∃ y ∈ smartlistUniq cmp l, cmp y x = .eq := by
  have hsome : (l.find? fun y => cmp y x == .eq).isSome = true :=
    List.find?_isSome.mpr ⟨x, hx, by simp [h.self hx]⟩
  obtain ⟨y, hy⟩ := Option.isSome_iff_exists.mp hsome
  obtain ⟨heq, pre, post, rfl, hpre⟩ := List.find?_eq_some_iff_append.mp hy
  have heq' : cmp y x = .eq := by simpa using heq
  refine ⟨y, mem_smartlistUniq pre post ?_, heq'⟩
  intro z hz hzy
  have hzx : cmp z x ≠ .eq := by simpa using hpre z hz
  exact hzx (by rw [← h.congr_right (by simp [hz]) (by simp) hx heq', hzy])

end Uniq

end TorEbpf.Container
