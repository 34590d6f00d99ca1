import Mathlib
import TorEbpf.Container.Smartlist

/-!
# Frequent members

Every vote lists some strings.  The lists are sorted, `smartlist_uniq` leaves one of equal strings, the
lists are put together and sorted, and `get_frequent_members` of `dirvote.c` looks for long runs.  Runs
are of identical strings, while the sort and `smartlist_uniq` go by a comparison that can take different
strings for equal ones.

* `backing_of_mem` — what is found is listed by more than `min` votes;
* `mem_of_backing` — what so many votes list is found, if nothing else that is listed compares equal to it;
* `frequentTieFree_of_complete` — so it is found whatever the sort only if it has no ties.
-/

namespace TorEbpf.Dirauth

open TorEbpf.Lib TorEbpf.Container

variable {α : Type*} [DecidableEq α]

/-! ### Runs -/

/-- The loop of `get_frequent_members`. -/
def frequentFrom (min : ℕ) (cur : α) (count : ℕ) : List α → List α
  | [] => if min < count then [cur] else []
  | cp :: l =>
      if cp = cur then frequentFrom min cur (count + 1) l
      else (if min < count then [cur] else []) ++ frequentFrom min cp 1 l

def getFrequentMembers (min : ℕ) : List α → List α
  | [] => []
  | cp :: l => frequentFrom min cp 1 l

section Runs

variable {cmp : α → α → Ordering} {min : ℕ} {l : List α} {x : α}

omit [DecidableEq α] in
theorem mem_ite_singleton {cur : α} {p : Prop} [Decidable p] (h : x ∈ if p then [cur] else []) :
    p ∧ x = cur := by
  split_ifs at h with hp
  · exact ⟨hp, List.mem_singleton.mp h⟩
  · cases h

omit [DecidableEq α] in
theorem replicate_infix_of_lt {count : ℕ} (h : min < count) (cur : α) (l : List α) :
    List.replicate (min + 1) cur <:+: List.replicate count cur ++ l := by
  refine ⟨[], List.replicate (count - (min + 1)) cur ++ l, ?_⟩
  rw [List.nil_append, ← List.append_assoc, List.replicate_append_replicate]
  congr 2
  omega

theorem infix_of_mem_from (cur : α) (count : ℕ) (h : x ∈ frequentFrom min cur count l) :
    List.replicate (min + 1) x <:+: List.replicate count cur ++ l := by
  induction l generalizing cur count with
  | nil =>
    obtain ⟨hlt, rfl⟩ := mem_ite_singleton h
    exact replicate_infix_of_lt hlt x []
  | cons cp l ih =>
    rw [frequentFrom] at h
    by_cases hcp : cp = cur
    · subst hcp
      rw [if_pos rfl] at h
      have hih := ih cp (count + 1) h
      rwa [@List.replicate_succ' count, List.append_assoc] at hih
    · rw [if_neg hcp] at h
      rcases List.mem_append.mp h with h | h
      · obtain ⟨hlt, rfl⟩ := mem_ite_singleton h
        exact replicate_infix_of_lt hlt x _
      · exact (ih cp 1 h).trans (List.suffix_append _ _).isInfix

/-- **What is found** stands in a run of more than `min` copies. -/
theorem infix_of_mem (h : x ∈ getFrequentMembers min l) : List.replicate (min + 1) x <:+: l := by
  cases l with
  | nil => cases h
  | cons cp l => exact infix_of_mem_from cp 1 h

theorem frequentFrom_sublist (cur : α) (count : ℕ) (l : List α) :
    (frequentFrom min cur count l).Sublist (cur :: l) := by
  have hemit : ∀ (cur : α) (n : ℕ), (if min < n then [cur] else []).Sublist [cur] := by
    intro cur n
    split_ifs
    · exact .refl _
    · exact List.nil_sublist _
  induction l generalizing cur count with
  | nil => exact hemit cur count
  | cons cp l ih =>
    rw [frequentFrom]
    by_cases hcp : cp = cur
    · subst hcp
      rw [if_pos rfl]
      exact (ih cp (count + 1)).cons cp
    · rw [if_neg hcp]
      exact (hemit cur count).append (ih cp 1)

theorem getFrequentMembers_sublist (min : ℕ) (l : List α) : (getFrequentMembers min l).Sublist l := by
  cases l with
  | nil => exact .slnil
  | cons cp l => exact frequentFrom_sublist cp 1 l

/-- Nothing else in the list compares equal to `x`. -/
def TieFree (cmp : α → α → Ordering) (l : List α) (x : α) : Prop := ∀ y ∈ l, cmp y x = .eq → y = x

omit [DecidableEq α] in
theorem not_mem_of_tieFree {cur cp : α} (h : ConsistentOn cmp (cur :: cp :: l))
    (hsorted : (cur :: cp :: l).Pairwise fun a b => (cmp a b).isLE = true)
    (htie : TieFree cmp (cur :: cp :: l) cur) (hcp : cp ≠ cur) : cur ∉ cp :: l := by
  intro hmem
  obtain ⟨hcur, hrest⟩ := List.pairwise_cons.mp hsorted
  have hle : (cmp cp cur).isLE = true := by
    rcases List.mem_cons.mp hmem with rfl | hmem
    · exact absurd rfl hcp
    · exact (List.pairwise_cons.mp hrest).1 cur hmem
  exact hcp (htie cp (by simp) (h.eq_of_isLE (by simp) (by simp) hle (hcur cp (by simp))))

theorem mem_frequentFrom (cur : α) (count : ℕ) (h : ConsistentOn cmp (cur :: l))
    (hsorted : (cur :: l).Pairwise fun a b => (cmp a b).isLE = true)
    (htie : TieFree cmp (cur :: l) x)
    (hcount : min < (if cur = x then count else 0) + l.count x) : x ∈ frequentFrom min cur count l := by
  induction l generalizing cur count with
  | nil =>
    by_cases hx : cur = x
    · rw [if_pos hx, List.count_nil, Nat.add_zero] at hcount
      rw [frequentFrom, if_pos hcount, hx]
      exact List.mem_singleton_self x
    · rw [if_neg hx] at hcount
      exact absurd hcount (Nat.not_lt_zero min)
  | cons cp l ih =>
    rw [frequentFrom]
    by_cases hcp : cp = cur
    · subst hcp
      rw [if_pos rfl]
      have hsub : (cp :: l).Sublist (cp :: cp :: l) := List.sublist_cons_self cp (cp :: l)
      refine ih cp (count + 1) (h.subset hsub.subset) (hsorted.sublist hsub)
        (fun y hy => htie y (hsub.subset hy)) ?_
      rw [List.count_cons] at hcount
      by_cases hx : cp = x
      · simp only [hx, if_true, beq_self_eq_true] at hcount ⊢
        omega
      · simpa [hx] using hcount
    · rw [if_neg hcp]
      by_cases hx : cur = x
      · subst hx
        have hnot := not_mem_of_tieFree h hsorted htie hcp
        rw [if_pos rfl, List.count_eq_zero.mpr hnot, Nat.add_zero] at hcount
        rw [if_pos hcount]
        exact List.mem_append.mpr (.inl (List.mem_singleton_self cur))
      · rw [if_neg hx, Nat.zero_add, List.count_cons] at hcount
        refine List.mem_append.mpr (.inr ?_)
        refine ih cp 1 (h.subset (List.subset_cons_self cur _)) (List.pairwise_cons.mp hsorted).2
          (fun y hy => htie y (List.mem_cons_of_mem cur hy)) ?_
        simp only [beq_iff_eq] at hcount
        omega

/-- **What occurs often is found**, if nothing else compares equal to it. -/
theorem mem_getFrequentMembers (h : ConsistentOn cmp l)
    (hsorted : l.Pairwise fun a b => (cmp a b).isLE = true) (htie : TieFree cmp l x)
    (hcount : min < l.count x) : x ∈ getFrequentMembers min l := by
  cases l with
  | nil => exact absurd hcount (Nat.not_lt_zero min)
  | cons cp l =>
    refine mem_frequentFrom cp 1 h hsorted htie ?_
    rw [List.count_cons] at hcount
    simp only [beq_iff_eq] at hcount
    omega

theorem frequentFrom_pairwise (cur : α) (count : ℕ) (h : ConsistentOn cmp (cur :: l))
    (hsorted : (cur :: l).Pairwise fun a b => (cmp a b).isLE = true)
    (htie : ∀ y ∈ frequentFrom min cur count l, TieFree cmp (cur :: l) y) :
    (frequentFrom min cur count l).Pairwise fun a b => cmp a b = .lt := by
  induction l generalizing cur count with
  | nil =>
    rw [frequentFrom]
    split_ifs
    · exact List.pairwise_singleton _ _
    · exact .nil
  | cons cp l ih =>
    rw [frequentFrom] at htie ⊢
    by_cases hcp : cp = cur
    · subst hcp
      rw [if_pos rfl] at htie ⊢
      have hsub : (cp :: l).Sublist (cp :: cp :: l) := List.sublist_cons_self cp (cp :: l)
      exact ih cp (count + 1) (h.subset hsub.subset) (hsorted.sublist hsub)
        fun y hy z hz => htie y hy z (hsub.subset hz)
    · rw [if_neg hcp] at htie ⊢
      refine List.pairwise_append.mpr ⟨?_, ?_, ?_⟩
      · split_ifs
        · exact List.pairwise_singleton _ _
        · exact .nil
      · exact ih cp 1 (h.subset (List.subset_cons_self cur _)) (List.pairwise_cons.mp hsorted).2
          fun y hy z hz => htie y (List.mem_append.mpr (.inr hy)) z (List.mem_cons_of_mem cur hz)
      · intro a ha b hb
        obtain ⟨hlt, rfl⟩ := mem_ite_singleton ha
        have hb' : b ∈ cp :: l := (frequentFrom_sublist cp 1 l).subset hb
        have hle := (List.pairwise_cons.mp hsorted).1 b hb'
        have htie' := htie a (List.mem_append.mpr (.inl ha))
        have hne : cmp a b ≠ .eq := by
          intro heq
          have hba : b = a := htie' b (List.mem_cons_of_mem a hb')
            (h.eq_symm (by simp) (List.mem_cons_of_mem a hb') heq)
          rw [hba] at hb'
          exact not_mem_of_tieFree h hsorted htie' hcp hb'
        revert hle hne
        cases cmp a b <;> simp

/-- What is found is strictly sorted, if nothing in the list compares equal to it. -/
theorem getFrequentMembers_pairwise (h : ConsistentOn cmp l)
    (hsorted : l.Pairwise fun a b => (cmp a b).isLE = true)
    (htie : ∀ y ∈ getFrequentMembers min l, TieFree cmp l y) :
    (getFrequentMembers min l).Pairwise fun a b => cmp a b = .lt := by
  cases l with
  | nil => exact .nil
  | cons cp l => exact frequentFrom_pairwise cp 1 h hsorted htie

end Runs

/-! ### Votes -/

/-- What the lists of the votes put together give: each is sorted, and of equal elements one stays.  The
`i`-th call of `qsort` is `sort i`. -/
def contributions {cmp : α → α → Ordering} (sort : ℕ → Sorter cmp) (i : ℕ) : List (List α) → List α
  | [] => []
  | l :: ls => smartlistUniq cmp ((sort i).sort l) ++ contributions sort (i + 1) ls

/-- The members found in the sorted list of all contributions. -/
def frequentMembers {cmp : α → α → Ordering} (sort : ℕ → Sorter cmp) (min : ℕ) (ls : List (List α)) :
    List α :=
  getFrequentMembers min ((sort ls.length).sort (contributions sort 0 ls))

/-- The number of lists with an element that has `p`. -/
def backing (ls : List (List α)) (p : α → Bool) : ℕ := ls.countP fun l => l.any p

section Votes

variable {cmp : α → α → Ordering} {sort sort' : ℕ → Sorter cmp} {min : ℕ} {ls ls' : List (List α)} {x : α}

omit [DecidableEq α] in
theorem backing_cons (l : List α) (ls : List (List α)) (p : α → Bool) :
    backing (l :: ls) p = (if l.any p then 1 else 0) + backing ls p := by
  rw [backing, List.countP_cons]
  exact Nat.add_comm _ _

omit [DecidableEq α] in
theorem uniq_sort_subset (s : Sorter cmp) (l : List α) : smartlistUniq cmp (s.sort l) ⊆ l := by
  intro x hx
  exact (s.perm l).subset ((smartlistUniq_sublist _).subset hx)

omit [DecidableEq α] in
theorem uniq_sort_pairwise (s : Sorter cmp) {l : List α} (h : ConsistentOn cmp l) :
    (smartlistUniq cmp (s.sort l)).Pairwise fun a b => cmp a b = .lt :=
  smartlistUniq_pairwise (h.subset (s.perm l).subset) (s.sorted l h)

omit [DecidableEq α] in
theorem uniq_sort_nodup (s : Sorter cmp) {l : List α} (h : ConsistentOn cmp l) :
    (smartlistUniq cmp (s.sort l)).Nodup := by
  refine (uniq_sort_pairwise s h).imp_of_mem ?_
  intro a b ha _ hlt hab
  rw [← hab, h.self (uniq_sort_subset s l ha)] at hlt
  cases hlt

omit [DecidableEq α] in
theorem countP_le_one {p : α → Bool} {l : List α}
    (h : l.Pairwise fun a b => ¬(p a = true ∧ p b = true)) : l.countP p ≤ 1 := by
  induction l with
  | nil => exact Nat.zero_le 1
  | cons a l ih =>
    obtain ⟨ha, hl⟩ := List.pairwise_cons.mp h
    rw [List.countP_cons]
    split_ifs with hp
    · rw [List.countP_eq_zero.mpr fun b hb hb' => ha b hb ⟨hp, hb'⟩]
    · exact ih hl

omit [DecidableEq α] in
/-- **A vote counts once** among elements that compare equal. -/
theorem countP_uniq_sort (s : Sorter cmp) {l big : List α} (h : ConsistentOn cmp big) (hl : l ⊆ big)
    (hx : x ∈ big) :
    (smartlistUniq cmp (s.sort l)).countP (fun y => cmp y x == .eq) =
      if l.any (fun y => cmp y x == .eq) then 1 else 0 := by
  have hsub := uniq_sort_subset s l
  have hle : (smartlistUniq cmp (s.sort l)).countP (fun y => cmp y x == .eq) ≤ 1 := by
    refine countP_le_one ((uniq_sort_pairwise s (h.subset hl)).imp_of_mem ?_)
    rintro a b ha hb hlt ⟨hax, hbx⟩
    rw [beq_iff_eq] at hax hbx
    rw [h.congr_left (hl (hsub ha)) hx (hl (hsub hb)) hax, h.eq_symm (hl (hsub hb)) hx hbx] at hlt
    cases hlt
  split_ifs with hany
  · obtain ⟨y, hy, hyx⟩ := List.any_eq_true.mp hany
    obtain ⟨z, hz, hzy⟩ := exists_mem_smartlistUniq ((h.subset hl).subset (s.perm l).subset)
      ((s.perm l).mem_iff.mpr hy)
    have hpos : 0 < (smartlistUniq cmp (s.sort l)).countP (fun y => cmp y x == .eq) := by
      refine List.countP_pos_iff.mpr ⟨z, hz, ?_⟩
      rw [h.congr_left (hl (hsub hz)) (hl hy) hx hzy]
      exact hyx
    omega
  · refine List.countP_eq_zero.mpr ?_
    intro y hy hyx
    exact hany (List.any_eq_true.mpr ⟨y, hsub hy, hyx⟩)

theorem count_add_count_le {w : α} {p : α → Bool} (l : List α) (hw : p w = true) (hx : p x = true) (hne : w ≠ x) :
    l.count w + l.count x ≤ l.countP p := by
  induction l with
  | nil => exact Nat.le_refl 0
  | cons y l ih =>
    rw [List.count_cons, List.count_cons, List.countP_cons]
    by_cases hyw : y = w
    · subst hyw
      simp [hw, hne]
      omega
    · by_cases hyx : y = x
      · subst hyx
        simp [hx, hyw]
        omega
      · simp [hyw, hyx]
        omega

theorem eq_of_mem_uniq_sort (s : Sorter cmp) {l : List α} {y : α} (h : ConsistentOn cmp l)
    (hy : y ∈ smartlistUniq cmp (s.sort l)) (hx : x ∈ smartlistUniq cmp (s.sort l))
    (heq : cmp y x = .eq) : y = x := by
  by_contra hne
  have hxl := uniq_sort_subset s l hx
  have hsum := count_add_count_le (p := fun z => cmp z x == .eq) (smartlistUniq cmp (s.sort l))
    (by simp [heq]) (by simp [h.self hxl]) hne
  rw [countP_uniq_sort s h (List.Subset.refl l) hxl] at hsum
  have hpos := List.count_pos_iff.mpr hx
  have hpos' := List.count_pos_iff.mpr hy
  split_ifs at hsum
  · omega
  · omega

omit [DecidableEq α] in
theorem contributions_subset (sort : ℕ → Sorter cmp) (i : ℕ) (ls : List (List α)) :
    contributions sort i ls ⊆ ls.flatten := by
  induction ls generalizing i with
  | nil => exact List.Subset.refl _
  | cons l ls ih =>
    rw [contributions, List.flatten_cons]
    intro x hx
    rcases List.mem_append.mp hx with hx | hx
    · exact List.mem_append.mpr (.inl (uniq_sort_subset _ l hx))
    · exact List.mem_append.mpr (.inr (ih (i + 1) hx))

omit [DecidableEq α] in
/-- So the contributions that compare equal to `x` are as many as the votes that list such an element. -/
theorem countP_contributions {big : List α} (h : ConsistentOn cmp big) (hls : ls.flatten ⊆ big)
    (hx : x ∈ big) (i : ℕ) :
    (contributions sort i ls).countP (fun y => cmp y x == .eq) = backing ls fun y => cmp y x == .eq := by
  induction ls generalizing i with
  | nil => rfl
  | cons l ls ih =>
    rw [List.flatten_cons, List.append_subset] at hls
    rw [contributions, List.countP_append, countP_uniq_sort _ h hls.1 hx, ih hls.2, backing_cons]

theorem count_uniq_sort_le (s : Sorter cmp) {l : List α} (h : ConsistentOn cmp l) (x : α) :
    (smartlistUniq cmp (s.sort l)).count x ≤ if l.any (· = x) then 1 else 0 := by
  split_ifs with hany
  · exact List.nodup_iff_count_le_one.mp (uniq_sort_nodup s h) x
  · refine Nat.le_of_eq (List.count_eq_zero.mpr ?_)
    intro hx
    exact hany (List.any_eq_true.mpr ⟨x, uniq_sort_subset s l hx, by simp⟩)

/-- A string contributes at most once for each vote that lists it. -/
theorem count_contributions_le {big : List α} (h : ConsistentOn cmp big) (hls : ls.flatten ⊆ big)
    (i : ℕ) (x : α) : (contributions sort i ls).count x ≤ backing ls (· = x) := by
  induction ls generalizing i with
  | nil => exact Nat.le_refl 0
  | cons l ls ih =>
    rw [List.flatten_cons, List.append_subset] at hls
    have hhead := count_uniq_sort_le (sort i) (h.subset hls.1) x
    have htail := ih hls.2 (i + 1)
    rw [contributions, List.count_append, backing_cons]
    omega

omit [DecidableEq α] in
theorem contributions_append (i : ℕ) (pre post : List (List α)) :
    contributions sort i (pre ++ post) =
      contributions sort i pre ++ contributions sort (i + pre.length) post := by
  induction pre generalizing i with
  | nil => rfl
  | cons l pre ih =>
    rw [List.cons_append, contributions, contributions, ih, List.append_assoc, List.length_cons,
      Nat.add_right_comm, Nat.add_assoc]

/-- **One vote changes the count of an element by at most one**, the sorts of the others being the same. -/
def CountsOnce (sort : ℕ → Sorter cmp) (ls : List (List α)) : Prop :=
  ∀ pre l post, ls = pre ++ l :: post → ∀ x,
    (contributions sort 0 pre ++ contributions sort (pre.length + 1) post).count x ≤
        (contributions sort 0 ls).count x ∧
      (contributions sort 0 ls).count x ≤
        (contributions sort 0 pre ++ contributions sort (pre.length + 1) post).count x + 1

theorem countsOnce (h : ConsistentOn cmp ls.flatten) : CountsOnce sort ls := by
  rintro pre l post rfl x
  have hl : ConsistentOn cmp l := h.subset fun y hy => List.mem_flatten_of_mem (by simp) hy
  have hone := List.nodup_iff_count_le_one.mp (uniq_sort_nodup (sort pre.length) hl) x
  rw [contributions_append, contributions, Nat.zero_add, List.count_append, List.count_append,
    List.count_append]
  omega

theorem count_contributions_eq {big : List α} (h : ConsistentOn cmp big) (hls : ls.flatten ⊆ big)
    (hx : x ∈ big) (htie : TieFree cmp ls.flatten x) (i : ℕ) :
    (contributions sort i ls).count x = backing ls (· = x) := by
  have hiff : ∀ y ∈ ls.flatten, (cmp y x == .eq) = decide (y = x) := by
    intro y hy
    rw [Bool.eq_iff_iff, beq_iff_eq, decide_eq_true_iff]
    refine ⟨htie y hy, ?_⟩
    rintro rfl
    exact h.self hx
  have hleft : (contributions sort i ls).countP (fun y => cmp y x == .eq) =
      (contributions sort i ls).count x := by
    rw [List.count_eq_countP]
    refine List.countP_congr ?_
    intro y hy
    rw [hiff y (contributions_subset sort i ls hy)]
    simp
  have hright : backing ls (fun y => cmp y x == .eq) = backing ls (· = x) := by
    unfold backing
    refine List.countP_congr ?_
    intro l hl
    simp only [List.any_eq_true]
    refine exists_congr fun y => and_congr_right fun hy => ?_
    rw [hiff y (List.mem_flatten_of_mem hl hy)]
  rw [← hleft, countP_contributions h hls hx, hright]

omit [DecidableEq α] in
theorem sort_contributions_consistent (h : ConsistentOn cmp ls.flatten) (s : Sorter cmp) :
    ConsistentOn cmp (s.sort (contributions sort 0 ls)) :=
  h.subset fun _ hx => contributions_subset sort 0 ls ((s.perm _).subset hx)

theorem count_of_mem (hx : x ∈ frequentMembers sort min ls) : min < (contributions sort 0 ls).count x := by
  have hinfix := (infix_of_mem hx).sublist.count_le x
  rw [List.count_replicate_self, ((sort ls.length).perm _).count_eq] at hinfix
  exact hinfix

/-- **Soundness**: what is found is listed by more than `min` votes. -/
theorem backing_of_mem (h : ConsistentOn cmp ls.flatten) (hx : x ∈ frequentMembers sort min ls) :
    min < backing ls (· = x) :=
  Nat.lt_of_lt_of_le (count_of_mem hx) (count_contributions_le h (List.Subset.refl _) 0 x)

/-- What contributes more than `min` times is found. -/
theorem mem_frequentMembers (h : ConsistentOn cmp ls.flatten)
    (htie : TieFree cmp (contributions sort 0 ls) x) (hcount : min < (contributions sort 0 ls).count x) :
    x ∈ frequentMembers sort min ls := by
  have hcons := h.subset (contributions_subset sort 0 ls)
  refine mem_getFrequentMembers (sort_contributions_consistent h _) ((sort ls.length).sorted _ hcons) ?_ ?_
  · exact fun y hy => htie y (((sort ls.length).perm _).subset hy)
  · rwa [((sort ls.length).perm _).count_eq]

/-- Every string that more than `min` votes list has no ties. -/
def FrequentTieFree (cmp : α → α → Ordering) (min : ℕ) (ls : List (List α)) : Prop :=
  ∀ x, min < backing ls (· = x) → TieFree cmp ls.flatten x

theorem mem_flatten_of_backing (h : min < backing ls (· = x)) : x ∈ ls.flatten := by
  obtain ⟨l, hl, hany⟩ := List.countP_pos_iff.mp (Nat.lt_of_le_of_lt (Nat.zero_le min) h)
  obtain ⟨y, hy, hyx⟩ := List.any_eq_true.mp hany
  rw [decide_eq_true_iff] at hyx
  subst hyx
  exact List.mem_flatten_of_mem hl hy

/-- **Completeness**: what more than `min` votes list is found, if it has no ties. -/
theorem mem_of_backing (h : ConsistentOn cmp ls.flatten) (htie : TieFree cmp ls.flatten x)
    (hlt : min < backing ls (· = x)) : x ∈ frequentMembers sort min ls := by
  refine mem_frequentMembers h (fun y hy => htie y (contributions_subset sort 0 ls hy)) ?_
  rwa [count_contributions_eq h (List.Subset.refl _) (mem_flatten_of_backing hlt) htie]

/-- Of a single list everything is found, up to the comparison. -/
theorem exists_mem_frequentMembers_single {l : List α} (h : ConsistentOn cmp l) (hx : x ∈ l) :
    ∃ y ∈ frequentMembers sort 0 [l], cmp y x = .eq := by
  have hcontrib : contributions sort 0 [l] = smartlistUniq cmp ((sort 0).sort l) := List.append_nil _
  obtain ⟨y, hy, heq⟩ := exists_mem_smartlistUniq (h.subset ((sort 0).perm l).subset)
    (((sort 0).perm l).mem_iff.mpr hx)
  refine ⟨y, mem_frequentMembers ?_ ?_ ?_, heq⟩
  · rwa [List.flatten_singleton]
  · rw [hcontrib]
    exact fun z hz hzy => eq_of_mem_uniq_sort (sort 0) h hz hy hzy
  · rw [hcontrib]
    exact List.count_pos_iff.mpr hy

theorem mem_frequentMembers_iff (h : ConsistentOn cmp ls.flatten) (htie : FrequentTieFree cmp min ls) :
    x ∈ frequentMembers sort min ls ↔ min < backing ls (· = x) :=
  ⟨backing_of_mem h, fun hlt => mem_of_backing h (htie x hlt) hlt⟩

theorem frequentMembers_pairwise (h : ConsistentOn cmp ls.flatten) (htie : FrequentTieFree cmp min ls) :
    (frequentMembers sort min ls).Pairwise fun a b => cmp a b = .lt := by
  have hcons := h.subset (contributions_subset sort 0 ls)
  refine getFrequentMembers_pairwise (sort_contributions_consistent h _) ((sort ls.length).sorted _ hcons) ?_
  intro y hy z hz
  exact htie y (backing_of_mem h hy) z (contributions_subset sort 0 ls (((sort ls.length).perm _).subset hz))

theorem mem_contributions_of_mem (hx : x ∈ frequentMembers sort min ls) : x ∈ contributions sort 0 ls :=
  ((sort ls.length).perm _).subset ((getFrequentMembers_sublist min _).subset hx)

theorem mem_of_mem_frequentMembers (hx : x ∈ frequentMembers sort min ls) : x ∈ ls.flatten :=
  contributions_subset sort 0 ls (mem_contributions_of_mem hx)

theorem frequentMembers_nodup (h : ConsistentOn cmp ls.flatten) (htie : FrequentTieFree cmp min ls) :
    (frequentMembers sort min ls).Nodup := by
  refine (frequentMembers_pairwise h htie).imp_of_mem ?_
  intro a b ha _ hlt hab
  rw [← hab, h.self (mem_of_mem_frequentMembers ha)] at hlt
  cases hlt

/-- **The order of the votes does not matter.** -/
theorem frequentMembers_perm (h : ConsistentOn cmp ls.flatten) (htie : FrequentTieFree cmp min ls)
    (hp : ls'.Perm ls) : frequentMembers sort' min ls' = frequentMembers sort min ls := by
  have hflat : ls'.flatten.Perm ls.flatten := hp.flatten
  have hback : ∀ p, backing ls' p = backing ls p := fun p => hp.countP_eq _
  have h' : ConsistentOn cmp ls'.flatten := h.subset hflat.subset
  have htie' : FrequentTieFree cmp min ls' := by
    intro x hx y hy
    rw [hback] at hx
    exact htie x hx y (hflat.subset hy)
  have hperm : (frequentMembers sort' min ls').Perm (frequentMembers sort min ls) := by
    refine (List.perm_ext_iff_of_nodup (frequentMembers_nodup h' htie') (frequentMembers_nodup h htie)).mpr ?_
    intro x
    rw [mem_frequentMembers_iff h' htie', mem_frequentMembers_iff h htie, hback]
  refine hperm.eq_of_pairwise ?_ (frequentMembers_pairwise h' htie') (frequentMembers_pairwise h htie)
  intro a b ha hb hab hba
  rw [h.1 a (hflat.subset (mem_of_mem_frequentMembers ha)) b (mem_of_mem_frequentMembers hb), hab] at hba
  cases hba

end Votes

/-! ### Parted runs -/

section Parted

variable {cmp : α → α → Ordering} {min : ℕ} {ls : List (List α)} {w o x : α}

omit [DecidableEq α] in
theorem infix_of_infix_append_cons {p q : List α} {n : ℕ} (ho : o ≠ w)
    (h : List.replicate n w <:+: p ++ o :: q) :
    List.replicate n w <:+: p ∨ List.replicate n w <:+: q := by
  obtain ⟨s, t, hst⟩ := h
  rw [List.append_assoc] at hst
  have hnot : o ∉ List.replicate n w := fun hmem => ho (List.mem_replicate.mp hmem).2
  rcases List.append_eq_append_iff.mp hst with ⟨as, rfl, has⟩ | ⟨bs, rfl, hbs⟩
  · -- the run begins in `p`
    rcases List.append_eq_append_iff.mp has with ⟨cs, rfl, _⟩ | ⟨cs, hcs, hq⟩
    · exact .inl ⟨s, cs, by rw [List.append_assoc]⟩
    · cases cs with
      | nil =>
        rw [List.append_nil] at hcs
        exact .inl ⟨s, [], by rw [hcs, List.append_nil]⟩
      | cons c cs =>
        obtain ⟨rfl, _⟩ := List.cons.inj hq
        exact absurd (by rw [hcs]; simp) hnot
  · cases bs with
    | nil =>
      rw [List.nil_append] at hbs
      cases n with
      | zero => exact .inl ⟨p, [], by simp⟩
      | succ n => exact absurd (List.cons.inj hbs).1 ho
    | cons b bs =>
      obtain ⟨_, rfl⟩ := List.cons.inj hbs
      refine .inr ⟨bs, t, ?_⟩
      rw [List.append_assoc]
      rfl

theorem not_mem_filter_ne (l : List α) (r : Ordering) :
    w ∉ l.filter fun y => y ≠ w ∧ cmp y w = r := by
  simp

/-- **Copies with an equal element between them** are not found. -/
theorem not_mem_parted {l : List α} (ho : o ∈ l) (hne : o ≠ w) (heq : cmp o w = .eq)
    (hcount : l.count w ≤ 2 * min) : w ∉ getFrequentMembers min (parted cmp w (l.count w / 2) l) := by
  intro hw
  have hinfix := infix_of_mem hw
  have hothers : o ∈ l.filter fun y => y ≠ w ∧ cmp y w = .eq := List.mem_filter.mpr ⟨ho, by simp [hne, heq]⟩
  obtain ⟨c, os, hos⟩ := List.exists_cons_of_ne_nil (List.ne_nil_of_mem hothers)
  have hnot : w ∉ c :: os := by
    rw [← hos]
    exact not_mem_filter_ne l .eq
  have hsplit : parted cmp w (l.count w / 2) l =
      (l.filter (fun y => y ≠ w ∧ cmp y w = .lt) ++ List.replicate (l.count w / 2) w) ++
        c :: (os ++ (List.replicate (l.count w - l.count w / 2) w ++
          l.filter (fun y => y ≠ w ∧ cmp y w = .gt))) := by
    rw [parted, partedClass, hos, Nat.min_eq_left (Nat.div_le_self _ 2)]
    simp
  rw [hsplit] at hinfix
  have hcw : c ≠ w := fun hc => hnot (by rw [hc]; exact List.mem_cons_self)
  have hzero : ∀ r, (l.filter fun y => y ≠ w ∧ cmp y w = r).count w = 0 := fun r =>
    List.count_eq_zero.mpr (not_mem_filter_ne l r)
  have hos0 : os.count w = 0 := List.count_eq_zero.mpr fun hmem => hnot (List.mem_cons_of_mem c hmem)
  rcases infix_of_infix_append_cons hcw hinfix with hleft | hright
  · have hle := hleft.sublist.count_le w
    rw [List.count_replicate_self, List.count_append, hzero, List.count_replicate_self] at hle
    omega
  · have hle := hright.sublist.count_le w
    rw [List.count_replicate_self, List.count_append, List.count_append, hos0, hzero,
      List.count_replicate_self] at hle
    omega

/-- The sort that parts the copies of `w` among all contributions in two halves. -/
def partingAll (sort : ℕ → Sorter cmp) (ls : List (List α)) (w : α) (i : ℕ) : Sorter cmp :=
  if i < ls.length then sort i
  else (Sorter.merge cmp).parting w ((contributions sort 0 ls).count w / 2)

omit [DecidableEq α] in
theorem contributions_congr {sort sort' : ℕ → Sorter cmp} (i : ℕ) (ls : List (List α))
    (h : ∀ j, j < i + ls.length → sort j = sort' j) : contributions sort i ls = contributions sort' i ls := by
  induction ls generalizing i with
  | nil => rfl
  | cons l ls ih =>
    rw [contributions, contributions, h i (by simp), ih (i + 1)]
    intro j hj
    refine h j ?_
    rw [List.length_cons]
    omega

theorem contributions_partingAll (sort : ℕ → Sorter cmp) :
    contributions (partingAll sort ls w) 0 ls = contributions sort 0 ls := by
  refine contributions_congr 0 ls ?_
  intro j hj
  rw [Nat.zero_add] at hj
  exact if_pos hj

theorem frequentMembers_partingAll (sort : ℕ → Sorter cmp) :
    frequentMembers (partingAll sort ls w) min ls =
      getFrequentMembers min
        (((Sorter.merge cmp).parting w ((contributions sort 0 ls).count w / 2)).sort
          (contributions sort 0 ls)) := by
  have hlast : partingAll sort ls w ls.length =
      (Sorter.merge cmp).parting w ((contributions sort 0 ls).count w / 2) := if_neg (Nat.lt_irrefl _)
  rw [frequentMembers, contributions_partingAll, hlast]

/-- **A string with a tie is not found**, if the sort parts its copies. -/
theorem not_mem_frequent_parting (sort : ℕ → Sorter cmp) (hw : w ∈ contributions sort 0 ls)
    (ho : o ∈ contributions sort 0 ls) (hne : o ≠ w) (heq : cmp o w = .eq)
    (hcount : (contributions sort 0 ls).count w ≤ 2 * min) :
    w ∉ frequentMembers (partingAll sort ls w) min ls := by
  rw [frequentMembers_partingAll, Sorter.parting]
  have hperm := (Sorter.merge cmp).perm (contributions sort 0 ls)
  simp only [if_pos hw]
  rw [← hperm.count_eq w] at hcount ⊢
  exact not_mem_parted (hperm.mem_iff.mpr ho) hne heq hcount

omit [DecidableEq α] in
theorem mem_contributions {sort : ℕ → Sorter cmp} {l : List α} (i j : ℕ) (hl : ls[j]? = some l)
    (hx : x ∈ smartlistUniq cmp ((sort (i + j)).sort l)) : x ∈ contributions sort i ls := by
  induction ls generalizing i j with
  | nil => cases hl
  | cons l' ls ih =>
    rw [contributions]
    cases j with
    | zero =>
      cases hl
      exact List.mem_append.mpr (.inl hx)
    | succ j =>
      refine List.mem_append.mpr (.inr (ih (i + 1) j hl ?_))
      rwa [Nat.add_right_comm, Nat.add_assoc]

/-- A vote that lists something equal to `w` can contribute that. -/
theorem exists_ne_mem_uniq {l : List α} (h : ConsistentOn cmp l) (ho : o ∈ l) (hne : o ≠ w)
    (heq : cmp o w = .eq) (hw : ∀ a ∈ l, ∀ b ∈ l, cmp a b = .eq → cmp b w = .eq → cmp a w = .eq) :
    ∃ o' ∈ smartlistUniq cmp (((Sorter.merge cmp).parting w 0).sort l), o' ≠ w ∧ cmp o' w = .eq := by
  have hperm := (Sorter.merge cmp).perm l
  rw [Sorter.parting]
  by_cases hmem : w ∈ l
  · simp only [if_pos hmem]
    have hothers : o ∈ ((Sorter.merge cmp).sort l).filter fun y => y ≠ w ∧ cmp y w = .eq :=
      List.mem_filter.mpr ⟨hperm.mem_iff.mpr ho, by simp [hne, heq]⟩
    obtain ⟨c, os, hos⟩ := List.exists_cons_of_ne_nil (List.ne_nil_of_mem hothers)
    have hc : c ∈ ((Sorter.merge cmp).sort l).filter fun y => y ≠ w ∧ cmp y w = .eq := by
      rw [hos]
      exact List.mem_cons_self
    obtain ⟨hcl, hc⟩ := List.mem_filter.mp hc
    simp only [ne_eq, decide_eq_true_eq] at hc
    refine ⟨c, ?_, hc⟩
    rw [parted, partedClass, hos, Nat.zero_min, List.replicate_zero, List.nil_append, List.cons_append,
      List.cons_append]
    refine mem_smartlistUniq _ _ ?_
    intro y hy hyc
    obtain ⟨hyl, hy⟩ := List.mem_filter.mp hy
    simp only [ne_eq, decide_eq_true_eq] at hy
    rw [hw y (hperm.mem_iff.mp hyl) c (hperm.mem_iff.mp hcl) hyc hc.2] at hy
    cases hy.2
  · simp only [if_neg hmem]
    obtain ⟨y, hy, hyo⟩ := exists_mem_smartlistUniq (h.subset hperm.subset) (hperm.mem_iff.mpr ho)
    have hyl := uniq_sort_subset _ l hy
    refine ⟨y, hy, ?_, hw y hyl o ho hyo heq⟩
    rintro rfl
    exact hmem hyl

/-- And one that lists `w` can contribute `w`. -/
theorem mem_uniq_parting {l : List α} (hw : w ∈ l) :
    w ∈ smartlistUniq cmp (((Sorter.merge cmp).parting w 1).sort l) := by
  have hperm := (Sorter.merge cmp).perm l
  rw [Sorter.parting]
  simp only [if_pos hw]
  have hpos : 1 ≤ ((Sorter.merge cmp).sort l).count w :=
    List.one_le_count_iff.mpr (hperm.mem_iff.mpr hw)
  rw [parted, partedClass, Nat.min_eq_left hpos, List.replicate_one, List.singleton_append,
    List.cons_append]
  refine mem_smartlistUniq _ _ ?_
  intro y hy hyw
  have hy' := (List.mem_filter.mp hy).2
  simp only [ne_eq, decide_eq_true_eq] at hy'
  rw [hyw] at hy'
  cases hy'.2

omit [DecidableEq α] in
theorem backing_le_length (ls : List (List α)) (p : α → Bool) : backing ls p ≤ ls.length :=
  List.countP_le_length

/-- **Contributions that compare equal** can be arranged so that none of them is found. -/
theorem exists_sort_of_tied {sort : ℕ → Sorter cmp} {a b : α} (h : ConsistentOn cmp ls.flatten)
    (hmin : ls.length ≤ 2 * min + 1) (ha : a ∈ contributions sort 0 ls)
    (hb : b ∈ contributions sort 0 ls) (hne : b ≠ a) (heq : cmp b a = .eq) :
    ∃ sort' : ℕ → Sorter cmp, ∀ x ∈ frequentMembers sort' min ls, cmp x a ≠ .eq := by
  have hsub := contributions_subset sort 0 ls
  -- the element that is contributed most often is parted
  obtain ⟨w, hw, hmax⟩ := Finset.exists_max_image
    ((contributions sort 0 ls).filter fun x => cmp x a = .eq).toFinset
    (fun x => (contributions sort 0 ls).count x) ⟨b, by simp [hb, heq]⟩
  simp only [List.mem_toFinset, List.mem_filter, decide_eq_true_eq] at hw hmax
  obtain ⟨hw, hwa⟩ := hw
  have hclass : ∀ {y}, y ∈ contributions sort 0 ls → cmp y a = .eq → cmp y w = .eq := by
    intro y hy hya
    rw [h.congr_left (hsub hy) (hsub ha) (hsub hw) hya, h.eq_symm (hsub hw) (hsub ha) hwa]
  have hsum : ∀ {y}, y ∈ contributions sort 0 ls → cmp y a = .eq → y ≠ w →
      (contributions sort 0 ls).count y + (contributions sort 0 ls).count w ≤ ls.length := by
    intro y hy hya hyw
    have hcount := count_add_count_le (p := fun z => cmp z w == .eq) (contributions sort 0 ls)
      (by simp [hclass hy hya]) (by simp [hclass hw hwa]) hyw
    rw [countP_contributions h (List.Subset.refl _) (hsub hw)] at hcount
    exact le_trans hcount (backing_le_length _ _)
  obtain ⟨o, ho, hoa, how⟩ : ∃ o ∈ contributions sort 0 ls, cmp o a = .eq ∧ o ≠ w := by
    by_cases hbw : b = w
    · exact ⟨a, ha, h.self (hsub ha), fun haw => hne (hbw.trans haw.symm)⟩
    · exact ⟨b, hb, heq, hbw⟩
  refine ⟨partingAll sort ls w, ?_⟩
  intro x hx hxa
  have hcount := count_of_mem hx
  rw [contributions_partingAll] at hcount
  have hmem : x ∈ contributions sort 0 ls := List.count_pos_iff.mp (by omega)
  by_cases hxw : x = w
  · subst hxw
    have hle := hsum ho hoa how
    have hpos := List.count_pos_iff.mpr ho
    exact not_mem_frequent_parting sort hw ho how (hclass ho hoa) (by omega) hx
  · have hle := hsum hmem hxa hxw
    have hle' := hmax x ⟨hmem, hxa⟩
    omega

/-- **What is found whatever the sort has no ties.** -/
theorem frequentTieFree_of_complete (h : ConsistentOn cmp ls.flatten) (hmin : ls.length ≤ 2 * min + 1)
    (hcomplete : ∀ (sort : ℕ → Sorter cmp) (x : α), min < backing ls (· = x) →
      x ∈ frequentMembers sort min ls) :
    FrequentTieFree cmp min ls := by
  intro w hw o ho heq
  by_contra hne
  have hwl := mem_flatten_of_backing hw
  -- every vote that lists something equal to `w` contributes something other than `w`, if it can
  obtain ⟨l, hl, hol⟩ := List.mem_flatten.mp ho
  obtain ⟨j, hj⟩ := List.mem_iff_getElem?.mp hl
  have hsub : l ⊆ ls.flatten := fun x hx => List.mem_flatten_of_mem hl hx
  obtain ⟨o', ho', hne', heq'⟩ := exists_ne_mem_uniq (h.subset hsub) hol hne heq
    fun a ha b hb hab hbw => by rw [h.congr_left (hsub ha) (hsub hb) hwl hab, hbw]
  have hmem : o' ∈ contributions (fun _ => (Sorter.merge cmp).parting w 0) 0 ls :=
    mem_contributions 0 j hj ho'
  have hcontrib := mem_contributions_of_mem (hcomplete (fun _ => (Sorter.merge cmp).parting w 0) w hw)
  obtain ⟨sort', hsort'⟩ := exists_sort_of_tied h hmin hcontrib hmem hne' heq'
  exact hsort' w (hcomplete sort' w hw) (h.self hwl)

end Parted

end TorEbpf.Dirauth
