import Mathlib

/-!
# Sorting by a comparison

`qsort` orders a list by a comparison and leaves open how elements that compare equal are arranged, so a
sort is any function that yields a sorted permutation.

* `Sorter` — such a function; `Sorter.favoring a` is the one that puts `a` in front of its equals;
* `filter_sort_eq` — elements that are not equal to each other come out in one order, whatever the sort
  and the order they went in;
* `Sorter.find_favoring` — but of elements that are equal any can be the first.
-/

namespace TorEbpf.Lib

variable {α : Type*}

/-- `strcmp`, and `memcmp` of arrays of one length. -/
def bytesCmp (a b : List UInt8) : Ordering := List.compareLex compare a b

instance : Std.TransCmp bytesCmp := inferInstanceAs (Std.TransCmp (List.compareLex compare))

instance : Std.LawfulEqCmp bytesCmp := inferInstanceAs (Std.LawfulEqCmp (List.compareLex compare))

def cmpOn {β : Type*} (key : α → β) (cmp : β → β → Ordering) (a b : α) : Ordering := cmp (key a) (key b)

instance {β : Type*} (key : α → β) (cmp : β → β → Ordering) [Std.TransCmp cmp] :
    Std.TransCmp (cmpOn key cmp) where
  eq_swap {a b} := @Std.OrientedCmp.eq_swap _ cmp _ (key a) (key b)
  isLE_trans {a b c} := @Std.TransCmp.isLE_trans _ cmp _ (key a) (key b) (key c)

/-- Numbers that are less than half the modulus apart are compared by their wrapped difference. -/
theorem compare_bmod_sub {a b : ℤ} {m : ℕ} (h : 2 * |a - b| < m) :
    compare (Int.bmod (a - b) m) 0 = compare a b := by
  have hbound := abs_lt.mp (by omega : |a - b| < (m + 1) / 2)
  rw [Int.bmod_eq_of_le (by omega) (by omega)]
  rcases lt_trichotomy a b with hlt | rfl | hgt
  · rw [compare_lt_iff_lt.mpr hlt, compare_lt_iff_lt.mpr (by omega)]
  · simp
  · rw [compare_gt_iff_gt.mpr hgt, compare_gt_iff_gt.mpr (by omega)]

/-- The comparison orders the elements of a list. -/
def ConsistentOn (cmp : α → α → Ordering) (l : List α) : Prop :=
  (∀ a ∈ l, ∀ b ∈ l, cmp b a = (cmp a b).swap) ∧
    ∀ a ∈ l, ∀ b ∈ l, ∀ c ∈ l, (cmp a b).isLE → (cmp b c).isLE → (cmp a c).isLE

theorem consistentOn_of_transCmp (cmp : α → α → Ordering) [Std.TransCmp cmp] (l : List α) :
    ConsistentOn cmp l :=
  ⟨fun _ _ _ _ => Std.OrientedCmp.eq_swap, fun _ _ _ _ _ _ => Std.TransCmp.isLE_trans⟩

theorem ConsistentOn.subset {cmp : α → α → Ordering} {l l' : List α} (h : ConsistentOn cmp l)
    (hsub : l' ⊆ l) : ConsistentOn cmp l' :=
  ⟨fun a ha b hb => h.1 a (hsub ha) b (hsub hb),
    fun a ha b hb c hc => h.2 a (hsub ha) b (hsub hb) c (hsub hc)⟩

section Consistent

variable {cmp : α → α → Ordering} {l : List α} {a b c : α}

/-- On the elements of the list the comparison is transitive. -/
theorem ConsistentOn.transCmp (h : ConsistentOn cmp l) :
    Std.TransCmp fun a b : {x // x ∈ l} => cmp a.1 b.1 where
  eq_swap {a b} := h.1 b.1 b.2 a.1 a.2
  isLE_trans {a b c} := h.2 a.1 a.2 b.1 b.2 c.1 c.2

theorem ConsistentOn.self (h : ConsistentOn cmp l) (ha : a ∈ l) : cmp a a = .eq := by
  have hswap := h.1 a ha a ha
  revert hswap
  cases cmp a a <;> simp

theorem ConsistentOn.eq_symm (h : ConsistentOn cmp l) (ha : a ∈ l) (hb : b ∈ l) (heq : cmp a b = .eq) :
    cmp b a = .eq := by
  rw [h.1 a ha b hb, heq]
  rfl

theorem ConsistentOn.eq_of_isLE (h : ConsistentOn cmp l) (ha : a ∈ l) (hb : b ∈ l)
    (hab : (cmp a b).isLE = true) (hba : (cmp b a).isLE = true) : cmp a b = .eq := by
  rw [h.1 a ha b hb] at hba
  revert hab hba
  cases cmp a b <;> simp

theorem ConsistentOn.lt_of_lt_of_isLE (h : ConsistentOn cmp l) (ha : a ∈ l) (hb : b ∈ l) (hc : c ∈ l)
    (hab : cmp a b = .lt) (hbc : (cmp b c).isLE = true) : cmp a c = .lt :=
  @Std.TransCmp.lt_of_lt_of_isLE _ _ h.transCmp ⟨a, ha⟩ ⟨b, hb⟩ ⟨c, hc⟩ hab hbc

theorem ConsistentOn.congr_left (h : ConsistentOn cmp l) (ha : a ∈ l) (hb : b ∈ l) (hc : c ∈ l)
    (hab : cmp a b = .eq) : cmp a c = cmp b c :=
  @Std.TransCmp.congr_left _ _ h.transCmp ⟨a, ha⟩ ⟨b, hb⟩ ⟨c, hc⟩ hab

theorem ConsistentOn.congr_right (h : ConsistentOn cmp l) (ha : a ∈ l) (hb : b ∈ l) (hc : c ∈ l)
    (hbc : cmp b c = .eq) : cmp a b = cmp a c :=
  @Std.TransCmp.congr_right _ _ h.transCmp ⟨a, ha⟩ ⟨b, hb⟩ ⟨c, hc⟩ hbc

end Consistent

/-- **A sort** by a comparison. -/
structure Sorter (cmp : α → α → Ordering) where
  sort : List α → List α
  perm : ∀ l, (sort l).Perm l
  sorted : ∀ l, ConsistentOn cmp l → (sort l).Pairwise fun a b => (cmp a b).isLE = true

section Parting

variable {cmp : α → α → Ordering}

/-- Merge sort, which compares elements of the list only. -/
def Sorter.merge (cmp : α → α → Ordering) : Sorter cmp where
  sort l := (l.attach.mergeSort fun a b => (cmp a.1 b.1).isLE).map Subtype.val
  perm l := by
    have hperm := (List.mergeSort_perm l.attach fun a b => (cmp a.1 b.1).isLE).map Subtype.val
    rwa [List.attach_map_subtype_val] at hperm
  sorted l h := by
    rw [List.pairwise_map]
    refine List.pairwise_mergeSort ?_ ?_ l.attach
    · intro a b c
      exact h.2 a.1 a.2 b.1 b.2 c.1 c.2
    · intro a b
      rw [h.1 a.1 a.2 b.1 b.2]
      cases cmp a.1 b.1 <;> rfl

instance : Inhabited (Sorter cmp) := ⟨Sorter.merge cmp⟩

variable [DecidableEq α]

/-- The elements equal to `w`, with at most `k` copies of `w` in front of the others. -/
def partedClass (cmp : α → α → Ordering) (w : α) (k : ℕ) (l : List α) : List α :=
  List.replicate (min k (l.count w)) w ++
    (l.filter (fun x => x ≠ w ∧ cmp x w = .eq) ++ List.replicate (l.count w - k) w)

/-- The list sorted by `s`, with the elements equal to `w` rearranged. -/
def parted (cmp : α → α → Ordering) (w : α) (k : ℕ) (l : List α) : List α :=
  l.filter (fun x => x ≠ w ∧ cmp x w = .lt) ++
    (partedClass cmp w k l ++ l.filter (fun x => x ≠ w ∧ cmp x w = .gt))

theorem parted_perm (cmp : α → α → Ordering) (w : α) (k : ℕ) (l : List α) :
    (parted cmp w k l).Perm l := by
  rw [List.perm_iff_count]
  intro x
  unfold parted partedClass
  by_cases hx : x = w
  · subst hx
    have hnot : ∀ o, List.count x (l.filter fun y => y ≠ x ∧ cmp y x = o) = 0 := by
      intro o
      refine List.count_eq_zero.mpr ?_
      simp
    simp only [List.count_append, hnot, List.count_replicate_self]
    omega
  · have hcount : ∀ o, List.count x (l.filter fun y => y ≠ w ∧ cmp y w = o) =
        if cmp x w = o then List.count x l else 0 := by
      intro o
      split_ifs with ho
      · exact List.count_filter (by simp [hx, ho])
      · refine List.count_eq_zero.mpr ?_
        simp [ho]
    have hrep : ∀ n, List.count x (List.replicate n w) = 0 := by
      intro n
      refine List.count_eq_zero.mpr ?_
      simp [hx]
    simp only [List.count_append, hcount, hrep]
    cases cmp x w <;> simp

theorem cmp_of_mem_partedClass {w x : α} {k : ℕ} {l : List α} (h : ConsistentOn cmp l) (hw : w ∈ l)
    (hx : x ∈ partedClass cmp w k l) : cmp x w = .eq := by
  unfold partedClass at hx
  rcases List.mem_append.mp hx with hx | hx
  · rw [(List.mem_replicate.mp hx).2]
    exact h.self hw
  · rcases List.mem_append.mp hx with hx | hx
    · have hx' := (List.mem_filter.mp hx).2
      simp only [ne_eq, decide_eq_true_eq] at hx'
      exact hx'.2
    · rw [(List.mem_replicate.mp hx).2]
      exact h.self hw

theorem parted_sorted {w : α} {k : ℕ} {l : List α} (h : ConsistentOn cmp l) (hw : w ∈ l)
    (hsorted : l.Pairwise fun a b => (cmp a b).isLE = true) :
    (parted cmp w k l).Pairwise fun a b => (cmp a b).isLE = true := by
  have hmem : ∀ x ∈ partedClass cmp w k l, x ∈ l := by
    intro x hx
    refine (parted_perm cmp w k l).mem_iff.mp ?_
    exact List.mem_append.mpr (.inr (List.mem_append.mpr (.inl hx)))
  have hclass : ∀ x ∈ partedClass cmp w k l, cmp x w = .eq := fun x hx =>
    cmp_of_mem_partedClass h hw hx
  have hpart : ∀ o, ∀ x ∈ l.filter (fun y => y ≠ w ∧ cmp y w = o), x ∈ l ∧ cmp x w = o := by
    intro o x hx
    have hx' := List.mem_filter.mp hx
    simp only [ne_eq, decide_eq_true_eq] at hx'
    exact ⟨hx'.1, hx'.2.2⟩
  -- the three parts are below each other
  have hlow : ∀ a ∈ l, ∀ b ∈ l, cmp a w = .lt → cmp b w ≠ .lt → (cmp a b).isLE = true := by
    intro a ha b hb halt hb'
    rw [h.lt_of_lt_of_isLE ha hw hb halt ?_]
    · rfl
    · rw [h.1 b hb w hw]
      revert hb'
      cases cmp b w <;> simp
  unfold parted
  refine List.pairwise_append.mpr ⟨hsorted.filter _, List.pairwise_append.mpr ⟨?_, hsorted.filter _, ?_⟩, ?_⟩
  · refine List.pairwise_of_forall_mem_list ?_
    intro a ha b hb
    rw [h.congr_left (hmem a ha) hw (hmem b hb) (hclass a ha),
      h.eq_symm (hmem b hb) hw (hclass b hb)]
    rfl
  · intro a ha b hb
    obtain ⟨hb, hgt⟩ := hpart .gt b hb
    rw [h.congr_left (hmem a ha) hw hb (hclass a ha), h.1 b hb w hw, hgt]
    rfl
  · intro a ha b hb
    obtain ⟨ha, halt⟩ := hpart .lt a ha
    rcases List.mem_append.mp hb with hb | hb
    · refine hlow a ha b (hmem b hb) halt ?_
      rw [hclass b hb]
      decide
    · obtain ⟨hb, hgt⟩ := hpart .gt b hb
      refine hlow a ha b hb halt ?_
      rw [hgt]
      decide

/-- **The sort that parts the copies of `w`**: `k` of them stand in front of the elements that compare
equal to `w`. -/
def Sorter.parting (s : Sorter cmp) (w : α) (k : ℕ) : Sorter cmp where
  sort l := if w ∈ l then parted cmp w k (s.sort l) else s.sort l
  perm l := by
    split_ifs
    · exact (parted_perm cmp w k _).trans (s.perm l)
    · exact s.perm l
  sorted l h := by
    split_ifs with hw
    · refine parted_sorted (h.subset (s.perm l).subset) ((s.perm l).mem_iff.mpr hw) (s.sorted l h)
    · exact s.sorted l h

end Parting

/-- By `cmp`, and the elements with `p` first among equals. -/
def preferring (cmp : α → α → Ordering) (p : α → Bool) (a b : α) : Bool :=
  match cmp a b with
  | .lt => true
  | .eq => p a || !p b
  | .gt => false

theorem isLE_of_preferring {cmp : α → α → Ordering} {p : α → Bool} {a b : α}
    (h : preferring cmp p a b = true) : (cmp a b).isLE = true := by
  unfold preferring at h
  split at h
  · next hlt => rw [hlt]; rfl
  · next heq => rw [heq]; rfl
  · cases h

variable {cmp : α → α → Ordering} [Std.TransCmp cmp]

theorem preferring_trans (p : α → Bool) (a b c : α) (hab : preferring cmp p a b = true)
    (hbc : preferring cmp p b c = true) : preferring cmp p a c = true := by
  have hle := Std.TransCmp.isLE_trans (isLE_of_preferring hab) (isLE_of_preferring hbc)
  unfold preferring at hab hbc ⊢
  cases hac : cmp a c with
  | lt => rfl
  | gt =>
    rw [hac] at hle
    cases hle
  | eq =>
    -- then `b` compares equal to both
    have hba : (cmp b a).isLE = true := by
      have hbc' : (cmp b c).isLE = true := by
        revert hbc
        cases cmp b c <;> simp
      have hca : (cmp c a).isLE = true := by
        rw [@Std.OrientedCmp.eq_swap _ cmp _ _ _, hac]
        rfl
      exact Std.TransCmp.isLE_trans hbc' hca
    have heq : cmp a b = .eq := by
      cases hab' : cmp a b with
      | lt =>
        rw [@Std.OrientedCmp.eq_swap _ cmp _ _ _, hab'] at hba
        cases hba
      | eq => rfl
      | gt =>
        rw [hab'] at hab
        cases hab
    have heq' : cmp b c = .eq := by
      rw [← Std.TransCmp.congr_left heq, hac]
    simp only [heq] at hab
    simp only [heq'] at hbc
    simp only [Bool.or_eq_true, Bool.not_eq_true'] at hab hbc ⊢
    rcases hab with hab | hab
    · exact .inl hab
    · rcases hbc with hbc | hbc
      · rw [hab] at hbc
        cases hbc
      · exact .inr hbc

theorem preferring_total (p : α → Bool) (a b : α) :
    (preferring cmp p a b || preferring cmp p b a) = true := by
  unfold preferring
  rw [@Std.OrientedCmp.eq_swap _ cmp _ b]
  cases cmp a b with
  | lt => rfl
  | gt => rfl
  | eq =>
    simp only [Ordering.swap]
    cases p a <;> cases p b <;> rfl

/-- The sort that puts the elements with `p` in front of their equals. -/
def Sorter.favoring (cmp : α → α → Ordering) [Std.TransCmp cmp] (p : α → Bool) : Sorter cmp where
  sort l := l.mergeSort (preferring cmp p)
  perm l := List.mergeSort_perm l _
  sorted l _ := by
    refine (List.pairwise_mergeSort (preferring_trans p) (preferring_total p) l).imp ?_
    intro a b hab
    exact isLE_of_preferring hab

/-- **Of equal elements any can come first.** -/
theorem Sorter.find_favoring {p : α → Bool} {a : α} {l : List α} (ha : a ∈ l)
    (hp : ∀ x, p x = true ↔ x = a) :
    ((Sorter.favoring cmp p).sort l).find? (fun x => cmp x a == .eq) = some a := by
  have hmem : a ∈ (Sorter.favoring cmp p).sort l := ((Sorter.favoring cmp p).perm l).mem_iff.mpr ha
  have hpair : ((Sorter.favoring cmp p).sort l).Pairwise fun x y => preferring cmp p x y = true :=
    List.pairwise_mergeSort (preferring_trans p) (preferring_total p) l
  have hself : cmp a a = .eq := Std.ReflCmp.compare_self
  obtain ⟨pre, post, hsplit⟩ := List.append_of_mem hmem
  rw [hsplit] at hpair ⊢
  rw [List.find?_append]
  -- whatever stands in front of `a` and compares equal to it is `a`
  have hpre : ∀ x ∈ pre, cmp x a = .eq → x = a := by
    intro x hx heq
    have hxa := (List.pairwise_append.mp hpair).2.2 x hx a List.mem_cons_self
    simp only [preferring, heq, Bool.or_eq_true, Bool.not_eq_true'] at hxa
    rcases hxa with hxa | hxa
    · exact (hp x).mp hxa
    · rw [(hp a).mpr rfl] at hxa
      cases hxa
  cases hfind : pre.find? (fun x => cmp x a == .eq) with
  | none =>
    rw [Option.none_or, List.find?_cons_of_pos]
    rw [hself]
    rfl
  | some x =>
    have hx := List.find?_some hfind
    rw [hpre x (List.mem_of_find?_eq_some hfind) (by simpa using hx)]
    rfl

/-- **Elements that do not compare equal come out in one order**, whatever the sort and whatever the
order they went in. -/
theorem filter_sort_eq (s s' : Sorter cmp) {l l' : List α} (hperm : l.Perm l') (p : α → Bool)
    (hinj : ∀ a ∈ l, ∀ b ∈ l, p a = true → p b = true → cmp a b = .eq → a = b) :
    (s.sort l).filter p = (s'.sort l').filter p := by
  have hsorted := ((s.sorted l (consistentOn_of_transCmp cmp l)).filter p)
  have hsorted' := ((s'.sorted l' (consistentOn_of_transCmp cmp l')).filter p)
  have hp : ((s.sort l).filter p).Perm ((s'.sort l').filter p) :=
    (((s.perm l).trans hperm).trans (s'.perm l').symm).filter p
  refine hp.eq_of_pairwise ?_ hsorted hsorted'
  intro a b ha hb hab hba
  have hmem : ∀ x ∈ (s.sort l).filter p, x ∈ l ∧ p x = true := by
    intro x hx
    obtain ⟨hx, hpx⟩ := List.mem_filter.mp hx
    exact ⟨(s.perm l).mem_iff.mp hx, hpx⟩
  have ha' := hmem a ha
  have hb' := hmem b (hp.mem_iff.mpr hb)
  refine hinj a ha'.1 b hb'.1 ha'.2 hb'.2 ?_
  rw [@Std.OrientedCmp.eq_swap _ cmp _ _ _] at hba
  revert hab hba
  cases cmp a b <;> simp

end TorEbpf.Lib
