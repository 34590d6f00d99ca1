import TorEbpf.Lib.Sorting

/-!
# Series of a sorted list

Where elements with one key stand next to each other, a list is made of its series, one for each key.

* `exists_series` — the list is its series, one after the other;
* `prefix_of_between` — between texts with a common prefix there are only such texts;
* `IsLowMedian` — the low median, and `isLowMedian_sorted`, where a sorted list has it.
-/

namespace TorEbpf.Lib

variable {α κ : Type*} {key : α → κ} {l : List α}

/-! ### Series -/

/-- Between two elements with a key there is no other one. -/
def Contiguous (key : α → κ) (l : List α) : Prop :=
  ∀ a b c, [a, b, c].Sublist l → key a = key c → key b = key a

theorem Contiguous.sublist {l' : List α} (h : Contiguous key l) (hl : l'.Sublist l) : Contiguous key l' :=
  fun a b c habc => h a b c (habc.trans hl)

theorem Contiguous.dropWhile [DecidableEq κ] {a : α} (h : Contiguous key (a :: l)) :
    ∀ c ∈ l.dropWhile (key · = key a), key c ≠ key a := by
  intro c hc hkey
  cases hrest : l.dropWhile (key · = key a) with
  | nil =>
    rw [hrest] at hc
    cases hc
  | cons b rest =>
    have hb : key b ≠ key a := by
      have hhead := List.head?_dropWhile_not (fun x => decide (key x = key a)) l
      rw [hrest] at hhead
      simpa using hhead
    rw [hrest] at hc
    rcases List.mem_cons.mp hc with rfl | hc
    · exact hb hkey
    · have hsub : [a, b, c].Sublist (a :: l) := by
        refine List.Sublist.cons_cons a ?_
        refine List.Sublist.trans ?_ (List.dropWhile_sublist (key · = key a))
        rw [hrest]
        exact List.Sublist.cons_cons b (List.singleton_sublist.mpr hc)
      exact hb (h a b c hsub hkey.symm)

/-- **A contiguous list** is made of its series, one for each key. -/
theorem exists_series [DecidableEq κ] (h : Contiguous key l) :
    ∃ ks : List κ, ks.Nodup ∧ (∀ k, k ∈ ks ↔ ∃ a ∈ l, key a = k) ∧
      l = ks.flatMap fun k => l.filter (key · = k) := by
  induction hn : l.length using Nat.strong_induction_on generalizing l with
  | _ n ih =>
    cases l with
    | nil => exact ⟨[], List.nodup_nil, by simp, rfl⟩
    | cons a l =>
      have hrest := h.dropWhile
      have hlen := List.length_dropWhile_le (key · = key a) l
      have hsub : (l.dropWhile (key · = key a)).Sublist (a :: l) :=
        (List.dropWhile_sublist _).trans (List.sublist_cons_self a l)
      rw [List.length_cons] at hn
      obtain ⟨ks, hnodup, hmem, heq⟩ := ih _ (by omega) (h.sublist hsub) rfl
      have hsplit : a :: l = (a :: l.takeWhile (key · = key a)) ++ l.dropWhile (key · = key a) := by
        rw [List.cons_append, List.takeWhile_append_dropWhile]
      have htake : ∀ x ∈ a :: l.takeWhile (key · = key a), key x = key a := by
        intro x hx
        rcases List.mem_cons.mp hx with rfl | hx
        · rfl
        · simpa using List.mem_takeWhile_imp hx
      have hnot : key a ∉ ks := by
        intro hk
        obtain ⟨c, hc, hkey⟩ := (hmem (key a)).mp hk
        exact hrest c hc hkey
      have hfirst : (a :: l).filter (key · = key a) = a :: l.takeWhile (key · = key a) := by
        rw [hsplit, List.filter_append, List.filter_eq_self.mpr (by simpa using htake),
          List.filter_eq_nil_iff.mpr (by simpa using hrest), List.append_nil]
      have hother : ∀ k ∈ ks,
          (a :: l).filter (key · = k) = (l.dropWhile (key · = key a)).filter (key · = k) := by
        intro k hk
        have hne : ∀ x ∈ a :: l.takeWhile (key · = key a), key x ≠ k := by
          rintro x hx rfl
          exact hnot (by rw [← htake x hx]; exact hk)
        rw [hsplit, List.filter_append, List.filter_eq_nil_iff.mpr (by simpa using hne), List.nil_append]
      refine ⟨key a :: ks, List.nodup_cons.mpr ⟨hnot, hnodup⟩, fun k => ?_, ?_⟩
      · rw [List.mem_cons, hmem k]
        constructor
        · rintro (rfl | ⟨c, hc, rfl⟩)
          · exact ⟨a, List.mem_cons_self, rfl⟩
          · exact ⟨c, hsub.subset hc, rfl⟩
        · rintro ⟨c, hc, rfl⟩
          rw [hsplit] at hc
          rcases List.mem_append.mp hc with hc | hc
          · exact Or.inl (htake c hc)
          · exact Or.inr ⟨c, hc, rfl⟩
      · rw [List.flatMap_cons, hfirst, List.flatMap_congr hother, ← heq]
        exact hsplit

/-! ### Texts with a common prefix -/

theorem bytesCmp_cons (x y : UInt8) (a b : List UInt8) :
    bytesCmp (x :: a) (y :: b) = (compare x y).then (bytesCmp a b) := List.compareLex_cons_cons

theorem prefix_of_between {p a b c : List UInt8} (ha : p <+: a) (hc : p <+: c)
    (hab : (bytesCmp a b).isLE = true) (hbc : (bytesCmp b c).isLE = true) : p <+: b := by
  induction p generalizing a b c with
  | nil => exact List.nil_prefix
  | cons x p ih =>
    obtain ⟨a, rfl⟩ := ha
    obtain ⟨c, rfl⟩ := hc
    cases b with
    | nil => cases hab
    | cons y b =>
      rw [List.cons_append, bytesCmp_cons] at hab hbc
      have hxy : x = y := by
        have hle : (compare x y).isLE = true := by
          revert hab
          cases compare x y <;> simp
        have hge : (compare y x).isLE = true := by
          revert hbc
          cases compare y x <;> simp
        rw [Std.isLE_compare] at hle hge
        exact UInt8.le_antisymm hle hge
      subst hxy
      rw [Std.compare_self, Ordering.eq_then] at hab hbc
      exact List.cons_prefix_cons.mpr ⟨rfl, ih (List.prefix_append p a) (List.prefix_append p c) hab hbc⟩

/-! ### The low median -/

/-- The value in the middle, the lower one of two. -/
def IsLowMedian (l : List ℤ) (v : ℤ) : Prop :=
  v ∈ l ∧ l.countP (· < v) ≤ (l.length - 1) / 2 ∧ (l.length - 1) / 2 < l.countP (· ≤ v)

theorem IsLowMedian.perm {l l' : List ℤ} {v : ℤ} (h : IsLowMedian l v) (hp : l.Perm l') : IsLowMedian l' v := by
  obtain ⟨hmem, hlt, hle⟩ := h
  exact ⟨hp.mem_iff.mp hmem, by rwa [← hp.countP_eq, ← hp.length_eq], by rwa [← hp.countP_eq, ← hp.length_eq]⟩

theorem IsLowMedian.unique {l : List ℤ} {v w : ℤ} (hv : IsLowMedian l v) (hw : IsLowMedian l w) : v = w := by
  have hlt : ∀ {v w : ℤ}, IsLowMedian l v → IsLowMedian l w → ¬v < w := by
    rintro v w ⟨-, -, hle⟩ ⟨-, hlt, -⟩ hvw
    have hcount : l.countP (· ≤ v) ≤ l.countP (· < w) :=
      List.countP_mono_left fun x _ hx => by simpa using lt_of_le_of_lt (by simpa using hx) hvw
    omega
  exact le_antisymm (not_lt.mp (hlt hw hv)) (not_lt.mp (hlt hv hw))

/-- **A sorted list** has it in the middle. -/
theorem isLowMedian_sorted {l : List ℤ} (hl : l.Pairwise (· ≤ ·)) {v : ℤ}
    (hv : l[(l.length - 1) / 2]? = some v) : IsLowMedian l v := by
  obtain ⟨pre, post, hsplit, hlen⟩ : ∃ pre post, l = pre ++ v :: post ∧ pre.length = (l.length - 1) / 2 := by
    obtain ⟨hlt, rfl⟩ := List.getElem?_eq_some_iff.mp hv
    refine ⟨l.take ((l.length - 1) / 2), l.drop ((l.length - 1) / 2 + 1), ?_, ?_⟩
    · rw [← List.drop_eq_getElem_cons hlt, List.take_append_drop]
    · exact List.length_take_of_le hlt.le
  have hsorted := hl
  rw [hsplit, List.pairwise_append, List.pairwise_cons] at hsorted
  obtain ⟨-, ⟨hpost, -⟩, hpre⟩ := hsorted
  refine ⟨by rw [hsplit]; simp, ?_, ?_⟩
  · rw [← hlen]
    have hrest : (v :: post).countP (· < v) = 0 := by
      rw [List.countP_eq_zero]
      intro x hx
      rcases List.mem_cons.mp hx with rfl | hx
      · simp
      · simpa using hpost x hx
    rw [hsplit, List.countP_append, hrest, Nat.add_zero]
    exact List.countP_le_length
  · rw [← hlen]
    have hfront : pre.countP (· ≤ v) = pre.length := by
      rw [List.countP_eq_length]
      intro x hx
      simpa using hpre x hx v List.mem_cons_self
    rw [hsplit, List.countP_append, hfront, List.countP_cons_of_pos (by simp)]
    omega

end TorEbpf.Lib
