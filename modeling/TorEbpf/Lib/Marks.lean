import Mathlib.Data.List.Basic
import Mathlib.Logic.Function.Iterate
import Mathlib.Tactic.Common

/-!
# Marked indices

A pass over a list often records the indices it has to come back to.  `marks c n` are the indices
below `n` that a predicate marks, in order.  A loop that walks over the recorded indices and counts
those in an interval stops early because they are sorted; the lemmas say that it still counts all of
them (`takeWhile_marks`, `countP_marks`).
-/

namespace TorEbpf.Lib

/-- The marked indices below `n`, in increasing order. -/
def marks (c : ℕ → Bool) (n : ℕ) : List ℕ := (List.range n).filter c

theorem marks_succ (c : ℕ → Bool) (n : ℕ) :
    marks c (n + 1) = marks c n ++ if c n then [n] else [] := by
  rw [marks, List.range_succ, List.filter_append]
  cases hc : c n <;> simp [marks, hc]

theorem mem_marks {c : ℕ → Bool} {n p : ℕ} : p ∈ marks c n ↔ p < n ∧ c p = true := by
  simp [marks]

/-- The marked indices below `n` are those below `t` followed by larger ones. -/
theorem marks_eq_append (c : ℕ → Bool) {t n : ℕ} (h : t ≤ n) :
    ∃ l, marks c n = marks c t ++ l ∧ ∀ p ∈ l, t ≤ p := by
  induction n with
  | zero =>
    obtain rfl : t = 0 := by omega
    exact ⟨[], by simp, by simp⟩
  | succ n ih =>
    rcases Nat.lt_or_ge n t with hlt | hge
    · obtain rfl : t = n + 1 := by omega
      exact ⟨[], by simp, by simp⟩
    · obtain ⟨l, hl, hp⟩ := ih hge
      refine ⟨l ++ if c n then [n] else [], by rw [marks_succ, hl, List.append_assoc], ?_⟩
      intro p hmem
      rcases List.mem_append.mp hmem with hmem | hmem
      · exact hp p hmem
      · cases hc : c n <;> simp [hc] at hmem
        omega

theorem length_marks_le {c : ℕ → Bool} {t n : ℕ} (h : t ≤ n) :
    (marks c t).length ≤ (marks c n).length := by
  obtain ⟨l, hl, _⟩ := marks_eq_append c h
  rw [hl, List.length_append]
  omega

/-- Walking until the first index that is not below `t` visits exactly those below `t`. -/
theorem takeWhile_marks (c : ℕ → Bool) {t n : ℕ} (h : t ≤ n) :
    (marks c n).takeWhile (fun p => p < t) = marks c t := by
  obtain ⟨l, hl, hp⟩ := marks_eq_append c h
  rw [hl, List.takeWhile_append_of_pos (by
    intro p hmem
    simpa using (mem_marks.mp hmem).1)]
  cases l with
  | nil => simp
  | cons p l =>
    have := hp p (by simp)
    rw [List.takeWhile_cons_of_neg (by simpa using this), List.append_nil]

/-- The marked indices in `[a, t)`, counted over those below `t`. -/
theorem countP_marks (c : ℕ → Bool) {a t : ℕ} (h : a ≤ t) :
    (marks c t).countP (fun p => a ≤ p ∧ p < t) = (marks c t).length - (marks c a).length := by
  obtain ⟨l, hl, hp⟩ := marks_eq_append c h
  have hbelow : (marks c a).countP (fun p => a ≤ p ∧ p < t) = 0 := by
    rw [List.countP_eq_zero]
    intro p hmem
    have := (mem_marks.mp hmem).1
    simp only [decide_eq_true_eq]
    omega
  have habove : l.countP (fun p => a ≤ p ∧ p < t) = l.length := by
    rw [List.countP_eq_length]
    intro p hmem
    have ht : p < t := (mem_marks.mp (by rw [hl]; exact List.mem_append_right _ hmem)).1
    simpa using ⟨hp p hmem, ht⟩
  rw [hl, List.countP_append, hbelow, habove, List.length_append]
  omega

/-- A fold that steps at some elements of a list is the step iterated. -/
theorem foldl_ite_iterate {α β : Type*} (f : α → α) (q : β → Prop) [DecidablePred q] (l : List β)
    (s : α) : l.foldl (fun o p => if q p then f o else o) s = f^[l.countP fun p => q p] s := by
  induction l generalizing s with
  | nil => rfl
  | cons b l ih =>
    rw [List.foldl_cons, ih]
    by_cases hq : q b
    · rw [if_pos hq, List.countP_cons_of_pos (by simpa using hq), Function.iterate_succ_apply]
    · rw [if_neg hq, List.countP_cons_of_neg (by simpa using hq)]

end TorEbpf.Lib
