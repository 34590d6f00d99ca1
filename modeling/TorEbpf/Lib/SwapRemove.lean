import Mathlib.Data.List.Perm.Basic
import Mathlib.Data.List.Count

/-!
# Removal from an unordered array

`swapRemove l i` drops the element at `i` and moves the last one into its place.  The order of the others
is lost; what the list contains is not:

* `swapRemove_perm` — the list is the element that was removed and what is left;
* `count_swapRemove` — of that element there is one less, of every other as many as before.
-/

namespace TorEbpf.Lib

variable {α : Type}

/-- Put the last element in the place of the one at `i`, and drop the end. -/
def swapRemove (l : List α) (i : ℕ) : List α :=
  match l.getLast? with
  | none => []
  | some last => (l.set i last).dropLast

theorem swapRemove_concat_last (l : List α) (x : α) : swapRemove (l ++ [x]) l.length = l := by
  rw [swapRemove, List.getLast?_concat]
  simp

/-- Another one is overwritten by the last. -/
theorem swapRemove_concat_mid (pre post : List α) (x last : α) :
    swapRemove (pre ++ x :: post ++ [last]) pre.length = pre ++ last :: post := by
  have hset : (pre ++ x :: post ++ [last]).set pre.length last = pre ++ last :: post ++ [last] := by
    simp
  rw [swapRemove, List.getLast?_concat]
  show ((pre ++ x :: post ++ [last]).set pre.length last).dropLast = _
  rw [hset, List.dropLast_concat]

/-- **What is left.** -/
theorem swapRemove_perm {l : List α} {i : ℕ} {x : α} (h : l[i]? = some x) :
    (x :: swapRemove l i).Perm l := by
  obtain ⟨pre, post, rfl, rfl⟩ : ∃ pre post, l = pre ++ x :: post ∧ i = pre.length := by
    obtain ⟨hi, rfl⟩ := List.getElem?_eq_some_iff.mp h
    refine ⟨l.take i, l.drop (i + 1), ?_, (List.length_take_of_le (by omega)).symm⟩
    rw [← List.drop_eq_getElem_cons hi, List.take_append_drop]
  obtain rfl | ⟨post', last, rfl⟩ := List.eq_nil_or_concat post
  · rw [swapRemove_concat_last]
    exact (List.perm_append_singleton x pre).symm
  · rw [List.concat_eq_append, ← List.cons_append, ← List.append_assoc, swapRemove_concat_mid]
    calc (x :: (pre ++ last :: post')).Perm (x :: (last :: (pre ++ post'))) :=
          List.perm_middle.cons x
      _ |>.Perm (last :: (x :: (pre ++ post'))) := List.Perm.swap ..
      _ |>.Perm (last :: (pre ++ x :: post')) := List.perm_middle.symm.cons last
      _ |>.Perm (pre ++ x :: post' ++ [last]) := (List.perm_append_singleton last _).symm

theorem count_swapRemove [BEq α] {l : List α} {i : ℕ} {x : α} (h : l[i]? = some x) (a : α) :
    (swapRemove l i).count a = l.count a - if x == a then 1 else 0 := by
  have hcount := (swapRemove_perm h).count_eq a
  rw [List.count_cons] at hcount
  omega

end TorEbpf.Lib
