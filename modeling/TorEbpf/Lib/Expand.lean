import Mathlib.Data.List.Basic
import Mathlib.Tactic.Common

/-!
# Expanding a list block by block

A code-rewriting pass replaces the element at each index of a list by a block that may depend on the
index.  `expand f l` is the result, and `pos f l i` is the place where the block of index `i` starts.
The lemmas say where the elements of the blocks stand (`expand_getElem?`), that every place of the
result belongs to one block (`exists_of_lt_expand`), and how the places advance (`pos_succ`).
-/

namespace TorEbpf.Lib

variable {α β : Type*}

/-- Replace each element of a list, whose indices start at `i`, by its block. -/
def expandFrom (f : ℕ → α → List β) : ℕ → List α → List β
  | _, [] => []
  | i, a :: as => f i a ++ expandFrom f (i + 1) as

/-- Replace each element of a list by its block. -/
def expand (f : ℕ → α → List β) (l : List α) : List β := expandFrom f 0 l

/-- Where the block of index `i` starts in `expand f l`. -/
def pos (f : ℕ → α → List β) (l : List α) (i : ℕ) : ℕ := (expand f (l.take i)).length

theorem expandFrom_append (f : ℕ → α → List β) (i : ℕ) (l m : List α) :
    expandFrom f i (l ++ m) = expandFrom f i l ++ expandFrom f (i + l.length) m := by
  induction l generalizing i with
  | nil => simp [expandFrom]
  | cons a as ih =>
    simp only [List.cons_append, expandFrom, ih, List.append_assoc, List.length_cons]
    rw [show i + 1 + as.length = i + (as.length + 1) from by omega]

theorem expand_eq_append {f : ℕ → α → List β} {l : List α} {i : ℕ} {a : α} (h : l[i]? = some a) :
    expand f l = expand f (l.take i) ++ (f i a ++ expandFrom f (i + 1) (l.drop (i + 1))) := by
  obtain ⟨hi, ha⟩ := List.getElem?_eq_some_iff.mp h
  have hl : l = l.take i ++ a :: l.drop (i + 1) := by
    conv_lhs => rw [← List.take_append_drop i l, List.drop_eq_getElem_cons hi, ha]
  conv_lhs => rw [hl]
  rw [expand, expandFrom_append, List.length_take_of_le (Nat.le_of_lt hi), Nat.zero_add]
  rfl

/-- **Where a block stands.**  Element `k` of the block of index `i` is at `pos f l i + k`. -/
theorem expand_getElem? {f : ℕ → α → List β} {l : List α} {i : ℕ} {a : α} (h : l[i]? = some a)
    {k : ℕ} (hk : k < (f i a).length) :
    (expand f l)[pos f l i + k]? = (f i a)[k]? := by
  rw [expand_eq_append h, pos, List.getElem?_append_right (by omega), Nat.add_sub_cancel_left,
    List.getElem?_append_left hk]

@[simp] theorem pos_zero (f : ℕ → α → List β) (l : List α) : pos f l 0 = 0 := by
  simp [pos, expand, expandFrom]

theorem pos_succ {f : ℕ → α → List β} {l : List α} {i : ℕ} {a : α} (h : l[i]? = some a) :
    pos f l (i + 1) = pos f l i + (f i a).length := by
  have ht : l.take (i + 1) = l.take i ++ [a] := by
    rw [List.take_add_one, h]
    rfl
  obtain ⟨hi, _⟩ := List.getElem?_eq_some_iff.mp h
  rw [pos, ht, expand, expandFrom_append, List.length_append, List.length_take_of_le (Nat.le_of_lt hi)]
  simp [pos, expand, expandFrom]

theorem pos_length (f : ℕ → α → List β) (l : List α) : pos f l l.length = (expand f l).length := by
  rw [pos, List.take_length]

/-- **Every place belongs to a block.** -/
theorem exists_of_lt_expand {f : ℕ → α → List β} {l : List α} {p : ℕ}
    (hp : p < (expand f l).length) :
    ∃ i a k, l[i]? = some a ∧ k < (f i a).length ∧ p = pos f l i + k := by
  -- the least index whose successor starts beyond `p`
  suffices key : ∀ n ≤ l.length, p < pos f l n →
      ∃ i a k, l[i]? = some a ∧ k < (f i a).length ∧ p = pos f l i + k from
    key l.length (Nat.le_refl _) (by rw [pos_length]; exact hp)
  intro n
  induction n with
  | zero =>
    intro _ h
    rw [pos_zero] at h
    omega
  | succ n ih =>
    intro hn h
    by_cases hlt : p < pos f l n
    · exact ih (by omega) hlt
    · have hget : l[n]? = some l[n] := List.getElem?_eq_getElem (by omega)
      rw [pos_succ hget] at h
      exact ⟨n, l[n], p - pos f l n, hget, by omega, by omega⟩

end TorEbpf.Lib
