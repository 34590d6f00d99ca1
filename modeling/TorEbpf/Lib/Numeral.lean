import Mathlib

/-!
# Numerals in any base

* `numeral b digit n` — the numeral of `n` in base `b`, written with the digits `digit d`;
* `numeralValue b value l` — what a row of digits stands for;
* `numeralValue_numeral` — the two are inverse to each other if the digits have their values.
-/

namespace TorEbpf.Lib

variable {α : Type*} {b : ℕ} {digit : ℕ → α} {value : α → Option ℕ} {n k : ℕ} {l rest : List α}

/-- The digits of `n`, the most significant one first. -/
def digitsIn (b n : ℕ) : List ℕ := if n = 0 then [0] else (Nat.digits b n).reverse

/-- **The numeral of a number.** -/
def numeral (b : ℕ) (digit : ℕ → α) (n : ℕ) : List α := (digitsIn b n).map digit

/-- The number that a row of digits stands for; what is no digit counts for nothing. -/
def numeralValue (b : ℕ) (value : α → Option ℕ) (l : List α) : ℕ :=
  l.foldl (fun v c => b * v + (value c).getD 0) 0

theorem digitsIn_ne_nil : digitsIn b n ≠ [] := by
  unfold digitsIn
  split
  · exact List.cons_ne_nil _ _
  · next h => simpa [Nat.digits_eq_nil_iff_eq_zero] using h

theorem numeral_ne_nil : numeral b digit n ≠ [] := by
  simpa [numeral] using digitsIn_ne_nil

theorem lt_of_mem_digitsIn {d : ℕ} (hb : 1 < b) (h : d ∈ digitsIn b n) : d < b := by
  unfold digitsIn at h
  split at h
  · rw [List.mem_singleton] at h
    omega
  · exact Nat.digits_lt_base hb (List.mem_reverse.mp h)

theorem exists_of_mem_numeral {c : α} (hb : 1 < b) (h : c ∈ numeral b digit n) : ∃ d < b, digit d = c := by
  obtain ⟨d, hd, rfl⟩ := List.mem_map.mp h
  exact ⟨d, lt_of_mem_digitsIn hb hd, rfl⟩

theorem foldl_digitsIn : (digitsIn b n).foldl (fun v d => b * v + d) 0 = n := by
  unfold digitsIn
  split
  · next h => simp [h]
  · rw [List.foldl_reverse]
    calc List.foldr (fun x y => b * y + x) 0 (Nat.digits b n)
        = Nat.ofDigits b (Nat.digits b n) := by
          rw [Nat.ofDigits_eq_foldr]
          simp only [Nat.cast_id, Nat.add_comm]
      _ = n := Nat.ofDigits_digits b n

/-- **A numeral stands for its number.** -/
theorem numeralValue_numeral (hb : 1 < b) (hvalue : ∀ d < b, value (digit d) = some d) :
    numeralValue b value (numeral b digit n) = n := by
  rw [numeralValue, numeral, List.foldl_map]
  refine (List.foldl_ext _ _ _ fun v d hd => ?_).trans (foldl_digitsIn (b := b))
  rw [hvalue d (lt_of_mem_digitsIn hb hd), Option.getD_some]

theorem foldl_numeral_lt (hvalue : ∀ c d, value c = some d → d < b) (hb : 0 < b) :
    ∀ (l : List α) (v : ℕ), l.foldl (fun v c => b * v + (value c).getD 0) v < (v + 1) * b ^ l.length := by
  intro l
  induction l with
  | nil =>
    intro v
    simp
  | cons c l ih =>
    intro v
    have hd : (value c).getD 0 < b := by
      cases hc : value c with
      | none => exact hb
      | some d => exact hvalue c d hc
    calc List.foldl _ (b * v + (value c).getD 0) l
        < (b * v + (value c).getD 0 + 1) * b ^ l.length := ih _
      _ ≤ ((v + 1) * b) * b ^ l.length := by
          apply Nat.mul_le_mul_right
          rw [Nat.add_mul, Nat.mul_comm v b]
          omega
      _ = (v + 1) * b ^ (c :: l).length := by
          rw [List.length_cons, Nat.pow_succ', Nat.mul_assoc]

theorem numeralValue_lt (hvalue : ∀ c d, value c = some d → d < b) (hb : 0 < b) :
    numeralValue b value l < b ^ l.length := by
  have hlt := foldl_numeral_lt hvalue hb l 0
  rwa [Nat.zero_add, Nat.one_mul] at hlt

theorem isSome_of_mem_numeral (hb : 1 < b) (hvalue : ∀ d < b, value (digit d) = some d) {c : α}
    (h : c ∈ numeral b digit n) : (value c).isSome = true := by
  obtain ⟨d, hd, rfl⟩ := exists_of_mem_numeral hb h
  rw [hvalue d hd]
  rfl

/-! ### Where a row ends -/

section Ends

variable {p : α → Bool} (hrest : ∀ c ∈ rest.head?, p c = false)
include hrest

theorem takeWhile_append_of_head (hl : ∀ c ∈ l, p c = true) : (l ++ rest).takeWhile p = l := by
  rw [List.takeWhile_append_of_pos hl]
  cases rest with
  | nil => exact List.append_nil _
  | cons c rest => rw [List.takeWhile_cons_of_neg (by rw [hrest c rfl]; simp), List.append_nil]

theorem dropWhile_append_of_head (hl : ∀ c ∈ l, p c = true) : (l ++ rest).dropWhile p = rest := by
  rw [List.dropWhile_append_of_pos hl]
  cases rest with
  | nil => rfl
  | cons c rest => rw [List.dropWhile_cons_of_neg (by rw [hrest c rfl]; simp)]

end Ends

theorem head?_dropWhile_of_mem {p : α → Bool} {c : α} (h : c ∈ (l.dropWhile p).head?) : p c = false := by
  have hnot := List.head?_dropWhile_not p l
  rw [h] at hnot
  exact hnot

section Numerals

variable (hb : 1 < b) (hvalue : ∀ d < b, value (digit d) = some d)
  (hrest : ∀ c ∈ rest.head?, (value c).isSome = false)
include hb hvalue hrest

theorem takeWhile_numeral :
    (numeral b digit n ++ rest).takeWhile (fun c => (value c).isSome) = numeral b digit n :=
  takeWhile_append_of_head hrest fun _ => isSome_of_mem_numeral hb hvalue

theorem dropWhile_numeral :
    (numeral b digit n ++ rest).dropWhile (fun c => (value c).isSome) = rest :=
  dropWhile_append_of_head hrest fun _ => isSome_of_mem_numeral hb hvalue

end Numerals

theorem length_numeral_le (hb : 1 < b) (hk : 0 < k) (h : n < b ^ k) : (numeral b digit n).length ≤ k := by
  rw [numeral, List.length_map, digitsIn]
  split
  · exact hk
  · rw [List.length_reverse]
    exact (Nat.digits_length_le_iff hb n).mpr h

end TorEbpf.Lib
