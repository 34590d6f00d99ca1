import Mathlib

/-!
# Decimal numerals as bytes

* `decimal n` — the numeral of `n`, as `%d` prints it;
* `readDecimal` — the digits in front of a text, as a number, and what follows them;
* `readDecimal_decimal` — reading a numeral that no digit follows gives the number back.
-/

namespace TorEbpf.Lib

def isDigit (c : UInt8) : Bool := 48 ≤ c && c ≤ 57

def digit (d : ℕ) : UInt8 := (48 + d).toUInt8

theorem digit_toNat {d : ℕ} (h : d < 10) : (digit d).toNat = 48 + d := by
  simp only [digit, Nat.toUInt8, UInt8.toNat_ofNat']
  omega

theorem isDigit_digit {d : ℕ} (h : d < 10) : isDigit (digit d) = true := by
  simp only [isDigit, Bool.and_eq_true, decide_eq_true_eq, UInt8.le_iff_toNat_le, digit_toNat h]
  constructor
  · exact Nat.le_add_right 48 d
  · change 48 + d ≤ 57
    omega

/-- The digits of `n`, the most significant one first. -/
def digitsOf (n : ℕ) : List ℕ := if n = 0 then [0] else (Nat.digits 10 n).reverse

/-- **The numeral of a number.** -/
def decimal (n : ℕ) : List UInt8 := (digitsOf n).map digit

/-- The number a list of digits stands for. -/
def decimalValue (l : List UInt8) : ℕ := l.foldl (fun v c => 10 * v + (c.toNat - 48)) 0

/-- The digits in front of a text, as a number, and what follows them; nothing if there are none. -/
def readDecimal (l : List UInt8) : Option (ℕ × List UInt8) :=
  match l.takeWhile isDigit with
  | [] => none
  | d :: ds => some (decimalValue (d :: ds), l.dropWhile isDigit)

theorem lt_ten_of_mem_digitsOf {n d : ℕ} (h : d ∈ digitsOf n) : d < 10 := by
  unfold digitsOf at h
  split at h
  · rw [List.mem_singleton] at h
    omega
  · exact Nat.digits_lt_base (by omega) (List.mem_reverse.mp h)

theorem foldl_digitsOf (n : ℕ) : (digitsOf n).foldl (fun v d => 10 * v + d) 0 = n := by
  unfold digitsOf
  split
  · next h => simp [h]
  · rw [List.foldl_reverse]
    calc List.foldr (fun x y => 10 * y + x) 0 (Nat.digits 10 n)
        = Nat.ofDigits 10 (Nat.digits 10 n) := by
          rw [Nat.ofDigits_eq_foldr]
          simp only [Nat.cast_id, Nat.add_comm]
      _ = n := Nat.ofDigits_digits 10 n

theorem digitsOf_ne_nil (n : ℕ) : digitsOf n ≠ [] := by
  unfold digitsOf
  split
  · exact List.cons_ne_nil _ _
  · next h => simpa [Nat.digits_eq_nil_iff_eq_zero] using h

theorem decimal_ne_nil (n : ℕ) : decimal n ≠ [] := by
  simpa [decimal] using digitsOf_ne_nil n

theorem isDigit_of_mem_decimal {n : ℕ} {c : UInt8} (h : c ∈ decimal n) : isDigit c = true := by
  obtain ⟨d, hd, rfl⟩ := List.mem_map.mp h
  exact isDigit_digit (lt_ten_of_mem_digitsOf hd)

theorem foldl_map_digit (l : List ℕ) (v : ℕ) (h : ∀ d ∈ l, d < 10) :
    (l.map digit).foldl (fun v c => 10 * v + (c.toNat - 48)) v =
      l.foldl (fun v d => 10 * v + d) v := by
  induction l generalizing v with
  | nil => rfl
  | cons d l ih =>
    have hd : (digit d).toNat - 48 = d := by
      rw [digit_toNat (h d List.mem_cons_self)]
      omega
    simp only [List.map_cons, List.foldl_cons, hd]
    exact ih _ (fun e he => h e (List.mem_cons_of_mem d he))

theorem decimalValue_decimal (n : ℕ) : decimalValue (decimal n) = n := by
  rw [decimalValue, decimal, foldl_map_digit _ _ (fun d => lt_ten_of_mem_digitsOf), foldl_digitsOf]

/-- **A numeral that no digit follows is read back.** -/
theorem readDecimal_decimal (n : ℕ) {rest : List UInt8} (h : ∀ c ∈ rest.head?, isDigit c = false) :
    readDecimal (decimal n ++ rest) = some (n, rest) := by
  have hrest : rest.takeWhile isDigit = [] ∧ rest.dropWhile isDigit = rest := by
    cases rest with
    | nil => exact ⟨rfl, rfl⟩
    | cons c rest =>
      have hc : isDigit c = false := h c rfl
      simp [hc]
  have htake : (decimal n ++ rest).takeWhile isDigit = decimal n := by
    rw [List.takeWhile_append_of_pos (fun c => isDigit_of_mem_decimal), hrest.1, List.append_nil]
  have hdrop : (decimal n ++ rest).dropWhile isDigit = rest := by
    rw [List.dropWhile_append_of_pos (fun c => isDigit_of_mem_decimal), hrest.2]
  obtain ⟨d, ds, hds⟩ := List.exists_cons_of_ne_nil (decimal_ne_nil n)
  rw [readDecimal, htake, hdrop]
  simp only [hds]
  rw [← hds, decimalValue_decimal]

/-- The numbers below `10 ^ k` are those of at most `k` digits. -/
theorem length_decimal_le_iff {n k : ℕ} (hk : 0 < k) : (decimal n).length ≤ k ↔ n < 10 ^ k := by
  rw [decimal, List.length_map, digitsOf]
  split
  · next h =>
    rw [h]
    exact iff_of_true hk (Nat.pow_pos (by decide))
  · rw [List.length_reverse]
    exact Nat.digits_length_le_iff (by omega) n

theorem length_decimal_le {n k : ℕ} (hk : 0 < k) (h : n < 10 ^ k) : (decimal n).length ≤ k :=
  (length_decimal_le_iff hk).mpr h

/-- A number of two digits, with a zero in front. -/
def twoDigits (n : ℕ) : List UInt8 := [digit (n / 10), digit (n % 10)]

theorem isDigit_of_mem_twoDigits {n : ℕ} (h : n < 100) {c : UInt8} (hc : c ∈ twoDigits n) : isDigit c = true := by
  rw [twoDigits, List.mem_cons, List.mem_singleton] at hc
  rcases hc with rfl | rfl
  · exact isDigit_digit (by omega)
  · exact isDigit_digit (by omega)

theorem decimalValue_twoDigits {n : ℕ} (h : n < 100) : decimalValue (twoDigits n) = n := by
  simp only [decimalValue, twoDigits, List.foldl_cons, List.foldl_nil, digit_toNat (show n / 10 < 10 by omega),
    digit_toNat (show n % 10 < 10 by omega)]
  omega

end TorEbpf.Lib
