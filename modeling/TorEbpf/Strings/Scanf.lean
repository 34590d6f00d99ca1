import TorEbpf.Lib.Numeral
import TorEbpf.Strings.ParseInt

/-!
# Scanning numbers

Hexadecimal digits, `strtol` in base 16, and the `tor_sscanf` of `scanf.c` as far as `%u` with a width, `%c`
and plain characters.

* `strtol16_of_plain`, `strtol16_of_0x` — what `strtol` reads where a hexadecimal digit stands first;
* `scanUnsigned_digits` — `%u` reads digits that are not more than the width.
-/

namespace TorEbpf.Strings

open TorEbpf.Lib

/-! ### Hexadecimal digits -/

def hexDecodeDigit (c : UInt8) : Option ℕ :=
  if 48 ≤ c ∧ c ≤ 57 then some (c.toNat - 48)
  else if 65 ≤ c ∧ c ≤ 70 then some (c.toNat - 55)
  else if 97 ≤ c ∧ c ≤ 102 then some (c.toNat - 87)
  else none

def torIsXDigit (c : UInt8) : Bool := (hexDecodeDigit c).isSome

/-- The digits of `%x`. -/
def hexDigit (d : ℕ) : UInt8 := if d < 10 then (48 + d).toUInt8 else (87 + d).toUInt8

/-- A number as `%x` prints it. -/
def hexadecimal (n : ℕ) : List UInt8 := numeral 16 hexDigit n

def hexValue (l : List UInt8) : ℕ := numeralValue 16 hexDecodeDigit l

theorem hexDecodeDigit_hexDigit {d : ℕ} (h : d < 16) : hexDecodeDigit (hexDigit d) = some d := by
  interval_cases d <;> rfl

theorem hexDecodeDigit_lt {c : UInt8} {d : ℕ} (h : hexDecodeDigit c = some d) : d < 16 := by
  unfold hexDecodeDigit at h
  simp only [UInt8.le_iff_toNat_le] at h
  split_ifs at h with h1 h2 h3
  · cases h
    have := h1.2
    change c.toNat ≤ 57 at this
    omega
  · cases h
    have := h2.2
    change c.toNat ≤ 70 at this
    omega
  · cases h
    have := h3.2
    change c.toNat ≤ 102 at this
    omega

theorem torIsXDigit_bounds {c : UInt8} (h : torIsXDigit c = true) :
    48 ≤ c.toNat ∧ c.toNat ≤ 57 ∨ 65 ≤ c.toNat ∧ c.toNat ≤ 70 ∨ 97 ≤ c.toNat ∧ c.toNat ≤ 102 := by
  unfold torIsXDigit hexDecodeDigit at h
  simp only [UInt8.le_iff_toNat_le] at h
  split_ifs at h with h1 h2 h3
  · exact Or.inl h1
  · exact Or.inr (Or.inl h2)
  · exact Or.inr (Or.inr h3)
  · cases h

theorem hexadecimal_ne_nil (n : ℕ) : hexadecimal n ≠ [] := numeral_ne_nil

theorem torIsXDigit_of_mem_hexadecimal {n : ℕ} {c : UInt8} (h : c ∈ hexadecimal n) : torIsXDigit c = true :=
  isSome_of_mem_numeral (by decide) (fun _ => hexDecodeDigit_hexDigit) h

theorem hexValue_hexadecimal (n : ℕ) : hexValue (hexadecimal n) = n :=
  numeralValue_numeral (by decide) fun _ => hexDecodeDigit_hexDigit

theorem hexValue_lt (l : List UInt8) : hexValue l < 16 ^ l.length :=
  numeralValue_lt (fun _ _ => hexDecodeDigit_lt) (by decide)

/-! ### `strtol` -/

/-- The base prefix is skipped in front of a digit. -/
def skip0x : List UInt8 → List UInt8
  | 0x30 :: x :: d :: t => if (x = 0x78 ∨ x = 0x58) ∧ torIsXDigit d = true then d :: t else 0x30 :: x :: d :: t
  | t => t

/-- A value that does not fit a `long`. -/
def clampLong (v : ℤ) : ℤ := max (-2 ^ 63) (min v (2 ^ 63 - 1))

/-- `strtol` in base 16: the value, and where it ends. -/
def strtol16 (s : List UInt8) : ℤ × List UInt8 :=
  let (negative, t) := sign (s.dropWhile isSpace)
  let t := skip0x t
  match t.takeWhile torIsXDigit with
  | [] => (0, s)
  | digits =>
    (clampLong (if negative then -(hexValue digits : ℤ) else hexValue digits), t.dropWhile torIsXDigit)

section Strtol

variable {c : UInt8} {t s : List UInt8}

theorem sign_of_torIsXDigit (hc : torIsXDigit c = true) :
    sign ((c :: t).dropWhile isSpace) = (false, c :: t) := by
  have hbounds := torIsXDigit_bounds hc
  have hspace : isSpace c = false := by
    simp only [isSpace, Bool.or_eq_false_iff, Bool.and_eq_false_iff, decide_eq_false_iff_not,
      UInt8.le_iff_toNat_le, ← UInt8.toNat_inj]
    simp only [UInt8.reduceToNat]
    omega
  rw [List.dropWhile_cons_of_neg (by rw [hspace]; simp)]
  unfold sign
  split
  · next heq =>
    cases heq
    exact absurd hc (by decide)
  · next heq =>
    cases heq
    exact absurd hc (by decide)
  · rfl

/-- **Without a base prefix** the digits are read. -/
theorem strtol16_of_plain (hc : torIsXDigit c = true) (hskip : skip0x (c :: t) = c :: t) :
    strtol16 (c :: t) = (clampLong (hexValue ((c :: t).takeWhile torIsXDigit)),
      (c :: t).dropWhile torIsXDigit) := by
  unfold strtol16
  rw [sign_of_torIsXDigit hc]
  dsimp only
  rw [hskip, List.takeWhile_cons_of_pos hc]
  rfl

/-- **A base prefix** takes two bytes, and what follows it is not empty. -/
theorem strtol16_of_0x (hc : torIsXDigit c = true) (hskip : skip0x (c :: t) ≠ c :: t) :
    ∃ x d u, t = x :: d :: u ∧ torIsXDigit x = false ∧ (x = 0x78 ∨ x = 0x58) ∧ torIsXDigit d = true ∧
      (strtol16 (c :: t)).2 = (d :: u).dropWhile torIsXDigit := by
  have hsign := sign_of_torIsXDigit (t := t) hc
  unfold strtol16
  rw [hsign]
  dsimp only
  unfold skip0x at hskip ⊢
  split at hskip
  · next heq =>
    cases heq
    split_ifs at hskip with hcond
    · refine ⟨_, _, _, rfl, ?_, hcond.1, hcond.2, ?_⟩
      · rcases hcond.1 with rfl | rfl <;> decide
      · rw [if_pos hcond, List.takeWhile_cons_of_pos hcond.2]
    · exact absurd rfl hskip
  · exact absurd rfl hskip

end Strtol

/-! ### `tor_sscanf` -/

def ulongMax : ℕ := 2 ^ 64 - 1

/-- The digits that `scan_unsigned` reads in base 10, at most `width`; an overflow is an error. -/
def scanDigits : ℕ → ℕ → List UInt8 → Option (ℕ × List UInt8)
  | width + 1, result, c :: buf =>
    if isDigit c = true then
      let digit := c.toNat - 48
      if (ulongMax - digit) / 10 < result then none else scanDigits width (result * 10 + digit) buf
    else some (result, c :: buf)
  | _, result, buf => some (result, buf)

/-- `scan_unsigned` in base 10: the number and where it ends. -/
def scanUnsigned (width : ℕ) (buf : List UInt8) : Option (ℕ × List UInt8) :=
  (scanDigits width 0 buf).filter fun p => p.2.length ≠ buf.length

/-- What a pattern is made of: a character, `%<width>u`, or `%c`. -/
inductive ScanItem where
  | char (c : UInt8)
  | u (width : ℕ)
  | c

/-- `tor_vsscanf`: the values that were matched. -/
def torSscanf : List ScanItem → List UInt8 → List ℕ
  | [], _ => []
  | .char c :: pattern, b :: buf => if b = c then torSscanf pattern buf else []
  | .u width :: pattern, b :: buf =>
    match scanUnsigned width (b :: buf) with
    | some (u, rest) => if 2 ^ 32 ≤ u then [] else u :: torSscanf pattern rest
    | none => []
  | .c :: pattern, b :: buf => b.toNat :: torSscanf pattern buf
  | _ :: _, [] => []

/-- `scan_string`: the string and where it ends. -/
def scanString (width : ℕ) (buf : List UInt8) : List UInt8 × List UInt8 :=
  let s := (buf.takeWhile fun c => !isSpace c).take width
  (s, buf.drop s.length)

inductive ScanArg where
  | number (n : ℕ)
  | string (s : List UInt8)

/-- What a pattern is made of where there is `%<width>s`, too. -/
inductive ScanSpec where
  | item (i : ScanItem)
  | s (width : ℕ)

/-- `tor_vsscanf` with strings: the values that were matched. -/
def torSscanfArgs : List ScanSpec → List UInt8 → List ScanArg
  | [], _ => []
  | .s width :: pattern, buf => .string (scanString width buf).1 :: torSscanfArgs pattern (scanString width buf).2
  | .item (.char c) :: pattern, b :: buf => if b = c then torSscanfArgs pattern buf else []
  | .item (.u width) :: pattern, b :: buf =>
    match scanUnsigned width (b :: buf) with
    | some (u, rest) => if 2 ^ 32 ≤ u then [] else .number u :: torSscanfArgs pattern rest
    | none => []
  | .item .c :: pattern, b :: buf => .number b.toNat :: torSscanfArgs pattern buf
  | .item _ :: _, [] => []

theorem torSscanfArgs_item (pattern : List ScanItem) (buf : List UInt8) :
    torSscanfArgs (pattern.map .item) buf = (torSscanf pattern buf).map .number := by
  induction pattern generalizing buf with
  | nil => rfl
  | cons i pattern ih =>
    cases buf with
    | nil => cases i <;> rfl
    | cons b buf =>
      cases i with
      | char c =>
        rw [List.map_cons, torSscanfArgs, torSscanf]
        split_ifs with hb
        · exact ih buf
        · rfl
      | u width =>
        rw [List.map_cons, torSscanfArgs, torSscanf]
        split
        · split_ifs
          · rfl
          · rw [List.map_cons, ih]
        · rfl
      | c => rw [List.map_cons, torSscanfArgs, torSscanf, List.map_cons, ih]

section Scan

variable {width result v n : ℕ} {l buf rest : List UInt8}

theorem scanDigits_of_head (hrest : ∀ c ∈ rest.head?, isDigit c = false) :
    scanDigits width result rest = some (result, rest) := by
  cases rest with
  | nil => cases width <;> rfl
  | cons c rest =>
    cases width with
    | zero => rfl
    | succ width => rw [scanDigits, if_neg (by rw [hrest c rfl]; simp)]

/-- Digits are read as long as no digit follows them and the width and the type hold them. -/
theorem scanDigits_append (hl : ∀ c ∈ l, isDigit c = true) (hwidth : l.length ≤ width)
    (hmax : (result + 1) * 10 ^ l.length ≤ 2 ^ 64) (hrest : ∀ c ∈ rest.head?, isDigit c = false) :
    scanDigits width result (l ++ rest) =
      some (l.foldl (fun v c => 10 * v + (c.toNat - 48)) result, rest) := by
  induction l generalizing width result with
  | nil =>
    rw [List.nil_append, List.foldl_nil, scanDigits_of_head hrest]
  | cons c l ih =>
    cases width with
    | zero => cases hwidth
    | succ width =>
      have hc := hl c List.mem_cons_self
      have hdigit : c.toNat ≤ 57 := by
        simp only [isDigit, Bool.and_eq_true, decide_eq_true_eq, UInt8.le_iff_toNat_le] at hc
        exact hc.2
      have hpos : 0 < 10 ^ l.length := Nat.pow_pos (by decide)
      have hstep : (result * 10 + (c.toNat - 48) + 1) * 10 ^ l.length ≤ 2 ^ 64 := by
        refine Nat.le_trans ?_ hmax
        rw [List.length_cons, Nat.pow_succ', ← Nat.mul_assoc]
        apply Nat.mul_le_mul_right
        omega
      have hfits : result * 10 + (c.toNat - 48) < 2 ^ 64 :=
        Nat.lt_of_lt_of_le (Nat.lt_of_lt_of_le (Nat.lt_succ_self _) (Nat.le_mul_of_pos_right _ hpos)) hstep
      rw [List.cons_append, scanDigits, if_pos hc]
      dsimp only
      rw [if_neg (by unfold ulongMax; omega),
        ih (fun d hd => hl d (List.mem_cons_of_mem c hd)) (Nat.le_of_succ_le_succ hwidth) hstep,
        List.foldl_cons, Nat.mul_comm result]

/-- **`%u` reads digits** that no digit follows. -/
theorem scanUnsigned_digits (hl : ∀ c ∈ l, isDigit c = true) (hpos : 0 < l.length) (hwidth : l.length ≤ width)
    (hmax : l.length ≤ 19) (hrest : ∀ c ∈ rest.head?, isDigit c = false) :
    scanUnsigned width (l ++ rest) = some (decimalValue l, rest) := by
  have hle : (0 + 1) * 10 ^ l.length ≤ 2 ^ 64 :=
    calc (0 + 1) * 10 ^ l.length = 10 ^ l.length := by rw [Nat.zero_add, Nat.one_mul]
      _ ≤ 10 ^ 19 := Nat.pow_le_pow_right (by decide) hmax
      _ ≤ 2 ^ 64 := by decide
  rw [scanUnsigned, scanDigits_append hl hwidth hle hrest, decimalValue]
  simp [Nat.ne_of_gt hpos]

/-! #### Items of a pattern -/

variable {pattern : List ScanItem} {specs : List ScanSpec} {c : UInt8}

theorem torSscanf_digits (hl : ∀ c ∈ l, isDigit c = true) (hpos : 0 < l.length) (hwidth : l.length ≤ width)
    (hmax : l.length ≤ 19) (h32 : decimalValue l < 2 ^ 32) (hrest : ∀ c ∈ rest.head?, isDigit c = false) :
    torSscanf (.u width :: pattern) (l ++ rest) = decimalValue l :: torSscanf pattern rest := by
  have hscan := scanUnsigned_digits hl hpos hwidth hmax hrest
  obtain ⟨d, ds, hd⟩ := List.exists_cons_of_ne_nil (List.length_pos_iff.mp hpos)
  rw [hd, List.cons_append] at hscan ⊢
  rw [torSscanf, hscan]
  exact if_neg (Nat.not_le_of_lt (hd ▸ h32))

theorem torSscanf_u (hn : n < 10 ^ width) (hn32 : n < 2 ^ 32) (hpos : 0 < width) (hwidth : width ≤ 19)
    (hrest : ∀ c ∈ rest.head?, isDigit c = false) :
    torSscanf (.u width :: pattern) (decimal n ++ rest) = n :: torSscanf pattern rest := by
  have hlen : (decimal n).length ≤ width := length_decimal_le hpos hn
  have hread : torSscanf (.u width :: pattern) (decimal n ++ rest) =
      decimalValue (decimal n) :: torSscanf pattern rest :=
    torSscanf_digits (fun c => isDigit_of_mem_decimal) (List.length_pos_iff.mpr (decimal_ne_nil n)) hlen
      (hlen.trans hwidth) (by rwa [decimalValue_decimal]) hrest
  rwa [decimalValue_decimal] at hread

theorem torSscanf_char : torSscanf (.char c :: pattern) (c :: rest) = torSscanf pattern rest := if_pos rfl

theorem torSscanfArgs_digits (hl : ∀ c ∈ l, isDigit c = true) (hpos : 0 < l.length) (hwidth : l.length ≤ width)
    (hmax : l.length ≤ 19) (h32 : decimalValue l < 2 ^ 32) (hrest : ∀ c ∈ rest.head?, isDigit c = false) :
    torSscanfArgs (.item (.u width) :: specs) (l ++ rest) =
      .number (decimalValue l) :: torSscanfArgs specs rest := by
  have hscan := scanUnsigned_digits hl hpos hwidth hmax hrest
  obtain ⟨d, ds, hd⟩ := List.exists_cons_of_ne_nil (List.length_pos_iff.mp hpos)
  rw [hd, List.cons_append] at hscan ⊢
  rw [torSscanfArgs, hscan]
  exact if_neg (Nat.not_le_of_lt (hd ▸ h32))

theorem torSscanfArgs_char :
    torSscanfArgs (.item (.char c) :: specs) (c :: rest) = torSscanfArgs specs rest := if_pos rfl

/-- **`%s` reads a string** of its width without a blank. -/
theorem torSscanfArgs_s (hl : ∀ c ∈ l, isSpace c = false) (hwidth : l.length = width) :
    torSscanfArgs (.s width :: specs) (l ++ rest) = .string l :: torSscanfArgs specs rest := by
  have htake : ((l ++ rest).takeWhile fun c => !isSpace c).take width = l := by
    rw [List.takeWhile_append_of_pos (fun c hc => by rw [hl c hc]; rfl), ← hwidth, List.take_left]
  have hdrop : (l ++ rest).drop l.length = rest := List.drop_left
  rw [torSscanfArgs, scanString]
  dsimp only
  rw [htake, hdrop]

/-! #### What is read -/

theorem scanDigits_eq_some (hl : ∀ c ∈ l, isDigit c = true) (hrest : ∀ c ∈ rest.head?, isDigit c = false)
    {buf' : List UInt8} (h : scanDigits width result (l ++ rest) = some (v, buf')) :
    v = (l.take width).foldl (fun v c => 10 * v + (c.toNat - 48)) result ∧ buf' = l.drop width ++ rest := by
  induction l generalizing width result with
  | nil =>
    rw [List.nil_append, scanDigits_of_head hrest, Option.some.injEq, Prod.mk.injEq] at h
    simp [h.1, h.2]
  | cons c l ih =>
    cases width with
    | zero =>
      cases h
      exact ⟨rfl, rfl⟩
    | succ width =>
      rw [List.cons_append, scanDigits, if_pos (hl c List.mem_cons_self)] at h
      dsimp only at h
      split_ifs at h
      have hih := ih (fun d hd => hl d (List.mem_cons_of_mem c hd)) h
      rwa [Nat.mul_comm] at hih

/-- A numeral that is read is its number if it is not longer than the width. -/
theorem scanUnsigned_eq_some (hrest : ∀ c ∈ rest.head?, isDigit c = false) {buf' : List UInt8}
    (h : scanUnsigned width (decimal n ++ rest) = some (v, buf')) :
    v = n ∧ buf' = rest ∨ ∃ c ∈ buf'.head?, isDigit c = true := by
  rw [scanUnsigned, Option.filter_eq_some_iff] at h
  obtain ⟨rfl, rfl⟩ := scanDigits_eq_some (fun c => isDigit_of_mem_decimal) hrest h.1
  rcases Nat.lt_or_ge width (decimal n).length with hlt | hge
  · right
    obtain ⟨c, l, hl⟩ := List.exists_cons_of_ne_nil (List.drop_eq_nil_iff.not.mpr (Nat.not_le_of_lt hlt))
    have hmem : c ∈ (decimal n).drop width := hl ▸ List.mem_cons_self
    exact ⟨c, by rw [hl]; rfl, isDigit_of_mem_decimal (List.mem_of_mem_drop hmem)⟩
  · left
    rw [List.take_of_length_le hge, List.drop_eq_nil_iff.mpr hge]
    exact ⟨decimalValue_decimal n, List.nil_append rest⟩

theorem exists_digits_of_scanDigits (h : scanDigits width result buf = some (v, rest)) :
    ∃ l, buf = l ++ rest ∧ ∀ c ∈ l, isDigit c = true := by
  induction width generalizing result buf with
  | zero =>
    cases h
    exact ⟨[], rfl, by simp⟩
  | succ width ih =>
    cases buf with
    | nil =>
      cases h
      exact ⟨[], rfl, by simp⟩
    | cons c buf =>
      rw [scanDigits] at h
      dsimp only at h
      split_ifs at h with hc
      · obtain ⟨l, rfl, hl⟩ := ih h
        refine ⟨c :: l, rfl, ?_⟩
        intro d hd
        rcases List.mem_cons.mp hd with rfl | hd
        · exact hc
        · exact hl d hd
      · cases h
        exact ⟨[], rfl, by simp⟩

theorem exists_digits_of_scanUnsigned (h : scanUnsigned width buf = some (v, rest)) :
    ∃ l, buf = l ++ rest ∧ ∀ c ∈ l, isDigit c = true := by
  rw [scanUnsigned, Option.filter_eq_some_iff] at h
  exact exists_digits_of_scanDigits h.1

end Scan

end TorEbpf.Strings
