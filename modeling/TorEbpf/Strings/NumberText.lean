import TorEbpf.Strings.Scanf

/-!
# The texts of numbers

What `strtol` and its siblings convert in base 10: white space, a sign and digits.

* `exists_of_strtoNumber`, `strtoNumber_append` — what is converted is such a text, as long as possible;
* `torParseLong_eq_some_iff` — the numbers that `tor_parse_long` finds in front of a text;
* `strtol10_append` — `strtol` on such a text.
-/

namespace TorEbpf.Strings

open TorEbpf.Lib

/-- The text of a sign; the negative one is `true`. -/
def signText : Option Bool → List UInt8
  | none => []
  | some true => [0x2d]
  | some false => [0x2b]

def signed (sgn : Option Bool) (n : ℕ) : ℤ := if sgn = some true then -n else n

/-- A text of the number `v`; if it is strict, it has neither white space nor a sign. -/
def NumberText (strict : Bool) (t : List UInt8) (v : ℤ) : Prop :=
  ∃ spaces sgn digits, t = spaces ++ (signText sgn ++ digits) ∧ (∀ c ∈ spaces, isSpace c = true) ∧
    digits ≠ [] ∧ (∀ c ∈ digits, isDigit c = true) ∧ v = signed sgn (decimalValue digits) ∧
      (strict = true → spaces = [] ∧ sgn = none)

/-- `strtol` in base 10. -/
def strtol10 (s : List UInt8) : ℤ × List UInt8 :=
  match strtoNumber s with
  | none => (0, s)
  | some (negative, v, rest) => (clampLong (if negative then -(v : ℤ) else v), rest)

section NumberText

variable {strict negative : Bool} {s t rest : List UInt8} {v min max : ℤ} {n : ℕ} {c : UInt8}

theorem NumberText.lenient (h : NumberText strict t v) : NumberText false t v := by
  obtain ⟨spaces, sgn, digits, ht, hspaces, hne, hdigits, hv, _⟩ := h
  exact ⟨spaces, sgn, digits, ht, hspaces, hne, hdigits, hv, nofun⟩

theorem NumberText.ne_nil (h : NumberText strict t v) : t ≠ [] := by
  obtain ⟨spaces, sgn, digits, rfl, _, hne, _⟩ := h
  simp [hne]

theorem NumberText.mem (h : NumberText strict t v) (hc : c ∈ t) :
    isSpace c = true ∨ c = 0x2d ∨ c = 0x2b ∨ isDigit c = true := by
  obtain ⟨spaces, sgn, digits, rfl, hspaces, _, hdigits, _⟩ := h
  rcases List.mem_append.mp hc with hc | hc
  · exact Or.inl (hspaces c hc)
  · rcases List.mem_append.mp hc with hc | hc
    · match sgn with
      | none => cases hc
      | some true => exact Or.inr (Or.inl (List.mem_singleton.mp hc))
      | some false => exact Or.inr (Or.inr (Or.inl (List.mem_singleton.mp hc)))
    · exact Or.inr (Or.inr (Or.inr (hdigits c hc)))

theorem NumberText.getLast? (h : NumberText strict t v) : ∃ c, t.getLast? = some c ∧ isDigit c = true := by
  obtain ⟨spaces, sgn, digits, rfl, _, hne, hdigits, _⟩ := h
  refine ⟨digits.getLast hne, ?_, hdigits _ (List.getLast_mem hne)⟩
  rw [← List.append_assoc, List.getLast?_append_of_ne_nil _ hne, List.getLast?_eq_some_getLast hne]

theorem NumberText.ne_star (h : NumberText strict t v) : ¬(t = [] ∨ t = [0x2a]) := by
  rintro (ht | rfl)
  · exact h.ne_nil ht
  · obtain ⟨c, hc, hdigit⟩ := h.getLast?
    cases hc
    exact absurd hdigit (by decide)

theorem isSpace_of_isDigit (h : isDigit c = true) : isSpace c = false := by
  simp only [isDigit, Bool.and_eq_true, decide_eq_true_eq, UInt8.le_iff_toNat_le] at h
  simp only [isSpace, Bool.or_eq_false_iff, Bool.and_eq_false_iff, decide_eq_false_iff_not,
    UInt8.le_iff_toNat_le, ← UInt8.toNat_inj]
  simp only [UInt8.reduceToNat] at h ⊢
  omega

theorem sign_signText {sgn : Option Bool} (hc : isDigit c = true) :
    (signText sgn ++ c :: t).dropWhile isSpace = signText sgn ++ c :: t ∧
      sign (signText sgn ++ c :: t) = (decide (sgn = some true), c :: t) := by
  match sgn with
  | some true => exact ⟨rfl, rfl⟩
  | some false => exact ⟨rfl, rfl⟩
  | none =>
    refine ⟨List.dropWhile_cons_of_neg (by rw [isSpace_of_isDigit hc]; simp), ?_⟩
    show sign (c :: t) = (false, c :: t)
    unfold sign
    split
    · next heq =>
      cases heq
      exact absurd hc (by decide)
    · next heq =>
      cases heq
      exact absurd hc (by decide)
    · rfl

/-- **A number that no digit follows** is converted. -/
theorem strtoNumber_append (h : NumberText strict t v) (hrest : ∀ c ∈ rest.head?, isDigit c = false) :
    ∃ negative n, strtoNumber (t ++ rest) = some (negative, n, rest) ∧
      v = if negative then -(n : ℤ) else n := by
  obtain ⟨spaces, sgn, digits, rfl, hspaces, hne, hdigits, hv, _⟩ := h
  refine ⟨decide (sgn = some true), decimalValue digits, ?_, ?_⟩
  · obtain ⟨d, ds, rfl⟩ := List.exists_cons_of_ne_nil hne
    have hsign := @sign_signText (ds ++ rest) d sgn (hdigits d List.mem_cons_self)
    have htake := takeWhile_append_of_head hrest hdigits
    have hdrop := dropWhile_append_of_head hrest hdigits
    rw [strtoNumber, List.append_assoc, List.append_assoc, List.cons_append,
      List.dropWhile_append_of_pos hspaces, hsign.1, hsign.2]
    dsimp only
    rw [readDecimal, ← List.cons_append, htake, hdrop]
    rfl
  · rw [hv, signed]
    simp only [decide_eq_true_eq]

/-- **What is converted** is a number that no digit follows. -/
theorem exists_of_strtoNumber (h : strtoNumber s = some (negative, n, rest)) :
    ∃ t, s = t ++ rest ∧ NumberText false t (if negative then -(n : ℤ) else n) ∧
      ∀ c ∈ rest.head?, isDigit c = false := by
  have hsign : ∀ u : List UInt8,
      ∃ sgn, u = signText sgn ++ (sign u).2 ∧ (sign u).1 = decide (sgn = some true) := by
    intro u
    unfold sign
    split
    · exact ⟨some true, rfl, rfl⟩
    · exact ⟨some false, rfl, rfl⟩
    · exact ⟨none, rfl, rfl⟩
  obtain ⟨sgn, hu, hneg⟩ := hsign (s.dropWhile isSpace)
  rw [strtoNumber] at h
  dsimp only at h
  obtain ⟨⟨n', rest'⟩, hread, heq⟩ := Option.map_eq_some_iff.mp h
  cases heq
  rw [readDecimal] at hread
  split at hread
  · cases hread
  · next d ds htake =>
    cases hread
    refine ⟨s.takeWhile isSpace ++ (signText sgn ++ d :: ds), ?_,
      ⟨_, sgn, d :: ds, rfl, fun c => List.mem_takeWhile_imp, List.cons_ne_nil d ds, ?_, ?_, nofun⟩, ?_⟩
    · rw [← htake, List.append_assoc, List.append_assoc, List.takeWhile_append_dropWhile, ← hu,
        List.takeWhile_append_dropWhile]
    · rw [← htake]
      exact fun c => List.mem_takeWhile_imp
    · rw [hneg, signed]
      simp only [decide_eq_true_eq]
    · exact fun c => head?_dropWhile_of_mem

theorem NumberText.unique {w : ℤ} (h : NumberText strict t v) (h' : NumberText false t w) : v = w := by
  obtain ⟨neg, n, hn, rfl⟩ := @strtoNumber_append _ _ [] _ h nofun
  obtain ⟨neg', n', hn', rfl⟩ := @strtoNumber_append _ _ [] _ h' nofun
  rw [hn] at hn'
  cases hn'
  rfl

/-- **The numbers in front of a text.** -/
theorem torParseLong_eq_some_iff (hmin : -2 ^ 63 ≤ min) (hmax : max < 2 ^ 63) :
    torParseLong s min max = some (v, rest) ↔
      (∃ t, s = t ++ rest ∧ NumberText false t v ∧ ∀ c ∈ rest.head?, isDigit c = false) ∧
        min ≤ v ∧ v ≤ max := by
  constructor
  · intro h
    refine ⟨?_, torParseLong_range h⟩
    unfold torParseLong at h
    cases hn : strtoNumber s with
    | none =>
      rw [hn] at h
      cases h
    | some p =>
      obtain ⟨negative, n, rest'⟩ := p
      rw [hn] at h
      dsimp only at h
      obtain ⟨t, ht, hnumber, hrest⟩ := exists_of_strtoNumber hn
      split_ifs at h <;> cases h <;> exact ⟨t, ht, by simpa [*] using hnumber, hrest⟩
  · rintro ⟨⟨t, rfl, hnumber, hrest⟩, hlo, hhi⟩
    obtain ⟨negative, n, hn, hv⟩ := strtoNumber_append hnumber hrest
    unfold torParseLong
    rw [hn]
    dsimp only
    rw [← hv, if_neg (by omega), if_neg (by omega)]

/-- **`strtol` on a number** that no digit follows. -/
theorem strtol10_append (h : NumberText strict t v) (hrest : ∀ c ∈ rest.head?, isDigit c = false) :
    strtol10 (t ++ rest) = (clampLong v, rest) := by
  obtain ⟨negative, n, hn, rfl⟩ := strtoNumber_append h hrest
  rw [strtol10, hn]

theorem numberText_of_strtol10 (h : (strtol10 t).2 = []) (ht : t ≠ []) :
    ∃ v, NumberText false t v ∧ (strtol10 t).1 = clampLong v := by
  unfold strtol10 at h ⊢
  cases hn : strtoNumber t with
  | none =>
    rw [hn] at h
    exact absurd h ht
  | some p =>
    obtain ⟨negative, n, rest⟩ := p
    rw [hn] at h
    obtain ⟨u, hu, hnumber, _⟩ := exists_of_strtoNumber hn
    have hrest : rest = [] := h
    rw [hrest, List.append_nil] at hu
    rw [hu]
    exact ⟨_, hnumber, rfl⟩

end NumberText

end TorEbpf.Strings
