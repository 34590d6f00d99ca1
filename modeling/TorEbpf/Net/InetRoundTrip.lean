import TorEbpf.Net.InetText

/-!
# Reading addresses back

What `tor_inet_ntop` and `tor_addr_to_str` print is parsed to the address again.  For an IPv6 address this
does not depend on which run of zeros is left out: any one may be.

* `torInetAton_quadText` — dotted quads;
* `reaches_printWords`, `closeGap_of_filled` — the words around a gap, read and put in their places;
* `textRoundTrip` — both families, bare and decorated.
-/

namespace TorEbpf.Net

open TorEbpf.Lib TorEbpf.Or TorEbpf.Strings

/-! ### Bytes in words -/

theorem mul_two_pow_or (a i : ℕ) {b : ℕ} (h : b < 2 ^ i) : a * 2 ^ i ||| b = a * 2 ^ i + b := by
  rw [← Nat.shiftLeft_eq, Nat.shiftLeft_add_eq_or_of_lt h]

theorem toNat_quad (b1 b2 b3 b4 : UInt8) :
    (b1.toNat.toUInt32 <<< 24 ||| b2.toNat.toUInt32 <<< 16 ||| b3.toNat.toUInt32 <<< 8 |||
      b4.toNat.toUInt32).toNat = ((b1.toNat * 256 + b2.toNat) * 256 + b3.toNat) * 256 + b4.toNat := by
  have h1 := b1.toNat_lt
  have h2 := b2.toNat_lt
  have h3 := b3.toNat_lt
  have h4 := b4.toNat_lt
  have hshift : ∀ (b : UInt8) (k : UInt32), k.toNat ≤ 24 →
      (b.toNat.toUInt32 <<< k).toNat = b.toNat * 2 ^ k.toNat := by
    intro b k hk
    have hb := b.toNat_lt
    have hle : b.toNat * 2 ^ k.toNat < 2 ^ 8 * 2 ^ 24 :=
      Nat.mul_lt_mul_of_lt_of_le hb (Nat.pow_le_pow_right (by decide) hk) (by decide)
    rw [UInt32.toNat_shiftLeft, Nat.mod_eq_of_lt (show k.toNat < 32 by omega), Nat.shiftLeft_eq]
    simp only [Nat.toUInt32_eq, UInt32.toNat_ofNat', Nat.mod_eq_of_lt (show b.toNat < 2 ^ 32 by omega)]
    exact Nat.mod_eq_of_lt hle
  have hlast : b4.toNat.toUInt32.toNat = b4.toNat := by
    simp only [Nat.toUInt32_eq, UInt32.toNat_ofNat']
    omega
  have e1 := mul_two_pow_or b1.toNat 24 (b := b2.toNat * 2 ^ 16) (by omega)
  have e2 := mul_two_pow_or (b1.toNat * 256 + b2.toNat) 16 (b := b3.toNat * 2 ^ 8) (by omega)
  have e3 := mul_two_pow_or ((b1.toNat * 256 + b2.toNat) * 256 + b3.toNat) 8 h4
  have s2 : b1.toNat * 2 ^ 24 + b2.toNat * 2 ^ 16 = (b1.toNat * 256 + b2.toNat) * 2 ^ 16 := by ring
  have s3 : (b1.toNat * 256 + b2.toNat) * 2 ^ 16 + b3.toNat * 2 ^ 8 =
      ((b1.toNat * 256 + b2.toNat) * 256 + b3.toNat) * 2 ^ 8 := by ring
  have r1 := hshift b1 24 (by decide)
  have r2 := hshift b2 16 (by decide)
  have r3 := hshift b3 8 (by decide)
  rw [UInt32.toNat_or, UInt32.toNat_or, UInt32.toNat_or, r1, r2, r3, hlast]
  simp only [UInt32.reduceToNat]
  rw [e1, s2, e2, s3, e3]
  ring

theorem quad_eq (a : UInt32) :
    ((a >>> 24).toUInt8.toNat.toUInt32 <<< 24 ||| (a >>> 16).toUInt8.toNat.toUInt32 <<< 16 |||
      (a >>> 8).toUInt8.toNat.toUInt32 <<< 8 ||| a.toUInt8.toNat.toUInt32) = a := by
  have ha := a.toNat_lt
  rw [← UInt32.toNat_inj, toNat_quad]
  simp [Nat.shiftRight_eq_div_pow]
  omega

theorem word_eq (x y : UInt8) :
    x.toNat.toUInt16 <<< 8 ||| y.toNat.toUInt16 = (x.toUInt16 <<< 8) + y.toUInt16 := by
  have hx := x.toNat_lt
  have hy := y.toNat_lt
  have hfits : x.toNat <<< 8 < 65536 := by
    rw [Nat.shiftLeft_eq]
    omega
  rw [← UInt16.toNat_inj]
  simp only [UInt16.toNat_or, UInt16.toNat_add, UInt16.toNat_shiftLeft, UInt8.toNat_toUInt16]
  simp
  rw [Nat.mod_eq_of_lt hfits, ← Nat.shiftLeft_add_eq_or_of_lt hy, Nat.mod_eq_of_lt]
  rw [Nat.shiftLeft_eq]
  omega

theorem ofWords_word (x y : UInt8) : (((x.toUInt16 <<< 8) + y.toUInt16) >>> 8).toUInt8 = x ∧
    (((x.toUInt16 <<< 8) + y.toUInt16) &&& 0xff).toUInt8 = y := by
  have hx := x.toNat_lt
  have hy := y.toNat_lt
  constructor
  · rw [← UInt8.toNat_inj]
    simp [Nat.shiftRight_eq_div_pow, Nat.shiftLeft_eq]
    omega
  · rw [← UInt8.toNat_inj]
    simp [Nat.shiftLeft_eq]
    exact Nat.and_two_pow_sub_one_of_lt_two_pow (n := 8) hy

theorem ofWords_toWords {l : List UInt8} (h : l.length % 2 = 0) : ofWords (toWords l) = l := by
  induction l using toWords.induct with
  | case1 hi lo t ih =>
    obtain ⟨hhi, hlo⟩ := ofWords_word hi lo
    rw [toWords, ofWords, hhi, hlo, ih (by simp only [List.length_cons] at h; omega)]
  | case2 l hl =>
    match l, hl with
    | [], _ => rfl
    | [b], _ => cases h
    | hi :: lo :: t, hl => exact absurd rfl (hl hi lo t)

theorem length_toWords {l : List UInt8} (h : l.length % 2 = 0) : 2 * (toWords l).length = l.length := by
  induction l using toWords.induct with
  | case1 hi lo t ih =>
    have ht := ih (by simp only [List.length_cons] at h; omega)
    rw [toWords, List.length_cons, List.length_cons, List.length_cons]
    omega
  | case2 l hl =>
    match l, hl with
    | [], _ => rfl
    | [b], _ => cases h
    | hi :: lo :: t, hl => exact absurd rfl (hl hi lo t)

/-! ### Dotted quads -/

section Quads

variable {pattern : List ScanItem} {width n : ℕ} {c : UInt8} {s l rest : List UInt8} {v : List ℕ}

theorem torSscanf_quadText (b1 b2 b3 b4 : UInt8) :
    torSscanf quadPattern (quadText b1 b2 b3 b4) = [b1.toNat, b2.toNat, b3.toNat, b4.toNat] := by
  have hbyte : ∀ b : UInt8, b.toNat < 10 ^ 3 ∧ b.toNat < 2 ^ 32 := fun b => by
    have := b.toNat_lt
    omega
  have hread : ∀ (b : UInt8) (pattern : List ScanItem) (rest : List UInt8),
      (∀ c ∈ rest.head?, isDigit c = false) →
      torSscanf (.u 3 :: pattern) (decimal b.toNat ++ rest) = b.toNat :: torSscanf pattern rest :=
    fun b pattern rest h => torSscanf_u (hbyte b).1 (hbyte b).2 (by decide) (by decide) h
  have hdot : ∀ t : List UInt8, ∀ c ∈ (0x2e :: t).head?, isDigit c = false := by
    rintro t _ ⟨⟩
    decide
  have hlast := hread b4 [.c] [] (by rintro _ ⟨⟩)
  rw [List.append_nil] at hlast
  rw [quadPattern, quadText, hread b1 _ _ (hdot _), torSscanf_char, hread b2 _ _ (hdot _), torSscanf_char,
    hread b3 _ _ (hdot _), torSscanf_char, hlast]
  rfl

/-- No numeral of more than one digit starts with a zero. -/
theorem head?_decimal (h : 1 < (decimal n).length) : (decimal n).head? ≠ some 0x30 := by
  intro hhead
  rw [decimal, List.head?_map, Option.map_eq_some_iff] at hhead
  obtain ⟨d, hd, hzero⟩ := hhead
  have hlt : d < 10 := lt_ten_of_mem_digitsOf (List.mem_of_mem_head? hd)
  have hd0 : d = 0 := by
    have htoNat := congrArg UInt8.toNat hzero
    rw [digit_toNat hlt] at htoNat
    have h48 : (0x30 : UInt8).toNat = 48 := rfl
    omega
  unfold digitsOf at hd
  split at hd
  · next hn =>
    rw [hn] at h
    exact absurd h (by decide)
  · next hn =>
    rw [List.head?_reverse, List.getLast?_eq_some_getLast (Nat.digits_ne_nil_iff_ne_zero.mpr hn)] at hd
    exact Nat.getLast_digit_ne_zero 10 hn ((Option.some.inj hd).trans hd0)

theorem not_mem_decimal (hc : isDigit c = false) : c ∉ decimal n := by
  intro hmem
  rw [isDigit_of_mem_decimal hmem] at hc
  cases hc

theorem splitOn_quadText (b1 b2 b3 b4 : UInt8) : (quadText b1 b2 b3 b4).splitOn 0x2e =
    [decimal b1.toNat, decimal b2.toNat, decimal b3.toNat, decimal b4.toNat] := by
  have hjoin : quadText b1 b2 b3 b4 = List.intercalate [0x2e]
      [decimal b1.toNat, decimal b2.toNat, decimal b3.toNat, decimal b4.toNat] := by
    simp [quadText, List.intercalate]
  rw [hjoin]
  refine List.splitOn_intercalate 0x2e ?_ (by simp)
  intro l hl
  simp only [List.mem_cons, List.not_mem_nil, or_false] at hl
  rcases hl with rfl | rfl | rfl | rfl <;> exact not_mem_decimal (by decide)

theorem torInetAton_quadText (b1 b2 b3 b4 : UInt8) : torInetAton (quadText b1 b2 b3 b4) =
    some (b1.toNat.toUInt32 <<< 24 ||| b2.toNat.toUInt32 <<< 16 ||| b3.toNat.toUInt32 <<< 8 |||
      b4.toNat.toUInt32) := by
  have hbyte : ∀ b : UInt8, b.toNat ≤ 255 := fun b => Nat.le_of_lt_succ b.toNat_lt
  have hoctal : ∀ n : ℕ, (decide (1 < (decimal n).length) && (decimal n).head? == some 0x30) = false := by
    intro n
    rw [Bool.and_eq_false_iff, decide_eq_false_iff_not, beq_eq_false_iff_ne]
    exact (em (1 < (decimal n).length)).symm.imp_right head?_decimal
  have hle : ¬(255 < b1.toNat ∨ 255 < b2.toNat ∨ 255 < b3.toNat ∨ 255 < b4.toNat) := by
    have := hbyte b1
    have := hbyte b2
    have := hbyte b3
    have := hbyte b4
    omega
  rw [torInetAton, torSscanf_quadText]
  dsimp only
  rw [splitOn_quadText, if_neg (by simp only [List.any_cons, List.any_nil, hoctal]; decide), if_neg hle]

/-! #### What else is a dotted quad -/

theorem torSscanf_u_eq_cons (h : torSscanf (.u width :: pattern) s = n :: v) :
    ∃ l rest, s = l ++ rest ∧ (∀ c ∈ l, isDigit c = true) ∧ torSscanf pattern rest = v := by
  cases s with
  | nil => cases h
  | cons b buf =>
    rw [torSscanf] at h
    split at h
    · next u rest hscan =>
      split_ifs at h
      obtain ⟨l, hl, hdigits⟩ := exists_digits_of_scanUnsigned hscan
      exact ⟨l, rest, hl, hdigits, (List.cons.inj h).2⟩
    · cases h

theorem torSscanf_char_eq_cons (h : torSscanf (.char c :: pattern) s = n :: v) :
    ∃ rest, s = c :: rest ∧ torSscanf pattern rest = n :: v := by
  cases s with
  | nil => cases h
  | cons b buf =>
    rw [torSscanf] at h
    split_ifs at h with hb
    exact ⟨buf, by rw [hb], h⟩

theorem mem_of_torInetAton {a : UInt32} (h : torInetAton s = some a) (hc : c ∈ s) :
    isDigit c = true ∨ c = 0x2e := by
  unfold torInetAton at h
  split at h
  · next hscan =>
    obtain ⟨l1, r1, rfl, hl1, h1⟩ := torSscanf_u_eq_cons hscan
    obtain ⟨r2, rfl, h2⟩ := torSscanf_char_eq_cons h1
    obtain ⟨l2, r3, rfl, hl2, h3⟩ := torSscanf_u_eq_cons h2
    obtain ⟨r4, rfl, h4⟩ := torSscanf_char_eq_cons h3
    obtain ⟨l3, r5, rfl, hl3, h5⟩ := torSscanf_u_eq_cons h4
    obtain ⟨r6, rfl, h6⟩ := torSscanf_char_eq_cons h5
    obtain ⟨l4, r7, rfl, hl4, h7⟩ := torSscanf_u_eq_cons h6
    have hr7 : r7 = [] := by
      cases r7 with
      | nil => rfl
      | cons b r => cases h7
    rw [hr7] at hc
    simp only [List.mem_append, List.mem_cons, List.not_mem_nil, or_false] at hc
    rcases hc with hc | hc | hc | hc | hc | hc | hc
    · exact Or.inl (hl1 c hc)
    · exact Or.inr hc
    · exact Or.inl (hl2 c hc)
    · exact Or.inr hc
    · exact Or.inl (hl3 c hc)
    · exact Or.inr hc
    · exact Or.inl (hl4 c hc)
  · cases h

theorem dot_mem_of_torInetAton {a : UInt32} (h : torInetAton s = some a) : 0x2e ∈ s := by
  unfold torInetAton at h
  split at h
  · next hscan =>
    obtain ⟨l, rest, rfl, _, hrest⟩ := torSscanf_u_eq_cons hscan
    obtain ⟨rest', rfl, _⟩ := torSscanf_char_eq_cons hrest
    exact List.mem_append_right l List.mem_cons_self
  · cases h

end Quads

/-! ### Printed words -/

section Words

variable {gap : Option ℕ} {i k : ℕ} {w : UInt16} {ws : List UInt16} {st : WordsState} {c : UInt8}
  {next : List UInt8}

@[simp] theorem printWords_nil : printWords gap i [] = [] := by rw [printWords]

theorem printWords_gap (h : w = 0 ∧ gap = some i) : printWords gap i (w :: ws) =
    (if i = 0 then [0x3a] else []) ++
      0x3a :: printWords gap (i + 1 + (ws.takeWhile (· = 0)).length) (ws.dropWhile (· = 0)) := by
  rw [printWords, if_pos h]

theorem printWords_word (h : ¬(w = 0 ∧ gap = some i)) : printWords gap i (w :: ws) =
    hexadecimal w.toNat ++ ((if i ≠ 7 then [0x3a] else []) ++ printWords gap (i + 1) ws) := by
  rw [printWords, if_neg h]

theorem mem_printWords (h : c ∈ printWords gap i ws) : torIsXDigit c = true ∨ c = 0x3a := by
  induction i, ws using printWords.induct gap with
  | case1 i =>
    rw [printWords_nil] at h
    cases h
  | case2 i w ws hgap ih =>
    rw [printWords_gap hgap, List.mem_append, List.mem_cons] at h
    rcases h with h | h | h
    · split_ifs at h
      · exact Or.inr (List.mem_singleton.mp h)
      · cases h
    · exact Or.inr h
    · exact ih h
  | case3 i w ws hgap ih =>
    rw [printWords_word hgap, List.mem_append, List.mem_append] at h
    rcases h with h | h | h
    · exact Or.inl (torIsXDigit_of_mem_hexadecimal h)
    · split_ifs at h
      · exact Or.inr (List.mem_singleton.mp h)
      · cases h
    · exact ih h

theorem length_hexadecimal_le (w : UInt16) : (hexadecimal w.toNat).length ≤ 4 :=
  length_numeral_le (by decide) (by decide) w.toNat_lt

/-- A word takes at most five bytes, and the last one has no colon. -/
theorem length_printWords_lt (hi : i + ws.length = 8) (hws : ws ≠ []) :
    (printWords gap i ws).length < 5 * ws.length := by
  induction i, ws using printWords.induct gap with
  | case1 i => exact absurd rfl hws
  | case2 i w ws hgap ih =>
    have hlen : (ws.takeWhile (· = 0)).length + (ws.dropWhile (· = 0)).length = ws.length := by
      rw [← List.length_append, List.takeWhile_append_dropWhile]
    have hhead : (if i = 0 then [0x3a] else ([] : List UInt8)).length ≤ 1 := by split_ifs <;> decide
    rw [List.length_cons] at hi
    rw [printWords_gap hgap, List.length_append, List.length_cons, List.length_cons]
    by_cases hrest : ws.dropWhile (· = 0) = []
    · rw [hrest, printWords_nil, List.length_nil]
      omega
    · have hlt := ih (by omega) hrest
      omega
  | case3 i w ws hgap ih =>
    have hword := length_hexadecimal_le w
    rw [List.length_cons] at hi
    rw [printWords_word hgap, List.length_append, List.length_append, List.length_cons]
    by_cases hrest : ws = []
    · rw [hrest, List.length_nil] at hi ⊢
      rw [if_neg (by omega), printWords_nil, List.length_nil]
      omega
    · have hlt := ih (by omega) hrest
      have hhead : (if i ≠ 7 then [0x3a] else ([] : List UInt8)).length ≤ 1 := by split_ifs <;> decide
      omega

/-! ### Reading the words -/

/-- `words` with `ws` written from `i` on. -/
def overwrite (words : List UInt16) (i : ℕ) (ws : List UInt16) : List UInt16 :=
  words.take i ++ ws ++ words.drop (i + ws.length)

@[simp] theorem overwrite_nil (words : List UInt16) : overwrite words i [] = words := by
  rw [overwrite, List.append_nil, List.length_nil, Nat.add_zero, List.take_append_drop]

theorem overwrite_set {words : List UInt16} (hi : i < words.length) :
    overwrite (words.set i w) (i + 1) ws = overwrite words i (w :: ws) := by
  have htake : (words.set i w).take (i + 1) = words.take i ++ [w] := by
    rw [List.set_eq_take_append_cons_drop, if_pos hi, List.take_append, List.take_of_length_le
      (by rw [List.length_take]; omega), List.length_take, Nat.min_eq_left (Nat.le_of_lt hi)]
    simp
  have hdrop : (words.set i w).drop (i + 1 + ws.length) = words.drop (i + 1 + ws.length) :=
    List.drop_set_of_lt (by omega)
  unfold overwrite
  rw [htake, hdrop, List.length_cons, List.append_assoc, List.append_assoc, List.append_assoc,
    Nat.add_assoc, Nat.add_comm 1]
  rfl

/-- `strtol` reads a word in front of a colon, or at the end. -/
theorem strtol16_hexadecimal (hnext : ∀ c ∈ next.head?, c = 0x3a) :
    strtol16 (hexadecimal w.toNat ++ next) = ((w.toNat : ℤ), next) := by
  have hdigits : ∀ c ∈ hexadecimal w.toNat, torIsXDigit c = true := fun c => torIsXDigit_of_mem_hexadecimal
  have hend : ∀ c ∈ next.head?, (hexDecodeDigit c).isSome = false := by
    intro c hc
    rw [hnext c hc]
    rfl
  have htake : (hexadecimal w.toNat ++ next).takeWhile torIsXDigit = hexadecimal w.toNat :=
    takeWhile_numeral (by decide) (fun _ => hexDecodeDigit_hexDigit) hend
  have hdrop : (hexadecimal w.toNat ++ next).dropWhile torIsXDigit = next :=
    dropWhile_numeral (by decide) (fun _ => hexDecodeDigit_hexDigit) hend
  have hclamp := clampLong_hexValue (length_hexadecimal_le w)
  obtain ⟨c, t, hct⟩ := List.exists_cons_of_ne_nil (hexadecimal_ne_nil w.toNat)
  have hc : torIsXDigit c = true := hdigits c (by rw [hct]; exact List.mem_cons_self)
  have hskip : skip0x (c :: (t ++ next)) = c :: (t ++ next) := by
    unfold skip0x
    split
    · next x d u heq =>
      -- behind a leading zero stands another digit or the colon, but no x
      rw [heq]
      refine if_neg fun hx => ?_
      have hxt : torIsXDigit x = true ∨ x = 0x3a := by
        have htail := (List.cons.inj heq).2
        cases t with
        | nil =>
          refine Or.inr (hnext x ?_)
          rw [List.nil_append] at htail
          rw [htail]
          rfl
        | cons y t =>
          rw [List.cons_append] at htail
          rw [← (List.cons.inj htail).1]
          exact Or.inl (hdigits y (by rw [hct]; exact List.mem_cons_of_mem c List.mem_cons_self))
      rcases hx.1 with rfl | rfl <;> exact absurd hxt (by decide)
    · rfl
  have hread := strtol16_of_plain hc hskip
  rw [← List.cons_append, ← hct, htake, hdrop, hclamp.1, hexValue_hexadecimal] at hread
  exact hread

/-- **A printed word is read**, with the colon behind it. -/
theorem ptonStep_word (hsrc : st.src = hexadecimal w.toNat ++ next)
    (hnext : next = [] ∧ st.left = (hexadecimal w.toNat).length ∨ next.head? = some 0x3a)
    (hleft : st.left ≠ 0) (hwords : st.words.length = 8) (hi : st.i < 8) :
    ptonStep st = .next { st with
      src := next.tail, left := st.left - (hexadecimal w.toNat).length - 1, words := st.words.set st.i w,
      i := st.i + 1, setWords := st.setWords + 1 } := by
  have hread : strtol16 st.src = ((w.toNat : ℤ), next) := by
    rw [hsrc]
    refine strtol16_hexadecimal ?_
    rcases hnext with ⟨rfl, _⟩ | hnext
    · rintro _ ⟨⟩
    · rw [hnext]
      rintro _ ⟨⟩
      rfl
  have hused : st.src.length - next.length = (hexadecimal w.toNat).length := by
    rw [hsrc, List.length_append, Nat.add_sub_cancel]
  have hlen : (if next = [] then st.left else (hexadecimal w.toNat).length) = (hexadecimal w.toNat).length := by
    split_ifs with hnil
    · rcases hnext with hnext | hnext
      · exact hnext.2
      · rw [hnil] at hnext
        cases hnext
    · rfl
  have hle := length_hexadecimal_le w
  obtain ⟨c, t, hct⟩ := List.exists_cons_of_ne_nil (hexadecimal_ne_nil w.toNat)
  have hdigits : ∀ c ∈ hexadecimal w.toNat, torIsXDigit c = true := fun c => torIsXDigit_of_mem_hexadecimal
  have hsecond : ¬(1 < (hexadecimal w.toNat).length ∧ torIsXDigit ((t ++ next).headD 0) = false) := by
    rintro ⟨hlong, hno⟩
    rw [hct] at hlong hdigits
    cases t with
    | nil => exact absurd hlong (by simp)
    | cons y t =>
      have hy : torIsXDigit y = true := hdigits y (List.mem_cons_of_mem c List.mem_cons_self)
      rw [List.cons_append, List.headD_cons, hy] at hno
      cases hno
  have hvalue : ¬((w.toNat : ℤ) < 0 ∨ 65536 ≤ (w.toNat : ℤ)) := by
    have := w.toNat_lt
    omega
  have hword : (w.toNat : ℤ).toNat.toUInt16 = w := by
    rw [Int.toNat_natCast]
    exact UInt16.ofNat_toNat
  have hwrite : writeWord st.words st.i w = some (st.words.set st.i w) := if_pos (by omega)
  have hstop : ¬(next.head? ≠ some 0x3a ∧ (hexadecimal w.toNat).length ≠ st.left) := by
    rintro ⟨hhead, hne⟩
    rcases hnext with hnext | hnext
    · exact hne hnext.2.symm
    · exact hhead hnext
  have hcons : st.src = c :: (t ++ next) := by rw [hsrc, hct, List.cons_append]
  have hc : torIsXDigit c = true := hdigits c (by rw [hct]; exact List.mem_cons_self)
  have hstep : ptonStep st = hexStep st ((t ++ next).headD 0) := by
    unfold ptonStep
    rw [if_neg hleft, if_neg (by omega), hcons]
    exact if_pos hc
  rw [hstep]
  unfold hexStep
  rw [hread]
  dsimp only
  rw [hused, hlen, if_neg (by rw [List.length_eq_zero_iff]; exact hexadecimal_ne_nil _),
    if_neg (Nat.not_lt.mpr hle), if_neg hsecond, if_neg hvalue, hword, hwrite]
  exact if_neg hstop

theorem hexadecimal_left_ne (h : st.left = (hexadecimal w.toNat ++ next).length) : st.left ≠ 0 := by
  have hpos := List.length_pos_iff.mpr (hexadecimal_ne_nil w.toNat)
  rw [h, List.length_append]
  omega

/-- The text behind a printed word: a colon and more words, or the end. -/
theorem printWords_next (hi : i + (ws.length + 1) = 8) :
    ((if i ≠ 7 then [0x3a] else []) ++ printWords gap (i + 1) ws).tail = printWords gap (i + 1) ws ∧
      ((if i ≠ 7 then [0x3a] else []) ++ printWords gap (i + 1) ws = [] ∨
        ((if i ≠ 7 then [0x3a] else []) ++ printWords gap (i + 1) ws).head? = some 0x3a) := by
  split_ifs with h7
  · exact ⟨rfl, Or.inr rfl⟩
  · have hws : ws = [] := List.length_eq_zero_iff.mp (by omega)
    rw [hws, printWords_nil]
    exact ⟨rfl, Or.inl rfl⟩

theorem ptonStep_printed (hgap : ¬(w = 0 ∧ gap = some i)) (hi : i + (ws.length + 1) = 8)
    (hsrc : st.src = printWords gap i (w :: ws)) (hleft : st.left = st.src.length)
    (hwords : st.words.length = 8) (hsti : st.i < 8) :
    ptonStep st = .next { st with
      src := printWords gap (i + 1) ws, left := (printWords gap (i + 1) ws).length,
      words := st.words.set st.i w, i := st.i + 1, setWords := st.setWords + 1 } := by
  obtain ⟨htail, hend⟩ := @printWords_next gap _ _ hi
  rw [printWords_word hgap] at hsrc
  rw [hsrc] at hleft
  have hend' : (if i ≠ 7 then [0x3a] else []) ++ printWords gap (i + 1) ws = [] ∧
      st.left = (hexadecimal w.toNat).length ∨
      ((if i ≠ 7 then [0x3a] else []) ++ printWords gap (i + 1) ws).head? = some 0x3a := by
    rcases hend with hend | hend
    · refine Or.inl ⟨hend, ?_⟩
      rw [hleft, hend, List.append_nil]
    · exact Or.inr hend
  have hrest : st.left - (hexadecimal w.toNat).length - 1 = (printWords gap (i + 1) ws).length := by
    rw [hleft, List.length_append, Nat.add_sub_cancel_left, ← htail, List.length_tail, htail]
  rw [ptonStep_word hsrc hend' (hexadecimal_left_ne hleft) hwords hsti, htail, hrest]

/-- **Behind the gap** the words are read one after the other. -/
theorem reaches_printWords (hgap : ∀ p ∈ gap, p < i) (hi : i + ws.length = 8)
    (hsrc : st.src = printWords gap i ws) (hleft : st.left = st.src.length) (hwords : st.words.length = 8)
    (hsti : st.i + ws.length ≤ 8) :
    Reaches ptonStep st { st with
      src := [], left := 0, words := overwrite st.words st.i ws, i := st.i + ws.length,
      setWords := st.setWords + ws.length } := by
  induction ws generalizing i st with
  | nil =>
    rw [printWords_nil] at hsrc
    rw [hsrc] at hleft
    have hst : st = { st with
        src := [], left := 0, words := overwrite st.words st.i [], i := st.i + ([] : List UInt16).length,
        setWords := st.setWords + ([] : List UInt16).length } := by
      rw [overwrite_nil]
      cases st
      cases hsrc
      cases hleft
      rfl
    rw [← hst]
    exact Reaches.refl st
  | cons w ws ih =>
    rw [List.length_cons] at hi hsti
    have hnot : ¬(w = 0 ∧ gap = some i) := fun h => Nat.lt_irrefl i (hgap i h.2)
    refine Reaches.head (ptonStep_printed hnot hi hsrc hleft hwords (by omega)) ?_
    have hrest := @ih (i + 1) { st with
      src := printWords gap (i + 1) ws, left := (printWords gap (i + 1) ws).length,
      words := st.words.set st.i w, i := st.i + 1, setWords := st.setWords + 1 }
      (fun p hp => Nat.lt_succ_of_lt (hgap p hp)) (by omega) rfl rfl
      (by rw [List.length_set, hwords]) (by dsimp only; omega)
    dsimp only at hrest
    rw [overwrite_set (by omega)] at hrest
    have hcount : ∀ n : ℕ, n + (w :: ws).length = n + 1 + ws.length := fun n => by
      rw [List.length_cons]
      omega
    rw [hcount, hcount]
    exact hrest

/-- What the loop leaves behind a text of the words `ws`: all of them, or those on both sides of a run of
zeros. -/
def Filled (st : WordsState) (ws : List UInt16) (st' : WordsState) : Prop :=
  st'.words = overwrite st.words st.i ws ∧ st'.gapPos = none ∧ st'.setWords = st.setWords + ws.length ∨
    ∃ pre z post, 0 < z ∧ ws = pre ++ (List.replicate z 0 ++ post) ∧
      st'.words = overwrite st.words st.i (pre ++ post) ∧ st'.gapPos = some (st.i + pre.length) ∧
      st'.setWords = st.setWords + (pre ++ post).length

theorem ptonStep_gap (hsrc : st.src = (if st.i = 0 then [0x3a] else []) ++ 0x3a :: next)
    (hleft : st.left = st.src.length) (hnone : st.gapPos = none) (hi : st.i < 8) :
    ptonStep st = .next { st with gapPos := some st.i, src := next, left := next.length } := by
  have hcolon : torIsXDigit 0x3a = false := by decide
  unfold ptonStep
  by_cases h0 : st.i = 0
  · rw [if_pos h0] at hsrc
    rw [hsrc] at hleft
    have htwo : st.left = next.length + 2 := hleft
    rw [if_neg (by omega), if_neg (by omega), hsrc]
    simp [hcolon, h0, hnone, htwo]
  · rw [if_neg h0] at hsrc
    rw [hsrc] at hleft
    have hone : st.left = next.length + 1 := hleft
    rw [if_neg (by omega), if_neg (by omega), hsrc]
    simp [hcolon, hnone, hone, Nat.pos_of_ne_zero h0]

/-- **The words of a text** with a gap that is not reached yet. -/
theorem exists_filled (hgap : ∀ p ∈ gap, st.i ≤ p) (hi : st.i + ws.length = 8)
    (hsrc : st.src = printWords gap st.i ws) (hleft : st.left = st.src.length)
    (hwords : st.words.length = 8) (hnone : st.gapPos = none) :
    ∃ st', Reaches ptonStep st st' ∧ st'.left = 0 ∧ Filled st ws st' := by
  induction ws generalizing st with
  | nil =>
    rw [printWords_nil] at hsrc
    rw [hsrc] at hleft
    exact ⟨st, Reaches.refl st, hleft, Or.inl ⟨(overwrite_nil _).symm, hnone, rfl⟩⟩
  | cons w ws ih =>
    rw [List.length_cons] at hi
    by_cases hhere : gap = some st.i
    · by_cases hw : w = 0
      · -- the gap is here
        have hlen : (ws.takeWhile (· = 0)).length + (ws.dropWhile (· = 0)).length = ws.length := by
          rw [← List.length_append, List.takeWhile_append_dropWhile]
        have hzeros : ws.takeWhile (· = 0) = List.replicate (ws.takeWhile (· = 0)).length 0 := by
          rw [List.eq_replicate_iff]
          exact ⟨rfl, fun x hx => by simpa using List.mem_takeWhile_imp hx⟩
        rw [printWords_gap ⟨hw, hhere⟩] at hsrc
        have hrest := @reaches_printWords gap (st.i + 1 + (ws.takeWhile (· = 0)).length) (ws.dropWhile (· = 0))
          { st with gapPos := some st.i, src := printWords gap _ _, left := (printWords gap _ _).length }
          (fun p hp => by rw [hhere] at hp; cases hp; omega) (by omega) rfl rfl hwords (by dsimp only; omega)
        refine ⟨_, Reaches.head (ptonStep_gap hsrc hleft hnone (by omega)) hrest, rfl, Or.inr
          ⟨[], (ws.takeWhile (· = 0)).length + 1, ws.dropWhile (· = 0), Nat.succ_pos _, ?_, rfl, rfl, rfl⟩⟩
        rw [List.nil_append, List.replicate_succ, List.cons_append, ← hzeros, List.takeWhile_append_dropWhile,
          hw]
      · -- the gap is not a run of zeros, and all words are printed
        have hnot : ¬(w = 0 ∧ gap = some st.i) := fun h => hw h.1
        have hrest := @reaches_printWords gap (st.i + 1) ws { st with
          src := printWords gap (st.i + 1) ws, left := (printWords gap (st.i + 1) ws).length,
          words := st.words.set st.i w, i := st.i + 1, setWords := st.setWords + 1 }
          (fun p hp => by rw [hhere] at hp; cases hp; omega) (by omega) rfl rfl
          (by rw [List.length_set, hwords]) (by dsimp only; omega)
        refine ⟨_, Reaches.head (ptonStep_printed hnot hi hsrc hleft hwords (by omega)) hrest, rfl,
          Or.inl ⟨overwrite_set (by omega), hnone, ?_⟩⟩
        rw [List.length_cons]
        dsimp only
        omega
    · have hnot : ¬(w = 0 ∧ gap = some st.i) := fun h => hhere h.2
      have hle : ∀ p ∈ gap, st.i + 1 ≤ p := by
        intro p hp
        have hp' := hgap p hp
        have hne : p ≠ st.i := by
          rintro rfl
          exact hhere hp
        omega
      obtain ⟨st', hreaches, hzero, hfilled⟩ := @ih { st with
        src := printWords gap (st.i + 1) ws, left := (printWords gap (st.i + 1) ws).length,
        words := st.words.set st.i w, i := st.i + 1, setWords := st.setWords + 1 }
        hle (by dsimp only; omega) rfl rfl (by rw [List.length_set, hwords]) hnone
      refine ⟨st', Reaches.head (ptonStep_printed hnot hi hsrc hleft hwords (by omega)) hreaches, hzero, ?_⟩
      rcases hfilled with ⟨hws, hgapPos, hset⟩ | ⟨pre, z, post, hz, hws, hwords', hgapPos, hset⟩
      · refine Or.inl ⟨hws.trans (overwrite_set (by omega)), hgapPos, hset.trans ?_⟩
        rw [List.length_cons]
        dsimp only
        omega
      · refine Or.inr ⟨w :: pre, z, post, hz, by rw [hws, List.cons_append],
          hwords'.trans (overwrite_set (by omega)), hgapPos.trans ?_, hset.trans ?_⟩
        · rw [List.length_cons]
          dsimp only
          congr 1
          omega
        · rw [List.cons_append, List.length_cons]
          dsimp only
          omega

/-- **The gap is closed** over the words that were printed. -/
theorem closeGap_of_filled {st' : WordsState} (h : Filled st ws st') (hi : st.i = 0) (hset : st.setWords = 0)
    (hwords : st.words.length = 8) (hws : ws.length = 8) :
    ¬(8 < st'.setWords ∨ st'.setWords = 8 ∧ st'.gapPos ≠ none ∨ st'.setWords < 8 ∧ st'.gapPos = none) ∧
      closeGap st' 0 = .ok ws := by
  have hover : ∀ l : List UInt16, overwrite st.words 0 l = l ++ st.words.drop l.length := fun l => by
    rw [overwrite, List.take_zero, List.nil_append, Nat.zero_add]
  unfold Filled at h
  rw [hi, hset, Nat.zero_add] at h
  rcases h with ⟨hw, hgap, hcount⟩ | ⟨pre, z, post, hz, rfl, hw, hgap, hcount⟩
  · rw [hover, hws, List.drop_of_length_le (Nat.le_of_eq hwords), List.append_nil] at hw
    refine ⟨by rw [hgap]; simp; omega, ?_⟩
    unfold closeGap
    rw [hgap, hw]
  · rw [List.length_append, List.length_append, List.length_replicate] at hws
    rw [Nat.zero_add, List.length_append] at hcount
    rw [Nat.zero_add] at hgap
    rw [hover] at hw
    have hgapLen : 8 - st'.setWords = z := by omega
    have hmove : st'.setWords - 0 - pre.length = post.length := by omega
    refine ⟨by rw [hgap]; simp; omega, ?_⟩
    unfold closeGap
    rw [hgap]
    dsimp only
    rw [if_neg (by omega), hgapLen, hmove, if_neg (by omega)]
    have hlen : st'.words.length = 8 := by
      rw [hw, List.length_append, List.length_drop, List.length_append, hwords]
      omega
    have hpost : (st'.words.drop pre.length).take post.length = post := by
      rw [hw, List.append_assoc, List.drop_left, List.take_left]
    have hpre : st'.words.take pre.length = pre := by rw [hw, List.append_assoc, List.take_left]
    have hhead : (st'.words.take (pre.length + z)).length = pre.length + z := by
      rw [List.length_take, hlen]
      omega
    have hmoved : st'.words.take (pre.length + z) ++ (st'.words.drop pre.length).take post.length ++
        st'.words.drop (pre.length + z + post.length) = st'.words.take (pre.length + z) ++ post := by
      rw [hpost, List.drop_of_length_le (by omega), List.append_nil]
    rw [hmoved, List.take_append_of_le_length (by omega), List.take_take,
      Nat.min_eq_left (Nat.le_add_right _ _), hpre, List.drop_left' hhead, List.append_assoc]

end Words

/-! ### Printed addresses -/

section Addresses

variable {gap : Option ℕ} {i : ℕ} {ws : List UInt16} {src : List UInt8} {b1 b2 b3 b4 : UInt8}

theorem exists_two_colons {l t : List UInt8} (h : t = [0x3a] ∨ ∃ u, t = u ++ [0x3a, 0x3a]) :
    ∃ u, l ++ 0x3a :: t = u ++ [0x3a, 0x3a] := by
  rcases h with rfl | ⟨u, rfl⟩
  · exact ⟨l, rfl⟩
  · exact ⟨l ++ 0x3a :: u, by rw [List.append_assoc, List.cons_append]⟩

theorem printWords_ne_nil (h : ws ≠ []) : printWords gap i ws ≠ [] := by
  obtain ⟨w, ws, rfl⟩ := List.exists_cons_of_ne_nil h
  by_cases hgap : w = 0 ∧ gap = some i
  · rw [printWords_gap hgap]
    simp
  · rw [printWords_word hgap]
    simp [hexadecimal_ne_nil]

/-- A printed text that ends in a colon ends in two, but for the gap behind the words. -/
theorem getLast?_printWords (hi : i + ws.length = 8) (h : (printWords gap i ws).getLast? = some 0x3a) :
    printWords gap i ws = [0x3a] ∧ 0 < i ∨ ∃ u, printWords gap i ws = u ++ [0x3a, 0x3a] := by
  induction i, ws using printWords.induct gap with
  | case1 i =>
    rw [printWords_nil] at h
    cases h
  | case2 i w ws hgap ih =>
    have hlen : (ws.takeWhile (· = 0)).length + (ws.dropWhile (· = 0)).length = ws.length := by
      rw [← List.length_append, List.takeWhile_append_dropWhile]
    rw [List.length_cons] at hi
    rw [printWords_gap hgap] at h ⊢
    by_cases hrest : ws.dropWhile (· = 0) = []
    · rw [hrest, printWords_nil]
      split_ifs with h0
      · exact Or.inr ⟨[], rfl⟩
      · exact Or.inl ⟨rfl, Nat.pos_of_ne_zero h0⟩
    · rw [List.getLast?_append_cons, List.getLast?_cons_of_ne_nil (printWords_ne_nil hrest)] at h
      exact Or.inr (exists_two_colons ((ih (by omega) h).imp_left And.left))
  | case3 i w ws hgap ih =>
    rw [List.length_cons] at hi
    rw [printWords_word hgap] at h ⊢
    by_cases h7 : i = 7
    · have hws : ws = [] := List.length_eq_zero_iff.mp (by omega)
      rw [hws, if_neg (not_not.mpr h7), printWords_nil, List.append_nil, List.append_nil] at h
      exact absurd (torIsXDigit_of_mem_hexadecimal (List.mem_of_getLast? h)) (by decide)
    · have hrest : printWords gap (i + 1) ws ≠ [] := by
        refine printWords_ne_nil fun hnil => ?_
        rw [hnil, List.length_nil] at hi
        omega
      rw [if_pos h7, List.singleton_append] at h ⊢
      rw [List.getLast?_append_cons, List.getLast?_cons_of_ne_nil hrest] at h
      exact Or.inr (exists_two_colons ((ih (by omega) h).imp_left And.left))

/-- No printed text is rejected for its end. -/
theorem trailingColon_printWords (hws : ws.length = 8) : trailingColon (printWords gap 0 ws) = false := by
  rw [trailingColon, Bool.and_eq_false_iff, Bool.and_eq_false_iff]
  by_cases hlast : (printWords gap 0 ws).getLast? = some 0x3a
  · rcases getLast?_printWords (by omega) hlast with ⟨_, h0⟩ | ⟨u, hu⟩
    · exact absurd h0 (Nat.lt_irrefl 0)
    · refine Or.inr ?_
      rw [hu, show u ++ [0x3a, 0x3a] = (u ++ [0x3a]) ++ [0x3a] by simp, List.dropLast_concat,
        List.getLast?_append]
      rfl
  · exact Or.inl (Or.inr (beq_eq_false_iff_ne.mpr hlast))

/-- **Printed words are parsed back**, whichever run of zeros is left out. -/
theorem torInetPton6_printWords (hws : ws.length = 8) :
    torInetPton6 (printWords gap 0 ws) = .ok (some (Bytes.pad 16 (ofWords ws))) := by
  have hdot : 0x2e ∉ printWords gap 0 ws := fun hmem => absurd (mem_printWords hmem) (by decide)
  have hstart : (endOfWords (printWords gap 0 ws)).bind (startWords (printWords gap 0 ws)) =
      some ⟨printWords gap 0 ws, (printWords gap 0 ws).length, List.replicate 8 0xf8f8, 0, none, 0⟩ := by
    rw [endOfWords, if_neg hdot, Option.bind_some, startWords, if_neg hdot]
  obtain ⟨hinv, hle⟩ := ptonInv_start hstart
  obtain ⟨o, hrun, _⟩ := run_ptonStep hinv (Nat.lt_succ_of_le hle)
  obtain ⟨st', hreaches, hzero, hfilled⟩ := @exists_filled gap ws
    ⟨printWords gap 0 ws, (printWords gap 0 ws).length, List.replicate 8 0xf8f8, 0, none, 0⟩
    (fun p _ => Nat.zero_le p) (by dsimp only; omega) rfl rfl List.length_replicate rfl
  obtain ⟨hset, hclose⟩ := closeGap_of_filled hfilled rfl rfl List.length_replicate hws
  have hend : ptonStep st' = .halt (.done st') := if_pos hzero
  rw [torInetPton6, trailingColon_printWords hws, if_neg Bool.false_ne_true, hstart]
  dsimp only
  rw [run_of_reaches hreaches hend hrun]
  dsimp only
  rw [if_neg hset, if_neg hdot, hclose]
  rfl

/-! ### Dotted tails -/

def byteWord (hi lo : UInt8) : UInt16 := (hi.toUInt16 <<< 8) + lo.toUInt16

theorem dottedWords_quadText : dottedWords (quadText b1 b2 b3 b4) = some (byteWord b1 b2, byteWord b3 b4) := by
  have h1 := b1.toNat_lt
  have h2 := b2.toNat_lt
  have h3 := b3.toNat_lt
  have h4 := b4.toNat_lt
  rw [dottedWords, torSscanf_quadText]
  dsimp only
  rw [if_neg (by omega), word_eq, word_eq]
  rfl

theorem getLast?_quadText {l : List UInt8} : (l ++ quadText b1 b2 b3 b4).getLast? ≠ some 0x3a := by
  have hsplit : l ++ quadText b1 b2 b3 b4 = (l ++ (decimal b1.toNat ++ 0x2e :: (decimal b2.toNat ++
      0x2e :: (decimal b3.toNat ++ [0x2e])))) ++ decimal b4.toNat := by
    simp [quadText]
  rw [hsplit, List.getLast?_append_of_ne_nil _ (decimal_ne_nil _)]
  exact fun h => not_mem_decimal (by decide) (List.mem_of_getLast? h)

theorem trailingColon_quadText {l : List UInt8} : trailingColon (l ++ quadText b1 b2 b3 b4) = false := by
  rw [trailingColon, Bool.and_eq_false_iff, Bool.and_eq_false_iff]
  exact Or.inl (Or.inr (beq_eq_false_iff_ne.mpr getLast?_quadText))

theorem dot_mem_quadText {l : List UInt8} : 0x2e ∈ l ++ quadText b1 b2 b3 b4 := by simp [quadText]

theorem takeWhile_quadText {l : List UInt8} (hl : 0x2e ∉ l) :
    ((l ++ quadText b1 b2 b3 b4).takeWhile (· ≠ 0x2e)).reverse.dropWhile isDigit =
      l.reverse.dropWhile isDigit := by
  have hne : ∀ c ∈ l ++ decimal b1.toNat, decide (c ≠ 0x2e) = true := by
    intro c hc
    refine decide_eq_true ?_
    rintro rfl
    rcases List.mem_append.mp hc with hc | hc
    · exact hl hc
    · exact not_mem_decimal (by decide) hc
  have hsplit : l ++ quadText b1 b2 b3 b4 = (l ++ decimal b1.toNat) ++
      0x2e :: (decimal b2.toNat ++ 0x2e :: (decimal b3.toNat ++ 0x2e :: decimal b4.toNat)) := by
    rw [quadText, List.append_assoc]
  rw [hsplit, List.takeWhile_append_of_pos hne, List.takeWhile_cons_of_neg (by simp), List.append_nil,
    List.reverse_append, List.dropWhile_append_of_pos]
  exact fun c hc => isDigit_of_mem_decimal (List.mem_reverse.mp hc)

/-- The state of the loop in front of a dotted tail. -/
def tailState (before : List UInt8) (b1 b2 b3 b4 : UInt8) : WordsState where
  src := (before ++ [0x3a]) ++ quadText b1 b2 b3 b4
  left := before.length + 1
  words := [0xf8f8, 0xf8f8, 0xf8f8, 0xf8f8, 0xf8f8, 0xf8f8, byteWord b1 b2, byteWord b3 b4]
  i := 0
  gapPos := none
  setWords := 2

theorem start_tailState {before : List UInt8} (hdot : 0x2e ∉ before) :
    (endOfWords ((before ++ [0x3a]) ++ quadText b1 b2 b3 b4)).bind
        (startWords ((before ++ [0x3a]) ++ quadText b1 b2 b3 b4)) =
      some (tailState before b1 b2 b3 b4) := by
  have hmem := @dot_mem_quadText b1 b2 b3 b4 (before ++ [0x3a])
  have hhead : 0x2e ∉ before ++ [0x3a] := by
    rw [List.mem_append, List.mem_singleton, not_or]
    exact ⟨hdot, by decide⟩
  have hend : endOfWords ((before ++ [0x3a]) ++ quadText b1 b2 b3 b4) = some (before.length + 1) := by
    rw [endOfWords, if_pos hmem, takeWhile_quadText hhead, List.reverse_append]
    simp [isDigit]
  have hdrop : ((before ++ [0x3a]) ++ quadText b1 b2 b3 b4).drop (before.length + 1) = quadText b1 b2 b3 b4 :=
    List.drop_left' (by simp)
  rw [hend, Option.bind_some, startWords, if_pos hmem, hdrop, dottedWords_quadText]
  rfl

/-- A text with a dotted tail is parsed as the loop and the gap say. -/
theorem torInetPton6_tail {before : List UInt8} {st' : WordsState} {words : List UInt16}
    (hdot : 0x2e ∉ before) (hreaches : Reaches ptonStep (tailState before b1 b2 b3 b4) st')
    (hzero : st'.left = 0) (hset : st'.setWords < 8) (hgap : st'.gapPos ≠ none)
    (hclose : closeGap st' 2 = .ok words) :
    torInetPton6 ((before ++ [0x3a]) ++ quadText b1 b2 b3 b4) = .ok (some (Bytes.pad 16 (ofWords words))) := by
  have hstart := @start_tailState b1 b2 b3 b4 _ hdot
  obtain ⟨hinv, hle⟩ := ptonInv_start hstart
  obtain ⟨o, hrun, _⟩ := run_ptonStep hinv (Nat.lt_succ_of_le hle)
  have hend : ptonStep st' = .halt (.done st') := if_pos hzero
  have hnot : ¬(8 < st'.setWords ∨ st'.setWords = 8 ∧ st'.gapPos ≠ none ∨
      st'.setWords < 8 ∧ st'.gapPos = none) := by
    rintro (h | ⟨h, _⟩ | ⟨_, h⟩)
    · omega
    · omega
    · exact hgap h
  rw [torInetPton6, trailingColon_quadText, if_neg Bool.false_ne_true, hstart]
  dsimp only
  rw [run_of_reaches hreaches hend hrun]
  dsimp only
  rw [if_neg hnot, if_pos dot_mem_quadText, hclose]
  rfl

theorem ptonStep_twoColons {st : WordsState} {next : List UInt8} (hsrc : st.src = 0x3a :: 0x3a :: next)
    (hleft : 1 < st.left) (hi : st.i = 0) (hnone : st.gapPos = none) :
    ptonStep st = .next { st with gapPos := some st.i, src := next, left := st.left - 2 } := by
  have hcolon : torIsXDigit 0x3a = false := by decide
  unfold ptonStep
  rw [if_neg (by omega), if_neg (by omega), hsrc]
  simp [hcolon, hi, hnone, hleft]

theorem torInetPton6_compatible : torInetPton6 (0x3a :: 0x3a :: quadText b1 b2 b3 b4) =
    .ok (some (Bytes.pad 16 (ofWords [0, 0, 0, 0, 0, 0, byteWord b1 b2, byteWord b3 b4]))) :=
  @torInetPton6_tail b1 b2 b3 b4 [0x3a] _ _ (by decide)
    (Reaches.single (ptonStep_twoColons rfl (Nat.lt_succ_self 1) rfl rfl)) rfl (by simp [tailState]) nofun rfl

theorem hexadecimal_ffff : hexadecimal (0xffff : UInt16).toNat = [0x66, 0x66, 0x66, 0x66] := by decide +kernel

theorem torInetPton6_mapped :
    torInetPton6 (0x3a :: 0x3a :: (hexadecimal (0xffff : UInt16).toNat ++ 0x3a :: quadText b1 b2 b3 b4)) =
      .ok (some (Bytes.pad 16 (ofWords [0, 0, 0, 0, 0, 0xffff, byteWord b1 b2, byteWord b3 b4]))) := by
  have hcolons := @ptonStep_twoColons (tailState [0x3a, 0x3a, 0x66, 0x66, 0x66, 0x66] b1 b2 b3 b4)
    (hexadecimal (0xffff : UInt16).toNat ++ 0x3a :: quadText b1 b2 b3 b4)
    (by rw [hexadecimal_ffff]; rfl) (by simp [tailState]) rfl rfl
  have hword := @ptonStep_word 0xffff
    { tailState [0x3a, 0x3a, 0x66, 0x66, 0x66, 0x66] b1 b2 b3 b4 with
      gapPos := some 0, src := hexadecimal (0xffff : UInt16).toNat ++ 0x3a :: quadText b1 b2 b3 b4, left := 5 }
    (0x3a :: quadText b1 b2 b3 b4) rfl (Or.inr rfl) (Nat.succ_ne_zero 4) rfl (Nat.succ_pos 7)
  have htail := @torInetPton6_tail b1 b2 b3 b4 [0x3a, 0x3a, 0x66, 0x66, 0x66, 0x66] _ _ (by decide)
    (Reaches.head hcolons (Reaches.single hword)) (by rw [hexadecimal_ffff]; rfl) (by simp [tailState]) nofun
    rfl
  rw [hexadecimal_ffff]
  exact htail

/-! ### Every address -/

/-- The text of an IPv6 address: its words, or a dotted tail behind a gap. -/
theorem in6Text_cases (a : Bytes 16) :
    (∃ gap, in6Text a = printWords gap 0 (toWords a.val)) ∨
    (∃ b1 b2 b3 b4, toWords a.val = [0, 0, 0, 0, 0, 0, byteWord b1 b2, byteWord b3 b4] ∧
      in6Text a = 0x3a :: 0x3a :: quadText b1 b2 b3 b4) ∨
    ∃ b1 b2 b3 b4, toWords a.val = [0, 0, 0, 0, 0, 0xffff, byteWord b1 b2, byteWord b3 b4] ∧
      in6Text a = 0x3a :: 0x3a :: (hexadecimal (0xffff : UInt16).toNat ++ 0x3a :: quadText b1 b2 b3 b4) := by
  obtain ⟨val, hlen⟩ := a
  match val, hlen with
  | [x0, x1, x2, x3, x4, x5, x6, x7, x8, x9, x10, x11, x12, x13, x14, x15], hlen =>
    have hwords : toWords [x0, x1, x2, x3, x4, x5, x6, x7, x8, x9, x10, x11, x12, x13, x14, x15] =
        [byteWord x0 x1, byteWord x2 x3, byteWord x4 x5, byteWord x6 x7, byteWord x8 x9, byteWord x10 x11,
          byteWord x12 x13, byteWord x14 x15] := rfl
    unfold in6Text
    dsimp only
    rw [hwords]
    simp only [List.getD_cons_zero, List.getD_cons_succ]
    split_ifs with hspecial h5
    · obtain ⟨h0, h1, h2, h3, h4, _⟩ := hspecial
      rw [h0, h1, h2, h3, h4, h5]
      exact Or.inr (Or.inl ⟨x12, x13, x14, x15, rfl, rfl⟩)
    · obtain ⟨h0, h1, h2, h3, h4, hor⟩ := hspecial
      have hffff : byteWord x10 x11 = 0xffff := by
        rcases hor with ⟨hzero, _⟩ | hffff
        · exact absurd hzero h5
        · exact hffff
      rw [h0, h1, h2, h3, h4, hffff]
      exact Or.inr (Or.inr ⟨x12, x13, x14, x15, rfl, rfl⟩)
    · exact Or.inl ⟨_, rfl⟩

theorem pad_ofWords_toWords (a : Bytes 16) : Bytes.pad 16 (ofWords (toWords a.val)) = a := by
  rw [ofWords_toWords (by rw [a.length_eq]), Bytes.pad_val]

/-- **An IPv6 address is parsed back.** -/
theorem torInetPton6_in6Text (a : Bytes 16) : torInetPton6 (in6Text a) = .ok (some a) := by
  have hlen : (toWords a.val).length = 8 := by
    have h := length_toWords (l := a.val) (by rw [a.length_eq])
    rw [a.length_eq] at h
    omega
  rcases in6Text_cases a with ⟨gap, htext⟩ | ⟨b1, b2, b3, b4, hwords, htext⟩ | ⟨b1, b2, b3, b4, hwords, htext⟩
  · rw [htext, torInetPton6_printWords hlen, pad_ofWords_toWords]
  · rw [htext, torInetPton6_compatible, ← hwords, pad_ofWords_toWords]
  · rw [htext, torInetPton6_mapped, ← hwords, pad_ofWords_toWords]

theorem length_quadText_le : (quadText b1 b2 b3 b4).length ≤ 15 := by
  have hbyte : ∀ b : UInt8, (decimal b.toNat).length ≤ 3 := fun b =>
    length_decimal_le (by decide) (b.toNat_lt.trans (by decide))
  have h1 := hbyte b1
  have h2 := hbyte b2
  have h3 := hbyte b3
  have h4 := hbyte b4
  simp only [quadText, List.length_append, List.length_cons]
  omega

theorem length_in6Text_lt (a : Bytes 16) : (in6Text a).length < 40 := by
  have hlen := length_toWords (l := a.val) (by rw [a.length_eq])
  rw [a.length_eq] at hlen
  rcases in6Text_cases a with ⟨gap, htext⟩ | ⟨b1, b2, b3, b4, _, htext⟩ | ⟨b1, b2, b3, b4, _, htext⟩
  · have hlt := @length_printWords_lt gap 0 (toWords a.val) (by omega)
      (List.ne_nil_of_length_pos (by omega))
    rw [htext]
    omega
  · have hquad := @length_quadText_le b1 b2 b3 b4
    rw [htext, List.length_cons, List.length_cons]
    omega
  · have hquad := @length_quadText_le b1 b2 b3 b4
    rw [htext, hexadecimal_ffff]
    simp only [List.length_cons, List.length_append, List.length_nil]
    omega

/-- The text of an IPv6 address has a colon, and starts with a digit or a colon. -/
theorem in6Text_colon (a : Bytes 16) : 0x3a ∈ in6Text a ∧ (in6Text a).head? ≠ some 0x5b := by
  have hlen := length_toWords (l := a.val) (by rw [a.length_eq])
  rw [a.length_eq] at hlen
  rcases in6Text_cases a with ⟨gap, htext⟩ | ⟨b1, b2, b3, b4, _, htext⟩ | ⟨b1, b2, b3, b4, _, htext⟩
  · rw [htext]
    constructor
    · have hpos : 0 < (toWords a.val).length := by omega
      obtain ⟨w, ws, hw⟩ := List.exists_cons_of_ne_nil (List.ne_nil_of_length_pos hpos)
      rw [hw]
      by_cases hgap : w = 0 ∧ gap = some 0
      · rw [printWords_gap hgap]
        simp
      · rw [printWords_word hgap]
        simp
    · intro hhead
      exact absurd (mem_printWords (List.mem_of_mem_head? hhead)) (by decide)
  · rw [htext]
    exact ⟨List.mem_cons_self, nofun⟩
  · rw [htext]
    exact ⟨List.mem_cons_self, nofun⟩

end Addresses

/-! ### Both families -/

def torAddrBufLen : ℕ := 48

/-- Printing an address, bare or decorated, and parsing the text gives the address; a buffer of
`TOR_ADDR_BUF_LEN` bytes holds the text. -/
structure TextRoundTrip (af : SaFamily) (addr : TorAddr) : Prop where
  pton : ∀ len text, torInetNtop addr len = some text → torInetPton af text = .ok (some addr)
  parse : ∀ len decorate text, torAddrToStr addr len decorate = some text → torAddrParse text = .ok (some addr)
  ntop_fits : ∀ len, torAddrBufLen ≤ len → (torInetNtop addr len).isSome
  toStr_fits : ∀ len decorate, torAddrBufLen ≤ len → (torAddrToStr addr len decorate).isSome

theorem torInetPton6_quadText (b1 b2 b3 b4 : UInt8) : torInetPton6 (quadText b1 b2 b3 b4) = .ok none := by
  have hnodot := @takeWhile_quadText b1 b2 b3 b4 [] (by simp)
  have hmem := @dot_mem_quadText b1 b2 b3 b4 []
  rw [List.nil_append] at hnodot hmem
  have hend : endOfWords (quadText b1 b2 b3 b4) = none := by
    rw [endOfWords, if_pos hmem, hnodot]
    rfl
  rw [torInetPton6, hend]
  split_ifs <;> rfl

theorem head?_quadText (b1 b2 b3 b4 : UInt8) : (quadText b1 b2 b3 b4).head? ≠ some 0x5b := by
  obtain ⟨d, ds, hd⟩ := List.exists_cons_of_ne_nil (decimal_ne_nil b1.toNat)
  rw [quadText, hd]
  rintro ⟨⟩
  exact not_mem_decimal (c := 0x5b) (by decide) (by rw [hd]; exact List.mem_cons_self)

theorem torInetAton_in6Text (a : Bytes 16) : torInetAton (in6Text a) = none := by
  rw [Option.eq_none_iff_forall_ne_some]
  intro x hx
  exact absurd (mem_of_torInetAton hx (in6Text_colon a).1) (by decide)

/-- A text without a bracket is parsed as an address of both families. -/
theorem torAddrParse_bare {text : List UInt8} {in6 : Option (Bytes 16)} (hhead : text.head? ≠ some 0x5b)
    (h6 : torInetPton6 text = .ok in6) :
    torAddrParse text = .ok ((torInetAton text).map .inet <|> in6.map .inet6) := by
  have hbrackets : (text.head? == some 0x5b && text.getLast? == some 0x5d) = false := by
    rw [Bool.and_eq_false_iff]
    exact Or.inl (beq_eq_false_iff_ne.mpr hhead)
  rw [torAddrParse, torAddrParseImpl, hbrackets]
  simp only [Bool.false_eq_true, if_false, or_true, if_true, torInetPton, h6]
  rfl

/-- **An IPv4 address.** -/
theorem textRoundTrip_inet (a : UInt32) : TextRoundTrip .inet (.inet a) := by
  have htext : ∀ len text, torInetNtop (.inet a) len = some text →
      text = quadText (a >>> 24).toUInt8 (a >>> 16).toUInt8 (a >>> 8).toUInt8 a.toUInt8 := by
    intro len text h
    rw [torInetNtop, torInetNtoa, torSnprintf] at h
    split_ifs at h
    exact (Option.some.inj h).symm
  have haton : torInetAton (quadText (a >>> 24).toUInt8 (a >>> 16).toUInt8 (a >>> 8).toUInt8 a.toUInt8) =
      some a := by rw [torInetAton_quadText, quad_eq]
  have hfits : ∀ len, torAddrBufLen ≤ len → (torInetNtop (.inet a) len).isSome := by
    intro len hlen
    have hquad := @length_quadText_le (a >>> 24).toUInt8 (a >>> 16).toUInt8 (a >>> 8).toUInt8 a.toUInt8
    unfold torAddrBufLen at hlen
    rw [torInetNtop, torInetNtoa, torSnprintf, if_pos (by omega)]
    rfl
  refine ⟨?_, ?_, hfits, ?_⟩
  · intro len text h
    rw [htext len text h, torInetPton, haton]
    rfl
  · intro len decorate text h
    rw [torAddrToStr] at h
    split_ifs at h
    rw [htext len text h, torAddrParse_bare (head?_quadText _ _ _ _) (torInetPton6_quadText _ _ _ _),
      haton]
    rfl
  · intro len decorate hlen
    have hlong : ¬len < 8 := by
      unfold torAddrBufLen at hlen
      omega
    rw [torAddrToStr, if_neg hlong]
    exact hfits len hlen

/-- **An IPv6 address.** -/
theorem textRoundTrip_inet6 (a : Bytes 16) : TextRoundTrip .inet6 (.inet6 a) := by
  have htext : ∀ len text, torInetNtop (.inet6 a) len = some text → text = in6Text a := by
    intro len text h
    rw [torInetNtop] at h
    split_ifs at h
    exact (Option.some.inj h).symm
  have hlt := length_in6Text_lt a
  have hfits : ∀ len, 40 ≤ len → (torInetNtop (.inet6 a) len).isSome := by
    intro len hlen
    rw [torInetNtop, if_neg (by omega)]
    rfl
  have hbare := torAddrParse_bare (in6Text_colon a).2 (torInetPton6_in6Text a)
  rw [torInetAton_in6Text] at hbare
  refine ⟨?_, ?_, fun len hlen => hfits len (Nat.le_trans (by decide) hlen), ?_⟩
  · intro len text h
    rw [htext len text h, torInetPton, torInetPton6_in6Text]
    rfl
  · intro len decorate text h
    rw [torAddrToStr] at h
    cases decorate with
    | false =>
      rw [if_neg Bool.false_ne_true, if_neg Bool.false_ne_true] at h
      split_ifs at h
      rw [htext len text h, hbare]
      rfl
    | true =>
      rw [if_pos rfl, if_pos rfl] at h
      split_ifs at h
      obtain ⟨inner, hinner, rfl⟩ := Option.map_eq_some_iff.mp h
      rw [htext _ inner hinner, torAddrParse, torAddrParseImpl]
      have hlast : (0x5b :: (in6Text a ++ [0x5d])).getLast? = some 0x5d := by
        rw [← List.cons_append, List.getLast?_concat]
      simp only [List.head?_cons, hlast, beq_self_eq_true, Bool.and_self, if_true, true_or, List.tail_cons,
        List.dropLast_concat, torInetPton, torInetPton6_in6Text]
      rfl
  · intro len decorate hlen
    unfold torAddrBufLen at hlen
    rw [torAddrToStr]
    cases decorate with
    | false =>
      rw [if_neg Bool.false_ne_true, if_neg Bool.false_ne_true, if_neg (by omega)]
      exact hfits len (by omega)
    | true =>
      rw [if_pos rfl, if_pos rfl, if_neg (by omega), Option.isSome_map]
      exact hfits _ (by omega)

/-- On every string `tor_addr_parse` returns. -/
theorem torAddrParse_total (src : List UInt8) : ∃ r, torAddrParse src = .ok r := by
  have hpton : ∀ src, ∃ r, torInetPton .inet6 src = .ok r := by
    intro src
    obtain ⟨r, hr⟩ := torInetPton6_total src
    exact ⟨r.map .inet6, by rw [torInetPton, hr]; rfl⟩
  rw [torAddrParse, torAddrParseImpl]
  generalize (src.head? == some 0x5b && src.getLast? == some 0x5d) = brackets
  obtain ⟨r, hr⟩ := hpton (if brackets = true then src.tail.dropLast else src)
  simp only [or_true, if_true, hr]
  cases brackets with
  | false => exact ⟨_, rfl⟩
  | true => exact ⟨_, rfl⟩

/-- **Addresses as texts.**  Every IPv4 and every IPv6 address is parsed back from what was printed, and on
every string `tor_inet_pton` returns, with no assertion failed and nothing written outside of its words. -/
theorem textRoundTrip : (∀ a, TextRoundTrip .inet (.inet a)) ∧ (∀ a, TextRoundTrip .inet6 (.inet6 a)) ∧
    ∀ src, ∃ r, torInetPton .inet6 src = .ok r := by
  refine ⟨textRoundTrip_inet, textRoundTrip_inet6, ?_⟩
  intro src
  obtain ⟨r, hr⟩ := torInetPton6_total src
  exact ⟨r.map .inet6, by rw [torInetPton, hr]; rfl⟩

end TorEbpf.Net
