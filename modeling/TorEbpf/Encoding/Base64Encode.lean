import TorEbpf.Encoding.Base64

/-!
# What `base64_encode` writes

The characters of base 64, with a newline behind every 64th and behind the last one if that is asked for.

* `lines` — the text that is written for some characters;
* `length_outputText` — its length is what `base64_encode_size` says;
* `base64Encode_eq` — the encoder writes it, and its last assertion holds.
-/

namespace TorEbpf.Encoding

open TorEbpf.Lib
open TorEbpf.Dirauth (base64EncodeTable)

/-- A newline behind every 64th character, if there are `k` characters in the line already. -/
def breakLines : ℕ → List UInt8 → List UInt8
  | _, [] => []
  | k, c :: l => if (k + 1) % 64 = 0 then c :: 0x0a :: breakLines 0 l else c :: breakLines (k + 1) l

/-- What is written for some characters. -/
def lines (multiline : Bool) (l : List UInt8) : List UInt8 := if multiline then breakLines 0 l else l

/-- The whole text, with the newline at the end. -/
def outputText (multiline : Bool) (l : List UInt8) : List UInt8 :=
  lines multiline l ++ if multiline = true ∧ l.length % 64 ≠ 0 then [0x0a] else []

variable {multiline : Bool} {destlen : ℕ} {l x : List UInt8} {ch : UInt8}

theorem breakLines_append (k : ℕ) (l : List UInt8) (ch : UInt8) : breakLines k (l ++ [ch]) =
    breakLines k l ++ if (k + l.length + 1) % 64 = 0 then [ch, 0x0a] else [ch] := by
  induction l generalizing k with
  | nil =>
    rw [List.nil_append, breakLines, breakLines, breakLines, breakLines, List.nil_append, List.length_nil,
      Nat.add_zero]
  | cons c l ih =>
    rw [List.cons_append, breakLines, breakLines, List.length_cons]
    by_cases hk : (k + 1) % 64 = 0
    · have hmod : (0 + l.length + 1) % 64 = (k + (l.length + 1) + 1) % 64 := by omega
      rw [if_pos hk, if_pos hk, ih, hmod]
      rfl
    · have hadd : k + 1 + l.length + 1 = k + (l.length + 1) + 1 := by omega
      rw [if_neg hk, if_neg hk, ih, hadd]
      rfl

theorem length_breakLines (k : ℕ) (l : List UInt8) (hk : k < 64) :
    (breakLines k l).length = l.length + (k + l.length) / 64 := by
  induction l generalizing k with
  | nil =>
    rw [breakLines, List.length_nil]
    omega
  | cons c l ih =>
    rw [breakLines]
    split_ifs with h
    · rw [List.length_cons, List.length_cons, List.length_cons, ih 0 (by decide)]
      omega
    · rw [List.length_cons, List.length_cons, ih (k + 1) (by omega)]
      omega

theorem length_lines (multiline : Bool) (l : List UInt8) :
    (lines multiline l).length = l.length + if multiline then l.length / 64 else 0 := by
  unfold lines
  split_ifs
  · rw [length_breakLines 0 l (by decide), Nat.zero_add]
  · rfl

theorem length_lines_le {m : List UInt8} : (lines multiline l).length ≤ (lines multiline (l ++ m)).length := by
  rw [length_lines, length_lines, List.length_append]
  split_ifs <;> omega

/-! ### One character -/

def emitted (multiline : Bool) (destlen : ℕ) (l : List UInt8) (n nIdx : ℕ) : EncodeState :=
  ⟨padded destlen (lines multiline l), (lines multiline l).length, n, nIdx,
    if multiline then l.length % 64 else 0⟩

variable {n nIdx : ℕ}

theorem put_eq {written : List UInt8} {d linelen : ℕ} (hd : written.length = d) (h : d < destlen) :
    EncodeState.put ⟨padded destlen written, d, n, nIdx, linelen⟩ ch =
      .ok ⟨padded destlen (written ++ [ch]), d + 1, n, nIdx, linelen⟩ := by
  rw [EncodeState.put, store_padded hd h, ok_bind]
  rfl

/-- **`ENCODE_CHAR`** adds a character. -/
theorem encodeChar_emitted (h : (lines multiline (l ++ [ch])).length ≤ destlen) :
    encodeChar multiline ch (emitted multiline destlen l n nIdx) =
      .ok (emitted multiline destlen (l ++ [ch]) n nIdx) := by
  have hlen := length_lines multiline l
  have hnext := length_lines multiline (l ++ [ch])
  rw [List.length_append, List.length_singleton] at hnext
  have hroom : (lines multiline l).length < destlen := by
    split_ifs at hlen hnext <;> omega
  rw [encodeChar, emitted, put_eq rfl hroom, ok_bind]
  cases multiline with
  | false =>
    have hlines : lines false (l ++ [ch]) = lines false l ++ [ch] := rfl
    rw [if_pos rfl, emitted, hlines, List.length_append]
    rfl
  | true =>
    have happend := breakLines_append 0 l ch
    rw [Nat.zero_add] at happend
    have hwrap : (l.length % 64 + 1) % 64 = (l.length + 1) % 64 := by omega
    dsimp only
    rw [if_neg (by simp), if_pos rfl, hwrap]
    by_cases hk : (l.length + 1) % 64 = 0
    · rw [if_pos hk] at happend ⊢
      have hlines : lines true (l ++ [ch]) = lines true l ++ [ch] ++ [0x0a] := by
        rw [lines, if_pos rfl, happend, lines, if_pos rfl, List.append_assoc]
        rfl
      rw [hlines, List.length_append, List.length_singleton] at h
      rw [put_eq (by rw [List.length_append, List.length_singleton]) (by rw [List.length_append] at h; exact h)]
      rw [emitted, hlines, List.length_append, List.length_append, if_pos rfl, List.length_append,
        List.length_singleton, hk]
      rfl
    · rw [if_neg hk] at happend ⊢
      have hlines : lines true (l ++ [ch]) = lines true l ++ [ch] := by
        rw [lines, if_pos rfl, happend, lines, if_pos rfl]
      have hlast : l.length % 64 + 1 = (l.length + 1) % 64 := by omega
      rw [emitted, hlines, List.length_append, if_pos rfl, List.length_append, List.length_singleton, ← hlast]
      rfl

/-! ### Groups of characters -/

theorem and_0x3f (v : ℕ) : v &&& 0x3f = v % 64 := and_mask v 6

/-- **`ENCODE_N`** adds six bits. -/
theorem encodeN_emitted {idx : ℕ} (h : (lines multiline
      (l ++ [base64EncodeTable (n / 2 ^ ((3 - idx) * 6) % 64)])).length ≤ destlen) :
    encodeN multiline idx (emitted multiline destlen l n nIdx) =
      .ok (emitted multiline destlen (l ++ [base64EncodeTable (n / 2 ^ ((3 - idx) * 6) % 64)]) n nIdx) := by
  rw [encodeN, and_0x3f, Nat.shiftRight_eq_div_pow]
  exact encodeChar_emitted h

theorem encodeByte_emitted {a : UInt8} (h : nIdx + 1 ≠ 3) :
    encodeByte multiline (emitted multiline destlen l n nIdx) a =
      .ok (emitted multiline destlen l (n * 256 + a.toNat) (nIdx + 1)) := by
  have ha : a.toNat < 2 ^ 8 := a.toNat_lt
  have hn : n <<< 8 ||| a.toNat = n * 256 + a.toNat := by
    rw [← Nat.shiftLeft_add_eq_or_of_lt ha, Nat.shiftLeft_eq]
  rw [encodeByte, emitted]
  dsimp only
  rw [hn, if_neg h]
  rfl

def sixBits (n : ℕ) (idxs : List ℕ) : List UInt8 :=
  idxs.map fun idx => base64EncodeTable (n / 2 ^ ((3 - idx) * 6) % 64)

/-- `ENCODE_N` for several groups. -/
def encodeNs (multiline : Bool) (idxs : List ℕ) (st : EncodeState) : Codec EncodeState :=
  idxs.foldlM (fun st idx => encodeN multiline idx st) st

theorem encodeNs_emitted {idxs : List ℕ} (h : (lines multiline (l ++ sixBits n idxs)).length ≤ destlen) :
    encodeNs multiline idxs (emitted multiline destlen l n nIdx) =
      .ok (emitted multiline destlen (l ++ sixBits n idxs) n nIdx) := by
  induction idxs generalizing l with
  | nil =>
    rw [sixBits, List.map_nil, List.append_nil]
    rfl
  | cons idx idxs ih =>
    have hsplit : l ++ sixBits n (idx :: idxs) =
        l ++ [base64EncodeTable (n / 2 ^ ((3 - idx) * 6) % 64)] ++ sixBits n idxs := by
      rw [List.append_assoc]
      rfl
    rw [hsplit] at h ⊢
    rw [encodeNs, List.foldlM_cons, encodeN_emitted (length_lines_le.trans h), ok_bind]
    exact ih h

/-- **The third byte** of a group. -/
theorem encodeByte_third {a : UInt8}
    (h : (lines multiline (l ++ sixBits (n * 256 + a.toNat) [0, 1, 2, 3])).length ≤ destlen) :
    encodeByte multiline (emitted multiline destlen l n 2) a =
      .ok (emitted multiline destlen (l ++ sixBits (n * 256 + a.toNat) [0, 1, 2, 3]) 0 0) := by
  have ha : a.toNat < 2 ^ 8 := a.toNat_lt
  have hn : n <<< 8 ||| a.toNat = n * 256 + a.toNat := by
    rw [← Nat.shiftLeft_add_eq_or_of_lt ha, Nat.shiftLeft_eq]
  have hstep : encodeByte multiline (emitted multiline destlen l n 2) a =
      (encodeNs multiline [0, 1, 2, 3] (emitted multiline destlen l (n <<< 8 ||| a.toNat) 3) >>= fun st =>
        pure { st with nIdx := 0, n := 0 }) := by
    simp only [encodeNs, List.foldlM_cons, List.foldlM_nil, bind_assoc, pure_bind]
    rfl
  rw [hstep, hn, encodeNs_emitted h, ok_bind]
  rfl

theorem encodePad_emitted (h : (lines multiline (l ++ [0x3d])).length ≤ destlen) :
    encodePad multiline (emitted multiline destlen l n nIdx) =
      .ok (emitted multiline destlen (l ++ [0x3d]) n nIdx) := encodeChar_emitted h

theorem encodeLeftover_one
    (h : (lines multiline (l ++ (sixBits (n * 16) [2, 3] ++ [0x3d, 0x3d]))).length ≤ destlen) :
    encodeLeftover multiline (emitted multiline destlen l n 1) =
      .ok (emitted multiline destlen (l ++ (sixBits (n * 16) [2, 3] ++ [0x3d, 0x3d])) (n * 16) 1) := by
  have hsplit : l ++ (sixBits (n * 16) [2, 3] ++ [0x3d, 0x3d]) =
      l ++ sixBits (n * 16) [2, 3] ++ [0x3d] ++ [0x3d] := by
    simp only [List.append_assoc, List.cons_append, List.nil_append]
  have hshift : n <<< 4 = n * 16 := Nat.shiftLeft_eq n 4
  have hstep : encodeLeftover multiline (emitted multiline destlen l n 1) =
      (encodeNs multiline [2, 3] (emitted multiline destlen l (n <<< 4) 1) >>= fun st =>
        encodePad multiline st >>= encodePad multiline) := by
    simp only [encodeNs, List.foldlM_cons, List.foldlM_nil, bind_assoc, pure_bind]
    rfl
  rw [hsplit] at h ⊢
  rw [hstep, hshift, encodeNs_emitted (length_lines_le.trans (length_lines_le.trans h)), ok_bind,
    encodePad_emitted (length_lines_le.trans h), ok_bind, encodePad_emitted h]

theorem encodeLeftover_two
    (h : (lines multiline (l ++ (sixBits (n * 4) [1, 2, 3] ++ [0x3d]))).length ≤ destlen) :
    encodeLeftover multiline (emitted multiline destlen l n 2) =
      .ok (emitted multiline destlen (l ++ (sixBits (n * 4) [1, 2, 3] ++ [0x3d])) (n * 4) 2) := by
  have hshift : n <<< 2 = n * 4 := Nat.shiftLeft_eq n 2
  have hstep : encodeLeftover multiline (emitted multiline destlen l n 2) =
      (encodeNs multiline [1, 2, 3] (emitted multiline destlen l (n <<< 2) 2) >>= encodePad multiline) := by
    simp only [encodeNs, List.foldlM_cons, List.foldlM_nil, bind_assoc, pure_bind]
    rfl
  rw [← List.append_assoc] at h ⊢
  rw [hstep, hshift, encodeNs_emitted (length_lines_le.trans h), ok_bind, encodePad_emitted h]

/-- **The whole source**: what is written are the characters of base 64. -/
theorem encode_emitted (h : (lines multiline (l ++ Dirauth.base64Encode x)).length ≤ destlen) :
    ∃ n nIdx, (x.foldlM (encodeByte multiline) (emitted multiline destlen l 0 0) >>= encodeLeftover multiline) =
      .ok (emitted multiline destlen (l ++ Dirauth.base64Encode x) n nIdx) := by
  induction x using Dirauth.base64Encode.induct generalizing l with
  | case1 =>
    refine ⟨0, 0, ?_⟩
    rw [Dirauth.base64Encode, List.append_nil]
    rfl
  | case2 a =>
    have ha := a.toNat_lt
    have htext : Dirauth.base64Encode [a] = sixBits (a.toNat * 16) [2, 3] ++ [0x3d, 0x3d] := by
      have hfirst : a.toNat * 16 / 2 ^ ((3 - 2) * 6) % 64 = a.toNat * 16 / 64 := by omega
      have hsecond : a.toNat * 16 / 2 ^ ((3 - 3) * 6) % 64 = a.toNat * 16 % 64 := by omega
      rw [Dirauth.base64Encode, sixBits, List.map_cons, List.map_cons, hfirst, hsecond]
      rfl
    refine ⟨a.toNat * 16, 1, ?_⟩
    rw [htext] at h ⊢
    rw [List.foldlM_cons, encodeByte_emitted (by decide), ok_bind, Nat.zero_mul, Nat.zero_add]
    exact encodeLeftover_one h
  | case3 a b =>
    have ha := a.toNat_lt
    have hb := b.toNat_lt
    have htext : Dirauth.base64Encode [a, b] = sixBits ((a.toNat * 256 + b.toNat) * 4) [1, 2, 3] ++ [0x3d] := by
      have hfirst : (a.toNat * 256 + b.toNat) * 4 / 2 ^ ((3 - 1) * 6) % 64 =
          (a.toNat * 256 + b.toNat) * 4 / 4096 := by
        omega
      have hlast : (a.toNat * 256 + b.toNat) * 4 / 2 ^ ((3 - 3) * 6) % 64 =
          (a.toNat * 256 + b.toNat) * 4 % 64 := by
        omega
      rw [Dirauth.base64Encode, sixBits, List.map_cons, List.map_cons, List.map_cons, hfirst, hlast]
      rfl
    refine ⟨(a.toNat * 256 + b.toNat) * 4, 2, ?_⟩
    rw [htext] at h ⊢
    rw [List.foldlM_cons, encodeByte_emitted (by decide), ok_bind, List.foldlM_cons,
      encodeByte_emitted (by decide), ok_bind, Nat.zero_mul, Nat.zero_add]
    exact encodeLeftover_two h
  | case4 a b c rest ih =>
    have ha := a.toNat_lt
    have hb := b.toNat_lt
    have hc := c.toNat_lt
    have htext : Dirauth.base64Encode (a :: b :: c :: rest) =
        sixBits ((a.toNat * 256 + b.toNat) * 256 + c.toNat) [0, 1, 2, 3] ++ Dirauth.base64Encode rest := by
      have hfirst : ((a.toNat * 256 + b.toNat) * 256 + c.toNat) / 2 ^ ((3 - 0) * 6) % 64 =
          ((a.toNat * 256 + b.toNat) * 256 + c.toNat) / 262144 := by omega
      have hlast : ((a.toNat * 256 + b.toNat) * 256 + c.toNat) / 2 ^ ((3 - 3) * 6) % 64 =
          ((a.toNat * 256 + b.toNat) * 256 + c.toNat) % 64 := by omega
      rw [Dirauth.base64Encode, sixBits, List.map_cons, List.map_cons, List.map_cons, List.map_cons, hfirst,
        hlast]
      rfl
    rw [htext, ← List.append_assoc] at h ⊢
    obtain ⟨n, nIdx, hrest⟩ := ih h
    refine ⟨n, nIdx, ?_⟩
    rw [List.foldlM_cons, encodeByte_emitted (by decide), ok_bind, List.foldlM_cons,
      encodeByte_emitted (by decide), ok_bind, List.foldlM_cons, Nat.zero_mul, Nat.zero_add,
      encodeByte_third (length_lines_le.trans h), ok_bind]
    exact hrest

/-! ### The encoder -/

theorem length_base64Encode (x : List UInt8) : (Dirauth.base64Encode x).length = base64Len x.length := by
  induction x using Dirauth.base64Encode.induct with
  | case1 => rfl
  | case2 a => simp [Dirauth.base64Encode, base64Len, ceilDiv]
  | case3 a b => simp [Dirauth.base64Encode, base64Len, ceilDiv]
  | case4 a b c rest ih =>
    simp only [Dirauth.base64Encode, List.length_cons, ih]
    unfold base64Len ceilDiv
    omega

/-- **The size formula.** -/
theorem length_outputText (multiline : Bool) (l : List UInt8) :
    (outputText multiline l).length = l.length + if multiline then ceilDiv l.length 64 else 0 := by
  rw [outputText, List.length_append, length_lines]
  cases multiline with
  | false => simp
  | true =>
    unfold ceilDiv
    by_cases hmod : l.length % 64 = 0
    · simp [hmod]
      omega
    · simp [hmod]
      omega

theorem base64EncodeSize_eq {size : ℕ} (h : base64EncodeSize x.length multiline = .ok size) :
    size = (outputText multiline (Dirauth.base64Encode x)).length ∧ size < intMax := by
  obtain ⟨_, -, h⟩ := bind_eq_ok.mp h
  obtain ⟨_, -, h⟩ := bind_eq_ok.mp h
  obtain ⟨_, hassert, h⟩ := bind_eq_ok.mp h
  cases h
  constructor
  · rw [length_outputText, length_base64Encode]
    cases multiline <;> rfl
  · exact (of_torAssert hassert).1

theorem encodeNewline_emitted (h : (outputText multiline l).length < destlen) :
    ∃ linelen, encodeNewline multiline (emitted multiline destlen l n nIdx) =
      .ok ⟨padded destlen (outputText multiline l), (outputText multiline l).length, n, nIdx, linelen⟩ := by
  rw [encodeNewline]
  by_cases hlast : multiline = true ∧ l.length % 64 ≠ 0
  · have hout : outputText multiline l = lines multiline l ++ [0x0a] := by rw [outputText, if_pos hlast]
    have hlen : (emitted multiline destlen l n nIdx).linelen = l.length % 64 := by rw [emitted, if_pos hlast.1]
    rw [hout, List.length_append, List.length_singleton] at h ⊢
    refine ⟨l.length % 64, ?_⟩
    rw [hlen, if_pos hlast, emitted, put_eq rfl (Nat.lt_of_succ_lt h), if_pos hlast.1]
  · have hout : outputText multiline l = lines multiline l := by rw [outputText, if_neg hlast, List.append_nil]
    have hlen : ¬(multiline = true ∧ (emitted multiline destlen l n nIdx).linelen ≠ 0) := by
      rintro ⟨hm, hne⟩
      rw [emitted, if_pos hm] at hne
      exact hlast ⟨hm, hne⟩
    rw [hout, if_neg hlen]
    exact ⟨_, rfl⟩

/-- **`base64_encode`** writes the characters of base 64, as many as `base64_encode_size` says. -/
theorem base64Encode_eq {size : ℕ} (hsize : base64EncodeSize x.length multiline = .ok size)
    (hroom : size + 1 ≤ destlen) (hmax : destlen < sizeTCeiling) : base64Encode multiline destlen x =
      .ok (size, padded destlen (outputText multiline (Dirauth.base64Encode x))) := by
  obtain ⟨hlen, hint⟩ := base64EncodeSize_eq hsize
  have hfit : (outputText multiline (Dirauth.base64Encode x)).length < destlen := by omega
  have hlines : (lines multiline ([] ++ Dirauth.base64Encode x)).length ≤ destlen := by
    rw [outputText, List.length_append] at hfit
    rw [List.nil_append]
    omega
  obtain ⟨n, nIdx, hencode⟩ := encode_emitted hlines
  obtain ⟨linelen, hnewline⟩ := @encodeNewline_emitted _ _ _ n nIdx hfit
  have hstart : (⟨List.replicate destlen 0, 0, 0, 0, 0⟩ : EncodeState) = emitted multiline destlen [] 0 0 := by
    cases multiline <;> rfl
  obtain ⟨st, hloop, hleftover⟩ := bind_eq_ok.mp hencode
  rw [List.nil_append] at hleftover
  rw [base64Encode, hsize, ok_bind, if_neg (by omega), hstart, hloop, ok_bind, hleftover, ok_bind, hnewline,
    ok_bind, torAssert_of hlen.symm, ok_bind, store_padded rfl hfit, padded_append_zero hfit]
  rfl

end TorEbpf.Encoding
