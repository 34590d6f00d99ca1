import TorEbpf.Encoding.Base64Encode

/-!
# Reading base 64 back

* `base64Decode_eq` — the decoder on buffers does what the one on lists does, so it stays in its buffers;
* `decode_text` — the list of characters is decoded, with or without newlines and padding;
* `codecs` — the encodings of `binascii.c`, all of them.
-/

namespace TorEbpf.Encoding

open TorEbpf.Lib
open TorEbpf.Dirauth (base64EncodeTable base64DecodeTable base64DecodeLoop)

variable {destlen : ℕ} {src out x l : List UInt8} {n nIdx : ℕ}

/-! ### The decoder -/

def decoded (destlen : ℕ) (out : List UInt8) (n nIdx : ℕ) : DecodeState :=
  ⟨padded destlen out, out.length, n, nIdx⟩

theorem decodePut_eq {c : UInt8} {di : ℕ} (hdi : out.length = di) (h : di < destlen) :
    DecodeState.put ⟨padded destlen out, di, n, nIdx⟩ c =
      .ok ⟨padded destlen (out ++ [c]), di + 1, n, nIdx⟩ := by
  rw [DecodeState.put, store_padded hdi h, ok_bind]
  rfl

theorem and_0xff (v : ℕ) : (v &&& 0xff).toUInt8 = v.toUInt8 := by
  have hmask : v &&& 0xff = v % 256 := and_mask v 8
  rw [hmask]
  exact toUInt8_eq_of_mod (by rw [Nat.toUInt8_eq, UInt8.toNat_ofNat', Nat.mod_mod])

/-- The bytes of a list are what the loop writes. -/
def ofLoop (destlen : ℕ) : Option (ℕ × ℕ × List UInt8) → Codec DecodeState
  | none => reject ()
  | some (n, nIdx, out) => .ok (decoded destlen out n nIdx)

theorem base64DecodeTable_lt {c : UInt8} (h255 : base64DecodeTable c ≠ 255) (h64 : base64DecodeTable c ≠ 64)
    (h65 : base64DecodeTable c ≠ 65) : base64DecodeTable c < 64 := by
  unfold base64DecodeTable at h255 h64 h65 ⊢
  dsimp only at h255 h64 h65 ⊢
  split_ifs at h255 h64 h65 ⊢ <;> omega

/-- **The loop of `base64_decode`.** -/
theorem decodeLoop_eq (h : out.length ≤ destlen) : decodeLoop destlen src (decoded destlen out n nIdx) =
    ofLoop destlen (base64DecodeLoop destlen src n nIdx out) := by
  induction src generalizing n nIdx out with
  | nil => rfl
  | cons c src ih =>
    rw [decodeLoop, base64DecodeLoop]
    dsimp only
    by_cases h255 : base64DecodeTable c = 255
    · rw [if_pos h255, if_pos h255]
      rfl
    rw [if_neg h255, if_neg h255]
    by_cases h64 : base64DecodeTable c = 64
    · rw [if_pos h64, if_pos h64, ih h]
    rw [if_neg h64, if_neg h64]
    by_cases h65 : base64DecodeTable c = 65
    · rw [if_pos h65, if_pos h65]
      rfl
    rw [if_neg h65, if_neg h65]
    have hor : n <<< 6 ||| base64DecodeTable c = n * 64 + base64DecodeTable c := by
      have hlt : base64DecodeTable c < 2 ^ 6 := base64DecodeTable_lt h255 h64 h65
      rw [← Nat.shiftLeft_add_eq_or_of_lt hlt, Nat.shiftLeft_eq]
    have hstate : (decoded destlen out n nIdx).n = n ∧ (decoded destlen out n nIdx).nIdx = nIdx := ⟨rfl, rfl⟩
    rw [hstate.1, hstate.2, hor]
    by_cases h4 : nIdx + 1 = 4
    · rw [if_pos h4, if_pos h4]
      by_cases hroom : out.length + 3 ≤ destlen
      · have hcheck : ¬(destlen < 3 ∨ destlen - 3 < (decoded destlen out n nIdx).di) := by
          change ¬(destlen < 3 ∨ destlen - 3 < out.length)
          omega
        rw [if_neg hcheck, if_pos hroom, decoded, decodePut_eq rfl (by omega), ok_bind,
          decodePut_eq (by rw [List.length_append, List.length_singleton]) (by omega), ok_bind,
          decodePut_eq (by simp) (by omega), ok_bind]
        have hbytes : out ++ [((n * 64 + base64DecodeTable c) >>> 16).toUInt8] ++
            [((n * 64 + base64DecodeTable c) >>> 8 &&& 0xff).toUInt8] ++
            [((n * 64 + base64DecodeTable c) &&& 0xff).toUInt8] =
            out ++ [((n * 64 + base64DecodeTable c) / 65536).toUInt8,
              ((n * 64 + base64DecodeTable c) / 256).toUInt8,
              (n * 64 + base64DecodeTable c).toUInt8] := by
          rw [and_0xff, and_0xff, Nat.shiftRight_eq_div_pow, Nat.shiftRight_eq_div_pow, List.append_assoc,
            List.append_assoc]
          rfl
        rw [hbytes, ← ih (by rw [List.length_append]; exact hroom), decoded, List.length_append]
        rfl
      · have hcheck : destlen < 3 ∨ destlen - 3 < (decoded destlen out n nIdx).di := by
          change destlen < 3 ∨ destlen - 3 < out.length
          omega
        rw [if_pos hcheck, if_neg hroom]
        rfl
    · rw [if_neg h4, if_neg h4]
      exact ih h

def leftover (destlen : ℕ) : ℕ × ℕ × List UInt8 → Option (List UInt8)
  | (n, nIdx, out) =>
    if nIdx = 1 then none
    else if nIdx = 2 then if out.length + 1 ≤ destlen then some (out ++ [(n / 16).toUInt8]) else none
    else if nIdx = 3 then
      if out.length + 2 ≤ destlen then some (out ++ [(n / 1024).toUInt8, (n / 4).toUInt8]) else none
    else some out

theorem base64Decode_list (destlen : ℕ) (src : List UInt8) :
    Dirauth.base64Decode destlen src = (base64DecodeLoop destlen src 0 0 []).bind (leftover destlen) := by
  rw [Dirauth.base64Decode]
  cases base64DecodeLoop destlen src 0 0 [] <;> rfl

/-- **The leftover bits.** -/
theorem decodeLeftover_eq (h : out.length ≤ destlen) : decodeLeftover destlen (decoded destlen out n nIdx) =
    match leftover destlen (n, nIdx, out) with
    | none => reject ()
    | some out' => .ok (decoded destlen out' n nIdx) := by
  have hdi : (decoded destlen out n nIdx).di = out.length := rfl
  match nIdx with
  | 0 => rfl
  | 1 => rfl
  | 2 =>
    rw [leftover]
    change (if destlen < 1 ∨ destlen - 1 < out.length then reject () else
      DecodeState.put (decoded destlen out n 2) (n >>> 4).toUInt8) = _
    by_cases hroom : out.length + 1 ≤ destlen
    · rw [if_neg (by omega), if_neg (by decide), if_pos rfl, if_pos hroom, decoded, decodePut_eq rfl hroom,
        Nat.shiftRight_eq_div_pow]
      dsimp only
      rw [decoded, List.length_append]
      rfl
    · rw [if_pos (by omega), if_neg (by decide), if_pos rfl, if_neg hroom]
  | 3 =>
    rw [leftover]
    change (if destlen < 2 ∨ destlen - 2 < out.length then reject () else do
      let st ← DecodeState.put (decoded destlen out n 3) (n >>> 10).toUInt8
      st.put (n >>> 2).toUInt8) = _
    by_cases hroom : out.length + 2 ≤ destlen
    · rw [if_neg (by omega), if_neg (by decide), if_neg (by decide), if_pos rfl, if_pos hroom, decoded,
        decodePut_eq rfl (by omega), ok_bind,
        decodePut_eq (by rw [List.length_append, List.length_singleton]) hroom,
        Nat.shiftRight_eq_div_pow, Nat.shiftRight_eq_div_pow, List.append_assoc]
      dsimp only
      rw [decoded, List.length_append]
      rfl
    · rw [if_pos (by omega), if_neg (by decide), if_neg (by decide), if_pos rfl, if_neg hroom]
  | k + 4 =>
    rw [leftover, if_neg (by omega), if_neg (by omega), if_neg (by omega)]
    rfl

theorem length_loop_le {r : ℕ × ℕ × List UInt8} (h : out.length ≤ destlen)
    (hr : base64DecodeLoop destlen src n nIdx out = some r) : r.2.2.length ≤ destlen := by
  induction src generalizing n nIdx out with
  | nil =>
    cases hr
    exact h
  | cons c src ih =>
    rw [base64DecodeLoop] at hr
    dsimp only at hr
    split_ifs at hr with h255 h64 h65 h4 hroom
    · exact ih h hr
    · cases hr
      exact h
    · exact ih (by rw [List.length_append]; exact hroom) hr
    · exact ih h hr

theorem length_leftover_le {out' : List UInt8} (h : out.length ≤ destlen)
    (hr : leftover destlen (n, nIdx, out) = some out') : out'.length ≤ destlen := by
  rw [leftover] at hr
  split_ifs at hr with h1 h2 hroom h3 hroom
  · cases hr
    rwa [List.length_append]
  · cases hr
    rwa [List.length_append]
  · cases hr
    exact h

/-- **`base64_decode`** does what the decoder on lists does. -/
theorem base64Decode_eq (destlen : ℕ) (src : List UInt8) : base64Decode destlen src =
    if intMax < destlen then reject ()
    else match Dirauth.base64Decode destlen src with
      | none => reject ()
      | some out => .ok ((out.length : ℤ), padded destlen out) := by
  have hstart : (⟨List.replicate destlen 0, 0, 0, 0⟩ : DecodeState) = decoded destlen [] 0 0 := rfl
  rw [base64Decode, base64Decode_list]
  split_ifs with hint
  · rfl
  · rw [hstart, decodeLoop_eq (Nat.zero_le _)]
    cases hloop : base64DecodeLoop destlen src 0 0 [] with
    | none => rfl
    | some r =>
      obtain ⟨n, nIdx, out⟩ := r
      have hlen : out.length ≤ destlen := length_loop_le (Nat.zero_le _) hloop
      rw [Option.bind_some, ofLoop, ok_bind, decodeLeftover_eq hlen]
      cases hleft : leftover destlen (n, nIdx, out) with
      | none => rfl
      | some out' =>
        have hlen' : (decoded destlen out' n nIdx).di ≤ destlen := length_leftover_le hlen hleft
        dsimp only
        rw [ok_bind, torAssert_of hlen']
        rfl

/-- **`base64_decode` stays in its buffers** on every input. -/
theorem noFault_base64Decode (destlen : ℕ) (src : List UInt8) : NoFault (base64Decode destlen src) := by
  rw [base64Decode_eq]
  split_ifs
  · exact noFault_reject _
  · split
    · exact noFault_reject _
    · exact noFault_ok _

/-! ### The text is read back -/

theorem base64Table_spec : ∀ v < 64, base64DecodeTable (base64EncodeTable v) = v ∧ base64EncodeTable v ≠ 0 ∧
    base64EncodeTable v ≠ 0x0a ∧ base64EncodeTable v ≠ 0x3d := by
  decide +kernel

theorem loop_char {v : ℕ} (hv : v < 64) (h : nIdx + 1 ≠ 4) :
    base64DecodeLoop destlen (base64EncodeTable v :: src) n nIdx out =
      base64DecodeLoop destlen src (n * 64 + v) (nIdx + 1) out := by
  rw [base64DecodeLoop, (base64Table_spec v hv).1]
  dsimp only
  rw [if_neg (by omega), if_neg (by omega), if_neg (by omega), if_neg h]

theorem loop_last {v : ℕ} (hv : v < 64) (h : out.length + 3 ≤ destlen) :
    base64DecodeLoop destlen (base64EncodeTable v :: src) n 3 out =
      base64DecodeLoop destlen src 0 0 (out ++ [((n * 64 + v) / 65536).toUInt8, ((n * 64 + v) / 256).toUInt8,
        (n * 64 + v).toUInt8]) := by
  rw [base64DecodeLoop, (base64Table_spec v hv).1]
  dsimp only
  rw [if_neg (by omega), if_neg (by omega), if_neg (by omega), if_pos rfl, if_pos h]

/-- What follows a character matters only by how it is decoded. -/
theorem loop_cons_congr {s₁ s₂ : List UInt8} (c : UInt8) (h : ∀ n nIdx out,
      base64DecodeLoop destlen s₁ n nIdx out = base64DecodeLoop destlen s₂ n nIdx out) :
    base64DecodeLoop destlen (c :: s₁) n nIdx out = base64DecodeLoop destlen (c :: s₂) n nIdx out := by
  rw [base64DecodeLoop, base64DecodeLoop]
  simp only [h]

theorem loop_pad (l rest : List UInt8) : base64DecodeLoop destlen (l ++ 0x3d :: rest) n nIdx out =
    base64DecodeLoop destlen l n nIdx out := by
  induction l generalizing n nIdx out with
  | nil => rfl
  | cons c l ih => exact loop_cons_congr c fun _ _ _ => ih

theorem loop_breakLines (k : ℕ) (l : List UInt8) : base64DecodeLoop destlen (breakLines k l) n nIdx out =
    base64DecodeLoop destlen l n nIdx out := by
  induction l generalizing k n nIdx out with
  | nil => rfl
  | cons c l ih =>
    rw [breakLines]
    split_ifs with hk
    · exact loop_cons_congr c fun _ _ _ => ih 0
    · exact loop_cons_congr c fun _ _ _ => ih (k + 1)

theorem loop_newline (l : List UInt8) : base64DecodeLoop destlen (l ++ [0x0a]) n nIdx out =
    base64DecodeLoop destlen l n nIdx out := by
  induction l generalizing n nIdx out with
  | nil => rfl
  | cons c l ih => exact loop_cons_congr c fun _ _ _ => ih

theorem loop_outputText (multiline : Bool) (l : List UInt8) :
    base64DecodeLoop destlen (outputText multiline l) n nIdx out = base64DecodeLoop destlen l n nIdx out := by
  have hlines : base64DecodeLoop destlen (lines multiline l) n nIdx out =
      base64DecodeLoop destlen l n nIdx out := by
    unfold lines
    split_ifs
    · exact loop_breakLines 0 l
    · rfl
  rw [outputText]
  split_ifs
  · rw [loop_newline, hlines]
  · rw [List.append_nil, hlines]

/-- **The characters of base 64 are read back**; behind them there is only padding. -/
theorem exists_body (x : List UInt8) : ∃ body k, Dirauth.base64Encode x = body ++ List.replicate k 0x3d ∧
    (∀ c ∈ body, c ≠ 0 ∧ c ≠ 0x0a ∧ c ≠ 0x3d) ∧ ∀ destlen out, out.length + x.length ≤ destlen →
      (base64DecodeLoop destlen body 0 0 out).bind (leftover destlen) = some (out ++ x) := by
  have htable : ∀ v < 64, base64EncodeTable v ≠ 0 ∧ base64EncodeTable v ≠ 0x0a ∧ base64EncodeTable v ≠ 0x3d :=
    fun v hv => (base64Table_spec v hv).2
  induction x using Dirauth.base64Encode.induct with
  | case1 => exact ⟨[], 0, rfl, by simp, fun destlen out _ => by rw [List.append_nil]; rfl⟩
  | case2 a =>
    have ha := a.toNat_lt
    have h0 : a.toNat * 16 / 64 < 64 := by omega
    have h1 : a.toNat * 16 % 64 < 64 := by omega
    refine ⟨[base64EncodeTable (a.toNat * 16 / 64), base64EncodeTable (a.toNat * 16 % 64)], 2, ?_, ?_, ?_⟩
    · rw [Dirauth.base64Encode]
      rfl
    · intro c hc
      rw [List.mem_cons, List.mem_singleton] at hc
      rcases hc with rfl | rfl
      · exact htable _ h0
      · exact htable _ h1
    · intro destlen out hout
      rw [List.length_singleton] at hout
      have hbyte : ((0 * 64 + a.toNat * 16 / 64) * 64 + a.toNat * 16 % 64) / 16 % 256 = a.toNat := by omega
      rw [loop_char h0 (by decide), loop_char h1 (by decide), base64DecodeLoop, Option.bind_some, leftover,
        if_neg (by decide), if_pos rfl, if_pos hout, toUInt8_eq_of_mod hbyte]
  | case3 a b =>
    have ha := a.toNat_lt
    have hb := b.toNat_lt
    obtain ⟨n, hn⟩ : ∃ n, n = (a.toNat * 256 + b.toNat) * 4 := ⟨_, rfl⟩
    have h0 : n / 4096 < 64 := by omega
    have h1 : n / 64 % 64 < 64 := by omega
    have h2 : n % 64 < 64 := by omega
    refine ⟨[base64EncodeTable (n / 4096), base64EncodeTable (n / 64 % 64), base64EncodeTable (n % 64)], 1, ?_,
      ?_, ?_⟩
    · rw [Dirauth.base64Encode, hn]
      rfl
    · intro c hc
      rw [List.mem_cons, List.mem_cons, List.mem_singleton] at hc
      rcases hc with rfl | rfl | rfl
      · exact htable _ h0
      · exact htable _ h1
      · exact htable _ h2
    · intro destlen out hout
      change out.length + 2 ≤ destlen at hout
      have hgroup : ((0 * 64 + n / 4096) * 64 + n / 64 % 64) * 64 + n % 64 = n := by omega
      rw [loop_char h0 (by decide), loop_char h1 (by decide), loop_char h2 (by decide), hgroup,
        base64DecodeLoop, Option.bind_some, leftover, if_neg (by decide), if_neg (by decide), if_pos rfl,
        if_pos hout,
        toUInt8_eq_of_mod (show n / 1024 % 256 = a.toNat by omega),
        toUInt8_eq_of_mod (show n / 4 % 256 = b.toNat by omega)]
  | case4 a b c rest ih =>
    have ha := a.toNat_lt
    have hb := b.toNat_lt
    have hc := c.toNat_lt
    obtain ⟨body, k, htext, hbody, hread⟩ := ih
    obtain ⟨n, hn⟩ : ∃ n, n = (a.toNat * 256 + b.toNat) * 256 + c.toNat := ⟨_, rfl⟩
    have h0 : n / 262144 < 64 := by omega
    have h1 : n / 4096 % 64 < 64 := by omega
    have h2 : n / 64 % 64 < 64 := by omega
    have h3 : n % 64 < 64 := by omega
    refine ⟨base64EncodeTable (n / 262144) :: base64EncodeTable (n / 4096 % 64) ::
      base64EncodeTable (n / 64 % 64) :: base64EncodeTable (n % 64) :: body, k, ?_, ?_, ?_⟩
    · rw [Dirauth.base64Encode, htext, hn]
      rfl
    · intro d hd
      simp only [List.mem_cons] at hd
      rcases hd with rfl | rfl | rfl | rfl | hd
      · exact htable _ h0
      · exact htable _ h1
      · exact htable _ h2
      · exact htable _ h3
      · exact hbody d hd
    · intro destlen out hout
      simp only [List.length_cons] at hout
      have hgroup : (((0 * 64 + n / 262144) * 64 + n / 4096 % 64) * 64 + n / 64 % 64) * 64 + n % 64 = n := by
        omega
      rw [loop_char h0 (by decide), loop_char h1 (by decide), loop_char h2 (by decide),
        loop_last h3 (by omega), hgroup,
        toUInt8_eq_of_mod (show n / 65536 % 256 = a.toNat by omega),
        toUInt8_eq_of_mod (show n / 256 % 256 = b.toNat by omega),
        toUInt8_eq_of_mod (show n % 256 = c.toNat by omega),
        hread destlen _ (by simp only [List.length_append, List.length_cons, List.length_nil]; omega),
        List.append_assoc]
      rfl

theorem decode_encode (hroom : x.length ≤ destlen) :
    Dirauth.base64Decode destlen (Dirauth.base64Encode x) = some x := by
  obtain ⟨body, k, htext, -, hread⟩ := exists_body x
  have hpad : base64DecodeLoop destlen (Dirauth.base64Encode x) 0 0 [] =
      base64DecodeLoop destlen body 0 0 [] := by
    rw [htext]
    cases k with
    | zero => rw [List.replicate_zero, List.append_nil]
    | succ k => rw [List.replicate_succ, loop_pad]
  rw [base64Decode_list, hpad]
  exact hread destlen [] (by rwa [List.length_nil, Nat.zero_add])

/-- **The text is decoded**, in lines or not. -/
theorem base64Decode_outputText (multiline : Bool) (hroom : x.length ≤ destlen) (hint : destlen ≤ intMax) :
    base64Decode destlen (outputText multiline (Dirauth.base64Encode x)) =
      .ok ((x.length : ℤ), padded destlen x) := by
  have hlist : Dirauth.base64Decode destlen (outputText multiline (Dirauth.base64Encode x)) = some x := by
    rw [base64Decode_list, loop_outputText, ← base64Decode_list]
    exact decode_encode hroom
  rw [base64Decode_eq, if_neg (Nat.not_lt_of_le hint), hlist]

/-! ### Without padding -/

/-- What `base64_encode_nopad` keeps. -/
def keep (c : UInt8) : Bool := c ≠ 0x3d && c ≠ 0x0a

/-- **The loop of `base64_encode_nopad`** moves what it keeps to the front: `w` is kept already, and `g` is
what lies between the two pointers. -/
theorem stripLoop_eq {t : List UInt8} (ht : ∀ c ∈ t, c ≠ 0)
    (w g z : List UInt8) {left : ℕ} (hleft : t.length < left) :
    ∃ rest, stripLoop left (w ++ (g ++ (t ++ 0 :: z))) (w.length + g.length) w.length =
        .ok (((w ++ t.filter keep).length : ℤ), w ++ t.filter keep ++ 0 :: rest) ∧
      (w ++ t.filter keep ++ 0 :: rest).length = (w ++ (g ++ (t ++ 0 :: z))).length := by
  induction t generalizing w g left with
  | nil =>
    obtain ⟨left, rfl⟩ : ∃ k, left = k + 1 := ⟨left - 1, by omega⟩
    obtain ⟨b, r, hr⟩ : ∃ b r, g ++ 0 :: z = b :: r := List.exists_cons_of_ne_nil (by simp)
    have hload : (w ++ (g ++ 0 :: z))[w.length + g.length]? = some 0 := by
      rw [List.getElem?_append_right (by omega), List.getElem?_append_right (by omega)]
      simp
    have hset : (w ++ (g ++ 0 :: z)).set w.length 0 = w ++ 0 :: r := by
      rw [List.set_append_right _ _ le_rfl, Nat.sub_self, hr, List.set_cons_zero]
    refine ⟨r, ?_, ?_⟩
    · rw [List.nil_append, stripLoop, load_eq hload, ok_bind, if_pos rfl,
        store_of_lt (by rw [List.length_append, hr, List.length_cons]; omega), ok_bind, hset, List.filter_nil,
        List.append_nil]
      rfl
    · rw [List.filter_nil, List.append_nil, List.nil_append, hr, List.length_append, List.length_append,
        List.length_cons, List.length_cons]
  | cons c t ih =>
    obtain ⟨left, rfl⟩ : ∃ k, left = k + 1 := ⟨left - 1, by omega⟩
    have hlt : t.length < left := by
      rw [List.length_cons] at hleft
      omega
    have hc : c ≠ 0 := ht c List.mem_cons_self
    have ht' : ∀ d ∈ t, d ≠ 0 := fun d hd => ht d (List.mem_cons_of_mem c hd)
    have hload : (w ++ (g ++ (c :: t ++ 0 :: z)))[w.length + g.length]? = some c := by
      rw [List.getElem?_append_right (by omega), List.getElem?_append_right (by omega)]
      simp
    rw [stripLoop, load_eq hload, ok_bind, if_neg hc]
    by_cases hpad : c = 0x3d ∨ c = 0x0a
    · -- the pointer to what is read moves on
      have hkeep : keep c = false := by
        rcases hpad with rfl | rfl <;> rfl
      have hnext := ih ht' w (g ++ [c]) hlt
      rw [if_pos hpad, List.filter_cons_of_neg (by rw [hkeep]; simp)]
      rw [List.length_append, List.length_singleton, List.append_assoc] at hnext
      exact hnext
    · -- the character is written behind what is kept
      have hkeep : keep c = true := by
        rw [not_or] at hpad
        simp [keep, hpad]
      obtain ⟨b, r, hr⟩ : ∃ b r, g ++ [c] = b :: r := List.exists_cons_of_ne_nil (by simp)
      have hlen : g.length = r.length := by
        have := congrArg List.length hr
        rwa [List.length_append, List.length_singleton, List.length_cons, Nat.add_right_cancel_iff] at this
      have hsplit : g ++ (c :: t ++ 0 :: z) = b :: (r ++ (t ++ 0 :: z)) := by
        rw [← List.cons_append, ← hr, List.append_assoc]
        rfl
      have hset : (w ++ (g ++ (c :: t ++ 0 :: z))).set w.length c = w ++ [c] ++ (r ++ (t ++ 0 :: z)) := by
        rw [List.set_append_right _ _ le_rfl, Nat.sub_self, hsplit, List.set_cons_zero, List.append_assoc]
        rfl
      have hnext := ih ht' (w ++ [c]) r hlt
      have hinp : (w ++ [c]).length + r.length = w.length + g.length + 1 := by
        rw [List.length_append, List.length_singleton, hlen]
        omega
      have hout : (w ++ [c]).length = w.length + 1 := by rw [List.length_append, List.length_singleton]
      have htotal : (w ++ (g ++ (c :: t ++ 0 :: z))).length = (w ++ [c] ++ (r ++ (t ++ 0 :: z))).length := by
        rw [← hset, List.length_set]
      rw [hinp, hout] at hnext
      rw [if_neg hpad, store_of_lt (by rw [htotal, List.length_append, hout]; omega), ok_bind, hset, htotal,
        List.filter_cons_of_pos hkeep, List.append_cons w c (t.filter keep)]
      exact hnext

theorem filter_keep_base64 (x : List UInt8) : ∃ body, (Dirauth.base64Encode x).filter keep = body ∧
    (∀ c ∈ body, c ≠ 0) ∧ body.length ≤ (Dirauth.base64Encode x).length ∧ ∀ destlen, x.length ≤ destlen →
      Dirauth.base64Decode destlen body = some x := by
  obtain ⟨body, k, htext, hbody, hread⟩ := exists_body x
  have hkept : body.filter keep = body := List.filter_eq_self.mpr fun c hc => by
    have := hbody c hc
    simp [keep, this]
  have hpads : (List.replicate k (0x3d : UInt8)).filter keep = [] :=
    List.filter_eq_nil_iff.mpr fun c hc => by
      rw [List.eq_of_mem_replicate hc]
      decide
  refine ⟨body, ?_, fun c hc => (hbody c hc).1, ?_, fun destlen hroom => ?_⟩
  · rw [htext, List.filter_append, hkept, hpads, List.append_nil]
  · rw [htext, List.length_append]
    exact Nat.le_add_right _ _
  · rw [base64Decode_list]
    exact hread destlen [] (by rwa [List.length_nil, Nat.zero_add])

theorem ne_zero_of_mem_base64 {c : UInt8} (h : c ∈ Dirauth.base64Encode x) : c ≠ 0 := by
  obtain ⟨body, k, htext, hbody, -⟩ := exists_body x
  rw [htext, List.mem_append] at h
  rcases h with h | h
  · exact (hbody c h).1
  · rw [List.eq_of_mem_replicate h]
    decide

theorem mem_breakLines {c : UInt8} {k : ℕ} (h : c ∈ breakLines k l) : c ∈ l ∨ c = 0x0a := by
  induction l generalizing k with
  | nil => cases h
  | cons b l ih =>
    rw [breakLines] at h
    split_ifs at h
    · simp only [List.mem_cons] at h ⊢
      rcases h with h | h | h
      · exact Or.inl (Or.inl h)
      · exact Or.inr h
      · exact (ih h).imp_left Or.inr
    · simp only [List.mem_cons] at h ⊢
      rcases h with h | h
      · exact Or.inl (Or.inl h)
      · exact (ih h).imp_left Or.inr

theorem ne_zero_of_mem_outputText {multiline : Bool} {c : UInt8}
    (h : c ∈ outputText multiline (Dirauth.base64Encode x)) : c ≠ 0 := by
  have hlines : ∀ c ∈ lines multiline (Dirauth.base64Encode x), c ≠ 0 := by
    intro c hc
    unfold lines at hc
    split_ifs at hc
    · rcases mem_breakLines hc with hc | rfl
      · exact ne_zero_of_mem_base64 hc
      · decide
    · exact ne_zero_of_mem_base64 hc
  rw [outputText, List.mem_append] at h
  rcases h with h | h
  · exact hlines c h
  · split_ifs at h
    · rw [List.mem_singleton.mp h]
      decide
    · cases h

/-! ### The round trips -/

/-- **Base 64**, in lines or not: what is encoded is decoded. -/
theorem base64_roundTrips {multiline : Bool} {size : ℕ}
    (hsize : base64EncodeSize x.length multiline = .ok size) :
    RoundTrips (fun destlen => (·.2) <$> base64Encode multiline destlen x) base64Decode (size + 1) x := by
  intro destlen hroom hmax
  obtain ⟨hlen, -⟩ := base64EncodeSize_eq hsize
  have hfit : (outputText multiline (Dirauth.base64Encode x)).length < destlen := by omega
  refine ⟨padded destlen (outputText multiline (Dirauth.base64Encode x)), ?_, length_padded hfit.le,
    fun destlen' hroom' hmax' => ?_⟩
  · dsimp only
    rw [base64Encode_eq hsize hroom hmax]
    rfl
  · rw [cText_padded (fun c => ne_zero_of_mem_outputText) hfit]
    exact base64Decode_outputText multiline hroom' hmax'

/-- **`base64_encode_nopad`** leaves out the padding. -/
theorem base64EncodeNopad_eq {size : ℕ} (hsize : base64EncodeSize x.length false = .ok size)
    (hroom : size + 1 ≤ destlen) (hmax : destlen < sizeTCeiling) : ∃ buf, base64EncodeNopad destlen x =
      .ok ((((Dirauth.base64Encode x).filter keep).length : ℤ), buf) ∧ buf.length = destlen ∧
        cText buf = (Dirauth.base64Encode x).filter keep := by
  obtain ⟨hlen, hint⟩ := base64EncodeSize_eq hsize
  obtain ⟨body, hkeep, hzero, hshort, -⟩ := filter_keep_base64 x
  have htext : outputText false (Dirauth.base64Encode x) = Dirauth.base64Encode x := by
    rw [outputText, if_neg (by simp), List.append_nil]
    rfl
  have hencode := base64Encode_eq hsize hroom hmax
  rw [htext] at hlen hencode
  rw [base64EncodeNopad, hencode, ok_bind]
  dsimp only
  by_cases hempty : (size : ℤ) ≤ 0
  · have hnil : Dirauth.base64Encode x = [] := List.length_eq_zero_iff.mp (by omega)
    have hsize0 : (size : ℤ) = 0 := by omega
    refine ⟨padded destlen [], ?_, length_padded (Nat.zero_le _), ?_⟩
    · rw [if_pos hempty, hnil, hsize0]
      rfl
    · rw [hnil]
      exact cText_padded (by simp) (by rw [List.length_nil]; omega)
  · -- behind the text there is a zero, where the loop stops
    obtain ⟨z, hz⟩ : ∃ z, padded destlen (Dirauth.base64Encode x) = Dirauth.base64Encode x ++ 0 :: z := by
      obtain ⟨k, hk⟩ : ∃ k, destlen - (Dirauth.base64Encode x).length = k + 1 := ⟨destlen - size - 1, by omega⟩
      exact ⟨List.replicate k 0, by rw [padded, hk, List.replicate_succ]⟩
    have hload : (padded destlen (Dirauth.base64Encode x))[(size : ℤ).toNat]? = some 0 := by
      rw [hz, Int.toNat_natCast, hlen, List.getElem?_append_right le_rfl, Nat.sub_self]
      rfl
    obtain ⟨rest, hstrip, htotal⟩ := stripLoop_eq (t := Dirauth.base64Encode x) (fun c => ne_zero_of_mem_base64)
      [] [] z (show (Dirauth.base64Encode x).length < destlen by omega)
    rw [List.nil_append, List.nil_append, ← hz, List.nil_append] at hstrip htotal
    have hmaxlen : (((Dirauth.base64Encode x).filter keep).length : ℤ) ≤ intMax := by
      rw [hkeep]
      omega
    refine ⟨(Dirauth.base64Encode x).filter keep ++ 0 :: rest, ?_, ?_, ?_⟩
    · rw [if_neg hempty, torAssert_of (by omega), ok_bind, load_eq hload, ok_bind, torAssert_of rfl, ok_bind]
      change (stripLoop destlen (padded destlen (Dirauth.base64Encode x)) 0 0 >>= fun r => _) = _
      change stripLoop destlen (padded destlen (Dirauth.base64Encode x)) 0 0 = _ at hstrip
      rw [hstrip, ok_bind]
      dsimp only
      rw [torAssert_of hmaxlen]
      rfl
    · rw [htotal, length_padded (by omega)]
    · rw [hkeep]
      exact cText_append_zero hzero rest

/-- **Base 64 without padding**: what is encoded is decoded. -/
theorem base64Nopad_roundTrips {size : ℕ} (hsize : base64EncodeSize x.length false = .ok size) :
    RoundTrips (fun destlen => (·.2) <$> base64EncodeNopad destlen x) base64Decode (size + 1) x := by
  intro destlen hroom hmax
  obtain ⟨buf, hbuf, hlen, htext⟩ := base64EncodeNopad_eq hsize hroom hmax
  obtain ⟨body, hkeep, -, -, hread⟩ := filter_keep_base64 x
  refine ⟨buf, ?_, hlen, fun destlen' hroom' hmax' => ?_⟩
  · dsimp only
    rw [hbuf]
    rfl
  · rw [htext, hkeep, base64Decode_eq, if_neg (Nat.not_lt_of_le hmax'), hread destlen' hroom']

/-! ### All of them -/

/-- **The codecs of `binascii.c`.**  Every encoding is read back from buffers with room for it and for the zero
behind it; base 64 has as many characters as its size formula says; `base16_decode` and `base64_decode` stay in
their buffers on every input, and `base32_decode` does unless one of the assertions on its sizes fails. -/
theorem codecs (x : List UInt8) :
    (x.length < sizeTCeiling / 2 - 1 → RoundTrips (base16Encode · x) base16Decode (base16Bufsize x.length) x) ∧
      (∀ size, base32EncodedSize x.length = .ok size → RoundTrips (base32Encode · x) base32Decode size x) ∧
      (∀ multiline size, base64EncodeSize x.length multiline = .ok size →
        RoundTrips (fun destlen => (·.2) <$> base64Encode multiline destlen x) base64Decode (size + 1) x ∧
          ∀ destlen, size + 1 ≤ destlen → destlen < sizeTCeiling → ∃ buf,
            base64Encode multiline destlen x = .ok ((size : ℤ), buf) ∧ (cText buf).length = size) ∧
      (∀ size, base64EncodeSize x.length false = .ok size →
        RoundTrips (fun destlen => (·.2) <$> base64EncodeNopad destlen x) base64Decode (size + 1) x) ∧
      ∀ destlen src, NoFault (base16Decode destlen src) ∧ NoFault (base64Decode destlen src) ∧
        (NoFault (base32Decode destlen src) ↔
          src.length < sizeTCeiling / 5 ∧ src.length * 5 / 8 ≤ destlen ∧ destlen < sizeTCeiling) := by
  refine ⟨base16_roundTrips, fun size => base32_roundTrips,
    fun multiline size hsize => ⟨base64_roundTrips hsize, ?_⟩,
    fun size => base64Nopad_roundTrips, fun destlen src => ⟨noFault_base16Decode destlen src,
      noFault_base64Decode destlen src, noFault_base32Decode destlen src⟩⟩
  intro destlen hroom hmax
  obtain ⟨hlen, -⟩ := base64EncodeSize_eq hsize
  refine ⟨_, base64Encode_eq hsize hroom hmax, ?_⟩
  rw [cText_padded (fun c => ne_zero_of_mem_outputText) (by omega), hlen]

/-- Two bytes in all encodings. -/
theorem codecs_two : RoundTrips (base16Encode · [0x66, 0x6f]) base16Decode 5 [0x66, 0x6f] ∧
    RoundTrips (base32Encode · [0x66, 0x6f]) base32Decode 5 [0x66, 0x6f] ∧
    RoundTrips (fun destlen => (·.2) <$> base64Encode true destlen [0x66, 0x6f]) base64Decode 6 [0x66, 0x6f] ∧
    RoundTrips (fun destlen => (·.2) <$> base64EncodeNopad destlen [0x66, 0x6f]) base64Decode 5 [0x66, 0x6f] :=
  ⟨(codecs [0x66, 0x6f]).1 (by decide), (codecs [0x66, 0x6f]).2.1 5 (by decide +kernel),
    ((codecs [0x66, 0x6f]).2.2.1 true 5 (by decide +kernel)).1,
    (codecs [0x66, 0x6f]).2.2.2.1 4 (by decide +kernel)⟩

/-- `base32_decode` does not reject a destination that is too small, and `base64_encode_nopad` rejects one of
`base64_encode_size` bytes. -/
theorem not_codecs : base32Decode 0 [0x61, 0x61] = fault .assertion ∧ base64EncodeSize 3 false = .ok 4 ∧
    base64EncodeNopad 4 [0x66, 0x6f, 0x6f] = reject () := by
  decide +kernel

end TorEbpf.Encoding
