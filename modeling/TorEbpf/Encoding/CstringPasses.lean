import TorEbpf.Encoding.Cstring

/-!
# The two passes of `unescape_string`

A quoted string is made of pieces: plain characters and escapes.  Both passes go from piece to piece, so they
stop at the same quote, and the second one writes a byte for each piece.

* `findQuote_pieces`, `unescapeLoop_pieces` — the passes on a string of pieces;
* `quoted_of_findQuote` — what the first pass accepts is such a string;
* `unescapeString_passes` — the passes agree.
-/

namespace TorEbpf.Encoding

open TorEbpf.Lib TorEbpf.Strings

/-- What a quoted string is made of. -/
inductive Piece where
  | plain (c : UInt8)
  | escape (e : UInt8)
  | hex (x h1 h2 : UInt8)
  | octal (ds : List UInt8)

/-- The byte that a simple escape stands for. -/
def simpleValue (e : UInt8) : UInt8 :=
  if e = 0x6e then 0x0a else if e = 0x72 then 0x0d else if e = 0x74 then 0x09 else e

/-- The number that octal digits stand for. -/
def octalValue (ds : List UInt8) : ℕ := ds.foldl (fun n d => n * 8 + (d.toNat - 0x30)) 0

namespace Piece

def text : Piece → List UInt8
  | plain c => [c]
  | escape e => [0x5c, e]
  | hex x h1 h2 => [0x5c, x, h1, h2]
  | octal ds => 0x5c :: ds

def value : Piece → ℕ
  | plain c => c.toNat
  | escape e => (simpleValue e).toNat
  | hex _ h1 h2 => (hexDecodeDigit h1).getD 0 * 16 + (hexDecodeDigit h2).getD 0
  | octal ds => octalValue ds

def Valid : Piece → Prop
  | plain c => c ≠ 0 ∧ c ≠ 0x0a ∧ c ≠ 0x22 ∧ c ≠ 0x5c
  | escape e => isSimpleEscape e = true
  | hex x h1 h2 => (x = 0x78 ∨ x = 0x58) ∧ torIsXDigit h1 = true ∧ torIsXDigit h2 = true
  | octal ds => (∀ d ∈ ds, isODigit d = true) ∧ 1 ≤ ds.length ∧ ds.length ≤ 3

/-- The piece ends where it seems to: no digit follows one or two octal digits. -/
def Delimited (t : List UInt8) : Piece → Prop
  | octal ds => ds.length < 3 → ∀ c ∈ t.head?, isODigit c = false
  | _ => True

end Piece

/-- A text made of pieces, up to a rest. -/
def WellFormed : List Piece → List UInt8 → Prop
  | [], _ => True
  | p :: ps, rest => p.Valid ∧ p.Delimited (ps.flatMap Piece.text ++ rest) ∧ WellFormed ps rest

variable {p : Piece} {ps : List Piece} {t rest : List UInt8} {c d : UInt8} {o : Out}

/-! ### Octal digits -/

theorem ne_of_isODigit (hc : isODigit c = true) (hd : isODigit d = false) : c ≠ d := by
  rintro rfl
  rw [hc] at hd
  cases hd

theorem skipODigit_cons (h : isODigit c = true) : skipODigit (c :: t) = t := if_pos h

theorem skipODigit_of_head (h : ∀ c ∈ t.head?, isODigit c = false) : skipODigit t = t := by
  cases t with
  | nil => rfl
  | cons c t => rw [skipODigit, if_neg (by rw [h c rfl]; simp)]

theorem readODigit_cons {n : ℕ} (h : isODigit c = true) :
    readODigit n (c :: t) = (n * 8 + (c.toNat - 0x30), t) := if_pos h

theorem readODigit_of_head {n : ℕ} (h : ∀ c ∈ t.head?, isODigit c = false) : readODigit n t = (n, t) := by
  cases t with
  | nil => rfl
  | cons c t => rw [readODigit, if_neg (by rw [h c rfl]; simp)]

theorem readODigits {ds : List UInt8} {n : ℕ} (hds : ∀ d ∈ ds, isODigit d = true) (hlen : ds.length ≤ 2)
    (ht : ds.length < 2 → ∀ c ∈ t.head?, isODigit c = false) :
    readODigit (readODigit n (ds ++ t)).1 (readODigit n (ds ++ t)).2 =
      (ds.foldl (fun n d => n * 8 + (d.toNat - 0x30)) n, t) := by
  match ds, hds, hlen, ht with
  | [], _, _, ht =>
    have hhead := ht (by decide)
    rw [List.nil_append, readODigit_of_head hhead, readODigit_of_head hhead]
    rfl
  | [d], hds, _, ht =>
    have hhead := ht (Nat.lt_succ_self 1)
    have hd := hds d List.mem_cons_self
    rw [List.cons_append, readODigit_cons hd, List.nil_append, readODigit_of_head hhead]
    rfl
  | [d, e], hds, _, _ =>
    have hd := hds d List.mem_cons_self
    have he := hds e (List.mem_cons_of_mem d List.mem_cons_self)
    rw [List.cons_append, readODigit_cons hd, List.cons_append, readODigit_cons he]
    rfl

theorem skipODigits {ds : List UInt8} (hds : ∀ d ∈ ds, isODigit d = true) (hlen : ds.length ≤ 2)
    (ht : ds.length < 2 → ∀ c ∈ t.head?, isODigit c = false) : skipODigit (skipODigit (ds ++ t)) = t := by
  have hread := congrArg Prod.snd (readODigits (n := 0) hds hlen ht)
  rwa [readODigit_snd, readODigit_snd] at hread

/-! ### Piece by piece -/

/-- **The first pass** goes on behind a piece. -/
theorem findQuote_piece (hp : p.Valid) (hd : p.Delimited t) : findQuote (p.text ++ t) = findQuote t := by
  cases p with
  | plain c =>
    obtain ⟨h0, hnl, hquote, hslash⟩ := hp
    rw [Piece.text, List.cons_append, findQuote.eq_def]
    dsimp only
    rw [if_neg (by simp [h0, hnl]), if_neg hquote, if_neg hslash]
    rfl
  | escape e =>
    have hcases : e = 0x6e ∨ e = 0x72 ∨ e = 0x74 ∨ e = 0x22 ∨ e = 0x5c ∨ e = 0x27 := by
      simpa [Piece.Valid, isSimpleEscape, or_assoc] using hp
    have hx : ¬(e = 0x78 ∨ e = 0x58) := by rcases hcases with rfl | rfl | rfl | rfl | rfl | rfl <;> decide
    have ho : ¬isODigit e = true := by rcases hcases with rfl | rfl | rfl | rfl | rfl | rfl <;> decide
    change findQuote (0x5c :: e :: t) = _
    rw [findQuote.eq_def]
    dsimp only
    rw [if_neg (by decide), if_neg (by decide), if_pos rfl]
    rw [if_neg hx, if_neg ho]
    exact if_pos hp
  | hex x h1 h2 =>
    obtain ⟨hx, hh1, hh2⟩ := hp
    change findQuote (0x5c :: x :: h1 :: h2 :: t) = _
    rw [findQuote.eq_def]
    dsimp only
    rw [if_neg (by decide), if_neg (by decide), if_pos rfl]
    rw [if_pos hx, hh1, hh2]
    rfl
  | octal ds =>
    obtain ⟨hds, hpos, hlen⟩ := hp
    obtain ⟨e, ds, rfl⟩ := List.exists_cons_of_ne_nil (List.length_pos_iff.mp hpos)
    have he := hds e List.mem_cons_self
    have hskip : skipODigit (skipODigit (ds ++ t)) = t :=
      skipODigits (fun d hd => hds d (List.mem_cons_of_mem e hd)) (Nat.le_of_succ_le_succ hlen)
        fun hlt => hd (Nat.succ_lt_succ hlt)
    have hx : ¬(e = 0x78 ∨ e = 0x58) := not_or.mpr ⟨ne_of_isODigit he rfl, ne_of_isODigit he rfl⟩
    change findQuote (0x5c :: e :: (ds ++ t)) = _
    rw [findQuote.eq_def]
    dsimp only
    rw [if_neg (by decide), if_neg (by decide), if_pos rfl]
    rw [if_neg hx, if_pos he, hskip]

/-- **The second pass** decodes a piece and goes on behind it. -/
theorem unescapeLoop_piece (hp : p.Valid) (hd : p.Delimited t) : unescapeLoop (p.text ++ t) o =
    if p.value ≤ 255 then o.put p.value.toUInt8 >>= unescapeLoop t else reject () := by
  cases p with
  | plain c =>
    obtain ⟨h0, hnl, hquote, hslash⟩ := hp
    have hle : c.toNat ≤ 255 := Nat.le_of_lt_succ c.toNat_lt
    rw [Piece.text, List.cons_append, unescapeLoop.eq_def]
    dsimp only
    rw [if_neg hquote, if_neg h0, if_neg hslash, Piece.value, if_pos hle, Nat.toUInt8_eq, UInt8.ofNat_toNat]
    rfl
  | escape e =>
    have hcases : e = 0x6e ∨ e = 0x72 ∨ e = 0x74 ∨ e = 0x22 ∨ e = 0x5c ∨ e = 0x27 := by
      simpa [Piece.Valid, isSimpleEscape, or_assoc] using hp
    change unescapeLoop (0x5c :: e :: t) o = _
    rw [unescapeLoop.eq_def]
    dsimp only
    rw [if_neg (by decide), if_neg (by decide), if_pos rfl]
    rcases hcases with rfl | rfl | rfl | rfl | rfl | rfl <;> rfl
  | hex x h1 h2 =>
    obtain ⟨hx, hh1, hh2⟩ := hp
    obtain ⟨x1, hx1⟩ := Option.isSome_iff_exists.mp hh1
    obtain ⟨x2, hx2⟩ := Option.isSome_iff_exists.mp hh2
    have hlt1 := hexDecodeDigit_lt hx1
    have hlt2 := hexDecodeDigit_lt hx2
    have hle : x1 * 16 + x2 ≤ 255 := by omega
    change unescapeLoop (0x5c :: x :: h1 :: h2 :: t) o = _
    rw [unescapeLoop.eq_def]
    dsimp only
    rw [if_neg (by decide), if_neg (by decide), if_pos rfl]
    rw [Piece.value, hx1, hx2, Option.getD_some, Option.getD_some, if_pos hle]
    rcases hx with rfl | rfl
    · simp [Nat.shiftLeft_eq]
    · simp [Nat.shiftLeft_eq]
  | octal ds =>
    obtain ⟨hds, hpos, hlen⟩ := hp
    obtain ⟨e, ds, rfl⟩ := List.exists_cons_of_ne_nil (List.length_pos_iff.mp hpos)
    have he := hds e List.mem_cons_self
    have hread := readODigits (n := e.toNat - 0x30) (fun d hd => hds d (List.mem_cons_of_mem e hd))
      (Nat.le_of_succ_le_succ hlen) fun hlt => hd (Nat.succ_lt_succ hlt)
    have hvalue : ds.foldl (fun n d => n * 8 + (d.toNat - 0x30)) (e.toNat - 0x30) = octalValue (e :: ds) := by
      rw [octalValue, List.foldl_cons, Nat.zero_mul, Nat.zero_add]
    have hx : ¬(e = 0x78 ∨ e = 0x58) := not_or.mpr ⟨ne_of_isODigit he rfl, ne_of_isODigit he rfl⟩
    change unescapeLoop (0x5c :: e :: (ds ++ t)) o = _
    rw [unescapeLoop.eq_def]
    dsimp only
    rw [if_neg (by decide), if_neg (by decide), if_pos rfl]
    rw [if_neg (ne_of_isODigit he rfl), if_neg (ne_of_isODigit he rfl), if_neg (ne_of_isODigit he rfl),
      if_neg hx, if_pos he, hread, hvalue, Piece.value]
    by_cases hle : octalValue (e :: ds) ≤ 255
    · rw [if_neg (Nat.not_lt_of_le hle), if_pos hle]
    · rw [if_pos (Nat.lt_of_not_le hle), if_neg hle]

/-! ### All pieces -/

/-- **The first pass** goes through all pieces. -/
theorem findQuote_pieces (h : WellFormed ps rest) :
    findQuote (ps.flatMap Piece.text ++ rest) = findQuote rest := by
  induction ps with
  | nil => rfl
  | cons p ps ih =>
    obtain ⟨hp, hd, hps⟩ := h
    rw [List.flatMap_cons, List.append_assoc, findQuote_piece hp hd, ih hps]

def bytes (ps : List Piece) : List UInt8 := ps.map fun p => p.value.toUInt8

/-- What `unescape_string` has written. -/
def written (n : ℕ) (l : List UInt8) : Out := ⟨padded n l, l.length⟩

theorem Out.put_written {n : ℕ} {l : List UInt8} (h : l.length < n) :
    (written n l).put c = .ok (written n (l ++ [c])) := by
  rw [written, Out.put, store_padded rfl h, ok_bind, written, List.length_append]
  rfl

/-- **The second pass** decodes all pieces, or rejects one that stands for no byte. -/
theorem unescapeLoop_pieces {n : ℕ} {l after : List UInt8} (h : WellFormed ps (0x22 :: after))
    (hroom : l.length + ps.length < n) :
    unescapeLoop (ps.flatMap Piece.text ++ 0x22 :: after) (written n l) =
      if ∀ p ∈ ps, p.value ≤ 255 then .ok (written n (l ++ bytes ps), after) else reject () := by
  induction ps generalizing l with
  | nil =>
    rw [List.length_nil, Nat.add_zero] at hroom
    have hstore : (store (written n l).buf (written n l).out 0 : Checked Unit Access (List UInt8)) =
        .ok (padded n l) := by
      rw [written, store_padded rfl hroom, padded_append_zero hroom]
    rw [List.flatMap_nil, List.nil_append, unescapeLoop.eq_def]
    dsimp only
    rw [if_pos rfl, hstore, ok_bind, if_pos (by simp), bytes,
      List.map_nil, List.append_nil]
    rfl
  | cons p ps ih =>
    obtain ⟨hp, hd, hps⟩ := h
    rw [List.length_cons] at hroom
    rw [List.flatMap_cons, List.append_assoc, unescapeLoop_piece hp hd]
    by_cases hle : p.value ≤ 255
    · have hlen : (l ++ [p.value.toUInt8]).length + ps.length < n := by
        rw [List.length_append, List.length_singleton]
        omega
      have hbytes : l ++ bytes (p :: ps) = l ++ [p.value.toUInt8] ++ bytes ps := List.append_cons l _ _
      rw [if_pos hle, Out.put_written (by omega), ok_bind, ih hps hlen, hbytes]
      simp only [List.forall_mem_cons, hle, true_and]
    · rw [if_neg hle, if_neg fun hall => hle (hall p List.mem_cons_self)]

theorem digit_or_head (t : List UInt8) :
    (∀ c ∈ t.head?, isODigit c = false) ∨ ∃ d t', t = d :: t' ∧ isODigit d = true := by
  cases t with
  | nil => exact Or.inl (by rintro _ ⟨⟩)
  | cons d t =>
    cases hd : isODigit d with
    | true => exact Or.inr ⟨d, t, rfl, hd⟩
    | false =>
      refine Or.inl ?_
      rintro _ ⟨⟩
      exact hd

theorem exists_octal {e : UInt8} (he : isODigit e = true) (t : List UInt8) :
    ∃ ds, (Piece.octal (e :: ds)).Valid ∧ t = ds ++ skipODigit (skipODigit t) ∧
      (Piece.octal (e :: ds)).Delimited (skipODigit (skipODigit t)) := by
  have hvalid : ∀ ds : List UInt8, (∀ d ∈ ds, isODigit d = true) → ds.length ≤ 2 →
      (Piece.octal (e :: ds)).Valid := by
    intro ds hds hlen
    refine ⟨fun d hd => ?_, Nat.succ_pos _, Nat.succ_le_succ hlen⟩
    rcases List.mem_cons.mp hd with rfl | hd
    · exact he
    · exact hds d hd
  rcases digit_or_head t with hhead | ⟨d, t, rfl, hd⟩
  · rw [skipODigit_of_head hhead, skipODigit_of_head hhead]
    exact ⟨[], hvalid [] (by simp) (by decide), rfl, fun _ => hhead⟩
  rw [skipODigit_cons hd]
  rcases digit_or_head t with hhead | ⟨d', t, rfl, hd'⟩
  · rw [skipODigit_of_head hhead]
    exact ⟨[d], hvalid [d] (by simpa using hd) (Nat.le_succ 1), rfl, fun _ => hhead⟩
  · rw [skipODigit_cons hd']
    exact ⟨[d, d'], hvalid [d, d'] (by simp [hd, hd']) le_rfl, rfl, fun hlt => absurd hlt (lt_irrefl 3)⟩

/-- The text is made of pieces, up to the closing quote. -/
def Quoted (t quote : List UInt8) : Prop :=
  ∃ ps after, quote = 0x22 :: after ∧ WellFormed ps quote ∧ t = ps.flatMap Piece.text ++ quote

theorem Quoted.cons {quote : List UInt8} (hp : p.Valid) (hd : p.Delimited t) :
    Quoted t quote → Quoted (p.text ++ t) quote := by
  rintro ⟨ps, after, hquote, hps, rfl⟩
  exact ⟨p :: ps, after, hquote, ⟨hp, hd, hps⟩, by rw [List.flatMap_cons, List.append_assoc]⟩

/-- **What the first pass accepts** is a quoted string. -/
theorem quoted_of_findQuote {quote : List UInt8} (h : findQuote t = some quote) : Quoted t quote := by
  induction t using findQuote.induct with
  | case1 =>
    rw [findQuote] at h
    cases h
  | case2 c t hend =>
    rw [findQuote.eq_def] at h
    dsimp only at h
    rw [if_pos hend] at h
    cases h
  | case3 t hend =>
    rw [findQuote.eq_def] at h
    dsimp only at h
    rw [if_neg hend, if_pos rfl] at h
    cases h
    exact ⟨[], t, rfl, trivial, rfl⟩
  | case4 hend hquote =>
    rw [findQuote.eq_def] at h
    cases h
  | case5 x hx h1 h2 t hdigits hend hquote ih =>
    rw [findQuote.eq_def] at h
    dsimp only at h
    rw [if_neg hend, if_neg hquote, if_pos rfl, if_pos hx, if_pos hdigits] at h
    have hdigits' : torIsXDigit h1 = true ∧ torIsXDigit h2 = true := by simpa using hdigits
    exact Quoted.cons (p := .hex x h1 h2) ⟨hx, hdigits'⟩ trivial (ih h)
  | case6 x hx h1 h2 t hdigits hend hquote =>
    rw [findQuote.eq_def] at h
    dsimp only at h
    rw [if_neg hend, if_neg hquote, if_pos rfl, if_pos hx, if_neg hdigits] at h
    cases h
  | case7 x t hx hshort hend hquote =>
    rw [findQuote.eq_def] at h
    dsimp only at h
    rw [if_neg hend, if_neg hquote, if_pos rfl, if_pos hx] at h
    split at h
    · exact (hshort _ _ _ rfl).elim
    · cases h
  | case8 e t hx he hend hquote ih =>
    rw [findQuote.eq_def] at h
    dsimp only at h
    rw [if_neg hend, if_neg hquote, if_pos rfl, if_neg hx, if_pos he] at h
    obtain ⟨ds, hvalid, ht, hd⟩ := exists_octal he t
    rw [ht]
    exact Quoted.cons hvalid hd (ih h)
  | case9 e t hx he hsimple hend hquote ih =>
    rw [findQuote.eq_def] at h
    dsimp only at h
    rw [if_neg hend, if_neg hquote, if_pos rfl, if_neg hx, if_neg he, if_pos hsimple] at h
    exact Quoted.cons (p := .escape e) hsimple trivial (ih h)
  | case10 e t hx he hsimple hend hquote =>
    rw [findQuote.eq_def] at h
    dsimp only at h
    rw [if_neg hend, if_neg hquote, if_pos rfl, if_neg hx, if_neg he, if_neg hsimple] at h
    cases h
  | case11 c t hend hquote hslash ih =>
    rw [findQuote.eq_def] at h
    dsimp only at h
    rw [if_neg hend, if_neg hquote, if_neg hslash] at h
    rw [not_or] at hend
    exact Quoted.cons (p := .plain c) ⟨hend.1, hend.2, hquote, hslash⟩ trivial (ih h)

/-! ### Both passes -/

theorem length_le_text (h : WellFormed ps rest) : ps.length ≤ (ps.flatMap Piece.text).length := by
  induction ps with
  | nil => exact le_rfl
  | cons p ps ih =>
    have hpos : 1 ≤ p.text.length := by
      cases p <;> exact Nat.succ_pos _
    rw [List.flatMap_cons, List.length_append, List.length_cons]
    have := ih h.2.2
    omega

/-- The only escape that may stand for no byte is an octal one. -/
theorem value_le (hp : p.Valid) : p.value ≤ 255 ∨ ∃ ds, p = .octal ds := by
  cases p with
  | plain c => exact Or.inl (Nat.le_of_lt_succ c.toNat_lt)
  | escape e => exact Or.inl (Nat.le_of_lt_succ (simpleValue e).toNat_lt)
  | hex x h1 h2 =>
    obtain ⟨x1, hx1⟩ := Option.isSome_iff_exists.mp hp.2.1
    obtain ⟨x2, hx2⟩ := Option.isSome_iff_exists.mp hp.2.2
    have hlt1 := hexDecodeDigit_lt hx1
    have hlt2 := hexDecodeDigit_lt hx2
    left
    rw [Piece.value, hx1, hx2, Option.getD_some, Option.getD_some]
    omega
  | octal ds => exact Or.inr ⟨ds, rfl⟩

theorem WellFormed.valid (h : WellFormed ps rest) : ∀ p ∈ ps, p.Valid := by
  induction ps with
  | nil => nofun
  | cons p ps ih =>
    obtain ⟨hp, _, hps⟩ := h
    exact List.forall_mem_cons.mpr ⟨hp, ih hps⟩

/-- The pieces that stand for no byte. -/
theorem not_all_le_iff (h : WellFormed ps rest) :
    (¬∀ p ∈ ps, p.value ≤ 255) ↔ ∃ ds, Piece.octal ds ∈ ps ∧ 255 < octalValue ds := by
  constructor
  · intro hall
    push Not at hall
    obtain ⟨p, hp, hlt⟩ := hall
    rcases value_le (h.valid p hp) with hle | ⟨ds, rfl⟩
    · omega
    · exact ⟨ds, hp, hlt⟩
  · rintro ⟨ds, hds, hlt⟩ hall
    exact absurd (hall _ hds) (Nat.not_le_of_lt hlt)

/-- **What `unescape_string` yields** on pieces and a closing quote. -/
theorem unescapeString_pieces {after : List UInt8} (h : WellFormed ps (0x22 :: after)) :
    unescapeString (0x22 :: (ps.flatMap Piece.text ++ 0x22 :: after)) =
      if ∀ p ∈ ps, p.value ≤ 255 then
        .ok (padded ((ps.flatMap Piece.text).length + 2) (bytes ps), ps.length, after)
      else reject () := by
  have hquote : findQuote (ps.flatMap Piece.text ++ 0x22 :: after) = some (0x22 :: after) := by
    rw [findQuote_pieces h, findQuote.eq_def]
    rfl
  have hroom : (0x22 :: (ps.flatMap Piece.text ++ 0x22 :: after)).length - (0x22 :: after).length + 1 =
      (ps.flatMap Piece.text).length + 2 := by
    rw [List.length_cons, List.length_append]
    omega
  have hempty : (⟨List.replicate ((ps.flatMap Piece.text).length + 2) 0, 0⟩ : Out) =
      written ((ps.flatMap Piece.text).length + 2) [] := rfl
  have hlt : ([] : List UInt8).length + ps.length < (ps.flatMap Piece.text).length + 2 := by
    have := length_le_text h
    rw [List.length_nil]
    omega
  rw [unescapeString, if_neg (by simp), hquote]
  dsimp only
  rw [hroom, hempty, unescapeLoop_pieces h hlt]
  split_ifs with hall
  · rw [ok_bind, List.nil_append, written, bytes, List.length_map]
    rfl
  · rfl

/-! ### Quoting -/

/-- The piece that `esc_for_log` writes for a character. -/
def escPiece (c : UInt8) : Piece :=
  if c = 0x5c ∨ c = 0x22 ∨ c = 0x27 then .escape c
  else if c = 0x0a then .escape 0x6e
  else if c = 0x09 then .escape 0x74
  else if c = 0x0d then .escape 0x72
  else if isPlain c then .plain c
  else .octal [digit (c.toNat / 64), digit (c.toNat / 8 % 8), digit (c.toNat % 8)]

theorem text_escPiece (c : UInt8) : (escPiece c).text = escChar c := by
  unfold escPiece escChar
  split_ifs <;> rfl

theorem length_escChar (c : UInt8) : (escChar c).length = escLen c := by
  unfold escChar escLen
  split_ifs <;> first | rfl | (exfalso; tauto)

theorem isODigit_digit {n : ℕ} (h : n < 8) : isODigit (digit n) = true := by
  interval_cases n <;> rfl

theorem toNat_digit {n : ℕ} (h : n < 8) : (digit n).toNat - 0x30 = n := by
  interval_cases n <;> rfl

theorem escPiece_valid (h : c ≠ 0) : (escPiece c).Valid ∧ (escPiece c).Delimited t := by
  unfold escPiece
  split_ifs with hself hnl htab hcr hplain
  · refine ⟨?_, trivial⟩
    rcases hself with rfl | rfl | rfl <;> rfl
  · exact ⟨rfl, trivial⟩
  · exact ⟨rfl, trivial⟩
  · exact ⟨rfl, trivial⟩
  · refine ⟨⟨h, hnl, ?_, ?_⟩, trivial⟩
    · tauto
    · tauto
  · refine ⟨⟨?_, Nat.succ_pos 2, le_rfl⟩, fun hlt => absurd hlt (lt_irrefl 3)⟩
    have := c.toNat_lt
    simp only [List.forall_mem_cons, List.not_mem_nil, false_implies, implies_true, and_true]
    exact ⟨isODigit_digit (by omega), isODigit_digit (by omega), isODigit_digit (by omega)⟩

theorem value_escPiece (c : UInt8) : (escPiece c).value = c.toNat := by
  unfold escPiece
  split_ifs with hself hnl htab hcr hplain
  · rcases hself with rfl | rfl | rfl <;> rfl
  · rw [hnl]
    rfl
  · rw [htab]
    rfl
  · rw [hcr]
    rfl
  · rfl
  · have := c.toNat_lt
    simp only [Piece.value, octalValue, List.foldl_cons, List.foldl_nil]
    rw [toNat_digit (by omega), toNat_digit (by omega), toNat_digit (by omega)]
    omega

theorem wellFormed_escPieces {s : List UInt8} (h : ∀ c ∈ s, c ≠ 0) : WellFormed (s.map escPiece) rest := by
  induction s with
  | nil => trivial
  | cons c s ih =>
    obtain ⟨hc, hs⟩ := List.forall_mem_cons.mp h
    exact ⟨(escPiece_valid (t := []) hc).1, (escPiece_valid hc).2, ih hs⟩

theorem length_flatMap_escChar (s : List UInt8) : (s.flatMap escChar).length = (s.map escLen).sum := by
  rw [List.length_flatMap]
  congr 1
  exact List.map_congr_left fun c _ => length_escChar c

theorem escLen_pos (c : UInt8) : 1 ≤ escLen c := by
  unfold escLen
  split_ifs <;> decide

theorem length_le_sum_escLen (s : List UInt8) : s.length ≤ (s.map escLen).sum := by
  have hsum := List.length_le_sum_of_one_le (s.map escLen) (by simpa using fun c _ => escLen_pos c)
  rwa [List.length_map] at hsum

/-- **What `esc_for_log` writes**: no assertion on the room fails. -/
theorem escStep_ok {len : ℕ} {out : List UInt8} (h : out.length + escLen c + 2 ≤ len) :
    escStep len out c = .ok (out ++ escChar c) := by
  have hpos := escLen_pos c
  have hroom : (escChar c).length < 4 ∨ out.length + 4 < len := by
    rw [length_escChar]
    omega
  rw [escStep, torAssert_of (by omega), ok_bind, torAssert_of hroom, ok_bind]
  rfl

theorem foldlM_escStep {len : ℕ} (s : List UInt8) {out : List UInt8}
    (h : out.length + (s.map escLen).sum + 2 ≤ len) :
    s.foldlM (escStep len) out = .ok (out ++ s.flatMap escChar) := by
  induction s generalizing out with
  | nil => rw [List.flatMap_nil, List.append_nil]; rfl
  | cons c s ih =>
    rw [List.map_cons, List.sum_cons] at h
    have hnext : (out ++ escChar c).length + (s.map escLen).sum + 2 ≤ len := by
      rw [List.length_append, length_escChar]
      omega
    rw [List.foldlM_cons, escStep_ok (by omega), ok_bind, ih hnext, List.flatMap_cons, List.append_assoc]

/-- **`esc_for_log`** fails no assertion but the one on the size. -/
theorem escForLog_eq (s : List UInt8) : escForLog s =
    if 3 + (s.map escLen).sum ≤ ssizeMax then .ok (0x22 :: (s.flatMap escChar ++ [0x22]))
    else fault .assertion := by
  rw [escForLog]
  split_ifs with hlen
  · have hloop : s.foldlM (escStep (3 + (s.map escLen).sum)) [0x22] = .ok ([0x22] ++ s.flatMap escChar) :=
      foldlM_escStep s (by rw [List.length_singleton]; omega)
    have hlast : ([0x22] ++ s.flatMap escChar).length + 2 ≤ 3 + (s.map escLen).sum := by
      rw [List.length_append, length_flatMap_escChar, List.length_singleton]
      omega
    rw [torAssert_of hlen, ok_bind, hloop, ok_bind, torAssert_of hlast, ok_bind]
    rfl
  · rw [torAssert_of_not hlen]
    rfl

theorem bytes_escPieces (s : List UInt8) : bytes (s.map escPiece) = s := by
  rw [bytes, List.map_map]
  refine (List.map_congr_left fun c _ => ?_).trans (List.map_id s)
  rw [Function.comp_apply, value_escPiece, Nat.toUInt8_eq, UInt8.ofNat_toNat]
  rfl

/-- **Quoting and decoding**, with whatever follows the closing quote. -/
theorem unescapeString_quoted {s : List UInt8} (h : ∀ c ∈ s, c ≠ 0) (after : List UInt8) :
    unescapeString (0x22 :: (s.flatMap escChar ++ 0x22 :: after)) =
      .ok (padded ((s.map escLen).sum + 2) s, s.length, after) := by
  have htext : (s.map escPiece).flatMap Piece.text = s.flatMap escChar := by
    rw [List.flatMap_map]
    exact List.flatMap_congr fun c _ => text_escPiece c
  have hle : ∀ p ∈ s.map escPiece, p.value ≤ 255 := by
    intro p hp
    obtain ⟨c, -, rfl⟩ := List.mem_map.mp hp
    rw [value_escPiece]
    exact Nat.le_of_lt_succ c.toNat_lt
  have hpieces := unescapeString_pieces (wellFormed_escPieces h : WellFormed (s.map escPiece) (0x22 :: after))
  rwa [htext, if_pos hle, bytes_escPieces, List.length_map, length_flatMap_escChar] at hpieces

/-- `unescape_string` makes no forbidden access and takes no branch that is marked as unreachable. -/
theorem noFault_unescapeString (s : List UInt8) : NoFault (unescapeString s) := by
  cases s with
  | nil => exact noFault_reject _
  | cons c cp =>
    by_cases hc : c = 0x22
    · subst hc
      cases hquote : findQuote cp with
      | none =>
        rw [unescapeString, if_neg (by simp), hquote]
        exact noFault_reject _
      | some quote =>
        obtain ⟨ps, after, rfl, hps, rfl⟩ := quoted_of_findQuote hquote
        rw [unescapeString_pieces hps]
        split_ifs
        · exact noFault_ok _
        · exact noFault_reject _
    · rw [unescapeString, if_pos hc]
      exact noFault_reject _

/-- **The two passes agree.**  When the first pass of `unescape_string` finds a closing quote, the second one
stops at that quote, with what the pieces before it stand for in a buffer of the size that the first pass has
found; it fails only if one of them is an octal escape above 255.  For no string is there a write outside of
the buffer or a branch that is marked as unreachable.  What `esc_for_log` makes of a string is decoded to that
string and to its end; its assertions hold but for the one on the size. -/
theorem unescapeString_passes (s : List UInt8) :
    (∀ cp quote, s = 0x22 :: cp → findQuote cp = some quote →
      ∃ ps after, quote = 0x22 :: after ∧ WellFormed ps quote ∧ cp = ps.flatMap Piece.text ++ quote ∧
        ((unescapeString s =
            .ok (padded (s.length - quote.length + 1) (bytes ps), ps.length, after) ∧
            ps.length < s.length - quote.length + 1 ∧ ∀ p ∈ ps, p.value ≤ 255) ∨
          unescapeString s = reject () ∧ ∃ ds, Piece.octal ds ∈ ps ∧ 255 < octalValue ds)) ∧
    NoFault (unescapeString s) ∧
    ((∀ c ∈ s, c ≠ 0) →
      (NoFault (escForLog s) ↔ 3 + (s.map escLen).sum ≤ ssizeMax) ∧
      ∀ esc, escForLog s = .ok esc →
        ∃ buf, unescapeString esc = .ok (buf, s.length, []) ∧ buf.take s.length = s ∧ cText buf = s) := by
  refine ⟨?_, noFault_unescapeString s, fun hs => ⟨?_, ?_⟩⟩
  · rintro _ quote rfl hquote
    obtain ⟨ps, after, rfl, hps, rfl⟩ := quoted_of_findQuote hquote
    have hroom : (0x22 :: (ps.flatMap Piece.text ++ 0x22 :: after)).length - (0x22 :: after).length + 1 =
        (ps.flatMap Piece.text).length + 2 := by
      rw [List.length_cons, List.length_append]
      omega
    refine ⟨ps, after, rfl, hps, rfl, ?_⟩
    rw [unescapeString_pieces hps, hroom]
    by_cases hall : ∀ p ∈ ps, p.value ≤ 255
    · left
      have := length_le_text hps
      exact ⟨if_pos hall, by omega, hall⟩
    · exact Or.inr ⟨if_neg hall, (not_all_le_iff hps).mp hall⟩
  · rw [escForLog_eq]
    split_ifs with hlen
    · exact iff_of_true (noFault_ok _) hlen
    · exact iff_of_false (not_noFault_fault _) hlen
  · intro esc hesc
    rw [escForLog_eq] at hesc
    split_ifs at hesc
    · cases hesc
      have hlt : s.length < (s.map escLen).sum + 2 := by
        have := length_le_sum_escLen s
        omega
      exact ⟨_, unescapeString_quoted hs [], List.take_left, cText_padded hs hlt⟩
    · cases hesc

/-- A bell: its octal escape, and what `esc_for_log` makes of it. -/
theorem unescapeString_passes_bell :
    (∃ ps after, [0x22] = 0x22 :: after ∧ WellFormed ps [0x22] ∧
      [0x5c, 0x37, 0x22] = ps.flatMap Piece.text ++ [0x22] ∧
        ((unescapeString [0x22, 0x5c, 0x37, 0x22] = .ok (padded 4 (bytes ps), ps.length, after) ∧
            ps.length < 4 ∧ ∀ p ∈ ps, p.value ≤ 255) ∨
          unescapeString [0x22, 0x5c, 0x37, 0x22] = reject () ∧
            ∃ ds, Piece.octal ds ∈ ps ∧ 255 < octalValue ds)) ∧
    ∃ buf, unescapeString [0x22, 0x5c, 0x30, 0x30, 0x37, 0x22] = .ok (buf, 1, []) ∧ buf.take 1 = [7] ∧
      cText buf = [7] := by
  have hquote : findQuote [0x5c, 0x37, 0x22] = some [0x22] := by
    rw [findQuote.eq_def]
    simp [isODigit, skipODigit, findQuote]
  have hesc : escForLog [7] = .ok [0x22, 0x5c, 0x30, 0x30, 0x37, 0x22] := by
    rw [escForLog_eq]
    rfl
  exact ⟨(unescapeString_passes [0x22, 0x5c, 0x37, 0x22]).1 _ _ rfl hquote,
    ((unescapeString_passes [7]).2.2 (by simp)).2 _ hesc⟩

end TorEbpf.Encoding
