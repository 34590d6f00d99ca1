import TorEbpf.Encoding.Kvline

/-!
# Lines of keys and values are read back

* `reads_encodeElement` — each element is read as its line, whatever follows it;
* `kvlineLoop_ne_noProgress` — the loop of `kvline_parse` always makes progress;
* `kvline_roundTrip` — what was written is read back, and what was read can be written.
-/

namespace TorEbpf.Encoding

open TorEbpf.Lib TorEbpf.Strings

variable {flags : KvFlags} {line : ConfigLine} {lines : List ConfigLine}
variable {s v e cp t rest : List UInt8} {c : UInt8}

/-! ### Characters that need no quotes -/

/-- A character that needs no quotes. -/
def IsBare (c : UInt8) : Prop := isKvSpace c = false ∧ c ≠ 0x22

theorem isSpace_of_isKvSpace (h : isKvSpace c = true) : isSpace c = true := by
  have hcases : (((c = 0x20 ∨ c = 0x09) ∨ c = 0x0d) ∨ c = 0x0b) ∨ c = 0x0a := by simpa [isKvSpace] using h
  rcases hcases with (((rfl | rfl) | rfl) | rfl) | rfl <;> rfl

theorem ne_of_isKvSpace (h : isKvSpace c = true) : c ≠ 0x22 ∧ c ≠ 0x3d := by
  constructor
  · rintro rfl
    cases h
  · rintro rfl
    cases h

theorem bare_of_needsEscape {keyless : Bool} (h : needsEscape s keyless = false) :
    (∀ c ∈ s, IsBare c) ∧ (keyless = true → s ≠ [] ∧ ∀ c ∈ s, isKeyEnd c = false) := by
  unfold needsEscape at h
  rw [Bool.or_eq_false_iff, Bool.or_eq_false_iff, List.any_eq_false] at h
  obtain ⟨⟨hempty, heq⟩, hall⟩ := h
  have hbare : ∀ c ∈ s, IsBare c := by
    intro c hc
    have hchar := hall c hc
    simp only [Bool.or_eq_true, decide_eq_true_eq, not_or] at hchar
    obtain ⟨⟨⟨⟨-, hspace⟩, -⟩, -⟩, hquote⟩ := hchar
    exact ⟨Bool.eq_false_iff.mpr fun hkv => hspace (isSpace_of_isKvSpace hkv), hquote⟩
  refine ⟨hbare, fun hkeyless => ⟨?_, fun c hc => ?_⟩⟩
  · rintro rfl
    rw [hkeyless] at hempty
    cases hempty
  · rw [hkeyless, Bool.true_and] at heq
    have hne : c ≠ 0x3d := by
      rintro rfl
      rw [List.contains_iff_mem.mpr hc] at heq
      cases heq
    rw [isKeyEnd, (hbare c hc).1, Bool.false_or, decide_eq_false hne]

/-! ### What a value ends with -/

def EndsPair (rest : List UInt8) : Prop := ∀ c ∈ rest.head?, isKvSpace c = true

theorem head?_ne_quote (hs : ∀ c ∈ s, IsBare c) (hrest : EndsPair rest) : (s ++ rest).head? ≠ some 0x22 := by
  cases s with
  | nil =>
    intro hhead
    exact (ne_of_isKvSpace (hrest 0x22 hhead)).1 rfl
  | cons c s =>
    intro hhead
    exact (hs c List.mem_cons_self).2 (Option.some.inj hhead)

theorem EndsPair.not_keyEnd (hrest : EndsPair rest) : ∀ c ∈ rest.head?, (!isKeyEnd c) = false := by
  intro c hc
  rw [isKeyEnd, hrest c hc]
  rfl

theorem EndsPair.head?_ne (hrest : EndsPair rest) : rest.head? ≠ some 0x3d :=
  fun hhead => (ne_of_isKvSpace (hrest 0x3d hhead)).2 rfl

theorem parseValue_bare (hv : ∀ c ∈ v, IsBare c) (hrest : EndsPair rest) :
    parseValue flags (v ++ rest) = .ok (v, rest) := by
  have hbare : ∀ c ∈ v, (!isKvSpace c) = true := fun c hc => by rw [(hv c hc).1]; rfl
  have hend : ∀ c ∈ rest.head?, (!isKvSpace c) = false := fun c hc => by rw [hrest c hc]; rfl
  rw [parseValue, if_neg (head?_ne_quote hv hrest), takeWhile_append_of_head hend hbare,
    dropWhile_append_of_head hend hbare]

theorem parseValue_quoted (hflags : flags.quoted = true) (hv : ∀ c ∈ v, c ≠ 0) :
    parseValue flags (0x22 :: (v.flatMap escChar ++ [0x22]) ++ rest) = .ok (v, rest) := by
  have htext : 0x22 :: (v.flatMap escChar ++ [0x22]) ++ rest = 0x22 :: (v.flatMap escChar ++ 0x22 :: rest) := by
    simp
  have hlt : v.length < (v.map escLen).sum + 2 := by
    have := length_le_sum_escLen v
    omega
  rw [htext, parseValue, if_pos List.head?_cons, if_neg (by simp [hflags]), unquote, if_pos hflags,
    unescapeString_quoted hv rest, ok_bind]
  dsimp only
  rw [cText_padded hv hlt, if_neg (by simp)]
  rfl

/-! ### Elements -/

theorem canEncodeLine_iff : canEncodeLine flags line = true ↔
    (line.hasNoKey = true → flags.omitKeys = true) ∧
    (needsEscape line.value line.hasNoKey = true → flags.quoted = true ∨ flags.raw = true) ∧
    (line.hasNoKey = false → needsEscape (line.key.getD []) true = false) := by
  unfold canEncodeLine
  cases line.hasNoKey <;> cases flags.omitKeys <;> cases needsEscape line.value _ <;> cases flags.quoted <;>
    cases flags.raw <;> simp

theorem encodeValue_cases (hraw : flags.raw = false) (hcan : canEncodeLine flags line = true)
    (h : encodeValue flags line = .ok v) :
    v = line.value ∧ needsEscape line.value line.hasNoKey = false ∨
      v = 0x22 :: (line.value.flatMap escChar ++ [0x22]) ∧ flags.quoted = true := by
  unfold encodeValue at h
  rw [hraw, Bool.not_false, Bool.true_and] at h
  cases hesc : needsEscape line.value line.hasNoKey with
  | false =>
    rw [hesc] at h
    cases h
    exact Or.inl ⟨rfl, rfl⟩
  | true =>
    have hquoted : flags.quoted = true := by
      rcases (canEncodeLine_iff.mp hcan).2.1 hesc with hquoted | hraw'
      · exact hquoted
      · rw [hraw] at hraw'
        cases hraw'
    rw [hesc, if_pos rfl, escForLog_eq] at h
    split_ifs at h
    · cases h
      exact Or.inr ⟨rfl, hquoted⟩
    · cases h

theorem parseValue_encodeValue (hraw : flags.raw = false) (hcan : canEncodeLine flags line = true)
    (hnul : ∀ c ∈ line.value, c ≠ 0) (h : encodeValue flags line = .ok v) (hrest : EndsPair rest) :
    parseValue flags (v ++ rest) = .ok (line.value, rest) := by
  rcases encodeValue_cases hraw hcan h with ⟨rfl, hbare⟩ | ⟨rfl, hquoted⟩
  · exact parseValue_bare (bare_of_needsEscape hbare).1 hrest
  · exact parseValue_quoted hquoted hnul

/-- The line that is read: a missing key is empty. -/
def ConfigLine.normal (line : ConfigLine) : ConfigLine := ⟨some (line.key.getD []), line.value⟩

/-- The element is read as the line, whatever follows it. -/
def Reads (flags : KvFlags) (line : ConfigLine) (e : List UInt8) : Prop :=
  (∃ c t, e = c :: t ∧ isKvSpace c = false) ∧
    ∀ rest, EndsPair rest → parseItem flags (e ++ rest) = .ok (line.normal, rest)

theorem key_append {k : List UInt8} (hk : ∀ c ∈ k, isKeyEnd c = false) (ht : ∀ c ∈ t.head?, isKeyEnd c = true) :
    (k ++ t).takeWhile (!isKeyEnd ·) = k ∧ (k ++ t).dropWhile (!isKeyEnd ·) = t := by
  have hkey : ∀ c ∈ k, (!isKeyEnd c) = true := fun c hc => by rw [hk c hc]; rfl
  have hend : ∀ c ∈ t.head?, (!isKeyEnd c) = false := fun c hc => by rw [ht c hc]; rfl
  exact ⟨takeWhile_append_of_head hend hkey, dropWhile_append_of_head hend hkey⟩

theorem head?_key {k : List UInt8} (hk : ∀ c ∈ k, IsBare c) (hne : k ≠ []) :
    (k ++ t).head? ≠ some 0x22 := by
  obtain ⟨c, k, rfl⟩ := List.exists_cons_of_ne_nil hne
  intro hhead
  exact (hk c List.mem_cons_self).2 (Option.some.inj hhead)

/-- **A key with a value.** -/
theorem parsePair_keyed {k : List UInt8} (hk : needsEscape k true = false)
    (hv : parseValue flags (v ++ rest) = .ok (s, rest)) :
    parsePair flags (k ++ [0x3d] ++ v ++ rest) = .ok (some k, some s, rest) := by
  obtain ⟨hbare, hkey⟩ := bare_of_needsEscape hk
  obtain ⟨hne, hkey⟩ := hkey rfl
  have htext : k ++ [0x3d] ++ v ++ rest = k ++ 0x3d :: (v ++ rest) := by simp
  obtain ⟨htake, hdrop⟩ := key_append (t := 0x3d :: (v ++ rest)) hkey (by rintro _ ⟨⟩; rfl)
  rw [htext, parsePair, if_neg (head?_key hbare hne)]
  dsimp only
  rw [htake, hdrop, if_pos List.head?_cons, List.tail_cons, hv]
  rfl

/-- **A key alone.** -/
theorem parsePair_key {k : List UInt8} (hflags : flags.omitVals = true) (hk : needsEscape k true = false)
    (hrest : EndsPair rest) : parsePair flags (k ++ rest) = .ok (some k, none, rest) := by
  obtain ⟨hbare, hkey⟩ := bare_of_needsEscape hk
  obtain ⟨hne, hkey⟩ := hkey rfl
  obtain ⟨htake, hdrop⟩ := key_append (t := rest) hkey fun c hc => by simpa using hrest.not_keyEnd c hc
  rw [parsePair, if_neg (head?_key hbare hne)]
  dsimp only
  rw [htake, hdrop, if_neg hrest.head?_ne, if_pos hflags]

/-- **A value alone.** -/
theorem parsePair_keyless (hvals : flags.omitVals = false) (hkeys : flags.omitKeys = true)
    (hv : v = s ∧ needsEscape s true = false ∨ v.head? = some 0x22)
    (hval : parseValue flags (v ++ rest) = .ok (s, rest)) (hrest : EndsPair rest) :
    parsePair flags (v ++ rest) = .ok (none, some s, rest) := by
  unfold parsePair
  rcases hv with ⟨rfl, hbare⟩ | hhead
  · obtain ⟨hbare, hkey⟩ := bare_of_needsEscape hbare
    obtain ⟨hne, hkey⟩ := hkey rfl
    obtain ⟨htake, hdrop⟩ := key_append (t := rest) hkey fun c hc => by simpa using hrest.not_keyEnd c hc
    rw [if_neg (head?_key hbare hne)]
    dsimp only
    rw [htake, hdrop, if_neg hrest.head?_ne, hvals, hkeys, if_neg (by simp), if_neg (by simp), hval]
    rfl
  · have hhead : (v ++ rest).head? = some 0x22 := by
      rw [List.head?_append, hhead]
      rfl
    rw [if_pos hhead, hval]
    rfl

theorem parseItem_of_parsePair {key val : Option (List UInt8)}
    (h : parsePair flags cp = .ok (key, val, rest)) (hkey : key ≠ some []) :
    parseItem flags cp = .ok (⟨some (key.getD []), val.getD []⟩, rest) := by
  rw [parseItem, h, ok_bind]
  exact if_neg hkey

theorem isKvSpace_head {k : List UInt8} (hk : ∀ c ∈ k, IsBare c) (hne : k ≠ []) (t : List UInt8) :
    ∃ c t', k ++ t = c :: t' ∧ isKvSpace c = false := by
  obtain ⟨c, k, rfl⟩ := List.exists_cons_of_ne_nil hne
  exact ⟨c, k ++ t, rfl, (hk c List.mem_cons_self).1⟩

/-- **Each element is read back.** -/
theorem reads_encodeElement (hraw : flags.raw = false) (hflags : ¬(flags.omitKeys ∧ flags.omitVals))
    (hcan : canEncodeLine flags line = true) (hnul : ∀ c ∈ line.value, c ≠ 0)
    (h : encodeElement flags line = .ok e) : Reads flags line e := by
  obtain ⟨hkeys, -, hkey⟩ := canEncodeLine_iff.mp hcan
  unfold encodeElement at h
  cases hno : line.hasNoKey with
  | false =>
    have hkey := hkey hno
    obtain ⟨hbare, hne⟩ := bare_of_needsEscape hkey
    obtain ⟨hne, -⟩ := hne rfl
    by_cases hvals : (flags.omitVals && line.hasNoVal) = true
    · rw [if_pos hvals] at h
      cases h
      rw [Bool.and_eq_true] at hvals
      have hval : line.value = [] := List.isEmpty_iff.mp hvals.2
      refine ⟨by simpa using isKvSpace_head hbare hne [], fun rest hrest => ?_⟩
      rw [parseItem_of_parsePair (parsePair_key hvals.1 hkey hrest) (by simpa using hne), ConfigLine.normal,
        hval]
      rfl
    · rw [if_neg hvals] at h
      obtain ⟨v, hv, h⟩ := bind_eq_ok.mp h
      rw [hno, if_neg (by simp)] at h
      cases h
      refine ⟨by simpa using isKvSpace_head hbare hne (0x3d :: v), fun rest hrest => ?_⟩
      have hval := parseValue_encodeValue hraw hcan hnul hv hrest
      rw [parseItem_of_parsePair (parsePair_keyed hkey hval) (by simpa using hne)]
      rfl
  | true =>
    have homit : flags.omitVals = false := by
      rw [← Bool.not_eq_true]
      exact fun hvals => hflags ⟨hkeys hno, hvals⟩
    have hempty : line.key.getD [] = [] := List.isEmpty_iff.mp hno
    rw [homit, Bool.false_and, if_neg (by simp)] at h
    obtain ⟨v, hv, h⟩ := bind_eq_ok.mp h
    rw [hno, hempty, if_pos rfl, List.nil_append, List.nil_append] at h
    cases h
    have hcases := encodeValue_cases hraw hcan hv
    rw [hno] at hcases
    constructor
    · rcases hcases with ⟨rfl, hbare⟩ | ⟨rfl, -⟩
      · obtain ⟨hbare, hne⟩ := bare_of_needsEscape hbare
        simpa using isKvSpace_head hbare (hne rfl).1 []
      · exact ⟨0x22, _, rfl, rfl⟩
    · intro rest hrest
      have hval := parseValue_encodeValue hraw hcan hnul hv hrest
      have hform : e = line.value ∧ needsEscape line.value true = false ∨ e.head? = some 0x22 := by
        rcases hcases with hbare | ⟨rfl, -⟩
        · exact Or.inl hbare
        · exact Or.inr rfl
      rw [parseItem_of_parsePair (parsePair_keyless homit (hkeys hno) hform hval hrest) (by simp),
        ConfigLine.normal, hempty]
      rfl

/-! ### The loop -/

theorem kvlineLoop_round {cplast : Option (List UInt8)} (hcp : cp.dropWhile isKvSpace = c :: t)
    (hlast : ∀ p ∈ cplast, (c :: t).length < p.length) :
    kvlineLoop flags cp cplast = match parseItem flags (c :: t) with
      | .error (.reject ()) => reject .malformed
      | .error (.fault f) => fault f
      | .ok (line, rest) => (line :: ·) <$> kvlineLoop flags rest (some (c :: t)) := by
  have hne : cp ≠ [] := by
    rintro rfl
    cases hcp
  have hprogress : some (c :: t) ≠ cplast := by
    rintro rfl
    exact lt_irrefl _ (hlast _ rfl)
  rw [kvlineLoop.eq_def, if_neg hne, if_neg (by rwa [hcp])]
  split
  · rename_i hnil
    rw [hcp] at hnil
    cases hnil
  · rename_i hcons
    rw [hcp] at hcons
    cases hcons
    split <;> rename_i hitem <;> rw [hitem]

theorem kvlineLoop_nil (cplast : Option (List UInt8)) : kvlineLoop flags [] cplast = .ok [] := by
  rw [kvlineLoop.eq_def, if_pos rfl]

/-- Elements with a space in front of each. -/
def spaced (es : List (List UInt8)) : List UInt8 := es.flatMap (0x20 :: ·)

theorem intercalate_cons (e : List UInt8) (es : List (List UInt8)) :
    [0x20].intercalate (e :: es) = e ++ spaced es := by
  induction es generalizing e with
  | nil => simp [List.intercalate, spaced]
  | cons e' es ih =>
    rw [List.intercalate_cons_cons, ih e', spaced, spaced, List.flatMap_cons]
    simp

theorem endsPair_spaced (es : List (List UInt8)) : EndsPair (spaced es) := by
  cases es with
  | nil => nofun
  | cons e es =>
    rintro _ ⟨⟩
    rfl

/-- **The loop** reads all elements. -/
theorem kvlineLoop_elements {es : List (List UInt8)} (h : List.Forall₂ (Reads flags) lines es) :
    ∀ {cp : List UInt8} {cplast : Option (List UInt8)},
      (∀ p ∈ cplast, cp.length < p.length) → cp = spaced es ∨ cp = [0x20].intercalate es →
      kvlineLoop flags cp cplast = .ok (lines.map ConfigLine.normal) := by
  induction h with
  | nil =>
    intro cp cplast _ hcp
    have hnil : cp = [] := by
      rcases hcp with rfl | rfl <;> rfl
    rw [hnil, kvlineLoop_nil]
    rfl
  | @cons line e lines es he hes ih =>
    intro cp cplast hlast hcp
    obtain ⟨⟨c, t, rfl, hc⟩, hitem⟩ := he
    have hdrop : cp.dropWhile isKvSpace = c :: (t ++ spaced es) := by
      have hbare : (c :: (t ++ spaced es)).dropWhile isKvSpace = c :: (t ++ spaced es) :=
        List.dropWhile_cons_of_neg (by rw [hc]; simp)
      rcases hcp with rfl | rfl
      · rw [spaced, List.flatMap_cons, List.cons_append, List.dropWhile_cons_of_pos rfl]
        exact hbare
      · rw [intercalate_cons]
        exact hbare
    have hle := List.length_dropWhile_le isKvSpace cp
    rw [hdrop] at hle
    have hrest : ∀ p ∈ some (c :: (t ++ spaced es)), (spaced es).length < p.length := by
      rintro _ ⟨⟩
      rw [List.length_cons, List.length_append]
      omega
    have hread := hitem (spaced es) (endsPair_spaced es)
    rw [List.cons_append] at hread
    rw [kvlineLoop_round hdrop fun p hp => hle.trans_lt (hlast p hp), hread]
    dsimp only
    rw [ih hrest (Or.inl rfl)]
    rfl

/-- **The loop makes progress.** -/
theorem kvlineLoop_ne_noProgress {cplast : Option (List UInt8)}
    (hlast : ∀ p ∈ cplast, cp.length < p.length) : kvlineLoop flags cp cplast ≠ reject .noProgress := by
  induction hn : cp.length using Nat.strong_induction_on generalizing cp cplast with
  | _ n ih =>
    cases hcp : cp.dropWhile isKvSpace with
    | nil =>
      rw [kvlineLoop.eq_def]
      split_ifs with hnil hsame
      · intro h
        cases h
      · rw [← hsame, hcp] at hlast
        exact absurd (hlast [] rfl) (Nat.not_lt_zero _)
      · split
        · intro h
          cases h
        · rename_i hcons
          rw [hcp] at hcons
          cases hcons
    | cons c t =>
      have hle := List.length_dropWhile_le isKvSpace cp
      rw [hcp] at hle
      rw [kvlineLoop_round hcp fun p hp => hle.trans_lt (hlast p hp)]
      cases hitem : parseItem flags (c :: t) with
      | error stop =>
        cases stop with
        | reject u =>
          intro h
          cases h
        | fault f =>
          intro h
          cases h
      | ok r =>
        obtain ⟨line, rest⟩ := r
        have hlt := length_parseItem_lt (isKvSpace_of_dropWhile hcp) hitem
        have hnext : ∀ p ∈ some (c :: t), rest.length < p.length := by
          rintro _ ⟨⟩
          exact hlt
        have hloop := ih rest.length (by omega) hnext rfl
        dsimp only
        cases hrest : kvlineLoop flags rest (some (c :: t)) with
        | ok lines =>
          intro h
          cases h
        | error stop =>
          rw [hrest] at hloop
          exact fun h => hloop (by cases h; rfl)

/-! ### No assertion fails -/

/-- **The length of a quoted string** is the one of the text that `decode_qstring` goes through. -/
theorem qstringLoop_spec {n chars : ℕ} (h : chars + t.length ≤ intMax) : NoFault (qstringLoop t n chars) ∧
    ∀ n' chars', qstringLoop t n chars = .ok (n', chars') →
      ∃ body rest, t = body ++ 0x22 :: rest ∧ n' = n + body.length + 1 ∧
        chars' = chars + (qstringCopy body).length := by
  induction t, n, chars using qstringLoop.induct with
  | case1 => exact ⟨noFault_reject _, nofun⟩
  | case2 => exact ⟨noFault_reject _, nofun⟩
  | case3 n chars e t ih =>
    rw [List.length_cons, List.length_cons] at h
    obtain ⟨hsafe, hok⟩ := ih (by omega)
    rw [qstringLoop.eq_def]
    dsimp only
    rw [if_pos rfl, torAssert_of (by omega), ok_bind]
    refine ⟨hsafe, fun n' chars' hloop => ?_⟩
    obtain ⟨body, rest, rfl, hn, hchars⟩ := hok n' chars' hloop
    refine ⟨0x5c :: e :: body, rest, rfl, ?_, ?_⟩
    · rw [hn, List.length_cons, List.length_cons]
      omega
    · rw [hchars, qstringCopy, if_pos rfl, List.length_cons]
      omega
  | case4 t n chars hne =>
    rw [qstringLoop.eq_def]
    dsimp only
    rw [if_neg hne, if_pos rfl]
    refine ⟨noFault_ok _, fun n' chars' hloop => ?_⟩
    cases hloop
    exact ⟨[], t, rfl, rfl, rfl⟩
  | case5 c t n chars hslash hquote ih =>
    rw [List.length_cons] at h
    obtain ⟨hsafe, hok⟩ := ih (by omega)
    rw [qstringLoop.eq_def]
    dsimp only
    rw [if_neg hslash, if_neg hquote, torAssert_of (by omega), ok_bind]
    refine ⟨hsafe, fun n' chars' hloop => ?_⟩
    obtain ⟨body, rest, rfl, hn, hchars⟩ := hok n' chars' hloop
    refine ⟨c :: body, rest, rfl, ?_, ?_⟩
    · rw [hn, List.length_cons]
      omega
    · have hcopy : qstringCopy (c :: body) = c :: qstringCopy body := by
        rw [qstringCopy.eq_def]
        exact if_neg hslash
      rw [hchars, hcopy, List.length_cons]
      omega

theorem lt_of_le_intMax {n : ℕ} (h : n ≤ intMax) : n < 2 ^ 31 := by
  unfold intMax at h
  omega

theorem bmod_of_lt {n : ℕ} (h : n < 2 ^ 31) : Int.bmod n (2 ^ 32) = n := by
  rw [Int.bmod_def]
  omega

theorem toInt_of_le {n : ℕ} (h : n ≤ intMax) : toInt n = n := bmod_of_lt (lt_of_le_intMax h)

theorem noFault_decodeQstring (h : cp.length ≤ intMax) : NoFault (decodeQstring cp) := by
  cases cp with
  | nil => exact noFault_reject _
  | cons c t =>
    rw [decodeQstring]
    split_ifs with hquote
    · exact noFault_reject _
    · rw [List.length_cons] at h
      obtain ⟨hsafe, hok⟩ := @qstringLoop_spec t 1 0 (by omega)
      rw [noFault_bind]
      refine ⟨hsafe, ?_⟩
      rintro ⟨n, chars⟩ hloop
      obtain ⟨body, rest, rfl, rfl, rfl⟩ := hok n chars hloop
      have hlen : toInt (1 + body.length + 1) = (body.length + 2 : ℕ) := by
        rw [List.length_append, List.length_cons] at h
        rw [toInt_of_le (by omega)]
        omega
      have hend : (c :: (body ++ 0x22 :: rest))[body.length + 2 - 1]? = some 0x22 := by
        rw [show body.length + 2 - 1 = body.length + 1 from rfl, List.getElem?_cons_succ,
          List.getElem?_append_right le_rfl, Nat.sub_self]
        rfl
      have hbody : (body ++ 0x22 :: rest).take (body.length + 2 - 2) = body := List.take_left
      dsimp only
      rw [hlen, if_neg (by omega), Int.toNat_natCast, torAssert_of ⟨by omega, hend⟩, ok_bind, hbody,
        torAssert_of (Nat.zero_add _).symm]
      exact noFault_ok _

theorem noFault_map {α β : Type} {f : α → β} {x : Checked Unit Access α} (h : NoFault x) : NoFault (f <$> x) :=
    by
  rw [map_eq_pure_bind, noFault_bind]
  exact ⟨h, fun a _ => noFault_pure _⟩

theorem noFault_parseValue (h : flags.quoted = true ∨ cp.length ≤ intMax ∨ flags.quotedQstring = false) :
    NoFault (parseValue flags cp) := by
  unfold parseValue
  split_ifs with hquote hflags
  · exact noFault_reject _
  · rw [noFault_bind]
    constructor
    · unfold unquote
      split_ifs with hc
      · exact noFault_unescapeString cp
      · rcases h with hc' | hlen | hq
        · exact absurd hc' hc
        · exact noFault_decodeQstring hlen
        · rw [hq] at hflags
          simp [hc] at hflags
    · rintro ⟨buf, len, rest⟩ -
      dsimp only
      split_ifs
      · exact noFault_reject _
      · exact noFault_ok _
  · exact noFault_ok _

theorem noFault_parseItem (h : flags.quoted = true ∨ cp.length ≤ intMax ∨ flags.quotedQstring = false) :
    NoFault (parseItem flags cp) := by
  have htail : flags.quoted = true ∨ ((cp.dropWhile (!isKeyEnd ·)).tail).length ≤ intMax ∨
      flags.quotedQstring = false := by
    have hle := List.length_dropWhile_le (!isKeyEnd ·) cp
    rw [List.length_tail]
    exact h.imp_right (Or.imp_left fun hlen => ((Nat.sub_le _ _).trans hle).trans hlen)
  rw [parseItem, noFault_bind]
  constructor
  · unfold parsePair
    dsimp only
    split_ifs
    · exact noFault_map (noFault_parseValue h)
    · exact noFault_map (noFault_parseValue htail)
    · exact noFault_ok _
    · exact noFault_reject _
    · exact noFault_map (noFault_parseValue h)
  · rintro ⟨key, val, rest⟩ -
    dsimp only
    split_ifs
    · exact noFault_reject _
    · exact noFault_ok _

theorem noFault_kvlineLoop {cplast : Option (List UInt8)}
    (h : flags.quoted = true ∨ cp.length ≤ intMax ∨ flags.quotedQstring = false) :
    NoFault (kvlineLoop flags cp cplast) := by
  induction hn : cp.length using Nat.strong_induction_on generalizing cp cplast with
  | _ n ih =>
    have hle := List.length_dropWhile_le isKvSpace cp
    rw [kvlineLoop.eq_def]
    split_ifs with hnil hsame
    · exact noFault_ok _
    · exact noFault_reject _
    · split
      · exact noFault_ok _
      · rename_i c t hcp
        rw [hcp] at hle
        have hitem : NoFault (parseItem flags (c :: t)) :=
          noFault_parseItem (h.imp_right (Or.imp_left fun hlen => hle.trans hlen))
        split
        · exact noFault_reject _
        · rename_i f hf
          exact absurd hf (hitem f)
        · rename_i line rest hread
          have hlt := length_parseItem_lt (isKvSpace_of_dropWhile hcp) hread
          have hrest : NoFault (kvlineLoop flags rest (some (c :: t))) := ih rest.length (by omega)
            (h.imp_right (Or.imp_left fun hlen => hlt.le.trans (hle.trans hlen))) rfl
          rw [map_eq_pure_bind, noFault_bind]
          exact ⟨hrest, fun a _ => noFault_pure _⟩

/-! ### Both directions -/

/-- What `kvline_encode` returns is made of its elements. -/
theorem of_kvlineEncode (h : kvlineEncode flags lines = .ok s) :
    flags.quotedQstring = false ∧ ¬(flags.omitKeys ∧ flags.omitVals) ∧
      kvlineCanEncodeLines flags lines = true ∧
        ∃ es, lines.mapM (encodeElement flags) = .ok es ∧ s = [0x20].intercalate es := by
  obtain ⟨_, hqstring, h⟩ := bind_eq_ok.mp h
  obtain ⟨_, hflags, h⟩ := bind_eq_ok.mp h
  obtain ⟨_, -, h⟩ := bind_eq_ok.mp h
  split_ifs at h with hcan
  · obtain ⟨es, hes, rfl⟩ := map_eq_ok.mp h
    exact ⟨by simpa using of_torAssert hqstring, of_torAssert hflags, hcan, es, hes, rfl⟩
  · cases h

/-- **What was written is read back.** -/
theorem kvlineParse_kvlineEncode (hraw : flags.raw = false) (hnul : ∀ line ∈ lines, ∀ c ∈ line.value, c ≠ 0)
    (h : kvlineEncode flags lines = .ok s) : kvlineParse flags s = .ok (lines.map ConfigLine.normal) := by
  obtain ⟨-, hflags, hcan, es, hes, rfl⟩ := of_kvlineEncode h
  have hlines : ∀ line ∈ lines, canEncodeLine flags line = true := List.all_eq_true.mp hcan
  have hreads : List.Forall₂ (Reads flags) lines es := by
    refine ((List.forall₂_and_left _ _).mpr ⟨fun line hline => hline, forall₂_of_mapM lines hes⟩).imp ?_
    rintro line e ⟨hline, he⟩
    exact reads_encodeElement hraw hflags (hlines line hline) (hnul line hline) he
  have hagain : kvlineCanEncodeLines flags (lines.map ConfigLine.normal) = true := by
    rw [kvlineCanEncodeLines, List.all_map]
    exact hcan
  rw [kvlineParse, torAssert_of hflags, ok_bind, torAssert_of (by simp [hraw]), ok_bind,
    kvlineLoop_elements hreads (by rintro _ ⟨⟩) (Or.inr rfl), ok_bind, hagain]
  simp
  rfl

/-- **What was read can be written**, if it is not too long for `esc_for_log`. -/
theorem kvlineEncode_of_kvlineParse (hqstring : flags.quotedQstring = false)
    (h : kvlineParse flags s = .ok lines) : kvlineCanEncodeLines flags lines = true ∧
      ((∀ line ∈ lines, 3 + (line.value.map escLen).sum ≤ ssizeMax) →
        ∃ s', kvlineEncode flags lines = .ok s') := by
  obtain ⟨_, hflags, h⟩ := bind_eq_ok.mp h
  obtain ⟨_, hraw, h⟩ := bind_eq_ok.mp h
  obtain ⟨result, -, h⟩ := bind_eq_ok.mp h
  have hflags := of_torAssert hflags
  have hraw := of_torAssert hraw
  split_ifs at h with hcan
  · cases h
  · cases h
    have hcan : kvlineCanEncodeLines flags lines = true := by simpa [hqstring] using hcan
    refine ⟨hcan, fun hsize => ?_⟩
    have helement : ∀ line ∈ lines, ∃ e, encodeElement flags line = .ok e := by
      intro line hline
      have hvalue : ∃ v, encodeValue flags line = .ok v := by
        unfold encodeValue
        split_ifs
        · exact ⟨_, (escForLog_eq _).trans (if_pos (hsize line hline))⟩
        · exact ⟨_, rfl⟩
      obtain ⟨v, hv⟩ := hvalue
      unfold encodeElement
      split_ifs
      · exact ⟨_, rfl⟩
      · exact ⟨_, by rw [hv]; rfl⟩
      · exact ⟨_, by rw [hv]; rfl⟩
    obtain ⟨es, hes⟩ := mapM_ok_of_forall lines helement
    have hboth : ¬(flags.quoted ∧ flags.raw) := fun hboth => hraw hboth.2
    refine ⟨[0x20].intercalate es, ?_⟩
    rw [kvlineEncode, torAssert_of (by simp [hqstring]), ok_bind, torAssert_of hflags, ok_bind,
      torAssert_of hboth, ok_bind, if_pos hcan, hes]
    rfl

/-- Nor does `kvline_parse` ever find that it made none. -/
theorem kvlineParse_ne_noProgress (s : List UInt8) : kvlineParse flags s ≠ reject .noProgress := by
  intro h
  have hloop : kvlineLoop flags s none ≠ reject .noProgress := kvlineLoop_ne_noProgress nofun
  unfold kvlineParse at h
  by_cases hflags : ¬(flags.omitKeys ∧ flags.omitVals)
  · by_cases hraw : ¬flags.raw
    · rw [torAssert_of hflags, ok_bind, torAssert_of hraw, ok_bind] at h
      cases hresult : kvlineLoop flags s none with
      | ok result =>
        rw [hresult, ok_bind] at h
        split_ifs at h
        · cases h
        · cases h
      | error stop =>
        rw [hresult] at h hloop
        exact hloop (by cases h; rfl)
    · rw [torAssert_of hflags, ok_bind, torAssert_of_not hraw] at h
      cases h
  · rw [torAssert_of_not hflags] at h
    cases h

/-- No assertion fails on allowed flags, but for quoted strings of more than `INT_MAX` characters. -/
theorem noFault_kvlineParse (hflags : ¬(flags.omitKeys ∧ flags.omitVals)) (hraw : flags.raw = false)
    (h : flags.quoted = true ∨ s.length ≤ intMax ∨ flags.quotedQstring = false) :
    NoFault (kvlineParse flags s) := by
  rw [kvlineParse, torAssert_of hflags, ok_bind, torAssert_of (by simp [hraw]), ok_bind, noFault_bind]
  refine ⟨noFault_kvlineLoop h, fun result _ => ?_⟩
  split_ifs
  · exact noFault_reject _
  · exact noFault_ok _

/-- **Lines of keys and values round trip.**  What `kvline_encode` writes, `kvline_parse` reads back with the
same flags; on any string it ends without having made no progress, and what it accepts can be written again
(with the exception of values that are too long for `esc_for_log`). -/
theorem kvline_roundTrip (flags : KvFlags) :
    (flags.raw = false → ∀ lines s, (∀ line ∈ lines, ∀ c ∈ line.value, c ≠ 0) →
      kvlineEncode flags lines = .ok s → kvlineParse flags s = .ok (lines.map ConfigLine.normal)) ∧
    (∀ s, kvlineParse flags s ≠ reject .noProgress) ∧
    (¬(flags.omitKeys ∧ flags.omitVals) → flags.raw = false → ∀ s : List UInt8,
      (flags.quoted = true ∨ s.length ≤ intMax ∨ flags.quotedQstring = false) →
        NoFault (kvlineParse flags s)) ∧
    (flags.quotedQstring = false → ∀ s lines, kvlineParse flags s = .ok lines →
      kvlineCanEncodeLines flags lines = true ∧
        ((∀ line ∈ lines, 3 + (line.value.map escLen).sum ≤ ssizeMax) →
          ∃ s', kvlineEncode flags lines = .ok s')) :=
  ⟨fun hraw _ _ => kvlineParse_kvlineEncode hraw, kvlineParse_ne_noProgress,
    fun hflags hraw _ => noFault_kvlineParse hflags hraw,
    fun hqstring _ _ => kvlineEncode_of_kvlineParse hqstring⟩

/-- A pair and a value with a space, with `KV_QUOTED | KV_OMIT_KEYS`. -/
theorem kvline_roundTrip_pair :
    kvlineParse ⟨true, true, false, false, false⟩
      [0x61, 0x3d, 0x62, 0x20, 0x22, 0x63, 0x20, 0x64, 0x22] =
        .ok [⟨some [0x61], [0x62]⟩, ⟨some [], [0x63, 0x20, 0x64]⟩] ∧
    NoFault (kvlineParse ⟨true, true, false, false, false⟩ [0x61, 0x20]) ∧
    ∃ s', kvlineEncode ⟨true, true, false, false, false⟩
      [⟨some [0x61], [0x62]⟩, ⟨some [], [0x63, 0x20, 0x64]⟩] = .ok s' := by
  have hencode : kvlineEncode ⟨true, true, false, false, false⟩
      [⟨some [0x61], [0x62]⟩, ⟨none, [0x63, 0x20, 0x64]⟩] =
        .ok [0x61, 0x3d, 0x62, 0x20, 0x22, 0x63, 0x20, 0x64, 0x22] := by
    decide +kernel
  have hparse := (kvline_roundTrip ⟨true, true, false, false, false⟩).1 rfl
    [⟨some [0x61], [0x62]⟩, ⟨none, [0x63, 0x20, 0x64]⟩] _ (by simp) hencode
  have hsize : ∀ line ∈ [(⟨some [0x61], [0x62]⟩ : ConfigLine), ⟨some [], [0x63, 0x20, 0x64]⟩],
      3 + (line.value.map escLen).sum ≤ ssizeMax := by
    simp [escLen, isPlain, ssizeMax]
  exact ⟨hparse, (kvline_roundTrip _).2.2.1 (by simp) rfl _ (Or.inl rfl),
    ((kvline_roundTrip ⟨true, true, false, false, false⟩).2.2.2 rfl _ _ hparse).2 hsize⟩

end TorEbpf.Encoding
