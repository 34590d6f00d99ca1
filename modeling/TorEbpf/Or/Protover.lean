import TorEbpf.Strings.ParseInt

/-!
# Protocol lists

A relay lists the protocols that it speaks as `Name=ranges` entries, with spaces between them; the ranges
say which of the versions 0 to 63 it speaks, and are kept as a bitmask.  The parser works on one string with
pointers to the end of an entry or of a range inside it; a pointer is modelled by the rest of the string,
and an end by its distance.

* `getLsbD_bitmaskForRange` — the mask of a range;
* `parseVersionRange_iff`, `parseRanges_iff`, `parseSingleEntry_iff` — what is accepted up to an end inside
  a longer string;
* `parseProtocolList_iff` — what is accepted as a list.
-/

namespace TorEbpf.Or.Protover

open TorEbpf.Lib TorEbpf.Strings

/-! ### The parser -/

/-- The characters with a meaning. -/
def equals : UInt8 := 61
def space : UInt8 := 32
def comma : UInt8 := 44
def hyphen : UInt8 := 45

/-- `MAX_PROTOCOL_NAME_LENGTH` and `MAX_PROTOCOL_VERSION`. -/
def maxProtocolNameLength : ℕ := 100
def maxProtocolVersion : ℕ := 63

structure ProtoEntry where
  name : List UInt8
  bitmask : BitVec 64
  deriving DecidableEq, Repr

/-- `memchr`: how far the first such character is away, among the first `n`. -/
def memchr (c : UInt8) (s : List UInt8) (n : ℕ) : Option ℕ :=
  let before := (s.take n).takeWhile (· ≠ c)
  if before.length < (s.take n).length then some before.length else none

/-- `TOR_ISDIGIT(*s)`. -/
def startsWithDigit (s : List UInt8) : Bool := s.head?.any isDigit

/-- `parse_version_range` behind the hyphen; the end of the range is `n` characters away. -/
def parseRangeEnd (low : ℕ) (s : List UInt8) (n : ℕ) : Option (ℕ × ℕ) :=
  if startsWithDigit s = false then none
  else
    match torParseUlong s 0 maxProtocolVersion with
    | none => none
    | some (high, next) =>
        if s.length - next.length ≠ n then none
        else if high < low then none
        else some (low, high)

/-- `parse_version_range`; the end of the range is `n` characters away. -/
def parseVersionRange (s : List UInt8) (n : ℕ) : Option (ℕ × ℕ) :=
  if startsWithDigit s = false then none
  else
    match torParseUlong s 0 maxProtocolVersion with
    | none => none
    | some (low, next) =>
        let used := s.length - next.length
        if n < used then none
        else if used = n then some (low, low)
        else if next.head? ≠ some hyphen then none
        else parseRangeEnd low next.tail (n - used - 1)

/-- `TOR_ISALNUM`. -/
def isAlnum (c : UInt8) : Bool := isDigit c || (65 ≤ c && c ≤ 90) || (97 ≤ c && c ≤ 122)

def isValidKeyword (s : List UInt8) : Bool := s.all fun c => isAlnum c || c == hyphen

def bitmaskForRange (low high : ℕ) : BitVec 64 :=
  let mask := ~~~(0 : BitVec 64)
  let mask := mask <<< (63 - high)
  let mask := mask >>> (63 - high + low)
  mask <<< low

/-- The loop of `parse_single_entry`; a step for each range, and one to see that the end is reached. -/
def parseRanges : ℕ → List UInt8 → ℕ → BitVec 64 → Option (BitVec 64)
  | 0, _, _, _ => none
  | fuel + 1, s, n, bitmask =>
      if n = 0 then some bitmask
      else
        let c := (memchr comma s n).getD n
        match parseVersionRange s c with
        | none => none
        | some (low, high) =>
            let bitmask := bitmask ||| bitmaskForRange low high
            -- the comma is skipped unless it is the last character
            if 1 < n - c then parseRanges fuel (s.drop (c + 1)) (n - c - 1) bitmask
            else parseRanges fuel (s.drop c) (n - c) bitmask

/-- `parse_single_entry`; the end of the entry is `n` characters away. -/
def parseSingleEntry (s : List UInt8) (n : ℕ) : Option ProtoEntry :=
  match memchr equals s n with
  | none => none
  | some e =>
      if e = 0 then none
      else if maxProtocolNameLength < e then none
      else if isValidKeyword (s.take e) = false then none
      else
        match parseRanges (n - e) (s.drop (e + 1)) (n - e - 1) 0 with
        | none => none
        | some bitmask => some ⟨s.take e, bitmask⟩

/-- The loop of `parse_protocol_list`; a step for each entry, and one to see that the end is reached. -/
def parseEntries : ℕ → List UInt8 → Option (List ProtoEntry)
  | 0, _ => none
  | fuel + 1, s =>
      if s = [] then some []
      else
        let n := (memchr space s s.length).getD s.length
        match parseSingleEntry s n with
        | none => none
        | some entry => (parseEntries fuel ((s.drop n).dropWhile (· = space))).map (entry :: ·)

def parseProtocolList (s : List UInt8) : Option (List ProtoEntry) := parseEntries (s.length + 1) s

/-! ### The grammar -/

structure IsVersion (l : List UInt8) (v : ℕ) : Prop where
  nonempty : l ≠ []
  digits : ∀ c ∈ l, isDigit c = true
  value : decimalValue l = v
  le : v ≤ maxProtocolVersion

/-- `U` or `U-V`. -/
inductive IsRange : List UInt8 → ℕ → ℕ → Prop where
  | single {l : List UInt8} {v : ℕ} (hl : IsVersion l v) : IsRange l v v
  | pair {l l' : List UInt8} {low high : ℕ} (hl : IsVersion l low) (hl' : IsVersion l' high)
      (hle : low ≤ high) : IsRange (l ++ hyphen :: l') low high

/-- Ranges with commas between them, one at least, and their mask. -/
inductive IsRanges : List UInt8 → BitVec 64 → Prop where
  | one {l : List UInt8} {low high : ℕ} (hl : IsRange l low high) : IsRanges l (bitmaskForRange low high)
  | cons {l l' : List UInt8} {low high : ℕ} {bitmask : BitVec 64} (hl : IsRange l low high)
      (hl' : IsRanges l' bitmask) : IsRanges (l ++ comma :: l') (bitmaskForRange low high ||| bitmask)

/-- What may be behind the equals sign. -/
def IsRangeList (l : List UInt8) (bitmask : BitVec 64) : Prop := l = [] ∧ bitmask = 0 ∨ IsRanges l bitmask

/-- A name: alphanumeric characters and hyphens, 1 to 100 of them. -/
def IsName (name : List UInt8) : Prop :=
  name ≠ [] ∧ name.length ≤ maxProtocolNameLength ∧ isValidKeyword name = true

/-- `name=ranges`. -/
def IsEntry (l : List UInt8) (entry : ProtoEntry) : Prop :=
  IsName entry.name ∧ ∃ r, l = entry.name ++ equals :: r ∧ IsRangeList r entry.bitmask

/-- Entries with one or more spaces between them, and any number of spaces behind the last one. -/
inductive IsList : List UInt8 → List ProtoEntry → Prop where
  | nil : IsList [] []
  | last {l : List UInt8} {entry : ProtoEntry} (hl : IsEntry l entry) (k : ℕ) :
      IsList (l ++ List.replicate k space) [entry]
  | cons {l l' : List UInt8} {entry : ProtoEntry} {entries : List ProtoEntry} (hl : IsEntry l entry) {k : ℕ}
      (hk : 0 < k) (hne : l' ≠ []) (hl' : IsList l' entries) :
      IsList (l ++ List.replicate k space ++ l') (entry :: entries)

/-! ### Masks -/

/-- **The mask of a range.** -/
theorem getLsbD_bitmaskForRange {low high i : ℕ} (hle : low ≤ high) (hhigh : high ≤ 63) (hi : i < 64) :
    (bitmaskForRange low high).getLsbD i = decide (low ≤ i ∧ i ≤ high) := by
  unfold bitmaskForRange
  dsimp only
  rw [BitVec.getLsbD_shiftLeft, BitVec.getLsbD_ushiftRight, BitVec.getLsbD_shiftLeft, BitVec.getLsbD_not]
  simp only [BitVec.ofNat_eq_ofNat, BitVec.getLsbD_zero, Bool.not_false, Bool.and_true]
  rw [Bool.eq_iff_iff]
  simp only [Bool.and_eq_true, Bool.not_eq_true', decide_eq_true_eq, decide_eq_false_iff_not]
  omega

/-! ### Numbers inside a longer string -/

section Numbers

variable {l d t s rest : List UInt8} {c : UInt8} {n a b v : ℕ}

/-- What follows a number is not a digit. -/
def EndsNumber (rest : List UInt8) : Prop := ∀ c ∈ rest.head?, isDigit c = false

theorem isDigit_iff : isDigit c = true ↔ 48 ≤ c.toNat ∧ c.toNat ≤ 57 := by
  rw [isDigit, Bool.and_eq_true, decide_eq_true_eq, decide_eq_true_eq, UInt8.le_iff_toNat_le,
    UInt8.le_iff_toNat_le]
  rfl

theorem takeWhile_append_digits (hd : ∀ c ∈ d, isDigit c = true) (hrest : EndsNumber rest) :
    (d ++ rest).takeWhile isDigit = d ∧ (d ++ rest).dropWhile isDigit = rest := by
  induction d with
  | nil =>
    cases rest with
    | nil => exact ⟨rfl, rfl⟩
    | cons c rest =>
      have hc := hrest c rfl
      exact ⟨by rw [List.nil_append, List.takeWhile_cons, hc]; rfl,
        by rw [List.nil_append, List.dropWhile_cons, hc]; rfl⟩
  | cons c d ih =>
    obtain ⟨htake, hdrop⟩ := ih fun c' hc' => hd c' (List.mem_cons_of_mem c hc')
    have hc := hd c List.mem_cons_self
    rw [List.cons_append, List.takeWhile_cons, List.dropWhile_cons, hc]
    exact ⟨congrArg (c :: ·) htake, hdrop⟩

/-- **Reading** the digits at the start of a string. -/
theorem torParseUlong_digits (hne : d ≠ []) (hd : ∀ c ∈ d, isDigit c = true) (hrest : EndsNumber rest) :
    torParseUlong (d ++ rest) 0 maxProtocolVersion =
      if decimalValue d ≤ maxProtocolVersion then some (decimalValue d, rest) else none := by
  obtain ⟨htake, hdrop⟩ := takeWhile_append_digits hd hrest
  have hread : readDecimal (d ++ rest) = some (decimalValue d, rest) := by
    unfold readDecimal
    rw [htake, hdrop]
    cases d with
    | nil => exact absurd rfl hne
    | cons c d => rfl
  have hnumber : strtoNumber (d ++ rest) = some (false, decimalValue d, rest) := by
    cases d with
    | nil => exact absurd rfl hne
    | cons c d =>
      have hc := isDigit_iff.mp (hd c List.mem_cons_self)
      have hspace : isSpace c = false := by
        rw [isSpace, Bool.or_eq_false_iff, decide_eq_false_iff_not, Bool.and_eq_false_iff,
          decide_eq_false_iff_not, decide_eq_false_iff_not, ← UInt8.toNat_inj, UInt8.le_iff_toNat_le,
          UInt8.le_iff_toNat_le]
        have hsp : (32 : UInt8).toNat = 32 := rfl
        have hcr : (13 : UInt8).toNat = 13 := rfl
        rw [hsp, hcr]
        omega
      have hsign : sign (c :: (d ++ rest)) = (false, c :: (d ++ rest)) := by
        unfold sign
        split
        · rename_i heq
          cases heq
          exact absurd hc.1 (by decide)
        · rename_i heq
          cases heq
          exact absurd hc.1 (by decide)
        · rfl
      rw [List.cons_append] at hread
      unfold strtoNumber
      rw [List.cons_append, List.dropWhile_cons, hspace, if_neg Bool.false_ne_true, hsign]
      dsimp only
      rw [hread]
      rfl
  unfold torParseUlong
  rw [hnumber]
  dsimp only
  rw [if_neg Bool.false_ne_true]
  by_cases hle : decimalValue d ≤ maxProtocolVersion
  · have hsmall : decimalValue d ≤ 63 := hle
    rw [if_neg (by omega), if_neg (by omega), if_pos hle]
  · have hlarge : ¬decimalValue d ≤ 63 := hle
    split_ifs with hsize hrange
    · rfl
    · rfl
    · exact absurd (Nat.le_of_not_lt fun hlt => hrange (.inr hlt)) hlarge

theorem startsWithDigit_append (hrest : EndsNumber rest) :
    startsWithDigit (l ++ rest) = true ↔ l.takeWhile isDigit ≠ [] := by
  cases l with
  | nil =>
    cases rest with
    | nil => exact iff_of_false Bool.false_ne_true fun h => h rfl
    | cons c rest =>
      have hc : startsWithDigit (c :: rest) = false := hrest c rfl
      rw [List.nil_append, hc]
      exact iff_of_false Bool.false_ne_true fun h => h rfl
  | cons c l =>
    have hstart : startsWithDigit (c :: l ++ rest) = isDigit c := rfl
    rw [hstart, List.takeWhile_cons]
    cases isDigit c with
    | false => exact iff_of_false Bool.false_ne_true fun h => h rfl
    | true => exact iff_of_true rfl nofun

/-- What follows the digits of a text does not start with a digit. -/
theorem endsNumber_dropWhile (l : List UInt8) (hrest : EndsNumber rest) :
    EndsNumber (l.dropWhile isDigit ++ rest) := by
  induction l with
  | nil => exact hrest
  | cons c l ih =>
    rw [List.dropWhile_cons]
    cases hc : isDigit c with
    | true => exact ih
    | false =>
      intro c' hc'
      cases hc'
      exact hc

/-- Reading a version from a text that is followed by something else. -/
theorem torParseUlong_append (hne : l.takeWhile isDigit ≠ []) (hrest : EndsNumber rest) :
    torParseUlong (l ++ rest) 0 maxProtocolVersion =
      if decimalValue (l.takeWhile isDigit) ≤ maxProtocolVersion then
        some (decimalValue (l.takeWhile isDigit), l.dropWhile isDigit ++ rest)
      else none := by
  have hread := torParseUlong_digits hne (fun _ hc => List.mem_takeWhile_imp hc) (endsNumber_dropWhile l hrest)
  rwa [← List.append_assoc, List.takeWhile_append_dropWhile] at hread

/-- A version is digits up to its end. -/
theorem isVersion_iff : IsVersion l v ↔
    l.takeWhile isDigit ≠ [] ∧ l.dropWhile isDigit = [] ∧ decimalValue (l.takeWhile isDigit) = v ∧
      v ≤ maxProtocolVersion := by
  constructor
  · intro h
    obtain ⟨htake, hdrop⟩ := @takeWhile_append_digits l [] h.digits nofun
    rw [List.append_nil] at htake hdrop
    rw [htake]
    exact ⟨h.nonempty, hdrop, h.value, h.le⟩
  · intro ⟨hne, hdrop, hvalue, hle⟩
    have hl : l.takeWhile isDigit = l := by
      have hsplit := List.takeWhile_append_dropWhile (p := isDigit) (l := l)
      rwa [hdrop, List.append_nil] at hsplit
    rw [hl] at hne hvalue
    refine ⟨hne, fun c hc => ?_, hvalue, hle⟩
    rw [← hl] at hc
    exact List.mem_takeWhile_imp hc

theorem length_sub_dropWhile : (l ++ rest).length - (l.dropWhile isDigit ++ rest).length
    = (l.takeWhile isDigit).length := by
  have hsplit := congrArg List.length (List.takeWhile_append_dropWhile (p := isDigit) (l := l))
  rw [List.length_append] at hsplit
  rw [List.length_append, List.length_append]
  omega

theorem length_takeWhile_eq_iff : (l.takeWhile isDigit).length = l.length ↔ l.dropWhile isDigit = [] := by
  have hsplit := congrArg List.length (List.takeWhile_append_dropWhile (p := isDigit) (l := l))
  rw [List.length_append] at hsplit
  rw [← List.length_eq_zero_iff]
  omega

/-- **Behind the hyphen**, up to the end. -/
theorem parseRangeEnd_iff (hrest : EndsNumber rest) {low : ℕ} :
    parseRangeEnd low (l ++ rest) l.length = some (a, b) ↔ a = low ∧ IsVersion l b ∧ low ≤ b := by
  unfold parseRangeEnd
  by_cases hne : l.takeWhile isDigit = []
  · have hstart : startsWithDigit (l ++ rest) = false :=
      Bool.eq_false_of_not_eq_true fun h => (startsWithDigit_append hrest).mp h hne
    rw [if_pos hstart]
    exact iff_of_false nofun fun h => (isVersion_iff.mp h.2.1).1 hne
  · have hstart := (startsWithDigit_append hrest).mpr hne
    rw [if_neg (by rw [hstart]; decide), torParseUlong_append hne hrest,
      isVersion_iff]
    by_cases hmax : decimalValue (l.takeWhile isDigit) ≤ maxProtocolVersion
    · rw [if_pos hmax]
      dsimp only
      rw [length_sub_dropWhile]
      by_cases hend : l.dropWhile isDigit = []
      · rw [if_neg (not_not.mpr (length_takeWhile_eq_iff.mpr hend))]
        split_ifs with hlt
        · refine iff_of_false nofun fun ⟨_, ⟨_, _, hvalue, _⟩, hle⟩ => ?_
          omega
        · constructor
          · intro h
            cases h
            exact ⟨rfl, ⟨hne, hend, rfl, hmax⟩, Nat.le_of_not_lt hlt⟩
          · rintro ⟨rfl, ⟨_, _, rfl, _⟩, _⟩
            rfl
      · rw [if_pos fun h => hend (length_takeWhile_eq_iff.mp h)]
        exact iff_of_false nofun fun h => hend h.2.1.2.1
    · rw [if_neg hmax]
      refine iff_of_false nofun fun ⟨_, ⟨_, _, hvalue, hle⟩, _⟩ => ?_
      exact hmax (hvalue ▸ hle)

/-- A range starts with a version, and either that is all or a hyphen and another version follow. -/
theorem isRange_iff : IsRange l a b ↔
    l.takeWhile isDigit ≠ [] ∧ decimalValue (l.takeWhile isDigit) = a ∧ a ≤ maxProtocolVersion ∧
      (l.dropWhile isDigit = [] ∧ b = a ∨
        ∃ l', l.dropWhile isDigit = hyphen :: l' ∧ IsVersion l' b ∧ a ≤ b) := by
  constructor
  · intro h
    cases h with
    | single hl =>
      obtain ⟨hne, hdrop, hvalue, hle⟩ := isVersion_iff.mp hl
      exact ⟨hne, hvalue, hle, .inl ⟨hdrop, rfl⟩⟩
    | @pair l₁ l₂ _ _ hl hl' hle =>
      have hends : EndsNumber (hyphen :: l₂) := by
        intro c hc
        cases hc
        rfl
      obtain ⟨htake, hdrop⟩ := takeWhile_append_digits hl.digits hends
      rw [htake, hdrop]
      exact ⟨hl.nonempty, hl.value, hl.le, .inr ⟨l₂, rfl, hl', hle⟩⟩
  · rintro ⟨hne, hvalue, hle, ⟨hdrop, rfl⟩ | ⟨l', hdrop, hl', hab⟩⟩
    · exact .single (isVersion_iff.mpr ⟨hne, hdrop, hvalue, hle⟩)
    · have hsplit := List.takeWhile_append_dropWhile (p := isDigit) (l := l)
      rw [hdrop] at hsplit
      rw [← hsplit]
      exact .pair ⟨hne, fun _ hc => List.mem_takeWhile_imp hc, hvalue, hle⟩ hl' hab

/-- **Ranges** are read up to an end inside a longer string. -/
theorem parseVersionRange_iff (hrest : EndsNumber rest) :
    parseVersionRange (l ++ rest) l.length = some (a, b) ↔ IsRange l a b := by
  rw [isRange_iff]
  unfold parseVersionRange
  by_cases hne : l.takeWhile isDigit = []
  · have hstart : startsWithDigit (l ++ rest) = false :=
      Bool.eq_false_of_not_eq_true fun h => (startsWithDigit_append hrest).mp h hne
    rw [if_pos hstart]
    exact iff_of_false nofun fun h => h.1 hne
  · have hstart := (startsWithDigit_append hrest).mpr hne
    rw [if_neg (by rw [hstart]; decide), torParseUlong_append hne hrest]
    by_cases hmax : decimalValue (l.takeWhile isDigit) ≤ maxProtocolVersion
    · have hlen := congrArg List.length (List.takeWhile_append_dropWhile (p := isDigit) (l := l))
      rw [List.length_append] at hlen
      rw [if_pos hmax]
      dsimp only
      rw [length_sub_dropWhile, if_neg (by omega)]
      cases hdrop : l.dropWhile isDigit with
      | nil =>
        rw [if_pos (length_takeWhile_eq_iff.mpr hdrop)]
        constructor
        · intro h
          cases h
          exact ⟨hne, rfl, hmax, .inl ⟨rfl, rfl⟩⟩
        · rintro ⟨_, rfl, _, ⟨_, rfl⟩ | ⟨l', heq, _⟩⟩
          · rfl
          · cases heq
      | cons c l' =>
        rw [hdrop, List.length_cons] at hlen
        rw [if_neg (by omega), List.cons_append, List.head?_cons, List.tail_cons]
        by_cases hc : c = hyphen
        · have hn : l.length - (l.takeWhile isDigit).length - 1 = l'.length := by omega
          rw [if_neg (not_not.mpr (congrArg some hc)), hn, parseRangeEnd_iff hrest]
          constructor
          · rintro ⟨rfl, hl', hab⟩
            exact ⟨hne, rfl, hmax, .inr ⟨l', by rw [hc], hl', hab⟩⟩
          · rintro ⟨_, rfl, _, ⟨heq, _⟩ | ⟨l'', heq, hl', hab⟩⟩
            · cases heq
            · cases heq
              exact ⟨rfl, hl', hab⟩
        · rw [if_pos fun heq => hc (Option.some.inj heq)]
          refine iff_of_false nofun ?_
          rintro ⟨_, _, _, ⟨heq, _⟩ | ⟨l'', heq, _⟩⟩
          · cases heq
          · cases heq
            exact hc rfl
    · rw [if_neg hmax]
      refine iff_of_false nofun fun ⟨_, hvalue, hle, _⟩ => ?_
      exact hmax (hvalue ▸ hle)

end Numbers

/-! ### Splitting at a character -/

section Splitting

variable {l l' l₁ l₂ rest : List UInt8} {c : UInt8}

theorem takeWhile_ne_append (hc : c ∉ l₁) : (l₁ ++ c :: l₂).takeWhile (· ≠ c) = l₁ := by
  induction l₁ with
  | nil => rw [List.nil_append, List.takeWhile_cons, if_neg (by simp)]
  | cons a l₁ ih =>
    have ha : a ≠ c := fun h => hc (h ▸ List.mem_cons_self)
    rw [List.cons_append, List.takeWhile_cons, if_pos (by simpa using ha),
      ih fun h => hc (List.mem_cons_of_mem a h)]

theorem takeWhile_ne_of_not_mem (hc : c ∉ l) : l.takeWhile (· ≠ c) = l := by
  rw [List.takeWhile_eq_self_iff]
  intro a ha
  simpa using fun h : a = c => hc (h ▸ ha)

/-- The part before the first such character is determined. -/
theorem append_cons_inj (hc : c ∉ l) (hc₁ : c ∉ l₁) (h : l ++ c :: l' = l₁ ++ c :: l₂) :
    l = l₁ ∧ l' = l₂ := by
  have htake := congrArg (List.takeWhile (· ≠ c)) h
  rw [takeWhile_ne_append hc, takeWhile_ne_append hc₁] at htake
  rw [htake] at h
  exact ⟨htake, (List.cons.inj (List.append_cancel_left h)).2⟩

theorem memchr_append_of_not_mem (hc : c ∉ l) (rest : List UInt8) :
    memchr c (l ++ rest) l.length = none := by
  unfold memchr
  dsimp only
  rw [List.take_left, takeWhile_ne_of_not_mem hc, if_neg (Nat.lt_irrefl _)]

theorem memchr_append (hc : c ∉ l₁) (rest : List UInt8) :
    memchr c (l₁ ++ c :: l₂ ++ rest) (l₁ ++ c :: l₂).length = some l₁.length := by
  unfold memchr
  dsimp only
  rw [List.take_left, takeWhile_ne_append hc, if_pos]
  rw [List.length_append, List.length_cons]
  omega

end Splitting

/-! ### Ranges and entries -/

section Entries

variable {l l' l₁ l₂ rest : List UInt8} {c : UInt8} {n a b : ℕ} {bitmask bitmask' : BitVec 64}
  {entry : ProtoEntry}

theorem not_isDigit_comma : isDigit comma = false := by decide

theorem endsNumber_cons (hc : isDigit c = false) : EndsNumber (c :: rest) := by
  intro c' hc'
  cases hc'
  exact hc

theorem mem_of_isRange (h : IsRange l a b) (hc : c ∈ l) : isDigit c = true ∨ c = hyphen := by
  cases h with
  | single hl => exact .inl (hl.digits c hc)
  | pair hl hl' _ =>
    rcases List.mem_append.mp hc with hc | hc
    · exact .inl (hl.digits c hc)
    · rcases List.mem_cons.mp hc with hc | hc
      · exact .inr hc
      · exact .inl (hl'.digits c hc)

theorem IsRange.ne_nil (h : IsRange l a b) : l ≠ [] := by
  cases h with
  | single hl => exact hl.nonempty
  | pair _ _ _ => exact fun hnil => List.cons_ne_nil _ _ (List.append_eq_nil_iff.mp hnil).2

theorem IsRange.le (h : IsRange l a b) : a ≤ b ∧ b ≤ 63 := by
  cases h with
  | single hl => exact ⟨Nat.le_refl _, hl.le⟩
  | pair _ hl' hle => exact ⟨hle, hl'.le⟩

theorem comma_not_mem (h : IsRange l a b) : comma ∉ l := by
  intro hc
  rcases mem_of_isRange h hc with hd | heq
  · exact absurd hd (by decide)
  · exact absurd heq (by decide)

theorem IsRanges.ne_nil (h : IsRanges l bitmask) : l ≠ [] := by
  cases h with
  | one hl => exact hl.ne_nil
  | cons _ _ => exact fun hnil => List.cons_ne_nil _ _ (List.append_eq_nil_iff.mp hnil).2

theorem isRanges_iff_of_not_mem (hc : comma ∉ l) :
    IsRanges l bitmask ↔ ∃ a b, IsRange l a b ∧ bitmask = bitmaskForRange a b := by
  constructor
  · intro h
    cases h with
    | one hl => exact ⟨_, _, hl, rfl⟩
    | cons _ _ => exact absurd (List.mem_append_right _ List.mem_cons_self) hc
  · rintro ⟨a, b, hl, rfl⟩
    exact .one hl

/-- Ranges with a comma are one range before the first comma, and ranges behind it. -/
theorem isRanges_append_iff (hc : comma ∉ l₁) :
    IsRanges (l₁ ++ comma :: l₂) bitmask ↔
      ∃ a b bitmask', IsRange l₁ a b ∧ IsRanges l₂ bitmask' ∧ bitmask = bitmaskForRange a b ||| bitmask' := by
  constructor
  · intro h
    generalize hl : l₁ ++ comma :: l₂ = l at h
    cases h with
    | one hrange =>
      rw [← hl] at hrange
      exact absurd (List.mem_append_right _ List.mem_cons_self) (comma_not_mem hrange)
    | cons hrange hrest =>
      obtain ⟨rfl, rfl⟩ := append_cons_inj hc (comma_not_mem hrange) hl
      exact ⟨_, _, _, hrange, hrest, rfl⟩
  · rintro ⟨a, b, bitmask', hrange, hrest, rfl⟩
    exact .cons hrange hrest

theorem parseRanges_comma (fuel : ℕ) : parseRanges fuel (comma :: rest) 1 bitmask = none := by
  cases fuel with
  | zero => rfl
  | succ fuel =>
    have hc : memchr comma (comma :: rest) 1 = some 0 :=
      @memchr_append [] [] comma (List.not_mem_nil) rest
    rw [parseRanges, if_neg Nat.one_ne_zero, hc]
    rfl

theorem parseRanges_step {fuel c : ℕ} (s : List UInt8) (hn : n ≠ 0) (hc : (memchr comma s n).getD n = c) :
    parseRanges (fuel + 1) s n bitmask = some bitmask' ↔
      ∃ a b, parseVersionRange s c = some (a, b) ∧
        (if 1 < n - c then
          parseRanges fuel (s.drop (c + 1)) (n - c - 1) (bitmask ||| bitmaskForRange a b)
        else parseRanges fuel (s.drop c) (n - c) (bitmask ||| bitmaskForRange a b)) = some bitmask' := by
  rw [parseRanges, if_neg hn, hc]
  dsimp only
  cases hrange : parseVersionRange s c with
  | none =>
    refine iff_of_false nofun ?_
    rintro ⟨a, b, hab, _⟩
    cases hab
  | some range =>
    obtain ⟨low, high⟩ := range
    constructor
    · intro h
      exact ⟨low, high, rfl, h⟩
    · rintro ⟨a, b, hab, h⟩
      cases hab
      exact h

/-- **The loop over the ranges.** -/
theorem parseRanges_iff (hrest : EndsNumber rest) {fuel : ℕ} (hfuel : l.length < fuel) :
    parseRanges fuel (l ++ rest) l.length bitmask = some bitmask' ↔
      ∃ m, IsRangeList l m ∧ bitmask' = bitmask ||| m := by
  induction fuel generalizing l bitmask with
  | zero => exact absurd hfuel (Nat.not_lt_zero _)
  | succ fuel ih =>
    by_cases hnil : l = []
    · rw [parseRanges, hnil, List.length_nil, if_pos rfl]
      constructor
      · intro h
        cases h
        exact ⟨0, .inl ⟨rfl, rfl⟩, BitVec.or_zero.symm⟩
      · rintro ⟨m, ⟨_, hm⟩ | hm, hor⟩
        · rw [hor, hm]
          exact congrArg some BitVec.or_zero.symm
        · exact absurd rfl hm.ne_nil
    have hlen : l.length ≠ 0 := fun h => hnil (List.length_eq_zero_iff.mp h)
    have hlist : ∀ m, IsRangeList l m ↔ IsRanges l m := fun m =>
      ⟨fun h => h.resolve_left fun h => hnil h.1, .inr⟩
    simp only [hlist]
    by_cases hc : comma ∈ l
    · obtain ⟨l₁, l₂, rfl, hc₁⟩ := List.eq_append_cons_of_mem hc
      have hget : (memchr comma (l₁ ++ comma :: l₂ ++ rest) (l₁ ++ comma :: l₂).length).getD
          (l₁ ++ comma :: l₂).length = l₁.length := by
        rw [memchr_append hc₁]
        rfl
      have hleft : (l₁ ++ comma :: l₂).length - l₁.length = l₂.length + 1 := by
        rw [List.length_append, List.length_cons]
        omega
      have hdrop : (l₁ ++ comma :: l₂ ++ rest).drop l₁.length = comma :: (l₂ ++ rest) := by
        rw [List.append_assoc, List.drop_left]
        rfl
      have hdrop' : (l₁ ++ comma :: l₂ ++ rest).drop (l₁.length + 1) = l₂ ++ rest := by
        rw [← List.drop_drop, hdrop]
        rfl
      have hread : ∀ a b, parseVersionRange (l₁ ++ comma :: l₂ ++ rest) l₁.length = some (a, b) ↔
          IsRange l₁ a b := by
        intro a b
        rw [List.append_assoc]
        exact parseVersionRange_iff (endsNumber_cons not_isDigit_comma)
      rw [parseRanges_step _ hlen hget, hleft, hdrop, hdrop']
      simp only [hread, isRanges_append_iff hc₁, Nat.add_sub_cancel]
      by_cases hl₂ : l₂ = []
      · -- the last character is a comma
        simp only [hl₂, List.length_nil, Nat.zero_add, Nat.lt_irrefl, if_false, List.nil_append,
          parseRanges_comma]
        refine iff_of_false (fun ⟨_, _, _, h⟩ => nomatch h) ?_
        rintro ⟨m, ⟨_, _, _, _, hm, _⟩, _⟩
        exact hm.ne_nil rfl
      · have hpos : 1 < l₂.length + 1 := Nat.succ_lt_succ (List.length_pos_of_ne_nil hl₂)
        have hfuel₂ : l₂.length < fuel := by
          rw [List.length_append, List.length_cons] at hfuel
          omega
        have hlist₂ : ∀ m, IsRangeList l₂ m ↔ IsRanges l₂ m := fun m =>
          ⟨fun h => h.resolve_left fun h => hl₂ h.1, .inr⟩
        simp only [if_pos hpos, ih hfuel₂, hlist₂]
        constructor
        · rintro ⟨a, b, hrange, m, hm, rfl⟩
          exact ⟨_, ⟨a, b, m, hrange, hm, rfl⟩, BitVec.or_assoc _ _ _⟩
        · rintro ⟨m, ⟨a, b, m', hrange, hm', rfl⟩, rfl⟩
          exact ⟨a, b, hrange, m', hm', (BitVec.or_assoc _ _ _).symm⟩
    · have hget : (memchr comma (l ++ rest) l.length).getD l.length = l.length := by
        rw [memchr_append_of_not_mem hc]
        rfl
      rw [parseRanges_step _ hlen hget, Nat.sub_self]
      simp only [parseVersionRange_iff hrest, isRanges_iff_of_not_mem hc, Nat.not_lt_zero, if_false]
      have hdone : ∀ s m, parseRanges fuel s 0 m = some m := by
        intro s m
        cases fuel with
        | zero => exact absurd hfuel (by omega)
        | succ fuel => rfl
      simp only [hdone, Option.some_inj]
      constructor
      · rintro ⟨a, b, hrange, rfl⟩
        exact ⟨_, ⟨a, b, hrange, rfl⟩, rfl⟩
      · rintro ⟨m, ⟨a, b, hrange, rfl⟩, rfl⟩
        exact ⟨a, b, hrange, rfl⟩

theorem not_mem_of_isName (h : IsName l) (hc : isAlnum c = false) (hhyphen : c ≠ hyphen) : c ∉ l := by
  intro hmem
  have hall := List.all_eq_true.mp h.2.2 c hmem
  rw [hc, Bool.false_or, beq_iff_eq] at hall
  exact hhyphen hall

/-- **Entries** are read up to an end inside a longer string. -/
theorem parseSingleEntry_iff (hrest : EndsNumber rest) :
    parseSingleEntry (l ++ rest) l.length = some entry ↔ IsEntry l entry := by
  unfold parseSingleEntry IsEntry
  by_cases hc : equals ∈ l
  · obtain ⟨l₁, l₂, rfl, hc₁⟩ := List.eq_append_cons_of_mem hc
    have htake : (l₁ ++ equals :: l₂ ++ rest).take l₁.length = l₁ := by
      rw [List.append_assoc, List.take_left]
    have hdrop : (l₁ ++ equals :: l₂ ++ rest).drop (l₁.length + 1) = l₂ ++ rest := by
      rw [← List.drop_drop, List.append_assoc, List.drop_left]
      rfl
    have hleft : (l₁ ++ equals :: l₂).length - l₁.length = l₂.length + 1 := by
      rw [List.length_append, List.length_cons]
      omega
    rw [memchr_append hc₁]
    dsimp only
    rw [htake, hdrop, hleft, Nat.add_sub_cancel]
    have hname : IsName l₁ ↔ ¬l₁.length = 0 ∧ ¬maxProtocolNameLength < l₁.length ∧
        ¬isValidKeyword l₁ = false := by
      rw [IsName, List.length_eq_zero_iff, Nat.not_lt, Bool.not_eq_false]
    constructor
    · intro h
      split_ifs at h with h0 hlong hvalid
      cases hranges : parseRanges (l₂.length + 1) (l₂ ++ rest) l₂.length 0 with
      | none =>
        rw [hranges] at h
        cases h
      | some m =>
        rw [hranges] at h
        cases h
        obtain ⟨m', hm', hor⟩ := (parseRanges_iff hrest (Nat.lt_succ_self _)).mp hranges
        have hm : m = m' := hor.trans BitVec.zero_or
        rw [← hm] at hm'
        exact ⟨hname.mpr ⟨h0, hlong, hvalid⟩, l₂, rfl, hm'⟩
    · rintro ⟨hentry, r, heq, hr⟩
      have hnot := not_mem_of_isName hentry (show isAlnum equals = false by decide) (by decide)
      obtain ⟨hl₁, rfl⟩ := append_cons_inj hc₁ hnot heq
      rw [← hl₁] at hentry
      obtain ⟨h0, hlong, hvalid⟩ := hname.mp hentry
      have hranges : parseRanges (l₂.length + 1) (l₂ ++ rest) l₂.length 0 = some entry.bitmask :=
        (parseRanges_iff hrest (Nat.lt_succ_self _)).mpr ⟨entry.bitmask, hr, BitVec.zero_or.symm⟩
      rw [if_neg h0, if_neg hlong, if_neg hvalid, hranges, hl₁]
  · rw [memchr_append_of_not_mem hc]
    refine iff_of_false nofun ?_
    rintro ⟨_, r, rfl, _⟩
    exact hc (List.mem_append_right _ List.mem_cons_self)

end Entries

/-! ### Lists -/

section Lists

variable {l l₁ l₂ s : List UInt8} {entry : ProtoEntry} {entries : List ProtoEntry} {fuel k : ℕ}

theorem space_not_mem (h : IsEntry l entry) : space ∉ l := by
  obtain ⟨hname, r, rfl, hr⟩ := h
  have hdigits : ∀ r m, IsRanges r m → space ∉ r := by
    intro r m hm
    induction hm with
    | one hl =>
      intro hc
      rcases mem_of_isRange hl hc with hd | heq
      · exact absurd hd (by decide)
      · exact absurd heq (by decide)
    | cons hl _ ih =>
      intro hc
      rcases List.mem_append.mp hc with hc | hc
      · rcases mem_of_isRange hl hc with hd | heq
        · exact absurd hd (by decide)
        · exact absurd heq (by decide)
      · rcases List.mem_cons.mp hc with heq | hc
        · exact absurd heq (by decide)
        · exact ih hc
  intro hc
  rcases List.mem_append.mp hc with hc | hc
  · exact not_mem_of_isName hname (by decide) (by decide) hc
  · rcases List.mem_cons.mp hc with heq | hc
    · exact absurd heq (by decide)
    · rcases hr with ⟨rfl, _⟩ | hr
      · exact List.not_mem_nil hc
      · exact hdigits r _ hr hc

theorem IsEntry.ne_nil (h : IsEntry l entry) : l ≠ [] := by
  obtain ⟨_, r, rfl, _⟩ := h
  exact fun hnil => List.cons_ne_nil _ _ (List.append_eq_nil_iff.mp hnil).2

theorem dropWhile_replicate_append (k : ℕ) (l : List UInt8) :
    (List.replicate k space ++ l).dropWhile (· = space) = l.dropWhile (· = space) := by
  induction k with
  | zero => rfl
  | succ k ih => exact ih

theorem IsEntry.dropWhile_append (h : IsEntry l entry) (rest : List UInt8) :
    (l ++ rest).dropWhile (· = space) = l ++ rest := by
  cases l with
  | nil => exact absurd rfl h.ne_nil
  | cons c l =>
    have hc : c ≠ space := fun heq => space_not_mem h (heq ▸ List.mem_cons_self)
    rw [List.cons_append, List.dropWhile_cons, if_neg (by simpa using hc)]

theorem IsList.dropWhile_eq (h : IsList l entries) : l.dropWhile (· = space) = l := by
  cases h with
  | nil => rfl
  | last hl k => exact hl.dropWhile_append _
  | cons hl hk hne hl' =>
    rw [List.append_assoc]
    exact hl.dropWhile_append _

theorem isList_nil_iff : IsList [] entries ↔ entries = [] := by
  constructor
  · intro h
    generalize hl : ([] : List UInt8) = l at h
    cases h with
    | nil => rfl
    | last hl' k => exact absurd (List.append_eq_nil_iff.mp hl.symm).1 hl'.ne_nil
    | cons _ _ hne _ => exact absurd (List.append_eq_nil_iff.mp hl.symm).2 hne
  · rintro rfl
    exact .nil

theorem isList_iff_of_not_mem (hne : l ≠ []) (hc : space ∉ l) :
    IsList l entries ↔ ∃ entry, IsEntry l entry ∧ entries = [entry] := by
  constructor
  · intro h
    cases h with
    | nil => exact absurd rfl hne
    | @last l entry hl k =>
      cases k with
      | zero =>
        rw [List.replicate_zero, List.append_nil]
        exact ⟨entry, hl, rfl⟩
      | succ k => exact absurd (List.mem_append_right _ List.mem_cons_self) hc
    | @cons l l' entry entries hl k hk _ _ =>
      cases k with
      | zero => exact absurd hk (Nat.lt_irrefl 0)
      | succ k =>
        rw [List.append_assoc] at hc
        exact absurd (List.mem_append_right _ List.mem_cons_self) hc
  · rintro ⟨entry, hl, rfl⟩
    have hlast := IsList.last hl 0
    rwa [List.replicate_zero, List.append_nil] at hlast

/-- A list with a space is an entry before the first space, and a list behind the spaces. -/
theorem isList_append_iff (hc : space ∉ l₁) :
    IsList (l₁ ++ space :: l₂) entries ↔
      ∃ entry entries', IsEntry l₁ entry ∧ IsList (l₂.dropWhile (· = space)) entries' ∧
        entries = entry :: entries' := by
  constructor
  · intro h
    generalize hl : l₁ ++ space :: l₂ = l at h
    cases h with
    | nil => exact absurd (List.append_eq_nil_iff.mp hl).2 (List.cons_ne_nil _ _)
    | @last l entry hentry k =>
      cases k with
      | zero =>
        rw [List.replicate_zero, List.append_nil] at hl
        rw [← hl] at hentry
        exact absurd (List.mem_append_right _ List.mem_cons_self) (space_not_mem hentry)
      | succ k =>
        obtain ⟨rfl, rfl⟩ := append_cons_inj hc (space_not_mem hentry) hl
        have hdrop := dropWhile_replicate_append k []
        rw [List.append_nil] at hdrop
        rw [hdrop]
        exact ⟨entry, [], hentry, .nil, rfl⟩
    | @cons l l' entry entries hentry k hk hne hl' =>
      cases k with
      | zero => exact absurd hk (Nat.lt_irrefl 0)
      | succ k =>
        rw [List.append_assoc] at hl
        obtain ⟨rfl, rfl⟩ := append_cons_inj hc (space_not_mem hentry) hl
        refine ⟨entry, entries, hentry, ?_, rfl⟩
        have hdrop := (dropWhile_replicate_append k l').trans hl'.dropWhile_eq
        have hrest : IsList ((List.replicate k space ++ l').dropWhile (· = space)) entries := by
          rw [hdrop]
          exact hl'
        exact hrest
  · rintro ⟨entry, entries', hentry, hrest, rfl⟩
    have hspaces : ∃ k, space :: l₂ = List.replicate (k + 1) space ++ l₂.dropWhile (· = space) := by
      refine ⟨(l₂.takeWhile (· = space)).length, ?_⟩
      have htake : l₂.takeWhile (· = space) = List.replicate (l₂.takeWhile (· = space)).length space := by
        rw [List.eq_replicate_iff]
        exact ⟨rfl, fun c hmem => by simpa using List.mem_takeWhile_imp hmem⟩
      rw [List.replicate_succ, List.cons_append, ← htake, List.takeWhile_append_dropWhile]
    obtain ⟨k, hk⟩ := hspaces
    rw [hk]
    by_cases hnil : l₂.dropWhile (· = space) = []
    · rw [hnil] at hrest ⊢
      rw [List.append_nil, isList_nil_iff.mp hrest]
      exact .last hentry (k + 1)
    · rw [← List.append_assoc]
      exact .cons hentry (Nat.succ_pos k) hnil hrest

theorem parseEntries_step {n : ℕ} (hs : s ≠ []) (hn : (memchr space s s.length).getD s.length = n) :
    parseEntries (fuel + 1) s = some entries ↔
      ∃ entry entries', parseSingleEntry s n = some entry ∧
        parseEntries fuel ((s.drop n).dropWhile (· = space)) = some entries' ∧
        entries = entry :: entries' := by
  rw [parseEntries, if_neg hs, hn]
  dsimp only
  cases hentry : parseSingleEntry s n with
  | none =>
    refine iff_of_false nofun ?_
    rintro ⟨_, _, h, _⟩
    cases h
  | some entry =>
    dsimp only
    rw [Option.map_eq_some_iff]
    constructor
    · rintro ⟨entries', h, rfl⟩
      exact ⟨entry, entries', rfl, h, rfl⟩
    · rintro ⟨_, entries', h, hrest, rfl⟩
      cases h
      exact ⟨entries', hrest, rfl⟩

theorem length_dropWhile_le (l : List UInt8) : (l.dropWhile (· = space)).length ≤ l.length :=
  (List.dropWhile_suffix _).length_le

theorem parseEntries_iff (hfuel : s.length < fuel) :
    parseEntries fuel s = some entries ↔ IsList s entries := by
  induction fuel generalizing s entries with
  | zero => exact absurd hfuel (Nat.not_lt_zero _)
  | succ fuel ih =>
    by_cases hs : s = []
    · rw [parseEntries, if_pos hs, hs, isList_nil_iff, Option.some_inj, eq_comm]
    by_cases hc : space ∈ s
    · obtain ⟨l₁, l₂, rfl, hc₁⟩ := List.eq_append_cons_of_mem hc
      have hn : (memchr space (l₁ ++ space :: l₂) (l₁ ++ space :: l₂).length).getD
          (l₁ ++ space :: l₂).length = l₁.length := by
        have hfind := @memchr_append l₁ l₂ space hc₁ []
        rw [List.append_nil] at hfind
        rw [hfind]
        rfl
      have hdrop : ((l₁ ++ space :: l₂).drop l₁.length).dropWhile (· = space)
          = l₂.dropWhile (· = space) := by
        rw [List.drop_left]
        rfl
      have hlen : (l₂.dropWhile (· = space)).length < fuel := by
        have hle := length_dropWhile_le l₂
        rw [List.length_append, List.length_cons] at hfuel
        omega
      have hends : EndsNumber (space :: l₂) := endsNumber_cons (by decide)
      rw [parseEntries_step hs hn, hdrop, isList_append_iff hc₁]
      simp only [parseSingleEntry_iff hends, ih hlen]
    · have hn : (memchr space s s.length).getD s.length = s.length := by
        have hfind := memchr_append_of_not_mem hc []
        rw [List.append_nil] at hfind
        rw [hfind]
        rfl
      have hentry : ∀ entry, parseSingleEntry s s.length = some entry ↔ IsEntry s entry := by
        intro entry
        have hiff := @parseSingleEntry_iff s [] entry nofun
        rwa [List.append_nil] at hiff
      have hdone : parseEntries fuel ((s.drop s.length).dropWhile (· = space)) = some [] := by
        rw [List.drop_length]
        cases fuel with
        | zero => exact absurd hfuel (by have := List.length_pos_of_ne_nil hs; omega)
        | succ fuel => rfl
      rw [parseEntries_step hs hn, hdone, isList_iff_of_not_mem hs hc]
      simp only [hentry, Option.some_inj]
      constructor
      · rintro ⟨entry, _, he, rfl, rfl⟩
        exact ⟨entry, he, rfl⟩
      · rintro ⟨entry, he, rfl⟩
        exact ⟨entry, [], he, rfl, rfl⟩

/-- **Lists.**  A string is accepted as a list of entries exactly if it is one. -/
theorem parseProtocolList_iff : parseProtocolList s = some entries ↔ IsList s entries :=
  parseEntries_iff (Nat.lt_succ_self _)

end Lists

end TorEbpf.Or.Protover
