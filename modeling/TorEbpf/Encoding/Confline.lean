import TorEbpf.Encoding.CstringPasses

/-!
# Configuration lines

`parse_config_line_from_str_verbose` reads one entry of a configuration file.  Texts are lists of bytes without
the zero behind them.  A value that is not quoted ends at the end of its line, unless a backslash is the last
byte of the line; from then on a comment does not end it either, and is removed.

* `scanValue`, `removeContinuations` — the loop that finds the end of a value and the one that decodes it;
* `skipToKey_afterValue` — where the next entry is looked for;
* `scanValue_append`, `removeContinuations_append` — text that has neither comments nor ends of lines.
-/

namespace TorEbpf.Encoding

open TorEbpf.Lib TorEbpf.Strings

/-! ### The code -/

/-- `*err_out`. -/
inductive ConfError where
  | invalidEscape
  | excessData
  deriving DecidableEq, Repr

def ConfError.message : ConfError → String
  | .invalidEscape => "Invalid escape sequence in quoted string"
  | .excessData => "Excess data after quoted string"

/-- `*key_out`, `*value_out`, and what is returned. -/
structure ConfLine where
  key : Option (List UInt8)
  value : Option (List UInt8)
  rest : List UInt8
  deriving DecidableEq, Repr

/-- The first loop; `comment` in a comment, which goes to the end of its line. -/
def skipToKey (comment : Bool) : List UInt8 → List UInt8
  | [] => []
  | c :: line =>
    if comment then skipToKey (c ≠ 0x0a) line
    else if isSpace c then skipToKey false line
    else if c = 0x23 then skipToKey true line
    else c :: line

def scanKey : List UInt8 → List UInt8 × List UInt8
  | [] => ([], [])
  | 0x5c :: 0x0a :: line => ([], 0x5c :: 0x0a :: line)
  | c :: line =>
    if isSpace c ∨ c = 0x23 then ([], c :: line)
    else
      let (key, rest) := scanKey line
      (c :: key, rest)

/-- `*line == ' ' || *line == '\t'`. -/
def isBlank (c : UInt8) : Bool := c = 0x20 || c = 0x09

/-- The text of a value that is not quoted up to its end, whether it is continued, and what follows; `comment`
in a comment. -/
def scanValue (comment continuation : Bool) : List UInt8 → List UInt8 × Bool × List UInt8
  | [] => ([], continuation, [])
  | 0x0a :: line =>
    if comment then
      let (raw, rest) := scanValue false continuation line
      (0x0a :: raw, rest)
    else ([], continuation, 0x0a :: line)
  | 0x5c :: 0x0a :: line =>
    if comment then
      let (raw, rest) := scanValue false continuation line
      (0x5c :: 0x0a :: raw, rest)
    else
      let (raw, rest) := scanValue false true line
      (0x5c :: 0x0a :: raw, rest)
  | c :: line =>
    if !comment && !continuation && c = 0x23 then ([], continuation, c :: line)
    else
      let (raw, rest) := scanValue (comment || c = 0x23) continuation line
      (c :: raw, rest)

/-- The loop that decodes a continued value; `comment` in a comment. -/
def removeContinuations (comment : Bool) : List UInt8 → List UInt8
  | [] => []
  | 0x0a :: s => if comment then removeContinuations false s else 0x0a :: removeContinuations false s
  | 0x5c :: 0x0a :: s => removeContinuations false s
  | c :: s =>
    if comment || c = 0x23 then removeContinuations true s else c :: removeContinuations false s

/-- The value that is not quoted, and what follows its line. -/
def parseUnquoted (line : List UInt8) : List UInt8 × List UInt8 :=
  let (raw, continuation, line) := scanValue false false line
  let value := raw.rdropWhile isSpace
  (if continuation then removeContinuations false value else value,
    match line with
    | 0x0a :: line => line
    | line => line)

/-- The value that is quoted, and what follows it. -/
def parseQuoted (line : List UInt8) : Checked ConfError Access (List UInt8 × List UInt8) :=
  match unescapeString line with
  | .error (.reject _) => reject .invalidEscape
  | .error (.fault f) => fault f
  | .ok (buf, _, line) =>
    let line := line.dropWhile isBlank
    let line := match line with
      | 0x0d :: 0x0a :: line => line
      | 0x0d :: line => line
      | line => line
    match line with
    | [] => .ok (cText buf, line)
    | c :: _ => if c ≠ 0x23 ∧ c ≠ 0x0a then reject .excessData else .ok (cText buf, line)

/-- What follows a value up to the next line with something on it. -/
def afterValue (line : List UInt8) : List UInt8 :=
  let line := match line with
    | 0x23 :: line => line.dropWhile (· ≠ 0x0a)
    | line => line
  line.dropWhile isSpace

def parseConfigLineFromStrVerbose (line : List UInt8) : Checked ConfError Access ConfLine :=
  let line := skipToKey false line
  if line = [] then .ok ⟨none, none, line⟩
  else
    let (key, line) := scanKey line
    let line := line.dropWhile isBlank
    if line.head? = some 0x22 then do
      let (value, line) ← parseQuoted line
      return ⟨some key, some value, afterValue line⟩
    else
      let (value, line) := parseUnquoted line
      .ok ⟨some key, some value, afterValue line⟩

/-! ### The loops, byte by byte -/

section Loops

variable {c : UInt8} {line s t : List UInt8} {continuation : Bool}

/-- A byte that neither ends a line nor begins a comment, nor a continuation. -/
def Ordinary (c : UInt8) (line : List UInt8) : Prop :=
  c ≠ 0x0a ∧ c ≠ 0x23 ∧ (c = 0x5c → line.head? ≠ some 0x0a)

theorem scanValue_cons (h : Ordinary c line) : scanValue false continuation (c :: line) =
    (c :: (scanValue false continuation line).1, (scanValue false continuation line).2) := by
  obtain ⟨hnl, hhash, hslash⟩ := h
  rw [scanValue.eq_def]
  split
  · next heq => cases heq
  · next heq => exact absurd (List.cons.inj heq).1 hnl
  · next heq =>
    obtain ⟨hc, hline⟩ := List.cons.inj heq
    rw [hline] at hslash
    exact absurd rfl (hslash hc)
  · next c' line' _ _ heq =>
    obtain ⟨rfl, rfl⟩ := List.cons.inj heq
    simp [hhash]

theorem removeContinuations_cons (h : Ordinary c line) :
    removeContinuations false (c :: line) = c :: removeContinuations false line := by
  obtain ⟨hnl, hhash, hslash⟩ := h
  rw [removeContinuations.eq_def]
  split
  · next heq => cases heq
  · next heq => exact absurd (List.cons.inj heq).1 hnl
  · next heq =>
    obtain ⟨hc, hline⟩ := List.cons.inj heq
    rw [hline] at hslash
    exact absurd rfl (hslash hc)
  · next c' line' _ _ heq =>
    obtain ⟨rfl, rfl⟩ := List.cons.inj heq
    simp [hhash]

/-- Text without comments and ends of lines; if it ends in a backslash, what follows is no end of a line. -/
structure PlainText (s t : List UInt8) : Prop where
  plain : ∀ c ∈ s, c ≠ 0x0a ∧ c ≠ 0x23
  last : s.getLast? = some 0x5c → t.head? ≠ some 0x0a

theorem PlainText.nil : PlainText [] t := ⟨by simp, by simp⟩

theorem PlainText.ordinary (h : PlainText (c :: s) t) : Ordinary c (s ++ t) := by
  obtain ⟨hnl, hhash⟩ := h.plain c List.mem_cons_self
  refine ⟨hnl, hhash, ?_⟩
  rintro rfl
  cases s with
  | nil => exact h.last rfl
  | cons d s =>
    intro heq
    exact (h.plain d (by simp)).1 (Option.some.inj heq)

theorem PlainText.tail (h : PlainText (c :: s) t) : PlainText s t where
  plain d hd := h.plain d (List.mem_cons_of_mem c hd)
  last hlast := by
    apply h.last
    cases s with
    | nil => cases hlast
    | cons d s => exact hlast

/-- **The end of a value** is looked for behind the plain text that it begins with. -/
theorem scanValue_append (h : PlainText s t) : scanValue false continuation (s ++ t) =
    (s ++ (scanValue false continuation t).1, (scanValue false continuation t).2) := by
  induction s with
  | nil => rfl
  | cons c s ih => rw [List.cons_append, scanValue_cons h.ordinary, ih h.tail, List.cons_append]

theorem removeContinuations_append (h : PlainText s t) :
    removeContinuations false (s ++ t) = s ++ removeContinuations false t := by
  induction s with
  | nil => rfl
  | cons c s ih => rw [List.cons_append, removeContinuations_cons h.ordinary, ih h.tail, List.cons_append]

/-! ### Keys and what is between entries -/

/-- A key: it has neither white space nor a comment, nor zeros. -/
structure IsKey (key : List UInt8) : Prop where
  ne_nil : key ≠ []
  chars : ∀ c ∈ key, isSpace c = false ∧ c ≠ 0x23 ∧ c ≠ 0

theorem skipToKey_cons (hspace : isSpace c = false) (hhash : c ≠ 0x23) :
    skipToKey false (c :: line) = c :: line := by
  simp [skipToKey, hspace, hhash]

theorem skipToKey_space (hspace : isSpace c = true) : skipToKey false (c :: line) = skipToKey false line := by
  simp [skipToKey, hspace]

theorem skipToKey_comment (line : List UInt8) :
    skipToKey true line = skipToKey false (line.dropWhile (· ≠ 0x0a)) := by
  induction line with
  | nil => rfl
  | cons c line ih =>
    by_cases hnl : c = 0x0a
    · subst hnl
      rw [List.dropWhile_cons_of_neg (by simp), skipToKey_space rfl]
      simp [skipToKey]
    · rw [List.dropWhile_cons_of_pos (by simpa using hnl), ← ih]
      simp [skipToKey, hnl]

theorem skipToKey_dropWhile (line : List UInt8) :
    skipToKey false (line.dropWhile isSpace) = skipToKey false line := by
  induction line with
  | nil => rfl
  | cons c line ih =>
    cases hspace : isSpace c with
    | true => rw [List.dropWhile_cons_of_pos hspace, ih, skipToKey_space hspace]
    | false => rw [List.dropWhile_cons_of_neg (by simp [hspace])]

/-- **The next entry** is the first one behind the line. -/
theorem skipToKey_afterValue (line : List UInt8) :
    skipToKey false (afterValue line) = skipToKey false line := by
  unfold afterValue
  dsimp only
  rw [skipToKey_dropWhile]
  split
  · rw [← skipToKey_comment]
    simp [skipToKey, isSpace]
  · rfl

/-- Where a key ends: at white space, or at a backslash at the end of a line. -/
def StopsKey (rest : List UInt8) : Prop :=
  (∃ c ∈ rest.head?, isSpace c = true) ∨ ∃ t, rest = 0x5c :: 0x0a :: t

theorem scanKey_stop {rest : List UInt8} (h : StopsKey rest) : scanKey rest = ([], rest) := by
  rcases h with ⟨c, hc, hspace⟩ | ⟨t, rfl⟩
  · cases rest with
    | nil => cases hc
    | cons d rest =>
      cases hc
      rw [scanKey.eq_def]
      split
      · next heq => cases heq
      · next heq => rw [heq]
      · next heq =>
        obtain ⟨rfl, rfl⟩ := List.cons.inj heq
        rw [if_pos (Or.inl hspace)]
  · rfl

/-- A key, up to where it ends; a backslash that belongs to it is not in front of the end of a line. -/
theorem scanKey_append {key rest : List UInt8} (hkey : ∀ c ∈ key, isSpace c = false ∧ c ≠ 0x23 ∧ c ≠ 0)
    (hstop : StopsKey rest) (hlast : key.getLast? = some 0x5c → rest.head? ≠ some 0x0a) :
    scanKey (key ++ rest) = (key, rest) := by
  induction key with
  | nil => exact scanKey_stop hstop
  | cons d key ih =>
    obtain ⟨hd, hrest⟩ := List.forall_mem_cons.mp hkey
    rw [List.cons_append, scanKey.eq_def]
    split
    · next heq => cases heq
    · next t heq =>
      obtain ⟨rfl, htail⟩ := List.cons.inj heq
      cases key with
      | nil =>
        rw [List.nil_append] at htail
        exact absurd (by rw [htail]; rfl) (hlast rfl)
      | cons e key =>
        have hspace := (hrest e List.mem_cons_self).1
        rw [(List.cons.inj htail).1] at hspace
        cases hspace
    · next heq =>
      obtain ⟨rfl, rfl⟩ := List.cons.inj heq
      have hlast' : key.getLast? = some 0x5c → rest.head? ≠ some 0x0a := by
        intro hkeylast
        apply hlast
        cases key with
        | nil => cases hkeylast
        | cons e key => exact hkeylast
      rw [if_neg (by simp [hd.1, hd.2.1]), ih hrest hlast']

/-- **A key and its value** are read one after the other. -/
theorem parse_entry {indent key rest : List UInt8} (hindent : ∀ c ∈ indent, isSpace c = true)
    (hkey : IsKey key) (hstop : StopsKey rest)
    (hlast : key.getLast? = some 0x5c → rest.head? ≠ some 0x0a) :
    parseConfigLineFromStrVerbose (indent ++ (key ++ rest)) =
      if (rest.dropWhile isBlank).head? = some 0x22 then
        parseQuoted (rest.dropWhile isBlank) >>= fun r => .ok ⟨some key, some r.1, afterValue r.2⟩
      else
        .ok ⟨some key, some (parseUnquoted (rest.dropWhile isBlank)).1,
          afterValue (parseUnquoted (rest.dropWhile isBlank)).2⟩ := by
  have hskip : skipToKey false (indent ++ (key ++ rest)) = key ++ rest := by
    induction indent with
    | nil =>
      obtain ⟨c, key', rfl⟩ := List.exists_cons_of_ne_nil hkey.ne_nil
      obtain ⟨hspace, hhash, -⟩ := hkey.chars c List.mem_cons_self
      exact skipToKey_cons hspace hhash
    | cons c indent ih =>
      obtain ⟨hc, hrest⟩ := List.forall_mem_cons.mp hindent
      rw [List.cons_append, skipToKey_space hc, ih hrest]
  rw [parseConfigLineFromStrVerbose, hskip]
  dsimp only
  rw [if_neg (by simp [hkey.ne_nil]), scanKey_append hkey.chars hstop hlast]
  rfl

end Loops

end TorEbpf.Encoding
