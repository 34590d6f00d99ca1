import TorEbpf.Encoding.Binascii
import TorEbpf.Encoding.CstringPasses
import TorEbpf.Strings.ParseInt

/-!
# Lines of keys and values

`kvline.c`, and `decode_qstring` of `qstring.c`.  A line is written as `Key=Value` pairs with spaces between
them; whether a value is quoted depends on its characters and on whether it has a key.

* `kvlineEncode`, `kvlineParse` — writing and reading;
* `length_parseItem_lt` — reading a pair makes progress, so that the loop of `kvline_parse` ends.
-/

namespace TorEbpf.Encoding

open TorEbpf.Lib TorEbpf.Strings

structure KvFlags where
  quoted : Bool
  omitKeys : Bool
  omitVals : Bool
  quotedQstring : Bool
  raw : Bool
  deriving DecidableEq, Repr

/-- `config_line_t`, without the list it is in. -/
structure ConfigLine where
  key : Option (List UInt8)
  value : List UInt8
  deriving DecidableEq, Repr

/-! ### Encoding -/

/-- `TOR_ISPRINT`. -/
def isPrint (c : UInt8) : Bool := 0x20 ≤ c && c < 0x7f

/-- `needs_escape`.  (A signed character above 127 is negative, but it is not printable.) -/
def needsEscape (s : List UInt8) (asKeylessVal : Bool) : Bool :=
  asKeylessVal && s.isEmpty || asKeylessVal && s.contains 0x3d ||
    s.any fun c => 127 ≤ c || isSpace c || !isPrint c || c = 0x27 || c = 0x22

def ConfigLine.hasNoKey (line : ConfigLine) : Bool := (line.key.getD []).isEmpty

def ConfigLine.hasNoVal (line : ConfigLine) : Bool := line.value.isEmpty

/-- A round of `kvline_can_encode_lines`. -/
def canEncodeLine (flags : KvFlags) (line : ConfigLine) : Bool :=
  if line.hasNoKey && !flags.omitKeys then false
  else if needsEscape line.value line.hasNoKey && !(flags.quoted || flags.raw) then false
  else if !line.hasNoKey && needsEscape (line.key.getD []) true then false
  else true

def kvlineCanEncodeLines (flags : KvFlags) (lines : List ConfigLine) : Bool := lines.all (canEncodeLine flags)

/-- The value of an element of `kvline_encode`. -/
def encodeValue (flags : KvFlags) (line : ConfigLine) : Checked Unit Access (List UInt8) :=
  if !flags.raw && needsEscape line.value line.hasNoKey then escForLog line.value else .ok line.value

/-- An element of `kvline_encode`: key, equality sign and value. -/
def encodeElement (flags : KvFlags) (line : ConfigLine) : Checked Unit Access (List UInt8) :=
  if flags.omitVals && line.hasNoVal then .ok (line.key.getD [])
  else do
    let v ← encodeValue flags line
    return line.key.getD [] ++ (if line.hasNoKey then [] else [0x3d]) ++ v

def kvlineEncode (flags : KvFlags) (lines : List ConfigLine) : Checked Unit Access (List UInt8) := do
  torAssert (¬flags.quotedQstring)
  torAssert (¬(flags.omitKeys ∧ flags.omitVals))
  torAssert (¬(flags.quoted ∧ flags.raw))
  if kvlineCanEncodeLines flags lines then
    [0x20].intercalate <$> lines.mapM (encodeElement flags)
  else reject ()

/-! ### Quoted strings -/

/-- `(int) n`. -/
def toInt (n : ℕ) : ℤ := Int.bmod n (2 ^ 32)

/-- The loop of `get_qstring_length`: the length with both quotes, and the number of characters, which must not
overflow. -/
def qstringLoop : List UInt8 → ℕ → ℕ → Checked Unit Access (ℕ × ℕ)
  | [], _, _ => reject ()
  | c :: cp, n, chars =>
    if c = 0x5c then
      match cp with
      | [] => reject ()
      | _ :: cp => torAssert (chars < intMax) >>= fun _ => qstringLoop cp (n + 2) (chars + 1)
    else if c = 0x22 then .ok (n + 1, chars)
    else torAssert (chars < intMax) >>= fun _ => qstringLoop cp (n + 1) (chars + 1)

/-- The loop of `decode_qstring`, between the quotes. -/
def qstringCopy : List UInt8 → List UInt8
  | [] => []
  | c :: cp =>
    if c = 0x5c then
      match cp with
      | [] => [0x22]
      | e :: cp => e :: qstringCopy cp
    else c :: qstringCopy cp

/-- `decode_qstring`: the decoded string, its length, and what follows the closing quote.  The length is an
`int`; when it has become zero, the assertions read in front of the string. -/
def decodeQstring : List UInt8 → Checked Unit Access (List UInt8 × ℕ × List UInt8)
  | [] => reject ()
  | c :: cp =>
    if c ≠ 0x22 then reject ()
    else do
      let (n, chars) ← qstringLoop cp 1 0
      let len := toInt n
      if len < 0 then reject ()
      else do
        torAssert (0 < len ∧ (c :: cp)[len.toNat - 1]? = some 0x22)
        let out := qstringCopy (cp.take (len.toNat - 2))
        torAssert (out.length = chars)
        return (out, chars, (c :: cp).drop len.toNat)

/-! ### Parsing -/

/-- A character of `" \t\r\v\n"`. -/
def isKvSpace (c : UInt8) : Bool := c = 0x20 || c = 0x09 || c = 0x0d || c = 0x0b || c = 0x0a

/-- A character of `" \t\r\v\n="`. -/
def isKeyEnd (c : UInt8) : Bool := isKvSpace c || c = 0x3d

def unquote (flags : KvFlags) (cp : List UInt8) : Checked Unit Access (List UInt8 × ℕ × List UInt8) :=
  if flags.quoted then unescapeString cp else decodeQstring cp

/-- `if (*cp == '\"') … else …`: a value, and what follows it. -/
def parseValue (flags : KvFlags) (cp : List UInt8) : Checked Unit Access (List UInt8 × List UInt8) :=
  if cp.head? = some 0x22 then
    if !(flags.quoted || flags.quotedQstring) then reject ()
    else do
      let (buf, len, rest) ← unquote flags cp
      if len ≠ (cText buf).length then reject () else return (cText buf, rest)
  else .ok (cp.takeWhile (!isKvSpace ·), cp.dropWhile (!isKvSpace ·))

/-- `K=V`, `K="V"`, `K`, `V` or `"V"`: the key and the value, as far as there are any, and what follows. -/
def parsePair (flags : KvFlags) (cp : List UInt8) :
    Checked Unit Access (Option (List UInt8) × Option (List UInt8) × List UInt8) :=
  if cp.head? = some 0x22 then
    (fun r => (none, some r.1, r.2)) <$> parseValue flags cp
  else
    let key := cp.takeWhile (!isKeyEnd ·)
    let rest := cp.dropWhile (!isKeyEnd ·)
    if rest.head? = some 0x3d then (fun r => (some key, some r.1, r.2)) <$> parseValue flags rest.tail
    else if flags.omitVals then .ok (some key, none, rest)
    else if !flags.omitKeys then reject ()
    else (fun r => (none, some r.1, r.2)) <$> parseValue flags cp

/-- A pair that is committed, and what follows it. -/
def parseItem (flags : KvFlags) (cp : List UInt8) : Checked Unit Access (ConfigLine × List UInt8) := do
  let (key, val, rest) ← parsePair flags cp
  if key = some [] then reject () else return (⟨some (key.getD []), val.getD []⟩, rest)

variable {flags : KvFlags} {cp rest : List UInt8} {c : UInt8}

/-! ### Progress -/

theorem length_of_unescapeString {buf : List UInt8} {len : ℕ}
    (h : unescapeString cp = .ok (buf, len, rest)) : rest.length < cp.length := by
  cases cp with
  | nil => cases h
  | cons c cp =>
    by_cases hc : c = 0x22
    · subst hc
      cases hquote : findQuote cp with
      | none =>
        rw [unescapeString, if_neg (by simp), hquote] at h
        cases h
      | some quote =>
        obtain ⟨ps, after, rfl, hps, rfl⟩ := quoted_of_findQuote hquote
        rw [unescapeString_pieces hps] at h
        split_ifs at h
        · cases h
          rw [List.length_cons, List.length_append, List.length_cons]
          omega
        · cases h
    · rw [unescapeString, if_pos hc] at h
      cases h

theorem length_of_decodeQstring {buf : List UInt8} {len : ℕ}
    (h : decodeQstring cp = .ok (buf, len, rest)) : rest.length < cp.length := by
  cases cp with
  | nil => cases h
  | cons c cp =>
    rw [decodeQstring] at h
    split_ifs at h
    · cases h
    · obtain ⟨⟨n, chars⟩, -, h⟩ := bind_eq_ok.mp h
      dsimp only at h
      generalize toInt n = len' at h
      split_ifs at h
      · cases h
      · obtain ⟨_, hend, h⟩ := bind_eq_ok.mp h
        obtain ⟨_, -, h⟩ := bind_eq_ok.mp h
        cases h
        have hpos := (of_torAssert hend).1
        rw [List.length_drop, List.length_cons]
        omega

theorem length_of_unquote {buf : List UInt8} {len : ℕ} (h : unquote flags cp = .ok (buf, len, rest)) :
    rest.length < cp.length := by
  unfold unquote at h
  split_ifs at h
  · exact length_of_unescapeString h
  · exact length_of_decodeQstring h

theorem length_of_parseValue {val : List UInt8} (h : parseValue flags cp = .ok (val, rest)) :
    rest.length ≤ cp.length := by
  unfold parseValue at h
  split_ifs at h
  · cases h
  · obtain ⟨⟨buf, len, rest'⟩, hquote, h⟩ := bind_eq_ok.mp h
    dsimp only at h
    split_ifs at h
    · cases h
    · cases h
      exact (length_of_unquote hquote).le
  · cases h
    exact List.length_dropWhile_le _ _

theorem length_of_parseValue_lt {val : List UInt8} (hc : isKvSpace c = false)
    (h : parseValue flags (c :: cp) = .ok (val, rest)) : rest.length < (c :: cp).length := by
  unfold parseValue at h
  split_ifs at h
  · cases h
  · obtain ⟨⟨buf, len, rest'⟩, hquote, h⟩ := bind_eq_ok.mp h
    dsimp only at h
    split_ifs at h
    · cases h
    · cases h
      exact length_of_unquote hquote
  · cases h
    rw [List.dropWhile_cons_of_pos (by rw [hc]; rfl), List.length_cons]
    exact Nat.lt_succ_of_le (List.length_dropWhile_le _ _)

theorem map_eq_ok {α β : Type} {f : α → β} {x : Checked Unit Access α} {b : β} :
    f <$> x = .ok b ↔ ∃ a, x = .ok a ∧ f a = b := by
  cases x with
  | ok a => simp [Functor.map, Except.map]
  | error s => simp [Functor.map, Except.map]

theorem length_of_parsePair {key val : Option (List UInt8)} (hc : isKvSpace c = false)
    (h : parsePair flags (c :: cp) = .ok (key, val, rest)) : rest.length < (c :: cp).length := by
  unfold parsePair at h
  dsimp only at h
  have hdrop := List.length_dropWhile_le (!isKeyEnd ·) (c :: cp)
  split_ifs at h with hquote heq hvals hkeys
  · obtain ⟨⟨v, r⟩, hval, h⟩ := map_eq_ok.mp h
    cases h
    exact length_of_parseValue_lt hc hval
  · obtain ⟨⟨v, r⟩, hval, h⟩ := map_eq_ok.mp h
    cases h
    have hle := length_of_parseValue hval
    have hne : (c :: cp).dropWhile (!isKeyEnd ·) ≠ [] := by
      intro hnil
      rw [hnil] at heq
      cases heq
    have hpos := List.length_pos_iff.mpr hne
    rw [List.length_tail] at hle
    exact lt_of_le_of_lt hle (by omega)
  · cases h
    by_cases hend : isKeyEnd c = true
    · have hdrop : (c :: cp).dropWhile (!isKeyEnd ·) = c :: cp :=
        List.dropWhile_cons_of_neg (by rw [hend]; simp)
      have hceq : c = 0x3d := by simpa [isKeyEnd, hc] using hend
      rw [hdrop, hceq] at heq
      exact absurd rfl heq
    · rw [List.dropWhile_cons_of_pos (by simpa using hend), List.length_cons]
      exact Nat.lt_succ_of_le (List.length_dropWhile_le _ _)
  · cases h
  · obtain ⟨⟨v, r⟩, hval, h⟩ := map_eq_ok.mp h
    cases h
    exact length_of_parseValue_lt hc hval

/-- **Progress**: what is read of a pair is not empty. -/
theorem length_parseItem_lt {line : ConfigLine} (hc : isKvSpace c = false)
    (h : parseItem flags (c :: cp) = .ok (line, rest)) : rest.length < (c :: cp).length := by
  obtain ⟨⟨key, val, rest'⟩, hpair, h⟩ := bind_eq_ok.mp h
  dsimp only at h
  split_ifs at h
  · cases h
  · cases h
    exact length_of_parsePair hc hpair

/-! ### The loop -/

/-- Why `kvline_parse` returns nothing. -/
inductive KvError where
  | malformed
  | noProgress
  deriving DecidableEq, Repr

theorem isKvSpace_of_dropWhile {t : List UInt8} (h : cp.dropWhile isKvSpace = c :: t) :
    isKvSpace c = false :=
  @head?_dropWhile_of_mem _ cp isKvSpace c (by rw [h]; rfl)

/-- The loop of `kvline_parse`, with `cp` and `cplast` as what there is from them on. -/
def kvlineLoop (flags : KvFlags) (cp : List UInt8) (cplast : Option (List UInt8)) :
    Checked KvError Access (List ConfigLine) :=
  if cp = [] then .ok []
  else if some (cp.dropWhile isKvSpace) = cplast then reject .noProgress
  else
    match _hcp : cp.dropWhile isKvSpace with
    | [] => .ok []
    | c :: t =>
      match _hitem : parseItem flags (c :: t) with
      | .error (.reject ()) => reject .malformed
      | .error (.fault f) => fault f
      | .ok (line, rest) => (line :: ·) <$> kvlineLoop flags rest (some (c :: t))
termination_by cp.length
decreasing_by
  have hlt := length_parseItem_lt (isKvSpace_of_dropWhile _hcp) _hitem
  rw [← _hcp] at hlt
  exact hlt.trans_le (List.length_dropWhile_le _ _)

def kvlineParse (flags : KvFlags) (line : List UInt8) : Checked KvError Access (List ConfigLine) := do
  torAssert (¬(flags.omitKeys ∧ flags.omitVals))
  torAssert (¬flags.raw)
  let result ← kvlineLoop flags line none
  if !flags.quotedQstring && !kvlineCanEncodeLines flags result then reject .malformed else return result

end TorEbpf.Encoding
