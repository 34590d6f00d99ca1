import TorEbpf.Lib.Buffer
import TorEbpf.Strings.Scanf

/-!
# Quoted strings

`unescape_string` of `cstring.c` and `esc_for_log` of `escape.c`.  A string is the list of its bytes, without
the zero behind them.  `unescape_string` looks for the closing quote in one pass and decodes in another, into as
many bytes as the first pass has found.

* `findQuote`, `unescapeLoop` — the two passes;
* `escForLog` — quoting.
-/

namespace TorEbpf.Encoding

open TorEbpf.Lib TorEbpf.Strings

/-- `TOR_ISODIGIT`. -/
def isODigit (c : UInt8) : Bool := 0x30 ≤ c && c ≤ 0x37

/-! ### The first pass -/

/-- `if (TOR_ISODIGIT(*cp)) ++cp;` -/
def skipODigit : List UInt8 → List UInt8
  | c :: cp => if isODigit c then cp else c :: cp
  | [] => []

/-- The letters that may follow a backslash. -/
def isSimpleEscape (c : UInt8) : Bool :=
  c = 0x6e || c = 0x72 || c = 0x74 || c = 0x22 || c = 0x5c || c = 0x27

theorem length_skipODigit_le (cp : List UInt8) : (skipODigit cp).length ≤ cp.length := by
  unfold skipODigit
  split
  · split_ifs
    · exact Nat.le_succ _
    · exact le_rfl
  · exact le_rfl

/-- The first loop of `unescape_string`: what there is from the closing quote on. -/
def findQuote : List UInt8 → Option (List UInt8)
  | [] => none
  | c :: cp =>
    if c = 0 ∨ c = 0x0a then none
    else if c = 0x22 then some (c :: cp)
    else if c = 0x5c then
      match cp with
      | [] => none
      | e :: cp =>
        if e = 0x78 ∨ e = 0x58 then
          match cp with
          | h1 :: h2 :: cp => if torIsXDigit h1 && torIsXDigit h2 then findQuote cp else none
          | _ => none
        else if isODigit e then findQuote (skipODigit (skipODigit cp))
        else if isSimpleEscape e then findQuote cp
        else none
    else findQuote cp
termination_by cp => cp.length
decreasing_by
  · simp only [List.length_cons]
    omega
  · have := length_skipODigit_le cp
    have := length_skipODigit_le (skipODigit cp)
    simp only [List.length_cons]
    omega
  · simp only [List.length_cons]
    omega
  · simp only [List.length_cons]
    omega

/-! ### The second pass -/

/-- `*result` and `out`. -/
structure Out where
  buf : List UInt8
  out : ℕ
  deriving DecidableEq

/-- `*out++ = c`. -/
def Out.put (o : Out) (c : UInt8) : Checked Unit Access Out := do
  let buf ← store o.buf o.out c
  return ⟨buf, o.out + 1⟩

/-- `if (TOR_ISODIGIT(*cp)) { n = n*8 + *cp-'0'; cp++; }` -/
def readODigit : ℕ → List UInt8 → ℕ × List UInt8
  | n, c :: cp => if isODigit c then (n * 8 + (c.toNat - 0x30), cp) else (n, c :: cp)
  | n, [] => (n, [])

theorem readODigit_snd (n : ℕ) (cp : List UInt8) : (readODigit n cp).2 = skipODigit cp := by
  unfold readODigit skipODigit
  cases cp with
  | nil => rfl
  | cons c cp =>
    dsimp only
    split_ifs <;> rfl

theorem length_readODigit_le (n : ℕ) (cp : List UInt8) : (readODigit n cp).2.length ≤ cp.length := by
  rw [readODigit_snd]
  exact length_skipODigit_le cp

/-- The second loop of `unescape_string`: what is decoded and what follows the closing quote.  The branches that
are marked as unreachable are failed assertions. -/
def unescapeLoop : List UInt8 → Out → Checked Unit Access (Out × List UInt8)
  | [], _ => fault .assertion
  | c :: cp, o =>
    if c = 0x22 then do
      let buf ← store o.buf o.out 0
      return (⟨buf, o.out⟩, cp)
    else if c = 0 then fault .assertion
    else if c = 0x5c then
      match cp with
      | [] => fault .assertion
      | e :: cp =>
        if e = 0x6e then o.put 0x0a >>= unescapeLoop cp
        else if e = 0x72 then o.put 0x0d >>= unescapeLoop cp
        else if e = 0x74 then o.put 0x09 >>= unescapeLoop cp
        else if e = 0x78 ∨ e = 0x58 then
          match cp with
          | h1 :: h2 :: cp =>
            match hexDecodeDigit h1, hexDecodeDigit h2 with
            | some x1, some x2 => o.put (x1 <<< 4 + x2).toUInt8 >>= unescapeLoop cp
            | _, _ => fault .assertion
          | _ => fault .assertion
        else if isODigit e then
          let r1 := readODigit (e.toNat - 0x30) cp
          let r2 := readODigit r1.1 r1.2
          if 255 < r2.1 then reject () else o.put r2.1.toUInt8 >>= unescapeLoop r2.2
        else if e = 0x27 ∨ e = 0x22 ∨ e = 0x5c ∨ e = 0x3f then o.put e >>= unescapeLoop cp
        else fault .assertion
    else o.put c >>= unescapeLoop cp
termination_by cp => cp.length
decreasing_by
  all_goals simp only [List.length_cons]
  all_goals try omega
  exact Nat.lt_succ_of_le ((length_readODigit_le _ _).trans
    ((length_readODigit_le _ _).trans (Nat.le_succ _)))

/-- `unescape_string`: the decoded string in its buffer, its length, and what follows the closing quote. -/
def unescapeString : List UInt8 → Checked Unit Access (List UInt8 × ℕ × List UInt8)
  | [] => reject ()
  | c :: cp =>
    if c ≠ 0x22 then reject ()
    else
      match findQuote cp with
      | none => reject ()
      | some quote => do
        let (o, rest) ← unescapeLoop cp ⟨List.replicate ((c :: cp).length - quote.length + 1) 0, 0⟩
        return (o.buf, o.out, rest)

/-! ### Quoting -/

/-- `TOR_ISPRINT(c) && c < 127`. -/
def isPlain (c : UInt8) : Bool := 0x20 ≤ c && c < 0x7f

/-- The bytes that `esc_for_log` counts for a character. -/
def escLen (c : UInt8) : ℕ :=
  if c = 0x5c ∨ c = 0x22 ∨ c = 0x27 ∨ c = 0x0d ∨ c = 0x0a ∨ c = 0x09 then 2 else if isPlain c then 1 else 4

/-- The bytes that `esc_for_log` writes for a character. -/
def escChar (c : UInt8) : List UInt8 :=
  if c = 0x5c ∨ c = 0x22 ∨ c = 0x27 then [0x5c, c]
  else if c = 0x0a then [0x5c, 0x6e]
  else if c = 0x09 then [0x5c, 0x74]
  else if c = 0x0d then [0x5c, 0x72]
  else if isPlain c then [c]
  else [0x5c, digit (c.toNat / 64), digit (c.toNat / 8 % 8), digit (c.toNat % 8)]

def ssizeMax : ℕ := 2 ^ 63 - 1

/-- A character of `esc_for_log`, with the assertions on the room that is left. -/
def escStep (len : ℕ) (out : List UInt8) (c : UInt8) : Checked Unit Access (List UInt8) := do
  torAssert (out.length + 2 < len)
  torAssert ((escChar c).length < 4 ∨ out.length + 4 < len)
  return out ++ escChar c

def escForLog (s : List UInt8) : Checked Unit Access (List UInt8) := do
  let len := 3 + (s.map escLen).sum
  torAssert (len ≤ ssizeMax)
  let out ← s.foldlM (escStep len) [0x22]
  torAssert (out.length + 2 ≤ len)
  return out ++ [0x22]

end TorEbpf.Encoding
