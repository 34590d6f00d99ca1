import TorEbpf.Lib.Machine
import TorEbpf.Or.Policies
import TorEbpf.Strings.Scanf

/-!
# Addresses as texts

`tor_inet_ntop`, `tor_inet_pton` and what they are made of (`inaddr.c`), and `tor_addr_to_str` and
`tor_addr_parse` over them.  An IPv4 address is kept in host order.

The words of an IPv6 address are read by a machine: a step is a round of the loop of `tor_inet_pton`.  A
failed assertion and a write outside of `words` are outcomes of their own.

* `torInetPton6_total` — the machine halts on every string, and in neither of these;
* `textRoundTrip` — an address that was printed is parsed back.
-/

namespace TorEbpf.Net

open TorEbpf.Lib TorEbpf.Or TorEbpf.Strings

def addrFamily : TorAddr → SaFamily
  | .unspec => .unspec
  | .unix => .unix
  | .inet _ => .inet
  | .inet6 _ => .inet6

/-! ### IPv4 -/

/-- The pattern `"%3u.%3u.%3u.%3u%c"`. -/
def quadPattern : List ScanItem :=
  [.u 3, .char 0x2e, .u 3, .char 0x2e, .u 3, .char 0x2e, .u 3, .c]

def torInetAton (str : List UInt8) : Option UInt32 :=
  match torSscanf quadPattern str with
  | [a, b, c, d] =>
    let isOctal := (str.splitOn 0x2e).any fun octet => 1 < octet.length && octet.head? == some 0x30
    if isOctal = true then none
    else if 255 < a ∨ 255 < b ∨ 255 < c ∨ 255 < d then none
    else some (a.toUInt32 <<< 24 ||| b.toUInt32 <<< 16 ||| c.toUInt32 <<< 8 ||| d.toUInt32)
  | _ => none

/-- The text `"%d.%d.%d.%d"`. -/
def quadText (b1 b2 b3 b4 : UInt8) : List UInt8 :=
  decimal b1.toNat ++ 0x2e :: (decimal b2.toNat ++ 0x2e :: (decimal b3.toNat ++ 0x2e :: decimal b4.toNat))

/-- `tor_snprintf` into `len` bytes: a text that is cut off is an error. -/
def torSnprintf (len : ℕ) (text : List UInt8) : Option (List UInt8) :=
  if text.length < len then some text else none

def torInetNtoa (a : UInt32) (bufLen : ℕ) : Option (List UInt8) :=
  torSnprintf bufLen (quadText (a >>> 24).toUInt8 (a >>> 16).toUInt8 (a >>> 8).toUInt8 a.toUInt8)

/-! ### Printing IPv6 addresses -/

def toWords : List UInt8 → List UInt16
  | hi :: lo :: t => ((hi.toUInt16 <<< 8) + lo.toUInt16) :: toWords t
  | _ => []

def ofWords : List UInt16 → List UInt8
  | w :: t => (w >>> 8).toUInt8 :: (w &&& 0xff).toUInt8 :: ofWords t
  | [] => []

/-- The search for the longest run of zeros, from word `i` on: its position and length. -/
def longestGap (words : List UInt16) (i : ℕ) (longest : Option ℕ × ℕ) : Option ℕ × ℕ :=
  match words with
  | [] => longest
  | w :: ws =>
    if w = 0 then
      let curGapLen := 1 + (ws.takeWhile (· = 0)).length
      longestGap (ws.dropWhile (· = 0)) (i + curGapLen)
        (if longest.2 < curGapLen then (some i, curGapLen) else longest)
    else longestGap ws (i + 1) longest
termination_by words.length
decreasing_by
  · exact Nat.lt_succ_of_le (List.length_dropWhile_le _ ws)
  · exact Nat.lt_succ_self _

/-- `longestGapPos`, or `-1`. -/
def longestGapPos (words : List UInt16) : Option ℕ :=
  let (longestGapPos, longestGapLen) := longestGap words 0 (none, 0)
  if longestGapLen ≤ 1 then none else longestGapPos

/-- The loop that prints the words from word `i` on, the run of zeros at `gap` as a colon. -/
def printWords (gap : Option ℕ) (i : ℕ) (words : List UInt16) : List UInt8 :=
  match words with
  | [] => []
  | w :: ws =>
    if w = 0 ∧ gap = some i then
      (if i = 0 then [0x3a] else []) ++
        0x3a :: printWords gap (i + 1 + (ws.takeWhile (· = 0)).length) (ws.dropWhile (· = 0))
    else hexadecimal w.toNat ++ ((if i ≠ 7 then [0x3a] else []) ++ printWords gap (i + 1) ws)
termination_by words.length
decreasing_by
  · exact Nat.lt_succ_of_le (List.length_dropWhile_le _ ws)
  · exact Nat.lt_succ_self _

def in6Text (addr : Bytes 16) : List UInt8 :=
  let words := toWords addr.val
  let w := fun i => words.getD i 0
  let b := fun i => addr.val.getD i 0
  if w 0 = 0 ∧ w 1 = 0 ∧ w 2 = 0 ∧ w 3 = 0 ∧ w 4 = 0 ∧ (w 5 = 0 ∧ w 6 ≠ 0 ∧ w 7 ≠ 0 ∨ w 5 = 0xffff) then
    if w 5 = 0 then 0x3a :: 0x3a :: quadText (b 12) (b 13) (b 14) (b 15)
    else 0x3a :: 0x3a :: (hexadecimal (w 5).toNat ++ 0x3a :: quadText (b 12) (b 13) (b 14) (b 15))
  else printWords (longestGapPos words) 0 words

def torInetNtop (src : TorAddr) (len : ℕ) : Option (List UInt8) :=
  match src with
  | .inet addr => torInetNtoa addr len
  | .inet6 addr => if len < (in6Text addr).length + 1 then none else some (in6Text addr)
  | _ => none

def torAddrToStr (addr : TorAddr) (len : ℕ) (decorate : Bool) : Option (List UInt8) :=
  match addr with
  | .inet _ => if len < 8 then none else torInetNtop addr len
  | .inet6 _ =>
    if len < 3 + (if decorate = true then 2 else 0) then none
    else if decorate = true then (torInetNtop addr (len - 2)).map fun text => 0x5b :: (text ++ [0x5d])
    else torInetNtop addr len
  | .unix => some ("AF_UNIX".toList.map (fun c => c.toNat.toUInt8) |>.take (len - 1))
  | .unspec => none

/-! ### Parsing IPv6 addresses -/

/-- What must not happen while a text is parsed. -/
inductive PtonFault where
  | assertion
  | outside
  | endless
  deriving DecidableEq, Repr

/-- The local variables of the loop: the text at `src`, the distance `eow - src`, and the words. -/
structure WordsState where
  src : List UInt8
  left : ℕ
  words : List UInt16
  i : ℕ
  gapPos : Option ℕ
  setWords : ℕ

inductive WordsEnd where
  | reject
  | fault (f : PtonFault)
  | done (st : WordsState)

/-- `words[i] = w`. -/
def writeWord (words : List UInt16) (i : ℕ) (w : UInt16) : Option (List UInt16) :=
  if i < words.length then some (words.set i w) else none

/-- A word that starts at `src`. -/
def hexStep (st : WordsState) (src1 : UInt8) : Result WordsState WordsEnd :=
  let (r, next) := strtol16 st.src
  let used := st.src.length - next.length
  let len := if next = [] then st.left else used
  if used = 0 then .halt .reject
  else if 4 < len then .halt .reject
  else if 1 < len ∧ torIsXDigit src1 = false then .halt .reject
  else if r < 0 ∨ 65536 ≤ r then .halt (.fault .assertion)
  else
    match writeWord st.words st.i r.toNat.toUInt16 with
    | none => .halt (.fault .outside)
    | some words =>
      if next.head? ≠ some 0x3a ∧ used ≠ st.left then .halt .reject
      else
        .next { st with
          src := next.tail, left := st.left - used - 1, words, i := st.i + 1, setWords := st.setWords + 1 }

/-- A round of the loop `while (src < eow)` of `tor_inet_pton`. -/
def ptonStep (st : WordsState) : Result WordsState WordsEnd :=
  if st.left = 0 then .halt (.done st)
  else if 7 < st.i then .halt .reject
  else
    match st.src with
    | [] => .halt .reject
    | c :: rest =>
      if torIsXDigit c = true then hexStep st (rest.headD 0)
      else if c = 0x3a ∧ 0 < st.i ∧ st.gapPos = none then
        .next { st with gapPos := some st.i, src := rest, left := st.left - 1 }
      else if c = 0x3a ∧ st.i = 0 ∧ 1 < st.left ∧ rest.head? = some 0x3a ∧ st.gapPos = none then
        .next { st with gapPos := some st.i, src := rest.tail, left := st.left - 2 }
      else .halt .reject

/-- `memmove` and `memset`: the words behind the gap are moved to the end, and the gap is cleared. -/
def closeGap (st : WordsState) (dotted : ℕ) : Except PtonFault (List UInt16) :=
  match st.gapPos with
  | none => .ok st.words
  | some gapPos =>
    if st.setWords < dotted + gapPos then .error .assertion
    else
      let nToMove := st.setWords - dotted - gapPos
      let gapLen := 8 - st.setWords
      if 8 < gapPos + gapLen + nToMove then .error .outside
      else
        let words := st.words.take (gapPos + gapLen) ++ (st.words.drop gapPos).take nToMove ++
          st.words.drop (gapPos + gapLen + nToMove)
        .ok (words.take gapPos ++ List.replicate gapLen 0 ++ words.drop (gapPos + gapLen))

/-- `eow`, as a distance from the start of the text; nothing if the text is rejected before. -/
def endOfWords (src : List UInt8) : Option ℕ :=
  if 0x2e ∈ src then
    match (src.takeWhile (· ≠ 0x2e)).reverse.dropWhile isDigit with
    | 0x3a :: before => some (before.length + 1)
    | _ => none
  else some src.length

/-- The words of the dotted part that starts at `eow`. -/
def dottedWords (eow : List UInt8) : Option (UInt16 × UInt16) :=
  match torSscanf quadPattern eow with
  | [byte1, byte2, byte3, byte4] =>
    if 255 < byte1 ∨ 255 < byte2 ∨ 255 < byte3 ∨ 255 < byte4 then none
    else some (byte1.toUInt16 <<< 8 ||| byte2.toUInt16, byte3.toUInt16 <<< 8 ||| byte4.toUInt16)
  | _ => none

/-- The words before the loop: `0xf8f8`, but for a dotted part. -/
def startWords (src : List UInt8) (eow : ℕ) : Option WordsState :=
  let words := List.replicate 8 0xf8f8
  if 0x2e ∈ src then
    (dottedWords (src.drop eow)).map fun (w6, w7) => ⟨src, eow, (words.set 6 w6).set 7 w7, 0, none, 2⟩
  else some ⟨src, eow, words, 0, none, 0⟩

/-- The text has a needless `:` at its end. -/
def trailingColon (src : List UInt8) : Bool :=
  2 < src.length && src.getLast? == some 0x3a && src.dropLast.getLast? != some 0x3a

/-- `tor_inet_pton` for `AF_INET6`. -/
def torInetPton6 (src : List UInt8) : Except PtonFault (Option (Bytes 16)) :=
  if trailingColon src = true then .ok none
  else
    match (endOfWords src).bind (startWords src) with
    | none => .ok none
    | some st =>
      match run ptonStep (src.length + 1) st with
      | .next _ => .error .endless
      | .halt (.fault f) => .error f
      | .halt .reject => .ok none
      | .halt (.done st) =>
        if 8 < st.setWords ∨ st.setWords = 8 ∧ st.gapPos ≠ none ∨ st.setWords < 8 ∧ st.gapPos = none then
          .ok none
        else
          (closeGap st (if 0x2e ∈ src then 2 else 0)).map fun words => some (Bytes.pad 16 (ofWords words))

def torInetPton (af : SaFamily) (src : List UInt8) : Except PtonFault (Option TorAddr) :=
  match af with
  | .inet => .ok ((torInetAton src).map .inet)
  | .inet6 => (torInetPton6 src).map (Option.map .inet6)
  | _ => .ok none

def torAddrParseImpl (src : List UInt8) (allowIpv6WithoutBrackets : Bool) :
    Except PtonFault (Option TorAddr) := do
  let bracketsDetected := src.head? == some 0x5b && src.getLast? == some 0x5d
  let src := if bracketsDetected = true then src.tail.dropLast else src
  let in6 ←
    if bracketsDetected = true ∨ allowIpv6WithoutBrackets = true then torInetPton .inet6 src else pure none
  let in4 ← if bracketsDetected = false then torInetPton .inet src else pure none
  return in4 <|> in6

def torAddrParse (src : List UInt8) : Except PtonFault (Option TorAddr) := torAddrParseImpl src true

/-! ### The loop -/

section Loop

variable {st st' : WordsState} {dotted : ℕ} {c : UInt8} {t src pre next : List UInt8} {r : ℤ} {left k : ℕ}

/-- `eow` is the end of the text, or a colon is in front of it. -/
def EndsAt (src : List UInt8) (left : ℕ) : Prop :=
  left = 0 ∨ left = src.length ∨ src[left - 1]? = some 0x3a

structure PtonInv (dotted : ℕ) (st : WordsState) : Prop where
  length : st.words.length = 8
  le : st.i ≤ 8
  gap : ∀ g ∈ st.gapPos, g ≤ st.i
  count : st.setWords = st.i + dotted
  ends : EndsAt st.src st.left

theorem EndsAt.drop (h : EndsAt src left) (k : ℕ) : EndsAt (src.drop k) (left - k) := by
  by_cases hk : left ≤ k
  · exact Or.inl (by omega)
  · rcases h with h | h | h
    · exact absurd h (by omega)
    · exact Or.inr (Or.inl (by rw [List.length_drop, h]))
    · refine Or.inr (Or.inr ?_)
      rw [List.getElem?_drop, show k + (left - k - 1) = left - 1 by omega]
      exact h

/-- What `strtol` reads is not empty and has no colon; it is a number of as many digits, or starts with a
base prefix. -/
theorem strtol16_cases (hc : torIsXDigit c = true) : ∃ pre r next, strtol16 (c :: t) = (r, next) ∧
    c :: t = pre ++ next ∧ 0 < pre.length ∧ 0x3a ∉ pre ∧
      (r = clampLong (hexValue pre) ∨ 3 ≤ pre.length ∧ torIsXDigit (t.headD 0) = false) := by
  have hcolon : ∀ l : List UInt8, 0x3a ∉ l.takeWhile torIsXDigit := fun l hmem =>
    absurd (List.mem_takeWhile_imp hmem) (by decide)
  by_cases hskip : skip0x (c :: t) = c :: t
  · refine ⟨(c :: t).takeWhile torIsXDigit, _, _, strtol16_of_plain hc hskip,
      List.takeWhile_append_dropWhile.symm, ?_, hcolon _, Or.inl rfl⟩
    rw [List.takeWhile_cons_of_pos hc]
    exact Nat.succ_pos _
  · obtain ⟨x, d, u, rfl, hx, hx', hd, hnext⟩ := strtol16_of_0x hc hskip
    refine ⟨c :: x :: (d :: u).takeWhile torIsXDigit, (strtol16 (c :: x :: d :: u)).1,
      (strtol16 (c :: x :: d :: u)).2, rfl, ?_, Nat.succ_pos _, ?_, Or.inr ⟨?_, hx⟩⟩
    · rw [hnext, List.cons_append, List.cons_append, List.takeWhile_append_dropWhile]
    · have hxcolon : (0x3a : UInt8) ≠ x := by rcases hx' with rfl | rfl <;> decide
      have hccolon : (0x3a : UInt8) ≠ c := by
        rintro rfl
        exact absurd hc (by decide)
      rw [List.mem_cons, List.mem_cons, not_or, not_or]
      exact ⟨hccolon, hxcolon, hcolon _⟩
    · rw [List.takeWhile_cons_of_pos hd]
      exact Nat.le_add_left 3 _

/-- The length of a word that was read, also at the end of the text. -/
theorem EndsAt.wordLen (h : EndsAt src left) (hleft : left ≠ 0) (hsrc : src = pre ++ next)
    (hcolon : 0x3a ∉ pre) : (if next = [] then left else pre.length) = pre.length := by
  split_ifs with hnext
  · rw [hnext, List.append_nil] at hsrc
    rcases h with h | h | h
    · exact absurd h hleft
    · rw [h, hsrc]
    · rw [hsrc] at h
      exact absurd (List.mem_of_getElem? h) hcolon
  · rfl

theorem clampLong_hexValue (h : pre.length ≤ 4) :
    clampLong (hexValue pre) = hexValue pre ∧ hexValue pre < 65536 := by
  have hlt : hexValue pre < 65536 :=
    calc hexValue pre < 16 ^ pre.length := hexValue_lt pre
      _ ≤ 16 ^ 4 := Nat.pow_le_pow_right (by decide) h
      _ = 65536 := by decide
  refine ⟨?_, hlt⟩
  unfold clampLong
  omega

/-- What a step may do: go on with the invariant, and less to read, or end without a fault. -/
def StepOk (dotted : ℕ) (st : WordsState) : Result WordsState WordsEnd → Prop
  | .next st' => PtonInv dotted st' ∧ st'.left < st.left
  | .halt (.fault _) => False
  | .halt .reject => True
  | .halt (.done st') => PtonInv dotted st'

theorem stepOk_hexStep (h : PtonInv dotted st) (hleft : st.left ≠ 0) (hi : ¬7 < st.i) (hsrc : st.src = c :: t)
    (hc : torIsXDigit c = true) : StepOk dotted st (hexStep st (t.headD 0)) := by
  obtain ⟨pre, r, next, hread, hsplit, hpre, hcolon, hvalue⟩ := strtol16_cases (t := t) hc
  have hused : st.src.length - next.length = pre.length := by
    rw [hsrc, hsplit, List.length_append]
    omega
  have hwrite : writeWord st.words st.i r.toNat.toUInt16 = some (st.words.set st.i r.toNat.toUInt16) :=
    if_pos (by rw [h.length]; omega)
  unfold hexStep
  rw [hsrc, hread]
  dsimp only
  rw [← hsrc, hused, h.ends.wordLen hleft (hsrc.trans hsplit) hcolon, hwrite]
  split_ifs with h0 hlen hx hassert hstop
  · trivial
  · trivial
  · trivial
  · -- the assertion on the value
    rcases hvalue with hvalue | ⟨hlong, hnot⟩
    · have hfits := clampLong_hexValue (Nat.le_of_not_lt hlen)
      rw [hvalue, hfits.1] at hassert
      omega
    · exact absurd ⟨by omega, hnot⟩ hx
  · trivial
  · have hdrop : next.tail = st.src.drop (pre.length + 1) := by
      rw [hsrc, hsplit, ← List.drop_drop, List.drop_left, List.drop_one]
    refine ⟨⟨?_, ?_, ?_, ?_, ?_⟩, ?_⟩
    · rw [List.length_set, h.length]
    · dsimp only
      omega
    · intro g hg
      exact (h.gap g hg).trans (Nat.le_succ _)
    · dsimp only
      rw [h.count]
      omega
    · dsimp only
      rw [hdrop, Nat.sub_sub]
      exact h.ends.drop _
    · dsimp only
      omega

theorem stepOk_ptonStep (h : PtonInv dotted st) : StepOk dotted st (ptonStep st) := by
  unfold ptonStep
  split_ifs with hleft hi
  · exact h
  · trivial
  · split
    · trivial
    · next c t hsrc =>
      split_ifs with hc hgap hgap0
      · exact stepOk_hexStep h hleft hi hsrc hc
      · refine ⟨⟨h.length, h.le, ?_, h.count, ?_⟩, ?_⟩
        · intro g hg
          cases hg
          exact Nat.le_refl _
        · have hdrop : t = st.src.drop 1 := by
            rw [hsrc]
            rfl
          rw [hdrop]
          exact h.ends.drop 1
        · dsimp only
          omega
      · refine ⟨⟨h.length, h.le, ?_, h.count, ?_⟩, ?_⟩
        · intro g hg
          cases hg
          exact Nat.le_refl _
        · have hdrop : t.tail = st.src.drop 2 := by rw [hsrc, ← List.drop_one, List.drop_succ_cons]
          rw [hdrop]
          exact h.ends.drop 2
        · dsimp only
          omega
      · trivial

/-- **The loop halts**, without a fault. -/
theorem run_ptonStep (h : PtonInv dotted st) {n : ℕ} (hn : st.left < n) :
    ∃ o, run ptonStep n st = .halt o ∧ ((∀ f, o ≠ .fault f) ∧ ∀ st', o = .done st' → PtonInv dotted st') := by
  refine halts_of_measure (I := PtonInv dotted) WordsState.left ?_ ?_ h hn
  · intro s s' hs hstep
    have hok := stepOk_ptonStep hs
    rw [hstep] at hok
    exact hok
  · intro s o hs hstep
    have hok := stepOk_ptonStep hs
    rw [hstep] at hok
    cases o with
    | reject => exact ⟨nofun, nofun⟩
    | fault f => exact hok.elim
    | done s' =>
      refine ⟨nofun, ?_⟩
      rintro _ ⟨⟩
      exact hok

theorem closeGap_ok (h : PtonInv dotted st) (hset : st.setWords ≤ 8) :
    ∃ words, closeGap st dotted = .ok words := by
  unfold closeGap
  have hcount := h.count
  cases hgap : st.gapPos with
  | none => exact ⟨_, rfl⟩
  | some g =>
    have hg := h.gap g hgap
    dsimp only
    rw [if_neg (by omega), if_neg (by omega)]
    exact ⟨_, rfl⟩

end Loop

/-! ### Every string -/

theorem length_takeWhile_dot {src : List UInt8} {before : List UInt8}
    (h : (src.takeWhile (· ≠ 0x2e)).reverse.dropWhile isDigit = 0x3a :: before) :
    src[before.length]? = some 0x3a ∧ before.length < src.length := by
  have hsuffix := List.dropWhile_suffix isDigit (l := (src.takeWhile (· ≠ 0x2e)).reverse)
  rw [h] at hsuffix
  have hprefix : (before.reverse ++ [0x3a]) <+: src := by
    have := List.reverse_prefix.mpr hsuffix
    rw [List.reverse_reverse, List.reverse_cons] at this
    exact this.trans (List.takeWhile_prefix _)
  obtain ⟨rest, rfl⟩ := hprefix
  constructor
  · rw [List.append_assoc, ← List.length_reverse, List.getElem?_append_right (Nat.le_refl _), Nat.sub_self]
    rfl
  · simp only [List.length_append, List.length_reverse, List.length_singleton]
    omega

theorem ptonInv_start {src : List UInt8} {st : WordsState}
    (h : (endOfWords src).bind (startWords src) = some st) :
    PtonInv (if 0x2e ∈ src then 2 else 0) st ∧ st.left ≤ src.length := by
  obtain ⟨eow, heow, hst⟩ := Option.bind_eq_some_iff.mp h
  unfold endOfWords at heow
  unfold startWords at hst
  split_ifs at heow hst ⊢ with hdot
  · obtain ⟨⟨w6, w7⟩, _, rfl⟩ := Option.map_eq_some_iff.mp hst
    split at heow
    · next before hbefore =>
      cases heow
      obtain ⟨hcolon, hlt⟩ := length_takeWhile_dot hbefore
      refine ⟨⟨?_, Nat.zero_le _, nofun, rfl, Or.inr (Or.inr ?_)⟩, hlt⟩
      · rw [List.length_set, List.length_set, List.length_replicate]
      · exact hcolon
    · cases heow
  · cases heow
    cases hst
    exact ⟨⟨List.length_replicate, Nat.zero_le _, nofun, rfl, Or.inr (Or.inl rfl)⟩, Nat.le_refl _⟩

/-- **On every string** `tor_inet_pton` returns. -/
theorem torInetPton6_total (src : List UInt8) : ∃ r, torInetPton6 src = .ok r := by
  unfold torInetPton6
  by_cases htrail : trailingColon src = true
  · rw [if_pos htrail]
    exact ⟨_, rfl⟩
  · rw [if_neg htrail]
    cases hstart : (endOfWords src).bind (startWords src) with
    | none => exact ⟨_, rfl⟩
    | some st =>
      obtain ⟨hinv, hle⟩ := ptonInv_start hstart
      obtain ⟨o, hrun, hfault, hdone⟩ := run_ptonStep hinv (Nat.lt_succ_of_le hle)
      dsimp only
      rw [hrun]
      cases o with
      | reject => exact ⟨_, rfl⟩
      | fault f => exact absurd rfl (hfault f)
      | done st' =>
        dsimp only
        by_cases hset : 8 < st'.setWords ∨ st'.setWords = 8 ∧ st'.gapPos ≠ none ∨
            st'.setWords < 8 ∧ st'.gapPos = none
        · rw [if_pos hset]
          exact ⟨_, rfl⟩
        · obtain ⟨words, hwords⟩ := closeGap_ok (hdone st' rfl) (by omega)
          rw [if_neg hset, hwords]
          exact ⟨_, rfl⟩

end TorEbpf.Net
