import TorEbpf.Net.InetRoundTrip

/-!
# Names for reverse lookups

`tor_addr_to_PTR_name` and `tor_addr_parse_PTR_name`: a name in `in-addr.arpa` has the bytes of an IPv4
address in reverse order, a name in `ip6.arpa` the nybbles of an IPv6 address.

The parser reads the nybbles from memory that ends with the terminating NUL; a read behind it is a fault.

* `exists_nybbleLoop` — the loop stays in front of the end of a name that ends in `.ip6.arpa`;
* `ptrNames` — every address is parsed back from its name, and no name makes the loop read behind its end.
-/

namespace TorEbpf.Net

open TorEbpf.Lib TorEbpf.Or TorEbpf.Strings

/-! ### Texts without case -/

def toLower (c : UInt8) : UInt8 := if 65 ≤ c ∧ c ≤ 90 then c + 32 else c

/-- `!strcasecmp(s1, s2)`. -/
def sameNoCase (s1 s2 : List UInt8) : Bool := s1.map toLower == s2.map toLower

/-- `!strcasecmpend(s1, s2)`. -/
def endsNoCase (s1 s2 : List UInt8) : Bool :=
  if s1.length < s2.length then sameNoCase s1 s2 else sameNoCase (s1.drop (s1.length - s2.length)) s2

def inAddrArpa : List UInt8 := [0x2e, 0x69, 0x6e, 0x2d, 0x61, 0x64, 0x64, 0x72, 0x2e, 0x61, 0x72, 0x70, 0x61]

def ip6Arpa : List UInt8 := [0x69, 0x70, 0x36, 0x2e, 0x61, 0x72, 0x70, 0x61]

/-! ### Printing -/

/-- The four characters of a byte: the low nybble appears first. -/
def nybbles (byte : UInt8) : List UInt8 :=
  [hexDigit (byte &&& 0x0f).toNat, 0x2e, hexDigit (byte >>> 4).toNat, 0x2e]

def reverseLookupNameBufLen : ℕ := 73

def torAddrToPTRName (outlen : ℕ) (addr : TorAddr) : Option (List UInt8) :=
  match addr with
  | .inet a =>
    torSnprintf outlen
      (quadText a.toUInt8 (a >>> 8).toUInt8 (a >>> 16).toUInt8 (a >>> 24).toUInt8 ++ inAddrArpa)
  | .inet6 bytes =>
    if outlen < reverseLookupNameBufLen then none else some (bytes.val.reverse.flatMap nybbles ++ ip6Arpa)
  | _ => none

/-! ### Parsing -/

/-- What must not happen while a name is parsed. -/
inductive PtrFault where
  | pastEnd
  | pton (f : PtonFault)
  deriving DecidableEq, Repr

/-- A character, `*cp++`, and the dot that has to follow it. -/
def readDotted : List UInt8 → Except PtrFault (Option (UInt8 × List UInt8))
  | c :: dot :: cp => .ok (if dot = 0x2e then some (c, cp) else none)
  | _ => .error .pastEnd

/-- `n` rounds of the loop over the nybbles: the bytes from the low one on are put in front of `in6`, and
`cp` is left behind them. -/
def nybbleLoop : ℕ → List UInt8 → List UInt8 → Except PtrFault (Option (List UInt8 × List UInt8))
  | 0, cp, in6 => .ok (some (in6, cp))
  | n + 1, cp, in6 =>
    match readDotted cp with
    | .error f => .error f
    | .ok none => .ok none
    | .ok (some (c0, cp)) =>
      match readDotted cp with
      | .error f => .error f
      | .ok none => .ok none
      | .ok (some (c1, cp)) =>
        match hexDecodeDigit c0, hexDecodeDigit c1 with
        | some n0, some n1 => nybbleLoop n cp ((n0 ||| n1 <<< 4).toUInt8 :: in6)
        | _, _ => .ok none

/-- `!strcasecmp(cp, s)`; the string at `cp` has to end. -/
def sameAt (cp s : List UInt8) : Except PtrFault Bool :=
  if 0 ∈ cp then .ok (sameNoCase (cp.takeWhile (· ≠ 0)) s) else .error .pastEnd

def swapBytes (s : UInt32) : UInt32 :=
  (s &&& 0xff) <<< 24 ||| (s &&& 0xff00) <<< 8 ||| (s &&& 0xff0000) >>> 8 ||| (s &&& 0xff000000) >>> 24

/-- What `tor_addr_parse_PTR_name` returns: 0, -1, or 1 with an address. -/
inductive PtrResult where
  | notReverse
  | malformed
  | addr (result : TorAddr)
  deriving DecidableEq, Repr

/-- A name in `in-addr.arpa`. -/
def parseInAddr (address : List UInt8) (family : SaFamily) : PtrResult :=
  if family = .inet6 then .malformed
  else
    let len := address.length - inAddrArpa.length
    if 16 ≤ len then .malformed
    else
      match torInetAton (address.take len) with
      | none => .malformed
      | some inaddr => .addr (.inet (swapBytes inaddr))

/-- A name in `ip6.arpa`. -/
def parseIp6 (address : List UInt8) (family : SaFamily) : Except PtrFault PtrResult :=
  if family = .inet then .ok .malformed
  else
    match nybbleLoop 16 (address ++ [0]) [] with
    | .error f => .error f
    | .ok none => .ok .malformed
    | .ok (some (in6, cp)) =>
      (sameAt cp ip6Arpa).map fun same => if same = true then .addr (.inet6 (Bytes.pad 16 in6)) else .malformed

def torAddrParsePTRName (address : List UInt8) (family : SaFamily) (acceptRegular : Bool) :
    Except PtrFault PtrResult :=
  if endsNoCase address inAddrArpa = true then .ok (parseInAddr address family)
  else if endsNoCase address (0x2e :: ip6Arpa) = true then parseIp6 address family
  else if acceptRegular = true then
    match torAddrParse address with
    | .error f => .error (.pton f)
    | .ok none => .ok .notReverse
    | .ok (some tmp) =>
      if addrFamily tmp ≠ family ∧ family ≠ .unspec then .ok .malformed else .ok (.addr tmp)
  else .ok .notReverse

/-! ### The loop -/

section Loop

variable {address cp in6 rest bytes : List UInt8} {n : ℕ}

/-- There is a character in front of the terminating NUL, and it is no dot. -/
def BeforeEnd (cp : List UInt8) : Prop := ∃ u z, z ≠ 0x2e ∧ cp = u ++ [z, 0]

/-- **A character and a dot** cannot take `cp` to the end. -/
theorem BeforeEnd.readDotted (h : BeforeEnd cp) : ∃ r, readDotted cp = .ok r ∧ ∀ p ∈ r, BeforeEnd p.2 := by
  obtain ⟨u, z, hz, rfl⟩ := h
  match u with
  | [] => exact ⟨none, rfl, nofun⟩
  | [c] => exact ⟨none, by rw [List.singleton_append, Net.readDotted, if_neg hz], nofun⟩
  | c :: dot :: u =>
    refine ⟨_, rfl, ?_⟩
    intro p hp
    split_ifs at hp
    · cases hp
      exact ⟨u, z, hz, rfl⟩
    · cases hp

/-- **The loop does not read behind the end**, and leaves `cp` in front of it. -/
theorem exists_nybbleLoop (h : BeforeEnd cp) :
    ∃ r, nybbleLoop n cp in6 = .ok r ∧ ∀ p ∈ r, BeforeEnd p.2 := by
  induction n generalizing cp in6 with
  | zero =>
    refine ⟨_, rfl, ?_⟩
    rintro _ ⟨⟩
    exact h
  | succ n ih =>
    rw [nybbleLoop]
    obtain ⟨r0, hr0, h0⟩ := h.readDotted
    rw [hr0]
    match r0, h0 with
    | none, _ => exact ⟨none, rfl, nofun⟩
    | some (c0, cp0), h0 =>
      obtain ⟨r1, hr1, h1⟩ := (h0 _ rfl).readDotted
      dsimp only
      rw [hr1]
      match r1, h1 with
      | none, _ => exact ⟨none, rfl, nofun⟩
      | some (c1, cp1), h1 =>
        dsimp only
        split
        · exact ih (h1 _ rfl)
        · exact ⟨none, rfl, nofun⟩

/-- The last character of a name in `ip6.arpa` is no dot. -/
theorem beforeEnd_of_endsNoCase (h : endsNoCase address (0x2e :: ip6Arpa) = true) :
    BeforeEnd (address ++ [0]) := by
  unfold endsNoCase at h
  have hsame : ∃ s, (∃ l, address = l ++ s) ∧ sameNoCase s (0x2e :: ip6Arpa) = true := by
    split_ifs at h
    · exact ⟨address, ⟨[], rfl⟩, h⟩
    · exact ⟨_, ⟨_, (List.take_append_drop _ address).symm⟩, h⟩
  obtain ⟨s, ⟨l, rfl⟩, hs⟩ := hsame
  rw [sameNoCase, beq_iff_eq] at hs
  have hlen := congrArg List.length hs
  rw [List.length_map] at hlen
  have hne : s ≠ [] := List.ne_nil_of_length_pos (by rw [hlen]; decide)
  obtain ⟨u, z, rfl⟩ : ∃ u z, s = u ++ [z] := ⟨_, _, (List.dropLast_append_getLast hne).symm⟩
  refine ⟨l ++ u, z, ?_, by simp⟩
  rintro rfl
  have hlast := congrArg List.getLast? hs
  rw [List.map_append, List.map_singleton, List.getLast?_concat] at hlast
  exact absurd hlast (by decide)

theorem zero_mem_of_beforeEnd (h : BeforeEnd cp) : 0 ∈ cp := by
  obtain ⟨u, z, _, rfl⟩ := h
  simp

theorem exists_torAddrParsePTRName (address : List UInt8) (family : SaFamily) (acceptRegular : Bool) :
    ∃ r, torAddrParsePTRName address family acceptRegular = .ok r := by
  unfold torAddrParsePTRName
  split_ifs with hin hip6 haccept
  · exact ⟨_, rfl⟩
  · unfold parseIp6
    split_ifs
    · exact ⟨_, rfl⟩
    · obtain ⟨r, hr, hcp⟩ := @exists_nybbleLoop (address ++ [0]) [] 16 (beforeEnd_of_endsNoCase hip6)
      rw [hr]
      match r, hcp with
      | none, _ => exact ⟨_, rfl⟩
      | some (in6, cp), hcp =>
        dsimp only
        rw [sameAt, if_pos (zero_mem_of_beforeEnd (hcp _ rfl))]
        exact ⟨_, rfl⟩
  · obtain ⟨tmp, htmp⟩ := torAddrParse_total address
    rw [htmp]
    cases tmp with
    | none => exact ⟨_, rfl⟩
    | some tmp =>
      dsimp only
      split_ifs
      · exact ⟨_, rfl⟩
      · exact ⟨_, rfl⟩
  · exact ⟨_, rfl⟩

/-! ### Addresses -/

theorem readDotted_nybbles (b : UInt8) (n : ℕ) : nybbleLoop (n + 1) (nybbles b ++ rest) in6 =
    nybbleLoop n rest (b :: in6) := by
  have hb := b.toNat_lt
  have hlo : (b &&& 0x0f).toNat = b.toNat % 16 := by
    rw [UInt8.toNat_and]
    exact Nat.and_two_pow_sub_one_eq_mod b.toNat 4
  have hhi : (b >>> 4).toNat = b.toNat / 16 := by
    rw [UInt8.toNat_shiftRight]
    exact Nat.shiftRight_eq_div_pow b.toNat 4
  have hbyte : (b.toNat % 16 ||| (b.toNat / 16) <<< 4).toUInt8 = b := by
    have hor : b.toNat % 16 ||| (b.toNat / 16) <<< 4 = b.toNat := by
      rw [Nat.or_comm, ← Nat.shiftLeft_add_eq_or_of_lt (show b.toNat % 16 < 2 ^ 4 by omega), Nat.shiftLeft_eq]
      omega
    rw [hor]
    exact UInt8.ofNat_toNat
  have hdigits : hexDecodeDigit (hexDigit (b.toNat % 16)) = some (b.toNat % 16) ∧
      hexDecodeDigit (hexDigit (b.toNat / 16)) = some (b.toNat / 16) :=
    ⟨hexDecodeDigit_hexDigit (by omega), hexDecodeDigit_hexDigit (by omega)⟩
  have htext : nybbles b ++ rest =
      hexDigit (b.toNat % 16) :: 0x2e :: hexDigit (b.toNat / 16) :: 0x2e :: rest := by
    rw [nybbles, hlo, hhi]
    rfl
  rw [htext, nybbleLoop]
  simp only [Net.readDotted, if_true]
  rw [hdigits.1, hdigits.2]
  dsimp only
  rw [hbyte]

/-- **The bytes are read back**, in reverse order. -/
theorem nybbleLoop_nybbles : nybbleLoop bytes.length (bytes.flatMap nybbles ++ rest) in6 =
    .ok (some (bytes.reverse ++ in6, rest)) := by
  induction bytes generalizing in6 with
  | nil => rfl
  | cons b bytes ih =>
    rw [List.length_cons, List.flatMap_cons, List.append_assoc, readDotted_nybbles, ih, List.reverse_cons,
      List.append_assoc]
    rfl

end Loop

theorem swapBytes_eq (s : UInt32) : swapBytes s = s.toUInt8.toNat.toUInt32 <<< 24 |||
    (s >>> 8).toUInt8.toNat.toUInt32 <<< 16 ||| (s >>> 16).toUInt8.toNat.toUInt32 <<< 8 |||
      (s >>> 24).toUInt8.toNat.toUInt32 := by
  have hconv : ∀ b : UInt8, b.toNat.toUInt32 = b.toUInt32 := by
    intro b
    rw [← UInt32.toNat_inj]
    simp
  rw [hconv, hconv, hconv, hconv, swapBytes]
  apply UInt32.eq_of_toBitVec_eq
  simp only [UInt32.toBitVec_or, UInt32.toBitVec_and, UInt32.toBitVec_shiftLeft, UInt32.toBitVec_shiftRight,
    UInt8.toBitVec_toUInt32, UInt32.toBitVec_toUInt8]
  apply BitVec.eq_of_getLsbD_eq
  intro i hi
  interval_cases i <;> simp

theorem bytes_quad {b1 b2 b3 b4 : UInt8} {a : UInt32}
    (h : a = b1.toNat.toUInt32 <<< 24 ||| b2.toNat.toUInt32 <<< 16 ||| b3.toNat.toUInt32 <<< 8 |||
      b4.toNat.toUInt32) :
    a.toUInt8 = b4 ∧ (a >>> 8).toUInt8 = b3 ∧ (a >>> 16).toUInt8 = b2 ∧ (a >>> 24).toUInt8 = b1 := by
  have hnat := toNat_quad b1 b2 b3 b4
  rw [← h] at hnat
  have h1 := b1.toNat_lt
  have h2 := b2.toNat_lt
  have h3 := b3.toNat_lt
  have h4 := b4.toNat_lt
  refine ⟨?_, ?_, ?_, ?_⟩ <;> rw [← UInt8.toNat_inj] <;> simp [Nat.shiftRight_eq_div_pow] <;> omega

/-- The name of an address, and what is parsed of it: in any family that does not exclude the address. -/
structure PtrRoundTrip (addr : TorAddr) : Prop where
  parse : ∀ outlen name family acceptRegular, torAddrToPTRName outlen addr = some name →
    family = .unspec ∨ family = addrFamily addr →
    torAddrParsePTRName name family acceptRegular = .ok (.addr addr)
  fits : ∀ outlen, reverseLookupNameBufLen ≤ outlen → (torAddrToPTRName outlen addr).isSome

theorem endsNoCase_append (l s : List UInt8) : endsNoCase (l ++ s) s = true := by
  rw [endsNoCase, if_neg (by rw [List.length_append]; omega), List.length_append, Nat.add_sub_cancel,
    List.drop_left, sameNoCase, beq_self_eq_true]

theorem ptrRoundTrip_inet (a : UInt32) : PtrRoundTrip (.inet a) := by
  have hlen : inAddrArpa.length = 13 := rfl
  have hquad := @length_quadText_le a.toUInt8 (a >>> 8).toUInt8 (a >>> 16).toUInt8 (a >>> 24).toUInt8
  constructor
  · intro outlen name family acceptRegular h hfamily
    rw [torAddrToPTRName, torSnprintf] at h
    split_ifs at h
    cases h
    have hnot6 : family ≠ .inet6 := by
      intro h6
      rw [h6] at hfamily
      rcases hfamily with h | h
      · cases h
      · cases h
    have haddr := bytes_quad (rfl : (_ : UInt32) = a.toUInt8.toNat.toUInt32 <<< 24 |||
      (a >>> 8).toUInt8.toNat.toUInt32 <<< 16 ||| (a >>> 16).toUInt8.toNat.toUInt32 <<< 8 |||
        (a >>> 24).toUInt8.toNat.toUInt32)
    have hswap : swapBytes (a.toUInt8.toNat.toUInt32 <<< 24 |||
      (a >>> 8).toUInt8.toNat.toUInt32 <<< 16 ||| (a >>> 16).toUInt8.toNat.toUInt32 <<< 8 |||
        (a >>> 24).toUInt8.toNat.toUInt32) = a := by
      rw [swapBytes_eq, haddr.1, haddr.2.1, haddr.2.2.1, haddr.2.2.2, quad_eq]
    rw [torAddrParsePTRName, if_pos (endsNoCase_append _ _), parseInAddr, if_neg hnot6]
    dsimp only
    rw [List.length_append, Nat.add_sub_cancel, if_neg (by omega), List.take_left, torInetAton_quadText]
    dsimp only
    rw [hswap]
  · intro outlen hout
    unfold reverseLookupNameBufLen at hout
    rw [torAddrToPTRName, torSnprintf, if_pos (by rw [List.length_append]; omega)]
    rfl

theorem length_nybbles (bytes : List UInt8) : (bytes.flatMap nybbles).length = 4 * bytes.length := by
  induction bytes with
  | nil => rfl
  | cons b bytes ih =>
    rw [List.flatMap_cons, List.length_append, ih, List.length_cons]
    have hb : (nybbles b).length = 4 := rfl
    omega

theorem exists_nybbles_dot {bytes : List UInt8} (h : bytes ≠ []) :
    ∃ l, bytes.flatMap nybbles = l ++ [0x2e] := by
  refine ⟨bytes.dropLast.flatMap nybbles ++ (nybbles (bytes.getLast h)).take 3, ?_⟩
  conv_lhs => rw [← List.dropLast_append_getLast h, List.flatMap_append, List.flatMap_singleton]
  rw [List.append_assoc]
  rfl

theorem ptrRoundTrip_inet6 (a : Bytes 16) : PtrRoundTrip (.inet6 a) := by
  have hlen : a.val.reverse.length = 16 := by rw [List.length_reverse, a.length_eq]
  constructor
  · intro outlen name family acceptRegular h hfamily
    rw [torAddrToPTRName] at h
    split_ifs at h
    cases h
    have hnot4 : family ≠ .inet := by
      rcases hfamily with rfl | rfl <;> nofun
    have hin : endsNoCase (a.val.reverse.flatMap nybbles ++ ip6Arpa) inAddrArpa = false := by
      have hbody : (a.val.reverse.flatMap nybbles).length = 64 := by rw [length_nybbles, hlen]
      have hname : (a.val.reverse.flatMap nybbles ++ ip6Arpa).length = 72 := by
        rw [List.length_append, hbody]
        rfl
      have hin : inAddrArpa.length = 13 := rfl
      rw [endsNoCase, hname, hin, if_neg (by decide), sameNoCase, beq_eq_false_iff_ne]
      intro heq
      -- the last eight characters differ
      have hdrop := congrArg (List.drop 5) heq
      rw [← List.map_drop, List.drop_drop, List.drop_left' hbody] at hdrop
      exact absurd hdrop (by decide)
    have hip6 : endsNoCase (a.val.reverse.flatMap nybbles ++ ip6Arpa) (0x2e :: ip6Arpa) = true := by
      obtain ⟨l, hl⟩ := exists_nybbles_dot (List.ne_nil_of_length_pos (show 0 < a.val.reverse.length by omega))
      rw [hl, List.append_assoc]
      exact endsNoCase_append l (0x2e :: ip6Arpa)
    have hloop := @nybbleLoop_nybbles [] (ip6Arpa ++ [0]) a.val.reverse
    rw [hlen, List.reverse_reverse, List.append_nil] at hloop
    rw [torAddrParsePTRName, hin, if_neg Bool.false_ne_true, if_pos hip6, parseIp6, if_neg hnot4,
      List.append_assoc, hloop]
    dsimp only
    rw [Bytes.pad_val]
    rfl
  · intro outlen hout
    rw [torAddrToPTRName, if_neg (Nat.not_lt.mpr hout)]
    rfl

/-- **Reverse lookups.**  The name of every address is parsed back, on every name that ends in `.ip6.arpa` the
loop over the nybbles stays in front of the end, and on every name the parser returns. -/
theorem ptrNames : (∀ a, PtrRoundTrip (.inet a)) ∧ (∀ a, PtrRoundTrip (.inet6 a)) ∧
    (∀ address, endsNoCase address (0x2e :: ip6Arpa) = true →
      ∃ r, nybbleLoop 16 (address ++ [0]) [] = .ok r) ∧
    ∀ address family acceptRegular, ∃ r, torAddrParsePTRName address family acceptRegular = .ok r := by
  refine ⟨ptrRoundTrip_inet, ptrRoundTrip_inet6, ?_, exists_torAddrParsePTRName⟩
  intro address h
  obtain ⟨r, hr, _⟩ := exists_nybbleLoop (beforeEnd_of_endsNoCase h)
  exact ⟨r, hr⟩

end TorEbpf.Net
