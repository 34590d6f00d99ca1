import TorEbpf.Client.AddressRewrite

/-!
# Virtual addresses

The ranges of `VirtualAddrNetworkIPv4` and `VirtualAddrNetworkIPv6`, the test whether an address is in one of
them, and the search for a random address that is not mapped yet.

* `overlay_prefix` — random bytes under the first bits of the network;
* `getVirtualAddress_spec` — the address that is found is virtual, and is not mapped.
-/

namespace TorEbpf.Client

open TorEbpf.Lib TorEbpf.Net TorEbpf.Or

/-! ### The functions -/

/-- `virtaddr_conf_ipv4` and `virtaddr_conf_ipv6`, as `parse_virtual_addr_network` lets them be. -/
structure VirtualRanges where
  ipv4 : UInt32
  bits4 : UInt8
  ipv6 : Bytes 16
  bits6 : UInt8
  bits4_le : bits4.toNat ≤ 16
  bits6_le : bits6.toNat ≤ 104

def dotVirtual : CString := [0x2e, 0x76, 0x69, 0x72, 0x74, 0x75, 0x61, 0x6c]

def VirtualRanges.conf (ranges : VirtualRanges) (addr : TorAddr) : TorAddr × UInt8 :=
  if addrFamily addr = .inet6 then (.inet6 ranges.ipv6, ranges.bits6) else (.inet ranges.ipv4, ranges.bits4)

/-- `tor_addr_compare_masked(addr, &conf->addr, conf->bits, CMP_EXACT) == 0`. -/
def VirtualRanges.covers (ranges : VirtualRanges) (addr : TorAddr) : Bool :=
  torAddrCompareMasked ⟨0, addr⟩ ⟨1, (ranges.conf addr).1⟩ (ranges.conf addr).2 .exact == 0

def addressIsInVirtualRange (ranges : VirtualRanges) (address : CString) : Bool :=
  if endsNoCase address dotVirtual then true
  else
    match torAddrParse address with
    | .ok (some addr) => ranges.covers addr
    | _ => false

/-- What must not happen to the maps, and the ways in which an operation comes to no end: a string that is
absent or has been freed is read, an assertion fails, or a loop goes on. -/
inductive VirtFault where
  | absent
  | freed
  | assertion
  | endless
  deriving DecidableEq, Repr

/-- Random bytes, with the first `bits` bits of a network. -/
def overlay (network random : List UInt8) (bits : ℕ) : List UInt8 :=
  let bytes := if 8 ≤ bits then network.take (bits / 8) ++ random.drop (bits / 8) else random
  if bits % 8 ≠ 0 then
    let mask : UInt8 := UInt8.ofNat (0xff >>> (bits % 8))
    bytes.set (bits / 8) ((bytes.getD (bits / 8) 0 &&& mask) ||| (network.getD (bits / 8) 0 &&& ~~~mask))
  else bytes

/-- `get_random_virtual_addr`, from the bytes that `crypto_rand` yields. -/
def getRandomVirtualAddr (ranges : VirtualRanges) (ipv6 : Bool)
    (random : Bytes 16) : Except VirtFault TorAddr :=
  let addr : TorAddr :=
    if ipv6 then .inet6 (Bytes.pad 16 (overlay ranges.ipv6.val random.val ranges.bits6.toNat))
    else
      .inet (UInt32.ofNat (beNat (overlay (beBytes 4 ranges.ipv4.toNat)
        (random.val.take 4) ranges.bits4.toNat)))
  if ranges.covers addr then .ok addr else .error .assertion

def base32Chars : List UInt8 :=
  (List.range 26).map (fun i => UInt8.ofNat (0x61 + i)) ++ (List.range 6).map fun i => UInt8.ofNat (0x32 + i)

def base32Encode (src : List UInt8) : CString :=
  (List.range ((src.length * 8 + 4) / 5)).map fun i =>
    let bit := i * 5
    let v := (src.getD (bit / 8) 0).toNat <<< 8 + (src.getD (bit / 8 + 1) 0).toNat
    base32Chars.getD (v >>> (11 - bit % 8) &&& 0x1f) 0

/-- `RESOLVED_TYPE_HOSTNAME`, `RESOLVED_TYPE_IPV4`, `RESOLVED_TYPE_IPV6`, and any other number. -/
inductive ResolvedType where
  | hostname
  | ipv4
  | ipv6
  | unsupported
  deriving DecidableEq, Repr

/-- What `crypto_rand` yields while an address is looked for: names, and the addresses of 1000 attempts. -/
structure Draws where
  names : List (Bytes 10)
  addresses : List (Bytes 16)
  attempts : addresses.length = 1000

/-- The text of a random address, if it can be handed out. -/
def usableAddress (map : StrMap AddressmapEntry) (addr : TorAddr) : Option CString :=
  let reserved : Bool :=
    match addr with
    | .inet a => a &&& 0xff == 0 || a &&& 0xff == 0xff
    | _ => false
  if reserved then none
  else
    match torAddrToStr addr 64 true, torAddrToStr addr torAddrBufLen false with
    | some buf, some tmp => if (strmapGet map buf).isNone && (strmapGet map tmp).isNone then some buf else none
    | _, _ => none

def attemptAddresses (ranges : VirtualRanges) (map : StrMap AddressmapEntry) (ipv6 : Bool) :
    List (Bytes 16) → Except VirtFault (Option CString)
  | [] => .ok none
  | random :: rest => do
    let addr ← getRandomVirtualAddr ranges ipv6 random
    match usableAddress map addr with
    | some buf => return some buf
    | none => attemptAddresses ranges map ipv6 rest

def addressmapGetVirtualAddress (ranges : VirtualRanges) (map : StrMap AddressmapEntry) (type : ResolvedType)
    (draws : Draws) : Except VirtFault (Option CString) :=
  match type with
  | .hostname =>
    match (draws.names.map fun random => base32Encode random.val ++ dotVirtual).find? fun buf =>
        (strmapGet map buf).isNone with
    | some buf => .ok (some buf)
    | none => .error .endless
  | .ipv4 => attemptAddresses ranges map false draws.addresses
  | .ipv6 => attemptAddresses ranges map true draws.addresses
  | .unsupported => .ok none

/-! ### Random addresses -/

/-- A byte of which the first bits are those of another one. -/
theorem overlay_byte (x c : UInt8) {k : ℕ} (hk : 0 < k) (hk' : k < 8) :
    ((x &&& UInt8.ofNat (0xff >>> k)) ||| (c &&& ~~~UInt8.ofNat (0xff >>> k))).toNat >>> (8 - k) =
      c.toNat >>> (8 - k) := by
  have hx := x.toNat_lt
  have hc := c.toNat_lt
  -- the mask keeps the low bits of one byte and the high bits of the other
  have hmask : (UInt8.ofNat (0xff >>> k)).toNat = 2 ^ (8 - k) - 1 := by
    interval_cases k <;> decide
  have hnot : (~~~UInt8.ofNat (0xff >>> k)).toNat >>> (8 - k) = 2 ^ k - 1 := by
    interval_cases k <;> decide
  have hlow : (x.toNat &&& (2 ^ (8 - k) - 1)) >>> (8 - k) = 0 := by
    rw [Nat.and_two_pow_sub_one_eq_mod, Nat.shiftRight_eq_div_pow]
    exact Nat.div_eq_of_lt (Nat.mod_lt _ (Nat.two_pow_pos _))
  have hhigh : c.toNat >>> (8 - k) < 2 ^ k := by
    rw [Nat.shiftRight_eq_div_pow]
    refine Nat.div_lt_of_lt_mul ?_
    rw [← Nat.pow_add, show 8 - k + k = 8 by omega]
    exact hc
  rw [UInt8.toNat_or, UInt8.toNat_and, UInt8.toNat_and, Nat.shiftRight_or_distrib, hmask, hlow,
    Nat.shiftRight_and_distrib, hnot, Nat.zero_or, Nat.and_two_pow_sub_one_eq_mod, Nat.mod_eq_of_lt hhigh]

theorem length_overlay {network random : List UInt8} {bits : ℕ} (hlen : network.length = random.length) :
    (overlay network random bits).length = random.length := by
  unfold overlay
  dsimp only
  split_ifs <;> simp <;> omega

/-- **Random bytes** under the first bits of a network. -/
theorem overlay_prefix {network random : List UInt8} (hlen : network.length = random.length) {bits : ℕ}
    (hbits : bits < 8 * network.length) (hmax : bits ≤ 128) :
    inet6Prefix (overlay network random bits) bits = inet6Prefix network bits := by
  have hbytes : (if 8 ≤ bits then network.take (bits / 8) ++ random.drop (bits / 8) else random) =
      network.take (bits / 8) ++ random.drop (bits / 8) := by
    split_ifs with hbig
    · rfl
    · rw [show bits / 8 = 0 by omega, List.take_zero, List.drop_zero, List.nil_append]
  have htake : (network.take (bits / 8)).length = bits / 8 := by
    rw [List.length_take]
    omega
  unfold overlay inet6Prefix
  simp only [hbytes, Nat.min_eq_left hmax]
  by_cases hrest : bits % 8 = 0
  · simp only [hrest, ne_eq, not_true, if_false, if_true, Prod.mk.injEq, and_true]
    rw [List.take_append_of_le_length (by omega), List.take_take, Nat.min_self]
  · simp only [hrest, ne_eq, not_false_eq_true, if_true, if_false, Prod.mk.injEq]
    constructor
    · rw [List.take_set_of_le (Nat.le_refl _), List.take_append_of_le_length (by omega), List.take_take,
        Nat.min_self]
    · have hin : bits / 8 < (network.take (bits / 8) ++ random.drop (bits / 8)).length := by
        rw [List.length_append, htake, List.length_drop]
        omega
      rw [List.getD_eq_getElem?_getD, List.getElem?_set_self hin, Option.getD_some]
      exact overlay_byte _ _ (by omega) (by omega)

/-- The prefix of a number of four bytes is that of the bytes. -/
theorem inetPrefix_beNat {l m : List UInt8} {bits : ℕ} (hl : l.length = 4) (hm : m.length =
    4) (hbits : bits < 32)
    (h : inet6Prefix l bits = inet6Prefix m bits) : inetPrefix (beNat l) bits = inetPrefix (beNat m) bits := by
  have hmin : min bits 128 = bits := by omega
  -- the bytes before the last one of the prefix, that byte, and those behind it
  have hsplit : ∀ l : List UInt8, l.length = 4 → inetPrefix (beNat l) bits =
      beNat (l.take (bits / 8)) * 2 ^ (bits % 8) + (l.getD (bits / 8) 0).toNat >>> (8 - bits % 8) := by
    intro l hl
    have hq : bits / 8 < l.length := by omega
    have hdrop : l.drop (bits / 8) = l.getD (bits / 8) 0 :: l.drop (bits / 8 + 1) := by
      rw [List.drop_eq_getElem_cons hq, List.getD_eq_getElem?_getD, List.getElem?_eq_getElem hq,
        Option.getD_some]
    have hrest : (l.drop (bits / 8 + 1)).length = 3 - bits / 8 := by
      rw [List.length_drop]
      omega
    have hlt := beNat_lt (l.drop (bits / 8 + 1))
    rw [hrest] at hlt
    have hnum : beNat l = (beNat (l.take (bits / 8)) * 256 + (l.getD (bits / 8) 0).toNat) * 256 ^ (3 - bits / 8) +
        beNat (l.drop (bits / 8 + 1)) := by
      conv_lhs => rw [← List.take_append_drop (bits / 8) l, beNat_append, hdrop, beNat_cons, List.length_cons,
        hrest]
      rw [Nat.pow_succ]
      ring
    have hpow : (256 : ℕ) ^ (3 - bits / 8) = 2 ^ (8 * (3 - bits / 8)) := by
      rw [show (256 : ℕ) = 2 ^ 8 by norm_num, ← Nat.pow_mul]
    have hfull : (256 : ℕ) = 2 ^ (bits % 8) * 2 ^ (8 - bits % 8) := by
      rw [← Nat.pow_add, show bits % 8 + (8 - bits % 8) = 8 by omega]
    rw [inetPrefix, show 32 - bits = 8 * (3 - bits / 8) + (8 - bits % 8) by omega, Nat.shiftRight_add,
      Nat.shiftRight_eq_div_pow _ (8 * (3 - bits / 8)), hnum, ← hpow,
      Nat.add_comm _ (beNat (l.drop (bits / 8 + 1))), Nat.add_mul_div_right _ _ (Nat.pow_pos (by decide)),
      Nat.div_eq_of_lt hlt, Nat.zero_add, Nat.shiftRight_eq_div_pow, Nat.shiftRight_eq_div_pow,
      Nat.add_comm _ (UInt8.toNat _), Nat.add_comm _ (UInt8.toNat _ / _)]
    conv_lhs => rw [hfull, ← Nat.mul_assoc, Nat.add_mul_div_right _ _ (Nat.two_pow_pos _)]
  rw [hsplit l hl, hsplit m hm]
  unfold inet6Prefix at h
  simp only [hmin, Prod.mk.injEq] at h
  obtain ⟨htake, hbyte⟩ := h
  rw [htake]
  by_cases hrest : bits % 8 = 0
  · have hzero : ∀ b : UInt8, b.toNat >>> (8 - bits % 8) = 0 := by
      intro b
      rw [hrest, Nat.shiftRight_eq_div_pow]
      exact Nat.div_eq_of_lt b.toNat_lt
    rw [hzero, hzero]
  · rw [if_neg hrest, if_neg hrest] at hbyte
    rw [hbyte]

/-- **A random address** is in the range. -/
theorem getRandomVirtualAddr_spec (ranges : VirtualRanges) (ipv6 : Bool) (random : Bytes 16) :
    ∃ addr, getRandomVirtualAddr ranges ipv6 random = .ok addr ∧ ranges.covers addr = true ∧
      (addrFamily addr = .inet ∨ addrFamily addr = .inet6) := by
  have h4 := ranges.bits4_le
  have h6 := ranges.bits6_le
  unfold getRandomVirtualAddr
  cases ipv6 with
  | true =>
    have hlen : ranges.ipv6.val.length = random.val.length := by rw [ranges.ipv6.length_eq, random.length_eq]
    have hoverlay : (overlay ranges.ipv6.val random.val ranges.bits6.toNat).length = 16 := by
      rw [length_overlay hlen, random.length_eq]
    have hpad : (Bytes.pad 16 (overlay ranges.ipv6.val random.val ranges.bits6.toNat)).val =
        overlay ranges.ipv6.val random.val ranges.bits6.toNat := by
      show (_ ++ List.replicate 16 0).take 16 = _
      rw [List.take_append_of_le_length (by omega), List.take_of_length_le (by omega)]
    have hcovers : ranges.covers (.inet6 (Bytes.pad 16 (overlay ranges.ipv6.val random.val ranges.bits6.toNat))) =
        true := by
      have hbits : ranges.bits6.toNat < 8 * ranges.ipv6.val.length := by
        rw [ranges.ipv6.length_eq]
        omega
      have hprefix := overlay_prefix hlen hbits (by omega)
      rw [VirtualRanges.covers, beq_iff_eq, torAddrCompareMasked_eq_zero_iff]
      simp [VirtualRanges.conf, addrFamily, maskedKey, hpad, hprefix]
    exact ⟨_, by simp only [if_true, hcovers], hcovers, .inr rfl⟩
  | false =>
    have hlen : (beBytes 4 ranges.ipv4.toNat).length = (random.val.take 4).length := by
      rw [beBytes_length, List.length_take, random.length_eq]
      rfl
    have hoverlay : (overlay (beBytes 4 ranges.ipv4.toNat) (random.val.take 4) ranges.bits4.toNat).length =
        4 := by
      rw [length_overlay hlen, ← hlen, beBytes_length]
    have hcovers : ranges.covers
        (.inet (UInt32.ofNat (beNat (overlay (beBytes 4 ranges.ipv4.toNat)
          (random.val.take 4) ranges.bits4.toNat)))) =
        true := by
      have hbits : ranges.bits4.toNat < 8 * (beBytes 4 ranges.ipv4.toNat).length := by
        rw [beBytes_length]
        omega
      have hprefix := overlay_prefix hlen hbits (by omega)
      have hnum := inetPrefix_beNat hoverlay (beBytes_length 4 ranges.ipv4.toNat) (by omega) hprefix
      have hsmall := beNat_lt (overlay (beBytes 4 ranges.ipv4.toNat) (random.val.take 4) ranges.bits4.toNat)
      rw [hoverlay, show (256 : ℕ) ^ 4 = 4294967296 from rfl] at hsmall
      rw [beNat_beBytes (show ranges.ipv4.toNat < 256 ^ 4 from ranges.ipv4.toNat_lt)] at hnum
      rw [VirtualRanges.covers, beq_iff_eq, torAddrCompareMasked_eq_zero_iff]
      have hmod := Nat.mod_eq_of_lt hsmall
      simp [VirtualRanges.conf, addrFamily, maskedKey, hmod, hnum]
    exact ⟨_, by simp only [Bool.false_eq_true, if_false, hcovers, if_true], hcovers, .inl rfl⟩

/-! ### The address that is found -/

section Found

variable {ranges : VirtualRanges} {map : StrMap AddressmapEntry}

theorem inVirtualRange_of_endsNoCase {address : CString} (h : endsNoCase address dotVirtual = true) :
    addressIsInVirtualRange ranges address = true := by
  rw [addressIsInVirtualRange, if_pos h]

theorem inVirtualRange_of_covers {addr : TorAddr} {len : ℕ} {decorate : Bool} {text : CString}
    (hfamily : addrFamily addr = .inet ∨ addrFamily addr = .inet6) (hcovers : ranges.covers addr = true)
    (htext : torAddrToStr addr len decorate = some text) : addressIsInVirtualRange ranges text = true := by
  have hparse : torAddrParse text = .ok (some addr) := by
    cases addr with
    | inet a => exact (textRoundTrip_inet a).parse len decorate text htext
    | inet6 a => exact (textRoundTrip_inet6 a).parse len decorate text htext
    | unspec => simp [addrFamily] at hfamily
    | unix => simp [addrFamily] at hfamily
  unfold addressIsInVirtualRange
  split_ifs
  · rfl
  · rw [hparse]
    exact hcovers

theorem usableAddress_spec {addr : TorAddr} {buf : CString}
    (hfamily : addrFamily addr = .inet ∨ addrFamily addr = .inet6) (hcovers : ranges.covers addr = true)
    (h : usableAddress map addr = some buf) :
    addressIsInVirtualRange ranges buf = true ∧ strmapGet map buf = none := by
  unfold usableAddress at h
  dsimp only at h
  split_ifs at h
  split at h
  · next text tmp htext htmp =>
    split_ifs at h with hfree
    cases h
    rw [Bool.and_eq_true, Option.isNone_iff_eq_none] at hfree
    exact ⟨inVirtualRange_of_covers hfamily hcovers htext, hfree.1⟩
  · cases h

/-- The attempts come to an end, and what they find is virtual and not mapped. -/
theorem attemptAddresses_spec (ranges : VirtualRanges) (map : StrMap AddressmapEntry) (ipv6 : Bool)
    (l : List (Bytes 16)) :
    ∃ found, attemptAddresses ranges map ipv6 l = .ok found ∧
      ∀ buf ∈ found, addressIsInVirtualRange ranges buf = true ∧ strmapGet map buf = none := by
  induction l with
  | nil => exact ⟨none, rfl, fun buf hbuf => by cases hbuf⟩
  | cons random l ih =>
    obtain ⟨addr, haddr, hcovers, hfamily⟩ := getRandomVirtualAddr_spec ranges ipv6 random
    rw [attemptAddresses, haddr]
    cases husable : usableAddress map addr with
    | none =>
      obtain ⟨found, hfound, hspec⟩ := ih
      refine ⟨found, ?_, hspec⟩
      show (match usableAddress map addr with
        | some buf => pure (some buf)
        | none => attemptAddresses ranges map ipv6 l) = _
      rw [husable]
      exact hfound
    | some buf =>
      refine ⟨some buf, ?_, fun buf' hbuf' => ?_⟩
      · show (match usableAddress map addr with
          | some buf => pure (some buf)
          | none => attemptAddresses ranges map ipv6 l) = _
        rw [husable]
        rfl
      · cases hbuf'
        exact usableAddress_spec hfamily hcovers husable

theorem endsNoCase_append (s t : CString) : endsNoCase (s ++ t) t = true := by
  unfold endsNoCase
  rw [if_neg (by rw [List.length_append]; omega), List.length_append, Nat.add_sub_cancel, List.drop_left]
  simp [sameNoCase]

/-- **The address that is found** is virtual, and is not mapped.  There is one, or none, unless names are still
being drawn. -/
theorem getVirtualAddress_spec (ranges : VirtualRanges) (map : StrMap AddressmapEntry) (type : ResolvedType)
    (draws : Draws) :
    addressmapGetVirtualAddress ranges map type draws = .error .endless ∨
      ∃ found, addressmapGetVirtualAddress ranges map type draws = .ok found ∧
        ∀ buf ∈ found, addressIsInVirtualRange ranges buf = true ∧ strmapGet map buf = none := by
  unfold addressmapGetVirtualAddress
  cases type with
  | hostname =>
    dsimp only
    split
    · next buf hbuf =>
      refine .inr ⟨some buf, rfl, fun buf' hbuf' => ?_⟩
      cases hbuf'
      obtain ⟨random, -, rfl⟩ := List.mem_map.mp (List.mem_of_find?_eq_some hbuf)
      have hfree := List.find?_some hbuf
      exact ⟨inVirtualRange_of_endsNoCase (endsNoCase_append _ _), Option.isNone_iff_eq_none.mp hfree⟩
    · exact .inl rfl
  | ipv4 => exact .inr (attemptAddresses_spec ranges map false draws.addresses)
  | ipv6 => exact .inr (attemptAddresses_spec ranges map true draws.addresses)
  | unsupported => exact .inr ⟨none, rfl, fun buf hbuf => by cases hbuf⟩

end Found

end TorEbpf.Client
