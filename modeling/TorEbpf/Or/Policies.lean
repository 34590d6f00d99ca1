import Mathlib
import TorEbpf.Lib.RuleList
import TorEbpf.Or.ExtendCell

/-!
# Exit policies

Entries of an exit policy accept or reject the addresses that agree with the entry's address in its
first `maskbits` bits, on a range of ports; the first entry that matches decides.  Before a relay
publishes its policy, `exit_policy_remove_redundancies` drops entries in three passes.

* `torAddrCompareMasked` — the masked comparison of two addresses; `torAddrCompareMasked_eq_zero_iff`,
  `maskedKey_mono` — it is zero if the mask keeps the same of both, and a shorter mask does then too;
* `matches_of_addrPolicyCovers`, `addrPolicyIntersects_of_matches` — what the two tests on entries say
  about the addresses and ports the entries match;
* `compareKnown_exitPolicyRemoveRedundancies` — the reduced policy gives every answer the policy gave.
-/

namespace TorEbpf.Or

open TorEbpf.Lib

/-! ### Addresses -/

/-- `sa_family_t`, as far as a `tor_addr_t` has one. -/
inductive SaFamily where
  | unspec
  | unix
  | inet
  | inet6
  deriving DecidableEq, Repr

/-- The numbers `AF_UNSPEC`, `AF_UNIX`, `AF_INET` and `AF_INET6`. -/
def SaFamily.toNat : SaFamily → ℕ
  | .unspec => 0
  | .unix => 1
  | .inet => 2
  | .inet6 => 10

/-- A `const tor_addr_t *`: the address, and where it is stored.  Only `AF_UNIX` addresses are compared
by where they are stored. -/
structure TorAddrPtr where
  ptr : ℕ
  addr : TorAddr
  deriving DecidableEq, Repr

def torAddrFamily (a : TorAddrPtr) : SaFamily :=
  match a.addr with
  | .unspec => .unspec
  | .unix => .unix
  | .inet _ => .inet
  | .inet6 _ => .inet6

/-- The bytes of `tor_addr_to_in6_addr8`, for an IPv6 address. -/
def torAddrToIn6Addr8 (a : TorAddrPtr) : List UInt8 := (torAddrCopyIpv6Bytes a.addr).val

/-- `tor_addr_is_v4`: an IPv4 address, or an IPv6 address that maps one. -/
def torAddrIsV4 (a : TorAddrPtr) : Bool :=
  match a.addr with
  | .inet _ => true
  | .inet6 bytes =>
      beNat (slice bytes.val 0 4) == 0 && beNat (slice bytes.val 4 4) == 0 &&
        beNat (slice bytes.val 8 4) == 0xffff
  | _ => false

def torAddrToMappedIpv4h (a : TorAddrPtr) : ℕ :=
  match a.addr with
  | .inet6 bytes => beNat (slice bytes.val 12 4)
  | _ => 0

def tristate (a b : ℕ) : ℤ := if a < b then -1 else if a = b then 0 else 1

/-- `tor_memcmp` of two arrays of the same length: from their ends to their starts, each pair of
different bytes overrides the result. -/
def torMemcmp (a b : List UInt8) : ℤ :=
  (a.zip b).foldr (fun v retval => if v.1 = v.2 then retval else (v.1.toNat : ℤ) - v.2.toNat) 0

inductive TorAddrComparison where
  | exact
  | semantic
  deriving DecidableEq, Repr

/-- The `AF_INET` case of `tor_addr_compare_masked`. -/
def compareInet (a1 a2 mbits : ℕ) : ℤ :=
  if mbits ≤ 0 then 0
  else
    let mbits := if mbits > 32 then 32 else mbits
    tristate (a1 >>> (32 - mbits)) (a2 >>> (32 - mbits))

/-- The `AF_INET6` case of `tor_addr_compare_masked`. -/
def compareInet6 (a1 a2 : List UInt8) (mbits : ℕ) : ℤ :=
  let mbits := if mbits > 128 then 128 else mbits
  let bytes := mbits >>> 3
  let leftoverBits := mbits &&& 7
  let r := torMemcmp (a1.take bytes) (a2.take bytes)
  if bytes ≠ 0 ∧ r ≠ 0 then r
  else if leftoverBits ≠ 0 then
    tristate ((a1.getD bytes 0).toNat >>> (8 - leftoverBits))
      ((a2.getD bytes 0).toNat >>> (8 - leftoverBits))
  else 0

def torAddrCompareMasked (addr1 addr2 : TorAddrPtr) (mbits : UInt8) (how : TorAddrComparison) : ℤ :=
  let family1 := torAddrFamily addr1
  let family2 := torAddrFamily addr2
  if family1 = family2 then
    match family1 with
    | .unspec => 0
    | .inet =>
        compareInet (torAddrToIpv4h addr1.addr).toNat (torAddrToIpv4h addr2.addr).toNat mbits.toNat
    | .inet6 => compareInet6 (torAddrToIn6Addr8 addr1) (torAddrToIn6Addr8 addr2) mbits.toNat
    | .unix => tristate addr1.ptr addr2.ptr
  else if how = .exact then tristate family1.toNat family2.toNat
  else if mbits = 0 then 0
  else
    let vFamily1 := if family1 = .inet6 ∧ torAddrIsV4 addr1 then .inet else family1
    let vFamily2 := if family2 = .inet6 ∧ torAddrIsV4 addr2 then .inet else family2
    if vFamily1 = vFamily2 then
      -- One of the two is a mapped IPv4 address: its first 96 bits "match".
      if family1 = .inet6 ∧ mbits.toNat ≤ 96 then 0
      else
        let a1 :=
          if family1 = .inet6 then torAddrToMappedIpv4h addr1 else (torAddrToIpv4h addr1.addr).toNat
        let a2 :=
          if family2 = .inet6 then torAddrToMappedIpv4h addr2 else (torAddrToIpv4h addr2.addr).toNat
        let m := if family1 = .inet6 then mbits.toNat - 96 else mbits.toNat
        let m := if m > 32 then 32 else m
        tristate (a1 >>> (32 - m)) (a2 >>> (32 - m))
    else tristate family1.toNat family2.toNat

/-! ### Policies -/

inductive AddrPolicyAction where
  | accept
  | reject
  deriving DecidableEq, Repr

structure AddrPolicy where
  policyType : AddrPolicyAction
  maskbits : UInt8
  addr : TorAddrPtr
  prtMin : UInt16
  prtMax : UInt16
  deriving DecidableEq, Repr

/-- `addr_policy_result_t`, without the answers about addresses or ports that are not known. -/
inductive AddrPolicyResult where
  | accepted
  | rejected
  deriving DecidableEq, Repr

def compareKnownTorAddrToAddrPolicy (addr : TorAddrPtr) (port : UInt16) :
    List AddrPolicy → AddrPolicyResult
  | [] => .accepted
  | tmpe :: policy =>
      if torAddrCompareMasked addr tmpe.addr tmpe.maskbits .exact = 0 ∧
          (port ≥ tmpe.prtMin ∧ port ≤ tmpe.prtMax) then
        if tmpe.policyType = .accept then .accepted else .rejected
      else compareKnownTorAddrToAddrPolicy addr port policy

def addrPolicyCovers (a b : AddrPolicy) : Bool :=
  if torAddrFamily a.addr ≠ torAddrFamily b.addr then false
  else if a.maskbits > b.maskbits then false
  else if torAddrCompareMasked a.addr b.addr a.maskbits .exact ≠ 0 then false
  else a.prtMin ≤ b.prtMin && a.prtMax ≥ b.prtMax

def addrPolicyIntersects (a b : AddrPolicy) : Bool :=
  let minbits := if a.maskbits < b.maskbits then a.maskbits else b.maskbits
  if torAddrCompareMasked a.addr b.addr minbits .exact ≠ 0 then false
  else if a.prtMax < b.prtMin || b.prtMax < a.prtMin then false
  else true

/-- The loop of step one of `exit_policy_remove_redundancies`: kill every IPv4 entry after `*4:*`, every
IPv6 entry after `*6:*`. -/
def killUnreachable (dest : List AddrPolicy) (i : ℕ) (killV4 killV6 : Bool) : List AddrPolicy :=
  if h : i < dest.length then
    let ap := dest[i]
    let family := torAddrFamily ap.addr
    if family = .inet ∧ killV4 ∨ family = .inet6 ∧ killV6 then
      -- `smartlist_del_keeporder(dest, i--)`, then the loop's `++i`
      killUnreachable (dest.eraseIdx i) i killV4 killV6
    else if ap.maskbits = 0 ∧ ap.prtMin ≤ 1 ∧ ap.prtMax ≥ 65535 then
      killUnreachable dest (i + 1) (killV4 || family == .inet) (killV6 || family == .inet6)
    else killUnreachable dest (i + 1) killV4 killV6
  else dest
termination_by dest.length - i
decreasing_by
  · rw [List.length_eraseIdx_of_lt h]; omega
  · omega
  · omega

/-- The inner loop of step two: remove what `ap` covers from index `j` on. -/
def removeCoveredBy (ap : AddrPolicy) (dest : List AddrPolicy) (j : ℕ) : List AddrPolicy :=
  if h : j < dest.length then
    if addrPolicyCovers ap dest[j] then removeCoveredBy ap (dest.eraseIdx j) j
    else removeCoveredBy ap dest (j + 1)
  else dest
termination_by dest.length - j
decreasing_by
  · rw [List.length_eraseIdx_of_lt h]; omega
  · omega

theorem removeCoveredBy_length_le (ap : AddrPolicy) (dest : List AddrPolicy) (j : ℕ) :
    (removeCoveredBy ap dest j).length ≤ dest.length := by
  induction dest, j using removeCoveredBy.induct ap with
  | case1 dest j hj hcov ih =>
    rw [removeCoveredBy, dif_pos hj, if_pos hcov]
    exact ih.trans (List.length_eraseIdx_le dest j)
  | case2 dest j hj hcov ih =>
    rw [removeCoveredBy, dif_pos hj, if_neg hcov]
    exact ih
  | case3 dest j hj => rw [removeCoveredBy, dif_neg hj]

/-- Step two: for every entry, remove the redundant entries later on. -/
def removeCovered (dest : List AddrPolicy) (i : ℕ) : List AddrPolicy :=
  if h : i + 1 < dest.length then
    removeCovered (removeCoveredBy dest[i] dest (i + 1)) (i + 1)
  else dest
termination_by dest.length - i
decreasing_by
  have hle := removeCoveredBy_length_le dest[i] dest (i + 1)
  omega

/-- The inner loop of step three: does an entry from index `j` on make `ap` redundant, before an entry
of the other type intersects it? -/
def isSubsumedFrom (ap : AddrPolicy) (dest : List AddrPolicy) (j : ℕ) : Bool :=
  if h : j < dest.length then
    let tmp := dest[j]
    if ap.policyType ≠ tmp.policyType then
      if addrPolicyIntersects ap tmp then false else isSubsumedFrom ap dest (j + 1)
    else if addrPolicyCovers tmp ap then true
    else isSubsumedFrom ap dest (j + 1)
  else false
termination_by dest.length - j

/-- Step three: remove every entry that a later entry of its type makes redundant. -/
def removeSubsumed (dest : List AddrPolicy) (i : ℕ) : List AddrPolicy :=
  if h : i + 1 < dest.length then
    if isSubsumedFrom dest[i] dest (i + 1) then removeSubsumed (dest.eraseIdx i) i
    else removeSubsumed dest (i + 1)
  else dest
termination_by dest.length - i
decreasing_by
  · rw [List.length_eraseIdx_of_lt (by omega)]; omega
  · omega

def exitPolicyRemoveRedundancies (dest : List AddrPolicy) : List AddrPolicy :=
  removeSubsumed (removeCovered (killUnreachable dest 0 false false) 0) 0

/-! ### Agreement in a prefix -/

theorem tristate_eq_zero_iff (a b : ℕ) : tristate a b = 0 ↔ a = b := by
  unfold tristate
  split
  · omega
  · split
    · simp [*]
    · simp [*]

theorem torMemcmp_eq_zero_iff {a b : List UInt8} (h : a.length = b.length) :
    torMemcmp a b = 0 ↔ a = b := by
  induction a generalizing b with
  | nil =>
    have hb : b = [] := List.length_eq_zero_iff.mp h.symm
    simp [torMemcmp, hb]
  | cons x a ih =>
    cases b with
    | nil => simp at h
    | cons y b =>
      have hlen : a.length = b.length := by simpa using h
      have hcons : torMemcmp (x :: a) (y :: b) =
          if x = y then torMemcmp a b else (x.toNat : ℤ) - y.toNat := rfl
      rw [hcons, List.cons.injEq]
      by_cases hxy : x = y
      · rw [if_pos hxy, ih hlen]
        simp [hxy]
      · have hne : x.toNat ≠ y.toNat := fun h => hxy (UInt8.toNat_inj.mp h)
        rw [if_neg hxy]
        simp only [hxy, false_and, iff_false]
        omega

/-- The bits of an IPv4 address that a mask keeps. -/
def inetPrefix (a mbits : ℕ) : ℕ := a >>> (32 - mbits)

theorem compareInet_eq_zero_iff {a1 a2 : ℕ} (h1 : a1 < 2 ^ 32) (h2 : a2 < 2 ^ 32) (mbits : ℕ) :
    compareInet a1 a2 mbits = 0 ↔ inetPrefix a1 mbits = inetPrefix a2 mbits := by
  unfold compareInet inetPrefix
  split
  · have hm : 32 - mbits = 32 := by omega
    rw [hm, Nat.shiftRight_eq_div_pow, Nat.shiftRight_eq_div_pow, Nat.div_eq_of_lt h1,
      Nat.div_eq_of_lt h2]
    simp
  · have hm : 32 - (if mbits > 32 then 32 else mbits) = 32 - mbits := by split <;> omega
    simp only [tristate_eq_zero_iff, hm]

theorem inetPrefix_mono {a1 a2 m m' : ℕ} (hle : m ≤ m')
    (h : inetPrefix a1 m' = inetPrefix a2 m') : inetPrefix a1 m = inetPrefix a2 m := by
  have hsplit : 32 - m = (32 - m') + (min 32 m' - min 32 m) := by omega
  unfold inetPrefix at *
  rw [hsplit, Nat.shiftRight_add, Nat.shiftRight_add, h]

/-- The bits of an IPv6 address that a mask keeps: whole bytes, and the first bits of the next. -/
def inet6Prefix (a : List UInt8) (mbits : ℕ) : List UInt8 × ℕ :=
  let m := min mbits 128
  (a.take (m / 8), if m % 8 = 0 then 0 else (a.getD (m / 8) 0).toNat >>> (8 - m % 8))

theorem compareInet6_eq_zero_iff {a1 a2 : List UInt8} (h : a1.length = a2.length) (mbits : ℕ) :
    compareInet6 a1 a2 mbits = 0 ↔ inet6Prefix a1 mbits = inet6Prefix a2 mbits := by
  have hm : (if mbits > 128 then 128 else mbits) = min mbits 128 := by split <;> omega
  have hshift : ∀ m, m >>> 3 = m / 8 := fun m => Nat.shiftRight_eq_div_pow m 3
  have hand : ∀ m, m &&& 7 = m % 8 := fun m => Nat.and_two_pow_sub_one_eq_mod m 3
  have hlen : (a1.take (min mbits 128 / 8)).length = (a2.take (min mbits 128 / 8)).length := by
    simp [h]
  have hmem := torMemcmp_eq_zero_iff hlen
  unfold compareInet6 inet6Prefix
  simp only [hm, hshift, hand, Prod.mk.injEq]
  by_cases htake : a1.take (min mbits 128 / 8) = a2.take (min mbits 128 / 8)
  · have hr := hmem.mpr htake
    rw [if_neg (by simp [hr])]
    by_cases hleft : min mbits 128 % 8 = 0
    · simp [htake, hleft]
    · simp [htake, hleft, tristate_eq_zero_iff]
  · have hr : torMemcmp (a1.take (min mbits 128 / 8)) (a2.take (min mbits 128 / 8)) ≠ 0 :=
      fun h0 => htake (hmem.mp h0)
    have hbytes : min mbits 128 / 8 ≠ 0 := by
      intro h0
      exact htake (by rw [h0, List.take_zero, List.take_zero])
    rw [if_pos ⟨hbytes, hr⟩]
    simp [hr, htake]

theorem inet6Prefix_mono {a1 a2 : List UInt8} {m m' : ℕ} (hle : m ≤ m')
    (h : inet6Prefix a1 m' = inet6Prefix a2 m') : inet6Prefix a1 m = inet6Prefix a2 m := by
  unfold inet6Prefix at *
  generalize hk' : min m' 128 = k' at h
  generalize hk : min m 128 = k
  have hkk : k ≤ k' := by omega
  obtain ⟨htake, hbits⟩ := Prod.mk.inj h
  have hdiv : k / 8 ≤ k' / 8 := Nat.div_le_div_right hkk
  have htakek : a1.take (k / 8) = a2.take (k / 8) := by
    have := congrArg (List.take (k / 8)) htake
    rwa [List.take_take, List.take_take, Nat.min_eq_left hdiv] at this
  refine Prod.ext htakek ?_
  simp only
  rcases Nat.lt_or_eq_of_le hdiv with hlt | heq
  · -- the partial byte of the shorter prefix is a whole byte of the longer one
    have hget : a1.getD (k / 8) 0 = a2.getD (k / 8) 0 := by
      have := congrArg (fun l : List UInt8 => l.getD (k / 8) 0) htake
      simpa [List.getD_eq_getElem?_getD, List.getElem?_take, hlt] using this
    rw [hget]
  · by_cases hz : k % 8 = 0
    · rw [if_pos hz, if_pos hz]
    · have hz' : k' % 8 ≠ 0 := by omega
      have hsplit : 8 - k % 8 = (8 - k' % 8) + (k' % 8 - k % 8) := by omega
      rw [if_neg hz', if_neg hz', ← heq] at hbits
      rw [if_neg hz, if_neg hz, hsplit, Nat.shiftRight_add, Nat.shiftRight_add, hbits]

def maskedKey (a : TorAddrPtr) (mbits : ℕ) : SaFamily × ℕ × List UInt8 :=
  match a.addr with
  | .unspec => (.unspec, 0, [])
  | .unix => (.unix, a.ptr, [])
  | .inet ipv4h => (.inet, inetPrefix ipv4h.toNat mbits, [])
  | .inet6 bytes => (.inet6, (inet6Prefix bytes.val mbits).2, (inet6Prefix bytes.val mbits).1)

@[simp] theorem maskedKey_fst (a : TorAddrPtr) (mbits : ℕ) :
    (maskedKey a mbits).1 = torAddrFamily a := by
  unfold maskedKey torAddrFamily
  cases a.addr <;> rfl

/-- The exact comparison is zero just if the mask keeps the same of both addresses. -/
theorem torAddrCompareMasked_eq_zero_iff (a b : TorAddrPtr) (mbits : UInt8) :
    torAddrCompareMasked a b mbits .exact = 0 ↔
      maskedKey a mbits.toNat = maskedKey b mbits.toNat := by
  by_cases hfam : torAddrFamily a = torAddrFamily b
  · obtain ⟨pa, a⟩ := a
    obtain ⟨pb, b⟩ := b
    unfold torAddrCompareMasked
    rw [if_pos hfam]
    cases a <;> cases b <;> try (simp [torAddrFamily] at hfam)
    case unspec.unspec => simp [torAddrFamily, maskedKey]
    case unix.unix => simp [torAddrFamily, maskedKey, tristate_eq_zero_iff]
    case inet.inet x y =>
      simp [torAddrFamily, maskedKey, torAddrToIpv4h,
        compareInet_eq_zero_iff x.toNat_lt y.toNat_lt]
    case inet6.inet6 x y =>
      have hlen : x.val.length = y.val.length := by rw [x.length_eq, y.length_eq]
      simp only [torAddrFamily, torAddrToIn6Addr8, torAddrCopyIpv6Bytes, maskedKey,
        compareInet6_eq_zero_iff hlen, true_and, Prod.ext_iff]
      exact and_comm
  · have hkey : maskedKey a mbits.toNat ≠ maskedKey b mbits.toNat := by
      intro h
      exact hfam (by simpa using congrArg Prod.fst h)
    have hnat : (torAddrFamily a).toNat ≠ (torAddrFamily b).toNat := by
      revert hfam
      cases torAddrFamily a <;> cases torAddrFamily b <;> simp [SaFamily.toNat]
    unfold torAddrCompareMasked
    rw [if_neg hfam, if_pos rfl, tristate_eq_zero_iff]
    simp [hkey, hnat]

theorem maskedKey_mono {a b : TorAddrPtr} {m m' : ℕ} (hle : m ≤ m')
    (h : maskedKey a m' = maskedKey b m') : maskedKey a m = maskedKey b m := by
  obtain ⟨pa, a⟩ := a
  obtain ⟨pb, b⟩ := b
  cases a <;> cases b <;> simp only [maskedKey, Prod.mk.injEq, reduceCtorEq, false_and] at h ⊢
  case unix.unix => exact h
  case inet.inet x y =>
    obtain ⟨-, hpre, -⟩ := h
    exact ⟨trivial, inetPrefix_mono hle hpre, trivial⟩
  case inet6.inet6 x y =>
    obtain ⟨-, hbits, hbytes⟩ := h
    have hpre := inet6Prefix_mono hle (Prod.ext hbytes hbits)
    rw [hpre]
    exact ⟨trivial, rfl, rfl⟩

theorem maskedKey_zero {a b : TorAddrPtr} (hfam : torAddrFamily a = torAddrFamily b)
    (hunix : torAddrFamily a ≠ .unix) : maskedKey a 0 = maskedKey b 0 := by
  obtain ⟨pa, a⟩ := a
  obtain ⟨pb, b⟩ := b
  cases a <;> cases b <;> simp only [torAddrFamily, reduceCtorEq, ne_eq, not_true] at hfam hunix
  case unspec.unspec => rfl
  case inet.inet x y =>
    have hzero : ∀ z : UInt32, inetPrefix z.toNat 0 = 0 := by
      intro z
      rw [inetPrefix, Nat.shiftRight_eq_div_pow, Nat.div_eq_of_lt z.toNat_lt]
    simp only [maskedKey, hzero]
  case inet6.inet6 x y => simp [maskedKey, inet6Prefix]

/-! ### What an entry matches -/

/-- The entry decides about the address and port. -/
def AddrPolicy.matches (addr : TorAddrPtr) (port : UInt16) (e : AddrPolicy) : Bool :=
  torAddrCompareMasked addr e.addr e.maskbits .exact == 0 && (e.prtMin ≤ port && port ≤ e.prtMax)

/-- The answer of an entry that matches. -/
def AddrPolicy.result (e : AddrPolicy) : AddrPolicyResult :=
  if e.policyType = .accept then .accepted else .rejected

variable {addr : TorAddrPtr} {port : UInt16} {a b : AddrPolicy}

theorem AddrPolicy.matches_iff : a.matches addr port = true ↔
    maskedKey addr a.maskbits.toNat = maskedKey a.addr a.maskbits.toNat ∧
      a.prtMin ≤ port ∧ port ≤ a.prtMax := by
  simp [AddrPolicy.matches, torAddrCompareMasked_eq_zero_iff]

/-- Evaluating a policy is evaluating a first-match rule list. -/
theorem compareKnown_eq_answer (addr : TorAddrPtr) (port : UInt16) (policy : List AddrPolicy) :
    compareKnownTorAddrToAddrPolicy addr port policy =
      answer (AddrPolicy.matches addr port) AddrPolicy.result .accepted policy := by
  induction policy with
  | nil => rfl
  | cons e policy ih =>
    simp only [compareKnownTorAddrToAddrPolicy, answer, ih, AddrPolicy.matches, AddrPolicy.result,
      Bool.and_eq_true, beq_iff_eq, decide_eq_true_eq, ge_iff_le]

theorem matches_of_addrPolicyCovers (h : addrPolicyCovers a b = true)
    (hb : b.matches addr port = true) : a.matches addr port = true := by
  rw [AddrPolicy.matches_iff] at hb ⊢
  obtain ⟨hkey, hmin, hmax⟩ := hb
  unfold addrPolicyCovers at h
  split at h
  · cases h
  split at h
  · cases h
  · rename_i hmask
    split at h
    · cases h
    · rename_i hcmp
      rw [not_not, torAddrCompareMasked_eq_zero_iff] at hcmp
      have hle : a.maskbits.toNat ≤ b.maskbits.toNat :=
        UInt8.le_iff_toNat_le.mp (UInt8.not_lt.mp hmask)
      simp only [Bool.and_eq_true, decide_eq_true_eq, ge_iff_le] at h
      exact ⟨(maskedKey_mono hle hkey).trans hcmp.symm, UInt16.le_trans h.1 hmin,
        UInt16.le_trans hmax h.2⟩

theorem addrPolicyIntersects_of_matches (ha : a.matches addr port = true)
    (hb : b.matches addr port = true) : addrPolicyIntersects a b = true := by
  obtain ⟨hkeya, hmina, hmaxa⟩ := AddrPolicy.matches_iff.mp ha
  obtain ⟨hkeyb, hminb, hmaxb⟩ := AddrPolicy.matches_iff.mp hb
  unfold addrPolicyIntersects
  set minbits := if a.maskbits < b.maskbits then a.maskbits else b.maskbits with hminbits
  have hlea : minbits.toNat ≤ a.maskbits.toNat := by
    rw [hminbits]
    split
    · exact le_refl _
    · rename_i hlt
      exact UInt8.le_iff_toNat_le.mp (UInt8.not_lt.mp hlt)
  have hleb : minbits.toNat ≤ b.maskbits.toNat := by
    rw [hminbits]
    split
    · rename_i hlt
      exact UInt8.le_iff_toNat_le.mp (UInt8.le_of_lt hlt)
    · exact le_refl _
  have hcmp : torAddrCompareMasked a.addr b.addr minbits .exact = 0 := by
    rw [torAddrCompareMasked_eq_zero_iff]
    exact (maskedKey_mono hlea hkeya).symm.trans (maskedKey_mono hleb hkeyb)
  have hab : ¬ a.prtMax < b.prtMin := UInt16.not_lt.mpr (UInt16.le_trans hminb hmaxa)
  have hba : ¬ b.prtMax < a.prtMin := UInt16.not_lt.mpr (UInt16.le_trans hmina hmaxb)
  simp [hcmp, hab, hba]

/-- The entry matches every port of every address of the family. -/
structure AddrPolicy.CatchAll (family : SaFamily) (e : AddrPolicy) : Prop where
  family_eq : torAddrFamily e.addr = family
  maskbits_eq : e.maskbits = 0
  prtMin_le : e.prtMin ≤ 1
  le_prtMax : 65535 ≤ e.prtMax

/-- Whatever an entry of a family matches, a catch-all entry of the family matches. -/
theorem AddrPolicy.CatchAll.matches {family : SaFamily} (ha : a.CatchAll family)
    (hunix : family ≠ .unix) (hport : port ≠ 0) (hfam : torAddrFamily b.addr = family)
    (hb : b.matches addr port = true) : a.matches addr port = true := by
  obtain ⟨hkey, -, -⟩ := AddrPolicy.matches_iff.mp hb
  have haddr : torAddrFamily addr = family := by
    have := congrArg Prod.fst hkey
    simpa [hfam] using this
  rw [AddrPolicy.matches_iff, ha.maskbits_eq]
  refine ⟨maskedKey_zero ?_ ?_, UInt16.le_trans ha.prtMin_le ?_, UInt16.le_trans ?_ ha.le_prtMax⟩
  · rw [haddr, ha.family_eq]
  · rw [haddr]; exact hunix
  · have hne : port.toNat ≠ 0 := fun h => hport (UInt16.toNat_inj.mp h)
    rw [UInt16.le_iff_toNat_le]
    change 1 ≤ port.toNat
    omega
  · have hlt := port.toNat_lt
    rw [UInt16.le_iff_toNat_le]
    change port.toNat ≤ 65535
    omega

/-! ### The three passes -/

/-- The answer of a policy does not change when an entry behind a covering one is deleted. -/
theorem answer_eraseIdx_covered {dest : List AddrPolicy} {i : ℕ} (hi : i < dest.length)
    {c : AddrPolicy} (hc : c ∈ dest.take i)
    (hcov : dest[i].matches addr port = true → c.matches addr port = true) :
    answer (AddrPolicy.matches addr port) AddrPolicy.result .accepted (dest.eraseIdx i) =
      answer (AddrPolicy.matches addr port) AddrPolicy.result .accepted dest := by
  rw [List.eraseIdx_eq_take_drop_succ, ← answer_erase_covered hc hcov, ← List.drop_eq_getElem_cons hi,
    List.take_append_drop]

/-- What step one remembers of the entries it has passed. -/
def KillFlags (seen : List AddrPolicy) (killV4 killV6 : Bool) : Prop :=
  (killV4 = true → ∃ c ∈ seen, c.CatchAll .inet) ∧ (killV6 = true → ∃ c ∈ seen, c.CatchAll .inet6)

theorem KillFlags.mono {seen seen' : List AddrPolicy} {killV4 killV6 : Bool}
    (h : KillFlags seen killV4 killV6) (hsub : seen ⊆ seen') : KillFlags seen' killV4 killV6 := by
  refine ⟨fun h4 => ?_, fun h6 => ?_⟩
  · obtain ⟨c, hc, hall⟩ := h.1 h4
    exact ⟨c, hsub hc, hall⟩
  · obtain ⟨c, hc, hall⟩ := h.2 h6
    exact ⟨c, hsub hc, hall⟩

theorem answer_killUnreachable (hport : port ≠ 0) (dest : List AddrPolicy) (i : ℕ)
    (killV4 killV6 : Bool) (hflags : KillFlags (dest.take i) killV4 killV6) :
    answer (AddrPolicy.matches addr port) AddrPolicy.result .accepted
        (killUnreachable dest i killV4 killV6) =
      answer (AddrPolicy.matches addr port) AddrPolicy.result .accepted dest := by
  induction dest, i, killV4, killV6 using killUnreachable.induct with
  | case1 dest i killV4 killV6 hi ap family hkill ih =>
    rw [killUnreachable, dif_pos hi, if_pos hkill]
    rw [ih (by rwa [List.take_eraseIdx_eq_take_of_le _ _ _ (le_refl i)])]
    rcases hkill with ⟨hfam, h4⟩ | ⟨hfam, h6⟩
    · obtain ⟨c, hc, hall⟩ := hflags.1 h4
      exact answer_eraseIdx_covered hi hc (hall.matches (by decide) hport hfam)
    · obtain ⟨c, hc, hall⟩ := hflags.2 h6
      exact answer_eraseIdx_covered hi hc (hall.matches (by decide) hport hfam)
  | case2 dest i killV4 killV6 hi ap family hkeep hall ih =>
    rw [killUnreachable, dif_pos hi, if_neg hkeep, if_pos hall]
    have hsub : dest.take i ⊆ dest.take (i + 1) := (List.take_sublist_take_left (by omega)).subset
    have hmem : dest[i] ∈ dest.take (i + 1) := by
      rw [List.take_succ_eq_append_getElem hi]
      exact List.mem_append_right _ (List.mem_singleton_self _)
    have hold := hflags.mono hsub
    refine ih ⟨fun h4 => ?_, fun h6 => ?_⟩
    · rcases Bool.or_eq_true_iff.mp h4 with h4 | hfam
      · exact hold.1 h4
      · exact ⟨dest[i], hmem, beq_iff_eq.mp hfam, hall.1, hall.2.1, hall.2.2⟩
    · rcases Bool.or_eq_true_iff.mp h6 with h6 | hfam
      · exact hold.2 h6
      · exact ⟨dest[i], hmem, beq_iff_eq.mp hfam, hall.1, hall.2.1, hall.2.2⟩
  | case3 dest i killV4 killV6 hi ap family hkeep hall ih =>
    rw [killUnreachable, dif_pos hi, if_neg hkeep, if_neg hall]
    exact ih (hflags.mono (List.take_sublist_take_left (by omega)).subset)
  | case4 dest i killV4 killV6 hi => rw [killUnreachable, dif_neg hi]

theorem answer_removeCoveredBy (ap : AddrPolicy) (dest : List AddrPolicy) (j : ℕ)
    (hap : ap ∈ dest.take j) :
    answer (AddrPolicy.matches addr port) AddrPolicy.result .accepted (removeCoveredBy ap dest j) =
      answer (AddrPolicy.matches addr port) AddrPolicy.result .accepted dest := by
  induction dest, j using removeCoveredBy.induct ap with
  | case1 dest j hj hcov ih =>
    rw [removeCoveredBy, dif_pos hj, if_pos hcov]
    rw [ih (by rwa [List.take_eraseIdx_eq_take_of_le _ _ _ (le_refl j)])]
    exact answer_eraseIdx_covered hj hap (matches_of_addrPolicyCovers hcov)
  | case2 dest j hj hcov ih =>
    rw [removeCoveredBy, dif_pos hj, if_neg hcov]
    exact ih ((List.take_sublist_take_left (by omega)).subset hap)
  | case3 dest j hj => rw [removeCoveredBy, dif_neg hj]

theorem answer_removeCovered (dest : List AddrPolicy) (i : ℕ) :
    answer (AddrPolicy.matches addr port) AddrPolicy.result .accepted (removeCovered dest i) =
      answer (AddrPolicy.matches addr port) AddrPolicy.result .accepted dest := by
  induction dest, i using removeCovered.induct with
  | case1 dest i hi ih =>
    rw [removeCovered, dif_pos hi, ih]
    refine answer_removeCoveredBy _ dest (i + 1) ?_
    rw [List.take_succ_eq_append_getElem (by omega)]
    exact List.mem_append_right _ (List.mem_singleton_self _)
  | case2 dest i hi => rw [removeCovered, dif_neg hi]

/-- What the search of step three finds: a later entry of the type that covers the entry, with no
entry of the other type that intersects it before. -/
theorem exists_of_isSubsumedFrom (ap : AddrPolicy) (dest : List AddrPolicy) (j : ℕ)
    (h : isSubsumedFrom ap dest j = true) :
    ∃ l₁ c l₂, dest.drop j = l₁ ++ c :: l₂ ∧ c.policyType = ap.policyType ∧
      addrPolicyCovers c ap = true ∧
      ∀ x ∈ l₁, ap.policyType ≠ x.policyType → addrPolicyIntersects ap x = false := by
  induction j using isSubsumedFrom.induct ap dest with
  | case1 j hj tmp htype hint =>
    rw [isSubsumedFrom, dif_pos hj, if_pos htype, if_pos hint] at h
    cases h
  | case2 j hj tmp htype hint ih =>
    rw [isSubsumedFrom, dif_pos hj, if_pos htype, if_neg hint] at h
    obtain ⟨l₁, c, l₂, hdrop, hc, hcov, hbetween⟩ := ih h
    refine ⟨dest[j] :: l₁, c, l₂, ?_, hc, hcov, ?_⟩
    · rw [List.drop_eq_getElem_cons hj, hdrop, List.cons_append]
    · intro x hx hne
      rcases List.mem_cons.mp hx with rfl | hx
      · exact Bool.not_eq_true _ ▸ hint
      · exact hbetween x hx hne
  | case3 j hj tmp htype hcov =>
    refine ⟨[], dest[j], dest.drop (j + 1), List.drop_eq_getElem_cons hj, ?_, hcov, ?_⟩
    · exact (not_not.mp htype).symm
    · intro x hx
      cases hx
  | case4 j hj tmp htype hcov ih =>
    rw [isSubsumedFrom, dif_pos hj, if_neg htype, if_neg hcov] at h
    obtain ⟨l₁, c, l₂, hdrop, hc, hcov', hbetween⟩ := ih h
    refine ⟨dest[j] :: l₁, c, l₂, ?_, hc, hcov', ?_⟩
    · rw [List.drop_eq_getElem_cons hj, hdrop, List.cons_append]
    · intro x hx hne
      rcases List.mem_cons.mp hx with rfl | hx
      · exact absurd hne htype
      · exact hbetween x hx hne
  | case5 j hj =>
    rw [isSubsumedFrom, dif_neg hj] at h
    cases h

theorem answer_removeSubsumed (dest : List AddrPolicy) (i : ℕ) :
    answer (AddrPolicy.matches addr port) AddrPolicy.result .accepted (removeSubsumed dest i) =
      answer (AddrPolicy.matches addr port) AddrPolicy.result .accepted dest := by
  induction dest, i using removeSubsumed.induct with
  | case1 dest i hi hsub ih =>
    have hlt : i < dest.length := by omega
    rw [removeSubsumed, dif_pos hi, if_pos hsub, ih]
    obtain ⟨l₁, c, l₂, hdrop, htype, hcov, hbetween⟩ := exists_of_isSubsumedFrom _ _ _ hsub
    have hdest : dest = dest.take i ++ dest[i] :: (l₁ ++ c :: l₂) := by
      rw [← hdrop, ← List.drop_eq_getElem_cons hlt, List.take_append_drop]
    have hresult : c.result = dest[i].result := by rw [AddrPolicy.result, AddrPolicy.result, htype]
    rw [List.eraseIdx_eq_take_drop_succ, hdrop]
    conv_rhs => rw [hdest]
    refine (answer_erase_subsumed hresult (matches_of_addrPolicyCovers hcov) ?_).symm
    intro x hx ha hpx
    by_cases hne : dest[i].policyType = x.policyType
    · rw [AddrPolicy.result, AddrPolicy.result, hne]
    · have hint := addrPolicyIntersects_of_matches ha hpx
      rw [hbetween x hx hne] at hint
      cases hint
  | case2 dest i hi hsub ih =>
    rw [removeSubsumed, dif_pos hi, if_neg hsub]
    exact ih
  | case3 dest i hi => rw [removeSubsumed, dif_neg hi]

/-- **Removing redundant entries does not change a policy.**  The reduced policy gives the answer of
the policy on every address and every port but zero. -/
theorem compareKnown_exitPolicyRemoveRedundancies (dest : List AddrPolicy) (addr : TorAddrPtr)
    (port : UInt16) (hport : port ≠ 0) :
    compareKnownTorAddrToAddrPolicy addr port (exitPolicyRemoveRedundancies dest) =
      compareKnownTorAddrToAddrPolicy addr port dest := by
  have hflags : KillFlags (dest.take 0) false false :=
    ⟨fun h => Bool.noConfusion h, fun h => Bool.noConfusion h⟩
  rw [compareKnown_eq_answer, compareKnown_eq_answer, exitPolicyRemoveRedundancies,
    answer_removeSubsumed, answer_removeCovered, answer_killUnreachable hport dest 0 _ _ hflags]

/-- `accept 18.0.0.0/8:80, reject 18.0.0.0/16:*, accept *4:*`, asked about `18.0.0.1:80`. -/
theorem compareKnown_exitPolicyRemoveRedundancies_threeEntries :
    compareKnownTorAddrToAddrPolicy ⟨0, .inet 0x12000001⟩ 80
        (exitPolicyRemoveRedundancies
          [⟨.accept, 8, ⟨1, .inet 0x12000000⟩, 80, 80⟩,
            ⟨.reject, 16, ⟨2, .inet 0x12000000⟩, 1, 65535⟩,
            ⟨.accept, 0, ⟨3, .inet 0⟩, 1, 65535⟩]) =
      .accepted :=
  (compareKnown_exitPolicyRemoveRedundancies _ _ _ (by decide)).trans (by decide)

end TorEbpf.Or
