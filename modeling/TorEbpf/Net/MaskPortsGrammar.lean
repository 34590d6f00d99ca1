import TorEbpf.Net.MaskPorts

/-!
# The grammar of addresses with a mask and ports

The grammar in the comment on `tor_addr_parse_mask_ports`, with its meaning: an address (an IPv6 address in
brackets), an optional mask, and an optional range of ports.  In the strict grammar an integer is a row of
digits; in the other one it is what `strtol` takes for one, the range of ports may be empty behind its colon,
and the text has a greatest length.

* `Slip` — the texts on which the parser goes astray;
* `accepts_iff` — on all other texts it accepts the lenient grammar, with its meaning;
* `not_accepts_strict` — it does not accept the strict one.
-/

namespace TorEbpf.Net

open TorEbpf.Lib TorEbpf.Or TorEbpf.Strings

/-! ### The grammar -/

/-- An address, and whether it is a wildcard. -/
inductive AddressText (args : MaskPortsArgs) : List UInt8 → TorAddr → Bool → Prop
  | inet {t : List UInt8} {a : UInt32} : torInetAton t = some a → AddressText args t (.inet a) false
  | inet6 {t : List UInt8} {a : Bytes 16} : 0x5d ∉ t → torInetPton6 t = .ok (some a) →
      AddressText args (0x5b :: (t ++ [0x5d])) (.inet6 a) false
  | star : AddressText args [0x2a] (starAddr args) true
  | star4 : args.extendedStar = true → AddressText args [0x2a, 0x34] (.inet 0) true
  | star6 : args.extendedStar = true → AddressText args [0x2a, 0x36] (.inet6 nilBytes) true

/-- A mask: nothing, an integer, or an IPv4 mask of so many bits. -/
inductive MaskText (strict : Bool) : List UInt8 → Option ℤ → Prop
  | absent : MaskText strict [] none
  | integer {t : List UInt8} {n : ℤ} : NumberText strict t n → MaskText strict (0x2f :: t) (some n)
  | quad {t : List UInt8} {mask : UInt32} {n : ℕ} : torInetAton t = some mask → n ≤ 32 →
      mask.toNat = 2 ^ 32 - 2 ^ (32 - n) → MaskText strict (0x2f :: t) (some n)

/-- A range of ports.  Its lower end is at least 1. -/
inductive PortText (strict : Bool) : List UInt8 → ℕ → ℕ → Prop
  | absent : PortText strict [] 1 65535
  | all : PortText strict [0x3a, 0x2a] 1 65535
  | empty : strict = false → PortText strict [0x3a] 1 65535
  | one {t : List UInt8} {n : ℤ} : NumberText strict t n → 1 ≤ n → n ≤ 65535 →
      PortText strict (0x3a :: t) n.toNat n.toNat
  | range {t u : List UInt8} {n m : ℤ} : NumberText strict t n → NumberText strict u m → 0 ≤ n → n ≤ m →
      1 ≤ m → m ≤ 65535 → PortText strict (0x3a :: (t ++ 0x2d :: u)) (max n 1).toNat m.toNat

/-- The mask bits that a mask means for an address; nothing if the mask is not allowed there. -/
def maskMeaning (addr : TorAddr) (anyFlag : Bool) : Option ℤ → Option ℕ
  | none => some (if anyFlag = true then 0 else if addrFamily addr = .inet then 32 else 128)
  | some n =>
    if anyFlag = true then none
    else if isMappedIn6 addr = true then
      if 0 ≤ n ∧ n ≤ 32 then some (96 + n).toNat else if 96 ≤ n ∧ n ≤ 128 then some n.toNat else none
    else if 0 ≤ n ∧ n ≤ (if addrFamily addr = .inet then 32 else 128) then some n.toNat
    else none

/-- The text is in the grammar, with the results `r`. -/
def Documented (strict : Bool) (args : MaskPortsArgs) (s : List UInt8) (r : MaskPorts) : Prop :=
  ∃ a m p anyFlag mask lo hi, s = a ++ (m ++ p) ∧ AddressText args a r.addr anyFlag ∧
    MaskText strict m mask ∧ PortText strict p lo hi ∧ (strict = false → s.length ≤ maxAddressLength) ∧
    (if args.wantMask = true then r.maskbits.isSome ∧ r.maskbits = maskMeaning r.addr anyFlag mask
      else m = [] ∧ r.maskbits = none) ∧
    if args.wantPortMin = true then
      r.portMin = some lo ∧ if args.wantPortMax = true then r.portMax = some hi else lo = hi ∧ r.portMax = none
    else p = [] ∧ r.portMin = none ∧ r.portMax = none

/-- The texts on which the parser goes astray, by their pieces. -/
inductive Slip (p : Pieces) : Prop
  /-- There is something between the bracket and the mask or the port. -/
  | between : p.between ≠ [] → Slip p
  /-- An IPv4 address or a wildcard is in brackets. -/
  | bracketed : p.bracketed = true →
      (torInetAton p.address).isSome ∨ p.address ∈ [[0x2a], [0x2a, 0x34], [0x2a, 0x36]] → Slip p
  /-- An IPv6 address is not in brackets. -/
  | bare {a : Bytes 16} : p.bracketed = false → torInetPton6 p.address = .ok (some a) → Slip p
  /-- The mask is empty. -/
  | emptyMask : p.mask = some [] → Slip p
  /-- The mask is an integer that does not fit an `int`. -/
  | hugeMask {t : List UInt8} {n : ℤ} : p.mask = some t → NumberText false t n →
      n < -2 ^ 31 ∨ 2 ^ 31 ≤ n → Slip p
  /-- The mask of an IPv4-mapped address is 32 or 128. -/
  | mappedMask {t : List UInt8} {a : Bytes 16} {n : ℤ} : torInetPton6 p.address = .ok (some a) →
      isMappedIn6 (.inet6 a) = true → p.mask = some t → MaskText false (0x2f :: t) (some n) →
      n = 32 ∨ n = 128 → Slip p
  /-- The port is 0. -/
  | portZero {t : List UInt8} : p.port = some t → NumberText false t 0 → Slip p
  /-- There is something behind the only port. -/
  | behindPort {t u : List UInt8} {n : ℤ} : p.port = some (t ++ u) → NumberText false t n → u ≠ [] →
      u.head? ≠ some 0x2d → (∀ c ∈ u.head?, isDigit c = false) → Slip p
  /-- There is something behind the second port. -/
  | behindRange {t u v : List UInt8} {n m : ℤ} : p.port = some (t ++ 0x2d :: (u ++ v)) →
      NumberText false t n → NumberText false u m → v ≠ [] → (∀ c ∈ v.head?, isDigit c = false) → Slip p

/-! ### The pieces of a text -/

section Pieces

variable {strict anyFlag : Bool} {args : MaskPortsArgs} {a m s t u : List UInt8} {addr : TorAddr}
  {mask : Option ℤ} {lo hi : ℕ} {p : Pieces} {part : Option (List UInt8)} {r : MaskPorts} {n : ℤ} {c : UInt8}

theorem not_mem_of_numberText {d : UInt8} (h : NumberText strict t n) (hspace : isSpace d = false)
    (hminus : d ≠ 0x2d) (hplus : d ≠ 0x2b) (hdigit : isDigit d = false) : d ∉ t := by
  intro hmem
  rcases h.mem hmem with hd | hd | hd | hd
  · rw [hspace] at hd
    cases hd
  · exact hminus hd
  · exact hplus hd
  · rw [hdigit] at hd
    cases hd

theorem not_mem_of_torInetAton {x : UInt32} {d : UInt8} (h : torInetAton t = some x)
    (hdigit : isDigit d = false) (hdot : d ≠ 0x2e) : d ∉ t := by
  intro hmem
  rcases mem_of_torInetAton h hmem with hd | hd
  · rw [hdigit] at hd
    cases hd
  · exact hdot hd

theorem MaskText.exists_part (h : MaskText strict m mask) :
    ∃ part, m = optText 0x2f part ∧ ∀ t ∈ part, 0x3a ∉ t := by
  cases h with
  | absent => exact ⟨none, rfl, nofun⟩
  | integer h =>
    refine ⟨some _, rfl, ?_⟩
    rintro _ ⟨⟩
    exact not_mem_of_numberText h (by decide) (by decide) (by decide) (by decide)
  | quad h =>
    refine ⟨some _, rfl, ?_⟩
    rintro _ ⟨⟩
    exact not_mem_of_torInetAton h (by decide) (by decide)

theorem PortText.exists_part (h : PortText strict m lo hi) :
    ∃ part, m = optText 0x3a part ∧ ∀ t ∈ part, 0x2f ∉ t := by
  have hnumber : ∀ {t n}, NumberText strict t n → 0x2f ∉ t := fun h =>
    not_mem_of_numberText h (by decide) (by decide) (by decide) (by decide)
  cases h with
  | absent => exact ⟨none, rfl, nofun⟩
  | all =>
    refine ⟨some _, rfl, ?_⟩
    rintro _ ⟨⟩
    decide
  | empty =>
    refine ⟨some _, rfl, ?_⟩
    rintro _ ⟨⟩
    exact List.not_mem_nil
  | one h =>
    refine ⟨some _, rfl, ?_⟩
    rintro _ ⟨⟩
    exact hnumber h
  | range h h' =>
    refine ⟨some _, rfl, ?_⟩
    rintro _ ⟨⟩
    rw [List.mem_append, List.mem_cons, not_or, not_or]
    exact ⟨hnumber h, by decide, hnumber h'⟩

theorem pieces_bare (h : s.head? ≠ some 0x5b) :
    pieces s = some ⟨false, (cutMaskPort s).1, [], (cutMaskPort s).2.1, (cutMaskPort s).2.2⟩ := by
  unfold pieces
  split
  · exact absurd rfl h
  · rfl

theorem pieces_bracketed (h : 0x5d ∉ t) : pieces (0x5b :: (t ++ 0x5d :: u)) =
    some ⟨true, t, (cutMaskPort u).1, (cutMaskPort u).2.1, (cutMaskPort u).2.2⟩ := by
  have hcut := @cut_append 0x5d t (some u) h
  rw [optText] at hcut
  simp only [pieces, hcut]

theorem torInetPton6_of_not_mem (hdot : 0x2e ∈ t) (hcolon : 0x3a ∉ t) : torInetPton6 t = .ok none := by
  have hend : endOfWords t = none := by
    rw [endOfWords, if_pos hdot]
    split
    · next before hbefore =>
      have hmem : 0x3a ∈ (t.takeWhile (· ≠ 0x2e)).reverse.dropWhile isDigit := by
        rw [hbefore]
        exact List.mem_cons_self
      have htake := List.mem_reverse.mp ((List.dropWhile_suffix _).subset hmem)
      exact absurd ((List.takeWhile_prefix _).subset htake) hcolon
    · rfl
  rw [torInetPton6, hend]
  split_ifs <;> rfl

theorem AddressText.bare (h : AddressText args a addr anyFlag) (hhead : a.head? ≠ some 0x5b) :
    a ≠ [] ∧ 0x2f ∉ a ∧ 0x3a ∉ a ∧ parseAddress args a = .ok (some (addr, anyFlag)) ∧
      isMappedIn6 addr = false := by
  cases h with
  | @inet _ x h =>
    have hdot := dot_mem_of_torInetAton h
    have hcolon := @not_mem_of_torInetAton _ x 0x3a h (by decide) (by decide)
    have hstar := @not_mem_of_torInetAton _ x 0x2a h (by decide) (by decide)
    have hnot : ∀ l, 0x2a ∈ l → a ≠ l := fun l hl heq => hstar (by rw [heq]; exact hl)
    refine ⟨List.ne_nil_of_mem hdot, not_mem_of_torInetAton h (by decide) (by decide), hcolon, ?_, rfl⟩
    rw [parseAddress, if_neg (hnot _ (by decide)), if_neg fun hs => hnot _ (by decide) hs.1,
      if_neg fun hs => hnot _ (by decide) hs.1, torInetPton6_of_not_mem hdot hcolon]
    dsimp only
    rw [h]
    rfl
  | inet6 => exact absurd rfl hhead
  | star =>
    refine ⟨by decide, by decide, by decide, if_pos rfl, ?_⟩
    unfold starAddr
    split_ifs <;> decide
  | star4 hext =>
    refine ⟨by decide, by decide, by decide, ?_, rfl⟩
    rw [parseAddress, if_neg (by decide), if_pos ⟨rfl, hext⟩]
  | star6 hext =>
    refine ⟨by decide, by decide, by decide, ?_, by decide⟩
    rw [parseAddress, if_neg (by decide), if_neg (by simp), if_pos ⟨rfl, hext⟩]

theorem torInetPton6_star : torInetPton6 [0x2a] = .ok none ∧ torInetPton6 [0x2a, 0x34] = .ok none ∧
    torInetPton6 [0x2a, 0x36] = .ok none := by
  refine ⟨?_, ?_, ?_⟩ <;> rfl

theorem parseAddress_of_torInetPton6 {b : Bytes 16} (h : torInetPton6 t = .ok (some b)) :
    parseAddress args t = .ok (some (.inet6 b, false)) := by
  have hne : ∀ l, torInetPton6 l = .ok none → t ≠ l := by
    rintro l hl rfl
    rw [h] at hl
    cases hl
  obtain ⟨h1, h4, h6⟩ := torInetPton6_star
  rw [parseAddress, if_neg (hne _ h1), if_neg fun hs => hne _ h4 hs.1, if_neg fun hs => hne _ h6 hs.1, h]

/-- **A text of the grammar** is cut into its parts. -/
theorem AddressText.pieces_eq {port : Option (List UInt8)} (h : AddressText args a addr anyFlag)
    (hmask : ∀ t ∈ part, 0x3a ∉ t) (hport : ∀ t ∈ port, 0x2f ∉ t) :
    ∃ bracketed address, pieces (a ++ (optText 0x2f part ++ optText 0x3a port)) =
        some ⟨bracketed, address, [], part, port⟩ ∧
      parseAddress args address = .ok (some (addr, anyFlag)) ∧
      (isMappedIn6 addr = true → ∃ b, addr = .inet6 b ∧ torInetPton6 address = .ok (some b)) := by
  by_cases hhead : a.head? = some 0x5b
  · cases h with
    | @inet _ x h =>
      exact absurd (List.mem_of_mem_head? hhead) (not_mem_of_torInetAton h (by decide) (by decide))
    | star => exact absurd hhead (by decide)
    | star4 => exact absurd hhead (by decide)
    | star6 => exact absurd hhead (by decide)
    | @inet6 t b hbracket hpton =>
      refine ⟨true, t, ?_, parseAddress_of_torInetPton6 hpton, fun _ => ⟨b, rfl, hpton⟩⟩
      have hcut := @cutMaskPort_append [] part port List.not_mem_nil List.not_mem_nil hmask hport
      rw [List.nil_append] at hcut
      rw [List.cons_append, List.append_assoc, List.singleton_append, pieces_bracketed hbracket, hcut]
  · obtain ⟨hne, hslash, hcolon, hparse, hmapped⟩ := h.bare hhead
    refine ⟨false, a, ?_, hparse, fun hm => ?_⟩
    · have hs : (a ++ (optText 0x2f part ++ optText 0x3a port)).head? ≠ some 0x5b := by
        rw [List.head?_append_of_ne_nil _ hne]
        exact hhead
      rw [pieces_bare hs, cutMaskPort_append hslash hcolon hmask hport]
    · rw [hmapped] at hm
      cases hm

/-- **What is read as an address** is one, if the text does not slip. -/
theorem addressText_of_parseAddress (hslip : ¬Slip p) (hbracket : p.bracketed = true → 0x5d ∉ p.address)
    (h : parseAddress args p.address = .ok (some (addr, anyFlag))) :
    AddressText args (if p.bracketed = true then 0x5b :: (p.address ++ 0x5d :: p.between) else p.address)
        addr anyFlag ∧
      (isMappedIn6 addr = true → ∃ b, addr = .inet6 b ∧ torInetPton6 p.address = .ok (some b)) := by
  have hbetween : p.between = [] := by
    by_contra hne
    exact hslip (.between hne)
  rw [parseAddress] at h
  cases hb : p.bracketed with
  | true =>
    rw [if_pos rfl, hbetween]
    have hnot : ∀ l, l ∈ [[0x2a], [0x2a, 0x34], [0x2a, 0x36]] → p.address ≠ l :=
      fun l hl heq => hslip (.bracketed hb (Or.inr (heq ▸ hl)))
    rw [if_neg (hnot _ (by decide)), if_neg fun hs => hnot _ (by decide) hs.1,
      if_neg fun hs => hnot _ (by decide) hs.1] at h
    split at h
    · cases h
    · next in6 hpton =>
      cases h
      exact ⟨.inet6 (hbracket hb) hpton, fun _ => ⟨in6, rfl, hpton⟩⟩
    · obtain ⟨x, hx, _⟩ := Option.map_eq_some_iff.mp (Except.ok.inj h)
      exact absurd (.bracketed hb (Or.inl (by rw [hx]; rfl))) hslip
  | false =>
    rw [if_neg Bool.false_ne_true]
    have htext : AddressText args p.address addr anyFlag ∧ p.address.head? ≠ some 0x5b := by
      split_ifs at h with h1 h4 h6
      · cases h
        rw [h1]
        exact ⟨.star, by decide⟩
      · cases h
        rw [h4.1]
        exact ⟨.star4 h4.2, by decide⟩
      · cases h
        rw [h6.1]
        exact ⟨.star6 h6.2, by decide⟩
      · split at h
        · cases h
        · next hpton => exact absurd (.bare hb hpton) hslip
        · obtain ⟨x, hx, heq⟩ := Option.map_eq_some_iff.mp (Except.ok.inj h)
          cases heq
          refine ⟨.inet hx, fun hhead => ?_⟩
          exact absurd (List.mem_of_mem_head? hhead) (not_mem_of_torInetAton hx (by decide) (by decide))
    refine ⟨htext.1, fun hm => ?_⟩
    rw [(htext.1.bare htext.2).2.2.2.2] at hm
    cases hm

end Pieces

/-! ### Masks -/

section Masks

variable {strict anyFlag : Bool} {args : MaskPortsArgs} {t : List UInt8} {addr : TorAddr} {bits : ℕ}
  {mask : Option ℤ} {n : ℤ} {p : Pieces} {part : Option (List UInt8)}

/-- Bits that an address may have. -/
def InRange (addr : TorAddr) (n : ℤ) : Prop := 0 ≤ n ∧ n ≤ 128 ∧ (addrFamily addr = .inet → n ≤ 32)

theorem toInt_of_fits (hlo : -2 ^ 31 ≤ n) (hhi : n < 2 ^ 31) : toInt (clampLong n) = n := by
  have hclamp : clampLong n = n := by
    unfold clampLong
    omega
  rw [toInt, hclamp, Int.bmod_def]
  omega

theorem strtol10_quad {x : UInt32} (h : torInetAton t = some x) : (strtol10 t).2 ≠ [] := by
  intro hend
  have hdot := dot_mem_of_torInetAton h
  obtain ⟨v, hnumber, _⟩ := numberText_of_strtol10 hend (List.ne_nil_of_mem hdot)
  exact not_mem_of_numberText hnumber (by decide) (by decide) (by decide) (by decide) hdot

/-- **The number of bits** that a mask text asks for. -/
theorem maskNumber_of_maskText (h : MaskText strict (0x2f :: t) (some n)) (hrange : InRange addr n) :
    maskNumber addr t = some n.toNat := by
  obtain ⟨hlo, hhi, hinet⟩ := hrange
  cases h with
  | integer h =>
    have hread := @strtol10_append strict t [] n h nofun
    rw [List.append_nil] at hread
    rw [maskNumber, hread]
    dsimp only
    rw [if_pos rfl, toInt_of_fits (by omega) (by omega), if_neg]
    rintro (hneg | hbig | ⟨hfamily, hbig⟩)
    · omega
    · omega
    · have := hinet hfamily
      omega
  | @quad _ x k h hk hprefix =>
    rw [maskNumber]
    dsimp only
    rw [if_neg (strtol10_quad h), h]
    exact addrMaskGetBits_eq_some_iff.mpr ⟨hk, hprefix⟩

theorem exists_maskText_of_maskNumber (hslip : ¬Slip p) (hmask : p.mask = some t)
    (h : maskNumber addr t = some bits) :
    MaskText false (0x2f :: t) (some (bits : ℤ)) ∧ InRange addr bits := by
  rw [maskNumber] at h
  dsimp only at h
  split_ifs at h with hend hbad
  · have hne : t ≠ [] := by
      rintro rfl
      exact hslip (.emptyMask hmask)
    obtain ⟨n, hnumber, hvalue⟩ := numberText_of_strtol10 hend hne
    have hfits : ¬(n < -2 ^ 31 ∨ 2 ^ 31 ≤ n) := fun hbig => hslip (.hugeMask hmask hnumber hbig)
    rw [hvalue, toInt_of_fits (by omega) (by omega)] at hbad h
    have hbits : n = (bits : ℤ) := by
      have := Option.some.inj h
      omega
    rw [hbits] at hnumber hbad
    refine ⟨.integer hnumber, by omega, by omega, ?_⟩
    intro hinet
    by_contra hbig
    exact hbad (Or.inr (Or.inr ⟨hinet, by omega⟩))
  · obtain ⟨x, hx, hgetBits⟩ := Option.bind_eq_some_iff.mp h
    obtain ⟨hle, hprefix⟩ := addrMaskGetBits_eq_some_iff.mp hgetBits
    exact ⟨.quad hx hle hprefix, by omega, by omega, fun _ => by omega⟩

/-- What a mask in range means, and what the parser makes of it. -/
theorem maskMeaning_eq (hrange : InRange addr bits) (hend : isMappedIn6 addr = true → bits ≠ 32 ∧ bits ≠ 128) :
    maskMeaning addr anyFlag (some (bits : ℤ)) =
      if isMappedIn6 addr = true ∧ 32 < bits ∧ bits < 96 then none
      else if anyFlag = true then none
      else some (if isMappedIn6 addr = true then 96 + bits % 32 else bits) := by
  obtain ⟨_, hhi, hinet⟩ := hrange
  rw [maskMeaning]
  cases anyFlag with
  | true =>
    rw [if_pos rfl, if_pos rfl]
    split_ifs <;> rfl
  | false =>
    rw [if_neg Bool.false_ne_true, if_neg Bool.false_ne_true]
    by_cases hm : isMappedIn6 addr = true
    · obtain ⟨h32, h128⟩ := hend hm
      simp only [hm, true_and, if_true]
      split_ifs <;> first | rfl | omega | (congr 1; omega)
    · simp only [hm, false_and, if_false, Bool.false_eq_true]
      rw [if_pos]
      · rfl
      · split_ifs with hfamily
        · exact ⟨by omega, hinet hfamily⟩
        · exact ⟨by omega, hhi⟩

theorem inRange_of_maskMeaning (h : (maskMeaning addr anyFlag (some n)).isSome) : InRange addr n := by
  have hinet6 : isMappedIn6 addr = true → addrFamily addr ≠ .inet := by
    intro hm hfamily
    rw [isMappedIn6, hfamily] at hm
    cases hm
  rw [maskMeaning] at h
  cases anyFlag with
  | true =>
    rw [if_pos rfl] at h
    cases h
  | false =>
    rw [if_neg Bool.false_ne_true] at h
    by_cases hm : isMappedIn6 addr = true
    · rw [if_pos hm] at h
      by_cases hlow : 0 ≤ n ∧ n ≤ 32
      · exact ⟨hlow.1, by omega, fun hfamily => absurd hfamily (hinet6 hm)⟩
      · rw [if_neg hlow] at h
        by_cases hhigh : 96 ≤ n ∧ n ≤ 128
        · exact ⟨by omega, hhigh.2, fun hfamily => absurd hfamily (hinet6 hm)⟩
        · rw [if_neg hhigh] at h
          cases h
    · rw [if_neg hm] at h
      by_cases hin : 0 ≤ n ∧ n ≤ (if addrFamily addr = .inet then 32 else 128)
      · by_cases hfamily : addrFamily addr = .inet
        · rw [if_pos hfamily] at hin
          exact ⟨hin.1, by omega, fun _ => hin.2⟩
        · rw [if_neg hfamily] at hin
          exact ⟨hin.1, hin.2, fun h => absurd h hfamily⟩
      · rw [if_neg hin] at h
        cases h

theorem not_mappedEnd (hslip : ¬Slip p) (hmapped : isMappedIn6 addr = true →
      ∃ b, addr = .inet6 b ∧ torInetPton6 p.address = .ok (some b)) (hmask : p.mask = some t)
    (h : MaskText false (0x2f :: t) (some n)) (hm : isMappedIn6 addr = true) : n ≠ 32 ∧ n ≠ 128 := by
  obtain ⟨b, rfl, hpton⟩ := hmapped hm
  constructor
  · intro h32
    exact hslip (.mappedMask hpton hm hmask h (Or.inl h32))
  · intro h128
    exact hslip (.mappedMask hpton hm hmask h (Or.inr h128))

/-- **Every mask that is read** is one of the grammar, with its meaning. -/
theorem exists_maskText_of_parseMask (hslip : ¬Slip p) (hmapped : isMappedIn6 addr = true →
      ∃ b, addr = .inet6 b ∧ torInetPton6 p.address = .ok (some b))
    (hfamily : anyFlag = false → addrFamily addr = .inet ∨ addrFamily addr = .inet6)
    (h : parseMask addr anyFlag p.mask = some bits) :
    ∃ mask, MaskText false (optText 0x2f p.mask) mask ∧ maskMeaning addr anyFlag mask = some bits := by
  cases hmask : p.mask with
  | none =>
    rw [hmask] at h
    refine ⟨none, .absent, ?_⟩
    rw [← h, maskMeaning, parseMask]
    cases anyFlag with
    | true => rfl
    | false =>
      rcases hfamily rfl with hinet | hinet6
      · simp [hinet]
      · simp [hinet6]
  | some t =>
    rw [hmask, parseMask] at h
    obtain ⟨n, hn, hbits⟩ := Option.bind_eq_some_iff.mp h
    obtain ⟨htext, hrange⟩ := exists_maskText_of_maskNumber hslip hmask hn
    refine ⟨some n, htext, ?_⟩
    have hend : isMappedIn6 addr = true → n ≠ 32 ∧ n ≠ 128 := by
      intro hm
      have hne := not_mappedEnd hslip hmapped hmask htext hm
      exact_mod_cast hne
    rw [maskMeaning_eq hrange hend]
    exact hbits

/-- **Every mask of the grammar** that means something is read. -/
theorem parseMask_of_maskText (hslip : ¬Slip p) (hmapped : isMappedIn6 addr = true →
      ∃ b, addr = .inet6 b ∧ torInetPton6 p.address = .ok (some b))
    (hfamily : anyFlag = false → addrFamily addr = .inet ∨ addrFamily addr = .inet6)
    (htext : MaskText false (optText 0x2f p.mask) mask) (h : maskMeaning addr anyFlag mask = some bits) :
    parseMask addr anyFlag p.mask = some bits := by
  cases hmask : p.mask with
  | none =>
    rw [hmask] at htext
    cases htext
    rw [← h, maskMeaning, parseMask]
    cases anyFlag with
    | true => rfl
    | false =>
      rcases hfamily rfl with hinet | hinet6
      · simp [hinet]
      · simp [hinet6]
  | some t =>
    rw [hmask, optText] at htext
    obtain ⟨n, rfl⟩ : ∃ n, mask = some n := by
      cases htext with
      | integer => exact ⟨_, rfl⟩
      | quad => exact ⟨_, rfl⟩
    have hrange := inRange_of_maskMeaning (by rw [h]; rfl)
    have hnat : (n.toNat : ℤ) = n := Int.toNat_of_nonneg hrange.1
    have hend : isMappedIn6 addr = true → n.toNat ≠ 32 ∧ n.toNat ≠ 128 := by
      intro hm
      have hne := not_mappedEnd hslip hmapped hmask htext hm
      omega
    rw [← hnat] at hrange
    have hmeaning := @maskMeaning_eq anyFlag _ _ hrange hend
    rw [hnat] at hrange hmeaning
    rw [parseMask, maskNumber_of_maskText htext hrange, Option.bind_some, ← hmeaning]
    exact h

end Masks

/-! ### Ports -/

section PortTexts

variable {p : Pieces} {lo hi : ℕ} {part : Option (List UInt8)}

theorem portText_of_parsePortRange (hslip : ¬Slip p) (h : parsePortRange p.port = some (lo, hi)) :
    PortText false (optText 0x3a p.port) lo hi := by
  cases hport : p.port with
  | none =>
    rw [hport] at h
    cases h
    exact .absent
  | some t =>
    rw [hport] at h
    rcases parsePortRange_cases h with ⟨rfl | rfl, heq⟩ | ⟨x, u, v, rfl, hx, hv, hu, hrest⟩
    · cases heq
      exact .empty rfl
    · cases heq
      exact .all
    · rcases hrest with ⟨hdash, hmax, heq⟩ | ⟨y, u', w, rfl, hy, hu', hvw, hw, hmax, heq⟩
      · have hnil : u = [] := by
          by_contra hne
          exact hslip (.behindPort hport hx hne hdash hu)
        rw [hnil, List.append_nil] at hport ⊢
        have hne0 : v ≠ 0 := by
          rintro rfl
          exact hslip (.portZero hport hx)
        cases heq
        rw [max_eq_left (show (1 : ℤ) ≤ v by omega)]
        exact .one hx (by omega) hmax
      · have hnil : u' = [] := by
          by_contra hne
          exact hslip (.behindRange hport hx hy hne hu')
        cases heq
        rw [hnil, List.append_nil]
        exact .range hx hy hv hvw hw hmax

theorem parsePortRange_of_portText (h : PortText false (optText 0x3a part) lo hi) :
    parsePortRange part = some (lo, hi) := by
  cases part with
  | none =>
    cases h
    rfl
  | some t =>
    cases h with
    | all => rfl
    | empty => rfl
    | one h hlo hhi => rw [parsePortRange_one h (by omega) hhi, max_eq_left hlo]
    | range h h' hlo hle hone hhi => exact parsePortRange_range h h' hlo hle hone hhi

end PortTexts

/-! ### The parser -/

section Parser

variable {strict anyFlag : Bool} {args : MaskPortsArgs} {s : List UInt8} {r : MaskPorts} {a : List UInt8}
  {addr : TorAddr}

theorem AddressText.family (h : AddressText args a addr anyFlag) (hany : anyFlag = false) :
    addrFamily addr = .inet ∨ addrFamily addr = .inet6 := by
  cases h with
  | inet => exact Or.inl rfl
  | inet6 => exact Or.inr rfl
  | star => cases hany
  | star4 => cases hany
  | star6 => cases hany

theorem torAddrParseMaskPorts_eq_some_iff : torAddrParseMaskPorts args s = .ok (some r) ↔
    s.length ≤ maxAddressLength ∧ ∃ p anyFlag, pieces s = some p ∧
      parseAddress args p.address = .ok (some (r.addr, anyFlag)) ∧
      parseWantedMask args r.addr anyFlag p.mask = some r.maskbits ∧
      parsePorts args p.port = some (r.portMin, r.portMax) := by
  rw [torAddrParseMaskPorts]
  by_cases hlen : maxAddressLength < s.length
  · rw [if_pos hlen]
    constructor
    · nofun
    · rintro ⟨hle, _⟩
      omega
  · rw [if_neg hlen]
    have hle : s.length ≤ maxAddressLength := Nat.le_of_not_lt hlen
    cases hp : pieces s with
    | none =>
      constructor
      · nofun
      · rintro ⟨_, p, _, hnone, _⟩
        cases hnone
    | some p =>
      dsimp only
      constructor
      · intro h
        cases haddr : parseAddress args p.address with
        | error f =>
          rw [haddr] at h
          cases h
        | ok address =>
          rw [haddr] at h
          obtain ⟨⟨addr, anyFlag⟩, rfl, hread⟩ := Option.bind_eq_some_iff.mp (Except.ok.inj h)
          obtain ⟨bits, hbits, hread⟩ := Option.bind_eq_some_iff.mp hread
          obtain ⟨⟨lo, hi⟩, hports, hread⟩ := Option.bind_eq_some_iff.mp hread
          cases hread
          exact ⟨hle, p, anyFlag, rfl, haddr, hbits, hports⟩
      · rintro ⟨_, p', anyFlag, heq, haddr, hmask, hports⟩
        cases heq
        rw [haddr]
        refine congrArg Except.ok ?_
        show ((parseWantedMask args r.addr anyFlag p.mask).bind fun bits =>
          (parsePorts args p.port).bind fun ports =>
            some (⟨r.addr, bits, ports.1, ports.2⟩ : MaskPorts)) = some r
        rw [hmask, hports]
        rfl

theorem parsePorts_eq_some_iff {port : Option (List UInt8)} {lo hi : Option ℕ} :
    parsePorts args port = some (lo, hi) ↔
      if args.wantPortMin = true then
        ∃ n m, parsePortRange port = some (n, m) ∧ lo = some n ∧
          if args.wantPortMax = true then hi = some m else n = m ∧ hi = none
      else port = none ∧ lo = none ∧ hi = none := by
  rw [parsePorts]
  split_ifs with hmin hmax hport
  · rw [Option.bind_eq_some_iff]
    constructor
    · rintro ⟨⟨n, m⟩, hrange, h⟩
      dsimp only at h
      cases h
      exact ⟨n, m, hrange, rfl, rfl⟩
    · rintro ⟨n, m, hrange, rfl, rfl⟩
      exact ⟨(n, m), hrange, rfl⟩
  · rw [Option.bind_eq_some_iff]
    constructor
    · rintro ⟨⟨n, m⟩, hrange, h⟩
      dsimp only at h
      split_ifs at h with hne
      cases h
      exact ⟨n, m, hrange, rfl, not_not.mp hne, rfl⟩
    · rintro ⟨n, m, hrange, rfl, rfl, rfl⟩
      exact ⟨(n, n), hrange, if_neg (not_not.mpr rfl)⟩
  · constructor
    · nofun
    · rintro ⟨rfl, _⟩
      cases hport
  · rw [Option.not_isSome_iff_eq_none] at hport
    constructor
    · rintro ⟨⟩
      exact ⟨hport, rfl, rfl⟩
    · rintro ⟨_, rfl, rfl⟩
      rfl

/-- **The parser accepts the lenient grammar**, on every text that does not slip. -/
theorem accepts_iff (args : MaskPortsArgs) (s : List UInt8) (r : MaskPorts)
    (hslip : ∀ p, pieces s = some p → ¬Slip p) :
    torAddrParseMaskPorts args s = .ok (some r) ↔ Documented false args s r := by
  rw [torAddrParseMaskPorts_eq_some_iff]
  constructor
  · rintro ⟨hlen, p, anyFlag, hp, haddr, hmask, hports⟩
    obtain ⟨hs, hbracket, _⟩ := append_pieces hp
    obtain ⟨htext, hmapped⟩ := addressText_of_parseAddress (hslip p hp) hbracket haddr
    rw [parsePorts_eq_some_iff] at hports
    rw [parseWantedMask] at hmask
    -- the mask, read or absent
    have hmaskText : ∃ mask, MaskText false (optText 0x2f p.mask) mask ∧
        if args.wantMask = true then r.maskbits.isSome ∧ r.maskbits = maskMeaning r.addr anyFlag mask
        else optText 0x2f p.mask = [] ∧ r.maskbits = none := by
      split_ifs at hmask ⊢ with hwant hsome
      · obtain ⟨bits, hbits, heq⟩ := Option.map_eq_some_iff.mp hmask
        obtain ⟨mask, hmtext, hmeaning⟩ :=
          exists_maskText_of_parseMask (hslip p hp) hmapped htext.family hbits
        exact ⟨mask, hmtext, by rw [← heq]; rfl, by rw [← heq, hmeaning]⟩
      · rw [Option.not_isSome_iff_eq_none] at hsome
        rw [hsome]
        exact ⟨none, .absent, rfl, (Option.some.inj hmask).symm⟩
    -- the ports, read or absent
    have hportText : ∃ lo hi, PortText false (optText 0x3a p.port) lo hi ∧
        if args.wantPortMin = true then r.portMin = some lo ∧
          if args.wantPortMax = true then r.portMax = some hi else lo = hi ∧ r.portMax = none
        else optText 0x3a p.port = [] ∧ r.portMin = none ∧ r.portMax = none := by
      split_ifs at hports ⊢ with hmin hmax
      · obtain ⟨n, m, hrange, hlo, hhi⟩ := hports
        exact ⟨n, m, portText_of_parsePortRange (hslip p hp) hrange, hlo, hhi⟩
      · obtain ⟨n, m, hrange, hlo, hhi⟩ := hports
        exact ⟨n, m, portText_of_parsePortRange (hslip p hp) hrange, hlo, hhi⟩
      · rw [hports.1]
        exact ⟨1, 65535, .absent, rfl, hports.2⟩
    obtain ⟨mask, hmtext, hmresult⟩ := hmaskText
    obtain ⟨lo, hi, hptext, hpresult⟩ := hportText
    exact ⟨_, _, _, anyFlag, mask, lo, hi, hs, htext, hmtext, hptext, fun _ => hlen, hmresult, hpresult⟩
  · rintro ⟨a, m, q, anyFlag, mask, lo, hi, rfl, htext, hmtext, hptext, hlen, hmresult, hpresult⟩
    obtain ⟨part, rfl, hpart⟩ := hmtext.exists_part
    obtain ⟨port, rfl, hport⟩ := hptext.exists_part
    obtain ⟨bracketed, address, hp, haddr, hmapped⟩ := htext.pieces_eq hpart hport
    refine ⟨hlen rfl, _, anyFlag, hp, haddr, ?_, ?_⟩
    · rw [parseWantedMask]
      split_ifs at hmresult ⊢ with hwant hsome
      · obtain ⟨bits, hbits⟩ := Option.isSome_iff_exists.mp hmresult.1
        rw [hbits] at hmresult ⊢
        rw [parseMask_of_maskText (hslip _ hp) hmapped htext.family hmtext hmresult.2.symm]
        rfl
      · obtain ⟨t, ht⟩ := Option.isSome_iff_exists.mp hsome
        have hnil : optText 0x2f part = [] := hmresult.1
        rw [show part = some t from ht] at hnil
        cases hnil
      · rw [hmresult.2]
    · rw [parsePorts_eq_some_iff]
      split_ifs at hpresult ⊢ with hmin hmax
      · exact ⟨lo, hi, parsePortRange_of_portText hptext, hpresult⟩
      · exact ⟨lo, hi, parsePortRange_of_portText hptext, hpresult⟩
      · refine ⟨?_, hpresult.2⟩
        cases port with
        | none => rfl
        | some t => cases hpresult.1

/-- Every result, for a text that is not an IPv6 address. -/
def allResults : MaskPortsArgs := ⟨false, false, false, true, true, true, by decide⟩

/-- `"1.2.3.4/8"`. -/
def maskExample : List UInt8 := [0x31, 0x2e, 0x32, 0x2e, 0x33, 0x2e, 0x34, 0x2f, 0x38]

theorem pieces_maskExample : pieces maskExample =
    some ⟨false, [0x31, 0x2e, 0x32, 0x2e, 0x33, 0x2e, 0x34], [], some [0x38], none⟩ := by rfl

theorem not_slip_maskExample :
    ¬Slip ⟨false, [0x31, 0x2e, 0x32, 0x2e, 0x33, 0x2e, 0x34], [], some [0x38], none⟩ := by
  have hpton : torInetPton6 [0x31, 0x2e, 0x32, 0x2e, 0x33, 0x2e, 0x34] = .ok none := by decide +kernel
  have height : NumberText true [0x38] 8 := by
    refine ⟨[], none, [0x38], rfl, nofun, List.cons_ne_nil _ _, ?_, rfl, fun _ => ⟨rfl, rfl⟩⟩
    intro c hc
    rw [List.mem_singleton.mp hc]
    rfl
  intro h
  cases h with
  | between h => exact h rfl
  | bracketed h => cases h
  | bare _ h =>
    rw [hpton] at h
    cases h
  | emptyMask h => cases h
  | hugeMask h hn hbig =>
    cases h
    have := height.unique hn
    omega
  | mappedMask h =>
    rw [hpton] at h
    cases h
  | portZero h => cases h
  | behindPort h => cases h
  | behindRange h => cases h

theorem accepts_iff_maskExample :
    torAddrParseMaskPorts allResults maskExample = .ok (some ⟨.inet 0x01020304, some 8, some 1, some 65535⟩) ↔
      Documented false allResults maskExample ⟨.inet 0x01020304, some 8, some 1, some 65535⟩ := by
  refine accepts_iff allResults maskExample _ ?_
  intro p hp
  rw [pieces_maskExample] at hp
  cases hp
  exact not_slip_maskExample

/-- What a text of the strict grammar is made of, outside of brackets. -/
theorem Documented.mem (h : Documented true args s r) (hhead : s.head? ≠ some 0x5b) {c : UInt8} (hc : c ∈ s) :
    isDigit c = true ∨ c ∈ [0x2a, 0x2d, 0x2e, 0x2f, 0x3a] := by
  have hnumber : ∀ {t n}, NumberText true t n → c ∈ t → isDigit c = true := by
    rintro t n ⟨spaces, sgn, digits, rfl, _, _, hdigits, _, hstrict⟩ hmem
    obtain ⟨rfl, rfl⟩ := hstrict rfl
    exact hdigits c hmem
  have hquad : ∀ {t x}, torInetAton t = some x → c ∈ t →
      isDigit c = true ∨ c ∈ [0x2a, 0x2d, 0x2e, 0x2f, 0x3a] := by
    intro t x ht hmem
    rcases mem_of_torInetAton ht hmem with hd | rfl
    · exact Or.inl hd
    · exact Or.inr (by decide)
  obtain ⟨a, m, q, anyFlag, mask, lo, hi, rfl, htext, hmtext, hptext, _⟩ := h
  generalize r.addr = addr at htext
  rcases List.mem_append.mp hc with hc | hc
  · cases htext with
    | inet h => exact hquad h hc
    | inet6 => exact absurd rfl hhead
    | star => exact Or.inr (by rw [List.mem_singleton.mp hc]; decide)
    | star4 =>
      rcases List.mem_cons.mp hc with rfl | hc
      · exact Or.inr (by decide)
      · exact Or.inl (by rw [List.mem_singleton.mp hc]; decide)
    | star6 =>
      rcases List.mem_cons.mp hc with rfl | hc
      · exact Or.inr (by decide)
      · exact Or.inl (by rw [List.mem_singleton.mp hc]; decide)
  · rcases List.mem_append.mp hc with hc | hc
    · cases hmtext with
      | absent => cases hc
      | integer h =>
        rcases List.mem_cons.mp hc with rfl | hc
        · exact Or.inr (by decide)
        · exact Or.inl (hnumber h hc)
      | quad h =>
        rcases List.mem_cons.mp hc with rfl | hc
        · exact Or.inr (by decide)
        · exact hquad h hc
    · cases hptext with
      | absent => cases hc
      | all =>
        rcases List.mem_cons.mp hc with rfl | hc
        · exact Or.inr (by decide)
        · exact Or.inr (by rw [List.mem_singleton.mp hc]; decide)
      | empty h => cases h
      | one h =>
        rcases List.mem_cons.mp hc with rfl | hc
        · exact Or.inr (by decide)
        · exact Or.inl (hnumber h hc)
      | range h h' =>
        rcases List.mem_cons.mp hc with rfl | hc
        · exact Or.inr (by decide)
        · rcases List.mem_append.mp hc with hc | hc
          · exact Or.inl (hnumber h hc)
          · rcases List.mem_cons.mp hc with rfl | hc
            · exact Or.inr (by decide)
            · exact Or.inl (hnumber h' hc)

/-- **The strict grammar is not what is accepted**: `1.2.3.4/+8` has a sign, and behind the port of
`1.2.3.4:80x` stands a letter. -/
theorem not_accepts_strict :
    (torAddrParseMaskPorts allResults [0x31, 0x2e, 0x32, 0x2e, 0x33, 0x2e, 0x34, 0x2f, 0x2b, 0x38] =
        .ok (some ⟨.inet 0x01020304, some 8, some 1, some 65535⟩) ∧
      ¬Documented true allResults [0x31, 0x2e, 0x32, 0x2e, 0x33, 0x2e, 0x34, 0x2f, 0x2b, 0x38]
        ⟨.inet 0x01020304, some 8, some 1, some 65535⟩) ∧
    torAddrParseMaskPorts allResults [0x31, 0x2e, 0x32, 0x2e, 0x33, 0x2e, 0x34, 0x3a, 0x38, 0x30, 0x78] =
        .ok (some ⟨.inet 0x01020304, some 32, some 80, some 80⟩) ∧
      ¬Documented true allResults [0x31, 0x2e, 0x32, 0x2e, 0x33, 0x2e, 0x34, 0x3a, 0x38, 0x30, 0x78]
        ⟨.inet 0x01020304, some 32, some 80, some 80⟩ := by
  refine ⟨⟨by decide +kernel, fun h => ?_⟩, by decide +kernel, fun h => ?_⟩
  · exact absurd (@Documented.mem _ _ _ h (by decide) 0x2b (by decide)) (by decide)
  · exact absurd (@Documented.mem _ _ _ h (by decide) 0x78 (by decide)) (by decide)

end Parser

end TorEbpf.Net
