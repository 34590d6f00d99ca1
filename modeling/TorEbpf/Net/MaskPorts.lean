import TorEbpf.Net.InetRoundTrip
import TorEbpf.Strings.NumberText

/-!
# Addresses with a mask and ports

`tor_addr_parse_mask_ports` cuts a text into an address, a mask and a range of ports, and
`parse_port_range` and `addr_mask_get_bits` read the latter two.

* `cutMaskPort_append` — the text in front of a mask and ports is cut off where it ends;
* `addrMaskGetBits_eq_some_iff` — the masks that are prefixes;
* `parsePortRange_cases` — the ranges that are read, with what may stand behind them.
-/

namespace TorEbpf.Net

open TorEbpf.Lib TorEbpf.Or TorEbpf.Strings

/-! ### Cutting -/

/-- The text in front of the first `c`, and what is behind it if there is one. -/
def cut (c : UInt8) (t : List UInt8) : List UInt8 × Option (List UInt8) :=
  (t.takeWhile (· ≠ c), if c ∈ t then some (t.dropWhile (· ≠ c)).tail else none)

/-- The parts of the text.  What stands between the bracket and the mask or the port is not looked at. -/
structure Pieces where
  bracketed : Bool
  address : List UInt8
  between : List UInt8
  mask : Option (List UInt8)
  port : Option (List UInt8)

/-- The text in front of the mask and the port, the mask, and the port. -/
def cutMaskPort (t : List UInt8) : List UInt8 × Option (List UInt8) × Option (List UInt8) :=
  match cut 0x2f t with
  | (before, some t) => (before, some (cut 0x3a t).1, (cut 0x3a t).2)
  | (_, none) => ((cut 0x3a t).1, none, (cut 0x3a t).2)

/-- "Break `base` into separate strings"; nothing if a bracket is not closed. -/
def pieces (s : List UInt8) : Option Pieces :=
  match s with
  | 0x5b :: address =>
    match cut 0x5d address with
    | (_, none) => none
    | (address, some t) => some ⟨true, address, (cutMaskPort t).1, (cutMaskPort t).2.1, (cutMaskPort t).2.2⟩
  | address => some ⟨false, (cutMaskPort address).1, [], (cutMaskPort address).2.1, (cutMaskPort address).2.2⟩

/-! ### Masks and ports -/

def addrMaskGetBits (mask : UInt32) : Option ℕ :=
  if mask = 0 then some 0
  else if mask = 0xffffffff then some 32
  else (List.range' 1 32).find? fun i => mask = ~~~((1 <<< (32 - i).toUInt32) - 1)

def parsePortRange (port : Option (List UInt8)) : Option (ℕ × ℕ) :=
  match port with
  | none => some (1, 65535)
  | some port =>
    if port = [] ∨ port = [0x2a] then some (1, 65535)
    else
      match torParseLong port 0 65535 with
      | none => none
      | some (portMin, endptr) =>
        let portMax :=
          match endptr with
          | 0x2d :: port => (torParseLong port 1 65535).map Prod.fst
          | _ => some portMin
        match portMax with
        | none => none
        | some portMax =>
          if portMax < portMin then none else some ((max portMin 1).toNat, (min portMax 65535).toNat)

/-! ### The parser -/

/-- The arguments beside the text: the flags, and which results are wanted. -/
structure MaskPortsArgs where
  extendedStar : Bool
  starIpv4Only : Bool
  starIpv6Only : Bool
  wantMask : Bool
  wantPortMin : Bool
  wantPortMax : Bool
  exclusive : ¬(starIpv4Only = true ∧ starIpv6Only = true)

structure MaskPorts where
  addr : TorAddr
  maskbits : Option ℕ
  portMin : Option ℕ
  portMax : Option ℕ
  deriving DecidableEq, Repr

def nilBytes : Bytes 16 := Bytes.pad 16 []

/-- What `*` stands for. -/
def starAddr (args : MaskPortsArgs) : TorAddr :=
  if args.extendedStar = true then
    if args.starIpv4Only = true then .inet 0
    else if args.starIpv6Only = true then .inet6 nilBytes
    else .unspec
  else .inet 0

/-- "Process the address portion": the address, and `any_flag`. -/
def parseAddress (args : MaskPortsArgs) (address : List UInt8) : Except PtonFault (Option (TorAddr × Bool)) :=
  if address = [0x2a] then .ok (some (starAddr args, true))
  else if address = [0x2a, 0x34] ∧ args.extendedStar = true then .ok (some (.inet 0, true))
  else if address = [0x2a, 0x36] ∧ args.extendedStar = true then .ok (some (.inet6 nilBytes, true))
  else
    match torInetPton6 address with
    | .error f => .error f
    | .ok (some in6) => .ok (some (.inet6 in6, false))
    | .ok none => .ok ((torInetAton address).map fun in4 => (.inet in4, false))

/-- A `long` as an `int`. -/
def toInt (r : ℤ) : ℤ := r.bmod (2 ^ 32)

/-- The number of bits that a mask asks for. -/
def maskNumber (addr : TorAddr) (mask : List UInt8) : Option ℕ :=
  let (r, endptr) := strtol10 mask
  if endptr = [] then
    let bits := toInt r
    if bits < 0 ∨ 128 < bits ∨ addrFamily addr = .inet ∧ 32 < bits then none else some bits.toNat
  else (torInetAton mask).bind addrMaskGetBits

/-- `v4map`, of an IPv6 address. -/
def isMappedIn6 (addr : TorAddr) : Bool := addrFamily addr = .inet6 && torAddrIsV4 ⟨0, addr⟩

/-- "Parse mask": `bits`. -/
def parseMask (addr : TorAddr) (anyFlag : Bool) (mask : Option (List UInt8)) : Option ℕ :=
  match mask with
  | some mask =>
    (maskNumber addr mask).bind fun bits =>
      if isMappedIn6 addr = true ∧ 32 < bits ∧ bits < 96 then none
      else if anyFlag = true then none
      else some (if isMappedIn6 addr = true then 96 + bits % 32 else bits)
  | none =>
    some (if anyFlag = true then 0
      else if addrFamily addr = .inet then 32
      else if addrFamily addr = .inet6 then 128
      else 0)

/-- The mask, if it is wanted; otherwise there must be none. -/
def parseWantedMask (args : MaskPortsArgs) (addr : TorAddr) (anyFlag : Bool) (mask : Option (List UInt8)) :
    Option (Option ℕ) :=
  if args.wantMask = true then (parseMask addr anyFlag mask).map some
  else if mask.isSome = true then none
  else some none

def parsePorts (args : MaskPortsArgs) (port : Option (List UInt8)) : Option (Option ℕ × Option ℕ) :=
  if args.wantPortMin = true then
    (parsePortRange port).bind fun (portMin, portMax) =>
      if args.wantPortMax = true then some (some portMin, some portMax)
      else if portMin ≠ portMax then none
      else some (some portMin, none)
  else if port.isSome = true then none
  else some (none, none)

def maxAddressLength : ℕ := torAddrBufLen + 2 + (1 + 16) + 12 + 1

def torAddrParseMaskPorts (args : MaskPortsArgs) (s : List UInt8) : Except PtonFault (Option MaskPorts) :=
  if maxAddressLength < s.length then .ok none
  else
    match pieces s with
    | none => .ok none
    | some p =>
      (parseAddress args p.address).map fun address => do
        let (addr, anyFlag) ← address
        let maskbits ← parseWantedMask args addr anyFlag p.mask
        let (portMin, portMax) ← parsePorts args p.port
        return ⟨addr, maskbits, portMin, portMax⟩

/-! ### What is cut off -/

/-- A part behind its separator, if there is one. -/
def optText (c : UInt8) : Option (List UInt8) → List UInt8
  | none => []
  | some t => c :: t

section Cut

variable {c : UInt8} {a t : List UInt8} {mask port part : Option (List UInt8)} {p : Pieces}

theorem cut_append (ha : c ∉ a) : cut c (a ++ optText c part) = (a, part) := by
  have hne : ∀ x ∈ a, decide (x ≠ c) = true := by
    intro x hx
    refine decide_eq_true ?_
    rintro rfl
    exact ha hx
  unfold cut
  cases part with
  | none =>
    rw [optText, List.append_nil, if_neg ha, List.takeWhile_eq_self_iff.mpr hne]
  | some t =>
    have hhead : ∀ x ∈ (c :: t).head?, decide (x ≠ c) = false := by
      rintro _ ⟨⟩
      simp
    rw [optText, takeWhile_append_of_head hhead hne, dropWhile_append_of_head hhead hne, if_pos (by simp)]
    rfl

theorem append_cut (c : UInt8) (t : List UInt8) :
    t = (cut c t).1 ++ optText c (cut c t).2 ∧ c ∉ (cut c t).1 := by
  have hnot : c ∉ (cut c t).1 := fun hmem => by simpa using List.mem_takeWhile_imp hmem
  refine ⟨?_, hnot⟩
  by_cases hc : c ∈ t
  · have hdrop : t.dropWhile (· ≠ c) = c :: (t.dropWhile (· ≠ c)).tail := by
      cases hd : t.dropWhile (· ≠ c) with
      | nil =>
        have hall := List.dropWhile_eq_nil_iff.mp hd c hc
        simp at hall
      | cons x l =>
        have hx : x = c := by
          have hhead := @head?_dropWhile_of_mem _ t (fun x => decide (x ≠ c)) x (by rw [hd]; rfl)
          simpa using hhead
        rw [hx]
        rfl
    unfold cut
    dsimp only
    rw [if_pos hc, optText, ← hdrop, List.takeWhile_append_dropWhile]
  · unfold cut
    dsimp only
    rw [if_neg hc, optText, List.append_nil, List.takeWhile_eq_self_iff.mpr]
    intro x hx
    refine decide_eq_true ?_
    rintro rfl
    exact hc hx

/-- **The mask and the port are cut off** behind a text that has neither separator. -/
theorem cutMaskPort_append (hslash : 0x2f ∉ a) (hcolon : 0x3a ∉ a) (hmask : ∀ t ∈ mask, 0x3a ∉ t)
    (hport : ∀ t ∈ port, 0x2f ∉ t) :
    cutMaskPort (a ++ (optText 0x2f mask ++ optText 0x3a port)) = (a, mask, port) := by
  unfold cutMaskPort
  cases mask with
  | none =>
    have hnone : 0x2f ∉ a ++ optText 0x3a port := by
      rw [List.mem_append, not_or]
      refine ⟨hslash, ?_⟩
      cases port with
      | none => exact List.not_mem_nil
      | some t =>
        rw [optText, List.mem_cons, not_or]
        exact ⟨by decide, hport t rfl⟩
    have hcut := @cut_append 0x2f (a ++ optText 0x3a port) none hnone
    rw [optText, List.append_nil] at hcut
    rw [optText, List.nil_append, hcut]
    dsimp only
    rw [cut_append hcolon]
  | some t =>
    rw [optText, List.cons_append, ← optText, cut_append hslash]
    dsimp only
    rw [cut_append (hmask t rfl)]

theorem append_cutMaskPort (t : List UInt8) : t = (cutMaskPort t).1 ++
    (optText 0x2f (cutMaskPort t).2.1 ++ optText 0x3a (cutMaskPort t).2.2) := by
  obtain ⟨hslash, _⟩ := append_cut 0x2f t
  unfold cutMaskPort
  generalize cut 0x2f t = r at hslash ⊢
  match r, hslash with
  | (before, some u), hslash =>
    dsimp only at hslash ⊢
    have hcolon := (append_cut 0x3a u).1
    rw [hslash, optText, optText, List.cons_append, ← hcolon]
  | (before, none), hslash =>
    exact (append_cut 0x3a t).1

/-- **A text is made of its pieces.** -/
theorem append_pieces (h : pieces t = some p) : t =
    (if p.bracketed = true then 0x5b :: (p.address ++ 0x5d :: p.between) else p.address) ++
      (optText 0x2f p.mask ++ optText 0x3a p.port) ∧ (p.bracketed = true → 0x5d ∉ p.address) ∧
      (p.bracketed = false → p.between = []) := by
  unfold pieces at h
  split at h
  · next address =>
    obtain ⟨happ, hnot⟩ := append_cut 0x5d address
    generalize cut 0x5d address = r at happ hnot h
    match r, happ, hnot, h with
    | (inside, some u), happ, hnot, h =>
      have hrest := append_cutMaskPort u
      obtain rfl := Option.some.inj h
      refine ⟨?_, fun _ => hnot, nofun⟩
      dsimp only at happ
      rw [if_pos rfl, happ, optText]
      dsimp only
      rw [List.cons_append, List.append_assoc, List.cons_append, ← hrest]
  · have hrest := append_cutMaskPort t
    obtain rfl := Option.some.inj h
    exact ⟨by rw [if_neg Bool.false_ne_true]; exact hrest, nofun, fun _ => rfl⟩

end Cut

/-! ### What is read -/

/-- **The masks that are prefixes.** -/
theorem addrMaskGetBits_eq_some_iff {mask : UInt32} {n : ℕ} :
    addrMaskGetBits mask = some n ↔ n ≤ 32 ∧ mask.toNat = 2 ^ 32 - 2 ^ (32 - n) := by
  constructor
  · intro h
    unfold addrMaskGetBits at h
    split_ifs at h with h0 h32
    · cases h
      rw [h0]
      decide
    · cases h
      rw [h32]
      decide
    · have hmem := List.mem_range'_1.mp (List.mem_of_find?_eq_some h)
      have hmask : mask = ~~~((1 <<< (32 - n).toUInt32) - 1) := by simpa using List.find?_some h
      obtain ⟨hlo, hhi⟩ := hmem
      refine ⟨by omega, ?_⟩
      rw [hmask]
      interval_cases n <;> decide
  · rintro ⟨hn, hmask⟩
    have heq : mask = (2 ^ 32 - 2 ^ (32 - n)).toUInt32 := by
      rw [← hmask]
      exact UInt32.ofNat_toNat.symm
    rw [heq]
    clear hmask heq
    interval_cases n <;> decide

section Ports

variable {strict : Bool} {t x y u : List UInt8} {v w : ℤ} {r : ℕ × ℕ}

theorem parsePortRange_one (h : NumberText strict t v) (hlo : 0 ≤ v) (hhi : v ≤ 65535) :
    parsePortRange (some t) = some ((max v 1).toNat, v.toNat) := by
  have hread : torParseLong t 0 65535 = some (v, []) :=
    (torParseLong_eq_some_iff (by decide) (by decide)).mpr
      ⟨⟨t, (List.append_nil t).symm, h.lenient, nofun⟩, hlo, hhi⟩
  rw [parsePortRange]
  dsimp only
  rw [if_neg h.ne_star, hread]
  dsimp only
  rw [if_neg (Int.lt_irrefl v), min_eq_left hhi]

theorem parsePortRange_range (hx : NumberText strict x v) (hy : NumberText strict y w) (hlo : 0 ≤ v)
    (hvw : v ≤ w) (hw : 1 ≤ w) (hhi : w ≤ 65535) :
    parsePortRange (some (x ++ 0x2d :: y)) = some ((max v 1).toNat, w.toNat) := by
  have hdash : ∀ c ∈ (0x2d :: y).head?, isDigit c = false := by
    rintro _ ⟨⟩
    decide
  have hmin : torParseLong (x ++ 0x2d :: y) 0 65535 = some (v, 0x2d :: y) :=
    (torParseLong_eq_some_iff (by decide) (by decide)).mpr
      ⟨⟨x, rfl, hx.lenient, hdash⟩, hlo, hvw.trans hhi⟩
  have hmax : torParseLong y 1 65535 = some (w, []) :=
    (torParseLong_eq_some_iff (by decide) (by decide)).mpr
      ⟨⟨y, (List.append_nil y).symm, hy.lenient, nofun⟩, hw, hhi⟩
  have hne : ¬(x ++ 0x2d :: y = [] ∨ x ++ 0x2d :: y = [0x2a]) := by
    rintro (h | h)
    · simp at h
    · have hlen := congrArg List.length h
      have hpos := List.length_pos_iff.mpr hx.ne_nil
      simp only [List.length_append, List.length_cons, List.length_nil] at hlen
      omega
  rw [parsePortRange]
  dsimp only
  rw [if_neg hne, hmin]
  change (match (torParseLong y 1 65535).map Prod.fst with
    | none => none
    | some portMax =>
      if portMax < v then none else some ((max v 1).toNat, (min portMax 65535).toNat)) = _
  rw [hmax]
  dsimp only [Option.map_some]
  rw [if_neg (by omega), min_eq_left hhi]

/-- **What is read as ports**, and what may stand behind it. -/
theorem parsePortRange_cases (h : parsePortRange (some t) = some r) : (t = [] ∨ t = [0x2a]) ∧ r = (1, 65535) ∨
    ∃ x u v, t = x ++ u ∧ NumberText false x v ∧ 0 ≤ v ∧ (∀ c ∈ u.head?, isDigit c = false) ∧
      (u.head? ≠ some 0x2d ∧ v ≤ 65535 ∧ r = ((max v 1).toNat, v.toNat) ∨
        ∃ y u' w, u = 0x2d :: (y ++ u') ∧ NumberText false y w ∧ (∀ c ∈ u'.head?, isDigit c = false) ∧
          v ≤ w ∧ 1 ≤ w ∧ w ≤ 65535 ∧ r = ((max v 1).toNat, w.toNat)) := by
  rw [parsePortRange] at h
  dsimp only at h
  split_ifs at h with hstar
  · exact Or.inl ⟨hstar, (Option.some.inj h).symm⟩
  · refine Or.inr ?_
    cases hmin : torParseLong t 0 65535 with
    | none =>
      rw [hmin] at h
      cases h
    | some p =>
      obtain ⟨v, u⟩ := p
      rw [hmin] at h
      obtain ⟨⟨x, hx, hnumber, hu⟩, hlo, hhi⟩ :=
        (torParseLong_eq_some_iff (by decide) (by decide)).mp hmin
      refine ⟨x, u, v, hx, hnumber, hlo, hu, ?_⟩
      dsimp only at h
      split at h
      · cases h
      · next portMax hmax =>
        split_ifs at h with hle
        cases h
        split at hmax
        · next q =>
          obtain ⟨⟨w, u'⟩, hread, heq⟩ := Option.map_eq_some_iff.mp hmax
          cases heq
          obtain ⟨⟨y, hy, hnumber', hu'⟩, hlo', hhi'⟩ :=
            (torParseLong_eq_some_iff (by decide) (by decide)).mp hread
          refine Or.inr ⟨y, u', w, by rw [hy], hnumber', hu', by omega, hlo', hhi', ?_⟩
          rw [min_eq_left hhi']
        · next hdash =>
          cases hmax
          refine Or.inl ⟨?_, hhi, by rw [min_eq_left hhi]⟩
          intro hhead
          cases u with
          | nil => cases hhead
          | cons c u =>
            cases hhead
            exact hdash u rfl

end Ports

end TorEbpf.Net
