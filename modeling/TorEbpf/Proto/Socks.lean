import TorEbpf.Client.AddressRewrite
import TorEbpf.Or.ExtendBody

/-!
# SOCKS requests

The requests of `proto_socks.c`: the generated parsers of `socks5.trunnel` for a request of SOCKS4 and of
SOCKS5, the functions that take a request over, and those that check it.  With `safe_socks` a request that
gives only an IP address is to be refused.

* `processSocks4Request_safe`, `processSocks5ClientRequest_safe` — what `safe_socks` refuses in either version;
* `safeSocks_iff` — a request is refused when it should be iff it is one of SOCKS5, or its address is mapped.
-/

namespace TorEbpf.Proto

open TorEbpf.Lib TorEbpf.Net TorEbpf.Or TorEbpf.Client

/-! ### The generated parsers -/

def cmdConnect : UInt8 := 1
def cmdBind : UInt8 := 2
def cmdUdpAssociate : UInt8 := 3
def cmdResolve : UInt8 := 0xf0
def cmdResolvePtr : UInt8 := 0xf1

def require (ok : Bool) : TrunnelParser Unit := if ok = true then pure () else throw .failed

def getNulterm : TrunnelParser CString := fun s =>
  if 0 ∈ s then .ok (s.takeWhile (· ≠ 0), (s.dropWhile (· ≠ 0)).tail) else .error .truncated

structure Socks4ClientRequest where
  command : UInt8
  port : UInt16
  addr : UInt32
  username : CString
  socks4aAddrHostname : Option CString
  deriving DecidableEq, Repr

def socks4ClientRequestParse : TrunnelParser Socks4ClientRequest := do
  let version ← getU8 .truncated
  require (version == 4)
  let command ← getU8 .truncated
  require (command == cmdBind || command == cmdConnect || command == cmdResolve || command == cmdResolvePtr)
  let port ← getU16 .truncated
  let addr ← getU32 .truncated
  let username ← getNulterm
  if 1 ≤ addr ∧ addr ≤ 255 then do
    let hostname ← getNulterm
    return ⟨command, port, addr, username, some hostname⟩
  else return ⟨command, port, addr, username, none⟩

/-- The union `dest_addr`. -/
inductive DestAddr where
  | ipv4 (addr : UInt32)
  | ipv6 (addr : Bytes 16)
  | domainname (name : List UInt8)
  deriving DecidableEq, Repr

structure Socks5ClientRequest where
  command : UInt8
  atype : UInt8
  destAddr : DestAddr
  destPort : UInt16
  deriving DecidableEq, Repr

def domainnameParse : TrunnelParser (List UInt8) := do
  let len ← getU8 .truncated
  takeN .truncated len.toNat

def destAddrParse (atype : UInt8) : TrunnelParser DestAddr :=
  if atype = 1 then do return .ipv4 (← getU32 .truncated)
  else if atype = 4 then do return .ipv6 (← getArray .truncated 16)
  else if atype = 3 then do return .domainname (← domainnameParse)
  else throw .failed

def socks5ClientRequestParse : TrunnelParser Socks5ClientRequest := do
  let version ← getU8 .truncated
  require (version == 5)
  let command ← getU8 .truncated
  require (command == cmdBind || command == cmdConnect || command == cmdResolve || command == cmdResolvePtr ||
    command == cmdUdpAssociate)
  let reserved ← getU8 .truncated
  require (reserved == 0)
  let atype ← getU8 .truncated
  let destAddr ← destAddrParse atype
  let destPort ← getU16 .truncated
  return ⟨command, atype, destAddr, destPort⟩

/-! ### Destinations -/

def torIsAlnum (c : UInt8) : Bool :=
  (0x30 ≤ c && c ≤ 0x39) || (0x41 ≤ c && c ≤ 0x5a) || (0x61 ≤ c && c ≤ 0x7a)

/-- `string_is_valid_ipv4_address` and `string_is_valid_ipv6_address`. -/
def stringIsValidAddress (family : SaFamily) (string : CString) : Bool :=
  match torInetPton family string with
  | .ok (some _) => true
  | _ => false

def validLabel (c : CString) : Bool :=
  c.head? != some 0x2d && c.head? != some 0x5f && !c.isEmpty &&
    c.all fun x => torIsAlnum x || x == 0x2d || x == 0x5f

def stringIsValidNonrfcHostname (string : CString) : Bool :=
  if string.isEmpty then false
  else if stringIsValidAddress .inet string then false
  else
    let components := string.splitOn 0x2e
    let components := if components.getLast? == some [] then components.dropLast else components
    components.all validLabel

def stringIsValidDest (string : CString) : Bool :=
  if string.isEmpty then false
  else
    let string :=
      if string.head? == some 0x5b && string.getLast? == some 0x5d then string.tail.dropLast else string
    stringIsValidAddress .inet string || stringIsValidAddress .inet6 string ||
      stringIsValidNonrfcHostname string

/-- `addressmap_have_mapping(address, 0)`. -/
def addressmapHaveMapping (map : StrMap AddressmapEntry) (address : CString) : Bool :=
  (strmapGetLc map address).isSome

/-! ### Requests -/

inductive Refusal where
  | invalidRequest
  | portOrIpZero
  | usernameTooLong
  | addressTooLong
  | addressText
  | onlyIpAddress
  | command
  | malformedAddress
  | malformedHostname
  deriving DecidableEq, Repr

/-- How a request comes to no result: it is incomplete, or refused for a reason, with a status in the reply if
the version has one. -/
inductive Failure where
  | truncated
  | invalid (why : Refusal) (reply : Option UInt8)
  deriving DecidableEq, Repr

/-- `socks5_reply_status_t`. -/
def socks5GeneralError : UInt8 := 1
def socks5NotAllowed : UInt8 := 2
def socks5CommandNotSupported : UInt8 := 7
def socks5AddressTypeNotSupported : UInt8 := 8

structure SocksRequest where
  socksVersion : UInt8
  command : UInt8
  port : UInt16
  address : CString
  socks5Atyp : UInt8
  gotAuth : Bool
  username : Option CString
  deriving DecidableEq, Repr

/-- `MAX_SOCKS_MESSAGE_LEN`, `MAX_SOCKS_ADDR_LEN` and `SOCKS4_NETWORK_LEN`. -/
def maxSocksMessageLen : ℕ := 512
def maxSocksAddrLen : ℕ := 256
def socks4NetworkLen : ℕ := 8

def refuse4 {α : Type} (why : Refusal) : Except Failure α := .error (.invalid why none)

/-- Refused, with an error in the reply. -/
def refuse5 {α : Type} (why : Refusal) (reason : UInt8) : Except Failure α :=
    .error (.invalid why (some reason))

/-- `parse_socks4_request`: the request, and whether it is one of SOCKS4a. -/
def parseSocks4Request (rawData : List UInt8) (req : SocksRequest) : Except Failure (SocksRequest × Bool) :=
  match socks4ClientRequestParse rawData with
  | .error .failed => refuse4 .invalidRequest
  | .error .truncated =>
    if maxSocksMessageLen ≤ rawData.length then refuse4 .invalidRequest else .error .truncated
  | .ok (trunnelReq, _) =>
    let req := { req with socksVersion := 4, command := trunnelReq.command, port := trunnelReq.port }
    let destIp := trunnelReq.addr
    if (req.port = 0 ∧ req.command ≠ cmdResolve) ∨ destIp = 0 then refuse4 .portOrIpZero
    else
      let isSocks4a := destIp >>> 8 == 0
      let usernamelen := trunnelReq.username.length
      if maxSocksMessageLen < usernamelen then refuse4 .usernameTooLong
      else
        let req :=
          if 0 < usernamelen then { req with gotAuth := true, username := some trunnelReq.username } else req
        if isSocks4a then
          let hostnameLen := rawData.length - (socks4NetworkLen + usernamelen + 1)
          if hostnameLen ≤ maxSocksAddrLen then
            match trunnelReq.socks4aAddrHostname with
            | some hostname => .ok ({ req with address := strlcpy hostname maxSocksAddrLen }, true)
            | none => .ok (req, true)
          else refuse4 .addressTooLong
        else
          match torAddrToStr (.inet destIp) maxSocksAddrLen false with
          | some text => .ok ({ req with address := text }, false)
          | none => refuse4 .addressText

def processSocks4Request (map : StrMap AddressmapEntry) (req : SocksRequest) (isSocks4a safeSocks : Bool) :
    Except Failure SocksRequest :=
  if isSocks4a && !addressmapHaveMapping map req.address && safeSocks then refuse4 .onlyIpAddress
  else if req.command ≠ cmdConnect ∧ req.command ≠ cmdResolve then refuse4 .command
  else if !stringIsValidDest req.address then refuse4 .malformedHostname
  else .ok req

def destText : DestAddr → Option CString
  | .ipv4 addr => torAddrToStr (.inet addr) maxSocksAddrLen true
  | .ipv6 addr => torAddrToStr (.inet6 addr) maxSocksAddrLen true
  | .domainname name => some (strlcpy (name.takeWhile (· ≠ 0)) maxSocksAddrLen)

def parseSocks5ClientRequest (rawData : List UInt8) (req : SocksRequest) : Except Failure SocksRequest :=
  match socks5ClientRequestParse rawData with
  | .error .failed => refuse5 .invalidRequest socks5GeneralError
  | .error .truncated => .error .truncated
  | .ok (trunnelReq, _) =>
    .ok { req with
      command := trunnelReq.command
      port := trunnelReq.destPort
      socks5Atyp := trunnelReq.atype
      address := (destText trunnelReq.destAddr).getD req.address }

def processSocks5ClientRequest (map : StrMap AddressmapEntry) (req : SocksRequest) (safeSocks : Bool) :
    Except Failure SocksRequest :=
  if req.command ≠ cmdConnect ∧ req.command ≠ cmdResolve ∧ req.command ≠ cmdResolvePtr then
    refuse5 .command socks5CommandNotSupported
  else if req.command = cmdResolvePtr ∧ familyOfText req.address = none then
    refuse5 .malformedAddress socks5AddressTypeNotSupported
  else if !stringIsValidDest req.address then refuse5 .malformedHostname socks5GeneralError
  else if (req.socks5Atyp == 1 || req.socks5Atyp == 4) && req.command != cmdResolvePtr &&
      !addressmapHaveMapping map req.address && safeSocks then
    refuse5 .onlyIpAddress socks5NotAllowed
  else .ok req

/-- `handle_socks_message`, for a message that is a request: in SOCKS5 the methods have been agreed on and the
authentication is over. -/
def handleRequest (map : StrMap AddressmapEntry) (req : SocksRequest) (safeSocks : Bool)
    (rawData : List UInt8) :
    Except Failure SocksRequest :=
  match rawData.head? with
  | some 4 =>
    if rawData.length < socks4NetworkLen then .error .truncated
    else do
      let (req, isSocks4a) ← parseSocks4Request rawData req
      processSocks4Request map req isSocks4a safeSocks
  | some 5 =>
    if rawData.length < 2 then .error .truncated
    else do
      let req ← parseSocks5ClientRequest rawData req
      processSocks5ClientRequest map req safeSocks
  | _ => refuse4 .invalidRequest

/-! ### What a message carries -/

/-- The message gives only an IP address: it is one of SOCKS4, where the address is none of those that stand for
a host name, or one of SOCKS5 with an address of type 1 or 4. -/
def carriesOnlyIp : List UInt8 → Bool
  | 4 :: _ :: _ :: _ :: a :: b :: c :: _ => !(a == 0 && b == 0 && c == 0)
  | 5 :: _ :: _ :: atype :: _ => atype == 1 || atype == 4
  | _ => false

theorem getU8_ok {e : TrunnelError} {v : UInt8} {s t : List UInt8} (h : getU8 e s = .ok (v, t)) :
    s = v :: t := by
  cases s with
  | nil => cases h
  | cons b s =>
    rw [show b :: s = [b] ++ s from rfl, reads_getU8 b s] at h
    cases h
    rfl

theorem getU16_ok {e : TrunnelError} {v : UInt16} {s t : List UInt8} (h : getU16 e s = .ok (v, t)) :
    ∃ a b, s = a :: b :: t := by
  match s with
  | [] => cases h
  | [_] => cases h
  | a :: b :: s =>
    cases h
    exact ⟨a, b, rfl⟩

theorem getU32_ok {e : TrunnelError} {v : UInt32} {s t : List UInt8} (h : getU32 e s = .ok (v, t)) :
    ∃ a b c d, s = a :: b :: c :: d :: t ∧ v = UInt32.ofNat (beNat [a, b, c, d]) := by
  match s with
  | [] => cases h
  | [_] => cases h
  | [_, _] => cases h
  | [_, _, _] => cases h
  | a :: b :: c :: d :: s =>
    cases h
    exact ⟨a, b, c, d, rfl, rfl⟩

theorem require_ok {ok : Bool} {u : Unit} {s t : List UInt8} (h : require ok s = .ok (u, t)) :
    ok = true ∧ t = s := by
  unfold require at h
  split_ifs at h with hok
  · cases h
    exact ⟨hok, rfl⟩
  · cases h

/-- An address is below 256 iff its first bytes are zero. -/
theorem shift_quad (a b c d : UInt8) :
    (UInt32.ofNat (beNat [a, b, c, d]) >>> 8 == 0) = (a == 0 && b == 0 && c == 0) := by
  have ha := a.toNat_lt
  have hb := b.toNat_lt
  have hc := c.toNat_lt
  have hd := d.toNat_lt
  have hn : beNat [a, b, c, d] = ((a.toNat * 256 + b.toNat) * 256 + c.toNat) * 256 + d.toNat := by
    simp only [beNat, leNat, List.reverse_cons, List.reverse_nil, List.nil_append, List.cons_append]
    ring
  have hshift : (UInt32.ofNat (beNat [a, b, c, d]) >>> 8).toNat = (a.toNat * 256 + b.toNat) * 256 + c.toNat :=
      by
    rw [UInt32.toNat_shiftRight, UInt32.toNat_ofNat', hn, Nat.shiftRight_eq_div_pow]
    simp only [UInt32.reduceToNat, Nat.reduceMod, Nat.reducePow]
    omega
  rw [Bool.eq_iff_iff]
  simp only [beq_iff_eq, Bool.and_eq_true, ← UInt32.toNat_inj, ← UInt8.toNat_inj, hshift, UInt32.toNat_zero,
    UInt8.toNat_zero]
  omega

theorem socks4_shape {s s' : List UInt8} {t : Socks4ClientRequest} (h : socks4ClientRequestParse s =
    .ok (t, s')) :
    ∃ c p₁ p₂ a₁ a₂ a₃ a₄ rest, s = 4 :: c :: p₁ :: p₂ :: a₁ :: a₂ :: a₃ :: a₄ :: rest ∧
      t.addr = UInt32.ofNat (beNat [a₁, a₂, a₃, a₄]) := by
  obtain ⟨version, s₁, hversion, h⟩ := parser_bind_ok h
  obtain ⟨_, s₂, hrequire, h⟩ := parser_bind_ok h
  obtain ⟨command, s₃, hcommand, h⟩ := parser_bind_ok h
  obtain ⟨_, s₄, hrequire', h⟩ := parser_bind_ok h
  obtain ⟨port, s₅, hport, h⟩ := parser_bind_ok h
  obtain ⟨addr, s₆, haddr, h⟩ := parser_bind_ok h
  obtain ⟨hfour, rfl⟩ := require_ok hrequire
  obtain ⟨-, rfl⟩ := require_ok hrequire'
  obtain ⟨p₁, p₂, rfl⟩ := getU16_ok hport
  obtain ⟨a₁, a₂, a₃, a₄, rfl, rfl⟩ := getU32_ok haddr
  refine ⟨command, p₁, p₂, a₁, a₂, a₃, a₄, s₆, ?_, ?_⟩
  · rw [getU8_ok hversion, eq_of_beq hfour, getU8_ok hcommand]
  · obtain ⟨username, s₇, -, h⟩ := parser_bind_ok h
    split_ifs at h with hname
    · obtain ⟨hostname, s₈, -, h⟩ := parser_bind_ok h
      cases h
      rfl
    · cases h
      rfl

theorem socks5_shape {s s' : List UInt8} {t : Socks5ClientRequest} (h : socks5ClientRequestParse s =
    .ok (t, s')) :
    ∃ c r rest, s = 5 :: c :: r :: t.atype :: rest := by
  obtain ⟨version, s₁, hversion, h⟩ := parser_bind_ok h
  obtain ⟨_, s₂, hrequire, h⟩ := parser_bind_ok h
  obtain ⟨command, s₃, hcommand, h⟩ := parser_bind_ok h
  obtain ⟨_, s₄, hrequire', h⟩ := parser_bind_ok h
  obtain ⟨reserved, s₅, hreserved, h⟩ := parser_bind_ok h
  obtain ⟨_, s₆, hrequire'', h⟩ := parser_bind_ok h
  obtain ⟨atype, s₇, hatype, h⟩ := parser_bind_ok h
  obtain ⟨destAddr, s₈, -, h⟩ := parser_bind_ok h
  obtain ⟨destPort, s₉, -, h⟩ := parser_bind_ok h
  cases h
  obtain ⟨hfive, rfl⟩ := require_ok hrequire
  obtain ⟨-, rfl⟩ := require_ok hrequire'
  obtain ⟨-, rfl⟩ := require_ok hrequire''
  refine ⟨command, reserved, s₇, ?_⟩
  rw [getU8_ok hversion, eq_of_beq hfive, getU8_ok hcommand, getU8_ok hreserved, getU8_ok hatype]

/-! ### What is refused -/

/-- The request is refused because it gives only an IP address. -/
def RefusedUnsafe (res : Except Failure SocksRequest) : Prop :=
    ∃ reply, res = .error (.invalid .onlyIpAddress reply)

section Refused

variable {map : StrMap AddressmapEntry} {req req' accepted : SocksRequest} {rawData : List UInt8}
  {isSocks4a : Bool}

theorem not_refusedUnsafe_ok (req : SocksRequest) : ¬RefusedUnsafe (.ok req) := by
  rintro ⟨reply, h⟩
  cases h

/-- Whatever is wrong with a message of SOCKS4, it is not that it gives only an IP address. -/
theorem parseSocks4Request_error {e : Failure} (h : parseSocks4Request rawData req = .error e) :
    ∀ reply, e ≠ .invalid .onlyIpAddress reply := by
  rintro reply rfl
  unfold parseSocks4Request refuse4 at h
  dsimp only at h
  split at h
  · cases h
  · split_ifs at h
    all_goals cases h
  · split_ifs at h
    all_goals try cases h
    all_goals split at h
    all_goals cases h

theorem parseSocks5ClientRequest_error {e : Failure} (h : parseSocks5ClientRequest rawData req = .error e) :
    ∀ reply, e ≠ .invalid .onlyIpAddress reply := by
  rintro reply rfl
  unfold parseSocks5ClientRequest refuse5 at h
  split at h
  all_goals cases h

/-- **In SOCKS4** the requests with a host name are refused. -/
theorem processSocks4Request_safe (map : StrMap AddressmapEntry) (req : SocksRequest) (isSocks4a : Bool) :
    processSocks4Request map req isSocks4a true =
      if isSocks4a = true ∧ addressmapHaveMapping map req.address = false then refuse4 .onlyIpAddress
      else processSocks4Request map req isSocks4a false := by
  simp [processSocks4Request]

/-- **In SOCKS5** those without one. -/
theorem processSocks5ClientRequest_safe
    (h : processSocks5ClientRequest map req false = .ok accepted) :
    processSocks5ClientRequest map req true =
      if (req.socks5Atyp = 1 ∨ req.socks5Atyp = 4) ∧ req.command ≠ cmdResolvePtr ∧
          addressmapHaveMapping map req.address = false then refuse5 .onlyIpAddress socks5NotAllowed
      else .ok accepted := by
  unfold processSocks5ClientRequest refuse5 at h
  split_ifs at h with hcommand haddress hdest
  -- the other checks have been passed
  cases h
  rw [processSocks5ClientRequest, if_neg hcommand, if_neg haddress, if_neg hdest]
  simp [and_assoc]

theorem processSocks5ClientRequest_off : ¬RefusedUnsafe (processSocks5ClientRequest map req false) := by
  rintro ⟨reply, h⟩
  unfold processSocks5ClientRequest refuse5 at h
  split_ifs at h with hcommand haddress hdest hunsafe
  · cases h
  · cases h
  · cases h
  · simp at hunsafe

theorem processSocks4Request_off : ¬RefusedUnsafe (processSocks4Request map req isSocks4a false) := by
  rintro ⟨reply, h⟩
  unfold processSocks4Request refuse4 at h
  split_ifs at h with hunsafe hcommand hdest
  · simp at hunsafe
  · cases h
  · cases h

/-- Without `safe_socks` nothing is refused for that reason. -/
theorem handleRequest_off (map : StrMap AddressmapEntry) (req : SocksRequest) (rawData : List UInt8) :
    ¬RefusedUnsafe (handleRequest map req false rawData) := by
  rintro ⟨reply, h⟩
  unfold handleRequest at h
  split at h
  · split_ifs at h
    · cases h
    cases hparse : parseSocks4Request rawData req with
    | error e =>
      rw [hparse] at h
      cases h
      exact parseSocks4Request_error hparse reply rfl
    | ok parsed =>
      rw [hparse] at h
      exact processSocks4Request_off ⟨reply, h⟩
  · split_ifs at h
    · cases h
    cases hparse : parseSocks5ClientRequest rawData req with
    | error e =>
      rw [hparse] at h
      cases h
      exact parseSocks5ClientRequest_error hparse reply rfl
    | ok parsed =>
      rw [hparse] at h
      exact processSocks5ClientRequest_off ⟨reply, h⟩
  · cases h

/-- A message that is taken over as one of SOCKS4a, or not, has been parsed so. -/
theorem parseSocks4Request_ok (h : parseSocks4Request rawData req = .ok (req', isSocks4a)) :
    ∃ t s, socks4ClientRequestParse rawData = .ok (t, s) ∧ isSocks4a = (t.addr >>> 8 == 0) := by
  unfold parseSocks4Request refuse4 at h
  dsimp only at h
  split at h
  · cases h
  · split_ifs at h
  · next t s hparse =>
    refine ⟨t, s, hparse, ?_⟩
    split_ifs at h with hzero hname hauth hsocks4a hlong hlong
    all_goals split at h
    all_goals cases h
    all_goals simp_all

/-- Only an address is given iff the request is not one of SOCKS4a. -/
theorem carriesOnlyIp_socks4 (h : parseSocks4Request rawData req = .ok (req', isSocks4a)) :
    carriesOnlyIp rawData = !isSocks4a := by
  obtain ⟨t, s, hparse, rfl⟩ := parseSocks4Request_ok h
  obtain ⟨c, p₁, p₂, a₁, a₂, a₃, a₄, rest, rfl, haddr⟩ := socks4_shape hparse
  have hcarries : carriesOnlyIp (4 :: c :: p₁ :: p₂ :: a₁ :: a₂ :: a₃ :: a₄ :: rest) =
    !(a₁ == 0 && a₂ == 0 && a₃ == 0) := rfl
  rw [hcarries, ← shift_quad a₁ a₂ a₃ a₄, haddr]

/-- Only an address is given iff it is of one of the types. -/
theorem carriesOnlyIp_socks5 (h : parseSocks5ClientRequest rawData req = .ok req') :
    carriesOnlyIp rawData = true ↔ req'.socks5Atyp = 1 ∨ req'.socks5Atyp = 4 := by
  unfold parseSocks5ClientRequest refuse5 at h
  split at h
  · cases h
  · cases h
  · next t s hparse =>
    cases h
    obtain ⟨c, r, rest, rfl⟩ := socks5_shape hparse
    have hcarries : carriesOnlyIp (5 :: c :: r :: t.atype :: rest) = (t.atype == 1 || t.atype == 4) := rfl
    rw [hcarries, Bool.or_eq_true, beq_iff_eq, beq_iff_eq]

theorem processSocks4Request_ok (h : processSocks4Request map req isSocks4a false = .ok accepted) :
    accepted = req := by
  unfold processSocks4Request refuse4 at h
  split_ifs at h
  cases h
  rfl

theorem processSocks5ClientRequest_ok (h : processSocks5ClientRequest map req false = .ok accepted) :
    accepted = req := by
  unfold processSocks5ClientRequest refuse5 at h
  split_ifs at h
  cases h
  rfl

/-- **SOCKS4** with `safe_socks`: the requests of SOCKS4a are refused, if their host name is not mapped. -/
theorem handleRequest_socks4 (hhead : rawData.head? = some 4)
    (hvalid : handleRequest map req false rawData = .ok accepted) :
    RefusedUnsafe (handleRequest map req true rawData) ↔
      carriesOnlyIp rawData = false ∧ addressmapHaveMapping map accepted.address = false := by
  unfold handleRequest at hvalid ⊢
  simp only [hhead] at hvalid ⊢
  split_ifs at hvalid ⊢ with hlen
  cases hparse : parseSocks4Request rawData req with
  | error e =>
    rw [hparse] at hvalid
    cases hvalid
  | ok parsed =>
    obtain ⟨req', isSocks4a⟩ := parsed
    rw [hparse] at hvalid
    have hprocess : processSocks4Request map req' isSocks4a false = .ok accepted := hvalid
    obtain rfl := processSocks4Request_ok hprocess
    show RefusedUnsafe (processSocks4Request map accepted isSocks4a true) ↔ _
    rw [processSocks4Request_safe, hprocess, carriesOnlyIp_socks4 hparse, Bool.not_eq_false']
    split_ifs with hrefuse
    · exact iff_of_true ⟨none, rfl⟩ hrefuse
    · exact iff_of_false (not_refusedUnsafe_ok accepted) hrefuse

/-- **SOCKS5** with `safe_socks`: the requests with an address are refused, if it is not mapped. -/
theorem handleRequest_socks5 (hhead : rawData.head? = some 5)
    (hvalid : handleRequest map req false rawData = .ok accepted)
      (hcommand : accepted.command ≠ cmdResolvePtr) :
    RefusedUnsafe (handleRequest map req true rawData) ↔
      carriesOnlyIp rawData = true ∧ addressmapHaveMapping map accepted.address = false := by
  unfold handleRequest at hvalid ⊢
  simp only [hhead] at hvalid ⊢
  split_ifs at hvalid ⊢ with hlen
  cases hparse : parseSocks5ClientRequest rawData req with
  | error e =>
    rw [hparse] at hvalid
    cases hvalid
  | ok req' =>
    rw [hparse] at hvalid
    have hprocess : processSocks5ClientRequest map req' false = .ok accepted := hvalid
    obtain rfl := processSocks5ClientRequest_ok hprocess
    show RefusedUnsafe (processSocks5ClientRequest map accepted true) ↔ _
    rw [processSocks5ClientRequest_safe hprocess, carriesOnlyIp_socks5 hparse]
    split_ifs with hrefuse
    · exact iff_of_true ⟨_, rfl⟩ ⟨hrefuse.1, hrefuse.2.2⟩
    · exact iff_of_false (not_refusedUnsafe_ok accepted) fun hboth => hrefuse ⟨hboth.1, hcommand, hboth.2⟩

theorem handleRequest_head (hvalid : handleRequest map req false rawData = .ok accepted) :
    rawData.head? = some 4 ∨ rawData.head? = some 5 := by
  unfold handleRequest refuse4 at hvalid
  split at hvalid
  · next hhead => exact .inl hhead
  · next hhead => exact .inr hhead
  · cases hvalid

end Refused

/-! ### Safe SOCKS -/

/-- **Safe SOCKS**: of the valid requests to connect or to resolve, those are refused that carry only an IP
address which is not mapped, and none without `safe_socks`, iff the request is one of SOCKS5 or its address is
mapped.  In SOCKS4 it is the requests with a host name that are refused. -/
theorem safeSocks_iff (map : StrMap AddressmapEntry) (req accepted : SocksRequest) (rawData : List UInt8)
    (hvalid : handleRequest map req false rawData = .ok accepted)
    (hcommand : accepted.command = cmdConnect ∨ accepted.command = cmdResolve) :
    ((RefusedUnsafe (handleRequest map req true rawData) ↔
        carriesOnlyIp rawData = true ∧ addressmapHaveMapping map accepted.address = false) ∧
      ∀ rawData', ¬RefusedUnsafe (handleRequest map req false rawData')) ↔
      rawData.head? = some 5 ∨ addressmapHaveMapping map accepted.address = true := by
  have hoff := handleRequest_off map req
  rcases handleRequest_head hvalid with hhead | hhead
  · rw [handleRequest_socks4 hhead hvalid, hhead]
    cases carriesOnlyIp rawData <;> cases addressmapHaveMapping map accepted.address <;> simp [hoff]
  · have hptr : accepted.command ≠ cmdResolvePtr := by
      rcases hcommand with hcmd | hcmd <;> (rw [hcmd]; decide)
    exact iff_of_true ⟨handleRequest_socks5 hhead hvalid hptr, hoff⟩ (.inl hhead)

/-- A request before anything has been received, and after the methods of SOCKS5 have been agreed on. -/
def newRequest (socksVersion : UInt8) : SocksRequest := ⟨socksVersion, 0, 0, [], 0, false, none⟩

/-- A request of SOCKS5 to connect to the address 18.0.0.1. -/
def connectIp : List UInt8 := [5, 1, 0, 1, 18, 0, 0, 1, 0, 80]

theorem safeSocks_iff_connectIp :
    RefusedUnsafe (handleRequest [] (newRequest 5) true connectIp) := by
  have hvalid : handleRequest [] (newRequest 5) false connectIp =
      .ok ⟨5, 1, 80, [0x31, 0x38, 0x2e, 0x30, 0x2e, 0x30, 0x2e, 0x31], 1, false, none⟩ := by decide +kernel
  exact (((safeSocks_iff [] (newRequest 5) _ connectIp hvalid (.inl rfl)).mpr (.inl rfl)).1).mpr ⟨rfl, rfl⟩

/-- A request of SOCKS4 to connect to the address 18.0.0.1. -/
def connectSocks4 : List UInt8 := [4, 1, 0, 80, 18, 0, 0, 1, 0]

/-- A request of SOCKS4a to connect to the host `a`. -/
def connectSocks4a : List UInt8 := [4, 1, 0, 80, 0, 0, 0, 1, 0, 0x61, 0]

/-- The address goes through, and the host name is refused. -/
theorem not_safeSocks :
    (carriesOnlyIp connectSocks4 = true ∧ (∃ accepted, handleRequest [] (newRequest 0) true connectSocks4 =
      .ok accepted ∧
      addressmapHaveMapping [] accepted.address = false)) ∧
    carriesOnlyIp connectSocks4a = false ∧
      (∃ accepted, handleRequest [] (newRequest 0) false connectSocks4a = .ok accepted) ∧
        RefusedUnsafe (handleRequest [] (newRequest 0) true connectSocks4a) := by
  refine ⟨⟨rfl, ⟨4, 1, 80, [0x31, 0x38, 0x2e, 0x30, 0x2e, 0x30, 0x2e, 0x31], 0, false, none⟩, ?_, rfl⟩, rfl,
    ⟨⟨4, 1, 80, [0x61], 0, false, none⟩, ?_⟩, none, ?_⟩
  all_goals decide +kernel

end TorEbpf.Proto
