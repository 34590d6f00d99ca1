import TorEbpf.Lib.Wire
import TorEbpf.Lib.Bytes

/-!
# The bodies of EXTEND and EXTEND2 cells

`extend1_cell_body` and `extend2_cell_body` of `ed25519_cert.trunnel`, as the generated `ed25519_cert.c`
parses and encodes them.  The second is a list of link specifiers and a `CREATE2` body with the handshake
and the plugin list.  All numbers are in network order.  Of a link specifier `ls_len` is not kept: the
encoder writes the length of the union it has written, and the parser only uses it to delimit the union.

* `writes_extend2CellBody`, `reads_extend2CellBody` — the encoder writes one word for a body, and the
  parser reads that body back from it.
-/

namespace TorEbpf.Or

open TorEbpf.Lib

/-- The negative results of the codec: `-2` and `-1`. -/
inductive TrunnelError where
  | truncated | failed
  deriving DecidableEq, Repr

/-- A parser of `ed25519_cert.c`. -/
abbrev TrunnelParser (α : Type) := Parser UInt8 TrunnelError α

/-- An encoder of `ed25519_cert.c`. -/
abbrev TrunnelEncoder := Encoder UInt8 TrunnelError

/-! ### Numbers and arrays -/

/-- `trunnel_set_uint16` of `trunnel_htons`. -/
def u16 (v : UInt16) : List UInt8 := beBytes 2 v.toNat

/-- `trunnel_set_uint32` of `trunnel_htonl`. -/
def u32 (v : UInt32) : List UInt8 := beBytes 4 v.toNat

/-- `trunnel_get_uint8`, after `CHECK_REMAINING`. -/
def getU8 (e : TrunnelError) : TrunnelParser UInt8 := do
  let l ← takeN e 1
  return UInt8.ofNat (beNat l)

/-- `trunnel_ntohs` of `trunnel_get_uint16`, after `CHECK_REMAINING`. -/
def getU16 (e : TrunnelError) : TrunnelParser UInt16 := do
  let l ← takeN e 2
  return UInt16.ofNat (beNat l)

/-- `trunnel_ntohl` of `trunnel_get_uint32`, after `CHECK_REMAINING`. -/
def getU32 (e : TrunnelError) : TrunnelParser UInt32 := do
  let l ← takeN e 4
  return UInt32.ofNat (beNat l)

/-- `memcpy` into an array of `n` bytes, after `CHECK_REMAINING`. -/
def getArray (e : TrunnelError) (n : ℕ) : TrunnelParser (Bytes n) := do
  let l ← takeN e n
  return Bytes.pad n l

theorem reads_getU8 {e : TrunnelError} (v : UInt8) : Reads (getU8 e) [v] v := by
  have h := (reads_takeN (σ := UInt8) (e := e) (n := 1) (l := [v]) rfl).map
    (f := fun l => UInt8.ofNat (beNat l))
  have hv : UInt8.ofNat (beNat [v]) = v := UInt8.ofNat_toNat
  rwa [hv] at h

theorem reads_getU16 {e : TrunnelError} (v : UInt16) : Reads (getU16 e) (u16 v) v := by
  have h := (reads_takeN (e := e) (beBytes_length 2 v.toNat)).map
    (f := fun l => UInt16.ofNat (beNat l))
  rwa [beNat_beBytes (show v.toNat < 256 ^ 2 from v.toNat_lt), UInt16.ofNat_toNat] at h

theorem reads_getU32 {e : TrunnelError} (v : UInt32) : Reads (getU32 e) (u32 v) v := by
  have h := (reads_takeN (e := e) (beBytes_length 4 v.toNat)).map
    (f := fun l => UInt32.ofNat (beNat l))
  rwa [beNat_beBytes (show v.toNat < 256 ^ 4 from v.toNat_lt), UInt32.ofNat_toNat] at h

theorem reads_getArray {e : TrunnelError} {n : ℕ} (b : Bytes n) : Reads (getArray e n) b.val b := by
  have h := (reads_takeN (e := e) b.length_eq).map (f := fun l => Bytes.pad n l)
  rwa [Bytes.pad_val] at h

/-! ### The EXTEND body -/

structure Extend1CellBody where
  ipv4addr : UInt32
  port : UInt16
  onionskin : Bytes 186
  identity : Bytes 20
  deriving DecidableEq, Repr

def extend1CellBodyParse : TrunnelParser Extend1CellBody := do
  let ipv4addr ← getU32 .truncated
  let port ← getU16 .truncated
  let onionskin ← getArray .truncated 186
  let identity ← getArray .truncated 20
  return ⟨ipv4addr, port, onionskin, identity⟩

/-! ### Link specifiers -/

def lsIpv4 : UInt8 := 0

def lsIpv6 : UInt8 := 1

def lsLegacyId : UInt8 := 2

def lsEd25519Id : UInt8 := 3

inductive LinkSpecifier where
  | ipv4 (addr : UInt32) (port : UInt16)
  | ipv6 (addr : Bytes 16) (port : UInt16)
  | legacyId (id : Bytes 20)
  | ed25519Id (id : Bytes 32)
  | unrecognized (lsType : UInt8) (data : List UInt8)
  deriving DecidableEq, Repr

def LinkSpecifier.lsType : LinkSpecifier → UInt8
  | .ipv4 _ _ => lsIpv4
  | .ipv6 _ _ => lsIpv6
  | .legacyId _ => lsLegacyId
  | .ed25519Id _ => lsEd25519Id
  | .unrecognized lsType _ => lsType

/-- The union `un`. -/
def LinkSpecifier.un : LinkSpecifier → List UInt8
  | .ipv4 addr port => u32 addr ++ u16 port
  | .ipv6 addr port => addr.val ++ u16 port
  | .legacyId id => id.val
  | .ed25519Id id => id.val
  | .unrecognized _ data => data

def LinkSpecifier.word (ls : LinkSpecifier) : List UInt8 :=
  [ls.lsType] ++ ([UInt8.ofNat ls.un.length] ++ ls.un)

def linkSpecifierEncode (ls : LinkSpecifier) : TrunnelEncoder := fun avail => do
  let l ← (emit .truncated [ls.lsType]).seq
    ((emit .truncated [UInt8.ofNat ls.un.length]).seq (emit .truncated ls.un)) avail
  if 255 < ls.un.length then .error .failed else .ok l

/-- The `switch` of `link_specifier_parse_into`. -/
def parseUnion (lsType : UInt8) : TrunnelParser LinkSpecifier :=
  if lsType = lsIpv4 then do
    let addr ← getU32 .failed
    let port ← getU16 .failed
    return .ipv4 addr port
  else if lsType = lsIpv6 then do
    let addr ← getArray .failed 16
    let port ← getU16 .failed
    return .ipv6 addr port
  else if lsType = lsLegacyId then do
    let id ← getArray .failed 20
    return .legacyId id
  else if lsType = lsEd25519Id then do
    let id ← getArray .failed 32
    return .ed25519Id id
  else do
    let data ← takeRest
    return .unrecognized lsType data

def linkSpecifierParse : TrunnelParser LinkSpecifier := do
  let lsType ← getU8 .truncated
  let lsLen ← getU8 .truncated
  let un ← takeN .truncated lsLen.toNat
  within .failed un (parseUnion lsType)

/-- A link specifier that the parser can yield: the union fits a length of 8 bits, and a type that is
recognised is not given as one that is not. -/
structure LinkSpecifier.WellFormed (ls : LinkSpecifier) : Prop where
  length_le : ls.un.length ≤ 255
  unrecognized : ∀ lsType data, ls = .unrecognized lsType data →
    lsType ≠ lsIpv4 ∧ lsType ≠ lsIpv6 ∧ lsType ≠ lsLegacyId ∧ lsType ≠ lsEd25519Id

/-- The specifiers of a recognised type have a fixed length. -/
theorem LinkSpecifier.wellFormed {ls : LinkSpecifier}
    (h : ∀ lsType data, ls ≠ .unrecognized lsType data) : ls.WellFormed := by
  refine ⟨?_, fun lsType data heq => absurd heq (h lsType data)⟩
  cases ls with
  | ipv4 addr port =>
    show (u32 addr ++ u16 port).length ≤ 255
    rw [List.length_append, u32, u16, beBytes_length, beBytes_length]
    decide
  | ipv6 addr port =>
    show (addr.val ++ u16 port).length ≤ 255
    rw [List.length_append, addr.length_eq, u16, beBytes_length]
    decide
  | legacyId id =>
    show id.val.length ≤ 255
    rw [id.length_eq]
    decide
  | ed25519Id id =>
    show id.val.length ≤ 255
    rw [id.length_eq]
    decide
  | unrecognized lsType data => exact absurd rfl (h lsType data)

theorem writes_linkSpecifier {ls : LinkSpecifier} (h : ls.un.length ≤ 255) :
    Writes .truncated (linkSpecifierEncode ls) ls.word := by
  intro avail
  have hw := (writes_emit TrunnelError.truncated [ls.lsType]).seq
    ((writes_emit TrunnelError.truncated [UInt8.ofNat ls.un.length]).seq
      (writes_emit TrunnelError.truncated ls.un))
  have h255 : ¬255 < ls.un.length := by omega
  simp only [linkSpecifierEncode, hw avail, if_neg h255]
  show (if avail < ls.word.length then _ else _) >>= _ = _
  split
  · rfl
  · rfl

theorem reads_parseUnion {ls : LinkSpecifier} (h : ls.WellFormed) :
    Reads (within .failed ls.un (parseUnion ls.lsType)) [] ls := by
  cases ls with
  | ipv4 addr port => exact Reads.within ((reads_getU32 addr).bind (reads_getU16 port).map)
  | ipv6 addr port => exact Reads.within ((reads_getArray addr).bind (reads_getU16 port).map)
  | legacyId id => exact Reads.within (reads_getArray id).map
  | ed25519Id id => exact Reads.within (reads_getArray id).map
  | unrecognized lsType data =>
    obtain ⟨h₄, h₆, hrsa, hed⟩ := h.unrecognized lsType data rfl
    intro rest
    show within .failed data (parseUnion lsType) rest = _
    rw [parseUnion, if_neg h₄, if_neg h₆, if_neg hrsa, if_neg hed]
    rfl

theorem reads_linkSpecifier {ls : LinkSpecifier} (h : ls.WellFormed) :
    Reads linkSpecifierParse ls.word ls := by
  have hlen : (UInt8.ofNat ls.un.length).toNat = ls.un.length := by
    have h255 := h.length_le
    exact UInt8.toNat_ofNat_of_lt' (show _ < 256 by omega)
  have hun : Reads (takeN .truncated (UInt8.ofNat ls.un.length).toNat >>= fun un =>
      within .failed un (parseUnion ls.lsType)) ls.un ls := by
    have hbind := (reads_takeN (e := TrunnelError.truncated) hlen.symm).bind
      (f := fun un => within .failed un (parseUnion ls.lsType)) (reads_parseUnion h)
    rwa [List.append_nil] at hbind
  exact (reads_getU8 _).bind ((reads_getU8 _).bind hun)

/-! ### The CREATE2 body -/

structure Create2CellBody where
  handshakeType : UInt16
  handshakeLen : UInt16
  handshakeData : List UInt8
  pluginListLen : UInt16
  plugins : List UInt8
  deriving DecidableEq, Repr

/-- `create2_cell_body_check`: the lengths are those of the arrays. -/
def create2CellBodyCheck (b : Create2CellBody) : Bool :=
  decide (b.handshakeData.length = b.handshakeLen.toNat) &&
    decide (b.plugins.length = b.pluginListLen.toNat)

def create2CellBodyEncode (b : Create2CellBody) : TrunnelEncoder :=
  if create2CellBodyCheck b then
    (emit .truncated (u16 b.handshakeType)).seq <|
    (emit .truncated (u16 b.handshakeLen)).seq <|
    (emit .truncated b.handshakeData).seq <|
    (emit .truncated (u16 b.pluginListLen)).seq <|
    emit .truncated b.plugins
  else fun _ => .error .failed

def create2CellBodyParse : TrunnelParser Create2CellBody := do
  let handshakeType ← getU16 .truncated
  let handshakeLen ← getU16 .truncated
  let handshakeData ← takeN .truncated handshakeLen.toNat
  let pluginListLen ← getU16 .truncated
  let plugins ← takeN .truncated pluginListLen.toNat
  return ⟨handshakeType, handshakeLen, handshakeData, pluginListLen, plugins⟩

/-- The bytes of a `CREATE2` body. -/
def Create2CellBody.word (b : Create2CellBody) : List UInt8 :=
  u16 b.handshakeType ++ (u16 b.handshakeLen ++ (b.handshakeData ++ (u16 b.pluginListLen ++ b.plugins)))

section
variable {b : Create2CellBody} (h : create2CellBodyCheck b = true)
include h

theorem writes_create2CellBody : Writes .truncated (create2CellBodyEncode b) b.word := by
  rw [create2CellBodyEncode, if_pos h]
  exact (writes_emit _ _).seq ((writes_emit _ _).seq ((writes_emit _ _).seq
    ((writes_emit _ _).seq (writes_emit _ _))))

theorem reads_create2CellBody : Reads create2CellBodyParse b.word b := by
  obtain ⟨hdata, hplugins⟩ := (Bool.and_eq_true _ _).mp h
  exact (reads_getU16 _).bind ((reads_getU16 _).bind ((reads_takeN (of_decide_eq_true hdata)).bind
    ((reads_getU16 _).bind (reads_takeN (of_decide_eq_true hplugins)).map)))

end

/-! ### The EXTEND2 body -/

structure Extend2CellBody where
  nSpec : UInt8
  ls : List LinkSpecifier
  create2 : Create2CellBody
  deriving DecidableEq, Repr

def extend2CellBodyCheck (b : Extend2CellBody) : Bool :=
  decide (b.ls.length = b.nSpec.toNat) && create2CellBodyCheck b.create2

def extend2CellBodyEncode (b : Extend2CellBody) : TrunnelEncoder :=
  if extend2CellBodyCheck b then
    (emit .truncated [b.nSpec]).seq <|
    (Encoder.all (b.ls.map linkSpecifierEncode)).seq <|
    create2CellBodyEncode b.create2
  else fun _ => .error .failed

def extend2CellBodyParse : TrunnelParser Extend2CellBody := do
  let nSpec ← getU8 .truncated
  let ls ← repeatN nSpec.toNat linkSpecifierParse
  let create2 ← create2CellBodyParse
  return ⟨nSpec, ls, create2⟩

/-- The bytes of an `EXTEND2` body. -/
def Extend2CellBody.word (b : Extend2CellBody) : List UInt8 :=
  [b.nSpec] ++ (b.ls.flatMap LinkSpecifier.word ++ b.create2.word)

section
variable {b : Extend2CellBody} (h : extend2CellBodyCheck b = true)
  (hls : ∀ ls ∈ b.ls, ls.WellFormed)
include h hls

/-- **The encoder.** -/
theorem writes_extend2CellBody : Writes .truncated (extend2CellBodyEncode b) b.word := by
  obtain ⟨_, hcreate2⟩ := (Bool.and_eq_true _ _).mp h
  rw [extend2CellBodyEncode, if_pos h]
  have hspecs := Writes.all b.ls fun ls hmem => writes_linkSpecifier (hls ls hmem).length_le
  exact (writes_emit _ _).seq (hspecs.seq (writes_create2CellBody hcreate2))

/-- **The parser.** -/
theorem reads_extend2CellBody : Reads extend2CellBodyParse b.word b := by
  obtain ⟨hn, hcreate2⟩ := (Bool.and_eq_true _ _).mp h
  have hspecs := reads_repeatN b.ls fun ls hmem => reads_linkSpecifier (hls ls hmem)
  rw [of_decide_eq_true hn] at hspecs
  exact (reads_getU8 _).bind (hspecs.bind (reads_create2CellBody hcreate2).map)

end

end TorEbpf.Or
