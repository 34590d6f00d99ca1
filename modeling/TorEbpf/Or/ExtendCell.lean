import TorEbpf.Or.CreateFormat
import TorEbpf.Or.ExtendBody

/-!
# Extend cells

`extend_cell_t` of `onion.h` with its check, formatter and parser of `onion.c`, and what becomes of it
at the two relays behind: the first parses the cell and formats a create cell of it, the second parses
that.

The handshake and the plugin list go through four steps.  The plugin list's length is in network order
in the `EXTEND2` body and in host order in the `CREATE2` cell.

* `extendCellParse_extendCellFormat` — what is parsed of an `EXTEND2` cell that was formatted.
* `carries_iff` — the extension is carried on unchanged exactly if the two relays have the same byte
  order, or the length of the list reads the same in both.
-/

namespace TorEbpf.Or

open TorEbpf.Lib

/-! ### Addresses -/

/-- `tor_addr_t`; an IPv4 address is kept in host order. -/
inductive TorAddr where
  | unspec
  | unix
  | inet (ipv4h : UInt32)
  | inet6 (bytes : Bytes 16)
  deriving DecidableEq, Repr

structure TorAddrPort where
  addr : TorAddr
  port : UInt16
  deriving DecidableEq, Repr

def safeMemIsZero (l : List UInt8) : Bool := l.all (· == 0)

def torAddrIsNull : TorAddr → Bool
  | .inet6 bytes => safeMemIsZero bytes.val
  | .inet ipv4h => ipv4h == 0
  | .unix => true
  | .unspec => true

/-- `tor_addr_port_is_valid_ap`, not for listening. -/
def torAddrPortIsValid (ap : TorAddrPort) : Bool := !torAddrIsNull ap.addr && ap.port != 0

def torAddrToIpv4h : TorAddr → UInt32
  | .inet ipv4h => ipv4h
  | _ => 0

def torAddrCopyIpv6Bytes : TorAddr → Bytes 16
  | .inet6 bytes => bytes
  | _ => Bytes.pad 16 []

def TorAddr.isIpv4 : TorAddr → Bool
  | .unspec | .inet _ => true
  | _ => false

def TorAddr.isIpv6 : TorAddr → Bool
  | .unspec | .inet6 _ => true
  | _ => false

/-! ### The cell -/

def relayCommandExtend : UInt8 := 6

def relayCommandExtend2 : UInt8 := 14

def relayPayloadSize : ℕ := cellPayloadSize - (1 + 2 + 2 + 4 + 2)

/-- `extend_cell_t`.  The two ORPorts are of the family that their names and comments say. -/
structure ExtendCell where
  cellType : UInt8
  orportIpv4 : TorAddrPort
  orportIpv6 : TorAddrPort
  nodeId : Bytes 20
  edPubkey : Bytes 32
  createCell : CreateCell
  isIpv4 : orportIpv4.addr.isIpv4 = true
  isIpv6 : orportIpv6.addr.isIpv6 = true
  deriving DecidableEq, Repr

/-- `create_cell_t` after `memset`. -/
def CreateCell.zero : CreateCell where
  cellType := 0
  handshakeType := 0
  handshakeLen := 0
  onionskin := Bytes.pad arraySize []
  pluginListLen := 0
  plugins := Bytes.pad arraySize []

/-- `extend_cell_t` after `memset`, with both addresses unspecified. -/
def ExtendCell.zero : ExtendCell where
  cellType := 0
  orportIpv4 := ⟨.unspec, 0⟩
  orportIpv6 := ⟨.unspec, 0⟩
  nodeId := Bytes.pad 20 []
  edPubkey := Bytes.pad 32 []
  createCell := CreateCell.zero
  isIpv4 := rfl
  isIpv6 := rfl

/-- `check_extend_cell`; `false` is `-1`. -/
def checkExtendCell (e : ExtendCell) : Bool :=
  let isExtend2 := e.cellType = relayCommandExtend2
  !safeMemIsZero e.nodeId.val &&
  (torAddrPortIsValid e.orportIpv4 || isExtend2 && torAddrPortIsValid e.orportIpv6) &&
  (if e.createCell.cellType = cellCreate then decide (e.cellType = relayCommandExtend)
    else if e.createCell.cellType = cellCreate2 then
      decide (e.cellType = relayCommandExtend2 ∨ e.cellType = relayCommandExtend)
    else false) &&
  decide (e.createCell.handshakeType ≠ handshakeFast) &&
  checkCreateCell e.createCell true

/-! ### Formatting -/

/-- The `RELAY_COMMAND_EXTEND` branch of `extend_cell_format`. -/
def formatExtend1 (e : ExtendCell) : Step (UInt8 × UInt16 × Bytes relayPayloadSize) := do
  let p := Bytes.pad relayPayloadSize []
  let p ← store p 0 (u32 (torAddrToIpv4h e.orportIpv4.addr))
  let p ← store p 4 (u16 e.orportIpv4.port)
  let p ←
    if e.createCell.handshakeType = handshakeNtor then do
      let p ← store p 6 ntorCreateMagic
      copyTo p 22 e.createCell.onionskin.val ntorOnionskinLen.toNat
    else copyTo p 6 e.createCell.onionskin.val tapOnionskinChallengeLen.toNat
  let p ← store p (6 + tapOnionskinChallengeLen.toNat) e.nodeId.val
  return (relayCommandExtend, 6 + tapOnionskinChallengeLen + 20, p)

/-- The ed25519 identity goes into the cell: it is set, and we are configured to. -/
def includesEd25519 (shouldInclude : Bool) (e : ExtendCell) : Bool :=
  shouldInclude && !safeMemIsZero e.edPubkey.val

/-- The link specifiers that `extend_cell_format` adds. -/
def linkSpecifiers (shouldInclude : Bool) (e : ExtendCell) : List LinkSpecifier :=
  (if torAddrPortIsValid e.orportIpv4 then
    [LinkSpecifier.ipv4 (torAddrToIpv4h e.orportIpv4.addr) e.orportIpv4.port] else []) ++
  [LinkSpecifier.legacyId e.nodeId] ++
  (if includesEd25519 shouldInclude e then [LinkSpecifier.ed25519Id e.edPubkey] else []) ++
  (if torAddrPortIsValid e.orportIpv6 then
    [LinkSpecifier.ipv6 (torAddrCopyIpv6Bytes e.orportIpv6.addr) e.orportIpv6.port] else [])

def nSpecifiers (shouldInclude : Bool) (e : ExtendCell) : UInt8 :=
  1 + (if torAddrPortIsValid e.orportIpv4 then 1 else 0)
    + (if includesEd25519 shouldInclude e then 1 else 0)
    + (if torAddrPortIsValid e.orportIpv6 then 1 else 0)

/-- `memcpy` of the first `n` bytes of an array. -/
def readArray (l : List UInt8) (n : ℕ) : Step (List UInt8) :=
  if n ≤ l.length then pure (l.take n) else fault .read

/-- The `RELAY_COMMAND_EXTEND2` branch of `extend_cell_format`. -/
def formatExtend2 (shouldInclude : Bool) (e : ExtendCell) :
    Step (UInt8 × UInt16 × Bytes relayPayloadSize) := do
  let handshakeData ← readArray e.createCell.onionskin.val e.createCell.handshakeLen.toNat
  let plugins ← readArray e.createCell.plugins.val e.createCell.pluginListLen.toNat
  let cell : Extend2CellBody :=
    { nSpec := nSpecifiers shouldInclude e
      ls := linkSpecifiers shouldInclude e
      create2 :=
        { handshakeType := e.createCell.handshakeType
          handshakeLen := e.createCell.handshakeLen
          handshakeData := handshakeData
          pluginListLen := e.createCell.pluginListLen
          plugins := plugins } }
  match extend2CellBodyEncode cell relayPayloadSize with
  | .error _ => fail
  | .ok l =>
      if 65535 < l.length then fail
      else return (relayCommandExtend2, UInt16.ofNat l.length, Bytes.pad relayPayloadSize l)

/-- `extend_cell_format`: the command, the length and the payload.  `shouldInclude` is
`should_include_ed25519_id_extend_cells`. -/
def extendCellFormat (shouldInclude : Bool) (e : ExtendCell) :
    Step (UInt8 × UInt16 × Bytes relayPayloadSize) :=
  if checkExtendCell e = false then fail
  else if e.cellType = relayCommandExtend then formatExtend1 e
  else if e.cellType = relayCommandExtend2 then formatExtend2 shouldInclude e
  else fail

/-! ### Parsing -/

def extendCellFromExtend1CellBody (b : Extend1CellBody) : Step ExtendCell := do
  let createCell ←
    if slice b.onionskin.val 0 16 = ntorCreateMagic then do
      let onionskin ← memcpy b.onionskin.val 16 ntorOnionskinLen.toNat arraySize
      pure { CreateCell.zero with
        cellType := cellCreate2
        handshakeType := handshakeNtor
        handshakeLen := ntorOnionskinLen
        onionskin := onionskin }
    else do
      let onionskin ← memcpy b.onionskin.val 0 tapOnionskinChallengeLen.toNat arraySize
      pure { CreateCell.zero with
        cellType := cellCreate
        handshakeType := handshakeTap
        handshakeLen := tapOnionskinChallengeLen
        onionskin := onionskin }
  return { ExtendCell.zero with
    cellType := relayCommandExtend
    orportIpv4 := ⟨.inet b.ipv4addr, b.port⟩
    nodeId := b.identity
    createCell := createCell
    isIpv4 := rfl }

def createCellFromCreate2CellBody (b : Create2CellBody) : Step CreateCell :=
  if arraySize < b.handshakeLen.toNat then fail
  else do
    let onionskin ← memcpy b.handshakeData 0 b.handshakeLen.toNat arraySize
    let plugins ← memcpy b.plugins 0 b.pluginListLen.toNat arraySize
    return ⟨cellCreate2, b.handshakeType, b.handshakeLen, onionskin, b.pluginListLen, plugins⟩

/-- The local variables of the loop over the link specifiers. -/
structure Found where
  ipv4 : Bool
  ipv6 : Bool
  rsaId : Bool
  edId : Bool
  cell : ExtendCell

def findSpecifier (s : Found) : LinkSpecifier → Step Found
  | .ipv4 addr port =>
      if s.ipv4 then pure s
      else pure { s with
        ipv4 := true, cell := { s.cell with orportIpv4 := ⟨.inet addr, port⟩, isIpv4 := rfl } }
  | .ipv6 addr port =>
      if s.ipv6 then pure s
      else pure { s with
        ipv6 := true, cell := { s.cell with orportIpv6 := ⟨.inet6 addr, port⟩, isIpv6 := rfl } }
  | .legacyId id =>
      if s.rsaId then fail
      else pure { s with rsaId := true, cell := { s.cell with nodeId := id } }
  | .ed25519Id id =>
      if s.edId then fail
      else pure { s with edId := true, cell := { s.cell with edPubkey := id } }
  | .unrecognized _ _ => pure s

def extendCellFromExtend2CellBody (b : Extend2CellBody) : Step ExtendCell := do
  let s ← b.ls.foldlM findSpecifier
    ⟨false, false, false, false, { ExtendCell.zero with cellType := relayCommandExtend2 }⟩
  if s.rsaId = false then fail
  else if s.ipv4 = false ∧ s.ipv6 = false then fail
  else do
    let createCell ← createCellFromCreate2CellBody b.create2
    return { s.cell with createCell := createCell }

/-- `extend_cell_parse`, of the `payload_length` bytes of the payload. -/
def extendCellParse (command : UInt8) (payload : List UInt8) : Step ExtendCell :=
  if relayPayloadSize < payload.length then fail
  else do
    let e ←
      if command = relayCommandExtend then
        match extend1CellBodyParse payload with
        | .ok (b, _) => extendCellFromExtend1CellBody b
        | .error _ => fail
      else if command = relayCommandExtend2 then
        match extend2CellBodyParse payload with
        | .ok (b, _) => extendCellFromExtend2CellBody b
        | .error _ => fail
      else fail
    if checkExtendCell e then return e else fail

/-! ### What is formatted -/

def ExtendCell.body (shouldInclude : Bool) (e : ExtendCell) : Extend2CellBody where
  nSpec := nSpecifiers shouldInclude e
  ls := linkSpecifiers shouldInclude e
  create2 :=
    { handshakeType := e.createCell.handshakeType
      handshakeLen := e.createCell.handshakeLen
      handshakeData := e.createCell.handshake
      pluginListLen := e.createCell.pluginListLen
      plugins := e.createCell.pluginList }

theorem linkSpecifiers_length (shouldInclude : Bool) (e : ExtendCell) :
    (linkSpecifiers shouldInclude e).length = (nSpecifiers shouldInclude e).toNat := by
  unfold linkSpecifiers nSpecifiers
  cases torAddrPortIsValid e.orportIpv4 <;> cases includesEd25519 shouldInclude e <;>
    cases torAddrPortIsValid e.orportIpv6 <;> rfl

theorem linkSpecifiers_wellFormed (shouldInclude : Bool) (e : ExtendCell) :
    ∀ ls ∈ linkSpecifiers shouldInclude e, ls.WellFormed := by
  intro ls hls
  apply LinkSpecifier.wellFormed
  intro lsType data heq
  subst heq
  unfold linkSpecifiers at hls
  cases torAddrPortIsValid e.orportIpv4 <;> cases includesEd25519 shouldInclude e <;>
    cases torAddrPortIsValid e.orportIpv6 <;> simp at hls

theorem readArray_eq_ok {l m : List UInt8} {n : ℕ} (h : readArray l n = .ok m) :
    n ≤ l.length ∧ m = l.take n := by
  unfold readArray at h
  split at h
  · rename_i hn
    cases h
    exact ⟨hn, rfl⟩
  · cases h

/-- **A formatted `EXTEND2` cell** is the word of its body, which fits the payload. -/
theorem extendCellFormat_extend2 {shouldInclude : Bool} {e : ExtendCell} {command : UInt8}
    {len : UInt16} {payload : Bytes relayPayloadSize} (he : e.cellType = relayCommandExtend2)
    (h : extendCellFormat shouldInclude e = .ok (command, len, payload)) :
    checkExtendCell e = true ∧ command = relayCommandExtend2 ∧
      e.createCell.handshakeLen.toNat ≤ arraySize ∧ e.createCell.pluginListLen.toNat ≤ arraySize ∧
      extend2CellBodyCheck (e.body shouldInclude) = true ∧
      (e.body shouldInclude).word.length ≤ relayPayloadSize ∧
      payload.val.take len.toNat = (e.body shouldInclude).word := by
  have hne : e.cellType ≠ relayCommandExtend := by
    rw [he]
    decide
  unfold extendCellFormat at h
  by_cases hcheck : checkExtendCell e = false
  · rw [if_pos hcheck] at h
    cases h
  · rw [if_neg hcheck, if_neg hne, if_pos he] at h
    obtain ⟨handshakeData, hdata, h⟩ := bind_eq_ok.mp h
    obtain ⟨plugins, hplugins, h⟩ := bind_eq_ok.mp h
    obtain ⟨h₁, rfl⟩ := readArray_eq_ok hdata
    obtain ⟨h₂, rfl⟩ := readArray_eq_ok hplugins
    rw [e.createCell.onionskin.length_eq] at h₁
    rw [e.createCell.plugins.length_eq] at h₂
    have hbody : extend2CellBodyCheck (e.body shouldInclude) = true := by
      have hls := linkSpecifiers_length shouldInclude e
      have hhs := CreateCell.handshake_length h₁
      have hpl := CreateCell.pluginList_length h₂
      simp only [extend2CellBodyCheck, create2CellBodyCheck, ExtendCell.body, hls, hhs, hpl,
        decide_true, Bool.and_self]
    have hwrites := writes_extend2CellBody hbody (linkSpecifiers_wellFormed shouldInclude e)
    change (match extend2CellBodyEncode (e.body shouldInclude) relayPayloadSize with
      | .error _ => fail
      | .ok l =>
          if 65535 < l.length then fail
          else pure (relayCommandExtend2, UInt16.ofNat l.length, Bytes.pad relayPayloadSize l)) = _
      at h
    split at h
    · cases h
    · rename_i l hl
      obtain ⟨rfl, hlen⟩ := hwrites.eq_of_ok hl
      split at h
      · cases h
      · rename_i h65535
        cases h
        refine ⟨Bool.not_eq_false _ ▸ hcheck, rfl, h₁, h₂, hbody, hlen, ?_⟩
        rw [UInt16.toNat_ofNat_of_lt' (show _ < 65536 by omega), Bytes.pad_take hlen]

/-! ### What is parsed -/

/-- An ORPort as it is parsed: as it was if it is valid, and else not set. -/
def carriedOrport (ap : TorAddrPort) : TorAddrPort :=
  if torAddrPortIsValid ap then ap else ⟨.unspec, 0⟩

theorem torAddrPortIsValid_carriedOrport (ap : TorAddrPort) :
    torAddrPortIsValid (carriedOrport ap) = torAddrPortIsValid ap := by
  unfold carriedOrport
  split
  · rfl
  · rename_i h
    rw [Bool.not_eq_true] at h
    rw [h]
    rfl

theorem ExtendCell.orportIpv4_eq {e : ExtendCell} (h : torAddrPortIsValid e.orportIpv4 = true) :
    (⟨.inet (torAddrToIpv4h e.orportIpv4.addr), e.orportIpv4.port⟩ : TorAddrPort) = e.orportIpv4 := by
  have hfamily := e.isIpv4
  generalize e.orportIpv4 = ap at h hfamily
  obtain ⟨addr, port⟩ := ap
  cases addr with
  | unspec => cases h
  | unix => cases h
  | inet ipv4h => rfl
  | inet6 bytes => cases hfamily

theorem ExtendCell.orportIpv6_eq {e : ExtendCell} (h : torAddrPortIsValid e.orportIpv6 = true) :
    (⟨.inet6 (torAddrCopyIpv6Bytes e.orportIpv6.addr), e.orportIpv6.port⟩ : TorAddrPort)
      = e.orportIpv6 := by
  have hfamily := e.isIpv6
  generalize e.orportIpv6 = ap at h hfamily
  obtain ⟨addr, port⟩ := ap
  cases addr with
  | unspec => cases h
  | unix => cases h
  | inet ipv4h => cases hfamily
  | inet6 bytes => rfl

/-- **The loop over the specifiers of a formatted cell.** -/
theorem foldlM_linkSpecifiers (shouldInclude : Bool) (e : ExtendCell) :
    ∃ s, (linkSpecifiers shouldInclude e).foldlM findSpecifier
        ⟨false, false, false, false, { ExtendCell.zero with cellType := relayCommandExtend2 }⟩ = .ok s ∧
      s.rsaId = true ∧ s.ipv4 = torAddrPortIsValid e.orportIpv4 ∧
      s.ipv6 = torAddrPortIsValid e.orportIpv6 ∧ s.cell.cellType = relayCommandExtend2 ∧
      s.cell.nodeId = e.nodeId ∧ s.cell.orportIpv4 = carriedOrport e.orportIpv4 ∧
      s.cell.orportIpv6 = carriedOrport e.orportIpv6 := by
  unfold linkSpecifiers carriedOrport
  cases h₄ : torAddrPortIsValid e.orportIpv4 <;> cases h₆ : torAddrPortIsValid e.orportIpv6 <;>
    cases includesEd25519 shouldInclude e
  · exact ⟨_, rfl, rfl, rfl, rfl, rfl, rfl, rfl, rfl⟩
  · exact ⟨_, rfl, rfl, rfl, rfl, rfl, rfl, rfl, rfl⟩
  · exact ⟨_, rfl, rfl, rfl, rfl, rfl, rfl, rfl, ExtendCell.orportIpv6_eq h₆⟩
  · exact ⟨_, rfl, rfl, rfl, rfl, rfl, rfl, rfl, ExtendCell.orportIpv6_eq h₆⟩
  · exact ⟨_, rfl, rfl, rfl, rfl, rfl, rfl, ExtendCell.orportIpv4_eq h₄, rfl⟩
  · exact ⟨_, rfl, rfl, rfl, rfl, rfl, rfl, ExtendCell.orportIpv4_eq h₄, rfl⟩
  · exact ⟨_, rfl, rfl, rfl, rfl, rfl, rfl, ExtendCell.orportIpv4_eq h₄, ExtendCell.orportIpv6_eq h₆⟩
  · exact ⟨_, rfl, rfl, rfl, rfl, rfl, rfl, ExtendCell.orportIpv4_eq h₄, ExtendCell.orportIpv6_eq h₆⟩

theorem createCellFromCreate2CellBody_body {shouldInclude : Bool} {e : ExtendCell}
    (hc : e.createCell.cellType = cellCreate2)
    (h₁ : e.createCell.handshakeLen.toNat ≤ arraySize)
    (h₂ : e.createCell.pluginListLen.toNat ≤ arraySize) :
    createCellFromCreate2CellBody (e.body shouldInclude).create2 = .ok e.createCell.cleared := by
  have hhs := CreateCell.handshake_length h₁
  have hpl := CreateCell.pluginList_length h₂
  have hslice : ∀ l : List UInt8, ∀ n, n = l.length → slice l 0 n = l := by
    intro l n hn
    rw [slice, List.drop_zero, hn, List.take_length]
  unfold createCellFromCreate2CellBody ExtendCell.body
  dsimp only
  rw [if_neg (by omega), memcpy_of_le (by omega) h₁, ok_bind, memcpy_of_le (by omega) h₂, ok_bind,
    hslice _ _ hhs.symm, hslice _ _ hpl.symm]
  show Except.ok _ = Except.ok _
  rw [CreateCell.cleared, hc]

/-- What a relay has of an extension: the identity, the valid ORPorts and the create cell. -/
structure ExtendCell.Keeps (e' e : ExtendCell) : Prop where
  cellType : e'.cellType = e.cellType
  nodeId : e'.nodeId = e.nodeId
  orportIpv4 : e'.orportIpv4 = carriedOrport e.orportIpv4
  orportIpv6 : e'.orportIpv6 = carriedOrport e.orportIpv6
  createCell : e'.createCell = e.createCell.cleared

theorem checkExtendCell_of_keeps {e e' : ExtendCell} (h : e'.Keeps e)
    (hcheck : checkExtendCell e = true) : checkExtendCell e' = true := by
  unfold checkExtendCell at hcheck ⊢
  rw [h.cellType, h.nodeId, h.orportIpv4, h.orportIpv6, h.createCell,
    torAddrPortIsValid_carriedOrport, torAddrPortIsValid_carriedOrport]
  exact hcheck

/-- The create cell of an `EXTEND2` cell that passes the check. -/
theorem create2_of_checkExtendCell {e : ExtendCell} (he : e.cellType = relayCommandExtend2)
    (hcheck : checkExtendCell e = true) :
    e.createCell.cellType = cellCreate2 ∧ e.createCell.handshakeType ≠ handshakeFast ∧
      checkCreateCell e.createCell true = true ∧
      (torAddrPortIsValid e.orportIpv4 = true ∨ torAddrPortIsValid e.orportIpv6 = true) := by
  unfold checkExtendCell at hcheck
  simp only [Bool.and_eq_true, Bool.or_eq_true, decide_eq_true_eq] at hcheck
  obtain ⟨⟨⟨⟨_, hports⟩, htype⟩, hfast⟩, hcreate⟩ := hcheck
  refine ⟨?_, hfast, hcreate, hports.imp_right And.right⟩
  split at htype
  · rw [decide_eq_true_eq, he] at htype
    exact absurd htype (by decide)
  · split at htype
    · assumption
    · cases htype

/-- **Parsing a formatted cell.** -/
theorem extendCellParse_extendCellFormat {shouldInclude : Bool} {e : ExtendCell} {command : UInt8}
    {len : UInt16} {payload : Bytes relayPayloadSize} (he : e.cellType = relayCommandExtend2)
    (h : extendCellFormat shouldInclude e = .ok (command, len, payload)) :
    ∃ e', extendCellParse relayCommandExtend2 (payload.val.take len.toNat) = .ok e' ∧ e'.Keeps e := by
  obtain ⟨hcheck, _, h₁, h₂, hbody, hlen, hword⟩ := extendCellFormat_extend2 he h
  obtain ⟨hc, _, _, hports⟩ := create2_of_checkExtendCell he hcheck
  obtain ⟨s, hs, hrsa, h₄, h₆, htype, hid, hport₄, hport₆⟩ := foldlM_linkSpecifiers shouldInclude e
  have hparse : extend2CellBodyParse (e.body shouldInclude).word
      = .ok (e.body shouldInclude, []) := by
    have hreads := reads_extend2CellBody hbody (linkSpecifiers_wellFormed shouldInclude e) []
    rwa [List.append_nil] at hreads
  have hfrom : extendCellFromExtend2CellBody (e.body shouldInclude)
      = .ok { s.cell with createCell := e.createCell.cleared } := by
    have hsome : ¬(s.ipv4 = false ∧ s.ipv6 = false) := by
      rw [h₄, h₆]
      intro ⟨hf₄, hf₆⟩
      simp only [hf₄, hf₆, Bool.false_eq_true, or_self] at hports
    unfold extendCellFromExtend2CellBody
    rw [show (e.body shouldInclude).ls = linkSpecifiers shouldInclude e from rfl, hs, ok_bind,
      if_neg (by rw [hrsa]; decide), if_neg hsome,
      createCellFromCreate2CellBody_body hc h₁ h₂]
    rfl
  have hkeeps : ExtendCell.Keeps { s.cell with createCell := e.createCell.cleared } e :=
    ⟨htype.trans he.symm, hid, hport₄, hport₆, rfl⟩
  refine ⟨_, ?_, hkeeps⟩
  rw [hword, extendCellParse, if_neg (by omega), if_neg (by decide), if_pos rfl, hparse]
  show (extendCellFromExtend2CellBody _ >>= fun e => _) = _
  rw [hfrom, ok_bind, if_pos (checkExtendCell_of_keeps hkeeps hcheck)]
  rfl

/-! ### Two relays -/

/-- A handshake type that `check_create_cell` knows. -/
def Recognised (handshakeType : UInt16) : Prop :=
  handshakeType = handshakeTap ∨ handshakeType = handshakeFast ∨ handshakeType = handshakeNtor

theorem checkCreateCell_of_recognised {c : CreateCell} (h : checkCreateCell c true = true)
    (hr : Recognised c.handshakeType) : checkCreateCell c false = true := by
  unfold checkCreateCell at h ⊢
  obtain ht | ht | ht := hr
  · rw [ht] at h ⊢
    exact h
  · rw [ht] at h ⊢
    exact h
  · rw [ht] at h ⊢
    exact h

/-- Two ORPorts that are the same if one is valid. -/
def SameOrport (ap ap' : TorAddrPort) : Prop :=
  torAddrPortIsValid ap = torAddrPortIsValid ap' ∧ (torAddrPortIsValid ap' = true → ap = ap')

theorem sameOrport_carriedOrport (ap : TorAddrPort) : SameOrport (carriedOrport ap) ap :=
  ⟨torAddrPortIsValid_carriedOrport ap, fun h => if_pos h⟩

structure ExtendCell.Same (e' e : ExtendCell) : Prop where
  nodeId : e'.nodeId = e.nodeId
  orportIpv4 : SameOrport e'.orportIpv4 e.orportIpv4
  orportIpv6 : SameOrport e'.orportIpv6 e.orportIpv6
  createCell : e'.createCell.Same e.createCell

/-- **The extension is carried on**: a relay of byte order `o` parses the `EXTEND2` payload to the same
content and formats a create cell of it, and a relay of byte order `o'`, if it recognises the handshake,
parses that to the same create cell. -/
def Carries (o o' : ByteOrder) (payload : List UInt8) (e : ExtendCell) : Prop :=
  ∃ e' cell, extendCellParse relayCommandExtend2 payload = .ok e' ∧ e'.Same e ∧
    createCellFormatRelayed o e'.createCell = .ok cell ∧
    (Recognised e.createCell.handshakeType →
      ∃ c, createCellParse o' cell = .ok c ∧ c.Same e.createCell)

/-- A body that fits the relay payload leaves room for the create cell. -/
theorem ExtendCell.fits_of_body {shouldInclude : Bool} {e : ExtendCell}
    (hc : e.createCell.cellType = cellCreate2)
    (h₁ : e.createCell.handshakeLen.toNat ≤ arraySize)
    (h₂ : e.createCell.pluginListLen.toNat ≤ arraySize)
    (h : (e.body shouldInclude).word.length ≤ relayPayloadSize) : e.createCell.Fits := by
  have hhs := CreateCell.handshake_length h₁
  have hpl := CreateCell.pluginList_length h₂
  have hword : (e.body shouldInclude).create2.word.length
      = 2 + (2 + (e.createCell.handshakeLen.toNat + (2 + e.createCell.pluginListLen.toNat))) := by
    simp only [Create2CellBody.word, ExtendCell.body, u16, List.length_append, beBytes_length, hhs, hpl]
  have hoff : e.createCell.offset = 4 := by rw [CreateCell.offset, if_pos hc]
  have hsize : relayPayloadSize = 498 := rfl
  have hcell : cellPayloadSize = 509 := rfl
  rw [Extend2CellBody.word, List.length_append, List.length_append, hword] at h
  rw [CreateCell.Fits, hoff]
  omega

section
variable {shouldInclude : Bool} {e : ExtendCell} {command : UInt8} {len : UInt16}
  {payload : Bytes relayPayloadSize} (he : e.cellType = relayCommandExtend2)
  (h : extendCellFormat shouldInclude e = .ok (command, len, payload))
include he h

/-- The first relay: what it parses and what it formats. -/
theorem relay_of_format (o : ByteOrder) :
    ∃ e', extendCellParse relayCommandExtend2 (payload.val.take len.toNat) = .ok e' ∧ e'.Same e ∧
      createCellFormatRelayed o e'.createCell
        = .ok ⟨e.createCell.cleared.cellType,
            Bytes.pad cellPayloadSize (e.createCell.cleared.encoding o)⟩ ∧
      e.createCell.cleared.Fits ∧ e.createCell.cleared.Unambiguous ∧
      e.createCell.cleared.Same e.createCell ∧
      (Recognised e.createCell.handshakeType →
        checkCreateCell e.createCell.cleared false = true) := by
  obtain ⟨hcheck, _, h₁, h₂, _, hlen, _⟩ := extendCellFormat_extend2 he h
  obtain ⟨hc, hfast, hcreate, _⟩ := create2_of_checkExtendCell he hcheck
  obtain ⟨e', hparse, hkeeps⟩ := extendCellParse_extendCellFormat he h
  have hsame := CreateCell.same_cleared h₁ h₂
  have hfits : e.createCell.cleared.Fits := ExtendCell.fits_of_body hc h₁ h₂ hlen
  refine ⟨e', hparse, ⟨hkeeps.nodeId, ?_, ?_, ?_⟩, ?_, hfits, ⟨?_, fun _ => hfast⟩, hsame, ?_⟩
  · rw [hkeeps.orportIpv4]
    exact sameOrport_carriedOrport _
  · rw [hkeeps.orportIpv6]
    exact sameOrport_carriedOrport _
  · rw [hkeeps.createCell]
    exact hsame
  · rw [hkeeps.createCell]
    exact createCellFormatImpl_ok hcreate hfits
  · intro hcell
    exact absurd (hcell.symm.trans hc) (by decide)
  · intro hr
    exact checkCreateCell_of_recognised hcreate hr

/-- **When an extension is carried on unchanged.** -/
theorem carries_iff (o o' : ByteOrder) :
    Carries o o' (payload.val.take len.toNat) e ↔
      o = o' ∨ ntohs .little e.createCell.pluginListLen = e.createCell.pluginListLen ∨
        ¬Recognised e.createCell.handshakeType := by
  obtain ⟨e', hparse, hsame', hformat, hfits, hunamb, hsame, hrecognised⟩ := relay_of_format he h o
  constructor
  · intro ⟨e₁, cell, hparse₁, _, hformat₁, hnext⟩
    by_cases ho : o = o'
    · exact .inl ho
    · by_cases hr : Recognised e.createCell.handshakeType
      · cases hparse.symm.trans hparse₁
        cases hformat.symm.trans hformat₁
        obtain ⟨c, hc, hcsame⟩ := hnext hr
        have hlen := pluginListLen_of_parse (hrecognised hr) hfits hunamb hc
        rw [getUint16_setUint16_of_ne ho, hcsame.pluginListLen] at hlen
        exact .inr (.inl hlen.symm)
      · exact .inr (.inr hr)
  · intro hcond
    refine ⟨e', _, hparse, hsame', hformat, fun hr => ?_⟩
    obtain ⟨h₁, h₂⟩ := hfits.le_arraySize (hrecognised hr)
    refine ⟨e.createCell.cleared.cleared, ?_, (CreateCell.same_cleared h₁ h₂).trans hsame⟩
    have hset : setUint16 o e.createCell.pluginListLen = setUint16 o' e.createCell.pluginListLen := by
      obtain rfl | hswap | hn := hcond
      · rfl
      · exact setUint16_of_ntohs_eq hswap o o'
      · exact absurd hr hn
    rw [CreateCell.encoding_congr (c := e.createCell.cleared) hset]
    exact createCellParse_encoding (hrecognised hr) hfits hunamb

end

/-- An extension to a relay with an IPv4 and an IPv6 ORPort, with a list of three bytes. -/
def extendNtor : ExtendCell where
  cellType := relayCommandExtend2
  orportIpv4 := ⟨.inet 0x7f000001, 9001⟩
  orportIpv6 := ⟨.inet6 (Bytes.pad 16 [0x20, 0x01]), 9001⟩
  nodeId := Bytes.pad 20 [1, 2, 3]
  edPubkey := Bytes.pad 32 [4, 5, 6]
  createCell :=
    { cellType := cellCreate2
      handshakeType := handshakeNtor
      handshakeLen := ntorOnionskinLen
      onionskin := Bytes.pad arraySize [7, 8, 9]
      pluginListLen := 3
      plugins := Bytes.pad arraySize [0x61, 0x62, 0x0a] }
  isIpv4 := rfl
  isIpv6 := rfl

def extendNtorPayload : Bytes relayPayloadSize := Bytes.pad relayPayloadSize (extendNtor.body true).word

theorem extendCellFormat_extendNtor :
    extendCellFormat true extendNtor = .ok (relayCommandExtend2, 178, extendNtorPayload) := by
  decide +kernel

theorem carries_extendNtor :
    extendNtor.cellType = relayCommandExtend2 ∧
      Carries .little .little (extendNtorPayload.val.take 178) extendNtor :=
  ⟨rfl, (carries_iff rfl extendCellFormat_extendNtor .little .little).mpr (.inl rfl)⟩

/-- **Relays of different byte order**: the length that a big-endian relay formats is read as 768 by a
little-endian one, which copies from beyond the payload. -/
theorem not_carries_extendNtor :
    extendCellFormat true extendNtor = .ok (relayCommandExtend2, 178, extendNtorPayload) ∧
      Recognised extendNtor.createCell.handshakeType ∧
      ¬Carries .big .little (extendNtorPayload.val.take 178) extendNtor := by
  refine ⟨extendCellFormat_extendNtor, .inr (.inr rfl), ?_⟩
  intro ⟨e', cell, hparse, _, hformat, hnext⟩
  obtain ⟨c, hc, _⟩ := hnext (.inr (.inr rfl))
  have hfault : (extendCellParse relayCommandExtend2 (extendNtorPayload.val.take 178) >>= fun e' =>
      createCellFormatRelayed .big e'.createCell >>= createCellParse .little) = fault .read := by
    decide +kernel
  rw [hparse, ok_bind, hformat, ok_bind, hc] at hfault
  cases hfault

end TorEbpf.Or
