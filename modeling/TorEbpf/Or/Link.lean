import Mathlib
import TorEbpf.Lib.Events
import TorEbpf.Lib.Framing
import TorEbpf.Or.CreateCell

/-!
# Cells on a link

A connection between two relays carries cells: those with 509 bytes of payload, and, for the commands
from 128 on and for `VERSIONS`, those that tell the length of their payload.  Both begin with a circuit id,
which has two bytes at first and four once a link protocol from 4 on has been negotiated.  The negotiation
takes place on the link itself: each side sends a `VERSIONS` cell, and takes the highest version that both
have as soon as the one of the other side arrives.

* `pack`, `fetchVarCellFromBuf`, `nextCell` — writing a cell, and reading the first one of a buffer;
* `linkFraming` — that these fit together, whatever has been negotiated;
* `Direction`, `linkInv_of_run` — the invariant of one direction: no byte is lost and no cell waits that is
  complete;
* `handed_of_run` — what is handed up, in every state of every run.
-/

namespace TorEbpf.Or.Link

open TorEbpf.Lib

/-! ### Cells -/

/-- `cell_t` and `var_cell_t`. -/
inductive LinkCell where
  | cell (circId : UInt32) (command : UInt8) (payload : Bytes cellPayloadSize)
  | varCell (circId : UInt32) (command : UInt8) (payload : List UInt8)
  deriving DecidableEq

def cellVersions : UInt8 := 7

def minLinkProtoForWideCircIds : ℕ := 4

/-- `get_circ_id_size`. -/
def circIdSize (wideCircIds : Bool) : ℕ := if wideCircIds then 4 else 2

/-- `get_cell_network_size`. -/
def cellNetworkSize (wideCircIds : Bool) : ℕ := if wideCircIds then 514 else 514 - 2

/-- `get_var_cell_header_size`. -/
def varCellHeaderSize (wideCircIds : Bool) : ℕ := if wideCircIds then 7 else 7 - 2

/-- `cell_pack`; and `var_cell_pack_header` with the payload behind it. -/
def pack (wideCircIds : Bool) : LinkCell → List UInt8
  | .cell circId command payload => beBytes (circIdSize wideCircIds) circId.toNat ++ command :: payload.val
  | .varCell circId command payload =>
      beBytes (circIdSize wideCircIds) circId.toNat ++ command :: (beBytes 2 payload.length ++ payload)

def cellCommandIsVarLength (command : UInt8) : (linkproto : ℕ) → Bool
  | 1 => false
  | 2 => command == cellVersions
  | _ => command == cellVersions || 128 ≤ command

/-- What `fetch_var_cell_from_buf` finds: nothing of its own; the start of a cell; or a cell, and what is
left. -/
inductive Fetched where
  | notVar
  | notYet
  | found (cell : LinkCell) (rest : List UInt8)

def circIdOf (wideCircIds : Bool) (buf : List UInt8) : UInt32 :=
  UInt32.ofNat (beNat (buf.take (circIdSize wideCircIds)))

def commandOf (wideCircIds : Bool) (buf : List UInt8) : UInt8 := buf.getD (circIdSize wideCircIds) 0

def fetchVarCellFromBuf (buf : List UInt8) (linkproto : ℕ) : Fetched :=
  let wideCircIds : Bool := minLinkProtoForWideCircIds ≤ linkproto
  let headerLen := varCellHeaderSize wideCircIds
  if buf.length < headerLen then .notVar
  else
    let command := commandOf wideCircIds buf
    if cellCommandIsVarLength command linkproto then
      let length := beNat (slice buf (circIdSize wideCircIds + 1) 2)
      if buf.length < headerLen + length then .notYet
      else
        .found (.varCell (circIdOf wideCircIds buf) command (slice buf headerLen length))
          (buf.drop (headerLen + length))
    else .notVar

def cellUnpack (wideCircIds : Bool) (buf : List UInt8) : LinkCell :=
  .cell (circIdOf wideCircIds buf) (commandOf wideCircIds buf)
    (Bytes.pad cellPayloadSize (slice buf (circIdSize wideCircIds + 1) cellPayloadSize))

/-- What a connection knows of the link: `link_proto` and `wide_circ_ids`. -/
structure LinkState where
  linkProto : ℕ
  wideCircIds : Bool
  deriving DecidableEq, Repr

def LinkState.init : LinkState := ⟨0, false⟩

def LinkState.negotiated (v : ℕ) : LinkState := ⟨v, minLinkProtoForWideCircIds ≤ v⟩

/-- The next cell of the buffer, as `connection_or_process_cells_from_inbuf` takes it. -/
def nextCell (s : LinkState) (inbuf : List UInt8) : Option (LinkCell × List UInt8) :=
  match fetchVarCellFromBuf inbuf s.linkProto with
  | .notYet => none
  | .found cell rest => some (cell, rest)
  | .notVar =>
      if inbuf.length < cellNetworkSize s.wideCircIds then none
      else some (cellUnpack s.wideCircIds inbuf, inbuf.drop (cellNetworkSize s.wideCircIds))

/-! ### What is written is read -/

/-- The cell can be written: it is fixed-length with a command below 128 other than `VERSIONS`, or
variable-length, and its circuit id and its length fit. -/
def CellOk (wideCircIds : Bool) : LinkCell → Prop
  | .cell circId command _ =>
      (command < 128 ∧ command ≠ cellVersions) ∧ (wideCircIds = false → circId.toNat < 2 ^ 16)
  | .varCell circId command payload =>
      (command = cellVersions ∨ 128 ≤ command) ∧ (wideCircIds = false → circId.toNat < 2 ^ 16) ∧
        payload.length < 2 ^ 16

/-- The state is one that a connection can have: nothing is negotiated, or a version with `VERSIONS` and
variable-length cells. -/
def LinkState.Ok (s : LinkState) : Prop :=
  s.wideCircIds = decide (minLinkProtoForWideCircIds ≤ s.linkProto) ∧ s.linkProto ≠ 1 ∧ s.linkProto ≠ 2

section Reading

variable {w : Bool} {lp : ℕ} {s : LinkState} {circId : UInt32} {command : UInt8}
  {tail p q buf : List UInt8} {c : LinkCell}

theorem isVarLength_eq (h₁ : lp ≠ 1) (h₂ : lp ≠ 2) :
    cellCommandIsVarLength command lp = (command == cellVersions || 128 ≤ command) := by
  unfold cellCommandIsVarLength
  split
  · exact absurd rfl h₁
  · exact absurd rfl h₂
  · rfl

theorem beBytes_circId_length : (beBytes (circIdSize w) circId.toNat).length = circIdSize w :=
  beBytes_length _ _

theorem circIdOf_append (h : w = false → circId.toNat < 2 ^ 16) :
    circIdOf w (beBytes (circIdSize w) circId.toNat ++ tail) = circId := by
  have hlt : circId.toNat < 256 ^ circIdSize w := by
    cases w with
    | false => exact lt_of_lt_of_eq (h rfl) (by decide)
    | true => exact lt_of_lt_of_eq circId.toNat_lt (by decide)
  rw [circIdOf, List.take_left' beBytes_circId_length, beNat_beBytes hlt, UInt32.ofNat_toNat]

theorem commandOf_append : commandOf w (beBytes (circIdSize w) circId.toNat ++ command :: tail) = command := by
  rw [commandOf, List.getD_append_right _ _ _ _ (le_of_eq beBytes_circId_length), beBytes_circId_length,
    Nat.sub_self]
  rfl

/-- The command is there as soon as the circuit id and it are. -/
theorem commandOf_prefix (h : p <+: q) (hlen : circIdSize w < p.length) : commandOf w p = commandOf w q := by
  obtain ⟨r, rfl⟩ := h
  rw [commandOf, commandOf, List.getD_append _ _ _ _ hlen]

theorem commandOf_pack : commandOf w (pack w c ++ tail) =
    match c with
    | .cell _ command _ => command
    | .varCell _ command _ => command := by
  cases c with
  | cell circId command payload =>
    rw [pack, List.append_assoc]
    exact commandOf_append
  | varCell circId command payload =>
    rw [pack, List.append_assoc]
    exact commandOf_append

theorem length_pack_cell (payload : Bytes cellPayloadSize) :
    (pack w (.cell circId command payload)).length = cellNetworkSize w := by
  rw [pack, List.length_append, List.length_cons, beBytes_circId_length, payload.length_eq]
  cases w with
  | false => rfl
  | true => rfl

theorem length_pack_varCell (payload : List UInt8) :
    (pack w (.varCell circId command payload)).length = varCellHeaderSize w + payload.length := by
  rw [pack, List.length_append, List.length_cons, List.length_append, beBytes_circId_length, beBytes_length]
  cases w with
  | false => simp [circIdSize, varCellHeaderSize]; omega
  | true => simp [circIdSize, varCellHeaderSize]; omega

theorem headerSize_eq : varCellHeaderSize w = circIdSize w + 3 := by
  cases w with
  | false => rfl
  | true => rfl

theorem headerSize_lt_networkSize : varCellHeaderSize w < cellNetworkSize w := by
  cases w with
  | false => decide
  | true => decide

theorem lengthOf_pack {payload : List UInt8} (h : payload.length < 2 ^ 16) :
    beNat (slice (pack w (.varCell circId command payload) ++ tail) (circIdSize w + 1) 2) = payload.length := by
  have hslice : slice (pack w (.varCell circId command payload) ++ tail) (circIdSize w + 1) 2 =
      beBytes 2 payload.length := by
    rw [pack, show beBytes (circIdSize w) circId.toNat ++ command :: (beBytes 2 payload.length ++ payload) ++
        tail = (beBytes (circIdSize w) circId.toNat ++ [command]) ++ beBytes 2 payload.length ++
        (payload ++ tail) by simp]
    exact slice_append_mid (by simp) (by simp)
  rw [hslice, beNat_beBytes (lt_of_lt_of_eq h (by decide))]

/-- **A buffer that begins with a fixed-length cell.** -/
theorem fetch_of_cell (hs : s.Ok) (h : buf.length < varCellHeaderSize s.wideCircIds ∨
      (commandOf s.wideCircIds buf < 128 ∧ commandOf s.wideCircIds buf ≠ cellVersions)) :
    fetchVarCellFromBuf buf s.linkProto = .notVar := by
  rw [fetchVarCellFromBuf]
  dsimp only
  rw [← hs.1]
  by_cases hshort : buf.length < varCellHeaderSize s.wideCircIds
  · exact if_pos hshort
  · obtain ⟨hlow, hne⟩ := h.resolve_left hshort
    have hvar : cellCommandIsVarLength (commandOf s.wideCircIds buf) s.linkProto = false := by
      rw [isVarLength_eq hs.2.1 hs.2.2, Bool.or_eq_false_iff, decide_eq_false_iff_not, UInt8.not_le]
      exact ⟨beq_false_of_ne hne, hlow⟩
    rw [if_neg hshort, hvar]
    rfl

/-- **What is written is read.** -/
theorem nextCell_pack (hs : s.Ok) (hc : CellOk s.wideCircIds c) (rest : List UInt8) :
    nextCell s (pack s.wideCircIds c ++ rest) = some (c, rest) := by
  cases c with
  | cell circId command payload =>
    obtain ⟨hcommand, hid⟩ := hc
    have hlen := @length_pack_cell s.wideCircIds circId command payload
    have hfetch : fetchVarCellFromBuf (pack s.wideCircIds (.cell circId command payload) ++ rest) s.linkProto =
        .notVar := fetch_of_cell hs (.inr (by rw [commandOf_pack]; exact hcommand))
    have hpayload : slice (pack s.wideCircIds (.cell circId command payload) ++ rest)
        (circIdSize s.wideCircIds + 1) cellPayloadSize = payload.val := by
      rw [pack, show beBytes (circIdSize s.wideCircIds) circId.toNat ++ command :: payload.val ++ rest =
        (beBytes (circIdSize s.wideCircIds) circId.toNat ++ [command]) ++ payload.val ++ rest by simp]
      exact slice_append_mid (by simp) payload.length_eq.symm
    rw [nextCell, hfetch]
    dsimp only
    rw [if_neg (by rw [List.length_append]; omega), cellUnpack, commandOf_pack, hpayload, Bytes.pad_val,
      List.drop_left' hlen, pack, List.append_assoc, circIdOf_append hid]
  | varCell circId command payload =>
    obtain ⟨hcommand, hid, hlength⟩ := hc
    have hlen := @length_pack_varCell s.wideCircIds circId command payload
    have hvar : cellCommandIsVarLength command s.linkProto = true := by
      rw [isVarLength_eq hs.2.1 hs.2.2, Bool.or_eq_true, beq_iff_eq, decide_eq_true_eq]
      exact hcommand
    have hpayload : slice (pack s.wideCircIds (.varCell circId command payload) ++ rest)
        (varCellHeaderSize s.wideCircIds) payload.length = payload := by
      rw [pack, show beBytes (circIdSize s.wideCircIds) circId.toNat ++
          command :: (beBytes 2 payload.length ++ payload) ++ rest =
        (beBytes (circIdSize s.wideCircIds) circId.toNat ++ command :: beBytes 2 payload.length) ++ payload ++
          rest by simp]
      exact slice_append_mid (by rw [headerSize_eq]; simp) rfl
    rw [nextCell, fetchVarCellFromBuf]
    dsimp only
    rw [← hs.1, if_neg (by rw [List.length_append]; omega), commandOf_pack, if_pos hvar, lengthOf_pack hlength,
      if_neg (by rw [List.length_append]; omega), hpayload, List.drop_left' hlen]
    dsimp only
    rw [pack, List.append_assoc, circIdOf_append hid]

/-- **A cell that is not there completely** is not read. -/
theorem nextCell_short (hs : s.Ok) (hc : CellOk s.wideCircIds c) (hp : p <+: pack s.wideCircIds c)
    (hlen : p.length < (pack s.wideCircIds c).length) : nextCell s p = none := by
  have hcommand : varCellHeaderSize s.wideCircIds ≤ p.length →
      commandOf s.wideCircIds p = commandOf s.wideCircIds (pack s.wideCircIds c ++ []) := by
    intro hheader
    rw [List.append_nil]
    refine commandOf_prefix hp ?_
    rw [headerSize_eq] at hheader
    omega
  rw [commandOf_pack] at hcommand
  cases c with
  | cell circId command payload =>
    rw [length_pack_cell] at hlen
    have hfetch : fetchVarCellFromBuf p s.linkProto = .notVar := by
      refine fetch_of_cell hs ?_
      by_cases hheader : p.length < varCellHeaderSize s.wideCircIds
      · exact .inl hheader
      · rw [hcommand (not_lt.mp hheader)]
        exact .inr hc.1
    rw [nextCell, hfetch]
    exact if_pos hlen
  | varCell circId command payload =>
    rw [length_pack_varCell] at hlen
    rw [nextCell, fetchVarCellFromBuf]
    dsimp only
    rw [← hs.1]
    by_cases hheader : p.length < varCellHeaderSize s.wideCircIds
    · rw [if_pos hheader]
      exact if_pos (lt_trans hheader headerSize_lt_networkSize)
    · obtain ⟨hvar, -, hlength⟩ := hc
      have hslice : slice p (circIdSize s.wideCircIds + 1) 2 =
          slice (pack s.wideCircIds (.varCell circId command payload) ++ [])
            (circIdSize s.wideCircIds + 1) 2 := by
        obtain ⟨r, hr⟩ := hp
        rw [List.append_nil, ← hr, slice_append_of_le]
        rw [headerSize_eq] at hheader
        omega
      rw [if_neg hheader, hcommand (not_lt.mp hheader), isVarLength_eq hs.2.1 hs.2.2,
        if_pos (by simpa using hvar), hslice, lengthOf_pack hlength, if_pos hlen]

theorem nextCell_nil (s : LinkState) : nextCell s [] = none := by
  have hfetch : fetchVarCellFromBuf [] s.linkProto = .notVar := by
    rw [fetchVarCellFromBuf]
    refine if_pos ?_
    rw [headerSize_eq]
    exact Nat.succ_pos _
  rw [nextCell, hfetch]
  refine if_pos ?_
  exact lt_of_le_of_lt (Nat.zero_le _) headerSize_lt_networkSize

end Reading

/-! ### Negotiation -/

/-- The link protocols that a side knows, `or_protocol_versions`: 1 to 5 here, others in other releases. -/
structure Versions where
  val : List UInt16
  short : val.length < 2 ^ 15
  deriving DecidableEq

def orProtocolVersions : Versions := ⟨[1, 2, 3, 4, 5], by decide⟩

/-- The payload of the `VERSIONS` cell of a v3 handshake: the versions from 3 on. -/
def versionsPayload (known : Versions) : List UInt8 :=
  (known.val.filter (3 ≤ ·)).flatMap fun v => beBytes 2 v.toNat

def versionsCell (known : Versions) : LinkCell := .varCell 0 cellVersions (versionsPayload known)

def readVersions : List UInt8 → List ℕ
  | hi :: lo :: rest => beNat [hi, lo] :: readVersions rest
  | _ => []

def isOrProtocolVersionKnown (known : Versions) (v : ℕ) : Bool := known.val.any fun k => k.toNat = v

/-- The highest version that is known, of those in a payload. -/
def highestVersion (known : Versions) (payload : List UInt8) : ℕ :=
  (readVersions payload).foldl (fun h v => if isOrProtocolVersionKnown known v ∧ h < v then v else h) 0

section Negotiation

variable {known theirs : Versions} {l : List ℕ}

theorem readVersions_versionsPayload (known : Versions) :
    readVersions (versionsPayload known) = (known.val.filter (3 ≤ ·)).map UInt16.toNat := by
  rw [versionsPayload]
  generalize known.val.filter (3 ≤ ·) = l
  induction l with
  | nil => rfl
  | cons v l ih =>
    have hbytes : beBytes 2 v.toNat = [UInt8.ofNat (v.toNat / 256 % 256), UInt8.ofNat (v.toNat % 256)] := rfl
    have hvalue : beNat [UInt8.ofNat (v.toNat / 256 % 256), UInt8.ofNat (v.toNat % 256)] = v.toNat := by
      rw [← hbytes]
      exact beNat_beBytes (lt_of_lt_of_eq v.toNat_lt (by decide))
    rw [List.flatMap_cons, List.map_cons, hbytes, List.cons_append, List.cons_append, List.nil_append,
      readVersions, hvalue, ih]

theorem length_versionsPayload (known : Versions) :
    (versionsPayload known).length % 2 = 0 ∧ (versionsPayload known).length < 2 ^ 16 := by
  have hlen : (versionsPayload known).length = 2 * (known.val.filter (3 ≤ ·)).length := by
    rw [versionsPayload]
    generalize known.val.filter (3 ≤ ·) = l
    induction l with
    | nil => rfl
    | cons v l ih =>
      rw [List.flatMap_cons, List.length_append, beBytes_length, ih, List.length_cons]
      omega
  have hshort := known.short
  have hfilter := List.length_filter_le (fun v : UInt16 => decide (3 ≤ v)) known.val
  omega

/-- The highest of some numbers among those that are known. -/
theorem foldl_highest (p : ℕ → Bool) (l : List ℕ) : ∀ h,
    let r := l.foldl (fun h v => if p v ∧ h < v then v else h) h
    h ≤ r ∧ (r = h ∨ (r ∈ l ∧ p r = true)) ∧ ∀ v ∈ l, p v = true → v ≤ r := by
  induction l with
  | nil =>
    intro h
    exact ⟨le_refl h, .inl rfl, fun v hv => absurd hv List.not_mem_nil⟩
  | cons x l ih =>
    intro h
    obtain ⟨hle, hr, hmax⟩ := ih (if p x ∧ h < x then x else h)
    rw [List.foldl_cons]
    dsimp only at hle hr hmax ⊢
    split_ifs at hle hr hmax ⊢ with hx
    · refine ⟨le_trans hx.2.le hle, .inr ?_, ?_⟩
      · rcases hr with hr | ⟨hr, hp⟩
        · rw [hr]
          exact ⟨List.mem_cons_self, hx.1⟩
        · exact ⟨List.mem_cons_of_mem x hr, hp⟩
      · intro v hv hp
        rcases List.mem_cons.mp hv with rfl | hv
        · exact hle
        · exact hmax v hv hp
    · refine ⟨hle, hr.imp_right fun h => ⟨List.mem_cons_of_mem x h.1, h.2⟩, ?_⟩
      intro v hv hp
      rcases List.mem_cons.mp hv with rfl | hv
      · exact le_trans (not_lt.mp fun hlt => hx ⟨hp, hlt⟩) hle
      · exact hmax v hv hp

/-- Both sides have a version from 3 on. -/
def Common (a b : Versions) (v : ℕ) : Prop :=
  3 ≤ v ∧ (∃ k ∈ a.val, k.toNat = v) ∧ ∃ k ∈ b.val, k.toNat = v

theorem mem_readVersions {v : ℕ} :
    v ∈ readVersions (versionsPayload theirs) ∧ isOrProtocolVersionKnown known v = true ↔
      Common known theirs v := by
  rw [readVersions_versionsPayload, isOrProtocolVersionKnown, List.any_eq_true, List.mem_map]
  have hge : ∀ k : UInt16, 3 ≤ k ↔ 3 ≤ k.toNat := fun k => UInt16.le_iff_toNat_le
  constructor
  · rintro ⟨⟨k, hk, rfl⟩, k', hk', hkk⟩
    obtain ⟨hk, hle⟩ := List.mem_filter.mp hk
    exact ⟨(hge k).mp (of_decide_eq_true hle), ⟨k', hk', of_decide_eq_true hkk⟩, k, hk, rfl⟩
  · rintro ⟨hv, ⟨k', hk', hkk⟩, k, hk, rfl⟩
    exact ⟨⟨k, List.mem_filter.mpr ⟨hk, decide_eq_true ((hge k).mpr hv)⟩, rfl⟩, k', hk', decide_eq_true hkk⟩

/-- **The version that is negotiated** is the highest common one, on both sides. -/
theorem highestVersion_comm (a b : Versions) :
    highestVersion a (versionsPayload b) = highestVersion b (versionsPayload a) := by
  have hle : ∀ a b : Versions,
      highestVersion a (versionsPayload b) ≤ highestVersion b (versionsPayload a) := by
    intro a b
    obtain ⟨-, hr, -⟩ := foldl_highest (isOrProtocolVersionKnown a) (readVersions (versionsPayload b)) 0
    obtain ⟨-, -, hmax⟩ := foldl_highest (isOrProtocolVersionKnown b) (readVersions (versionsPayload a)) 0
    rcases hr with hr | hr
    · rw [highestVersion, hr]
      exact Nat.zero_le _
    · obtain ⟨h3, ha, hb⟩ := mem_readVersions.mp hr
      obtain ⟨hmem, hknown⟩ := mem_readVersions.mpr ⟨h3, hb, ha⟩
      exact hmax _ hmem hknown
  exact le_antisymm (hle a b) (hle b a)

end Negotiation

/-! ### Framing -/

def afterCell (known : Versions) (s : LinkState) : LinkCell → LinkState
  | .varCell _ command payload =>
      if command = cellVersions ∧ payload.length % 2 = 0 ∧ s.linkProto = 0 ∧ 3 ≤ highestVersion known payload
      then .negotiated (highestVersion known payload)
      else s
  | .cell .. => s

/-- **The cells on a link** as frames. -/
def linkFraming (known : Versions) : Framing LinkState LinkCell UInt8 where
  enc s c := pack s.wideCircIds c
  after s c := afterCell known s c
  ok s c := s.Ok ∧ CellOk s.wideCircIds c
  next s buf := nextCell s buf
  next_enc := fun h rest => nextCell_pack h.1 h.2 rest
  next_short := fun h hp hlen => nextCell_short h.1 h.2 hp hlen
  next_nil := nextCell_nil

/-! ### The two sides -/

/-- `or_connection_t`; also all cells that have been written, and all that have been handed up.  What is in
`outbuf` is on the way until the other side reads it. -/
structure OrConn where
  knownVersions : Versions
  startedHere : Bool
  link : LinkState
  receivedVersions : Bool
  sentVersions : Bool
  closed : Bool
  inbuf : List UInt8
  outbuf : List UInt8
  written : List LinkCell
  handed : List LinkCell
  deriving DecidableEq

/-- `connection_or_write_cell_to_buf` and `connection_or_write_var_cell_to_buf`. -/
def OrConn.writeCell (conn : OrConn) (c : LinkCell) : OrConn :=
  { conn with outbuf := conn.outbuf ++ pack conn.link.wideCircIds c, written := conn.written ++ [c] }

/-- `connection_or_send_versions`, which asserts that it has not been called before. -/
def OrConn.sendVersions (conn : OrConn) : Option OrConn :=
  if conn.sentVersions then none
  else some { conn.writeCell (versionsCell conn.knownVersions) with sentVersions := true }

/-- `channel_tls_process_versions_cell`, in a v3 handshake; the other cells that it sends can be written
afterwards. -/
def OrConn.processVersionsCell (conn : OrConn) (payload : List UInt8) : Option OrConn :=
  if payload.length % 2 = 1 then some { conn with closed := true }
  else if conn.link.linkProto ≠ 0 ∨ conn.receivedVersions then some conn
  else
    let highest := highestVersion conn.knownVersions payload
    -- no version in common, or one without a v3 handshake
    if highest < 3 then some { conn with closed := true }
    else do
      let conn := { conn with link := { conn.link with linkProto := highest }, receivedVersions := true }
      let conn ← if conn.startedHere then some conn else conn.sendVersions
      -- this is set after the cell has been sent
      some { conn with link := { conn.link with wideCircIds := minLinkProtoForWideCircIds ≤ highest } }

/-- `channel_tls_handle_cell` and `channel_tls_handle_var_cell`. -/
def OrConn.handleCell (conn : OrConn) (c : LinkCell) : Option OrConn :=
  let conn := { conn with handed := conn.handed ++ [c] }
  match c with
  | .cell .. => some conn
  | .varCell _ command payload =>
      if conn.closed = false ∧ command = cellVersions then conn.processVersionsCell payload else some conn

/-- `connection_or_process_cells_from_inbuf`; there are not more cells than bytes. -/
def OrConn.processCells : ℕ → OrConn → Option OrConn
  | 0, conn => some conn
  | n + 1, conn =>
      match nextCell conn.link conn.inbuf with
      | none => some conn
      | some (c, rest) => OrConn.handleCell { conn with inbuf := rest } c >>= OrConn.processCells n

def OrConn.read (conn : OrConn) (bytes : List UInt8) : Option OrConn :=
  OrConn.processCells (conn.inbuf ++ bytes).length { conn with inbuf := conn.inbuf ++ bytes }

/-- The side that has opened the connection starts the negotiation; a side that has negotiated writes a cell;
or a side reads some of what is on the way. -/
inductive LinkEvent where
  | start (side : Bool)
  | write (side : Bool) (c : LinkCell)
  | read (side : Bool) (n : ℕ)

/-- The two sides with new values for one side and for the other. -/
def setSides (side : Bool) (this other : OrConn) : Bool → OrConn := fun i => if i = side then this else other

/-- Any cell that a side may write after the negotiation. -/
def Writable (wideCircIds : Bool) (c : LinkCell) : Prop :=
  CellOk wideCircIds c ∧ ∀ circId payload, c ≠ .varCell circId cellVersions payload

inductive LinkStep : (Bool → OrConn) → LinkEvent → (Bool → OrConn) → Prop where
  | start {s : Bool → OrConn} {side : Bool} {conn : OrConn} (hstarted : (s side).startedHere = true)
      (hsend : (s side).sendVersions = some conn) :
      LinkStep s (.start side) (setSides side conn (s !side))
  | write {s : Bool → OrConn} {side : Bool} {c : LinkCell} (hreceived : (s side).receivedVersions = true)
      (hc : Writable (s side).link.wideCircIds c) :
      LinkStep s (.write side c) (setSides side ((s side).writeCell c) (s !side))
  | read {s : Bool → OrConn} {side : Bool} {n : ℕ} {conn : OrConn}
      (hread : (s side).read ((s !side).outbuf.take n) = some conn) :
      LinkStep s (.read side n) (setSides side conn { s !side with outbuf := (s !side).outbuf.drop n })

/-- At the start: the side `true` has opened the connection. -/
def initialSides (known : Bool → Versions) : Bool → OrConn := fun side =>
  ⟨known side, side, .init, false, false, false, [], [], [], []⟩

/-! ### One read -/

/-- What a side is after its peer's `VERSIONS` cell has been handled. -/
def OrConn.negotiated (conn : OrConn) (v : ℕ) : OrConn :=
  { (if conn.startedHere then conn
      else { conn.writeCell (versionsCell conn.knownVersions) with sentVersions := true }) with
    link := .negotiated v, receivedVersions := true }

/-- The cell is no `VERSIONS` cell. -/
def NotVersions (c : LinkCell) : Prop := ∀ circId payload, c ≠ .varCell circId cellVersions payload

section Read

variable {conn : OrConn} {known theirs : Versions} {c : LinkCell} {v : ℕ} {s : LinkState}
  {cells : List LinkCell}

theorem linkState_init_ok : LinkState.init.Ok := ⟨rfl, by decide, by decide⟩

theorem linkState_negotiated_ok (h : 3 ≤ v) : (LinkState.negotiated v).Ok :=
  ⟨rfl, show v ≠ 1 by omega, show v ≠ 2 by omega⟩

theorem afterCell_of_notVersions (h : NotVersions c) : afterCell known s c = s := by
  cases c with
  | cell => rfl
  | varCell circId command payload =>
    refine if_neg fun hv => ?_
    exact h circId payload (by rw [hv.1])

theorem afterAll_of_notVersions (h : ∀ c ∈ cells, NotVersions c) :
    (linkFraming known).afterAll s cells = s := by
  induction cells with
  | nil => rfl
  | cons c cells ih =>
    rw [Framing.afterAll]
    show (linkFraming known).afterAll (afterCell known s c) cells = s
    rw [afterCell_of_notVersions (h c List.mem_cons_self)]
    exact ih fun c hc => h c (List.mem_cons_of_mem _ hc)

/-- A cell that is no `VERSIONS` cell is only handed up. -/
theorem handleCell_of_notVersions (h : NotVersions c) :
    conn.handleCell c = some { conn with handed := conn.handed ++ [c] } := by
  cases c with
  | cell => rfl
  | varCell circId command payload =>
    refine if_neg fun hv => ?_
    exact h circId payload (by rw [hv.2])

/-- **The loop over cells without `VERSIONS`** hands them up. -/
theorem processCells_of_notVersions : ∀ {n conn},
    (∀ c ∈ ((linkFraming known).drain n conn.link conn.inbuf).1, NotVersions c) →
      OrConn.processCells n conn = some
        { conn with
          handed := conn.handed ++ ((linkFraming known).drain n conn.link conn.inbuf).1
          inbuf := ((linkFraming known).drain n conn.link conn.inbuf).2.2 } := by
  intro n
  induction n with
  | zero =>
    intro conn _
    rw [OrConn.processCells, Framing.drain, List.append_nil]
  | succ n ih =>
    intro conn h
    rw [OrConn.processCells]
    cases hnext : nextCell conn.link conn.inbuf with
    | none =>
      have hdrain : (linkFraming known).drain (n + 1) conn.link conn.inbuf = ([], conn.link, conn.inbuf) :=
        Framing.drain_of_none hnext
      rw [hdrain, List.append_nil]
    | some r =>
      obtain ⟨c, rest⟩ := r
      have hdrain := @Framing.drain_of_some _ _ _ (linkFraming known) conn.link c n conn.inbuf rest hnext
      rw [hdrain] at h ⊢
      have hc := h c List.mem_cons_self
      have hafter : (linkFraming known).after conn.link c = conn.link := afterCell_of_notVersions hc
      rw [hafter] at h ⊢
      dsimp only
      rw [handleCell_of_notVersions hc, Option.bind_eq_bind, Option.bind_some,
        ih fun c' hc' => h c' (List.mem_cons_of_mem c hc'), List.append_assoc]
      rfl

/-- **The `VERSIONS` cell** of the other side is handled, and a `VERSIONS` cell is sent if none has been. -/
theorem handleCell_versions (hclosed : conn.closed = false) (hlink : conn.link = .init)
    (hreceived : conn.receivedVersions = false) (hsent : conn.startedHere = false → conn.sentVersions = false)
    (hv : highestVersion conn.knownVersions (versionsPayload known) = v) (h3 : 3 ≤ v) :
    conn.handleCell (versionsCell known) =
      some (OrConn.negotiated { conn with handed := conn.handed ++ [versionsCell known] } v) := by
  have hodd := (length_versionsPayload known).1
  have hfresh : ¬(conn.link.linkProto ≠ 0 ∨ conn.receivedVersions = true) := by
    rw [hlink, hreceived]
    decide
  unfold OrConn.handleCell versionsCell
  dsimp only
  rw [if_pos ⟨hclosed, rfl⟩, OrConn.processVersionsCell, if_neg (by omega), if_neg (by exact hfresh)]
  dsimp only
  rw [hv, if_neg (by omega)]
  cases hstarted : conn.startedHere with
  | true => simp [OrConn.negotiated, LinkState.negotiated]
  | false =>
    simp [OrConn.negotiated, OrConn.sendVersions, OrConn.writeCell, LinkState.negotiated, hsent hstarted]

theorem negotiated_with {inbuf : List UInt8} {handed : List LinkCell} :
    OrConn.negotiated { conn with inbuf := inbuf, handed := handed } v =
      { conn.negotiated v with inbuf := inbuf, handed := handed } := by
  unfold OrConn.negotiated
  dsimp only
  split_ifs
  · rfl
  · rfl

theorem afterCell_versions (hv : highestVersion known (versionsPayload theirs) = v) (h3 : 3 ≤ v) :
    afterCell known .init (versionsCell theirs) = .negotiated v := by
  have heven := (length_versionsPayload theirs).1
  rw [← hv] at h3 ⊢
  exact if_pos ⟨rfl, heven, rfl, h3⟩

/-- **A read after the negotiation** hands up the cells that are complete. -/
theorem read_negotiated {bytes : List UInt8} (hok : (linkFraming known).OkAll conn.link cells)
    (hcells : ∀ c ∈ cells, NotVersions c)
    (hbytes : conn.inbuf ++ bytes <+: (linkFraming known).encAll conn.link cells) :
    ∃ done rem rest, cells = done ++ rem ∧
      conn.inbuf ++ bytes = (linkFraming known).encAll conn.link done ++ rest ∧
      conn.read bytes = some { conn with handed := conn.handed ++ done, inbuf := rest } ∧
      (linkFraming known).Unfinished conn.link rest rem := by
  obtain ⟨done, rem, rest, rfl, hsplit, hdrain, hrest⟩ := Framing.drain_eq hok hbytes le_rfl
  have hdone : ∀ c ∈ done, NotVersions c := fun c hc => hcells c (List.mem_append_left _ hc)
  have hrun := @processCells_of_notVersions known (conn.inbuf ++ bytes).length
    { conn with inbuf := conn.inbuf ++ bytes }
  dsimp only at hrun
  rw [hdrain] at hrun
  rw [afterAll_of_notVersions hdone] at hrest
  exact ⟨done, rem, rest, rfl, hsplit, hrun hdone, hrest⟩

/-- **A read before the negotiation** hands up nothing, or the `VERSIONS` cell and the cells behind it that
are complete. -/
theorem read_init {bytes : List UInt8} (hlink : conn.link = .init) (hclosed : conn.closed = false)
    (hreceived : conn.receivedVersions = false) (hsent : conn.startedHere = false → conn.sentVersions = false)
    (hv : highestVersion conn.knownVersions (versionsPayload theirs) = v) (h3 : 3 ≤ v)
    (hok : (linkFraming conn.knownVersions).OkAll .init (versionsCell theirs :: cells))
    (hcells : ∀ c ∈ cells, NotVersions c)
    (hbytes : conn.inbuf ++ bytes <+:
      (linkFraming conn.knownVersions).encAll .init (versionsCell theirs :: cells)) :
    (conn.read bytes = some { conn with inbuf := conn.inbuf ++ bytes } ∧
      (linkFraming conn.knownVersions).Unfinished .init (conn.inbuf ++ bytes) (versionsCell theirs :: cells)) ∨
    ∃ done rem rest, cells = done ++ rem ∧
      conn.inbuf ++ bytes =
        pack false (versionsCell theirs) ++
          ((linkFraming conn.knownVersions).encAll (.negotiated v) done ++ rest) ∧
      conn.read bytes = some { conn.negotiated v with
        handed := conn.handed ++ versionsCell theirs :: done
        inbuf := rest } ∧
      (linkFraming conn.knownVersions).Unfinished (.negotiated v) rest rem := by
  have hafter : (linkFraming conn.knownVersions).after .init (versionsCell theirs) = .negotiated v :=
    afterCell_versions hv h3
  obtain ⟨done, rem, rest, hdone, hsplit, hdrain, hrest⟩ := Framing.drain_eq hok hbytes le_rfl
  rw [← hlink] at hdrain
  cases done with
  | nil =>
    left
    rw [Framing.encAll, List.nil_append] at hsplit
    have hrun := @processCells_of_notVersions conn.knownVersions (conn.inbuf ++ bytes).length
      { conn with inbuf := conn.inbuf ++ bytes }
    dsimp only at hrun
    rw [hdrain, ← hsplit, List.append_nil] at hrun
    rw [List.nil_append] at hdone
    rw [← hsplit, ← hdone] at hrest
    exact ⟨hrun fun c hc => absurd hc List.not_mem_nil, hrest⟩
  | cons c done =>
    right
    rw [List.cons_append, List.cons.injEq] at hdone
    obtain ⟨rfl, rfl⟩ := hdone
    rw [Framing.encAll, hafter, List.append_assoc] at hsplit
    rw [Framing.afterAll, hafter] at hrest
    have hnext := (linkFraming conn.knownVersions).next_enc hok.1
      ((linkFraming conn.knownVersions).encAll (.negotiated v) done ++ rest)
    obtain ⟨n, hn⟩ : ∃ n, (conn.inbuf ++ bytes).length = n + 1 := by
      have hpos := List.length_pos_iff.mpr (Framing.enc_ne_nil hok.1)
      refine Nat.exists_eq_succ_of_ne_zero (Nat.pos_iff_ne_zero.mp ?_)
      rw [hsplit, List.length_append]
      exact Nat.add_pos_left hpos _
    rw [← hsplit, ← hlink] at hnext
    rw [hn, Framing.drain_of_some hnext, hlink, hafter] at hdrain
    obtain ⟨hcons, hstate⟩ := Prod.mk.inj hdrain
    have hframes := (List.cons.inj hcons).2
    have hdone' : ∀ c ∈ done, NotVersions c := fun c hc => hcells c (List.mem_append_left _ hc)
    refine ⟨done, rem, rest, rfl, hsplit, ?_, ?_⟩
    · have hnext' : nextCell conn.link (conn.inbuf ++ bytes) = some (versionsCell theirs, _) := hnext
      rw [OrConn.read, hn, OrConn.processCells]
      dsimp only
      rw [hnext']
      dsimp only
      rw [handleCell_versions (by exact hclosed) (by exact hlink) (by exact hreceived) (by exact hsent)
        (by exact hv) h3, Option.bind_eq_bind, Option.bind_some]
      rw [@negotiated_with conn v _ _]
      have hrun := @processCells_of_notVersions conn.knownVersions n
        { conn.negotiated v with
          inbuf := (linkFraming conn.knownVersions).encAll (.negotiated v) done ++ rest
          handed := conn.handed ++ [versionsCell theirs] }
      have hrest' : ((linkFraming conn.knownVersions).drain n (.negotiated v)
          ((linkFraming conn.knownVersions).encAll (.negotiated v) done ++ rest)).2.2 = rest :=
        congrArg Prod.snd hstate
      change _ → _ = some { conn.negotiated v with
        handed := (conn.handed ++ [versionsCell theirs]) ++ ((linkFraming conn.knownVersions).drain n
          (.negotiated v) ((linkFraming conn.knownVersions).encAll (.negotiated v) done ++ rest)).1
        inbuf := ((linkFraming conn.knownVersions).drain n
          (.negotiated v) ((linkFraming conn.knownVersions).encAll (.negotiated v) done ++ rest)).2.2 } at hrun
      rw [hframes, hrest', List.append_assoc, List.singleton_append] at hrun
      refine hrun fun c hc => hdone' c ?_
      rwa [← hframes]
    · rwa [afterAll_of_notVersions hdone'] at hrest

end Read

/-! ### The invariant of one direction -/

/-- From the sender `S` to the receiver `R`: what the receiver knows of the link is what the `VERSIONS` cell
has told it, if that has been handed up; the sender's first cell is its `VERSIONS` cell; and the bytes in the
receiver's buffer and on the way are those of the cells that have not been handed up, of which the first is
not complete. -/
structure Direction (v : ℕ) (S R : OrConn) : Prop where
  link : R.link = if R.handed = [] then .init else .negotiated v
  received : R.receivedVersions = true ↔ R.handed ≠ []
  closed : R.closed = false
  sent : S.sentVersions = true ↔ S.written ≠ []
  wrote : S.receivedVersions = true → S.written ≠ []
  quiet : S.startedHere = false → S.receivedVersions = false → S.written = []
  roles : S.startedHere = !R.startedHere
  first : S.written = [] ∨
    ∃ cells, S.written = versionsCell S.knownVersions :: cells ∧ ∀ c ∈ cells, NotVersions c
  ok : (linkFraming R.knownVersions).OkAll .init S.written
  stream : ∃ rem, S.written = R.handed ++ rem ∧
    (linkFraming R.knownVersions).encAll R.link rem = R.inbuf ++ S.outbuf ∧
    (linkFraming R.knownVersions).Unfinished R.link R.inbuf rem
  common : highestVersion R.knownVersions (versionsPayload S.knownVersions) = v

/-- What a direction needs of the sender. -/
def OrConn.asSender (conn : OrConn) : Versions × Bool × Bool × Bool × List UInt8 × List LinkCell :=
  (conn.knownVersions, conn.startedHere, conn.receivedVersions, conn.sentVersions, conn.outbuf, conn.written)

def OrConn.asReceiver (conn : OrConn) :
    Versions × Bool × LinkState × Bool × Bool × List UInt8 × List LinkCell :=
  (conn.knownVersions, conn.startedHere, conn.link, conn.receivedVersions, conn.closed, conn.inbuf, conn.handed)

section Directions

variable {v : ℕ} {S S' R R' : OrConn} {c : LinkCell} {rem : List LinkCell}

/-- What the sides do in the other direction does not matter. -/
theorem Direction.of_eq (h : Direction v S R) (hS : S'.asSender = S.asSender)
    (hR : R'.asReceiver = R.asReceiver) : Direction v S' R' := by
  cases S
  cases S'
  cases R
  cases R'
  simp only [OrConn.asSender, Prod.mk.injEq] at hS
  simp only [OrConn.asReceiver, Prod.mk.injEq] at hR
  obtain ⟨rfl, rfl, rfl, rfl, rfl, rfl⟩ := hS
  obtain ⟨rfl, rfl, rfl, rfl, rfl, rfl, rfl⟩ := hR
  exact ⟨h.link, h.received, h.closed, h.sent, h.wrote, h.quiet, h.roles, h.first, h.ok, h.stream, h.common⟩

/-- The cells behind the `VERSIONS` cell are all of another kind. -/
theorem Direction.after (h : Direction v S R) (h3 : 3 ≤ v) (hne : S.written ≠ []) :
    (linkFraming R.knownVersions).afterAll .init S.written = .negotiated v := by
  obtain ⟨cells, hcells, hnot⟩ := h.first.resolve_left hne
  rw [hcells, Framing.afterAll]
  show (linkFraming R.knownVersions).afterAll (afterCell R.knownVersions .init (versionsCell S.knownVersions))
    cells = _
  rw [afterCell_versions h.common h3, afterAll_of_notVersions hnot]

theorem Direction.after_handed (h : Direction v S R) (h3 : 3 ≤ v) :
    (linkFraming R.knownVersions).afterAll .init R.handed = R.link := by
  obtain ⟨rem, hrem, -⟩ := h.stream
  rw [h.link]
  split_ifs with hnil
  · rw [hnil]
    rfl
  · obtain ⟨c, handed, hhanded⟩ := List.exists_cons_of_ne_nil hnil
    have hne : S.written ≠ [] := by
      rw [hrem, hhanded]
      exact List.cons_ne_nil _ _
    obtain ⟨cells, hcells, hnot⟩ := h.first.resolve_left hne
    rw [hrem, hhanded, List.cons_append, List.cons.injEq] at hcells
    obtain ⟨rfl, rfl⟩ := hcells
    rw [hhanded, Framing.afterAll]
    show (linkFraming R.knownVersions).afterAll (afterCell R.knownVersions .init (versionsCell S.knownVersions))
      handed = _
    rw [afterCell_versions h.common h3]
    exact afterAll_of_notVersions fun c hc => hnot c (List.mem_append_left _ hc)

theorem Direction.ok_rem (h : Direction v S R) (h3 : 3 ≤ v) (hrem : S.written = R.handed ++ rem) :
    (linkFraming R.knownVersions).OkAll R.link rem := by
  have hok := h.ok
  rw [hrem, Framing.okAll_append, h.after_handed h3] at hok
  exact hok.2

/-- **A cell is written.** -/
theorem Direction.write (h : Direction v S R) (h3 : 3 ≤ v) (hlink : S.link = .negotiated v)
    (hreceived : S.receivedVersions = true) (hc : Writable S.link.wideCircIds c) :
    Direction v (S.writeCell c) R := by
  have hne := h.wrote hreceived
  obtain ⟨cells, hcells, hnot⟩ := h.first.resolve_left hne
  obtain ⟨rem, hrem, hbytes, hunfinished⟩ := h.stream
  have hafter : (linkFraming R.knownVersions).afterAll R.link rem = .negotiated v := by
    rw [← h.after_handed h3, ← Framing.afterAll_append, ← hrem]
    exact h.after h3 hne
  rw [hlink] at hc
  have hokc : (linkFraming R.knownVersions).ok (.negotiated v) c := ⟨linkState_negotiated_ok h3, hc.1⟩
  have hwritten : S.written ++ [c] ≠ [] := List.append_ne_nil_of_left_ne_nil hne _
  exact
    { link := h.link
      received := h.received
      closed := h.closed
      sent := ⟨fun _ => hwritten, fun _ => h.sent.mpr hne⟩
      wrote := fun _ => hwritten
      quiet := fun _ hno => by
        rw [show S.receivedVersions = false from hno] at hreceived
        cases hreceived
      roles := h.roles
      first := .inr ⟨cells ++ [c], by
        show S.written ++ [c] = _
        rw [hcells]
        rfl, fun c' hc' => by
        rcases List.mem_append.mp hc' with hc' | hc'
        · exact hnot c' hc'
        · rw [List.mem_singleton.mp hc']
          exact hc.2⟩
      ok := by
        show (linkFraming R.knownVersions).OkAll .init (S.written ++ [c])
        rw [Framing.okAll_append, h.after h3 hne]
        exact ⟨h.ok, hokc, trivial⟩
      stream := by
        refine ⟨rem ++ [c], ?_, ?_, hunfinished.append (by rw [hafter]; exact hokc)⟩
        · show S.written ++ [c] = _
          rw [hrem, List.append_assoc]
        · rw [Framing.encAll_append, hafter, hbytes, Framing.encAll, Framing.encAll, List.append_nil]
          show _ = R.inbuf ++ (S.outbuf ++ pack S.link.wideCircIds c)
          rw [hlink, List.append_assoc]
          rfl
      common := h.common }

/-- **The `VERSIONS` cell is sent.** -/
theorem Direction.sendVersions (h : Direction v S R) (received : Bool) (hlink : S.link = .init)
    (hno : S.written = []) (hlegal : S.startedHere = true ∨ received = true) :
    Direction v { S.writeCell (versionsCell S.knownVersions) with
      sentVersions := true
      receivedVersions := received } R := by
  obtain ⟨rem, hrem, hbytes, hunfinished⟩ := h.stream
  rw [hno] at hrem
  obtain ⟨hhanded, rfl⟩ := List.append_eq_nil_iff.mp hrem.symm
  rw [Framing.encAll] at hbytes
  obtain ⟨hin, hout⟩ := List.append_eq_nil_iff.mp hbytes.symm
  have hRlink := h.link
  rw [if_pos hhanded] at hRlink
  have hok : (linkFraming R.knownVersions).ok .init (versionsCell S.knownVersions) :=
    ⟨linkState_init_ok, .inl rfl, fun _ => by decide, (length_versionsPayload _).2⟩
  have hwritten : S.written ++ [versionsCell S.knownVersions] = [versionsCell S.knownVersions] := by
    rw [hno]
    rfl
  exact
    { link := h.link
      received := h.received
      closed := h.closed
      sent := ⟨fun _ => List.append_ne_nil_of_right_ne_nil _ (List.cons_ne_nil _ _), fun _ => rfl⟩
      wrote := fun _ => List.append_ne_nil_of_right_ne_nil _ (List.cons_ne_nil _ _)
      quiet := fun hstarted hnone => by
        rcases hlegal with hlegal | hlegal
        · rw [show S.startedHere = false from hstarted] at hlegal
          cases hlegal
        · rw [show received = false from hnone] at hlegal
          cases hlegal
      roles := h.roles
      first := .inr ⟨[], hwritten, fun c hc => absurd hc List.not_mem_nil⟩
      ok := by
        show (linkFraming R.knownVersions).OkAll .init (S.written ++ [versionsCell S.knownVersions])
        rw [hwritten]
        exact ⟨hok, trivial⟩
      stream := by
        refine ⟨[versionsCell S.knownVersions], ?_, ?_, ?_⟩
        · show S.written ++ [versionsCell S.knownVersions] = _
          rw [hwritten, hhanded]
          rfl
        · rw [hRlink, Framing.encAll, Framing.encAll, List.append_nil]
          show _ = R.inbuf ++ (S.outbuf ++ pack S.link.wideCircIds (versionsCell S.knownVersions))
          rw [hlink, hin, hout]
          rfl
        · rw [hRlink, hin]
          exact ⟨List.nil_prefix, List.length_pos_iff.mpr (Framing.enc_ne_nil hok)⟩
      common := h.common }

/-- What the sender has on the way, and what the receiver has not handed up. -/
theorem Direction.prefixOf (h : Direction v S R) (h3 : 3 ≤ v) (n : ℕ) :
    ∃ rem, S.written = R.handed ++ rem ∧ (linkFraming R.knownVersions).OkAll R.link rem ∧
      R.inbuf ++ S.outbuf.take n <+: (linkFraming R.knownVersions).encAll R.link rem := by
  obtain ⟨rem, hrem, hbytes, -⟩ := h.stream
  refine ⟨rem, hrem, h.ok_rem h3 hrem, ?_⟩
  rw [hbytes, List.prefix_append_right_inj]
  exact List.take_prefix n S.outbuf

theorem Direction.all_handed (h : Direction v S R) (hout : S.outbuf = []) : R.handed = S.written := by
  obtain ⟨rem, hrem, hbytes, hunfinished⟩ := h.stream
  rw [hout, List.append_nil] at hbytes
  cases rem with
  | nil => rw [hrem, List.append_nil]
  | cons c rem =>
    have hlt := hunfinished.2
    rw [← hbytes, Framing.encAll, List.length_append] at hlt
    exact absurd hlt (by omega)

/-- **Cells are handed up** without a change of what the receiver knows. -/
theorem Direction.hand {n : ℕ} {done : List LinkCell} {rest : List UInt8} (h : Direction v S R)
    (hcells : S.written = R.handed ++ (done ++ rem)) (hnil : R.handed ++ done = [] ↔ R.handed = [])
    (hafter : (linkFraming R.knownVersions).afterAll R.link done = R.link)
    (hsplit : R.inbuf ++ S.outbuf.take n = (linkFraming R.knownVersions).encAll R.link done ++ rest)
    (hrest : (linkFraming R.knownVersions).Unfinished R.link rest rem) :
    Direction v { S with outbuf := S.outbuf.drop n } { R with handed := R.handed ++ done, inbuf := rest } := by
  obtain ⟨rem', hrem', hbytes, -⟩ := h.stream
  obtain rfl : rem' = done ++ rem := List.append_cancel_left (hrem'.symm.trans hcells)
  exact
    { link := by
        show R.link = if R.handed ++ done = [] then .init else .negotiated v
        simp only [hnil]
        exact h.link
      received := h.received.trans (not_congr hnil).symm
      closed := h.closed
      sent := h.sent
      wrote := h.wrote
      quiet := h.quiet
      roles := h.roles
      first := h.first
      ok := h.ok
      stream := by
        refine ⟨rem, hcells.trans (List.append_assoc _ _ _).symm, ?_, hrest⟩
        show (linkFraming R.knownVersions).encAll R.link rem = rest ++ S.outbuf.drop n
        rw [← List.take_append_drop n S.outbuf, ← List.append_assoc, hsplit, Framing.encAll_append, hafter,
          List.append_assoc] at hbytes
        exact List.append_cancel_left hbytes
      common := h.common }

/-- **The `VERSIONS` cell is handed up**, and the cells behind it. -/
theorem Direction.negotiate {n : ℕ} {done : List LinkCell} {rest : List UInt8} (h : Direction v S R)
    (h3 : 3 ≤ v) (hhanded : R.handed = [])
    (hcells : S.written = versionsCell S.knownVersions :: (done ++ rem))
    (hsplit : R.inbuf ++ S.outbuf.take n = pack false (versionsCell S.knownVersions) ++
      ((linkFraming R.knownVersions).encAll (.negotiated v) done ++ rest))
    (hafter : (linkFraming R.knownVersions).afterAll (.negotiated v) done = .negotiated v)
    (hrest : (linkFraming R.knownVersions).Unfinished (.negotiated v) rest rem) :
    Direction v { S with outbuf := S.outbuf.drop n }
      { R.negotiated v with handed := R.handed ++ versionsCell S.knownVersions :: done, inbuf := rest } := by
  obtain ⟨rem', hrem', hbytes, -⟩ := h.stream
  have hRlink := h.link
  rw [if_pos hhanded] at hRlink
  rw [hhanded, List.nil_append, hcells] at hrem'
  subst hrem'
  have hne : R.handed ++ versionsCell S.knownVersions :: done ≠ [] :=
    List.append_ne_nil_of_right_ne_nil _ (List.cons_ne_nil _ _)
  have hknown : (R.negotiated v).knownVersions = R.knownVersions := by
    unfold OrConn.negotiated
    split_ifs
    · rfl
    · rfl
  have hstarted : (R.negotiated v).startedHere = R.startedHere := by
    unfold OrConn.negotiated
    split_ifs
    · rfl
    · rfl
  have hclosed : (R.negotiated v).closed = R.closed := by
    unfold OrConn.negotiated
    split_ifs
    · rfl
    · rfl
  exact
    { link := (if_neg hne).symm
      received := ⟨fun _ => hne, fun _ => rfl⟩
      closed := hclosed.trans h.closed
      sent := h.sent
      wrote := h.wrote
      quiet := h.quiet
      roles := by
        show S.startedHere = !(R.negotiated v).startedHere
        rw [hstarted]
        exact h.roles
      first := h.first
      ok := by
        show (linkFraming (R.negotiated v).knownVersions).OkAll .init S.written
        rw [hknown]
        exact h.ok
      stream := by
        refine ⟨rem, ?_, ?_, ?_⟩
        · show S.written = (R.handed ++ versionsCell S.knownVersions :: done) ++ rem
          rw [hhanded, hcells]
          rfl
        · show (linkFraming (R.negotiated v).knownVersions).encAll (.negotiated v) rem = rest ++ S.outbuf.drop n
          rw [hknown]
          rw [← List.take_append_drop n S.outbuf, ← List.append_assoc, hsplit, hRlink, Framing.encAll] at hbytes
          rw [List.append_assoc] at hbytes
          have hbytes := List.append_cancel_left hbytes
          rw [show (linkFraming R.knownVersions).after .init (versionsCell S.knownVersions) = .negotiated v from
            afterCell_versions h.common h3, Framing.encAll_append, hafter, List.append_assoc] at hbytes
          exact List.append_cancel_left hbytes
        · show (linkFraming (R.negotiated v).knownVersions).Unfinished (.negotiated v) rest rem
          rw [hknown]
          exact hrest
      common := by
        show highestVersion (R.negotiated v).knownVersions (versionsPayload S.knownVersions) = v
        rw [hknown]
        exact h.common }

end Directions

/-! ### Runs -/

/-- The invariant: both directions. -/
def LinkInv (v : ℕ) (s : Bool → OrConn) : Prop := ∀ side, Direction v (s side) (s !side)

section Runs

variable {v : ℕ} {s s' : Bool → OrConn} {side : Bool} {e : LinkEvent} {this other : OrConn}
  {known : Bool → Versions}

theorem linkInv_setSides (hthis : Direction v this other) (hother : Direction v other this) :
    LinkInv v (setSides side this other) := by
  intro i
  unfold setSides
  by_cases hi : i = side
  · rw [if_pos hi, if_neg (by rw [hi]; exact Bool.not_ne_self side)]
    exact hthis
  · rw [if_neg hi, if_pos (Bool.not_eq.mpr hi)]
    exact hother

theorem LinkInv.from (h : LinkInv v s) (side : Bool) : Direction v (s !side) (s side) := by
  have hother := h !side
  rwa [Bool.not_not] at hother

theorem linkInv_initialSides (hv : highestVersion (known true) (versionsPayload (known false)) = v) :
    LinkInv v (initialSides known) := by
  intro side
  have hcommon : highestVersion (known !side) (versionsPayload (known side)) = v := by
    cases side with
    | false => exact hv
    | true => rwa [highestVersion_comm]
  exact
    { link := rfl
      received := ⟨nofun, fun h => absurd rfl h⟩
      closed := rfl
      sent := ⟨nofun, fun h => absurd rfl h⟩
      wrote := nofun
      quiet := fun _ _ => rfl
      roles := (Bool.not_not side).symm
      first := .inl rfl
      ok := trivial
      stream := ⟨[], rfl, rfl, rfl⟩
      common := hcommon }

/-- A side that has not sent `VERSIONS` has not negotiated anything. -/
theorem LinkInv.link_init (h : LinkInv v s) (hsent : (s side).sentVersions = false) :
    (s side).link = .init := by
  have hno : (s side).receivedVersions ≠ true := by
    intro hreceived
    rw [(h side).sent.mpr ((h side).wrote hreceived)] at hsent
    cases hsent
  rw [(h.from side).link, if_pos (not_not.mp fun hne => hno ((h.from side).received.mpr hne))]

theorem LinkInv.link_negotiated (h : LinkInv v s) (hreceived : (s side).receivedVersions = true) :
    (s side).link = .negotiated v := by
  rw [(h.from side).link, if_neg ((h.from side).received.mp hreceived)]

/-- The other side answers: if it has written anything, the side that has opened the connection has too. -/
theorem LinkInv.written_of_peer (h : LinkInv v s) (hstarted : (s side).startedHere = true)
    (hpeer : (s !side).written ≠ []) : (s side).written ≠ [] := by
  have hother : (s !side).startedHere = false := by
    rw [(h.from side).roles, hstarted]
    rfl
  have hreceived : (s !side).receivedVersions = true := by
    by_contra hno
    exact hpeer ((h.from side).quiet hother (Bool.eq_false_iff.mpr hno))
  obtain ⟨rem, hrem, -⟩ := (h side).stream
  rw [hrem]
  exact List.append_ne_nil_of_left_ne_nil ((h side).received.mp hreceived) _

/-- **A read** fails no assertion, and both directions go on. -/
theorem LinkInv.read (h : LinkInv v s) (h3 : 3 ≤ v) (side : Bool) (n : ℕ) :
    ∃ conn, (s side).read ((s !side).outbuf.take n) = some conn ∧
      LinkInv v (setSides side conn { s !side with outbuf := (s !side).outbuf.drop n }) := by
  obtain ⟨rem, hrem, hok, hprefix⟩ := (h.from side).prefixOf h3 n
  have hback := h side
  by_cases hnot : ∀ c ∈ rem, NotVersions c
  · obtain ⟨done, rem', rest, rfl, hsplit, hread, hrest⟩ := read_negotiated hok hnot hprefix
    have hdone : ∀ c ∈ done, NotVersions c := fun c hc => hnot c (List.mem_append_left _ hc)
    refine ⟨_, hread, linkInv_setSides ?_ ?_⟩
    · exact hback.of_eq rfl rfl
    · refine (h.from side).hand hrem ⟨fun hnil => (List.append_eq_nil_iff.mp hnil).1, fun hnil => ?_⟩
        (afterAll_of_notVersions hdone) hsplit hrest
      -- the first cell of a stream is `VERSIONS`
      rw [hnil, List.nil_append] at hrem ⊢
      rcases (h.from side).first with hfirst | ⟨cells, hfirst, -⟩
      · exact (List.append_eq_nil_iff.mp (hrem.symm.trans hfirst)).1
      · cases done with
        | nil => rfl
        | cons c done =>
          rw [hrem, List.cons_append, List.cons.injEq] at hfirst
          exact absurd hfirst.1 (hdone c List.mem_cons_self 0 _)
  · -- the `VERSIONS` cell has not been handed up
    obtain ⟨hhanded, cells, hcells, hcellsNot⟩ : (s side).handed = [] ∧ ∃ cells,
        rem = versionsCell (s !side).knownVersions :: cells ∧ ∀ c ∈ cells, NotVersions c := by
      rcases (h.from side).first with hfirst | ⟨cells, hfirst, hcellsNot⟩
      · obtain ⟨-, rfl⟩ := List.append_eq_nil_iff.mp (hrem.symm.trans hfirst)
        exact absurd (fun c hc => absurd hc List.not_mem_nil) hnot
      · rw [hrem] at hfirst
        rcases List.append_eq_cons_iff.mp hfirst with ⟨hnil, hrest⟩ | ⟨handed, -, hrest⟩
        · exact ⟨hnil, cells, hrest, hcellsNot⟩
        · refine absurd (fun c hc => hcellsNot c ?_) hnot
          rw [hrest]
          exact List.mem_append_right _ hc
    rw [hhanded, List.nil_append, hcells] at hrem
    have hlink := (h.from side).link
    rw [if_pos hhanded] at hlink
    rw [hcells, hlink] at hok hprefix
    have hreceived : (s side).receivedVersions = false :=
      Bool.eq_false_iff.mpr fun hreceived => (h.from side).received.mp hreceived hhanded
    have hquiet : (s side).startedHere = false → (s side).written = [] := fun hstarted =>
      hback.quiet hstarted hreceived
    have hsent : (s side).startedHere = false → (s side).sentVersions = false := fun hstarted =>
      Bool.eq_false_iff.mpr fun hsent => hback.sent.mp hsent (hquiet hstarted)
    have hcommon := (h.from side).common
    rcases read_init hlink (h.from side).closed hreceived hsent hcommon h3 hok hcellsNot hprefix with
      ⟨hread, hrest⟩ | ⟨done, rem', rest, rfl, hsplit, hread, hrest⟩
    · refine ⟨_, hread, linkInv_setSides ?_ ?_⟩
      · exact hback.of_eq rfl rfl
      · rw [← hlink] at hrest
        have hsplit : (s side).inbuf ++ (s !side).outbuf.take n = (linkFraming (s side).knownVersions).encAll
            (s side).link [] ++ ((s side).inbuf ++ (s !side).outbuf.take n) := rfl
        have hhand := (h.from side).hand (by rw [hhanded, hrem]; rfl) (by rw [List.append_nil]) rfl hsplit hrest
        rwa [List.append_nil] at hhand
    · have hdone : ∀ c ∈ done, NotVersions c := fun c hc => hcellsNot c (List.mem_append_left _ hc)
      refine ⟨_, hread, linkInv_setSides ?_ ?_⟩
      · cases hstarted : (s side).startedHere with
        | true =>
          have hwritten : (s side).written ≠ [] :=
            h.written_of_peer hstarted (by rw [hrem]; exact List.cons_ne_nil _ _)
          unfold OrConn.negotiated
          rw [if_pos hstarted]
          exact ⟨hback.link, hback.received, hback.closed, hback.sent, fun _ => hwritten, nofun, hback.roles,
            hback.first, hback.ok, hback.stream, hback.common⟩
        | false =>
          have hsend := hback.sendVersions true hlink (hquiet hstarted) (.inr rfl)
          unfold OrConn.negotiated
          rw [if_neg (by rw [hstarted]; exact Bool.false_ne_true)]
          exact hsend.of_eq rfl rfl
      · exact (h.from side).negotiate h3 hhanded hrem hsplit (afterAll_of_notVersions hdone) hrest

/-- **One event** preserves the invariant. -/
theorem LinkStep.linkInv (h3 : 3 ≤ v) (h : LinkInv v s) (hstep : LinkStep s e s') : LinkInv v s' := by
  cases hstep with
  | @start side conn hstarted hsend =>
    have hback := h.from side
    have hsent : (s side).sentVersions = false := by
      by_contra hsent
      rw [OrConn.sendVersions, if_pos (Bool.not_eq_false _ ▸ hsent)] at hsend
      cases hsend
    have hno : (s side).written = [] := by
      by_contra hne
      rw [(h side).sent.mpr hne] at hsent
      cases hsent
    rw [OrConn.sendVersions, if_neg (by rw [hsent]; exact Bool.false_ne_true)] at hsend
    obtain rfl := Option.some.inj hsend
    refine linkInv_setSides ?_ ?_
    · exact (h side).sendVersions _ (h.link_init hsent) hno (.inl hstarted)
    · exact hback.of_eq rfl rfl
  | @write side c hreceived hc =>
    have hback := h.from side
    refine linkInv_setSides ?_ ?_
    · exact (h side).write h3 (h.link_negotiated hreceived) hreceived hc
    · exact hback.of_eq rfl rfl
  | @read side n conn hread =>
    obtain ⟨conn', hread', hinv⟩ := h.read h3 side n
    obtain rfl : conn' = conn := Option.some.inj (hread'.symm.trans hread)
    exact hinv

theorem linkInv_of_run {es : List LinkEvent}
    (hv : highestVersion (known true) (versionsPayload (known false)) = v) (h3 : 3 ≤ v)
    (hrun : Run LinkStep (initialSides known) es s) : LinkInv v s :=
  hrun.invariant (fun _ _ _ h hstep => hstep.linkInv h3 h) (linkInv_initialSides hv)

/-- **The cells that are handed up.**  Two sides have the version `v` from 3 on as their highest common one.
In every state of every run, each side has handed up the first of the cells that the other has written; the
rest are in its buffer and on the way, and what is in its buffer is less than the next of them.  When nothing
is on the way, all have been handed up.  Whatever is read next, no assertion fails. -/
theorem handed_of_run {es : List LinkEvent}
    (hv : highestVersion (known true) (versionsPayload (known false)) = v) (h3 : 3 ≤ v)
    (hrun : Run LinkStep (initialSides known) es s) (side : Bool) :
    (∃ rem, (s !side).written = (s side).handed ++ rem ∧
      (linkFraming (s side).knownVersions).encAll (s side).link rem = (s side).inbuf ++ (s !side).outbuf ∧
      (linkFraming (s side).knownVersions).Unfinished (s side).link (s side).inbuf rem) ∧
    ((s !side).outbuf = [] → (s side).handed = (s !side).written) ∧
    ((s side).handed ≠ [] → (s side).link = .negotiated v) ∧
    ∀ n, ((s side).read ((s !side).outbuf.take n)).isSome = true := by
  have hinv := linkInv_of_run hv h3 hrun
  refine ⟨(hinv.from side).stream, (hinv.from side).all_handed, fun hne => ?_, fun n => ?_⟩
  · rw [(hinv.from side).link, if_neg hne]
  · obtain ⟨conn, hread, -⟩ := hinv.read h3 side n
    rw [hread]
    rfl

/-- A side that knows the versions 1 to 5 opens a connection to another, and sends a cell behind its `VERSIONS`
cell. -/
theorem handed_of_run_wide :
    ∃ s, Run LinkStep (initialSides fun _ => orProtocolVersions)
        [.start true, .read false 13, .read true 11, .write true (.varCell 70000 129 [1, 2, 3]),
          .read false 100] s ∧
      (s false).handed = [versionsCell orProtocolVersions, .varCell 70000 129 [1, 2, 3]] ∧
      (s false).link = .negotiated 5 := by
  have hwritable : Writable true (.varCell 70000 129 [1, 2, 3]) :=
    ⟨⟨.inr (by decide), nofun, by decide⟩, fun circId payload h => by
      injection h with _ hcommand _
      exact absurd hcommand (by decide)⟩
  have hrun := Run.cons (@LinkStep.start (initialSides fun _ => orProtocolVersions) true _ rfl rfl)
    (.cons (@LinkStep.read _ false 13 _ rfl) (.cons (@LinkStep.read _ true 11 _ rfl)
      (.cons (@LinkStep.write _ true _ rfl hwritable) (.cons (@LinkStep.read _ false 100 _ rfl) (.nil _)))))
  obtain ⟨-, hall, hlink, -⟩ := handed_of_run (v := 5) (by decide) (by decide) hrun false
  refine ⟨_, hrun, ?_, hlink ?_⟩
  · rw [hall rfl]
    rfl
  · rw [hall rfl]
    exact List.cons_ne_nil _ _

end Runs

end TorEbpf.Or.Link
