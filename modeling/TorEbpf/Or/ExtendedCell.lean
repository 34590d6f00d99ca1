import TorEbpf.Or.ExtendCell

/-!
# Extended cells

`extended_cell_t` of `onion.h`, the answer to an extend cell, with its check, parser and formatter of
`onion.c`.  The length of the payload comes from the relay cell, the length of an `EXTENDED2` reply from
the payload.

* `parseOk_iff` — the parser stays inside the payload, and accepts what fits, exactly if an `EXTENDED2`
  payload has the two bytes of the length.
* `extendedRoundTrips_iff` — a cell comes back unchanged exactly if it is no `EXTENDED` cell with an ntor
  reply, whose length is not sent.
-/

namespace TorEbpf.Or

open TorEbpf.Lib

/-! ### The cell -/

def cellCreated : UInt8 := 2

def cellCreatedFast : UInt8 := 6

def cellCreated2 : UInt8 := 11

def relayCommandExtended : UInt8 := 7

def relayCommandExtended2 : UInt8 := 15

def tapOnionskinReplyLen : UInt16 := 148

def ntorReplyLen : UInt16 := 64

def createdFastLen : UInt16 := 40

def replySize : ℕ := cellPayloadSize - 2

structure CreatedCell where
  cellType : UInt8
  handshakeLen : UInt16
  reply : Bytes replySize
  deriving DecidableEq, Repr

structure ExtendedCell where
  cellType : UInt8
  createdCell : CreatedCell
  deriving DecidableEq, Repr

/-- The bytes of `reply` that are used. -/
def CreatedCell.handshake (c : CreatedCell) : List UInt8 := c.reply.val.take c.handshakeLen.toNat

/-- Two cells with the same content: they can only differ in the unused part of `reply`. -/
structure ExtendedCell.Same (c c' : ExtendedCell) : Prop where
  cellType : c.cellType = c'.cellType
  createdType : c.createdCell.cellType = c'.createdCell.cellType
  handshakeLen : c.createdCell.handshakeLen = c'.createdCell.handshakeLen
  handshake : c.createdCell.handshake = c'.createdCell.handshake

/-- `check_created_cell`; `false` is `-1`. -/
def checkCreatedCell (c : CreatedCell) : Bool :=
  if c.cellType = cellCreated then
    c.handshakeLen = tapOnionskinReplyLen ∨ c.handshakeLen = ntorReplyLen
  else if c.cellType = cellCreatedFast then c.handshakeLen = createdFastLen
  else if c.cellType = cellCreated2 then c.handshakeLen.toNat ≤ relayPayloadSize - 2
  else true

def checkExtendedCell (c : ExtendedCell) : Bool :=
  (if c.createdCell.cellType = cellCreated then decide (c.cellType = relayCommandExtended)
    else if c.createdCell.cellType = cellCreated2 then decide (c.cellType = relayCommandExtended2)
    else false) &&
  checkCreatedCell c.createdCell

/-- `extended_cell_parse`, of the `payload_len` bytes of the payload. -/
def extendedCellParse (o : ByteOrder) (command : UInt8) (payload : List UInt8) : Step ExtendedCell :=
  let payloadLen := payload.length
  if relayPayloadSize < payloadLen then fail
  else do
    let c ←
      if command = relayCommandExtended then
        if payloadLen ≠ tapOnionskinReplyLen.toNat then fail
        else do
          let reply ← memcpy payload 0 tapOnionskinReplyLen.toNat replySize
          pure ⟨relayCommandExtended, cellCreated, tapOnionskinReplyLen, reply⟩
      else if command = relayCommandExtended2 then do
        let handshakeLen := ntohs o (← readUint16 o payload 0)
        -- `payload_len - 2` is a `size_t`
        if relayPayloadSize - 2 < handshakeLen.toNat ∨
            (payloadLen + (2 ^ 64 - 2)) % 2 ^ 64 < handshakeLen.toNat then fail
        else do
          let reply ← memcpy payload 2 handshakeLen.toNat replySize
          pure ⟨relayCommandExtended2, cellCreated2, handshakeLen, reply⟩
      else fail
    if checkExtendedCell c then return c else fail

/-- `extended_cell_format`: the command, the length and the payload. -/
def extendedCellFormat (o : ByteOrder) (c : ExtendedCell) :
    Step (UInt8 × UInt16 × Bytes relayPayloadSize) :=
  if !checkExtendedCell c then fail
  else
    let p := Bytes.pad relayPayloadSize []
    if c.cellType = relayCommandExtended then do
      let p ← copyTo p 0 c.createdCell.reply.val tapOnionskinReplyLen.toNat
      return (relayCommandExtended, tapOnionskinReplyLen, p)
    else if c.cellType = relayCommandExtended2 then do
      let p ← store p 0 (setUint16 o (ntohs o c.createdCell.handshakeLen))
      if relayPayloadSize < 2 + c.createdCell.handshakeLen.toNat then fail
      else do
        let p ← copyTo p 2 c.createdCell.reply.val c.createdCell.handshakeLen.toNat
        return (relayCommandExtended2, 2 + c.createdCell.handshakeLen, p)
    else fail

/-! ### Parsing -/

/-- The parser stays inside the payload; and it accepts an `EXTENDED2` payload exactly if the reply that it
announces is in it and fits. -/
def ParseOk (o : ByteOrder) (command : UInt8) (payload : List UInt8) : Prop :=
  NoFault (extendedCellParse o command payload) ∧
  (command = relayCommandExtended2 →
    ((∃ c, extendedCellParse o command payload = .ok c) ↔
      2 ≤ payload.length ∧ 2 + beNat (slice payload 0 2) ≤ payload.length ∧
        beNat (slice payload 0 2) ≤ replySize))

section Parsing

variable {o : ByteOrder} {command : UInt8} {payload : List UInt8} {c : ExtendedCell}

theorem toNat_ntohs_getUint16 {l : List UInt8} (h : l.length = 2) :
    (ntohs o (getUint16 o l)).toNat = beNat l := by
  obtain ⟨a, b, rfl⟩ : ∃ a b, l = [a, b] := by
    match l, h with
    | [a, b], _ => exact ⟨a, b, rfl⟩
  have ha := a.toNat_lt
  have hb := b.toNat_lt
  have hbe : beNat [a, b] = b.toNat + 256 * a.toNat := by simp [beNat, leNat]
  have hle : leNat [a, b] = a.toNat + 256 * b.toNat := by simp [leNat]
  rw [hbe]
  cases o with
  | little =>
    have hget : (getUint16 .little [a, b]).toNat = a.toNat + 256 * b.toNat := by
      rw [getUint16, hle, UInt16.toNat_ofNat']
      omega
    rw [toNat_ntohs_little, hget]
    omega
  | big =>
    rw [ntohs, getUint16, hbe, UInt16.toNat_ofNat']
    omega

/-- **An `EXTENDED` payload** of the right length, and no other, is copied. -/
theorem extendedCellParse_extended (hlen : payload.length ≤ relayPayloadSize) :
    extendedCellParse o relayCommandExtended payload =
      if payload.length = tapOnionskinReplyLen.toNat then
        .ok ⟨relayCommandExtended, cellCreated, tapOnionskinReplyLen,
          Bytes.pad replySize (slice payload 0 tapOnionskinReplyLen.toNat)⟩
      else fail := by
  unfold extendedCellParse
  dsimp only
  rw [if_neg (by omega), if_pos rfl]
  by_cases htap : payload.length = tapOnionskinReplyLen.toNat
  · have hcopy : memcpy payload 0 tapOnionskinReplyLen.toNat replySize =
        .ok (Bytes.pad replySize (slice payload 0 tapOnionskinReplyLen.toNat)) :=
      memcpy_of_le (by omega) (by decide)
    rw [if_pos htap, if_neg (not_not.mpr htap), hcopy, ok_bind, pure_bind]
    rfl
  · rw [if_neg htap, if_pos htap]
    rfl

/-- **An `EXTENDED2` payload** with at least two bytes. -/
theorem extendedCellParse_extended2 (hlen : payload.length ≤ relayPayloadSize) (h2 : 2 ≤ payload.length) :
    extendedCellParse o relayCommandExtended2 payload =
      if 2 + beNat (slice payload 0 2) ≤ payload.length then
        .ok ⟨relayCommandExtended2, cellCreated2, UInt16.ofNat (beNat (slice payload 0 2)),
          Bytes.pad replySize (slice payload 2 (beNat (slice payload 0 2)))⟩
      else fail := by
  have hlen' : payload.length ≤ 498 := hlen
  have hread : readUint16 o payload 0 = .ok (getUint16 o (slice payload 0 2)) := readUint16_of_le (by omega)
  have hvalue := @toNat_ntohs_getUint16 o (slice payload 0 2) (slice_length (by omega))
  have hback : UInt16.ofNat (beNat (slice payload 0 2)) = ntohs o (getUint16 o (slice payload 0 2)) := by
    rw [← hvalue, UInt16.ofNat_toNat]
  unfold extendedCellParse
  dsimp only
  rw [if_neg (by omega), if_neg (by decide), if_pos rfl, hread, ok_bind, hback, hvalue]
  generalize beNat (slice payload 0 2) = h at hvalue
  split_ifs with hbig hfits hfits
  · exfalso
    have hsize : relayPayloadSize - 2 = 496 := rfl
    omega
  · rfl
  · have hcopy : memcpy payload 2 h replySize = .ok (Bytes.pad replySize (slice payload 2 h)) :=
      memcpy_of_le hfits (by have hsize : replySize = 507 := rfl; omega)
    have hcheck : (ntohs o (getUint16 o (slice payload 0 2))).toNat ≤ relayPayloadSize - 2 := by
      rw [hvalue]
      exact Nat.le_of_not_lt fun hlt => hbig (.inl hlt)
    rw [hcopy, ok_bind, pure_bind, if_pos]
    · rfl
    · simpa [checkExtendedCell, checkCreatedCell, cellCreated, cellCreated2, cellCreatedFast] using hcheck
  · exfalso
    omega

/-- **When the parser goes wrong**: for an `EXTENDED2` payload without the length. -/
theorem parseOk_iff (hlen : payload.length ≤ relayPayloadSize) :
    ParseOk o command payload ↔ ¬(command = relayCommandExtended2 ∧ payload.length < 2) := by
  have hlen' : payload.length ≤ 498 := hlen
  by_cases h1 : command = relayCommandExtended
  · subst h1
    refine ⟨fun _ h => absurd h.1 (by decide), fun _ => ⟨?_, fun h => absurd h (by decide)⟩⟩
    rw [extendedCellParse_extended hlen]
    split_ifs
    · exact noFault_ok _
    · exact noFault_reject ()
  · by_cases h2 : command = relayCommandExtended2
    · subst h2
      by_cases hshort : payload.length < 2
      · -- the length is read behind the payload
        have hread : extendedCellParse o relayCommandExtended2 payload = fault .read := by
          have hread : readUint16 o payload 0 = fault .read := if_neg (by omega)
          unfold extendedCellParse
          dsimp only
          rw [if_neg (by omega), if_neg (by decide), if_pos rfl, hread]
          rfl
        refine ⟨fun h => ?_, fun h => absurd ⟨rfl, hshort⟩ h⟩
        rw [ParseOk, hread] at h
        exact absurd h.1 (not_noFault_fault _)
      · have hparse := @extendedCellParse_extended2 o payload hlen (by omega)
        refine ⟨fun _ h => hshort h.2, fun _ => ⟨?_, fun _ => ⟨?_, ?_⟩⟩⟩
        · rw [hparse]
          split_ifs
          · exact noFault_ok _
          · exact noFault_reject ()
        · rintro ⟨c, hc⟩
          rw [hparse] at hc
          have hsize : replySize = 507 := rfl
          split_ifs at hc with hfits
          · exact ⟨by omega, hfits, by omega⟩
          · cases hc
        · rintro ⟨-, hfits, -⟩
          exact ⟨_, by rw [hparse, if_pos hfits]⟩
    · refine ⟨fun _ h => h2 h.1, fun _ => ⟨?_, fun h => absurd h h2⟩⟩
      unfold extendedCellParse
      dsimp only
      rw [if_neg (by omega), if_neg h1, if_neg h2]
      exact noFault_reject ()

end Parsing

/-! ### The round trip -/

/-- A cell that can be formatted comes back from the parser with the same content. -/
def ExtendedRoundTrips (o : ByteOrder) (c : ExtendedCell) : Prop :=
  ∀ command len payload, extendedCellFormat o c = .ok (command, len, payload) →
    ∃ c', extendedCellParse o command (payload.val.take len.toNat) = .ok c' ∧ c'.Same c

section RoundTrip

variable {o : ByteOrder} {c : ExtendedCell}

/-- What the check leaves: an `EXTENDED` cell with a TAP or an ntor reply, or an `EXTENDED2` cell. -/
theorem checkExtendedCell_iff : checkExtendedCell c = true ↔
    (c.cellType = relayCommandExtended ∧ c.createdCell.cellType = cellCreated ∧
      (c.createdCell.handshakeLen = tapOnionskinReplyLen ∨ c.createdCell.handshakeLen = ntorReplyLen)) ∨
    (c.cellType = relayCommandExtended2 ∧ c.createdCell.cellType = cellCreated2 ∧
      c.createdCell.handshakeLen.toNat ≤ relayPayloadSize - 2) := by
  unfold checkExtendedCell checkCreatedCell
  have hne : cellCreated ≠ cellCreated2 := by decide
  have hfast : cellCreated2 ≠ cellCreatedFast := by decide
  by_cases h1 : c.createdCell.cellType = cellCreated
  · simp [h1, hne]
  · by_cases h2 : c.createdCell.cellType = cellCreated2
    · simp [h2, hne.symm, hfast]
    · simp [h1, h2]

theorem handshake_pad {l : List UInt8} {n : UInt16} {t : UInt8} (hn : l.length = n.toNat)
    (h : n.toNat ≤ replySize) : (CreatedCell.mk t n (Bytes.pad replySize l)).handshake = l := by
  rw [CreatedCell.handshake, Bytes.pad]
  dsimp only
  rw [List.take_take, Nat.min_eq_left h, List.take_left' hn]

/-- **An `EXTENDED` cell** is formatted with the whole TAP reply. -/
theorem extendedCellFormat_extended (hcheck : checkExtendedCell c = true)
    (hc : c.cellType = relayCommandExtended) :
    extendedCellFormat o c = .ok (relayCommandExtended, tapOnionskinReplyLen,
      Bytes.pad relayPayloadSize (c.createdCell.reply.val.take tapOnionskinReplyLen.toNat)) := by
  have hcopy := @copyTo_pad relayPayloadSize 0 tapOnionskinReplyLen.toNat [] c.createdCell.reply.val rfl
    (by rw [c.createdCell.reply.length_eq]; decide) (by decide)
  unfold extendedCellFormat
  rw [hcheck, if_neg (by decide), if_pos hc, hcopy, ok_bind]
  rfl

/-- **An `EXTENDED2` cell** is formatted with the length in front. -/
theorem extendedCellFormat_extended2 (hcheck : checkExtendedCell c = true)
    (hc : c.cellType = relayCommandExtended2) (hlen : c.createdCell.handshakeLen.toNat ≤ relayPayloadSize - 2) :
    extendedCellFormat o c = .ok (relayCommandExtended2, 2 + c.createdCell.handshakeLen,
      Bytes.pad relayPayloadSize
        (setUint16 .big c.createdCell.handshakeLen ++ c.createdCell.handshake)) := by
  have hsize : relayPayloadSize = 498 := rfl
  have hreply : c.createdCell.reply.val.length = 507 := c.createdCell.reply.length_eq
  have hstore := @store_start relayPayloadSize (setUint16 .big c.createdCell.handshakeLen)
    (by rw [setUint16_length]; decide)
  have hcopy := @copyTo_pad relayPayloadSize 2 c.createdCell.handshakeLen.toNat
    (setUint16 .big c.createdCell.handshakeLen) c.createdCell.reply.val (setUint16_length _ _).symm
    (by omega) (by rw [setUint16_length]; omega)
  unfold extendedCellFormat
  rw [hcheck, setUint16_ntohs, if_neg (by decide), hc, if_neg (by decide), if_pos rfl, hstore, ok_bind,
    if_neg (by omega), hcopy, ok_bind]
  rfl

theorem parse_format_extended (hcheck : checkExtendedCell c = true) (hc : c.cellType = relayCommandExtended) :
    ∃ payload, extendedCellFormat o c = .ok (relayCommandExtended, tapOnionskinReplyLen, payload) ∧
      extendedCellParse o relayCommandExtended (payload.val.take tapOnionskinReplyLen.toNat) =
        .ok ⟨relayCommandExtended, cellCreated, tapOnionskinReplyLen,
          Bytes.pad replySize (c.createdCell.reply.val.take tapOnionskinReplyLen.toNat)⟩ := by
  have hreply : (c.createdCell.reply.val.take tapOnionskinReplyLen.toNat).length =
      tapOnionskinReplyLen.toNat := List.length_take_of_le (by rw [c.createdCell.reply.length_eq]; decide)
  refine ⟨_, extendedCellFormat_extended hcheck hc, ?_⟩
  have htake := @Bytes.pad_take relayPayloadSize (c.createdCell.reply.val.take tapOnionskinReplyLen.toNat)
    (by rw [hreply]; decide)
  rw [hreply] at htake
  rw [htake, extendedCellParse_extended (by rw [hreply]; decide), if_pos hreply, slice, List.drop_zero,
    List.take_take, Nat.min_self]

theorem parse_format_extended2 (hcheck : checkExtendedCell c = true) (hc : c.cellType = relayCommandExtended2)
    (hlen : c.createdCell.handshakeLen.toNat ≤ relayPayloadSize - 2) :
    ∃ payload, extendedCellFormat o c =
        .ok (relayCommandExtended2, 2 + c.createdCell.handshakeLen, payload) ∧
      extendedCellParse o relayCommandExtended2
          (payload.val.take (2 + c.createdCell.handshakeLen).toNat) =
        .ok ⟨relayCommandExtended2, cellCreated2, c.createdCell.handshakeLen,
          Bytes.pad replySize c.createdCell.handshake⟩ := by
  have hsize : relayPayloadSize = 498 := rfl
  have hhead : (setUint16 .big c.createdCell.handshakeLen).length = 2 := setUint16_length _ _
  have hreply : c.createdCell.handshake.length = c.createdCell.handshakeLen.toNat :=
    List.length_take_of_le (by rw [c.createdCell.reply.length_eq]; have hr : replySize = 507 := rfl; omega)
  have hadd : (2 + c.createdCell.handshakeLen).toNat = 2 + c.createdCell.handshakeLen.toNat := by
    rw [UInt16.toNat_add]
    have h2 : (2 : UInt16).toNat = 2 := rfl
    omega
  have hall : (setUint16 .big c.createdCell.handshakeLen ++ c.createdCell.handshake).length =
      2 + c.createdCell.handshakeLen.toNat := by
    rw [List.length_append, hhead, hreply]
  have hvalue : beNat (slice (setUint16 .big c.createdCell.handshakeLen ++ c.createdCell.handshake) 0 2) =
      c.createdCell.handshakeLen.toNat := by
    rw [slice_append_left hhead.symm, ← toNat_ntohs_getUint16 (o := .big) hhead, getUint16_setUint16]
    rfl
  refine ⟨_, extendedCellFormat_extended2 hcheck hc hlen, ?_⟩
  have htake := @Bytes.pad_take relayPayloadSize
    (setUint16 .big c.createdCell.handshakeLen ++ c.createdCell.handshake) (by omega)
  rw [hall] at htake
  rw [hadd, htake, extendedCellParse_extended2 (by omega) (by omega), hvalue, if_pos (Nat.le_of_eq hall.symm),
    UInt16.ofNat_toNat, slice_append_end hhead.symm hreply.symm]

/-- **When a cell comes back changed**: as an `EXTENDED` cell with an ntor reply. -/
theorem extendedRoundTrips_iff : ExtendedRoundTrips o c ↔
    ¬(c.cellType = relayCommandExtended ∧ c.createdCell.cellType = cellCreated ∧
      c.createdCell.handshakeLen = ntorReplyLen) := by
  constructor
  · rintro h ⟨hc, hcreated, hntor⟩
    have hcheck := checkExtendedCell_iff.mpr (.inl ⟨hc, hcreated, .inr hntor⟩)
    obtain ⟨payload, hformat, hparse⟩ := @parse_format_extended o c hcheck hc
    obtain ⟨c', hc', hsame⟩ := h _ _ _ hformat
    rw [hparse] at hc'
    cases hc'
    have hlen : tapOnionskinReplyLen = ntorReplyLen := hsame.handshakeLen.trans hntor
    exact absurd hlen (by decide)
  · intro h command len p hp
    by_cases hcheck : checkExtendedCell c = true
    · rcases checkExtendedCell_iff.mp hcheck with ⟨hc, hcreated, hlen⟩ | ⟨hc, hcreated, hlen⟩
      · have htap := hlen.resolve_right fun hntor => h ⟨hc, hcreated, hntor⟩
        obtain ⟨payload, hformat, hparse⟩ := @parse_format_extended o c hcheck hc
        rw [hformat] at hp
        cases hp
        refine ⟨_, hparse, hc.symm, hcreated.symm, htap.symm, ?_⟩
        have hreply : tapOnionskinReplyLen.toNat ≤ c.createdCell.reply.val.length := by
          rw [c.createdCell.reply.length_eq]
          decide
        rw [handshake_pad (List.length_take_of_le hreply) (by decide), CreatedCell.handshake, htap]
      · obtain ⟨payload, hformat, hparse⟩ := @parse_format_extended2 o c hcheck hc hlen
        rw [hformat] at hp
        cases hp
        have hsize : relayPayloadSize = 498 := rfl
        have hr : replySize = 507 := rfl
        refine ⟨_, hparse, hc.symm, hcreated.symm, rfl, ?_⟩
        exact handshake_pad (List.length_take_of_le (by rw [c.createdCell.reply.length_eq]; omega)) (by omega)
    · rw [extendedCellFormat, if_pos (by rw [Bool.not_eq_true] at hcheck; rw [hcheck]; rfl)] at hp
      cases hp

/-- **When extended cells are parsed as they should be**: the parser needs the length of an `EXTENDED2` reply
inside the payload, and the length of an `EXTENDED` reply has to be the one that is sent. -/
theorem extendedCell_iff (o : ByteOrder) :
    (∀ command payload, payload.length ≤ relayPayloadSize →
      (ParseOk o command payload ↔ ¬(command = relayCommandExtended2 ∧ payload.length < 2))) ∧
    ∀ c, ExtendedRoundTrips o c ↔
      ¬(c.cellType = relayCommandExtended ∧ c.createdCell.cellType = cellCreated ∧
        c.createdCell.handshakeLen = ntorReplyLen) :=
  ⟨fun _ _ hlen => parseOk_iff hlen, fun _ => extendedRoundTrips_iff⟩

theorem extendedCell_small :
    ParseOk .little relayCommandExtended2 [0, 1, 7] ∧
      ExtendedRoundTrips .little ⟨relayCommandExtended2, cellCreated2, 1, Bytes.pad replySize [7]⟩ :=
  ⟨((extendedCell_iff .little).1 _ _ (by decide)).mpr (by decide),
    ((extendedCell_iff .little).2 _).mpr (by decide)⟩

/-- **An empty `EXTENDED2` payload**, and an `EXTENDED` cell with an ntor reply. -/
theorem not_parseOk_empty :
    ¬ParseOk .little relayCommandExtended2 [] ∧
      ¬ExtendedRoundTrips .little
        ⟨relayCommandExtended, cellCreated, ntorReplyLen, Bytes.pad replySize [7]⟩ := by
  rw [parseOk_iff (by decide), extendedRoundTrips_iff]
  decide

end RoundTrip

end TorEbpf.Or
