import TorEbpf.Or.CreateCell

/-!
# Formatting create cells

`create_cell_format_impl` of `onion.c`, as writes to a cleared payload, and the round trip with
`create_cell_parse`.

* `createCellFormatImpl_ok` — what a cell that fits is formatted to: its `encoding`, behind which the
  payload is zero.
* `layout_encoding` — the parser finds the handshake where the formatter put it.
* `roundTrips_of_unambiguous` — a cell that is formatted and parsed is the same cell.  The
  exception is a `CREATE2` cell with a fast handshake: it passes the check of the formatter, and the
  parser refuses it.
-/

namespace TorEbpf.Or

open TorEbpf.Lib

/-! ### Writing to a buffer -/

def torAssert (p : Prop) [Decidable p] : Step Unit := if p then pure () else fault .assertion

/-- A write of `m` to `off` of a buffer. -/
def store {n : ℕ} (b : Bytes n) (off : ℕ) (m : List UInt8) : Step (Bytes n) :=
  if h : off + m.length ≤ n then pure (b.write off m h) else fault .write

/-- `memcpy` of the first `len` bytes of an array to `off` of a buffer. -/
def copyTo {n : ℕ} (b : Bytes n) (off : ℕ) (src : List UInt8) (len : ℕ) : Step (Bytes n) :=
  if len ≤ src.length then store b off (src.take len) else fault .read

theorem torAssert_of {p : Prop} [Decidable p] (h : p) : torAssert p = .ok () := by
  rw [torAssert, if_pos h]
  rfl

theorem store_pad {n off : ℕ} {l m : List UInt8} (hoff : off = l.length)
    (h : l.length + m.length ≤ n) : store (Bytes.pad n l) off m = .ok (Bytes.pad n (l ++ m)) := by
  subst hoff
  rw [store, dif_pos h, Bytes.pad_write]
  rfl

theorem store_start {n : ℕ} {m : List UInt8} (h : m.length ≤ n) :
    store (Bytes.pad n []) 0 m = .ok (Bytes.pad n m) :=
  store_pad rfl (by rwa [List.length_nil, Nat.zero_add])

theorem copyTo_pad {n off len : ℕ} {l src : List UInt8} (hoff : off = l.length)
    (hlen : len ≤ src.length) (h : l.length + len ≤ n) :
    copyTo (Bytes.pad n l) off src len = .ok (Bytes.pad n (l ++ src.take len)) := by
  have htake : (src.take len).length = len := List.length_take_of_le hlen
  rw [copyTo, if_pos hlen, store_pad hoff (by omega)]

/-! ### The formatter -/

/-- The `switch` of `create_cell_format_impl`: the header and the handshake, and the offset of the
pointer `p` behind the header. -/
def formatHandshake (o : ByteOrder) (c : CreateCell) : Step (Bytes cellPayloadSize × ℕ) := do
  let payload := Bytes.pad cellPayloadSize []
  if c.cellType = cellCreate ∨ c.cellType = cellCreateFast then
    let (payload, p) ←
      if c.cellType = cellCreate ∧ c.handshakeType = handshakeNtor then do
        let payload ← store payload 0 ntorCreateMagic
        pure (payload, 16)
      else pure (payload, 0)
    torAssert (c.handshakeLen.toNat ≤ cellPayloadSize - p)
    let payload ← copyTo payload p c.onionskin.val c.handshakeLen.toNat
    return (payload, p)
  else if c.cellType = cellCreate2 then
    torAssert (c.handshakeLen.toNat ≤ cellPayloadSize - 4)
    let payload ← store payload 0 (setUint16 o (ntohs o c.handshakeType))
    let payload ← store payload 2 (setUint16 o (ntohs o c.handshakeLen))
    let payload ← copyTo payload 4 c.onionskin.val c.handshakeLen.toNat
    return (payload, 4)
  else fail

/-- What `create_cell_format_impl` does behind the `switch`: the plugin list. -/
def formatPlugins (o : ByteOrder) (c : CreateCell) (payload : Bytes cellPayloadSize) (p : ℕ) :
    Step (Bytes cellPayloadSize) := do
  let p := p + c.handshakeLen.toNat
  let payload ← store payload p (setUint16 o c.pluginListLen)
  let p := p + 2
  let payload ← copyTo payload p c.plugins.val c.pluginListLen.toNat
  let p := p + c.pluginListLen.toNat
  torAssert (p ≤ cellPayloadSize)
  return payload

def createCellFormatImpl (o : ByteOrder) (c : CreateCell) (relayed : Bool) : Step Cell :=
  if checkCreateCell c relayed = false then fail
  else do
    let (payload, p) ← formatHandshake o c
    let payload ← formatPlugins o c payload p
    return ⟨c.cellType, payload⟩

def createCellFormat (o : ByteOrder) (c : CreateCell) : Step Cell := createCellFormatImpl o c false

def createCellFormatRelayed (o : ByteOrder) (c : CreateCell) : Step Cell :=
  createCellFormatImpl o c true

/-! ### The encoding -/

/-- Where the handshake of a cell starts in the payload. -/
def CreateCell.offset (c : CreateCell) : ℕ :=
  if c.cellType = cellCreate2 then 4
  else if c.cellType = cellCreate ∧ c.handshakeType = handshakeNtor then 16
  else 0

/-- The encoding of a cell fits the payload. -/
def CreateCell.Fits (c : CreateCell) : Prop :=
  c.offset + c.handshakeLen.toNat + 2 + c.pluginListLen.toNat ≤ cellPayloadSize

def CreateCell.header (o : ByteOrder) (c : CreateCell) : List UInt8 :=
  if c.cellType = cellCreate2 then
    setUint16 o (ntohs o c.handshakeType) ++ setUint16 o (ntohs o c.handshakeLen)
  else if c.cellType = cellCreate ∧ c.handshakeType = handshakeNtor then ntorCreateMagic
  else []

def CreateCell.encoding (o : ByteOrder) (c : CreateCell) : List UInt8 :=
  c.header o ++ c.handshake ++ setUint16 o c.pluginListLen ++ c.pluginList

/-- The cell with the unused part of its arrays cleared. -/
def CreateCell.cleared (c : CreateCell) : CreateCell :=
  { c with
    onionskin := Bytes.pad arraySize c.handshake
    plugins := Bytes.pad arraySize c.pluginList }

/-- Two cells with the same content: they can only differ in the unused part of the arrays. -/
structure CreateCell.Same (c c' : CreateCell) : Prop where
  cellType : c.cellType = c'.cellType
  handshakeType : c.handshakeType = c'.handshakeType
  handshakeLen : c.handshakeLen = c'.handshakeLen
  handshake : c.handshake = c'.handshake
  pluginListLen : c.pluginListLen = c'.pluginListLen
  pluginList : c.pluginList = c'.pluginList

theorem CreateCell.Same.trans {c c' c'' : CreateCell} (h : c.Same c') (h' : c'.Same c'') :
    c.Same c'' where
  cellType := h.cellType.trans h'.cellType
  handshakeType := h.handshakeType.trans h'.handshakeType
  handshakeLen := h.handshakeLen.trans h'.handshakeLen
  handshake := h.handshake.trans h'.handshake
  pluginListLen := h.pluginListLen.trans h'.pluginListLen
  pluginList := h.pluginList.trans h'.pluginList

theorem CreateCell.header_length (o : ByteOrder) (c : CreateCell) :
    (c.header o).length = c.offset := by
  unfold CreateCell.header CreateCell.offset
  split
  · rw [List.length_append, setUint16_length, setUint16_length]
  · split
    · rfl
    · rfl

theorem CreateCell.handshake_length {c : CreateCell} (h : c.handshakeLen.toNat ≤ arraySize) :
    c.handshake.length = c.handshakeLen.toNat := by
  have hlen := c.onionskin.length_eq
  exact List.length_take_of_le (by omega)

theorem CreateCell.pluginList_length {c : CreateCell} (h : c.pluginListLen.toNat ≤ arraySize) :
    c.pluginList.length = c.pluginListLen.toNat := by
  have hlen := c.plugins.length_eq
  exact List.length_take_of_le (by omega)

theorem checkCreateCell_cases {c : CreateCell} {unknownOk : Bool}
    (h : checkCreateCell c unknownOk = true) :
    (c.cellType = cellCreate ∧ c.handshakeType = handshakeTap ∧
      c.handshakeLen = tapOnionskinChallengeLen) ∨
    (c.cellType = cellCreate ∧ c.handshakeType = handshakeNtor ∧
      c.handshakeLen = ntorOnionskinLen) ∨
    (c.cellType = cellCreateFast ∧ c.handshakeType = handshakeFast ∧
      c.handshakeLen = createFastLen) ∨
    c.cellType = cellCreate2 := by
  unfold checkCreateCell at h
  rw [Bool.and_eq_true] at h
  obtain ⟨htype, hlen⟩ := h
  split at htype
  · rename_i hc
    obtain ht | ht := of_decide_eq_true htype
    · rw [ht, if_pos rfl] at hlen
      exact .inl ⟨hc, ht, of_decide_eq_true hlen⟩
    · rw [ht, if_neg (by decide), if_neg (by decide), if_pos rfl] at hlen
      exact .inr (.inl ⟨hc, ht, of_decide_eq_true hlen⟩)
  · split at htype
    · rename_i hc
      have ht := of_decide_eq_true htype
      rw [ht, if_neg (by decide), if_pos rfl] at hlen
      exact .inr (.inr (.inl ⟨hc, ht, of_decide_eq_true hlen⟩))
    · exact .inr (.inr (.inr (of_decide_eq_true htype)))

theorem CreateCell.Fits.le_arraySize {c : CreateCell} {unknownOk : Bool} (hfits : c.Fits)
    (h : checkCreateCell c unknownOk = true) :
    c.handshakeLen.toNat ≤ arraySize ∧ c.pluginListLen.toNat ≤ arraySize := by
  have harray : arraySize = 503 := rfl
  have hoffset : 4 ≤ c.offset ∨ (20 ≤ c.handshakeLen.toNat ∧ c.handshakeLen.toNat ≤ 186) := by
    obtain ⟨_, _, hl⟩ | ⟨_, _, hl⟩ | ⟨_, _, hl⟩ | hc := checkCreateCell_cases h
    · rw [hl]
      exact .inr (by decide)
    · rw [hl]
      exact .inr (by decide)
    · rw [hl]
      exact .inr (by decide)
    · rw [CreateCell.offset, if_pos hc]
      exact .inl (Nat.le_refl 4)
  unfold CreateCell.Fits cellPayloadSize at hfits
  omega

theorem CreateCell.encoding_length {o : ByteOrder} {c : CreateCell}
    (h₁ : c.handshakeLen.toNat ≤ arraySize) (h₂ : c.pluginListLen.toNat ≤ arraySize) :
    (c.encoding o).length = c.offset + c.handshakeLen.toNat + 2 + c.pluginListLen.toNat := by
  rw [CreateCell.encoding, List.length_append, List.length_append, List.length_append,
    CreateCell.header_length, CreateCell.handshake_length h₁, setUint16_length,
    CreateCell.pluginList_length h₂]

/-- The byte order only shows in the length of the plugin list. -/
theorem CreateCell.encoding_congr {o o' : ByteOrder} {c : CreateCell}
    (h : setUint16 o c.pluginListLen = setUint16 o' c.pluginListLen) :
    c.encoding o = c.encoding o' := by
  have hheader : c.header o = c.header o' := by
    simp only [CreateCell.header, setUint16_ntohs]
  rw [CreateCell.encoding, CreateCell.encoding, hheader, h]

/-! ### What is formatted -/

theorem formatHandshake_ok {o : ByteOrder} {c : CreateCell} {relayed : Bool}
    (hcheck : checkCreateCell c relayed = true) (hfits : c.Fits) :
    formatHandshake o c
      = .ok (Bytes.pad cellPayloadSize (c.header o ++ c.handshake), c.offset) := by
  have hskin : c.handshakeLen.toNat ≤ c.onionskin.val.length := by
    rw [c.onionskin.length_eq]
    exact (hfits.le_arraySize hcheck).1
  unfold CreateCell.Fits at hfits
  unfold formatHandshake CreateCell.header
  dsimp only
  by_cases hc₂ : c.cellType = cellCreate2
  · have hoff : c.offset = 4 := by rw [CreateCell.offset, if_pos hc₂]
    have hset := setUint16_length o
    have hhead : (setUint16 o (ntohs o c.handshakeType)
        ++ setUint16 o (ntohs o c.handshakeLen)).length = 4 := by
      rw [List.length_append, hset, hset]
    rw [hoff] at hfits ⊢
    rw [if_neg (by rw [hc₂]; decide), if_pos hc₂, if_pos hc₂, torAssert_of (by omega), ok_bind,
      store_start (by rw [hset]; decide), ok_bind,
      store_pad (hset _).symm (by rw [hset, hset]; decide), ok_bind,
      copyTo_pad hhead.symm hskin (by omega)]
    rfl
  · have hc₁ : c.cellType = cellCreate ∨ c.cellType = cellCreateFast := by
      obtain ⟨hc, _⟩ | ⟨hc, _⟩ | ⟨hc, _⟩ | hc := checkCreateCell_cases hcheck
      · exact .inl hc
      · exact .inl hc
      · exact .inr hc
      · exact absurd hc hc₂
    rw [if_pos hc₁, if_neg hc₂]
    by_cases hn : c.cellType = cellCreate ∧ c.handshakeType = handshakeNtor
    · have hoff : c.offset = 16 := by rw [CreateCell.offset, if_neg hc₂, if_pos hn]
      rw [hoff] at hfits ⊢
      have hcopy : copyTo (Bytes.pad cellPayloadSize ntorCreateMagic) 16 c.onionskin.val
          c.handshakeLen.toNat = .ok (Bytes.pad cellPayloadSize (ntorCreateMagic ++ c.handshake)) :=
        copyTo_pad rfl hskin (show 16 + c.handshakeLen.toNat ≤ cellPayloadSize by omega)
      rw [if_pos hn, if_pos hn, store_start (by decide), ok_bind, pure_bind,
        torAssert_of (show _ ≤ cellPayloadSize - 16 by omega), ok_bind, hcopy]
      rfl
    · have hoff : c.offset = 0 := by rw [CreateCell.offset, if_neg hc₂, if_neg hn]
      rw [hoff] at hfits ⊢
      have hcopy : copyTo (Bytes.pad cellPayloadSize []) 0 c.onionskin.val
          c.handshakeLen.toNat = .ok (Bytes.pad cellPayloadSize ([] ++ c.handshake)) :=
        copyTo_pad rfl hskin (show 0 + c.handshakeLen.toNat ≤ cellPayloadSize by omega)
      rw [if_neg hn, if_neg hn, pure_bind,
        torAssert_of (show _ ≤ cellPayloadSize - 0 by omega), ok_bind, hcopy]
      rfl

theorem formatPlugins_ok {o : ByteOrder} {c : CreateCell} {head : List UInt8} {p : ℕ}
    (hp : p + c.handshakeLen.toNat = head.length) (hlen : c.pluginListLen.toNat ≤ arraySize)
    (hfits : p + c.handshakeLen.toNat + 2 + c.pluginListLen.toNat ≤ cellPayloadSize) :
    formatPlugins o c (Bytes.pad cellPayloadSize head) p
      = .ok (Bytes.pad cellPayloadSize (head ++ setUint16 o c.pluginListLen ++ c.pluginList)) := by
  have hset := setUint16_length o c.pluginListLen
  have hhead : (head ++ setUint16 o c.pluginListLen).length = head.length + 2 := by
    rw [List.length_append, hset]
  have hplugins : c.pluginListLen.toNat ≤ c.plugins.val.length := by rwa [c.plugins.length_eq]
  unfold formatPlugins
  dsimp only
  rw [store_pad hp (by omega), ok_bind, copyTo_pad (by omega) hplugins (by omega), ok_bind,
    torAssert_of hfits]
  rfl

/-- **The formatter**: a cell that passes the check and fits is formatted to its encoding. -/
theorem createCellFormatImpl_ok {o : ByteOrder} {c : CreateCell} {relayed : Bool}
    (hcheck : checkCreateCell c relayed = true) (hfits : c.Fits) :
    createCellFormatImpl o c relayed
      = .ok ⟨c.cellType, Bytes.pad cellPayloadSize (c.encoding o)⟩ := by
  obtain ⟨h₁, h₂⟩ := hfits.le_arraySize hcheck
  have hhead : c.offset + c.handshakeLen.toNat = (c.header o ++ c.handshake).length := by
    rw [List.length_append, CreateCell.header_length, CreateCell.handshake_length h₁]
  unfold createCellFormatImpl
  rw [if_neg (by rw [hcheck]; decide), formatHandshake_ok hcheck hfits, ok_bind]
  show (formatPlugins o c _ _ >>= fun payload => _) = _
  rw [formatPlugins_ok hhead h₂ hfits]
  rfl

/-! ### What is parsed -/

theorem CreateCell.handshake_cleared {c : CreateCell} (h : c.handshakeLen.toNat ≤ arraySize) :
    c.cleared.handshake = c.handshake := by
  have hlen := CreateCell.handshake_length h
  show (Bytes.pad arraySize c.handshake).val.take c.handshakeLen.toNat = c.handshake
  rw [← hlen, Bytes.pad_take (by omega)]

theorem CreateCell.pluginList_cleared {c : CreateCell} (h : c.pluginListLen.toNat ≤ arraySize) :
    c.cleared.pluginList = c.pluginList := by
  have hlen := CreateCell.pluginList_length h
  show (Bytes.pad arraySize c.pluginList).val.take c.pluginListLen.toNat = c.pluginList
  rw [← hlen, Bytes.pad_take (by omega)]

theorem CreateCell.same_cleared {c : CreateCell} (h₁ : c.handshakeLen.toNat ≤ arraySize)
    (h₂ : c.pluginListLen.toNat ≤ arraySize) : c.cleared.Same c where
  cellType := rfl
  handshakeType := rfl
  handshakeLen := rfl
  handshake := CreateCell.handshake_cleared h₁
  pluginListLen := rfl
  pluginList := CreateCell.pluginList_cleared h₂

/-- What the parser can tell from the payload: a cell is read back as another format if a TAP
handshake starts like an ntor one, and a fast handshake is refused in a `CREATE2` cell. -/
structure CreateCell.Unambiguous (c : CreateCell) : Prop where
  tap : c.cellType = cellCreate → c.handshakeType = handshakeTap →
    c.handshake.take 16 ≠ ntorCreateMagic
  fast : c.cellType = cellCreate2 → c.handshakeType ≠ handshakeFast

section
variable {o o' : ByteOrder} {c : CreateCell} (hcheck : checkCreateCell c false = true) (hfits : c.Fits)
include hcheck hfits

theorem slice_encoding_header {off k : ℕ} (h : off + k ≤ c.offset) :
    slice (Bytes.pad cellPayloadSize (c.encoding o)).val off k = slice (c.header o) off k := by
  obtain ⟨h₁, h₂⟩ := hfits.le_arraySize hcheck
  have hlen := CreateCell.encoding_length (o := o) h₁ h₂
  rw [Bytes.slice_pad (by omega) (by rwa [hlen]), CreateCell.encoding, List.append_assoc,
    List.append_assoc, slice_append_of_le (by rwa [CreateCell.header_length])]

/-- A `CREATE` cell is an ntor cell if it starts with the magic string. -/
theorem layout_encoding_create (hc : c.cellType = cellCreate)
    (htap : c.handshakeType = handshakeTap → c.handshake.take 16 ≠ ntorCreateMagic) :
    layout o' ⟨c.cellType, Bytes.pad cellPayloadSize (c.encoding o)⟩
      = some ⟨c.cellType, c.handshakeType, c.handshakeLen, c.offset⟩ := by
  obtain ⟨_, ht, hl⟩ | ⟨_, ht, hl⟩ | ⟨hf, _⟩ | h₂ := checkCreateCell_cases hcheck
  · obtain ⟨h₁, h₂⟩ := hfits.le_arraySize hcheck
    have hheader : c.header o = [] := by
      rw [CreateCell.header, hc, ht]
      rfl
    have hoff : c.offset = 0 := by
      rw [CreateCell.offset, hc, ht]
      rfl
    have hmagic : slice (Bytes.pad cellPayloadSize (c.encoding o)).val 0 16 ≠ ntorCreateMagic := by
      have hlen := CreateCell.encoding_length (o := o) h₁ h₂
      have h16 : 16 ≤ c.handshake.length := by
        rw [CreateCell.handshake_length h₁, hl]
        decide
      have hle : 16 ≤ c.handshakeLen.toNat := by rwa [← CreateCell.handshake_length h₁]
      rw [Bytes.slice_pad (by omega) (by rwa [hlen]), CreateCell.encoding, hheader,
        List.nil_append, List.append_assoc, slice_append_of_le (by omega)]
      exact htap ht
    rw [layout]
    dsimp only
    rw [if_pos hc, if_neg hmagic, hoff, hc, ht, hl]
  · have hheader : c.header o = ntorCreateMagic := by
      rw [CreateCell.header, hc, ht]
      rfl
    have hoff : c.offset = 16 := by
      rw [CreateCell.offset, hc, ht]
      rfl
    have hmagic : slice (Bytes.pad cellPayloadSize (c.encoding o)).val 0 16 = ntorCreateMagic := by
      rw [slice_encoding_header hcheck hfits (by omega), hheader]
      rfl
    rw [layout]
    dsimp only
    rw [if_pos hc, if_pos hmagic, hoff, hc, ht, hl]
  · exact absurd (hc.symm.trans hf) (by decide)
  · exact absurd (hc.symm.trans h₂) (by decide)

/-- The header of a `CREATE2` cell is read in network order. -/
theorem layout_encoding_create2 (hc : c.cellType = cellCreate2)
    (hfast : c.handshakeType ≠ handshakeFast) :
    layout o' ⟨c.cellType, Bytes.pad cellPayloadSize (c.encoding o)⟩
      = some ⟨c.cellType, c.handshakeType, c.handshakeLen, c.offset⟩ := by
  have hheader : c.header o
      = setUint16 o (ntohs o c.handshakeType) ++ setUint16 o (ntohs o c.handshakeLen) := by
    rw [CreateCell.header, if_pos hc]
  have hoff : c.offset = 4 := by rw [CreateCell.offset, if_pos hc]
  have hset := setUint16_length o
  have htype : ntohs o' (getUint16 o' (slice (Bytes.pad cellPayloadSize (c.encoding o)).val 0 2))
      = c.handshakeType := by
    rw [slice_encoding_header hcheck hfits (by omega), hheader, slice_append_left (hset _).symm,
      ntohs_getUint16_setUint16]
  have hlength : ntohs o' (getUint16 o' (slice (Bytes.pad cellPayloadSize (c.encoding o)).val 2 2))
      = c.handshakeLen := by
    rw [slice_encoding_header hcheck hfits (by omega), hheader,
      slice_append_end (hset _).symm (hset _).symm, ntohs_getUint16_setUint16]
  unfold CreateCell.Fits at hfits
  rw [layout]
  dsimp only
  rw [if_neg (by rw [hc]; decide), if_neg (by rw [hc]; decide), if_pos hc, htype, hlength,
    if_neg (not_or.mpr ⟨by omega, hfast⟩), hoff, hc]

/-- **Where the handshake is found**, by a host of either byte order. -/
theorem layout_encoding (h : c.Unambiguous) :
    layout o' ⟨c.cellType, Bytes.pad cellPayloadSize (c.encoding o)⟩
      = some ⟨c.cellType, c.handshakeType, c.handshakeLen, c.offset⟩ := by
  obtain ⟨hc, _⟩ | ⟨hc, _⟩ | ⟨hc, ht, hl⟩ | hc := checkCreateCell_cases hcheck
  · exact layout_encoding_create hcheck hfits hc (h.tap hc)
  · exact layout_encoding_create hcheck hfits hc (h.tap hc)
  · have hoff : c.offset = 0 := by
      rw [CreateCell.offset, hc, ht]
      rfl
    rw [layout]
    dsimp only
    rw [if_neg (by rw [hc]; decide), if_pos hc, hoff, hc, ht, hl]
  · exact layout_encoding_create2 hcheck hfits hc (h.fast hc)

theorem slice_encoding_pluginListLen :
    slice (Bytes.pad cellPayloadSize (c.encoding o)).val (c.offset + c.handshakeLen.toNat) 2
      = setUint16 o c.pluginListLen := by
  obtain ⟨h₁, h₂⟩ := hfits.le_arraySize hcheck
  have hlen := CreateCell.encoding_length (o := o) h₁ h₂
  have hhead : c.offset + c.handshakeLen.toNat = (c.header o ++ c.handshake).length := by
    rw [List.length_append, CreateCell.header_length, CreateCell.handshake_length h₁]
  rw [Bytes.slice_pad (by omega) (by rwa [hlen]), CreateCell.encoding,
    slice_append_mid hhead (setUint16_length o _).symm]

/-- **Parsing a formatted cell**, on a host of the same byte order. -/
theorem createCellParse_encoding (h : c.Unambiguous) :
    createCellParse o ⟨c.cellType, Bytes.pad cellPayloadSize (c.encoding o)⟩ = .ok c.cleared := by
  obtain ⟨h₁, h₂⟩ := hfits.le_arraySize hcheck
  have hhead := c.header_length o
  have hhs := CreateCell.handshake_length h₁
  have hset := setUint16_length o c.pluginListLen
  have hlen := CreateCell.encoding_length (o := o) h₁ h₂
  have hle : (c.encoding o).length ≤ cellPayloadSize := by rwa [hlen]
  have hskin : slice (Bytes.pad cellPayloadSize (c.encoding o)).val c.offset c.handshakeLen.toNat
      = c.handshake := by
    rw [Bytes.slice_pad (by omega) hle, CreateCell.encoding, List.append_assoc,
      slice_append_mid hhead.symm hhs.symm]
  have hplugins : slice (Bytes.pad cellPayloadSize (c.encoding o)).val
      (c.offset + c.handshakeLen.toNat + 2) c.pluginListLen.toNat = c.pluginList := by
    rw [Bytes.slice_pad (by omega) hle, CreateCell.encoding, slice_append_end
      (by rw [List.length_append, List.length_append, hhead, hhs, hset])
      (CreateCell.pluginList_length h₂).symm]
  have hget : getUint16 o (slice (Bytes.pad cellPayloadSize (c.encoding o)).val
      (c.offset + c.handshakeLen.toNat) 2) = c.pluginListLen := by
    rw [slice_encoding_pluginListLen hcheck hfits, getUint16_setUint16]
  have hinit : createCellInit o c.cellType c.handshakeType c.handshakeLen
      (Bytes.pad cellPayloadSize (c.encoding o)).val c.offset = .ok c.cleared := by
    rw [createCellInit_ok h₁ (by rw [hget]; exact h₂)
      (by rw [hget, (Bytes.pad cellPayloadSize (c.encoding o)).length_eq]; exact hfits),
      hget, hskin, hplugins]
    rfl
  rw [createCellParse_eq, layout_encoding hcheck hfits h]
  show (createCellInit .. >>= fun c => _) = _
  rw [hinit, ok_bind, if_pos (show checkCreateCell c.cleared false = true from hcheck)]
  rfl

/-- On a host of any byte order, the length of the list is read in its order. -/
theorem pluginListLen_of_parse (h : c.Unambiguous) {c' : CreateCell}
    (hparse : createCellParse o' ⟨c.cellType, Bytes.pad cellPayloadSize (c.encoding o)⟩ = .ok c') :
    c'.pluginListLen = getUint16 o' (setUint16 o c.pluginListLen) := by
  rw [createCellParse_eq, layout_encoding hcheck hfits h] at hparse
  obtain ⟨c₀, hinit, hc'⟩ := bind_eq_ok.mp hparse
  have heq : c₀ = c' := by
    split at hc'
    · cases hc'
      rfl
    · cases hc'
  subst heq
  unfold createCellInit at hinit
  obtain ⟨_, _, hinit⟩ := bind_eq_ok.mp hinit
  obtain ⟨len, hread, hinit⟩ := bind_eq_ok.mp hinit
  obtain ⟨_, _, hinit⟩ := bind_eq_ok.mp hinit
  cases hinit
  unfold readUint16 at hread
  split at hread
  · cases hread
    rw [slice_encoding_pluginListLen hcheck hfits]
  · cases hread

end

/-! ### The round trip -/

/-- A cell can be formatted, and what is formatted can be parsed, to a cell of the same content. -/
def RoundTrips (o : ByteOrder) (c : CreateCell) : Prop :=
  ∃ cell c', createCellFormat o c = .ok cell ∧ createCellParse o cell = .ok c' ∧ c'.Same c

/-- **The round trip**, for every cell that passes the check and fits. -/
theorem roundTrips_of_unambiguous (o : ByteOrder) (c : CreateCell)
    (hcheck : checkCreateCell c false = true) (hfits : c.Fits) (h : c.Unambiguous) :
    RoundTrips o c := by
  obtain ⟨h₁, h₂⟩ := hfits.le_arraySize hcheck
  exact ⟨_, _, createCellFormatImpl_ok hcheck hfits, createCellParse_encoding hcheck hfits h,
    CreateCell.same_cleared h₁ h₂⟩

def ntorCell : CreateCell where
  cellType := cellCreate
  handshakeType := handshakeNtor
  handshakeLen := ntorOnionskinLen
  onionskin := Bytes.pad arraySize [7, 8, 9]
  pluginListLen := 3
  plugins := Bytes.pad arraySize [0x61, 0x62, 0x0a]

theorem roundTrips_ntorCell :
    checkCreateCell ntorCell false = true ∧ ntorCell.Fits ∧ ntorCell.Unambiguous ∧
      RoundTrips .little ntorCell := by
  have hcheck : checkCreateCell ntorCell false = true := by decide
  have hfits : ntorCell.Fits := show 16 + 84 + 2 + 3 ≤ 509 by decide
  have h : ntorCell.Unambiguous := ⟨fun _ ht => absurd ht (by decide), fun hc => absurd hc (by decide)⟩
  exact ⟨hcheck, hfits, h, roundTrips_of_unambiguous .little ntorCell hcheck hfits h⟩

/-- A `CREATE2` cell with a fast handshake and no plugins. -/
def create2FastCell : CreateCell where
  cellType := cellCreate2
  handshakeType := handshakeFast
  handshakeLen := createFastLen
  onionskin := Bytes.pad arraySize []
  pluginListLen := 0
  plugins := Bytes.pad arraySize []

/-- **A fast handshake in a `CREATE2` cell** is formatted, and refused by the parser. -/
theorem not_roundTrips_create2FastCell :
    checkCreateCell create2FastCell false = true ∧ create2FastCell.Fits ∧
      ¬RoundTrips .little create2FastCell := by
  refine ⟨by decide, show 4 + 20 + 2 + 0 ≤ 509 by decide, ?_⟩
  intro ⟨cell, c', hformat, hparse, _⟩
  have hfail : (createCellFormat .little create2FastCell >>= createCellParse .little) = fail := by
    decide +kernel
  rw [hformat, ok_bind, hparse] at hfail
  cases hfail

end TorEbpf.Or
