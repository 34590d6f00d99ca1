import TorEbpf.Lib.Bytes
import TorEbpf.Lib.Checked

/-!
# Create cells

`create_cell_t` of `onion.h` with its parser and formatter of `onion.c`, and the list of plugin names
of `plugin_exchange.c`.  The plugin list of a create cell follows the handshake: a 16-bit length in
host byte order and the names.

Every `memcpy`, `get_uint16` and `set_uint16` is a step that faults outside its source or destination;
`return -1` is a rejection.  The byte order of the host is a parameter.

* `createCellParse_eq` — the four formats differ only in where the handshake starts and how long it is
  (`layout`); what is done with it is one function.
* `parseSafe_iff` — when parsing a cell and listing its plugins stays inside the cell and the
  arrays.
-/

namespace TorEbpf.Or

open TorEbpf.Lib

/-! ### Constants -/

def cellPayloadSize : ℕ := 509

/-- The size of the `onionskin` and `plugins` arrays, `CELL_PAYLOAD_SIZE - 6`. -/
def arraySize : ℕ := cellPayloadSize - 6

def cellCreate : UInt8 := 1

def cellCreateFast : UInt8 := 5

def cellCreate2 : UInt8 := 10

/-- `ONION_HANDSHAKE_TYPE_TAP`. -/
def handshakeTap : UInt16 := 0

/-- `ONION_HANDSHAKE_TYPE_FAST`. -/
def handshakeFast : UInt16 := 1

/-- `ONION_HANDSHAKE_TYPE_NTOR`. -/
def handshakeNtor : UInt16 := 2

def tapOnionskinChallengeLen : UInt16 := 186

def createFastLen : UInt16 := 20

def ntorOnionskinLen : UInt16 := 84

/-- `NTOR_CREATE_MAGIC`: "ntorNTORntorNTOR". -/
def ntorCreateMagic : List UInt8 :=
  [0x6e, 0x74, 0x6f, 0x72, 0x4e, 0x54, 0x4f, 0x52, 0x6e, 0x74, 0x6f, 0x72, 0x4e, 0x54, 0x4f, 0x52]

/-! ### 16-bit fields -/

inductive ByteOrder where
  | little | big
  deriving DecidableEq, Repr

/-- The bytes that `set_uint16` stores. -/
def setUint16 (o : ByteOrder) (v : UInt16) : List UInt8 :=
  match o with
  | .little => leBytes 2 v.toNat
  | .big => beBytes 2 v.toNat

def getUint16 (o : ByteOrder) (l : List UInt8) : UInt16 :=
  match o with
  | .little => UInt16.ofNat (leNat l)
  | .big => UInt16.ofNat (beNat l)

/-- `ntohs` and `htons`. -/
def ntohs (o : ByteOrder) (v : UInt16) : UInt16 :=
  match o with
  | .little => UInt16.ofNat (v.toNat % 256 * 256 + v.toNat / 256)
  | .big => v

theorem setUint16_length (o : ByteOrder) (v : UInt16) : (setUint16 o v).length = 2 := by
  cases o
  · exact leBytes_length 2 _
  · exact beBytes_length 2 _

theorem getUint16_setUint16 (o : ByteOrder) (v : UInt16) : getUint16 o (setUint16 o v) = v := by
  have hv : v.toNat < 256 ^ 2 := v.toNat_lt
  cases o
  · show UInt16.ofNat (leNat (leBytes 2 v.toNat)) = v
    rw [leNat_leBytes hv, UInt16.ofNat_toNat]
  · show UInt16.ofNat (beNat (beBytes 2 v.toNat)) = v
    rw [beNat_beBytes hv, UInt16.ofNat_toNat]

theorem toNat_ntohs_little (v : UInt16) :
    (ntohs .little v).toNat = v.toNat % 256 * 256 + v.toNat / 256 := by
  have hv : v.toNat < 65536 := v.toNat_lt
  exact UInt16.toNat_ofNat_of_lt' (show _ < 65536 by omega)

theorem ntohs_ntohs (o : ByteOrder) (v : UInt16) : ntohs o (ntohs o v) = v := by
  cases o
  · have hv : v.toNat < 65536 := v.toNat_lt
    show UInt16.ofNat ((ntohs .little v).toNat % 256 * 256 + (ntohs .little v).toNat / 256) = v
    rw [toNat_ntohs_little, show (v.toNat % 256 * 256 + v.toNat / 256) % 256 * 256
      + (v.toNat % 256 * 256 + v.toNat / 256) / 256 = v.toNat from by omega, UInt16.ofNat_toNat]
  · rfl

theorem setUint16_little_ntohs (v : UInt16) :
    setUint16 .little (ntohs .little v) = setUint16 .big v := by
  have hv : v.toNat < 65536 := v.toNat_lt
  have hdiv : v.toNat / 256 < 256 := by omega
  have hlow : (v.toNat % 256 * 256 + v.toNat / 256) % 256 = v.toNat / 256 % 256 := by
    rw [Nat.add_comm, Nat.add_mul_mod_self_right]
  have hhigh : (v.toNat % 256 * 256 + v.toNat / 256) / 256 % 256 = v.toNat % 256 := by
    rw [Nat.add_comm, Nat.add_mul_div_right _ _ (by decide), Nat.div_eq_of_lt hdiv, Nat.zero_add,
      Nat.mod_mod]
  show leBytes 2 (ntohs .little v).toNat = (leBytes 2 v.toNat).reverse
  rw [toNat_ntohs_little]
  show [_, _] = [_, _]
  rw [hlow, hhigh]

/-- `htons` and `set_uint16` give network order on every host. -/
theorem setUint16_ntohs (o : ByteOrder) (v : UInt16) :
    setUint16 o (ntohs o v) = setUint16 .big v := by
  cases o
  · exact setUint16_little_ntohs v
  · rfl

/-- `get_uint16` and `ntohs` read it on every host. -/
theorem ntohs_getUint16_setUint16 (o o' : ByteOrder) (v : UInt16) :
    ntohs o' (getUint16 o' (setUint16 o (ntohs o v))) = v := by
  rw [setUint16_ntohs, ← setUint16_ntohs o', getUint16_setUint16, ntohs_ntohs]

/-- A host of the other order reads the two bytes the other way. -/
theorem getUint16_setUint16_of_ne {o o' : ByteOrder} (h : o ≠ o') (v : UInt16) :
    getUint16 o' (setUint16 o v) = ntohs .little v := by
  have hswap : ∀ v, setUint16 .big (ntohs .little v) = setUint16 .little v := by
    intro v
    rw [← setUint16_little_ntohs, ntohs_ntohs]
  cases o <;> cases o'
  · exact absurd rfl h
  · rw [← hswap, getUint16_setUint16]
  · rw [← setUint16_little_ntohs, getUint16_setUint16]
  · exact absurd rfl h

/-- A number that reads the same in both orders is stored the same in both. -/
theorem setUint16_of_ntohs_eq {v : UInt16} (h : ntohs .little v = v) (o o' : ByteOrder) :
    setUint16 o v = setUint16 o' v := by
  have hbig : setUint16 .little v = setUint16 .big v := by
    conv_lhs => rw [← h]
    exact setUint16_little_ntohs v
  cases o <;> cases o'
  · rfl
  · exact hbig
  · exact hbig.symm
  · rfl

/-! ### Cells -/

/-- `cell_t`: what matters of it here. -/
structure Cell where
  command : UInt8
  payload : Bytes cellPayloadSize
  deriving DecidableEq, Repr

structure CreateCell where
  cellType : UInt8
  handshakeType : UInt16
  handshakeLen : UInt16
  onionskin : Bytes arraySize
  pluginListLen : UInt16
  plugins : Bytes arraySize
  deriving DecidableEq, Repr

/-- The bytes of `onionskin` that are used. -/
def CreateCell.handshake (c : CreateCell) : List UInt8 := c.onionskin.val.take c.handshakeLen.toNat

/-- The bytes of `plugins` that are used. -/
def CreateCell.pluginList (c : CreateCell) : List UInt8 := c.plugins.val.take c.pluginListLen.toNat

/-- The accesses that must not happen, and the assertions that must hold. -/
inductive CellFault where
  | read | write | assertion | nullPointer
  deriving DecidableEq, Repr

/-- A step of the code: `return -1` carries no message. -/
abbrev Step (α : Type) := Checked Unit CellFault α

/-- `return -1`. -/
def fail {α : Type} : Step α := reject ()

/-- `memcpy` of `n` bytes from `off` of a buffer into a cleared array of `cap` bytes. -/
def memcpy (p : List UInt8) (off n cap : ℕ) : Step (Bytes cap) :=
  if off + n ≤ p.length then
    if n ≤ cap then pure (Bytes.pad cap (slice p off n)) else fault .write
  else fault .read

/-- `get_uint16` from a buffer. -/
def readUint16 (o : ByteOrder) (p : List UInt8) (off : ℕ) : Step UInt16 :=
  if off + 2 ≤ p.length then pure (getUint16 o (slice p off 2)) else fault .read

/-- `check_create_cell`; `false` is `-1`. -/
def checkCreateCell (c : CreateCell) (unknownOk : Bool) : Bool :=
  (if c.cellType = cellCreate then c.handshakeType = handshakeTap ∨ c.handshakeType = handshakeNtor
    else if c.cellType = cellCreateFast then c.handshakeType = handshakeFast
    else c.cellType = cellCreate2) &&
  if c.handshakeType = handshakeTap then decide (c.handshakeLen = tapOnionskinChallengeLen)
  else if c.handshakeType = handshakeFast then decide (c.handshakeLen = createFastLen)
  else if c.handshakeType = handshakeNtor then decide (c.handshakeLen = ntorOnionskinLen)
  else unknownOk

/-! ### Parsing -/

/-- `create_cell_init`, from `off` of a buffer. -/
def createCellInit (o : ByteOrder) (cellType : UInt8) (handshakeType handshakeLen : UInt16)
    (p : List UInt8) (off : ℕ) : Step CreateCell := do
  let onionskin ← memcpy p off handshakeLen.toNat arraySize
  let pluginListLen ← readUint16 o p (off + handshakeLen.toNat)
  let plugins ← memcpy p (off + handshakeLen.toNat + 2) pluginListLen.toNat arraySize
  return ⟨cellType, handshakeType, handshakeLen, onionskin, pluginListLen, plugins⟩

def parseCreate2Payload (o : ByteOrder) (p : List UInt8) (pLen : ℕ) : Step CreateCell :=
  if pLen < 4 then fail
  else do
    let handshakeType ← readUint16 o p 0
    let handshakeLen ← readUint16 o p 2
    let handshakeType := ntohs o handshakeType
    let handshakeLen := ntohs o handshakeLen
    if cellPayloadSize - 4 < handshakeLen.toNat ∨ pLen - 4 < handshakeLen.toNat then fail
    else if handshakeType = handshakeFast then fail
    else createCellInit o cellCreate2 handshakeType handshakeLen p 4

def createCellParse (o : ByteOrder) (cell : Cell) : Step CreateCell := do
  let c ←
    if cell.command = cellCreate then
      if slice cell.payload.val 0 16 = ntorCreateMagic then
        createCellInit o cellCreate handshakeNtor ntorOnionskinLen cell.payload.val 16
      else
        createCellInit o cellCreate handshakeTap tapOnionskinChallengeLen cell.payload.val 0
    else if cell.command = cellCreateFast then
      createCellInit o cellCreateFast handshakeFast createFastLen cell.payload.val 0
    else if cell.command = cellCreate2 then
      parseCreate2Payload o cell.payload.val cellPayloadSize
    else fail
  if checkCreateCell c false then return c else fail

/-! ### The list of plugins -/

def pathMax : ℕ := 4096

/-- `memcpy` of a name into the cleared `plugin_name`, and `smartlist_add_strdup`. -/
def addPluginName (list : List (List UInt8)) (name : List UInt8) : Step (List (List UInt8)) :=
  if name.length < pathMax then pure (list ++ [name]) else fault .write

/-- The loop of `smart_list_plugins_in_payload`: `cur` are the bytes since `start_idx`. -/
def scanPlugins : List UInt8 → List UInt8 → List (List UInt8) → Step (List (List UInt8))
  | [], _, _ => fault .read
  | b :: rest, cur, list =>
      if b = 0 then if cur = [] then pure list else addPluginName list cur
      else if b = 0x0a then addPluginName list cur >>= scanPlugins rest []
      else scanPlugins rest (cur ++ [b]) list

/-- `smart_list_plugins_in_payload`: names separated by newlines, up to a `NUL`. -/
def smartListPluginsInPayload (payload : List UInt8) : Step (List (List UInt8)) :=
  scanPlugins payload [] []

/-! ### One parser for the four formats -/

/-- Where a cell has its handshake. -/
structure Layout where
  cellType : UInt8
  handshakeType : UInt16
  handshakeLen : UInt16
  off : ℕ

/-- The layout of a cell; `none` if it is refused before anything is copied. -/
def layout (o : ByteOrder) (cell : Cell) : Option Layout :=
  let p := cell.payload.val
  if cell.command = cellCreate then
    if slice p 0 16 = ntorCreateMagic then some ⟨cellCreate, handshakeNtor, ntorOnionskinLen, 16⟩
    else some ⟨cellCreate, handshakeTap, tapOnionskinChallengeLen, 0⟩
  else if cell.command = cellCreateFast then some ⟨cellCreateFast, handshakeFast, createFastLen, 0⟩
  else if cell.command = cellCreate2 then
    let handshakeType := ntohs o (getUint16 o (slice p 0 2))
    let handshakeLen := ntohs o (getUint16 o (slice p 2 2))
    if cellPayloadSize - 4 < handshakeLen.toNat ∨ handshakeType = handshakeFast then none
    else some ⟨cellCreate2, handshakeType, handshakeLen, 4⟩
  else none

/-- `plugin_list_len`, as the two bytes behind the handshake say. -/
def Layout.pluginListLen (l : Layout) (o : ByteOrder) (p : List UInt8) : UInt16 :=
  getUint16 o (slice p (l.off + l.handshakeLen.toNat) 2)

/-- The handshake, the length of the plugin list and the list fit the payload. -/
def Layout.Fits (l : Layout) (o : ByteOrder) (p : List UInt8) : Prop :=
  l.off + l.handshakeLen.toNat + 2 + (l.pluginListLen o p).toNat ≤ cellPayloadSize

theorem readUint16_of_le {o : ByteOrder} {p : List UInt8} {off : ℕ} (h : off + 2 ≤ p.length) :
    readUint16 o p off = .ok (getUint16 o (slice p off 2)) := by
  rw [readUint16, if_pos h]
  rfl

/-- **The four formats.** -/
theorem createCellParse_eq (o : ByteOrder) (cell : Cell) :
    createCellParse o cell =
      match layout o cell with
      | none => fail
      | some l =>
          createCellInit o l.cellType l.handshakeType l.handshakeLen cell.payload.val l.off >>=
            fun c => if checkCreateCell c false then pure c else fail := by
  have hlen : cell.payload.val.length = 509 := cell.payload.length_eq
  unfold createCellParse layout
  by_cases h₁ : cell.command = cellCreate
  · simp only [h₁, if_true]
    by_cases hm : slice cell.payload.val 0 16 = ntorCreateMagic
    · simp only [hm, if_true]
    · simp only [hm, if_false]
  · simp only [h₁, if_false]
    by_cases h₂ : cell.command = cellCreateFast
    · simp only [h₂, if_true]
    · simp only [h₂, if_false]
      by_cases h₃ : cell.command = cellCreate2
      · simp only [h₃, if_true, parseCreate2Payload]
        rw [if_neg (by decide), readUint16_of_le (by omega), ok_bind, readUint16_of_le (by omega),
          ok_bind]
        by_cases h₄ : cellPayloadSize - 4
            < (ntohs o (getUint16 o (slice cell.payload.val 2 2))).toNat
        · rw [if_pos (.inl h₄), if_pos (.inl h₄)]
          rfl
        · by_cases h₅ : ntohs o (getUint16 o (slice cell.payload.val 0 2)) = handshakeFast
          · rw [if_neg (by omega), if_pos h₅, if_pos (.inr h₅)]
            rfl
          · rw [if_neg (by omega), if_neg h₅, if_neg (by simp only [h₄, h₅, or_self, not_false_eq_true])]
      · simp only [h₃, if_false]
        rfl

/-- A handshake starts behind a header, or has a fixed length. -/
theorem layout_cases {o : ByteOrder} {cell : Cell} {l : Layout} (h : layout o cell = some l) :
    4 ≤ l.off ∨ (20 ≤ l.handshakeLen.toNat ∧ l.handshakeLen.toNat ≤ 186) := by
  unfold layout at h
  dsimp only at h
  repeat' split at h
  all_goals cases h
  · exact .inl (show 4 ≤ 16 by decide)
  · exact .inr (show 20 ≤ 186 ∧ 186 ≤ 186 by decide)
  · exact .inr (show 20 ≤ 20 ∧ 20 ≤ 186 by decide)
  · exact .inl (Nat.le_refl 4)

/-! ### When parsing stays inside -/

theorem memcpy_of_le {p : List UInt8} {off n cap : ℕ} (h₁ : off + n ≤ p.length) (h₂ : n ≤ cap) :
    memcpy p off n cap = .ok (Bytes.pad cap (slice p off n)) := by
  rw [memcpy, if_pos h₁, if_pos h₂]
  rfl

theorem noFault_memcpy {p : List UInt8} {off n cap : ℕ} :
    NoFault (memcpy p off n cap) ↔ off + n ≤ p.length ∧ n ≤ cap := by
  unfold memcpy
  by_cases h₁ : off + n ≤ p.length
  · by_cases h₂ : n ≤ cap
    · simp [h₁, h₂]
    · simp [h₁, h₂]
  · simp [h₁]

theorem noFault_readUint16 {o : ByteOrder} {p : List UInt8} {off : ℕ} :
    NoFault (readUint16 o p off) ↔ off + 2 ≤ p.length := by
  unfold readUint16
  split <;> simp [*]

/-- `create_cell_init` stays inside iff both copies do. -/
theorem noFault_createCellInit {o : ByteOrder} {cellType : UInt8} {handshakeType : UInt16}
    {handshakeLen : UInt16} {p : List UInt8} {off : ℕ} :
    NoFault (createCellInit o cellType handshakeType handshakeLen p off) ↔
      handshakeLen.toNat ≤ arraySize ∧
      (getUint16 o (slice p (off + handshakeLen.toNat) 2)).toNat ≤ arraySize ∧
      off + handshakeLen.toNat + 2
        + (getUint16 o (slice p (off + handshakeLen.toNat) 2)).toNat ≤ p.length := by
  unfold createCellInit
  simp only [noFault_bind, noFault_memcpy, noFault_readUint16, noFault_pure, implies_true, and_true]
  constructor
  · rintro ⟨⟨h₀, h₁⟩, h⟩
    obtain ⟨h₂, h⟩ := h _ (memcpy_of_le h₀ h₁)
    obtain ⟨h₃, h₄⟩ := h _ (readUint16_of_le h₂)
    exact ⟨h₁, h₄, h₃⟩
  · rintro ⟨h₁, h₂, h₃⟩
    refine ⟨⟨by omega, h₁⟩, fun _ _ => ⟨by omega, fun n hn => ?_⟩⟩
    rw [readUint16_of_le (by omega)] at hn
    cases hn
    exact ⟨h₃, h₂⟩

theorem createCellInit_ok {o : ByteOrder} {cellType : UInt8} {handshakeType handshakeLen : UInt16}
    {p : List UInt8} {off : ℕ}
    (h₁ : handshakeLen.toNat ≤ arraySize)
    (h₂ : (getUint16 o (slice p (off + handshakeLen.toNat) 2)).toNat ≤ arraySize)
    (h₃ : off + handshakeLen.toNat + 2
      + (getUint16 o (slice p (off + handshakeLen.toNat) 2)).toNat ≤ p.length) :
    createCellInit o cellType handshakeType handshakeLen p off = .ok
      { cellType, handshakeType, handshakeLen
        onionskin := Bytes.pad arraySize (slice p off handshakeLen.toNat)
        pluginListLen := getUint16 o (slice p (off + handshakeLen.toNat) 2)
        plugins := Bytes.pad arraySize (slice p (off + handshakeLen.toNat + 2)
          (getUint16 o (slice p (off + handshakeLen.toNat) 2)).toNat) } := by
  unfold createCellInit
  rw [memcpy_of_le (by omega) h₁, ok_bind, readUint16_of_le (by omega), ok_bind,
    memcpy_of_le h₃ h₂]
  rfl

theorem addPluginName_of_lt {list : List (List UInt8)} {name : List UInt8} (h : name.length < pathMax) :
    addPluginName list name = .ok (list ++ [name]) := if_pos h

theorem noFault_scanPlugins (payload : List UInt8) :
    ∀ cur list, cur.length + payload.length < pathMax →
      (NoFault (scanPlugins payload cur list) ↔ 0 ∈ payload) := by
  induction payload with
  | nil =>
    intro cur list _
    simp [scanPlugins]
  | cons b rest ih =>
    intro cur list hlen
    rw [List.length_cons] at hlen
    rw [scanPlugins, addPluginName_of_lt (by omega), ok_bind]
    by_cases h₀ : b = 0
    · rw [if_pos h₀]
      split <;> simp [h₀]
    · rw [if_neg h₀]
      have hmem : 0 ∈ b :: rest ↔ 0 ∈ rest := by
        rw [List.mem_cons]
        exact ⟨fun h => h.resolve_left fun hb => h₀ hb.symm, .inr⟩
      split
      · rw [ih _ _ (by rw [List.length_nil]; omega), hmem]
      · rw [ih _ _ (by rw [List.length_append, List.length_singleton]; omega), hmem]

/-- The copies of a cell of one of the four formats stay inside iff the cell fits. -/
theorem noFault_init_iff_fits {o : ByteOrder} {cell : Cell} {l : Layout}
    (hl : layout o cell = some l) :
    NoFault (createCellInit o l.cellType l.handshakeType l.handshakeLen cell.payload.val l.off) ↔
      l.Fits o cell.payload.val := by
  have hlen : cell.payload.val.length = 509 := cell.payload.length_eq
  have hcases := layout_cases hl
  have harray : arraySize = 503 := rfl
  rw [noFault_createCellInit, hlen, harray]
  unfold Layout.Fits Layout.pluginListLen cellPayloadSize
  omega

theorem handshakeLen_of_check {c : CreateCell} (h : checkCreateCell c false = true) :
    20 ≤ c.handshakeLen.toNat := by
  unfold checkCreateCell at h
  rw [Bool.and_eq_true] at h
  obtain ⟨_, h⟩ := h
  split at h
  · rw [of_decide_eq_true h]
    decide
  · split at h
    · rw [of_decide_eq_true h]
      decide
    · split at h
      · rw [of_decide_eq_true h]
        decide
      · cases h

/-- The list of a cell that fits ends at a zero that the copy left behind it. -/
theorem zero_mem_plugins {o : ByteOrder} {cell : Cell} {l : Layout} {c : CreateCell}
    (hl : layout o cell = some l) (hfit : l.Fits o cell.payload.val)
    (hparse : createCellParse o cell = .ok c) : 0 ∈ c.plugins.val := by
  have hlen : cell.payload.val.length = 509 := cell.payload.length_eq
  rw [createCellParse_eq, hl] at hparse
  obtain ⟨c', hinit, hcheck⟩ := bind_eq_ok.mp hparse
  split at hcheck
  · rename_i hok
    cases hcheck
    obtain ⟨h₁, h₂, h₃⟩ := noFault_createCellInit.mp ((noFault_init_iff_fits hl).mpr hfit)
    rw [createCellInit_ok h₁ h₂ h₃] at hinit
    cases hinit
    have hhl := handshakeLen_of_check hok
    rw [hlen] at h₃
    dsimp only at hhl
    apply Bytes.zero_mem_pad
    rw [slice_length (by omega)]
    show _ < 503
    omega
  · cases hcheck

/-- Parsing a cell of one of the four formats stays inside iff the cell fits. -/
theorem noFault_createCellParse {o : ByteOrder} {cell : Cell} {l : Layout}
    (hl : layout o cell = some l) :
    NoFault (createCellParse o cell) ↔ l.Fits o cell.payload.val := by
  rw [createCellParse_eq, hl, ← noFault_init_iff_fits hl, noFault_bind]
  refine and_iff_left fun c _ => ?_
  split
  · exact noFault_pure c
  · exact noFault_reject ()

/-- Parsing a cell and listing its plugins stays inside the payload and the two arrays, and a cell
that does not fit is refused. -/
def ParseSafe (o : ByteOrder) (cell : Cell) : Prop :=
  NoFault (createCellParse o cell >>= fun c => smartListPluginsInPayload c.plugins.val) ∧
    ∀ l, layout o cell = some l → ¬l.Fits o cell.payload.val → createCellParse o cell = fail

/-- **When parsing is safe**: exactly for the cells that are refused before anything is copied and for
those that fit. -/
theorem parseSafe_iff (o : ByteOrder) (cell : Cell) :
    ParseSafe o cell ↔ ∀ l, layout o cell = some l → l.Fits o cell.payload.val := by
  constructor
  · intro ⟨hnf, _⟩ l hl
    exact (noFault_createCellParse hl).mp (noFault_bind.mp hnf).1
  · intro h
    refine ⟨?_, fun l hl hn => absurd (h l hl) hn⟩
    cases hl : layout o cell with
    | none =>
      rw [createCellParse_eq, hl]
      exact noFault_reject ()
    | some l =>
      have hfit := h l hl
      refine noFault_bind.mpr ⟨(noFault_createCellParse hl).mpr hfit, fun c hc => ?_⟩
      have hlen : ([] : List UInt8).length + c.plugins.val.length < pathMax := by
        rw [c.plugins.length_eq]
        decide
      rw [smartListPluginsInPayload, noFault_scanPlugins _ _ _ hlen]
      exact zero_mem_plugins hl hfit hc

/-- A `CREATE_FAST` cell that announces 65535 bytes of plugin names. -/
def fastCell : Cell :=
  ⟨cellCreateFast, Bytes.pad cellPayloadSize (List.replicate 20 0 ++ [0xff, 0xff])⟩

/-- **A plugin list that does not fit is copied**, from beyond the payload. -/
theorem not_parseSafe_fastCell : ¬ParseSafe .little fastCell := by
  intro h
  have hfault : fault? (createCellParse .little fastCell >>= fun c =>
      smartListPluginsInPayload c.plugins.val) = some .read := by
    decide +kernel
  rw [noFault_iff_fault?.mp h.1] at hfault
  cases hfault

end TorEbpf.Or
