import Mathlib
import TorEbpf.Lib.Events
import TorEbpf.Lib.Layers

/-!
# Relay cells on a circuit

A client sends relay cells through a line of relays (`relay_crypto.c`).  Each relay shares a cipher and a
running digest with the client, for each direction; a cell to the client passes through all the nearer
relays, and each of them adds its layer.  The ciphers and the digests of the two ends must go through the
same states, and a hop knows a cell for itself by its digest only.

* `cells` — the layer of a relay, for `Lib.Layer`;
* `encrypt_spec`, `relayOut_spec`, `originate_spec`, `relayIn_spec`, `decryptIn_spec` — what the code does is
  what the layers say, as long as no hop takes a cell for its own that is for another;
* `delivers_of_run` — in every such run each end gets what the other has sent to it, in order.
-/

namespace TorEbpf.Or.RelayCrypto

open TorEbpf.Lib

/-! ### Cells -/

def cellPayloadSize : ℕ := 509

abbrev Payload := Fin cellPayloadSize → UInt8

structure RelayHeader where
  command : UInt8
  recognized : UInt16
  streamId : UInt16
  integrity : Fin 4 → UInt8
  length : UInt16

/-- `memcpy(rh.integrity, ..)`. -/
def RelayHeader.setIntegrity (rh : RelayHeader) (integrity : Fin 4 → UInt8) : RelayHeader :=
  { rh with integrity := integrity }

/-- `ntohs(get_uint16(..))`. -/
def getUint16 (hi lo : UInt8) : UInt16 := UInt16.ofNat (hi.toNat * 256 + lo.toNat)

/-- The bytes that `set_uint16(.., htons(..))` writes. -/
def uint16Hi (x : UInt16) : UInt8 := UInt8.ofNat (x.toNat / 256)

def uint16Lo (x : UInt16) : UInt8 := UInt8.ofNat (x.toNat % 256)

def Payload.byte (payload : Payload) (i : ℕ) : UInt8 :=
  if h : i < cellPayloadSize then payload ⟨i, h⟩ else 0

def relayHeaderUnpack (src : Payload) : RelayHeader where
  command := src.byte 0
  recognized := getUint16 (src.byte 1) (src.byte 2)
  streamId := getUint16 (src.byte 3) (src.byte 4)
  integrity i := src.byte (5 + i)
  length := getUint16 (src.byte 9) (src.byte 10)

/-- What `relay_header_pack` writes. -/
def RelayHeader.bytes (rh : RelayHeader) : List UInt8 :=
  [rh.command, uint16Hi rh.recognized, uint16Lo rh.recognized, uint16Hi rh.streamId, uint16Lo rh.streamId,
    rh.integrity 0, rh.integrity 1, rh.integrity 2, rh.integrity 3, uint16Hi rh.length, uint16Lo rh.length]

def relayHeaderPack (dest : Payload) (src : RelayHeader) : Payload := fun i =>
  if i.val < 11 then src.bytes.getD i 0 else dest i

/-! ### Ciphers and digests -/

/-- `crypto_cipher_t`: a stream cipher, and how much of the stream has been used. -/
structure Cipher where
  keystream : ℕ → UInt8
  pos : ℕ

/-- The cipher when a payload has been through it. -/
def Cipher.advance (cipher : Cipher) : Cipher := { cipher with pos := cipher.pos + cellPayloadSize }

def relayCryptOnePayload (cipher : Cipher) (payload : Payload) : Payload × Cipher :=
  (fun i => payload i ^^^ cipher.keystream (cipher.pos + i), cipher.advance)

/-- `crypto_digest_t`: what has been added. -/
abbrev Digest := List UInt8

/-- `crypto_digest_add_bytes` of a payload. -/
def Digest.addPayload (digest : Digest) (payload : Payload) : Digest := digest ++ List.ofFn payload

variable (hash : List UInt8 → List UInt8)

/-- `crypto_digest_get_digest`, of four bytes. -/
def Digest.integrity (digest : Digest) : Fin 4 → UInt8 := fun i => (hash digest).getD i 0

def relaySetDigest (digest : Digest) (cell : Payload) : Digest × Payload :=
  let digest := digest.addPayload cell
  (digest, relayHeaderPack cell ((relayHeaderUnpack cell).setIntegrity (digest.integrity hash)))

def relayDigestMatches (digest : Digest) (cell : Payload) : Bool × Digest × Payload :=
  let rh := relayHeaderUnpack cell
  let zeroed := relayHeaderPack cell (rh.setIntegrity fun _ => 0)
  let added := digest.addPayload zeroed
  if added.integrity hash ≠ rh.integrity then
    (false, digest, relayHeaderPack zeroed (rh.setIntegrity rh.integrity))
  else (true, added, zeroed)

/-- The check of a cell that has been decrypted: `recognized`, and then the digest. -/
def recognize (digest : Digest) (cell : Payload) : Bool × Digest × Payload :=
  if (relayHeaderUnpack cell).recognized = 0 then relayDigestMatches hash digest cell
  else (false, digest, cell)

/-- `relay_crypto_t`. -/
structure Crypto where
  fCrypto : Cipher
  bCrypto : Cipher
  fDigest : Digest
  bDigest : Digest

/-- `relay_crypto_init`, where the handshake is not one of an onion service; `newCipher` is the key stream
of a key. -/
def relayCryptoInit (newCipher : List UInt8 → ℕ → UInt8) (keyData : List UInt8) : Crypto where
  fDigest := keyData.take 20
  bDigest := (keyData.drop 20).take 20
  fCrypto := ⟨newCipher ((keyData.drop 40).take 16), 0⟩
  bCrypto := ⟨newCipher ((keyData.drop 56).take 16), 0⟩

/-! ### The circuit -/

/-- A hop: the client's `crypt_path_t`, the relay's circuit, the cells in flight on the channel on the near
side, and what each end has sent to the other and got from it. -/
structure CircuitHop where
  keyData : List UInt8
  cpath : Crypto
  relay : Crypto
  outQueue : List (Sent Payload Payload)
  inQueue : List (Sent Payload Payload)
  outSent : List Payload
  outGot : List Payload
  inSent : List Payload
  inGot : List Payload

/-- `relay_encrypt_cell_outbound`: the digest of the last hop, and then the layers from there to the first
hop. -/
def relayEncryptCellOutbound (cell : Payload) : List CircuitHop → ℕ → Option (List CircuitHop × Payload)
  | [], _ => none
  | h :: hs, 0 =>
      let (fDigest, stamped) := relaySetDigest hash h.cpath.fDigest cell
      let (crypted, fCrypto) := relayCryptOnePayload h.cpath.fCrypto stamped
      some ({ h with
        cpath := { h.cpath with fCrypto := fCrypto, fDigest := fDigest }
        outSent := h.outSent ++ [cell] } :: hs, crypted)
  | h :: hs, n + 1 =>
      (relayEncryptCellOutbound cell hs n).map fun r =>
        let (crypted, fCrypto) := relayCryptOnePayload h.cpath.fCrypto r.2
        ({ h with cpath := { h.cpath with fCrypto := fCrypto } } :: r.1, crypted)

def appendOut (x : Sent Payload Payload) : List CircuitHop → List CircuitHop
  | [] => []
  | h :: hs => { h with outQueue := h.outQueue ++ [x] } :: hs

/-- `relay_decrypt_cell`, at a relay, of a cell from the client. -/
def relayDecryptCellOut (crypto : Crypto) (cell : Payload) : Bool × Crypto × Payload :=
  let (cell, fCrypto) := relayCryptOnePayload crypto.fCrypto cell
  let (recognized, fDigest, cell) := recognize hash crypto.fDigest cell
  (recognized, { crypto with fCrypto := fCrypto, fDigest := fDigest }, cell)

/-- A relay handles the first cell from the client: it is delivered, or passed on; without a next hop the
circuit is closed. -/
def relayOut : ℕ → List CircuitHop → Option (List CircuitHop)
  | _, [] => some []
  | n + 1, h :: hs => (relayOut n hs).map (h :: ·)
  | 0, h :: hs =>
      match h.outQueue with
      | [] => some (h :: hs)
      | x :: queue =>
          let (recognized, relay, cell) := relayDecryptCellOut hash h.relay x.message
          if recognized then
            some ({ h with relay := relay, outQueue := queue, outGot := h.outGot ++ [cell] } :: hs)
          else if hs.isEmpty then none
          else some ({ h with relay := relay, outQueue := queue } ::
            appendOut ⟨x.hop - 1, x.plain, cell⟩ hs)

/-- `relay_encrypt_cell_inbound`: a relay sends a cell to the client. -/
def originate (cell : Payload) : ℕ → List CircuitHop → List CircuitHop
  | _, [] => []
  | n + 1, h :: hs => h :: originate cell n hs
  | 0, h :: hs =>
      let (bDigest, stamped) := relaySetDigest hash h.relay.bDigest cell
      let (crypted, bCrypto) := relayCryptOnePayload h.relay.bCrypto stamped
      { h with
        relay := { h.relay with bCrypto := bCrypto, bDigest := bDigest }
        inQueue := h.inQueue ++ [⟨0, cell, crypted⟩]
        inSent := h.inSent ++ [cell] } :: hs

def takeIn : List CircuitHop → Option (Sent Payload Payload × List CircuitHop)
  | [] => none
  | h :: hs =>
      match h.inQueue with
      | [] => none
      | x :: queue => some (x, { h with inQueue := queue } :: hs)

/-- `relay_decrypt_cell`, at a relay, of the first cell from the next hop. -/
def relayIn : ℕ → List CircuitHop → List CircuitHop
  | _, [] => []
  | n + 1, h :: hs => h :: relayIn n hs
  | 0, h :: hs =>
      match takeIn hs with
      | none => h :: hs
      | some (x, hs) =>
          let (crypted, bCrypto) := relayCryptOnePayload h.relay.bCrypto x.message
          { h with
            relay := { h.relay with bCrypto := bCrypto }
            inQueue := h.inQueue ++ [⟨x.hop + 1, x.plain, crypted⟩] } :: hs

/-- `relay_decrypt_cell`, at the client: the hops' layers are taken off up to the hop that recognizes the
cell, which comes out too. -/
def relayDecryptCellIn : List CircuitHop → Payload → Option (List CircuitHop × ℕ)
  | [], _ => none
  | h :: hs, cell =>
      let (cell, bCrypto) := relayCryptOnePayload h.cpath.bCrypto cell
      let (recognized, bDigest, cell) := recognize hash h.cpath.bDigest cell
      let h := { h with cpath := { h.cpath with bCrypto := bCrypto, bDigest := bDigest } }
      if recognized then some ({ h with inGot := h.inGot ++ [cell] } :: hs, 0)
      else (relayDecryptCellIn hs cell).map fun r => (h :: r.1, r.2 + 1)

/-- The client handles the first cell of its channel; a cell that no hop recognizes closes the circuit. -/
def clientIn (hs : List CircuitHop) : Option (List CircuitHop) :=
  match takeIn hs with
  | none => some hs
  | some (x, hs) => (relayDecryptCellIn hash hs x.message).map (·.1)

/-- What can happen: the circuit is extended by a hop, the client or a relay sends a cell, or one arrives. -/
inductive Event where
  | extend (keyData : List UInt8)
  | send (n : ℕ) (cell : Payload)
  | relayOut (n : ℕ)
  | originate (n : ℕ) (cell : Payload)
  | relayIn (n : ℕ)
  | clientIn

variable (newCipher : List UInt8 → ℕ → UInt8)

def newHop (keyData : List UInt8) : CircuitHop where
  keyData := keyData
  cpath := relayCryptoInit newCipher keyData
  relay := relayCryptoInit newCipher keyData
  outQueue := []
  inQueue := []
  outSent := []
  outGot := []
  inSent := []
  inGot := []

/-- A step; `none` closes the circuit. -/
def step (hs : List CircuitHop) : Event → Option (List CircuitHop)
  | .extend keyData => some (hs ++ [newHop newCipher keyData])
  | .send n cell =>
      match relayEncryptCellOutbound hash cell hs n with
      | some (hs, crypted) => some (appendOut ⟨n, cell, crypted⟩ hs)
      | none => some hs
  | .relayOut n => relayOut hash n hs
  | .originate n cell => some (originate hash cell n hs)
  | .relayIn n => some (relayIn n hs)
  | .clientIn => clientIn hash hs

/-- The integrity field and the recognized field of a cell that is to be encrypted are zero. -/
def Fresh (cell : Payload) : Prop :=
  (relayHeaderUnpack cell).recognized = 0 ∧ (relayHeaderUnpack cell).integrity = fun _ => 0

/-- The callers zero the fields, and no hop takes a cell for its own that is for another: the digests
match by accident only, with a probability that the four bytes and `recognized` make small. -/
def Event.Honest (hs : List CircuitHop) : Event → Prop
  | .extend _ => True
  | .send _ cell => Fresh cell
  | .relayOut n => ∀ h x queue, hs[n]? = some h → h.outQueue = x :: queue → x.hop ≠ 0 →
      (relayDecryptCellOut hash h.relay x.message).1 = false
  | .originate _ cell => Fresh cell
  | .relayIn _ => True
  | .clientIn => ∀ x hs' r, takeIn hs = some (x, hs') → relayDecryptCellIn hash hs' x.message = some r →
      x.hop ≤ r.2

def running (seed : Digest) (cells : List Payload) : Digest := seed ++ (cells.map List.ofFn).flatten

/-- The digests of a hop count the cells that were sent and got, from the key material on. -/
structure Digests (h : CircuitHop) : Prop where
  outSent : h.cpath.fDigest = running (relayCryptoInit newCipher h.keyData).fDigest h.outSent
  outGot : h.relay.fDigest = running (relayCryptoInit newCipher h.keyData).fDigest h.outGot
  inSent : h.relay.bDigest = running (relayCryptoInit newCipher h.keyData).bDigest h.inSent
  inGot : h.cpath.bDigest = running (relayCryptoInit newCipher h.keyData).bDigest h.inGot

/-- **What a circuit is for**: each end has got a part of what the other has sent to it, from the beginning
and in order, and its digest is the one that the other end had then; where no cell is in flight it has got
all of it, and the two ends are in the same state. -/
structure Delivers (hs : List CircuitHop) : Prop where
  out : ∀ h ∈ hs, h.outGot <+: h.outSent
  back : ∀ h ∈ hs, h.inGot <+: h.inSent
  digests : ∀ h ∈ hs, Digests newCipher h
  quiet : (∀ h ∈ hs, h.outQueue = [] ∧ h.inQueue = []) →
    ∀ h ∈ hs, h.outGot = h.outSent ∧ h.inGot = h.inSent ∧ h.relay = h.cpath

/-! ### One cell -/

@[simp] theorem getUint16_hi_lo (x : UInt16) : getUint16 (uint16Hi x) (uint16Lo x) = x := by
  have hlt := x.toNat_lt
  apply UInt16.toNat_inj.mp
  rw [getUint16, uint16Hi, uint16Lo, UInt8.toNat_ofNat', UInt8.toNat_ofNat', UInt16.toNat_ofNat']
  omega

@[simp] theorem uint16Hi_getUint16 (hi lo : UInt8) : uint16Hi (getUint16 hi lo) = hi := by
  have hhi := hi.toNat_lt
  have hlo := lo.toNat_lt
  apply UInt8.toNat_inj.mp
  rw [uint16Hi, getUint16, UInt8.toNat_ofNat', UInt16.toNat_ofNat']
  omega

@[simp] theorem uint16Lo_getUint16 (hi lo : UInt8) : uint16Lo (getUint16 hi lo) = lo := by
  have hhi := hi.toNat_lt
  have hlo := lo.toNat_lt
  apply UInt8.toNat_inj.mp
  rw [uint16Lo, getUint16, UInt8.toNat_ofNat', UInt16.toNat_ofNat']
  omega

theorem byte_pack (dest : Payload) (rh : RelayHeader) {i : ℕ} (hi : i < 11) :
    (relayHeaderPack dest rh).byte i = rh.bytes.getD i 0 := by
  rw [Payload.byte, dif_pos (hi.trans (by decide)), relayHeaderPack, if_pos hi]

@[simp] theorem unpack_pack (dest : Payload) (rh : RelayHeader) :
    relayHeaderUnpack (relayHeaderPack dest rh) = rh := by
  obtain ⟨command, recognized, streamId, integrity, length⟩ := rh
  have hintegrity : ∀ i : Fin 4,
      (relayHeaderPack dest ⟨command, recognized, streamId, integrity, length⟩).byte (5 + i) = integrity i := by
    intro i
    fin_cases i <;> exact byte_pack dest _ (by decide)
  rw [relayHeaderUnpack]
  simp only [hintegrity, byte_pack dest _ (show 0 < 11 by decide), byte_pack dest _ (show 1 < 11 by decide),
    byte_pack dest _ (show 2 < 11 by decide), byte_pack dest _ (show 3 < 11 by decide),
    byte_pack dest _ (show 4 < 11 by decide), byte_pack dest _ (show 9 < 11 by decide),
    byte_pack dest _ (show 10 < 11 by decide)]
  simp [RelayHeader.bytes]

/-- A header that is read and written back changes nothing. -/
@[simp] theorem pack_unpack (cell : Payload) : relayHeaderPack cell (relayHeaderUnpack cell) = cell := by
  funext i
  rw [relayHeaderPack]
  split
  · rename_i hi
    have hbyte : cell i = cell.byte i := by
      rw [Payload.byte, dif_pos i.isLt]
    rw [hbyte]
    generalize i.val = n at hi
    interval_cases n <;> simp [RelayHeader.bytes, relayHeaderUnpack]
  · rfl

@[simp] theorem pack_pack (dest : Payload) (rh rh' : RelayHeader) :
    relayHeaderPack (relayHeaderPack dest rh) rh' = relayHeaderPack dest rh' := by
  funext i
  by_cases hi : i.val < 11 <;> simp [relayHeaderPack, hi]

/-- **A stamped cell is recognized**, by a digest in the state that it was stamped in. -/
theorem recognize_stamped {cell : Payload} (hcell : Fresh cell) (digest : Digest) :
    recognize hash digest (relaySetDigest hash digest cell).2 = (true, digest.addPayload cell, cell) := by
  have hzeroed : relayHeaderPack cell ((relayHeaderUnpack cell).setIntegrity fun _ => 0) = cell := by
    rw [← hcell.2]
    exact pack_unpack cell
  have hrecognized : ((relayHeaderUnpack cell).setIntegrity
      (Digest.integrity hash (digest.addPayload cell))).recognized = 0 := hcell.1
  rw [recognize, relaySetDigest, unpack_pack, if_pos hrecognized, relayDigestMatches, unpack_pack, pack_pack]
  show (if Digest.integrity hash (digest.addPayload (relayHeaderPack cell
      ((relayHeaderUnpack cell).setIntegrity fun _ => 0))) ≠ Digest.integrity hash (digest.addPayload cell) then _
    else (true, digest.addPayload (relayHeaderPack cell ((relayHeaderUnpack cell).setIntegrity fun _ => 0)),
      relayHeaderPack cell ((relayHeaderUnpack cell).setIntegrity fun _ => 0))) = _
  rw [hzeroed, if_neg (not_not_intro rfl)]

theorem recognize_false {digest : Digest} {cell : Payload} (h : (recognize hash digest cell).1 = false) :
    recognize hash digest cell = (false, digest, cell) := by
  by_cases hrecognized : (relayHeaderUnpack cell).recognized = 0
  · rw [recognize, if_pos hrecognized] at h ⊢
    rw [relayDigestMatches] at h ⊢
    split at h
    · rename_i hne
      rw [if_pos hne, pack_pack]
      exact congrArg (fun cell => (false, digest, cell)) (pack_unpack cell)
    · cases h
  · rw [recognize, if_neg hrecognized]

/-- **The layer of a hop.** -/
def cells : Layer (Cipher × Digest) Payload Payload where
  crypt s cell := (relayCryptOnePayload s.1 cell).1
  passed s := (s.1.advance, s.2)
  stamp s cell := (relaySetDigest hash s.2 cell).2
  own s cell := (s.1.advance, s.2.addPayload cell)
  crypt_crypt s cell := by
    funext i
    show cell i ^^^ s.1.keystream (s.1.pos + i) ^^^ s.1.keystream (s.1.pos + i) = cell i
    rw [UInt8.xor_assoc, UInt8.xor_self, UInt8.xor_zero]

/-! ### The invariant -/

/-- The hop, as a layer of the cells from the client. -/
def CircuitHop.out (h : CircuitHop) : Hop (Cipher × Digest) Payload Payload :=
  ⟨(h.relay.fCrypto, h.relay.fDigest), (h.cpath.fCrypto, h.cpath.fDigest), h.outQueue, h.outSent, h.outGot⟩

/-- The hop, as a layer of the cells to the client. -/
def CircuitHop.back (h : CircuitHop) : Hop (Cipher × Digest) Payload Payload :=
  ⟨(h.cpath.bCrypto, h.cpath.bDigest), (h.relay.bCrypto, h.relay.bDigest), h.inQueue, h.inSent, h.inGot⟩

/-- What holds of each hop by itself. -/
structure Counted (h : CircuitHop) : Prop where
  out : ∀ x ∈ h.outQueue, Fresh x.plain
  back : ∀ x ∈ h.inQueue, Fresh x.plain
  digests : Digests newCipher h

/-- **The invariant**: the hops will read what is on the way, in both directions. -/
structure Layered (hs : List CircuitHop) : Prop where
  out : Outward (cells hash) (hs.map (·.out)) []
  back : Inward (cells hash) (hs.map (·.back)) []
  counted : ∀ h ∈ hs, Counted newCipher h

variable {hash : List UInt8 → List UInt8} {newCipher : List UInt8 → ℕ → UInt8} {hs hs' : List CircuitHop}

@[simp] theorem running_concat (seed : Digest) (l : List Payload) (cell : Payload) :
    running seed (l ++ [cell]) = (running seed l).addPayload cell := by
  simp [running, Digest.addPayload]

theorem counted_cons {h : CircuitHop} :
    (∀ h' ∈ h :: hs, Counted newCipher h') ↔ Counted newCipher h ∧ ∀ h' ∈ hs, Counted newCipher h' :=
  List.forall_mem_cons

/-- **The client encrypts a cell** as the layers say. -/
theorem encrypt_spec {cell : Payload} : ∀ {hs hs' : List CircuitHop} {n : ℕ} {crypted : Payload},
    relayEncryptCellOutbound hash cell hs n = some (hs', crypted) →
    wrap (cells hash) (hs.map (·.out)) n cell = some crypted ∧
      hs'.map (·.out) = advance (cells hash) (hs.map (·.out)) n cell ∧
      hs'.map (·.back) = hs.map (·.back) ∧
      ((∀ h ∈ hs, Counted newCipher h) → ∀ h ∈ hs', Counted newCipher h) := by
  intro hs
  induction hs with
  | nil =>
    intro hs' n crypted h
    cases h
  | cons h hs ih =>
    intro hs' n crypted heq
    cases n with
    | zero =>
      cases heq
      refine ⟨rfl, rfl, rfl, fun hcounted => ?_⟩
      obtain ⟨hh, hhs⟩ := counted_cons.mp hcounted
      refine counted_cons.mpr ⟨⟨hh.out, hh.back, ⟨?_, hh.digests.outGot, hh.digests.inSent, hh.digests.inGot⟩⟩, hhs⟩
      show h.cpath.fDigest.addPayload cell = running _ (h.outSent ++ [cell])
      rw [running_concat, ← hh.digests.outSent]
    | succ n =>
      obtain ⟨⟨hs₁, inner⟩, heq₁, hres⟩ := Option.map_eq_some_iff.mp heq
      cases hres
      obtain ⟨hwrap, hout, hback, hkeep⟩ := ih heq₁
      refine ⟨?_, ?_, ?_, fun hcounted => ?_⟩
      · show (wrap (cells hash) (hs.map (·.out)) n cell).map _ = some _
        rw [hwrap]
        rfl
      · exact congrArg (_ :: ·) hout
      · exact congrArg (_ :: ·) hback
      · obtain ⟨hh, hhs⟩ := counted_cons.mp hcounted
        exact counted_cons.mpr ⟨⟨hh.out, hh.back, ⟨hh.digests.outSent, hh.digests.outGot, hh.digests.inSent,
          hh.digests.inGot⟩⟩, hkeep hhs⟩

theorem appendOut_out (x : Sent Payload Payload) (hs : List CircuitHop) :
    (appendOut x hs).map (·.out) = enqueue x (hs.map (·.out)) := by
  cases hs <;> rfl

theorem appendOut_back (x : Sent Payload Payload) (hs : List CircuitHop) :
    (appendOut x hs).map (·.back) = hs.map (·.back) := by
  cases hs <;> rfl

theorem appendOut_counted {x : Sent Payload Payload} (hx : Fresh x.plain)
    (hhs : ∀ h ∈ hs, Counted newCipher h) : ∀ h ∈ appendOut x hs, Counted newCipher h := by
  cases hs with
  | nil => exact hhs
  | cons h hs =>
    obtain ⟨hh, hhs⟩ := counted_cons.mp hhs
    refine counted_cons.mpr ⟨⟨fun y hy => ?_, hh.back, ⟨hh.digests.outSent, hh.digests.outGot,
      hh.digests.inSent, hh.digests.inGot⟩⟩, hhs⟩
    obtain hy | hy := List.mem_append.mp hy
    · exact hh.out y hy
    · rw [List.mem_singleton.mp hy]
      exact hx

/-- **A relay reads a cell** as the layers say: what is for it is recognized, and without a fault it
recognizes nothing else. -/
theorem relayOut_spec : ∀ {hs : List CircuitHop} {n : ℕ} {arrives : List (Sent Payload Payload)},
    Outward (cells hash) (hs.map (·.out)) arrives → (∀ h ∈ hs, Counted newCipher h) →
    (Event.relayOut n).Honest hash hs →
    ∃ hs', relayOut hash n hs = some hs' ∧ hs'.map (·.out) = readHop (cells hash) n (hs.map (·.out)) ∧
      hs'.map (·.back) = hs.map (·.back) ∧ ∀ h ∈ hs', Counted newCipher h := by
  intro hs
  induction hs with
  | nil =>
    intro n arrives _ hcounted _
    exact ⟨[], by cases n <;> rfl, by cases n <;> rfl, rfl, hcounted⟩
  | cons h hs ih =>
    intro n arrives ho hcounted honest
    obtain ⟨hh, hhs⟩ := counted_cons.mp hcounted
    cases n with
    | succ n =>
      obtain ⟨hs', heq, hout, hback, hkeep⟩ := ih ho.2 hhs honest
      refine ⟨h :: hs', ?_, congrArg (_ :: ·) hout, congrArg (_ :: ·) hback, counted_cons.mpr ⟨hh, hkeep⟩⟩
      show (relayOut hash n hs).map (h :: ·) = some (h :: hs')
      rw [heq]
      rfl
    | zero =>
      have honest := honest h
      obtain ⟨keyData, cpath, relay, outQueue, inQueue, outSent, outGot, inSent, inGot⟩ := h
      cases outQueue with
      | nil => exact ⟨_, rfl, rfl, rfl, hcounted⟩
      | cons x queue =>
        have honest := honest x queue rfl rfl
        obtain ⟨k, p, m⟩ := x
        obtain ⟨hr, ho⟩ := ho
        have hqueue : ∀ y ∈ queue, Fresh y.plain := fun y hy => hh.out y (List.mem_cons_of_mem _ hy)
        have hp : Fresh p := hh.out ⟨k, p, m⟩ List.mem_cons_self
        cases k with
        | zero =>
          have hstamp : (relayCryptOnePayload relay.fCrypto m).1 = (relaySetDigest hash relay.fDigest p).2 :=
            (Hop.Reads.own hr).1
          have hdecrypt : relayDecryptCellOut hash relay m =
              (true, { relay with
                fCrypto := relay.fCrypto.advance, fDigest := relay.fDigest.addPayload p }, p) := by
            rw [relayDecryptCellOut]
            simp only [hstamp, recognize_stamped hash hp]
            rfl
          refine ⟨⟨keyData, cpath, { relay with
              fCrypto := relay.fCrypto.advance, fDigest := relay.fDigest.addPayload p },
            queue, inQueue, outSent, outGot ++ [p], inSent, inGot⟩ :: hs, ?_, rfl, rfl,
            counted_cons.mpr ⟨⟨hqueue, hh.back, ⟨hh.digests.outSent, ?_, hh.digests.inSent,
              hh.digests.inGot⟩⟩, hhs⟩⟩
          · rw [relayOut]
            simp only [hdecrypt, if_true]
          show relay.fDigest.addPayload p = running _ (outGot ++ [p])
          rw [running_concat]
          exact congrArg (Digest.addPayload · p) hh.digests.outGot
        | succ k =>
          have hfalse : recognize hash relay.fDigest (relayCryptOnePayload relay.fCrypto m).1 =
              (false, relay.fDigest, (relayCryptOnePayload relay.fCrypto m).1) :=
            recognize_false hash (honest (Nat.succ_ne_zero k))
          have hdecrypt : relayDecryptCellOut hash relay m =
              (false, { relay with fCrypto := relay.fCrypto.advance },
                (relayCryptOnePayload relay.fCrypto m).1) := by
            rw [relayDecryptCellOut]
            simp only [hfalse]
            rfl
          cases hs with
          | nil => cases ho
          | cons h' hs =>
            refine ⟨⟨keyData, cpath, { relay with fCrypto := relay.fCrypto.advance }, queue, inQueue,
              outSent, outGot, inSent, inGot⟩ ::
                appendOut ⟨k, p, (relayCryptOnePayload relay.fCrypto m).1⟩ (h' :: hs), ?_, ?_, ?_, ?_⟩
            · rw [relayOut]
              simp only [hdecrypt, List.isEmpty_cons, Bool.false_eq_true, if_false, Nat.add_sub_cancel]
            · show _ :: (appendOut _ (h' :: hs)).map (·.out) = _
              rw [appendOut_out]
              rfl
            · show _ :: (appendOut _ (h' :: hs)).map (·.back) = _
              rw [appendOut_back]
              rfl
            · exact counted_cons.mpr ⟨⟨hqueue, hh.back, ⟨hh.digests.outSent, hh.digests.outGot,
                hh.digests.inSent, hh.digests.inGot⟩⟩, appendOut_counted hp hhs⟩

/-! ### The other direction -/

variable (hash) in
/-- **A relay sends a cell** as the layers say. -/
theorem originate_spec {cell : Payload} (hcell : Fresh cell) : ∀ {hs : List CircuitHop} {n : ℕ},
    (∀ h ∈ hs, Counted newCipher h) →
    (originate hash cell n hs).map (·.back) = createAt (cells hash) cell n (hs.map (·.back)) ∧
      (originate hash cell n hs).map (·.out) = hs.map (·.out) ∧
      ∀ h ∈ originate hash cell n hs, Counted newCipher h := by
  intro hs
  induction hs with
  | nil =>
    intro n hcounted
    cases n <;> exact ⟨rfl, rfl, hcounted⟩
  | cons h hs ih =>
    intro n hcounted
    obtain ⟨hh, hhs⟩ := counted_cons.mp hcounted
    cases n with
    | succ n =>
      obtain ⟨hback, hout, hkeep⟩ := ih (n := n) hhs
      exact ⟨congrArg (_ :: ·) hback, congrArg (_ :: ·) hout, counted_cons.mpr ⟨hh, hkeep⟩⟩
    | zero =>
      refine ⟨rfl, rfl, counted_cons.mpr ⟨⟨hh.out, fun y hy => ?_, ⟨hh.digests.outSent, hh.digests.outGot, ?_,
        hh.digests.inGot⟩⟩, hhs⟩⟩
      · obtain hy | hy := List.mem_append.mp hy
        · exact hh.back y hy
        · rw [List.mem_singleton.mp hy]
          exact hcell
      · show h.relay.bDigest.addPayload cell = running _ (h.inSent ++ [cell])
        rw [running_concat, ← hh.digests.inSent]

theorem takeIn_spec {x : Sent Payload Payload} (h : takeIn hs = some (x, hs')) :
    dequeue (hs.map (·.back)) = some (x, hs'.map (·.back)) ∧ hs'.map (·.out) = hs.map (·.out) ∧
      ((∀ h ∈ hs, Counted newCipher h) → Fresh x.plain ∧ ∀ h ∈ hs', Counted newCipher h) := by
  cases hs with
  | nil => cases h
  | cons h' hs =>
    obtain ⟨keyData, cpath, relay, outQueue, inQueue, outSent, outGot, inSent, inGot⟩ := h'
    cases inQueue with
    | nil => cases h
    | cons y queue =>
      cases h
      refine ⟨rfl, rfl, fun hcounted => ?_⟩
      obtain ⟨hh, hhs⟩ := counted_cons.mp hcounted
      exact ⟨hh.back x List.mem_cons_self, counted_cons.mpr ⟨⟨hh.out, fun y hy =>
        hh.back y (List.mem_cons_of_mem _ hy), ⟨hh.digests.outSent, hh.digests.outGot, hh.digests.inSent,
          hh.digests.inGot⟩⟩, hhs⟩⟩

theorem takeIn_none (h : takeIn hs = none) : dequeue (hs.map (·.back)) = none := by
  cases hs with
  | nil => rfl
  | cons h' hs =>
    obtain ⟨keyData, cpath, relay, outQueue, inQueue, outSent, outGot, inSent, inGot⟩ := h'
    cases inQueue with
    | nil => rfl
    | cons y queue => cases h

variable (hash) in
/-- **A relay passes a cell on** as the layers say. -/
theorem relayIn_spec : ∀ {hs : List CircuitHop} {n : ℕ}, (∀ h ∈ hs, Counted newCipher h) →
    (relayIn n hs).map (·.back) = passAt (cells hash) n (hs.map (·.back)) ∧
      (relayIn n hs).map (·.out) = hs.map (·.out) ∧ ∀ h ∈ relayIn n hs, Counted newCipher h := by
  intro hs
  induction hs with
  | nil =>
    intro n hcounted
    cases n <;> exact ⟨rfl, rfl, hcounted⟩
  | cons h hs ih =>
    intro n hcounted
    obtain ⟨hh, hhs⟩ := counted_cons.mp hcounted
    cases n with
    | succ n =>
      obtain ⟨hback, hout, hkeep⟩ := ih (n := n) hhs
      exact ⟨congrArg (_ :: ·) hback, congrArg (_ :: ·) hout, counted_cons.mpr ⟨hh, hkeep⟩⟩
    | zero =>
      rw [relayIn, List.map_cons, passAt]
      cases htake : takeIn hs with
      | none =>
        rw [takeIn_none htake]
        exact ⟨rfl, rfl, hcounted⟩
      | some r =>
        obtain ⟨x, hs'⟩ := r
        obtain ⟨hback, hout, hkeep⟩ := takeIn_spec htake
        obtain ⟨hx, hkeep⟩ := hkeep hhs
        rw [hback]
        refine ⟨rfl, congrArg (_ :: ·) hout, counted_cons.mpr ⟨⟨hh.out, fun y hy => ?_,
          ⟨hh.digests.outSent, hh.digests.outGot, hh.digests.inSent, hh.digests.inGot⟩⟩, hkeep⟩⟩
        obtain hy | hy := List.mem_append.mp hy
        · exact hh.back y hy
        · rw [List.mem_singleton.mp hy]
          exact hx

/-- **The client decrypts a cell** as the layers say: the hop that sent it is recognized. -/
theorem decryptIn_spec : ∀ {hs : List CircuitHop} {x : Sent Payload Payload}
    {came : List (Sent Payload Payload)},
    Inward (cells hash) (hs.map (·.back)) (x :: came) → Fresh x.plain → (∀ h ∈ hs, Counted newCipher h) →
    (∀ r, relayDecryptCellIn hash hs x.message = some r → x.hop ≤ r.2) →
    ∃ hs', relayDecryptCellIn hash hs x.message = some (hs', x.hop) ∧
      hs'.map (·.back) = peel (cells hash) (hs.map (·.back)) x ∧ hs'.map (·.out) = hs.map (·.out) ∧
      ∀ h ∈ hs', Counted newCipher h := by
  intro hs
  induction hs with
  | nil =>
    intro x came hi
    cases hi
  | cons h hs ih =>
    intro x came hi hx hcounted honest
    obtain ⟨hr, hi⟩ := hi
    obtain ⟨hh, hhs⟩ := counted_cons.mp hcounted
    obtain ⟨k, p, m⟩ := x
    cases k with
    | zero =>
      have hstamp : (relayCryptOnePayload h.cpath.bCrypto m).1 = (relaySetDigest hash h.cpath.bDigest p).2 :=
        (Hop.Reads.own hr).1
      refine ⟨{ h with
          cpath := { h.cpath with
            bCrypto := h.cpath.bCrypto.advance, bDigest := h.cpath.bDigest.addPayload p }
          inGot := h.inGot ++ [p] } :: hs, ?_, rfl, rfl, counted_cons.mpr ⟨⟨hh.out, hh.back,
            ⟨hh.digests.outSent, hh.digests.outGot, hh.digests.inSent, ?_⟩⟩, hhs⟩⟩
      · rw [relayDecryptCellIn]
        simp only [hstamp, recognize_stamped hash hx, if_true]
        rfl
      · show h.cpath.bDigest.addPayload p = running _ (h.inGot ++ [p])
        rw [running_concat, ← hh.digests.inGot]
    | succ k =>
      have hfalse : recognize hash h.cpath.bDigest (relayCryptOnePayload h.cpath.bCrypto m).1 =
          (false, h.cpath.bDigest, (relayCryptOnePayload h.cpath.bCrypto m).1) := by
        refine recognize_false hash ?_
        by_contra htrue
        rw [Bool.not_eq_false] at htrue
        rw [relayDecryptCellIn] at honest
        simp only [htrue, if_true] at honest
        exact absurd (honest _ rfl) (Nat.not_succ_le_zero k)
      have hstep : relayDecryptCellIn hash (h :: hs) m =
          (relayDecryptCellIn hash hs (relayCryptOnePayload h.cpath.bCrypto m).1).map fun r =>
            ({ h with cpath := { h.cpath with bCrypto := h.cpath.bCrypto.advance } } :: r.1, r.2 + 1) := by
        rw [relayDecryptCellIn]
        simp only [hfalse, Bool.false_eq_true, if_false]
        rfl
      obtain ⟨hs', heq, hback, hout, hkeep⟩ := ih hi hx hhs fun r hr => by
        have hle := honest (_, r.2 + 1) (by rw [hstep]; exact congrArg (Option.map _) hr)
        exact Nat.le_of_succ_le_succ hle
      refine ⟨{ h with cpath := { h.cpath with bCrypto := h.cpath.bCrypto.advance } } :: hs', ?_,
        congrArg (_ :: ·) hback, congrArg (_ :: ·) hout, counted_cons.mpr ⟨⟨hh.out, hh.back,
          ⟨hh.digests.outSent, hh.digests.outGot, hh.digests.inSent, hh.digests.inGot⟩⟩, hkeep⟩⟩
      rw [hstep]
      exact congrArg (Option.map _) heq

/-- **Every step** without a fault: the circuit stays open, and the invariant holds. -/
theorem layered_step (hs₀ : Layered hash newCipher hs) {e : Event} (he : e.Honest hash hs) :
    ∃ hs', step hash newCipher hs e = some hs' ∧ Layered hash newCipher hs' := by
  obtain ⟨hout, hback, hcounted⟩ := hs₀
  cases e with
  | extend keyData =>
    refine ⟨_, rfl, ⟨?_, ?_, fun h hmem => ?_⟩⟩
    · rw [List.map_append]
      exact Outward.extend ((relayCryptoInit newCipher keyData).fCrypto,
        (relayCryptoInit newCipher keyData).fDigest) hout
    · rw [List.map_append]
      exact Inward.extend ((relayCryptoInit newCipher keyData).bCrypto,
        (relayCryptoInit newCipher keyData).bDigest) hback
    · obtain hmem | hmem := List.mem_append.mp hmem
      · exact hcounted h hmem
      · rw [List.mem_singleton.mp hmem]
        refine ⟨fun x hx => absurd hx List.not_mem_nil, fun x hx => absurd hx List.not_mem_nil, ?_⟩
        exact ⟨(List.append_nil _).symm, (List.append_nil _).symm, (List.append_nil _).symm,
          (List.append_nil _).symm⟩
  | send n cell =>
    rw [step]
    cases heq : relayEncryptCellOutbound hash cell hs n with
    | none => exact ⟨hs, rfl, hout, hback, hcounted⟩
    | some r =>
      obtain ⟨hs', crypted⟩ := r
      obtain ⟨hwrap, hout', hback', hkeep⟩ := encrypt_spec heq
      refine ⟨_, rfl, ⟨?_, ?_, appendOut_counted he (hkeep hcounted)⟩⟩
      · rw [appendOut_out, hout']
        exact (hout.send hwrap).enqueue
      · rw [appendOut_back, hback']
        exact hback
  | relayOut n =>
    obtain ⟨hs', heq, hout', hback', hkeep⟩ := relayOut_spec hout hcounted he
    exact ⟨hs', heq, ⟨hout' ▸ hout.readHop, hback' ▸ hback, hkeep⟩⟩
  | originate n cell =>
    obtain ⟨hback', hout', hkeep⟩ := originate_spec hash he (n := n) hcounted
    exact ⟨_, rfl, ⟨hout'.symm ▸ hout, hback'.symm ▸ hback.create, hkeep⟩⟩
  | relayIn n =>
    obtain ⟨hback', hout', hkeep⟩ := relayIn_spec hash (n := n) hcounted
    exact ⟨_, rfl, ⟨hout'.symm ▸ hout, hback'.symm ▸ hback.passAt, hkeep⟩⟩
  | clientIn =>
    rw [step, clientIn]
    cases htake : takeIn hs with
    | none => exact ⟨hs, rfl, hout, hback, hcounted⟩
    | some r =>
      obtain ⟨x, hs₁⟩ := r
      obtain ⟨hdequeue, hout₁, hkeep₁⟩ := takeIn_spec htake
      obtain ⟨hx, hkeep₁⟩ := hkeep₁ hcounted
      obtain ⟨hs', heq, hback', hout', hkeep⟩ :=
        decryptIn_spec (hback.dequeue hdequeue) hx hkeep₁ fun r hr => he x hs₁ r htake hr
      refine ⟨hs', by simp only [heq, Option.map_some], ⟨?_, ?_, hkeep⟩⟩
      · rw [hout', hout₁]
        exact hout
      · rw [hback']
        exact (hback.dequeue hdequeue).peel

/-! ### Runs -/

theorem crypto_ext {crypto crypto' : Crypto}
    (hf : (crypto.fCrypto, crypto.fDigest) = (crypto'.fCrypto, crypto'.fDigest))
    (hb : (crypto.bCrypto, crypto.bDigest) = (crypto'.bCrypto, crypto'.bDigest)) : crypto = crypto' := by
  cases crypto
  cases crypto'
  simp only [Prod.mk.injEq] at hf hb
  rw [Crypto.mk.injEq]
  exact ⟨hf.1, hb.1, hf.2, hb.2⟩

/-- What the invariant says of the two ends. -/
theorem delivers_of_layered (h₀ : Layered hash newCipher hs) : Delivers newCipher hs where
  out h hmem := by
    obtain ⟨rest, hrest⟩ := h₀.out.got h.out (List.mem_map_of_mem hmem)
    exact ⟨rest, hrest.symm⟩
  back h hmem := by
    obtain ⟨rest, hrest⟩ := h₀.back.got h.back (List.mem_map_of_mem hmem)
    exact ⟨rest, hrest.symm⟩
  digests h hmem := (h₀.counted h hmem).digests
  quiet hquiet h hmem := by
    have hout : ∀ h' ∈ hs.map (·.out), h'.queue = [] := by
      intro h' hmem'
      obtain ⟨h, hmem, rfl⟩ := List.mem_map.mp hmem'
      exact (hquiet h hmem).1
    have hback : ∀ h' ∈ hs.map (·.back), h'.queue = [] := by
      intro h' hmem'
      obtain ⟨h, hmem, rfl⟩ := List.mem_map.mp hmem'
      exact (hquiet h hmem).2
    obtain ⟨hf, hsent⟩ := h₀.out.quiet hout h.out (List.mem_map_of_mem hmem)
    obtain ⟨hb, hsentBack⟩ := h₀.back.quiet hback h.back (List.mem_map_of_mem hmem)
    exact ⟨hsent.symm, hsentBack.symm, crypto_ext hf hb.symm⟩

/-- **A circuit delivers**: in every run without a fault each end gets what the other sends, in order, and
the circuit is never closed for a cell that nobody recognizes. -/
theorem delivers_of_run {es : List Event}
    (hrun : Run (fun hs e hs' => e.Honest hash hs ∧ step hash newCipher hs e = some hs') [] es hs) :
    Delivers newCipher hs ∧ ∀ e : Event, e.Honest hash hs → step hash newCipher hs e ≠ none := by
  have hlayered : Layered hash newCipher hs := by
    refine hrun.invariant (I := Layered hash newCipher) ?_ ⟨rfl, rfl, fun h hmem => absurd hmem List.not_mem_nil⟩
    intro s e s' hs hstep
    obtain ⟨s₁, heq, hlayered⟩ := layered_step hs hstep.1
    rw [hstep.2] at heq
    cases heq
    exact hlayered
  refine ⟨delivers_of_layered hlayered, fun e he => ?_⟩
  obtain ⟨s₁, heq, -⟩ := layered_step hlayered he
  rw [heq]
  exact Option.some_ne_none _

theorem fresh_zero : Fresh fun _ => 0 := by
  have hbyte : ∀ i, Payload.byte (fun _ => 0) i = 0 := fun i => by
    rw [Payload.byte]
    split <;> rfl
  refine ⟨?_, ?_⟩
  · show getUint16 _ _ = 0
    rw [hbyte, hbyte]
    rfl
  · funext i
    exact hbyte _

/-- What two hops do: a cell goes to the second one, and another one comes back from it. -/
def twoHops : List Event :=
  [.extend (List.replicate 72 0), .extend (List.replicate 72 1), .send 1 (fun _ => 0), .relayOut 0,
    .relayOut 1, .originate 1 (fun _ => 0), .relayIn 0, .clientIn]

/-- The states of the two hops, where the key stream of a key repeats its first byte. -/
def twoHopsAfter (n : ℕ) : List CircuitHop :=
  (twoHops.take n).foldl (fun hs e => (step (fun _ => []) (fun key _ => key.headD 0) hs e).getD hs) []

theorem delivers_of_run_two_hops : ∃ (hash : List UInt8 → List UInt8) (newCipher : List UInt8 → ℕ → UInt8)
    (hs : List CircuitHop), hs.map (·.outGot.length) = [0, 1] ∧ hs.map (·.inGot.length) = [0, 1] ∧
      Delivers newCipher hs ∧ ∀ e : Event, e.Honest hash hs → step hash newCipher hs e ≠ none := by
  have hstep : ∀ (n : ℕ) (e : Event), twoHops[n]? = some e → e.Honest (fun _ => []) (twoHopsAfter n) →
      step (fun _ => []) (fun key _ => key.headD 0) (twoHopsAfter n) e = some (twoHopsAfter (n + 1)) →
      e.Honest (fun _ => []) (twoHopsAfter n) ∧
        step (fun _ => []) (fun key _ => key.headD 0) (twoHopsAfter n) e = some (twoHopsAfter (n + 1)) :=
    fun n e _ he heq => ⟨he, heq⟩
  have hrun : Run (fun hs e hs' => e.Honest (fun _ => []) hs ∧
      step (fun _ => []) (fun key _ => key.headD 0) hs e = some hs') (twoHopsAfter 0) twoHops
      (twoHopsAfter 8) := by
    refine .cons (hstep 0 _ rfl trivial rfl) (.cons (hstep 1 _ rfl trivial rfl)
      (.cons (hstep 2 _ rfl fresh_zero rfl) (.cons (hstep 3 _ rfl ?_ rfl) (.cons (hstep 4 _ rfl ?_ rfl)
      (.cons (hstep 5 _ rfl fresh_zero rfl) (.cons (hstep 6 _ rfl trivial rfl)
      (.cons (hstep 7 _ rfl ?_ rfl) (.nil _))))))))
    · intro h x queue hh hx hhop
      cases hh
      cases hx
      rfl
    · intro h x queue hh hx hhop
      cases hh
      cases hx
      exact absurd rfl hhop
    · intro x hs' r htake hr
      cases htake
      cases hr
      exact le_rfl
  exact ⟨_, _, _, rfl, rfl, delivers_of_run hrun⟩

end TorEbpf.Or.RelayCrypto
