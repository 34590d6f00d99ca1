import TorEbpf.Lib.Buffer
import TorEbpf.Strings.Scanf

/-!
# Base 16 and base 32

`base16_encode`, `base16_decode`, `base32_encode` and `base32_decode` of `binascii.c`, on buffers whose
accesses are checked.

* `base16_roundTrips`, `base32_roundTrips` — what is encoded is decoded;
* `noFault_base16Decode`, `noFault_base32Decode` — which accesses the decoders make of any input.
-/

namespace TorEbpf.Encoding

open TorEbpf.Lib TorEbpf.Strings

def sizeTCeiling : ℕ := 2 ^ 63 - 1 - 16

def intMax : ℕ := 2 ^ 31 - 1

def ceilDiv (a b : ℕ) : ℕ := (a + (b - 1)) / b

/-- What the functions do: an input may be rejected with -1. -/
abbrev Codec (α : Type) := Checked Unit Access α

/-- Decoding what was encoded into a buffer of at least `room` bytes gives the bytes back. -/
def RoundTrips (encode : ℕ → Codec (List UInt8)) (decode : ℕ → List UInt8 → Codec (ℤ × List UInt8)) (room : ℕ)
    (x : List UInt8) : Prop :=
  ∀ destlen, room ≤ destlen → destlen < sizeTCeiling → ∃ buf, encode destlen = .ok buf ∧ buf.length = destlen ∧
    ∀ destlen', x.length ≤ destlen' → destlen' ≤ intMax →
      decode destlen' (cText buf) = .ok (x.length, padded destlen' x)

/-! ### Base 16 -/

/-- `"0123456789ABCDEF"`. -/
def base16Chars : List UInt8 :=
  [0x30, 0x31, 0x32, 0x33, 0x34, 0x35, 0x36, 0x37, 0x38, 0x39, 0x41, 0x42, 0x43, 0x44, 0x45, 0x46]

def base16Bufsize (n : ℕ) : ℕ := n * 2 + 1

/-- One byte of `base16_encode`. -/
def base16EncodeStep (src dest : List UInt8) (i : ℕ) : Codec (List UInt8) := do
  let c ← load src i
  let dest ← store dest (2 * i) (base16Chars.getD (c.toNat >>> 4) 0)
  store dest (2 * i + 1) (base16Chars.getD (c.toNat &&& 0xf) 0)

def base16Encode (destlen : ℕ) (src : List UInt8) : Codec (List UInt8) := do
  torAssert (src.length < sizeTCeiling / 2 - 1)
  torAssert (base16Bufsize src.length ≤ destlen)
  torAssert (destlen < sizeTCeiling)
  let dest ← (List.range src.length).foldlM (base16EncodeStep src) (List.replicate destlen 0)
  store dest (2 * src.length) 0

/-- One byte of `base16_decode`. -/
def base16DecodeStep (src dest : List UInt8) (i : ℕ) : Codec (List UInt8) := do
  let v1 := hexDecodeDigit (← load src (2 * i))
  let v2 := hexDecodeDigit (← load src (2 * i + 1))
  match v1, v2 with
  | some v1, some v2 => store dest i (v1 <<< 4 ||| v2).toUInt8
  | _, _ => reject ()

def base16Decode (destlen : ℕ) (src : List UInt8) : Codec (ℤ × List UInt8) := do
  if src.length % 2 ≠ 0 then reject ()
  else if destlen < src.length / 2 ∨ intMax < destlen then reject ()
  else
    let dest ← (List.range (src.length / 2)).foldlM (base16DecodeStep src) (List.replicate destlen 0)
    torAssert (src.length / 2 ≤ destlen)
    return ((src.length / 2 : ℕ), dest)

/-! ### Base 32 -/

def base32Chars : List UInt8 :=
  [0x61, 0x62, 0x63, 0x64, 0x65, 0x66, 0x67, 0x68, 0x69, 0x6a, 0x6b, 0x6c, 0x6d, 0x6e, 0x6f, 0x70,
    0x71, 0x72, 0x73, 0x74, 0x75, 0x76, 0x77, 0x78, 0x79, 0x7a, 0x32, 0x33, 0x34, 0x35, 0x36, 0x37]

def base32NopadLen (n : ℕ) : ℕ := ceilDiv (n * 8) 5

def base32EncodedSize (srclen : ℕ) : Codec ℕ := do
  torAssert (srclen < sizeTCeiling / 8)
  let enclen := base32NopadLen srclen + 1
  torAssert (enclen < intMax ∧ srclen < enclen)
  return enclen

/-- A byte of the source, or 0 if there is none. -/
def loadPadded (src : List UInt8) (i : ℕ) : Codec UInt8 := if i < src.length then load src i else pure 0

/-- One character of `base32_encode`. -/
def base32EncodeStep (src dest : List UInt8) (i : ℕ) : Codec (List UInt8) := do
  let bit := 5 * i
  let idx := bit / 8
  let hi ← load src idx
  let lo ← loadPadded src (idx + 1)
  let v := hi.toNat <<< 8 + lo.toNat
  let u := (v >>> (11 - bit % 8)) &&& 0x1f
  store dest i (base32Chars.getD u 0)

/-- `base32_encode`: the loop runs while `bit`, five times `i`, is less than the number of bits. -/
def base32Encode (destlen : ℕ) (src : List UInt8) : Codec (List UInt8) := do
  let size ← base32EncodedSize src.length
  torAssert (size ≤ destlen)
  torAssert (destlen < sizeTCeiling)
  let nbits := src.length * 8
  let dest ← (List.range (ceilDiv nbits 5)).foldlM (base32EncodeStep src) (List.replicate destlen 0)
  store dest (ceilDiv nbits 5) 0

/-- What a character of base 32 stands for; `char` is signed. -/
def base32Value (c : UInt8) : Codec UInt8 :=
  if 0x60 < c ∧ c < 0x7b then return c - 0x61
  else if 0x31 < c ∧ c < 0x38 then return c - 0x18
  else if 0x40 < c ∧ c < 0x5b then return c - 0x41
  else reject ()

def loadDigit (tmp : List UInt8) (i : ℕ) : Codec ℕ := do return (← load tmp i).toNat

/-- One byte of `base32_decode`, by the five cases. -/
def base32Byte (tmp : List UInt8) (bit : ℕ) : Codec UInt8 := do
  let u0 ← loadDigit tmp (bit / 5)
  let u1 ← loadDigit tmp (bit / 5 + 1)
  match bit % 40 with
  | 0 => return (u0 <<< 3 + u1 >>> 2).toUInt8
  | 8 => return (u0 <<< 6 + u1 <<< 1 + (← loadDigit tmp (bit / 5 + 2)) >>> 4).toUInt8
  | 16 => return (u0 <<< 4 + u1 >>> 1).toUInt8
  | 24 => return (u0 <<< 7 + u1 <<< 2 + (← loadDigit tmp (bit / 5 + 2)) >>> 3).toUInt8
  | _ => return (u0 <<< 5 + u1).toUInt8

/-- One byte of `base32_decode`; `i` is an `unsigned`. -/
def base32DecodeStep (tmp dest : List UInt8) (i : ℕ) : Codec (List UInt8) := do
  let b ← base32Byte tmp (8 * i)
  store dest (i % 2 ^ 32) b

/-- `base32_decode`; `i` is returned as an `int`. -/
def base32Decode (destlen : ℕ) (src : List UInt8) : Codec (ℤ × List UInt8) := do
  let nbits := src.length * 5 / 8 * 8
  torAssert (src.length < sizeTCeiling / 5)
  torAssert (nbits / 8 ≤ destlen)
  torAssert (destlen < sizeTCeiling)
  let tmp ← src.mapM base32Value
  let dest ← (List.range (nbits / 8)).foldlM (base32DecodeStep tmp) (List.replicate destlen 0)
  return (((nbits / 8 : ℕ) : ℤ).bmod (2 ^ 32), dest)

/-! ### Bits -/

theorem and_mask (v k : ℕ) : v &&& (2 ^ k - 1) = v % 2 ^ k := Nat.and_two_pow_sub_one_eq_mod v k

theorem and_0xf (v : ℕ) : v &&& 0xf = v % 16 := and_mask v 4

theorem and_0x1f (v : ℕ) : v &&& 0x1f = v % 32 := and_mask v 5

/-! ### Base 16 is read back -/

variable {x src : List UInt8} {destlen : ℕ}

/-- What `base16_encode` writes. -/
def base16Text (x : List UInt8) : List UInt8 :=
  x.flatMap fun c => [base16Chars.getD (c.toNat >>> 4) 0, base16Chars.getD (c.toNat &&& 0xf) 0]

theorem length_base16Text (x : List UInt8) : (base16Text x).length = 2 * x.length := by
  induction x with
  | nil => rfl
  | cons c x ih =>
    rw [base16Text, List.flatMap_cons, List.length_append, ← base16Text, ih, List.length_cons, List.length_cons,
      List.length_cons, List.length_nil]
    omega

theorem base16Text_append (x y : List UInt8) : base16Text (x ++ y) = base16Text x ++ base16Text y :=
  List.flatMap_append

theorem getElem?_base16Text {i : ℕ} (h : i < x.length) :
    (base16Text x)[2 * i]? = some (base16Chars.getD (x[i].toNat >>> 4) 0) ∧
      (base16Text x)[2 * i + 1]? = some (base16Chars.getD (x[i].toNat &&& 0xf) 0) := by
  induction x generalizing i with
  | nil => cases h
  | cons c x ih =>
    cases i with
    | zero => exact ⟨rfl, rfl⟩
    | succ i => exact ih (Nat.lt_of_succ_lt_succ h)

theorem base16Chars_spec : ∀ n < 16,
    hexDecodeDigit (base16Chars.getD n 0) = some n ∧ base16Chars.getD n 0 ≠ 0 := by
  decide +kernel

theorem shiftRight_lt (c : UInt8) : c.toNat >>> 4 < 16 := by
  have := c.toNat_lt
  rw [Nat.shiftRight_eq_div_pow]
  omega

theorem ne_zero_of_mem_base16Text {c : UInt8} (h : c ∈ base16Text x) : c ≠ 0 := by
  obtain ⟨b, -, hb⟩ := List.mem_flatMap.mp h
  rw [List.mem_cons, List.mem_singleton] at hb
  rcases hb with rfl | rfl
  · exact (base16Chars_spec _ (shiftRight_lt b)).2
  · exact (base16Chars_spec _ (by rw [and_0xf]; omega)).2

theorem take_succ_eq {k : ℕ} (h : k < x.length) : x.take (k + 1) = x.take k ++ [x[k]] :=
  (List.take_append_getElem h).symm

theorem base16Encode_eq (hsize : x.length < sizeTCeiling / 2 - 1) (hroom : base16Bufsize x.length ≤ destlen)
    (hmax : destlen < sizeTCeiling) : base16Encode destlen x = .ok (padded destlen (base16Text x)) := by
  have hfit : 2 * x.length < destlen := by
    unfold base16Bufsize at hroom
    omega
  have hloop := foldlM_range (g := base16EncodeStep x) (s := fun k => padded destlen (base16Text (x.take k)))
    (n := x.length) (by
      intro k hk
      have hlen : (base16Text (x.take k)).length = 2 * k := by
        rw [length_base16Text, List.length_take, Nat.min_eq_left hk.le]
      rw [base16EncodeStep, load_of_lt hk, ok_bind, store_padded hlen (by omega), ok_bind,
        store_padded (by rw [List.length_append, hlen]; rfl) (by omega), take_succ_eq hk, base16Text_append,
        List.append_assoc]
      rfl)
  have hzero : padded destlen (base16Text (x.take 0)) = List.replicate destlen 0 := rfl
  rw [List.take_length, hzero] at hloop
  rw [base16Encode, torAssert_of hsize, ok_bind, torAssert_of hroom, ok_bind, torAssert_of hmax, ok_bind, hloop,
    ok_bind, store_padded (length_base16Text x) hfit, padded_append_zero (by rwa [length_base16Text])]

theorem load_eq {i : ℕ} {c : UInt8} (h : src[i]? = some c) : (load src i : Codec UInt8) = .ok c := by
  rw [load, h]

theorem halves_eq (c : UInt8) : (c.toNat >>> 4 <<< 4 ||| (c.toNat &&& 0xf)).toUInt8 = c := by
  have hlow : c.toNat &&& 0xf < 2 ^ 4 := by
    rw [and_0xf]
    omega
  have hc := c.toNat_lt
  rw [← Nat.shiftLeft_add_eq_or_of_lt hlow, and_0xf, Nat.shiftRight_eq_div_pow, Nat.shiftLeft_eq,
    ← UInt8.toNat_inj,
    Nat.toUInt8_eq, UInt8.toNat_ofNat']
  omega

theorem base16Decode_base16Text (hroom : x.length ≤ destlen) (hmax : destlen ≤ intMax) :
    base16Decode destlen (base16Text x) = .ok (x.length, padded destlen x) := by
  have hloop := foldlM_range (g := base16DecodeStep (base16Text x)) (s := fun k => padded destlen (x.take k))
    (n := x.length) (by
      intro k hk
      obtain ⟨hhi, hlo⟩ := getElem?_base16Text hk
      have hlen : (x.take k).length = k := by rw [List.length_take, Nat.min_eq_left hk.le]
      rw [base16DecodeStep, load_eq hhi, ok_bind, load_eq hlo, ok_bind,
        (base16Chars_spec _ (shiftRight_lt _)).1,
        (base16Chars_spec _ (by rw [and_0xf]; omega)).1]
      dsimp only
      rw [halves_eq, store_padded hlen (by omega), take_succ_eq hk])
  have hzero : padded destlen (x.take 0) = List.replicate destlen 0 := rfl
  rw [List.take_length, hzero] at hloop
  have hhalf : 2 * x.length / 2 = x.length := Nat.mul_div_cancel_left _ Nat.two_pos
  rw [base16Decode, length_base16Text, hhalf, if_neg (by omega), if_neg (by omega), hloop, ok_bind,
    torAssert_of hroom, ok_bind]
  rfl

/-- **Base 16**: what is encoded is decoded. -/
theorem base16_roundTrips (hsize : x.length < sizeTCeiling / 2 - 1) :
    RoundTrips (base16Encode · x) base16Decode (base16Bufsize x.length) x := by
  intro destlen hroom hmax
  have hfit : (base16Text x).length < destlen := by
    rw [length_base16Text]
    unfold base16Bufsize at hroom
    omega
  refine ⟨_, base16Encode_eq hsize hroom hmax, length_padded hfit.le, fun destlen' hroom' hmax' => ?_⟩
  rw [cText_padded (fun c => ne_zero_of_mem_base16Text) hfit]
  exact base16Decode_base16Text hroom' hmax'

/-- **`base16_decode` stays in its buffers** on every input. -/
theorem noFault_base16Decode (destlen : ℕ) (src : List UInt8) : NoFault (base16Decode destlen src) := by
  rw [base16Decode]
  split_ifs with hodd hroom
  · exact noFault_reject _
  · exact noFault_reject _
  · rw [noFault_bind]
    refine ⟨noFault_foldlM_of_invariant (I := fun dest => dest.length = destlen) _ ?_ ?_
      List.length_replicate, ?_⟩
    · intro dest hdest i hi
      rw [List.mem_range] at hi
      rw [base16DecodeStep, noFault_bind]
      refine ⟨noFault_load.mpr (by omega), fun c _ => ?_⟩
      rw [noFault_bind]
      refine ⟨noFault_load.mpr (by omega), fun d _ => ?_⟩
      dsimp only
      split
      · exact noFault_store.mpr (by omega)
      · exact noFault_reject _
    · intro dest i dest' hdest hstep
      obtain ⟨c, -, hstep⟩ := bind_eq_ok.mp hstep
      obtain ⟨d, -, hstep⟩ := bind_eq_ok.mp hstep
      dsimp only at hstep
      split at hstep
      · rw [length_of_store hstep, hdest]
      · cases hstep
    · intro dest _
      rw [torAssert_of (by omega), ok_bind]
      exact noFault_pure _

/-! ### Base 32 is read back -/

def window (x : List UInt8) (idx : ℕ) : ℕ := (x.getD idx 0).toNat * 256 + (x.getD (idx + 1) 0).toNat

/-- The `i`-th five bits. -/
def fiveBits (x : List UInt8) (i : ℕ) : ℕ := window x (5 * i / 8) / 2 ^ (11 - 5 * i % 8) % 32

/-- What `base32_encode` writes. -/
def base32Text (x : List UInt8) : List UInt8 :=
  (List.range (base32NopadLen x.length)).map fun i => base32Chars.getD (fiveBits x i) 0

theorem length_base32Text (x : List UInt8) : (base32Text x).length = base32NopadLen x.length := by
  rw [base32Text, List.length_map, List.length_range]

theorem base32Chars_spec : ∀ u < 32, base32Value (base32Chars.getD u 0) = .ok u.toUInt8 ∧
    base32Chars.getD u 0 ≠ 0 := by
  decide +kernel

theorem fiveBits_lt (x : List UInt8) (i : ℕ) : fiveBits x i < 32 := Nat.mod_lt _ (by decide)

theorem ne_zero_of_mem_base32Text {c : UInt8} (h : c ∈ base32Text x) : c ≠ 0 := by
  obtain ⟨i, -, rfl⟩ := List.mem_map.mp h
  exact (base32Chars_spec _ (fiveBits_lt x i)).2

theorem loadPadded_eq (x : List UInt8) (i : ℕ) : loadPadded x i = .ok (x.getD i 0) := by
  rw [loadPadded]
  split_ifs with hlt
  · rw [load_of_lt hlt, List.getD_eq_getElem _ _ hlt]
  · rw [List.getD_eq_default _ _ (Nat.le_of_not_lt hlt)]
    rfl

theorem base32EncodeStep_eq {dest : List UInt8} {i : ℕ} (h : i < base32NopadLen x.length) :
    base32EncodeStep x dest i = store dest i (base32Chars.getD (fiveBits x i) 0) := by
  have hidx : 5 * i / 8 < x.length := by
    unfold base32NopadLen ceilDiv at h
    omega
  have hhi : x.getD (5 * i / 8) 0 = x[5 * i / 8] := List.getD_eq_getElem _ _ hidx
  rw [base32EncodeStep, load_of_lt hidx, ok_bind, loadPadded_eq, ok_bind, fiveBits, window, hhi]
  dsimp only
  rw [and_0x1f, Nat.shiftRight_eq_div_pow, Nat.shiftLeft_eq]

theorem base32EncodedSize_eq {size n : ℕ} (h : base32EncodedSize n = .ok size) :
    size = base32NopadLen n + 1 := by
  obtain ⟨_, -, h⟩ := bind_eq_ok.mp h
  obtain ⟨_, -, h⟩ := bind_eq_ok.mp h
  cases h
  rfl

theorem base32Encode_eq {size : ℕ} (hsize : base32EncodedSize x.length = .ok size) (hroom : size ≤ destlen)
    (hmax : destlen < sizeTCeiling) : base32Encode destlen x = .ok (padded destlen (base32Text x)) := by
  have hfit : base32NopadLen x.length < destlen := by
    rw [base32EncodedSize_eq hsize] at hroom
    omega
  have htake : ∀ k ≤ base32NopadLen x.length, ((base32Text x).take k).length = k := by
    intro k hk
    rw [List.length_take, length_base32Text, Nat.min_eq_left hk]
  have hloop := foldlM_range (g := base32EncodeStep x) (s := fun k => padded destlen ((base32Text x).take k))
    (n := base32NopadLen x.length) (by
      intro k hk
      have hk' : k < (base32Text x).length := by rwa [length_base32Text]
      have hget : (base32Text x)[k] = base32Chars.getD (fiveBits x k) 0 := by
        simp only [base32Text, List.getElem_map, List.getElem_range]
      rw [base32EncodeStep_eq hk, store_padded (htake k hk.le) (by omega), take_succ_eq hk', hget])
  have hzero : padded destlen ((base32Text x).take 0) = List.replicate destlen 0 := rfl
  have hall : (base32Text x).take (base32NopadLen x.length) = base32Text x :=
    List.take_of_length_le (length_base32Text x).le
  rw [hall, hzero] at hloop
  change (base32EncodedSize x.length >>= fun size => _) = _
  rw [hsize, ok_bind, torAssert_of hroom, ok_bind, torAssert_of hmax, ok_bind]
  change ((List.range (base32NopadLen x.length)).foldlM (base32EncodeStep x)
      (List.replicate destlen 0) >>= fun dest =>
    store dest (base32NopadLen x.length) 0) = _
  rw [hloop, ok_bind, store_padded (length_base32Text x) hfit, padded_append_zero (by rwa [length_base32Text])]

/-- The digits of `base32_decode` on what was encoded. -/
def fiveBitsList (x : List UInt8) : List UInt8 :=
  (List.range (base32NopadLen x.length)).map fun i => (fiveBits x i).toUInt8

theorem mapM_base32Text (x : List UInt8) : (base32Text x).mapM base32Value = .ok (fiveBitsList x) := by
  unfold base32Text fiveBitsList
  induction List.range (base32NopadLen x.length) with
  | nil => rfl
  | cons i l ih =>
    rw [List.map_cons, List.mapM_cons, (base32Chars_spec _ (fiveBits_lt x i)).1, ok_bind, ih]
    rfl

theorem loadDigit_eq {i : ℕ} (h : i < base32NopadLen x.length) :
    loadDigit (fiveBitsList x) i = .ok (fiveBits x i) := by
  have hget : (fiveBitsList x)[i]? = some (fiveBits x i).toUInt8 := by
    rw [fiveBitsList, List.getElem?_map, List.getElem?_range h]
    rfl
  have hvalue : (fiveBits x i).toUInt8.toNat = fiveBits x i := by
    have hlt := fiveBits_lt x i
    rw [Nat.toUInt8_eq, UInt8.toNat_ofNat']
    omega
  rw [loadDigit, load_eq hget, ok_bind, hvalue]
  rfl

theorem fiveBits_eq (x : List UInt8) (q s : ℕ) :
    fiveBits x (8 * q + s) = window x (5 * q + 5 * s / 8) / 2 ^ (11 - 5 * s % 8) % 32 := by
  have hidx : 5 * (8 * q + s) / 8 = 5 * q + 5 * s / 8 := by omega
  have hbit : 5 * (8 * q + s) % 8 = 5 * s % 8 := by omega
  rw [fiveBits, hidx, hbit]

theorem toUInt8_eq_of_mod {n : ℕ} {b : UInt8} (h : n % 256 = b.toNat) : n.toUInt8 = b := by
  rw [← UInt8.toNat_inj, Nat.toUInt8_eq, UInt8.toNat_ofNat']
  exact h

section Regroup

variable {a b c : ℕ}

theorem regroup0 (ha : a < 2 ^ 8) (hb : b < 2 ^ 8) :
    ((a * 256 + b) / 2 ^ 11 % 32 * 2 ^ 3 + (a * 256 + b) / 2 ^ 6 % 32 / 2 ^ 2) % 256 = a := by
  omega

theorem regroup1 (hb : b < 2 ^ 8) (hc : c < 2 ^ 8) :
    ((a * 256 + b) / 2 ^ 6 % 32 * 2 ^ 6 + (b * 256 + c) / 2 ^ 9 % 32 * 2 ^ 1 +
    (b * 256 + c) / 2 ^ 4 % 32 / 2 ^ 4) % 256 = b := by
  omega

theorem regroup2 (hb : b < 2 ^ 8) (hc : c < 2 ^ 8) :
    ((a * 256 + b) / 2 ^ 4 % 32 * 2 ^ 4 + (b * 256 + c) / 2 ^ 7 % 32 / 2 ^ 1) % 256 = b := by
  omega

theorem regroup3 (hb : b < 2 ^ 8) (hc : c < 2 ^ 8) :
    ((a * 256 + b) / 2 ^ 7 % 32 * 2 ^ 7 + (b * 256 + c) / 2 ^ 10 % 32 * 2 ^ 2 +
    (b * 256 + c) / 2 ^ 5 % 32 / 2 ^ 3) % 256 = b := by
  omega

theorem regroup4 (hb : b < 2 ^ 8) (hc : c < 2 ^ 8) :
    ((a * 256 + b) / 2 ^ 5 % 32 * 2 ^ 5 + (b * 256 + c) / 2 ^ 8 % 32) % 256 = b := by
  omega

end Regroup

/-- **A byte is put together from its groups of five bits.** -/
theorem base32Byte_eq {i : ℕ} (h : i < x.length) : base32Byte (fiveBitsList x) (8 * i) = .ok x[i] := by
  obtain ⟨q, r, hr, rfl⟩ : ∃ q r, r < 5 ∧ i = 5 * q + r := ⟨i / 5, i % 5, Nat.mod_lt _ (by decide), by omega⟩
  have hget : x[5 * q + r] = x.getD (5 * q + r) 0 := (List.getD_eq_getElem _ _ h).symm
  have hload : ∀ s, s ≤ (8 * r + 7) / 5 → loadDigit (fiveBitsList x) (8 * q + s) =
      .ok (window x (5 * q + 5 * s / 8) / 2 ^ (11 - 5 * s % 8) % 32) := by
    intro s hs
    rw [loadDigit_eq (by unfold base32NopadLen ceilDiv; omega), fiveBits_eq]
  have hbit : 8 * (5 * q + r) % 40 = 8 * r := by omega
  have hidx : 8 * (5 * q + r) / 5 = 8 * q + 8 * r / 5 := by omega
  have hbyte := fun j => (x.getD j 0).toNat_lt
  rw [hget, base32Byte, hbit, hidx]
  interval_cases r
  · rw [hload 0 (by decide), ok_bind, hload 1 (by decide), ok_bind]
    refine congrArg Except.ok (toUInt8_eq_of_mod ?_)
    simp only [window, Nat.shiftLeft_eq, Nat.shiftRight_eq_div_pow]
    exact regroup0 (hbyte _) (hbyte _)
  · rw [hload 1 (by decide), ok_bind, hload 2 (by decide), ok_bind]
    change (loadDigit (fiveBitsList x) (8 * q + 3) >>= fun u2 => _) = _
    rw [hload 3 (by decide), ok_bind]
    refine congrArg Except.ok (toUInt8_eq_of_mod ?_)
    simp only [window, Nat.shiftLeft_eq, Nat.shiftRight_eq_div_pow]
    exact regroup1 (hbyte _) (hbyte _)
  · rw [hload 3 (by decide), ok_bind, hload 4 (by decide), ok_bind]
    refine congrArg Except.ok (toUInt8_eq_of_mod ?_)
    simp only [window, Nat.shiftLeft_eq, Nat.shiftRight_eq_div_pow]
    exact regroup2 (hbyte _) (hbyte _)
  · rw [hload 4 (by decide), ok_bind, hload 5 (by decide), ok_bind]
    change (loadDigit (fiveBitsList x) (8 * q + 6) >>= fun u2 => _) = _
    rw [hload 6 (by decide), ok_bind]
    refine congrArg Except.ok (toUInt8_eq_of_mod ?_)
    simp only [window, Nat.shiftLeft_eq, Nat.shiftRight_eq_div_pow]
    exact regroup3 (hbyte _) (hbyte _)
  · rw [hload 6 (by decide), ok_bind, hload 7 (by decide), ok_bind]
    refine congrArg Except.ok (toUInt8_eq_of_mod ?_)
    simp only [window, Nat.shiftLeft_eq]
    exact regroup4 (hbyte _) (hbyte _)

theorem base32Bytes_eq {n : ℕ} : base32NopadLen n * 5 / 8 = n := by
  unfold base32NopadLen ceilDiv
  omega

theorem base32Decode_base32Text {size : ℕ} (hsize : base32EncodedSize x.length = .ok size)
    (hroom : x.length ≤ destlen) (hmax : destlen ≤ intMax) :
    base32Decode destlen (base32Text x) = .ok (x.length, padded destlen x) := by
  have hint : intMax = 2 ^ 31 - 1 := rfl
  have hceiling : sizeTCeiling = 2 ^ 63 - 1 - 16 := rfl
  have hlen : base32NopadLen x.length < intMax := by
    obtain ⟨_, -, h⟩ := bind_eq_ok.mp hsize
    obtain ⟨_, hassert, -⟩ := bind_eq_ok.mp h
    exact (Nat.lt_succ_self _).trans (of_torAssert hassert).1
  have hloop := foldlM_range (g := base32DecodeStep (fiveBitsList x)) (s := fun k => padded destlen (x.take k))
    (n := x.length) (by
      intro k hk
      have hlen : (x.take k).length = k := by rw [List.length_take, Nat.min_eq_left hk.le]
      rw [base32DecodeStep, base32Byte_eq hk, ok_bind, Nat.mod_eq_of_lt (by omega),
        store_padded hlen (by omega),
        take_succ_eq hk])
  have hzero : padded destlen (x.take 0) = List.replicate destlen 0 := rfl
  have hreturn : ((x.length : ℕ) : ℤ).bmod (2 ^ 32) = x.length := Int.bmod_eq_of_le (by omega) (by omega)
  rw [List.take_length, hzero] at hloop
  rw [base32Decode, length_base32Text, base32Bytes_eq, Nat.mul_div_cancel _ (by decide),
    torAssert_of (by omega), ok_bind, torAssert_of hroom, ok_bind, torAssert_of (by omega), ok_bind,
    mapM_base32Text, ok_bind, hloop, ok_bind, hreturn]
  rfl

/-- **Base 32**: what is encoded is decoded. -/
theorem base32_roundTrips {size : ℕ} (hsize : base32EncodedSize x.length = .ok size) :
    RoundTrips (base32Encode · x) base32Decode size x := by
  intro destlen hroom hmax
  have hfit : (base32Text x).length < destlen := by
    rw [length_base32Text]
    rw [base32EncodedSize_eq hsize] at hroom
    omega
  refine ⟨_, base32Encode_eq hsize hroom hmax, length_padded hfit.le, fun destlen' hroom' hmax' => ?_⟩
  rw [cText_padded (fun c => ne_zero_of_mem_base32Text) hfit]
  exact base32Decode_base32Text hsize hroom' hmax'

theorem noFault_base32Value (c : UInt8) : NoFault (base32Value c) := by
  unfold base32Value
  split_ifs
  · exact noFault_pure _
  · exact noFault_pure _
  · exact noFault_pure _
  · exact noFault_reject _

theorem noFault_base32Byte {tmp : List UInt8} {i : ℕ} (h : i < tmp.length * 5 / 8) :
    NoFault (base32Byte tmp (8 * i)) := by
  have hload : ∀ j, j < tmp.length → NoFault (loadDigit tmp j) := by
    intro j hj
    rw [loadDigit, load_of_lt hj, ok_bind]
    exact noFault_pure _
  rw [base32Byte, noFault_bind]
  refine ⟨hload _ (by omega), fun u0 _ => ?_⟩
  rw [noFault_bind]
  refine ⟨hload _ (by omega), fun u1 _ => ?_⟩
  split
  · exact noFault_pure _
  · next hbit =>
    rw [noFault_bind]
    exact ⟨hload _ (by omega), fun _ _ => noFault_pure _⟩
  · exact noFault_pure _
  · next hbit =>
    rw [noFault_bind]
    exact ⟨hload _ (by omega), fun _ _ => noFault_pure _⟩
  · exact noFault_pure _

/-- **`base32_decode` stays in its buffers** on every input; what it does not accept but asserts is the room
in the destination. -/
theorem noFault_base32Decode (destlen : ℕ) (src : List UInt8) : NoFault (base32Decode destlen src) ↔
    src.length < sizeTCeiling / 5 ∧ src.length * 5 / 8 ≤ destlen ∧ destlen < sizeTCeiling := by
  by_cases h1 : src.length < sizeTCeiling / 5
  swap
  · rw [base32Decode, torAssert_of_not h1]
    exact iff_of_false (not_noFault_fault _) fun h => h1 h.1
  by_cases h2 : src.length * 5 / 8 ≤ destlen
  swap
  · rw [base32Decode, torAssert_of h1, ok_bind, Nat.mul_div_cancel _ (by decide), torAssert_of_not h2]
    exact iff_of_false (not_noFault_fault _) fun h => h2 h.2.1
  by_cases h3 : destlen < sizeTCeiling
  swap
  · rw [base32Decode, torAssert_of h1, ok_bind, Nat.mul_div_cancel _ (by decide), torAssert_of h2, ok_bind,
      torAssert_of_not h3]
    exact iff_of_false (not_noFault_fault _) fun h => h3 h.2.2
  refine iff_of_true ?_ ⟨h1, h2, h3⟩
  rw [base32Decode, torAssert_of h1, ok_bind, Nat.mul_div_cancel _ (by decide), torAssert_of h2, ok_bind,
    torAssert_of h3, ok_bind, noFault_bind]
  refine ⟨noFault_mapM _ fun c _ => noFault_base32Value c, fun tmp htmp => ?_⟩
  have hlen : tmp.length = src.length := (forall₂_of_mapM src htmp).length_eq.symm
  rw [noFault_bind]
  refine ⟨noFault_foldlM_of_invariant (I := fun dest => dest.length = destlen) _ ?_ ?_ List.length_replicate,
    fun dest _ => noFault_pure _⟩
  · intro dest hdest i hi
    rw [List.mem_range] at hi
    rw [base32DecodeStep, noFault_bind]
    refine ⟨noFault_base32Byte (by rwa [hlen]), fun b _ => noFault_store.mpr ?_⟩
    have hmod := Nat.mod_le i (2 ^ 32)
    omega
  · intro dest i dest' hdest hstep
    obtain ⟨b, -, hstep⟩ := bind_eq_ok.mp hstep
    rw [length_of_store hstep, hdest]

end TorEbpf.Encoding
