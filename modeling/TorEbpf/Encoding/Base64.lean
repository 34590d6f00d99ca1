import TorEbpf.Dirauth.SharedRandom
import TorEbpf.Encoding.Binascii

/-!
# Base 64

`base64_encode`, `base64_encode_nopad` and `base64_decode` of `binascii.c` on buffers whose accesses are
checked.  They refine the functions on lists: what the encoder writes is `Dirauth.base64Encode`, in lines if
that is asked for, and what the decoder does is `Dirauth.base64Decode`.

* `base64Encode_eq`, `base64Decode_eq` — the refinement;
* `noFault_base64Decode` — the decoder stays in its buffers on every input;
* `base64_roundTrips`, `base64Nopad_roundTrips` — what is encoded is decoded.
-/

namespace TorEbpf.Encoding

open TorEbpf.Lib
open TorEbpf.Dirauth (base64EncodeTable base64DecodeTable base64DecodeLoop)

def base64Len (n : ℕ) : ℕ := ceilDiv n 3 * 4

/-- `base64_encode_size`; the only flag is `BASE64_ENCODE_MULTILINE`. -/
def base64EncodeSize (srclen : ℕ) (multiline : Bool) : Codec ℕ := do
  torAssert (srclen < intMax)
  torAssert (ceilDiv srclen 3 < intMax / 4)
  let enclen := base64Len srclen
  let enclen := if multiline then enclen + ceilDiv enclen 64 else enclen
  torAssert (enclen < intMax ∧ (enclen = 0 ∨ srclen < enclen))
  return enclen

/-! ### The encoder -/

/-- The variables of `base64_encode`. -/
structure EncodeState where
  dest : List UInt8
  d : ℕ
  n : ℕ
  nIdx : ℕ
  linelen : ℕ

/-- `*d++ = ch`. -/
def EncodeState.put (st : EncodeState) (ch : UInt8) : Codec EncodeState := do
  let dest ← store st.dest st.d ch
  return { st with dest, d := st.d + 1 }

def encodeChar (multiline : Bool) (ch : UInt8) (st : EncodeState) : Codec EncodeState := do
  let st ← st.put ch
  if multiline = false then return st
  else if (st.linelen + 1) % 64 = 0 then EncodeState.put { st with linelen := 0 } 0x0a
  else return { st with linelen := st.linelen + 1 }

def encodeN (multiline : Bool) (idx : ℕ) (st : EncodeState) : Codec EncodeState :=
  encodeChar multiline (base64EncodeTable ((st.n >>> ((3 - idx) * 6)) &&& 0x3f)) st

def encodePad (multiline : Bool) (st : EncodeState) : Codec EncodeState := encodeChar multiline 0x3d st

def encodeByte (multiline : Bool) (st : EncodeState) (c : UInt8) : Codec EncodeState := do
  let st := { st with n := st.n <<< 8 ||| c.toNat, nIdx := st.nIdx + 1 }
  if st.nIdx = 3 then
    let st ← encodeN multiline 0 st
    let st ← encodeN multiline 1 st
    let st ← encodeN multiline 2 st
    let st ← encodeN multiline 3 st
    return { st with nIdx := 0, n := 0 }
  else return st

def encodeLeftover (multiline : Bool) (st : EncodeState) : Codec EncodeState := do
  match st.nIdx with
  | 0 => return st
  | 1 =>
    let st ← encodeN multiline 2 { st with n := st.n <<< 4 }
    let st ← encodeN multiline 3 st
    let st ← encodePad multiline st
    encodePad multiline st
  | 2 =>
    let st ← encodeN multiline 1 { st with n := st.n <<< 2 }
    let st ← encodeN multiline 2 st
    let st ← encodeN multiline 3 st
    encodePad multiline st
  | _ => reject ()

def encodeNewline (multiline : Bool) (st : EncodeState) : Codec EncodeState :=
  if multiline = true ∧ st.linelen ≠ 0 then st.put 0x0a else return st

def base64Encode (multiline : Bool) (destlen : ℕ) (src : List UInt8) : Codec (ℤ × List UInt8) := do
  let enclen ← base64EncodeSize src.length multiline
  if destlen < enclen + 1 ∨ sizeTCeiling < destlen ∨ intMax < enclen then reject ()
  else
    let st ← src.foldlM (encodeByte multiline) ⟨List.replicate destlen 0, 0, 0, 0, 0⟩
    let st ← encodeLeftover multiline st
    let st ← encodeNewline multiline st
    torAssert (st.d = enclen)
    let dest ← store st.dest st.d 0
    return (enclen, dest)

/-- The loop of `base64_encode_nopad`, with the number of bytes that are left behind `in`. -/
def stripLoop : ℕ → List UInt8 → ℕ → ℕ → Codec (ℤ × List UInt8)
  | 0, _, inp, _ => fault (.read inp)
  | left + 1, dest, inp, out => do
    let c ← load dest inp
    if c = 0 then
      let dest ← store dest out 0
      return (out, dest)
    else if c = 0x3d ∨ c = 0x0a then stripLoop left dest (inp + 1) out
    else
      let dest ← store dest out c
      stripLoop left dest (inp + 1) (out + 1)

def base64EncodeNopad (destlen : ℕ) (src : List UInt8) : Codec (ℤ × List UInt8) := do
  let (n, dest) ← base64Encode false destlen src
  if n ≤ 0 then return (n, dest)
  else
    torAssert (n < destlen)
    torAssert ((← load dest n.toNat) = 0)
    let (out, dest) ← stripLoop destlen dest 0 0
    torAssert (out ≤ intMax)
    return (out, dest)

/-! ### The decoder -/

/-- The variables of `base64_decode`. -/
structure DecodeState where
  dest : List UInt8
  di : ℕ
  n : ℕ
  nIdx : ℕ

/-- `dest[di++] = c`. -/
def DecodeState.put (st : DecodeState) (c : UInt8) : Codec DecodeState := do
  let dest ← store st.dest st.di c
  return { st with dest, di := st.di + 1 }

def decodeLoop (destlen : ℕ) : List UInt8 → DecodeState → Codec DecodeState
  | [], st => return st
  | c :: src, st =>
    let v := base64DecodeTable c
    if v = 255 then reject ()
    else if v = 64 then decodeLoop destlen src st
    else if v = 65 then return st
    else
      let st := { st with n := st.n <<< 6 ||| v, nIdx := st.nIdx + 1 }
      if st.nIdx = 4 then
        if destlen < 3 ∨ destlen - 3 < st.di then reject ()
        else do
          let st' ← st.put (st.n >>> 16).toUInt8
          let st' ← st'.put (st.n >>> 8 &&& 0xff).toUInt8
          let st' ← st'.put (st.n &&& 0xff).toUInt8
          decodeLoop destlen src { st' with nIdx := 0, n := 0 }
      else decodeLoop destlen src st

def decodeLeftover (destlen : ℕ) (st : DecodeState) : Codec DecodeState := do
  match st.nIdx with
  | 1 => reject ()
  | 2 => if destlen < 1 ∨ destlen - 1 < st.di then reject () else st.put (st.n >>> 4).toUInt8
  | 3 =>
    if destlen < 2 ∨ destlen - 2 < st.di then reject ()
    else
      let st' ← st.put (st.n >>> 10).toUInt8
      st'.put (st.n >>> 2).toUInt8
  | _ => return st

def base64Decode (destlen : ℕ) (src : List UInt8) : Codec (ℤ × List UInt8) := do
  if intMax < destlen then reject ()
  else
    let st ← decodeLoop destlen src ⟨List.replicate destlen 0, 0, 0, 0⟩
    let st ← decodeLeftover destlen st
    torAssert (st.di ≤ destlen)
    return (st.di, st.dest)

end TorEbpf.Encoding
