import Mathlib
import TorEbpf.Lib.Memmove
import TorEbpf.Or.CreateCell

/-!
# Copying and filling memory for plugins

`my_plugin_memcpy` of `plugin_memory.c` copies forward if the destination lies below the source and
backward if it lies above: bytes up to the next word boundary, then whole words, then the bytes that
remain.  Addresses are numbers, since the ranges do not wrap; a word is accessed at its boundary or not
at all.  `my_plugin_memset` fills the two ends of a range bytewise, as far as its length allows, and then
what lies between two word boundaries.

* `forwardBytes_eq`, `forwardWords_eq`, `backwardBytes_eq`, `backwardWords_eq` — what the loops move;
* `myPluginMemcpy_eq` — together they move the range;
* `Fills` — the memory after some stores of one byte value; `myPluginMemset_stores` — the stores that are
  made cover the range and nothing else.
-/

namespace TorEbpf.Or

open TorEbpf.Lib

abbrev Memory := ℕ → UInt8

def wsize : ℕ := 4

def wmask : ℕ := wsize - 1

/-- The local variables of `my_plugin_memcpy` that its loops change. -/
structure CopyState where
  mem : Memory
  dst : ℕ
  src : ℕ

/-- `*(word *)dst = *(word *)src`: the word is read, then written. -/
def copyWord (m : Memory) (dst src : ℕ) : Memory :=
  let word : ℕ → UInt8 := fun i => m (src + i)
  fun x => if dst ≤ x ∧ x < dst + wsize then word (x - dst) else m x

/-- The loop `*dst++ = *src++`. -/
def forwardBytes : ℕ → CopyState → CopyState
  | 0, s => s
  | t + 1, s => forwardBytes t ⟨Function.update s.mem s.dst (s.mem s.src), s.dst + 1, s.src + 1⟩

def forwardWords : ℕ → CopyState → Option CopyState
  | 0, s => some s
  | t + 1, s =>
      if s.dst &&& wmask = 0 ∧ s.src &&& wmask = 0 then
        forwardWords t ⟨copyWord s.mem s.dst s.src, s.dst + wsize, s.src + wsize⟩
      else none

/-- The loop `*--dst = *--src`. -/
def backwardBytes : ℕ → CopyState → CopyState
  | 0, s => s
  | t + 1, s =>
      backwardBytes t
        ⟨Function.update s.mem (s.dst - 1) (s.mem (s.src - 1)), s.dst - 1, s.src - 1⟩

/-- The loop over words, downwards. -/
def backwardWords : ℕ → CopyState → Option CopyState
  | 0, s => some s
  | t + 1, s =>
      let src := s.src - wsize
      let dst := s.dst - wsize
      if dst &&& wmask = 0 ∧ src &&& wmask = 0 then backwardWords t ⟨copyWord s.mem dst src, dst, src⟩
      else none

/-- The bytes that are copied before the words, forward. -/
def forwardPrologue (dst src length : ℕ) : ℕ :=
  if (src ||| dst) &&& wmask ≠ 0 then
    if (src ^^^ dst) &&& wmask ≠ 0 ∨ length < wsize then length else wsize - (src &&& wmask)
  else 0

/-- The bytes that are copied before the words, backward; from here on the pointers are behind the
ranges. -/
def backwardPrologue (dst src length : ℕ) : ℕ :=
  if (src ||| dst) &&& wmask ≠ 0 then
    if (src ^^^ dst) &&& wmask ≠ 0 ∨ length ≤ wsize then length else src &&& wmask
  else 0

def copyForward (s : CopyState) (length : ℕ) : Option Memory := do
  let t := forwardPrologue s.dst s.src length
  let length := length - t
  let s := forwardBytes t s
  let s ← forwardWords (length / wsize) s
  return (forwardBytes (length &&& wmask) s).mem

def copyBackward (s : CopyState) (length : ℕ) : Option Memory := do
  let s : CopyState := ⟨s.mem, s.dst + length, s.src + length⟩
  let t := backwardPrologue s.dst s.src length
  let length := length - t
  let s := backwardBytes t s
  let s ← backwardWords (length / wsize) s
  return (backwardBytes (length &&& wmask) s).mem

/-- `my_plugin_memcpy`: the memory after it; nothing if a word is accessed off its boundary. -/
def myPluginMemcpy (m : Memory) (dst src length : ℕ) : Option Memory :=
  if length = 0 ∨ dst = src then some m
  else if dst < src then copyForward ⟨m, dst, src⟩ length
  else copyBackward ⟨m, dst, src⟩ length

/-! ### The loops -/

section Loops

variable {m : Memory} {dst src t n : ℕ}

theorem and_wmask (x : ℕ) : x &&& wmask = x % 4 := Nat.and_two_pow_sub_one_eq_mod x 2

theorem copyWord_eq : copyWord m dst src = moved m dst src wsize := rfl

theorem forwardBytes_eq (h : dst ≤ src) :
    forwardBytes t ⟨m, dst, src⟩ = ⟨moved m dst src t, dst + t, src + t⟩ := by
  induction t generalizing m dst src with
  | zero => simp [forwardBytes]
  | succ t ih =>
    rw [forwardBytes, ih (Nat.succ_le_succ h), ← moved_one, moved_append h]
    simp only [CopyState.mk.injEq]
    refine ⟨?_, by omega, by omega⟩
    rw [Nat.add_comm 1 t]

theorem forwardWords_eq (h : dst ≤ src) (hdst : dst % 4 = 0) (hsrc : src % 4 = 0) :
    forwardWords t ⟨m, dst, src⟩ = some ⟨moved m dst src (4 * t), dst + 4 * t, src + 4 * t⟩ := by
  induction t generalizing m dst src with
  | zero => simp [forwardWords]
  | succ t ih =>
    have haligned : dst &&& wmask = 0 ∧ src &&& wmask = 0 := by
      rw [and_wmask, and_wmask]
      exact ⟨hdst, hsrc⟩
    have hrest := @ih (moved m dst src 4) (dst + 4) (src + 4) (by omega) (by omega) (by omega)
    have hlen : 4 + 4 * t = 4 * (t + 1) := by omega
    rw [moved_append h, Nat.add_assoc, Nat.add_assoc, hlen] at hrest
    rw [forwardWords, if_pos haligned]
    exact hrest

theorem backwardBytes_eq (h : src ≤ dst) :
    backwardBytes t ⟨m, dst + t, src + t⟩ = ⟨moved m dst src t, dst, src⟩ := by
  induction t generalizing m with
  | zero => simp [backwardBytes]
  | succ t ih =>
    have hback : ∀ x : ℕ, x + (t + 1) - 1 = x + t := fun x => by omega
    rw [backwardBytes, hback, hback, ← moved_one, ih, moved_prepend h]

theorem backwardWords_eq (h : src ≤ dst) (hdst : dst % 4 = 0) (hsrc : src % 4 = 0) :
    backwardWords t ⟨m, dst + 4 * t, src + 4 * t⟩ = some ⟨moved m dst src (4 * t), dst, src⟩ := by
  induction t generalizing m with
  | zero => simp [backwardWords]
  | succ t ih =>
    have hback : ∀ x : ℕ, x + 4 * (t + 1) - wsize = x + 4 * t := fun x => by
      unfold wsize
      omega
    have haligned : (dst + 4 * t) &&& wmask = 0 ∧ (src + 4 * t) &&& wmask = 0 := by
      rw [and_wmask, and_wmask]
      omega
    simp only [backwardWords, hback]
    rw [if_pos haligned, copyWord_eq, ih, moved_prepend h]
    rfl

end Loops

/-! ### The function -/

section Memcpy

variable {m : Memory} {dst src length : ℕ}

theorem or_wmask_eq_zero : (src ||| dst) &&& wmask = 0 ↔ src % 4 = 0 ∧ dst % 4 = 0 := by
  have hor : (src ||| dst) % 4 = src % 4 ||| dst % 4 := Nat.or_mod_two_pow (n := 2)
  rw [and_wmask, hor, Nat.or_eq_zero_iff]

theorem xor_wmask_eq_zero : (src ^^^ dst) &&& wmask = 0 ↔ src % 4 = dst % 4 := by
  have hxor : (src ^^^ dst) % 4 = src % 4 ^^^ dst % 4 := Nat.xor_mod_two_pow (n := 2)
  rw [and_wmask, hxor, Nat.xor_eq_zero_iff]

/-- In front of the words stand no more bytes than there are, and behind them both pointers are at a word
boundary or no word is left. -/
theorem forwardPrologue_spec :
    forwardPrologue dst src length ≤ length ∧
      (length - forwardPrologue dst src length < 4 ∨
        (dst + forwardPrologue dst src length) % 4 = 0 ∧ (src + forwardPrologue dst src length) % 4 = 0) := by
  unfold forwardPrologue
  split_ifs with hor hxor
  · exact ⟨le_rfl, .inl (by omega)⟩
  · rw [not_or, not_not, xor_wmask_eq_zero] at hxor
    rw [ne_eq, or_wmask_eq_zero] at hor
    rw [and_wmask]
    unfold wsize at hxor ⊢
    omega
  · rw [ne_eq, not_not, or_wmask_eq_zero] at hor
    omega

theorem backwardPrologue_spec :
    backwardPrologue dst src length ≤ length ∧
      (length - backwardPrologue dst src length < 4 ∨
        (dst - backwardPrologue dst src length) % 4 = 0 ∧ (src - backwardPrologue dst src length) % 4 = 0) := by
  unfold backwardPrologue
  split_ifs with hor hxor
  · exact ⟨le_rfl, .inl (by omega)⟩
  · rw [not_or, not_not, xor_wmask_eq_zero] at hxor
    rw [ne_eq, or_wmask_eq_zero] at hor
    rw [and_wmask]
    unfold wsize at hxor
    omega
  · rw [ne_eq, not_not, or_wmask_eq_zero] at hor
    omega

theorem copyForward_eq (h : dst ≤ src) :
    copyForward ⟨m, dst, src⟩ length = some (moved m dst src length) := by
  obtain ⟨hle, hwords⟩ := @forwardPrologue_spec dst src length
  unfold copyForward
  simp only [forwardBytes_eq h, and_wmask]
  generalize forwardPrologue dst src length = t at hle hwords
  have hforward : forwardWords ((length - t) / wsize) ⟨moved m dst src t, dst + t, src + t⟩ =
      some ⟨moved m dst src (t + 4 * ((length - t) / 4)), dst + (t + 4 * ((length - t) / 4)),
        src + (t + 4 * ((length - t) / 4))⟩ := by
    unfold wsize
    rcases hwords with hnone | ⟨hdst, hsrc⟩
    · rw [Nat.div_eq_of_lt hnone]
      rfl
    · rw [forwardWords_eq (by omega) hdst hsrc, moved_append h, Nat.add_assoc, Nat.add_assoc]
  have hlen : t + 4 * ((length - t) / 4) + (length - t) % 4 = length := by omega
  simp only [hforward, Option.bind_eq_bind, Option.bind_some, forwardBytes_eq (Nat.add_le_add_right h _),
    moved_append h, hlen]
  rfl

theorem copyBackward_eq (h : src ≤ dst) :
    copyBackward ⟨m, dst, src⟩ length = some (moved m dst src length) := by
  obtain ⟨hle, hwords⟩ :=
    @backwardPrologue_spec (dst + length) (src + length) length
  unfold copyBackward
  simp only
  generalize backwardPrologue (dst + length) (src + length) length = t at hle hwords
  -- the bytes that are copied last, the words, and the bytes that are copied first
  obtain ⟨q, r, hrest, hr⟩ : ∃ q r, length - t = 4 * q + r ∧ r < 4 :=
    ⟨(length - t) / 4, (length - t) % 4, by omega, by omega⟩
  have hlen : length = r + 4 * q + t := by omega
  have hq : (length - t) / wsize = q := by
    unfold wsize
    omega
  have hmod : (length - t) &&& wmask = r := by
    rw [and_wmask]
    omega
  rw [hq, hmod]
  subst hlen
  have hbytes : backwardBytes t ⟨m, dst + (r + 4 * q + t), src + (r + 4 * q + t)⟩ =
      ⟨moved m (dst + (r + 4 * q)) (src + (r + 4 * q)) t, dst + (r + 4 * q), src + (r + 4 * q)⟩ := by
    rw [← Nat.add_assoc dst, ← Nat.add_assoc src, backwardBytes_eq (by omega)]
  have hbackward : backwardWords q ⟨moved m (dst + (r + 4 * q)) (src + (r + 4 * q)) t,
      dst + (r + 4 * q), src + (r + 4 * q)⟩ =
      some ⟨moved m (dst + r) (src + r) (4 * q + t), dst + r, src + r⟩ := by
    rcases Nat.eq_zero_or_pos q with rfl | hpos
    · simp [backwardWords]
    · have haligned : (dst + r) % 4 = 0 ∧ (src + r) % 4 = 0 := by omega
      rw [← Nat.add_assoc dst, ← Nat.add_assoc src, backwardWords_eq (by omega) haligned.1 haligned.2,
        moved_prepend (by omega)]
  rw [hbytes, hbackward, Option.bind_eq_bind, Option.bind_some, backwardBytes_eq h, moved_prepend h,
    Nat.add_assoc]
  rfl

/-- **The function moves the range**, and accesses words at their boundaries only. -/
theorem myPluginMemcpy_eq : myPluginMemcpy m dst src length = some (moved m dst src length) := by
  unfold myPluginMemcpy
  split_ifs with hnothing hlt
  · rcases hnothing with rfl | rfl
    · rw [moved_zero]
    · rw [moved_self]
  · exact copyForward_eq hlt.le
  · exact copyBackward_eq (Nat.le_of_not_lt hlt)

/-- **`my_plugin_memcpy` is `memmove`**: whatever the ranges have in common, the bytes that were at the
source are at the destination afterwards, and nothing else has changed. -/
theorem memmove_of_myPluginMemcpy (m : Memory) (dst src length : ℕ) :
    ∃ m', myPluginMemcpy m dst src length = some m' ∧ (∀ i < length, m' (dst + i) = m (src + i)) ∧
      ∀ x, ¬(dst ≤ x ∧ x < dst + length) → m' x = m x :=
  ⟨moved m dst src length, myPluginMemcpy_eq, fun _ => moved_apply, fun _ => moved_frame⟩

end Memcpy

/-! ### Filling -/

/-- A memory, and the stores that were made: their addresses and their sizes. -/
structure FillState where
  mem : Memory
  stores : List (ℕ × ℕ)

def FillState.storeByte (s : FillState) (a : ℕ) (b : UInt8) : FillState :=
  ⟨Function.update s.mem a b, s.stores ++ [(a, 1)]⟩

def wordBytes (o : ByteOrder) (w : UInt32) : List UInt8 :=
  match o with
  | .little => leBytes 4 w.toNat
  | .big => beBytes 4 w.toNat

def FillState.storeWord (o : ByteOrder) (s : FillState) (a : ℕ) (w : UInt32) : FillState :=
  ⟨fun x => if a ≤ x ∧ x < a + 4 then (wordBytes o w).getD (x - a) 0 else s.mem x, s.stores ++ [(a, 4)]⟩

/-- `wc`. -/
def fillWord (c : Int32) : UInt32 :=
  let wc := c.toUInt32 &&& 0xFF
  wc ||| ((wc <<< 8) ||| (wc <<< 16) ||| (wc <<< 24))

def fillWords (o : ByteOrder) (wc : UInt32) : ℕ → (ws : ℕ) → FillState → FillState
  | 0, _, s => s
  | n + 1, ws, s => fillWords o wc n (ws + 4) (s.storeWord o ws wc)

/-- `(unsigned char)c`. -/
def fillByte (c : Int32) : UInt8 := c.toUInt32.toUInt8

/-- `my_plugin_memset`: the memory after it, and its stores. -/
def myPluginMemset (o : ByteOrder) (m : Memory) (dest : ℕ) (c : Int32) (n : ℕ) : FillState :=
  let s : FillState := ⟨m, []⟩
  if n = 0 then s
  else
    let s := (s.storeByte (dest + (n - 1)) (fillByte c)).storeByte dest (fillByte c)
    if n ≤ 2 then s
    else
      let s := (s.storeByte (dest + (n - 2)) (fillByte c)).storeByte (dest + 1) (fillByte c)
      let s := (s.storeByte (dest + (n - 3)) (fillByte c)).storeByte (dest + 2) (fillByte c)
      if n ≤ 6 then s
      else
        let s := (s.storeByte (dest + (n - 4)) (fillByte c)).storeByte (dest + 3) (fillByte c)
        if n ≤ 8 then s
        else
          let k := (2 ^ 64 - dest) % 2 ^ 64 &&& 3
          -- `n &= -4`
          fillWords o (fillWord c) (((n - k) &&& (2 ^ 64 - 4)) / 4) (dest + k) s

section Memset

variable {o : ByteOrder} {m : Memory} {b : UInt8} {c : Int32} {s : FillState} {a x dest n : ℕ}

/-- An address that a store has written to. -/
def FillState.Covers (s : FillState) (x : ℕ) : Prop := ∃ w ∈ s.stores, w.1 ≤ x ∧ x < w.1 + w.2

/-- All stores have stored the same byte value. -/
structure Fills (m : Memory) (b : UInt8) (s : FillState) : Prop where
  covered : ∀ x, s.Covers x → s.mem x = b
  other : ∀ x, ¬s.Covers x → s.mem x = m x

theorem fills_start : Fills m b ⟨m, []⟩ where
  covered := fun _ ⟨_, hw, _⟩ => absurd hw List.not_mem_nil
  other := fun _ _ => rfl

theorem Fills.store {mem : Memory} {k : ℕ} (h : Fills m b s) (hin : ∀ y, a ≤ y → y < a + k → mem y = b)
    (hout : ∀ y, ¬(a ≤ y ∧ y < a + k) → mem y = s.mem y) : Fills m b ⟨mem, s.stores ++ [(a, k)]⟩ := by
  have hcovers : ∀ y, FillState.Covers ⟨mem, s.stores ++ [(a, k)]⟩ y ↔ s.Covers y ∨ a ≤ y ∧ y < a + k := by
    intro y
    simp [FillState.Covers, or_and_right, exists_or]
  constructor
  · intro y hy
    by_cases hstore : a ≤ y ∧ y < a + k
    · exact hin y hstore.1 hstore.2
    · show mem y = b
      rw [hout y hstore]
      exact h.covered y (((hcovers y).mp hy).resolve_right hstore)
  · intro y hy
    rw [hcovers, not_or] at hy
    show mem y = m y
    rw [hout y hy.2]
    exact h.other y hy.1

theorem Fills.storeByte (h : Fills m b s) : Fills m b (s.storeByte a b) := by
  refine h.store (fun y hle hlt => ?_) (fun y hy => ?_)
  · obtain rfl : y = a := by omega
    exact Function.update_self ..
  · exact Function.update_of_ne (by omega) ..

theorem wordBytes_fillWord : wordBytes o (fillWord c) = List.replicate 4 (fillByte c) := by
  have hlow : c.toUInt32 &&& 0xFF = UInt32.ofNat (fillByte c).toNat := by
    apply UInt32.toNat_inj.mp
    have hand : c.toUInt32.toNat &&& (2 ^ 8 - 1) = c.toUInt32.toNat % 2 ^ 8 :=
      Nat.and_two_pow_sub_one_eq_mod _ 8
    have hbyte : (fillByte c).toNat = c.toUInt32.toNat % 2 ^ 8 := UInt32.toNat_toUInt8 _
    rw [UInt32.toNat_and, UInt32.toNat_ofNat', hbyte]
    exact hand.trans (by omega)
  have hall : ∀ (o : Bool) (i : Fin 256),
      (let wc := UInt32.ofNat i.val
        let w := wc ||| ((wc <<< 8) ||| (wc <<< 16) ||| (wc <<< 24))
        if o then leBytes 4 w.toNat else beBytes 4 w.toNat) = List.replicate 4 (UInt8.ofNat i.val) := by
    decide +kernel
  have hc := fun o => hall o ⟨(fillByte c).toNat, (fillByte c).toNat_lt⟩
  rw [UInt8.ofNat_toNat] at hc
  unfold fillWord
  rw [hlow]
  cases o with
  | little => exact hc true
  | big => exact hc false

theorem Fills.storeWord (h : Fills m (fillByte c) s) :
    Fills m (fillByte c) (s.storeWord o a (fillWord c)) := by
  refine h.store (fun y hle hlt => ?_) (fun y hy => if_neg hy)
  have hin : a ≤ y ∧ y < a + 4 := ⟨hle, hlt⟩
  rw [if_pos hin, wordBytes_fillWord, List.getD_replicate]
  omega

theorem fillWords_spec (h : Fills m (fillByte c) s) :
    Fills m (fillByte c) (fillWords o (fillWord c) n a s) ∧
      (fillWords o (fillWord c) n a s).stores = s.stores ++ (List.range n).map fun i => (a + 4 * i, 4) := by
  induction n generalizing a s with
  | zero => exact ⟨h, (List.append_nil _).symm⟩
  | succ n ih =>
    obtain ⟨hfills, hstores⟩ := ih (a := a + 4) h.storeWord
    refine ⟨hfills, hstores.trans ?_⟩
    rw [List.range_succ_eq_map, List.map_cons, List.map_map, FillState.storeWord, List.append_assoc,
      List.singleton_append]
    congr 2
    refine List.map_congr_left fun i _ => ?_
    simp only [Function.comp_apply, Prod.mk.injEq, and_true]
    omega

/-- `k`, and `n` after the last two assignments. -/
theorem alignment_eq (hdest : dest < 2 ^ 64) : (2 ^ 64 - dest) % 2 ^ 64 &&& 3 = (4 - dest % 4) % 4 := by
  have hand : (2 ^ 64 - dest) % 2 ^ 64 &&& 3 = (2 ^ 64 - dest) % 2 ^ 64 % 2 ^ 2 :=
    Nat.and_two_pow_sub_one_eq_mod _ 2
  omega

theorem words_eq (hn : n < 2 ^ 64) : (n &&& (2 ^ 64 - 4)) / 4 = n / 4 := by
  have hdiv : (n &&& (2 ^ 64 - 4)) / 2 ^ 2 = n / 2 ^ 2 &&& (2 ^ 64 - 4) / 2 ^ 2 := Nat.and_div_two_pow
  have hand : n / 2 ^ 2 &&& (2 ^ 62 - 1) = n / 2 ^ 2 % 2 ^ 62 := Nat.and_two_pow_sub_one_eq_mod _ 62
  have hmask : (2 ^ 64 - 4) / 2 ^ 2 = 2 ^ 62 - 1 := by decide
  rw [hmask, hand] at hdiv
  omega

/-- `j` bytes at each end are filled. -/
def fillEnds (b : UInt8) (dest n : ℕ) : (j : ℕ) → FillState → FillState
  | 0, s => s
  | j + 1, s => ((fillEnds b dest n j s).storeByte (dest + (n - (j + 1))) b).storeByte (dest + j) b

theorem fillEnds_spec {j : ℕ} (hj : j ≤ n) :
    Fills m b (fillEnds b dest n j ⟨m, []⟩) ∧
      ∀ w, w ∈ (fillEnds b dest n j ⟨m, []⟩).stores ↔
        w.2 = 1 ∧ (dest ≤ w.1 ∧ w.1 < dest + j ∨ dest + (n - j) ≤ w.1 ∧ w.1 < dest + n) := by
  induction j with
  | zero =>
    refine ⟨fills_start, fun w => ⟨fun hw => absurd hw List.not_mem_nil, fun hw => ?_⟩⟩
    omega
  | succ j ih =>
    obtain ⟨hfills, hstores⟩ := ih (Nat.le_of_succ_le hj)
    refine ⟨hfills.storeByte.storeByte, fun w => ?_⟩
    rw [fillEnds, FillState.storeByte, FillState.storeByte, List.append_assoc, List.mem_append, hstores w,
      List.singleton_append, List.mem_cons, List.mem_singleton, Prod.ext_iff, Prod.ext_iff]
    dsimp only
    omega

theorem myPluginMemset_eq : myPluginMemset o m dest c n =
    let ends (j : ℕ) := fillEnds (fillByte c) dest n j ⟨m, []⟩
    if n = 0 then ends 0
    else if n ≤ 2 then ends 1
    else if n ≤ 6 then ends 3
    else if n ≤ 8 then ends 4
    else
      let k := (2 ^ 64 - dest) % 2 ^ 64 &&& 3
      fillWords o (fillWord c) (((n - k) &&& (2 ^ 64 - 4)) / 4) (dest + k) (ends 4) := rfl

theorem ends_cover {j : ℕ} (hj : j ≤ n) (hn : n ≤ 2 * j) :
    let s := fillEnds (fillByte c) dest n j ⟨m, []⟩
    Fills m (fillByte c) s ∧ (∀ w ∈ s.stores, dest ≤ w.1 ∧ w.1 + w.2 ≤ dest + n ∧ w.1 % w.2 = 0) ∧
      ∀ x, dest ≤ x → x < dest + n → s.Covers x := by
  obtain ⟨hfills, hstores⟩ := @fillEnds_spec m (fillByte c) dest n j hj
  refine ⟨hfills, fun w hw => ?_, fun x hle hlt => ?_⟩
  · obtain ⟨hsize, hw⟩ := (hstores w).mp hw
    rw [hsize, Nat.mod_one]
    omega
  · exact ⟨(x, 1), (hstores (x, 1)).mpr ⟨rfl, by dsimp only; omega⟩, le_rfl, Nat.lt_succ_self x⟩

/-- **The stores** cover the range and nothing else, and words are stored at their boundaries. -/
theorem myPluginMemset_stores (hn : n < 2 ^ 64) (hrange : dest + n ≤ 2 ^ 64) :
    let s := myPluginMemset o m dest c n
    Fills m (fillByte c) s ∧ (∀ w ∈ s.stores, dest ≤ w.1 ∧ w.1 + w.2 ≤ dest + n ∧ w.1 % w.2 = 0) ∧
      ∀ x, dest ≤ x → x < dest + n → s.Covers x := by
  rw [myPluginMemset_eq]
  dsimp only
  split_ifs with h0 h2 h6 h8
  · exact ends_cover (Nat.zero_le n) (by omega)
  · exact ends_cover (by omega) (by omega)
  · exact ends_cover (by omega) (by omega)
  · exact ends_cover (by omega) (by omega)
  · obtain ⟨hends, hendStores⟩ :=
      @fillEnds_spec m (fillByte c) dest n 4 (by omega)
    have hk := alignment_eq (show dest < 2 ^ 64 by omega)
    generalize (2 ^ 64 - dest) % 2 ^ 64 &&& 3 = k at hk ⊢
    rw [words_eq (by omega)]
    obtain ⟨hfills, hstores⟩ := fillWords_spec (o := o) (n := (n - k) / 4) (a := dest + k) hends
    have hmem : ∀ w, w ∈ (fillWords o (fillWord c) ((n - k) / 4) (dest + k)
        (fillEnds (fillByte c) dest n 4 ⟨m, []⟩)).stores ↔
          w ∈ (fillEnds (fillByte c) dest n 4 ⟨m, []⟩).stores ∨
            ∃ i < (n - k) / 4, (dest + k + 4 * i, 4) = w := by
      intro w
      rw [hstores, List.mem_append, List.mem_map]
      simp only [List.mem_range]
    refine ⟨hfills, fun w hw => ?_, fun x hle hlt => ?_⟩
    · rcases (hmem w).mp hw with hend | ⟨i, hi, rfl⟩
      · obtain ⟨hsize, hend⟩ := (hendStores w).mp hend
        rw [hsize, Nat.mod_one]
        omega
      · dsimp only
        omega
    · by_cases hend : x < dest + 4 ∨ dest + (n - 4) ≤ x
      · exact ⟨(x, 1), (hmem _).mpr (.inl ((hendStores (x, 1)).mpr ⟨rfl, by dsimp only; omega⟩)), le_rfl,
          Nat.lt_succ_self x⟩
      · -- the word that the address is in
        refine ⟨(dest + k + 4 * ((x - (dest + k)) / 4), 4), (hmem _).mpr (.inr ⟨_, ?_, rfl⟩), ?_, ?_⟩
        · omega
        · dsimp only
          omega
        · dsimp only
          omega

/-- **`my_plugin_memset` fills exactly its range**, and no store is made outside of it. -/
theorem fill_of_myPluginMemset (o : ByteOrder) (m : Memory) (dest n : UInt64) (c : Int32)
    (hrange : dest.toNat + n.toNat ≤ 2 ^ 64) :
    let s := myPluginMemset o m dest.toNat c n.toNat
    (∀ i < n.toNat, s.mem (dest.toNat + i) = c.toUInt32.toUInt8) ∧
    (∀ x, ¬(dest.toNat ≤ x ∧ x < dest.toNat + n.toNat) → s.mem x = m x) ∧
    ∀ w ∈ s.stores, dest.toNat ≤ w.1 ∧ w.1 + w.2 ≤ dest.toNat + n.toNat ∧ w.1 % w.2 = 0 := by
  obtain ⟨hfills, hstores, hcovers⟩ := @myPluginMemset_stores o m c _ _ n.toNat_lt hrange
  refine ⟨fun i hi => ?_, fun x hx => ?_, hstores⟩
  · exact hfills.covered _ (hcovers _ (Nat.le_add_right _ i) (Nat.add_lt_add_left hi _))
  · refine hfills.other x fun ⟨w, hw, hle, hlt⟩ => hx ?_
    have hin := hstores w hw
    omega

theorem fill_of_myPluginMemset_unaligned :
    (myPluginMemset .little (fun _ => 0) 3 (-1) 13).mem (3 + 9) = 0xFF ∧
      (myPluginMemset .little (fun _ => 0) 3 (-1) 13).mem 16 = 0 := by
  obtain ⟨hin, hout, -⟩ := fill_of_myPluginMemset .little (fun _ => 0) 3 13 (-1) (by decide)
  exact ⟨hin 9 (by decide), hout 16 (by decide)⟩

end Memset

end TorEbpf.Or
