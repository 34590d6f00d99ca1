import Mathlib
import TorEbpf.Lib.Checked
import TorEbpf.Lib.Span

/-!
# Memory areas

`memarea_alloc` of `memarea.c` carves blocks off the first chunk of a list.  A block that does not fit in
gets a new chunk: one of `CHUNK_SIZE` bytes that becomes the first, or, where it is too big for that, one
of its own that becomes the second.  Addresses are numbers below the size of the address space;
`realign_pointer` wraps around there.  Where the chunks lie is up to `raw_malloc`.

* `memareaAlloc_fits`, `memareaAlloc_more` — the ways in which a block is handed out;
* `MemareaOk` — the invariant: chunks apart with their sentinels, blocks apart in them, and the first
  chunk of `CHUNK_SIZE` bytes, whose free part starts aligned;
* `memarea_of_run` — what holds after every sequence of calls.
-/

namespace TorEbpf.Memarea

open TorEbpf.Lib

def chunkSize : ℕ := 4096

def sentinelLen : ℕ := 4

/-- `SENTINEL_VAL`; it is only compared, so the order of its bytes does not matter. -/
def sentinelVal : List UInt8 := [0x90, 0x80, 0x66, 0x22]

/-- What depends on the machine: `MEMAREA_ALIGN`, the size of a pointer, and `CHUNK_HEADER_SIZE`. -/
structure Platform where
  memareaAlign : ℕ
  align_eq : memareaAlign = 4 ∨ memareaAlign = 8
  chunkHeaderSize : ℕ
  align_dvd : memareaAlign ∣ chunkHeaderSize
  header_lt : chunkHeaderSize < chunkSize

namespace Platform

def addresses (p : Platform) : ℕ := 2 ^ (8 * p.memareaAlign)

/-- `SIZE_T_CEILING`: `SSIZE_MAX - 16`. -/
def sizeTCeiling (p : Platform) : ℕ := 2 ^ (8 * p.memareaAlign - 1) - 1 - 16

def memareaAlignMask (p : Platform) : ℕ := p.memareaAlign - 1

end Platform

abbrev Memory := ℕ → UInt8

/-- `memarea_chunk_t`, at `addr`; `next_chunk` is the order of the list. -/
structure MemareaChunk where
  addr : ℕ
  memSize : ℕ
  nextMem : ℕ
  deriving DecidableEq, Repr

/-- `raw_malloc` returned no memory. -/
inductive OutOfMemory where
  | outOfMemory
  deriving DecidableEq, Repr

inductive AssertionFailed where
  | assertionFailed
  deriving DecidableEq, Repr

abbrev Outcome := Checked OutOfMemory AssertionFailed

def torAssert (c : Prop) [Decidable c] : Outcome Unit := if c then pure () else fault .assertionFailed

def realignPointer (p : Platform) (ptr : ℕ) : ℕ :=
  (ptr + p.memareaAlignMask) % p.addresses &&& (p.addresses - 1 - p.memareaAlignMask)

def MemareaChunk.mem (p : Platform) (c : MemareaChunk) : Span := ⟨c.addr + p.chunkHeaderSize, c.memSize⟩

/-- All of a chunk: its header, its memory and the sentinel. -/
def MemareaChunk.region (p : Platform) (c : MemareaChunk) : Span :=
  ⟨c.addr, p.chunkHeaderSize + c.memSize + sentinelLen⟩

def checkSentinel (p : Platform) (m : Memory) (c : MemareaChunk) : Outcome Unit :=
  torAssert (loadList m (c.mem p).top sentinelLen = sentinelVal)

/-- `tor_malloc_`, where `malloc` says which address `raw_malloc` returns for a size. -/
def torMalloc (p : Platform) (malloc : ℕ → Option ℕ) (size : ℕ) : Outcome ℕ := do
  torAssert (size < p.sizeTCeiling)
  match malloc size with
  | some result => pure result
  | none => reject .outOfMemory

def allocChunk (p : Platform) (malloc : ℕ → Option ℕ) (m : Memory) (sz : ℕ) :
    Outcome (MemareaChunk × Memory) := do
  torAssert (sz < p.sizeTCeiling)
  let size := (if sz < chunkSize then chunkSize else sz) + sentinelLen
  let res ← torMalloc p malloc size
  let memSize := size - p.chunkHeaderSize - sentinelLen
  let nextMem := res + p.chunkHeaderSize
  torAssert (nextMem + memSize + sentinelLen = res + size)
  torAssert (realignPointer p nextMem = nextMem)
  return (⟨res, memSize, nextMem⟩, storeList m (nextMem + memSize) sentinelVal)

/-- `memarea_new`: the list of chunks. -/
def memareaNew (p : Platform) (malloc : ℕ → Option ℕ) (m : Memory) :
    Outcome (List MemareaChunk × Memory) := do
  let (first, m) ← allocChunk p malloc m chunkSize
  return ([first], m)

/-- `memarea_clear`; the sentinels of the chunks that are freed are checked. -/
def memareaClear (p : Platform) (m : Memory) : List MemareaChunk → Outcome (List MemareaChunk)
  | [] => fault .assertionFailed
  | first :: rest => do
      rest.forM (checkSentinel p m)
      return [{ first with nextMem := (first.mem p).start }]

/-- The end of `memarea_alloc`: `next_mem` moves behind the block. -/
def MemareaChunk.carve (p : Platform) (chunk : MemareaChunk) (sz : ℕ) : MemareaChunk :=
  { chunk with nextMem := realignPointer p (chunk.nextMem + sz) }

/-- `sz` as `memarea_alloc` uses it. -/
def blockSize (sz : ℕ) : ℕ := if sz = 0 then 1 else sz

/-- `memarea_alloc`: the result, and the area after it. -/
def memareaAlloc (p : Platform) (malloc : ℕ → Option ℕ) (m : Memory) (area : List MemareaChunk)
    (sz : ℕ) : Outcome (ℕ × Memory × List MemareaChunk) :=
  match area with
  | [] => fault .assertionFailed
  | first :: rest => do
      checkSentinel p m first
      torAssert (sz < p.sizeTCeiling)
      let sz := blockSize sz
      torAssert (first.nextMem ≤ (first.mem p).top)
      let spaceRemaining := (first.mem p).top - first.nextMem
      if sz > spaceRemaining then
        if sz + p.chunkHeaderSize ≥ chunkSize then
          -- a chunk of its own, second in the list
          let (newChunk, m) ← allocChunk p malloc m (sz + p.chunkHeaderSize)
          torAssert (newChunk.memSize ≥ sz)
          return (newChunk.nextMem, m, first :: newChunk.carve p sz :: rest)
        else
          let (newChunk, m) ← allocChunk p malloc m chunkSize
          torAssert (newChunk.memSize ≥ sz)
          return (newChunk.nextMem, m, newChunk.carve p sz :: first :: rest)
      else return (first.nextMem, m, first.carve p sz :: rest)

/-! ### Sequences of calls -/

/-- An area with the memory and, not in the source, the blocks handed out since it was last cleared. -/
structure State where
  mem : Memory
  area : List MemareaChunk
  handed : List Span

inductive Event where
  | alloc (malloc : ℕ → Option ℕ) (sz : ℕ)
  | clear
  | store (a : ℕ) (v : UInt8)

/-- What `raw_malloc` promises: memory that is aligned, lies within the address space and is apart from
the chunks that have not been freed. -/
def MallocOk (p : Platform) (area : List MemareaChunk) (malloc : ℕ → Option ℕ) : Prop :=
  ∀ size a, malloc size = some a →
    p.memareaAlign ∣ a ∧ a + size < p.addresses ∧ ∀ c ∈ area, (c.region p).Apart ⟨a, size⟩

/-- One call that returns.  Stores are made in blocks and outside of the chunks. -/
def Step (p : Platform) (s : State) : Event → State → Prop
  | .alloc malloc sz, s' => MallocOk p s.area malloc ∧ ∃ result m area,
      memareaAlloc p malloc s.mem s.area sz = .ok (result, m, area) ∧
        s' = ⟨m, area, s.handed ++ [⟨result, blockSize sz⟩]⟩
  | .clear, s' => ∃ area, memareaClear p s.mem s.area = .ok area ∧ s' = ⟨s.mem, area, []⟩
  | .store a v, s' =>
      ((∃ b ∈ s.handed, a ∈ b) ∨ ∀ c ∈ s.area, a ∉ c.region p) ∧
        s' = { s with mem := Function.update s.mem a v }

/-! ### Alignment -/

variable {p : Platform} {m m' : Memory} {area : List MemareaChunk} {malloc : ℕ → Option ℕ} {sz : ℕ}

theorem and_mask {w k x : ℕ} (hx : x < 2 ^ w) (hk : k ≤ w) :
    x &&& (2 ^ w - 1 - (2 ^ k - 1)) = x / 2 ^ k * 2 ^ k := by
  have hle : 2 ^ k ≤ 2 ^ w := Nat.pow_le_pow_right (by decide) hk
  have hpos : 0 < 2 ^ k := Nat.two_pow_pos k
  have hmask : 2 ^ w - 1 - (2 ^ k - 1) = 2 ^ w - (2 ^ k - 1 + 1) := by omega
  apply Nat.eq_of_testBit_eq
  intro i
  rw [hmask, Nat.testBit_and, Nat.testBit_two_pow_sub_succ (by omega), Nat.testBit_two_pow_sub_one,
    Nat.testBit_mul_two_pow, Nat.testBit_div_two_pow]
  by_cases hik : k ≤ i
  · by_cases hi : i < w
    · simp [hi, hik]
    · have hbit : x.testBit i = false :=
        Nat.testBit_lt_two_pow (hx.trans_le (Nat.pow_le_pow_right (by decide) (by omega)))
      simp [hi, hbit, hik]
  · have hlt : i < k := Nat.lt_of_not_le hik
    simp [hik, hlt]

theorem realignPointer_eq {ptr : ℕ} (h : ptr + p.memareaAlignMask < p.addresses) :
    realignPointer p ptr = (ptr + p.memareaAlignMask) / p.memareaAlign * p.memareaAlign := by
  have hpow : ∃ k, p.memareaAlign = 2 ^ k ∧ k ≤ 8 * p.memareaAlign := by
    rcases p.align_eq with h | h
    · exact ⟨2, h, by omega⟩
    · exact ⟨3, h, by omega⟩
  obtain ⟨k, hk, hle⟩ := hpow
  unfold realignPointer
  rw [Nat.mod_eq_of_lt h]
  have hand := and_mask h hle
  rw [← hk] at hand
  exact hand

/-- A pointer into an aligned range moves up to an aligned one, at most to its end. -/
theorem realignPointer_spec {ptr top : ℕ} (hle : ptr ≤ top) (hdvd : p.memareaAlign ∣ top)
    (htop : top < p.addresses) :
    p.memareaAlign ∣ realignPointer p ptr ∧ ptr ≤ realignPointer p ptr ∧ realignPointer p ptr ≤ top := by
  have hroom : top + p.memareaAlignMask < p.addresses := by
    unfold Platform.addresses Platform.memareaAlignMask at *
    rcases p.align_eq with h | h
    · rw [h] at hdvd htop ⊢
      omega
    · rw [h] at hdvd htop ⊢
      omega
  rw [realignPointer_eq (by omega)]
  refine ⟨Nat.dvd_mul_left _ _, ?_⟩
  unfold Platform.memareaAlignMask
  rcases p.align_eq with h | h
  · rw [h] at hdvd ⊢
    omega
  · rw [h] at hdvd ⊢
    omega

theorem realignPointer_of_dvd {ptr : ℕ} (hdvd : p.memareaAlign ∣ ptr) (hlt : ptr < p.addresses) :
    realignPointer p ptr = ptr := by
  obtain ⟨_, hge, hle⟩ := realignPointer_spec (le_refl ptr) hdvd hlt
  exact le_antisymm hle hge

theorem align_dvd_chunkSize (p : Platform) : p.memareaAlign ∣ chunkSize := by
  rcases p.align_eq with h | h
  · rw [h]
    decide
  · rw [h]
    decide

/-! ### Allocating a chunk -/

theorem torAssert_of {c : Prop} [Decidable c] (h : c) : torAssert c = .ok () := if_pos h

theorem noFault_torAssert {c : Prop} [Decidable c] : NoFault (torAssert c) ↔ c := by
  unfold torAssert
  split_ifs with h
  · exact iff_of_true (noFault_pure _) h
  · exact iff_of_false (not_noFault_fault _) h

/-- The chunk of `sz` bytes at `a`. -/
def newChunk (p : Platform) (a sz : ℕ) : MemareaChunk := ⟨a, sz - p.chunkHeaderSize, a + p.chunkHeaderSize⟩

theorem fault_allocChunk (hsz : chunkSize ≤ sz) (h : p.sizeTCeiling ≤ sz + sentinelLen) :
    ¬NoFault (allocChunk p malloc m sz) := by
  unfold allocChunk torMalloc
  rw [if_neg (Nat.not_lt.mpr hsz)]
  by_cases hlt : sz < p.sizeTCeiling
  · rw [torAssert_of hlt, ok_bind, noFault_bind, noFault_bind, noFault_torAssert]
    intro hno
    exact absurd hno.1.1 (Nat.not_lt.mpr h)
  · rw [noFault_bind, noFault_torAssert]
    exact fun hno => hlt hno.1

/-- **A new chunk.** -/
theorem allocChunk_eq (hmalloc : MallocOk p area malloc) (hsz : chunkSize ≤ sz)
    (h : sz + sentinelLen < p.sizeTCeiling) :
    allocChunk p malloc m sz =
      match malloc (sz + sentinelLen) with
      | some a => .ok (newChunk p a sz, storeList m (a + sz) sentinelVal)
      | none => reject .outOfMemory := by
  have hheader := p.header_lt
  unfold allocChunk torMalloc
  dsimp only
  rw [if_neg (Nat.not_lt.mpr hsz), torAssert_of (by omega), ok_bind, torAssert_of h, ok_bind]
  cases ha : malloc (sz + sentinelLen) with
  | none => rfl
  | some a =>
    obtain ⟨hdvd, hlt, _⟩ := hmalloc _ _ ha
    have hmem : sz + sentinelLen - p.chunkHeaderSize - sentinelLen = sz - p.chunkHeaderSize := by omega
    have hend : a + p.chunkHeaderSize + (sz - p.chunkHeaderSize) = a + sz := by omega
    have halign : realignPointer p (a + p.chunkHeaderSize) = a + p.chunkHeaderSize :=
      realignPointer_of_dvd (Nat.dvd_add hdvd p.align_dvd) (by omega)
    simp only [pure_bind]
    rw [hmem, hend, torAssert_of (by omega), torAssert_of halign]
    rfl

/-! ### The invariant -/

/-- The part of a chunk that has been handed out. -/
def MemareaChunk.used (p : Platform) (c : MemareaChunk) : Span :=
  ⟨(c.mem p).start, c.nextMem - (c.mem p).start⟩

/-- A chunk: it lies where `raw_malloc` may put it, and its sentinel is set. -/
structure ChunkOk (p : Platform) (m : Memory) (c : MemareaChunk) : Prop where
  aligned : p.memareaAlign ∣ c.addr
  below : (c.region p).top < p.addresses
  sentinel : loadList m (c.mem p).top sentinelLen = sentinelVal

/-- The invariant for the first chunk and the others. -/
structure OkWith (p : Platform) (m : Memory) (handed : List Span) (first : MemareaChunk)
    (rest : List MemareaChunk) : Prop where
  chunks : ∀ c ∈ first :: rest, ChunkOk p m c
  apart : (first :: rest).Pairwise fun c c' => (c.region p).Apart (c'.region p)
  firstSize : p.chunkHeaderSize + first.memSize = chunkSize
  nextAligned : p.memareaAlign ∣ first.nextMem
  nextGe : (first.mem p).start ≤ first.nextMem
  nextLe : first.nextMem ≤ (first.mem p).top
  aligned : ∀ b ∈ handed, p.memareaAlign ∣ b.start
  inside : ∀ b ∈ handed, b.Within (first.used p) ∨ ∃ c ∈ rest, b.Within (c.mem p)

/-- **The invariant**: the first chunk has `CHUNK_SIZE` bytes and its free part starts aligned; in the
others nothing is handed out any more. -/
def MemareaOk (p : Platform) (s : State) : Prop :=
  ∃ first rest, s.area = first :: rest ∧ OkWith p s.mem s.handed first rest

theorem within_region (c : MemareaChunk) : (c.mem p).Within (c.region p) := by
  refine ⟨Nat.le_add_right _ _, ?_⟩
  show c.addr + p.chunkHeaderSize + c.memSize ≤ c.addr + (p.chunkHeaderSize + c.memSize + sentinelLen)
  omega

theorem sentinel_within (c : MemareaChunk) :
    (⟨(c.mem p).top, sentinelLen⟩ : Span).Within (c.region p) := by
  constructor
  · show c.addr ≤ c.addr + p.chunkHeaderSize + c.memSize
    omega
  · show c.addr + p.chunkHeaderSize + c.memSize + sentinelLen ≤
      c.addr + (p.chunkHeaderSize + c.memSize + sentinelLen)
    omega

theorem ChunkOk.carve {c : MemareaChunk} (h : ChunkOk p m c) (n : ℕ) : ChunkOk p m (c.carve p n) :=
  ⟨h.aligned, h.below, h.sentinel⟩

/-- A chunk keeps its sentinel if nothing is stored in its region but in its memory. -/
theorem ChunkOk.congr {c : MemareaChunk} (h : ChunkOk p m c)
    (hm : ∀ x ∈ c.region p, x ∉ c.mem p → m' x = m x) : ChunkOk p m' c := by
  refine ⟨h.aligned, h.below, ?_⟩
  rw [← h.sentinel]
  apply loadList_congr
  intro x hx
  apply hm x ((sentinel_within c).mem hx)
  intro hmem
  exact absurd hmem.2 (Nat.not_lt.mpr hx.1)

/-- The end of the memory of the first chunk is aligned. -/
theorem OkWith.top_aligned {handed : List Span} {first : MemareaChunk} {rest : List MemareaChunk}
    (h : OkWith p m handed first rest) :
    p.memareaAlign ∣ (first.mem p).top ∧ (first.mem p).top < p.addresses := by
  have hok := h.chunks first List.mem_cons_self
  have htop : (first.mem p).top = first.addr + chunkSize := by
    rw [← h.firstSize, ← Nat.add_assoc]
    rfl
  constructor
  · rw [htop]
    exact Nat.dvd_add hok.aligned (align_dvd_chunkSize p)
  · exact (within_region first).2.trans_lt hok.below

section NewChunk

variable {a : ℕ}

theorem newChunk_region (hsz : chunkSize ≤ sz) : (newChunk p a sz).region p = ⟨a, sz + sentinelLen⟩ := by
  have hheader := p.header_lt
  have hsize : p.chunkHeaderSize + (sz - p.chunkHeaderSize) + sentinelLen = sz + sentinelLen := by omega
  unfold MemareaChunk.region newChunk
  rw [hsize]

theorem newChunk_top (hsz : chunkSize ≤ sz) : ((newChunk p a sz).mem p).top = a + sz := by
  have hheader := p.header_lt
  show a + p.chunkHeaderSize + (sz - p.chunkHeaderSize) = a + sz
  omega

theorem chunkOk_newChunk (hmalloc : MallocOk p area malloc) (hsz : chunkSize ≤ sz)
    (ha : malloc (sz + sentinelLen) = some a) :
    ChunkOk p (storeList m (a + sz) sentinelVal) (newChunk p a sz) := by
  obtain ⟨hdvd, hlt, _⟩ := hmalloc _ _ ha
  refine ⟨hdvd, ?_, ?_⟩
  · rw [newChunk_region hsz]
    exact hlt
  · rw [newChunk_top hsz]
    exact loadList_storeList m (a + sz) sentinelVal

theorem chunkOk_storeSentinel (hmalloc : MallocOk p area malloc)
    (ha : malloc (sz + sentinelLen) = some a) {c : MemareaChunk} (hc : c ∈ area) (hok : ChunkOk p m c) :
    ChunkOk p (storeList m (a + sz) sentinelVal) c := by
  obtain ⟨_, _, hapart⟩ := hmalloc _ _ ha
  refine hok.congr fun x hx _ => storeList_of_notMem ?_
  intro hstore
  have hwithin : (⟨a + sz, sentinelVal.length⟩ : Span).Within ⟨a, sz + sentinelLen⟩ :=
    ⟨Nat.le_add_right a sz, (Nat.add_assoc a sz sentinelLen).le⟩
  exact (hapart c hc).notMem hx (hwithin.mem hstore)

end NewChunk

/-! ### Handing out a block -/

section Alloc

variable {handed : List Span} {first : MemareaChunk} {rest : List MemareaChunk}

theorem sizeTCeiling_large (p : Platform) : 2 * chunkSize < p.sizeTCeiling := by
  unfold Platform.sizeTCeiling
  rcases p.align_eq with h | h
  · rw [h]
    decide
  · rw [h]
    decide

theorem le_blockSize (sz : ℕ) : sz ≤ blockSize sz := by
  unfold blockSize
  split_ifs
  · omega
  · exact le_rfl

theorem blockSize_pos (sz : ℕ) : 0 < blockSize sz := by
  unfold blockSize
  split_ifs
  · decide
  · omega

/-- What is free in the first chunk is less than a chunk. -/
theorem OkWith.free_le (h : OkWith p m handed first rest) :
    (first.mem p).top - first.nextMem ≤ chunkSize - p.chunkHeaderSize := by
  have hsize := h.firstSize
  have hge := h.nextGe
  have htop : (first.mem p).top = (first.mem p).start + first.memSize := rfl
  omega

theorem memareaAlloc_fits (h : OkWith p m handed first rest)
    (hsz : blockSize sz ≤ (first.mem p).top - first.nextMem) :
    memareaAlloc p malloc m (first :: rest) sz =
      .ok (first.nextMem, m, first.carve p (blockSize sz) :: rest) := by
  have hsent := (h.chunks first List.mem_cons_self).sentinel
  have hceil : sz < p.sizeTCeiling := by
    have hle := le_blockSize sz
    have hfree := h.free_le
    have hlarge := sizeTCeiling_large p
    omega
  unfold memareaAlloc checkSentinel
  simp only [torAssert_of hsent, torAssert_of hceil, torAssert_of h.nextLe, ok_bind,
    if_neg (Nat.not_lt.mpr hsz)]
  rfl

/-- The size of the chunk that a block gets that does not fit in. -/
def newSize (p : Platform) (sz : ℕ) : ℕ := max chunkSize (blockSize sz + p.chunkHeaderSize)

/-- Where the new chunk is put in. -/
def putChunk (p : Platform) (sz : ℕ) (c first : MemareaChunk) (rest : List MemareaChunk) :
    List MemareaChunk :=
  if chunkSize ≤ blockSize sz + p.chunkHeaderSize then first :: c :: rest else c :: first :: rest

theorem memareaAlloc_more (h : OkWith p m handed first rest) (hmalloc : MallocOk p (first :: rest) malloc)
    (hsz : (first.mem p).top - first.nextMem < blockSize sz)
    (hlt : newSize p sz + sentinelLen < p.sizeTCeiling) :
    memareaAlloc p malloc m (first :: rest) sz =
      match malloc (newSize p sz + sentinelLen) with
      | some a => .ok (a + p.chunkHeaderSize, storeList m (a + newSize p sz) sentinelVal,
          putChunk p sz ((newChunk p a (newSize p sz)).carve p (blockSize sz)) first rest)
      | none => reject .outOfMemory := by
  have hsent := (h.chunks first List.mem_cons_self).sentinel
  have hheader := p.header_lt
  have hceil : sz < p.sizeTCeiling := by
    have hle := le_blockSize sz
    unfold newSize at hlt
    omega
  have hchunk := @allocChunk_eq p m (first :: rest) malloc (newSize p sz) hmalloc (le_max_left _ _) hlt
  have hfits : (newSize p sz - p.chunkHeaderSize) ≥ blockSize sz := by
    unfold newSize
    omega
  unfold memareaAlloc checkSentinel putChunk
  simp only [torAssert_of hsent, torAssert_of hceil, torAssert_of h.nextLe, ok_bind, if_pos hsz, ge_iff_le]
  by_cases hbig : chunkSize ≤ blockSize sz + p.chunkHeaderSize
  · have hsize : newSize p sz = blockSize sz + p.chunkHeaderSize := max_eq_right hbig
    rw [if_pos hbig]
    conv_lhs => rw [← hsize, hchunk]
    cases malloc (newSize p sz + sentinelLen) with
    | none => rfl
    | some a =>
      simp only [ok_bind, if_pos hbig]
      rw [torAssert_of (by exact hfits)]
      rfl
  · have hsize : newSize p sz = chunkSize := max_eq_left (by omega)
    rw [if_neg hbig]
    conv_lhs => rw [← hsize, hchunk]
    cases malloc (newSize p sz + sentinelLen) with
    | none => rfl
    | some a =>
      simp only [ok_bind, if_neg hbig]
      rw [torAssert_of (by exact hfits)]
      rfl

theorem fault_memareaAlloc (h : OkWith p m handed first rest)
    (hlarge : p.sizeTCeiling ≤ newSize p sz + sentinelLen) :
    ¬NoFault (memareaAlloc p malloc m (first :: rest) sz) := by
  have hsent := (h.chunks first List.mem_cons_self).sentinel
  have hceiling := sizeTCeiling_large p
  have hfree := h.free_le
  have hheader := p.header_lt
  have hbig : chunkSize ≤ blockSize sz + p.chunkHeaderSize := by
    unfold newSize at hlarge
    have hlen : sentinelLen < chunkSize := by decide
    omega
  unfold memareaAlloc checkSentinel
  simp only [torAssert_of hsent, torAssert_of h.nextLe, ok_bind, ge_iff_le]
  rw [noFault_bind, noFault_torAssert]
  intro hno
  obtain ⟨hlt, hrest⟩ := hno
  have hmore : blockSize sz > (first.mem p).top - first.nextMem := by
    unfold newSize at hlarge
    have hlen : sentinelLen < chunkSize := by decide
    omega
  have hnofault := hrest () (torAssert_of hlt)
  rw [if_pos hmore, if_pos hbig, noFault_bind] at hnofault
  have hsize : newSize p sz = blockSize sz + p.chunkHeaderSize := max_eq_right hbig
  rw [hsize] at hlarge
  exact fault_allocChunk hbig hlarge hnofault.1

/-- What is handed out lies apart from what is free in the first chunk. -/
theorem OkWith.apart_free (h : OkWith p m handed first rest)
    (hsz : blockSize sz ≤ (first.mem p).top - first.nextMem) :
    ∀ b ∈ handed, b.Apart ⟨first.nextMem, blockSize sz⟩ := by
  have hle := h.nextLe
  intro b hb
  rcases h.inside b hb with hb | ⟨c, hc, hb⟩
  · left
    have hend : (first.used p).top = first.nextMem := Nat.add_sub_cancel' h.nextGe
    exact hend ▸ hb.2
  · have hregion := List.rel_of_pairwise_cons h.apart hc
    have hmem : (⟨first.nextMem, blockSize sz⟩ : Span).Within (first.mem p) := by
      refine ⟨h.nextGe, ?_⟩
      show first.nextMem + blockSize sz ≤ (first.mem p).top
      omega
    exact (hregion.mono (hmem.trans (within_region first)) (hb.trans (within_region c))).symm

theorem OkWith.carve (h : OkWith p m handed first rest)
    (hsz : blockSize sz ≤ (first.mem p).top - first.nextMem) :
    OkWith p m (handed ++ [⟨first.nextMem, blockSize sz⟩]) (first.carve p (blockSize sz)) rest := by
  obtain ⟨htop, hlt⟩ := h.top_aligned
  have hle := h.nextLe
  have hge := h.nextGe
  obtain ⟨hdvd, hlow, hhigh⟩ :=
    @realignPointer_spec p (first.nextMem + blockSize sz) (first.mem p).top (by omega) htop hlt
  have hnext : (first.carve p (blockSize sz)).nextMem =
      realignPointer p (first.nextMem + blockSize sz) := rfl
  have hused : (first.used p).Within ((first.carve p (blockSize sz)).used p) := by
    refine ⟨le_rfl, ?_⟩
    show (first.mem p).start + (first.nextMem - (first.mem p).start) ≤
      (first.mem p).start + ((first.carve p (blockSize sz)).nextMem - (first.mem p).start)
    omega
  have hnew : (⟨first.nextMem, blockSize sz⟩ : Span).Within ((first.carve p (blockSize sz)).used p) := by
    refine ⟨hge, ?_⟩
    show first.nextMem + blockSize sz ≤
      (first.mem p).start + ((first.carve p (blockSize sz)).nextMem - (first.mem p).start)
    omega
  refine ⟨?_, ?_, h.firstSize, hdvd, ?_, hhigh, ?_, ?_⟩
  · exact List.forall_mem_cons.mpr ⟨(h.chunks first List.mem_cons_self).carve _,
      fun c hc => h.chunks c (List.mem_cons_of_mem _ hc)⟩
  · exact List.pairwise_cons.mpr ⟨fun c hc => List.rel_of_pairwise_cons h.apart hc, h.apart.of_cons⟩
  · show (first.mem p).start ≤ _
    omega
  · intro b hb
    rcases List.mem_append.mp hb with hb | hb
    · exact h.aligned b hb
    · rw [List.mem_singleton.mp hb]
      exact h.nextAligned
  · intro b hb
    rcases List.mem_append.mp hb with hb | hb
    · exact (h.inside b hb).imp_left fun hb => hb.trans hused
    · rw [List.mem_singleton.mp hb]
      exact .inl hnew

theorem OkWith.within_mem (h : OkWith p m handed first rest) {b : Span} (hb : b ∈ handed) :
    ∃ c ∈ first :: rest, b.Within (c.mem p) := by
  rcases h.inside b hb with hb | ⟨c, hc, hb⟩
  · have hused : (first.used p).Within (first.mem p) := by
      refine ⟨le_rfl, ?_⟩
      have hend : (first.used p).top = first.nextMem := Nat.add_sub_cancel' h.nextGe
      rw [hend]
      exact h.nextLe
    exact ⟨first, List.mem_cons_self, hb.trans hused⟩
  · exact ⟨c, List.mem_cons_of_mem _ hc, hb⟩

theorem apart_newChunk {a : ℕ} (hmalloc : MallocOk p area malloc) (hsz : chunkSize ≤ sz)
    (ha : malloc (sz + sentinelLen) = some a) :
    ∀ c ∈ area, (c.region p).Apart ((newChunk p a sz).region p) := by
  rw [newChunk_region hsz]
  exact (hmalloc _ _ ha).2.2

/-- A new chunk of `CHUNK_SIZE` bytes in front of the others. -/
theorem OkWith.pushFirst {a : ℕ} (h : OkWith p m handed first rest)
    (hmalloc : MallocOk p (first :: rest) malloc) (ha : malloc (chunkSize + sentinelLen) = some a) :
    OkWith p (storeList m (a + chunkSize) sentinelVal) handed (newChunk p a chunkSize) (first :: rest) := by
  have hheader := p.header_lt
  refine ⟨?_, ?_, ?_, ?_, le_rfl, Nat.le_add_right _ _, h.aligned, ?_⟩
  · exact List.forall_mem_cons.mpr ⟨chunkOk_newChunk hmalloc le_rfl ha,
      fun c hc => chunkOk_storeSentinel hmalloc ha hc (h.chunks c hc)⟩
  · exact List.pairwise_cons.mpr ⟨fun c hc => (apart_newChunk hmalloc le_rfl ha c hc).symm, h.apart⟩
  · show p.chunkHeaderSize + (chunkSize - p.chunkHeaderSize) = chunkSize
    omega
  · exact Nat.dvd_add (hmalloc _ _ ha).1 p.align_dvd
  · exact fun b hb => .inr (h.within_mem hb)

theorem within_newChunk {a n : ℕ} (hsz : chunkSize ≤ n + p.chunkHeaderSize) :
    (⟨a + p.chunkHeaderSize, n⟩ : Span).Within ((newChunk p a (n + p.chunkHeaderSize)).mem p) := by
  refine ⟨le_rfl, ?_⟩
  rw [newChunk_top hsz]
  show a + p.chunkHeaderSize + n ≤ a + (n + p.chunkHeaderSize)
  omega

theorem OkWith.apart_second {a n : ℕ} (h : OkWith p m handed first rest)
    (hmalloc : MallocOk p (first :: rest) malloc) (hsz : chunkSize ≤ n + p.chunkHeaderSize)
    (ha : malloc (n + p.chunkHeaderSize + sentinelLen) = some a) :
    ∀ b ∈ handed, b.Apart ⟨a + p.chunkHeaderSize, n⟩ := by
  intro b hb
  obtain ⟨c, hc, hb⟩ := h.within_mem hb
  exact (apart_newChunk hmalloc hsz ha c hc).mono (hb.trans (within_region c))
    ((within_newChunk hsz).trans (within_region _))

theorem OkWith.pushSecond {a n : ℕ} (h : OkWith p m handed first rest)
    (hmalloc : MallocOk p (first :: rest) malloc) (hsz : chunkSize ≤ n + p.chunkHeaderSize)
    (ha : malloc (n + p.chunkHeaderSize + sentinelLen) = some a) :
    OkWith p (storeList m (a + (n + p.chunkHeaderSize)) sentinelVal)
      (handed ++ [⟨a + p.chunkHeaderSize, n⟩]) first
      ((newChunk p a (n + p.chunkHeaderSize)).carve p n :: rest) := by
  have hapart := apart_newChunk hmalloc hsz ha
  refine ⟨?_, ?_, h.firstSize, h.nextAligned, h.nextGe, h.nextLe, ?_, ?_⟩
  · refine List.forall_mem_cons.mpr
      ⟨chunkOk_storeSentinel hmalloc ha List.mem_cons_self (h.chunks first List.mem_cons_self), ?_⟩
    refine List.forall_mem_cons.mpr ⟨(chunkOk_newChunk hmalloc hsz ha).carve n, ?_⟩
    intro c hc
    have hc' : c ∈ first :: rest := List.mem_cons_of_mem _ hc
    exact chunkOk_storeSentinel hmalloc ha hc' (h.chunks c hc')
  · obtain ⟨hfirst, hrest⟩ := List.pairwise_cons.mp h.apart
    refine List.pairwise_cons.mpr ⟨?_, List.pairwise_cons.mpr ⟨?_, hrest⟩⟩
    · exact List.forall_mem_cons.mpr ⟨hapart first List.mem_cons_self, hfirst⟩
    · exact fun c hc => (hapart c (List.mem_cons_of_mem _ hc)).symm
  · intro b hb
    rcases List.mem_append.mp hb with hb | hb
    · exact h.aligned b hb
    · rw [List.mem_singleton.mp hb]
      exact Nat.dvd_add (hmalloc _ _ ha).1 p.align_dvd
  · intro b hb
    rcases List.mem_append.mp hb with hb | hb
    · rcases h.inside b hb with hb | ⟨c, hc, hb⟩
      · exact .inl hb
      · exact .inr ⟨c, List.mem_cons_of_mem _ hc, hb⟩
    · rw [List.mem_singleton.mp hb]
      exact .inr ⟨_, List.mem_cons_self, within_newChunk hsz⟩

/-- **Handing out a block** keeps the invariant, and the block is apart from those handed out before. -/
theorem memareaOk_alloc {s : State} {result : ℕ} (hs : MemareaOk p s) (hmalloc : MallocOk p s.area malloc)
    (h : memareaAlloc p malloc s.mem s.area sz = .ok (result, m', area)) :
    MemareaOk p ⟨m', area, s.handed ++ [⟨result, blockSize sz⟩]⟩ ∧
      ∀ b ∈ s.handed, b.Apart ⟨result, blockSize sz⟩ := by
  obtain ⟨first, rest, harea, hok⟩ := hs
  rw [harea] at h hmalloc
  by_cases hsz : blockSize sz ≤ (first.mem p).top - first.nextMem
  · rw [memareaAlloc_fits hok hsz] at h
    cases h
    exact ⟨⟨_, _, rfl, hok.carve hsz⟩, hok.apart_free hsz⟩
  · rw [not_le] at hsz
    have hlt : newSize p sz + sentinelLen < p.sizeTCeiling := by
      by_contra hlarge
      have hno : NoFault (memareaAlloc p malloc s.mem (first :: rest) sz) := by
        rw [h]
        exact noFault_ok _
      exact fault_memareaAlloc hok (not_lt.mp hlarge) hno
    rw [memareaAlloc_more hok hmalloc hsz hlt] at h
    cases ha : malloc (newSize p sz + sentinelLen) with
    | none =>
      rw [ha] at h
      cases h
    | some a =>
      rw [ha] at h
      cases h
      unfold putChunk
      split_ifs with hbig
      · have hsize : newSize p sz = blockSize sz + p.chunkHeaderSize := max_eq_right hbig
        rw [hsize] at ha ⊢
        exact ⟨⟨_, _, rfl, hok.pushSecond hmalloc hbig ha⟩, hok.apart_second hmalloc hbig ha⟩
      · have hsize : newSize p sz = chunkSize := max_eq_left (by omega)
        rw [hsize] at ha ⊢
        have hfree : blockSize sz ≤
            ((newChunk p a chunkSize).mem p).top - (newChunk p a chunkSize).nextMem := by
          rw [newChunk_top le_rfl]
          show blockSize sz ≤ a + chunkSize - (a + p.chunkHeaderSize)
          omega
        have hpush := hok.pushFirst hmalloc ha
        exact ⟨⟨_, _, rfl, hpush.carve hfree⟩, hpush.apart_free hfree⟩

theorem noFault_memareaAlloc_iff (h : OkWith p m handed first rest)
    (hmalloc : MallocOk p (first :: rest) malloc) :
    NoFault (memareaAlloc p malloc m (first :: rest) sz) ↔
      sz + p.chunkHeaderSize + sentinelLen < p.sizeTCeiling := by
  have hheader := p.header_lt
  have hceiling := sizeTCeiling_large p
  have hlen : sentinelLen = 4 := rfl
  have hchunk : chunkSize = 4096 := rfl
  have hsize : newSize p sz + sentinelLen < p.sizeTCeiling ↔
      sz + p.chunkHeaderSize + sentinelLen < p.sizeTCeiling := by
    unfold newSize blockSize
    split_ifs with hzero
    · omega
    · omega
  rw [← hsize]
  constructor
  · intro hno
    by_contra hlarge
    exact fault_memareaAlloc h (not_lt.mp hlarge) hno
  · intro hlt
    by_cases hfits : blockSize sz ≤ (first.mem p).top - first.nextMem
    · rw [memareaAlloc_fits h hfits]
      exact noFault_ok _
    · rw [memareaAlloc_more h hmalloc (not_le.mp hfits) hlt]
      cases malloc (newSize p sz + sentinelLen) with
      | none => exact noFault_reject _
      | some a => exact noFault_ok _

end Alloc

/-! ### The other calls -/

theorem forM_checkSentinel (l : List MemareaChunk) (h : ∀ c ∈ l, ChunkOk p m c) :
    l.forM (checkSentinel p m) = .ok () := by
  induction l with
  | nil => rfl
  | cons c l ih =>
    have hc : checkSentinel p m c = .ok () := torAssert_of (h c List.mem_cons_self).sentinel
    show (checkSentinel p m c >>= fun _ => l.forM (checkSentinel p m)) = .ok ()
    rw [hc, ok_bind]
    exact ih fun c' hc' => h c' (List.mem_cons_of_mem c hc')

theorem memareaClear_eq {handed : List Span} {first : MemareaChunk} {rest : List MemareaChunk}
    (h : OkWith p m handed first rest) :
    memareaClear p m (first :: rest) = .ok [{ first with nextMem := (first.mem p).start }] := by
  have hall := forM_checkSentinel rest fun c hc => h.chunks c (List.mem_cons_of_mem first hc)
  show (rest.forM (checkSentinel p m) >>= fun _ => _) = _
  rw [hall]
  rfl

theorem memareaOk_clear {s : State} (hs : MemareaOk p s)
    (h : memareaClear p s.mem s.area = .ok area) : MemareaOk p ⟨s.mem, area, []⟩ := by
  obtain ⟨first, rest, harea, hok⟩ := hs
  rw [harea, memareaClear_eq hok] at h
  cases h
  have hfirst := hok.chunks first List.mem_cons_self
  refine ⟨_, [], rfl, ?_, List.pairwise_singleton _ _, hok.firstSize, ?_, le_rfl, Nat.le_add_right _ _,
    ?_, ?_⟩
  · exact List.forall_mem_singleton.mpr ⟨hfirst.aligned, hfirst.below, hfirst.sentinel⟩
  · exact Nat.dvd_add hfirst.aligned p.align_dvd
  · simp
  · simp

theorem memareaOk_store {s : State} {a : ℕ} {v : UInt8} (hs : MemareaOk p s)
    (h : (∃ b ∈ s.handed, a ∈ b) ∨ ∀ c ∈ s.area, a ∉ c.region p) :
    MemareaOk p { s with mem := Function.update s.mem a v } := by
  obtain ⟨first, rest, harea, hok⟩ := hs
  refine ⟨first, rest, harea, { hok with chunks := ?_ }⟩
  intro c hc
  refine (hok.chunks c hc).congr fun x hx hmem => Function.update_of_ne ?_ v s.mem
  rintro rfl
  rw [harea] at h
  rcases h with ⟨b, hb, hxb⟩ | hout
  · -- the block lies in the memory of this chunk, or in another one
    obtain ⟨c', hc', hwithin⟩ := hok.within_mem hb
    have hxc' := hwithin.mem hxb
    by_cases heq : c' = c
    · exact hmem (heq ▸ hxc')
    · have hsymm : Std.Symm fun c c' : MemareaChunk => (c.region p).Apart (c'.region p) :=
        ⟨fun _ _ hcc => hcc.symm⟩
      have happart := hok.apart.forall hc' hc heq
      exact happart.notMem ((within_region c').mem hxc') hx
  · exact hout c hc hx

theorem memareaOk_new (hmalloc : MallocOk p [] malloc) (h : memareaNew p malloc m = .ok (area, m')) :
    MemareaOk p ⟨m', area, []⟩ := by
  have hceiling := sizeTCeiling_large p
  have hlen : sentinelLen < chunkSize := by decide
  have hheader := p.header_lt
  unfold memareaNew at h
  rw [allocChunk_eq hmalloc le_rfl (by omega)] at h
  cases ha : malloc (chunkSize + sentinelLen) with
  | none =>
    rw [ha] at h
    cases h
  | some a =>
    rw [ha] at h
    cases h
    refine ⟨_, [], rfl, ?_, List.pairwise_singleton _ _, ?_, ?_, le_rfl, Nat.le_add_right _ _, ?_, ?_⟩
    · exact List.forall_mem_singleton.mpr (chunkOk_newChunk hmalloc le_rfl ha)
    · show p.chunkHeaderSize + (chunkSize - p.chunkHeaderSize) = chunkSize
      omega
    · exact Nat.dvd_add (hmalloc _ _ ha).1 p.align_dvd
    · simp
    · simp

/-! ### Runs -/

def Event.view : Event → ArenaEvent
  | .alloc _ sz => .alloc sz
  | .clear => .clear
  | .store _ _ => .use

/-- **A step** keeps the invariant and is one of an arena. -/
theorem arenaStep_of_step {s s' : State} {e : Event} (hs : MemareaOk p s) (h : Step p s e s') :
    MemareaOk p s' ∧ ArenaStep p.memareaAlign s.handed e.view s'.handed := by
  cases e with
  | alloc malloc sz =>
    obtain ⟨hmalloc, result, m, area, halloc, rfl⟩ := h
    obtain ⟨hok, hapart⟩ := memareaOk_alloc hs hmalloc halloc
    have haligned : p.memareaAlign ∣ result := by
      obtain ⟨first, rest, _, hwith⟩ := hok
      exact hwith.aligned ⟨result, blockSize sz⟩ (List.mem_append_right _ (List.mem_singleton_self _))
    exact ⟨hok, .alloc haligned (blockSize_pos sz) (le_blockSize sz) hapart⟩
  | clear =>
    obtain ⟨area, hclear, rfl⟩ := h
    exact ⟨memareaOk_clear hs hclear, .clear⟩
  | store a v =>
    obtain ⟨hplace, rfl⟩ := h
    exact ⟨memareaOk_store hs hplace, .use⟩

/-- A step of an arena, for an event of an area. -/
def AStep (p : Platform) (live : List Span) (e : Event) (live' : List Span) : Prop :=
  ArenaStep p.memareaAlign live e.view live'

/-- **An area is an arena**: its runs are runs of the arena. -/
theorem arenaRun_of_run {s s' : State} {es : List Event} (hs : MemareaOk p s)
    (hrun : Run (Step p) s es s') : MemareaOk p s' ∧ Run (AStep p) s.handed es s'.handed := by
  have hstep : ∀ (s : State) (e : Event) (s' : State) (live : List Span),
      MemareaOk p s ∧ s.handed = live → Step p s e s' →
        ∃ live', AStep p live e live' ∧ MemareaOk p s' ∧ s'.handed = live' := by
    intro s e s' live hR h
    obtain ⟨hs, rfl⟩ := hR
    obtain ⟨hs', ha⟩ := arenaStep_of_step hs h
    exact ⟨_, ha, hs', rfl⟩
  obtain ⟨live, harun, hok, rfl⟩ := Run.simulation hstep hrun ⟨hs, rfl⟩
  exact ⟨hok, harun⟩

/-- **Memory areas.**  After every sequence of calls a further one fails an assertion exactly if the size
with the header and the sentinel reaches `SIZE_T_CEILING`; the blocks handed out since the last clear are
aligned, each in the memory of its chunk, and apart; and the first chunk has `CHUNK_SIZE` bytes. -/
theorem memarea_of_run {malloc₀ : ℕ → Option ℕ} {m₀ m₁ : Memory} {area₀ : List MemareaChunk}
    {es : List Event} {s : State} (hmalloc : MallocOk p [] malloc₀)
    (hnew : memareaNew p malloc₀ m₀ = .ok (area₀, m₁)) (hrun : Run (Step p) ⟨m₁, area₀, []⟩ es s) :
    (∀ malloc sz, MallocOk p s.area malloc →
        (NoFault (memareaAlloc p malloc s.mem s.area sz) ↔
          sz + p.chunkHeaderSize + sentinelLen < p.sizeTCeiling)) ∧
      (∀ b ∈ s.handed, p.memareaAlign ∣ b.start ∧ ∃ c ∈ s.area, b.Within (c.mem p)) ∧
      s.handed.Pairwise Span.Apart ∧
      ∃ first rest, s.area = first :: rest ∧ p.chunkHeaderSize + first.memSize = chunkSize := by
  obtain ⟨⟨first, rest, harea, hok⟩, harun⟩ := arenaRun_of_run (memareaOk_new hmalloc hnew) hrun
  have hapart : s.handed.Pairwise Span.Apart := by
    refine Run.invariant (I := fun live => live.Pairwise Span.Apart) ?_ harun List.Pairwise.nil
    intro live e live' h hstep
    exact apart_of_arenaStep h hstep
  refine ⟨?_, ?_, hapart, first, rest, harea, hok.firstSize⟩
  · intro malloc sz hm
    rw [harea] at hm ⊢
    exact noFault_memareaAlloc_iff hok hm
  · intro b hb
    rw [harea]
    exact ⟨hok.aligned b hb, hok.within_mem hb⟩

def platform64 : Platform := ⟨8, .inr rfl, 24, by decide, by decide⟩

/-- Memory for one chunk, at `a`. -/
def oneChunk (a : ℕ) (size : ℕ) : Option ℕ := if size ≤ 10000 then some a else none

theorem mallocOk_oneChunk {area : List MemareaChunk} {a : ℕ} (hdvd : 8 ∣ a) (hlt : a < 2 ^ 63)
    (hbelow : ∀ c ∈ area, (c.region platform64).top ≤ a) : MallocOk platform64 area (oneChunk a) := by
  intro size a' h
  unfold oneChunk at h
  split_ifs at h with hsize
  cases h
  refine ⟨hdvd, ?_, fun c hc => .inl (hbelow c hc)⟩
  show a + size < 2 ^ (8 * 8)
  omega

def freshArea : List MemareaChunk := [newChunk platform64 65536 chunkSize]

theorem memareaNew_fresh : memareaNew platform64 (oneChunk 65536) (fun _ => 0) =
    .ok (freshArea, storeList (fun _ => 0) (65536 + chunkSize) sentinelVal) := by
  have hmalloc : MallocOk platform64 [] (oneChunk 65536) :=
    mallocOk_oneChunk (by decide) (by decide) (by simp)
  unfold memareaNew
  rw [allocChunk_eq hmalloc le_rfl (by decide)]
  rfl

/-- A block of no bytes, and one that gets a chunk of its own. -/
theorem memarea_of_run_two : ∃ s, Run (Step platform64)
    ⟨storeList (fun _ => 0) (65536 + chunkSize) sentinelVal, freshArea, []⟩
      [.alloc (oneChunk 131072) 0, .alloc (oneChunk 131072) 5000] s ∧
    s.handed = [⟨65560, 1⟩, ⟨131096, 5000⟩] ∧ s.handed.Pairwise Span.Apart := by
  have hmalloc : MallocOk platform64 [] (oneChunk 65536) :=
    mallocOk_oneChunk (by decide) (by decide) (by simp)
  have hcalls : (do
      let r ← memareaAlloc platform64 (oneChunk 131072)
        (storeList (fun _ => 0) (65536 + chunkSize) sentinelVal) freshArea 0
      let r' ← memareaAlloc platform64 (oneChunk 131072) r.2.1 r.2.2 5000
      return (r.1, r.2.2, r'.1)) = .ok (65560, [⟨65536, 4072, 65568⟩], 131096) := by
    decide +kernel
  obtain ⟨⟨result, m, area⟩, hfirst, hrest⟩ := bind_eq_ok.mp hcalls
  obtain ⟨⟨result', m', area'⟩, hsecond, hresults⟩ := bind_eq_ok.mp hrest
  cases hresults
  have hrun : Run (Step platform64) ⟨storeList (fun _ => 0) (65536 + chunkSize) sentinelVal, freshArea, []⟩
      [.alloc (oneChunk 131072) 0, .alloc (oneChunk 131072) 5000]
        ⟨m', area', [⟨65560, 1⟩, ⟨131096, 5000⟩]⟩ := by
    refine .cons ⟨?_, 65560, m, _, hfirst, rfl⟩ (.cons ⟨?_, 131096, m', area', hsecond, rfl⟩ (.nil _))
    · exact mallocOk_oneChunk (by decide) (by decide) (by decide)
    · refine mallocOk_oneChunk (by decide) (by decide) ?_
      show ∀ c ∈ [(⟨65536, 4072, 65568⟩ : MemareaChunk)], (c.region platform64).top ≤ 131072
      decide
  exact ⟨_, hrun, rfl, (memarea_of_run hmalloc memareaNew_fresh hrun).2.2.1⟩

/-- Too large a size fails the first assertion on it. -/
theorem not_memarea_tooLarge :
    ¬∀ (p : Platform) (malloc₀ : ℕ → Option ℕ) (m₀ m₁ : Memory) (area₀ : List MemareaChunk)
      (es : List Event) (s : State), MallocOk p [] malloc₀ → memareaNew p malloc₀ m₀ = .ok (area₀, m₁) →
        Run (Step p) ⟨m₁, area₀, []⟩ es s →
          ∀ malloc sz, MallocOk p s.area malloc → NoFault (memareaAlloc p malloc s.mem s.area sz) := by
  intro hall
  have hmalloc : MallocOk platform64 [] (oneChunk 65536) :=
    mallocOk_oneChunk (by decide) (by decide) (by simp)
  have hnofault := hall platform64 (oneChunk 65536) (fun _ => 0) _ _ [] _ hmalloc memareaNew_fresh
    (.nil _) (oneChunk 131072) (2 ^ 63) (mallocOk_oneChunk (by decide) (by decide) (by decide))
  obtain ⟨first, rest, harea, hok⟩ := memareaOk_new hmalloc memareaNew_fresh
  rw [harea] at hnofault
  exact fault_memareaAlloc hok (by decide) hnofault

end TorEbpf.Memarea
