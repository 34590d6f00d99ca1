import Mathlib

/-!
# Chunked buffers

`buffers.c`: a buffer is a chain of chunks of memory, each with a range of it in use.  A chunk has an
address, by which the buffer knows its last one; the allocator hands the addresses out.  An operation
yields nothing where an assertion of the source fails or a copy leaves a chunk.

* `Buf.Ok` — what the operations keep of a buffer, and what `bufAssertOk` asks for
  (`bufAssertOk_of_ok`);
* `Cell` — a buffer among the chunks of all others, with the count of the allocated bytes;
* one lemma for each operation says that it succeeds and what becomes of the bytes (`bufAdd_spec`,
  `bufDrain_spec`, `bufPullup_spec`, and so on).
-/

namespace TorEbpf.Buffers

/-! ### Chunks -/

/-- `CHUNK_OVERHEAD`: the header of a chunk and the sentinel behind its memory. -/
def chunkOverhead : ℕ := 48

def minChunkAlloc : ℕ := 256

def maxChunkAlloc : ℕ := 65536

def bufMaxLen : ℕ := 2147483646

def sizeTCeiling : ℕ := 9223372036854775791

def chunkAllocSize (memlen : ℕ) : ℕ := chunkOverhead + memlen

/-- A chunk (`chunk_t`), without its link: the chain of a buffer is a list.  `data` is an offset in
`mem`. -/
structure Chunk where
  addr : ℕ
  datalen : ℕ
  dbgAlloc : ℕ
  data : ℕ
  mem : List UInt8
deriving DecidableEq

def Chunk.memlen (c : Chunk) : ℕ := c.mem.length

def Chunk.bytes (c : Chunk) : List UInt8 := (c.mem.drop c.data).take c.datalen

def Chunk.remainingCapacity (c : Chunk) : ℕ := c.memlen - (c.data + c.datalen)

/-- A copy of bytes to `CHUNK_WRITE_PTR`, which then belong to the chunk. -/
def Chunk.write (c : Chunk) (string : List UInt8) : Option Chunk :=
  let at' := c.data + c.datalen
  if at' + string.length ≤ c.memlen then
    some { c with
      mem := c.mem.take at' ++ string ++ c.mem.drop (at' + string.length)
      datalen := c.datalen + string.length }
  else none

def chunkRepack (c : Chunk) : Chunk :=
  if c.datalen ≠ 0 ∧ c.data ≠ 0 then { c with mem := c.bytes ++ c.mem.drop c.datalen, data := 0 }
  else { c with data := 0 }

/-- What `tor_malloc` and `tor_realloc` do: they return an address that is not in use (or the old one),
and memory with anything in it. -/
structure Allocator where
  malloc : List ℕ → ℕ
  realloc : List ℕ → ℕ → ℕ
  junk : ℕ → UInt8
  malloc_fresh : ∀ used, malloc used ∉ used
  realloc_fresh : ∀ used addr, realloc used addr = addr ∨ realloc used addr ∉ used

def Allocator.memory (m : Allocator) (len : ℕ) : List UInt8 := (List.range len).map m.junk

/-- `buf_chunk_free_unchecked`: the number of bytes allocated, without those of the chunk. -/
def bufChunkFreeUnchecked (c : Chunk) (total : ℕ) : Option ℕ :=
  if chunkAllocSize c.memlen ≠ c.dbgAlloc then none
  else if total < chunkAllocSize c.memlen then none
  else some (total - chunkAllocSize c.memlen)

def chunkNewWithAllocSize (m : Allocator) (used : List ℕ) (alloc : ℕ) : Option Chunk :=
  let memlen := alloc - chunkOverhead
  -- the assertion of `CHUNK_SET_SENTINEL`
  if chunkAllocSize memlen ≠ alloc then none
  else some ⟨m.malloc used, 0, alloc, 0, m.memory memlen⟩

def chunkGrow (m : Allocator) (used : List ℕ) (c : Chunk) (sz : ℕ) : Option Chunk :=
  if sz ≤ c.memlen then none
  else if c.dbgAlloc ≠ chunkAllocSize c.memlen then none
  else some { c with
    addr := m.realloc used c.addr
    dbgAlloc := chunkAllocSize sz
    mem := c.mem ++ m.memory (sz - c.memlen) }

/-- The loop of `buf_preferred_chunk_size`. -/
def doubleUntil (target sz : ℕ) : ℕ :=
  if _h : 0 < sz ∧ sz - chunkOverhead < target then doubleUntil target (2 * sz) else sz
termination_by target + chunkOverhead - sz
decreasing_by omega

def bufPreferredChunkSize (target : ℕ) : Option ℕ :=
  if target > sizeTCeiling - chunkOverhead then none
  else if chunkAllocSize target ≥ maxChunkAlloc then some (chunkAllocSize target)
  else some (doubleUntil target minChunkAlloc)

/-! ### Buffers -/

/-- A buffer (`buf_t`): the chunks from `head` on, and the address of the one that `tail` points to. -/
structure Buf where
  chunks : List Chunk
  tail : Option ℕ
  datalen : ℕ
  defaultChunkSize : ℕ
deriving DecidableEq

def Buf.addrs (b : Buf) : List ℕ := b.chunks.map Chunk.addr

/-- The bytes of a buffer: those of its chunks one after the other. -/
def Buf.bytes (b : Buf) : List UInt8 := b.chunks.flatMap Chunk.bytes

def bufNew : Buf := ⟨[], none, 0, 4096⟩

def bufNewWithCapacity (size : ℕ) : Option Buf :=
  (bufPreferredChunkSize size).map fun sz => { bufNew with defaultChunkSize := sz }

/-- The checks of `buf_assert_ok` on the chunks. -/
def chunksAssertOk (tail : Option ℕ) : List Chunk → Bool
  | [] => true
  | c :: cs =>
    c.datalen ≤ c.memlen && c.datalen ≤ bufMaxLen && c.data ≤ c.memlen &&
      c.data + c.datalen ≤ c.memlen && (!cs.isEmpty || tail = some c.addr) && chunksAssertOk tail cs

def bufAssertOk (b : Buf) : Bool :=
  if b.chunks.isEmpty then b.tail.isNone && b.datalen = 0
  else b.tail.isSome && chunksAssertOk b.tail b.chunks && b.datalen = (b.chunks.map Chunk.datalen).sum

/-- `tail->next = rest`, in the chain of the buffer: what was behind the chunk at `tail` is cut off. -/
def linkBehind (tail : ℕ) (rest : List Chunk) : List Chunk → Option (List Chunk)
  | [] => none
  | c :: cs => if c.addr = tail then some (c :: rest) else (linkBehind tail rest cs).map (c :: ·)

/-- A change of the chunk at `tail`. -/
def changeAt (tail : ℕ) (f : Chunk → Option Chunk) : List Chunk → Option (List Chunk)
  | [] => none
  | c :: cs =>
    if c.addr = tail then (f c).map (· :: cs) else (changeAt tail f cs).map (c :: ·)

def chunkAt (addr : ℕ) (chunks : List Chunk) : Option Chunk := chunks.find? (·.addr = addr)

/-- A buffer, the addresses of all other chunks, and `total_bytes_allocated_in_chunks`. -/
structure Cell where
  buf : Buf
  others : List ℕ
  total : ℕ

def Cell.used (s : Cell) : List ℕ := s.others ++ s.buf.addrs

/-- The size of the chunk that `buf_add_chunk_with_capacity` allocates. -/
def newChunkAlloc (defaultChunkSize capacity : ℕ) (capped : Bool) : Option ℕ :=
  if chunkAllocSize capacity < defaultChunkSize then some defaultChunkSize
  else if capped ∧ chunkAllocSize capacity > maxChunkAlloc then some maxChunkAlloc
  else bufPreferredChunkSize capacity

/-- Chunks behind the last one of a buffer; `head` and `tail` are both there or both missing. -/
def appendChunks (b : Buf) (rest : List Chunk) : Option (List Chunk) :=
  match b.tail with
  | some tail => if b.chunks.isEmpty then none else linkBehind tail rest b.chunks
  | none => if b.chunks.isEmpty then some rest else none

def bufAddChunkWithCapacity (m : Allocator) (s : Cell) (capacity : ℕ) (capped : Bool) :
    Option Cell := do
  let alloc ← newChunkAlloc s.buf.defaultChunkSize capacity capped
  let chunk ← chunkNewWithAllocSize m s.used alloc
  let chunks ← appendChunks s.buf [chunk]
  return { s with
    buf := { s.buf with chunks, tail := some chunk.addr }
    total := s.total + alloc }

def bufSlack (b : Buf) : ℕ :=
  match b.tail.bind fun tail => chunkAt tail b.chunks with
  | some c => c.remainingCapacity
  | none => 0

/-- Bytes written into the last chunk, as `buf_add` and the reads from a socket or from TLS do it. -/
def writeTail (s : Cell) (string : List UInt8) : Option Cell := do
  let tail ← s.buf.tail
  let chunks ← changeAt tail (fun c => c.write string) s.buf.chunks
  return { s with buf := { s.buf with chunks, datalen := s.buf.datalen + string.length } }

/-- The loop of `buf_add`.  A new chunk without room would be a loop without end. -/
def addLoop (m : Allocator) (s : Cell) (string : List UInt8) : Option Cell :=
  if string = [] then some s
  else
    match (if bufSlack s.buf = 0 then bufAddChunkWithCapacity m s string.length true else some s) with
    | none => none
    | some s =>
      let copy := min (bufSlack s.buf) string.length
      if _h : copy = 0 then none
      else
        match writeTail s (string.take copy) with
        | none => none
        | some s => addLoop m s (string.drop copy)
termination_by string.length
decreasing_by
  rw [List.length_drop]
  omega

/-- `buf_add`: the state and the result. -/
def bufAdd (m : Allocator) (s : Cell) (string : List UInt8) : Option (Cell × ℤ) :=
  if string = [] then some (s, s.buf.datalen)
  else if s.buf.datalen > bufMaxLen then some (s, -1)
  -- the difference of the source wraps around where the string is longer than the bound
  else if string.length ≤ bufMaxLen ∧ s.buf.datalen > bufMaxLen - string.length then some (s, -1)
  else do
    let s ← addLoop m s string
    if s.buf.datalen > bufMaxLen then none
    else return (s, s.buf.datalen)

def peekLoop : List Chunk → ℕ → Option (List UInt8)
  | _, 0 => some []
  | [], _ + 1 => none
  | c :: cs, n + 1 =>
    let copy := min (n + 1) c.datalen
    (peekLoop cs (n + 1 - copy)).map (c.bytes.take copy ++ ·)

def bufPeek (b : Buf) (stringLen : ℕ) : Option (List UInt8) :=
  if stringLen > b.datalen then none else peekLoop b.chunks stringLen

/-- The loop of `buf_drain`, over the chunks. -/
def drainLoop (tail : Option ℕ) (datalen total : ℕ) :
    List Chunk → ℕ → Option (List Chunk × Option ℕ × ℕ × ℕ)
  | chunks, 0 => some (chunks, tail, datalen, total)
  | [], _ + 1 => none
  | c :: cs, n + 1 =>
    if c.datalen > n + 1 then
      some ({ c with datalen := c.datalen - (n + 1), data := c.data + (n + 1) } :: cs, tail,
        datalen - (n + 1), total)
    else
      match bufChunkFreeUnchecked c total with
      | none => none
      | some total =>
        drainLoop (if tail = some c.addr then none else tail) (datalen - c.datalen) total cs
          (n + 1 - c.datalen)

def bufDrain (s : Cell) (n : ℕ) : Option Cell :=
  if s.buf.datalen < n then none
  else do
    let (chunks, tail, datalen, total) ← drainLoop s.buf.tail s.buf.datalen s.total s.buf.chunks n
    return { s with buf := { s.buf with chunks, tail, datalen }, total }

def bufGetBytes (s : Cell) (stringLen : ℕ) : Option (Cell × List UInt8) := do
  let string ← bufPeek s.buf stringLen
  let s ← bufDrain s stringLen
  if s.buf.datalen > bufMaxLen then none
  else return (s, string)

/-- The loop of `buf_pullup`: the chunks behind `dest` move into it. -/
def pullLoop (bytes : ℕ) (dest : Chunk) (tail : Option ℕ) (total : ℕ) :
    List Chunk → Option (Chunk × List Chunk × Option ℕ × ℕ)
  | [] => if bytes ≤ dest.datalen then some (dest, [], tail, total) else none
  | src :: rest =>
    let n := bytes - dest.datalen
    if bytes ≤ dest.datalen then some (dest, src :: rest, tail, total)
    else if src.datalen ≤ n then
      match dest.write src.bytes, bufChunkFreeUnchecked src total with
      | some dest', some total =>
        pullLoop bytes dest' (if tail = some src.addr then some dest.addr else tail) total rest
      | _, _ => none
    else
      match dest.write (src.bytes.take n) with
      | none => none
      | some dest' =>
        if dest'.datalen ≠ bytes then none
        else
          some (dest', { src with data := src.data + n, datalen := src.datalen - n } :: rest, tail,
            total)

/-- The first chunk of a buffer, with room for `capacity` bytes in all, and the number of bytes
allocated. -/
def roomInHead (m : Allocator) (used : List ℕ) (head : Chunk) (capacity total : ℕ) :
    Option (Chunk × ℕ) :=
  if capacity ≤ head.memlen then
    let needed := capacity - head.datalen
    let head := if head.remainingCapacity < needed then chunkRepack head else head
    if head.remainingCapacity < needed then none else some (head, total)
  else do
    let sz ← bufPreferredChunkSize capacity
    let newhead ← chunkGrow m used (chunkRepack head) (sz - chunkOverhead)
    if newhead.memlen < capacity then none
    else return (newhead, total + chunkAllocSize newhead.memlen - chunkAllocSize head.memlen)

/-- `buf_pullup`: the state, and the bytes at `*head_out`. -/
def bufPullup (m : Allocator) (s : Cell) (bytes : ℕ) : Option (Cell × List UInt8) :=
  match s.buf.chunks with
  | [] => some (s, [])
  | head :: rest =>
    let bytes := min bytes s.buf.datalen
    if bytes ≤ head.datalen then some (s, head.bytes)
    else do
      let (newhead, total) ← roomInHead m s.used head bytes s.total
      let tail := if s.buf.tail = some head.addr then some newhead.addr else s.buf.tail
      let (dest, rest, tail, total) ← pullLoop bytes newhead tail total rest
      return ({ s with buf := { s.buf with chunks := dest :: rest, tail }, total }, dest.bytes)

def bufClear (s : Cell) : Option Cell := do
  let total ← s.buf.chunks.foldlM (fun total c => bufChunkFreeUnchecked c total) s.total
  return { s with buf := { s.buf with chunks := [], tail := none, datalen := 0 }, total }

/-- The loop of `buf_copy`: the copies of some chunks, behind those that the new buffer has. -/
def copyLoop (m : Allocator) (out : Cell) : List Chunk → Option Cell
  | [] => some out
  | c :: cs => do
    let newch := { c with addr := m.malloc out.used, dbgAlloc := chunkAllocSize c.memlen }
    let chunks ← appendChunks out.buf [newch]
    copyLoop m { out with
      buf := { out.buf with chunks, tail := some newch.addr }
      total := out.total + chunkAllocSize c.memlen } cs

/-- `buf_copy`: the new buffer among the chunks in use. -/
def bufCopy (m : Allocator) (b : Buf) (used : List ℕ) (total : ℕ) : Option Cell := do
  let out ← copyLoop m ⟨{ bufNew with defaultChunkSize := b.defaultChunkSize }, used, total⟩ b.chunks
  return { out with buf := { out.buf with datalen := b.datalen } }

/-! ### What the operations do to a chunk -/

/-- The data of a chunk lies in its memory, and it knows how much was allocated for it. -/
structure Chunk.Ok (c : Chunk) : Prop where
  inside : c.data + c.datalen ≤ c.memlen
  dbg : c.dbgAlloc = chunkAllocSize c.memlen

theorem Chunk.Ok.length_bytes {c : Chunk} (h : c.Ok) : c.bytes.length = c.datalen := by
  have hinside := h.inside
  rw [Chunk.memlen] at hinside
  rw [Chunk.bytes, List.length_take, List.length_drop]
  omega

/-- **A write within the capacity appends.** -/
theorem Chunk.Ok.write {c : Chunk} (h : c.Ok) {string : List UInt8}
    (hroom : string.length ≤ c.remainingCapacity) :
    ∃ c', c.write string = some c' ∧ c'.Ok ∧ c'.bytes = c.bytes ++ string ∧ c'.addr = c.addr ∧
      c'.memlen = c.memlen ∧ c'.datalen = c.datalen + string.length ∧
      c'.remainingCapacity = c.remainingCapacity - string.length := by
  have hinside := h.inside
  have hfit : c.data + c.datalen + string.length ≤ c.memlen := by
    unfold Chunk.remainingCapacity at hroom
    omega
  have hlen : (c.mem.take (c.data + c.datalen) ++ string ++
      c.mem.drop (c.data + c.datalen + string.length)).length = c.memlen := by
    rw [Chunk.memlen] at *
    simp only [List.length_append, List.length_take, List.length_drop]
    omega
  refine ⟨_, if_pos hfit, ⟨?_, ?_⟩, ?_, rfl, hlen, rfl, ?_⟩
  · rw [Chunk.memlen, hlen]
    dsimp only
    omega
  · rw [Chunk.memlen, hlen]
    exact h.dbg
  · have hused : (c.mem.take (c.data + c.datalen)).drop c.data = c.bytes := by
      rw [List.drop_take, Nat.add_sub_cancel_left, Chunk.bytes]
    have hle : c.data ≤ (c.mem.take (c.data + c.datalen)).length := by
      rw [Chunk.memlen] at hinside
      rw [List.length_take]
      omega
    simp only [Chunk.bytes]
    rw [List.append_assoc, List.drop_append_of_le_length hle, hused, ← List.append_assoc,
      List.take_append_of_le_length (by rw [List.length_append, h.length_bytes]),
      List.take_of_length_le (by rw [List.length_append, h.length_bytes])]
    rfl
  · simp only [Chunk.remainingCapacity]
    rw [Chunk.memlen, hlen]
    omega

/-- **Repacking moves the free bytes behind the data.** -/
theorem Chunk.Ok.repack {c : Chunk} (h : c.Ok) :
    (chunkRepack c).Ok ∧ (chunkRepack c).bytes = c.bytes ∧ (chunkRepack c).memlen = c.memlen ∧
      (chunkRepack c).addr = c.addr ∧ (chunkRepack c).datalen = c.datalen ∧
      (chunkRepack c).remainingCapacity = c.memlen - c.datalen := by
  have hinside := h.inside
  have hlen := h.length_bytes
  by_cases hmove : c.datalen ≠ 0 ∧ c.data ≠ 0
  · have hmem : (c.bytes ++ c.mem.drop c.datalen).length = c.memlen := by
      rw [Chunk.memlen] at *
      rw [List.length_append, hlen, List.length_drop]
      omega
    have hpack : chunkRepack c = { c with mem := c.bytes ++ c.mem.drop c.datalen, data := 0 } :=
      if_pos hmove
    rw [hpack]
    refine ⟨⟨?_, ?_⟩, ?_, hmem, rfl, rfl, ?_⟩
    · rw [Chunk.memlen, hmem]
      dsimp only
      omega
    · rw [Chunk.memlen, hmem]
      exact h.dbg
    · rw [Chunk.bytes]
      simp [← hlen]
    · rw [Chunk.remainingCapacity, Chunk.memlen, hmem, Nat.zero_add]
  · have hpack : chunkRepack c = { c with data := 0 } := if_neg hmove
    rw [hpack]
    refine ⟨⟨?_, h.dbg⟩, ?_, rfl, rfl, rfl, ?_⟩
    · simp only [Chunk.memlen] at *
      omega
    · rcases not_and_or.mp hmove with hzero | hzero
      · simp [Chunk.bytes, not_not.mp hzero]
      · simp [Chunk.bytes, not_not.mp hzero]
    · simp [Chunk.remainingCapacity, Chunk.memlen]

theorem Allocator.length_memory (m : Allocator) (len : ℕ) : (m.memory len).length = len := by
  simp [Allocator.memory]

theorem Chunk.Ok.grow {c : Chunk} (h : c.Ok) (m : Allocator) (used : List ℕ) {sz : ℕ}
    (hsz : c.memlen < sz) :
    ∃ c', chunkGrow m used c sz = some c' ∧ c'.Ok ∧ c'.bytes = c.bytes ∧ c'.memlen = sz ∧
      c'.addr = m.realloc used c.addr ∧ c'.datalen = c.datalen ∧
      c'.remainingCapacity = sz - (c.data + c.datalen) := by
  have hinside := h.inside
  have hmem : (c.mem ++ m.memory (sz - c.memlen)).length = sz := by
    rw [List.length_append, Allocator.length_memory]
    rw [Chunk.memlen] at *
    omega
  have hgrow : chunkGrow m used c sz = some { c with
      addr := m.realloc used c.addr
      dbgAlloc := chunkAllocSize sz
      mem := c.mem ++ m.memory (sz - c.memlen) } := by
    rw [chunkGrow, if_neg (by omega), if_neg (by simp [h.dbg])]
  refine ⟨_, hgrow, ⟨?_, ?_⟩, ?_, hmem, rfl, rfl, ?_⟩
  · change c.data + c.datalen ≤ (c.mem ++ m.memory (sz - c.memlen)).length
    omega
  · exact congrArg chunkAllocSize hmem.symm
  · have hle : c.data ≤ c.mem.length := by
      rw [Chunk.memlen] at hinside
      omega
    simp only [Chunk.bytes]
    rw [List.drop_append_of_le_length hle, List.take_append_of_le_length]
    rw [List.length_drop]
    rw [Chunk.memlen] at hinside
    omega
  · exact congrArg (· - (c.data + c.datalen)) hmem

theorem Chunk.Ok.dropFront {c : Chunk} (h : c.Ok) {n : ℕ} (hn : n ≤ c.datalen) :
    let c' : Chunk := { c with data := c.data + n, datalen := c.datalen - n }
    c'.Ok ∧ c'.bytes = c.bytes.drop n := by
  have hinside := h.inside
  refine ⟨⟨?_, h.dbg⟩, ?_⟩
  · simp only [Chunk.memlen] at *
    omega
  · simp only [Chunk.bytes]
    rw [List.drop_take, List.drop_drop]

theorem Chunk.Ok.free {c : Chunk} (h : c.Ok) {total : ℕ} (htotal : chunkAllocSize c.memlen ≤ total) :
    bufChunkFreeUnchecked c total = some (total - chunkAllocSize c.memlen) := by
  rw [bufChunkFreeUnchecked, if_neg (by simp [h.dbg]), if_neg (by omega)]

/-! ### Sizes -/

theorem le_doubleUntil (target sz : ℕ) : sz ≤ doubleUntil target sz := by
  induction sz using doubleUntil.induct target with
  | case1 sz h ih =>
    rw [doubleUntil, dif_pos h]
    omega
  | case2 sz h =>
    rw [doubleUntil, dif_neg h]

theorem target_le_doubleUntil (target : ℕ) {sz : ℕ} (hsz : 0 < sz) :
    target ≤ doubleUntil target sz - chunkOverhead := by
  induction sz using doubleUntil.induct target with
  | case1 sz h ih =>
    rw [doubleUntil, dif_pos h]
    exact ih (by omega)
  | case2 sz h =>
    rw [doubleUntil, dif_neg h]
    omega

/-- The preferred size has room for the target and for the header. -/
theorem bufPreferredChunkSize_spec {target : ℕ} (h : target ≤ sizeTCeiling - chunkOverhead) :
    ∃ sz, bufPreferredChunkSize target = some sz ∧ target ≤ sz - chunkOverhead ∧
      chunkOverhead < sz ∧ minChunkAlloc ≤ sz := by
  rw [bufPreferredChunkSize, if_neg (by omega)]
  split_ifs with hmax
  · refine ⟨_, rfl, ?_⟩
    unfold chunkAllocSize maxChunkAlloc minChunkAlloc chunkOverhead at *
    omega
  · have hmin := le_doubleUntil target minChunkAlloc
    refine ⟨_, rfl, target_le_doubleUntil target (by decide), ?_, hmin⟩
    exact lt_of_lt_of_le (by decide) hmin

theorem newChunkAlloc_spec {defaultChunkSize capacity : ℕ} (capped : Bool)
    (hdefault : chunkOverhead < defaultChunkSize) (h : capacity ≤ sizeTCeiling - chunkOverhead) :
    ∃ alloc, newChunkAlloc defaultChunkSize capacity capped = some alloc ∧ chunkOverhead < alloc := by
  unfold newChunkAlloc
  split_ifs
  · exact ⟨_, rfl, hdefault⟩
  · exact ⟨_, rfl, by decide⟩
  · obtain ⟨sz, hsz, -, hlt, -⟩ := bufPreferredChunkSize_spec h
    exact ⟨sz, hsz, hlt⟩

theorem chunkNewWithAllocSize_spec (m : Allocator) (used : List ℕ) {alloc : ℕ}
    (h : chunkOverhead < alloc) :
    ∃ c, chunkNewWithAllocSize m used alloc = some c ∧ c.Ok ∧ c.bytes = [] ∧ c.datalen = 0 ∧
      c.addr = m.malloc used ∧ chunkAllocSize c.memlen = alloc ∧ 0 < c.remainingCapacity := by
  have hsize : chunkAllocSize (alloc - chunkOverhead) = alloc := by
    unfold chunkAllocSize
    omega
  have hmem : (m.memory (alloc - chunkOverhead)).length = alloc - chunkOverhead := m.length_memory _
  refine ⟨⟨m.malloc used, 0, alloc, 0, m.memory (alloc - chunkOverhead)⟩, ?_, ⟨?_, ?_⟩, ?_, rfl, rfl,
    ?_, ?_⟩
  · rw [chunkNewWithAllocSize, if_neg (by simp [hsize])]
  · exact Nat.zero_le _
  · rw [Chunk.memlen, hmem, hsize]
  · simp [Chunk.bytes]
  · rw [Chunk.memlen, hmem, hsize]
  · simp only [Chunk.remainingCapacity, Chunk.memlen, hmem]
    omega

/-! ### Well-formed buffers -/

def chunksAllocation (chunks : List Chunk) : ℕ := (chunks.map fun c => chunkAllocSize c.memlen).sum

def chunksDatalen (chunks : List Chunk) : ℕ := (chunks.map Chunk.datalen).sum

/-- The address that `tail` holds for a chain. -/
def lastAddr (chunks : List Chunk) : Option ℕ := chunks.getLast?.map Chunk.addr

/-- **What the operations keep of a buffer.** -/
structure Buf.Ok (b : Buf) : Prop where
  chunks_ok : ∀ c ∈ b.chunks, c.Ok
  tail_eq : b.tail = lastAddr b.chunks
  datalen_eq : b.datalen = chunksDatalen b.chunks
  datalen_le : b.datalen ≤ bufMaxLen
  default_lt : chunkOverhead < b.defaultChunkSize

/-- What the operations keep of a cell, where `rest` bytes are allocated for the other chunks. -/
structure Cell.Ok (rest : ℕ) (s : Cell) : Prop where
  buf : s.buf.Ok
  nodup : s.used.Nodup
  total_eq : s.total = rest + chunksAllocation s.buf.chunks

/-- What an operation leads to: a buffer with these bytes, among the same other chunks. -/
structure Cell.Becomes (rest : ℕ) (s : Cell) (bytes : List UInt8) (s' : Cell) : Prop where
  ok : s'.Ok rest
  others_eq : s'.others = s.others
  bytes_eq : s'.buf.bytes = bytes

theorem length_flatMap_bytes {chunks : List Chunk} (h : ∀ c ∈ chunks, c.Ok) :
    (chunks.flatMap Chunk.bytes).length = chunksDatalen chunks := by
  rw [List.length_flatMap, chunksDatalen]
  congr 1
  exact List.map_congr_left fun c hc => (h c hc).length_bytes

theorem Buf.Ok.length_bytes {b : Buf} (h : b.Ok) : b.bytes.length = b.datalen := by
  rw [Buf.bytes, length_flatMap_bytes h.chunks_ok, h.datalen_eq]

@[simp] theorem chunksAllocation_append (l l' : List Chunk) :
    chunksAllocation (l ++ l') = chunksAllocation l + chunksAllocation l' := by
  simp [chunksAllocation]

@[simp] theorem chunksAllocation_cons (c : Chunk) (l : List Chunk) :
    chunksAllocation (c :: l) = chunkAllocSize c.memlen + chunksAllocation l := by
  simp [chunksAllocation]

@[simp] theorem chunksAllocation_nil : chunksAllocation [] = 0 := rfl

@[simp] theorem chunksDatalen_append (l l' : List Chunk) :
    chunksDatalen (l ++ l') = chunksDatalen l + chunksDatalen l' := by
  simp [chunksDatalen]

@[simp] theorem chunksDatalen_cons (c : Chunk) (l : List Chunk) :
    chunksDatalen (c :: l) = c.datalen + chunksDatalen l := by
  simp [chunksDatalen]

@[simp] theorem chunksDatalen_nil : chunksDatalen [] = 0 := rfl

@[simp] theorem lastAddr_nil : lastAddr [] = none := rfl

@[simp] theorem lastAddr_append_cons (l l' : List Chunk) (c : Chunk) :
    lastAddr (l ++ c :: l') = lastAddr (c :: l') := by
  rw [lastAddr, List.getLast?_append_of_ne_nil _ (List.cons_ne_nil c l'), lastAddr]

@[simp] theorem lastAddr_singleton (c : Chunk) : lastAddr [c] = some c.addr := rfl

theorem lastAddr_cons_of_ne_nil (c : Chunk) {cs : List Chunk} (h : cs ≠ []) :
    lastAddr (c :: cs) = lastAddr cs := by
  obtain ⟨d, ds, rfl⟩ := List.exists_cons_of_ne_nil h
  exact lastAddr_append_cons [c] ds d

/-- The last chunk is another one than the first, unless it is the only one. -/
theorem lastAddr_ne_head {c : Chunk} {cs : List Chunk} (hnot : c.addr ∉ cs.map Chunk.addr) :
    lastAddr cs ≠ some c.addr := by
  intro h
  obtain ⟨d, hd, heq⟩ := Option.map_eq_some_iff.mp h
  exact hnot (List.mem_map.mpr ⟨d, List.mem_of_getLast? hd, heq⟩)

theorem chunksAssertOk_of_ok {chunks : List Chunk} (hok : ∀ c ∈ chunks, c.Ok)
    (hlen : chunksDatalen chunks ≤ bufMaxLen) : chunksAssertOk (lastAddr chunks) chunks = true := by
  induction chunks with
  | nil => rfl
  | cons c cs ih =>
    have hc := (hok c List.mem_cons_self).inside
    rw [chunksDatalen_cons] at hlen
    have hrest := ih (fun d hd => hok d (List.mem_cons_of_mem c hd)) (by omega)
    have hlink : (!cs.isEmpty || decide (lastAddr (c :: cs) = some c.addr)) = true ∧
        chunksAssertOk (lastAddr (c :: cs)) cs = true := by
      rcases eq_or_ne cs [] with rfl | hne
      · exact ⟨by simp, rfl⟩
      · rw [lastAddr_cons_of_ne_nil c hne]
        exact ⟨by simp [hne], hrest⟩
    simp only [chunksAssertOk, Bool.and_eq_true, decide_eq_true_eq, hlink.1, hlink.2, and_true]
    omega

/-- **A well-formed buffer passes `buf_assert_ok`.** -/
theorem bufAssertOk_of_ok {b : Buf} (h : b.Ok) : bufAssertOk b = true := by
  have hdatalen := h.datalen_eq
  have htail := h.tail_eq
  unfold bufAssertOk
  rcases List.eq_nil_or_concat b.chunks with hnil | ⟨init, c, hlast⟩
  · rw [hnil] at hdatalen htail
    simp [hnil, hdatalen, htail]
  · have hsome : b.tail = some c.addr := by rw [htail, hlast]; simp
    have hchunks := chunksAssertOk_of_ok h.chunks_ok (hdatalen ▸ h.datalen_le)
    rw [← htail] at hchunks
    have hne : b.chunks.isEmpty = false := by simp [hlast]
    simp [hne, hsome, hsome ▸ hchunks, hdatalen, chunksDatalen]

/-! ### The end of the chain -/

theorem linkBehind_concat {init : List Chunk} {c : Chunk} {rest : List Chunk}
    (h : c.addr ∉ init.map Chunk.addr) :
    linkBehind c.addr rest (init ++ [c]) = some (init ++ c :: rest) := by
  induction init with
  | nil => exact if_pos rfl
  | cons d init ih =>
    rw [List.map_cons, List.mem_cons, not_or] at h
    rw [List.cons_append, linkBehind, if_neg (Ne.symm h.1), ih h.2]
    rfl

theorem changeAt_concat {init : List Chunk} {c c' : Chunk} {f : Chunk → Option Chunk}
    (h : c.addr ∉ init.map Chunk.addr) (hf : f c = some c') :
    changeAt c.addr f (init ++ [c]) = some (init ++ [c']) := by
  induction init with
  | nil =>
    rw [List.nil_append, changeAt, if_pos rfl, hf]
    rfl
  | cons d init ih =>
    rw [List.map_cons, List.mem_cons, not_or] at h
    rw [List.cons_append, changeAt, if_neg (Ne.symm h.1), ih h.2]
    rfl

theorem chunkAt_concat {init : List Chunk} {c : Chunk} (h : c.addr ∉ init.map Chunk.addr) :
    chunkAt c.addr (init ++ [c]) = some c := by
  have hnone : init.find? (·.addr = c.addr) = none := by
    rw [List.find?_eq_none]
    intro d hd heq
    exact h (List.mem_map.mpr ⟨d, hd, of_decide_eq_true heq⟩)
  simp [chunkAt, List.find?_append, hnone]

theorem Buf.Ok.last {b : Buf} (h : b.Ok) (hnodup : b.addrs.Nodup) (hne : b.chunks ≠ []) :
    ∃ init c, b.chunks = init ++ [c] ∧ b.tail = some c.addr ∧ c.addr ∉ init.map Chunk.addr ∧ c.Ok := by
  rcases List.eq_nil_or_concat b.chunks with hnil | ⟨init, c, hlast⟩
  · exact absurd hnil hne
  · rw [List.concat_eq_append] at hlast
    refine ⟨init, c, hlast, by rw [h.tail_eq, hlast]; simp, ?_, h.chunks_ok c (by simp [hlast])⟩
    rw [Buf.addrs, hlast, List.map_append, List.nodup_append] at hnodup
    intro hmem
    exact hnodup.2.2 c.addr hmem c.addr (by simp) rfl

theorem appendChunks_of_ok {b : Buf} (h : b.Ok) (hnodup : b.addrs.Nodup) (rest : List Chunk) :
    appendChunks b rest = some (b.chunks ++ rest) := by
  rcases eq_or_ne b.chunks [] with hnil | hne
  · have htail : b.tail = none := by rw [h.tail_eq, hnil]; rfl
    simp [appendChunks, htail, hnil]
  · obtain ⟨init, c, hlast, htail, hnot, -⟩ := h.last hnodup hne
    simp only [appendChunks, htail, hlast, linkBehind_concat hnot]
    simp

theorem Cell.Ok.nodup_addrs {rest : ℕ} {s : Cell} (h : s.Ok rest) : s.buf.addrs.Nodup :=
  (List.nodup_append.mp h.nodup).2.1

/-- A chunk more at the end of a buffer, with an address that is not in use. -/
theorem Cell.Ok.concat {rest : ℕ} {s : Cell} (h : s.Ok rest) {c : Chunk} (hc : c.Ok)
    (haddr : c.addr ∉ s.used) (hlen : s.buf.datalen + c.datalen ≤ bufMaxLen) :
    Cell.Becomes rest s (s.buf.bytes ++ c.bytes)
      { s with
        buf := { s.buf with
          chunks := s.buf.chunks ++ [c], tail := some c.addr, datalen := s.buf.datalen + c.datalen }
        total := s.total + chunkAllocSize c.memlen } := by
  refine ⟨⟨⟨?_, ?_, ?_, hlen, h.buf.default_lt⟩, ?_, ?_⟩, rfl, ?_⟩
  · intro d hd
    rcases List.mem_append.mp hd with hd | hd
    · exact h.buf.chunks_ok d hd
    · rw [List.mem_singleton.mp hd]
      exact hc
  · rw [lastAddr_append_cons, lastAddr_singleton]
  · simp [h.buf.datalen_eq]
  · have hused : s.others ++ (s.buf.chunks ++ [c]).map Chunk.addr = s.used ++ [c.addr] := by
      simp [Cell.used, Buf.addrs]
    rw [Cell.used, Buf.addrs, hused]
    exact List.nodup_append.mpr ⟨h.nodup, List.nodup_singleton _, by
      intro a ha b hb heq
      rw [List.mem_singleton.mp hb] at heq
      exact haddr (heq ▸ ha)⟩
  · simp [h.total_eq]
    omega
  · simp [Buf.bytes]

/-! ### Adding -/

/-- **A new chunk at the end holds nothing and has room.** -/
theorem bufAddChunkWithCapacity_spec (m : Allocator) {rest : ℕ} {s : Cell} (h : s.Ok rest)
    {capacity : ℕ} (capped : Bool) (hcap : capacity ≤ sizeTCeiling - chunkOverhead) :
    ∃ s', bufAddChunkWithCapacity m s capacity capped = some s' ∧
      Cell.Becomes rest s s.buf.bytes s' ∧ 0 < bufSlack s'.buf := by
  obtain ⟨alloc, halloc, hlt⟩ := newChunkAlloc_spec capped h.buf.default_lt hcap
  obtain ⟨c, hc, hcok, hbytes, hdatalen, haddr, hsize, hroom⟩ := chunkNewWithAllocSize_spec m s.used hlt
  have hfresh : c.addr ∉ s.used := haddr ▸ m.malloc_fresh s.used
  have hbecomes := h.concat hcok hfresh (by rw [hdatalen]; exact h.buf.datalen_le)
  rw [hbytes, List.append_nil, hdatalen, Nat.add_zero, hsize] at hbecomes
  refine ⟨_, ?_, hbecomes, ?_⟩
  · simp only [bufAddChunkWithCapacity, halloc, hc, appendChunks_of_ok h.buf h.nodup_addrs,
      Option.bind_eq_bind, Option.bind_some, Option.pure_def]
  · have hnot : c.addr ∉ s.buf.chunks.map Chunk.addr := fun hmem =>
      hfresh (List.mem_append_right _ hmem)
    simp only [bufSlack, Option.bind_some, chunkAt_concat hnot]
    exact hroom

theorem bufSlack_eq {b : Buf} {init : List Chunk} {c : Chunk} (hlast : b.chunks = init ++ [c])
    (htail : b.tail = some c.addr) (hnot : c.addr ∉ init.map Chunk.addr) :
    bufSlack b = c.remainingCapacity := by
  simp only [bufSlack, htail, Option.bind_some, hlast, chunkAt_concat hnot]

/-- **A write into the last chunk appends to the buffer.** -/
theorem writeTail_spec {rest : ℕ} {s : Cell} (h : s.Ok rest) (string : List UInt8)
    (hne : s.buf.chunks ≠ []) (hroom : string.length ≤ bufSlack s.buf)
    (hlen : s.buf.datalen + string.length ≤ bufMaxLen) :
    ∃ s', writeTail s string = some s' ∧ Cell.Becomes rest s (s.buf.bytes ++ string) s' := by
  obtain ⟨init, c, hlast, htail, hnot, hcok⟩ := h.buf.last h.nodup_addrs hne
  rw [bufSlack_eq hlast htail hnot] at hroom
  obtain ⟨c', hwrite, hok', hbytes, haddr, hmemlen, hdatalen, -⟩ := hcok.write hroom
  have hchange : changeAt c.addr (fun c => c.write string) s.buf.chunks = some (init ++ [c']) := by
    rw [hlast]
    exact changeAt_concat hnot hwrite
  refine ⟨{ s with buf := { s.buf with
    chunks := init ++ [c'], datalen := s.buf.datalen + string.length } }, ?_, ?_⟩
  · simp only [writeTail, htail, hchange, Option.bind_eq_bind, Option.bind_some, Option.pure_def]
  have hsame : (init ++ [c']).map Chunk.addr = s.buf.chunks.map Chunk.addr := by
    simp [hlast, haddr]
  refine ⟨⟨⟨?_, ?_, ?_, hlen, h.buf.default_lt⟩, ?_, ?_⟩, rfl, ?_⟩
  · intro d hd
    rcases List.mem_append.mp hd with hd | hd
    · exact h.buf.chunks_ok d (by rw [hlast]; exact List.mem_append_left _ hd)
    · rw [List.mem_singleton.mp hd]
      exact hok'
  · simp [htail, haddr]
  · have := h.buf.datalen_eq
    rw [hlast] at this
    simp only [chunksDatalen_append, chunksDatalen_cons, chunksDatalen_nil] at this ⊢
    omega
  · have hnodup := h.nodup
    rw [Cell.used, Buf.addrs] at hnodup ⊢
    rw [hsame]
    exact hnodup
  · have := h.total_eq
    rw [hlast] at this
    simp only [chunksAllocation_append, chunksAllocation_cons, chunksAllocation_nil] at this ⊢
    rw [hmemlen]
    exact this
  · simp [Buf.bytes, hlast, hbytes]

theorem Cell.Becomes.trans {rest : ℕ} {s s' s'' : Cell} {l l' : List UInt8}
    (h : Cell.Becomes rest s l s') (h' : Cell.Becomes rest s' l' s'') : Cell.Becomes rest s l' s'' :=
  ⟨h'.ok, h'.others_eq.trans h.others_eq, h'.bytes_eq⟩

theorem Cell.Ok.refl {rest : ℕ} {s : Cell} (h : s.Ok rest) : Cell.Becomes rest s s.buf.bytes s :=
  ⟨h, rfl, rfl⟩

theorem chunks_ne_nil_of_slack {b : Buf} (h : 0 < bufSlack b) : b.chunks ≠ [] := by
  intro hnil
  cases htail : b.tail with
  | none => simp [bufSlack, htail] at h
  | some tail => simp [bufSlack, htail, hnil, chunkAt] at h

/-- Room for at least one byte: the last chunk has some, or a new one gets it. -/
theorem makeRoom_spec (m : Allocator) {rest : ℕ} {s : Cell} (h : s.Ok rest) {n : ℕ}
    (hn : n ≤ bufMaxLen) :
    ∃ s', (if bufSlack s.buf = 0 then bufAddChunkWithCapacity m s n true else some s) = some s' ∧
      Cell.Becomes rest s s.buf.bytes s' ∧ 0 < bufSlack s'.buf := by
  split_ifs with hslack
  · apply bufAddChunkWithCapacity_spec m h
    exact hn.trans (by decide)
  · exact ⟨s, rfl, h.refl, Nat.pos_of_ne_zero hslack⟩

theorem addLoop_spec (m : Allocator) {rest : ℕ} {s : Cell} (h : s.Ok rest) (string : List UInt8)
    (hlen : s.buf.datalen + string.length ≤ bufMaxLen) :
    ∃ s', addLoop m s string = some s' ∧ Cell.Becomes rest s (s.buf.bytes ++ string) s' := by
  induction hn : string.length using Nat.strong_induction_on generalizing s string with
  | _ n ih =>
    by_cases hnil : string = []
    · refine ⟨s, ?_, by simpa [hnil] using h.refl⟩
      rw [addLoop, if_pos hnil]
    · obtain ⟨s₁, hroom, hb₁, hslack⟩ := makeRoom_spec m h (show string.length ≤ bufMaxLen by omega)
      have hpos : 0 < string.length := List.length_pos_iff.mpr hnil
      have hcopy : min (bufSlack s₁.buf) string.length ≠ 0 := by omega
      have hdatalen₁ : s₁.buf.datalen = s.buf.datalen := by
        rw [← hb₁.ok.buf.length_bytes, hb₁.bytes_eq, h.buf.length_bytes]
      obtain ⟨s₂, hwrite, hb₂⟩ := writeTail_spec hb₁.ok
        (string.take (min (bufSlack s₁.buf) string.length)) (chunks_ne_nil_of_slack hslack)
        (by rw [List.length_take]; omega) (by rw [List.length_take]; omega)
      have hdatalen₂ : s₂.buf.datalen = s₁.buf.datalen + min (bufSlack s₁.buf) string.length := by
        rw [← hb₂.ok.buf.length_bytes, hb₂.bytes_eq, List.length_append, hb₁.ok.buf.length_bytes,
          List.length_take]
        omega
      obtain ⟨s', hrest, hb'⟩ := ih (string.length - min (bufSlack s₁.buf) string.length) (by omega)
        hb₂.ok (string.drop (min (bufSlack s₁.buf) string.length)) (by rw [List.length_drop]; omega)
        List.length_drop
      refine ⟨s', ?_, (hb₁.trans hb₂).trans ?_⟩
      · rw [addLoop, if_neg hnil, hroom]
        simp only [dif_neg hcopy, hwrite, hrest]
      · rw [hb₂.bytes_eq, hb₁.bytes_eq, List.append_assoc, List.take_append_drop] at hb'
        exact hb'

/-- **`buf_add` appends.** -/
theorem bufAdd_spec (m : Allocator) {rest : ℕ} {s : Cell} (h : s.Ok rest) (string : List UInt8)
    (hlen : s.buf.datalen + string.length ≤ bufMaxLen) :
    ∃ s', bufAdd m s string = some (s', ((s.buf.datalen + string.length : ℕ) : ℤ)) ∧
      Cell.Becomes rest s (s.buf.bytes ++ string) s' := by
  unfold bufAdd
  split_ifs with hnil hmax hsum
  · exact ⟨s, by simp [hnil], by simpa [hnil] using h.refl⟩
  · omega
  · omega
  · obtain ⟨s', hloop, hb⟩ := addLoop_spec m h string hlen
    have hdatalen : s'.buf.datalen = s.buf.datalen + string.length := by
      rw [← hb.ok.buf.length_bytes, hb.bytes_eq, List.length_append, h.buf.length_bytes]
    refine ⟨s', ?_, hb⟩
    have hle : ¬ s'.buf.datalen > bufMaxLen := by omega
    simp only [hloop, Option.bind_eq_bind, Option.bind_some, if_neg hle, Option.pure_def]
    rw [hdatalen]

/-! ### Removing -/

theorem peekLoop_spec {chunks : List Chunk} (hok : ∀ c ∈ chunks, c.Ok) {n : ℕ}
    (hn : n ≤ chunksDatalen chunks) :
    peekLoop chunks n = some ((chunks.flatMap Chunk.bytes).take n) := by
  induction chunks generalizing n with
  | nil =>
    obtain rfl : n = 0 := by simpa using hn
    rfl
  | cons c cs ih =>
    have hlen := (hok c List.mem_cons_self).length_bytes
    rw [chunksDatalen_cons] at hn
    cases n with
    | zero => rfl
    | succ n =>
      rw [peekLoop, ih (fun d hd => hok d (List.mem_cons_of_mem c hd)) (by omega), Option.map_some,
        List.flatMap_cons, List.take_append]
      have htake : c.bytes.take (min (n + 1) c.datalen) = c.bytes.take (n + 1) := by
        rw [List.take_eq_take_iff]
        omega
      have hsub : n + 1 - min (n + 1) c.datalen = n + 1 - c.bytes.length := by omega
      rw [htake, hsub]

/-- **`buf_peek` reads the front.** -/
theorem bufPeek_spec {b : Buf} (h : b.Ok) {n : ℕ} (hn : n ≤ b.datalen) :
    bufPeek b n = some (b.bytes.take n) := by
  rw [bufPeek, if_neg (by omega)]
  exact peekLoop_spec h.chunks_ok (h.datalen_eq ▸ hn)

/-- What the loops of `buf_drain` and `buf_pullup` leave of a chain: chunks in their order, and the
rest is freed. -/
structure Remains (chunks chunks' : List Chunk) (total total' : ℕ) : Prop where
  ok : ∀ c ∈ chunks', c.Ok
  addrs : (chunks'.map Chunk.addr).Sublist (chunks.map Chunk.addr)
  total_eq : total' + chunksAllocation chunks = total + chunksAllocation chunks'

theorem drainLoop_spec {chunks : List Chunk} (hok : ∀ c ∈ chunks, c.Ok)
    (hnodup : (chunks.map Chunk.addr).Nodup) {n datalen total : ℕ} (hn : n ≤ chunksDatalen chunks)
    (hdatalen : datalen = chunksDatalen chunks) (htotal : chunksAllocation chunks ≤ total) :
    ∃ chunks' total', drainLoop (lastAddr chunks) datalen total chunks n =
        some (chunks', lastAddr chunks', datalen - n, total') ∧
      Remains chunks chunks' total total' ∧
      chunks'.flatMap Chunk.bytes = (chunks.flatMap Chunk.bytes).drop n := by
  induction chunks generalizing n datalen total with
  | nil =>
    obtain rfl : n = 0 := by simpa using hn
    exact ⟨[], total, rfl, ⟨by simp, by simp, rfl⟩, rfl⟩
  | cons c cs ih =>
    have hc := hok c List.mem_cons_self
    have hcs : ∀ d ∈ cs, d.Ok := fun d hd => hok d (List.mem_cons_of_mem c hd)
    have hlen := hc.length_bytes
    simp only [chunksDatalen_cons, chunksAllocation_cons] at hn hdatalen htotal
    rw [List.map_cons, List.nodup_cons] at hnodup
    cases n with
    | zero => exact ⟨c :: cs, total, rfl, ⟨hok, List.Sublist.refl _, rfl⟩, rfl⟩
    | succ n =>
      by_cases hpart : c.datalen > n + 1
      · -- the chunk holds more than what goes
        obtain ⟨hok', hbytes'⟩ := hc.dropFront (show n + 1 ≤ c.datalen by omega)
        refine ⟨{ c with data := c.data + (n + 1), datalen := c.datalen - (n + 1) } :: cs, total, ?_,
          ⟨?_, List.Sublist.refl _, rfl⟩, ?_⟩
        · rw [drainLoop, if_pos hpart]
          cases cs <;> rfl
        · intro d hd
          rcases List.mem_cons.mp hd with rfl | hd
          · exact hok'
          · exact hcs d hd
        · rw [List.flatMap_cons, List.flatMap_cons, hbytes',
            List.drop_append_of_le_length (by omega)]
      · -- the chunk goes
        have hfree := hc.free (show chunkAllocSize c.memlen ≤ total by omega)
        have htail : (if lastAddr (c :: cs) = some c.addr then none else lastAddr (c :: cs)) =
            lastAddr cs := by
          rcases eq_or_ne cs [] with rfl | hne
          · simp
          · rw [lastAddr_cons_of_ne_nil c hne, if_neg (lastAddr_ne_head hnodup.1)]
        obtain ⟨chunks', total', hloop, hremains, hbytes⟩ := ih hcs hnodup.2
          (show n + 1 - c.datalen ≤ chunksDatalen cs by omega)
          (show datalen - c.datalen = chunksDatalen cs by omega)
          (show chunksAllocation cs ≤ total - chunkAllocSize c.memlen by omega)
        refine ⟨chunks', total', ?_, ⟨hremains.ok, hremains.addrs.cons _, ?_⟩, ?_⟩
        · rw [drainLoop, if_neg hpart, hfree]
          simp only [htail, hloop]
          congr 4
          omega
        · have := hremains.total_eq
          rw [chunksAllocation_cons]
          omega
        · have hall : c.bytes.drop (n + 1) = [] := List.drop_of_length_le (by omega)
          rw [hbytes, List.flatMap_cons, List.drop_append, hall, List.nil_append, hlen]

/-- What remains of a buffer is one among the same other chunks. -/
theorem Cell.Ok.remains {rest : ℕ} {s : Cell} (h : s.Ok rest) {chunks' : List Chunk} {total' : ℕ}
    (hremains : Remains s.buf.chunks chunks' s.total total') {datalen : ℕ}
    (hdatalen : datalen = chunksDatalen chunks') (hle : datalen ≤ bufMaxLen) :
    Cell.Becomes rest s (chunks'.flatMap Chunk.bytes)
      { s with
        buf := { s.buf with chunks := chunks', tail := lastAddr chunks', datalen }
        total := total' } := by
  refine ⟨⟨⟨hremains.ok, rfl, hdatalen, hle, h.buf.default_lt⟩, ?_, ?_⟩, rfl, rfl⟩
  · exact h.nodup.sublist ((List.Sublist.refl _).append hremains.addrs)
  · have htotal := hremains.total_eq
    have hbefore := h.total_eq
    dsimp only
    omega

theorem Cell.Ok.allocation_le {rest : ℕ} {s : Cell} (h : s.Ok rest) :
    chunksAllocation s.buf.chunks ≤ s.total := by
  have := h.total_eq
  omega

/-- **`buf_drain` drops from the front.** -/
theorem bufDrain_spec {rest : ℕ} {s : Cell} (h : s.Ok rest) {n : ℕ} (hn : n ≤ s.buf.datalen) :
    ∃ s', bufDrain s n = some s' ∧ Cell.Becomes rest s (s.buf.bytes.drop n) s' := by
  obtain ⟨chunks', total', hloop, hremains, hbytes⟩ := drainLoop_spec h.buf.chunks_ok h.nodup_addrs
    (h.buf.datalen_eq ▸ hn) h.buf.datalen_eq h.allocation_le
  have hdatalen : s.buf.datalen - n = chunksDatalen chunks' := by
    rw [← length_flatMap_bytes hremains.ok, hbytes, List.length_drop, ← h.buf.length_bytes]
    rfl
  have hbecomes := h.remains hremains hdatalen ((Nat.sub_le _ _).trans h.buf.datalen_le)
  refine ⟨_, ?_, hbytes ▸ hbecomes⟩
  rw [bufDrain, if_neg (by omega), h.buf.tail_eq, hloop]
  rfl

/-- **`buf_get_bytes` takes the front off.** -/
theorem bufGetBytes_spec {rest : ℕ} {s : Cell} (h : s.Ok rest) {n : ℕ} (hn : n ≤ s.buf.datalen) :
    ∃ s', bufGetBytes s n = some (s', s.buf.bytes.take n) ∧
      Cell.Becomes rest s (s.buf.bytes.drop n) s' := by
  obtain ⟨s', hdrain, hb⟩ := bufDrain_spec h hn
  have hle : ¬ s'.buf.datalen > bufMaxLen := by
    have := hb.ok.buf.datalen_le
    omega
  refine ⟨s', ?_, hb⟩
  simp only [bufGetBytes, bufPeek_spec h.buf hn, hdrain, Option.bind_eq_bind, Option.bind_some,
    if_neg hle, Option.pure_def]

/-- **`buf_clear` removes everything.** -/
theorem bufClear_spec {rest : ℕ} {s : Cell} (h : s.Ok rest) :
    ∃ s', bufClear s = some s' ∧ Cell.Becomes rest s [] s' := by
  have hfree : ∀ (chunks : List Chunk) (total : ℕ), (∀ c ∈ chunks, c.Ok) →
      chunksAllocation chunks ≤ total →
      chunks.foldlM (fun total c => bufChunkFreeUnchecked c total) total =
        some (total - chunksAllocation chunks) := by
    intro chunks
    induction chunks with
    | nil => intro total _ _; rfl
    | cons c cs ih =>
      intro total hok htotal
      rw [chunksAllocation_cons] at htotal
      rw [List.foldlM_cons, (hok c List.mem_cons_self).free (by omega)]
      simp only [Option.bind_eq_bind, Option.bind_some]
      rw [ih _ (fun d hd => hok d (List.mem_cons_of_mem c hd)) (by omega), chunksAllocation_cons]
      congr 1
      omega
  have hremains : Remains s.buf.chunks [] s.total (s.total - chunksAllocation s.buf.chunks) :=
    ⟨by simp, by simp, by
      have := h.allocation_le
      rw [chunksAllocation_nil]
      omega⟩
  refine ⟨_, ?_, h.remains hremains rfl (Nat.zero_le _)⟩
  simp only [bufClear, hfree _ _ h.buf.chunks_ok h.allocation_le, Option.bind_eq_bind,
    Option.bind_some, Option.pure_def]
  rfl

/-! ### Pulling up -/

theorem roomInHead_spec (m : Allocator) (used : List ℕ) {head : Chunk} (h : head.Ok)
    {capacity total : ℕ} (hcap : capacity ≤ bufMaxLen) (htotal : chunkAllocSize head.memlen ≤ total) :
    ∃ newhead total', roomInHead m used head capacity total = some (newhead, total') ∧ newhead.Ok ∧
      newhead.bytes = head.bytes ∧ newhead.datalen = head.datalen ∧
      capacity - head.datalen ≤ newhead.remainingCapacity ∧
      (newhead.addr = head.addr ∨ newhead.addr ∉ used) ∧
      total' + chunkAllocSize head.memlen = total + chunkAllocSize newhead.memlen := by
  obtain ⟨hrok, hrbytes, hrmemlen, hraddr, hrdatalen, hrroom⟩ := h.repack
  by_cases hfits : capacity ≤ head.memlen
  · by_cases hpack : head.remainingCapacity < capacity - head.datalen
    · refine ⟨chunkRepack head, total, ?_, hrok, hrbytes, hrdatalen, ?_, Or.inl hraddr, by rw [hrmemlen]⟩
      · have hroom : ¬ (chunkRepack head).remainingCapacity < capacity - head.datalen := by omega
        simp only [roomInHead, if_pos hfits, if_pos hpack, if_neg hroom]
      · omega
    · refine ⟨head, total, ?_, h, rfl, rfl, by omega, Or.inl rfl, rfl⟩
      simp only [roomInHead, if_pos hfits, if_neg hpack]
  · obtain ⟨sz, hsz, hle, hlt, -⟩ := bufPreferredChunkSize_spec
      (show capacity ≤ sizeTCeiling - chunkOverhead from hcap.trans (by decide))
    obtain ⟨newhead, hgrow, hok, hbytes, hmemlen, haddr, hdatalen, hroom⟩ :=
      hrok.grow m used (show (chunkRepack head).memlen < sz - chunkOverhead by omega)
    have hbig : ¬ newhead.memlen < capacity := by omega
    refine ⟨newhead, total + chunkAllocSize newhead.memlen - chunkAllocSize head.memlen, ?_, hok,
      hbytes.trans hrbytes, hdatalen.trans hrdatalen, ?_, ?_, by omega⟩
    · simp only [roomInHead, if_neg hfits, hsz, hgrow, Option.bind_eq_bind, Option.bind_some,
        if_neg hbig, Option.pure_def]
    · have hinside := hrok.inside
      have hzero : (chunkRepack head).data = 0 := by
        unfold chunkRepack
        split <;> rfl
      omega
    · rw [haddr, hraddr]
      exact m.realloc_fresh used head.addr

theorem pullLoop_spec {bytes total : ℕ} {dest : Chunk} {rest : List Chunk} (hdest : dest.Ok)
    (hrest : ∀ c ∈ rest, c.Ok) (hroom : bytes - dest.datalen ≤ dest.remainingCapacity)
    (hbytes : bytes ≤ dest.datalen + chunksDatalen rest)
    (hnodup : ((dest :: rest).map Chunk.addr).Nodup) (htotal : chunksAllocation rest ≤ total) :
    ∃ dest' rest' total', pullLoop bytes dest (lastAddr (dest :: rest)) total rest =
        some (dest', rest', lastAddr (dest' :: rest'), total') ∧
      Remains (dest :: rest) (dest' :: rest') total total' ∧ bytes ≤ dest'.datalen ∧
      (dest' :: rest').flatMap Chunk.bytes = (dest :: rest).flatMap Chunk.bytes := by
  induction rest generalizing dest total with
  | nil =>
    have hle : bytes ≤ dest.datalen := by simpa using hbytes
    refine ⟨dest, [], total, if_pos hle, ⟨by simpa using hdest, List.Sublist.refl _, rfl⟩, hle, rfl⟩
  | cons src rest ih =>
    have hsrc := hrest src List.mem_cons_self
    have hrest' : ∀ c ∈ rest, c.Ok := fun c hc => hrest c (List.mem_cons_of_mem src hc)
    have hlen := hsrc.length_bytes
    simp only [chunksDatalen_cons, chunksAllocation_cons] at hbytes htotal
    simp only [List.map_cons, List.nodup_cons, List.mem_cons, not_or] at hnodup
    by_cases hle : bytes ≤ dest.datalen
    · refine ⟨dest, src :: rest, total, if_pos hle, ⟨?_, List.Sublist.refl _, rfl⟩, hle, rfl⟩
      intro c hc
      rcases List.mem_cons.mp hc with rfl | hc
      · exact hdest
      · exact hrest c hc
    · by_cases hall : src.datalen ≤ bytes - dest.datalen
      · -- the whole chunk moves
        obtain ⟨dest', hwrite, hok', hbytes', haddr', hmemlen', hdatalen', hroom'⟩ :=
          hdest.write (show src.bytes.length ≤ dest.remainingCapacity by omega)
        have hfree := hsrc.free (show chunkAllocSize src.memlen ≤ total by omega)
        have htail : (if lastAddr (dest :: src :: rest) = some src.addr then some dest.addr
            else lastAddr (dest :: src :: rest)) = lastAddr (dest' :: rest) := by
          rw [lastAddr_cons_of_ne_nil dest (List.cons_ne_nil src rest)]
          rcases eq_or_ne rest [] with rfl | hne
          · simp [haddr']
          · rw [lastAddr_cons_of_ne_nil src hne, if_neg (lastAddr_ne_head hnodup.2.1),
              lastAddr_cons_of_ne_nil dest' hne]
        obtain ⟨dest'', rest'', total', hloop, hremains, hge, hsame⟩ := ih hok' hrest' (by omega)
          (by omega) (by rw [List.map_cons, haddr', List.nodup_cons]; exact ⟨hnodup.1.2, hnodup.2.2⟩)
          (show chunksAllocation rest ≤ total - chunkAllocSize src.memlen by omega)
        refine ⟨dest'', rest'', total', ?_, ⟨hremains.ok, ?_, ?_⟩, hge, ?_⟩
        · rw [pullLoop]
          simp only [if_neg hle, if_pos hall, hwrite, hfree, htail, hloop]
        · refine hremains.addrs.trans ?_
          simp only [List.map_cons, haddr']
          exact ((List.Sublist.refl _).cons _).cons_cons _
        · have := hremains.total_eq
          simp only [chunksAllocation_cons] at this ⊢
          rw [hmemlen'] at this
          omega
        · rw [hsame]
          simp [hbytes']
      · -- the front of the chunk moves
        obtain ⟨dest', hwrite, hok', hbytes', haddr', hmemlen', hdatalen', -⟩ := hdest.write
          (show (src.bytes.take (bytes - dest.datalen)).length ≤ dest.remainingCapacity by
            rw [List.length_take]; omega)
        obtain ⟨hsrc', hsrcBytes⟩ := hsrc.dropFront (show bytes - dest.datalen ≤ src.datalen by omega)
        rw [List.length_take] at hdatalen'
        have hdatalen'' : dest'.datalen = bytes := by omega
        refine ⟨dest', { src with
          data := src.data + (bytes - dest.datalen), datalen := src.datalen - (bytes - dest.datalen) } ::
          rest, total, ?_, ⟨?_, ?_, ?_⟩, hdatalen''.ge, ?_⟩
        · have htail : lastAddr (dest :: src :: rest) = lastAddr (dest' :: { src with
              data := src.data + (bytes - dest.datalen)
              datalen := src.datalen - (bytes - dest.datalen) } :: rest) := by
            rw [lastAddr_cons_of_ne_nil _ (List.cons_ne_nil _ _),
              lastAddr_cons_of_ne_nil _ (List.cons_ne_nil _ _)]
            rcases eq_or_ne rest [] with rfl | hne
            · rfl
            · rw [lastAddr_cons_of_ne_nil _ hne, lastAddr_cons_of_ne_nil _ hne]
          rw [pullLoop]
          simp only [if_neg hle, if_neg hall, hwrite, hdatalen'', ne_eq, not_true_eq_false, if_false,
            htail]
        · simp only [List.mem_cons]
          rintro c (rfl | rfl | hc)
          · exact hok'
          · exact hsrc'
          · exact hrest' c hc
        · simp [haddr']
        · simp only [chunksAllocation_cons, hmemlen']
          rfl
        · simp only [List.flatMap_cons, hbytes', hsrcBytes, List.append_assoc]
          rw [← List.append_assoc (src.bytes.take _), List.take_append_drop]

/-- **`buf_pullup` changes no byte, and the front of the buffer is contiguous.** -/
theorem bufPullup_spec (m : Allocator) {rest : ℕ} {s : Cell} (h : s.Ok rest) (bytes : ℕ) :
    ∃ s' head, bufPullup m s bytes = some (s', head) ∧ Cell.Becomes rest s s.buf.bytes s' ∧
      head <+: s.buf.bytes ∧ min bytes s.buf.datalen ≤ head.length := by
  cases hchunks : s.buf.chunks with
  | nil =>
    have hzero : s.buf.datalen = 0 := by rw [h.buf.datalen_eq, hchunks]; rfl
    refine ⟨s, [], ?_, h.refl, List.nil_prefix, by omega⟩
    simp only [bufPullup, hchunks]
  | cons head tl =>
    have hhead := h.buf.chunks_ok head (by simp [hchunks])
    have htl : ∀ c ∈ tl, c.Ok := fun c hc => h.buf.chunks_ok c (by simp [hchunks, hc])
    have hbytes : s.buf.bytes = head.bytes ++ tl.flatMap Chunk.bytes := by
      simp [Buf.bytes, hchunks]
    have hdatalen := h.buf.datalen_eq
    have htotal := h.total_eq
    rw [hchunks] at hdatalen htotal
    simp only [chunksDatalen_cons, chunksAllocation_cons] at hdatalen htotal
    by_cases hle : min bytes s.buf.datalen ≤ head.datalen
    · refine ⟨s, head.bytes, ?_, h.refl, hbytes ▸ List.prefix_append _ _, ?_⟩
      · simp only [bufPullup, hchunks, if_pos hle]
      · rw [hhead.length_bytes]
        exact hle
    · have hmax := h.buf.datalen_le
      obtain ⟨newhead, total₁, hroomEq, hok₁, hbytes₁, hdatalen₁, hroom₁, haddr₁, htotal₁⟩ :=
        roomInHead_spec m s.used hhead (show min bytes s.buf.datalen ≤ bufMaxLen by omega)
          (show chunkAllocSize head.memlen ≤ s.total by omega)
      have hnodup := h.nodup
      have hused : s.used = s.others ++ head.addr :: tl.map Chunk.addr := by
        simp [Cell.used, Buf.addrs, hchunks]
      -- the new address of the first chunk is its old one, or no other chunk has it
      have hnodup₁ : (s.others ++ newhead.addr :: tl.map Chunk.addr).Nodup := by
        rw [hused] at hnodup haddr₁
        rcases haddr₁ with heq | hfresh
        · rw [heq]
          exact hnodup
        · rw [List.nodup_middle, List.nodup_cons] at hnodup ⊢
          refine ⟨fun hmem => hfresh ?_, hnodup.2⟩
          rw [List.mem_append, List.mem_cons]
          rcases List.mem_append.mp hmem with hmem | hmem
          · exact Or.inl hmem
          · exact Or.inr (Or.inr hmem)
      have hnotIn : head.addr ∉ tl.map Chunk.addr := by
        rw [hused, List.nodup_append] at hnodup
        exact (List.nodup_cons.mp hnodup.2.1).1
      have htail₁ : (if s.buf.tail = some head.addr then some newhead.addr else s.buf.tail) =
          lastAddr (newhead :: tl) := by
        rw [h.buf.tail_eq, hchunks]
        rcases eq_or_ne tl [] with rfl | hne
        · simp
        · rw [lastAddr_cons_of_ne_nil head hne, if_neg (lastAddr_ne_head hnotIn),
            lastAddr_cons_of_ne_nil newhead hne]
      obtain ⟨dest, rest', total', hloop, hremains, hge, hsame⟩ := pullLoop_spec hok₁ htl
        (show min bytes s.buf.datalen - newhead.datalen ≤ newhead.remainingCapacity by omega)
        (show min bytes s.buf.datalen ≤ newhead.datalen + chunksDatalen tl by omega)
        (List.nodup_append.mp hnodup₁).2.1 (show chunksAllocation tl ≤ total₁ by omega)
      have hallSame : (dest :: rest').flatMap Chunk.bytes = s.buf.bytes := by
        rw [hsame, hbytes, List.flatMap_cons, hbytes₁]
      have hdest := hremains.ok dest List.mem_cons_self
      refine ⟨{ s with
        buf := { s.buf with chunks := dest :: rest', tail := lastAddr (dest :: rest') }
        total := total' }, dest.bytes, ?_, ⟨⟨⟨hremains.ok, rfl, ?_, hmax, h.buf.default_lt⟩, ?_, ?_⟩,
          rfl, hallSame⟩, ?_, ?_⟩
      · simp only [bufPullup, hchunks, if_neg hle, hroomEq, htail₁, hloop, Option.bind_eq_bind,
          Option.bind_some, Option.pure_def]
      · rw [← length_flatMap_bytes hremains.ok, hallSame, h.buf.length_bytes]
      · exact hnodup₁.sublist ((List.Sublist.refl _).append hremains.addrs)
      · have := hremains.total_eq
        simp only [chunksAllocation_cons] at this ⊢
        omega
      · rw [← hallSame, List.flatMap_cons]
        exact List.prefix_append _ _
      · rw [hdest.length_bytes]
        exact hge

/-! ### Copying -/

/-- A cell whose buffer has the length of its chunks; `buf_copy` sets it at the end. -/
def Cell.counted (s : Cell) : Cell :=
  { s with buf := { s.buf with datalen := chunksDatalen s.buf.chunks } }

theorem copyLoop_spec (m : Allocator) {rest : ℕ} {out : Cell} (h : out.counted.Ok rest)
    {chunks : List Chunk} (hok : ∀ c ∈ chunks, c.Ok)
    (hlen : chunksDatalen out.buf.chunks + chunksDatalen chunks ≤ bufMaxLen) :
    ∃ out', copyLoop m out chunks = some out' ∧
      Cell.Becomes rest out.counted (out.buf.bytes ++ chunks.flatMap Chunk.bytes) out'.counted := by
  induction chunks generalizing out with
  | nil => exact ⟨out, rfl, by simpa [Cell.counted, Buf.bytes] using h.refl⟩
  | cons c cs ih =>
    have hc := hok c List.mem_cons_self
    simp only [chunksDatalen_cons] at hlen
    have hnew : Chunk.Ok { c with addr := m.malloc out.used, dbgAlloc := chunkAllocSize c.memlen } :=
      ⟨hc.inside, rfl⟩
    have hlink : appendChunks out.buf
        [{ c with addr := m.malloc out.used, dbgAlloc := chunkAllocSize c.memlen }] =
        some (out.buf.chunks ++
          [{ c with addr := m.malloc out.used, dbgAlloc := chunkAllocSize c.memlen }]) :=
      appendChunks_of_ok h.buf h.nodup_addrs _
    have hb := h.concat hnew (m.malloc_fresh out.used)
      (show chunksDatalen out.buf.chunks + c.datalen ≤ bufMaxLen by omega)
    have hnext : Cell.Ok rest (Cell.counted { out with
        buf := { out.buf with
          chunks := out.buf.chunks ++
            [{ c with addr := m.malloc out.used, dbgAlloc := chunkAllocSize c.memlen }]
          tail := some (m.malloc out.used) }
        total := out.total + chunkAllocSize c.memlen }) := by
      simpa [Cell.counted, Chunk.memlen] using hb.ok
    obtain ⟨out', hloop, hb'⟩ := ih hnext (fun d hd => hok d (List.mem_cons_of_mem c hd))
      (by simp; omega)
    refine ⟨out', ?_, hb'.ok, hb'.others_eq, ?_⟩
    · simp only [copyLoop, hlink, Option.bind_eq_bind, Option.bind_some]
      exact hloop
    · rw [hb'.bytes_eq]
      simp [Buf.bytes, Chunk.bytes]

/-- **`buf_copy` makes a buffer with the same bytes.** -/
theorem bufCopy_spec (m : Allocator) {b : Buf} (h : b.Ok) {used : List ℕ} (hused : used.Nodup)
    (total : ℕ) :
    ∃ out, bufCopy m b used total = some out ∧ out.Ok total ∧ out.others = used ∧
      out.buf.bytes = b.bytes := by
  have hempty : (Cell.counted ⟨{ bufNew with defaultChunkSize := b.defaultChunkSize }, used, total⟩).Ok
      total :=
    ⟨⟨by simp [Cell.counted, bufNew], rfl, rfl, Nat.zero_le _, h.default_lt⟩,
      by simpa [Cell.counted, Cell.used, Buf.addrs, bufNew] using hused, rfl⟩
  have hlen : chunksDatalen b.chunks ≤ bufMaxLen := h.datalen_eq ▸ h.datalen_le
  obtain ⟨out, hloop, hb⟩ := copyLoop_spec m hempty h.chunks_ok (by simpa [bufNew] using hlen)
  have hbytes : out.buf.bytes = b.bytes := by
    have := hb.bytes_eq
    simpa [bufNew, Buf.bytes, Cell.counted] using this
  have hcounted : chunksDatalen out.buf.chunks = b.datalen := by
    calc chunksDatalen out.buf.chunks
        = out.buf.bytes.length := (length_flatMap_bytes hb.ok.buf.chunks_ok).symm
      _ = b.datalen := by rw [hbytes, h.length_bytes]
  refine ⟨{ out with buf := { out.buf with datalen := b.datalen } }, ?_, ?_, hb.others_eq, hbytes⟩
  · simp only [bufCopy, hloop, Option.bind_eq_bind, Option.bind_some, Option.pure_def]
  · rw [← hcounted]
    exact hb.ok

end TorEbpf.Buffers
