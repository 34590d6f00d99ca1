import Mathlib
import TorEbpf.Buffers.Buf

/-!
# Any number of buffers

The buffers of `buffers.c` share one count of allocated bytes, and chunks move from one buffer to
another.  The abstract side is a list of byte queues.

* `World`, `Call`, `step` — the buffers, the calls and what they do;
* `queuesAfter`, `ReplyOk` — the same calls on byte queues;
* `step_refines` — a call that is allowed succeeds and does to the bytes what it says;
* `run_refines` — so does every sequence of calls, from no buffers at all.
-/

namespace TorEbpf.Buffers

/-! ### Calls -/

/-- All the buffers, and `total_bytes_allocated_in_chunks`. -/
structure World where
  bufs : List Buf
  total : ℕ

def World.cell (w : World) (i : ℕ) : Option Cell :=
  w.bufs[i]?.map fun b => ⟨b, (w.bufs.eraseIdx i).flatMap Buf.addrs, w.total⟩

def World.put (w : World) (i : ℕ) (s : Cell) : World := ⟨w.bufs.set i s.buf, s.total⟩

def World.on {α : Type} (w : World) (i : ℕ) (op : Cell → Option (Cell × α)) : Option (World × α) := do
  let s ← w.cell i
  let (s, a) ← op s
  return (w.put i s, a)

/-- The loop of `buf_move_to_buf`. -/
def moveLoop (m : Allocator) (w : World) (out inp len : ℕ) : Option World :=
  if _h : len = 0 then some w
  else do
    let n := if len > 4096 then 4096 else len
    let (w, string) ← w.on inp fun s => bufGetBytes s n
    let (w, _) ← w.on out fun s => bufAdd m s string
    moveLoop m w out inp (len - n)
termination_by len
decreasing_by
  split <;> omega

/-- `buf_move_to_buf`: the buffers, the number of bytes and `*buf_flushlen`. -/
def bufMoveToBuf (m : Allocator) (w : World) (out inp bufFlushlen : ℕ) :
    Option (World × ℤ × ℕ) := do
  let bufOut ← w.bufs[out]?
  let bufIn ← w.bufs[inp]?
  if bufOut.datalen > bufMaxLen ∨ bufFlushlen > bufMaxLen then some (w, -1, bufFlushlen)
  else if bufOut.datalen > bufMaxLen - bufFlushlen then some (w, -1, bufFlushlen)
  else
    let cp := min bufFlushlen bufIn.datalen
    let w ← moveLoop m w out inp cp
    return (w, cp, bufFlushlen - cp)

/-- The chunks of `buf_out` with those of `buf_in` behind them. -/
def chunksMoved (bufOut bufIn : Buf) : Option (List Chunk) :=
  if bufOut.chunks.isEmpty then some bufIn.chunks
  else bufOut.tail.bind fun tail => linkBehind tail bufIn.chunks bufOut.chunks

def bufMoveAll (w : World) (out inp : ℕ) : Option (World × ℕ) := do
  let bufOut ← w.bufs[out]?
  let bufIn ← w.bufs[inp]?
  if bufIn.datalen = 0 then some (w, 0)
  else if bufOut.datalen > bufMaxLen ∨ bufIn.datalen > bufMaxLen then some (w, 0)
  else if bufOut.datalen > bufMaxLen - bufIn.datalen then some (w, 0)
  else
    let chunks ← chunksMoved bufOut bufIn
    let bufOut := { bufOut with
      chunks, tail := bufIn.tail, datalen := bufOut.datalen + bufIn.datalen }
    let bufIn' := { bufIn with chunks := [], tail := none, datalen := 0 }
    return ({ w with bufs := (w.bufs.set out bufOut).set inp bufIn' }, bufIn.datalen)

/-- The calls; buffers are named by their place in the list. -/
inductive Call
  | new
  | newWithCapacity (size : ℕ)
  | add (i : ℕ) (string : List UInt8)
  | addChunkWithCapacity (i capacity : ℕ) (capped : Bool)
  /-- What a socket or TLS read writes into the last chunk. -/
  | read (i : ℕ) (string : List UInt8)
  | drain (i n : ℕ)
  | getBytes (i stringLen : ℕ)
  | pullup (i bytes : ℕ)
  | peek (i stringLen : ℕ)
  | moveToBuf (out inp bufFlushlen : ℕ)
  | moveAll (out inp : ℕ)
  | copy (i : ℕ)
  | clear (i : ℕ)

/-- What a call returns: a number, bytes, and `*buf_flushlen`. -/
structure Reply where
  value : ℤ
  bytes : List UInt8
  bufFlushlen : ℕ

def Reply.void : Reply := ⟨0, [], 0⟩

/-- An operation on one buffer that returns nothing. -/
def World.onVoid (w : World) (i : ℕ) (op : Cell → Option Cell) : Option (World × Reply) :=
  w.on i fun s => (op s).map (·, Reply.void)

/-- **One call.** -/
def step (m : Allocator) (w : World) : Call → Option (World × Reply)
  | .new => some (⟨w.bufs ++ [bufNew], w.total⟩, .void)
  | .newWithCapacity size =>
    (bufNewWithCapacity size).map fun b => (⟨w.bufs ++ [b], w.total⟩, .void)
  | .add i string =>
    w.on i fun s => (bufAdd m s string).map fun r => (r.1, ⟨r.2, [], 0⟩)
  | .addChunkWithCapacity i capacity capped =>
    w.onVoid i fun s => bufAddChunkWithCapacity m s capacity capped
  | .read i string => w.onVoid i fun s => writeTail s string
  | .drain i n => w.onVoid i fun s => bufDrain s n
  | .getBytes i stringLen =>
    w.on i fun s => (bufGetBytes s stringLen).map fun r => (r.1, ⟨r.1.buf.datalen, r.2, 0⟩)
  | .pullup i bytes =>
    w.on i fun s => (bufPullup m s bytes).map fun r => (r.1, ⟨r.2.length, r.2, 0⟩)
  | .peek i stringLen =>
    w.on i fun s => (bufPeek s.buf stringLen).map fun string => (s, ⟨0, string, 0⟩)
  | .moveToBuf out inp bufFlushlen =>
    (bufMoveToBuf m w out inp bufFlushlen).map fun r => (r.1, ⟨r.2.1, [], r.2.2⟩)
  | .moveAll out inp => (bufMoveAll w out inp).map fun r => (r.1, ⟨r.2, [], 0⟩)
  | .copy i => do
    let b ← w.bufs[i]?
    let out ← bufCopy m b (w.bufs.flatMap Buf.addrs) w.total
    return (⟨w.bufs ++ [out.buf], out.total⟩, .void)
  | .clear i => w.onVoid i bufClear

/-- **The preconditions of a call**: the buffers exist, the bytes that are asked for are there, what is
added fits, and the two buffers of a move are different ones. -/
def Call.Allowed (w : World) : Call → Prop
  | .new => True
  | .newWithCapacity size => size ≤ sizeTCeiling - chunkOverhead
  | .add i string => ∃ b, w.bufs[i]? = some b ∧ b.datalen + string.length ≤ bufMaxLen
  | .addChunkWithCapacity i capacity _ =>
    ∃ b, w.bufs[i]? = some b ∧ capacity ≤ sizeTCeiling - chunkOverhead
  | .read i string =>
    ∃ b, w.bufs[i]? = some b ∧ b.chunks ≠ [] ∧ string.length ≤ bufSlack b ∧
      b.datalen + string.length ≤ bufMaxLen
  | .drain i n | .getBytes i n | .peek i n => ∃ b, w.bufs[i]? = some b ∧ n ≤ b.datalen
  | .moveToBuf out inp bufFlushlen =>
    out ≠ inp ∧ ∃ o b, w.bufs[out]? = some o ∧ w.bufs[inp]? = some b ∧
      o.datalen + bufFlushlen ≤ bufMaxLen
  | .moveAll out inp =>
    out ≠ inp ∧ ∃ o b, w.bufs[out]? = some o ∧ w.bufs[inp]? = some b ∧
      o.datalen + b.datalen ≤ bufMaxLen
  | .pullup i _ | .copy i | .clear i => ∃ b, w.bufs[i]? = some b

/-! ### Byte queues -/

def queue (q : List (List UInt8)) (i : ℕ) : List UInt8 := q.getD i []

/-- **What a call does to byte queues.** -/
def queuesAfter (q : List (List UInt8)) : Call → List (List UInt8)
  | .new | .newWithCapacity _ => q ++ [[]]
  | .add i string | .read i string => q.set i (queue q i ++ string)
  | .addChunkWithCapacity _ _ _ | .pullup _ _ | .peek _ _ => q
  | .drain i n | .getBytes i n => q.set i ((queue q i).drop n)
  | .moveToBuf out inp n =>
    (q.set out (queue q out ++ (queue q inp).take n)).set inp ((queue q inp).drop n)
  | .moveAll out inp => (q.set out (queue q out ++ queue q inp)).set inp []
  | .copy i => q ++ [queue q i]
  | .clear i => q.set i []

/-- **What a call returns**, in terms of the byte queues before it. -/
def ReplyOk (q : List (List UInt8)) : Call → Reply → Prop
  | .add i string, r => r.value = (queue q i).length + string.length
  | .getBytes i n, r => r.bytes = (queue q i).take n ∧ r.value = ((queue q i).drop n).length
  | .peek i n, r => r.bytes = (queue q i).take n
  | .pullup i n, r => r.bytes <+: queue q i ∧ min n (queue q i).length ≤ r.bytes.length
  | .moveToBuf _ inp n, r =>
    r.value = min n (queue q inp).length ∧ r.bufFlushlen = n - min n (queue q inp).length
  | .moveAll _ inp, r => r.value = (queue q inp).length
  | _, _ => True

/-! ### One buffer of many -/

/-- **What the calls keep of all buffers.** -/
structure World.Ok (w : World) : Prop where
  bufs_ok : ∀ b ∈ w.bufs, b.Ok
  nodup : (w.bufs.flatMap Buf.addrs).Nodup
  total_eq : w.total = (w.bufs.map fun b => chunksAllocation b.chunks).sum

def World.contents (w : World) : List (List UInt8) := w.bufs.map Buf.bytes

theorem sum_map_eraseIdx {α : Type*} (f : α → ℕ) {l : List α} {i : ℕ} {a : α} (h : l[i]? = some a) :
    ((l.eraseIdx i).map f).sum + f a = (l.map f).sum := by
  induction l generalizing i with
  | nil => simp at h
  | cons b l ih =>
    cases i with
    | zero =>
      obtain rfl : b = a := by simpa using h
      simp [Nat.add_comm]
    | succ i =>
      have := ih (by simpa using h)
      simp only [List.eraseIdx_cons_succ, List.map_cons, List.sum_cons]
      omega

theorem sum_map_set {α : Type*} (f : α → ℕ) {l : List α} {i : ℕ} {a : α} (h : l[i]? = some a) (x : α) :
    ((l.set i x).map f).sum + f a = (l.map f).sum + f x := by
  induction l generalizing i with
  | nil => simp at h
  | cons b l ih =>
    cases i with
    | zero =>
      obtain rfl : b = a := by simpa using h
      simp only [List.set_cons_zero, List.map_cons, List.sum_cons]
      omega
    | succ i =>
      have := ih (by simpa using h)
      simp only [List.set_cons_succ, List.map_cons, List.sum_cons]
      omega

theorem count_addrs (bufs : List Buf) (a : ℕ) :
    (bufs.flatMap Buf.addrs).count a = (bufs.map fun b => b.addrs.count a).sum := by
  rw [List.count_flatMap]
  rfl

theorem World.Ok.cell {w : World} (h : w.Ok) {i : ℕ} {b : Buf} (hb : w.bufs[i]? = some b) :
    Cell.Ok (((w.bufs.eraseIdx i).map fun b => chunksAllocation b.chunks).sum)
      ⟨b, (w.bufs.eraseIdx i).flatMap Buf.addrs, w.total⟩ := by
  refine ⟨h.bufs_ok b (List.mem_of_getElem? hb), ?_, ?_⟩
  · rw [List.nodup_iff_count_le_one]
    intro a
    have hcount := List.nodup_iff_count_le_one.mp h.nodup a
    rw [count_addrs, ← sum_map_eraseIdx _ hb] at hcount
    rw [Cell.used, List.count_append, count_addrs]
    exact hcount
  · rw [h.total_eq, ← sum_map_eraseIdx _ hb]

/-- What an operation on one buffer leads to: a buffer with these bytes in its place. -/
structure World.Becomes (w : World) (i : ℕ) (bytes : List UInt8) (w' : World) : Prop where
  ok : w'.Ok
  bufs_eq : ∃ b, w'.bufs = w.bufs.set i b ∧ b.bytes = bytes

theorem World.Becomes.contents {w w' : World} {i : ℕ} {bytes : List UInt8} (h : w.Becomes i bytes w') :
    w'.contents = w.contents.set i bytes := by
  obtain ⟨b, hbufs, hbytes⟩ := h.bufs_eq
  rw [World.contents, hbufs, List.map_set, hbytes]
  rfl

theorem World.Becomes.other {w w' : World} {i j : ℕ} {bytes : List UInt8} (h : w.Becomes i bytes w')
    (hne : i ≠ j) : w'.bufs[j]? = w.bufs[j]? := by
  obtain ⟨b, hbufs, -⟩ := h.bufs_eq
  rw [hbufs, List.getElem?_set_ne hne]

theorem World.Becomes.this {w w' : World} {i : ℕ} {bytes : List UInt8} (h : w.Becomes i bytes w')
    {b : Buf} (hb : w.bufs[i]? = some b) : ∃ b', w'.bufs[i]? = some b' ∧ b'.bytes = bytes := by
  obtain ⟨b', hbufs, hbytes⟩ := h.bufs_eq
  obtain ⟨hlt, -⟩ := List.getElem?_eq_some_iff.mp hb
  exact ⟨b', by rw [hbufs, List.getElem?_set_self hlt], hbytes⟩

/-- **The other buffers do not notice.** -/
theorem World.Ok.put {w : World} (h : w.Ok) {i : ℕ} {b : Buf} (hb : w.bufs[i]? = some b)
    {bytes : List UInt8} {s' : Cell}
    (hs : Cell.Becomes (((w.bufs.eraseIdx i).map fun b => chunksAllocation b.chunks).sum)
      ⟨b, (w.bufs.eraseIdx i).flatMap Buf.addrs, w.total⟩ bytes s') :
    w.Becomes i bytes (w.put i s') := by
  refine ⟨⟨?_, ?_, ?_⟩, s'.buf, rfl, hs.bytes_eq⟩
  · intro c hc
    rcases List.mem_or_eq_of_mem_set hc with hc | rfl
    · exact h.bufs_ok c hc
    · exact hs.ok.buf
  · rw [List.nodup_iff_count_le_one]
    intro a
    have hcount := List.nodup_iff_count_le_one.mp hs.ok.nodup a
    have hset := sum_map_set (fun b : Buf => b.addrs.count a) hb s'.buf
    have herase := sum_map_eraseIdx (fun b : Buf => b.addrs.count a) hb
    rw [Cell.used, List.count_append, hs.others_eq, count_addrs] at hcount
    rw [World.put, count_addrs]
    dsimp only
    omega
  · have htotal := hs.ok.total_eq
    have hset := sum_map_set (fun b : Buf => chunksAllocation b.chunks) hb s'.buf
    have herase := sum_map_eraseIdx (fun b : Buf => chunksAllocation b.chunks) hb
    rw [World.put]
    dsimp only at *
    omega

theorem World.contents_getElem {w : World} {i : ℕ} {b : Buf} (hb : w.bufs[i]? = some b) :
    w.contents[i]? = some b.bytes := by
  simp [World.contents, hb]

theorem World.queue_contents {w : World} {i : ℕ} {b : Buf} (hb : w.bufs[i]? = some b) :
    queue w.contents i = b.bytes := by
  rw [queue, List.getD_eq_getElem?_getD, World.contents_getElem hb]
  rfl

theorem World.set_contents {w : World} {i : ℕ} {b : Buf} (hb : w.bufs[i]? = some b) :
    w.contents.set i b.bytes = w.contents := by
  obtain ⟨hlt, heq⟩ := List.getElem?_eq_some_iff.mp (World.contents_getElem hb)
  rw [← heq]
  exact List.set_getElem_self hlt

theorem World.Ok.buf {w : World} (h : w.Ok) {i : ℕ} {b : Buf} (hb : w.bufs[i]? = some b) : b.Ok :=
  h.bufs_ok b (List.mem_of_getElem? hb)

/-- **An operation on one buffer**: what it does to its bytes it does to the queues. -/
theorem World.Ok.on {α : Type} {w : World} (h : w.Ok) {i : ℕ} {b : Buf} (hb : w.bufs[i]? = some b)
    {op : Cell → Option (Cell × α)} {bytes : List UInt8} {P : α → Prop}
    (hop : ∀ rest s, s.buf = b → Cell.Ok rest s →
      ∃ s' a, op s = some (s', a) ∧ Cell.Becomes rest s bytes s' ∧ P a) :
    ∃ w' a, w.on i op = some (w', a) ∧ w.Becomes i bytes w' ∧ P a := by
  obtain ⟨s', a, heq, hs, ha⟩ := hop _ _ rfl (h.cell hb)
  refine ⟨w.put i s', a, ?_, h.put hb hs, ha⟩
  simp only [World.on, World.cell, hb, Option.map_some, Option.bind_eq_bind, Option.bind_some, heq,
    Option.pure_def]

theorem World.Ok.onVoid {w : World} (h : w.Ok) {i : ℕ} {b : Buf} (hb : w.bufs[i]? = some b)
    {op : Cell → Option Cell} {bytes : List UInt8}
    (hop : ∀ rest s, s.buf = b → Cell.Ok rest s → ∃ s', op s = some s' ∧ Cell.Becomes rest s bytes s') :
    ∃ w' r, w.onVoid i op = some (w', r) ∧ w.Becomes i bytes w' := by
  have hop' : ∀ rest s, s.buf = b → Cell.Ok rest s → ∃ s' a,
      (fun s => (op s).map (·, Reply.void)) s = some (s', a) ∧ Cell.Becomes rest s bytes s' ∧ True := by
    intro rest s hs hcell
    obtain ⟨s', hs', hbecomes⟩ := hop rest s hs hcell
    refine ⟨s', Reply.void, ?_, hbecomes, trivial⟩
    simp only [hs', Option.map_some]
  obtain ⟨w', r, heq, hw, -⟩ := h.on hb hop'
  exact ⟨w', r, heq, hw⟩

/-! ### Two buffers -/

theorem moveLoop_spec (m : Allocator) {w : World} (h : w.Ok) {out inp len : ℕ} (hne : out ≠ inp)
    {o b : Buf} (ho : w.bufs[out]? = some o) (hb : w.bufs[inp]? = some b) (hlen : len ≤ b.datalen)
    (hmax : o.datalen + len ≤ bufMaxLen) :
    ∃ w', moveLoop m w out inp len = some w' ∧ w'.Ok ∧
      w'.contents = (w.contents.set out (o.bytes ++ b.bytes.take len)).set inp (b.bytes.drop len) := by
  induction hn : len using Nat.strong_induction_on generalizing w o b len with
  | _ n ih =>
    subst hn
    by_cases hzero : len = 0
    · refine ⟨w, by rw [moveLoop, dif_pos hzero], h, ?_⟩
      rw [hzero, List.take_zero, List.append_nil, List.drop_zero, World.set_contents ho,
        World.set_contents hb]
    · generalize hpiece : (if len > 4096 then 4096 else len) = n
      have hle : n ≤ len ∧ 0 < n := by
        rw [← hpiece]
        split <;> omega
      have hgetBytes : ∀ rest s, s.buf = b → Cell.Ok rest s → ∃ s' a,
          (fun s => bufGetBytes s n) s = some (s', a) ∧ Cell.Becomes rest s (b.bytes.drop n) s' ∧
            a = b.bytes.take n := by
        rintro rest s rfl hcell
        obtain ⟨s', heq, hs'⟩ := bufGetBytes_spec hcell (show n ≤ s.buf.datalen by omega)
        exact ⟨s', _, heq, hs', rfl⟩
      obtain ⟨w₁, string, hget, hw₁, rfl⟩ := h.on hb hgetBytes
      have hpieceLen : (b.bytes.take n).length = n := by
        rw [List.length_take, (h.buf hb).length_bytes]
        omega
      have hadd : ∀ rest s, s.buf = o → Cell.Ok rest s → ∃ s' a,
          (fun s => bufAdd m s (b.bytes.take n)) s = some (s', a) ∧
            Cell.Becomes rest s (o.bytes ++ b.bytes.take n) s' ∧ True := by
        rintro rest s rfl hcell
        obtain ⟨s', heq, hs'⟩ := bufAdd_spec m hcell (b.bytes.take n) (by omega)
        exact ⟨s', _, heq, hs', trivial⟩
      have ho₁ : w₁.bufs[out]? = some o := by rw [hw₁.other hne.symm, ho]
      obtain ⟨w₂, value, hput, hw₂, -⟩ := hw₁.ok.on ho₁ hadd
      obtain ⟨b₁, hb₁, hb₁bytes⟩ := hw₁.this hb
      have hb₂ : w₂.bufs[inp]? = some b₁ := by rw [hw₂.other hne, hb₁]
      obtain ⟨o₂, ho₂, ho₂bytes⟩ := hw₂.this ho₁
      have hb₁len : b₁.datalen = b.datalen - n := by
        rw [← (hw₁.ok.buf hb₁).length_bytes, hb₁bytes, List.length_drop, (h.buf hb).length_bytes]
      have ho₂len : o₂.datalen = o.datalen + n := by
        rw [← (hw₂.ok.buf ho₂).length_bytes, ho₂bytes, List.length_append, (h.buf ho).length_bytes,
          hpieceLen]
      obtain ⟨w', hloop, hok', hcontents'⟩ := ih (len - n) (by omega) hw₂.ok ho₂ hb₂ (by omega)
        (by omega) rfl
      refine ⟨w', ?_, hok', ?_⟩
      · rw [moveLoop, dif_neg hzero]
        simp only [hpiece, hget, hput, Option.bind_eq_bind, Option.bind_some, hloop]
      · have hsplit : b.bytes.take n ++ (b.bytes.drop n).take (len - n) = b.bytes.take len := by
          rw [← List.take_add, Nat.add_sub_cancel' hle.1]
        rw [hcontents', hw₂.contents, hw₁.contents, ho₂bytes, hb₁bytes, List.append_assoc, hsplit,
          List.drop_drop, Nat.add_sub_cancel' hle.1, List.set_set, List.set_comm _ _ hne.symm,
          List.set_set]

theorem bufMoveToBuf_spec (m : Allocator) {w : World} (h : w.Ok) {out inp bufFlushlen : ℕ}
    (hne : out ≠ inp) {o b : Buf} (ho : w.bufs[out]? = some o) (hb : w.bufs[inp]? = some b)
    (hmax : o.datalen + bufFlushlen ≤ bufMaxLen) :
    ∃ w', bufMoveToBuf m w out inp bufFlushlen =
        some (w', ((min bufFlushlen b.datalen : ℕ) : ℤ), bufFlushlen - min bufFlushlen b.datalen) ∧
      w'.Ok ∧
      w'.contents =
        (w.contents.set out (o.bytes ++ b.bytes.take bufFlushlen)).set inp (b.bytes.drop bufFlushlen) := by
  obtain ⟨w', hloop, hok, hcontents⟩ := moveLoop_spec m h hne ho hb
    (show min bufFlushlen b.datalen ≤ b.datalen from min_le_right _ _) (by omega)
  have htake : b.bytes.take (min bufFlushlen b.datalen) = b.bytes.take bufFlushlen := by
    rw [List.take_eq_take_iff, (h.buf hb).length_bytes]
    omega
  have hdrop : b.bytes.drop (min bufFlushlen b.datalen) = b.bytes.drop bufFlushlen := by
    rcases Nat.le_total bufFlushlen b.datalen with hle | hle
    · rw [min_eq_left hle]
    · rw [min_eq_right hle, List.drop_of_length_le (h.buf hb).length_bytes.le,
        List.drop_of_length_le ((h.buf hb).length_bytes.le.trans hle)]
  refine ⟨w', ?_, hok, by rw [hcontents, htake, hdrop]⟩
  have hshort : ¬ (o.datalen > bufMaxLen ∨ bufFlushlen > bufMaxLen) := by omega
  have hfits : ¬ o.datalen > bufMaxLen - bufFlushlen := by omega
  simp only [bufMoveToBuf, ho, hb, Option.bind_eq_bind, Option.bind_some, if_neg hshort, if_neg hfits,
    hloop, Option.pure_def]

theorem chunksMoved_of_ok {o b : Buf} (ho : o.Ok) (hnodup : o.addrs.Nodup) :
    chunksMoved o b = some (o.chunks ++ b.chunks) := by
  unfold chunksMoved
  rcases eq_or_ne o.chunks [] with hnil | hnil
  · simp [hnil]
  · obtain ⟨init, c, hlast, htail, hnot, -⟩ := ho.last hnodup hnil
    simp only [htail, hlast, Option.bind_some, linkBehind_concat hnot]
    simp

theorem bufMoveAll_spec {w : World} (h : w.Ok) {out inp : ℕ} (hne : out ≠ inp) {o b : Buf}
    (ho : w.bufs[out]? = some o) (hb : w.bufs[inp]? = some b)
    (hmax : o.datalen + b.datalen ≤ bufMaxLen) :
    ∃ w', bufMoveAll w out inp = some (w', b.datalen) ∧ w'.Ok ∧
      w'.contents = (w.contents.set out (o.bytes ++ b.bytes)).set inp [] := by
  have hook := h.buf ho
  have hbok := h.buf hb
  by_cases hzero : b.datalen = 0
  · have hnil : b.bytes = [] := List.length_eq_zero_iff.mp (hbok.length_bytes.trans hzero)
    refine ⟨w, ?_, h, ?_⟩
    · simp only [bufMoveAll, ho, hb, Option.bind_eq_bind, Option.bind_some, if_pos hzero]
      rw [hzero]
    · have hset := World.set_contents hb
      rw [hnil] at hset
      rw [hnil, List.append_nil, World.set_contents ho, hset]
  · have hbne : b.chunks ≠ [] := by
      intro hnil
      exact hzero (by rw [hbok.datalen_eq, hnil]; rfl)
    have hnodup : o.addrs.Nodup := (h.cell ho).nodup_addrs
    have hmoved := chunksMoved_of_ok (b := b) hook hnodup
    have hfits : ¬ (o.datalen > bufMaxLen ∨ b.datalen > bufMaxLen) := by omega
    have hfits' : ¬ o.datalen > bufMaxLen - b.datalen := by omega
    generalize ho'def : ({ o with
      chunks := o.chunks ++ b.chunks, tail := b.tail, datalen := o.datalen + b.datalen } : Buf) = o'
    generalize hb'def : ({ b with chunks := [], tail := none, datalen := 0 } : Buf) = b'
    have ho' : o'.Ok := by
      rw [← ho'def]
      refine ⟨?_, ?_, ?_, hmax, hook.default_lt⟩
      · intro c hc
        rcases List.mem_append.mp hc with hc | hc
        · exact hook.chunks_ok c hc
        · exact hbok.chunks_ok c hc
      · obtain ⟨c, cs, hcons⟩ := List.exists_cons_of_ne_nil hbne
        rw [hcons, lastAddr_append_cons, ← hcons]
        exact hbok.tail_eq
      · rw [chunksDatalen_append, hook.datalen_eq, hbok.datalen_eq]
    have hb' : b'.Ok := by
      rw [← hb'def]
      exact ⟨by simp, rfl, rfl, Nat.zero_le _, hbok.default_lt⟩
    have hbIn : (w.bufs.set out o')[inp]? = some b := by rw [List.getElem?_set_ne hne, hb]
    -- sums over all buffers: what the one gets the other one had
    have hsum : ∀ f : Buf → ℕ, f o' = f o + f b → f b' = 0 →
        ((((w.bufs.set out o').set inp b').map f).sum = (w.bufs.map f).sum) := by
      intro f hfo hfb
      have hout := sum_map_set f ho o'
      have hinp := sum_map_set f hbIn b'
      omega
    refine ⟨⟨(w.bufs.set out o').set inp b', w.total⟩, ?_, ⟨?_, ?_, ?_⟩, ?_⟩
    · simp only [bufMoveAll, ho, hb, Option.bind_eq_bind, Option.bind_some, if_neg hzero,
        if_neg hfits, if_neg hfits', hmoved, Option.pure_def, ho'def, hb'def]
    · intro c hc
      rcases List.mem_or_eq_of_mem_set hc with hc | rfl
      · rcases List.mem_or_eq_of_mem_set hc with hc | rfl
        · exact h.bufs_ok c hc
        · exact ho'
      · exact hb'
    · rw [List.nodup_iff_count_le_one]
      intro a
      have hcount := List.nodup_iff_count_le_one.mp h.nodup a
      rw [count_addrs] at hcount ⊢
      dsimp only
      rw [hsum _ (by simp [← ho'def, Buf.addrs]) (by simp [← hb'def, Buf.addrs])]
      exact hcount
    · dsimp only
      rw [hsum _ (by simp [← ho'def]) (by simp [← hb'def])]
      exact h.total_eq
    · have hbytesO : o'.bytes = o.bytes ++ b.bytes := by simp [← ho'def, Buf.bytes]
      have hbytesB : b'.bytes = [] := by simp [← hb'def, Buf.bytes]
      simp only [World.contents, List.map_set, hbytesO, hbytesB]

/-! ### Runs -/

theorem World.Ok.append {w : World} (h : w.Ok) {out : Cell} (hout : out.Ok w.total)
    (hothers : out.others = w.bufs.flatMap Buf.addrs) :
    World.Ok ⟨w.bufs ++ [out.buf], out.total⟩ := by
  refine ⟨?_, ?_, ?_⟩
  · intro c hc
    rcases List.mem_append.mp hc with hc | hc
    · exact h.bufs_ok c hc
    · rw [List.mem_singleton.mp hc]
      exact hout.buf
  · have hnodup := hout.nodup
    rw [Cell.used, hothers] at hnodup
    simpa using hnodup
  · have htotal := hout.total_eq
    simp [htotal, h.total_eq]

theorem World.Ok.append_empty {w : World} (h : w.Ok) {b : Buf} (hb : b.Ok) (hnil : b.chunks = []) :
    World.Ok ⟨w.bufs ++ [b], w.total⟩ := by
  have hout : Cell.Ok w.total ⟨b, w.bufs.flatMap Buf.addrs, w.total⟩ :=
    ⟨hb, by simpa [Cell.used, Buf.addrs, hnil] using h.nodup, by simp [hnil]⟩
  exact h.append hout rfl

theorem bufNew_ok : bufNew.Ok := ⟨by simp [bufNew], rfl, rfl, Nat.zero_le _, by decide⟩

theorem bufNewWithCapacity_spec {size : ℕ} (h : size ≤ sizeTCeiling - chunkOverhead) :
    ∃ b, bufNewWithCapacity size = some b ∧ b.Ok ∧ b.chunks = [] := by
  obtain ⟨sz, hsz, -, hlt, -⟩ := bufPreferredChunkSize_spec h
  refine ⟨{ bufNew with defaultChunkSize := sz }, ?_, ⟨by simp [bufNew], rfl, rfl, Nat.zero_le _, hlt⟩,
    rfl⟩
  simp only [bufNewWithCapacity, hsz, Option.map_some]

/-- What a call of the buffers has to do with one of the queues. -/
def Refines (m : Allocator) (w : World) (call : Call) : Prop :=
  ∃ w' r, step m w call = some (w', r) ∧ w'.Ok ∧ w'.contents = queuesAfter w.contents call ∧
    ReplyOk w.contents call r

theorem World.Ok.refines_on {w : World} (h : w.Ok) {i : ℕ} {b : Buf} (hb : w.bufs[i]? = some b)
    (m : Allocator) {call : Call} {op : Cell → Option (Cell × Reply)} {bytes : List UInt8}
    (hstep : step m w call = w.on i op) (hafter : queuesAfter w.contents call = w.contents.set i bytes)
    (hop : ∀ rest s, s.buf = b → Cell.Ok rest s →
      ∃ s' r, op s = some (s', r) ∧ Cell.Becomes rest s bytes s' ∧ ReplyOk w.contents call r) :
    Refines m w call := by
  obtain ⟨w', r, heq, hw, hr⟩ := h.on hb hop
  exact ⟨w', r, hstep.trans heq, hw.ok, hw.contents.trans hafter.symm, hr⟩

theorem World.Ok.refines_onVoid {w : World} (h : w.Ok) {i : ℕ} {b : Buf} (hb : w.bufs[i]? = some b)
    (m : Allocator) {call : Call} {op : Cell → Option Cell} {bytes : List UInt8}
    (hstep : step m w call = w.onVoid i op)
    (hafter : queuesAfter w.contents call = w.contents.set i bytes)
    (hreply : ∀ r, ReplyOk w.contents call r)
    (hop : ∀ rest s, s.buf = b → Cell.Ok rest s → ∃ s', op s = some s' ∧ Cell.Becomes rest s bytes s') :
    Refines m w call := by
  obtain ⟨w', r, heq, hw⟩ := h.onVoid hb hop
  exact ⟨w', r, hstep.trans heq, hw.ok, hw.contents.trans hafter.symm, hreply r⟩

/-- **A call that is allowed succeeds, and does to the bytes what it does to the queues.** -/
theorem step_refines (m : Allocator) {w : World} (h : w.Ok) {call : Call} (hcall : call.Allowed w) :
    Refines m w call := by
  cases call with
  | new =>
    exact ⟨_, _, rfl, h.append_empty bufNew_ok rfl, by simp [World.contents, queuesAfter, bufNew, Buf.bytes],
      trivial⟩
  | newWithCapacity size =>
    obtain ⟨b, hb, hok, hnil⟩ := bufNewWithCapacity_spec hcall
    exact ⟨_, _, by rw [step, hb]; rfl, h.append_empty hok hnil,
      by simp [World.contents, queuesAfter, Buf.bytes, hnil], trivial⟩
  | add i string =>
    obtain ⟨b, hb, hmax⟩ := hcall
    refine h.refines_on hb m rfl (by rw [queuesAfter, World.queue_contents hb]) ?_
    rintro rest s rfl hcell
    obtain ⟨s', heq, hs'⟩ := bufAdd_spec m hcell string hmax
    refine ⟨s', _, by rw [heq]; rfl, hs', ?_⟩
    simp [ReplyOk, World.queue_contents hb, hcell.buf.length_bytes]
  | addChunkWithCapacity i capacity capped =>
    obtain ⟨b, hb, hcap⟩ := hcall
    refine h.refines_onVoid hb m rfl (World.set_contents hb).symm (fun _ => trivial) ?_
    rintro rest s rfl hcell
    obtain ⟨s', heq, hs', -⟩ := bufAddChunkWithCapacity_spec m hcell capped hcap
    exact ⟨s', heq, hs'⟩
  | read i string =>
    obtain ⟨b, hb, hne, hroom, hmax⟩ := hcall
    refine h.refines_onVoid hb m rfl (by rw [queuesAfter, World.queue_contents hb])
      (fun _ => trivial) ?_
    rintro rest s rfl hcell
    exact writeTail_spec hcell string hne hroom hmax
  | drain i n =>
    obtain ⟨b, hb, hn⟩ := hcall
    refine h.refines_onVoid hb m rfl (by rw [queuesAfter, World.queue_contents hb])
      (fun _ => trivial) ?_
    rintro rest s rfl hcell
    exact bufDrain_spec hcell hn
  | getBytes i n =>
    obtain ⟨b, hb, hn⟩ := hcall
    refine h.refines_on hb m rfl (by rw [queuesAfter, World.queue_contents hb]) ?_
    rintro rest s rfl hcell
    obtain ⟨s', heq, hs'⟩ := bufGetBytes_spec hcell hn
    refine ⟨s', _, by rw [heq]; rfl, hs', ?_⟩
    simp only [ReplyOk, World.queue_contents hb, true_and]
    rw [← hs'.bytes_eq, hs'.ok.buf.length_bytes]
  | pullup i bytes =>
    obtain ⟨b, hb⟩ := hcall
    refine h.refines_on hb m rfl (World.set_contents hb).symm ?_
    rintro rest s rfl hcell
    obtain ⟨s', head, heq, hs', hfront, hlen⟩ := bufPullup_spec m hcell bytes
    refine ⟨s', _, by rw [heq]; rfl, hs', ?_⟩
    simp only [ReplyOk, World.queue_contents hb, hcell.buf.length_bytes]
    exact ⟨hfront, hlen⟩
  | peek i n =>
    obtain ⟨b, hb, hn⟩ := hcall
    refine h.refines_on hb m rfl (World.set_contents hb).symm ?_
    rintro rest s rfl hcell
    refine ⟨s, _, by rw [bufPeek_spec hcell.buf hn]; rfl, hcell.refl, ?_⟩
    simp only [ReplyOk, World.queue_contents hb]
  | moveToBuf out inp n =>
    obtain ⟨hne, o, b, ho, hb, hmax⟩ := hcall
    obtain ⟨w', heq, hok, hcontents⟩ := bufMoveToBuf_spec m h hne ho hb hmax
    refine ⟨w', _, by rw [step, heq]; rfl, hok, ?_, ?_⟩
    · rw [hcontents, queuesAfter, World.queue_contents ho, World.queue_contents hb]
    · simp [ReplyOk, World.queue_contents hb, (h.buf hb).length_bytes]
  | moveAll out inp =>
    obtain ⟨hne, o, b, ho, hb, hmax⟩ := hcall
    obtain ⟨w', heq, hok, hcontents⟩ := bufMoveAll_spec h hne ho hb hmax
    refine ⟨w', _, by rw [step, heq]; rfl, hok, ?_, ?_⟩
    · rw [hcontents, queuesAfter, World.queue_contents ho, World.queue_contents hb]
    · simp [ReplyOk, World.queue_contents hb, (h.buf hb).length_bytes]
  | copy i =>
    obtain ⟨b, hb⟩ := hcall
    obtain ⟨out, heq, hok, hothers, hbytes⟩ := bufCopy_spec m (h.buf hb) h.nodup w.total
    refine ⟨⟨w.bufs ++ [out.buf], out.total⟩, .void, ?_, h.append hok hothers, ?_, trivial⟩
    · simp only [step, hb, heq, Option.bind_eq_bind, Option.bind_some, Option.pure_def]
    · simp [World.contents, queuesAfter, hbytes, ← World.queue_contents hb]
  | clear i =>
    obtain ⟨b, hb⟩ := hcall
    refine h.refines_onVoid hb m rfl rfl (fun _ => trivial) ?_
    rintro rest s rfl hcell
    exact bufClear_spec hcell

/-- Some calls one after the other, each with the allocator as it behaves then. -/
def run (w : World) : List (Allocator × Call) → Option (World × List Reply)
  | [] => some (w, [])
  | (m, call) :: calls => do
    let (w, r) ← step m w call
    let (w, rs) ← run w calls
    return (w, r :: rs)

/-- Every call is allowed when it is made. -/
def AllAllowed (w : World) : List (Allocator × Call) → Prop
  | [] => True
  | (m, call) :: calls => call.Allowed w ∧ ∀ w' r, step m w call = some (w', r) → AllAllowed w' calls

def queuesAfterAll (q : List (List UInt8)) : List (Allocator × Call) → List (List UInt8)
  | [] => q
  | (_, call) :: calls => queuesAfterAll (queuesAfter q call) calls

def RepliesOk (q : List (List UInt8)) : List (Allocator × Call) → List Reply → Prop
  | [], [] => True
  | (_, call) :: calls, r :: rs => ReplyOk q call r ∧ RepliesOk (queuesAfter q call) calls rs
  | _, _ => False

theorem run_refines_from {w : World} (h : w.Ok) {calls : List (Allocator × Call)}
    (hcalls : AllAllowed w calls) :
    ∃ w' rs, run w calls = some (w', rs) ∧ w'.Ok ∧
      w'.contents = queuesAfterAll w.contents calls ∧ RepliesOk w.contents calls rs := by
  induction calls generalizing w with
  | nil => exact ⟨w, [], rfl, h, rfl, trivial⟩
  | cons call calls ih =>
    obtain ⟨m, call⟩ := call
    obtain ⟨w₁, r, hstep, hok₁, hcontents₁, hr⟩ := step_refines m h hcalls.1
    obtain ⟨w', rs, hrun, hok', hcontents', hrs⟩ := ih hok₁ (hcalls.2 w₁ r hstep)
    refine ⟨w', r :: rs, ?_, hok', ?_, hr, ?_⟩
    · simp only [run, hstep, hrun, Option.bind_eq_bind, Option.bind_some, Option.pure_def]
    · rw [hcontents', hcontents₁, queuesAfterAll]
    · rwa [hcontents₁] at hrs

def World.empty : World := ⟨[], 0⟩

theorem World.empty_ok : World.empty.Ok := ⟨by simp [World.empty], by simp [World.empty], rfl⟩

theorem AllAllowed.take {w : World} {calls : List (Allocator × Call)} (h : AllAllowed w calls) (n : ℕ) :
    AllAllowed w (calls.take n) := by
  induction calls generalizing w n with
  | nil => simpa using h
  | cons call calls ih =>
    cases n with
    | zero => trivial
    | succ n => exact ⟨h.1, fun w' r hstep => ih (h.2 w' r hstep) n⟩

/-- **A buffer is a byte queue**: whatever calls are made, within their preconditions, none of them
fails, every buffer passes `buf_assert_ok` after each of them, and the bytes and the results are those of
the same calls on byte queues. -/
theorem run_refines {calls : List (Allocator × Call)} (h : AllAllowed World.empty calls) (n : ℕ) :
    ∃ w rs, run World.empty (calls.take n) = some (w, rs) ∧ (∀ b ∈ w.bufs, bufAssertOk b = true) ∧
      w.bufs.map Buf.bytes = queuesAfterAll [] (calls.take n) ∧ RepliesOk [] (calls.take n) rs := by
  obtain ⟨w, rs, hrun, hok, hcontents, hrs⟩ := run_refines_from World.empty_ok (h.take n)
  exact ⟨w, rs, hrun, fun b hb => bufAssertOk_of_ok (hok.bufs_ok b hb), hcontents, hrs⟩

def countingAllocator : Allocator where
  malloc used := used.sum + 1
  realloc _ addr := addr
  junk _ := 0
  malloc_fresh used hmem := by
    have := List.le_sum_of_mem hmem
    omega
  realloc_fresh _ _ := Or.inl rfl

theorem World.Ok.buf_of_contents {w : World} (h : w.Ok) {i : ℕ} {l : List UInt8} (hl : w.contents[i]? = some l) :
    ∃ b, w.bufs[i]? = some b ∧ b.datalen = l.length := by
  rw [World.contents, List.getElem?_map] at hl
  obtain ⟨b, hb, rfl⟩ := Option.map_eq_some_iff.mp hl
  exact ⟨b, hb, (h.buf hb).length_bytes.symm⟩

/-- After a call that is allowed, only what it does to the bytes matters for the next ones. -/
theorem World.Ok.allAllowed_cons {w : World} (h : w.Ok) {m : Allocator} {call : Call}
    {calls : List (Allocator × Call)} (hcall : call.Allowed w)
    (hcalls : ∀ w', w'.Ok → w'.contents = queuesAfter w.contents call → AllAllowed w' calls) :
    AllAllowed w ((m, call) :: calls) := by
  refine ⟨hcall, fun w' r hstep => ?_⟩
  obtain ⟨w₁, r₁, hstep₁, hok, hcontents, -⟩ := step_refines m h hcall
  rw [hstep₁] at hstep
  cases hstep
  exact hcalls _ hok hcontents

/-- Two buffers: bytes are added to the first, drained, pulled up, and moved to the second in two parts. -/
def twoBufferCalls : List (Allocator × Call) :=
  [.new, .new, .add 0 [1, 2, 3], .drain 0 1, .pullup 0 2, .moveToBuf 1 0 1, .moveAll 1 0].map
    (countingAllocator, ·)

theorem run_refines_twoBuffers :
    ∃ w rs, run World.empty twoBufferCalls = some (w, rs) ∧ w.bufs.map Buf.bytes = [[], [2, 3]] := by
  have hallowed : AllAllowed World.empty twoBufferCalls := by
    refine World.empty_ok.allAllowed_cons trivial fun w hw hq => ?_
    refine hw.allAllowed_cons trivial fun w' hw' hq' => ?_
    rw [hq] at hq'
    obtain ⟨b, hb, hlen⟩ := hw'.buf_of_contents (i := 0) (by rw [hq']; rfl)
    refine hw'.allAllowed_cons ⟨b, hb, by rw [hlen]; decide⟩ fun w hw hq => ?_
    rw [hq'] at hq
    obtain ⟨b, hb, hlen⟩ := hw.buf_of_contents (i := 0) (by rw [hq]; rfl)
    refine hw.allAllowed_cons ⟨b, hb, by rw [hlen]; decide⟩ fun w' hw' hq' => ?_
    rw [hq] at hq'
    obtain ⟨b, hb, -⟩ := hw'.buf_of_contents (i := 0) (by rw [hq']; rfl)
    refine hw'.allAllowed_cons ⟨b, hb⟩ fun w hw hq => ?_
    rw [hq'] at hq
    obtain ⟨b, hb, hlen⟩ := hw.buf_of_contents (i := 0) (by rw [hq]; rfl)
    obtain ⟨o, ho, hroom⟩ := hw.buf_of_contents (i := 1) (by rw [hq]; rfl)
    refine hw.allAllowed_cons ⟨by decide, o, b, ho, hb, by rw [hroom]; decide⟩ fun w' hw' hq' => ?_
    rw [hq] at hq'
    obtain ⟨b, hb, hlen⟩ := hw'.buf_of_contents (i := 0) (by rw [hq']; rfl)
    obtain ⟨o, ho, hroom⟩ := hw'.buf_of_contents (i := 1) (by rw [hq']; rfl)
    exact hw'.allAllowed_cons ⟨by decide, o, b, ho, hb, by rw [hroom, hlen]; decide⟩ fun _ _ _ => trivial
  obtain ⟨w, rs, hrun, -, hbytes, -⟩ := run_refines hallowed 7
  exact ⟨w, rs, hrun, hbytes⟩

end TorEbpf.Buffers
