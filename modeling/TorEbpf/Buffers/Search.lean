import TorEbpf.Lib.Checked
import TorEbpf.Buffers.Runs

/-!
# Searching a buffer

The search for a string goes to the next place that has its first character and compares from there on,
from chunk to chunk.  To go on by one character it takes the next chunk to have one; behind a chunk without
data it reads what is in memory there.

* `Gap` — a comparison that comes to a chunk without data;
* `bufMatchesAtPos_spec`, `bufFindPosOfChar_spec` — what a comparison and a step of the search find;
* `findsFirst_iff_of_run` — the search finds the first place of a string, and reads nothing but data, exactly if
  no comparison before it comes to such a chunk.
-/

namespace TorEbpf.Buffers

open TorEbpf.Lib

/-! ### The search -/

/-- What goes wrong: a read outside the data of a chunk or of no chunk, or a failed assertion. -/
inductive SearchFault where
  | read
  | chunk
  | assertion
  deriving DecidableEq, Repr

abbrev Search (α : Type) := Checked Unit SearchFault α

/-- `buf_pos_t`; the chunk is the first of those that remain. -/
structure BufPos where
  chunks : List Chunk
  pos : ℕ
  chunkPos : ℕ
  deriving DecidableEq

def bufPosInit (b : Buf) : BufPos := ⟨b.chunks, 0, 0⟩

/-- The loop of `buf_find_pos_of_char`. -/
def findPosLoop (ch : UInt8) : List Chunk → ℕ → ℕ → Search (Option BufPos)
  | [], _, _ => pure none
  | chunk :: chunks, pos, chunkPos =>
    match (chunk.bytes.drop pos).findIdx? (· == ch) with
    | some cp =>
      if bufMaxLen < pos + cp then fault .assertion
      else pure (some ⟨chunk :: chunks, pos + cp, chunkPos⟩)
    | none => findPosLoop ch chunks 0 (chunkPos + chunk.datalen)

/-- `buf_find_pos_of_char`; `none` is -1. -/
def bufFindPosOfChar (ch : UInt8) (out : BufPos) : Search (Option BufPos) :=
  match out.chunks with
  | [] => pure none
  | chunk :: _ =>
    if chunk.datalen ≠ 0 ∧ chunk.datalen ≤ out.pos then fault .assertion
    else if chunk.datalen = 0 ∧ out.pos ≠ 0 then fault .assertion
    else findPosLoop ch out.chunks out.pos out.chunkPos

/-- `buf_pos_inc`; `none` is -1. -/
def bufPosInc (pos : BufPos) : Search (Option BufPos) :=
  if bufMaxLen ≤ pos.pos then fault .assertion
  else
    match pos.chunks with
    | [] => fault .chunk
    | chunk :: chunks =>
      if pos.pos + 1 = chunk.datalen then
        if chunks = [] then pure none
        else pure (some ⟨chunks, 0, pos.chunkPos + chunk.datalen⟩)
      else pure (some { pos with pos := pos.pos + 1 })

/-- `p.chunk->data[p.pos]`: it must be a byte of the chunk's data. -/
def readByte (p : BufPos) : Search UInt8 :=
  match p.chunks with
  | [] => fault .chunk
  | chunk :: _ =>
    match chunk.bytes[p.pos]? with
    | some ch => pure ch
    | none => fault .read

def bufMatchesAtPos : BufPos → List UInt8 → Search Bool
  | _, [] => pure true
  | p, ch' :: s => do
    let ch ← readByte p
    if ch ≠ ch' then return false
    else if s = [] then return true
    else do
      let next ← bufPosInc p
      match next with
      | none => return false
      | some p => bufMatchesAtPos p s

/-- The loop of `buf_find_string_offset`, for a string that starts with `ch`. -/
def findStringLoop (ch : UInt8) (s : List UInt8) : ℕ → BufPos → Search ℤ
  | 0, _ => reject ()
  | fuel + 1, pos => do
    let found ← bufFindPosOfChar ch pos
    match found with
    | none => return -1
    | some pos => do
      let matched ← bufMatchesAtPos pos s
      if matched then
        if bufMaxLen < pos.chunkPos + pos.pos then fault .assertion
        else return pos.chunkPos + pos.pos
      else do
        let next ← bufPosInc pos
        match next with
        | none => return -1
        | some pos => findStringLoop ch s fuel pos

/-- `buf_find_string_offset`, for a string that is not empty.  A step of the loop goes on by one byte at
least. -/
def bufFindStringOffset (b : Buf) (s : List UInt8) : Search ℤ :=
  match s with
  | [] => reject ()
  | ch :: _ => findStringLoop ch s (b.datalen + 1) (bufPosInit b)

/-! ### What there is to find -/

def OccursAt (l s : List UInt8) (k : ℕ) : Prop := s <+: l.drop k

/-- The first place of the string, or -1. -/
def IsFirst (l s : List UInt8) (r : ℤ) : Prop :=
  (∃ k : ℕ, r = k ∧ OccursAt l s k ∧ ∀ k' < k, ¬OccursAt l s k') ∨ (r = -1 ∧ ∀ k, ¬OccursAt l s k)

/-- A chunk without data stands behind `e` bytes. -/
def EmptyAt (chunks : List Chunk) (e : ℕ) : Prop :=
  ∃ before c after, chunks = before ++ c :: after ∧ c.datalen = 0 ∧ e = chunksDatalen before

/-- **A comparison from offset `k` on comes to a chunk without data**: up to there the string is the same,
and it goes on. -/
def Gap (chunks : List Chunk) (k : ℕ) (s : List UInt8) : Prop :=
  ∃ e, EmptyAt chunks e ∧ k < e ∧ e - k < s.length ∧
    ((chunks.flatMap Chunk.bytes).drop k).take (e - k) <+: s

/-- A comparison comes to a chunk without data before the string is found. -/
def Straddles (b : Buf) (s : List UInt8) : Prop :=
  ∃ k, Gap b.chunks k s ∧ ∀ k' < k, ¬OccursAt b.bytes s k'

section Gaps

variable {chunks before : List Chunk} {c : Chunk} {s rest : List UInt8} {a ch : UInt8} {e k i : ℕ}

theorem emptyAt_nil : ¬EmptyAt [] e := by
  rintro ⟨before, c, after, h, _⟩
  exact List.cons_ne_nil c after (List.append_eq_nil_iff.mp h.symm).2

theorem emptyAt_cons : EmptyAt (c :: chunks) e ↔
    (c.datalen = 0 ∧ e = 0) ∨ (c.datalen ≤ e ∧ EmptyAt chunks (e - c.datalen)) := by
  constructor
  · rintro ⟨before, c', after, heq, hzero, he⟩
    cases before with
    | nil =>
      cases heq
      exact .inl ⟨hzero, he⟩
    | cons c'' before =>
      cases heq
      rw [chunksDatalen_cons] at he
      exact .inr ⟨by omega, before, c', after, rfl, hzero, by omega⟩
  · rintro (⟨hzero, rfl⟩ | ⟨hle, before, c', after, rfl, hzero, he⟩)
    · exact ⟨[], c, chunks, rfl, hzero, rfl⟩
    · exact ⟨c :: before, c', after, rfl, hzero, by rw [chunksDatalen_cons]; omega⟩

theorem gap_cons (h : (chunks.flatMap Chunk.bytes).drop k = a :: rest) :
    Gap chunks k (ch :: s) ↔ a = ch ∧ s ≠ [] ∧ (EmptyAt chunks (k + 1) ∨ Gap chunks (k + 1) s) := by
  have hrest : (chunks.flatMap Chunk.bytes).drop (k + 1) = rest := by
    rw [← List.drop_drop, h, List.drop_one, List.tail_cons]
  unfold Gap
  rw [h, hrest]
  constructor
  · rintro ⟨e, hempty, hlt, hlen, hpre⟩
    rw [List.length_cons] at hlen
    obtain ⟨n, hn⟩ : ∃ n, e - k = n + 1 := ⟨e - k - 1, by omega⟩
    rw [hn, List.take_succ_cons, List.cons_prefix_cons] at hpre
    refine ⟨hpre.1, fun hnil => ?_, ?_⟩
    · rw [hnil, List.length_nil] at hlen
      omega
    · by_cases hone : e = k + 1
      · exact .inl (hone ▸ hempty)
      · refine .inr ⟨e, hempty, by omega, by omega, ?_⟩
        have hn' : e - (k + 1) = n := by omega
        rw [hn']
        exact hpre.2
  · rintro ⟨rfl, hne, hempty | ⟨e, hempty, hlt, hlen, hpre⟩⟩
    · have hpos := List.length_pos_iff.mpr hne
      refine ⟨k + 1, hempty, by omega, ?_, ?_⟩
      · rw [List.length_cons]
        omega
      · rw [Nat.add_sub_cancel_left, List.take_succ_cons, List.take_zero, List.cons_prefix_cons]
        exact ⟨rfl, List.nil_prefix⟩
    · refine ⟨e, hempty, by omega, by rw [List.length_cons]; omega, ?_⟩
      have hn : e - k = e - (k + 1) + 1 := by omega
      rw [hn, List.take_succ_cons, List.cons_prefix_cons]
      exact ⟨rfl, hpre⟩

theorem drop_flatMap_append (hbefore : ∀ c ∈ before, c.Ok) :
    ((before ++ chunks).flatMap Chunk.bytes).drop (chunksDatalen before + i)
      = (chunks.flatMap Chunk.bytes).drop i := by
  rw [List.flatMap_append, ← length_flatMap_bytes hbefore, List.drop_append,
    List.drop_eq_nil_of_le (Nat.le_add_right _ _), List.nil_append, Nat.add_sub_cancel_left]

theorem emptyAt_le (h : EmptyAt chunks e) : e ≤ chunksDatalen chunks := by
  obtain ⟨before, c, after, rfl, _, rfl⟩ := h
  rw [chunksDatalen_append]
  exact Nat.le_add_right _ _

theorem not_gap_of_drop_eq_nil (hok : ∀ c ∈ chunks, c.Ok)
    (h : (chunks.flatMap Chunk.bytes).drop k = []) : ¬Gap chunks k s := by
  rintro ⟨e, hempty, hlt, _⟩
  have hle := emptyAt_le hempty
  have hlen := List.drop_eq_nil_iff.mp h
  rw [length_flatMap_bytes hok] at hlen
  omega

/-- Where the first character is another one, or there is none, nothing is compared. -/
theorem not_gap_of_head (hok : ∀ c ∈ chunks, c.Ok)
    (h : ((chunks.flatMap Chunk.bytes).drop k).head? ≠ some ch) : ¬Gap chunks k (ch :: s) := by
  cases hdrop : (chunks.flatMap Chunk.bytes).drop k with
  | nil => exact not_gap_of_drop_eq_nil hok hdrop
  | cons a rest =>
    rw [gap_cons hdrop]
    rintro ⟨rfl, _⟩
    rw [hdrop] at h
    exact h rfl

theorem gap_append (hbefore : ∀ c ∈ before, c.Ok) :
    Gap (before ++ chunks) (chunksDatalen before + i) s ↔ Gap chunks i s := by
  induction before with
  | nil => rw [List.nil_append, chunksDatalen_nil, Nat.zero_add]
  | cons c before ih =>
    obtain ⟨hc, hbefore⟩ := List.forall_mem_cons.mp hbefore
    rw [← ih hbefore, List.cons_append, chunksDatalen_cons, Nat.add_assoc]
    generalize chunksDatalen before + i = j
    have hdrop : ∀ l : List UInt8, (c.bytes ++ l).drop (c.datalen + j) = l.drop j := by
      intro l
      rw [← hc.length_bytes, List.drop_append, List.drop_eq_nil_of_le (Nat.le_add_right _ _), List.nil_append,
        Nat.add_sub_cancel_left]
    unfold Gap
    simp only [List.flatMap_cons, hdrop, emptyAt_cons]
    constructor
    · rintro ⟨e, ⟨_, rfl⟩ | ⟨hle, hempty⟩, hlt, hlen, hpre⟩
      · omega
      · have he : e - (c.datalen + j) = e - c.datalen - j := by omega
        rw [he] at hlen hpre
        exact ⟨e - c.datalen, hempty, by omega, hlen, hpre⟩
    · rintro ⟨e, hempty, hlt, hlen, hpre⟩
      have he : e + c.datalen - (c.datalen + j) = e - j := by omega
      refine ⟨e + c.datalen, .inr ⟨by omega, by rwa [Nat.add_sub_cancel]⟩, by omega, ?_, ?_⟩
      · rwa [he]
      · rwa [he]

end Gaps

/-! ### Positions -/

/-- What the operations keep of the chunks. -/
def ChunksOk (chunks : List Chunk) : Prop := ∀ c ∈ chunks, c.Ok ∧ c.datalen ≤ bufMaxLen

theorem ChunksOk.ok {chunks : List Chunk} (h : ChunksOk chunks) : ∀ c ∈ chunks, c.Ok := fun c hc => (h c hc).1

def BufPos.rest (p : BufPos) : List UInt8 := (p.chunks.flatMap Chunk.bytes).drop p.pos

/-- There is a byte at the position. -/
def BufPos.Valid (p : BufPos) : Prop := ∃ c cs, p.chunks = c :: cs ∧ p.pos < c.datalen

/-- `n` bytes further. -/
def BufPos.Further (p p' : BufPos) (n : ℕ) : Prop :=
  ∃ before, p.chunks = before ++ p'.chunks ∧ p'.chunkPos = p.chunkPos + chunksDatalen before ∧
    p.pos + n = chunksDatalen before + p'.pos

section Positions

variable {p p' p'' : BufPos} {n n' k : ℕ} {s : List UInt8} {ch : UInt8}

theorem BufPos.Further.trans (h : p.Further p' n) (h' : p'.Further p'' n') : p.Further p'' (n + n') := by
  obtain ⟨before, hchunks, hpos, hn⟩ := h
  obtain ⟨before', hchunks', hpos', hn'⟩ := h'
  refine ⟨before ++ before', ?_, ?_, ?_⟩
  · rw [hchunks, hchunks', List.append_assoc]
  · rw [hpos', hpos, chunksDatalen_append, Nat.add_assoc]
  · rw [chunksDatalen_append]
    omega

theorem BufPos.Further.ok (h : p.Further p' n) (hok : ChunksOk p.chunks) : ChunksOk p'.chunks := by
  obtain ⟨before, hchunks, _⟩ := h
  intro c hc
  exact hok c (hchunks ▸ List.mem_append_right before hc)

theorem BufPos.Further.rest (h : p.Further p' n) (hok : ChunksOk p.chunks) : p'.rest = p.rest.drop n := by
  obtain ⟨before, hchunks, _, hn⟩ := h
  rw [hchunks] at hok
  rw [BufPos.rest, BufPos.rest, List.drop_drop, hchunks, hn,
    drop_flatMap_append fun c hc => (hok c (List.mem_append_left _ hc)).1]

theorem BufPos.Further.gap (h : p.Further p' n) (hok : ChunksOk p.chunks) :
    Gap p.chunks (p.pos + n) s ↔ Gap p'.chunks p'.pos s := by
  obtain ⟨before, hchunks, _, hn⟩ := h
  rw [hchunks] at hok
  rw [hchunks, hn, gap_append fun c hc => (hok c (List.mem_append_left _ hc)).1]

theorem BufPos.Valid.readByte (h : p.Valid) (hok : ChunksOk p.chunks) :
    ∃ ch, readByte p = .ok ch ∧ p.rest = ch :: p.rest.tail := by
  obtain ⟨c, cs, hchunks, hpos⟩ := h
  have hc := (hok c (hchunks ▸ List.mem_cons_self)).1
  have hlt : p.pos < c.bytes.length := by rwa [hc.length_bytes]
  refine ⟨c.bytes[p.pos], ?_, ?_⟩
  · rw [Buffers.readByte, hchunks]
    dsimp only
    rw [List.getElem?_eq_getElem hlt]
    rfl
  · rw [BufPos.rest, hchunks, List.flatMap_cons, List.drop_append_of_le_length (Nat.le_of_lt hlt),
      List.drop_eq_getElem_cons hlt]
    rfl

/-- **One character further**: the end of the buffer, a position with a byte, or a chunk without data. -/
theorem bufPosInc_spec (h : p.Valid) (hok : ChunksOk p.chunks) :
    (bufPosInc p = .ok none ∧ p.rest.drop 1 = [] ∧ ¬EmptyAt p.chunks (p.pos + 1)) ∨
      ∃ p', bufPosInc p = .ok (some p') ∧ p.Further p' 1 ∧
        (p'.Valid ∧ ¬EmptyAt p.chunks (p.pos + 1) ∨
          (∃ c cs, p'.chunks = c :: cs ∧ c.datalen = 0 ∧ p'.pos = 0) ∧ EmptyAt p.chunks (p.pos + 1)) := by
  obtain ⟨c, cs, hchunks, hpos⟩ := h
  obtain ⟨hc, hmax⟩ := hok c (hchunks ▸ List.mem_cons_self)
  unfold bufPosInc
  rw [if_neg (by omega), hchunks]
  dsimp only
  by_cases hend : p.pos + 1 = c.datalen
  · rw [if_pos hend]
    cases cs with
    | nil =>
      refine .inl ⟨rfl, ?_, ?_⟩
      · rw [BufPos.rest, List.drop_drop, hchunks, List.flatMap_cons, List.flatMap_nil, List.append_nil,
          List.drop_eq_nil_iff, hc.length_bytes]
        omega
      · rw [emptyAt_cons]
        rintro (⟨hzero, _⟩ | ⟨_, hnil⟩)
        · omega
        · exact emptyAt_nil hnil
    | cons c' cs =>
      rw [if_neg (List.cons_ne_nil c' cs)]
      refine .inr ⟨_, rfl, ⟨[c], hchunks, ?_, ?_⟩, ?_⟩
      · rw [chunksDatalen_cons, chunksDatalen_nil, Nat.add_zero]
      · rw [chunksDatalen_cons, chunksDatalen_nil, hend]
        rfl
      · by_cases hzero : c'.datalen = 0
        · exact .inr ⟨⟨c', cs, rfl, hzero, rfl⟩, [c], c', cs, rfl, hzero, by
            rw [chunksDatalen_cons, chunksDatalen_nil, hend, Nat.add_zero]⟩
        · refine .inl ⟨⟨c', cs, rfl, Nat.pos_of_ne_zero hzero⟩, ?_⟩
          rw [emptyAt_cons, emptyAt_cons]
          omega
  · rw [if_neg hend]
    refine .inr ⟨_, rfl, ⟨[], hchunks, rfl, ?_⟩, .inl ⟨⟨c, cs, rfl, by dsimp only; omega⟩, ?_⟩⟩
    · rw [chunksDatalen_nil, Nat.zero_add]
    · rw [emptyAt_cons]
      omega

/-- **A comparison** is right unless it comes to a chunk without data. -/
theorem bufMatchesAtPos_spec (h : p.Valid) (hok : ChunksOk p.chunks) (hne : s ≠ []) :
    (Gap p.chunks p.pos s ∧ ∃ f, bufMatchesAtPos p s = fault f) ∨
      (¬Gap p.chunks p.pos s ∧ ∃ m, bufMatchesAtPos p s = .ok m ∧ (m = true ↔ s <+: p.rest)) := by
  induction s generalizing p with
  | nil => exact absurd rfl hne
  | cons ch' s ih =>
    obtain ⟨ch, hread, hrest⟩ := h.readByte hok
    rw [bufMatchesAtPos, hread, ok_bind, gap_cons hrest, hrest, List.cons_prefix_cons]
    by_cases heq : ch = ch'
    · subst heq
      rw [if_neg (not_not.mpr rfl)]
      by_cases hnil : s = []
      · rw [if_pos hnil]
        refine .inr ⟨fun hgap => hgap.2.1 hnil, true, rfl, iff_of_true rfl ⟨rfl, ?_⟩⟩
        rw [hnil]
        exact List.nil_prefix
      · rw [if_neg hnil]
        rcases bufPosInc_spec h hok with ⟨hinc, hend, hempty⟩ | ⟨p', hinc, hfurther, hcases⟩
        · -- at the end of the buffer there is nothing to compare with
          rw [hinc, ok_bind]
          refine .inr ⟨?_, false, rfl, iff_of_false Bool.false_ne_true ?_⟩
          · rintro ⟨_, _, hgap | hgap⟩
            · exact hempty hgap
            · rw [BufPos.rest, List.drop_drop] at hend
              exact not_gap_of_drop_eq_nil hok.ok hend hgap
          · rw [List.drop_one] at hend
            rw [hend, List.prefix_nil]
            exact fun hpre => hnil hpre.2
        · rw [hinc, ok_bind]
          dsimp only
          have hrest' : p'.rest = p.rest.tail := by rw [hfurther.rest hok, List.drop_one]
          have hgap := @BufPos.Further.gap p p' 1 s hfurther hok
          rcases hcases with ⟨hvalid, hempty⟩ | ⟨⟨c, cs, hchunks, hzero, hpos⟩, hempty⟩
          · rcases ih hvalid (hfurther.ok hok) hnil with ⟨hg, hfault⟩ | ⟨hg, m, hm, hiff⟩
            · exact .inl ⟨⟨rfl, hnil, .inr (hgap.mpr hg)⟩, hfault⟩
            · refine .inr ⟨?_, m, hm, ?_⟩
              · rintro ⟨_, _, hg' | hg'⟩
                · exact hempty hg'
                · exact hg (hgap.mp hg')
              · rw [hiff, hrest', and_iff_right rfl]
          · refine .inl ⟨⟨rfl, hnil, .inl hempty⟩, .read, ?_⟩
            obtain ⟨ch'', s', rfl⟩ := List.exists_cons_of_ne_nil hnil
            have hc := ((hfurther.ok hok) c (hchunks ▸ List.mem_cons_self)).1.length_bytes
            rw [hzero, List.length_eq_zero_iff] at hc
            rw [bufMatchesAtPos, Buffers.readByte, hchunks]
            dsimp only
            rw [hc, List.getElem?_nil]
            rfl
    · rw [if_pos heq]
      exact .inr ⟨fun hgap => heq hgap.1, false, rfl,
        iff_of_false Bool.false_ne_true fun hpre => heq hpre.1.symm⟩

/-- The search can start at the start of a chunk, even of one without data, and where there is a byte. -/
def BufPos.Ready (p : BufPos) : Prop := p.pos = 0 ∨ p.Valid

/-- What a search finds behind `n` other characters. -/
structure BufPos.Finds (p p' : BufPos) (ch : UInt8) (n : ℕ) : Prop where
  valid : p'.Valid
  further : p.Further p' n
  skipped : ch ∉ p.rest.take n
  found : p'.rest.head? = some ch

theorem findPosLoop_spec (hok : ChunksOk p.chunks) (hpos : ∀ c cs, p.chunks = c :: cs → p.pos ≤ c.datalen) :
    (findPosLoop ch p.chunks p.pos p.chunkPos = .ok none ∧ ch ∉ p.rest) ∨
      ∃ p' n, findPosLoop ch p.chunks p.pos p.chunkPos = .ok (some p') ∧ p.Finds p' ch n := by
  obtain ⟨chunks, pos, chunkPos⟩ := p
  dsimp only at hok hpos ⊢
  induction chunks generalizing pos chunkPos with
  | nil =>
    refine .inl ⟨rfl, ?_⟩
    rw [BufPos.rest, List.flatMap_nil, List.drop_nil]
    exact List.not_mem_nil
  | cons c cs ih =>
    obtain ⟨hc, hmax⟩ := hok c List.mem_cons_self
    have hle : pos ≤ c.bytes.length := by
      rw [hc.length_bytes]
      exact hpos c cs rfl
    have hrest : BufPos.rest ⟨c :: cs, pos, chunkPos⟩ = c.bytes.drop pos ++ cs.flatMap Chunk.bytes := by
      rw [BufPos.rest, List.flatMap_cons, List.drop_append_of_le_length hle]
    have hlen : (c.bytes.drop pos).length = c.datalen - pos := by rw [List.length_drop, hc.length_bytes]
    have hposle := hpos c cs rfl
    rw [findPosLoop]
    cases hfind : (c.bytes.drop pos).findIdx? (· == ch) with
    | some cp =>
      obtain ⟨hlt, hch, hbefore⟩ := List.findIdx?_eq_some_iff_getElem.mp hfind
      rw [beq_iff_eq] at hch
      rw [hlen] at hlt
      dsimp only
      rw [if_neg (by omega)]
      refine .inr ⟨_, cp, rfl, ⟨c, cs, rfl, by dsimp only; omega⟩, ⟨[], rfl, rfl, ?_⟩, ?_, ?_⟩
      · rw [chunksDatalen_nil, Nat.zero_add]
      · rw [hrest, List.take_append_of_le_length (by omega)]
        intro hmem
        obtain ⟨j, hj, hget⟩ := List.mem_iff_getElem.mp hmem
        rw [List.length_take] at hj
        rw [List.getElem_take] at hget
        exact hbefore j (by omega) (by rw [hget, beq_self_eq_true])
      · rw [BufPos.rest, List.flatMap_cons, List.head?_drop,
          List.getElem?_append_left (by rw [hc.length_bytes]; dsimp only; omega), ← List.getElem?_drop, ← hch]
        exact List.getElem?_eq_getElem _
    | none =>
      have hnot : ch ∉ c.bytes.drop pos := by
        intro hmem
        have hne := List.findIdx?_eq_none_iff.mp hfind ch hmem
        rw [beq_self_eq_true] at hne
        cases hne
      dsimp only
      rcases @ih 0 (chunkPos + c.datalen) (fun c hc => hok c (List.mem_cons_of_mem _ hc))
        (fun _ _ _ => Nat.zero_le _) with ⟨hloop, hmem⟩ | ⟨p', n, hloop, hfinds⟩
      · refine .inl ⟨hloop, ?_⟩
        rw [hrest, List.mem_append]
        rw [BufPos.rest, List.drop_zero] at hmem
        exact fun h => h.elim hnot hmem
      · obtain ⟨before, hchunks, hchunkPos, hn⟩ := hfinds.further
        dsimp only at hchunks hchunkPos hn
        refine .inr ⟨p', c.datalen - pos + n, hloop, hfinds.valid, ⟨c :: before, ?_, ?_, ?_⟩, ?_, hfinds.found⟩
        · rw [List.cons_append, ← hchunks]
        · rw [hchunkPos, chunksDatalen_cons, Nat.add_assoc]
        · rw [chunksDatalen_cons]
          dsimp only
          omega
        · have hskip := hfinds.skipped
          rw [BufPos.rest, List.drop_zero] at hskip
          rw [hrest, ← hlen, List.take_length_add_append, List.mem_append]
          exact fun h => h.elim hnot hskip

/-- **To the next character** `ch`. -/
theorem bufFindPosOfChar_spec (hready : p.Ready) (hok : ChunksOk p.chunks) :
    (bufFindPosOfChar ch p = .ok none ∧ ch ∉ p.rest) ∨
      ∃ p' n, bufFindPosOfChar ch p = .ok (some p') ∧ p.Finds p' ch n := by
  have hpos : ∀ c cs, p.chunks = c :: cs → p.pos < c.datalen ∨ p.pos = 0 := by
    intro c cs hchunks
    rcases hready with hzero | ⟨c', cs', hchunks', hlt⟩
    · exact .inr hzero
    · rw [hchunks'] at hchunks
      cases hchunks
      exact .inl hlt
  have hloop := @findPosLoop_spec p ch hok fun c cs hchunks => by
    have hcases := hpos c cs hchunks
    omega
  unfold bufFindPosOfChar
  cases hchunks : p.chunks with
  | nil =>
    refine .inl ⟨rfl, ?_⟩
    rw [BufPos.rest, hchunks, List.flatMap_nil, List.drop_nil]
    exact List.not_mem_nil
  | cons c cs =>
    have hcases := hpos c cs hchunks
    dsimp only
    rw [hchunks] at hloop
    rw [if_neg (by omega), if_neg (by omega)]
    exact hloop

end Positions

/-! ### The whole search -/

section Whole

variable {b : Buf} {p : BufPos} {s : List UInt8} {ch : UInt8} {k fuel : ℕ}

/-- Nothing was found in front of `k`, and nothing was compared that comes to a chunk without data. -/
def NothingBefore (b : Buf) (s : List UInt8) (k : ℕ) : Prop :=
  ∀ k' < k, ¬OccursAt b.bytes s k' ∧ ¬Gap b.chunks k' s

theorem not_occursAt_of_head {l : List UInt8} (h : l[k]? ≠ some ch) : ¬OccursAt l (ch :: s) k := by
  rintro ⟨t, ht⟩
  apply h
  rw [← List.head?_drop, ← ht]
  rfl

theorem Buf.Ok.chunksOk (hb : b.Ok) : ChunksOk b.chunks := by
  intro c hc
  have hle : c.datalen ≤ chunksDatalen b.chunks := List.le_sum_of_mem (List.mem_map_of_mem hc)
  have hdatalen := hb.datalen_eq
  have hmax := hb.datalen_le
  exact ⟨hb.chunks_ok c hc, by omega⟩

theorem rest_bufPosInit (b : Buf) : (bufPosInit b).rest = b.bytes := rfl

/-- Where the first character is another one there is nothing. -/
theorem nothingAt_of_other (hb : b.Ok) (hne : b.bytes[k]? ≠ some ch) :
    ¬OccursAt b.bytes (ch :: s) k ∧ ¬Gap b.chunks k (ch :: s) := by
  refine ⟨not_occursAt_of_head hne, not_gap_of_head hb.chunks_ok ?_⟩
  rw [List.head?_drop]
  exact hne

theorem NothingBefore.succ (h : NothingBefore b s k) (hnot : ¬OccursAt b.bytes s k)
    (hng : ¬Gap b.chunks k s) : NothingBefore b s (k + 1) := by
  intro k' hlt
  by_cases heq : k' = k
  · rw [heq]
    exact ⟨hnot, hng⟩
  · exact h k' (by omega)

/-- The characters that a step of the search skips. -/
theorem NothingBefore.skip (h : NothingBefore b (ch :: s) k) (hb : b.Ok) {n : ℕ}
    (hskipped : ch ∉ (b.bytes.drop k).take n) : NothingBefore b (ch :: s) (k + n) := by
  intro k' hlt
  by_cases hle : k' < k
  · exact h k' hle
  · refine nothingAt_of_other hb fun hget => hskipped ?_
    have hk : k + (k' - k) = k' := by omega
    rw [← hk, ← List.getElem?_drop] at hget
    refine List.mem_of_getElem? (i := k' - k) ?_
    rwa [List.getElem?_take_of_lt (by omega)]

/-- Where the character does not come again the string is not found. -/
theorem NothingBefore.never (h : NothingBefore b (ch :: s) k) (hb : b.Ok) (hnot : ch ∉ b.bytes.drop k) :
    IsFirst b.bytes (ch :: s) (-1) ∧ ¬Straddles b (ch :: s) := by
  have hall : ∀ k', ¬OccursAt b.bytes (ch :: s) k' ∧ ¬Gap b.chunks k' (ch :: s) := by
    intro k'
    refine (h.skip hb (n := k' + 1) fun hmem => hnot (List.mem_of_mem_take hmem)) k' (by omega)
  exact ⟨.inr ⟨rfl, fun k' => (hall k').1⟩, fun ⟨k', hgap, _⟩ => (hall k').2 hgap⟩

theorem NothingBefore.found (h : NothingBefore b s k) (hocc : OccursAt b.bytes s k)
    (hng : ¬Gap b.chunks k s) : IsFirst b.bytes s k ∧ ¬Straddles b s := by
  refine ⟨.inl ⟨k, rfl, hocc, fun k' hlt => (h k' hlt).1⟩, ?_⟩
  rintro ⟨k', hgap, hfirst⟩
  rcases Nat.lt_trichotomy k' k with hlt | rfl | hgt
  · exact (h k' hlt).2 hgap
  · exact hng hgap
  · exact hfirst k hgt hocc

/-- **The loop**, from offset `k` on: the result is right, unless the string straddles a chunk without
data. -/
theorem findStringLoop_spec (hb : b.Ok) (hstart : (bufPosInit b).Further p k) (hready : p.Ready)
    (hbefore : NothingBefore b (ch :: s) k) (hfuel : b.datalen - k < fuel) :
    (∃ r, findStringLoop ch (ch :: s) fuel p = .ok r ∧ IsFirst b.bytes (ch :: s) r ∧
        ¬Straddles b (ch :: s)) ∨
      (∃ f, findStringLoop ch (ch :: s) fuel p = fault f) ∧ Straddles b (ch :: s) := by
  induction fuel generalizing p k with
  | zero => omega
  | succ fuel ih =>
    have hok : ChunksOk (bufPosInit b).chunks := hb.chunksOk
    have hrest := hstart.rest hok
    rw [rest_bufPosInit] at hrest
    rw [findStringLoop]
    rcases @bufFindPosOfChar_spec p ch hready (hstart.ok hok) with ⟨hfind, hnot⟩ | ⟨p', n, hfind, hfinds⟩
    · rw [hrest] at hnot
      rw [hfind]
      exact .inl ⟨-1, rfl, hbefore.never hb hnot⟩
    · have hfar := hstart.trans hfinds.further
      have hrest' := hfar.rest hok
      rw [rest_bufPosInit] at hrest'
      have hgap := @BufPos.Further.gap _ _ _ (ch :: s) hfar hok
      rw [bufPosInit, Nat.zero_add] at hgap
      have hskip : NothingBefore b (ch :: s) (k + n) := hbefore.skip hb (hrest ▸ hfinds.skipped)
      -- the position is inside of the data
      have hinside : k + n < b.datalen := by
        by_contra hge
        have hnil : b.bytes.drop (k + n) = [] := List.drop_eq_nil_of_le (by rw [hb.length_bytes]; omega)
        have hfound := hfinds.found
        rw [hrest', hnil] at hfound
        cases hfound
      obtain ⟨before, _, hchunkPos, hpos⟩ := hfar
      rw [bufPosInit, Nat.zero_add] at hchunkPos hpos
      rw [hfind, ok_bind]
      dsimp only
      have hok' := hfinds.further.ok (hstart.ok hok)
      rcases bufMatchesAtPos_spec hfinds.valid hok' (List.cons_ne_nil ch s) with ⟨hg, f, hf⟩ | ⟨hg, m, hm, hiff⟩
      · refine .inr ⟨⟨f, ?_⟩, k + n, hgap.mpr hg, fun k' hlt => (hskip k' hlt).1⟩
        rw [hf]
        rfl
      rw [hm, ok_bind]
      have hng : ¬Gap b.chunks (k + n) (ch :: s) := fun h => hg (hgap.mp h)
      rw [hrest'] at hiff
      cases m with
      | true =>
        have hmax := hb.datalen_le
        refine .inl ⟨(k + n : ℕ), ?_, hskip.found (hiff.mp rfl) hng⟩
        rw [if_pos rfl, if_neg (by omega)]
        have hsum : p'.chunkPos + p'.pos = k + n := by omega
        rw [← hsum, Nat.cast_add]
        rfl
      | false =>
        rw [if_neg Bool.false_ne_true]
        have hnext := hskip.succ (fun h => Bool.false_ne_true (hiff.mpr h)) hng
        rcases bufPosInc_spec hfinds.valid hok' with ⟨hinc, hend, _⟩ | ⟨p'', hinc, hfurther, hcases⟩
        · rw [hrest', List.drop_drop] at hend
          rw [hinc]
          exact .inl ⟨-1, rfl, hnext.never hb (hend ▸ List.not_mem_nil)⟩
        · rw [hinc, ok_bind]
          refine ih ((hstart.trans hfinds.further).trans hfurther) ?_ hnext (by omega)
          rcases hcases with ⟨hvalid, _⟩ | ⟨⟨_, _, _, _, hzero⟩, _⟩
          · exact .inr hvalid
          · exact .inl hzero

/-- **The search is right**: it reads nothing but data, and what it yields is the first place. -/
def FindsFirst (b : Buf) (s : List UInt8) : Prop :=
  ∃ r, bufFindStringOffset b s = .ok r ∧ IsFirst b.bytes s r

theorem findsFirst_iff (hb : b.Ok) (hs : s ≠ []) : FindsFirst b s ↔ ¬Straddles b s := by
  obtain ⟨ch, s, rfl⟩ := List.exists_cons_of_ne_nil hs
  have hstart : (bufPosInit b).Further (bufPosInit b) 0 := ⟨[], rfl, rfl, rfl⟩
  rcases @findStringLoop_spec b (bufPosInit b) s ch 0 (b.datalen + 1) hb hstart (.inl rfl)
      (fun _ h => absurd h (Nat.not_lt_zero _)) (by omega) with
    ⟨r, hr, hfirst, hstraddles⟩ | ⟨⟨f, hf⟩, hstraddles⟩
  · exact iff_of_true ⟨r, hr, hfirst⟩ hstraddles
  · refine iff_of_false ?_ (not_not.mpr hstraddles)
    rintro ⟨r, hr, _⟩
    have heq : Except.ok r = (fault f : Search ℤ) := hr.symm.trans hf
    cases heq

end Whole

/-- **The search in any buffer** that calls lead to, for any string. -/
theorem findsFirst_iff_of_run {calls : List (Allocator × Call)} (h : AllAllowed World.empty calls)
    {w : World} {rs : List Reply} (hrun : run World.empty calls = some (w, rs)) {b : Buf} (hb : b ∈ w.bufs)
    {s : List UInt8} (hs : s ≠ []) : FindsFirst b s ↔ ¬Straddles b s := by
  obtain ⟨w', rs', hrun', hok, _⟩ := run_refines_from World.empty_ok h
  rw [hrun] at hrun'
  cases hrun'
  exact findsFirst_iff (hok.bufs_ok b hb) hs

theorem findsFirst_iff_of_run_add :
    ∃ w rs b, run World.empty [(countingAllocator, .new), (countingAllocator, .add 0 [1, 2, 3])]
        = some (w, rs) ∧ b ∈ w.bufs ∧ (FindsFirst b [2, 3] ↔ ¬Straddles b [2, 3]) := by
  have hallowed : AllAllowed World.empty
      [(countingAllocator, .new), (countingAllocator, .add 0 [1, 2, 3])] := by
    refine ⟨trivial, ?_⟩
    rintro w' r ⟨⟩
    exact ⟨⟨bufNew, rfl, by decide⟩, fun _ _ _ => trivial⟩
  obtain ⟨w, rs, hrun, -, hbytes, -⟩ := run_refines hallowed 2
  obtain ⟨b, hb⟩ : ∃ b, b ∈ w.bufs := by
    refine List.exists_mem_of_ne_nil w.bufs fun hnil => ?_
    rw [hnil] at hbytes
    cases hbytes
  exact ⟨w, rs, b, hrun, hb, findsFirst_iff_of_run hallowed hrun hb (List.cons_ne_nil 2 [3])⟩

/-- Calls are allowed if each is after those in front of it. -/
theorem allAllowed_of_forall {calls : List (Allocator × Call)} {w : World}
    (h : ∀ n call, calls[n]? = some call →
      ∃ w' rs, run w (calls.take n) = some (w', rs) ∧ call.2.Allowed w') : AllAllowed w calls := by
  induction calls generalizing w with
  | nil => trivial
  | cons call calls ih =>
    obtain ⟨m, call⟩ := call
    refine ⟨?_, fun w₁ r hstep => ih fun n call' hget => ?_⟩
    · obtain ⟨w', rs, hrun, hallowed⟩ := h 0 (m, call) rfl
      cases hrun
      exact hallowed
    · obtain ⟨w', rs, hrun, hallowed⟩ := h (n + 1) call' hget
      rw [List.take_succ_cons, run, hstep] at hrun
      cases hrest : run w₁ (calls.take n) with
      | none =>
        simp only [Option.bind_eq_bind, Option.bind_some, hrest, Option.bind_none, reduceCtorEq] at hrun
      | some out =>
        simp only [Option.bind_eq_bind, Option.bind_some, hrest, Option.pure_def, Option.some.injEq,
          Prod.mk.injEq] at hrun
        exact ⟨out.1, out.2, rfl, hrun.1 ▸ hallowed⟩

/-- The calls of a reader that has put `ab` into a chunk, and then has no bytes for the next one. -/
def emptyTailCalls : List (Allocator × Call) :=
  [(countingAllocator, .new), (countingAllocator, .addChunkWithCapacity 0 10 true),
    (countingAllocator, .read 0 [97, 98]), (countingAllocator, .addChunkWithCapacity 0 10 true)]

/-- What the calls so far have led to. -/
def Reaches (calls : List (Allocator × Call)) (P : Buf → Bool) : Bool :=
  (run World.empty calls).any fun r => r.1.bufs[0]?.any P

theorem reaches_iff {calls : List (Allocator × Call)} {P : Buf → Bool} (h : Reaches calls P = true) :
    ∃ w rs b, run World.empty calls = some (w, rs) ∧ w.bufs[0]? = some b ∧ P b = true := by
  obtain ⟨⟨w, rs⟩, hrun, hbuf⟩ := (Option.any_eq_true _ _).mp h
  obtain ⟨b, hb, hP⟩ := (Option.any_eq_true _ _).mp hbuf
  exact ⟨w, rs, b, hrun, hb, hP⟩

theorem allAllowed_emptyTailCalls : AllAllowed World.empty emptyTailCalls := by
  refine allAllowed_of_forall fun n call hget => ?_
  match n with
  | 0 =>
    cases hget
    exact ⟨_, _, rfl, trivial⟩
  | 1 =>
    cases hget
    obtain ⟨w, rs, b, hrun, hb, _⟩ := @reaches_iff (emptyTailCalls.take 1) (fun _ => true) (by decide +kernel)
    exact ⟨w, rs, hrun, b, hb, by decide⟩
  | 2 =>
    cases hget
    obtain ⟨w, rs, b, hrun, hb, hP⟩ := @reaches_iff (emptyTailCalls.take 2)
      (fun b => b.chunks.length = 1 ∧ 2 ≤ bufSlack b ∧ b.datalen = 0) (by decide +kernel)
    rw [decide_eq_true_eq] at hP
    refine ⟨w, rs, hrun, b, hb, ?_, hP.2.1, ?_⟩
    · intro hnil
      rw [hnil] at hP
      cases hP.1
    · rw [hP.2.2]
      decide
  | 3 =>
    cases hget
    obtain ⟨w, rs, b, hrun, hb, _⟩ := @reaches_iff (emptyTailCalls.take 3) (fun _ => true) (by decide +kernel)
    exact ⟨w, rs, hrun, b, hb, by decide⟩
  | n + 4 => cases hget

/-- The search for `abc` goes on behind the data. -/
theorem not_findsFirst_emptyTail :
    AllAllowed World.empty emptyTailCalls ∧
      Reaches emptyTailCalls (fun b => fault? (bufFindStringOffset b [97, 98, 99]) = some .read) = true :=
  ⟨allAllowed_emptyTailCalls, by decide +kernel⟩

end TorEbpf.Buffers
