import Mathlib
import TorEbpf.Lib.Events
import TorEbpf.Lib.Keyed

/-!
# Hash tables

The chained hash tables of `ht.h`, which most maps of the program are instances of.  `key` is what the
equality function of an instance compares, and `hash` its hash function; an element keeps its hash when it
is put into the table.  The chains say the `hte_next` of the elements in the table; an element that is not in it
has one all the same, which `HT_REPLACE` relies on.

* `Rep` — **the invariant**, with what `HT_REP_IS_BAD_` checks: `repIsBad_eq_zero`;
* `rep_grown`, `find_spec`, `insert_spec`, `replace_spec`, `remove_spec` — what the operations do to the
  entries, as a table with distinct keys (`Lib.Keyed`);
* `walk_entries` — a loop with `HT_START` and `HT_NEXT` visits each element once;
* `refines_run` — every run of the operations is one of an abstract table;
* `hteNext_of_run` — where no element leaves by `HT_FOREACH_FN` or `HT_CLEAR`, `HT_REPLACE` can rely on it.
-/

namespace TorEbpf.Container.HashTable

open TorEbpf.Lib

variable {α κ : Type*}

/-- An element in the table, with its `hte_hash`. -/
structure Entry (α : Type*) where
  elm : α
  hteHash : UInt32

/-- `HT_HEAD`: the table is `NULL` where it has no buckets. -/
structure Table (α : Type*) where
  table : List (List (Entry α))
  nEntries : ℕ
  loadLimit : ℕ
  primeIdx : ℤ

/-- `HT_INIT`. -/
def Table.init : Table α := ⟨[], 0, 0, -1⟩

def primes : List ℕ :=
  [53, 97, 193, 389, 769, 1543, 3079, 6151, 12289, 24593, 49157, 98317, 196613, 393241, 786433, 1572869,
    3145739, 6291469, 12582917, 25165843, 50331653, 100663319, 201326611, 402653189]

/-- The `load` of an instance: the number of elements that a table of some length is to have. -/
structure Load where
  limit : ℕ → ℕ
  first : 1 < limit 53
  rising : ∀ i < 23, limit (primes.getD i 0) + 1 < limit (primes.getD (i + 1) 0)

/-- The load of all instances but one, `0.6`. -/
def load06 : Load := ⟨fun n => 3 * n / 5, by decide, by decide⟩

/-- The load `0.5`. -/
def load05 : Load := ⟨fun n => n / 2, by decide, by decide⟩

variable (load : Load) (key : α → κ) (hash : κ → UInt32)

/-- The choice of the new length in `HT_GROW`, from the primes that are left; `none` is a read behind
`PRIMES`. -/
def growLoop (size : ℕ) : List ℕ → ℤ → Option (ℤ × ℕ)
  | [], _ => none
  | newLen :: rest, primeIdx =>
      if load.limit newLen ≤ size ∧ primeIdx + 1 < primes.length then growLoop size rest (primeIdx + 1)
      else some (primeIdx + 1, newLen)

def push (table : List (List (Entry α))) (e : Entry α) : List (List (Entry α)) :=
  table.modify (e.hteHash.toNat % table.length) (e :: ·)

/-- `HT_GROW`; the allocation does not fail. -/
def grow (head : Table α) (size : ℕ) : Option (Table α) :=
  if head.primeIdx = primes.length - 1 then some head
  else if head.loadLimit > size then some head
  else
    (growLoop load size (primes.drop (head.primeIdx + 1).toNat) head.primeIdx).map fun r =>
      { head with
        table := head.table.flatten.foldl push (List.replicate r.2 [])
        primeIdx := r.1
        loadLimit := load.limit r.2 }

/-- The bucket of a key, `HT_BUCKET_`. -/
def bucketOf (head : Table α) (k : κ) : ℕ := (hash k).toNat % head.table.length

/-- `HT_FIND`. -/
def find [DecidableEq κ] (head : Table α) (k : κ) : Option α :=
  if head.table = [] then none
  else ((head.table.getD (bucketOf hash head k) []).find? fun e => key e.elm = k).map (·.elm)

/-- The table grows before something is put into it. -/
def growFor (head : Table α) : Option (Table α) :=
  if head.table = [] ∨ head.nEntries ≥ head.loadLimit then grow load head (head.nEntries + 1) else some head

/-- `HT_INSERT`. -/
def insert (head : Table α) (elm : α) : Option (Table α) :=
  (growFor load head).map fun head =>
    { head with
      table := push head.table ⟨elm, hash (key elm)⟩
      nEntries := head.nEntries + 1 }

/-- The chain in which `HT_REPLACE` puts an element: in the place of the one with its key, or at the end. -/
def replaceIn [DecidableEq κ] (e : Entry α) : List (Entry α) → List (Entry α)
  | [] => [e]
  | r :: chain => if key r.elm = key e.elm then e :: chain else r :: replaceIn e chain

/-- `HT_REPLACE`, with what it returns.  Where there is nothing to replace it leaves `hte_next` as it is: `none` is
also a chain that goes on outside of the table. -/
def replace [DecidableEq α] [DecidableEq κ] (hteNext : α → Option α) (head : Table α) (elm : α) :
    Option (Table α × Option α) :=
  (growFor load head).bind fun head =>
    let r := find key hash head (key elm)
    let table := head.table.modify (bucketOf hash head (key elm)) (replaceIn key ⟨elm, hash (key elm)⟩)
    if r.isNone ∧ (hteNext elm).isSome then none
    else if r.any (· ≠ elm) then some ({ head with table := table }, r)
    else some ({ head with table := table, nEntries := head.nEntries + 1 }, none)

/-- `HT_REMOVE`, with what it returns. -/
def remove [DecidableEq κ] (head : Table α) (k : κ) : Table α × Option α :=
  match find key hash head k with
  | none => (head, none)
  | some r =>
      ({ head with
        table := head.table.modify (bucketOf hash head k) fun chain => chain.eraseP fun e => key e.elm = k
        nEntries := head.nEntries - 1 }, some r)

/-- `HT_FOREACH_FN`: the elements for which the function returns nonzero are removed. -/
def foreachFn (fn : α → Bool) (head : Table α) : Table α :=
  { head with
    table := head.table.map fun chain => chain.filter fun e => !fn e.elm
    nEntries := head.nEntries - (head.table.flatten.countP fun e => fn e.elm) }

/-- `HT_REP_IS_BAD_`, up to the bucket that is wrong. -/
def repIsBad (head : Table α) : ℕ :=
  if head.table.length = 0 then
    if head.nEntries = 0 ∧ head.loadLimit = 0 ∧ head.primeIdx = -1 then 0 else 1
  else if head.primeIdx < 0 ∨ head.loadLimit = 0 then 2
  else if head.nEntries > head.loadLimit then 3
  else if head.table.length ≠ primes.getD head.primeIdx.toNat 0 then 4
  else if head.loadLimit ≠ load.limit head.table.length then 5
  else if head.table.flatten.any fun e => e.hteHash ≠ hash (key e.elm) then 1000
  else if head.table.zipIdx.any fun r => r.1.any fun e => e.hteHash.toNat % head.table.length ≠ r.2 then 10000
  else if head.table.flatten.length ≠ head.nEntries then 6
  else 0

/-! ### Walking the table -/

/-- The first element at or after a bucket; an element is its bucket and its place in it. -/
def firstFrom : ℕ → List (List (Entry α)) → Option (ℕ × ℕ)
  | _, [] => none
  | b, chain :: table => if chain ≠ [] then some (b, 0) else firstFrom (b + 1) table

def htStart (head : Table α) : Option (ℕ × ℕ) := firstFrom 0 head.table

def entryAt (head : Table α) (p : ℕ × ℕ) : Option (Entry α) := head.table[p.1]?.bind fun chain => chain[p.2]?

/-- `HT_NEXT`: the next one in the chain, or the first of the buckets after the one of the element. -/
def htNext (head : Table α) (p : ℕ × ℕ) : Option (ℕ × ℕ) :=
  match entryAt head p with
  | none => none
  | some e =>
      if (entryAt head (p.1, p.2 + 1)).isSome then some (p.1, p.2 + 1)
      else
        let b := e.hteHash.toNat % head.table.length + 1
        firstFrom b (head.table.drop b)

/-- A loop with `HT_START` and `HT_NEXT`, of so many rounds at most: the elements it visits. -/
def walk (head : Table α) : ℕ → Option (ℕ × ℕ) → List α
  | 0, _ => []
  | _, none => []
  | n + 1, some p => ((entryAt head p).map (·.elm)).toList ++ walk head n (htNext head p)

/-! ### The invariant -/

def Table.elms (head : Table α) : List α := head.table.flatten.map (·.elm)

/-- Each element is in the bucket of its hash. -/
def Placed (table : List (List (Entry α))) : Prop :=
  ∀ b chain, table[b]? = some chain → ∀ e ∈ chain, e.hteHash = hash (key e.elm) ∧
    e.hteHash.toNat % table.length = b

/-- A table that has buckets has one of the lengths, and the limit for it. -/
def Sized (head : Table α) : Prop :=
  ∃ i : ℕ, head.primeIdx = i ∧ primes[i]? = some head.table.length ∧
    head.loadLimit = load.limit head.table.length

/-- **The invariant.** -/
structure Rep (head : Table α) : Prop where
  shape : head = Table.init ∨ Sized load head
  count : head.nEntries = head.table.flatten.length
  limit : head.nEntries ≤ head.loadLimit ∨ head.primeIdx = primes.length - 1
  placed : Placed key hash head.table
  keyed : Keyed key head.elms

variable {load key hash} {head head' : Table α}

theorem rep_init : Rep load key hash (Table.init : Table α) where
  shape := .inl rfl
  count := rfl
  limit := .inl le_rfl
  placed b chain h := by simp [Table.init] at h
  keyed := List.nodup_nil

/-- A table with a chain in it, and with another chain there. -/
theorem modify_split {β : Type*} {table : List β} {b : ℕ} (hb : b < table.length) :
    ∃ before chain after, table = before ++ chain :: after ∧ before.length = b ∧
      ∀ f : β → β, table.modify b f = before ++ f chain :: after := by
  refine ⟨table.take b, table[b], table.drop (b + 1), ?_, ?_, fun f => ?_⟩
  · rw [← List.drop_eq_getElem_cons hb, List.take_append_drop]
  · rw [List.length_take]
    omega
  · exact List.modify_eq_take_cons_drop hb

@[simp] theorem push_length (table : List (List (Entry α))) (e : Entry α) :
    (push table e).length = table.length := List.length_modify ..

theorem push_perm {table : List (List (Entry α))} (hne : 0 < table.length) (e : Entry α) :
    (push table e).flatten.Perm (e :: table.flatten) := by
  obtain ⟨before, chain, after, htable, -, hmodify⟩ := modify_split (Nat.mod_lt e.hteHash.toNat hne)
  rw [push, hmodify]
  conv_rhs => rw [htable]
  simp only [List.flatten_append, List.flatten_cons, List.cons_append]
  exact List.perm_middle

theorem placed_modify {table : List (List (Entry α))} {b : ℕ} {f : List (Entry α) → List (Entry α)}
    (hp : Placed key hash table)
    (hf : ∀ chain, table[b]? = some chain → ∀ e ∈ f chain, e ∈ chain ∨
      e.hteHash = hash (key e.elm) ∧ e.hteHash.toNat % table.length = b) :
    Placed key hash (table.modify b f) := by
  intro b' chain' h e he
  rw [List.length_modify]
  rw [List.getElem?_modify] at h
  obtain ⟨chain, hchain, rfl⟩ := Option.map_eq_some_iff.mp h
  by_cases hb : b = b'
  · subst hb
    rw [if_pos rfl] at he
    obtain he | he := hf chain hchain e he
    · exact hp b chain hchain e he
    · exact he
  · rw [if_neg hb] at he
    exact hp b' chain hchain e he

theorem placed_push {table : List (List (Entry α))} (hp : Placed key hash table) {e : Entry α}
    (he : e.hteHash = hash (key e.elm)) : Placed key hash (push table e) := by
  refine placed_modify hp fun chain _ e' he' => ?_
  obtain rfl | he' := List.mem_cons.mp he'
  · exact .inr ⟨he, rfl⟩
  · exact .inl he'

theorem rehash_spec : ∀ (l : List (Entry α)) {table : List (List (Entry α))}, 0 < table.length →
    Placed key hash table → (∀ e ∈ l, e.hteHash = hash (key e.elm)) →
    (l.foldl push table).length = table.length ∧ Placed key hash (l.foldl push table) ∧
      (l.foldl push table).flatten.Perm (l ++ table.flatten) := by
  intro l
  induction l with
  | nil =>
    intro table _ hp _
    exact ⟨rfl, hp, List.Perm.refl _⟩
  | cons e l ih =>
    intro table hne hp hl
    have hne' : 0 < (push table e).length := by rwa [push_length]
    obtain ⟨hlength, hplaced, hperm⟩ := ih hne'
      (placed_push hp (hl e List.mem_cons_self)) fun e' he' => hl e' (List.mem_cons_of_mem _ he')
    refine ⟨hlength.trans (push_length _ _), hplaced, hperm.trans ?_⟩
    exact ((push_perm hne e).append_left l).trans List.perm_middle

/-! ### Growing -/

theorem growLoop_spec {size i : ℕ} (hi : i < 24) (hsize : size < load.limit (primes.getD i 0)) :
    growLoop load size (primes.drop i) ((i : ℤ) - 1) = some ((i : ℤ), primes.getD i 0) := by
  have hlength : i < primes.length := hi
  have hget : primes.getD i 0 = primes[i] := by
    rw [List.getD_eq_getElem?_getD, List.getElem?_eq_getElem hlength]
    rfl
  rw [List.drop_eq_getElem_cons hlength, growLoop, ← hget, if_neg (fun h => absurd hsize (not_lt.mpr h.1)),
    Int.sub_add_cancel]

theorem sized_length (h : Sized load head) : 0 < head.table.length := by
  obtain ⟨i, -, hi, -⟩ := h
  have hmem : head.table.length ∈ primes := List.mem_of_getElem? hi
  exact (by decide : ∀ n ∈ primes, 0 < n) _ hmem

theorem rep_grown (h : Rep load key hash head) {i : ℕ} (hi : i < 24)
    (hsize : head.nEntries + 1 < load.limit (primes.getD i 0)) {grown : Table α}
    (hgrown : grown = { head with
      table := head.table.flatten.foldl push (List.replicate (primes.getD i 0) [])
      primeIdx := i
      loadLimit := load.limit (primes.getD i 0) }) :
    Rep load key hash grown ∧ 0 < grown.table.length ∧ grown.nEntries = head.nEntries ∧
      grown.elms.Perm head.elms ∧ grown.nEntries < grown.loadLimit := by
  have hlength : i < primes.length := hi
  have hget : primes[i]? = some (primes.getD i 0) := by
    rw [List.getD_eq_getElem?_getD, List.getElem?_eq_getElem hlength]
    rfl
  have hpos : 0 < (List.replicate (primes.getD i 0) ([] : List (Entry α))).length := by
    rw [List.length_replicate]
    exact (by decide : ∀ n ∈ primes, 0 < n) _ (List.mem_of_getElem? hget)
  have hempty : Placed key hash (List.replicate (primes.getD i 0) ([] : List (Entry α))) := by
    intro b chain hchain e he
    rw [(List.mem_replicate.mp (List.mem_of_getElem? hchain)).2] at he
    cases he
  have hcached : ∀ e ∈ head.table.flatten, e.hteHash = hash (key e.elm) := by
    intro e he
    obtain ⟨chain, hchain, he⟩ := List.mem_flatten.mp he
    obtain ⟨b, hb⟩ := List.getElem?_of_mem hchain
    exact (h.placed b chain hb e he).1
  obtain ⟨hlen, hplaced, hperm⟩ := rehash_spec head.table.flatten hpos hempty hcached
  have hflat : (List.replicate (primes.getD i 0) ([] : List (Entry α))).flatten = [] := by
    simp
  rw [List.length_replicate] at hlen
  rw [hflat, List.append_nil] at hperm
  subst hgrown
  refine ⟨⟨.inr ⟨i, rfl, ?_, ?_⟩, ?_, .inl ?_, hplaced, ?_⟩, ?_, rfl, hperm.map _, ?_⟩
  · rw [hlen]
    exact hget
  · rw [hlen]
  · exact h.count.trans hperm.length_eq.symm
  · exact (Nat.le_succ _).trans hsize.le
  · exact h.keyed.perm (hperm.map _).symm
  · rw [hlen]
    rwa [List.length_replicate] at hpos
  · exact (Nat.lt_succ_self _).trans hsize

/-- **Growing for one more element** never reads behind the primes, and leaves a table with buckets. -/
theorem growFor_spec (h : Rep load key hash head) :
    ∃ grown, growFor load head = some grown ∧ Rep load key hash grown ∧ 0 < grown.table.length ∧
      grown.nEntries = head.nEntries ∧ grown.elms.Perm head.elms ∧
      (grown.nEntries < grown.loadLimit ∨ grown.primeIdx = primes.length - 1) := by
  obtain rfl | hsized := h.shape
  · have hfirst : (0 : ℕ) + 1 < load.limit (primes.getD 0 0) := load.first
    have hloop := growLoop_spec (i := 0) (by decide) hfirst
    have hgrow : growFor load (Table.init : Table α) = some ⟨(List.replicate 53 []), 0, load.limit 53, 0⟩ := by
      have hidx : ¬((Table.init : Table α).primeIdx = primes.length - 1) :=
        (by decide : ¬((-1 : ℤ) = primes.length - 1))
      have hlimit : ¬((Table.init : Table α).loadLimit > (Table.init : Table α).nEntries + 1) :=
        (by decide : ¬(0 > 0 + 1))
      rw [growFor, if_pos (.inl rfl), grow, if_neg hidx, if_neg hlimit]
      show (growLoop load 1 (primes.drop 0) (-1)).map _ = _
      have hloop : growLoop load 1 (primes.drop 0) (-1) = some (0, 53) := hloop
      rw [hloop]
      rfl
    obtain ⟨hrep, hpos, hcount, hperm, hlt⟩ := rep_grown h (by decide) hfirst rfl
    exact ⟨_, hgrow, hrep, hpos, hcount, hperm, .inl hlt⟩
  · have hpos := sized_length hsized
    obtain ⟨i, hidx, hi, hlimit⟩ := hsized
    have hi24 : i < 24 := (List.getElem?_eq_some_iff.mp hi).1
    have hget : primes.getD i 0 = head.table.length := by
      rw [List.getD_eq_getElem?_getD, hi]
      rfl
    by_cases hfull : head.nEntries ≥ head.loadLimit
    · by_cases hlast : i = 23
      · refine ⟨head, ?_, h, hpos, rfl, List.Perm.refl _, .inr (by rw [hidx, hlast]; rfl)⟩
        rw [growFor, if_pos (.inr hfull), grow, if_pos (by rw [hidx, hlast]; rfl)]
      · have hle : head.nEntries ≤ head.loadLimit :=
          h.limit.resolve_right fun hidx' => hlast (Int.ofNat_inj.mp (hidx.symm.trans hidx'))
        have hrising := load.rising i (by omega)
        rw [hget, ← hlimit] at hrising
        have hsize : head.nEntries + 1 < load.limit (primes.getD (i + 1) 0) := by omega
        have hloop := growLoop_spec (by omega) hsize
        rw [Nat.cast_add, Nat.cast_one, add_sub_cancel_right] at hloop
        obtain ⟨hrep, hpos', hcount, hperm, hlt⟩ := rep_grown h (by omega) hsize rfl
        have hidx' : ¬(head.primeIdx = primes.length - 1) :=
          fun hidx' => hlast (Int.ofNat_inj.mp (hidx.symm.trans hidx'))
        refine ⟨_, ?_, hrep, hpos', hcount, hperm, .inl hlt⟩
        rw [growFor, if_pos (.inr hfull), grow, if_neg hidx', if_neg (by omega), hidx]
        show (growLoop load (head.nEntries + 1) (primes.drop ((i : ℤ) + 1).toNat) i).map _ = _
        have hnat : ((i : ℤ) + 1).toNat = i + 1 := by omega
        rw [hnat, hloop]
        rfl
    · refine ⟨head, ?_, h, hpos, rfl, List.Perm.refl _, .inl (not_le.mp hfull)⟩
      rw [growFor, if_neg]
      rintro (hnil | hge)
      · rw [hnil] at hpos
        exact absurd hpos (lt_irrefl _)
      · exact hfull hge

/-! ### The operations -/

section Operations

variable [DecidableEq κ]

omit [DecidableEq κ] in
/-- Where an element is, its hash is the one of its key, and its bucket the one of its hash. -/
theorem placed_elm (h : Rep load key hash head) {a : α} (ha : a ∈ head.elms) :
    ∃ chain e, head.table[bucketOf hash head (key a)]? = some chain ∧ e ∈ chain ∧ e.elm = a := by
  obtain ⟨e, he, rfl⟩ := List.mem_map.mp ha
  obtain ⟨chain, hchain, he⟩ := List.mem_flatten.mp he
  obtain ⟨b, hb⟩ := List.getElem?_of_mem hchain
  obtain ⟨hhash, hbucket⟩ := h.placed b chain hb e he
  rw [hhash] at hbucket
  rw [bucketOf, hbucket]
  exact ⟨chain, e, hb, he, rfl⟩

/-- **`HT_FIND`** finds the element with the key. -/
theorem find_spec (h : Rep load key hash head) (k : κ) : find key hash head k = lookup key k head.elms := by
  ext a
  rw [lookup_eq_some_iff h.keyed, find]
  split
  · rename_i hnil
    simp [Table.elms, hnil]
  · constructor
    · intro hfind
      obtain ⟨e, he, rfl⟩ := Option.map_eq_some_iff.mp hfind
      refine ⟨List.mem_map_of_mem (List.mem_flatten.mpr ⟨_, ?_, List.mem_of_find?_eq_some he⟩),
        by simpa using List.find?_some he⟩
      rw [List.getD_eq_getElem?_getD] at he ⊢
      cases hb : head.table[bucketOf hash head k]? with
      | none =>
        rw [hb] at he
        cases he
      | some chain => exact List.mem_of_getElem? hb
    · rintro ⟨ha, rfl⟩
      obtain ⟨chain, e, hchain, he, rfl⟩ := placed_elm h ha
      rw [List.getD_eq_getElem?_getD, hchain, Option.getD_some]
      obtain ⟨e', he'⟩ := Option.isSome_iff_exists.mp
        (List.find?_isSome (p := fun x => decide (key x.elm = key e.elm)) |>.mpr ⟨e, he, by simp⟩)
      rw [he', Option.map_some]
      -- there is one element with the key
      have hmem : e'.elm ∈ head.elms :=
        List.mem_map_of_mem (List.mem_flatten.mpr ⟨_, List.mem_of_getElem? hchain, List.mem_of_find?_eq_some he'⟩)
      have hkey : key e'.elm = key e.elm := by simpa using List.find?_some he'
      have hlookup := lookup_of_mem h.keyed hmem
      rw [hkey, lookup_of_mem h.keyed ha] at hlookup
      exact hlookup.symm

omit [DecidableEq κ] in
variable (hash) in
theorem bucketOf_lt (hpos : 0 < head.table.length) (k : κ) : bucketOf hash head k < head.table.length :=
  Nat.mod_lt _ hpos

theorem find_split {k : κ} {r : α} (hfind : find key hash head k = some r) :
    ∃ before front e back after, head.table = before ++ (front ++ e :: back) :: after ∧
      e.elm = r ∧ key e.elm = k ∧ (∀ x ∈ front, key x.elm ≠ k) ∧
      ∀ f, head.table.modify (bucketOf hash head k) f = before ++ f (front ++ e :: back) :: after := by
  rw [find] at hfind
  split at hfind
  · cases hfind
  · rename_i hne
    obtain ⟨e, he, rfl⟩ := Option.map_eq_some_iff.mp hfind
    obtain ⟨before, chain, after, htable, hlength, hmodify⟩ :=
      modify_split (bucketOf_lt hash (List.length_pos_of_ne_nil hne) k)
    have hchain : head.table.getD (bucketOf hash head k) [] = chain := by
      conv_lhs => rw [htable]
      rw [List.getD_eq_getElem?_getD, List.getElem?_append_right hlength.le, hlength, Nat.sub_self]
      rfl
    rw [hchain] at he
    obtain ⟨hkey, front, back, rfl, hfront⟩ := List.find?_eq_some_iff_append.mp he
    exact ⟨before, front, e, back, after, htable, rfl, of_decide_eq_true hkey,
      fun x hx => by simpa using hfront x hx, hmodify⟩

theorem elms_split (h : Rep load key hash head) {before after : List (List (Entry α))}
    {front back : List (Entry α)} {e : Entry α} (htable : head.table = before ++ (front ++ e :: back) :: after) :
    ((before ++ (front ++ back) :: after).flatten.map (·.elm)).Perm
      (Lib.remove key (key e.elm) head.elms) := by
  have hperm : head.elms.Perm (e.elm :: (before ++ (front ++ back) :: after).flatten.map (·.elm)) := by
    rw [Table.elms, htable]
    simp only [List.flatten_append, List.flatten_cons, List.map_append, List.map_cons, List.append_assoc,
      List.cons_append]
    rw [← List.append_assoc, ← List.append_assoc _ (front.map _)]
    exact List.perm_middle
  have hmem : e.elm ∈ head.elms := hperm.mem_iff.mpr List.mem_cons_self
  exact (hperm.symm.trans (perm_cons_remove h.keyed hmem)).cons_inv

/-- **`HT_INSERT`**, of an element whose key is not in the table. -/
theorem insert_spec (h : Rep load key hash head) {elm : α} (hnew : find key hash head (key elm) = none) :
    ∃ head', insert load key hash head elm = some head' ∧ Rep load key hash head' ∧
      head'.elms.Perm (elm :: head.elms) := by
  rw [find_spec h] at hnew
  obtain ⟨grown, hgrow, hrep, hpos, hcount, hperm, hlimit⟩ := growFor_spec h
  have hpush := push_perm hpos (⟨elm, hash (key elm)⟩ : Entry α)
  have helms : ((push grown.table ⟨elm, hash (key elm)⟩).flatten.map (·.elm)).Perm (elm :: head.elms) :=
    (hpush.map (Entry.elm)).trans (hperm.cons elm)
  refine ⟨{ grown with
    table := push grown.table ⟨elm, hash (key elm)⟩
    nEntries := grown.nEntries + 1 }, by rw [insert, hgrow]; rfl, ⟨?_, ?_, ?_, ?_, ?_⟩, helms⟩
  · refine .inr ?_
    obtain rfl | ⟨i, hidx, hlen, hlim⟩ := hrep.shape
    · cases hpos
    · exact ⟨i, hidx, by rw [push_length]; exact hlen, by rw [push_length]; exact hlim⟩
  · rw [hpush.length_eq, List.length_cons, ← hrep.count]
  · exact hlimit.imp Nat.succ_le_of_lt id
  · exact placed_push hrep.placed rfl
  · exact (h.keyed.cons hnew).perm helms.symm

omit [DecidableEq κ] in
theorem rep_modify (h : Rep load key hash head) (hpos : 0 < head.table.length) {b n : ℕ}
    {f : List (Entry α) → List (Entry α)} {l : List α}
    (hf : ∀ chain, head.table[b]? = some chain → ∀ e ∈ f chain, e ∈ chain ∨
      e.hteHash = hash (key e.elm) ∧ e.hteHash.toNat % head.table.length = b)
    (hperm : ((head.table.modify b f).flatten.map (·.elm)).Perm l) (hl : Keyed key l) (hn : n = l.length)
    (hlimit : n ≤ head.loadLimit ∨ head.primeIdx = primes.length - 1) :
    Rep load key hash { head with table := head.table.modify b f, nEntries := n } where
  shape := by
    refine .inr ?_
    obtain rfl | ⟨i, hidx, hlen, hlim⟩ := h.shape
    · cases hpos
    · exact ⟨i, hidx, by rw [List.length_modify]; exact hlen, by rw [List.length_modify]; exact hlim⟩
  count := by
    rw [hn, ← hperm.length_eq, List.length_map]
  limit := hlimit
  placed := placed_modify h.placed hf
  keyed := hl.perm hperm.symm

omit [DecidableEq κ] in
theorem entries_eq (h : Rep load key hash head) : head.nEntries = head.elms.length := by
  rw [h.count, Table.elms, List.length_map]

theorem replaceIn_append (e : Entry α) {front back : List (Entry α)} {r : Entry α}
    (hfront : ∀ x ∈ front, key x.elm ≠ key e.elm) (hr : key r.elm = key e.elm) :
    replaceIn key e (front ++ r :: back) = front ++ e :: back := by
  induction front with
  | nil => exact if_pos hr
  | cons x front ih =>
    obtain ⟨hx, hfront⟩ := List.forall_mem_cons.mp hfront
    rw [List.cons_append, replaceIn, if_neg hx, ih hfront]
    rfl

theorem replaceIn_of_forall_ne (e : Entry α) {chain : List (Entry α)}
    (hchain : ∀ x ∈ chain, key x.elm ≠ key e.elm) : replaceIn key e chain = chain ++ [e] := by
  induction chain with
  | nil => rfl
  | cons x chain ih =>
    obtain ⟨hx, hchain⟩ := List.forall_mem_cons.mp hchain
    rw [replaceIn, if_neg hx, ih hchain]
    rfl

theorem mem_replaceIn {e x : Entry α} {chain : List (Entry α)} (hx : x ∈ replaceIn key e chain) :
    x ∈ chain ∨ x = e := by
  induction chain with
  | nil => exact .inr (List.mem_singleton.mp hx)
  | cons r chain ih =>
    have hx : x ∈ if key r.elm = key e.elm then e :: chain else r :: replaceIn key e chain := hx
    split at hx
    · obtain rfl | hx := List.mem_cons.mp hx
      · exact .inr rfl
      · exact .inl (List.mem_cons_of_mem _ hx)
    · obtain rfl | hx := List.mem_cons.mp hx
      · exact .inl List.mem_cons_self
      · exact (ih hx).imp_left (List.mem_cons_of_mem _)

theorem remove_eq_self {k : κ} {l : List α} (hk : lookup key k l = none) : Lib.remove key k l = l := by
  rw [Lib.remove, List.filter_eq_self]
  intro a ha
  rw [decide_eq_true_iff]
  rintro rfl
  exact lookup_eq_none_iff.mp hk (List.mem_map_of_mem ha)

/-- **`HT_REPLACE`**, of an element that is not itself in the table, and is the last one of its chain where there is
nothing to replace. -/
theorem replace_spec [DecidableEq α] (h : Rep load key hash head) {elm : α} (hnew : elm ∉ head.elms)
    {hteNext : α → Option α} (hlast : find key hash head (key elm) = none → hteNext elm = none) :
    ∃ head', replace load key hash hteNext head elm = some (head', lookup key (key elm) head.elms) ∧
      Rep load key hash head' ∧ head'.elms.Perm (elm :: Lib.remove key (key elm) head.elms) := by
  obtain ⟨grown, hgrow, hrep, hpos, hcount, hperm, hlimit⟩ := growFor_spec h
  have hfind := find_spec hrep (key elm)
  rw [find_spec h, ← lookup_perm h.keyed hperm.symm] at hlast
  rw [← lookup_perm h.keyed hperm.symm]
  have hremove : (Lib.remove key (key elm) grown.elms).Perm (Lib.remove key (key elm) head.elms) :=
    hperm.filter _
  have hkeyed : Keyed key (elm :: Lib.remove key (key elm) grown.elms) := by
    refine hrep.keyed.remove.cons ?_
    rw [lookup_remove, if_pos rfl]
  have hplaced : ∀ chain, grown.table[bucketOf hash grown (key elm)]? = some chain →
      ∀ e ∈ replaceIn key ⟨elm, hash (key elm)⟩ chain, e ∈ chain ∨
        e.hteHash = hash (key e.elm) ∧ e.hteHash.toNat % grown.table.length = bucketOf hash grown (key elm) := by
    intro chain _ e he
    refine (mem_replaceIn he).imp_right ?_
    rintro rfl
    exact ⟨rfl, rfl⟩
  cases hr : lookup key (key elm) grown.elms with
  | none =>
    rw [hr] at hfind
    have hsame := remove_eq_self hr
    obtain ⟨before, chain, after, htable, hlength, hmodify⟩ := modify_split (bucketOf_lt hash hpos (key elm))
    have hchain : ∀ x ∈ chain, key x.elm ≠ key elm := by
      intro x hx heq
      refine lookup_eq_none_iff.mp hr (List.mem_map.mpr ⟨x.elm, List.mem_map_of_mem ?_, heq⟩)
      rw [htable]
      exact List.mem_flatten.mpr ⟨chain, by simp, hx⟩
    have helms : ((grown.table.modify (bucketOf hash grown (key elm))
        (replaceIn key ⟨elm, hash (key elm)⟩)).flatten.map (·.elm)).Perm (elm :: grown.elms) := by
      rw [hmodify, replaceIn_of_forall_ne _ hchain, Table.elms, htable]
      simp only [List.flatten_append, List.flatten_cons, List.map_append, List.map_cons, List.append_assoc,
        List.singleton_append]
      rw [← List.append_assoc, ← List.append_assoc (before.flatten.map _) (chain.map _)]
      exact List.perm_middle
    rw [← hsame] at helms
    have hreplace : replace load key hash hteNext head elm = some ({ grown with
        table := grown.table.modify (bucketOf hash grown (key elm)) (replaceIn key ⟨elm, hash (key elm)⟩)
        nEntries := grown.nEntries + 1 }, none) := by
      rw [replace, hgrow, Option.bind_some, hfind]
      dsimp only
      rw [hlast hr, if_neg (by simp), if_neg (by simp)]
    refine ⟨_, hreplace, rep_modify hrep hpos hplaced helms hkeyed ?_ ?_, helms.trans (hremove.cons elm)⟩
    · rw [List.length_cons, hsame, ← entries_eq hrep]
    · exact hlimit.imp Nat.succ_le_of_lt id
  | some r =>
    rw [hr] at hfind
    have hne : r ≠ elm := fun heq => hnew (hperm.mem_iff.mp (heq ▸ mem_of_lookup hr))
    obtain ⟨before, front, e, back, after, htable, rfl, hkey, hfront, hmodify⟩ := find_split hfind
    have helms : ((grown.table.modify (bucketOf hash grown (key elm))
        (replaceIn key ⟨elm, hash (key elm)⟩)).flatten.map (·.elm)).Perm
          (elm :: Lib.remove key (key elm) grown.elms) := by
      have hsplit := elms_split hrep htable
      rw [hkey] at hsplit
      refine List.Perm.trans ?_ (hsplit.cons elm)
      rw [hmodify, replaceIn_append _ hfront hkey]
      simp only [List.flatten_append, List.flatten_cons, List.map_append, List.map_cons, List.append_assoc,
        List.cons_append]
      rw [← List.append_assoc, ← List.append_assoc (before.flatten.map _) (front.map _)]
      exact List.perm_middle
    have hreplace : replace load key hash hteNext head elm = some ({ grown with
        table := grown.table.modify (bucketOf hash grown (key elm))
          (replaceIn key ⟨elm, hash (key elm)⟩) }, some e.elm) := by
      rw [replace, hgrow, Option.bind_some, hfind]
      dsimp only
      rw [if_neg (by simp), if_pos (by simpa using hne)]
    refine ⟨_, hreplace, rep_modify hrep hpos hplaced helms hkeyed ?_ (hlimit.imp_left Nat.le_of_lt),
      helms.trans (hremove.cons elm)⟩
    have hcons := perm_cons_remove hrep.keyed (mem_of_lookup hr)
    rw [hkey] at hcons
    rw [entries_eq hrep, hcons.length_eq, List.length_cons, List.length_cons]

/-- **`HT_REMOVE`.** -/
theorem remove_spec (h : Rep load key hash head) (k : κ) :
    (remove key hash head k).2 = lookup key k head.elms ∧ Rep load key hash (remove key hash head k).1 ∧
      (remove key hash head k).1.elms.Perm (Lib.remove key k head.elms) := by
  have hfind := find_spec h k
  rw [remove]
  cases hr : lookup key k head.elms with
  | none =>
    rw [hr] at hfind
    rw [hfind, remove_eq_self hr]
    exact ⟨rfl, h, List.Perm.refl _⟩
  | some r =>
    rw [hr] at hfind
    rw [hfind]
    obtain ⟨before, front, e, back, after, htable, rfl, rfl, hfront, hmodify⟩ := find_split hfind
    have hpos : 0 < head.table.length := by
      rw [htable]
      simp
    have helms : ((head.table.modify (bucketOf hash head (key e.elm))
        fun chain => chain.eraseP fun e' => key e'.elm = key e.elm).flatten.map (·.elm)).Perm
          (Lib.remove key (key e.elm) head.elms) := by
      rw [hmodify, List.eraseP_append_right _ (by simpa using hfront), List.eraseP_cons_of_pos (by simp)]
      exact elms_split h htable
    have hcons := (perm_cons_remove h.keyed (mem_of_lookup hr)).length_eq
    rw [List.length_cons, ← entries_eq h] at hcons
    refine ⟨rfl, rep_modify h hpos (fun chain _ e' he' => .inl (List.mem_of_mem_eraseP he')) helms
      h.keyed.remove (by omega) ?_, helms⟩
    exact h.limit.imp_left fun hle => (Nat.sub_le _ _).trans hle

end Operations

/-- **`HT_FOREACH_FN`** leaves the elements for which the function returns zero. -/
theorem foreachFn_spec (h : Rep load key hash head) (fn : α → Bool) :
    Rep load key hash (foreachFn fn head) ∧ (foreachFn fn head).elms = head.elms.filter fun a => !fn a := by
  have hflat : (foreachFn fn head).table.flatten = head.table.flatten.filter fun e => !fn e.elm :=
    (List.filter_flatten ..).symm
  have helms : (foreachFn fn head).elms = head.elms.filter fun a => !fn a := by
    rw [Table.elms, hflat, Table.elms, List.filter_map]
    rfl
  have hcount : head.table.flatten.length =
      (head.table.flatten.countP fun e => fn e.elm) + (foreachFn fn head).table.flatten.length := by
    rw [hflat, ← List.countP_eq_length_filter]
    simpa using List.length_eq_countP_add_countP (fun e : Entry α => fn e.elm) (l := head.table.flatten)
  refine ⟨⟨?_, ?_, ?_, fun b chain hchain e he => ?_, ?_⟩, helms⟩
  · obtain rfl | ⟨i, hidx, hlen, hlim⟩ := h.shape
    · exact .inl rfl
    · exact .inr ⟨i, hidx, by rw [foreachFn, List.length_map]; exact hlen,
        by rw [foreachFn, List.length_map]; exact hlim⟩
  · show head.nEntries - (head.table.flatten.countP fun e => fn e.elm) = _
    rw [h.count]
    omega
  · exact h.limit.imp_left fun hle => (Nat.sub_le _ _).trans hle
  · have hchain : (head.table.map fun chain => chain.filter fun e => !fn e.elm)[b]? = some chain := hchain
    rw [List.getElem?_map] at hchain
    obtain ⟨chain', hchain', rfl⟩ := Option.map_eq_some_iff.mp hchain
    rw [foreachFn, List.length_map]
    exact h.placed b chain' hchain' e (List.mem_of_mem_filter he)
  · rw [helms]
    exact h.keyed.sublist (List.filter_sublist.map key)

/-- **`HT_REP_IS_BAD_`** finds nothing, unless a table of the largest length is overfull. -/
theorem repIsBad_eq_zero (h : Rep load key hash head)
    (hlimit : head.primeIdx ≠ -1 → head.nEntries ≤ head.loadLimit) : repIsBad load key hash head = 0 := by
  have hcached : ∀ e ∈ head.table.flatten, e.hteHash = hash (key e.elm) := by
    intro e he
    obtain ⟨chain, hchain, he⟩ := List.mem_flatten.mp he
    obtain ⟨b, hb⟩ := List.getElem?_of_mem hchain
    exact (h.placed b chain hb e he).1
  obtain rfl | hsized := h.shape
  · rfl
  · have hpos := sized_length hsized
    obtain ⟨i, hidx, hlen, hlim⟩ := hsized
    have hi : i < primes.length := (List.getElem?_eq_some_iff.mp hlen).1
    have hprime : head.table.length = primes.getD head.primeIdx.toNat 0 := by
      rw [hidx, Int.toNat_natCast, List.getD_eq_getElem?_getD, hlen]
      rfl
    have hload : 0 < head.loadLimit := by
      have hlimits : ∀ j < 24, 0 < load.limit (primes.getD j 0) := by
        intro j hj
        cases j with
        | zero => exact Nat.zero_lt_of_lt load.first
        | succ j => exact Nat.zero_lt_of_lt (load.rising j (by omega))
      rw [hlim, hprime, hidx, Int.toNat_natCast]
      exact hlimits i hi
    rw [repIsBad, if_neg hpos.ne', if_neg (by rw [hidx]; omega), if_neg (not_lt.mpr (hlimit (by rw [hidx]; omega))),
      if_neg (not_not_intro hprime), if_neg (not_not_intro hlim), if_neg, if_neg, if_neg (not_not_intro h.count.symm)]
    · rw [List.any_eq_true]
      rintro ⟨⟨chain, b⟩, hmem, hany⟩
      obtain ⟨e, he, hne⟩ := List.any_eq_true.mp hany
      have hb := List.mk_mem_zipIdx_iff_getElem?.mp hmem
      exact of_decide_eq_true hne (h.placed b chain hb e he).2
    · rw [List.any_eq_true]
      rintro ⟨e, he, hne⟩
      exact of_decide_eq_true hne (hcached e he)

/-! ### Walking the table -/

/-- What is left of the table from a place on. -/
def rest (head : Table α) : Option (ℕ × ℕ) → List (Entry α)
  | none => []
  | some p => (head.table.getD p.1 []).drop p.2 ++ (head.table.drop (p.1 + 1)).flatten

theorem firstFrom_spec : ∀ (table : List (List (Entry α))) (b : ℕ),
    (firstFrom b table = none ∧ table.flatten = []) ∨
      ∃ j chain, firstFrom b table = some (b + j, 0) ∧ table[j]? = some chain ∧ chain ≠ [] ∧
        table.flatten = chain ++ (table.drop (j + 1)).flatten := by
  intro table
  induction table with
  | nil =>
    intro b
    exact .inl ⟨rfl, rfl⟩
  | cons chain table ih =>
    intro b
    rw [firstFrom]
    by_cases hne : chain ≠ []
    · rw [if_pos hne]
      exact .inr ⟨0, chain, rfl, rfl, hne, rfl⟩
    · rw [if_neg hne]
      rw [not_not] at hne
      subst hne
      obtain ⟨hnone, hflat⟩ | ⟨j, chain, hsome, hchain, hne, hflat⟩ := ih (b + 1)
      · exact .inl ⟨hnone, hflat⟩
      · exact .inr ⟨j + 1, chain, by rw [hsome, Nat.add_assoc, Nat.add_comm 1], hchain, hne, hflat⟩

theorem rest_firstFrom (head : Table α) (b : ℕ) :
    rest head (firstFrom b (head.table.drop b)) = (head.table.drop b).flatten ∧
      ∀ p, firstFrom b (head.table.drop b) = some p → (entryAt head p).isSome := by
  obtain ⟨hnone, hflat⟩ | ⟨j, chain, hsome, hchain, hne, hflat⟩ := firstFrom_spec (head.table.drop b) b
  · rw [hnone, hflat]
    exact ⟨rfl, fun p hp => by cases hp⟩
  · rw [List.getElem?_drop] at hchain
    rw [hsome, hflat]
    refine ⟨?_, fun p hp => ?_⟩
    · show (head.table.getD (b + j) []).drop 0 ++ (head.table.drop (b + j + 1)).flatten = _
      rw [List.getD_eq_getElem?_getD, hchain, List.drop_drop, Nat.add_assoc]
      rfl
    · cases hp
      rw [entryAt, hchain, Option.bind_some, List.getElem?_eq_getElem (List.length_pos_of_ne_nil hne)]
      rfl

/-- **`HT_NEXT`** goes on to the next element. -/
theorem rest_next (h : Rep load key hash head) {p : ℕ × ℕ} {e : Entry α} (he : entryAt head p = some e) :
    rest head (some p) = e :: rest head (htNext head p) ∧
      ∀ p', htNext head p = some p' → (entryAt head p').isSome := by
  obtain ⟨chain, hchain, hget⟩ := Option.bind_eq_some_iff.mp he
  obtain ⟨hlt, hget'⟩ := List.getElem?_eq_some_iff.mp hget
  have hbucket := (h.placed p.1 chain hchain e (List.mem_of_getElem? hget)).2
  have hgetD : head.table.getD p.1 [] = chain := by
    rw [List.getD_eq_getElem?_getD, hchain]
    rfl
  have hrest : rest head (some p) = e :: (chain.drop (p.2 + 1) ++ (head.table.drop (p.1 + 1)).flatten) := by
    show (head.table.getD p.1 []).drop p.2 ++ _ = _
    rw [hgetD, List.drop_eq_getElem_cons hlt, hget']
    rfl
  have hnext : entryAt head (p.1, p.2 + 1) = chain[p.2 + 1]? := by
    rw [entryAt, hchain]
    rfl
  rw [hrest, htNext, he]
  show e :: _ = e :: rest head (if (entryAt head (p.1, p.2 + 1)).isSome then _ else _) ∧ _
  by_cases hsome : (entryAt head (p.1, p.2 + 1)).isSome
  · rw [if_pos hsome]
    refine ⟨congrArg (e :: ·) ?_, fun p' hp' => ?_⟩
    · show _ = (head.table.getD p.1 []).drop (p.2 + 1) ++ _
      rw [hgetD]
    · simp only [if_pos hsome] at hp'
      cases hp'
      exact hsome
  · rw [if_neg hsome]
    have hend : chain.drop (p.2 + 1) = [] := by
      rw [hnext, Option.isSome_iff_ne_none, not_not, List.getElem?_eq_none_iff] at hsome
      exact List.drop_eq_nil_of_le hsome
    obtain ⟨hfirst, hvalid⟩ := rest_firstFrom head (e.hteHash.toNat % head.table.length + 1)
    rw [hbucket] at hfirst hvalid
    rw [hend, hbucket, hfirst]
    refine ⟨rfl, fun p' hp' => ?_⟩
    simp only [if_neg hsome, hbucket] at hp'
    exact hvalid p' hp'

theorem walk_rest (h : Rep load key hash head) : ∀ {n : ℕ} {p : Option (ℕ × ℕ)},
    (∀ p', p = some p' → (entryAt head p').isSome) → (rest head p).length ≤ n →
    walk head n p = (rest head p).map (·.elm) := by
  intro n
  induction n with
  | zero =>
    intro p _ hn
    rw [List.length_eq_zero_iff.mp (Nat.le_zero.mp hn)]
    rfl
  | succ n ih =>
    intro p hvalid hn
    cases p with
    | none => rfl
    | some p =>
      obtain ⟨e, he⟩ := Option.isSome_iff_exists.mp (hvalid p rfl)
      obtain ⟨hrest, hvalid'⟩ := rest_next h he
      rw [hrest, List.length_cons] at hn
      rw [hrest, walk, he, ih hvalid' (Nat.le_of_succ_le_succ hn)]
      rfl

/-- **A loop over a table** visits each element once. -/
theorem walk_entries (h : Rep load key hash head) {n : ℕ} (hn : head.nEntries ≤ n) :
    walk head n (htStart head) = head.elms := by
  obtain ⟨hrest, hvalid⟩ := rest_firstFrom head 0
  rw [List.drop_zero] at hrest hvalid
  rw [htStart, walk_rest h hvalid (by rw [hrest, ← h.count]; exact hn), hrest]
  rfl

/-! ### Runs -/

inductive Op (α κ : Type*) where
  | find (k : κ)
  | insert (elm : α)
  | replace (elm : α)
  | remove (k : κ)
  | foreachFn (fn : α → Bool)
  | clear

/-- A table, and the `hte_next` of the elements that are not in it. -/
structure State (α : Type*) where
  head : Table α
  hteNext : α → Option α

section Runs

variable (load key hash) [DecidableEq α] [DecidableEq κ]

/-- The `hte_next` of an element of a chain. -/
def chainNext (a : α) : List (Entry α) → Option α
  | [] => none
  | e :: chain => if e.elm = a then chain.head?.map (·.elm) else chainNext a chain

/-- The elements of a table, where they leave it with the `hte_next` that they have there. -/
def leave (s : State α) (a : α) : Option α :=
  match s.head.table.find? fun chain => chain.any (·.elm = a) with
  | some chain => chainNext a chain
  | none => s.hteNext a

/-- An element that is taken out of its chain gets no `hte_next`. -/
def takeOut (s : State α) (r : Option α) : α → Option α :=
  match r with
  | some r => Function.update s.hteNext r none
  | none => s.hteNext

/-- An operation of the code, with what it returns; `none` is a read outside an array, or a chain that goes on outside
of the table. -/
def step (s : State α) : Op α κ → Option (State α × Option α)
  | .find k => some (s, find key hash s.head k)
  | .insert elm => (insert load key hash s.head elm).map fun head => (⟨head, s.hteNext⟩, none)
  | .replace elm => (replace load key hash s.hteNext s.head elm).map fun r => (⟨r.1, takeOut s r.2⟩, r.2)
  | .remove k =>
      let r := remove key hash s.head k
      some (⟨r.1, takeOut s r.2⟩, r.2)
  | .foreachFn fn => some (⟨foreachFn fn s.head, leave s⟩, none)
  | .clear => some (⟨Table.init, leave s⟩, none)

/-- What the callers see to: an inserted element has a new key, no element is put in twice, and one that replaces
nothing has no `hte_next`. -/
def Op.Ok (s : State α) : Op α κ → Prop
  | .insert elm => HashTable.find key hash s.head (key elm) = none
  | .replace elm => elm ∉ s.head.elms ∧ (HashTable.find key hash s.head (key elm) = none → s.hteNext elm = none)
  | .find _ => True
  | .remove _ => True
  | .foreachFn _ => True
  | .clear => True

/-- **What a table is for**: the operations on a list of elements that have distinct keys. -/
def specStep (l : List α) : Op α κ → List α × Option α
  | .find k => (l, lookup key k l)
  | .insert elm => (elm :: l, none)
  | .replace elm => (elm :: Lib.remove key (key elm) l, lookup key (key elm) l)
  | .remove k => (Lib.remove key k l, lookup key k l)
  | .foreachFn fn => (l.filter fun a => !fn a, none)
  | .clear => ([], none)

/-- A table stands for a list of elements, in some order. -/
structure Represents (s : State α) (l : List α) : Prop where
  keyed : Keyed key l
  size : s.head.nEntries = l.length
  find : ∀ k, find key hash s.head k = lookup key k l
  walk : (walk s.head s.head.nEntries (htStart s.head)).Perm l
  good : s.head.nEntries ≤ load.limit 402653189 → repIsBad load key hash s.head = 0
  defined : ∀ op : Op α κ, op.Ok key hash s → step load key hash s op ≠ none

variable {load key hash}

/-- **One operation** of the code is the one of the list. -/
theorem step_spec {s : State α} (h : Rep load key hash s.head) {l : List α} (hl : s.head.elms.Perm l) {op : Op α κ}
    (hop : op.Ok key hash s) :
    ∃ s', step load key hash s op = some (s', (specStep key l op).2) ∧ Rep load key hash s'.head ∧
      s'.head.elms.Perm (specStep key l op).1 := by
  have hlookup : ∀ k, lookup key k s.head.elms = lookup key k l := fun k => (lookup_perm h.keyed hl).symm
  cases op with
  | find k =>
    refine ⟨s, ?_, h, hl⟩
    show some (s, find key hash s.head k) = some (s, lookup key k l)
    rw [find_spec h, hlookup]
  | insert elm =>
    obtain ⟨head', heq, hrep, hperm⟩ := insert_spec h hop
    refine ⟨⟨head', s.hteNext⟩, ?_, hrep, hperm.trans (hl.cons elm)⟩
    show (insert load key hash s.head elm).map _ = _
    rw [heq]
    rfl
  | replace elm =>
    obtain ⟨head', heq, hrep, hperm⟩ := replace_spec h hop.1 hop.2
    refine ⟨⟨head', takeOut s (lookup key (key elm) l)⟩, ?_, hrep, hperm.trans ((hl.filter _).cons elm)⟩
    show (replace load key hash s.hteNext s.head elm).map _ = _
    rw [heq, hlookup]
    rfl
  | remove k =>
    obtain ⟨hret, hrep, hperm⟩ := remove_spec h k
    refine ⟨⟨_, takeOut s (remove key hash s.head k).2⟩, ?_, hrep, hperm.trans (hl.filter _)⟩
    show some (_, (remove key hash s.head k).2) = some (_, lookup key k l)
    rw [← hlookup, ← hret]
  | foreachFn fn =>
    obtain ⟨hrep, helms⟩ := foreachFn_spec h fn
    refine ⟨⟨_, leave s⟩, rfl, hrep, ?_⟩
    rw [helms]
    exact hl.filter _
  | clear => exact ⟨⟨Table.init, leave s⟩, rfl, rep_init, List.Perm.refl _⟩

theorem represents_of_rep {s : State α} (h : Rep load key hash s.head) {l : List α} (hl : s.head.elms.Perm l) :
    Represents load key hash s l where
  keyed := h.keyed.perm hl
  size := (entries_eq h).trans hl.length_eq
  find k := by
    rw [find_spec h, lookup_perm h.keyed hl]
  walk := by
    rw [walk_entries h le_rfl]
    exact hl
  good hle := by
    refine repIsBad_eq_zero h fun _ => ?_
    obtain hlimit | hidx := h.limit
    · exact hlimit
    · obtain hinit | ⟨i, hi, hlen, hlim⟩ := h.shape
      · rw [hinit] at hidx
        exact absurd hidx (by decide : ¬((-1 : ℤ) = primes.length - 1))
      · have hi23 : i = 23 := Int.ofNat_inj.mp (hi.symm.trans hidx)
        subst hi23
        have hlen : some 402653189 = some s.head.table.length := hlen
        rw [hlim, ← Option.some.inj hlen]
        exact hle
  defined op hop := by
    obtain ⟨s', heq, -⟩ := step_spec h hl hop
    rw [heq]
    exact Option.some_ne_none _

/-- **Refinement**: every run of the operations, each with what it returned, is one of a list of elements
with distinct keys, which the table stands for. -/
theorem refines_run {hteNext : α → Option α} {es : List (Op α κ × Option α)} {s : State α}
    (hrun : Run (fun s e s' => e.1.Ok key hash s ∧ step load key hash s e.1 = some (s', e.2))
      ⟨Table.init, hteNext⟩ es s) :
    ∃ l, Run (fun l e l' => specStep key l e.1 = (l', e.2)) [] es l ∧ Represents load key hash s l := by
  have hsim : ∃ l, Run (fun l e l' => specStep key l e.1 = (l', e.2)) [] es l ∧
      (Rep load key hash s.head ∧ s.head.elms.Perm l) := by
    refine hrun.simulation (R := fun s l => Rep load key hash s.head ∧ s.head.elms.Perm l) ?_
      ⟨rep_init, List.Perm.refl _⟩
    intro s e s' l hR hstep
    obtain ⟨s₁, heq, hrep, hperm⟩ := step_spec hR.1 hR.2 hstep.1
    rw [hstep.2] at heq
    obtain ⟨hs, hret⟩ := Prod.mk.inj (Option.some.inj heq)
    subst hs
    exact ⟨_, Prod.ext rfl hret.symm, hrep, hperm⟩
  obtain ⟨l, hspec, hrep, hl⟩ := hsim
  exact ⟨l, hspec, represents_of_rep hrep hl⟩

/-- Two keys in one bucket; one of the elements is replaced, and the other one removed and put in again. -/
theorem refines_run_collision : ∃ (s : State (ℕ × ℕ)) (es : List (Op (ℕ × ℕ) ℕ × Option (ℕ × ℕ)))
    (l : List (ℕ × ℕ)), es.map (·.2) = [none, none, some (58, 1), some (5, 0), none] ∧
      Run (fun l e l' => specStep (·.1) l e.1 = (l', e.2)) [] es l ∧
      Represents load06 (·.1) UInt32.ofNat s l := by
  have hrun : Run (fun s (e : Op (ℕ × ℕ) ℕ × Option (ℕ × ℕ)) s' => e.1.Ok (·.1) UInt32.ofNat s ∧
      step load06 (·.1) UInt32.ofNat s e.1 = some (s', e.2)) ⟨Table.init, fun _ => none⟩
      [(.insert (5, 0), none), (.insert (58, 1), none), (.replace (58, 2), some (58, 1)),
        (.remove 5, some (5, 0)), (.replace (5, 0), none)] _ :=
    .cons ⟨rfl, rfl⟩ (.cons ⟨rfl, rfl⟩ (.cons ⟨by unfold Op.Ok; decide, rfl⟩
      (.cons ⟨trivial, rfl⟩ (.cons ⟨by unfold Op.Ok; decide, rfl⟩ (.nil _)))))
  obtain ⟨l, hspec, hl⟩ := refines_run hrun
  exact ⟨_, _, l, rfl, hspec, hl⟩

/-- The element leaves the table with the `hte_next` that it has there. -/
def Op.Leaves : Op α κ → Prop
  | .foreachFn _ => True
  | .clear => True
  | _ => False

/-- **What `HT_REPLACE` relies on** holds of all elements as long as none leaves that way. -/
theorem hteNext_of_run {es : List (Op α κ)} {s s' : State α}
    (hrun : Run (fun s op s' => ¬op.Leaves ∧ ∃ r, step load key hash s op = some (s', r)) s es s')
    (hs : ∀ a, s.hteNext a = none) : ∀ a, s'.hteNext a = none := by
  have htakeOut : ∀ (s : State α) r, (∀ a, s.hteNext a = none) → ∀ a, takeOut s r a = none := by
    intro s r hs a
    cases r with
    | none => exact hs a
    | some r =>
      show Function.update s.hteNext r none a = none
      rw [Function.update_apply, hs, ite_self]
  refine hrun.invariant (I := fun s => ∀ a, s.hteNext a = none) ?_ hs
  rintro s op s' hs ⟨hop, r, hstep⟩
  cases op with
  | find k =>
    cases hstep
    exact hs
  | insert elm =>
    obtain ⟨head, -, heq⟩ := Option.map_eq_some_iff.mp hstep
    cases heq
    exact hs
  | replace elm =>
    obtain ⟨r, -, heq⟩ := Option.map_eq_some_iff.mp hstep
    cases heq
    exact htakeOut s r.2 hs
  | remove k =>
    cases hstep
    exact htakeOut s _ hs
  | foreachFn fn => exact absurd trivial hop
  | clear => exact absurd trivial hop

/-- Two elements of one bucket; after `HT_CLEAR` the second still has the first as its `hte_next`, and `HT_REPLACE`
would bring it into the table. -/
example : (([.insert (5, 0), .insert (58, 1), .clear] : List (Op (ℕ × ℕ) ℕ)).foldlM
    (fun s op => (step load06 (·.1) UInt32.ofNat s op).map (·.1)) ⟨Table.init, fun _ => none⟩).bind
      (fun s => step load06 (·.1) UInt32.ofNat s (.replace (58, 1))) = none := by
  rfl

end Runs

end TorEbpf.Container.HashTable
