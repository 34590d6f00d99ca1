import TorEbpf.Container.HashTable
import TorEbpf.Encoding.Base64RoundTrip
import TorEbpf.Lib.Journal

/-!
# Pinned keys

A directory authority remembers which RSA identity came with which Ed25519 key (`keypin.c`), in two hash
tables and in a journal file that is only appended to, and read when the authority starts.

* `Holds` — the two tables have the same entries, one for each RSA identity and one for each Ed25519 key;
* `addOrReplace_spec`, `checkAndAdd_spec`, `load_spec` — what the operations do to the entries, and that no
  assertion fails;
* `keeps_pins` — over every run with restarts, and with crashes in the middle of a line, the journal has
  what the tables have, and a pair stays until it is replaced.
-/

namespace TorEbpf.Dirauth.Keypin

open TorEbpf.Lib
open TorEbpf.Container
open TorEbpf.Encoding (keep)

/-! ### The tables -/

structure KeypinEnt where
  rsaId : Bytes 20
  ed25519Key : Bytes 32
  deriving DecidableEq

/-- `the_rsa_map` and `the_ed_map`. -/
structure Maps where
  rsaMap : HashTable.Table KeypinEnt
  edMap : HashTable.Table KeypinEnt

def Maps.empty : Maps := ⟨HashTable.Table.init, HashTable.Table.init⟩

variable (hashRsa : Bytes 20 → UInt32) (hashEd : Bytes 32 → UInt32)

/-- `HT_FIND` in `the_rsa_map`. -/
def Maps.findRsa (s : Maps) (rsaId : Bytes 20) : Option KeypinEnt :=
  HashTable.find (·.rsaId) hashRsa s.rsaMap rsaId

/-- `HT_FIND` in `the_ed_map`. -/
def Maps.findEd (s : Maps) (ed25519Key : Bytes 32) : Option KeypinEnt :=
  HashTable.find (·.ed25519Key) hashEd s.edMap ed25519Key

def keypinAddEntryToMap (s : Maps) (ent : KeypinEnt) : Option Maps := do
  let rsaMap ← HashTable.insert HashTable.load06 (·.rsaId) hashRsa s.rsaMap ent
  let edMap ← HashTable.insert HashTable.load06 (·.ed25519Key) hashEd s.edMap ent
  return ⟨rsaMap, edMap⟩

/-- An entry, if there is one, is removed from both tables, with the assertions that it was there. -/
def removeEntry (s : Maps) : Option KeypinEnt → Option Maps
  | none => some s
  | some ent =>
      let (rsaMap, t) := HashTable.remove (·.rsaId) hashRsa s.rsaMap ent.rsaId
      let (edMap, t') := HashTable.remove (·.ed25519Key) hashEd s.edMap ent.ed25519Key
      if t = some ent ∧ t' = some ent then some ⟨rsaMap, edMap⟩ else none

def keypinAddOrReplaceEntryInMap (s : Maps) (ent : KeypinEnt) : Option (Maps × ℤ) :=
  let ent2 := s.findRsa hashRsa ent.rsaId
  let ent3 := s.findEd hashEd ent.ed25519Key
  if ent2.any (·.ed25519Key = ent.ed25519Key) then some (s, 0)
  else do
    let s' ← removeEntry hashRsa hashEd s ent2
    let s' ← removeEntry hashRsa hashEd s' (if ent2 = ent3 then none else ent3)
    let s' ← keypinAddEntryToMap hashRsa hashEd s' ent
    return (s', if ent2.isSome ∨ ent3.isSome then -1 else 1)

/-- `KEYPIN_FOUND` and the others. -/
inductive Status where
  | found
  | added
  | mismatch
  | notFound
  deriving DecidableEq, Repr

/-- The end of `keypin_check_and_add_impl`, with the assertions about what the insertion returns. -/
def addPair (s : Maps) (ent : KeypinEnt) (replace : Bool) : Option (Maps × Status) := do
  let (s', r) ← keypinAddOrReplaceEntryInMap hashRsa hashEd s ent
  if if replace then r ≠ 0 else r = 1 then some (s', .added) else none

/-- `keypin_check_and_add_impl`, up to the journal; `none` is a failed assertion. -/
def keypinCheckAndAddImpl (s : Maps) (ent : KeypinEnt) (doNotAdd replace : Bool) : Option (Maps × Status) :=
  let byRsa := s.findRsa hashRsa ent.rsaId
  let byEd := if replace then none else s.findEd hashEd ent.ed25519Key
  if byRsa.any (·.rsaId ≠ ent.rsaId) then none
  else if byRsa.any (·.ed25519Key = ent.ed25519Key) then some (s, .found)
  else if byRsa.isSome && !replace then some (s, .mismatch)
  else if byEd.isSome then
    if byEd.any (fun t => t.ed25519Key = ent.ed25519Key ∧ t.rsaId ≠ ent.rsaId) then some (s, .mismatch)
    else none
  else if doNotAdd then some (s, .notFound)
  else addPair hashRsa hashEd s ent replace

def keypinCheckLoneRsa (s : Maps) (rsaId : Bytes 20) : Status :=
  if (s.findRsa hashRsa rsaId).isSome then .mismatch else .notFound

/-! ### The journal -/

/-- `digest_to_base64` and `digest256_to_base64`: the text of `base64_encode_nopad`. -/
def digestToBase64 (digest : List UInt8) : List UInt8 := (base64Encode digest).filter keep

/-- The line that `keypin_journal_append_entry` writes, without its newline. -/
def journalLine (ent : KeypinEnt) : List UInt8 :=
  digestToBase64 ent.rsaId.val ++ 0x20 :: digestToBase64 ent.ed25519Key.val

/-- `base64_decode` of an array that must be filled. -/
def decodeArray (n : ℕ) (text : List UInt8) : Option (Bytes n) :=
  match base64Decode n text with
  | some out => if h : out.length = n then some ⟨out, h⟩ else none
  | none => none

def keypinParseJournalLine (cp : List UInt8) : Option KeypinEnt := do
  let rsaId ← decodeArray 20 (cp.take 27)
  if cp[27]? = some 0x20 then
    let ed25519Key ← decodeArray 32 ((cp.drop 28).take 43)
    some ⟨rsaId, ed25519Key⟩
  else none

/-- What a line of the journal adds: nothing where it is empty, reserved, a comment or corrupt. -/
def lineEntry (line : List UInt8) : Option KeypinEnt :=
  if line = [] ∨ line.head? = some 0x40 ∨ line.head? = some 0x23 then none
  else if line.length ≠ 71 then none
  else keypinParseJournalLine line

def handleLine (s : Maps) (line : List UInt8) : Option Maps :=
  match lineEntry line with
  | some ent => (keypinAddOrReplaceEntryInMap hashRsa hashEd s ent).map (·.1)
  | none => some s

/-- `keypin_load_journal_impl`, into empty tables. -/
def keypinLoadJournalImpl (data : List UInt8) : Option Maps :=
  scanLines 0x0a (fun s line => s.bind (handleLine hashRsa hashEd · line)) (some Maps.empty) data

/-- `keypin_load_journal`, of a file that is perhaps not there; `none` is a failure, also of an assertion.
`tor_mmap_file` does not take a file that is empty. -/
def keypinLoadJournal : Option (List UInt8) → Option Maps
  | none => some Maps.empty
  | some [] => none
  | some data => keypinLoadJournalImpl hashRsa hashEd data

/-! ### The authority -/

/-- The tables, and the content of the journal file, which is open. -/
structure State where
  maps : Maps
  journal : List UInt8

/-- `"@opened-at "`, which `keypin_open_journal` writes before the time. -/
def openedAtText : List UInt8 := [0x40, 0x6f, 0x70, 0x65, 0x6e, 0x65, 0x64, 0x2d, 0x61, 0x74, 0x20]

/-- What `keypin_open_journal` adds to the journal at a time. -/
def opening (time : List UInt8) : List UInt8 := 0x0a :: (openedAtText ++ time ++ [0x0a])

/-- The start of an authority: `keypin_load_journal`, and `keypin_open_journal` at a time. -/
def start (journal : Option (List UInt8)) (time : List UInt8) : Option State :=
  (keypinLoadJournal hashRsa hashEd journal).map fun maps => ⟨maps, journal.getD [] ++ opening time⟩

/-- What can happen: a pair is checked, or checked and added; the authority starts again; or it crashes when
a part of what it adds to the journal is written, for a new pair or when it starts, and starts again. -/
inductive Event where
  | check (ent : KeypinEnt)
  | checkAndAdd (ent : KeypinEnt) (replace : Bool)
  | restart (time : List UInt8)
  | crash (ent : KeypinEnt) (replace : Bool) (written : ℕ) (time : List UInt8)
  | crashAtStart (opened : List UInt8) (written : ℕ) (time : List UInt8)

def step (s : State) : Event → Option (State × Option Status)
  | .check ent =>
      (keypinCheckAndAddImpl hashRsa hashEd s.maps ent true false).map fun r => (⟨r.1, s.journal⟩, r.2)
  | .checkAndAdd ent replace =>
      (keypinCheckAndAddImpl hashRsa hashEd s.maps ent false replace).map fun r =>
        (⟨r.1, if r.2 = .added then s.journal ++ (journalLine ent ++ [0x0a]) else s.journal⟩, r.2)
  | .restart time => (start hashRsa hashEd (some s.journal) time).map fun s => (s, none)
  | .crash ent replace written time => do
      let r ← keypinCheckAndAddImpl hashRsa hashEd s.maps ent false replace
      let journal :=
        if r.2 = .added then s.journal ++ (journalLine ent ++ [0x0a]).take written else s.journal
      (start hashRsa hashEd (some journal) time).map fun s => (s, none)
  | .crashAtStart opened written time =>
      (start hashRsa hashEd (some (s.journal ++ (opening opened).take written)) time).map fun s => (s, none)

def run (st : State) (events : List Event) : Option State :=
  events.foldlM (fun st e => (step hashRsa hashEd st e).map (·.1)) st

def keypinCheck (st : State) (ent : KeypinEnt) : Option Status :=
  (keypinCheckAndAddImpl hashRsa hashEd st.maps ent true false).map (·.2)

/-! ### The entries -/

/-- **What the tables are for**: entries, of which no two have the same RSA identity or the same key. -/
structure Holds (s : Maps) (l : List KeypinEnt) : Prop where
  rsa : HashTable.Rep HashTable.load06 (·.rsaId) hashRsa s.rsaMap
  ed : HashTable.Rep HashTable.load06 (·.ed25519Key) hashEd s.edMap
  rsaPerm : s.rsaMap.elms.Perm l
  edPerm : s.edMap.elms.Perm l

/-- Tables with some entries, and no assertion failed. -/
def Loaded (s : Option Maps) (l : List KeypinEnt) : Prop := ∃ s', s = some s' ∧ Holds hashRsa hashEd s' l

/-- A new entry, instead of those that contradict it. -/
def supersede (l : List KeypinEnt) (ent : KeypinEnt) : List KeypinEnt :=
  if ent ∈ l then l
  else ent :: Lib.remove (·.ed25519Key) ent.ed25519Key (Lib.remove (·.rsaId) ent.rsaId l)

/-- The entries of a journal; a line counts more than the ones before it. -/
def pinsOf (journal : List UInt8) : List KeypinEnt :=
  scanLines 0x0a (fun l line => ((lineEntry line).map (supersede l)).getD l) [] journal

/-- What holds of an authority: the journal ends with a line, and has what the tables have. -/
structure Good (st : State) : Prop where
  holds : Holds hashRsa hashEd st.maps (pinsOf st.journal)
  line : ∃ text, st.journal = text ++ [0x0a]

variable {hashRsa hashEd} {s s' : Maps} {l l' : List KeypinEnt}

theorem holds_empty : Holds hashRsa hashEd Maps.empty [] :=
  ⟨HashTable.rep_init, HashTable.rep_init, List.Perm.refl _, List.Perm.refl _⟩

theorem Holds.keyedRsa (h : Holds hashRsa hashEd s l) : Keyed (·.rsaId) l := h.rsa.keyed.perm h.rsaPerm

theorem Holds.keyedEd (h : Holds hashRsa hashEd s l) : Keyed (·.ed25519Key) l := h.ed.keyed.perm h.edPerm

theorem Holds.perm (h : Holds hashRsa hashEd s l) (hl : l.Perm l') : Holds hashRsa hashEd s l' :=
  ⟨h.rsa, h.ed, h.rsaPerm.trans hl, h.edPerm.trans hl⟩

theorem findRsa_spec (h : Holds hashRsa hashEd s l) (rsaId : Bytes 20) :
    s.findRsa hashRsa rsaId = lookup (·.rsaId) rsaId l := by
  rw [Maps.findRsa, HashTable.find_spec h.rsa, lookup_perm h.rsa.keyed h.rsaPerm]

theorem findEd_spec (h : Holds hashRsa hashEd s l) (ed25519Key : Bytes 32) :
    s.findEd hashEd ed25519Key = lookup (·.ed25519Key) ed25519Key l := by
  rw [Maps.findEd, HashTable.find_spec h.ed, lookup_perm h.ed.keyed h.edPerm]

theorem remove_both (h : Holds hashRsa hashEd s l) {ent : KeypinEnt} (hent : ent ∈ l) :
    (Lib.remove (·.rsaId) ent.rsaId l).Perm (Lib.remove (·.ed25519Key) ent.ed25519Key l) :=
  ((perm_cons_remove h.keyedRsa hent).symm.trans (perm_cons_remove h.keyedEd hent)).cons_inv

theorem removeEntry_spec (h : Holds hashRsa hashEd s l) {ent : KeypinEnt} (hent : ent ∈ l) :
    ∃ s', removeEntry hashRsa hashEd s (some ent) = some s' ∧
      Holds hashRsa hashEd s' (Lib.remove (·.rsaId) ent.rsaId l) := by
  obtain ⟨hret, hrep, hperm⟩ := HashTable.remove_spec h.rsa ent.rsaId
  obtain ⟨hret', hrep', hperm'⟩ := HashTable.remove_spec h.ed ent.ed25519Key
  rw [lookup_perm h.keyedRsa h.rsaPerm.symm, lookup_of_mem h.keyedRsa hent] at hret
  rw [lookup_perm h.keyedEd h.edPerm.symm, lookup_of_mem h.keyedEd hent] at hret'
  refine ⟨_, if_pos ⟨hret, hret'⟩, hrep, hrep', hperm.trans (h.rsaPerm.filter _), ?_⟩
  exact (hperm'.trans (h.edPerm.filter _)).trans (remove_both h hent).symm

theorem removeByRsa_spec (h : Holds hashRsa hashEd s l) (rsaId : Bytes 20) :
    ∃ s', removeEntry hashRsa hashEd s (lookup (·.rsaId) rsaId l) = some s' ∧
      Holds hashRsa hashEd s' (Lib.remove (·.rsaId) rsaId l) := by
  cases hrsa : lookup (·.rsaId) rsaId l with
  | none =>
    rw [HashTable.remove_eq_self hrsa]
    exact ⟨s, rfl, h⟩
  | some ent =>
    have hkey : ent.rsaId = rsaId := key_of_lookup hrsa
    rw [← hkey]
    exact removeEntry_spec h (mem_of_lookup hrsa)

theorem removeByEd_spec (h : Holds hashRsa hashEd s l) (ed25519Key : Bytes 32) :
    ∃ s', removeEntry hashRsa hashEd s (lookup (·.ed25519Key) ed25519Key l) = some s' ∧
      Holds hashRsa hashEd s' (Lib.remove (·.ed25519Key) ed25519Key l) := by
  cases hed : lookup (·.ed25519Key) ed25519Key l with
  | none =>
    rw [HashTable.remove_eq_self hed]
    exact ⟨s, rfl, h⟩
  | some ent =>
    have hkey : ent.ed25519Key = ed25519Key := key_of_lookup hed
    obtain ⟨s', hs', h'⟩ := removeEntry_spec h (mem_of_lookup hed)
    exact ⟨s', hs', hkey ▸ h'.perm (remove_both h (mem_of_lookup hed))⟩

theorem addEntry_spec (h : Holds hashRsa hashEd s l) {ent : KeypinEnt}
    (hrsa : lookup (·.rsaId) ent.rsaId l = none) (hed : lookup (·.ed25519Key) ent.ed25519Key l = none) :
    ∃ s', keypinAddEntryToMap hashRsa hashEd s ent = some s' ∧ Holds hashRsa hashEd s' (ent :: l) := by
  obtain ⟨rsaMap, heq, hrep, hperm⟩ :=
    HashTable.insert_spec h.rsa ((findRsa_spec h ent.rsaId).trans hrsa)
  obtain ⟨edMap, heq', hrep', hperm'⟩ :=
    HashTable.insert_spec h.ed ((findEd_spec h ent.ed25519Key).trans hed)
  refine ⟨⟨rsaMap, edMap⟩, ?_, hrep, hrep', hperm.trans (h.rsaPerm.cons ent), hperm'.trans (h.edPerm.cons ent)⟩
  rw [keypinAddEntryToMap, heq, heq']
  rfl

theorem ent_ext {ent ent' : KeypinEnt} (hrsa : ent.rsaId = ent'.rsaId)
    (hed : ent.ed25519Key = ent'.ed25519Key) : ent = ent' := by
  cases ent
  cases ent'
  rw [KeypinEnt.mk.injEq]
  exact ⟨hrsa, hed⟩

/-- A pair is there when the entry of its RSA identity has its key. -/
theorem any_rsaId_ne (l : List KeypinEnt) (rsaId : Bytes 20) :
    ¬(lookup (·.rsaId) rsaId l).any (·.rsaId ≠ rsaId) = true := by
  cases hlookup : lookup (·.rsaId) rsaId l with
  | none => simp
  | some ent =>
    have hkey : ent.rsaId = rsaId := key_of_lookup hlookup
    simp [hkey]

theorem any_found_iff (h : Keyed (·.rsaId) l) (ent : KeypinEnt) :
    (lookup (·.rsaId) ent.rsaId l).any (·.ed25519Key = ent.ed25519Key) = true ↔ ent ∈ l := by
  constructor
  · intro hany
    cases hlookup : lookup (·.rsaId) ent.rsaId l with
    | none =>
      rw [hlookup] at hany
      cases hany
    | some ent' =>
      rw [hlookup] at hany
      have heq : ent' = ent := ent_ext (key_of_lookup hlookup) (of_decide_eq_true hany)
      rw [← heq]
      exact mem_of_lookup hlookup
  · intro hmem
    rw [lookup_of_mem h hmem]
    exact decide_eq_true rfl

/-- Where the pair is not there, the entry with its key, if it is another one than that with its RSA
identity, is still there when that one is gone. -/
theorem lookup_other (h : Holds hashRsa hashEd s l) {ent : KeypinEnt} (hmem : ent ∉ l) :
    (if lookup (·.rsaId) ent.rsaId l = lookup (·.ed25519Key) ent.ed25519Key l then none
      else lookup (·.ed25519Key) ent.ed25519Key l) =
      lookup (·.ed25519Key) ent.ed25519Key (Lib.remove (·.rsaId) ent.rsaId l) := by
  rw [Lib.remove, lookup_filter h.keyedEd]
  cases hed : lookup (·.ed25519Key) ent.ed25519Key l with
  | none => exact ite_self none
  | some ent3 =>
    have hkey : ent3.ed25519Key = ent.ed25519Key := key_of_lookup hed
    have hne : ent3.rsaId ≠ ent.rsaId := fun hrsa => hmem (ent_ext hrsa hkey ▸ mem_of_lookup hed)
    have hother : lookup (·.rsaId) ent.rsaId l ≠ some ent3 := fun hrsa => hne (key_of_lookup hrsa)
    rw [if_neg hother, Option.filter_some, if_pos (decide_eq_true hne)]

/-- **`keypin_add_or_replace_entry_in_map`**: the entry supersedes what contradicts it; the result says
whether there was anything. -/
theorem addOrReplace_spec (h : Holds hashRsa hashEd s l) (ent : KeypinEnt) :
    ∃ s' r, keypinAddOrReplaceEntryInMap hashRsa hashEd s ent = some (s', r) ∧
      Holds hashRsa hashEd s' (supersede l ent) ∧ (r = 0 ↔ ent ∈ l) ∧
      (lookup (·.rsaId) ent.rsaId l = none → lookup (·.ed25519Key) ent.ed25519Key l = none → r = 1) := by
  have hfound := any_found_iff h.keyedRsa ent
  rw [keypinAddOrReplaceEntryInMap]
  simp only [findRsa_spec h, findEd_spec h]
  by_cases hmem : ent ∈ l
  · rw [if_pos (hfound.mpr hmem), supersede, if_pos hmem]
    refine ⟨s, 0, rfl, h, iff_of_true rfl hmem, fun hnone => ?_⟩
    rw [lookup_of_mem h.keyedRsa hmem] at hnone
    cases hnone
  · rw [if_neg fun hany => hmem (hfound.mp hany), supersede, if_neg hmem]
    -- the entry with the same RSA identity is removed, and then the one with the same key
    obtain ⟨s₁, hs₁, h₁⟩ := removeByRsa_spec h ent.rsaId
    have hother : (if lookup (·.rsaId) ent.rsaId l = lookup (·.ed25519Key) ent.ed25519Key l then none
        else lookup (·.ed25519Key) ent.ed25519Key l) =
        lookup (·.ed25519Key) ent.ed25519Key (Lib.remove (·.rsaId) ent.rsaId l) :=
      lookup_other h hmem
    obtain ⟨s₂, hs₂, h₂⟩ := removeByEd_spec h₁ ent.ed25519Key
    have hrsaNone : lookup (·.rsaId) ent.rsaId
        (Lib.remove (·.ed25519Key) ent.ed25519Key (Lib.remove (·.rsaId) ent.rsaId l)) = none := by
      have hnone : lookup (·.rsaId) ent.rsaId (Lib.remove (·.rsaId) ent.rsaId l) = none := by
        rw [lookup_remove, if_pos rfl]
      rw [Lib.remove, lookup_filter h₁.keyedRsa, hnone]
      rfl
    have hedNone : lookup (·.ed25519Key) ent.ed25519Key
        (Lib.remove (·.ed25519Key) ent.ed25519Key (Lib.remove (·.rsaId) ent.rsaId l)) = none := by
      rw [lookup_remove, if_pos rfl]
    obtain ⟨s₃, hs₃, h₃⟩ := addEntry_spec h₂ hrsaNone hedNone
    refine ⟨s₃, if (lookup (·.rsaId) ent.rsaId l).isSome ∨ (lookup (·.ed25519Key) ent.ed25519Key l).isSome
      then -1 else 1, ?_, h₃, ?_, ?_⟩
    · rw [hother, hs₁, Option.bind_eq_bind, Option.bind_some, hs₂]
      simp only [Option.bind_some]
      rw [hs₃]
      rfl
    · refine iff_of_false ?_ hmem
      split <;> decide
    · intro hrsa hed
      rw [hrsa, hed]
      rfl

def statusOf (l : List KeypinEnt) (ent : KeypinEnt) : Status :=
  if ent ∈ l then .found
  else if (lookup (·.rsaId) ent.rsaId l).isSome ∨ (lookup (·.ed25519Key) ent.ed25519Key l).isSome then .mismatch
  else .notFound

theorem supersede_of_notFound {ent : KeypinEnt} (h : statusOf l ent = .notFound) :
    ent ∉ l ∧ lookup (·.rsaId) ent.rsaId l = none ∧ lookup (·.ed25519Key) ent.ed25519Key l = none ∧
      supersede l ent = ent :: l := by
  rw [statusOf] at h
  split_ifs at h with hmem hknown
  obtain ⟨hrsa, hed⟩ := not_or.mp hknown
  have hrsa' := Option.not_isSome_iff_eq_none.mp hrsa
  have hed' := Option.not_isSome_iff_eq_none.mp hed
  refine ⟨hmem, hrsa', hed', ?_⟩
  rw [supersede, if_neg hmem, HashTable.remove_eq_self hrsa', HashTable.remove_eq_self hed']

/-- Up to the addition, `keypin_check_and_add_impl` says of a pair what the entries say. -/
theorem impl_spec (h : Holds hashRsa hashEd s l) (ent : KeypinEnt) (doNotAdd : Bool) :
    keypinCheckAndAddImpl hashRsa hashEd s ent doNotAdd false =
      if statusOf l ent = .notFound then
        if doNotAdd then some (s, .notFound) else addPair hashRsa hashEd s ent false
      else some (s, statusOf l ent) := by
  have hfound := any_found_iff h.keyedRsa ent
  rw [keypinCheckAndAddImpl, statusOf]
  simp only [findRsa_spec h, findEd_spec h, Bool.not_false, Bool.and_true, Bool.false_eq_true, if_false]
  rw [if_neg (any_rsaId_ne l ent.rsaId)]
  by_cases hmem : ent ∈ l
  · rw [if_pos (hfound.mpr hmem), if_pos hmem]
    rfl
  rw [if_neg fun hany => hmem (hfound.mp hany), if_neg hmem]
  by_cases hrsa : (lookup (·.rsaId) ent.rsaId l).isSome
  · rw [if_pos hrsa, if_pos (Or.inl hrsa)]
    rfl
  rw [if_neg hrsa]
  by_cases hed : (lookup (·.ed25519Key) ent.ed25519Key l).isSome
  · rw [if_pos hed, if_pos (Or.inr hed)]
    obtain ⟨byEd, hbyEd⟩ := Option.isSome_iff_exists.mp hed
    have hkey : byEd.ed25519Key = ent.ed25519Key := key_of_lookup hbyEd
    have hne : byEd.rsaId ≠ ent.rsaId := fun heq => hmem (ent_ext heq hkey ▸ mem_of_lookup hbyEd)
    rw [hbyEd]
    exact if_pos (decide_eq_true ⟨hkey, hne⟩)
  · rw [if_neg hed, if_neg (not_or.mpr ⟨hrsa, hed⟩)]
    rfl

/-- `keypin_check` says of a pair what the entries say. -/
theorem check_spec (h : Holds hashRsa hashEd s l) (ent : KeypinEnt) :
    keypinCheckAndAddImpl hashRsa hashEd s ent true false = some (s, statusOf l ent) := by
  rw [impl_spec h]
  by_cases hnew : statusOf l ent = .notFound
  · rw [if_pos hnew, hnew]
    rfl
  · rw [if_neg hnew]

/-- A pair that is not there is added, and the assertion about the result holds. -/
theorem addPair_spec (h : Holds hashRsa hashEd s l) (ent : KeypinEnt) (replace : Bool)
    (hnew : if replace then ent ∉ l else statusOf l ent = .notFound) :
    ∃ s', addPair hashRsa hashEd s ent replace = some (s', .added) ∧
      Holds hashRsa hashEd s' (supersede l ent) := by
  obtain ⟨s', r, heq, h', hzero, hone⟩ := addOrReplace_spec h ent
  have hr : if replace then r ≠ 0 else r = 1 := by
    cases replace with
    | true => exact fun hr => hnew (hzero.mp hr)
    | false =>
      obtain ⟨-, hrsa, hed, -⟩ := supersede_of_notFound hnew
      exact hone hrsa hed
  refine ⟨s', ?_, h'⟩
  rw [addPair, heq]
  exact if_pos hr

/-- **`keypin_check_and_add`** adds the pair when it is new, or when it may replace others; no assertion
fails. -/
theorem checkAndAdd_spec (h : Holds hashRsa hashEd s l) (ent : KeypinEnt) (replace : Bool) :
    ∃ s' status, keypinCheckAndAddImpl hashRsa hashEd s ent false replace = some (s', status) ∧
      Holds hashRsa hashEd s' (if status = .added then supersede l ent else l) ∧
      (status = .added → if replace then ent ∉ l else statusOf l ent = .notFound) := by
  cases replace with
  | false =>
    rw [impl_spec h]
    by_cases hnew : statusOf l ent = .notFound
    · obtain ⟨s', heq, h'⟩ := addPair_spec h ent false hnew
      exact ⟨s', .added, by rw [if_pos hnew]; exact heq, h', fun _ => hnew⟩
    · have hne : statusOf l ent ≠ .added := by
        rw [statusOf]
        split_ifs <;> decide
      refine ⟨s, statusOf l ent, if_neg hnew, ?_, fun hadded => absurd hadded hne⟩
      rw [if_neg hne]
      exact h
  | true =>
    have hfound := any_found_iff h.keyedRsa ent
    rw [keypinCheckAndAddImpl]
    simp only [findRsa_spec h, Bool.not_true, Bool.and_false, if_true]
    rw [if_neg (any_rsaId_ne l ent.rsaId)]
    by_cases hmem : ent ∈ l
    · exact ⟨s, .found, if_pos (hfound.mpr hmem), h, fun hadded => by cases hadded⟩
    · obtain ⟨s', heq, h'⟩ := addPair_spec h ent true hmem
      exact ⟨s', .added, by rw [if_neg fun hany => hmem (hfound.mp hany)]; exact heq, h', fun _ => hmem⟩

/-! ### Lines -/

theorem pinsOf_append (text rest : List UInt8) : pinsOf (text ++ 0x0a :: rest) =
    scanLines 0x0a (fun l line => ((lineEntry line).map (supersede l)).getD l) (pinsOf text) rest :=
  scanLines_append (fun _ => rfl) text rest []

theorem loaded_handleLine {s : Option Maps} (line : List UInt8) (h : Loaded hashRsa hashEd s l) :
    Loaded hashRsa hashEd (s.bind (handleLine hashRsa hashEd · line))
      (((lineEntry line).map (supersede l)).getD l) := by
  obtain ⟨s', rfl, h'⟩ := h
  rw [Option.bind_some]
  cases hline : lineEntry line with
  | none => exact ⟨s', by rw [handleLine, hline], h'⟩
  | some ent =>
    obtain ⟨s'', r, heq, h'', -⟩ := addOrReplace_spec h' ent
    refine ⟨s'', ?_, h''⟩
    rw [handleLine, hline]
    exact congrArg (Option.map (·.1)) heq

variable (hashRsa hashEd) in
/-- **A journal is loaded**, whatever it is: the last pairs count. -/
theorem load_spec (journal : List UInt8) :
    Loaded hashRsa hashEd (keypinLoadJournalImpl hashRsa hashEd journal) (pinsOf journal) := by
  rw [keypinLoadJournalImpl, pinsOf]
  exact scanLines_related (fun _ _ line h => loaded_handleLine line h) journal ⟨Maps.empty, rfl, holds_empty⟩

theorem base64EncodeTable_plain : ∀ v < 64, keep (base64EncodeTable v) = true ∧
    base64EncodeTable v ≠ 0x40 ∧ base64EncodeTable v ≠ 0x23 := by
  decide +kernel

/-- The text of a digest has the characters of base 64 only, six bits each. -/
theorem digestToBase64_spec (digest : List UInt8) :
    (∀ c ∈ digestToBase64 digest, ∃ v < 64, base64EncodeTable v = c) ∧
      (digestToBase64 digest).length = (digest.length * 4 + 2) / 3 := by
  have hkeep : ∀ {v : ℕ} (l : List UInt8), v < 64 →
      (base64EncodeTable v :: l).filter keep = base64EncodeTable v :: l.filter keep := fun l hv =>
    List.filter_cons_of_pos (base64EncodeTable_plain _ hv).1
  rw [digestToBase64]
  induction digest using base64Encode.induct with
  | case1 => exact ⟨by simp [base64Encode], rfl⟩
  | case2 a =>
    have ha := a.toNat_lt
    have hpads : [(61 : UInt8), 61].filter keep = [] := by decide
    rw [base64Encode, hkeep _ (by omega), hkeep _ (by omega), hpads]
    refine ⟨?_, by simp⟩
    intro c hc
    rcases List.mem_cons.mp hc with rfl | hc
    · exact ⟨_, by omega, rfl⟩
    rcases List.mem_cons.mp hc with rfl | hc
    · exact ⟨_, by omega, rfl⟩
    · cases hc
  | case3 a b =>
    have ha := a.toNat_lt
    have hb := b.toNat_lt
    have hpad : [(61 : UInt8)].filter keep = [] := by decide
    rw [base64Encode, hkeep _ (by omega), hkeep _ (by omega), hkeep _ (by omega), hpad]
    refine ⟨?_, by simp⟩
    intro c hc
    rcases List.mem_cons.mp hc with rfl | hc
    · exact ⟨_, by omega, rfl⟩
    rcases List.mem_cons.mp hc with rfl | hc
    · exact ⟨_, by omega, rfl⟩
    rcases List.mem_cons.mp hc with rfl | hc
    · exact ⟨_, by omega, rfl⟩
    · cases hc
  | case4 a b c rest ih =>
    have ha := a.toNat_lt
    have hb := b.toNat_lt
    have hc := c.toNat_lt
    rw [base64Encode, hkeep _ (by omega), hkeep _ (by omega), hkeep _ (by omega), hkeep _ (by omega)]
    constructor
    · intro d hd
      rcases List.mem_cons.mp hd with rfl | hd
      · exact ⟨_, by omega, rfl⟩
      rcases List.mem_cons.mp hd with rfl | hd
      · exact ⟨_, by omega, rfl⟩
      rcases List.mem_cons.mp hd with rfl | hd
      · exact ⟨_, by omega, rfl⟩
      rcases List.mem_cons.mp hd with rfl | hd
      · exact ⟨_, by omega, rfl⟩
      · exact ih.1 d hd
    · simp only [List.length_cons, ih.2]
      omega

theorem mem_digestToBase64 {digest : List UInt8} {c : UInt8} (h : c ∈ digestToBase64 digest) :
    c ≠ 0x0a ∧ c ≠ 0x40 ∧ c ≠ 0x23 := by
  obtain ⟨v, hv, rfl⟩ := (digestToBase64_spec digest).1 c h
  exact ⟨(Encoding.base64Table_spec v hv).2.2.1, (base64EncodeTable_plain v hv).2⟩

theorem decodeArray_digestToBase64 {n : ℕ} (digest : Bytes n) :
    decodeArray n (digestToBase64 digest.val) = some digest := by
  obtain ⟨body, hbody, -, -, hread⟩ := Encoding.filter_keep_base64 digest.val
  rw [digestToBase64, hbody, decodeArray, hread n digest.length_eq.le]
  exact dif_pos digest.length_eq

theorem length_digestToBase64 {n : ℕ} (digest : Bytes n) :
    (digestToBase64 digest.val).length = (n * 4 + 2) / 3 := by
  rw [(digestToBase64_spec digest.val).2, digest.length_eq]

theorem length_journalLine (ent : KeypinEnt) : (journalLine ent).length = 71 := by
  rw [journalLine, List.length_append, List.length_cons, length_digestToBase64, length_digestToBase64]

theorem newline_notMem_journalLine (ent : KeypinEnt) : 0x0a ∉ journalLine ent := by
  rw [journalLine, List.mem_append, List.mem_cons]
  rintro (hc | hc | hc)
  · exact (mem_digestToBase64 hc).1 rfl
  · exact absurd hc (by decide)
  · exact (mem_digestToBase64 hc).1 rfl

/-- A line that begins with a character of base 64 is neither empty nor a comment. -/
theorem lineEntry_eq {line rest : List UInt8} {digest : List UInt8} (hpos : 0 < (digestToBase64 digest).length)
    (hlen : line.length = 71) (heq : line = digestToBase64 digest ++ rest) :
    lineEntry line = keypinParseJournalLine line := by
  obtain ⟨c, tail, htext⟩ := List.exists_cons_of_length_pos hpos
  have hmem : c ∈ digestToBase64 digest := by
    rw [htext]
    exact List.mem_cons_self
  obtain ⟨-, hat, hhash⟩ := mem_digestToBase64 hmem
  have hcons : line = c :: (tail ++ rest) := by rw [heq, htext, List.cons_append]
  have hplain : ¬(line = [] ∨ line.head? = some 0x40 ∨ line.head? = some 0x23) := by
    rw [hcons]
    rintro (h | h | h)
    · cases h
    · exact hat (Option.some.inj h)
    · exact hhash (Option.some.inj h)
  rw [lineEntry, if_neg hplain, if_neg (not_not_intro hlen)]

/-- **The line of a pair is read back.** -/
theorem lineEntry_journalLine (ent : KeypinEnt) : lineEntry (journalLine ent) = some ent := by
  have hlen : (digestToBase64 ent.rsaId.val).length = 27 := length_digestToBase64 ent.rsaId
  have hlen' : (digestToBase64 ent.ed25519Key.val).length = 43 := length_digestToBase64 ent.ed25519Key
  rw [lineEntry_eq (by rw [hlen]; decide) (length_journalLine ent) rfl, keypinParseJournalLine]
  have htake : (journalLine ent).take 27 = digestToBase64 ent.rsaId.val := by
    rw [journalLine, ← hlen, List.take_left]
  have hspace : (journalLine ent)[27]? = some 0x20 := by
    rw [journalLine, List.getElem?_append_right hlen.le, hlen]
    rfl
  have hdrop : ((journalLine ent).drop 28).take 43 = digestToBase64 ent.ed25519Key.val := by
    have htail : (journalLine ent).drop 28 = digestToBase64 ent.ed25519Key.val := by
      rw [journalLine, List.drop_append, List.drop_eq_nil_of_le (by rw [hlen]; decide), hlen]
      rfl
    rw [htail, ← hlen', List.take_length]
  rw [htake, hdrop, decodeArray_digestToBase64, decodeArray_digestToBase64, hspace]
  rfl

/-- A part of a line, a comment or the opening of the journal have no pair. -/
theorem lineEntry_of_length {line : List UInt8} (h : line.length ≠ 71) : lineEntry line = none := by
  rw [lineEntry, if_pos h, ite_self]

theorem lineEntry_at (line : List UInt8) : lineEntry (0x40 :: line) = none := by
  rw [lineEntry]
  exact if_pos (Or.inr (Or.inl rfl))

/-! ### Runs -/

/-- The times that are written in the journal are in one line. -/
def Event.InLine : Event → Prop
  | .check _ | .checkAndAdd _ _ => True
  | .restart time | .crash _ _ _ time => 0x0a ∉ time
  | .crashAtStart opened _ time => 0x0a ∉ opened ∧ 0x0a ∉ time

def Event.Replaces : Event → Prop
  | .checkAndAdd _ replace | .crash _ replace _ _ => replace = true
  | .check _ | .restart _ | .crashAtStart _ _ _ => False

theorem lineEntry_take_opened (time : List UInt8) (k : ℕ) :
    lineEntry ((openedAtText ++ time).take k) = none := by
  cases k with
  | zero => rfl
  | succ k => exact lineEntry_at _

theorem newline_notMem_opened {time : List UInt8} (h : 0x0a ∉ time) : 0x0a ∉ openedAtText ++ time := by
  rw [List.mem_append, not_or]
  exact ⟨by decide, h⟩

/-- The opening of a journal, or a part of it, adds no pairs. -/
theorem pinsOf_opening (journal : List UInt8) {time : List UInt8} (h : 0x0a ∉ time) (k : ℕ) :
    pinsOf (journal ++ (opening time).take k) = pinsOf journal := by
  cases k with
  | zero => rw [List.take_zero, List.append_nil]
  | succ k =>
    rw [opening, List.take_succ_cons, pinsOf_append,
      scanLines_take (fun _ => rfl) (newline_notMem_opened h), lineEntry_take_opened]
    rfl

theorem pinsOf_journalLine (text : List UInt8) (ent : KeypinEnt) (k : ℕ) :
    pinsOf (text ++ [0x0a] ++ (journalLine ent ++ [0x0a]).take k) =
      if k < 71 then pinsOf (text ++ [0x0a]) else supersede (pinsOf (text ++ [0x0a])) ent := by
  have hline : pinsOf (text ++ [0x0a]) = pinsOf text := by rw [pinsOf_append, scanLines_nil]
  rw [List.append_assoc, List.singleton_append, pinsOf_append,
    scanLines_take (fun _ => rfl) (newline_notMem_journalLine ent), hline]
  by_cases hk : k < 71
  · rw [if_pos hk, lineEntry_of_length]
    · rfl
    · rw [List.length_take, length_journalLine]
      omega
  · rw [if_neg hk, List.take_of_length_le (by rw [length_journalLine]; omega), lineEntry_journalLine]
    rfl

variable (hashRsa hashEd) in
/-- **An authority starts** with the pairs of its journal, if that is not an empty file. -/
theorem start_spec {journal : Option (List UInt8)} (hjournal : journal ≠ some []) {time : List UInt8}
    (h : 0x0a ∉ time) :
    ∃ st, start hashRsa hashEd journal time = some st ∧ Good hashRsa hashEd st ∧
      pinsOf st.journal = pinsOf (journal.getD []) := by
  obtain ⟨maps, heq, hmaps⟩ : Loaded hashRsa hashEd (keypinLoadJournal hashRsa hashEd journal)
      (pinsOf (journal.getD [])) := by
    rcases journal with _ | _ | ⟨c, data⟩
    · rw [Option.getD_none, pinsOf, scanLines_nil]
      exact ⟨Maps.empty, rfl, holds_empty⟩
    · exact absurd rfl hjournal
    · exact load_spec hashRsa hashEd (c :: data)
  have hpins : pinsOf (journal.getD [] ++ opening time) = pinsOf (journal.getD []) := by
    rw [← pinsOf_opening (journal.getD []) h (opening time).length, List.take_length]
  refine ⟨⟨maps, journal.getD [] ++ opening time⟩, ?_, ⟨?_, ?_⟩, hpins⟩
  · rw [start, heq]
    rfl
  · rw [hpins]
    exact hmaps
  · exact ⟨_, (List.append_assoc _ (0x0a :: (openedAtText ++ time)) [0x0a]).symm⟩

theorem Good.append_ne {st : State} (h : Good hashRsa hashEd st) (more : List UInt8) :
    some (st.journal ++ more) ≠ some [] := by
  obtain ⟨text, htext⟩ := h.line
  rw [htext]
  simp

theorem Good.journal_ne {st : State} (h : Good hashRsa hashEd st) : some st.journal ≠ some [] := by
  have happend := h.append_ne []
  rwa [List.append_nil] at happend

theorem mem_supersede {ent ent' : KeypinEnt} (h : ent ∈ l) (hnew : statusOf l ent' = .notFound) :
    ent ∈ supersede l ent' := by
  rw [(supersede_of_notFound hnew).2.2.2]
  exact List.mem_cons_of_mem ent' h

theorem of_not_replace {replace : Bool} {p q : Prop} (h : replace ≠ true)
    (hq : if replace then p else q) : q := by
  rw [if_neg h] at hq
  exact hq

/-- **A step**: no assertion fails, the journal has what the tables have, and a pair stays where nothing is
replaced. -/
theorem step_spec {st : State} (h : Good hashRsa hashEd st) {e : Event} (he : e.InLine) :
    ∃ st' r, step hashRsa hashEd st e = some (st', r) ∧ Good hashRsa hashEd st' ∧
      (¬ e.Replaces → ∀ ent ∈ pinsOf st.journal, ent ∈ pinsOf st'.journal) := by
  obtain ⟨text, htext⟩ := h.line
  cases e with
  | check ent =>
    refine ⟨st, some (statusOf (pinsOf st.journal) ent), ?_, h, fun _ _ hmem => hmem⟩
    rw [step, check_spec h.holds]
    rfl
  | checkAndAdd ent replace =>
    obtain ⟨maps, status, heq, hmaps, hadded⟩ := checkAndAdd_spec h.holds ent replace
    by_cases hstatus : status = .added
    · have hpins := pinsOf_journalLine text ent 72
      rw [List.take_of_length_le (by rw [List.length_append, length_journalLine]; decide), if_neg (by decide),
        ← htext] at hpins
      refine ⟨⟨maps, st.journal ++ (journalLine ent ++ [0x0a])⟩, some status, ?_, ⟨?_, ?_⟩, ?_⟩
      · rw [step, heq, Option.map_some, if_pos hstatus]
      · rw [hpins]
        rw [if_pos hstatus] at hmaps
        exact hmaps
      · exact ⟨st.journal ++ journalLine ent, by rw [List.append_assoc]⟩
      · intro hreplace ent' hmem
        have hnew := of_not_replace hreplace (hadded hstatus)
        rw [hpins]
        exact mem_supersede hmem hnew
    · refine ⟨⟨maps, st.journal⟩, some status, ?_, ⟨?_, h.line⟩, fun _ _ hmem => hmem⟩
      · rw [step, heq, Option.map_some, if_neg hstatus]
      · rw [if_neg hstatus] at hmaps
        exact hmaps
  | restart time =>
    obtain ⟨st', heq, h', hpins⟩ := start_spec hashRsa hashEd h.journal_ne he
    refine ⟨st', none, ?_, h', fun _ ent hmem => ?_⟩
    · rw [step, heq]
      rfl
    · rw [hpins]
      exact hmem
  | crash ent replace written time =>
    obtain ⟨maps, status, heq, -, hadded⟩ := checkAndAdd_spec h.holds ent replace
    have hjournal : some (if status = .added then st.journal ++ (journalLine ent ++ [0x0a]).take written
        else st.journal) ≠ some [] := by
      split_ifs
      · exact h.append_ne _
      · exact h.journal_ne
    obtain ⟨st', heq', h', hpins⟩ := start_spec hashRsa hashEd hjournal he
    rw [Option.getD_some] at hpins
    refine ⟨st', none, ?_, h', fun hreplace ent' hmem => ?_⟩
    · rw [step, heq, Option.bind_eq_bind, Option.bind_some]
      simp only [heq']
      rfl
    · rw [hpins]
      by_cases hstatus : status = .added
      · have hnew := of_not_replace hreplace (hadded hstatus)
        rw [if_pos hstatus, htext, pinsOf_journalLine, ← htext]
        split_ifs
        · exact hmem
        · exact mem_supersede hmem hnew
      · rw [if_neg hstatus]
        exact hmem
  | crashAtStart opened written time =>
    obtain ⟨st', heq, h', hpins⟩ := start_spec hashRsa hashEd (h.append_ne ((opening opened).take written)) he.2
    rw [Option.getD_some] at hpins
    refine ⟨st', none, ?_, h', fun _ ent hmem => ?_⟩
    · rw [step, heq]
      rfl
    · rw [hpins, pinsOf_opening st.journal he.1]
      exact hmem

theorem run_spec {st : State} (h : Good hashRsa hashEd st) {events : List Event}
    (hevents : ∀ e ∈ events, e.InLine) :
    ∃ st', run hashRsa hashEd st events = some st' ∧ Good hashRsa hashEd st' := by
  refine option_foldlM_total events (fun e he st h => ?_) h
  obtain ⟨st', r, heq, h', -⟩ := step_spec h (hevents e he)
  exact ⟨st', by rw [heq]; rfl, h'⟩

theorem run_keeps {st : State} (h : Good hashRsa hashEd st) {ent : KeypinEnt} (hmem : ent ∈ pinsOf st.journal)
    {events : List Event} (hevents : ∀ e ∈ events, e.InLine ∧ ¬ e.Replaces) :
    ∃ st', run hashRsa hashEd st events = some st' ∧ Good hashRsa hashEd st' ∧ ent ∈ pinsOf st'.journal := by
  refine option_foldlM_total (I := fun st => Good hashRsa hashEd st ∧ ent ∈ pinsOf st.journal) events
    (fun e he st h => ?_) ⟨h, hmem⟩
  obtain ⟨st', r, heq, h', hkeep⟩ := step_spec h.1 (hevents e he).1
  exact ⟨st', by rw [heq]; rfl, h', hkeep (hevents e he).2 ent h.2⟩

theorem keypinCheck_eq {st : State} (h : Good hashRsa hashEd st) (ent : KeypinEnt) :
    keypinCheck hashRsa hashEd st ent = some (statusOf (pinsOf st.journal) ent) := by
  rw [keypinCheck, check_spec h.holds]
  rfl

theorem found_iff {st : State} (h : Good hashRsa hashEd st) (ent : KeypinEnt) :
    keypinCheck hashRsa hashEd st ent = some .found ↔ ent ∈ pinsOf st.journal := by
  rw [keypinCheck_eq h, Option.some_inj, statusOf]
  split_ifs with hmem hknown
  · exact iff_of_true rfl hmem
  · exact iff_of_false (by decide) hmem
  · exact iff_of_false (by decide) hmem

/-- What has one of the keys of a pair, and not both, is a mismatch. -/
theorem mismatch_of_mem (h : Holds hashRsa hashEd s l) {ent ent' : KeypinEnt} (hmem : ent ∈ l)
    (hne : ent' ≠ ent) (hshare : ent'.rsaId = ent.rsaId ∨ ent'.ed25519Key = ent.ed25519Key) :
    statusOf l ent' = .mismatch := by
  have hnot : ent' ∉ l := fun hmem' => hne <| by
    rcases hshare with heq | heq
    · have hlookup := lookup_of_mem h.keyedRsa hmem'
      rw [heq, lookup_of_mem h.keyedRsa hmem] at hlookup
      exact (Option.some.inj hlookup).symm
    · have hlookup := lookup_of_mem h.keyedEd hmem'
      rw [heq, lookup_of_mem h.keyedEd hmem] at hlookup
      exact (Option.some.inj hlookup).symm
  have hknown : (lookup (·.rsaId) ent'.rsaId l).isSome ∨ (lookup (·.ed25519Key) ent'.ed25519Key l).isSome := by
    refine hshare.imp (fun heq => ?_) (fun heq => ?_)
    · rw [heq, lookup_of_mem h.keyedRsa hmem]
      rfl
    · rw [heq, lookup_of_mem h.keyedEd hmem]
      rfl
  rw [statusOf, if_neg hnot, if_pos hknown]

/-- **Pinned keys.**  An authority starts with any journal but an empty file, as one that was cut off in the middle of a
line, and runs with restarts and with crashes while it writes.  No assertion fails; the two tables have the same
pairs; an authority that starts with the journal answers every check in the same way; and a pair that was
found is found, and what contradicts it, or has no key, is a mismatch, until a pair may replace others. -/
theorem keeps_pins (hashRsa : Bytes 20 → UInt32) (hashEd : Bytes 32 → UInt32)
    {journal : Option (List UInt8)} (hjournal : journal ≠ some []) {time : List UInt8} (htime : 0x0a ∉ time) {events : List Event} (hevents : ∀ e ∈ events, e.InLine) :
    ∃ st, (start hashRsa hashEd journal time).bind (run hashRsa hashEd · events) = some st ∧
      (∀ ent, (keypinCheck hashRsa hashEd st ent = some .found ↔
          st.maps.findRsa hashRsa ent.rsaId = some ent) ∧
        (keypinCheck hashRsa hashEd st ent = some .found ↔
          st.maps.findEd hashEd ent.ed25519Key = some ent)) ∧
      (∀ time', 0x0a ∉ time' → ∃ st', start hashRsa hashEd (some st.journal) time' = some st' ∧
        ∀ ent, keypinCheck hashRsa hashEd st' ent = keypinCheck hashRsa hashEd st ent) ∧
      ∀ ent, keypinCheck hashRsa hashEd st ent = some .found →
        ∀ later, (∀ e ∈ later, e.InLine ∧ ¬ e.Replaces) →
          ∃ st', run hashRsa hashEd st later = some st' ∧
            keypinCheck hashRsa hashEd st' ent = some .found ∧
            keypinCheckLoneRsa hashRsa st'.maps ent.rsaId = .mismatch ∧
            ∀ ent', ent' ≠ ent → ent'.rsaId = ent.rsaId ∨ ent'.ed25519Key = ent.ed25519Key →
              keypinCheck hashRsa hashEd st' ent' = some .mismatch := by
  obtain ⟨st₀, hstart, h₀, -⟩ := start_spec hashRsa hashEd hjournal htime
  obtain ⟨st, hrun, h⟩ := run_spec h₀ hevents
  refine ⟨st, by rw [hstart]; exact hrun, fun ent => ⟨?_, ?_⟩, fun time' htime' => ?_,
    fun ent hfound later hlater => ?_⟩
  · rw [found_iff h, findRsa_spec h.holds, lookup_eq_some_iff h.holds.keyedRsa]
    exact (and_iff_left rfl).symm
  · rw [found_iff h, findEd_spec h.holds, lookup_eq_some_iff h.holds.keyedEd]
    exact (and_iff_left rfl).symm
  · obtain ⟨st', hstart', h', hpins⟩ := start_spec hashRsa hashEd h.journal_ne htime'
    rw [Option.getD_some] at hpins
    refine ⟨st', hstart', fun ent => ?_⟩
    rw [keypinCheck_eq h', keypinCheck_eq h, hpins]
  · obtain ⟨st', hrun', h', hmem⟩ := run_keeps h ((found_iff h ent).mp hfound) hlater
    refine ⟨st', hrun', (found_iff h' ent).mpr hmem, ?_, fun ent' hne hshare => ?_⟩
    · rw [keypinCheckLoneRsa, findRsa_spec h'.holds, lookup_of_mem h'.holds.keyedRsa hmem]
      rfl
    · rw [keypinCheck_eq h', mismatch_of_mem h'.holds hmem hne hshare]

/-- A crash behind seven characters of a pair, in a journal that begins with a line that was cut off. -/
theorem keeps_pins_crash :
    ∃ st, (start (fun _ => 0) (fun _ => 0) (some [0x41]) [0x30]).bind (run (fun _ => 0) (fun _ => 0) ·
        [.checkAndAdd ⟨Bytes.pad 20 [1], Bytes.pad 32 [1]⟩ false,
          .crash ⟨Bytes.pad 20 [2], Bytes.pad 32 [2]⟩ false 7 [0x31]]) = some st ∧
      ∀ time', 0x0a ∉ time' → ∃ st', start (fun _ => 0) (fun _ => 0) (some st.journal) time' = some st' ∧
        ∀ ent, keypinCheck (fun _ => 0) (fun _ => 0) st' ent =
          keypinCheck (fun _ => 0) (fun _ => 0) st ent := by
  have hevents : ∀ e ∈ [Event.checkAndAdd ⟨Bytes.pad 20 [1], Bytes.pad 32 [1]⟩ false,
      .crash ⟨Bytes.pad 20 [2], Bytes.pad 32 [2]⟩ false 7 [0x31]], e.InLine := by
    intro e he
    rw [List.mem_cons, List.mem_singleton] at he
    rcases he with rfl | rfl
    · trivial
    · change 0x0a ∉ [0x31]
      decide
  have htime : (0x0a : UInt8) ∉ [0x30] := by decide
  obtain ⟨st, hrun, -, hload, -⟩ := @keeps_pins (fun _ => 0) (fun _ => 0) (some [0x41]) nofun _ htime _ hevents
  exact ⟨st, hrun, hload⟩

end TorEbpf.Dirauth.Keypin
