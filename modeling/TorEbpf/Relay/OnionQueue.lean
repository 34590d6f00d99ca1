import TorEbpf.Lib.Events
import TorEbpf.Lib.Fifo
import TorEbpf.Lib.Keyed

/-!
# The queue of onionskins of a relay

`onion_queue.c` keeps the create cells that wait for a CPU worker in one list for each type of handshake,
counts the entries of each list in `ol_entries`, and leaves in each circuit a pointer to its entry.

* `Ok.onionPendingAdd`, `Ok.onionNextTask`, `Ok.onionPendingRemove` — what the three operations preserve;
* `integrity_of_events` — over every run the counts and pointers are right, the tasks of a type leave in the
  order in which they came, none twice, and the tap queue is not starved.
-/

namespace TorEbpf.Relay

open TorEbpf.Lib

/-! ### The operations -/

/-- `ONION_HANDSHAKE_TYPE_TAP`, `ONION_HANDSHAKE_TYPE_NTOR` and `MAX_ONION_HANDSHAKE_TYPE`. -/
def onionHandshakeTypeTap : ℕ := 0
def onionHandshakeTypeNtor : ℕ := 2
def maxOnionHandshakeType : ℕ := 2

/-- `ONIONQUEUE_WAIT_CUTOFF`, in seconds. -/
def onionqueueWaitCutoff : ℤ := 5

/-- `create_cell_t`: the queue reads its type. -/
structure CreateCell (β : Type) where
  handshakeType : ℕ
  body : β

/-- `onion_queue_t`; `addr` is where it was allocated. -/
structure Entry (β : Type) where
  addr : ℕ
  circ : ℕ
  handshakeType : ℕ
  onionskin : Option (CreateCell β)
  whenAdded : ℤ

/-- The static variables, what the circuits say about the queue, and the allocations made so far. -/
structure State (β : Type) where
  olList : ℕ → List (Entry β)
  olEntries : ℕ → ℤ
  recentlyChosenNtors : ℤ
  onionqueueEntry : ℕ → Option ℕ
  markedForClose : ℕ → Bool
  allocated : ℕ

/-- What `have_room_for_onionskin` looks at besides the queue: the number of CPUs, the estimated time for a
number of onionskins of a type, and `MaxOnionQueueDelay`. -/
structure Load where
  numCpus : ℕ
  estimatedUsecForOnionskins : ℕ → ℕ → ℕ
  maxOnionQueueDelay : ℕ

variable {β : Type}

/-- `have_room_for_onionskin`, with `num_ntors_per_tap()` as a number. -/
def haveRoomForOnionskin (numNtorsPerTap : ℕ) (load : Load) (s : State β) (type : ℕ) : Bool :=
  if s.olEntries type < 50 then true
  else
    let usec := fun n t => load.estimatedUsecForOnionskins n t / load.numCpus
    let taps := (s.olEntries onionHandshakeTypeTap).toNat
    let ntors := (s.olEntries onionHandshakeTypeNtor).toNat
    let tapUsec := usec taps onionHandshakeTypeTap
    let ntorUsec := usec ntors onionHandshakeTypeNtor
    let tapDuringNtorUsec := usec (min taps (ntors / numNtorsPerTap)) onionHandshakeTypeTap
    let ntorDuringTapUsec := usec (min ntors (taps * numNtorsPerTap)) onionHandshakeTypeNtor
    let max := load.maxOnionQueueDelay
    if type = onionHandshakeTypeNtor ∧ (ntorUsec + tapDuringNtorUsec) / 1000 > max then false
    else if type = onionHandshakeTypeTap ∧ (tapUsec + ntorDuringTapUsec) / 1000 > max then false
    else if type = onionHandshakeTypeTap ∧ tapUsec / 1000 > max * 2 / 3 then false
    else true

def onionQueueEntryRemove (s : State β) (victim : Entry β) : State β :=
  if victim.handshakeType > maxOnionHandshakeType then s
  else
    let t := victim.handshakeType
    { s with
      olList := Function.update s.olList t ((s.olList t).eraseP (·.addr = victim.addr))
      onionqueueEntry := Function.update s.onionqueueEntry victim.circ none
      olEntries := if victim.onionskin.isSome then Function.update s.olEntries t (s.olEntries t - 1)
        else s.olEntries }

/-- The difference of two `time_t`. -/
def timeSub (x y : ℤ) : ℤ := (x - y).bmod (2 ^ 64)

/-- The loop of `onion_pending_add` that culls elderly requests, for at most `fuel` rounds; there is no
result if it reads the first entry of an empty list. -/
def cullElderly (type : ℕ) (now : ℤ) : ℕ → State β → Option (State β)
  | 0, _ => none
  | fuel + 1, s =>
    match s.olList type with
    | [] => none
    | head :: _ =>
      if timeSub now head.whenAdded < onionqueueWaitCutoff then some s
      else
        let s := { s with onionqueueEntry := Function.update s.onionqueueEntry head.circ none }
        let s := onionQueueEntryRemove s head
        cullElderly type now fuel { s with markedForClose := Function.update s.markedForClose head.circ true }

/-- `onion_pending_add` up to the loop: the new entry is at the end of its list. -/
def enqueue (s : State β) (entry : Entry β) : State β :=
  let t := entry.handshakeType
  { s with
    olEntries := Function.update s.olEntries t (s.olEntries t + 1)
    onionqueueEntry := Function.update s.onionqueueEntry entry.circ (some entry.addr)
    olList := Function.update s.olList t (s.olList t ++ [entry])
    allocated := s.allocated + 1 }

/-- The entry that `onion_pending_add` makes. -/
def newEntry (s : State β) (circ : ℕ) (onionskin : CreateCell β) (now : ℤ) : Entry β :=
  ⟨s.allocated, circ, onionskin.handshakeType, some onionskin, now⟩

/-- `onion_pending_add`: the state and whether it returned 0. -/
def onionPendingAdd (numNtorsPerTap : ℕ) (load : Load) (s : State β) (circ : ℕ) (onionskin : CreateCell β)
    (now : ℤ) : Option (State β × Bool) :=
  if onionskin.handshakeType > maxOnionHandshakeType then some (s, false)
  else if !haveRoomForOnionskin numNtorsPerTap load s onionskin.handshakeType then some (s, false)
  else
    let s := enqueue s (newEntry s circ onionskin now)
    (cullElderly onionskin.handshakeType now (s.olList onionskin.handshakeType).length s).map (·, true)

def decideNextHandshakeType (numNtorsPerTap : ℕ) (s : State β) : State β × ℕ :=
  if s.olEntries onionHandshakeTypeNtor = 0 then (s, onionHandshakeTypeTap)
  else if s.olEntries onionHandshakeTypeTap = 0 then
    if s.recentlyChosenNtors ≤ numNtorsPerTap then
      ({ s with recentlyChosenNtors := s.recentlyChosenNtors + 1 }, onionHandshakeTypeNtor)
    else (s, onionHandshakeTypeNtor)
  else if s.recentlyChosenNtors + 1 ≤ numNtorsPerTap then
    ({ s with recentlyChosenNtors := s.recentlyChosenNtors + 1 }, onionHandshakeTypeNtor)
  else ({ s with recentlyChosenNtors := 0 }, onionHandshakeTypeTap)

/-- `onion_next_task` with the type that was chosen: the state and the entry whose circuit is returned and
whose onionskin is handed out. -/
def takeHead (s : State β) (type : ℕ) : State β × Option (Entry β) :=
  match s.olList type with
  | [] => (s, none)
  | head :: _ =>
    let t := head.handshakeType
    let s :=
      if head.onionskin.isSome then { s with olEntries := Function.update s.olEntries t (s.olEntries t - 1) }
      else s
    let s := { s with onionqueueEntry := Function.update s.onionqueueEntry head.circ none }
    (onionQueueEntryRemove s { head with onionskin := none }, some head)

def onionNextTask (numNtorsPerTap : ℕ) (s : State β) : State β × Option (Entry β) :=
  let chosen := decideNextHandshakeType numNtorsPerTap s
  takeHead chosen.1 chosen.2

def entryAt (s : State β) (addr : ℕ) : Option (Entry β) :=
  ((List.range (maxOnionHandshakeType + 1)).flatMap s.olList).find? (·.addr = addr)

/-- `onion_pending_remove` of a circuit; there is no result if its pointer is dangling. -/
def onionPendingRemove (s : State β) (circ : ℕ) : Option (State β) :=
  match s.onionqueueEntry circ with
  | none => some s
  | some addr => (entryAt s addr).map (onionQueueEntryRemove s)

/-! ### Lists, counts and pointers -/

/-- The lists, the counts and the pointers agree. -/
structure Linked (s : State β) : Prop where
  entries_eq : ∀ t, s.olEntries t = (s.olList t).length
  typed : ∀ t, ∀ e ∈ s.olList t, e.handshakeType = t ∧ t ≤ maxOnionHandshakeType ∧ e.onionskin.isSome
  pointer_iff : ∀ c a, s.onionqueueEntry c = some a ↔ ∃ t, ∃ e ∈ s.olList t, e.circ = c ∧ e.addr = a
  keyed : ∀ t, Keyed Entry.addr (s.olList t)
  distinct : ∀ t, ∀ e ∈ s.olList t, ∀ t', ∀ e' ∈ s.olList t', e.addr = e'.addr → e = e'
  lt_allocated : ∀ t, ∀ e ∈ s.olList t, e.addr < s.allocated

def unlink (s : State β) (victim : Entry β) : State β :=
  let t := victim.handshakeType
  { s with
    olList := Function.update s.olList t ((s.olList t).eraseP (·.addr = victim.addr))
    onionqueueEntry := Function.update s.onionqueueEntry victim.circ none
    olEntries := Function.update s.olEntries t (s.olEntries t - 1) }

section Unlink

variable {s : State β} {victim : Entry β} {t : ℕ}

theorem olList_unlink : (unlink s victim).olList = Function.update s.olList victim.handshakeType
    ((s.olList victim.handshakeType).eraseP (·.addr = victim.addr)) := rfl

theorem olEntries_unlink : (unlink s victim).olEntries = Function.update s.olEntries victim.handshakeType
    (s.olEntries victim.handshakeType - 1) := rfl

theorem onionqueueEntry_unlink :
    (unlink s victim).onionqueueEntry = Function.update s.onionqueueEntry victim.circ none := rfl

theorem mem_unlink_iff (h : Linked s) (hv : victim ∈ s.olList t) (t' : ℕ) (e : Entry β) :
    e ∈ (unlink s victim).olList t' ↔ e ∈ s.olList t' ∧ e.addr ≠ victim.addr := by
  have ht := (h.typed t victim hv).1
  subst ht
  rw [olList_unlink]
  by_cases heq : t' = victim.handshakeType
  · subst heq
    rw [Function.update_self, eraseP_eq_remove (h.keyed _)]
    simp [remove]
  · rw [Function.update_of_ne heq]
    constructor
    · intro he
      refine ⟨he, ?_⟩
      intro haddr
      have := h.distinct _ e he _ victim hv haddr
      exact heq ((h.typed _ e he).1.symm.trans (this ▸ rfl))
    · exact And.left

theorem unlink_sublist (s : State β) (victim : Entry β) (t : ℕ) :
    ((unlink s victim).olList t).Sublist (s.olList t) := by
  rw [olList_unlink]
  by_cases heq : t = victim.handshakeType
  · subst heq
    rw [Function.update_self]
    exact List.eraseP_sublist
  · rw [Function.update_of_ne heq]

theorem entries_unlink (h : Linked s) (hv : victim ∈ s.olList t) (t' : ℕ) :
    (unlink s victim).olEntries t' = ((unlink s victim).olList t').length := by
  have ht := (h.typed t victim hv).1
  subst ht
  rw [olList_unlink, olEntries_unlink]
  by_cases heq : t' = victim.handshakeType
  · subst heq
    have hlen := List.length_eraseP_of_mem hv (p := fun e => e.addr = victim.addr) (by simp)
    have hpos := List.length_pos_of_mem hv
    rw [Function.update_self, Function.update_self, h.entries_eq, hlen]
    omega
  · rw [Function.update_of_ne heq, Function.update_of_ne heq, h.entries_eq]

/-- The pointers stay right: a circuit has no second entry. -/
theorem pointer_unlink (h : Linked s) (hv : victim ∈ s.olList t) (c a : ℕ) :
    (unlink s victim).onionqueueEntry c = some a ↔
      ∃ t, ∃ e ∈ (unlink s victim).olList t, e.circ = c ∧ e.addr = a := by
  have hpointer : s.onionqueueEntry victim.circ = some victim.addr :=
    (h.pointer_iff _ _).mpr ⟨t, victim, hv, rfl, rfl⟩
  simp only [mem_unlink_iff h hv]
  by_cases hc : c = victim.circ
  · subst hc
    rw [onionqueueEntry_unlink, Function.update_self]
    constructor
    · intro hfalse
      cases hfalse
    · rintro ⟨t', e, ⟨he, hne⟩, hcirc, -⟩
      have hsame := (h.pointer_iff e.circ e.addr).mpr ⟨t', e, he, rfl, rfl⟩
      rw [hcirc, hpointer] at hsame
      exact absurd (Option.some.inj hsame).symm hne
  · rw [onionqueueEntry_unlink, Function.update_of_ne hc, h.pointer_iff]
    constructor
    · rintro ⟨t', e, he, hcirc, haddr⟩
      refine ⟨t', e, ⟨he, ?_⟩, hcirc, haddr⟩
      intro hsame
      exact hc (hcirc.symm.trans (h.distinct _ e he _ victim hv hsame ▸ rfl))
    · rintro ⟨t', e, ⟨he, -⟩, hcirc, haddr⟩
      exact ⟨t', e, he, hcirc, haddr⟩

theorem Linked.unlink (h : Linked s) (hv : victim ∈ s.olList t) : Linked (unlink s victim) where
  entries_eq := entries_unlink h hv
  typed t e he := h.typed t e ((unlink_sublist s victim t).subset he)
  pointer_iff := pointer_unlink h hv
  keyed t := (h.keyed t).sublist ((unlink_sublist s victim t).map _)
  distinct t e he t' e' he' :=
    h.distinct t e ((unlink_sublist s victim t).subset he) t' e' ((unlink_sublist s victim t').subset he')
  lt_allocated t e he := h.lt_allocated t e ((unlink_sublist s victim t).subset he)

/-- `onion_queue_entry_remove` of an entry that still has its onionskin. -/
theorem onionQueueEntryRemove_eq_unlink (h : Linked s) (hv : victim ∈ s.olList t) :
    onionQueueEntryRemove s victim = unlink s victim := by
  obtain ⟨htype, hmax, hskin⟩ := h.typed t victim hv
  unfold onionQueueEntryRemove unlink
  rw [if_neg (by omega)]
  dsimp only
  rw [if_pos hskin]

end Unlink

section Enqueue

variable {s : State β} {entry : Entry β}

theorem olList_enqueue : (enqueue s entry).olList = Function.update s.olList entry.handshakeType
    (s.olList entry.handshakeType ++ [entry]) := rfl

theorem olEntries_enqueue : (enqueue s entry).olEntries = Function.update s.olEntries entry.handshakeType
    (s.olEntries entry.handshakeType + 1) := rfl

theorem onionqueueEntry_enqueue : (enqueue s entry).onionqueueEntry =
    Function.update s.onionqueueEntry entry.circ (some entry.addr) := rfl

theorem mem_enqueue_iff (t : ℕ) (e : Entry β) :
    e ∈ (enqueue s entry).olList t ↔ e ∈ s.olList t ∨ t = entry.handshakeType ∧ e = entry := by
  rw [olList_enqueue]
  by_cases heq : t = entry.handshakeType
  · subst heq
    rw [Function.update_self, List.mem_append, List.mem_singleton]
    simp
  · rw [Function.update_of_ne heq]
    simp [heq]

/-- The pointers after a circuit that had no entry has got one. -/
theorem pointer_enqueue (h : Linked s) (hfree : s.onionqueueEntry entry.circ = none) (c a : ℕ) :
    (enqueue s entry).onionqueueEntry c = some a ↔
      ∃ t, ∃ e ∈ (enqueue s entry).olList t, e.circ = c ∧ e.addr = a := by
  simp only [mem_enqueue_iff, onionqueueEntry_enqueue]
  by_cases hc : c = entry.circ
  · subst hc
    rw [Function.update_self, Option.some.injEq]
    constructor
    · intro ha
      exact ⟨_, entry, .inr ⟨rfl, rfl⟩, rfl, ha⟩
    · rintro ⟨t, e, he | ⟨-, rfl⟩, hcirc, haddr⟩
      · have hold := (h.pointer_iff _ _).mpr ⟨t, e, he, hcirc, rfl⟩
        rw [hfree] at hold
        cases hold
      · exact haddr
  · rw [Function.update_of_ne hc, h.pointer_iff]
    constructor
    · rintro ⟨t, e, he, hcirc, haddr⟩
      exact ⟨t, e, .inl he, hcirc, haddr⟩
    · rintro ⟨t, e, he | ⟨-, rfl⟩, hcirc, haddr⟩
      · exact ⟨t, e, he, hcirc, haddr⟩
      · exact absurd hcirc.symm hc

/-- A new entry keeps lists, counts and pointers in agreement. -/
theorem Linked.enqueue (h : Linked s) (htype : entry.handshakeType ≤ maxOnionHandshakeType)
    (hskin : entry.onionskin.isSome) (hnew : entry.addr = s.allocated)
    (hfree : s.onionqueueEntry entry.circ = none) : Linked (enqueue s entry) where
  entries_eq t := by
    rw [olList_enqueue, olEntries_enqueue]
    by_cases heq : t = entry.handshakeType
    · subst heq
      rw [Function.update_self, Function.update_self, h.entries_eq, List.length_append]
      rfl
    · rw [Function.update_of_ne heq, Function.update_of_ne heq, h.entries_eq]
  typed t e he := by
    rcases (mem_enqueue_iff t e).mp he with he | ⟨rfl, rfl⟩
    · exact h.typed t e he
    · exact ⟨rfl, htype, hskin⟩
  pointer_iff := pointer_enqueue h hfree
  keyed t := by
    rw [olList_enqueue]
    by_cases heq : t = entry.handshakeType
    · subst heq
      rw [Function.update_self]
      unfold Keyed
      rw [List.map_append, List.map_singleton]
      refine (h.keyed _).append (List.nodup_singleton _) ?_
      rw [List.disjoint_singleton]
      intro hmem
      obtain ⟨e, he, haddr⟩ := List.mem_map.mp hmem
      have := h.lt_allocated _ e he
      omega
    · rw [Function.update_of_ne heq]
      exact h.keyed t
  distinct t e he t' e' he' haddr := by
    rcases (mem_enqueue_iff t e).mp he with hold | ⟨-, heq⟩ <;>
      rcases (mem_enqueue_iff t' e').mp he' with hold' | ⟨-, heq'⟩
    · exact h.distinct t e hold t' e' hold' haddr
    · have := h.lt_allocated t e hold
      rw [haddr, heq', hnew] at this
      exact absurd this (lt_irrefl _)
    · have := h.lt_allocated t' e' hold'
      rw [← haddr, heq, hnew] at this
      exact absurd this (lt_irrefl _)
    · rw [heq, heq']
  lt_allocated t e he := by
    have hgrow : (Relay.enqueue s entry).allocated = s.allocated + 1 := rfl
    rcases (mem_enqueue_iff t e).mp he with hold | ⟨-, heq⟩
    · have := h.lt_allocated t e hold
      omega
    · rw [heq, hnew]
      omega

end Enqueue

/-! ### The operations, from lists that agree -/

/-- A change of the fairness counter, or of the circuits marked for close, is none of the lists. -/
theorem Linked.congr {s s' : State β} (h : Linked s) (hlist : s'.olList = s.olList)
    (hentries : s'.olEntries = s.olEntries) (hpointer : s'.onionqueueEntry = s.onionqueueEntry)
    (hallocated : s'.allocated = s.allocated) : Linked s' where
  entries_eq t := by rw [hentries, hlist, h.entries_eq]
  typed t e he := h.typed t e (hlist ▸ he)
  pointer_iff c a := by rw [hpointer, h.pointer_iff, hlist]
  keyed t := hlist ▸ h.keyed t
  distinct t e he t' e' he' := h.distinct t e (hlist ▸ he) t' e' (hlist ▸ he')
  lt_allocated t e he := hallocated ▸ h.lt_allocated t e (hlist ▸ he)

theorem entryAt_eq_some {s : State β} (h : Linked s) {t : ℕ} {e : Entry β} (he : e ∈ s.olList t) :
    entryAt s e.addr = some e := by
  have hmem : ∀ e', e' ∈ (List.range (maxOnionHandshakeType + 1)).flatMap s.olList ↔ ∃ t, e' ∈ s.olList t := by
    intro e'
    rw [List.mem_flatMap]
    constructor
    · rintro ⟨t', -, he'⟩
      exact ⟨t', he'⟩
    · rintro ⟨t', he'⟩
      exact ⟨t', List.mem_range.mpr (Nat.lt_succ_of_le (h.typed t' e' he').2.1), he'⟩
  unfold entryAt
  cases hfind : ((List.range (maxOnionHandshakeType + 1)).flatMap s.olList).find? (·.addr = e.addr) with
  | none =>
    have := List.find?_eq_none.mp hfind e ((hmem e).mpr ⟨t, he⟩)
    simp at this
  | some e' =>
    obtain ⟨t', he'⟩ := (hmem e').mp (List.mem_of_find?_eq_some hfind)
    have haddr : e'.addr = e.addr := by simpa using List.find?_some hfind
    rw [h.distinct t' e' he' t e he haddr]

/-- `onion_pending_remove` does nothing, or takes the circuit's entry out. -/
theorem onionPendingRemove_cases {s : State β} (h : Linked s) (circ : ℕ) :
    onionPendingRemove s circ = some s ∨
      ∃ t, ∃ e ∈ s.olList t, onionPendingRemove s circ = some (unlink s e) := by
  cases hp : s.onionqueueEntry circ with
  | none =>
    left
    simp only [onionPendingRemove, hp]
  | some addr =>
    right
    obtain ⟨t, e, he, -, rfl⟩ := (h.pointer_iff _ _).mp hp
    refine ⟨t, e, he, ?_⟩
    simp only [onionPendingRemove, hp, entryAt_eq_some h he, Option.map_some,
      onionQueueEntryRemove_eq_unlink h he]

theorem takeHead_of_cons {s : State β} (h : Linked s) {t : ℕ} {head : Entry β} {rest : List (Entry β)}
    (hlist : s.olList t = head :: rest) : takeHead s t = (unlink s head, some head) := by
  have hmem : head ∈ s.olList t := hlist ▸ List.mem_cons_self
  obtain ⟨rfl, hmax, hskin⟩ := h.typed t head hmem
  unfold takeHead
  rw [hlist]
  dsimp only
  rw [if_pos hskin]
  unfold onionQueueEntryRemove unlink
  dsimp only
  rw [if_neg (by omega), if_neg (by simp), Function.update_idem]

/-- Entries have been taken out, and nothing else has happened. -/
structure Trimmed (s s' : State β) : Prop where
  sublist : ∀ t, (s'.olList t).Sublist (s.olList t)
  counter_eq : s'.recentlyChosenNtors = s.recentlyChosenNtors
  allocated_eq : s'.allocated = s.allocated

theorem Trimmed.refl (s : State β) : Trimmed s s := ⟨fun _ => List.Sublist.refl _, rfl, rfl⟩

theorem Trimmed.trans {s s' s'' : State β} (h : Trimmed s s') (h' : Trimmed s' s'') : Trimmed s s'' :=
  ⟨fun t => (h'.sublist t).trans (h.sublist t), h'.counter_eq.trans h.counter_eq,
    h'.allocated_eq.trans h.allocated_eq⟩

theorem trimmed_unlink (s : State β) (victim : Entry β) : Trimmed s (unlink s victim) :=
  ⟨unlink_sublist s victim, rfl, rfl⟩

/-- The state after one round of the culling loop. -/
def cullHead (s : State β) (head : Entry β) : State β :=
  { unlink s head with markedForClose := Function.update s.markedForClose head.circ true }

theorem cullElderly_succ_of_old {s : State β} (h : Linked s) {t : ℕ} {now : ℤ} {head : Entry β}
    {rest : List (Entry β)} (hlist : s.olList t = head :: rest)
    (hold : ¬ timeSub now head.whenAdded < onionqueueWaitCutoff) (fuel : ℕ) :
    cullElderly t now (fuel + 1) s = cullElderly t now fuel (cullHead s head) := by
  have hmem : head ∈ s.olList t := hlist ▸ List.mem_cons_self
  obtain ⟨rfl, hmax, hskin⟩ := h.typed t head hmem
  rw [cullElderly, hlist]
  dsimp only
  rw [if_neg hold]
  unfold onionQueueEntryRemove cullHead unlink
  dsimp only
  rw [if_neg (by omega), if_pos hskin, Function.update_idem]

/-- **Culling** ends at the latest at a young entry, and takes out nothing but entries of the list. -/
theorem cullElderly_spec {t : ℕ} {now : ℤ} {last : Entry β}
    (hyoung : timeSub now last.whenAdded < onionqueueWaitCutoff) (old : List (Entry β)) {s : State β}
    (h : Linked s) (hlist : s.olList t = old ++ [last]) :
    ∃ s', cullElderly t now (old ++ [last]).length s = some s' ∧ Linked s' ∧ Trimmed s s' := by
  induction old generalizing s with
  | nil =>
    rw [List.nil_append] at hlist
    refine ⟨s, ?_, h, .refl s⟩
    rw [List.nil_append, List.length_singleton, cullElderly, hlist]
    dsimp only
    rw [if_pos hyoung]
  | cons head old ih =>
    rw [List.cons_append] at hlist
    by_cases hhead : timeSub now head.whenAdded < onionqueueWaitCutoff
    · refine ⟨s, ?_, h, .refl s⟩
      rw [List.cons_append, List.length_cons, cullElderly, hlist]
      dsimp only
      rw [if_pos hhead]
    · have hmem : head ∈ s.olList t := hlist ▸ List.mem_cons_self
      have hlinked : Linked (cullHead s head) := (h.unlink hmem).congr rfl rfl rfl rfl
      have hrest : (cullHead s head).olList t = old ++ [last] := by
        show (unlink s head).olList t = _
        rw [olList_unlink, (h.typed t head hmem).1, Function.update_self, hlist,
          List.eraseP_cons_of_pos (by simp)]
      obtain ⟨s', hrun, hlinked', htrim⟩ := ih hlinked hrest
      refine ⟨s', ?_, hlinked', Trimmed.trans ?_ htrim⟩
      · rw [List.cons_append, List.length_cons, cullElderly_succ_of_old h hlist hhead, hrun]
      · exact ⟨unlink_sublist s head, rfl, rfl⟩

/-- `onion_pending_add` refuses, or appends an entry and culls. -/
theorem onionPendingAdd_cases {s : State β} (h : Linked s) (k : ℕ) (load : Load) {circ : ℕ}
    (hfree : s.onionqueueEntry circ = none) (onionskin : CreateCell β) (now : ℤ) :
    onionPendingAdd k load s circ onionskin now = some (s, false) ∨
      ∃ s', onionPendingAdd k load s circ onionskin now = some (s', true) ∧ Linked s' ∧
        Trimmed (enqueue s (newEntry s circ onionskin now)) s' := by
  by_cases htype : onionskin.handshakeType > maxOnionHandshakeType
  · left
    unfold onionPendingAdd
    rw [if_pos htype]
  by_cases hroom : haveRoomForOnionskin k load s onionskin.handshakeType
  · right
    have hlinked : Linked (enqueue s (newEntry s circ onionskin now)) :=
      h.enqueue (not_lt.mp htype) rfl rfl hfree
    have hyoung : timeSub now (newEntry s circ onionskin now).whenAdded < onionqueueWaitCutoff := by
      show timeSub now now < onionqueueWaitCutoff
      rw [timeSub, sub_self]
      decide
    have hlist : (enqueue s (newEntry s circ onionskin now)).olList onionskin.handshakeType =
        s.olList onionskin.handshakeType ++ [newEntry s circ onionskin now] := Function.update_self ..
    obtain ⟨s', hrun, hlinked', htrim⟩ := cullElderly_spec hyoung _ hlinked hlist
    refine ⟨s', ?_, hlinked', htrim⟩
    unfold onionPendingAdd
    rw [if_neg htype, hroom]
    dsimp only
    rw [if_neg (by simp), hlist, hrun]
    rfl
  · left
    unfold onionPendingAdd
    rw [if_neg htype, if_pos (by simpa using hroom)]

/-- Both kinds of task are waiting. -/
def contested (s : State β) : Bool :=
  !(s.olList onionHandshakeTypeTap).isEmpty && !(s.olList onionHandshakeTypeNtor).isEmpty

/-- What the fairness counter `r'` after a task of some type says. -/
def Counted (k : ℕ) (s : State β) (type : ℕ) (r' : ℤ) : Prop :=
  (type = onionHandshakeTypeTap ∧ (r' = s.recentlyChosenNtors ∨ contested s = true ∧ r' = 0)) ∨
    (type = onionHandshakeTypeNtor ∧ contested s = false ∧ s.recentlyChosenNtors ≤ r') ∨
      (type = onionHandshakeTypeNtor ∧ contested s = true ∧ r' = s.recentlyChosenNtors + 1 ∧ r' ≤ k)

/-- The choice of `decide_next_handshake_type` changes the counter only, as far as the chosen list is not
empty. -/
theorem decideNextHandshakeType_spec {s : State β} (h : Linked s) (k : ℕ) :
    ∃ r' type, decideNextHandshakeType k s = ({ s with recentlyChosenNtors := r' }, type) ∧
      Counted k s type r' ∧
      (s.olList type = [] → s.olList onionHandshakeTypeTap = [] ∧ s.olList onionHandshakeTypeNtor = []) := by
  have hempty : ∀ t, s.olEntries t = 0 ↔ s.olList t = [] := by
    intro t
    rw [h.entries_eq]
    simp
  unfold decideNextHandshakeType
  by_cases hntor : s.olEntries onionHandshakeTypeNtor = 0
  · refine ⟨_, _, if_pos hntor, .inl ⟨rfl, .inl rfl⟩, fun ht => ⟨ht, (hempty _).mp hntor⟩⟩
  have hntor' : s.olList onionHandshakeTypeNtor ≠ [] := mt (hempty _).mpr hntor
  rw [if_neg hntor]
  by_cases htap : s.olEntries onionHandshakeTypeTap = 0
  · have hfree : contested s = false := by
      unfold contested
      rw [(hempty _).mp htap]
      rfl
    rw [if_pos htap]
    by_cases hle : s.recentlyChosenNtors ≤ k
    · refine ⟨_, _, if_pos hle, .inr (.inl ⟨rfl, hfree, ?_⟩), fun ht => absurd ht hntor'⟩
      omega
    · exact ⟨_, _, if_neg hle, .inr (.inl ⟨rfl, hfree, le_rfl⟩), fun ht => absurd ht hntor'⟩
  have htap' : s.olList onionHandshakeTypeTap ≠ [] := mt (hempty _).mpr htap
  have hboth : contested s = true := by
    simp only [contested, Bool.and_eq_true, Bool.not_eq_true', List.isEmpty_eq_false_iff]
    exact ⟨htap', hntor'⟩
  rw [if_neg htap]
  by_cases hle : s.recentlyChosenNtors + 1 ≤ k
  · exact ⟨_, _, if_pos hle, .inr (.inr ⟨rfl, hboth, rfl, hle⟩), fun ht => absurd ht hntor'⟩
  · exact ⟨_, _, if_neg hle, .inl ⟨rfl, .inr ⟨hboth, rfl⟩⟩, fun ht => absurd ht htap'⟩

/-- `onion_next_task` returns nothing, or takes out the first entry of the chosen list. -/
theorem onionNextTask_cases {s : State β} (h : Linked s) (k : ℕ) :
    ∃ r' type, Counted k s type r' ∧
      ((s.recentlyChosenNtors ≤ r' ∧ onionNextTask k s = ({ s with recentlyChosenNtors := r' }, none)) ∨
        ∃ head rest, s.olList type = head :: rest ∧
          onionNextTask k s = (unlink { s with recentlyChosenNtors := r' } head, some head)) := by
  obtain ⟨r', type, hdecide, hcounted, hempty⟩ := decideNextHandshakeType_spec h k
  refine ⟨r', type, hcounted, ?_⟩
  unfold onionNextTask
  rw [hdecide]
  dsimp only
  cases hlist : s.olList type with
  | nil =>
    left
    have hfree : contested s = false := by
      unfold contested
      rw [(hempty hlist).1]
      rfl
    constructor
    · rcases hcounted with ⟨-, heq | ⟨hboth, -⟩⟩ | ⟨-, -, hle⟩ | ⟨-, hboth, -⟩
      · exact heq.ge
      · exact absurd hboth (by simp [hfree])
      · exact hle
      · exact absurd hboth (by simp [hfree])
    · unfold takeHead
      dsimp only
      rw [hlist]
  | cons head rest =>
    right
    have hlinked : Linked { s with recentlyChosenNtors := r' } := h.congr rfl rfl rfl rfl
    exact ⟨head, rest, rfl, takeHead_of_cons hlinked hlist⟩

/-! ### Fairness -/

/-- A task that was handed out, and whether both kinds were waiting then. -/
structure Handed (β : Type) where
  entry : Entry β
  contested : Bool

/-- An ntor task that was preferred to a tap task. -/
def Handed.preferred (x : Handed β) : Bool := x.entry.handshakeType = onionHandshakeTypeNtor && x.contested

/-- How many ntor tasks have been preferred since the last tap task; the newest task comes first. -/
def streak : List (Handed β) → ℕ
  | [] => 0
  | x :: log => if x.entry.handshakeType = onionHandshakeTypeTap then 0 else streak log + x.preferred.toNat

/-- No tap task waits for more than `k` ntor tasks: among tasks handed out in succession without a tap task,
at most `k` were preferred to one. -/
def Fair (k : ℕ) (log : List (Handed β)) : Prop :=
  ∀ segment, segment <:+: log → (∀ x ∈ segment, x.entry.handshakeType ≠ onionHandshakeTypeTap) →
    segment.countP Handed.preferred ≤ k

/-- The tasks before a point, since the last tap task, are part of the streak. -/
theorem countP_le_streak {segment : List (Handed β)}
    (h : ∀ x ∈ segment, x.entry.handshakeType ≠ onionHandshakeTypeTap) (older : List (Handed β)) :
    segment.countP Handed.preferred ≤ streak (segment ++ older) := by
  induction segment with
  | nil => exact Nat.zero_le _
  | cons x segment ih =>
    obtain ⟨hx, hsegment⟩ := List.forall_mem_cons.mp h
    have hrest := ih hsegment
    rw [List.countP_cons, List.cons_append, streak, if_neg hx]
    cases x.preferred <;> simp <;> omega

/-- At every time at most `k` ntor tasks have been preferred since the last tap task. -/
theorem fair_of_streak {k : ℕ} {log : List (Handed β)} (h : ∀ l, l <:+ log → streak l ≤ k) : Fair k log := by
  rintro segment ⟨newer, older, rfl⟩ hsegment
  refine (countP_le_streak hsegment older).trans (h _ ⟨newer, ?_⟩)
  rw [List.append_assoc]

/-- The fairness counter bounds the streak. -/
structure Balanced (k : ℕ) (counter : ℤ) (log : List (Handed β)) : Prop where
  streak_le_counter : (streak log : ℤ) ≤ counter
  streak_le : ∀ l, l <:+ log → streak l ≤ k

theorem Balanced.cons {k : ℕ} {s : State β} {log : List (Handed β)} {r' : ℤ} {entry : Entry β}
    (h : Balanced k s.recentlyChosenNtors log) (hcounted : Counted k s entry.handshakeType r') :
    Balanced k r' (⟨entry, contested s⟩ :: log) := by
  have hlog := h.streak_le_counter
  have hhead : (streak (⟨entry, contested s⟩ :: log) : ℤ) ≤ r' ∧ streak (⟨entry, contested s⟩ :: log) ≤ k := by
    rw [streak]
    dsimp only
    rcases hcounted with ⟨htap, hr⟩ | ⟨hntor, hfree, hle⟩ | ⟨hntor, hboth, hr, hle⟩
    · rw [if_pos htap]
      refine ⟨?_, Nat.zero_le _⟩
      rcases hr with rfl | ⟨-, rfl⟩ <;> omega
    · have hself := h.streak_le log List.suffix_rfl
      simp only [hntor, hfree, Handed.preferred, Bool.and_false, Bool.toNat_false]
      exact ⟨by split <;> omega, by split <;> omega⟩
    · simp only [hntor, hboth, Handed.preferred, decide_true, Bool.and_true, Bool.toNat_true]
      exact ⟨by split <;> omega, by split <;> omega⟩
  refine ⟨hhead.1, fun l hl => ?_⟩
  rcases List.suffix_cons_iff.mp hl with rfl | hl
  · exact hhead.2
  · exact h.streak_le l hl

theorem Balanced.mono {k : ℕ} {r r' : ℤ} {log : List (Handed β)} (h : Balanced k r log) (hle : r ≤ r') :
    Balanced k r' log := ⟨h.streak_le_counter.trans hle, h.streak_le⟩

/-! ### Runs -/

inductive Event (β : Type) where
  | add (load : Load) (circ : ℕ) (onionskin : CreateCell β) (now : ℤ)
  | nextTask
  | remove (circ : ℕ)

/-- The queue with its history: the entries in the order of their arrival, and the tasks handed out, the
newest first. -/
structure History (β : Type) where
  state : State β
  arrivals : List (Entry β)
  handed : List (Handed β)

/-- One operation.  Only a circuit that is not queued is added. -/
inductive Step (k : ℕ) : History β → Event β → History β → Prop where
  | add {s s' : State β} {arrivals handed load circ onionskin now} {ok : Bool}
      (hfree : s.onionqueueEntry circ = none)
      (hadd : onionPendingAdd k load s circ onionskin now = some (s', ok)) :
      Step k ⟨s, arrivals, handed⟩ (.add load circ onionskin now)
        ⟨s', if ok then arrivals ++ [newEntry s circ onionskin now] else arrivals, handed⟩
  | nextTask {s : State β} {arrivals handed} :
      Step k ⟨s, arrivals, handed⟩ .nextTask
        ⟨(onionNextTask k s).1, arrivals,
          match (onionNextTask k s).2 with
          | none => handed
          | some entry => ⟨entry, contested s⟩ :: handed⟩
  | remove {s s' : State β} {arrivals handed circ} (hremove : onionPendingRemove s circ = some s') :
      Step k ⟨s, arrivals, handed⟩ (.remove circ) ⟨s', arrivals, handed⟩

def History.init : History β :=
  ⟨⟨fun _ => [], fun _ => 0, 0, fun _ => none, fun _ => false, 0⟩, [], []⟩

/-- The tasks of a type that were handed out, the oldest first. -/
def History.handedOf (h : History β) (t : ℕ) : List (Entry β) :=
  (h.handed.reverse.map Handed.entry).filter (·.handshakeType = t)

structure Ok (k : ℕ) (h : History β) : Prop where
  linked : Linked h.state
  arrivals_addr : h.arrivals.map Entry.addr = List.range h.state.allocated
  fifo : ∀ t, Fifo (h.arrivals.filter (·.handshakeType = t)) (h.handedOf t) (h.state.olList t)
  handed_skin : ∀ x ∈ h.handed, x.entry.onionskin.isSome
  handed_once : (h.handed.map (·.entry.addr)).Nodup
  balanced : Balanced k h.state.recentlyChosenNtors h.handed

theorem ok_init (k : ℕ) : Ok k (History.init : History β) where
  linked := by
    constructor <;> intros <;> simp_all [History.init, Keyed]
  arrivals_addr := rfl
  fifo t := Fifo.nil
  handed_skin x hx := by cases hx
  handed_once := List.nodup_nil
  balanced := by
    refine ⟨le_rfl, ?_⟩
    intro l hl
    rw [List.suffix_nil.mp hl]
    exact Nat.zero_le k

/-- Entries that arrived are told apart by where they were allocated. -/
theorem Ok.eq_of_addr {k : ℕ} {h : History β} (hok : Ok k h) {e e' : Entry β} (he : e ∈ h.arrivals)
    (he' : e' ∈ h.arrivals) (haddr : e.addr = e'.addr) : e = e' := by
  have hnodup : (h.arrivals.map Entry.addr).Nodup := hok.arrivals_addr ▸ List.nodup_range
  exact List.inj_on_of_nodup_map hnodup he he' haddr

theorem Ok.mem_arrivals {k : ℕ} {h : History β} (hok : Ok k h) {t : ℕ} {e : Entry β}
    (he : e ∈ h.state.olList t) : e ∈ h.arrivals :=
  List.mem_of_mem_filter ((hok.fifo t).waiting_sublist.subset he)

theorem Ok.handed_mem_arrivals {k : ℕ} {h : History β} (hok : Ok k h) {x : Handed β} (hx : x ∈ h.handed) :
    x.entry ∈ h.arrivals := by
  have hmem : x.entry ∈ h.handedOf x.entry.handshakeType := by
    unfold History.handedOf
    rw [List.mem_filter]
    exact ⟨List.mem_map_of_mem (List.mem_reverse.mpr hx), by simp⟩
  exact List.mem_of_mem_filter ((hok.fifo _).served_sublist.subset hmem)

section Steps

variable {k : ℕ} {s s' : State β} {arrivals : List (Entry β)} {handed : List (Handed β)}

theorem Ok.trim (h : Ok k ⟨s, arrivals, handed⟩) (hlinked : Linked s') (htrim : Trimmed s s') :
    Ok k ⟨s', arrivals, handed⟩ where
  linked := hlinked
  arrivals_addr := by
    show arrivals.map Entry.addr = List.range s'.allocated
    rw [htrim.allocated_eq]
    exact h.arrivals_addr
  fifo t := (h.fifo t).leave (htrim.sublist t)
  handed_skin := h.handed_skin
  handed_once := h.handed_once
  balanced := by
    show Balanced k s'.recentlyChosenNtors handed
    rw [htrim.counter_eq]
    exact h.balanced

theorem Ok.enqueue (h : Ok k ⟨s, arrivals, handed⟩) {circ : ℕ} {onionskin : CreateCell β} {now : ℤ}
    (hlinked : Linked (enqueue s (newEntry s circ onionskin now))) :
    Ok k ⟨enqueue s (newEntry s circ onionskin now), arrivals ++ [newEntry s circ onionskin now], handed⟩ where
  linked := hlinked
  arrivals_addr := by
    show (arrivals ++ [newEntry s circ onionskin now]).map Entry.addr = List.range (s.allocated + 1)
    have hold : arrivals.map Entry.addr = List.range s.allocated := h.arrivals_addr
    rw [List.map_append, List.range_succ, hold]
    rfl
  fifo t := by
    have hold := h.fifo t
    dsimp only
    rw [List.filter_append, olList_enqueue,
      show (newEntry s circ onionskin now).handshakeType = onionskin.handshakeType from rfl]
    by_cases heq : t = onionskin.handshakeType
    · subst heq
      rw [List.filter_cons_of_pos (by simp [newEntry]), List.filter_nil, Function.update_self]
      exact hold.arrive _
    · have hother : [newEntry s circ onionskin now].filter (·.handshakeType = t) = [] := by
        simp [newEntry, Ne.symm heq]
      rw [Function.update_of_ne heq, hother, List.append_nil]
      exact hold
  handed_skin := h.handed_skin
  handed_once := h.handed_once
  balanced := h.balanced

theorem Ok.serve (h : Ok k ⟨s, arrivals, handed⟩) {t : ℕ} {head : Entry β} {rest : List (Entry β)} {r' : ℤ}
    (hlist : s.olList t = head :: rest) (hcounted : Counted k s t r') :
    Ok k ⟨unlink { s with recentlyChosenNtors := r' } head, arrivals, ⟨head, contested s⟩ :: handed⟩ := by
  have hlinked : Linked { s with recentlyChosenNtors := r' } := h.linked.congr rfl rfl rfl rfl
  have hmem : head ∈ s.olList t := hlist ▸ List.mem_cons_self
  obtain ⟨rfl, hmax, hskin⟩ := h.linked.typed t head hmem
  refine ⟨hlinked.unlink hmem, h.arrivals_addr, ?_, List.forall_mem_cons.mpr ⟨hskin, h.handed_skin⟩, ?_,
    h.balanced.cons hcounted⟩
  · intro t
    have hold := h.fifo t
    unfold History.handedOf
    dsimp only
    rw [olList_unlink, List.reverse_cons, List.map_append, List.filter_append]
    by_cases heq : t = head.handshakeType
    · subst heq
      rw [show (s.olList head.handshakeType) = head :: rest from hlist] at hold
      rw [Function.update_self, hlist, List.eraseP_cons_of_pos (by simp), List.map_singleton,
        List.filter_cons_of_pos (by simp), List.filter_nil]
      exact hold.serve
    · rw [Function.update_of_ne heq, List.map_singleton, List.filter_cons_of_neg (by simpa using Ne.symm heq),
        List.filter_nil, List.append_nil]
      exact hold
  · rw [List.map_cons, List.nodup_cons]
    refine ⟨?_, h.handed_once⟩
    intro hagain
    obtain ⟨x, hx, haddr⟩ := List.mem_map.mp hagain
    have hsame : x.entry = head := h.eq_of_addr (h.handed_mem_arrivals hx) (h.mem_arrivals hmem) haddr
    have hnodup := (h.fifo head.handshakeType).nodup Entry.addr
      (((h.arrivals_addr ▸ List.nodup_range : (arrivals.map Entry.addr).Nodup)).sublist
        (List.filter_sublist.map _))
    rw [List.map_append, List.nodup_append] at hnodup
    have hserved : head ∈ (⟨s, arrivals, handed⟩ : History β).handedOf head.handshakeType := by
      unfold History.handedOf
      rw [List.mem_filter]
      exact ⟨hsame ▸ List.mem_map_of_mem (List.mem_reverse.mpr hx), by simp⟩
    exact hnodup.2.2 _ (List.mem_map_of_mem hserved) _ (List.mem_map_of_mem hmem) rfl

end Steps

/-- **One operation.** -/
theorem Ok.step {k : ℕ} {h h' : History β} {e : Event β} (hok : Ok k h) (hstep : Step k h e h') : Ok k h' := by
  cases hstep with
  | @add s s' arrivals handed load circ onionskin now ok hfree hadd =>
    rcases onionPendingAdd_cases hok.linked k load hfree onionskin now with href | ⟨s'', hacc, hlinked, htrim⟩
    · rw [href] at hadd
      cases hadd
      exact hok
    · rw [hacc] at hadd
      cases hadd
      rw [if_pos rfl]
      have htype : onionskin.handshakeType ≤ maxOnionHandshakeType := by
        by_contra hlt
        unfold onionPendingAdd at hacc
        rw [if_pos (not_le.mp hlt)] at hacc
        simp at hacc
      exact (hok.enqueue (hok.linked.enqueue htype rfl rfl hfree)).trim hlinked htrim
  | @nextTask s arrivals handed =>
    obtain ⟨r', type, hcounted, ⟨hle, hnone⟩ | ⟨head, rest, hlist, htake⟩⟩ := onionNextTask_cases hok.linked k
    · rw [hnone]
      exact ⟨hok.linked.congr rfl rfl rfl rfl, hok.arrivals_addr, hok.fifo, hok.handed_skin, hok.handed_once,
        hok.balanced.mono hle⟩
    · rw [htake]
      exact hok.serve hlist hcounted
  | @remove s s' arrivals handed circ hremove =>
    rcases onionPendingRemove_cases hok.linked circ with hsame | ⟨t, e, he, hunlink⟩
    · rw [hsame] at hremove
      cases hremove
      exact hok
    · rw [hunlink] at hremove
      cases hremove
      exact hok.trim (hok.linked.unlink he) (trimmed_unlink s e)

/-- What holds of the queue after any operations. -/
structure Integrity (k : ℕ) (h : History β) : Prop where
  /-- The counts are right. -/
  entries_eq : ∀ t, h.state.olEntries t = (h.state.olList t).length
  /-- A circuit points to its entry iff it is queued. -/
  pointer_iff : ∀ c a, h.state.onionqueueEntry c = some a ↔
    ∃ t, ∃ e ∈ h.state.olList t, e.circ = c ∧ e.addr = a
  /-- No operation follows a dangling pointer or reads the first entry of an empty list. -/
  add_isSome : ∀ load circ onionskin now, h.state.onionqueueEntry circ = none →
    (onionPendingAdd k load h.state circ onionskin now).isSome
  remove_isSome : ∀ circ, (onionPendingRemove h.state circ).isSome
  /-- The tasks of a type were handed out in the order in which they arrived. -/
  arrivals_addr : h.arrivals.map Entry.addr = List.range h.state.allocated
  handed_sublist : ∀ t, (h.handedOf t).Sublist (h.arrivals.filter (·.handshakeType = t))
  /-- Each with its onionskin, and none twice. -/
  handed_skin : ∀ x ∈ h.handed, x.entry.onionskin.isSome
  handed_once : (h.handed.map (·.entry.addr)).Nodup
  /-- At most `k` ntor tasks were handed out in succession while tap tasks were waiting. -/
  fair : Fair k h.handed

/-- **Every run.** -/
theorem integrity_of_events {k : ℕ} {es : List (Event β)} {h : History β}
    (hrun : Run (Step k) History.init es h) : Integrity k h := by
  have hok : Ok k h := hrun.invariant (I := Ok k) (fun _ _ _ hok hstep => hok.step hstep) (ok_init k)
  refine ⟨hok.linked.entries_eq, hok.linked.pointer_iff, ?_, ?_, hok.arrivals_addr,
    fun t => (hok.fifo t).served_sublist, hok.handed_skin, hok.handed_once,
      fair_of_streak hok.balanced.streak_le⟩
  · intro load circ onionskin now hfree
    rcases onionPendingAdd_cases hok.linked k load hfree onionskin now with href | ⟨s', hacc, -⟩
    · rw [href]
      rfl
    · rw [hacc]
      rfl
  · intro circ
    rcases onionPendingRemove_cases hok.linked circ with hsame | ⟨t, e, he, hunlink⟩
    · rw [hsame]
      rfl
    · rw [hunlink]
      rfl

/-- Two circuits of each type are queued; one is removed, and the tasks of the others are handed out. -/
theorem integrity_of_events_served :
    ∃ h, Run (Step 10) (History.init : History Unit)
        [.add ⟨1, fun _ _ => 0, 0⟩ 7 ⟨onionHandshakeTypeNtor, ()⟩ 0,
          .add ⟨1, fun _ _ => 0, 0⟩ 8 ⟨onionHandshakeTypeTap, ()⟩ 0,
          .add ⟨1, fun _ _ => 0, 0⟩ 9 ⟨onionHandshakeTypeNtor, ()⟩ 0,
          .add ⟨1, fun _ _ => 0, 0⟩ 10 ⟨onionHandshakeTypeTap, ()⟩ 0,
          .remove 8, .nextTask, .nextTask, .nextTask] h ∧
      h.handed.map (fun x => (x.entry.circ, x.contested)) = [(10, false), (9, true), (7, true)] ∧
        Integrity 10 h := by
  have hrun : Run (Step 10) (History.init : History Unit)
      [.add ⟨1, fun _ _ => 0, 0⟩ 7 ⟨onionHandshakeTypeNtor, ()⟩ 0,
        .add ⟨1, fun _ _ => 0, 0⟩ 8 ⟨onionHandshakeTypeTap, ()⟩ 0,
        .add ⟨1, fun _ _ => 0, 0⟩ 9 ⟨onionHandshakeTypeNtor, ()⟩ 0,
        .add ⟨1, fun _ _ => 0, 0⟩ 10 ⟨onionHandshakeTypeTap, ()⟩ 0,
        .remove 8, .nextTask, .nextTask, .nextTask] _ :=
    .cons (.add rfl rfl) (.cons (.add rfl rfl) (.cons (.add rfl rfl)
      (.cons (.add rfl rfl) (.cons (.remove rfl) (.cons .nextTask (.cons .nextTask
        (.cons .nextTask (.nil _))))))))
  exact ⟨_, hrun, rfl, integrity_of_events hrun⟩

end TorEbpf.Relay
