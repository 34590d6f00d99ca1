import Mathlib.Data.Int.Order.Basic
import Mathlib.Data.List.Basic
import Mathlib.Logic.Function.Basic
import Mathlib.Order.Basic
import Mathlib.Order.Defs.Unbundled
import Mathlib.Tactic.Common

/-!
# Entry guards

The guards of a selection: which has the higher priority, when one that could not be reached is tried again,
how the primary guards are chosen and whether all of them are down.

* `isStrictWeakOrder_entryGuardHasHigherPriority` — the priority is a strict weak order;
* `sameGuards_updatePrimary`, `sameGuards_allPrimaryGuardsAreDown` — choosing and trying the primary guards
  changes nothing that the priority or a restriction depends on.
-/

namespace TorEbpf.Client

/-! ### Guards -/

/-- The `GUARD_REACHABLE_*` values. -/
inductive GuardReachable where
  | no
  | yes
  | maybe
  deriving DecidableEq, Repr

/-- `entry_guard_t`; `δ` are identity digests and `α` are addresses. -/
structure EntryGuard (δ α : Type) where
  identity : δ
  bridgeAddr : Option α
  sampledIdx : ℤ
  /-- Negative if the guard is not confirmed. -/
  confirmedIdx : ℤ
  lastTriedToConnect : ℤ
  isReachable : GuardReachable
  isPending : Bool
  failingSince : ℤ
  isFilteredGuard : Bool
  isUsableFilteredGuard : Bool
  isPrimary : Bool
  /-- The selection that the guard belongs to. -/
  inSelection : ℕ

/-- A pointer to a guard: one that was there, or the `n`-th one that was added to a sample since. -/
inductive GuardPtr (ι : Type) where
  | there (i : ι)
  | added (n : ℕ)
  deriving DecidableEq, Repr

/-- `guard_selection_t`, with the memory of the guards. -/
structure GuardSelection (ι δ α : Type) where
  self : ℕ
  guards : GuardPtr ι → EntryGuard δ α
  allocated : ℕ
  sampledEntryGuards : List (GuardPtr ι)
  confirmedEntryGuards : List (GuardPtr ι)
  primaryEntryGuards : List (GuardPtr ι)
  primaryGuardsUpToDate : Bool
  nextSampledIdx : ℤ

/-- What a guard is made of that is drawn from the relays or the bridges. -/
structure GuardDraw (δ α : Type) where
  identity : δ
  bridgeAddr : Option α
  /-- `entry_guard_passes_filter`. -/
  passesFilter : Bool

/-- `entry_guard_restriction_t`. -/
inductive GuardRestriction (δ : Type) where
  | exitNode (excludeId : δ)
  | outdatedMdDirserver
  deriving DecidableEq, Repr

/-- What the guards depend on from outside: parameters of the network, families and directory servers. -/
structure GuardEnv (δ α : Type) where
  nPrimaryGuards : ℕ
  minFilteredSampleSize : ℕ
  maxSampleSize : ℕ
  nonprimaryGuardConnectTimeout : ℤ
  /-- `reasonably_live_consensus_is_missing`. -/
  consensusIsMissing : Bool
  /-- The guards that can be added to the sample once some were added, as they are drawn one after the
  other. -/
  eligibleGuards : ℕ → List (GuardDraw δ α)
  /-- `guard_in_node_family` of the guard with an identity and address and the node with an identity; false
  if there is no such node. -/
  guardInNodeFamily : δ → Option α → δ → Bool
  /-- `microdesc_relay_is_outdated_dirserver`. -/
  isOutdatedDirserver : δ → Bool

variable {ι δ α : Type} [DecidableEq ι]

def guardObeysExitRestriction [DecidableEq δ] (env : GuardEnv δ α) (guard : EntryGuard δ α)
    (excludeId : δ) : Bool :=
  if env.guardInNodeFamily guard.identity guard.bridgeAddr excludeId then false
  else guard.identity ≠ excludeId

def guardObeysMdDirserverRestriction (env : GuardEnv δ α) (guard : EntryGuard δ α) : Bool :=
  !env.isOutdatedDirserver guard.identity

def entryGuardObeysRestriction [DecidableEq δ] (env : GuardEnv δ α) (guard : EntryGuard δ α) :
    Option (GuardRestriction δ) → Bool
  | none => true
  | some (.exitNode excludeId) => guardObeysExitRestriction env guard excludeId
  | some .outdatedMdDirserver => guardObeysMdDirserverRestriction env guard

/-- `entry_guard_has_higher_priority` of the guards that two pointers point to. -/
def entryGuardHasHigherPriority (guards : GuardPtr ι → EntryGuard δ α) (a b : GuardPtr ι) : Bool :=
  if a = b then false
  else if (guards a).confirmedIdx < 0 then
    if 0 ≤ (guards b).confirmedIdx then false
    else if (guards a).isPending then
      if !(guards b).isPending then true
      else (guards a).lastTriedToConnect < (guards b).lastTriedToConnect
    else false
  else if (guards b).confirmedIdx < 0 then true
  else (guards a).confirmedIdx < (guards b).confirmedIdx

/-! ### Trying again -/

def getRetrySchedule (failingSince now : ℤ) (isPrimary : Bool) : ℤ :=
  let tdiff := if failingSince < now then now - failingSince else 0
  if tdiff ≤ 6 * 3600 then if isPrimary then 10 * 60 else 1 * 60 * 60
  else if tdiff ≤ 4 * 86400 then if isPrimary then 90 * 60 else 4 * 60 * 60
  else if tdiff ≤ 7 * 86400 then if isPrimary then 4 * 60 * 60 else 18 * 60 * 60
  else if isPrimary then 9 * 60 * 60 else 36 * 60 * 60

def entryGuardConsiderRetry (now : ℤ) (guard : EntryGuard δ α) : EntryGuard δ α :=
  if guard.isReachable ≠ .no then guard
  else if guard.lastTriedToConnect = 0 ∨
      guard.lastTriedToConnect + getRetrySchedule guard.failingSince now guard.isPrimary ≤ now then
    { guard with
      isReachable := .maybe
      isUsableFilteredGuard := guard.isUsableFilteredGuard || guard.isFilteredGuard }
  else guard

def GuardSelection.modify (gs : GuardSelection ι δ α) (i : GuardPtr ι)
    (f : EntryGuard δ α → EntryGuard δ α) : GuardSelection ι δ α :=
  { gs with guards := Function.update gs.guards i (f (gs.guards i)) }

/-- `entry_guard_consider_retry` for every sampled guard. -/
def considerRetryAll (now : ℤ) (gs : GuardSelection ι δ α) : GuardSelection ι δ α :=
  gs.sampledEntryGuards.foldl (fun gs i => gs.modify i (entryGuardConsiderRetry now)) gs

/-! ### The sample -/

/-- `num_reachable_filtered_guards` without a restriction. -/
def numReachableFilteredGuards (gs : GuardSelection ι δ α) : ℕ :=
  (gs.sampledEntryGuards.filter fun i => (gs.guards i).isUsableFilteredGuard).length

/-- `entry_guard_add_to_sample_impl`; the flags are those that `entry_guard_set_filtered_flags` gives a
guard that may be reachable. -/
def entryGuardAddToSample (gs : GuardSelection ι δ α) (draw : GuardDraw δ α) : GuardSelection ι δ α :=
  let guard : EntryGuard δ α :=
    { identity := draw.identity
      bridgeAddr := draw.bridgeAddr
      sampledIdx := gs.nextSampledIdx
      confirmedIdx := -1
      lastTriedToConnect := 0
      isReachable := .maybe
      isPending := false
      failingSince := 0
      isFilteredGuard := draw.passesFilter
      isUsableFilteredGuard := draw.passesFilter
      isPrimary := false
      inSelection := gs.self }
  { gs with
    guards := Function.update gs.guards (.added gs.allocated) guard
    allocated := gs.allocated + 1
    sampledEntryGuards := gs.sampledEntryGuards ++ [.added gs.allocated]
    primaryGuardsUpToDate := if draw.passesFilter then false else gs.primaryGuardsUpToDate
    nextSampledIdx := gs.nextSampledIdx + 1 }

def expandSampleLoop (env : GuardEnv δ α) :
    ℕ → ℕ → List (GuardDraw δ α) → GuardSelection ι δ α → GuardSelection ι δ α
  | _, _, [], gs => gs
  | nSampled, nUsable, draw :: draws, gs =>
    if env.minFilteredSampleSize ≤ nUsable then gs
    else if env.maxSampleSize ≤ nSampled then gs
    else
      expandSampleLoop env (nSampled + 1) (if draw.passesFilter then nUsable + 1 else nUsable) draws
        (entryGuardAddToSample gs draw)

def entryGuardsExpandSample (env : GuardEnv δ α) (now : ℤ) (gs : GuardSelection ι δ α) :
    GuardSelection ι δ α :=
  if env.consensusIsMissing then gs
  else
    let gs := considerRetryAll now gs
    expandSampleLoop env gs.sampledEntryGuards.length (numReachableFilteredGuards gs)
      (env.eligibleGuards gs.allocated) gs

/-- `first_reachable_filtered_entry_guard` without a restriction, for guards that are neither confirmed nor
primary, and without an update of the primary guards. -/
def firstReachableFilteredEntryGuard (env : GuardEnv δ α) (now : ℤ) (gs : GuardSelection ι δ α) :
    Option (GuardPtr ι) × GuardSelection ι δ α :=
  let gs := considerRetryAll now gs
  let gs :=
    if numReachableFilteredGuards gs < env.minFilteredSampleSize then entryGuardsExpandSample env now gs
    else gs
  let gs := considerRetryAll now gs
  (gs.sampledEntryGuards.find? fun i =>
    (gs.guards i).isUsableFilteredGuard && !decide (0 ≤ (gs.guards i).confirmedIdx) &&
      !(gs.guards i).isPrimary, gs)

/-! ### The primary guards -/

def setPrimary (primary : Bool) (guard : EntryGuard δ α) : EntryGuard δ α :=
  { guard with isPrimary := primary }

def confirmedPrimaries (n : ℕ) : List (GuardPtr ι) → List (GuardPtr ι) → GuardSelection ι δ α →
    List (GuardPtr ι) × GuardSelection ι δ α
  | [], new, gs => (new, gs)
  | i :: l, new, gs =>
    if n ≤ new.length then (new, gs)
    else if (gs.guards i).isFilteredGuard then
      confirmedPrimaries n l (new ++ [i]) (gs.modify i (setPrimary true))
    else confirmedPrimaries n l new gs

def olderPrimaries (n : ℕ) : List (GuardPtr ι) → List (GuardPtr ι) → GuardSelection ι δ α →
    List (GuardPtr ι) × GuardSelection ι δ α
  | [], new, gs => (new, gs)
  | i :: l, new, gs =>
    if i ∈ new then olderPrimaries n l new gs
    else if new.length < n ∧ (gs.guards i).isFilteredGuard then
      olderPrimaries n l (new ++ [i]) (gs.modify i (setPrimary true))
    else olderPrimaries n l new (gs.modify i (setPrimary false))

def sampledPrimaries (env : GuardEnv δ α) (now : ℤ) : ℕ → List (GuardPtr ι) → GuardSelection ι δ α →
    List (GuardPtr ι) × GuardSelection ι δ α
  | 0, new, gs => (new, gs)
  | room + 1, new, gs =>
    match firstReachableFilteredEntryGuard env now gs with
    | (none, gs) => (new, gs)
    | (some i, gs) => sampledPrimaries env now room (new ++ [i]) (gs.modify i (setPrimary true))

def entryGuardsUpdatePrimary (env : GuardEnv δ α) (now : ℤ) (gs : GuardSelection ι δ α) :
    GuardSelection ι δ α :=
  let old := gs.primaryEntryGuards
  let gs := { gs with primaryGuardsUpToDate := true }
  let (new, gs) := confirmedPrimaries env.nPrimaryGuards gs.confirmedEntryGuards [] gs
  let (new, gs) := olderPrimaries env.nPrimaryGuards old new gs
  let (new, gs) := sampledPrimaries env now (env.nPrimaryGuards - new.length) new gs
  let new :=
    if old ≠ new then new.mergeSort fun i j => (gs.guards i).sampledIdx ≤ (gs.guards j).sampledIdx
    else new
  { gs with primaryEntryGuards := new, primaryGuardsUpToDate := true }

/-- The loop of `entry_guards_all_primary_guards_are_down`. -/
def allDownLoop (now : ℤ) : List (GuardPtr ι) → GuardSelection ι δ α → Bool × GuardSelection ι δ α
  | [], gs => (true, gs)
  | i :: l, gs =>
    let gs := gs.modify i (entryGuardConsiderRetry now)
    if (gs.guards i).isReachable ≠ .no then (false, gs) else allDownLoop now l gs

def entryGuardsAllPrimaryGuardsAreDown (env : GuardEnv δ α) (now : ℤ) (gs : GuardSelection ι δ α) :
    Bool × GuardSelection ι δ α :=
  let gs := if gs.primaryGuardsUpToDate then gs else entryGuardsUpdatePrimary env now gs
  allDownLoop now gs.primaryEntryGuards gs

/-! ### The priority -/

/-- A pending guard comes before one that is not, and the one tried earlier before the one tried later. -/
theorem entryGuardHasHigherPriority_iff (guards : GuardPtr ι → EntryGuard δ α) (a b : GuardPtr ι) :
    entryGuardHasHigherPriority guards a b = true ↔
      (0 ≤ (guards a).confirmedIdx ∧
        ((guards b).confirmedIdx < 0 ∨ (guards a).confirmedIdx < (guards b).confirmedIdx)) ∨
      ((guards a).confirmedIdx < 0 ∧ (guards b).confirmedIdx < 0 ∧ (guards a).isPending = true ∧
        ((guards b).isPending = false ∨
          (guards a).lastTriedToConnect < (guards b).lastTriedToConnect)) := by
  unfold entryGuardHasHigherPriority
  by_cases hab : a = b
  · subst hab
    rw [if_pos rfl]
    constructor
    · intro h
      cases h
    · rintro (⟨h0, h | h⟩ | ⟨_, _, hp, h | h⟩)
      · omega
      · omega
      · rw [hp] at h
        cases h
      · exact absurd h (lt_irrefl _)
  · rw [if_neg hab]
    grind

/-- **The priority of guards is a strict weak order.** -/
theorem isStrictWeakOrder_entryGuardHasHigherPriority (guards : GuardPtr ι → EntryGuard δ α) :
    IsStrictWeakOrder (GuardPtr ι) fun a b => entryGuardHasHigherPriority guards a b = true where
  irrefl := by
    intro a h
    unfold entryGuardHasHigherPriority at h
    rw [if_pos rfl] at h
    cases h
  trans := by
    intro a b c hab hbc
    rw [entryGuardHasHigherPriority_iff] at hab hbc ⊢
    grind
  incomp_trans := by
    intro a b c hab hbc
    simp only [entryGuardHasHigherPriority_iff] at hab hbc ⊢
    grind

/-! ### What the primary guards do not change -/

/-- What the priority and the restrictions depend on is the same. -/
structure SameGuard (g g' : EntryGuard δ α) : Prop where
  identity : g'.identity = g.identity
  bridgeAddr : g'.bridgeAddr = g.bridgeAddr
  confirmedIdx : g'.confirmedIdx = g.confirmedIdx
  isPending : g'.isPending = g.isPending
  lastTriedToConnect : g'.lastTriedToConnect = g.lastTriedToConnect
  inSelection : g'.inSelection = g.inSelection

theorem SameGuard.refl (g : EntryGuard δ α) : SameGuard g g := ⟨rfl, rfl, rfl, rfl, rfl, rfl⟩

theorem SameGuard.trans {g₁ g₂ g₃ : EntryGuard δ α} (h₁ : SameGuard g₁ g₂) (h₂ : SameGuard g₂ g₃) :
    SameGuard g₁ g₃ where
  identity := h₂.identity.trans h₁.identity
  bridgeAddr := h₂.bridgeAddr.trans h₁.bridgeAddr
  confirmedIdx := h₂.confirmedIdx.trans h₁.confirmedIdx
  isPending := h₂.isPending.trans h₁.isPending
  lastTriedToConnect := h₂.lastTriedToConnect.trans h₁.lastTriedToConnect
  inSelection := h₂.inSelection.trans h₁.inSelection

theorem SameGuard.obeys [DecidableEq δ] {g g' : EntryGuard δ α} (h : SameGuard g g') (env : GuardEnv δ α)
    (rst : Option (GuardRestriction δ)) :
    entryGuardObeysRestriction env g' rst = entryGuardObeysRestriction env g rst := by
  unfold entryGuardObeysRestriction guardObeysExitRestriction guardObeysMdDirserverRestriction
  rw [h.identity, h.bridgeAddr]

structure SameGuards (gs gs' : GuardSelection ι δ α) : Prop where
  self : gs'.self = gs.self
  guard : ∀ i : ι, SameGuard (gs.guards (.there i)) (gs'.guards (.there i))

variable {gs gs' : GuardSelection ι δ α}

omit [DecidableEq ι] in
theorem SameGuards.refl (gs : GuardSelection ι δ α) : SameGuards gs gs := ⟨rfl, fun _ => .refl _⟩

omit [DecidableEq ι] in
theorem SameGuards.trans {gs₁ gs₂ gs₃ : GuardSelection ι δ α} (h₁ : SameGuards gs₁ gs₂)
    (h₂ : SameGuards gs₂ gs₃) : SameGuards gs₁ gs₃ :=
  ⟨h₂.self.trans h₁.self, fun i => (h₁.guard i).trans (h₂.guard i)⟩

theorem SameGuards.higherPriority (h : SameGuards gs gs') (i j : ι) :
    entryGuardHasHigherPriority gs'.guards (.there i) (.there j) =
      entryGuardHasHigherPriority gs.guards (.there i) (.there j) := by
  unfold entryGuardHasHigherPriority
  rw [(h.guard i).confirmedIdx, (h.guard j).confirmedIdx, (h.guard i).isPending, (h.guard j).isPending,
    (h.guard i).lastTriedToConnect, (h.guard j).lastTriedToConnect]

theorem sameGuard_considerRetry (now : ℤ) (g : EntryGuard δ α) :
    SameGuard g (entryGuardConsiderRetry now g) := by
  unfold entryGuardConsiderRetry
  split
  · exact .refl g
  · split
    · exact ⟨rfl, rfl, rfl, rfl, rfl, rfl⟩
    · exact .refl g

theorem sameGuard_setPrimary (primary : Bool) (g : EntryGuard δ α) : SameGuard g (setPrimary primary g) :=
  ⟨rfl, rfl, rfl, rfl, rfl, rfl⟩

theorem sameGuards_modify {f : EntryGuard δ α → EntryGuard δ α} (hf : ∀ g, SameGuard g (f g))
    (gs : GuardSelection ι δ α) (i : GuardPtr ι) : SameGuards gs (gs.modify i f) where
  self := rfl
  guard := by
    intro j
    show SameGuard _ (Function.update gs.guards i (f (gs.guards i)) (.there j))
    by_cases hj : .there j = i
    · subst hj
      rw [Function.update_self]
      exact hf _
    · rw [Function.update_of_ne hj]
      exact .refl _

theorem sameGuards_considerRetryAll (now : ℤ) (gs : GuardSelection ι δ α) :
    SameGuards gs (considerRetryAll now gs) := by
  unfold considerRetryAll
  suffices ∀ (l : List (GuardPtr ι)) (gs : GuardSelection ι δ α),
      SameGuards gs (l.foldl (fun gs i => gs.modify i (entryGuardConsiderRetry now)) gs) from this _ gs
  intro l
  induction l with
  | nil => exact SameGuards.refl
  | cons i l ih =>
    intro gs
    exact (sameGuards_modify (sameGuard_considerRetry now) gs i).trans (ih _)

theorem sameGuards_addToSample (gs : GuardSelection ι δ α) (draw : GuardDraw δ α) :
    SameGuards gs (entryGuardAddToSample gs draw) where
  self := rfl
  guard := by
    intro j
    unfold entryGuardAddToSample
    dsimp only
    rw [Function.update_of_ne fun he => by cases he]
    exact .refl _

theorem sameGuards_expandSampleLoop (env : GuardEnv δ α) (draws : List (GuardDraw δ α)) :
    ∀ (nSampled nUsable : ℕ) (gs : GuardSelection ι δ α),
      SameGuards gs (expandSampleLoop env nSampled nUsable draws gs) := by
  induction draws with
  | nil =>
    intro nSampled nUsable gs
    exact .refl gs
  | cons draw draws ih =>
    intro nSampled nUsable gs
    unfold expandSampleLoop
    split
    · exact .refl gs
    · split
      · exact .refl gs
      · exact (sameGuards_addToSample gs draw).trans (ih _ _ _)

theorem sameGuards_expandSample (env : GuardEnv δ α) (now : ℤ) (gs : GuardSelection ι δ α) :
    SameGuards gs (entryGuardsExpandSample env now gs) := by
  unfold entryGuardsExpandSample
  split
  · exact .refl gs
  · exact (sameGuards_considerRetryAll now gs).trans (sameGuards_expandSampleLoop env _ _ _ _)

theorem sameGuards_firstReachable (env : GuardEnv δ α) (now : ℤ) (gs : GuardSelection ι δ α) :
    SameGuards gs (firstReachableFilteredEntryGuard env now gs).2 := by
  unfold firstReachableFilteredEntryGuard
  dsimp only
  have hretry := sameGuards_considerRetryAll now gs
  split
  · exact (hretry.trans (sameGuards_expandSample env now _)).trans (sameGuards_considerRetryAll now _)
  · exact hretry.trans (sameGuards_considerRetryAll now _)

theorem sameGuards_confirmedPrimaries (n : ℕ) (l : List (GuardPtr ι)) :
    ∀ (new : List (GuardPtr ι)) (gs : GuardSelection ι δ α),
      SameGuards gs (confirmedPrimaries n l new gs).2 := by
  induction l with
  | nil =>
    intro new gs
    exact .refl gs
  | cons i l ih =>
    intro new gs
    unfold confirmedPrimaries
    split
    · exact .refl gs
    · split
      · exact (sameGuards_modify (sameGuard_setPrimary true) gs i).trans (ih _ _)
      · exact ih _ _

theorem sameGuards_olderPrimaries (n : ℕ) (l : List (GuardPtr ι)) :
    ∀ (new : List (GuardPtr ι)) (gs : GuardSelection ι δ α),
      SameGuards gs (olderPrimaries n l new gs).2 := by
  induction l with
  | nil =>
    intro new gs
    exact .refl gs
  | cons i l ih =>
    intro new gs
    unfold olderPrimaries
    split
    · exact ih _ _
    · split
      · exact (sameGuards_modify (sameGuard_setPrimary true) gs i).trans (ih _ _)
      · exact (sameGuards_modify (sameGuard_setPrimary false) gs i).trans (ih _ _)

theorem sameGuards_sampledPrimaries (env : GuardEnv δ α) (now : ℤ) (room : ℕ) :
    ∀ (new : List (GuardPtr ι)) (gs : GuardSelection ι δ α),
      SameGuards gs (sampledPrimaries env now room new gs).2 := by
  induction room with
  | zero =>
    intro new gs
    exact .refl gs
  | succ room ih =>
    intro new gs
    have hfirst := sameGuards_firstReachable env now gs
    unfold sampledPrimaries
    split
    · rename_i gs' heq
      rw [heq] at hfirst
      exact hfirst
    · rename_i i gs' heq
      rw [heq] at hfirst
      exact (hfirst.trans (sameGuards_modify (sameGuard_setPrimary true) gs' i)).trans (ih _ _)

/-- **Choosing the primary guards** changes no priority. -/
theorem sameGuards_updatePrimary (env : GuardEnv δ α) (now : ℤ) (gs : GuardSelection ι δ α) :
    SameGuards gs (entryGuardsUpdatePrimary env now gs) := by
  unfold entryGuardsUpdatePrimary
  dsimp only
  have hconfirmed := sameGuards_confirmedPrimaries env.nPrimaryGuards gs.confirmedEntryGuards []
    { gs with primaryGuardsUpToDate := true }
  generalize confirmedPrimaries env.nPrimaryGuards gs.confirmedEntryGuards []
    { gs with primaryGuardsUpToDate := true } = r₁ at hconfirmed ⊢
  have holder := hconfirmed.trans
    (sameGuards_olderPrimaries env.nPrimaryGuards gs.primaryEntryGuards r₁.1 r₁.2)
  generalize olderPrimaries env.nPrimaryGuards gs.primaryEntryGuards r₁.1 r₁.2 = r₂ at holder ⊢
  have hsampled := holder.trans
    (sameGuards_sampledPrimaries env now (env.nPrimaryGuards - r₂.1.length) r₂.1 r₂.2)
  exact ⟨hsampled.self, hsampled.guard⟩

theorem sameGuards_allDownLoop (now : ℤ) (l : List (GuardPtr ι)) :
    ∀ gs : GuardSelection ι δ α, SameGuards gs (allDownLoop now l gs).2 := by
  induction l with
  | nil => exact SameGuards.refl
  | cons i l ih =>
    intro gs
    have hretry := sameGuards_modify (sameGuard_considerRetry now) gs i
    unfold allDownLoop
    dsimp only
    split
    · exact hretry
    · exact hretry.trans (ih _)

/-- **Trying the primary guards** changes no priority. -/
theorem sameGuards_allPrimaryGuardsAreDown (env : GuardEnv δ α) (now : ℤ) (gs : GuardSelection ι δ α) :
    SameGuards gs (entryGuardsAllPrimaryGuardsAreDown env now gs).2 := by
  unfold entryGuardsAllPrimaryGuardsAreDown
  dsimp only
  split
  · exact sameGuards_allDownLoop now _ gs
  · exact (sameGuards_updatePrimary env now gs).trans (sameGuards_allDownLoop now _ _)

/-! ### All down -/

/-- A guard that is down after a try is left as it is by the next. -/
theorem considerRetry_of_down {now : ℤ} {g : EntryGuard δ α}
    (h : (entryGuardConsiderRetry now g).isReachable = .no) : entryGuardConsiderRetry now g = g := by
  unfold entryGuardConsiderRetry at h ⊢
  split at h
  · rename_i hne
    rw [if_pos hne]
  · rename_i hne
    rw [if_neg hne]
    split at h
    · cases h
    · rename_i hlate
      rw [if_neg hlate]

theorem allDownLoop_down (now : ℤ) (l : List (GuardPtr ι)) :
    ∀ {gs gs' : GuardSelection ι δ α}, allDownLoop now l gs = (true, gs') →
      gs' = gs ∧ ∀ i ∈ l, (gs.guards i).isReachable = .no := by
  induction l with
  | nil =>
    intro gs gs' h
    cases h
    exact ⟨rfl, fun i hi => by cases hi⟩
  | cons i l ih =>
    intro gs gs' h
    unfold allDownLoop at h
    dsimp only at h
    split at h
    · cases h
    · rename_i hdown
      have hreach : (entryGuardConsiderRetry now (gs.guards i)).isReachable = .no := by
        have hguard : (gs.modify i (entryGuardConsiderRetry now)).guards i =
            entryGuardConsiderRetry now (gs.guards i) := Function.update_self _ _ _
        rw [hguard] at hdown
        exact not_not.mp hdown
      have hstay := considerRetry_of_down hreach
      have hsame : gs.modify i (entryGuardConsiderRetry now) = gs := by
        unfold GuardSelection.modify
        rw [hstay, Function.update_eq_self]
      rw [hsame] at h
      obtain ⟨hgs, hrest⟩ := ih h
      refine ⟨hgs, ?_⟩
      intro j hj
      rcases List.mem_cons.mp hj with rfl | hj
      · rwa [hstay] at hreach
      · exact hrest j hj

/-- **All primary guards are down** if the answer is that they are. -/
theorem allPrimaryGuardsAreDown_down {env : GuardEnv δ α} {now : ℤ}
    (h : entryGuardsAllPrimaryGuardsAreDown env now gs = (true, gs')) :
    ∀ i ∈ gs'.primaryEntryGuards, (gs'.guards i).isReachable = .no := by
  unfold entryGuardsAllPrimaryGuardsAreDown at h
  obtain ⟨rfl, hdown⟩ := allDownLoop_down now _ h
  exact hdown

end TorEbpf.Client
