import Mathlib.Data.List.Pairwise
import TorEbpf.Client.EntryGuards
import TorEbpf.Lib.Events
import TorEbpf.Lib.FirstBest

/-!
# Circuits that wait for a better guard

`entry_guards_upgrade_waiting_circuits` completes circuits that wait.  The rule in its comments is that a
waiting circuit is completed if no circuit blocks it; the code looks at the best of the waiting circuits
only, and completes nothing while that one is blocked.

* `Kept.isBlocked` — a call does not change which circuits are blocked;
* `released_run` — what repeated calls take off the waiting circuits;
* `entryGuardsUpgradeWaitingCircuits_rule` — nothing that is blocked is completed, and what still waits in
  the end is blocked exactly if no circuit waits unblocked behind a blocked one.
-/

namespace TorEbpf.Client

open TorEbpf.Lib

/-! ### The code -/

/-- The `GUARD_CIRC_STATE_*` values. -/
inductive GuardCircState where
  | usableOnCompletion
  | usableIfNoBetterGuard
  | waitingForBetterGuard
  | complete
  | dead
  deriving DecidableEq, Repr

structure CircuitGuardState (ι δ : Type) where
  /-- What `entry_guard_handle_get` gives; nothing once the guard is freed. -/
  guard : Option ι
  stateSetAt : ℤ
  state : GuardCircState
  restrictions : Option (GuardRestriction δ)

structure OriginCircuit (ι δ : Type) where
  guardState : Option (CircuitGuardState ι δ)
  markedForClose : Bool

structure GuardWorld (κ ι δ α : Type) where
  gs : GuardSelection ι δ α
  circs : κ → OriginCircuit ι δ

variable {κ ι δ α : Type} [DecidableEq κ] [DecidableEq ι] [DecidableEq δ]

def GuardWorld.guardOf (w : GuardWorld κ ι δ α) (c : κ) : Option ι :=
  (w.circs c).guardState.bind CircuitGuardState.guard

/-- The restrictions of a circuit. -/
def GuardWorld.restrictionsOf (w : GuardWorld κ ι δ α) (c : κ) : Option (GuardRestriction δ) :=
  (w.circs c).guardState.bind CircuitGuardState.restrictions

def GuardWorld.hasState (w : GuardWorld κ ι δ α) (c : κ) (state : GuardCircState) : Bool :=
  match (w.circs c).guardState with
  | none => false
  | some s => s.state = state

/-- `circ_state_has_higher_priority`; the circuits that it is called for have a guard state. -/
def circStateHasHigherPriority (env : GuardEnv δ α) (w : GuardWorld κ ι δ α) (a : κ)
    (rst : Option (GuardRestriction δ)) (b : κ) : Bool :=
  match w.guardOf a with
  | none => false
  | some guardA =>
    match w.guardOf b with
    | none => true
    | some guardB =>
      if !entryGuardObeysRestriction env (w.gs.guards (.there guardA)) rst then false
      else entryGuardHasHigherPriority w.gs.guards (.there guardA) (.there guardB)

/-- The first loop keeps a circuit. -/
def GuardWorld.keeps (w : GuardWorld κ ι δ α) (c : κ) : Bool :=
  match (w.circs c).guardState with
  | none => false
  | some state =>
    match state.guard with
    | none => false
    | some guard =>
      if (w.gs.guards (.there guard)).inSelection ≠ w.gs.self then false
      else !(w.circs c).markedForClose

def GuardWorld.allCircuits (w : GuardWorld κ ι δ α) (allCircuitsIn : List κ) : List κ :=
  allCircuitsIn.filter w.keeps

def bestWaitingCircuit (env : GuardEnv δ α) (w : GuardWorld κ ι δ α) (allCircuits : List κ) : Option κ :=
  firstBest (fun a b => circStateHasHigherPriority env w a none b)
    (fun c => w.hasState c .waitingForBetterGuard) allCircuits

def completeBlocking (env : GuardEnv δ α) (w : GuardWorld κ ι δ α) (best circ : κ) : Bool :=
  w.hasState circ .complete && circStateHasHigherPriority env w circ (w.restrictionsOf best) best

/-- A circuit that was usable for less than the timeout and has the priority. -/
def usableBlocking (env : GuardEnv δ α) (now : ℤ) (w : GuardWorld κ ι δ α) (best circ : κ) : Bool :=
  match (w.circs circ).guardState with
  | none => false
  | some state =>
    if state.state ≠ .usableIfNoBetterGuard then false
    else if state.stateSetAt ≤ now - env.nonprimaryGuardConnectTimeout then false
    else circStateHasHigherPriority env w circ (w.restrictionsOf best) best

def OriginCircuit.completed (now : ℤ) (circ : OriginCircuit ι δ) : OriginCircuit ι δ :=
  { circ with guardState := circ.guardState.map fun s => { s with state := .complete, stateSetAt := now } }

def GuardWorld.setComplete (w : GuardWorld κ ι δ α) (now : ℤ) (c : κ) : GuardWorld κ ι δ α :=
  { w with circs := Function.update w.circs c ((w.circs c).completed now) }

/-- One circuit of the last loop, with `newly_complete_out`. -/
def releaseCircuit (env : GuardEnv δ α) (now : ℤ) (best : κ) (rst : Option (GuardRestriction δ))
    (r : GuardWorld κ ι δ α × List κ) (circ : κ) : GuardWorld κ ι δ α × List κ :=
  if circ ≠ best ∧ rst.isSome then r
  else if !r.1.hasState circ .waitingForBetterGuard then r
  else if circStateHasHigherPriority env r.1 best none circ then r
  else (r.1.setComplete now circ, r.2 ++ [circ])

/-- `entry_guards_upgrade_waiting_circuits`, with `newly_complete_out`. -/
def entryGuardsUpgradeWaitingCircuits (env : GuardEnv δ α) (allCircuitsIn : List κ) (now : ℤ)
    (w : GuardWorld κ ι δ α) : Bool × GuardWorld κ ι δ α × List κ :=
  let (down, gs) := entryGuardsAllPrimaryGuardsAreDown env now w.gs
  let w := { w with gs }
  if !down then (false, w, [])
  else
    let allCircuits := w.allCircuits allCircuitsIn
    match bestWaitingCircuit env w allCircuits with
    | none => (false, w, [])
    | some best =>
      if allCircuits.any (completeBlocking env w best) then (false, w, [])
      else if allCircuits.any (usableBlocking env now w best) then (false, w, [])
      else (true, allCircuits.foldl (releaseCircuit env now best (w.restrictionsOf best)) (w, []))

/-! ### The rule -/

/-- A circuit is complete, waits, or is usable for less than the timeout. -/
def Active (env : GuardEnv δ α) (now : ℤ) (w : GuardWorld κ ι δ α) (c : κ) : Prop :=
  w.hasState c .complete = true ∨ w.hasState c .waitingForBetterGuard = true ∨
    ∃ s, (w.circs c).guardState = some s ∧ s.state = .usableIfNoBetterGuard ∧
      now - s.stateSetAt < env.nonprimaryGuardConnectTimeout

structure Blocks (env : GuardEnv δ α) (now : ℤ) (w : GuardWorld κ ι δ α) (c₂ c₁ : κ) : Prop where
  priority : ∃ guard₂ guard₁, w.guardOf c₂ = some guard₂ ∧ w.guardOf c₁ = some guard₁ ∧
    entryGuardObeysRestriction env (w.gs.guards (.there guard₂)) (w.restrictionsOf c₁) = true ∧
    entryGuardHasHigherPriority w.gs.guards (.there guard₂) (.there guard₁) = true
  active : Active env now w c₂

def IsBlocked (env : GuardEnv δ α) (allCircuitsIn : List κ) (now : ℤ) (w : GuardWorld κ ι δ α) (c : κ) :
    Prop :=
  ∃ c₂ ∈ w.allCircuits allCircuitsIn, Blocks env now w c₂ c

def Waits (allCircuitsIn : List κ) (w : GuardWorld κ ι δ α) (c : κ) : Prop :=
  c ∈ w.allCircuits allCircuitsIn ∧ w.hasState c .waitingForBetterGuard = true

/-- The order in which waiting circuits are looked at: by priority, then as they come in the list. -/
def LookedAtBefore (env : GuardEnv δ α) (allCircuitsIn : List κ) (w : GuardWorld κ ι δ α) : κ → κ → Prop :=
  Before (fun a b => circStateHasHigherPriority env w a none b) (w.allCircuits allCircuitsIn)

/-! ### Circuits in order of their guards -/

omit [DecidableEq κ] in
theorem circStateHasHigherPriority_none (env : GuardEnv δ α) (w : GuardWorld κ ι δ α) (a b : κ) :
    circStateHasHigherPriority env w a none b = true ↔
      ∃ guardA, w.guardOf a = some guardA ∧ ∀ guardB, w.guardOf b = some guardB →
        entryGuardHasHigherPriority w.gs.guards (.there guardA) (.there guardB) = true := by
  unfold circStateHasHigherPriority entryGuardObeysRestriction
  cases w.guardOf a with
  | none => simp
  | some guardA =>
    cases w.guardOf b with
    | none => simp
    | some guardB => simp

omit [DecidableEq κ] in
theorem isStrictWeakOrder_circState (env : GuardEnv δ α) (w : GuardWorld κ ι δ α) :
    IsStrictWeakOrder κ fun a b => circStateHasHigherPriority env w a none b = true where
  irrefl := by
    intro a h
    obtain ⟨guard, ha, hb⟩ := (circStateHasHigherPriority_none env w a a).mp h
    exact (isStrictWeakOrder_entryGuardHasHigherPriority w.gs.guards).irrefl _ (hb guard ha)
  trans := by
    intro a b c hab hbc
    rw [circStateHasHigherPriority_none] at hab hbc ⊢
    obtain ⟨guardA, ha, hab⟩ := hab
    obtain ⟨guardB, hb, hbc⟩ := hbc
    refine ⟨guardA, ha, ?_⟩
    intro guardC hc
    exact (isStrictWeakOrder_entryGuardHasHigherPriority w.gs.guards).trans _ _ _ (hab guardB hb)
      (hbc guardC hc)
  incomp_trans := by
    intro a b c hab hbc
    have hord := isStrictWeakOrder_entryGuardHasHigherPriority w.gs.guards
    simp only [circStateHasHigherPriority_none] at hab hbc ⊢
    cases ha : w.guardOf a with
    | none =>
      cases hc : w.guardOf c with
      | none => simp
      | some guardC =>
        -- two circuits are as good as each other only if both have a guard or none
        cases hb : w.guardOf b with
        | none => exact absurd ⟨guardC, hc, by simp [hb]⟩ hbc.2
        | some guardB => exact absurd ⟨guardB, hb, by simp [ha]⟩ hab.2
    | some guardA =>
      cases hb : w.guardOf b with
      | none => exact absurd ⟨guardA, ha, by simp [hb]⟩ hab.1
      | some guardB =>
        cases hc : w.guardOf c with
        | none => exact absurd ⟨guardB, hb, by simp [hc]⟩ hbc.1
        | some guardC =>
          simp only [ha, hb, hc, Option.some.injEq, exists_eq_left', forall_eq'] at hab hbc ⊢
          exact hord.incomp_trans _ _ _ hab hbc

/-! ### What a call keeps -/

/-- Which circuits are blocked does not depend on anything else. -/
structure Kept (env : GuardEnv δ α) (w w' : GuardWorld κ ι δ α) : Prop where
  guards : SameGuards w.gs w'.gs
  guardOf : ∀ c, w'.guardOf c = w.guardOf c
  restrictionsOf : ∀ c, w'.restrictionsOf c = w.restrictionsOf c
  keeps : ∀ c, w'.keeps c = w.keeps c
  active : ∀ now c, Active env now w' c ↔ Active env now w c

section Kept

variable {env : GuardEnv δ α} {w w' : GuardWorld κ ι δ α} {allCircuitsIn : List κ} {now : ℤ}

omit [DecidableEq κ] [DecidableEq ι] [DecidableEq δ] in
theorem Kept.refl (env : GuardEnv δ α) (w : GuardWorld κ ι δ α) : Kept env w w :=
  ⟨.refl _, fun _ => rfl, fun _ => rfl, fun _ => rfl, fun _ _ => .rfl⟩

omit [DecidableEq κ] [DecidableEq ι] [DecidableEq δ] in
theorem Kept.trans {w₁ w₂ w₃ : GuardWorld κ ι δ α} (h₁ : Kept env w₁ w₂) (h₂ : Kept env w₂ w₃) :
    Kept env w₁ w₃ where
  guards := h₁.guards.trans h₂.guards
  guardOf := fun c => (h₂.guardOf c).trans (h₁.guardOf c)
  restrictionsOf := fun c => (h₂.restrictionsOf c).trans (h₁.restrictionsOf c)
  keeps := fun c => (h₂.keeps c).trans (h₁.keeps c)
  active := fun now c => (h₂.active now c).trans (h₁.active now c)

omit [DecidableEq κ] [DecidableEq ι] [DecidableEq δ] in
theorem Kept.allCircuits (h : Kept env w w') (allCircuitsIn : List κ) :
    w'.allCircuits allCircuitsIn = w.allCircuits allCircuitsIn := by
  unfold GuardWorld.allCircuits
  rw [funext h.keeps]

omit [DecidableEq κ] in
theorem Kept.higherPriority (h : Kept env w w') (a : κ) (rst : Option (GuardRestriction δ)) (b : κ) :
    circStateHasHigherPriority env w' a rst b = circStateHasHigherPriority env w a rst b := by
  unfold circStateHasHigherPriority
  rw [h.guardOf a, h.guardOf b]
  cases w.guardOf a with
  | none => rfl
  | some guardA =>
    cases w.guardOf b with
    | none => rfl
    | some guardB =>
      dsimp only
      rw [(h.guards.guard guardA).obeys, h.guards.higherPriority]

omit [DecidableEq κ] in
theorem Kept.isBlocked (h : Kept env w w') (allCircuitsIn : List κ) (now : ℤ) (c : κ) :
    IsBlocked env allCircuitsIn now w' c ↔ IsBlocked env allCircuitsIn now w c := by
  have hblocks : ∀ c₂, Blocks env now w' c₂ c ↔ Blocks env now w c₂ c := by
    intro c₂
    have hpriority : ∀ guard₂ guard₁, (entryGuardObeysRestriction env (w'.gs.guards (.there guard₂))
          (w'.restrictionsOf c) = true ∧
        entryGuardHasHigherPriority w'.gs.guards (.there guard₂) (.there guard₁) = true) ↔
        (entryGuardObeysRestriction env (w.gs.guards (.there guard₂)) (w.restrictionsOf c) = true ∧
        entryGuardHasHigherPriority w.gs.guards (.there guard₂) (.there guard₁) = true) := by
      intro guard₂ guard₁
      rw [h.restrictionsOf c, (h.guards.guard guard₂).obeys, h.guards.higherPriority]
    constructor
    · rintro ⟨⟨guard₂, guard₁, h₂, h₁, hp⟩, hactive⟩
      rw [h.guardOf] at h₂ h₁
      exact ⟨⟨guard₂, guard₁, h₂, h₁, (hpriority guard₂ guard₁).mp hp⟩, (h.active now c₂).mp hactive⟩
    · rintro ⟨⟨guard₂, guard₁, h₂, h₁, hp⟩, hactive⟩
      rw [← h.guardOf] at h₂ h₁
      exact ⟨⟨guard₂, guard₁, h₂, h₁, (hpriority guard₂ guard₁).mpr hp⟩, (h.active now c₂).mpr hactive⟩
  unfold IsBlocked
  rw [h.allCircuits allCircuitsIn]
  simp only [hblocks]

theorem Kept.lookedAtBefore (h : Kept env w w') (allCircuitsIn : List κ) :
    LookedAtBefore env allCircuitsIn w' = LookedAtBefore env allCircuitsIn w := by
  unfold LookedAtBefore
  rw [h.allCircuits allCircuitsIn]
  congr 1
  funext a b
  exact h.higherPriority a none b

omit [DecidableEq κ] in
theorem IsBlocked.of_le {now' : ℤ} (hle : now ≤ now') {c : κ}
    (h : IsBlocked env allCircuitsIn now' w c) : IsBlocked env allCircuitsIn now w c := by
  obtain ⟨c₂, hmem, hpriority, hactive⟩ := h
  refine ⟨c₂, hmem, hpriority, ?_⟩
  obtain hactive | hactive | ⟨s, hs, hstate, hrecent⟩ := hactive
  · exact .inl hactive
  · exact .inr (.inl hactive)
  · exact .inr (.inr ⟨s, hs, hstate, by omega⟩)

omit [DecidableEq κ] [DecidableEq ι] [DecidableEq δ] in
/-- The primary guards make no difference. -/
theorem kept_of_sameGuards {gs : GuardSelection ι δ α} (h : SameGuards w.gs gs) :
    Kept env w { w with gs } where
  guards := h
  guardOf := fun _ => rfl
  restrictionsOf := fun _ => rfl
  keeps := by
    intro c
    unfold GuardWorld.keeps
    dsimp only
    split
    · rfl
    · split
      · rfl
      · rename_i guard _
        rw [(h.guard guard).inSelection, h.self]
  active := fun _ _ => .rfl

end Kept

/-! ### The last loop -/

/-- The last loop completes a circuit. -/
def Releasable (env : GuardEnv δ α) (w : GuardWorld κ ι δ α) (best : κ)
    (rst : Option (GuardRestriction δ)) (c : κ) : Prop :=
  (c = best ∨ rst = none) ∧ w.hasState c .waitingForBetterGuard = true ∧
    circStateHasHigherPriority env w best none c = false

instance (env : GuardEnv δ α) (w : GuardWorld κ ι δ α) (best : κ) (rst : Option (GuardRestriction δ))
    (c : κ) : Decidable (Releasable env w best rst c) :=
  inferInstanceAs (Decidable (_ ∧ _ ∧ _))

section Release

variable {env : GuardEnv δ α} {w : GuardWorld κ ι δ α} {now : ℤ} {best : κ}
  {rst : Option (GuardRestriction δ)}

omit [DecidableEq ι] [DecidableEq δ] in
@[simp] theorem circs_setComplete_self (w : GuardWorld κ ι δ α) (now : ℤ) (c : κ) :
    (w.setComplete now c).circs c = (w.circs c).completed now := Function.update_self _ _ _

omit [DecidableEq ι] [DecidableEq δ] in
theorem circs_setComplete_of_ne (w : GuardWorld κ ι δ α) (now : ℤ) {c c' : κ} (h : c' ≠ c) :
    (w.setComplete now c).circs c' = w.circs c' := Function.update_of_ne h _ _

omit [DecidableEq ι] [DecidableEq δ] in
@[simp] theorem guardOf_setComplete (w : GuardWorld κ ι δ α) (now : ℤ) (c c' : κ) :
    (w.setComplete now c).guardOf c' = w.guardOf c' := by
  unfold GuardWorld.guardOf
  by_cases h : c' = c
  · subst h
    rw [circs_setComplete_self]
    show Option.bind ((w.circs c').guardState.map _) _ = _
    cases (w.circs c').guardState <;> rfl
  · rw [circs_setComplete_of_ne w now h]

omit [DecidableEq ι] [DecidableEq δ] in
@[simp] theorem restrictionsOf_setComplete (w : GuardWorld κ ι δ α) (now : ℤ) (c c' : κ) :
    (w.setComplete now c).restrictionsOf c' = w.restrictionsOf c' := by
  unfold GuardWorld.restrictionsOf
  by_cases h : c' = c
  · subst h
    rw [circs_setComplete_self]
    show Option.bind ((w.circs c').guardState.map _) _ = _
    cases (w.circs c').guardState <;> rfl
  · rw [circs_setComplete_of_ne w now h]

omit [DecidableEq ι] [DecidableEq δ] in
@[simp] theorem keeps_setComplete (w : GuardWorld κ ι δ α) (now : ℤ) (c c' : κ) :
    (w.setComplete now c).keeps c' = w.keeps c' := by
  unfold GuardWorld.keeps
  by_cases h : c' = c
  · subst h
    rw [circs_setComplete_self]
    unfold OriginCircuit.completed
    cases (w.circs c').guardState <;> rfl
  · rw [circs_setComplete_of_ne w now h]
    rfl

omit [DecidableEq ι] [DecidableEq δ] in
theorem hasState_setComplete_of_ne (w : GuardWorld κ ι δ α) (now : ℤ) {c c' : κ} (h : c' ≠ c)
    (state : GuardCircState) : (w.setComplete now c).hasState c' state = w.hasState c' state := by
  unfold GuardWorld.hasState
  rw [circs_setComplete_of_ne w now h]

omit [DecidableEq ι] [DecidableEq δ] in
/-- The state of a circuit that had one. -/
theorem hasState_setComplete_self {c : κ} {state₀ : GuardCircState} (h : w.hasState c state₀ = true)
    (now : ℤ) (state : GuardCircState) :
    (w.setComplete now c).hasState c state = decide (GuardCircState.complete = state) := by
  unfold GuardWorld.hasState at h ⊢
  rw [circs_setComplete_self]
  unfold OriginCircuit.completed
  cases hs : (w.circs c).guardState with
  | none =>
    rw [hs] at h
    cases h
  | some s => rfl

omit [DecidableEq ι] [DecidableEq δ] in
theorem kept_setComplete (now : ℤ) {c : κ} (h : w.hasState c .waitingForBetterGuard = true) :
    Kept env w (w.setComplete now c) where
  guards := .refl _
  guardOf := guardOf_setComplete w now c
  restrictionsOf := restrictionsOf_setComplete w now c
  keeps := keeps_setComplete w now c
  active := by
    intro t c'
    by_cases hc : c' = c
    · subst hc
      refine iff_of_true (.inl ?_) (.inr (.inl h))
      rw [hasState_setComplete_self h]
      rfl
    · unfold Active
      rw [hasState_setComplete_of_ne w now hc, hasState_setComplete_of_ne w now hc,
        circs_setComplete_of_ne w now hc]

theorem releaseCircuit_eq (r : GuardWorld κ ι δ α × List κ) (c : κ) :
    releaseCircuit env now best rst r c =
      if Releasable env r.1 best rst c then (r.1.setComplete now c, r.2 ++ [c]) else r := by
  unfold releaseCircuit
  by_cases hrst : c ≠ best ∧ rst.isSome = true
  · rw [if_pos hrst, if_neg]
    rintro ⟨heq | hnone, _⟩
    · exact hrst.1 heq
    · rw [hnone] at hrst
      exact absurd hrst.2 Bool.false_ne_true
  · have hfirst : c = best ∨ rst = none := by
      rw [not_and_or, not_not, Option.not_isSome_iff_eq_none] at hrst
      exact hrst
    rw [if_neg hrst]
    by_cases hwaits : r.1.hasState c .waitingForBetterGuard = true
    · rw [if_neg (by simp [hwaits])]
      by_cases hhigher : circStateHasHigherPriority env r.1 best none c = true
      · rw [if_pos hhigher, if_neg]
        intro h
        rw [h.2.2] at hhigher
        cases hhigher
      · rw [if_neg hhigher, if_pos ⟨hfirst, hwaits, Bool.eq_false_iff.mpr hhigher⟩]
    · rw [if_pos (by simp [hwaits]), if_neg fun h => hwaits h.2.1]

/-- What the last loop does to some of the circuits. -/
structure Completes (env : GuardEnv δ α) (w w' : GuardWorld κ ι δ α) (out out' : List κ) (S : κ → Prop) :
    Prop where
  kept : Kept env w w'
  waiting : ∀ c, w'.hasState c .waitingForBetterGuard = true ↔
    w.hasState c .waitingForBetterGuard = true ∧ ¬S c
  complete : ∀ c, w'.hasState c .complete = true ↔ w.hasState c .complete = true ∨ S c
  out : ∀ c, c ∈ out' ↔ c ∈ out ∨ S c

/-- A circuit that was completed is not completed again, and makes no difference to the others. -/
theorem releasable_setComplete {c : κ} (h : w.hasState c .waitingForBetterGuard = true) (c' : κ) :
    Releasable env (w.setComplete now c) best rst c' ↔ c' ≠ c ∧ Releasable env w best rst c' := by
  unfold Releasable
  rw [(kept_setComplete now h).higherPriority]
  by_cases hc : c' = c
  · subst hc
    rw [hasState_setComplete_self h]
    simp
  · rw [hasState_setComplete_of_ne w now hc]
    simp [hc]

/-- **The last loop.** -/
theorem releaseLoop_completes (env : GuardEnv δ α) (now : ℤ) (best : κ)
    (rst : Option (GuardRestriction δ)) (l : List κ) :
    ∀ (w : GuardWorld κ ι δ α) (out : List κ),
      Completes env w (l.foldl (releaseCircuit env now best rst) (w, out)).1 out
        (l.foldl (releaseCircuit env now best rst) (w, out)).2
        fun c => c ∈ l ∧ Releasable env w best rst c := by
  induction l with
  | nil =>
    intro w out
    exact ⟨.refl env w, by simp, by simp, by simp⟩
  | cons a l ih =>
    intro w out
    rw [List.foldl_cons, releaseCircuit_eq]
    by_cases ha : Releasable env w best rst a
    · rw [if_pos ha]
      have hrest := ih (w.setComplete now a) (out ++ [a])
      have hwaits := ha.2.1
      refine ⟨(kept_setComplete now hwaits).trans hrest.kept, ?_, ?_, ?_⟩
      · intro c
        rw [hrest.waiting, releasable_setComplete hwaits]
        by_cases hc : c = a
        · subst hc
          rw [hasState_setComplete_self hwaits]
          simp [ha]
        · rw [hasState_setComplete_of_ne w now hc]
          simp [hc]
      · intro c
        rw [hrest.complete, releasable_setComplete hwaits]
        by_cases hc : c = a
        · subst hc
          rw [hasState_setComplete_self hwaits]
          simp [ha]
        · rw [hasState_setComplete_of_ne w now hc]
          simp [hc]
      · intro c
        rw [hrest.out, releasable_setComplete hwaits]
        by_cases hc : c = a
        · subst hc
          simp [ha]
        · simp [hc]
    · rw [if_neg ha]
      have hrest := ih w out
      have hset : ∀ c, (c ∈ a :: l ∧ Releasable env w best rst c) ↔
          (c ∈ l ∧ Releasable env w best rst c) := by
        intro c
        by_cases hc : c = a
        · subst hc
          simp [ha]
        · simp [hc]
      exact ⟨hrest.kept, fun c => by rw [hrest.waiting, hset], fun c => by rw [hrest.complete, hset],
        fun c => by rw [hrest.out, hset]⟩

end Release

/-! ### A call -/

section Call

variable {env : GuardEnv δ α} {allCircuitsIn : List κ} {now : ℤ} {w w' : GuardWorld κ ι δ α}
  {out : List κ} {best : κ}

structure LookedAtFirst (env : GuardEnv δ α) (allCircuitsIn : List κ) (w : GuardWorld κ ι δ α) (best : κ) :
    Prop where
  waits : Waits allCircuitsIn w best
  first : ∀ c, Waits allCircuitsIn w c → c = best ∨ LookedAtBefore env allCircuitsIn w best c

/-- **The best waiting circuit** is looked at first. -/
theorem lookedAtFirst_of_best
    (h : bestWaitingCircuit env w (w.allCircuits allCircuitsIn) = some best) :
    LookedAtFirst env allCircuitsIn w best := by
  obtain ⟨hmem, hwaits, hfirst⟩ := firstBest_spec (isStrictWeakOrder_circState env w) h
  exact ⟨⟨hmem, hwaits⟩, fun c hc => hfirst c hc.1 hc.2⟩

theorem LookedAtFirst.not_higherPriority (h : LookedAtFirst env allCircuitsIn w best) {c : κ}
    (hc : Waits allCircuitsIn w c) : circStateHasHigherPriority env w c none best = false := by
  have hord := isStrictWeakOrder_circState env w
  rw [Bool.eq_false_iff]
  intro hhigher
  obtain rfl | hbefore | ⟨hnot, _⟩ := h.first c hc
  · exact hord.irrefl c hhigher
  · exact hord.irrefl best (hord.trans best c best hbefore hhigher)
  · exact absurd hhigher (by simp [hnot])

omit [DecidableEq κ] [DecidableEq ι] [DecidableEq δ] in
theorem guardOf_of_keeps {c : κ} (h : w.keeps c = true) : ∃ guard, w.guardOf c = some guard := by
  unfold GuardWorld.keeps at h
  unfold GuardWorld.guardOf
  cases hs : (w.circs c).guardState with
  | none =>
    rw [hs] at h
    cases h
  | some s =>
    rw [hs] at h
    cases hg : s.guard with
    | none =>
      simp only [hg] at h
      cases h
    | some guard => exact ⟨guard, by simp [hg]⟩

omit [DecidableEq κ] in
/-- The priority over a circuit of the selection, held to its restrictions. -/
theorem circStateHasHigherPriority_iff {a b : κ} {guardB : ι} (hb : w.guardOf b = some guardB)
    (rst : Option (GuardRestriction δ)) :
    circStateHasHigherPriority env w a rst b = true ↔ ∃ guardA, w.guardOf a = some guardA ∧
      entryGuardObeysRestriction env (w.gs.guards (.there guardA)) rst = true ∧
      entryGuardHasHigherPriority w.gs.guards (.there guardA) (.there guardB) = true := by
  unfold circStateHasHigherPriority
  rw [hb]
  cases w.guardOf a with
  | none => simp
  | some guardA =>
    cases hobeys : entryGuardObeysRestriction env (w.gs.guards (.there guardA)) rst <;> simp [hobeys]

omit [DecidableEq κ] in
/-- One circuit blocks another if it is active and has the priority under the restrictions. -/
theorem blocks_iff {c₂ c₁ : κ} (h : w.keeps c₁ = true) :
    Blocks env now w c₂ c₁ ↔
      circStateHasHigherPriority env w c₂ (w.restrictionsOf c₁) c₁ = true ∧ Active env now w c₂ := by
  obtain ⟨guard₁, h₁⟩ := guardOf_of_keeps h
  rw [circStateHasHigherPriority_iff h₁]
  constructor
  · rintro ⟨⟨guard₂, guard₁', h₂, h₁', hobeys, hhigher⟩, hactive⟩
    obtain rfl : guard₁' = guard₁ := by
      rw [h₁'] at h₁
      exact Option.some.inj h₁
    exact ⟨⟨guard₂, h₂, hobeys, hhigher⟩, hactive⟩
  · rintro ⟨⟨guard₂, h₂, hobeys, hhigher⟩, hactive⟩
    exact ⟨⟨guard₂, guard₁, h₂, h₁, hobeys, hhigher⟩, hactive⟩

omit [DecidableEq κ] in
theorem circStateHasHigherPriority_weaken {a b : κ} {rst : Option (GuardRestriction δ)}
    (h : circStateHasHigherPriority env w a rst b = true) :
    circStateHasHigherPriority env w a none b = true := by
  unfold circStateHasHigherPriority at h ⊢
  cases hA : w.guardOf a with
  | none =>
    rw [hA] at h
    exact h
  | some guardA =>
    rw [hA] at h
    cases hB : w.guardOf b with
    | none => rfl
    | some guardB =>
      simp only [hB] at h
      split at h
      · cases h
      · exact h

/-- **The two loops in between** find out whether the best waiting circuit is blocked. -/
theorem isBlocked_best_iff (now : ℤ) (h : LookedAtFirst env allCircuitsIn w best) :
    IsBlocked env allCircuitsIn now w best ↔
      (w.allCircuits allCircuitsIn).any (completeBlocking env w best) = true ∨
        (w.allCircuits allCircuitsIn).any (usableBlocking env now w best) = true := by
  have hkeeps : w.keeps best = true := (List.mem_filter.mp h.waits.1).2
  constructor
  · rintro ⟨c₂, hmem, hblocks⟩
    obtain ⟨hhigher, hactive⟩ := (blocks_iff hkeeps).mp hblocks
    obtain hcomplete | hwaiting | ⟨s, hs, hstate, hrecent⟩ := hactive
    · refine .inl (List.any_eq_true.mpr ⟨c₂, hmem, ?_⟩)
      unfold completeBlocking
      rw [hcomplete, hhigher]
      rfl
    · -- a circuit that waits would have been the best
      have hnot := h.not_higherPriority ⟨hmem, hwaiting⟩
      rw [circStateHasHigherPriority_weaken hhigher] at hnot
      cases hnot
    · refine .inr (List.any_eq_true.mpr ⟨c₂, hmem, ?_⟩)
      unfold usableBlocking
      rw [hs]
      dsimp only
      rw [if_neg (by simp [hstate]), if_neg (by omega)]
      exact hhigher
  · rintro (hany | hany)
    · obtain ⟨c₂, hmem, hc⟩ := List.any_eq_true.mp hany
      unfold completeBlocking at hc
      rw [Bool.and_eq_true] at hc
      exact ⟨c₂, hmem, (blocks_iff hkeeps).mpr ⟨hc.2, .inl hc.1⟩⟩
    · obtain ⟨c₂, hmem, hc⟩ := List.any_eq_true.mp hany
      unfold usableBlocking at hc
      split at hc
      · cases hc
      · rename_i s hs
        split at hc
        · cases hc
        · rename_i hstate
          split at hc
          · cases hc
          · exact ⟨c₂, hmem, (blocks_iff hkeeps).mpr
              ⟨hc, .inr (.inr ⟨s, hs, not_not.mp hstate, by omega⟩)⟩⟩

/-- What is completed beside the best circuit is not blocked if that is not. -/
theorem not_isBlocked_of_releasable (h : LookedAtFirst env allCircuitsIn w best)
    (hbest : ¬IsBlocked env allCircuitsIn now w best) {c : κ} (hmem : c ∈ w.allCircuits allCircuitsIn)
    (hc : Releasable env w best (w.restrictionsOf best) c) : ¬IsBlocked env allCircuitsIn now w c := by
  obtain ⟨rfl | hnone, _, hnot⟩ := hc
  · exact hbest
  · rintro ⟨c₂, hmem₂, hblocks⟩
    obtain ⟨hhigher, hactive⟩ := (blocks_iff (List.mem_filter.mp hmem).2).mp hblocks
    obtain hbetter | hbetter := better_or (isStrictWeakOrder_circState env w) best
      (circStateHasHigherPriority_weaken hhigher)
    · refine hbest ⟨c₂, hmem₂, (blocks_iff (List.mem_filter.mp h.waits.1).2).mpr ⟨?_, hactive⟩⟩
      rw [hnone]
      exact hbetter
    · rw [hbetter] at hnot
      cases hnot

/-- A call leaves the circuits as they are. -/
structure Refused (env : GuardEnv δ α) (allCircuitsIn : List κ) (now : ℤ) (w w' : GuardWorld κ ι δ α) :
    Prop where
  circs : w'.circs = w.circs
  kept : Kept env w w'
  why : (entryGuardsAllPrimaryGuardsAreDown env now w.gs).1 = false ∨ (∀ c, ¬Waits allCircuitsIn w' c) ∨
    ∃ best, LookedAtFirst env allCircuitsIn w' best ∧ IsBlocked env allCircuitsIn now w' best

/-- A call completes circuits: the best of those that wait, and what is as good if that has no
restrictions. -/
structure Upgraded (env : GuardEnv δ α) (allCircuitsIn : List κ) (now : ℤ) (w w' : GuardWorld κ ι δ α)
    (out : List κ) (best : κ) : Prop where
  down : ∀ i ∈ w'.gs.primaryEntryGuards, (w'.gs.guards i).isReachable = .no
  first : LookedAtFirst env allCircuitsIn w best
  free : ¬IsBlocked env allCircuitsIn now w best
  completes : Completes env w w' [] out fun c =>
    c ∈ w.allCircuits allCircuitsIn ∧ Releasable env w best (w.restrictionsOf best) c

theorem LookedAtFirst.of_kept (hkept : Kept env w w')
    (hstate : ∀ c, w'.hasState c .waitingForBetterGuard = w.hasState c .waitingForBetterGuard)
    (h : LookedAtFirst env allCircuitsIn w' best) : LookedAtFirst env allCircuitsIn w best := by
  have hwaits : ∀ c, Waits allCircuitsIn w' c ↔ Waits allCircuitsIn w c := by
    intro c
    unfold Waits
    rw [hkept.allCircuits, hstate]
  refine ⟨(hwaits best).mp h.waits, ?_⟩
  intro c hc
  rw [← hkept.lookedAtBefore]
  exact h.first c ((hwaits c).mpr hc)

theorem foldl_releaseCircuit_gs (env : GuardEnv δ α) (now : ℤ) (best : κ)
    (rst : Option (GuardRestriction δ)) (l : List κ) :
    ∀ r : GuardWorld κ ι δ α × List κ, (l.foldl (releaseCircuit env now best rst) r).1.gs = r.1.gs := by
  induction l with
  | nil => exact fun _ => rfl
  | cons a l ih =>
    intro r
    rw [List.foldl_cons, ih, releaseCircuit_eq]
    split
    · rfl
    · rfl

/-- **What a call does.** -/
theorem upgrade_cases {ret : Bool}
    (h : entryGuardsUpgradeWaitingCircuits env allCircuitsIn now w = (ret, w', out)) :
    (ret = false ∧ Refused env allCircuitsIn now w w') ∨
      (ret = true ∧ ∃ best, Upgraded env allCircuitsIn now w w' out best) := by
  unfold entryGuardsUpgradeWaitingCircuits at h
  have hsame := sameGuards_allPrimaryGuardsAreDown env now w.gs
  rcases hresult : entryGuardsAllPrimaryGuardsAreDown env now w.gs with ⟨down, gs⟩
  simp only [hresult] at h hsame
  have hkept : Kept env w { w with gs } := kept_of_sameGuards hsame
  cases down with
  | false =>
    simp only [Bool.not_false, if_true] at h
    cases h
    exact .inl ⟨rfl, rfl, hkept, .inl (by rw [hresult])⟩
  | true =>
    simp only [Bool.not_true, Bool.false_eq_true, if_false] at h
    cases hbest : bestWaitingCircuit env { w with gs }
        (GuardWorld.allCircuits { w with gs } allCircuitsIn) with
    | none =>
      rw [hbest] at h
      cases h
      refine .inl ⟨rfl, rfl, hkept, .inr (.inl ?_)⟩
      rintro c ⟨hmem, hwaits⟩
      rw [firstBest_eq_none hbest c hmem] at hwaits
      cases hwaits
    | some best =>
      have hfirst := lookedAtFirst_of_best hbest
      have hiff := isBlocked_best_iff now hfirst
      rw [hbest] at h
      dsimp only at h
      split at h
      · rename_i hcomplete
        cases h
        exact .inl ⟨rfl, rfl, hkept, .inr (.inr ⟨best, hfirst, hiff.mpr (.inl hcomplete)⟩)⟩
      · rename_i hcomplete
        split at h
        · rename_i husable
          cases h
          exact .inl ⟨rfl, rfl, hkept, .inr (.inr ⟨best, hfirst, hiff.mpr (.inr husable)⟩)⟩
        · rename_i husable
          have hloop := releaseLoop_completes env now best (GuardWorld.restrictionsOf { w with gs } best)
            (GuardWorld.allCircuits { w with gs } allCircuitsIn) { w with gs } []
          have hgs := foldl_releaseCircuit_gs env now best (GuardWorld.restrictionsOf { w with gs } best)
            (GuardWorld.allCircuits { w with gs } allCircuitsIn) ({ w with gs }, [])
          injection h with hret hrest
          rw [hrest] at hloop hgs
          refine .inr ⟨hret.symm, best, ?_, ?_, ?_, ?_⟩
          · rw [hgs]
            exact allPrimaryGuardsAreDown_down hresult
          · exact hfirst.of_kept hkept fun c => rfl
          · rw [← hkept.isBlocked]
            exact fun hblocked => (hiff.mp hblocked).elim hcomplete husable
          · have hset : ∀ c, (c ∈ GuardWorld.allCircuits { w with gs } allCircuitsIn ∧
                Releasable env { w with gs } best (GuardWorld.restrictionsOf { w with gs } best) c) ↔
                (c ∈ w.allCircuits allCircuitsIn ∧ Releasable env w best (w.restrictionsOf best) c) := by
              intro c
              rw [hkept.allCircuits]
              unfold Releasable
              rw [hkept.higherPriority]
              rfl
            exact ⟨hkept.trans hloop.kept, fun c => by rw [hloop.waiting, hset]; rfl,
              fun c => by rw [hloop.complete, hset]; rfl, fun c => by rw [hloop.out, hset]⟩

end Call

/-! ### Repeated calls -/

def UpgradeCall (env : GuardEnv δ α) (allCircuitsIn : List κ) (w : GuardWorld κ ι δ α) (now : ℤ)
    (w' : GuardWorld κ ι δ α) : Prop :=
  ∃ out, entryGuardsUpgradeWaitingCircuits env allCircuitsIn now w = (true, w', out)

section Runs

variable {env : GuardEnv δ α} {allCircuitsIn : List κ} {now : ℤ} {w₀ w w' : GuardWorld κ ι δ α}
  {out : List κ} {best : κ} {times : List ℤ}

theorem UpgradeCall.upgraded (h : UpgradeCall env allCircuitsIn w now w') :
    ∃ out best, Upgraded env allCircuitsIn now w w' out best := by
  obtain ⟨out, h⟩ := h
  obtain ⟨hfalse, _⟩ | ⟨_, best, hupgraded⟩ := upgrade_cases h
  · cases hfalse
  · exact ⟨out, best, hupgraded⟩

theorem Upgraded.waits_iff (h : Upgraded env allCircuitsIn now w w' out best) (c : κ) :
    Waits allCircuitsIn w' c ↔
      Waits allCircuitsIn w c ∧ ¬Releasable env w best (w.restrictionsOf best) c := by
  unfold Waits
  rw [h.completes.kept.allCircuits, h.completes.waiting]
  tauto

theorem Upgraded.releasable_best (h : Upgraded env allCircuitsIn now w w' out best) :
    Releasable env w best (w.restrictionsOf best) best :=
  ⟨.inl rfl, h.first.waits.2, h.first.not_higherPriority h.first.waits⟩

/-- Circuits are completed from the front of the order in which they are looked at. -/
theorem Upgraded.releasable_of_before (h : Upgraded env allCircuitsIn now w w' out best) {a b : κ}
    (ha : Releasable env w best (w.restrictionsOf best) a) (hb : Waits allCircuitsIn w b)
    (hbefore : LookedAtBefore env allCircuitsIn w b a) :
    Releasable env w best (w.restrictionsOf best) b := by
  have hord := isStrictWeakOrder_circState env w
  obtain ⟨rfl | hnone, _, hnot⟩ := ha
  · obtain rfl | hfirst := h.first.first b hb
    · exact h.releasable_best
    · exact absurd hbefore (Before.asymm hord hfirst)
  · refine ⟨.inr hnone, hb.2, ?_⟩
    rw [Bool.eq_false_iff] at hnot ⊢
    intro hbest
    obtain hhigher | ⟨hlower, _⟩ := hbefore
    · exact hnot (hord.trans best b a hbest hhigher)
    · obtain hbetter | hbetter := better_or hord a hbest
      · exact hnot hbetter
      · simp only [hlower] at hbetter
        cases hbetter

/-- One call takes circuits that are not blocked off the front of those that wait. -/
theorem Upgraded.released (h : Upgraded env allCircuitsIn now w w' out best) {later : ℤ}
    (hle : now ≤ later) (hkept : Kept env w₀ w)
    (hrel : Released (LookedAtBefore env allCircuitsIn w₀) (IsBlocked env allCircuitsIn later w₀)
      (Waits allCircuitsIn w₀) (Waits allCircuitsIn w)) :
    Released (LookedAtBefore env allCircuitsIn w₀) (IsBlocked env allCircuitsIn later w₀)
      (Waits allCircuitsIn w₀) (Waits allCircuitsIn w') := by
  have hreleasable : ∀ c, Waits allCircuitsIn w c → ¬Waits allCircuitsIn w' c →
      Releasable env w best (w.restrictionsOf best) c := by
    intro c hc hnot
    by_contra hno
    exact hnot ((h.waits_iff c).mpr ⟨hc, hno⟩)
  refine hrel.step (fun c hc => ((h.waits_iff c).mp hc).1) ?_ ?_
  · intro c hc hnot hblocked
    rw [← hkept.isBlocked] at hblocked
    exact not_isBlocked_of_releasable h.first h.free hc.1 (hreleasable c hc hnot) (hblocked.of_le hle)
  · intro a ha hnot b hb hbefore hb'
    rw [← hkept.lookedAtBefore] at hbefore
    exact ((h.waits_iff b).mp hb').2 (h.releasable_of_before (hreleasable a ha hnot) hb hbefore)

/-- **Repeated calls**, none of them later than some time. -/
theorem released_run (hrun : Run (UpgradeCall env allCircuitsIn) w times w')
    (htimes : ∀ t ∈ times, t ≤ now) (hkept : Kept env w₀ w)
    (hrel : Released (LookedAtBefore env allCircuitsIn w₀) (IsBlocked env allCircuitsIn now w₀)
      (Waits allCircuitsIn w₀) (Waits allCircuitsIn w)) :
    Kept env w₀ w' ∧
      Released (LookedAtBefore env allCircuitsIn w₀) (IsBlocked env allCircuitsIn now w₀)
        (Waits allCircuitsIn w₀) (Waits allCircuitsIn w') := by
  induction hrun with
  | nil => exact ⟨hkept, hrel⟩
  | cons hstep _ ih =>
    obtain ⟨out, best, hupgraded⟩ := hstep.upgraded
    exact ih (fun t ht => htimes t (List.mem_cons_of_mem _ ht)) (hkept.trans hupgraded.completes.kept)
      (hupgraded.released (htimes _ List.mem_cons_self) hkept hrel)

theorem length_times_le (hrun : Run (UpgradeCall env allCircuitsIn) w times w') :
    times.length ≤
      (w.allCircuits allCircuitsIn).countP fun c => w.hasState c .waitingForBetterGuard := by
  induction hrun with
  | nil => exact Nat.zero_le _
  | @cons w w' w'' now times hstep _ ih =>
    obtain ⟨out, best, hupgraded⟩ := hstep.upgraded
    have hcompletes := hupgraded.completes
    rw [hcompletes.kept.allCircuits] at ih
    have hlt := countP_lt_countP (p := fun c => w.hasState c .waitingForBetterGuard)
      (q := fun c => w'.hasState c .waitingForBetterGuard) (l := w.allCircuits allCircuitsIn)
      (fun c _ hc => ((hcompletes.waiting c).mp hc).1) hupgraded.first.waits.1 hupgraded.first.waits.2
      fun hc => ((hcompletes.waiting best).mp hc).2 ⟨hupgraded.first.waits.1, hupgraded.releasable_best⟩
    rw [List.length_cons]
    omega

/-- No circuit waits unblocked behind one that is blocked. -/
def NoneWaitsBehind (env : GuardEnv δ α) (allCircuitsIn : List κ) (now : ℤ) (w : GuardWorld κ ι δ α) :
    Prop :=
  ∀ c₁, Waits allCircuitsIn w c₁ → IsBlocked env allCircuitsIn now w c₁ →
    ∀ c₂, Waits allCircuitsIn w c₂ → LookedAtBefore env allCircuitsIn w c₁ c₂ →
      IsBlocked env allCircuitsIn now w c₂

/-- The last call, after some calls that took circuits off the front. -/
theorem all_blocked_iff (hkept : Kept env w₀ w)
    (hrel : Released (LookedAtBefore env allCircuitsIn w₀) (IsBlocked env allCircuitsIn now w₀)
      (Waits allCircuitsIn w₀) (Waits allCircuitsIn w))
    (hlast : entryGuardsUpgradeWaitingCircuits env allCircuitsIn now w = (false, w', out))
    (hdown : (entryGuardsAllPrimaryGuardsAreDown env now w.gs).1 = true) :
    (∀ c, Waits allCircuitsIn w' c → IsBlocked env allCircuitsIn now w' c) ↔
      NoneWaitsBehind env allCircuitsIn now w₀ := by
  obtain ⟨_, hrefused⟩ | ⟨htrue, _⟩ := upgrade_cases hlast
  · have hwaits : ∀ c, Waits allCircuitsIn w' c ↔ Waits allCircuitsIn w c := by
      intro c
      unfold Waits GuardWorld.hasState
      rw [hrefused.kept.allCircuits, hrefused.circs]
    have hblocked := hrefused.kept.isBlocked allCircuitsIn now
    have hblocked₀ := hkept.isBlocked allCircuitsIn now
    have hstop : ∀ c, Waits allCircuitsIn w c → ∃ b, Waits allCircuitsIn w b ∧
        IsBlocked env allCircuitsIn now w₀ b ∧
          (c = b ∨ LookedAtBefore env allCircuitsIn w₀ b c) := by
      intro c hc
      obtain hup | hnone | ⟨best, hfirst, hbest⟩ := hrefused.why
      · rw [hdown] at hup
        cases hup
      · exact absurd ((hwaits c).mpr hc) (hnone c)
      · refine ⟨best, (hwaits best).mp hfirst.waits, (hblocked₀ best).mp ((hblocked best).mp hbest), ?_⟩
        rw [← hkept.lookedAtBefore, ← hrefused.kept.lookedAtBefore]
        exact hfirst.first c ((hwaits c).mpr hc)
    unfold NoneWaitsBehind
    rw [← hrel.all_blocked_iff hstop]
    simp only [hwaits, hblocked, hblocked₀]
  · cases htrue

end Runs

/-- **The rule.**  Priority is a strict weak order; a call completes no circuit that is blocked, and none
unless all primary guards are down.  When calls that completed circuits are followed by one that does not,
with all primary guards down, there were at most as many as circuits waited, and every circuit that still
waits is blocked exactly if none waited unblocked behind one that is blocked, before the last call or, if
that is not earlier than the others, before the first. -/
theorem entryGuardsUpgradeWaitingCircuits_rule (env : GuardEnv δ α) (allCircuitsIn : List κ) :
    (∀ guards : GuardPtr ι → EntryGuard δ α,
      IsStrictWeakOrder (GuardPtr ι) fun a b => entryGuardHasHigherPriority guards a b = true) ∧
    (∀ (now : ℤ) (w w' : GuardWorld κ ι δ α) (ret : Bool) (out : List κ),
      entryGuardsUpgradeWaitingCircuits env allCircuitsIn now w = (ret, w', out) →
      ∀ c, w'.hasState c .complete = true → w.hasState c .complete = false →
        ¬IsBlocked env allCircuitsIn now w c ∧
          ∀ i ∈ w'.gs.primaryEntryGuards, (w'.gs.guards i).isReachable = .no) ∧
    ∀ (w₀ w w' : GuardWorld κ ι δ α) (times : List ℤ) (now : ℤ) (out : List κ),
      Run (UpgradeCall env allCircuitsIn) w₀ times w →
      entryGuardsUpgradeWaitingCircuits env allCircuitsIn now w = (false, w', out) →
      (entryGuardsAllPrimaryGuardsAreDown env now w.gs).1 = true →
      (times.length ≤
        (w₀.allCircuits allCircuitsIn).countP fun c => w₀.hasState c .waitingForBetterGuard) ∧
      ((∀ c, Waits allCircuitsIn w' c → IsBlocked env allCircuitsIn now w' c) ↔
        NoneWaitsBehind env allCircuitsIn now w) ∧
      ((∀ t ∈ times, t ≤ now) →
        ((∀ c, Waits allCircuitsIn w' c → IsBlocked env allCircuitsIn now w' c) ↔
          NoneWaitsBehind env allCircuitsIn now w₀)) := by
  refine ⟨isStrictWeakOrder_entryGuardHasHigherPriority, ?_, ?_⟩
  · intro now w w' ret out h c hc hnot
    obtain ⟨_, hrefused⟩ | ⟨_, best, hupgraded⟩ := upgrade_cases h
    · unfold GuardWorld.hasState at hc hnot
      rw [hrefused.circs] at hc
      rw [hc] at hnot
      cases hnot
    · obtain hc | ⟨hmem, hreleasable⟩ := (hupgraded.completes.complete c).mp hc
      · rw [hc] at hnot
        cases hnot
      · exact ⟨not_isBlocked_of_releasable hupgraded.first hupgraded.free hmem hreleasable,
          hupgraded.down⟩
  · intro w₀ w w' times now out hrun hlast hdown
    refine ⟨length_times_le hrun, all_blocked_iff (.refl env w) .refl hlast hdown, ?_⟩
    intro htimes
    obtain ⟨hkept, hrel⟩ := released_run hrun htimes (.refl env w₀) .refl
    exact all_blocked_iff hkept hrel hlast hdown

/-! ### A circuit that is passed over -/

def plainGuardEnv : GuardEnv ℕ ℕ where
  nPrimaryGuards := 1
  minFilteredSampleSize := 0
  maxSampleSize := 0
  nonprimaryGuardConnectTimeout := 15
  consensusIsMissing := false
  eligibleGuards := fun _ => []
  guardInNodeFamily := fun _ _ _ => false
  isOutdatedDirserver := fun _ => false

/-- Confirmed guards with their indices; the first is primary and cannot be reached since the time `900`. -/
def confirmedGuards : GuardSelection ℕ ℕ ℕ where
  self := 0
  guards
    | .there i =>
      { identity := 100 + i
        bridgeAddr := none
        sampledIdx := i
        confirmedIdx := i
        lastTriedToConnect := 1000
        isReachable := if i = 0 then .no else .yes
        isPending := false
        failingSince := if i = 0 then 900 else 0
        isFilteredGuard := true
        isUsableFilteredGuard := i ≠ 0
        isPrimary := i = 0
        inSelection := 0 }
    | .added _ =>
      { identity := 0
        bridgeAddr := none
        sampledIdx := 0
        confirmedIdx := -1
        lastTriedToConnect := 0
        isReachable := .maybe
        isPending := false
        failingSince := 0
        isFilteredGuard := false
        isUsableFilteredGuard := false
        isPrimary := false
        inSelection := 1 }
  allocated := 0
  sampledEntryGuards := [.there 0, .there 1, .there 2]
  confirmedEntryGuards := [.there 0, .there 1, .there 2]
  primaryEntryGuards := [.there 0]
  primaryGuardsUpToDate := true
  nextSampledIdx := 3

def circuitOf (guard : ℕ) (state : GuardCircState) (restrictions : Option (GuardRestriction ℕ)) :
    OriginCircuit ℕ ℕ where
  guardState := some { guard := some guard, stateSetAt := 1000, state, restrictions }
  markedForClose := false

/-- A complete circuit, one that waits for its guard, and one that waits and may not have that guard. -/
def restrictedBehind : GuardWorld ℕ ℕ ℕ ℕ where
  gs := confirmedGuards
  circs
    | 0 => circuitOf 1 .complete none
    | 1 => circuitOf 2 .waitingForBetterGuard none
    | _ => circuitOf 2 .waitingForBetterGuard (some (.exitNode 101))

def restrictedBehindCall : Bool × GuardWorld ℕ ℕ ℕ ℕ × List ℕ :=
  entryGuardsUpgradeWaitingCircuits plainGuardEnv [0, 1, 2] 1010 restrictedBehind

/-- **A circuit that no circuit blocks keeps waiting**, behind one that is blocked. -/
theorem not_all_blocked_restrictedBehind :
    restrictedBehindCall.1 = false ∧
      (entryGuardsAllPrimaryGuardsAreDown plainGuardEnv 1010 restrictedBehind.gs).1 = true ∧
      ¬∀ c, Waits [0, 1, 2] restrictedBehindCall.2.1 c →
        IsBlocked plainGuardEnv [0, 1, 2] 1010 restrictedBehindCall.2.1 c := by
  refine ⟨by decide, by decide, ?_⟩
  intro hall
  obtain ⟨c₂, hmem, hblocks⟩ := hall 2 ⟨by decide, by decide⟩
  obtain ⟨hhigher, _⟩ := (blocks_iff (by decide)).mp hblocks
  have hnone : ∀ c ∈ restrictedBehindCall.2.1.allCircuits [0, 1, 2],
      circStateHasHigherPriority plainGuardEnv restrictedBehindCall.2.1 c
        (restrictedBehindCall.2.1.restrictionsOf 2) 2 = false := by decide
  rw [hnone c₂ hmem] at hhigher
  cases hhigher

def twoWaiting : GuardWorld ℕ ℕ ℕ ℕ where
  gs := confirmedGuards
  circs
    | 0 => circuitOf 1 .waitingForBetterGuard none
    | _ => circuitOf 2 .waitingForBetterGuard none

/-- After the call that completes the first. -/
def oneCompleted : GuardWorld ℕ ℕ ℕ ℕ :=
  (entryGuardsUpgradeWaitingCircuits plainGuardEnv [0, 1] 1010 twoWaiting).2.1

/-- After the call that completes nothing more. -/
def oneLeft : GuardWorld ℕ ℕ ℕ ℕ :=
  (entryGuardsUpgradeWaitingCircuits plainGuardEnv [0, 1] 1011 oneCompleted).2.1

theorem entryGuardsUpgradeWaitingCircuits_rule_two :
    ∀ c, Waits [0, 1] oneLeft c → IsBlocked plainGuardEnv [0, 1] 1011 oneLeft c := by
  have hfirst : UpgradeCall plainGuardEnv [0, 1] twoWaiting 1010 oneCompleted :=
    ⟨[0], Prod.ext (by decide) (Prod.ext rfl (by decide))⟩
  have hlast : entryGuardsUpgradeWaitingCircuits plainGuardEnv [0, 1] 1011 oneCompleted =
      (false, oneLeft, []) := Prod.ext (by decide) (Prod.ext rfl (by decide))
  have hrule := (entryGuardsUpgradeWaitingCircuits_rule (ι := ℕ) plainGuardEnv [0, 1]).2.2 twoWaiting
    oneCompleted oneLeft [1010] 1011 [] (.cons hfirst (.nil _)) hlast (by decide)
  refine (hrule.2.2 (by decide)).mpr ?_
  rintro c₁ ⟨hc₁, _⟩ hblocked c₂ ⟨hc₂, _⟩ hbefore
  have hcases : ∀ c ∈ twoWaiting.allCircuits [0, 1], c = 0 ∨ c = 1 := by decide
  obtain rfl | rfl := hcases c₂ hc₂
  · obtain rfl | rfl := hcases c₁ hc₁
    · exact hblocked
    · exact absurd hbefore (by
        unfold LookedAtBefore
        decide)
  · exact ⟨0, by decide, (blocks_iff (by decide)).mpr ⟨by decide, .inr (.inl (by decide))⟩⟩

end TorEbpf.Client
