import Mathlib.Tactic.Common

/-!
# Step machines and their runs

A machine is a function `step : σ → Result σ ο`: from a state it either moves on to a next state or
halts with an outcome.  Nothing here is about a particular machine.  The file provides

* `run` — the machine iterated for a number of steps, with `run_add`, which splits a run;
* `Reaches` and `ReachesVia` — some run leads from one state to another, the latter with a condition
  on the state before each step;
* `halts_of_measure` — the induction rule for termination;
* `ReachesVia.invariant` — the induction rule for safety: what holds at the start and is preserved by
  each step holds of every state reached;
* `forward_simulation` — one step of a source machine matched by some run of a target machine gives
  every run of the source matched by a run of the target.
-/

namespace TorEbpf.Lib

/-- What one step of a machine can do. -/
inductive Result (σ ο : Type*) where
  | next (s : σ)
  | halt (o : ο)

variable {σ τ ο ο' : Type*}

/-- Iterate a machine for `n` steps; a halted machine stays halted. -/
def run (step : σ → Result σ ο) : ℕ → σ → Result σ ο
  | 0, s => .next s
  | n + 1, s =>
      match step s with
      | .next s' => run step n s'
      | .halt o => .halt o

variable {step : σ → Result σ ο}

@[simp] theorem run_zero (s : σ) : run step 0 s = .next s := rfl

theorem run_succ_of_next {s s' : σ} (h : step s = .next s') (n : ℕ) :
    run step (n + 1) s = run step n s' := by
  simp only [run, h]

theorem run_succ_of_halt {s : σ} {o : ο} (h : step s = .halt o) (n : ℕ) :
    run step (n + 1) s = .halt o := by
  simp only [run, h]

theorem run_one (s : σ) : run step 1 s = step s := by
  cases h : step s with
  | next s' => rw [run_succ_of_next h, run_zero]
  | halt o => rw [run_succ_of_halt h]

theorem run_add {s s' : σ} {m : ℕ} (h : run step m s = .next s') (n : ℕ) :
    run step (m + n) s = run step n s' := by
  induction m generalizing s with
  | zero =>
    rw [run_zero] at h
    cases h
    rw [Nat.zero_add]
  | succ m ih =>
    cases hs : step s with
    | next s₁ =>
      rw [run_succ_of_next hs] at h
      rw [show m + 1 + n = (m + n) + 1 from by omega, run_succ_of_next hs]
      exact ih h
    | halt o =>
      rw [run_succ_of_halt hs] at h
      cases h

/-- Some run of the machine leads from `s` to `s'`. -/
def Reaches (step : σ → Result σ ο) (s s' : σ) : Prop := ∃ n, run step n s = .next s'

theorem Reaches.refl (s : σ) : Reaches step s s := ⟨0, rfl⟩

theorem Reaches.trans {s s' s'' : σ} (h : Reaches step s s') (h' : Reaches step s' s'') :
    Reaches step s s'' := by
  obtain ⟨m, hm⟩ := h
  obtain ⟨n, hn⟩ := h'
  exact ⟨m + n, by rw [run_add hm, hn]⟩

theorem Reaches.single {s s' : σ} (h : step s = .next s') : Reaches step s s' :=
  ⟨1, by rw [run_one, h]⟩

theorem Reaches.head {s s' s'' : σ} (h : step s = .next s') (h' : Reaches step s' s'') :
    Reaches step s s'' :=
  (Reaches.single h).trans h'

theorem run_halt_of_le {s : σ} {o : ο} {m n : ℕ} (h : run step m s = .halt o) (hmn : m ≤ n) :
    run step n s = .halt o := by
  induction m generalizing s n with
  | zero => cases h
  | succ m ih =>
    obtain ⟨n, rfl⟩ : ∃ k, n = k + 1 := ⟨n - 1, by omega⟩
    cases hs : step s with
    | next s₁ =>
      rw [run_succ_of_next hs] at h ⊢
      exact ih h (Nat.le_of_succ_le_succ hmn)
    | halt o₁ =>
      rw [run_succ_of_halt hs] at h ⊢
      exact h

/-- **Termination rule.**  A machine whose steps keep an invariant and make a measure smaller halts, and in
an outcome that a step out of a state with the invariant can have. -/
theorem halts_of_measure {I : σ → Prop} {Q : ο → Prop} (measure : σ → ℕ)
    (hnext : ∀ s s', I s → step s = .next s' → I s' ∧ measure s' < measure s)
    (hhalt : ∀ s o, I s → step s = .halt o → Q o) {n : ℕ} {s : σ} (hI : I s) (hn : measure s < n) :
    ∃ o, run step n s = .halt o ∧ Q o := by
  induction n generalizing s with
  | zero => cases hn
  | succ n ih =>
    cases hs : step s with
    | next s₁ =>
      obtain ⟨hI₁, hlt⟩ := hnext s s₁ hI hs
      rw [run_succ_of_next hs]
      exact ih hI₁ (by omega)
    | halt o => exact ⟨o, run_succ_of_halt hs n, hhalt s o hI hs⟩

/-- A run that is long enough to halt ends as the state that it passes through does. -/
theorem run_of_reaches {s s' : σ} {o o' : ο} {n : ℕ} (h : Reaches step s s') (hs' : step s' = .halt o)
    (hn : run step n s = .halt o') : run step n s = .halt o := by
  obtain ⟨m, hm⟩ := h
  have hm' : run step (m + 1) s = .halt o := by rw [run_add hm, run_one, hs']
  have hmax := run_halt_of_le hm' (Nat.le_max_right n (m + 1))
  rw [run_halt_of_le hn (Nat.le_max_left n (m + 1))] at hmax
  rw [hn, hmax]

/-- Some run leads from `s` to `s'`, and every step of it is taken from a state that meets `C`. -/
def ReachesVia (step : σ → Result σ ο) (C : σ → Prop) (s s' : σ) : Prop :=
  ∃ n, run step n s = .next s' ∧ ∀ k < n, ∀ t, run step k s = .next t → C t

theorem Reaches.via {s s' : σ} (h : Reaches step s s') : ReachesVia step (fun _ => True) s s' := by
  obtain ⟨n, hn⟩ := h
  exact ⟨n, hn, fun _ _ _ _ => trivial⟩

/-- **Invariant rule.**  A property of the start that every step out of a state meeting `C` preserves
holds of every state reached by such steps. -/
theorem ReachesVia.invariant {C I : σ → Prop} {s₀ s : σ} (h : ReachesVia step C s₀ s) (h₀ : I s₀)
    (hstep : ∀ s s', I s → C s → step s = .next s' → I s') : I s := by
  obtain ⟨n, hn, hC⟩ := h
  induction n generalizing s₀ with
  | zero =>
    rw [run_zero] at hn
    cases hn
    exact h₀
  | succ n ih =>
    cases hs : step s₀ with
    | next s₁ =>
      rw [run_succ_of_next hs] at hn
      refine ih (hstep s₀ s₁ h₀ (hC 0 (by omega) s₀ rfl) hs) hn ?_
      intro k hk t ht
      exact hC (k + 1) (by omega) t (by rw [run_succ_of_next hs]; exact ht)
    | halt o =>
      rw [run_succ_of_halt hs] at hn
      cases hn

/-- Two results of related machines: related states, or related outcomes. -/
inductive Result.Rel (R : σ → τ → Prop) (Q : ο → ο' → Prop) : Result σ ο → Result τ ο' → Prop
  | next {s : σ} {t : τ} : R s t → Result.Rel R Q (.next s) (.next t)
  | halt {o : ο} {o' : ο'} : Q o o' → Result.Rel R Q (.halt o) (.halt o')

/-- Related results whose states are, as these very results, related in a further way. -/
theorem Result.Rel.imp {R R' : σ → τ → Prop} {Q : ο → ο' → Prop} {a : Result σ ο} {b : Result τ ο'}
    (h : Result.Rel R Q a b)
    (himp : ∀ s t, a = .next s → b = .next t → R s t → R' s t) : Result.Rel R' Q a b := by
  cases h with
  | next hR => exact .next (himp _ _ rfl rfl hR)
  | halt hQ => exact .halt hQ

/-- **Forward simulation.**  Suppose each step of the source out of a state that meets `C` is matched
by a run of the target.  Then every run of the source whose states before each step meet `C` is
matched by a run of the target. -/
theorem forward_simulation {step' : τ → Result τ ο'} {R : σ → τ → Prop} {Q : ο → ο' → Prop}
    {C : σ → Prop}
    (hsim : ∀ s t, R s t → C s → ∃ k, Result.Rel R Q (step s) (run step' k t)) :
    ∀ (n : ℕ) (s : σ) (t : τ), R s t →
      (∀ k < n, ∀ s', run step k s = .next s' → C s') →
      ∃ m, Result.Rel R Q (run step n s) (run step' m t) := by
  intro n
  induction n with
  | zero =>
    intro s t hR _
    exact ⟨0, .next hR⟩
  | succ n ih =>
    intro s t hR hC
    obtain ⟨k, hk⟩ := hsim s t hR (hC 0 (by omega) s rfl)
    cases hs : step s with
    | halt o =>
      rw [hs] at hk
      exact ⟨k, by rw [run_succ_of_halt hs]; exact hk⟩
    | next s₁ =>
      rw [hs] at hk
      cases hr : run step' k t with
      | halt o => rw [hr] at hk; cases hk
      | next t₁ =>
        rw [hr] at hk
        cases hk with
        | next hR₁ =>
          have hC₁ : ∀ j < n, ∀ s', run step j s₁ = .next s' → C s' := by
            intro j hj s' hs'
            exact hC (j + 1) (by omega) s' (by rw [run_succ_of_next hs]; exact hs')
          obtain ⟨m, hm⟩ := ih s₁ t₁ hR₁ hC₁
          exact ⟨k + m, by rw [run_succ_of_next hs, run_add hr]; exact hm⟩

end TorEbpf.Lib
