import Mathlib.Tactic.Common

/-!
# Runs of labelled transition systems

A system is a relation `step s e s'`: in the state `s` the event `e` leads to `s'`.  A run is a list of
events with the states they lead through.

* `Run.invariant` — what every step preserves holds at the end of every run;
* `option_foldlM_invariant`, `option_foldlM_total` — the invariant rules for a loop that can fail, and for
  one that does not;
* `Run.simulation` — a relation that every step of a system is matched under by a step of another, with
  the same event, matches their runs.
-/

namespace TorEbpf.Lib

variable {σ τ ε : Type*}

inductive Run (step : σ → ε → σ → Prop) : σ → List ε → σ → Prop where
  | nil (s : σ) : Run step s [] s
  | cons {s s' s'' : σ} {e : ε} {es : List ε} (hstep : step s e s') (hrun : Run step s' es s'') :
      Run step s (e :: es) s''

variable {step : σ → ε → σ → Prop} {astep : τ → ε → τ → Prop}

theorem Run.invariant {I : σ → Prop} (hstep : ∀ s e s', I s → step s e s' → I s') {s s' : σ}
    {es : List ε} (hrun : Run step s es s') (hs : I s) : I s' := by
  induction hrun with
  | nil s => exact hs
  | cons hfirst _ ih => exact ih (hstep _ _ _ hs hfirst)

theorem Run.append {s s' s'' : σ} {es es' : List ε} (hrun : Run step s es s') (hrun' : Run step s' es' s'') :
    Run step s (es ++ es') s'' := by
  induction hrun with
  | nil s => exact hrun'
  | cons hstep _ ih => exact .cons hstep (ih hrun')

theorem Run.of_append {s s'' : σ} {es es' : List ε} (hrun : Run step s (es ++ es') s'') :
    ∃ s', Run step s es s' ∧ Run step s' es' s'' := by
  induction es generalizing s with
  | nil => exact ⟨s, .nil s, hrun⟩
  | cons e es ih =>
    obtain _ | ⟨hstep, hrun⟩ := hrun
    obtain ⟨s', hfirst, hrest⟩ := ih hrun
    exact ⟨s', .cons hstep hfirst, hrest⟩

/-- The run of steps that are functions, each under a condition that can be tested. -/
theorem Run.of_foldlM {P : σ → ε → Prop} [∀ s e, Decidable (P s e)] {g : σ → ε → Option σ} {es : List ε} :
    ∀ {s s' : σ}, es.foldlM (fun s e => if P s e then g s e else none) s = some s' →
      Run (fun s e s' => P s e ∧ g s e = some s') s es s' := by
  induction es with
  | nil =>
    intro s s' h
    cases h
    exact .nil s
  | cons e es ih =>
    intro s s' h
    rw [List.foldlM_cons] at h
    obtain ⟨t, ht, h⟩ := Option.bind_eq_some_iff.mp h
    split_ifs at ht with hP
    · exact .cons ⟨hP, ht⟩ (ih h)

theorem option_foldlM_invariant {I : σ → Prop} {g : σ → ε → Option σ} (l : List ε)
    (hstep : ∀ e ∈ l, ∀ s s', I s → g s e = some s' → I s') :
    ∀ {s s'}, I s → l.foldlM g s = some s' → I s' := by
  induction l with
  | nil =>
    intro s s' hs h
    cases h
    exact hs
  | cons e l ih =>
    intro s s' hs h
    rw [List.foldlM_cons] at h
    obtain ⟨t, ht, h⟩ := Option.bind_eq_some_iff.mp h
    exact ih (fun e' he' => hstep e' (List.mem_cons_of_mem e he'))
      (hstep e List.mem_cons_self s t hs ht) h

theorem option_foldlM_total {I : σ → Prop} {g : σ → ε → Option σ} (l : List ε)
    (hstep : ∀ e ∈ l, ∀ s, I s → ∃ s', g s e = some s' ∧ I s') :
    ∀ {s}, I s → ∃ s', l.foldlM g s = some s' ∧ I s' := by
  induction l with
  | nil => exact fun hs => ⟨_, rfl, hs⟩
  | cons e l ih =>
    intro s hs
    obtain ⟨t, ht, hIt⟩ := hstep e List.mem_cons_self s hs
    obtain ⟨s', hs', hIs'⟩ := ih (fun e' he' => hstep e' (List.mem_cons_of_mem e he')) hIt
    refine ⟨s', ?_, hIs'⟩
    rw [List.foldlM_cons, ht]
    exact hs'

/-- Forward simulation, event by event. -/
theorem Run.simulation {R : σ → τ → Prop}
    (hstep : ∀ s e s' t, R s t → step s e s' → ∃ t', astep t e t' ∧ R s' t') {s s' : σ}
    {es : List ε} (hrun : Run step s es s') :
    ∀ {t : τ}, R s t → ∃ t', Run astep t es t' ∧ R s' t' := by
  induction hrun with
  | nil s =>
    intro t ht
    exact ⟨t, .nil t, ht⟩
  | cons hfirst _ ih =>
    intro t ht
    obtain ⟨t₁, hafirst, ht₁⟩ := hstep _ _ _ _ ht hfirst
    obtain ⟨t', harun, ht'⟩ := ih ht₁
    exact ⟨t', .cons hafirst harun, ht'⟩

end TorEbpf.Lib
