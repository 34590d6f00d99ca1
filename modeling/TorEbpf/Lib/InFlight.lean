import Mathlib.Tactic.Common

/-!
# Messages in flight

A sender writes to a channel, and the receiver reads from it in order.  What the sender knows of the
receiver is about the state that it will be in when it has read all that is in flight.

* `Flows` — the receiver can read every message in flight, and a property holds when it has;
* `Flows.with_invariant` — what every message preserves;
* `Flows.related` — the receiver changes by itself, into a state that a relation joins to the old one.
-/

namespace TorEbpf.Lib

variable {ρ μ : Type*} {ok : μ → ρ → Prop} {act : μ → ρ → ρ} {P P' : ρ → Prop} {r r' : ρ}

/-- Every message can be read where the receiver gets to it, and in the end the property holds. -/
def Flows (ok : μ → ρ → Prop) (act : μ → ρ → ρ) (P : ρ → Prop) : ρ → List μ → Prop
  | r, [] => P r
  | r, m :: queue => ok m r ∧ Flows ok act P (act m r) queue

theorem flows_concat (queue : List μ) (m : μ) :
    ∀ r : ρ, Flows ok act P r (queue ++ [m]) ↔ Flows ok act (fun r => ok m r ∧ P (act m r)) r queue := by
  induction queue with
  | nil =>
    intro r
    exact Iff.rfl
  | cons m' queue ih =>
    intro r
    exact and_congr_right fun _ => ih (act m' r)

theorem Flows.mono {queue : List μ} (hP : ∀ r, P r → P' r) :
    ∀ {r : ρ}, Flows ok act P r queue → Flows ok act P' r queue := by
  induction queue with
  | nil =>
    intro r h
    exact hP r h
  | cons m queue ih =>
    intro r h
    exact ⟨h.1, ih h.2⟩

/-- **An invariant** holds in the end too. -/
theorem Flows.with_invariant {I : ρ → Prop} {queue : List μ}
    (hI : ∀ m r, I r → ok m r → I (act m r)) :
    ∀ {r : ρ}, I r → Flows ok act P r queue → Flows ok act (fun r => P r ∧ I r) r queue := by
  induction queue with
  | nil =>
    intro r hr h
    exact ⟨h, hr⟩
  | cons m queue ih =>
    intro r hr h
    exact ⟨h.1, ih (hI m r hr h.1) h.2⟩

/-- **Another state** of the receiver, from which it reads the same messages. -/
theorem Flows.related (rel : ρ → ρ → Prop) {queue : List μ}
    (hstep : ∀ m r r', rel r' r → ok m r → ok m r' ∧ rel (act m r') (act m r))
    (hP : ∀ r r', rel r' r → P r → P r') :
    ∀ {r r' : ρ}, rel r' r → Flows ok act P r queue → Flows ok act P r' queue := by
  induction queue with
  | nil =>
    intro r r' hrel h
    exact hP r r' hrel h
  | cons m queue ih =>
    intro r r' hrel h
    obtain ⟨hok, hrel'⟩ := hstep m r r' hrel h.1
    exact ⟨hok, ih hrel' h.2⟩

end TorEbpf.Lib
