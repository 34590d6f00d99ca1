import Mathlib.Tactic.Common

/-!
# First-match rule lists

A rule list answers a question with the answer of its first rule that matches, or with a default.

* `answer` — that evaluation, with `answer_append` and `answer_eq_iff`;
* `answer_erase_covered` — a rule is dead if whatever it matches an earlier rule matches too;
* `answer_erase_subsumed` — a rule may go if a later rule with its answer matches whatever it matches,
  and no rule in between that matches any of it answers otherwise.
-/

namespace TorEbpf.Lib

variable {α β : Type*} (p : α → Bool) (ans : α → β) (dflt : β)

/-- What a rule list answers to a question, where `p` says which rules match it. -/
def answer : List α → β
  | [] => dflt
  | a :: l => if p a then ans a else answer l

variable {p ans dflt}

@[simp] theorem answer_cons_of_pos {a : α} {l : List α} (h : p a = true) :
    answer p ans dflt (a :: l) = ans a := by
  simp [answer, h]

@[simp] theorem answer_cons_of_neg {a : α} {l : List α} (h : p a = false) :
    answer p ans dflt (a :: l) = answer p ans dflt l := by
  simp [answer, h]

theorem answer_append (l₁ l₂ : List α) :
    answer p ans dflt (l₁ ++ l₂) = answer p ans (answer p ans dflt l₂) l₁ := by
  induction l₁ with
  | nil => rfl
  | cons a l₁ ih => simp only [List.cons_append, answer, ih]

/-- **What the answer says**: the first rule that matches has it, or it is the default. -/
theorem answer_eq_iff {l : List α} {x : β} :
    answer p ans dflt l = x ↔
      (∃ l₁ a l₂, l = l₁ ++ a :: l₂ ∧ p a = true ∧ (∀ b ∈ l₁, p b = false) ∧ ans a = x) ∨
        (∀ b ∈ l, p b = false) ∧ dflt = x := by
  induction l with
  | nil =>
    refine ⟨fun h => .inr ⟨nofun, h⟩, ?_⟩
    rintro (⟨l₁, a, l₂, heq, _⟩ | ⟨_, h⟩)
    · exact absurd (List.append_eq_nil_iff.mp heq.symm).2 (List.cons_ne_nil a l₂)
    · exact h
  | cons b l ih =>
    cases hb : p b with
    | true =>
      rw [answer_cons_of_pos hb]
      refine ⟨fun h => .inl ⟨[], b, l, rfl, hb, nofun, h⟩, ?_⟩
      rintro (⟨l₁, a, l₂, heq, hp, hbefore, h⟩ | ⟨hnone, _⟩)
      · cases l₁ with
        | nil =>
          cases heq
          exact h
        | cons c l₁ =>
          cases heq
          rw [hbefore b List.mem_cons_self] at hb
          cases hb
      · rw [hnone b List.mem_cons_self] at hb
        cases hb
    | false =>
      rw [answer_cons_of_neg hb, ih]
      constructor
      · rintro (⟨l₁, a, l₂, rfl, hp, hbefore, h⟩ | ⟨hnone, h⟩)
        · exact .inl ⟨b :: l₁, a, l₂, rfl, hp, List.forall_mem_cons.mpr ⟨hb, hbefore⟩, h⟩
        · exact .inr ⟨List.forall_mem_cons.mpr ⟨hb, hnone⟩, h⟩
      · rintro (⟨l₁, a, l₂, heq, hp, hbefore, h⟩ | ⟨hnone, h⟩)
        · cases l₁ with
          | nil =>
            cases heq
            rw [hp] at hb
            cases hb
          | cons c l₁ =>
            cases heq
            exact .inl ⟨l₁, a, l₂, rfl, hp, (List.forall_mem_cons.mp hbefore).2, h⟩
        · exact .inr ⟨(List.forall_mem_cons.mp hnone).2, h⟩

/-- Where some rule matches, the default does not matter. -/
theorem answer_congr_default {l : List α} {a : α} (ha : a ∈ l) (hp : p a = true) (d d' : β) :
    answer p ans d l = answer p ans d' l := by
  induction l with
  | nil => cases ha
  | cons b l ih =>
    rcases List.mem_cons.mp ha with rfl | hmem
    · rw [answer_cons_of_pos hp, answer_cons_of_pos hp]
    · simp only [answer, ih hmem]

/-- A rule whose matches an earlier rule takes is never reached. -/
theorem answer_erase_covered {l₁ l₂ : List α} {a b : α} (ha : a ∈ l₁)
    (hcov : p b = true → p a = true) :
    answer p ans dflt (l₁ ++ b :: l₂) = answer p ans dflt (l₁ ++ l₂) := by
  rw [answer_append, answer_append]
  cases hb : p b with
  | false => rw [answer_cons_of_neg hb]
  | true => exact answer_congr_default ha (hcov hb) _ _

/-- Rules that either give one answer or do not match, in front of a rule that matches with that
answer, give that answer. -/
theorem answer_uniform {l₁ l₂ : List α} {c : α} (hc : p c = true)
    (hbetween : ∀ x ∈ l₁, p x = true → ans x = ans c) :
    answer p ans dflt (l₁ ++ c :: l₂) = ans c := by
  induction l₁ with
  | nil => exact answer_cons_of_pos hc
  | cons x l₁ ih =>
    have hrest := ih (fun y hy => hbetween y (List.mem_cons_of_mem x hy))
    cases hx : p x with
    | true =>
      rw [List.cons_append, answer_cons_of_pos hx]
      exact hbetween x List.mem_cons_self hx
    | false => rw [List.cons_append, answer_cons_of_neg hx, hrest]

/-- A rule whose matches get its answer from the rules behind it may go. -/
theorem answer_erase_subsumed {l₀ l₁ l₂ : List α} {a c : α} (hans : ans c = ans a)
    (hcov : p a = true → p c = true)
    (hbetween : ∀ x ∈ l₁, p a = true → p x = true → ans x = ans a) :
    answer p ans dflt (l₀ ++ a :: (l₁ ++ c :: l₂)) = answer p ans dflt (l₀ ++ (l₁ ++ c :: l₂)) := by
  rw [answer_append, answer_append]
  cases ha : p a with
  | false => rw [answer_cons_of_neg ha]
  | true =>
    have hrest : answer p ans dflt (l₁ ++ c :: l₂) = ans c := by
      refine answer_uniform (hcov ha) ?_
      intro x hx hpx
      rw [hans]
      exact hbetween x hx ha hpx
    rw [answer_cons_of_pos ha, hrest, hans]

end TorEbpf.Lib
