import Mathlib.Tactic.Common

/-!
# Computations that can be rejected or fault

`Checked ε φ α` is a computation that yields a value, is rejected with an error of its own (`ε`), or
makes an access it must not make (`φ`).  `NoFault` says that the last does not happen; the rules here
are exact, so that "does not fault" can be pushed through a program in both directions:

* `noFault_bind` — through a sequence;
* `noFault_foldlM` — through a loop: a loop does not fault iff no step that is reached does;
* `Below` — a computation that yields what another one does, as far as it yields anything.
-/

namespace TorEbpf.Lib

/-- Why a computation stops early. -/
inductive Stop (ε φ : Type) where
  | reject (e : ε)
  | fault (f : φ)
  deriving DecidableEq, Repr

/-- A computation that can be rejected or fault. -/
abbrev Checked (ε φ α : Type) := Except (Stop ε φ) α

variable {ε φ α β : Type}

def reject (e : ε) : Checked ε φ α := .error (.reject e)

def fault (f : φ) : Checked ε φ α := .error (.fault f)

/-- The computation makes no forbidden access. -/
def NoFault (x : Checked ε φ α) : Prop := ∀ f, x ≠ .error (.fault f)

/-- The forbidden access, if the computation makes one. -/
def fault? : Checked ε φ α → Option φ
  | .error (.fault f) => some f
  | _ => none

theorem noFault_iff_fault? {x : Checked ε φ α} : NoFault x ↔ fault? x = none := by
  constructor
  · intro h
    match x with
    | .ok a => rfl
    | .error (.reject e) => rfl
    | .error (.fault f) => exact absurd rfl (h f)
  · intro h f hx
    rw [hx] at h
    cases h

@[simp] theorem noFault_ok (a : α) : NoFault (.ok a : Checked ε φ α) := by
  intro f h
  cases h

@[simp] theorem noFault_pure (a : α) : NoFault (pure a : Checked ε φ α) := noFault_ok a

@[simp] theorem noFault_reject (e : ε) : NoFault (reject e : Checked ε φ α) := by
  intro f h
  cases h

@[simp] theorem not_noFault_fault (f : φ) : ¬NoFault (fault f : Checked ε φ α) := by
  intro h
  exact h f rfl

@[simp] theorem ok_bind (a : α) (g : α → Checked ε φ β) :
    (Except.ok a : Checked ε φ α) >>= g = g a := rfl

@[simp] theorem reject_bind (e : ε) (g : α → Checked ε φ β) :
    (reject e : Checked ε φ α) >>= g = reject e := rfl

/-- A sequence yields what its second part yields on the value of the first. -/
theorem bind_eq_ok {x : Checked ε φ α} {g : α → Checked ε φ β} {b : β} :
    x >>= g = .ok b ↔ ∃ a, x = .ok a ∧ g a = .ok b := by
  cases x with
  | ok a =>
    constructor
    · intro h
      exact ⟨a, rfl, h⟩
    · intro ⟨a', ha, hb⟩
      cases ha
      exact hb
  | error s =>
    constructor
    · intro h
      cases h
    · intro ⟨a, ha, _⟩
      cases ha

/-- **Sequencing.** -/
theorem noFault_bind {x : Checked ε φ α} {g : α → Checked ε φ β} :
    NoFault (x >>= g) ↔ NoFault x ∧ ∀ a, x = .ok a → NoFault (g a) := by
  cases x with
  | ok a =>
    constructor
    · intro h
      refine ⟨noFault_ok a, ?_⟩
      intro b hb
      cases hb
      exact h
    · intro h
      exact h.2 a rfl
  | error s =>
    cases s with
    | reject e =>
      constructor
      · intro _
        exact ⟨noFault_reject e, fun b hb => by cases hb⟩
      · intro _
        exact noFault_reject e
    | fault f =>
      constructor
      · intro h
        exact absurd rfl (h f)
      · intro h
        exact absurd rfl (h.1 f)

/-- Where `x` yields a value, `y` yields the same one. -/
def Below (x y : Checked ε φ α) : Prop := ∀ a, x = .ok a → y = .ok a

theorem Below.refl (x : Checked ε φ α) : Below x x := fun _ h => h

theorem Below.bind {x y : Checked ε φ α} {g g' : α → Checked ε φ β} (h : Below x y)
    (hg : ∀ a, Below (g a) (g' a)) : Below (x >>= g) (y >>= g') := by
  intro b hb
  obtain ⟨a, ha, hb⟩ := bind_eq_ok.mp hb
  rw [h a ha, ok_bind]
  exact hg a b hb

theorem Below.map {x y : Checked ε φ α} (h : Below x y) (f : α → β) : Below (f <$> x) (f <$> y) := by
  intro b hb
  cases hx : x with
  | error s =>
    rw [hx] at hb
    cases hb
  | ok a =>
    rw [hx] at hb
    rw [h a hx]
    exact hb

/-- **Loops.**  A loop does not fault iff no step does that is reached. -/
theorem noFault_foldlM {g : β → α → Checked ε φ β} (l : List α) :
    ∀ b, NoFault (l.foldlM g b) ↔
      ∀ pre a post b', l = pre ++ a :: post → pre.foldlM g b = .ok b' → NoFault (g b' a) := by
  induction l with
  | nil =>
    intro b
    constructor
    · intro _ pre a post b' hl
      simp at hl
    · intro _
      exact noFault_pure b
  | cons x xs ih =>
    intro b
    rw [List.foldlM_cons, noFault_bind]
    constructor
    · rintro ⟨hx, hrest⟩ pre a post b' hl hpre
      cases pre with
      | nil =>
        cases hl
        cases hpre
        exact hx
      | cons y pre =>
        cases hl
        rw [List.foldlM_cons, bind_eq_ok] at hpre
        obtain ⟨b₁, hy, hpre⟩ := hpre
        exact (ih b₁).mp (hrest b₁ hy) pre a post b' rfl hpre
    · intro h
      refine ⟨h [] x xs b rfl rfl, ?_⟩
      intro b₁ hb₁
      rw [ih b₁]
      intro pre a post b' hl hpre
      refine h (x :: pre) a post b' (by rw [hl, List.cons_append]) ?_
      rw [List.foldlM_cons, hb₁]
      exact hpre

theorem foldlM_invariant {I : β → Prop} {g : β → α → Checked ε φ β}
    (hstep : ∀ b a b', I b → g b a = .ok b' → I b') (l : List α) :
    ∀ {b b'}, I b → l.foldlM g b = .ok b' → I b' := by
  induction l with
  | nil =>
    intro b b' hb h
    cases h
    exact hb
  | cons x xs ih =>
    intro b b' hb h
    rw [List.foldlM_cons, bind_eq_ok] at h
    obtain ⟨b₁, hx, h⟩ := h
    exact ih (hstep b x b₁ hb hx) h

theorem forall₂_of_mapM {f : α → Checked ε φ β} (l : List α) :
    ∀ {m}, l.mapM f = .ok m → List.Forall₂ (fun a b => f a = .ok b) l m := by
  induction l with
  | nil =>
    intro m h
    cases h
    exact .nil
  | cons a l ih =>
    intro m h
    rw [List.mapM_cons, bind_eq_ok] at h
    obtain ⟨b, hb, h⟩ := h
    obtain ⟨m', hm', h⟩ := bind_eq_ok.mp h
    cases h
    exact .cons hb (ih hm')

theorem noFault_mapM {f : α → Checked ε φ β} (l : List α) (h : ∀ a ∈ l, NoFault (f a)) : NoFault (l.mapM f) := by
  induction l with
  | nil => exact noFault_pure _
  | cons a l ih =>
    rw [List.mapM_cons, noFault_bind]
    refine ⟨h a List.mem_cons_self, fun b _ => ?_⟩
    rw [noFault_bind]
    exact ⟨ih fun x hx => h x (List.mem_cons_of_mem a hx), fun m _ => noFault_pure _⟩

theorem mapM_ok_of_forall {f : α → Checked ε φ β} (l : List α) (h : ∀ a ∈ l, ∃ b, f a = .ok b) :
    ∃ m, l.mapM f = .ok m := by
  induction l with
  | nil => exact ⟨[], rfl⟩
  | cons a l ih =>
    obtain ⟨b, hb⟩ := h a List.mem_cons_self
    obtain ⟨m, hm⟩ := ih fun x hx => h x (List.mem_cons_of_mem a hx)
    refine ⟨b :: m, ?_⟩
    rw [List.mapM_cons, hb, ok_bind, hm]
    rfl

end TorEbpf.Lib
