import Mathlib
import TorEbpf.Lib.Checked

/-!
# Buffers with checked accesses

A program that reads and writes buffers by index, and asserts: what it must not do is a fault.

* `load`, `store`, `torAssert` — the accesses;
* `padded n l` — a zeroed buffer of `n` elements at whose beginning `l` was written;
* `cText` — the string in a buffer, up to the first zero.
-/

namespace TorEbpf.Lib

inductive Access where
  | assertion
  | read (i : ℕ)
  | write (i : ℕ)
  deriving DecidableEq, Repr

variable {ε α β : Type}

def torAssert (p : Prop) [Decidable p] : Checked ε Access Unit := if p then .ok () else fault .assertion

/-- `buf[i]`. -/
def load (buf : List α) (i : ℕ) : Checked ε Access α :=
  match buf[i]? with
  | some a => .ok a
  | none => fault (.read i)

/-- `buf[i] = a`. -/
def store (buf : List α) (i : ℕ) (a : α) : Checked ε Access (List α) :=
  if i < buf.length then .ok (buf.set i a) else fault (.write i)

section Accesses

variable {p : Prop} [Decidable p] {buf : List α} {i : ℕ} {a : α}

@[simp] theorem torAssert_of (h : p) : (torAssert p : Checked ε Access Unit) = .ok () := if_pos h

theorem torAssert_of_not (h : ¬p) : (torAssert p : Checked ε Access Unit) = fault .assertion := if_neg h

theorem of_torAssert {u : Unit} (h : (torAssert p : Checked ε Access Unit) = .ok u) : p := by
  by_contra hp
  rw [torAssert_of_not hp] at h
  cases h

@[simp] theorem noFault_torAssert : NoFault (torAssert p : Checked ε Access Unit) ↔ p := by
  unfold torAssert
  split_ifs with h
  · simp [h]
  · simp [h]

theorem load_of_lt (h : i < buf.length) : (load buf i : Checked ε Access α) = .ok buf[i] := by
  rw [load, List.getElem?_eq_getElem h]

@[simp] theorem noFault_load : NoFault (load buf i : Checked ε Access α) ↔ i < buf.length := by
  rcases Nat.lt_or_ge i buf.length with h | h
  · rw [load_of_lt h]
    simp [h]
  · rw [load, List.getElem?_eq_none h]
    simp [h]

theorem store_of_lt (h : i < buf.length) : (store buf i a : Checked ε Access (List α)) = .ok (buf.set i a) :=
  if_pos h

@[simp] theorem noFault_store : NoFault (store buf i a : Checked ε Access (List α)) ↔ i < buf.length := by
  unfold store
  split_ifs with h
  · simp [h]
  · simp [h]

theorem length_of_store {buf' : List α} (h : (store buf i a : Checked ε Access (List α)) = .ok buf') :
    buf'.length = buf.length := by
  unfold store at h
  split_ifs at h
  · cases h
    exact List.length_set
  · cases h

end Accesses

/-! ### Loops -/

/-- **A counting loop** runs through the states that its steps lead to. -/
theorem foldlM_range {g : β → ℕ → Checked ε Access β} {s : ℕ → β} {n : ℕ}
    (h : ∀ k < n, g (s k) k = .ok (s (k + 1))) : (List.range n).foldlM g (s 0) = .ok (s n) := by
  induction n with
  | zero => rfl
  | succ n ih =>
    rw [List.range_succ, List.foldlM_append, ih fun k hk => h k (Nat.lt_succ_of_lt hk), ok_bind,
      List.foldlM_cons, h n (Nat.lt_succ_self n)]
    rfl

/-- A loop does not fault if no step does in a state that satisfies the invariant. -/
theorem noFault_foldlM_of_invariant {I : β → Prop} {g : β → α → Checked ε Access β} (l : List α)
    (hsafe : ∀ b, I b → ∀ a ∈ l, NoFault (g b a)) (hstep : ∀ b a b', I b → g b a = .ok b' → I b') {b : β}
    (hb : I b) : NoFault (l.foldlM g b) := by
  rw [noFault_foldlM]
  intro pre a post b' hl hpre
  exact hsafe b' (foldlM_invariant hstep pre hb hpre) a (by rw [hl]; simp)

/-! ### Zeroed buffers -/

/-- A zeroed buffer at whose beginning something was written. -/
def padded (n : ℕ) (l : List UInt8) : List UInt8 := l ++ List.replicate (n - l.length) 0

section Padded

variable {n : ℕ} {l : List UInt8} {c : UInt8}

theorem length_padded (h : l.length ≤ n) : (padded n l).length = n := by
  rw [padded, List.length_append, List.length_replicate, Nat.add_sub_cancel' h]

theorem store_padded {i : ℕ} (hi : l.length = i) (h : i < n) :
    (store (padded n l) i c : Checked ε Access (List UInt8)) = .ok (padded n (l ++ [c])) := by
  subst hi
  obtain ⟨k, hk⟩ : ∃ k, n - l.length = k + 1 := ⟨n - l.length - 1, by omega⟩
  have hnext : n - (l ++ [c]).length = k := by
    rw [List.length_append, List.length_singleton]
    omega
  rw [store_of_lt (by rw [length_padded h.le]; exact h), padded, padded, hk, hnext,
    List.set_append_right _ _ le_rfl, Nat.sub_self, List.replicate_succ, List.set_cons_zero, List.append_assoc]
  rfl

theorem padded_append_zero (h : l.length < n) : padded n (l ++ [0]) = padded n l := by
  obtain ⟨k, hk⟩ : ∃ k, n - l.length = k + 1 := ⟨n - l.length - 1, by omega⟩
  have hnext : n - (l ++ [0]).length = k := by
    rw [List.length_append, List.length_singleton]
    omega
  rw [padded, padded, hk, hnext, List.replicate_succ, List.append_assoc]
  rfl

end Padded

/-- The string that a buffer holds. -/
def cText (buf : List UInt8) : List UInt8 := buf.takeWhile (· ≠ 0)

theorem cText_append_zero {l : List UInt8} (h : ∀ c ∈ l, c ≠ 0) (rest : List UInt8) :
    cText (l ++ 0 :: rest) = l := by
  rw [cText, List.takeWhile_append_of_pos (by simpa using h), List.takeWhile_cons_of_neg (by simp),
    List.append_nil]

theorem length_cText_append_zero_le (l rest : List UInt8) : (cText (l ++ 0 :: rest)).length ≤ l.length := by
  induction l with
  | nil => simp [cText]
  | cons c l ih =>
    rw [cText, List.cons_append, List.takeWhile_cons]
    split_ifs
    · exact Nat.succ_le_succ ih
    · exact Nat.zero_le _

theorem cText_padded {n : ℕ} {l : List UInt8} (h : ∀ c ∈ l, c ≠ 0) (hn : l.length < n) :
    cText (padded n l) = l := by
  obtain ⟨k, hk⟩ : ∃ k, n - l.length = k + 1 := ⟨n - l.length - 1, by omega⟩
  rw [padded, hk, List.replicate_succ, cText_append_zero h]

end TorEbpf.Lib
