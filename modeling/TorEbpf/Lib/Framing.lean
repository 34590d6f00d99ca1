import Mathlib.Tactic.Common
import Mathlib.Data.List.Basic

/-!
# Frames in a stream

A stream carries frames one after the other.  What a frame looks like can depend on the frames before it:
the sender and the receiver each have a state, which a frame can change.

* `Framing` — how frames are written, and how the first of them is read off a buffer;
* `Framing.drain` — to read as many frames as there are;
* `Framing.drain_eq` — of a prefix of a stream, the frames are read that are in it completely, and the rest
  is the start of the next one.
-/

namespace TorEbpf.Lib

variable {σ φ α : Type*}

/-- How frames are written in a state, what a frame makes of the state, and how the first frame is read off
a buffer; a frame that is not there completely is not read. -/
structure Framing (σ φ α : Type*) where
  enc : σ → φ → List α
  after : σ → φ → σ
  ok : σ → φ → Prop
  next : σ → List α → Option (φ × List α)
  next_enc : ∀ {s f}, ok s f → ∀ rest, next s (enc s f ++ rest) = some (f, rest)
  next_short : ∀ {s f p}, ok s f → p <+: enc s f → p.length < (enc s f).length → next s p = none
  next_nil : ∀ s, next s [] = none

namespace Framing

variable (F : Framing σ φ α)

def encAll : σ → List φ → List α
  | _, [] => []
  | s, f :: fs => F.enc s f ++ encAll (F.after s f) fs

def afterAll : σ → List φ → σ
  | s, [] => s
  | s, f :: fs => afterAll (F.after s f) fs

/-- The frames can be written one after the other. -/
def OkAll : σ → List φ → Prop
  | _, [] => True
  | s, f :: fs => F.ok s f ∧ OkAll (F.after s f) fs

/-- To read frames until there is none: the frames, the state after them, and the rest. -/
def drain : ℕ → σ → List α → List φ × σ × List α
  | 0, s, buf => ([], s, buf)
  | n + 1, s, buf =>
      match F.next s buf with
      | none => ([], s, buf)
      | some (f, rest) =>
          let r := drain n (F.after s f) rest
          (f :: r.1, r.2)

/-- The rest is the start of the next frame, without its end. -/
def Unfinished (s : σ) (rest : List α) : List φ → Prop
  | [] => rest = []
  | f :: _ => rest <+: F.enc s f ∧ rest.length < (F.enc s f).length

variable {F} {s : σ} {f : φ} {fs gs : List φ}

theorem enc_ne_nil (h : F.ok s f) : F.enc s f ≠ [] := by
  intro hnil
  have hnext := F.next_enc h []
  rw [hnil, List.nil_append, F.next_nil] at hnext
  cases hnext

theorem drain_of_none {n : ℕ} {buf : List α} (h : F.next s buf = none) : F.drain n s buf = ([], s, buf) := by
  cases n with
  | zero => rfl
  | succ n => rw [drain, h]

theorem drain_of_some {n : ℕ} {buf rest : List α} (h : F.next s buf = some (f, rest)) :
    F.drain (n + 1) s buf = (f :: (F.drain n (F.after s f) rest).1, (F.drain n (F.after s f) rest).2) := by
  rw [drain, h]

theorem encAll_append : F.encAll s (fs ++ gs) = F.encAll s fs ++ F.encAll (F.afterAll s fs) gs := by
  induction fs generalizing s with
  | nil => rfl
  | cons f fs ih => rw [List.cons_append, encAll, encAll, afterAll, ih, List.append_assoc]

theorem afterAll_append : F.afterAll s (fs ++ gs) = F.afterAll (F.afterAll s fs) gs := by
  induction fs generalizing s with
  | nil => rfl
  | cons f fs ih => rw [List.cons_append, afterAll, afterAll, ih]

theorem okAll_append : F.OkAll s (fs ++ gs) ↔ F.OkAll s fs ∧ F.OkAll (F.afterAll s fs) gs := by
  induction fs generalizing s with
  | nil => exact (true_and _).to_iff.symm
  | cons f fs ih => rw [List.cons_append, OkAll, OkAll, afterAll, ih, and_assoc]

theorem Unfinished.append {rest : List α} (h : F.Unfinished s rest fs) (hok : F.ok (F.afterAll s fs) f) :
    F.Unfinished s rest (fs ++ [f]) := by
  cases fs with
  | nil =>
    rw [show rest = [] from h]
    exact ⟨List.nil_prefix, List.length_pos_iff.mpr (enc_ne_nil hok)⟩
  | cons g gs => exact h

/-- **A prefix of a stream** is read frame by frame; what is left is the start of the next frame. -/
theorem drain_eq : ∀ {n s fs buf}, F.OkAll s fs → buf <+: F.encAll s fs → buf.length ≤ n →
    ∃ done rem rest, fs = done ++ rem ∧ buf = F.encAll s done ++ rest ∧
      F.drain n s buf = (done, F.afterAll s done, rest) ∧ F.Unfinished (F.afterAll s done) rest rem := by
  intro n
  induction n with
  | zero =>
    intro s fs buf hok _ hlen
    obtain rfl : buf = [] := List.length_eq_zero_iff.mp (Nat.le_zero.mp hlen)
    refine ⟨[], fs, [], rfl, rfl, rfl, ?_⟩
    cases fs with
    | nil => rfl
    | cons f fs => exact ⟨List.nil_prefix, List.length_pos_iff.mpr (enc_ne_nil hok.1)⟩
  | succ n ih =>
    intro s fs buf hok hbuf hlen
    cases fs with
    | nil =>
      obtain rfl : buf = [] := List.prefix_nil.mp hbuf
      exact ⟨[], [], [], rfl, rfl, drain_of_none (F.next_nil s), rfl⟩
    | cons f fs =>
      rw [encAll] at hbuf
      by_cases hshort : buf.length < (F.enc s f).length
      · -- the first frame is not there completely
        have hprefix : buf <+: F.enc s f :=
          List.prefix_of_prefix_length_le hbuf (List.prefix_append _ _) (Nat.le_of_lt hshort)
        exact ⟨[], f :: fs, buf, rfl, rfl, drain_of_none (F.next_short hok.1 hprefix hshort), hprefix, hshort⟩
      · obtain ⟨rest, rfl⟩ :=
          List.prefix_of_prefix_length_le (List.prefix_append _ _) hbuf (Nat.le_of_not_lt hshort)
        rw [List.prefix_append_right_inj] at hbuf
        have hpos := List.length_pos_iff.mpr (enc_ne_nil hok.1)
        rw [List.length_append] at hlen
        obtain ⟨done, rem, rest', rfl, rfl, hdrain, hrest⟩ := ih hok.2 hbuf (by omega)
        refine ⟨f :: done, rem, rest', rfl, ?_, ?_, hrest⟩
        · rw [encAll, List.append_assoc]
        · rw [drain_of_some (F.next_enc hok.1 _), hdrain]
          rfl

end Framing

end TorEbpf.Lib
