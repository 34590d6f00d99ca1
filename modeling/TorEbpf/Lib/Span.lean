import Mathlib.Data.List.Range
import TorEbpf.Lib.Events

/-!
# Spans of memory and arenas

A span is a run of addresses, memory a function of the address.  An arena hands out spans and takes
them back all at once.

* `Span.Apart.mono` — what lies in one of two spans apart is apart from what lies in the other;
* `loadList_storeList`, `loadList_congr` — what a store is read back as, and what it leaves alone;
* `apart_of_arenaStep` — the spans that an arena has handed out are apart.
-/

namespace TorEbpf.Lib

/-- The `size` addresses from `start` on. -/
structure Span where
  start : ℕ
  size : ℕ
  deriving DecidableEq, Repr

namespace Span

def top (s : Span) : ℕ := s.start + s.size

instance : Membership ℕ Span := ⟨fun s a => s.start ≤ a ∧ a < s.top⟩

/-- All of `s` lies in `t`. -/
def Within (s t : Span) : Prop := t.start ≤ s.start ∧ s.top ≤ t.top

/-- One of the spans lies below the other. -/
def Apart (s t : Span) : Prop := s.top ≤ t.start ∨ t.top ≤ s.start

variable {s s' t t' : Span} {a : ℕ}

theorem mem_iff : a ∈ s ↔ s.start ≤ a ∧ a < s.top := Iff.rfl

theorem Within.trans (h : s.Within t) (h' : t.Within t') : s.Within t' :=
  ⟨h'.1.trans h.1, h.2.trans h'.2⟩

theorem Within.mem (h : s.Within t) (ha : a ∈ s) : a ∈ t := ⟨h.1.trans ha.1, ha.2.trans_le h.2⟩

theorem Apart.symm (h : s.Apart t) : t.Apart s := Or.symm h

theorem Apart.mono (h : t.Apart t') (hs : s.Within t) (hs' : s'.Within t') : s.Apart s' := by
  rcases h with h | h
  · exact .inl (hs.2.trans (h.trans hs'.1))
  · exact .inr (hs'.2.trans (h.trans hs.1))

theorem Apart.notMem (h : s.Apart t) (ha : a ∈ s) : a ∉ t := by
  intro ht
  rw [mem_iff] at ha ht
  rcases h with h | h
  · omega
  · omega

end Span

/-! ### Memory -/

section Memory

variable {α : Type*} {m m' : ℕ → α} {a n x : ℕ} {l : List α}

/-- The memory after a store of `l` at `a`. -/
def storeList (m : ℕ → α) (a : ℕ) (l : List α) : ℕ → α := fun x =>
  if a ≤ x then (l[x - a]?).getD (m x) else m x

/-- The `n` elements at `a`. -/
def loadList (m : ℕ → α) (a n : ℕ) : List α := (List.range n).map fun i => m (a + i)

theorem loadList_storeList (m : ℕ → α) (a : ℕ) (l : List α) :
    loadList (storeList m a l) a l.length = l := by
  apply List.ext_getElem
  · simp [loadList]
  · intro i _ hi
    simp [loadList, storeList, hi]

theorem storeList_of_notMem (h : x ∉ (⟨a, l.length⟩ : Span)) : storeList m a l x = m x := by
  unfold storeList
  split_ifs with hle
  · have hnone : l[x - a]? = none := by
      apply List.getElem?_eq_none
      by_contra hlt
      exact h ⟨hle, by show x < a + l.length; omega⟩
    rw [hnone]
    rfl
  · rfl

theorem loadList_congr (h : ∀ x ∈ (⟨a, n⟩ : Span), m x = m' x) : loadList m a n = loadList m' a n := by
  apply List.map_congr_left
  intro i hi
  have hlt : i < n := List.mem_range.mp hi
  exact h _ ⟨Nat.le_add_right a i, Nat.add_lt_add_left hlt a⟩

end Memory

/-! ### Arenas -/

inductive ArenaEvent where
  | alloc (size : ℕ)
  | clear
  | use

/-- An arena that hands out spans aligned to `align`: a new one is apart from those that are out. -/
inductive ArenaStep (align : ℕ) : List Span → ArenaEvent → List Span → Prop where
  | alloc {live : List Span} {size : ℕ} {b : Span} (haligned : align ∣ b.start) (hpos : 0 < b.size)
      (hsize : size ≤ b.size) (hapart : ∀ x ∈ live, x.Apart b) :
      ArenaStep align live (.alloc size) (live ++ [b])
  | clear {live : List Span} : ArenaStep align live .clear []
  | use {live : List Span} : ArenaStep align live .use live

theorem apart_of_arenaStep {align : ℕ} {live live' : List Span} {e : ArenaEvent}
    (h : live.Pairwise Span.Apart) (hstep : ArenaStep align live e live') :
    live'.Pairwise Span.Apart := by
  cases hstep with
  | alloc _ _ _ hapart =>
    refine List.pairwise_append.mpr ⟨h, List.pairwise_singleton _ _, ?_⟩
    intro x hx y hy
    rw [List.mem_singleton.mp hy]
    exact hapart x hx
  | clear => exact .nil
  | use => exact h

end TorEbpf.Lib
