import Mathlib.Data.List.Basic
import Mathlib.Data.List.Infix
import Mathlib.Tactic.Common

/-!
# Longest common subsequences

`LcsLength l l' n`: `n` is the length of a longest common subsequence of two lists.

* `LcsLength.concat_same`, `LcsLength.concat_ne` — the recurrence, over the last elements;
* `LcsLength.append_left`, `LcsLength.append_right` — what two lists have in common at their ends;
* `LcsLength.split` — a list that is cut in two, and the best place to cut the other one.
-/

namespace TorEbpf.Lib

variable {α : Type*} {l l' p q c : List α} {a b : α} {m n : ℕ}

def Common (l l' c : List α) : Prop := c.Sublist l ∧ c.Sublist l'

structure LcsLength (l l' : List α) (n : ℕ) : Prop where
  attained : ∃ c, Common l l' c ∧ c.length = n
  bound : ∀ c, Common l l' c → c.length ≤ n

theorem Common.symm (h : Common l l' c) : Common l' l c := ⟨h.2, h.1⟩

theorem Common.reverse (h : Common l l' c) : Common l.reverse l'.reverse c.reverse :=
  ⟨h.1.reverse, h.2.reverse⟩

theorem LcsLength.symm (h : LcsLength l l' n) : LcsLength l' l n := by
  obtain ⟨c, hc, hlen⟩ := h.attained
  exact ⟨⟨c, hc.symm, hlen⟩, fun c' hc' => h.bound c' hc'.symm⟩

theorem LcsLength.of_reverse (h : LcsLength l.reverse l'.reverse n) : LcsLength l l' n := by
  obtain ⟨c, hc, hlen⟩ := h.attained
  refine ⟨⟨c.reverse, ?_, ?_⟩, ?_⟩
  · have hrev := hc.reverse
    rwa [List.reverse_reverse, List.reverse_reverse] at hrev
  · rw [List.length_reverse, hlen]
  · intro c' hc'
    have hle := h.bound c'.reverse hc'.reverse
    rwa [List.length_reverse] at hle

theorem LcsLength.unique (h : LcsLength l l' m) (h' : LcsLength l l' n) : m = n := by
  obtain ⟨c, hc, rfl⟩ := h.attained
  obtain ⟨c', hc', rfl⟩ := h'.attained
  exact le_antisymm (h'.bound c hc) (h.bound c' hc')

theorem lcsLength_nil (l : List α) : LcsLength l [] 0 := by
  refine ⟨⟨[], ⟨List.nil_sublist l, List.nil_sublist []⟩, rfl⟩, ?_⟩
  intro c hc
  rw [List.sublist_nil.mp hc.2]
  exact le_rfl

theorem lcsLength_singleton (h : a ∈ l) : LcsLength [a] l 1 := by
  refine ⟨⟨[a], ⟨List.Sublist.refl [a], List.singleton_sublist.mpr h⟩, rfl⟩, ?_⟩
  intro c hc
  exact hc.1.length_le

theorem lcsLength_singleton_of_notMem (h : a ∉ l) : LcsLength [a] l 0 := by
  refine ⟨⟨[], ⟨List.nil_sublist _, List.nil_sublist _⟩, rfl⟩, ?_⟩
  intro c hc
  rcases List.sublist_singleton.mp hc.1 with rfl | rfl
  · exact le_rfl
  · exact absurd (List.singleton_sublist.mp hc.2) h

/-! ### The recurrence -/

theorem LcsLength.cons_same (h : LcsLength l l' n) (a : α) : LcsLength (a :: l) (a :: l') (n + 1) := by
  obtain ⟨c, hc, hlen⟩ := h.attained
  refine ⟨⟨a :: c, ⟨hc.1.cons_cons a, hc.2.cons_cons a⟩, ?_⟩, ?_⟩
  · rw [List.length_cons, hlen]
  · intro c' hc'
    have htail := h.bound c'.tail ⟨hc'.1.tail, hc'.2.tail⟩
    rw [List.length_tail] at htail
    omega

theorem LcsLength.concat_same (h : LcsLength p q n) (a : α) :
    LcsLength (p ++ [a]) (q ++ [a]) (n + 1) := by
  apply LcsLength.of_reverse
  rw [List.reverse_concat', List.reverse_concat']
  apply LcsLength.cons_same
  apply LcsLength.of_reverse
  rwa [List.reverse_reverse, List.reverse_reverse]

/-- A subsequence ends with the last element, or it is one of the rest. -/
theorem sublist_concat_cases (h : c.Sublist (p ++ [a])) : c.Sublist p ∨ c.getLast? = some a := by
  obtain ⟨x, y, rfl, hx, hy⟩ := List.sublist_append_iff.mp h
  rcases List.sublist_singleton.mp hy with rfl | rfl
  · rw [List.append_nil]
    exact .inl hx
  · exact .inr List.getLast?_concat

theorem LcsLength.concat_ne (h : LcsLength (p ++ [a]) q m) (h' : LcsLength p (q ++ [b]) n) (hne : a ≠ b) :
    LcsLength (p ++ [a]) (q ++ [b]) (max m n) := by
  constructor
  · rcases le_total n m with hle | hle
    · obtain ⟨c, hc, hlen⟩ := h.attained
      rw [max_eq_left hle]
      exact ⟨c, ⟨hc.1, hc.2.trans (List.sublist_append_left q [b])⟩, hlen⟩
    · obtain ⟨c, hc, hlen⟩ := h'.attained
      rw [max_eq_right hle]
      exact ⟨c, ⟨hc.1.trans (List.sublist_append_left p [a]), hc.2⟩, hlen⟩
  · intro c hc
    rcases sublist_concat_cases hc.1 with hp | ha
    · exact (h'.bound c ⟨hp, hc.2⟩).trans (le_max_right m n)
    · rcases sublist_concat_cases hc.2 with hq | hb
      · exact (h.bound c ⟨hc.1, hq⟩).trans (le_max_left m n)
      · rw [ha] at hb
        exact absurd (Option.some.inj hb) hne

/-! ### Parts of lists -/

theorem LcsLength.append_left (h : LcsLength l l' n) (front : List α) :
    LcsLength (front ++ l) (front ++ l') (front.length + n) := by
  induction front with
  | nil =>
    rw [List.length_nil, Nat.zero_add]
    exact h
  | cons a front ih =>
    have hcons := ih.cons_same a
    rwa [show front.length + n + 1 = (a :: front).length + n by rw [List.length_cons]; omega] at hcons

theorem LcsLength.append_right (h : LcsLength l l' n) (back : List α) :
    LcsLength (l ++ back) (l' ++ back) (n + back.length) := by
  apply LcsLength.of_reverse
  rw [List.reverse_append, List.reverse_append, Nat.add_comm, ← List.length_reverse]
  apply LcsLength.append_left
  apply LcsLength.of_reverse
  rwa [List.reverse_reverse, List.reverse_reverse]

/-- **The best place to cut** the second list, when the first one is cut in two. -/
theorem LcsLength.split {top bot : List α} {f g : ℕ → ℕ} {k : ℕ}
    (htop : ∀ i ≤ l.length, LcsLength top (l.take i) (f i))
    (hbot : ∀ i ≤ l.length, LcsLength bot (l.drop i) (g i)) (hk : k ≤ l.length)
    (hbest : ∀ i ≤ l.length, f i + g i ≤ f k + g k) : LcsLength (top ++ bot) l (f k + g k) := by
  constructor
  · obtain ⟨x, hx, hxlen⟩ := (htop k hk).attained
    obtain ⟨y, hy, hylen⟩ := (hbot k hk).attained
    refine ⟨x ++ y, ⟨hx.1.append hy.1, ?_⟩, ?_⟩
    · have happend := hx.2.append hy.2
      rwa [List.take_append_drop] at happend
    · rw [List.length_append, hxlen, hylen]
  · intro c hc
    obtain ⟨x, y, rfl, hx, hy⟩ := List.sublist_append_iff.mp hc.1
    obtain ⟨r, s, rfl, hr, hs⟩ := List.append_sublist_iff.mp hc.2
    have hle : r.length ≤ (r ++ s).length := by
      rw [List.length_append]
      exact Nat.le_add_right _ _
    have hfront := (htop r.length hle).bound x ⟨hx, by rw [List.take_left]; exact hr⟩
    have hback := (hbot r.length hle).bound y ⟨hy, by rw [List.drop_left]; exact hs⟩
    rw [List.length_append]
    exact (Nat.add_le_add hfront hback).trans (hbest r.length hle)

end TorEbpf.Lib
