import Mathlib.Data.List.Nodup
import Mathlib.Data.List.Rotate
import Mathlib.Tactic.Common

/-!
# Choosing on a ring

Points stand on a ring, and each of several rounds goes around it from a position of its own and chooses the
first points that have not been chosen yet.

* `takeNew` — the points that a round chooses; `mem_takeNew_of_subset` — who chooses more, from fewer, misses
  none of them;
* `chooseRounds` — what some rounds choose; `chooseRounds_subset` — the rounds with larger quotas choose all
  that the rounds with smaller quotas choose;
* `rotate_eq_clockwise` — going around a sorted ring.
-/

namespace TorEbpf.Lib

variable {α β : Type*}

/-! ### A round -/

theorem mem_take_filter {p q : α → Bool} (hqp : ∀ a, q a = true → p a = true) {x : α} (hx : q x = true)
    (l : List α) {k k' : ℕ} (hk : k ≤ k') (hmem : x ∈ (l.filter p).take k) : x ∈ (l.filter q).take k' := by
  induction l generalizing k k' with
  | nil => simp at hmem
  | cons a l ih =>
    cases hp : p a with
    | false =>
      have hq : ¬ q a = true := fun hq => by simp [hqp a hq] at hp
      rw [List.filter_cons_of_neg (by simp [hp])] at hmem
      rw [List.filter_cons_of_neg hq]
      exact ih hk hmem
    | true =>
      rw [List.filter_cons_of_pos hp] at hmem
      cases k with
      | zero => simp at hmem
      | succ k =>
        rw [List.take_succ_cons] at hmem
        cases hq : q a with
        | true =>
          obtain ⟨k', rfl⟩ : ∃ j, k' = j + 1 := ⟨k' - 1, by omega⟩
          rw [List.filter_cons_of_pos hq, List.take_succ_cons]
          rcases List.mem_cons.mp hmem with rfl | hmem
          · exact List.mem_cons_self
          · exact List.mem_cons_of_mem _ (ih (by omega) hmem)
        | false =>
          have hne : x ≠ a := fun heq => by simp [← heq, hx] at hq
          rw [List.filter_cons_of_neg (by simp [hq])]
          exact ih (by omega) ((List.mem_cons.mp hmem).resolve_left hne)

section Choose

variable [DecidableEq α]

/-- The first `k` points that have not been chosen. -/
def takeNew (k : ℕ) (chosen ring : List α) : List α := (ring.filter (· ∉ chosen)).take k

theorem length_takeNew (k : ℕ) (chosen ring : List α) :
    (takeNew k chosen ring).length = min k (ring.countP (· ∉ chosen)) := by
  rw [takeNew, List.length_take, List.countP_eq_length_filter]

theorem takeNew_sublist (k : ℕ) (chosen ring : List α) : (takeNew k chosen ring).Sublist ring :=
  (List.take_sublist _ _).trans List.filter_sublist

theorem not_mem_of_mem_takeNew {k : ℕ} {chosen ring : List α} {a : α} (h : a ∈ takeNew k chosen ring) :
    a ∉ chosen := by
  simpa using (List.mem_filter.mp (List.mem_of_mem_take h)).2

theorem takeNew_nil (k : ℕ) (chosen : List α) : takeNew k chosen [] = [] := List.take_nil

theorem takeNew_cons_of_mem {k : ℕ} {chosen ring : List α} {a : α} (h : a ∈ chosen) :
    takeNew k chosen (a :: ring) = takeNew k chosen ring := by
  rw [takeNew, List.filter_cons_of_neg (by simpa using h)]
  rfl

/-- A point that is chosen is not in the way of the next ones. -/
theorem takeNew_cons_of_not_mem {k : ℕ} {chosen ring : List α} {a : α} (h : a ∉ chosen) (hring : a ∉ ring) :
    takeNew (k + 1) chosen (a :: ring) = a :: takeNew k (chosen ++ [a]) ring := by
  have hsame : ring.filter (· ∉ chosen ++ [a]) = ring.filter (· ∉ chosen) := by
    refine List.filter_congr fun b hb => ?_
    have hne : b ≠ a := fun heq => hring (heq ▸ hb)
    simp [hne]
  rw [takeNew, takeNew, List.filter_cons_of_pos (by simpa using h), List.take_succ_cons, hsame]

/-- **One round**: who has chosen more before, and may choose more, misses nothing. -/
theorem mem_takeNew_of_subset {k k' : ℕ} {chosen chosen' ring : List α} (hk : k ≤ k')
    (hsub : chosen ⊆ chosen') {a : α} (ha : a ∈ takeNew k chosen ring) :
    a ∈ chosen' ++ takeNew k' chosen' ring := by
  by_cases hin : a ∈ chosen'
  · exact List.mem_append_left _ hin
  · refine List.mem_append_right _ ?_
    refine mem_take_filter (p := fun b => b ∉ chosen) ?_ (by simpa using hin) ring hk ha
    intro b hb
    simp only [decide_eq_true_eq] at hb ⊢
    exact fun hmem => hb (hsub hmem)

/-! ### Several rounds -/

/-- What rounds around the rings `rings` choose, each at most `k` points. -/
def chooseRounds (k : ℕ) (chosen : List α) (rings : List (List α)) : List α :=
  rings.foldl (fun chosen ring => chosen ++ takeNew k chosen ring) chosen

theorem nodup_chooseRounds {k : ℕ} {chosen : List α} {rings : List (List α)} (hchosen : chosen.Nodup)
    (hrings : ∀ ring ∈ rings, ring.Nodup) : (chooseRounds k chosen rings).Nodup := by
  induction rings generalizing chosen with
  | nil => exact hchosen
  | cons ring rings ih =>
    obtain ⟨hring, hrings⟩ := List.forall_mem_cons.mp hrings
    refine ih ?_ hrings
    refine hchosen.append (hring.sublist (takeNew_sublist _ _ _)) ?_
    intro a ha hnew
    exact not_mem_of_mem_takeNew hnew ha

theorem chooseRounds_append (k : ℕ) (chosen : List α) (rings rings' : List (List α)) :
    chooseRounds k chosen (rings ++ rings') = chooseRounds k (chooseRounds k chosen rings) rings' :=
  List.foldl_append

theorem prefix_chooseRounds (k : ℕ) (chosen : List α) (rings : List (List α)) :
    chosen <+: chooseRounds k chosen rings := by
  induction rings generalizing chosen with
  | nil => exact List.prefix_rfl
  | cons ring rings ih => exact (List.prefix_append _ _).trans (ih _)

/-- **Larger quotas** choose all that smaller quotas choose. -/
theorem chooseRounds_subset {k k' : ℕ} {chosen chosen' : List α} (hk : k ≤ k') (hsub : chosen ⊆ chosen')
    (rings : List (List α)) : chooseRounds k chosen rings ⊆ chooseRounds k' chosen' rings := by
  induction rings generalizing chosen chosen' with
  | nil => exact hsub
  | cons ring rings ih =>
    refine ih ?_
    intro a ha
    rcases List.mem_append.mp ha with ha | ha
    · exact List.mem_append_left _ (hsub ha)
    · exact mem_takeNew_of_subset hk hsub ha

end Choose

/-! ### Sorted rings -/

/-- The points clockwise from a position: `behind` tells which are behind it, in the order of the ring. -/
def clockwise (behind : α → Bool) (ring : List α) : List α :=
  ring.filter (fun a => !behind a) ++ ring.filter behind

theorem clockwise_perm (behind : α → Bool) (ring : List α) : (clockwise behind ring).Perm ring := by
  have hperm := List.filter_append_perm (fun a => !behind a) ring
  simpa only [clockwise, Bool.not_not] using hperm

theorem clockwise_congr {behind behind' : α → Bool} {ring : List α} (h : ∀ a ∈ ring, behind a = behind' a) :
    clockwise behind ring = clockwise behind' ring := by
  rw [clockwise, clockwise, List.filter_congr h, List.filter_congr fun a ha => by rw [h a ha]]

/-- If the first `i` points are behind the position and the others are not, the ring turned by `i` is the ring
clockwise from the position. -/
theorem rotate_eq_clockwise {behind : α → Bool} {ring : List α} {i : ℕ} (hi : i ≤ ring.length)
    (hbelow : ∀ a ∈ ring.take i, behind a = true) (habove : ∀ a ∈ ring.drop i, behind a = false) :
    ring.rotate i = clockwise behind ring := by
  have hsplit : ring = ring.take i ++ ring.drop i := (List.take_append_drop i ring).symm
  have hbehind : ring.filter behind = ring.take i := by
    conv_lhs => rw [hsplit]
    rw [List.filter_append, List.filter_eq_self.mpr hbelow,
      List.filter_eq_nil_iff.mpr fun a ha => by simp [habove a ha], List.append_nil]
  have hahead : ring.filter (fun a => !behind a) = ring.drop i := by
    conv_lhs => rw [hsplit]
    rw [List.filter_append, List.filter_eq_nil_iff.mpr fun a ha => by simp [hbelow a ha],
      List.filter_eq_self.mpr fun a ha => by simp [habove a ha], List.nil_append]
  rw [List.rotate_eq_drop_append_take hi, clockwise, hbehind, hahead]

end TorEbpf.Lib
