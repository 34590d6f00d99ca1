import Mathlib

/-!
# Texts of terminated lines

A text is a list of lines, each with a terminator behind it.  Unlike a text whose lines are separated,
every list of lines has one text (the empty list the empty one), and a text that does not end in a
terminator is none.

* `joinLines`, `splitLines` — from lines to the text and back; lines have a greatest length;
* `splitLines_joinLines`, `joinLines_of_splitLines` — the two are inverse to each other.
-/

namespace TorEbpf.Lib

variable {α : Type*} {nl : α} {max : ℕ}

def joinLines (nl : α) (lines : List (List α)) : List α := lines.flatMap (· ++ [nl])

/-- A line: it has no terminator inside, and is not too long. -/
def IsLine (nl : α) (max : ℕ) (line : List α) : Prop := nl ∉ line ∧ line.length ≤ max

@[simp] theorem joinLines_nil : joinLines nl [] = [] := rfl

@[simp] theorem joinLines_cons (line : List α) (lines : List (List α)) :
    joinLines nl (line :: lines) = line ++ nl :: joinLines nl lines := by
  simp [joinLines]

theorem mem_joinLines {lines : List (List α)} {c : α} (h : c ∈ joinLines nl lines) :
    c = nl ∨ ∃ line ∈ lines, c ∈ line := by
  rw [joinLines, List.mem_flatMap] at h
  obtain ⟨line, hline, hc⟩ := h
  rcases List.mem_append.mp hc with hc | hc
  · exact Or.inr ⟨line, hline, hc⟩
  · exact Or.inl (List.mem_singleton.mp hc)

theorem not_mem_splitOnP {p : α → Bool} (s : List α) :
    ∀ t ∈ s.splitOnP p, ∀ c ∈ t, p c = false := by
  induction s with
  | nil =>
    intro t ht c hc
    rw [List.splitOnP_nil, List.mem_singleton] at ht
    rw [ht] at hc
    cases hc
  | cons c s ih =>
    rw [List.splitOnP_cons_eq_if_modifyHead]
    split_ifs with hp
    · intro t ht
      rcases List.mem_cons.mp ht with rfl | ht
      · intro d hd
        cases hd
      · exact ih t ht
    · obtain ⟨u, us, hu⟩ := List.exists_cons_of_ne_nil (List.splitOnP_ne_nil p s)
      rw [hu] at ih ⊢
      intro t ht d hd
      rcases List.mem_cons.mp ht with rfl | ht
      · rcases List.mem_cons.mp hd with rfl | hd
        · simpa using hp
        · exact ih u List.mem_cons_self d hd
      · exact ih t (List.mem_cons_of_mem u ht) d hd

variable [DecidableEq α]

/-- The lines of a text, unless one of them is too long or not terminated. -/
def splitLines (nl : α) (max : ℕ) (s : List α) : Option (List (List α)) :=
  if s = [] then some []
  else
    match _h : s.dropWhile (· ≠ nl) with
    | [] => none
    | _ :: rest =>
      let line := s.takeWhile (· ≠ nl)
      if line.length > max then none
      else (splitLines nl max rest).map (line :: ·)
termination_by s.length
decreasing_by
  have hle := (List.dropWhile_suffix (fun c => decide (c ≠ nl)) (l := s)).length_le
  rw [_h, List.length_cons] at hle
  omega

theorem splitLines_append {line : List α} (h : IsLine nl max line) (rest : List α) :
    splitLines nl max (line ++ nl :: rest) = (splitLines nl max rest).map (line :: ·) := by
  have hall : ∀ c ∈ line, decide (c ≠ nl) = true := fun c hc =>
    decide_eq_true fun heq => h.1 (heq ▸ hc)
  have hdrop : (line ++ nl :: rest).dropWhile (· ≠ nl) = nl :: rest := by
    rw [List.dropWhile_append_of_pos hall, List.dropWhile_cons_of_neg (by simp)]
  have htake : (line ++ nl :: rest).takeWhile (· ≠ nl) = line := by
    rw [List.takeWhile_append_of_pos hall, List.takeWhile_cons_of_neg (by simp), List.append_nil]
  have hmax : ¬ line.length > max := by
    have := h.2
    omega
  rw [splitLines, if_neg (by simp)]
  split
  · next hnil =>
    rw [hdrop] at hnil
    cases hnil
  · next c tail hcons =>
    rw [hdrop] at hcons
    cases hcons
    simp only [htake, if_neg hmax]

/-- **The lines of a joined text.** -/
theorem splitLines_joinLines {lines : List (List α)} (h : ∀ line ∈ lines, IsLine nl max line) :
    splitLines nl max (joinLines nl lines) = some lines := by
  induction lines with
  | nil =>
    rw [joinLines_nil, splitLines, if_pos rfl]
  | cons line lines ih =>
    rw [joinLines_cons, splitLines_append (h line List.mem_cons_self),
      ih (fun l hl => h l (List.mem_cons_of_mem line hl))]
    rfl

/-- **The text of its lines.** -/
theorem joinLines_of_splitLines {s : List α} {lines : List (List α)}
    (h : splitLines nl max s = some lines) :
    joinLines nl lines = s ∧ ∀ line ∈ lines, IsLine nl max line := by
  induction hn : s.length using Nat.strong_induction_on generalizing s lines with
  | _ n ih =>
    rw [splitLines] at h
    split_ifs at h with hs
    · cases h
      exact ⟨hs.symm, by simp⟩
    · split at h
      · cases h
      · next c rest hcons =>
        have hsplit := List.takeWhile_append_dropWhile (p := fun c => decide (c ≠ nl)) (l := s)
        have hc : c = nl := by
          have hhead := List.head?_dropWhile_not (fun c => decide (c ≠ nl)) s
          rw [hcons] at hhead
          simpa using hhead
        subst hc
        rw [hcons] at hsplit
        dsimp only at h
        split_ifs at h with hmax
        obtain ⟨lines', hrest, rfl⟩ := Option.map_eq_some_iff.mp h
        have hlen : rest.length < n := by
          rw [← hn, ← hsplit, List.length_append, List.length_cons]
          omega
        obtain ⟨hjoin, hlines⟩ := ih rest.length hlen hrest rfl
        refine ⟨by rw [joinLines_cons, hjoin, hsplit], ?_⟩
        rintro line (_ | ⟨_, hmem⟩)
        · refine ⟨fun hmem => ?_, by omega⟩
          simpa using List.mem_takeWhile_imp hmem
        · exact hlines line hmem

end TorEbpf.Lib
