import Mathlib

/-!
# Journals

A journal is a text of lines that is only appended to; reading it handles one line after the other.  The
last line may have no terminator, as when it was cut off.

* `scanLines` — the reader;
* `scanLines_append` — behind a terminator the reader begins anew, so what is appended there is read after
  what was there before;
* `scanLines_related` — two readers whose handlers preserve a relation.
-/

namespace TorEbpf.Lib

variable {α σ τ : Type*} [DecidableEq α] {nl : α}

def scanLines (nl : α) (handle : σ → List α → σ) (s : σ) : List α → σ
  | [] => s
  | c :: text =>
      scanLines nl handle (handle s ((c :: text).takeWhile (· ≠ nl)))
        (((c :: text).dropWhile (· ≠ nl)).drop 1)
  termination_by text => text.length
  decreasing_by
    have h := (List.dropWhile_sublist (· ≠ nl) (l := c :: text)).length_le
    simp only [List.length_drop, List.length_cons] at h ⊢
    omega

theorem scanLines_nil (handle : σ → List α → σ) (s : σ) : scanLines nl handle s [] = s := by
  rw [scanLines]

theorem scanLines_of_ne_nil (handle : σ → List α → σ) (s : σ) {text : List α} (h : text ≠ []) :
    scanLines nl handle s text =
      scanLines nl handle (handle s (text.takeWhile (· ≠ nl))) ((text.dropWhile (· ≠ nl)).drop 1) := by
  cases text with
  | nil => exact absurd rfl h
  | cons c text => rw [scanLines]

theorem scanLines_line {handle : σ → List α → σ} (hempty : ∀ s, handle s [] = s) (s : σ) {line : List α}
    (h : nl ∉ line) : scanLines nl handle s line = handle s line := by
  by_cases hnil : line = []
  · rw [hnil, scanLines_nil, hempty]
  · have hall : ∀ c ∈ line, decide (c ≠ nl) = true := fun c hc => by
      rw [decide_eq_true_iff]
      rintro rfl
      exact h hc
    rw [scanLines_of_ne_nil handle s hnil, List.takeWhile_eq_self_iff.mpr hall,
      List.dropWhile_eq_nil_iff.mpr hall, List.drop_nil, scanLines_nil]

theorem scanLines_cons_line (handle : σ → List α → σ) (s : σ) {line : List α} (h : nl ∉ line) (rest : List α) :
    scanLines nl handle s (line ++ nl :: rest) = scanLines nl handle (handle s line) rest := by
  have hall : ∀ c ∈ line, decide (c ≠ nl) = true := fun c hc => by
    rw [decide_eq_true_iff]
    rintro rfl
    exact h hc
  rw [scanLines_of_ne_nil handle s (by simp), List.takeWhile_append_of_pos hall,
    List.takeWhile_cons_of_neg (by simp), List.append_nil, List.dropWhile_append_of_pos hall,
    List.dropWhile_cons_of_neg (by simp)]
  rfl

/-- **A journal goes on** behind a terminator. -/
theorem scanLines_append {handle : σ → List α → σ} (hempty : ∀ s, handle s [] = s) (text rest : List α) :
    ∀ s, scanLines nl handle s (text ++ nl :: rest) =
      scanLines nl handle (scanLines nl handle s text) rest := by
  induction h : text.length using Nat.strong_induction_on generalizing text with
  | _ n ih =>
    intro s
    subst h
    by_cases hmem : nl ∈ text
    · -- the first line ends inside the text
      obtain ⟨line, tail, rfl, hline⟩ := List.eq_append_cons_of_mem hmem
      rw [List.append_assoc, List.cons_append, scanLines_cons_line handle s hline,
        scanLines_cons_line handle s hline]
      refine ih tail.length ?_ tail rfl (handle s line)
      rw [List.length_append, List.length_cons]
      omega
    · rw [scanLines_line hempty s hmem, scanLines_cons_line handle s hmem]

/-- A line that was cut off, or that was not. -/
theorem scanLines_take {handle : σ → List α → σ} (hempty : ∀ s, handle s [] = s) {line : List α}
    (h : nl ∉ line) (k : ℕ) (s : σ) :
    scanLines nl handle s ((line ++ [nl]).take k) = handle s (line.take k) := by
  rw [List.take_append]
  by_cases hk : k ≤ line.length
  · rw [Nat.sub_eq_zero_of_le hk, List.take_zero, List.append_nil]
    exact scanLines_line hempty s fun hmem => h (List.mem_of_mem_take hmem)
  · obtain ⟨j, hj⟩ : ∃ j, k - line.length = j + 1 := ⟨k - line.length - 1, by omega⟩
    rw [hj, List.take_succ_cons, List.take_nil, List.take_of_length_le (by omega),
      scanLines_cons_line handle s h, scanLines_nil]

/-- **Two readers** of one text. -/
theorem scanLines_related {R : σ → τ → Prop} {handle : σ → List α → σ} {handle' : τ → List α → τ}
    (hstep : ∀ s t line, R s t → R (handle s line) (handle' t line)) (text : List α) :
    ∀ {s t}, R s t → R (scanLines nl handle s text) (scanLines nl handle' t text) := by
  induction h : text.length using Nat.strong_induction_on generalizing text with
  | _ n ih =>
    intro s t hst
    subst h
    by_cases hnil : text = []
    · rw [hnil, scanLines_nil, scanLines_nil]
      exact hst
    · rw [scanLines_of_ne_nil handle s hnil, scanLines_of_ne_nil handle' t hnil]
      refine ih _ ?_ _ rfl (hstep s t _ hst)
      have hle := (List.dropWhile_sublist (· ≠ nl) (l := text)).length_le
      have hpos := List.length_pos_of_ne_nil hnil
      rw [List.length_drop]
      omega

end TorEbpf.Lib
