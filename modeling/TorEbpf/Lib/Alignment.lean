import Mathlib

/-!
# Two lists with marked positions

Marks on two lists align them where the unmarked elements of both are the same word.  `kept ch o l` is
that word for a list `l` that starts at position `o`.

* `kept_append`, `kept_congr` — the unmarked elements of a list, part by part;
* `kept_singleMark` — a list with a mark everywhere but at one place;
* `last_eq_of_kept_eq` — where the last elements of two aligned lists have no mark they are equal, and
  the lists without them are still aligned.
-/

namespace TorEbpf.Lib

variable {α : Type*} {ch ch' : ℕ → Bool} {o : ℕ} {l l' : List α}

/-- The unmarked elements of a list that starts at position `o`. -/
def kept (ch : ℕ → Bool) : ℕ → List α → List α
  | _, [] => []
  | o, a :: l => if ch o then kept ch (o + 1) l else a :: kept ch (o + 1) l

@[simp] theorem kept_nil : kept ch o ([] : List α) = [] := rfl

theorem kept_append : kept ch o (l ++ l') = kept ch o l ++ kept ch (o + l.length) l' := by
  induction l generalizing o with
  | nil => rfl
  | cons a l ih =>
    have hlen : o + 1 + l.length = o + (a :: l).length := by
      rw [List.length_cons]
      omega
    rw [List.cons_append, kept, kept, ih, hlen]
    split <;> rfl

theorem kept_sublist : (kept ch o l).Sublist l := by
  induction l generalizing o with
  | nil => exact List.Sublist.slnil
  | cons a l ih =>
    rw [kept]
    split_ifs
    · exact ih.cons a
    · exact ih.cons_cons a

theorem kept_congr (h : ∀ k, o ≤ k → k < o + l.length → ch k = ch' k) :
    kept ch o l = kept ch' o l := by
  induction l generalizing o with
  | nil => rfl
  | cons a l ih =>
    rw [List.length_cons] at h
    have hrest : kept ch (o + 1) l = kept ch' (o + 1) l := by
      apply ih
      intro k hk hk'
      exact h k (by omega) (by omega)
    rw [kept, kept, h o le_rfl (by omega), hrest]

theorem kept_of_unmarked (h : ∀ k, o ≤ k → k < o + l.length → ch k = false) : kept ch o l = l := by
  induction l generalizing o with
  | nil => rfl
  | cons a l ih =>
    rw [List.length_cons] at h
    have hrest : kept ch (o + 1) l = l := by
      apply ih
      intro k hk hk'
      exact h k (by omega) (by omega)
    rw [kept, h o le_rfl (by omega), hrest]
    rfl

theorem kept_of_marked (h : ∀ k, o ≤ k → k < o + l.length → ch k = true) : kept ch o l = [] := by
  induction l generalizing o with
  | nil => rfl
  | cons a l ih =>
    rw [List.length_cons] at h
    have hrest : kept ch (o + 1) l = [] := by
      apply ih
      intro k hk hk'
      exact h k (by omega) (by omega)
    rw [kept, h o le_rfl (by omega), hrest]
    rfl

/-- A mark everywhere but in front of `l'`. -/
theorem kept_singleMark {a : α}
    (h : ∀ k, o ≤ k → k < o + (l ++ a :: l').length → (ch k = false ↔ k = o + l.length)) :
    kept ch o (l ++ a :: l') = [a] := by
  rw [List.length_append, List.length_cons] at h
  have hmarked : ∀ k, o ≤ k → k < o + (l.length + (l'.length + 1)) → k ≠ o + l.length →
      ch k = true := by
    intro k hk hk' hne
    cases hch : ch k with
    | true => rfl
    | false => exact absurd ((h k hk hk').mp hch) hne
  have hfront : kept ch o l = [] :=
    kept_of_marked (fun k hk hk' => hmarked k hk (by omega) (by omega))
  have hback : kept ch (o + l.length + 1) l' = [] :=
    kept_of_marked (fun k hk hk' => hmarked k (by omega) (by omega) (by omega))
  have hhere : ch (o + l.length) = false := (h _ (by omega) (by omega)).mpr rfl
  rw [kept_append, hfront, kept, hhere, hback]
  rfl

/-! ### Prefixes of two aligned lists -/

theorem kept_take_succ {n : ℕ} (hn : n < l.length) :
    kept ch 0 (l.take (n + 1)) =
      kept ch 0 (l.take n) ++ if ch n then [] else [l.get ⟨n, hn⟩] := by
  rw [List.take_succ_eq_append_getElem hn, kept_append]
  simp only [Nat.zero_add, List.length_take_of_le hn.le, kept, List.get_eq_getElem]

theorem kept_take_of_marked {m n : ℕ} (hmn : m ≤ n) (h : ∀ k, m ≤ k → k < n → ch k = true) :
    kept ch 0 (l.take n) = kept ch 0 (l.take m) := by
  obtain ⟨d, rfl⟩ := Nat.exists_eq_add_of_le hmn
  rw [List.take_add, kept_append]
  have hmarked : kept ch (0 + (l.take m).length) ((l.drop m).take d) = [] := by
    apply kept_of_marked
    intro k hk hk'
    simp only [List.length_take, List.length_drop] at hk hk'
    exact h k (by omega) (by omega)
  rw [hmarked, List.append_nil]

/-- **The last elements of two aligned lists**, where they have no mark. -/
theorem last_eq_of_kept_eq {n n' : ℕ} (hn : n < l.length) (hn' : n' < l'.length)
    (hch : ch n = false) (hch' : ch' n' = false)
    (h : kept ch 0 (l.take (n + 1)) = kept ch' 0 (l'.take (n' + 1))) :
    l.get ⟨n, hn⟩ = l'.get ⟨n', hn'⟩ ∧ kept ch 0 (l.take n) = kept ch' 0 (l'.take n') := by
  rw [kept_take_succ hn, kept_take_succ hn', hch, hch'] at h
  obtain ⟨hinit, hlast⟩ := List.append_inj' h rfl
  exact ⟨by simpa using hlast, hinit⟩

end TorEbpf.Lib
