import Mathlib

/-!
# Tables of entries with distinct keys

A table is a list of entries, in the order it is walked; `key` is the key of an entry and no two entries
have the same.

* `lookup`, `modify`, `remove` — the operations by key, with what they do to each other;
* `total` — the sum of a quantity over the entries; `total_modify`, `total_remove` — by how much the
  operations change it.

None of this depends on the order of the entries (`lookup_perm`, `total_perm`).
-/

namespace TorEbpf.Lib

variable {κ ε : Type*} [DecidableEq κ] (key : ε → κ)

/-- The keys of the entries are distinct. -/
def Keyed (l : List ε) : Prop := (l.map key).Nodup

def lookup (k : κ) (l : List ε) : Option ε := l.find? (fun e => key e = k)

def modify (k : κ) (g : ε → ε) (l : List ε) : List ε := l.map (fun e => if key e = k then g e else e)

def remove (k : κ) (l : List ε) : List ε := l.filter (fun e => key e ≠ k)

/-- The sum of a quantity over the entries. -/
def total (f : ε → ℕ) (l : List ε) : ℕ := (l.map f).sum

variable {key} {k k' : κ} {l l' : List ε} {e : ε} {g : ε → ε} {f : ε → ℕ}

theorem key_of_lookup (h : lookup key k l = some e) : key e = k := by
  simpa using List.find?_some h

theorem mem_of_lookup (h : lookup key k l = some e) : e ∈ l := List.mem_of_find?_eq_some h

theorem lookup_eq_none_iff : lookup key k l = none ↔ k ∉ l.map key := by
  simp [lookup]

theorem lookup_of_mem (h : Keyed key l) (he : e ∈ l) : lookup key (key e) l = some e := by
  induction l with
  | nil => cases he
  | cons x l ih =>
    obtain ⟨hx, hl⟩ := List.nodup_cons.mp (by simpa [Keyed] using h :
      ((key x) :: l.map key).Nodup)
    rcases List.mem_cons.mp he with rfl | he
    · simp [lookup]
    · have hne : key x ≠ key e := by
        intro heq
        exact hx (heq ▸ List.mem_map_of_mem he)
      have hrest := ih hl he
      simp only [lookup, List.find?_cons] at hrest ⊢
      simpa [hne] using hrest

theorem lookup_eq_some_iff (h : Keyed key l) : lookup key k l = some e ↔ e ∈ l ∧ key e = k := by
  constructor
  · intro he
    exact ⟨mem_of_lookup he, key_of_lookup he⟩
  · rintro ⟨he, rfl⟩
    exact lookup_of_mem h he

omit [DecidableEq κ] in
theorem Keyed.perm (h : Keyed key l) (hp : l.Perm l') : Keyed key l' :=
  (hp.map key).nodup_iff.mp h

theorem lookup_perm (h : Keyed key l) (hp : l.Perm l') : lookup key k l' = lookup key k l := by
  ext e
  rw [lookup_eq_some_iff h, lookup_eq_some_iff (h.perm hp), hp.mem_iff]

omit [DecidableEq κ] in
theorem Keyed.filter (h : Keyed key l) (p : ε → Bool) : Keyed key (l.filter p) :=
  h.sublist (List.filter_sublist.map key)

theorem lookup_filter (h : Keyed key l) (p : ε → Bool) :
    lookup key k (l.filter p) = (lookup key k l).filter p := by
  ext e
  rw [lookup_eq_some_iff (h.filter p), Option.filter_eq_some_iff, lookup_eq_some_iff h, List.mem_filter]
  tauto

theorem total_perm (hp : l.Perm l') : total f l' = total f l := (hp.symm.map f).sum_eq

@[simp] theorem total_cons (x : ε) (l : List ε) : total f (x :: l) = f x + total f l := by
  simp [total]

/-! ### A new entry -/

theorem Keyed.cons (h : Keyed key l) (hnew : lookup key (key e) l = none) : Keyed key (e :: l) := by
  rw [Keyed, List.map_cons, List.nodup_cons]
  exact ⟨lookup_eq_none_iff.mp hnew, h⟩

theorem lookup_cons : lookup key k (e :: l) = if key e = k then some e else lookup key k l := by
  by_cases h : key e = k
  · simp [lookup, h]
  · simp [lookup, h]

/-! ### A changed entry -/

theorem map_key_modify (hg : ∀ x, key (g x) = key x) : (modify key k g l).map key = l.map key := by
  rw [modify, List.map_map]
  refine List.map_congr_left ?_
  intro x _
  by_cases hx : key x = k
  · simp [hx, hg]
  · simp [hx]

theorem Keyed.modify (h : Keyed key l) (hg : ∀ x, key (g x) = key x) :
    Keyed key (modify key k g l) := by
  rw [Keyed, map_key_modify hg]
  exact h

theorem lookup_modify (hg : ∀ x, key (g x) = key x) :
    lookup key k' (modify key k g l) =
      if k' = k then (lookup key k' l).map g else lookup key k' l := by
  induction l with
  | nil => simp [modify, lookup]
  | cons x l ih =>
    have hcons : modify key k g (x :: l) =
        (if key x = k then g x else x) :: modify key k g l := rfl
    have hkey : key (if key x = k then g x else x) = key x := by
      split
      · exact hg x
      · rfl
    rw [hcons, lookup_cons, lookup_cons, hkey, ih]
    by_cases hx : key x = k'
    · by_cases hk : k' = k
      · simp [hx, hk]
      · have hxk : key x ≠ k := by rw [hx]; exact hk
        simp [hx, hk]
    · by_cases hk : k' = k
      · subst hk
        simp [hx]
      · simp [hx, hk]

theorem length_modify : (modify key k g l).length = l.length := List.length_map _

theorem total_modify (h : Keyed key l) (he : lookup key k l = some e) :
    total f (modify key k g l) + f e = total f l + f (g e) := by
  induction l with
  | nil => simp [lookup] at he
  | cons x l ih =>
    obtain ⟨hx, hl⟩ := List.nodup_cons.mp (by simpa [Keyed] using h :
      ((key x) :: l.map key).Nodup)
    have hcons : modify key k g (x :: l) =
        (if key x = k then g x else x) :: modify key k g l := rfl
    rw [hcons, total_cons, total_cons]
    rw [lookup_cons] at he
    by_cases hxk : key x = k
    · have hrest : modify key k g l = l := by
        rw [modify]
        conv_rhs => rw [← List.map_id l]
        refine List.map_congr_left ?_
        intro y hy
        have hyk : key y ≠ k := by
          intro hyk
          exact hx (hxk ▸ hyk ▸ List.mem_map_of_mem hy)
        simp [hyk]
      rw [if_pos hxk] at he
      cases he
      rw [if_pos hxk, hrest]
      omega
    · rw [if_neg hxk] at he
      have hrest := ih hl he
      rw [if_neg hxk]
      omega

/-! ### An entry less -/

theorem Keyed.remove (h : Keyed key l) : Keyed key (remove key k l) :=
  h.sublist (List.filter_sublist.map key)

theorem lookup_remove :
    lookup key k' (remove key k l) = if k' = k then none else lookup key k' l := by
  induction l with
  | nil => simp [remove, lookup]
  | cons x l ih =>
    by_cases hx : key x = k
    · have hrem : remove key k (x :: l) = remove key k l := by simp [remove, hx]
      rw [hrem, ih, lookup_cons, hx]
      by_cases hk : k' = k
      · simp [hk]
      · simp [hk, Ne.symm hk]
    · have hrem : remove key k (x :: l) = x :: remove key k l := by simp [remove, hx]
      rw [hrem, lookup_cons, ih, lookup_cons]
      by_cases hk : k' = k
      · simp [hk, hx]
      · simp [hk]

theorem remove_cons_self (h : Keyed key (e :: l)) : remove key (key e) (e :: l) = l := by
  obtain ⟨he, _⟩ := List.nodup_cons.mp h
  rw [remove, List.filter_cons_of_neg (by simp), List.filter_eq_self]
  intro y hy
  have hye : key y ≠ key e := by
    intro hye
    exact he (hye ▸ List.mem_map_of_mem hy)
  simpa using hye

/-- With distinct keys, to remove the first entry with a key is to remove all of them. -/
theorem eraseP_eq_remove (h : Keyed key l) : l.eraseP (fun x => key x = k) = remove key k l := by
  induction l with
  | nil => rfl
  | cons x l ih =>
    by_cases hxk : key x = k
    · subst hxk
      rw [List.eraseP_cons_of_pos (by simp), remove_cons_self h]
    · rw [List.eraseP_cons_of_neg (by simpa using hxk), ih (List.nodup_cons.mp h).2, remove, remove,
        List.filter_cons_of_pos (by simpa using hxk)]

theorem perm_cons_remove (h : Keyed key l) (he : e ∈ l) : l.Perm (e :: remove key (key e) l) := by
  induction l with
  | nil => exact absurd he List.not_mem_nil
  | cons x l ih =>
    by_cases hxe : x = e
    · rw [hxe] at h ⊢
      rw [remove_cons_self h]
    · have hel : e ∈ l := (List.mem_cons.mp he).resolve_left (Ne.symm hxe)
      obtain ⟨hx, hl⟩ := List.nodup_cons.mp h
      have hkey : key x ≠ key e := fun hkey => hx (hkey ▸ List.mem_map_of_mem hel)
      rw [remove, List.filter_cons_of_pos (by simpa using hkey)]
      exact ((ih hl hel).cons x).trans (List.Perm.swap _ _ _)

theorem total_remove (h : Keyed key l) (he : lookup key k l = some e) :
    total f (remove key k l) + f e = total f l := by
  induction l with
  | nil => simp [lookup] at he
  | cons x l ih =>
    obtain ⟨hx, hl⟩ := List.nodup_cons.mp (by simpa [Keyed] using h :
      ((key x) :: l.map key).Nodup)
    rw [lookup_cons] at he
    by_cases hxk : key x = k
    · rw [if_pos hxk] at he
      cases he
      rw [← hxk, remove_cons_self h, total_cons]
      omega
    · rw [if_neg hxk] at he
      have hrem : remove key k (x :: l) = x :: remove key k l := by simp [remove, hxk]
      have hrest := ih hl he
      rw [hrem, total_cons, total_cons]
      omega

theorem le_total_of_mem (he : e ∈ l) : f e ≤ total f l :=
  List.single_le_sum (by simp) _ (List.mem_map_of_mem he)

theorem total_one : total (fun _ => 1) l = l.length := by
  simp [total]

end TorEbpf.Lib
