import Mathlib.Tactic.Common

/-!
# Parsers and encoders of a buffer

A `Parser` takes its input from the front of a buffer, an `Encoder` is told how much room is left and
yields what it wrote.  Both say what they do on one word:

* `Reads p l a` — wherever the word `l` stands, `p` reads `a` and stops right behind it;
* `Writes e enc l` — `enc` writes `l`, unless there is no room for it: then it stops with `e`.

The rules put these together along the structure of a format: `Reads.bind` and `Writes.seq` for fields
one after the other, `reads_repeatN` and `Writes.all` for an array, `Reads.within` for a part of the
buffer whose length was announced.
-/

namespace TorEbpf.Lib

variable {σ ε α β : Type}

/-! ### Parsers -/

/-- A parser, over the symbols `σ` and with errors `ε`. -/
abbrev Parser (σ ε α : Type) := StateT (List σ) (Except ε) α

/-- The next `n` symbols; `e` if fewer are left. -/
def takeN (e : ε) (n : ℕ) : Parser σ ε (List σ) := fun s =>
  if n ≤ s.length then .ok (s.take n, s.drop n) else .error e

def takeRest : Parser σ ε (List σ) := fun s => .ok (s, [])

/-- A parser on a buffer of its own, which it must use up; `e` if it does not. -/
def within (e : ε) (l : List σ) (p : Parser σ ε α) : Parser σ ε α := fun s =>
  match p l with
  | .ok (a, []) => .ok (a, s)
  | .ok (_, _ :: _) => .error e
  | .error e' => .error e'

/-- A parser `n` times. -/
def repeatN : ℕ → Parser σ ε α → Parser σ ε (List α)
  | 0, _ => pure []
  | n + 1, p => do
      let a ← p
      let as ← repeatN n p
      return a :: as

/-- One parser and then another: the second one goes on with what the first one leaves. -/
theorem parser_bind_ok {p : Parser σ ε α} {f : α → Parser σ ε β} {s s' : List σ} {b : β}
    (h : (p >>= f) s = .ok (b, s')) : ∃ a t, p s = .ok (a, t) ∧ f a t = .ok (b, s') := by
  change (p s >>= fun x => f x.1 x.2) = .ok (b, s') at h
  match hp : p s with
  | .ok (a, t) =>
    rw [hp] at h
    exact ⟨a, t, rfl, h⟩
  | .error e =>
    rw [hp] at h
    cases h

/-- **What a parser reads** where the word `l` stands. -/
def Reads (p : Parser σ ε α) (l : List σ) (a : α) : Prop :=
  ∀ rest, p (l ++ rest) = .ok (a, rest)

theorem reads_pure (a : α) : Reads (pure a : Parser σ ε α) [] a := by
  intro rest
  rfl

/-- **One after the other.** -/
theorem Reads.bind {p : Parser σ ε α} {f : α → Parser σ ε β} {l m : List σ} {a : α} {b : β}
    (hp : Reads p l a) (hf : Reads (f a) m b) : Reads (p >>= f) (l ++ m) b := by
  intro rest
  rw [List.append_assoc]
  show (p (l ++ (m ++ rest)) >>= fun x => f x.1 x.2) = _
  rw [hp (m ++ rest)]
  exact hf rest

/-- The last step of a parser: it makes a value of what was read. -/
theorem Reads.map {p : Parser σ ε α} {f : α → β} {l : List σ} {a : α} (hp : Reads p l a) :
    Reads (p >>= fun x => pure (f x)) l (f a) := by
  have h := hp.bind (f := fun x => pure (f x)) (reads_pure (f a))
  rwa [List.append_nil] at h

theorem reads_takeN {e : ε} {n : ℕ} {l : List σ} (h : l.length = n) :
    Reads (takeN e n : Parser σ ε (List σ)) l l := by
  intro rest
  subst h
  rw [takeN, if_pos (by rw [List.length_append]; omega), List.take_left, List.drop_left]

theorem Reads.within {p : Parser σ ε α} {l : List σ} {a : α} {e : ε} (hp : Reads p l a) :
    Reads (within e l p) [] a := by
  intro rest
  have h := hp []
  rw [List.append_nil] at h
  rw [TorEbpf.Lib.within, h]
  rfl

/-- **An array.** -/
theorem reads_repeatN {p : Parser σ ε α} {w : α → List σ} (as : List α)
    (hp : ∀ a ∈ as, Reads p (w a) a) : Reads (repeatN as.length p) (as.flatMap w) as := by
  induction as with
  | nil => exact reads_pure []
  | cons a as ih =>
    have htail : ∀ b ∈ as, Reads p (w b) b := fun b hb => hp b (List.mem_cons_of_mem a hb)
    rw [List.flatMap_cons]
    exact (hp a List.mem_cons_self).bind (ih htail).map

/-! ### Encoders -/

/-- An encoder, given the room that is left. -/
abbrev Encoder (σ ε : Type) := ℕ → Except ε (List σ)

/-- Write a word; `e` if there is no room. -/
def emit (e : ε) (l : List σ) : Encoder σ ε := fun avail =>
  if avail < l.length then .error e else .ok l

def Encoder.seq (enc enc' : Encoder σ ε) : Encoder σ ε := fun avail => do
  let l ← enc avail
  let m ← enc' (avail - l.length)
  return l ++ m

/-- A list of encoders, one after the other. -/
def Encoder.all : List (Encoder σ ε) → Encoder σ ε
  | [] => fun _ => .ok []
  | enc :: encs => enc.seq (Encoder.all encs)

/-- **What an encoder writes**, if there is room for it. -/
def Writes (e : ε) (enc : Encoder σ ε) (l : List σ) : Prop :=
  ∀ avail, enc avail = if avail < l.length then .error e else .ok l

theorem writes_emit (e : ε) (l : List σ) : Writes e (emit e l) l := by
  intro avail
  rfl

/-- **One after the other.** -/
theorem Writes.seq {e : ε} {enc enc' : Encoder σ ε} {l m : List σ} (h : Writes e enc l)
    (h' : Writes e enc' m) : Writes e (enc.seq enc') (l ++ m) := by
  intro avail
  show (enc avail >>= fun l => enc' (avail - l.length) >>= fun m => pure (l ++ m)) = _
  rw [h avail, List.length_append]
  by_cases hl : avail < l.length
  · rw [if_pos hl, if_pos (by omega)]
    rfl
  · rw [if_neg hl]
    show (enc' (avail - l.length) >>= fun m => pure (l ++ m)) = _
    rw [h' (avail - l.length)]
    by_cases hm : avail - l.length < m.length
    · rw [if_pos hm, if_pos (by omega)]
      rfl
    · rw [if_neg hm, if_neg (by omega)]
      rfl

/-- **An array.** -/
theorem Writes.all {e : ε} {enc : α → Encoder σ ε} {w : α → List σ} (as : List α)
    (h : ∀ a ∈ as, Writes e (enc a) (w a)) :
    Writes e (Encoder.all (as.map enc)) (as.flatMap w) := by
  induction as with
  | nil =>
    intro avail
    rfl
  | cons a as ih =>
    have htail : ∀ b ∈ as, Writes e (enc b) (w b) := fun b hb => h b (List.mem_cons_of_mem a hb)
    rw [List.flatMap_cons]
    exact (h a List.mem_cons_self).seq (ih htail)

theorem Writes.eq_of_ok {e : ε} {enc : Encoder σ ε} {l m : List σ} {avail : ℕ}
    (h : Writes e enc l) (hok : enc avail = .ok m) : m = l ∧ l.length ≤ avail := by
  rw [h avail] at hok
  split at hok
  · cases hok
  · cases hok
    exact ⟨rfl, by omega⟩

end TorEbpf.Lib
