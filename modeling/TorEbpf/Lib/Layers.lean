import Mathlib.Tactic.Common

/-!
# Layered channels

A line of hops, with a queue of messages before each.  A message for a hop goes through all the nearer ones,
and each of them takes one layer off, or puts one on.  The two ends of a layer, its reader and its writer,
each keep a state, which every message changes; the two must go through the same states, though neither
sees when the other does.

* `Layer.after`, `Layer.inner` — the reader's state when it has read what is on the way, and what then
  goes on to the next hop;
* `Outward` — messages from the near end: each hop reads what is written for it, and the next hops read
  what goes on; kept by `Outward.send`, `Outward.readHop`
  and `Outward.extend`;
* `Inward` — messages to the near end: kept by `Inward.create`, `Inward.passAt` and `Inward.read`.

In each state, what a hop has been sent is what it has got and what is on the way (`Hop.Reads`).
-/

namespace TorEbpf.Lib

variable {σ μ π : Type*}

/-- What is put on and taken off: `crypt` undoes itself in the same state, `stamp` is the message that
carries something for the hop itself. -/
structure Layer (σ μ π : Type*) where
  crypt : σ → μ → μ
  passed : σ → σ
  stamp : σ → π → μ
  own : σ → π → σ
  crypt_crypt : ∀ s m, crypt s (crypt s m) = m

/-- A message, with how many hops further it goes, and what it carries. -/
structure Sent (μ π : Type*) where
  hop : ℕ
  plain : π
  message : μ

/-- The two ends of a layer, the queue of messages, what was sent and what was got. -/
structure Hop (σ μ π : Type*) where
  reader : σ
  writer : σ
  queue : List (Sent μ π)
  sent : List π
  got : List π

namespace Layer

variable (L : Layer σ μ π)

def next (s : σ) (x : Sent μ π) : σ :=
  match x.hop with
  | 0 => L.own s x.plain
  | _ + 1 => L.passed s

def after (s : σ) (l : List (Sent μ π)) : σ := l.foldl L.next s

def inner : σ → List (Sent μ π) → List (Sent μ π)
  | _, [] => []
  | s, x :: l =>
      match x.hop with
      | 0 => inner (L.next s x) l
      | k + 1 => ⟨k, x.plain, L.crypt s x.message⟩ :: inner (L.next s x) l

/-- What is for this hop has been stamped for the state that it is read in. -/
def Stamped : σ → List (Sent μ π) → Prop
  | _, [] => True
  | s, x :: l => (x.hop = 0 → L.crypt s x.message = L.stamp s x.plain) ∧ Stamped (L.next s x) l

@[simp] theorem after_append (s : σ) (l l' : List (Sent μ π)) :
    L.after s (l ++ l') = L.after (L.after s l) l' := List.foldl_append

theorem inner_append (l l' : List (Sent μ π)) :
    ∀ s, L.inner s (l ++ l') = L.inner s l ++ L.inner (L.after s l) l' := by
  induction l with
  | nil =>
    intro s
    rfl
  | cons x l ih =>
    intro s
    obtain ⟨k, p, m⟩ := x
    cases k with
    | zero => exact ih _
    | succ k => exact congrArg (_ :: ·) (ih _)

theorem stamped_append (l l' : List (Sent μ π)) :
    ∀ s, L.Stamped s (l ++ l') ↔ L.Stamped s l ∧ L.Stamped (L.after s l) l' := by
  induction l with
  | nil =>
    intro s
    exact (true_and _).symm.to_iff
  | cons x l ih =>
    intro s
    show _ ∧ L.Stamped (L.next s x) (l ++ l') ↔ (_ ∧ L.Stamped (L.next s x) l) ∧ _
    rw [ih, and_assoc]
    rfl

end Layer

/-- What some messages carry for this hop. -/
def owns (l : List (Sent μ π)) : List π := (l.filter (·.hop = 0)).map (·.plain)

@[simp] theorem owns_append (l l' : List (Sent μ π)) : owns (l ++ l') = owns l ++ owns l' := by
  rw [owns, List.filter_append, List.map_append]
  rfl

/-- A hop whose two ends will be in the same state, when what is on the way has been read. -/
structure Hop.Reads (L : Layer σ μ π) (h : Hop σ μ π) (l : List (Sent μ π)) : Prop where
  state : L.after h.reader l = h.writer
  stamped : L.Stamped h.reader l
  got : h.sent = h.got ++ owns l

variable {L : Layer σ μ π} {h : Hop σ μ π} {hs : List (Hop σ μ π)}

theorem Hop.Reads.own {p : π} {m : μ} {l : List (Sent μ π)} (hr : h.Reads L (⟨0, p, m⟩ :: l)) :
    L.crypt h.reader m = L.stamp h.reader p ∧
      Hop.Reads L { h with reader := L.own h.reader p, got := h.got ++ [p] } l := by
  refine ⟨hr.stamped.1 rfl, hr.state, hr.stamped.2, ?_⟩
  rw [hr.got, List.append_assoc]
  rfl

theorem Hop.Reads.pass {k : ℕ} {p : π} {m : μ} {l : List (Sent μ π)}
    (hr : h.Reads L (⟨k + 1, p, m⟩ :: l)) : Hop.Reads L { h with reader := L.passed h.reader } l :=
  ⟨hr.state, hr.stamped.2, hr.got⟩

theorem Hop.Reads.write {l : List (Sent μ π)} (hr : h.Reads L l) {x : Sent μ π}
    (hx : x.hop = 0 → L.crypt h.writer x.message = L.stamp h.writer x.plain) :
    Hop.Reads L { h with writer := L.next h.writer x, sent := h.sent ++ owns [x] } (l ++ [x]) := by
  refine ⟨?_, ?_, ?_⟩
  · show L.after h.reader (l ++ [x]) = L.next h.writer x
    rw [L.after_append, hr.state]
    rfl
  · refine (L.stamped_append l [x] h.reader).mpr ⟨hr.stamped, ?_, trivial⟩
    rw [hr.state]
    exact hx
  · show h.sent ++ owns [x] = h.got ++ owns (l ++ [x])
    rw [hr.got, owns_append, List.append_assoc]

/-! ### Away from the near end -/

/-- The hops will read what is in their queues, and then what arrives. -/
def Outward (L : Layer σ μ π) : List (Hop σ μ π) → List (Sent μ π) → Prop
  | [], arrives => arrives = []
  | h :: hs, arrives =>
      h.Reads L (h.queue ++ arrives) ∧ Outward L hs (L.inner h.reader (h.queue ++ arrives))

/-- The message that carries something to a hop. -/
def wrap (L : Layer σ μ π) : List (Hop σ μ π) → ℕ → π → Option μ
  | [], _, _ => none
  | h :: _, 0, p => some (L.crypt h.writer (L.stamp h.writer p))
  | h :: hs, k + 1, p => (wrap L hs k p).map (L.crypt h.writer)

/-- The writers when it has been sent. -/
def advance (L : Layer σ μ π) : List (Hop σ μ π) → ℕ → π → List (Hop σ μ π)
  | [], _, _ => []
  | h :: hs, 0, p => { h with writer := L.own h.writer p, sent := h.sent ++ [p] } :: hs
  | h :: hs, k + 1, p => { h with writer := L.passed h.writer } :: advance L hs k p

/-- **The near end sends a message.** -/
theorem Outward.send {p : π} : ∀ {hs : List (Hop σ μ π)} {k : ℕ} {m : μ} {arrives : List (Sent μ π)},
    Outward L hs arrives → wrap L hs k p = some m →
    Outward L (advance L hs k p) (arrives ++ [⟨k, p, m⟩]) := by
  intro hs
  induction hs with
  | nil =>
    intro k m arrives _ hm
    cases hm
  | cons h hs ih =>
    intro k m arrives ho hm
    obtain ⟨hr, ho⟩ := ho
    have hinner : ∀ x : Sent μ π, L.inner h.reader (h.queue ++ (arrives ++ [x])) =
        L.inner h.reader (h.queue ++ arrives) ++ L.inner h.writer [x] := by
      intro x
      rw [← List.append_assoc, L.inner_append, hr.state]
    cases k with
    | zero =>
      cases hm
      refine ⟨?_, ?_⟩
      · rw [← List.append_assoc]
        exact hr.write (x := ⟨0, p, L.crypt h.writer (L.stamp h.writer p)⟩) fun _ => L.crypt_crypt _ _
      · show Outward L hs (L.inner h.reader (h.queue ++ (arrives ++ [_])))
        rw [hinner]
        simpa [Layer.inner] using ho
    | succ k =>
      obtain ⟨m', hm', rfl⟩ := Option.map_eq_some_iff.mp hm
      refine ⟨?_, ?_⟩
      · rw [← List.append_assoc]
        have hw := hr.write (x := ⟨k + 1, p, L.crypt h.writer m'⟩) fun hk => absurd hk (Nat.succ_ne_zero k)
        exact ⟨hw.state, hw.stamped, by simpa [owns] using hw.got⟩
      · show Outward L (advance L hs k p) (L.inner h.reader (h.queue ++ (arrives ++ [_])))
        rw [hinner]
        simpa [Layer.inner, L.crypt_crypt] using ih ho hm'

def enqueue (x : Sent μ π) : List (Hop σ μ π) → List (Hop σ μ π)
  | [] => []
  | h :: hs => { h with queue := h.queue ++ [x] } :: hs

theorem Outward.enqueue {x : Sent μ π} {arrives : List (Sent μ π)} (ho : Outward L hs (x :: arrives)) :
    Outward L (Lib.enqueue x hs) arrives := by
  cases hs with
  | nil => cases ho
  | cons h hs =>
    show Hop.Reads L _ (h.queue ++ [x] ++ arrives) ∧ Outward L hs (L.inner h.reader (h.queue ++ [x] ++ arrives))
    rw [List.append_assoc, List.singleton_append]
    exact ⟨⟨ho.1.state, ho.1.stamped, ho.1.got⟩, ho.2⟩

def readHop (L : Layer σ μ π) : ℕ → List (Hop σ μ π) → List (Hop σ μ π)
  | _, [] => []
  | n + 1, h :: hs => h :: readHop L n hs
  | 0, h :: hs =>
      match h.queue with
      | [] => h :: hs
      | ⟨0, p, _⟩ :: queue =>
          { h with reader := L.own h.reader p, queue := queue, got := h.got ++ [p] } :: hs
      | ⟨k + 1, p, m⟩ :: queue =>
          { h with reader := L.passed h.reader, queue := queue } ::
            enqueue ⟨k, p, L.crypt h.reader m⟩ hs

/-- **A hop reads a message.** -/
theorem Outward.readHop : ∀ {hs : List (Hop σ μ π)} {n : ℕ} {arrives : List (Sent μ π)},
    Outward L hs arrives → Outward L (Lib.readHop L n hs) arrives := by
  intro hs
  induction hs with
  | nil =>
    intro n arrives ho
    cases n <;> exact ho
  | cons h hs ih =>
    intro n arrives ho
    cases n with
    | succ n => exact ⟨ho.1, ih ho.2⟩
    | zero =>
      obtain ⟨reader, writer, queue, sent, got⟩ := h
      cases queue with
      | nil => exact ho
      | cons x queue =>
        obtain ⟨k, p, m⟩ := x
        obtain ⟨hr, ho⟩ := ho
        cases k with
        | zero =>
          have hown := (Hop.Reads.own hr).2
          exact ⟨⟨hown.state, hown.stamped, hown.got⟩, ho⟩
        | succ k =>
          have hpass := Hop.Reads.pass hr
          exact ⟨⟨hpass.state, hpass.stamped, hpass.got⟩, Outward.enqueue ho⟩

/-- A hop whose two ends begin in the same state. -/
def Hop.new (s : σ) : Hop σ μ π := ⟨s, s, [], [], []⟩

/-- **The line is extended.** -/
theorem Outward.extend (s : σ) : ∀ {hs : List (Hop σ μ π)} {arrives : List (Sent μ π)},
    Outward L hs arrives → Outward L (hs ++ [Hop.new s]) arrives := by
  intro hs
  induction hs with
  | nil =>
    intro arrives ho
    cases ho
    exact ⟨⟨rfl, trivial, rfl⟩, rfl⟩
  | cons h hs ih =>
    intro arrives ho
    exact ⟨ho.1, ih ho.2⟩

/-! ### Towards the near end -/

/-- The near end will read what has come past the nearer hops, and then the queues. -/
def Inward (L : Layer σ μ π) : List (Hop σ μ π) → List (Sent μ π) → Prop
  | [], came => came = []
  | h :: hs, came => h.Reads L (came ++ h.queue) ∧ Inward L hs (L.inner h.reader (came ++ h.queue))

theorem Inward.extend (s : σ) : ∀ {hs : List (Hop σ μ π)} {came : List (Sent μ π)},
    Inward L hs came → Inward L (hs ++ [Hop.new s]) came := by
  intro hs
  induction hs with
  | nil =>
    intro came hi
    cases hi
    exact ⟨⟨rfl, trivial, rfl⟩, rfl⟩
  | cons h hs ih =>
    intro came hi
    exact ⟨hi.1, ih hi.2⟩

def createAt (L : Layer σ μ π) (p : π) : ℕ → List (Hop σ μ π) → List (Hop σ μ π)
  | _, [] => []
  | n + 1, h :: hs => h :: createAt L p n hs
  | 0, h :: hs =>
      { h with
        writer := L.own h.writer p
        queue := h.queue ++ [⟨0, p, L.crypt h.writer (L.stamp h.writer p)⟩]
        sent := h.sent ++ [p] } :: hs

/-- **A hop sends a message.** -/
theorem Inward.create {p : π} : ∀ {hs : List (Hop σ μ π)} {n : ℕ} {came : List (Sent μ π)},
    Inward L hs came → Inward L (createAt L p n hs) came := by
  intro hs
  induction hs with
  | nil =>
    intro n came hi
    cases n <;> exact hi
  | cons h hs ih =>
    intro n came hi
    cases n with
    | succ n => exact ⟨hi.1, ih hi.2⟩
    | zero =>
      obtain ⟨hr, hi⟩ := hi
      have hw := hr.write (x := ⟨0, p, L.crypt h.writer (L.stamp h.writer p)⟩) fun _ => L.crypt_crypt _ _
      show Hop.Reads L _ (came ++ (h.queue ++ [_])) ∧ Inward L hs (L.inner h.reader (came ++ (h.queue ++ [_])))
      rw [← List.append_assoc]
      refine ⟨⟨hw.state, hw.stamped, hw.got⟩, ?_⟩
      rw [L.inner_append]
      simpa [Layer.inner] using hi

def dequeue : List (Hop σ μ π) → Option (Sent μ π × List (Hop σ μ π))
  | [] => none
  | h :: hs =>
      match h.queue with
      | [] => none
      | x :: queue => some (x, { h with queue := queue } :: hs)

theorem Inward.dequeue {came : List (Sent μ π)} {x : Sent μ π} {hs' : List (Hop σ μ π)}
    (hi : Inward L hs came) (hx : Lib.dequeue hs = some (x, hs')) : Inward L hs' (came ++ [x]) := by
  cases hs with
  | nil => cases hx
  | cons h hs =>
    obtain ⟨reader, writer, queue, sent, got⟩ := h
    cases queue with
    | nil => cases hx
    | cons y queue =>
      cases hx
      obtain ⟨hr, hi⟩ := hi
      show Hop.Reads L _ (came ++ [x] ++ queue) ∧ Inward L hs (L.inner reader (came ++ [x] ++ queue))
      rw [List.append_assoc, List.singleton_append]
      exact ⟨⟨hr.state, hr.stamped, hr.got⟩, hi⟩

/-- A hop passes the first message of the next hop on. -/
def passAt (L : Layer σ μ π) : ℕ → List (Hop σ μ π) → List (Hop σ μ π)
  | _, [] => []
  | n + 1, h :: hs => h :: passAt L n hs
  | 0, h :: hs =>
      match dequeue hs with
      | none => h :: hs
      | some (x, hs) =>
          { h with
            writer := L.passed h.writer
            queue := h.queue ++ [⟨x.hop + 1, x.plain, L.crypt h.writer x.message⟩] } :: hs

/-- **A hop passes a message on.** -/
theorem Inward.passAt : ∀ {hs : List (Hop σ μ π)} {n : ℕ} {came : List (Sent μ π)},
    Inward L hs came → Inward L (Lib.passAt L n hs) came := by
  intro hs
  induction hs with
  | nil =>
    intro n came hi
    cases n <;> exact hi
  | cons h hs ih =>
    intro n came hi
    cases n with
    | succ n => exact ⟨hi.1, ih hi.2⟩
    | zero =>
      rw [Lib.passAt]
      split
      · exact hi
      · rename_i x hs' hx
        obtain ⟨hr, hi⟩ := hi
        have hw := hr.write (x := ⟨x.hop + 1, x.plain, L.crypt h.writer x.message⟩)
          fun hk => absurd hk (Nat.succ_ne_zero _)
        show Hop.Reads L _ (came ++ (h.queue ++ [_])) ∧
          Inward L hs' (L.inner h.reader (came ++ (h.queue ++ [_])))
        rw [← List.append_assoc]
        refine ⟨⟨hw.state, hw.stamped, by simpa [owns] using hw.got⟩, ?_⟩
        have hdequeued := hi.dequeue hx
        rw [L.inner_append, hr.state]
        simpa [Layer.inner, L.crypt_crypt] using hdequeued

/-- The near end takes the layers off a message. -/
def peel (L : Layer σ μ π) : List (Hop σ μ π) → Sent μ π → List (Hop σ μ π)
  | [], _ => []
  | h :: hs, ⟨0, p, _⟩ => { h with reader := L.own h.reader p, got := h.got ++ [p] } :: hs
  | h :: hs, ⟨k + 1, p, m⟩ =>
      { h with reader := L.passed h.reader } :: peel L hs ⟨k, p, L.crypt h.reader m⟩

theorem Inward.peel : ∀ {hs : List (Hop σ μ π)} {x : Sent μ π} {came : List (Sent μ π)},
    Inward L hs (x :: came) → Inward L (Lib.peel L hs x) came := by
  intro hs
  induction hs with
  | nil =>
    intro x came hi
    cases hi
  | cons h hs ih =>
    intro x came hi
    obtain ⟨k, p, m⟩ := x
    obtain ⟨hr, hi⟩ := hi
    cases k with
    | zero =>
      have hown := (Hop.Reads.own hr).2
      exact ⟨⟨hown.state, hown.stamped, hown.got⟩, hi⟩
    | succ k =>
      have hpass := Hop.Reads.pass hr
      exact ⟨⟨hpass.state, hpass.stamped, hpass.got⟩, ih hi⟩

/-- The near end reads the first message of the first queue. -/
def readFirst (L : Layer σ μ π) (hs : List (Hop σ μ π)) : List (Hop σ μ π) :=
  match dequeue hs with
  | none => hs
  | some (x, hs) => peel L hs x

/-- **The near end reads a message.** -/
theorem Inward.read (hi : Inward L hs []) : Inward L (readFirst L hs) [] := by
  rw [readFirst]
  split
  · exact hi
  · rename_i x hs' hx
    exact (hi.dequeue hx).peel

/-! ### What is sent and what is got -/

theorem Outward.got : ∀ {hs : List (Hop σ μ π)} {arrives : List (Sent μ π)}, Outward L hs arrives →
    ∀ h ∈ hs, ∃ rest, h.sent = h.got ++ rest := by
  intro hs
  induction hs with
  | nil =>
    intro arrives _ h hmem
    cases hmem
  | cons h hs ih =>
    intro arrives ho h' hmem
    obtain rfl | hmem := List.mem_cons.mp hmem
    · exact ⟨_, ho.1.got⟩
    · exact ih ho.2 h' hmem

/-- When nothing is on the way, everything has been got and the states are the same. -/
theorem Outward.quiet : ∀ {hs : List (Hop σ μ π)}, Outward L hs [] → (∀ h ∈ hs, h.queue = []) →
    ∀ h ∈ hs, h.reader = h.writer ∧ h.sent = h.got := by
  intro hs
  induction hs with
  | nil =>
    intro _ _ h hmem
    cases hmem
  | cons h hs ih =>
    intro ho hquiet h' hmem
    obtain ⟨hr, ho⟩ := ho
    rw [hquiet h List.mem_cons_self] at hr ho
    obtain rfl | hmem := List.mem_cons.mp hmem
    · exact ⟨hr.state, hr.got.trans (List.append_nil _)⟩
    · exact ih ho (fun h hm => hquiet h (List.mem_cons_of_mem _ hm)) h' hmem

theorem Inward.got : ∀ {hs : List (Hop σ μ π)} {came : List (Sent μ π)}, Inward L hs came →
    ∀ h ∈ hs, ∃ rest, h.sent = h.got ++ rest := by
  intro hs
  induction hs with
  | nil =>
    intro came _ h hmem
    cases hmem
  | cons h hs ih =>
    intro came hi h' hmem
    obtain rfl | hmem := List.mem_cons.mp hmem
    · exact ⟨_, hi.1.got⟩
    · exact ih hi.2 h' hmem

theorem Inward.quiet : ∀ {hs : List (Hop σ μ π)}, Inward L hs [] → (∀ h ∈ hs, h.queue = []) →
    ∀ h ∈ hs, h.reader = h.writer ∧ h.sent = h.got := by
  intro hs
  induction hs with
  | nil =>
    intro _ _ h hmem
    cases hmem
  | cons h hs ih =>
    intro hi hquiet h' hmem
    obtain ⟨hr, hi⟩ := hi
    rw [hquiet h List.mem_cons_self] at hr hi
    obtain rfl | hmem := List.mem_cons.mp hmem
    · exact ⟨hr.state, hr.got.trans (List.append_nil _)⟩
    · exact ih hi (fun h hm => hquiet h (List.mem_cons_of_mem _ hm)) h' hmem

end TorEbpf.Lib
