import Mathlib

/-!
# The commands of `ed`

A script of the line editor is executed command by command on a buffer.  If each command only addresses
lines in front of those that the commands before it have changed, one pass over the buffer from its end is
enough.

* `execute_onePass` — the pass yields what the script does;
* `execute_eq_onePass_iff` — which scripts that work upwards it is right for.
-/

namespace TorEbpf.Lib.Ed

variable {α : Type}

/-! ### Commands -/

/-- `n`, `n,m` and `n,$`. -/
inductive Address where
  | line (n : ℕ)
  | lines (n m : ℕ)
  | toEnd (n : ℕ)
  deriving DecidableEq, Repr

def Address.first : Address → ℕ
  | .line n => n
  | .lines n _ => n
  | .toEnd n => n

/-- The last line that is addressed, in a buffer of `len` lines. -/
def Address.last (len : ℕ) : Address → ℕ
  | .line n => n
  | .lines _ m => m
  | .toEnd _ => len

/-- The address depends on the buffer. -/
def Address.isToEnd : Address → Bool
  | .toEnd _ => true
  | _ => false

/-- `a`, `c` and `d`, with the lines that are put in. -/
inductive Action (α : Type) where
  | append (text : List α)
  | change (text : List α)
  | delete
  deriving DecidableEq, Repr

def Action.text : Action α → List α
  | .append text => text
  | .change text => text
  | .delete => []

def Action.isAppend : Action α → Bool
  | .append _ => true
  | _ => false

structure Command (α : Type) where
  address : Address
  action : Action α
  deriving DecidableEq, Repr

namespace Command

/-- The address is one of a buffer of `len` lines; only an append may stand before the first line. -/
def Addresses (c : Command α) (len : ℕ) : Prop :=
  c.address.first ≤ c.address.last len ∧ c.address.last len ≤ len ∧
    (c.action.isAppend = false → 1 ≤ c.address.first)

instance (c : Command α) (len : ℕ) : Decidable (c.Addresses len) :=
  inferInstanceAs (Decidable (_ ∧ _ ∧ _))

/-- How many lines stay in front of what is put in. -/
def keeps (c : Command α) (len : ℕ) : ℕ :=
  if c.action.isAppend then c.address.last len else c.address.first - 1

/-- **A command**: the text comes behind the lines that are kept, and in front of those behind the last
one that is addressed. -/
def execute (c : Command α) (buf : List α) : Option (List α) :=
  if c.Addresses buf.length then
    some (buf.take (c.keeps buf.length) ++ (c.action.text ++ buf.drop (c.address.last buf.length)))
  else none

/-- What the part of the buffer behind `front` has become. -/
def behind (c : Command α) (front back : List α) : List α :=
  c.action.text ++ (front.drop (c.address.last front.length) ++ back)

theorem last_eq {c : Command α} {len len' : ℕ} (h : c.address.isToEnd = true → len = len') :
    c.address.last len = c.address.last len' := by
  obtain ⟨address, action⟩ := c
  cases address with
  | line n => rfl
  | lines n m => rfl
  | toEnd n => exact h rfl

theorem keeps_eq {c : Command α} {len len' : ℕ} (h : c.address.isToEnd = true → len = len') :
    c.keeps len = c.keeps len' := by
  rw [keeps, keeps, last_eq h]

theorem keeps_le {c : Command α} {len : ℕ} (hfirst : c.address.first ≤ c.address.last len) :
    c.keeps len ≤ c.address.last len := by
  rw [keeps]
  split_ifs
  · exact le_rfl
  · exact (Nat.sub_le _ 1).trans hfirst

/-- **What lies behind** the addressed lines stays. -/
theorem execute_append {c : Command α} {front back : List α} (h : c.Addresses front.length)
    (hend : c.address.isToEnd = true → back = []) :
    c.execute (front ++ back) = some (front.take (c.keeps front.length) ++ c.behind front back) := by
  have hlen : c.address.isToEnd = true → (front ++ back).length = front.length := by
    intro htoEnd
    rw [hend htoEnd, List.append_nil]
  have hlast := last_eq hlen
  have hkeeps := keeps_eq hlen
  obtain ⟨hfirst, hle, hpos⟩ := h
  have hvalid : c.Addresses (front ++ back).length := by
    refine ⟨?_, ?_, hpos⟩
    · rw [hlast]
      exact hfirst
    · rw [hlast, List.length_append]
      exact Nat.le_add_right_of_le hle
  rw [execute, if_pos hvalid, hkeeps, hlast, List.take_append_of_le_length ((keeps_le hfirst).trans hle),
    List.drop_append_of_le_length hle, behind]

end Command

/-- **A script**, one command after the other. -/
def execute (script : List (Command α)) (buf : List α) : Option (List α) :=
  script.foldlM (fun buf c => c.execute buf) buf

@[simp] theorem execute_nil (buf : List α) : execute [] buf = some buf := rfl

theorem execute_cons (c : Command α) (script : List (Command α)) (buf : List α) :
    execute (c :: script) buf = (c.execute buf).bind (execute script) := rfl

/-! ### One pass -/

/-- One pass over a buffer from its end: `front` is what has not been looked at, `back` is done. -/
def onePass : List (Command α) → List α → List α → List α
  | [], front, back => front ++ back
  | c :: script, front, back => onePass script (front.take (c.keeps front.length)) (c.behind front back)

/-- Each command addresses lines in front of those that the commands before it have changed; `bound` is
the last of them. -/
def Upwards (len : ℕ) : ℤ → List (Command α) → Prop
  | _, [] => True
  | bound, c :: script =>
      (c.address.first ≤ c.address.last len ∧ (c.address.last len : ℤ) ≤ bound) ∧
        Upwards len (if c.action.isAppend then (c.address.last len : ℤ) else c.address.first - 1) script

/-- Deletions and changes start at a line, and an address up to the end only comes first. -/
structure Regular (script : List (Command α)) : Prop where
  first : ∀ c ∈ script, c.action.isAppend = false → 1 ≤ c.address.first
  toEnd : ∀ c ∈ script.tail, c.address.isToEnd = false

/-- An append has something to put in, and only deletions go up to the end. -/
structure WellFormed (script : List (Command α)) : Prop where
  appended : ∀ c ∈ script, c.action.isAppend = true → c.action.text ≠ []
  deletes : ∀ c ∈ script, c.address.isToEnd = true → c.action = .delete

variable {len : ℕ} {bound : ℤ} {c : Command α} {script : List (Command α)} {front back buf : List α}

theorem onePass_append (script : List (Command α)) :
    ∀ front back more : List α, onePass script front (back ++ more) = onePass script front back ++ more := by
  induction script with
  | nil =>
    intro front back more
    exact (List.append_assoc front back more).symm
  | cons c script ih =>
    intro front back more
    have hbehind : c.behind front (back ++ more) = c.behind front back ++ more := by
      simp only [Command.behind, List.append_assoc]
    rw [onePass, onePass, hbehind, ih]

/-- The last line is out of reach once it has been changed. -/
theorem Upwards.not_toEnd {script : List (Command α)} :
    ∀ {bound : ℤ}, Upwards len bound script → bound < len → ∀ c ∈ script, c.address.isToEnd = false := by
  induction script with
  | nil =>
    intro bound _ _ c hc
    cases hc
  | cons x script ih =>
    intro bound hup hlt c hc
    obtain ⟨⟨hle, hlast⟩, hrest⟩ := hup
    have hbound : (if x.action.isAppend then (x.address.last len : ℤ) else x.address.first - 1) < len := by
      split_ifs <;> omega
    rcases List.mem_cons.mp hc with rfl | hc
    · obtain ⟨address, action⟩ := c
      cases address with
      | line n => rfl
      | lines n m => rfl
      | toEnd n => exact absurd (lt_of_le_of_lt hlast hlt) (lt_irrefl _)
    · exact ih hrest hbound c hc

/-- A script that is executed has no deletion or change in front of the first line. -/
theorem first_of_execute {script : List (Command α)} :
    ∀ {buf out : List α}, execute script buf = some out →
      ∀ c ∈ script, c.action.isAppend = false → 1 ≤ c.address.first := by
  induction script with
  | nil =>
    intro buf out _ c hc
    cases hc
  | cons x script ih =>
    intro buf out h c hc
    rw [execute_cons] at h
    obtain ⟨buf', hx, hscript⟩ := Option.bind_eq_some_iff.mp h
    rcases List.mem_cons.mp hc with rfl | hc
    · unfold Command.execute at hx
      split_ifs at hx with hvalid
      exact hvalid.2.2
    · exact ih hscript c hc

/-- **The pass** yields what the script does, if no command but the first goes up to the end. -/
theorem execute_onePass {script : List (Command α)} :
    ∀ (front back : List α) {bound : ℤ}, Upwards len bound script → bound = front.length →
      (∀ c ∈ script, c.action.isAppend = false → 1 ≤ c.address.first) →
      (∀ c ∈ script, c.address.isToEnd = true → front.length = len ∧ back = []) →
      (∀ c ∈ script.tail, c.address.isToEnd = false) →
      execute script (front ++ back) = some (onePass script front back) := by
  induction script with
  | nil =>
    intro front back bound _ _ _ _ _
    rfl
  | cons c script ih =>
    intro front back bound hup hbound hfirst hend htail
    obtain ⟨⟨hle, hlast⟩, hrest⟩ := hup
    have hc := hend c List.mem_cons_self
    have hlen : c.address.isToEnd = true → front.length = len := fun htoEnd => (hc htoEnd).1
    have hlasteq := Command.last_eq hlen
    have hvalid : c.Addresses front.length := by
      refine ⟨?_, ?_, hfirst c List.mem_cons_self⟩
      · rw [hlasteq]
        exact hle
      · rw [hlasteq]
        omega
    have hnone : ∀ x ∈ script, x.address.isToEnd = false := htail
    rw [execute_cons, Command.execute_append hvalid fun htoEnd => (hc htoEnd).2]
    refine ih _ _ hrest ?_ (fun x hx => hfirst x (List.mem_cons_of_mem c hx)) ?_
      fun x hx => hnone x (List.mem_of_mem_tail hx)
    · have hkeeps := (Command.keeps_le hvalid.1).trans hvalid.2.1
      rw [List.length_take_of_le hkeeps, Command.keeps]
      split_ifs with happend
      · rw [hlasteq]
      · have hpos := hfirst c List.mem_cons_self (eq_false_of_ne_true happend)
        omega
    · intro x hx htoEnd
      rw [hnone x hx] at htoEnd
      cases htoEnd

/-- Behind lines that have been put in, no command goes up to the end: these would be deleted too. -/
theorem not_toEnd_of_execute {script : List (Command α)} :
    ∀ {front back : List α} {bound : ℤ}, Upwards len bound script → WellFormed script →
      bound = front.length → front.length ≤ len → back ≠ [] →
      execute script (front ++ back) = some (onePass script front back) →
      ∀ c ∈ script, c.address.isToEnd = false := by
  induction script with
  | nil =>
    intro front back bound _ _ _ _ _ _ c hc
    cases hc
  | cons x script ih =>
    intro front back bound hup hwf hbound hlen hback h
    have hfirst := first_of_execute h
    obtain ⟨⟨hle, hlast⟩, hrest⟩ := hup
    have hpos := hfirst x List.mem_cons_self
    have hwf' : WellFormed script :=
      ⟨fun c hc => hwf.appended c (List.mem_cons_of_mem x hc),
        fun c hc => hwf.deletes c (List.mem_cons_of_mem x hc)⟩
    rw [execute_cons, onePass] at h
    cases hend : x.address.isToEnd with
    | false =>
      have hlasteq : x.address.last front.length = x.address.last len :=
        Command.last_eq fun htoEnd => absurd htoEnd (by simp [hend])
      have hvalid : x.Addresses front.length := by
        refine ⟨?_, ?_, hpos⟩
        · rw [hlasteq]
          exact hle
        · rw [hlasteq]
          omega
      have hkeeps := (Command.keeps_le hvalid.1).trans hvalid.2.1
      rw [Command.execute_append hvalid (by simp [hend])] at h
      have hbehind : x.behind front back ≠ [] := by
        simp [Command.behind, hback]
      refine List.forall_mem_cons.mpr ⟨hend, ih hrest hwf' ?_ ?_ hbehind h⟩
      · rw [List.length_take_of_le hkeeps, Command.keeps]
        split_ifs with happend
        · rw [hlasteq]
        · have hone := hpos (eq_false_of_ne_true happend)
          omega
      · rw [List.length_take_of_le hkeeps]
        exact hkeeps.trans hlen
    | true =>
      -- the lines behind are deleted by the command, and kept by the pass
      exfalso
      obtain ⟨address, action⟩ := x
      obtain rfl : action = .delete := hwf.deletes _ List.mem_cons_self hend
      cases address with
      | line n => cases hend
      | lines n m => cases hend
      | toEnd n =>
        have hone : 1 ≤ n := hpos rfl
        have hn : n ≤ len := hle
        have hfront : front.length = len := by
          have hlen' : (len : ℤ) ≤ bound := hlast
          omega
        have hnone := hrest.not_toEnd (show ((n : ℤ) - 1) < len by omega)
        have hbehind : Command.behind ⟨.toEnd n, .delete⟩ front back = [] ++ back := by
          simp [Command.behind, Action.text, Address.last]
        have hexec : Command.execute ⟨.toEnd n, .delete⟩ (front ++ back) = some (front.take (n - 1) ++ []) := by
          have hvalid : Command.Addresses (⟨.toEnd n, .delete⟩ : Command α) (front ++ back).length :=
            ⟨by simp [Address.first, Address.last]; omega, le_rfl, fun _ => hone⟩
          rw [Command.execute, if_pos hvalid, Command.keeps]
          simp [Action.isAppend, Action.text, Address.first, Address.last]
          omega
        have hpass := execute_onePass (front.take (n - 1)) [] hrest
          (by simp [Action.isAppend, Address.first]; omega)
          (fun c hc => hfirst c (List.mem_cons_of_mem _ hc))
          (fun c hc htoEnd => absurd htoEnd (by simp [hnone c hc]))
          fun c hc => hnone c (List.mem_of_mem_tail hc)
        rw [hexec, Option.bind_some, hpass, hbehind, Command.keeps, onePass_append] at h
        have hsame := Option.some.inj h
        simp [Action.isAppend, Address.first] at hsame
        exact hback hsame

/-- **The pass is right** for the regular scripts among those that work upwards, and for no others. -/
theorem execute_eq_onePass_iff (hup : Upwards buf.length buf.length script) (hwf : WellFormed script) :
    execute script buf = some (onePass script buf []) ↔ Regular script := by
  constructor
  · intro h
    have hfirst := first_of_execute h
    refine ⟨hfirst, ?_⟩
    cases script with
    | nil => simp
    | cons c script =>
      obtain ⟨⟨hle, hlast⟩, hrest⟩ := hup
      have hlen : c.address.last buf.length ≤ buf.length := by omega
      have hvalid : c.Addresses buf.length := ⟨hle, hlen, hfirst c List.mem_cons_self⟩
      have hkeeps := (Command.keeps_le hle).trans hlen
      have hcommand : c.execute (buf ++ []) =
          some (buf.take (c.keeps buf.length) ++ c.behind buf []) :=
        Command.execute_append hvalid fun _ => rfl
      rw [List.append_nil] at hcommand
      rw [execute_cons, hcommand, Option.bind_some, onePass] at h
      have hbound : (if c.action.isAppend then (c.address.last buf.length : ℤ) else c.address.first - 1) =
          (buf.take (c.keeps buf.length)).length := by
        rw [List.length_take_of_le hkeeps, Command.keeps]
        split_ifs with happend
        · rfl
        · have hpos := hfirst c List.mem_cons_self (eq_false_of_ne_true happend)
          omega
      by_cases hbehind : c.behind buf [] = []
      · -- the last line has been deleted
        have htext : c.action.text = [] := (List.append_eq_nil_iff.mp hbehind).1
        have happend : c.action.isAppend = false := by
          by_contra happend
          exact hwf.appended c List.mem_cons_self (eq_true_of_ne_false happend) htext
        rw [happend] at hrest
        have hpos := hfirst c List.mem_cons_self happend
        exact hrest.not_toEnd (show (c.address.first : ℤ) - 1 < buf.length by omega)
      · exact not_toEnd_of_execute hrest
          ⟨fun x hx => hwf.appended x (List.mem_cons_of_mem c hx),
            fun x hx => hwf.deletes x (List.mem_cons_of_mem c hx)⟩
          hbound (by rw [List.length_take]; exact Nat.min_le_right _ _) hbehind h
  · intro h
    have hend : ∀ c ∈ script.tail, c.address.isToEnd = false := h.toEnd
    have hpass := execute_onePass buf [] hup rfl h.first (fun _ _ _ => ⟨rfl, rfl⟩) hend
    rwa [List.append_nil] at hpass

/-- **The order of the commands**: each stands in front of those before it; only behind appends may one
address the same line. -/
theorem pairwise_of_upwards {script : List (Command α)} :
    ∀ {bound : ℤ}, Upwards len bound script →
      (∀ c ∈ script, c.action.isAppend = true → c.address.first = c.address.last len) →
      (∀ c ∈ script, c.address.first ≤ c.address.last len ∧ (c.address.last len : ℤ) ≤ bound) ∧
        script.Pairwise fun c c' => c'.address.last len < c.address.first ∨
          c.action.isAppend = true ∧ c'.address.last len = c.address.first := by
  induction script with
  | nil =>
    intro bound _ _
    exact ⟨fun c hc => absurd hc List.not_mem_nil, List.Pairwise.nil⟩
  | cons c script ih =>
    intro bound hup hline
    obtain ⟨⟨hle, hlast⟩, hrest⟩ := hup
    obtain ⟨hall, hpairs⟩ := ih hrest fun x hx => hline x (List.mem_cons_of_mem c hx)
    have hc := hline c List.mem_cons_self
    refine ⟨List.forall_mem_cons.mpr ⟨⟨hle, hlast⟩, ?_⟩, List.pairwise_cons.mpr ⟨?_, hpairs⟩⟩
    · intro x hx
      obtain ⟨hfirst, hbound⟩ := hall x hx
      refine ⟨hfirst, ?_⟩
      split_ifs at hbound <;> omega
    · intro x hx
      obtain ⟨_, hbound⟩ := hall x hx
      cases happend : c.action.isAppend with
      | true =>
        have heq := hc happend
        rw [happend, if_pos rfl] at hbound
        rcases Nat.lt_or_ge (x.address.last len) c.address.first with hlt | hge
        · exact .inl hlt
        · exact .inr ⟨rfl, by omega⟩
      | false =>
        rw [happend] at hbound
        simp only [Bool.false_eq_true, if_false] at hbound
        exact .inl (by omega)

end TorEbpf.Lib.Ed
