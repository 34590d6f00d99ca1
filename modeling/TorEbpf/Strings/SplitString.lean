import Mathlib
import TorEbpf.Lib.Lines
import TorEbpf.Lib.Numeral
import TorEbpf.Strings.ParseInt

/-!
# Splitting a line

Two ways in which a line comes apart into words.  `smartlist_split_string` at spaces takes white space of
every kind off the ends of the words; `get_token_arguments`, on the lines of a directory document, only
knows blanks, tabs and line ends, and comments.

* `splitSpaces_eq` — the loop of the first one splits at the spaces, trims and drops what is blank;
* `splitSpaces_join` — joined words come apart into the words, trimmed;
* `plain_of_getTokenArguments` — which bytes do not occur in the words of a document.
-/

namespace TorEbpf.Strings

open TorEbpf.Lib

variable {s t : List UInt8}

/-! ### Trimming -/

def trim (s : List UInt8) : List UInt8 := (s.dropWhile isSpace).rdropWhile isSpace

def Trimmed (s : List UInt8) : Prop :=
  (∀ c ∈ s.head?, isSpace c = false) ∧ ∀ c ∈ s.getLast?, isSpace c = false

instance (s : List UInt8) : Decidable (Trimmed s) :=
  inferInstanceAs (Decidable ((∀ c ∈ s.head?, isSpace c = false) ∧ ∀ c ∈ s.getLast?, isSpace c = false))

theorem dropWhile_of_head (h : ∀ c ∈ s.head?, isSpace c = false) : s.dropWhile isSpace = s := by
  cases s with
  | nil => rfl
  | cons c s => exact List.dropWhile_cons_of_neg (by simp [h c rfl])

theorem trim_cons_space {c : UInt8} (hc : isSpace c = true) : trim (c :: s) = trim s := by
  rw [trim, List.dropWhile_cons_of_pos hc, trim]

theorem trim_eq_self (h : Trimmed s) : trim s = s := by
  rw [trim, dropWhile_of_head h.1, List.rdropWhile_eq_self_iff]
  intro hne
  have hlast := h.2 (s.getLast hne) (List.getLast?_eq_some_getLast hne)
  simp [hlast]

theorem trimmed_trim (s : List UInt8) : Trimmed (trim s) := by
  have hprefix : trim s <+: s.dropWhile isSpace := List.rdropWhile_prefix isSpace _
  constructor
  · intro c hc
    obtain ⟨rest, hrest⟩ := hprefix
    apply head?_dropWhile_of_mem (p := isSpace) (l := s)
    rw [← hrest]
    cases htrim : trim s with
    | nil =>
      rw [htrim] at hc
      cases hc
    | cons d l =>
      rw [htrim] at hc
      exact hc
  · intro c hc
    by_cases hne : trim s = []
    · rw [hne] at hc
      cases hc
    · rw [List.getLast?_eq_some_getLast hne, Option.mem_some_iff] at hc
      have hlast := List.rdropWhile_last_not isSpace (s.dropWhile isSpace) hne
      rw [← hc]
      exact eq_false_of_ne_true hlast

theorem trim_ne_nil {c : UInt8} (hc : c ∈ s) (hspace : isSpace c = false) : trim s ≠ [] := by
  intro hnil
  have hall : ∀ x ∈ s.dropWhile isSpace, isSpace x = true := List.rdropWhile_eq_nil_iff.mp hnil
  have hdrop : s.dropWhile isSpace = [] := by
    cases hs : s.dropWhile isSpace with
    | nil => rfl
    | cons d l =>
      have hd := head?_dropWhile_of_mem (p := isSpace) (l := s) (c := d) (by rw [hs]; rfl)
      rw [hall d (by rw [hs]; exact List.mem_cons_self)] at hd
      cases hd
  rw [List.dropWhile_eq_nil_iff.mp hdrop c hc] at hspace
  cases hspace

/-! ### Splitting at spaces -/

/-- `smartlist_split_string(sl, str, " ", SPLIT_SKIP_SPACE|SPLIT_IGNORE_BLANK, 0)`. -/
def splitSpaces (str : List UInt8) : List (List UInt8) :=
  let cp := str.dropWhile isSpace
  let string := (cp.takeWhile (· ≠ 0x20)).rdropWhile isSpace
  let out := if string ≠ [] then [string] else []
  match _hnext : cp.dropWhile (· ≠ 0x20) with
  | [] => out
  | _ :: next => out ++ splitSpaces next
termination_by str.length
decreasing_by
  have hle := List.length_dropWhile_le isSpace str
  have hle' := List.length_dropWhile_le (fun x : UInt8 => decide (x ≠ 0x20)) (str.dropWhile isSpace)
  rw [_hnext, List.length_cons] at hle'
  omega

/-- The words of a string: what lies between the spaces, trimmed. -/
def words (str : List UInt8) : List (List UInt8) :=
  ((str.splitOn 0x20).map trim).filter (· ≠ [])

theorem words_cons_space {c : UInt8} (hc : isSpace c = true) : words (c :: s) = words s := by
  unfold words
  rw [List.splitOn_cons_eq_if_modifyHead]
  split_ifs
  · rfl
  · cases hsplit : s.splitOn 0x20 with
    | nil => exact absurd hsplit (List.splitOn_ne_nil 0x20 s)
    | cons head tail => rw [List.modifyHead_cons, List.map_cons, List.map_cons, trim_cons_space hc]

theorem words_dropWhile (s : List UInt8) : words (s.dropWhile isSpace) = words s := by
  induction s with
  | nil => rfl
  | cons c s ih =>
    by_cases hc : isSpace c = true
    · rw [List.dropWhile_cons_of_pos hc, ih, words_cons_space hc]
    · rw [List.dropWhile_cons_of_neg hc]

/-- A string that does not start with white space, up to the first space and behind it. -/
theorem words_of_head (h : ∀ c ∈ s.head?, isSpace c = false) :
    words s = [(s.takeWhile (· ≠ 0x20)).rdropWhile isSpace].filter (· ≠ []) ++
      match s.dropWhile (· ≠ 0x20) with
      | [] => []
      | _ :: next => words next := by
  have hpiece : (0x20 : UInt8) ∉ s.takeWhile (· ≠ 0x20) := by
    intro hmem
    simpa using List.mem_takeWhile_imp hmem
  have htrim : trim (s.takeWhile (· ≠ 0x20)) = (s.takeWhile (· ≠ 0x20)).rdropWhile isSpace := by
    have hhead : ∀ c ∈ (s.takeWhile (· ≠ 0x20)).head?, isSpace c = false := by
      intro c hc
      obtain ⟨rest, hrest⟩ := List.takeWhile_prefix (l := s) (fun x : UInt8 => decide (x ≠ 0x20))
      apply h c
      rw [← hrest]
      cases htake : s.takeWhile (· ≠ 0x20) with
      | nil =>
        rw [htake] at hc
        cases hc
      | cons d l =>
        rw [htake] at hc
        exact hc
    rw [trim, dropWhile_of_head hhead]
  have hsplit := List.takeWhile_append_dropWhile (p := fun x : UInt8 => decide (x ≠ 0x20)) (l := s)
  cases hdrop : s.dropWhile (· ≠ 0x20) with
  | nil =>
    rw [hdrop, List.append_nil] at hsplit
    unfold words
    conv_lhs => rw [← hsplit]
    rw [List.splitOn_eq_singleton hpiece, List.map_singleton, htrim, List.append_nil]
  | cons d next =>
    have hd : d = 0x20 := by
      have hhead := head?_dropWhile_of_mem (p := fun x : UInt8 => decide (x ≠ 0x20)) (l := s) (c := d)
        (by rw [hdrop]; rfl)
      simpa using hhead
    rw [hdrop, hd] at hsplit
    unfold words
    conv_lhs => rw [← hsplit]
    rw [List.splitOn_append_cons_self_of_not_mem hpiece, List.map_cons, htrim, ← List.filter_append,
      List.singleton_append]

/-- **The loop** goes through the words. -/
theorem splitSpaces_eq (str : List UInt8) : splitSpaces str = words str := by
  induction hn : str.length using Nat.strong_induction_on generalizing str with
  | _ n ih =>
    have hhead : ∀ c ∈ (str.dropWhile isSpace).head?, isSpace c = false :=
      fun c hc => head?_dropWhile_of_mem hc
    rw [← words_dropWhile str, words_of_head hhead, splitSpaces]
    have hout : ∀ l : List UInt8, (if l ≠ [] then [l] else []) = [l].filter (· ≠ []) := by
      intro l
      by_cases hl : l = []
      · simp [hl]
      · simp [hl]
    rw [hout]
    split
    · next hdrop => rw [hdrop, List.append_nil]
    · next d next hdrop =>
      have hle := List.length_dropWhile_le isSpace str
      have hle' := List.length_dropWhile_le (fun x : UInt8 => decide (x ≠ 0x20)) (str.dropWhile isSpace)
      rw [hdrop, List.length_cons] at hle'
      rw [hdrop, ih next.length (by omega) next rfl]

theorem splitSpaces_join {l : List (List UInt8)} (hne : l ≠ []) (hspace : ∀ w ∈ l, 0x20 ∉ w)
    (hblank : ∀ w ∈ l, trim w ≠ []) : splitSpaces ([0x20].intercalate l) = l.map trim := by
  rw [splitSpaces_eq, words, List.splitOn_intercalate 0x20 hspace hne, List.filter_eq_self]
  intro w hw
  obtain ⟨w', hw', rfl⟩ := List.mem_map.mp hw
  exact decide_eq_true (hblank w' hw')

theorem trimmed_of_mem_splitSpaces {w : List UInt8} (h : w ∈ splitSpaces s) : Trimmed w := by
  rw [splitSpaces_eq] at h
  obtain ⟨hmap, _⟩ := List.mem_filter.mp h
  obtain ⟨w', _, rfl⟩ := List.mem_map.mp hmap
  exact trimmed_trim w'

/-! ### The words of a document -/

/-- Where `find_whitespace` stops. -/
def isTokenEnd (c : UInt8) : Bool :=
  c = 0 || c = 0x23 || c = 0x20 || c = 0x0d || c = 0x0a || c = 0x09

/-- `eat_whitespace`: a comment is skipped up to the end of its line. -/
def eatWhitespace : List UInt8 → List UInt8
  | [] => []
  | c :: s =>
      if c = 0x20 ∨ c = 0x09 ∨ c = 0x0a ∨ c = 0x0d then eatWhitespace s
      else if c = 0x23 then eatWhitespace (s.dropWhile (· ≠ 0x0a))
      else c :: s
termination_by s => s.length
decreasing_by
  · exact Nat.lt_succ_self _
  · exact Nat.lt_succ_of_le (List.length_dropWhile_le _ s)

def maxArgs : ℕ := 512

theorem length_eatWhitespace_le (s : List UInt8) : (eatWhitespace s).length ≤ s.length := by
  induction s using eatWhitespace.induct with
  | case1 => rw [eatWhitespace]
  | case2 c s hc ih =>
    rw [eatWhitespace, if_pos hc, List.length_cons]
    omega
  | case3 s hc ih =>
    have hle := List.length_dropWhile_le (fun x : UInt8 => decide (x ≠ 0x0a)) s
    rw [eatWhitespace, if_neg hc, if_pos rfl, List.length_cons]
    omega
  | case4 c s hc hc' => rw [eatWhitespace, if_neg hc, if_neg hc']

/-- The loop of `get_token_arguments`, from the argument `j` on. -/
def argumentsFrom (cp : List UInt8) (j : ℕ) : Option (List (List UInt8)) :=
  if cp = [] then some []
  else if j = maxArgs then none
  else
    let arg := cp.takeWhile (!isTokenEnd ·)
    match _hrest : cp.dropWhile (!isTokenEnd ·) with
    | [] => some [arg]
    | _ :: rest => (argumentsFrom (eatWhitespace rest) (j + 1)).map (arg :: ·)
termination_by cp.length
decreasing_by
  have hle := List.length_dropWhile_le (fun x => !isTokenEnd x) cp
  have hle' := length_eatWhitespace_le rest
  rw [_hrest, List.length_cons] at hle
  omega

/-- `get_token_arguments`, of the text of a line up to a zero byte. -/
def getTokenArguments (line : List UInt8) : Option (List (List UInt8)) :=
  argumentsFrom (line.takeWhile (· ≠ 0)) 0

theorem plain_of_argumentsFrom {cp : List UInt8} {j : ℕ} {args : List (List UInt8)}
    (h : argumentsFrom cp j = some args) : ∀ w ∈ args, ∀ c ∈ w, isTokenEnd c = false := by
  have harg : ∀ cp : List UInt8, ∀ c ∈ cp.takeWhile (!isTokenEnd ·), isTokenEnd c = false := by
    intro cp c hc
    simpa using List.mem_takeWhile_imp hc
  induction hn : cp.length using Nat.strong_induction_on generalizing cp j args with
  | _ n ih =>
    rw [argumentsFrom] at h
    split_ifs at h with hnil hmax
    · cases h
      simp
    · split at h
      · cases h
        intro w hw
        rw [List.mem_singleton.mp hw]
        exact harg cp
      · next d rest hrest =>
        obtain ⟨args', hargs', rfl⟩ := Option.map_eq_some_iff.mp h
        have hle := List.length_dropWhile_le (fun x => !isTokenEnd x) cp
        have hle' := length_eatWhitespace_le rest
        rw [hrest, List.length_cons] at hle
        refine List.forall_mem_cons.mpr ⟨harg cp, ?_⟩
        exact ih _ (by omega) hargs' rfl

/-- **The words of a document** have no zero byte, space or other byte that ends a word. -/
theorem plain_of_getTokenArguments {line : List UInt8} {args : List (List UInt8)}
    (h : getTokenArguments line = some args) : ∀ w ∈ args, ∀ c ∈ w, isTokenEnd c = false :=
  plain_of_argumentsFrom h

end TorEbpf.Strings
