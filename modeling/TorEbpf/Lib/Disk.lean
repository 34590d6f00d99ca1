import Mathlib

/-!
# Directory trees

A file system without links, as the list of its entries by path, and the calls that change it.

* `walk` — the path a name leads to, as far as the directories on the way exist; it is the one that
  `resolve` reads off the name (`walk_eq_resolve`);
* `mkdirAt`, `appendAt`, `renameAt` — the calls, each with what it leaves alone (`node_mkdirAt_of_ne`,
  `node_appendAt_of_ne`, `renameAt_cases`) and what it makes.
-/

namespace TorEbpf.Lib

abbrev Component := List UInt8

abbrev Path := List Component

inductive Entry where
  | dir
  | file (content : List UInt8)
  deriving DecidableEq, Repr

/-- The entries by path; of two with the same path the first counts. -/
abbrev Disk := List (Path × Entry)

def node : Disk → Path → Option Entry
  | [], _ => none
  | (k, n) :: d, q => if k = q then some n else node d q

/-! ### Names of files -/

def components : List UInt8 → List Component
  | [] => [[]]
  | b :: bs =>
      if b = 0x2f then [] :: components bs
      else
        match components bs with
        | [] => [[b]]
        | c :: cs => (b :: c) :: cs

def dot : Component := [0x2e]

def dotdot : Component := [0x2e, 0x2e]

/-- The path of a name, from a directory on. -/
def resolve : Path → List Component → Path
  | cur, [] => cur
  | cur, c :: cs =>
      if c = [] ∨ c = dot then resolve cur cs
      else if c = dotdot then resolve cur.dropLast cs
      else resolve (cur ++ [c]) cs

/-- Following a name: all components but the last have to be directories. -/
def walk (d : Disk) : Path → List Component → Option Path
  | cur, [] => some cur
  | cur, c :: cs =>
      if c = [] ∨ c = dot then walk d cur cs
      else if c = dotdot then walk d cur.dropLast cs
      else if cs.all (· = []) then some (cur ++ [c])
      else if node d (cur ++ [c]) = some .dir then walk d (cur ++ [c]) cs
      else none

theorem components_of_not_mem {l : List UInt8} (h : 0x2f ∉ l) : components l = [l] := by
  induction l with
  | nil => rfl
  | cons b bs ih =>
    rw [List.mem_cons, not_or] at h
    rw [components, if_neg (Ne.symm h.1), ih h.2]

theorem resolve_of_all_nil {cs : List Component} (h : cs.all (· = []) = true) (cur : Path) :
    resolve cur cs = cur := by
  induction cs with
  | nil => rfl
  | cons c cs ih =>
    rw [List.all_cons, Bool.and_eq_true, decide_eq_true_eq] at h
    rw [resolve, if_pos (.inl h.1), ih h.2]

/-- **A name that can be followed leads where `resolve` says.** -/
theorem walk_eq_resolve {d : Disk} (cs : List Component) :
    ∀ {cur q}, walk d cur cs = some q → q = resolve cur cs := by
  induction cs with
  | nil =>
    intro cur q h
    exact (Option.some.inj h).symm
  | cons c cs ih =>
    intro cur q h
    rw [walk] at h
    rw [resolve]
    split_ifs at h ⊢ with h₁ h₂ h₃ h₄
    · exact ih h
    · exact ih h
    · rw [resolve_of_all_nil h₃]
      exact (Option.some.inj h).symm
    · exact ih h

theorem resolve_append (cs cs' : List Component) :
    ∀ cur, resolve cur (cs ++ cs') = resolve (resolve cur cs) cs' := by
  induction cs with
  | nil =>
    intro cur
    rfl
  | cons c cs ih =>
    intro cur
    rw [List.cons_append, resolve, resolve]
    split_ifs
    · exact ih _
    · exact ih _
    · exact ih _

/-- To a file in a directory leads only a name that leads to the directory. -/
theorem walk_of_walk_append {d : Disk} {c' : Component} (hc' : c' ≠ []) (cs : List Component) :
    ∀ {cur q}, walk d cur (cs ++ [c']) = some q → ∃ q', walk d cur cs = some q' := by
  induction cs with
  | nil =>
    intro cur q _
    exact ⟨cur, rfl⟩
  | cons c cs ih =>
    intro cur q h
    rw [List.cons_append, walk] at h
    rw [walk]
    have hlast : ¬(cs ++ [c']).all (· = []) = true := by
      simp [hc']
    split_ifs at h ⊢
    · exact ih h
    · exact ih h
    · exact ⟨_, rfl⟩
    · exact ih h

theorem length_resolve_singleton (cur : Path) (c : Component) :
    (resolve cur [c]).length ≤ cur.length ∨ resolve cur [c] = cur ++ [c] := by
  rw [resolve]
  split_ifs
  · exact .inl le_rfl
  · refine .inl ?_
    rw [resolve, List.length_dropLast]
    omega
  · exact .inr rfl

theorem walk_singleton (d : Disk) (cur : Path) (c : Component) : walk d cur [c] = some (resolve cur [c]) := by
  rw [walk, resolve]
  simp only [List.all_nil, if_true]
  split_ifs
  · rfl
  · rfl
  · rfl

/-- To a file in a directory leads its name, or the directory is not there. -/
theorem walk_file (d : Disk) (cur : Path) (c : Component) {f : Component} (hf : f ≠ [] ∧ f ≠ dot ∧ f ≠ dotdot) :
    walk d cur [c, f] = some (resolve cur [c] ++ [f]) ∨
      walk d cur [c, f] = none ∧ node d (resolve cur [c]) ≠ some .dir := by
  have hlast : ∀ q, walk d q [f] = some (q ++ [f]) := by
    intro q
    rw [walk_singleton, resolve, if_neg (not_or.mpr ⟨hf.1, hf.2.1⟩), if_neg hf.2.2]
    rfl
  have hmore : ¬[f].all (· = []) = true := by simp [hf.1]
  rw [walk, resolve]
  split_ifs with h₁ h₂ h₃
  · exact .inl (hlast cur)
  · exact .inl (hlast _)
  · exact .inl (hlast _)
  · exact .inr ⟨rfl, h₃⟩

/-! ### The calls -/

/-- `mkdir`: the directory is new and empty. -/
def mkdirAt (d : Disk) (q : Path) : Disk :=
  if (d.all fun e => !q.isPrefixOf e.1) ∧ node d q.dropLast = some .dir then (q, .dir) :: d else d

/-- `fopen` to append, and `fwrite`. -/
def appendAt (d : Disk) (q : Path) (data : List UInt8) : Option Disk :=
  if node d q.dropLast = some .dir then
    match node d q with
    | some (.file content) => some ((q, .file (content ++ data)) :: d)
    | some .dir => none
    | none => some ((q, .file data) :: d)
  else none

/-- `fopen` to read, and `fread`. -/
def readAt (d : Disk) (q : Path) : Option (List UInt8) :=
  if node d q.dropLast = some .dir then
    match node d q with
    | some (.file content) => some content
    | _ => none
  else none

/-- What a directory can be renamed to: nothing, or an empty directory, in a directory. -/
def free (d : Disk) (q : Path) : Bool :=
  node d q.dropLast = some .dir && (node d q = none || node d q = some .dir) &&
    d.all fun e => !q.isPrefixOf e.1 || e.1 = q

def relabel (src dst : Path) (e : Path × Entry) : Path × Entry := (dst ++ e.1.drop src.length, e.2)

/-- `rename` of a directory, with all that is in it; not into itself. -/
def renameAt (d : Disk) (src dst : Path) : Disk :=
  if node d src = some .dir ∧ src.isPrefixOf dst = false ∧ free d dst = true then
    (d.filter fun e => src.isPrefixOf e.1).map (relabel src dst) ++
      d.filter fun e => !src.isPrefixOf e.1 && !dst.isPrefixOf e.1
  else d

/-! ### What they do -/

theorem exists_mem_of_node {d : Disk} {q : Path} {n : Entry} (h : node d q = some n) :
    (q, n) ∈ d := by
  induction d with
  | nil => cases h
  | cons x d ih =>
    rw [node] at h
    split_ifs at h with hx
    · cases h
      exact List.mem_cons.mpr (.inl (by rw [← hx]))
    · exact List.mem_cons_of_mem x (ih h)

theorem node_append (d d' : Disk) (q : Path) : node (d ++ d') q = (node d q).or (node d' q) := by
  induction d with
  | nil => rfl
  | cons x d ih =>
    rw [List.cons_append, node, node]
    split_ifs
    · rfl
    · exact ih

theorem node_filter (P : Path → Bool) (d : Disk) (q : Path) :
    node (d.filter fun e => P e.1) q = if P q then node d q else none := by
  induction d with
  | nil => simp [node]
  | cons x d ih =>
    obtain ⟨k, n⟩ := x
    by_cases hk : k = q
    · subst hk
      cases hP : P k with
      | true => simp only [List.filter_cons, hP, if_true, node]
      | false => simp only [List.filter_cons, hP, Bool.false_eq_true, if_false, ih]
    · rw [node, if_neg hk, ← ih]
      cases hP : P k with
      | true => simp only [List.filter_cons, hP, if_true, node, hk, if_false]
      | false => simp only [List.filter_cons, hP, Bool.false_eq_true, if_false]

theorem node_map_relabel (src dst r : Path) (d : Disk) :
    node ((d.filter fun e => src.isPrefixOf e.1).map (relabel src dst)) (dst ++ r) =
      node d (src ++ r) := by
  induction d with
  | nil => rfl
  | cons x d ih =>
    obtain ⟨k, n⟩ := x
    by_cases hk : src.isPrefixOf k = true
    · obtain ⟨t, rfl⟩ := List.isPrefixOf_iff_prefix.mp hk
      simp only [List.filter_cons, hk, if_true, List.map_cons, relabel, node, ih, List.drop_left,
        List.append_cancel_left_eq]
    · have hne : k ≠ src ++ r := by
        rintro rfl
        exact hk (List.isPrefixOf_iff_prefix.mpr (List.prefix_append src r))
      simp only [List.filter_cons, hk, Bool.false_eq_true, if_false, ih, node, hne]

theorem node_map_relabel_of_not {src dst q : Path} (h : ¬dst <+: q) (d : Disk) :
    node (d.map (relabel src dst)) q = none := by
  induction d with
  | nil => rfl
  | cons x d ih =>
    have hne : (relabel src dst x).1 ≠ q := by
      rintro rfl
      exact h (List.prefix_append dst _)
    rw [List.map_cons, node, if_neg hne, ih]

/-- **`mkdir`** leaves every other path alone. -/
theorem node_mkdirAt_of_ne {d : Disk} {m q : Path} (h : q ≠ m) :
    node (mkdirAt d m) q = node d q := by
  rw [mkdirAt]
  split_ifs
  · rw [node, if_neg (Ne.symm h)]
  · rfl

/-- It does nothing, or there was nothing at the path or below. -/
theorem mkdirAt_cases (d : Disk) (m : Path) :
    mkdirAt d m = d ∨ ((∀ r, node d (m ++ r) = none) ∧ node (mkdirAt d m) m = some .dir) := by
  rw [mkdirAt]
  split_ifs with h
  · refine .inr ⟨?_, ?_⟩
    · intro r
      cases hr : node d (m ++ r) with
      | none => rfl
      | some n =>
        have hmem := List.all_eq_true.mp h.1 _ (exists_mem_of_node hr)
        rw [Bool.not_eq_true', ← Bool.not_eq_true] at hmem
        exact absurd (List.isPrefixOf_iff_prefix.mpr (List.prefix_append m r)) hmem
    · rw [node, if_pos rfl]
  · exact .inl rfl

/-- **Appending**: the path is no directory and lies in one, and its file grows. -/
theorem appendAt_cases {d d' : Disk} {f : Path} {data : List UInt8}
    (h : appendAt d f data = some d') :
    node d f.dropLast = some .dir ∧
      ∃ content, (node d f = some (.file content) ∨ node d f = none ∧ content = []) ∧
        d' = (f, .file (content ++ data)) :: d := by
  unfold appendAt at h
  split_ifs at h with hdir
  refine ⟨hdir, ?_⟩
  split at h
  · next content hf => exact ⟨content, .inl hf, (Option.some.inj h).symm⟩
  · cases h
  · next hf => exact ⟨[], .inr ⟨hf, rfl⟩, (Option.some.inj h).symm⟩

theorem exists_appendAt_iff {d : Disk} {q : Path} {data : List UInt8} :
    (∃ d', appendAt d q data = some d') ↔ node d q.dropLast = some .dir ∧ node d q ≠ some .dir := by
  unfold appendAt
  split_ifs with hdir
  · split
    · next hq => simp [hdir, hq]
    · next hq => simp [hq]
    · next hq => simp [hdir, hq]
  · simp [hdir]

theorem node_appendAt_of_ne {d d' : Disk} {f q : Path} {data : List UInt8}
    (h : appendAt d f data = some d') (hne : q ≠ f) : node d' q = node d q := by
  obtain ⟨_, content, _, rfl⟩ := appendAt_cases h
  rw [node, if_neg (Ne.symm hne)]

theorem node_appendAt_eq_dir {d d' : Disk} {f q : Path} {data : List UInt8}
    (h : appendAt d f data = some d') : node d' q = some .dir ↔ node d q = some .dir := by
  by_cases hq : q = f
  · subst hq
    obtain ⟨_, content, hf, rfl⟩ := appendAt_cases h
    rw [node, if_pos rfl]
    rcases hf with hf | ⟨hf, _⟩ <;> simp [hf]
  · rw [node_appendAt_of_ne h hq]

theorem prefix_of_appendAt {d d' : Disk} {f q : Path} {data content pre : List UInt8}
    (h : appendAt d f data = some d') (hq : node d q = some (.file content))
    (hpre : pre <+: content) : ∃ content', node d' q = some (.file content') ∧ pre <+: content' := by
  by_cases hne : q = f
  · subst hne
    obtain ⟨_, c, hf, rfl⟩ := appendAt_cases h
    rcases hf with hf | ⟨hf, _⟩
    · rw [hf] at hq
      cases hq
      exact ⟨content ++ data, by rw [node, if_pos rfl], hpre.trans (List.prefix_append _ _)⟩
    · rw [hf] at hq
      cases hq
  · exact ⟨content, by rw [node_appendAt_of_ne h hne, hq], hpre⟩

theorem readAt_cases {d : Disk} {q : Path} {content : List UInt8}
    (h : readAt d q = some content) :
    node d q.dropLast = some .dir ∧ node d q = some (.file content) := by
  unfold readAt at h
  split_ifs at h with hdir
  refine ⟨hdir, ?_⟩
  split at h
  · next c hq => rw [hq, Option.some.inj h]
  · cases h

theorem not_free_of_below {d : Disk} {q r : Path} {n : Entry} (hr : r ≠ [])
    (h : node d (q ++ r) = some n) : free d q = false := by
  rw [← Bool.not_eq_true, free, Bool.and_eq_true, not_and]
  intro _ hall
  have hmem := List.all_eq_true.mp hall _ (exists_mem_of_node h)
  rw [Bool.or_eq_true, Bool.not_eq_true', decide_eq_true_eq] at hmem
  rcases hmem with hmem | hmem
  · rw [← Bool.not_eq_true] at hmem
    exact hmem (List.isPrefixOf_iff_prefix.mpr (List.prefix_append q r))
  · exact hr (List.append_right_eq_self.mp hmem)

theorem not_free_of_file {d : Disk} {q : Path} {content : List UInt8}
    (h : node d q = some (.file content)) : free d q = false := by
  simp [free, h]

/-- **`rename`** does nothing, or the target is free and the source moves there with all that is below
it; other paths stay. -/
theorem renameAt_cases (d : Disk) (src dst : Path) :
    renameAt d src dst = d ∨
      (free d dst = true ∧ (∀ r, node (renameAt d src dst) (dst ++ r) = node d (src ++ r)) ∧
        (∀ q, src <+: q → ¬dst <+: q → node (renameAt d src dst) q = none) ∧
        ∀ q, ¬src <+: q → ¬dst <+: q → node (renameAt d src dst) q = node d q) := by
  rw [renameAt]
  split_ifs with h
  · have hrest := node_filter (fun k => !src.isPrefixOf k && !dst.isPrefixOf k) d
    have hnot : ∀ {p q : Path}, ¬p <+: q → p.isPrefixOf q = false := by
      intro p q hpq
      rw [← Bool.not_eq_true, List.isPrefixOf_iff_prefix]
      exact hpq
    refine .inr ⟨h.2.2, ?_, ?_, ?_⟩
    · intro r
      have hpre : dst.isPrefixOf (dst ++ r) = true :=
        List.isPrefixOf_iff_prefix.mpr (List.prefix_append dst r)
      rw [node_append, node_map_relabel, hrest, hpre, Bool.not_true, Bool.and_false,
        if_neg Bool.false_ne_true, Option.or_none]
    · intro q hsrc hdst
      rw [node_append, node_map_relabel_of_not hdst, hrest, List.isPrefixOf_iff_prefix.mpr hsrc,
        Bool.not_true, Bool.false_and, if_neg Bool.false_ne_true]
      rfl
    · intro q hsrc hdst
      rw [node_append, node_map_relabel_of_not hdst, hrest, hnot hsrc, hnot hdst]
      rfl
  · exact .inl rfl

end TorEbpf.Lib
