import TorEbpf.Container.Bsearch
import TorEbpf.Lib.Ring
import TorEbpf.Lib.Sorting

/-!
# The directories responsible for an onion service

`hs_get_responsible_hsdirs` sorts the hidden service directories by an index, and for each replica goes around
the ring they form from the position of the replica, to choose the first directories that no earlier replica
has chosen.

* `start_rotate` — the binary search finds the place on the ring from which to go clockwise;
* `selectLoop_eq` — the loop of a replica chooses the first ones, once around the ring at most;
* `responsible_fetch_subset_store` — a client that looks at fewer directories looks at none to which the
  service does not publish.
-/

namespace TorEbpf.Hs

open TorEbpf.Container TorEbpf.Lib

/-! ### The function -/

/-- `hsdir_index_t`: digests of 32 bytes. -/
structure HsdirDigests where
  fetch : List UInt8
  storeFirst : List UInt8
  storeSecond : List UInt8
  deriving DecidableEq, Repr

/-- A routerstatus of the consensus with its node: where it is stored, and what is said about it. -/
structure HsNode where
  rs : ℕ
  supportsV3Hsdir : Bool
  isHsDir : Bool
  hsdirIndex : Option HsdirDigests
  deriving DecidableEq, Repr

/-- The parameters of a call: what it is for, and `use_second_hsdir_index`. -/
structure Purpose where
  forFetching : Bool
  useSecondHsdirIndex : Bool
  deriving DecidableEq, Repr

def Purpose.index (p : Purpose) (n : HsNode) : List UInt8 :=
  match n.hsdirIndex with
  | none => []
  | some index =>
    if p.forFetching then index.fetch
    else if p.useSecondHsdirIndex then index.storeSecond
    else index.storeFirst

/-- `compare_node_fetch_hsdir_index` and its siblings. -/
def Purpose.compareNodes (p : Purpose) : HsNode → HsNode → Ordering := cmpOn p.index bytesCmp

/-- `memcmp` of a digest and the index of a node: `compare_digest_to_fetch_hsdir_index` and its siblings. -/
def Purpose.compareDigest (p : Purpose) (hsIndex : List UInt8) (n : HsNode) : ℤ :=
  match bytesCmp hsIndex (p.index n) with
  | .lt => -1
  | .eq => 0
  | .gt => 1

/-- The nodes that are considered. -/
def usable (n : HsNode) : Bool := n.supportsV3Hsdir && n.isHsDir && n.hsdirIndex.isSome

/-- The loop for a replica, for at most as many rounds as `fuel` says; there is no result if it reads outside
of `sorted`. -/
def selectLoop (sorted : List HsNode) (start nToAdd : ℕ) : ℕ → ℕ → ℕ → List ℕ → Option (List ℕ)
  | 0, _, _, _ => none
  | fuel + 1, idx, nAdded, dirs =>
    if nAdded < nToAdd then
      match sorted[idx]? with
      | none => none
      | some node =>
        let new := !dirs.contains node.rs
        let dirs := if new then dirs ++ [node.rs] else dirs
        let nAdded := if new then nAdded + 1 else nAdded
        let idx := if idx + 1 = sorted.length then 0 else idx + 1
        if idx = start then some dirs else selectLoop sorted start nToAdd fuel idx nAdded dirs
    else some dirs

def startIdx (p : Purpose) (sorted : List HsNode) (hsIndex : List UInt8) : ℕ :=
  let idx := (smartlistBsearchIdx (p.compareDigest hsIndex) sorted).1
  if idx = sorted.length then 0 else idx

/-- `hs_get_responsible_hsdirs`, with the routerstatuses of the consensus, the sort, the positions of the
replicas and the number of directories for each. -/
def hsGetResponsibleHsdirs (p : Purpose) (sorter : Sorter p.compareNodes) (nodes : List HsNode)
    (hsIndices : List (List UInt8)) (nToAdd : ℕ) : Option (List ℕ) :=
  let sorted := sorter.sort (nodes.filter usable)
  if sorted.length = 0 then some []
  else
    hsIndices.foldlM (fun dirs hsIndex =>
      let start := startIdx p sorted hsIndex
      selectLoop sorted start nToAdd (sorted.length + 1) start 0 dirs) []

/-! ### Once around the ring -/

section Loop

variable {sorted : List HsNode} {start nToAdd : ℕ}

theorem getElem?_around (start : ℕ) {j : ℕ} (hj : j < sorted.length) :
    ∃ node, sorted[(start + j) % sorted.length]? = some node ∧
      (sorted.rotate start).drop j = node :: (sorted.rotate start).drop (j + 1) := by
  have hlt : (j + start) % sorted.length < sorted.length := Nat.mod_lt _ (by omega)
  have hj' : j < (sorted.rotate start).length := by rwa [List.length_rotate]
  refine ⟨sorted[(j + start) % sorted.length], ?_, ?_⟩
  · rw [Nat.add_comm start j]
    exact List.getElem?_eq_getElem hlt
  · rw [List.drop_eq_getElem_cons hj', List.getElem_rotate]

/-- The step to the next place, and back from the last one to the first. -/
theorem next_around (hstart : start < sorted.length) (j : ℕ) :
    (if (start + j) % sorted.length + 1 = sorted.length then 0 else (start + j) % sorted.length + 1) =
      (start + (j + 1)) % sorted.length := by
  have hpos : 0 < sorted.length := by omega
  have hlt : (start + j) % sorted.length < sorted.length := Nat.mod_lt _ hpos
  have hstep : (start + (j + 1)) % sorted.length = ((start + j) % sorted.length + 1) % sorted.length := by
    rw [Nat.mod_add_mod, Nat.add_assoc]
  rw [hstep]
  split_ifs with hlast
  · rw [hlast, Nat.mod_self]
  · exact (Nat.mod_eq_of_lt (by omega)).symm

/-- The start is reached again when all nodes have been passed. -/
theorem around_eq_start_iff (hstart : start < sorted.length) {j : ℕ} (hj : j < sorted.length) :
    (start + (j + 1)) % sorted.length = start ↔ j + 1 = sorted.length := by
  constructor
  · intro hback
    rcases Nat.lt_or_ge (start + (j + 1)) sorted.length with hlt | hge
    · rw [Nat.mod_eq_of_lt hlt] at hback
      omega
    · rw [Nat.mod_eq_sub_mod hge, Nat.mod_eq_of_lt (by omega)] at hback
      omega
  · intro hall
    rw [hall, Nat.add_mod_right, Nat.mod_eq_of_lt hstart]

/-- The loop at its `j`-th step: `nAdded` nodes have been added, and it takes new ones of those still ahead. -/
theorem selectLoop_drop (hstart : start < sorted.length) (hnodup : ((sorted.rotate start).map HsNode.rs).Nodup)
    {fuel j nAdded : ℕ} {dirs : List ℕ} (hj : j < sorted.length) (hfuel : sorted.length - j ≤ fuel)
    (hadded : nAdded ≤ nToAdd) :
    selectLoop sorted start nToAdd fuel ((start + j) % sorted.length) nAdded dirs =
      some (dirs ++ takeNew (nToAdd - nAdded) dirs (((sorted.rotate start).drop j).map HsNode.rs)) := by
  induction fuel generalizing j nAdded dirs with
  | zero => omega
  | succ fuel ih =>
    rw [selectLoop]
    by_cases hmore : nAdded < nToAdd
    · obtain ⟨node, hnode, hdrop⟩ := getElem?_around start hj
      obtain ⟨k, hk⟩ : ∃ k, nToAdd - nAdded = k + 1 := ⟨nToAdd - nAdded - 1, by omega⟩
      -- the nodes ahead of this one are other nodes
      have hahead : node.rs ∉ ((sorted.rotate start).drop (j + 1)).map HsNode.rs := by
        have hsub := hnodup.sublist ((List.drop_sublist j (sorted.rotate start)).map HsNode.rs)
        rw [hdrop, List.map_cons] at hsub
        exact (List.nodup_cons.mp hsub).1
      simp only [if_pos hmore, hnode, next_around hstart, around_eq_start_iff hstart hj, hdrop, List.map_cons,
        hk]
      have hend : j + 1 = sorted.length → (sorted.rotate start).drop (j + 1) = [] := fun hall =>
        List.drop_eq_nil_of_le (by rw [List.length_rotate]; omega)
      by_cases hin : node.rs ∈ dirs
      · rw [takeNew_cons_of_mem hin]
        simp only [List.contains_eq_mem, hin, decide_true, Bool.not_true, Bool.false_eq_true, if_false]
        split_ifs with hall
        · simp [hend hall, takeNew]
        · rw [ih (by omega) (by omega) hadded, hk]
      · rw [takeNew_cons_of_not_mem hin hahead]
        simp only [List.contains_eq_mem, hin, decide_false, Bool.not_false, if_true]
        split_ifs with hall
        · simp [hend hall, takeNew]
        · rw [ih (by omega) (by omega) hmore, show nToAdd - (nAdded + 1) = k by omega, List.append_assoc,
            List.singleton_append]
    · rw [if_neg hmore, show nToAdd - nAdded = 0 by omega]
      simp [takeNew]

/-- **The loop of a replica** takes the first nodes from the start on that have not been chosen. -/
theorem selectLoop_eq (hstart : start < sorted.length) (hnodup : (sorted.map HsNode.rs).Nodup)
    (dirs : List ℕ) :
    selectLoop sorted start nToAdd (sorted.length + 1) start 0 dirs =
      some (dirs ++ takeNew nToAdd dirs ((sorted.rotate start).map HsNode.rs)) := by
  have hrotate : ((sorted.rotate start).map HsNode.rs).Nodup :=
    (((List.rotate_perm sorted start).map HsNode.rs).nodup_iff).mpr hnodup
  have hpos : 0 < sorted.length := by omega
  have hfuel : sorted.length - 0 ≤ sorted.length + 1 := by omega
  have hloop : selectLoop sorted start nToAdd (sorted.length + 1) ((start + 0) % sorted.length) 0 dirs =
      some (dirs ++ takeNew (nToAdd - 0) dirs (((sorted.rotate start).drop 0).map HsNode.rs)) :=
    selectLoop_drop hstart hrotate hpos hfuel (Nat.zero_le _)
  rwa [Nat.add_zero start, Nat.mod_eq_of_lt hstart, List.drop_zero, Nat.sub_zero] at hloop

end Loop

/-! ### Where a replica starts -/

section Start

variable {p : Purpose}

/-- The node stands before the position of the replica on the ring. -/
def Purpose.behind (p : Purpose) (hsIndex : List UInt8) (n : HsNode) : Bool :=
    bytesCmp hsIndex (p.index n) = .gt

/-- The nodes in the order of their indices, which are different. -/
def InOrder (p : Purpose) (l : List HsNode) : Prop := l.Pairwise fun a b => bytesCmp (p.index a) (p.index b) =
    .lt

theorem compareDigest_pos_iff (hsIndex : List UInt8) (n : HsNode) :
    0 < p.compareDigest hsIndex n ↔ bytesCmp hsIndex (p.index n) = .gt := by
  unfold Purpose.compareDigest
  cases bytesCmp hsIndex (p.index n) <;> decide

theorem compareDigest_neg_iff (hsIndex : List UInt8) (n : HsNode) :
    p.compareDigest hsIndex n < 0 ↔ bytesCmp hsIndex (p.index n) = .lt := by
  unfold Purpose.compareDigest
  cases bytesCmp hsIndex (p.index n) <;> decide

theorem compareDigest_eq_zero_iff (hsIndex : List UInt8) (n : HsNode) :
    p.compareDigest hsIndex n = 0 ↔ bytesCmp hsIndex (p.index n) = .eq := by
  unfold Purpose.compareDigest
  cases bytesCmp hsIndex (p.index n) <;> decide

/-- What is at or before a node is before the nodes behind it. -/
theorem lt_of_inOrder (hsIndex : List UInt8) {a b : List UInt8} (hab : bytesCmp a b = .lt) :
    (bytesCmp hsIndex a ≠ .gt → bytesCmp hsIndex b = .lt) ∧ (bytesCmp hsIndex b ≠ .lt → bytesCmp hsIndex a =
      .gt) := by
  constructor
  · intro hle
    refine Std.TransCmp.lt_of_isLE_of_lt ?_ hab
    revert hle
    cases bytesCmp hsIndex a <;> simp
  · intro hge
    have hle : (bytesCmp b hsIndex).isLE = true := by
      rw [@Std.OrientedCmp.eq_swap _ bytesCmp _ _ _]
      revert hge
      cases bytesCmp hsIndex b <;> simp
    have hlt := Std.TransCmp.lt_of_lt_of_isLE hab hle
    rw [@Std.OrientedCmp.eq_swap _ bytesCmp _ _ _, hlt]
    rfl

theorem InOrder.orderedFor {l : List HsNode} (h : InOrder p l) (hsIndex : List UInt8) :
    OrderedFor (p.compareDigest hsIndex) l := by
  refine h.imp fun {a b} hab => ?_
  obtain ⟨hbelow, habove⟩ := lt_of_inOrder hsIndex hab
  constructor
  · intro hle
    refine (compareDigest_neg_iff hsIndex b).mpr (hbelow fun hgt => ?_)
    have := (compareDigest_pos_iff hsIndex a).mpr hgt
    omega
  · intro hge
    refine (compareDigest_pos_iff hsIndex a).mpr (habove fun hlt => ?_)
    have := (compareDigest_neg_iff hsIndex b).mpr hlt
    omega

/-- The search finds the first node that is not behind the position. -/
theorem bsearch_splits {l : List HsNode} (h : InOrder p l) (hsIndex : List UInt8) :
    (smartlistBsearchIdx (p.compareDigest hsIndex) l).1 ≤ l.length ∧
      (∀ n ∈ l.take (smartlistBsearchIdx (p.compareDigest hsIndex) l).1, p.behind hsIndex n = true) ∧
      ∀ n ∈ l.drop (smartlistBsearchIdx (p.compareDigest hsIndex) l).1, p.behind hsIndex n = false := by
  have hlocated := smartlistBsearchIdx_located_of_ordered (h.orderedFor hsIndex)
  generalize smartlistBsearchIdx (p.compareDigest hsIndex) l = r at hlocated ⊢
  rcases hlocated with ⟨-, x, hx, hzero⟩ | ⟨-, hbelow, habove, hlen⟩
  · obtain ⟨hlt, rfl⟩ := List.getElem?_eq_some_iff.mp hx
    have heq := (compareDigest_eq_zero_iff hsIndex _).mp hzero
    have horder := List.pairwise_iff_getElem.mp h
    refine ⟨hlt.le, ?_, ?_⟩
    · intro n hn
      obtain ⟨i, hi, rfl⟩ := List.getElem_of_mem hn
      rw [List.length_take] at hi
      rw [List.getElem_take]
      have hbefore := (lt_of_inOrder hsIndex (horder i r.1 (by omega) hlt (by omega))).2
      simp [Purpose.behind, hbefore (by rw [heq]; decide)]
    · intro n hn
      obtain ⟨i, hi, rfl⟩ := List.getElem_of_mem hn
      rw [List.length_drop] at hi
      rw [List.getElem_drop]
      cases i with
      | zero => simp [Purpose.behind, heq]
      | succ i =>
        have hbehind := (lt_of_inOrder hsIndex (horder r.1 (r.1 + (i + 1)) hlt (by omega) (by omega))).1
        simp [Purpose.behind, hbehind (by rw [heq]; decide)]
  · refine ⟨hlen, ?_, ?_⟩
    · intro n hn
      obtain ⟨i, hi, rfl⟩ := List.getElem_of_mem hn
      rw [List.length_take] at hi
      rw [List.getElem_take]
      have hpos := hbelow i _ (List.getElem?_eq_getElem (by omega)) (by omega)
      simp [Purpose.behind, (compareDigest_pos_iff hsIndex _).mp hpos]
    · intro n hn
      obtain ⟨i, hi, rfl⟩ := List.getElem_of_mem hn
      rw [List.length_drop] at hi
      rw [List.getElem_drop]
      have hneg := habove (r.1 + i) _ (List.getElem?_eq_getElem (by omega)) (by omega)
      simp [Purpose.behind, (compareDigest_neg_iff hsIndex _).mp hneg]

theorem startIdx_lt {l : List HsNode} (h : InOrder p l) (hne : l ≠ []) (hsIndex : List UInt8) :
    startIdx p l hsIndex < l.length := by
  have hlen := (bsearch_splits h hsIndex).1
  have hpos := List.length_pos_iff.mpr hne
  unfold startIdx
  dsimp only
  split_ifs <;> omega

/-- **The start**: from there on the ring goes clockwise from the position of the replica. -/
theorem start_rotate {l : List HsNode} (h : InOrder p l) (hsIndex : List UInt8) :
    l.rotate (startIdx p l hsIndex) = clockwise (p.behind hsIndex) l := by
  obtain ⟨hlen, hbelow, habove⟩ := bsearch_splits h hsIndex
  rw [← rotate_eq_clockwise hlen hbelow habove, startIdx]
  split_ifs with hend
  · rw [hend, List.rotate_zero, List.rotate_length]
  · rfl

end Start

/-! ### All replicas -/

section Replicas

variable {p q : Purpose} {sorter : Sorter p.compareNodes} {sorter' : Sorter q.compareNodes}
  {nodes : List HsNode}

/-- The directories are different, and so are their indices. -/
structure Distinct (p : Purpose) (nodes : List HsNode) : Prop where
  identities : ((nodes.filter usable).map HsNode.rs).Nodup
  indices : ((nodes.filter usable).map p.index).Nodup

instance : Std.TransCmp p.compareNodes := inferInstanceAs (Std.TransCmp (cmpOn p.index bytesCmp))

theorem Distinct.inOrder (h : Distinct p nodes) (sorter : Sorter p.compareNodes) :
    InOrder p (sorter.sort (nodes.filter usable)) := by
  have hsorted := sorter.sorted (nodes.filter usable) (consistentOn_of_transCmp p.compareNodes _)
  have hne : ((sorter.sort (nodes.filter usable)).map p.index).Nodup :=
    (((sorter.perm (nodes.filter usable)).map p.index).nodup_iff).mpr h.indices
  refine (hsorted.and (List.pairwise_map.mp hne)).imp fun {a b} hab => ?_
  obtain ⟨hle, hdiff⟩ := hab
  rw [Purpose.compareNodes, cmpOn] at hle
  cases hcmp : bytesCmp (p.index a) (p.index b) with
  | lt => rfl
  | eq => exact absurd (Std.LawfulEqCmp.eq_of_compare hcmp) hdiff
  | gt => simp [hcmp] at hle

theorem Distinct.nodup_sort (h : Distinct p nodes) (sorter : Sorter p.compareNodes) :
    ((sorter.sort (nodes.filter usable)).map HsNode.rs).Nodup :=
  (((sorter.perm (nodes.filter usable)).map HsNode.rs).nodup_iff).mpr h.identities

/-- The directories clockwise from the position of a replica. -/
def ringFrom (p : Purpose) (sorter : Sorter p.compareNodes) (nodes : List HsNode)
    (hsIndex : List UInt8) : List ℕ :=
  (clockwise (p.behind hsIndex) (sorter.sort (nodes.filter usable))).map HsNode.rs

theorem ringFrom_perm (hsIndex : List UInt8) :
    (ringFrom p sorter nodes hsIndex).Perm ((nodes.filter usable).map HsNode.rs) :=
  ((clockwise_perm _ _).trans (sorter.perm _)).map HsNode.rs

/-- **The list that is built**: each replica takes the first directories, clockwise from its position, that no
earlier one has taken. -/
theorem hsGetResponsibleHsdirs_eq (h : Distinct p nodes) (hsIndices : List (List UInt8)) (nToAdd : ℕ) :
    hsGetResponsibleHsdirs p sorter nodes hsIndices nToAdd =
      some (chooseRounds nToAdd [] (hsIndices.map (ringFrom p sorter nodes))) := by
  have horder := h.inOrder sorter
  have hnodup := h.nodup_sort sorter
  rw [hsGetResponsibleHsdirs]
  dsimp only
  split_ifs with hlen
  · -- no directories, and nothing to choose from
    have hnil := List.length_eq_zero_iff.mp hlen
    have hempty : ∀ hsIndex, ringFrom p sorter nodes hsIndex = [] := fun hsIndex => by
      rw [ringFrom, hnil]
      rfl
    have hnothing : ∀ l : List (List UInt8), chooseRounds nToAdd [] (l.map (ringFrom p sorter nodes)) = [] := by
      intro l
      induction l with
      | nil => rfl
      | cons hsIndex l ih =>
        rw [List.map_cons, hempty, chooseRounds, List.foldl_cons, takeNew_nil]
        exact ih
    rw [hnothing]
  · have hne : sorter.sort (nodes.filter usable) ≠ [] := fun hnil => hlen (by rw [hnil]; rfl)
    generalize [] = dirs
    induction hsIndices generalizing dirs with
    | nil => rfl
    | cons hsIndex hsIndices ih =>
      rw [List.foldlM_cons, selectLoop_eq (startIdx_lt horder hne hsIndex) hnodup, start_rotate horder]
      exact ih _

/-- What a replica contributes, when the replicas in `pre` have come before. -/
def TakesFirst (p : Purpose) (sorter : Sorter p.compareNodes) (nodes : List HsNode) (nToAdd : ℕ)
    (pre : List (List UInt8)) (hsIndex : List UInt8) (dirs : List ℕ) : Prop :=
  ∃ chosen new, hsGetResponsibleHsdirs p sorter nodes pre nToAdd = some chosen ∧
    hsGetResponsibleHsdirs p sorter nodes (pre ++ [hsIndex]) nToAdd = some (chosen ++ new) ∧
    chosen ++ new <+: dirs ∧
    new = ((ringFrom p sorter nodes hsIndex).filter (· ∉ chosen)).take nToAdd ∧
    new.length = min nToAdd (((nodes.filter usable).map HsNode.rs).countP (· ∉ chosen))

theorem takesFirst (h : Distinct p nodes) {hsIndices pre post : List (List UInt8)} {hsIndex : List UInt8}
    (hsplit : hsIndices = pre ++ hsIndex :: post) (nToAdd : ℕ) :
    TakesFirst p sorter nodes nToAdd pre hsIndex
      (chooseRounds nToAdd [] (hsIndices.map (ringFrom p sorter nodes))) := by
  refine ⟨_, _, hsGetResponsibleHsdirs_eq h pre nToAdd, ?_, ?_, rfl, ?_⟩
  · rw [hsGetResponsibleHsdirs_eq h, List.map_append, chooseRounds_append]
    rfl
  · rw [hsplit, List.map_append, chooseRounds_append]
    exact prefix_chooseRounds _ _ _
  · rw [← (ringFrom_perm hsIndex).countP_eq]
    exact length_takeNew _ _ _

theorem sort_eq (sorter : Sorter p.compareNodes) (sorter' : Sorter q.compareNodes) (h : Distinct p nodes)
    (h' : Distinct q nodes)
    (hsame : ∀ n ∈ nodes.filter usable, p.index n = q.index n) :
    sorter.sort (nodes.filter usable) = sorter'.sort (nodes.filter usable) := by
  have hperm := (sorter.perm (nodes.filter usable)).trans (sorter'.perm (nodes.filter usable)).symm
  have horder' : InOrder p (sorter'.sort (nodes.filter usable)) := by
    refine (h'.inOrder sorter').imp_of_mem fun {a b} ha hb hab => ?_
    rwa [hsame a ((sorter'.perm _).mem_iff.mp ha), hsame b ((sorter'.perm _).mem_iff.mp hb)]
  refine hperm.eq_of_pairwise ?_ (h.inOrder sorter) horder'
  intro a b _ _ hab hba
  rw [@Std.OrientedCmp.eq_swap _ bytesCmp _ _ _, hab] at hba
  cases hba

theorem ringFrom_eq (h : Distinct p nodes) (h' : Distinct q nodes)
    (hsame : ∀ n ∈ nodes.filter usable, p.index n = q.index n) (hsIndex : List UInt8) :
    ringFrom p sorter nodes hsIndex = ringFrom q sorter' nodes hsIndex := by
  rw [ringFrom, ringFrom, ← sort_eq sorter sorter' h h' hsame]
  congr 1
  refine clockwise_congr fun n hn => ?_
  rw [Purpose.behind, Purpose.behind, hsame n ((sorter.perm _).mem_iff.mp hn)]

theorem nodup_chosen (h : Distinct p nodes) (hsIndices : List (List UInt8)) (nToAdd : ℕ) :
    (chooseRounds nToAdd [] (hsIndices.map (ringFrom p sorter nodes))).Nodup := by
  refine nodup_chooseRounds List.nodup_nil fun ring hring => ?_
  obtain ⟨hsIndex, -, rfl⟩ := List.mem_map.mp hring
  exact ((ringFrom_perm hsIndex).nodup_iff).mpr h.identities

end Replicas

/-! ### Clients and services -/

def Purpose.fetching (useSecondHsdirIndex : Bool) : Purpose := ⟨true, useSecondHsdirIndex⟩

def Purpose.storing (useSecondHsdirIndex : Bool) : Purpose := ⟨false, useSecondHsdirIndex⟩

/-- **Clients look only where services publish**: the directories to fetch from are among those to store at, if
both go by the same index and fetching does not spread wider.  No directory is in a list twice, and each replica
contributes the first ones, clockwise from its position, that earlier replicas have left. -/
theorem responsible_fetch_subset_store (second second' : Bool)
    (fetchSorter : Sorter (Purpose.fetching second).compareNodes)
    (storeSorter : Sorter (Purpose.storing second').compareNodes) (nodes : List HsNode)
    (hidentities : ((nodes.filter usable).map HsNode.rs).Nodup)
    (hindices : ((nodes.filter usable).map (Purpose.fetching second).index).Nodup)
    (hsame : ∀ n ∈ nodes.filter usable, (Purpose.fetching second).index n = (Purpose.storing second').index n)
    (hsIndices : List (List UInt8)) (spreadFetch spreadStore : ℕ) (hstore : spreadFetch ≤ spreadStore) :
    ∃ fetched stored,
      hsGetResponsibleHsdirs (Purpose.fetching second) fetchSorter nodes hsIndices spreadFetch = some fetched ∧
        hsGetResponsibleHsdirs (Purpose.storing second') storeSorter nodes hsIndices spreadStore = some stored ∧
          fetched.Nodup ∧ stored.Nodup ∧ fetched ⊆ stored ∧
            ∀ pre hsIndex post, hsIndices = pre ++ hsIndex :: post →
              TakesFirst (Purpose.fetching second) fetchSorter nodes spreadFetch pre hsIndex fetched ∧
                TakesFirst (Purpose.storing second') storeSorter nodes spreadStore pre hsIndex stored := by
  have hf : Distinct (Purpose.fetching second) nodes := ⟨hidentities, hindices⟩
  have hs : Distinct (Purpose.storing second') nodes := by
    refine ⟨hidentities, ?_⟩
    rwa [← List.map_congr_left hsame]
  refine ⟨_, _, hsGetResponsibleHsdirs_eq hf hsIndices spreadFetch,
    hsGetResponsibleHsdirs_eq hs hsIndices spreadStore,
    nodup_chosen hf hsIndices spreadFetch, nodup_chosen hs hsIndices spreadStore, ?_, ?_⟩
  · have hrings : hsIndices.map (ringFrom (Purpose.fetching second) fetchSorter nodes) =
        hsIndices.map (ringFrom (Purpose.storing second') storeSorter nodes) :=
      List.map_congr_left fun hsIndex _ => ringFrom_eq hf hs hsame hsIndex
    rw [hrings]
    exact chooseRounds_subset hstore (List.Subset.refl []) _
  · intro pre hsIndex post hsplit
    exact ⟨takesFirst hf hsplit spreadFetch, takesFirst hs hsplit spreadStore⟩

/-- A directory whose indices begin with `b`. -/
def directory (rs : ℕ) (b : UInt8) : HsNode where
  rs := rs
  supportsV3Hsdir := true
  isHsDir := true
  hsdirIndex := some ⟨List.replicate 32 b, List.replicate 32 b, List.replicate 32 (b + 1)⟩

/-- Three directories, and the positions of two replicas. -/
def threeDirectories : List HsNode := [directory 1 9, directory 2 3, directory 3 6]
def twoPositions : List (List UInt8) := [List.replicate 32 5, List.replicate 32 7]

theorem responsible_fetch_subset_store_three :
    ∃ fetched stored,
      hsGetResponsibleHsdirs (Purpose.fetching false) (Sorter.merge _) threeDirectories twoPositions 1 =
        some fetched ∧
        hsGetResponsibleHsdirs (Purpose.storing false) (Sorter.merge _) threeDirectories twoPositions 2 =
          some stored ∧
          fetched ⊆ stored := by
  obtain ⟨fetched, stored, hf, hs, -, -, hsub, -⟩ :=
    responsible_fetch_subset_store false false (Sorter.merge _) (Sorter.merge _) threeDirectories
      (by decide) (by decide) (by decide) twoPositions 1 2 (by decide)
  exact ⟨fetched, stored, hf, hs, hsub⟩

end TorEbpf.Hs
