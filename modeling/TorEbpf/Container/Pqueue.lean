import Mathlib.Data.Multiset.AddSub
import TorEbpf.Lib.Events
import TorEbpf.Lib.Heap
import TorEbpf.Lib.SwapRemove

/-!
# Priority queues of smartlists

The `smartlist_pqueue_*` functions of `smartlist.c`: a binary heap in a smartlist whose items store their
own position.  `smartlist_heapify` moves an item down, `smartlist_pqueue_add` moves one up;
`smartlist_pqueue_remove` puts the last item in the place of the one that goes and moves it down only.

* `smartlistPqueueAdd_ok`, `smartlistPqueuePop_ok`, `smartlistPqueueRemove_ok` — what the calls do to a
  heap.
* `assertOk_remove_iff` — a removal leaves a heap exactly if the last item is not less than the parent of
  the one that goes.
* `pqueue_ok_of_run` — so the queue is one along every run whose removals are like that.
-/

namespace TorEbpf.Container

open TorEbpf.Lib

variable {α : Type}

/-- `MAX_CAPACITY`, the greatest length of a smartlist. -/
def maxCapacity : ℕ := 2 ^ 31 - 1

/-- A smartlist of items and the index that is stored in every item. -/
structure Pqueue (α : Type) where
  list : Array α
  idx : α → ℤ
  bound : list.size ≤ maxCapacity

def leftChild (i : ℕ) : ℕ := 2 * i + 1

def maxParentIdx : ℕ := (2 ^ 31 - 1 - 2) / 2

def idxMayHaveChildren (i : ℕ) : Bool := i ≤ maxParentIdx

/-- `best_idx` of `smartlist_heapify`. -/
def bestIdx (compare : α → α → ℤ) (l : Array α) (idx : ℕ) (hl : leftChild idx < l.size) :
    Fin l.size :=
  have hidx : idx < l.size := by
    unfold leftChild at hl
    omega
  let best : Fin l.size :=
    if compare l[idx] l[leftChild idx] < 0 then ⟨idx, hidx⟩ else ⟨leftChild idx, hl⟩
  if hr : leftChild idx + 1 < l.size then
    if compare l[leftChild idx + 1] l[best] < 0 then ⟨leftChild idx + 1, hr⟩ else best
  else best

theorem bestIdx_gt {compare : α → α → ℤ} {l : Array α} {idx : ℕ} (hl : leftChild idx < l.size)
    (h : (bestIdx compare l idx hl).val ≠ idx) : idx < (bestIdx compare l idx hl).val := by
  unfold bestIdx leftChild at *
  dsimp only at *
  split at h <;> split at h <;> grind

variable [DecidableEq α]

/-- Exchange two items, with `UPDATE_IDX` of both. -/
def Pqueue.swap (q : Pqueue α) (i j : ℕ) (hi : i < q.list.size) (hj : j < q.list.size) : Pqueue α where
  list := q.list.swap i j hi hj
  idx := Function.update (Function.update q.idx q.list[j] i) q.list[i] j
  bound := by
    rw [Array.size_swap]
    exact q.bound

def smartlistHeapify (compare : α → α → ℤ) (q : Pqueue α) (idx : ℕ) : Pqueue α :=
  if idxMayHaveChildren idx then
    if hl : leftChild idx < q.list.size then
      let best := bestIdx compare q.list idx hl
      if hb : best.val = idx then q
      else
        have hlt := bestIdx_gt hl hb
        smartlistHeapify compare (q.swap idx best (hlt.trans best.isLt) best.isLt) best
    else q
  else q
termination_by q.list.size - idx
decreasing_by
  have := (bestIdx compare q.list idx hl).isLt
  simp only [Pqueue.swap, Array.size_swap]
  omega

/-- The loop of `smartlist_pqueue_add`. -/
def pqueueAddLoop (compare : α → α → ℤ) (q : Pqueue α) (idx : ℕ) (h : idx < q.list.size) :
    Pqueue α :=
  if h0 : 0 < idx then
    have hp : parent idx < q.list.size := (parent_lt h0).trans h
    if compare q.list[idx] q.list[parent idx] < 0 then
      pqueueAddLoop compare (q.swap (parent idx) idx hp h) (parent idx) (by
        rw [Pqueue.swap, Array.size_swap]
        exact hp)
    else q
  else q
termination_by idx
decreasing_by exact parent_lt h0

/-- `smartlist_add`, with `UPDATE_IDX` of the new item. -/
def Pqueue.push (q : Pqueue α) (item : α) (h : q.list.size < maxCapacity) : Pqueue α :=
  ⟨q.list.push item, Function.update q.idx item q.list.size, by rwa [Array.size_push]⟩

/-- `smartlist_pqueue_add`; `none` is the assertion of `smartlist_add` that the list has room. -/
def smartlistPqueueAdd (compare : α → α → ℤ) (q : Pqueue α) (item : α) : Option (Pqueue α) :=
  if h : q.list.size < maxCapacity then
    some (pqueueAddLoop compare (q.push item h) q.list.size (by
      rw [Pqueue.push, Array.size_push]
      exact Nat.lt_succ_self _))
  else none

def Pqueue.forget (q : Pqueue α) (item : α) : Pqueue α :=
  { q with idx := Function.update q.idx item (-1) }

def Pqueue.dropLast (q : Pqueue α) : Pqueue α :=
  ⟨q.list.pop, q.idx, by
    rw [Array.size_pop]
    exact (Nat.sub_le _ _).trans q.bound⟩

/-- The last item in the place of another one, with `UPDATE_IDX`. -/
def Pqueue.moveLast (q : Pqueue α) (i : ℕ) (hi : i < q.list.size) : Pqueue α :=
  have hlast : q.list.size - 1 < q.list.size := by omega
  ⟨(q.list.set i q.list[q.list.size - 1]).pop, Function.update q.idx q.list[q.list.size - 1] i, by
    rw [Array.size_pop, Array.size_set]
    exact (Nat.sub_le _ _).trans q.bound⟩

/-- `smartlist_pqueue_pop`; `none` is its assertion. -/
def smartlistPqueuePop (compare : α → α → ℤ) (q : Pqueue α) : Option (α × Pqueue α) :=
  if h : 0 < q.list.size then
    let top := q.list[0]
    if q.list.size - 1 ≠ 0 then
      some (top, smartlistHeapify compare ((q.forget top).moveLast 0 h) 0)
    else some (top, (q.forget top).dropLast)
  else none

/-- `smartlist_pqueue_remove`; `none` is one of its assertions. -/
def smartlistPqueueRemove (compare : α → α → ℤ) (q : Pqueue α) (item : α) : Option (Pqueue α) :=
  if q.idx item < 0 then none
  else
    let idx := (q.idx item).toNat
    if h : idx < q.list.size then
      if q.list[idx] = item then
        if idx = q.list.size - 1 then some (q.forget item).dropLast
        else some (smartlistHeapify compare ((q.forget item).moveLast idx h) idx)
      else none
    else none

/-- `smartlist_pqueue_assert_ok`. -/
def Pqueue.AssertOk (compare : α → α → ℤ) (q : Pqueue α) : Prop :=
  HeapOrdered compare q.list ∧ ∀ i (hi : i < q.list.size), q.idx q.list[i] = i

/-! ### Exchanges -/

def Pqueue.Indexed (q : Pqueue α) : Prop := ∀ i (hi : i < q.list.size), q.idx q.list[i] = i

variable {compare : α → α → ℤ} {q : Pqueue α}

omit [DecidableEq α] in
theorem Pqueue.Indexed.inj (h : q.Indexed) {i j : ℕ} (hi : i < q.list.size) (hj : j < q.list.size)
    (he : q.list[i] = q.list[j]) : i = j := by
  have hij := h i hi
  rw [he, h j hj] at hij
  exact_mod_cast hij.symm

/-- The same items in another order: what exchanges do to a queue. -/
structure Rearranged (q q' : Pqueue α) : Prop where
  perm : q'.list.toList.Perm q.list.toList
  indexed : q'.Indexed
  frame : ∀ a, a ∉ q.list → q'.idx a = q.idx a

omit [DecidableEq α] in
theorem Rearranged.refl (h : q.Indexed) : Rearranged q q := ⟨.refl _, h, fun _ _ => rfl⟩

omit [DecidableEq α] in
theorem Rearranged.trans {q₁ q₂ q₃ : Pqueue α} (h₁ : Rearranged q₁ q₂) (h₂ : Rearranged q₂ q₃) :
    Rearranged q₁ q₃ where
  perm := h₂.perm.trans h₁.perm
  indexed := h₂.indexed
  frame := by
    intro a ha
    rw [h₂.frame a, h₁.frame a ha]
    rw [← Array.mem_toList_iff] at ha ⊢
    rwa [h₁.perm.mem_iff]

theorem Rearranged.swap (h : q.Indexed) {i j : ℕ} (hi : i < q.list.size) (hj : j < q.list.size) :
    Rearranged q (q.swap i j hi hj) where
  perm := (Array.perm_iff_toList_perm.mp (Array.swap_perm hi hj))
  indexed := by
    intro x hx
    simp only [Pqueue.swap] at hx ⊢
    rw [Array.size_swap] at hx
    by_cases hxj : x = j
    · subst hxj
      rw [Array.getElem_swap_right, Function.update_self]
    · by_cases hxi : x = i
      · subst hxi
        have hne : q.list[j] ≠ q.list[x] := fun he => hxj (h.inj hi hj he.symm)
        rw [Array.getElem_swap_left, Function.update_of_ne hne, Function.update_self]
      · rw [Array.getElem_swap_of_ne hxi hxj,
          Function.update_of_ne fun he => hxi (h.inj hx hi he),
          Function.update_of_ne fun he => hxj (h.inj hx hj he)]
        exact h x hx
  frame := by
    intro a ha
    have hmem : ∀ k (hk : k < q.list.size), a ≠ q.list[k] := fun k hk he =>
      ha (he ▸ Array.getElem_mem hk)
    simp only [Pqueue.swap]
    rw [Function.update_of_ne (hmem i hi), Function.update_of_ne (hmem j hj)]

/-! ### Moving down -/

/-- A position is the item itself, if it is not greater than its children, or a least child that is not
greater than the item. -/
def Best (compare : α → α → ℤ) (l : Array α) (idx : ℕ) (hidx : idx < l.size) (b : Fin l.size) : Prop :=
  (b.val = idx ∧ ∀ i, 0 < i → parent i = idx → ∀ hi : i < l.size, compare l[idx] l[i] ≤ 0) ∨
  (0 < b.val ∧ parent b.val = idx ∧ compare l[b] l[idx] ≤ 0 ∧
    ∀ i, 0 < i → parent i = idx → ∀ hi : i < l.size, compare l[b] l[i] ≤ 0)

omit [DecidableEq α] in
theorem best_bestIdx (hc : TotalPreorder compare) {l : Array α} {idx : ℕ}
    (hl : leftChild idx < l.size) (hidx : idx < l.size) :
    Best compare l idx hidx (bestIdx compare l idx hl) := by
  have hleft : parent (leftChild idx) = idx := by
    unfold parent leftChild
    omega
  have hright : parent (leftChild idx + 1) = idx := by
    unfold parent leftChild
    omega
  have hl0 : 0 < leftChild idx := Nat.succ_pos _
  have hchild : ∀ i, 0 < i → parent i = idx → i = leftChild idx ∨ i = leftChild idx + 1 := by
    intro i hi0 hi
    exact (parent_eq_iff hi0).mp hi
  unfold bestIdx
  dsimp only
  by_cases hlt : compare l[idx] l[leftChild idx] < 0
  · simp only [if_pos hlt, Fin.getElem_fin]
    split
    · rename_i hr
      split
      · -- the right child is least
        rename_i hlt'
        refine .inr ⟨Nat.succ_pos _, hright, hlt'.le, ?_⟩
        intro i hi0 hpi hi
        obtain rfl | rfl := hchild i hi0 hpi
        · exact hc.trans hlt'.le hlt.le
        · exact hc.refl _
      · rename_i hlt'
        refine .inl ⟨rfl, ?_⟩
        intro i hi0 hpi hi
        obtain rfl | rfl := hchild i hi0 hpi
        · exact hlt.le
        · exact hc.not_lt.mp hlt'
    · refine .inl ⟨rfl, ?_⟩
      intro i hi0 hpi hi
      obtain rfl | rfl := hchild i hi0 hpi
      · exact hlt.le
      · contradiction
  · have hle : compare l[leftChild idx] l[idx] ≤ 0 := hc.not_lt.mp hlt
    simp only [if_neg hlt, Fin.getElem_fin]
    split
    · rename_i hr
      split
      · rename_i hlt'
        refine .inr ⟨Nat.succ_pos _, hright, hc.trans hlt'.le hle, ?_⟩
        intro i hi0 hpi hi
        obtain rfl | rfl := hchild i hi0 hpi
        · exact hlt'.le
        · exact hc.refl _
      · rename_i hlt'
        refine .inr ⟨hl0, hleft, hle, ?_⟩
        intro i hi0 hpi hi
        obtain rfl | rfl := hchild i hi0 hpi
        · exact hc.refl _
        · exact hc.not_lt.mp hlt'
    · refine .inr ⟨hl0, hleft, hle, ?_⟩
      intro i hi0 hpi hi
      obtain rfl | rfl := hchild i hi0 hpi
      · exact hc.refl _
      · contradiction

omit [DecidableEq α] in
/-- Where there are children, their indices fit an `int`. -/
theorem idxMayHaveChildren_of_lt {idx : ℕ} (hl : leftChild idx < q.list.size) :
    idxMayHaveChildren idx = true := by
  have := q.bound
  unfold maxCapacity at this
  unfold idxMayHaveChildren maxParentIdx
  unfold leftChild at hl
  rw [decide_eq_true_eq]
  omega

/-- **`smartlist_heapify`** restores the order. -/
theorem smartlistHeapify_ok (hc : TotalPreorder compare) (q : Pqueue α) (idx : ℕ) (hq : q.Indexed)
    (hhole : HoleDown compare q.list idx) :
    HeapOrdered compare (smartlistHeapify compare q idx).list ∧
      Rearranged q (smartlistHeapify compare q idx) := by
  induction q, idx using smartlistHeapify.induct compare with
  | case1 q idx _ hl best hb =>
    rw [smartlistHeapify, if_pos (idxMayHaveChildren_of_lt hl), dif_pos hl]
    dsimp only
    rw [dif_pos hb]
    have hidx : idx < q.list.size := by
      unfold leftChild at hl
      omega
    obtain ⟨_, hleast⟩ | ⟨hpos, hparent, _⟩ := best_bestIdx hc hl hidx
    · exact ⟨hhole.ordered fun i hi0 hpi _ hi => hleast i hi0 hpi hi, .refl hq⟩
    · have := parent_lt hpos
      omega
  | case2 q idx _ hl best hb hlt ih =>
    rw [smartlistHeapify, if_pos (idxMayHaveChildren_of_lt hl), dif_pos hl]
    dsimp only
    rw [dif_neg hb]
    have hidx : idx < q.list.size := hlt.trans best.isLt
    obtain ⟨heq, _⟩ | ⟨hpos, hparent, hle, hleast⟩ := best_bestIdx hc hl hidx
    · exact absurd heq hb
    · have hswap := Rearranged.swap hq hidx best.isLt
      obtain ⟨hord, hrest⟩ := ih hswap.indexed
        (hhole.swap hpos hparent hidx best.isLt hle hleast)
      exact ⟨hord, hswap.trans hrest⟩
  | case3 q idx hmay hl =>
    rw [smartlistHeapify, if_pos hmay, dif_neg hl]
    refine ⟨hhole.ordered ?_, .refl hq⟩
    intro i hi0 hpi _ hi
    have hge : leftChild idx ≤ i := by
      unfold leftChild
      have := (parent_eq_iff hi0).mp hpi
      omega
    exact absurd (hge.trans_lt hi) hl
  | case4 q idx hmay =>
    rw [smartlistHeapify, if_neg hmay]
    refine ⟨hhole.ordered ?_, .refl hq⟩
    intro i hi0 hpi _ hi
    have hge : leftChild idx ≤ i := by
      unfold leftChild
      have := (parent_eq_iff hi0).mp hpi
      omega
    exact absurd (idxMayHaveChildren_of_lt (hge.trans_lt hi)) hmay

/-! ### Moving up -/

/-- **The loop of `smartlist_pqueue_add`** restores the order. -/
theorem pqueueAddLoop_ok (hc : TotalPreorder compare) (q : Pqueue α) (idx : ℕ)
    (h : idx < q.list.size) (hq : q.Indexed) (hhole : HoleUp compare q.list idx) :
    HeapOrdered compare (pqueueAddLoop compare q idx h).list ∧
      Rearranged q (pqueueAddLoop compare q idx h) := by
  induction q, idx, h using pqueueAddLoop.induct compare with
  | case1 q idx h h0 hp hlt ih =>
    rw [pqueueAddLoop, dif_pos h0, if_pos hlt]
    have hswap := Rearranged.swap hq hp h
    obtain ⟨hord, hrest⟩ := ih hswap.indexed (hhole.swap hc h0 hp h hlt)
    exact ⟨hord, hswap.trans hrest⟩
  | case2 q idx h h0 hp hlt =>
    rw [pqueueAddLoop, dif_pos h0, if_neg hlt]
    exact ⟨hhole.ordered fun _ _ _ => hc.not_lt.mp hlt, .refl hq⟩
  | case3 q idx h h0 =>
    rw [pqueueAddLoop, dif_neg h0]
    exact ⟨hhole.ordered fun hpos => absurd hpos h0, .refl hq⟩

/-! ### The calls -/

/-- A queue between two calls: a heap whose items store their position, and only they. -/
structure Pqueue.Valid (compare : α → α → ℤ) (q : Pqueue α) : Prop where
  ordered : HeapOrdered compare q.list
  indexed : q.Indexed
  absent : ∀ a, a ∉ q.list → q.idx a = -1

omit [DecidableEq α] in
theorem Pqueue.Valid.not_mem (h : q.Valid compare) {a : α} (ha : q.idx a = -1) : a ∉ q.list := by
  intro hmem
  obtain ⟨i, hi, rfl⟩ := Array.mem_iff_getElem.mp hmem
  rw [h.indexed i hi] at ha
  omega

omit [DecidableEq α] in
theorem Pqueue.Valid.congr {compare' : α → α → ℤ} (hq : q.Valid compare)
    (h : ∀ a ∈ q.list, ∀ b ∈ q.list, compare' a b = compare a b) : q.Valid compare' :=
  ⟨hq.ordered.congr h, hq.indexed, hq.absent⟩

omit [DecidableEq α] in
theorem Pqueue.Valid.nodup (hq : q.Valid compare) : q.list.toList.Nodup := by
  rw [List.nodup_iff_injective_getElem]
  intro i j hij
  have hi : i.val < q.list.size := by
    rw [← Array.length_toList]
    exact i.isLt
  have hj : j.val < q.list.size := by
    rw [← Array.length_toList]
    exact j.isLt
  simp only [Array.getElem_toList] at hij
  exact Fin.ext (hq.indexed.inj hi hj hij)

omit [DecidableEq α] in
theorem Rearranged.absent {q' : Pqueue α} (h : Rearranged q q')
    (habs : ∀ a, a ∉ q.list → q.idx a = -1) : ∀ a, a ∉ q'.list → q'.idx a = -1 := by
  intro a ha
  rw [← Array.mem_toList_iff, h.perm.mem_iff, Array.mem_toList_iff] at ha
  rw [h.frame a ha, habs a ha]

theorem Pqueue.Valid.indexed_push (hq : q.Valid compare) {item : α} (hitem : q.idx item = -1)
    (hroom : q.list.size < maxCapacity) : (q.push item hroom).Indexed := by
  intro i hi
  simp only [Pqueue.push] at hi ⊢
  rw [Array.size_push] at hi
  rcases Nat.lt_succ_iff_lt_or_eq.mp hi with hlt | rfl
  · have hne : q.list[i] ≠ item := fun he => hq.not_mem hitem (he ▸ Array.getElem_mem hlt)
    rw [Array.getElem_push_lt hlt, Function.update_of_ne hne]
    exact hq.indexed i hlt
  · rw [Array.getElem_push_eq, Function.update_self]

theorem Pqueue.Valid.hole_push (hq : q.Valid compare) {item : α}
    (hroom : q.list.size < maxCapacity) : HoleUp compare (q.push item hroom).list q.list.size := by
  simp only [Pqueue.push]
  constructor
  · intro i h0 hne hp hi
    rw [Array.size_push] at hi
    have hlt : i < q.list.size := by omega
    have hplt : parent i < q.list.size := (parent_lt h0).trans hlt
    rw [Array.getElem_push_lt hlt, Array.getElem_push_lt hplt]
    exact hq.ordered i h0 hplt hlt
  · intro _ i h0 hp _ hi
    rw [Array.size_push] at hi
    have := parent_lt h0
    omega

theorem Pqueue.Valid.absent_push (hq : q.Valid compare) {item : α}
    (hroom : q.list.size < maxCapacity) :
    ∀ a, a ∉ (q.push item hroom).list → (q.push item hroom).idx a = -1 := by
  intro a ha
  simp only [Pqueue.push, Array.mem_push, not_or] at ha ⊢
  rw [Function.update_of_ne ha.2]
  exact hq.absent a ha.1

/-- **`smartlist_pqueue_add`** of an item that is not queued. -/
theorem smartlistPqueueAdd_ok (hc : TotalPreorder compare) {q' : Pqueue α} {item : α}
    (hq : q.Valid compare) (hitem : q.idx item = -1)
    (h : smartlistPqueueAdd compare q item = some q') :
    q'.Valid compare ∧ q'.list.toList.Perm (item :: q.list.toList) := by
  unfold smartlistPqueueAdd at h
  split at h
  · rename_i hroom
    cases h
    obtain ⟨hord, hre⟩ := pqueueAddLoop_ok hc (q.push item hroom) q.list.size
      (by simp [Pqueue.push]) (hq.indexed_push hitem hroom) (hq.hole_push hroom)
    refine ⟨⟨hord, hre.indexed, hre.absent (hq.absent_push hroom)⟩, hre.perm.trans ?_⟩
    rw [Pqueue.push, Array.toList_push]
    exact List.perm_append_comm
  · cases h

/-! ### Removal -/

@[simp] theorem size_moveLast {i : ℕ} (hi : i < q.list.size) :
    (q.moveLast i hi).list.size = q.list.size - 1 := by
  simp only [Pqueue.moveLast, Array.size_pop, Array.size_set]

theorem getElem_moveLast {i : ℕ} (hi : i < q.list.size) {x : ℕ}
    (hx : x < (q.moveLast i hi).list.size) (hlast : q.list.size - 1 < q.list.size)
    (hx' : x < q.list.size) :
    (q.moveLast i hi).list[x] = if x = i then q.list[q.list.size - 1] else q.list[x] := by
  simp only [Pqueue.moveLast, Array.getElem_pop, Array.getElem_set, eq_comm]

theorem moveLast_perm {i : ℕ} (hi : i < q.list.size) :
    (q.list[i] :: (q.moveLast i hi).list.toList).Perm q.list.toList := by
  have hlast : q.list.toList.getLast? = some q.list[q.list.size - 1] := by
    rw [List.getLast?_eq_getElem?, Array.length_toList]
    simp
  have hmove : (q.moveLast i hi).list.toList = swapRemove q.list.toList i := by
    rw [swapRemove, hlast]
    simp [Pqueue.moveLast]
  rw [hmove]
  exact swapRemove_perm (by simp)

/-- The queue without the item at `i`, before the order is restored. -/
def Pqueue.removeAt (q : Pqueue α) (i : ℕ) (hi : i < q.list.size) : Pqueue α :=
  (q.forget q.list[i]).moveLast i hi

variable {i : ℕ} (hi : i < q.list.size)

@[simp] theorem size_removeAt : (q.removeAt i hi).list.size = q.list.size - 1 := size_moveLast hi

theorem getElem_removeAt {x : ℕ} (hx : x < (q.removeAt i hi).list.size)
    (hlast : q.list.size - 1 < q.list.size) (hx' : x < q.list.size) :
    (q.removeAt i hi).list[x] = if x = i then q.list[q.list.size - 1] else q.list[x] :=
  getElem_moveLast hi hx hlast hx'

theorem removeAt_perm : (q.list[i] :: (q.removeAt i hi).list.toList).Perm q.list.toList :=
  moveLast_perm (q := q.forget q.list[i]) hi

theorem Pqueue.Valid.indexed_removeAt (hq : q.Valid compare) : (q.removeAt i hi).Indexed := by
  intro x hx
  have hlast : q.list.size - 1 < q.list.size := by omega
  have hx' : x < q.list.size - 1 := by rwa [size_removeAt] at hx
  rw [getElem_removeAt hi hx hlast (by omega)]
  simp only [Pqueue.removeAt, Pqueue.moveLast, Pqueue.forget]
  split
  · rename_i hxi
    rw [Function.update_self, hxi]
  · rename_i hxi
    rw [Function.update_of_ne fun he => by have := hq.indexed.inj (by omega) hlast he; omega,
      Function.update_of_ne fun he => hxi (hq.indexed.inj (by omega) hi he)]
    exact hq.indexed x (by omega)

theorem Pqueue.Valid.absent_removeAt (hq : q.Valid compare) (hne : i ≠ q.list.size - 1) :
    ∀ a, a ∉ (q.removeAt i hi).list → (q.removeAt i hi).idx a = -1 := by
  intro a ha
  have hlast : q.list.size - 1 < q.list.size := by omega
  have hmem : q.list[q.list.size - 1] ∈ (q.removeAt i hi).list := by
    have hi' : i < (q.removeAt i hi).list.size := by
      rw [size_removeAt]
      omega
    have := Array.getElem_mem hi'
    rwa [getElem_removeAt hi hi' hlast hi, if_pos rfl] at this
  have hnel : a ≠ q.list[q.list.size - 1] := fun he => ha (he ▸ hmem)
  simp only [Pqueue.removeAt, Pqueue.moveLast, Pqueue.forget]
  rw [Function.update_of_ne hnel]
  by_cases hai : a = q.list[i]
  · rw [hai, Function.update_self]
  · rw [Function.update_of_ne hai]
    refine hq.absent a fun hmem' => ha ?_
    rw [← Array.mem_toList_iff] at hmem' ⊢
    exact (List.mem_cons.mp ((removeAt_perm hi).mem_iff.mpr hmem')).resolve_left hai

/-- The last item can only be too great where it is put, if it is not less than the parent there. -/
theorem Pqueue.Valid.hole_removeAt (hc : TotalPreorder compare) (hq : q.Valid compare)
    (hle : 0 < i → ∀ (hp : parent i < q.list.size) (hl : q.list.size - 1 < q.list.size),
      compare q.list[parent i] q.list[q.list.size - 1] ≤ 0) :
    HoleDown compare (q.removeAt i hi).list i := by
  have hlast : q.list.size - 1 < q.list.size := by omega
  constructor
  · intro x h0 hpx hp hx
    have hx' : x < q.list.size - 1 := by rwa [size_removeAt] at hx
    have hpx' := parent_lt h0
    rw [getElem_removeAt hi hx hlast (by omega), getElem_removeAt hi hp hlast (by omega), if_neg hpx]
    split
    · rename_i hxi
      subst hxi
      exact hle h0 (by omega) hlast
    · exact hq.ordered x h0 (by omega) (by omega)
  · intro h0 x hx0 hpx hp hx
    have hx' : x < q.list.size - 1 := by rwa [size_removeAt] at hx
    have hlt := parent_lt hx0
    have hlt' := parent_lt h0
    rw [getElem_removeAt hi hx hlast (by omega), getElem_removeAt hi hp hlast (by omega),
      if_neg (by omega), if_neg (by omega)]
    have hup := hq.ordered i h0 (by omega) hi
    have hdown := hq.ordered x hx0 (by omega) (by omega)
    simp only [hpx] at hdown
    exact hc.trans hup hdown

theorem heapify_removeAt_ok (hc : TotalPreorder compare) (hq : q.Valid compare)
    (hne : i ≠ q.list.size - 1)
    (hle : 0 < i → ∀ (hp : parent i < q.list.size) (hl : q.list.size - 1 < q.list.size),
      compare q.list[parent i] q.list[q.list.size - 1] ≤ 0) :
    (smartlistHeapify compare (q.removeAt i hi) i).Valid compare ∧
      (q.list[i] :: (smartlistHeapify compare (q.removeAt i hi) i).list.toList).Perm
        q.list.toList := by
  obtain ⟨hord, hre⟩ := smartlistHeapify_ok hc (q.removeAt i hi) i (hq.indexed_removeAt hi)
    (hq.hole_removeAt hi hc hle)
  exact ⟨⟨hord, hre.indexed, hre.absent (hq.absent_removeAt hi hne)⟩,
    (hre.perm.cons _).trans (removeAt_perm hi)⟩

theorem dropLast_ok (hq : q.Valid compare) (hlast : i = q.list.size - 1) :
    (q.forget q.list[i]).dropLast.Valid compare ∧
      (q.list[i] :: (q.forget q.list[i]).dropLast.list.toList).Perm q.list.toList := by
  have hsplit : (q.list[i] :: q.list.pop.toList).Perm q.list.toList := by
    have hne : q.list.toList ≠ [] := List.ne_nil_of_length_pos (by
      rw [Array.length_toList]
      omega)
    have hget : q.list[i] = q.list.toList.getLast hne := by
      rw [List.getLast_eq_getElem, Array.getElem_toList]
      simp only [hlast, Array.length_toList]
    have hconcat : q.list.pop.toList ++ [q.list[i]] = q.list.toList := by
      rw [Array.toList_pop, hget, List.dropLast_concat_getLast]
    rw [← hconcat]
    exact (List.perm_append_singleton _ _).symm
  refine ⟨⟨?_, ?_, ?_⟩, hsplit⟩
  · intro x h0 hp hx
    simp only [Pqueue.dropLast, Pqueue.forget] at hp hx ⊢
    rw [Array.getElem_pop, Array.getElem_pop]
    exact hq.ordered x h0 _ _
  · intro x hx
    simp only [Pqueue.dropLast, Pqueue.forget] at hx ⊢
    rw [Array.size_pop] at hx
    rw [Array.getElem_pop, Function.update_of_ne fun he => by
      have := hq.indexed.inj (by omega) hi he
      omega]
    exact hq.indexed x (by omega)
  · intro a ha
    simp only [Pqueue.dropLast, Pqueue.forget] at ha ⊢
    by_cases hai : a = q.list[i]
    · rw [hai, Function.update_self]
    · rw [Function.update_of_ne hai]
      refine hq.absent a fun hmem => ha ?_
      rw [← Array.mem_toList_iff] at hmem ⊢
      exact (List.mem_cons.mp (hsplit.mem_iff.mpr hmem)).resolve_left hai

/-- **`smartlist_pqueue_pop`** takes a least item. -/
theorem smartlistPqueuePop_ok (hc : TotalPreorder compare) {q' : Pqueue α} {top : α}
    (hq : q.Valid compare) (h : smartlistPqueuePop compare q = some (top, q')) :
    q'.Valid compare ∧ (top :: q'.list.toList).Perm q.list.toList ∧
      ∀ a ∈ q.list, compare top a ≤ 0 := by
  unfold smartlistPqueuePop at h
  split at h
  · rename_i h0
    have hleast : ∀ a ∈ q.list, compare q.list[0] a ≤ 0 := by
      intro a ha
      obtain ⟨x, hx, rfl⟩ := Array.mem_iff_getElem.mp ha
      exact hq.ordered.root_le hc h0 x hx
    dsimp only at h
    split at h
    · rename_i hne
      cases h
      obtain ⟨hvalid, hperm⟩ := heapify_removeAt_ok h0 hc hq (by omega)
        fun hpos => absurd hpos (Nat.lt_irrefl 0)
      exact ⟨hvalid, hperm, hleast⟩
    · rename_i hone
      cases h
      obtain ⟨hvalid, hperm⟩ := dropLast_ok h0 hq (by omega)
      exact ⟨hvalid, hperm, hleast⟩
  · cases h

/-- A `pop` after the item at the head was changed: only the order of the others matters. -/
theorem smartlistPqueuePop_head_changed {compare' : α → α → ℤ} (hc : TotalPreorder compare)
    (hc' : TotalPreorder compare') (hq : q.Valid compare) {head : α} (hhead : q.list[0]? = some head)
    (h : ∀ a ∈ q.list, ∀ b ∈ q.list, a ≠ head → b ≠ head → compare' a b = compare a b) :
    ∃ q', smartlistPqueuePop compare' q = some (head, q') ∧ q'.Valid compare' ∧
      (head :: q'.list.toList).Perm q.list.toList := by
  obtain ⟨h0, rfl⟩ := Array.getElem?_eq_some_iff.mp hhead
  -- what is left when the head is gone does not contain it
  have hrest : ∀ l : List α, (q.list[0] :: l).Perm q.list.toList → ∀ a ∈ l,
      a ∈ q.list ∧ a ≠ q.list[0] := by
    intro l hperm a ha
    refine ⟨Array.mem_toList_iff.mp (hperm.mem_iff.mp (List.mem_cons_of_mem _ ha)), ?_⟩
    rintro rfl
    exact (List.nodup_cons.mp (hperm.nodup_iff.mpr hq.nodup)).1 ha
  have hagree : ∀ l : Array α, (q.list[0] :: l.toList).Perm q.list.toList → ∀ a ∈ l, ∀ b ∈ l,
      compare' a b = compare a b := by
    intro l hperm a ha b hb
    obtain ⟨hamem, hane⟩ := hrest _ hperm a (Array.mem_toList_iff.mpr ha)
    obtain ⟨hbmem, hbne⟩ := hrest _ hperm b (Array.mem_toList_iff.mpr hb)
    exact h a hamem b hbmem hane hbne
  unfold smartlistPqueuePop
  rw [dif_pos h0]
  dsimp only
  by_cases hone : q.list.size - 1 ≠ 0
  · rw [if_pos hone]
    have hhole := (hq.hole_removeAt h0 hc fun hpos => absurd hpos (Nat.lt_irrefl 0)).congr
      (hagree _ (removeAt_perm h0))
    obtain ⟨hord, hre⟩ := smartlistHeapify_ok hc' (q.removeAt 0 h0) 0 (hq.indexed_removeAt h0) hhole
    exact ⟨_, rfl, ⟨hord, hre.indexed, hre.absent (hq.absent_removeAt h0 (by omega))⟩,
      (hre.perm.cons _).trans (removeAt_perm h0)⟩
  · rw [if_neg hone]
    obtain ⟨hvalid, hperm⟩ := dropLast_ok h0 hq (by omega)
    exact ⟨_, rfl, hvalid.congr (hagree _ hperm), hperm⟩

/-- The last item is not less than the parent of the one that goes, so that it can take its place. -/
def Restores (compare : α → α → ℤ) (q : Pqueue α) (item : α) : Prop :=
  0 < (q.idx item).toNat → (q.idx item).toNat ≠ q.list.size - 1 →
    ∀ (hp : parent (q.idx item).toNat < q.list.size) (hl : q.list.size - 1 < q.list.size),
      compare q.list[parent (q.idx item).toNat] q.list[q.list.size - 1] ≤ 0

/-- An item of the queue passes the assertions of a removal. -/
theorem smartlistPqueueRemove_eq (hq : q.Valid compare) :
    smartlistPqueueRemove compare q q.list[i] =
      if i = q.list.size - 1 then some (q.forget q.list[i]).dropLast
      else some (smartlistHeapify compare (q.removeAt i hi) i) := by
  have hidx := hq.indexed i hi
  have hnat : (q.idx q.list[i]).toNat = i := by
    rw [hidx]
    exact Int.toNat_natCast i
  unfold smartlistPqueueRemove
  rw [if_neg (by omega)]
  dsimp only
  simp only [hnat]
  rw [dif_pos hi, if_pos trivial]
  rfl

/-- **`smartlist_pqueue_remove`**, where the last item can take the place. -/
theorem smartlistPqueueRemove_ok (hc : TotalPreorder compare) {q' : Pqueue α} {item : α}
    (hq : q.Valid compare) (hitem : item ∈ q.list) (hrest : Restores compare q item)
    (h : smartlistPqueueRemove compare q item = some q') :
    q'.Valid compare ∧ (item :: q'.list.toList).Perm q.list.toList := by
  obtain ⟨i, hi, rfl⟩ := Array.mem_iff_getElem.mp hitem
  have hnat : (q.idx q.list[i]).toNat = i := by
    rw [hq.indexed i hi]
    exact Int.toNat_natCast i
  unfold Restores at hrest
  simp only [hnat] at hrest
  rw [smartlistPqueueRemove_eq hi hq] at h
  split at h
  · rename_i hlast
    cases h
    exact dropLast_ok hi hq hlast
  · rename_i hne
    cases h
    exact heapify_removeAt_ok hi hc hq hne fun h0 => hrest h0 hne

theorem smartlistHeapify_of_lt {idx : ℕ} (hc : TotalPreorder compare) (hidx : idx < q.list.size)
    (hlt : ∀ x, 0 < x → parent x = idx → ∀ hx : x < q.list.size, compare q.list[idx] q.list[x] < 0) :
    smartlistHeapify compare q idx = q := by
  rw [smartlistHeapify]
  split
  · split
    · rename_i hl
      dsimp only
      obtain ⟨heq, _⟩ | ⟨hpos, hparent, hle, _⟩ := best_bestIdx hc hl hidx
      · rw [dif_pos heq]
      · have := hlt _ hpos hparent (bestIdx compare q.list idx hl).isLt
        exact absurd hle (not_le.mpr ((hc.swap _ _).mp this))
    · rfl
  · rfl

/-- **When a removal leaves a heap.** -/
theorem assertOk_remove_iff (hc : TotalPreorder compare) {item : α} (hq : q.Valid compare)
    (hitem : item ∈ q.list) :
    ∃ q', smartlistPqueueRemove compare q item = some q' ∧
      (q'.AssertOk compare ↔ Restores compare q item) := by
  obtain ⟨i, hi, rfl⟩ := Array.mem_iff_getElem.mp hitem
  have hnat : (q.idx q.list[i]).toNat = i := by
    rw [hq.indexed i hi]
    exact Int.toNat_natCast i
  obtain ⟨q', hq'⟩ : ∃ q', smartlistPqueueRemove compare q q.list[i] = some q' := by
    rw [smartlistPqueueRemove_eq hi hq]
    split
    · exact ⟨_, rfl⟩
    · exact ⟨_, rfl⟩
  refine ⟨q', hq', ?_, ?_⟩
  · intro hok
    unfold Restores
    simp only [hnat]
    intro h0 hne hp hl
    by_contra hnot
    have hlt : compare q.list[q.list.size - 1] q.list[parent i] < 0 := by
      rw [hc.swap]
      omega
    rw [smartlistPqueueRemove_eq hi hq, if_neg hne] at hq'
    have hi' : i < (q.removeAt i hi).list.size := by
      rw [size_removeAt]
      omega
    have hp' : parent i < (q.removeAt i hi).list.size := (parent_lt h0).trans hi'
    have hitem' : (q.removeAt i hi).list[i] = q.list[q.list.size - 1] := by
      rw [getElem_removeAt hi hi' hl hi, if_pos rfl]
    have hparent' : (q.removeAt i hi).list[parent i] = q.list[parent i] := by
      rw [getElem_removeAt hi hp' hl hp, if_neg (parent_lt h0).ne]
    -- the last item is less than the parent, so less than everything below it, and stays
    have hstay : smartlistHeapify compare (q.removeAt i hi) i = q.removeAt i hi := by
      refine smartlistHeapify_of_lt hc hi' fun x hx0 hpx hx => ?_
      have hlt' := parent_lt hx0
      have hx' : x < q.list.size - 1 := by rwa [size_removeAt] at hx
      rw [hitem', getElem_removeAt hi hx hl (by omega), if_neg (by omega)]
      by_contra hge
      have hup := hq.ordered i h0 hp hi
      have hdown := hq.ordered x hx0 (by omega) (by omega)
      simp only [hpx] at hdown
      have hle := hc.trans (hc.trans hup hdown) (hc.not_lt.mp hge)
      exact hnot hle
    cases hq'
    rw [hstay] at hok
    have := hok.1 i h0 hp' hi'
    rw [hitem', hparent'] at this
    exact hnot this
  · intro hrest
    obtain ⟨hvalid, _⟩ := smartlistPqueueRemove_ok hc hq hitem hrest hq'
    exact ⟨hvalid.ordered, hvalid.indexed⟩

/-! ### Runs -/

/-- The calls; a `pop` with the item it returns. -/
inductive Event (α : Type) where
  | add (item : α)
  | pop (item : α)
  | remove (item : α)

/-- A call that returns.  An item is added only while its index is `-1`, as the callers check, and
removed only while it is in the queue. -/
def Call (compare : α → α → ℤ) (q : Pqueue α) : Event α → Pqueue α → Prop
  | .add item, q' => q.idx item = -1 ∧ smartlistPqueueAdd compare q item = some q'
  | .pop item, q' => smartlistPqueuePop compare q = some (item, q')
  | .remove item, q' => item ∈ q.list ∧ smartlistPqueueRemove compare q item = some q'

/-- What a call does to the items of a queue, as a multiset. -/
def SpecCall (compare : α → α → ℤ) (s : Multiset α) : Event α → Multiset α → Prop
  | .add item, s' => s' = item ::ₘ s
  | .pop item, s' => s = item ::ₘ s' ∧ ∀ a ∈ s, compare item a ≤ 0
  | .remove item, s' => s = item ::ₘ s'

/-- Every removal finds a last item that can take the place. -/
def CallRestores (compare : α → α → ℤ) (q : Pqueue α) (e : Event α) (q' : Pqueue α) : Prop :=
  Call compare q e q' ∧ ∀ item, e = .remove item → Restores compare q item

def Pqueue.items (q : Pqueue α) : Multiset α := q.list.toList

/-- A new queue; an item that was not added has the index `-1`. -/
def Pqueue.empty : Pqueue α := ⟨#[], fun _ => -1, Nat.zero_le _⟩

omit [DecidableEq α] in
theorem valid_empty : (Pqueue.empty : Pqueue α).Valid compare where
  ordered := fun _ _ _ hi => absurd hi (Nat.not_lt_zero _)
  indexed := fun _ hi => absurd hi (Nat.not_lt_zero _)
  absent := fun _ _ => rfl

omit [DecidableEq α] in
theorem Pqueue.mem_items {a : α} : a ∈ q.items ↔ a ∈ q.list := by
  rw [Pqueue.items, Multiset.mem_coe, Array.mem_toList_iff]

/-- **One call.** -/
theorem call_ok (hc : TotalPreorder compare) {e : Event α} {q' : Pqueue α} (hq : q.Valid compare)
    (h : CallRestores compare q e q') : q'.Valid compare ∧ SpecCall compare q.items e q'.items := by
  obtain ⟨hcall, hrest⟩ := h
  cases e with
  | add item =>
    obtain ⟨hitem, hadd⟩ := hcall
    obtain ⟨hvalid, hperm⟩ := smartlistPqueueAdd_ok hc hq hitem hadd
    exact ⟨hvalid, Multiset.coe_eq_coe.mpr hperm⟩
  | pop item =>
    obtain ⟨hvalid, hperm, hleast⟩ := smartlistPqueuePop_ok hc hq hcall
    exact ⟨hvalid, Multiset.coe_eq_coe.mpr hperm.symm, fun a ha =>
      hleast a (Pqueue.mem_items.mp ha)⟩
  | remove item =>
    obtain ⟨hitem, hremove⟩ := hcall
    obtain ⟨hvalid, hperm⟩ := smartlistPqueueRemove_ok hc hq hitem (hrest item rfl) hremove
    exact ⟨hvalid, Multiset.coe_eq_coe.mpr hperm.symm⟩

/-- **Heap integrity.**  Along every run whose removals find a last item that is not less than the parent
of the one that goes, the queue passes `smartlist_pqueue_assert_ok`, an item that is not queued has the
index `-1`, and the calls do what they do to a multiset, a `pop` returning a least item.  From there a
removal leaves a heap exactly if it is such a removal. -/
theorem pqueue_ok_of_run (hc : TotalPreorder compare) {events : List (Event α)} {q : Pqueue α}
    (hrun : Run (CallRestores compare) Pqueue.empty events q) :
    q.AssertOk compare ∧ (∀ a, a ∉ q.list → q.idx a = -1) ∧
      Run (SpecCall compare) 0 events q.items ∧
      ∀ item ∈ q.list, ∃ q', smartlistPqueueRemove compare q item = some q' ∧
        (q'.AssertOk compare ↔ Restores compare q item) := by
  have hsim : ∀ q e q' s, (s = q.items ∧ q.Valid compare) → CallRestores compare q e q' →
      ∃ s', SpecCall compare s e s' ∧ (s' = q'.items ∧ q'.Valid compare) := by
    rintro q e q' s ⟨rfl, hq⟩ hstep
    obtain ⟨hq', hspec⟩ := call_ok hc hq hstep
    exact ⟨q'.items, hspec, rfl, hq'⟩
  obtain ⟨s, hspec, rfl, hvalid⟩ :=
    hrun.simulation (R := fun q s => s = q.items ∧ q.Valid compare) hsim (t := 0) ⟨rfl, valid_empty⟩
  exact ⟨⟨hvalid.ordered, hvalid.indexed⟩, hvalid.absent, hspec,
    fun item hitem => assertOk_remove_iff hc hvalid hitem⟩

/-- An item that is not less than its parent stays at the end. -/
theorem smartlistPqueueAdd_of_le {item : α} (hroom : q.list.size < maxCapacity)
    (hle : 0 < q.list.size → ∀ hp : parent q.list.size < q.list.size,
      ¬compare item q.list[parent q.list.size] < 0) :
    smartlistPqueueAdd compare q item = some (q.push item hroom) := by
  rw [smartlistPqueueAdd, dif_pos hroom, pqueueAddLoop]
  split
  · rename_i h0
    have hp := parent_lt h0
    rw [if_neg]
    simp only [Pqueue.push, Array.getElem_push_eq, Array.getElem_push_lt hp]
    exact hle h0 hp
  · rfl

def natCompare (a b : ℕ) : ℤ := (a : ℤ) - b

theorem totalPreorder_natCompare : TotalPreorder natCompare where
  swap := by
    intro a b
    unfold natCompare
    omega
  trans := by
    intro a b c
    unfold natCompare
    omega

def threeItems : Pqueue ℕ := ((Pqueue.empty.push 3 (by decide)).push 5 (by decide)).push 4 (by decide)

/-- `4` takes the place of `5`, and then that of `3`. -/
def lastItem : Pqueue ℕ := (((threeItems.forget 5).moveLast 1 (by decide)).forget 3).moveLast 0 (by decide)

theorem run_lastItem :
    Run (CallRestores natCompare) Pqueue.empty [.add 3, .add 5, .add 4, .remove 5, .pop 3] lastItem := by
  have hremove : smartlistPqueueRemove natCompare threeItems 5 =
      some ((threeItems.forget 5).moveLast 1 (by decide)) := by
    show some (smartlistHeapify natCompare ((threeItems.forget 5).moveLast 1 (by decide)) 1) = _
    rw [smartlistHeapify]
    rfl
  have hpop : smartlistPqueuePop natCompare ((threeItems.forget 5).moveLast 1 (by decide)) = some (3, lastItem) := by
    show some (3, smartlistHeapify natCompare lastItem 0) = _
    rw [smartlistHeapify]
    rfl
  iterate 3
    refine .cons ⟨⟨rfl, smartlistPqueueAdd_of_le (by decide) (by decide)⟩, fun _ h => by cases h⟩ ?_
  refine .cons ⟨⟨Array.mem_iff_getElem.mpr ⟨1, by decide, rfl⟩, hremove⟩, fun item h => ?_⟩ ?_
  · cases h
    exact fun _ _ _ _ => show natCompare 3 4 ≤ 0 by decide
  · exact .cons ⟨hpop, fun _ h => by cases h⟩ (.nil _)

/-- A removal from the middle and a `pop`. -/
theorem pqueue_ok_lastItem :
    Run (CallRestores natCompare) Pqueue.empty [.add 3, .add 5, .add 4, .remove 5, .pop 3] lastItem ∧
      lastItem.items = {4} ∧ lastItem.AssertOk natCompare :=
  ⟨run_lastItem, rfl, (pqueue_ok_of_run totalPreorder_natCompare run_lastItem).1⟩

/-- The queue that `0`, `10`, `1`, `11`, `12`, `2` and `3` were added to. -/
def sevenItems : Pqueue ℕ :=
  ((((((Pqueue.empty.push 0 (by decide)).push 10 (by decide)).push 1 (by decide)).push 11
    (by decide)).push 12 (by decide)).push 2 (by decide)).push 3 (by decide)

/-- **A removal that leaves no heap**: `3` takes the place of `11`, below `10`. -/
theorem not_assertOk_sevenItems :
    ∃ q, Run (Call natCompare) Pqueue.empty
        [.add 0, .add 10, .add 1, .add 11, .add 12, .add 2, .add 3, .remove 11] q ∧
      ¬q.AssertOk natCompare := by
  have hremove : smartlistPqueueRemove natCompare sevenItems 11 =
      some (sevenItems.removeAt 3 (by decide)) := by
    show some (smartlistHeapify natCompare (sevenItems.removeAt 3 (by decide)) 3) = _
    rw [smartlistHeapify]
    rfl
  refine ⟨sevenItems.removeAt 3 (by decide), ?_, ?_⟩
  · iterate 7 refine .cons ⟨rfl, smartlistPqueueAdd_of_le (by decide) (by decide)⟩ ?_
    exact .cons ⟨Array.mem_iff_getElem.mpr ⟨3, by decide, rfl⟩, hremove⟩ (.nil _)
  · intro hok
    exact absurd (hok.1 3 (by decide) (by decide) (by decide)) (by decide)

end TorEbpf.Container
