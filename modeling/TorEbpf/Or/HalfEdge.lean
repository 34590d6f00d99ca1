import Mathlib
import TorEbpf.Container.Bsearch

/-!
# Half-closed streams

When a client closes a stream it keeps a `half_edge_t` for it in `half_streams` of the circuit, with the
numbers of cells that the exit can still send.  The functions of `connection_edge.c` find it by binary
search.

* `halfSorted_foldl` — whatever is added, checked and removed, the list stays strictly sorted by stream
  id;
* `add_spec`, `use_spec`, `isValidEnd_spec` — so the list is a map, and the functions are its operations.
-/

namespace TorEbpf.Or

open TorEbpf.Container

structure HalfEdge where
  streamId : UInt16
  sendmesPending : ℤ
  dataPending : ℤ
  connectedPending : Bool
deriving DecidableEq, Repr

/-- The states of a client's stream that are told apart here. -/
inductive ApConnState where
  | connectWait
  | resolveWait
  | opened
deriving DecidableEq, Repr

/-- The fields of an `edge_connection_t` that are read when it is closed. -/
structure EdgeConnection where
  streamId : UInt16
  state : ApConnState
  packageWindow : ℤ
  deliverWindow : ℤ
deriving DecidableEq, Repr

/-- `STREAMWINDOW_START` and `STREAMWINDOW_START_MAX`. -/
def streamwindowStart : ℤ := 500

def streamwindowIncrement : ℤ := 50

def connectionHalfEdgeCompareBsearch (key : UInt16) (member : HalfEdge) : ℤ :=
  (key.toNat : ℤ) - member.streamId.toNat

def connectionHalfEdgeFindStreamId (halfConns : List HalfEdge) (streamId : UInt16) : Option HalfEdge :=
  smartlistBsearch (connectionHalfEdgeCompareBsearch streamId) halfConns

/-- The half edge that `connection_half_edge_add` makes. -/
def halfEdgeOf (conn : EdgeConnection) : HalfEdge where
  streamId := conn.streamId
  sendmesPending := (streamwindowStart - conn.packageWindow).tdiv streamwindowIncrement
  dataPending := if conn.state = .resolveWait then 0 else conn.deliverWindow
  connectedPending := conn.state = .connectWait

def connectionHalfEdgeAdd (conn : EdgeConnection) (halfStreams : List HalfEdge) : List HalfEdge :=
  if (connectionHalfEdgeFindStreamId halfStreams conn.streamId).isSome then halfStreams
  else
    halfStreams.insertIdx
      (smartlistBsearchIdx (connectionHalfEdgeCompareBsearch conn.streamId) halfStreams).1 (halfEdgeOf conn)

/-- A check that uses up something of the half edge it finds: `use` is nothing if there is none left. -/
def useHalfEdge (use : HalfEdge → Option HalfEdge) (halfConns : List HalfEdge) (streamId : UInt16) :
    Bool × List HalfEdge :=
  match connectionHalfEdgeFindStreamId halfConns streamId with
  | none => (false, halfConns)
  | some half =>
      match use half with
      | none => (false, halfConns)
      | some half' =>
          (true, halfConns.set
            (smartlistBsearchIdx (connectionHalfEdgeCompareBsearch streamId) halfConns).1 half')

/-- One DATA cell less, if one is pending. -/
def HalfEdge.takeData (half : HalfEdge) : Option HalfEdge :=
  if 0 < half.dataPending then some { half with dataPending := half.dataPending - 1 } else none

/-- The CONNECTED cell, if it is pending. -/
def HalfEdge.takeConnected (half : HalfEdge) : Option HalfEdge :=
  if half.connectedPending then some { half with connectedPending := false } else none

/-- One SENDME cell less, if one is pending. -/
def HalfEdge.takeSendme (half : HalfEdge) : Option HalfEdge :=
  if 0 < half.sendmesPending then some { half with sendmesPending := half.sendmesPending - 1 } else none

def connectionHalfEdgeIsValidData : List HalfEdge → UInt16 → Bool × List HalfEdge :=
  useHalfEdge HalfEdge.takeData

def connectionHalfEdgeIsValidConnected : List HalfEdge → UInt16 → Bool × List HalfEdge :=
  useHalfEdge HalfEdge.takeConnected

def connectionHalfEdgeIsValidSendme : List HalfEdge → UInt16 → Bool × List HalfEdge :=
  useHalfEdge HalfEdge.takeSendme

/-- `connection_half_edge_is_valid_end`, and `connection_half_edge_is_valid_resolved`. -/
def connectionHalfEdgeIsValidEnd (halfConns : List HalfEdge) (streamId : UInt16) : Bool × List HalfEdge :=
  let found := smartlistBsearchIdx (connectionHalfEdgeCompareBsearch streamId) halfConns
  if found.2 then (true, halfConns.eraseIdx found.1) else (false, halfConns)

/-! ### The list as a map -/

def HalfSorted (l : List HalfEdge) : Prop := l.Pairwise fun a b => a.streamId.toNat < b.streamId.toNat

def halfLookup (l : List HalfEdge) (streamId : UInt16) : Option HalfEdge :=
  l.find? fun half => half.streamId = streamId

section Map

variable {l : List HalfEdge} {id id' : UInt16} {half : HalfEdge}

theorem HalfSorted.compare (h : HalfSorted l) (id : UInt16) :
    l.Pairwise fun a b =>
      connectionHalfEdgeCompareBsearch id b < connectionHalfEdgeCompareBsearch id a := by
  refine h.imp ?_
  intro a b hab
  unfold connectionHalfEdgeCompareBsearch
  omega

theorem HalfSorted.located (h : HalfSorted l) (id : UInt16) :
    (∃ pre half post, l = pre ++ half :: post ∧ half.streamId = id ∧
        smartlistBsearchIdx (connectionHalfEdgeCompareBsearch id) l = (pre.length, true) ∧
        (∀ x ∈ pre, x.streamId.toNat < id.toNat) ∧ ∀ x ∈ post, id.toNat < x.streamId.toNat) ∨
      ∃ pre post, l = pre ++ post ∧
        smartlistBsearchIdx (connectionHalfEdgeCompareBsearch id) l = (pre.length, false) ∧
        (∀ x ∈ pre, x.streamId.toNat < id.toNat) ∧ ∀ x ∈ post, id.toNat < x.streamId.toNat := by
  rcases hr : smartlistBsearchIdx (connectionHalfEdgeCompareBsearch id) l with ⟨i, found⟩
  have hloc := smartlistBsearchIdx_located (h.compare id)
  rw [hr] at hloc
  rcases hloc with ⟨hfound, half, hhalf, heq⟩ | ⟨hfound, hbelow, habove, hle⟩
  · left
    obtain ⟨hi, hget⟩ := List.getElem?_eq_some_iff.mp hhalf
    have hsplit : l = l.take i ++ half :: l.drop (i + 1) := by
      rw [← hget, List.getElem_cons_drop, List.take_append_drop]
    have hid : half.streamId = id := by
      unfold connectionHalfEdgeCompareBsearch at heq
      exact UInt16.toNat_inj.mp (by omega)
    have hpair := h
    unfold HalfSorted at hpair
    rw [hsplit] at hpair
    obtain ⟨_, hpost, hcross⟩ := List.pairwise_append.mp hpair
    refine ⟨l.take i, half, l.drop (i + 1), hsplit, hid, ?_, ?_, ?_⟩
    · rw [List.length_take, Nat.min_eq_left hi.le]
      exact Prod.ext rfl hfound
    · intro x hx
      have hlt := hcross x hx half List.mem_cons_self
      rwa [hid] at hlt
    · intro x hx
      have hlt := (List.pairwise_cons.mp hpost).1 x hx
      rwa [hid] at hlt
  · right
    refine ⟨l.take i, l.drop i, (List.take_append_drop i l).symm, ?_, ?_, ?_⟩
    · rw [List.length_take, Nat.min_eq_left hle]
      exact Prod.ext rfl hfound
    · intro x hx
      obtain ⟨j, hj, rfl⟩ := List.mem_take_iff_getElem.mp hx
      have hpos := hbelow j _ (List.getElem?_eq_getElem (by omega)) (by omega)
      unfold connectionHalfEdgeCompareBsearch at hpos
      omega
    · intro x hx
      obtain ⟨j, hj, rfl⟩ := List.mem_drop_iff_getElem.mp hx
      have hneg := habove (i + j) _ (List.getElem?_eq_getElem (by omega)) (Nat.le_add_right i j)
      unfold connectionHalfEdgeCompareBsearch at hneg
      omega

theorem halfLookup_append (pre : List HalfEdge) (half : HalfEdge) (post : List HalfEdge) :
    halfLookup (pre ++ half :: post) id =
      (halfLookup pre id).or (if half.streamId = id then some half else halfLookup post id) := by
  rw [halfLookup, List.find?_append, List.find?_cons]
  by_cases hid : half.streamId = id
  · simp [halfLookup, hid]
  · simp [halfLookup, hid]

theorem halfLookup_eq_none (h : ∀ x ∈ l, x.streamId ≠ id) : halfLookup l id = none := by
  refine List.find?_eq_none.mpr ?_
  intro x hx
  simpa using h x hx

theorem ne_of_toNat_lt {a b : UInt16} (h : a.toNat < b.toNat) : a ≠ b := by
  rintro rfl
  exact absurd h (Nat.lt_irrefl _)

theorem halfLookup_apart {pre post : List HalfEdge} (hpre : ∀ x ∈ pre, x.streamId.toNat < id.toNat)
    (hpost : ∀ x ∈ post, id.toNat < x.streamId.toNat) : halfLookup (pre ++ post) id = none := by
  refine halfLookup_eq_none ?_
  intro x hx
  rcases List.mem_append.mp hx with hx | hx
  · exact ne_of_toNat_lt (hpre x hx)
  · exact (ne_of_toNat_lt (hpost x hx)).symm

theorem halfLookup_insert_self {pre post : List HalfEdge} (hpre : ∀ x ∈ pre, x.streamId.toNat < id.toNat)
    (hid : half.streamId = id) : halfLookup (pre ++ half :: post) id = some half := by
  rw [halfLookup_append, halfLookup_eq_none fun x hx => ne_of_toNat_lt (hpre x hx), if_pos hid]
  rfl

theorem halfLookup_insert_ne {pre post : List HalfEdge} (hne : half.streamId ≠ id) :
    halfLookup (pre ++ half :: post) id = halfLookup (pre ++ post) id := by
  rw [halfLookup_append, if_neg hne, halfLookup, halfLookup, halfLookup, List.find?_append]

theorem find_eq_halfLookup (h : HalfSorted l) (id : UInt16) :
    connectionHalfEdgeFindStreamId l id = halfLookup l id := by
  rw [connectionHalfEdgeFindStreamId, smartlistBsearch]
  rcases h.located id with ⟨pre, half, post, rfl, hid, hidx, hpre, _⟩ | ⟨pre, post, rfl, hidx, hpre, hpost⟩
  · rw [hidx, halfLookup_insert_self hpre hid]
    simp
  · rw [hidx, halfLookup_apart hpre hpost]
    rfl

theorem halfSorted_append {pre post : List HalfEdge} :
    HalfSorted (pre ++ half :: post) ↔ HalfSorted (pre ++ post) ∧
      (∀ x ∈ pre, x.streamId.toNat < half.streamId.toNat) ∧
      ∀ x ∈ post, half.streamId.toNat < x.streamId.toNat := by
  unfold HalfSorted
  rw [List.pairwise_append, List.pairwise_append, List.pairwise_cons]
  constructor
  · rintro ⟨hpre, ⟨hhalf, hpost⟩, hcross⟩
    exact ⟨⟨hpre, hpost, fun a ha b hb => hcross a ha b (List.mem_cons_of_mem half hb)⟩,
      fun x hx => hcross x hx half List.mem_cons_self, hhalf⟩
  · rintro ⟨⟨hpre, hpost, hcross⟩, hlow, hhigh⟩
    refine ⟨hpre, ⟨hhigh, hpost⟩, ?_⟩
    intro a ha b hb
    rcases List.mem_cons.mp hb with rfl | hb
    · exact hlow a ha
    · exact hcross a ha b hb

theorem insertIdx_length_append (pre post : List HalfEdge) (half : HalfEdge) :
    (pre ++ post).insertIdx pre.length half = pre ++ half :: post := by
  induction pre with
  | nil => exact List.insertIdx_zero
  | cons x pre ih =>
    rw [List.cons_append, List.length_cons, List.insertIdx_succ_cons, ih, List.cons_append]

/-- **Adding** keeps the order, and adds the half edge if there is none with its id. -/
theorem add_spec (h : HalfSorted l) (conn : EdgeConnection) :
    HalfSorted (connectionHalfEdgeAdd conn l) ∧
      ∀ id, halfLookup (connectionHalfEdgeAdd conn l) id =
        if id = conn.streamId then (halfLookup l id).or (some (halfEdgeOf conn)) else halfLookup l id := by
  rw [connectionHalfEdgeAdd, find_eq_halfLookup h]
  rcases h.located conn.streamId with
    ⟨pre, half, post, rfl, hid, hidx, hpre, _⟩ | ⟨pre, post, rfl, hidx, hpre, hpost⟩
  · rw [halfLookup_insert_self hpre hid, Option.isSome_some, if_pos rfl]
    refine ⟨h, ?_⟩
    intro id
    split_ifs with heq
    · rw [heq, halfLookup_insert_self hpre hid]
      rfl
    · rfl
  · rw [halfLookup_apart hpre hpost, Option.isSome_none, if_neg Bool.false_ne_true, hidx,
      insertIdx_length_append]
    refine ⟨halfSorted_append.mpr ⟨h, hpre, hpost⟩, ?_⟩
    intro id
    split_ifs with heq
    · rw [heq, halfLookup_insert_self hpre rfl, halfLookup_apart hpre hpost]
      rfl
    · exact halfLookup_insert_ne fun hne => heq hne.symm

/-- **Ending** keeps the order, and takes the half edge with the id away. -/
theorem isValidEnd_spec (h : HalfSorted l) (id : UInt16) :
    (connectionHalfEdgeIsValidEnd l id).1 = (halfLookup l id).isSome ∧
      HalfSorted (connectionHalfEdgeIsValidEnd l id).2 ∧
      ∀ id', halfLookup (connectionHalfEdgeIsValidEnd l id).2 id' =
        if id' = id then none else halfLookup l id' := by
  rw [connectionHalfEdgeIsValidEnd]
  rcases h.located id with ⟨pre, half, post, rfl, hid, hidx, hpre, hpost⟩ | ⟨pre, post, rfl, hidx, hpre, hpost⟩
  · have herase : (pre ++ half :: post).eraseIdx pre.length = pre ++ post := by
      rw [List.eraseIdx_append_of_length_le (Nat.le_refl _), Nat.sub_self, List.eraseIdx_zero, List.tail_cons]
    simp only [hidx, if_true, herase]
    refine ⟨by rw [halfLookup_insert_self hpre hid]; rfl, (halfSorted_append.mp h).1, ?_⟩
    intro id'
    split_ifs with heq
    · rw [heq, halfLookup_apart hpre hpost]
    · exact (halfLookup_insert_ne fun hne => heq (hne.symm.trans hid)).symm
  · simp only [hidx, Bool.false_eq_true, if_false]
    refine ⟨by rw [halfLookup_apart hpre hpost]; rfl, h, ?_⟩
    intro id'
    split_ifs with heq
    · rw [heq, halfLookup_apart hpre hpost]
    · rfl

/-- **Using** keeps the order and the ids, and changes the half edge with the id only. -/
theorem use_spec {use : HalfEdge → Option HalfEdge}
    (huse : ∀ a b, use a = some b → b.streamId = a.streamId) (h : HalfSorted l) (id : UInt16) :
    (useHalfEdge use l id).1 = ((halfLookup l id).bind use).isSome ∧
      HalfSorted (useHalfEdge use l id).2 ∧
      ∀ id', halfLookup (useHalfEdge use l id).2 id' =
        if id' = id then ((halfLookup l id).bind use).or (halfLookup l id) else halfLookup l id' := by
  rw [useHalfEdge, find_eq_halfLookup h]
  rcases h.located id with ⟨pre, half, post, rfl, hid, hidx, hpre, hpost⟩ | ⟨pre, post, rfl, hidx, hpre, hpost⟩
  · have hlook : halfLookup (pre ++ half :: post) id = some half := halfLookup_insert_self hpre hid
    rw [hlook]
    cases hu : use half with
    | none =>
      simp only [hu, Option.bind_some]
      refine ⟨rfl, h, ?_⟩
      intro id'
      split_ifs with heq
      · rw [heq, hlook]
        rfl
      · rfl
    | some half' =>
      have hid' : half'.streamId = id := (huse half half' hu).trans hid
      have hset : (pre ++ half :: post).set pre.length half' = pre ++ half' :: post := by
        rw [List.set_append_right _ _ (Nat.le_refl _), Nat.sub_self, List.set_cons_zero]
      simp only [hidx, hset, hu, Option.bind_some]
      refine ⟨rfl, halfSorted_append.mpr ⟨(halfSorted_append.mp h).1, ?_, ?_⟩, ?_⟩
      · rw [hid']
        exact hpre
      · rw [hid']
        exact hpost
      · intro id''
        split_ifs with heq
        · rw [heq, halfLookup_insert_self hpre hid']
          rfl
        · rw [halfLookup_insert_ne fun hne => heq (hne.symm.trans hid'),
            halfLookup_insert_ne fun hne => heq (hne.symm.trans hid)]
  · simp only [halfLookup_apart hpre hpost, Option.bind_none, Option.isSome_none]
    refine ⟨trivial, h, ?_⟩
    intro id'
    split_ifs with heq
    · rw [heq, halfLookup_apart hpre hpost]
      rfl
    · rfl

inductive HalfOp where
  | add (conn : EdgeConnection)
  | data (streamId : UInt16)
  | connected (streamId : UInt16)
  | sendme (streamId : UInt16)
  | ended (streamId : UInt16)

/-- The stream that a call is for. -/
def HalfOp.streamId : HalfOp → UInt16
  | .add conn => conn.streamId
  | .data id => id
  | .connected id => id
  | .sendme id => id
  | .ended id => id

def HalfOp.apply (l : List HalfEdge) : HalfOp → List HalfEdge
  | .add conn => connectionHalfEdgeAdd conn l
  | .data id => (connectionHalfEdgeIsValidData l id).2
  | .connected id => (connectionHalfEdgeIsValidConnected l id).2
  | .sendme id => (connectionHalfEdgeIsValidSendme l id).2
  | .ended id => (connectionHalfEdgeIsValidEnd l id).2

theorem streamId_takeData {a b : HalfEdge} (h : a.takeData = some b) : b.streamId = a.streamId := by
  unfold HalfEdge.takeData at h
  split_ifs at h
  cases h
  rfl

theorem streamId_takeConnected {a b : HalfEdge} (h : a.takeConnected = some b) :
    b.streamId = a.streamId := by
  unfold HalfEdge.takeConnected at h
  split_ifs at h
  cases h
  rfl

theorem streamId_takeSendme {a b : HalfEdge} (h : a.takeSendme = some b) : b.streamId = a.streamId := by
  unfold HalfEdge.takeSendme at h
  split_ifs at h
  cases h
  rfl

/-- **Every call keeps the order**, and leaves the half edges of other streams alone. -/
theorem HalfOp.apply_spec (h : HalfSorted l) (op : HalfOp) :
    HalfSorted (op.apply l) ∧ ∀ id, id ≠ op.streamId → halfLookup (op.apply l) id = halfLookup l id := by
  have huse : ∀ use : HalfEdge → Option HalfEdge, (∀ a b, use a = some b → b.streamId = a.streamId) →
      ∀ i, HalfSorted (useHalfEdge use l i).2 ∧
        ∀ id, id ≠ i → halfLookup (useHalfEdge use l i).2 id = halfLookup l id := by
    intro use hid i
    obtain ⟨_, hsorted, hlook⟩ := use_spec hid h i
    exact ⟨hsorted, fun id hne => (hlook id).trans (if_neg hne)⟩
  cases op with
  | add conn =>
    obtain ⟨hsorted, hlook⟩ := add_spec h conn
    exact ⟨hsorted, fun id hne => (hlook id).trans (if_neg hne)⟩
  | data i => exact huse _ (fun _ _ => streamId_takeData) i
  | connected i => exact huse _ (fun _ _ => streamId_takeConnected) i
  | sendme i => exact huse _ (fun _ _ => streamId_takeSendme) i
  | ended i =>
    obtain ⟨_, hsorted, hlook⟩ := isValidEnd_spec h i
    exact ⟨hsorted, fun id hne => (hlook id).trans (if_neg hne)⟩

/-- **Any sequence of calls** keeps the order. -/
theorem halfSorted_foldl (ops : List HalfOp) (h : HalfSorted l) : HalfSorted (ops.foldl HalfOp.apply l) := by
  induction ops generalizing l with
  | nil => exact h
  | cons op ops ih => exact ih (op.apply_spec h).1

end Map

end TorEbpf.Or
