import Mathlib
import TorEbpf.Lib.Events
import TorEbpf.Or.HalfEdge

/-!
# Closing a stream while cells are on their way

A client and an honest exit exchange DATA and SENDME cells on a stream, each direction in order.  The
client can close the stream at any moment; what the exit has sent, or sends before the END cell reaches
it, is then checked against the half edge that the client keeps.

* `StreamInv` — the windows of the two ends and the cells on their way balance;
* `inv_of_step` — every event keeps the balance;
* `accepted_of_run` — so no cell of an honest exit is refused, and `half_streams` stays sorted.
-/

namespace TorEbpf.Or

open TorEbpf.Lib

/-! ### The two ends -/

inductive StreamCell where
  | connected
  | data
  | sendme
  | ended
deriving DecidableEq, Repr

/-- The stream at the client: `closed` by the client, or `ended` by the exit. -/
inductive ClientState where
  | connectWait
  | opened
  | closed
  | ended
deriving DecidableEq, Repr

/-- The stream at the exit: `ended` by the exit, or `told` that the client has closed it. -/
inductive ExitState where
  | connecting
  | opened
  | ended
  | told
deriving DecidableEq, Repr

/-- The exit still has the stream. -/
def ExitState.live : ExitState → Bool
  | .connecting => true
  | .opened => true
  | .ended => false
  | .told => false

/-- The client's circuit, the exit's stream, and the cells on their way.  `rejected` records that an end
has refused a cell. -/
structure StreamNet where
  client : ClientState
  clientPackage : ℤ
  clientDeliver : ℤ
  halfStreams : List HalfEdge
  exit : ExitState
  exitPackage : ℤ
  exitDeliver : ℤ
  toExit : List StreamCell
  toClient : List StreamCell
  rejected : Bool

/-- The loop of `sendme_connection_edge_consider_sending`: the new window, and how many SENDME cells are
sent. -/
def considerSending (deliverWindow : ℤ) : ℤ × ℕ :=
  if deliverWindow ≤ streamwindowStart - streamwindowIncrement then
    ((considerSending (deliverWindow + streamwindowIncrement)).1,
      (considerSending (deliverWindow + streamwindowIncrement)).2 + 1)
  else (deliverWindow, 0)
termination_by (501 - deliverWindow).toNat
decreasing_by
  all_goals
    unfold streamwindowStart streamwindowIncrement at *
    omega

/-- The exit takes a cell from the client. -/
def exitReceiveCell (s : StreamNet) : StreamCell → StreamNet
  | .data =>
      if s.exitDeliver - 1 < 0 then { s with rejected := true }
      else { s with exitDeliver := s.exitDeliver - 1 }
  | .sendme =>
      -- `sendme_process_stream_level`
      if streamwindowStart < s.exitPackage + streamwindowIncrement then { s with rejected := true }
      else { s with exitPackage := s.exitPackage + streamwindowIncrement }
  | .ended => { s with exit := .told }
  | .connected => s

def waitingReceiveCell (s : StreamNet) : StreamCell → StreamNet
  | .connected => { s with client := .opened }
  | .ended => { s with client := .ended }
  | _ => { s with rejected := true }

def openReceiveCell (s : StreamNet) : StreamCell → StreamNet
  | .connected => { s with rejected := true }
  | .data =>
      if s.clientDeliver - 1 < 0 then { s with rejected := true }
      else { s with clientDeliver := s.clientDeliver - 1 }
  | .sendme =>
      if streamwindowStart < s.clientPackage + streamwindowIncrement then { s with rejected := true }
      else { s with clientPackage := s.clientPackage + streamwindowIncrement }
  | .ended => { s with client := .ended }

/-- The check of a cell for a stream that the client does not have any more. -/
def halfEdgeCheck (halfStreams : List HalfEdge) (id : UInt16) : StreamCell → Bool × List HalfEdge
  | .connected => connectionHalfEdgeIsValidConnected halfStreams id
  | .data => connectionHalfEdgeIsValidData halfStreams id
  | .sendme => connectionHalfEdgeIsValidSendme halfStreams id
  | .ended => connectionHalfEdgeIsValidEnd halfStreams id

/-- The client takes a cell for a stream that it does not have any more. -/
def goneReceiveCell (id : UInt16) (s : StreamNet) (cell : StreamCell) : StreamNet :=
  { s with
    halfStreams := (halfEdgeCheck s.halfStreams id cell).2
    rejected := s.rejected || !(halfEdgeCheck s.halfStreams id cell).1 }

def clientReceiveCell (id : UInt16) (s : StreamNet) (cell : StreamCell) : StreamNet :=
  match s.client with
  | .connectWait => waitingReceiveCell s cell
  | .opened => openReceiveCell s cell
  | .closed => goneReceiveCell id s cell
  | .ended => goneReceiveCell id s cell

/-- `connection_edge_end` at the client, in the given state. -/
def clientEnd (id : UInt16) (s : StreamNet) (state : ApConnState) : StreamNet :=
  { s with
    client := .closed
    halfStreams := connectionHalfEdgeAdd ⟨id, state, s.clientPackage, s.clientDeliver⟩ s.halfStreams
    toExit := s.toExit ++ [.ended] }

/-- What can happen.  `other` is a call for another stream of the circuit. -/
inductive StreamEvent where
  | clientData
  | clientConsider
  | clientReceive
  | clientClose
  | exitConnect
  | exitData
  | exitConsider
  | exitReceive
  | exitEnd
  | other (op : HalfOp)

/-- One event on the stream `id`; nothing if it cannot happen. -/
def streamStep (id : UInt16) (s : StreamNet) : StreamEvent → Option StreamNet
  | .clientData =>
      -- also while the stream is not open, as optimistic data
      if (s.client = .connectWait ∨ s.client = .opened) ∧ 0 < s.clientPackage then
        some { s with clientPackage := s.clientPackage - 1, toExit := s.toExit ++ [.data] }
      else none
  | .clientConsider =>
      if s.client = .opened then
        some { s with
          clientDeliver := (considerSending s.clientDeliver).1
          toExit := s.toExit ++ List.replicate (considerSending s.clientDeliver).2 .sendme }
      else none
  | .clientReceive =>
      match s.toClient with
      | [] => none
      | cell :: rest => some (clientReceiveCell id { s with toClient := rest } cell)
  | .clientClose =>
      match s.client with
      | .connectWait => some (clientEnd id s .connectWait)
      | .opened => some (clientEnd id s .opened)
      | _ => none
  | .exitConnect =>
      if s.exit = .connecting then
        some { s with exit := .opened, toClient := s.toClient ++ [.connected] }
      else none
  | .exitData =>
      if s.exit = .opened ∧ 0 < s.exitPackage then
        some { s with exitPackage := s.exitPackage - 1, toClient := s.toClient ++ [.data] }
      else none
  | .exitConsider =>
      -- not for optimistic data: a SENDME cell could arrive before the CONNECTED cell
      if s.exit = .opened then
        some { s with
          exitDeliver := (considerSending s.exitDeliver).1
          toClient := s.toClient ++ List.replicate (considerSending s.exitDeliver).2 .sendme }
      else none
  | .exitReceive =>
      match s.toExit with
      | [] => none
      | cell :: rest =>
          if s.exit.live then some (exitReceiveCell { s with toExit := rest } cell)
          else some { s with toExit := rest }
  | .exitEnd =>
      if s.exit.live then some { s with exit := .ended, toClient := s.toClient ++ [.ended] } else none
  | .other op => if op.streamId ≠ id then some { s with halfStreams := op.apply s.halfStreams } else none

def newStream (halfStreams : List HalfEdge) : StreamNet :=
  ⟨.connectWait, streamwindowStart, streamwindowStart, halfStreams,
    .connecting, streamwindowStart, streamwindowStart, [], [], false⟩

/-! ### The balance -/

/-- DATA cells that the exit has sent and the client has not got, and those that the exit can still send. -/
def dataDue (s : StreamNet) : ℤ :=
  s.toClient.count .data + if s.exit.live then s.exitPackage + 50 * s.toExit.count .sendme else 0

/-- The DATA cells that the exit has got, or will get, and has not acknowledged. -/
def unacknowledged (s : StreamNet) : ℤ :=
  if s.exit.live then 500 - s.exitDeliver + s.toExit.count .data else 0

/-- The windows of a client that has the stream. -/
structure Balanced (s : StreamNet) : Prop where
  deliver : dataDue s ≤ s.clientDeliver
  deliverMax : s.clientDeliver ≤ 500
  package : 50 * s.toClient.count .sendme + unacknowledged s ≤ 500 - s.clientPackage
  packageMin : 0 ≤ s.clientPackage

/-- The half edge allows for what is due. -/
structure Covers (s : StreamNet) (half : HalfEdge) : Prop where
  data : dataDue s ≤ half.dataPending
  sendmes : s.toClient.count .sendme + unacknowledged s / 50 ≤ half.sendmesPending
  connected : s.exit = .connecting ∨ .connected ∈ s.toClient → half.connectedPending = true

def ClientInv (id : UInt16) (s : StreamNet) : Prop :=
  match s.client with
  | .connectWait =>
      halfLookup s.halfStreams id = none ∧ Balanced s ∧ s.exit ≠ .told ∧
        (s.exit = .connecting ∨ (∃ rest, s.toClient = .connected :: rest) ∨ s.toClient = [.ended])
  | .opened =>
      halfLookup s.halfStreams id = none ∧ Balanced s ∧ s.exit ≠ .told ∧ s.exit ≠ .connecting ∧
        .connected ∉ s.toClient
  | .closed =>
      (s.toClient = [] ∧ s.exit = .ended) ∨ ∃ half, halfLookup s.halfStreams id = some half ∧ Covers s half
  | .ended => s.toClient = [] ∧ s.exit = .ended

/-- **The invariant.** -/
structure StreamInv (id : UInt16) (s : StreamNet) : Prop where
  sorted : HalfSorted s.halfStreams
  accepted : s.rejected = false
  exitDeliver : s.exit.live = true → s.toExit.count .data ≤ s.exitDeliver ∧ s.exitDeliver ≤ 500
  exitPackage : s.exit.live = true → s.exitPackage + 50 * s.toExit.count .sendme ≤ 500
  exitPackageMin : 0 ≤ s.exitPackage
  connecting : s.exit = .connecting → s.toClient = []
  ended : s.exit = .ended → s.toClient = [] ∨ ∃ pre, s.toClient = pre ++ [.ended] ∧ .ended ∉ pre
  notEnded : s.exit ≠ .ended → .ended ∉ s.toClient
  once : s.toClient.count .connected ≤ 1
  notTold : s.client ≠ .closed → .ended ∉ s.toExit
  client : ClientInv id s

/-! ### Events -/

section Events

variable {id : UInt16} {s s' : StreamNet}

/-- SENDME cells give back what they were sent for, and no more than the window. -/
theorem considerSending_spec (w : ℤ) :
    (considerSending w).1 = w + 50 * (considerSending w).2 ∧ (w ≤ 500 → (considerSending w).1 ≤ 500) := by
  induction w using considerSending.induct with
  | case1 w hle ih =>
    rw [considerSending, if_pos hle]
    unfold streamwindowStart streamwindowIncrement at *
    obtain ⟨heq, hmax⟩ := ih
    refine ⟨?_, fun _ => hmax (by omega)⟩
    rw [heq]
    push_cast
    omega
  | case2 w hgt =>
    rw [considerSending, if_neg hgt]
    exact ⟨by simp, id⟩

theorem clientInv_connectWait (h : s.client = .connectWait) :
    ClientInv id s ↔ halfLookup s.halfStreams id = none ∧ Balanced s ∧ s.exit ≠ .told ∧
      (s.exit = .connecting ∨ (∃ rest, s.toClient = .connected :: rest) ∨ s.toClient = [.ended]) := by
  simp only [ClientInv, h]

theorem clientInv_opened (h : s.client = .opened) :
    ClientInv id s ↔ halfLookup s.halfStreams id = none ∧ Balanced s ∧ s.exit ≠ .told ∧
      s.exit ≠ .connecting ∧ .connected ∉ s.toClient := by
  simp only [ClientInv, h]

theorem clientInv_closed (h : s.client = .closed) :
    ClientInv id s ↔ (s.toClient = [] ∧ s.exit = .ended) ∨
      ∃ half, halfLookup s.halfStreams id = some half ∧ Covers s half := by
  simp only [ClientInv, h]

theorem clientInv_ended (h : s.client = .ended) :
    ClientInv id s ↔ s.toClient = [] ∧ s.exit = .ended := by
  simp only [ClientInv, h]

/-- A client that has the stream: its windows balance, and there is no half edge. -/
theorem StreamInv.hasStream (h : StreamInv id s) (hc : s.client = .connectWait ∨ s.client = .opened) :
    halfLookup s.halfStreams id = none ∧ Balanced s ∧ s.exit ≠ .told := by
  rcases hc with hc | hc
  · obtain ⟨h1, h2, h3, _⟩ := (clientInv_connectWait hc).mp h.client
    exact ⟨h1, h2, h3⟩
  · obtain ⟨h1, h2, h3, _⟩ := (clientInv_opened hc).mp h.client
    exact ⟨h1, h2, h3⟩

/-- An event that leaves the client's state, the half edges, the exit's state and the cells to the client
as they are keeps what the client knows, if it keeps the balance. -/
theorem ClientInv.of_windows (h : ClientInv id s) (hclient : s'.client = s.client)
    (hhalf : s'.halfStreams = s.halfStreams) (hexit : s'.exit = s.exit) (hcells : s'.toClient = s.toClient)
    (hbal : s.client = .connectWait ∨ s.client = .opened → Balanced s → Balanced s')
    (hcov : s.client = .closed → ∀ half, Covers s half → Covers s' half) : ClientInv id s' := by
  cases hc : s.client with
  | connectWait =>
    obtain ⟨h1, h2, h3⟩ := (clientInv_connectWait hc).mp h
    refine (clientInv_connectWait (hclient.trans hc)).mpr ⟨by rw [hhalf]; exact h1, hbal (.inl hc) h2, ?_⟩
    rw [hexit, hcells]
    exact h3
  | opened =>
    obtain ⟨h1, h2, h3⟩ := (clientInv_opened hc).mp h
    refine (clientInv_opened (hclient.trans hc)).mpr ⟨by rw [hhalf]; exact h1, hbal (.inr hc) h2, ?_⟩
    rw [hexit, hcells]
    exact h3
  | closed =>
    refine (clientInv_closed (hclient.trans hc)).mpr ?_
    rw [hexit, hcells, hhalf]
    rcases (clientInv_closed hc).mp h with hdone | ⟨half, hlook, hcovers⟩
    · exact .inl hdone
    · exact .inr ⟨half, hlook, hcov hc half hcovers⟩
  | ended =>
    refine (clientInv_ended (hclient.trans hc)).mpr ?_
    rw [hexit, hcells]
    exact (clientInv_ended hc).mp h

theorem inv_newStream {halfStreams : List HalfEdge} (hsorted : HalfSorted halfStreams)
    (hfree : halfLookup halfStreams id = none) : StreamInv id (newStream halfStreams) := by
  have hbal : Balanced (newStream halfStreams) := by
    constructor <;> simp [newStream, streamwindowStart, dataDue, unacknowledged, ExitState.live]
  refine ⟨hsorted, rfl, ?_, ?_, ?_, fun _ => rfl, fun h => ?_, fun _ => List.not_mem_nil, ?_,
    fun _ => List.not_mem_nil, ?_⟩
  · simp [newStream, streamwindowStart]
  · simp [newStream, streamwindowStart]
  · simp [newStream, streamwindowStart]
  · cases h
  · simp [newStream]
  · exact (clientInv_connectWait rfl).mpr ⟨hfree, hbal, by simp [newStream], .inl rfl⟩

theorem inv_clientData (h : StreamInv id s) (hs : streamStep id s .clientData = some s') :
    StreamInv id s' := by
  simp only [streamStep] at hs
  split_ifs at hs with hcond
  cases hs
  obtain ⟨hstate, hpos⟩ := hcond
  obtain ⟨_, hbal, _⟩ := h.hasStream hstate
  refine ⟨h.sorted, h.accepted, ?_, ?_, h.exitPackageMin, h.connecting, h.ended, h.notEnded, h.once, ?_,
    ?_⟩
  · intro hlive
    have hdel := h.exitDeliver hlive
    have hpack := hbal.package
    simp only [unacknowledged, hlive, if_true] at hpack
    simp only [List.count_append, List.count_singleton_self]
    omega
  · intro hlive
    simpa using h.exitPackage hlive
  · intro hclosed
    simpa using h.notTold hclosed
  · refine h.client.of_windows rfl rfl rfl rfl ?_ ?_
    · rintro _ ⟨h1, h2, h3, h4⟩
      refine ⟨by simpa [dataDue] using h1, h2, ?_, by simp only; omega⟩
      simp only [unacknowledged, List.count_append, List.count_singleton_self] at h3 ⊢
      split_ifs at h3 ⊢ <;> omega
    · intro hclosed
      rw [hclosed] at hstate
      rcases hstate with hstate | hstate <;> cases hstate

theorem inv_clientConsider (h : StreamInv id s) (hs : streamStep id s .clientConsider = some s') :
    StreamInv id s' := by
  simp only [streamStep] at hs
  split_ifs at hs with hstate
  cases hs
  obtain ⟨_, hbal, _⟩ := h.hasStream (.inr hstate)
  obtain ⟨heq, hmax⟩ := considerSending_spec s.clientDeliver
  have hmax' := hmax hbal.deliverMax
  refine ⟨h.sorted, h.accepted, ?_, ?_, h.exitPackageMin, h.connecting, h.ended, h.notEnded, h.once, ?_,
    ?_⟩
  · intro hlive
    simpa [List.count_replicate] using h.exitDeliver hlive
  · intro hlive
    have hdue := hbal.deliver
    simp only [dataDue, hlive, if_true] at hdue
    simp only [List.count_append, List.count_replicate_self]
    omega
  · intro hclosed
    simpa [List.mem_replicate] using h.notTold hclosed
  · refine h.client.of_windows rfl rfl rfl rfl ?_ ?_
    · rintro _ ⟨h1, h2, h3, h4⟩
      refine ⟨?_, hmax', by simpa [unacknowledged, List.count_replicate] using h3, h4⟩
      simp only [dataDue, List.count_append, List.count_replicate_self] at h1 ⊢
      split_ifs at h1 ⊢ <;> omega
    · intro hclosed
      rw [hclosed] at hstate
      cases hstate

theorem ClientInv.of_sent {c : List StreamCell} (h : StreamInv id s) (hlive : s.exit.live = true)
    (hclient : s'.client = s.client) (hhalf : s'.halfStreams = s.halfStreams)
    (hcells : s'.toClient = s.toClient ++ c) (hnew : .connected ∉ c)
    (hexit : s'.exit ≠ .told ∧ s'.exit ≠ .connecting) (hwait : s.exit = .connecting → c = [.ended])
    (hbal : Balanced s → Balanced s') (hcov : ∀ half, Covers s half → Covers s' half) :
    ClientInv id s' := by
  have hnotEnded : s.exit ≠ .ended := by
    intro he
    rw [he] at hlive
    cases hlive
  cases hc : s.client with
  | connectWait =>
    obtain ⟨h1, h2, _, hpos⟩ := (clientInv_connectWait hc).mp h.client
    refine (clientInv_connectWait (hclient.trans hc)).mpr ⟨by rw [hhalf]; exact h1, hbal h2, hexit.1, ?_⟩
    rw [hcells]
    rcases hpos with hconn | ⟨rest, hrest⟩ | hend
    · rw [h.connecting hconn, hwait hconn]
      exact .inr (.inr rfl)
    · rw [hrest]
      exact .inr (.inl ⟨rest ++ c, rfl⟩)
    · exact absurd (by rw [hend]; exact List.mem_singleton_self _) (h.notEnded hnotEnded)
  | opened =>
    obtain ⟨h1, h2, _, _, hnot⟩ := (clientInv_opened hc).mp h.client
    refine (clientInv_opened (hclient.trans hc)).mpr ⟨by rw [hhalf]; exact h1, hbal h2, hexit.1, hexit.2, ?_⟩
    rw [hcells, List.mem_append, not_or]
    exact ⟨hnot, hnew⟩
  | closed =>
    refine (clientInv_closed (hclient.trans hc)).mpr ?_
    rw [hhalf]
    rcases (clientInv_closed hc).mp h.client with ⟨_, hdone⟩ | ⟨half, hlook, hcovers⟩
    · exact absurd hdone hnotEnded
    · exact .inr ⟨half, hlook, hcov half hcovers⟩
  | ended => exact absurd ((clientInv_ended hc).mp h.client).2 hnotEnded

theorem ClientInv.of_connected (h : StreamInv id s) (hconn : s.exit = .connecting)
    (hclient : s'.client = s.client) (hhalf : s'.halfStreams = s.halfStreams)
    (hcells : s'.toClient = [.connected]) (hexit : s'.exit = .opened)
    (hbal : Balanced s → Balanced s')
    (hcov : ∀ half, half.connectedPending = true → Covers s half → Covers s' half) : ClientInv id s' := by
  cases hc : s.client with
  | connectWait =>
    obtain ⟨h1, h2, _⟩ := (clientInv_connectWait hc).mp h.client
    refine (clientInv_connectWait (hclient.trans hc)).mpr ⟨by rw [hhalf]; exact h1, hbal h2, ?_, ?_⟩
    · rw [hexit]
      decide
    · exact .inr (.inl ⟨[], hcells⟩)
  | opened => exact absurd hconn ((clientInv_opened hc).mp h.client).2.2.2.1
  | closed =>
    refine (clientInv_closed (hclient.trans hc)).mpr ?_
    rw [hhalf]
    rcases (clientInv_closed hc).mp h.client with ⟨_, hdone⟩ | ⟨half, hlook, hcovers⟩
    · rw [hconn] at hdone
      cases hdone
    · exact .inr ⟨half, hlook, hcov half (hcovers.connected (.inl hconn)) hcovers⟩
  | ended =>
    have hdone := ((clientInv_ended hc).mp h.client).2
    rw [hconn] at hdone
    cases hdone

theorem inv_exitConnect (h : StreamInv id s) (hs : streamStep id s .exitConnect = some s') :
    StreamInv id s' := by
  simp only [streamStep] at hs
  split_ifs at hs with hconn
  cases hs
  have hnil := h.connecting hconn
  have hlive : s.exit.live = true := by
    rw [hconn]
    rfl
  refine ⟨h.sorted, h.accepted, fun _ => h.exitDeliver hlive, fun _ => h.exitPackage hlive,
    h.exitPackageMin, nofun, nofun, ?_, ?_, h.notTold, ?_⟩
  · intro _
    simp [hnil]
  · simp [hnil]
  · refine ClientInv.of_connected h hconn rfl rfl (by simp [hnil]) rfl ?_ ?_
    · rintro ⟨b1, b2, b3, b4⟩
      refine ⟨?_, b2, ?_, b4⟩
      · simpa [dataDue, hconn, ExitState.live] using b1
      · simpa [unacknowledged, hconn, ExitState.live] using b3
    · rintro half hpending ⟨c1, c2, _⟩
      refine ⟨?_, ?_, fun _ => hpending⟩
      · simpa [dataDue, hconn, ExitState.live] using c1
      · simpa [unacknowledged, hconn, ExitState.live] using c2

theorem inv_exitData (h : StreamInv id s) (hs : streamStep id s .exitData = some s') : StreamInv id s' := by
  simp only [streamStep] at hs
  split_ifs at hs with hcond
  cases hs
  obtain ⟨hopen, hpos⟩ := hcond
  have hlive : s.exit.live = true := by
    rw [hopen]
    rfl
  have hpack := h.exitPackage hlive
  have hnotEnded := h.notEnded (by rw [hopen]; decide)
  refine ⟨h.sorted, h.accepted, h.exitDeliver, fun _ => by simp only; omega, by simp only; omega, ?_, ?_, ?_,
    by simpa using h.once, h.notTold, ?_⟩
  · intro hc
    simp only [hopen] at hc
    cases hc
  · intro he
    simp only [hopen] at he
    cases he
  · intro _
    simpa using hnotEnded
  · refine ClientInv.of_sent (c := [.data]) h hlive rfl rfl rfl (by decide) (by simp [hopen]) ?_ ?_ ?_
    · intro hc
      rw [hopen] at hc
      cases hc
    · rintro ⟨b1, b2, b3, b4⟩
      refine ⟨?_, b2, by simpa [unacknowledged] using b3, b4⟩
      simp only [dataDue, hlive, if_true, List.count_append, List.count_singleton_self] at b1 ⊢
      omega
    · rintro half ⟨c1, c2, c3⟩
      refine ⟨?_, by simpa [unacknowledged] using c2, by simpa using c3⟩
      simp only [dataDue, hlive, if_true, List.count_append, List.count_singleton_self] at c1 ⊢
      omega

theorem inv_exitConsider (h : StreamInv id s) (hs : streamStep id s .exitConsider = some s') :
    StreamInv id s' := by
  simp only [streamStep] at hs
  split_ifs at hs with hopen
  cases hs
  have hlive : s.exit.live = true := by
    rw [hopen]
    rfl
  have hdel := h.exitDeliver hlive
  have hnotEnded := h.notEnded (by rw [hopen]; decide)
  obtain ⟨heq, hmax⟩ := considerSending_spec s.exitDeliver
  have hmax' := hmax hdel.2
  refine ⟨h.sorted, h.accepted, fun _ => by simp only; omega, h.exitPackage, h.exitPackageMin, ?_, ?_, ?_,
    by simpa [List.count_replicate] using h.once, h.notTold, ?_⟩
  · intro hc
    simp only [hopen] at hc
    cases hc
  · intro he
    simp only [hopen] at he
    cases he
  · intro _
    simpa [List.mem_replicate] using hnotEnded
  · refine ClientInv.of_sent (c := List.replicate (considerSending s.exitDeliver).2 .sendme) h hlive rfl rfl
      rfl (by simp [List.mem_replicate]) (by simp [hopen]) ?_ ?_ ?_
    · intro hc
      rw [hopen] at hc
      cases hc
    · rintro ⟨b1, b2, b3, b4⟩
      refine ⟨by simpa [dataDue, List.count_replicate] using b1, b2, ?_, b4⟩
      simp only [unacknowledged, hlive, if_true, List.count_append, List.count_replicate_self] at b3 ⊢
      omega
    · rintro half ⟨c1, c2, c3⟩
      refine ⟨by simpa [dataDue, List.count_replicate] using c1, ?_, by simpa [List.mem_replicate] using c3⟩
      simp only [unacknowledged, hlive, if_true, List.count_append, List.count_replicate_self] at c2 ⊢
      omega

theorem StreamInv.exitPackageDue (h : StreamInv id s) :
    0 ≤ if s.exit.live then s.exitPackage + 50 * s.toExit.count .sendme else 0 := by
  have hmin := h.exitPackageMin
  split_ifs <;> omega

theorem StreamInv.unacknowledged_nonneg (h : StreamInv id s) : 0 ≤ unacknowledged s := by
  unfold unacknowledged
  split_ifs with hlive
  · have hdel := h.exitDeliver hlive
    omega
  · exact le_rfl

theorem inv_exitEnd (h : StreamInv id s) (hs : streamStep id s .exitEnd = some s') : StreamInv id s' := by
  simp only [streamStep] at hs
  split_ifs at hs with hlive
  cases hs
  have hnotEnded : s.exit ≠ .ended := by
    intro he
    rw [he] at hlive
    cases hlive
  have hdue := h.exitPackageDue
  have hunack := h.unacknowledged_nonneg
  refine ⟨h.sorted, h.accepted, nofun, nofun, h.exitPackageMin, nofun, ?_, ?_, by simpa using h.once,
    h.notTold, ?_⟩
  · intro _
    exact .inr ⟨s.toClient, rfl, h.notEnded hnotEnded⟩
  · intro hne
    exact absurd rfl hne
  · refine ClientInv.of_sent (c := [.ended]) h hlive rfl rfl rfl (by decide) (by simp) (fun _ => rfl) ?_ ?_
    · rintro ⟨b1, b2, b3, b4⟩
      refine ⟨?_, b2, ?_, b4⟩
      · simp only [dataDue] at b1
        simp [dataDue, ExitState.live]
        omega
      · simp [unacknowledged, ExitState.live]
        omega
    · rintro half ⟨c1, c2, c3⟩
      refine ⟨?_, ?_, ?_⟩
      · simp only [dataDue] at c1
        simp [dataDue, ExitState.live]
        omega
      · simp [unacknowledged, ExitState.live]
        omega
      · intro hpend
        simp only [List.mem_append, List.mem_singleton, reduceCtorEq, or_false, false_or] at hpend
        exact c3 (.inr hpend)

theorem StreamInv.of_taken {cell : StreamCell} {rest : List StreamCell} {p d : ℤ} (h : StreamInv id s)
    (hcells : s.toExit = cell :: rest) (hmin : 0 ≤ p)
    (hdeliver : s.exit.live = true → rest.count .data ≤ d ∧
      d - rest.count .data = s.exitDeliver - s.toExit.count .data ∧ d ≤ 500)
    (hpackage : s.exit.live = true → p + 50 * rest.count .sendme = s.exitPackage + 50 * s.toExit.count .sendme) :
    StreamInv id { s with toExit := rest, exitPackage := p, exitDeliver := d } := by
  have hdue : dataDue { s with toExit := rest, exitPackage := p, exitDeliver := d } = dataDue s := by
    simp only [dataDue]
    split_ifs with hlive
    · rw [hpackage hlive]
    · rfl
  have hunack : unacknowledged { s with toExit := rest, exitPackage := p, exitDeliver := d } =
      unacknowledged s := by
    simp only [unacknowledged]
    split_ifs with hlive
    · have hdel := hdeliver hlive
      omega
    · rfl
  refine ⟨h.sorted, h.accepted, ?_, ?_, hmin, h.connecting, h.ended, h.notEnded, h.once, ?_, ?_⟩
  · intro hlive
    have hdel := hdeliver hlive
    exact ⟨hdel.1, hdel.2.2⟩
  · intro hlive
    have hpack := h.exitPackage hlive
    rwa [← hpackage hlive] at hpack
  · intro hclosed hmem
    have hnot := h.notTold hclosed
    rw [hcells] at hnot
    exact hnot (List.mem_cons_of_mem cell hmem)
  · refine h.client.of_windows rfl rfl rfl rfl ?_ ?_
    · rintro _ ⟨b1, b2, b3, b4⟩
      exact ⟨hdue ▸ b1, b2, hunack ▸ b3, b4⟩
    · rintro _ half ⟨c1, c2, c3⟩
      exact ⟨hdue ▸ c1, hunack ▸ c2, c3⟩

theorem StreamInv.of_told {rest : List StreamCell} (h : StreamInv id s) (hcells : s.toExit = .ended :: rest)
    (hlive : s.exit.live = true) : StreamInv id { s with toExit := rest, exit := .told } := by
  have hclosed : s.client = .closed := by
    by_contra hne
    have hnot := h.notTold hne
    rw [hcells] at hnot
    exact hnot List.mem_cons_self
  have hnotEnded : s.exit ≠ .ended := by
    intro he
    rw [he] at hlive
    cases hlive
  have hdue := h.exitPackageDue
  have hunack := h.unacknowledged_nonneg
  refine ⟨h.sorted, h.accepted, nofun, nofun, h.exitPackageMin, nofun, nofun,
    fun _ => h.notEnded hnotEnded, h.once, fun hne => absurd hclosed hne, ?_⟩
  refine (clientInv_closed (s := { s with toExit := rest, exit := .told }) hclosed).mpr ?_
  rcases (clientInv_closed hclosed).mp h.client with ⟨_, hdone⟩ | ⟨half, hlook, c1, c2, c3⟩
  · exact absurd hdone hnotEnded
  · refine .inr ⟨half, hlook, ?_, ?_, ?_⟩
    · simp only [dataDue] at c1
      simp only [dataDue, ExitState.live, Bool.false_eq_true, if_false]
      omega
    · simp only [unacknowledged, ExitState.live, Bool.false_eq_true, if_false]
      omega
    · intro hpend
      rcases hpend with hpend | hpend
      · cases hpend
      · exact c3 (.inr hpend)

theorem inv_exitReceive (h : StreamInv id s) (hs : streamStep id s .exitReceive = some s') :
    StreamInv id s' := by
  simp only [streamStep] at hs
  split at hs
  · cases hs
  rename_i cell rest hcells
  have hmin := h.exitPackageMin
  split_ifs at hs with hlive
  · have hdel := h.exitDeliver hlive
    have hpack := h.exitPackage hlive
    rw [hcells] at hdel hpack
    cases cell with
    | connected =>
      cases hs
      exact h.of_taken hcells hmin (fun _ => by simp_all) (fun _ => by simp [hcells])
    | data =>
      rw [List.count_cons_self] at hdel
      have hnonneg : ¬ s.exitDeliver - 1 < 0 := by omega
      simp only [exitReceiveCell, if_neg hnonneg] at hs
      cases hs
      refine h.of_taken hcells hmin ?_ (fun _ => by simp [hcells])
      intro _
      rw [hcells, List.count_cons_self]
      omega
    | sendme =>
      rw [List.count_cons_self] at hpack
      have hle : ¬ streamwindowStart < s.exitPackage + streamwindowIncrement := by
        unfold streamwindowStart streamwindowIncrement
        omega
      simp only [exitReceiveCell, if_neg hle] at hs
      cases hs
      unfold streamwindowIncrement
      refine h.of_taken hcells (by omega) (fun _ => by simp_all) ?_
      intro _
      rw [hcells, List.count_cons_self]
      omega
    | ended =>
      cases hs
      exact h.of_told hcells hlive
  · cases hs
    exact h.of_taken hcells hmin (fun hl => absurd hl hlive) (fun hl => absurd hl hlive)

theorem StreamInv.last {rest : List StreamCell} (h : StreamInv id s) (hcells : s.toClient = .ended :: rest) :
    s.exit = .ended ∧ rest = [] := by
  have hended : s.exit = .ended := by
    by_contra hne
    have hnot := h.notEnded hne
    rw [hcells] at hnot
    exact hnot List.mem_cons_self
  refine ⟨hended, ?_⟩
  rcases h.ended hended with hnil | ⟨pre, hpre, hnot⟩
  · rw [hcells] at hnil
    cases hnil
  · rw [hcells] at hpre
    cases pre with
    | nil =>
      cases hpre
      rfl
    | cons c pre =>
      cases hpre
      exact absurd List.mem_cons_self hnot

theorem StreamInv.of_received {cell : StreamCell} {rest : List StreamCell} {c : ClientState} {p d : ℤ}
    {l : List HalfEdge} (h : StreamInv id s) (hcells : s.toClient = cell :: rest) (hsorted : HalfSorted l)
    (hstate : c ≠ .closed → s.client ≠ .closed)
    (hclient : ClientInv id { s with
      client := c, clientPackage := p, clientDeliver := d, halfStreams := l, toClient := rest }) :
    StreamInv id { s with
      client := c, clientPackage := p, clientDeliver := d, halfStreams := l, toClient := rest } := by
  have hnotEnded := h.notEnded
  have honce := h.once
  rw [hcells] at hnotEnded honce
  refine ⟨hsorted, h.accepted, h.exitDeliver, h.exitPackage, h.exitPackageMin, ?_, ?_, ?_, ?_, ?_, hclient⟩
  · intro hconn
    have hnil := h.connecting hconn
    rw [hcells] at hnil
    cases hnil
  · intro he
    rcases h.ended he with hnil | ⟨pre, hpre, hnot⟩
    · rw [hcells] at hnil
      cases hnil
    · rw [hcells] at hpre
      cases pre with
      | nil =>
        cases hpre
        exact .inl rfl
      | cons x pre =>
        cases hpre
        exact .inr ⟨pre, rfl, fun hmem => hnot (List.mem_cons_of_mem cell hmem)⟩
  · intro hne hmem
    exact hnotEnded hne (List.mem_cons_of_mem cell hmem)
  · exact le_trans (List.count_le_count_cons) honce
  · intro hne
    exact h.notTold (hstate hne)

theorem ClientInv.of_last (hc : s.client = .closed ∨ s.client = .ended) (hnil : s.toClient = [])
    (hended : s.exit = .ended) : ClientInv id s := by
  rcases hc with hc | hc
  · exact (clientInv_closed hc).mpr (.inl ⟨hnil, hended⟩)
  · exact (clientInv_ended hc).mpr ⟨hnil, hended⟩

theorem inv_waitingReceive {cell : StreamCell} {rest : List StreamCell} (h : StreamInv id s)
    (hc : s.client = .connectWait) (hcells : s.toClient = cell :: rest) :
    StreamInv id (waitingReceiveCell { s with toClient := rest } cell) := by
  obtain ⟨hlook, ⟨b1, b2, b3, b4⟩, htold, hpos⟩ := (clientInv_connectWait hc).mp h.client
  have hstate : ∀ c : ClientState, c ≠ .closed → s.client ≠ .closed := by
    intro c _ hclosed
    rw [hc] at hclosed
    cases hclosed
  rcases hpos with hconn | ⟨rest', hrest⟩ | hend
  · have hnil := h.connecting hconn
    rw [hcells] at hnil
    cases hnil
  · rw [hcells] at hrest
    cases hrest
    have honce := h.once
    rw [hcells, List.count_cons_self] at honce
    refine h.of_received hcells h.sorted (hstate .opened) ?_
    refine (clientInv_opened rfl).mpr ⟨hlook, ⟨?_, b2, ?_, b4⟩, htold, ?_, ?_⟩
    · simpa [dataDue, hcells] using b1
    · simpa [unacknowledged, hcells] using b3
    · intro hconn
      have hnil := h.connecting hconn
      rw [hcells] at hnil
      cases hnil
    · exact List.count_eq_zero.mp (by simp only; omega)
  · rw [hcells] at hend
    cases hend
    exact h.of_received hcells h.sorted (hstate .ended) (.of_last (.inr rfl) rfl (h.last hcells).1)

theorem inv_openReceive {cell : StreamCell} {rest : List StreamCell} (h : StreamInv id s)
    (hc : s.client = .opened) (hcells : s.toClient = cell :: rest) :
    StreamInv id (openReceiveCell { s with toClient := rest } cell) := by
  obtain ⟨hlook, ⟨b1, b2, b3, b4⟩, htold, hconn, hnot⟩ := (clientInv_opened hc).mp h.client
  have hstate : ∀ c : ClientState, c ≠ .closed → s.client ≠ .closed := by
    intro c _ hclosed
    rw [hc] at hclosed
    cases hclosed
  have hdue := h.exitPackageDue
  have hunack := h.unacknowledged_nonneg
  rw [hcells, List.mem_cons, not_or] at hnot
  simp only [dataDue] at b1
  rw [hcells] at b1 b3
  cases cell with
  | connected => exact absurd rfl hnot.1
  | data =>
    rw [List.count_cons_self] at b1
    rw [List.count_cons_of_ne (by decide)] at b3
    have hnonneg : ¬ s.clientDeliver - 1 < 0 := by omega
    simp only [openReceiveCell, if_neg hnonneg]
    refine h.of_received hcells h.sorted (hstate s.client) ?_
    refine (clientInv_opened (by exact hc)).mpr ⟨hlook, ⟨?_, ?_, b3, b4⟩, htold, hconn, hnot.2⟩
    · simp only [dataDue]
      omega
    · simp only
      omega
  | sendme =>
    rw [List.count_cons_self] at b3
    rw [List.count_cons_of_ne (by decide)] at b1
    have hle : ¬ streamwindowStart < s.clientPackage + streamwindowIncrement := by
      unfold streamwindowStart streamwindowIncrement
      omega
    simp only [openReceiveCell, if_neg hle]
    refine h.of_received hcells h.sorted (hstate s.client) ?_
    refine (clientInv_opened (by exact hc)).mpr ⟨hlook, ⟨b1, b2, ?_, ?_⟩, htold, hconn, hnot.2⟩
    · have hsame : ∀ p, unacknowledged { s with clientPackage := p, toClient := rest } = unacknowledged s :=
        fun _ => rfl
      simp only [streamwindowIncrement, hsame]
      omega
    · simp only [streamwindowIncrement]
      omega
  | ended =>
    obtain ⟨hended, hnil⟩ := h.last hcells
    exact h.of_received hcells h.sorted (hstate .ended) (.of_last (.inr rfl) hnil hended)

/-- A half edge that covers what is due is not without what the next cell needs. -/
theorem Covers.use {cell : StreamCell} {rest : List StreamCell} {half : HalfEdge}
    {use : HalfEdge → Option HalfEdge} (hcov : Covers s half) (h : StreamInv id s)
    (hcells : s.toClient = cell :: rest)
    (huse : (cell = .connected ∧ use = HalfEdge.takeConnected) ∨ (cell = .data ∧ use = HalfEdge.takeData) ∨
      (cell = .sendme ∧ use = HalfEdge.takeSendme)) :
    ∃ half', use half = some half' ∧ Covers { s with toClient := rest } half' := by
  obtain ⟨c1, c2, c3⟩ := hcov
  have hdue := h.exitPackageDue
  have hunack := h.unacknowledged_nonneg
  have honce := h.once
  have hconn : s.exit ≠ .connecting := by
    intro hconn
    have hnil := h.connecting hconn
    rw [hcells] at hnil
    cases hnil
  simp only [dataDue] at c1
  rw [hcells] at c1 c2 c3 honce
  rcases huse with ⟨rfl, rfl⟩ | ⟨rfl, rfl⟩ | ⟨rfl, rfl⟩
  · have hpending := c3 (.inr List.mem_cons_self)
    rw [List.count_cons_of_ne (by decide)] at c1 c2
    rw [List.count_cons_self] at honce
    refine ⟨_, if_pos hpending, c1, c2, ?_⟩
    rintro (hwait | hmem)
    · exact absurd hwait hconn
    · have hzero : rest.count .connected = 0 := by omega
      exact absurd hmem (List.count_eq_zero.mp hzero)
  · rw [List.count_cons_self] at c1
    rw [List.count_cons_of_ne (by decide)] at c2
    refine ⟨_, if_pos (by omega), ?_, c2, ?_⟩
    · simp only [dataDue]
      omega
    · rintro (hwait | hmem)
      · exact absurd hwait hconn
      · exact c3 (.inr (List.mem_cons_of_mem _ hmem))
  · rw [List.count_cons_self] at c2
    rw [List.count_cons_of_ne (by decide)] at c1
    have hsame : unacknowledged { s with toClient := rest } = unacknowledged s := rfl
    refine ⟨_, if_pos (by omega), c1, ?_, ?_⟩
    · simp only [hsame]
      omega
    · rintro (hwait | hmem)
      · exact absurd hwait hconn
      · exact c3 (.inr (List.mem_cons_of_mem _ hmem))

theorem inv_halfUse {cell : StreamCell} {rest : List StreamCell} {half : HalfEdge}
    {use : HalfEdge → Option HalfEdge} (h : StreamInv id s) (hc : s.client = .closed)
    (hcells : s.toClient = cell :: rest) (hlook : halfLookup s.halfStreams id = some half)
    (hcov : Covers s half) (hid : ∀ a b, use a = some b → b.streamId = a.streamId)
    (huse : (cell = .connected ∧ use = HalfEdge.takeConnected) ∨ (cell = .data ∧ use = HalfEdge.takeData) ∨
      (cell = .sendme ∧ use = HalfEdge.takeSendme)) :
    StreamInv id { s with
      toClient := rest
      halfStreams := (useHalfEdge use s.halfStreams id).2
      rejected := s.rejected || !(useHalfEdge use s.halfStreams id).1 } := by
  obtain ⟨half', husable, hcov'⟩ := hcov.use h hcells huse
  obtain ⟨hvalid, hsorted, hlook'⟩ := use_spec hid h.sorted id
  have hone : (useHalfEdge use s.halfStreams id).1 = true := by
    rw [hvalid, hlook, Option.bind_some, husable]
    rfl
  rw [hone, Bool.not_true, Bool.or_false]
  refine h.of_received hcells hsorted (fun hne => hne) ?_
  refine (clientInv_closed (by exact hc)).mpr (.inr ⟨half', ?_, hcov'.data, hcov'.sendmes, hcov'.connected⟩)
  rw [hlook' id, if_pos rfl, hlook, Option.bind_some, husable]
  rfl

theorem inv_goneReceive {cell : StreamCell} {rest : List StreamCell} (h : StreamInv id s)
    (hc : s.client = .closed) (hcells : s.toClient = cell :: rest) :
    StreamInv id (goneReceiveCell id { s with toClient := rest } cell) := by
  rcases (clientInv_closed hc).mp h.client with ⟨hnil, _⟩ | ⟨half, hlook, hcov⟩
  · rw [hcells] at hnil
    cases hnil
  cases cell with
  | connected =>
    exact inv_halfUse (s := s) h hc hcells hlook hcov (fun _ _ => streamId_takeConnected) (.inl ⟨rfl, rfl⟩)
  | data =>
    exact inv_halfUse (s := s) h hc hcells hlook hcov (fun _ _ => streamId_takeData) (.inr (.inl ⟨rfl, rfl⟩))
  | sendme =>
    exact inv_halfUse (s := s) h hc hcells hlook hcov (fun _ _ => streamId_takeSendme) (.inr (.inr ⟨rfl, rfl⟩))
  | ended =>
    obtain ⟨hended, hnil⟩ := h.last hcells
    obtain ⟨hvalid, hsorted, _⟩ := isValidEnd_spec h.sorted id
    rw [hlook] at hvalid
    simp only [goneReceiveCell, halfEdgeCheck, hvalid, Option.isSome_some, Bool.not_true, Bool.or_false]
    exact h.of_received hcells hsorted (fun hne => hne) (.of_last (.inl hc) hnil hended)

theorem inv_clientReceive (h : StreamInv id s) (hs : streamStep id s .clientReceive = some s') :
    StreamInv id s' := by
  simp only [streamStep] at hs
  split at hs
  · cases hs
  rename_i cell rest hcells
  cases hs
  cases hc : s.client with
  | connectWait =>
    simp only [clientReceiveCell]
    rw [← hc]
    exact inv_waitingReceive h hc hcells
  | opened =>
    simp only [clientReceiveCell]
    rw [← hc]
    exact inv_openReceive h hc hcells
  | closed =>
    simp only [clientReceiveCell]
    rw [← hc]
    exact inv_goneReceive h hc hcells
  | ended =>
    have hnil := ((clientInv_ended hc).mp h.client).1
    rw [hcells] at hnil
    cases hnil

/-- The half edge that is made from windows in balance covers what is due. -/
theorem covers_halfEdgeOf {state : ApConnState} (h : StreamInv id s) (hbal : Balanced s)
    (hstate : state ≠ .resolveWait)
    (hconn : s.exit = .connecting ∨ .connected ∈ s.toClient → state = .connectWait) :
    Covers s (halfEdgeOf ⟨id, state, s.clientPackage, s.clientDeliver⟩) := by
  obtain ⟨b1, b2, b3, b4⟩ := hbal
  have hunack := h.unacknowledged_nonneg
  refine ⟨?_, ?_, ?_⟩
  · simpa only [halfEdgeOf, if_neg hstate] using b1
  · have hnonneg : 0 ≤ streamwindowStart - s.clientPackage := by
      unfold streamwindowStart
      omega
    simp only [halfEdgeOf, Int.tdiv_eq_ediv_of_nonneg hnonneg]
    unfold streamwindowStart streamwindowIncrement
    omega
  · intro hpend
    simpa only [halfEdgeOf, decide_eq_true_eq] using hconn hpend

theorem StreamInv.of_end {state : ApConnState} (h : StreamInv id s)
    (hc : s.client = .connectWait ∨ s.client = .opened) (hstate : state ≠ .resolveWait)
    (hconn : s.exit = .connecting ∨ .connected ∈ s.toClient → state = .connectWait) :
    StreamInv id (clientEnd id s state) := by
  obtain ⟨hlook, hbal, _⟩ := h.hasStream hc
  obtain ⟨hsorted, hlook'⟩ := add_spec h.sorted ⟨id, state, s.clientPackage, s.clientDeliver⟩
  obtain ⟨c1, c2, c3⟩ := covers_halfEdgeOf h hbal hstate hconn
  refine ⟨hsorted, h.accepted, ?_, ?_, h.exitPackageMin, h.connecting, h.ended, h.notEnded, h.once,
    fun hne => absurd rfl hne, ?_⟩
  · simpa [clientEnd] using h.exitDeliver
  · simpa [clientEnd] using h.exitPackage
  · refine (clientInv_closed rfl).mpr (.inr ⟨_, ?_, ?_, ?_, c3⟩)
    · exact (hlook' id).trans (by rw [if_pos rfl, hlook]; rfl)
    · simpa [dataDue, clientEnd] using c1
    · simpa [unacknowledged, clientEnd] using c2

theorem inv_clientClose (h : StreamInv id s) (hs : streamStep id s .clientClose = some s') :
    StreamInv id s' := by
  simp only [streamStep] at hs
  split at hs
  · rename_i hc
    cases hs
    exact h.of_end (.inl hc) (by decide) (fun _ => rfl)
  · rename_i hc
    cases hs
    obtain ⟨_, _, _, hexit, hnot⟩ := (clientInv_opened hc).mp h.client
    refine h.of_end (.inr hc) (by decide) ?_
    rintro (hwait | hmem)
    · exact absurd hwait hexit
    · exact absurd hmem hnot
  · cases hs

theorem inv_other {op : HalfOp} (h : StreamInv id s) (hs : streamStep id s (.other op) = some s') :
    StreamInv id s' := by
  simp only [streamStep] at hs
  split_ifs at hs with hne
  cases hs
  obtain ⟨hsorted, hlook⟩ := op.apply_spec h.sorted
  have hsame := hlook id (Ne.symm hne)
  refine ⟨hsorted, h.accepted, h.exitDeliver, h.exitPackage, h.exitPackageMin, h.connecting, h.ended,
    h.notEnded, h.once, h.notTold, ?_⟩
  have hclient := h.client
  cases hc : s.client with
  | connectWait =>
    obtain ⟨h1, ⟨b1, b2, b3, b4⟩, h3⟩ := (clientInv_connectWait hc).mp hclient
    exact (clientInv_connectWait rfl).mpr ⟨hsame.trans h1, ⟨b1, b2, b3, b4⟩, h3⟩
  | opened =>
    obtain ⟨h1, ⟨b1, b2, b3, b4⟩, h3⟩ := (clientInv_opened hc).mp hclient
    exact (clientInv_opened rfl).mpr ⟨hsame.trans h1, ⟨b1, b2, b3, b4⟩, h3⟩
  | closed =>
    refine (clientInv_closed rfl).mpr ?_
    rcases (clientInv_closed hc).mp hclient with hdone | ⟨half, h1, c1, c2, c3⟩
    · exact .inl hdone
    · exact .inr ⟨half, hsame.trans h1, c1, c2, c3⟩
  | ended => exact (clientInv_ended rfl).mpr ((clientInv_ended hc).mp hclient)

/-- **Every event keeps the balance.** -/
theorem inv_of_step {e : StreamEvent} (h : StreamInv id s) (hs : streamStep id s e = some s') :
    StreamInv id s' := by
  cases e with
  | clientData => exact inv_clientData h hs
  | clientConsider => exact inv_clientConsider h hs
  | clientReceive => exact inv_clientReceive h hs
  | clientClose => exact inv_clientClose h hs
  | exitConnect => exact inv_exitConnect h hs
  | exitData => exact inv_exitData h hs
  | exitConsider => exact inv_exitConsider h hs
  | exitReceive => exact inv_exitReceive h hs
  | exitEnd => exact inv_exitEnd h hs
  | other op => exact inv_other h hs

/-- The steps of the stream `id`. -/
def StreamStep (id : UInt16) (s : StreamNet) (e : StreamEvent) (s' : StreamNet) : Prop :=
  streamStep id s e = some s'

/-- **No cell of an honest exit is refused.**  Whatever happens on the stream, in any order, neither end
refuses a cell; in particular the next cell for a stream that the client has closed passes the check of
its half edge.  And `half_streams` stays sorted, whatever is added, checked and removed. -/
theorem accepted_of_run (id : UInt16) (l : List HalfEdge) (hsorted : HalfSorted l) :
    (halfLookup l id = none → ∀ es s, Run (StreamStep id) (newStream l) es s →
      s.rejected = false ∧ HalfSorted s.halfStreams ∧
        (s.client = .closed → ∀ cell rest, s.toClient = cell :: rest →
          (halfEdgeCheck s.halfStreams id cell).1 = true)) ∧
      ∀ ops : List HalfOp, HalfSorted (ops.foldl HalfOp.apply l) := by
  refine ⟨?_, fun ops => halfSorted_foldl ops hsorted⟩
  intro hfree es s hrun
  have hinv : StreamInv id s :=
    Run.invariant (I := StreamInv id) (fun _ _ _ h hs => inv_of_step h hs) hrun (inv_newStream hsorted hfree)
  refine ⟨hinv.accepted, hinv.sorted, ?_⟩
  intro hclosed cell rest hcells
  -- the client takes the cell now
  have hnext : streamStep id s .clientReceive = some (goneReceiveCell id { s with toClient := rest } cell) := by
    simp only [streamStep, hcells, clientReceiveCell, hclosed]
  have haccepted := (inv_of_step hinv hnext).accepted
  simpa [goneReceiveCell, hinv.accepted] using haccepted

/-- The client closes the stream while the CONNECTED cell and a DATA cell are on their way. -/
theorem accepted_of_run_closing :
    ∃ s, Run (StreamStep 7) (newStream []) [.exitConnect, .exitData, .clientClose] s ∧
      s.toClient = [.connected, .data] ∧ (halfEdgeCheck s.halfStreams 7 .connected).1 = true := by
  have hrun : Run (StreamStep 7) (newStream []) [.exitConnect, .exitData, .clientClose] _ :=
    .cons rfl (.cons rfl (.cons rfl (.nil _)))
  exact ⟨_, hrun, rfl,
    ((accepted_of_run 7 [] List.Pairwise.nil).1 rfl _ _ hrun).2.2 rfl .connected [.data] rfl⟩

end Events

end TorEbpf.Or
