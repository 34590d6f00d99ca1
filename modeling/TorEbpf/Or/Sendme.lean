import Mathlib
import TorEbpf.Lib.Bytes
import TorEbpf.Lib.Events

/-!
# Circuit-level flow control

The two ends of a hop package `DATA` cells for each other, at most a window of them ahead of what the
other end has acknowledged.  An acknowledgement is a `SENDME` cell for a hundred cells; it carries the
running digest of the cells of its direction, and the packaging end keeps the digests it expects in
`sendme_last_digests`.  Both ends find out from their own window which cell's digest is meant.

The model has both ends, each packaging and delivering, and delivers the cells of each direction in the
order they were sent.

* `Endpoint` with `connectionEdgePackageRawInbuf`, `relaySendCommandFromEdge`,
  `circuitReceiveRelayCell` — what an end does;
* `marks` — the digests of every hundredth `DATA` cell of a direction;
* `Link` — the invariant of one direction, with a lemma for each thing an end does;
* `flowControl_of_run` — windows, accounting and digests in every state of every run.
-/

namespace TorEbpf.Or.Sendme

open TorEbpf.Lib

/-! ### Cells -/

def relayCommandData : UInt8 := 2

def relayCommandSendme : UInt8 := 5

/-- A relay cell: its header, its payload and the padding behind it. -/
structure RelayCell where
  command : UInt8
  streamId : UInt16
  payload : List UInt8
  padding : List UInt8
  deriving DecidableEq, Repr

def RelayCell.isData (c : RelayCell) : Bool := c.command == relayCommandData

/-- The cell is a circuit-level `SENDME`. -/
def RelayCell.isSendme (c : RelayCell) : Bool :=
  c.command == relayCommandSendme && c.streamId == 0

structure SendmeCell where
  version : UInt8
  dataLen : ℕ
  dataV1Digest : Bytes 20
  deriving DecidableEq, Repr

def sendmeCellParse : List UInt8 → Option SendmeCell
  | version :: hi :: lo :: rest =>
      let dataLen := beNat [hi, lo]
      if ¬ (version = 0 ∨ version = 1) then none
      else if rest.length < dataLen then none
      else if version = 0 then some ⟨version, dataLen, Bytes.pad 20 []⟩
      else if dataLen < 20 then none
      else if dataLen - 20 ≠ 0 then none
      else some ⟨version, dataLen, Bytes.pad 20 (rest.take 20)⟩
  | _ => none

/-- `build_cell_payload_v1`, what `sendme_cell_encode` writes of version 1. -/
def buildCellPayloadV1 (cellDigest : Bytes 20) : List UInt8 := [1] ++ beBytes 2 20 ++ cellDigest.val

theorem sendmeCellParse_buildCellPayloadV1 (d : Bytes 20) :
    sendmeCellParse (buildCellPayloadV1 d) = some ⟨1, 20, d⟩ := by
  have hlen := d.length_eq
  have hbytes : beBytes 2 20 = [0, 20] := by decide
  have hnat : beNat [0, 20] = 20 := by decide
  simp only [buildCellPayloadV1, hbytes, List.cons_append, List.nil_append, sendmeCellParse, hnat]
  rw [if_neg (by decide), if_neg (by omega), if_neg (by decide), if_neg (by omega),
    if_neg (by omega), List.take_of_length_le (by omega), Bytes.pad_val]

/-! ### An end of a hop -/

/-- `CIRCWINDOW_START` and `CIRCWINDOW_START_MAX`. -/
def circwindowStart : ℤ := 1000

def circwindowIncrement : ℤ := 100

def sendmeMaxSupportedVersion : ℕ := 1

/-- What an end of a hop keeps: of the circuit (or of the client's `crypt_path_t`) the two windows, of
its crypto state `sendme_digest` and the cells that went into the running digests of the two directions,
and the digests it expects in `SENDME`s.  `bug` is set when a nonfatal assertion fails. -/
structure Endpoint where
  packageWindow : ℤ
  deliverWindow : ℤ
  sendmeDigest : Bytes 20
  sendmeLastDigests : List (Bytes 20)
  sent : List RelayCell
  received : List RelayCell
  markedForClose : Bool
  bug : Bool

/-- What is given to an end: the digest of its two directions after some cells, the padding of the next
`SENDME` it sends, and the consensus's `sendme_accept_min_version`. -/
structure Params where
  outDigest : List RelayCell → Bytes 20
  inDigest : List RelayCell → Bytes 20
  padding : List RelayCell → List UInt8
  acceptMinVersion : ℕ

def Endpoint.init : Endpoint where
  packageWindow := circwindowStart
  deliverWindow := circwindowStart
  sendmeDigest := Bytes.pad 20 []
  sendmeLastDigests := []
  sent := []
  received := []
  markedForClose := false
  bug := false

def circuitSendmeCellIsNext (window : ℤ) : Bool :=
  if window = circwindowStart then false
  else if (window - 1).tmod circwindowIncrement ≠ 0 then false
  else true

variable (p : Params)

/-- `sendme_record_sending_cell_digest`, with the running digest of what was sent. -/
def sendmeRecordSendingCellDigest (e : Endpoint) : Endpoint :=
  if circuitSendmeCellIsNext e.packageWindow then { e with sendmeDigest := p.outDigest e.sent } else e

/-- `sendme_record_received_cell_digest`, with the running digest of what was received. -/
def sendmeRecordReceivedCellDigest (e : Endpoint) : Endpoint :=
  if circuitSendmeCellIsNext e.deliverWindow then { e with sendmeDigest := p.inDigest e.received }
  else e

def sendmeRecordCellDigestOnCirc (e : Endpoint) : Endpoint :=
  if circuitSendmeCellIsNext e.packageWindow then
    { e with sendmeLastDigests := e.sendmeLastDigests ++ [e.sendmeDigest] }
  else e

/-- `relay_send_command_from_edge_`: the cell goes into the digest and into the queue, and for a `DATA`
cell the digest may be remembered. -/
def relaySendCommandFromEdge (cell : RelayCell) (e : Endpoint) : Endpoint :=
  let e := sendmeRecordSendingCellDigest p { e with sent := e.sent ++ [cell] }
  if cell.command = relayCommandData then sendmeRecordCellDigestOnCirc e else e

/-- `connection_edge_package_raw_inbuf`, for a stream with the given window.  `chunks` is what the passes
of its loop would take from the buffer. -/
def connectionEdgePackageRawInbuf (streamId : UInt16) :
    ℤ → Option ℤ → List (List UInt8 × List UInt8) → Endpoint → Endpoint
  | _, _, [], e => e
  | streamWindow, maxCells, (payload, padding) :: chunks, e =>
      if maxCells.any (· ≤ 0) then e
      else if e.packageWindow ≤ 0 then e
      else if streamWindow ≤ 0 then e
      else
        let e := relaySendCommandFromEdge p ⟨relayCommandData, streamId, payload, padding⟩ e
        let e := { e with packageWindow := e.packageWindow - 1 }
        if e.packageWindow < 0 then e
        else if streamWindow - 1 < 0 then e
        else
          connectionEdgePackageRawInbuf streamId (streamWindow - 1) (maxCells.map (· - 1)) chunks e

/-- `send_circuit_level_sendme`, emitting version 1. -/
def sendCircuitLevelSendme (cellDigest : Bytes 20) (e : Endpoint) : Endpoint :=
  relaySendCommandFromEdge p
    ⟨relayCommandSendme, 0, buildCellPayloadV1 cellDigest, p.padding e.sent⟩ e

theorem deliverWindow_sendCircuitLevelSendme (d : Bytes 20) (e : Endpoint) :
    (sendCircuitLevelSendme p d e).deliverWindow = e.deliverWindow := by
  unfold sendCircuitLevelSendme relaySendCommandFromEdge
  simp only [show relayCommandSendme ≠ relayCommandData by decide, if_false]
  unfold sendmeRecordSendingCellDigest
  split <;> rfl

def sendmeCircuitConsiderSending (sentOneSendme : Bool) (e : Endpoint) : Endpoint :=
  if e.deliverWindow ≤ circwindowStart - circwindowIncrement then
    let e' := { e with deliverWindow := e.deliverWindow + circwindowIncrement }
    let e' := sendCircuitLevelSendme p e'.sendmeDigest e'
    -- `tor_assert_nonfatal(!sent_one_sendme)`
    sendmeCircuitConsiderSending true { e' with bug := e'.bug || sentOneSendme }
  else e
termination_by (circwindowStart - e.deliverWindow).toNat
decreasing_by
  simp only [deliverWindow_sendCircuitLevelSendme]
  simp only [circwindowStart, circwindowIncrement] at *
  omega

def cellVersionCanBeHandled (cellVersion : UInt8) : Bool :=
  if p.acceptMinVersion > sendmeMaxSupportedVersion then false
  else if cellVersion.toNat < p.acceptMinVersion then false
  else if cellVersion.toNat > sendmeMaxSupportedVersion then false
  else true

/-- `sendme_is_valid`, with the state after it: `pop_first_cell_digest` has taken a digest. -/
def sendmeIsValid (cellPayload : List UInt8) (e : Endpoint) : Bool × Endpoint :=
  let cell : Option SendmeCell :=
    if cellPayload.length = 0 then some ⟨0, 0, Bytes.pad 20 []⟩ else sendmeCellParse cellPayload
  match cell with
  | none => (false, e)
  | some cell =>
      if ¬ cellVersionCanBeHandled p cell.version then (false, e)
      else
        match e.sendmeLastDigests with
        | [] => (false, e)
        | circDigest :: digests =>
            -- More digests than the window has increments are not supposed to happen.
            let e := { e with sendmeLastDigests := digests, bug := e.bug || 10 < digests.length + 1 }
            if cell.version = 1 ∧ circDigest ≠ cell.dataV1Digest then (false, e) else (true, e)

/-- `sendme_process_circuit_level`; on failure the circuit is closed. -/
def sendmeProcessCircuitLevel (cellPayload : List UInt8) (e : Endpoint) : Endpoint :=
  match sendmeIsValid p cellPayload e with
  | (false, e) => { e with markedForClose := true }
  | (true, e) =>
      if e.packageWindow + circwindowIncrement > circwindowStart then { e with markedForClose := true }
      else { e with packageWindow := e.packageWindow + circwindowIncrement }

def sendmeCircuitDataReceived (e : Endpoint) : Endpoint :=
  { e with deliverWindow := e.deliverWindow - 1 }

/-- `circuit_receive_relay_cell` for a recognized cell, as far as it is about flow control. -/
def circuitReceiveRelayCell (cell : RelayCell) (e : Endpoint) : Endpoint :=
  let e := sendmeRecordReceivedCellDigest p { e with received := e.received ++ [cell] }
  if cell.command = relayCommandData then
    let e := sendmeCircuitDataReceived e
    if e.deliverWindow < 0 then { e with markedForClose := true }
    else sendmeCircuitConsiderSending p false e
  else if cell.command = relayCommandSendme ∧ cell.streamId = 0 then
    sendmeProcessCircuitLevel p cell.payload e
  else e

/-! ### What an end does, in one equation each -/

variable {p : Params} {e : Endpoint} {c : RelayCell}

/-- In a window that is not used up, the cell is the last before a `SENDME` just if a hundred divides
the window behind it. -/
theorem circuitSendmeCellIsNext_iff {w : ℤ} (hpos : 0 < w) :
    circuitSendmeCellIsNext w = true ↔ (w - 1) % 100 = 0 := by
  have hmod : (w - 1).tmod 100 = (w - 1) % 100 := Int.tmod_eq_emod_of_nonneg (by omega)
  unfold circuitSendmeCellIsNext circwindowStart circwindowIncrement
  rw [hmod]
  split
  · subst_vars
    decide
  · split <;> simp_all

theorem relaySendCommandFromEdge_other (hc : c.command ≠ relayCommandData) :
    ∃ d, relaySendCommandFromEdge p c e = { e with sent := e.sent ++ [c], sendmeDigest := d } := by
  simp only [relaySendCommandFromEdge, if_neg hc, sendmeRecordSendingCellDigest]
  split
  · exact ⟨_, rfl⟩
  · exact ⟨_, rfl⟩

theorem relaySendCommandFromEdge_data (hc : c.command = relayCommandData) :
    ∃ d, relaySendCommandFromEdge p c e =
      { e with
        sent := e.sent ++ [c]
        sendmeDigest := d
        sendmeLastDigests := e.sendmeLastDigests ++
          if circuitSendmeCellIsNext e.packageWindow then [p.outDigest (e.sent ++ [c])] else [] } := by
  simp only [relaySendCommandFromEdge, if_pos hc, sendmeRecordSendingCellDigest,
    sendmeRecordCellDigestOnCirc]
  by_cases hnext : circuitSendmeCellIsNext e.packageWindow = true
  · exact ⟨p.outDigest (e.sent ++ [c]), by simp [hnext]⟩
  · exact ⟨e.sendmeDigest, by simp [hnext]⟩

/-- The cell of a version 1 `SENDME`. -/
def sendmeRelayCell (d : Bytes 20) (padding : List UInt8) : RelayCell :=
  ⟨relayCommandSendme, 0, buildCellPayloadV1 d, padding⟩

/-- At most one `SENDME` is due, and the window is full again after it. -/
theorem sendmeCircuitConsiderSending_eq (hlow : 900 ≤ e.deliverWindow) :
    ∃ d, sendmeCircuitConsiderSending p false e =
      if e.deliverWindow = 900 then
        { e with
          deliverWindow := 1000
          sent := e.sent ++ [sendmeRelayCell e.sendmeDigest (p.padding e.sent)]
          sendmeDigest := d }
      else e := by
  have hthreshold : circwindowStart - circwindowIncrement = 900 := rfl
  rw [sendmeCircuitConsiderSending]
  by_cases hdue : e.deliverWindow = 900
  · obtain ⟨d, hd⟩ := relaySendCommandFromEdge_other (p := p)
      (e := { e with deliverWindow := 1000 })
      (c := sendmeRelayCell e.sendmeDigest (p.padding e.sent))
      (show relayCommandSendme ≠ relayCommandData by decide)
    refine ⟨d, ?_⟩
    have hsend : sendCircuitLevelSendme p e.sendmeDigest { e with deliverWindow := 1000 } =
        { e with
          deliverWindow := 1000
          sent := e.sent ++ [sendmeRelayCell e.sendmeDigest (p.padding e.sent)]
          sendmeDigest := d } := hd
    have hle : e.deliverWindow ≤ circwindowStart - circwindowIncrement := by omega
    have hfull : (900 : ℤ) + circwindowIncrement = 1000 := rfl
    rw [if_pos hdue, if_pos hle, hdue]
    simp only [hfull, hsend]
    rw [sendmeCircuitConsiderSending]
    simp [hthreshold]
  · have hgt : ¬ e.deliverWindow ≤ circwindowStart - circwindowIncrement := by omega
    exact ⟨e.sendmeDigest, by rw [if_neg hdue, if_neg hgt]⟩

theorem sendmeRecordReceivedCellDigest_eq (p : Params) (e : Endpoint) :
    ∃ d, sendmeRecordReceivedCellDigest p e = { e with sendmeDigest := d } := by
  unfold sendmeRecordReceivedCellDigest
  split
  · exact ⟨_, rfl⟩
  · exact ⟨_, rfl⟩

theorem circuitReceiveRelayCell_other (hdata : c.isData = false) (hsendme : c.isSendme = false) :
    ∃ d, circuitReceiveRelayCell p c e =
      { e with received := e.received ++ [c], sendmeDigest := d } := by
  have hcmd : c.command ≠ relayCommandData := by simpa [RelayCell.isData] using hdata
  have hcirc : ¬ (c.command = relayCommandSendme ∧ c.streamId = 0) := by
    simpa [RelayCell.isSendme] using hsendme
  obtain ⟨d, hd⟩ := sendmeRecordReceivedCellDigest_eq p { e with received := e.received ++ [c] }
  exact ⟨d, by simp only [circuitReceiveRelayCell, if_neg hcmd, if_neg hcirc, hd]⟩

theorem circuitReceiveRelayCell_data (hdata : c.isData = true) (hlow : 901 ≤ e.deliverWindow)
    (hhigh : e.deliverWindow ≤ 1000) :
    ∃ d, circuitReceiveRelayCell p c e =
      if e.deliverWindow = 901 then
        { e with
          received := e.received ++ [c]
          deliverWindow := 1000
          sent := e.sent ++ [sendmeRelayCell (p.inDigest (e.received ++ [c])) (p.padding e.sent)]
          sendmeDigest := d }
      else
        { e with
          received := e.received ++ [c]
          deliverWindow := e.deliverWindow - 1
          sendmeDigest := d } := by
  have hcmd : c.command = relayCommandData := by simpa [RelayCell.isData] using hdata
  have hnext := circuitSendmeCellIsNext_iff (w := e.deliverWindow) (by omega)
  simp only [circuitReceiveRelayCell, if_pos hcmd, sendmeRecordReceivedCellDigest]
  by_cases hdue : e.deliverWindow = 901
  · have hrec : circuitSendmeCellIsNext e.deliverWindow = true := hnext.mpr (by omega)
    obtain ⟨d, hd⟩ := sendmeCircuitConsiderSending_eq (p := p)
      (e := { e with
        received := e.received ++ [c]
        deliverWindow := 900
        sendmeDigest := p.inDigest (e.received ++ [c]) }) (by simp)
    refine ⟨d, ?_⟩
    rw [if_pos hrec, if_pos hdue]
    simp only [sendmeCircuitDataReceived, hdue, Int.reduceSub, Int.reduceLT, if_false, hd, if_true]
  · have hrec : circuitSendmeCellIsNext e.deliverWindow = false := by
      rw [← Bool.not_eq_true, hnext]
      omega
    obtain ⟨d, hd⟩ := sendmeCircuitConsiderSending_eq (p := p)
      (e := { e with received := e.received ++ [c], deliverWindow := e.deliverWindow - 1 })
      (by simp only; omega)
    refine ⟨e.sendmeDigest, ?_⟩
    rw [if_neg hdue]
    simp only [hrec, sendmeCircuitDataReceived, Bool.false_eq_true, if_false]
    rw [if_neg (by omega), hd, if_neg (by simp only; omega)]

/-- A `SENDME` with the digest that is expected next is valid. -/
theorem sendmeIsValid_expected {d : Bytes 20} {digests : List (Bytes 20)}
    (haccept : p.acceptMinVersion ≤ 1) (hdigests : e.sendmeLastDigests = d :: digests)
    (hlen : digests.length < 10) (hbug : e.bug = false) :
    sendmeIsValid p (buildCellPayloadV1 d) e = (true, { e with sendmeLastDigests := digests }) := by
  have hver : cellVersionCanBeHandled p 1 = true := by
    have h1 : (1 : UInt8).toNat = 1 := rfl
    simp only [cellVersionCanBeHandled, sendmeMaxSupportedVersion, h1]
    rw [if_neg (by omega), if_neg (by omega), if_neg (by omega)]
  have hnonempty : (buildCellPayloadV1 d).length ≠ 0 := by simp [buildCellPayloadV1]
  simp only [sendmeIsValid, if_neg hnonempty, sendmeCellParse_buildCellPayloadV1, hver, hdigests]
  simp [hlen, hbug]

theorem circuitReceiveRelayCell_sendme {d : Bytes 20} {digests : List (Bytes 20)}
    (haccept : p.acceptMinVersion ≤ 1) (hsendme : c.isSendme = true)
    (hpayload : c.payload = buildCellPayloadV1 d) (hdigests : e.sendmeLastDigests = d :: digests)
    (hlen : digests.length < 10) (hwin : e.packageWindow ≤ 900) (hbug : e.bug = false) :
    ∃ d', circuitReceiveRelayCell p c e =
      { e with
        received := e.received ++ [c]
        packageWindow := e.packageWindow + 100
        sendmeLastDigests := digests
        sendmeDigest := d' } := by
  obtain ⟨hcmd, hstream⟩ : c.command = relayCommandSendme ∧ c.streamId = 0 := by
    simpa [RelayCell.isSendme] using hsendme
  have hne : c.command ≠ relayCommandData := by rw [hcmd]; decide
  obtain ⟨d', hd'⟩ := sendmeRecordReceivedCellDigest_eq p { e with received := e.received ++ [c] }
  have hvalid := sendmeIsValid_expected (p := p)
    (e := { e with received := e.received ++ [c], sendmeDigest := d' }) haccept hdigests hlen hbug
  have hopen : ¬ e.packageWindow + circwindowIncrement > circwindowStart := by
    simp only [circwindowIncrement, circwindowStart]
    omega
  refine ⟨d', ?_⟩
  simp only [circuitReceiveRelayCell, if_neg hne, if_pos (And.intro hcmd hstream), hd',
    sendmeProcessCircuitLevel, hpayload, hvalid, if_neg hopen]
  rfl

/-! ### What the cells of a direction call for -/

/-- How many of the cells are `DATA` cells. -/
def dataCount (l : List RelayCell) : ℕ := l.countP RelayCell.isData

/-- The payloads of the circuit-level `SENDME`s among the cells. -/
def sendmes (l : List RelayCell) : List (List UInt8) := (l.filter RelayCell.isSendme).map (·.payload)

/-- The digests of the cells that complete a hundred `DATA` cells, among cells that follow others. -/
def marks (digest : List RelayCell → Bytes 20) : List RelayCell → List RelayCell → List (Bytes 20)
  | _, [] => []
  | past, c :: future =>
      (if c.isData ∧ dataCount (past ++ [c]) % 100 = 0 then [digest (past ++ [c])] else []) ++
        marks digest (past ++ [c]) future

variable {digest : List RelayCell → Bytes 20} {past l m : List RelayCell}

theorem dataCount_append : dataCount (l ++ m) = dataCount l + dataCount m := List.countP_append

theorem dataCount_snoc_of_data (h : c.isData = true) : dataCount (l ++ [c]) = dataCount l + 1 := by
  simp [dataCount, h]

theorem dataCount_snoc_of_not_data (h : c.isData = false) : dataCount (l ++ [c]) = dataCount l := by
  simp [dataCount, h]

theorem sendmes_append : sendmes (l ++ m) = sendmes l ++ sendmes m := by
  simp [sendmes]

theorem sendmes_snoc (h : c.isSendme = true) : sendmes (l ++ [c]) = sendmes l ++ [c.payload] := by
  simp [sendmes, h]

theorem isSendme_of_isData (h : c.isData = true) : c.isSendme = false := by
  have hcmd : c.command = relayCommandData := by simpa [RelayCell.isData] using h
  simp [RelayCell.isSendme, hcmd, relayCommandData, relayCommandSendme]

theorem isData_of_isSendme (h : c.isSendme = true) : c.isData = false := by
  cases hdata : c.isData with
  | false => rfl
  | true => rw [isSendme_of_isData hdata] at h; cases h

theorem marks_append (past l m : List RelayCell) :
    marks digest past (l ++ m) = marks digest past l ++ marks digest (past ++ l) m := by
  induction l generalizing past with
  | nil => simp [marks]
  | cons c l ih => simp [marks, ih]

theorem marks_snoc (l : List RelayCell) (c : RelayCell) :
    marks digest [] (l ++ [c]) = marks digest [] l ++
      if c.isData ∧ dataCount (l ++ [c]) % 100 = 0 then [digest (l ++ [c])] else [] := by
  simp [marks_append, marks]

/-- One digest for each hundred `DATA` cells. -/
theorem length_marks (digest : List RelayCell → Bytes 20) (past l : List RelayCell) :
    dataCount past / 100 + (marks digest past l).length = dataCount (past ++ l) / 100 := by
  induction l generalizing past with
  | nil => simp [marks]
  | cons c l ih =>
    have hrest := ih (past ++ [c])
    rw [List.append_assoc, List.singleton_append] at hrest
    rw [marks, List.length_append, ← hrest]
    cases hdata : c.isData with
    | false => simp [dataCount_snoc_of_not_data hdata]
    | true =>
      rw [dataCount_snoc_of_data hdata]
      by_cases hmark : (dataCount past + 1) % 100 = 0
      · simp only [hmark, and_self, if_true, List.length_singleton]
        omega
      · simp only [hmark, and_false, if_false, List.length_nil]
        omega

theorem length_marks_nil (digest : List RelayCell → Bytes 20) (l : List RelayCell) :
    (marks digest [] l).length = dataCount l / 100 := by
  simpa [dataCount] using length_marks digest [] l

theorem marks_append_of_no_data (h : dataCount m = 0) :
    marks digest [] (l ++ m) = marks digest [] l := by
  have hlen := length_marks digest l m
  rw [dataCount_append, h, Nat.add_zero] at hlen
  have hnil : marks digest l m = [] := List.length_eq_zero_iff.mp (by omega)
  rw [marks_append, List.nil_append, hnil, List.append_nil]

/-! ### The invariant of a direction -/

/-- What holds between the end `a` that packages and the end `b` that delivers. -/
structure Link (digest : List RelayCell → Bytes 20) (a b : Endpoint) : Prop where
  fifo : b.received <+: a.sent
  acked : sendmes b.sent = (marks digest [] b.received).map buildCellPayloadV1
  expected : a.sendmeLastDigests = (marks digest [] a.sent).drop (sendmes a.received).length
  packageWindow_eq :
    a.packageWindow = 1000 - dataCount a.sent + 100 * (sendmes a.received).length
  packageWindow_nonneg : 0 ≤ a.packageWindow
  deliverWindow_eq :
    b.deliverWindow = 1000 - dataCount b.received + 100 * (sendmes b.sent).length

theorem link_init : Link digest .init .init where
  fifo := List.prefix_refl _
  acked := rfl
  expected := rfl
  packageWindow_eq := rfl
  packageWindow_nonneg := by decide
  deliverWindow_eq := rfl

variable {a b : Endpoint}

theorem Link.length_sendmes (h : Link digest a b) :
    (sendmes b.sent).length = dataCount b.received / 100 := by
  rw [h.acked, List.length_map, length_marks_nil]

theorem Link.deliverWindow_bounds (h : Link digest a b) :
    901 ≤ b.deliverWindow ∧ b.deliverWindow ≤ 1000 := by
  have heq := h.deliverWindow_eq
  rw [h.length_sendmes] at heq
  omega

theorem Link.dataCount_le (h : Link digest a b) : dataCount b.received ≤ dataCount a.sent :=
  h.fifo.sublist.countP_le

/-- What the other end acknowledged is at most what was packaged. -/
theorem Link.acked_le (h : Link digest a b) (hback : a.received <+: b.sent) :
    (sendmes a.received).length ≤ dataCount b.received / 100 := by
  rw [← h.length_sendmes]
  simp only [sendmes, List.length_map]
  exact (hback.sublist.filter _).length_le

theorem Link.package (h : Link digest a b) {a' : Endpoint} (hdata : c.isData = true)
    (hopen : 0 < a.packageWindow) (hsent : a'.sent = a.sent ++ [c]) (hrecv : a'.received = a.received)
    (hwin : a'.packageWindow = a.packageWindow - 1) (hacked : (sendmes a.received).length ≤
      dataCount a.sent / 100)
    (hlast : a'.sendmeLastDigests = a.sendmeLastDigests ++
      if circuitSendmeCellIsNext a.packageWindow then [digest (a.sent ++ [c])] else []) :
    Link digest a' b where
  fifo := by
    rw [hsent]
    exact h.fifo.trans (List.prefix_append _ _)
  acked := h.acked
  expected := by
    have hcount := dataCount_snoc_of_data (l := a.sent) hdata
    have hwineq := h.packageWindow_eq
    have hnext := circuitSendmeCellIsNext_iff hopen
    have hsame : circuitSendmeCellIsNext a.packageWindow = true ↔
        c.isData = true ∧ dataCount (a.sent ++ [c]) % 100 = 0 := by
      rw [hnext, hcount]
      constructor
      · intro hmod
        exact ⟨hdata, by omega⟩
      · intro hmod
        omega
    have hle : (sendmes a.received).length ≤ (marks digest [] a.sent).length := by
      rwa [length_marks_nil]
    rw [hlast, hsent, hrecv, marks_snoc, List.drop_append_of_le_length hle, h.expected]
    simp only [hsame]
  packageWindow_eq := by
    rw [hwin, hsent, hrecv, dataCount_snoc_of_data hdata, h.packageWindow_eq]
    push_cast
    ring
  packageWindow_nonneg := by omega
  deliverWindow_eq := h.deliverWindow_eq

/-- The packaging end sends or receives cells that are not about the direction. -/
theorem Link.packager_other (h : Link digest a b) {a' : Endpoint}
    (hsent : ∃ l, a'.sent = a.sent ++ l ∧ dataCount l = 0)
    (hrecv : ∃ l, a'.received = a.received ++ l ∧ sendmes l = [])
    (hwin : a'.packageWindow = a.packageWindow)
    (hlast : a'.sendmeLastDigests = a.sendmeLastDigests) : Link digest a' b where
  fifo := by
    obtain ⟨l, hl, -⟩ := hsent
    rw [hl]
    exact h.fifo.trans (List.prefix_append _ _)
  acked := h.acked
  expected := by
    obtain ⟨l, hl, hl0⟩ := hsent
    obtain ⟨m, hm, hm0⟩ := hrecv
    rw [hlast, hl, hm, sendmes_append, hm0, List.append_nil, marks_append_of_no_data hl0, h.expected]
  packageWindow_eq := by
    obtain ⟨l, hl, hl0⟩ := hsent
    obtain ⟨m, hm, hm0⟩ := hrecv
    rw [hwin, hl, hm, dataCount_append, hl0, sendmes_append, hm0, List.append_nil, Nat.add_zero,
      h.packageWindow_eq]
  packageWindow_nonneg := by rw [hwin]; exact h.packageWindow_nonneg
  deliverWindow_eq := h.deliverWindow_eq

/-- The delivering end receives a `DATA` cell, and acknowledges if a hundred are complete. -/
theorem Link.deliver (h : Link digest a b) {b' : Endpoint} (hdata : c.isData = true)
    (hnext : b.received ++ [c] <+: a.sent) (hrecv : b'.received = b.received ++ [c])
    (hsent : ∃ l, b'.sent = b.sent ++ l ∧ sendmes l =
      if b.deliverWindow = 901 then [buildCellPayloadV1 (digest (b.received ++ [c]))] else [])
    (hwin : b'.deliverWindow = if b.deliverWindow = 901 then 1000 else b.deliverWindow - 1) :
    Link digest a b' where
  fifo := by rwa [hrecv]
  acked := by
    obtain ⟨l, hl, hl'⟩ := hsent
    have heq := h.deliverWindow_eq
    rw [h.length_sendmes] at heq
    rw [hl, hrecv, sendmes_append, hl', h.acked, marks_snoc, dataCount_snoc_of_data hdata,
      List.map_append]
    by_cases hdue : b.deliverWindow = 901
    · have hmod : (dataCount b.received + 1) % 100 = 0 := by omega
      simp [hdue, hdata, hmod]
    · have hmod : ¬ (dataCount b.received + 1) % 100 = 0 := by omega
      simp [hdue, hmod]
  expected := h.expected
  packageWindow_eq := h.packageWindow_eq
  packageWindow_nonneg := h.packageWindow_nonneg
  deliverWindow_eq := by
    obtain ⟨l, hl, hl'⟩ := hsent
    have heq := h.deliverWindow_eq
    rw [hwin, hl, hrecv, sendmes_append, hl', dataCount_snoc_of_data hdata, List.length_append]
    by_cases hdue : b.deliverWindow = 901
    · simp only [hdue, if_true, List.length_singleton]
      omega
    · simp only [hdue, if_false, List.length_nil]
      omega

/-- The delivering end sends or receives cells that are not about the direction. -/
theorem Link.deliverer_other (h : Link digest a b) {b' : Endpoint}
    (hsent : ∃ l, b'.sent = b.sent ++ l ∧ sendmes l = [])
    (hrecv : ∃ l, b'.received = b.received ++ l ∧ dataCount l = 0) (hfifo : b'.received <+: a.sent)
    (hwin : b'.deliverWindow = b.deliverWindow) : Link digest a b' where
  fifo := hfifo
  acked := by
    obtain ⟨l, hl, hl0⟩ := hsent
    obtain ⟨m, hm, hm0⟩ := hrecv
    rw [hl, hm, sendmes_append, hl0, List.append_nil, marks_append_of_no_data hm0, h.acked]
  expected := h.expected
  packageWindow_eq := h.packageWindow_eq
  packageWindow_nonneg := h.packageWindow_nonneg
  deliverWindow_eq := by
    obtain ⟨l, hl, hl0⟩ := hsent
    obtain ⟨m, hm, hm0⟩ := hrecv
    rw [hwin, hl, hm, dataCount_append, hm0, sendmes_append, hl0, List.append_nil, Nat.add_zero,
      h.deliverWindow_eq]

/-- The digest of the next `SENDME` is the one the packaging end expects next. -/
theorem Link.next_sendme (h : Link digest a b) (hsendme : c.isSendme = true)
    (hnext : a.received ++ [c] <+: b.sent) :
    ∃ d digests, c.payload = buildCellPayloadV1 d ∧ a.sendmeLastDigests = d :: digests ∧
      digests = (marks digest [] a.sent).drop ((sendmes a.received).length + 1) ∧
      digests.length < 10 ∧ a.packageWindow ≤ 900 := by
  obtain ⟨rest, hrest⟩ := hnext
  obtain ⟨tail, htail⟩ := h.fifo
  -- the payloads of the `SENDME`s of `b`, the marks of what it received, and of what `a` sent
  have hpay : sendmes a.received ++ c.payload :: sendmes rest =
      (marks digest [] b.received).map buildCellPayloadV1 := by
    rw [← h.acked, ← hrest, sendmes_append, sendmes_snoc hsendme, List.append_assoc,
      List.singleton_append]
  have hmarks : marks digest [] a.sent =
      marks digest [] b.received ++ marks digest b.received tail := by
    rw [← htail, marks_append, List.nil_append]
  obtain ⟨m₁, m₂, hm, hm₁, hm₂⟩ := List.append_eq_map_iff.mp hpay
  obtain ⟨d, m₃, hm₂', hd, -⟩ := List.map_eq_cons_iff.mp hm₂
  have hlen₁ : (sendmes a.received).length = m₁.length := by rw [← hm₁, List.length_map]
  have hsplit : marks digest [] a.sent = m₁ ++ d :: (m₃ ++ marks digest b.received tail) := by
    rw [hmarks, hm, hm₂']
    simp
  have hcount : dataCount a.sent / 100 =
      m₁.length + 1 + (m₃ ++ marks digest b.received tail).length := by
    rw [← length_marks_nil digest, hsplit, List.length_append, List.length_cons]
    omega
  have hwin := h.packageWindow_eq
  have hnonneg := h.packageWindow_nonneg
  refine ⟨d, m₃ ++ marks digest b.received tail, hd.symm, ?_, ?_, ?_, ?_⟩
  · rw [h.expected, hsplit, hlen₁, List.drop_left]
  · rw [hsplit, hlen₁, ← List.drop_drop, List.drop_left, List.drop_one, List.tail_cons]
  · omega
  · omega

theorem Link.ack (h : Link digest a b) {a' : Endpoint} (hsendme : c.isSendme = true)
    (hsent : a'.sent = a.sent) (hrecv : a'.received = a.received ++ [c])
    (hwin : a'.packageWindow = a.packageWindow + 100)
    (hlast : a'.sendmeLastDigests =
      (marks digest [] a.sent).drop ((sendmes a.received).length + 1)) : Link digest a' b where
  fifo := by rw [hsent]; exact h.fifo
  acked := h.acked
  expected := by
    rw [hlast, hsent, hrecv, sendmes_snoc hsendme, List.length_append, List.length_singleton]
  packageWindow_eq := by
    rw [hwin, hsent, hrecv, sendmes_snoc hsendme, List.length_append, List.length_singleton,
      h.packageWindow_eq]
    push_cast
    ring
  packageWindow_nonneg := by
    have hnonneg := h.packageWindow_nonneg
    omega
  deliverWindow_eq := h.deliverWindow_eq

/-! ### The two ends -/

/-- The hop between two ends, `false` and `true`: the running digest of the cells each end sends, the
padding of its `SENDME`s, and a `sendme_accept_min_version` that lets version 1 in. -/
structure Hop where
  digest : Bool → List RelayCell → Bytes 20
  padding : Bool → List RelayCell → List UInt8
  acceptMinVersion : Bool → ℕ
  acceptMinVersion_le : ∀ s, acceptMinVersion s ≤ sendmeMaxSupportedVersion

def Hop.params (hop : Hop) (s : Bool) : Params :=
  ⟨hop.digest s, hop.digest (!s), hop.padding s, hop.acceptMinVersion s⟩

inductive Event where
  /-- An end reads from a stream and packages what it read. -/
  | package (s : Bool) (streamId : UInt16) (streamWindow : ℤ) (maxCells : Option ℤ)
      (chunks : List (List UInt8 × List UInt8))
  /-- An end sends a relay cell that is neither a `DATA` cell nor a circuit-level `SENDME`. -/
  | send (s : Bool) (cell : RelayCell)
  /-- An end receives the next cell the other end sent. -/
  | deliver (s : Bool)

/-- The cells that `s` sent and the other end has not received. -/
def inFlight (w : Bool → Endpoint) (s : Bool) : List RelayCell :=
  (w s).sent.drop (w (!s)).received.length

/-- One event.  A circuit that is marked for close does nothing any more. -/
inductive Step (hop : Hop) : (Bool → Endpoint) → Event → (Bool → Endpoint) → Prop where
  | package {w : Bool → Endpoint} {s : Bool} {streamId : UInt16} {streamWindow : ℤ}
      {maxCells : Option ℤ} {chunks : List (List UInt8 × List UInt8)}
      (hopen : (w s).markedForClose = false) :
      Step hop w (.package s streamId streamWindow maxCells chunks)
        (Function.update w s
          (connectionEdgePackageRawInbuf (hop.params s) streamId streamWindow maxCells chunks (w s)))
  | send {w : Bool → Endpoint} {s : Bool} {cell : RelayCell}
      (hopen : (w s).markedForClose = false) (hdata : cell.isData = false)
      (hsendme : cell.isSendme = false) :
      Step hop w (.send s cell)
        (Function.update w s (relaySendCommandFromEdge (hop.params s) cell (w s)))
  | deliver {w : Bool → Endpoint} {s : Bool} {cell : RelayCell}
      (hopen : (w s).markedForClose = false) (hnext : (inFlight w (!s)).head? = some cell) :
      Step hop w (.deliver s)
        (Function.update w s (circuitReceiveRelayCell (hop.params s) cell (w s)))

/-- Two ends that agree in both directions, with nothing gone wrong. -/
structure Inv (hop : Hop) (w : Bool → Endpoint) : Prop where
  link : ∀ s, Link (hop.digest s) (w s) (w (!s))
  healthy : ∀ s, (w s).markedForClose = false ∧ (w s).bug = false

variable {hop : Hop} {w : Bool → Endpoint} {s : Bool}

/-- It is enough to look at the end that did something, as packager and as deliverer. -/
theorem Inv.update (h : Inv hop w) {e : Endpoint} (hpack : Link (hop.digest s) e (w (!s)))
    (hdeliv : Link (hop.digest (!s)) (w (!s)) e)
    (hgood : e.markedForClose = false ∧ e.bug = false) : Inv hop (Function.update w s e) where
  link := by
    intro t
    rcases Bool.eq_or_eq_not t s with rfl | rfl
    · simpa using hpack
    · simpa using hdeliv
  healthy := by
    intro t
    rcases Bool.eq_or_eq_not t s with rfl | rfl
    · simpa using hgood
    · simpa using h.healthy (!s)

theorem Inv.acked_le (h : Inv hop w) (s : Bool) :
    (sendmes (w s).received).length ≤ dataCount (w s).sent / 100 := by
  have hlink := h.link s
  have hback : (w s).received <+: (w (!s)).sent := by simpa using (h.link (!s)).fifo
  exact (hlink.acked_le hback).trans (Nat.div_le_div_right hlink.dataCount_le)

theorem sendmes_singleton (h : c.isSendme = false) : sendmes [c] = [] := by
  simp [sendmes, h]

theorem dataCount_singleton (h : c.isData = false) : dataCount [c] = 0 := by
  simp [dataCount, h]

/-- One pass of the loop of `connection_edge_package_raw_inbuf`. -/
theorem Inv.package_one (h : Inv hop w) (hdata : c.isData = true) (hopen : 0 < (w s).packageWindow) :
    Inv hop (Function.update w s
      { relaySendCommandFromEdge (hop.params s) c (w s) with
        packageWindow := (w s).packageWindow - 1 }) := by
  have hcmd : c.command = relayCommandData := by simpa [RelayCell.isData] using hdata
  obtain ⟨d, hd⟩ := relaySendCommandFromEdge_data (p := hop.params s) (e := w s) hcmd
  rw [hd]
  refine h.update ?_ ?_ (h.healthy s)
  · exact (h.link s).package hdata hopen rfl rfl rfl (h.acked_le s) rfl
  · have hlink : Link (hop.digest (!s)) (w (!s)) (w s) := by simpa using h.link (!s)
    exact hlink.deliverer_other ⟨[c], rfl, sendmes_singleton (isSendme_of_isData hdata)⟩
      ⟨[], by simp, rfl⟩ hlink.fifo rfl

theorem Inv.package (h : Inv hop w) (streamId : UInt16) (streamWindow : ℤ) (maxCells : Option ℤ)
    (chunks : List (List UInt8 × List UInt8)) :
    Inv hop (Function.update w s
      (connectionEdgePackageRawInbuf (hop.params s) streamId streamWindow maxCells chunks (w s))) := by
  -- along the passes of the loop
  induction chunks generalizing streamWindow maxCells w with
  | nil => simpa [connectionEdgePackageRawInbuf] using h
  | cons chunk chunks ih =>
    obtain ⟨payload, padding⟩ := chunk
    rw [connectionEdgePackageRawInbuf]
    split
    · simpa using h
    split
    · simpa using h
    · rename_i hopen
      split
      · simpa using h
      · have hdata : (RelayCell.mk relayCommandData streamId payload padding).isData = true := rfl
        have hone := h.package_one (s := s) hdata (by omega)
        obtain ⟨d, hd⟩ := relaySendCommandFromEdge_data (p := hop.params s) (e := w s)
          (c := RelayCell.mk relayCommandData streamId payload padding) rfl
        have hwin : (relaySendCommandFromEdge (hop.params s)
            (RelayCell.mk relayCommandData streamId payload padding) (w s)).packageWindow =
              (w s).packageWindow := by rw [hd]
        simp only [hwin]
        split
        · exact hone
        · split
          · exact hone
          · have hnext := ih hone (streamWindow - 1) (maxCells.map (· - 1))
            rwa [Function.update_self, Function.update_idem] at hnext

theorem Inv.send (h : Inv hop w) (hdata : c.isData = false) (hsendme : c.isSendme = false) :
    Inv hop (Function.update w s (relaySendCommandFromEdge (hop.params s) c (w s))) := by
  have hcmd : c.command ≠ relayCommandData := by simpa [RelayCell.isData] using hdata
  have hlink : Link (hop.digest (!s)) (w (!s)) (w s) := by simpa using h.link (!s)
  obtain ⟨d, hd⟩ := relaySendCommandFromEdge_other (p := hop.params s) (e := w s) hcmd
  rw [hd]
  refine h.update ?_ ?_ (h.healthy s)
  · exact (h.link s).packager_other ⟨[c], rfl, dataCount_singleton hdata⟩ ⟨[], by simp, rfl⟩ rfl rfl
  · exact hlink.deliverer_other ⟨[c], rfl, sendmes_singleton hsendme⟩ ⟨[], by simp, rfl⟩ hlink.fifo rfl

theorem Inv.next_prefix (h : Inv hop w) (hnext : (inFlight w (!s)).head? = some c) :
    (w s).received ++ [c] <+: (w (!s)).sent := by
  have hfifo : (w s).received <+: (w (!s)).sent := by simpa using (h.link (!s)).fifo
  obtain ⟨rest, hrest⟩ := hfifo
  have hflight : inFlight w (!s) = rest := by
    rw [inFlight, Bool.not_not, ← hrest, List.drop_left]
  rw [hflight] at hnext
  obtain ⟨rest', rfl⟩ := List.head?_eq_some_iff.mp hnext
  exact ⟨rest', by rw [← hrest, List.append_assoc, List.singleton_append]⟩

theorem Inv.deliver_data (h : Inv hop w) (hdata : c.isData = true)
    (hnext : (w s).received ++ [c] <+: (w (!s)).sent) :
    Inv hop (Function.update w s (circuitReceiveRelayCell (hop.params s) c (w s))) := by
  have hlink : Link (hop.digest (!s)) (w (!s)) (w s) := by simpa using h.link (!s)
  have hsendme := sendmes_singleton (isSendme_of_isData hdata)
  obtain ⟨hlow, hhigh⟩ := hlink.deliverWindow_bounds
  obtain ⟨d, hd⟩ := circuitReceiveRelayCell_data (p := hop.params s) hdata hlow hhigh
  rw [hd]
  by_cases hdue : (w s).deliverWindow = 901
  · rw [if_pos hdue]
    refine h.update ?_ ?_ (h.healthy s)
    · exact (h.link s).packager_other ⟨_, rfl, dataCount_singleton rfl⟩ ⟨[c], rfl, hsendme⟩ rfl rfl
    · refine hlink.deliver hdata hnext rfl ⟨_, rfl, ?_⟩ ?_
      · rw [if_pos hdue]
        rfl
      · rw [if_pos hdue]
  · rw [if_neg hdue]
    refine h.update ?_ ?_ (h.healthy s)
    · exact (h.link s).packager_other ⟨[], by simp, rfl⟩ ⟨[c], rfl, hsendme⟩ rfl rfl
    · refine hlink.deliver hdata hnext rfl ⟨[], by simp, ?_⟩ ?_
      · rw [if_neg hdue]
        rfl
      · rw [if_neg hdue]

theorem Inv.deliver_sendme (h : Inv hop w) (hsendme : c.isSendme = true)
    (hnext : (w s).received ++ [c] <+: (w (!s)).sent) :
    Inv hop (Function.update w s (circuitReceiveRelayCell (hop.params s) c (w s))) := by
  have hlink : Link (hop.digest (!s)) (w (!s)) (w s) := by simpa using h.link (!s)
  obtain ⟨d, digests, hpay, hlast, hdigests, hlen, hwin⟩ := (h.link s).next_sendme hsendme hnext
  obtain ⟨d', hd'⟩ := circuitReceiveRelayCell_sendme (p := hop.params s)
    (hop.acceptMinVersion_le s) hsendme hpay hlast hlen hwin (h.healthy s).2
  rw [hd']
  refine h.update ?_ ?_ (h.healthy s)
  · exact (h.link s).ack hsendme rfl rfl rfl hdigests
  · exact hlink.deliverer_other ⟨[], by simp, rfl⟩
      ⟨[c], rfl, dataCount_singleton (isData_of_isSendme hsendme)⟩ hnext rfl

theorem Inv.deliver_other (h : Inv hop w) (hdata : c.isData = false) (hsendme : c.isSendme = false)
    (hnext : (w s).received ++ [c] <+: (w (!s)).sent) :
    Inv hop (Function.update w s (circuitReceiveRelayCell (hop.params s) c (w s))) := by
  have hlink : Link (hop.digest (!s)) (w (!s)) (w s) := by simpa using h.link (!s)
  obtain ⟨d, hd⟩ := circuitReceiveRelayCell_other (p := hop.params s) (e := w s) hdata hsendme
  rw [hd]
  refine h.update ?_ ?_ (h.healthy s)
  · exact (h.link s).packager_other ⟨[], by simp, rfl⟩ ⟨[c], rfl, sendmes_singleton hsendme⟩ rfl rfl
  · exact hlink.deliverer_other ⟨[], by simp, rfl⟩ ⟨[c], rfl, dataCount_singleton hdata⟩ hnext rfl

/-- **Every event keeps the invariant.** -/
theorem Inv.step {w' : Bool → Endpoint} {ev : Event} (h : Inv hop w) (hstep : Step hop w ev w') :
    Inv hop w' := by
  cases hstep with
  | package _ => exact h.package _ _ _ _
  | send _ hdata hsendme => exact h.send hdata hsendme
  | @deliver s c _ hhead =>
    have hnext := h.next_prefix hhead
    cases hdata : c.isData with
    | true => exact h.deliver_data hdata hnext
    | false =>
      cases hsendme : c.isSendme with
      | true => exact h.deliver_sendme hsendme hnext
      | false => exact h.deliver_other hdata hsendme hnext

theorem inv_init (hop : Hop) : Inv hop (fun _ => .init) where
  link := fun _ => link_init
  healthy := fun _ => ⟨rfl, rfl⟩

/-! ### Flow control -/

/-- `DATA` cells that an end received and has not acknowledged. -/
def unacknowledged (e : Endpoint) : ℤ := dataCount e.received - 100 * (sendmes e.sent).length

/-- What is promised of the direction from `s` to the other end. -/
structure FlowControl (hop : Hop) (w : Bool → Endpoint) (s : Bool) : Prop where
  packageWindow_bounds : 0 ≤ (w s).packageWindow ∧ (w s).packageWindow ≤ 1000
  deliverWindow_bounds : 0 ≤ (w (!s)).deliverWindow ∧ (w (!s)).deliverWindow ≤ 1000
  /-- Every cell of the window is accounted for. -/
  accounting : (w s).packageWindow + dataCount (inFlight w s) + unacknowledged (w (!s)) +
    100 * (sendmes (inFlight w (!s))).length = 1000
  /-- The digests expected are those of the `SENDME`s on their way, and then those of the hundredth
  `DATA` cells on theirs. -/
  digests : ∃ coming, sendmes (inFlight w (!s)) = coming.map buildCellPayloadV1 ∧
    (w s).sendmeLastDigests = coming ++ marks (hop.digest s) (w (!s)).received (inFlight w s)
  /-- No `SENDME` was refused and no window ran under. -/
  open_ : (w s).markedForClose = false
  /-- No nonfatal assertion failed. -/
  noBug : (w s).bug = false

/-- What was sent is what was received and what is in flight. -/
theorem Inv.sent_eq (h : Inv hop w) (s : Bool) :
    (w s).sent = (w (!s)).received ++ inFlight w s := by
  obtain ⟨rest, hrest⟩ := (h.link s).fifo
  rw [inFlight, ← hrest, List.drop_left]

theorem Inv.flowControl (h : Inv hop w) (s : Bool) : FlowControl hop w s := by
  have hlink := h.link s
  have hsent := h.sent_eq s
  have hback : (w (!s)).sent = (w s).received ++ inFlight w (!s) := by simpa using h.sent_eq (!s)
  have hcount : dataCount (w s).sent =
      dataCount (w (!s)).received + dataCount (inFlight w s) := by rw [hsent, dataCount_append]
  have hsendmes : sendmes (w (!s)).sent = sendmes (w s).received ++ sendmes (inFlight w (!s)) := by
    rw [hback, sendmes_append]
  have hlen : (sendmes (w (!s)).sent).length =
      (sendmes (w s).received).length + (sendmes (inFlight w (!s))).length := by
    rw [hsendmes, List.length_append]
  have hmarks := hlink.length_sendmes
  have hpw := hlink.packageWindow_eq
  have hnonneg := hlink.packageWindow_nonneg
  have hacked := h.acked_le s
  obtain ⟨hlow, hhigh⟩ := hlink.deliverWindow_bounds
  refine ⟨⟨hnonneg, by omega⟩, ⟨by omega, hhigh⟩, ?_, ?_, (h.healthy s).1, (h.healthy s).2⟩
  · simp only [unacknowledged]
    omega
  · refine ⟨(marks (hop.digest s) [] (w (!s)).received).drop (sendmes (w s).received).length, ?_, ?_⟩
    · rw [List.map_drop, ← hlink.acked, hsendmes, List.drop_left]
    · have hle : (sendmes (w s).received).length ≤
          (marks (hop.digest s) [] (w (!s)).received).length := by
        rw [length_marks_nil, ← hmarks]
        omega
      rw [hlink.expected, hsent, marks_append, List.nil_append, List.drop_append_of_le_length hle]

theorem received_relaySendCommandFromEdge (p : Params) (c : RelayCell) (e : Endpoint) :
    (relaySendCommandFromEdge p c e).received = e.received := by
  unfold relaySendCommandFromEdge sendmeRecordSendingCellDigest sendmeRecordCellDigestOnCirc
  dsimp only
  split_ifs <;> rfl

theorem received_sendmeCircuitConsiderSending (p : Params) (b : Bool) (e : Endpoint) :
    (sendmeCircuitConsiderSending p b e).received = e.received := by
  fun_induction sendmeCircuitConsiderSending p b e with
  | case1 b e hdue _ _ ih => exact ih.trans (received_relaySendCommandFromEdge p _ _)
  | case2 b e hdue => rfl

theorem received_sendmeProcessCircuitLevel (p : Params) (l : List UInt8) (e : Endpoint) :
    (sendmeProcessCircuitLevel p l e).received = e.received := by
  have hvalid : (sendmeIsValid p l e).2.received = e.received := by
    unfold sendmeIsValid
    dsimp only
    split
    · rfl
    · split_ifs
      · split
        · rfl
        · split_ifs <;> rfl
      · rfl
  unfold sendmeProcessCircuitLevel
  split
  · rename_i e' heq
    rw [heq] at hvalid
    exact hvalid
  · rename_i e' heq
    rw [heq] at hvalid
    split_ifs <;> exact hvalid

theorem received_circuitReceiveRelayCell (p : Params) (c : RelayCell) (e : Endpoint) :
    (circuitReceiveRelayCell p c e).received = e.received ++ [c] := by
  obtain ⟨d, hd⟩ := sendmeRecordReceivedCellDigest_eq p { e with received := e.received ++ [c] }
  unfold circuitReceiveRelayCell
  rw [hd]
  dsimp only
  split_ifs
  · rfl
  · exact received_sendmeCircuitConsiderSending p false _
  · exact received_sendmeProcessCircuitLevel p _ _
  · rfl

/-- **What is in flight can be delivered**, all of it. -/
theorem Inv.deliver_all (s : Bool) : ∀ {n : ℕ} {w : Bool → Endpoint}, Inv hop w → (inFlight w (!s)).length = n →
    ∃ w', Run (Step hop) w (List.replicate n (.deliver s)) w' ∧ w' (!s) = w (!s) ∧
      (w' s).received = (w (!s)).sent := by
  intro n
  induction n with
  | zero =>
    intro w h hlen
    have hsent := h.sent_eq (!s)
    rw [List.length_eq_zero_iff.mp hlen, List.append_nil, Bool.not_not] at hsent
    exact ⟨w, .nil w, rfl, hsent.symm⟩
  | succ n ih =>
    intro w h hlen
    obtain ⟨c, rest, hflight⟩ := List.exists_cons_of_length_eq_add_one hlen
    have hstep : Step hop w (.deliver s) _ := .deliver (h.healthy s).1 (congrArg List.head? hflight)
    have hother : Function.update w s (circuitReceiveRelayCell (hop.params s) c (w s)) (!s) = w (!s) :=
      Function.update_of_ne (Bool.not_ne_self s) _ _
    have hrest : (inFlight (Function.update w s (circuitReceiveRelayCell (hop.params s) c (w s))) (!s)).length = n := by
      rw [inFlight, Bool.not_not] at hlen ⊢
      rw [hother, Function.update_self, received_circuitReceiveRelayCell]
      rw [List.length_drop] at hlen ⊢
      rw [List.length_append, List.length_singleton]
      omega
    obtain ⟨w', hrun, hsame, hreceived⟩ := ih (h.step hstep) hrest
    exact ⟨w', .cons hstep hrun, hsame.trans hother, hreceived.trans (by rw [hother])⟩

/-- **Flow control between two honest ends.**  In every run of a fresh circuit, whatever is packaged,
sent and delivered in whatever order, both directions keep their windows within bounds, account for
every cell of them, expect just the digests that come, and refuse no `SENDME`. -/
theorem flowControl_of_run (hop : Hop) (events : List Event) (w : Bool → Endpoint)
    (hrun : Run (Step hop) (fun _ => .init) events w) (s : Bool) : FlowControl hop w s := by
  have hinv : Inv hop w :=
    hrun.invariant (fun _ _ _ h hstep => Inv.step h hstep) (inv_init hop)
  exact hinv.flowControl s

/-- A hop whose running digest is the first bytes of the payloads. -/
def payloadHop : Hop where
  digest := fun _ l => Bytes.pad 20 (l.flatMap (·.payload))
  padding := fun _ _ => []
  acceptMinVersion := fun _ => 0
  acceptMinVersion_le := fun _ => Nat.zero_le _

/-- A hundred cells are packaged at one end and delivered at the other, and its `SENDME` is accepted. -/
theorem flowControl_of_run_hundred :
    ∃ n w, Run (Step payloadHop) (fun _ => .init)
      (.package false 1 500 none (List.replicate 100 ([7], [0])) ::
        (List.replicate 100 (.deliver true) ++ List.replicate n (.deliver false))) w ∧
      (sendmes (w false).received).length = 1 ∧ ∀ s, FlowControl payloadHop w s := by
  have hpackage : Step payloadHop (fun _ => .init) (.package false 1 500 none (List.replicate 100 ([7], [0]))) _ :=
    .package rfl
  have hinv := (inv_init payloadHop).step hpackage
  obtain ⟨w, hdeliver, -, hreceived⟩ := hinv.deliver_all true (n := 100) (by decide +kernel)
  have hinv' : Inv payloadHop w := hdeliver.invariant (fun _ _ _ h hstep => Inv.step h hstep) hinv
  have hsendmes := (hinv'.link false).length_sendmes
  obtain ⟨w', hback, -, hsame⟩ := hinv'.deliver_all false rfl
  have hrun := Run.cons hpackage (hdeliver.append hback)
  refine ⟨_, w', hrun, ?_, flowControl_of_run payloadHop _ w' hrun⟩
  rw [hsame]
  refine hsendmes.trans ?_
  rw [Bool.not_false, hreceived]
  decide +kernel

end TorEbpf.Or.Sendme
