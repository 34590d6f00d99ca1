import Mathlib
import TorEbpf.Lib.Events
import TorEbpf.Lib.InFlight

/-!
# Negotiating padding

A client asks a middle relay of its circuit to run padding machines (`circuitpadding.c`): `PADDING_NEGOTIATE`
cells start and stop them, `PADDING_NEGOTIATED` cells are the replies, and each end may also stop a machine
that has come to its end.  Both ends number the machines that they set up, each with a counter of its own.

* `Negotiates` — **the invariant**: the relay can read every cell in flight, and then runs a machine only
  where the client does; no reply in flight is about a machine that it runs;
* `negotiates_step` — every step whose machines the relay knows preserves it;
* `agrees_of_run` — what the cells and the two ends say of each other, in every such run.
-/

namespace TorEbpf.Or.CircpadNegotiate

open TorEbpf.Lib

/-! ### The data -/

def maxMachines : ℕ := 3

/-- `circpad_machine_spec_t`, as far as it is negotiated. -/
structure MachineSpec where
  machineNum : UInt8
  machineIndex : ℕ
  shouldNegotiateEnd : Bool
  isOriginSide : Bool
  targetHopnum : UInt8
  deriving DecidableEq, Repr

/-- `CIRCPAD_COMMAND_STOP` and `CIRCPAD_COMMAND_START`. -/
inductive Command where
  | stop
  | start
  deriving DecidableEq, Repr

/-- `CIRCPAD_RESPONSE_OK` and `CIRCPAD_RESPONSE_ERR`. -/
inductive Response where
  | ok
  | err
  deriving DecidableEq, Repr

/-- `circpad_negotiate_t`. -/
structure Negotiate where
  command : Command
  machineType : UInt8
  machineCtr : UInt32
  deriving DecidableEq, Repr

/-- `circpad_negotiated_t`. -/
structure Negotiated where
  command : Command
  response : Response
  machineType : UInt8
  machineCtr : UInt32
  deriving DecidableEq, Repr

/-- What a circuit keeps of its padding machines: `padding_machine`, `padding_info` (of which only the
`machine_ctr` is negotiated) and `padding_machine_ctr`. -/
structure Circuit where
  paddingMachine : ℕ → Option MachineSpec
  paddingInfo : ℕ → Option UInt32
  paddingMachineCtr : UInt32

/-- The client's end, the relay's end and the cells in flight. -/
structure State where
  client : Circuit
  paddingNegotiationFailed : Bool
  relay : Circuit
  toRelay : List Negotiate
  toClient : List Negotiated

/-- The two lists of machines: those of the client are for its side, at the hop of the relay, those of the
relay for the other side. -/
structure Config where
  originPaddingMachines : List MachineSpec
  relayPaddingMachines : List MachineSpec
  hop : UInt8
  origin : ∀ m ∈ originPaddingMachines, m.isOriginSide = true ∧ m.targetHopnum = hop ∧
    m.machineIndex < maxMachines
  relay : ∀ m ∈ relayPaddingMachines, m.isOriginSide = false ∧ m.machineIndex < maxMachines

/-! ### One circuit -/

def circuitMachineinfoFreeIdx (circ : Circuit) (idx : ℕ) : Circuit :=
  { circ with paddingInfo := Function.update circ.paddingInfo idx none }

/-- The machine of a slot is freed by `free_circ_machineinfos_with_machine_num`. -/
def matchesMachineNum (circ : Circuit) (machineNum : UInt8) (machineCtr : UInt32) (i : ℕ) : Bool :=
  match circ.paddingMachine i with
  | some machine =>
      machine.machineNum == machineNum &&
        !(machineCtr != 0 && (circ.paddingInfo i).any (· != machineCtr))
  | none => false

/-- `free_circ_machineinfos_with_machine_num`: each slot by itself, and whether there was any. -/
def freeCircMachineinfosWithMachineNum (circ : Circuit) (machineNum : UInt8) (machineCtr : UInt32) :
    Circuit × Bool :=
  ({ circ with
      paddingMachine := fun i =>
        if matchesMachineNum circ machineNum machineCtr i then none else circ.paddingMachine i
      paddingInfo := fun i =>
        if matchesMachineNum circ machineNum machineCtr i then none else circ.paddingInfo i },
    (List.range maxMachines).any (matchesMachineNum circ machineNum machineCtr))

/-- `circpad_setup_machine_on_circ`, on a circuit of the client's side or of the other one. -/
def setupMachineOnCirc (isOrigin : Bool) (circ : Circuit) (machine : MachineSpec) : Circuit :=
  if isOrigin ≠ machine.isOriginSide then circ
  else if circ.paddingMachine machine.machineIndex ≠ none then circ
  else if circ.paddingInfo machine.machineIndex ≠ none then circ
  else
    let next := circ.paddingMachineCtr + 1
    let ctr := if next = 0 then 1 else next
    { paddingMachine := Function.update circ.paddingMachine machine.machineIndex (some machine)
      paddingInfo := Function.update circ.paddingInfo machine.machineIndex (some ctr)
      paddingMachineCtr := ctr }

/-! ### The client -/

/-- `circpad_negotiate_padding`; `supported` is what stands against it: that the hop supports padding, and
that the cell is sent. -/
def negotiatePadding (supported : Bool) (s : State) (cell : Negotiate) : Option State :=
  if supported then some { s with toRelay := s.toRelay ++ [cell] } else none

/-- One slot of `circpad_shutdown_old_machines`. -/
def shutdownSlot (applies keeps : MachineSpec → Bool) (supported : Bool) (s : State) (i : ℕ) : State :=
  match s.client.paddingMachine i, s.client.paddingInfo i with
  | some machine, some machineCtr =>
      if applies machine || keeps machine then s
      else
        let s := { s with client := circuitMachineinfoFreeIdx s.client i }
        (negotiatePadding supported s ⟨.stop, machine.machineNum, machineCtr⟩).getD s
  | _, _ => s

def shutdownOldMachines (applies keeps : MachineSpec → Bool) (supported : Bool) (s : State) : State :=
  (List.range maxMachines).foldl (shutdownSlot applies keeps supported) s

/-- A machine is set up and its start is negotiated, in `circpad_add_matching_machines`; and whether it was. -/
def startMachine (supported : Bool) (i : ℕ) (s : State) (machine : MachineSpec) : State × Bool :=
  let cleared := { s.client with paddingMachine := Function.update s.client.paddingMachine i none }
  let client := setupMachineOnCirc true cleared machine
  match negotiatePadding supported { s with client := client }
      ⟨.start, machine.machineNum, client.paddingMachineCtr⟩ with
  | some s => (s, true)
  | none =>
      let freed := circuitMachineinfoFreeIdx client i
      ({ s with
          client := { freed with paddingMachine := Function.update freed.paddingMachine i none }
          paddingNegotiationFailed := true }, false)

/-- The machines that are tried for a slot, up to the first one that is negotiated. -/
def tryMachines (supported : Bool) (i : ℕ) : State → List MachineSpec → State
  | s, [] => s
  | s, machine :: machines =>
      if (s.client.paddingMachine i).any (·.targetHopnum != machine.targetHopnum) then
        tryMachines supported i s machines
      else
        let r := startMachine supported i s machine
        if r.2 then r.1 else tryMachines supported i r.1 machines

/-- One slot of `circpad_add_matching_machines`. -/
def addSlot (machines : List MachineSpec) (applies : MachineSpec → Bool) (supported : Bool) (s : State)
    (i : ℕ) : State :=
  if (s.client.paddingInfo i).isSome then s
  else
    tryMachines supported i s
      (machines.reverse.filter fun machine => machine.machineIndex == i && applies machine)

def addMatchingMachines (machines : List MachineSpec) (applies : MachineSpec → Bool) (supported : Bool)
    (s : State) : State :=
  if s.paddingNegotiationFailed then s
  else (List.range maxMachines).foldl (addSlot machines applies supported) s

/-- `circpad_machine_spec_transitioned_to_end`, at the client. -/
def clientTransitionedToEnd (supported : Bool) (s : State) (i : ℕ) : State :=
  match s.client.paddingMachine i, s.client.paddingInfo i with
  | some machine, some machineCtr =>
      if machine.shouldNegotiateEnd then
        let s := { s with client := circuitMachineinfoFreeIdx s.client i }
        (negotiatePadding supported s ⟨.stop, machine.machineNum, machineCtr⟩).getD s
      else s
  | _, _ => s

/-- `circpad_padding_is_from_expected_hop`, for a cell of the relay. -/
def paddingIsFromExpectedHop (hop : UInt8) (circ : Circuit) : Bool :=
  (List.range maxMachines).any fun i => (circ.paddingMachine i).any (·.targetHopnum == hop)

def handlePaddingNegotiated (hop : UInt8) (s : State) (negotiated : Negotiated) : State :=
  if paddingIsFromExpectedHop hop s.client then
    let (client, found) :=
      freeCircMachineinfosWithMachineNum s.client negotiated.machineType negotiated.machineCtr
    match negotiated.command, negotiated.response with
    | .stop, _ => { s with client := client }
    | .start, .err =>
        if found then { s with client := client, paddingNegotiationFailed := true } else s
    | .start, .ok => s
  else s

/-! ### The relay -/

/-- `circpad_machine_spec_transitioned_to_end`, at the relay. -/
def relayTransitionedToEnd (s : State) (i : ℕ) : State :=
  match s.relay.paddingMachine i, s.relay.paddingInfo i with
  | some machine, some machineCtr =>
      if machine.shouldNegotiateEnd then
        let freed := circuitMachineinfoFreeIdx s.relay i
        { s with
          relay := { freed with paddingMachine := Function.update freed.paddingMachine i none }
          toClient := s.toClient ++ [⟨.stop, .ok, machine.machineNum, machineCtr⟩] }
      else s
  | _, _ => s

/-- `circpad_padding_negotiated`: the reply. -/
def paddingNegotiated (s : State) (negotiate : Negotiate) (response : Response) : State :=
  { s with toClient := s.toClient ++ [⟨negotiate.command, response, negotiate.machineType, negotiate.machineCtr⟩] }

/-- `circpad_handle_padding_negotiate`; `ends` are the slots whose machines come to their end by the event
that the cell itself is. -/
def handlePaddingNegotiate (machines : List MachineSpec) (ends : List ℕ) (s : State) (negotiate : Negotiate) :
    State :=
  match negotiate.command with
  | .stop =>
      let (relay, found) :=
        freeCircMachineinfosWithMachineNum s.relay negotiate.machineType negotiate.machineCtr
      paddingNegotiated { s with relay := relay } negotiate
        (if found || negotiate.machineCtr ≤ s.relay.paddingMachineCtr then .ok else .err)
  | .start =>
      match machines.find? (·.machineNum == negotiate.machineType) with
      | some machine =>
          let s := { s with relay := setupMachineOnCirc false s.relay machine }
          paddingNegotiated (ends.foldl relayTransitionedToEnd s) negotiate .ok
      | none => paddingNegotiated s negotiate .err

/-! ### The system -/

/-- What can happen: the client looks at its circuit, a machine comes to its end, a cell arrives. -/
inductive Event where
  | shutdownOld (applies keeps : MachineSpec → Bool) (supported : Bool)
  | addMatching (applies : MachineSpec → Bool) (supported : Bool)
  | clientEnd (i : ℕ) (supported : Bool)
  | relayEnd (i : ℕ)
  | toRelay (ends : List ℕ)
  | toClient

def State.step (cfg : Config) (s : State) : Event → State
  | .shutdownOld applies keeps supported => shutdownOldMachines applies keeps supported s
  | .addMatching applies supported => addMatchingMachines cfg.originPaddingMachines applies supported s
  | .clientEnd i supported => clientTransitionedToEnd supported s i
  | .relayEnd i => relayTransitionedToEnd s i
  | .toRelay ends =>
      match s.toRelay with
      | [] => s
      | negotiate :: rest =>
          handlePaddingNegotiate cfg.relayPaddingMachines ends { s with toRelay := rest } negotiate
  | .toClient =>
      match s.toClient with
      | [] => s
      | negotiated :: rest => handlePaddingNegotiated cfg.hop { s with toClient := rest } negotiated

def newCircuit : Circuit := ⟨fun _ => none, fun _ => none, 0⟩

def initial : State := ⟨newCircuit, false, newCircuit, [], []⟩

/-- The machine that runs in a slot: its number and its counter. -/
def Circuit.runs (circ : Circuit) (i : ℕ) : Option (UInt8 × UInt32) :=
  match circ.paddingMachine i, circ.paddingInfo i with
  | some machine, some machineCtr => some (machine.machineNum, machineCtr)
  | _, _ => none

/-- **What negotiation is for**: a cell that starts a machine starts the one with its number and counter and
touches no other, but for those that come to their end by it; a cell that stops one stops this and no other;
both are confirmed; and without cells in flight the relay runs a machine only where the client runs the same. -/
structure Agrees (cfg : Config) (s : State) : Prop where
  start : ∀ n c rest, s.toRelay = ⟨.start, n, c⟩ :: rest → ∀ ends,
    (∃ machine ∈ cfg.relayPaddingMachines, machine.machineNum = n ∧
      s.relay.runs machine.machineIndex = none ∧
      (setupMachineOnCirc false s.relay machine).runs machine.machineIndex = some (n, c) ∧
      (∀ i ∉ ends, (s.step cfg (.toRelay ends)).relay.runs i =
        if i = machine.machineIndex then some (n, c) else s.relay.runs i) ∧
      s.step cfg (.toRelay ends) =
        paddingNegotiated (ends.foldl relayTransitionedToEnd { s with
          toRelay := rest
          relay := setupMachineOnCirc false s.relay machine }) ⟨.start, n, c⟩ .ok) ∧
      (s.step cfg (.toRelay ends)).toClient.getLast? = some ⟨.start, .ok, n, c⟩
  stop : ∀ n c rest, s.toRelay = ⟨.stop, n, c⟩ :: rest → ∀ ends,
    (∀ i, (s.step cfg (.toRelay ends)).relay.runs i =
      if s.relay.runs i = some (n, c) then none else s.relay.runs i) ∧
      (s.step cfg (.toRelay ends)).toClient.getLast? = some ⟨.stop, .ok, n, c⟩
  quiet : s.toRelay = [] → s.toClient = [] → ∀ i x, s.relay.runs i = some x → s.client.runs i = some x

/-- The slot that the relay runs a machine of a number in. -/
def Config.slotOf (cfg : Config) (n : UInt8) : Option ℕ :=
  (cfg.relayPaddingMachines.find? (·.machineNum == n)).map (·.machineIndex)

/-- The relay knows the machines that the client sets up, by the same number and for the same slot; the
client's cells are sent, and its counter does not wrap around. -/
def Event.Known (cfg : Config) (s : State) : Event → Prop
  | .shutdownOld _ _ supported => supported = true
  | .addMatching applies supported =>
      supported = true ∧ s.client.paddingMachineCtr.toNat + maxMachines < 2 ^ 32 ∧
        ∀ m ∈ cfg.originPaddingMachines, applies m = true → cfg.slotOf m.machineNum = some m.machineIndex
  | .clientEnd _ supported => supported = true
  | .relayEnd _ => True
  | .toRelay _ => True
  | .toClient => True

/-! ### What the relay reads -/

/-- The relay's end, for the cells in flight: the machines that run, and the counter. -/
structure Receiver where
  slots : ℕ → Option (UInt8 × UInt32)
  ctr : ℕ

def Circuit.receiver (circ : Circuit) : Receiver := ⟨circ.runs, circ.paddingMachineCtr.toNat⟩

/-- A cell that the relay can do what it says with. -/
def Receiver.Readable (cfg : Config) (cell : Negotiate) (r : Receiver) : Prop :=
  match cell.command with
  | .stop => cell.machineCtr ≠ 0 ∧ cell.machineCtr.toNat ≤ r.ctr
  | .start => cell.machineCtr.toNat = r.ctr + 1 ∧
      ∃ i, cfg.slotOf cell.machineType = some i ∧ r.slots i = none

def Receiver.read (cfg : Config) (cell : Negotiate) (r : Receiver) : Receiver :=
  match cell.command with
  | .stop =>
      { r with slots := fun i =>
          if r.slots i = some (cell.machineType, cell.machineCtr) then none else r.slots i }
  | .start =>
      ⟨fun i => if cfg.slotOf cell.machineType = some i then some (cell.machineType, cell.machineCtr)
          else r.slots i, r.ctr + 1⟩

/-- The relay runs a machine only where the client does, and has counted as many as the client. -/
structure Receiver.Follows (client : Circuit) (r : Receiver) : Prop where
  slots : ∀ i x, r.slots i = some x → client.runs i = some x
  ctr : r.ctr = client.paddingMachineCtr.toNat

/-- A relay that runs fewer machines can read the same cells. -/
theorem flows_fewer {cfg : Config} {client : Circuit} {r r' : Receiver} {queue : List Negotiate}
    (hslots : ∀ i x, r'.slots i = some x → r.slots i = some x) (hctr : r'.ctr = r.ctr)
    (h : Flows (Receiver.Readable cfg) (Receiver.read cfg) (Receiver.Follows client) r queue) :
    Flows (Receiver.Readable cfg) (Receiver.read cfg) (Receiver.Follows client) r' queue := by
  refine Flows.related (fun r' r : Receiver =>
    (∀ i x, r'.slots i = some x → r.slots i = some x) ∧ r'.ctr = r.ctr) ?_ ?_ ⟨hslots, hctr⟩ h
  · intro ⟨command, n, c⟩ r r' hrel hok
    cases command with
    | stop =>
      refine ⟨⟨hok.1, hrel.2 ▸ hok.2⟩, fun i x hx => ?_, hrel.2⟩
      have hx : (if r'.slots i = some (n, c) then none else r'.slots i) = some x := hx
      show (if r.slots i = some (n, c) then none else r.slots i) = some x
      split at hx
      · cases hx
      · rename_i hne
        rw [hrel.1 i x hx, ← hx, if_neg hne]
    | start =>
      obtain ⟨hc, i, hi, hnone⟩ := hok
      refine ⟨⟨hrel.2 ▸ hc, i, hi, ?_⟩, fun j x hx => ?_, congrArg (· + 1) hrel.2⟩
      · cases hx : r'.slots i with
        | none => rfl
        | some x =>
          rw [hrel.1 i x hx] at hnone
          cases hnone
      · have hx : (if cfg.slotOf n = some j then some (n, c) else r'.slots j) = some x := hx
        show (if cfg.slotOf n = some j then some (n, c) else r.slots j) = some x
        split at hx
        · rename_i hj
          rw [if_pos hj, hx]
        · rename_i hj
          rw [if_neg hj, hrel.1 j x hx]
  · intro r r' hrel hP
    exact ⟨fun i x hx => hP.slots i x (hrel.1 i x hx), hrel.2.trans hP.ctr⟩

/-- A machine that the relay has stopped does not come back: the cells in flight have later counters. -/
theorem stopped_stays {cfg : Config} {n : UInt8} {c : UInt32} (cell : Negotiate) (r : Receiver)
    (hI : (∀ i, r.slots i ≠ some (n, c)) ∧ c.toNat ≤ r.ctr) (hok : r.Readable cfg cell) :
    (∀ i, (r.read cfg cell).slots i ≠ some (n, c)) ∧ c.toNat ≤ (r.read cfg cell).ctr := by
  obtain ⟨command, n', c'⟩ := cell
  cases command with
  | stop =>
    refine ⟨fun i hi => ?_, hI.2⟩
    have hi : (if r.slots i = some (n', c') then none else r.slots i) = some (n, c) := hi
    split at hi
    · cases hi
    · exact hI.1 i hi
  | start =>
    have hc : c'.toNat = r.ctr + 1 := hok.1
    refine ⟨fun i hi => ?_, Nat.le_succ_of_le hI.2⟩
    have hi : (if cfg.slotOf n' = some i then some (n', c') else r.slots i) = some (n, c) := hi
    split at hi
    · obtain ⟨rfl, rfl⟩ := Prod.mk.inj (Option.some.inj hi)
      have := hI.2
      omega
    · exact hI.1 i hi

/-! ### The machines that run -/

@[simp] theorem runs_freeIdx (circ : Circuit) (idx i : ℕ) :
    (circuitMachineinfoFreeIdx circ idx).runs i = if i = idx then none else circ.runs i := by
  rw [Circuit.runs, Circuit.runs, circuitMachineinfoFreeIdx]
  by_cases h : i = idx
  · subst h
    simp
  · simp [h]

theorem runs_eq_some {circ : Circuit} {i : ℕ} {n : UInt8} {c : UInt32} :
    circ.runs i = some (n, c) ↔
      ∃ machine, circ.paddingMachine i = some machine ∧ machine.machineNum = n ∧
        circ.paddingInfo i = some c := by
  rw [Circuit.runs]
  cases hm : circ.paddingMachine i with
  | none => simp
  | some machine =>
    cases hc : circ.paddingInfo i with
    | none => simp
    | some c' => simp [Prod.ext_iff]

/-- A machine is freed by its number and counter, and no other. -/
theorem runs_freeNum (circ : Circuit) (n : UInt8) {c : UInt32} (hc : c ≠ 0) (i : ℕ) :
    (freeCircMachineinfosWithMachineNum circ n c).1.runs i =
      if circ.runs i = some (n, c) then none else circ.runs i := by
  rw [Circuit.runs, Circuit.runs, freeCircMachineinfosWithMachineNum]
  cases hm : circ.paddingMachine i with
  | none => simp [matchesMachineNum, hm]
  | some machine =>
    cases hi : circ.paddingInfo i with
    | none =>
      by_cases hn : machine.machineNum = n <;> simp [matchesMachineNum, hm, hi, hn]
    | some c' =>
      by_cases hn : machine.machineNum = n <;> by_cases hcc : c' = c <;>
        simp [matchesMachineNum, hm, hi, hn, hcc, hc]

/-! ### The invariant -/

/-- **The invariant**: the relay can read every cell in flight, and no reply in flight is about a machine
that it runs. -/
structure Negotiates (cfg : Config) (s : State) : Prop where
  clientCtr : ∀ i c, s.client.paddingInfo i = some c → c ≠ 0 ∧ c.toNat ≤ s.client.paddingMachineCtr.toNat
  relayInfo : ∀ i, s.relay.paddingMachine i = none ↔ s.relay.paddingInfo i = none
  relaySlot : ∀ i m, s.relay.paddingMachine i = some m → cfg.slotOf m.machineNum = some i
  relayCtr : ∀ i c, s.relay.paddingInfo i = some c → c ≠ 0 ∧ c.toNat ≤ s.relay.paddingMachineCtr.toNat
  cells : Flows (Receiver.Readable cfg) (Receiver.read cfg) (Receiver.Follows s.client) s.relay.receiver
    s.toRelay
  replyCtr : ∀ cell ∈ s.toClient, cell.machineCtr ≠ 0 ∧
    cell.machineCtr.toNat ≤ s.relay.paddingMachineCtr.toNat
  replyStop : ∀ cell ∈ s.toClient, cell.command = .stop → ∀ i,
    s.relay.runs i ≠ some (cell.machineType, cell.machineCtr)
  replyStart : ∀ cell ∈ s.toClient, cell.command = .start → cell.response = .ok

theorem negotiates_initial (cfg : Config) : Negotiates cfg initial where
  clientCtr _ _ h := absurd h (by simp [initial, newCircuit])
  relayInfo _ := ⟨fun _ => rfl, fun _ => rfl⟩
  relaySlot _ _ h := absurd h (by simp [initial, newCircuit])
  relayCtr _ _ h := absurd h (by simp [initial, newCircuit])
  cells := Receiver.Follows.mk (fun _ _ h => absurd h (by
    simp [initial, newCircuit, Circuit.receiver, Circuit.runs])) rfl
  replyCtr _ h := absurd h List.not_mem_nil
  replyStop _ h := absurd h List.not_mem_nil
  replyStart _ h := absurd h List.not_mem_nil

variable {cfg : Config} {s : State}

/-- A cell is sent: the client changes as the cell says. -/
theorem negotiates_send (hs : Negotiates cfg s) (client : Circuit) (cell : Negotiate)
    (hctr : ∀ i c, client.paddingInfo i = some c → c ≠ 0 ∧ c.toNat ≤ client.paddingMachineCtr.toNat)
    (hsend : ∀ r : Receiver, r.Follows s.client → r.Readable cfg cell ∧ (r.read cfg cell).Follows client) :
    Negotiates cfg { s with client := client, toRelay := s.toRelay ++ [cell] } :=
  { hs with
    clientCtr := hctr
    cells := (flows_concat s.toRelay cell _).mpr (hs.cells.mono hsend) }

theorem freeIdx_info {circ : Circuit} {idx i : ℕ} {c : UInt32}
    (h : (circuitMachineinfoFreeIdx circ idx).paddingInfo i = some c) : circ.paddingInfo i = some c := by
  have h : Function.update circ.paddingInfo idx none i = some c := h
  rw [Function.update_apply] at h
  split at h
  · cases h
  · exact h

/-- **The client stops a machine.** -/
theorem negotiates_stop (hs : Negotiates cfg s) {i : ℕ} {machine : MachineSpec} {c : UInt32}
    (hm : s.client.paddingMachine i = some machine) (hc : s.client.paddingInfo i = some c) :
    Negotiates cfg { s with
      client := circuitMachineinfoFreeIdx s.client i
      toRelay := s.toRelay ++ [⟨.stop, machine.machineNum, c⟩] } := by
  have hruns : s.client.runs i = some (machine.machineNum, c) := runs_eq_some.mpr ⟨machine, hm, rfl, hc⟩
  refine negotiates_send hs _ _ (fun j c' hc' => hs.clientCtr j c' (freeIdx_info hc')) fun r hr => ?_
  refine ⟨⟨(hs.clientCtr i c hc).1, hr.ctr ▸ (hs.clientCtr i c hc).2⟩, fun j x hx => ?_, hr.ctr⟩
  have hx : (if r.slots j = some (machine.machineNum, c) then none else r.slots j) = some x := hx
  split at hx
  · cases hx
  · rename_i hne
    have hclient := hr.slots j x hx
    rw [runs_freeIdx, if_neg, hclient]
    rintro rfl
    rw [hruns] at hclient
    exact hne (hx.trans hclient.symm)

theorem ctr_next {c : UInt32} (hc : c.toNat + 1 < 2 ^ 32) :
    c + 1 ≠ 0 ∧ (c + 1).toNat = c.toNat + 1 := by
  have hnext : (c + 1).toNat = c.toNat + 1 := by
    rw [UInt32.toNat_add, UInt32.toNat_one]
    exact Nat.mod_eq_of_lt hc
  refine ⟨fun h => ?_, hnext⟩
  rw [h] at hnext
  exact absurd hnext (by simp)

theorem setup_free {isOrigin : Bool} (circ : Circuit) {machine : MachineSpec}
    (hside : machine.isOriginSide = isOrigin) (hm : circ.paddingMachine machine.machineIndex = none)
    (hi : circ.paddingInfo machine.machineIndex = none) (hc : circ.paddingMachineCtr.toNat + 1 < 2 ^ 32) :
    setupMachineOnCirc isOrigin circ machine =
      { paddingMachine := Function.update circ.paddingMachine machine.machineIndex (some machine)
        paddingInfo := Function.update circ.paddingInfo machine.machineIndex
          (some (circ.paddingMachineCtr + 1))
        paddingMachineCtr := circ.paddingMachineCtr + 1 } := by
  rw [setupMachineOnCirc, if_neg (not_not_intro hside.symm), if_neg (not_not_intro hm),
    if_neg (not_not_intro hi)]
  simp only [if_neg (ctr_next hc).1]

theorem runs_setup {machines : ℕ → Option MachineSpec} {infos : ℕ → Option UInt32} {machine : MachineSpec}
    {c : UInt32} (i : ℕ) :
    Circuit.runs ⟨Function.update machines machine.machineIndex (some machine),
        Function.update infos machine.machineIndex (some c), c⟩ i =
      if i = machine.machineIndex then some (machine.machineNum, c)
      else Circuit.runs ⟨machines, infos, c⟩ i := by
  rw [Circuit.runs, Circuit.runs]
  by_cases h : i = machine.machineIndex
  · subst h
    simp
  · simp [h]

/-- **The client starts a machine** in a free slot. -/
theorem negotiates_start (hs : Negotiates cfg s) {machine : MachineSpec} {i : ℕ}
    (hmem : machine ∈ cfg.originPaddingMachines) (hindex : machine.machineIndex = i)
    (hfree : s.client.paddingInfo i = none) (hknown : cfg.slotOf machine.machineNum = some i)
    (hc : s.client.paddingMachineCtr.toNat + 1 < 2 ^ 32) :
    Negotiates cfg (startMachine true i s machine).1 ∧
      (startMachine true i s machine).2 = true ∧
      (startMachine true i s machine).1.client.paddingMachineCtr.toNat =
        s.client.paddingMachineCtr.toNat + 1 := by
  subst hindex
  have hsetup := setup_free
    { s.client with paddingMachine := Function.update s.client.paddingMachine machine.machineIndex none }
    (cfg.origin machine hmem).1 (Function.update_self ..) hfree hc
  obtain ⟨hne, hnext⟩ := ctr_next hc
  rw [startMachine]
  simp only [hsetup, negotiatePadding, if_true]
  refine ⟨negotiates_send hs _ _ (fun j c hj => ?_) fun r hr => ?_, trivial, hnext⟩
  · have hj : Function.update s.client.paddingInfo machine.machineIndex
      (some (s.client.paddingMachineCtr + 1)) j = some c := hj
    rw [Function.update_apply] at hj
    split at hj
    · cases hj
      exact ⟨hne, le_rfl⟩
    · have hj := hs.clientCtr j c hj
      exact ⟨hj.1, hj.2.trans ((Nat.le_succ _).trans hnext.ge)⟩
  · -- the slot is free at the relay too, as it only runs what the client runs
    have hnone : r.slots machine.machineIndex = none := by
      cases hx : r.slots machine.machineIndex with
      | none => rfl
      | some x =>
        obtain ⟨_, _, _, hinfo⟩ := runs_eq_some.mp (hr.slots _ _ hx)
        rw [hfree] at hinfo
        cases hinfo
    refine ⟨⟨by rw [hr.ctr]; exact hnext, _, hknown, hnone⟩, fun j x hx => ?_, ?_⟩
    · have hx : (if cfg.slotOf machine.machineNum = some j then
          some (machine.machineNum, s.client.paddingMachineCtr + 1) else r.slots j) = some x := hx
      rw [hknown] at hx
      by_cases hj : j = machine.machineIndex
      · subst hj
        rw [if_pos rfl] at hx
        rw [← hx]
        simp [Circuit.runs]
      · rw [if_neg fun h => hj (Option.some.inj h).symm] at hx
        have := hr.slots j x hx
        rw [Circuit.runs] at this ⊢
        simpa [hj] using this
    · show r.ctr + 1 = (s.client.paddingMachineCtr + 1).toNat
      rw [hr.ctr, hnext]

/-! ### The client's steps -/

theorem negotiates_shutdownSlot (applies keeps : MachineSpec → Bool) (hs : Negotiates cfg s) (i : ℕ) :
    Negotiates cfg (shutdownSlot applies keeps true s i) := by
  rw [shutdownSlot]
  split
  · rename_i machine c hm hc
    split
    · exact hs
    · exact negotiates_stop hs hm hc
  · exact hs

theorem negotiates_shutdownOld (applies keeps : MachineSpec → Bool) (hs : Negotiates cfg s) :
    Negotiates cfg (shutdownOldMachines applies keeps true s) := by
  rw [shutdownOldMachines]
  generalize List.range maxMachines = slots
  induction slots generalizing s with
  | nil => exact hs
  | cons i slots ih => exact ih (negotiates_shutdownSlot applies keeps hs i)

theorem negotiates_clientEnd (hs : Negotiates cfg s) (i : ℕ) :
    Negotiates cfg (clientTransitionedToEnd true s i) := by
  rw [clientTransitionedToEnd]
  split
  · rename_i machine c hm hc
    split
    · exact negotiates_stop hs hm hc
    · exact hs
  · exact hs

/-- The first machine that is tried for a free slot is negotiated. -/
theorem negotiates_tryMachines {i : ℕ} {machines : List MachineSpec} (hs : Negotiates cfg s)
    (hmem : ∀ m ∈ machines, m ∈ cfg.originPaddingMachines ∧ m.machineIndex = i ∧
      cfg.slotOf m.machineNum = some i)
    (hfree : s.client.paddingInfo i = none) (hc : s.client.paddingMachineCtr.toNat + 1 < 2 ^ 32) :
    Negotiates cfg (tryMachines true i s machines) ∧
      (tryMachines true i s machines).client.paddingMachineCtr.toNat ≤
        s.client.paddingMachineCtr.toNat + 1 := by
  induction machines with
  | nil => exact ⟨hs, Nat.le_succ _⟩
  | cons machine machines ih =>
    obtain ⟨hm, hindex, hknown⟩ := hmem machine List.mem_cons_self
    rw [tryMachines]
    split
    · exact ih fun m hm => hmem m (List.mem_cons_of_mem _ hm)
    · obtain ⟨hstart, hdone, hctr⟩ := negotiates_start hs hm hindex hfree hknown hc
      simp only [hdone, if_true]
      exact ⟨hstart, hctr.le⟩

theorem negotiates_addSlot {applies : MachineSpec → Bool} (hs : Negotiates cfg s)
    (hknown : ∀ m ∈ cfg.originPaddingMachines, applies m = true →
      cfg.slotOf m.machineNum = some m.machineIndex)
    (hc : s.client.paddingMachineCtr.toNat + 1 < 2 ^ 32) (i : ℕ) :
    Negotiates cfg (addSlot cfg.originPaddingMachines applies true s i) ∧
      (addSlot cfg.originPaddingMachines applies true s i).client.paddingMachineCtr.toNat ≤
        s.client.paddingMachineCtr.toNat + 1 := by
  rw [addSlot]
  split
  · exact ⟨hs, Nat.le_succ _⟩
  · rename_i hfree
    refine negotiates_tryMachines hs (fun m hm => ?_) (by simpa using hfree) hc
    rw [List.mem_filter, List.mem_reverse, Bool.and_eq_true, beq_iff_eq] at hm
    obtain ⟨hmem, hindex, happlies⟩ := hm
    exact ⟨hmem, hindex, hindex ▸ hknown m hmem happlies⟩

theorem negotiates_addMatching {applies : MachineSpec → Bool} (hs : Negotiates cfg s)
    (hknown : ∀ m ∈ cfg.originPaddingMachines, applies m = true →
      cfg.slotOf m.machineNum = some m.machineIndex)
    (hc : s.client.paddingMachineCtr.toNat + maxMachines < 2 ^ 32) :
    Negotiates cfg (addMatchingMachines cfg.originPaddingMachines applies true s) := by
  rw [addMatchingMachines]
  split
  · exact hs
  · rename_i hfailed
    clear hfailed
    rw [← List.length_range (n := maxMachines)] at hc
    generalize List.range maxMachines = slots at hc ⊢
    induction slots generalizing s with
    | nil => exact hs
    | cons i slots ih =>
      rw [List.length_cons] at hc
      obtain ⟨hslot, hctr⟩ := negotiates_addSlot hs hknown (by omega) i
      exact ih hslot (by omega)

/-- The client frees what it is told that the relay has stopped. -/
theorem negotiates_freed (hs : Negotiates cfg s) {n : UInt8} {c : UInt32} (hc : c ≠ 0)
    (hctr : c.toNat ≤ s.relay.paddingMachineCtr.toNat) (hstopped : ∀ i, s.relay.runs i ≠ some (n, c)) :
    Negotiates cfg { s with client := (freeCircMachineinfosWithMachineNum s.client n c).1 } :=
  { hs with
    clientCtr := fun i c' h => by
      have h : (if matchesMachineNum s.client n c i then none else s.client.paddingInfo i) = some c' := h
      split at h
      · cases h
      · exact hs.clientCtr i c' h
    cells := by
      -- the relay does not run the machine when it has read the cells in flight either
      refine (hs.cells.with_invariant stopped_stays ⟨hstopped, hctr⟩).mono fun r hr => ?_
      refine ⟨fun i x hx => ?_, hr.1.ctr⟩
      rw [runs_freeNum _ _ hc, hr.1.slots i x hx, if_neg]
      intro h
      exact hr.2.1 i (hx.trans h) }

/-- **A reply arrives.** -/
theorem negotiates_toClient (hs : Negotiates cfg s) : Negotiates cfg (s.step cfg .toClient) := by
  rw [State.step]
  cases hq : s.toClient with
  | nil => exact hs
  | cons reply rest =>
    have hmem : reply ∈ s.toClient := hq ▸ List.mem_cons_self
    have hrest : ∀ cell ∈ rest, cell ∈ s.toClient := fun cell h => hq ▸ List.mem_cons_of_mem _ h
    have htail : Negotiates cfg { s with toClient := rest } :=
      { hs with
        replyCtr := fun cell h => hs.replyCtr cell (hrest cell h)
        replyStop := fun cell h => hs.replyStop cell (hrest cell h)
        replyStart := fun cell h => hs.replyStart cell (hrest cell h) }
    have hreply := hs.replyCtr reply hmem
    have hstop := hs.replyStop reply hmem
    have hstart := hs.replyStart reply hmem
    obtain ⟨command, response, n, c⟩ := reply
    show Negotiates cfg (handlePaddingNegotiated cfg.hop { s with toClient := rest } ⟨command, response, n, c⟩)
    rw [handlePaddingNegotiated]
    split
    · cases command with
      | stop => exact negotiates_freed htail hreply.1 hreply.2 (hstop rfl)
      | start =>
        have hok : response = .ok := hstart rfl
        subst hok
        exact htail
    · exact htail

/-! ### The relay's steps -/

theorem runs_cleared {circ : Circuit} {i j : ℕ} {x : UInt8 × UInt32}
    (hx : Circuit.runs ⟨Function.update circ.paddingMachine i none,
      Function.update circ.paddingInfo i none, circ.paddingMachineCtr⟩ j = some x) :
    j ≠ i ∧ circ.runs j = some x := by
  obtain ⟨n, c⟩ := x
  obtain ⟨m, hm, hn, hi⟩ := runs_eq_some.mp hx
  have hm : Function.update circ.paddingMachine i none j = some m := hm
  have hi : Function.update circ.paddingInfo i none j = some c := hi
  rw [Function.update_apply] at hm hi
  split at hm
  · cases hm
  · rename_i hne
    rw [if_neg hne] at hi
    exact ⟨hne, runs_eq_some.mpr ⟨m, hm, hn, hi⟩⟩

theorem negotiates_cleared (hs : Negotiates cfg s) {i : ℕ} {machine : MachineSpec} {c : UInt32}
    (hm : s.relay.paddingMachine i = some machine) (hc : s.relay.paddingInfo i = some c) :
    Negotiates cfg { s with
      relay := ⟨Function.update s.relay.paddingMachine i none,
        Function.update s.relay.paddingInfo i none, s.relay.paddingMachineCtr⟩
      toClient := s.toClient ++ [⟨.stop, .ok, machine.machineNum, c⟩] } where
  clientCtr := hs.clientCtr
  relayInfo j := by
    show Function.update s.relay.paddingMachine i none j = none ↔
      Function.update s.relay.paddingInfo i none j = none
    rw [Function.update_apply, Function.update_apply]
    split
    · exact ⟨fun _ => rfl, fun _ => rfl⟩
    · exact hs.relayInfo j
  relaySlot j m h := by
    have h : Function.update s.relay.paddingMachine i none j = some m := h
    rw [Function.update_apply] at h
    split at h
    · cases h
    · exact hs.relaySlot j m h
  relayCtr j c' h := by
    have h : Function.update s.relay.paddingInfo i none j = some c' := h
    rw [Function.update_apply] at h
    split at h
    · cases h
    · exact hs.relayCtr j c' h
  cells := flows_fewer (r := s.relay.receiver) (fun _ _ hx => (runs_cleared hx).2) rfl hs.cells
  replyCtr cell h := by
    obtain h | h := List.mem_append.mp h
    · exact hs.replyCtr cell h
    · rw [List.mem_singleton.mp h]
      exact hs.relayCtr i c hc
  replyStop cell h hcommand j hj := by
    obtain ⟨hne, hrun⟩ := runs_cleared hj
    obtain h | h := List.mem_append.mp h
    · exact hs.replyStop cell h hcommand j hrun
    · -- a machine of this number runs in one slot only
      rw [List.mem_singleton.mp h] at hrun
      obtain ⟨m, hmj, hn, -⟩ := runs_eq_some.mp hrun
      have hj := hs.relaySlot j m hmj
      rw [hn, hs.relaySlot i machine hm] at hj
      exact hne (Option.some.inj hj).symm
  replyStart cell h hcommand := by
    obtain h | h := List.mem_append.mp h
    · exact hs.replyStart cell h hcommand
    · rw [List.mem_singleton.mp h]

/-- **A machine of the relay comes to its end.** -/
theorem negotiates_relayEnd (hs : Negotiates cfg s) (i : ℕ) :
    Negotiates cfg (relayTransitionedToEnd s i) ∧
      (relayTransitionedToEnd s i).relay.paddingMachineCtr = s.relay.paddingMachineCtr := by
  rw [relayTransitionedToEnd]
  split
  · rename_i machine c hm hc
    split
    · exact ⟨negotiates_cleared hs hm hc, rfl⟩
    · exact ⟨hs, rfl⟩
  · exact ⟨hs, rfl⟩

theorem negotiates_relayEnds (ends : List ℕ) (hs : Negotiates cfg s) :
    Negotiates cfg (ends.foldl relayTransitionedToEnd s) ∧
      (ends.foldl relayTransitionedToEnd s).relay.paddingMachineCtr = s.relay.paddingMachineCtr := by
  induction ends generalizing s with
  | nil => exact ⟨hs, rfl⟩
  | cons i ends ih =>
    obtain ⟨hend, hctr⟩ := negotiates_relayEnd hs i
    obtain ⟨hends, hctrs⟩ := ih hend
    exact ⟨hends, hctrs.trans hctr⟩

theorem runs_relayEnd {i j : ℕ} (h : j ≠ i) : (relayTransitionedToEnd s i).relay.runs j = s.relay.runs j := by
  rw [relayTransitionedToEnd]
  split
  · split
    · simp only [Circuit.runs, circuitMachineinfoFreeIdx, Function.update_of_ne h]
    · rfl
  · rfl

theorem runs_relayEnds (ends : List ℕ) {j : ℕ} (h : j ∉ ends) :
    (ends.foldl relayTransitionedToEnd s).relay.runs j = s.relay.runs j := by
  induction ends generalizing s with
  | nil => rfl
  | cons i ends ih =>
    rw [List.foldl_cons, ih fun hj => h (List.mem_cons_of_mem _ hj)]
    exact runs_relayEnd fun hj => h (hj ▸ List.mem_cons_self)

theorem negotiates_reply (hs : Negotiates cfg s) (cell : Negotiate) (hc : cell.machineCtr ≠ 0)
    (hctr : cell.machineCtr.toNat ≤ s.relay.paddingMachineCtr.toNat)
    (hstop : cell.command = .stop → ∀ i, s.relay.runs i ≠ some (cell.machineType, cell.machineCtr)) :
    Negotiates cfg (paddingNegotiated s cell .ok) :=
  { hs with
    replyCtr := fun reply h => by
      obtain h | h := List.mem_append.mp h
      · exact hs.replyCtr reply h
      · rw [List.mem_singleton.mp h]
        exact ⟨hc, hctr⟩
    replyStop := fun reply h hcommand => by
      obtain h | h := List.mem_append.mp h
      · exact hs.replyStop reply h hcommand
      · rw [List.mem_singleton.mp h] at hcommand ⊢
        exact hstop hcommand
    replyStart := fun reply h hcommand => by
      obtain h | h := List.mem_append.mp h
      · exact hs.replyStart reply h hcommand
      · rw [List.mem_singleton.mp h] }

/-- **The relay is told to stop a machine.** -/
theorem step_stop (hs : Negotiates cfg s) {n : UInt8} {c : UInt32} {rest : List Negotiate}
    (hq : s.toRelay = ⟨.stop, n, c⟩ :: rest) (ends : List ℕ) :
    c ≠ 0 ∧ c.toNat ≤ s.relay.paddingMachineCtr.toNat ∧
      s.step cfg (.toRelay ends) =
        paddingNegotiated { s with
          toRelay := rest
          relay := (freeCircMachineinfosWithMachineNum s.relay n c).1 } ⟨.stop, n, c⟩ .ok := by
  have hcells := hs.cells
  rw [hq] at hcells
  have hok : c ≠ 0 ∧ c.toNat ≤ s.relay.paddingMachineCtr.toNat := hcells.1
  have hold : c ≤ s.relay.paddingMachineCtr := hok.2
  refine ⟨hok.1, hok.2, ?_⟩
  rw [State.step, hq]
  simp [handlePaddingNegotiate, hold]

theorem slotOf_eq_some {n : UInt8} {i : ℕ} (h : cfg.slotOf n = some i) :
    ∃ machine, cfg.relayPaddingMachines.find? (·.machineNum == n) = some machine ∧
      machine ∈ cfg.relayPaddingMachines ∧ machine.machineNum = n ∧ machine.machineIndex = i := by
  obtain ⟨machine, hfind, hi⟩ := Option.map_eq_some_iff.mp h
  exact ⟨machine, hfind, List.mem_of_find?_eq_some hfind, by simpa using List.find?_some hfind, hi⟩

/-- The slot of a number that the relay knows is free when it does not run a machine there. -/
theorem slot_free (hs : Negotiates cfg s) {i : ℕ} (h : s.relay.runs i = none) :
    s.relay.paddingMachine i = none ∧ s.relay.paddingInfo i = none := by
  cases hm : s.relay.paddingMachine i with
  | none => exact ⟨rfl, (hs.relayInfo i).mp hm⟩
  | some machine =>
    cases hc : s.relay.paddingInfo i with
    | none =>
      rw [(hs.relayInfo i).mpr hc] at hm
      cases hm
    | some c =>
      rw [runs_eq_some.mpr ⟨machine, hm, rfl, hc⟩] at h
      cases h

/-- **The relay is told to start a machine.** -/
theorem step_start (hs : Negotiates cfg s) {n : UInt8} {c : UInt32} {rest : List Negotiate}
    (hq : s.toRelay = ⟨.start, n, c⟩ :: rest) (ends : List ℕ) :
    ∃ machine ∈ cfg.relayPaddingMachines, machine.machineNum = n ∧
      cfg.slotOf n = some machine.machineIndex ∧ s.relay.runs machine.machineIndex = none ∧
      c ≠ 0 ∧ c.toNat = s.relay.paddingMachineCtr.toNat + 1 ∧
      setupMachineOnCirc false s.relay machine =
        { paddingMachine := Function.update s.relay.paddingMachine machine.machineIndex (some machine)
          paddingInfo := Function.update s.relay.paddingInfo machine.machineIndex (some c)
          paddingMachineCtr := c } ∧
      s.step cfg (.toRelay ends) =
        paddingNegotiated (ends.foldl relayTransitionedToEnd { s with
          toRelay := rest
          relay := setupMachineOnCirc false s.relay machine }) ⟨.start, n, c⟩ .ok := by
  have hcells := hs.cells
  rw [hq] at hcells
  have hok : c.toNat = s.relay.paddingMachineCtr.toNat + 1 ∧
      ∃ i, cfg.slotOf n = some i ∧ s.relay.runs i = none := hcells.1
  obtain ⟨hc, i, hi, hnone⟩ := hok
  obtain ⟨machine, hfind, hmem, hn, rfl⟩ := slotOf_eq_some hi
  obtain ⟨hm, hinfo⟩ := slot_free hs hnone
  have hlt : s.relay.paddingMachineCtr.toNat + 1 < 2 ^ 32 := hc ▸ c.toNat_lt
  obtain ⟨hne, hnext⟩ := ctr_next hlt
  have heq : s.relay.paddingMachineCtr + 1 = c := UInt32.toNat_inj.mp (hnext.trans hc.symm)
  rw [heq] at hne
  have hsetup := setup_free s.relay (cfg.relay machine hmem).1 hm hinfo hlt
  rw [heq] at hsetup
  refine ⟨machine, hmem, hn, hi, hnone, hne, hc, hsetup, ?_⟩
  rw [State.step, hq]
  simp [handlePaddingNegotiate, hfind]

theorem runs_freeNum_some {circ : Circuit} {n : UInt8} {c : UInt32} (hc : c ≠ 0) {i : ℕ} {x : UInt8 × UInt32}
    (hx : (freeCircMachineinfosWithMachineNum circ n c).1.runs i = some x) :
    circ.runs i = some x ∧ x ≠ (n, c) := by
  rw [runs_freeNum circ n hc] at hx
  split at hx
  · cases hx
  · rename_i hne
    exact ⟨hx, fun h => hne (hx.trans (congrArg some h))⟩

theorem negotiates_stopped (hs : Negotiates cfg s) {n : UInt8} {c : UInt32} {rest : List Negotiate}
    (hq : s.toRelay = ⟨.stop, n, c⟩ :: rest) (hc : c ≠ 0) :
    Negotiates cfg { s with
      toRelay := rest
      relay := (freeCircMachineinfosWithMachineNum s.relay n c).1 } where
  clientCtr := hs.clientCtr
  relayInfo i := by
    show (if matchesMachineNum s.relay n c i then none else s.relay.paddingMachine i) = none ↔
      (if matchesMachineNum s.relay n c i then none else s.relay.paddingInfo i) = none
    split
    · exact ⟨fun _ => rfl, fun _ => rfl⟩
    · exact hs.relayInfo i
  relaySlot i m h := by
    have h : (if matchesMachineNum s.relay n c i then none else s.relay.paddingMachine i) = some m := h
    split at h
    · cases h
    · exact hs.relaySlot i m h
  relayCtr i c' h := by
    have h : (if matchesMachineNum s.relay n c i then none else s.relay.paddingInfo i) = some c' := h
    split at h
    · cases h
    · exact hs.relayCtr i c' h
  cells := by
    have hcells := hs.cells
    rw [hq] at hcells
    refine flows_fewer (r := Receiver.read cfg ⟨.stop, n, c⟩ s.relay.receiver) (fun i x hx => ?_) rfl hcells.2
    exact (runs_freeNum s.relay n hc i).symm.trans hx
  replyCtr := hs.replyCtr
  replyStop cell h hcommand i hi := hs.replyStop cell h hcommand i (runs_freeNum_some hc hi).1
  replyStart := hs.replyStart

/-- The relay has started a machine, with the next counter. -/
theorem negotiates_started (hs : Negotiates cfg s) {machine : MachineSpec} {c : UInt32}
    {rest : List Negotiate} (hq : s.toRelay = ⟨.start, machine.machineNum, c⟩ :: rest)
    (hslot : cfg.slotOf machine.machineNum = some machine.machineIndex) (hc : c ≠ 0)
    (hctr : c.toNat = s.relay.paddingMachineCtr.toNat + 1) :
    Negotiates cfg { s with
      toRelay := rest
      relay := ⟨Function.update s.relay.paddingMachine machine.machineIndex (some machine),
        Function.update s.relay.paddingInfo machine.machineIndex (some c), c⟩ } where
  clientCtr := hs.clientCtr
  relayInfo i := by
    show Function.update s.relay.paddingMachine machine.machineIndex (some machine) i = none ↔
      Function.update s.relay.paddingInfo machine.machineIndex (some c) i = none
    rw [Function.update_apply, Function.update_apply]
    split
    · exact iff_of_false (Option.some_ne_none _) (Option.some_ne_none _)
    · exact hs.relayInfo i
  relaySlot i m h := by
    have h : Function.update s.relay.paddingMachine machine.machineIndex (some machine) i = some m := h
    rw [Function.update_apply] at h
    split at h
    · rename_i hi
      cases h
      rw [hi, hslot]
    · exact hs.relaySlot i m h
  relayCtr i c' h := by
    have h : Function.update s.relay.paddingInfo machine.machineIndex (some c) i = some c' := h
    rw [Function.update_apply] at h
    split at h
    · cases h
      exact ⟨hc, le_rfl⟩
    · exact ⟨(hs.relayCtr i c' h).1, (hs.relayCtr i c' h).2.trans (hctr ▸ Nat.le_succ _)⟩
  cells := by
    have hcells := hs.cells
    rw [hq] at hcells
    refine flows_fewer (r := Receiver.read cfg ⟨.start, machine.machineNum, c⟩ s.relay.receiver)
      (fun i x hx => ?_) hctr hcells.2
    have hx : Circuit.runs ⟨Function.update s.relay.paddingMachine machine.machineIndex (some machine),
      Function.update s.relay.paddingInfo machine.machineIndex (some c), c⟩ i = some x := hx
    show (if cfg.slotOf machine.machineNum = some i then some (machine.machineNum, c)
      else s.relay.runs i) = some x
    rw [runs_setup] at hx
    rw [hslot, ← hx]
    by_cases hi : i = machine.machineIndex
    · rw [if_pos hi, if_pos (congrArg some hi.symm)]
    · rw [if_neg hi, if_neg fun h => hi (Option.some.inj h).symm]
      rfl
  replyCtr cell h :=
    ⟨(hs.replyCtr cell h).1, (hs.replyCtr cell h).2.trans (hctr ▸ Nat.le_succ _)⟩
  replyStop cell h hcommand i hi := by
    have hi : Circuit.runs ⟨Function.update s.relay.paddingMachine machine.machineIndex (some machine),
      Function.update s.relay.paddingInfo machine.machineIndex (some c), c⟩ i =
        some (cell.machineType, cell.machineCtr) := hi
    rw [runs_setup] at hi
    split at hi
    · -- the counter is a new one
      have hcell := (hs.replyCtr cell h).2
      rw [← (Prod.mk.inj (Option.some.inj hi)).2] at hcell
      omega
    · exact hs.replyStop cell h hcommand i hi
  replyStart := hs.replyStart

/-- **A cell arrives at the relay.** -/
theorem negotiates_toRelay (hs : Negotiates cfg s) (ends : List ℕ) :
    Negotiates cfg (s.step cfg (.toRelay ends)) := by
  cases hq : s.toRelay with
  | nil =>
    rw [State.step, hq]
    exact hs
  | cons cell rest =>
    obtain ⟨command, n, c⟩ := cell
    cases command with
    | stop =>
      obtain ⟨hc, hctr, heq⟩ := step_stop hs hq ends
      rw [heq]
      exact negotiates_reply (negotiates_stopped hs hq hc) _ hc hctr
        fun _ i hi => (runs_freeNum_some hc hi).2 rfl
    | start =>
      obtain ⟨machine, hmem, rfl, hslot, hnone, hc, hctr, hsetup, heq⟩ := step_start hs hq ends
      rw [heq, hsetup]
      obtain ⟨hends, hctrs⟩ := negotiates_relayEnds ends (negotiates_started hs hq hslot hc hctr)
      exact negotiates_reply hends _ hc (hctrs ▸ le_rfl) fun h => by cases h

/-- **Every step** whose machines the relay knows preserves the invariant. -/
theorem negotiates_step (hs : Negotiates cfg s) {e : Event} (he : e.Known cfg s) :
    Negotiates cfg (s.step cfg e) := by
  cases e with
  | shutdownOld applies keeps supported =>
    have he : supported = true := he
    subst he
    exact negotiates_shutdownOld applies keeps hs
  | addMatching applies supported =>
    obtain ⟨rfl, hc, hknown⟩ := he
    exact negotiates_addMatching hs hknown hc
  | clientEnd i supported =>
    have he : supported = true := he
    subst he
    exact negotiates_clientEnd hs i
  | relayEnd i => exact (negotiates_relayEnd hs i).1
  | toRelay ends => exact negotiates_toRelay hs ends
  | toClient => exact negotiates_toClient hs

/-- What the invariant says of the two ends. -/
theorem agrees_of_negotiates (hs : Negotiates cfg s) : Agrees cfg s where
  start n c rest hq ends := by
    obtain ⟨machine, hmem, rfl, -, hnone, -, -, hsetup, heq⟩ := step_start hs hq ends
    refine ⟨⟨machine, hmem, rfl, hnone, ?_, fun i hi => ?_, heq⟩, ?_⟩
    · rw [hsetup, runs_setup, if_pos rfl]
    · rw [heq, paddingNegotiated]
      show (ends.foldl relayTransitionedToEnd _).relay.runs i = _
      rw [runs_relayEnds ends hi, hsetup, runs_setup]
      rfl
    · rw [heq]
      exact List.getLast?_concat
  stop n c rest hq ends := by
    obtain ⟨hc, -, heq⟩ := step_stop hs hq ends
    rw [heq]
    exact ⟨runs_freeNum s.relay n hc, List.getLast?_concat⟩
  quiet hrelay _ i x hx := by
    have hcells := hs.cells
    rw [hrelay] at hcells
    exact hcells.slots i x hx

/-- **Padding negotiation agrees** in every run whose machines the relay knows. -/
theorem agrees_of_run {es : List Event} (hrun : Run (fun s e s' => e.Known cfg s ∧ s.step cfg e = s')
    initial es s) : Agrees cfg s := by
  refine agrees_of_negotiates (hrun.invariant (I := Negotiates cfg) ?_ (negotiates_initial cfg))
  intro s e s' hs hstep
  rw [← hstep.2]
  exact negotiates_step hs hstep.1

/-- One machine on each side, in the first slot and at the second hop. -/
def hideIntroCircuits : Config where
  originPaddingMachines := [⟨0, 0, true, true, 2⟩]
  relayPaddingMachines := [⟨0, 0, true, false, 0⟩]
  hop := 2
  origin := by decide
  relay := by decide

/-- The machine is started, comes to its end at the relay and is started again while it is stopped. -/
theorem agrees_of_run_hideIntroCircuits : ∃ s : State,
    s.relay.runs 0 = some (0, 2) ∧ s.toRelay = [] ∧ Agrees hideIntroCircuits s := by
  have hrun : Run (fun s e s' => e.Known hideIntroCircuits s ∧ s.step hideIntroCircuits e = s') initial
      [.addMatching (fun _ => true) true, .toRelay [0], .clientEnd 0 true, .addMatching (fun _ => true) true,
        .toRelay [], .toRelay []] _ :=
    .cons ⟨⟨rfl, by decide, by decide⟩, rfl⟩ (.cons ⟨trivial, rfl⟩ (.cons ⟨rfl, rfl⟩
      (.cons ⟨⟨rfl, by decide, by decide⟩, rfl⟩ (.cons ⟨trivial, rfl⟩ (.cons ⟨trivial, rfl⟩ (.nil _))))))
  exact ⟨_, by decide, by decide, agrees_of_run hrun⟩

end TorEbpf.Or.CircpadNegotiate
