import Mathlib
import TorEbpf.Lib.Events
import TorEbpf.Lib.Keyed

/-!
# The circuit multiplexer

A `circuitmux_t` keeps the circuits attached to a channel with their numbers of queued cells, three
counters over them, and tells its policy when a circuit becomes active or inactive; the policy then
picks the circuit to send from.

* `Circuitmux` with `circuitmuxAttachCircuit`, `circuitmuxDetachCircuit`, `circuitmuxDetachAllCircuits`,
  `circuitmuxSetNumCells`, `circuitmuxNotifyXmitCells`, `circuitmuxSetPolicy`,
  `circuitmuxGetFirstActiveCircuit` — the calls; `none` where an assertion fails;
* `Pre` — what the callers see to; `Fits` — the sum of the cell counts stays within an `unsigned int`;
* `Accounting` — counters, table and what the policies were told agree;
* `accounting_of_run` — they do in every run whose calls fit; `not_accounting_threeCircuits` — and need
  not otherwise.
-/

namespace TorEbpf.Or.Cmux

open TorEbpf.Lib

/-! ### Data -/

inductive CellDirection where
  | dirIn
  | dirOut
  deriving DecidableEq, Repr

/-- The key of the map: channel and circuit identifier. -/
@[ext]
structure Key where
  chanId : UInt64
  circId : UInt32
  deriving DecidableEq, Repr

/-- What the multiplexer reads of a `circuit_t` and, if it is one, of the `or_circuit_t`. -/
structure Circuit where
  nChan : Option UInt64
  nCircId : UInt32
  nChanCells : UInt32
  isOrCircuit : Bool
  pChan : Option UInt64
  pCircId : UInt32
  pChanCells : UInt32
  deriving DecidableEq, Repr

/-- `chanid_circid_muxinfo_t`; of `policy_data`, whether it is there. -/
structure Entry where
  key : Key
  cellCount : UInt32
  direction : CellDirection
  policyData : Bool
  deriving DecidableEq, Repr

/-- `circuitmux_policy_t`: which callbacks it has. -/
structure Policy where
  ident : ℕ
  allocCmuxData : Bool
  freeCmuxData : Bool
  allocCircData : Bool
  freeCircData : Bool
  notifyCircActive : Bool
  notifyCircInactive : Bool
  notifySetNCells : Bool
  notifyXmitCells : Bool
  deriving DecidableEq, Repr

/-- A call of a policy's callback about a circuit. -/
inductive Call where
  | circActive (pol : Policy) (key : Key)
  | circInactive (pol : Policy) (key : Key)
  | setNCells (pol : Policy) (key : Key) (nCells : UInt32)
  | xmitCells (pol : Policy) (key : Key) (nCells : UInt32)
  deriving DecidableEq, Repr

/-- `circuitmux_t`, with the calls it made so far and whether a subtraction went below zero. -/
structure Circuitmux where
  nCircuits : UInt32
  nActiveCircuits : UInt32
  nCells : UInt32
  map : List Entry
  destroyCellQueueN : ℕ
  lastCellWasDestroy : Bool
  policy : Option Policy
  policyData : Bool
  calls : List Call
  underflow : Bool
  deriving DecidableEq, Repr

def circuitmuxAlloc : Circuitmux where
  nCircuits := 0
  nActiveCircuits := 0
  nCells := 0
  map := []
  destroyCellQueueN := 0
  lastCellWasDestroy := false
  policy := none
  policyData := false
  calls := []
  underflow := false

/-! ### Helpers -/

variable (m : Circuitmux)

/-- `cmux->n_cells -= n`. -/
def Circuitmux.subCells (n : UInt32) : Circuitmux :=
  { m with nCells := m.nCells - n, underflow := m.underflow || m.nCells < n }

/-- `cmux->n_cells += n`. -/
def Circuitmux.addCells (n : UInt32) : Circuitmux := { m with nCells := m.nCells + n }

/-- `--(cmux->n_active_circuits)`. -/
def Circuitmux.decActive : Circuitmux :=
  { m with
    nActiveCircuits := m.nActiveCircuits - 1
    underflow := m.underflow || m.nActiveCircuits < 1 }

/-- `++(cmux->n_active_circuits)`. -/
def Circuitmux.incActive : Circuitmux := { m with nActiveCircuits := m.nActiveCircuits + 1 }

/-- `--(cmux->n_circuits)`. -/
def Circuitmux.decCircuits : Circuitmux :=
  { m with nCircuits := m.nCircuits - 1, underflow := m.underflow || m.nCircuits < 1 }

/-- `hashent->muxinfo.cell_count = n`. -/
def Circuitmux.setCount (key : Key) (n : UInt32) : Circuitmux :=
  { m with map := modify Entry.key key (fun e => { e with cellCount := n }) m.map }

def Circuitmux.call (c : Call) : Circuitmux := { m with calls := m.calls ++ [c] }

/-- `HT_FIND`. -/
def Circuitmux.find (key : Key) : Option Entry := lookup Entry.key key m.map

def circuitmuxFindMapEntry (circ : Circuit) : Option (Option Entry) :=
  match circ.nChan.bind (fun chan => m.find ⟨chan, circ.nCircId⟩) with
  | some hashent => if hashent.direction = .dirOut then some (some hashent) else none
  | none =>
      if circ.isOrCircuit then
        match circ.pChan.bind (fun chan => m.find ⟨chan, circ.pCircId⟩) with
        | some hashent => if hashent.direction = .dirIn then some (some hashent) else none
        | none => some none
      else some none

/-- `circuitmux_make_circuit_active` and `circuitmux_make_circuit_inactive`, told apart by the callback
and its call. -/
def circuitmuxTellPolicy (hasCallback : Policy → Bool) (call : Policy → Key → Call) (circ : Circuit) :
    Option Circuitmux :=
  match m.policy with
  | none => none
  | some policy =>
      if hasCallback policy then
        match circuitmuxFindMapEntry m circ with
        | some (some hashent) => some (m.call (call policy hashent.key))
        | _ => none
      else some m

def circuitmuxMakeCircuitActive (circ : Circuit) : Option Circuitmux :=
  circuitmuxTellPolicy m Policy.notifyCircActive .circActive circ

def circuitmuxMakeCircuitInactive (circ : Circuit) : Option Circuitmux :=
  circuitmuxTellPolicy m Policy.notifyCircInactive .circInactive circ

/-! ### The calls -/

/-- The channel, the identifier and the queued cells of a circuit in a direction. -/
def Circuit.side (circ : Circuit) : CellDirection → Option UInt64 × UInt32 × UInt32
  | .dirOut => (circ.nChan, circ.nCircId, circ.nChanCells)
  | .dirIn => (circ.pChan, circ.pCircId, circ.pChanCells)

def circuitmuxAttachCircuit (circ : Circuit) (direction : CellDirection) : Option Circuitmux :=
  -- `TO_OR_CIRCUIT` asserts the magic
  if direction = .dirIn ∧ ¬ circ.isOrCircuit then none
  else
    match circ.side direction with
    | (none, _, _) => none
    | (some channelId, circId, cellCount) =>
        if circId = 0 then none
        else
          match m.find ⟨channelId, circId⟩ with
          | some hashent =>
              if hashent.direction ≠ direction then none
              else
                Option.bind
                  (if hashent.cellCount > 0 ∧ cellCount = 0 then
                    circuitmuxMakeCircuitInactive m.decActive circ
                  else if hashent.cellCount = 0 ∧ cellCount > 0 then
                    circuitmuxMakeCircuitActive m.incActive circ
                  else some m)
                  fun m =>
                    let m := m.subCells hashent.cellCount
                    let m := m.addCells cellCount
                    some (m.setCount ⟨channelId, circId⟩ cellCount)
          | none =>
              match m.policy with
              | none => none
              | some policy =>
                  if policy.allocCircData ∧ ¬ policy.freeCircData then none
                  else
                    let hashent : Entry :=
                      ⟨⟨channelId, circId⟩, cellCount, direction, policy.allocCircData⟩
                    let m := { m with map := hashent :: m.map, nCircuits := m.nCircuits + 1 }
                    Option.bind
                      (if cellCount > 0 then circuitmuxMakeCircuitActive m.incActive circ else some m)
                      fun m => some (m.addCells cellCount)

/-- The search of `circuitmux_detach_circuit`: what was found, and the direction searched last. -/
def detachSearch (circ : Circuit) : Option Entry × Option CellDirection :=
  let byN := circ.nChan.bind (fun chan => m.find ⟨chan, circ.nCircId⟩)
  let searchedN := circ.nChan.map (fun _ => CellDirection.dirOut)
  match byN with
  | some hashent => (some hashent, searchedN)
  | none =>
      if circ.isOrCircuit then
        match circ.pChan with
        | some chan => (m.find ⟨chan, circ.pCircId⟩, some .dirIn)
        | none => (none, searchedN)
      else (none, searchedN)

/-- Whether the data of an entry can be freed, if there is any. -/
def canFree (policy : Option Policy) (hashent : Entry) : Bool :=
  !hashent.policyData || policy.any Policy.freeCircData

def circuitmuxDetachCircuit (circ : Circuit) : Option Circuitmux :=
  match detachSearch m circ with
  | (_, none) => none
  | (none, some _) => some m
  | (some hashent, some lastSearchedDirection) =>
      let m := m.decCircuits
      Option.bind
        (if hashent.cellCount > 0 then circuitmuxMakeCircuitInactive m.decActive circ else some m)
        fun m =>
          let m := m.subCells hashent.cellCount
          if ¬ canFree m.policy hashent then none
          else if lastSearchedDirection ≠ hashent.direction then none
          else some { m with map := remove Entry.key hashent.key m.map }

/-- The loop of `circuitmux_detach_all_circuits` over the entries, with the circuits it adds to
`detached_out`.  `circuitOf` is the circuit of a channel and an identifier. -/
def detachAllLoop (circuitOf : Key → Option Circuit) :
    List Entry → Circuitmux → Option (Circuitmux × List Circuit)
  | [], m => some (m, [])
  | toRemove :: entries, m =>
      match circuitOf toRemove.key with
      | some circ =>
          let isDetached := toRemove.direction = .dirOut ∨ circ.isOrCircuit
          Option.bind
            (if isDetached ∧ toRemove.cellCount > 0 then circuitmuxMakeCircuitInactive m circ
            else some m)
            fun m =>
              if ¬ canFree m.policy toRemove then none
              else
                (detachAllLoop circuitOf entries
                  { m with map := remove Entry.key toRemove.key m.map }).map
                  fun (m, detached) => (m, if isDetached then circ :: detached else detached)
      | none =>
          -- complain and move on; the policy data must not be left behind
          if toRemove.policyData then none
          else detachAllLoop circuitOf entries { m with map := remove Entry.key toRemove.key m.map }

def circuitmuxDetachAllCircuits (circuitOf : Key → Option Circuit) :
    Option (Circuitmux × List Circuit) :=
  (detachAllLoop circuitOf m.map m).map fun (m, detached) =>
    ({ m with nCircuits := 0, nActiveCircuits := 0, nCells := 0 }, detached)

def circuitmuxSetNumCells (circ : Circuit) (nCells : UInt32) : Option Circuitmux :=
  match circuitmuxFindMapEntry m circ, m.policy with
  | some (some hashent), some policy =>
      let m := m.subCells hashent.cellCount
      let m := m.addCells nCells
      let m := if policy.notifySetNCells then m.call (.setNCells policy hashent.key nCells) else m
      if hashent.cellCount > 0 ∧ nCells = 0 then
        circuitmuxMakeCircuitInactive (m.decActive.setCount hashent.key nCells) circ
      else if hashent.cellCount = 0 ∧ nCells > 0 then
        circuitmuxMakeCircuitActive (m.incActive.setCount hashent.key nCells) circ
      else some (m.setCount hashent.key nCells)
  | _, _ => none

def circuitmuxNotifyXmitCells (circ : Circuit) (nCells : UInt32) : Option Circuitmux :=
  if nCells = 0 then some m
  else
    match circuitmuxFindMapEntry m circ, m.policy with
    | some (some hashent), some policy =>
        if ¬ nCells ≤ hashent.cellCount then none
        else
          let cellCount := hashent.cellCount - nCells
          let m := m.setCount hashent.key cellCount
          let m := m.subCells nCells
          let m := if policy.notifyXmitCells then m.call (.xmitCells policy hashent.key nCells) else m
          if cellCount = 0 then circuitmuxMakeCircuitInactive m.decActive circ else some m
    | _, _ => none

/-- The loop of `circuitmux_set_policy` over the entries: the entries after it and the calls made. -/
def setPolicyLoop (circuitOf : Key → Option Circuit) (oldPol newPol : Option Policy) :
    List Entry → Option (List Entry × List Call)
  | [] => some ([], [])
  | hashent :: entries =>
      match circuitOf hashent.key with
      | none => none
      | some _ =>
          if ¬ canFree oldPol hashent then none
          else if newPol.any (fun pol => pol.allocCircData && !pol.freeCircData) then none
          else
            let tellOld := oldPol.toList.filter (fun pol => pol.notifyCircInactive)
            let tellNew := newPol.toList.filter (fun pol => pol.notifyCircActive)
            let calls :=
              if hashent.cellCount > 0 then
                tellOld.map (.circInactive · hashent.key) ++ tellNew.map (.circActive · hashent.key)
              else []
            (setPolicyLoop circuitOf oldPol newPol entries).map fun (entries, rest) =>
              ({ hashent with policyData := newPol.any Policy.allocCircData } :: entries,
                calls ++ rest)

def circuitmuxSetPolicy (circuitOf : Key → Option Circuit) (pol : Option Policy) :
    Option Circuitmux :=
  if m.policy = pol then some m
  else if pol.any (fun pol => pol.allocCmuxData && !pol.freeCmuxData) then none
  else
    (setPolicyLoop circuitOf m.policy pol m.map).bind fun (map, calls) =>
      if m.policyData ∧ ¬ m.policy.any Policy.freeCmuxData then none
      else
        some { m with
          policy := pol
          policyData := pol.any Policy.allocCmuxData
          map := map
          calls := m.calls ++ calls }

/-- What `circuitmux_get_first_active_circuit` finds. -/
inductive FirstActive where
  | destroyQueue
  | circuit (key : Option Key)
  | nothing
  deriving DecidableEq, Repr

/-- `circuitmux_get_first_active_circuit`, where `pick` is what the policy's `pick_active_circuit`
returns. -/
def circuitmuxGetFirstActiveCircuit (pick : Option Key) : Option (Circuitmux × FirstActive) :=
  if m.policy = none then none
  else if m.destroyCellQueueN ≠ 0 ∧ (¬ m.lastCellWasDestroy ∨ m.nActiveCircuits = 0) then
    some ({ m with lastCellWasDestroy := true }, .destroyQueue)
  else if m.nActiveCircuits > 0 then
    if m.nCells > 0 then some ({ m with lastCellWasDestroy := false }, .circuit pick) else none
  else if m.nCells = 0 ∧ m.destroyCellQueueN = 0 then some (m, .nothing)
  else none

/-! ### Runs -/

/-- A call of the multiplexer's interface. -/
inductive Event where
  | attachCircuit (circ : Circuit) (direction : CellDirection)
  | detachCircuit (circ : Circuit)
  | detachAllCircuits (circuitOf : Key → Option Circuit)
  | setNumCells (circ : Circuit) (nCells : UInt32)
  | notifyXmitCells (circ : Circuit) (nCells : UInt32)
  | setPolicy (circuitOf : Key → Option Circuit) (pol : Option Policy)

def exec (m : Circuitmux) : Event → Option Circuitmux
  | .attachCircuit circ direction => circuitmuxAttachCircuit m circ direction
  | .detachCircuit circ => circuitmuxDetachCircuit m circ
  | .detachAllCircuits circuitOf => (circuitmuxDetachAllCircuits m circuitOf).map Prod.fst
  | .setNumCells circ nCells => circuitmuxSetNumCells m circ nCells
  | .notifyXmitCells circ nCells => circuitmuxNotifyXmitCells m circ nCells
  | .setPolicy circuitOf pol => circuitmuxSetPolicy m circuitOf pol

/-- A policy that allocates can free. -/
def Policy.wellFormed (pol : Policy) : Bool :=
  (!pol.allocCmuxData || pol.freeCmuxData) && (!pol.allocCircData || pol.freeCircData)

/-- The circuit that an entry is about.  No circuit comes in from the channel it goes out to. -/
def Owns (hashent : Entry) (circ : Circuit) : Prop :=
  match hashent.direction with
  | .dirOut => circ.nChan = some hashent.key.chanId ∧ circ.nCircId = hashent.key.circId
  | .dirIn =>
      circ.isOrCircuit = true ∧ circ.pChan = some hashent.key.chanId ∧
        circ.pCircId = hashent.key.circId ∧ circ.nChan ≠ some hashent.key.chanId

/-- What callers see to, for the multiplexer of the channel `chan`. -/
def Pre (chan : UInt64) (m : Circuitmux) : Event → Prop
  | .attachCircuit circ direction =>
      m.policy ≠ none ∧ (circ.side direction).2.1 ≠ 0 ∧
        (∀ cellCount policyData,
          Owns ⟨⟨chan, (circ.side direction).2.1⟩, cellCount, direction, policyData⟩ circ) ∧
        ∀ hashent, m.find ⟨chan, (circ.side direction).2.1⟩ = some hashent →
          hashent.direction = direction
  | .detachCircuit circ =>
      m.policy ≠ none ∧ (circ.nChan ≠ none ∨ circ.isOrCircuit = true ∧ circ.pChan ≠ none) ∧
        circuitmuxFindMapEntry m circ ≠ none
  | .detachAllCircuits circuitOf =>
      (m.map ≠ [] → m.policy ≠ none) ∧
        ∀ hashent ∈ m.map, ∃ circ, circuitOf hashent.key = some circ ∧ Owns hashent circ
  | .setNumCells circ _ =>
      m.policy ≠ none ∧ ∃ hashent, circuitmuxFindMapEntry m circ = some (some hashent)
  | .notifyXmitCells circ nCells =>
      m.policy ≠ none ∧ ∃ hashent, circuitmuxFindMapEntry m circ = some (some hashent) ∧
        nCells ≤ hashent.cellCount
  | .setPolicy circuitOf pol =>
      (∀ hashent ∈ m.map, circuitOf hashent.key ≠ none) ∧ ∀ p, pol = some p → p.wellFormed = true

def cellSum (map : List Entry) : ℕ := total (fun e => e.cellCount.toNat) map

/-- The sum of the cell counts, with the count the call sets, stays within an `unsigned int`. -/
def Fits (chan : UInt64) (m : Circuitmux) : Event → Prop
  | .attachCircuit circ direction =>
      cellSum (remove Entry.key ⟨chan, (circ.side direction).2.1⟩ m.map) +
        (circ.side direction).2.2.toNat < 2 ^ 32
  | .setNumCells circ nCells =>
      ∀ hashent, circuitmuxFindMapEntry m circ = some (some hashent) →
        cellSum (remove Entry.key hashent.key m.map) + nCells.toNat < 2 ^ 32
  | _ => True

/-- The number of cells of a circuit, zero if it is not attached. -/
def Circuitmux.count (m : Circuitmux) (key : Key) : UInt32 := ((m.find key).map Entry.cellCount).getD 0

/-- The policy is installed and the circuit has cells. -/
def Circuitmux.isActive (m : Circuitmux) (pol : Policy) (key : Key) : Bool :=
  m.policy = some pol ∧ 0 < m.count key

/-- The changes of each circuit between having cells and having none, under each policy. -/
abbrev History := Policy → Key → List Bool

/-- What a call adds to the history. -/
def observe (m m' : Circuitmux) (history : History) : History := fun pol key =>
  history pol key ++
    if m.isActive pol key = m'.isActive pol key then [] else [m'.isActive pol key]

/-- One call.  In what order the hash table is walked next is not known. -/
inductive Step (chan : UInt64) : Circuitmux × History → Event → Circuitmux × History → Prop where
  | call {m m' : Circuitmux} {history : History} {ev : Event} {map : List Entry}
      (hpre : Pre chan m ev) (hexec : exec m ev = some m') (hperm : m'.map.Perm map) :
      Step chan (m, history) ev ({ m' with map := map }, observe m m' history)

def told (calls : List Call) (pol : Policy) (key : Key) : List Bool :=
  calls.filterMap fun
    | .circActive p k => if p = pol ∧ k = key then some true else none
    | .circInactive p k => if p = pol ∧ k = key then some false else none
    | _ => none

/-- Whether the policy wants to be told. -/
def Policy.wants (pol : Policy) : Bool → Bool
  | true => pol.notifyCircActive
  | false => pol.notifyCircInactive

def activeCount (map : List Entry) : ℕ := total (fun e => if 0 < e.cellCount then 1 else 0) map

structure Accounting (m : Circuitmux) (history : History) : Prop where
  nCircuits_eq : m.nCircuits.toNat = m.map.length
  nCells_eq : m.nCells.toNat = cellSum m.map
  nActiveCircuits_eq : m.nActiveCircuits.toNat = activeCount m.map
  /-- Every policy was told of every change, in order, as far as it has the callback. -/
  told_eq : ∀ pol key, told m.calls pol key = (history pol key).filter pol.wants
  /-- No subtraction went below zero. -/
  noUnderflow : m.underflow = false
  /-- A policy that picks one of the circuits it was last told are active, if there is one, makes
  `circuitmux_get_first_active_circuit` find a circuit with cells. -/
  getFirst : ∀ pol, m.policy = some pol → pol.notifyCircActive = true → pol.notifyCircInactive = true →
    0 < m.nActiveCircuits → ∀ pick,
      ((∃ key, (told m.calls pol key).getLast? = some true) →
        ∃ key, pick = some key ∧ (told m.calls pol key).getLast? = some true) →
      ∃ m' key, circuitmuxGetFirstActiveCircuit m pick = some (m', .circuit (some key)) ∧
        0 < m.count key

/-! ### The table of one channel -/

/-- The entries are those of one channel, with identifiers that are not zero. -/
structure TableOk (chan : UInt64) (policy : Option Policy) (map : List Entry) : Prop where
  keyed : Keyed Entry.key map
  key_ok : ∀ e ∈ map, e.key.chanId = chan ∧ e.key.circId ≠ 0
  canFree : ∀ e ∈ map, canFree policy e = true

variable {chan : UInt64} {policy : Option Policy} {map : List Entry} {key : Key} {e : Entry}

theorem TableOk.perm {map' : List Entry} (h : TableOk chan policy map) (hp : map.Perm map') :
    TableOk chan policy map' where
  keyed := h.keyed.perm hp
  key_ok := fun e he => h.key_ok e (hp.mem_iff.mpr he)
  canFree := fun e he => h.canFree e (hp.mem_iff.mpr he)

theorem TableOk.length_lt (h : TableOk chan policy map) : map.length < 2 ^ 32 := by
  have hinj : (map.map (fun e => e.key.circId.toNat)).Nodup := by
    have hpair : map.Pairwise (fun e e' => e.key ≠ e'.key) := List.pairwise_map.mp h.keyed
    refine List.pairwise_map.mpr (hpair.imp_of_mem ?_)
    intro e e' he he' hne heq
    have hid : e.key.circId = e'.key.circId := UInt32.toNat_inj.mp heq
    have hchan : e.key.chanId = e'.key.chanId := by rw [(h.key_ok e he).1, (h.key_ok e' he').1]
    exact hne (Key.ext hchan hid)
  have hsub : (map.map (fun e => e.key.circId.toNat)) ⊆ List.range' 1 (2 ^ 32 - 1) := by
    intro n hn
    obtain ⟨e, he, rfl⟩ := List.mem_map.mp hn
    have hne : e.key.circId.toNat ≠ 0 := fun h0 => (h.key_ok e he).2 (UInt32.toNat_inj.mp h0)
    have hlt := e.key.circId.toNat_lt
    rw [List.mem_range'_1]
    omega
  have hle := (hinj.subperm hsub).length_le
  rw [List.length_map, List.length_range'] at hle
  omega

theorem activeCount_le_length (map : List Entry) : activeCount map ≤ map.length := by
  rw [← total_one (l := map)]
  refine List.sum_le_sum ?_
  intro e _
  split
  · exact le_refl 1
  · exact Nat.zero_le 1

/-- The number of cells of a circuit in a table. -/
def countOf (map : List Entry) (key : Key) : UInt32 :=
  ((lookup Entry.key key map).map Entry.cellCount).getD 0

/-- A table after the number of cells of one circuit changed from `c` to `c'`, where a circuit that is
not attached has none. -/
structure Change (chan : UInt64) (policy : Option Policy) (map map' : List Entry) (key : Key)
    (c c' : UInt32) : Prop where
  tableOk : TableOk chan policy map'
  before : countOf map key = c
  after : countOf map' key = c'
  others : ∀ k, k ≠ key → countOf map' k = countOf map k
  cellSum_eq : cellSum map' + c.toNat = cellSum map + c'.toNat
  activeCount_eq : activeCount map' + (if 0 < c then 1 else 0) =
    activeCount map + (if 0 < c' then 1 else 0)

theorem TableOk.change_modify (h : TableOk chan policy map) (he : lookup Entry.key key map = some e)
    (c' : UInt32) :
    Change chan policy map (modify Entry.key key (fun e => { e with cellCount := c' }) map) key
      e.cellCount c' where
  tableOk := by
    refine ⟨h.keyed.modify (fun _ => rfl), ?_, ?_⟩
    · intro x hx
      obtain ⟨y, hy, rfl⟩ := List.mem_map.mp hx
      split
      · exact h.key_ok y hy
      · exact h.key_ok y hy
    · intro x hx
      obtain ⟨y, hy, rfl⟩ := List.mem_map.mp hx
      split
      · exact h.canFree y hy
      · exact h.canFree y hy
  before := by simp [countOf, he]
  after := by
    have hg : ∀ x : Entry, Entry.key { x with cellCount := c' } = x.key := fun _ => rfl
    simp [countOf, lookup_modify hg, he]
  others := by
    intro k hk
    have hg : ∀ x : Entry, Entry.key { x with cellCount := c' } = x.key := fun _ => rfl
    simp [countOf, lookup_modify hg, hk]
  cellSum_eq := total_modify h.keyed he
  activeCount_eq := total_modify h.keyed he

theorem TableOk.change_cons (h : TableOk chan policy map) (hnew : lookup Entry.key e.key map = none)
    (hkey : e.key.chanId = chan ∧ e.key.circId ≠ 0) (hfree : Cmux.canFree policy e = true) :
    Change chan policy map (e :: map) e.key 0 e.cellCount where
  tableOk := by
    refine ⟨h.keyed.cons hnew, ?_, ?_⟩
    · intro x hx
      rcases List.mem_cons.mp hx with rfl | hx
      · exact hkey
      · exact h.key_ok x hx
    · intro x hx
      rcases List.mem_cons.mp hx with rfl | hx
      · exact hfree
      · exact h.canFree x hx
  before := by simp [countOf, hnew]
  after := by simp [countOf, lookup_cons]
  others := by
    intro k hk
    simp [countOf, lookup_cons, Ne.symm hk]
  cellSum_eq := by simp [cellSum, total_cons, Nat.add_comm]
  activeCount_eq := by simp [activeCount, total_cons, Nat.add_comm]

theorem TableOk.change_remove (h : TableOk chan policy map) (he : lookup Entry.key key map = some e) :
    Change chan policy map (remove Entry.key key map) key e.cellCount 0 where
  tableOk := by
    refine ⟨h.keyed.remove, ?_, ?_⟩
    · intro x hx
      exact h.key_ok x (List.mem_of_mem_filter hx)
    · intro x hx
      exact h.canFree x (List.mem_of_mem_filter hx)
  before := by simp [countOf, he]
  after := by simp [countOf, lookup_remove]
  others := by
    intro k hk
    simp [countOf, lookup_remove, hk]
  cellSum_eq := by simpa [cellSum] using total_remove h.keyed he
  activeCount_eq := by simpa [activeCount] using total_remove h.keyed he

/-! ### One circuit changes -/

/-- What the policy is told about a circuit whose number of cells changes. -/
def transitionCalls (pol : Policy) (key : Key) (c c' : UInt32) : List Call :=
  if 0 < c ∧ c' = 0 then (if pol.notifyCircInactive then [.circInactive pol key] else [])
  else if c = 0 ∧ 0 < c' then (if pol.notifyCircActive then [.circActive pol key] else [])
  else []

/-- The multiplexer after one circuit changed its number of cells, with the further calls made. -/
def Circuitmux.changed (m : Circuitmux) (nCircuits : UInt32) (map : List Entry) (pol : Policy)
    (key : Key) (c c' : UInt32) (further : List Call) : Circuitmux :=
  { m with
    nCircuits := nCircuits
    nActiveCircuits :=
      if 0 < c ∧ c' = 0 then m.nActiveCircuits - 1
      else if c = 0 ∧ 0 < c' then m.nActiveCircuits + 1
      else m.nActiveCircuits
    nCells := m.nCells - c + c'
    map := map
    calls := m.calls ++ (further ++ transitionCalls pol key c c') }

theorem pos_iff {n : UInt32} : 0 < n ↔ n ≠ 0 := UInt32.pos_iff_ne_zero

theorem not_pos_iff {n : UInt32} : ¬ 0 < n ↔ n = 0 := by
  rw [pos_iff, not_not]

theorem told_append (calls calls' : List Call) (pol : Policy) (key : Key) :
    told (calls ++ calls') pol key = told calls pol key ++ told calls' pol key :=
  List.filterMap_append

theorem told_transitionCalls (pol p : Policy) (key k : Key) (c c' : UInt32) :
    told (transitionCalls pol key c c') p k =
      (if p = pol ∧ k = key ∧ decide (0 < c) ≠ decide (0 < c') then [decide (0 < c')] else []).filter
        p.wants := by
  by_cases hkey : p = pol ∧ k = key
  · obtain ⟨rfl, rfl⟩ := hkey
    by_cases hc : 0 < c
    · by_cases hc' : 0 < c'
      · have hz : c ≠ 0 := pos_iff.mp hc
        simp [transitionCalls, hc, hc', hz, pos_iff.mp hc', told]
      · have hz' : c' = 0 := not_pos_iff.mp hc'
        cases hw : p.notifyCircInactive <;> simp [transitionCalls, hc, hz', hw, told, Policy.wants]
    · have hz : c = 0 := not_pos_iff.mp hc
      by_cases hc' : 0 < c'
      · cases hw : p.notifyCircActive <;> simp [transitionCalls, hz, hc', hw, told, Policy.wants]
      · have hz' : c' = 0 := not_pos_iff.mp hc'
        simp [transitionCalls, hz, hz', told]
  · have hne : ¬ (pol = p ∧ key = k) := fun h => hkey ⟨h.1.symm, h.2.symm⟩
    rw [if_neg (fun h => hkey ⟨h.1, h.2.1⟩)]
    unfold transitionCalls
    split
    · split <;> simp [told, hne]
    · split
      · split <;> simp [told, hne]
      · simp [told]

/-- What is known of a multiplexer between two calls. -/
structure Inv (chan : UInt64) (m : Circuitmux) (history : History) : Prop where
  tableOk : TableOk chan m.policy m.map
  policyOk : ∀ pol, m.policy = some pol → pol.wellFormed = true
  policyData_ok : m.policyData = true → m.policy.any Policy.freeCmuxData = true
  nCircuits_eq : m.nCircuits.toNat = m.map.length
  nCells_eq : m.nCells.toNat = cellSum m.map
  nActiveCircuits_eq : m.nActiveCircuits.toNat = activeCount m.map
  noUnderflow : m.underflow = false
  noDestroy : m.destroyCellQueueN = 0
  told_eq : ∀ pol key, told m.calls pol key = (history pol key).filter pol.wants
  last_eq : ∀ pol key, (history pol key).getLast?.getD false = m.isActive pol key

variable {m : Circuitmux} {history : History} {pol : Policy} {c c' : UInt32}

theorem Circuitmux.isActive_eq (m : Circuitmux) (pol : Policy) (key : Key) :
    m.isActive pol key = (decide (m.policy = some pol) && decide (0 < countOf m.map key)) := by
  show decide (m.policy = some pol ∧ 0 < countOf m.map key) = _
  exact Bool.decide_and _ _

theorem countOf_le_cellSum (map : List Entry) (key : Key) : (countOf map key).toNat ≤ cellSum map := by
  unfold countOf
  cases he : lookup Entry.key key map with
  | none => simp
  | some e => exact le_total_of_mem (f := fun e => e.cellCount.toNat) (mem_of_lookup he)

theorem activeCount_pos_iff (map : List Entry) :
    0 < activeCount map ↔ ∃ e ∈ map, 0 < e.cellCount := by
  constructor
  · intro h
    by_contra hnone
    have hzero : activeCount map = 0 := by
      refine List.sum_eq_zero ?_
      intro n hn
      obtain ⟨e, he, rfl⟩ := List.mem_map.mp hn
      exact if_neg (fun hpos => hnone ⟨e, he, hpos⟩)
    omega
  · rintro ⟨e, he, hpos⟩
    have hle := le_total_of_mem (f := fun e : Entry => if 0 < e.cellCount then 1 else 0) he
    simp only [hpos, if_true] at hle
    exact hle

theorem activeCount_pos_of_countOf (h : 0 < countOf map key) : 0 < activeCount map := by
  rw [activeCount_pos_iff]
  unfold countOf at h
  cases he : lookup Entry.key key map with
  | none => rw [he] at h; exact absurd h (by decide)
  | some e => rw [he] at h; exact ⟨e, mem_of_lookup he, h⟩

/-- The history grows by what changed, and ends in what is. -/
theorem last_observe {m' : Circuitmux}
    (hlast : ∀ pol key, (history pol key).getLast?.getD false = m.isActive pol key) :
    ∀ pol key, (observe m m' history pol key).getLast?.getD false = m'.isActive pol key := by
  intro pol key
  unfold observe
  by_cases hsame : m.isActive pol key = m'.isActive pol key
  · rw [if_pos hsame, List.append_nil, hlast, hsame]
  · rw [if_neg hsame]
    simp

/-- **The step lemma** for the calls that change the number of cells of one circuit. -/
theorem Inv.changed (h : Inv chan m history) {map' : List Entry} {nCircuits : UInt32}
    {further : List Call} (hpol : m.policy = some pol)
    (hchange : Change chan m.policy m.map map' key c c') (hlen : nCircuits.toNat = map'.length)
    (hfits : cellSum map' < 2 ^ 32) (hfurther : ∀ p k, told further p k = []) :
    Inv chan (m.changed nCircuits map' pol key c c' further)
      (observe m (m.changed nCircuits map' pol key c c' further) history) where
  tableOk := hchange.tableOk
  policyOk := h.policyOk
  policyData_ok := h.policyData_ok
  nCircuits_eq := hlen
  nCells_eq := by
    have hsum := hchange.cellSum_eq
    have hcells := h.nCells_eq
    have hcount := countOf_le_cellSum m.map key
    rw [hchange.before] at hcount
    have hle : c ≤ m.nCells := by
      rw [UInt32.le_iff_toNat_le, hcells]
      exact hcount
    have hsub : (m.nCells - c).toNat = m.nCells.toNat - c.toNat := UInt32.toNat_sub_of_le _ _ hle
    show (m.nCells - c + c').toNat = cellSum map'
    rw [UInt32.toNat_add, hsub, hcells, Nat.mod_eq_of_lt (by omega)]
    omega
  nActiveCircuits_eq := by
    have hcount := hchange.activeCount_eq
    have hactive := h.nActiveCircuits_eq
    have hlt : activeCount map' < 2 ^ 32 :=
      Nat.lt_of_le_of_lt (activeCount_le_length map') hchange.tableOk.length_lt
    show (if 0 < c ∧ c' = 0 then m.nActiveCircuits - 1
      else if c = 0 ∧ 0 < c' then m.nActiveCircuits + 1 else m.nActiveCircuits).toNat =
        activeCount map'
    by_cases hc : 0 < c
    · by_cases hc' : 0 < c'
      · rw [if_neg (fun h => pos_iff.mp hc' h.2), if_neg (fun h => pos_iff.mp hc h.1)]
        rw [if_pos hc, if_pos hc'] at hcount
        omega
      · have hpos := activeCount_pos_of_countOf
          (show 0 < countOf m.map key by rw [hchange.before]; exact hc)
        have hle : 1 ≤ m.nActiveCircuits := by
          rw [UInt32.le_iff_toNat_le, hactive]
          exact hpos
        have hone : (1 : UInt32).toNat = 1 := rfl
        rw [if_pos ⟨hc, not_pos_iff.mp hc'⟩, UInt32.toNat_sub_of_le _ _ hle]
        rw [if_pos hc, if_neg hc'] at hcount
        omega
    · by_cases hc' : 0 < c'
      · have hone : (1 : UInt32).toNat = 1 := rfl
        rw [if_neg (fun h => hc h.1), if_pos ⟨not_pos_iff.mp hc, hc'⟩, UInt32.toNat_add,
          Nat.mod_eq_of_lt]
        · rw [if_neg hc, if_pos hc'] at hcount
          omega
        · rw [if_neg hc, if_pos hc'] at hcount
          omega
      · rw [if_neg (fun h => hc h.1), if_neg (fun h => hc' h.2)]
        rw [if_neg hc, if_neg hc'] at hcount
        omega
  noUnderflow := h.noUnderflow
  noDestroy := h.noDestroy
  told_eq := by
    intro p k
    have hcalls : (m.changed nCircuits map' pol key c c' further).calls =
        m.calls ++ (further ++ transitionCalls pol key c c') := rfl
    have hbefore := m.isActive_eq p k
    have hafter : (m.changed nCircuits map' pol key c c' further).isActive p k =
        (decide (m.policy = some p) && decide (0 < countOf map' k)) := Circuitmux.isActive_eq _ p k
    rw [hcalls, told_append, told_append, hfurther, List.nil_append, told_transitionCalls, h.told_eq,
      ← List.filter_append]
    unfold observe
    rw [hbefore, hafter, hpol]
    by_cases hp : pol = p
    · subst hp
      by_cases hk : k = key
      · subst hk
        rw [hchange.before, hchange.after]
        by_cases hsame : decide (0 < c) = decide (0 < c')
        · simp [hsame]
        · simp [hsame]
      · simp [hk, hchange.others k hk]
    · simp [hp, Ne.symm hp]
  last_eq := last_observe h.last_eq

/-! ### The calls, in one equation each -/

variable {circ : Circuit}

theorem Inv.nCells_ge (h : Inv chan m history) (key : Key) : decide (m.nCells < countOf m.map key) =
    false := by
  rw [decide_eq_false_iff_not, UInt32.not_lt, UInt32.le_iff_toNat_le, h.nCells_eq]
  exact countOf_le_cellSum m.map key

theorem Inv.nActiveCircuits_ge (h : Inv chan m history) (hpos : 0 < countOf m.map key) :
    decide (m.nActiveCircuits < 1) = false := by
  rw [decide_eq_false_iff_not, UInt32.not_lt, UInt32.le_iff_toNat_le, h.nActiveCircuits_eq]
  exact activeCount_pos_of_countOf hpos

theorem Inv.nCircuits_ge (h : Inv chan m history) (he : lookup Entry.key key m.map = some e) :
    decide (m.nCircuits < 1) = false := by
  rw [decide_eq_false_iff_not, UInt32.not_lt, UInt32.le_iff_toNat_le, h.nCircuits_eq]
  exact List.length_pos_of_mem (mem_of_lookup he)

theorem TableOk.find_other (h : TableOk chan policy map) {chan' : UInt64} (hne : chan' ≠ chan)
    (id : UInt32) : lookup Entry.key ⟨chan', id⟩ map = none := by
  rw [lookup_eq_none_iff]
  intro hmem
  obtain ⟨e, he, hkey⟩ := List.mem_map.mp hmem
  have hchan := (h.key_ok e he).1
  rw [hkey] at hchan
  exact hne hchan

/-- A circuit is found by the channel and identifier of its entry. -/
theorem findMapEntry_of_owns (h : TableOk chan m.policy m.map)
    (he : lookup Entry.key key m.map = some e) (howns : Owns e circ) :
    circuitmuxFindMapEntry m circ = some (some e) := by
  have hkey := key_of_lookup he
  have hchan := (h.key_ok e (mem_of_lookup he)).1
  unfold Owns at howns
  cases hdir : e.direction with
  | dirOut =>
    rw [hdir] at howns
    obtain ⟨hn, hid⟩ := howns
    have hfind : m.find ⟨e.key.chanId, circ.nCircId⟩ = some e := by
      rw [hid]
      show lookup Entry.key e.key m.map = some e
      rwa [hkey]
    simp [circuitmuxFindMapEntry, hn, hfind, hdir]
  | dirIn =>
    rw [hdir] at howns
    obtain ⟨hor, hp, hid, hne⟩ := howns
    have hfind : m.find ⟨e.key.chanId, circ.pCircId⟩ = some e := by
      rw [hid]
      show lookup Entry.key e.key m.map = some e
      rwa [hkey]
    have hnone : circ.nChan.bind (fun chan => m.find ⟨chan, circ.nCircId⟩) = none := by
      cases hn : circ.nChan with
      | none => rfl
      | some chan' =>
        refine h.find_other ?_ circ.nCircId
        intro heq
        rw [hn, heq, hchan] at hne
        exact hne rfl
    simp [circuitmuxFindMapEntry, hnone, hor, hp, hfind, hdir]

theorem lookup_of_findMapEntry (hfind : circuitmuxFindMapEntry m circ = some (some e)) :
    lookup Entry.key e.key m.map = some e := by
  have hself : ∀ {k : Key}, m.find k = some e → lookup Entry.key e.key m.map = some e := by
    intro k hk
    have hkey := key_of_lookup hk
    rw [hkey]
    exact hk
  unfold circuitmuxFindMapEntry at hfind
  split at hfind
  · rename_i hashent hn
    split at hfind
    · cases hfind
      obtain ⟨chan', -, hk⟩ := Option.bind_eq_some_iff.mp hn
      exact hself hk
    · cases hfind
  · split at hfind
    · split at hfind
      · rename_i hashent hp
        split at hfind
        · cases hfind
          obtain ⟨chan', -, hk⟩ := Option.bind_eq_some_iff.mp hp
          exact hself hk
        · cases hfind
      · cases hfind
    · cases hfind

theorem tellPolicy_eq (hasCallback : Policy → Bool) (call : Policy → Key → Call)
    (hpol : m.policy = some pol) (hfind : circuitmuxFindMapEntry m circ = some (some e)) :
    circuitmuxTellPolicy m hasCallback call circ =
      some (if hasCallback pol then m.call (call pol e.key) else m) := by
  simp only [circuitmuxTellPolicy, hpol, hfind]
  split
  · rfl
  · rfl

/-- The policy may have changed, and the numbers of cells, and still the entry is found. -/
theorem findMapEntry_congr {m' : Circuitmux} (hmap : m'.map = m.map) :
    circuitmuxFindMapEntry m' circ = circuitmuxFindMapEntry m circ := by
  simp only [circuitmuxFindMapEntry, Circuitmux.find, hmap]

/-- The entry of a key with another number of cells. -/
def Entry.recount (key : Key) (n : UInt32) (e : Entry) : Entry :=
  if e.key = key then { e with cellCount := n } else e

@[simp] theorem Entry.recount_key (key : Key) (n : UInt32) (e : Entry) :
    (e.recount key n).key = e.key := by
  unfold Entry.recount
  split <;> rfl

@[simp] theorem Entry.recount_direction (key : Key) (n : UInt32) (e : Entry) :
    (e.recount key n).direction = e.direction := by
  unfold Entry.recount
  split <;> rfl

theorem find_setCount (m : Circuitmux) (key k : Key) (n : UInt32) :
    (m.setCount key n).find k = (m.find k).map (Entry.recount key n) := by
  have hg : ∀ x : Entry, Entry.key { x with cellCount := n } = x.key := fun _ => rfl
  show lookup Entry.key k (modify Entry.key key _ m.map) = (lookup Entry.key k m.map).map _
  rw [lookup_modify hg]
  cases hk : lookup Entry.key k m.map with
  | none => simp
  | some x =>
    have hkey := key_of_lookup hk
    by_cases heq : k = key
    · simp [heq, Entry.recount, hkey.trans heq]
    · have hne : x.key ≠ key := by rw [hkey]; exact heq
      simp [heq, Entry.recount, hne]

theorem findMapEntry_setCount (m : Circuitmux) (circ : Circuit) (key : Key) (n : UInt32) :
    circuitmuxFindMapEntry (m.setCount key n) circ =
      (circuitmuxFindMapEntry m circ).map (Option.map (Entry.recount key n)) := by
  have hbind : ∀ (chan : Option UInt64) (id : UInt32),
      chan.bind (fun chan => (m.setCount key n).find ⟨chan, id⟩) =
        (chan.bind (fun chan => m.find ⟨chan, id⟩)).map (Entry.recount key n) := by
    intro chan id
    cases chan with
    | none => rfl
    | some chan => exact find_setCount m key ⟨chan, id⟩ n
  unfold circuitmuxFindMapEntry
  rw [hbind, hbind]
  cases circ.nChan.bind (fun chan => m.find ⟨chan, circ.nCircId⟩) with
  | some x =>
    simp only [Option.map_some, Entry.recount_direction]
    split <;> rfl
  | none =>
    simp only [Option.map_none]
    split
    · cases circ.pChan.bind (fun chan => m.find ⟨chan, circ.pCircId⟩) with
      | some x =>
        simp only [Option.map_some, Entry.recount_direction]
        split <;> rfl
      | none => rfl
    · rfl

theorem countOf_of_lookup (he : lookup Entry.key key map = some e) :
    countOf map key = e.cellCount := by
  simp [countOf, he]

/-- The counter and the policy after the number of cells of a circuit changed. -/
def Circuitmux.transition (m : Circuitmux) (pol : Policy) (key : Key) (c c' : UInt32) : Circuitmux :=
  { m with
    nActiveCircuits :=
      if 0 < c ∧ c' = 0 then m.nActiveCircuits - 1
      else if c = 0 ∧ 0 < c' then m.nActiveCircuits + 1
      else m.nActiveCircuits
    calls := m.calls ++ transitionCalls pol key c c' }

theorem Circuitmux.decActive_eq (h : decide (m.nActiveCircuits < 1) = false) :
    m.decActive = { m with nActiveCircuits := m.nActiveCircuits - 1 } := by
  simp only [Circuitmux.decActive, h, Bool.or_false]

theorem Circuitmux.decCircuits_eq (h : decide (m.nCircuits < 1) = false) :
    m.decCircuits = { m with nCircuits := m.nCircuits - 1 } := by
  simp only [Circuitmux.decCircuits, h, Bool.or_false]

theorem Circuitmux.subCells_eq {n : UInt32} (h : decide (m.nCells < n) = false) :
    m.subCells n = { m with nCells := m.nCells - n } := by
  simp only [Circuitmux.subCells, h, Bool.or_false]

/-- What all calls do about a change: count, and tell the policy. -/
theorem tell_transition (c c' : UInt32) (hpol : m.policy = some pol)
    (hfind : circuitmuxFindMapEntry m circ = some (some e))
    (hact : 0 < c → decide (m.nActiveCircuits < 1) = false) :
    (if c > 0 ∧ c' = 0 then circuitmuxMakeCircuitInactive m.decActive circ
      else if c = 0 ∧ c' > 0 then circuitmuxMakeCircuitActive m.incActive circ
      else some m) = some (m.transition pol e.key c c') := by
  by_cases hdown : 0 < c ∧ c' = 0
  · have htell := tellPolicy_eq Policy.notifyCircInactive .circInactive
      (show m.decActive.policy = some pol from hpol) hfind
    rw [if_pos hdown, circuitmuxMakeCircuitInactive, htell, Circuitmux.decActive_eq (hact hdown.1)]
    cases hcb : pol.notifyCircInactive <;>
      simp [Circuitmux.transition, transitionCalls, hdown, hcb, Circuitmux.call]
  · by_cases hup : c = 0 ∧ 0 < c'
    · have htell := tellPolicy_eq Policy.notifyCircActive .circActive
        (show m.incActive.policy = some pol from hpol) hfind
      rw [if_neg hdown, if_pos hup, circuitmuxMakeCircuitActive, htell]
      cases hcb : pol.notifyCircActive <;>
        simp [Circuitmux.transition, transitionCalls, hup, hcb, Circuitmux.call, Circuitmux.incActive]
    · rw [if_neg hdown, if_neg hup]
      simp [Circuitmux.transition, transitionCalls, hdown, hup]

/-- `circuitmux_attach_circuit` on a circuit that is attached. -/
theorem attachCircuit_attached (h : Inv chan m history) (hpol : m.policy = some pol) {id : UInt32}
    {direction : CellDirection} {cellCount : UInt32}
    (hor : direction = .dirIn → circ.isOrCircuit = true)
    (hside : circ.side direction = (some chan, id, cellCount)) (hid : id ≠ 0)
    (he : lookup Entry.key ⟨chan, id⟩ m.map = some e) (hdir : e.direction = direction)
    (howns : Owns e circ) :
    circuitmuxAttachCircuit m circ direction =
      some (m.changed m.nCircuits
        (modify Entry.key ⟨chan, id⟩ (fun e => { e with cellCount := cellCount }) m.map) pol
        ⟨chan, id⟩ e.cellCount cellCount []) := by
  have hkey := key_of_lookup he
  have hcount := countOf_of_lookup he
  have hcells := h.nCells_ge ⟨chan, id⟩
  rw [hcount] at hcells
  have hfind := findMapEntry_of_owns h.tableOk he howns
  have hguard : ¬ (direction = .dirIn ∧ ¬ circ.isOrCircuit = true) := fun hg => hg.2 (hor hg.1)
  have hf : m.find ⟨chan, id⟩ = some e := he
  have htell := tell_transition e.cellCount cellCount hpol hfind
    (fun hpos => h.nActiveCircuits_ge (by rw [hcount]; exact hpos))
  simp only [circuitmuxAttachCircuit, if_neg hguard, hside, if_neg hid, hf, hdir, ne_eq, not_true,
    if_false, htell, Option.bind_some]
  rw [Circuitmux.subCells_eq (m := m.transition pol e.key e.cellCount cellCount) hcells, hkey]
  simp [Circuitmux.changed, Circuitmux.transition, Circuitmux.addCells, Circuitmux.setCount]

/-- `circuitmux_attach_circuit` on a circuit that is not attached. -/
theorem attachCircuit_new (h : Inv chan m history) (hpol : m.policy = some pol) {id : UInt32}
    {direction : CellDirection} {cellCount : UInt32}
    (hor : direction = .dirIn → circ.isOrCircuit = true)
    (hside : circ.side direction = (some chan, id, cellCount)) (hid : id ≠ 0)
    (hnew : lookup Entry.key ⟨chan, id⟩ m.map = none)
    (hkeyok : TableOk chan m.policy
      (⟨⟨chan, id⟩, cellCount, direction, pol.allocCircData⟩ :: m.map))
    (howns : Owns ⟨⟨chan, id⟩, cellCount, direction, pol.allocCircData⟩ circ) :
    circuitmuxAttachCircuit m circ direction =
      some (m.changed (m.nCircuits + 1)
        (⟨⟨chan, id⟩, cellCount, direction, pol.allocCircData⟩ :: m.map) pol ⟨chan, id⟩ 0 cellCount
        []) := by
  have hguard : ¬ (direction = .dirIn ∧ ¬ circ.isOrCircuit = true) := fun hg => hg.2 (hor hg.1)
  have hf : m.find ⟨chan, id⟩ = none := hnew
  have hwf := h.policyOk pol hpol
  have halloc : ¬ (pol.allocCircData = true ∧ ¬ pol.freeCircData = true) := by
    simp only [Policy.wellFormed, Bool.and_eq_true, Bool.or_eq_true, Bool.not_eq_true'] at hwf
    rintro ⟨ha, hnf⟩
    rcases hwf.2 with hna | hfree
    · rw [ha] at hna; cases hna
    · exact hnf hfree
  -- the table with the new entry
  set m₁ : Circuitmux :=
    { m with
      map := ⟨⟨chan, id⟩, cellCount, direction, pol.allocCircData⟩ :: m.map
      nCircuits := m.nCircuits + 1 } with hm₁
  have hfind : circuitmuxFindMapEntry m₁ circ =
      some (some ⟨⟨chan, id⟩, cellCount, direction, pol.allocCircData⟩) := by
    have hlook : lookup Entry.key ⟨chan, id⟩ m₁.map =
        some ⟨⟨chan, id⟩, cellCount, direction, pol.allocCircData⟩ := by
      simp [hm₁, lookup_cons]
    exact findMapEntry_of_owns hkeyok hlook howns
  have htell := tell_transition (m := m₁) 0 cellCount hpol hfind (fun hpos => absurd hpos (by decide))
  have hif : (if cellCount > 0 then circuitmuxMakeCircuitActive m₁.incActive circ else some m₁) =
      some (m₁.transition pol ⟨chan, id⟩ 0 cellCount) := by
    rw [← htell]
    by_cases hpos : 0 < cellCount
    · simp [hpos]
    · simp [not_pos_iff.mp hpos]
  simp only [circuitmuxAttachCircuit, if_neg hguard, hside, if_neg hid, hf, hpol, if_neg halloc]
  rw [← hpol, ← hm₁, hif]
  simp [Circuitmux.changed, Circuitmux.transition, Circuitmux.addCells, hm₁]

/-- The search of `circuitmux_detach_circuit` finds what `circuitmux_find_map_entry` finds, and has then
searched in its direction. -/
theorem detachSearch_eq (hfind : circuitmuxFindMapEntry m circ = some (some e)) :
    detachSearch m circ = (some e, some e.direction) := by
  unfold circuitmuxFindMapEntry at hfind
  unfold detachSearch
  cases hn : circ.nChan.bind (fun chan => m.find ⟨chan, circ.nCircId⟩) with
  | some x =>
    simp only [hn] at hfind ⊢
    split at hfind
    · rename_i hdir
      cases hfind
      obtain ⟨chan', hchan, -⟩ := Option.bind_eq_some_iff.mp hn
      simp [hchan, hdir]
    · cases hfind
  | none =>
    simp only [hn] at hfind ⊢
    split at hfind
    · rename_i hor
      cases hp : circ.pChan with
      | none => simp [hp] at hfind
      | some chan' =>
        simp only [hp, Option.bind_some] at hfind
        split at hfind
        · rename_i x hx
          split at hfind
          · rename_i hdir
            cases hfind
            simp [hor, hx, hdir]
          · cases hfind
        · cases hfind
    · cases hfind

/-- If there is nothing to find, the search was still in some direction. -/
theorem detachSearch_none (hfind : circuitmuxFindMapEntry m circ = some none)
    (hsearch : circ.nChan ≠ none ∨ circ.isOrCircuit = true ∧ circ.pChan ≠ none) :
    ∃ direction, detachSearch m circ = (none, some direction) := by
  unfold circuitmuxFindMapEntry at hfind
  unfold detachSearch
  cases hn : circ.nChan.bind (fun chan => m.find ⟨chan, circ.nCircId⟩) with
  | some x =>
    simp only [hn] at hfind
    split at hfind <;> cases hfind
  | none =>
    simp only [hn] at hfind ⊢
    by_cases hor : circ.isOrCircuit = true
    · rw [if_pos hor] at hfind ⊢
      cases hp : circ.pChan with
      | none =>
        have hne : circ.nChan ≠ none := by
          rcases hsearch with hne | ⟨-, hne⟩
          · exact hne
          · exact absurd hp hne
        obtain ⟨chan', hchan⟩ := Option.ne_none_iff_exists'.mp hne
        exact ⟨.dirOut, by simp [hchan]⟩
      | some chan' =>
        simp only [hp, Option.bind_some] at hfind
        cases hx : m.find ⟨chan', circ.pCircId⟩ with
        | none => exact ⟨.dirIn, by simp [hx]⟩
        | some x =>
          simp only [hx] at hfind
          split at hfind <;> cases hfind
    · rw [if_neg hor]
      have hne : circ.nChan ≠ none := by
        rcases hsearch with hne | ⟨htrue, -⟩
        · exact hne
        · exact absurd htrue hor
      obtain ⟨chan', hchan⟩ := Option.ne_none_iff_exists'.mp hne
      exact ⟨.dirOut, by simp [hchan]⟩

/-- `circuitmux_detach_circuit` on an attached circuit. -/
theorem detachCircuit_attached (h : Inv chan m history) (hpol : m.policy = some pol)
    (hfind : circuitmuxFindMapEntry m circ = some (some e)) :
    circuitmuxDetachCircuit m circ =
      some (m.changed (m.nCircuits - 1) (remove Entry.key e.key m.map) pol e.key e.cellCount 0 []) := by
  have he := lookup_of_findMapEntry hfind
  have hcount := countOf_of_lookup he
  have hcells := h.nCells_ge e.key
  rw [hcount] at hcells
  have hfree := h.tableOk.canFree e (mem_of_lookup he)
  set m₁ : Circuitmux := { m with nCircuits := m.nCircuits - 1 } with hm₁
  have hdec : m.decCircuits = m₁ := Circuitmux.decCircuits_eq (h.nCircuits_ge he)
  have htell := tell_transition (m := m₁) e.cellCount 0 hpol
    (show circuitmuxFindMapEntry m₁ circ = some (some e) from hfind)
    (fun hpos => h.nActiveCircuits_ge (by rw [hcount]; exact hpos))
  have hif : (if e.cellCount > 0 then circuitmuxMakeCircuitInactive m₁.decActive circ else some m₁) =
      some (m₁.transition pol e.key e.cellCount 0) := by
    rw [← htell]
    by_cases hpos : 0 < e.cellCount
    · simp [hpos]
    · simp [not_pos_iff.mp hpos]
  have hfree' : canFree (m₁.transition pol e.key e.cellCount 0).policy e = true := hfree
  simp only [circuitmuxDetachCircuit, detachSearch_eq hfind, hdec, hif, Option.bind_some]
  rw [Circuitmux.subCells_eq (m := m₁.transition pol e.key e.cellCount 0) hcells]
  simp only [hfree', not_true, if_false, ne_eq]
  simp [Circuitmux.changed, Circuitmux.transition, hm₁]

theorem setNumCells_eq (h : Inv chan m history) (hpol : m.policy = some pol)
    (hfind : circuitmuxFindMapEntry m circ = some (some e)) (nCells : UInt32) :
    circuitmuxSetNumCells m circ nCells =
      some (m.changed m.nCircuits
        (modify Entry.key e.key (fun e => { e with cellCount := nCells }) m.map) pol e.key e.cellCount
        nCells (if pol.notifySetNCells then [.setNCells pol e.key nCells] else [])) := by
  have he := lookup_of_findMapEntry hfind
  have hcount := countOf_of_lookup he
  have hcells := h.nCells_ge e.key
  rw [hcount] at hcells
  set m₁ : Circuitmux :=
    { m with
      nCells := m.nCells - e.cellCount + nCells
      calls := m.calls ++ if pol.notifySetNCells then [.setNCells pol e.key nCells] else [] } with hm₁
  have hfind₁ : circuitmuxFindMapEntry (m₁.setCount e.key nCells) circ =
      some (some (e.recount e.key nCells)) := by
    rw [findMapEntry_setCount, findMapEntry_congr (show m₁.map = m.map from rfl), hfind]
    rfl
  have htell := tell_transition e.cellCount nCells
    (show (m₁.setCount e.key nCells).policy = some pol from hpol) hfind₁
    (fun hpos => h.nActiveCircuits_ge (by rw [hcount]; exact hpos))
  have hstart : (if pol.notifySetNCells = true then
      ((m.subCells e.cellCount).addCells nCells).call (.setNCells pol e.key nCells)
      else (m.subCells e.cellCount).addCells nCells) = m₁ := by
    rw [Circuitmux.subCells_eq hcells]
    cases hcb : pol.notifySetNCells <;> simp [Circuitmux.addCells, Circuitmux.call, hm₁, hcb]
  simp only [circuitmuxSetNumCells, hfind, hpol, hstart]
  rw [Entry.recount_key] at htell
  refine Eq.trans htell ?_
  simp [Circuitmux.changed, Circuitmux.transition, Circuitmux.setCount, hm₁]

theorem notifyXmitCells_eq (h : Inv chan m history) (hpol : m.policy = some pol)
    (hfind : circuitmuxFindMapEntry m circ = some (some e)) {nCells : UInt32} (hne : nCells ≠ 0)
    (hle : nCells ≤ e.cellCount) :
    circuitmuxNotifyXmitCells m circ nCells =
      some (m.changed m.nCircuits
        (modify Entry.key e.key (fun x => { x with cellCount := e.cellCount - nCells }) m.map) pol
        e.key e.cellCount (e.cellCount - nCells)
        (if pol.notifyXmitCells then [.xmitCells pol e.key nCells] else [])) := by
  have he := lookup_of_findMapEntry hfind
  have hcount := countOf_of_lookup he
  have hcells : decide (m.nCells < nCells) = false := by
    have hall := h.nCells_ge e.key
    rw [hcount, decide_eq_false_iff_not, UInt32.not_lt] at hall
    rw [decide_eq_false_iff_not, UInt32.not_lt]
    exact UInt32.le_trans hle hall
  have hpos : 0 < e.cellCount := by
    have hn : 0 < nCells := pos_iff.mpr hne
    exact UInt32.lt_of_lt_of_le hn hle
  have harith : m.nCells - nCells = m.nCells - e.cellCount + (e.cellCount - nCells) := by grind
  set m₁ : Circuitmux :=
    { m with
      nCells := m.nCells - nCells
      calls := m.calls ++ if pol.notifyXmitCells then [.xmitCells pol e.key nCells] else [] } with hm₁
  have hfind₁ : circuitmuxFindMapEntry (m₁.setCount e.key (e.cellCount - nCells)) circ =
      some (some (e.recount e.key (e.cellCount - nCells))) := by
    rw [findMapEntry_setCount, findMapEntry_congr (show m₁.map = m.map from rfl), hfind]
    rfl
  have htell := tell_transition e.cellCount (e.cellCount - nCells)
    (show (m₁.setCount e.key (e.cellCount - nCells)).policy = some pol from hpol) hfind₁
    (fun hpos => h.nActiveCircuits_ge (by rw [hcount]; exact hpos))
  have hstart : (if pol.notifyXmitCells = true then
      ((m.setCount e.key (e.cellCount - nCells)).subCells nCells).call (.xmitCells pol e.key nCells)
      else (m.setCount e.key (e.cellCount - nCells)).subCells nCells) =
        m₁.setCount e.key (e.cellCount - nCells) := by
    rw [Circuitmux.subCells_eq (m := m.setCount e.key (e.cellCount - nCells)) hcells]
    cases hcb : pol.notifyXmitCells <;> simp [Circuitmux.setCount, Circuitmux.call, hm₁, hcb]
  have hzero : e.cellCount ≠ 0 := pos_iff.mp hpos
  simp only [circuitmuxNotifyXmitCells, if_neg hne, hfind, hpol, hle, not_true, if_false, hstart]
  rw [Entry.recount_key] at htell
  simp only [gt_iff_lt, hpos, true_and, hzero, false_and, if_false] at htell
  refine Eq.trans htell ?_
  simp only [Circuitmux.changed, Circuitmux.transition, Circuitmux.setCount, hm₁, List.append_assoc,
    ← harith]

/-! ### All circuits change -/

/-- Calls about each entry of a table: what a policy was told of a circuit is in those about its entry. -/
theorem told_flatMap (hkeyed : Keyed Entry.key map) (g : Entry → List Call) (p : Policy) (k : Key)
    (hg : ∀ e, e.key ≠ k → told (g e) p k = []) :
    told (map.flatMap g) p k =
      ((lookup Entry.key k map).map (fun e => told (g e) p k)).getD [] := by
  induction map with
  | nil => rfl
  | cons e map ih =>
    obtain ⟨hnew, hrest⟩ := List.nodup_cons.mp (by simpa [Keyed] using hkeyed :
      (e.key :: map.map Entry.key).Nodup)
    rw [List.flatMap_cons, told_append, ih hrest, lookup_cons]
    by_cases hk : e.key = k
    · have hnone : lookup Entry.key k map = none := by
        rw [lookup_eq_none_iff, ← hk]
        exact hnew
      simp [hk, hnone]
    · simp [hk, hg e hk]

/-- The loop of `circuitmux_detach_all_circuits` empties the table and tells the policy of every circuit
that had cells. -/
theorem detachAllLoop_eq {circuitOf : Key → Option Circuit} (entries : List Entry) (m : Circuitmux)
    (hmap : m.map = entries) (htable : TableOk chan m.policy m.map) (hpol : m.policy = some pol)
    (howns : ∀ e ∈ entries, ∃ circ, circuitOf e.key = some circ ∧ Owns e circ) :
    ∃ detached, detachAllLoop circuitOf entries m =
      some ({ m with
        map := []
        calls := m.calls ++ entries.flatMap (fun e => transitionCalls pol e.key e.cellCount 0) },
        detached) := by
  induction entries generalizing m with
  | nil =>
    cases m
    cases hmap
    exact ⟨[], by simp [detachAllLoop]⟩
  | cons e entries ih =>
    obtain ⟨circ, hcirc, hown⟩ := howns e List.mem_cons_self
    have hmem : e ∈ m.map := by rw [hmap]; exact List.mem_cons_self
    have hlook := lookup_of_mem htable.keyed hmem
    have hfind := findMapEntry_of_owns htable hlook hown
    have hfree := htable.canFree e hmem
    have hdet : e.direction = .dirOut ∨ circ.isOrCircuit = true := by
      unfold Owns at hown
      cases hdir : e.direction with
      | dirOut => exact .inl rfl
      | dirIn =>
        rw [hdir] at hown
        exact .inr hown.1
    have htell : (if (e.direction = .dirOut ∨ circ.isOrCircuit = true) ∧ e.cellCount > 0 then
        circuitmuxMakeCircuitInactive m circ else some m) =
          some { m with calls := m.calls ++ transitionCalls pol e.key e.cellCount 0 } := by
      by_cases hpos : 0 < e.cellCount
      · rw [if_pos ⟨hdet, hpos⟩, circuitmuxMakeCircuitInactive, tellPolicy_eq _ _ hpol hfind]
        cases hcb : pol.notifyCircInactive <;> simp [transitionCalls, hpos, hcb, Circuitmux.call]
      · rw [if_neg (fun hand => hpos hand.2)]
        simp [transitionCalls, not_pos_iff.mp hpos]
    have hrest : remove Entry.key e.key m.map = entries := by
      have hkeyed := htable.keyed
      rw [hmap] at hkeyed ⊢
      obtain ⟨hnew, -⟩ := List.nodup_cons.mp (by simpa [Keyed] using hkeyed :
        (e.key :: entries.map Entry.key).Nodup)
      rw [remove, List.filter_cons_of_neg (by simp), List.filter_eq_self]
      intro x hx
      have hne : x.key ≠ e.key := fun heq => hnew (heq ▸ List.mem_map_of_mem hx)
      simpa using hne
    have htable' : TableOk chan m.policy entries := by
      rw [← hrest]
      exact (htable.change_remove hlook).tableOk
    obtain ⟨detached, hd⟩ := ih
      { m with
        calls := m.calls ++ transitionCalls pol e.key e.cellCount 0
        map := entries } rfl htable' hpol (fun x hx => howns x (List.mem_cons_of_mem e hx))
    refine ⟨circ :: detached, ?_⟩
    simp only [detachAllLoop, hcirc, htell, Option.bind_some, hfree, not_true, if_false, hrest]
    rw [hd]
    simp [hdet]

theorem countOf_nil (k : Key) : countOf [] k = 0 := rfl

/-- **The step lemma** for `circuitmux_detach_all_circuits`. -/
theorem Inv.detachAllCircuits (h : Inv chan m history) {circuitOf : Key → Option Circuit}
    (hpre : Pre chan m (.detachAllCircuits circuitOf)) :
    ∃ m', exec m (.detachAllCircuits circuitOf) = some m' ∧ Inv chan m' (observe m m' history) := by
  obtain ⟨hsome, howns⟩ := hpre
  cases hpol : m.policy with
  | none =>
    have hnil : m.map = [] := by
      by_contra hne
      exact hsome hne hpol
    refine ⟨{ m with nCircuits := 0, nActiveCircuits := 0, nCells := 0 }, ?_, ?_⟩
    · simp [exec, circuitmuxDetachAllCircuits, hnil, detachAllLoop]
    · have hobs : observe m { m with nCircuits := 0, nActiveCircuits := 0, nCells := 0 } history =
          history := by
        funext p k
        have hsame : m.isActive p k =
          Circuitmux.isActive { m with nCircuits := 0, nActiveCircuits := 0, nCells := 0 } p k := rfl
        simp [observe, hsame]
      rw [hobs]
      exact ⟨h.tableOk, h.policyOk, h.policyData_ok, by simp [hnil], by simp [hnil, cellSum, total],
        by simp [hnil, activeCount, total], h.noUnderflow, h.noDestroy, h.told_eq, h.last_eq⟩
  | some pol =>
    obtain ⟨detached, hloop⟩ := detachAllLoop_eq m.map m rfl h.tableOk hpol howns
    have hexec : exec m (.detachAllCircuits circuitOf) =
        some { m with
          nCircuits := 0
          nActiveCircuits := 0
          nCells := 0
          map := []
          calls := m.calls ++ m.map.flatMap (fun e => transitionCalls pol e.key e.cellCount 0) } := by
      simp only [exec, circuitmuxDetachAllCircuits, hloop, Option.map_some]
    refine ⟨_, hexec, ?_⟩
    refine ⟨⟨by simp [Keyed], by simp, by simp⟩, h.policyOk, h.policyData_ok, rfl, rfl, rfl,
      h.noUnderflow, h.noDestroy, ?_, last_observe h.last_eq⟩
    intro p k
    have hother : ∀ e : Entry, e.key ≠ k →
        told (transitionCalls pol e.key e.cellCount 0) p k = [] := by
      intro e hne
      rw [told_transitionCalls, if_neg (fun hand => hne hand.2.1.symm), List.filter_nil]
    simp only [told_append, told_flatMap h.tableOk.keyed _ p k hother, h.told_eq, observe,
      Circuitmux.isActive_eq, countOf_nil, List.filter_append]
    congr 1
    cases hlook : lookup Entry.key k m.map with
    | none => simp [countOf, hlook]
    | some e =>
      have hkey := key_of_lookup hlook
      simp only [Option.map_some, Option.getD_some, told_transitionCalls, countOf_of_lookup hlook, hkey,
        hpol]
      by_cases hp : p = pol
      · subst hp
        by_cases hpos : 0 < e.cellCount
        · simp [hpos]
        · simp [hpos]
      · simp [hp, Ne.symm hp]

/-- The loop of `circuitmux_set_policy`: every circuit gets the new policy's data, and both policies are
told of the circuits that have cells. -/
theorem setPolicyLoop_eq {circuitOf : Key → Option Circuit} {oldPol newPol : Option Policy}
    (entries : List Entry) (hfound : ∀ e ∈ entries, circuitOf e.key ≠ none)
    (hfree : ∀ e ∈ entries, canFree oldPol e = true)
    (hnew : newPol.any (fun pol => pol.allocCircData && !pol.freeCircData) = false) :
    setPolicyLoop circuitOf oldPol newPol entries =
      some (entries.map (fun e => { e with policyData := newPol.any Policy.allocCircData }),
        entries.flatMap fun e =>
          if e.cellCount > 0 then
            (oldPol.toList.filter (fun pol => pol.notifyCircInactive)).map (.circInactive · e.key) ++
              (newPol.toList.filter (fun pol => pol.notifyCircActive)).map (.circActive · e.key)
          else []) := by
  induction entries with
  | nil => rfl
  | cons e entries ih =>
    have hrest := ih (fun x hx => hfound x (List.mem_cons_of_mem e hx))
      (fun x hx => hfree x (List.mem_cons_of_mem e hx))
    obtain ⟨circ, hcirc⟩ := Option.ne_none_iff_exists'.mp (hfound e List.mem_cons_self)
    have hfirst := hfree e List.mem_cons_self
    simp only [setPolicyLoop, hcirc, hfirst, hnew, hrest, not_true, if_false, Bool.false_eq_true,
      Option.map_some, List.map_cons, List.flatMap_cons]

theorem countOf_map_policyData (map : List Entry) (b : Bool) (k : Key) :
    countOf (map.map (fun e => { e with policyData := b })) k = countOf map k := by
  induction map with
  | nil => rfl
  | cons e map ih =>
    have hcons : ∀ (x : Entry) (l : List Entry), countOf (x :: l) k =
        if x.key = k then x.cellCount else countOf l k := by
      intro x l
      unfold countOf
      rw [lookup_cons]
      split <;> simp
    rw [List.map_cons, hcons, hcons, ih]

theorem told_policyCalls (oldPol newPol : Option Policy) (key k : Key) (p : Policy) :
    told ((oldPol.toList.filter (fun pol => pol.notifyCircInactive)).map (.circInactive · key) ++
        (newPol.toList.filter (fun pol => pol.notifyCircActive)).map (.circActive · key)) p k =
      (if key = k then
        (if oldPol = some p then [false] else []) ++ (if newPol = some p then [true] else [])
      else []).filter p.wants := by
  have hold : told ((oldPol.toList.filter (fun pol => pol.notifyCircInactive)).map
      (.circInactive · key)) p k =
        (if key = k then (if oldPol = some p then [false] else []) else []).filter p.wants := by
    cases oldPol with
    | none => simp [told]
    | some q =>
      by_cases hq : q = p
      · subst hq
        cases hcb : q.notifyCircInactive <;> by_cases hk : key = k <;>
          simp [told, hcb, hk, Policy.wants]
      · cases hcb : q.notifyCircInactive <;> simp [told, hcb, hq]
  have hnew : told ((newPol.toList.filter (fun pol => pol.notifyCircActive)).map
      (.circActive · key)) p k =
        (if key = k then (if newPol = some p then [true] else []) else []).filter p.wants := by
    cases newPol with
    | none => simp [told]
    | some q =>
      by_cases hq : q = p
      · subst hq
        cases hcb : q.notifyCircActive <;> by_cases hk : key = k <;>
          simp [told, hcb, hk, Policy.wants]
      · cases hcb : q.notifyCircActive <;> simp [told, hcb, hq]
  rw [told_append, hold, hnew, ← List.filter_append]
  split <;> simp

/-- **The step lemma** for `circuitmux_set_policy`. -/
theorem Inv.setPolicy (h : Inv chan m history) {circuitOf : Key → Option Circuit} {pol : Option Policy}
    (hpre : Pre chan m (.setPolicy circuitOf pol)) :
    ∃ m', exec m (.setPolicy circuitOf pol) = some m' ∧ Inv chan m' (observe m m' history) := by
  obtain ⟨hfound, hwf⟩ := hpre
  by_cases hsame : m.policy = pol
  · refine ⟨m, by simp [exec, circuitmuxSetPolicy, hsame], ?_⟩
    have hobs : observe m m history = history := by
      funext p k
      simp [observe]
    rw [hobs]
    exact h
  · have hwf' : ∀ p, pol = some p → (p.allocCmuxData = true → p.freeCmuxData = true) ∧
        (p.allocCircData = true → p.freeCircData = true) := by
      intro p hp
      have hp' := hwf p hp
      simp only [Policy.wellFormed, Bool.and_eq_true, Bool.or_eq_true, Bool.not_eq_true'] at hp'
      exact ⟨fun ha => hp'.1.resolve_left (by simp [ha]), fun ha => hp'.2.resolve_left (by simp [ha])⟩
    have hcmux : pol.any (fun pol => pol.allocCmuxData && !pol.freeCmuxData) = false := by
      cases pol with
      | none => rfl
      | some p => simpa using (hwf' p rfl).1
    have hcirc : pol.any (fun pol => pol.allocCircData && !pol.freeCircData) = false := by
      cases pol with
      | none => rfl
      | some p => simpa using (hwf' p rfl).2
    have hloop := setPolicyLoop_eq m.map hfound h.tableOk.canFree hcirc
    have hdata : ¬ (m.policyData = true ∧ ¬ m.policy.any Policy.freeCmuxData = true) :=
      fun hand => hand.2 (h.policyData_ok hand.1)
    set g : Entry → List Call := fun e =>
      if e.cellCount > 0 then
        (m.policy.toList.filter (fun pol => pol.notifyCircInactive)).map (.circInactive · e.key) ++
          (pol.toList.filter (fun pol => pol.notifyCircActive)).map (.circActive · e.key)
      else [] with hgdef
    have hexec : exec m (.setPolicy circuitOf pol) =
        some { m with
          policy := pol
          policyData := pol.any Policy.allocCmuxData
          map := m.map.map (fun e => { e with policyData := pol.any Policy.allocCircData })
          calls := m.calls ++ m.map.flatMap g } := by
      simp only [exec, circuitmuxSetPolicy, if_neg hsame, hcmux, Bool.false_eq_true, if_false, hloop,
        Option.bind_some, if_neg hdata]
    have htold : ∀ (e : Entry) (p : Policy) (k : Key), told (g e) p k =
        (if e.key = k ∧ 0 < e.cellCount then
          (if m.policy = some p then [false] else []) ++ (if pol = some p then [true] else [])
        else []).filter p.wants := by
      intro e p k
      by_cases hpos : 0 < e.cellCount
      · simp only [hgdef, gt_iff_lt, if_pos hpos, told_policyCalls, hpos, and_true]
      · simp only [hgdef, gt_iff_lt, if_neg hpos, hpos, and_false, if_false, List.filter_nil]
        rfl
    refine ⟨_, hexec, ?_⟩
    refine ⟨⟨?_, ?_, ?_⟩, hwf, ?_, ?_, ?_, ?_, h.noUnderflow, h.noDestroy, ?_, last_observe h.last_eq⟩
    · have hkeys : (m.map.map (fun e => { e with policyData := pol.any Policy.allocCircData })).map
          Entry.key = m.map.map Entry.key := by simp [Function.comp_def]
      rw [Keyed, hkeys]
      exact h.tableOk.keyed
    · intro e he
      obtain ⟨x, hx, rfl⟩ := List.mem_map.mp he
      exact h.tableOk.key_ok x hx
    · intro e he
      obtain ⟨x, hx, rfl⟩ := List.mem_map.mp he
      cases pol with
      | none => rfl
      | some p =>
        have hfree := (hwf' p rfl).2
        cases ha : p.allocCircData with
        | false => simp [canFree, ha]
        | true => simp [canFree, hfree ha]
    · intro hany
      cases pol with
      | none => cases hany
      | some p => exact (hwf' p rfl).1 hany
    · simpa using h.nCircuits_eq
    · simpa [cellSum, total, Function.comp_def] using h.nCells_eq
    · simpa [activeCount, total, Function.comp_def] using h.nActiveCircuits_eq
    · intro p k
      have hother : ∀ e : Entry, e.key ≠ k → told (g e) p k = [] := by
        intro e hne
        rw [htold, if_neg (fun hand => hne hand.1), List.filter_nil]
      simp only [told_append, told_flatMap h.tableOk.keyed g p k hother, h.told_eq, observe,
        Circuitmux.isActive_eq, countOf_map_policyData, List.filter_append]
      congr 1
      cases hlook : lookup Entry.key k m.map with
      | none => simp [countOf, hlook]
      | some e =>
        have hkey := key_of_lookup hlook
        simp only [Option.map_some, Option.getD_some, htold, countOf_of_lookup hlook, hkey, true_and]
        by_cases hpos : 0 < e.cellCount
        · by_cases hold : m.policy = some p
          · have hnew : pol ≠ some p := fun hp => hsame (hold.trans hp.symm)
            simp [hpos, hold, hnew]
          · by_cases hnew : pol = some p
            · simp [hpos, hold, hnew]
            · simp [hpos, hold, hnew]
        · simp [hpos]

/-! ### The remaining calls -/

theorem Inv.cellSum_lt (h : Inv chan m history) : cellSum m.map < 2 ^ 32 := by
  rw [← h.nCells_eq]
  exact m.nCells.toNat_lt

/-- **The step lemma** for `circuitmux_attach_circuit`. -/
theorem Inv.attachCircuit (h : Inv chan m history) {direction : CellDirection}
    (hpre : Pre chan m (.attachCircuit circ direction))
    (hfits : Fits chan m (.attachCircuit circ direction)) :
    ∃ m', exec m (.attachCircuit circ direction) = some m' ∧ Inv chan m' (observe m m' history) := by
  obtain ⟨hpolicy, hid, howns, hdir⟩ := hpre
  obtain ⟨pol, hpol⟩ := Option.ne_none_iff_exists'.mp hpolicy
  set id := (circ.side direction).2.1 with hiddef
  set cellCount := (circ.side direction).2.2 with hcountdef
  have hside : circ.side direction = (some chan, id, cellCount) := by
    have hown := howns 0 false
    cases direction with
    | dirOut => exact Prod.ext hown.1 rfl
    | dirIn => exact Prod.ext hown.2.1 rfl
  have hor : direction = .dirIn → circ.isOrCircuit = true := by
    rintro rfl
    exact (howns 0 false).1
  have hfits' : cellSum (remove Entry.key ⟨chan, id⟩ m.map) + cellCount.toNat < 2 ^ 32 := hfits
  cases hlook : lookup Entry.key ⟨chan, id⟩ m.map with
  | some e =>
    have hed : e.direction = direction := hdir e hlook
    have hkey := key_of_lookup hlook
    have hown : Owns e circ := by
      have := howns e.cellCount e.policyData
      rw [← hkey, ← hed] at this
      exact this
    have hexec := attachCircuit_attached h hpol hor hside hid hlook hed hown
    have hchange := h.tableOk.change_modify hlook cellCount
    refine ⟨_, hexec, h.changed hpol hchange ?_ ?_ (fun _ _ => rfl)⟩
    · rw [h.nCircuits_eq, length_modify]
    · have hsum := hchange.cellSum_eq
      have hrem : cellSum (remove Entry.key ⟨chan, id⟩ m.map) + e.cellCount.toNat = cellSum m.map :=
        total_remove h.tableOk.keyed hlook
      omega
  | none =>
    have hwf := h.policyOk pol hpol
    have hfree : canFree m.policy ⟨⟨chan, id⟩, cellCount, direction, pol.allocCircData⟩ = true := by
      simp only [Policy.wellFormed, Bool.and_eq_true] at hwf
      simpa [canFree, hpol] using hwf.2
    have hchange := h.tableOk.change_cons
      (e := ⟨⟨chan, id⟩, cellCount, direction, pol.allocCircData⟩) hlook ⟨rfl, hid⟩ hfree
    have hexec := attachCircuit_new h hpol hor hside hid hlook hchange.tableOk
      (howns cellCount pol.allocCircData)
    refine ⟨_, hexec, h.changed hpol hchange ?_ ?_ (fun _ _ => rfl)⟩
    · have hone : (1 : UInt32).toNat = 1 := rfl
      have hlt := hchange.tableOk.length_lt
      rw [List.length_cons] at hlt ⊢
      rw [UInt32.toNat_add, h.nCircuits_eq, hone, Nat.mod_eq_of_lt hlt]
    · have hsum : cellSum (⟨⟨chan, id⟩, cellCount, direction, pol.allocCircData⟩ :: m.map) +
          (0 : UInt32).toNat = cellSum m.map + cellCount.toNat := hchange.cellSum_eq
      have hrem : remove Entry.key ⟨chan, id⟩ m.map = m.map := by
        rw [remove, List.filter_eq_self]
        intro x hx
        have hne : x.key ≠ ⟨chan, id⟩ := by
          intro heq
          exact lookup_eq_none_iff.mp hlook (heq ▸ List.mem_map_of_mem hx)
        simpa using hne
      rw [hrem] at hfits'
      have hzero : (0 : UInt32).toNat = 0 := rfl
      omega

theorem observe_self (m : Circuitmux) (history : History) : observe m m history = history := by
  funext p k
  simp [observe]

/-- **The step lemma** for `circuitmux_detach_circuit`. -/
theorem Inv.detachCircuit (h : Inv chan m history) (hpre : Pre chan m (.detachCircuit circ)) :
    ∃ m', exec m (.detachCircuit circ) = some m' ∧ Inv chan m' (observe m m' history) := by
  obtain ⟨hpolicy, hsearch, hfind⟩ := hpre
  obtain ⟨pol, hpol⟩ := Option.ne_none_iff_exists'.mp hpolicy
  obtain ⟨found, hfound⟩ := Option.ne_none_iff_exists'.mp hfind
  cases found with
  | none =>
    obtain ⟨direction, hd⟩ := detachSearch_none hfound hsearch
    refine ⟨m, by simp [exec, circuitmuxDetachCircuit, hd], ?_⟩
    rw [observe_self]
    exact h
  | some e =>
    have he := lookup_of_findMapEntry hfound
    have hchange := h.tableOk.change_remove he
    refine ⟨_, detachCircuit_attached h hpol hfound, h.changed hpol hchange ?_ ?_ (fun _ _ => rfl)⟩
    · have hone : (1 : UInt32).toNat = 1 := rfl
      have hlen : total (fun _ => 1) (remove Entry.key e.key m.map) + 1 = total (fun _ => 1) m.map :=
        total_remove h.tableOk.keyed he
      have hge := h.nCircuits_ge he
      rw [decide_eq_false_iff_not, UInt32.not_lt] at hge
      rw [total_one, total_one] at hlen
      rw [UInt32.toNat_sub_of_le _ _ hge, h.nCircuits_eq, hone]
      omega
    · have hsum := hchange.cellSum_eq
      have hlt := h.cellSum_lt
      have hzero : (0 : UInt32).toNat = 0 := rfl
      omega

/-- **The step lemma** for `circuitmux_set_num_cells`. -/
theorem Inv.setNumCells (h : Inv chan m history) {nCells : UInt32}
    (hpre : Pre chan m (.setNumCells circ nCells)) (hfits : Fits chan m (.setNumCells circ nCells)) :
    ∃ m', exec m (.setNumCells circ nCells) = some m' ∧ Inv chan m' (observe m m' history) := by
  obtain ⟨hpolicy, e, hfind⟩ := hpre
  obtain ⟨pol, hpol⟩ := Option.ne_none_iff_exists'.mp hpolicy
  have he := lookup_of_findMapEntry hfind
  have hchange := h.tableOk.change_modify he nCells
  refine ⟨_, setNumCells_eq h hpol hfind nCells, h.changed hpol hchange ?_ ?_ ?_⟩
  · rw [h.nCircuits_eq, length_modify]
  · have hsum := hchange.cellSum_eq
    have hrem : cellSum (remove Entry.key e.key m.map) + e.cellCount.toNat = cellSum m.map :=
      total_remove h.tableOk.keyed he
    have hfits' := hfits e hfind
    omega
  · intro p k
    split <;> rfl

/-- **The step lemma** for `circuitmux_notify_xmit_cells`. -/
theorem Inv.notifyXmitCells (h : Inv chan m history) {nCells : UInt32}
    (hpre : Pre chan m (.notifyXmitCells circ nCells)) :
    ∃ m', exec m (.notifyXmitCells circ nCells) = some m' ∧ Inv chan m' (observe m m' history) := by
  obtain ⟨hpolicy, e, hfind, hle⟩ := hpre
  obtain ⟨pol, hpol⟩ := Option.ne_none_iff_exists'.mp hpolicy
  by_cases hne : nCells = 0
  · refine ⟨m, by simp [exec, circuitmuxNotifyXmitCells, hne], ?_⟩
    rw [observe_self]
    exact h
  · have he := lookup_of_findMapEntry hfind
    have hchange := h.tableOk.change_modify he (e.cellCount - nCells)
    refine ⟨_, notifyXmitCells_eq h hpol hfind hne hle, h.changed hpol hchange ?_ ?_ ?_⟩
    · rw [h.nCircuits_eq, length_modify]
    · have hsum := hchange.cellSum_eq
      have hlt := h.cellSum_lt
      rw [UInt32.toNat_sub_of_le _ _ hle] at hsum
      omega
    · intro p k
      split <;> rfl

/-- **Every call keeps the invariant**, and none of its assertions fails. -/
theorem Inv.exec (h : Inv chan m history) {ev : Event} (hpre : Pre chan m ev)
    (hfits : Fits chan m ev) :
    ∃ m', Cmux.exec m ev = some m' ∧ Inv chan m' (observe m m' history) := by
  cases ev with
  | attachCircuit circ direction => exact h.attachCircuit hpre hfits
  | detachCircuit circ => exact h.detachCircuit hpre
  | detachAllCircuits circuitOf => exact h.detachAllCircuits hpre
  | setNumCells circ nCells => exact h.setNumCells hpre hfits
  | notifyXmitCells circ nCells => exact h.notifyXmitCells hpre
  | setPolicy circuitOf pol => exact h.setPolicy hpre

theorem Inv.perm (h : Inv chan m history) {map' : List Entry} (hp : m.map.Perm map') :
    Inv chan { m with map := map' } history where
  tableOk := h.tableOk.perm hp
  policyOk := h.policyOk
  policyData_ok := h.policyData_ok
  nCircuits_eq := h.nCircuits_eq.trans hp.length_eq
  nCells_eq := h.nCells_eq.trans (total_perm hp).symm
  nActiveCircuits_eq := h.nActiveCircuits_eq.trans (total_perm hp).symm
  noUnderflow := h.noUnderflow
  noDestroy := h.noDestroy
  told_eq := h.told_eq
  last_eq := by
    intro pol key
    have hlook := lookup_perm (k := key) h.tableOk.keyed hp
    rw [h.last_eq, Circuitmux.isActive_eq, Circuitmux.isActive_eq]
    unfold countOf
    rw [hlook]

def FittingStep (chan : UInt64) (s : Circuitmux × History) (ev : Event) (s' : Circuitmux × History) :
    Prop :=
  Fits chan s.1 ev ∧ Step chan s ev s'

theorem Inv.step {s s' : Circuitmux × History} {ev : Event} (h : Inv chan s.1 s.2)
    (hstep : FittingStep chan s ev s') : Inv chan s'.1 s'.2 := by
  obtain ⟨hfits, hcall⟩ := hstep
  cases hcall with
  | call hpre hexec hperm =>
    obtain ⟨m', hexec', hinv⟩ := h.exec hpre hfits
    rw [hexec] at hexec'
    cases hexec'
    exact hinv.perm hperm

theorem inv_alloc (chan : UInt64) : Inv chan circuitmuxAlloc (fun _ _ => []) where
  tableOk := ⟨by simp [circuitmuxAlloc, Keyed], by simp [circuitmuxAlloc], by simp [circuitmuxAlloc]⟩
  policyOk := by simp [circuitmuxAlloc]
  policyData_ok := by simp [circuitmuxAlloc]
  nCircuits_eq := rfl
  nCells_eq := rfl
  nActiveCircuits_eq := rfl
  noUnderflow := rfl
  noDestroy := rfl
  told_eq := fun _ _ => rfl
  last_eq := fun _ _ => rfl

/-- What a policy with both callbacks was told last is what is. -/
theorem Inv.told_last (h : Inv chan m history) (hon : pol.notifyCircActive = true)
    (hoff : pol.notifyCircInactive = true) (key : Key) :
    (told m.calls pol key).getLast? = some true ↔ m.isActive pol key = true := by
  have hwants : (history pol key).filter pol.wants = history pol key := by
    rw [List.filter_eq_self]
    intro b _
    cases b with
    | true => exact hon
    | false => exact hoff
  have hlast := h.last_eq pol key
  rw [h.told_eq, hwants, ← hlast]
  cases (history pol key).getLast? with
  | none => simp
  | some b => simp

theorem Inv.accounting (h : Inv chan m history) : Accounting m history where
  nCircuits_eq := h.nCircuits_eq
  nCells_eq := h.nCells_eq
  nActiveCircuits_eq := h.nActiveCircuits_eq
  told_eq := h.told_eq
  noUnderflow := h.noUnderflow
  getFirst := by
    intro pol hpol hon hoff hactive pick hpick
    have hcount : 0 < activeCount m.map := by
      rw [← h.nActiveCircuits_eq]
      exact UInt32.lt_iff_toNat_lt.mp hactive
    obtain ⟨e, he, hpos⟩ := (activeCount_pos_iff m.map).mp hcount
    have hlook := lookup_of_mem h.tableOk.keyed he
    have hecount := countOf_of_lookup hlook
    have hisactive : m.isActive pol e.key = true := by
      rw [Circuitmux.isActive_eq, hpol, hecount]
      simp [hpos]
    obtain ⟨key, hkey, htold⟩ := hpick ⟨e.key, (h.told_last hon hoff e.key).mpr hisactive⟩
    have hkeyactive := (h.told_last hon hoff key).mp htold
    have hcells : 0 < m.nCells := by
      have hle := countOf_le_cellSum m.map e.key
      rw [hecount, ← h.nCells_eq] at hle
      exact UInt32.lt_of_lt_of_le hpos (UInt32.le_iff_toNat_le.mpr hle)
    refine ⟨{ m with lastCellWasDestroy := false }, key, ?_, ?_⟩
    · simp [circuitmuxGetFirstActiveCircuit, hpol, h.noDestroy, hactive, hcells, hkey]
    · rw [Circuitmux.isActive_eq] at hkeyactive
      simp only [Bool.and_eq_true, decide_eq_true_eq] at hkeyactive
      exact hkeyactive.2

/-- **The accounting holds in every run whose calls fit**, and none of its calls fails an assertion. -/
theorem accounting_of_run (chan : UInt64) (events : List Event) (m : Circuitmux) (history : History)
    (hrun : Run (FittingStep chan) (circuitmuxAlloc, fun _ _ => []) events (m, history)) :
    Accounting m history ∧ ∀ ev, Pre chan m ev → Fits chan m ev → exec m ev ≠ none := by
  have hinv : Inv chan m history :=
    hrun.invariant (I := fun s => Inv chan s.1 s.2) (fun _ _ _ h hstep => Inv.step h hstep)
      (inv_alloc chan)
  refine ⟨hinv.accounting, ?_⟩
  intro ev hpre hfits
  obtain ⟨m', hexec, -⟩ := hinv.exec hpre hfits
  rw [hexec]
  simp

/-- The callbacks of `ewma_policy`. -/
def ewmaPolicy : Policy := ⟨0, true, true, true, true, true, true, false, true⟩

/-- A circuit that goes out to the channel 7, with some cells queued. -/
def circuitOut (id n : UInt32) : Circuit := ⟨some 7, id, n, false, none, 0, 0⟩

theorem pre_circuitOut {id n : UInt32} (hpol : m.policy ≠ none) (hid : id ≠ 0)
    (hdir : ∀ e ∈ m.map, e.direction = .dirOut) :
    Pre 7 m (.attachCircuit (circuitOut id n) .dirOut) :=
  ⟨hpol, hid, fun _ _ => ⟨rfl, rfl⟩, fun e he => hdir e (mem_of_lookup he)⟩

/-- A circuit is attached with two cells, and one is sent. -/
theorem accounting_of_run_oneCircuit :
    ∃ m history, Run (FittingStep 7) (circuitmuxAlloc, fun _ _ => [])
      [.setPolicy (fun _ => none) (some ewmaPolicy), .attachCircuit (circuitOut 1 2) .dirOut,
        .notifyXmitCells (circuitOut 1 2) 1] (m, history) ∧
      m.nCells = 1 ∧ Accounting m history := by
  have hrun : ∃ m history, Run (FittingStep 7) (circuitmuxAlloc, fun _ _ => [])
      [.setPolicy (fun _ => none) (some ewmaPolicy), .attachCircuit (circuitOut 1 2) .dirOut,
        .notifyXmitCells (circuitOut 1 2) 1] (m, history) ∧ m.nCells = 1 := by
    refine ⟨_, _, .cons ⟨trivial, .call ?_ rfl (List.Perm.refl _)⟩
      (.cons ⟨?_, .call ?_ rfl (List.Perm.refl _)⟩
        (.cons ⟨trivial, .call ?_ rfl (List.Perm.refl _)⟩ (.nil _))), rfl⟩
    · exact ⟨by decide, fun p hp => by cases hp; rfl⟩
    · show (_ : ℕ) < _
      decide
    · exact pre_circuitOut (by decide) (by decide) (by decide)
    · exact ⟨by decide, _, rfl, by decide⟩
  obtain ⟨m, history, hrun, hcells⟩ := hrun
  exact ⟨m, history, hrun, hcells, (accounting_of_run 7 _ m history hrun).1⟩

/-- Three circuits with `2 ^ 31 - 1`, `2 ^ 31 - 1` and 2 cells: the sum is `2 ^ 32`, so that `n_cells` is
zero while three circuits are active, and `circuitmux_get_first_active_circuit` fails its assertion. -/
theorem not_accounting_threeCircuits :
    ∃ m history, Run (Step 7) (circuitmuxAlloc, fun _ _ => [])
      [.setPolicy (fun _ => none) (some ewmaPolicy),
        .attachCircuit (circuitOut 1 (2 ^ 31 - 1)) .dirOut,
        .attachCircuit (circuitOut 2 (2 ^ 31 - 1)) .dirOut,
        .attachCircuit (circuitOut 3 2) .dirOut] (m, history) ∧
      m.nActiveCircuits = 3 ∧ m.nCells = 0 ∧ cellSum m.map = 2 ^ 32 ∧
      (∀ pick, circuitmuxGetFirstActiveCircuit m pick = none) ∧ ¬ Accounting m history := by
  refine ⟨_, _, .cons (.call ?_ rfl (List.Perm.refl _)) (.cons (.call ?_ rfl (List.Perm.refl _))
    (.cons (.call ?_ rfl (List.Perm.refl _)) (.cons (.call ?_ rfl (List.Perm.refl _)) (.nil _)))),
    rfl, rfl, rfl, fun _ => rfl, ?_⟩
  · exact ⟨by decide, fun p hp => by cases hp; rfl⟩
  · exact pre_circuitOut (by decide) (by decide) (by decide)
  · exact pre_circuitOut (by decide) (by decide) (by decide)
  · exact pre_circuitOut (by decide) (by decide) (by decide)
  · intro h
    exact absurd h.nCells_eq (by decide)

end TorEbpf.Or.Cmux
