import Mathlib
import TorEbpf.Lib.Decimal
import TorEbpf.Lib.Disk
import TorEbpf.Lib.Events
import TorEbpf.Or.PluginOffer
import TorEbpf.Strings.ParseInt

/-!
# Transferring plugins

A plugin that a relay has requested, or that is pushed back to it, arrives in cells: each carries a piece
of a file, and a last one says that the plugin is complete.  Until then its files are in the hidden
directory `.name`, and the file `.circ_id` there holds the number of the circuit that the directory was
made for.  `handle_plugin_transfer_cell`, `handle_plugin_transferred_cell`,
`handle_plugin_transferred_back_cell` and `handle_plugin_offer_in_create_cell` of `plugin_exchange.c` are
modelled on a directory tree.  `owner` is not in the source: it remembers the channel and the circuit for
which a hidden directory was made.

* `recorded_of_step` — what is in `.circ_id` stays the number of the owner;
* `bound_of_run` — so a cell changes a hidden directory only if it came on the owner's channel and
  circuit, as long as equal numbers are of one channel and names do not lead out of their directory.
-/

namespace TorEbpf.Or

open TorEbpf.Lib TorEbpf.Strings

/-! ### Cells and circuits -/

def cellPluginTransfer : UInt8 := 15

def cellPluginTransferBack : UInt8 := 16

def cellPluginTransferred : UInt8 := 17

def cellPluginTransferredBack : UInt8 := 18

/-- A channel, by its `global_identifier`, and a circuit id on it. -/
abbrev Owner := ℕ × UInt32

/-- `cell_t` with the circuit it is on. -/
structure CircCell extends Cell where
  circId : UInt32
  deriving DecidableEq

/-- `circuit_t`: where its cells come from and go to, and what it waits for. -/
structure RelayCircuit where
  isOrigin : Bool
  nSide : Option Owner
  pSide : Option Owner
  mandatoryPlugins : List Name
  waiting : Circuit
  deriving DecidableEq

/-- The relay: its disk, its circuits, the cells and the requests it has sent, and for whom each hidden
directory was made. -/
structure Exchange where
  disk : Disk
  circuits : List RelayCircuit
  sent : List (ℕ × CircCell)
  requests : List (Owner × List Name)
  owner : Name → Option Owner

/-- The host: the path of `PluginsDirectory` and the byte order. -/
structure Host where
  pluginsDirectory : Path
  order : ByteOrder

/-- What the code does not control: paths for which a system call is refused, what an array holds that was
not set, and whether `fopen` hands out the stream that was closed last. -/
structure Env where
  refuses : Path → Bool
  stack : List UInt8
  reuses : Bool

/-- `circuit_get_by_circid_channel`, as an index. -/
def circuitGetByCircidChannel (s : Exchange) (circId : UInt32) (chan : ℕ) : Option ℕ :=
  s.circuits.findIdx? fun c => c.nSide = some (chan, circId) ∨ c.pSide = some (chan, circId)

/-! ### Hidden directories -/

/-- `PluginsDirectory/.name`. -/
def Host.pending (h : Host) (name : Name) : Path := h.pluginsDirectory ++ [hidden name]

/-- The file name `.circ_id`. -/
def circIdFile : Component := [0x2e, 0x63, 0x69, 0x72, 0x63, 0x5f, 0x69, 0x64]

/-- `snprintf` of a circuit id into `circ_id_str`: eleven bytes, of which those behind the `NUL` are
never looked at. -/
def circIdStr (circId : UInt32) : List UInt8 :=
  (decimal circId.toNat ++ List.replicate 11 0).take 11

/-- `strtoul`, stored in 32 bits: `ULONG_MAX` if the number is too large, 0 if there is none. -/
def strtoul (l : List UInt8) : UInt32 :=
  match strtoNumber l with
  | some (negative, v, _) =>
      UInt32.ofNat (if 2 ^ 64 ≤ v then 2 ^ 64 - 1 else if negative then 2 ^ 64 - v else v)
  | none => 0

/-- The disk becomes `d`: a hidden directory that comes to be is `o`'s. -/
def Exchange.withDisk (h : Host) (o : Owner) (s : Exchange) (d : Disk) : Exchange :=
  { s with
    disk := d
    owner := fun p =>
      if node d (h.pending p) = some .dir then
        if node s.disk (h.pending p) = some .dir then s.owner p else some o
      else none }

/-- `mkdir` of a name in `PluginsDirectory`; what it returns is not looked at. -/
def mkdir (h : Host) (env : Env) (o : Owner) (s : Exchange) (name : List Component) : Exchange :=
  match walk s.disk h.pluginsDirectory name with
  | some q => if env.refuses q then s else s.withDisk h o (mkdirAt s.disk q)
  | none => s

/-- `fopen` of a name in `PluginsDirectory` to append, `fwrite` and `fclose`.  No file has a slash at the
end of its name. -/
def append (h : Host) (env : Env) (o : Owner) (s : Exchange) (name : List Component)
    (data : List UInt8) : Step Exchange :=
  match walk s.disk h.pluginsDirectory name with
  | some q =>
      if env.refuses q ∨ name.getLast? = some [] then fault .nullPointer
      else
        match appendAt s.disk q data with
        | some d => pure (s.withDisk h o d)
        | none => fault .nullPointer
  | none => fault .nullPointer

/-- `fopen` of a file to append, `fwrite` through a stream that is closed, and `fclose` of the one that was
opened: there is something to write to only if this is the closed one. -/
def appendByClosed (h : Host) (env : Env) (o : Owner) (s : Exchange) (name : List Component)
    (data : List UInt8) : Step Exchange :=
  match append h env o s name data with
  | .ok s' => if env.reuses then pure s' else fault .write
  | .error _ => fault .write

/-- `mkdir` of a directory, and the number of the circuit in its `.circ_id`. -/
def request (h : Host) (env : Env) (o : Owner) (s : Exchange) (name : List Component) :
    Step Exchange :=
  append h env o (mkdir h env o s name) (name ++ [circIdFile]) (circIdStr o.2)

def statFails (h : Host) (s : Exchange) (name : List Component) : Bool :=
  match walk s.disk h.pluginsDirectory name with
  | some q => node s.disk q = none
  | none => true

/-- `expected_circ_id`: what `.circ_id` of a directory holds. -/
def expectedCircId (h : Host) (env : Env) (s : Exchange) (name : List Component) : Step UInt32 :=
  match walk s.disk h.pluginsDirectory (name ++ [circIdFile]) with
  | some q =>
      if env.refuses q then fault .nullPointer
      else
        match readAt s.disk q with
        | some content => pure (strtoul (content.take 11 ++ env.stack))
        | none => fault .nullPointer
  | none => fault .nullPointer

/-- A name whose last component is `.` or `..` is not renamed, nor renamed to. -/
def named (name : List Component) : Bool :=
  match (name.filter (· ≠ [])).getLast? with
  | some c => c ≠ dot && c ≠ dotdot
  | none => false

/-- `rename` in `PluginsDirectory`; what it returns is not looked at. -/
def rename (h : Host) (env : Env) (o : Owner) (s : Exchange) (old new : List Component) : Exchange :=
  match walk s.disk h.pluginsDirectory old, walk s.disk h.pluginsDirectory new with
  | some src, some dst =>
      if env.refuses src ∨ env.refuses dst ∨ named old = false ∨ named new = false then s
      else s.withDisk h o (renameAt s.disk src dst)
  | _, _ => s

/-! ### Reading cells -/

/-- An `int` of the host; a negative one is a `size_t` beyond every array. -/
def getInt (o : ByteOrder) (l : List UInt8) : ℕ :=
  match o with
  | .little => leNat l
  | .big => beNat l

/-- `memcpy` of an `int` out of a payload. -/
def readInt (o : ByteOrder) (p : List UInt8) (off : ℕ) : Step ℕ :=
  if off + 4 ≤ p.length then pure (getInt o (slice p off 4)) else fault .read

/-- The bytes up to the `NUL`. -/
def cString (l : List UInt8) : List UInt8 := l.takeWhile (· ≠ 0)

/-- `file_name` and the position and length of the data of a transfer cell. -/
def transferPayload (o : ByteOrder) (p : List UInt8) : Step (Name × ℕ × ℕ) := do
  let lenName ← readInt o p 0
  let fileName ← memcpy p 4 lenName cellPayloadSize
  let lenData ← readInt o p (4 + lenName)
  return (cString fileName.val, 8 + lenName, lenData)

/-- `get_dir_name`: what is in front of the first slash. -/
def getDirName (path : Name) : Name := path.takeWhile (· ≠ 0x2f)

/-- The name in a payload, which has to end in it. -/
def payloadName (p : List UInt8) : Step Name :=
  if p.any (· = 0) then pure (cString p) else fault .read

/-! ### The handlers -/

/-- The circuit and its cell go on towards the client; yields the circuit that the cell is queued on. -/
def passOn (s : Exchange) (i : ℕ) (cell : CircCell) : Step (Exchange × ℕ) :=
  match s.circuits[i]? with
  | none => fault .nullPointer
  | some circ =>
      if circ.isOrigin then pure (s, i)
      else
        match circ.pSide with
        | none => fault .nullPointer
        | some (pChan, pCircId) =>
            match circuitGetByCircidChannel s pCircId pChan with
            | none => fault .nullPointer
            | some j =>
                pure ({ s with sent := s.sent ++ [(pChan, { cell with circId := pCircId })] }, j)

/-- A directory that is not there is made. -/
def requestIfMissing (h : Host) (env : Env) (o : Owner) (s : Exchange) (dir : List Component) :
    Step Exchange :=
  if statFails h s dir then request h env o s dir else pure s

/-- What `handle_plugin_transfer_cell` does for a `CELL_PLUGIN_TRANSFER_BACK` before it looks at
`.circ_id`. -/
def transferBack (h : Host) (env : Env) (s : Exchange) (chan : ℕ) (i : ℕ) (cell : CircCell)
    (dir : List Component) : Step Exchange :=
  if cell.command = cellPluginTransferBack then do
    let s ← requestIfMissing h env (chan, cell.circId) s dir
    let (s, _) ← passOn s i cell
    return s
  else pure s

/-- `handle_plugin_transfer_cell`.  The data is written through the stream of `.circ_id`, which has been
closed. -/
def handlePluginTransferCell (h : Host) (env : Env) (s : Exchange) (chan : ℕ) (cell : CircCell) :
    Step Exchange := do
  let (fileName, idx, lenData) ← transferPayload h.order cell.payload.val
  match circuitGetByCircidChannel s cell.circId chan with
  | none => pure s
  | some i =>
      let dir := [hidden (getDirName fileName)]
      let s ← transferBack h env s chan i cell dir
      let expected ← expectedCircId h env s dir
      if expected ≠ cell.circId then pure s
      else if idx + lenData ≤ cell.payload.val.length then
        appendByClosed h env (chan, cell.circId) s (components (hidden fileName))
          (slice cell.payload.val idx lenData)
      else fault .read

/-- `missing_plugins` of a circuit is made if it has none. -/
def withMissingPlugins (c : RelayCircuit) : RelayCircuit :=
  { c with waiting := { c.waiting with missingPlugins := some c.waiting.missing } }

/-- `mark_plugin_as_received`, for the circuits of the relay. -/
def markReceived (s : Exchange) (pluginName : Name) : Step Exchange := do
  let circuits ← s.circuits.mapM fun c => do
    let waiting ← markCircuit pluginName c.waiting
    return { c with waiting := waiting }
  return { s with circuits := circuits }

def handlePluginTransferredCell (h : Host) (env : Env) (s : Exchange) (chan : ℕ) (cell : CircCell) :
    Step Exchange :=
  match circuitGetByCircidChannel s cell.circId chan with
  | none => pure s
  | some i => do
      let s := { s with circuits := s.circuits.modify i withMissingPlugins }
      let name ← payloadName cell.payload.val
      let dir := components (hidden name)
      let s ← requestIfMissing h env (chan, cell.circId) s dir
      let expected ← expectedCircId h env s dir
      if expected ≠ cell.circId then pure s
      else markReceived (rename h env (chan, cell.circId) s dir (components name)) name

/-- A plugin the peer wants to be used. -/
def addMandatoryPlugin (name : Name) (c : RelayCircuit) : RelayCircuit :=
  if c.mandatoryPlugins.any (· = name) then c
  else { c with mandatoryPlugins := c.mandatoryPlugins ++ [name] }

def handlePluginTransferredBackCell (h : Host) (env : Env) (s : Exchange) (chan : ℕ)
    (cell : CircCell) : Step Exchange :=
  match circuitGetByCircidChannel s cell.circId chan with
  | none => pure s
  | some i => do
      let (s, j) ← passOn s i cell
      let name ← payloadName cell.payload.val
      let s := { s with circuits := s.circuits.modify j (addMandatoryPlugin name) }
      handlePluginTransferredCell h env s chan cell

/-- `command_process_plugin_cell`, without the requests that the relay answers. -/
def commandProcessPluginCell (h : Host) (env : Env) (s : Exchange) (chan : ℕ) (cell : CircCell) :
    Step Exchange :=
  if cell.command = cellPluginTransferBack ∨ cell.command = cellPluginTransfer then
    handlePluginTransferCell h env s chan cell
  else if cell.command = cellPluginTransferred then handlePluginTransferredCell h env s chan cell
  else if cell.command = cellPluginTransferredBack then
    handlePluginTransferredBackCell h env s chan cell
  else pure s

/-! ### Offers -/

/-- `readdir` of a directory. -/
def listing (d : Disk) (q : Path) : List Name :=
  [dot, dotdot] ++ (d.filterMap fun e =>
    if e.1.length = q.length + 1 ∧ q.isPrefixOf e.1 then e.1.getLast? else none).dedup

/-- One plugin of an offer: the missing plugins and those to request. -/
def offerOnDisk (h : Host) (env : Env) (o : Owner) (s : Exchange × List Name × List Name)
    (name : Name) : Step (Exchange × List Name × List Name) :=
  if node s.1.disk h.pluginsDirectory = some .dir then
    let (found, missingPlugins) :=
      (listing s.1.disk h.pluginsDirectory).foldl (readEntry name) (false, s.2.1)
    if found then pure (s.1, missingPlugins, s.2.2)
    else do
      let s' ← request h env o s.1 (components (hidden name))
      return (s', missingPlugins ++ [name], s.2.2 ++ [name])
  else fault .nullPointer

/-- `handle_plugin_offer_in_create_cell`, on the disk. -/
def offerInCreateCell (h : Host) (env : Env) (o : Owner) (s : Exchange)
    (requiredPlugins : List UInt8) : Step (Exchange × Option (List Name) × List Name) :=
  if requiredPlugins.head? = some 0 then pure (s, none, [])
  else do
    let inPayload ← smartListPluginsInPayload requiredPlugins
    let (s, missing, toRequest) ← inPayload.foldlM (offerOnDisk h env o) (s, [], [])
    return (s, some missing, toRequest)

/-- A create cell: the offer, and the new circuit. -/
def createCircuit (h : Host) (env : Env) (s : Exchange) (chan : ℕ) (circId : UInt32)
    (cell : CreateCell) : Step Exchange := do
  let (s, missingPlugins, toRequest) ← offerInCreateCell h env (chan, circId) s cell.plugins.val
  let waiting ← startCircuit missingPlugins cell
  return { s with
    circuits := s.circuits ++ [⟨false, none, some (chan, circId), [], waiting⟩]
    requests :=
      if toRequest = [] then s.requests else s.requests ++ [((chan, circId), toRequest)] }

/-! ### Runs -/

/-- What happens at a relay: a cell arrives on a channel, a circuit is made, or the circuits change. -/
inductive ExchangeEvent where
  | arrive (env : Env) (chan : ℕ) (cell : CircCell)
  | create (env : Env) (chan : ℕ) (circId : UInt32) (cell : CreateCell)
  | circuits (circuits : List RelayCircuit)

def Exchange.step (h : Host) (s : Exchange) : ExchangeEvent → Step Exchange
  | .arrive env chan cell => commandProcessPluginCell h env s chan cell
  | .create env chan circId cell => createCircuit h env s chan circId cell
  | .circuits circuits => pure { s with circuits := circuits }

/-! ### Owners -/

/-- The hidden directory of `p` is there and was made for `o`. -/
def Exchange.Owns (h : Host) (s : Exchange) (p : Name) (o : Owner) : Prop :=
  node s.disk (h.pending p) = some .dir ∧ s.owner p = some o

/-- **Bound to its owner**: a cell that changes something in a hidden directory came on the channel and
the circuit for which the directory was made. -/
def BoundToOwner (h : Host) (s : Exchange) (e : ExchangeEvent) (s' : Exchange) : Prop :=
  match e with
  | .arrive _ chan cell =>
      ∀ p o, s.Owns h p o →
        (∃ r, node s'.disk (h.pending p ++ r) ≠ node s.disk (h.pending p ++ r)) →
          o = (chan, cell.circId)
  | _ => True

def Below (q r : Path) : Prop := q <+: r ∧ r ≠ q

/-- A cell of `who` that names the directory `dir` and leads to paths with `touched`: it leads to no
hidden directory of others but `dir`, and `dir` was not made for the same number on another channel. -/
def Exchange.Separate (h : Host) (s : Exchange) (who : Owner) (dir : Path) (touched : Path → Prop) :
    Prop :=
  ∀ p o, s.Owns h p o →
    (touched (h.pending p) → h.pending p = dir ∨ o = who) ∧
      (h.pending p = dir → o.2 = who.2 → o.1 = who.1)

/-- The condition for a piece of a file. -/
def Exchange.TransferMeets (h : Host) (s : Exchange) (who : Owner) (fileName : Name) : Prop :=
  s.Separate h who (resolve h.pluginsDirectory [hidden (getDirName fileName)]) fun q =>
    Below q (resolve h.pluginsDirectory (components (hidden fileName)))

/-- The condition for a plugin that is complete.  A directory is not moved to where `PluginsDirectory`
is, and becomes a hidden one only if it was. -/
def Exchange.TransferredMeets (h : Host) (s : Exchange) (who : Owner) (name : Name) : Prop :=
  let src := resolve h.pluginsDirectory (components (hidden name))
  let dst := resolve h.pluginsDirectory (components name)
  (s.Separate h who src fun q => src <+: q ∨ q <+: src ∨ Below q dst) ∧
    ¬dst <+: h.pluginsDirectory ∧ ∀ q, dst = h.pending q → ∃ p, src = h.pending p

/-- **The condition**: a cell on a circuit that exists is separate from what it does not own. -/
def Exchange.Meets (h : Host) (s : Exchange) : ExchangeEvent → Prop
  | .arrive _ chan cell =>
      (circuitGetByCircidChannel s cell.circId chan).isSome = true →
        if cell.command = cellPluginTransferBack ∨ cell.command = cellPluginTransfer then
          ∀ fileName idx lenData, transferPayload h.order cell.payload.val =
            .ok (fileName, idx, lenData) → s.TransferMeets h (chan, cell.circId) fileName
        else if cell.command = cellPluginTransferred ∨ cell.command = cellPluginTransferredBack then
          s.TransferredMeets h (chan, cell.circId) (cString cell.payload.val)
        else True
  | _ => True

/-- `.circ_id` of every hidden directory holds the number of its owner. -/
def Exchange.Recorded (h : Host) (s : Exchange) : Prop :=
  ∀ p, node s.disk (h.pending p) = some .dir →
    ∃ o, s.owner p = some o ∧ ∃ content,
      node s.disk (h.pending p ++ [circIdFile]) = some (.file content) ∧ circIdStr o.2 <+: content

/-! ### The number in a directory -/

theorem circIdStr_eq (circId : UInt32) :
    ∃ n, 0 < n ∧ circIdStr circId = decimal circId.toNat ++ List.replicate n 0 ∧
      (circIdStr circId).length = 11 := by
  have hlen : (decimal circId.toNat).length ≤ 10 :=
    length_decimal_le (by omega) (lt_trans circId.toNat_lt (by norm_num))
  refine ⟨11 - (decimal circId.toNat).length, by omega, ?_, ?_⟩
  · rw [circIdStr, List.take_append, List.take_of_length_le (by omega), List.take_replicate,
      Nat.min_eq_left (by omega)]
  · rw [circIdStr, List.length_take, List.length_append, List.length_replicate]
    omega

theorem sign_of_isDigit {c : UInt8} {l : List UInt8} (h : isDigit c = true) :
    sign ((c :: l).dropWhile isSpace) = (false, c :: l) := by
  have hc : 48 ≤ c ∧ c ≤ 57 := by simpa [isDigit] using h
  have hspace : isSpace c = false := by
    simp only [isSpace, Bool.or_eq_false_iff, Bool.and_eq_false_iff, decide_eq_false_iff_not]
    constructor
    · rintro rfl
      exact absurd hc.1 (by decide)
    · right
      intro hle
      have h13 : (48 : UInt8) ≤ 13 := UInt8.le_trans hc.1 hle
      exact absurd h13 (by decide)
  rw [List.dropWhile_cons, hspace, if_neg Bool.false_ne_true]
  unfold sign
  split
  · next heq =>
    cases heq
    exact absurd hc.1 (by decide)
  · next heq =>
    cases heq
    exact absurd hc.1 (by decide)
  · rfl

/-- **What was written is read.** -/
theorem strtoul_of_prefix {circId : UInt32} {content : List UInt8} (h : circIdStr circId <+: content)
    (stack : List UInt8) : strtoul (content.take 11 ++ stack) = circId := by
  obtain ⟨n, hn, heq, hlen⟩ := circIdStr_eq circId
  obtain ⟨t, rfl⟩ := h
  have htake : (circIdStr circId ++ t).take 11 = circIdStr circId := by
    rw [← hlen, List.take_left]
  obtain ⟨c, ds, hcs⟩ := List.exists_cons_of_ne_nil (decimal_ne_nil circId.toNat)
  have hc : isDigit c = true := isDigit_of_mem_decimal (n := circId.toNat) (by simp [hcs])
  have hread : readDecimal (decimal circId.toNat ++ (List.replicate n 0 ++ stack)) =
      some (circId.toNat, List.replicate n 0 ++ stack) := by
    refine readDecimal_decimal _ ?_
    obtain ⟨k, rfl⟩ := Nat.exists_eq_succ_of_ne_zero (Nat.pos_iff_ne_zero.mp hn)
    intro b hb
    cases hb
    decide
  have hlt : ¬2 ^ 64 ≤ circId.toNat := by
    have := circId.toNat_lt
    omega
  rw [htake, heq, List.append_assoc, strtoul, strtoNumber, hcs, List.cons_append, sign_of_isDigit hc,
    ← List.cons_append, ← hcs]
  simp only [hread, Option.map_some, hlt, if_false, Bool.false_eq_true, UInt32.ofNat_toNat]

/-! ### What each call does -/

variable {h : Host} {env : Env} {o : Owner} {s s' : Exchange} {name : List Component}

theorem resolve_circIdFile (h : Host) (name : List Component) :
    resolve h.pluginsDirectory (name ++ [circIdFile]) =
      resolve h.pluginsDirectory name ++ [circIdFile] := by
  rw [resolve_append]
  rfl

theorem append_cases {data : List UInt8} (happ : append h env o s name data = .ok s') :
    ∃ d, appendAt s.disk (resolve h.pluginsDirectory name) data = some d ∧
      s' = s.withDisk h o d ∧ ∃ q, walk s.disk h.pluginsDirectory name = some q := by
  unfold append at happ
  split at happ
  · next q hq =>
    split_ifs at happ
    · cases happ
    split at happ
    · next d hd =>
      rw [walk_eq_resolve name hq] at hd
      exact ⟨d, hd, (Except.ok.inj happ).symm, q, hq⟩
    · cases happ
  · cases happ

theorem append_of_appendByClosed {data : List UInt8} (happ : appendByClosed h env o s name data = .ok s') :
    append h env o s name data = .ok s' := by
  unfold appendByClosed at happ
  split at happ
  · next t ht =>
    split_ifs at happ
    · rw [ht, ← Except.ok.inj happ]
    · cases happ
  · cases happ

theorem mkdir_cases (h : Host) (env : Env) (o : Owner) (s : Exchange) (name : List Component) :
    mkdir h env o s name = s ∨
      mkdir h env o s name = s.withDisk h o (mkdirAt s.disk (resolve h.pluginsDirectory name)) := by
  unfold mkdir
  split
  · next q hq =>
    rw [walk_eq_resolve name hq]
    split_ifs
    · exact .inl rfl
    · exact .inr rfl
  · exact .inl rfl

/-- A hidden directory made by the first of two calls for one circuit is made by both. -/
theorem withDisk_withDisk {m f : Path} {data : List UInt8} {d : Disk}
    (hd : appendAt (mkdirAt s.disk m) f data = some d) :
    (s.withDisk h o (mkdirAt s.disk m)).withDisk h o d = s.withDisk h o d := by
  simp only [Exchange.withDisk, Exchange.mk.injEq, true_and]
  funext p
  by_cases hp : node d (h.pending p) = some .dir
  · have hp₁ := (node_appendAt_eq_dir hd).mp hp
    simp only [hp, hp₁, if_true]
  · simp only [hp, if_false]

/-- Where a circuit's number is written, a directory was or is made. -/
theorem request_cases (hreq : request h env o s name = .ok s') :
    ∃ d₁ d, (d₁ = s.disk ∧ (∃ q, walk s.disk h.pluginsDirectory name = some q) ∨
        d₁ = mkdirAt s.disk (resolve h.pluginsDirectory name)) ∧
      appendAt d₁ (resolve h.pluginsDirectory name ++ [circIdFile]) (circIdStr o.2) = some d ∧
      s' = s.withDisk h o d := by
  unfold request at hreq
  obtain ⟨d, hd, rfl, q, hq⟩ := append_cases hreq
  rw [resolve_circIdFile] at hd
  rcases mkdir_cases h env o s name with heq | heq
  · rw [heq] at hd hq ⊢
    exact ⟨s.disk, d, .inl ⟨rfl, walk_of_walk_append (by decide) name hq⟩, hd, rfl⟩
  · rw [heq] at hd ⊢
    exact ⟨_, d, .inr rfl, hd, withDisk_withDisk hd⟩

theorem expectedCircId_ok {v : UInt32} (hv : expectedCircId h env s name = .ok v) :
    node s.disk (resolve h.pluginsDirectory name) = some .dir ∧ ∃ content,
      node s.disk (resolve h.pluginsDirectory name ++ [circIdFile]) = some (.file content) ∧
        v = strtoul (content.take 11 ++ env.stack) := by
  unfold expectedCircId at hv
  split at hv
  · next q hq =>
    split_ifs at hv
    · cases hv
    split at hv
    · next content hcontent =>
      rw [walk_eq_resolve _ hq, resolve_circIdFile] at hcontent
      obtain ⟨hdir, hfile⟩ := readAt_cases hcontent
      rw [List.dropLast_concat] at hdir
      exact ⟨hdir, content, hfile, (Except.ok.inj hv).symm⟩
    · cases hv
  · cases hv

theorem rename_cases (h : Host) (env : Env) (o : Owner) (s : Exchange) (old new : List Component) :
    rename h env o s old new = s ∨
      rename h env o s old new = s.withDisk h o (renameAt s.disk
        (resolve h.pluginsDirectory old) (resolve h.pluginsDirectory new)) := by
  unfold rename
  split
  · next src dst hsrc hdst =>
    rw [walk_eq_resolve _ hsrc, walk_eq_resolve _ hdst]
    split_ifs
    · exact .inl rfl
    · exact .inr rfl
  · exact .inl rfl

/-! ### The number stays -/

/-- What a change of the disk has to do for the numbers to stay. -/
theorem recorded_withDisk {d : Disk} (hs : s.Recorded h)
    (hold : ∀ p, node s.disk (h.pending p) = some .dir → ∀ pre content,
      node s.disk (h.pending p ++ [circIdFile]) = some (.file content) → pre <+: content →
        node d (h.pending p) = some .dir →
          ∃ content', node d (h.pending p ++ [circIdFile]) = some (.file content') ∧ pre <+: content')
    (hnew : ∀ p, node s.disk (h.pending p) ≠ some .dir → node d (h.pending p) = some .dir →
      ∃ content, node d (h.pending p ++ [circIdFile]) = some (.file content) ∧
        circIdStr o.2 <+: content) : (s.withDisk h o d).Recorded h := by
  intro p hp
  change node d (h.pending p) = some .dir at hp
  by_cases hp₀ : node s.disk (h.pending p) = some .dir
  · obtain ⟨o', ho', content, hcontent, hpre⟩ := hs p hp₀
    refine ⟨o', ?_, hold p hp₀ _ content hcontent hpre hp⟩
    simp only [Exchange.withDisk, hp, hp₀, if_true, ho']
  · refine ⟨o, ?_, hnew p hp₀ hp⟩
    simp only [Exchange.withDisk, hp, hp₀, if_true, if_false]

theorem recorded_append {data : List UInt8} (hs : s.Recorded h)
    (happ : append h env o s name data = .ok s') : s'.Recorded h := by
  obtain ⟨d, hd, rfl, _⟩ := append_cases happ
  refine recorded_withDisk hs ?_ ?_
  · intro p _ pre content hcontent hpre _
    exact prefix_of_appendAt hd hcontent hpre
  · intro p hp hp'
    exact absurd ((node_appendAt_eq_dir hd).mp hp') hp

theorem recorded_request (hs : s.Recorded h) (hreq : request h env o s name = .ok s') :
    s'.Recorded h := by
  obtain ⟨d₁, d, hd₁, hd, rfl⟩ := request_cases hreq
  refine recorded_withDisk hs ?_ ?_
  · intro p _ pre content hcontent hpre _
    refine prefix_of_appendAt hd (?_ : node d₁ _ = some (.file content)) hpre
    rcases hd₁ with ⟨rfl, _⟩ | rfl
    · exact hcontent
    · rcases mkdirAt_cases s.disk (resolve h.pluginsDirectory name) with heq | ⟨hnone, _⟩
      · rw [heq, hcontent]
      · rw [node_mkdirAt_of_ne, hcontent]
        intro heq
        have := hnone []
        rw [List.append_nil, ← heq, hcontent] at this
        cases this
  · intro p hp hp'
    have hp₁ := (node_appendAt_eq_dir hd).mp hp'
    rcases hd₁ with ⟨rfl, _⟩ | rfl
    · exact absurd hp₁ hp
    -- the hidden directory is the one that is made, and there was nothing below it
    have hpm : h.pending p = resolve h.pluginsDirectory name := by
      by_contra hne
      rw [node_mkdirAt_of_ne hne] at hp₁
      exact hp hp₁
    rcases mkdirAt_cases s.disk (resolve h.pluginsDirectory name) with heq | ⟨hnone, _⟩
    · rw [heq] at hp₁
      exact absurd hp₁ hp
    · obtain ⟨_, content, hcontent, rfl⟩ := appendAt_cases hd
      have hne : resolve h.pluginsDirectory name ++ [circIdFile] ≠
          resolve h.pluginsDirectory name := by
        intro heq
        have := congrArg List.length heq
        simp at this
      rw [node_mkdirAt_of_ne hne, hnone] at hcontent
      rcases hcontent with hcontent | ⟨_, rfl⟩
      · cases hcontent
      · refine ⟨circIdStr o.2, ?_, List.prefix_rfl⟩
        rw [hpm, node, if_pos rfl, List.nil_append]

/-- A directory with its number in it is moved; hidden directories come from hidden ones. -/
theorem recorded_rename {old new : List Component} (hs : s.Recorded h)
    (hdir : node s.disk (resolve h.pluginsDirectory old) = some .dir)
    (hnumber : ∀ p o', resolve h.pluginsDirectory old = h.pending p → s.owner p = some o' →
      o'.2 = o.2)
    (hroot : ¬resolve h.pluginsDirectory new <+: h.pluginsDirectory)
    (hhidden : ∀ q, resolve h.pluginsDirectory new = h.pending q →
      ∃ p, resolve h.pluginsDirectory old = h.pending p) :
    (rename h env o s old new).Recorded h := by
  rcases rename_cases h env o s old new with heq | heq
  · rw [heq]
    exact hs
  rw [heq]
  set src := resolve h.pluginsDirectory old
  set dst := resolve h.pluginsDirectory new
  rcases renameAt_cases s.disk src dst with hsame | ⟨hfree, hmoved, hgone, hrest⟩
  · rw [hsame]
    refine recorded_withDisk hs ?_ ?_
    · intro p _ pre content hcontent hpre _
      exact ⟨content, hcontent, hpre⟩
    · intro p hp hp'
      exact absurd hp' hp
  -- the target lies above a hidden directory only if it is one
  have habove : ∀ p, dst <+: h.pending p → dst = h.pending p := by
    intro p hp
    rcases List.prefix_concat_iff.mp hp with hp | hp
    · exact hp
    · exact absurd hp hroot
  refine recorded_withDisk hs ?_ ?_
  · intro p hp pre content hcontent hpre hp'
    have hnot : ¬dst <+: h.pending p := by
      intro hdst
      rw [habove p hdst, not_free_of_below (List.cons_ne_nil _ _) hcontent] at hfree
      cases hfree
    have hsrc : ¬src <+: h.pending p := by
      intro hsrc
      rw [hgone _ hsrc hnot] at hp'
      cases hp'
    refine ⟨content, ?_, hpre⟩
    rw [hrest, hcontent]
    · intro hsrc'
      rcases List.prefix_concat_iff.mp hsrc' with heq' | hsrc'
      · rw [heq', hcontent] at hdir
        cases hdir
      · exact hsrc hsrc'
    · intro hdst'
      rcases List.prefix_concat_iff.mp hdst' with heq' | hdst'
      · rw [heq', not_free_of_file hcontent] at hfree
        cases hfree
      · exact hnot hdst'
  · intro q hq hq'
    by_cases hdst : dst <+: h.pending q
    · have hdstq := habove q hdst
      obtain ⟨p, hp⟩ := hhidden q hdstq
      rw [hp] at hdir
      obtain ⟨o', ho', content, hcontent, hpre⟩ := hs p hdir
      rw [← hp] at hcontent
      refine ⟨content, ?_, ?_⟩
      · rw [← hdstq, hmoved, hcontent]
      · rw [← hnumber p o' hp ho']
        exact hpre
    · by_cases hsrc : src <+: h.pending q
      · rw [hgone _ hsrc hdst] at hq'
        cases hq'
      · rw [hrest _ hsrc hdst] at hq'
        exact absurd hq' hq

/-! ### What each call leaves alone -/

/-- A hidden directory is as it was, and its owner too. -/
def Kept (h : Host) (p : Name) (s s' : Exchange) : Prop :=
  (∀ r, node s'.disk (h.pending p ++ r) = node s.disk (h.pending p ++ r)) ∧ s'.owner p = s.owner p

theorem Kept.refl (h : Host) (p : Name) (s : Exchange) : Kept h p s s := ⟨fun _ => rfl, rfl⟩

theorem Kept.trans {p : Name} {s s' s'' : Exchange} (h₁ : Kept h p s s') (h₂ : Kept h p s' s'') :
    Kept h p s s'' := by
  refine ⟨?_, h₂.2.trans h₁.2⟩
  intro r
  rw [h₂.1, h₁.1]

theorem Kept.owns {p : Name} (hk : Kept h p s s') (ho : s.Owns h p o) : s'.Owns h p o := by
  refine ⟨?_, hk.2.trans ho.2⟩
  have hdir := hk.1 []
  rw [List.append_nil] at hdir
  rw [hdir, ho.1]

/-- A change of the disk that leaves what is in a hidden directory alone. -/
theorem kept_withDisk {p : Name} {d : Disk} (hdir : node s.disk (h.pending p) = some .dir)
    (hsame : ∀ r, node d (h.pending p ++ r) = node s.disk (h.pending p ++ r)) :
    Kept h p s (s.withDisk h o d) := by
  refine ⟨hsame, ?_⟩
  have hp := hsame []
  rw [List.append_nil, hdir] at hp
  simp only [Exchange.withDisk, hp, hdir, if_true]

theorem kept_append {p : Name} {data : List UInt8} (happ : append h env o s name data = .ok s')
    (hdir : node s.disk (h.pending p) = some .dir)
    (hnot : ¬Below (h.pending p) (resolve h.pluginsDirectory name)) : Kept h p s s' := by
  obtain ⟨d, hd, rfl, _⟩ := append_cases happ
  refine kept_withDisk hdir ?_
  intro r
  refine node_appendAt_of_ne hd ?_
  intro heq
  by_cases hr : resolve h.pluginsDirectory name = h.pending p
  · -- a directory cannot be appended to
    obtain ⟨_, content, hf, _⟩ := appendAt_cases hd
    rw [hr, hdir] at hf
    rcases hf with hf | ⟨hf, _⟩ <;> cases hf
  · exact hnot ⟨⟨r, heq⟩, hr⟩

theorem kept_request {p : Name} (hreq : request h env o s name = .ok s')
    (hdir : node s.disk (h.pending p) = some .dir)
    (hnot : ¬h.pending p <+: resolve h.pluginsDirectory name) : Kept h p s s' := by
  obtain ⟨d₁, d, hd₁, hd, rfl⟩ := request_cases hreq
  have hsame : ∀ r, node d₁ (h.pending p ++ r) = node s.disk (h.pending p ++ r) := by
    intro r
    rcases hd₁ with ⟨rfl, _⟩ | rfl
    · rfl
    · exact node_mkdirAt_of_ne fun heq => hnot ⟨r, heq⟩
  refine kept_withDisk hdir ?_
  intro r
  rw [← hsame]
  refine node_appendAt_of_ne hd ?_
  intro heq
  have hpre : h.pending p <+: resolve h.pluginsDirectory name ++ [circIdFile] := ⟨r, heq⟩
  rcases List.prefix_concat_iff.mp hpre with hp | hp
  · obtain ⟨_, content, hf, _⟩ := appendAt_cases hd
    have hp₁ := hsame []
    rw [List.append_nil, hdir, hp] at hp₁
    rw [hp₁] at hf
    rcases hf with hf | ⟨hf, _⟩ <;> cases hf
  · exact hnot hp

theorem not_dir_of_statFails (hstat : statFails h s name = true)
    (hreq : request h env o s name = .ok s') :
    node s.disk (resolve h.pluginsDirectory name) ≠ some .dir := by
  intro hdir
  unfold statFails at hstat
  split at hstat
  · next q hq =>
    rw [walk_eq_resolve name hq, hdir] at hstat
    cases decide_eq_true_eq.mp hstat
  · next hwalk =>
    have hmk : mkdir h env o s name = s := by
      unfold mkdir
      rw [hwalk]
    unfold request at hreq
    rw [hmk] at hreq
    obtain ⟨_, _, _, q, hq⟩ := append_cases hreq
    obtain ⟨q', hq'⟩ := walk_of_walk_append (by decide) name hq
    rw [hwalk] at hq'
    cases hq'

theorem kept_rename {p : Name} {old new : List Component} (hs : s.Recorded h)
    (hdir : node s.disk (h.pending p) = some .dir)
    (hsrc : ¬resolve h.pluginsDirectory old <+: h.pending p)
    (hsrc' : ¬h.pending p <+: resolve h.pluginsDirectory old)
    (hdst : ¬Below (h.pending p) (resolve h.pluginsDirectory new)) :
    Kept h p s (rename h env o s old new) := by
  rcases rename_cases h env o s old new with heq | heq
  · rw [heq]
    exact Kept.refl h p s
  rw [heq]
  refine kept_withDisk hdir ?_
  intro r
  rcases renameAt_cases s.disk (resolve h.pluginsDirectory old) (resolve h.pluginsDirectory new) with
    hsame | ⟨hfree, _, _, hrest⟩
  · rw [hsame]
  refine hrest _ ?_ ?_
  · intro hpre
    rcases List.prefix_or_prefix_of_prefix hpre (List.prefix_append _ r) with hpre | hpre
    · exact hsrc hpre
    · exact hsrc' hpre
  · intro hpre
    -- a target with the hidden directory at or below it is not free
    have hnot : ¬resolve h.pluginsDirectory new <+: h.pending p := by
      rintro ⟨t, ht⟩
      by_cases hnil : t = []
      · subst hnil
        rw [List.append_nil] at ht
        obtain ⟨_, _, content, hcontent, _⟩ := hs p hdir
        rw [ht, not_free_of_below (List.cons_ne_nil _ _) hcontent] at hfree
        cases hfree
      · rw [← ht] at hdir
        rw [not_free_of_below hnil hdir] at hfree
        cases hfree
    rcases List.prefix_or_prefix_of_prefix hpre (List.prefix_append _ r) with hpre | hpre
    · exact hnot hpre
    · refine hdst ⟨hpre, ?_⟩
      intro heq
      exact hnot (heq ▸ List.prefix_rfl)

/-! ### The handlers -/

def SameDisk (s s' : Exchange) : Prop := s'.disk = s.disk ∧ s'.owner = s.owner

theorem SameDisk.recorded (hd : SameDisk s s') (hs : s.Recorded h) : s'.Recorded h := by
  intro p hp
  rw [hd.1] at hp ⊢
  rw [hd.2]
  exact hs p hp

theorem SameDisk.kept (hd : SameDisk s s') (p : Name) : Kept h p s s' := by
  refine ⟨?_, by rw [hd.2]⟩
  intro r
  rw [hd.1]

theorem passOn_sameDisk {i j : ℕ} {cell : CircCell} (hp : passOn s i cell = .ok (s', j)) :
    SameDisk s s' := by
  unfold passOn at hp
  split at hp
  · cases hp
  · split_ifs at hp
    · cases hp
      exact ⟨rfl, rfl⟩
    · split at hp
      · cases hp
      · split at hp
        · cases hp
        · cases hp
          exact ⟨rfl, rfl⟩

theorem markReceived_sameDisk {pluginName : Name} (hm : markReceived s pluginName = .ok s') :
    SameDisk s s' := by
  unfold markReceived at hm
  obtain ⟨circuits, _, hm⟩ := bind_eq_ok.mp hm
  cases hm
  exact ⟨rfl, rfl⟩

theorem requestIfMissing_cases (hreq : requestIfMissing h env o s name = .ok s') :
    s' = s ∨ statFails h s name = true ∧ request h env o s name = .ok s' := by
  unfold requestIfMissing at hreq
  split_ifs at hreq with hstat
  · exact .inr ⟨hstat, hreq⟩
  · exact .inl (Except.ok.inj hreq).symm

theorem recorded_requestIfMissing (hs : s.Recorded h)
    (hreq : requestIfMissing h env o s name = .ok s') : s'.Recorded h := by
  rcases requestIfMissing_cases hreq with rfl | ⟨_, hreq⟩
  · exact hs
  · exact recorded_request hs hreq

/-- Making a directory that is not there keeps the hidden directories it does not lie in. -/
theorem kept_requestIfMissing {p : Name} (hreq : requestIfMissing h env o s name = .ok s')
    (hdir : node s.disk (h.pending p) = some .dir)
    (hnot : ¬Below (h.pending p) (resolve h.pluginsDirectory name)) : Kept h p s s' := by
  rcases requestIfMissing_cases hreq with rfl | ⟨hstat, hreq⟩
  · exact Kept.refl h p s'
  · refine kept_request hreq hdir ?_
    intro hpre
    refine hnot ⟨hpre, ?_⟩
    intro heq
    rw [← heq] at hdir
    exact not_dir_of_statFails hstat hreq hdir

/-- A number that is read in a hidden directory is the owner's. -/
theorem number_of_owns {p : Name} {v : UInt32} (hs : s.Recorded h) (ho : s.Owns h p o)
    (hdir : h.pending p = resolve h.pluginsDirectory name)
    (hv : expectedCircId h env s name = .ok v) : v = o.2 := by
  obtain ⟨_, content, hcontent, rfl⟩ := expectedCircId_ok hv
  obtain ⟨o', ho', content', hcontent', hpre⟩ := hs p ho.1
  rw [hdir, hcontent] at hcontent'
  cases hcontent'
  rw [ho.2] at ho'
  cases ho'
  exact strtoul_of_prefix hpre _

/-- A single component does not lead into a hidden directory. -/
theorem not_below_singleton (h : Host) (p : Name) (c : Component) :
    ¬Below (h.pending p) (resolve h.pluginsDirectory [c]) := by
  rintro ⟨hpre, hne⟩
  have hlen := hpre.length_le
  rw [Host.pending, List.length_append, List.length_singleton] at hlen
  rcases length_resolve_singleton h.pluginsDirectory c with hle | heq
  · omega
  · refine hne (hpre.eq_of_length ?_).symm
    rw [heq, Host.pending, List.length_append, List.length_append, List.length_singleton,
      List.length_singleton]

/-- **What a cell of `who` may do**: the numbers stay, and so do the hidden directories of others. -/
def Respects (h : Host) (who : Owner) (s s' : Exchange) : Prop :=
  s'.Recorded h ∧ ∀ p o, s.Owns h p o → o = who ∨ Kept h p s s'

theorem SameDisk.respects {who : Owner} (hd : SameDisk s s') (hs : s.Recorded h) :
    Respects h who s s' :=
  ⟨hd.recorded hs, fun p _ _ => .inr (hd.kept p)⟩

theorem transferBack_respects {chan i : ℕ} {cell : CircCell} {c : Component} (hs : s.Recorded h)
    (hback : transferBack h env s chan i cell [c] = .ok s') :
    s'.Recorded h ∧ ∀ p o, s.Owns h p o → Kept h p s s' := by
  unfold transferBack at hback
  split_ifs at hback
  · obtain ⟨s₁, hreq, hback⟩ := bind_eq_ok.mp hback
    obtain ⟨⟨s₂, j⟩, hpass, hback⟩ := bind_eq_ok.mp hback
    cases hback
    have hsame := passOn_sameDisk hpass
    refine ⟨hsame.recorded (recorded_requestIfMissing hs hreq), ?_⟩
    intro p o ho
    exact (kept_requestIfMissing hreq ho.1 (not_below_singleton h p c)).trans (hsame.kept p)
  · cases hback
    exact ⟨hs, fun p _ _ => Kept.refl h p s⟩

/-- **A piece of a file.** -/
theorem transfer_respects {chan : ℕ} {cell : CircCell} (hs : s.Recorded h)
    (hm : (circuitGetByCircidChannel s cell.circId chan).isSome = true →
      ∀ fileName idx lenData, transferPayload h.order cell.payload.val =
        .ok (fileName, idx, lenData) → s.TransferMeets h (chan, cell.circId) fileName)
    (hstep : handlePluginTransferCell h env s chan cell = .ok s') :
    Respects h (chan, cell.circId) s s' := by
  unfold handlePluginTransferCell at hstep
  obtain ⟨⟨fileName, idx, lenData⟩, hpayload, hstep⟩ := bind_eq_ok.mp hstep
  dsimp only at hstep
  split at hstep
  · cases hstep
    exact SameDisk.respects ⟨rfl, rfl⟩ hs
  next i hi =>
  have hsep := hm (by rw [hi]; rfl) fileName idx lenData hpayload
  obtain ⟨s₁, hback, hstep⟩ := bind_eq_ok.mp hstep
  obtain ⟨expected, hexpected, hstep⟩ := bind_eq_ok.mp hstep
  obtain ⟨hs₁, hkept₁⟩ := transferBack_respects hs hback
  split_ifs at hstep with hne hlen
  · cases hstep
    exact ⟨hs₁, fun p o ho => .inr (hkept₁ p o ho)⟩
  · have happ := append_of_appendByClosed hstep
    refine ⟨recorded_append hs₁ happ, ?_⟩
    intro p o ho
    have ho₁ := (hkept₁ p o ho).owns ho
    by_cases hbelow : Below (h.pending p) (resolve h.pluginsDirectory (components (hidden fileName)))
    · left
      rcases (hsep p o ho).1 hbelow with hdir | hwho
      · have hnum := number_of_owns hs₁ ho₁ hdir hexpected
        have hcirc : o.2 = cell.circId := by
          rw [← hnum]
          exact not_not.mp hne
        exact Prod.ext ((hsep p o ho).2 hdir hcirc) hcirc
      · exact hwho
    · exact .inr ((hkept₁ p o ho).trans (kept_append happ ho₁.1 hbelow))
  · cases hstep

/-- **A plugin that is complete.** -/
theorem transferred_respects {chan : ℕ} {cell : CircCell} (hs : s.Recorded h)
    (hm : (circuitGetByCircidChannel s cell.circId chan).isSome = true →
      s.TransferredMeets h (chan, cell.circId) (cString cell.payload.val))
    (hstep : handlePluginTransferredCell h env s chan cell = .ok s') :
    Respects h (chan, cell.circId) s s' := by
  unfold handlePluginTransferredCell at hstep
  split at hstep
  · cases hstep
    exact SameDisk.respects ⟨rfl, rfl⟩ hs
  next i hi =>
  obtain ⟨hsep, hroot, hhidden⟩ := hm (by rw [hi]; rfl)
  obtain ⟨name, hname, hstep⟩ := bind_eq_ok.mp hstep
  have hcname : name = cString cell.payload.val := by
    unfold payloadName at hname
    split_ifs at hname
    · exact (Except.ok.inj hname).symm
    · cases hname
  rw [← hcname] at hsep hroot hhidden
  obtain ⟨s₁, hreq, hstep⟩ := bind_eq_ok.mp hstep
  obtain ⟨expected, hexpected, hstep⟩ := bind_eq_ok.mp hstep
  have hsame₀ : SameDisk s { s with circuits := s.circuits.modify i withMissingPlugins } := ⟨rfl, rfl⟩
  have hs₁ := recorded_requestIfMissing (hsame₀.recorded hs) hreq
  -- the hidden directories that the name leads to are the one it names or the sender's
  have hkept₁ : ∀ p o, s.Owns h p o → o = (chan, cell.circId) ∨ Kept h p s s₁ := by
    intro p o ho
    by_cases hbelow : Below (h.pending p) (resolve h.pluginsDirectory (components (hidden name)))
    · rcases (hsep p o ho).1 (.inr (.inl hbelow.1)) with heq | hwho
      · exact absurd heq.symm hbelow.2
      · exact .inl hwho
    · exact .inr ((hsame₀.kept p).trans (kept_requestIfMissing hreq ho.1 hbelow))
  split_ifs at hstep with hne
  · cases hstep
    exact ⟨hs₁, hkept₁⟩
  have hexp : expected = cell.circId := not_not.mp hne
  have hsame₂ := markReceived_sameDisk hstep
  refine ⟨hsame₂.recorded (recorded_rename hs₁ (expectedCircId_ok hexpected).1 ?_ hroot hhidden), ?_⟩
  · intro p o' hp ho'
    have hdir := (expectedCircId_ok hexpected).1
    rw [hp] at hdir
    rw [← number_of_owns hs₁ ⟨hdir, ho'⟩ hp.symm hexpected, hexp]
  · intro p o ho
    rcases hkept₁ p o ho with hwho | hk₁
    · exact .inl hwho
    by_cases hwho : o = (chan, cell.circId)
    · exact .inl hwho
    have hnamed : h.pending p ≠ resolve h.pluginsDirectory (components (hidden name)) := by
      intro hdir
      have hcirc : o.2 = cell.circId := by
        rw [← number_of_owns hs₁ (hk₁.owns ho) hdir hexpected, hexp]
      exact hwho (Prod.ext ((hsep p o ho).2 hdir hcirc) hcirc)
    have hclear : ∀ {P : Prop}, (P → h.pending p =
        resolve h.pluginsDirectory (components (hidden name)) ∨ o = (chan, cell.circId)) → ¬P := by
      intro P hP hp
      rcases hP hp with heq | heq
      · exact hnamed heq
      · exact hwho heq
    have hrename : Kept h p s₁ (rename h env (chan, cell.circId) s₁ (components (hidden name))
        (components name)) := by
      refine kept_rename hs₁ (hk₁.owns ho).1 ?_ ?_ ?_
      · exact hclear fun hp => (hsep p o ho).1 (.inl hp)
      · exact hclear fun hp => (hsep p o ho).1 (.inr (.inl hp))
      · exact hclear fun hp => (hsep p o ho).1 (.inr (.inr hp))
    exact .inr ((hk₁.trans hrename).trans (hsame₂.kept p))

theorem transferredBack_respects {chan : ℕ} {cell : CircCell} (hs : s.Recorded h)
    (hm : (circuitGetByCircidChannel s cell.circId chan).isSome = true →
      s.TransferredMeets h (chan, cell.circId) (cString cell.payload.val))
    (hstep : handlePluginTransferredBackCell h env s chan cell = .ok s') :
    Respects h (chan, cell.circId) s s' := by
  unfold handlePluginTransferredBackCell at hstep
  split at hstep
  · cases hstep
    exact SameDisk.respects ⟨rfl, rfl⟩ hs
  next i hi =>
  have hmeets := hm (by rw [hi]; rfl)
  obtain ⟨⟨s₁, j⟩, hpass, hstep⟩ := bind_eq_ok.mp hstep
  obtain ⟨name, _, hstep⟩ := bind_eq_ok.mp hstep
  have hsame : SameDisk s { s₁ with circuits := s₁.circuits.modify j (addMandatoryPlugin name) } :=
    ⟨(passOn_sameDisk hpass).1, (passOn_sameDisk hpass).2⟩
  have howns : ∀ p o, Exchange.Owns h
      { s₁ with circuits := s₁.circuits.modify j (addMandatoryPlugin name) } p o ↔ s.Owns h p o := by
    intro p o
    rw [Exchange.Owns, Exchange.Owns, hsame.1, hsame.2]
  obtain ⟨hrec, hkept⟩ := transferred_respects (hsame.recorded hs)
    (fun _ => ⟨fun p o ho => hmeets.1 p o ((howns p o).mp ho), hmeets.2⟩) hstep
  refine ⟨hrec, ?_⟩
  intro p o ho
  rcases hkept p o ((howns p o).mpr ho) with hwho | hk
  · exact .inl hwho
  · exact .inr ((hsame.kept p).trans hk)

/-- **Every cell.** -/
theorem arrive_respects {chan : ℕ} {cell : CircCell} (hs : s.Recorded h)
    (hm : s.Meets h (.arrive env chan cell))
    (hstep : commandProcessPluginCell h env s chan cell = .ok s') :
    Respects h (chan, cell.circId) s s' := by
  unfold commandProcessPluginCell at hstep
  simp only [Exchange.Meets] at hm
  split_ifs at hstep with h₁ h₂ h₃
  · rw [if_pos h₁] at hm
    exact transfer_respects hs hm hstep
  · rw [if_neg h₁, if_pos (.inl h₂)] at hm
    exact transferred_respects hs hm hstep
  · rw [if_neg h₁, if_pos (.inr h₃)] at hm
    exact transferredBack_respects hs hm hstep
  · cases hstep
    exact SameDisk.respects ⟨rfl, rfl⟩ hs

/-! ### Runs -/

theorem recorded_create {chan : ℕ} {circId : UInt32} {cell : CreateCell} (hs : s.Recorded h)
    (hstep : createCircuit h env s chan circId cell = .ok s') : s'.Recorded h := by
  unfold createCircuit at hstep
  obtain ⟨⟨s₁, missing, toRequest⟩, hoffer, hstep⟩ := bind_eq_ok.mp hstep
  obtain ⟨waiting, _, hstep⟩ := bind_eq_ok.mp hstep
  cases hstep
  have hs₁ : s₁.Recorded h := by
    unfold offerInCreateCell at hoffer
    split_ifs at hoffer
    · cases hoffer
      exact hs
    · obtain ⟨inPayload, _, hoffer⟩ := bind_eq_ok.mp hoffer
      obtain ⟨⟨s₂, missing', toRequest'⟩, hfold, hoffer⟩ := bind_eq_ok.mp hoffer
      cases hoffer
      refine foldlM_invariant (I := fun t : Exchange × List Name × List Name => t.1.Recorded h) ?_
        inPayload hs hfold
      intro t name t' ht hone
      unfold offerOnDisk at hone
      split_ifs at hone
      · dsimp only at hone
        split_ifs at hone
        · cases hone
          exact ht
        · obtain ⟨s₃, hreq, hone⟩ := bind_eq_ok.mp hone
          cases hone
          exact recorded_request ht hreq
      · cases hone
  exact SameDisk.recorded ⟨rfl, rfl⟩ hs₁

/-- **One event** keeps the numbers. -/
theorem recorded_of_step {e : ExchangeEvent} (hs : s.Recorded h) (hm : s.Meets h e)
    (hstep : s.step h e = .ok s') : s'.Recorded h := by
  cases e with
  | arrive env chan cell => exact (arrive_respects hs hm hstep).1
  | create env chan circId cell => exact recorded_create hs hstep
  | circuits circuits =>
    cases hstep
    exact SameDisk.recorded ⟨rfl, rfl⟩ hs

/-- **Plugin transfers are bound to their owner**: in every run whose events meet the condition, each
cell changes a hidden directory only if it came on the channel and the circuit for which the directory
was made. -/
theorem bound_of_run {s₀ : Exchange} {events : List ExchangeEvent} {e : ExchangeEvent}
    (hs₀ : s₀.Recorded h)
    (hrun : Run (fun s e s' => s.Meets h e ∧ s.step h e = .ok s') s₀ events s)
    (hm : s.Meets h e) (hstep : s.step h e = .ok s') : BoundToOwner h s e s' := by
  have hs : s.Recorded h := by
    refine Run.invariant (I := fun s => s.Recorded h) ?_ hrun hs₀
    intro t e t' ht hte
    exact recorded_of_step ht hte.1 hte.2
  cases e with
  | arrive env chan cell =>
    intro p o ho hchanged
    rcases (arrive_respects hs hm hstep).2 p o ho with hwho | hk
    · exact hwho
    · obtain ⟨r, hr⟩ := hchanged
      exact absurd (hk.1 r) hr
  | create env chan circId cell => trivial
  | circuits circuits => trivial

/-- Calls are not refused, and a closed stream is used again. -/
def calm : Env := ⟨fun _ => false, [], true⟩

/-- `PluginsDirectory` is `/p`. -/
def clientHost : Host := ⟨[[0x70]], .little⟩

/-- A client with a circuit 5 on the channel 1 and a circuit 5 on the channel 2; the hidden directory `.a`
was made for the first. -/
def twoChannels : Exchange where
  disk := [([], .dir), ([[0x70]], .dir), ([[0x70], [0x2e, 0x61]], .dir),
    ([[0x70], [0x2e, 0x61], circIdFile], .file (circIdStr 5))]
  circuits := [⟨true, some (1, 5), none, [], ⟨none, none, []⟩⟩,
    ⟨true, some (2, 5), none, [], ⟨none, none, []⟩⟩]
  sent := []
  requests := []
  owner := fun p => if p = [0x61] then some (1, 5) else none

/-- A byte for the file `a/f`, on circuit 5. -/
def oneByte : CircCell :=
  ⟨⟨cellPluginTransfer, Bytes.pad _ [3, 0, 0, 0, 0x61, 0x2f, 0x66, 1, 0, 0, 0, 0x78]⟩, 5⟩

theorem twoChannels_recorded : twoChannels.Recorded clientHost := by
  intro p hp
  have hpa : p = [0x61] := by
    by_contra hne
    simp [twoChannels, clientHost, Host.pending, node, hidden, Ne.symm hne] at hp
  subst hpa
  exact ⟨(1, 5), rfl, circIdStr 5, by decide +kernel, List.prefix_rfl⟩

theorem owns_twoChannels {p : Name} (ho : twoChannels.Owns clientHost p o) : o = (1, 5) := by
  have hown := ho.2
  simp only [twoChannels] at hown
  split_ifs at hown
  exact (Option.some.inj hown).symm

theorem isOk_iff_exists {x : Step Exchange} : x.toOption.isSome = true ↔ ∃ s, x = .ok s := by
  cases x with
  | ok s => exact ⟨fun _ => ⟨s, rfl⟩, fun _ => rfl⟩
  | error e =>
    constructor
    · intro hx
      cases hx
    · rintro ⟨s, hs⟩
      cases hs

theorem bound_of_run_oneByte :
    ∃ s', twoChannels.step clientHost (.arrive calm 1 oneByte) = .ok s' ∧
      BoundToOwner clientHost twoChannels (.arrive calm 1 oneByte) s' := by
  obtain ⟨s', hs'⟩ := isOk_iff_exists.mp
    (show (twoChannels.step clientHost (.arrive calm 1 oneByte)).toOption.isSome = true by
      decide +kernel)
  refine ⟨s', hs', bound_of_run twoChannels_recorded (.nil _) ?_ hs'⟩
  intro _
  rw [if_pos (by decide)]
  intro fileName idx lenData _ p o ho
  rw [owns_twoChannels ho]
  exact ⟨fun _ => .inr rfl, fun _ _ => rfl⟩

/-- The client before `.a` was made. -/
def noTransfers : Exchange :=
  { twoChannels with disk := [([], .dir), ([[0x70]], .dir)], owner := fun _ => none }

/-- A byte for the file `a/f`, pushed back. -/
def oneByteBack : CircCell := { oneByte with command := cellPluginTransferBack }

theorem noTransfers_recorded : noTransfers.Recorded clientHost := by
  intro p hp
  simp [noTransfers, clientHost, Host.pending, node] at hp

/-- `.a` is made for the circuit 5 of the channel 1, and the circuit 5 of the channel 2 writes to it. -/
theorem not_bound_otherChannel :
    ¬∀ (h : Host) (s₀ s s' : Exchange) (events : List ExchangeEvent) (e : ExchangeEvent),
      s₀.Recorded h → Run (fun s e s' => s.step h e = .ok s') s₀ events s →
        s.step h e = .ok s' → BoundToOwner h s e s' := by
  intro hall
  obtain ⟨s, hs⟩ := isOk_iff_exists.mp
    (show (noTransfers.step clientHost (.arrive calm 1 oneByteBack)).toOption.isSome = true by
      decide +kernel)
  have hfirst : (noTransfers.step clientHost (.arrive calm 1 oneByteBack)).toOption.map (fun t =>
      (node t.disk [[0x70], [0x2e, 0x61]], t.owner [0x61],
        node t.disk [[0x70], [0x2e, 0x61], [0x66]])) =
      some (some .dir, some (1, 5), some (.file [0x78])) := by
    decide +kernel
  have hsecond : (noTransfers.step clientHost (.arrive calm 1 oneByteBack) >>= fun t =>
      t.step clientHost (.arrive calm 2 oneByte)).toOption.map (fun t =>
        node t.disk [[0x70], [0x2e, 0x61], [0x66]]) = some (some (.file [0x78, 0x78])) := by
    decide +kernel
  rw [hs] at hfirst
  rw [hs, ok_bind] at hsecond
  obtain ⟨hdir, howner, hbefore⟩ : node s.disk [[0x70], [0x2e, 0x61]] = some .dir ∧
      s.owner [0x61] = some (1, 5) ∧
        node s.disk [[0x70], [0x2e, 0x61], [0x66]] = some (.file [0x78]) := by
    have hpair := Option.some.inj hfirst
    exact ⟨congrArg Prod.fst hpair, congrArg (fun t => t.2.1) hpair, congrArg (fun t => t.2.2) hpair⟩
  cases hstep : s.step clientHost (.arrive calm 2 oneByte) with
  | error x =>
    rw [hstep] at hsecond
    cases hsecond
  | ok s' =>
    rw [hstep] at hsecond
    have hafter : node s'.disk [[0x70], [0x2e, 0x61], [0x66]] = some (.file [0x78, 0x78]) :=
      Option.some.inj hsecond
    have hbound := hall clientHost noTransfers s s' _ (.arrive calm 2 oneByte)
      noTransfers_recorded (.cons hs (.nil s)) hstep [0x61] (1, 5) ⟨hdir, howner⟩ ⟨[[0x66]], ?_⟩
    · exact absurd hbound (by decide)
    · intro heq
      change node s'.disk [[0x70], [0x2e, 0x61], [0x66]] =
        node s.disk [[0x70], [0x2e, 0x61], [0x66]] at heq
      rw [hafter, hbefore] at heq
      cases heq

end TorEbpf.Or
