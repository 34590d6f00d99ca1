import Mathlib
import TorEbpf.Or.PluginTransfer

/-!
# Where a transfer cell writes

The lengths and the name in a transfer cell are the sender's.  `handle_plugin_transfer_cell` checks the
`.circ_id` of the directory that `get_dir_name` cuts off the name, and opens the file that the whole name
leads to.  The data goes through the stream of `.circ_id`, which is closed by then.

* `handlePluginTransferCell_eq` — the handler, with the file that it opens in the middle;
* `resolve_eq_descend` — where a name leads, from a directory on: some levels up, and some names down;
* `transferBack_iff` — what is on the disk when the handler looks at `.circ_id`;
* `confined_iff` — for which cells the handler stays inside the payload and the directory and writes to a stream
  that is open.
-/

namespace TorEbpf.Or

open TorEbpf.Lib TorEbpf.Strings

/-! ### The file that is opened -/

/-- `handle_plugin_transfer_cell` up to the call of `fopen` for the file: its name in `PluginsDirectory`,
and the data for it. -/
def transferTarget (h : Host) (env : Env) (s : Exchange) (chan : ℕ) (cell : CircCell) :
    Step (Exchange × Option (List Component × List UInt8)) := do
  let (fileName, idx, lenData) ← transferPayload h.order cell.payload.val
  match circuitGetByCircidChannel s cell.circId chan with
  | none => pure (s, none)
  | some i =>
      let dir := [hidden (getDirName fileName)]
      let s ← transferBack h env s chan i cell dir
      let expected ← expectedCircId h env s dir
      if expected ≠ cell.circId then pure (s, none)
      else if idx + lenData ≤ cell.payload.val.length then
        pure (s, some (components (hidden fileName), slice cell.payload.val idx lenData))
      else fault .read

/-- The directory whose `.circ_id` is checked. -/
def checkedDir (h : Host) (fileName : Name) : Path :=
  resolve h.pluginsDirectory [hidden (getDirName fileName)]

/-- `file_name`, as it is set by `memcpy`. -/
def fileNameArray (h : Host) (p : List UInt8) : Bytes cellPayloadSize :=
  .pad _ (slice p 4 (getInt h.order (slice p 0 4)))

/-- The loop of `get_dir_name` on an array of `max_len` bytes: it looks at `path[i]` before it compares `i` with
`max_len`. -/
def dirNameLoop : List UInt8 → Step (List UInt8)
  | [] => fault .read
  | b :: path => if b = 0x2f then pure [] else return b :: (← dirNameLoop path)

/-- The handler stays inside the payload and `file_name`, where `get_dir_name` looks for a slash if there is a
circuit, and writes to no stream that is closed; and the file that it opens is directly inside the directory whose
`.circ_id` it has checked. -/
def Confined (h : Host) (env : Env) (s : Exchange) (chan : ℕ) (cell : CircCell) : Prop :=
  (∀ f, handlePluginTransferCell h env s chan cell = .error (.fault f) → f ≠ .read ∧ f ≠ .write) ∧
    ((circuitGetByCircidChannel s cell.circId chan).isSome = true →
      ∃ dir, dirNameLoop (fileNameArray h cell.payload.val).val = .ok dir) ∧
    ∀ s' name data, transferTarget h env s chan cell = .ok (s', some (name, data)) →
      ∃ fileName idx lenData, transferPayload h.order cell.payload.val = .ok (fileName, idx, lenData) ∧
        ∃ file, resolve h.pluginsDirectory name = checkedDir h fileName ++ [file]

/-- The loop stays inside of the array exactly if there is a slash in it, and finds what is in front of that. -/
theorem dirNameLoop_eq (l : List UInt8) :
    dirNameLoop l = if 0x2f ∈ l then .ok (l.takeWhile (· ≠ 0x2f)) else fault .read := by
  induction l with
  | nil => rfl
  | cons b l ih =>
    rw [dirNameLoop, ih]
    by_cases hb : b = 0x2f
    · simp [hb, pure, Except.pure]
    · by_cases hmem : 0x2f ∈ l
      · simp [hb, hmem, pure, Except.pure]
      · simp [hb, hmem, Ne.symm hb, fault, bind, Except.bind]

/-- As a string it is what is in front of the first slash of the name. -/
theorem cString_dirNameLoop {l dir : List UInt8} (h : dirNameLoop l = .ok dir) :
    cString dir = getDirName (cString l) := by
  rw [dirNameLoop_eq] at h
  split_ifs at h
  · cases h
    rw [cString, cString, getDirName, List.takeWhile_takeWhile, List.takeWhile_takeWhile]
    simp only [and_comm]
  · cases h

/-- **The handler** writes to the file that it opens. -/
theorem handlePluginTransferCell_eq (h : Host) (env : Env) (s : Exchange) (chan : ℕ) (cell : CircCell) :
    handlePluginTransferCell h env s chan cell =
      transferTarget h env s chan cell >>= fun r =>
        match r.2 with
        | none => pure r.1
        | some (name, data) => appendByClosed h env (chan, cell.circId) r.1 name data := by
  unfold handlePluginTransferCell transferTarget
  rw [bind_assoc]
  refine bind_congr fun r => ?_
  cases circuitGetByCircidChannel s cell.circId chan with
  | none => rfl
  | some i =>
    simp only [bind_assoc]
    refine bind_congr fun s₁ => bind_congr fun expected => ?_
    split_ifs
    · rfl
    · rfl
    · rfl

/-! ### Where a name leads -/

/-- Following a name from a directory on: how many levels it climbs, and the names that it goes down from
there. -/
def descend : ℕ × List Component → List Component → ℕ × List Component
  | r, [] => r
  | r, c :: cs =>
      if c = [] ∨ c = dot then descend r cs
      else if c = dotdot then descend (if r.2 = [] then (r.1 + 1, []) else (r.1, r.2.dropLast)) cs
      else descend (r.1, r.2 ++ [c]) cs

/-- **A name leads** as many levels up, and from there down. -/
theorem resolve_eq_descend (q : Path) (cs : List Component) : ∀ r : ℕ × List Component,
    resolve (q.take (q.length - r.1) ++ r.2) cs =
      q.take (q.length - (descend r cs).1) ++ (descend r cs).2 := by
  induction cs with
  | nil =>
    intro r
    rfl
  | cons c cs ih =>
    intro r
    rw [resolve, descend]
    split_ifs with hskip hup hnil
    · exact ih r
    · rw [← ih, hnil, List.append_nil, List.append_nil, List.dropLast_eq_take, List.take_take,
        List.length_take]
      congr 2
      omega
    · rw [← ih, List.dropLast_append_of_ne_nil hnil]
    · rw [← ih, List.append_assoc]

/-- What follows the first slash of a name. -/
def afterSlash (fileName : Name) : Option (List UInt8) :=
  match fileName.dropWhile (· ≠ 0x2f) with
  | [] => none
  | _ :: rest => some rest

/-- What follows the first slash of a name leads back into the directory and to one more name: after `..`
is cancelled against the name in front of it, it climbs some levels and goes down by the names of these
levels and one more. -/
def DirectlyInside (h : Host) (fileName : Name) : Prop :=
  ∃ rest file, afterSlash fileName = some rest ∧
    (descend (0, []) (components rest)).2 =
      (checkedDir h fileName).drop
        ((checkedDir h fileName).length - (descend (0, []) (components rest)).1) ++ [file]

theorem components_append_slash {d rest : List UInt8} (hd : 0x2f ∉ d) :
    components (d ++ 0x2f :: rest) = d :: components rest := by
  induction d with
  | nil => rw [List.nil_append, components, if_pos rfl]
  | cons b d ih =>
    rw [List.mem_cons, not_or] at hd
    rw [List.cons_append, components, if_neg (Ne.symm hd.1), ih hd.2]

theorem not_mem_getDirName (fileName : Name) : 0x2f ∉ getDirName fileName := by
  intro hmem
  have hne := List.mem_takeWhile_imp hmem
  simp at hne

/-- The name of the file leads into the directory exactly if what follows its first slash does. -/
theorem directlyInside_iff (h : Host) (fileName : Name) :
    (∃ file, resolve h.pluginsDirectory (components (hidden fileName)) = checkedDir h fileName ++ [file]) ↔
      DirectlyInside h fileName := by
  have hhidden : 0x2f ∉ hidden (getDirName fileName) := by
    rw [hidden, List.mem_cons, not_or]
    exact ⟨by decide, not_mem_getDirName fileName⟩
  have hsplit : fileName = getDirName fileName ++ fileName.dropWhile (· ≠ 0x2f) :=
    List.takeWhile_append_dropWhile.symm
  rcases hdrop : fileName.dropWhile (· ≠ 0x2f) with _ | ⟨b, rest⟩
  · -- no slash: the name leads to the directory itself
    rw [hdrop, List.append_nil] at hsplit
    constructor
    · rintro ⟨file, hfile⟩
      rw [checkedDir, ← hsplit, components_of_not_mem (by rw [hsplit]; exact hhidden)] at hfile
      exact absurd hfile (by simp)
    · rintro ⟨rest, file, hslash, _⟩
      rw [afterSlash, hdrop] at hslash
      cases hslash
  · have hb : b = 0x2f := by
      have hhead := List.head?_dropWhile_not (fun b : UInt8 => decide (b ≠ 0x2f)) fileName
      rw [hdrop] at hhead
      simpa using hhead
    subst hb
    rw [hdrop] at hsplit
    have hname : hidden fileName = hidden (getDirName fileName) ++ 0x2f :: rest := by
      conv_lhs => rw [hsplit]
      rfl
    have hresolve : resolve h.pluginsDirectory (components (hidden fileName)) =
        resolve (checkedDir h fileName) (components rest) := by
      rw [hname, components_append_slash hhidden, checkedDir, ← resolve_append, List.singleton_append]
    have hdescend := resolve_eq_descend (checkedDir h fileName) (components rest) (0, [])
    rw [Nat.sub_zero, List.take_length, List.append_nil] at hdescend
    rw [hresolve, hdescend]
    have hcancel : ∀ file, (checkedDir h fileName).take
          ((checkedDir h fileName).length - (descend (0, []) (components rest)).1) ++
          (descend (0, []) (components rest)).2 = checkedDir h fileName ++ [file] ↔
        (descend (0, []) (components rest)).2 = (checkedDir h fileName).drop
          ((checkedDir h fileName).length - (descend (0, []) (components rest)).1) ++ [file] := by
      intro file
      conv_lhs =>
        rhs
        rw [← List.take_append_drop
          ((checkedDir h fileName).length - (descend (0, []) (components rest)).1) (checkedDir h fileName)]
      rw [List.append_assoc, List.append_cancel_left_eq]
    have hafter : afterSlash fileName = some rest := by
      rw [afterSlash, hdrop]
    constructor
    · rintro ⟨file, hfile⟩
      exact ⟨rest, file, hafter, (hcancel file).mp hfile⟩
    · rintro ⟨rest', file, hslash, hfile⟩
      rw [hafter] at hslash
      cases hslash
      exact ⟨file, (hcancel file).mpr hfile⟩

/-! ### Up to the check -/

section Check

variable {h : Host} {env : Env} {o : Owner} {s s' : Exchange} {chan i : ℕ} {cell : CircCell}
  {fileName : Name} {name : List Component}

/-- The cell can go on towards the client, or the circuit ends here. -/
def GoesOn (s : Exchange) (i : ℕ) : Prop :=
  ∃ circ, s.circuits[i]? = some circ ∧ (circ.isOrigin = true ∨
    ∃ pChan pCircId j, circ.pSide = some (pChan, pCircId) ∧ circuitGetByCircidChannel s pCircId pChan = some j)

/-- What is on the disk when the handler looks at `.circ_id`: a directory that is missing is made for a
`CELL_PLUGIN_TRANSFER_BACK`, which then goes on. -/
inductive DiskAtCheck (h : Host) (env : Env) (s : Exchange) (i : ℕ) (cell : CircCell) (fileName : Name) :
    Disk → Prop
  | transfer (hcell : cell.command ≠ cellPluginTransferBack) : DiskAtCheck h env s i cell fileName s.disk
  | there (hcell : cell.command = cellPluginTransferBack) (hon : GoesOn s i)
      (hdir : node s.disk (checkedDir h fileName) ≠ none) : DiskAtCheck h env s i cell fileName s.disk
  | made {d : Disk} (hcell : cell.command = cellPluginTransferBack) (hon : GoesOn s i)
      (hdir : node s.disk (checkedDir h fileName) = none)
      (hopen : env.refuses (checkedDir h fileName ++ [circIdFile]) = false)
      (hmade : appendAt (if env.refuses (checkedDir h fileName) then s.disk
        else mkdirAt s.disk (checkedDir h fileName)) (checkedDir h fileName ++ [circIdFile])
        (circIdStr cell.circId) = some d) : DiskAtCheck h env s i cell fileName d

/-- `.circ_id` of the directory holds the number of the cell's circuit. -/
def HoldsNumber (h : Host) (env : Env) (d : Disk) (fileName : Name) (circId : UInt32) : Prop :=
  env.refuses (checkedDir h fileName ++ [circIdFile]) = false ∧
    ∃ content, readAt d (checkedDir h fileName ++ [circIdFile]) = some content ∧
      strtoul (content.take 11 ++ env.stack) = circId

def CanAppend (h : Host) (env : Env) (d : Disk) (name : List Component) : Prop :=
  ∃ q, walk d h.pluginsDirectory name = some q ∧ env.refuses q = false ∧ name.getLast? ≠ some [] ∧
    node d q.dropLast = some .dir ∧ node d q ≠ some .dir

theorem passOn_iff : (∃ r, passOn s i cell = .ok r) ↔ GoesOn s i := by
  unfold passOn GoesOn
  cases hcirc : s.circuits[i]? with
  | none => simp [fault]
  | some circ =>
    dsimp only
    split_ifs with horigin
    · simp [horigin, pure, Except.pure]
    · rcases hside : circ.pSide with _ | ⟨pChan, pCircId⟩
      · simp [horigin, hside, fault]
      · cases hnext : circuitGetByCircidChannel s pCircId pChan with
        | none => simp [horigin, hside, hnext, fault]
        | some j => simp [horigin, hside, hnext, pure, Except.pure]

theorem circIdFile_ne : circIdFile ≠ [] ∧ circIdFile ≠ dot ∧ circIdFile ≠ dotdot := by decide

theorem expectedCircId_iff {circId : UInt32} :
    expectedCircId h env s [hidden (getDirName fileName)] = .ok circId ↔
      HoldsNumber h env s.disk fileName circId := by
  unfold expectedCircId HoldsNumber checkedDir
  rcases walk_file s.disk h.pluginsDirectory (hidden (getDirName fileName)) circIdFile_ne with hwalk | ⟨hwalk, hdir⟩
  · rw [List.singleton_append, hwalk]
    dsimp only
    split_ifs with hopen
    · simp [hopen, fault]
    · cases hread : readAt s.disk (resolve h.pluginsDirectory [hidden (getDirName fileName)] ++ [circIdFile]) with
      | none => simp [fault]
      | some content => simp [hopen, pure, Except.pure]
  · rw [List.singleton_append, hwalk]
    constructor
    · intro heq
      cases heq
    · rintro ⟨-, content, hread, -⟩
      have hthere := (readAt_cases hread).1
      rw [List.dropLast_concat] at hthere
      exact absurd hthere hdir

/-- A file that can be opened is appended to. -/
theorem append_iff {data : List UInt8} :
    (∃ s', append h env o s name data = .ok s') ↔ CanAppend h env s.disk name := by
  unfold append CanAppend
  cases hwalk : walk s.disk h.pluginsDirectory name with
  | none => simp [fault]
  | some q =>
    have happ := @exists_appendAt_iff s.disk q data
    dsimp only
    split_ifs with hrefuse
    · constructor
      · rintro ⟨s', heq⟩
        cases heq
      · rintro ⟨q', hq', hopen, hlast, -⟩
        obtain rfl := Option.some.inj hq'
        rcases hrefuse with hr | hr
        · rw [hopen] at hr
          cases hr
        · exact absurd hr hlast
    · rw [not_or, Bool.not_eq_true] at hrefuse
      cases hd : appendAt s.disk q data with
      | none =>
        constructor
        · rintro ⟨s', heq⟩
          cases heq
        · rintro ⟨q', hq', -, -, hnode⟩
          obtain rfl := Option.some.inj hq'
          obtain ⟨d, hd'⟩ := happ.mpr hnode
          rw [hd] at hd'
          cases hd'
      | some d =>
        exact iff_of_true ⟨_, rfl⟩ ⟨q, rfl, hrefuse.1, hrefuse.2, happ.mp ⟨d, hd⟩⟩

theorem mkdir_disk : (mkdir h env o s [hidden (getDirName fileName)]).disk =
    if env.refuses (checkedDir h fileName) then s.disk else mkdirAt s.disk (checkedDir h fileName) := by
  unfold mkdir
  rw [walk_singleton]
  dsimp only
  rw [← checkedDir]
  split_ifs
  · rfl
  · rfl

theorem request_iff {d : Disk} :
    (∃ s', request h env o s [hidden (getDirName fileName)] = .ok s' ∧ s'.disk = d) ↔
      env.refuses (checkedDir h fileName ++ [circIdFile]) = false ∧
        appendAt (if env.refuses (checkedDir h fileName) then s.disk else mkdirAt s.disk (checkedDir h fileName))
          (checkedDir h fileName ++ [circIdFile]) (circIdStr o.2) = some d := by
  rw [← mkdir_disk (o := o)]
  unfold request append
  generalize mkdir h env o s [hidden (getDirName fileName)] = t
  rcases walk_file t.disk h.pluginsDirectory (hidden (getDirName fileName)) circIdFile_ne with hwalk | ⟨hwalk, hdir⟩
  · rw [List.singleton_append, hwalk]
    dsimp only
    rw [← checkedDir]
    have hlast : ([hidden (getDirName fileName), circIdFile].getLast? = some []) ↔ False := by simp [circIdFile]
    simp only [hlast, or_false]
    split_ifs with hopen
    · simp [hopen, fault]
    · cases happ : appendAt t.disk (checkedDir h fileName ++ [circIdFile]) (circIdStr o.2) with
      | none => simp [fault]
      | some d' => simp [hopen, pure, Except.pure, Exchange.withDisk]
  · rw [List.singleton_append, hwalk]
    constructor
    · rintro ⟨s', heq, -⟩
      cases heq
    · rintro ⟨-, happ⟩
      have hthere := (exists_appendAt_iff.mp ⟨d, happ⟩).1
      rw [List.dropLast_concat] at hthere
      exact absurd hthere hdir

theorem circuits_of_request (hreq : request h env o s name = .ok s') : s'.circuits = s.circuits := by
  obtain ⟨d₁, d, -, -, rfl⟩ := request_cases hreq
  rfl

/-- **What is on the disk** when the handler looks at `.circ_id`. -/
theorem transferBack_iff {d : Disk} :
    (∃ s', transferBack h env s chan i cell [hidden (getDirName fileName)] = .ok s' ∧ s'.disk = d) ↔
      DiskAtCheck h env s i cell fileName d := by
  unfold transferBack requestIfMissing
  have hstat : statFails h s [hidden (getDirName fileName)] = true ↔
      node s.disk (checkedDir h fileName) = none := by
    rw [statFails, walk_singleton]
    exact decide_eq_true_iff
  have hon : ∀ t : Exchange, t.circuits = s.circuits → (GoesOn t i ↔ GoesOn s i) := by
    intro t ht
    rw [GoesOn, GoesOn, ht]
    simp only [circuitGetByCircidChannel, ht]
  by_cases hcell : cell.command = cellPluginTransferBack
  swap
  · rw [if_neg hcell]
    constructor
    · rintro ⟨s', heq, rfl⟩
      cases heq
      exact .transfer hcell
    · intro hd
      cases hd with
      | transfer _ => exact ⟨s, rfl, rfl⟩
      | there hback => exact absurd hback hcell
      | made hback => exact absurd hback hcell
  rw [if_pos hcell]
  constructor
  · rintro ⟨s', heq, rfl⟩
    obtain ⟨t, ht, heq⟩ := bind_eq_ok.mp heq
    obtain ⟨⟨t', j⟩, hpass, heq⟩ := bind_eq_ok.mp heq
    cases heq
    rw [(passOn_sameDisk hpass).1]
    have hgoes := passOn_iff.mp ⟨_, hpass⟩
    split_ifs at ht with hmissing
    · obtain ⟨hopen, hmade⟩ := request_iff.mp ⟨t, ht, rfl⟩
      exact .made hcell ((hon t (circuits_of_request ht)).mp hgoes) (hstat.mp hmissing) hopen hmade
    · cases ht
      exact .there hcell hgoes fun hnone => hmissing (hstat.mpr hnone)
  · have hfinish : ∀ t : Exchange, t.circuits = s.circuits → GoesOn s i →
        ∃ s', (passOn t i cell >>= fun r => pure r.1 : Step Exchange) = .ok s' ∧ s'.disk = t.disk := by
      intro t ht hgoes
      obtain ⟨⟨t', j⟩, hpass⟩ := passOn_iff.mpr ((hon t ht).mpr hgoes)
      refine ⟨t', ?_, (passOn_sameDisk hpass).1⟩
      rw [hpass]
      rfl
    intro hd
    cases hd with
    | transfer hback => exact absurd hcell hback
    | there _ hgoes hdir =>
      rw [if_neg (hstat.not.mpr hdir)]
      exact hfinish s rfl hgoes
    | made _ hgoes hdir hopen hmade =>
      obtain ⟨t, ht, rfl⟩ := (request_iff (o := (chan, cell.circId)) (s := s)).mpr ⟨hopen, hmade⟩
      rw [if_pos (hstat.mpr hdir), ht]
      exact hfinish t (circuits_of_request ht) hgoes

end Check

/-! ### Payloads -/

def lenNameOf (h : Host) (p : List UInt8) : ℕ := getInt h.order (slice p 0 4)

def lenDataOf (h : Host) (p : List UInt8) : ℕ := getInt h.order (slice p (4 + lenNameOf h p) 4)

def nameOf (h : Host) (p : List UInt8) : Name := cString (slice p 4 (lenNameOf h p))

section Payloads

variable {h : Host} {payload : Bytes cellPayloadSize}

theorem cString_pad_val {n : ℕ} {l : List UInt8} (hlen : l.length < n) :
    cString (Bytes.pad n l).val = cString l := by
  have hval : (Bytes.pad n l).val = l ++ List.replicate (n - l.length) 0 := by
    show (l ++ List.replicate n 0).take n = _
    rw [List.take_append, List.take_of_length_le hlen.le, List.take_replicate, Nat.min_eq_left (Nat.sub_le _ _)]
  obtain ⟨k, hk⟩ : ∃ k, n - l.length = k + 1 := ⟨n - l.length - 1, by omega⟩
  rw [cString, cString, hval, hk, List.replicate_succ, List.takeWhile_append]
  split_ifs with hall
  · rw [List.takeWhile_cons_of_neg (by decide), List.append_nil]
    exact ((List.takeWhile_prefix _).eq_of_length hall).symm
  · rfl

theorem mem_fileNameArray {b : UInt8} (hb : b ≠ 0) (hname : lenNameOf h payload.val ≤ 501) :
    b ∈ (fileNameArray h payload.val).val ↔ b ∈ slice payload.val 4 (lenNameOf h payload.val) := by
  have hlen : (slice payload.val 4 (lenNameOf h payload.val)).length ≤ cellPayloadSize := by
    rw [slice_length (by rw [payload.length_eq]; unfold cellPayloadSize; omega)]
    unfold cellPayloadSize
    omega
  show b ∈ (slice payload.val 4 (lenNameOf h payload.val) ++ List.replicate cellPayloadSize 0).take
    cellPayloadSize ↔ _
  rw [List.take_append, List.take_of_length_le hlen, List.mem_append, List.take_replicate]
  exact or_iff_left fun hmem => hb (List.eq_of_mem_replicate hmem)

/-- **Reading the lengths and the name** stays inside exactly if the name does. -/
theorem transferPayload_eq :
    transferPayload h.order payload.val =
      if lenNameOf h payload.val ≤ 501 then
        .ok (nameOf h payload.val, 8 + lenNameOf h payload.val, lenDataOf h payload.val)
      else fault .read := by
  have hlen : payload.val.length = 509 := payload.length_eq
  have hname : readInt h.order payload.val 0 = .ok (lenNameOf h payload.val) := if_pos (by omega)
  rw [transferPayload, hname, ok_bind]
  by_cases hfits : lenNameOf h payload.val ≤ 501
  · have hslice : (slice payload.val 4 (lenNameOf h payload.val)).length = lenNameOf h payload.val :=
      slice_length (by omega)
    have hcopy : memcpy payload.val 4 (lenNameOf h payload.val) cellPayloadSize =
        .ok (Bytes.pad cellPayloadSize (slice payload.val 4 (lenNameOf h payload.val))) := by
      unfold memcpy
      rw [if_pos (by omega), if_pos (by unfold cellPayloadSize; omega)]
      rfl
    have hdata : readInt h.order payload.val (4 + lenNameOf h payload.val) = .ok (lenDataOf h payload.val) :=
      if_pos (by omega)
    rw [if_pos hfits, hcopy, ok_bind, hdata, ok_bind, cString_pad_val (by
      rw [hslice]
      unfold cellPayloadSize
      omega)]
    rfl
  · rw [if_neg hfits]
    unfold memcpy
    split_ifs with hin hcap
    · rw [show (pure _ : Step (Bytes cellPayloadSize)) = .ok _ from rfl, ok_bind]
      have hdata : readInt h.order payload.val (4 + lenNameOf h payload.val) = fault .read :=
        if_neg (by omega)
      rw [hdata]
      rfl
    · unfold cellPayloadSize at hcap
      omega
    · rfl

end Payloads

section Handler

variable {h : Host} {env : Env} {s s' : Exchange} {chan i : ℕ} {cell : CircCell}

/-- **The write** finds a stream only if the file can be opened, and is opened as the closed stream. -/
theorem appendByClosed_iff {o : Owner} {name : List Component} {data : List UInt8} :
    (∃ s', appendByClosed h env o s name data = .ok s') ↔ env.reuses = true ∧ CanAppend h env s.disk name := by
  rw [← @append_iff h env o s name data]
  unfold appendByClosed
  cases append h env o s name data with
  | error e => simp [fault]
  | ok t =>
    dsimp only
    split_ifs with hreuses
    · simp [hreuses, pure, Except.pure]
    · simp [hreuses, fault]

theorem appendByClosed_fault {o : Owner} {name : List Component} {data : List UInt8} :
    (∃ s', appendByClosed h env o s name data = .ok s') ∨ appendByClosed h env o s name data = fault .write := by
  unfold appendByClosed
  cases append h env o s name data with
  | error e => exact .inr rfl
  | ok t =>
    dsimp only
    split_ifs
    · exact .inl ⟨t, rfl⟩
    · exact .inr rfl

/-- What comes before the check faults at worst at a pointer that is `NULL`. -/
theorem fault_of_transferBack {name : List Component} {f : CellFault}
    (hf : transferBack h env s chan i cell name = .error (.fault f)) : f = .nullPointer := by
  have happend : ∀ {o t name data}, append h env o t name data = .error (.fault f) → f = .nullPointer := by
    intro o t name data hf
    unfold append at hf
    split at hf
    · split_ifs at hf
      · cases hf
        rfl
      · split at hf
        · cases hf
        · cases hf
          rfl
    · cases hf
      rfl
  have hpass : ∀ {t}, passOn t i cell = .error (.fault f) → f = .nullPointer := by
    intro t hf
    unfold passOn at hf
    split at hf
    · cases hf
      rfl
    · split_ifs at hf
      · cases hf
      · split at hf
        · cases hf
          rfl
        · split at hf
          · cases hf
            rfl
          · cases hf
  unfold transferBack requestIfMissing at hf
  split_ifs at hf
  · cases hreq : request h env (chan, cell.circId) s name with
    | error e =>
      rw [hreq] at hf
      cases hf
      exact happend hreq
    | ok t =>
      rw [hreq, ok_bind] at hf
      cases ht : passOn t i cell with
      | error e =>
        rw [ht] at hf
        cases hf
        exact hpass ht
      | ok r =>
        rw [ht] at hf
        cases hf
  · cases ht : passOn s i cell with
    | error e =>
      rw [pure_bind, ht] at hf
      cases hf
      exact hpass ht
    | ok r =>
      rw [pure_bind, ht] at hf
      cases hf
  · cases hf

theorem fault_of_expectedCircId {name : List Component} {f : CellFault}
    (hf : expectedCircId h env s name = .error (.fault f)) : f = .nullPointer := by
  unfold expectedCircId at hf
  split at hf
  · split_ifs at hf
    · cases hf
      rfl
    · split at hf
      · cases hf
      · cases hf
        rfl
  · cases hf
    rfl

/-- What is opened once a cell has passed the check. -/
theorem transferTarget_of_check (hname : lenNameOf h cell.payload.val ≤ 501)
    (hcirc : circuitGetByCircidChannel s cell.circId chan = some i)
    (hback : transferBack h env s chan i cell [hidden (getDirName (nameOf h cell.payload.val))] = .ok s')
    (hnumber : HoldsNumber h env s'.disk (nameOf h cell.payload.val) cell.circId) :
    transferTarget h env s chan cell =
      if 8 + lenNameOf h cell.payload.val + lenDataOf h cell.payload.val ≤ 509 then
        .ok (s', some (components (hidden (nameOf h cell.payload.val)),
          slice cell.payload.val (8 + lenNameOf h cell.payload.val) (lenDataOf h cell.payload.val)))
      else fault .read := by
  have hlen : cell.payload.val.length = 509 := cell.payload.length_eq
  rw [transferTarget, transferPayload_eq, if_pos hname, ok_bind]
  dsimp only
  rw [hcirc]
  dsimp only
  rw [hback, ok_bind, expectedCircId_iff.mpr hnumber, ok_bind, if_neg (not_not.mpr rfl), hlen]
  rfl

theorem transferTarget_of_not_check (hname : lenNameOf h cell.payload.val ≤ 501)
    (hnot : ∀ i t, circuitGetByCircidChannel s cell.circId chan = some i →
      transferBack h env s chan i cell [hidden (getDirName (nameOf h cell.payload.val))] = .ok t →
      ¬HoldsNumber h env t.disk (nameOf h cell.payload.val) cell.circId) :
    (∀ f, transferTarget h env s chan cell = .error (.fault f) → f = .nullPointer) ∧
      ∀ r, transferTarget h env s chan cell = .ok r → r.2 = none := by
  rw [transferTarget, transferPayload_eq, if_pos hname, ok_bind]
  dsimp only
  cases hcirc : circuitGetByCircidChannel s cell.circId chan with
  | none =>
    refine ⟨fun f hf => (nomatch hf), fun r hr => ?_⟩
    cases hr
    rfl
  | some i =>
    dsimp only
    cases hback : transferBack h env s chan i cell [hidden (getDirName (nameOf h cell.payload.val))] with
    | error e =>
      refine ⟨fun f hf => ?_, fun r hr => (nomatch hr)⟩
      cases hf
      exact fault_of_transferBack hback
    | ok t =>
      rw [ok_bind]
      cases hexpected : expectedCircId h env t [hidden (getDirName (nameOf h cell.payload.val))] with
      | error e =>
        refine ⟨fun f hf => ?_, fun r hr => (nomatch hr)⟩
        cases hf
        exact fault_of_expectedCircId hexpected
      | ok v =>
        have hne : v ≠ cell.circId := by
          rintro rfl
          exact hnot i t hcirc hback (expectedCircId_iff.mp hexpected)
        rw [ok_bind, if_pos hne]
        refine ⟨fun f hf => (nomatch hf), fun r hr => ?_⟩
        cases hr
        rfl

/-- **For which cells the handler is confined**: the name ends four bytes before the payload does, and has a slash
if there is a circuit; and a cell that passes the check of `.circ_id` has its data inside of the payload and a name
that leads directly into the directory, to a file that can be opened, and is opened as the stream that was
closed. -/
theorem confined_iff (h : Host) (env : Env) (s : Exchange) (chan : ℕ) (cell : CircCell) :
    Confined h env s chan cell ↔ lenNameOf h cell.payload.val ≤ 501 ∧
      ((circuitGetByCircidChannel s cell.circId chan).isSome = true →
        0x2f ∈ slice cell.payload.val 4 (lenNameOf h cell.payload.val)) ∧
      ∀ i d, circuitGetByCircidChannel s cell.circId chan = some i →
        DiskAtCheck h env s i cell (nameOf h cell.payload.val) d →
        HoldsNumber h env d (nameOf h cell.payload.val) cell.circId →
          8 + lenNameOf h cell.payload.val + lenDataOf h cell.payload.val ≤ 509 ∧
          DirectlyInside h (nameOf h cell.payload.val) ∧ env.reuses = true ∧
          CanAppend h env d (components (hidden (nameOf h cell.payload.val))) := by
  have hread := @transferPayload_eq h cell.payload
  have hslash : lenNameOf h cell.payload.val ≤ 501 →
      ((∃ dir, dirNameLoop (fileNameArray h cell.payload.val).val = .ok dir) ↔
        0x2f ∈ slice cell.payload.val 4 (lenNameOf h cell.payload.val)) := by
    intro hname
    rw [← mem_fileNameArray (by decide) hname, dirNameLoop_eq]
    split_ifs with hmem <;> simp [hmem, fault]
  rw [Confined, handlePluginTransferCell_eq]
  constructor
  · rintro ⟨hfault, hdir, htarget⟩
    have hname : lenNameOf h cell.payload.val ≤ 501 := by
      by_contra hlong
      rw [if_neg hlong] at hread
      refine (hfault .read ?_).1 rfl
      rw [transferTarget, hread]
      rfl
    refine ⟨hname, fun hcirc => (hslash hname).mp (hdir hcirc), fun i d hcirc hd hnumber => ?_⟩
    obtain ⟨t, hback, rfl⟩ := transferBack_iff.mpr hd
    rw [transferTarget_of_check hname hcirc hback hnumber] at hfault htarget
    have hdata : 8 + lenNameOf h cell.payload.val + lenDataOf h cell.payload.val ≤ 509 := by
      by_contra hlong
      rw [if_neg hlong] at hfault
      exact (hfault .read rfl).1 rfl
    rw [if_pos hdata] at hfault htarget
    refine ⟨hdata, ?_, ?_⟩
    · obtain ⟨fileName, _, _, hfile, hinside⟩ := htarget _ _ _ rfl
      rw [hread, if_pos hname] at hfile
      cases hfile
      exact (directlyInside_iff h _).mp hinside
    · rcases appendByClosed_fault with hok | hwrite
      · exact appendByClosed_iff.mp hok
      · exact absurd rfl (hfault .write hwrite).2
  · rintro ⟨hname, hdir, hmeets⟩
    rw [if_pos hname] at hread
    have hdir' := fun hcirc => (hslash hname).mpr (hdir hcirc)
    by_cases hcheck : ∃ i t, circuitGetByCircidChannel s cell.circId chan = some i ∧
        transferBack h env s chan i cell [hidden (getDirName (nameOf h cell.payload.val))] = .ok t ∧
        HoldsNumber h env t.disk (nameOf h cell.payload.val) cell.circId
    · obtain ⟨i, t, hcirc, hback, hnumber⟩ := hcheck
      obtain ⟨hdata, hinside, hstream⟩ := hmeets i t.disk hcirc (transferBack_iff.mp ⟨t, hback, rfl⟩) hnumber
      obtain ⟨s', hs'⟩ := appendByClosed_iff.mpr hstream
      rw [transferTarget_of_check hname hcirc hback hnumber, if_pos hdata, ok_bind]
      dsimp only
      rw [hs']
      refine ⟨fun _ hf => (nomatch hf), hdir', fun s'' name data htarget => ?_⟩
      cases htarget
      exact ⟨_, _, _, hread, (directlyInside_iff h _).mpr hinside⟩
    · push Not at hcheck
      obtain ⟨hnull, hnone⟩ := transferTarget_of_not_check hname hcheck
      refine ⟨fun f hf => ?_, hdir', fun s'' name data htarget => (nomatch hnone _ htarget)⟩
      cases ht : transferTarget h env s chan cell with
      | error e =>
        rw [ht] at hf
        cases hf
        rw [hnull f ht]
        decide
      | ok r =>
        rw [ht, ok_bind, hnone r ht] at hf
        cases hf

end Handler

/-- The name `a/../../f`, and one byte of data. -/
def climbing : CircCell :=
  ⟨⟨cellPluginTransfer, Bytes.pad _ [9, 0, 0, 0, 0x61, 0x2f, 0x2e, 0x2e, 0x2f, 0x2e, 0x2e, 0x2f, 0x66,
    1, 0, 0, 0, 0x78]⟩, 5⟩

/-- **A name that climbs**: the `.circ_id` of `.a` is checked, and the file is opened above all plugins. -/
theorem not_confined_climbing : ¬Confined clientHost calm twoChannels 1 climbing := by
  rintro ⟨-, -, htarget⟩
  have hopened : (transferTarget clientHost calm twoChannels 1 climbing).toOption.map (·.2) =
      some (some ([[0x2e, 0x61], [0x2e, 0x2e], [0x2e, 0x2e], [0x66]], [0x78])) := by
    decide +kernel
  have hread : (transferPayload clientHost.order climbing.payload.val).toOption.map (·.1) =
      some [0x61, 0x2f, 0x2e, 0x2e, 0x2f, 0x2e, 0x2e, 0x2f, 0x66] := by
    decide +kernel
  cases ht : transferTarget clientHost calm twoChannels 1 climbing with
  | error e =>
    rw [ht] at hopened
    cases hopened
  | ok r =>
    obtain ⟨t, target⟩ := r
    rw [ht] at hopened
    obtain rfl : target = some ([[0x2e, 0x61], [0x2e, 0x2e], [0x2e, 0x2e], [0x66]], [0x78]) :=
      Option.some.inj hopened
    obtain ⟨fileName, idx, lenData, hname, file, hfile⟩ := htarget _ _ _ ht
    rw [hname] at hread
    obtain rfl : fileName = [0x61, 0x2f, 0x2e, 0x2e, 0x2f, 0x2e, 0x2e, 0x2f, 0x66] := Option.some.inj hread
    have hlen := congrArg List.length hfile
    rw [List.length_append, List.length_singleton] at hlen
    exact absurd hlen (by decide)

end TorEbpf.Or
