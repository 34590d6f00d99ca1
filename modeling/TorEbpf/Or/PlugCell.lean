import Mathlib
import TorEbpf.Lib.Bytes
import TorEbpf.Lib.Events
import TorEbpf.Lib.SwapRemove
import TorEbpf.Or.PluginFile

/-!
# Plug cells

A client asks a relay with a `RELAY_COMMAND_PLUG` cell to plug a plugin into a circuit.  The relay looks
through its plugins directory for the one with this uid, and adds it to the plugins of the circuit, from
which `plugin_cleanup_conn` takes it again.

* `pluginHelperFindAllAndInit` — the walk through the directory, and `walk_iff`: what it loads;
* `plugOk_iff` — for which cells plugging in does what it should;
* `plugCells_iff` — the same, and the uids on the circuit in every state of every run.
-/

namespace TorEbpf.Or

open TorEbpf.Lib

/-! ### The cell -/

structure PluginPart where
  totalLen : ℕ
  dataLen : ℕ
  offset : ℕ
  pluginDataPart : List UInt8
  deriving DecidableEq, Repr

structure PlugCell where
  version : UInt8
  uid : ℕ
  length : ℕ
  dataPpart : Option PluginPart
  deriving DecidableEq, Repr

/-- `plugin_part_parse`: the part, and what is left. -/
def pluginPartParse (input : List UInt8) : Option (PluginPart × List UInt8) :=
  if input.length < 18 then none
  else
    let dataLen := beNat ((input.drop 8).take 2)
    let rest := input.drop 18
    if rest.length < dataLen then none
    else
      some (⟨beNat (input.take 8), dataLen, beNat ((input.drop 10).take 8), rest.take dataLen⟩,
        rest.drop dataLen)

/-- `plug_cell_parse`; what follows the cell is ignored. -/
def plugCellParse : List UInt8 → Option PlugCell
  | [] => none
  | version :: rest =>
      if version ≠ 0 ∧ version ≠ 1 then none
      else if rest.length < 10 then none
      else
        let uid := beNat (rest.take 8)
        let length := beNat ((rest.drop 8).take 2)
        let data := rest.drop 10
        if data.length < length then none
        else if version = 0 then some ⟨version, uid, length, none⟩
        else
          match pluginPartParse (data.take length) with
          | some (part, []) => some ⟨version, uid, length, some part⟩
          | _ => none

/-! ### The plugins directory -/

/-- What is behind a name in the plugins directory: nothing that can be looked at; something that is no
directory; or a directory with its files, if it can be opened, and with which of the code in it can be
loaded. -/
inductive DirEntry where
  | missing
  | other
  | dir (files : Option (List (Name × Option (List UInt8)))) (elf : ℕ → Bool)

/-- The option `PluginsDirectory`, and what the directory lists, if it can be opened. -/
structure PluginDisk where
  pluginsDirectory : Option Name
  entries : Option (List (Name × DirEntry))

/-- The file name ends in `.plugin`. -/
def isPluginFile (name : Name) : Bool :=
  List.isSuffixOf [0x2e, 0x70, 0x6c, 0x75, 0x67, 0x69, 0x6e] name

/-- The table, the next free address, and the plugins that have been loaded. -/
structure Loader where
  table : List EntryPointMap
  next : ℕ
  allPlugins : List Plugin
  deriving DecidableEq, Repr

def loadEntry (root : Name) (uid : ℕ) (s : Loader) (de : Name × DirEntry) : Step Loader :=
  if de.1 = dot ∨ de.1 = dotdot then pure s
  else
    match de.2 with
    -- the directory is closed, and the loop goes on to read it
    | .missing => fault .read
    | .other => pure s
    | .dir none _ => fault .nullPointer
    | .dir (some files) elf =>
        match files.find? fun file => isPluginFile file.1 with
        | none => pure s
        | some (name, file) => do
            let (t, r) ← pluginInsertTransaction elf (root ++ 0x2f :: de.1) name file uid s.next s.table
            pure ⟨t, s.next + 1, s.allPlugins ++ r.toList⟩

/-- `plugin_helper_find_all_and_init` for one uid. -/
def pluginHelperFindAllAndInit (disk : PluginDisk) (uid : ℕ) (t : List EntryPointMap) (next : ℕ) :
    Step (Option Loader) :=
  match disk.pluginsDirectory with
  | none => fault .assertion
  | some root =>
      match disk.entries with
      | none => pure none
      | some entries => do
          let s ← entries.foldlM (loadEntry root uid) ⟨t, next, []⟩
          pure (some s)

/-- `plugin_helper_find_from_uid_and_init`: the plugin, if there is exactly one. -/
def pluginHelperFindFromUidAndInit (disk : PluginDisk) (uid : ℕ) (t : List EntryPointMap) (next : ℕ) :
    Step (Option Plugin × List EntryPointMap × ℕ) := do
  match ← pluginHelperFindAllAndInit disk uid t next with
  | none => fault .nullPointer
  | some ⟨t, next, [plugin]⟩ => pure (some plugin, t, next)
  | some ⟨t, next, _⟩ => pure (none, t, next)

/-! ### The circuit -/

/-- What the handler reads of a circuit: which side it is, and if it goes on to another relay. -/
structure PlugCircuit where
  isOrigin : Bool
  nChan : Bool
  deriving DecidableEq, Repr

/-- The plugins of the circuit, the table, and the next free address. -/
structure PlugState where
  plugins : List Plugin
  table : List EntryPointMap
  next : ℕ
  deriving DecidableEq, Repr

def endCircReasonTorprotocol : ℤ := 1

/-- `plugin_process_plug_cell`, up to the code of the plugin: what `plugin_init` does to the plugins of the
circuit, it does by `plugin_cleanup_conn`. -/
def pluginProcessPlugCell (debug : Bool) (circ : PlugCircuit) (disk : PluginDisk) (s : PlugState)
    (payload : List UInt8) : Step (ℤ × PlugState) :=
  if circ.isOrigin then pure (-endCircReasonTorprotocol, s)
  else
    match plugCellParse payload with
    | none => pure (-endCircReasonTorprotocol, s)
    | some cell =>
        if cell.version ≠ 0 then fault .assertion
        else if s.plugins.any (·.uid = cell.uid) then pure (0, s)
        else do
          let (plugin, t, next) ← pluginHelperFindFromUidAndInit disk cell.uid s.table s.next
          match plugin with
          | none => fault .assertion
          | some plugin =>
              -- the last log line names `circ->n_chan`
              if debug && !circ.nChan then fault .nullPointer
              else pure (0, ⟨s.plugins ++ [plugin], t, next⟩)

/-- The loop of `smartlist_remove`, which takes out every occurrence of a plugin. -/
def smartlistRemoveLoop (id : ℕ) : (fuel i : ℕ) → List Plugin → List Plugin
  | 0, _, l => l
  | fuel + 1, i, l =>
      match l[i]? with
      | none => l
      | some p =>
          if p.id = id then smartlistRemoveLoop id fuel i (swapRemove l i)
          else smartlistRemoveLoop id fuel (i + 1) l

def smartlistRemove (id : ℕ) (l : List Plugin) : List Plugin := smartlistRemoveLoop id l.length 0 l

/-- `plugin_cleanup_conn`, without the code of the plugin. -/
def pluginCleanupConn (s : PlugState) (uid : ℕ) : Step PlugState :=
  match s.plugins.find? (·.uid = uid) with
  | none => pure s
  | some p => do
      let t ← pluginUnplug s.table p
      pure { s with plugins := smartlistRemove p.id s.plugins, table := t }

/-! ### What plugging in should do -/

/-- The entry has no `.plugin` file. -/
def Skipped (de : Name × DirEntry) : Prop :=
  de.1 = dot ∨ de.1 = dotdot ∨ de.2 = .other ∨
    ∃ files elf, de.2 = .dir (some files) elf ∧ ∀ file ∈ files, isPluginFile file.1 = false

/-- The entry has this `.plugin` file. -/
def HasPluginFile (de : Name × DirEntry) (name : Name) (file : Option (List UInt8)) (elf : ℕ → Bool) : Prop :=
  (de.1 ≠ dot ∧ de.1 ≠ dotdot) ∧
    ∃ files, de.2 = .dir (some files) elf ∧ files.find? (fun file => isPluginFile file.1) = some (name, file)

/-- The entries of the directory one after the other: which plugins their `.plugin` files yield. -/
inductive Yields (root : Name) (uid : ℕ) : List EntryPointMap → ℕ → List (Name × DirEntry) →
    List EntryPointMap → ℕ → List Plugin → Prop where
  | nil (t : List EntryPointMap) (n : ℕ) : Yields root uid t n [] t n []
  | skip {t t' : List EntryPointMap} {n n' : ℕ} {de : Name × DirEntry} {entries : List (Name × DirEntry)}
      {plugins : List Plugin} (hskip : Skipped de) (hrest : Yields root uid t n entries t' n' plugins) :
      Yields root uid t n (de :: entries) t' n' plugins
  | load {t t₁ t' : List EntryPointMap} {n n' : ℕ} {de : Name × DirEntry} {entries : List (Name × DirEntry)}
      {plugins : List Plugin} {name : Name} {file : Option (List UInt8)} {elf : ℕ → Bool} {r : Option Plugin}
      (hfile : HasPluginFile de name file elf)
      (hload : pluginInsertTransaction elf (root ++ 0x2f :: de.1) name file uid n t = .ok (t₁, r))
      (hrest : Yields root uid t₁ (n + 1) entries t' n' plugins) :
      Yields root uid t n (de :: entries) t' n' (r.toList ++ plugins)

/-- The uid can be loaded: the directory yields one plugin, and this is its uid. -/
def Loadable (disk : PluginDisk) (s : PlugState) (uid : ℕ) : Prop :=
  ∃ root entries t' n' plugin, disk.pluginsDirectory = some root ∧ disk.entries = some entries ∧
    Yields root uid s.table s.next entries t' n' [plugin] ∧ plugin.uid = uid

def PlugState.uids (s : PlugState) : List ℕ := s.plugins.map Plugin.uid

/-- The handler returns; the uids on the circuit stay distinct; and a cell that is malformed, has an unknown
version, or names a uid that cannot be loaded changes nothing there. -/
def PlugOk (debug : Bool) (circ : PlugCircuit) (disk : PluginDisk) (s : PlugState) (payload : List UInt8) :
    Prop :=
  ∃ ret s', pluginProcessPlugCell debug circ disk s payload = .ok (ret, s') ∧ (s.uids.Nodup → s'.uids.Nodup) ∧
    ((∀ cell, plugCellParse payload = some cell → cell.version ≠ 0 ∨ ¬Loadable disk s cell.uid) →
      s'.plugins = s.plugins)

/-- The condition on a cell: it is malformed; or it has version 0 and a uid that is on the circuit already
or can be loaded. -/
def PlugCellRegular (debug : Bool) (circ : PlugCircuit) (disk : PluginDisk) (s : PlugState)
    (payload : List UInt8) : Prop :=
  ∀ cell, plugCellParse payload = some cell → cell.version = 0 ∧
    ((∃ p ∈ s.plugins, p.uid = cell.uid) ∨
      (Loadable disk s cell.uid ∧ (debug = true → circ.nChan = true)))

/-! ### The walk through the directory -/

section Walk

variable {root : Name} {uid : ℕ} {s s' : Loader} {de : Name × DirEntry} {entries : List (Name × DirEntry)}

/-- **One entry** is skipped, or has a `.plugin` file. -/
theorem loadEntry_iff : loadEntry root uid s de = .ok s' ↔
    (Skipped de ∧ s' = s) ∨ ∃ name file elf t r, HasPluginFile de name file elf ∧
      pluginInsertTransaction elf (root ++ 0x2f :: de.1) name file uid s.next s.table = .ok (t, r) ∧
      s' = ⟨t, s.next + 1, s.allPlugins ++ r.toList⟩ := by
  obtain ⟨d, e⟩ := de
  rw [loadEntry]
  dsimp only
  split_ifs with hdots
  · constructor
    · intro h
      cases h
      exact .inl ⟨hdots.elim .inl (.inr ∘ .inl), rfl⟩
    · rintro (⟨-, rfl⟩ | ⟨name, file, elf, t, r, ⟨⟨h₁, h₂⟩, -⟩, -⟩)
      · rfl
      · exact absurd hdots (not_or.mpr ⟨h₁, h₂⟩)
  · rw [not_or] at hdots
    rcases e with _ | _ | ⟨_ | files, elf⟩
    · refine iff_of_false nofun ?_
      rintro (⟨h | h | h | ⟨files, elf, h, -⟩, -⟩ | ⟨name, file, elf, t, r, ⟨-, files, h, -⟩, -⟩)
      · exact hdots.1 h
      · exact hdots.2 h
      · cases h
      · cases h
      · cases h
    · constructor
      · intro h
        cases h
        exact .inl ⟨.inr (.inr (.inl rfl)), rfl⟩
      · rintro (⟨-, rfl⟩ | ⟨name, file, elf, t, r, ⟨-, files, h, -⟩, -⟩)
        · rfl
        · cases h
    · refine iff_of_false nofun ?_
      rintro (⟨h | h | h | ⟨files, elf, h, -⟩, -⟩ | ⟨name, file, elf, t, r, ⟨-, files, h, -⟩, -⟩)
      · exact hdots.1 h
      · exact hdots.2 h
      · cases h
      · cases h
      · cases h
    · dsimp only
      cases hfind : files.find? fun file => isPluginFile file.1 with
      | none =>
        have hnone : ∀ file ∈ files, isPluginFile file.1 = false := by
          simpa using hfind
        constructor
        · intro h
          cases h
          exact .inl ⟨.inr (.inr (.inr ⟨files, elf, rfl, hnone⟩)), rfl⟩
        · rintro (⟨-, rfl⟩ | ⟨name, file, elf, t, r, ⟨-, files, h, hfind'⟩, -⟩)
          · rfl
          · cases h
            rw [hfind] at hfind'
            cases hfind'
      | some found =>
        obtain ⟨name, file⟩ := found
        constructor
        · intro h
          obtain ⟨⟨t, r⟩, hload, h⟩ := bind_eq_ok.mp h
          cases h
          exact .inr ⟨name, file, elf, t, r, ⟨hdots, files, rfl, hfind⟩, hload, rfl⟩
        · rintro (⟨h | h | h | ⟨files, elf, h, hnone⟩, -⟩ |
            ⟨name, file, elf, t, r, ⟨-, files, h, hfind'⟩, hload, rfl⟩)
          · exact absurd h hdots.1
          · exact absurd h hdots.2
          · cases h
          · cases h
            have hplugin := hnone _ (List.mem_of_find?_eq_some hfind)
            have hsome := List.find?_some hfind
            rw [hplugin] at hsome
            cases hsome
          · cases h
            rw [hfind] at hfind'
            cases hfind'
            exact bind_eq_ok.mpr ⟨(t, r), hload, rfl⟩

/-- **The walk** yields the plugins that the `.plugin` files yield one after the other. -/
theorem walk_iff : ∀ {entries s}, entries.foldlM (loadEntry root uid) s = .ok s' ↔
    ∃ plugins, Yields root uid s.table s.next entries s'.table s'.next plugins ∧
      s'.allPlugins = s.allPlugins ++ plugins := by
  intro entries
  induction entries with
  | nil =>
    intro s
    constructor
    · intro h
      cases h
      exact ⟨[], .nil _ _, (List.append_nil _).symm⟩
    · rintro ⟨plugins, hy, hall⟩
      obtain ⟨t, n, all⟩ := s'
      cases hy
      rw [List.append_nil] at hall
      cases hall
      rfl
  | cons de entries ih =>
    intro s
    rw [List.foldlM_cons, bind_eq_ok]
    constructor
    · rintro ⟨s₁, hentry, hrest⟩
      obtain ⟨plugins, hy, hall⟩ := ih.mp hrest
      rcases loadEntry_iff.mp hentry with ⟨hskip, rfl⟩ | ⟨name, file, elf, t, r, hfile, hload, rfl⟩
      · exact ⟨plugins, .skip hskip hy, hall⟩
      · refine ⟨r.toList ++ plugins, .load hfile hload hy, ?_⟩
        rw [hall, List.append_assoc]
    · rintro ⟨plugins, hy, hall⟩
      cases hy with
      | skip hskip hy => exact ⟨s, loadEntry_iff.mpr (.inl ⟨hskip, rfl⟩), ih.mpr ⟨_, hy, hall⟩⟩
      | load hfile hload hy =>
        refine ⟨_, loadEntry_iff.mpr (.inr ⟨_, _, _, _, _, hfile, hload, rfl⟩), ih.mpr ⟨_, hy, ?_⟩⟩
        rw [hall, List.append_assoc]

/-- **What `plugin_helper_find_from_uid_and_init` finds**: the only plugin that the directory yields. -/
theorem findFromUid_iff {disk : PluginDisk} {t t' : List EntryPointMap} {n n' : ℕ} {plugin : Plugin} :
    pluginHelperFindFromUidAndInit disk uid t n = .ok (some plugin, t', n') ↔
      ∃ root entries, disk.pluginsDirectory = some root ∧ disk.entries = some entries ∧
        Yields root uid t n entries t' n' [plugin] := by
  rw [pluginHelperFindFromUidAndInit, pluginHelperFindAllAndInit]
  cases hroot : disk.pluginsDirectory with
  | none => exact iff_of_false nofun fun ⟨_, _, h, _⟩ => nomatch h
  | some root =>
    cases hentries : disk.entries with
    | none => exact iff_of_false nofun fun ⟨_, _, _, h, _⟩ => nomatch h
    | some entries =>
      dsimp only
      constructor
      · intro h
        obtain ⟨found, hfound, h⟩ := bind_eq_ok.mp h
        obtain ⟨s, hwalk, hs⟩ := bind_eq_ok.mp hfound
        cases hs
        obtain ⟨plugins, hy, hall⟩ := walk_iff.mp hwalk
        rcases s with ⟨t₁, n₁, _ | ⟨p, _ | ⟨q, ps⟩⟩⟩
        · cases h
        · cases h
          cases hall
          exact ⟨root, entries, rfl, rfl, hy⟩
        · cases h
      · rintro ⟨root', entries', hr, he, hy⟩
        cases hr
        cases he
        have hwalk := (@walk_iff root uid ⟨t', n', [plugin]⟩ entries ⟨t, n, []⟩).mpr ⟨[plugin], hy, rfl⟩
        rw [hwalk]
        rfl

end Walk

/-! ### One cell -/

section Cells

variable {debug nChan : Bool} {disk : PluginDisk} {s s' : PlugState} {payload : List UInt8}
  {cell : PlugCell} {ret : ℤ} {uid id : ℕ}

theorem process_malformed (hcell : plugCellParse payload = none) :
    pluginProcessPlugCell debug ⟨false, nChan⟩ disk s payload = .ok (-endCircReasonTorprotocol, s) := by
  unfold pluginProcessPlugCell
  simp only [Bool.false_eq_true, if_false, hcell]
  rfl

theorem process_version (hcell : plugCellParse payload = some cell) (hversion : cell.version ≠ 0) :
    pluginProcessPlugCell debug ⟨false, nChan⟩ disk s payload = fault .assertion := by
  unfold pluginProcessPlugCell
  simp only [Bool.false_eq_true, if_false, hcell]
  exact if_pos hversion

theorem process_present (hcell : plugCellParse payload = some cell) (hversion : cell.version = 0)
    (hpresent : ∃ p ∈ s.plugins, p.uid = cell.uid) :
    pluginProcessPlugCell debug ⟨false, nChan⟩ disk s payload = .ok (0, s) := by
  unfold pluginProcessPlugCell
  simp only [Bool.false_eq_true, if_false, hcell]
  rw [if_neg (not_not.mpr hversion), if_pos (by simpa using hpresent)]
  rfl

/-- A cell whose uid is not on the circuit: **the plugin that is found** is added. -/
theorem process_absent (hcell : plugCellParse payload = some cell) (hversion : cell.version = 0)
    (habsent : ¬∃ p ∈ s.plugins, p.uid = cell.uid) :
    pluginProcessPlugCell debug ⟨false, nChan⟩ disk s payload = .ok (ret, s') ↔
      ∃ plugin t n, pluginHelperFindFromUidAndInit disk cell.uid s.table s.next = .ok (some plugin, t, n) ∧
        (debug = true → nChan = true) ∧ ret = 0 ∧ s' = ⟨s.plugins ++ [plugin], t, n⟩ := by
  unfold pluginProcessPlugCell
  simp only [Bool.false_eq_true, if_false, hcell]
  rw [if_neg (not_not.mpr hversion), if_neg (by simpa using habsent), bind_eq_ok]
  constructor
  · rintro ⟨⟨_ | plugin, t, n⟩, hfind, h⟩
    · cases h
    · dsimp only at h
      split_ifs at h with hdebug
      · cases h
      · cases h
        refine ⟨plugin, t, n, hfind, ?_, rfl, rfl⟩
        rintro rfl
        simpa using hdebug
  · rintro ⟨plugin, t, n, hfind, hdebug, rfl, rfl⟩
    refine ⟨_, hfind, ?_⟩
    dsimp only
    rw [if_neg]
    · rfl
    · cases debug with
      | false => simp
      | true => simp [hdebug rfl]

/-- **For which cells plugging in does what it should**: exactly the regular ones. -/
theorem plugOk_iff (debug nChan : Bool) (disk : PluginDisk) (s : PlugState) (payload : List UInt8) :
    PlugOk debug ⟨false, nChan⟩ disk s payload ↔ PlugCellRegular debug ⟨false, nChan⟩ disk s payload := by
  cases hcell : plugCellParse payload with
  | none =>
    refine iff_of_true ⟨_, s, process_malformed hcell, id, fun _ => rfl⟩ fun cell h => ?_
    rw [hcell] at h
    cases h
  | some cell =>
    by_cases hversion : cell.version = 0
    · by_cases hpresent : ∃ p ∈ s.plugins, p.uid = cell.uid
      · refine iff_of_true ⟨0, s, process_present hcell hversion hpresent, id, fun _ => rfl⟩ fun cell' h => ?_
        rw [hcell] at h
        cases h
        exact ⟨hversion, .inl hpresent⟩
      · constructor
        · rintro ⟨ret, s', hrun, -, hsame⟩ cell' h
          rw [hcell] at h
          cases h
          obtain ⟨plugin, t, n, hfind, hdebug, -, rfl⟩ := (process_absent hcell hversion hpresent).mp hrun
          refine ⟨hversion, .inr ⟨?_, hdebug⟩⟩
          by_contra hload
          -- a plugin has been added although the uid cannot be loaded
          have hplugins := hsame fun cell' h => by
            rw [hcell] at h
            cases h
            exact .inr hload
          have hlen := congrArg List.length hplugins
          rw [List.length_append] at hlen
          exact absurd hlen (by simp)
        · intro hreg
          obtain ⟨-, hpresent' | ⟨hload, hdebug⟩⟩ := hreg cell hcell
          · exact absurd hpresent' hpresent
          · have hloadable := hload
            obtain ⟨root, entries, t', n', plugin, hroot, hentries, hy, huid⟩ := hload
            have hfind := findFromUid_iff.mpr ⟨root, entries, hroot, hentries, hy⟩
            have hrun := (process_absent hcell hversion hpresent).mpr
              ⟨plugin, t', n', hfind, hdebug, rfl, rfl⟩
            refine ⟨0, _, hrun, fun hnodup => ?_, fun hbad => ?_⟩
            · show (List.map Plugin.uid (s.plugins ++ [plugin])).Nodup
              rw [List.map_append, List.nodup_append]
              refine ⟨hnodup, List.nodup_singleton _, ?_⟩
              intro u hu v hv huv
              obtain ⟨p, hp, hpu⟩ := List.mem_map.mp hu
              rw [List.map_singleton, List.mem_singleton] at hv
              exact hpresent ⟨p, hp, by rw [hpu, huv, hv, huid]⟩
            · rcases hbad cell hcell with h | h
              · exact absurd hversion h
              · exact absurd hloadable h
    · refine iff_of_false ?_ fun hreg => hversion (hreg cell hcell).1
      rintro ⟨ret, s', hrun, -⟩
      rw [process_version hcell hversion] at hrun
      cases hrun

/-! ### Cleaning up -/

theorem smartlistRemoveLoop_subperm : ∀ (fuel i : ℕ) (l : List Plugin),
    (smartlistRemoveLoop id fuel i l).Subperm l := by
  intro fuel
  induction fuel with
  | zero =>
    intro i l
    exact List.Subperm.refl l
  | succ fuel ih =>
    intro i l
    rw [smartlistRemoveLoop]
    cases hget : l[i]? with
    | none => exact List.Subperm.refl l
    | some p =>
      dsimp only
      split_ifs
      · have hperm := swapRemove_perm hget
        exact (ih i _).trans (((List.sublist_cons_self p _).subperm).trans hperm.subperm)
      · exact ih (i + 1) l

/-- **Cleaning up** adds no plugin. -/
theorem nodup_pluginCleanupConn (h : s.uids.Nodup) (hstep : pluginCleanupConn s uid = .ok s') :
    s'.uids.Nodup := by
  rw [pluginCleanupConn] at hstep
  split at hstep
  · cases hstep
    exact h
  · obtain ⟨t, -, hstep⟩ := bind_eq_ok.mp hstep
    cases hstep
    obtain ⟨l, hperm, hsub⟩ := smartlistRemoveLoop_subperm _ 0 s.plugins
    exact (hperm.map Plugin.uid).nodup_iff.mp (h.sublist (hsub.map Plugin.uid))

end Cells

/-! ### Every run -/

/-- A plug cell on the circuit, or a call of `plugin_cleanup_conn`, also by the code of a plugin. -/
inductive PlugEvent where
  | plug (debug : Bool) (disk : PluginDisk) (payload : List UInt8)
  | cleanup (uid : ℕ)

def plugStep (circ : PlugCircuit) (s : PlugState) : PlugEvent → Step PlugState
  | .plug debug disk payload => do
      let (_, s) ← pluginProcessPlugCell debug circ disk s payload
      pure s
  | .cleanup uid => pluginCleanupConn s uid

def PlugEventRegular (circ : PlugCircuit) (s : PlugState) : PlugEvent → Prop
  | .plug debug disk payload => PlugCellRegular debug circ disk s payload
  | .cleanup _ => True

theorem nodup_plugStep {nChan : Bool} {s s' : PlugState} {e : PlugEvent} (h : s.uids.Nodup)
    (hregular : PlugEventRegular ⟨false, nChan⟩ s e) (hstep : plugStep ⟨false, nChan⟩ s e = .ok s') :
    s'.uids.Nodup := by
  cases e with
  | plug debug disk payload =>
    obtain ⟨ret, s₁, hrun, hnodup, -⟩ := (plugOk_iff debug nChan disk s payload).mpr hregular
    obtain ⟨⟨ret', s₂⟩, hrun', hs⟩ := bind_eq_ok.mp hstep
    rw [hrun] at hrun'
    cases hrun'
    cases hs
    exact hnodup h
  | cleanup uid => exact nodup_pluginCleanupConn h hstep

/-- **Plug cells on a relay's circuit**: which of them do what they should, and that the uids on the circuit
stay distinct over all of these, and over all cleanups. -/
theorem plugCells_iff (nChan : Bool) :
    (∀ debug disk s payload,
      PlugOk debug ⟨false, nChan⟩ disk s payload ↔ PlugCellRegular debug ⟨false, nChan⟩ disk s payload) ∧
    ∀ table next es s, Run (fun s e s' => PlugEventRegular ⟨false, nChan⟩ s e ∧
      plugStep ⟨false, nChan⟩ s e = .ok s') ⟨[], table, next⟩ es s → s.uids.Nodup := by
  refine ⟨fun debug disk s payload => plugOk_iff debug nChan disk s payload, fun table next es s hrun => ?_⟩
  exact hrun.invariant (I := fun s => s.uids.Nodup)
    (fun _ _ _ h hstep => nodup_plugStep h hstep.1 hstep.2) List.nodup_nil

def plugPayload : List UInt8 := [0, 0, 0, 0, 0, 0, 0, 0, 5, 0, 0]

/-- A plugins directory with one plugin, whose text is `memory 1` and `uid 5`. -/
def smallDisk : PluginDisk :=
  ⟨some [0x70], some [([0x61], .dir (some [([0x2e, 0x70, 0x6c, 0x75, 0x67, 0x69, 0x6e],
    some [0x6d, 0x65, 0x6d, 0x6f, 0x72, 0x79, 0x20, 0x31, 0x0a, 0x75, 0x69, 0x64, 0x20, 0x35, 0x0a])])
    fun _ => true)]⟩

/-- The plugin at the given address, and the next free one. -/
def pluggedState (addr : ℕ) : PlugState :=
  ⟨[⟨addr, [0x2e, 0x70, 0x6c, 0x75, 0x67, 0x69, 0x6e], 5, false, 1, []⟩], [], addr + 1⟩

theorem loadable_smallDisk {plugins : List Plugin} (addr : ℕ) (h : pluginHelperFindFromUidAndInit smallDisk 5 [] addr =
    .ok (some ⟨addr, [0x2e, 0x70, 0x6c, 0x75, 0x67, 0x69, 0x6e], 5, false, 1, []⟩, [], addr + 1)) :
    PlugCellRegular false ⟨false, true⟩ smallDisk ⟨plugins, [], addr⟩ plugPayload := by
  intro cell hcell
  have hversion : cell = ⟨0, 5, 0, none⟩ := Option.some.inj (hcell.symm.trans (by decide))
  subst hversion
  obtain ⟨root, entries, hroot, hentries, hy⟩ := findFromUid_iff.mp h
  exact ⟨rfl, .inr ⟨⟨root, entries, _, _, _, hroot, hentries, hy, rfl⟩, nofun⟩⟩

/-- The plugin is plugged into a circuit, which a second cell changes nothing of, then cleaned up and plugged in
again. -/
theorem plugCells_again : (pluggedState 1).uids.Nodup := by
  have hplug : plugStep ⟨false, true⟩ ⟨[], [], 0⟩ (.plug false smallDisk plugPayload) = .ok (pluggedState 0) := by
    decide +kernel
  have hsecond : plugStep ⟨false, true⟩ (pluggedState 0) (.plug false smallDisk plugPayload) =
      .ok (pluggedState 0) := by
    decide +kernel
  have hcleanup : plugStep ⟨false, true⟩ (pluggedState 0) (.cleanup 5) = .ok ⟨[], [], 1⟩ := by
    decide +kernel
  have hagain : plugStep ⟨false, true⟩ ⟨[], [], 1⟩ (.plug false smallDisk plugPayload) = .ok (pluggedState 1) := by
    decide +kernel
  refine (plugCells_iff true).2 [] 0 [.plug false smallDisk plugPayload, .plug false smallDisk plugPayload,
    .cleanup 5, .plug false smallDisk plugPayload] _ (.cons ⟨loadable_smallDisk 0 (by decide +kernel), hplug⟩
    (.cons ⟨fun cell hcell => ?_, hsecond⟩ (.cons ⟨trivial, hcleanup⟩
      (.cons ⟨loadable_smallDisk 1 (by decide +kernel), hagain⟩ (.nil _)))))
  have hversion : cell = ⟨0, 5, 0, none⟩ := Option.some.inj (hcell.symm.trans (by decide))
  subst hversion
  exact ⟨rfl, .inl ⟨_, List.mem_singleton_self _, rfl⟩⟩

def emptyDisk : PluginDisk := ⟨some [0x70], some []⟩

/-- **A cell with a uid that the relay does not have** makes an assertion fail. -/
theorem not_plugOk_unknown : ¬PlugOk false ⟨false, true⟩ emptyDisk ⟨[], [], 0⟩ plugPayload := by
  rintro ⟨ret, s', hrun, -⟩
  have hfault : fault? (pluginProcessPlugCell false ⟨false, true⟩ emptyDisk ⟨[], [], 0⟩ plugPayload) =
      some .assertion := by
    decide +kernel
  rw [hrun] at hfault
  cases hfault

end TorEbpf.Or
