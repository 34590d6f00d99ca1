import Mathlib.Data.List.Dedup
import TorEbpf.Lib.SwapRemove
import TorEbpf.Or.CreateCell

/-!
# Waiting for plugins

A create cell lists the plugins of a circuit.  `handle_plugin_offer_in_create_cell` of
`plugin_exchange.c` looks which of them are missing, `command_process_create_cell` of `command.c` goes
on with the circuit if none is and keeps its create cell if one is, and `mark_plugin_as_received` strikes
a plugin from the lists of all circuits and goes on with those whose list becomes empty.

* `awaits_of_run` — along every run, each call of `mark_plugin_as_received` takes one occurrence of the
  name from the list of a circuit.
* `released_iff` — so a circuit is let go by one call for each of its plugins exactly if no name is
  stored twice, which is if the list does not repeat a name behind one that is not just installed.
-/

namespace TorEbpf.Or

open TorEbpf.Lib

/-! ### The plugin directory -/

/-- The name of a plugin or of a directory entry. -/
abbrev Name := List UInt8

/-- `.name`, the directory of a plugin that was requested. -/
def hidden (name : Name) : Name := 0x2e :: name

/-- `PluginsDirectory`: what `readdir` lists.  No entry is listed twice or has a `/`. -/
structure PluginsDirectory where
  entries : List Name
  nodup : entries.Nodup
  slash : ∀ de ∈ entries, 0x2f ∉ de
  deriving DecidableEq

/-- The file system: `request d name` is the directory after `mkdir` of `.name` in it and `fopen` of the
file `.circ_id` there, `none` if that file cannot be opened. -/
structure FileSystem where
  request : PluginsDirectory → Name → Option PluginsDirectory
  keeps : ∀ {d name d'}, request d name = some d' → ∀ de ∈ d.entries, de ∈ d'.entries
  lists : ∀ {d name d'}, request d name = some d' → 0x2f ∉ name → hidden name ∈ d'.entries

/-! ### Offers -/

/-- The local variables of `handle_plugin_offer_in_create_cell`. -/
structure Offer where
  dir : PluginsDirectory
  missingPlugins : List Name
  toRequest : List Name

/-- One entry of the directory: `found` and the missing plugins. -/
def readEntry (name : Name) (s : Bool × List Name) (de : Name) : Bool × List Name :=
  if name = de then (true, s.2)
  else if hidden name = de then (true, s.2 ++ [name])
  else s

def offerPlugin (fs : FileSystem) (s : Offer) (name : Name) : Step Offer :=
  let (found, missingPlugins) := s.dir.entries.foldl (readEntry name) (false, s.missingPlugins)
  if found then pure { s with missingPlugins := missingPlugins }
  else
    match fs.request s.dir name with
    | some dir => pure ⟨dir, missingPlugins ++ [name], s.toRequest ++ [name]⟩
    | none => fault .nullPointer

/-- `handle_plugin_offer_in_create_cell`: the directory, the list that is stored in the circuit, if one
is, and the plugins that are requested from the peer. -/
def handlePluginOfferInCreateCell (fs : FileSystem) (dir : PluginsDirectory)
    (requiredPlugins : List UInt8) : Step (PluginsDirectory × Option (List Name) × List Name) := do
  if requiredPlugins.head? = some 0 then return (dir, none, [])
  else
    let inPayload ← smartListPluginsInPayload requiredPlugins
    let s ← inPayload.foldlM (offerPlugin fs) ⟨dir, [], []⟩
    return (s.dir, some s.missingPlugins, s.toRequest)

/-! ### The relay -/

/-- `circuit_t`; `continued` are the create cells that `continue_process_create_cell` was called with. -/
structure Circuit where
  missingPlugins : Option (List Name)
  savedCreateCell : Option CreateCell
  continued : List CreateCell
  deriving DecidableEq

/-- The missing plugins of a circuit; `NULL` is none. -/
def Circuit.missing (c : Circuit) : List Name := c.missingPlugins.getD []

/-- A relay: its plugin directory, the list of all circuits, and the requests it has sent. -/
structure Relay where
  dir : PluginsDirectory
  circuits : List Circuit
  requests : List (ℕ × List Name)
  deriving DecidableEq

/-- `continue_process_create_cell`: it reads the create cell. -/
def continueProcessCreateCell (c : Circuit) : Option CreateCell → Step Circuit
  | some cell => pure { c with continued := c.continued ++ [cell] }
  | none => fault .nullPointer

/-- The end of `command_process_create_cell`: a new circuit with its missing plugins is let go or has its
create cell saved. -/
def startCircuit (missingPlugins : Option (List Name)) (cell : CreateCell) : Step Circuit :=
  let circ : Circuit := ⟨missingPlugins, none, []⟩
  if circ.missing.length = 0 then continueProcessCreateCell circ (some cell)
  else pure { circ with savedCreateCell := some cell }

/-- `command_process_create_cell`, from the parsed create cell on: the circuit is added to the list. -/
def commandProcessCreateCell (fs : FileSystem) (s : Relay) (cell : CreateCell) : Step Relay := do
  let (dir, missingPlugins, toRequest) ← handlePluginOfferInCreateCell fs s.dir cell.plugins.val
  let circ ← startCircuit missingPlugins cell
  return {
    dir := dir
    circuits := s.circuits ++ [circ]
    requests :=
      if toRequest = [] then s.requests else s.requests ++ [(s.circuits.length, toRequest)] }

/-- The body of the loop of `mark_plugin_as_received`. -/
def markCircuit (pluginName : Name) (c : Circuit) : Step Circuit :=
  match c.missing.findIdx? (· == pluginName) with
  | none => pure c
  | some i =>
      let missingPlugins := swapRemove c.missing i
      let c' : Circuit := { c with missingPlugins := some missingPlugins }
      if missingPlugins.length = 0 then continueProcessCreateCell c' c.savedCreateCell else pure c'

def markPluginAsReceived (s : Relay) (pluginName : Name) : Step Relay := do
  let circuits ← s.circuits.mapM (markCircuit pluginName)
  return { s with circuits := circuits }

/-- What happens at a relay: a plugin is received, a create cell arrives, the plugin directory changes. -/
inductive Event where
  | mark (pluginName : Name)
  | create (cell : CreateCell)
  | disk (dir : PluginsDirectory)
  deriving DecidableEq

def Relay.step (fs : FileSystem) (s : Relay) : Event → Step Relay
  | .mark pluginName => markPluginAsReceived s pluginName
  | .create cell => commandProcessCreateCell fs s cell
  | .disk dir => pure { s with dir := dir }

def Relay.run (fs : FileSystem) (s : Relay) (events : List Event) : Step Relay :=
  events.foldlM (Relay.step fs) s

/-! ### Which plugins are missing -/

/-- A plugin is waited for: it was requested before, or it is not installed. -/
def Wanted (d : PluginsDirectory) (name : Name) : Prop :=
  hidden name ∈ d.entries ∨ name ∉ d.entries

/-- The directory behind a plugin of the list: one that is neither installed nor requested is
requested. -/
def dirAfter (fs : FileSystem) (d : PluginsDirectory) (name : Name) : Option PluginsDirectory :=
  if name ∈ d.entries ∨ hidden name ∈ d.entries then some d else fs.request d name

/-- **No repetition**: a name that is waited for does not occur again behind in the list. -/
def NotRepeated (fs : FileSystem) : PluginsDirectory → List Name → Prop
  | _, [] => True
  | d, name :: names =>
      (Wanted d name → name ∉ names) ∧ ∀ d', dirAfter fs d name = some d' → NotRepeated fs d' names

theorem hidden_ne (name : Name) : name ≠ hidden name := by
  intro h
  have hlen := congrArg List.length h
  rw [hidden, List.length_cons] at hlen
  omega

theorem foldl_readEntry {name : Name} (entries : List Name) (hnodup : entries.Nodup) :
    ∀ found missing, entries.foldl (readEntry name) (found, missing) =
      (found || decide (name ∈ entries ∨ hidden name ∈ entries),
        if hidden name ∈ entries then missing ++ [name] else missing) := by
  induction entries with
  | nil =>
    intro found missing
    simp
  | cons de entries ih =>
    intro found missing
    obtain ⟨hde, htail⟩ := List.nodup_cons.mp hnodup
    rw [List.foldl_cons, readEntry]
    by_cases h₁ : name = de
    · subst h₁
      rw [if_pos rfl, ih htail]
      simp [(hidden_ne name).symm]
    · rw [if_neg h₁]
      by_cases h₂ : hidden name = de
      · subst h₂
        rw [if_pos rfl, ih htail, if_neg hde]
        simp
      · rw [if_neg h₂, ih htail]
        simp [h₁, h₂]

/-- One plugin: what happens to the directory and to the list. -/
theorem offerPlugin_ok {fs : FileSystem} {s s' : Offer} {name : Name}
    (h : offerPlugin fs s name = .ok s') :
    dirAfter fs s.dir name = some s'.dir ∧
      ((Wanted s.dir name ∧ s'.missingPlugins = s.missingPlugins ++ [name]) ∨
        (¬Wanted s.dir name ∧ s'.missingPlugins = s.missingPlugins)) := by
  unfold offerPlugin at h
  rw [foldl_readEntry _ s.dir.nodup, Bool.false_or] at h
  dsimp only at h
  by_cases hfound : name ∈ s.dir.entries ∨ hidden name ∈ s.dir.entries
  · rw [if_pos (decide_eq_true hfound)] at h
    cases h
    refine ⟨if_pos hfound, ?_⟩
    by_cases hhidden : hidden name ∈ s.dir.entries
    · exact .inl ⟨.inl hhidden, if_pos hhidden⟩
    · have hname := hfound.resolve_right hhidden
      exact .inr ⟨by simp [Wanted, hhidden, hname], if_neg hhidden⟩
  · obtain ⟨hname, hhidden⟩ := not_or.mp hfound
    rw [if_neg (by rwa [decide_eq_true_eq]), if_neg hhidden] at h
    split at h
    · rename_i dir hdir
      cases h
      exact ⟨(if_neg hfound).trans hdir, .inl ⟨.inr hname, rfl⟩⟩
    · cases h

theorem mem_dirAfter {fs : FileSystem} {d d' : PluginsDirectory} {name : Name}
    (h : dirAfter fs d name = some d') : ∀ de ∈ d.entries, de ∈ d'.entries := by
  unfold dirAfter at h
  split at h
  · cases h
    exact fun _ hde => hde
  · exact fs.keeps h

/-- A name that is waited for whatever happens to the directory: it was requested, or it cannot be
listed. -/
def Stuck (d : PluginsDirectory) (name : Name) : Prop := hidden name ∈ d.entries ∨ 0x2f ∈ name

theorem Stuck.wanted {d : PluginsDirectory} {name : Name} (h : Stuck d name) : Wanted d name := by
  obtain hhidden | hslash := h
  · exact .inl hhidden
  · exact .inr fun hmem => d.slash name hmem hslash

theorem Stuck.after {fs : FileSystem} {d d' : PluginsDirectory} {name other : Name}
    (h : Stuck d name) (hd : dirAfter fs d other = some d') : Stuck d' name :=
  h.imp_left (mem_dirAfter hd _)

/-- Once a name was waited for, it is stuck. -/
theorem Wanted.stuck {fs : FileSystem} {d d' : PluginsDirectory} {name : Name} (h : Wanted d name)
    (hd : dirAfter fs d name = some d') : Stuck d' name := by
  by_cases hhidden : hidden name ∈ d.entries
  · exact .inl (mem_dirAfter hd _ hhidden)
  · have hname := h.resolve_left hhidden
    rw [dirAfter, if_neg (by simp [hhidden, hname])] at hd
    by_cases hslash : 0x2f ∈ name
    · exact .inr hslash
    · exact .inl (fs.lists hd hslash)

/-- **The loop over the list**: what it appends to the missing plugins. -/
theorem foldlM_offerPlugin {fs : FileSystem} (names : List Name) :
    ∀ {s s' : Offer}, names.foldlM (offerPlugin fs) s = .ok s' →
      ∃ added, s'.missingPlugins = s.missingPlugins ++ added ∧ (∀ name ∈ added, name ∈ names) ∧
        (∀ name ∈ names, Stuck s.dir name → name ∈ added) ∧
        (added.Nodup ↔ NotRepeated fs s.dir names) := by
  induction names with
  | nil =>
    intro s s' h
    cases h
    refine ⟨[], (List.append_nil _).symm, fun _ h => h, fun _ h => (by cases h), ?_⟩
    exact ⟨fun _ => trivial, fun _ => List.nodup_nil⟩
  | cons name names ih =>
    intro s s' h
    rw [List.foldlM_cons, bind_eq_ok] at h
    obtain ⟨s₁, hstep, h⟩ := h
    obtain ⟨hdir, hcases⟩ := offerPlugin_ok hstep
    obtain ⟨added, hmissing, hsub, hstuck, hnodup⟩ := ih h
    have hafter : (∀ d', dirAfter fs s.dir name = some d' → NotRepeated fs d' names) ↔
        NotRepeated fs s₁.dir names := by
      constructor
      · intro hall
        exact hall s₁.dir hdir
      · intro hrest d' hd'
        cases hdir.symm.trans hd'
        exact hrest
    obtain ⟨hwanted, hadd⟩ | ⟨hnot, hadd⟩ := hcases
    · -- the name is appended; it is stuck from here on, so it is appended wherever it occurs again
      have hagain : name ∈ added ↔ name ∈ names :=
        ⟨hsub name, fun hmem => hstuck name hmem (hwanted.stuck hdir)⟩
      refine ⟨name :: added, by rw [hmissing, hadd, List.append_assoc]; rfl, ?_, ?_, ?_⟩
      · intro n hn
        obtain rfl | hn := List.mem_cons.mp hn
        · exact List.mem_cons_self
        · exact List.mem_cons_of_mem _ (hsub n hn)
      · intro n hn hs
        obtain rfl | hn := List.mem_cons.mp hn
        · exact List.mem_cons_self
        · exact List.mem_cons_of_mem _ (hstuck n hn (hs.after hdir))
      · rw [List.nodup_cons, hnodup, hagain, NotRepeated, hafter]
        exact and_congr_left fun _ => ⟨fun h _ => h, fun h => h hwanted⟩
    · refine ⟨added, by rw [hmissing, hadd], ?_, ?_, ?_⟩
      · intro n hn
        exact List.mem_cons_of_mem _ (hsub n hn)
      · intro n hn hs
        obtain rfl | hn := List.mem_cons.mp hn
        · exact absurd hs.wanted hnot
        · exact hstuck n hn (hs.after hdir)
      · rw [hnodup, NotRepeated, hafter]
        exact ⟨fun h => ⟨fun hw => absurd hw hnot, h⟩, And.right⟩

/-! ### Striking a plugin -/

/-- What striking a plugin from the list of a circuit can do. -/
theorem markCircuit_cases {name : Name} {c c' : Circuit} (h : markCircuit name c = .ok c') :
    (name ∉ c.missing ∧ c' = c) ∨
    (∃ i, c.missing[i]? = some name ∧ c'.missing = swapRemove c.missing i ∧
      c'.savedCreateCell = c.savedCreateCell ∧
      ((c'.missing ≠ [] ∧ c'.continued = c.continued) ∨
        (c'.missing = [] ∧ ∃ cell, c.savedCreateCell = some cell ∧
          c'.continued = c.continued ++ [cell]))) := by
  unfold markCircuit at h
  split at h
  · rename_i hnone
    cases h
    refine .inl ⟨fun hmem => ?_, rfl⟩
    exact absurd (List.findIdx?_eq_none_iff.mp hnone name hmem) (by simp)
  · rename_i i hi
    have hget : c.missing[i]? = some name := by
      obtain ⟨hlt, hname, _⟩ := List.findIdx?_eq_some_iff_getElem.mp hi
      exact List.getElem?_eq_some_iff.mpr ⟨hlt, beq_iff_eq.mp hname⟩
    dsimp only at h
    by_cases hempty : swapRemove c.missing i = []
    · rw [if_pos (List.length_eq_zero_iff.mpr hempty)] at h
      cases hsaved : c.savedCreateCell with
      | none =>
        rw [hsaved] at h
        cases h
      | some cell =>
        rw [hsaved] at h
        cases h
        exact .inr ⟨i, hget, rfl, rfl, .inr ⟨hempty, cell, rfl, rfl⟩⟩
    · rw [if_neg (by rwa [List.length_eq_zero_iff])] at h
      cases h
      exact .inr ⟨i, hget, rfl, rfl, .inl ⟨hempty, rfl⟩⟩

/-- **One occurrence** of the name is struck. -/
theorem count_markCircuit {name : Name} {c c' : Circuit} (h : markCircuit name c = .ok c')
    (n : Name) : c'.missing.count n = c.missing.count n - if name = n then 1 else 0 := by
  obtain ⟨hmem, rfl⟩ | ⟨i, hget, hmissing, _⟩ := markCircuit_cases h
  · by_cases hn : name = n
    · rw [← hn, List.count_eq_zero_of_not_mem hmem, Nat.zero_sub]
    · rw [if_neg hn, Nat.sub_zero]
  · rw [hmissing, count_swapRemove hget]
    simp only [beq_iff_eq]

/-- A circuit that was created with a cell: it was let go, once and with that cell, if no plugin is
missing, and else it has the cell saved. -/
def Circuit.Awaits (c : Circuit) (cell : CreateCell) : Prop :=
  (c.missing = [] ∧ c.continued = [cell]) ∨
    (c.missing ≠ [] ∧ c.continued = [] ∧ c.savedCreateCell = some cell)

theorem Circuit.Awaits.mark {name : Name} {c c' : Circuit} {cell : CreateCell} (hc : c.Awaits cell)
    (h : markCircuit name c = .ok c') : c'.Awaits cell := by
  obtain ⟨_, rfl⟩ | ⟨i, hget, _, hsaved, hlist⟩ := markCircuit_cases h
  · exact hc
  · obtain ⟨hempty, _⟩ | ⟨_, hcontinued, hcell⟩ := hc
    · rw [hempty] at hget
      cases hget
    · obtain ⟨hne, hsame⟩ | ⟨hempty, cell', hcell', hcontinued'⟩ := hlist
      · exact .inr ⟨hne, hsame.trans hcontinued, hsaved.trans hcell⟩
      · cases hcell.symm.trans hcell'
        exact .inl ⟨hempty, by rw [hcontinued', hcontinued, List.nil_append]⟩

/-! ### Runs -/

/-- Every circuit that waits has its create cell saved. -/
def Relay.Valid (s : Relay) : Prop :=
  ∀ c ∈ s.circuits, c.missing ≠ [] → c.savedCreateCell ≠ none

theorem markPluginAsReceived_ok {s s' : Relay} {name : Name}
    (h : markPluginAsReceived s name = .ok s') :
    List.Forall₂ (fun c c' => markCircuit name c = .ok c') s.circuits s'.circuits := by
  unfold markPluginAsReceived at h
  obtain ⟨circuits, hmap, h⟩ := bind_eq_ok.mp h
  cases h
  exact forall₂_of_mapM _ hmap

/-- What an offer does: a circuit is added that awaits the cell. -/
theorem commandProcessCreateCell_ok {fs : FileSystem} {s s' : Relay} {cell : CreateCell}
    (h : commandProcessCreateCell fs s cell = .ok s') :
    ∃ c, s'.circuits = s.circuits ++ [c] ∧ c.Awaits cell ∧
      ∃ dir toRequest, handlePluginOfferInCreateCell fs s.dir cell.plugins.val
        = .ok (dir, c.missingPlugins, toRequest) := by
  unfold commandProcessCreateCell at h
  obtain ⟨⟨dir, missingPlugins, toRequest⟩, hoffer, h⟩ := bind_eq_ok.mp h
  obtain ⟨c, hc, h⟩ := bind_eq_ok.mp h
  cases h
  refine ⟨c, rfl, ?_⟩
  unfold startCircuit at hc
  dsimp only at hc
  split at hc
  · rename_i hlen
    cases hc
    exact ⟨.inl ⟨List.length_eq_zero_iff.mp hlen, rfl⟩, dir, toRequest, hoffer⟩
  · rename_i hlen
    cases hc
    exact ⟨.inr ⟨fun hnil => hlen (List.length_eq_zero_iff.mpr hnil), rfl, rfl⟩, dir, toRequest,
      hoffer⟩

/-- **One event**, seen from a circuit that awaits a cell. -/
theorem awaits_of_step {fs : FileSystem} {s s' : Relay} {e : Event} {k : ℕ} {c : Circuit}
    {cell : CreateCell} (hk : s.circuits[k]? = some c) (hc : c.Awaits cell)
    (h : s.step fs e = .ok s') :
    ∃ c', s'.circuits[k]? = some c' ∧ c'.Awaits cell ∧
      ∀ n, c'.missing.count n = c.missing.count n - if e = .mark n then 1 else 0 := by
  cases e with
  | mark name =>
    have hall := markPluginAsReceived_ok h
    obtain ⟨hlt, rfl⟩ := List.getElem?_eq_some_iff.mp hk
    have hlt' : k < s'.circuits.length := hall.length_eq ▸ hlt
    have hmark : markCircuit name s.circuits[k] = .ok s'.circuits[k] :=
      List.Forall₂.get hall hlt hlt'
    refine ⟨_, List.getElem?_eq_getElem hlt', hc.mark hmark, fun n => ?_⟩
    rw [count_markCircuit hmark]
    simp only [Event.mark.injEq]
  | create cell' =>
    obtain ⟨c', hcircuits, _⟩ := commandProcessCreateCell_ok h
    have hlt : k < s.circuits.length := (List.getElem?_eq_some_iff.mp hk).1
    refine ⟨c, ?_, hc, fun n => ?_⟩
    · rw [hcircuits, List.getElem?_append_left hlt, hk]
    · rw [if_neg (fun he => (by cases he)), Nat.sub_zero]
  | disk dir =>
    cases h
    refine ⟨c, hk, hc, fun n => ?_⟩
    rw [if_neg (fun he => (by cases he)), Nat.sub_zero]

/-- **Runs**: every call takes one occurrence of its name. -/
theorem awaits_of_run {fs : FileSystem} {k : ℕ} {cell : CreateCell} (events : List Event) :
    ∀ {s s' : Relay} {c : Circuit}, s.circuits[k]? = some c → c.Awaits cell →
      s.run fs events = .ok s' →
      ∃ c', s'.circuits[k]? = some c' ∧ c'.Awaits cell ∧
        ∀ n, c'.missing.count n = c.missing.count n - events.count (.mark n) := by
  induction events with
  | nil =>
    intro s s' c hk hc h
    cases h
    exact ⟨c, hk, hc, fun n => by rw [List.count_nil, Nat.sub_zero]⟩
  | cons e events ih =>
    intro s s' c hk hc h
    unfold Relay.run at h
    rw [List.foldlM_cons, bind_eq_ok] at h
    obtain ⟨s₁, hstep, h⟩ := h
    obtain ⟨c₁, hk₁, hc₁, hcount₁⟩ := awaits_of_step hk hc hstep
    obtain ⟨c', hk', hc', hcount⟩ := ih hk₁ hc₁ h
    refine ⟨c', hk', hc', fun n => ?_⟩
    rw [hcount, hcount₁, List.count_cons, Nat.sub_sub]
    simp only [beq_iff_eq, Nat.add_comm]

/-- A circuit whose create cell is saved if it waits can be marked. -/
theorem markCircuit_ok {name : Name} {c : Circuit}
    (hc : c.missing ≠ [] → c.savedCreateCell ≠ none) : ∃ c', markCircuit name c = .ok c' := by
  unfold markCircuit
  split
  · exact ⟨c, rfl⟩
  · rename_i i hi
    dsimp only
    split
    · cases hsaved : c.savedCreateCell with
      | none =>
        obtain ⟨hlt, _⟩ := List.findIdx?_eq_some_iff_getElem.mp hi
        exact absurd hsaved (hc (List.ne_nil_of_length_pos (by omega)))
      | some cell => exact ⟨_, rfl⟩
    · exact ⟨_, rfl⟩

/-- **The invariant of a relay.** -/
theorem Relay.Valid.step {fs : FileSystem} {s s' : Relay} {e : Event} (hs : s.Valid)
    (h : s.step fs e = .ok s') : s'.Valid := by
  cases e with
  | mark name =>
    have hall := markPluginAsReceived_ok h
    intro c' hc' hne
    obtain ⟨k, hlt', rfl⟩ := List.getElem_of_mem hc'
    have hlt : k < s.circuits.length := hall.length_eq ▸ hlt'
    have hmark : markCircuit name s.circuits[k] = .ok s'.circuits[k] :=
      List.Forall₂.get hall hlt hlt'
    have hold := hs s.circuits[k] (List.getElem_mem hlt)
    obtain ⟨_, heq⟩ | ⟨i, hget, _, hsaved, _⟩ := markCircuit_cases hmark
    · rw [heq] at hne ⊢
      exact hold hne
    · rw [hsaved]
      refine hold fun hnil => ?_
      rw [hnil] at hget
      cases hget
  | create cell =>
    obtain ⟨c, hcircuits, hc, _⟩ := commandProcessCreateCell_ok h
    intro c' hc' hne
    rw [hcircuits, List.mem_append, List.mem_singleton] at hc'
    obtain hc' | rfl := hc'
    · exact hs c' hc' hne
    · obtain ⟨hnil, _⟩ | ⟨_, _, hsaved⟩ := hc
      · exact absurd hnil hne
      · rw [hsaved]
        exact Option.some_ne_none cell
  | disk dir =>
    cases h
    exact hs

theorem run_marks_ok (fs : FileSystem) (names : List Name) :
    ∀ {s : Relay}, s.Valid → ∃ s', s.run fs (names.map .mark) = .ok s' := by
  induction names with
  | nil =>
    intro s _
    exact ⟨s, rfl⟩
  | cons name names ih =>
    intro s hs
    obtain ⟨circuits, hmap⟩ : ∃ circuits, s.circuits.mapM (markCircuit name) = .ok circuits :=
      mapM_ok_of_forall s.circuits fun c hc => markCircuit_ok (hs c hc)
    have hstep : s.step fs (.mark name) = .ok { s with circuits := circuits } := by
      rw [Relay.step, markPluginAsReceived, hmap]
      rfl
    obtain ⟨s', hrun⟩ := ih (hs.step hstep)
    refine ⟨s', ?_⟩
    rw [List.map_cons, Relay.run, List.foldlM_cons, hstep]
    exact hrun

/-! ### No circuit waits for ever -/

/-- The circuit at `k` waits for nothing and was let go once, with its create cell. -/
def Relay.Released (s : Relay) (k : ℕ) (cell : CreateCell) : Prop :=
  ∃ c, s.circuits[k]? = some c ∧ c.missing = [] ∧ c.continued = [cell]

theorem missing_of_offer {fs : FileSystem} {d dir : PluginsDirectory} {payload : List UInt8}
    {missingPlugins : Option (List Name)} {toRequest names : List Name}
    (hnames : smartListPluginsInPayload payload = .ok names)
    (h : handlePluginOfferInCreateCell fs d payload = .ok (dir, missingPlugins, toRequest)) :
    (∀ name ∈ missingPlugins.getD [], name ∈ names) ∧
      ((missingPlugins.getD []).Nodup ↔ NotRepeated fs d names) := by
  unfold handlePluginOfferInCreateCell at h
  split at h
  · rename_i hhead
    cases h
    have hnil : names = [] := by
      obtain ⟨rest, rfl⟩ : ∃ rest, payload = 0 :: rest := List.head?_eq_some_iff.mp hhead
      cases hnames
      rfl
    subst hnil
    exact ⟨fun _ hn => hn, fun _ => trivial, fun _ => List.nodup_nil⟩
  · rw [hnames, ok_bind, bind_eq_ok] at h
    obtain ⟨s, hloop, h⟩ := h
    cases h
    obtain ⟨added, hmissing, hsub, _, hnodup⟩ := foldlM_offerPlugin names hloop
    rw [List.nil_append] at hmissing
    rw [Option.getD_some, hmissing]
    exact ⟨hsub, hnodup⟩

/-- **When no circuit waits for ever.**  After an offer, however the run goes on: once every plugin of the
list was received, the circuit is let go, exactly if no name that is waited for is repeated. -/
theorem released_iff (fs : FileSystem) {s s₁ : Relay} {cell : CreateCell} {names : List Name}
    (hs : s.Valid) (hnames : smartListPluginsInPayload cell.plugins.val = .ok names)
    (h : commandProcessCreateCell fs s cell = .ok s₁) :
    (∀ events s₂, s₁.run fs events = .ok s₂ → (∀ name ∈ names, .mark name ∈ events) →
      s₂.Released s.circuits.length cell) ↔ NotRepeated fs s.dir names := by
  obtain ⟨c, hcircuits, hc, dir, toRequest, hoffer⟩ := commandProcessCreateCell_ok h
  obtain ⟨hsub, hnodup⟩ := missing_of_offer hnames hoffer
  have hk : s₁.circuits[s.circuits.length]? = some c := by
    rw [hcircuits, List.getElem?_concat_length]
  rw [← hnodup]
  constructor
  · intro hall
    -- one call for each name: what is stored twice is left
    have hs₁ : s₁.Valid := hs.step (e := .create cell) h
    obtain ⟨s₂, hrun⟩ := run_marks_ok fs names.dedup hs₁
    have hmarks : ∀ name ∈ names, Event.mark name ∈ names.dedup.map Event.mark := fun name hn =>
      List.mem_map_of_mem (List.mem_dedup.mpr hn)
    obtain ⟨c₂, hk₂, hempty, _⟩ := hall _ s₂ hrun hmarks
    obtain ⟨c', hk', _, hcount⟩ := awaits_of_run _ hk hc hrun
    cases hk₂.symm.trans hk'
    refine List.nodup_iff_count_le_one.mpr fun n => ?_
    have hn := hcount n
    have hinj : Function.Injective Event.mark := fun _ _ heq => Event.mark.inj heq
    have hone : names.dedup.count n ≤ 1 := List.nodup_iff_count_le_one.mp names.nodup_dedup n
    rw [hempty, List.count_nil, List.count_map_of_injective _ _ hinj] at hn
    show c.missing.count n ≤ 1
    omega
  · intro hnd events s₂ hrun hmarks
    obtain ⟨c', hk', hc', hcount⟩ := awaits_of_run _ hk hc hrun
    have hempty : c'.missing = [] := by
      refine List.eq_nil_iff_forall_not_mem.mpr fun n hn => ?_
      have hpos := List.count_pos_iff.mpr hn
      have hle : c.missing.count n ≤ 1 := List.nodup_iff_count_le_one.mp hnd n
      have hmem : n ∈ c.missing := List.count_pos_iff.mp (by have := hcount n; omega)
      have hcalled := List.count_pos_iff.mpr (hmarks n (hsub n hmem))
      have := hcount n
      omega
    obtain ⟨_, hcontinued⟩ | ⟨hne, _⟩ := hc'
    · exact ⟨c', hk', hempty, hcontinued⟩
    · exact absurd hempty hne

def PluginsDirectory.add (d : PluginsDirectory) (de : Name) (hslash : 0x2f ∉ de) :
    PluginsDirectory where
  entries := d.entries.insert de
  nodup := d.nodup.insert
  slash := by
    intro x hx
    obtain rfl | hx := List.mem_insert_iff.mp hx
    · exact hslash
    · exact d.slash x hx

/-- A file system where every name without a `/` can be requested. -/
def plainFileSystem : FileSystem where
  request d name := if h : 0x2f ∈ name then none else some (d.add (hidden name) (by simpa [hidden]))
  keeps := by
    intro d name d' hd de hde
    split at hd
    · cases hd
    · cases hd
      exact List.mem_insert_of_mem hde
  lists := by
    intro d name d' hd hslash
    rw [dif_neg hslash] at hd
    cases hd
    exact List.mem_insert_self

/-- A relay without plugins and circuits: `readdir` lists `.` and `..`. -/
def freshRelay : Relay := ⟨⟨[[0x2e], [0x2e, 0x2e]], by decide, by decide⟩, [], []⟩

def offerCell (plugins : List UInt8) : CreateCell where
  cellType := cellCreateFast
  handshakeType := handshakeFast
  handshakeLen := createFastLen
  onionskin := Bytes.pad arraySize []
  pluginListLen := UInt16.ofNat plugins.length
  plugins := Bytes.pad arraySize plugins

/-- The plugins `a` and `b`. -/
def twoCell : CreateCell := offerCell [0x61, 0x0a, 0x62]

/-- The relay that was offered `a` and `b`: it requests both. -/
def twoOffered : Relay where
  dir := (freshRelay.dir.add [0x2e, 0x61] (by decide)).add [0x2e, 0x62] (by decide)
  circuits := [⟨some [[0x61], [0x62]], some twoCell, []⟩]
  requests := [(0, [[0x61], [0x62]])]

theorem released_twoOffered :
    freshRelay.Valid ∧ smartListPluginsInPayload twoCell.plugins.val = .ok [[0x61], [0x62]] ∧
      commandProcessCreateCell plainFileSystem freshRelay twoCell = .ok twoOffered ∧
      ∀ events s₂, twoOffered.run plainFileSystem events = .ok s₂ →
        (∀ name ∈ [[0x61], [0x62]], .mark name ∈ events) → s₂.Released 0 twoCell := by
  have hvalid : freshRelay.Valid := fun _ hc => absurd hc List.not_mem_nil
  have hnames : smartListPluginsInPayload twoCell.plugins.val = .ok [[0x61], [0x62]] := by
    decide +kernel
  have hoffer : commandProcessCreateCell plainFileSystem freshRelay twoCell = .ok twoOffered := by
    decide +kernel
  refine ⟨hvalid, hnames, hoffer, (released_iff plainFileSystem hvalid hnames hoffer).mpr ?_⟩
  exact ⟨fun _ => by decide, fun _ _ => ⟨fun _ => List.not_mem_nil, fun _ _ => trivial⟩⟩

/-- The plugin `a`, twice. -/
def repeatedCell : CreateCell := offerCell [0x61, 0x0a, 0x61]

/-- The relay that was offered `a` twice: it requests it once and stores it twice. -/
def repeatedOffered : Relay where
  dir := freshRelay.dir.add [0x2e, 0x61] (by decide)
  circuits := [⟨some [[0x61], [0x61]], some repeatedCell, []⟩]
  requests := [(0, [[0x61]])]

/-- **A repeated name**: the plugin that was requested is received, and the circuit still waits. -/
theorem not_released_repeatedOffered :
    smartListPluginsInPayload repeatedCell.plugins.val = .ok [[0x61], [0x61]] ∧
      commandProcessCreateCell plainFileSystem freshRelay repeatedCell = .ok repeatedOffered ∧
      ¬∀ events s₂, repeatedOffered.run plainFileSystem events = .ok s₂ →
        (∀ name ∈ [[0x61], [0x61]], .mark name ∈ events) → s₂.Released 0 repeatedCell := by
  refine ⟨by decide +kernel, by decide +kernel, ?_⟩
  intro hall
  have hrun : repeatedOffered.run plainFileSystem [.mark [0x61]] = .ok { repeatedOffered with
      circuits := [⟨some [[0x61]], some repeatedCell, []⟩] } := by
    decide +kernel
  obtain ⟨c, hc, hempty, _⟩ := hall _ _ hrun (by decide)
  cases hc
  cases hempty

end TorEbpf.Or
