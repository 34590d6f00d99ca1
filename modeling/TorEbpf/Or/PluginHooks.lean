import Mathlib
import TorEbpf.Lib.Events
import TorEbpf.Lib.Keyed
import TorEbpf.Or.PluginText

/-!
# The table of hooks

Plugins come and go, and `plugin_map_ht` should hold the entry points of those system-wide plugins that
are there.  An entry is put in with what its line says.  It is taken out by what `ep->info` says, and that
is filled in only if the plugin was system-wide when the line was read.

* `hookStep` — loading a plugin from any text, and unplugging one;
* `pluginUnplug_perm` — taking a plugin out takes out its own entries if its cleared keys are nobody else's;
* `insertLines_building`, `insertLines_late` — what the lines of a text do to the table, and which entry
  points they leave with a cleared key;
* `hookIntegrity_of_run` — the table in every state of every run in which no cleared key is another plugin's.
-/

namespace TorEbpf.Or

open TorEbpf.Lib

/-! ### Runs -/

/-- The table, the plugins that are loaded, and the next free address. -/
structure HookState where
  table : List EntryPointMap
  loaded : List Plugin
  next : ℕ
  deriving DecidableEq, Repr

def HookState.init : HookState := ⟨[], [], 0⟩

/-- A call of `plugin_insert_transaction`, with the file, and with which of the code can be loaded; or a call
of `plugin_unplug`. -/
inductive HookEvent where
  | load (elf : ℕ → Bool) (dirname filename : Name) (file : Option (List UInt8)) (lookingFor : ℕ)
  | unplug (id : ℕ)

/-- One event; `plugin_unplug` is called for plugins that are loaded. -/
def hookStep (s : HookState) : HookEvent → Step HookState
  | .load elf dirname filename file lookingFor => do
      let (t, r) ← pluginInsertTransaction elf dirname filename file lookingFor s.next s.table
      pure ⟨t, r.toList ++ s.loaded, s.next + 1⟩
  | .unplug id =>
      match lookup Plugin.id id s.loaded with
      | none => pure s
      | some p => do
          let t ← pluginUnplug s.table p
          pure { s with table := t, loaded := remove Plugin.id id s.loaded }

theorem run_of_foldlM {s s' : HookState} {es : List HookEvent} (h : es.foldlM hookStep s = .ok s') :
    Run (fun s e s' => hookStep s e = .ok s') s es s' := by
  induction es generalizing s with
  | nil =>
    cases h
    exact .nil _
  | cons e es ih =>
    rw [List.foldlM_cons] at h
    obtain ⟨s₁, hstep, h⟩ := bind_eq_ok.mp h
    exact .cons hstep (ih h)

/-! ### The table as it should be -/

/-- The key under which an entry point is looked for when it is taken out. -/
def EntryPoint.key (ep : EntryPoint) : EntryKey := ep.info.key ep.entryName

/-- The entry point is in the table: its `info` has been filled in. -/
def EntryPoint.inserted (ep : EntryPoint) : Bool := ep.info.entryName.isSome

def hooksOf (p : Plugin) : List EntryPointMap :=
  (p.entryPoints.zipIdx.filter fun x => x.1.inserted).map fun x => ⟨x.1.key, p.id, x.2⟩

/-- **Integrity**: the table holds exactly the entries that the loaded plugins have inserted; each of them
belongs to a system-wide plugin that is loaded, and to one of its entry points. -/
structure Integrity (s : HookState) : Prop where
  exact : s.table.Perm (s.loaded.flatMap hooksOf)
  refers : ∀ e ∈ s.table, ∃ p ∈ s.loaded, p.id = e.plugin ∧ p.isSystemWide = true ∧
    ∃ ep, p.entryPoints[e.entryPoint]? = some ep ∧ ep.key = e.key

/-- No cleared key of the plugin is in the table, for another plugin. -/
def NoClash (t : List EntryPointMap) (p : Plugin) : Prop :=
  p.isSystemWide = true → ∀ ep ∈ p.entryPoints, ep.inserted = false →
    ∀ e ∈ t, e.plugin ≠ p.id → e.key ≠ ep.key

/-- The lines that stand before the first line that makes the plugin system-wide. -/
def lateLines (lines : List Name) : List Name :=
  if lines.any systemWideWord.isPrefixOf then lines.takeWhile fun line => !systemWideWord.isPrefixOf line
  else []

/-- Every entry line is accepted and its code can be loaded, or no cleared key for a line before the plugin
is system-wide is in the table. -/
def LoadSafe (elf : ℕ → Bool) (dirname : Name) (lines : List Name) (t : List EntryPointMap) : Prop :=
  (∀ i line, lines[i]? = some line → systemWideWord.isPrefixOf line = false →
    (∃ r, entryOfLine dirname line = .ok r) ∧ elf i = true) ∨
  ∀ line ∈ lateLines lines, ∀ info elfpath name, entryOfLine dirname line = .ok (info, elfpath) →
    info.entryName = some name → ∀ e ∈ t, e.key ≠ EntryInfo.zero.key name

def EventSafe (s : HookState) : HookEvent → Prop
  | .load elf dirname _ file _ =>
      ∀ text, file = some text → LoadSafe elf dirname ((linesOf text).drop 2) s.table
  | .unplug id => ∀ p ∈ s.loaded, p.id = id → NoClash s.table p

/-! ### Taking a plugin out -/

section Unplug

variable {t t' T : List EntryPointMap} {p : Plugin} {ep : EntryPoint}

theorem mem_hooksOf {e : EntryPointMap} : e ∈ hooksOf p ↔
    ∃ ep, p.entryPoints[e.entryPoint]? = some ep ∧ ep.inserted = true ∧ e.key = ep.key ∧ e.plugin = p.id := by
  rw [hooksOf, List.mem_map]
  constructor
  · rintro ⟨⟨ep, i⟩, hx, rfl⟩
    obtain ⟨hmem, hins⟩ := List.mem_filter.mp hx
    exact ⟨ep, List.mem_zipIdx_iff_getElem?.mp hmem, hins, rfl, rfl⟩
  · rintro ⟨ep, hget, hins, hkey, hid⟩
    refine ⟨(ep, e.entryPoint), List.mem_filter.mpr ⟨List.mem_zipIdx_iff_getElem?.mpr hget, hins⟩, ?_⟩
    cases e
    cases hkey
    cases hid
    rfl

theorem exists_hook_of_inserted (hep : ep ∈ p.entryPoints) (hins : ep.inserted = true) :
    ∃ e ∈ hooksOf p, e.key = ep.key := by
  obtain ⟨i, hi⟩ := List.getElem?_of_mem hep
  exact ⟨⟨ep.key, p.id, i⟩, mem_hooksOf.mpr ⟨ep, hi, hins, rfl, rfl⟩, rfl⟩

/-- What is left in the table: the entries with none of the keys. -/
theorem pluginUnplug_eq (hkeyed : Keyed EntryPointMap.key t) (hwide : p.isSystemWide = true)
    (h : pluginUnplug t p = .ok t') : t' = t.filter fun e => e.key ∉ p.entryPoints.map EntryPoint.key := by
  rw [pluginUnplug, if_pos hwide] at h
  revert h
  generalize p.entryPoints = eps
  induction eps generalizing t with
  | nil =>
    intro h
    cases h
    rw [List.filter_eq_self.mpr]
    simp
  | cons ep eps ih =>
    intro h
    rw [List.foldlM_cons] at h
    obtain ⟨t₁, hfirst, h⟩ := bind_eq_ok.mp h
    rw [pluginMapEntrypointRemove, mapRemove_eq] at hfirst
    split_ifs at hfirst
    · cases hfirst
      rw [eraseP_eq_remove hkeyed] at h
      rw [ih hkeyed.remove h, remove, List.filter_filter]
      refine List.filter_congr fun e _ => ?_
      rw [List.map_cons, ← Bool.decide_and]
      refine decide_eq_decide.mpr ?_
      rw [List.mem_cons, not_or]
      exact And.comm
    · cases hfirst

theorem pluginUnplug_keyed (hkeyed : Keyed EntryPointMap.key t) (h : pluginUnplug t p = .ok t') :
    Keyed EntryPointMap.key t' := by
  cases hwide : p.isSystemWide with
  | false =>
    rw [pluginUnplug, hwide] at h
    cases h
    exact hkeyed
  | true =>
    rw [pluginUnplug_eq hkeyed hwide h]
    exact hkeyed.sublist (List.filter_sublist.map EntryPointMap.key)

/-- **Taking a plugin out** takes out its own entries, if no other plugin has one of its keys. -/
theorem pluginUnplug_perm (hperm : t.Perm (hooksOf p ++ T)) (hkeyed : Keyed EntryPointMap.key t)
    (hnone : p.isSystemWide = false → hooksOf p = [])
    (hclash : p.isSystemWide = true → ∀ ep ∈ p.entryPoints, ep.inserted = false → ∀ e ∈ T, e.key ≠ ep.key)
    (h : pluginUnplug t p = .ok t') : t'.Perm T := by
  cases hwide : p.isSystemWide with
  | false =>
    rw [pluginUnplug, hwide] at h
    cases h
    rwa [hnone hwide, List.nil_append] at hperm
  | true =>
    rw [pluginUnplug_eq hkeyed hwide h]
    have hfilter := hperm.filter fun e => e.key ∉ p.entryPoints.map EntryPoint.key
    have hown : (hooksOf p).filter (fun e => e.key ∉ p.entryPoints.map EntryPoint.key) = [] := by
      rw [List.filter_eq_nil_iff]
      intro e he
      obtain ⟨ep, hget, -, hkey, -⟩ := mem_hooksOf.mp he
      have hmem : e.key ∈ p.entryPoints.map EntryPoint.key := by
        rw [hkey]
        exact List.mem_map_of_mem (List.mem_of_getElem? hget)
      simpa using hmem
    have hother : T.filter (fun e => e.key ∉ p.entryPoints.map EntryPoint.key) = T := by
      rw [List.filter_eq_self]
      intro e he
      refine decide_eq_true fun hmem => ?_
      obtain ⟨ep, hep, hkey⟩ := List.mem_map.mp hmem
      cases hins : ep.inserted with
      | false => exact hclash hwide ep hep hins e he hkey.symm
      | true =>
        obtain ⟨e', he', hkey'⟩ := exists_hook_of_inserted hep hins
        have hnodup : ((hooksOf p ++ T).map EntryPointMap.key).Nodup := hkeyed.perm hperm
        rw [List.map_append, List.nodup_append] at hnodup
        exact hnodup.2.2 _ (List.mem_map_of_mem he') _ (List.mem_map_of_mem he) (hkey'.trans hkey)
    rwa [List.filter_append, hown, hother, List.nil_append] at hfilter

end Unplug

/-! ### Loading a plugin -/

/-- While a plugin is built: the table holds what it has inserted, and what was there before. -/
structure Building (T t : List EntryPointMap) (p : Plugin) : Prop where
  perm : t.Perm (hooksOf p ++ T)
  keyed : Keyed EntryPointMap.key t
  none : p.isSystemWide = false → hooksOf p = []

section Load

variable {dirname line : Name} {elf : ℕ → Bool} {T t t' : List EntryPointMap} {p p' : Plugin}
  {lines : List Name} {ok : Bool}

theorem hooksOf_append (ep : EntryPoint) : hooksOf { p with entryPoints := p.entryPoints ++ [ep] } =
    hooksOf p ++ if ep.inserted then [⟨ep.key, p.id, p.entryPoints.length⟩] else [] := by
  rw [hooksOf, List.zipIdx_append, List.filter_append, List.map_append]
  cases hins : ep.inserted with
  | false => simp [hooksOf, hins]
  | true => simp [hooksOf, hins]

theorem Building.plug {elf : Bool} {info : EntryInfo} {name : Name} (hb : Building T t p)
    (hname : info.entryName = some name) (h : pluginPlugElf elf t p info = .ok (t', p')) :
    Building T t' p' ∧ p'.id = p.id := by
  rcases pluginPlugElf_cases hname h with ⟨-, rfl, rfl⟩ | ⟨hwide, hnew, rfl, rfl⟩ | ⟨hwide, rfl, rfl⟩
  · exact ⟨hb, rfl⟩
  · have hins : (⟨name, info⟩ : EntryPoint).inserted = true := by
      rw [EntryPoint.inserted, hname]
      rfl
    refine ⟨⟨?_, ?_, ?_⟩, rfl⟩
    · rw [hooksOf_append, if_pos hins, List.append_assoc]
      exact (hb.perm.cons _).trans (List.perm_middle.symm)
    · refine hb.keyed.cons (lookup_eq_none_iff.mpr ?_)
      intro hmem
      obtain ⟨e, he, hkey⟩ := List.mem_map.mp hmem
      exact hnew e he hkey
    · intro hw
      rw [show p.isSystemWide = false from hw] at hwide
      cases hwide
  · have hooks : hooksOf { p with entryPoints := p.entryPoints ++ [⟨name, EntryInfo.zero⟩] } = hooksOf p := by
      rw [hooksOf_append]
      exact List.append_nil _
    refine ⟨⟨?_, hb.keyed, ?_⟩, rfl⟩
    · rw [hooks]
      exact hb.perm
    · intro _
      rw [hooks]
      exact hb.none hwide

/-- **What a line can do**: make the plugin system-wide, stop the loop, or plug an entry point in. -/
theorem insertLines_cases (h : insertLines dirname elf (line :: lines) t p = .ok (ok, t', p')) :
    (systemWideWord.isPrefixOf line = true ∧
      insertLines dirname (fun n => elf (n + 1)) lines t { p with isSystemWide := true } = .ok (ok, t', p')) ∨
    (systemWideWord.isPrefixOf line = false ∧ ok = false ∧ t' = t ∧ p' = p ∧
      ¬((∃ r, entryOfLine dirname line = .ok r) ∧ elf 0 = true)) ∨
    (systemWideWord.isPrefixOf line = false ∧ ∃ info elfpath name t₁ p₁,
      entryOfLine dirname line = .ok (info, elfpath) ∧ info.entryName = some name ∧
      pluginPlugElf (elf 0) t p info = .ok (t₁, p₁) ∧
      insertLines dirname (fun n => elf (n + 1)) lines t₁ p₁ = .ok (ok, t', p')) := by
  by_cases hwide : systemWideWord.isPrefixOf line = true
  · rw [insertLines_systemWide hwide] at h
    exact .inl ⟨hwide, h⟩
  · rw [insertLines_entry hwide] at h
    rw [Bool.not_eq_true] at hwide
    rcases hline : entryOfLine dirname line with (⟨⟩ | f) | ⟨info, elfpath⟩
    · rw [insertPluginFromTransactionLine, hline] at h
      cases h
      refine .inr (.inl ⟨hwide, rfl, rfl, rfl, ?_⟩)
      rintro ⟨⟨r, hr⟩, -⟩
      cases hr
    · rw [insertPluginFromTransactionLine, hline] at h
      cases h
    · obtain ⟨name, hname⟩ := entryName_of_entryOfLine hline
      rw [insertPlugin_of_ok hline] at h
      rcases hplug : pluginPlugElf (elf 0) t p info with (⟨⟩ | f) | ⟨t₁, p₁⟩
      · rw [hplug] at h
        cases h
        refine .inr (.inl ⟨hwide, rfl, rfl, rfl, ?_⟩)
        rintro ⟨-, helf⟩
        exact pluginPlugElf_true hname (helf ▸ hplug)
      · rw [hplug] at h
        cases h
      · rw [hplug] at h
        exact .inr (.inr ⟨hwide, info, elfpath, name, t₁, p₁, rfl, hname, hplug, h⟩)

/-- **The lines of a text** keep the table as it should be. -/
theorem insertLines_building : ∀ {lines elf t p}, Building T t p →
    insertLines dirname elf lines t p = .ok (ok, t', p') → Building T t' p' ∧ p'.id = p.id := by
  intro lines
  induction lines with
  | nil =>
    intro elf t p hb h
    cases h
    exact ⟨hb, rfl⟩
  | cons line lines ih =>
    intro elf t p hb h
    rcases insertLines_cases h with ⟨-, h⟩ | ⟨-, -, rfl, rfl, -⟩ |
      ⟨-, info, elfpath, name, t₁, p₁, -, hname, hplug, h⟩
    · exact @ih _ t { p with isSystemWide := true } ⟨hb.perm, hb.keyed, nofun⟩ h
    · exact ⟨hb, rfl⟩
    · obtain ⟨hb₁, hid₁⟩ := hb.plug hname hplug
      obtain ⟨hb', hid'⟩ := ih hb₁ h
      exact ⟨hb', hid'.trans hid₁⟩

/-- The lines succeed if each of them is accepted and its code can be loaded. -/
theorem insertLines_succeeds : ∀ {lines elf t p}, (∀ i line, lines[i]? = some line →
      systemWideWord.isPrefixOf line = false → (∃ r, entryOfLine dirname line = .ok r) ∧ elf i = true) →
    insertLines dirname elf lines t p = .ok (ok, t', p') → ok = true := by
  intro lines
  induction lines with
  | nil =>
    intro elf t p _ h
    cases h
    rfl
  | cons line lines ih =>
    intro elf t p hgood h
    have htail : ∀ i l, lines[i]? = some l → systemWideWord.isPrefixOf l = false →
        (∃ r, entryOfLine dirname l = .ok r) ∧ elf (i + 1) = true := fun i l hl =>
      hgood (i + 1) l (by rwa [List.getElem?_cons_succ])
    rcases insertLines_cases h with ⟨-, h⟩ | ⟨hwide, -, -, -, hbad⟩ |
      ⟨-, info, elfpath, name, t₁, p₁, -, hname, hplug, h⟩
    · exact ih htail h
    · exact absurd (hgood 0 line rfl hwide) hbad
    · exact ih htail h

/-- Without a line that says so, a plugin does not get system-wide. -/
theorem insertLines_narrow : ∀ {lines elf t p}, lines.any systemWideWord.isPrefixOf = false →
    insertLines dirname elf lines t p = .ok (ok, t', p') → p'.isSystemWide = p.isSystemWide := by
  intro lines
  induction lines with
  | nil =>
    intro elf t p _ h
    cases h
    rfl
  | cons line lines ih =>
    intro elf t p hany h
    rw [List.any_cons, Bool.or_eq_false_iff] at hany
    rcases insertLines_cases h with ⟨hwide, -⟩ | ⟨-, -, -, rfl, -⟩ |
      ⟨-, info, elfpath, name, t₁, p₁, -, hname, hplug, h⟩
    · rw [hany.1] at hwide
      cases hwide
    · rfl
    · rw [ih hany.2 h]
      rcases pluginPlugElf_cases hname hplug with ⟨-, -, rfl⟩ | ⟨-, -, -, rfl⟩ | ⟨-, -, rfl⟩
      · rfl
      · rfl
      · rfl

/-- A plugin that is system-wide gets no entry point with a cleared key. -/
theorem insertLines_filled : ∀ {lines elf t p}, insertLines dirname elf lines t p = .ok (ok, t', p') →
    p.isSystemWide = true → ∀ ep ∈ p'.entryPoints, ep.inserted = false → ep ∈ p.entryPoints := by
  intro lines
  induction lines with
  | nil =>
    intro elf t p h _ ep hep _
    cases h
    exact hep
  | cons line lines ih =>
    intro elf t p h hw ep hep hins
    rcases insertLines_cases h with ⟨-, hnext⟩ | ⟨-, -, -, rfl, -⟩ |
      ⟨-, info, elfpath, name, t₁, p₁, -, hname, hplug, hnext⟩
    · exact ih hnext rfl ep hep hins
    · exact hep
    · rcases pluginPlugElf_cases hname hplug with ⟨-, rfl, rfl⟩ | ⟨-, -, rfl, rfl⟩ | ⟨hw', -, -⟩
      · exact ih hnext hw ep hep hins
      · refine (List.mem_append.mp (ih hnext hw ep hep hins)).resolve_right fun hmem => ?_
        rw [List.mem_singleton.mp hmem, EntryPoint.inserted, hname] at hins
        cases hins
      · rw [hw] at hw'
        cases hw'

/-- **A cleared key** is left only by a line before the plugin is system-wide. -/
theorem insertLines_late : ∀ {lines elf t p}, insertLines dirname elf lines t p = .ok (ok, t', p') →
    p.isSystemWide = false → p'.isSystemWide = true → ∀ ep ∈ p'.entryPoints, ep.inserted = false →
      ep ∈ p.entryPoints ∨ ∃ line ∈ lateLines lines, ∃ info elfpath,
        entryOfLine dirname line = .ok (info, elfpath) ∧ info.entryName = some ep.entryName ∧
          ep.info = EntryInfo.zero := by
  intro lines
  induction lines with
  | nil =>
    intro elf t p h _ _ ep hep _
    cases h
    exact .inl hep
  | cons line lines ih =>
    intro elf t p h hw hw' ep hep hins
    rcases insertLines_cases h with ⟨-, hnext⟩ | ⟨-, -, -, rfl, -⟩ |
      ⟨hwide, info, elfpath, name, t₁, p₁, hline, hname, hplug, hnext⟩
    · exact .inl (insertLines_filled hnext rfl ep hep hins)
    · exact .inl hep
    · rcases pluginPlugElf_cases hname hplug with ⟨hw₁, -⟩ | ⟨hw₁, -⟩ | ⟨-, rfl, rfl⟩
      · rw [hw] at hw₁
        cases hw₁
      · rw [hw] at hw₁
        cases hw₁
      · -- there is a line further on that makes the plugin system-wide
        have hany : lines.any systemWideWord.isPrefixOf = true := by
          by_contra hany
          rw [Bool.not_eq_true] at hany
          rw [insertLines_narrow hany hnext, show _ = p.isSystemWide from rfl, hw] at hw'
          cases hw'
        have hlate : lateLines (line :: lines) = line :: lateLines lines := by
          rw [lateLines, lateLines, List.any_cons, hwide, hany, Bool.or_true, if_pos rfl, if_pos rfl,
            List.takeWhile_cons_of_pos (by rw [hwide]; rfl)]
        rw [hlate]
        rcases ih hnext hw hw' ep hep hins with hmem | ⟨l, hl, hrest⟩
        · rcases List.mem_append.mp hmem with hmem | hmem
          · exact .inl hmem
          · rw [List.mem_singleton.mp hmem]
            exact .inr ⟨line, List.mem_cons_self, info, elfpath, hline, hname, rfl⟩
        · exact .inr ⟨l, List.mem_cons_of_mem _ hl, hrest⟩

end Load

/-- **What loading a plugin can do**: nothing; or it ends with a plugin; or it takes a plugin out again. -/
theorem pluginInsertTransaction_cases {elf : ℕ → Bool} {dirname filename : Name} {file : Option (List UInt8)}
    {lookingFor id : ℕ} {t t' : List EntryPointMap} {r : Option Plugin}
    (h : pluginInsertTransaction elf dirname filename file lookingFor id t = .ok (t', r)) :
    (t' = t ∧ r = none) ∨ ∃ text uid memorySize ok t₁ p₁, file = some text ∧
      insertLines dirname elf ((linesOf text).drop 2) t ⟨id, filename, uid, false, memorySize, []⟩ =
        .ok (ok, t₁, p₁) ∧
      ((ok = true ∧ t' = t₁ ∧ r = some p₁) ∨ (ok = false ∧ pluginUnplug t₁ p₁ = .ok t' ∧ r = none)) := by
  cases file with
  | none =>
    cases h
    exact .inl ⟨rfl, rfl⟩
  | some text =>
    rcases hheader : readHeader lookingFor (linesOf text) with (⟨⟩ | f) | ⟨memorySize, uid⟩
    · unfold pluginInsertTransaction at h
      simp only [hheader] at h
      cases h
      exact .inl ⟨rfl, rfl⟩
    · unfold pluginInsertTransaction at h
      simp only [hheader] at h
      cases h
    · rw [pluginInsertTransaction_of_ok hheader] at h
      obtain ⟨⟨ok, t₁, p₁⟩, hloop, h⟩ := bind_eq_ok.mp h
      refine .inr ⟨text, uid, memorySize, ok, t₁, p₁, rfl, hloop, ?_⟩
      cases ok with
      | true =>
        cases h
        exact .inl ⟨rfl, rfl, rfl⟩
      | false =>
        obtain ⟨t₂, hunplug, h⟩ := bind_eq_ok.mp h
        cases h
        exact .inr ⟨rfl, hunplug, rfl⟩

/-! ### Every run -/

/-- What holds in every state: the table is as it should be, its keys are distinct, and so are the addresses
of the plugins. -/
structure HookInv (s : HookState) : Prop where
  exact : s.table.Perm (s.loaded.flatMap hooksOf)
  keyed : Keyed EntryPointMap.key s.table
  ids : Keyed Plugin.id s.loaded
  below : ∀ p ∈ s.loaded, p.id < s.next
  none : ∀ p ∈ s.loaded, p.isSystemWide = false → hooksOf p = []

section Runs

variable {s s' : HookState} {e : HookEvent}

theorem HookInv.integrity (h : HookInv s) : Integrity s := by
  refine ⟨h.exact, fun e he => ?_⟩
  obtain ⟨p, hp, hep⟩ := List.mem_flatMap.mp (h.exact.mem_iff.mp he)
  obtain ⟨ep, hget, -, hkey, hid⟩ := mem_hooksOf.mp hep
  refine ⟨p, hp, hid.symm, ?_, ep, hget, hkey.symm⟩
  by_contra hwide
  rw [Bool.not_eq_true] at hwide
  rw [h.none p hp hwide] at hep
  exact absurd hep List.not_mem_nil

theorem hookInv_init : HookInv HookState.init where
  exact := .nil
  keyed := List.nodup_nil
  ids := List.nodup_nil
  below := fun _ hp => absurd hp List.not_mem_nil
  none := fun _ hp => absurd hp List.not_mem_nil

/-- **Loading a plugin** keeps the table as it should be, also if it fails. -/
theorem HookInv.load {elf : ℕ → Bool} {dirname filename : Name} {file : Option (List UInt8)} {lookingFor : ℕ}
    (h : HookInv s) (hsafe : EventSafe s (.load elf dirname filename file lookingFor))
    (hstep : hookStep s (.load elf dirname filename file lookingFor) = .ok s') : HookInv s' := by
  obtain ⟨⟨t, r⟩, hload, hstep⟩ := bind_eq_ok.mp hstep
  cases hstep
  have hbelow : ∀ p ∈ s.loaded, p.id < s.next + 1 := fun p hp => Nat.lt_succ_of_lt (h.below p hp)
  rcases pluginInsertTransaction_cases hload with ⟨rfl, rfl⟩ |
    ⟨text, uid, memorySize, ok, t₁, p₁, hfile, hloop, hend⟩
  · exact ⟨h.exact, h.keyed, h.ids, hbelow, h.none⟩
  · have hstart : Building s.table s.table ⟨s.next, filename, uid, false, memorySize, []⟩ :=
      ⟨.refl _, h.keyed, fun _ => rfl⟩
    obtain ⟨hb, hid⟩ := insertLines_building hstart hloop
    rcases hend with ⟨-, rfl, rfl⟩ | ⟨rfl, hunplug, rfl⟩
    · refine ⟨?_, hb.keyed, ?_, ?_, ?_⟩
      · exact hb.perm.trans (h.exact.append_left _)
      · refine h.ids.cons (lookup_eq_none_iff.mpr fun hmem => ?_)
        obtain ⟨p, hp, hpid⟩ := List.mem_map.mp hmem
        have hlt := h.below p hp
        rw [hpid, hid] at hlt
        exact lt_irrefl _ hlt
      · intro p hp
        rcases List.mem_cons.mp hp with rfl | hp
        · rw [hid]
          exact Nat.lt_succ_self _
        · exact hbelow p hp
      · intro p hp
        rcases List.mem_cons.mp hp with rfl | hp
        · exact hb.none
        · exact h.none p hp
    · have hperm : t.Perm s.table := by
        refine pluginUnplug_perm hb.perm hb.keyed hb.none (fun hwide ep hep hins e he => ?_) hunplug
        rcases hsafe text hfile with hgood | hlate
        · exact absurd (insertLines_succeeds hgood hloop) Bool.false_ne_true
        · rcases insertLines_late hloop rfl hwide ep hep hins with hmem |
            ⟨line, hl, info, elfpath, hline, hname, hzero⟩
          · exact absurd hmem List.not_mem_nil
          · rw [EntryPoint.key, hzero]
            exact hlate line hl info elfpath _ hline hname e he
      exact ⟨hperm.trans h.exact, h.keyed.perm hperm.symm, h.ids, hbelow, h.none⟩

/-- **Unplugging a plugin** keeps the table as it should be. -/
theorem HookInv.unplug {id : ℕ} (h : HookInv s) (hsafe : EventSafe s (.unplug id))
    (hstep : hookStep s (.unplug id) = .ok s') : HookInv s' := by
  unfold hookStep at hstep
  dsimp only at hstep
  cases hlook : lookup Plugin.id id s.loaded with
  | none =>
    rw [hlook] at hstep
    cases hstep
    exact h
  | some p =>
    rw [hlook] at hstep
    obtain ⟨t, hunplug, hstep⟩ := bind_eq_ok.mp hstep
    cases hstep
    obtain ⟨hp, rfl⟩ := (lookup_eq_some_iff h.ids).mp hlook
    have hloaded := perm_cons_remove h.ids hp
    have hrest : ∀ q ∈ remove Plugin.id p.id s.loaded, q ∈ s.loaded ∧ q.id ≠ p.id := by
      intro q hq
      obtain ⟨hq, hne⟩ := List.mem_filter.mp hq
      exact ⟨hq, of_decide_eq_true hne⟩
    have hperm : t.Perm ((remove Plugin.id p.id s.loaded).flatMap hooksOf) := by
      refine pluginUnplug_perm (h.exact.trans (hloaded.flatMap_right hooksOf)) h.keyed (h.none p hp) ?_ hunplug
      intro hwide ep hep hins e he
      obtain ⟨q, hq, heq⟩ := List.mem_flatMap.mp he
      obtain ⟨-, -, -, -, hplugin⟩ := mem_hooksOf.mp heq
      refine hsafe p hp rfl hwide ep hep hins e ?_ ?_
      · exact h.exact.mem_iff.mpr (List.mem_flatMap.mpr ⟨q, (hrest q hq).1, heq⟩)
      · rw [hplugin]
        exact (hrest q hq).2
    exact ⟨hperm, pluginUnplug_keyed h.keyed hunplug, h.ids.remove, fun q hq => h.below q (hrest q hq).1,
      fun q hq => h.none q (hrest q hq).1⟩

theorem HookInv.step (h : HookInv s) (hsafe : EventSafe s e) (hstep : hookStep s e = .ok s') : HookInv s' := by
  cases e with
  | load => exact h.load hsafe hstep
  | unplug => exact h.unplug hsafe hstep

/-- **The table in every state of every run** is as it should be, if in no event a cleared key is that of
another plugin. -/
theorem hookIntegrity_of_run {es : List HookEvent}
    (hrun : Run (fun s e s' => EventSafe s e ∧ hookStep s e = .ok s') HookState.init es s) : Integrity s :=
  (hrun.invariant (fun _ _ _ hinv hstep => hinv.step hstep.1 hstep.2) hookInv_init).integrity

/-- A system-wide plugin that replaces `a`, with a family that is not known. -/
def systemWideText : List UInt8 :=
  [0x6d, 0x65, 0x6d, 0x6f, 0x72, 0x79, 0x20, 0x31, 0x0a, 0x75, 0x69, 0x64, 0x20, 0x31, 0x0a, 0x73, 0x79, 0x73,
   0x74, 0x65, 0x6d, 0x2d, 0x77, 0x69, 0x64, 0x65, 0x0a, 0x61, 0x20, 0x63, 0x6f, 0x72, 0x65, 0x20, 0x72, 0x65,
   0x70, 0x6c, 0x61, 0x63, 0x65, 0x20, 0x66, 0x0a]

def systemWideEntry : EntryPoint := ⟨[0x61], ⟨some [0x61], .dev, .hijack, .core, 0⟩⟩

def systemWideState : HookState :=
  ⟨[⟨systemWideEntry.key, 0, 0⟩], [⟨0, [], 1, true, 1, [systemWideEntry]⟩], 1⟩

/-- The plugin is loaded, and unplugged again. -/
theorem hookIntegrity_of_run_systemWide : Integrity ⟨[], [], 1⟩ := by
  have hload : hookStep HookState.init (.load (fun _ => true) [0x2f] [] (some systemWideText) 0) =
      .ok systemWideState := by
    decide +kernel
  have hunplug : hookStep systemWideState (.unplug 0) = .ok ⟨[], [], 1⟩ := by
    decide +kernel
  refine hookIntegrity_of_run (.cons ⟨?_, hload⟩ (.cons ⟨?_, hunplug⟩ (.nil _)))
  · intro text _
    exact .inr fun _ _ _ _ _ _ _ e he => absurd he List.not_mem_nil
  · intro p hp hid hwide ep hep hins e he hne
    rw [List.mem_singleton.mp he] at hne
    exact absurd hid.symm hne

/-- A plugin that adds `a`, and then becomes system-wide. -/
def lateText : List UInt8 :=
  [0x6d, 0x65, 0x6d, 0x6f, 0x72, 0x79, 0x20, 0x31, 0x0a, 0x75, 0x69, 0x64, 0x20, 0x32, 0x0a, 0x61, 0x20, 0x70,
   0x72, 0x6f, 0x74, 0x6f, 0x63, 0x6f, 0x6c, 0x5f, 0x72, 0x65, 0x6c, 0x61, 0x79, 0x20, 0x61, 0x64, 0x64, 0x20,
   0x67, 0x0a, 0x73, 0x79, 0x73, 0x74, 0x65, 0x6d, 0x2d, 0x77, 0x69, 0x64, 0x65, 0x0a]

def lateEvents : List HookEvent :=
  [.load (fun _ => true) [0x2f] [] (some systemWideText) 0, .load (fun _ => true) [0x2f] [] (some lateText) 0,
   .unplug 1]

/-- **A plugin that becomes system-wide late** takes the entry of another plugin with it. -/
theorem not_integrity_late :
    ∃ s, Run (fun s e s' => hookStep s e = .ok s') HookState.init lateEvents s ∧ ¬Integrity s := by
  have hfinal : (lateEvents.foldlM hookStep HookState.init).toOption.map
      (fun s => (s.table.length, (s.loaded.flatMap hooksOf).length)) = some (0, 1) := by
    decide +kernel
  rcases hrun : lateEvents.foldlM hookStep HookState.init with stop | s
  · rw [hrun] at hfinal
    cases hfinal
  · rw [hrun] at hfinal
    refine ⟨s, run_of_foldlM hrun, fun hint => ?_⟩
    have hlen := hint.exact.length_eq
    have hpair := Option.some.inj hfinal
    rw [(Prod.mk.inj hpair).1, (Prod.mk.inj hpair).2] at hlen
    exact absurd hlen (by decide)

end Runs

end TorEbpf.Or
