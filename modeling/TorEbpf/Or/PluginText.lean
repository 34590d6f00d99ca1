import Mathlib
import TorEbpf.Or.PluginFile

/-!
# Which texts are read as they are meant

`plugin_insert_transaction` reads a text to its end, or up to the first line that it does not accept, and
then takes out again what it has put into the table.

* `pluginPlugElf_cases` — what an entry point can do to the table and to its plugin;
* `noFault_pluginUnplug` — when taking a plugin out goes well;
* `textOk_iff` — for which texts nothing goes wrong, and every line is read as it is meant.
-/

namespace TorEbpf.Or

open TorEbpf.Lib TorEbpf.Strings

/-! ### The text -/

/-- The loop comes to a line: it has accepted those before. -/
def Reaches (dirname : Name) (lines : List Name) (t : List EntryPointMap) (p : Plugin) (line : Name) : Prop :=
  ∃ before after elf r, lines = before ++ line :: after ∧ insertLines dirname elf before t p = .ok (true, r)

/-- `plugin_insert_transaction` comes to an end, with a plugin or without; and of the lines that it comes to it
accepts exactly the entry lines, with exactly what they say. -/
def TextOk (dirname : Name) (text : List UInt8) : Prop :=
  (∀ elf filename lookingFor id t, ∃ t' r,
    pluginInsertTransaction elf dirname filename (some text) lookingFor id t = .ok (t', r)) ∧
  ∀ lookingFor memorySize uid, readHeader lookingFor (linesOf text) = .ok (memorySize, uid) →
    ∀ filename id t line,
      Reaches dirname ((linesOf text).drop 2) t ⟨id, filename, uid, false, memorySize, []⟩ line →
        LineOk dirname line

/-- The line is a keyword, perhaps with more behind it, a space, and a complete number. -/
def HeaderLine (word line : Name) (v : ℕ) : Prop :=
  ∃ more rest, line = word ++ more ++ 0x20 :: rest ∧ 0x20 ∉ more ∧
    strtoul0 (rest.takeWhile (· ≠ 0x0a)) = (v, [])

/-- A line that starts with the keyword has a space. -/
def HasValue (word line : Name) : Prop := word.isPrefixOf line → 0x20 ∈ line

/-- The two first lines have a value if they have a keyword, and a plugin whose header is complete does not
ask for a negative amount of memory. -/
def HeaderRegular : List Name → Prop
  | [] => True
  | line :: lines =>
      HasValue memoryWord line ∧ ∀ memory, HeaderLine memoryWord line memory →
        match lines with
        | [] => True
        | line' :: _ => HasValue uidWord line' ∧ ∀ uid, HeaderLine uidWord line' uid → 0 ≤ castInt memory

/-- The two first lines are a header. -/
def HeaderComplete : List Name → Prop
  | line :: line' :: _ => (∃ memory, HeaderLine memoryWord line memory) ∧ ∃ uid, HeaderLine uidWord line' uid
  | _ => False

/-- The name is too long for `plugin_entry_hash_`. -/
def longName (info : EntryInfo) : Bool := info.entryName.any fun name => 256 < name.length

/-- The lines up to the first one that is no entry line are regular, and no name that is too long is looked for
in the table: a plugin that is `wide` has no such name on any line, and after a line with one (`long`) there is no
further line once the plugin is `wide`. -/
def LinesRegular (dirname : Name) : (wide long : Bool) → List Name → Prop
  | _, _, [] => True
  | wide, long, line :: lines =>
      LineRegular dirname line ∧
        if systemWideWord.isPrefixOf line then LinesRegular dirname true long lines
        else (wide = true → long = false) ∧ ∀ info file, EntryLine line info file →
          (wide = true → longName info = false) ∧ LinesRegular dirname wide (long || longName info) lines

def TextRegular (dirname : Name) (text : List UInt8) : Prop :=
  HeaderRegular (linesOf text) ∧
    (HeaderComplete (linesOf text) → LinesRegular dirname false false ((linesOf text).drop 2))

/-! ### The header -/

section Header

variable {word line : Name} {lines : List Name} {lookingFor : ℕ}

theorem isPrefixOf_takeWhile (hword : 0x20 ∉ word) :
    word.isPrefixOf (line.takeWhile (· ≠ 0x20)) = word.isPrefixOf line := by
  induction word generalizing line with
  | nil => rw [List.isPrefixOf, List.isPrefixOf]
  | cons w word ih =>
    rw [List.mem_cons, not_or] at hword
    cases line with
    | nil => rfl
    | cons b line =>
      by_cases hb : b = 0x20
      · rw [List.takeWhile_cons_of_neg (by simpa using hb), hb]
        have hne : (w == 0x20) = false := by simpa using Ne.symm hword.1
        simp [List.isPrefixOf, hne]
      · rw [List.takeWhile_cons_of_pos (by simpa using hb), List.isPrefixOf, List.isPrefixOf, ih hword.2]

theorem span_space {front : Name} (hfront : 0x20 ∉ front) :
    (front ++ 0x20 :: line).takeWhile (· ≠ 0x20) = front ∧
      (front ++ 0x20 :: line).dropWhile (· ≠ 0x20) = 0x20 :: line := by
  have hall : ∀ b ∈ front, decide (b ≠ 0x20) = true := by
    intro b hb
    rw [decide_eq_true_iff]
    exact fun hb' => hfront (hb' ▸ hb)
  rw [List.takeWhile_append_of_pos hall, List.dropWhile_append_of_pos hall]
  simp

/-- **A header line** gives the number that stands in it. -/
theorem headerValue_iff (hword : 0x20 ∉ word) {v : ℕ} :
    headerValue word line = .ok v ↔ HeaderLine word line v := by
  by_cases hspace : 0x20 ∈ line
  · obtain ⟨front, rest, hline, hfront⟩ := List.eq_append_cons_of_mem hspace
    obtain ⟨htake, hdrop⟩ := @span_space rest front hfront
    have hcode : headerValue word line =
        if word.isPrefixOf front then
          if (strtoul0 (rest.takeWhile (· ≠ 0x0a))).2 ≠ [] then reject ()
          else pure (strtoul0 (rest.takeWhile (· ≠ 0x0a))).1
        else reject () := by
      rw [hline, headerValue, strsep]
      simp only [htake, hdrop, strsep]
    rw [hcode]
    constructor
    · intro h
      split_ifs at h with hprefix hend
      · cases h
      · obtain ⟨more, rfl⟩ := List.isPrefixOf_iff_prefix.mp hprefix
        rw [not_not] at hend
        cases h
        exact ⟨more, rest, hline, fun hmem => hfront (List.mem_append_right word hmem),
          Prod.ext rfl hend⟩
      · cases h
    · rintro ⟨more, rest', hline', hmore, hnumber⟩
      have hfront' : 0x20 ∉ word ++ more := by
        rw [List.mem_append, not_or]
        exact ⟨hword, hmore⟩
      obtain ⟨htake', hdrop'⟩ := @span_space rest' _ hfront'
      rw [← hline', hline, htake] at htake'
      rw [← hline', hline, hdrop] at hdrop'
      cases hdrop'
      rw [if_pos (List.isPrefixOf_iff_prefix.mpr (htake' ▸ List.prefix_append word more)), hnumber,
        if_neg (not_not.mpr rfl)]
      rfl
  · refine iff_of_false (fun h => ?_) ?_
    · have hdrop : line.dropWhile (· ≠ 0x20) = [] := by
        rw [List.dropWhile_eq_nil_iff]
        intro b hb
        rw [decide_eq_true_iff]
        exact fun hb' => hspace (hb' ▸ hb)
      rw [headerValue, strsep] at h
      simp only [hdrop, strsep] at h
      split_ifs at h
      · cases h
      · cases h
    · rintro ⟨more, rest, rfl, -⟩
      exact hspace (by simp)

/-- **A header line** goes well exactly if it has a value, or does not have the keyword. -/
theorem noFault_headerValue (hword : 0x20 ∉ word) : NoFault (headerValue word line) ↔ HasValue word line := by
  rw [HasValue, headerValue, strsep]
  dsimp only
  rw [isPrefixOf_takeWhile hword]
  split_ifs with hprefix
  · rcases hdrop : line.dropWhile (· ≠ 0x20) with _ | ⟨b, rest⟩
    · have hspace : 0x20 ∉ line := by
        intro hmem
        have := List.dropWhile_eq_nil_iff.mp hdrop _ hmem
        simp at this
      simp only [hdrop]
      exact iff_of_false (fun h => h .nullPointer rfl) fun h => hspace (h hprefix)
    · have hspace : 0x20 ∈ line := by
        have hb := List.head?_dropWhile_not (fun b : UInt8 => decide (b ≠ 0x20)) line
        rw [hdrop] at hb
        have hmem : b ∈ line := (List.dropWhile_suffix _).subset (hdrop ▸ List.mem_cons_self)
        rwa [show b = 0x20 by simpa using hb] at hmem
      simp only [hdrop, strsep]
      refine iff_of_true ?_ fun _ => hspace
      split_ifs
      · exact noFault_reject ()
      · exact noFault_pure _
  · exact iff_of_true (noFault_reject ()) fun h => absurd h hprefix

theorem noFault_pluginMemoryInit {memory : ℤ} : NoFault (pluginMemoryInit memory) ↔ 0 ≤ memory := by
  rw [pluginMemoryInit]
  split_ifs with h
  · exact iff_of_true (noFault_pure _) h
  · exact iff_of_false (fun hno => hno .assertion rfl) h

theorem space_notMem_words : (0x20 : UInt8) ∉ memoryWord ∧ (0x20 : UInt8) ∉ uidWord := by decide

/-- **The header** goes well exactly if it is regular. -/
theorem noFault_readHeader : (∀ lookingFor, NoFault (readHeader lookingFor lines)) ↔ HeaderRegular lines := by
  obtain ⟨hmemory, huid⟩ := space_notMem_words
  rcases lines with _ | ⟨line, _ | ⟨line', lines⟩⟩
  · exact iff_of_true (fun _ => noFault_reject ()) trivial
  · rw [HeaderRegular, ← noFault_headerValue hmemory]
    refine ⟨fun h => ⟨(noFault_bind.mp (h 0)).1, fun _ _ => trivial⟩, fun h _ => ?_⟩
    exact noFault_bind.mpr ⟨h.1, fun _ _ => noFault_reject ()⟩
  · simp only [HeaderRegular, ← noFault_headerValue hmemory, ← noFault_headerValue huid,
      ← headerValue_iff hmemory, ← headerValue_iff huid]
    constructor
    · intro h
      obtain ⟨hline, hrest⟩ := noFault_bind.mp (h 0)
      refine ⟨hline, fun memory hm => ?_⟩
      obtain ⟨hline', hrest'⟩ := noFault_bind.mp (hrest memory hm)
      refine ⟨hline', fun uid hu => ?_⟩
      have hinit := hrest' uid hu
      rw [if_neg (by simp)] at hinit
      exact noFault_pluginMemoryInit.mp (noFault_bind.mp hinit).1
    · rintro ⟨hline, hrest⟩ lookingFor
      refine noFault_bind.mpr ⟨hline, fun memory hm => ?_⟩
      obtain ⟨hline', hrest'⟩ := hrest memory hm
      refine noFault_bind.mpr ⟨hline', fun uid hu => ?_⟩
      split_ifs
      · exact noFault_reject ()
      · exact noFault_bind.mpr ⟨noFault_pluginMemoryInit.mpr (hrest' uid hu), fun _ _ => noFault_pure _⟩

theorem HeaderComplete.of_readHeader {r : ℕ × ℕ} (h : readHeader lookingFor lines = .ok r) :
    HeaderComplete lines := by
  rcases lines with _ | ⟨line, _ | ⟨line', lines⟩⟩
  · cases h
  · obtain ⟨_, _, h⟩ := bind_eq_ok.mp h
    cases h
  · obtain ⟨memory, hm, h⟩ := bind_eq_ok.mp h
    obtain ⟨uid, hu, -⟩ := bind_eq_ok.mp h
    exact ⟨⟨memory, (headerValue_iff space_notMem_words.1).mp hm⟩,
      uid, (headerValue_iff space_notMem_words.2).mp hu⟩

/-- A header that is regular and complete is read, if any plugin will do. -/
theorem HeaderComplete.readHeader_zero (hregular : HeaderRegular lines) (h : HeaderComplete lines) :
    ∃ r, readHeader 0 lines = .ok r := by
  rcases lines with _ | ⟨line, _ | ⟨line', lines⟩⟩
  · exact h.elim
  · exact h.elim
  · obtain ⟨⟨memory, hm⟩, uid, hu⟩ := h
    have hpos := ((hregular.2 memory hm).2 uid hu)
    refine ⟨((castInt memory).toNat, uid), bind_eq_ok.mpr
      ⟨memory, (headerValue_iff space_notMem_words.1).mpr hm, bind_eq_ok.mpr
        ⟨uid, (headerValue_iff space_notMem_words.2).mpr hu, ?_⟩⟩⟩
    rw [if_neg (by simp), pluginMemoryInit, if_pos hpos]
    rfl

end Header

/-! ### One entry point -/

section EntryPoints

variable {elf : Bool} {t t' : List EntryPointMap} {p p' : Plugin} {einfo : EntryInfo} {name dirname line : Name}

theorem longName_eq (hname : einfo.entryName = some name) : longName einfo = false ↔ name.length ≤ 256 := by
  rw [longName, hname, Option.any_some, decide_eq_false_iff_not, not_lt]

/-- The plugin of a connection gets the entry point. -/
theorem pluginPlugElf_connection (hname : einfo.entryName = some name) (hwide : p.isSystemWide = false) :
    pluginPlugElf elf t p einfo =
      if elf = false then reject ()
      else .ok (t, { p with entryPoints := p.entryPoints ++ [⟨name, EntryInfo.zero⟩] }) := by
  rw [pluginPlugElf, hname]
  simp only [hwide, Bool.false_eq_true, if_false]
  rfl

/-- A system-wide plugin gets it unless there already is one. -/
theorem pluginPlugElf_systemWide (hname : einfo.entryName = some name) (hwide : p.isSystemWide = true) :
    pluginPlugElf elf t p einfo =
      if name.length ≤ 256 then
        if (t.find? (·.key = einfo.key name)).isSome then .ok (t, p)
        else if elf = false then reject ()
        else .ok (⟨einfo.key name, p.id, p.entryPoints.length⟩ :: t,
          { p with entryPoints := p.entryPoints ++ [⟨name, einfo⟩] })
      else fault .write := by
  rw [pluginPlugElf, hname]
  simp only [hwide, if_true]
  have hhash : pluginEntryHash (einfo.key name) = if name.length ≤ 256 then pure () else fault .write := rfl
  rw [mapFind, mapInsert, hhash]
  by_cases hfits : name.length ≤ 256
  · rw [if_pos hfits, if_pos hfits]
    rfl
  · rw [if_neg hfits, if_neg hfits]
    rfl

/-- **What an entry point can do**: nothing if the plugin is system-wide and there already is one; else it is
added to the plugin, and to the table if the plugin is system-wide. -/
theorem pluginPlugElf_cases (hname : einfo.entryName = some name)
    (h : pluginPlugElf elf t p einfo = .ok (t', p')) :
    (p.isSystemWide = true ∧ t' = t ∧ p' = p) ∨
    (p.isSystemWide = true ∧ (∀ e ∈ t, e.key ≠ einfo.key name) ∧
      t' = ⟨einfo.key name, p.id, p.entryPoints.length⟩ :: t ∧
      p' = { p with entryPoints := p.entryPoints ++ [⟨name, einfo⟩] }) ∨
    (p.isSystemWide = false ∧ t' = t ∧
      p' = { p with entryPoints := p.entryPoints ++ [⟨name, EntryInfo.zero⟩] }) := by
  cases hwide : p.isSystemWide with
  | false =>
    rw [pluginPlugElf_connection hname hwide] at h
    split_ifs at h
    · cases h
    · cases h
      exact .inr (.inr ⟨rfl, rfl, by rw [hwide]⟩)
  | true =>
    rw [pluginPlugElf_systemWide hname hwide] at h
    split_ifs at h with hfits hfound helf
    · cases h
      exact .inl ⟨rfl, rfl, rfl⟩
    · cases h
    · cases h
      refine .inr (.inl ⟨rfl, ?_, rfl, by rw [hwide]⟩)
      rw [Option.not_isSome_iff_eq_none, List.find?_eq_none] at hfound
      simpa using hfound
    · cases h

/-- An entry point goes well exactly if its name fits, or is not looked for. -/
theorem noFault_pluginPlugElf (hname : einfo.entryName = some name) :
    NoFault (pluginPlugElf elf t p einfo) ↔ (p.isSystemWide = true → longName einfo = false) := by
  rw [longName_eq hname]
  cases hwide : p.isSystemWide with
  | false =>
    rw [pluginPlugElf_connection hname hwide]
    refine iff_of_true ?_ nofun
    split_ifs
    · exact noFault_reject ()
    · exact noFault_ok _
  | true =>
    rw [pluginPlugElf_systemWide hname hwide]
    split_ifs with hfits hfound helf
    · exact iff_of_true (noFault_ok _) fun _ => hfits
    · exact iff_of_true (noFault_reject ()) fun _ => hfits
    · exact iff_of_true (noFault_ok _) fun _ => hfits
    · exact iff_of_false (fun h => h .write rfl) fun h => hfits (h rfl)

/-- With an empty table, an entry point whose file cannot be loaded is an error. -/
theorem pluginPlugElf_nil (hname : einfo.entryName = some name) (hfits : longName einfo = false) :
    pluginPlugElf false [] p einfo = reject () := by
  cases hwide : p.isSystemWide with
  | false => rw [pluginPlugElf_connection hname hwide, if_pos rfl]
  | true =>
    rw [pluginPlugElf_systemWide hname hwide, if_pos ((longName_eq hname).mp hfits), List.find?_nil]
    rfl

theorem pluginPlugElf_true (hname : einfo.entryName = some name) :
    pluginPlugElf true t p einfo ≠ reject () := by
  cases hwide : p.isSystemWide with
  | false =>
    rw [pluginPlugElf_connection hname hwide]
    exact nofun
  | true =>
    rw [pluginPlugElf_systemWide hname hwide, if_neg (show ¬true = false by decide)]
    split_ifs
    · exact nofun
    · exact nofun
    · exact nofun

theorem entryName_of_plugOfLine {keyword rest : Option Name} {info : EntryInfo} {elfpath : Name}
    (h : plugOfLine dirname einfo keyword rest = .ok (info, elfpath)) : info.entryName = einfo.entryName := by
  unfold plugOfLine at h
  split at h
  · cases h
  · split at h
    · cases h
    · split at h
      · cases h
      · obtain ⟨_, _, h⟩ := bind_eq_ok.mp h
        cases h
        rfl

theorem entryName_of_entryOfLine {info : EntryInfo} {elfpath : Name}
    (h : entryOfLine dirname line = .ok (info, elfpath)) : ∃ name, info.entryName = some name := by
  unfold entryOfLine at h
  split at h
  · cases h
  · split at h
    · cases h
    · split at h
      · cases h
      · obtain ⟨_, _, h⟩ := bind_eq_ok.mp h
        exact ⟨_, entryName_of_plugOfLine h⟩

end EntryPoints

/-! ### Taking a plugin out -/

/-- The plugin has an entry point whose name is too long. -/
def hasLongName (p : Plugin) : Bool := p.entryPoints.any fun ep => 256 < ep.entryName.length

section Unplug

variable {t : List EntryPointMap} {p : Plugin}

theorem mapRemove_eq {key : EntryKey} :
    mapRemove t key =
      if key.entryName.length ≤ 256 then .ok (t.eraseP (·.key = key)) else fault .write := by
  rw [mapRemove, pluginEntryHash]
  split_ifs
  · rfl
  · rfl

/-- **Taking a plugin out** goes well exactly if the names fit that are looked for. -/
theorem noFault_pluginUnplug :
    NoFault (pluginUnplug t p) ↔ ¬(p.isSystemWide = true ∧ hasLongName p = true) := by
  rw [pluginUnplug]
  split_ifs with hwide
  · rw [hwide, eq_self_iff_true, true_and, Bool.not_eq_true, hasLongName]
    generalize p.entryPoints = eps
    induction eps generalizing t with
    | nil => exact iff_of_true (noFault_pure t) rfl
    | cons ep eps ih =>
      rw [List.foldlM_cons, noFault_bind, List.any_cons, Bool.or_eq_false_iff, decide_eq_false_iff_not, not_lt,
        pluginMapEntrypointRemove, mapRemove_eq]
      constructor
      · rintro ⟨hep, hrest⟩
        by_cases hfits : ep.entryName.length ≤ 256
        · exact ⟨hfits, ih.mp (hrest _ (if_pos hfits))⟩
        · rw [if_neg (by exact hfits)] at hep
          exact absurd rfl (hep .write)
      · rintro ⟨hfits, hrest⟩
        rw [if_pos (by exact hfits)]
        exact ⟨noFault_ok _, fun t' _ => ih.mpr hrest⟩
  · exact iff_of_true (noFault_pure t) fun h => hwide h.1

theorem pluginUnplug_ne_reject : pluginUnplug t p ≠ reject () := by
  rw [pluginUnplug]
  split_ifs
  · generalize p.entryPoints = eps
    induction eps generalizing t with
    | nil => exact nofun
    | cons ep eps ih =>
      rw [List.foldlM_cons, pluginMapEntrypointRemove, mapRemove_eq]
      split_ifs
      · exact ih
      · exact nofun
  · exact nofun

end Unplug

/-! ### The loop over the lines -/

/-- What `plugin_insert_transaction` does after the loop. -/
def finish (r : Bool × List EntryPointMap × Plugin) : Step (List EntryPointMap × Option Plugin) :=
  if r.1 then pure (r.2.1, some r.2.2)
  else do
    let t ← pluginUnplug r.2.1 r.2.2
    pure (t, none)

section Loop

variable {dirname line : Name} {elf : ℕ → Bool} {t : List EntryPointMap} {p : Plugin} {lines : List Name}

theorem noFault_finish {ok : Bool} :
    NoFault (finish (ok, t, p)) ↔ (ok = false → NoFault (pluginUnplug t p)) := by
  rw [finish]
  cases ok with
  | false =>
    rw [if_neg Bool.false_ne_true, noFault_bind]
    exact ⟨fun h _ => h.1, fun h => ⟨h rfl, fun _ _ => noFault_pure _⟩⟩
  | true => exact iff_of_true (noFault_pure _) nofun

theorem insertLines_systemWide (hwide : systemWideWord.isPrefixOf line = true) :
    insertLines dirname elf (line :: lines) t p =
      insertLines dirname (fun n => elf (n + 1)) lines t { p with isSystemWide := true } := if_pos hwide

theorem insertLines_entry (hwide : ¬systemWideWord.isPrefixOf line = true) :
    insertLines dirname elf (line :: lines) t p =
      match insertPluginFromTransactionLine (elf 0) dirname t p line with
      | .ok (t, p) => insertLines dirname (fun n => elf (n + 1)) lines t p
      | .error (.reject _) => pure (false, t, p)
      | .error (.fault f) => fault f := if_neg hwide

theorem insertPlugin_of_ok {elf : Bool} {info : EntryInfo} {elfpath : Name}
    (h : entryOfLine dirname line = .ok (info, elfpath)) :
    insertPluginFromTransactionLine elf dirname t p line = pluginPlugElf elf t p info := by
  rw [insertPluginFromTransactionLine, h]
  rfl

theorem insertLines_of_insert {t' : List EntryPointMap} {p' : Plugin}
    (hwide : ¬systemWideWord.isPrefixOf line = true)
    (hinsert : insertPluginFromTransactionLine true dirname t p line = .ok (t', p')) :
    insertLines dirname (fun n => n.casesOn true elf) (line :: lines) t p = insertLines dirname elf lines t' p' := by
  rw [insertLines_entry hwide]
  change (match insertPluginFromTransactionLine true dirname t p line with
    | .ok (t, p) => insertLines dirname elf lines t p
    | .error (.reject _) => pure (false, t, p)
    | .error (.fault f) => fault f) = _
  rw [hinsert]

/-- A long name is one of the plugin's, or that of the new entry point. -/
theorem hasLongName_append {name : Name} {info info' : EntryInfo} (hname : info.entryName = some name) :
    hasLongName { p with entryPoints := p.entryPoints ++ [⟨name, info'⟩] } =
      (hasLongName p || longName info) := by
  rw [hasLongName, List.any_append, longName, hname]
  simp [hasLongName]

theorem LinesRegular.tail {elf : Bool} {t' : List EntryPointMap} {p' : Plugin}
    (h : LinesRegular dirname p.isSystemWide (hasLongName p) (line :: lines))
    (hwide : ¬systemWideWord.isPrefixOf line = true)
    (hinsert : insertPluginFromTransactionLine elf dirname t p line = .ok (t', p')) :
    LinesRegular dirname p'.isSystemWide (hasLongName p') lines := by
  rw [LinesRegular, if_neg hwide] at h
  obtain ⟨hline, -, hentry⟩ := h
  obtain ⟨⟨info, elfpath⟩, hread, hplug⟩ := bind_eq_ok.mp hinsert
  obtain ⟨file, hfile, -⟩ := (((lineOk_iff dirname line).mpr hline).2 info elfpath).mp
    ⟨Bool.not_eq_true _ ▸ hwide, hread⟩
  obtain ⟨hname, hrest⟩ := hentry info file hfile
  obtain ⟨name, hinfo⟩ := entryName_of_entryOfLine hread
  rcases pluginPlugElf_cases hinfo hplug with ⟨hw, -, rfl⟩ | ⟨hw, -, -, rfl⟩ | ⟨hw, -, rfl⟩
  · rwa [hname hw, Bool.or_false] at hrest
  · rw [hasLongName_append hinfo]
    exact hrest
  · rw [hasLongName_append hinfo]
    exact hrest

/-- **The loop** comes to regular lines only. -/
theorem LinesRegular.of_reaches (hreach : Reaches dirname lines t p line)
    (h : LinesRegular dirname p.isSystemWide (hasLongName p) lines) : LineRegular dirname line := by
  obtain ⟨before, after, elf, r, rfl, hrun⟩ := hreach
  induction before generalizing elf t p with
  | nil => exact h.1
  | cons first before ih =>
    by_cases hwide : systemWideWord.isPrefixOf first = true
    · rw [insertLines_systemWide hwide] at hrun
      rw [List.cons_append, LinesRegular, if_pos hwide] at h
      exact ih _ hrun h.2
    · rw [insertLines_entry hwide] at hrun
      rcases hinsert : insertPluginFromTransactionLine (elf 0) dirname t p first with (⟨⟩ | f) | ⟨t', p'⟩
      · rw [hinsert] at hrun
        cases hrun
      · rw [hinsert] at hrun
        cases hrun
      · rw [hinsert] at hrun
        exact ih _ hrun (h.tail hwide hinsert)

/-- **The loop** goes well if the lines are regular. -/
theorem noFault_insertLines : ∀ {elf t p}, LinesRegular dirname p.isSystemWide (hasLongName p) lines →
    NoFault (insertLines dirname elf lines t p >>= finish) := by
  induction lines with
  | nil =>
    intro elf t p _
    exact noFault_pure _
  | cons line lines ih =>
    intro elf t p hregular
    by_cases hwide : systemWideWord.isPrefixOf line = true
    · rw [insertLines_systemWide hwide]
      rw [LinesRegular, if_pos hwide] at hregular
      exact ih hregular.2
    · have htail := fun t' p' => @hregular.tail _ _ t _ _ (elf 0) t' p' hwide
      rw [LinesRegular, if_neg hwide] at hregular
      obtain ⟨hline, hlong, hentry⟩ := hregular
      obtain ⟨hno, hok⟩ := (lineOk_iff dirname line).mpr hline
      rw [Bool.not_eq_true] at hwide
      -- a line that fails is followed by taking the plugin out
      have hunplug : NoFault (pluginUnplug t p) := by
        rw [noFault_pluginUnplug]
        rintro ⟨hw, hl⟩
        rw [hlong hw] at hl
        cases hl
      have hfail : NoFault (finish (false, t, p)) := noFault_finish.mpr fun _ => hunplug
      have hinsert : NoFault (insertPluginFromTransactionLine (elf 0) dirname t p line) := by
        refine noFault_bind.mpr ⟨hno hwide, fun ⟨info, elfpath⟩ hread => ?_⟩
        obtain ⟨name, hinfo⟩ := entryName_of_entryOfLine hread
        obtain ⟨file, hfile, -⟩ := (hok info elfpath).mp ⟨hwide, hread⟩
        exact (noFault_pluginPlugElf hinfo).mpr (hentry info file hfile).1
      rw [insertLines_entry (by rw [hwide]; decide)]
      rcases hrun : insertPluginFromTransactionLine (elf 0) dirname t p line with (⟨⟩ | f) | ⟨t', p'⟩
      · exact hfail
      · exact absurd hrun (hinsert f)
      · exact ih (htail t' p' hrun)

theorem Reaches.cons {t' : List EntryPointMap} {p' : Plugin} {first : Name}
    (hstep : ∀ elf lines r, insertLines dirname elf lines t' p' = .ok (true, r) →
      ∃ elf, insertLines dirname elf (first :: lines) t p = .ok (true, r))
    (h : Reaches dirname lines t' p' line) : Reaches dirname (first :: lines) t p line := by
  obtain ⟨before, after, elf, r, rfl, hrun⟩ := h
  obtain ⟨elf', hrun'⟩ := hstep elf before r hrun
  exact ⟨first :: before, after, elf', r, rfl, hrun'⟩

theorem Reaches.cons_entry {t' : List EntryPointMap} {p' : Plugin} {first : Name}
    (hwide : ¬systemWideWord.isPrefixOf first = true)
    (hinsert : insertPluginFromTransactionLine true dirname t p first = .ok (t', p'))
    (h : Reaches dirname lines t' p' line) : Reaches dirname (first :: lines) t p line := by
  refine h.cons fun elf lines r hrun => ⟨fun n => n.casesOn true elf, ?_⟩
  rwa [insertLines_of_insert hwide hinsert]

/-- **The loop** goes well only if the lines are regular: with an empty table, and also with any other as soon as
the plugin is system-wide and all its names fit. -/
theorem linesRegular_of_noFault : ∀ {lines t p}, t = [] ∨ (p.isSystemWide = true ∧ hasLongName p = false) →
    (∀ elf, NoFault (insertLines dirname elf lines t p >>= finish)) →
      (∀ line, Reaches dirname lines t p line → LineOk dirname line) →
        LinesRegular dirname p.isSystemWide (hasLongName p) lines := by
  intro lines
  induction lines with
  | nil =>
    intro t p _ _ _
    trivial
  | cons line lines ih =>
    intro t p hstart hno hreach
    have hok := hreach line ⟨[], lines, fun _ => true, (t, p), rfl, rfl⟩
    refine ⟨(lineOk_iff dirname line).mp hok, ?_⟩
    split_ifs with hwide
    · refine @ih t { p with isSystemWide := true } ?_ ?_ ?_
      · exact hstart.imp_right fun h => ⟨rfl, h.2⟩
      · intro elf
        have h := hno fun n => elf (n - 1)
        rwa [insertLines_systemWide hwide] at h
      · refine fun l hl => hreach l (hl.cons fun elf lines r hrun => ⟨fun n => elf (n - 1), ?_⟩)
        rwa [insertLines_systemWide hwide]
    · have hlong : p.isSystemWide = true → hasLongName p = false := by
        intro hw
        by_contra hl
        rw [Bool.not_eq_false] at hl
        obtain rfl : t = [] := hstart.resolve_right fun h => by
          rw [h.2] at hl
          cases hl
        -- the file of this line cannot be loaded, and the plugin cannot be taken out
        have h := hno fun _ => false
        rw [insertLines_entry hwide] at h
        have hunplug : ¬NoFault (finish (false, [], p)) := by
          intro hf
          exact noFault_pluginUnplug.mp (noFault_finish.mp hf rfl) ⟨hw, hl⟩
        rcases hline : entryOfLine dirname line with (⟨⟩ | f) | ⟨info, elfpath⟩
        · rw [insertPluginFromTransactionLine, hline] at h
          exact hunplug h
        · rw [insertPluginFromTransactionLine, hline] at h
          exact h f rfl
        · obtain ⟨name, hinfo⟩ := entryName_of_entryOfLine hline
          rw [insertPlugin_of_ok hline] at h
          cases hfits : longName info with
          | false =>
            rw [pluginPlugElf_nil hinfo hfits] at h
            exact hunplug h
          | true =>
            rw [longName, hinfo, Option.any_some, decide_eq_true_iff] at hfits
            rw [pluginPlugElf_systemWide hinfo hw, if_neg (by omega)] at h
            exact h .write rfl
      refine ⟨hlong, fun info file hfile => ?_⟩
      have hline := ((hok.2 info _).mpr ⟨file, hfile, rfl⟩).2
      obtain ⟨name, hinfo⟩ := entryName_of_entryOfLine hline
      have hafter := fun t' p' hinsert l hl => hreach l
        (@Reaches.cons_entry dirname l t p lines t' p' line hwide hinsert hl)
      simp only [insertPlugin_of_ok hline] at hafter
      have hname : p.isSystemWide = true → longName info = false := by
        rw [← @noFault_pluginPlugElf true t p info name hinfo]
        intro f hf
        have h := hno fun _ => true
        rw [insertLines_entry hwide, insertPlugin_of_ok hline, hf] at h
        exact h f rfl
      refine ⟨hname, ?_⟩
      -- the table and the plugin after the line, whose file can be loaded
      obtain ⟨t', p', hplug⟩ : ∃ t' p', pluginPlugElf true t p info = .ok (t', p') := by
        rcases h : pluginPlugElf true t p info with (⟨⟩ | f) | ⟨t', p'⟩
        · exact absurd h (pluginPlugElf_true hinfo)
        · exact absurd h ((noFault_pluginPlugElf hinfo).mpr hname f)
        · exact ⟨t', p', rfl⟩
      have hrest : ∀ elf, NoFault (insertLines dirname elf lines t' p' >>= finish) := by
        intro elf
        have h := hno fun n => n.casesOn true elf
        rwa [insertLines_of_insert hwide ((insertPlugin_of_ok hline).trans hplug)] at h
      have hnext := fun hstart' => @ih t' p' hstart' hrest (hafter t' p' hplug)
      rcases pluginPlugElf_cases hinfo hplug with ⟨hw, rfl, rfl⟩ | ⟨hw, -, -, rfl⟩ | ⟨hw, rfl, rfl⟩
      · rw [hname hw, Bool.or_false]
        exact hnext (.inr ⟨hw, hlong hw⟩)
      · rw [hasLongName_append hinfo] at hnext
        refine hnext (.inr ⟨hw, ?_⟩)
        rw [hlong hw, hname hw]
        rfl
      · rw [hasLongName_append hinfo] at hnext
        refine hnext (.inl (hstart.resolve_right fun h => ?_))
        rw [h.1] at hw
        cases hw

theorem insertLines_ne_reject : ∀ {elf t p}, insertLines dirname elf lines t p ≠ reject () := by
  induction lines with
  | nil => exact nofun
  | cons line lines ih =>
    intro elf t p
    by_cases hwide : systemWideWord.isPrefixOf line = true
    · rw [insertLines_systemWide hwide]
      exact ih
    · rw [insertLines_entry hwide]
      split
      · exact ih
      · exact nofun
      · exact nofun

end Loop

/-! ### The whole text -/

section Text

variable {dirname filename : Name} {elf : ℕ → Bool} {text : List UInt8} {lookingFor id : ℕ}
  {t : List EntryPointMap}

theorem pluginInsertTransaction_of_ok {r : ℕ × ℕ} (h : readHeader lookingFor (linesOf text) = .ok r) :
    pluginInsertTransaction elf dirname filename (some text) lookingFor id t =
      insertLines dirname elf ((linesOf text).drop 2) t ⟨id, filename, r.2, false, r.1, []⟩ >>= finish := by
  unfold pluginInsertTransaction
  dsimp only
  rw [h]
  rfl

/-- **`plugin_insert_transaction`** comes to an end unless it faults. -/
theorem pluginInsertTransaction_ok_iff :
    (∃ t' r, pluginInsertTransaction elf dirname filename (some text) lookingFor id t = .ok (t', r)) ↔
      NoFault (pluginInsertTransaction elf dirname filename (some text) lookingFor id t) := by
  constructor
  · rintro ⟨t', r, h⟩
    rw [h]
    exact noFault_ok _
  · intro hno
    rcases hheader : readHeader lookingFor (linesOf text) with (⟨⟩ | f) | r
    · refine ⟨t, none, ?_⟩
      unfold pluginInsertTransaction
      dsimp only
      rw [hheader]
      rfl
    · unfold pluginInsertTransaction at hno
      dsimp only at hno
      rw [hheader] at hno
      exact absurd rfl (hno f)
    · rw [pluginInsertTransaction_of_ok hheader] at hno ⊢
      rcases hloop : insertLines dirname elf ((linesOf text).drop 2) t ⟨id, filename, r.2, false, r.1, []⟩ with
        (⟨⟩ | f) | ⟨ok, t', p⟩
      · exact absurd hloop insertLines_ne_reject
      · rw [hloop] at hno
        exact absurd rfl (hno f)
      · rw [hloop, ok_bind] at hno
        cases ok with
        | true => exact ⟨t', some p, rfl⟩
        | false =>
          have hunplug := noFault_finish.mp hno rfl
          rcases hu : pluginUnplug t' p with (⟨⟩ | f) | t''
          · exact absurd hu pluginUnplug_ne_reject
          · exact absurd hu (hunplug f)
          · refine ⟨t'', none, ?_⟩
            rw [ok_bind, finish, if_neg Bool.false_ne_true, hu]
            rfl

/-- **Which texts are read as they are meant**: exactly the regular ones. -/
theorem textOk_iff (dirname : Name) (text : List UInt8) : TextOk dirname text ↔ TextRegular dirname text := by
  constructor
  · rintro ⟨hrun, hok⟩
    simp only [pluginInsertTransaction_ok_iff] at hrun
    have hheader : HeaderRegular (linesOf text) := by
      refine noFault_readHeader.mp fun lookingFor f hf => ?_
      have h := hrun (fun _ => true) [] lookingFor 0 []
      unfold pluginInsertTransaction at h
      dsimp only at h
      rw [hf] at h
      exact h f rfl
    refine ⟨hheader, fun hcomplete => ?_⟩
    obtain ⟨r, hr⟩ := hcomplete.readHeader_zero hheader
    refine @linesRegular_of_noFault dirname _ [] ⟨0, [], r.2, false, r.1, []⟩ (.inl rfl) (fun elf => ?_)
      fun line hline => hok 0 r.1 r.2 hr [] 0 [] line hline
    have h := hrun elf [] 0 0 []
    rwa [pluginInsertTransaction_of_ok hr] at h
  · rintro ⟨hheader, hlines⟩
    refine ⟨fun elf filename lookingFor id t => ?_, fun lookingFor memorySize uid hr filename id t line hline =>
      (lineOk_iff dirname line).mpr (LinesRegular.of_reaches hline (hlines (.of_readHeader hr)))⟩
    rw [pluginInsertTransaction_ok_iff]
    have hno := noFault_readHeader.mpr hheader
    rcases hr : readHeader lookingFor (linesOf text) with (⟨⟩ | f) | r
    · unfold pluginInsertTransaction
      dsimp only
      rw [hr]
      exact noFault_pure _
    · exact absurd hr (hno lookingFor f)
    · rw [pluginInsertTransaction_of_ok hr]
      exact noFault_insertLines (hlines (.of_readHeader hr))

/-- `memory 1`, `uid 1`, and a line that ends after `param`. -/
def brokenText : List UInt8 :=
  [0x6d, 0x65, 0x6d, 0x6f, 0x72, 0x79, 0x20, 0x31, 0x0a, 0x75, 0x69, 0x64, 0x20, 0x31, 0x0a, 0x61, 0x20, 0x70,
   0x72, 0x6f, 0x74, 0x6f, 0x63, 0x6f, 0x6c, 0x5f, 0x72, 0x65, 0x6c, 0x61, 0x79, 0x20, 0x70, 0x61, 0x72, 0x61,
   0x6d, 0x0a]

/-- **A line that ends after `param`**: there is no token for `strtoul`. -/
theorem not_textOk_param : ¬TextOk [0x2f, 0x70] brokenText := by
  intro h
  obtain ⟨t', r, hrun⟩ := h.1 (fun _ => true) [] 0 0 []
  have hfault : fault? (pluginInsertTransaction (fun _ => true) [0x2f, 0x70] [] (some brokenText) 0 0 []) =
      some .nullPointer := by
    decide +kernel
  rw [hrun] at hfault
  cases hfault

end Text

end TorEbpf.Or
