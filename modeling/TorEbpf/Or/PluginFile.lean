import Mathlib
import TorEbpf.Strings.ParseInt
import TorEbpf.Or.PluginTransfer

/-!
# `.plugin` files

A plugin comes with a text: a line with the memory it needs, a line with its uid, and a line for each of
its entry points, which names a place in the code and the file with the code for it.
`plugin_insert_transaction` reads the text and fills in `plugin_map_ht`, in which the entry points of
system-wide plugins are found.

* `insertPluginFromTransactionLine`, `pluginPlugElf` — a line, and the entry point that it asks for;
* `entryOfLine_eq` — what a line says, by its tokens;
* `EntryLine` — what a line is meant to be, and `lineOk_iff`: which lines are read that way.
-/

namespace TorEbpf.Or

open TorEbpf.Lib TorEbpf.Strings

/-! ### Plugins and their entry points -/

inductive PluginType where
  | dev | user
  deriving DecidableEq, Repr

/-- `plugin_usage_type_t`. -/
inductive PluginUsage where
  | hijack | add | del
  deriving DecidableEq, Repr

inductive PluginFamily where
  | core | relay | circpad | connEdge | plugin
  deriving DecidableEq, Repr

/-- `entry_info_t`; the name is `NULL` in a cleared one. -/
structure EntryInfo where
  entryName : Option Name
  ptype : PluginType
  putype : PluginUsage
  pfamily : PluginFamily
  param : ℤ
  deriving DecidableEq, Repr

/-- A cleared `entry_info_t`. -/
def EntryInfo.zero : EntryInfo := ⟨none, .dev, .hijack, .core, 0⟩

/-- What an entry of `plugin_map_ht` is found by. -/
structure EntryKey where
  entryName : Name
  ptype : PluginType
  putype : PluginUsage
  pfamily : PluginFamily
  param : ℤ
  deriving DecidableEq, Repr

/-- `entry_point_map_t`: it refers to a plugin and to one of its entry points. -/
structure EntryPointMap where
  key : EntryKey
  plugin : ℕ
  entryPoint : ℕ
  deriving DecidableEq, Repr

/-- `plugin_entry_point_t`. -/
structure EntryPoint where
  entryName : Name
  info : EntryInfo
  deriving DecidableEq, Repr

/-- `plugin_t`; `id` is its address. -/
structure Plugin where
  id : ℕ
  pname : Name
  uid : ℕ
  isSystemWide : Bool
  memorySize : ℕ
  entryPoints : List EntryPoint
  deriving DecidableEq, Repr

/-- The key for a name, and the rest from an `entry_info_t`. -/
def EntryInfo.key (info : EntryInfo) (name : Name) : EntryKey :=
  ⟨name, info.ptype, info.putype, info.pfamily, info.param⟩

/-! ### The table -/

/-- `plugin_entry_hash_` copies the name into an array in which 256 bytes are left for it. -/
def pluginEntryHash (key : EntryKey) : Step Unit :=
  if key.entryName.length ≤ 256 then pure () else fault .write

/-- `HT_FIND`. -/
def mapFind (t : List EntryPointMap) (key : EntryKey) : Step (Option EntryPointMap) := do
  pluginEntryHash key
  pure (t.find? (·.key = key))

/-- `HT_INSERT`. -/
def mapInsert (t : List EntryPointMap) (e : EntryPointMap) : Step (List EntryPointMap) := do
  pluginEntryHash e.key
  pure (e :: t)

/-- `HT_REMOVE`. -/
def mapRemove (t : List EntryPointMap) (key : EntryKey) : Step (List EntryPointMap) := do
  pluginEntryHash key
  pure (t.eraseP (·.key = key))

def pluginMapEntrypointRemove (t : List EntryPointMap) (ep : EntryPoint) : Step (List EntryPointMap) :=
  mapRemove t (ep.info.key ep.entryName)

/-- `plugin_unplug`: what is left in the table. -/
def pluginUnplug (t : List EntryPointMap) (p : Plugin) : Step (List EntryPointMap) :=
  if p.isSystemWide then p.entryPoints.foldlM pluginMapEntrypointRemove t else pure t

/-- `plugin_plug_elf`; `elf` says if the file with the code can be loaded. -/
def pluginPlugElf (elf : Bool) (t : List EntryPointMap) (p : Plugin) (einfo : EntryInfo) :
    Step (List EntryPointMap × Plugin) := do
  match einfo.entryName with
  | none => fault .nullPointer
  | some name =>
      let found ← if p.isSystemWide then mapFind t (einfo.key name) else pure none
      if found.isSome then pure (t, p)
      else if elf = false then reject ()
      else if p.isSystemWide then
        let t ← mapInsert t ⟨einfo.key name, p.id, p.entryPoints.length⟩
        pure (t, { p with entryPoints := p.entryPoints ++ [⟨name, einfo⟩] })
      else pure (t, { p with entryPoints := p.entryPoints ++ [⟨name, EntryInfo.zero⟩] })

/-! ### Numbers -/

/-- The value of a digit; a character that is no digit has one that is too large. -/
def digitValue (c : UInt8) : ℕ :=
  if isDigit c then c.toNat - 48
  else if 97 ≤ c ∧ c ≤ 122 then c.toNat - 87
  else if 65 ≤ c ∧ c ≤ 90 then c.toNat - 55
  else 36

/-- The digits at the start, in a base; nothing if there are none. -/
def readDigits (base : ℕ) (l : List UInt8) : Option (ℕ × List UInt8) :=
  let digits := l.takeWhile fun c => digitValue c < base
  if digits = [] then none
  else some (digits.foldl (fun v c => base * v + digitValue c) 0, l.drop digits.length)

/-- A number whose base its first characters tell: `0x` for hexadecimal, `0` for octal. -/
def readNumber : List UInt8 → Option (ℕ × List UInt8)
  | 0x30 :: c :: rest =>
      if c = 0x78 ∨ c = 0x58 then
        match readDigits 16 rest with
        | some r => some r
        | none => some (0, c :: rest)
      else readDigits 8 (0x30 :: c :: rest)
  | l => readDigits 10 l

def signedNumber (s : Name) : Option (Bool × ℕ × Name) :=
  let (negative, t) := sign (s.dropWhile isSpace)
  (readNumber t).map fun (v, rest) => (negative, v, rest)

/-- `strtoul` with base 0: the value, and where it ends. -/
def strtoul0 (s : Name) : ℕ × Name :=
  match signedNumber s with
  | none => (0, s)
  | some (negative, v, rest) =>
      (if 2 ^ 64 ≤ v then 2 ^ 64 - 1 else if negative then (2 ^ 64 - v) % 2 ^ 64 else v, rest)

/-- The cast of an `unsigned long` to `int`. -/
def castInt (v : ℕ) : ℤ := Int.bmod v (2 ^ 32)

/-! ### Lines -/

/-- `strsep` with one delimiter: the token, and what follows it. -/
def strsep (delim : UInt8) : Option Name → Option Name × Option Name
  | none => (none, none)
  | some s =>
      (some (s.takeWhile (· ≠ delim)),
        match s.dropWhile (· ≠ delim) with
        | [] => none
        | _ :: rest => some rest)

/-- The keyword `memory`. -/
def memoryWord : Name := [0x6d, 0x65, 0x6d, 0x6f, 0x72, 0x79]

/-- The keyword `uid`. -/
def uidWord : Name := [0x75, 0x69, 0x64]

/-- The keyword `system-wide`. -/
def systemWideWord : Name := [0x73, 0x79, 0x73, 0x74, 0x65, 0x6d, 0x2d, 0x77, 0x69, 0x64, 0x65]

/-- The keyword `param`. -/
def paramWord : Name := [0x70, 0x61, 0x72, 0x61, 0x6d]

/-- The families that a line can name, in the order in which they are tried. -/
def families : List (Name × PluginFamily) :=
  [([0x70, 0x72, 0x6f, 0x74, 0x6f, 0x63, 0x6f, 0x6c, 0x5f, 0x72, 0x65, 0x6c, 0x61, 0x79], .relay),
   ([0x70, 0x72, 0x6f, 0x74, 0x6f, 0x63, 0x6f, 0x6c, 0x5f, 0x63, 0x69, 0x72,
     0x63, 0x70, 0x61, 0x64], .circpad),
   ([0x70, 0x72, 0x6f, 0x74, 0x6f, 0x63, 0x6f, 0x6c, 0x5f, 0x63, 0x6f, 0x6e,
     0x6e, 0x5f, 0x65, 0x64, 0x67, 0x65], .connEdge),
   ([0x70, 0x72, 0x6f, 0x74, 0x6f, 0x63, 0x6f, 0x6c, 0x5f, 0x70, 0x6c, 0x75, 0x67, 0x69, 0x6e], .plugin)]

/-- The keywords of a line, in the order in which they are tried. -/
def usages : List (Name × PluginUsage) :=
  [([0x72, 0x65, 0x70, 0x6c, 0x61, 0x63, 0x65], .hijack),
   ([0x64, 0x65, 0x6c], .del),
   ([0x61, 0x64, 0x64], .add)]

/-- The first word of a table that a token starts with. -/
def prefixMatch {β : Type} (table : List (Name × β)) (token : Name) : Option β :=
  (table.find? fun e => e.1.isPrefixOf token).map (·.2)

def maxPath : ℕ := 255

/-- `elfpath`: `strlcpy` of the directory, and `strcat` of a slash and the file. -/
def elfPath (dirname file : Name) : Step Name :=
  let path := dirname.take (maxPath - 1) ++ 0x2f :: file
  if path.length < maxPath then pure path else fault .write

/-- The optional parameter: the keyword after it, its value, and what follows the keyword. -/
def paramOfLine (keyword : Name) (rest : Option Name) : Step (Option Name × ℤ × Option Name) :=
  if paramWord.isPrefixOf keyword then
    match strsep 0x20 rest with
    | (none, _) => fault .nullPointer
    | (some token, rest) =>
        let (v, errmsg) := strtoul0 token
        if errmsg ≠ [] then reject ()
        else
          let (keyword, rest) := strsep 0x20 rest
          pure (keyword, castInt v, rest)
  else pure (some keyword, 0, rest)

def plugOfLine (dirname : Name) (einfo : EntryInfo) (keyword rest : Option Name) :
    Step (EntryInfo × Name) :=
  match keyword with
  | none => fault .nullPointer
  | some keyword =>
      match prefixMatch usages keyword with
      | none => reject ()
      | some putype =>
          match (strsep 0x20 rest).1 with
          | none => reject ()
          | some token => do
              let elfpath ← elfPath dirname (token.takeWhile fun c => c ≠ 0x0d && c ≠ 0x0a)
              pure ({ einfo with putype := putype }, elfpath)

/-- `insert_plugin_from_transaction_line` up to its call of `plugin_plug_elf`: what it is called with. -/
def entryOfLine (dirname line : Name) : Step (EntryInfo × Name) := do
  match strsep 0x20 (some line) with
  | (none, _) => reject ()
  | (some name, rest) =>
      match strsep 0x20 rest with
      | (none, _) => reject ()
      | (some family, rest) =>
          -- a family that is not known is only logged
          let pfamily := (prefixMatch families family).getD .core
          match strsep 0x20 rest with
          | (none, _) => reject ()
          | (some keyword, rest) =>
              let (keyword, param, rest) ← paramOfLine keyword rest
              plugOfLine dirname ⟨some name, .dev, .hijack, pfamily, param⟩ keyword rest

def insertPluginFromTransactionLine (elf : Bool) (dirname : Name) (t : List EntryPointMap) (p : Plugin)
    (line : Name) : Step (List EntryPointMap × Plugin) := do
  let (einfo, _) ← entryOfLine dirname line
  pluginPlugElf elf t p einfo

/-! ### The whole text -/

/-- `getline` again and again: the lines, each with its newline. -/
def getLines : List UInt8 → List Name
  | [] => []
  | b :: rest =>
      if b = 0x0a then [b] :: getLines rest
      else
        match getLines rest with
        | [] => [[b]]
        | line :: lines => (b :: line) :: lines

def linesOf (text : List UInt8) : List Name := (getLines text).map cString

/-- The number in one of the two first lines. -/
def headerValue (word line : Name) : Step ℕ :=
  match strsep 0x20 (some line) with
  | (none, _) => reject ()
  | (some token, rest) =>
      if word.isPrefixOf token then
        match (strsep 0x0a rest).1 with
        | none => fault .nullPointer
        | some token =>
            let (v, errmsg) := strtoul0 token
            if errmsg ≠ [] then reject () else pure v
      else reject ()

/-- `plugin_memory_init`: a negative size is too large for `tor_malloc_zero`. -/
def pluginMemoryInit (memoryNeeded : ℤ) : Step ℕ :=
  if 0 ≤ memoryNeeded then pure memoryNeeded.toNat else fault .assertion

/-- The lines with the entry points, until one fails; `elf` says which files can be loaded. -/
def insertLines (dirname : Name) : (elf : ℕ → Bool) → List Name → List EntryPointMap → Plugin →
    Step (Bool × List EntryPointMap × Plugin)
  | _, [], t, p => pure (true, t, p)
  | elf, line :: lines, t, p =>
      -- `len` is the size of the buffer, which is never as small as the test for blank lines wants it
      if systemWideWord.isPrefixOf line then
        insertLines dirname (fun n => elf (n + 1)) lines t { p with isSystemWide := true }
      else
        match insertPluginFromTransactionLine (elf 0) dirname t p line with
        | .ok (t, p) => insertLines dirname (fun n => elf (n + 1)) lines t p
        | .error (.reject _) => pure (false, t, p)
        | .error (.fault f) => fault f

/-- The two first lines: the memory and the uid. -/
def readHeader (lookingFor : ℕ) : List Name → Step (ℕ × ℕ)
  | [] => reject ()
  | [line] => do
      let _ ← headerValue memoryWord line
      reject ()
  | line :: line' :: _ => do
      let memory ← headerValue memoryWord line
      let uid ← headerValue uidWord line'
      if lookingFor ≠ 0 ∧ lookingFor ≠ uid then reject ()
      else
        let memorySize ← pluginMemoryInit (castInt memory)
        pure (memorySize, uid)

/-- `plugin_insert_transaction`: the table afterwards, and the plugin if it could be built.  There is no
`file` if it cannot be opened; `id` is the address of the new plugin. -/
def pluginInsertTransaction (elf : ℕ → Bool) (dirname filename : Name) (file : Option (List UInt8))
    (lookingFor id : ℕ) (t : List EntryPointMap) : Step (List EntryPointMap × Option Plugin) :=
  match file with
  | none => pure (t, none)
  | some text =>
      match readHeader lookingFor (linesOf text) with
      | .error (.reject _) => pure (t, none)
      | .error (.fault f) => fault f
      | .ok (memorySize, uid) => do
          let (ok, t, p) ← insertLines dirname elf ((linesOf text).drop 2) t
            ⟨id, filename, uid, false, memorySize, []⟩
          if ok then pure (t, some p)
          else
            let t ← pluginUnplug t p
            pure (t, none)

/-! ### Tokens -/

def tokens : Name → List Name
  | [] => [[]]
  | b :: rest =>
      if b = 0x20 then [] :: tokens rest
      else
        match tokens rest with
        | [] => [[b]]
        | t :: ts => (b :: t) :: ts

/-- The line that consists of some tokens; `NULL` if there are none. -/
def untokens : List Name → Option Name
  | [] => none
  | t :: ts =>
      match untokens ts with
      | none => some t
      | some rest => some (t ++ 0x20 :: rest)

section Tokens

variable {line t rest : Name} {ts : List Name}

theorem tokens_ne_nil (line : Name) : tokens line ≠ [] := by
  cases line with
  | nil => exact List.cons_ne_nil _ _
  | cons b rest =>
    rw [tokens]
    split_ifs
    · exact List.cons_ne_nil _ _
    · split
      · exact List.cons_ne_nil _ _
      · exact List.cons_ne_nil _ _

theorem not_mem_of_mem_tokens : ∀ {line : Name}, t ∈ tokens line → 0x20 ∉ t := by
  intro line
  induction line generalizing t with
  | nil =>
    intro ht
    rw [List.mem_singleton.mp ht]
    exact List.not_mem_nil
  | cons b rest ih =>
    intro ht
    rw [tokens] at ht
    split_ifs at ht with hb
    · rcases List.mem_cons.mp ht with rfl | ht
      · exact List.not_mem_nil
      · exact ih ht
    · split at ht
      · rw [List.mem_singleton.mp ht, List.mem_singleton]
        exact Ne.symm hb
      · rename_i u us heq
        rcases List.mem_cons.mp ht with rfl | ht
        · rw [List.mem_cons, not_or]
          exact ⟨Ne.symm hb, ih (heq ▸ List.mem_cons_self)⟩
        · exact ih (heq ▸ List.mem_cons_of_mem _ ht)

theorem tokens_append (ht : 0x20 ∉ t) (rest : Name) : tokens (t ++ 0x20 :: rest) = t :: tokens rest := by
  induction t with
  | nil => exact if_pos rfl
  | cons b t ih =>
    rw [List.mem_cons, not_or] at ht
    rw [List.cons_append, tokens, if_neg (Ne.symm ht.1), ih ht.2]

theorem tokens_of_not_mem (ht : 0x20 ∉ t) : tokens t = [t] := by
  induction t with
  | nil => rfl
  | cons b t ih =>
    rw [List.mem_cons, not_or] at ht
    rw [tokens, if_neg (Ne.symm ht.1), ih ht.2]

theorem untokens_tokens (line : Name) : untokens (tokens line) = some line := by
  induction line with
  | nil => rfl
  | cons b rest ih =>
    rw [tokens]
    split_ifs with hb
    · rw [untokens, ih, hb]
      rfl
    · rcases hts : tokens rest with _ | ⟨t, ts⟩
      · exact absurd hts (tokens_ne_nil rest)
      · rw [hts, untokens] at ih
        rw [untokens]
        cases hus : untokens ts with
        | none =>
          rw [hus] at ih
          cases ih
          rfl
        | some us =>
          rw [hus] at ih
          cases ih
          rfl

/-- **`strsep`** takes the first token. -/
theorem strsep_untokens (ht : 0x20 ∉ t) : strsep 0x20 (untokens (t :: ts)) = (some t, untokens ts) := by
  have htake : ∀ rest, (t ++ rest).takeWhile (· ≠ 0x20) = t ++ rest.takeWhile (· ≠ (0x20 : UInt8)) :=
    fun rest => List.takeWhile_append_of_pos fun b hb => decide_eq_true (ne_of_mem_of_not_mem hb ht)
  have hdrop : ∀ rest, (t ++ rest).dropWhile (· ≠ 0x20) = rest.dropWhile (· ≠ (0x20 : UInt8)) :=
    fun rest => List.dropWhile_append_of_pos fun b hb => decide_eq_true (ne_of_mem_of_not_mem hb ht)
  rw [untokens]
  cases untokens ts with
  | none =>
    have h₁ := htake []
    have h₂ := hdrop []
    rw [List.append_nil] at h₁ h₂
    rw [strsep, h₁, h₂]
    simp
  | some rest =>
    rw [strsep, htake, hdrop]
    simp

end Tokens

def plugOfTokens (dirname : Name) (einfo : EntryInfo) : List Name → Step (EntryInfo × Name)
  | [] => fault .nullPointer
  | keyword :: rest =>
      match prefixMatch usages keyword with
      | none => reject ()
      | some putype =>
          match rest with
          | [] => reject ()
          | token :: _ => do
              let elfpath ← elfPath dirname (token.takeWhile fun c => c ≠ 0x0d && c ≠ 0x0a)
              pure ({ einfo with putype := putype }, elfpath)

/-- What is filled in from the name, the family and the parameter. -/
def startInfo (name family : Name) (param : ℤ) : EntryInfo :=
  ⟨some name, .dev, .hijack, (prefixMatch families family).getD .core, param⟩

def entryOfTokens (dirname : Name) : List Name → Step (EntryInfo × Name)
  | name :: family :: keyword :: rest =>
      if paramWord.isPrefixOf keyword then
        match rest with
        | [] => fault .nullPointer
        | token :: rest =>
            if (strtoul0 token).2 ≠ [] then reject ()
            else plugOfTokens dirname (startInfo name family (castInt (strtoul0 token).1)) rest
      else plugOfTokens dirname (startInfo name family 0) (keyword :: rest)
  | _ => reject ()

section Lines

variable {dirname name family keyword token line file : Name} {ts rest : List Name} {info : EntryInfo}

theorem plugOfLine_eq (hts : ∀ t ∈ keyword :: ts, 0x20 ∉ t) :
    plugOfLine dirname info (some keyword) (untokens ts) = plugOfTokens dirname info (keyword :: ts) := by
  rw [plugOfLine, plugOfTokens]
  cases prefixMatch usages keyword with
  | none => rfl
  | some putype =>
    cases ts with
    | nil => rfl
    | cons token ts =>
      rw [strsep_untokens (hts token (by simp))]

/-- **A line says what its tokens do.** -/
theorem entryOfLine_eq (dirname line : Name) :
    entryOfLine dirname line = entryOfTokens dirname (tokens line) := by
  have hspace : ∀ t ∈ tokens line, 0x20 ∉ t := fun t ht => not_mem_of_mem_tokens ht
  rw [entryOfLine, ← untokens_tokens line]
  generalize tokens line = ts at hspace
  rcases ts with _ | ⟨name, _ | ⟨family, _ | ⟨keyword, rest⟩⟩⟩
  · rfl
  · rw [strsep_untokens (hspace name (by simp))]
    rfl
  · rw [strsep_untokens (hspace name (by simp))]
    dsimp only
    rw [strsep_untokens (hspace family (by simp))]
    rfl
  · rw [strsep_untokens (hspace name (by simp))]
    dsimp only
    rw [strsep_untokens (hspace family (by simp))]
    dsimp only
    rw [strsep_untokens (hspace keyword (by simp))]
    dsimp only
    rw [paramOfLine]
    show _ = if paramWord.isPrefixOf keyword then _ else _
    split_ifs
    · rcases rest with _ | ⟨token, rest⟩
      · rfl
      · rw [strsep_untokens (hspace token (by simp))]
        dsimp only
        split_ifs
        · rfl
        · rcases rest with _ | ⟨keyword', rest⟩
          · rfl
          · rw [strsep_untokens (hspace keyword' (by simp))]
            have htail : ∀ t ∈ keyword' :: rest, 0x20 ∉ t := fun t ht =>
              hspace t (.tail _ (.tail _ (.tail _ (.tail _ ht))))
            generalize castInt (strtoul0 token).1 = param
            exact plugOfLine_eq htail
    · have htail : ∀ t ∈ keyword :: rest, 0x20 ∉ t := fun t ht => hspace t (.tail _ (.tail _ ht))
      exact plugOfLine_eq htail

/-! ### What a line is meant to be -/

def IsNumber (n : Name) (v : ℤ) : Prop :=
  ∃ negative m, signedNumber n = some (negative, m, []) ∧ v = (if negative then -(m : ℤ) else m) ∧
    -2 ^ 31 ≤ v ∧ v < 2 ^ 31

def IsParam (text : Name) (v : ℤ) : Prop :=
  (text = [] ∧ v = 0) ∨ ∃ n, text = paramWord ++ 0x20 :: n ++ [0x20] ∧ 0x20 ∉ n ∧ IsNumber n v

def eols : List Name := [[], [0x0a], [0x0d, 0x0a], [0x0d]]

/-- **An entry line**: `name family [param N] (replace|del|add) file`. -/
def EntryLine (line : Name) (info : EntryInfo) (file : Name) : Prop :=
  ∃ name family param keyword eol : Name,
    line = name ++ 0x20 :: (family ++ 0x20 :: (param ++ (keyword ++ 0x20 :: (file ++ eol)))) ∧
    (name ≠ [] ∧ 0x20 ∉ name ∧ info.entryName = some name) ∧ info.ptype = .dev ∧
    (family, info.pfamily) ∈ families ∧ IsParam param info.param ∧ (keyword, info.putype) ∈ usages ∧
    (file ≠ [] ∧ ∀ c ∈ file, c ≠ 0x20 ∧ c ≠ 0x0d ∧ c ≠ 0x0a) ∧ eol ∈ eols

/-- The last token of a line, without what ends the line. -/
def fileOf (token : Name) : Name := token.takeWhile fun c => c ≠ 0x0d && c ≠ 0x0a

def eolOf (token : Name) : Name := token.dropWhile fun c => c ≠ 0x0d && c ≠ 0x0a

/-- The tokens of an entry line, without those for the parameter. -/
def EntryFields (name family keyword token : Name) (info : EntryInfo) : Prop :=
  (name ≠ [] ∧ info.entryName = some name) ∧ info.ptype = .dev ∧ (family, info.pfamily) ∈ families ∧
    (keyword, info.putype) ∈ usages ∧ fileOf token ≠ [] ∧ eolOf token ∈ eols

theorem fileOf_append {eol : Name} (hfile : ∀ c ∈ file, c ≠ 0x20 ∧ c ≠ 0x0d ∧ c ≠ 0x0a) (heol : eol ∈ eols) :
    fileOf (file ++ eol) = file ∧ eolOf (file ++ eol) = eol := by
  have hpos : ∀ c ∈ file, (fun c : UInt8 => c ≠ 0x0d && c ≠ 0x0a) c = true := by
    intro c hc
    simpa using (hfile c hc).2
  have hstop : eol.takeWhile (fun c : UInt8 => c ≠ 0x0d && c ≠ 0x0a) = [] ∧
      eol.dropWhile (fun c : UInt8 => c ≠ 0x0d && c ≠ 0x0a) = eol :=
    (show ∀ e ∈ eols, e.takeWhile (fun c : UInt8 => c ≠ 0x0d && c ≠ 0x0a) = [] ∧
      e.dropWhile (fun c : UInt8 => c ≠ 0x0d && c ≠ 0x0a) = e by decide) eol heol
  rw [fileOf, eolOf, List.takeWhile_append_of_pos hpos, List.dropWhile_append_of_pos hpos, hstop.1, hstop.2,
    List.append_nil]
  exact ⟨rfl, rfl⟩

theorem fileOf_eolOf (token : Name) : fileOf token ++ eolOf token = token :=
  List.takeWhile_append_dropWhile

theorem not_mem_eols {eol : Name} (h : eol ∈ eols) : 0x20 ∉ eol :=
  (show ∀ e ∈ eols, (0x20 : UInt8) ∉ e by decide) eol h

theorem not_mem_families {f : PluginFamily} (h : (family, f) ∈ families) : 0x20 ∉ family :=
  (show ∀ e ∈ families, (0x20 : UInt8) ∉ e.1 by decide) _ h

theorem not_mem_usages {u : PluginUsage} (h : (keyword, u) ∈ usages) : 0x20 ∉ keyword :=
  (show ∀ e ∈ usages, (0x20 : UInt8) ∉ e.1 by decide) _ h

theorem prefixMatch_families {f : PluginFamily} (h : (family, f) ∈ families) :
    prefixMatch families family = some f :=
  (show ∀ e ∈ families, prefixMatch families e.1 = some e.2 by decide) _ h

theorem prefixMatch_usages {u : PluginUsage} (h : (keyword, u) ∈ usages) :
    prefixMatch usages keyword = some u ∧ paramWord.isPrefixOf keyword = false :=
  (show ∀ e ∈ usages, prefixMatch usages e.1 = some e.2 ∧ paramWord.isPrefixOf e.1 = false by decide) _ h

/-- **An entry line, by its tokens.** -/
theorem entryLine_iff : EntryLine line info file ↔
    ∃ name family keyword token, EntryFields name family keyword token info ∧ file = fileOf token ∧
      ((tokens line = [name, family, keyword, token] ∧ info.param = 0) ∨
        ∃ n, tokens line = [name, family, paramWord, n, keyword, token] ∧ IsNumber n info.param) := by
  constructor
  · rintro ⟨name, family, param, keyword, eol, rfl, ⟨hname, hspace, hinfo⟩, htype, hfamily, hparam, husage,
      ⟨hne, hfile⟩, heol⟩
    obtain ⟨hfileOf, heolOf⟩ := fileOf_append hfile heol
    have htoken : 0x20 ∉ file ++ eol := by
      rw [List.mem_append, not_or]
      exact ⟨fun h => (hfile _ h).1 rfl, not_mem_eols heol⟩
    refine ⟨name, family, keyword, file ++ eol, ⟨⟨hname, hinfo⟩, htype, hfamily, husage, ?_, ?_⟩,
      hfileOf.symm, ?_⟩
    · rw [hfileOf]
      exact hne
    · rw [heolOf]
      exact heol
    · rw [tokens_append hspace, tokens_append (not_mem_families hfamily)]
      rcases hparam with ⟨rfl, hv⟩ | ⟨n, rfl, hn, hv⟩
      · left
        rw [List.nil_append, tokens_append (not_mem_usages husage), tokens_of_not_mem htoken]
        exact ⟨rfl, hv⟩
      · right
        refine ⟨n, ?_, hv⟩
        rw [List.append_assoc, List.append_assoc, List.cons_append, tokens_append (by decide),
          List.singleton_append, tokens_append hn, tokens_append (not_mem_usages husage),
          tokens_of_not_mem htoken]
  · rintro ⟨name, family, keyword, token, ⟨⟨hname, hinfo⟩, htype, hfamily, husage, hne, heol⟩, rfl, hts⟩
    have hline := untokens_tokens line
    have hmem : ∀ t ∈ tokens line, 0x20 ∉ t := fun t ht => not_mem_of_mem_tokens ht
    have hfile : 0x20 ∉ token → ∀ c ∈ fileOf token, c ≠ 0x20 ∧ c ≠ 0x0d ∧ c ≠ 0x0a := by
      intro htoken c hc
      refine ⟨fun h => htoken (h ▸ (List.takeWhile_prefix _).subset hc), ?_⟩
      simpa using List.mem_takeWhile_imp hc
    rcases hts with ⟨hts, hv⟩ | ⟨n, hts, hv⟩
    · rw [hts] at hline hmem
      refine ⟨name, family, [], keyword, eolOf token, ?_, ⟨hname, hmem name (by simp), hinfo⟩, htype, hfamily,
        .inl ⟨rfl, hv⟩, husage, ⟨hne, hfile (hmem token (by simp))⟩, heol⟩
      rw [fileOf_eolOf]
      exact (Option.some.inj hline).symm
    · rw [hts] at hline hmem
      refine ⟨name, family, paramWord ++ 0x20 :: n ++ [0x20], keyword, eolOf token, ?_,
        ⟨hname, hmem name (by simp), hinfo⟩, htype, hfamily, .inr ⟨n, rfl, hmem n (by simp), hv⟩, husage,
        ⟨hne, hfile (hmem token (by simp))⟩, heol⟩
      rw [fileOf_eolOf]
      have hline' := (Option.some.inj hline).symm
      rw [hline']
      simp

/-! ### Which lines are read as they are meant -/

/-- The line is accepted exactly if it is an entry line, with exactly what it says, and nothing goes
wrong. -/
def LineOk (dirname line : Name) : Prop :=
  (systemWideWord.isPrefixOf line = false → NoFault (entryOfLine dirname line)) ∧
    ∀ info elfpath,
      (systemWideWord.isPrefixOf line = false ∧ entryOfLine dirname line = .ok (info, elfpath)) ↔
        ∃ file, EntryLine line info file ∧ elfpath = dirname ++ 0x2f :: file

/-- Name, family, keyword and file are spelled as they should be, nothing follows the file, and there is
room for its path. -/
def Spelled (dirname name family keyword : Name) (rest : List Name) : Prop :=
  name ≠ [] ∧ (∃ f, (family, f) ∈ families) ∧ (∃ u, (keyword, u) ∈ usages) ∧
    ∃ token, rest = [token] ∧ fileOf token ≠ [] ∧ eolOf token ∈ eols ∧
      dirname.length + 1 + (fileOf token).length < maxPath

/-- There is a keyword; if a token follows something that starts like one, the line is spelled as it should
be, and so is its parameter. -/
def PlugRegular (dirname name family : Name) (param : Prop) : List Name → Prop
  | [] => False
  | keyword :: rest =>
      (prefixMatch usages keyword).isSome → rest ≠ [] → param ∧ Spelled dirname name family keyword rest

/-- The same for a line, by its tokens: something that starts like `param` is followed by a number. -/
def EntryRegular (dirname : Name) : List Name → Prop
  | name :: family :: keyword :: rest =>
      if paramWord.isPrefixOf keyword then
        match rest with
        | [] => False
        | token :: rest =>
            (strtoul0 token).2 = [] →
              PlugRegular dirname name family (keyword = paramWord ∧ ∃ v, IsNumber token v) rest
      else PlugRegular dirname name family True (keyword :: rest)
  | _ => True

def LineRegular (dirname line : Name) : Prop :=
  if systemWideWord.isPrefixOf line then ¬∃ info file, EntryLine line info file
  else EntryRegular dirname (tokens line)

theorem elfPath_of_fits (h : dirname.length + 1 + file.length < maxPath) :
    elfPath dirname file = .ok (dirname ++ 0x2f :: file) := by
  unfold maxPath at h
  rw [elfPath, List.take_of_length_le (by unfold maxPath; omega), if_pos]
  · rfl
  · simp only [List.length_append, List.length_cons, maxPath]
    omega

theorem elfPath_of_not_fits (h : ¬dirname.length + 1 + file.length < maxPath) :
    elfPath dirname file = fault .write := by
  unfold maxPath at h
  rw [elfPath, if_neg]
  simp only [List.length_append, List.length_cons, List.length_take, maxPath]
  omega

/-- **A complete number is read as its value.** -/
theorem strtoul0_of_isNumber {n : Name} {v : ℤ} (h : IsNumber n v) :
    (strtoul0 n).2 = [] ∧ castInt (strtoul0 n).1 = v := by
  obtain ⟨negative, m, hn, hv, hlow, hhigh⟩ := h
  obtain ⟨u, hread, hu⟩ : ∃ u, strtoul0 n = (u, []) ∧
      u = if 2 ^ 64 ≤ m then 2 ^ 64 - 1 else if negative then (2 ^ 64 - m) % 2 ^ 64 else m := by
    unfold strtoul0
    simp only [hn]
    exact ⟨_, rfl, rfl⟩
  rw [hread]
  refine ⟨rfl, ?_⟩
  dsimp only
  have hbmod : castInt u = _ := Int.bmod_def (u : ℤ) (2 ^ 32)
  push_cast at hbmod
  rw [if_neg (by omega)] at hu
  cases negative with
  | false =>
    rw [if_neg Bool.false_ne_true] at hv hu
    split_ifs at hbmod
    · omega
    · omega
  | true =>
    rw [if_pos rfl] at hv hu
    split_ifs at hbmod
    · omega
    · omega

/-- **The end of a line** is read as it is meant exactly if it is regular. -/
theorem plugRegular_iff (P : Prop) (v : ℤ) (ts : List Name) :
    PlugRegular dirname name family P ts ↔
      NoFault (plugOfTokens dirname (startInfo name family v) ts) ∧
        ∀ info elfpath, plugOfTokens dirname (startInfo name family v) ts = .ok (info, elfpath) ↔
          P ∧ ∃ keyword token, ts = [keyword, token] ∧ EntryFields name family keyword token info ∧
            info.param = v ∧ elfpath = dirname ++ 0x2f :: fileOf token := by
  rcases ts with _ | ⟨keyword, rest⟩
  · simp [PlugRegular, plugOfTokens]
  rw [PlugRegular, plugOfTokens]
  cases hmatch : prefixMatch usages keyword with
  | none =>
    refine iff_of_true (fun h => nomatch h) ⟨noFault_reject (), fun info elfpath => iff_of_false nofun ?_⟩
    rintro ⟨-, keyword', token, hts, ⟨-, -, -, husage, -⟩, -⟩
    cases hts
    rw [(prefixMatch_usages husage).1] at hmatch
    cases hmatch
  | some u =>
    rcases rest with _ | ⟨token, rest⟩
    · refine iff_of_true (fun _ h => absurd rfl h)
        ⟨noFault_reject (), fun info elfpath => iff_of_false nofun ?_⟩
      rintro ⟨-, keyword', token, hts, -⟩
      cases hts
    dsimp only
    change _ ↔ NoFault (elfPath dirname (fileOf token) >>= _) ∧
      ∀ info elfpath, elfPath dirname (fileOf token) >>= _ = _ ↔ _
    by_cases hfits : dirname.length + 1 + (fileOf token).length < maxPath
    · rw [elfPath_of_fits hfits]
      simp only [ok_bind]
      constructor
      · intro hreg
        obtain ⟨hP, hname, ⟨f, hf⟩, ⟨u', hu⟩, token', htoken, hne, heol, -⟩ := hreg rfl (List.cons_ne_nil _ _)
        cases htoken
        have huu := (prefixMatch_usages hu).1
        rw [hmatch] at huu
        cases huu
        refine ⟨noFault_pure _, fun info elfpath => ?_⟩
        constructor
        · intro hok
          cases hok
          refine ⟨hP, keyword, token, rfl, ⟨⟨hname, rfl⟩, rfl, ?_, hu, hne, heol⟩, rfl, rfl⟩
          rw [startInfo, prefixMatch_families hf]
          exact hf
        · rintro ⟨-, keyword', token', hts, ⟨⟨-, hinfo⟩, htype, hfamily, husage, -, -⟩, hv, rfl⟩
          cases hts
          have husage' := (prefixMatch_usages husage).1
          rw [hmatch] at husage'
          have hfamily' := prefixMatch_families hfamily
          rw [startInfo, hfamily', Option.getD_some, ← hinfo, ← htype, ← hv, Option.some.inj husage']
          rfl
      · rintro ⟨-, hok⟩ - -
        obtain ⟨hP, keyword', token', hts, ⟨⟨hname, -⟩, -, hfamily, husage, hne, heol⟩, -⟩ :=
          (hok _ _).mp rfl
        cases hts
        exact ⟨hP, hname, ⟨_, hfamily⟩, ⟨_, husage⟩, token, rfl, hne, heol, hfits⟩
    · rw [elfPath_of_not_fits hfits]
      refine iff_of_false (fun hreg => ?_) fun h => h.1 .write rfl
      obtain ⟨-, -, -, -, token', htoken, -, -, hfits'⟩ := hreg rfl (List.cons_ne_nil _ _)
      cases htoken
      exact hfits hfits'

/-- **A line is read as it is meant** exactly if it is regular. -/
theorem lineOk_iff (dirname line : Name) : LineOk dirname line ↔ LineRegular dirname line := by
  rw [LineOk, LineRegular]
  split_ifs with hwide
  · rw [hwide]
    constructor
    · rintro ⟨-, hok⟩ ⟨info, file, hentry⟩
      exact absurd ((hok info _).mpr ⟨file, hentry, rfl⟩).1 (by decide)
    · intro hno
      refine ⟨nofun, fun info elfpath => iff_of_false (fun h => absurd h.1 (by decide)) ?_⟩
      rintro ⟨file, hentry, -⟩
      exact hno ⟨info, file, hentry⟩
  · rw [Bool.not_eq_true] at hwide
    simp only [hwide, true_and, forall_const, entryOfLine_eq, entryLine_iff]
    generalize tokens line = ts
    rcases ts with _ | ⟨name, _ | ⟨family, _ | ⟨keyword, rest⟩⟩⟩
    · refine iff_of_true ⟨noFault_reject (), fun info elfpath => iff_of_false nofun ?_⟩ trivial
      rintro ⟨-, ⟨name, family, keyword, token, -, -, ⟨hts, -⟩ | ⟨n, hts, -⟩⟩, -⟩
      · cases hts
      · cases hts
    · refine iff_of_true ⟨noFault_reject (), fun info elfpath => iff_of_false nofun ?_⟩ trivial
      rintro ⟨-, ⟨name, family, keyword, token, -, -, ⟨hts, -⟩ | ⟨n, hts, -⟩⟩, -⟩
      · cases hts
      · cases hts
    · refine iff_of_true ⟨noFault_reject (), fun info elfpath => iff_of_false nofun ?_⟩ trivial
      rintro ⟨-, ⟨name, family, keyword, token, -, -, ⟨hts, -⟩ | ⟨n, hts, -⟩⟩, -⟩
      · cases hts
      · cases hts
    · -- a keyword of the grammar does not start like `param`
      have hplain : ∀ {keyword : Name} {info : EntryInfo} {token : Name},
          EntryFields name family keyword token info → paramWord.isPrefixOf keyword = false :=
        fun hfields => (prefixMatch_usages hfields.2.2.2.1).2
      by_cases hparam : paramWord.isPrefixOf keyword
      · rcases rest with _ | ⟨n, rest⟩
        · have hcode : entryOfTokens dirname [name, family, keyword] = fault .nullPointer := if_pos hparam
          have hreg : EntryRegular dirname [name, family, keyword] = False := if_pos hparam
          rw [hcode, hreg]
          exact iff_of_false (fun h => h.1 .nullPointer rfl) id
        have hcode : entryOfTokens dirname (name :: family :: keyword :: n :: rest) =
            if (strtoul0 n).2 ≠ [] then reject ()
            else plugOfTokens dirname (startInfo name family (castInt (strtoul0 n).1)) rest := if_pos hparam
        have hreg : EntryRegular dirname (name :: family :: keyword :: n :: rest) =
            ((strtoul0 n).2 = [] →
              PlugRegular dirname name family (keyword = paramWord ∧ ∃ v, IsNumber n v) rest) := if_pos hparam
        rw [hcode, hreg]
        by_cases hcomplete : (strtoul0 n).2 = []
        · rw [if_neg (not_not.mpr hcomplete), plugRegular_iff _ (castInt (strtoul0 n).1)]
          refine Iff.trans ?_ (forall_prop_of_true hcomplete).symm
          refine and_congr_right fun _ => forall_congr' fun info => forall_congr' fun elfpath =>
            iff_congr Iff.rfl ?_
          constructor
          · rintro ⟨file, ⟨name', family', keyword', token, hfields, rfl, ⟨hts, -⟩ | ⟨n', hts, hv⟩⟩, hpath⟩
            · cases hts
              rw [hplain hfields] at hparam
              cases hparam
            · cases hts
              exact ⟨⟨rfl, _, hv⟩, keyword', token, rfl, hfields, (strtoul0_of_isNumber hv).2.symm, hpath⟩
          · rintro ⟨⟨rfl, v, hv⟩, keyword', token, rfl, hfields, hinfo, hpath⟩
            rw [(strtoul0_of_isNumber hv).2] at hinfo
            subst hinfo
            exact ⟨fileOf token, ⟨name, family, keyword', token, hfields, rfl, .inr ⟨n, rfl, hv⟩⟩, hpath⟩
        · rw [if_pos hcomplete]
          refine iff_of_true ⟨noFault_reject (), fun info elfpath => iff_of_false nofun ?_⟩
            fun h => absurd h hcomplete
          rintro ⟨-, ⟨name', family', keyword', token, hfields, -, ⟨hts, -⟩ | ⟨n', hts, hv⟩⟩, -⟩
          · cases hts
            rw [hplain hfields] at hparam
            cases hparam
          · cases hts
            exact hcomplete (strtoul0_of_isNumber hv).1
      · have hcode : entryOfTokens dirname (name :: family :: keyword :: rest) =
            plugOfTokens dirname (startInfo name family 0) (keyword :: rest) := if_neg hparam
        have hreg : EntryRegular dirname (name :: family :: keyword :: rest) =
            PlugRegular dirname name family True (keyword :: rest) := if_neg hparam
        rw [hcode, hreg, plugRegular_iff True 0]
        refine and_congr_right fun _ => forall_congr' fun info => forall_congr' fun elfpath =>
          iff_congr Iff.rfl ?_
        constructor
        · rintro ⟨file, ⟨name', family', keyword', token, hfields, rfl, ⟨hts, hv⟩ | ⟨n, hts, -⟩⟩, hpath⟩
          · cases hts
            exact ⟨trivial, keyword, token, rfl, hfields, hv, hpath⟩
          · cases hts
            exact absurd (by decide) hparam
        · rintro ⟨-, keyword', token, hts, hfields, hv, hpath⟩
          cases hts
          exact ⟨fileOf token, ⟨name, family, keyword, token, hfields, rfl, .inl ⟨rfl, hv⟩⟩, hpath⟩

end Lines

end TorEbpf.Or
