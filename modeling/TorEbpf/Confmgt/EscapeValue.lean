import TorEbpf.Encoding.Confline

/-!
# Saved values

`config_get_assigned_option` quotes the values that `config_value_needs_escape` finds unfit for a configuration
file.  It does not look at spaces and backslashes, but a line does not keep the spaces around a value, and goes
on behind a backslash at its end.

* `readsBack_of_needsEscape` — what is quoted reads back;
* `parse_plainValue` — what is not, unless it ends in a backslash, reads back without the spaces around it;
* `readsBack_iff` — which values read back.
-/

namespace TorEbpf.Confmgt

open TorEbpf.Lib TorEbpf.Strings TorEbpf.Encoding

/-! ### The code -/

def configValueNeedsEscape (value : List UInt8) : Bool :=
  value.head? = some 0x22 || value.any fun c => c = 0x0d || c = 0x0a || c = 0x23 || !isPlain c

/-- The value of a line of `config_get_assigned_option`. -/
def assignedValue (escapeVal : Bool) (value : List UInt8) : Checked Unit Access (List UInt8) :=
  if escapeVal && configValueNeedsEscape value then escForLog value else .ok value

/-- `config_get_assigned_option`, of the lines that `struct_var_kvencode` yields. -/
def configGetAssignedOption (escapeVal : Bool) (result : List (List UInt8 × Option (List UInt8))) :
    Checked Unit Access (List (List UInt8 × Option (List UInt8))) :=
  result.mapM fun (key, value) =>
    match value with
    | none => .ok (key, none)
    | some value => do
      let value ← assignedValue escapeVal value
      return (key, some value)

def configLine (key value further : List UInt8) : List UInt8 := key ++ 0x20 :: (value ++ 0x0a :: further)

/-- A value that is saved is read back, and reading goes on at the following line. -/
def ReadsBack (key v : List UInt8) : Prop :=
  ∀ w, assignedValue true v = .ok w → ∀ further : List UInt8, (∀ c ∈ further, c ≠ 0) →
    ∃ rest, parseConfigLineFromStrVerbose (configLine key w further) = .ok ⟨some key, some v, rest⟩ ∧
      skipToKey false rest = skipToKey false further

/-! ### Reading a line -/

section Reading

variable {key v w line further : List UInt8}

theorem parse_configLine (hkey : IsKey key) (line : List UInt8) :
    parseConfigLineFromStrVerbose (key ++ 0x20 :: line) =
      if (line.dropWhile isBlank).head? = some 0x22 then
        parseQuoted (line.dropWhile isBlank) >>= fun r => .ok ⟨some key, some r.1, afterValue r.2⟩
      else
        .ok ⟨some key, some (parseUnquoted (line.dropWhile isBlank)).1,
          afterValue (parseUnquoted (line.dropWhile isBlank)).2⟩ := by
  have hread := @parse_entry [] key (0x20 :: line) (by simp) hkey (Or.inl ⟨0x20, rfl, rfl⟩) (by simp)
  rwa [List.nil_append, List.dropWhile_cons_of_pos rfl] at hread

/-! ### Quoted values -/

theorem parseQuoted_escForLog (hnul : ∀ c ∈ v, c ≠ 0) (hw : escForLog v = .ok w) (further : List UInt8) :
    w.head? = some 0x22 ∧ parseQuoted (w ++ 0x0a :: further) = .ok (v, 0x0a :: further) := by
  rw [escForLog_eq] at hw
  split_ifs at hw
  · obtain rfl : 0x22 :: (v.flatMap escChar ++ [0x22]) = w := Except.ok.inj hw
    have hline : 0x22 :: (v.flatMap escChar ++ [0x22]) ++ 0x0a :: further =
        0x22 :: (v.flatMap escChar ++ 0x22 :: 0x0a :: further) := by
      simp
    have hlt : v.length < (v.map escLen).sum + 2 := by
      have hle := List.length_le_sum_of_one_le (v.map escLen) (by simpa using fun c _ => escLen_pos c)
      rw [List.length_map] at hle
      omega
    refine ⟨rfl, ?_⟩
    rw [hline, parseQuoted, unescapeString_quoted hnul]
    dsimp only
    rw [List.dropWhile_cons_of_neg (by decide), cText_padded hnul hlt]
    rfl
  · cases hw

theorem length_lt_of_parseQuoted {rest : List UInt8} (h : parseQuoted line = .ok (v, rest)) :
    v.length < line.length := by
  unfold parseQuoted at h
  have hpass := (unescapeString_passes line).1
  cases hres : unescapeString line with
  | error e =>
    rw [hres] at h
    cases e <;> cases h
  | ok r =>
    obtain ⟨buf, size, after⟩ := r
    rw [hres] at h
    have hv : v = cText buf := by
      dsimp only at h
      split at h
      · cases h
        rfl
      · split_ifs at h
        · cases h
        · cases h
          rfl
    -- the first pass has found the closing quote
    obtain ⟨cp, quote, rfl, hquote⟩ : ∃ cp quote, line = 0x22 :: cp ∧ findQuote cp = some quote := by
      unfold unescapeString at hres
      split at hres
      · cases hres
      · next c cp =>
        split_ifs at hres with hc
        · cases hres
        · push Not at hc
          subst hc
          cases hfind : findQuote cp with
          | none =>
            rw [hfind] at hres
            cases hres
          | some quote => exact ⟨cp, quote, rfl, hfind⟩
    obtain ⟨ps, after', hquote', -, -, ⟨hok, hlt, -⟩ | ⟨hrej, -⟩⟩ := hpass cp quote rfl hquote
    · rw [hok] at hres
      have hbuf := congrArg Prod.fst (Except.ok.inj hres)
      dsimp only at hbuf
      have hlen : (cText (padded ((0x22 :: cp).length - quote.length + 1) (bytes ps))).length ≤ ps.length := by
        have hbytes : (bytes ps).length = ps.length := by rw [bytes, List.length_map]
        obtain ⟨k, hk⟩ : ∃ k, (0x22 :: cp).length - quote.length + 1 - (bytes ps).length = k + 1 :=
          ⟨(0x22 :: cp).length - quote.length - (bytes ps).length, by omega⟩
        rw [padded, hk, List.replicate_succ, ← hbytes]
        exact length_cText_append_zero_le _ _
      have hpos : 1 ≤ quote.length := by
        rw [hquote']
        simp
      rw [hv, ← hbuf]
      refine lt_of_le_of_lt hlen ?_
      rw [List.length_cons] at hlt ⊢
      omega
    · rw [hrej] at hres
      cases hres

/-! ### Values that are not quoted -/

theorem dropWhile_line (v further : List UInt8) :
    (v ++ 0x0a :: further).dropWhile isBlank = v.dropWhile isBlank ++ 0x0a :: further := by
  rw [List.dropWhile_append]
  split_ifs with hempty
  · rw [List.isEmpty_iff.mp hempty]
    rfl
  · rfl

/-- A value without comments that does not end in a backslash is read without the spaces around it. -/
theorem parse_plainValue (hkey : IsKey key) (hplain : ∀ c ∈ v, c ≠ 0x0a ∧ c ≠ 0x23)
    (hlast : v.getLast? ≠ some 0x5c) (hquote : (v.dropWhile isBlank).head? ≠ some 0x22)
    (further : List UInt8) : parseConfigLineFromStrVerbose (configLine key v further) =
      .ok ⟨some key, some ((v.dropWhile isBlank).rdropWhile isSpace), afterValue further⟩ := by
  obtain ⟨pre, hpre⟩ := List.dropWhile_suffix isBlank (l := v)
  have htext : PlainText (v.dropWhile isBlank) (0x0a :: further) := by
    refine ⟨fun c hc => hplain c ((List.dropWhile_suffix isBlank).subset hc), fun heq => ?_⟩
    refine absurd ?_ hlast
    rw [← hpre, List.getLast?_append, heq]
    rfl
  have hhead : (v.dropWhile isBlank ++ 0x0a :: further).head? ≠ some 0x22 := by
    rw [List.head?_append]
    cases hd : (v.dropWhile isBlank).head? with
    | none => simp
    | some c =>
      rw [hd] at hquote
      exact hquote
  rw [configLine, parse_configLine hkey, dropWhile_line, if_neg hhead, parseUnquoted, scanValue_append htext]
  simp [scanValue]

theorem parse_backslashValue (hkey : IsKey key) (hplain : ∀ c ∈ v, c ≠ 0x0a ∧ c ≠ 0x23)
    (hquote : ((v ++ [0x5c]).dropWhile isBlank).head? ≠ some 0x22) :
    parseConfigLineFromStrVerbose (configLine key (v ++ [0x5c]) [0x78]) =
      .ok ⟨some key, some (v.dropWhile isBlank ++ [0x78]), []⟩ := by
  have hdrop : (v ++ [0x5c]).dropWhile isBlank = v.dropWhile isBlank ++ [0x5c] := by
    rw [List.dropWhile_append]
    split_ifs with hempty
    · rw [List.isEmpty_iff.mp hempty]
      rfl
    · rfl
  have htext : ∀ t : List UInt8, PlainText (v.dropWhile isBlank) (0x5c :: t) := by
    intro t
    refine ⟨fun c hc => hplain c ((List.dropWhile_suffix isBlank).subset hc), fun _ => ?_⟩
    simp
  have hline : (v ++ [0x5c]).dropWhile isBlank ++ 0x0a :: [0x78] =
      v.dropWhile isBlank ++ [0x5c, 0x0a, 0x78] := by
    rw [hdrop]
    simp
  have hhead : ((v ++ [0x5c]).dropWhile isBlank ++ 0x0a :: [0x78]).head? ≠ some 0x22 := by
    rw [List.head?_append]
    cases hd : ((v ++ [0x5c]).dropWhile isBlank).head? with
    | none => simp
    | some c =>
      rw [hd] at hquote
      exact hquote
  have hscan : scanValue false false [0x5c, 0x0a, 0x78] = ([0x5c, 0x0a, 0x78], true, []) := by decide
  have hremove : removeContinuations false [0x5c, 0x0a, 0x78] = [0x78] := by decide
  have htrim : (v.dropWhile isBlank ++ [0x5c, 0x0a, 0x78]).rdropWhile isSpace =
      v.dropWhile isBlank ++ [0x5c, 0x0a, 0x78] := by
    have hsnoc : v.dropWhile isBlank ++ [0x5c, 0x0a, 0x78] =
        (v.dropWhile isBlank ++ [0x5c, 0x0a]) ++ [0x78] := by
      simp
    rw [hsnoc, List.rdropWhile_concat_neg isSpace _ _ (by decide)]
  rw [configLine, parse_configLine hkey, dropWhile_line, if_neg hhead, hline, parseUnquoted,
    scanValue_append (htext _), hscan]
  dsimp only
  rw [htrim, if_pos rfl, removeContinuations_append (htext _), hremove]
  rfl

end Reading

/-! ### Which values read back -/

section ReadsBack

variable {key v : List UInt8}

theorem not_needsEscape_iff : configValueNeedsEscape v = false ↔
    v.head? ≠ some 0x22 ∧ ∀ c ∈ v, c ≠ 0x23 ∧ isPlain c = true := by
  unfold configValueNeedsEscape
  rw [Bool.or_eq_false_iff, decide_eq_false_iff_not, List.any_eq_false]
  refine and_congr_right' (forall₂_congr fun c _ => ?_)
  simp only [Bool.or_eq_true, decide_eq_true_eq, Bool.not_eq_eq_eq_not, Bool.not_true]
  constructor
  · intro h
    push Not at h
    exact ⟨h.1.2, by simpa using h.2⟩
  · rintro ⟨hhash, hp⟩ (((rfl | rfl) | h) | h)
    · cases hp
    · cases hp
    · exact hhash h
    · rw [hp] at h
      cases h

theorem ne_newline_of_isPlain {c : UInt8} (h : isPlain c = true) : c ≠ 0x0a := by
  rintro rfl
  cases h

theorem isPlain_space {c : UInt8} (h : isPlain c = true) : (isBlank c = true ↔ c = 0x20) ∧
    (isSpace c = true ↔ c = 0x20) := by
  have hle : 0x20 ≤ c.toNat := by
    simp only [isPlain, Bool.and_eq_true, decide_eq_true_eq, UInt8.le_iff_toNat_le] at h
    exact h.1
  have hne : c ≠ 0x09 := by
    rintro rfl
    cases h
  have hgt : ¬c ≤ 13 := by
    rw [UInt8.le_iff_toNat_le]
    intro hle'
    have hle'' : c.toNat ≤ 13 := hle'
    omega
  constructor
  · simp [isBlank, hne]
  · simp [isSpace, hgt]

/-- **What is quoted reads back.** -/
theorem readsBack_of_needsEscape (hkey : IsKey key) (hnul : ∀ c ∈ v, c ≠ 0)
    (hesc : configValueNeedsEscape v = true) : ReadsBack key v := by
  intro w hw further _
  rw [assignedValue, hesc, Bool.and_true, if_pos rfl] at hw
  obtain ⟨hhead, hparse⟩ := parseQuoted_escForLog hnul hw further
  have hdrop : (w ++ 0x0a :: further).dropWhile isBlank = w ++ 0x0a :: further := by
    cases w with
    | nil => cases hhead
    | cons c w =>
      cases hhead
      rfl
  have hhead' : (w ++ 0x0a :: further).head? = some 0x22 := by
    rw [List.head?_append, hhead]
    rfl
  refine ⟨afterValue (0x0a :: further), ?_, ?_⟩
  · rw [configLine, parse_configLine hkey, hdrop, if_pos hhead', hparse, ok_bind]
  · rw [skipToKey_afterValue, skipToKey_space rfl]

/-- What is not quoted reads back if there are no spaces around it and no backslash at its end. -/
theorem readsBack_of_tight (hkey : IsKey key) (hesc : configValueNeedsEscape v = false)
    (hfirst : v.head? ≠ some 0x20) (hlast : v.getLast? ≠ some 0x20) (hslash : v.getLast? ≠ some 0x5c) :
    ReadsBack key v := by
  obtain ⟨hquote, hchars⟩ := not_needsEscape_iff.mp hesc
  intro w hw further _
  rw [assignedValue, hesc, Bool.and_false, if_neg (by simp)] at hw
  cases hw
  have hdrop : v.dropWhile isBlank = v := by
    cases v with
    | nil => rfl
    | cons c v =>
      refine List.dropWhile_cons_of_neg fun hblank => hfirst ?_
      rw [List.head?_cons, (isPlain_space (hchars c List.mem_cons_self).2).1.mp hblank]
  have htrim : v.rdropWhile isSpace = v := by
    rw [List.rdropWhile_eq_self_iff]
    intro hne hspace
    have hmem := List.getLast_mem hne
    refine hlast ?_
    rw [List.getLast?_eq_getLast_of_ne_nil hne, (isPlain_space (hchars _ hmem).2).2.mp hspace]
  have hparse := parse_plainValue hkey (fun c hc => ⟨ne_newline_of_isPlain (hchars c hc).2, (hchars c hc).1⟩)
    hslash (by rwa [hdrop]) further
  rw [hdrop, htrim] at hparse
  exact ⟨afterValue further, hparse, skipToKey_afterValue further⟩

/-- What is read back has no spaces around it and no backslash at its end, unless it was quoted. -/
theorem tight_of_readsBack (hkey : IsKey key) (hesc : configValueNeedsEscape v = false)
    (h : ReadsBack key v) :
    v.head? ≠ some 0x20 ∧ v.getLast? ≠ some 0x20 ∧ v.getLast? ≠ some 0x5c := by
  obtain ⟨hquote, hchars⟩ := not_needsEscape_iff.mp hesc
  have hplain : ∀ c ∈ v, c ≠ 0x0a ∧ c ≠ 0x23 :=
    fun c hc => ⟨ne_newline_of_isPlain (hchars c hc).2, (hchars c hc).1⟩
  have hread := h v (by rw [assignedValue, hesc, Bool.and_false, if_neg (by simp)])
  have hlen : (v.dropWhile isBlank).length ≤ v.length := (List.dropWhile_suffix isBlank).length_le
  -- behind spaces a quote would begin a quoted value, which is shorter
  have hquote' : (v.dropWhile isBlank).head? ≠ some 0x22 := by
    intro hhead
    obtain ⟨rest, hrest, -⟩ := hread [] (by simp)
    have hhead' : (v.dropWhile isBlank ++ [0x0a]).head? = some 0x22 := by
      rw [List.head?_append, hhead]
      rfl
    rw [configLine, parse_configLine hkey, dropWhile_line, if_pos hhead'] at hrest
    obtain ⟨⟨value, line⟩, hparse, hline⟩ := bind_eq_ok.mp hrest
    have hvalue : value = v := by simpa using congrArg ConfLine.value (Except.ok.inj hline)
    have hlt := length_lt_of_parseQuoted hparse
    rw [hvalue, List.length_append, List.length_singleton] at hlt
    have hsame : v.dropWhile isBlank = v := (List.dropWhile_suffix isBlank).eq_of_length (by omega)
    rw [hsame] at hhead
    exact hquote hhead
  -- a backslash at the end swallows the next line
  have hslash : v.getLast? ≠ some 0x5c := by
    intro hlast
    obtain ⟨u, rfl⟩ := List.getLast?_eq_some_iff.mp hlast
    obtain ⟨rest, hrest, -⟩ := hread [0x78] (by simp)
    rw [parse_backslashValue hkey (fun c hc => hplain c (by simp [hc])) hquote'] at hrest
    have hvalue : u.dropWhile isBlank ++ [0x78] = u ++ [0x5c] := by
      simpa using congrArg ConfLine.value (Except.ok.inj hrest)
    have hend := congrArg List.getLast? hvalue
    simp at hend
  obtain ⟨rest, hrest, -⟩ := hread [] (by simp)
  rw [parse_plainValue hkey hplain hslash hquote'] at hrest
  have htrim : (v.dropWhile isBlank).rdropWhile isSpace = v := by
    simpa using congrArg ConfLine.value (Except.ok.inj hrest)
  have hle : ((v.dropWhile isBlank).rdropWhile isSpace).length ≤ (v.dropWhile isBlank).length :=
    (List.rdropWhile_prefix isSpace _).length_le
  have hsame : v.dropWhile isBlank = v :=
    (List.dropWhile_suffix isBlank).eq_of_length (by rw [htrim] at hle; omega)
  rw [hsame] at htrim
  refine ⟨?_, ?_, hslash⟩
  · intro hfirst
    obtain ⟨u, rfl⟩ := List.head?_eq_some_iff.mp hfirst
    rw [List.dropWhile_cons_of_pos (by decide)] at hsame
    have hshort := (List.dropWhile_suffix isBlank (l := u)).length_le
    rw [hsame, List.length_cons] at hshort
    omega
  · intro hlast
    obtain ⟨u, rfl⟩ := List.getLast?_eq_some_iff.mp hlast
    rw [List.rdropWhile_concat_pos isSpace _ _ (by decide)] at htrim
    have hshort := (List.rdropWhile_prefix isSpace u).length_le
    rw [htrim, List.length_append, List.length_singleton] at hshort
    omega

/-- **Which values read back**: those that are quoted, and those with no space around them and no backslash at
their end. -/
theorem readsBack_iff (key v : List UInt8) (hkey : IsKey key) (hnul : ∀ c ∈ v, c ≠ 0) :
    ReadsBack key v ↔ configValueNeedsEscape v = true ∨
      (v.head? ≠ some 0x20 ∧ v.getLast? ≠ some 0x20 ∧ v.getLast? ≠ some 0x5c) := by
  cases hesc : configValueNeedsEscape v with
  | true => exact ⟨fun _ => Or.inl rfl, fun _ => readsBack_of_needsEscape hkey hnul hesc⟩
  | false =>
    constructor
    · exact fun h => Or.inr (tight_of_readsBack hkey hesc h)
    · rintro (h | ⟨hfirst, hlast, hslash⟩)
      · cases h
      · exact readsBack_of_tight hkey hesc hfirst hlast hslash

def nickKey : List UInt8 := [0x4e, 0x69, 0x63, 0x6b]

theorem isKey_nickKey : IsKey nickKey := ⟨by simp [nickKey], by simp [nickKey, isSpace]⟩

/-- `a`, and `b` with a space behind it. -/
theorem readsBack_iff_two :
    (ReadsBack nickKey [0x61] ↔ configValueNeedsEscape [0x61] = true ∨
      ([0x61].head? ≠ some (0x20 : UInt8) ∧ [0x61].getLast? ≠ some (0x20 : UInt8) ∧
        [0x61].getLast? ≠ some (0x5c : UInt8))) ∧
    (ReadsBack nickKey [0x62, 0x20] ↔ configValueNeedsEscape [0x62, 0x20] = true ∨
      ([0x62, 0x20].head? ≠ some (0x20 : UInt8) ∧ [0x62, 0x20].getLast? ≠ some (0x20 : UInt8) ∧
        [0x62, 0x20].getLast? ≠ some (0x5c : UInt8))) :=
  ⟨readsBack_iff nickKey [0x61] isKey_nickKey (by simp),
    readsBack_iff nickKey [0x62, 0x20] isKey_nickKey (by simp)⟩

/-- A value that is a backslash does not read back. -/
theorem not_readsBack :
    ¬∀ key v : List UInt8, IsKey key → v ≠ [] → (∀ c ∈ v, c ≠ 0) → ReadsBack key v := by
  intro h
  obtain ⟨rest, hrest, -⟩ := h nickKey [0x5c] isKey_nickKey (by simp) (by simp) [0x5c] rfl [0x78] (by simp)
  have hread : parseConfigLineFromStrVerbose (configLine nickKey [0x5c] [0x78]) =
      .ok ⟨some nickKey, some [0x78], []⟩ := rfl
  rw [hread] at hrest
  have hvalue := congrArg ConfLine.value (Except.ok.inj hrest)
  simp at hvalue

end ReadsBack

end TorEbpf.Confmgt
