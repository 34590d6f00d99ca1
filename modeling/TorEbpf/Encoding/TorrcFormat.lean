import TorEbpf.Encoding.Confline

/-!
# The format of configuration files

The rules for entries whose value is not quoted, as the format is documented, and what
`parse_config_line_from_str_verbose` makes of the texts that derive from them.

The code does not follow the rules everywhere.  It takes any backslash in front of the end of a line for a
continuation, also the second one of two, and any number sign for the beginning of a comment, also one behind a
backslash; white space behind the key belongs to no value; and behind a backslash that ends the line of the key
it already is in a value that is continued.

* `Entry`, `Entry.Derives` — a derivation, and its rules;
* `parseUnquoted_lines` — a value that is continued;
* `readsAs_of_regular` — an entry is read as documented, if its text has one meaning only.
-/

namespace TorEbpf.Encoding

open TorEbpf.Lib TorEbpf.Strings

/-! ### Derivations -/

def IsWsp (s : List UInt8) : Prop := ∀ c ∈ s, c = 0x20 ∨ c = 0x09

inductive PVBody : List UInt8 → Prop
  | nil : PVBody []
  | char {c : UInt8} {s : List UInt8} (h : c ≠ 0x5c ∧ c ≠ 0x0a ∧ c ≠ 0x23 ∧ c ≠ 0) (hs : PVBody s) :
      PVBody (c :: s)
  | escape {c : UInt8} {s : List UInt8} (h : c ≠ 0 ∧ c ≠ 0x0a) (hs : PVBody s) : PVBody (0x5c :: c :: s)

/-- `*NonLF`. -/
def IsNonLf (s : List UInt8) : Prop := ∀ c ∈ s, c ≠ 0 ∧ c ≠ 0x0a

/-- The text of `OptComment`, with what stands behind the number sign. -/
def commentText : Option (List UInt8) → List UInt8
  | none => []
  | some comment => 0x23 :: comment

/-- `CVal2`: a body, and a comment or the backslash at the end of its line. -/
structure CVal2 where
  body : List UInt8
  comment : Option (List UInt8)

/-- The text of a `CVal2`. -/
def CVal2.text (v : CVal2) : List UInt8 :=
  match v.comment with
  | none => v.body ++ [0x5c, 0x0a]
  | some comment => v.body ++ 0x23 :: (comment ++ [0x0a])

inductive UnquotedVal where
  | plain (body : List UInt8) (backslash : Bool) (wsp : List UInt8) (comment : Option (List UInt8))
  | continued (first : List UInt8) (middle : List CVal2) (last : List UInt8)

/-- The optional backslash of a `PlainVal`. -/
def backslashText (backslash : Bool) : List UInt8 := if backslash then [0x5c] else []

namespace UnquotedVal

def text : UnquotedVal → List UInt8
  | plain body backslash wsp comment => body ++ backslashText backslash ++ wsp ++ commentText comment
  | continued first middle last => first ++ [0x5c, 0x0a] ++ middle.flatMap CVal2.text ++ last

def value : UnquotedVal → List UInt8
  | plain body backslash _ _ => body ++ backslashText backslash
  | continued first middle last => first ++ middle.flatMap CVal2.body ++ last

/-- The rules for `PlainVal` and `ContinuedVal`. -/
def Derives : UnquotedVal → Prop
  | plain body _ wsp comment => PVBody body ∧ IsWsp wsp ∧ ∀ s ∈ comment, IsNonLf s
  | continued first middle last =>
      PVBody first ∧ (∀ v ∈ middle, PVBody v.body ∧ ∀ s ∈ v.comment, IsNonLf s) ∧ PVBody last

end UnquotedVal

/-- What may stand between a key and its value. -/
inductive Separator where
  | wsp (w : List UInt8)
  | newline (w : List UInt8)

def Separator.text : Separator → List UInt8
  | wsp w => w
  | newline w => 0x5c :: 0x0a :: w

/-- `*WSP / "\" NL *WSP`, and `1*WSP / "\" NL *WSP` in front of a value. -/
def Separator.Derives (hasValue : Bool) : Separator → Prop
  | wsp w => IsWsp w ∧ (hasValue = true → w ≠ [])
  | newline w => IsWsp w

/-- An entry whose value, if there is one, is not quoted. -/
structure Entry where
  indent : List UInt8
  magic : Option UInt8
  key : List UInt8
  separators : List Separator
  val : Option UnquotedVal

namespace Entry

/-- The key as it is written, with its magic. -/
def markedKey (e : Entry) : List UInt8 := e.magic.toList ++ e.key

/-- What stands behind the key up to the end of the last line. -/
def body (e : Entry) : List UInt8 :=
  e.separators.flatMap Separator.text ++ (e.val.map UnquotedVal.text).getD []

def text (e : Entry) : List UInt8 := e.indent ++ e.markedKey ++ e.body ++ [0x0a]

def value (e : Entry) : List UInt8 := (e.val.map UnquotedVal.value).getD []

/-- The rules for `Entry`, for values that are not quoted. -/
structure Derives (e : Entry) : Prop where
  indent : IsWsp e.indent
  magic : ∀ c ∈ e.magic, c = 0x2b ∨ c = 0x2f
  key : IsKey e.key
  separators : ∀ s ∈ e.separators, s.Derives e.val.isSome
  separated : e.val.isSome = true → e.separators ≠ []
  val : ∀ v ∈ e.val, v.Derives ∧ v.text.head? ≠ some 0x22

/-- The entry is read as its derivation says, in front of any text, and the next entry is read behind it. -/
def ReadsAs (e : Entry) : Prop :=
  ∀ further : List UInt8, (∀ c ∈ further, c ≠ 0) →
    ∃ rest, parseConfigLineFromStrVerbose (e.text ++ further) =
        .ok ⟨some e.markedKey, some (e.value.rdropWhile isSpace), rest⟩ ∧
      skipToKey false rest = skipToKey false further

end Entry

/-! ### Comments -/

section Comments

variable {c : UInt8} {s t comment : List UInt8} {continuation : Bool}

theorem scanValue_comment_cons (h : c ≠ 0x0a) : scanValue true continuation (c :: t) =
    (c :: (scanValue true continuation t).1, (scanValue true continuation t).2) := by
  rw [scanValue.eq_def]
  split
  · next heq => cases heq
  · next heq => exact absurd (List.cons.inj heq).1 h
  · next heq =>
    obtain ⟨rfl, rfl⟩ := List.cons.inj heq
    rfl
  · next heq =>
    obtain ⟨rfl, rfl⟩ := List.cons.inj heq
    rfl

theorem scanValue_comment (h : IsNonLf comment) : scanValue true continuation (comment ++ 0x0a :: t) =
    (comment ++ 0x0a :: (scanValue false continuation t).1, (scanValue false continuation t).2) := by
  induction comment with
  | nil => rfl
  | cons c comment ih =>
    obtain ⟨hc, hcomment⟩ := List.forall_mem_cons.mp h
    rw [List.cons_append, scanValue_comment_cons hc.2, ih hcomment, List.cons_append]

theorem removeContinuations_comment_cons (h : c ≠ 0x0a) :
    removeContinuations true (c :: t) = removeContinuations true t := by
  rw [removeContinuations.eq_def]
  split
  · next heq => cases heq
  · next heq => exact absurd (List.cons.inj heq).1 h
  · next heq =>
    obtain ⟨rfl, rfl⟩ := List.cons.inj heq
    rfl
  · next heq =>
    obtain ⟨rfl, rfl⟩ := List.cons.inj heq
    rfl

theorem removeContinuations_comment (h : IsNonLf comment) :
    removeContinuations true (comment ++ 0x0a :: t) = removeContinuations false t := by
  induction comment with
  | nil => rfl
  | cons c comment ih =>
    obtain ⟨hc, hcomment⟩ := List.forall_mem_cons.mp h
    rw [List.cons_append, removeContinuations_comment_cons hc.2, ih hcomment]

theorem removeContinuations_comment_end (h : IsNonLf comment) : removeContinuations true comment = [] := by
  induction comment with
  | nil => rfl
  | cons c comment ih =>
    obtain ⟨hc, hcomment⟩ := List.forall_mem_cons.mp h
    rw [removeContinuations_comment_cons hc.2, ih hcomment]

theorem skipToKey_commentText (h : IsNonLf comment) :
    skipToKey true (comment ++ 0x0a :: t) = skipToKey false t := by
  induction comment with
  | nil => rfl
  | cons c comment ih =>
    obtain ⟨hc, hcomment⟩ := List.forall_mem_cons.mp h
    rw [List.cons_append, skipToKey]
    simpa [hc.2] using ih hcomment

end Comments

/-! ### Values that are continued -/

section Continued

variable {b s t last further : List UInt8} {v : CVal2} {vs : List CVal2} {continuation : Bool}

/-- A line of a value that is continued: its body has neither number signs nor an end of a line. -/
structure CVal2.Ok (v : CVal2) : Prop where
  body : ∀ c ∈ v.body, c ≠ 0x0a ∧ c ≠ 0x23
  comment : ∀ s ∈ v.comment, IsNonLf s

theorem PVBody.ne_newline (h : PVBody b) : ∀ c ∈ b, c ≠ 0x0a := by
  induction h with
  | nil => simp
  | char h _ ih => exact List.forall_mem_cons.mpr ⟨h.2.1, ih⟩
  | escape h _ ih => exact List.forall_mem_cons.mpr ⟨by decide, List.forall_mem_cons.mpr ⟨h.2, ih⟩⟩

theorem scanValue_line (h : v.Ok) : scanValue false true (v.text ++ t) =
    (v.text ++ (scanValue false true t).1, (scanValue false true t).2) := by
  obtain ⟨body, comment⟩ := v
  cases comment with
  | none =>
    have htext : PlainText body (0x5c :: 0x0a :: t) := ⟨h.body, by simp⟩
    show scanValue false true (body ++ [0x5c, 0x0a] ++ t) = _
    rw [List.append_assoc, List.cons_append, List.cons_append, List.nil_append, scanValue_append htext]
    simp [scanValue, CVal2.text]
  | some comment =>
    have htext : PlainText body (0x23 :: (comment ++ 0x0a :: t)) := ⟨h.body, by simp⟩
    have hscan : scanValue false true (0x23 :: (comment ++ 0x0a :: t)) =
        (0x23 :: (comment ++ 0x0a :: (scanValue false true t).1), (scanValue false true t).2) := by
      have hstep : scanValue false true (0x23 :: (comment ++ 0x0a :: t)) =
          (0x23 :: (scanValue true true (comment ++ 0x0a :: t)).1,
            (scanValue true true (comment ++ 0x0a :: t)).2) := rfl
      rw [hstep, scanValue_comment (h.comment comment rfl)]
    have hassoc : CVal2.text ⟨body, some comment⟩ ++ t = body ++ 0x23 :: (comment ++ 0x0a :: t) := by
      simp [CVal2.text]
    rw [hassoc, scanValue_append htext, hscan]
    simp [CVal2.text]

theorem removeContinuations_line (h : v.Ok) :
    removeContinuations false (v.text ++ t) = v.body ++ removeContinuations false t := by
  obtain ⟨body, comment⟩ := v
  cases comment with
  | none =>
    have htext : PlainText body (0x5c :: 0x0a :: t) := ⟨h.body, by simp⟩
    show removeContinuations false (body ++ [0x5c, 0x0a] ++ t) = _
    rw [List.append_assoc, List.cons_append, List.cons_append, List.nil_append,
      removeContinuations_append htext]
    rfl
  | some comment =>
    have htext : PlainText body (0x23 :: (comment ++ 0x0a :: t)) := ⟨h.body, by simp⟩
    have hstep : removeContinuations false (0x23 :: (comment ++ 0x0a :: t)) =
        removeContinuations true (comment ++ 0x0a :: t) := rfl
    have hassoc : CVal2.text ⟨body, some comment⟩ ++ t = body ++ 0x23 :: (comment ++ 0x0a :: t) := by
      simp [CVal2.text]
    rw [hassoc, removeContinuations_append htext, hstep, removeContinuations_comment (h.comment comment rfl)]

theorem scanValue_lines (h : ∀ v ∈ vs, v.Ok) : scanValue false true (vs.flatMap CVal2.text ++ t) =
    (vs.flatMap CVal2.text ++ (scanValue false true t).1, (scanValue false true t).2) := by
  induction vs with
  | nil => rfl
  | cons v vs ih =>
    obtain ⟨hv, hvs⟩ := List.forall_mem_cons.mp h
    rw [List.flatMap_cons, List.append_assoc, scanValue_line hv, ih hvs, List.append_assoc]

theorem removeContinuations_lines (h : ∀ v ∈ vs, v.Ok) :
    removeContinuations false (vs.flatMap CVal2.text ++ t) =
      vs.flatMap CVal2.body ++ removeContinuations false t := by
  induction vs with
  | nil => rfl
  | cons v vs ih =>
    obtain ⟨hv, hvs⟩ := List.forall_mem_cons.mp h
    rw [List.flatMap_cons, List.append_assoc, removeContinuations_line hv, ih hvs, List.flatMap_cons,
      List.append_assoc]

/-- White space at the end of a text that has other characters in its last part. -/
theorem rdropWhile_append_of_exists (h : ∃ c ∈ t, isSpace c = false) :
    (s ++ t).rdropWhile isSpace = s ++ t.rdropWhile isSpace := by
  induction t using List.reverseRecOn with
  | nil => simp at h
  | append_singleton t c ih =>
    rw [← List.append_assoc, List.rdropWhile_concat, List.rdropWhile_concat]
    cases hc : isSpace c with
    | true =>
      have ht : ∃ d ∈ t, isSpace d = false := by
        obtain ⟨d, hd, hspace⟩ := h
        rcases List.mem_append.mp hd with hd | hd
        · exact ⟨d, hd, hspace⟩
        · rw [List.mem_singleton.mp hd, hc] at hspace
          cases hspace
      rw [if_pos rfl, if_pos rfl, ih ht]
    | false =>
      rw [if_neg (by simp), if_neg (by simp), List.append_assoc]

theorem rdropWhile_append_of_forall (h : ∀ c ∈ t, isSpace c = true) :
    (s ++ t).rdropWhile isSpace = s.rdropWhile isSpace := by
  induction t using List.reverseRecOn with
  | nil => rw [List.append_nil]
  | append_singleton t c ih =>
    rw [← List.append_assoc, List.rdropWhile_concat_pos isSpace _ _ (h c (by simp))]
    exact ih fun d hd => h d (by simp [hd])

/-- What is trimmed at its end keeps its first character, if that is no white space. -/
theorem exists_rdropWhile_cons {c : UInt8} (h : isSpace c = false) :
    ∃ t', (c :: t).rdropWhile isSpace = c :: t' ∧ t' <+: t := by
  have hfront := List.rdropWhile_prefix isSpace (c :: t)
  cases hdrop : (c :: t).rdropWhile isSpace with
  | nil =>
    have hc := List.rdropWhile_eq_nil_iff.mp hdrop c List.mem_cons_self
    rw [h] at hc
    cases hc
  | cons d t' =>
    rw [hdrop] at hfront
    obtain ⟨rfl, htail⟩ := List.cons_prefix_cons.mp hfront
    exact ⟨t', rfl, htail⟩

/-- The scan of a value whose first line ends in a backslash. -/
theorem scanValue_continued (hb : ∀ c ∈ b, c ≠ 0x0a ∧ c ≠ 0x23) (hvs : ∀ v ∈ vs, v.Ok)
    (hlast : PlainText last (0x0a :: further)) :
    scanValue false false (b ++ [0x5c, 0x0a] ++ vs.flatMap CVal2.text ++ last ++ 0x0a :: further) =
      (b ++ [0x5c, 0x0a] ++ vs.flatMap CVal2.text ++ last, true, 0x0a :: further) := by
  have hfirst : PlainText b (0x5c :: 0x0a :: (vs.flatMap CVal2.text ++ (last ++ 0x0a :: further))) :=
    ⟨hb, by simp⟩
  have hassoc : b ++ [0x5c, 0x0a] ++ vs.flatMap CVal2.text ++ last ++ 0x0a :: further =
      b ++ 0x5c :: 0x0a :: (vs.flatMap CVal2.text ++ (last ++ 0x0a :: further)) := by
    simp
  have hend : scanValue false true (last ++ 0x0a :: further) = (last, true, 0x0a :: further) := by
    rw [scanValue_append hlast]
    simp [scanValue]
  rw [hassoc, scanValue_append hfirst]
  simp [scanValue, scanValue_lines hvs, hend]

/-- **A value that is continued**: its lines, the first of which ends in a backslash, and its last line, on which
there is something. -/
theorem parseUnquoted_lines (hb : ∀ c ∈ b, c ≠ 0x0a ∧ c ≠ 0x23) (hvs : ∀ v ∈ vs, v.Ok)
    (hlast : PlainText last (0x0a :: further)) (hsome : ∃ c ∈ last, isSpace c = false) :
    parseUnquoted (b ++ [0x5c, 0x0a] ++ vs.flatMap CVal2.text ++ last ++ 0x0a :: further) =
      ((b ++ vs.flatMap CVal2.body ++ last).rdropWhile isSpace, further) := by
  have htrimmed : PlainText (last.rdropWhile isSpace) [] :=
    ⟨fun c hc => hlast.plain c ((List.rdropWhile_prefix isSpace last).subset hc), by simp⟩
  have hline : (⟨b, none⟩ : CVal2).Ok := ⟨hb, by simp⟩
  have hremove := removeContinuations_lines (t := last.rdropWhile isSpace)
    (List.forall_mem_cons.mpr ⟨hline, hvs⟩)
  have htail : removeContinuations false (last.rdropWhile isSpace) = last.rdropWhile isSpace := by
    have happend := removeContinuations_append htrimmed
    rwa [List.append_nil, show removeContinuations false [] = [] from rfl, List.append_nil] at happend
  rw [parseUnquoted, scanValue_continued hb hvs hlast]
  dsimp only
  rw [if_pos rfl, rdropWhile_append_of_exists hsome, rdropWhile_append_of_exists hsome]
  rw [htail] at hremove
  simpa [CVal2.text] using hremove

/-- The same with nothing on the last line, behind a line with a comment: what is trimmed is the end of that
comment. -/
theorem parseUnquoted_blankLine (hvs : ∀ v ∈ (⟨b, none⟩ : CVal2) :: vs, v.Ok) (hv : v.Ok)
    (hcomment : v.comment ≠ none) (hlast : PlainText last (0x0a :: further))
    (hblank : ∀ c ∈ last, isSpace c = true) :
    parseUnquoted (b ++ [0x5c, 0x0a] ++ (vs ++ [v]).flatMap CVal2.text ++ last ++
        0x0a :: further) =
      (b ++ (vs ++ [v]).flatMap CVal2.body, further) := by
  obtain ⟨body, comment⟩ := v
  obtain ⟨comment, rfl⟩ := Option.ne_none_iff_exists'.mp hcomment
  obtain ⟨hb, hvs'⟩ := List.forall_mem_cons.mp hvs
  have hmiddle : ∀ v ∈ vs ++ [(⟨body, some comment⟩ : CVal2)], v.Ok :=
    List.forall_mem_append.mpr ⟨hvs', by simpa using hv⟩
  have hraw : b ++ [0x5c, 0x0a] ++ (vs ++ [(⟨body, some comment⟩ : CVal2)]).flatMap CVal2.text ++ last =
      b ++ [0x5c, 0x0a] ++ vs.flatMap CVal2.text ++ body ++ 0x23 :: comment ++ 0x0a :: last := by
    simp [CVal2.text]
  obtain ⟨t', htrim, hfront⟩ := @exists_rdropWhile_cons comment 0x23 rfl
  have hnonLf : IsNonLf t' := fun c hc => hv.comment comment rfl c (hfront.subset hc)
  have hend : removeContinuations false (body ++ 0x23 :: t') = body := by
    have hplain : PlainText body (0x23 :: t') := ⟨hv.body, by simp⟩
    rw [removeContinuations_append hplain, show removeContinuations false (0x23 :: t') =
      removeContinuations true t' from rfl, removeContinuations_comment_end hnonLf, List.append_nil]
  have hremove := removeContinuations_lines (t := body ++ 0x23 :: t') hvs
  rw [hend] at hremove
  rw [parseUnquoted, scanValue_continued hb.body hmiddle hlast, hraw]
  dsimp only
  rw [if_pos rfl, rdropWhile_append_of_forall (List.forall_mem_cons.mpr ⟨rfl, hblank⟩),
    rdropWhile_append_of_exists ⟨0x23, List.mem_cons_self, rfl⟩, htrim]
  simpa [CVal2.text] using hremove

end Continued

/-! ### Values on one line -/

section OneLine

variable {last wsp further : List UInt8} {comment : Option (List UInt8)}

theorem rdropWhile_append_wsp {s : List UInt8} (h : IsWsp wsp) :
    (s ++ wsp).rdropWhile isSpace = s.rdropWhile isSpace :=
  rdropWhile_append_of_forall fun c hc => by rcases h c hc with rfl | rfl <;> rfl

/-- **A value on one line**, and the comment behind it. -/
theorem parseUnquoted_oneLine (further : List UInt8) (hlast : ∀ c ∈ last, c ≠ 0x0a ∧ c ≠ 0x23)
    (hslash : comment = none → last.getLast? ≠ some 0x5c) (hcomment : ∀ s ∈ comment, IsNonLf s) :
    ∃ rest, parseUnquoted (last ++ commentText comment ++ 0x0a :: further) = (last.rdropWhile isSpace, rest) ∧
      skipToKey false rest = skipToKey false further := by
  have htext : PlainText last (commentText comment ++ 0x0a :: further) := by
    refine ⟨hlast, fun heq => ?_⟩
    cases comment with
    | none => exact absurd heq (hslash rfl)
    | some s => simp [commentText]
  cases comment with
  | none =>
    refine ⟨further, ?_, rfl⟩
    rw [List.append_assoc, parseUnquoted, scanValue_append htext]
    simp [scanValue, commentText]
  | some s =>
    refine ⟨0x23 :: (s ++ 0x0a :: further), ?_, ?_⟩
    · rw [List.append_assoc, parseUnquoted, scanValue_append htext]
      simp [scanValue, commentText]
    · rw [skipToKey, if_neg (by simp), if_neg (by decide), if_pos rfl, skipToKey_commentText (hcomment s rfl)]

end OneLine

/-! ### Entries with one meaning -/

namespace UnquotedVal

/-- The last line of a value, up to its comment. -/
def lastText : UnquotedVal → List UInt8
  | plain body backslash wsp _ => body ++ backslashText backslash ++ wsp
  | continued _ _ last => last

def comment : UnquotedVal → Option (List UInt8)
  | plain _ _ _ comment => comment
  | continued _ _ _ => none

/-- The value has more than one line. -/
def isContinued : UnquotedVal → Bool
  | plain _ _ _ _ => false
  | continued _ _ _ => true

/-- There is nothing on the last line, a comment on the line in front of it, and no white space in front of
the comment. -/
def BlankBehindComment : UnquotedVal → Prop
  | plain _ _ _ _ => False
  | continued first middle last =>
      (∀ c ∈ last, isSpace c = true) ∧ (∃ v ∈ middle.getLast?, v.comment ≠ none) ∧
        ∀ c ∈ (first ++ middle.flatMap CVal2.body).getLast?, isSpace c = false

def bodies : UnquotedVal → List (List UInt8)
  | plain body _ _ _ => [body]
  | continued first middle last => first :: last :: middle.map CVal2.body

end UnquotedVal

/-- The text of an entry has one meaning only: between the key and the value there are white space and `n`
backslashes at ends of lines. -/
structure Entry.Regular (e : Entry) (blanks : List (List UInt8)) (n : ℕ) : Prop where
  separators : e.separators = blanks.map .wsp ++ List.replicate n (.newline [])
  /-- White space belongs to the separators. -/
  start : n = 0 → ∀ v ∈ e.val, ∀ c ∈ v.text.head?, isBlank c = false
  /-- A number sign begins a comment. -/
  noNumberSign : ∀ v ∈ e.val, ∀ b ∈ v.bodies, 0x23 ∉ b
  /-- A line that ends in a backslash goes on. -/
  finish : ∀ v ∈ e.val, v.comment = none → v.lastText.getLast? ≠ some 0x5c
  /-- A backslash that belongs to the key is not in front of the end of its line. -/
  keyEnd : e.body = [] → e.key.getLast? ≠ some 0x5c
  /-- The last line of a value that is continued has no comment, and something on it or a comment above. -/
  continued : (n ≠ 0 ∨ ∃ v ∈ e.val, v.isContinued = true) →
    ∃ v ∈ e.val, v.comment = none ∧ ((∃ c ∈ v.lastText, isSpace c = false) ∨ v.BlankBehindComment)

section Regular

variable {e : Entry} {blanks : List (List UInt8)} {n : ℕ} {further : List UInt8}

/-- The lines that have only a backslash. -/
def emptyLines (n : ℕ) : List CVal2 := List.replicate n ⟨[], none⟩

theorem Entry.Regular.body_eq (h : e.Regular blanks n) :
    e.body = blanks.flatten ++ ((emptyLines n).flatMap CVal2.text ++ (e.val.map UnquotedVal.text).getD []) := by
  have hblanks : (blanks.map Separator.wsp).flatMap Separator.text = blanks.flatten := by
    rw [List.flatMap_map]
    exact List.flatMap_id'
  have hlines : (List.replicate n (Separator.newline [])).flatMap Separator.text =
      (emptyLines n).flatMap CVal2.text := by
    rw [emptyLines, List.flatMap_replicate, List.flatMap_replicate]
    rfl
  rw [Entry.body, h.separators, List.flatMap_append, hblanks, hlines, List.append_assoc]

theorem Entry.Derives.isWsp_blanks (hd : e.Derives) (h : e.Regular blanks n) : IsWsp blanks.flatten := by
  intro c hc
  obtain ⟨w, hw, hcw⟩ := List.mem_flatten.mp hc
  have hsep := hd.separators (.wsp w) (by rw [h.separators]; simp [hw])
  exact hsep.1 c hcw

theorem ok_emptyLines (n : ℕ) : ∀ v ∈ emptyLines n, v.Ok := by
  intro v hv
  rw [List.eq_of_mem_replicate hv]
  exact ⟨by simp, by simp⟩

theorem body_emptyLines (n : ℕ) : (emptyLines n).flatMap CVal2.body = [] := by
  rw [emptyLines, List.flatMap_replicate]
  simp

/-- The lines up to the first one of a value: one of them is the first that ends in a backslash. -/
theorem exists_firstLines (n : ℕ) {first : List UInt8} (hfirst : (⟨first, none⟩ : CVal2).Ok) :
    ∃ b vs, (∀ v ∈ (⟨b, none⟩ : CVal2) :: vs, v.Ok) ∧
      (emptyLines n).flatMap CVal2.text ++ (first ++ [0x5c, 0x0a]) =
        b ++ [0x5c, 0x0a] ++ vs.flatMap CVal2.text ∧
      b ++ vs.flatMap CVal2.body = first := by
  cases n with
  | zero => exact ⟨first, [], by simpa using hfirst, by simp [emptyLines], by simp⟩
  | succ n =>
    refine ⟨[], emptyLines n ++ [⟨first, none⟩], ?_, ?_, ?_⟩
    · refine List.forall_mem_cons.mpr ⟨ok_emptyLines 1 _ (by simp [emptyLines]), ?_⟩
      exact List.forall_mem_append.mpr ⟨ok_emptyLines n, by simpa using hfirst⟩
    · simp [emptyLines, List.replicate_succ, CVal2.text]
    · simp [body_emptyLines]

theorem Entry.Regular.body_ok (h : e.Regular blanks n) {v : UnquotedVal} (hv : v ∈ e.val) {b : List UInt8}
    (hb : b ∈ v.bodies) (hbody : PVBody b) : ∀ c ∈ b, c ≠ 0x0a ∧ c ≠ 0x23 := by
  intro c hc
  refine ⟨hbody.ne_newline c hc, ?_⟩
  rintro rfl
  exact h.noNumberSign v hv b hb hc

theorem Entry.Regular.middle_ok (h : e.Regular blanks n) {first last : List UInt8} {middle : List CVal2}
    (hv : UnquotedVal.continued first middle last ∈ e.val)
    (hderives : (UnquotedVal.continued first middle last).Derives) :
    ∀ v ∈ (⟨first, none⟩ : CVal2) :: middle, v.Ok := by
  intro v hmem
  rcases List.mem_cons.mp hmem with rfl | hmem
  · exact ⟨h.body_ok hv (by simp [UnquotedVal.bodies]) hderives.1, by simp⟩
  · obtain ⟨hbody, hcomment⟩ := hderives.2.1 v hmem
    have hbodies : v.body ∈ (UnquotedVal.continued first middle last).bodies := by
      simp only [UnquotedVal.bodies, List.mem_cons, List.mem_map]
      exact Or.inr (Or.inr ⟨v, hmem, rfl⟩)
    exact ⟨h.body_ok hv hbodies hbody, hcomment⟩

theorem Entry.Regular.plain_ok (h : e.Regular blanks n) {body wsp : List UInt8} {backslash : Bool}
    {comment : Option (List UInt8)} (hv : UnquotedVal.plain body backslash wsp comment ∈ e.val)
    (hderives : (UnquotedVal.plain body backslash wsp comment).Derives) :
    ∀ c ∈ (UnquotedVal.plain body backslash wsp comment).lastText, c ≠ 0x0a ∧ c ≠ 0x23 := by
  intro c hc
  simp only [UnquotedVal.lastText, List.mem_append] at hc
  rcases hc with (hc | hc) | hc
  · exact h.body_ok hv (by simp [UnquotedVal.bodies]) hderives.1 c hc
  · unfold backslashText at hc
    split_ifs at hc
    · rw [List.mem_singleton.mp hc]
      decide
    · cases hc
  · rcases hderives.2.1 c hc with rfl | rfl <;> decide

/-- A value that is continued is read as it is derived. -/
theorem Entry.Regular.parse_continued (h : e.Regular blanks n) {first last : List UInt8} {middle : List CVal2}
    (hv : UnquotedVal.continued first middle last ∈ e.val)
    (hderives : (UnquotedVal.continued first middle last).Derives)
    (hfinish : (UnquotedVal.continued first middle last).comment = none ∧
      ((∃ c ∈ last, isSpace c = false) ∨ (UnquotedVal.continued first middle last).BlankBehindComment)) :
    parseUnquoted ((emptyLines n).flatMap CVal2.text ++ (UnquotedVal.continued first middle last).text ++
        0x0a :: further) = ((UnquotedVal.continued first middle last).value.rdropWhile isSpace, further) := by
  obtain ⟨hcomment, hcases⟩ := hfinish
  have hlast : PlainText last (0x0a :: further) :=
    ⟨h.body_ok hv (by simp [UnquotedVal.bodies]) hderives.2.2,
      fun heq => absurd heq (h.finish _ hv hcomment)⟩
  obtain ⟨hfirst, hmiddle⟩ := List.forall_mem_cons.mp (h.middle_ok hv hderives)
  obtain ⟨b, vs, hvs, htext, hbodies⟩ := exists_firstLines n hfirst
  have hlines : ∀ v ∈ (⟨b, none⟩ : CVal2) :: (vs ++ middle), v.Ok := by
    rw [← List.cons_append]
    exact List.forall_mem_append.mpr ⟨hvs, hmiddle⟩
  have htext' : (emptyLines n).flatMap CVal2.text ++ (UnquotedVal.continued first middle last).text ++
      0x0a :: further = b ++ [0x5c, 0x0a] ++ (vs ++ middle).flatMap CVal2.text ++ last ++ 0x0a :: further := by
    have happend := congrArg (· ++ (middle.flatMap CVal2.text ++ last ++ 0x0a :: further)) htext
    simpa [UnquotedVal.text] using happend
  have hbodies' : b ++ (vs ++ middle).flatMap CVal2.body = first ++ middle.flatMap CVal2.body := by
    rw [List.flatMap_append, ← List.append_assoc, hbodies]
  rw [htext']
  rcases hcases with hexists | ⟨hblank, ⟨v, hmem, hne⟩, hspace⟩
  · obtain ⟨hb, hvs'⟩ := List.forall_mem_cons.mp hlines
    rw [parseUnquoted_lines hb.body hvs' hlast hexists, hbodies']
    rfl
  · obtain ⟨front, rfl⟩ := List.getLast?_eq_some_iff.mp hmem
    rw [← List.append_assoc] at hlines hbodies' ⊢
    have hlines' : ∀ v ∈ (⟨b, none⟩ : CVal2) :: (vs ++ front), v.Ok := fun v hmem =>
      hlines v (List.cons_append ▸ List.mem_append_left _ hmem)
    have htrim : (UnquotedVal.continued first (front ++ [v]) last).value.rdropWhile isSpace =
        first ++ (front ++ [v]).flatMap CVal2.body := by
      rw [UnquotedVal.value, rdropWhile_append_of_forall hblank, List.rdropWhile_eq_self_iff]
      intro hl
      rw [hspace _ (List.getLast_mem_getLast? hl)]
      exact Bool.false_ne_true
    rw [parseUnquoted_blankLine hlines' (hlines v (by simp)) hne hlast hblank, hbodies', htrim]

/-- **The value** of an entry is read as it is derived. -/
theorem Entry.Derives.parseUnquoted_value (hd : e.Derives) (h : e.Regular blanks n) :
    ∃ rest, parseUnquoted ((emptyLines n).flatMap CVal2.text ++ (e.val.map UnquotedVal.text).getD [] ++
        0x0a :: further) = (e.value.rdropWhile isSpace, rest) ∧
      skipToKey false rest = skipToKey false further := by
  cases hval : e.val with
  | none =>
    have hn : n = 0 := by
      by_contra hne
      obtain ⟨v, hv, -⟩ := h.continued (Or.inl hne)
      rw [hval] at hv
      cases hv
    subst hn
    refine ⟨further, ?_, rfl⟩
    rw [Entry.value, hval]
    rfl
  | some v =>
    have hv : v ∈ e.val := hval
    obtain ⟨hderives, -⟩ := hd.val v hv
    have hvalue : e.value = v.value := by rw [Entry.value, hval]; rfl
    rw [hvalue]
    show ∃ rest, parseUnquoted ((emptyLines n).flatMap CVal2.text ++ v.text ++ 0x0a :: further) = _ ∧ _
    have hsome : n ≠ 0 ∨ v.isContinued = true → v.comment = none ∧
        ((∃ c ∈ v.lastText, isSpace c = false) ∨ v.BlankBehindComment) := by
      intro hcont
      obtain ⟨v', hv', hrest⟩ := h.continued (hcont.imp_right fun hc => ⟨v, hv, hc⟩)
      cases Option.mem_unique hv hv'
      exact hrest
    cases v with
    | plain body backslash wsp comment =>
      have htrim : (UnquotedVal.plain body backslash wsp comment).lastText.rdropWhile isSpace =
          (UnquotedVal.plain body backslash wsp comment).value.rdropWhile isSpace :=
        rdropWhile_append_wsp hderives.2.1
      have hok := h.plain_ok hv hderives
      cases n with
      | zero =>
        obtain ⟨rest, hparse, hrest⟩ := parseUnquoted_oneLine further hok (h.finish _ hv)
          hderives.2.2
        exact ⟨rest, by rw [← htrim, ← hparse]; rfl, hrest⟩
      | succ n =>
        obtain ⟨hcomment, hexists | hblank⟩ := hsome (Or.inl (Nat.succ_ne_zero n))
        swap
        · cases hblank
        have htext : PlainText (UnquotedVal.plain body backslash wsp comment).lastText (0x0a :: further) :=
          ⟨hok, fun heq => absurd heq (h.finish _ hv hcomment)⟩
        have hparse := parseUnquoted_lines (b := []) (by simp) (ok_emptyLines n) htext hexists
        obtain rfl : comment = none := hcomment
        simp only [body_emptyLines, List.nil_append, htrim] at hparse
        refine ⟨further, ?_, rfl⟩
        rw [← hparse]
        simp [emptyLines, List.replicate_succ, CVal2.text, UnquotedVal.text, UnquotedVal.lastText, commentText]
    | continued first middle last =>
      exact ⟨further, h.parse_continued hv hderives (hsome (Or.inr rfl)), rfl⟩

theorem Entry.Derives.isKey_markedKey (hd : e.Derives) : IsKey e.markedKey where
  ne_nil := by simp [Entry.markedKey, hd.key.ne_nil]
  chars c hc := by
    rcases List.mem_append.mp hc with hc | hc
    · rcases hd.magic c (by simpa using hc) with rfl | rfl <;> decide
    · exact hd.key.chars c hc

/-- If there is neither white space nor a backslash behind the key, there is nothing. -/
theorem Entry.Derives.val_eq_none (hd : e.Derives) (h : e.Regular blanks 0) (hnil : blanks.flatten = []) :
    e.val = none := by
  cases hval : e.val with
  | none => rfl
  | some v =>
    exfalso
    have hsome : e.val.isSome = true := by rw [hval]; rfl
    have hseps := h.separators
    rw [List.replicate_zero, List.append_nil] at hseps
    cases blanks with
    | nil => exact hd.separated hsome hseps
    | cons w blanks =>
      have hsep := hd.separators (.wsp w) (by rw [hseps]; simp)
      rw [List.flatten_cons, List.append_eq_nil_iff] at hnil
      exact hsep.2 hsome hnil.1

theorem Entry.Derives.head_value (hd : e.Derives) (h : e.Regular blanks n) (further : List UInt8) :
    ∀ c ∈ ((emptyLines n).flatMap CVal2.text ++ (e.val.map UnquotedVal.text).getD [] ++
        0x0a :: further).head?, isBlank c = false ∧ c ≠ 0x22 := by
  intro c hc
  cases n with
  | succ n =>
    obtain rfl : 0x5c = c := Option.some.inj hc
    decide
  | zero =>
    cases hval : e.val with
    | none =>
      rw [hval] at hc
      obtain rfl : 0x0a = c := Option.some.inj hc
      decide
    | some v =>
      rw [hval] at hc
      have hc' : c ∈ (v.text ++ 0x0a :: further).head? := hc
      cases htext : v.text with
      | nil =>
        rw [htext] at hc'
        obtain rfl : 0x0a = c := Option.some.inj hc'
        decide
      | cons d t =>
        rw [htext] at hc'
        obtain rfl : d = c := Option.some.inj hc'
        refine ⟨h.start rfl v hval d (by rw [htext]; rfl), ?_⟩
        rintro rfl
        exact (hd.val v hval).2 (by rw [htext]; rfl)

/-- **An entry is read as documented**, if its text has one meaning only. -/
theorem readsAs_of_regular (e : Entry) (blanks : List (List UInt8)) (n : ℕ) (hd : e.Derives)
    (hregular : e.Regular blanks n) : e.ReadsAs := by
  intro further _
  have hblanks := hd.isWsp_blanks hregular
  have hhead := hd.head_value hregular further
  obtain ⟨rest, hparse, hrest⟩ := @Entry.Derives.parseUnquoted_value e blanks n further hd hregular
  have htext : e.text ++ further = e.indent ++ (e.markedKey ++ (blanks.flatten ++
      ((emptyLines n).flatMap CVal2.text ++ (e.val.map UnquotedVal.text).getD [] ++ 0x0a :: further))) := by
    rw [Entry.text, hregular.body_eq]
    simp
  have hnil : blanks.flatten = [] → n = 0 → e.body = [] := by
    rintro hnil rfl
    rw [hregular.body_eq, hnil, hd.val_eq_none hregular hnil]
    rfl
  generalize hline : (emptyLines n).flatMap CVal2.text ++ (e.val.map UnquotedVal.text).getD [] ++
    0x0a :: further = line at *
  have hstart : blanks.flatten = [] → (n = 0 ∧ line = 0x0a :: further) ∨ ∃ t, line = 0x5c :: 0x0a :: t := by
    intro hnil'
    cases n with
    | zero =>
      refine Or.inl ⟨rfl, ?_⟩
      rw [← hline, hd.val_eq_none hregular hnil']
      rfl
    | succ n => exact Or.inr ⟨_, hline.symm⟩
  have hstop : StopsKey (blanks.flatten ++ line) := by
    cases hcons : blanks.flatten with
    | cons c t =>
      rcases hblanks c (by rw [hcons]; simp) with rfl | rfl
      · exact Or.inl ⟨0x20, rfl, rfl⟩
      · exact Or.inl ⟨0x09, rfl, rfl⟩
    | nil =>
      rcases hstart hcons with ⟨-, rfl⟩ | ⟨t, rfl⟩
      · exact Or.inl ⟨0x0a, rfl, rfl⟩
      · exact Or.inr ⟨t, rfl⟩
  have hlast : e.markedKey.getLast? = some 0x5c → (blanks.flatten ++ line).head? ≠ some 0x0a := by
    intro hkey
    cases hcons : blanks.flatten with
    | cons c t =>
      rcases hblanks c (by rw [hcons]; simp) with rfl | rfl <;> simp
    | nil =>
      rcases hstart hcons with ⟨hzero, -⟩ | ⟨t, rfl⟩
      · refine absurd ?_ (hregular.keyEnd (hnil hcons hzero))
        obtain ⟨c, hc⟩ := Option.ne_none_iff_exists'.mp (mt List.getLast?_eq_none_iff.mp hd.key.ne_nil)
        rw [Entry.markedKey, List.getLast?_append, hc] at hkey
        rw [hc]
        exact hkey
      · simp
  have hdrop : (blanks.flatten ++ line).dropWhile isBlank = line := by
    rw [List.dropWhile_append_of_pos fun c hc => by rcases hblanks c hc with rfl | rfl <;> rfl]
    cases line with
    | nil => rfl
    | cons c t => exact List.dropWhile_cons_of_neg (by rw [(hhead c rfl).1]; simp)
  have hquote : line.head? ≠ some 0x22 := fun heq => (hhead 0x22 heq).2 rfl
  have hindent : ∀ c ∈ e.indent, isSpace c = true := by
    intro c hc
    rcases hd.indent c hc with rfl | rfl <;> rfl
  refine ⟨afterValue rest, ?_, ?_⟩
  · rw [htext, parse_entry hindent hd.isKey_markedKey hstop hlast, hdrop, if_neg hquote, hparse]
  · rw [skipToKey_afterValue, hrest]

/-- `Foo`, and a value of two lines with a comment between them. -/
def fooEntry : Entry where
  indent := []
  magic := none
  key := [0x46, 0x6f, 0x6f]
  separators := [.wsp [0x20]]
  val := some (.continued [0x61] [⟨[0x62], some [0x63]⟩] [0x64, 0x20])

/-- It is read as `abd`. -/
theorem readsAs_of_regular_foo : fooEntry.ReadsAs :=
  readsAs_of_regular fooEntry [[0x20]] 0
    { indent := by simp [fooEntry, IsWsp]
      magic := by simp [fooEntry]
      key := ⟨by simp [fooEntry], by simp [fooEntry, isSpace]⟩
      separators := by simp [fooEntry, Separator.Derives, IsWsp]
      separated := by simp [fooEntry]
      val := by
        intro v hv
        cases hv
        refine ⟨⟨.char (by decide) .nil, ?_, .char (by decide) (.char (by decide) .nil)⟩, by decide⟩
        intro v hv
        rw [List.mem_singleton.mp hv]
        exact ⟨.char (by decide) .nil, by simp [IsNonLf]⟩ }
    { separators := rfl
      start := by simp [fooEntry, UnquotedVal.text, isBlank]
      noNumberSign := by simp [fooEntry, UnquotedVal.bodies]
      finish := by simp [fooEntry, UnquotedVal.lastText]
      keyEnd := by simp [fooEntry]
      continued := by simp [fooEntry, UnquotedVal.comment, UnquotedVal.lastText, isSpace] }

/-- `Foo`, and a value on one line that ends in two backslashes. -/
def backslashesEntry : Entry where
  indent := []
  magic := none
  key := [0x46, 0x6f, 0x6f]
  separators := [.wsp [0x20]]
  val := some (.plain [0x61, 0x5c, 0x5c] false [] none)

/-- Of two backslashes the second one continues the value. -/
theorem not_readsAs_of_derives : ¬∀ e : Entry, e.Derives → e.ReadsAs := by
  intro h
  have hderives : backslashesEntry.Derives :=
    { indent := by simp [backslashesEntry, IsWsp]
      magic := by simp [backslashesEntry]
      key := ⟨by simp [backslashesEntry], by simp [backslashesEntry, isSpace]⟩
      separators := by simp [backslashesEntry, Separator.Derives, IsWsp]
      separated := by simp [backslashesEntry]
      val := by
        intro v hv
        cases hv
        exact ⟨⟨.char (by decide) (.escape (by decide) .nil), by simp [IsWsp], by simp⟩, by decide⟩ }
  obtain ⟨rest, hrest, -⟩ := h backslashesEntry hderives [0x62] (by simp)
  have hread : parseConfigLineFromStrVerbose (backslashesEntry.text ++ [0x62]) =
      .ok ⟨some [0x46, 0x6f, 0x6f], some [0x61, 0x5c, 0x62], []⟩ := rfl
  rw [hread] at hrest
  have hvalue : some [0x61, 0x5c, 0x62] = some (backslashesEntry.value.rdropWhile isSpace) :=
    congrArg ConfLine.value (Except.ok.inj hrest)
  revert hvalue
  decide

end Regular

end TorEbpf.Encoding
