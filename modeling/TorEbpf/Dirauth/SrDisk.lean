import Mathlib
import TorEbpf.Dirauth.SrState
import TorEbpf.Encoding.Base64RoundTrip
import TorEbpf.Strings.NumberText
import TorEbpf.Strings.SplitString

/-!
# The shared-random state on disk

`disk_state_update` of `shared_random_state.c` writes the state of the shared-random protocol as lines, and
`disk_state_parse` makes a state of them again.  A commit is written as it came, and read by the same
function as the commits of votes; but a line is split at white space of every kind, and the words of a
vote may start or end with a vertical tab or a form feed.

* `Stored` — what a commit of the state is, in every run;
* `parse_commitLine` — a commit line is read back up to white space at the ends of its two values;
* `restarts_iff` — a state is read back exactly if none of these values has any.
-/

namespace TorEbpf.Dirauth

open TorEbpf.Lib TorEbpf.Dircommon TorEbpf.Strings

/-! ### The disk state -/

/-- `config_line_t`. -/
structure StateLine where
  key : List UInt8
  value : Option (List UInt8)
  deriving DecidableEq, Repr

/-- `sr_disk_state_t`, without what is only written for readers. -/
structure SrDiskState where
  version : ℕ
  validAfter : ℕ
  validUntil : ℕ
  commit : List StateLine
  sharedRandValues : List StateLine
  deriving DecidableEq, Repr

/-- `sr_state_t` with the two fields that do not take part in the protocol. -/
structure SavedState where
  state : SrState
  version : ℕ
  validUntil : ℕ

def dstateCommitKey : List UInt8 := [0x43, 0x6f, 0x6d, 0x6d, 0x69, 0x74]

/-- `dstate_prev_srv_key`: "SharedRandPreviousValue". -/
def dstatePrevSrvKey : List UInt8 :=
  [0x53, 0x68, 0x61, 0x72, 0x65, 0x64, 0x52, 0x61, 0x6e, 0x64, 0x50, 0x72, 0x65, 0x76, 0x69, 0x6f, 0x75,
    0x73, 0x56, 0x61, 0x6c, 0x75, 0x65]

/-- `dstate_cur_srv_key`: "SharedRandCurrentValue". -/
def dstateCurSrvKey : List UInt8 :=
  [0x53, 0x68, 0x61, 0x72, 0x65, 0x64, 0x52, 0x61, 0x6e, 0x64, 0x43, 0x75, 0x72, 0x72, 0x65, 0x6e, 0x74,
    0x56, 0x61, 0x6c, 0x75, 0x65]

/-- `tolower`. -/
def lowerCase (c : UInt8) : UInt8 := if 65 ≤ c ∧ c ≤ 90 then c + 32 else c

/-- `!strcasecmp(key, name)`. -/
def isKey (key name : List UInt8) : Bool := key.map lowerCase == name.map lowerCase

/-! ### Writing -/

def diskStatePutCommitLine (commit : SrCommit) : List UInt8 :=
  let revealStr := if commitHasRevealValue commit then 0x20 :: commit.encodedReveal else []
  decimal srProtoVersion ++ 0x20 :: sha3Name ++ 0x20 :: commit.rsaFpr ++ 0x20 :: commit.encodedCommit ++
    revealStr

def diskStatePutSrvLine (srv : SrSrv) : List UInt8 :=
  decimal srv.numReveals.toNat ++ 0x20 :: base64Encode srv.value.val

/-- The line of a shared random value, if there is one. -/
def srvLine (key : List UInt8) : Option SrSrv → List StateLine
  | some srv => [⟨key, some (diskStatePutSrvLine srv)⟩]
  | none => []

/-- `disk_state_update`; `order` is the order in which the map lists the commits. -/
def diskStateUpdate (order : List SrCommit → List SrCommit) (s : SavedState) : SrDiskState where
  version := s.version
  validAfter := s.state.validAfter
  validUntil := s.validUntil
  commit := (order s.state.commits).map fun c => ⟨dstateCommitKey, some (diskStatePutCommitLine c)⟩
  sharedRandValues := srvLine dstatePrevSrvKey s.state.previousSrv ++
    srvLine dstateCurSrvKey s.state.currentSrv

/-! ### Reading -/

def srSrvValueBase64Len : ℕ := 44

def srParseSrv (args : List (List UInt8)) : Option SrSrv :=
  match args with
  | numReveals :: value :: _ =>
      match torParseUlong numReveals 0 (2 ^ 64 - 1) with
      | some (n, []) =>
          if value.length ≠ srSrvValueBase64Len then none
          else
            match base64Decode 32 (value.take (srSrvValueBase64Len - 1)) with
            | some v => if v.length = 32 then some ⟨UInt64.ofNat n, Bytes.pad 32 v⟩ else none
            | none => none
      | _ => none
  | _ => none

def diskStateParseSrv (value : List UInt8) : Option SrSrv :=
  let args := splitSpaces value
  if args.length < 2 then none else srParseSrv args

/-- One line of `disk_state_parse_sr_values`.  The state is new, so a value that has been seen is one that
is set. -/
def parseSrLine (srvs : Option SrSrv × Option SrSrv) (line : StateLine) :
    Option (Option SrSrv × Option SrSrv) :=
  match line.value with
  | none => some srvs
  | some value =>
      match diskStateParseSrv value with
      | none => none
      | some srv =>
          if isKey line.key dstatePrevSrvKey then
            if srvs.1.isSome then none else some (some srv, srvs.2)
          else if isKey line.key dstateCurSrvKey then
            if srvs.2.isSome then none else some (srvs.1, some srv)
          else some srvs

def commitAddToState (commits : List SrCommit) (commit : SrCommit) : List SrCommit :=
  commits.filter (·.rsaIdentity ≠ commit.rsaIdentity) ++ [commit]

/-- One line of `disk_state_parse_commits`. -/
def parseCommitLine (commits : List SrCommit) (line : StateLine) : Option (List SrCommit) :=
  match isKey line.key dstateCommitKey, line.value with
  | true, some value =>
      let args := splitSpaces value
      if args.length < 3 then none
      else
        match srParseCommit args with
        | none => some commits
        | some commit => some (commitAddToState commits { commit with valid := true })
  | _, _ => some commits

def diskStateParse (a : Authority) (d : SrDiskState) : Option SavedState := do
  let srvs ← d.sharedRandValues.foldlM parseSrLine (none, none)
  let commits ← d.commit.foldlM parseCommitLine []
  return {
    state :=
      { phase := getSrProtocolPhase a d.validAfter, validAfter := d.validAfter, commits := commits,
        previousSrv := srvs.1, currentSrv := srvs.2, isSrvFresh := false, nProtocolRuns := 0,
        nCommitRounds := 0, nRevealRounds := 0, storedIn := fun _ => 0, revealedIn := fun _ => none }
    version := d.version
    validUntil := d.validUntil }

/-! ### Surviving a restart -/

/-- The same commits, values, times and phase. -/
def SameSaved (s s' : SavedState) : Prop :=
  (∀ id, getCommit s'.state.commits id = getCommit s.state.commits id) ∧
    s'.state.previousSrv = s.state.previousSrv ∧ s'.state.currentSrv = s.state.currentSrv ∧
    s'.state.validAfter = s.state.validAfter ∧ s'.validUntil = s.validUntil ∧
    s'.state.phase = s.state.phase

/-- **Surviving a restart**: what is written is read back. -/
def Restarts (a : Authority) (s : SavedState) : Prop :=
  ∃ s', diskStateParse a (diskStateUpdate a.order s) = some s' ∧ SameSaved s s'

/-- The words of a vote's lines come from its text. -/
def SrEvent.FromText : SrEvent → Prop
  | .update _ _ => True
  | .vote _ lines => ∀ args ∈ lines, ∃ line, getTokenArguments line = some args

/-- No white space at the ends of the values of the commits. -/
def SrState.ValuesTrimmed (s : SrState) : Prop :=
  ∀ c ∈ s.commits, Trimmed c.encodedCommit ∧ Trimmed c.encodedReveal

/-! ### Base 64 without white space -/

theorem isSpace_base64EncodeTable : ∀ v < 64, isSpace (base64EncodeTable v) = false := by
  decide +kernel

theorem length_base64Encode (x : List UInt8) : (base64Encode x).length = (x.length + 2) / 3 * 4 := by
  induction x using base64Encode.induct with
  | case1 => rfl
  | case2 a => simp [base64Encode]
  | case3 a b => simp [base64Encode]
  | case4 a b c rest ih =>
    rw [base64Encode]
    simp only [List.length_cons]
    rw [ih]
    omega

theorem isSpace_of_mem_base64Encode {x : List UInt8} {c : UInt8} (h : c ∈ base64Encode x) :
    isSpace c = false := by
  induction x using base64Encode.induct with
  | case1 => cases h
  | case2 a =>
    have ha := a.toNat_lt
    rw [base64Encode] at h
    simp only [List.mem_cons, List.not_mem_nil, or_false] at h
    rcases h with rfl | rfl | rfl | rfl
    · exact isSpace_base64EncodeTable _ (by omega)
    · exact isSpace_base64EncodeTable _ (by omega)
    · rfl
    · rfl
  | case3 a b =>
    have ha := a.toNat_lt
    have hb := b.toNat_lt
    rw [base64Encode] at h
    simp only [List.mem_cons, List.not_mem_nil, or_false] at h
    rcases h with rfl | rfl | rfl | rfl
    · exact isSpace_base64EncodeTable _ (by omega)
    · exact isSpace_base64EncodeTable _ (by omega)
    · exact isSpace_base64EncodeTable _ (by omega)
    · rfl
  | case4 a b c' rest ih =>
    have ha := a.toNat_lt
    have hb := b.toNat_lt
    have hc := c'.toNat_lt
    rw [base64Encode] at h
    simp only [List.mem_cons] at h
    rcases h with rfl | rfl | rfl | rfl | h
    · exact isSpace_base64EncodeTable _ (by omega)
    · exact isSpace_base64EncodeTable _ (by omega)
    · exact isSpace_base64EncodeTable _ (by omega)
    · exact isSpace_base64EncodeTable _ (by omega)
    · exact ih h

/-- The text ends in a padding character unless the length is divided by three. -/
theorem exists_base64Encode_pad {x : List UInt8} (h : x.length % 3 ≠ 0) :
    ∃ l, base64Encode x = l ++ [0x3d] := by
  induction x using base64Encode.induct with
  | case1 => exact absurd rfl h
  | case2 a => exact ⟨[_, _, _], rfl⟩
  | case3 a b => exact ⟨[_, _, _], rfl⟩
  | case4 a b c rest ih =>
    simp only [List.length_cons] at h
    obtain ⟨l, hl⟩ := ih (by omega)
    rw [base64Encode, hl]
    exact ⟨_ :: _ :: _ :: _ :: l, rfl⟩

theorem loop_spaces {destlen : ℕ} {l : List UInt8} (h : ∀ c ∈ l, isSpace c = true) :
    base64DecodeLoop destlen l 0 0 [] = none ∨ base64DecodeLoop destlen l 0 0 [] = some (0, 0, []) := by
  induction l with
  | nil => exact .inr rfl
  | cons c l ih =>
    have hrest := ih fun x hx => h x (List.mem_cons_of_mem c hx)
    have hc := h c List.mem_cons_self
    have htable : base64DecodeTable c = 64 ∨ base64DecodeTable c = 255 := by
      unfold isSpace at hc
      simp only [Bool.or_eq_true, Bool.and_eq_true, decide_eq_true_eq, UInt8.le_iff_toNat_le] at hc
      unfold base64DecodeTable
      rcases hc with rfl | ⟨hlow, hhigh⟩
      · exact .inl rfl
      · have hlow' : 9 ≤ c.toNat := hlow
        have hhigh' : c.toNat ≤ 13 := hhigh
        dsimp only
        split_ifs <;> omega
    rw [base64DecodeLoop]
    rcases htable with htable | htable
    · rw [htable]
      exact hrest
    · rw [htable]
      exact .inl rfl

/-! ### Lines of commits -/

/-- What a commit of the state is. -/
structure Stored (c : SrCommit) : Prop where
  valid : c.valid = true
  commit : srDecode c.encodedCommit = some (c.commitTs, c.hashedReveal)
  noReveal : c.encodedReveal = [] → c.revealTs = 0 ∧ c.randomNumber = Bytes.pad 32 []
  reveal : c.encodedReveal ≠ [] → srDecode c.encodedReveal = some (c.revealTs, c.randomNumber)
  commitWord : (0x20 : UInt8) ∉ c.encodedCommit
  revealWord : (0x20 : UInt8) ∉ c.encodedReveal

theorem trim_ne_nil_of_srDecode {t : List UInt8} {r : UInt64 × Bytes 32} (h : srDecode t = some r) :
    trim t ≠ [] := by
  have hnot : ∃ c ∈ t, isSpace c = false := by
    by_contra hall
    have hspaces : ∀ c ∈ t, isSpace c = true := by
      intro c hc
      by_contra hne
      exact hall ⟨c, hc, eq_false_of_ne_true hne⟩
    unfold srDecode base64Decode at h
    split_ifs at h
    rcases @loop_spaces srCommitLen t hspaces with hloop | hloop
    · rw [hloop] at h
      cases h
    · rw [hloop] at h
      simp [srCommitLen] at h
  obtain ⟨c, hc, hspace⟩ := hnot
  exact trim_ne_nil hc hspace

def commitWords (c : SrCommit) : List (List UInt8) :=
  [decimal srProtoVersion, sha3Name, c.rsaFpr, c.encodedCommit] ++
    if commitHasRevealValue c then [c.encodedReveal] else []

theorem commitLine_eq (c : SrCommit) :
    diskStatePutCommitLine c = [0x20].intercalate (commitWords c) := by
  unfold diskStatePutCommitLine commitWords
  cases commitHasRevealValue c with
  | true => simp [List.intercalate_cons_cons]
  | false => simp [List.intercalate_cons_cons]

/-- A word in which there is neither white space nor anything below the digits. -/
theorem trimmed_of_forall {w : List UInt8} (h : ∀ c ∈ w, isSpace c = false) : Trimmed w :=
  ⟨fun c hc => h c (List.mem_of_mem_head? hc), fun c hc => h c (List.mem_of_getLast? hc)⟩

theorem isSpace_of_le {c : UInt8} (h : 48 ≤ c.toNat) : isSpace c = false := by
  unfold isSpace
  have hne : c ≠ 32 := by
    rintro rfl
    exact absurd h (by decide)
  have hgt : ¬c ≤ 13 := by
    rw [UInt8.le_iff_toNat_le]
    exact not_le.mpr (lt_of_lt_of_le (by decide) h)
  simp [hne, hgt]

theorem not_mem_of_isSpace {w : List UInt8} (h : ∀ c ∈ w, isSpace c = false) : (0x20 : UInt8) ∉ w :=
  fun hmem => Bool.false_ne_true ((h 0x20 hmem).symm.trans rfl)

theorem isSpace_decimal (n : ℕ) : ∀ x ∈ decimal n, isSpace x = false :=
  fun _ hx => isSpace_of_isDigit (isDigit_of_mem_decimal hx)

theorem isSpace_rsaFpr (c : SrCommit) : ∀ x ∈ c.rsaFpr, isSpace x = false :=
  fun _ hx => isSpace_of_le (printable_of_mem_base16Encode hx)

/-- The words that are the same in all commit lines, and the fingerprint. -/
theorem commitWords_trim {c : SrCommit} (h : Stored c) :
    splitSpaces (diskStatePutCommitLine c) =
      [decimal srProtoVersion, sha3Name, c.rsaFpr, trim c.encodedCommit] ++
        if commitHasRevealValue c then [trim c.encodedReveal] else [] := by
  have hversion := isSpace_decimal srProtoVersion
  have hname : ∀ x ∈ sha3Name, isSpace x = false := by simp [sha3Name, isSpace]
  have hfpr := isSpace_rsaFpr c
  have hfprne : trim c.rsaFpr ≠ [] := by
    rw [trim_eq_self (trimmed_of_forall hfpr)]
    exact List.ne_nil_of_length_pos (by rw [length_rsaFpr]; decide)
  have hreveal : commitHasRevealValue c = true → trim c.encodedReveal ≠ [] := by
    intro hr
    exact trim_ne_nil_of_srDecode (h.reveal (by simpa [commitHasRevealValue] using hr))
  rw [commitLine_eq, splitSpaces_join]
  · unfold commitWords
    rw [List.map_append]
    simp only [List.map_cons, List.map_nil, trim_eq_self (trimmed_of_forall hversion),
      trim_eq_self (trimmed_of_forall hname), trim_eq_self (trimmed_of_forall hfpr)]
    cases commitHasRevealValue c with
    | true => rfl
    | false => rfl
  · exact List.cons_ne_nil _ _
  · intro w hw
    unfold commitWords at hw
    simp only [List.mem_append, List.mem_cons, List.not_mem_nil, or_false] at hw
    rcases hw with (rfl | rfl | rfl | rfl) | hw
    · exact not_mem_of_isSpace hversion
    · exact not_mem_of_isSpace hname
    · exact not_mem_of_isSpace hfpr
    · exact h.commitWord
    · split_ifs at hw
      · rw [List.mem_singleton.mp hw]
        exact h.revealWord
      · cases hw
  · intro w hw
    unfold commitWords at hw
    simp only [List.mem_append, List.mem_cons, List.not_mem_nil, or_false] at hw
    rcases hw with (rfl | rfl | rfl | rfl) | hw
    · decide
    · decide
    · exact hfprne
    · exact trim_ne_nil_of_srDecode h.commit
    · split_ifs at hw with hr
      · rw [List.mem_singleton.mp hw]
        exact hreveal hr
      · cases hw

/-- **A commit line is read back**, if there is no white space at the ends of its values. -/
theorem parse_commitLine {c : SrCommit} {commits : List SrCommit} (h : Stored c)
    (hcommit : Trimmed c.encodedCommit) (hreveal : Trimmed c.encodedReveal) :
    parseCommitLine commits ⟨dstateCommitKey, some (diskStatePutCommitLine c)⟩ =
      some (commitAddToState commits c) := by
  have hsplit := commitWords_trim h
  rw [trim_eq_self hcommit, trim_eq_self hreveal] at hsplit
  have hid : base16Decode (c.rsaFpr.take 40) = some c.rsaIdentity.val := by
    have hlen := length_rsaFpr c
    rw [← hlen, List.take_length, SrCommit.rsaFpr, base16Decode_encode]
  have hversion : ¬srProtoVersion < wholeUlong (decimal srProtoVersion) 1 (2 ^ 32 - 1) := by decide
  have hparse : srParseCommit (splitSpaces (diskStatePutCommitLine c)) = some { c with valid := false } := by
    rw [hsplit]
    cases hr : commitHasRevealValue c with
    | false =>
      have hnil : c.encodedReveal = [] := by simpa [commitHasRevealValue] using hr
      obtain ⟨hts, hrn⟩ := h.noReveal hnil
      simp only [List.cons_append, List.nil_append, srParseCommit, if_neg hversion, ne_eq,
        not_true_eq_false, if_false, length_rsaFpr, hid, h.commit, Bytes.pad_val, Bool.false_eq_true,
        lt_irrefl]
      rw [← hts, ← hrn, ← hnil]
    | true =>
      have hne : c.encodedReveal ≠ [] := by simpa [commitHasRevealValue] using hr
      simp only [List.cons_append, List.nil_append, srParseCommit, if_neg hversion, ne_eq,
        not_true_eq_false, if_false, length_rsaFpr, hid, h.commit, Bytes.pad_val, if_true, h.reveal hne,
        lt_irrefl]
  have hlength : ¬(splitSpaces (diskStatePutCommitLine c)).length < 3 := by
    rw [hsplit]
    simp
  have hkey : isKey dstateCommitKey dstateCommitKey = true := by decide
  unfold parseCommitLine
  simp only [hkey, if_neg hlength, hparse]
  rw [← h.valid]

/-! ### Lines of shared random values -/

theorem torParseUlong_decimal {n : ℕ} (h : n < 2 ^ 64) :
    torParseUlong (decimal n) 0 (2 ^ 64 - 1) = some (n, []) := by
  obtain ⟨d, ds, hds⟩ := List.exists_cons_of_ne_nil (decimal_ne_nil n)
  have hd : isDigit d = true := isDigit_of_mem_decimal (n := n) (by rw [hds]; exact List.mem_cons_self)
  have hspace : (decimal n).dropWhile isSpace = decimal n :=
    dropWhile_of_head (trimmed_of_forall (isSpace_decimal n)).1
  have hsign : sign (d :: ds) = (false, d :: ds) := (@sign_signText ds d none hd).2
  have hread := @readDecimal_decimal n [] (by simp)
  rw [List.append_nil] at hread
  have hnumber : strtoNumber (decimal n) = some (false, n, []) := by
    unfold strtoNumber
    rw [hspace, hds, hsign]
    dsimp only
    rw [← hds, hread]
    rfl
  unfold torParseUlong
  rw [hnumber]
  dsimp only
  rw [if_neg (by omega), if_neg Bool.false_ne_true, if_neg (by omega)]

/-- **A line of a shared random value is read back.** -/
theorem parse_srvLine (srv : SrSrv) : diskStateParseSrv (diskStatePutSrvLine srv) = some srv := by
  have hnumber := isSpace_decimal srv.numReveals.toNat
  have hvalue : ∀ x ∈ base64Encode srv.value.val, isSpace x = false :=
    fun _ hx => isSpace_of_mem_base64Encode hx
  have hlen : (base64Encode srv.value.val).length = srSrvValueBase64Len := by
    rw [length_base64Encode, srv.value.length_eq]
    rfl
  have htrimNumber : trim (decimal srv.numReveals.toNat) = decimal srv.numReveals.toNat :=
    trim_eq_self (trimmed_of_forall hnumber)
  have htrimValue : trim (base64Encode srv.value.val) = base64Encode srv.value.val :=
    trim_eq_self (trimmed_of_forall hvalue)
  have hsplit : splitSpaces (diskStatePutSrvLine srv) =
      [decimal srv.numReveals.toNat, base64Encode srv.value.val] := by
    have hjoin : diskStatePutSrvLine srv =
        [0x20].intercalate [decimal srv.numReveals.toNat, base64Encode srv.value.val] := by
      simp [diskStatePutSrvLine, List.intercalate_cons_cons]
    rw [hjoin, splitSpaces_join (List.cons_ne_nil _ _)]
    · rw [List.map_cons, List.map_singleton, htrimNumber, htrimValue]
    · intro w hw
      rcases List.mem_pair.mp hw with rfl | rfl
      · exact not_mem_of_isSpace hnumber
      · exact not_mem_of_isSpace hvalue
    · intro w hw
      rcases List.mem_pair.mp hw with rfl | rfl
      · rw [htrimNumber]
        exact decimal_ne_nil _
      · rw [htrimValue]
        exact List.ne_nil_of_length_pos (by rw [hlen]; decide)
  -- the padding character at the end is not decoded
  have hdecode : base64Decode 32 ((base64Encode srv.value.val).take (srSrvValueBase64Len - 1)) =
      some srv.value.val := by
    obtain ⟨l, hl⟩ := @exists_base64Encode_pad srv.value.val (by rw [srv.value.length_eq]; decide)
    have hfull := @Encoding.decode_encode 32 srv.value.val srv.value.length_eq.le
    rw [hl, List.length_append, List.length_singleton] at hlen
    have htake : (l ++ [0x3d]).take (srSrvValueBase64Len - 1) = l := List.take_left' (by omega)
    rw [hl, Encoding.base64Decode_list, Encoding.loop_pad, ← Encoding.base64Decode_list] at hfull
    rw [hl, htake]
    exact hfull
  unfold diskStateParseSrv
  rw [hsplit]
  unfold srParseSrv
  simp only [List.length_cons, List.length_nil, torParseUlong_decimal srv.numReveals.toNat_lt, hlen,
    ne_eq, not_true_eq_false, if_false, hdecode, srv.value.length_eq, if_true, Bytes.pad_val,
    UInt64.ofNat_toNat]
  rfl

/-! ### The whole state -/

theorem parse_srvLines (p q : Option SrSrv) :
    (srvLine dstatePrevSrvKey p ++ srvLine dstateCurSrvKey q).foldlM parseSrLine (none, none) =
      some (p, q) := by
  have hprev : isKey dstatePrevSrvKey dstatePrevSrvKey = true := by decide
  have hother : isKey dstateCurSrvKey dstatePrevSrvKey = false := by decide
  have hcur : isKey dstateCurSrvKey dstateCurSrvKey = true := by decide
  have hprevLine : ∀ (srv : SrSrv) (q : Option SrSrv),
      parseSrLine (none, q) ⟨dstatePrevSrvKey, some (diskStatePutSrvLine srv)⟩ = some (some srv, q) := by
    intro srv q
    simp [parseSrLine, parse_srvLine, hprev]
  have hcurLine : ∀ (srv : SrSrv) (p : Option SrSrv),
      parseSrLine (p, none) ⟨dstateCurSrvKey, some (diskStatePutSrvLine srv)⟩ = some (p, some srv) := by
    intro srv p
    simp [parseSrLine, parse_srvLine, hother, hcur]
  cases p with
  | none =>
    cases q with
    | none => rfl
    | some srv => simp [srvLine, hcurLine]
  | some srv =>
    cases q with
    | none => simp [srvLine, hprevLine]
    | some srv' => simp [srvLine, hprevLine, hcurLine]

/-- No two commits of one authority. -/
def Distinct (commits : List SrCommit) : Prop :=
  commits.Pairwise fun x y => x.rsaIdentity ≠ y.rsaIdentity

theorem commitAddToState_eq {commits : List SrCommit} {c : SrCommit} (h : Distinct (commits ++ [c])) :
    commitAddToState commits c = commits ++ [c] := by
  obtain ⟨_, _, hcross⟩ := List.pairwise_append.mp h
  unfold commitAddToState
  rw [List.filter_eq_self.mpr]
  intro x hx
  exact decide_eq_true (hcross x hx c (List.mem_singleton_self c))

theorem parse_commitLines (l : List SrCommit) :
    ∀ commits : List SrCommit, Distinct (commits ++ l) →
      (∀ c ∈ l, Stored c ∧ Trimmed c.encodedCommit ∧ Trimmed c.encodedReveal) →
        (l.map fun c => (⟨dstateCommitKey, some (diskStatePutCommitLine c)⟩ : StateLine)).foldlM
          parseCommitLine commits = some (commits ++ l) := by
  induction l with
  | nil =>
    intro commits _ _
    rw [List.append_nil]
    rfl
  | cons c l ih =>
    intro commits hdistinct hl
    obtain ⟨hstored, hcommit, hreveal⟩ := hl c List.mem_cons_self
    have hsplit : commits ++ c :: l = (commits ++ [c]) ++ l := by simp
    rw [hsplit] at hdistinct ⊢
    rw [List.map_cons, List.foldlM_cons, parse_commitLine hstored hcommit hreveal,
      commitAddToState_eq (List.pairwise_append.mp hdistinct).1]
    exact ih (commits ++ [c]) hdistinct fun x hx => hl x (List.mem_cons_of_mem c hx)

/-- **A parsed commit**: its values are words, and decoded. -/
theorem srParseCommit_spec {args : List (List UInt8)} {c : SrCommit} (h : srParseCommit args = some c) :
    c.encodedCommit ∈ args ∧ srDecode c.encodedCommit = some (c.commitTs, c.hashedReveal) ∧
      (c.encodedReveal = [] ∧ c.revealTs = 0 ∧ c.randomNumber = Bytes.pad 32 [] ∨
        c.encodedReveal ∈ args ∧ srDecode c.encodedReveal = some (c.revealTs, c.randomNumber)) := by
  unfold srParseCommit at h
  split at h
  · split_ifs at h
    split at h
    · next hdecode =>
      dsimp only at h
      split at h
      · cases h
        exact ⟨by simp, hdecode, .inl ⟨rfl, rfl, rfl⟩⟩
      · split at h
        · next hreveal =>
          cases h
          exact ⟨by simp, hdecode, .inr ⟨by simp, hreveal⟩⟩
        · cases h
    · cases h
  · cases h

theorem trimmed_of_parseCommitLines {lines : List StateLine} {commits : List SrCommit}
    (h : lines.foldlM parseCommitLine [] = some commits) :
    ∀ c ∈ commits, Trimmed c.encodedCommit ∧ Trimmed c.encodedReveal := by
  refine option_foldlM_invariant lines
    (I := fun commits => ∀ c ∈ commits, Trimmed c.encodedCommit ∧ Trimmed c.encodedReveal) ?_
    (by simp) h
  intro line _ l l' hl hstep
  unfold parseCommitLine at hstep
  split at hstep
  · next value _ _ =>
    dsimp only at hstep
    split_ifs at hstep
    split at hstep
    · cases hstep
      exact hl
    · next commit hparse =>
      cases hstep
      obtain ⟨hcommit, _, hreveal⟩ := srParseCommit_spec hparse
      intro c hc
      rcases List.mem_append.mp hc with hc | hc
      · exact hl c (List.mem_of_mem_filter hc)
      · rw [List.mem_singleton.mp hc]
        refine ⟨trimmed_of_mem_splitSpaces hcommit, ?_⟩
        rcases hreveal with ⟨hnil, _, _⟩ | ⟨hreveal, _⟩
        · show Trimmed commit.encodedReveal
          rw [hnil]
          exact ⟨by simp, by simp⟩
        · exact trimmed_of_mem_splitSpaces hreveal
  · cases hstep
    exact hl

theorem getCommit_iff {commits : List SrCommit} (h : Distinct commits) {id : Bytes 20} {c : SrCommit} :
    getCommit commits id = some c ↔ c ∈ commits ∧ c.rsaIdentity = id := by
  constructor
  · exact getCommit_eq_some
  · rintro ⟨hc, hid⟩
    cases hget : getCommit commits id with
    | none => exact absurd hid (getCommit_eq_none hget c hc)
    | some c' =>
      obtain ⟨hc', hid'⟩ := getCommit_eq_some hget
      by_contra hne
      have hsymm : Std.Symm fun x y : SrCommit => x.rsaIdentity ≠ y.rsaIdentity := ⟨fun _ _ hxy => hxy.symm⟩
      have hcc : c' ≠ c := fun heq => hne (by rw [heq])
      exact h.forall hc' hc hcc (hid'.trans hid.symm)

theorem getCommit_perm {l l' : List SrCommit} (hperm : l.Perm l') (h : Distinct l) (id : Bytes 20) :
    getCommit l id = getCommit l' id := by
  have h' : Distinct l' := hperm.pairwise h fun hxy => hxy.symm
  apply Option.ext
  intro c
  rw [getCommit_iff h, getCommit_iff h', hperm.mem_iff]

/-! ### Every run -/

/-- **The invariant**: the phase is that of the time, and there is one commit, as it is stored, for each
authority. -/
structure Storable (a : Authority) (s : SrState) : Prop where
  phase : s.phase = getSrProtocolPhase a s.validAfter
  distinct : Distinct s.commits
  stored : ∀ c ∈ s.commits, Stored c

variable {a : Authority} {s s' : SrState}

theorem stored_of_srParseCommit {args : List (List UInt8)} {c : SrCommit}
    (hwords : ∀ w ∈ args, (0x20 : UInt8) ∉ w) (h : srParseCommit args = some c) :
    Stored { c with valid := true } := by
  obtain ⟨hmem, hdecode, hreveal⟩ := srParseCommit_spec h
  rcases hreveal with ⟨hnil, hts, hrn⟩ | ⟨hrmem, hrdecode⟩
  · refine ⟨rfl, hdecode, fun _ => ⟨hts, hrn⟩, fun hne => absurd hnil hne, hwords _ hmem, ?_⟩
    show (0x20 : UInt8) ∉ c.encodedReveal
    rw [hnil]
    exact List.not_mem_nil
  · refine ⟨rfl, hdecode, ?_, fun _ => hrdecode, hwords _ hmem, hwords _ hrmem⟩
    intro hnil
    have hblank := trim_ne_nil_of_srDecode hrdecode
    rw [show c.encodedReveal = [] from hnil] at hblank
    exact absurd rfl hblank

/-- What `commit_encode` and `reveal_encode` make is decoded. -/
theorem srDecode_encode (ts : UInt64) (v : Bytes 32) :
    srDecode (base64Encode (beBytes 8 ts.toNat ++ v.val)) = some (ts, v) := by
  have hlen : (beBytes 8 ts.toNat ++ v.val).length = srCommitLen := by
    rw [List.length_append, beBytes_length, v.length_eq]
    rfl
  have hts : beNat (beBytes 8 ts.toNat) = ts.toNat := beNat_beBytes ts.toNat_lt
  unfold srDecode
  rw [length_base64Encode, hlen, if_neg (by decide), Encoding.decode_encode hlen.le]
  dsimp only
  rw [if_pos hlen, List.take_left' (beBytes_length 8 _), List.drop_left' (beBytes_length 8 _), hts,
    UInt64.ofNat_toNat, Bytes.pad_val]

theorem stored_ourCommit (H : Digest256) (me : Bytes 20) (timestamp : ℕ) (rn : Bytes 32) :
    Stored (srGenerateOurCommit H me timestamp rn) := by
  refine ⟨rfl, srDecode_encode _ _, ?_, fun _ => srDecode_encode _ _, ?_, ?_⟩
  · intro hnil
    have hreveal := ourCommit_hasReveal H me timestamp rn
    simp [commitHasRevealValue, hnil] at hreveal
  · exact not_mem_of_isSpace fun _ hx => isSpace_of_mem_base64Encode hx
  · exact not_mem_of_isSpace fun _ hx => isSpace_of_mem_base64Encode hx

theorem distinct_addCommit {commits : List SrCommit} (h : Distinct commits) (c : SrCommit) :
    Distinct (commits.filter (·.rsaIdentity ≠ c.rsaIdentity) ++ [c]) := by
  refine List.pairwise_append.mpr ⟨h.filter _, List.pairwise_singleton _ _, ?_⟩
  intro x hx y hy
  rw [List.mem_singleton.mp hy]
  exact of_decide_eq_true (List.mem_filter.mp hx).2

theorem storable_saveCommit {c : SrCommit} (hs : Storable a s) (hc : Stored c)
    (h : saveCommitToState a s c = some s') : Storable a s' := by
  unfold saveCommitToState at h
  split at h
  · next hphase =>
    cases h
    refine ⟨hs.phase, distinct_addCommit hs.distinct c, ?_⟩
    intro x hx
    rcases List.mem_append.mp hx with hx | hx
    · exact hs.stored x (List.mem_of_mem_filter hx)
    · rw [List.mem_singleton.mp hx]
      exact hc
  · split at h
    · cases h
    · split_ifs at h
      cases h
      refine ⟨hs.phase, ?_, ?_⟩
      · refine List.pairwise_map.mpr (hs.distinct.imp ?_)
        intro x y hxy
        rw [(copyRevealInfo_id c x).1, (copyRevealInfo_id c y).1]
        exact hxy
      · intro y hy
        obtain ⟨x, hx, rfl⟩ := List.mem_map.mp hy
        have hstored := hs.stored x hx
        unfold copyRevealInfo
        split_ifs
        · exact ⟨hstored.valid, hstored.commit, hc.noReveal, hc.reveal, hstored.commitWord, hc.revealWord⟩
        · exact hstored

/-- **A vote** keeps the invariant. -/
theorem storable_vote {voterKey : Bytes 20} {lines : List (List (List UInt8))} (hs : Storable a s)
    (htext : (SrEvent.vote voterKey lines).FromText)
    (h : srHandleReceivedCommits a s voterKey lines = some s') : Storable a s' := by
  refine option_foldlM_invariant (lines.filterMap srParseCommit) (I := Storable a) ?_ hs h
  intro c hc t t' ht hstep
  obtain ⟨args, hargs, hparse⟩ := List.mem_filterMap.mp hc
  obtain ⟨line, hline⟩ := htext args hargs
  have hwords : ∀ w ∈ args, (0x20 : UInt8) ∉ w := by
    intro w hw hmem
    have hend := plain_of_getTokenArguments hline w hw 0x20 hmem
    exact absurd hend (by decide)
  unfold handleCommit at hstep
  split_ifs at hstep
  · exact storable_saveCommit ht (stored_of_srParseCommit hwords hparse) hstep
  · cases hstep
    exact ht

theorem addOurCommit_spec {u : SrState} {validAfter : ℕ} {random : Option (Bytes 32)}
    (hnil : u.commits = []) :
    Distinct (addOurCommit a u validAfter random).commits ∧
      ∀ c ∈ (addOurCommit a u validAfter random).commits, Stored c := by
  unfold addOurCommit
  cases random with
  | none =>
    rw [hnil]
    exact ⟨List.Pairwise.nil, by simp⟩
  | some rn =>
    simp only [addCommit, hnil, List.filter_nil, List.nil_append]
    exact ⟨List.pairwise_singleton _ _, List.forall_mem_singleton.mpr (stored_ourCommit _ _ _ _)⟩

/-- **The next round** keeps the invariant. -/
theorem storable_update {validAfter : ℕ} {random : Option (Bytes 32)}
    (hs : Distinct s.commits ∧ ∀ c ∈ s.commits, Stored c) (hlt : s.validAfter < validAfter)
    (h : srStateUpdate a s validAfter random = some s') : Storable a s' := by
  rcases srStateUpdate_cases h with ⟨hle, _⟩ | ⟨_, t, ht, hphase, hva, hcommits, _, _⟩
  · exact absurd hle (Nat.not_le_of_lt hlt)
  obtain ⟨htphase, hcases⟩ := enterPhase_cases ht
  have hphase' : s'.phase = getSrProtocolPhase a s'.validAfter := by rw [hphase, htphase, hva]
  rcases hcases with ⟨u, hnil, rfl, _⟩ | ⟨htc, _⟩
  · obtain ⟨hdistinct, hstored⟩ := @addOurCommit_spec a u validAfter random hnil
    refine ⟨hphase', ?_, ?_⟩
    · rw [hcommits]
      exact hdistinct
    · rw [hcommits]
      exact hstored
  · refine ⟨hphase', ?_, ?_⟩
    · rw [hcommits, htc]
      exact hs.1
    · rw [hcommits, htc]
      exact hs.2

theorem storable_of_step {e : SrEvent} (hs : Storable a s) (htext : e.FromText)
    (h : s.step a e = some s') : Storable a s' := by
  cases e with
  | update validAfter random =>
    by_cases hlt : s.validAfter < validAfter
    · exact storable_update ⟨hs.distinct, hs.stored⟩ hlt h
    · rcases srStateUpdate_cases h with ⟨_, rfl⟩ | ⟨hlt', _⟩
      · exact hs
      · exact absurd hlt' hlt
  | vote voterKey lines => exact storable_vote hs htext h

theorem storable_init {now validAfter : ℕ} {random : Option (Bytes 32)}
    (h : srStateInit a now validAfter random = some s) (hpos : 0 < validAfter) : Storable a s :=
  have hnone : Distinct ([] : List SrCommit) ∧ ∀ c ∈ ([] : List SrCommit), Stored c :=
    ⟨List.Pairwise.nil, by simp⟩
  storable_update hnone hpos h

/-- A state that is stored as it should is read back exactly if its values are trimmed. -/
theorem restarts_iff_of_storable (hs : Storable a s) (version validUntil : ℕ) :
    Restarts a ⟨s, version, validUntil⟩ ↔ s.ValuesTrimmed := by
  have hperm := a.order_perm s.commits
  have hsrvs := parse_srvLines s.previousSrv s.currentSrv
  constructor
  · rintro ⟨s', hparse, hsame, _⟩
    unfold diskStateParse diskStateUpdate at hparse
    obtain ⟨srvs, _, hparse⟩ := Option.bind_eq_some_iff.mp hparse
    obtain ⟨commits, hcommits, hs'⟩ := Option.bind_eq_some_iff.mp hparse
    cases hs'
    intro c hc
    have hget : getCommit commits c.rsaIdentity = some c := by
      rw [hsame c.rsaIdentity]
      exact (getCommit_iff hs.distinct).mpr ⟨hc, rfl⟩
    exact trimmed_of_parseCommitLines hcommits c (getCommit_eq_some hget).1
  · intro htrimmed
    have hdistinct : Distinct (a.order s.commits) := hperm.symm.pairwise hs.distinct fun hxy => hxy.symm
    have hcommits := parse_commitLines (a.order s.commits) [] hdistinct fun c hc =>
      ⟨hs.stored c (hperm.mem_iff.mp hc), htrimmed c (hperm.mem_iff.mp hc)⟩
    rw [List.nil_append] at hcommits
    refine ⟨⟨⟨getSrProtocolPhase a s.validAfter, s.validAfter, a.order s.commits, s.previousSrv,
      s.currentSrv, false, 0, 0, 0, fun _ => 0, fun _ => none⟩, version, validUntil⟩, ?_, ?_⟩
    · unfold diskStateParse diskStateUpdate
      dsimp only
      rw [hsrvs, hcommits]
      rfl
    · exact ⟨getCommit_perm hperm hdistinct, rfl, rfl, rfl, rfl, hs.phase.symm⟩

/-- **Every run** keeps the invariant. -/
theorem storable_of_run {now validAfter : ℕ} {random : Option (Bytes 32)} {s₀ : SrState}
    {events : List SrEvent} (hinit : srStateInit a now validAfter random = some s₀)
    (hpos : 0 < validAfter)
    (hrun : Run (fun s e s' => e.FromText ∧ s.step a e = some s') s₀ events s) : Storable a s := by
  refine Run.invariant (I := Storable a) ?_ hrun (storable_init hinit hpos)
  intro t e t' ht hte
  exact storable_of_step ht hte.1 hte.2

/-- **Surviving a restart**: in every state of every run, what is written is read back exactly if there is
no white space at the ends of the values of the commits. -/
theorem restarts_iff {now validAfter : ℕ} {random : Option (Bytes 32)} {s₀ : SrState}
    {events : List SrEvent} (hinit : srStateInit a now validAfter random = some s₀)
    (hpos : 0 < validAfter)
    (hrun : Run (fun s e s' => e.FromText ∧ s.step a e = some s') s₀ events s)
    (version validUntil : ℕ) : Restarts a ⟨s, version, validUntil⟩ ↔ s.ValuesTrimmed :=
  restarts_iff_of_storable (storable_of_run hinit hpos hrun) version validUntil

def fprTwo : List UInt8 := [0x30, 0x32] ++ List.replicate 38 0x30

/-- A commit line of a vote: the value is of zeros, without padding, and ends in a vertical tab. -/
def verticalTabWords : List (List UInt8) :=
  [[0x31], sha3Name, fprTwo, List.replicate 54 0x41 ++ [0x0b]]

theorem fromText_verticalTab : (SrEvent.vote (Bytes.pad 20 [2]) [verticalTabWords]).FromText := by
  have hline : getTokenArguments ([0x20].intercalate verticalTabWords) = some verticalTabWords := by
    decide +kernel
  intro args hargs
  rw [List.mem_singleton.mp hargs]
  exact ⟨_, hline⟩

/-- An authority that has only made its own commit restarts. -/
theorem restarts_iff_ourCommit :
    ∃ s, srStateInit quickAuthority 23 24 (some (Bytes.pad 32 [7])) = some s ∧ s.commits.length = 1 ∧
      Restarts quickAuthority ⟨s, 1, 48⟩ := by
  have hfields : (srStateInit quickAuthority 23 24 (some (Bytes.pad 32 [7]))).map (fun s =>
      (s.commits.length, s.commits.all fun c => Trimmed c.encodedCommit ∧ Trimmed c.encodedReveal)) =
        some (1, true) := by
    decide +kernel
  obtain ⟨s, hs, hfields⟩ := Option.map_eq_some_iff.mp hfields
  have hlen : s.commits.length = 1 := congrArg Prod.fst hfields
  have hall : (s.commits.all fun c => Trimmed c.encodedCommit ∧ Trimmed c.encodedReveal) = true :=
    congrArg Prod.snd hfields
  have htrimmed : s.ValuesTrimmed := fun c hc => of_decide_eq_true (List.all_eq_true.mp hall c hc)
  exact ⟨s, hs, hlen, (restarts_iff hs (by decide) (.nil s) 1 48).mpr htrimmed⟩

/-- A vote brings a commit whose value ends in a vertical tab: the value is read back without it. -/
theorem not_restarts_verticalTab :
    ¬∀ (a : Authority) (now validAfter : ℕ) (random : Option (Bytes 32)) (s₀ s : SrState)
      (events : List SrEvent), srStateInit a now validAfter random = some s₀ → 0 < validAfter →
        Run (fun s e s' => e.FromText ∧ s.step a e = some s') s₀ events s →
          ∀ version validUntil, Restarts a ⟨s, version, validUntil⟩ := by
  intro hall
  have hvote : (srStateInit quickAuthority 23 24 (some (Bytes.pad 32 [7])) >>= fun s =>
      s.step quickAuthority (.vote (Bytes.pad 20 [2]) [verticalTabWords])).map (fun s =>
        s.commits.all fun c => Trimmed c.encodedCommit) = some false := by
    decide +kernel
  obtain ⟨s, hs, huntrimmed⟩ := Option.map_eq_some_iff.mp hvote
  obtain ⟨s₀, hs₀, hstep⟩ := Option.bind_eq_some_iff.mp hs
  have hrun : Run (fun s e s' => e.FromText ∧ s.step quickAuthority e = some s') s₀
      [.vote (Bytes.pad 20 [2]) [verticalTabWords]] s := .cons ⟨fromText_verticalTab, hstep⟩ (.nil s)
  have hrestarts := hall quickAuthority 23 24 _ s₀ s _ hs₀ (by decide) hrun 1 48
  have htrimmed : s.ValuesTrimmed :=
    (restarts_iff_of_storable (storable_of_run hs₀ (by decide) hrun) 1 48).mp hrestarts
  have htrue : (s.commits.all fun c => Trimmed c.encodedCommit) = true :=
    List.all_eq_true.mpr fun c hc => decide_eq_true (htrimmed c hc).1
  rw [huntrimmed] at htrue
  cases htrue

end TorEbpf.Dirauth
